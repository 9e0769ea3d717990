import Metafolder.QueuedMoves
import Metafolder.ScopeRuns

/-!
# What is told of files moved

Once files were moved and the queue is read whole, the moves told of one file follow on from one
another and lead to where it is exactly when every stretch of its moves that was not queued leads
back to where it began, the last one perhaps along a move that was.
-/

namespace Metafolder
namespace Watchd

open LostSteps

namespace Group

/-! ### Of which object each event is told -/

/-- What is told of each event of the kernel, by the object it names. -/
def tellEach (group : Group) (moves : Moves) : List RawEvent → List (Option Handle × List Event)
  | [] => []
  | raw :: rest =>
      let (told, moves, after) := group.translateEach moves [raw]
      (raw.fid, told) :: after.tellEach moves rest

/-- What is put back of each object. -/
def tellRestored (group : Group) : Moves → List (Option Handle × List Event)
  | [] => []
  | held :: rest =>
      let (restored, after) := group.restoreMergedMoves [held]
      (some held.1, restored) :: after.tellRestored rest

/-- What a batch tells, by the objects. -/
def tells (group : Group) (raws : List RawEvent) : List (Option Handle × List Event) :=
  let (_, moves, after) := group.translateEach [] raws
  group.tellEach [] raws ++ after.tellRestored moves

/-- What is told of one object. -/
def toldFor (handle : Handle) (told : List (Option Handle × List Event)) : List Event :=
  (told.filter fun entry => entry.1 == some handle).flatMap Prod.snd

/-- What is read of the queue, but for overflows, and the group as it translates it. -/
def taken (group : Group) (count : Nat) (meanwhile : List Meanwhile) : List RawEvent × Group :=
  ((group.kernel.queue.take count).filter fun raw => !raw.mask.qOverflow,
    { group with kernel.queue := group.kernel.queue.drop count, coming := meanwhile })

/-- What one read tells, by the objects. -/
def readTells (group : Group) (count : Nat) (meanwhile : List Meanwhile) :
    List (Option Handle × List Event) :=
  let (raws, group) := group.taken count meanwhile
  group.tells raws

theorem translateEach_cons (group : Group) (moves : Moves) (raw : RawEvent) (rest : List RawEvent) :
    group.translateEach moves (raw :: rest) =
      let (told, moves, after) := group.translateEach moves [raw]
      let (others, moves, after) := after.translateEach moves rest
      (told ++ others, moves, after) := by
  simp only [translateEach]
  generalize (if raw.isDirectoryMove = true then group.forget else group) = fresh
  cases (fresh.relevant raw).1 with
  | true => simp
  | false => simp

theorem restoreMergedMoves_cons (group : Group) (held : Handle × List (PathBuf × PathBuf))
    (rest : Moves) : group.restoreMergedMoves (held :: rest) =
      let (restored, after) := group.restoreMergedMoves [held]
      let (others, after) := after.restoreMergedMoves rest
      (restored ++ others, after) := by
  obtain ⟨handle, hops⟩ := held
  simp only [restoreMergedMoves]
  split
  · rfl
  · simp

theorem tellEach_events (group : Group) (moves : Moves) (raws : List RawEvent) :
    (group.tellEach moves raws).flatMap Prod.snd = (group.translateEach moves raws).1 := by
  induction raws generalizing group moves with
  | nil => rfl
  | cons raw rest ih =>
      rw [translateEach_cons, tellEach]
      exact congrArg (_ ++ ·) (ih _ _)

theorem tellRestored_events (group : Group) (moves : Moves) :
    (group.tellRestored moves).flatMap Prod.snd = (group.restoreMergedMoves moves).1 := by
  induction moves generalizing group with
  | nil => rfl
  | cons held rest ih =>
      rw [restoreMergedMoves_cons, tellRestored]
      exact congrArg (_ ++ ·) (ih _)

/-- What a batch tells by the objects is what it tells. -/
theorem tells_events (group : Group) (raws : List RawEvent) :
    (group.tells raws).flatMap Prod.snd = (group.translateBatch raws).1 := by
  rw [tells, List.flatMap_append, tellEach_events, tellRestored_events]
  rfl

/-- So is what one read tells. -/
theorem readTells_events (group : Group) (count : Nat) (meanwhile : List Meanwhile) :
    (group.readTells count meanwhile).flatMap Prod.snd = (group.read count meanwhile).1.1 :=
  tells_events _ _

/-! ### What is remembered -/

/-- What is remembered of directories is where they are. -/
structure Recalls (group : Group) : Prop where
  idle : group.coming = []
  cache : ∀ entry ∈ group.translator.cache,
    (∃ object, group.kernel.objects[entry.1]? = some object ∧ object.dir = true) ∧
      ∀ path, group.kernel.pathOf entry.1 = some path → entry.2 = path
  verdicts : ∀ entry ∈ group.translator.scope.verdicts,
    (∃ object, group.kernel.objects[entry.1]? = some object ∧ object.dir = true) ∧
      ∀ path, group.kernel.pathOf entry.1 = some path → entry.2 = underRoot group.roots path

/-- A group that asked the kernel something. -/
structure Asked (group after : Group) : Prop where
  kernel : after.kernel = group.kernel
  roots : after.roots = group.roots
  recalls : after.Recalls

theorem Asked.trans {first second third : Group} (one : Asked first second)
    (other : Asked second third) : Asked first third :=
  ⟨other.kernel.trans one.kernel, other.roots.trans one.roots, other.recalls⟩

variable {group : Group} {handle : Handle} {path : PathBuf} {raw : RawEvent}

namespace Recalls

theorem refl (recalls : group.Recalls) : Asked group group := ⟨rfl, rfl, recalls⟩

theorem resolve (recalls : group.Recalls) (stands : group.kernel.Stands handle path) :
    ∃ after, group.resolve handle = (some path, after) ∧ Asked group after := by
  rw [Group.resolve, ask_of_idle recalls.idle]
  simp only [Bool.false_eq_true, if_false, if_true, stands.2]
  cases held : group.translator.cache.lookup handle with
  | some known =>
      obtain ⟨before, others, split, -⟩ := List.lookup_eq_some_iff.mp held
      have right := (recalls.cache (handle, known)
        (split ▸ List.mem_append_right _ List.mem_cons_self)).2 path stands.2
      refine ⟨group, ?_, recalls.refl⟩
      rw [← right]
  | none =>
      refine ⟨_, rfl, rfl, rfl, recalls.idle, fun entry member => ?_, recalls.verdicts⟩
      rcases List.mem_cons.mp member with rfl | older
      · exact ⟨stands.1, fun other there => Option.some.inj (stands.2.symm.trans there)⟩
      · have kept := List.mem_of_mem_filter older
        split at kept
        · cases kept
        · exact recalls.cache entry kept

/-- A file that is gone is found nowhere. -/
theorem resolve_gone (recalls : group.Recalls) {object : Object}
    (found : group.kernel.objects[handle]? = some object) (file : object.dir = false)
    (gone : object.at_ = none) : group.resolve handle = (none, group) := by
  have nowhere : group.kernel.pathOf handle = none := by
    rw [Kernel.pathOf, found]
    simp [gone]
  rw [Group.resolve, ask_of_idle recalls.idle]
  simp only [Bool.false_eq_true, if_false, if_true, nowhere]
  cases held : group.translator.cache.lookup handle with
  | none => rfl
  | some known =>
      obtain ⟨before, others, split, -⟩ := List.lookup_eq_some_iff.mp held
      obtain ⟨⟨other, here, dir⟩, -⟩ := recalls.cache (handle, known)
        (split ▸ List.mem_append_right _ List.mem_cons_self)
      obtain rfl := Option.some.inj (found.symm.trans here)
      rw [file] at dir
      cases dir

theorem dirUnderRoot (recalls : group.Recalls) (stands : group.kernel.Stands handle path) :
    ∃ after, group.dirUnderRoot handle = (underRoot group.roots path, after) ∧
      Asked group after := by
  rw [Group.dirUnderRoot]
  cases held : group.translator.scope.verdicts.lookup handle with
  | some known =>
      obtain ⟨before, others, split, -⟩ := List.lookup_eq_some_iff.mp held
      have right := (recalls.verdicts (handle, known)
        (split ▸ List.mem_append_right _ List.mem_cons_self)).2 path stands.2
      refine ⟨group, ?_, recalls.refl⟩
      rw [← right]
  | none =>
      obtain ⟨after, found, asked⟩ := recalls.resolve stands
      simp only [found]
      have there := (congrArg (Kernel.pathOf · handle) asked.kernel).trans stands.2
      refine ⟨after.judge handle (underRoot after.roots path), ?_, asked.kernel, asked.roots,
        asked.recalls.idle, asked.recalls.cache, fun entry member => ?_⟩
      · rw [asked.roots]
      · rw [Group.judge] at member
        rcases List.mem_cons.mp member with rfl | older
        · refine ⟨?_, fun other now => ?_⟩
          · change ∃ object, after.kernel.objects[handle]? = some object ∧ object.dir = true
            rw [asked.kernel]
            exact stands.1
          · rw [Option.some.inj (there.symm.trans now)]
            rfl
        · split at older
          · cases older
          · exact asked.recalls.verdicts entry older

/-- The move of a file into a directory under a root concerns the root. -/
theorem relevant_move (recalls : group.Recalls) {source target : PathBuf}
    (move : group.kernel.MoveOf group.roots raw handle source target) :
    ∃ after, group.relevant raw = (true, after) ∧ Asked group after := by
  obtain ⟨left, below, last, old, -, stands, -⟩ := move.old
  obtain ⟨into, above, name, new, -, there, -, under⟩ := move.new
  obtain ⟨first, asked, kept⟩ := recalls.dirUnderRoot stands
  have dirs : dirsOf raw = [left, into] := by simp [dirsOf, move.parent, old, new]
  rw [relevant, if_neg (by simp [RawEvent.isDirectoryMove, move.mask]), dirs]
  simp only [someUnderRoot, asked]
  cases here : underRoot group.roots below with
  | true => exact ⟨first, rfl, kept⟩
  | false =>
      obtain ⟨second, again, also⟩ := kept.recalls.dirUnderRoot (kept.kernel ▸ there)
      rw [kept.roots, under] at again
      simp only [again, Bool.false_eq_true, if_false, if_true]
      exact ⟨second, rfl, kept.trans also⟩

/-- The end of a file concerns no root: it is found nowhere. -/
theorem relevant_end (recalls : group.Recalls) (ended : group.kernel.EndOf raw) :
    group.relevant raw = (false, group) := by
  obtain ⟨handle, object, fid, found, file, gone⟩ := ended.gone
  have dirs : dirsOf raw = [] := by simp [dirsOf, ended.parent, ended.old, ended.new]
  rw [relevant, if_neg (by simp [RawEvent.isDirectoryMove, ended.onDir]), dirs]
  have uncounted : group.countDropped raw = group := by
    rw [countDropped, ended.parent]
    split
    · rfl
    · rfl
  simp only [someUnderRoot, uncounted, fid, recalls.resolve_gone found file gone]
  rfl

/-- The path an event names by a directory. -/
theorem recordPath (recalls : group.Recalls) (stands : group.kernel.Stands handle path)
    {name : Bytes} (legal : legalName name) :
    ∃ after, group.recordPath handle name = (some (path.join name), after) ∧ Asked group after := by
  obtain ⟨after, found, asked⟩ := recalls.resolve stands
  refine ⟨after, ?_, asked⟩
  rw [Group.recordPath, found]
  simp [legal.1, legal.2]

/-- The move of a file is told. -/
theorem translate_move (recalls : group.Recalls) {source target : PathBuf}
    (move : group.kernel.MoveOf group.roots raw handle source target) :
    ∃ after, group.translate raw = ([.rename source target], after) ∧ Asked group after := by
  obtain ⟨left, below, last, old, named, stands, rfl⟩ := move.old
  obtain ⟨into, above, name, new, legal, there, rfl, -⟩ := move.new
  obtain ⟨first, found, asked⟩ := recalls.recordPath stands named
  obtain ⟨second, also, again⟩ := asked.recalls.recordPath (asked.kernel ▸ there) legal
  refine ⟨second, ?_, asked.trans again⟩
  have silent (bit : Bool) (make : PathBuf → Event) :
      group.entryEvent raw bit make = ([], group) := by
    cases bit with
    | true => simp only [entryEvent, move.parent]
    | false => rfl
  have moved : group.moveEvent raw =
      ([.rename (below.join last) (above.join name)], second) := by
    simp only [moveEvent, move.mask, if_true, old, new, sidePath, found, also]
  have ended : second.endEvent raw = ([], second) := by
    rw [endEvent, move.mask]
    rfl
  simp only [translate, silent, moved, ended]
  rfl

/-- The move of a file is told, and noted. -/
theorem translateEach_move (recalls : group.Recalls) {source target : PathBuf}
    (move : group.kernel.MoveOf group.roots raw handle source target) (moves : Moves) :
    ∃ after, group.translateEach moves [raw] =
      ([.rename source target], hop handle source target moves, after) ∧ Asked group after := by
  obtain ⟨first, relevant, asked⟩ := recalls.relevant_move move
  rw [← asked.kernel, ← asked.roots] at move
  obtain ⟨second, told, again⟩ := asked.recalls.translate_move move
  refine ⟨second, ?_, asked.trans again⟩
  have file : raw.isDirectoryMove = false := by simp [RawEvent.isDirectoryMove, move.mask]
  simp only [translateEach, file, Bool.false_eq_true, if_false, relevant, if_true, told, hopOf,
    move.fid, List.getLast?_singleton]
  rfl

/-- The end of a file is not told. -/
theorem translateEach_end (recalls : group.Recalls) (ended : group.kernel.EndOf raw)
    (moves : Moves) : group.translateEach moves [raw] = ([], moves, group) := by
  have file : raw.isDirectoryMove = false := by simp [RawEvent.isDirectoryMove, ended.onDir]
  simp only [translateEach, file, Bool.false_eq_true, if_false, recalls.relevant_end ended]

end Recalls

/-- The event of a move. -/
def moved (move : PathBuf × PathBuf) : Event := .rename move.1 move.2

/-- The moves of one file. -/
def movesFor (handle : Handle) (moves : List (Handle × PathBuf × PathBuf)) :
    List (PathBuf × PathBuf) :=
  (moves.filter fun move => move.1 == handle).map Prod.snd

/-- Moves noted, one after another. -/
def noted (moves : List (Handle × PathBuf × PathBuf)) (held : Moves) : Moves :=
  moves.foldl (fun held move => hop move.1 move.2.1 move.2.2 held) held

/-- What is read is told of each file in order, and noted. -/
theorem Recalls.reads {raws : List RawEvent} {moves : List (Handle × PathBuf × PathBuf)}
    (recalls : group.Recalls) (reads : group.kernel.Reads group.roots raws moves)
    (heard : ∀ raw ∈ raws, raw.mask.qOverflow = false) (held : Moves) :
    (∃ told after, group.translateEach held raws = (told, noted moves held, after) ∧
      Asked group after) ∧
    ∀ handle, toldFor handle (group.tellEach held raws) = (movesFor handle moves).map moved := by
  induction raws generalizing group moves held with
  | nil =>
      cases reads
      exact ⟨⟨[], group, rfl, recalls.refl⟩, fun _ => rfl⟩
  | cons raw rest ih =>
      have later : ∀ raw ∈ rest, raw.mask.qOverflow = false :=
        fun raw member => heard raw (List.mem_cons_of_mem _ member)
      rw [translateEach_cons, tellEach]
      cases reads with
      | @move _ file source target _ moves move reads =>
          obtain ⟨first, told, asked⟩ := recalls.translateEach_move move held
          rw [← asked.kernel, ← asked.roots] at reads
          obtain ⟨⟨others, second, again, also⟩, each⟩ :=
            ih asked.recalls reads later (hop file source target held)
          simp only [told, again]
          refine ⟨⟨_, second, rfl, asked.trans also⟩, fun handle => ?_⟩
          rw [toldFor, movesFor, List.filter_cons, List.filter_cons, move.fid]
          by_cases same : file = handle
          · rw [if_pos (by simp [same]), if_pos (by simp [same])]
            exact congrArg ([Event.rename source target] ++ ·) (each handle)
          · rw [if_neg (by simp [same]), if_neg (by simp [same])]
            exact each handle
      | ended ended reads =>
          obtain ⟨further, each⟩ := ih recalls reads later held
          simp only [recalls.translateEach_end ended held]
          refine ⟨further, fun handle => ?_⟩
          rw [toldFor, List.filter_cons]
          split
          · exact each handle
          · exact each handle
      | lost full reads =>
          rw [heard raw List.mem_cons_self] at full
          cases full

/-! ### What was noted -/

theorem lookup_cons_eq (key : Handle) (head : Handle × List (PathBuf × PathBuf)) (rest : Moves) :
    (head :: rest : Moves).lookup key = if key = head.1 then some head.2 else rest.lookup key := by
  rw [List.lookup_cons]
  by_cases same : key = head.1
  · rw [if_pos same, beq_iff_eq.mpr same]
  · rw [if_neg same, beq_eq_false_iff_ne.mpr same]

theorem lookup_hop (handle other : Handle) (source target : PathBuf) (held : Moves) :
    (hop handle source target held).lookup other =
      if other = handle then some ((held.lookup handle).getD [] ++ [(source, target)])
      else held.lookup other := by
  induction held with
  | nil => exact lookup_cons_eq other (handle, [(source, target)]) []
  | cons head rest ih =>
      rw [hop]
      by_cases here : head.1 = handle
      · rw [if_pos here, lookup_cons_eq, lookup_cons_eq, lookup_cons_eq, here, if_pos rfl,
          Option.getD_some]
        split
        · rfl
        · rfl
      · rw [if_neg here, lookup_cons_eq, lookup_cons_eq, lookup_cons_eq, ih, if_neg (Ne.symm here)]
        by_cases same : other = handle
        · rw [if_pos same, if_pos same, if_neg fun at_ => here (at_.symm.trans same)]
        · rw [if_neg same, if_neg same]

theorem keys_hop (handle : Handle) (source target : PathBuf) (held : Moves) :
    (hop handle source target held).map Prod.fst =
      if handle ∈ held.map Prod.fst then held.map Prod.fst else held.map Prod.fst ++ [handle] := by
  induction held with
  | nil => rfl
  | cons head rest ih =>
      rw [hop]
      by_cases here : head.1 = handle
      · rw [if_pos here, if_pos (by simp [here])]
        rfl
      · rw [if_neg here, List.map_cons, ih, List.map_cons]
        by_cases member : handle ∈ rest.map Prod.fst
        · rw [if_pos member, if_pos (List.mem_cons_of_mem _ member)]
        · rw [if_neg member, if_neg, List.cons_append]
          rw [List.mem_cons, not_or]
          exact ⟨Ne.symm here, member⟩

/-- Of each file the moves are noted in order. -/
theorem lookup_noted (handle : Handle) (moves : List (Handle × PathBuf × PathBuf)) (held : Moves) :
    ((noted moves held).lookup handle).getD [] =
      (held.lookup handle).getD [] ++ movesFor handle moves := by
  induction moves generalizing held with
  | nil => simp [noted, movesFor]
  | cons move rest ih =>
      rw [noted, List.foldl_cons]
      refine (ih _).trans ?_
      rw [lookup_hop, movesFor, movesFor, List.filter_cons]
      by_cases same : move.1 = handle
      · simp [same]
      · simp [same, Ne.symm same]

theorem nodup_noted (moves : List (Handle × PathBuf × PathBuf)) {held : Moves}
    (apart : (held.map Prod.fst).Nodup) : ((noted moves held).map Prod.fst).Nodup := by
  induction moves generalizing held with
  | nil => exact apart
  | cons move rest ih =>
      refine ih ?_
      rw [keys_hop]
      split
      · exact apart
      · next fresh =>
        refine List.nodup_append.mpr ⟨apart, List.pairwise_singleton _ _, ?_⟩
        intro other member last ends same
        rw [same, List.mem_singleton.mp ends] at member
        exact fresh member

/-! ### What is put back -/

/-- What is put back of one file. -/
def restored (kernel : Kernel) (handle : Handle) (moves : List (PathBuf × PathBuf)) :
    List (PathBuf × PathBuf) :=
  (kernel.pathOf handle).elim [] fun now => mend now moves

theorem restored_nil (kernel : Kernel) (handle : Handle) : restored kernel handle [] = [] := by
  rw [restored]
  cases kernel.pathOf handle with
  | none => rfl
  | some now => rfl

theorem Recalls.restore (recalls : group.Recalls) (held : Handle × List (PathBuf × PathBuf)) :
    group.restoreMergedMoves [held] =
      ((restored group.kernel held.1 held.2).map moved, group) := by
  obtain ⟨handle, hops⟩ := held
  have fresh : group.resolveFresh handle = (group.kernel.pathOf handle, group) := by
    rw [resolveFresh, ask_of_idle recalls.idle]
    rfl
  simp only [restoreMergedMoves, restored, mend]
  cases hops.getLast? with
  | none =>
      cases group.kernel.pathOf handle with
      | none => rfl
      | some now => rfl
  | some last =>
      simp only [fresh, List.append_nil]
      cases group.kernel.pathOf handle with
      | none => rfl
      | some now =>
          have listed : (hops.any fun hop => hop.1 == last.2 && hop.2 == now) = true ↔
              (last.2, now) ∈ hops := by
            rw [List.any_eq_true]
            constructor
            · rintro ⟨hop, member, same⟩
              simp only [Bool.and_eq_true, beq_iff_eq] at same
              rwa [← same.1, ← same.2]
            · intro member
              exact ⟨_, member, by simp⟩
          simp only [listed, Option.elim_some]
          split
          · rfl
          · rfl

/-- Of each file what is put back is told once. -/
theorem Recalls.restores (recalls : group.Recalls) {held : Moves}
    (apart : (held.map Prod.fst).Nodup) (handle : Handle) :
    toldFor handle (group.tellRestored held) =
      (restored group.kernel handle ((held.lookup handle).getD [])).map moved := by
  induction held with
  | nil =>
      rw [List.lookup_nil, Option.getD_none, restored_nil]
      rfl
  | cons head rest ih =>
      rw [List.map_cons, List.nodup_cons] at apart
      rw [tellRestored, recalls.restore head, lookup_cons_eq]
      dsimp only
      rw [toldFor, List.filter_cons]
      by_cases same : handle = head.1
      · have absent : rest.lookup handle = none := by
          rw [List.lookup_eq_none_iff]
          intro entry member
          rw [bne_iff_ne]
          rintro rfl
          exact apart.1 (same ▸ List.mem_map_of_mem member)
        have others := ih apart.2
        rw [absent, Option.getD_none, restored_nil] at others
        rw [if_pos (by simp [same]), if_pos same, Option.getD_some, List.flatMap_cons]
        refine (congrArg (_ ++ ·) others).trans ?_
        rw [List.map_nil, List.append_nil, same]
      · rw [if_neg (by simpa using Ne.symm same), if_neg same]
        exact ih apart.2

/-! ### A batch of moves -/

theorem foldl_does (ops : List Op) (group : Group) :
    ops.foldl does group = { group with kernel := ops.foldl Kernel.does group.kernel } := by
  induction ops generalizing group with
  | nil => rfl
  | cons op rest ih => exact ih _

/-- What is remembered of directories stays right as files are moved. -/
theorem Recalls.still (recalls : group.Recalls) {kernel : Kernel}
    (still : Kernel.Still group.kernel kernel) : Recalls { group with kernel := kernel } where
  idle := recalls.idle
  cache entry member := by
    obtain ⟨⟨object, found, dir⟩, right⟩ := recalls.cache entry member
    exact ⟨⟨object, still.stays found dir, dir⟩,
      fun path there => right path ((still.pathOf found dir).symm.trans there)⟩
  verdicts entry member := by
    obtain ⟨⟨object, found, dir⟩, right⟩ := recalls.verdicts entry member
    exact ⟨⟨object, still.stays found dir, dir⟩,
      fun path there => right path ((still.pathOf found dir).symm.trans there)⟩

/-- A group whose roots were just covered remembers nothing. -/
theorem recalls_cover (idle : group.coming = []) (roots : List PathBuf)
    (base : Nat → Option PathBuf) : (group.cover roots base).Recalls :=
  ⟨idle, (fun _ none => nomatch none), fun _ none => nomatch none⟩

theorem movesFor_toldOf (handle : Handle) (hops : List (Handle × LostSteps.Step PathBuf)) :
    movesFor handle (Kernel.toldOf hops) = told (Kernel.stepsOf handle hops) := by
  rw [movesFor, Kernel.toldOf, told, Kernel.stepsOf, List.filter_map, List.filter_map,
    List.map_map, List.map_map, List.filter_filter, List.filter_filter]
  simp only [Function.comp_def, Bool.and_comm]

/-- The moves told follow on from one another, and the last ends where the file is. -/
def Follows (kernel : Kernel) (handle : Handle) (events : List Event) : Prop :=
  ∃ moves, events = moves.map moved ∧ LostSteps.Joined moves ∧
    ∀ now, kernel.pathOf handle = some now → ∀ last ∈ moves.getLast?, last.2 = now

theorem moved_injective : Function.Injective moved := by
  intro one other same
  injection same with source target
  exact Prod.ext source target

/-- The moves told follow on, with what is put back, where what is not told leads back. -/
theorem follows_iff {kernel after : Kernel} {steps : List (LostSteps.Step PathBuf)}
    (traces : Kernel.Traces kernel after handle steps) :
    Follows after handle ((told steps ++ restored after handle (told steps)).map moved) ↔
      Closed steps ∧ ((after.pathOf handle).isSome = true → Ended steps) := by
  have exactly (moves : List (PathBuf × PathBuf)) : Follows after handle (moves.map moved) ↔
      LostSteps.Joined moves ∧ ∀ now, after.pathOf handle = some now → ∀ last ∈ moves.getLast?, last.2 = now := by
    constructor
    · rintro ⟨others, same, joined, ends⟩
      obtain rfl := List.map_injective_iff.mpr moved_injective same
      exact ⟨joined, ends⟩
    · exact fun both => ⟨moves, rfl, both⟩
  rw [exactly]
  cases there : after.pathOf handle with
  | none =>
      rw [restored, there, Option.elim_none, List.append_nil, joined_told traces.walk]
      simp
  | some now =>
      have ends : ∀ last ∈ steps.getLast?, last.target = now := by
        intro last final
        have same := traces.ends now there
        rw [final] at same
        exact Option.some.inj same
      rw [restored, there, Option.elim_some]
      simpa [LostSteps.Leads] using leads_mended traces.walk ends

/-- Files are moved into directories under the roots, and the queue is read whole.  The moves told
of a file follow on from one another, and lead to where it is, exactly when what was not queued
between two of them leads back to where it began, and what was not queued after the last leads back
too, or where a move that was queued leads from there. -/
theorem moves_told {ops : List Op} {count : Nat} (recalls : group.Recalls)
    (laid : group.kernel.Laid) (read : group.kernel.queue = [])
    (files : group.kernel.FileMoves group.roots ops)
    (whole : (ops.foldl does group).kernel.queue.length ≤ count) :
    ((ops.foldl does group).readTells count []).flatMap Prod.snd =
        ((ops.foldl does group).read count []).1.1 ∧
      ∀ handle, Follows (ops.foldl does group).kernel handle
          (toldFor handle ((ops.foldl does group).readTells count [])) ↔
        Closed (Kernel.stepsOf handle (group.kernel.hops ops)) ∧
          (((ops.foldl does group).kernel.pathOf handle).isSome = true →
            Ended (Kernel.stepsOf handle (group.kernel.hops ops))) := by
  refine ⟨readTells_events _ _ _, fun handle => ?_⟩
  have nothing : group.kernel.Reads group.roots group.kernel.queue [] := by
    rw [read]
    exact .nil
  have led := Kernel.led_of_moves laid nothing files
  rw [foldl_does] at whole ⊢
  rw [readTells, taken]
  dsimp only at whole ⊢
  rw [List.take_of_length_le whole, List.drop_of_length_le whole]
  generalize ops.foldl Kernel.does group.kernel = kernel at led
  have still : Kernel.Still kernel { kernel with queue := [] } :=
    ⟨rfl, fun found _ => found, fun found => ⟨_, found, rfl, rfl, id⟩⟩
  have remembers : Recalls { group with
      kernel := { kernel with queue := [] }
      coming := [] } := by
    have kept := recalls.still (led.still.trans still)
    exact ⟨rfl, kept.cache, kept.verdicts⟩
  obtain ⟨⟨events, after, translated, asked⟩, each⟩ := remembers.reads
    (led.reads.heard.still still) (fun raw member => by simpa using (List.mem_filter.mp member).2) []
  rw [tells, translated]
  dsimp only
  rw [toldFor, List.filter_append, List.flatMap_append]
  have apart : ((noted ([] ++ Kernel.toldOf (group.kernel.hops ops)) []).map Prod.fst).Nodup :=
    nodup_noted _ List.nodup_nil
  have put := asked.recalls.restores apart handle
  rw [lookup_noted, List.lookup_nil, Option.getD_none, List.nil_append, List.nil_append,
    movesFor_toldOf, asked.kernel] at put
  have heard := each handle
  rw [List.nil_append, movesFor_toldOf] at heard
  rw [← follows_iff (led.traces handle), List.map_append]
  exact iff_of_eq (congrArg (Follows kernel handle) (congrArg₂ (· ++ ·) heard put))

/-! ### A file moved back and forth -/

/-- A directory with a file in it. -/
abbrev sampleFolder : List Object := [⟨0, some [], true⟩, ⟨0, some [[97]], false⟩]

theorem laid_sample {kernel : Kernel} (same : kernel.objects = sampleFolder) : kernel.Laid where
  apart {one other first second names} found also fs at_ place := by
    rw [same] at found also
    match one, other with
    | 0, 0 => rfl
    | 1, 1 => rfl
    | 0, 1 =>
        cases found
        cases also
        cases at_
        cases place
    | 1, 0 =>
        cases found
        cases also
        cases at_
        cases place
    | _ + 2, _ => cases found
    | _, _ + 2 => cases also
  within {handle object names name} found at_ := by
    rw [same] at found ⊢
    match handle with
    | 0 =>
        cases found
        have length := congrArg List.length (Option.some.inj at_)
        simp at length
    | 1 =>
        cases found
        have split : [] ++ [[97]] = names ++ [name] := Option.some.inj at_
        obtain ⟨rfl, ends⟩ := List.append_inj' split rfl
        obtain rfl : [97] = name := List.singleton_inj.mp ends
        exact ⟨by decide, 0, _, rfl, rfl, rfl, rfl⟩
    | _ + 2 => cases found

/-- A place in the directory. -/
abbrev sampleAt (name : UInt8) : PathBuf := [.normal [114], .normal [name]]

/-- A group that covers the directory. -/
abbrev sampleGroup : Group :=
  (opened sampleFolder 16384 1000 1024).cover [[.normal [114]]]
    fun fs => if fs = 0 then some [.normal [114]] else none

/-- The file goes to `b`, back to `a` and to `b` again, and the last move is put back. -/
abbrev sampleMoves : List Op := [.rename 1 0 [98], .rename 1 0 [97], .rename 1 0 [98]]

theorem moves_told_sample : (sampleMoves.foldl does sampleGroup).kernel.queue.length ≤ 2 ∧
    Follows (sampleMoves.foldl does sampleGroup).kernel 1
      (toldFor 1 ((sampleMoves.foldl does sampleGroup).readTells 2 [])) := by
  have recalls : sampleGroup.Recalls := recalls_cover rfl _ _
  have whole : (sampleMoves.foldl does sampleGroup).kernel.queue.length ≤ 2 := by decide +kernel
  have files : sampleGroup.kernel.FileMoves sampleGroup.roots sampleMoves := by
    refine ⟨?_, ?_, ?_, trivial⟩
    · exact ⟨by decide +kernel, by decide +kernel, by decide +kernel⟩
    · exact ⟨by decide +kernel, by decide +kernel, by decide +kernel⟩
    · exact ⟨by decide +kernel, by decide +kernel, by decide +kernel⟩
  have told := moves_told recalls (laid_sample rfl) rfl files whole
  have steps : Kernel.stepsOf 1 (sampleGroup.kernel.hops sampleMoves) =
      [⟨sampleAt 97, sampleAt 98, true⟩, ⟨sampleAt 98, sampleAt 97, true⟩,
        ⟨sampleAt 97, sampleAt 98, false⟩] := by decide +kernel
  refine ⟨whole, (told.2 1).mpr ?_⟩
  rw [steps]
  have walk : Walk [⟨sampleAt 97, sampleAt 98, true⟩, ⟨sampleAt 98, sampleAt 97, true⟩,
      ⟨sampleAt 97, sampleAt 98, false⟩] := by simp [Walk]
  have ends : ∀ last ∈ [(⟨sampleAt 97, sampleAt 98, true⟩ : LostSteps.Step PathBuf),
      ⟨sampleAt 98, sampleAt 97, true⟩, ⟨sampleAt 97, sampleAt 98, false⟩].getLast?,
      last.target = sampleAt 98 := by simp
  have back := (leads_mended walk ends).mp (by
    constructor
    · simp [LostSteps.Joined, LostSteps.told, LostSteps.Step.move, mend, sampleAt]
    · simp [LostSteps.told, LostSteps.Step.move, mend, sampleAt])
  exact ⟨back.1, fun _ => back.2⟩

/-- The file goes on to `c`. -/
abbrev moreMoves : List Op := sampleMoves ++ [.rename 1 0 [99]]

/-- The move to `b` that was merged away is not put back: it is not the last. -/
theorem moves_broken : ¬∀ (group : Group) (ops : List Op) (count : Nat), group.Recalls →
    group.kernel.Laid → group.kernel.queue = [] → group.kernel.FileMoves group.roots ops →
    (ops.foldl does group).kernel.queue.length ≤ count → ∀ handle,
      Follows (ops.foldl does group).kernel handle
        (toldFor handle ((ops.foldl does group).readTells count [])) := by
  intro claimed
  have files : sampleGroup.kernel.FileMoves sampleGroup.roots moreMoves := by
    refine ⟨?_, ?_, ?_, ?_, trivial⟩
    · exact ⟨by decide +kernel, by decide +kernel, by decide +kernel⟩
    · exact ⟨by decide +kernel, by decide +kernel, by decide +kernel⟩
    · exact ⟨by decide +kernel, by decide +kernel, by decide +kernel⟩
    · exact ⟨by decide +kernel, by decide +kernel, by decide +kernel⟩
  obtain ⟨moves, same, joined, -⟩ := claimed sampleGroup moreMoves 3 (recalls_cover rfl _ _)
    (laid_sample rfl) rfl files (by decide +kernel) 1
  have told : toldFor 1 ((moreMoves.foldl does sampleGroup).readTells 3 []) =
      [(sampleAt 97, sampleAt 98), (sampleAt 98, sampleAt 97), (sampleAt 98, sampleAt 99)].map moved := by
    decide +kernel
  obtain rfl := List.map_injective_iff.mpr moved_injective (told.symm.trans same)
  simp [LostSteps.Joined] at joined

end Group

end Watchd
end Metafolder
