import Metafolder.FileMoves
import Metafolder.LostSteps

/-!
# Moves queued

Files are moved while nobody reads the queue.  What is queued of their moves is those neither merged
into one before nor dropped, in order; what else is queued tells of files that are gone, or that the
queue was full.
-/

namespace Metafolder
namespace Watchd

open LostSteps

namespace Kernel

variable {kernel after later : Kernel} {roots : List PathBuf} {raw new : RawEvent}
  {handle parent : Handle} {name : Bytes} {object : Object} {names source : List Bytes}

/-! ### What the events tell -/

/-- A directory at a path. -/
def Stands (kernel : Kernel) (handle : Handle) (path : PathBuf) : Prop :=
  (∃ object, kernel.objects[handle]? = some object ∧ object.dir = true) ∧
    kernel.pathOf handle = some path

/-- The event of a file moved into a directory under a root. -/
structure MoveOf (kernel : Kernel) (roots : List PathBuf) (raw : RawEvent) (handle : Handle)
    (source target : PathBuf) : Prop where
  mask : raw.mask = { rename := true }
  parent : raw.parent = none
  fid : raw.fid = some handle
  old : ∃ up path name, raw.old = some (up, name) ∧ legalName name ∧ kernel.Stands up path ∧
    source = path.join name
  new : ∃ up path name, raw.new = some (up, name) ∧ legalName name ∧ kernel.Stands up path ∧
    target = path.join name ∧ underRoot roots path = true

/-- The event of a file that is gone. -/
structure EndOf (kernel : Kernel) (raw : RawEvent) : Prop where
  moves : raw.mask.rename = false
  heard : raw.mask.qOverflow = false
  onDir : raw.mask.onDir = false
  parent : raw.parent = none
  old : raw.old = none
  new : raw.new = none
  gone : ∃ handle object, raw.fid = some handle ∧ kernel.objects[handle]? = some object ∧
    object.dir = false ∧ object.at_ = none

/-- What a queue tells of files moved. -/
inductive Reads (kernel : Kernel) (roots : List PathBuf) :
    List RawEvent → List (Handle × PathBuf × PathBuf) → Prop
  | nil : Reads kernel roots [] []
  | move {raw handle source target raws moves} : kernel.MoveOf roots raw handle source target →
      Reads kernel roots raws moves → Reads kernel roots (raw :: raws) ((handle, source, target) :: moves)
  | ended {raw raws moves} : kernel.EndOf raw → Reads kernel roots raws moves →
      Reads kernel roots (raw :: raws) moves
  | lost {raw raws moves} : raw.mask.qOverflow = true → Reads kernel roots raws moves →
      Reads kernel roots (raw :: raws) moves

/-- A kernel later on: each directory is as it was, and what is gone stays gone. -/
structure Still (kernel after : Kernel) : Prop where
  base : after.base = kernel.base
  stays : ∀ {handle : Handle} {object : Object}, kernel.objects[handle]? = some object →
    object.dir = true → after.objects[handle]? = some object
  becomes : ∀ {handle : Handle} {object : Object}, kernel.objects[handle]? = some object →
    ∃ later, after.objects[handle]? = some later ∧ later.fs = object.fs ∧ later.dir = object.dir ∧
      (object.at_ = none → later.at_ = none)

namespace Still

theorem refl (kernel : Kernel) : Still kernel kernel where
  base := rfl
  stays found _ := found
  becomes found := ⟨_, found, rfl, rfl, id⟩

theorem trans (one : Still kernel after) (other : Still after later) : Still kernel later where
  base := other.base.trans one.base
  stays found dir := other.stays (one.stays found dir) dir
  becomes found := by
    obtain ⟨middle, here, fs, dir, gone⟩ := one.becomes found
    obtain ⟨last, there, on, kind, ended⟩ := other.becomes here
    exact ⟨last, there, on.trans fs, kind.trans dir, fun nowhere => ended (gone nowhere)⟩

theorem pathOf (still : Still kernel after) (found : kernel.objects[handle]? = some object)
    (dir : object.dir = true) : after.pathOf handle = kernel.pathOf handle := by
  rw [Kernel.pathOf, Kernel.pathOf, still.stays found dir, found, still.base]

theorem stands (still : Still kernel after) {path : PathBuf} (stands : kernel.Stands handle path) :
    after.Stands handle path := by
  obtain ⟨⟨object, found, dir⟩, there⟩ := stands
  exact ⟨⟨object, still.stays found dir, dir⟩, (still.pathOf found dir).trans there⟩

theorem moveOf (still : Still kernel after) {source target : PathBuf}
    (move : kernel.MoveOf roots raw handle source target) :
    after.MoveOf roots raw handle source target where
  mask := move.mask
  parent := move.parent
  fid := move.fid
  old := by
    obtain ⟨up, path, name, told, legal, stands, joined⟩ := move.old
    exact ⟨up, path, name, told, legal, still.stands stands, joined⟩
  new := by
    obtain ⟨up, path, name, told, legal, stands, joined, under⟩ := move.new
    exact ⟨up, path, name, told, legal, still.stands stands, joined, under⟩

theorem endOf (still : Still kernel after) (ended : kernel.EndOf raw) : after.EndOf raw where
  moves := ended.moves
  heard := ended.heard
  onDir := ended.onDir
  parent := ended.parent
  old := ended.old
  new := ended.new
  gone := by
    obtain ⟨handle, object, fid, found, file, nowhere⟩ := ended.gone
    obtain ⟨last, here, -, kind, gone⟩ := still.becomes found
    exact ⟨handle, last, fid, here, kind.trans file, gone nowhere⟩

end Still

theorem Hops.still (hops : Hops kernel after handle parent name object source names)
    (laid : kernel.Laid) : Still kernel after where
  base := hops.base
  stays found dir := hops.stays found dir laid
  becomes := hops.becomes

namespace Reads

variable {raws others : List RawEvent} {moves more : List (Handle × PathBuf × PathBuf)}

theorem still (reads : Reads kernel roots raws moves) (still : Still kernel after) :
    Reads after roots raws moves := by
  induction reads with
  | nil => exact .nil
  | move told _ ih => exact .move (still.moveOf told) ih
  | ended told _ ih => exact .ended (still.endOf told) ih
  | lost full _ ih => exact .lost full ih

theorem append (reads : Reads kernel roots raws moves) (next : Reads kernel roots others more) :
    Reads kernel roots (raws ++ others) (moves ++ more) := by
  induction reads with
  | nil => exact next
  | move told _ ih => exact .move told ih
  | ended told _ ih => exact .ended told ih
  | lost full _ ih => exact .lost full ih

theorem split (reads : Reads kernel roots (raws ++ others) moves) :
    ∃ first second, moves = first ++ second ∧ Reads kernel roots raws first ∧
      Reads kernel roots others second := by
  induction raws generalizing moves with
  | nil => exact ⟨[], moves, rfl, .nil, reads⟩
  | cons raw rest ih =>
      cases reads with
      | move told reads =>
          obtain ⟨first, second, rfl, here, there⟩ := ih reads
          exact ⟨_ :: first, second, rfl, .move told here, there⟩
      | ended told reads =>
          obtain ⟨first, second, rfl, here, there⟩ := ih reads
          exact ⟨first, second, rfl, .ended told here, there⟩
      | lost full reads =>
          obtain ⟨first, second, rfl, here, there⟩ := ih reads
          exact ⟨first, second, rfl, .lost full here, there⟩

/-- What is told when the queue overflowed is told without that event. -/
theorem heard (reads : Reads kernel roots raws moves) :
    Reads kernel roots (raws.filter fun raw => !raw.mask.qOverflow) moves := by
  induction reads with
  | nil => exact .nil
  | move told _ ih =>
      rw [List.filter_cons_of_pos (by simp [told.mask])]
      exact .move told ih
  | ended told _ ih =>
      rw [List.filter_cons_of_pos (by simp [told.heard])]
      exact .ended told ih
  | lost full _ ih =>
      rw [List.filter_cons_of_neg (by simp [full])]
      exact ih

/-- An event of a file merged into another tells nothing more. -/
theorem merged {one : RawEvent} (reads : Reads kernel roots (raws ++ one :: others) moves)
    (alike : one.sameKind new = true) (real : new.mask.qOverflow = false)
    (plain : new.mask.rename = true → new.mask = { rename := true }) :
    Reads kernel roots (raws ++ { one with mask := one.mask.or new.mask } :: others) moves := by
  simp only [RawEvent.sameKind, Bool.and_eq_true, Bool.not_eq_true', beq_iff_eq] at alike
  obtain ⟨⟨⟨heard, onDir⟩, rename⟩, -⟩ := alike
  obtain ⟨first, second, rfl, here, there⟩ := reads.split
  refine here.append ?_
  cases there with
  | move told rest =>
      have same : one.mask.or new.mask = one.mask := by
        rw [plain (by rw [← rename, told.mask]), told.mask]
        rfl
      rw [same]
      exact .move told rest
  | ended told rest =>
      refine .ended ⟨?_, ?_, ?_, told.parent, told.old, told.new, told.gone⟩ rest
      · simp [Mask.or, ← rename, told.moves]
      · simp [Mask.or, heard, real]
      · simp [Mask.or, ← onDir, told.onDir]
  | lost full rest =>
      exact absurd full (by simp [heard])

end Reads

/-! ### The queue -/

theorem mergeInto_eq_some {window : Nat} {held merged : List RawEvent}
    (found : mergeInto new window held = some merged) :
    ∃ before one rest, held = before ++ one :: rest ∧ one.sameKind new = true ∧
      merged = before ++ { one with mask := one.mask.or new.mask } :: rest := by
  induction window generalizing held merged with
  | zero => cases found
  | succ window ih =>
      cases held with
      | nil => cases found
      | cons head rest =>
          rw [mergeInto] at found
          split at found
          · next alike => exact ⟨[], head, rest, rfl, alike, (Option.some.inj found).symm⟩
          · obtain ⟨others, inner, rfl⟩ := Option.map_eq_some_iff.mp found
            obtain ⟨before, one, rest, rfl, alike, rfl⟩ := ih inner
            exact ⟨head :: before, one, rest, rfl, alike, rfl⟩

/-- Whether an event is queued as its own: there is room, and no unread event to merge it into. -/
def keeps (kernel : Kernel) (raw : RawEvent) : Bool :=
  decide (kernel.queue.length < kernel.maxEvents) &&
    (mergeInto raw mergeWindow kernel.queue.reverse).isNone

section Pushed

variable {judge : Kernel} {moves : List (Handle × PathBuf × PathBuf)} {fs : Nat}

/-- What is queued of an event of a file. -/
theorem Reads.push (reads : Reads judge roots kernel.queue moves) (marked : kernel.marked fs = true)
    (unnamed : new.parent = none) (real : new.mask.qOverflow = false)
    (plain : new.mask.rename = true → new.mask = { rename := true }) :
    (kernel.keeps new = true ∧ (kernel.push fs new).queue = kernel.queue ++ [new]) ∨
      (kernel.keeps new = false ∧ Reads judge roots (kernel.push fs new).queue moves) := by
  have loud : kernel.silences new = false := by
    rw [silences, unnamed]
    rfl
  rw [Kernel.push, if_neg (by simp [marked])]
  simp only [loud, Bool.false_and, Bool.false_eq_true, if_false, real, Bool.false_or,
    decide_eq_true_eq]
  split
  · next full =>
    refine .inr ⟨by simp [keeps, Nat.not_lt.mpr full], ?_⟩
    dsimp only
    split
    · exact reads
    · rw [← List.append_nil moves]
      exact reads.append (.lost rfl .nil)
  · next room =>
    dsimp only
    split
    · next merged found =>
      refine .inr ⟨by simp [keeps, found], ?_⟩
      obtain ⟨before, one, rest, split, alike, rfl⟩ := mergeInto_eq_some found
      rw [List.reverse_eq_iff, List.reverse_append, List.reverse_cons, List.append_assoc] at split
      rw [split] at reads
      rw [List.reverse_append, List.reverse_cons, List.append_assoc]
      exact reads.merged alike real plain
    · next alone =>
      exact .inl ⟨by simp [keeps, alone, Nat.not_le.mp room], rfl⟩

/-- The move of a file is told where it is queued as its own. -/
theorem Reads.pushMove (reads : Reads judge roots kernel.queue moves)
    (marked : kernel.marked fs = true) {origin target : PathBuf}
    (move : judge.MoveOf roots new handle origin target) :
    Reads judge roots (kernel.push fs new).queue
      (if kernel.keeps new then moves ++ [(handle, origin, target)] else moves) := by
  have heard : new.mask.qOverflow = false := by rw [move.mask]
  rcases reads.push marked move.parent heard fun _ => move.mask with ⟨kept, queue⟩ | ⟨lost, rest⟩
  · rw [if_pos kept, queue]
    exact reads.append (.move move .nil)
  · rw [lost]
    exact rest

/-- The end of a file tells of no move. -/
theorem Reads.pushEnd (reads : Reads judge roots kernel.queue moves) (ended : judge.EndOf new) :
    Reads judge roots (kernel.push fs new).queue moves := by
  cases marked : kernel.marked fs with
  | false =>
      rw [Kernel.push, if_pos (by simp [marked])]
      exact reads
  | true =>
      have plain : new.mask.rename = true → new.mask = { rename := true } := by
        intro moves
        rw [ended.moves] at moves
        cases moves
      rcases reads.push marked ended.parent ended.heard plain with ⟨-, queue⟩ | ⟨-, rest⟩
      · rw [queue, ← List.append_nil moves]
        exact reads.append (.ended ended .nil)
      · exact rest

end Pushed

/-! ### One move -/

theorem victimAt_spec {fs : Nat} {target : List Bytes} {victim : Handle} {gone : Object}
    (found : kernel.victimAt fs target = some (victim, gone)) :
    kernel.objects[victim]? = some gone ∧ gone.fs = fs ∧ gone.at_ = some target := by
  obtain ⟨other, at_, here⟩ := Option.bind_eq_some_iff.mp found
  obtain ⟨held, there, same⟩ := Option.map_eq_some_iff.mp here
  obtain ⟨rfl, rfl⟩ := Prod.mk.inj same
  obtain ⟨one, standing, on, place⟩ := objectAt_spec at_
  obtain rfl := Option.some.inj (there.symm.trans standing)
  exact ⟨there, on, place⟩

namespace Hops

variable {above : PathBuf}

/-- Where the file is moved from, by its path. -/
theorem pathOf_source (hops : Hops kernel after handle parent name object source names)
    (up : kernel.pathOf parent = some above) :
    ∃ origin, kernel.pathOf handle = some origin ∧ origin ≠ above.join name := by
  rw [pathOf, hops.directory] at up
  change (kernel.base object.fs).bind _ = _ at up
  obtain ⟨base, on, same⟩ := Option.bind_eq_some_iff.mp up
  obtain rfl := Option.some.inj same
  refine ⟨base ++ source.map .normal, ?_, fun same => hops.apart ?_⟩
  · rw [pathOf, hops.found]
    simp [hops.placed, on]
  · rw [PathBuf.join, List.append_assoc, ← List.map_singleton (f := Component.normal),
      ← List.map_append] at same
    exact List.map_injective_iff.mpr (fun _ _ => Component.normal.inj) (List.append_cancel_left same)

theorem marked (hops : Hops kernel after handle parent name object source names)
    (up : kernel.pathOf parent = some above) : kernel.marked object.fs = true := by
  rw [pathOf, hops.directory] at up
  change (kernel.base object.fs).bind _ = _ at up
  obtain ⟨base, on, -⟩ := Option.bind_eq_some_iff.mp up
  rw [Kernel.marked, on]
  rfl

/-- The event of the move tells where from and where to. -/
theorem moveOf (hops : Hops kernel after handle parent name object source names)
    (laid : kernel.Laid) (legal : legalName name) (up : kernel.pathOf parent = some above)
    (under : underRoot roots above = true) {origin : PathBuf}
    (there : kernel.pathOf handle = some origin) :
    kernel.MoveOf roots (kernel.renameEvent handle parent name object) handle origin
      (above.join name) where
  mask := by rw [renameEvent, hops.file]
  parent := rfl
  fid := rfl
  old := by
    obtain ⟨left, held, last, entry, named, found, dir, joined⟩ := hops.entry laid
    obtain ⟨path, at_, same⟩ := Option.map_eq_some_iff.mp (joined.symm.trans there)
    exact ⟨left, path, last, entry, named, ⟨⟨held, found, dir⟩, at_⟩, same.symm⟩
  new := ⟨parent, above, name, rfl, legal, ⟨⟨_, hops.directory, rfl⟩, up⟩, rfl, under⟩

/-- What is queued once the file is moved. -/
theorem reads (hops : Hops kernel after handle parent name object source names)
    (laid : kernel.Laid) (legal : legalName name) (up : kernel.pathOf parent = some above)
    (under : underRoot roots above = true) {origin : PathBuf}
    (there : kernel.pathOf handle = some origin) {moves : List (Handle × PathBuf × PathBuf)}
    (reads : Reads kernel roots kernel.queue moves) :
    Reads after roots after.queue
      (if kernel.keeps (kernel.renameEvent handle parent name object) then
        moves ++ [(handle, origin, above.join name)] else moves) := by
  have still := hops.still laid
  have move := still.moveOf (hops.moveOf laid legal up under there)
  have told := (reads.still still).pushMove (hops.marked up) move
  rw [hops.queue]
  cases victim : kernel.victimAt object.fs (names ++ [name]) with
  | none => exact told
  | some held =>
      obtain ⟨other, gone⟩ := held
      obtain ⟨differs, file⟩ := hops.victims _ victim
      obtain ⟨found, on, place⟩ := victimAt_spec victim
      have ended (mask : Mask) (moves : mask.rename = false) (heard : mask.qOverflow = false)
          (onDir : mask.onDir = false) : after.EndOf { mask := mask, fid := some other } := by
        refine ⟨moves, heard, onDir, rfl, rfl, rfl, other, retire object.fs (names ++ [name]) gone, rfl,
          ?_, (retire_dir _ _).trans file, ?_⟩
        · rw [hops.objects, if_neg differs, found, Option.map_some]
        · rw [retire, if_pos ⟨on, place⟩]
      change Reads after roots ((kernel.push object.fs _).selfGone other gone).queue _
      rw [selfGone, file]
      exact (told.pushEnd (ended _ rfl rfl rfl)).pushEnd (ended _ rfl rfl rfl)

end Hops

/-! ### Moves one after another -/

instance (name : Bytes) : Decidable (legalName name) := inferInstanceAs (Decidable (_ ∧ _))

/-- A file is moved into a directory under a root. -/
def FileMove (kernel : Kernel) (roots : List PathBuf) : Op → Prop
  | .rename handle parent name =>
      (∀ object ∈ kernel.objects[handle]?, object.dir = false) ∧ legalName name ∧
        kernel.under roots parent = true
  | _ => False

/-- Files are moved, one after another. -/
def FileMoves (roots : List PathBuf) : Kernel → List Op → Prop
  | _, [] => True
  | kernel, op :: later => kernel.FileMove roots op ∧ FileMoves roots (kernel.does op) later

/-- The step a file takes as it is moved, told where its event is queued as its own.  A move refused,
or to where the file is, is none. -/
def hop (kernel : Kernel) : Op → Option (Handle × LostSteps.Step PathBuf)
  | .rename handle parent name => do
      let object ← kernel.objects[handle]?
      let source ← kernel.pathOf handle
      let target ← (kernel.does (.rename handle parent name)).pathOf handle
      if source = target then none
      else some (handle, ⟨source, target, kernel.keeps (kernel.renameEvent handle parent name object)⟩)
  | _ => none

/-- The steps files take. -/
def hops : Kernel → List Op → List (Handle × LostSteps.Step PathBuf)
  | _, [] => []
  | kernel, op :: later => (kernel.hop op).toList ++ hops (kernel.does op) later

/-- The steps of one file. -/
def stepsOf (handle : Handle) (hops : List (Handle × LostSteps.Step PathBuf)) :
    List (LostSteps.Step PathBuf) :=
  (hops.filter fun hop => hop.1 == handle).map Prod.snd

/-- The moves told. -/
def toldOf (hops : List (Handle × LostSteps.Step PathBuf)) : List (Handle × PathBuf × PathBuf) :=
  (hops.filter fun hop => hop.2.told).map fun hop => (hop.1, hop.2.move)

theorem hop_of_same {op : Op} (same : kernel.does op = kernel) : kernel.hop op = none := by
  cases op with
  | rename handle parent name =>
      rw [hop, same]
      cases kernel.objects[handle]? with
      | none => rfl
      | some object =>
          cases kernel.pathOf handle with
          | none => rfl
          | some path => simp
  | _ => rfl

/-- A file moved stays where it is, or takes a step. -/
theorem FileMove.cases {op : Op} (move : kernel.FileMove roots op) (laid : kernel.Laid) :
    kernel.does op = kernel ∨ ∃ handle parent name object source names above origin,
      Hops kernel (kernel.does op) handle parent name object source names ∧ legalName name ∧
        kernel.pathOf parent = some above ∧ underRoot roots above = true ∧
        kernel.pathOf handle = some origin ∧ kernel.hop op = some (handle, ⟨origin, above.join name,
          kernel.keeps (kernel.renameEvent handle parent name object)⟩) := by
  cases op with
  | rename handle parent name =>
      obtain ⟨files, legal, under⟩ := move
      cases done : kernel.rename handle parent name with
      | none =>
          left
          rw [does, perform, done]
          rfl
      | some after =>
          have did : kernel.does (.rename handle parent name) = after := by
            rw [does, perform, done]
            rfl
          obtain ⟨object, found, -⟩ := Option.bind_eq_some_iff.mp done
          rcases laid.rename_cases found (files object found) done with same | ⟨source, names, hops⟩
          · exact .inl (did.trans same)
          · obtain ⟨above, up, inside⟩ := (Option.any_eq_true _ _).mp under
            obtain ⟨origin, there, apart⟩ := hops.pathOf_source up
            refine .inr ⟨handle, parent, name, object, source, names, above, origin, ?_, legal, up,
              inside, there, ?_⟩
            · rw [did]
              exact hops
            · rw [hop, found, there, did, hops.pathOf_target up]
              simp [apart]
  | _ => exact move.elim

/-- The steps of one file from where it was to where it is. -/
structure Traces (kernel after : Kernel) (handle : Handle) (steps : List (LostSteps.Step PathBuf)) :
    Prop where
  walk : Walk steps
  begins : ∀ first ∈ steps.head?, kernel.pathOf handle = some first.source
  ends : ∀ path, after.pathOf handle = some path →
    (steps.getLast?.map LostSteps.Step.target).or (kernel.pathOf handle) = some path

namespace Traces

variable {steps : List (LostSteps.Step PathBuf)}

theorem nil (kernel : Kernel) (handle : Handle) : Traces kernel kernel handle [] where
  walk := List.IsChain.nil
  begins _ none := nomatch none
  ends _ there := there

/-- The file took one step more before. -/
theorem cons {step : LostSteps.Step PathBuf} (traces : Traces after later handle steps)
    (here : kernel.pathOf handle = some step.source)
    (there : after.pathOf handle = some step.target) : Traces kernel later handle (step :: steps) where
  walk := by
    refine List.isChain_cons.mpr ⟨fun next first => ?_, traces.walk⟩
    exact Option.some.inj (there.symm.trans (traces.begins next first))
  begins first head := by
    obtain rfl := Option.some.inj head
    exact here
  ends path now := by
    have last := traces.ends path now
    rw [there] at last
    rw [List.getLast?_cons, Option.map_some, Option.some_or]
    cases final : steps.getLast? with
    | none =>
        rw [final] at last
        exact last
    | some step =>
        rw [final] at last
        exact last

/-- Another file moved before. -/
theorem other (traces : Traces after later handle steps)
    (was : ∀ path, after.pathOf handle = some path → kernel.pathOf handle = some path) :
    Traces kernel later handle steps where
  walk := traces.walk
  begins first head := was _ (traces.begins first head)
  ends path now := by
    have last := traces.ends path now
    cases final : steps.getLast? with
    | none =>
        rw [final] at last
        exact was path last
    | some step =>
        rw [final] at last
        exact last

end Traces

/-- What moves of files lead to. -/
structure Led (kernel after : Kernel) (roots : List PathBuf)
    (moves : List (Handle × PathBuf × PathBuf)) (hops : List (Handle × LostSteps.Step PathBuf)) :
    Prop where
  laid : after.Laid
  still : Still kernel after
  reads : Reads after roots after.queue (moves ++ toldOf hops)
  traces : ∀ handle, Traces kernel after handle (stepsOf handle hops)

/-- Files moved one after another are where their steps lead, and the queue tells of the steps
told, in order. -/
theorem led_of_moves {ops : List Op} {moves : List (Handle × PathBuf × PathBuf)} (laid : kernel.Laid)
    (reads : Reads kernel roots kernel.queue moves) (files : FileMoves roots kernel ops) :
    Led kernel (ops.foldl does kernel) roots moves (kernel.hops ops) := by
  induction ops generalizing kernel moves with
  | nil => exact ⟨laid, .refl kernel, by rwa [hops, toldOf, List.filter_nil, List.map_nil,
      List.append_nil], fun handle => .nil kernel handle⟩
  | cons op later ih =>
      obtain ⟨move, rest⟩ := files
      rw [List.foldl_cons, hops]
      rcases move.cases laid with same | ⟨handle, parent, name, object, source, names, above, origin,
        step, legal, up, under, there, took⟩
      · rw [hop_of_same same]
        rw [same] at rest ⊢
        exact ih laid reads rest
      · have told := step.reads laid legal up under there reads
        have led := ih (step.laid laid legal) told rest
        rw [took]
        refine ⟨led.laid, (step.still laid).trans led.still, ?_, fun other => ?_⟩
        · have reads := led.reads
          split at reads
          · next kept =>
            rw [List.append_assoc] at reads
            rw [toldOf, Option.toList_some, List.singleton_append,
              List.filter_cons_of_pos (by exact kept)]
            exact reads
          · next lost =>
            rw [toldOf, Option.toList_some, List.singleton_append,
              List.filter_cons_of_neg (by exact lost)]
            exact reads
        · rw [stepsOf, Option.toList_some, List.singleton_append]
          by_cases same : handle = other
          · subst same
            rw [List.filter_cons_of_pos (by simp)]
            exact (led.traces handle).cons there (step.pathOf_target up)
          · rw [List.filter_cons_of_neg (by simpa using same)]
            exact (led.traces other).other fun path now =>
              step.pathOf_other (Ne.symm same) now

end Kernel

end Watchd
end Metafolder
