import Metafolder.KernelMoves
import Metafolder.Translator

/-!
# What is remembered of a directory

A path or a verdict remembered of a directory tells whether it is under a root now, unless the move
of a directory is still to be read, or was lost; an ignore mark is on a directory outside the roots,
or a directory moved since the marks were last looked at.
-/

namespace Metafolder
namespace Watchd

namespace Kernel

/-- Whether an object is under a root now. -/
def under (kernel : Kernel) (roots : List PathBuf) (handle : Handle) : Bool :=
  (kernel.pathOf handle).any (underRoot roots)

theorem under_of_unmarked {kernel : Kernel} (roots : List PathBuf) {handle : Handle}
    {object : Object} (found : kernel.objects[handle]? = some object)
    (unmarked : kernel.marked object.fs = false) : kernel.under roots handle = false := by
  rw [marked, Option.isSome_eq_false_iff, Option.isNone_iff_eq_none] at unmarked
  rw [under, pathOf, found]
  cases placed : object.at_ with
  | none => simp [placed]
  | some names => simp [placed, unmarked]

/-- An ignore mark is taken, or refused. -/
theorem ignore_cases (kernel : Kernel) (handle : Handle) (meanwhile : Meanwhile) :
    kernel.ignore handle meanwhile =
        ({ kernel with ignored := handle :: kernel.ignored }, .ok ()) ∨
      ∃ refusal, kernel.ignore handle meanwhile = (kernel, .error refusal) := by
  rw [ignore]
  split
  · exact .inr ⟨_, rfl⟩
  · split
    · next refusal _ => exact .inr ⟨refusal, rfl⟩
    · exact .inl rfl

/-- A directory that lives is as it was to the roots, unless a move was told. -/
theorem Leads.under_eq {kernel after : Kernel} (leads : Leads kernel after) (roots : List PathBuf)
    {handle : Handle} {object : Object} (found : kernel.objects[handle]? = some object)
    (live : after.LiveDir handle) :
    kernel.LiveDir handle ∧
      (after.Moved ∨ after.under roots handle = kernel.under roots handle) := by
  obtain ⟨later, found', becomes, stays⟩ := leads.becomes handle object found
  obtain ⟨same, held, dir, lives⟩ := live
  obtain rfl := Option.some.inj (found'.symm.trans held)
  have was_dir : object.dir = true := becomes.dir ▸ dir
  refine ⟨⟨object, found, was_dir, becomes.lives was_dir lives⟩, ?_⟩
  obtain moved | unmarked | stays := stays
  · exact .inl moved
  · rw [under_of_unmarked roots found unmarked]
    refine .inr (under_of_unmarked roots found' ?_)
    rw [leads.marked, becomes.fs, unmarked]
  · right
    rw [under, pathOf, found', under, pathOf, found]
    simp only [Option.bind_eq_bind, Option.bind_some]
    rw [stays was_dir lives, becomes.fs, leads.base]

end Kernel

namespace Group

/-- The move of a directory is still to be read, or was lost. -/
def Moving (rest : List RawEvent) (kernel : Kernel) : Prop :=
  (∃ raw ∈ rest, raw.isDirectoryMove = true) ∨ kernel.Moved

/-- What is remembered of an object tells where it is now, if it is a directory that lives and no
move is still to be read. -/
def Tells (rest : List RawEvent) (kernel : Kernel) (roots : List PathBuf) (handle : Handle)
    (told : Bool) : Prop :=
  ∃ object, kernel.objects[handle]? = some object ∧
    (kernel.LiveDir handle → told = kernel.under roots handle ∨ Moving rest kernel)

/-- A directory with an ignore mark is still to be looked at, or is known to have it and is outside
the roots, unless one moved since. -/
def Marked (rest : List RawEvent) (todo : List Handle) (stirred : Bool) (kernel : Kernel)
    (translator : Translator) (handle : Handle) : Prop :=
  ∃ object, kernel.objects[handle]? = some object ∧
    (kernel.LiveDir handle → kernel.missed ≠ [] ∨ handle ∈ todo ∨
      handle ∈ translator.ignored ∧
        (kernel.under translator.scope.roots handle = false ∨ Moving rest kernel ∨
          stirred = true))

/-- What is remembered as events are still to be translated and marks to be looked at. -/
structure Sound (rest : List RawEvent) (todo : List Handle) (stirred : Bool) (group : Group) :
    Prop where
  cache : ∀ entry ∈ group.translator.cache,
    Tells rest group.kernel group.roots entry.1 (underRoot group.roots entry.2)
  verdicts : ∀ entry ∈ group.translator.scope.verdicts,
    Tells rest group.kernel group.roots entry.1 entry.2
  marks : ∀ handle ∈ group.kernel.ignored,
    Marked rest todo stirred group.kernel group.translator handle
  moved : group.translator.scope.moved = stirred
  tidy : group.kernel.Tidy

theorem Moving.lead {rest : List RawEvent} {kernel after : Kernel} (moving : Moving rest kernel)
    (leads : Kernel.Leads kernel after) : Moving rest after :=
  moving.imp_right leads.moved

theorem Tells.lead {rest : List RawEvent} {kernel after : Kernel} {roots : List PathBuf}
    {handle : Handle} {told : Bool} (tells : Tells rest kernel roots handle told)
    (leads : Kernel.Leads kernel after) : Tells rest after roots handle told := by
  obtain ⟨object, found, tells⟩ := tells
  obtain ⟨later, found', -, -⟩ := leads.becomes handle object found
  refine ⟨later, found', fun live => ?_⟩
  obtain ⟨lived, moved | same⟩ := leads.under_eq roots found live
  · exact .inr (.inr moved)
  · rw [same]
    exact (tells lived).imp_right fun moving => moving.lead leads

namespace Sound

variable {rest : List RawEvent} {todo : List Handle} {stirred : Bool} {group : Group}

/-- Operations keep what is remembered right. -/
theorem lead (sound : Sound rest todo stirred group) {after : Group}
    (same : after.translator = group.translator)
    (leads : Kernel.Leads group.kernel after.kernel) : Sound rest todo stirred after := by
  have roots : after.roots = group.roots := by rw [Group.roots, same, Group.roots]
  refine ⟨?_, ?_, ?_, same ▸ sound.moved, leads.tidy sound.tidy⟩
  · rw [same, roots]
    exact fun entry member => (sound.cache entry member).lead leads
  · rw [same, roots]
    exact fun entry member => (sound.verdicts entry member).lead leads
  · intro handle member
    rw [leads.ignored] at member
    obtain ⟨object, found, marked⟩ := sound.marks handle member
    obtain ⟨later, found', -, -⟩ := leads.becomes handle object found
    refine ⟨later, found', fun live => ?_⟩
    obtain ⟨lived, kept⟩ := leads.under_eq group.roots found live
    rw [leads.missed, same]
    obtain missed | listed | ⟨known, outside⟩ := marked lived
    · exact .inl missed
    · exact .inr (.inl listed)
    · refine .inr (.inr ⟨known, ?_⟩)
      obtain moved | unchanged := kept
      · exact .inr (.inl (.inr moved))
      · obtain outside | moving | stirs := outside
        · exact .inl (unchanged.trans outside)
        · exact .inr (.inl (moving.lead leads))
        · exact .inr (.inr stirs)

theorem ask_translator (group : Group) : group.ask.2.translator = group.translator := by
  rw [Group.ask]
  split <;> rfl

theorem ask_leads (group : Group) : Kernel.Leads group.kernel group.ask.2.kernel := by
  rw [Group.ask]
  split
  · exact .refl _
  · exact Kernel.foldl_leads _ _

theorem ask (sound : Sound rest todo stirred group) : Sound rest todo stirred group.ask.2 :=
  sound.lead (ask_translator group) (ask_leads group)

theorem resolveFresh (sound : Sound rest todo stirred group) (handle : Handle) :
    Sound rest todo stirred (group.resolveFresh handle).2 :=
  sound.ask

/-- What the kernel answers is where the object is. -/
theorem resolveFresh_eq {handle : Handle} {path : PathBuf}
    (answer : (group.resolveFresh handle).1 = some path) :
    (group.resolveFresh handle).2.kernel.pathOf handle = some path := by
  rw [Group.resolveFresh] at answer ⊢
  dsimp only at answer ⊢
  split at answer
  · exact answer
  · cases answer

/-- Where an object is tells whether it is under a root. -/
theorem tells_of_pathOf {rest : List RawEvent} {kernel : Kernel} {handle : Handle} {path : PathBuf}
    (there : kernel.pathOf handle = some path) (roots : List PathBuf) :
    Tells rest kernel roots handle (underRoot roots path) := by
  obtain ⟨object, found, -⟩ := Option.bind_eq_some_iff.mp there
  refine ⟨object, found, fun _ => .inl ?_⟩
  rw [Kernel.under, there, Option.any_some]

theorem remember (sound : Sound rest todo stirred group) {handle : Handle} {path : PathBuf}
    (tells : Tells rest group.kernel group.roots handle (underRoot group.roots path)) :
    Sound rest todo stirred (group.remember handle path) := by
  refine ⟨?_, sound.verdicts, sound.marks, sound.moved, sound.tidy⟩
  intro entry member
  rw [Group.remember] at member
  dsimp only at member
  rcases List.mem_cons.mp member with rfl | older
  · exact tells
  · have kept := List.mem_of_mem_filter older
    split at kept
    · cases kept
    · exact sound.cache entry kept

/-- What the resolver answers tells whether the object is under a root. -/
theorem resolve (sound : Sound rest todo stirred group) (handle : Handle) :
    Sound rest todo stirred (group.resolve handle).2 ∧
      ∀ path, (group.resolve handle).1 = some path →
        Tells rest (group.resolve handle).2.kernel (group.resolve handle).2.roots handle
          (underRoot (group.resolve handle).2.roots path) := by
  have asked := sound.ask
  rw [Group.resolve]
  dsimp only
  split
  · next held cached =>
    refine ⟨asked, fun path answer => ?_⟩
    obtain rfl := Option.some.inj answer
    split at cached
    · cases cached
    · obtain ⟨before, after, split, -⟩ := List.lookup_eq_some_iff.mp cached
      exact asked.cache _ (split ▸ List.mem_append_right _ List.mem_cons_self)
  · split
    · split
      · next found there =>
        have tells : Tells rest group.ask.2.kernel group.ask.2.roots handle
            (underRoot group.ask.2.roots found) := tells_of_pathOf there _
        refine ⟨asked.remember tells, fun path answer => ?_⟩
        obtain rfl := Option.some.inj answer
        exact tells
      · exact ⟨asked, fun _ answer => by cases answer⟩
    · exact ⟨asked, fun _ answer => by cases answer⟩

/-! ### Scope -/

theorem judge (sound : Sound rest todo stirred group) {handle : Handle} {verdict : Bool}
    (tells : Tells rest group.kernel group.roots handle verdict) :
    Sound rest todo stirred (group.judge handle verdict) := by
  refine ⟨sound.cache, ?_, sound.marks, sound.moved, sound.tidy⟩
  intro entry member
  rw [Group.judge] at member
  dsimp only at member
  rcases List.mem_cons.mp member with rfl | older
  · exact tells
  · split at older
    · cases older
    · exact sound.verdicts entry older

theorem dirUnderRoot (sound : Sound rest todo stirred group) (handle : Handle) :
    Sound rest todo stirred (group.dirUnderRoot handle).2 := by
  rw [Group.dirUnderRoot]
  split
  · exact sound
  · obtain ⟨resolved, tells⟩ := sound.resolve handle
    dsimp only
    split
    · exact resolved
    · next path answer => exact resolved.judge (tells path answer)

theorem someUnderRoot (dirs : List Handle) (sound : Sound rest todo stirred group) :
    Sound rest todo stirred (group.someUnderRoot dirs).2 := by
  induction dirs generalizing group with
  | nil => exact sound
  | cons handle others ih =>
      rw [Group.someUnderRoot]
      dsimp only
      split
      · exact sound.dirUnderRoot handle
      · exact ih (sound.dirUnderRoot handle)

theorem countDropped (sound : Sound rest todo stirred group) (raw : RawEvent) :
    Sound rest todo stirred (group.countDropped raw) := by
  rw [Group.countDropped]
  split
  · split
    · exact ⟨sound.cache, sound.verdicts, sound.marks, sound.moved, sound.tidy⟩
    · exact sound
  · exact sound

/-- An event that moves no directory leaves as much to be read. -/
theorem pass {raw : RawEvent} (sound : Sound (raw :: rest) todo stirred group)
    (still : raw.isDirectoryMove = false) : Sound rest todo stirred group := by
  have later : Moving (raw :: rest) group.kernel → Moving rest group.kernel := by
    rintro (⟨other, member, moves⟩ | moved)
    · rcases List.mem_cons.mp member with rfl | older
      · rw [still] at moves
        cases moves
      · exact .inl ⟨other, older, moves⟩
    · exact .inr moved
  have tells : ∀ {handle told}, Tells (raw :: rest) group.kernel group.roots handle told →
      Tells rest group.kernel group.roots handle told :=
    fun ⟨object, found, tells⟩ => ⟨object, found, fun live => (tells live).imp_right later⟩
  refine ⟨fun entry member => tells (sound.cache entry member),
    fun entry member => tells (sound.verdicts entry member), ?_, sound.moved, sound.tidy⟩
  intro handle member
  obtain ⟨object, found, marked⟩ := sound.marks handle member
  exact ⟨object, found, fun live => (marked live).imp_right
    (Or.imp_right (And.imp_right (Or.imp_right (Or.imp_left later))))⟩

theorem forget (sound : Sound rest todo stirred group) :
    Sound rest todo stirred group.forget :=
  ⟨fun _ member => (by cases member), sound.verdicts, sound.marks, sound.moved, sound.tidy⟩

/-- The move of a directory is read: every path and verdict is forgotten, and the marks are to be
looked at. -/
theorem unjudge {raw : RawEvent} (sound : Sound (raw :: rest) todo stirred group)
    (forgot : group.translator.cache = []) : Sound rest todo true group.unjudge := by
  refine ⟨?_, fun _ member => (by cases member), ?_, rfl, sound.tidy⟩
  · intro entry member
    change entry ∈ group.translator.cache at member
    rw [forgot] at member
    cases member
  · intro handle member
    obtain ⟨object, found, marked⟩ := sound.marks handle member
    refine ⟨object, found, fun live => ?_⟩
    obtain missed | listed | ⟨known, -⟩ := marked live
    · exact .inl missed
    · exact .inr (.inl listed)
    · exact .inr (.inr ⟨known, .inr (.inr rfl)⟩)

theorem relevant {raw : RawEvent} (sound : Sound (raw :: rest) todo stirred group)
    (forgot : raw.isDirectoryMove = true → group.translator.cache = []) :
    ∃ stirred', Sound rest todo stirred' (group.relevant raw).2 := by
  have begun : ∃ stirred', Sound rest todo stirred'
      (if raw.isDirectoryMove then group.unjudge else group) := by
    cases moves : raw.isDirectoryMove with
    | true => exact ⟨true, sound.unjudge (forgot moves)⟩
    | false => exact ⟨stirred, sound.pass moves⟩
  obtain ⟨stirred', begun⟩ := begun
  refine ⟨stirred', ?_⟩
  rw [Group.relevant]
  dsimp only
  generalize (if raw.isDirectoryMove = true then group.unjudge else group) = start at begun ⊢
  have looked := begun.someUnderRoot (dirsOf raw)
  split
  · exact looked
  · split
    · exact ((looked.countDropped raw).resolve _).1
    · exact looked.countDropped raw

/-! ### Translation -/

theorem recordPath (sound : Sound rest todo stirred group) (handle : Handle) (name : Bytes) :
    Sound rest todo stirred (group.recordPath handle name).2 :=
  (sound.resolve handle).1

theorem entryEvent (sound : Sound rest todo stirred group) (raw : RawEvent) (asked : Bool)
    (make : PathBuf → Event) :
    Sound rest todo stirred (group.entryEvent raw asked make).2 := by
  cases asked with
  | false => exact sound
  | true =>
      cases parent : raw.parent with
      | none =>
          simp only [Group.entryEvent, parent]
          exact sound
      | some record =>
          simp only [Group.entryEvent, parent]
          exact sound.recordPath _ _

theorem sidePath (sound : Sound rest todo stirred group) (side : Option (Handle × Bytes)) :
    Sound rest todo stirred (group.sidePath side).2 := by
  cases side with
  | none => exact sound
  | some record => exact sound.recordPath _ _

theorem moveEvent (sound : Sound rest todo stirred group) (raw : RawEvent) :
    Sound rest todo stirred (group.moveEvent raw).2 := by
  rw [Group.moveEvent]
  split
  · dsimp only
    have both := (sound.sidePath raw.old).sidePath raw.new
    split <;> exact both
  · exact sound

theorem endEvent (sound : Sound rest todo stirred group) (raw : RawEvent) :
    Sound rest todo stirred (group.endEvent raw).2 := by
  rw [Group.endEvent]
  split
  · split
    · exact sound.recordPath _ []
    · exact sound
  · exact sound

theorem translate (sound : Sound rest todo stirred group) (raw : RawEvent) :
    Sound rest todo stirred (group.translate raw).2 :=
  (((((((sound.entryEvent raw _ _).entryEvent raw _ _).entryEvent raw _ _).entryEvent raw _
    _).entryEvent raw _ _).entryEvent raw _ _).moveEvent raw).endEvent raw

theorem restoreMergedMoves (moves : Moves) (sound : Sound rest todo stirred group) :
    Sound rest todo stirred (group.restoreMergedMoves moves).2 := by
  induction moves generalizing group with
  | nil => exact sound
  | cons held others ih =>
      rw [Group.restoreMergedMoves]
      split
      · exact ih sound
      · exact ih (sound.resolveFresh held.1)

theorem translateEach (raws : List RawEvent) (moves : Moves)
    (sound : Sound raws todo stirred group) :
    ∃ stirred', Sound [] todo stirred' (group.translateEach moves raws).2.2 := by
  induction raws generalizing group moves stirred with
  | nil => exact ⟨stirred, sound⟩
  | cons raw others ih =>
      rw [Group.translateEach]
      dsimp only
      have begun : Sound (raw :: others) todo stirred
          (if raw.isDirectoryMove then group.forget else group) := by
        split
        · exact sound.forget
        · exact sound
      obtain ⟨stirred', looked⟩ := begun.relevant fun moves => by rw [if_pos moves]; rfl
      generalize ((if raw.isDirectoryMove = true then group.forget else group).relevant raw) = seen
        at looked ⊢
      split
      · exact ih _ (looked.translate raw)
      · exact ih _ looked

theorem translateBatch (raws : List RawEvent) (sound : Sound raws todo stirred group) :
    ∃ stirred', Sound [] todo stirred' (group.translateBatch raws).2 := by
  obtain ⟨stirred', translated⟩ := sound.translateEach raws []
  exact ⟨stirred', translated.restoreMergedMoves _⟩

/-! ### Ignore marks -/

/-- What the kernel answers outside the roots is outside them. -/
theorem under_of_fresh {dir : Handle} (outside : ((group.resolveFresh dir).1.any fun path =>
      !underRoot (group.resolveFresh dir).2.roots path) = true) :
    (group.resolveFresh dir).2.kernel.under (group.resolveFresh dir).2.roots dir = false := by
  obtain ⟨path, answer, out⟩ := (Option.any_eq_true _ _).mp outside
  rw [Kernel.under, resolveFresh_eq answer, Option.any_some]
  simpa using out

/-- Marks are counted, or not, with everything else as it was. -/
theorem count (sound : Sound rest todo stirred group) (dropped : List (Handle × Nat)) :
    Sound rest todo stirred { group with translator.dropped := dropped } :=
  ⟨sound.cache, sound.verdicts, sound.marks, sound.moved, sound.tidy⟩

/-- A directory outside the roots keeps its mark. -/
theorem keep {dir : Handle} (sound : Sound rest (dir :: todo) stirred group)
    (outside : group.kernel.under group.roots dir = false) :
    Sound rest todo stirred
      { group with translator.ignored := dir :: group.translator.ignored } := by
  refine ⟨sound.cache, sound.verdicts, ?_, sound.moved, sound.tidy⟩
  intro handle member
  obtain ⟨object, found, marked⟩ := sound.marks handle member
  refine ⟨object, found, fun live => ?_⟩
  obtain missed | listed | ⟨known, still⟩ := marked live
  · exact .inl missed
  · rcases List.mem_cons.mp listed with rfl | listed
    · exact .inr (.inr ⟨List.mem_cons_self, .inl outside⟩)
    · exact .inr (.inl listed)
  · exact .inr (.inr ⟨List.mem_cons_of_mem _ known, still⟩)

/-- A mark is lifted, or missed. -/
theorem lift {dir : Handle} (sound : Sound rest (dir :: todo) stirred group)
    (meanwhile : Meanwhile) :
    Sound rest todo stirred { group with kernel := group.kernel.lift dir meanwhile } := by
  rw [Kernel.lift]
  split
  · refine ⟨sound.cache, sound.verdicts, ?_, sound.moved, sound.tidy⟩
    intro handle member
    obtain ⟨kept, other⟩ := List.mem_filter.mp member
    obtain ⟨object, found, marked⟩ := sound.marks handle kept
    refine ⟨object, found, fun live => (marked live).imp_right (Or.imp_left fun listed => ?_)⟩
    rcases List.mem_cons.mp listed with rfl | listed
    · simp at other
    · exact listed
  · split
    · refine ⟨sound.cache, sound.verdicts, ?_, sound.moved, sound.tidy⟩
      intro handle member
      obtain ⟨object, found, -⟩ := sound.marks handle member
      exact ⟨object, found, fun _ => .inl (List.cons_ne_nil _ _)⟩
    · next dead =>
      refine ⟨sound.cache, sound.verdicts, ?_, sound.moved, sound.tidy⟩
      intro handle member
      obtain ⟨object, found, marked⟩ := sound.marks handle member
      refine ⟨object, found, fun live => (marked live).imp_right (Or.imp_left fun listed => ?_)⟩
      rcases List.mem_cons.mp listed with rfl | listed
      · obtain ⟨held, found, -, lives⟩ := live
        rw [Kernel.alive, found, Option.bind_some] at dead
        exact absurd lives dead
      · exact listed

theorem sweep (dirs : List Handle) (sound : Sound rest dirs stirred group) :
    Sound rest [] stirred (group.sweep dirs) := by
  induction dirs generalizing group with
  | nil => exact sound
  | cons dir others ih =>
      rw [Group.sweep]
      dsimp only
      have asked := sound.resolveFresh dir
      split
      · next outside =>
        exact ih (asked.keep (under_of_fresh outside))
      · exact ih ((asked.ask.lift _).count _)

/-- The kernel takes an ignore mark on a directory outside the roots. -/
theorem mark {dir : Handle} (sound : Sound rest todo stirred group)
    (outside : Tells rest group.kernel group.roots dir false) :
    Sound rest todo stirred { group with
      kernel := { group.kernel with ignored := dir :: group.kernel.ignored }
      translator.ignored := dir :: group.translator.ignored } := by
  refine ⟨sound.cache, sound.verdicts, ?_, sound.moved, sound.tidy⟩
  intro handle member
  rcases List.mem_cons.mp member with rfl | held
  · obtain ⟨object, found, tells⟩ := outside
    refine ⟨object, found, fun live => .inr (.inr ⟨List.mem_cons_self, ?_⟩)⟩
    obtain out | moving := tells live
    · exact .inl out.symm
    · exact .inr (.inl moving)
  · obtain ⟨object, found, marked⟩ := sound.marks handle held
    exact ⟨object, found, fun live => (marked live).imp_right
      (Or.imp_right (And.imp_left (List.mem_cons_of_mem _)))⟩

theorem refuse (sound : Sound rest todo stirred group) :
    Sound rest todo stirred { group with translator.refused := true } :=
  ⟨sound.cache, sound.verdicts, sound.marks, sound.moved, sound.tidy⟩

theorem ignore (sound : Sound rest todo stirred group) (dir : Handle) :
    Sound rest todo stirred (group.ignore dir) := by
  rw [Group.ignore]
  split
  · exact sound
  · dsimp only
    have asked := sound.resolveFresh dir
    split
    · next outside =>
      obtain ⟨path, answer, out⟩ := (Option.any_eq_true _ _).mp outside
      have here : Tells rest (group.resolveFresh dir).2.kernel (group.resolveFresh dir).2.roots dir
          false := by
        rw [Bool.not_eq_true'] at out
        exact out ▸ tells_of_pathOf (resolveFresh_eq answer) _
      -- the directory may move before the mark is taken
      have told : Tells rest (group.resolveFresh dir).2.ask.2.kernel
          (group.resolveFresh dir).2.ask.2.roots dir false := by
        rw [Group.roots, ask_translator]
        exact here.lead (ask_leads _)
      have later := asked.ask
      generalize (group.resolveFresh dir).2.ask = taken at told later ⊢
      cases taken.2.kernel.ignore_cases dir taken.1 with
      | inl taken_mark =>
          rw [taken_mark]
          exact later.mark told
      | inr refused =>
          obtain ⟨refusal, refused⟩ := refused
          rw [refused]
          cases refusal with
          | unknown => exact later.refuse
          | other => exact later
    · exact asked

theorem countIn (sound : Sound rest todo stirred group) (dir : Handle) :
    Sound rest todo stirred (group.countIn dir) := by
  rw [Group.countIn]
  dsimp only
  generalize (if scopeMax ≤ group.translator.dropped.length then [] else group.translator.dropped) =
    dropped
  split
  · exact (sound.count _).ignore dir
  · exact sound.count _

theorem countEach (dirs : List Handle) (sound : Sound rest todo stirred group) :
    Sound rest todo stirred (dirs.foldl Group.countIn group) := by
  induction dirs generalizing group with
  | nil => exact sound
  | cons dir others ih => exact ih (sound.countIn dir)

/-- The marks are looked at when a directory moved, and there is nothing to look at when none
did. -/
theorem settleIgnores (sound : Sound rest [] stirred group) :
    Sound rest [] false group.settleIgnores := by
  rw [Group.settleIgnores]
  dsimp only
  apply countEach
  have swept : Sound rest [] false
      (if group.translator.scope.moved then
        { group with translator.scope.moved := false, translator.ignored := [] }.sweep
          group.translator.ignored
      else { group with translator.scope.moved := false }) := by
    rw [sound.moved]
    cases stirred with
    | true =>
        apply sweep
        refine ⟨sound.cache, sound.verdicts, ?_, rfl, sound.tidy⟩
        intro handle member
        obtain ⟨object, found, marked⟩ := sound.marks handle member
        refine ⟨object, found, fun live => (marked live).imp_right fun known => ?_⟩
        obtain listed | ⟨known, -⟩ := known
        · cases listed
        · exact .inl known
    | false => exact ⟨sound.cache, sound.verdicts, sound.marks, rfl, sound.tidy⟩
  exact ⟨swept.cache, swept.verdicts, swept.marks, swept.moved, swept.tidy⟩

end Sound

end Group

end Watchd
end Metafolder
