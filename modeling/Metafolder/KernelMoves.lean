import Metafolder.Kernel

/-!
# What an operation moves

Whatever is done to the filesystems, a directory of a marked filesystem stays where it is unless the
move of a directory is queued, or was dropped for a full queue.  An event queued is not taken back:
one it is merged into tells as much.
-/

namespace Metafolder
namespace Watchd

theorem RawEvent.isDirectoryMove_or {held : RawEvent} (mask : Mask)
    (move : held.isDirectoryMove = true) :
    RawEvent.isDirectoryMove { held with mask := held.mask.or mask } = true := by
  simp only [isDirectoryMove, Mask.or, Bool.and_eq_true, Bool.or_eq_true] at move ⊢
  tauto

/-- An event merged into another of its kind is told by it. -/
theorem RawEvent.isDirectoryMove_of_sameKind {held new : RawEvent}
    (alike : held.sameKind new = true) (onDir : new.mask.onDir = true)
    (rename : new.mask.rename = true) : held.isDirectoryMove = true := by
  simp only [sameKind, Bool.and_eq_true, beq_iff_eq] at alike
  simp [isDirectoryMove, alike.1.1.2, alike.1.2, onDir, rename]

theorem mergeInto_keeps {new : RawEvent} {window : Nat} {held merged : List RawEvent}
    (found : mergeInto new window held = some merged)
    (move : ∃ raw ∈ held, raw.isDirectoryMove = true) :
    ∃ raw ∈ merged, raw.isDirectoryMove = true := by
  induction window generalizing held merged with
  | zero => simp [mergeInto] at found
  | succ window ih =>
      cases held with
      | nil => simp [mergeInto] at found
      | cons head rest =>
          rw [mergeInto] at found
          split at found
          · obtain rfl := Option.some.inj found
            obtain ⟨raw, member, moves⟩ := move
            cases member with
            | head => exact ⟨_, List.mem_cons_self, RawEvent.isDirectoryMove_or _ moves⟩
            | tail _ member => exact ⟨raw, List.mem_cons_of_mem _ member, moves⟩
          · obtain ⟨others, later, rfl⟩ := Option.map_eq_some_iff.mp found
            obtain ⟨raw, member, moves⟩ := move
            cases member with
            | head => exact ⟨_, List.mem_cons_self, moves⟩
            | tail _ member =>
                obtain ⟨kept, kept_mem, kept_moves⟩ := ih later ⟨raw, member, moves⟩
                exact ⟨kept, List.mem_cons_of_mem _ kept_mem, kept_moves⟩

theorem mergeInto_tells {new : RawEvent} {window : Nat} {held merged : List RawEvent}
    (found : mergeInto new window held = some merged) (onDir : new.mask.onDir = true)
    (rename : new.mask.rename = true) : ∃ raw ∈ merged, raw.isDirectoryMove = true := by
  induction window generalizing held merged with
  | zero => simp [mergeInto] at found
  | succ window ih =>
      cases held with
      | nil => simp [mergeInto] at found
      | cons head rest =>
          rw [mergeInto] at found
          split at found
          · next alike =>
            obtain rfl := Option.some.inj found
            exact ⟨_, List.mem_cons_self, RawEvent.isDirectoryMove_or _
              (RawEvent.isDirectoryMove_of_sameKind alike onDir rename)⟩
          · obtain ⟨others, later, rfl⟩ := Option.map_eq_some_iff.mp found
            obtain ⟨kept, kept_mem, kept_moves⟩ := ih later
            exact ⟨kept, List.mem_cons_of_mem _ kept_mem, kept_moves⟩

/-- Merging tells of no overflow that was not told of. -/
theorem mergeInto_tidy {new : RawEvent} {window : Nat} {held merged : List RawEvent}
    (found : mergeInto new window held = some merged) (heard : new.mask.qOverflow = false) :
    ∀ raw ∈ merged, raw.mask.qOverflow = true → raw ∈ held := by
  induction window generalizing held merged with
  | zero => simp [mergeInto] at found
  | succ window ih =>
      cases held with
      | nil => simp [mergeInto] at found
      | cons head rest =>
          rw [mergeInto] at found
          intro raw member overflow
          split at found
          · next alike =>
            obtain rfl := Option.some.inj found
            cases member with
            | head =>
                simp only [RawEvent.sameKind, Bool.and_eq_true, Bool.not_eq_true'] at alike
                simp [Mask.or, heard, alike.1.1.1] at overflow
            | tail _ member => exact List.mem_cons_of_mem _ member
          · obtain ⟨others, later, rfl⟩ := Option.map_eq_some_iff.mp found
            cases member with
            | head => exact List.mem_cons_self
            | tail _ member => exact List.mem_cons_of_mem _ (ih later raw member overflow)

namespace Kernel

/-- No overflow queued is the move of a directory. -/
def Tidy (kernel : Kernel) : Prop :=
  ∀ raw ∈ kernel.queue, raw.mask.qOverflow = true → raw.isDirectoryMove = false

/-- A directory that lives. -/
def LiveDir (kernel : Kernel) (handle : Handle) : Prop :=
  ∃ object, kernel.objects[handle]? = some object ∧ object.dir = true ∧ object.at_.isSome = true

/-- The move of a directory is queued, or was dropped. -/
def Moved (kernel : Kernel) : Prop :=
  ∃ raw ∈ kernel.queue ++ kernel.dropped, raw.isDirectoryMove = true

/-- What may become of an object: it stays of its kind, and a directory gone stays gone. -/
structure Becomes (object later : Object) : Prop where
  fs : later.fs = object.fs
  dir : later.dir = object.dir
  lives : object.dir = true → later.at_.isSome = true → object.at_.isSome = true

theorem Becomes.refl (object : Object) : Becomes object object := ⟨rfl, rfl, fun _ => id⟩

theorem Becomes.trans {first second third : Object} (one : Becomes first second)
    (two : Becomes second third) : Becomes first third where
  fs := two.fs.trans one.fs
  dir := two.dir.trans one.dir
  lives dir lives := one.lives dir (two.lives (one.dir.trans dir) lives)

/-- A directory that lives on is where it was. -/
def Stays (object later : Object) : Prop :=
  object.dir = true → later.at_.isSome = true → later.at_ = object.at_

/-- What operations lead to. -/
structure Leads (kernel after : Kernel) : Prop where
  base : after.base = kernel.base
  ignored : after.ignored = kernel.ignored
  missed : after.missed = kernel.missed
  becomes : ∀ (handle : Handle) (object : Object), kernel.objects[handle]? = some object →
    ∃ later : Object, after.objects[handle]? = some later ∧ Becomes object later ∧
      (after.Moved ∨ kernel.marked object.fs = false ∨ Stays object later)
  moved : kernel.Moved → after.Moved
  tidy : kernel.Tidy → after.Tidy

namespace Leads

theorem marked {kernel after : Kernel} (leads : Leads kernel after) :
    after.marked = kernel.marked := by
  funext fs
  rw [Kernel.marked, Kernel.marked, leads.base]

theorem refl (kernel : Kernel) : Leads kernel kernel where
  base := rfl
  ignored := rfl
  missed := rfl
  becomes _ object found := ⟨object, found, .refl object, .inr (.inr fun _ _ => rfl)⟩
  moved := id
  tidy := id

theorem trans {first second third : Kernel} (one : Leads first second) (two : Leads second third) :
    Leads first third where
  base := two.base.trans one.base
  ignored := two.ignored.trans one.ignored
  missed := two.missed.trans one.missed
  becomes handle object found := by
    obtain ⟨middle, found', becomes, stays⟩ := one.becomes handle object found
    obtain ⟨later, found'', becomes', stays'⟩ := two.becomes handle middle found'
    refine ⟨later, found'', becomes.trans becomes', ?_⟩
    rw [one.marked, becomes.fs] at stays'
    obtain moved | unmarked | stays := stays
    · exact .inl (two.moved moved)
    · exact .inr (.inl unmarked)
    · obtain moved | unmarked | stays' := stays'
      · exact .inl moved
      · exact .inr (.inl unmarked)
      · refine .inr (.inr fun dir lives => ?_)
        have same := stays' (becomes.dir.trans dir) lives
        rw [same, stays dir (same ▸ lives)]
  moved moved := two.moved (one.moved moved)
  tidy tidy := two.tidy (one.tidy tidy)

end Leads

variable {kernel : Kernel}

theorem moved_mono {after : Kernel} (queue : (∃ raw ∈ kernel.queue, raw.isDirectoryMove = true) →
      ∃ raw ∈ after.queue, raw.isDirectoryMove = true)
    (dropped : kernel.dropped ⊆ after.dropped) (moved : kernel.Moved) : after.Moved := by
  obtain ⟨raw, member, moves⟩ := moved
  rcases List.mem_append.mp member with queued | lost
  · obtain ⟨kept, kept_mem, kept_moves⟩ := queue ⟨raw, queued, moves⟩
    exact ⟨kept, List.mem_append_left _ kept_mem, kept_moves⟩
  · exact ⟨raw, List.mem_append_right _ (dropped lost), moves⟩

/-- An event queued leaves the filesystems as they are. -/
theorem push_leads (kernel : Kernel) (fs : Nat) (raw : RawEvent) :
    Leads kernel (kernel.push fs raw) := by
  have same : ∀ after : Kernel, after.objects = kernel.objects →
      ∀ (handle : Handle) (object : Object), kernel.objects[handle]? = some object →
        ∃ later : Object, after.objects[handle]? = some later ∧
        Becomes object later ∧ (after.Moved ∨ kernel.marked object.fs = false ∨
          Stays object later) :=
    fun after objects handle object found =>
      ⟨object, objects ▸ found, .refl object, .inr (.inr fun _ _ => rfl)⟩
  rw [push]
  split
  · exact .refl kernel
  · dsimp only
    generalize (if kernel.silences raw = true then
      ({ raw with mask := raw.mask.silenced } : RawEvent) else raw) = told
    split
    · exact .refl kernel
    · split
      · refine ⟨rfl, rfl, rfl, same _ rfl, moved_mono ?_ (List.subset_cons_self _ _), ?_⟩
        · rintro ⟨held, member, moves⟩
          dsimp only
          split
          · exact ⟨held, member, moves⟩
          · exact ⟨held, List.mem_append_left _ member, moves⟩
        · intro tidy held member overflow
          dsimp only at member
          split at member
          · exact tidy held member overflow
          · rcases List.mem_append.mp member with older | added
            · exact tidy held older overflow
            · rw [List.mem_singleton.mp added]
              rfl
      · next room =>
        rw [Bool.or_eq_true, not_or, Bool.not_eq_true] at room
        refine ⟨rfl, rfl, rfl, same _ rfl, moved_mono ?_ (List.Subset.refl _), ?_⟩
        · rintro ⟨held, member, moves⟩
          dsimp only
          split
          · next merged found =>
            obtain ⟨kept, kept_mem, kept_moves⟩ :=
              mergeInto_keeps found ⟨held, List.mem_reverse.mpr member, moves⟩
            exact ⟨kept, List.mem_reverse.mpr kept_mem, kept_moves⟩
          · exact ⟨held, List.mem_append_left _ member, moves⟩
        · intro tidy held member overflow
          dsimp only at member
          split at member
          · next merged found =>
            have older := mergeInto_tidy found room.1 held (List.mem_reverse.mp member) overflow
            exact tidy held (List.mem_reverse.mp older) overflow
          · rcases List.mem_append.mp member with older | added
            · exact tidy held older overflow
            · rw [List.mem_singleton.mp added, room.1] at overflow
              cases overflow

/-- The move of a directory is queued or dropped, never silenced. -/
theorem push_tells {fs : Nat} {raw : RawEvent} (marked : kernel.marked fs = true)
    (unnamed : raw.parent = none) (onDir : raw.mask.onDir = true) (rename : raw.mask.rename = true) :
    (kernel.push fs raw).Moved := by
  have heard : kernel.silences raw = false := by rw [silences, unnamed]; rfl
  have move : raw.isDirectoryMove = true := by simp [RawEvent.isDirectoryMove, onDir, rename]
  simp only [push, marked, heard, Bool.not_true, Bool.false_eq_true, if_false, Bool.false_and]
  split
  · exact ⟨raw, List.mem_append_right _ List.mem_cons_self, move⟩
  · split
    · next merged found =>
      obtain ⟨kept, kept_mem, kept_moves⟩ := mergeInto_tells found onDir rename
      exact ⟨kept, List.mem_append_left _ (List.mem_reverse.mpr kept_mem), kept_moves⟩
    · exact ⟨raw, List.mem_append_left _ (List.mem_append_right _ (List.mem_singleton.mpr rfl)),
        move⟩

/-- A change of each object by itself. -/
theorem leads_of_map {change : Object → Object}
    (becomes : ∀ object, Becomes object (change object) ∧
      (kernel.Moved ∨ kernel.marked object.fs = false ∨ Stays object (change object))) :
    Leads kernel { kernel with objects := kernel.objects.map change } where
  base := rfl
  ignored := rfl
  missed := rfl
  becomes handle object found := by
    refine ⟨change object, ?_, becomes object⟩
    rw [List.getElem?_map, found, Option.map_some]
  moved := id
  tidy := id

theorem kill_leads (kernel : Kernel) (fs : Nat) (names : List Bytes) :
    Leads kernel (kernel.kill fs names) := by
  apply leads_of_map
  intro object
  split
  · exact ⟨⟨rfl, rfl, fun _ lives => by cases lives⟩, .inr (.inr fun _ lives => by cases lives)⟩
  · exact ⟨.refl object, .inr (.inr fun _ _ => rfl)⟩

theorem selfGone_leads (kernel : Kernel) (handle : Handle) (object : Object) :
    Leads kernel (kernel.selfGone handle object) := by
  rw [selfGone]
  split
  · exact push_leads _ _ _
  · exact (push_leads _ _ _).trans (push_leads _ _ _)

theorem displace_leads (kernel : Kernel) (fs : Nat) (target : List Bytes)
    (victim : Option (Handle × Object)) : Leads kernel (kernel.displace fs target victim) := by
  cases victim with
  | none => exact .refl kernel
  | some held => exact (selfGone_leads _ _ _).trans (kill_leads _ _ _)

theorem relocate_becomes (fs : Nat) (source target : List Bytes) (object : Object) :
    Becomes object (relocate fs source target object) := by
  rw [relocate]
  split
  · next names held =>
    split
    · exact ⟨rfl, rfl, fun _ _ => by rw [held]; rfl⟩
    · exact .refl object
  · exact .refl object

theorem relocate_of_ne {fs : Nat} {object : Object} (other : object.fs ≠ fs)
    (source target : List Bytes) : relocate fs source target object = object := by
  rw [relocate]
  split
  · rw [if_neg fun here => other here.1]
  · rfl

/-- A move leads on where, if it is of a directory of a marked filesystem, it was told. -/
theorem move_leads {handle : Handle} {object held : Object}
    (found : kernel.objects[handle]? = some held) (fs : held.fs = object.fs)
    (dir : held.dir = object.dir)
    (told : object.dir = true → kernel.marked object.fs = true → kernel.Moved)
    (source target : List Bytes) : Leads kernel (kernel.move handle object source target) := by
  rw [move]
  cases is_dir : object.dir with
  | true =>
      simp only [if_true]
      apply leads_of_map
      intro other
      refine ⟨relocate_becomes _ _ _ _, ?_⟩
      by_cases here : other.fs = object.fs
      · cases marked : kernel.marked object.fs with
        | true => exact .inl (told is_dir marked)
        | false => exact .inr (.inl (by rw [here, marked]))
      · rw [relocate_of_ne here]
        exact .inr (.inr fun _ _ => rfl)
  | false =>
      simp only [Bool.false_eq_true, if_false]
      refine ⟨rfl, rfl, rfl, ?_, id, id⟩
      intro index other found'
      by_cases same : index = handle
      · subst same
        obtain rfl := Option.some.inj (found.symm.trans found')
        have file : held.dir = false := dir.trans is_dir
        refine ⟨{ object with at_ := some target }, ?_, ⟨fs.symm, dir.symm, ?_⟩, .inr (.inr ?_)⟩
        · rw [is_dir]
          exact List.getElem?_set_self (List.getElem?_eq_some_iff.mp found).1
        · intro is_dir
          rw [file] at is_dir
          cases is_dir
        · intro is_dir
          rw [file] at is_dir
          cases is_dir
      · refine ⟨other, ?_, .refl other, .inr (.inr fun _ _ => rfl)⟩
        rw [List.getElem?_set_ne (Ne.symm same)]
        exact found'

theorem rename_leads {after : Kernel} {handle parent : Handle} {name : Bytes}
    (renamed : kernel.rename handle parent name = some after) : Leads kernel after := by
  rw [rename] at renamed
  obtain ⟨object, found, renamed⟩ := Option.bind_eq_some_iff.mp renamed
  obtain ⟨source, placed, renamed⟩ := Option.bind_eq_some_iff.mp renamed
  obtain ⟨⟨fs, names⟩, into, renamed⟩ := Option.bind_eq_some_iff.mp renamed
  dsimp only at renamed
  split at renamed
  · cases renamed
  · next allowed =>
    split at renamed
    · exact Option.some.inj renamed ▸ .refl kernel
    · obtain rfl := Option.some.inj renamed
      simp only [Bool.or_eq_true, decide_eq_true_eq, not_or, ne_eq, not_not] at allowed
      obtain rfl : fs = object.fs := allowed.1.1.2
      have pushed := push_leads kernel object.fs
        { mask := { rename := true, onDir := object.dir }
          old := kernel.entry object
          new := some (parent, name)
          fid := some handle }
      have displaced := pushed.trans (displace_leads _ object.fs (names ++ [name])
        ((kernel.objectAt object.fs (names ++ [name])).bind fun victim =>
          kernel.objects[victim]?.map fun gone => (victim, gone)))
      obtain ⟨held, found', becomes, -⟩ := displaced.becomes handle object found
      refine displaced.trans (move_leads found' becomes.fs becomes.dir ?_ _ _)
      intro dir marked
      rw [displaced.marked] at marked
      exact (displace_leads _ _ _ _).moved (push_tells marked rfl dir rfl)

theorem create_leads {after : Kernel} {parent : Handle} {name : Bytes} {dir : Bool}
    (created : kernel.create parent name dir = some after) : Leads kernel after := by
  rw [create] at created
  obtain ⟨⟨fs, names⟩, into, created⟩ := Option.bind_eq_some_iff.mp created
  dsimp only at created
  split at created
  · cases created
  · obtain rfl := Option.some.inj created
    have added : Leads kernel { kernel with
        objects := kernel.objects ++ [⟨fs, some (names ++ [name]), dir⟩] } := by
      refine ⟨rfl, rfl, rfl, ?_, id, id⟩
      intro handle object found
      refine ⟨object, ?_, .refl object, .inr (.inr fun _ _ => rfl)⟩
      rw [List.getElem?_append_left (List.getElem?_eq_some_iff.mp found).1]
      exact found
    exact added.trans (push_leads _ _ _)

theorem write_leads {after : Kernel} {handle : Handle} {some_data : Bool}
    (written : kernel.write handle some_data = some after) : Leads kernel after := by
  rw [write] at written
  obtain ⟨object, found, written⟩ := Option.bind_eq_some_iff.mp written
  split at written
  · cases written
  · obtain rfl := Option.some.inj written
    refine Leads.trans ?_ (push_leads _ _ _)
    split
    · exact push_leads _ _ _
    · exact .refl kernel

theorem attrib_leads {after : Kernel} {handle : Handle}
    (changed : kernel.attrib handle = some after) : Leads kernel after := by
  rw [attrib] at changed
  obtain ⟨object, found, changed⟩ := Option.bind_eq_some_iff.mp changed
  split at changed
  · cases changed
  · exact Option.some.inj changed ▸ push_leads _ _ _

theorem remove_leads {after : Kernel} {handle : Handle}
    (removed : kernel.remove handle = some after) : Leads kernel after := by
  rw [remove] at removed
  obtain ⟨object, found, removed⟩ := Option.bind_eq_some_iff.mp removed
  obtain ⟨names, placed, removed⟩ := Option.bind_eq_some_iff.mp removed
  split at removed
  · cases removed
  · obtain rfl := Option.some.inj removed
    exact ((selfGone_leads _ _ _).trans (push_leads _ _ _)).trans (kill_leads _ _ _)

/-- What any operation leads to. -/
theorem does_leads (kernel : Kernel) (op : Op) : Leads kernel (kernel.does op) := by
  rw [does]
  cases performed : kernel.perform op with
  | none => exact .refl kernel
  | some after =>
      rw [Option.getD_some]
      cases op with
      | create parent name dir => exact create_leads performed
      | write handle some_data => exact write_leads performed
      | attrib handle => exact attrib_leads performed
      | remove handle => exact remove_leads performed
      | rename handle parent name => exact rename_leads performed

theorem foldl_leads (ops : List Op) (kernel : Kernel) : Leads kernel (ops.foldl does kernel) := by
  induction ops generalizing kernel with
  | nil => exact .refl kernel
  | cons op rest ih => exact (does_leads kernel op).trans (ih _)

end Kernel

end Watchd
end Metafolder
