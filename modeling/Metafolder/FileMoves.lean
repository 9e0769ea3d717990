import Metafolder.Scoped

/-!
# Files moved

What the move of a file does to the filesystems: it is where it was moved to, what had the name
there is gone, and every directory stays where it is.
-/

namespace Metafolder
namespace Watchd

/-- Whether an entry can have a name. -/
def legalName (name : Bytes) : Prop := name ≠ [] ∧ name ≠ Kernel.itself

namespace Kernel

/-- A kernel whose objects are laid out as those of a filesystem are: one at a place, each in a
directory that is there. -/
structure Laid (kernel : Kernel) : Prop where
  apart : ∀ {one other : Handle} {first second : Object} {names : List Bytes},
    kernel.objects[one]? = some first → kernel.objects[other]? = some second →
      first.fs = second.fs → first.at_ = some names → second.at_ = some names → one = other
  within : ∀ {handle : Handle} {object : Object} {names : List Bytes} {name : Bytes},
    kernel.objects[handle]? = some object → object.at_ = some (names ++ [name]) →
      legalName name ∧ ∃ (parent : Handle) (above : Object), kernel.objects[parent]? = some above ∧
        above.fs = object.fs ∧ above.at_ = some names ∧ above.dir = true

variable {kernel after : Kernel} {handle parent : Handle} {object : Object}
  {names source : List Bytes} {name : Bytes} {fs : Nat}

/-- The object at a place is found. -/
theorem Laid.objectAt_eq (laid : kernel.Laid) (found : kernel.objects[handle]? = some object)
    (placed : object.at_ = some names) : kernel.objectAt object.fs names = some handle := by
  have bound : handle < kernel.objects.length := (List.getElem?_eq_some_iff.mp found).1
  have held : kernel.objects[handle] = object := (List.getElem?_eq_some_iff.mp found).2
  rw [objectAt, List.findIdx?_eq_some_iff_getElem]
  refine ⟨bound, by simp [held, placed], fun other before => ?_⟩
  have inside : other < kernel.objects.length := before.trans bound
  intro same
  simp only [Bool.and_eq_true, beq_iff_eq] at same
  have both := laid.apart (List.getElem?_eq_getElem inside) found same.1 same.2 placed
  exact absurd both before.ne

theorem objectAt_spec (found : kernel.objectAt fs names = some handle) :
    ∃ object, kernel.objects[handle]? = some object ∧ object.fs = fs ∧ object.at_ = some names := by
  rw [objectAt, List.findIdx?_eq_some_iff_getElem] at found
  obtain ⟨bound, here, -⟩ := found
  simp only [Bool.and_eq_true, beq_iff_eq] at here
  exact ⟨_, List.getElem?_eq_getElem bound, here⟩

/-- What stands above an object is a directory. -/
theorem Laid.stands (laid : kernel.Laid) (found : kernel.objects[handle]? = some object)
    {below : List Bytes} (placed : object.at_ = some (names ++ below)) (proper : below ≠ []) :
    ∃ (parent : Handle) (above : Object), kernel.objects[parent]? = some above ∧
      above.fs = object.fs ∧ above.at_ = some names ∧ above.dir = true := by
  induction below using List.reverseRecOn generalizing handle object with
  | nil => exact absurd rfl proper
  | append_singleton front last ih =>
      rw [← List.append_assoc] at placed
      obtain ⟨-, parent, up, held, same, at_, dir⟩ := laid.within found placed
      by_cases empty : front = []
      · rw [empty, List.append_nil] at at_
        exact ⟨parent, up, held, same, at_, dir⟩
      · obtain ⟨top, high, there, alike, place, isDir⟩ := ih held at_ empty
        exact ⟨top, high, there, alike.trans same, place, isDir⟩

/-- Nothing is under a file. -/
theorem Laid.eq_of_file (laid : kernel.Laid) {file held : Object} {other : Handle}
    (found : kernel.objects[handle]? = some file) (isFile : file.dir = false)
    (placed : file.at_ = some names) (there : kernel.objects[other]? = some held)
    (same : held.fs = file.fs) {place : List Bytes} (at_ : held.at_ = some place)
    (under : names <+: place) : place = names := by
  obtain ⟨below, rfl⟩ := under
  by_contra proper
  have more : below ≠ [] := fun empty => proper (by rw [empty, List.append_nil])
  obtain ⟨top, above, here, alike, up, dir⟩ := laid.stands there at_ more
  have one := laid.apart here found (alike.trans same) up placed
  rw [one, found] at here
  cases here
  rw [isFile] at dir
  cases dir

/-! ### One file moved -/

/-- The event of a move. -/
def renameEvent (kernel : Kernel) (handle parent : Handle) (name : Bytes) (object : Object) :
    RawEvent where
  mask := { rename := true, onDir := object.dir }
  old := kernel.entry object
  new := some (parent, name)
  fid := some handle

theorem push_objects (kernel : Kernel) (fs : Nat) (raw : RawEvent) :
    (kernel.push fs raw).objects = kernel.objects := by
  rw [push]
  split
  · rfl
  · dsimp only
    generalize (if kernel.silences raw = true then
      ({ raw with mask := raw.mask.silenced } : RawEvent) else raw) = told
    split
    · rfl
    · split
      · rfl
      · rfl

theorem selfGone_objects (kernel : Kernel) (handle : Handle) (object : Object) :
    (kernel.selfGone handle object).objects = kernel.objects := by
  rw [selfGone]
  split
  · exact push_objects _ _ _
  · rw [push_objects, push_objects]

/-- What has the place of a move. -/
def victimAt (kernel : Kernel) (fs : Nat) (target : List Bytes) : Option (Handle × Object) :=
  (kernel.objectAt fs target).bind fun victim =>
    kernel.objects[victim]?.map fun gone => (victim, gone)

/-- A file moved: into a directory of its filesystem, in place of a file, if any. -/
theorem rename_file (found : kernel.objects[handle]? = some object) (file : object.dir = false)
    (done : kernel.rename handle parent name = some after) :
    ∃ source names, object.at_ = some source ∧ kernel.directory parent = some (object.fs, names) ∧
      (after = kernel ∧ source = names ++ [name] ∨ source ≠ [] ∧
        (∀ held, kernel.victimAt object.fs (names ++ [name]) = some held →
          held.1 ≠ handle ∧ held.2.dir = false) ∧
        after = (((kernel.push object.fs (kernel.renameEvent handle parent name object)).displace
          object.fs (names ++ [name]) (kernel.victimAt object.fs (names ++ [name]))).move handle
            object source (names ++ [name]))) := by
  rw [rename] at done
  obtain ⟨held, here, done⟩ := Option.bind_eq_some_iff.mp done
  obtain rfl := Option.some.inj (found.symm.trans here)
  obtain ⟨source, placed, done⟩ := Option.bind_eq_some_iff.mp done
  obtain ⟨⟨fs, names⟩, into, done⟩ := Option.bind_eq_some_iff.mp done
  dsimp only at done
  split at done
  · cases done
  · next allowed =>
    simp only [Bool.or_eq_true, decide_eq_true_eq, not_or, ne_eq, not_not] at allowed
    obtain ⟨⟨⟨rooted, rfl⟩, -⟩, replaces⟩ := allowed
    refine ⟨source, names, placed, into, ?_⟩
    split at done
    · next same =>
      refine .inl ⟨(Option.some.inj done).symm, ?_⟩
      obtain ⟨victim, at_, itself⟩ := (Option.any_eq_true _ _).mp same
      obtain ⟨other, there, gone⟩ := Option.bind_eq_some_iff.mp at_
      obtain ⟨held, -, rfl⟩ := Option.map_eq_some_iff.mp gone
      obtain ⟨one, standing, -, at_⟩ := objectAt_spec there
      obtain rfl := beq_iff_eq.mp itself
      obtain rfl := Option.some.inj (found.symm.trans standing)
      exact Option.some.inj (placed.symm.trans at_)
    · next other =>
      refine .inr ⟨rooted, fun victim at_ => ?_, (Option.some.inj done).symm⟩
      rw [victimAt] at at_
      rw [at_] at other replaces
      refine ⟨by simpa using other, ?_⟩
      simp only [Option.any_some, replaceable, file, Bool.not_eq_true'] at replaces
      cases dir : victim.2.dir with
      | false => rfl
      | true => simp [dir] at replaces

/-- What is at a place goes. -/
def retire (fs : Nat) (target : List Bytes) (held : Object) : Object :=
  if held.fs = fs ∧ held.at_ = some target then { held with at_ := none } else held

theorem retire_fs (target : List Bytes) (held : Object) : (retire fs target held).fs = held.fs := by
  rw [retire]
  split <;> rfl

theorem retire_dir (target : List Bytes) (held : Object) :
    (retire fs target held).dir = held.dir := by
  rw [retire]
  split <;> rfl

theorem retire_at {target place : List Bytes} {held : Object} :
    (retire fs target held).at_ = some place ↔
      held.at_ = some place ∧ ¬(held.fs = fs ∧ place = target) := by
  rw [retire]
  split
  · next here =>
    refine ⟨(fun nothing => by cases nothing), fun ⟨at_, other⟩ => ?_⟩
    exact absurd ⟨here.1, Option.some.inj (at_.symm.trans here.2)⟩ other
  · next other =>
    refine ⟨fun at_ => ⟨at_, fun same => other ⟨same.1, same.2 ▸ at_⟩⟩, And.left⟩

/-- Only what is at the place of a move goes for it. -/
theorem Laid.displaced (laid : kernel.Laid) {told : Kernel} (same : told.objects = kernel.objects)
    {target : List Bytes}
    (files : ∀ held, kernel.victimAt fs target = some held → held.2.dir = false) :
    (told.displace fs target (kernel.victimAt fs target)).objects =
      kernel.objects.map (retire fs target) := by
  cases victim : kernel.victimAt fs target with
  | none =>
      change told.objects = _
      rw [same]
      refine ((List.map_congr_left (g := id) fun held member => ?_).trans (List.map_id _)).symm
      have nobody : kernel.objectAt fs target = none := by
        cases there : kernel.objectAt fs target with
        | none => rfl
        | some found =>
            obtain ⟨gone, here, -⟩ := objectAt_spec there
            rw [victimAt, there, Option.bind_some, here] at victim
            cases victim
      rw [objectAt, List.findIdx?_eq_none_iff] at nobody
      have elsewhere := nobody held member
      rw [retire, if_neg]
      · rfl
      · intro ⟨on, at_⟩
        simp [on, at_] at elsewhere
  | some held =>
      obtain ⟨other, at_, gone⟩ := Option.bind_eq_some_iff.mp victim
      obtain ⟨object, here, rfl⟩ := Option.map_eq_some_iff.mp gone
      obtain ⟨found, there, on, placed⟩ := objectAt_spec at_
      obtain rfl := Option.some.inj (here.symm.trans there)
      have file := files _ victim
      change ((told.selfGone other object).kill fs target).objects = _
      rw [kill]
      dsimp only
      rw [selfGone_objects, same]
      refine List.map_congr_left fun held member => ?_
      rw [retire]
      refine if_congr (and_congr_right fun alike => ?_) rfl rfl
      obtain ⟨index, bound, rfl⟩ := List.getElem_of_mem member
      cases place : kernel.objects[index].at_ with
      | none => simp
      | some names =>
          rw [Option.any_some, List.isPrefixOf_iff_prefix, Option.some.injEq]
          refine ⟨fun under => ?_, fun same => same ▸ List.prefix_refl _⟩
          exact laid.eq_of_file here file placed (List.getElem?_eq_getElem bound)
            (alike.trans on.symm) place under

/-- Where the objects are once a file has moved. -/
theorem Laid.moved_objects (laid : kernel.Laid) (found : kernel.objects[handle]? = some object)
    (file : object.dir = false) {target : List Bytes} {raw : RawEvent}
    (files : ∀ held, kernel.victimAt object.fs target = some held →
      held.1 ≠ handle ∧ held.2.dir = false) (other : Handle) :
    (((kernel.push object.fs raw).displace object.fs target
      (kernel.victimAt object.fs target)).move handle object source target).objects[other]? =
        if other = handle then some { object with at_ := some target }
        else (kernel.objects[other]?).map (retire object.fs target) := by
  rw [move, file]
  simp only [Bool.false_eq_true, if_false]
  rw [laid.displaced (push_objects _ _ _) fun held at_ => (files held at_).2, List.getElem?_set]
  have bound := (List.getElem?_eq_some_iff.mp found).1
  by_cases same : handle = other
  · subst same
    simp [bound]
  · rw [if_neg same, if_neg (Ne.symm same), List.getElem?_map]

/-! ### What stays -/

/-- Where one file is moved from, and where to. -/
structure Hops (kernel after : Kernel) (handle parent : Handle) (name : Bytes) (object : Object)
    (source names : List Bytes) : Prop where
  found : kernel.objects[handle]? = some object
  file : object.dir = false
  placed : object.at_ = some source
  into : kernel.directory parent = some (object.fs, names)
  rooted : source ≠ []
  apart : source ≠ names ++ [name]
  victims : ∀ held, kernel.victimAt object.fs (names ++ [name]) = some held →
    held.1 ≠ handle ∧ held.2.dir = false
  queue : after.queue = ((kernel.push object.fs (kernel.renameEvent handle parent name object)).displace
    object.fs (names ++ [name]) (kernel.victimAt object.fs (names ++ [name]))).queue
  base : after.base = kernel.base
  objects : ∀ other : Handle, after.objects[other]? =
    if other = handle then some { object with at_ := some (names ++ [name]) }
    else (kernel.objects[other]?).map (retire object.fs (names ++ [name]))

/-- A file moved is where it was, or hops. -/
theorem Laid.rename_cases (laid : kernel.Laid) (found : kernel.objects[handle]? = some object)
    (file : object.dir = false) (done : kernel.rename handle parent name = some after) :
    after = kernel ∨ ∃ source names, Hops kernel after handle parent name object source names := by
  obtain ⟨source, names, placed, into, same | ⟨rooted, victims, made⟩⟩ := rename_file found file done
  · exact .inl same.1
  · refine .inr ⟨source, names, found, file, placed, into, rooted, ?_, victims, ?_,
      (rename_leads done).base, fun other => ?_⟩
    · rintro rfl
      have there := laid.objectAt_eq found placed
      exact (victims (handle, object) (by rw [victimAt, there, Option.bind_some, found]; rfl)).1 rfl
    · rw [made]
      rfl
    · rw [made]
      exact laid.moved_objects found file victims other

namespace Hops

/-- The directory a file is moved into. -/
theorem directory (hops : Hops kernel after handle parent name object source names) :
    kernel.objects[parent]? = some ⟨object.fs, some names, true⟩ := by
  obtain ⟨held, here, into⟩ := Option.bind_eq_some_iff.mp hops.into
  obtain ⟨place, at_, into⟩ := Option.bind_eq_some_iff.mp into
  split at into
  · next dir =>
    injection into with same
    injection same with on places
    rw [here, ← on, ← places, ← at_, ← dir]
  · cases into

/-- No directory is moved, and none goes. -/
theorem stays (hops : Hops kernel after handle parent name object source names) {other : Handle}
    {held : Object} (found : kernel.objects[other]? = some held) (dir : held.dir = true)
    (laid : kernel.Laid) : after.objects[other]? = some held := by
  have differs : other ≠ handle := by
    rintro rfl
    rw [hops.found] at found
    cases found
    rw [hops.file] at dir
    cases dir
  rw [hops.objects, if_neg differs, found, Option.map_some, retire, if_neg]
  rintro ⟨on, at_⟩
  have there := laid.objectAt_eq found at_
  rw [on] at there
  have file := (hops.victims (other, held)
    (by rw [victimAt, there, Option.bind_some, found]; rfl)).2
  rw [dir] at file
  cases file

/-- An object stays of its kind, and one that is gone stays gone. -/
theorem becomes (hops : Hops kernel after handle parent name object source names) {other : Handle}
    {held : Object} (found : kernel.objects[other]? = some held) :
    ∃ later, after.objects[other]? = some later ∧ later.fs = held.fs ∧ later.dir = held.dir ∧
      (held.at_ = none → later.at_ = none) := by
  rw [hops.objects]
  split
  · next same =>
    subst same
    rw [hops.found] at found
    cases found
    exact ⟨_, rfl, rfl, rfl, fun gone => absurd (hops.placed.symm.trans gone) (by simp)⟩
  · rw [found, Option.map_some]
    refine ⟨_, rfl, retire_fs _ _, retire_dir _ _, fun gone => ?_⟩
    cases place : (retire object.fs (names ++ [name]) held).at_ with
    | none => rfl
    | some other =>
        rw [(retire_at.mp place).1] at gone
        cases gone

/-- What is somewhere was there, or is the file moved. -/
theorem was (hops : Hops kernel after handle parent name object source names) {other : Handle}
    {later : Object} {place : List Bytes} (found : after.objects[other]? = some later)
    (at_ : later.at_ = some place) :
    other = handle ∧ later.fs = object.fs ∧ place = names ++ [name] ∨
      other ≠ handle ∧ ¬(later.fs = object.fs ∧ place = names ++ [name]) ∧
        kernel.objects[other]? = some later := by
  rw [hops.objects] at found
  split at found
  · next same =>
    obtain rfl := Option.some.inj found
    exact .inl ⟨same, rfl, (Option.some.inj at_).symm⟩
  · next differs =>
    obtain ⟨held, here, rfl⟩ := Option.map_eq_some_iff.mp found
    obtain ⟨was, elsewhere⟩ := retire_at.mp at_
    refine .inr ⟨differs, ?_, ?_⟩
    · rw [retire_fs]
      exact elsewhere
    · rw [here, retire, if_neg]
      rintro ⟨on, same⟩
      exact elsewhere ⟨on, Option.some.inj (was.symm.trans same)⟩

/-- Objects stay laid out. -/
theorem laid (hops : Hops kernel after handle parent name object source names)
    (laid : kernel.Laid) (legal : legalName name) : after.Laid where
  apart {one other first second place} found also same at_ place_ := by
    rcases hops.was found at_ with ⟨rfl, on, target⟩ | ⟨-, elsewhere, was⟩
    · rcases hops.was also place_ with ⟨rfl, -, -⟩ | ⟨-, elsewhere, -⟩
      · rfl
      · exact absurd ⟨same.symm.trans on, target⟩ elsewhere
    · rcases hops.was also place_ with ⟨rfl, on, target⟩ | ⟨-, -, also⟩
      · exact absurd ⟨same.trans on, target⟩ elsewhere
      · exact laid.apart was also same at_ place_
  within {other later place last} found at_ := by
    rcases hops.was found at_ with ⟨rfl, on, target⟩ | ⟨-, -, was⟩
    · obtain ⟨rfl, ends⟩ := List.append_inj' target rfl
      obtain rfl := List.singleton_inj.mp ends
      exact ⟨legal, parent, _, hops.stays hops.directory rfl laid, on.symm, rfl, rfl⟩
    · obtain ⟨named, up, above, here, alike, place, dir⟩ := laid.within was at_
      exact ⟨named, up, above, hops.stays here dir laid, alike, place, dir⟩

/-- What is elsewhere is where it was, or gone. -/
theorem pathOf_other (hops : Hops kernel after handle parent name object source names)
    {other : Handle} (differs : other ≠ handle) {path : PathBuf}
    (there : after.pathOf other = some path) : kernel.pathOf other = some path := by
  obtain ⟨later, found, rest⟩ := Option.bind_eq_some_iff.mp there
  obtain ⟨place, at_, -⟩ := Option.bind_eq_some_iff.mp rest
  rcases hops.was found at_ with ⟨same, -⟩ | ⟨-, -, was⟩
  · exact absurd same differs
  · rw [← there, pathOf, pathOf, found, was, hops.base]

/-- The file is where it is moved to. -/
theorem pathOf_target (hops : Hops kernel after handle parent name object source names)
    {above : PathBuf} (up : kernel.pathOf parent = some above) :
    after.pathOf handle = some (above.join name) := by
  rw [pathOf, hops.directory] at up
  change (kernel.base object.fs).bind _ = _ at up
  obtain ⟨base, on, same⟩ := Option.bind_eq_some_iff.mp up
  obtain rfl := Option.some.inj same
  rw [pathOf, hops.objects, if_pos rfl, hops.base]
  simp [on, PathBuf.join]

/-- The file was in a directory, by a name. -/
theorem entry (hops : Hops kernel after handle parent name object source names)
    (laid : kernel.Laid) : ∃ (up : Handle) (above : Object) (last : Bytes),
      kernel.entry object = some (up, last) ∧ legalName last ∧
        kernel.objects[up]? = some above ∧ above.dir = true ∧
          kernel.pathOf handle = (kernel.pathOf up).map (PathBuf.join · last) := by
  obtain ⟨front, last, rfl⟩ := (List.eq_nil_or_concat' source).resolve_left hops.rooted
  obtain ⟨named, up, above, here, alike, place, dir⟩ := laid.within hops.found hops.placed
  have there := laid.objectAt_eq here place
  rw [alike] at there
  refine ⟨up, above, last, ?_, named, here, dir, ?_⟩
  · rw [Kernel.entry, hops.placed]
    simp [there]
  · rw [pathOf, hops.found, pathOf, here]
    simp only [Option.bind_eq_bind, Option.bind_some, hops.placed, place, alike]
    cases kernel.base object.fs with
    | none => rfl
    | some base => simp [PathBuf.join]

end Hops

end Kernel

end Watchd
end Metafolder
