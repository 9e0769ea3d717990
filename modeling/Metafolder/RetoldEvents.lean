import Metafolder.MountAliases

/-!
# Where the events of a mount table are told

An event is told at every other path its file is seen at, and at no other, exactly when no mount of
the table hides the place where another would show the file.
-/

namespace Metafolder
namespace Watchd

open MountViews

/-- What a line of the table shows. -/
def MountEntry.view (entry : MountEntry) : Mount Component Nat := ⟨entry.dev, entry.point, entry.root⟩

/-! ### The mount a path is seen through -/

/-- The deepest mount above a path, the last made of those at one point. -/
structure Sees (table : List MountEntry) (path : PathBuf) (mount : MountEntry × Nat) : Prop where
  listed : mount ∈ table.zipIdx
  above : mount.1.point <+: path
  last : ∀ other ∈ table.zipIdx, other.1.point <+: path →
    other.1.point.length < mount.1.point.length ∨
      other.1.point.length = mount.1.point.length ∧ other.2 ≤ mount.2

/-- The object of a device seen at a path. -/
def Shows (table : List MountEntry) (path : PathBuf) (dev : Nat) (object : PathBuf) : Prop :=
  ∃ mount, Sees table path mount ∧ mount.1.dev = dev ∧ mount.1.view.inner path = object

/-- Another path at which the same object is seen. -/
def Alias (table : List MountEntry) (path other : PathBuf) : Prop :=
  other ≠ path ∧ ∃ dev object, Shows table path dev object ∧ Shows table other dev object

/-- Two paths seen through one mount. -/
def SameMount (table : List MountEntry) (path other : PathBuf) : Prop :=
  ∃ mount, Sees table path mount ∧ Sees table other mount

/-- An event as it is told again: at another path its file is seen at; a move whole, where one
mount shows both sides, and otherwise as the side a mount shows. -/
inductive Retold (table : List MountEntry) : Event → Event → Prop
  | single {event path other} : event.paths = [path] → Alias table path other →
      Retold table event (event.withPath other)
  | whole {source destination left entered} : Alias table source left →
      Alias table destination entered → SameMount table left entered →
      Retold table (.rename source destination) (.rename left entered)
  | left {source destination path} : Alias table source path →
      (∀ other, Alias table destination other → ¬SameMount table path other) →
      Retold table (.rename source destination) (.renameFrom path)
  | entered {source destination path} : Alias table destination path →
      (∀ other, Alias table source other → ¬SameMount table path other) →
      Retold table (.rename source destination) (.renameTo path)

/-- A place at which another mount of the device would show a path's object. -/
def Candidate (table : List MountEntry) (path : PathBuf) (mount : MountEntry × Nat)
    (place : PathBuf) : Prop :=
  ∃ own, Sees table path own ∧ mount ∈ table.zipIdx ∧ mount.2 ≠ own.2 ∧
    mount.1.dev = own.1.dev ∧ mount.1.view.Places (own.1.view.inner path) place

/-- At each of these places the mount is the one seen. -/
def Unhidden (table : List MountEntry) (path : PathBuf) : Prop :=
  ∀ mount place, Candidate table path mount place → Sees table place mount

variable {table : List MountEntry} {path other place : PathBuf} {mount own : MountEntry × Nat}

theorem zipIdx_ordered (table : List MountEntry) :
    table.zipIdx.Pairwise fun first second => first.2 < second.2 := by
  rw [List.pairwise_iff_getElem]
  intro first second inside within less
  rw [List.getElem_zipIdx, List.getElem_zipIdx]
  omega

/-- A mount is known by its place in the table. -/
theorem eq_of_index (listed : mount ∈ table.zipIdx) (also : own ∈ table.zipIdx)
    (same : mount.2 = own.2) : mount = own := by
  have here := List.mem_zipIdx_iff_getElem?.mp listed
  have there := List.mem_zipIdx_iff_getElem?.mp also
  rw [same, there] at here
  exact Prod.ext (Option.some.inj here).symm same

/-- `mount_of` finds the mount a path is seen through. -/
theorem mountOf_eq_some {shared : Bool} :
    Aliases.mountOf ⟨table, shared⟩ path = some mount ↔ Sees table path mount := by
  have ordered := (zipIdx_ordered table).filter fun entry => path.startsWith entry.1.point
  rw [Aliases.mountOf, lastMax_eq_some ordered]
  constructor
  · intro greatest
    obtain ⟨listed, above⟩ := List.mem_filter.mp greatest.1
    refine ⟨listed, List.isPrefixOf_iff_prefix.mp above, fun other member below => ?_⟩
    exact greatest.2 other (List.mem_filter.mpr ⟨member, List.isPrefixOf_iff_prefix.mpr below⟩)
  · intro sees
    refine ⟨List.mem_filter.mpr ⟨sees.listed, List.isPrefixOf_iff_prefix.mpr sees.above⟩, ?_⟩
    intro other member
    obtain ⟨listed, below⟩ := List.mem_filter.mp member
    exact sees.last other listed (List.isPrefixOf_iff_prefix.mp below)

theorem Sees.unique (sees : Sees table path mount) (again : Sees table path own) : mount = own := by
  have first : Aliases.mountOf ⟨table, true⟩ path = some mount := mountOf_eq_some.mpr sees
  have second : Aliases.mountOf ⟨table, true⟩ path = some own := mountOf_eq_some.mpr again
  exact Option.some.inj (first.symm.trans second)

theorem SameMount.symm (same : SameMount table path other) : SameMount table other path :=
  same.imp fun _ both => both.symm

/-! ### The places found -/

theorem joinBelow_eq (base rel : PathBuf) : joinBelow base rel = base ++ rel := by
  rw [joinBelow]
  split
  · next empty => rw [empty, List.append_nil]
  · rfl

theorem stripPrefix_eq_some {base rel : PathBuf} :
    path.stripPrefix base = some rel ↔ path = base ++ rel := by
  rw [PathBuf.stripPrefix]
  split
  · next below =>
    obtain ⟨rest, rfl⟩ := List.isPrefixOf_iff_prefix.mp below
    rw [List.drop_left, Option.some.injEq]
    exact ⟨fun same => by rw [same], List.append_cancel_left⟩
  · next apart =>
    refine iff_of_false nofun fun same => apart ?_
    rw [same]
    exact List.isPrefixOf_iff_prefix.mpr (List.prefix_append _ _)

/-- What `elsewhere` finds are the candidates. -/
theorem mem_elsewhere {shared : Bool} {index : Nat} :
    (index, place) ∈ Aliases.elsewhere ⟨table, shared⟩ path ↔
      ∃ mount, mount.2 = index ∧ Candidate table path mount place := by
  rw [Aliases.elsewhere]
  cases seen : Aliases.mountOf ⟨table, shared⟩ path with
  | none =>
      refine iff_of_false nofun fun found => ?_
      obtain ⟨mount, -, own, sees, -⟩ := found
      rw [mountOf_eq_some.mpr sees] at seen
      cases seen
  | some own =>
      have sees := mountOf_eq_some.mp seen
      obtain ⟨rel, rest⟩ := sees.above
      have inner : own.1.view.inner path = own.1.root ++ rel := by
        rw [← rest]
        exact Mount.inner_append own.1.view rel
      simp only [stripPrefix_eq_some.mpr rest.symm, List.mem_filterMap, List.mem_filter,
        Option.map_eq_some_iff, stripPrefix_eq_some, joinBelow_eq, Prod.mk.injEq,
        decide_eq_true_eq]
      constructor
      · intro found
        obtain ⟨mount, ⟨listed, differ, device⟩, below, placed, rfl, rfl⟩ := found
        refine ⟨mount, rfl, own, sees, listed, differ, device, below, ?_, rfl⟩
        rw [inner, placed]
        rfl
      · intro found
        obtain ⟨mount, rfl, other, again, listed, differ, device, below, placed, rfl⟩ := found
        obtain rfl := again.unique sees
        rw [inner] at placed
        exact ⟨mount, ⟨listed, differ, device⟩, below, placed, rfl, rfl⟩

/-- Each mount is met once. -/
theorem nodup_elsewhere (shared : Bool) (path : PathBuf) :
    ((Aliases.elsewhere ⟨table, shared⟩ path).map Prod.fst).Nodup := by
  rw [Aliases.elsewhere]
  split
  · exact List.nodup_nil
  · split
    · exact List.nodup_nil
    · refine List.pairwise_map.mpr (List.pairwise_filterMap.mpr ?_)
      refine ((zipIdx_ordered table).filter _).imp fun less place found other next => ?_
      obtain ⟨-, -, rfl⟩ := Option.map_eq_some_iff.mp found
      obtain ⟨-, -, rfl⟩ := Option.map_eq_some_iff.mp next
      exact Nat.ne_of_lt less

/-- The other paths an object is seen at are the candidates that are not hidden. -/
theorem alias_iff : Alias table path place ↔
    ∃ mount, Candidate table path mount place ∧ Sees table place mount := by
  constructor
  · intro aliased
    obtain ⟨differ, dev, object, ⟨own, sees, device, inner⟩, mount, there, sameDevice, same⟩ := aliased
    have placed : mount.1.view.Places (own.1.view.inner path) place := by
      rw [inner, ← same]
      exact Mount.places_inner there.above
    refine ⟨mount, ⟨own, sees, there.listed, fun index => differ ?_, sameDevice.trans device.symm,
      placed⟩, there⟩
    obtain rfl := eq_of_index there.listed sees.listed index
    exact placed.unique (Mount.places_inner sees.above)
  · intro found
    obtain ⟨mount, ⟨own, sees, -, differ, device, placed⟩, there⟩ := found
    refine ⟨fun same => differ ?_, own.1.dev, _, ⟨own, sees, rfl, rfl⟩, mount, there, device,
      placed.inner_eq⟩
    rw [same] at there
    rw [there.unique sees]

theorem Alias.candidate (aliased : Alias table path place) (sees : Sees table place mount) :
    Candidate table path mount place := by
  obtain ⟨other, candidate, there⟩ := alias_iff.mp aliased
  rw [sees.unique there]
  exact candidate

theorem Candidate.listed (candidate : Candidate table path mount place) :
    mount ∈ table.zipIdx := by
  obtain ⟨own, -, listed, -⟩ := candidate
  exact listed

/-! ### Events of one path -/

theorem mem_places {shared : Bool} : place ∈ (Aliases.elsewhere ⟨table, shared⟩ path).map Prod.snd ↔
    ∃ mount, Candidate table path mount place := by
  rw [List.mem_map]
  constructor
  · intro found
    obtain ⟨⟨index, _⟩, member, rfl⟩ := found
    obtain ⟨mount, -, candidate⟩ := mem_elsewhere.mp member
    exact ⟨mount, candidate⟩
  · intro found
    obtain ⟨mount, candidate⟩ := found
    exact ⟨(mount.2, place), mem_elsewhere.mpr ⟨mount, rfl, candidate⟩, rfl⟩

/-- The places found are the aliases, each once, exactly when none is hidden. -/
theorem places_exact {shared : Bool} :
    (((Aliases.elsewhere ⟨table, shared⟩ path).map Prod.snd).Nodup ∧
      ∀ place, place ∈ (Aliases.elsewhere ⟨table, shared⟩ path).map Prod.snd ↔
        Alias table path place) ↔ Unhidden table path := by
  have indexed : ((Aliases.elsewhere ⟨table, shared⟩ path).map Prod.fst).Nodup :=
    nodup_elsewhere shared path
  constructor
  · intro told mount place candidate
    have aliased := (told.2 place).mp (mem_places.mpr ⟨mount, candidate⟩)
    obtain ⟨seen, other, sees⟩ := alias_iff.mp aliased
    have here : (mount.2, place) ∈ Aliases.elsewhere ⟨table, shared⟩ path :=
      mem_elsewhere.mpr ⟨mount, rfl, candidate⟩
    have there : (seen.2, place) ∈ Aliases.elsewhere ⟨table, shared⟩ path :=
      mem_elsewhere.mpr ⟨seen, rfl, other⟩
    have same := List.inj_on_of_nodup_map told.1 here there rfl
    rw [eq_of_index candidate.listed other.listed (congrArg Prod.fst same)]
    exact sees
  · intro unhidden
    constructor
    · refine (List.nodup_map_iff_inj_on indexed.of_map).mpr ?_
      intro first here second there same
      obtain ⟨index, place⟩ := first
      obtain ⟨other, next⟩ := second
      obtain ⟨mount, rfl, candidate⟩ := mem_elsewhere.mp here
      obtain ⟨seen, rfl, also⟩ := mem_elsewhere.mp there
      have places : place = next := same
      rw [← places] at also
      rw [(unhidden mount place candidate).unique (unhidden seen place also), places]
    · intro place
      rw [mem_places, alias_iff]
      exact exists_congr fun mount => (and_iff_left_of_imp (unhidden mount place)).symm

theorem withPath_injective {event : Event} {path : PathBuf} (single : event.paths = [path]) :
    Function.Injective event.withPath := by
  intro first second same
  cases event with
  | rename source destination => cases single
  | _ =>
      injection same

/-- Events of one path are told where its file is seen exactly when no place is hidden. -/
theorem more_exact_single {shared : Bool} {event : Event} (single : event.paths = [path]) :
    ((Aliases.more ⟨table, shared⟩ event).Nodup ∧
      ∀ told, told ∈ Aliases.more ⟨table, shared⟩ event ↔ Retold table event told) ↔
    Unhidden table path := by
  have injective := withPath_injective single
  have more : Aliases.more ⟨table, shared⟩ event =
      ((Aliases.elsewhere ⟨table, shared⟩ path).map Prod.snd).map event.withPath := by
    rw [List.map_map]
    cases event with
    | rename source destination => cases single
    | _ =>
        obtain rfl := List.singleton_inj.mp single
        rfl
  have retold (told : Event) : Retold table event told ↔
      ∃ place, Alias table path place ∧ event.withPath place = told := by
    constructor
    · intro again
      cases again with
      | single named aliased =>
          obtain rfl := List.singleton_inj.mp (single.symm.trans named)
          exact ⟨_, aliased, rfl⟩
      | _ => cases single
    · intro found
      obtain ⟨place, aliased, rfl⟩ := found
      exact .single single aliased
  rw [← @places_exact table path shared, more, List.nodup_map_iff injective]
  refine and_congr_right fun _ => ?_
  simp only [retold, List.mem_map]
  constructor
  · intro told place
    rw [← List.mem_map]
    constructor
    · intro member
      obtain ⟨other, aliased, same⟩ :=
        (told (event.withPath place)).mp ⟨place, List.mem_map.mp member, rfl⟩
      rwa [← injective same]
    · intro aliased
      obtain ⟨other, member, same⟩ := (told (event.withPath place)).mpr ⟨place, aliased, rfl⟩
      rw [← injective same]
      exact List.mem_map.mpr member
  · intro places told
    exact exists_congr fun place => and_congr_left fun _ => places place

/-! ### Moves -/

section Moves

variable {shared : Bool} {source destination : PathBuf} {index : Nat}

theorem sideAt_eq_some {side : List (Nat × PathBuf)} (indexed : (side.map Prod.fst).Nodup) :
    Aliases.sideAt side index = some place ↔ (index, place) ∈ side := by
  induction side with
  | nil => exact iff_of_false nofun nofun
  | cons head rest ih =>
      obtain ⟨fresh, distinct⟩ := List.nodup_cons.mp indexed
      rw [Aliases.sideAt, List.find?_cons, List.mem_cons]
      by_cases same : head.1 = index
      · rw [decide_eq_true same]
        have absent : (index, place) ∉ rest := fun member =>
          fresh (same ▸ List.mem_map.mpr ⟨_, member, rfl⟩)
        rw [or_iff_left absent, Option.map_some, Option.some.injEq]
        constructor
        · intro here
          exact Prod.ext same.symm here.symm
        · intro here
          rw [← here]
      · rw [decide_eq_false same]
        have other : (index, place) ≠ head := fun here => same (by rw [← here])
        rw [or_iff_right other]
        exact ih distinct

/-- The place another mount of the device would show one side of a move at. -/
def PlacedAt (table : List MountEntry) (path : PathBuf) (index : Nat) (place : PathBuf) : Prop :=
  ∃ mount, mount.2 = index ∧ Candidate table path mount place

theorem sideAt_elsewhere : Aliases.sideAt (Aliases.elsewhere ⟨table, shared⟩ path) index = some place ↔
    PlacedAt table path index place := by
  rw [sideAt_eq_some (nodup_elsewhere shared path), mem_elsewhere]
  rfl

theorem PlacedAt.unique (placed : PlacedAt table path index place)
    (again : PlacedAt table path index other) : place = other := by
  have first : Aliases.sideAt (Aliases.elsewhere ⟨table, true⟩ path) index = some place :=
    sideAt_elsewhere.mpr placed
  rw [sideAt_elsewhere.mpr again] at first
  exact (Option.some.inj first).symm

/-- A mount tells a move whole, or the one side it would show. -/
inductive MoveAt (table : List MountEntry) (source destination : PathBuf) (index : Nat) :
    Event → Prop
  | whole {left entered : PathBuf} : PlacedAt table source index left →
      PlacedAt table destination index entered →
      MoveAt table source destination index (.rename left entered)
  | left {path : PathBuf} : PlacedAt table source index path →
      (∀ place, ¬PlacedAt table destination index place) →
      MoveAt table source destination index (.renameFrom path)
  | entered {path : PathBuf} : PlacedAt table destination index path →
      (∀ place, ¬PlacedAt table source index place) →
      MoveAt table source destination index (.renameTo path)

theorem moveAt_eq_some {event : Event} :
    Aliases.moveAt (Aliases.elsewhere ⟨table, shared⟩ source)
      (Aliases.elsewhere ⟨table, shared⟩ destination) index = some event ↔
    MoveAt table source destination index event := by
  have absent {path : PathBuf}
      (none : Aliases.sideAt (Aliases.elsewhere ⟨table, shared⟩ path) index = none) (place : PathBuf) :
      ¬PlacedAt table path index place := by
    intro placed
    rw [sideAt_elsewhere.mpr placed] at none
    cases none
  rw [Aliases.moveAt]
  cases left : Aliases.sideAt (Aliases.elsewhere ⟨table, shared⟩ source) index with
  | none =>
      cases entered : Aliases.sideAt (Aliases.elsewhere ⟨table, shared⟩ destination) index with
      | none =>
          refine iff_of_false nofun fun move => ?_
          cases move with
          | whole here _ => exact absent left _ here
          | left here _ => exact absent left _ here
          | entered here _ => exact absent entered _ here
      | some path =>
          have here := sideAt_elsewhere.mp entered
          constructor
          · intro told
            obtain rfl := Option.some.inj told
            exact .entered here (absent left)
          · intro move
            cases move with
            | whole there _ => exact absurd there (absent left _)
            | left there _ => exact absurd there (absent left _)
            | entered there _ => rw [here.unique there]
  | some path =>
      have here := sideAt_elsewhere.mp left
      cases entered : Aliases.sideAt (Aliases.elsewhere ⟨table, shared⟩ destination) index with
      | none =>
          constructor
          · intro told
            obtain rfl := Option.some.inj told
            exact .left here (absent entered)
          · intro move
            cases move with
            | whole _ there => exact absurd there (absent entered _)
            | left there _ => rw [here.unique there]
            | entered there _ => exact absurd there (absent entered _)
      | some arrived =>
          have there := sideAt_elsewhere.mp entered
          constructor
          · intro told
            obtain rfl := Option.some.inj told
            exact .whole here there
          · intro move
            cases move with
            | whole left entered => rw [here.unique left, there.unique entered]
            | left _ none => exact absurd there (none _)
            | entered _ none => exact absurd here (none _)

/-- The moves told are the ones of the mounts, each once if the mounts tell different ones. -/
theorem more_rename :
    (∀ event, event ∈ Aliases.more ⟨table, shared⟩ (.rename source destination) ↔
      ∃ index, MoveAt table source destination index event) ∧
    ((Aliases.more ⟨table, shared⟩ (.rename source destination)).Nodup ↔
      ∀ event first second, MoveAt table source destination first event →
        MoveAt table source destination second event → first = second) := by
  have met {index : Nat} {event : Event} (move : MoveAt table source destination index event) :
      index ∈ (((Aliases.elsewhere ⟨table, shared⟩ source) ++
        (Aliases.elsewhere ⟨table, shared⟩ destination)).map Prod.fst).mergeSort.dedup := by
    rw [List.mem_dedup, List.mem_mergeSort, List.map_append, List.mem_append]
    have listed {path place : PathBuf} (placed : PlacedAt table path index place) :
        index ∈ (Aliases.elsewhere ⟨table, shared⟩ path).map Prod.fst :=
      List.mem_map.mpr ⟨(index, place), mem_elsewhere.mpr placed, rfl⟩
    cases move with
    | whole here _ => exact .inl (listed here)
    | left here _ => exact .inl (listed here)
    | entered here _ => exact .inr (listed here)
  constructor
  · intro event
    rw [Aliases.more, List.mem_filterMap]
    simp only [moveAt_eq_some]
    exact exists_congr fun index => and_iff_right_of_imp met
  · rw [Aliases.more, List.Nodup, List.pairwise_filterMap]
    simp only [moveAt_eq_some]
    constructor
    · intro apart event first second one other
      let Same (first second : Nat) : Prop := MoveAt table source destination first event →
        MoveAt table source destination second event → first = second
      have forward := apart.imp (S := Same) fun told one other => absurd rfl (told event one event other)
      have backward := apart.imp (S := flip Same) fun told one other =>
        absurd rfl (told event other event one)
      exact List.Pairwise.forall_of_forall_of_flip (fun _ _ _ _ => rfl) forward backward (met one)
        (met other) one other
    · intro distinct
      refine (List.nodup_dedup _).imp fun differ event one next other same => differ ?_
      rw [← same] at other
      exact distinct event _ _ one other

/-- One side of a move is told where it is seen, if the mounts tell what is seen and different
moves. -/
theorem unhidden_of_told {whole : PathBuf → PathBuf → Event} {alone : PathBuf → Event}
    {told : Nat → Event → Prop}
    (both : ∀ {index left entered}, PlacedAt table path index left →
      PlacedAt table other index entered → told index (whole left entered))
    (one : ∀ {index left}, PlacedAt table path index left →
      (∀ entered, ¬PlacedAt table other index entered) → told index (alone left))
    (seenBoth : ∀ {index left entered}, told index (whole left entered) →
      Alias table path left ∧ Alias table other entered ∧ SameMount table left entered)
    (seenOne : ∀ {index left}, told index (alone left) → Alias table path left ∧
      ∀ entered, Alias table other entered → ¬SameMount table left entered)
    (distinct : ∀ event first second, told first event → told second event → first = second) :
    Unhidden table path := by
  intro mount place candidate
  have here : PlacedAt table path mount.2 place := ⟨mount, rfl, candidate⟩
  have aliased : Alias table path place := by
    by_cases arrives : ∃ entered, PlacedAt table other mount.2 entered
    · obtain ⟨entered, placed⟩ := arrives
      exact (seenBoth (both here placed)).1
    · exact (seenOne (one here (not_exists.mp arrives))).1
  obtain ⟨seen, also, sees⟩ := alias_iff.mp aliased
  have there : PlacedAt table path seen.2 place := ⟨seen, rfl, also⟩
  have same : mount.2 = seen.2 := by
    by_cases arrives : ∃ entered, PlacedAt table other mount.2 entered
    · obtain ⟨entered, placed⟩ := arrives
      have first := both here placed
      obtain ⟨-, arrived, through, left, right⟩ := seenBoth first
      obtain rfl := left.unique sees
      exact distinct _ _ _ first (both there ⟨_, rfl, arrived.candidate right⟩)
    · have first := one here (not_exists.mp arrives)
      by_cases another : ∃ entered, PlacedAt table other seen.2 entered
      · obtain ⟨entered, placed⟩ := another
        obtain ⟨-, arrived, shared⟩ := seenBoth (both there placed)
        exact absurd shared ((seenOne first).2 _ arrived)
      · exact distinct _ _ _ first (one there (not_exists.mp another))
  rw [eq_of_index candidate.listed also.listed same]
  exact sees

/-- A place that is not hidden is one the object is seen at. -/
theorem PlacedAt.sees (placed : PlacedAt table path index place) (unhidden : Unhidden table path) :
    Alias table path place ∧ ∃ mount, mount.2 = index ∧ Sees table place mount := by
  obtain ⟨mount, named, candidate⟩ := placed
  have sees := unhidden mount place candidate
  exact ⟨alias_iff.mpr ⟨mount, candidate, sees⟩, mount, named, sees⟩

/-- Places at one mount are seen through it. -/
theorem PlacedAt.same {entered : PathBuf} (placed : PlacedAt table path index place)
    (also : PlacedAt table other index entered) (unhidden : Unhidden table path)
    (too : Unhidden table other) : SameMount table place entered := by
  obtain ⟨-, mount, named, sees⟩ := placed.sees unhidden
  obtain ⟨-, seen, index, there⟩ := also.sees too
  rw [eq_of_index there.listed sees.listed (index.trans named.symm)] at there
  exact ⟨mount, sees, there⟩

/-- Where no place of one side is at the mount of another, none of its aliases is seen there. -/
theorem PlacedAt.alone {entered : PathBuf} (placed : PlacedAt table path index place)
    (none : ∀ place, ¬PlacedAt table other index place) (unhidden : Unhidden table path)
    (aliased : Alias table other entered) : ¬SameMount table place entered := by
  intro same
  obtain ⟨-, mount, named, sees⟩ := placed.sees unhidden
  obtain ⟨seen, left, right⟩ := same
  obtain rfl := left.unique sees
  exact none entered ⟨seen, named, aliased.candidate right⟩

/-- The other side of a move is at no mount its aliases are not seen through. -/
theorem not_placed (sees : Sees table place mount) (unhidden : Unhidden table other)
    (apart : ∀ entered, Alias table other entered → ¬SameMount table place entered)
    (entered : PathBuf) : ¬PlacedAt table other mount.2 entered := by
  intro placed
  obtain ⟨aliased, seen, named, there⟩ := placed.sees unhidden
  rw [eq_of_index there.listed sees.listed named] at there
  exact apart entered aliased ⟨mount, sees, there⟩

/-- Moves are told where their sides are seen exactly when no place is hidden. -/
theorem more_exact_rename :
    ((Aliases.more ⟨table, shared⟩ (.rename source destination)).Nodup ∧
      ∀ told, told ∈ Aliases.more ⟨table, shared⟩ (.rename source destination) ↔
        Retold table (.rename source destination) told) ↔
    Unhidden table source ∧ Unhidden table destination := by
  obtain ⟨members, once⟩ := @more_rename table shared source destination
  rw [once]
  simp only [members]
  constructor
  · intro told
    obtain ⟨distinct, tells⟩ := told
    have told {index : Nat} {event : Event} (move : MoveAt table source destination index event) :
        Retold table (.rename source destination) event := (tells event).mp ⟨index, move⟩
    constructor
    · refine unhidden_of_told (fun here there => .whole here there) (fun here none => .left here none)
        (fun move => ?_) (fun move => ?_) distinct
      · cases told move with
        | single named => cases named
        | whole left entered same => exact ⟨left, entered, same⟩
      · cases told move with
        | left aliased apart => exact ⟨aliased, apart⟩
    · refine @unhidden_of_told table destination source (fun entered left => .rename left entered)
        .renameTo (MoveAt table source destination) (fun here there => .whole there here)
        (fun here none => .entered here none) (fun move => ?_) (fun move => ?_) distinct
      · cases told move with
        | single named => cases named
        | whole left entered same => exact ⟨entered, left, same.symm⟩
      · cases told move with
        | entered aliased apart => exact ⟨aliased, apart⟩
  · intro unhidden
    obtain ⟨left, entered⟩ := unhidden
    constructor
    · intro event first second one other
      have index {path place : PathBuf} (here : PlacedAt table path first place)
          (there : PlacedAt table path second place) (clear : Unhidden table path) :
          first = second := by
        obtain ⟨-, mount, rfl, sees⟩ := here.sees clear
        obtain ⟨-, seen, rfl, again⟩ := there.sees clear
        rw [sees.unique again]
      cases one with
      | whole here _ => cases other with | whole there _ => exact index here there left
      | left here _ => cases other with | left there _ => exact index here there left
      | entered here _ => cases other with | entered there _ => exact index here there entered
    · intro event
      constructor
      · intro found
        obtain ⟨index, move⟩ := found
        cases move with
        | whole here there =>
            exact .whole (here.sees left).1 (there.sees entered).1 (here.same there left entered)
        | left here none => exact .left (here.sees left).1 fun _ => here.alone none left
        | entered here none => exact .entered (here.sees entered).1 fun _ => here.alone none entered
      · intro retold
        cases retold with
        | single named => cases named
        | whole leaves arrives same =>
            obtain ⟨mount, sees, there⟩ := same
            exact ⟨mount.2, .whole ⟨mount, rfl, leaves.candidate sees⟩
              ⟨mount, rfl, arrives.candidate there⟩⟩
        | left aliased apart =>
            obtain ⟨mount, candidate, sees⟩ := alias_iff.mp aliased
            exact ⟨mount.2, .left ⟨mount, rfl, candidate⟩ (not_placed sees entered apart)⟩
        | entered aliased apart =>
            obtain ⟨mount, candidate, sees⟩ := alias_iff.mp aliased
            exact ⟨mount.2, .entered ⟨mount, rfl, candidate⟩ (not_placed sees left apart)⟩

end Moves

/-! ### A list of events -/

/-- Where no device is mounted twice there is no other mount to tell an event at. -/
theorem elsewhere_of_not_shared (single : (Aliases.new table).shared = false) (path : PathBuf) :
    (Aliases.new table).elsewhere path = [] := by
  have apart {mount own : MountEntry × Nat} (listed : mount ∈ table.zipIdx) (also : own ∈ table.zipIdx)
      (less : mount.2 < own.2) : mount.1.dev ≠ own.1.dev := by
    intro same
    have none := List.any_eq_false.mp single own also
    refine none (List.any_eq_true.mpr ⟨mount.1, ?_, decide_eq_true same⟩)
    have here := List.mem_zipIdx_iff_getElem?.mp listed
    exact List.mem_of_getElem? ((List.getElem?_take_of_lt less).trans here)
  refine List.eq_nil_iff_forall_not_mem.mpr fun found member => ?_
  obtain ⟨index, place⟩ := found
  obtain ⟨mount, -, own, sees, listed, differ, device, -⟩ := mem_elsewhere.mp member
  cases Nat.lt_or_gt_of_ne differ with
  | inl less => exact apart listed sees.listed less device
  | inr greater => exact apart sees.listed listed greater device.symm

theorem more_of_not_shared (single : (Aliases.new table).shared = false) (event : Event) :
    (Aliases.new table).more event = [] := by
  cases event with
  | rename source destination =>
      rw [Aliases.more, elsewhere_of_not_shared single, elsewhere_of_not_shared single]
      exact List.filterMap_eq_nil_iff.mpr fun index _ => rfl
  | _ =>
      rw [Aliases.more, elsewhere_of_not_shared single]
      rfl

/-- Each event is kept, followed by itself at other mounts. -/
theorem expand_eq (table : List MountEntry) (events : List Event) :
    (Aliases.new table).expand events =
      events.flatMap fun event => event :: (Aliases.new table).more event := by
  rw [Aliases.expand]
  cases single : (Aliases.new table).shared with
  | true => rfl
  | false =>
      simp only [more_of_not_shared single]
      rw [List.flatMap_singleton']
      rfl

/-- Every event is kept and told again at the paths its file is seen at, each once, and at no
other, exactly when no mount hides the place where another would show it. -/
theorem expand_exact (table : List MountEntry) (events : List Event) :
    (Aliases.new table).expand events =
      events.flatMap (fun event => event :: (Aliases.new table).more event) ∧
    ((∀ event ∈ events, ((Aliases.new table).more event).Nodup ∧
      ∀ told, told ∈ (Aliases.new table).more event ↔ Retold table event told) ↔
    ∀ event ∈ events, ∀ path ∈ event.paths, Unhidden table path) := by
  refine ⟨expand_eq table events, forall₂_congr fun event _ => ?_⟩
  cases event with
  | rename source destination =>
      refine more_exact_rename.trans ?_
      change _ ↔ ∀ path ∈ [source, destination], Unhidden table path
      rw [List.forall_mem_cons, List.forall_mem_singleton]
  | _ =>
      refine (more_exact_single rfl).trans ?_
      exact List.forall_mem_singleton.symm

/-! ### A mount beneath another -/

/-- An absolute path. -/
abbrev samplePath (names : List UInt8) : PathBuf := .rootDir :: names.map fun name => .normal [name]

/-- A drive at `/a` and at `/b`, with another mounted at `/b/x`. -/
abbrev sampleTable : List MountEntry :=
  [⟨1, samplePath [], samplePath [], rfl, nofun⟩, ⟨2, samplePath [97], samplePath [], rfl, nofun⟩,
    ⟨2, samplePath [98], samplePath [], rfl, nofun⟩, ⟨3, samplePath [98, 120], samplePath [], rfl, nofun⟩]

/-- A file made at `/a/x/f` is also told at `/b/x/f`, where the other drive is seen. -/
theorem expand_phantom : ¬∀ (table : List MountEntry) (events : List Event), ∀ event ∈ events,
    ((Aliases.new table).more event).Nodup ∧
      ∀ told, told ∈ (Aliases.new table).more event ↔ Retold table event told := by
  intro claim
  have told := ((claim sampleTable [.create (samplePath [97, 120, 102])] _ List.mem_cons_self).2
    (.create (samplePath [98, 120, 102]))).mp (by decide +kernel)
  generalize event : Event.create (samplePath [98, 120, 102]) = phantom at told
  cases told with
  | single named aliased =>
      obtain rfl := List.singleton_inj.mp named
      cases event
      obtain ⟨-, dev, object, ⟨own, sees, device, -⟩, mount, there, other, -⟩ := aliased
      have first : Aliases.mountOf ⟨sampleTable, true⟩ (samplePath [97, 120, 102]) =
          some (⟨2, samplePath [97], samplePath [], rfl, nofun⟩, 1) := by decide +kernel
      have second : Aliases.mountOf ⟨sampleTable, true⟩ (samplePath [98, 120, 102]) =
          some (⟨3, samplePath [98, 120], samplePath [], rfl, nofun⟩, 3) := by decide +kernel
      rw [sees.unique (mountOf_eq_some.mp first)] at device
      rw [there.unique (mountOf_eq_some.mp second), ← device] at other
      cases other

end Watchd
end Metafolder
