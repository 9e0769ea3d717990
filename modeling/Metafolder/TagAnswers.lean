import Metafolder.TagPaths

/-!
# Answers about tags

What an answer does to the vocabulary, which only gains leaves, and to the refs of a record, which
never come to contradict each other.
-/

namespace Metafolder
namespace Tags

variable {Id : Type} [DecidableEq Id]

/-! ### Partitions -/

/-- Two tags lie under different children of one partition. -/
def Divided (entries : List (Entry Id)) (tag other : Id) : Prop :=
  ∃ par ∈ entries, par.partition ∧ ∃ first second, first ≠ second ∧
    Parent entries par.uuid first ∧ Parent entries par.uuid second ∧
    (tag = first ∨ Above entries first tag) ∧ (other = second ∨ Above entries second other)

/-- What a tag that is had excludes: below a path beside one that leads to it, under a partition, and
not implied by it. -/
def Excluded (entries : List (Entry Id)) (tag other : Id) : Prop :=
  (∃ low ∈ allPaths entries tag, ∃ node, (node = low ∨ Under node low) ∧
    ∃ par, parent node = some par ∧
      (∃ entry ∈ entries, entry.partition ∧ par ∈ allPaths entries entry.uuid) ∧
      ∃ sibling second, sibling ∈ allPaths entries second ∧ parent sibling = some par ∧
        sibling ≠ node ∧ (other = second ∨ Above entries second other)) ∧
  ¬(other = tag ∨ Above entries other tag)

theorem Divided.symm {entries : List (Entry Id)} {tag other : Id}
    (divided : Divided entries tag other) : Divided entries other tag := by
  obtain ⟨par, member, flagged, first, second, differ, parFirst, parSecond, one, two⟩ := divided
  exact ⟨par, member, flagged, second, first, differ.symm, parSecond, parFirst, two, one⟩

namespace Represents

variable {vocab : Vocab Id} {entries : List (Entry Id)} {path : Path} {uuid : Id}

theorem partitionAbove_eq_some_iff (represents : Represents vocab entries) {node par : Path} :
    vocab.partitionAbove node = some par ↔ parent node = some par ∧
      ∃ entry ∈ entries, entry.partition ∧ par ∈ allPaths entries entry.uuid := by
  rw [Vocab.partitionAbove, Option.filter_eq_some_iff, Option.any_eq_true]
  refine and_congr_right fun _ => ?_
  constructor
  · rintro ⟨uuid, named, marked⟩
    obtain ⟨entry, member, rfl, flagged⟩ := (represents.partitions uuid).mp (of_decide_eq_true marked)
    exact ⟨entry, member, flagged, (represents.names par _).mp named⟩
  · rintro ⟨entry, member, flagged, inside⟩
    exact ⟨entry.uuid, (represents.names par _).mpr inside,
      decide_eq_true ((represents.partitions _).mpr ⟨entry, member, rfl, flagged⟩)⟩

/-- The tags that the partitions above a tag's paths exclude. -/
theorem excluded_iff (represents : Represents vocab entries) (ordered : Ordered entries)
    (apart : Apart entries) (named : path ∈ allPaths entries uuid) {other : Id} :
    other ∈ (vocab.excludedByPartitions path).filterMap vocab.uuidOf ↔
      Excluded entries uuid other := by
  have implied : other ∈ (vocab.withAncestors path).filterMap vocab.uuidOf ↔
      other = uuid ∨ Above entries other uuid := represents.withAncestors_iff ordered apart named
  constructor
  · intro inside
    obtain ⟨excluded, member, called⟩ := List.mem_filterMap.mp inside
    obtain ⟨low, inLow, member⟩ := List.mem_flatMap.mp (List.mem_dedup.mp member)
    obtain ⟨node, through, member⟩ := List.mem_flatMap.mp member
    unfold Vocab.excludedAt at member
    cases above : vocab.partitionAbove node with
    | none =>
        rw [above] at member
        cases member
    | some par =>
        rw [above] at member
        obtain ⟨sibling, beside, member⟩ := List.mem_flatMap.mp member
        obtain ⟨below, kept⟩ := List.mem_filter.mp member
        obtain ⟨isName, beside⟩ := List.mem_filter.mp beside
        simp only [Bool.and_eq_true, decide_eq_true_eq] at beside
        obtain ⟨second, inSibling⟩ := (represents.listed sibling).mp isName
        obtain ⟨parental, marked⟩ := represents.partitionAbove_eq_some_iff.mp above
        refine ⟨⟨low, (represents.mem_pathsOf named).mp inLow, node, ?_, par, parental, marked,
          sibling, second, inSibling, beside.1, beside.2, ?_⟩, ?_⟩
        · cases through with
          | head => exact .inl rfl
          | tail _ through => exact .inr (mem_ancestors.mp through)
        · exact (represents.withDescendants_iff ordered apart inSibling).mp
            (List.mem_filterMap.mpr ⟨excluded, below, called⟩)
        · rw [called] at kept
          rw [← implied]
          simpa using kept
  · rintro ⟨⟨low, inLow, node, through, par, parental, marked, sibling, second, inSibling, beside,
      differ, below⟩, kept⟩
    obtain ⟨excluded, below, called⟩ := List.mem_filterMap.mp
      ((represents.withDescendants_iff ordered apart inSibling).mpr below)
    refine List.mem_filterMap.mpr ⟨excluded, List.mem_dedup.mpr ?_, called⟩
    refine List.mem_flatMap.mpr ⟨low, (represents.mem_pathsOf named).mpr inLow,
      List.mem_flatMap.mpr ⟨node, ?_, ?_⟩⟩
    · obtain rfl | under := through
      · exact List.mem_cons_self
      · exact List.mem_cons_of_mem _ (mem_ancestors.mpr under)
    · rw [Vocab.excludedAt, represents.partitionAbove_eq_some_iff.mpr ⟨parental, marked⟩]
      refine List.mem_flatMap.mpr ⟨sibling, List.mem_filter.mpr ⟨?_, ?_⟩,
        List.mem_filter.mpr ⟨below, ?_⟩⟩
      · exact (represents.listed _).mpr ⟨second, inSibling⟩
      · simp [beside, differ]
      · rw [← implied] at kept
        rw [called]
        simpa using kept

end Represents

/-- A child of a tag has a path below each path of the tag. -/
theorem child_path {entries : List (Entry Id)} {par child : Id} (ordered : Ordered entries)
    (parental : Parent entries par child) :
    ∃ name, '/' ∉ name ∧ (∃ entry ∈ entries, entry.uuid = child ∧
        (some par, name) ∈ entry.positions) ∧
      ∀ above ∈ allPaths entries par, above ++ '/' :: name ∈ allPaths entries child := by
  obtain ⟨-, entry, member, rfl, name, inside⟩ := parental
  refine ⟨name, slashless_of_mem ordered member inside, ⟨entry, member, rfl, inside⟩,
    fun above inAbove => ?_⟩
  exact (mem_allPaths ordered).mpr
    ⟨entry, member, rfl, _, inside, mem_pathsAt.mpr (.inr ⟨par, above, rfl, inAbove, rfl⟩)⟩

/-- What a partition divides from a tag is excluded, unless the tag implies it. -/
theorem excluded_of_divided {entries : List (Entry Id)} (ordered : Ordered entries)
    (apart : Apart entries) {tag other : Id} (divided : Divided entries tag other)
    (free : ¬(other = tag ∨ Above entries other tag)) : Excluded entries tag other := by
  obtain ⟨par, member, flagged, first, second, differ, parFirst, parSecond, above, below⟩ := divided
  obtain ⟨top, inTop⟩ := List.exists_mem_of_ne_nil _ parFirst.1
  obtain ⟨nameFirst, flatFirst, ⟨one, inOne, uuidOne, posOne⟩, belowFirst⟩ :=
    child_path ordered parFirst
  obtain ⟨nameSecond, flatSecond, ⟨two, inTwo, uuidTwo, posTwo⟩, belowSecond⟩ :=
    child_path ordered parSecond
  have names : nameSecond ≠ nameFirst := by
    rintro rfl
    exact differ (uuidOne.symm.trans ((apart one inOne two inTwo _ posOne posTwo).trans uuidTwo))
  have inNode := belowFirst top inTop
  -- A path of the tag that goes through the child it is under.
  obtain ⟨low, inLow, through⟩ : ∃ low ∈ allPaths entries tag,
      top ++ '/' :: nameFirst = low ∨ Under (top ++ '/' :: nameFirst) low := by
    cases above with
    | inl same => exact ⟨_, same ▸ inNode, .inl rfl⟩
    | inr higher =>
        obtain ⟨low, inLow, under⟩ := under_of_above ordered higher inNode
        exact ⟨low, inLow, .inr under⟩
  exact ⟨⟨low, inLow, _, through, top, parent_concat flatFirst, ⟨par, member, flagged, inTop⟩,
    top ++ '/' :: nameSecond, second, belowSecond top inTop, parent_concat flatSecond,
    by simp [names], below⟩, free⟩

/-! ### Growth -/

/-- A hierarchy whose paths say everything about it. -/
structure Sound (entries : List (Entry Id)) : Prop where
  /-- The entries come before their parents. -/
  ordered : Ordered entries
  /-- Siblings show different names. -/
  apart : Apart entries
  /-- Every path is listed. -/
  listed : Listed entries

omit [DecidableEq Id] in
theorem ordered_append {added entries : List (Entry Id)} (ordered : Ordered (added ++ entries)) :
    (∀ uuid ∈ added.map Entry.uuid, uuid ∉ entries.map Entry.uuid) ∧
      ∀ uuid ∈ added.map Entry.uuid, ∀ entry ∈ entries, ∀ position ∈ entry.positions,
        position.1 ≠ some uuid := by
  induction added with
  | nil => simp
  | cons head tail ih =>
      rw [List.cons_append] at ordered
      obtain ⟨new, -, others, ordered⟩ := ordered
      obtain ⟨distinct, unnamed⟩ := ih ordered
      rw [List.map_append, List.mem_append, not_or] at new
      constructor
      · intro uuid member
        cases member with
        | head => exact new.2
        | tail _ member => exact distinct uuid member
      · intro uuid member entry inside
        cases member with
        | head => exact others entry (List.mem_append_right _ inside)
        | tail _ member => exact unnamed uuid member entry inside

theorem allPaths_append {added entries : List (Entry Id)} {uuid : Id}
    (old : uuid ∉ added.map Entry.uuid) :
    allPaths (added ++ entries) uuid = allPaths entries uuid := by
  induction added with
  | nil => rfl
  | cons head tail ih =>
      simp only [List.map_cons, List.mem_cons, not_or] at old
      rw [List.cons_append, allPaths_cons_of_ne old.1, ih old.2]

theorem parent_append {added entries : List (Entry Id)} (ordered : Ordered (added ++ entries))
    {par child : Id} (old : child ∈ entries.map Entry.uuid) :
    Parent (added ++ entries) par child ↔ Parent entries par child := by
  obtain ⟨distinct, unnamed⟩ := ordered_append ordered
  constructor
  · rintro ⟨some_path, entry, member, rfl, name, inside⟩
    cases List.mem_append.mp member with
    | inl new => exact absurd old (distinct _ (List.mem_map_of_mem new))
    | inr member =>
        have before : par ∉ added.map Entry.uuid :=
          fun new => unnamed par new entry member _ inside rfl
        exact ⟨by rwa [← allPaths_append before], entry, member, rfl, name, inside⟩
  · rintro ⟨some_path, entry, member, rfl, name, inside⟩
    have before : par ∉ added.map Entry.uuid :=
      fun new => unnamed par new entry member _ inside rfl
    exact ⟨by rwa [allPaths_append before], entry, List.mem_append_right _ member, rfl, name, inside⟩

theorem parent_mem {entries : List (Entry Id)} {par child : Id}
    (parental : Parent entries par child) : par ∈ entries.map Entry.uuid := by
  obtain ⟨path, inPath⟩ := List.exists_mem_of_ne_nil _ parental.1
  exact exists_entry_of_mem inPath

/-- New tags are above none of the old ones. -/
theorem above_append {added entries : List (Entry Id)} (ordered : Ordered (added ++ entries))
    {top bottom : Id} (old : bottom ∈ entries.map Entry.uuid) :
    Above (added ++ entries) top bottom ↔ Above entries top bottom := by
  constructor
  · intro above
    induction above with
    | single parental => exact .single ((parent_append ordered old).mp parental)
    | tail _ parental ih =>
        have direct := (parent_append ordered old).mp parental
        exact (ih (parent_mem direct)).tail direct
  · intro above
    induction above with
    | single parental => exact .single ((parent_append ordered old).mpr parental)
    | tail _ parental ih =>
        exact (ih (parent_mem parental)).tail ((parent_append ordered old).mpr parental)

theorem parent_named {entries : List (Entry Id)} {top bottom : Id}
    (above : Above entries top bottom) :
    ∃ entry ∈ entries, ∃ position ∈ entry.positions, position.1 = some top := by
  obtain ⟨middle, ⟨-, entry, member, -, name, inside⟩, -⟩ := Relation.TransGen.head'_iff.mp above
  exact ⟨entry, member, _, inside, rfl⟩

/-- No entry names a tag as its parent. -/
def Unnamed (entries : List (Entry Id)) (uuid : Id) : Prop :=
  ∀ entry ∈ entries, ∀ position ∈ entry.positions, position.1 ≠ some uuid

/-- The uuids still to be allocated are those of no entry. -/
structure Fresh (fresh : Nat → Id) (taken : Nat) (entries : List (Entry Id)) : Prop where
  /-- They differ. -/
  injective : Function.Injective fresh
  /-- They are not entries'. -/
  absent : ∀ n, taken ≤ n → fresh n ∉ entries.map Entry.uuid
  /-- Nor are they parents. -/
  unnamed : ∀ n, taken ≤ n → Unnamed entries (fresh n)

/-- A tag created where the vocabulary has none: a leaf with the paths planned. -/
theorem withEntry_sound {vocab : Vocab Id} {entries : List (Entry Id)} {path : Path}
    (par : Option Id) (name : List Char) {uuid : Id} (sound : Sound entries) (represents : Represents vocab entries)
    (new : uuid ∉ entries.map Entry.uuid) (unnamed : Unnamed entries uuid)
    (unknown : vocab.uuidOf path = none) (slashless : '/' ∉ name)
    (named : path ∈ pathsAt (allPaths entries) (par, name))
    (planned : ∀ other, other ∈ vocab.plannedPaths path ↔
      other ∈ pathsAt (allPaths entries) (par, name)) :
    Sound (⟨uuid, [(par, name)], false⟩ :: entries) ∧
      Represents (vocab.withEntry path uuid) (⟨uuid, [(par, name)], false⟩ :: entries) ∧
      path ∈ allPaths (⟨uuid, [(par, name)], false⟩ :: entries) uuid ∧
      Unnamed (⟨uuid, [(par, name)], false⟩ :: entries) uuid := by
  have other_parent : par ≠ some uuid := by
    rintro rfl
    obtain ⟨bare, -⟩ | ⟨_, above, same, inAbove, -⟩ := mem_pathsAt.mp named
    · exact nomatch bare
    · cases same
      exact new (exists_entry_of_mem inAbove)
  have no_sibling : ∀ entry ∈ entries, (par, name) ∉ entry.positions := by
    intro entry member inside
    have known := (mem_allPaths sound.ordered).mpr ⟨entry, member, rfl, _, inside, named⟩
    rw [(represents.names path _).mpr known] at unknown
    exact nomatch unknown
  have own : allPaths (⟨uuid, [(par, name)], false⟩ :: entries) uuid =
      pathsAt (allPaths entries) (par, name) := by
    simp [allPaths]
  have ordered : Ordered (⟨uuid, [(par, name)], false⟩ :: entries) := by
    refine ⟨new, fun position member => ?_, unnamed, sound.ordered⟩
    cases List.mem_singleton.mp member
    exact ⟨other_parent, slashless⟩
  have apart : Apart (⟨uuid, [(par, name)], false⟩ :: entries) := by
    intro first inFirst second inSecond position memFirst memSecond
    cases inFirst with
    | head =>
        cases inSecond with
        | head => rfl
        | tail _ inSecond =>
            cases List.mem_singleton.mp memFirst
            exact absurd memSecond (no_sibling second inSecond)
    | tail _ inFirst =>
        cases inSecond with
        | head =>
            cases List.mem_singleton.mp memSecond
            exact absurd memFirst (no_sibling first inFirst)
        | tail _ inSecond => exact sound.apart first inFirst second inSecond position memFirst memSecond
  have listed : Listed (⟨uuid, [(par, name)], false⟩ :: entries) := by
    intro other
    by_cases here : other = uuid
    · rw [here, own]
      cases par with
      | none => simp [pathsAt, MAX_PATHS]
      | some par =>
          rw [pathsAt, List.length_map]
          exact sound.listed par
    · rw [allPaths_cons_of_ne here]
      exact sound.listed other
  have inside : path ∈ allPaths (⟨uuid, [(par, name)], false⟩ :: entries) uuid := own ▸ named
  refine ⟨⟨ordered, apart, listed⟩, ?_, inside, ?_⟩
  · have known (other : Path) (tag : Id) :
        ((vocab.plannedPaths path).map fun p => (p, uuid)).reverse.lookup other = some tag ↔
          tag = uuid ∧ other ∈ vocab.plannedPaths path := by
      rw [lookup_eq_some_of_unique]
      · simp [and_comm, eq_comm]
      · intro key one two inOne inTwo
        simp only [List.mem_reverse, List.mem_map, Prod.mk.injEq] at inOne inTwo
        obtain ⟨_, -, -, rfl⟩ := inOne
        obtain ⟨_, -, -, rfl⟩ := inTwo
        rfl
    have old {tag : Id} (before : tag ≠ uuid) :
        allPaths (⟨uuid, [(par, name)], false⟩ :: entries) tag = allPaths entries tag :=
      allPaths_cons_of_ne before
    refine ⟨fun other tag => ?_, fun other => ?_, fun tag other given => ?_, fun tag => ?_⟩
    · rw [Vocab.uuidOf, Vocab.withEntry, List.lookup_append]
      by_cases mine : other ∈ vocab.plannedPaths path
      · rw [(known other uuid).mpr ⟨rfl, mine⟩, Option.some_or, Option.some.injEq]
        have here : other ∈ allPaths (⟨uuid, [(par, name)], false⟩ :: entries) uuid :=
          own ▸ (planned other).mp mine
        exact ⟨fun same => same ▸ here, fun there => eq_of_mem_allPaths ordered apart here there⟩
      · have none : ((vocab.plannedPaths path).map fun p => (p, uuid)).reverse.lookup other = none := by
          cases found : ((vocab.plannedPaths path).map fun p => (p, uuid)).reverse.lookup other with
          | none => rfl
          | some tag => exact absurd ((known other tag).mp found).2 mine
        rw [none, Option.none_or]
        refine (represents.names other tag).trans ?_
        by_cases here : tag = uuid
        · rw [here, own, allPaths_eq_nil new, ← planned]
          simp [mine]
        · rw [old here]
    · rw [Vocab.withEntry, List.mem_append, represents.listed, planned]
      constructor
      · rintro (⟨tag, given⟩ | given)
        · refine ⟨tag, ?_⟩
          rwa [old fun here => new (here ▸ exists_entry_of_mem given)]
        · exact ⟨uuid, own ▸ given⟩
      · rintro ⟨tag, given⟩
        by_cases here : tag = uuid
        · exact .inr (by rwa [here, own] at given)
        · exact .inl ⟨tag, by rwa [old here] at given⟩
    · by_cases here : tag = uuid
      · subst here
        refine ⟨vocab.plannedPaths path, by simp [Vocab.withEntry], fun more => ?_⟩
        rw [planned, own]
      · rw [old here] at given
        obtain ⟨paths, found, same⟩ := represents.paths tag other given
        refine ⟨paths, ?_, fun more => by rw [old here, same]⟩
        have differ : (tag == uuid) = false := by simpa using here
        simp only [Vocab.withEntry, List.lookup_cons, differ]
        exact found
    · refine (represents.partitions tag).trans ?_
      simp
  · intro entry member position within
    cases member with
    | head =>
        cases List.mem_singleton.mp within
        exact other_parent
    | tail _ member => exact unnamed entry member position within

/-- What ensuring an entry leaves: the vocabulary of a hierarchy that the planned operations give, in
which the path names the entry. -/
structure Ensured (fresh : Nat → Id) (entries : List (Entry Id)) (vocab : Vocab Id)
    (batch : TagBatch Id) (path : Path) (result : Id × Vocab Id × TagBatch Id)
    (planned : List (Op Id)) (added : List (Entry Id)) : Prop where
  /-- The operations planned. -/
  ops : result.2.2.ops = batch.ops ++ planned
  /-- They create the entries added. -/
  run : ∀ selected refs, planned.foldl (Store.run selected) ⟨entries, refs⟩ = ⟨added ++ entries, refs⟩
  /-- The hierarchy stays sound. -/
  sound : Sound (added ++ entries)
  /-- The vocabulary has its paths. -/
  represents : Represents result.2.1 (added ++ entries)
  /-- The path names the entry. -/
  named : path ∈ allPaths (added ++ entries) result.1
  /-- Uuids are left. -/
  fresh : Fresh fresh result.2.2.taken (added ++ entries)
  /-- An entry created has nothing under it. -/
  leaf : result.2.1 = vocab ∨ Unnamed (added ++ entries) result.1

omit [DecidableEq Id] in
theorem Fresh.step {fresh : Nat → Id} {taken : Nat} {entries : List (Entry Id)} {par : Option Id}
    {name : List Char} (free : Fresh fresh taken entries)
    (known : ∀ tag, par = some tag → tag ∈ entries.map Entry.uuid) :
    Fresh fresh (taken + 1) (⟨fresh taken, [(par, name)], false⟩ :: entries) := by
  refine ⟨free.injective, fun n later => ?_, fun n later entry member position inside => ?_⟩
  · rw [List.map_cons, List.mem_cons, not_or]
    refine ⟨fun same => ?_, free.absent n (by omega)⟩
    have := free.injective same
    omega
  · cases member with
    | head =>
        cases List.mem_singleton.mp inside
        intro same
        exact free.absent n (by omega) (known _ same)
    | tail _ member => exact free.unnamed n (by omega) entry member position inside

theorem ensureEntry_known (fresh : Nat → Id) {vocab : Vocab Id} (batch : TagBatch Id) {path : Path}
    {uuid : Id} (known : vocab.uuidOf path = some uuid) (above : List Path) :
    batch.ensureEntry fresh vocab path above = (uuid, vocab, batch) := by
  rw [TagBatch.ensureEntry.eq_def]
  simp only [known]

theorem ensureEntry_root (fresh : Nat → Id) {vocab : Vocab Id} (batch : TagBatch Id) {path : Path}
    (unknown : vocab.uuidOf path = none) :
    batch.ensureEntry fresh vocab path [] =
      (fresh batch.taken, vocab.withEntry path (fresh batch.taken),
        ⟨batch.ops ++ [.create (fresh batch.taken) none path], batch.taken + 1⟩) := by
  simp only [TagBatch.ensureEntry, unknown]

theorem ensureEntry_child (fresh : Nat → Id) {vocab : Vocab Id} (batch : TagBatch Id)
    {path par : Path} {above : List Path} (unknown : vocab.uuidOf path = none) :
    batch.ensureEntry fresh vocab path (par :: above) =
      let (parentUuid, vocab, batch) := batch.ensureEntry fresh vocab par above
      (fresh batch.taken, vocab.withEntry path (fresh batch.taken),
        ⟨batch.ops ++
            [.create (fresh batch.taken) (some parentUuid) (path.drop (par.length + 1))],
          batch.taken + 1⟩) := by
  rw [TagBatch.ensureEntry.eq_def]
  simp only [unknown]

theorem ensureEntry_sound (fresh : Nat → Id) {entries : List (Entry Id)} {vocab : Vocab Id}
    (batch : TagBatch Id) {path : Path} {above : List Path} (chain : above = ancestors path)
    (sound : Sound entries) (represents : Represents vocab entries)
    (free : Fresh fresh batch.taken entries) :
    ∃ planned added, Ensured fresh entries vocab batch path
      (batch.ensureEntry fresh vocab path above) planned added := by
  induction above generalizing path with
  | nil =>
      cases known : vocab.uuidOf path with
      | some uuid =>
          rw [ensureEntry_known fresh batch known]
          exact ⟨[], [], by simp, fun _ _ => rfl, sound, represents,
            (represents.names path uuid).mp known, free, .inl rfl⟩
      | none =>
          have slashless : '/' ∉ path := by
            intro slash
            obtain flat | ⟨par, name, flat, rfl⟩ := slashless_or_concat path
            · exact flat slash
            · rw [ancestors_concat flat] at chain
              cases chain
          obtain ⟨grown, held, inside, leaf⟩ := withEntry_sound none path sound represents
            (free.absent _ le_rfl) (free.unnamed _ le_rfl) known slashless (by simp [pathsAt])
            (fun other => by simp [Vocab.plannedPaths, parent_of_slashless slashless, pathsAt])
          rw [ensureEntry_root fresh batch known]
          exact ⟨[.create (fresh batch.taken) none path], [⟨fresh batch.taken, [(none, path)], false⟩],
            rfl, fun _ _ => rfl, grown, held, inside, free.step (fun _ same => by cases same),
            .inr leaf⟩
  | cons par above ih =>
      obtain flat | ⟨other, name, slashless, rfl⟩ := slashless_or_concat path
      · rw [ancestors_of_slashless flat] at chain
        cases chain
      rw [ancestors_concat slashless, List.cons.injEq] at chain
      obtain ⟨rfl, chain⟩ := chain
      cases known : vocab.uuidOf (par ++ '/' :: name) with
      | some uuid =>
          rw [ensureEntry_known fresh batch known]
          exact ⟨[], [], by simp, fun _ _ => rfl, sound, represents,
            (represents.names _ uuid).mp known, free, .inl rfl⟩
      | none =>
          obtain ⟨planned, added, ensured⟩ := ih chain
          rw [ensureEntry_child fresh batch known]
          generalize batch.ensureEntry fresh vocab par above = result at ensured ⊢
          obtain ⟨parentUuid, between, later⟩ := result
          have unknown : between.uuidOf (par ++ '/' :: name) = none := by
            cases again : between.uuidOf (par ++ '/' :: name) with
            | none => rfl
            | some tag =>
                cases ensured.leaf with
                | inl same =>
                    have same : between = vocab := same
                    rw [same, known] at again
                    cases again
                | inr leaf =>
                    obtain ⟨entry, member, position, inside, same⟩ := parent_named
                      (above_of_under ensured.sound.ordered ensured.sound.apart ensured.named
                        ((ensured.represents.names _ tag).mp again) (under_name par name))
                    exact absurd same (leaf entry member position inside)
          have drop : (par ++ '/' :: name).drop (par.length + 1) = name := by
            rw [← List.drop_drop, List.drop_left]
            rfl
          obtain ⟨grown, held, inside, leaf⟩ := withEntry_sound (some parentUuid) name
            ensured.sound ensured.represents (ensured.fresh.absent _ le_rfl)
            (ensured.fresh.unnamed _ le_rfl) unknown slashless
            (mem_pathsAt.mpr (.inr ⟨parentUuid, par, rfl, ensured.named, rfl⟩))
            (fun other => by
              simp only [Vocab.plannedPaths, parent_concat slashless, pathsAt, List.mem_map,
                ensured.represents.mem_pathsOf ensured.named, List.drop_left])
          refine ⟨planned ++ [.create (fresh later.taken) (some parentUuid) name],
            ⟨fresh later.taken, [(some parentUuid, name)], false⟩ :: added, ?_, fun selected refs => ?_,
            grown, held, inside, ?_, .inr leaf⟩
          · rw [drop, ← List.append_assoc, ← ensured.ops]
          · rw [List.foldl_append, ensured.run]
            rfl
          · refine ensured.fresh.step fun tag same => ?_
            cases same
            exact exists_entry_of_mem ensured.named

/-! ### Refs -/

/-- The refs of a record do not contradict each other. -/
structure Consistent (entries : List (Entry Id)) (refs : Refs Id) : Prop where
  /-- No positive is at or below a negative. -/
  denied : ∀ negative ∈ refs.negative, ∀ positive ∈ refs.positive,
    positive ≠ negative ∧ ¬Above entries negative positive
  /-- No mixed mark is at or above a positive. -/
  whole : ∀ mixed ∈ refs.mixed, ∀ positive ∈ refs.positive,
    positive ≠ mixed ∧ ¬Above entries mixed positive
  /-- No mixed mark is at or below a negative. -/
  lacking : ∀ mixed ∈ refs.mixed, ∀ negative ∈ refs.negative,
    mixed ≠ negative ∧ ¬Above entries negative mixed
  /-- Two positives that a partition divides imply one another. -/
  divided : ∀ first ∈ refs.positive, ∀ second ∈ refs.positive, Divided entries first second →
    first = second ∨ Above entries first second ∨ Above entries second first

/-- The refs are to tags that exist. -/
def Known (entries : List (Entry Id)) (refs : Refs Id) : Prop :=
  ∀ field, ∀ tag ∈ refs.get field, tag ∈ entries.map Entry.uuid

theorem divided_append {added entries : List (Entry Id)} (ordered : Ordered (added ++ entries))
    {tag other : Id} (old : tag ∈ entries.map Entry.uuid)
    (oldOther : other ∈ entries.map Entry.uuid) (divided : Divided (added ++ entries) tag other) :
    Divided entries tag other := by
  obtain ⟨par, member, flagged, first, second, differ, parFirst, parSecond, one, two⟩ := divided
  have before {child tag : Id} (old : tag ∈ entries.map Entry.uuid)
      (above : tag = child ∨ Above (added ++ entries) child tag) :
      child ∈ entries.map Entry.uuid ∧ (tag = child ∨ Above entries child tag) := by
    obtain rfl | above := above
    · exact ⟨old, .inl rfl⟩
    · have above := (above_append ordered old).mp above
      obtain ⟨path, inPath⟩ := exists_path_of_above above
      exact ⟨exists_entry_of_mem inPath, .inr above⟩
  obtain ⟨oldFirst, one⟩ := before old one
  obtain ⟨oldSecond, two⟩ := before oldOther two
  have parFirst := (parent_append ordered oldFirst).mp parFirst
  have parSecond := (parent_append ordered oldSecond).mp parSecond
  have inside : par ∈ entries := by
    cases List.mem_append.mp member with
    | inl new =>
        have absent := (ordered_append ordered).1 _ (List.mem_map_of_mem new)
        exact absurd (parent_mem parFirst) absent
    | inr inside => exact inside
  exact ⟨par, inside, flagged, first, second, differ, parFirst, parSecond, one, two⟩

/-- New tags contradict nothing. -/
theorem Consistent.append {added entries : List (Entry Id)} {refs : Refs Id}
    (ordered : Ordered (added ++ entries)) (known : Known entries refs)
    (consistent : Consistent entries refs) : Consistent (added ++ entries) refs := by
  refine ⟨fun negative inNegative positive inPositive => ?_,
    fun mixed inMixed positive inPositive => ?_, fun mixed inMixed negative inNegative => ?_,
    fun first inFirst second inSecond divided => ?_⟩
  · rw [above_append ordered (known .positive positive inPositive)]
    exact consistent.denied negative inNegative positive inPositive
  · rw [above_append ordered (known .positive positive inPositive)]
    exact consistent.whole mixed inMixed positive inPositive
  · rw [above_append ordered (known .mixed mixed inMixed)]
    exact consistent.lacking mixed inMixed negative inNegative
  · rw [above_append ordered (known .positive first inFirst),
      above_append ordered (known .positive second inSecond)]
    exact consistent.divided first inFirst second inSecond
      (divided_append ordered (known .positive first inFirst) (known .positive second inSecond)
        divided)

omit [DecidableEq Id] in
theorem Known.append {added entries : List (Entry Id)} {refs : Refs Id}
    (known : Known entries refs) : Known (added ++ entries) refs := by
  intro field tag member
  rw [List.map_append]
  exact List.mem_append_right _ (known field tag member)

/-- The refs with one more. -/
def Refs.with (refs : Refs Id) (field : Field) (tag : Id) : Refs Id :=
  refs.modify field fun held => if tag ∈ held then held else held ++ [tag]

/-- The refs of a field without some. -/
def Refs.without (refs : Refs Id) (field : Field) (tags : List Id) : Refs Id :=
  refs.modify field fun held => held.filter (· ∉ tags)

theorem run_removes (selected : Bool) (field : Field) (tags : List Id) (entries : List (Entry Id))
    (refs : Refs Id) :
    (tags.map (.remove field)).foldl (Store.run selected) ⟨entries, refs⟩ =
      ⟨entries, if selected then refs.without field tags else refs⟩ := by
  cases selected with
  | false =>
      induction tags with
      | nil => rfl
      | cons tag tags ih => exact ih
  | true =>
      induction tags generalizing refs with
      | nil => cases field <;> simp [Refs.without, Refs.modify]
      | cons tag tags ih =>
          rw [List.map_cons, List.foldl_cons]
          refine (ih (refs.modify field fun held => held.filter (· ≠ tag))).trans ?_
          have both (held : List Id) :
              (held.filter (· ≠ tag)).filter (· ∉ tags) = held.filter (· ∉ tag :: tags) := by
            rw [List.filter_filter]
            refine List.filter_congr fun other _ => ?_
            by_cases here : other = tag <;> simp [here]
          cases field <;> simp only [Refs.without, Refs.modify, both, if_true]

omit [DecidableEq Id] in
@[simp]
theorem Refs.get_modify (refs : Refs Id) (field : Field) (change : List Id → List Id)
    (other : Field) :
    (refs.modify field change).get other =
      if other = field then change (refs.get other) else refs.get other := by
  cases field <;> cases other <;> rfl

theorem mem_without {refs : Refs Id} {field : Field} (other : Field) {tags : List Id} {tag : Id} :
    tag ∈ (refs.without field tags).get other ↔
      tag ∈ refs.get other ∧ (other = field → tag ∉ tags) := by
  rw [Refs.without, Refs.get_modify]
  split
  · rename_i here
    simp [here]
  · rename_i elsewhere
    simp [elsewhere]

theorem mem_with {refs : Refs Id} {field other : Field} {new tag : Id} :
    tag ∈ (refs.with field new).get other ↔ tag ∈ refs.get other ∨ (other = field ∧ tag = new) := by
  rw [Refs.with, Refs.get_modify]
  split
  · rename_i here
    split
    · rename_i present
      constructor
      · exact .inl
      · rintro (member | ⟨-, rfl⟩)
        · exact member
        · exact present
    · simp [here]
  · rename_i elsewhere
    simp [elsewhere]

/-- What an answer makes of the refs of a record, by what the vocabulary says of the tag. -/
def rewritten (vocab : Vocab Id) (path : Path) (uuid : Id) (refs : Refs Id) : Answer → Refs Id
  | .add =>
      ((((refs.with .positive uuid).without .positive
        ((vocab.ancestors path).filterMap vocab.uuidOf)).without .positive
        ((vocab.excludedByPartitions path).filterMap vocab.uuidOf)).without .negative
        ((vocab.withAncestors path).filterMap vocab.uuidOf)).without .mixed
        ((vocab.withAncestors path).filterMap vocab.uuidOf)
  | .deny =>
      (((refs.with .negative uuid).without .negative
        ((vocab.descendants path).filterMap vocab.uuidOf)).without .positive
        ((vocab.withDescendants path).filterMap vocab.uuidOf)).without .mixed
        ((vocab.withDescendants path).filterMap vocab.uuidOf)
  | .mixed =>
      ((refs.with .mixed uuid).without .positive
        ((vocab.withDescendants path).filterMap vocab.uuidOf)).without .negative
        ((vocab.withAncestors path).filterMap vocab.uuidOf)
  | .remove => refs.without .positive [uuid]

section Rewritten

variable {vocab : Vocab Id} {entries : List (Entry Id)} {path : Path} {uuid : Id} {refs : Refs Id}

theorem mem_add (represents : Represents vocab entries) (sound : Sound entries)
    (named : path ∈ allPaths entries uuid) (field : Field) {tag : Id} :
    tag ∈ (rewritten vocab path uuid refs .add).get field ↔
      (tag ∈ refs.get field ∨ (field = .positive ∧ tag = uuid)) ∧
        (field = .positive → ¬Above entries tag uuid ∧ ¬Excluded entries uuid tag) ∧
        (field ≠ .positive → tag ≠ uuid ∧ ¬Above entries tag uuid) := by
  simp only [rewritten, mem_without, mem_with,
    represents.ancestor_iff sound.ordered sound.apart named,
    represents.excluded_iff sound.ordered sound.apart named,
    represents.withAncestors_iff sound.ordered sound.apart named]
  cases field <;> simp [and_assoc]

theorem mem_deny (represents : Represents vocab entries) (sound : Sound entries)
    (named : path ∈ allPaths entries uuid) (field : Field) {tag : Id} :
    tag ∈ (rewritten vocab path uuid refs .deny).get field ↔
      (tag ∈ refs.get field ∨ (field = .negative ∧ tag = uuid)) ∧ ¬Above entries uuid tag ∧
        (field ≠ .negative → tag ≠ uuid) := by
  simp only [rewritten, mem_without, mem_with,
    represents.descendant_iff sound.ordered sound.apart named,
    represents.withDescendants_iff sound.ordered sound.apart named]
  cases field <;> simp [and_comm]

theorem mem_mixed (represents : Represents vocab entries) (sound : Sound entries)
    (named : path ∈ allPaths entries uuid) (field : Field) {tag : Id} :
    tag ∈ (rewritten vocab path uuid refs .mixed).get field ↔
      (tag ∈ refs.get field ∨ (field = .mixed ∧ tag = uuid)) ∧
        (field = .positive → tag ≠ uuid ∧ ¬Above entries uuid tag) ∧
        (field = .negative → tag ≠ uuid ∧ ¬Above entries tag uuid) := by
  simp only [rewritten, mem_without, mem_with,
    represents.withAncestors_iff sound.ordered sound.apart named,
    represents.withDescendants_iff sound.ordered sound.apart named]
  cases field <;> simp

theorem add_consistent (represents : Represents vocab entries) (sound : Sound entries)
    (named : path ∈ allPaths entries uuid) (consistent : Consistent entries refs) :
    Consistent entries (rewritten vocab path uuid refs .add) := by
  have positives {tag : Id} (member : tag ∈ (rewritten vocab path uuid refs .add).positive) :
      (tag ∈ refs.positive ∨ tag = uuid) ∧ ¬Above entries tag uuid ∧
        ¬Excluded entries uuid tag := by
    have spelled := (mem_add represents sound named .positive).mp member
    exact ⟨spelled.1.imp id And.right, spelled.2.1 rfl⟩
  have negatives {tag : Id} (member : tag ∈ (rewritten vocab path uuid refs .add).negative) :
      tag ∈ refs.negative ∧ tag ≠ uuid ∧ ¬Above entries tag uuid := by
    have spelled := (mem_add represents sound named .negative).mp member
    exact ⟨spelled.1.resolve_right (by simp), spelled.2.2 (by simp)⟩
  have mixeds {tag : Id} (member : tag ∈ (rewritten vocab path uuid refs .add).mixed) :
      tag ∈ refs.mixed ∧ tag ≠ uuid ∧ ¬Above entries tag uuid := by
    have spelled := (mem_add represents sound named .mixed).mp member
    exact ⟨spelled.1.resolve_right (by simp), spelled.2.2 (by simp)⟩
  -- The tag added is divided from none of those left.
  have undivided {tag : Id} (member : tag ∈ (rewritten vocab path uuid refs .add).positive)
      (divided : Divided entries uuid tag) : tag = uuid := by
    obtain ⟨-, notAbove, kept⟩ := positives member
    by_contra differ
    exact kept (excluded_of_divided sound.ordered sound.apart divided (not_or.mpr ⟨differ, notAbove⟩))
  refine ⟨fun negative inNegative positive inPositive => ?_,
    fun mixed inMixed positive inPositive => ?_, fun mixed inMixed negative inNegative => ?_,
    fun first inFirst second inSecond divided => ?_⟩
  · obtain ⟨old, differ, notAbove⟩ := negatives inNegative
    cases (positives inPositive).1 with
    | inl before => exact consistent.denied negative old positive before
    | inr here => exact here ▸ ⟨differ.symm, notAbove⟩
  · obtain ⟨old, differ, notAbove⟩ := mixeds inMixed
    cases (positives inPositive).1 with
    | inl before => exact consistent.whole mixed old positive before
    | inr here => exact here ▸ ⟨differ.symm, notAbove⟩
  · exact consistent.lacking mixed (mixeds inMixed).1 negative (negatives inNegative).1
  · cases (positives inFirst).1 with
    | inr here => exact .inl (here.trans (undivided inSecond (here ▸ divided)).symm)
    | inl before =>
        cases (positives inSecond).1 with
        | inr here => exact .inl ((undivided inFirst (here ▸ divided.symm)).trans here.symm)
        | inl beforeSecond => exact consistent.divided first before second beforeSecond divided

theorem deny_consistent (represents : Represents vocab entries) (sound : Sound entries)
    (named : path ∈ allPaths entries uuid) (consistent : Consistent entries refs) :
    Consistent entries (rewritten vocab path uuid refs .deny) := by
  have positives {tag : Id} (member : tag ∈ (rewritten vocab path uuid refs .deny).positive) :
      tag ∈ refs.positive ∧ tag ≠ uuid ∧ ¬Above entries uuid tag := by
    have spelled := (mem_deny represents sound named .positive).mp member
    exact ⟨spelled.1.resolve_right (by simp), spelled.2.2 (by simp), spelled.2.1⟩
  have negatives {tag : Id} (member : tag ∈ (rewritten vocab path uuid refs .deny).negative) :
      tag ∈ refs.negative ∨ tag = uuid :=
    ((mem_deny represents sound named .negative).mp member).1.imp id And.right
  have mixeds {tag : Id} (member : tag ∈ (rewritten vocab path uuid refs .deny).mixed) :
      tag ∈ refs.mixed ∧ tag ≠ uuid ∧ ¬Above entries uuid tag := by
    have spelled := (mem_deny represents sound named .mixed).mp member
    exact ⟨spelled.1.resolve_right (by simp), spelled.2.2 (by simp), spelled.2.1⟩
  refine ⟨fun negative inNegative positive inPositive => ?_,
    fun mixed inMixed positive inPositive => ?_, fun mixed inMixed negative inNegative => ?_,
    fun first inFirst second inSecond divided => ?_⟩
  · obtain ⟨before, apartFrom⟩ := positives inPositive
    cases negatives inNegative with
    | inl old => exact consistent.denied negative old positive before
    | inr here => exact here ▸ apartFrom
  · exact consistent.whole mixed (mixeds inMixed).1 positive (positives inPositive).1
  · obtain ⟨before, apartFrom⟩ := mixeds inMixed
    cases negatives inNegative with
    | inl old => exact consistent.lacking mixed before negative old
    | inr here => exact here ▸ apartFrom
  · exact consistent.divided first (positives inFirst).1 second (positives inSecond).1 divided

theorem mixed_consistent (represents : Represents vocab entries) (sound : Sound entries)
    (named : path ∈ allPaths entries uuid) (consistent : Consistent entries refs) :
    Consistent entries (rewritten vocab path uuid refs .mixed) := by
  have positives {tag : Id} (member : tag ∈ (rewritten vocab path uuid refs .mixed).positive) :
      tag ∈ refs.positive ∧ tag ≠ uuid ∧ ¬Above entries uuid tag := by
    have spelled := (mem_mixed represents sound named .positive).mp member
    exact ⟨spelled.1.resolve_right (by simp), spelled.2.1 rfl⟩
  have negatives {tag : Id} (member : tag ∈ (rewritten vocab path uuid refs .mixed).negative) :
      tag ∈ refs.negative ∧ tag ≠ uuid ∧ ¬Above entries tag uuid := by
    have spelled := (mem_mixed represents sound named .negative).mp member
    exact ⟨spelled.1.resolve_right (by simp), spelled.2.2 rfl⟩
  have mixeds {tag : Id} (member : tag ∈ (rewritten vocab path uuid refs .mixed).mixed) :
      tag ∈ refs.mixed ∨ tag = uuid :=
    ((mem_mixed represents sound named .mixed).mp member).1.imp id And.right
  refine ⟨fun negative inNegative positive inPositive => ?_,
    fun mixed inMixed positive inPositive => ?_, fun mixed inMixed negative inNegative => ?_,
    fun first inFirst second inSecond divided => ?_⟩
  · exact consistent.denied negative (negatives inNegative).1 positive (positives inPositive).1
  · obtain ⟨before, apartFrom⟩ := positives inPositive
    cases mixeds inMixed with
    | inl old => exact consistent.whole mixed old positive before
    | inr here => exact here ▸ apartFrom
  · obtain ⟨before, differ, notAbove⟩ := negatives inNegative
    cases mixeds inMixed with
    | inl old => exact consistent.lacking mixed old negative before
    | inr here => exact here ▸ ⟨differ.symm, notAbove⟩
  · exact consistent.divided first (positives inFirst).1 second (positives inSecond).1 divided

/-- An answer leaves no contradiction. -/
theorem rewritten_consistent (represents : Represents vocab entries) (sound : Sound entries)
    (named : path ∈ allPaths entries uuid) (consistent : Consistent entries refs)
    (answer : Answer) : Consistent entries (rewritten vocab path uuid refs answer) := by
  cases answer with
  | add => exact add_consistent represents sound named consistent
  | deny => exact deny_consistent represents sound named consistent
  | mixed => exact mixed_consistent represents sound named consistent
  | remove =>
      have positives {tag : Id} (member : tag ∈ (rewritten vocab path uuid refs .remove).positive) :
          tag ∈ refs.positive := ((mem_without .positive).mp member).1
      exact ⟨fun negative inNegative positive inPositive =>
          consistent.denied negative inNegative positive (positives inPositive),
        fun mixed inMixed positive inPositive =>
          consistent.whole mixed inMixed positive (positives inPositive),
        consistent.lacking,
        fun first inFirst second inSecond =>
          consistent.divided first (positives inFirst) second (positives inSecond)⟩

theorem with_of_mem {field : Field} {tag : Id} (member : tag ∈ refs.get field) :
    refs.with field tag = refs := by
  unfold Refs.with
  cases field <;> simp only [Refs.get] at member <;> simp only [Refs.modify, if_pos member]

theorem without_of_disjoint {field : Field} {tags : List Id}
    (apart : ∀ tag ∈ refs.get field, tag ∉ tags) : refs.without field tags = refs := by
  have same (held : List Id) (apart : ∀ tag ∈ held, tag ∉ tags) :
      held.filter (· ∉ tags) = held :=
    List.filter_eq_self.mpr fun tag member => decide_eq_true (apart tag member)
  unfold Refs.without
  cases field <;> simp only [Refs.get] at apart <;> simp only [Refs.modify, same _ apart]

/-- The same answer once more changes nothing, whichever vocabulary of the hierarchy it reads. -/
theorem rewritten_rewritten {again : Vocab Id} (represents : Represents vocab entries)
    (representsAgain : Represents again entries) (sound : Sound entries)
    (named : path ∈ allPaths entries uuid) (answer : Answer) :
    rewritten again path uuid (rewritten vocab path uuid refs answer) answer =
      rewritten vocab path uuid refs answer := by
  have self := not_above_self sound.ordered uuid
  cases answer with
  | remove =>
      refine without_of_disjoint fun tag member => ?_
      exact ((mem_without .positive).mp member).2 rfl
  | add =>
      have member (field : Field) (tag : Id) :
          tag ∈ (rewritten vocab path uuid refs .add).get field ↔ _ :=
        mem_add represents sound named field
      have had : uuid ∈ (rewritten vocab path uuid refs .add).get .positive :=
        (member _ _).mpr ⟨.inr ⟨rfl, rfl⟩, fun _ => ⟨self, fun excluded => excluded.2 (.inl rfl)⟩,
          fun other => absurd rfl other⟩
      generalize rewritten vocab path uuid refs .add = held at member had
      have noAncestor : ∀ tag ∈ held.get .positive,
          tag ∉ (again.ancestors path).filterMap again.uuidOf := fun tag inside => by
        rw [representsAgain.ancestor_iff sound.ordered sound.apart named]
        exact (((member _ _).mp inside).2.1 rfl).1
      have noExcluded : ∀ tag ∈ held.get .positive,
          tag ∉ (again.excludedByPartitions path).filterMap again.uuidOf := fun tag inside => by
        rw [representsAgain.excluded_iff sound.ordered sound.apart named]
        exact (((member _ _).mp inside).2.1 rfl).2
      have noneAbove (field : Field) (other : field ≠ .positive) : ∀ tag ∈ held.get field,
          tag ∉ (again.withAncestors path).filterMap again.uuidOf := fun tag inside => by
        rw [representsAgain.withAncestors_iff sound.ordered sound.apart named, not_or]
        exact ((member _ _).mp inside).2.2 other
      rw [rewritten, with_of_mem had, without_of_disjoint noAncestor, without_of_disjoint noExcluded,
        without_of_disjoint (noneAbove .negative (by simp)),
        without_of_disjoint (noneAbove .mixed (by simp))]
  | deny =>
      have member (field : Field) (tag : Id) :
          tag ∈ (rewritten vocab path uuid refs .deny).get field ↔ _ :=
        mem_deny represents sound named field
      have had : uuid ∈ (rewritten vocab path uuid refs .deny).get .negative :=
        (member _ _).mpr ⟨.inr ⟨rfl, rfl⟩, self, fun other => absurd rfl other⟩
      generalize rewritten vocab path uuid refs .deny = held at member had
      have noDescendant : ∀ tag ∈ held.get .negative,
          tag ∉ (again.descendants path).filterMap again.uuidOf := fun tag inside => by
        rw [representsAgain.descendant_iff sound.ordered sound.apart named]
        exact ((member _ _).mp inside).2.1
      have noneBelow (field : Field) (other : field ≠ .negative) : ∀ tag ∈ held.get field,
          tag ∉ (again.withDescendants path).filterMap again.uuidOf := fun tag inside => by
        rw [representsAgain.withDescendants_iff sound.ordered sound.apart named, not_or]
        exact ⟨((member _ _).mp inside).2.2 other, ((member _ _).mp inside).2.1⟩
      rw [rewritten, with_of_mem had, without_of_disjoint noDescendant,
        without_of_disjoint (noneBelow .positive (by simp)),
        without_of_disjoint (noneBelow .mixed (by simp))]
  | mixed =>
      have member (field : Field) (tag : Id) :
          tag ∈ (rewritten vocab path uuid refs .mixed).get field ↔ _ :=
        mem_mixed represents sound named field
      have had : uuid ∈ (rewritten vocab path uuid refs .mixed).get .mixed :=
        (member _ _).mpr ⟨.inr ⟨rfl, rfl⟩, fun other => (nomatch other), fun other => (nomatch other)⟩
      generalize rewritten vocab path uuid refs .mixed = held at member had
      have noneBelow : ∀ tag ∈ held.get .positive,
          tag ∉ (again.withDescendants path).filterMap again.uuidOf := fun tag inside => by
        rw [representsAgain.withDescendants_iff sound.ordered sound.apart named, not_or]
        exact ((member _ _).mp inside).2.1 rfl
      have noneAbove : ∀ tag ∈ held.get .negative,
          tag ∉ (again.withAncestors path).filterMap again.uuidOf := fun tag inside => by
        rw [representsAgain.withAncestors_iff sound.ordered sound.apart named, not_or]
        exact ((member _ _).mp inside).2.2 rfl
      rw [rewritten, with_of_mem had, without_of_disjoint noneBelow, without_of_disjoint noneAbove]

/-- The refs rewritten are to tags that exist. -/
theorem rewritten_known (known : Known entries refs) (inside : uuid ∈ entries.map Entry.uuid)
    (answer : Answer) : Known entries (rewritten vocab path uuid refs answer) := by
  intro field tag member
  have from_ : tag ∈ refs.get field ∨ tag = uuid := by
    cases answer <;> simp only [rewritten, mem_without, mem_with] at member <;> tauto
  cases from_ with
  | inl old => exact known field tag old
  | inr here => exact here ▸ inside

end Rewritten

/-! ### Answers one after the other -/

theorem run_add (selected : Bool) (batch : TagBatch Id) (field : Field) (tag : Id)
    {start after : Store Id} (ran : batch.ops.foldl (Store.run selected) start = after) :
    (batch.add field tag).ops.foldl (Store.run selected) start =
      ⟨after.entries, if selected then after.refs.with field tag else after.refs⟩ := by
  rw [TagBatch.add, List.foldl_append, ran]
  cases selected <;> rfl

theorem run_remove (selected : Bool) (batch : TagBatch Id) (vocab : Vocab Id) (field : Field)
    (paths : List Path) {start after : Store Id}
    (ran : batch.ops.foldl (Store.run selected) start = after) :
    (batch.remove vocab field paths).ops.foldl (Store.run selected) start =
      ⟨after.entries, if selected then after.refs.without field (paths.filterMap vocab.uuidOf)
        else after.refs⟩ := by
  rw [TagBatch.remove, List.foldl_append, ran]
  refine (run_removes selected field _ after.entries after.refs).trans ?_
  simp only [Refs.without, List.mem_dedup]

/-- The operations of an answer, once its entry is ensured. -/
def answered (vocab : Vocab Id) (batch : TagBatch Id) (path : Path) (uuid : Id) :
    Answer → TagBatch Id
  | .add =>
      ((((batch.add .positive uuid).remove vocab .positive (vocab.ancestors path)).remove vocab
        .positive (vocab.excludedByPartitions path)).remove vocab .negative
        (vocab.withAncestors path)).remove vocab .mixed (vocab.withAncestors path)
  | .deny =>
      (((batch.add .negative uuid).remove vocab .negative (vocab.descendants path)).remove vocab
        .positive (vocab.withDescendants path)).remove vocab .mixed (vocab.withDescendants path)
  | .mixed =>
      ((batch.add .mixed uuid).remove vocab .positive (vocab.withDescendants path)).remove vocab
        .negative (vocab.withAncestors path)
  | .remove => batch.remove vocab .positive [path]

theorem answered_run (selected : Bool) {vocab : Vocab Id} {batch : TagBatch Id} {path : Path}
    {uuid : Id} (named : vocab.uuidOf path = some uuid) (answer : Answer)
    {start : Store Id} {entries : List (Entry Id)} {refs : Refs Id}
    (ran : batch.ops.foldl (Store.run selected) start = ⟨entries, refs⟩) :
    (answered vocab batch path uuid answer).ops.foldl (Store.run selected) start =
      ⟨entries, if selected then rewritten vocab path uuid refs answer else refs⟩ := by
  cases answer with
  | add =>
      have added := run_add selected batch .positive uuid ran
      have one := run_remove selected _ vocab .positive (vocab.ancestors path) added
      have two := run_remove selected _ vocab .positive (vocab.excludedByPartitions path) one
      have three := run_remove selected _ vocab .negative (vocab.withAncestors path) two
      refine (run_remove selected _ vocab .mixed (vocab.withAncestors path) three).trans ?_
      cases selected <;> rfl
  | deny =>
      have added := run_add selected batch .negative uuid ran
      have one := run_remove selected _ vocab .negative (vocab.descendants path) added
      have two := run_remove selected _ vocab .positive (vocab.withDescendants path) one
      refine (run_remove selected _ vocab .mixed (vocab.withDescendants path) two).trans ?_
      cases selected <;> rfl
  | mixed =>
      have added := run_add selected batch .mixed uuid ran
      have one := run_remove selected _ vocab .positive (vocab.withDescendants path) added
      refine (run_remove selected _ vocab .negative (vocab.withAncestors path) one).trans ?_
      cases selected <;> rfl
  | remove =>
      refine (run_remove selected batch vocab .positive [path] ran).trans ?_
      simp only [rewritten, List.filterMap_cons, named, List.filterMap_nil]

/-- An answer about a tag that exists creates nothing. -/
theorem plan_known (fresh : Nat → Id) {vocab : Vocab Id} {path : Path} {tag : Id}
    (named : vocab.uuidOf path = some tag) (answer : Answer) :
    plan fresh vocab answer path = (answered vocab ⟨[], 0⟩ path tag answer).ops := by
  cases answer with
  | remove => rw [plan, Vocab.contains, named]; rfl
  | _ => simp only [plan, ensureEntry_known fresh _ named, answered]

theorem apply_known (fresh : Nat → Id) (selected : Bool) (answer : Answer) {typed path : Path}
    (normal : normalize typed = some path) {entries : List (Entry Id)} {tag : Id}
    (named : (Vocab.load entries).uuidOf path = some tag) (refs : Refs Id) :
    apply fresh selected answer typed ⟨entries, refs⟩ =
      ⟨entries, if selected then rewritten (.load entries) path tag refs answer else refs⟩ := by
  simp only [apply, normal, plan_known fresh named]
  exact answered_run selected named answer rfl

/-- What an answer does: nothing, when it takes back a tag that does not exist; else the entry it
names is there, and the refs are rewritten. -/
theorem apply_eq (fresh : Nat → Id) (selected : Bool) (answer : Answer) {typed path : Path}
    (normal : normalize typed = some path) {entries : List (Entry Id)} (sound : Sound entries)
    (free : Fresh fresh 0 entries) (refs : Refs Id) :
    (∀ others, apply others selected answer typed ⟨entries, refs⟩ = ⟨entries, refs⟩) ∨
      ∃ added vocab uuid, Sound (added ++ entries) ∧ Represents vocab (added ++ entries) ∧
        path ∈ allPaths (added ++ entries) uuid ∧
        ((∃ tag, path ∈ allPaths entries tag) → added = []) ∧
        apply fresh selected answer typed ⟨entries, refs⟩ =
          ⟨added ++ entries, if selected then rewritten vocab path uuid refs answer else refs⟩ := by
  have represents := load_represents sound.ordered sound.apart sound.listed
  by_cases known : ∃ tag, path ∈ allPaths entries tag
  · obtain ⟨tag, inside⟩ := known
    exact .inr ⟨[], .load entries, tag, sound, represents, inside, fun _ => rfl,
      apply_known fresh selected answer normal ((represents.names path tag).mpr inside) refs⟩
  · simp only [apply, normal]
    rw [not_exists] at known
    have unnamed : (Vocab.load entries).uuidOf path = none := by
      cases found : (Vocab.load entries).uuidOf path with
      | none => rfl
      | some tag => exact absurd ((represents.names path tag).mp found) (known tag)
    by_cases remove : answer = .remove
    · refine .inl fun others => ?_
      rw [remove, plan, Vocab.contains, unnamed]
      rfl
    obtain ⟨planned, added, ensured⟩ := ensureEntry_sound fresh ⟨[], 0⟩
      (rfl : ancestors path = ancestors path) sound represents free
    have ops : plan fresh (.load entries) answer path =
        (answered ((⟨[], 0⟩ : TagBatch Id).ensureEntry fresh (.load entries) path
            (ancestors path)).2.1
          ((⟨[], 0⟩ : TagBatch Id).ensureEntry fresh (.load entries) path (ancestors path)).2.2 path
          ((⟨[], 0⟩ : TagBatch Id).ensureEntry fresh (.load entries) path (ancestors path)).1
          answer).ops := by
      cases answer with
      | remove => exact absurd rfl remove
      | _ => rfl
    rw [ops]
    generalize (⟨[], 0⟩ : TagBatch Id).ensureEntry fresh (.load entries) path (ancestors path) =
      result at ensured ⊢
    refine .inr ⟨added, result.2.1, result.1, ensured.sound, ensured.represents, ensured.named,
      fun found => absurd found (not_exists.mpr known), ?_⟩
    refine answered_run selected ((ensured.represents.names path _).mpr ensured.named) answer ?_
    rw [ensured.ops, List.nil_append]
    exact ensured.run selected refs

/-- The states of a vocabulary and a record that started with no refs, answers being given. -/
inductive Reached (entries : List (Entry Id)) : Store Id → Prop
  /-- No answer was given. -/
  | start : Reached entries ⟨entries, ⟨[], [], []⟩⟩
  /-- An answer is given, to the record or to others, its uuids new. -/
  | answer {store : Store Id} (reached : Reached entries store) (fresh : Nat → Id)
      (free : Fresh fresh 0 store.entries) (selected : Bool) (answer : Answer) (typed : Path) :
      Reached entries (apply fresh selected answer typed store)

/-- What every state reached has. -/
structure Settled (store : Store Id) : Prop where
  /-- The paths say everything about the hierarchy. -/
  sound : Sound store.entries
  /-- The refs are to tags that exist. -/
  known : Known store.entries store.refs
  /-- They do not contradict each other. -/
  consistent : Consistent store.entries store.refs

/-- An answer keeps the state settled. -/
theorem Settled.apply {store : Store Id} (settled : Settled store) (fresh : Nat → Id)
    (free : Fresh fresh 0 store.entries) (selected : Bool) (answer : Answer) (typed : Path) :
    Settled (apply fresh selected answer typed store) := by
  obtain ⟨entries, refs⟩ := store
  obtain ⟨sound, known, consistent⟩ := settled
  cases normal : normalize typed with
  | none =>
      have same : Tags.apply fresh selected answer typed ⟨entries, refs⟩ = ⟨entries, refs⟩ := by
        simp only [Tags.apply, normal]
      rw [same]
      exact ⟨sound, known, consistent⟩
  | some path =>
      obtain same | ⟨added, vocab, uuid, grown, represents, named, -, same⟩ :=
        apply_eq fresh selected answer normal sound free refs
      · rw [same]
        exact ⟨sound, known, consistent⟩
      · rw [same]
        have kept := consistent.append grown.ordered known
        cases selected with
        | false => exact ⟨grown, known.append, kept⟩
        | true =>
            exact ⟨grown, rewritten_known known.append (exists_entry_of_mem named) answer,
              rewritten_consistent represents grown named kept answer⟩

theorem settled_of_reached {entries : List (Entry Id)} (sound : Sound entries) {store : Store Id}
    (reached : Reached entries store) : Settled store := by
  induction reached with
  | start =>
      refine ⟨sound, fun field tag member => ?_, ⟨by simp, by simp, by simp, by simp⟩⟩
      cases field <;> cases member
  | answer _ fresh free selected answer typed ih => exact ih.apply fresh free selected answer typed

/-- An answer once more, where its entry is there and the refs are rewritten. -/
theorem apply_again (again : Nat → Id) (selected : Bool) (answer : Answer) {typed path : Path}
    (normal : normalize typed = some path) {entries : List (Entry Id)} {vocab : Vocab Id} {uuid : Id}
    (sound : Sound entries) (represents : Represents vocab entries)
    (named : path ∈ allPaths entries uuid) (refs : Refs Id) :
    apply again selected answer typed
        ⟨entries, if selected then rewritten vocab path uuid refs answer else refs⟩ =
      ⟨entries, if selected then rewritten vocab path uuid refs answer else refs⟩ := by
  have reread := load_represents sound.ordered sound.apart sound.listed
  rw [apply_known again selected answer normal ((reread.names path uuid).mpr named)]
  cases selected with
  | false => simp only [Bool.false_eq_true, if_false]
  | true => simp only [if_true, rewritten_rewritten represents reread sound named]

/-- The same answer twice is that answer. -/
theorem apply_twice {store : Store Id} (settled : Settled store) (fresh again : Nat → Id)
    (selected : Bool) (answer : Answer) (typed : Path) (free : Fresh fresh 0 store.entries) :
    apply again selected answer typed (apply fresh selected answer typed store) =
      apply fresh selected answer typed store := by
  obtain ⟨entries, refs⟩ := store
  cases normal : normalize typed with
  | none => simp only [apply, normal]
  | some path =>
      obtain same | ⟨added, vocab, uuid, grown, represents, named, -, same⟩ :=
        apply_eq fresh selected answer normal settled.sound free refs
      · rw [same fresh, same again]
      · rw [same]
        exact apply_again again selected answer normal grown represents named refs

/-- From a vocabulary whose tags have no more paths than are listed and whose siblings show
different names, no answers make the refs of a record contradict each other, and the same answer
twice changes nothing the second time. -/
theorem answers_agree {entries : List (Entry Id)} (ordered : Ordered entries)
    (apart : Apart entries) (listed : Listed entries) {store : Store Id}
    (reached : Reached entries store) :
    Consistent store.entries store.refs ∧
      ∀ (fresh again : Nat → Id) (selected : Bool) (answer : Answer) (typed : Path),
        Fresh fresh 0 store.entries →
        apply again selected answer typed (apply fresh selected answer typed store) =
          apply fresh selected answer typed store :=
  have settled := settled_of_reached ⟨ordered, apart, listed⟩ reached
  ⟨settled.consistent, fun fresh again selected answer typed =>
    apply_twice settled fresh again selected answer typed⟩

/-! ### A tag of more paths than are listed -/

/-- A tag at the top, called by as many letters as its number plus one. -/
def topTag (n : Nat) : Entry Nat := ⟨n, [(none, List.replicate (n + 1) 'a')], false⟩

/-- The tags at the top, and one below the first of them. -/
def rake (tops parents : Nat) : List (Entry Nat) :=
  ⟨tops, (List.range parents).map fun n => (some n, ['x']), false⟩ :: (List.range tops).map topTag

theorem ordered_topTags (numbers : List Nat) (distinct : numbers.Nodup) :
    Ordered (numbers.map topTag) := by
  induction numbers with
  | nil => trivial
  | cons n numbers ih =>
      obtain ⟨new, distinct⟩ := List.nodup_cons.mp distinct
      refine ⟨by simpa [topTag] using new, fun position member => ?_,
        fun other member position inside => ?_, ih distinct⟩
      · cases List.mem_singleton.mp member
        simp [topTag]
      · obtain ⟨m, -, rfl⟩ := List.mem_map.mp member
        cases List.mem_singleton.mp inside
        simp

theorem ordered_rake {tops parents : Nat} (few : parents ≤ tops) : Ordered (rake tops parents) := by
  refine ⟨by simp [topTag], fun position member => ?_, fun other member position inside => ?_,
    ordered_topTags _ List.nodup_range⟩
  · obtain ⟨n, below, rfl⟩ := List.mem_map.mp member
    have := List.mem_range.mp below
    simp only [ne_eq, Option.some.injEq]
    exact ⟨by omega, by decide⟩
  · obtain ⟨m, -, rfl⟩ := List.mem_map.mp member
    cases List.mem_singleton.mp inside
    simp

theorem apart_rake (tops parents : Nat) : Apart (rake tops parents) := by
  intro first inFirst second inSecond position memFirst memSecond
  cases inFirst with
  | head =>
      obtain ⟨n, -, rfl⟩ := List.mem_map.mp memFirst
      cases inSecond with
      | head => rfl
      | tail _ inSecond =>
          obtain ⟨m, -, rfl⟩ := List.mem_map.mp inSecond
          exact absurd (List.mem_singleton.mp memSecond) (by simp)
  | tail _ inFirst =>
      obtain ⟨m, -, rfl⟩ := List.mem_map.mp inFirst
      cases List.mem_singleton.mp memFirst
      cases inSecond with
      | head =>
          obtain ⟨n, -, same⟩ := List.mem_map.mp memSecond
          exact absurd same (by simp)
      | tail _ inSecond =>
          obtain ⟨k, -, rfl⟩ := List.mem_map.mp inSecond
          have same := List.mem_singleton.mp memSecond
          have lengths := congrArg (fun position => position.2.length) same
          simpa [topTag] using lengths

theorem pathsWithin_topTags {numbers : List Nat} {n : Nat} (member : n ∈ numbers) :
    pathsWithin (numbers.map topTag) n = [List.replicate (n + 1) 'a'] := by
  induction numbers with
  | nil => cases member
  | cons m numbers ih =>
      rw [List.map_cons, pathsWithin]
      split
      · rename_i here
        cases here
        simp [topTag, collectPaths, pathsAt]
      · rename_i elsewhere
        cases member with
        | head => exact absurd rfl elsewhere
        | tail _ member => exact ih member

omit [DecidableEq Id] in
/-- Once there are as many paths as are listed, no more are collected. -/
theorem collectPaths_full (of : Id → List Path) (positions more : List (Option Id × List Char))
    (paths : List Path) (some_ : positions ≠ [])
    (full : MAX_PATHS ≤ (paths ++ positions.flatMap (pathsAt of)).length) :
    collectPaths of (positions ++ more) paths = collectPaths of positions paths := by
  induction positions generalizing paths with
  | nil => exact absurd rfl some_
  | cons position rest ih =>
      rw [List.flatMap_cons, ← List.append_assoc] at full
      rw [List.cons_append, collectPaths, collectPaths]
      split
      · rfl
      · rename_i room
        refine ih _ ?_ full
        rintro rfl
        simp only [List.flatMap_nil, List.append_nil] at full
        exact room full

theorem rake_positions {tops parents : Nat} (few : parents ≤ tops) :
    (((List.range parents).map fun n => (some n, ['x'])).flatMap
      (pathsAt (pathsWithin ((List.range tops).map topTag)))).length = parents := by
  rw [List.length_flatMap, List.map_map]
  have ones : ((List.range parents).map (List.length ∘ pathsAt (pathsWithin
      ((List.range tops).map topTag)) ∘ fun n => (some n, ['x']))) =
      (List.range parents).map fun _ => 1 := by
    refine List.map_congr_left fun n member => ?_
    have below : n ∈ List.range tops := by
      have := List.mem_range.mp member
      exact List.mem_range.mpr (by omega)
    simp [pathsAt, pathsWithin_topTags below]
  refine (congrArg List.sum ones).trans ?_
  simp

theorem pathsOf_rake {tops parents : Nat} (full : MAX_PATHS ≤ parents) (few : parents ≤ tops) :
    pathsOf (rake tops (parents + 1)) = pathsOf (rake tops parents) := by
  funext uuid
  unfold pathsOf
  congr 1
  rw [rake, rake, pathsWithin, pathsWithin]
  split
  · rw [List.range_succ, List.map_append]
    have some_ : (List.range parents).map (fun n => (some n, ['x'])) ≠ [] := by
      intro none
      have length := congrArg List.length none
      rw [List.length_map, List.length_range, List.length_nil] at length
      rw [length] at full
      exact absurd full (by decide)
    exact collectPaths_full _ _ _ _ some_
      (by rw [List.nil_append, rake_positions few]; exact full)
  · rfl

/-- The last of too many parents is not seen. -/
theorem load_rake {tops parents : Nat} (full : MAX_PATHS ≤ parents) (few : parents ≤ tops) :
    Vocab.load (rake tops (parents + 1)) = Vocab.load (rake tops parents) := by
  unfold Vocab.load
  rw [pathsOf_rake full few]
  simp only [rake, List.map_cons, List.filter_cons, Bool.false_eq_true, if_false]

theorem allPaths_topTags {numbers : List Nat} {n : Nat} :
    (allPaths (numbers.map topTag) n).length ≤ 1 := by
  induction numbers with
  | nil => simp [allPaths]
  | cons m numbers ih =>
      rw [List.map_cons, allPaths]
      split
      · simp [topTag, pathsAt]
      · exact ih

theorem mem_allPaths_topTags {numbers : List Nat} {n : Nat} (member : n ∈ numbers) :
    List.replicate (n + 1) 'a' ∈ allPaths (numbers.map topTag) n := by
  induction numbers with
  | nil => cases member
  | cons m numbers ih =>
      rw [List.map_cons, allPaths]
      split
      · rename_i here
        cases here
        simp [topTag, pathsAt]
      · rename_i elsewhere
        cases member with
        | head => exact absurd rfl elsewhere
        | tail _ member => exact ih member

theorem listed_rake {tops parents : Nat} (few : parents ≤ MAX_PATHS) :
    Listed (rake tops parents) := by
  intro uuid
  rw [rake, allPaths]
  split
  · rw [List.length_flatMap, List.map_map]
    refine (List.sum_le_card_nsmul _ 1 fun length member => ?_).trans (by simpa using few)
    obtain ⟨n, -, rfl⟩ := List.mem_map.mp member
    simpa [pathsAt] using allPaths_topTags
  · exact allPaths_topTags.trans (by decide)

theorem parent_rake {tops parents n : Nat} (below : n < parents) (few : parents ≤ tops) :
    Above (rake tops parents) n tops := by
  have inside : n ∈ List.range tops := List.mem_range.mpr (by omega)
  refine .single ⟨?_, _, List.mem_cons_self, rfl, ['x'],
    List.mem_map.mpr ⟨n, List.mem_range.mpr below, rfl⟩⟩
  have named : List.replicate (n + 1) 'a' ∈ allPaths (rake tops parents) n := by
    rw [rake, allPaths, if_neg (show tops ≠ n by omega)]
    exact mem_allPaths_topTags inside
  exact List.ne_nil_of_mem named

theorem of_above_rake {tops parents top bottom : Nat} (above : Above (rake tops parents) top bottom) :
    top < parents ∧ bottom = tops := by
  have step {par child : Nat} (parent : Parent (rake tops parents) par child) :
      par < parents ∧ child = tops := by
    obtain ⟨-, entry, inside, rfl, name, position⟩ := parent
    cases inside with
    | head =>
        obtain ⟨n, below, same⟩ := List.mem_map.mp position
        cases same
        exact ⟨List.mem_range.mp below, rfl⟩
    | tail _ inside =>
        obtain ⟨n, -, rfl⟩ := List.mem_map.mp inside
        exact absurd (List.mem_singleton.mp position) (by simp)
  induction above with
  | single parent => exact step parent
  | tail _ parent ih => exact ⟨ih.1, (step parent).2⟩

theorem deep_rake {tops parents : Nat} (some_ : 0 < parents) (few : parents ≤ tops) :
    ['a', '/', 'x'] ∈ allPaths (rake tops parents) tops := by
  rw [rake, allPaths, if_pos rfl]
  refine List.mem_flatMap.mpr ⟨(some 0, ['x']), List.mem_map.mpr ⟨0, by simpa using some_, rfl⟩, ?_⟩
  have top : ['a'] ∈ allPaths ((List.range tops).map topTag) 0 :=
    mem_allPaths_topTags (List.mem_range.mpr (by omega))
  exact List.mem_map.mpr ⟨['a'], top, rfl⟩

theorem fresh_rake {tops parents : Nat} (few : parents ≤ tops) :
    Fresh (fun n => tops + 1 + n) 0 (rake tops parents) := by
  refine ⟨fun first second same => by simpa using same, fun n _ inside => ?_,
    fun n _ entry inside position member same => ?_⟩
  · obtain ⟨entry, inside, same⟩ := List.mem_map.mp inside
    cases inside with
    | head =>
        have := show tops = tops + 1 + n from same
        omega
    | tail _ inside =>
        obtain ⟨m, below, rfl⟩ := List.mem_map.mp inside
        have := List.mem_range.mp below
        simp only [topTag] at same
        omega
  · cases inside with
    | head =>
        obtain ⟨m, below, rfl⟩ := List.mem_map.mp member
        have := List.mem_range.mp below
        simp only [Option.some.injEq] at same
        omega
    | tail _ inside =>
        obtain ⟨m, -, rfl⟩ := List.mem_map.mp inside
        cases List.mem_singleton.mp member
        exact nomatch same

/-- A tag below two others, added by its first path. -/
theorem answers_agree_rake :
    let fresh : Nat → Nat := fun n => 2 + 1 + n
    let store := apply fresh true .add ['a', '/', 'x'] ⟨rake 2 2, ⟨[], [], []⟩⟩
    store.refs.positive = [2] ∧ Consistent store.entries store.refs ∧
      apply fresh true .deny ['a', 'a'] (apply fresh true .deny ['a', 'a'] store) =
        apply fresh true .deny ['a', 'a'] store := by
  intro fresh store
  have begun : Reached (rake 2 2) ⟨rake 2 2, ⟨[], [], []⟩⟩ := .start
  have reached : Reached (rake 2 2) store :=
    begun.answer fresh (fresh_rake le_rfl) true .add ['a', '/', 'x']
  have agree := answers_agree (ordered_rake le_rfl) (apart_rake 2 2) (listed_rake (by decide)) reached
  exact ⟨by decide +kernel, agree.1, agree.2 fresh fresh true .deny ['a', 'a'] (fresh_rake le_rfl)⟩

theorem not_consistent {entries : List (Entry Id)} {refs : Refs Id} {top bottom : Id}
    (above : Above entries top bottom) (negative : top ∈ refs.get .negative)
    (positive : bottom ∈ refs.get .positive) : ¬Consistent entries refs :=
  fun consistent => (consistent.denied top negative bottom positive).2 above

/-- A tag with one parent more than its paths are listed, added and then denied by that parent. -/
theorem unlisted_parent : ∃ store : Store Nat, Ordered (rake 257 257) ∧ Apart (rake 257 257) ∧
    Reached (rake 257 257) store ∧ ¬Consistent store.entries store.refs := by
  have ordered : Ordered (rake 257 256) := ordered_rake (by decide)
  have sound : Sound (rake 257 256) := ⟨ordered, apart_rake 257 256, listed_rake le_rfl⟩
  have unseen : Vocab.load (rake 257 257) = Vocab.load (rake 257 256) :=
    load_rake le_rfl (by decide)
  have represents : Represents (Vocab.load (rake 257 256)) (rake 257 256) :=
    load_represents sound.ordered sound.apart sound.listed
  have deep : ['a', '/', 'x'] ∈ allPaths (rake 257 256) 257 := deep_rake (by decide) (by decide)
  have top : List.replicate (256 + 1) 'a' ∈ allPaths (rake 257 256) 256 := by
    rw [rake, allPaths, if_neg (by decide)]
    exact mem_allPaths_topTags (List.mem_range.mpr (by decide))
  have deepNamed : (Vocab.load (rake 257 257)).uuidOf ['a', '/', 'x'] = some 257 := by
    rw [unseen]
    exact (represents.names _ _).mpr deep
  have topNamed : (Vocab.load (rake 257 257)).uuidOf (List.replicate (256 + 1) 'a') = some 256 := by
    rw [unseen]
    exact (represents.names _ _).mpr top
  -- The tag is added by its first path.
  have added := apply_known (fun n => 257 + 1 + n) true .add
    (show normalize ['a', '/', 'x'] = some ['a', '/', 'x'] by decide) deepNamed ⟨[], [], []⟩
  -- Its last parent is denied.
  have denied (refs : Refs Nat) := apply_known (fun n => 257 + 1 + n) true .deny
    (show normalize (List.replicate (256 + 1) 'a') = some (List.replicate (256 + 1) 'a') by
      decide +kernel) topNamed refs
  rw [if_pos rfl, unseen] at added
  simp only [if_true, unseen] at denied
  have free : Fresh (fun n => 257 + 1 + n) 0 (rake 257 257) := fresh_rake le_rfl
  have begun : Reached (rake 257 257) ⟨rake 257 257, ⟨[], [], []⟩⟩ := .start
  have first := begun.answer (fun n => 257 + 1 + n) free true .add ['a', '/', 'x']
  rw [added] at first
  have second := first.answer (fun n => 257 + 1 + n) free true .deny (List.replicate (256 + 1) 'a')
  rw [denied] at second
  have above : Above (rake 257 257) 256 257 := parent_rake (by decide) le_rfl
  refine ⟨_, ordered_rake le_rfl, apart_rake 257 257, second, not_consistent above ?_ ?_⟩
  · refine (mem_deny represents sound top .negative).mpr ⟨.inr ⟨rfl, rfl⟩, fun above => ?_, by simp⟩
    exact absurd (of_above_rake above).1 (by decide)
  · refine (mem_deny represents sound top .positive).mpr ⟨.inl ?_, fun above => ?_, by simp⟩
    · refine (mem_add represents sound deep .positive).mpr ⟨.inr ⟨rfl, rfl⟩, fun _ => ⟨?_, ?_⟩,
        by simp⟩
      · exact fun above => absurd (of_above_rake above).1 (by decide)
      · exact fun excluded => excluded.2 (.inl rfl)
    · exact absurd (of_above_rake above).1 (by decide)

end Tags
end Metafolder
