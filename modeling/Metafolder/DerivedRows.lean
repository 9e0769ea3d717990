import Metafolder.Consistency
import Metafolder.DerivedKeys
import Mathlib.Algebra.BigOperators.Group.List.Basic

/-!
# What the rows derive

`Derives` says what the derived tables hold, the sets of descendants and the postings aside: each
count is the number of rows it counts, and each set has the dense ids of the metarecords whose rows
put them there.  A change of one row touches the sets and counts that row has a part in, and no
other.
-/

namespace Metafolder

namespace Primary

/-! ### Sums over the rows -/

/-- The rows held, each with its metarecord. -/
def held (store : Primary) : List (Uuid × FieldRow) :=
  store.cells.entries.map fun entry => (Uuid.ofBytes entry.1, entry.2)

/-- A sum over the rows held. -/
def total (store : Primary) (weight : Uuid → FieldRow → Nat) : Nat :=
  (store.held.map fun entry => weight entry.1 entry.2).sum

variable [Externals] {store after : Primary}

theorem Indexed.mem_held (indexed : store.Indexed) {uuid : Uuid} {row : FieldRow} :
    (uuid, row) ∈ store.held ↔ store.Holds uuid row := by
  simp only [held, List.mem_map, Prod.exists, Prod.mk.injEq, Table.mem_entries]
  constructor
  · rintro ⟨key, _, found, rfl, rfl⟩
    obtain ⟨owner, rfl⟩ := indexed.cell_keyed found
    rw [cellKey, cellPrefix, List.append_assoc, Uuid.ofBytes_append]
    exact found
  · intro holds
    refine ⟨_, row, holds, ?_, rfl⟩
    rw [cellKey, cellPrefix, List.append_assoc, Uuid.ofBytes_append]

theorem Indexed.nodup_held (indexed : store.Indexed) : store.held.Nodup := by
  refine List.Nodup.map_on ?_ store.cells.nodup_entries
  rintro ⟨keyFirst, first⟩ memberFirst ⟨keySecond, second⟩ memberSecond same
  rw [Table.mem_entries] at memberFirst memberSecond
  obtain ⟨ownerFirst, rfl⟩ := indexed.cell_keyed memberFirst
  obtain ⟨ownerSecond, rfl⟩ := indexed.cell_keyed memberSecond
  simp only [cellKey, cellPrefix, List.append_assoc, Uuid.ofBytes_append, Prod.mk.injEq] at same
  rw [same.1, same.2]

theorem total_congr_of_holds (indexed : store.Indexed) {first second : Uuid → FieldRow → Nat}
    (same : ∀ ⦃uuid row⦄, store.Holds uuid row → first uuid row = second uuid row) :
    store.total first = store.total second := by
  refine congrArg List.sum (List.map_congr_left ?_)
  rintro ⟨uuid, row⟩ member
  exact same (indexed.mem_held.mp member)

theorem total_pos (indexed : store.Indexed) {weight : Uuid → FieldRow → Nat} :
    0 < store.total weight ↔ ∃ uuid row, store.Holds uuid row ∧ 0 < weight uuid row := by
  rw [total, List.sum_pos_iff_exists_pos_nat]
  simp only [List.mem_map, Prod.exists, indexed.mem_held]
  constructor
  · rintro ⟨n, ⟨uuid, row, holds, rfl⟩, positive⟩
    exact ⟨uuid, row, holds, positive⟩
  · rintro ⟨uuid, row, holds, positive⟩
    exact ⟨_, ⟨uuid, row, holds, rfl⟩, positive⟩

theorem Inserted.held_perm {uuid : Uuid} {row : FieldRow} (inserted : store.Inserted uuid row after)
    (indexed : store.Indexed) (kept : after.Indexed) :
    after.held.Perm ((uuid, row.stored) :: store.held) := by
  refine (List.perm_ext_iff_of_nodup kept.nodup_held (List.nodup_cons.mpr ⟨?_, indexed.nodup_held⟩)).mpr ?_
  · rw [indexed.mem_held]
    exact fun holds => inserted.fresh holds rfl
  · rintro ⟨owner, held⟩
    rw [kept.mem_held, List.mem_cons, indexed.mem_held, inserted.holds_iff, Prod.mk.injEq]

theorem Deleted.held_perm {uuid : Uuid} {row : FieldRow} (deleted : store.Deleted uuid row after)
    (indexed : store.Indexed) (kept : after.Indexed) :
    store.held.Perm ((uuid, row) :: after.held) := by
  refine (List.perm_ext_iff_of_nodup indexed.nodup_held (List.nodup_cons.mpr ⟨?_, kept.nodup_held⟩)).mpr ?_
  · rw [kept.mem_held, deleted.holds_iff]
    exact fun holds => holds.2 rfl
  · rintro ⟨owner, held⟩
    rw [List.mem_cons, kept.mem_held, indexed.mem_held, deleted.holds_iff, Prod.mk.injEq]
    constructor
    · intro holds
      by_cases ids : held.id = row.id
      · exact .inl (indexed.holds_unique holds deleted.held ids)
      · exact .inr ⟨holds, ids⟩
    · rintro (⟨rfl, rfl⟩ | ⟨holds, -⟩)
      · exact deleted.held
      · exact holds

theorem Inserted.total {uuid : Uuid} {row : FieldRow} (inserted : store.Inserted uuid row after)
    (indexed : store.Indexed) (kept : after.Indexed) (weight : Uuid → FieldRow → Nat) :
    after.total weight = store.total weight + weight uuid row.stored := by
  have sums := ((inserted.held_perm indexed kept).map fun entry => weight entry.1 entry.2).sum_eq
  rw [List.map_cons, List.sum_cons, Nat.add_comm] at sums
  exact sums

theorem Deleted.total {uuid : Uuid} {row : FieldRow} (deleted : store.Deleted uuid row after)
    (indexed : store.Indexed) (kept : after.Indexed) (weight : Uuid → FieldRow → Nat) :
    store.total weight = after.total weight + weight uuid row := by
  have sums := ((deleted.held_perm indexed kept).map fun entry => weight entry.1 entry.2).sum_eq
  rw [List.map_cons, List.sum_cons, Nat.add_comm] at sums
  exact sums

/-- Two stores hold the same rows, one row aside, and the same metarecords. -/
structure Touched (store : Primary) (uuid : Uuid) (row : FieldRow) (after : Primary) : Prop where
  /-- The other rows stay. -/
  holds_iff : ∀ {owner held}, (owner, held) ≠ (uuid, row) →
    (after.Holds owner held ↔ store.Holds owner held)
  /-- The metarecords stay. -/
  metarecords_eq : after.metarecords = store.metarecords

theorem Inserted.touched {uuid : Uuid} {row : FieldRow} (inserted : store.Inserted uuid row after) :
    store.Touched uuid row.stored after := by
  refine ⟨fun other => ?_, inserted.metarecords_eq⟩
  rw [inserted.holds_iff, ← Prod.mk.injEq]
  simp [other]

theorem Deleted.touched {uuid : Uuid} {row : FieldRow} (deleted : store.Deleted uuid row after)
    (indexed : store.Indexed) : store.Touched uuid row after := by
  refine ⟨fun other => ?_, deleted.metarecords_eq⟩
  rw [deleted.holds_iff]
  refine and_iff_left_of_imp fun holds ids => other ?_
  obtain ⟨rfl, rfl⟩ := indexed.holds_unique holds deleted.held ids
  rfl

end Primary

/-- Whether a set is one of those each row change recomputes: neither of descendants nor a
posting. -/
def SetKey.Plain : SetKey → Prop
  | .descendants _ _ => False
  | .posting _ _ => False
  | _ => True

namespace Derived

variable [Externals]

/-! ### What is derived -/

/-- The entries of a row in the three partitions. -/
def partKeys (id : UInt32) (row : FieldRow) : List Bytes :=
  ((valueKey row.value).map fun key => partKey row.name valuePart key id).toList ++
    ((namePartKey row.value).map fun key => partKey row.name namePart key id).toList ++
      ((targetOf row.value).map fun target => partKey row.name targetPart target.bytes id).toList

/-- The entry of a row under its parent. -/
def kidKeys (id : UInt32) (row : FieldRow) : List Bytes :=
  (row.value.position.map fun held => kidsKey (held.1.getD Uuid.zero) row.name id).toList

/-- How often the rows of the metarecords with an id have an entry. -/
def countOf (derived : Derived) (keys : UInt32 → FieldRow → List Bytes) (key : Bytes)
    (uuid : Uuid) (row : FieldRow) : Nat :=
  match derived.id uuid with
  | some id => (keys id row).count key
  | none => 0

/-- The metarecords and the dense ids name each other. -/
structure Mapped (store : Primary) (derived : Derived) : Prop where
  /-- Every metarecord has a dense id, and nothing else does. -/
  ids_iff : ∀ key, (derived.ids.get key).isSome ↔ (store.metarecords.get key).isSome
  /-- The dense ids are read back. -/
  uuids_iff : ∀ {key uuid}, derived.uuids.get key = some uuid ↔
    ∃ id, derived.id uuid = some id ∧ key = be32 id
  /-- The next dense id is past them all. -/
  id_lt : ∀ {uuid id}, derived.id uuid = some id → (id.toNat : Int) < derived.nextId.toInt

/-- Whether a row puts its metarecord in a set of its field, by itself. -/
def Puts (row : FieldRow) : FieldKind → Prop
  | .present => row.value.isNothing = false
  | .absent => row.value.isNothing = true
  | .longTexts => ∃ text, searchText row.value = some text ∧ isSplit text = false
  | _ => False

/-- The metarecords of a set, the sets of descendants and the postings aside. -/
def InSet (store : Primary) (key : SetKey) (uuid : Uuid) : Prop :=
  match key with
  | .all => True
  | .ofField .multi field => ∃ first second, store.Holds uuid first ∧ store.Holds uuid second ∧
      first.name = field ∧ second.name = field ∧ first.value.isNothing = false ∧
        second.value.isNothing = false ∧ first ≠ second
  | .ofField .parents field => ∃ child row, store.Holds child row ∧ row.name = field ∧
      row.value.position.isSome ∧ targetOf row.value = some uuid
  | .ofField kind field => ∃ row, store.Holds uuid row ∧ row.name = field ∧ Puts row kind
  | .referrers field target => ∃ row, store.Holds uuid row ∧ row.name = field ∧
      targetOf row.value = some target
  | .descendants _ _ => False
  | .posting _ _ => False

/-- The metarecords holding a text with a trigram. -/
def InGram (store : Primary) (field : String) (gram : Bytes) (uuid : Uuid) : Prop :=
  ∃ row text, store.Holds uuid row ∧ row.name = field ∧ searchText row.value = some text ∧
    isSplit text = true ∧ gram ∈ trigrams text

/-- The keys of the trigrams are those of trigrams, and none is held by nothing. -/
def GramsKeyed (table : Table (Finset UInt32)) : Prop :=
  ∀ ⦃key ids⦄, table.get key = some ids →
    ids ≠ ∅ ∧ ∃ field gram, gram.length = 3 ∧ key = gramPrefix field gram

/-- The derived tables hold what the rows derive, the sets of descendants and the postings
aside. -/
structure Derives (store : Primary) (derived : Derived) : Prop extends Mapped store derived where
  /-- The partitions count the rows. -/
  parts : Tallies derived.parts fun key => store.total (derived.countOf partKeys key)
  /-- So do the children. -/
  kids : Tallies derived.kids fun key => store.total (derived.countOf kidKeys key)
  /-- The keys of the sets are those of sets, and no set is empty. -/
  set_keyed : SetsKeyed derived
  /-- The keys of the trigrams are those of trigrams, and none is held by nothing. -/
  gram_keyed : GramsKeyed derived.grams
  /-- A set has the ids of its metarecords. -/
  mem_set : ∀ {key id}, key.Plain → (id ∈ readSet derived.sets key.bytes ↔
    ∃ uuid, derived.id uuid = some id ∧ InSet store key uuid)
  /-- A trigram has the ids of the metarecords holding it. -/
  mem_gram : ∀ {field gram id}, id ∈ readSet derived.grams (gramPrefix field gram) ↔
    ∃ uuid, derived.id uuid = some id ∧ InGram store field gram uuid

/-! ### Counts -/

/-- The row of a metarecord counts for one, or no more, in every total. -/
def Counts (store : Primary) (uuid : Uuid) (row : FieldRow) (delta : Int64) (after : Primary) :
    Prop :=
  delta = 1 ∧ (∀ weight, after.total weight = store.total weight + weight uuid row) ∨
    delta = -1 ∧ ∀ weight, store.total weight = after.total weight + weight uuid row

omit [Externals] in
/-- Counts follow the rows. -/
theorem tallies_of_counts {store after : Primary} {derived : Derived}
    {keys : UInt32 → FieldRow → List Bytes} {table bumped : Table Int64} {uuid : Uuid}
    {row : FieldRow} {id : UInt32} {delta : Int64} (named : derived.id uuid = some id)
    (tallies : Tallies table fun key => store.total (derived.countOf keys key))
    (counts : Counts store uuid row delta after)
    (ran : (keys id row).foldlM (fun held key => bump held key delta) table = .ok bumped) :
    Tallies bumped fun key => after.total (derived.countOf keys key) := by
  have weight : ∀ key, derived.countOf keys key uuid row = (keys id row).count key := by
    intro key
    rw [countOf, named]
  obtain ⟨rfl, grows⟩ | ⟨rfl, shrinks⟩ := counts
  · refine (tallies_bumpEach tallies ran).congr fun key => ?_
    rw [grows, weight]
  · refine tallies_unbumpEach (tallies.congr fun key => ?_) ran
    rw [shrinks, weight]

/-! ### The steps of a row change -/

/-- What a value derives is what the value read back derives. -/
theorem deriveParts_stored (derived : Derived) (id : UInt32) (field : String) (value : Value)
    (delta : Int64) :
    derived.deriveParts id field value.stored delta = derived.deriveParts id field value delta := by
  simp only [deriveParts, valueKey_stored, namePartKey_stored, targetOf_stored]

omit [Externals] in
theorem deriveKids_stored (derived : Derived) (id : UInt32) (field : String) (value : Value)
    (delta : Int64) :
    derived.deriveKids id field value.stored delta = derived.deriveKids id field value delta := by
  unfold deriveKids
  rw [Value.position_stored]
  cases value.position with
  | none => rfl
  | some held =>
      dsimp only [Option.map_some]
      rw [storedParent_getD]

theorem deriveSets_stored (derived : Derived) (rows : List FieldRow) (id : UInt32)
    (field : String) (value : Value) :
    derived.deriveSets rows id field value.stored = derived.deriveSets rows id field value := by
  simp only [deriveSets, searchText_stored, targetOf_stored]

/-- Whether a set is a posting. -/
def IsPosting (key : SetKey) : Prop := ∃ field value, key = .posting field value

omit [Externals] in
theorem setsChanged_derivePosting (derived : Derived) (field : String) (key : Bytes) (id : UInt32) :
    SetsChanged IsPosting derived (derived.derivePosting field key id) := by
  have sorted : IsPosting (.posting field key) := ⟨field, key, rfl⟩
  unfold derivePosting
  dsimp only
  split
  · exact setsChanged_member derived sorted id _
  · split
    · exact setsChanged_apply derived sorted _ true
    · exact .refl _ _

/-- The three partitions are patched one after the other. -/
theorem deriveParts_eq_ok {derived after : Derived} {id : UInt32} {field : String} {value : Value}
    {delta : Int64} : derived.deriveParts id field value delta = .ok after ↔
      ∃ valued named targeted,
        (match valueKey value with
          | some key => do
              let parts ← bump derived.parts (partKey field valuePart key id) delta
              pure ({ derived with parts := parts }.derivePosting field key id)
          | none => pure derived : Outcome Derived) = .ok valued ∧
        ((namePartKey value).map fun key => partKey field namePart key id).toList.foldlM
          (fun held key => bump held key delta) valued.parts = .ok named ∧
        ((targetOf value).map fun target => partKey field targetPart target.bytes id).toList.foldlM
          (fun held key => bump held key delta) named = .ok targeted ∧
        { valued with parts := targeted } = after := by
  unfold deriveParts
  cases valueKey value <;> cases namePartKey value <;> cases targetOf value <;>
    simp

/-- The partitions count a row; only postings may change with them. -/
theorem deriveParts_spec {derived after : Derived} {id : UInt32} {row : FieldRow} {delta : Int64}
    (ran : derived.deriveParts id row.name row.value delta = .ok after) :
    (partKeys id row).foldlM (fun held key => bump held key delta) derived.parts = .ok after.parts ∧
      SetsChanged IsPosting { derived with parts := after.parts } after := by
  obtain ⟨valued, named, targeted, valuing, naming, targeting, rfl⟩ := deriveParts_eq_ok.mp ran
  have value_step : ((valueKey row.value).map fun key =>
      partKey row.name valuePart key id).toList.foldlM (fun held key => bump held key delta)
        derived.parts = .ok valued.parts ∧
      SetsChanged IsPosting { derived with parts := targeted }
        { valued with parts := targeted } := by
    split at valuing
    next key found =>
      simp only [Except.bind_eq_ok, Except.pure_eq_ok] at valuing
      obtain ⟨parts, bumped, rfl⟩ := valuing
      have changed := setsChanged_derivePosting { derived with parts := parts } row.name key id
      have parts_eq : (derivePosting { derived with parts := parts } row.name key id).parts =
          parts := by rw [changed.eq]
      refine ⟨?_, ⟨?_, changed.same, changed.keyed⟩⟩
      · rw [parts_eq, found]
        simpa using bumped
      · rw [changed.eq]
    next found =>
      rw [Except.pure_eq_ok] at valuing
      rw [found, valuing]
      exact ⟨rfl, .refl _ _⟩
  refine ⟨?_, value_step.2⟩
  rw [partKeys, List.foldlM_append, Except.bind_eq_ok]
  refine ⟨named, ?_, targeting⟩
  rw [List.foldlM_append, Except.bind_eq_ok]
  exact ⟨valued.parts, value_step.1, naming⟩

/-- Whether a row places its metarecord under another, the one with a dense id. -/
def Under (derived : Derived) (row : FieldRow) (target : Uuid) (pid : UInt32) : Prop :=
  row.value.position.isSome ∧ targetOf row.value = some target ∧ derived.id target = some pid

omit [Externals] in
/-- The children count a row; only its parent may join, or leave, the parents of its field. -/
theorem deriveKids_spec {derived after : Derived} {id : UInt32} {row : FieldRow} {delta : Int64}
    (ran : derived.deriveKids id row.name row.value delta = .ok after) :
    (kidKeys id row).foldlM (fun held key => bump held key delta) derived.kids = .ok after.kids ∧
      SetsChanged (· = .ofField .parents row.name) { derived with kids := after.kids } after ∧
      (∀ {target pid}, Under derived row target pid →
        (pid ∈ readSet after.sets (SetKey.ofField .parents row.name).bytes ↔
          0 < delta ∨ after.hasKids target row.name)) ∧
      ∀ {pid}, (∀ target, ¬Under derived row target pid) →
        (pid ∈ readSet after.sets (SetKey.ofField .parents row.name).bytes ↔
          pid ∈ readSet derived.sets (SetKey.ofField .parents row.name).bytes) := by
  unfold deriveKids at ran
  split at ran
  next absent =>
    rw [Except.pure_eq_ok] at ran
    subst ran
    refine ⟨by simp [kidKeys, absent], .refl _ _, fun under => ?_, fun _ => Iff.rfl⟩
    rw [Under, absent] at under
    simp at under
  next parent node placed =>
    simp only [Except.bind_eq_ok] at ran
    obtain ⟨kids, bumped, rest⟩ := ran
    have keys_eq : kidKeys id row = [kidsKey (parent.getD Uuid.zero) row.name id] := by
      simp [kidKeys, placed]
    have target_eq : targetOf row.value = some (parent.getD Uuid.zero) := by
      cases value : row.value <;> rw [value] at placed <;> simp_all [Value.position, targetOf]
    have folded : (kidKeys id row).foldlM (fun held key => bump held key delta) derived.kids =
        .ok kids := by
      rw [keys_eq]
      simpa using bumped
    split at rest
    next pid found =>
      rw [Except.pure_eq_ok] at rest
      subst rest
      refine ⟨folded, setsChanged_setMember { derived with kids := kids } .parents (by rfl) pid _,
        ?_, ?_⟩
      · rintro target other ⟨-, same, named⟩
        rw [target_eq, Option.some.injEq] at same
        subst same
        obtain rfl : pid = other := Option.some.inj (found.symm.trans named)
        refine (@mem_setMember _ .parents _ _ _ _ _).trans ?_
        rw [if_pos ⟨rfl, rfl⟩, decide_eq_true_iff]
        rfl
      · intro other outside
        refine (@mem_setMember _ .parents _ _ _ _ _).trans ?_
        rw [if_neg]
        rintro ⟨-, rfl⟩
        exact outside _ ⟨by rw [placed]; rfl, target_eq, found⟩
    next absent =>
      rw [Except.pure_eq_ok] at rest
      subst rest
      refine ⟨folded, .refl _ _, ?_, fun _ => Iff.rfl⟩
      rintro target other ⟨-, same, named⟩
      rw [target_eq, Option.some.injEq] at same
      subst same
      exact absurd (absent.symm.trans named) (by simp)

/-- The sets a row change recomputes for its metarecord. -/
def recomputed (field : String) (value : Value) : List SetKey :=
  [.ofField .present field, .ofField .absent field, .ofField .multi field] ++
    (if (searchText value).isSome then [.ofField .longTexts field] else []) ++
      ((targetOf value).map (SetKey.referrers field)).toList

/-- Whether a metarecord is in a set, read off its rows of the field. -/
def computed (rows : List FieldRow) : SetKey → Bool
  | .ofField .present _ => rows.any fun row => !row.value.isNothing
  | .ofField .absent _ => rows.any fun row => row.value.isNothing
  | .ofField .multi _ => 1 < (rows.filter fun row => !row.value.isNothing).length
  | .ofField .longTexts _ => (rows.filterMap fun row => searchText row.value).any fun text =>
      !isSplit text
  | .referrers _ target => rows.any fun row => targetOf row.value = some target
  | _ => false

theorem sets_deriveSets (derived : Derived) (rows : List FieldRow) (id : UInt32) (field : String)
    (value : Value) : (derived.deriveSets rows id field value).sets =
      (recomputed field value).foldl (fun table key =>
        chunkMember table key.bytes id (computed rows key)) derived.sets := by
  unfold deriveSets recomputed
  cases (searchText value).isSome <;> cases targetOf value <;> rfl

/-- The trigrams a value changes. -/
def changedGrams (value : Value) : List Bytes :=
  (((searchText value).filter isSplit).map trigrams).getD []

/-- The trigrams of the rows of a field. -/
def heldGrams (rows : List FieldRow) : List Bytes :=
  ((rows.filterMap fun row => searchText row.value).filter isSplit).flatMap trigrams

theorem grams_deriveSets (derived : Derived) (rows : List FieldRow) (id : UInt32) (field : String)
    (value : Value) : (derived.deriveSets rows id field value).grams =
      (changedGrams value).foldl (fun table gram =>
        chunkMember table (gramPrefix field gram) id (decide (gram ∈ heldGrams rows)))
          derived.grams := by
  unfold deriveSets changedGrams
  cases (searchText value).filter isSplit <;> cases (searchText value).isSome <;>
    cases targetOf value <;> rfl

theorem deriveSets_eq (derived : Derived) (rows : List FieldRow) (id : UInt32) (field : String)
    (value : Value) : derived.deriveSets rows id field value = { derived with
      sets := (derived.deriveSets rows id field value).sets
      grams := (derived.deriveSets rows id field value).grams } := by
  unfold deriveSets
  cases (searchText value).isSome <;> cases targetOf value <;> rfl

/-- Whether a set is one of descendants. -/
def IsDescendants (key : SetKey) : Prop := ∃ field node, key = .descendants field node

omit [Externals] in
theorem setsChanged_deriveDescendantsLoop {store : Primary} {field : String}
    {moving : Finset UInt32} {add : Bool} {fuel : Nat} {above : Option Uuid} {derived : Derived}
    {sets : Table (Finset UInt32)}
    (ran : deriveDescendantsLoop store field moving add fuel above derived.sets = .ok sets) :
    SetsChanged IsDescendants derived { derived with sets := sets } := by
  induction fuel generalizing above derived with
  | zero => simp [deriveDescendantsLoop] at ran
  | succ fuel ih =>
      cases above with
      | none =>
          rw [deriveDescendantsLoop, Except.pure_eq_ok] at ran
          rw [← ran]
          exact .refl _ _
      | some ancestor =>
          have sorted : IsDescendants (.descendants field ancestor) := ⟨field, ancestor, rfl⟩
          have one := setsChanged_apply derived sorted moving add
          exact one.trans (ih ran)

omit [Externals] in
theorem setsChanged_deriveForest {store : Primary} {derived after : Derived} {uuid : Uuid}
    {id : UInt32} {field : String} {value : Value} {delta : Int64}
    (ran : derived.deriveForest store uuid id field value delta = .ok after) :
    SetsChanged IsDescendants derived after := by
  unfold deriveForest at ran
  split at ran
  next parent node =>
    simp only [deriveDescendants, Except.bind_eq_ok, Except.pure_eq_ok] at ran
    obtain ⟨sets, walked, rfl⟩ := ran
    exact setsChanged_deriveDescendantsLoop walked
  next parent node =>
    unfold deriveHierarchy at ran
    dsimp only at ran
    split at ran
    · rw [Except.pure_eq_ok] at ran
      subst ran
      refine setsChanged_foldl _ derived fun held ancestor _ => ?_
      have sorted : IsDescendants (.descendants field ancestor) := ⟨field, ancestor, rfl⟩
      exact setsChanged_apply held sorted _ true
    · simp only [Except.bind_eq_ok, Except.pure_eq_ok] at ran
      obtain ⟨recomputed, -, rfl⟩ := ran
      refine setsChanged_foldl recomputed derived fun held now _ => ?_
      have sorted : IsDescendants (.descendants field now.1) := ⟨field, now.1, rfl⟩
      exact (setsChanged_apply held sorted _ false).trans
        (setsChanged_apply _ sorted _ true)
  next =>
    rw [Except.pure_eq_ok] at ran
    rw [← ran]
    exact .refl _ _

end Derived

end Metafolder
