import Metafolder.PrimaryInvariant

/-!
# What the primitives do to the rows

Inserting a row adds one row, under a fresh id, to a place of the forest nobody holds; deleting a
row takes that row away.  Each primitive keeps the tables consistent.
-/

namespace Metafolder

namespace Primary

/-! ### Row counts -/

/-- Every kept count is of a type that is not `Nothing`, and positive. -/
def CountKeyed (store : Primary) : Prop :=
  ∀ {key n}, store.fieldTypes.get key = some n →
    0 < n ∧ ∃ name valueType, valueType ≠ "nothing" ∧ key = typeKey name valueType

/-- The kept count of the rows of a type under a field. -/
def kept (store : Primary) (name valueType : String) : Int :=
  ((store.fieldTypes.get (typeKey name valueType)).getD 0).toInt

theorem encodeValue_valueType (value : Value) : (encodeValue value).valueType = value.typeStr := by
  cases value <;> rfl

/-- Counting touches the counts only. -/
theorem countType_eq {store counted : Primary} {name : String} {value : Value} {delta : Int64}
    (ran : store.countType name value delta = .ok counted) :
    counted = { store with fieldTypes := counted.fieldTypes } := by
  unfold countType at ran
  split at ran
  · rw [Except.pure_eq_ok] at ran
    rw [← ran]
  · obtain ⟨n, -, rest⟩ := Except.bind_eq_ok.mp ran
    split at rest <;> rw [Except.pure_eq_ok] at rest <;> rw [← rest]

theorem countType_keyed {store counted : Primary} {name : String} {value : Value} {delta : Int64}
    (keyed : store.CountKeyed) (ran : store.countType name value delta = .ok counted) :
    counted.CountKeyed := by
  unfold countType at ran
  split at ran
  · rw [Except.pure_eq_ok] at ran
    exact ran ▸ keyed
  · rename_i other
    obtain ⟨n, -, rest⟩ := Except.bind_eq_ok.mp ran
    intro key count present
    split at rest
    · rw [Except.pure_eq_ok] at rest
      subst rest
      rw [Table.get_delete] at present
      split at present
      · simp at present
      · exact keyed present
    · rename_i positive
      rw [Except.pure_eq_ok] at rest
      subst rest
      rw [Table.get_put] at present
      split at present
      · rename_i same
        rw [Option.some.injEq] at present
        subst present same
        refine ⟨Int64.not_le.mp positive, name, value.typeStr, ?_, by rw [encodeValue_valueType]⟩
        rwa [ne_eq, Value.typeStr_eq_nothing_iff, ← Value.isNothing_iff]
      · exact keyed present

theorem kept_countType {store counted : Primary} {name : String} {value : Value} {delta : Int64}
    (ran : store.countType name value delta = .ok counted)
    (enough : 0 ≤ store.kept name value.typeStr + delta.toInt) (field valueType : String)
    (other : valueType ≠ "nothing") :
    counted.kept field valueType =
      store.kept field valueType +
        if name = field ∧ value.typeStr = valueType then delta.toInt else 0 := by
  unfold countType at ran
  split at ran
  · rename_i nothing
    rw [Value.isNothing_iff] at nothing
    have differ : ¬(name = field ∧ value.typeStr = valueType) := by
      rintro ⟨-, rfl⟩
      exact other (by rw [nothing]; rfl)
    rw [Except.pure_eq_ok] at ran
    simp [← ran, differ]
  · obtain ⟨n, added, rest⟩ := Except.bind_eq_ok.mp ran
    have sum := toInt_addInt64 added
    rw [encodeValue_valueType] at sum rest
    have total : n.toInt = store.kept name value.typeStr + delta.toInt := sum
    split at rest
    · rename_i small
      rw [Except.pure_eq_ok] at rest
      subst rest
      have none_left : n.toInt = 0 := by
        have bound := Int64.le_iff_toInt_le.mp small
        simp only [Int64.toInt_zero] at bound
        omega
      by_cases same : name = field ∧ value.typeStr = valueType
      · obtain ⟨rfl, rfl⟩ := same
        simp only [kept, Table.get_delete_self, and_self, if_true] at total ⊢
        rw [← total, none_left]
        rfl
      · have differ : typeKey name value.typeStr ≠ typeKey field valueType := by
          rwa [ne_eq, typeKey_inj]
        simp [kept, Table.get_delete_of_ne _ differ, same]
    · rw [Except.pure_eq_ok] at rest
      subst rest
      by_cases same : name = field ∧ value.typeStr = valueType
      · obtain ⟨rfl, rfl⟩ := same
        simp only [kept, Table.get_put_self, and_self, if_true] at total ⊢
        exact total
      · have differ : typeKey name value.typeStr ≠ typeKey field valueType := by
          rwa [ne_eq, typeKey_inj]
        simp [kept, Table.get_put_of_ne _ _ differ, same]

/-! ### The counter -/

theorem addInt64_one_lt {n bumped : Int64} (added : addInt64 n 1 = .ok bumped) : n < bumped := by
  have sum := toInt_addInt64 added
  rw [Int64.lt_iff_toInt_lt, sum]
  have one : (1 : Int64).toInt = 1 := rfl
  omega

/-- Allocating an id moves the counter past it, and touches nothing else. -/
theorem allocate_spec {store allocated : Primary} {given : Option Int64} {id : Int64}
    (ran : store.allocate given = .ok (id, allocated)) :
    allocated = { store with nextRow := allocated.nextRow } ∧
      store.nextRow ≤ allocated.nextRow ∧ id < allocated.nextRow ∧
      (given = none ∧ id = store.nextRow ∨
        given = some id ∧ store.rowOwner.get (be id) = none) := by
  cases given with
  | none =>
      simp only [allocate, next, Except.bind_eq_ok, Except.pure_eq_ok, Prod.mk.injEq] at ran
      obtain ⟨bumped, added, rfl, rfl⟩ := ran
      have past := addInt64_one_lt added
      exact ⟨rfl, Int64.le_of_lt past, past, .inl ⟨rfl, rfl⟩⟩
  | some given =>
      simp only [allocate] at ran
      split at ran
      · simp at ran
      · rename_i absent
        simp only [Option.not_isSome_iff_eq_none] at absent
        simp only [Except.bind_eq_ok, Except.pure_eq_ok, Prod.mk.injEq] at ran
        obtain ⟨moved, bumping, rfl, rfl⟩ := ran
        unfold bumpPast at bumping
        split at bumping
        · rename_i reached
          simp only [Except.bind_eq_ok, Except.pure_eq_ok] at bumping
          obtain ⟨bumped, added, rfl⟩ := bumping
          have past := addInt64_one_lt added
          exact ⟨rfl, Int64.le_trans reached (Int64.le_of_lt past), past, .inr ⟨rfl, absent⟩⟩
        · rename_i beyond
          rw [Except.pure_eq_ok] at bumping
          subst bumping
          exact ⟨rfl, Int64.le_refl _, Int64.not_le.mp beyond, .inr ⟨rfl, absent⟩⟩

/-! ### Inserting and deleting rows -/

/-- How many rows of a type under a field one row is. -/
def weight (row : FieldRow) (name valueType : String) : Nat :=
  if row.name = name ∧ row.value.typeStr = valueType then 1 else 0

theorem typeCount_put {store : Primary} {key : Bytes} (row : FieldRow)
    (absent : store.cells.get key = none) (name valueType : String) :
    ({ store with cells := store.cells.put key row } : Primary).typeCount name valueType =
      store.typeCount name valueType + weight row name valueType := by
  rw [typeCount, (Table.entries_put_perm _ _ absent).countP_eq, List.countP_cons]
  simp [typeCount, weight]

theorem typeCount_delete {store : Primary} {key : Bytes} {row : FieldRow}
    (present : store.cells.get key = some row) (name valueType : String) :
    store.typeCount name valueType =
      ({ store with cells := store.cells.delete key } : Primary).typeCount name valueType +
        weight row name valueType := by
  rw [typeCount, (Table.entries_delete_perm _ present).countP_eq, List.countP_cons]
  simp [typeCount, weight]

variable [Externals]

/-- What inserting a row does: one more row, under a fresh id, in a free place of the forest. -/
structure Inserted (store : Primary) (uuid : Uuid) (row : FieldRow) (after : Primary) : Prop where
  /-- The rows are those held before, and the new one. -/
  holds_iff : ∀ {owner held}, after.Holds owner held ↔
    (owner = uuid ∧ held = row.stored) ∨ store.Holds owner held
  /-- No row had the new row's id. -/
  fresh : ∀ {owner held}, store.Holds owner held → held.id ≠ row.id
  /-- The metarecords and their versions stay. -/
  metarecords_eq : after.metarecords = store.metarecords
  /-- The row's metarecord exists. -/
  owner_exists : (store.version uuid).isSome
  /-- No row held the new row's place in the forest. -/
  unoccupied : ∀ {owner held key}, store.Holds owner held →
    forestKey row.name row.value = some key → forestKey held.name held.value ≠ some key
  /-- A metarecord has one path. -/
  single_path : row.name = "mfr_path" → ∀ {held}, store.Holds uuid held → held.name ≠ "mfr_path"
  /-- The row counter does not go back. -/
  nextRow_le : store.nextRow ≤ after.nextRow
  /-- The row counter is past the new row. -/
  id_lt : row.id < after.nextRow

/-- What deleting a row does: that row is gone. -/
structure Deleted (store : Primary) (uuid : Uuid) (row : FieldRow) (after : Primary) : Prop where
  /-- The row was there. -/
  held : store.Holds uuid row
  /-- The rows are those held before, but for it. -/
  holds_iff : ∀ {owner held}, after.Holds owner held ↔ store.Holds owner held ∧ held.id ≠ row.id
  /-- The metarecords and their versions stay. -/
  metarecords_eq : after.metarecords = store.metarecords
  /-- The row counter stays. -/
  nextRow_eq : after.nextRow = store.nextRow

theorem holds_putRow {store : Primary} {uuid : Uuid} {row : FieldRow} {owner : Uuid}
    {held : FieldRow} (fresh : ∀ {owner held}, store.Holds owner held → held.id ≠ row.id) :
    (store.putRow uuid row).Holds owner held ↔
      (owner = uuid ∧ held = row.stored) ∨ store.Holds owner held := by
  simp only [Holds, putRow, Table.get_put]
  constructor
  · intro found
    split at found
    · rename_i same
      rw [cellKey_inj] at same
      exact .inl ⟨same.1.symm, (Option.some.inj found).symm⟩
    · exact .inr found
  · rintro (⟨rfl, rfl⟩ | holds)
    · simp
    · have differ : cellKey uuid row.name row.id ≠ cellKey owner held.name held.id := by
        rw [ne_eq, cellKey_inj]
        rintro ⟨-, -, ids⟩
        exact fresh holds ids.symm
      rwa [if_neg differ]

theorem Indexed.holds_dropRow {store : Primary} (indexed : store.Indexed) {uuid : Uuid}
    {row : FieldRow} (present : store.Holds uuid row) {owner : Uuid} {held : FieldRow} :
    (store.dropRow uuid row).Holds owner held ↔ store.Holds owner held ∧ held.id ≠ row.id := by
  simp only [Holds, dropRow, Table.get_delete]
  constructor
  · intro found
    split at found
    · simp at found
    · rename_i differ
      refine ⟨found, fun ids => differ ?_⟩
      obtain ⟨rfl, rfl⟩ := indexed.holds_unique found present ids
      rfl
  · rintro ⟨holds, ids⟩
    have differ : cellKey uuid row.name row.id ≠ cellKey owner held.name held.id := by
      rw [ne_eq, cellKey_inj]
      rintro ⟨-, -, same⟩
      exact ids same.symm
    rwa [if_neg differ]

/-- The row written to the four tables keeps them in agreement. -/
theorem Indexed.putRow {store : Primary} (indexed : store.Indexed) {uuid : Uuid} {row : FieldRow}
    (fresh : ∀ {owner held}, store.Holds owner held → held.id ≠ row.id)
    (exist : (store.version uuid).isSome) (below : row.id < store.nextRow)
    (unoccupied : ∀ {owner held key}, store.Holds owner held →
      forestKey row.name row.value = some key → forestKey held.name held.value ≠ some key) :
    (store.putRow uuid row).Indexed where
  cell_keyed := by
    intro key held found
    simp only [Primary.putRow, Table.get_put] at found
    split at found
    · rename_i same
      rw [Option.some.injEq] at found
      subst found same
      exact ⟨uuid, rfl⟩
    · exact indexed.cell_keyed found
  owner_iff := by
    intro key front
    simp only [holds_putRow fresh]
    simp only [Primary.putRow, Table.get_put]
    constructor
    · intro found
      split at found
      · rename_i same
        rw [Option.some.injEq] at found
        exact ⟨uuid, row.stored, .inl ⟨rfl, rfl⟩, same.symm, found.symm⟩
      · obtain ⟨owner, held, holds, rfl, rfl⟩ := indexed.owner_iff.mp found
        exact ⟨owner, held, .inr holds, rfl, rfl⟩
    · rintro ⟨owner, held, ⟨rfl, rfl⟩ | holds, rfl, rfl⟩
      · simp
      · have differ : be row.id ≠ be held.id := by
          rw [ne_eq, be_inj]
          exact (fresh holds).symm
        rw [if_neg differ]
        exact indexed.owner_iff.mpr ⟨owner, held, holds, rfl, rfl⟩
  field_iff := by
    intro key owner
    simp only [holds_putRow fresh]
    simp only [Primary.putRow, Table.get_put]
    constructor
    · intro found
      split at found
      · rename_i same
        rw [Option.some.injEq] at found
        exact ⟨row.stored, .inl ⟨found.symm, rfl⟩, same.symm⟩
      · obtain ⟨held, holds, rfl⟩ := indexed.field_iff.mp found
        exact ⟨held, .inr holds, rfl⟩
    · rintro ⟨held, ⟨rfl, rfl⟩ | holds, rfl⟩
      · simp
      · have differ : fieldKey row.name row.id ≠ fieldKey held.name held.id := by
          rw [ne_eq, fieldKey_inj]
          rintro ⟨-, ids⟩
          exact fresh holds ids.symm
        rw [if_neg differ]
        exact indexed.field_iff.mpr ⟨held, holds, rfl⟩
  forest_iff := by
    intro key owner id
    simp only [holds_putRow fresh]
    have old : store.forest.get key = some (owner, id) ↔ ∃ held, store.Holds owner held ∧
        held.id = id ∧ forestKey held.name held.value = some key := indexed.forest_iff
    have new : forestKey row.stored.name row.stored.value = forestKey row.name row.value :=
      forestKey_stored row.name row.value
    simp only [Primary.putRow]
    cases place : forestKey row.name row.value with
    | none =>
        simp only [old]
        constructor
        · rintro ⟨held, holds, rest⟩
          exact ⟨held, .inr holds, rest⟩
        · rintro ⟨held, ⟨rfl, rfl⟩ | holds, rest⟩
          · rw [new, place] at rest
            simp at rest
          · exact ⟨held, holds, rest⟩
    | some mine =>
        simp only [Table.get_put]
        constructor
        · intro found
          split at found
          · rename_i same
            rw [Option.some.injEq, Prod.mk.injEq] at found
            obtain ⟨rfl, rfl⟩ := found
            exact ⟨row.stored, .inl ⟨rfl, rfl⟩, rfl, by rw [new, place, same]⟩
          · obtain ⟨held, holds, rest⟩ := old.mp found
            exact ⟨held, .inr holds, rest⟩
        · rintro ⟨held, ⟨rfl, rfl⟩ | holds, rfl, keyed⟩
          · rw [new, place, Option.some.injEq] at keyed
            simp [keyed]
          · have differ : mine ≠ key := by
              rintro rfl
              exact unoccupied holds place keyed
            rw [if_neg differ]
            exact indexed.forest_iff.mpr ⟨held, holds, rfl, keyed⟩
  owner_exists := by
    intro owner held holds
    rcases (holds_putRow fresh).mp holds with ⟨rfl, -⟩ | holds
    · exact exist
    · exact indexed.owner_exists holds
  stored := by
    intro owner held holds
    rcases (holds_putRow fresh).mp holds with ⟨-, rfl⟩ | holds
    · exact FieldRow.stored_stored row
    · exact indexed.stored holds
  metarecord_keyed := indexed.metarecord_keyed
  id_lt := by
    intro owner held holds
    rcases (holds_putRow fresh).mp holds with ⟨-, rfl⟩ | holds
    · exact below
    · exact indexed.id_lt holds

/-- The row taken from the four tables leaves them in agreement. -/
theorem Indexed.dropRow {store : Primary} (indexed : store.Indexed) {uuid : Uuid} {row : FieldRow}
    (present : store.Holds uuid row) : (store.dropRow uuid row).Indexed where
  cell_keyed := by
    intro key held found
    simp only [Primary.dropRow, Table.get_delete] at found
    split at found
    · simp at found
    · exact indexed.cell_keyed found
  owner_iff := by
    intro key front
    simp only [indexed.holds_dropRow present]
    simp only [Primary.dropRow, Table.get_delete]
    constructor
    · intro found
      split at found
      · simp at found
      · rename_i differ
        obtain ⟨owner, held, holds, rfl, rfl⟩ := indexed.owner_iff.mp found
        exact ⟨owner, held, ⟨holds, fun ids => differ (by rw [ids])⟩, rfl, rfl⟩
    · rintro ⟨owner, held, ⟨holds, ids⟩, rfl, rfl⟩
      have differ : be row.id ≠ be held.id := by
        rw [ne_eq, be_inj]
        exact ids.symm
      rw [if_neg differ]
      exact indexed.owner_iff.mpr ⟨owner, held, holds, rfl, rfl⟩
  field_iff := by
    intro key owner
    simp only [indexed.holds_dropRow present]
    simp only [Primary.dropRow, Table.get_delete]
    constructor
    · intro found
      split at found
      · simp at found
      · rename_i differ
        obtain ⟨held, holds, rfl⟩ := indexed.field_iff.mp found
        refine ⟨held, ⟨holds, fun ids => differ ?_⟩, rfl⟩
        rw [(indexed.holds_unique holds present ids).2]
    · rintro ⟨held, ⟨holds, ids⟩, rfl⟩
      have differ : fieldKey row.name row.id ≠ fieldKey held.name held.id := by
        rw [ne_eq, fieldKey_inj]
        rintro ⟨-, same⟩
        exact ids same.symm
      rw [if_neg differ]
      exact indexed.field_iff.mpr ⟨held, holds, rfl⟩
  forest_iff := by
    intro key owner id
    simp only [indexed.holds_dropRow present]
    simp only [Primary.dropRow]
    cases place : forestKey row.name row.value with
    | none =>
        simp only [indexed.forest_iff]
        constructor
        · rintro ⟨held, holds, rfl, keyed⟩
          refine ⟨held, ⟨holds, fun ids => ?_⟩, rfl, keyed⟩
          rw [(indexed.holds_unique holds present ids).2, place] at keyed
          simp at keyed
        · rintro ⟨held, ⟨holds, -⟩, rest⟩
          exact ⟨held, holds, rest⟩
    | some mine =>
        simp only [Table.get_delete]
        constructor
        · intro found
          split at found
          · simp at found
          · rename_i differ
            obtain ⟨held, holds, rfl, keyed⟩ := indexed.forest_iff.mp found
            refine ⟨held, ⟨holds, fun ids => differ ?_⟩, rfl, keyed⟩
            rw [(indexed.holds_unique holds present ids).2, place, Option.some.injEq] at keyed
            exact keyed
        · rintro ⟨held, ⟨holds, ids⟩, rfl, keyed⟩
          have differ : mine ≠ key := by
            rintro rfl
            exact ids (congrArg FieldRow.id (indexed.forest_unique holds present keyed place).2)
          rw [if_neg differ]
          exact indexed.forest_iff.mpr ⟨held, holds, rfl, keyed⟩
  owner_exists := by
    intro owner held holds
    exact indexed.owner_exists ((indexed.holds_dropRow present).mp holds).1
  stored := by
    intro owner held holds
    exact indexed.stored ((indexed.holds_dropRow present).mp holds).1
  metarecord_keyed := indexed.metarecord_keyed
  id_lt := by
    intro owner held holds
    exact indexed.id_lt ((indexed.holds_dropRow present).mp holds).1

/-- Counting leaves the rows, the metarecords and the counter as they are. -/
theorem Indexed.of_countType {store counted : Primary} {name : String} {value : Value}
    {delta : Int64} (indexed : store.Indexed)
    (ran : store.countType name value delta = .ok counted) : counted.Indexed := by
  rw [countType_eq ran]
  exact { indexed with }

omit [Externals] in
/-- Counts brought up to date for a row that came or went are exact again. -/
theorem counted_of_countType {store counted : Primary} (row : FieldRow) {delta : Int64}
    (keyed : store.CountKeyed)
    (off : ∀ name valueType, valueType ≠ "nothing" →
      store.kept name valueType + delta.toInt * weight row name valueType =
        store.typeCount name valueType)
    (ran : store.countType row.name row.value delta = .ok counted) : counted.Counted := by
  refine ⟨countType_keyed keyed ran, fun name valueType other => ?_⟩
  have cells : counted.typeCount name valueType = store.typeCount name valueType := by
    rw [countType_eq ran]
    rfl
  change counted.kept name valueType = _
  rw [cells, ← off name valueType other]
  by_cases nothing : row.value = .nothing
  · have differ : weight row name valueType = 0 := by
      rw [weight, if_neg]
      rintro ⟨-, rfl⟩
      exact other (by rw [nothing]; rfl)
    have same : counted = store := by
      rw [countType, nothing] at ran
      exact (Except.pure_eq_ok.mp ran).symm
    simp [same, differ]
  · have typed : row.value.typeStr ≠ "nothing" := by
      rwa [ne_eq, Value.typeStr_eq_nothing_iff]
    have enough : 0 ≤ store.kept row.name row.value.typeStr + delta.toInt := by
      have mine := off row.name row.value.typeStr typed
      simp only [weight, and_self, if_true] at mine
      omega
    rw [kept_countType ran enough name valueType other, weight]
    split <;> simp

omit [Externals] in
theorem weight_stored (row : FieldRow) (name valueType : String) :
    weight row.stored name valueType = weight row name valueType := by
  simp [weight]

theorem Consistent.fresh_of_allocate {store allocated : Primary} (consistent : store.Consistent)
    {given : Option Int64} {id : Int64} (ran : store.allocate given = .ok (id, allocated))
    {owner : Uuid} {held : FieldRow} (holds : store.Holds owner held) : held.id ≠ id := by
  obtain ⟨-, -, -, ⟨-, rfl⟩ | ⟨-, absent⟩⟩ := allocate_spec ran
  · exact Int64.ne_of_lt (consistent.id_lt holds)
  · rintro rfl
    have owned := consistent.owner_iff.mpr ⟨owner, held, holds, rfl, rfl⟩
    rw [absent] at owned
    simp at owned

/-- `insert_row` adds its row to consistent tables and leaves them consistent. -/
theorem insertRow_spec {store after : Primary} (consistent : store.Consistent) {uuid : Uuid}
    {name : String} {value : Value} {given : Option Int64} {id : Int64}
    (ran : store.insertRow uuid name value given = .ok (id, after)) :
    after.Consistent ∧ store.Inserted uuid ⟨id, name, value⟩ after ∧
      (given = none ∧ id = store.nextRow ∨ given = some id) := by
  simp only [insertRow, Except.bind_eq_ok, Except.pure_eq_ok, Prod.exists, Prod.mk.injEq,
    refuseIf_eq_ok, exists_const, not_and, not_not] at ran
  obtain ⟨exist, path, free, newId, allocated, allocating, counted, counting, rfl, rfl⟩ := ran
  have exist : (store.version uuid).isSome := Option.ne_none_iff_isSome.mp exist
  have vacant : ∀ {key}, forestKey name value = some key → store.forest.get key = none := by
    intro key place
    rwa [place, Option.bind_some] at free
  obtain ⟨allocated_eq, nextRow_le, id_lt, origin⟩ := allocate_spec allocating
  have fresh : ∀ {owner held}, store.Holds owner held → held.id ≠ newId :=
    fun holds => consistent.fresh_of_allocate allocating holds
  have unoccupied : ∀ {owner held key}, store.Holds owner held →
      forestKey name value = some key → forestKey held.name held.value ≠ some key := by
    intro owner held key holds place keyed
    have entry := consistent.forest_iff.mpr ⟨held, holds, rfl, keyed⟩
    rw [vacant place] at entry
    simp at entry
  have below : allocated.Indexed := by
    rw [allocated_eq]
    exact { consistent.toIndexed with
      id_lt := fun holds => Int64.lt_of_lt_of_le (consistent.id_lt holds) nextRow_le }
  have holds_eq : ∀ {owner held}, allocated.Holds owner held ↔ store.Holds owner held := by
    rw [allocated_eq]
    exact Iff.rfl
  have version_eq : allocated.version uuid = store.version uuid := by
    rw [allocated_eq]
    rfl
  have placed : (allocated.putRow uuid ⟨newId, name, value⟩).Indexed := by
    refine below.putRow ?_ (version_eq ▸ exist) id_lt ?_
    · exact fun holds => fresh (holds_eq.mp holds)
    · exact fun holds => unoccupied (holds_eq.mp holds)
  have absent : store.cells.get (cellKey uuid name newId) = none := by
    cases read : store.cells.get (cellKey uuid name newId) with
    | none => rfl
    | some held =>
        obtain ⟨owner, same⟩ := consistent.cell_keyed read
        have ids := cellKey_inj.mp same
        have holds : store.Holds owner held := by rwa [same] at read
        exact absurd ids.2.2.symm (fresh holds)
  have tallied : counted.Counted := by
    refine counted_of_countType ⟨newId, name, value⟩ ?_ ?_ counting
    · rw [allocated_eq]
      exact consistent.count_keyed
    · intro field valueType other
      have before := consistent.count_eq field valueType other
      have grown := typeCount_put (FieldRow.stored ⟨newId, name, value⟩) absent field valueType
      rw [weight_stored] at grown
      have same : (allocated.putRow uuid ⟨newId, name, value⟩).typeCount field valueType =
          store.typeCount field valueType + weight ⟨newId, name, value⟩ field valueType := by
        rw [← grown, allocated_eq]
        rfl
      have kept_eq : (allocated.putRow uuid ⟨newId, name, value⟩).kept field valueType =
          store.kept field valueType := by
        rw [allocated_eq]
        rfl
      have one : (1 : Int64).toInt = 1 := rfl
      rw [same, kept_eq, one]
      change store.kept field valueType = _ at before
      omega
  refine ⟨⟨placed.of_countType counting, tallied⟩, ?_, ?_⟩
  · have counted_eq := countType_eq counting
    constructor
    · intro owner held
      rw [counted_eq, ← holds_eq]
      exact holds_putRow fun holds => fresh (holds_eq.mp holds)
    · exact fresh
    · rw [counted_eq, allocated_eq]
      rfl
    · exact exist
    · exact unoccupied
    · rintro rfl held holds named
      have member := consistent.mem_rowsNamed.mpr ⟨holds, named⟩
      simp [path rfl] at member
    · rw [counted_eq]
      exact nextRow_le
    · rw [counted_eq]
      exact id_lt
  · rcases origin with origin | ⟨rfl, -⟩
    · exact .inl origin
    · exact .inr rfl

/-- `delete_row` takes its row, if it is there, from consistent tables. -/
theorem deleteRow_spec {store after : Primary} (consistent : store.Consistent) {id : Int64}
    {removed : Option (Uuid × FieldRow)} (ran : store.deleteRow id = .ok (removed, after)) :
    after.Consistent ∧
      ((removed = none ∧ after = store ∧ ∀ {owner held}, store.Holds owner held → held.id ≠ id) ∨
        ∃ owner row, removed = some (owner, row) ∧ row.id = id ∧ store.Deleted owner row after) := by
  unfold deleteRow at ran
  cases read : store.row id with
  | none =>
      simp only [read, Except.pure_eq_ok, Prod.mk.injEq] at ran
      obtain ⟨rfl, rfl⟩ := ran
      exact ⟨consistent, .inl ⟨rfl, rfl, fun holds =>
        consistent.row_eq_none_iff.mp read _ _ holds⟩⟩
  | some found =>
      obtain ⟨owner, row⟩ := found
      obtain ⟨present, rfl⟩ := consistent.row_eq_some_iff.mp read
      simp only [read, Except.bind_eq_ok, Except.pure_eq_ok, Prod.mk.injEq] at ran
      obtain ⟨counted, counting, rfl, rfl⟩ := ran
      have counted_eq := countType_eq counting
      have dropped := consistent.toIndexed.dropRow present
      have tallied : counted.Counted := by
        have keyed : (store.dropRow owner row).CountKeyed := consistent.count_keyed
        refine counted_of_countType row keyed ?_ counting
        intro field valueType other
        have before := consistent.count_eq field valueType other
        have shrunk := typeCount_delete present field valueType
        have same : (store.dropRow owner row).typeCount field valueType =
            ({ store with cells := store.cells.delete (cellKey owner row.name row.id) } :
              Primary).typeCount field valueType := rfl
        have kept_eq : (store.dropRow owner row).kept field valueType =
            store.kept field valueType := rfl
        have minus : (-1 : Int64).toInt = -1 := rfl
        change store.kept field valueType = _ at before
        rw [kept_eq, same, minus]
        omega
      refine ⟨⟨dropped.of_countType counting, tallied⟩, .inr ⟨owner, row, rfl, rfl, ?_⟩⟩
      constructor
      · exact present
      · intro other held
        rw [counted_eq]
        exact consistent.toIndexed.holds_dropRow present
      · rw [counted_eq]
        rfl
      · rw [counted_eq]
        rfl

/-! ### Metarecords -/

omit [Externals] in
theorem version_put {store : Primary} {uuid owner : Uuid} {version : UInt64} :
    ({ store with metarecords := store.metarecords.put uuid.bytes version } : Primary).version owner
      = if uuid = owner then some version else store.version owner := by
  have keys : uuid.bytes = owner.bytes ↔ uuid = owner := ⟨Uuid.ext, fun same => by rw [same]⟩
  simp only [Primary.version, Table.get_put, keys]

/-- A version written for a metarecord, existing or not, leaves the rows as they are. -/
theorem Consistent.put_metarecord {store : Primary} (consistent : store.Consistent) (uuid : Uuid)
    (version : UInt64) :
    ({ store with metarecords := store.metarecords.put uuid.bytes version } :
      Primary).Consistent where
  toCounted := { consistent.toCounted with }
  toIndexed :=
    { consistent.toIndexed with
      owner_exists := by
        intro owner row holds
        rw [version_put]
        split
        · rfl
        · exact consistent.owner_exists holds
      metarecord_keyed := by
        intro key held found
        simp only [Table.get_put] at found
        split at found
        · rename_i same
          exact ⟨uuid, same.symm⟩
        · exact consistent.metarecord_keyed found }

theorem Consistent.createMetarecord {store after : Primary} (consistent : store.Consistent)
    {uuid : Uuid} {version : UInt64} (ran : store.createMetarecord uuid version = .ok after) :
    after.Consistent := by
  unfold Primary.createMetarecord at ran
  split at ran
  · simp at ran
  · rw [Except.pure_eq_ok] at ran
    exact ran ▸ consistent.put_metarecord uuid version

theorem Consistent.setVersion {store : Primary} (consistent : store.Consistent) (uuid : Uuid)
    (version : UInt64) : (store.setVersion uuid version).Consistent := by
  unfold Primary.setVersion
  split
  · exact consistent.put_metarecord uuid version
  · exact consistent

/-- A metarecord without rows can be taken away. -/
theorem Consistent.delete_metarecord {store : Primary} (consistent : store.Consistent) {uuid : Uuid}
    (empty : ∀ row, ¬store.Holds uuid row) : (store.dropMetarecord uuid).Consistent where
  toCounted := { consistent.toCounted with }
  toIndexed :=
    { consistent.toIndexed with
      owner_exists := by
        intro owner row holds
        have differ : uuid.bytes ≠ owner.bytes := by
          intro same
          rw [← Uuid.ext same] at holds
          exact empty row holds
        rw [Primary.version, Primary.dropMetarecord, Table.get_delete_of_ne _ differ]
        exact consistent.owner_exists holds
      metarecord_keyed := by
        intro key held found
        simp only [Primary.dropMetarecord, Table.get_delete] at found
        split at found
        · simp at found
        · exact consistent.metarecord_keyed found }

/-- Tables without entries agree. -/
theorem consistent_of_empty (nextRow : Int64) : ({ nextRow := nextRow } : Primary).Consistent where
  cell_keyed := by simp
  owner_iff := by simp [Holds]
  field_iff := by simp [Holds]
  forest_iff := by simp [Holds]
  owner_exists := by simp [Holds]
  stored := by simp [Holds]
  metarecord_keyed := by simp
  id_lt := by simp [Holds]
  count_keyed := by simp
  count_eq := by simp [typeCount]

end Primary

end Metafolder
