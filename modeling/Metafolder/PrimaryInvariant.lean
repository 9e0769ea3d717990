import Metafolder.PrimaryKeys

/-!
# Consistency of the primary tables

`Consistent` says that the tables agree: they index one set of rows, each under one metarecord and
one field, the type counts are exact, the forest has one entry per position, and the row counter is
past every row.  Every primitive preserves it, and is characterised by what it does to the rows a
store holds.
-/

namespace Metafolder

namespace Primary

/-- The store holds a row of a metarecord. -/
def Holds (store : Primary) (uuid : Uuid) (row : FieldRow) : Prop :=
  store.cells.get (cellKey uuid row.name row.id) = some row

/-- How many rows of a type a field holds, counted in `cells`. -/
def typeCount (store : Primary) (name valueType : String) : Nat :=
  store.cells.entries.countP fun entry =>
    entry.2.name = name ∧ entry.2.value.typeStr = valueType

/-- The tables but for the type counts index the same rows. -/
structure Indexed [Externals] (store : Primary) : Prop where
  /-- A row is under its own field name and id. -/
  cell_keyed : ∀ {key row}, store.cells.get key = some row →
    ∃ uuid, key = cellKey uuid row.name row.id
  /-- `row_owner` addresses the rows held. -/
  owner_iff : ∀ {key front}, store.rowOwner.get key = some front ↔
    ∃ uuid row, store.Holds uuid row ∧ key = be row.id ∧ front = cellPrefix uuid row.name
  /-- `by_field` lists the rows held. -/
  field_iff : ∀ {key uuid}, store.byField.get key = some uuid ↔
    ∃ row, store.Holds uuid row ∧ key = fieldKey row.name row.id
  /-- `forest` has the positions held. -/
  forest_iff : ∀ {key uuid id}, store.forest.get key = some (uuid, id) ↔
    ∃ row, store.Holds uuid row ∧ row.id = id ∧ forestKey row.name row.value = some key
  /-- A row's metarecord exists. -/
  owner_exists : ∀ {uuid row}, store.Holds uuid row → (store.version uuid).isSome
  /-- A row holds a value as it is read back. -/
  stored : ∀ {uuid row}, store.Holds uuid row → row.stored = row
  /-- Metarecords are under their uuid. -/
  metarecord_keyed : ∀ {key version}, store.metarecords.get key = some version →
    ∃ uuid : Uuid, key = uuid.bytes
  /-- The next row id is past every row. -/
  id_lt : ∀ {uuid row}, store.Holds uuid row → row.id < store.nextRow

/-- The type counts are exact, and none is zero. -/
structure Counted (store : Primary) : Prop where
  /-- A count is under a field name and a type that is not `Nothing`. -/
  count_keyed : ∀ {key n}, store.fieldTypes.get key = some n →
    0 < n ∧ ∃ name valueType, valueType ≠ "nothing" ∧ key = typeKey name valueType
  /-- A count is the number of rows. -/
  count_eq : ∀ name valueType, valueType ≠ "nothing" →
    ((store.fieldTypes.get (typeKey name valueType)).getD 0).toInt = store.typeCount name valueType

/-- The six tables agree. -/
structure Consistent [Externals] (store : Primary) : Prop extends store.Indexed, store.Counted

/-! ### Rows by their id -/

theorem Holds.row_eq {store : Primary} {uuid : Uuid} {first second : FieldRow}
    (holdsFirst : store.Holds uuid first) (holdsSecond : store.Holds uuid second)
    (names : first.name = second.name) (ids : first.id = second.id) : first = second := by
  rw [Holds, names, ids, holdsSecond, Option.some.injEq] at holdsFirst
  exact holdsFirst.symm

/-- Rows read from a range of `cells` that holds one metarecord's rows are distinct. -/
theorem nodup_cells {store : Primary} {front : Bytes} (owner : Uuid)
    (owned : ∀ key, front <+: key → ∀ row, store.cells.get key = some row →
      key = cellKey owner row.name row.id) :
    ((store.cells.prefixIter front).map Prod.snd).Nodup := by
  refine List.Nodup.map_on ?_ (store.cells.nodup_prefixIter front)
  rintro ⟨keyFirst, first⟩ memberFirst ⟨keySecond, second⟩ memberSecond same
  rw [Table.mem_prefixIter] at memberFirst memberSecond
  have first_eq := owned _ memberFirst.1 _ memberFirst.2
  have second_eq := owned _ memberSecond.1 _ memberSecond.2
  simp only at same
  rw [first_eq, second_eq, same]

variable [Externals]

/-- A row id names one row of one metarecord. -/
theorem Indexed.holds_unique {store : Primary} (indexed : store.Indexed) {first second : Uuid}
    {rowFirst rowSecond : FieldRow} (holdsFirst : store.Holds first rowFirst)
    (holdsSecond : store.Holds second rowSecond) (ids : rowFirst.id = rowSecond.id) :
    first = second ∧ rowFirst = rowSecond := by
  have ownerFirst : store.rowOwner.get (be rowFirst.id) = some (cellPrefix first rowFirst.name) :=
    indexed.owner_iff.mpr ⟨first, rowFirst, holdsFirst, rfl, rfl⟩
  have ownerSecond :
      store.rowOwner.get (be rowSecond.id) = some (cellPrefix second rowSecond.name) :=
    indexed.owner_iff.mpr ⟨second, rowSecond, holdsSecond, rfl, rfl⟩
  rw [ids, ownerSecond, Option.some.injEq, cellPrefix_inj] at ownerFirst
  obtain ⟨rfl, names⟩ := ownerFirst
  exact ⟨rfl, holdsFirst.row_eq holdsSecond names.symm ids⟩

/-- Two positions of a field in one place are one row. -/
theorem Indexed.forest_unique {store : Primary} (indexed : store.Indexed) {first second : Uuid}
    {rowFirst rowSecond : FieldRow} {key : Bytes} (holdsFirst : store.Holds first rowFirst)
    (holdsSecond : store.Holds second rowSecond)
    (keyFirst : forestKey rowFirst.name rowFirst.value = some key)
    (keySecond : forestKey rowSecond.name rowSecond.value = some key) :
    first = second ∧ rowFirst = rowSecond := by
  have entryFirst : store.forest.get key = some (first, rowFirst.id) :=
    indexed.forest_iff.mpr ⟨rowFirst, holdsFirst, rfl, keyFirst⟩
  have entrySecond : store.forest.get key = some (second, rowSecond.id) :=
    indexed.forest_iff.mpr ⟨rowSecond, holdsSecond, rfl, keySecond⟩
  rw [entryFirst, Option.some.injEq, Prod.mk.injEq] at entrySecond
  exact indexed.holds_unique holdsFirst holdsSecond entrySecond.2

theorem Indexed.row_eq_some_iff {store : Primary} (indexed : store.Indexed) {id : Int64}
    {uuid : Uuid} {held : FieldRow} :
    store.row id = some (uuid, held) ↔ store.Holds uuid held ∧ held.id = id := by
  constructor
  · intro read
    simp only [row, Option.bind_eq_bind, Option.bind_eq_some_iff, Option.pure_def,
      Option.some.injEq, Prod.mk.injEq] at read
    obtain ⟨front, owner, cell, found, rfl, rfl⟩ := read
    obtain ⟨owned, row, holds, ids, rfl⟩ := indexed.owner_iff.mp owner
    rw [be_inj] at ids
    subst ids
    rw [ofBytes_cellPrefix]
    change store.cells.get (cellKey owned row.name row.id) = some cell at found
    rw [Holds] at holds
    rw [holds, Option.some.injEq] at found
    exact ⟨found ▸ holds, found ▸ rfl⟩
  · rintro ⟨holds, rfl⟩
    have owner : store.rowOwner.get (be held.id) = some (cellPrefix uuid held.name) :=
      indexed.owner_iff.mpr ⟨uuid, held, holds, rfl, rfl⟩
    have cell : store.cells.get (cellPrefix uuid held.name ++ be held.id) = some held := holds
    simp [row, owner, cell, ofBytes_cellPrefix]

theorem Indexed.row_eq_none_iff {store : Primary} (indexed : store.Indexed) {id : Int64} :
    store.row id = none ↔ ∀ uuid held, store.Holds uuid held → held.id ≠ id := by
  constructor
  · intro read uuid held holds ids
    have found := indexed.row_eq_some_iff.mpr ⟨holds, ids⟩
    simp [read] at found
  · intro absent
    cases read : store.row id with
    | none => rfl
    | some held =>
        obtain ⟨holds, ids⟩ := indexed.row_eq_some_iff.mp read
        exact absurd ids (absent _ _ holds)

/-! ### The reads -/

theorem Indexed.mem_rows {store : Primary} (indexed : store.Indexed) {uuid : Uuid}
    {held : FieldRow} : held ∈ store.rows uuid ↔ store.Holds uuid held := by
  simp only [rows, List.mem_insertionSort, List.mem_map, Prod.exists, Table.mem_prefixIter]
  constructor
  · rintro ⟨key, _, ⟨starts, found⟩, rfl⟩
    obtain ⟨owner, rfl⟩ := indexed.cell_keyed found
    rw [bytes_prefix_cellKey] at starts
    exact starts ▸ found
  · intro holds
    exact ⟨_, held, ⟨(bytes_prefix_cellKey _ _ _ _).mpr rfl, holds⟩, rfl⟩

theorem Indexed.mem_rowsNamed {store : Primary} (indexed : store.Indexed) {uuid : Uuid}
    {name : String} {held : FieldRow} :
    held ∈ store.rowsNamed uuid name ↔ store.Holds uuid held ∧ held.name = name := by
  simp only [rowsNamed, List.mem_map, Prod.exists, Table.mem_prefixIter]
  constructor
  · rintro ⟨key, _, ⟨starts, found⟩, rfl⟩
    obtain ⟨owner, rfl⟩ := indexed.cell_keyed found
    rw [cellPrefix_prefix_cellKey] at starts
    obtain ⟨rfl, rfl⟩ := starts
    exact ⟨found, rfl⟩
  · rintro ⟨holds, rfl⟩
    exact ⟨_, held, ⟨(cellPrefix_prefix_cellKey _ _ _ _ _).mpr ⟨rfl, rfl⟩, holds⟩, rfl⟩

theorem Indexed.nodup_rowsNamed {store : Primary} (indexed : store.Indexed) (uuid : Uuid)
    (name : String) : (store.rowsNamed uuid name).Nodup := by
  refine nodup_cells uuid fun key starts row found => ?_
  obtain ⟨owner, rfl⟩ := indexed.cell_keyed found
  rw [((cellPrefix_prefix_cellKey _ _ _ _ _).mp starts).1]

theorem Indexed.nodup_rows {store : Primary} (indexed : store.Indexed) (uuid : Uuid) :
    (store.rows uuid).Nodup := by
  refine (List.perm_insertionSort _ _).nodup_iff.mpr ?_
  refine nodup_cells uuid fun key starts row found => ?_
  obtain ⟨owner, rfl⟩ := indexed.cell_keyed found
  rw [(bytes_prefix_cellKey _ _ _ _).mp starts]

/-- Two stores holding the same rows of a metarecord read them alike, up to order. -/
theorem rows_perm {first second : Primary} (indexedFirst : first.Indexed)
    (indexedSecond : second.Indexed) {uuid : Uuid}
    (same : ∀ row, first.Holds uuid row ↔ second.Holds uuid row) :
    (first.rows uuid).Perm (second.rows uuid) := by
  refine (List.perm_ext_iff_of_nodup (indexedFirst.nodup_rows _) (indexedSecond.nodup_rows _)).mpr
    fun row => ?_
  rw [indexedFirst.mem_rows, indexedSecond.mem_rows, same]

omit [Externals] in
theorem nodup_eraseDups {α : Type} [BEq α] [LawfulBEq α] (items : List α) :
    items.eraseDups.Nodup := by
  induction bound : items.length using Nat.strong_induction_on generalizing items with
  | _ length ih =>
      cases items with
      | nil => exact List.nodup_nil
      | cons item rest =>
          rw [List.eraseDups_cons, List.nodup_cons]
          constructor
          · intro again
            simp at again
          · refine ih _ ?_ _ rfl
            rw [← bound, List.length_cons]
            exact Nat.lt_succ_of_le (List.length_filter_le _ _)

omit [Externals] in
theorem nodup_holders (store : Primary) (name : String) : (store.holders name).Nodup :=
  nodup_eraseDups _

theorem Indexed.mem_holders {store : Primary} (indexed : store.Indexed) {name : String}
    {uuid : Uuid} :
    uuid ∈ store.holders name ↔ ∃ row, store.Holds uuid row ∧ row.name = name := by
  simp only [holders, List.mem_eraseDups, List.mem_map, Prod.exists, Table.mem_prefixIter]
  constructor
  · rintro ⟨key, _, ⟨starts, found⟩, rfl⟩
    obtain ⟨row, holds, rfl⟩ := indexed.field_iff.mp found
    rw [fieldKey, nameKey_prefix_iff] at starts
    exact ⟨row, holds, starts.symm⟩
  · rintro ⟨row, holds, rfl⟩
    exact ⟨_, uuid, ⟨(nameKey_prefix_iff _ _ _).mpr rfl,
      indexed.field_iff.mpr ⟨row, holds, rfl⟩⟩, rfl⟩

omit [Externals] in
/-- The types a field holds are those of its rows. -/
theorem Counted.valueTypes_spec {store : Primary} (counted : store.Counted) (name : String) :
    ∃ types, store.valueTypes name = .ok types ∧ types.Nodup ∧
      ∀ valueType, valueType ∈ types ↔
        valueType ≠ "nothing" ∧ 0 < store.typeCount name valueType := by
  have shape : ∀ entry ∈ store.fieldTypes.prefixIter (nameKey name), ∃ valueType,
      valueType ≠ "nothing" ∧ entry.1 = typeKey name valueType := by
    rintro ⟨key, n⟩ member
    rw [Table.mem_prefixIter] at member
    obtain ⟨-, field, valueType, named, rfl⟩ := counted.count_keyed member.2
    rw [typeKey, nameKey_prefix_iff] at member
    exact ⟨valueType, named, by rw [member.1]⟩
  choose! typeOf named keyed using shape
  refine ⟨_, Except.mapM_eq_ok_map typeOf fun entry member => ?_, ?_, fun valueType => ?_⟩
  · rw [keyed entry member, typeKey, List.drop_left, textOf_asBytes]
    rfl
  · refine List.Nodup.map_on ?_ (store.fieldTypes.nodup_prefixIter _)
    rintro first memberFirst second memberSecond same
    have keys : first.1 = second.1 := by
      rw [keyed first memberFirst, keyed second memberSecond, same]
    have found := ((Table.mem_prefixIter ..).mp memberFirst).2
    rw [keys, ((Table.mem_prefixIter ..).mp memberSecond).2, Option.some.injEq] at found
    exact Prod.ext keys found.symm
  · rw [List.mem_map]
    constructor
    · rintro ⟨entry, member, rfl⟩
      have present := ((Table.mem_prefixIter ..).mp member).2
      have exact_count := counted.count_eq name _ (named entry member)
      rw [← keyed entry member, present, Option.getD_some] at exact_count
      have positive := Int64.lt_iff_toInt_lt.mp (counted.count_keyed present).1
      rw [exact_count] at positive
      exact ⟨named entry member, by simpa using positive⟩
    · rintro ⟨other, positive⟩
      have exact_count := counted.count_eq name valueType other
      cases read : store.fieldTypes.get (typeKey name valueType) with
      | none =>
          rw [read, Option.getD_none] at exact_count
          simp at exact_count
          omega
      | some n =>
          have member : (typeKey name valueType, n) ∈ store.fieldTypes.prefixIter (nameKey name) :=
            (Table.mem_prefixIter ..).mpr ⟨(nameKey_prefix_iff _ _ _).mpr rfl, read⟩
          have same := keyed _ member
          rw [typeKey_inj] at same
          exact ⟨_, member, same.2.symm⟩

end Primary

end Metafolder
