import Metafolder.ComparedValues
import Metafolder.LinkedReads
import Metafolder.Lookups

/-!
# The questions of the schema

The schema asks which metarecords hold a field wrongly: a value of another type, too many rows, too
few, or none.  A question is answered from the rows of a field, or from the sets and the value
partition, where one holder in many is counted.  Both find the same metarecords, the second in the
order of their ids.
-/

namespace ByteCode

/-- Between a byte and the next stands what starts with the byte. -/
theorem between_bytes {byte first : UInt8} (small : byte < 255) (rest : Bytes) :
    (compare [byte] (first :: rest)).isLE = true ∧
      (compare (first :: rest) [byte + 1]).isLT = true ↔ first = byte := by
  have from_nil : (compare ([] : Bytes) rest).isLE = true := List.isLE_compare_nil_left
  have after_nil : compare rest ([] : Bytes) ≠ .lt := by
    cases rest <;> simp
  have next : (byte + 1).toNat = byte.toNat + 1 := by
    have bound : byte.toNat < 255 := UInt8.lt_iff_toNat_lt.mp small
    rw [UInt8.toNat_add]
    exact Nat.mod_eq_of_lt (by simp; omega)
  rw [List.compare_cons_cons, List.compare_cons_cons, Ordering.isLE_then_iff_or,
    Ordering.isLT_iff_eq_lt, Ordering.then_eq_lt, Std.compare_eq_lt, Std.compare_eq_lt,
    Std.compare_eq_iff_eq, Std.compare_eq_iff_eq, UInt8.lt_iff_toNat_lt, UInt8.lt_iff_toNat_lt,
    next]
  constructor
  · rintro ⟨low, high | ⟨-, less⟩⟩
    · rcases low with low | ⟨same, -⟩
      · omega
      · exact same.symm
    · exact absurd less after_nil
  · rintro rfl
    exact ⟨.inr ⟨rfl, from_nil⟩, .inl (Nat.lt_succ_self _)⟩

end ByteCode

namespace Metafolder

/-! ### From the rows -/

namespace Primary

/-- `Rows::metarecords`. -/
def metarecordUuids (store : Primary) : List Uuid :=
  store.metarecords.entries.map fun entry => Uuid.ofBytes entry.1

end Primary

namespace Derive

/-- `take`: each metarecord once, as many as asked. -/
def take (uuids : List Uuid) (limit : Int64) : List Uuid := uuids.eraseDups.take limit.toInt.toNat

/-- `type_of`. -/
def typeOf (value : Value) : String := (encodeValue value).valueType

/-- `counts`: the holders of a field in the order of their first row, with how many rows each
holds. -/
def counts (store : Primary) (field : String) : Outcome (List (Uuid × Nat)) := do
  let owners := (← store.fieldRows field).map Prod.fst
  pure (owners.eraseDups.map fun uuid => (uuid, owners.count uuid))

/-- The metarecords `wrong_type` takes from. -/
def wrongTypes (store : Primary) (field allowed : String) : Outcome (List Uuid) := do
  let rows ← store.fieldRows field
  pure ((rows.filter fun held =>
    typeOf held.2.value ≠ "nothing" ∧ typeOf held.2.value ≠ allowed).map Prod.fst)

/-- The metarecords `count_over` takes from. -/
def countsOver (store : Primary) (field : String) (max : Int64) : Outcome (List Uuid) := do
  pure (((← counts store field).filter fun held => max.toInt < held.2).map Prod.fst)

/-- The metarecords `count_under` takes from. -/
def countsUnder (store : Primary) (field : String) (min : Int64) : Outcome (List Uuid) := do
  pure (((← counts store field).filter fun held => held.2 < min.toInt).map Prod.fst)

/-- The metarecords `missing` takes from. -/
def missings (store : Primary) (field : String) : Outcome (List Uuid) := do
  let holders := (← store.fieldRows field).map Prod.fst
  pure (store.metarecordUuids.filter fun uuid => uuid ∉ holders)

/-- The metarecords `typed_missing` takes from. -/
def typedMissings (store : Primary) (types : List String) (field : String) :
    Outcome (List Uuid) := do
  if types = [] then pure []
  else
    let holders := (← store.fieldRows field).map Prod.fst
    let declared := (← store.fieldRows "mf_schema").filter fun held =>
      match held.2.value with
      | .string name => name ∈ types
      | _ => false
    pure ((declared.map Prod.fst).filter fun uuid => uuid ∉ holders)

/-- `derive::wrong_type`. -/
def wrongType (store : Primary) (field allowed : String) (limit : Int64) : Outcome (List Uuid) :=
  (take · limit) <$> wrongTypes store field allowed

/-- `derive::count_over`. -/
def countOver (store : Primary) (field : String) (max limit : Int64) : Outcome (List Uuid) :=
  (take · limit) <$> countsOver store field max

/-- `derive::count_under`. -/
def countUnder (store : Primary) (field : String) (min limit : Int64) : Outcome (List Uuid) :=
  (take · limit) <$> countsUnder store field min

/-- `derive::missing`. -/
def missing (store : Primary) (field : String) (limit : Int64) : Outcome (List Uuid) :=
  (take · limit) <$> missings store field

/-- `derive::typed_missing`. -/
def typedMissing (store : Primary) (types : List String) (field : String) (limit : Int64) :
    Outcome (List Uuid) :=
  (take · limit) <$> typedMissings store types field

end Derive

/-! ### From the sets and the partition -/

/-- `type_tag`: the byte the value keys of a type start with. -/
def typeTag : String → Option UInt8
  | "bool" => some 0
  | "int" => some 1
  | "float" => some 1
  | "string" => some 2
  | "datetime" => some 3
  | "ref" => some 4
  | "refbase" => some 5
  | "externalref" => some 6
  | "tree_ref" => some 7
  | "hierarchy_ref" => some 8
  | _ => none

namespace KvSource

/-- `types_of`: the value types a field holds rows of. -/
def typesOf (tx : KvTxn) (field : String) : Outcome (List String) := tx.primary.valueTypes field

/-- The ids with a value of a type in the value partition, and of every type of its tag. -/
def typeRun (tx : KvTxn) (field : String) (tag : UInt8) : Finset UInt32 :=
  partIds tx field valuePart (.included [tag]) (.excluded [tag + 1]) fun _ => true

/-- What a type adds to the answer of `wrong_type` where a field holds several. -/
def addWrong (tx : KvTxn) (field allowed : String) (out : Finset UInt32) (type : String) :
    Finset UInt32 :=
  if type = allowed then out
  else match typeTag type with
    | none => out
    | some tag =>
        let run := typeRun tx field tag
        out ∪ if typeTag allowed = some tag then
          having tx run field fun value => (encodeValue value).valueType = type
        else run

variable [Externals]

/-- `maybe_several`: the ids that may hold more than one row of a field. -/
def maybeSeveral (tx : KvTxn) (field : String) : Finset UInt32 :=
  set tx multiKind (some field) ∪ set tx absentKind (some field)

/-- `wrong_type`. -/
def wrongType (tx : KvTxn) (field allowed : String) (limit : Int64) : Outcome (List Uuid) := do
  match ← typesOf tx field with
  | [only] =>
      let ids := if only = allowed then ∅ else set tx presentKind (some field)
      pure (uuidsOf tx (inOrder ids) limit)
  | types =>
      let out := types.foldl (addWrong tx field allowed) ∅
      pure (uuidsOf tx (inOrder out) limit)

/-- `count_over`. -/
def countOver (tx : KvTxn) (field : String) (max limit : Int64) : List Uuid :=
  let ids :=
    if max < 1 then holders tx field
    else (maybeSeveral tx field).filter fun id => max.toInt < (values tx id field).length
  uuidsOf tx (inOrder ids) limit

/-- `count_under`: every single holder, then the others counted. -/
def countUnder (tx : KvTxn) (field : String) (min limit : Int64) : List Uuid :=
  if min ≤ 1 then uuidsOf tx [] limit
  else
    let holders := holders tx field
    let several := holders ∩ maybeSeveral tx field
    let single := holders \ several
    let counted := (inOrder several).filter fun id => (values tx id field).length < min.toInt
    uuidsOf tx (inOrder single ++ counted) limit

/-- `missing`. -/
def missing (tx : KvTxn) (field : String) (limit : Int64) : List Uuid :=
  uuidsOf tx (inOrder (set tx universeKind none \ holders tx field)) limit

end KvSource

/-! ### The rows of a field -/

namespace Derive

variable [Externals] {store : Primary}

/-- The rows of a field are read, each once. -/
theorem fieldRows_spec (consistent : store.Consistent) (field : String) :
    ∃ rows, store.fieldRows field = .ok rows ∧ rows.Nodup ∧
      ∀ uuid row, (uuid, row) ∈ rows ↔ store.Holds uuid row ∧ row.name = field := by
  have shape : ∀ entry ∈ store.byField.prefixIter (nameKey field), ∃ row : FieldRow,
      store.Holds entry.2 row ∧ row.name = field ∧ entry.1 = nameKey field ++ be row.id := by
    rintro ⟨key, uuid⟩ member
    rw [Table.mem_prefixIter] at member
    obtain ⟨row, holds, rfl⟩ := consistent.field_iff.mp member.2
    have named := (nameKey_prefix_iff _ _ _).mp member.1
    exact ⟨row, holds, named.symm, by rw [fieldKey, ← named]⟩
  have : Nonempty FieldRow := ⟨⟨0, field, .nothing⟩⟩
  choose! rowOf holds named keyed using shape
  refine ⟨_, Except.mapM_eq_ok_map (fun entry => (entry.2, rowOf entry)) fun entry member => ?_,
    ?_, ?_⟩
  · have cell : store.cells.get (cellPrefix entry.2 field ++ be (rowOf entry).id) =
        some (rowOf entry) := named entry member ▸ holds entry member
    dsimp only
    rw [keyed entry member, List.drop_left, cell]
    rfl
  · refine List.Nodup.map_on ?_ (store.byField.nodup_prefixIter _)
    rintro first first_mem second second_mem same
    obtain ⟨owners, rows⟩ := Prod.mk.inj same
    refine Prod.ext ?_ owners
    rw [keyed first first_mem, keyed second second_mem, rows]
  · intro uuid row
    rw [List.mem_map]
    constructor
    · rintro ⟨entry, member, same⟩
      obtain ⟨rfl, rfl⟩ := Prod.mk.inj same
      exact ⟨holds entry member, named entry member⟩
    · rintro ⟨held, rfl⟩
      have listed : (fieldKey row.name row.id, uuid) ∈
          store.byField.prefixIter (nameKey row.name) :=
        (Table.mem_prefixIter ..).mpr ⟨(nameKey_prefix_iff _ _ _).mpr rfl,
          consistent.field_iff.mpr ⟨row, held, rfl⟩⟩
      refine ⟨_, listed, ?_⟩
      have ids : be row.id = be (rowOf (fieldKey row.name row.id, uuid)).id :=
        List.append_cancel_left (keyed _ listed)
      have same := held.row_eq (holds _ listed) (named _ listed).symm (be_injective ids)
      exact Prod.ext rfl same.symm

/-- As many rows of a field are read of a metarecord as it holds. -/
theorem count_owners (consistent : store.Consistent) {field : String}
    {rows : List (Uuid × FieldRow)} (nodup : rows.Nodup)
    (listed : ∀ uuid row, (uuid, row) ∈ rows ↔ store.Holds uuid row ∧ row.name = field)
    (uuid : Uuid) : (rows.map Prod.fst).count uuid = (store.rowsNamed uuid field).length := by
  have own : ((rows.filter fun held => held.1 = uuid).map Prod.snd).Perm
      (store.rowsNamed uuid field) := by
    refine (List.perm_ext_iff_of_nodup ?_ (consistent.nodup_rowsNamed uuid field)).mpr ?_
    · refine List.Nodup.map_on ?_ (nodup.filter _)
      rintro ⟨first, row⟩ first_mem ⟨second, other⟩ second_mem same
      have one := of_decide_eq_true (List.mem_filter.mp first_mem).2
      have two := of_decide_eq_true (List.mem_filter.mp second_mem).2
      exact Prod.ext (one.trans two.symm) same
    · intro row
      rw [consistent.mem_rowsNamed, ← listed, List.mem_map]
      constructor
      · rintro ⟨⟨owner, held⟩, member, rfl⟩
        obtain ⟨there, same⟩ := List.mem_filter.mp member
        exact of_decide_eq_true same ▸ there
      · intro there
        exact ⟨(uuid, row), List.mem_filter.mpr ⟨there, decide_eq_true rfl⟩, rfl⟩
  rw [← own.length_eq, List.length_map, ← List.countP_eq_length_filter, List.count,
    List.countP_map]
  refine List.countP_congr fun held _ => ?_
  simp

/-- A metarecord is listed once. -/
theorem mem_metarecordUuids (consistent : store.Consistent) {uuid : Uuid} :
    uuid ∈ store.metarecordUuids ↔ (store.version uuid).isSome := by
  simp only [Primary.metarecordUuids, List.mem_map, Prod.exists, Table.mem_entries]
  constructor
  · rintro ⟨key, version, found, rfl⟩
    obtain ⟨owner, rfl⟩ := consistent.metarecord_keyed found
    rw [Uuid.ofBytes_bytes]
    exact Option.isSome_of_eq_some found
  · intro present
    obtain ⟨version, found⟩ := Option.isSome_iff_exists.mp present
    exact ⟨uuid.bytes, version, found, Uuid.ofBytes_bytes uuid⟩

end Derive

/-! ### What the sets find -/

/-- What a question finds is as many as asked of the metarecords of an answer, each once. -/
structure Samples (found all : List Uuid) (limit : Int64) : Prop where
  /-- A metarecord is found once. -/
  nodup : found.Nodup
  /-- What is found is of the answer. -/
  subset : ∀ uuid ∈ found, uuid ∈ all
  /-- As many are found as asked, or all there are. -/
  length : found.length = min limit.toInt.toNat all.eraseDups.length

namespace KvSource

variable {tx : KvTxn} {field : String}

/-- The loop of a scan reads no key but those of its entries. -/
theorem scanEntries_congr {front : Bytes} {keep other : Bytes → Bool} {posted : List Bytes}
    {entries : List (Bytes × Int64)} {passed : Option Bytes}
    (same : ∀ entry ∈ entries, front <+: entry.1 →
      let rest := entry.1.drop front.length
      keep (rest.take (rest.length - 4)) = other (rest.take (rest.length - 4))) :
    scanEntries tx field front keep posted passed entries =
      scanEntries tx field front other posted passed entries := by
  induction entries generalizing passed with
  | nil => rfl
  | cons entry entries ih =>
      have later := fun passed =>
        @ih passed fun held member => same held (List.mem_cons_of_mem _ member)
      unfold scanEntries
      split
      · exact later passed
      · split
        · rfl
        next starts =>
          rw [Bool.not_eq_true', Bool.not_eq_false, List.isPrefixOf_iff_prefix] at starts
          have here := same entry List.mem_cons_self starts
          dsimp only at here ⊢
          rw [here, later, later]

variable [Externals] {id : UInt32}

/-- The tag of a value's type starts its key. -/
theorem head_valueKey {value : Value} {key : Bytes} (of_value : valueKey value = some key) :
    key.head? = typeTag value.typeStr := by
  cases value with
  | nothing => cases of_value
  | _ => obtain rfl := Option.some.inj of_value; rfl

theorem typeTag_of_valueKey {value : Value} {tag : UInt8} :
    typeTag value.typeStr = some tag ↔ ∃ key, valueKey value = some key ∧ key.head? = some tag := by
  constructor
  · intro tagged
    cases of_value : valueKey value with
    | none =>
        rw [valueKey_eq_none.mp of_value] at tagged
        cases tagged
    | some key => exact ⟨key, rfl, (head_valueKey of_value).trans tagged⟩
  · rintro ⟨key, of_value, head⟩
    exact (head_valueKey of_value).symm.trans head

/-- A type's run holds the ids with a value of a type of its tag. -/
theorem mem_typeRun (whole : tx.Exact) {tag : UInt8} (small : tag < 255) :
    id ∈ typeRun tx field tag ↔ ∃ value ∈ values tx id field, typeTag value.typeStr = some tag := by
  have from_front : ∀ other,
      (Table.Bound.included (partPrefix field valuePart ++ [tag])).starts other = true →
        (Ord.compare (partPrefix field valuePart) other).isLE := by
    intro other starts
    refine Std.TransCmp.isLE_trans ?_ starts
    have front := ByteCode.compare_append_left (partPrefix field valuePart) [] [tag]
    rw [List.append_nil] at front
    rw [front]
    rfl
  obtain ⟨listed, sorted, starts⟩ := @range_spec tx _
    (.excluded (partPrefix field valuePart ++ [tag + 1])) _ from_front
  have within : ∀ {first : UInt8} {rest : Bytes},
      ((Table.Bound.included (partPrefix field valuePart ++ [tag])).starts
          (partPrefix field valuePart ++ (first :: rest)) = true ∧
        (Table.Bound.excluded (partPrefix field valuePart ++ [tag + 1])).stops
          (partPrefix field valuePart ++ (first :: rest)) = true) ↔ first = tag := by
    intro first rest
    rw [Table.Bound.starts, Table.Bound.stops, ByteCode.compare_append_left,
      ByteCode.compare_append_left]
    exact ByteCode.between_bytes small rest
  -- The entries of the range are those whose key starts with the tag.
  have scanned : typeRun tx field tag = scanEntries tx field (partPrefix field valuePart)
      (fun key => key.head? = some tag) (posted tx field) none
      (tx.derived.parts.range (.included (partPrefix field valuePart ++ [tag]))
        (.excluded (partPrefix field valuePart ++ [tag + 1]))) := by
    apply scanEntries_congr
    intro entry member front
    obtain ⟨key, other, same, -, keyed⟩ := entry_of_prefix whole (listed entry member)
      (List.isPrefixOf_iff_prefix.mpr front)
    obtain ⟨value, of_value⟩ := keyed rfl
    have read := (@read_partKey field valuePart other key).1
    rw [← same] at read
    dsimp only at read ⊢
    rw [read]
    have bounds := (Table.mem_range.mp member).2
    rw [same, partKey, List.append_assoc] at bounds
    have head : key.head? = some tag := by
      cases key with
      | nil => exact absurd of_value (by cases value <;> simp [valueKey])
      | cons first rest => exact congrArg some (within.mp bounds)
    exact (decide_eq_true head).symm
  have of_values : posted tx field ≠ [] → valuePart = valuePart := fun _ => rfl
  have have_postings : ∀ other ∈ posted tx field, (posting tx field other).isSome := by
    intro other member
    simp only [posted, List.mem_map, Prod.exists, Table.mem_prefixIter] at member
    obtain ⟨entry, ids, ⟨⟨rest, rfl⟩, found⟩, rfl⟩ := member
    rw [List.drop_left]
    exact Option.isSome_of_eq_some found
  have held : id ∈ typeRun tx field tag ↔
      ∃ key, key.head? = some tag ∧ Held tx field valuePart key id := by
    rw [scanned]
    constructor
    · intro found
      obtain ⟨key, kept, held⟩ := held_of_mem_scanEntries whole of_values listed found
      exact ⟨key, of_decide_eq_true kept, held⟩
    · rintro ⟨key, head, held⟩
      obtain ⟨count, found⟩ := Option.isSome_iff_exists.mp held
      have bounds : (Table.Bound.included (partPrefix field valuePart ++ [tag])).starts
            (partKey field valuePart key id) = true ∧
          (Table.Bound.excluded (partPrefix field valuePart ++ [tag + 1])).stops
            (partKey field valuePart key id) = true := by
        rw [partKey, List.append_assoc]
        cases key with
        | nil => cases head
        | cons first rest => exact within.mpr (Option.some.inj head)
      exact mem_scanEntries whole of_values have_postings listed sorted starts
        (Table.mem_range.mpr ⟨found, bounds⟩) (decide_eq_true head) (by simp)
  rw [held]
  simp only [held_value whole, typeTag_of_valueKey]
  constructor
  · rintro ⟨key, head, value, member, of_value⟩
    exact ⟨value, member, key, of_value, head⟩
  · rintro ⟨value, member, key, of_value, head⟩
    exact ⟨key, head, value, member, of_value⟩

/-! ### The sets of a field -/

/-- The rows of an id are those of its metarecord. -/
theorem values_eq (whole : tx.Exact) {uuid : Uuid} (named : tx.derived.id uuid = some id) :
    values tx id field = (tx.primary.rowsNamed uuid field).map FieldRow.value := by
  have read : tx.derived.uuids.get (be32 id) = some uuid :=
    whole.derives.uuids_iff.mpr ⟨id, named, rfl⟩
  rw [values, read]

/-- A metarecord has an id. -/
theorem exists_id (whole : tx.Exact) {uuid : Uuid} (present : (tx.primary.version uuid).isSome) :
    ∃ id, tx.derived.id uuid = some id :=
  Option.isSome_iff_exists.mp ((whole.derives.ids_iff uuid.bytes).mpr present)

/-- What has an id is a metarecord. -/
theorem version_of_id (whole : tx.Exact) {uuid : Uuid} (named : tx.derived.id uuid = some id) :
    (tx.primary.version uuid).isSome :=
  (whole.derives.ids_iff uuid.bytes).mp (Option.isSome_of_eq_some named)

theorem mem_ofField (whole : tx.Exact) (kind : FieldKind) : id ∈ set tx kind.byte (some field) ↔
    ∃ uuid, tx.derived.id uuid = some id ∧
      Derived.InSet tx.primary (.ofField kind field) uuid := by
  have plain : (SetKey.ofField kind field).Plain := trivial
  exact whole.derives.mem_set plain

theorem mem_present (whole : tx.Exact) : id ∈ set tx presentKind (some field) ↔
    ∃ value ∈ values tx id field, value.isNothing = false := by
  have listed := @mem_ofField tx field _ id whole .present
  refine listed.trans ?_
  constructor
  · rintro ⟨uuid, named, row, holds, row_named, valued⟩
    exact ⟨row.value, (mem_values whole).mpr ⟨uuid, row, named, holds, row_named, rfl⟩, valued⟩
  · rintro ⟨value, member, valued⟩
    obtain ⟨uuid, row, named, holds, row_named, rfl⟩ := (mem_values whole).mp member
    exact ⟨uuid, named, row, holds, row_named, valued⟩

theorem mem_universe (whole : tx.Exact) : id ∈ set tx universeKind none ↔
    ∃ uuid, tx.derived.id uuid = some id := by
  have plain : SetKey.all.Plain := trivial
  have listed : id ∈ set tx universeKind none ↔
      ∃ uuid, tx.derived.id uuid = some id ∧ Derived.InSet tx.primary .all uuid :=
    whole.derives.mem_set plain
  exact listed.trans (exists_congr fun uuid => and_iff_left trivial)

/-- The ids that may hold several rows are those that do, and those with a `Nothing`. -/
theorem mem_maybeSeveral (whole : tx.Exact) : id ∈ maybeSeveral tx field ↔
    1 < (values tx id field).length ∨ ∃ value ∈ values tx id field, value.isNothing = true := by
  have listed := @mem_ofField tx field _ id whole
  rw [maybeSeveral, Finset.mem_union]
  constructor
  · rintro (several | absent)
    · obtain ⟨uuid, named, first, second, first_held, second_held, first_named, second_named, -, -,
        differ⟩ := (listed .multi).mp several
      have holds := @Primary.Indexed.mem_rowsNamed _ _ whole.consistent.toIndexed uuid field
      refine .inl ?_
      rw [values_eq whole named, List.length_map]
      have first_mem := holds.mpr ⟨first_held, first_named⟩
      have second_mem := holds.mpr ⟨second_held, second_named⟩
      by_contra fewer
      cases rows : tx.primary.rowsNamed uuid field with
      | nil => simp [rows] at first_mem
      | cons only rest =>
          cases rest with
          | nil =>
              rw [rows, List.mem_singleton] at first_mem second_mem
              exact differ (first_mem.trans second_mem.symm)
          | cons _ _ => simp [rows] at fewer
    · obtain ⟨uuid, named, row, holds, row_named, nothing⟩ := (listed .absent).mp absent
      exact .inr ⟨row.value, (mem_values whole).mpr ⟨uuid, row, named, holds, row_named, rfl⟩,
        nothing⟩
  · rintro (several | ⟨value, member, nothing⟩)
    · obtain ⟨value, member⟩ : ∃ value, value ∈ values tx id field :=
        List.exists_mem_of_ne_nil _ (List.ne_nil_of_length_pos (by omega))
      obtain ⟨uuid, -, named, -⟩ := (mem_values whole).mp member
      rw [values_eq whole named, List.length_map] at several
      have nodup := whole.consistent.nodup_rowsNamed uuid field
      have holds := @Primary.Indexed.mem_rowsNamed _ _ whole.consistent.toIndexed uuid field
      cases rows : tx.primary.rowsNamed uuid field with
      | nil => simp [rows] at several
      | cons first rest =>
          cases rest with
          | nil => simp [rows] at several
          | cons second rest =>
              rw [rows] at nodup holds
              have first_held := holds.mp List.mem_cons_self
              have second_held := holds.mp (List.mem_cons_of_mem _ List.mem_cons_self)
              have differ : first ≠ second := fun same =>
                (List.nodup_cons.mp nodup).1 (same ▸ List.mem_cons_self)
              cases one : first.value.isNothing with
              | true => exact .inr ((listed .absent).mpr ⟨uuid, named, first, first_held.1,
                  first_held.2, one⟩)
              | false =>
                  cases other : second.value.isNothing with
                  | true => exact .inr ((listed .absent).mpr ⟨uuid, named, second, second_held.1,
                      second_held.2, other⟩)
                  | false => exact .inl ((listed .multi).mpr ⟨uuid, named, first, second,
                      first_held.1, second_held.1, first_held.2, second_held.2, one, other, differ⟩)
    · obtain ⟨uuid, row, named, holds, row_named, rfl⟩ := (mem_values whole).mp member
      exact .inr ((listed .absent).mpr ⟨uuid, named, row, holds, row_named, nothing⟩)

/-- The metarecords of ids that are those of an answer sample it. -/
theorem samples_uuidsOf (whole : tx.Exact) {ids : List UInt32} {all : List Uuid}
    (nodup : ids.Nodup) (same : ∀ uuid, uuid ∈ all ↔ ∃ id ∈ ids, tx.derived.id uuid = some id)
    (limit : Int64) : Samples (uuidsOf tx ids limit) all limit := by
  have read : ∀ {id uuid}, tx.derived.uuids.get (be32 id) = some uuid ↔
      tx.derived.id uuid = some id := by
    intro id uuid
    rw [whole.derives.uuids_iff]
    constructor
    · rintro ⟨other, named, ids⟩
      rwa [be32_injective ids]
    · intro named
      exact ⟨id, named, rfl⟩
  have listed : ∀ uuid, uuid ∈ ids.filterMap (fun id => tx.derived.uuids.get (be32 id)) ↔
      uuid ∈ all := by
    intro uuid
    rw [List.mem_filterMap, same]
    exact exists_congr fun id => and_congr_right fun _ => read
  have once : (ids.filterMap fun id => tx.derived.uuids.get (be32 id)).Nodup := by
    refine nodup.filterMap ?_
    intro first second uuid first_named second_named
    have one := read.mp (Option.mem_def.mp first_named)
    rw [read.mp (Option.mem_def.mp second_named)] at one
    exact (Option.some.inj one).symm
  have perm : (ids.filterMap fun id => tx.derived.uuids.get (be32 id)).Perm all.eraseDups := by
    refine (List.perm_ext_iff_of_nodup once (Primary.nodup_eraseDups all)).mpr fun uuid => ?_
    rw [listed, List.mem_eraseDups]
  refine ⟨once.sublist (List.take_sublist _ _), fun uuid member => ?_, ?_⟩
  · exact (listed uuid).mp (List.mem_of_mem_take member)
  · rw [uuidsOf, List.length_take, perm.length_eq]

omit [Externals] in
theorem nodup_inOrder (ids : Finset UInt32) : (inOrder ids).Nodup :=
  (pairwise_inOrder ids).imp fun {first second} less =>
    (UInt32.ne_of_lt less : first ≠ second)

/-! ### The questions -/

/-- A row of a field is a value of its metarecord's id. -/
theorem exists_row_iff (whole : tx.Exact) {uuid : Uuid} {holds : Value → Prop} :
    (∃ row, tx.primary.Holds uuid row ∧ row.name = field ∧ holds row.value) ↔
      ∃ id, tx.derived.id uuid = some id ∧ ∃ value ∈ values tx id field, holds value := by
  constructor
  · rintro ⟨row, held, row_named, fits⟩
    obtain ⟨id, named⟩ := exists_id whole (whole.consistent.owner_exists held)
    exact ⟨id, named, row.value,
      (mem_values whole).mpr ⟨uuid, row, named, held, row_named, rfl⟩, fits⟩
  · rintro ⟨id, named, value, member, fits⟩
    obtain ⟨owner, row, owner_named, held, row_named, rfl⟩ := (mem_values whole).mp member
    obtain rfl := whole.derives.toMapped.id_unique owner_named named
    exact ⟨row, held, row_named, fits⟩

omit [Externals] in
theorem typeOf_eq (value : Value) : Derive.typeOf value = value.typeStr := by
  cases value <;> rfl

omit [Externals] in
/-- The metarecords of the rows kept. -/
theorem mem_owners {rows : List (Uuid × FieldRow)} {keep : Uuid × FieldRow → Bool} {uuid : Uuid} :
    uuid ∈ (rows.filter keep).map Prod.fst ↔
      ∃ row, (uuid, row) ∈ rows ∧ keep (uuid, row) = true := by
  simp only [List.mem_map, List.mem_filter]
  constructor
  · rintro ⟨⟨owner, row⟩, ⟨member, kept⟩, rfl⟩
    exact ⟨row, member, kept⟩
  · rintro ⟨row, member, kept⟩
    exact ⟨(uuid, row), ⟨member, kept⟩, rfl⟩

/-- A value of a type that is not allowed. -/
def Wrong (allowed : String) (value : Value) : Prop :=
  value.typeStr ≠ "nothing" ∧ value.typeStr ≠ allowed

/-- The rows list the metarecords with a value of another type. -/
theorem wrongTypes_spec (whole : tx.Exact) (allowed : String) :
    ∃ all, Derive.wrongTypes tx.primary field allowed = .ok all ∧ ∀ uuid, uuid ∈ all ↔
      ∃ id, tx.derived.id uuid = some id ∧ ∃ value ∈ values tx id field, Wrong allowed value := by
  obtain ⟨rows, read, -, listed⟩ := Derive.fieldRows_spec whole.consistent field
  refine ⟨_, by rw [Derive.wrongTypes, read]; rfl, fun uuid => ?_⟩
  rw [← exists_row_iff whole, mem_owners]
  simp only [listed, decide_eq_true_eq, typeOf_eq, Wrong, and_assoc]

omit [Externals] in
theorem typeTag_lt {type : String} {tag : UInt8} (tagged : typeTag type = some tag) :
    tag < 255 := by
  unfold typeTag at tagged
  split at tagged <;> cases tagged <;> decide

/-- A type adds the ids with a value of its tag, of the type itself where the allowed one shares
the tag. -/
theorem mem_addWrong (whole : tx.Exact) {allowed type : String} {out : Finset UInt32} :
    id ∈ addWrong tx field allowed out type ↔ id ∈ out ∨ type ≠ allowed ∧ ∃ tag,
      typeTag type = some tag ∧ ∃ value ∈ values tx id field, typeTag value.typeStr = some tag ∧
        (typeTag allowed = some tag → value.typeStr = type) := by
  unfold addWrong
  split
  next same => simp [same]
  next differ =>
    split
    next untagged => simp [untagged]
    next tag tagged =>
      dsimp only
      rw [Finset.mem_union]
      refine or_congr_right ?_
      rw [and_iff_right differ]
      split
      next shared =>
        rw [mem_having, mem_typeRun whole (typeTag_lt tagged)]
        constructor
        · rintro ⟨-, value, member, typed⟩
          have same : value.typeStr = type := (typeOf_eq value).symm.trans (of_decide_eq_true typed)
          exact ⟨tag, tagged, value, member, same ▸ tagged, fun _ => same⟩
        · rintro ⟨other, other_tagged, value, member, valued, typed⟩
          obtain rfl := Option.some.inj (tagged.symm.trans other_tagged)
          exact ⟨⟨value, member, valued⟩, value, member,
            decide_eq_true ((typeOf_eq value).trans (typed shared))⟩
      next apart =>
        rw [mem_typeRun whole (typeTag_lt tagged)]
        constructor
        · rintro ⟨value, member, valued⟩
          exact ⟨tag, tagged, value, member, valued, fun shared => absurd shared apart⟩
        · rintro ⟨other, other_tagged, value, member, valued, -⟩
          obtain rfl := Option.some.inj (tagged.symm.trans other_tagged)
          exact ⟨value, member, valued⟩

omit [Externals] in
theorem typeTag_typeStr {value : Value} (some_type : value.typeStr ≠ "nothing") :
    ∃ tag, typeTag value.typeStr = some tag := by
  cases value with
  | nothing => exact absurd rfl some_type
  | _ => exact ⟨_, rfl⟩

/-- The ids with a value of another type, where a field holds several. -/
theorem mem_wrongs (whole : tx.Exact) {allowed : String} {types : List String}
    (listed : ∀ value ∈ values tx id field, value.isNothing = false → value.typeStr ∈ types) :
    id ∈ types.foldl (addWrong tx field allowed) ∅ ↔
      ∃ value ∈ values tx id field, Wrong allowed value := by
  have added : ∀ {out : Finset UInt32}, id ∈ types.foldl (addWrong tx field allowed) out ↔
      id ∈ out ∨ ∃ type ∈ types, type ≠ allowed ∧ ∃ tag, typeTag type = some tag ∧
        ∃ value ∈ values tx id field, typeTag value.typeStr = some tag ∧
          (typeTag allowed = some tag → value.typeStr = type) := by
    clear listed
    induction types with
    | nil => simp
    | cons type types ih =>
        intro out
        rw [List.foldl_cons, ih, mem_addWrong whole, or_assoc, List.exists_mem_cons_iff]
  rw [added]
  constructor
  · rintro (absurd_member | ⟨type, -, differ, tag, tagged, value, member, valued, typed⟩)
    · exact absurd absurd_member (Finset.notMem_empty id)
    · refine ⟨value, member, fun nothing => ?_, fun same => ?_⟩
      · rw [nothing] at valued
        cases valued
      · rw [same] at valued
        exact differ ((typed valued).symm.trans same)
  · rintro ⟨value, member, some_type, differ⟩
    obtain ⟨tag, tagged⟩ := typeTag_typeStr some_type
    have valued : value.isNothing = false := by
      cases value with
      | nothing => exact absurd rfl some_type
      | _ => rfl
    exact .inr ⟨value.typeStr, listed value member valued, differ, tag, tagged, value, member,
      tagged, fun _ => rfl⟩

/-- The value types of a field are those of its values. -/
theorem typesOf_spec (whole : tx.Exact) : ∃ types, typesOf tx field = .ok types ∧
    ∀ id, ∀ value ∈ values tx id field, value.isNothing = false → value.typeStr ∈ types := by
  obtain ⟨types, read, -, listed⟩ := whole.consistent.valueTypes_spec field
  refine ⟨types, read, fun id value member valued => ?_⟩
  obtain ⟨uuid, row, -, holds, row_named, rfl⟩ := (mem_values whole).mp member
  refine (listed _).mpr ⟨fun nothing => ?_,
    whole.consistent.typeCount_pos.mpr ⟨uuid, row, holds, row_named, rfl⟩⟩
  rw [Value.typeStr_eq_nothing_iff] at nothing
  rw [nothing] at valued
  cases valued

/-- The ids asked for a value of another type. -/
theorem wrongType_ids (whole : tx.Exact) (field allowed : String) (limit : Int64) :
    ∃ ids : Finset UInt32, wrongType tx field allowed limit = .ok (uuidsOf tx (inOrder ids) limit) ∧
      ∀ id, id ∈ ids ↔ ∃ value ∈ values tx id field, Wrong allowed value := by
  obtain ⟨types, read, listed⟩ := @typesOf_spec tx field _ whole
  have several := fun id => @mem_wrongs tx field _ id whole allowed types (listed id)
  unfold wrongType
  rw [read]
  match types, listed, several with
  | [only], listed, _ =>
      refine ⟨_, rfl, fun id => ?_⟩
      have only_type : ∀ value ∈ values tx id field, value.isNothing = false →
          value.typeStr = only := fun value member valued =>
        List.mem_singleton.mp (listed id value member valued)
      have valued_iff (value : Value) : value.isNothing = false ↔ value.typeStr ≠ "nothing" := by
        cases value <;> simp [Value.isNothing, Value.typeStr]
      split
      next same =>
        refine iff_of_false (Finset.notMem_empty id) ?_
        rintro ⟨value, member, some_type, differ⟩
        exact differ ((only_type value member ((valued_iff value).mpr some_type)).trans same)
      next differ =>
        rw [mem_present whole]
        refine exists_congr fun value => and_congr_right fun member => ?_
        constructor
        · intro valued
          exact ⟨(valued_iff value).mp valued, only_type value member valued ▸ differ⟩
        · rintro ⟨some_type, -⟩
          exact (valued_iff value).mpr some_type
  | [], _, several => exact ⟨_, rfl, several⟩
  | _ :: _ :: _, _, several => exact ⟨_, rfl, several⟩

theorem samples_wrongType (whole : tx.Exact) (field allowed : String) (limit : Int64) :
    ∃ found all, wrongType tx field allowed limit = .ok found ∧
      Derive.wrongTypes tx.primary field allowed = .ok all ∧ Samples found all limit := by
  obtain ⟨ids, finds, wrong⟩ := wrongType_ids whole field allowed limit
  obtain ⟨all, derived, of_all⟩ := @wrongTypes_spec tx field _ whole allowed
  refine ⟨_, all, finds, derived, samples_uuidsOf whole (nodup_inOrder ids) (fun uuid => ?_) limit⟩
  simp only [of_all, mem_inOrder, wrong, and_comm]

/-- The rows count what the ids hold. -/
theorem counts_spec (whole : tx.Exact) {keep : Uuid × Nat → Bool} :
    ∃ counted, Derive.counts tx.primary field = .ok counted ∧
      ∀ uuid, uuid ∈ (counted.filter keep).map Prod.fst ↔ ∃ id, tx.derived.id uuid = some id ∧
        values tx id field ≠ [] ∧ keep (uuid, (values tx id field).length) = true := by
  obtain ⟨rows, read, nodup, listed⟩ := Derive.fieldRows_spec whole.consistent field
  have count := Derive.count_owners whole.consistent nodup listed
  refine ⟨_, by rw [Derive.counts, read]; rfl, fun uuid => ?_⟩
  have owner : uuid ∈ rows.map Prod.fst ↔ ∃ id, tx.derived.id uuid = some id ∧
      values tx id field ≠ [] := by
    have rowed := @exists_row_iff tx field _ whole uuid fun _ => True
    simp only [and_true] at rowed
    rw [List.mem_map]
    constructor
    · rintro ⟨⟨owner, row⟩, member, rfl⟩
      obtain ⟨id, named, value, held⟩ := rowed.mp ⟨row, (listed _ _).mp member⟩
      exact ⟨id, named, List.ne_nil_of_mem held⟩
    · rintro ⟨id, named, some_row⟩
      obtain ⟨value, held⟩ := List.exists_mem_of_ne_nil _ some_row
      obtain ⟨row, holds⟩ := rowed.mpr ⟨id, named, value, held⟩
      exact ⟨(uuid, row), (listed _ _).mpr holds, rfl⟩
  have length : ∀ {id}, tx.derived.id uuid = some id →
      (values tx id field).length = (tx.primary.rowsNamed uuid field).length := by
    intro id named
    rw [values_eq whole named, List.length_map]
  simp only [List.mem_map, List.mem_filter, List.mem_eraseDups]
  constructor
  · rintro ⟨_, ⟨⟨other, member, rfl⟩, kept⟩, rfl⟩
    obtain ⟨id, named, some_row⟩ := owner.mp (List.mem_map.mpr member)
    rw [count, ← length named] at kept
    exact ⟨id, named, some_row, kept⟩
  · rintro ⟨id, named, some_row, kept⟩
    rw [length named, ← count] at kept
    exact ⟨_, ⟨⟨uuid, List.mem_map.mp (owner.mpr ⟨id, named, some_row⟩), rfl⟩, kept⟩, rfl⟩

/-- The ids asked for too many rows. -/
theorem countOver_ids (whole : tx.Exact) (field : String) (max limit : Int64) :
    ∃ ids : Finset UInt32, countOver tx field max limit = uuidsOf tx (inOrder ids) limit ∧
      ∀ id, id ∈ ids ↔ values tx id field ≠ [] ∧ max.toInt < (values tx id field).length := by
  refine ⟨_, rfl, fun id => ?_⟩
  split
  next least =>
    rw [mem_holders whole]
    refine (and_iff_left_of_imp fun some_row => ?_).symm
    have positive := List.length_pos_of_ne_nil some_row
    have below : max.toInt < 1 := Int64.lt_iff_toInt_lt.mp least
    omega
  next least =>
    have above : 1 ≤ max.toInt := by
      rw [Int64.lt_iff_toInt_lt] at least
      exact not_lt.mp least
    rw [Finset.mem_filter]
    constructor
    · rintro ⟨-, more⟩
      exact ⟨List.ne_nil_of_length_pos (by omega), more⟩
    · rintro ⟨-, more⟩
      exact ⟨(mem_maybeSeveral whole).mpr (.inl (by omega)), more⟩

theorem samples_countOver (whole : tx.Exact) (field : String) (max limit : Int64) :
    ∃ all, Derive.countsOver tx.primary field max = .ok all ∧
      Samples (countOver tx field max limit) all limit := by
  obtain ⟨counted, read, listed⟩ := @counts_spec tx field _ whole fun held => max.toInt < held.2
  obtain ⟨ids, finds, exceeds⟩ := countOver_ids whole field max limit
  refine ⟨_, by rw [Derive.countsOver, read]; rfl, ?_⟩
  rw [finds]
  refine samples_uuidsOf whole (nodup_inOrder _) (fun uuid => ?_) limit
  simp only [listed, mem_inOrder, exceeds, decide_eq_true_eq]
  exact exists_congr fun id => and_comm

/-- An id with one row, of some value. -/
def Single (tx : KvTxn) (id : UInt32) (field : String) : Prop :=
  ∃ value, values tx id field = [value] ∧ value.isNothing = false

theorem mem_single (whole : tx.Exact) :
    id ∈ holders tx field \ (holders tx field ∩ maybeSeveral tx field) ↔ Single tx id field := by
  rw [Finset.mem_sdiff, Finset.mem_inter, mem_holders whole, mem_maybeSeveral whole]
  constructor
  · rintro ⟨some_row, single⟩
    cases rows : values tx id field with
    | nil => exact absurd rows some_row
    | cons value rest =>
        rw [rows] at single
        cases rest with
        | nil =>
            refine ⟨value, rows, Bool.eq_false_iff.mpr fun nothing => ?_⟩
            exact single ⟨List.cons_ne_nil _ _, .inr ⟨value, List.mem_cons_self, nothing⟩⟩
        | cons _ _ => exact absurd ⟨List.cons_ne_nil _ _, .inl (by simp)⟩ single
  · rintro ⟨value, rows, valued⟩
    rw [rows]
    refine ⟨List.cons_ne_nil _ _, ?_⟩
    rintro ⟨-, several | ⟨other, member, nothing⟩⟩
    · simp at several
    · obtain rfl := List.mem_singleton.mp member
      rw [valued] at nothing
      cases nothing

/-- The ids asked for too few rows: those with one first, then the others that have too few. -/
theorem countUnder_ids (whole : tx.Exact) (field : String) {min : Int64} (limit : Int64)
    (above : 1 < min.toInt) : ∃ single counted : List UInt32,
      countUnder tx field min limit = uuidsOf tx (single ++ counted) limit ∧
      (single.Pairwise fun first second => first < second) ∧
      (counted.Pairwise fun first second => first < second) ∧
      (∀ id, id ∈ single ↔ Single tx id field) ∧
      ∀ id, id ∈ counted ↔ (values tx id field ≠ [] ∧ ¬Single tx id field) ∧
        (values tx id field).length < min.toInt := by
  have more : ¬min ≤ 1 := by
    rw [Int64.le_iff_toInt_le]
    exact not_le.mpr above
  refine ⟨_, _, by rw [countUnder, if_neg more], pairwise_inOrder _,
    (pairwise_inOrder _).filter _, fun id => ?_, fun id => ?_⟩
  · rw [mem_inOrder, mem_single whole]
  · rw [List.mem_filter, mem_inOrder, decide_eq_true_eq, ← mem_single whole, Finset.mem_sdiff,
      ← mem_holders whole]
    refine and_congr_left fun _ => ?_
    rw [Finset.mem_inter]
    tauto

theorem samples_countUnder (whole : tx.Exact) (field : String) (min limit : Int64) :
    ∃ all, Derive.countsUnder tx.primary field min = .ok all ∧
      Samples (countUnder tx field min limit) all limit := by
  obtain ⟨counted, read, listed⟩ := @counts_spec tx field _ whole fun held => held.2 < min.toInt
  refine ⟨_, by rw [Derive.countsUnder, read]; rfl, ?_⟩
  by_cases above : 1 < min.toInt
  · obtain ⟨single, several, finds, single_less, several_less, of_single, of_several⟩ :=
      countUnder_ids whole field limit above
    rw [finds]
    have nodup {ids : List UInt32} (less : ids.Pairwise fun first second => first < second) :
        ids.Nodup := less.imp fun {first second} less => (UInt32.ne_of_lt less : first ≠ second)
    refine samples_uuidsOf whole ?_ (fun uuid => ?_) limit
    · refine List.Nodup.append (nodup single_less) (nodup several_less) fun id one other => ?_
      exact ((of_several id).mp other).1.2 ((of_single id).mp one)
    · rw [listed]
      refine exists_congr fun id => ?_
      rw [and_comm, List.mem_append, of_single, of_several, decide_eq_true_eq]
      refine and_congr_left fun _ => ?_
      constructor
      · rintro ⟨some_row, fewer⟩
        by_cases one : Single tx id field
        · exact .inl one
        · exact .inr ⟨⟨some_row, one⟩, fewer⟩
      · rintro (⟨value, rows, -⟩ | ⟨⟨some_row, -⟩, fewer⟩)
        · rw [rows]
          exact ⟨List.cons_ne_nil _ _, above⟩
        · exact ⟨some_row, fewer⟩
  · have least : min ≤ 1 := Int64.le_iff_toInt_le.mpr (not_lt.mp above)
    rw [countUnder, if_pos least]
    refine samples_uuidsOf whole List.nodup_nil (fun uuid => ?_) limit
    rw [listed]
    refine iff_of_false ?_ (by simp)
    rintro ⟨id, -, some_row, fewer⟩
    have one := List.length_pos_of_ne_nil some_row
    have less := of_decide_eq_true fewer
    omega

/-- The holders listed from the rows. -/
theorem holders_spec (whole : tx.Exact) : ∃ rows, tx.primary.fieldRows field = .ok rows ∧
    (∀ uuid row, (uuid, row) ∈ rows ↔ tx.primary.Holds uuid row ∧ row.name = field) ∧
    ∀ {uuid id}, tx.derived.id uuid = some id →
      (uuid ∈ rows.map Prod.fst ↔ id ∈ holders tx field) := by
  obtain ⟨rows, read, -, listed⟩ := Derive.fieldRows_spec whole.consistent field
  refine ⟨rows, read, listed, fun {uuid id} named => ?_⟩
  have rowed := @exists_row_iff tx field _ whole uuid fun _ => True
  simp only [and_true] at rowed
  have owner : uuid ∈ rows.map Prod.fst ↔ ∃ row, (uuid, row) ∈ rows := by
    simp [List.mem_map]
  simp only [owner, listed, rowed]
  rw [mem_holders whole]
  constructor
  · rintro ⟨other, other_named, value, held⟩
    obtain rfl := Option.some.inj (named.symm.trans other_named)
    exact List.ne_nil_of_mem held
  · intro some_row
    obtain ⟨value, held⟩ := List.exists_mem_of_ne_nil _ some_row
    exact ⟨id, named, value, held⟩

theorem samples_missing (whole : tx.Exact) (field : String) (limit : Int64) :
    ∃ all, Derive.missings tx.primary field = .ok all ∧
      Samples (missing tx field limit) all limit := by
  obtain ⟨rows, read, -, held⟩ := @holders_spec tx field _ whole
  refine ⟨_, by rw [Derive.missings, read]; rfl, ?_⟩
  refine samples_uuidsOf whole (nodup_inOrder _) (fun uuid => ?_) limit
  rw [List.mem_filter, Derive.mem_metarecordUuids whole.consistent, decide_eq_true_eq]
  constructor
  · rintro ⟨present, unheld⟩
    obtain ⟨id, named⟩ := exists_id whole present
    refine ⟨id, mem_inOrder.mpr (Finset.mem_sdiff.mpr ⟨?_, ?_⟩), named⟩
    · exact (mem_universe whole).mpr ⟨uuid, named⟩
    · exact fun holds => unheld ((held named).mpr holds)
  · rintro ⟨id, member, named⟩
    have lacks := (Finset.mem_sdiff.mp (mem_inOrder.mp member)).2
    exact ⟨version_of_id whole named, fun holds => lacks ((held named).mp holds)⟩

theorem samples_typedMissing (whole : tx.Exact) (types : List String) (field : String)
    (limit : Int64) : ∃ all, Derive.typedMissings tx.primary types field = .ok all ∧
      Samples (typedMissing tx types field limit) all limit := by
  obtain ⟨ids, ordered, found, answer⟩ := @typedMissing_right _ tx field whole types limit
  have nodup : ids.Nodup := ordered.imp fun {first second} less =>
    (UInt32.ne_of_lt less : first ≠ second)
  obtain ⟨rows, read, -, held⟩ := @holders_spec tx field _ whole
  obtain ⟨schemas, schemas_read, -, listed⟩ :=
    Derive.fieldRows_spec whole.consistent "mf_schema"
  rw [show typedMissing tx types field limit = uuidsOf tx ids limit from answer]
  by_cases none_asked : types = []
  · refine ⟨[], by rw [Derive.typedMissings, if_pos none_asked]; rfl, ?_⟩
    refine samples_uuidsOf whole nodup (fun uuid => iff_of_false List.not_mem_nil ?_) limit
    rintro ⟨id, member, -⟩
    obtain ⟨⟨name, asked, -⟩, -⟩ := (found id).mp member
    rw [none_asked] at asked
    cases asked
  · refine ⟨_, by rw [Derive.typedMissings, if_neg none_asked, read, schemas_read]; rfl, ?_⟩
    refine samples_uuidsOf whole nodup (fun uuid => ?_) limit
    rw [List.mem_filter, mem_owners, decide_eq_true_eq]
    constructor
    · rintro ⟨⟨row, member, typed⟩, unheld⟩
      obtain ⟨holds, row_named⟩ := (listed uuid row).mp member
      obtain ⟨id, named⟩ := exists_id whole (whole.consistent.owner_exists holds)
      refine ⟨id, (found id).mpr ⟨?_, ?_⟩, named⟩
      · dsimp only at typed
        split at typed
        next name is_text =>
          exact ⟨name, of_decide_eq_true typed,
            (mem_values whole).mpr ⟨uuid, row, named, holds, row_named, is_text⟩⟩
        next => cases typed
      · by_contra some_row
        exact unheld ((held named).mpr ((mem_holders whole).mpr some_row))
    · rintro ⟨id, member, named⟩
      obtain ⟨⟨name, asked, declared⟩, unheld⟩ := (found id).mp member
      obtain ⟨owner, row, owner_named, holds, row_named, is_text⟩ := (mem_values whole).mp declared
      obtain rfl := whole.derives.toMapped.id_unique owner_named named
      refine ⟨⟨row, (listed _ _).mpr ⟨holds, row_named⟩, ?_⟩, fun holder => ?_⟩
      · rw [is_text]
        exact decide_eq_true asked
      · exact (mem_holders whole).mp ((held named).mp holder) unheld

/-- A question finds as many as asked of the metarecords the rows list, each once. -/
def Agrees (found listed : Outcome (List Uuid)) (derived : Int64 → Outcome (List Uuid))
    (limit : Int64) : Prop :=
  ∃ given all, found = .ok given ∧ listed = .ok all ∧
    (∀ bound, derived bound = .ok (Derive.take all bound)) ∧ Samples given all limit

omit [Externals] in
/-- An answer agrees with the one cut off what the rows list. -/
theorem agrees_of_samples {found listed : Outcome (List Uuid)} {given all : List Uuid}
    {limit : Int64} (finds : found = .ok given) (lists : listed = .ok all)
    (samples : Samples given all limit) :
    Agrees found listed (fun bound => (Derive.take · bound) <$> listed) limit := by
  subst lists
  exact ⟨given, all, finds, rfl, fun _ => rfl, samples⟩

/-- Where the derived tables are in step, each question of the schema finds as many as asked of the
metarecords the rows list, each once. -/
theorem questions_agree (whole : tx.Exact) (field : String) (limit : Int64) :
    (∀ allowed, Agrees (wrongType tx field allowed limit)
      (Derive.wrongTypes tx.primary field allowed) (Derive.wrongType tx.primary field allowed)
      limit) ∧
    (∀ max, Agrees (.ok (countOver tx field max limit)) (Derive.countsOver tx.primary field max)
      (Derive.countOver tx.primary field max) limit) ∧
    (∀ min, Agrees (.ok (countUnder tx field min limit)) (Derive.countsUnder tx.primary field min)
      (Derive.countUnder tx.primary field min) limit) ∧
    Agrees (.ok (missing tx field limit)) (Derive.missings tx.primary field)
      (Derive.missing tx.primary field) limit ∧
    ∀ types, Agrees (.ok (typedMissing tx types field limit))
      (Derive.typedMissings tx.primary types field) (Derive.typedMissing tx.primary types field)
      limit := by
  refine ⟨fun allowed => ?_, fun max => ?_, fun min => ?_, ?_, fun types => ?_⟩
  · obtain ⟨given, all, finds, lists, samples⟩ := samples_wrongType whole field allowed limit
    exact agrees_of_samples finds lists samples
  · obtain ⟨all, lists, samples⟩ := samples_countOver whole field max limit
    exact agrees_of_samples rfl lists samples
  · obtain ⟨all, lists, samples⟩ := samples_countUnder whole field min limit
    exact agrees_of_samples rfl lists samples
  · obtain ⟨all, lists, samples⟩ := samples_missing whole field limit
    exact agrees_of_samples rfl lists samples
  · obtain ⟨all, lists, samples⟩ := samples_typedMissing whole types field limit
    exact agrees_of_samples rfl lists samples

end KvSource

/-- A write of a metarecord with two tags, and of one with none. -/
def sampleHolders : Transaction where
  context := .new ⟨"tags", none, none⟩
  retention := .unlimited
  timestamp := 7
  calls := [.createMetarecord (sampleUuids 1) [⟨"tag", .string "a"⟩, ⟨"tag", .string "b"⟩],
    .createMetarecord (sampleUuids 2) []]

/-- Two tags are more than one. -/
theorem questions_agree_twice : letI : Externals := lowerExternals
    ∃ store, sampleHolders.run {} = .ok store ∧
      Samples (KvSource.countOver store.tx "tag" 1 5) [sampleUuids 1] 5 := by
  let _ : Externals := lowerExternals
  have run : (fun store : KvStore => Derive.countsOver store.tx.primary "tag" 1) <$>
      sampleHolders.run {} = .ok (.ok [sampleUuids 1]) := by
    decide +kernel
  obtain ⟨store, ran, listed⟩ := Except.map_eq_ok.mp run
  have reached : Reachable (fun _ => True) store := .commit sampleHolders .new trivial ran
  obtain ⟨given, all, finds, lists, -, samples⟩ :=
    (KvSource.questions_agree reached.exact "tag" 5).2.1 1
  obtain rfl := Except.ok.inj finds
  obtain rfl := Except.ok.inj (lists.symm.trans listed)
  exact ⟨store, ran, samples⟩

/-- In every store reachable, the derived tables but the sets of descendants hold what the rows
derive, and each posting all holders of its value. -/
theorem derived_follows_rows [Externals] {store : KvStore}
    (reached : Reachable (fun _ => True) store) :
    store.tx.derived.Derives store.tx.primary ∧ store.tx.derived.Posted :=
  ⟨reached.exact.derives, reached.exact.posted⟩

theorem derived_follows_rows_tags : letI : Externals := lowerExternals
    ∃ store, sampleHolders.run {} = .ok store ∧
      store.tx.derived.Derives store.tx.primary ∧ store.tx.derived.Posted := by
  let _ : Externals := lowerExternals
  have run : (fun _ => ()) <$> sampleHolders.run {} = .ok () := by decide +kernel
  obtain ⟨store, ran, -⟩ := Except.map_eq_ok.mp run
  exact ⟨store, ran, derived_follows_rows (.commit sampleHolders .new trivial ran)⟩

end Metafolder
