import Metafolder.DerivedTables
import Metafolder.PrimaryKeys

/-!
# The keys of the derived tables

A derived key determines what it is made of: the kind of a set, its field and its node, the field,
the partition, the key and the dense id of a count.  What a value derives is the same whether it is
the value given or the one read back.
-/

namespace Metafolder

@[simp]
theorem length_be32 (id : UInt32) : (be32 id).length = 4 := by
  simp [be32]

theorem be32_injective : Function.Injective be32 := by
  intro first second same
  have bound (id : UInt32) : id.toNat < 256 ^ 4 := id.toNat_lt
  exact UInt32.toNat_inj.mp (ByteCode.bigEndian_injective (bound first) (bound second) same)

@[simp]
theorem be32_inj {first second : UInt32} : be32 first = be32 second ↔ first = second :=
  be32_injective.eq_iff

theorem dense_be32 (id : UInt32) (rest : Bytes) : dense (be32 id ++ rest) = id := by
  have width : (be32 id ++ rest).take 4 = be32 id := by
    rw [List.take_append_of_le_length (by simp), List.take_of_length_le (by simp)]
  have bound : id.toNat < 256 ^ 4 := id.toNat_lt
  rw [dense, width, be32, ByteCode.ofBigEndian_bigEndian, Nat.mod_eq_of_lt bound,
    UInt32.ofNat_toNat]

theorem append_be32_inj {first second : Bytes} {idFirst idSecond : UInt32} :
    first ++ be32 idFirst = second ++ be32 idSecond ↔ first = second ∧ idFirst = idSecond := by
  constructor
  · intro same
    obtain ⟨fronts, ids⟩ := List.append_inj' same (by simp)
    exact ⟨fronts, be32_injective ids⟩
  · rintro ⟨rfl, rfl⟩
    rfl

/-! ### Counts -/

@[simp]
theorem partKey_inj {fieldFirst fieldSecond : String} {partFirst partSecond : UInt8}
    {keyFirst keySecond : Bytes} {idFirst idSecond : UInt32} :
    partKey fieldFirst partFirst keyFirst idFirst = partKey fieldSecond partSecond keySecond idSecond ↔
      fieldFirst = fieldSecond ∧ partFirst = partSecond ∧ keyFirst = keySecond ∧
        idFirst = idSecond := by
  constructor
  · intro same
    simp only [partKey, partPrefix, List.append_assoc] at same
    obtain ⟨fields, rest⟩ := nameKey_append_inj same
    rw [List.singleton_append, List.singleton_append, List.cons.injEq, append_be32_inj] at rest
    exact ⟨fields, rest⟩
  · rintro ⟨rfl, rfl, rfl, rfl⟩
    rfl

theorem kidsPrefix_append_inj {first second : Uuid} {fieldFirst fieldSecond : String}
    {restFirst restSecond : Bytes}
    (same : kidsPrefix first fieldFirst ++ restFirst = kidsPrefix second fieldSecond ++ restSecond) :
    first = second ∧ fieldFirst = fieldSecond ∧ restFirst = restSecond := by
  simp only [kidsPrefix, List.append_assoc] at same
  obtain ⟨parents, rest⟩ := Uuid.bytes_append_inj same
  obtain ⟨fields, rests⟩ := nameKey_append_inj rest
  exact ⟨parents, fields, rests⟩

theorem kidsPrefix_prefix_iff (parent other : Uuid) (field name : String) (id : UInt32) :
    kidsPrefix parent field <+: kidsKey other name id ↔ parent = other ∧ field = name := by
  constructor
  · rintro ⟨rest, same⟩
    obtain ⟨parents, fields, -⟩ := kidsPrefix_append_inj same
    exact ⟨parents, fields⟩
  · rintro ⟨rfl, rfl⟩
    exact List.prefix_append _ _

theorem bytes_prefix_kidsKey (parent other : Uuid) (field : String) (id : UInt32) :
    parent.bytes <+: kidsKey other field id ↔ parent = other := by
  rw [kidsKey, kidsPrefix, List.append_assoc, Uuid.prefix_iff]

/-! ### Sets -/

/-- The sets there is one of for each field. -/
inductive FieldKind
  | present
  | absent
  | parents
  | longTexts
  | multi
deriving DecidableEq

/-- The byte a kind of sets goes by. -/
def FieldKind.byte : FieldKind → UInt8
  | present => presentKind
  | absent => absentKind
  | parents => parentsKind
  | longTexts => longTextsKind
  | multi => multiKind

theorem FieldKind.byte_injective : Function.Injective FieldKind.byte := by
  intro first second same
  cases first <;> cases second <;> first | rfl | exact absurd same (by decide)

theorem FieldKind.byte_mem (kind : FieldKind) : kind.byte ∈ [1, 2, 3, 4, 8] := by
  cases kind <;> decide

/-- What the key of a set is made of. -/
inductive SetKey
  | all
  | ofField (kind : FieldKind) (field : String)
  | referrers (field : String) (target : Uuid)
  | descendants (field : String) (node : Uuid)
  | posting (field : String) (key : Bytes)
deriving DecidableEq

namespace SetKey

/-- The key of a set. -/
def bytes : SetKey → Bytes
  | all => setPrefix universeKind none
  | ofField kind field => setPrefix kind.byte (some field)
  | referrers field target => referrersPrefix field target
  | descendants field node => descendantsPrefix field node
  | posting field key => postingPrefix field key

/-- The byte the kind of a set goes by. -/
def tag : SetKey → UInt8
  | all => universeKind
  | ofField kind _ => kind.byte
  | referrers _ _ => referrersKind
  | descendants _ _ => descendantsKind
  | posting _ _ => postingsKind

/-- What follows the kind in the key of a set. -/
def rest : SetKey → Bytes
  | all => []
  | ofField _ field => nameKey field
  | referrers field target => nameKey field ++ target.bytes
  | descendants field node => nameKey field ++ node.bytes
  | posting field key => nameKey field ++ key

theorem bytes_eq (key : SetKey) : key.bytes = key.tag :: key.rest := by
  cases key <;> rfl

theorem bytes_injective : Function.Injective bytes := by
  intro first second same
  rw [bytes_eq, bytes_eq, List.cons.injEq] at same
  obtain ⟨tags, rests⟩ := same
  cases first <;> cases second
  case all.all => rfl
  case ofField.ofField kindFirst _ kindSecond _ =>
    rw [FieldKind.byte_injective tags, nameKey_injective rests]
  case referrers.referrers =>
    obtain ⟨rfl, targets⟩ := nameKey_append_inj rests
    rw [Uuid.ext targets]
  case descendants.descendants =>
    obtain ⟨rfl, nodes⟩ := nameKey_append_inj rests
    rw [Uuid.ext nodes]
  case posting.posting =>
    obtain ⟨rfl, rfl⟩ := nameKey_append_inj rests
    rfl
  -- The kinds of the two sorts of sets differ.
  all_goals
    simp only [tag] at tags
    first
      | exact absurd tags (by decide)
      | exact absurd (tags ▸ FieldKind.byte_mem _) (by decide)

@[simp]
theorem bytes_inj {first second : SetKey} : first.bytes = second.bytes ↔ first = second :=
  bytes_injective.eq_iff

end SetKey

/-! ### Sets of a sort -/

namespace Derived

/-- The keys of the sets are those of sets, and no set is empty. -/
def SetsKeyed (derived : Derived) : Prop :=
  ∀ ⦃key ids⦄, derived.sets.get key = some ids → ids ≠ ∅ ∧ ∃ made : SetKey, key = made.bytes

/-- Some sets changed, all of a sort. -/
structure SetsChanged (sort : SetKey → Prop) (derived after : Derived) : Prop where
  /-- What may differ. -/
  eq : after = { derived with sets := after.sets }
  /-- The other sets stay. -/
  same : ∀ {key}, ¬sort key → readSet after.sets key.bytes = readSet derived.sets key.bytes
  /-- Keys stay keys of sets that are not empty. -/
  keyed : SetsKeyed derived → SetsKeyed after

theorem SetsChanged.refl (sort : SetKey → Prop) (derived : Derived) :
    SetsChanged sort derived derived := ⟨rfl, fun _ => rfl, fun keyed => keyed⟩

theorem SetsChanged.trans {sort : SetKey → Prop} {derived middle after : Derived}
    (one : SetsChanged sort derived middle) (two : SetsChanged sort middle after) :
    SetsChanged sort derived after := by
  refine ⟨?_, fun other => (two.same other).trans (one.same other), fun keyed =>
    two.keyed (one.keyed keyed)⟩
  rw [two.eq, one.eq]

/-- One set written. -/
theorem setsChanged_write {sort : SetKey → Prop} (derived : Derived) {key : SetKey}
    (sorted : sort key) (ids : Finset UInt32) :
    SetsChanged sort derived { derived with sets := writeSet derived.sets key.bytes ids } := by
  refine ⟨rfl, fun {other} unsorted => ?_, fun keyed other held found => ?_⟩
  · dsimp only
    rw [readSet_writeSet, if_neg]
    rw [SetKey.bytes_inj]
    rintro rfl
    exact unsorted sorted
  · by_cases same : key.bytes = other
    · rw [← same, get_writeSet_self] at found
      exact ⟨found.1 ▸ found.2, key, same.symm⟩
    · rw [get_writeSet_of_ne _ _ same] at found
      exact keyed found

theorem setsChanged_member {sort : SetKey → Prop} (derived : Derived) {key : SetKey}
    (sorted : sort key) (id : UInt32) (member : Bool) :
    SetsChanged sort derived
      { derived with sets := chunkMember derived.sets key.bytes id member } :=
  setsChanged_write derived sorted _

/-- Sets written one after the other. -/
theorem setsChanged_foldl {α : Type} {sort : SetKey → Prop}
    {step : Table (Finset UInt32) → α → Table (Finset UInt32)} (items : List α) (derived : Derived)
    (stepped : ∀ (held : Derived), ∀ item ∈ items,
      SetsChanged sort held { held with sets := step held.sets item }) :
    SetsChanged sort derived { derived with sets := items.foldl step derived.sets } := by
  induction items generalizing derived with
  | nil => exact .refl sort derived
  | cons head tail ih =>
      have one := stepped derived head List.mem_cons_self
      exact one.trans (ih { derived with sets := step derived.sets head } fun held item member =>
        stepped held item (List.mem_cons_of_mem _ member))

theorem setsChanged_setMember {sort : SetKey → Prop} (derived : Derived) (kind : FieldKind)
    {field : String} (sorted : sort (.ofField kind field)) (id : UInt32) (member : Bool) :
    SetsChanged sort derived (derived.setMember kind.byte (some field) id member) :=
  setsChanged_member derived sorted id member

theorem mem_setMember {derived : Derived} {kind : FieldKind} {field : String} {id held : UInt32}
    {member : Bool} {key : SetKey} :
    held ∈ readSet (derived.setMember kind.byte (some field) id member).sets key.bytes ↔
      if key = .ofField kind field ∧ held = id then member = true
      else held ∈ readSet derived.sets key.bytes := by
  have written := @mem_chunkMember derived.sets (SetKey.ofField kind field).bytes key.bytes id held
    member
  simp only [SetKey.bytes_inj, @eq_comm SetKey _ key] at written ⊢
  exact written

theorem setsChanged_apply {sort : SetKey → Prop} (derived : Derived) {key : SetKey}
    (sorted : sort key) (ids : Finset UInt32) (add : Bool) :
    SetsChanged sort derived { derived with sets := chunkApply derived.sets key.bytes ids add } :=
  setsChanged_write derived sorted _

end Derived

theorem gramPrefix_inj {fieldFirst fieldSecond : String} {first second : Bytes} :
    gramPrefix fieldFirst first = gramPrefix fieldSecond second ↔
      fieldFirst = fieldSecond ∧ first = second := by
  constructor
  · exact nameKey_append_inj
  · rintro ⟨rfl, rfl⟩
    rfl

/-! ### What a value derives -/

theorem targetOf_stored (value : Value) : targetOf value.stored = targetOf value := by
  cases value <;> simp [Value.stored, targetOf, Value.position, storedParent_getD]

variable [Externals]

theorem valueKey_stored (value : Value) : valueKey value.stored = valueKey value := by
  cases value <;> simp [Value.stored, valueKey, storedParent_getD]

theorem namePartKey_stored (value : Value) : namePartKey value.stored = namePartKey value := by
  cases value <;> simp [Value.stored, namePartKey, Value.position]

theorem searchText_stored (value : Value) : searchText value.stored = searchText value := by
  cases value <;> rfl

end Metafolder
