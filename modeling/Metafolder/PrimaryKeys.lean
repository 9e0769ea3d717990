import Metafolder.Primary

/-!
# The keys of the primary tables

Composite keys determine what they are made of: a uuid and a number have a fixed width, and a name
is terminated.  Each range the reads scan therefore holds the entries of one metarecord, or of one
field, and no other.
-/

namespace Metafolder

@[simp]
theorem length_be (n : Int64) : (be n).length = 8 := by
  simp [be]

theorem be_injective : Function.Injective be := by
  intro first second same
  have bound (n : Int64) : n.toUInt64.toNat < 256 ^ 8 := n.toUInt64.toNat_lt
  have numbers := UInt64.toNat_inj.mp
    (ByteCode.bigEndian_injective (bound first) (bound second) same)
  rw [← Int64.toInt64_toUInt64 first, numbers, Int64.toInt64_toUInt64]

theorem fromBe_be (n : Int64) (rest : Bytes) : fromBe (be n ++ rest) = n := by
  have width : (be n ++ rest).take 8 = be n := by
    rw [List.take_append_of_le_length (by simp), List.take_of_length_le (by simp)]
  have bound : n.toUInt64.toNat < 256 ^ 8 := n.toUInt64.toNat_lt
  rw [fromBe, width, be, ByteCode.ofBigEndian_bigEndian, Nat.mod_eq_of_lt bound,
    UInt64.ofNat_toNat, Int64.toInt64_toUInt64]

theorem be_append_inj {first second : Int64} {restFirst restSecond : Bytes}
    (same : be first ++ restFirst = be second ++ restSecond) :
    first = second ∧ restFirst = restSecond := by
  obtain ⟨numbers, rests⟩ := ByteCode.fixed_append_inj (by simp) same
  exact ⟨be_injective numbers, rests⟩

theorem nameKey_append_inj {first second : String} {restFirst restSecond : Bytes}
    (same : nameKey first ++ restFirst = nameKey second ++ restSecond) :
    first = second ∧ restFirst = restSecond := by
  obtain ⟨names, rests⟩ := ByteCode.terminated_append_inj same
  exact ⟨String.asBytes_injective names, rests⟩

theorem nameKey_injective : Function.Injective nameKey :=
  ByteCode.terminated_injective.comp String.asBytes_injective

theorem cellPrefix_append_inj {first second : Uuid} {fieldFirst fieldSecond : String}
    {restFirst restSecond : Bytes}
    (same : cellPrefix first fieldFirst ++ restFirst = cellPrefix second fieldSecond ++ restSecond) :
    first = second ∧ fieldFirst = fieldSecond ∧ restFirst = restSecond := by
  simp only [cellPrefix, List.append_assoc] at same
  obtain ⟨uuids, rest⟩ := Uuid.bytes_append_inj same
  obtain ⟨names, rests⟩ := nameKey_append_inj rest
  exact ⟨uuids, names, rests⟩

@[simp]
theorem cellPrefix_inj {first second : Uuid} {fieldFirst fieldSecond : String} :
    cellPrefix first fieldFirst = cellPrefix second fieldSecond ↔
      first = second ∧ fieldFirst = fieldSecond := by
  constructor
  · intro same
    obtain ⟨uuids, names, _⟩ := cellPrefix_append_inj (congrArg (· ++ []) same)
    exact ⟨uuids, names⟩
  · rintro ⟨rfl, rfl⟩
    rfl

@[simp]
theorem cellKey_inj {first second : Uuid} {fieldFirst fieldSecond : String}
    {idFirst idSecond : Int64} :
    cellKey first fieldFirst idFirst = cellKey second fieldSecond idSecond ↔
      first = second ∧ fieldFirst = fieldSecond ∧ idFirst = idSecond := by
  constructor
  · intro same
    obtain ⟨uuids, names, ids⟩ := cellPrefix_append_inj same
    exact ⟨uuids, names, be_injective ids⟩
  · rintro ⟨rfl, rfl, rfl⟩
    rfl

@[simp]
theorem fieldKey_inj {fieldFirst fieldSecond : String} {idFirst idSecond : Int64} :
    fieldKey fieldFirst idFirst = fieldKey fieldSecond idSecond ↔
      fieldFirst = fieldSecond ∧ idFirst = idSecond := by
  constructor
  · intro same
    obtain ⟨names, ids⟩ := nameKey_append_inj same
    exact ⟨names, be_injective ids⟩
  · rintro ⟨rfl, rfl⟩
    rfl

@[simp]
theorem typeKey_inj {fieldFirst fieldSecond typeFirst typeSecond : String} :
    typeKey fieldFirst typeFirst = typeKey fieldSecond typeSecond ↔
      fieldFirst = fieldSecond ∧ typeFirst = typeSecond := by
  constructor
  · intro same
    obtain ⟨names, types⟩ := nameKey_append_inj same
    exact ⟨names, String.asBytes_injective types⟩
  · rintro ⟨rfl, rfl⟩
    rfl

@[simp]
theorem be_inj {first second : Int64} : be first = be second ↔ first = second :=
  be_injective.eq_iff

/-! ### Ranges -/

theorem be_prefix_iff {first second : Int64} (rest : Bytes) :
    be first <+: be second ++ rest ↔ first = second := by
  rw [ByteCode.fixed_prefix_iff rest (by simp [be]), be_inj]

theorem bytes_prefix_cellKey (uuid owner : Uuid) (field : String) (id : Int64) :
    uuid.bytes <+: cellKey owner field id ↔ uuid = owner := by
  rw [cellKey, cellPrefix, List.append_assoc, Uuid.prefix_iff]

theorem cellPrefix_prefix_cellKey (uuid owner : Uuid) (name field : String) (id : Int64) :
    cellPrefix uuid name <+: cellKey owner field id ↔ uuid = owner ∧ name = field := by
  constructor
  · rintro ⟨rest, same⟩
    obtain ⟨uuids, names, _⟩ := cellPrefix_append_inj same
    exact ⟨uuids, names⟩
  · rintro ⟨rfl, rfl⟩
    exact List.prefix_append _ _

theorem nameKey_prefix_iff (name field : String) (rest : Bytes) :
    nameKey name <+: nameKey field ++ rest ↔ name = field := by
  rw [nameKey, nameKey, ByteCode.terminated_prefix_iff, String.asBytes_injective.eq_iff]

theorem ofBytes_cellPrefix (uuid : Uuid) (field : String) :
    Uuid.ofBytes (cellPrefix uuid field) = uuid :=
  Uuid.ofBytes_append uuid _

/-- A text is read from its bytes. -/
theorem fromUTF8?_asBytes (text : String) :
    String.fromUTF8? ⟨text.asBytes.toArray⟩ = some text := by
  have array : (⟨text.asBytes.toArray⟩ : ByteArray) = text.toByteArray := by
    ext1
    simp [String.asBytes]
  rw [array, String.fromUTF8?, dif_pos text.isValidUTF8]
  rfl

theorem textOf_asBytes (text : String) : textOf text.asBytes = pure text := by
  rw [textOf, fromUTF8?_asBytes]
  rfl

/-! ### Forest keys -/

variable [Externals]

theorem forestKey_stored (name : String) (value : Value) :
    forestKey name value.stored = forestKey name value := by
  simp only [forestKey, Value.position_stored]
  cases value.position with
  | none => rfl
  | some held => simp [storedParent_getD]

theorem isSome_forestKey (name : String) (value : Value) :
    (forestKey name value).isSome = value.position.isSome := by
  simp [forestKey]

end Metafolder
