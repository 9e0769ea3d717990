import Metafolder.Outcome
import Metafolder.Value

/-!
# Rows and their stored form

A value is stored in columns: its type, and the one or two columns the type uses.  Reading the
columns back gives `Value.stored`, the value itself except for a position under the zero uuid, which
is read back as a root.  The version of a row hashes the columns.
-/

namespace Metafolder

/-- The failures a client is told of. -/
inductive DomainError
  /-- `404`. -/
  | notFound (message : String)
  /-- `409`. -/
  | conflict (message : String)
  /-- `400`. -/
  | badRequest (message : String)
deriving DecidableEq

/-- Why an operation failed.  A write that fails is abandoned whole. -/
inductive Failure
  | domain (error : DomainError)
  /-- Any other error, an arithmetic overflow included. -/
  | internal (message : String)
deriving DecidableEq

/-- The result of an operation that may fail. -/
abbrev Outcome := Except Failure

namespace Failure

/-- A request that is itself invalid. -/
def badRequest (message : String) : Failure := .domain (.badRequest message)

/-- A request naming what does not exist. -/
def notFound (message : String) : Failure := .domain (.notFound message)

/-- A request in conflict with what exists. -/
def conflict (message : String) : Failure := .domain (.conflict message)

/-- `downcast_ref::<DomainError>`: whether a client is to blame. -/
def isDomain : Failure → Bool
  | domain _ => true
  | internal _ => false

end Failure

/-- Fail with an error no request is to blame for. -/
def bail {α : Type} (message : String) : Outcome α := .error (.internal message)

/-- Fail when a condition holds. -/
def refuseIf (condition : Prop) [Decidable condition] (failure : Failure) : Outcome Unit :=
  if condition then .error failure else pure ()

@[simp]
theorem bail_eq_ok {α : Type} (message : String) (value : α) :
    bail message = .ok value ↔ False := by
  simp [bail]

@[simp]
theorem refuseIf_eq_ok {condition : Prop} [Decidable condition] {failure : Failure}
    {result : Unit} : refuseIf condition failure = .ok result ↔ ¬condition := by
  by_cases holds : condition <;> simp [refuseIf, holds]

/-- `a + b` on `i64`, an overflow being a failure. -/
def addInt64 (a b : Int64) : Outcome Int64 :=
  if Int64.minValue.toInt ≤ a.toInt + b.toInt ∧ a.toInt + b.toInt ≤ Int64.maxValue.toInt then
    pure (Int64.ofInt (a.toInt + b.toInt))
  else bail "attempt to add with overflow"

theorem addInt64_eq {a b sum : Int64} (added : addInt64 a b = .ok sum) : sum = a + b := by
  unfold addInt64 at added
  split at added
  · rename_i fits
    rw [Except.pure_eq_ok] at added
    rw [← added, Int64.ofInt_add, Int64.ofInt_toInt, Int64.ofInt_toInt]
  · simp at added

theorem toInt_addInt64 {a b sum : Int64} (added : addInt64 a b = .ok sum) :
    sum.toInt = a.toInt + b.toInt := by
  unfold addInt64 at added
  split at added
  · rename_i fits
    rw [Except.pure_eq_ok] at added
    subst added
    rw [Int64.toInt_minValue, Int64.toInt_maxValue] at fits
    exact Int64.toInt_ofInt_of_le fits.1 (by omega)
  · simp at added

/-- One row of a metarecord's fields. -/
structure FieldRow where
  /-- The row's id, its identity in the store. -/
  id : Int64
  /-- The field it is a row of. -/
  name : String
  /-- What it holds. -/
  value : Value
deriving DecidableEq

/-- The columns of a stored value: `EncodedValue`, and `RawValue` when read back. -/
structure EncodedValue where
  /-- The type's name. -/
  valueType : String
  /-- A string. -/
  text : Option String := none
  /-- An int, a bool or a date. -/
  int : Option Int64 := none
  /-- A float. -/
  real : Option F64 := none
  /-- The uuid a value points at. -/
  uuid : Option Bytes := none
  /-- The repository an external reference points into. -/
  refRepo : Option Bytes := none
  /-- A node's name as text. -/
  name : Option String := none
  /-- A node's name as its exact bytes. -/
  nameBytes : Option Bytes := none
deriving DecidableEq

/-- `rows::encode_value`. -/
def encodeValue (value : Value) : EncodedValue :=
  let position (parent : Option Uuid) (name : TreeName) : EncodedValue :=
    { valueType := value.typeStr
      uuid := some (parent.getD Uuid.zero).bytes
      name := some name.display
      nameBytes := some name.bytes }
  match value with
  | .nothing => { valueType := "nothing" }
  | .string text => { valueType := "string", text := some text }
  | .int n => { valueType := "int", int := some n }
  | .float f => { valueType := "float", real := some f }
  | .bool b => { valueType := "bool", int := some (if b then 1 else 0) }
  | .dateTime ms => { valueType := "datetime", int := some ms }
  | .ref uuid => { valueType := "ref", uuid := some uuid.bytes }
  | .treeRef parent name => position parent name
  | .hierarchyRef parent name => position parent name
  | .refBase uuid => { valueType := "refbase", uuid := some uuid.bytes }
  | .externalRef repo metarecord =>
      { valueType := "externalref", uuid := some metarecord.bytes, refRepo := some repo.bytes }

/-- `rows::bytes_to_uuid`. -/
def bytesToUuid (bytes : Bytes) : Outcome Uuid :=
  if size : bytes.length = 16 then pure ⟨bytes, size⟩
  else bail "Invalid UUID blob: expected 16 bytes"

/-- `Option::context`: a missing column is an error. -/
def context {α : Type} (column : Option α) (message : String) : Outcome α :=
  match column with
  | some value => pure value
  | none => bail message

/-- `rows::decode_value`. -/
def decodeValue (raw : EncodedValue) : Outcome Value :=
  let position (build : Option Uuid → TreeName → Value) : Outcome Value := do
    let parent ← bytesToUuid (← context raw.uuid "value_uuid missing")
    let name ← match raw.nameBytes with
      | some bytes => pure ⟨bytes⟩
      | none => TreeName.ofString <$> context raw.name "value_name missing"
    pure (build (if parent = Uuid.zero then none else some parent) name)
  match raw.valueType with
  | "nothing" => pure .nothing
  | "string" => .string <$> context raw.text "value_text missing"
  | "int" => .int <$> context raw.int "value_int missing"
  | "float" => .float <$> context raw.real "value_real missing"
  | "bool" => (fun n => .bool (n != 0)) <$> context raw.int "value_int missing"
  | "datetime" => .dateTime <$> context raw.int "value_int missing"
  | "ref" => do pure (.ref (← bytesToUuid (← context raw.uuid "value_uuid missing")))
  | "tree_ref" => position .treeRef
  | "hierarchy_ref" => position .hierarchyRef
  | "refbase" => do pure (.refBase (← bytesToUuid (← context raw.uuid "value_uuid missing")))
  | "externalref" => do
      let repo ← bytesToUuid (← context raw.refRepo "value_ref_repo missing")
      let metarecord ← bytesToUuid (← context raw.uuid "value_uuid missing")
      pure (.externalRef repo metarecord)
  | other => bail s!"Unknown value type: '{other}'"

/-- The parent a position is read back with: the zero uuid marks a root. -/
def storedParent (parent : Option Uuid) : Option Uuid :=
  if parent = some Uuid.zero then none else parent

/-- The value read back from the columns a value is stored in. -/
def Value.stored : Value → Value
  | treeRef parent name => treeRef (storedParent parent) name
  | hierarchyRef parent name => hierarchyRef (storedParent parent) name
  | value => value

/-- The row read back from what a row is stored as. -/
def FieldRow.stored (row : FieldRow) : FieldRow := { row with value := row.value.stored }

@[simp]
theorem bytesToUuid_bytes (uuid : Uuid) : bytesToUuid uuid.bytes = pure uuid := by
  simp [bytesToUuid, uuid.size]

@[simp]
theorem storedParent_idem (parent : Option Uuid) :
    storedParent (storedParent parent) = storedParent parent := by
  unfold storedParent
  split <;> simp_all

theorem storedParent_getD (parent : Option Uuid) :
    (storedParent parent).getD Uuid.zero = parent.getD Uuid.zero := by
  unfold storedParent
  split <;> simp_all

theorem storedParent_of_getD (parent : Option Uuid) :
    (if parent.getD Uuid.zero = Uuid.zero then none else some (parent.getD Uuid.zero)) =
      storedParent parent := by
  cases parent with
  | none => simp [storedParent]
  | some uuid => simp [storedParent]

/-- Reading back what was written gives the stored value. -/
theorem decodeValue_encodeValue (value : Value) :
    decodeValue (encodeValue value) = pure value.stored := by
  cases value with
  | bool b => cases b <;> rfl
  | treeRef parent name =>
      simp [encodeValue, decodeValue, Value.typeStr, context, Value.stored, storedParent_of_getD]
  | hierarchyRef parent name =>
      simp [encodeValue, decodeValue, Value.typeStr, context, Value.stored, storedParent_of_getD]
  | _ => simp [encodeValue, decodeValue, context, Value.stored]

@[simp]
theorem Value.stored_stored (value : Value) : value.stored.stored = value.stored := by
  cases value <;> simp [Value.stored]

@[simp]
theorem Value.typeStr_stored (value : Value) : value.stored.typeStr = value.typeStr := by
  cases value <;> rfl

@[simp]
theorem Value.isNothing_stored (value : Value) : value.stored.isNothing = value.isNothing := by
  cases value <;> rfl

theorem Value.position_stored (value : Value) :
    value.stored.position = value.position.map fun held => (storedParent held.1, held.2) := by
  cases value <;> rfl

/-- What is stored of a value is stored of the value read back. -/
@[simp]
theorem encodeValue_stored (value : Value) : encodeValue value.stored = encodeValue value := by
  cases value <;> simp [encodeValue, Value.stored, Value.typeStr, storedParent_getD]

@[simp]
theorem FieldRow.stored_stored (row : FieldRow) : row.stored.stored = row.stored := by
  simp [FieldRow.stored]

@[simp]
theorem FieldRow.stored_id (row : FieldRow) : row.stored.id = row.id := rfl

@[simp]
theorem FieldRow.stored_name (row : FieldRow) : row.stored.name = row.name := rfl

@[simp]
theorem FieldRow.stored_value (row : FieldRow) : row.stored.value = row.value.stored := rfl

end Metafolder
