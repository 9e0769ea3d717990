import Metafolder.ByteCode
import Mathlib.Data.Int.Basic

/-!
# Field values

The values a field row holds, with the identifiers, node names and floats inside them.  Equality of
values as the program tests it (`Value.eq`) is not equality of what is stored: a NaN differs from
itself, and the two zeros are equal.
-/

/-- `as_bytes`: the UTF-8 bytes of a text. -/
def String.asBytes (text : String) : Bytes := text.toByteArray.data.toList

theorem String.asBytes_injective : Function.Injective String.asBytes := by
  rintro first second same
  have arrays : first.toByteArray = second.toByteArray := by
    ext1
    exact Array.toList_inj.mp same
  exact String.toByteArray_inj.mp arrays

namespace Metafolder

/-- A uuid: sixteen bytes. -/
structure Uuid where
  /-- The bytes, the most significant first. -/
  bytes : Bytes
  /-- There are sixteen of them. -/
  size : bytes.length = 16
deriving DecidableEq

namespace Uuid

theorem length_filled (byte : UInt8) : (List.replicate 16 byte).length = 16 :=
  List.length_replicate

theorem length_ones : (List.replicate 16 (1 : UInt8)).length = 16 := length_filled 1

/-- `ZERO_UUID`, the parent of the roots in the store. -/
def zero : Uuid := ⟨List.replicate 16 0, rfl⟩

instance : Inhabited Uuid := ⟨zero⟩

@[ext]
theorem ext {first second : Uuid} (same : first.bytes = second.bytes) : first = second := by
  cases first
  cases second
  simpa using same

/-- `uuid_of`: the uuid in the first sixteen bytes of a key or a value. -/
def ofBytes (bytes : Bytes) : Uuid :=
  ⟨(bytes ++ List.replicate 16 0).take 16, by simp⟩

@[simp]
theorem ofBytes_append (uuid : Uuid) (rest : Bytes) : ofBytes (uuid.bytes ++ rest) = uuid := by
  ext1
  simp [ofBytes, uuid.size]

@[simp]
theorem ofBytes_bytes (uuid : Uuid) : ofBytes uuid.bytes = uuid := by
  simpa using ofBytes_append uuid []

/-- What two keys starting with a uuid share decides both parts. -/
theorem bytes_append_inj {first second : Uuid} {restFirst restSecond : Bytes}
    (same : first.bytes ++ restFirst = second.bytes ++ restSecond) :
    first = second ∧ restFirst = restSecond := by
  obtain ⟨uuids, rests⟩ :=
    ByteCode.fixed_append_inj (first.size.trans second.size.symm) same
  exact ⟨Uuid.ext uuids, rests⟩

theorem prefix_iff (first second : Uuid) (rest : Bytes) :
    first.bytes <+: second.bytes ++ rest ↔ first = second := by
  rw [ByteCode.fixed_prefix_iff rest (first.size.trans second.size.symm)]
  exact ⟨Uuid.ext, fun same => by rw [same]⟩

/-- One hexadecimal digit, in lower case. -/
def hexDigit (digit : Nat) : Char := "0123456789abcdef".toList.getD digit '0'

/-- A byte as two hexadecimal digits. -/
def hexByte (byte : UInt8) : List Char := [hexDigit (byte.toNat / 16), hexDigit (byte.toNat % 16)]

/-- `Uuid::as_simple`: 32 hexadecimal digits. -/
def simple (uuid : Uuid) : String := String.ofList (uuid.bytes.flatMap hexByte)

/-- The hyphenated form a message shows. -/
def hyphenated (uuid : Uuid) : String :=
  let group (start length : Nat) := ((uuid.bytes.drop start).take length).flatMap hexByte
  String.ofList (group 0 4 ++ '-' :: group 4 2 ++ '-' :: group 6 2 ++ '-' :: group 8 2 ++
    '-' :: group 10 6)

instance : ToString Uuid := ⟨hyphenated⟩

end Uuid

/-- An IEEE 754 double, by its bits. -/
structure F64 where
  /-- Sign, exponent and fraction, as stored. -/
  bits : UInt64
deriving DecidableEq

namespace F64

instance : Inhabited F64 := ⟨⟨0⟩⟩

/-- The sign bit. -/
def negative (f : F64) : Bool := f.bits.toNat / 2 ^ 63 = 1

/-- The biased exponent. -/
def exponent (f : F64) : Nat := f.bits.toNat / 2 ^ 52 % 2 ^ 11

/-- The fraction field. -/
def fraction (f : F64) : Nat := f.bits.toNat % 2 ^ 52

/-- `f64::is_nan`. -/
def isNaN (f : F64) : Bool := f.exponent = 2047 ∧ f.fraction ≠ 0

/-- Whether the number is `0.0` or `-0.0`. -/
def isZero (f : F64) : Bool := f.exponent = 0 ∧ f.fraction = 0

/-- `==` on floats. -/
def eq (first second : F64) : Bool :=
  !first.isNaN && !second.isNaN && (first = second || (first.isZero && second.isZero))

/-- `n as f64`: the nearest double, ties to even. -/
def ofInt (n : Int) : F64 :=
  if n = 0 then ⟨0⟩
  else
    let magnitude := n.natAbs
    let top := magnitude.log2
    let significand :=
      if top ≤ 52 then magnitude * 2 ^ (52 - top)
      else
        let unit := 2 ^ (top - 52)
        let low := magnitude % unit
        let down := magnitude / unit
        if 2 * low < unit ∨ (2 * low = unit ∧ down % 2 = 0) then down else down + 1
    let sign := if n < 0 then 2 ^ 63 else 0
    ⟨UInt64.ofNat (sign + (top + 1023) * 2 ^ 52 + (significand - 2 ^ 52))⟩

/-- `f as i64`: truncated toward zero, saturating, zero for a NaN. -/
def toInt64 (f : F64) : Int64 :=
  if f.isNaN then 0
  else
    let significand := if f.exponent = 0 then f.fraction else f.fraction + 2 ^ 52
    let magnitude :=
      if f.exponent = 2047 then 2 ^ 64
      else if 1075 ≤ f.exponent then significand * 2 ^ (f.exponent - 1075)
      else significand / 2 ^ (1075 - f.exponent)
    let signed : Int := if f.negative then -(magnitude : Int) else magnitude
    Int64.ofInt (max (-(2 ^ 63)) (min (2 ^ 63 - 1) signed))

end F64

/-- The functions of the standard library and of third-party packages the program calls. -/
class Externals where
  /-- `xxh3_64` of a byte string. -/
  xxh3 : Bytes → UInt64
  /-- `f64::to_string`. -/
  showFloat : F64 → String
  /-- `str::parse::<f64>`. -/
  parseFloat : String → Option F64
  /-- `Uuid::parse_str`. -/
  parseUuid : String → Option Uuid
  /-- `str::to_lowercase`. -/
  toLowercase : String → String
  /-- The `{:?}` form of a text. -/
  debug : String → String

/-- The value of a hexadecimal digit. -/
def hexValue (digit : Char) : Option Nat :=
  if '0' ≤ digit ∧ digit ≤ '9' then some (digit.toNat - 48)
  else if 'a' ≤ digit ∧ digit ≤ 'f' then some (digit.toNat - 87)
  else none

/-- The bytes a string of hexadecimal digits spells. -/
def hexBytes : List Char → Option Bytes
  | high :: low :: rest => do
      let byte := (← hexValue high) * 16 + (← hexValue low)
      pure (UInt8.ofNat byte :: (← hexBytes rest))
  | [] => some []
  | [_] => none

/-- Functions for runs on fixed inputs: they agree with those the program calls on texts in ASCII,
on uuids written as 32 hexadecimal digits, and on nothing else; the hash is a checksum. -/
abbrev plainExternals : Externals where
  xxh3 bytes := UInt64.ofNat (bytes.foldl (fun sum byte => sum * 31 + byte.toNat) 7)
  showFloat _ := ""
  parseFloat text := if text = "NaN" then some ⟨0x7FF8000000000000⟩ else none
  parseUuid text :=
    (hexBytes text.toList).bind fun bytes =>
      if size : bytes.length = 16 then some ⟨bytes, size⟩ else none
  toLowercase := String.toLower
  debug text := "\"" ++ text ++ "\""

/-- The name of a node of a forest: its exact bytes. -/
structure TreeName where
  /-- `TreeName::as_bytes`. -/
  bytes : Bytes
deriving DecidableEq

namespace TreeName

/-- `TreeName::from` of a text. -/
def ofString (text : String) : TreeName := ⟨text.asBytes⟩

/-- What reading one character off the front of a byte string finds. -/
inductive Utf8
  /-- A character, and how many bytes it takes. -/
  | char (c : Char) (width : Nat)
  /-- An invalid sequence of some bytes (`Utf8Error::error_len`). -/
  | broken (width : Nat)
  /-- The input ends in the middle of a sequence. -/
  | truncated

/-- Whether a byte continues a sequence. -/
def isContinuation (byte : UInt8) : Bool := 0x80 ≤ byte && byte ≤ 0xBF

/-- The range of the second byte of a sequence, by its first. -/
def secondRange (first : UInt8) : UInt8 × UInt8 :=
  if first = 0xE0 then (0xA0, 0xBF)
  else if first = 0xED then (0x80, 0x9F)
  else if first = 0xF0 then (0x90, 0xBF)
  else if first = 0xF4 then (0x80, 0x8F)
  else (0x80, 0xBF)

/-- The six low bits a continuation byte carries. -/
def payload (byte : UInt8) : Nat := byte.toNat % 64

/-- The first character of a byte string, as `std::str::from_utf8` reads it. -/
def readChar (first : UInt8) (rest : Bytes) : Utf8 :=
  let inRange (byte : UInt8) := (secondRange first).1 ≤ byte && byte ≤ (secondRange first).2
  if first < 0x80 then .char (Char.ofNat first.toNat) 1
  else if 0xC2 ≤ first ∧ first ≤ 0xDF then
    match rest with
    | [] => .truncated
    | second :: _ =>
        if inRange second then .char (Char.ofNat (first.toNat % 32 * 64 + payload second)) 2
        else .broken 1
  else if 0xE0 ≤ first ∧ first ≤ 0xEF then
    match rest with
    | [] => .truncated
    | second :: rest =>
        if !inRange second then .broken 1
        else
          match rest with
          | [] => .truncated
          | third :: _ =>
              if isContinuation third then
                .char (Char.ofNat ((first.toNat % 16 * 64 + payload second) * 64 + payload third)) 3
              else .broken 2
  else if 0xF0 ≤ first ∧ first ≤ 0xF4 then
    match rest with
    | [] => .truncated
    | second :: rest =>
        if !inRange second then .broken 1
        else
          match rest with
          | [] => .truncated
          | third :: rest =>
              if !isContinuation third then .broken 2
              else
                match rest with
                | [] => .truncated
                | fourth :: _ =>
                    if isContinuation fourth then
                      .char (Char.ofNat (((first.toNat % 8 * 64 + payload second) * 64 +
                        payload third) * 64 + payload fourth)) 4
                    else .broken 3
  else .broken 1

/-- `%XX`: an undecodable byte in upper-case hexadecimal. -/
def escapeByte (byte : UInt8) : List Char := '%' :: (Uuid.hexByte byte).map Char.toUpper

/-- `escape_bytes`: text as it is, each byte of an invalid sequence escaped. -/
def escapeBytes : Nat → Bytes → List Char
  | 0, _ => []
  | _ + 1, [] => []
  | fuel + 1, first :: rest =>
      match readChar first rest with
      | .char c width => c :: escapeBytes fuel (rest.drop (width - 1))
      | .broken width =>
          ((first :: rest).take width).flatMap escapeByte ++
            escapeBytes fuel (rest.drop (width - 1))
      | .truncated => (first :: rest).flatMap escapeByte

/-- `TreeName::display`: each step reads at least one byte, so the length is fuel enough. -/
def display (name : TreeName) : String := String.ofList (escapeBytes name.bytes.length name.bytes)

/-- `TreeName::is_component`. -/
def isComponent (name : TreeName) (isRoot : Bool) : Bool :=
  if name.bytes = [] then isRoot
  else if name.bytes = [0x2E] ∨ name.bytes = [0x2E, 0x2E] then false
  else !name.bytes.any fun byte => byte = 0x2F || byte = 0

end TreeName

/-- A field value. -/
inductive Value
  | nothing
  | string (text : String)
  | int (n : Int64)
  | float (f : F64)
  | bool (b : Bool)
  | dateTime (ms : Int64)
  | ref (uuid : Uuid)
  | treeRef (parent : Option Uuid) (name : TreeName)
  | hierarchyRef (parent : Option Uuid) (name : TreeName)
  | refBase (uuid : Uuid)
  | externalRef (repo metarecord : Uuid)
deriving DecidableEq

/-- The types a field can be retyped to. -/
inductive FieldType
  | string
  | int
  | float
  | bool
  | dateTime
  | ref
  | treeRef
  | hierarchyRef
  | refBase
  | externalRef
deriving DecidableEq

/-- `FieldType::as_str`. -/
def FieldType.asStr : FieldType → String
  | string => "string"
  | int => "int"
  | float => "float"
  | bool => "bool"
  | dateTime => "datetime"
  | ref => "ref"
  | treeRef => "tree_ref"
  | hierarchyRef => "hierarchy_ref"
  | refBase => "refbase"
  | externalRef => "externalref"

namespace Value

/-- `Value::type_str`. -/
def typeStr : Value → String
  | nothing => "nothing"
  | string _ => "string"
  | int _ => "int"
  | float _ => "float"
  | bool _ => "bool"
  | dateTime _ => "datetime"
  | ref _ => "ref"
  | treeRef _ _ => "tree_ref"
  | hierarchyRef _ _ => "hierarchy_ref"
  | refBase _ => "refbase"
  | externalRef _ _ => "externalref"

/-- `Value::position`: the parent and the name of a `tree_ref` or a `hierarchy_ref`. -/
def position : Value → Option (Option Uuid × TreeName)
  | treeRef parent name => some (parent, name)
  | hierarchyRef parent name => some (parent, name)
  | _ => none

/-- Whether the value is `Value::Nothing`. -/
def isNothing : Value → Bool
  | nothing => true
  | _ => false

/-- `==` on values. -/
def eq : Value → Value → Bool
  | float first, float second => first.eq second
  | first, second => first = second

/-- Whether the value is a NaN, the one value unequal to itself. -/
def isNaN : Value → Bool
  | float f => f.isNaN
  | _ => false

@[simp]
theorem isNothing_iff (value : Value) : value.isNothing = true ↔ value = nothing := by
  cases value <;> simp [isNothing]

theorem typeStr_eq_nothing_iff (value : Value) : value.typeStr = "nothing" ↔ value = nothing := by
  cases value <;> simp [typeStr]

/-- Equal values, for the program, are of one type. -/
theorem typeStr_eq_of_eq {first second : Value} (same : first.eq second = true) :
    first.typeStr = second.typeStr := by
  cases first <;> cases second <;> simp_all [eq, typeStr]

theorem eq_iff_of_position {first second : Value} (placed : second.position.isSome) :
    first.eq second = true ↔ first = second := by
  cases second <;> simp [position] at placed <;> cases first <;> simp [eq]

end Value

end Metafolder
