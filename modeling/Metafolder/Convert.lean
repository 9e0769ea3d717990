import Metafolder.Value
import Mathlib.Data.Int.DivMod

/-!
# Conversion of values between types

A field is retyped by converting its values one by one: through their text, or directly between
scalars.  What cannot be converted falls back to the target's sentinel, which is of the target type
or `Nothing`.
-/

namespace Metafolder

/-! ### Texts -/

/-- `char::is_whitespace`. -/
def isWhitespace (c : Char) : Bool :=
  let n := c.toNat
  (9 ≤ n && n ≤ 13) || n = 0x20 || n = 0x85 || n = 0xA0 || n = 0x1680 ||
    (0x2000 ≤ n && n ≤ 0x200A) || n = 0x2028 || n = 0x2029 || n = 0x202F || n = 0x205F || n = 0x3000

/-- `str::trim`. -/
def trim (text : List Char) : List Char :=
  ((text.dropWhile isWhitespace).reverse.dropWhile isWhitespace).reverse

/-- `str::split_once`: the texts before and after the first separator. -/
def splitOnce (separators : List Char) : List Char → Option (List Char × List Char)
  | [] => none
  | c :: rest =>
      if c ∈ separators then some ([], rest)
      else (splitOnce separators rest).map fun parts => (c :: parts.1, parts.2)

/-- `str::split`: the texts between the separators. -/
def splitOn (separator : Char) : List Char → List (List Char)
  | [] => [[]]
  | c :: rest =>
      if c = separator then [] :: splitOn separator rest
      else
        match splitOn separator rest with
        | [] => [[c]]
        | part :: parts => (c :: part) :: parts

/-- The number a string of decimal digits denotes. -/
def digits : List Char → Nat → Option Nat
  | [], n => some n
  | c :: rest, n => if c.isDigit then digits rest (n * 10 + (c.toNat - 48)) else none

/-- `str::parse::<i64>`. -/
def parseInt64 (text : List Char) : Option Int64 := do
  let n ← match text with
    | [] => none
    | '-' :: [] => none
    | '+' :: [] => none
    | '-' :: rest => (digits rest 0).map fun n => -(n : Int)
    | '+' :: rest => (digits rest 0).map fun n => (n : Int)
    | _ => (digits text 0).map fun n => (n : Int)
  if -(2 ^ 63) ≤ n ∧ n < 2 ^ 63 then some (Int64.ofInt n) else none

/-! ### Dates -/

/-- `civil_from_days`: the year, month and day of a day since the epoch. -/
def civilFromDays (days : Int) : Int × Int × Int :=
  let z := days + 719468
  let era := (if 0 ≤ z then z else z - 146096).tdiv 146097
  let doe := z - era * 146097
  let yoe := (doe - doe / 1460 + doe / 36524 - doe / 146096) / 365
  let doy := doe - (365 * yoe + yoe / 4 - yoe / 100)
  let mp := (5 * doy + 2) / 153
  let month := if mp < 10 then mp + 3 else mp - 9
  (if month ≤ 2 then yoe + era * 400 + 1 else yoe + era * 400, month, doy - (153 * mp + 2) / 5 + 1)

/-- `days_from_civil`: the day since the epoch of a year, month and day. -/
def daysFromCivil (year month day : Int) : Int :=
  let y := if month ≤ 2 then year - 1 else year
  let era := (if 0 ≤ y then y else y - 399).tdiv 400
  let yoe := y - era * 400
  let doy := (153 * (if 2 < month then month - 3 else month + 9) + 2).tdiv 5 + day - 1
  let doe := yoe * 365 + yoe.tdiv 4 - yoe.tdiv 100 + doy
  era * 146097 + doe - 719468

/-- A number in decimal, zeros in front up to a width. -/
def padded (width : Nat) (n : Int) : List Char :=
  let shown := (toString n).toList
  List.replicate (width - shown.length) '0' ++ shown

/-- `iso8601_from_ms`. -/
def iso8601FromMs (ms : Int64) : String :=
  let secs := max (ms.toInt / 1000) 0
  let rem := secs % 86400
  let (year, month, day) := civilFromDays (secs / 86400)
  String.ofList (padded 4 year ++ '-' :: padded 2 month ++ '-' :: padded 2 day ++ 'T' ::
    padded 2 (rem / 3600) ++ ':' :: padded 2 (rem % 3600 / 60) ++ ':' :: padded 2 (rem % 60) ++ ['Z'])

/-- `is_leap_year`. -/
def isLeapYear (year : Int) : Bool := (year % 4 = 0 && year % 100 ≠ 0) || year % 400 = 0

/-- `days_in_month`. -/
def daysInMonth (year month : Int) : Int :=
  if month ∈ [1, 3, 5, 7, 8, 10, 12] then 31
  else if month ∈ [4, 6, 9, 11] then 30
  else if month = 2 then (if isLeapYear year then 29 else 28)
  else 0

/-- The number a part of a date is, a missing part being `default`. -/
def datePart (part : Option (List Char)) (default : Int) : Option Int :=
  match part with
  | none => some default
  | some text => (parseInt64 text).map Int64.toInt

/-- `iso_to_ms`. -/
def isoToMs (text : List Char) : Option Int64 := do
  let trimmed := trim text
  let s := if trimmed.getLast? = some 'Z' then trimmed.dropLast else trimmed
  let (date, time) := (splitOnce ['T', ' '] s).getD (s, "00:00:00".toList)
  let dateParts := splitOn '-' date
  let year ← datePart dateParts[0]? 0
  let month ← datePart dateParts[1]? 1
  let day ← datePart dateParts[2]? 1
  if 3 < dateParts.length then none
  if ¬(0 ≤ year ∧ year ≤ 999999) ∨ ¬(1 ≤ month ∧ month ≤ 12) then none
  -- The day is narrowed to 32 bits before it is checked and used.
  let narrow := day % 2 ^ 32
  if ¬(1 ≤ narrow ∧ narrow ≤ daysInMonth year month) then none
  let timeParts := splitOn ':' time
  let hour ← datePart timeParts[0]? 0
  let min ← datePart timeParts[1]? 0
  let sec ← datePart timeParts[2]? 0
  if 3 < timeParts.length then none
  if ¬(0 ≤ hour ∧ hour ≤ 23) ∨ ¬(0 ≤ min ∧ min ≤ 59) ∨ ¬(0 ≤ sec ∧ sec ≤ 60) then none
  pure (Int64.ofInt ((daysFromCivil year month narrow * 86400 + hour * 3600 + min * 60 + sec) * 1000))

/-! ### Values -/

variable [Externals]

/-- `parse_hex_uuid`. -/
def parseHexUuid (text : List Char) : Option Uuid :=
  Externals.parseUuid (String.ofList (trim text))

/-- `parse_tree_ref`, the position built by `build`. -/
def parseTreeRef (text : List Char) : Option (Option Uuid × TreeName) := do
  let (parent, name) ← splitOnce ['/'] (trim text)
  if name = [] ∨ '/' ∈ name then none
  else if parent = [] then some (none, .ofString (String.ofList name))
  else do
    let uuid ← parseHexUuid parent
    some (some uuid, .ofString (String.ofList name))

/-- `parse_external_ref`. -/
def parseExternalRef (text : List Char) : Option Value := do
  let (repo, metarecord) ← splitOnce [':'] (trim text)
  pure (.externalRef (← parseHexUuid repo) (← parseHexUuid metarecord))

namespace Value

/-- `display_form`: the text a value is converted to. -/
def displayForm : Value → String
  | nothing => ""
  | string text => text
  | int n => toString n.toInt
  | float f => Externals.showFloat f
  | bool b => if b then "true" else "false"
  | dateTime ms => iso8601FromMs ms
  | ref uuid => uuid.simple
  | refBase uuid => uuid.simple
  | treeRef parent name => (parent.map Uuid.simple).getD "" ++ "/" ++ name.display
  | hierarchyRef parent name => (parent.map Uuid.simple).getD "" ++ "/" ++ name.display
  | externalRef repo metarecord => repo.simple ++ ":" ++ metarecord.simple

/-- The value a conversion that fails falls back to. -/
def sentinel : FieldType → Value
  | .string => string ""
  | .int => int 0
  | .float => float ⟨0⟩
  | .bool => bool false
  | .dateTime => dateTime 0
  | _ => nothing

/-- A converted value, or the sentinel and the fact that it is one. -/
def orSentinel (target : FieldType) (converted : Option Value) : Value × Bool :=
  match converted with
  | some value => (value, false)
  | none => (sentinel target, true)

/-- What a value converts to, `none` when it has no meaningful coercion. -/
def converted (value : Value) (target : FieldType) : Option Value :=
  match target, value with
  | .string, value => some (string value.displayForm)
  | .int, int n => some (int n)
  | .int, float f => some (int f.toInt64)
  | .int, bool b => some (int (if b then 1 else 0))
  | .int, dateTime ms => some (int ms)
  | .int, string text => (parseInt64 (Metafolder.trim text.toList)).map int
  | .float, float f => some (float f)
  | .float, int n => some (float (F64.ofInt n.toInt))
  | .float, bool b => some (float (F64.ofInt (if b then 1 else 0)))
  | .float, dateTime ms => some (float (F64.ofInt ms.toInt))
  | .float, string text =>
      (Externals.parseFloat (String.ofList (Metafolder.trim text.toList))).map float
  | .bool, bool b => some (bool b)
  | .bool, int n => some (bool (n != 0))
  | .bool, float f => some (bool !f.isZero)
  | .bool, dateTime ms => some (bool (ms != 0))
  | .bool, string text =>
      let trimmed := Metafolder.trim text.toList
      if trimmed = "true".toList then some (bool true)
      else if trimmed = "false".toList then some (bool false)
      else none
  | .dateTime, dateTime ms => some (dateTime ms)
  | .dateTime, int n => some (dateTime n)
  | .dateTime, float f => some (dateTime f.toInt64)
  | .dateTime, string text => (isoToMs (Metafolder.trim text.toList)).map dateTime
  | .ref, ref uuid => some (ref uuid)
  | .ref, string text => (parseHexUuid text.toList).map ref
  | .refBase, refBase uuid => some (refBase uuid)
  | .refBase, string text => (parseHexUuid text.toList).map refBase
  | .treeRef, treeRef parent name => some (treeRef parent name)
  | .treeRef, hierarchyRef parent name => some (treeRef parent name)
  | .treeRef, string text => (parseTreeRef text.toList).map fun held => treeRef held.1 held.2
  | .hierarchyRef, treeRef parent name => some (hierarchyRef parent name)
  | .hierarchyRef, hierarchyRef parent name => some (hierarchyRef parent name)
  | .hierarchyRef, string text =>
      (parseTreeRef text.toList).map fun held => hierarchyRef held.1 held.2
  | .externalRef, externalRef repo metarecord => some (externalRef repo metarecord)
  | .externalRef, string text => parseExternalRef text.toList
  | _, _ => none

/-- `convert_to`: the converted value, and whether it is the sentinel. -/
def convertTo (value : Value) (target : FieldType) : Value × Bool :=
  if value.isNothing then (nothing, false) else orSentinel target (value.converted target)

theorem typeStr_converted {value result : Value} {target : FieldType}
    (converts : value.converted target = some result) : result.typeStr = target.asStr := by
  cases target <;> cases value <;>
    simp only [converted, Option.some.injEq, Option.map_eq_some_iff, reduceCtorEq] at converts
  case bool.string text =>
    split at converts
    · rw [← Option.some.inj converts]
      rfl
    · split at converts
      · rw [← Option.some.inj converts]
        rfl
      · simp at converts
  case externalRef.string text =>
    simp only [parseExternalRef, Option.bind_eq_bind, Option.bind_eq_some_iff, Option.pure_def,
      Option.some.injEq] at converts
    obtain ⟨parts, -, repo, -, metarecord, -, rfl⟩ := converts
    rfl
  all_goals first
    | (subst converts; rfl)
    | (obtain ⟨held, -, rfl⟩ := converts; rfl)

/-- A conversion gives a value of the target type, or `Nothing`. -/
theorem typeStr_convertTo (value : Value) (target : FieldType) :
    (value.convertTo target).1 = nothing ∨
      (value.convertTo target).1.typeStr = target.asStr := by
  unfold convertTo orSentinel
  split
  · exact .inl rfl
  · cases converts : value.converted target with
    | none => cases target <;> simp [sentinel, typeStr, FieldType.asStr]
    | some result => exact .inr (typeStr_converted converts)

end Value

end Metafolder
