import Metafolder.ByteCode

/-!
# JSON texts

Byte strings as JSON writes them, between quotes and escaped.  The quoted form is a prefix code: a
text read back from it is the text written, whatever follows.
-/

namespace Json

/-- A hexadecimal digit, in lower case, as a byte. -/
def hexDigit (digit : UInt8) : UInt8 := if digit < 10 then 0x30 + digit else 0x57 + digit

/-- One byte of a text inside quotes: `"` and `\`, and the control characters, are escaped. -/
def escapeByte (byte : UInt8) : Bytes :=
  if byte = 0x22 then [0x5C, 0x22]
  else if byte = 0x5C then [0x5C, 0x5C]
  else if byte = 0x08 then [0x5C, 0x62]
  else if byte = 0x09 then [0x5C, 0x74]
  else if byte = 0x0A then [0x5C, 0x6E]
  else if byte = 0x0C then [0x5C, 0x66]
  else if byte = 0x0D then [0x5C, 0x72]
  else if byte < 0x20 then [0x5C, 0x75, 0x30, 0x30, hexDigit (byte / 16), hexDigit (byte % 16)]
  else [byte]

/-- A text between quotes. -/
def quoted (text : Bytes) : Bytes := 0x22 :: (text.flatMap escapeByte ++ [0x22])

/-- The digit a hexadecimal digit denotes. -/
def digitValue (digit : UInt8) : UInt8 := if digit < 0x57 then digit - 0x30 else digit - 0x57

/-- One byte read off an escaped text: the byte, and what follows it. -/
def unescapeByte : Bytes → Option (UInt8 × Bytes)
  | [] => none
  | byte :: rest =>
      if byte ≠ 0x5C then some (byte, rest)
      else
        match rest with
        | [] => none
        | letter :: rest =>
            if letter = 0x75 then
              match rest with
              | _ :: _ :: high :: low :: rest =>
                  some (digitValue high * 16 + digitValue low, rest)
              | _ => none
            else if letter = 0x62 then some (0x08, rest)
            else if letter = 0x74 then some (0x09, rest)
            else if letter = 0x6E then some (0x0A, rest)
            else if letter = 0x66 then some (0x0C, rest)
            else if letter = 0x72 then some (0x0D, rest)
            else some (letter, rest)

theorem digitValue_hexDigit (byte : UInt8) :
    digitValue (hexDigit (byte / 16)) * 16 + digitValue (hexDigit (byte % 16)) = byte := by
  have each : ∀ n < 256, digitValue (hexDigit (UInt8.ofNat n / 16)) * 16 +
      digitValue (hexDigit (UInt8.ofNat n % 16)) = UInt8.ofNat n := by decide +kernel
  have held := each byte.toNat byte.toNat_lt
  rwa [UInt8.ofNat_toNat] at held

theorem unescapeByte_escapeByte (byte : UInt8) (rest : Bytes) :
    unescapeByte (escapeByte byte ++ rest) = some (byte, rest) := by
  unfold escapeByte
  split_ifs with quote backslash backspace tab newline page carriage control
  · rw [quote]; rfl
  · rw [backslash]; rfl
  · rw [backspace]; rfl
  · rw [tab]; rfl
  · rw [newline]; rfl
  · rw [page]; rfl
  · rw [carriage]; rfl
  · simp [unescapeByte, digitValue_hexDigit byte]
  · simp [unescapeByte, backslash]

theorem escapeByte_append_inj {first second : UInt8} {restFirst restSecond : Bytes}
    (same : escapeByte first ++ restFirst = escapeByte second ++ restSecond) :
    first = second ∧ restFirst = restSecond := by
  have read := congrArg unescapeByte same
  simpa only [unescapeByte_escapeByte, Option.some.injEq, Prod.mk.injEq] using read

/-- No escaped byte starts with a quote. -/
theorem escapeByte_ne_quote (byte : UInt8) (rest tail : Bytes) :
    escapeByte byte ++ rest ≠ 0x22 :: tail := by
  unfold escapeByte
  split_ifs with quote backslash backspace tab newline page carriage control <;> simp_all

theorem quoted_append_inj {first second restFirst restSecond : Bytes}
    (same : quoted first ++ restFirst = quoted second ++ restSecond) :
    first = second ∧ restFirst = restSecond := by
  simp only [quoted, List.cons_append, List.cons.injEq, true_and, List.append_assoc,
    List.nil_append] at same
  induction first generalizing second with
  | nil =>
      cases second with
      | nil => exact ⟨rfl, by simpa using same⟩
      | cons byte second =>
          rw [List.flatMap_cons, List.append_assoc] at same
          exact absurd same.symm (escapeByte_ne_quote byte _ _)
  | cons byte first ih =>
      cases second with
      | nil =>
          rw [List.flatMap_cons, List.append_assoc] at same
          exact absurd same (escapeByte_ne_quote byte _ _)
      | cons other second =>
          rw [List.flatMap_cons, List.flatMap_cons, List.append_assoc, List.append_assoc] at same
          obtain ⟨rfl, rest⟩ := escapeByte_append_inj same
          obtain ⟨rfl, tails⟩ := ih rest
          exact ⟨rfl, tails⟩

theorem quoted_injective : Function.Injective quoted := by
  intro first second same
  have padded : quoted first ++ [] = quoted second ++ [] := by rw [same]
  exact (quoted_append_inj padded).1

end Json
