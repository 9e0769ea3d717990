import Metafolder.Value

/-!
# Names that are texts

A name that is text is shown as it is, and a uuid is read from its digits.
-/

/-- The bytes of a text are those of its characters. -/
theorem String.asBytes_ofList (text : List Char) :
    (String.ofList text).asBytes = text.flatMap String.utf8EncodeChar := by
  induction text with
  | nil => rfl
  | cons c text ih =>
      rw [List.flatMap_cons, ← ih, String.asBytes, String.asBytes, String.toByteArray_ofList,
        String.toByteArray_ofList, List.utf8Encode_cons, List.utf8Encode_singleton]
      simp

namespace Metafolder

/-- The bytes of a uuid are read from its digits. -/
theorem hexBytes_hexByte (bytes : Bytes) : hexBytes (bytes.flatMap Uuid.hexByte) = some bytes := by
  have digit : ∀ n, n < 16 → hexValue (Uuid.hexDigit n) = some n := by decide
  induction bytes with
  | nil => rfl
  | cons byte bytes ih =>
      have small : byte.toNat < 256 := byte.toNat_lt
      have high := digit (byte.toNat / 16) (by omega)
      have low := digit (byte.toNat % 16) (by omega)
      have whole : UInt8.ofNat (byte.toNat / 16 * 16 + byte.toNat % 16) = byte := by
        rw [show byte.toNat / 16 * 16 + byte.toNat % 16 = byte.toNat by omega, UInt8.ofNat_toNat]
      have split : (byte :: bytes).flatMap Uuid.hexByte =
          Uuid.hexDigit (byte.toNat / 16) :: Uuid.hexDigit (byte.toNat % 16) ::
            bytes.flatMap Uuid.hexByte := rfl
      rw [split, hexBytes, high, low, ih]
      exact congrArg (fun first => some (first :: bytes)) whole

namespace TreeName

/-- The ranges a character's number lies in. -/
theorem toNat_bounds (c : Char) : c.toNat < 0xD800 ∨ 0xDFFF < c.toNat ∧ c.toNat < 0x110000 :=
  c.valid

theorem utf8EncodeChar_eq (c : Char) : String.utf8EncodeChar c =
    if c.toNat ≤ 0x7F then [UInt8.ofNat c.toNat]
    else if c.toNat ≤ 0x7FF then
      [UInt8.ofNat (c.toNat / 64 % 0x20 + 0xC0), UInt8.ofNat (c.toNat % 0x40 + 0x80)]
    else if c.toNat ≤ 0xFFFF then
      [UInt8.ofNat (c.toNat / 4096 % 0x10 + 0xE0), UInt8.ofNat (c.toNat / 64 % 0x40 + 0x80),
        UInt8.ofNat (c.toNat % 0x40 + 0x80)]
    else [UInt8.ofNat (c.toNat / 262144 % 0x08 + 0xF0), UInt8.ofNat (c.toNat / 4096 % 0x40 + 0x80),
      UInt8.ofNat (c.toNat / 64 % 0x40 + 0x80), UInt8.ofNat (c.toNat % 0x40 + 0x80)] := rfl

/-- A byte of a number that fits one. -/
theorem toNat_byte {n : Nat} (small : n < 256) : (UInt8.ofNat n).toNat = n := by
  rw [UInt8.toNat_ofNat', Nat.mod_eq_of_lt small]

section Read

variable {first second third fourth : UInt8} {rest : Bytes}

theorem readChar_one (first_lt : first.toNat < 0x80) :
    readChar first rest = .char (Char.ofNat first.toNat) 1 := by
  unfold readChar
  exact if_pos (UInt8.lt_iff_toNat_lt.mpr first_lt)

/-- The second byte is in the range its first byte leaves it. -/
def Follows (first second : UInt8) : Prop :=
  (secondRange first).1 ≤ second ∧ second ≤ (secondRange first).2

theorem readChar_two (low : 0xC2 ≤ first.toNat) (high : first.toNat ≤ 0xDF)
    (follows : Follows first second) : readChar first (second :: rest) =
      .char (Char.ofNat (first.toNat % 32 * 64 + payload second)) 2 := by
  have past : ¬first < 0x80 := fun less => by
    have less := UInt8.lt_iff_toNat_lt.mp less
    change first.toNat < 0x80 at less
    omega
  unfold readChar
  rw [if_neg past, if_pos ⟨UInt8.le_iff_toNat_le.mpr low, UInt8.le_iff_toNat_le.mpr high⟩]
  simp [follows.1, follows.2]

theorem readChar_three (low : 0xE0 ≤ first.toNat) (high : first.toNat ≤ 0xEF)
    (follows : Follows first second) (continues : isContinuation third = true) :
    readChar first (second :: third :: rest) =
      .char (Char.ofNat ((first.toNat % 16 * 64 + payload second) * 64 + payload third)) 3 := by
  have past : ¬first < 0x80 := fun less => by
    have less := UInt8.lt_iff_toNat_lt.mp less
    change first.toNat < 0x80 at less
    omega
  have wide : ¬(0xC2 ≤ first ∧ first ≤ 0xDF) := fun within => by
    have within := UInt8.le_iff_toNat_le.mp within.2
    change first.toNat ≤ 0xDF at within
    omega
  unfold readChar
  rw [if_neg past, if_neg wide,
    if_pos ⟨UInt8.le_iff_toNat_le.mpr low, UInt8.le_iff_toNat_le.mpr high⟩]
  simp [follows.1, follows.2, continues]

theorem readChar_four (low : 0xF0 ≤ first.toNat) (high : first.toNat ≤ 0xF4)
    (follows : Follows first second) (continues : isContinuation third = true)
    (ends : isContinuation fourth = true) :
    readChar first (second :: third :: fourth :: rest) =
      .char (Char.ofNat (((first.toNat % 8 * 64 + payload second) * 64 + payload third) * 64 +
        payload fourth)) 4 := by
  have past : ¬first < 0x80 := fun less => by
    have less := UInt8.lt_iff_toNat_lt.mp less
    change first.toNat < 0x80 at less
    omega
  have wide : ¬(0xC2 ≤ first ∧ first ≤ 0xDF) := fun within => by
    have within := UInt8.le_iff_toNat_le.mp within.2
    change first.toNat ≤ 0xDF at within
    omega
  have wider : ¬(0xE0 ≤ first ∧ first ≤ 0xEF) := fun within => by
    have within := UInt8.le_iff_toNat_le.mp within.2
    change first.toNat ≤ 0xEF at within
    omega
  unfold readChar
  rw [if_neg past, if_neg wide, if_neg wider,
    if_pos ⟨UInt8.le_iff_toNat_le.mpr low, UInt8.le_iff_toNat_le.mpr high⟩]
  simp [follows.1, follows.2, continues, ends]

theorem isContinuation_byte {n : Nat} (small : n < 0x40) :
    isContinuation (UInt8.ofNat (n + 0x80)) = true := by
  have number := toNat_byte (show n + 0x80 < 256 by omega)
  rw [isContinuation, Bool.and_eq_true, decide_eq_true_eq, decide_eq_true_eq,
    UInt8.le_iff_toNat_le, UInt8.le_iff_toNat_le, number]
  exact ⟨Nat.le_add_left _ _, by change n + 0x80 ≤ 0xBF; omega⟩

theorem payload_byte {n : Nat} (small : n < 0x40) : payload (UInt8.ofNat (n + 0x80)) = n := by
  rw [payload, toNat_byte (show n + 0x80 < 256 by omega)]
  omega

/-- Where the second byte has to be. -/
theorem follows_byte {n : Nat} (small : n < 0x40) (low : first.toNat = 0xE0 → 0x20 ≤ n)
    (high : first.toNat = 0xED → n < 0x20) (lower : first.toNat = 0xF0 → 0x10 ≤ n)
    (higher : first.toNat = 0xF4 → n < 0x10) : Follows first (UInt8.ofNat (n + 0x80)) := by
  have number := toNat_byte (show n + 0x80 < 256 by omega)
  rw [Follows, UInt8.le_iff_toNat_le, UInt8.le_iff_toNat_le, number, secondRange]
  split
  · next same =>
    have least := low (congrArg UInt8.toNat same)
    exact ⟨by change 0xA0 ≤ n + 0x80; omega, by change n + 0x80 ≤ 0xBF; omega⟩
  · split
    · next same =>
      have most := high (congrArg UInt8.toNat same)
      exact ⟨by change 0x80 ≤ n + 0x80; omega, by change n + 0x80 ≤ 0x9F; omega⟩
    · split
      · next same =>
        have least := lower (congrArg UInt8.toNat same)
        exact ⟨by change 0x90 ≤ n + 0x80; omega, by change n + 0x80 ≤ 0xBF; omega⟩
      · split
        · next same =>
          have most := higher (congrArg UInt8.toNat same)
          exact ⟨by change 0x80 ≤ n + 0x80; omega, by change n + 0x80 ≤ 0x8F; omega⟩
        · exact ⟨by change 0x80 ≤ n + 0x80; omega, by change n + 0x80 ≤ 0xBF; omega⟩

end Read

/-- The character encoded is read. -/
theorem readChar_utf8EncodeChar (c : Char) (rest : Bytes) : ∃ first tail,
    String.utf8EncodeChar c = first :: tail ∧
      readChar first (tail ++ rest) = .char c (tail.length + 1) := by
  have valid := toNat_bounds c
  rw [utf8EncodeChar_eq]
  by_cases one : c.toNat ≤ 0x7F
  · rw [if_pos one]
    have number := toNat_byte (show c.toNat < 256 by omega)
    refine ⟨_, _, rfl, ?_⟩
    rw [List.nil_append, readChar_one (by rw [number]; omega), number, Char.ofNat_toNat]
    rfl
  · rw [if_neg one]
    by_cases two : c.toNat ≤ 0x7FF
    · rw [if_pos two]
      have number := toNat_byte (show c.toNat / 64 % 0x20 + 0xC0 < 256 by omega)
      refine ⟨_, _, rfl, ?_⟩
      have small : c.toNat % 0x40 < 0x40 := by omega
      rw [List.cons_append, readChar_two (by rw [number]; omega) (by rw [number]; omega)
        (follows_byte small (by rw [number]; omega) (by rw [number]; omega) (by rw [number]; omega)
          (by rw [number]; omega)), number, payload_byte small]
      have whole : (c.toNat / 64 % 0x20 + 0xC0) % 32 * 64 + c.toNat % 0x40 = c.toNat := by omega
      rw [whole, Char.ofNat_toNat]
      rfl
    · rw [if_neg two]
      have small : c.toNat % 0x40 < 0x40 := by omega
      have middle : c.toNat / 64 % 0x40 < 0x40 := by omega
      by_cases three : c.toNat ≤ 0xFFFF
      · rw [if_pos three]
        have number := toNat_byte (show c.toNat / 4096 % 0x10 + 0xE0 < 256 by omega)
        refine ⟨_, _, rfl, ?_⟩
        rw [List.cons_append, List.cons_append, readChar_three (by rw [number]; omega)
          (by rw [number]; omega) (follows_byte middle (by rw [number]; omega)
            (by rw [number]; omega) (by rw [number]; omega) (by rw [number]; omega))
          (isContinuation_byte small), number, payload_byte small, payload_byte middle]
        have whole : ((c.toNat / 4096 % 0x10 + 0xE0) % 16 * 64 + c.toNat / 64 % 0x40) * 64 +
            c.toNat % 0x40 = c.toNat := by omega
        rw [whole, Char.ofNat_toNat]
        rfl
      · rw [if_neg three]
        have upper : c.toNat / 4096 % 0x40 < 0x40 := by omega
        have number := toNat_byte (show c.toNat / 262144 % 0x08 + 0xF0 < 256 by omega)
        refine ⟨_, _, rfl, ?_⟩
        rw [List.cons_append, List.cons_append, List.cons_append,
          readChar_four (by rw [number]; omega) (by rw [number]; omega)
            (follows_byte upper (by rw [number]; omega) (by rw [number]; omega)
              (by rw [number]; omega) (by rw [number]; omega))
            (isContinuation_byte middle) (isContinuation_byte small), number, payload_byte small,
          payload_byte middle, payload_byte upper]
        have whole : (((c.toNat / 262144 % 0x08 + 0xF0) % 8 * 64 + c.toNat / 4096 % 0x40) * 64 +
            c.toNat / 64 % 0x40) * 64 + c.toNat % 0x40 = c.toNat := by omega
        rw [whole, Char.ofNat_toNat]
        rfl

/-- A text is shown as it is, given steps enough. -/
theorem escapeBytes_text (text : List Char) (fuel : Nat)
    (enough : (text.flatMap String.utf8EncodeChar).length ≤ fuel) :
    escapeBytes fuel (text.flatMap String.utf8EncodeChar) = text := by
  induction text generalizing fuel with
  | nil =>
      cases fuel with
      | zero => rfl
      | succ fuel => rfl
  | cons c text ih =>
      rw [List.flatMap_cons] at enough ⊢
      obtain ⟨first, tail, encoded, read⟩ :=
        readChar_utf8EncodeChar c (text.flatMap String.utf8EncodeChar)
      rw [encoded, List.cons_append, List.length_cons, List.length_append] at enough
      cases fuel with
      | zero => omega
      | succ fuel =>
          rw [encoded, List.cons_append, escapeBytes, read]
          dsimp only
          rw [Nat.add_sub_cancel, List.drop_left, ih fuel (by omega)]

/-- A name that is text is shown as it is. -/
theorem display_ofString (text : String) : (ofString text).display = text := by
  have bytes : text.asBytes = text.toList.flatMap String.utf8EncodeChar := by
    rw [← String.asBytes_ofList, String.ofList_toList]
  rw [display, ofString, bytes, escapeBytes_text _ _ le_rfl, String.ofList_toList]

end TreeName
end Metafolder
