import Metafolder.Lookups
import Metafolder.NameTexts

/-!
# The readings of a displayed name

A name is shown as text, each byte that no text can hold as an escape.  A lookup by the text shown
searches two readings of it: its own bytes, and those its escapes decode to.
-/

namespace Metafolder

/-! ### Reading a text -/

/-- The value of a hexadecimal digit of either case. -/
def hexDigitOf (digit : UInt8) : Option Nat :=
  if 0x30 ≤ digit ∧ digit ≤ 0x39 then some (digit.toNat - 0x30)
  else if 0x61 ≤ digit ∧ digit ≤ 0x66 then some (digit.toNat - 0x61 + 10)
  else if 0x41 ≤ digit ∧ digit ≤ 0x46 then some (digit.toNat - 0x41 + 10)
  else none

/-- `u8::from_str_radix` of two bytes in base 16: a sign may stand for the first digit. -/
def hexPair (high low : UInt8) : Option UInt8 := do
  let top ← if high = 0x2B then some 0 else hexDigitOf high
  let bottom ← hexDigitOf low
  pure (UInt8.ofNat (top * 16 + bottom))

/-- The loop of `escaped_to_bytes`: the bytes decoded, and how many of them were escapes. -/
def unescape : Bytes → Option (Bytes × Nat)
  | [] => some ([], 0)
  | byte :: rest =>
      if byte ≠ 0x25 then (unescape rest).map fun held => (byte :: held.1, held.2)
      else
        match rest with
        | high :: low :: rest => do
            let byte ← hexPair high low
            if byte < 0x80 then none
            else (unescape rest).map fun held => (byte :: held.1, held.2 + 1)
        | _ => none

/-- `escaped_to_bytes`: a text read as the escaped form of a name. -/
def escapedToBytes (text : String) : Option Bytes :=
  if text.toList.contains '\uFFFD' then none
  else (unescape text.asBytes).bind fun held => if 0 < held.2 then some held.1 else none

/-- `PathForm`: which readings of a component a lookup searches. -/
inductive PathForm
  | any
  | verbatim
  | escaped
deriving DecidableEq

/-- `readings`: the names a typed component may stand for. -/
def readings (comp : String) (form : PathForm) : List TreeName :=
  let verbatim := TreeName.ofString comp
  match form, (escapedToBytes comp).map TreeName.mk with
  | .verbatim, _ => [verbatim]
  | .escaped, some escaped => [escaped]
  | .escaped, none => [verbatim]
  | .any, some escaped => [verbatim, escaped]
  | .any, none => [verbatim]

namespace TreeName

/-! ### What one reading step finds -/

theorem isContinuation_of_follows {first second : UInt8} (follows : Follows first second) :
    isContinuation second = true := by
  obtain ⟨low, high⟩ := follows
  rw [isContinuation, Bool.and_eq_true, decide_eq_true_eq, decide_eq_true_eq]
  unfold secondRange at low high
  split_ifs at low high <;>
    exact ⟨UInt8.le_trans (by decide) low, UInt8.le_trans high (by decide)⟩

/-- A number coded by one byte is coded by that byte. -/
theorem ofNat_eq {byte : UInt8} {n : Nat} (same : n = byte.toNat) : UInt8.ofNat n = byte := by
  rw [same, UInt8.ofNat_toNat]

/-- The second byte is bounded further after four of the first bytes. -/
theorem toNat_of_follows {first second : UInt8} (follows : Follows first second) :
    (first.toNat = 0xE0 → 0xA0 ≤ second.toNat) ∧ (first.toNat = 0xED → second.toNat ≤ 0x9F) ∧
      (first.toNat = 0xF0 → 0x90 ≤ second.toNat) ∧ (first.toNat = 0xF4 → second.toNat ≤ 0x8F) := by
  obtain ⟨low, high⟩ := follows
  refine ⟨fun is => ?_, fun is => ?_, fun is => ?_, fun is => ?_⟩ <;>
    rw [show first = UInt8.ofNat _ from (ofNat_eq is.symm).symm] at low high
  · exact UInt8.le_iff_toNat_le.mp low
  · exact UInt8.le_iff_toNat_le.mp high
  · exact UInt8.le_iff_toNat_le.mp low
  · exact UInt8.le_iff_toNat_le.mp high

theorem isContinuation_iff {byte : UInt8} :
    isContinuation byte = true ↔ 0x80 ≤ byte.toNat ∧ byte.toNat ≤ 0xBF := by
  rw [isContinuation, Bool.and_eq_true, decide_eq_true_eq, decide_eq_true_eq,
    UInt8.le_iff_toNat_le, UInt8.le_iff_toNat_le]
  rfl

theorem toNat_ofNat {n : Nat} (valid : n < 0xD800 ∨ 0xDFFF < n ∧ n < 0x110000) :
    (Char.ofNat n).toNat = n := by
  have right : n.isValidChar := valid
  rw [Char.ofNat, dif_pos right]
  rfl

section Encoded

variable {first second third fourth : UInt8}

theorem utf8EncodeChar_one (first_lt : first.toNat < 0x80) :
    String.utf8EncodeChar (Char.ofNat first.toNat) = [first] := by
  rw [utf8EncodeChar_eq, toNat_ofNat (.inl (by omega)), if_pos (by omega), UInt8.ofNat_toNat]

/-- The bytes of a character read are its encoding. -/
theorem utf8EncodeChar_two (low : 0xC2 ≤ first.toNat) (high : first.toNat ≤ 0xDF)
    (continues : isContinuation second = true) :
    String.utf8EncodeChar (Char.ofNat (first.toNat % 32 * 64 + payload second)) =
      [first, second] := by
  have bounds := isContinuation_iff.mp continues
  unfold payload
  rw [utf8EncodeChar_eq, toNat_ofNat (.inl (by omega)), if_neg (by omega), if_pos (by omega),
    ofNat_eq (show _ = first.toNat by omega), ofNat_eq (show _ = second.toNat by omega)]

theorem utf8EncodeChar_three (low : 0xE0 ≤ first.toNat) (high : first.toNat ≤ 0xEF)
    (follows : Follows first second) (continues : isContinuation third = true) :
    String.utf8EncodeChar (Char.ofNat ((first.toNat % 16 * 64 + payload second) * 64 +
      payload third)) = [first, second, third] := by
  have bounds := isContinuation_iff.mp (isContinuation_of_follows follows)
  have third_bounds := isContinuation_iff.mp continues
  obtain ⟨from_low, from_high, -, -⟩ := toNat_of_follows follows
  unfold payload
  rw [utf8EncodeChar_eq, toNat_ofNat (by omega), if_neg (by omega), if_neg (by omega),
    if_pos (by omega), ofNat_eq (show _ = first.toNat by omega),
    ofNat_eq (show _ = second.toNat by omega),
    ofNat_eq (show _ = third.toNat by omega)]

theorem utf8EncodeChar_four (low : 0xF0 ≤ first.toNat) (high : first.toNat ≤ 0xF4)
    (follows : Follows first second) (continues : isContinuation third = true)
    (ends : isContinuation fourth = true) :
    String.utf8EncodeChar (Char.ofNat (((first.toNat % 8 * 64 + payload second) * 64 +
      payload third) * 64 + payload fourth)) = [first, second, third, fourth] := by
  have bounds := isContinuation_iff.mp (isContinuation_of_follows follows)
  have third_bounds := isContinuation_iff.mp continues
  have fourth_bounds := isContinuation_iff.mp ends
  obtain ⟨-, -, from_low, from_high⟩ := toNat_of_follows follows
  unfold payload
  rw [utf8EncodeChar_eq, toNat_ofNat (by omega), if_neg (by omega), if_neg (by omega),
    if_neg (by omega), ofNat_eq (show _ = first.toNat by omega),
    ofNat_eq (show _ = second.toNat by omega),
    ofNat_eq (show _ = third.toNat by omega), ofNat_eq (show _ = fourth.toNat by omega)]

end Encoded

/-- What a reading step may find at the front of some bytes. -/
inductive ReadsAs (first : UInt8) (rest : Bytes) : Utf8 → Prop
  /-- A character, whose encoding the bytes start with. -/
  | char {c : Char} {tail more : Bytes} (split : rest = tail ++ more)
      (encoded : String.utf8EncodeChar c = first :: tail) :
      ReadsAs first rest (.char c (tail.length + 1))
  /-- An invalid sequence. -/
  | broken {tail more : Bytes} (split : rest = tail ++ more) (high : 0x80 ≤ first.toNat)
      (continues : ∀ byte ∈ tail, isContinuation byte = true) :
      ReadsAs first rest (.broken (tail.length + 1))
  /-- A sequence the bytes end in. -/
  | truncated (high : 0x80 ≤ first.toNat) (continues : ∀ byte ∈ rest, isContinuation byte = true) :
      ReadsAs first rest .truncated

section Steps

variable {first : UInt8} {rest : Bytes}

/-- A first byte that nothing may follow is an invalid sequence of its own. -/
theorem readsAs_alone (high : 0x80 ≤ first.toNat) : ReadsAs first rest (.broken 1) :=
  @ReadsAs.broken first rest [] rest rfl high (by simp)

theorem not_inRange {second : UInt8} (missed : ¬Follows first second) :
    (((secondRange first).1 ≤ second : Bool) && (second ≤ (secondRange first).2 : Bool)) =
      false := by
  simpa [Follows] using missed

theorem readsAs_two (past : ¬first < 0x80) (two : 0xC2 ≤ first ∧ first ≤ 0xDF) :
    ReadsAs first rest (readChar first rest) := by
  have low := UInt8.le_iff_toNat_le.mp two.1
  have top := UInt8.le_iff_toNat_le.mp two.2
  have high : 0x80 ≤ first.toNat := Nat.le_trans (by decide) low
  cases rest with
  | nil =>
      unfold readChar
      rw [if_neg past, if_pos two]
      exact .truncated high (by simp)
  | cons second rest =>
      by_cases follows : Follows first second
      · rw [readChar_two low top follows]
        exact @ReadsAs.char first _ _ [second] rest rfl
          (utf8EncodeChar_two low top (isContinuation_of_follows follows))
      · unfold readChar
        rw [if_neg past, if_pos two]
        simpa [not_inRange follows] using readsAs_alone high

theorem readsAs_three (past : ¬first < 0x80) (two : ¬(0xC2 ≤ first ∧ first ≤ 0xDF))
    (three : 0xE0 ≤ first ∧ first ≤ 0xEF) : ReadsAs first rest (readChar first rest) := by
  have low := UInt8.le_iff_toNat_le.mp three.1
  have top := UInt8.le_iff_toNat_le.mp three.2
  have high : 0x80 ≤ first.toNat := Nat.le_trans (by decide) low
  rcases rest with - | ⟨second, rest⟩
  · unfold readChar
    rw [if_neg past, if_neg two, if_pos three]
    exact .truncated high (by simp)
  by_cases follows : Follows first second
  · have continues := isContinuation_of_follows follows
    rcases rest with - | ⟨third, rest⟩
    · unfold readChar
      rw [if_neg past, if_neg two, if_pos three]
      have short : ReadsAs first [second] .truncated := .truncated high (by simpa using continues)
      simpa [follows.1, follows.2] using short
    by_cases third_continues : isContinuation third = true
    · rw [readChar_three low top follows third_continues]
      exact @ReadsAs.char first _ _ [second, third] rest rfl
        (utf8EncodeChar_three low top follows third_continues)
    · unfold readChar
      rw [if_neg past, if_neg two, if_pos three]
      have broken := @ReadsAs.broken first (second :: third :: rest) [second] _ rfl high
        (by simpa using continues)
      simpa [follows.1, follows.2, third_continues] using broken
  · unfold readChar
    rw [if_neg past, if_neg two, if_pos three]
    simpa [not_inRange follows] using readsAs_alone high

theorem readsAs_four (past : ¬first < 0x80) (two : ¬(0xC2 ≤ first ∧ first ≤ 0xDF))
    (three : ¬(0xE0 ≤ first ∧ first ≤ 0xEF)) (four : 0xF0 ≤ first ∧ first ≤ 0xF4) :
    ReadsAs first rest (readChar first rest) := by
  have low := UInt8.le_iff_toNat_le.mp four.1
  have top := UInt8.le_iff_toNat_le.mp four.2
  have high : 0x80 ≤ first.toNat := Nat.le_trans (by decide) low
  rcases rest with - | ⟨second, rest⟩
  · unfold readChar
    rw [if_neg past, if_neg two, if_neg three, if_pos four]
    exact .truncated high (by simp)
  by_cases follows : Follows first second
  · have continues := isContinuation_of_follows follows
    rcases rest with - | ⟨third, rest⟩
    · unfold readChar
      rw [if_neg past, if_neg two, if_neg three, if_pos four]
      have short : ReadsAs first [second] .truncated := .truncated high (by simpa using continues)
      simpa [follows.1, follows.2] using short
    by_cases third_continues : isContinuation third = true
    · rcases rest with - | ⟨fourth, rest⟩
      · unfold readChar
        rw [if_neg past, if_neg two, if_neg three, if_pos four]
        have short : ReadsAs first [second, third] .truncated :=
          .truncated high (by simpa using ⟨continues, third_continues⟩)
        simpa [follows.1, follows.2, third_continues] using short
      by_cases ends : isContinuation fourth = true
      · rw [readChar_four low top follows third_continues ends]
        exact @ReadsAs.char first _ _ [second, third, fourth] rest rfl
          (utf8EncodeChar_four low top follows third_continues ends)
      · unfold readChar
        rw [if_neg past, if_neg two, if_neg three, if_pos four]
        have broken := @ReadsAs.broken first (second :: third :: fourth :: rest) [second, third] _
          rfl high (by simpa using ⟨continues, third_continues⟩)
        simpa [follows.1, follows.2, third_continues, ends] using broken
    · unfold readChar
      rw [if_neg past, if_neg two, if_neg three, if_pos four]
      have broken := @ReadsAs.broken first (second :: third :: rest) [second] _ rfl high
        (by simpa using continues)
      simpa [follows.1, follows.2, third_continues] using broken
  · unfold readChar
    rw [if_neg past, if_neg two, if_neg three, if_pos four]
    simpa [not_inRange follows] using readsAs_alone high

theorem readsAs_readChar (first : UInt8) (rest : Bytes) :
    ReadsAs first rest (readChar first rest) := by
  by_cases one : first.toNat < 0x80
  · rw [readChar_one one]
    exact @ReadsAs.char first rest _ [] rest rfl (utf8EncodeChar_one one)
  have past : ¬first < 0x80 := fun less => one (UInt8.lt_iff_toNat_lt.mp less)
  by_cases two : 0xC2 ≤ first ∧ first ≤ 0xDF
  · exact readsAs_two past two
  by_cases three : 0xE0 ≤ first ∧ first ≤ 0xEF
  · exact readsAs_three past two three
  by_cases four : 0xF0 ≤ first ∧ first ≤ 0xF4
  · exact readsAs_four past two three four
  unfold readChar
  rw [if_neg past, if_neg two, if_neg three, if_neg four]
  exact readsAs_alone (Nat.not_lt.mp one)

end Steps

/-! ### The pieces of a name -/

/-- A piece of a name: a character, or a byte no text can hold. -/
inductive Piece
  | text (c : Char)
  | bad (byte : UInt8)
deriving DecidableEq

namespace Piece

/-- A piece as it is shown. -/
def shown : Piece → List Char
  | text c => [c]
  | bad byte => escapeByte byte

/-- The bytes of a piece. -/
def bytes : Piece → Bytes
  | text c => String.utf8EncodeChar c
  | bad byte => [byte]

/-- Whether a piece is shown as an escape. -/
def isBad : Piece → Bool
  | text _ => false
  | bad _ => true

/-- A piece that is shown as an escape is a byte past the ASCII range. -/
def Proper : Piece → Prop
  | text _ => True
  | bad byte => 0x80 ≤ byte.toNat

end Piece

/-- The bytes past the first of a character's encoding. -/
theorem isContinuation_of_encoded {c : Char} {first : UInt8} {tail : Bytes}
    (encoded : String.utf8EncodeChar c = first :: tail) :
    ∀ byte ∈ tail, isContinuation byte = true := by
  have low (n : Nat) : isContinuation (UInt8.ofNat (n % 0x40 + 0x80)) = true :=
    isContinuation_byte (Nat.mod_lt _ (by decide))
  rw [utf8EncodeChar_eq] at encoded
  split_ifs at encoded <;> rw [List.cons.injEq] at encoded <;> rw [← encoded.2] <;>
    simp only [List.forall_mem_cons, List.not_mem_nil, low, false_implies, implies_true, and_self]

/-- The bytes of the replacement character. -/
def replacement : Bytes := [0xEF, 0xBF, 0xBD]

theorem utf8EncodeChar_replacement : String.utf8EncodeChar '\uFFFD' = replacement := by decide

/-- No replacement character starts among bytes that continue a sequence. -/
theorem infix_of_continuations {tail more : Bytes}
    (continues : ∀ byte ∈ tail, isContinuation byte = true)
    (within : replacement <:+: tail ++ more) :
    replacement <:+: more := by
  induction tail with
  | nil => exact within
  | cons byte tail ih =>
      rcases List.infix_cons_iff.mp within with starts | within
      · obtain ⟨rest, equal⟩ := starts
        have byte_eq : byte = 0xEF := (List.cons.inj equal).1.symm
        have wrong := continues byte List.mem_cons_self
        rw [byte_eq] at wrong
        exact absurd wrong (by decide)
      · exact ih (fun other member => continues other (List.mem_cons_of_mem _ member)) within

theorem readChar_replacement (rest : Bytes) :
    readChar 0xEF (0xBF :: 0xBD :: rest) = .char '\uFFFD' 3 := by
  rw [readChar_three (by decide) (by decide) ⟨by decide, by decide⟩ (by decide)]
  rfl

theorem shown_bad (bytes : Bytes) :
    (bytes.map Piece.bad).flatMap Piece.shown = bytes.flatMap escapeByte := by
  rw [List.flatMap_map]
  rfl

theorem bytes_bad (bytes : Bytes) : (bytes.map Piece.bad).flatMap Piece.bytes = bytes := by
  rw [List.flatMap_map]
  exact List.flatMap_singleton' bytes

theorem proper_bad {first : UInt8} {tail : Bytes} (high : 0x80 ≤ first.toNat)
    (continues : ∀ byte ∈ tail, isContinuation byte = true) :
    ∀ piece ∈ (first :: tail).map Piece.bad, piece.Proper := by
  intro piece member
  obtain ⟨byte, listed, rfl⟩ := List.mem_map.mp member
  rcases List.mem_cons.mp listed with rfl | listed
  · exact high
  · exact (isContinuation_iff.mp (continues byte listed)).1

/-- A name is a sequence of pieces, which are shown one after the other; a replacement character
among its bytes is a piece of its own. -/
theorem exists_pieces {fuel : Nat} {bytes : Bytes} (enough : bytes.length ≤ fuel) :
    ∃ pieces : List Piece, escapeBytes fuel bytes = pieces.flatMap Piece.shown ∧
      pieces.flatMap Piece.bytes = bytes ∧ (∀ piece ∈ pieces, piece.Proper) ∧
      (replacement <:+: bytes → .text '\uFFFD' ∈ pieces) := by
  induction fuel generalizing bytes with
  | zero =>
      rw [List.eq_nil_of_length_eq_zero (Nat.le_zero.mp enough)]
      exact ⟨[], rfl, rfl, by simp, by simp [replacement]⟩
  | succ fuel ih =>
      cases bytes with
      | nil => exact ⟨[], rfl, rfl, by simp, by simp [replacement]⟩
      | cons first rest =>
          have short : rest.length ≤ fuel := Nat.le_of_succ_le_succ enough
          have reads := readsAs_readChar first rest
          rw [escapeBytes]
          -- a replacement character starts here, or past the bytes read
          have later : ∀ {tail more : Bytes}, rest = tail ++ more →
              (∀ byte ∈ tail, isContinuation byte = true) → replacement <:+: first :: rest →
                readChar first rest = .char '\uFFFD' 3 ∨ replacement <:+: more := by
            intro tail more split continues within
            rcases List.infix_cons_iff.mp within with starts | within
            · obtain ⟨behind, equal⟩ := starts
              obtain ⟨rfl, rfl⟩ := List.cons.inj equal
              exact .inl (readChar_replacement behind)
            · rw [split] at within
              exact .inr (infix_of_continuations continues within)
          generalize readChar first rest = found at reads later ⊢
          cases reads with
          | @char c tail more split encoded =>
              have fewer : more.length ≤ fuel := by
                rw [split, List.length_append] at short
                omega
              obtain ⟨pieces, shown, whole, proper, holds⟩ := ih fewer
              refine ⟨.text c :: pieces, ?_, ?_, ?_, fun within => ?_⟩
              · simp [split, shown, Piece.shown]
              · rw [List.flatMap_cons, whole, Piece.bytes, encoded, split]
                rfl
              · simpa [Piece.Proper] using proper
              · rcases later split (isContinuation_of_encoded encoded) within with is | within
                · rw [Utf8.char.injEq] at is
                  rw [is.1]
                  exact List.mem_cons_self
                · exact List.mem_cons_of_mem _ (holds within)
          | @broken tail more split high continues =>
              have fewer : more.length ≤ fuel := by
                rw [split, List.length_append] at short
                omega
              obtain ⟨pieces, shown, whole, proper, holds⟩ := ih fewer
              refine ⟨(first :: tail).map .bad ++ pieces, ?_, ?_, ?_, fun within => ?_⟩
              · have front : (first :: rest).take (tail.length + 1) = first :: tail := by
                  simp [split]
                rw [List.flatMap_append, shown_bad, ← front]
                simp [split, shown]
              · rw [List.flatMap_append, bytes_bad, whole, split]
                rfl
              · intro piece member
                rcases List.mem_append.mp member with member | member
                · exact proper_bad high continues piece member
                · exact proper piece member
              · rcases later split continues within with is | within
                · contradiction
                · exact List.mem_append_right _ (holds within)
          | truncated high continues =>
              refine ⟨(first :: rest).map .bad, (shown_bad _).symm, bytes_bad _,
                proper_bad high continues, fun within => ?_⟩
              rcases later (List.append_nil rest).symm continues within with is | within
              · contradiction
              · exact absurd (List.eq_nil_of_infix_nil within) (by decide)

/-! ### Decoding what is shown -/

theorem unescape_plain {byte : UInt8} (plain : byte ≠ 0x25) (rest : Bytes) :
    unescape (byte :: rest) = (unescape rest).map fun held => (byte :: held.1, held.2) := by
  rw [unescape.eq_def]
  exact if_pos plain

/-- Bytes that start no escape are decoded to themselves. -/
theorem unescape_append {front : Bytes} (plain : ∀ byte ∈ front, byte ≠ 0x25) (more : Bytes) :
    unescape (front ++ more) = (unescape more).map fun held => (front ++ held.1, held.2) := by
  induction front with
  | nil => simp
  | cons byte front ih =>
      rw [List.cons_append, unescape_plain (plain byte List.mem_cons_self),
        ih fun other member => plain other (List.mem_cons_of_mem _ member), Option.map_map]
      rfl

/-- The byte a digit is shown as. -/
def digitByte (digit : Nat) : UInt8 := UInt8.ofNat (Uuid.hexDigit digit).toUpper.toNat

theorem digitByte_spec : ∀ digit, digit < 16 →
    String.utf8EncodeChar (Uuid.hexDigit digit).toUpper = [digitByte digit] ∧
      hexDigitOf (digitByte digit) = some digit ∧ digitByte digit ≠ 0x2B := by
  decide

/-- An escape is decoded to its byte. -/
theorem unescape_escapeByte {byte : UInt8} (high : 0x80 ≤ byte.toNat) (more : Bytes) :
    unescape ((escapeByte byte).flatMap String.utf8EncodeChar ++ more) =
      (unescape more).map fun held => (byte :: held.1, held.2 + 1) := by
  have bound := byte.toNat_lt
  obtain ⟨encoded_top, top, unsigned⟩ := digitByte_spec (byte.toNat / 16) (by omega)
  obtain ⟨encoded_low, low, -⟩ := digitByte_spec (byte.toNat % 16) (by omega)
  have coded : (escapeByte byte).flatMap String.utf8EncodeChar =
      [0x25, digitByte (byte.toNat / 16), digitByte (byte.toNat % 16)] := by
    simp only [escapeByte, Uuid.hexByte, List.map_cons, List.map_nil, List.flatMap_cons,
      List.flatMap_nil, encoded_top, encoded_low, List.append_nil]
    rfl
  have pair : hexPair (digitByte (byte.toNat / 16)) (digitByte (byte.toNat % 16)) = some byte := by
    simp only [hexPair, if_neg unsigned, top, low, Option.bind_eq_bind, Option.bind_some,
      Option.pure_def, Option.some.injEq]
    exact ofNat_eq (by omega)
  have past : ¬byte < 0x80 := fun less => by
    have less := UInt8.lt_iff_toNat_lt.mp less
    change byte.toNat < 0x80 at less
    omega
  rw [coded, unescape.eq_def]
  simp [pair, past]

/-- The percent sign is the one character whose encoding holds its byte. -/
theorem percent_encoded {c : Char} : 0x25 ∈ String.utf8EncodeChar c ↔ c = '%' := by
  have bounds := toNat_bounds c
  constructor
  · intro member
    rw [utf8EncodeChar_eq] at member
    have sized {n : Nat} (small : n < 256) (same : (0x25 : UInt8) = UInt8.ofNat n) : n = 0x25 := by
      rw [← toNat_byte small, ← same]
      rfl
    split_ifs at member with one two three
    · rw [List.mem_singleton] at member
      exact Char.toNat_inj.mp (sized (by omega) member)
    all_goals
      simp only [List.mem_cons, List.not_mem_nil, or_false] at member
    · rcases member with same | same <;> have := sized (by omega) same <;> omega
    · rcases member with same | same | same <;> have := sized (by omega) same <;> omega
    · rcases member with same | same | same | same <;> have := sized (by omega) same <;> omega
  · rintro rfl
    decide

/-- The bytes of a piece as it is shown. -/
def Piece.coded (piece : Piece) : Bytes := piece.shown.flatMap String.utf8EncodeChar

/-- Pieces none of which is a percent sign are decoded to their bytes. -/
theorem unescape_pieces {pieces : List Piece} (proper : ∀ piece ∈ pieces, piece.Proper)
    (plain : .text '%' ∉ pieces) (more : Bytes) :
    unescape (pieces.flatMap Piece.coded ++ more) = (unescape more).map fun held =>
      (pieces.flatMap Piece.bytes ++ held.1, pieces.countP Piece.isBad + held.2) := by
  induction pieces with
  | nil => simp
  | cons piece pieces ih =>
      have rest := ih (fun other member => proper other (List.mem_cons_of_mem _ member))
        fun member => plain (List.mem_cons_of_mem _ member)
      rw [List.flatMap_cons, List.append_assoc]
      cases piece with
      | text c =>
          have other : c ≠ '%' := fun same => plain (same ▸ List.mem_cons_self)
          have front : Piece.coded (.text c) = String.utf8EncodeChar c := by
            simp [Piece.coded, Piece.shown]
          rw [front, unescape_append (fun byte member same =>
            other (percent_encoded.mp (same ▸ member))), rest, Option.map_map]
          congr 1
          funext held
          simp [Piece.bytes, Piece.isBad]
      | bad byte =>
          rw [Piece.coded, Piece.shown, unescape_escapeByte (proper _ List.mem_cons_self), rest,
            Option.map_map]
          congr 1
          funext held
          rw [List.countP_cons_of_pos rfl, List.flatMap_cons]
          simp [Piece.bytes, Nat.add_right_comm, Nat.add_assoc]

/-- What is shown of a name, as bytes. -/
theorem asBytes_flatMap_shown (pieces : List Piece) :
    (String.ofList (pieces.flatMap Piece.shown)).asBytes = pieces.flatMap Piece.coded := by
  rw [String.asBytes_ofList, List.flatMap_assoc]
  rfl

theorem isExact_iff {name : TreeName} :
    name.isExact = true ↔ ∃ text : String, name.bytes = text.asBytes := by
  rw [isExact, Option.isSome_iff_exists]
  constructor
  · rintro ⟨text, read⟩
    refine ⟨text, ?_⟩
    rw [String.fromUTF8?] at read
    split at read
    · rw [← Option.some.inj read]
      rfl
    · contradiction
  · rintro ⟨text, same⟩
    exact ⟨text, by rw [same, fromUTF8?_asBytes]⟩

theorem mem_readings_any {name : TreeName} {comp : String} : name ∈ readings comp .any ↔
    name.bytes = comp.asBytes ∨ escapedToBytes comp = some name.bytes := by
  have same_iff {bytes : Bytes} : name = ⟨bytes⟩ ↔ name.bytes = bytes :=
    ⟨fun same => by rw [same], fun same => by rw [← same]⟩
  unfold readings ofString
  cases escapedToBytes comp with
  | none => simp [same_iff]
  | some bytes => simp [same_iff, eq_comm]

/-- An escape at the front is decoded to a byte past the ASCII range. -/
theorem unescape_percent {more out : Bytes} {escapes : Nat}
    (decoded : unescape (0x25 :: more) = some (out, escapes)) : ∃ byte rest, out = byte :: rest ∧
      byte ≠ 0x25 := by
  rw [unescape.eq_def] at decoded
  match more, decoded with
  | high :: low :: rest, decoded =>
      simp only [ne_eq, not_true_eq_false, if_false, Option.bind_eq_bind, Option.bind_eq_some_iff]
        at decoded
      obtain ⟨byte, -, decoded⟩ := decoded
      by_cases less : byte < 0x80
      · simp [less] at decoded
      · rw [if_neg less, Option.map_eq_some_iff] at decoded
        obtain ⟨held, -, equal⟩ := decoded
        refine ⟨byte, held.1, (Prod.mk.inj equal).1.symm, fun same => less ?_⟩
        rw [same]
        decide

section Displayed

variable {pieces : List Piece}

theorem shown_escape_ne : ∀ digit, digit < 16 → (Uuid.hexDigit digit).toUpper ≠ '\uFFFD' := by
  decide

/-- A replacement character is shown for a piece of its own. -/
theorem replacement_shown_iff :
    '\uFFFD' ∈ pieces.flatMap Piece.shown ↔ .text '\uFFFD' ∈ pieces := by
  rw [List.mem_flatMap]
  constructor
  · rintro ⟨piece, member, inside⟩
    cases piece with
    | text c =>
        rw [Piece.shown, List.mem_singleton] at inside
        rwa [inside]
    | bad byte =>
        have bound := byte.toNat_lt
        simp only [Piece.shown, escapeByte, Uuid.hexByte, List.map_cons, List.map_nil,
          List.mem_cons, List.not_mem_nil, or_false] at inside
        rcases inside with same | same | same
        · exact absurd same (by decide)
        · exact absurd same.symm (shown_escape_ne _ (by omega))
        · exact absurd same.symm (shown_escape_ne _ (by omega))
  · intro member
    exact ⟨_, member, List.mem_singleton_self _⟩

/-- A percent sign among the bytes is a piece of its own. -/
theorem percent_iff (proper : ∀ piece ∈ pieces, piece.Proper) :
    0x25 ∈ pieces.flatMap Piece.bytes ↔ .text '%' ∈ pieces := by
  rw [List.mem_flatMap]
  constructor
  · rintro ⟨piece, member, inside⟩
    cases piece with
    | text c => rwa [percent_encoded.mp inside] at member
    | bad byte =>
        have high : 0x80 ≤ byte.toNat := proper _ member
        rw [Piece.bytes, List.mem_singleton] at inside
        rw [← inside] at high
        exact absurd high (by decide)
  · intro member
    exact ⟨_, member, percent_encoded.mpr rfl⟩

theorem replacement_infix (member : .text '\uFFFD' ∈ pieces) :
    replacement <:+: pieces.flatMap Piece.bytes := by
  obtain ⟨front, back, rfl⟩ := List.append_of_mem member
  refine ⟨front.flatMap Piece.bytes, back.flatMap Piece.bytes, ?_⟩
  simp [Piece.bytes, utf8EncodeChar_replacement]

/-- Pieces that are all characters are shown as their bytes. -/
theorem coded_eq_bytes (texts : pieces.countP Piece.isBad = 0) :
    pieces.flatMap Piece.coded = pieces.flatMap Piece.bytes := by
  induction pieces with
  | nil => rfl
  | cons piece pieces ih =>
      cases piece with
      | text c =>
          rw [List.countP_cons_of_neg (by simp [Piece.isBad])] at texts
          rw [List.flatMap_cons, List.flatMap_cons, ih texts]
          simp [Piece.coded, Piece.shown, Piece.bytes]
      | bad byte =>
          rw [List.countP_cons_of_pos rfl] at texts
          contradiction

/-- A percent sign among the pieces keeps them from being decoded to their bytes. -/
theorem unescape_coded_ne (proper : ∀ piece ∈ pieces, piece.Proper) (member : .text '%' ∈ pieces)
    {escapes : Nat} :
    unescape (pieces.flatMap Piece.coded) ≠ some (pieces.flatMap Piece.bytes, escapes) := by
  obtain ⟨front, back, rfl, plain⟩ := List.eq_append_cons_of_mem member
  intro decoded
  have proper_front : ∀ piece ∈ front, piece.Proper := fun piece inside =>
    proper piece (List.mem_append_left _ inside)
  have percent : Piece.coded (.text '%') = [0x25] := by decide
  rw [List.flatMap_append, List.flatMap_cons, percent, unescape_pieces proper_front plain,
    Option.map_eq_some_iff] at decoded
  obtain ⟨⟨out, held⟩, decoded, equal⟩ := decoded
  obtain ⟨byte, rest, rfl, other⟩ := unescape_percent decoded
  have tails := (Prod.mk.inj equal).1
  rw [List.flatMap_append, List.append_cancel_left_eq, List.flatMap_cons] at tails
  have encoded : Piece.bytes (.text '%') = [0x25] := by decide
  rw [encoded] at tails
  exact other (List.cons.inj tails).1

end Displayed

/-- A lookup by the text a name is shown as considers the name exactly when the name is a text, or
holds neither a percent sign nor a replacement character. -/
theorem mem_readings_display_iff (name : TreeName) : name ∈ readings name.display .any ↔
    name.isExact = true ∨ 0x25 ∉ name.bytes ∧ ¬replacement <:+: name.bytes := by
  obtain ⟨pieces, shown, whole, proper, holds⟩ := exists_pieces (Nat.le_refl name.bytes.length)
  have display_eq : name.display = String.ofList (pieces.flatMap Piece.shown) := by
    rw [display, shown]
  have coded : name.display.asBytes = pieces.flatMap Piece.coded := by
    rw [display_eq, asBytes_flatMap_shown]
  have decodes : escapedToBytes name.display = some name.bytes ↔
      .text '\uFFFD' ∉ pieces ∧ ∃ escapes, 0 < escapes ∧
        unescape (pieces.flatMap Piece.coded) = some (name.bytes, escapes) := by
    unfold escapedToBytes
    rw [coded, display_eq, String.toList_ofList]
    by_cases lossy : .text '\uFFFD' ∈ pieces
    · have contained := replacement_shown_iff.mpr lossy
      simp [lossy, contained]
    · have absent : (pieces.flatMap Piece.shown).contains '\uFFFD' = false := by
        rw [← Bool.not_eq_true, List.contains_iff_mem]
        exact fun inside => lossy (replacement_shown_iff.mp inside)
      rw [absent, if_neg Bool.false_ne_true]
      simp only [lossy, not_false_eq_true, true_and, Option.bind_eq_some_iff, Prod.exists,
        Option.ite_none_right_eq_some, Option.some.injEq]
      constructor
      · rintro ⟨out, escapes, decoded, some_escape, rfl⟩
        exact ⟨escapes, some_escape, decoded⟩
      · rintro ⟨escapes, some_escape, decoded⟩
        exact ⟨_, escapes, decoded, some_escape, rfl⟩
  rw [mem_readings_any, decodes]
  constructor
  · rintro (verbatim | ⟨lossless, escapes, -, decoded⟩)
    · exact .inl (isExact_iff.mpr ⟨_, verbatim⟩)
    · refine .inr ⟨fun percent => ?_, fun within => lossless (holds within)⟩
      rw [← whole] at percent decoded
      exact unescape_coded_ne proper ((percent_iff proper).mp percent) decoded
  · intro condition
    by_cases exact_name : name.isExact = true
    · obtain ⟨text, same⟩ := isExact_iff.mp exact_name
      have name_eq : name = ofString text := by
        rw [ofString, ← same]
      left
      rw [name_eq, display_ofString]
      rfl
    · obtain ⟨no_percent, no_replacement⟩ := condition.resolve_left exact_name
      refine .inr ⟨fun lossy => no_replacement ?_, pieces.countP Piece.isBad, ?_, ?_⟩
      · rw [← whole]
        exact replacement_infix lossy
      · by_contra none_bad
        refine exact_name (isExact_iff.mpr ⟨name.display, ?_⟩)
        rw [coded, coded_eq_bytes (Nat.eq_zero_of_not_pos none_bad), whole]
      · rw [← whole] at no_percent
        have decoded := unescape_pieces proper
          (fun member => no_percent ((percent_iff proper).mpr member)) []
        rw [List.append_nil] at decoded
        rw [decoded, unescape, whole]
        simp

/-- `100%` and a byte of another encoding: shown as `100%%E9`, which decodes to nothing. -/
def sampleMixed : TreeName := ⟨[0x31, 0x30, 0x30, 0x25, 0xE9]⟩

theorem mixed_name_not_considered : ¬∀ name : TreeName, 0x2F ∉ name.bytes → 0 ∉ name.bytes →
    name ∈ readings name.display .any := by
  intro considered
  have missed : sampleMixed ∉ readings sampleMixed.display .any := by decide +kernel
  exact missed (considered sampleMixed (by decide) (by decide))

end TreeName

end Metafolder
