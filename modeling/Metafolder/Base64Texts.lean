import Metafolder.ByteCode

/-!
# Base64 without padding

Bytes written three at a time as four of 64 characters, what is left at the end as two or three.
-/

namespace Base64Texts

/-- The characters, by the six bits they stand for. -/
def alphabet : List Char :=
  "ABCDEFGHIJKLMNOPQRSTUVWXYZabcdefghijklmnopqrstuvwxyz0123456789+/".toList

/-- The character of six bits. -/
def char (bits : Nat) : Char := alphabet.getD bits 'A'

/-- The six bits of a character. -/
def bits (c : Char) : Option Nat := alphabet.findIdx? (· = c)

/-- Bytes as characters. -/
def encode : Bytes → List Char
  | [] => []
  | [first] => [char (first.toNat / 4), char (first.toNat % 4 * 16)]
  | [first, second] =>
      [char (first.toNat / 4), char (first.toNat % 4 * 16 + second.toNat / 16),
        char (second.toNat % 16 * 4)]
  | first :: second :: third :: rest =>
      char (first.toNat / 4) :: char (first.toNat % 4 * 16 + second.toNat / 16) ::
        char (second.toNat % 16 * 4 + third.toNat / 64) :: char (third.toNat % 64) :: encode rest

/-- The bytes characters stand for; bits that are left at the end are to be zero. -/
def decode : List Char → Option Bytes
  | [] => some []
  | [_] => none
  | [first, second] => do
      let one ← bits first
      let two ← bits second
      if two % 16 = 0 then some [UInt8.ofNat (one * 4 + two / 16)] else none
  | [first, second, third] => do
      let one ← bits first
      let two ← bits second
      let three ← bits third
      if three % 4 = 0 then
        some [UInt8.ofNat (one * 4 + two / 16), UInt8.ofNat (two % 16 * 16 + three / 4)]
      else none
  | first :: second :: third :: fourth :: rest => do
      let one ← bits first
      let two ← bits second
      let three ← bits third
      let four ← bits fourth
      let others ← decode rest
      some (UInt8.ofNat (one * 4 + two / 16) :: UInt8.ofNat (two % 16 * 16 + three / 4) ::
        UInt8.ofNat (three % 4 * 64 + four) :: others)

theorem bits_char {n : Nat} (small : n < 64) : bits (char n) = some n := by
  have each : ((List.range 64).all fun n => bits (char n) == some n) = true := by decide
  exact eq_of_beq (List.all_eq_true.mp each n (List.mem_range.mpr small))

theorem byte_eq {n : Nat} {byte : UInt8} (same : n = byte.toNat) : UInt8.ofNat n = byte := by
  rw [same, UInt8.ofNat_toNat]

/-- What is written is read. -/
theorem decode_encode (bytes : Bytes) : decode (encode bytes) = some bytes := by
  fun_induction encode bytes with
  | case1 => rfl
  | case2 first =>
      have one := first.toNat_lt
      rw [decode, bits_char (by omega), bits_char (by omega)]
      change (if first.toNat % 4 * 16 % 16 = 0 then _ else none) = _
      rw [if_pos (by omega), @byte_eq _ first (by omega)]
  | case3 first second =>
      have one := first.toNat_lt
      have two := second.toNat_lt
      rw [decode, bits_char (by omega), bits_char (by omega), bits_char (by omega)]
      change (if second.toNat % 16 * 4 % 4 = 0 then _ else none) = _
      rw [if_pos (by omega), @byte_eq _ first (by omega), @byte_eq _ second (by omega)]
  | case4 first second third rest ih =>
      have one := first.toNat_lt
      have two := second.toNat_lt
      have three := third.toNat_lt
      rw [decode, bits_char (by omega), bits_char (by omega), bits_char (by omega),
        bits_char (by omega), ih]
      change some (UInt8.ofNat _ :: UInt8.ofNat _ :: UInt8.ofNat _ :: rest) = _
      rw [@byte_eq _ first (by omega), @byte_eq _ second (by omega), @byte_eq _ third (by omega)]

end Base64Texts
