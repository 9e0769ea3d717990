import Mathlib.Data.List.Basic
import Mathlib.Data.Nat.ModEq

/-!
# Byte codes of composite keys

Numbers as fixed-width big-endian byte strings, and byte strings made self-delimiting by an escape
and a terminator.  Both are prefix codes: what follows a coded word can be cut off exactly.
-/

/-- A string of bytes. -/
abbrev Bytes := List UInt8

instance Bytes.lawfulBEq : LawfulBEq Bytes := inferInstance

namespace ByteCode

/-- The `width` low bytes of a number, the most significant first. -/
def bigEndian : Nat → Nat → Bytes
  | 0, _ => []
  | width + 1, number => bigEndian width (number / 256) ++ [UInt8.ofNat number]

/-- The number a big-endian byte string denotes. -/
def ofBigEndian (bytes : Bytes) : Nat :=
  bytes.foldl (fun number byte => number * 256 + byte.toNat) 0

@[simp]
theorem length_bigEndian (width number : Nat) : (bigEndian width number).length = width := by
  induction width generalizing number with
  | zero => rfl
  | succ width ih => simp [bigEndian, ih]

theorem ofBigEndian_append_singleton (bytes : Bytes) (byte : UInt8) :
    ofBigEndian (bytes ++ [byte]) = ofBigEndian bytes * 256 + byte.toNat := by
  simp [ofBigEndian]

theorem ofBigEndian_bigEndian (width number : Nat) :
    ofBigEndian (bigEndian width number) = number % 256 ^ width := by
  induction width generalizing number with
  | zero => simp [bigEndian, ofBigEndian, Nat.mod_one]
  | succ width ih =>
      have low : (UInt8.ofNat number).toNat = number % 256 := by simp
      have split : number % (256 * 256 ^ width) =
          number % 256 + 256 * (number / 256 % 256 ^ width) := Nat.mod_mul
      rw [bigEndian, ofBigEndian_append_singleton, ih, low, pow_succ, Nat.mul_comm (256 ^ width),
        split]
      omega

theorem bigEndian_injective {width first second : Nat} (first_lt : first < 256 ^ width)
    (second_lt : second < 256 ^ width)
    (same : bigEndian width first = bigEndian width second) : first = second := by
  have decoded := congrArg ofBigEndian same
  rwa [ofBigEndian_bigEndian, ofBigEndian_bigEndian, Nat.mod_eq_of_lt first_lt,
    Nat.mod_eq_of_lt second_lt] at decoded

theorem foldl_bytes (start : Nat) (bytes : Bytes) :
    bytes.foldl (fun number byte => number * 256 + byte.toNat) start =
      start * 256 ^ bytes.length + ofBigEndian bytes := by
  induction bytes generalizing start with
  | nil => simp [ofBigEndian]
  | cons byte rest ih =>
      have low : ofBigEndian (byte :: rest) =
          (0 * 256 + byte.toNat) * 256 ^ rest.length + ofBigEndian rest := ih (0 * 256 + byte.toNat)
      rw [List.foldl_cons, ih, low, List.length_cons, pow_succ, Nat.zero_mul, Nat.zero_add,
        Nat.add_mul, Nat.mul_assoc, Nat.mul_comm 256, Nat.add_assoc]

theorem ofBigEndian_cons (byte : UInt8) (rest : Bytes) :
    ofBigEndian (byte :: rest) = byte.toNat * 256 ^ rest.length + ofBigEndian rest := by
  have started : ofBigEndian (byte :: rest) =
      (0 * 256 + byte.toNat) * 256 ^ rest.length + ofBigEndian rest := foldl_bytes _ rest
  rwa [Nat.zero_mul, Nat.zero_add] at started

theorem ofBigEndian_lt (bytes : Bytes) : ofBigEndian bytes < 256 ^ bytes.length := by
  induction bytes with
  | nil => simp [ofBigEndian]
  | cons byte rest ih =>
      have bound : byte.toNat + 1 ≤ 256 := byte.toNat_lt
      have scaled := Nat.mul_le_mul_right (256 ^ rest.length) bound
      rw [ofBigEndian_cons, List.length_cons, pow_succ]
      rw [Nat.add_mul, Nat.one_mul] at scaled
      omega

/-- Byte strings of one length compare as the numbers they denote. -/
theorem compare_eq_lt_iff {first second : Bytes} (width : first.length = second.length) :
    compare first second = .lt ↔ ofBigEndian first < ofBigEndian second := by
  induction first generalizing second with
  | nil =>
      obtain rfl := List.eq_nil_of_length_eq_zero width.symm
      simp [Std.ReflCmp.compare_self]
  | cons byte rest ih =>
      cases second with
      | nil => simp at width
      | cons other tail =>
          have lengths : rest.length = tail.length := by simpa using width
          have low := ofBigEndian_lt rest
          have high := ofBigEndian_lt tail
          rw [List.compare_cons_cons, Ordering.then_eq_lt, ofBigEndian_cons, ofBigEndian_cons,
            ih lengths, Std.compare_eq_iff_eq, Std.compare_eq_lt, UInt8.lt_iff_toNat_lt,
            ← UInt8.toNat_inj]
          rw [lengths] at low ⊢
          generalize 256 ^ tail.length = unit at low high ⊢
          rcases Nat.lt_trichotomy byte.toNat other.toNat with less | same | more
          · have scaled := Nat.mul_le_mul_right unit less
            rw [Nat.succ_mul] at scaled
            omega
          · rw [same]
            omega
          · have scaled := Nat.mul_le_mul_right unit more
            rw [Nat.succ_mul] at scaled
            omega

/-- A byte string escaped (`00` becomes `00 FF`) and ended by `00 00`. -/
def terminated : Bytes → Bytes
  | [] => [0, 0]
  | byte :: rest => if byte = 0 then 0 :: 0xFF :: terminated rest else byte :: terminated rest

/-- Read one terminated string off the front: the string, and what follows its terminator. -/
def unterminated : Bytes → Option (Bytes × Bytes)
  | [] => none
  | [_] => none
  | first :: second :: rest =>
      if first = 0 ∧ second = 0 then some ([], rest)
      else if first = 0 ∧ second = 0xFF then
        (unterminated rest).map fun read => (0 :: read.1, read.2)
      else (unterminated (second :: rest)).map fun read => (first :: read.1, read.2)

theorem terminated_ne_nil (word : Bytes) : terminated word ≠ [] := by
  cases word with
  | nil => simp [terminated]
  | cons byte rest => unfold terminated; split <;> simp

/-- A terminated string is read back exactly, whatever follows it. -/
theorem unterminated_terminated (word rest : Bytes) :
    unterminated (terminated word ++ rest) = some (word, rest) := by
  induction word with
  | nil => simp [terminated, unterminated]
  | cons byte word ih =>
      by_cases zero : byte = 0
      · simp [terminated, zero, unterminated, ih]
      · obtain ⟨second, tail, next⟩ :=
          List.exists_cons_of_ne_nil (List.append_ne_nil_of_left_ne_nil (terminated_ne_nil word) rest)
        rw [next] at ih
        simp [terminated, zero, next, unterminated, ih]

/-- No terminated string is a proper prefix of another. -/
theorem terminated_append_inj {first second restFirst restSecond : Bytes}
    (same : terminated first ++ restFirst = terminated second ++ restSecond) :
    first = second ∧ restFirst = restSecond := by
  have read := congrArg unterminated same
  simpa only [unterminated_terminated, Option.some.injEq, Prod.mk.injEq] using read

theorem terminated_injective : Function.Injective terminated := by
  intro first second same
  have padded : terminated first ++ [] = terminated second ++ [] := by rw [same]
  exact (terminated_append_inj padded).1

theorem terminated_prefix_iff (first second rest : Bytes) :
    terminated first <+: terminated second ++ rest ↔ first = second := by
  constructor
  · rintro ⟨tail, same⟩
    exact (terminated_append_inj same).1
  · rintro rfl
    exact List.prefix_append _ _

/-- Equally long prefixes of one string are equal, and so is what follows them. -/
theorem fixed_append_inj {first second restFirst restSecond : Bytes}
    (width : first.length = second.length)
    (same : first ++ restFirst = second ++ restSecond) :
    first = second ∧ restFirst = restSecond :=
  List.append_inj same width

theorem fixed_prefix_iff {first second : Bytes} (rest : Bytes)
    (width : first.length = second.length) : first <+: second ++ rest ↔ first = second := by
  constructor
  · rintro ⟨tail, same⟩
    exact (fixed_append_inj width same).1
  · rintro rfl
    exact List.prefix_append _ _

end ByteCode
