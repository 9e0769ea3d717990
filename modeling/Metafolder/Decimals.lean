import Metafolder.Convert

/-!
# Numbers in decimal

The digits of a number, and the number read from them.
-/

namespace Metafolder

/-! ### Digits -/

theorem isDigit_of_mem_decimalDigits {n : Nat} {c : Char} (member : c ∈ Nat.toDigits 10 n) :
    c.isDigit :=
  Nat.isDigit_of_mem_toDigits (by decide) (by decide) member

theorem digits_eq_ofDigitChars {text : List Char} (all : ∀ c ∈ text, c.isDigit) (n : Nat) :
    digits text n = some (Nat.ofDigitChars 10 text n) := by
  induction text generalizing n with
  | nil => simp [digits]
  | cons c rest ih =>
      have digit : c.isDigit := all c (by simp)
      rw [digits, if_pos digit, ih (fun d member => all d (by simp [member])),
        Nat.ofDigitChars_cons, Nat.mul_comm n 10]
      rfl

theorem digits_toDigits (n : Nat) : digits (Nat.toDigits 10 n) 0 = some n := by
  rw [digits_eq_ofDigitChars fun c => isDigit_of_mem_decimalDigits]
  simp

/-- The digits of a number: at least one, and all of them digits. -/
theorem toDigits_eq_cons (n : Nat) :
    ∃ c rest, Nat.toDigits 10 n = c :: rest ∧ c.isDigit ∧ ∀ d ∈ rest, d.isDigit := by
  cases shown : Nat.toDigits 10 n with
  | nil => exact absurd shown Nat.toDigits_ne_nil
  | cons c rest =>
      have all : ∀ d ∈ c :: rest, d.isDigit := by
        intro d member
        rw [← shown] at member
        exact isDigit_of_mem_decimalDigits member
      exact ⟨c, rest, rfl, all c (by simp), fun d member => all d (by simp [member])⟩

theorem ne_of_isDigit {c other : Char} (digit : c.isDigit) (others : other.isDigit = Bool.false) :
    c ≠ other := by
  intro same
  subst same
  simp [digit] at others

theorem isDigit_bounds {c : Char} (digit : c.isDigit) : 48 ≤ c.toNat ∧ c.toNat ≤ 57 := by
  simp only [Char.isDigit, Bool.and_eq_true, decide_eq_true_eq, ge_iff_le,
    UInt32.le_iff_toNat_le] at digit
  exact digit

theorem isWhitespace_of_isDigit {c : Char} (digit : c.isDigit) : isWhitespace c = Bool.false := by
  have bounds := isDigit_bounds digit
  simp only [isWhitespace, Bool.or_eq_false_iff, Bool.and_eq_false_iff, decide_eq_false_iff_not]
  omega

/-! ### Numbers read -/

/-- A number that starts with a digit is read from its digits alone. -/
theorem parseInt64_cons {c : Char} {rest : List Char} (digit : c.isDigit) :
    parseInt64 (c :: rest) =
      (digits (c :: rest) 0).bind fun n =>
        if -(2 ^ 63) ≤ (n : Int) ∧ (n : Int) < 2 ^ 63 then some (Int64.ofInt n) else none := by
  have notMinus : c ≠ '-' := ne_of_isDigit digit rfl
  have notPlus : c ≠ '+' := ne_of_isDigit digit rfl
  simp only [parseInt64]
  split
  · contradiction
  · exact absurd (List.cons.inj ‹_›).1 notMinus
  · exact absurd (List.cons.inj ‹_›).1 notPlus
  · exact absurd (List.cons.inj ‹_›).1 notMinus
  · exact absurd (List.cons.inj ‹_›).1 notPlus
  · cases digits (c :: rest) 0 <;> rfl

/-- Reading an unsigned number. -/
theorem parseInt64_digits {n : Nat} (fits : n < 2 ^ 63) :
    parseInt64 (Nat.toDigits 10 n) = some (Int64.ofInt n) := by
  obtain ⟨c, rest, shown, digit, -⟩ := toDigits_eq_cons n
  have read := digits_toDigits n
  rw [shown] at read ⊢
  have bounds : -(2 ^ 63) ≤ (n : Int) ∧ (n : Int) < 2 ^ 63 := by omega
  rw [parseInt64_cons digit, read, Option.bind_some, if_pos bounds]

/-- Reading a negative number. -/
theorem parseInt64_minus {n : Nat} (fits : n ≤ 2 ^ 63) :
    parseInt64 ('-' :: Nat.toDigits 10 n) = some (Int64.ofInt (-n)) := by
  obtain ⟨c, rest, shown, -⟩ := toDigits_eq_cons n
  have read := digits_toDigits n
  rw [shown] at read ⊢
  have bounds : -(2 ^ 63) ≤ -(n : Int) ∧ -(n : Int) < 2 ^ 63 := by omega
  have number : parseInt64 ('-' :: c :: rest) =
      ((digits (c :: rest) 0).map fun n => -(n : Int)) >>= fun n =>
        if -(2 ^ 63) ≤ n ∧ n < 2 ^ 63 then some (Int64.ofInt n) else none := by
    simp only [parseInt64]
  simp only [number, read, Option.pure_def, Option.bind_eq_bind, Option.bind_some, Option.map_some]
  rw [if_pos bounds]

/-- A number without a minus sign is not negative. -/
theorem parseInt64_nonneg {text : List Char} {n : Int64} (unsigned : ∀ c ∈ text, c ≠ '-')
    (read : parseInt64 text = some n) : 0 ≤ n.toInt := by
  have counted {digits : Option Nat} (number : ((digits.map fun m => (m : Int)) >>= fun value =>
      if -(2 ^ 63) ≤ value ∧ value < 2 ^ 63 then some (Int64.ofInt value) else none) = some n) :
      0 ≤ n.toInt := by
    obtain ⟨value, found, fits⟩ := Option.bind_eq_some_iff.mp number
    obtain ⟨_, lifted, rfl⟩ := Option.map_eq_some_iff.mp found
    obtain ⟨m, -, same⟩ := Option.bind_eq_some_iff.mp lifted
    obtain rfl := Option.some.inj same
    split at fits
    · next bounds =>
      obtain rfl := Option.some.inj fits
      rw [Int64.toInt_ofInt_of_le bounds.1 bounds.2]
      omega
    · cases fits
  rw [parseInt64.eq_def] at read
  dsimp only at read
  split at read
  · cases read
  · cases read
  · cases read
  · exact absurd rfl (unsigned '-' List.mem_cons_self)
  · exact counted read
  · exact counted read

end Metafolder
