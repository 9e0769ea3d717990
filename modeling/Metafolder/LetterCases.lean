import Mathlib.Data.List.Basic
import Mathlib.Data.List.Infix

/-!
# Lower-casing a text

A text is lower-cased letter by letter, except for the capital sigma: it is a final sigma where it
ends a word, which the letters around it decide.  A piece of a text without a capital sigma is
lower-cased in the text as it is alone.
-/

namespace Unicode

/-- What the tables of letters say. -/
class Letters where
  /-- The lower case of a letter: up to three letters. -/
  lower : Char → List Char
  /-- Whether a letter has a case. -/
  cased : Char → Bool
  /-- Whether a letter is skipped when the case of its neighbours is looked at. -/
  caseIgnorable : Char → Bool
  /-- Whether a letter is part of a word. -/
  word : Char → Bool
  /-- A single letter in lower case stays as it is. -/
  lower_lower : ∀ {letter lowered : Char}, lower letter = [lowered] → lower lowered = [lowered]

variable [Letters]

/-- The capital sigma. -/
def capitalSigma : Char := 'Σ'

/-- Whether the first letter that is not skipped has a case. -/
def ignorableThenCased (letters : List Char) : Bool :=
  (letters.dropWhile Letters.caseIgnorable).head?.any Letters.cased

/-- The lower case of a capital sigma, from what is before it, backwards, and after it. -/
def lowerSigma (before after : List Char) : Char :=
  if ignorableThenCased before && !ignorableThenCased after then 'ς' else 'σ'

/-- The lower case of a text after what is before it, backwards. -/
def lowerFrom : List Char → List Char → List Char
  | _, [] => []
  | before, letter :: rest =>
      (if letter = capitalSigma then [lowerSigma before rest] else Letters.lower letter) ++
        lowerFrom (letter :: before) rest

/-- The lower case of a text. -/
def toLowercase (text : List Char) : List Char := lowerFrom [] text

/-- What follows a piece is lower-cased after it. -/
theorem exists_lowerFrom_append (before piece rest : List Char) :
    ∃ lowered, lowerFrom before (piece ++ rest) =
      lowered ++ lowerFrom (piece.reverse ++ before) rest := by
  induction piece generalizing before with
  | nil => exact ⟨[], rfl⟩
  | cons letter piece ih =>
      obtain ⟨lowered, lowered_eq⟩ := ih (letter :: before)
      rw [List.cons_append, lowerFrom, lowered_eq, List.reverse_cons, List.append_assoc]
      exact ⟨_, (List.append_assoc ..).symm⟩

/-- A piece without a capital sigma is lower-cased letter by letter. -/
theorem lowerFrom_append {piece : List Char} (plain : capitalSigma ∉ piece)
    (before rest : List Char) : lowerFrom before (piece ++ rest) =
      piece.flatMap Letters.lower ++ lowerFrom (piece.reverse ++ before) rest := by
  induction piece generalizing before with
  | nil => rfl
  | cons letter piece ih =>
      obtain ⟨differ, plain⟩ := not_or.mp (mt List.mem_cons.mpr plain)
      rw [List.cons_append, lowerFrom, if_neg (Ne.symm differ), ih plain, List.flatMap_cons,
        List.append_assoc, List.reverse_cons, List.append_assoc]
      rfl

theorem toLowercase_plain {text : List Char} (plain : capitalSigma ∉ text) :
    toLowercase text = text.flatMap Letters.lower := by
  have whole := lowerFrom_append plain [] []
  rwa [List.append_nil, lowerFrom, List.append_nil] at whole

/-- The lower case of a text holds that of its pieces without a capital sigma. -/
theorem infix_toLowercase {piece : List Char} (plain : capitalSigma ∉ piece)
    (before after : List Char) :
    piece.flatMap Letters.lower <:+: toLowercase (before ++ piece ++ after) := by
  obtain ⟨lowered, lowered_eq⟩ := exists_lowerFrom_append [] before (piece ++ after)
  rw [toLowercase, List.append_assoc, lowered_eq, lowerFrom_append plain]
  exact ⟨lowered, lowerFrom (piece.reverse ++ (before.reverse ++ [])) after, by simp⟩

end Unicode
