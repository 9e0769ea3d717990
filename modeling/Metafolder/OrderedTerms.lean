import Mathlib.Data.List.Infix
import Metafolder.Lookups

/-!
# Terms in order

A text holds the terms of a search when they occur in it one after the other, none overlapping the
next.  The scan takes each term where it first occurs, and what it has taken of the beginning of a
text is what it takes of the whole: a walk down a forest of paths goes on from the path above.
-/

namespace Metafolder

/-! ### Terms of a list -/

section Lists

variable {α : Type} [DecidableEq α]

/-- Where a list first occurs in another. -/
def findList (needle : List α) : List α → Option Nat
  | [] => if needle = [] then some 0 else none
  | head :: rest =>
      if needle.isPrefixOf (head :: rest) then some 0 else (findList needle rest).map (· + 1)

/-- Lists that occur in order, none overlapping the next. -/
def Embeds : List (List α) → List α → Prop
  | [], _ => True
  | needle :: rest, haystack =>
      ∃ before after, haystack = before ++ needle ++ after ∧ Embeds rest after

variable {needle haystack front back : List α} {offset : Nat}

theorem findList_some (found : findList needle haystack = some offset) :
    needle <+: haystack.drop offset ∧ offset + needle.length ≤ haystack.length := by
  induction haystack generalizing offset with
  | nil =>
      rw [findList] at found
      split at found
      · next same =>
        obtain rfl := Option.some.inj found
        subst same
        exact ⟨List.nil_prefix, le_rfl⟩
      · cases found
  | cons head rest ih =>
      rw [findList] at found
      split at found
      · next here =>
        obtain rfl := Option.some.inj found
        have isPrefix := List.isPrefixOf_iff_prefix.mp here
        refine ⟨isPrefix, ?_⟩
        have := isPrefix.length_le
        omega
      · obtain ⟨earlier, later, rfl⟩ := Option.map_eq_some_iff.mp found
        obtain ⟨isPrefix, fits⟩ := ih later
        refine ⟨isPrefix, ?_⟩
        rw [List.length_cons]
        omega

/-- A list that occurs is found, no later. -/
theorem findList_of_eq {before after : List α} (here : haystack = before ++ needle ++ after) :
    ∃ offset, findList needle haystack = some offset ∧ offset ≤ before.length := by
  induction haystack generalizing before with
  | nil =>
      obtain ⟨-, rfl, -⟩ : before = [] ∧ needle = [] ∧ after = [] := by simpa using here.symm
      exact ⟨0, rfl, Nat.zero_le _⟩
  | cons head rest ih =>
      rw [findList]
      split
      · exact ⟨0, rfl, Nat.zero_le _⟩
      · next elsewhere =>
        cases before with
        | nil =>
            refine absurd (List.isPrefixOf_iff_prefix.mpr ⟨after, ?_⟩) elsewhere
            rw [here, List.nil_append]
        | cons first others =>
            obtain ⟨-, same⟩ := List.cons.inj here
            obtain ⟨offset, found, early⟩ := ih same
            exact ⟨offset + 1, by rw [found]; rfl, Nat.succ_le_succ early⟩

/-- What is found in the beginning of a list is what is found in the whole. -/
theorem findList_append (found : findList needle front = some offset) (back : List α) :
    findList needle (front ++ back) = some offset := by
  induction front generalizing offset with
  | nil =>
      rw [findList] at found
      split at found
      · next same =>
        obtain rfl := Option.some.inj found
        subst same
        cases back <;> rfl
      · cases found
  | cons head rest ih =>
      rw [List.cons_append, findList]
      rw [findList] at found
      split at found
      · next here =>
        obtain rfl := Option.some.inj found
        have isPrefix := (List.isPrefixOf_iff_prefix.mp here).trans (List.prefix_append _ back)
        rw [← List.cons_append, if_pos (List.isPrefixOf_iff_prefix.mpr isPrefix)]
      · next elsewhere =>
        obtain ⟨earlier, later, rfl⟩ := Option.map_eq_some_iff.mp found
        have long := (findList_some later).2
        rw [if_neg, ih later]
        · rfl
        · intro here
          refine elsewhere (List.isPrefixOf_iff_prefix.mpr ?_)
          have isPrefix := List.isPrefixOf_iff_prefix.mp here
          refine List.prefix_of_prefix_length_le isPrefix
            (List.prefix_append (head :: rest) back) ?_
          rw [List.length_cons]
          omega

omit [DecidableEq α] in
theorem Embeds.of_suffix {terms : List (List α)} (embeds : Embeds terms back)
    (isSuffix : back <:+ haystack) : Embeds terms haystack := by
  cases terms with
  | nil => trivial
  | cons needle rest =>
      obtain ⟨more, rfl⟩ := isSuffix
      obtain ⟨before, after, rfl, later⟩ := embeds
      exact ⟨more ++ before, after, by simp, later⟩

/-- A term can be taken where it first occurs. -/
theorem embeds_cons_iff {terms : List (List α)} : Embeds (needle :: terms) haystack ↔
    ∃ offset, findList needle haystack = some offset ∧
      Embeds terms (haystack.drop (offset + needle.length)) := by
  constructor
  · rintro ⟨before, after, here, later⟩
    obtain ⟨offset, found, early⟩ := findList_of_eq here
    refine ⟨offset, found, later.of_suffix ?_⟩
    have dropped : after = haystack.drop (before.length + needle.length) := by
      rw [here, ← List.length_append, List.drop_left]
    rw [dropped]
    exact List.drop_suffix_drop_left _ (by omega)
  · rintro ⟨offset, found, later⟩
    obtain ⟨⟨after, same⟩, -⟩ := findList_some found
    refine ⟨haystack.take offset, after, ?_, ?_⟩
    · rw [List.append_assoc, same, List.take_append_drop]
    · rwa [← List.drop_drop, ← same, List.drop_left] at later

end Lists

/-! ### The scan -/

/-- A text, as its characters. -/
abbrev Text := List Char

/-- `OsmProgress`: the offset is counted in characters. -/
structure OsmProgress where
  /-- `matched`. -/
  matched : Nat := 0
  /-- `from`. -/
  from_ : Nat := 0
deriving DecidableEq

/-- `osm_advance`, its loop over the terms left. -/
def advanceOver (haystack : Text) : List Text → OsmProgress → OsmProgress
  | [], progress => progress
  | needle :: rest, progress =>
      match findList needle (haystack.drop progress.from_) with
      | some offset =>
          advanceOver haystack rest
            ⟨progress.matched + 1, progress.from_ + (offset + needle.length)⟩
      | none => progress

/-- `osm_advance`. -/
def osmAdvance (haystack : Text) (terms : List Text) (progress : OsmProgress) : OsmProgress :=
  advanceOver haystack (terms.drop progress.matched) progress

variable {haystack front back : Text} {terms rest : List Text} {progress : OsmProgress}

theorem osmAdvance_of_drop (left : terms.drop progress.matched = rest) :
    osmAdvance haystack terms progress = advanceOver haystack rest progress := by
  rw [osmAdvance, left]

/-- What is taken of the beginning of a text is taken of the whole. -/
theorem advanceOver_resume (inside : progress.from_ ≤ front.length)
    (left : terms.drop progress.matched = rest) :
    osmAdvance (front ++ back) terms (advanceOver front rest progress) =
      advanceOver (front ++ back) rest progress := by
  induction rest generalizing progress with
  | nil => exact osmAdvance_of_drop left
  | cons needle rest ih =>
      rw [advanceOver]
      cases found : findList needle (front.drop progress.from_) with
      | none => exact osmAdvance_of_drop left
      | some offset =>
          have fits := (findList_some found).2
          have again : findList needle ((front ++ back).drop progress.from_) = some offset := by
            rw [List.drop_append_of_le_length inside]
            exact findList_append found back
          rw [advanceOver, again]
          apply ih
          · rw [List.length_drop] at fits
            dsimp only
            omega
          · rw [← List.drop_drop, left]
            rfl

/-- Going on from the progress made on a prefix is scanning the whole. -/
theorem osmAdvance_resume (front back : Text) (terms : List Text) :
    osmAdvance (front ++ back) terms (osmAdvance front terms {}) =
      osmAdvance (front ++ back) terms {} :=
  advanceOver_resume (Nat.zero_le _) rfl

/-- Every term left is taken, if they occur in order in what is left. -/
theorem advanceOver_matched : (advanceOver haystack rest progress).matched =
    progress.matched + rest.length ↔ Embeds rest (haystack.drop progress.from_) := by
  induction rest generalizing progress with
  | nil => exact iff_of_true rfl trivial
  | cons needle rest ih =>
      rw [embeds_cons_iff, advanceOver]
      cases found : findList needle (haystack.drop progress.from_) with
      | none =>
          refine iff_of_false (fun same => ?_) fun ⟨offset, held, _⟩ => by cases held
          rw [List.length_cons] at same
          dsimp only at same
          omega
      | some offset =>
          rw [List.length_cons, ← Nat.add_assoc, Nat.add_right_comm, ih, ← List.drop_drop]
          constructor
          · exact fun later => ⟨offset, rfl, later⟩
          · rintro ⟨_, same, later⟩
            obtain rfl := Option.some.inj same
            exact later

theorem advanceOver_le : (advanceOver haystack rest progress).matched ≤
    progress.matched + rest.length := by
  induction rest generalizing progress with
  | nil => exact le_rfl
  | cons needle rest ih =>
      rw [advanceOver, List.length_cons]
      split
      · refine ih.trans ?_
        dsimp only
        omega
      · omega

/-- All terms are taken exactly when they occur in order. -/
theorem osmAdvance_matched : (osmAdvance haystack terms {}).matched = terms.length ↔
    Embeds terms haystack := by
  have all := @advanceOver_matched haystack terms {}
  rwa [Nat.zero_add] at all

theorem osmAdvance_matched_le : (osmAdvance haystack terms {}).matched ≤ terms.length := by
  have most := @advanceOver_le haystack terms {}
  rwa [Nat.zero_add] at most

/-! ### Letters -/

/-- The tables of Unicode that `str::to_lowercase` reads. -/
structure CaseTables where
  /-- `conversions::to_lower`. -/
  toLower : Char → Text
  /-- `Cased`. -/
  cased : Char → Bool
  /-- `Case_Ignorable`. -/
  caseIgnorable : Char → Bool
  toLower_slash : toLower '/' = ['/']
  cased_slash : cased '/' = false
  caseIgnorable_slash : caseIgnorable '/' = false

namespace CaseTables

variable (tables : CaseTables)

/-- `case_ignorable_then_cased`. -/
def ignorableThenCased (text : Text) : Bool :=
  match text.dropWhile tables.caseIgnorable with
  | [] => false
  | next :: _ => tables.cased next

/-- A character lower-cased, between what is before it, nearest first, and what is after: a sigma that
ends a word has a form of its own. -/
def lowerAt (before : Text) (char : Char) (after : Text) : Text :=
  if char = 'Σ' then
    if tables.ignorableThenCased before && !tables.ignorableThenCased after then ['ς'] else ['σ']
  else tables.toLower char

/-- The rest of a text lower-cased, after what was before it. -/
def lowerFrom (before : Text) : Text → Text
  | [] => []
  | char :: after => tables.lowerAt before char after ++ lowerFrom (char :: before) after

/-- `str::to_lowercase`. -/
def toLowercase (text : String) : Text := tables.lowerFrom [] text.toList

theorem ignorableThenCased_append_slash (text more : Text) :
    tables.ignorableThenCased (text ++ '/' :: more) = tables.ignorableThenCased text := by
  rw [ignorableThenCased, ignorableThenCased]
  induction text with
  | nil =>
      rw [List.nil_append, List.dropWhile_cons, tables.caseIgnorable_slash]
      exact tables.cased_slash
  | cons char rest ih =>
      rw [List.cons_append, List.dropWhile_cons, List.dropWhile_cons]
      cases tables.caseIgnorable char with
      | true => exact ih
      | false => rfl

theorem lowerAt_slash (before after : Text) : tables.lowerAt before '/' after = ['/'] := by
  rw [lowerAt, if_neg (by decide), tables.toLower_slash]

/-- What is before a separator is read as nothing is. -/
theorem lowerFrom_append_slash (before more text : Text) :
    tables.lowerFrom (before ++ '/' :: more) text = tables.lowerFrom before text := by
  induction text generalizing before with
  | nil => rfl
  | cons char after ih =>
      rw [lowerFrom, lowerFrom, ← List.cons_append, ih, lowerAt, lowerAt,
        ignorableThenCased_append_slash]

/-- A text is lower-cased between its separators. -/
theorem lowerFrom_slash (before front back : Text) :
    tables.lowerFrom before (front ++ '/' :: back) =
      tables.lowerFrom before front ++ '/' :: tables.lowerFrom [] back := by
  induction front generalizing before with
  | nil =>
      change tables.lowerAt before '/' back ++ tables.lowerFrom ('/' :: before) back = _
      rw [lowerAt_slash]
      exact congrArg ('/' :: ·) (tables.lowerFrom_append_slash [] before back)
  | cons char rest ih =>
      rw [List.cons_append, lowerFrom, lowerFrom, ih, List.append_assoc, lowerAt, lowerAt,
        ignorableThenCased_append_slash]

theorem toLowercase_join (path name : String) :
    tables.toLowercase (path ++ "/" ++ name) =
      tables.toLowercase path ++ '/' :: tables.toLowercase name := by
  rw [toLowercase, String.toList_append, String.toList_append, List.append_assoc]
  exact tables.lowerFrom_slash [] path.toList name.toList

/-- `osm_ordered_match`. -/
def osmOrderedMatch (haystack : Text) (terms : List String) : Bool :=
  (osmAdvance haystack (terms.map tables.toLowercase) {}).matched = terms.length

end CaseTables

end Metafolder
