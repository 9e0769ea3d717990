import Mathlib.Data.List.TakeWhile
import Metafolder.LetterCases
import Metafolder.NameTexts
import Metafolder.PrimaryKeys

/-!
# What a pattern requires

A text search looks up the trigrams of what every match of a pattern holds, and a walk of a forest
seeks what every match begins with.  Both are read off the parsed pattern: literals side by side are
one, and a class of one letter's cases is that letter.
-/

namespace Metafolder

open Unicode

/-! ### Parsed patterns -/

/-- `Look`: an assertion on what is around a place. -/
inductive Look where
  | start
  | end_
  | startLF
  | endLF
  | startCRLF
  | endCRLF
  | wordAscii
  | wordAsciiNegate
  | wordUnicode
  | wordUnicodeNegate
  | wordStartAscii
  | wordEndAscii
  | wordStartUnicode
  | wordEndUnicode
  | wordStartHalfAscii
  | wordEndHalfAscii
  | wordStartHalfUnicode
  | wordEndHalfUnicode
  deriving DecidableEq

/-- `Class`: ranges of letters, or of bytes. -/
inductive LetterClass where
  | unicode (ranges : List (Char × Char))
  | bytes (ranges : List (UInt8 × UInt8))

/-- `Hir`: a parsed pattern. -/
inductive Hir where
  | empty
  | literal (bytes : Bytes)
  | letters (ranges : LetterClass)
  | look (assertion : Look)
  | repetition (least : Nat) (most : Option Nat) (greedy : Bool) (sub : Hir)
  | capture (sub : Hir)
  | concat (items : List Hir)
  | alternation (branches : List Hir)

/-! ### Matches -/

/-- A letter of an ASCII word. -/
def isAsciiWord (letter : Char) : Bool := letter.isAlphanum || letter = '_'

section

variable [Letters]

/-- Whether an assertion holds between two letters, either of which may be missing. -/
def Look.holds (before after : Option Char) : Look → Bool
  | .start => before.isNone
  | .end_ => after.isNone
  | .startLF => before.all (· = '\n')
  | .endLF => after.all (· = '\n')
  | .startCRLF => before.all fun letter => letter = '\n' || letter = '\r' && after ≠ some '\n'
  | .endCRLF => after.all fun letter => letter = '\r' || letter = '\n' && before ≠ some '\r'
  | .wordAscii => before.any isAsciiWord != after.any isAsciiWord
  | .wordAsciiNegate => before.any isAsciiWord == after.any isAsciiWord
  | .wordUnicode => before.any Letters.word != after.any Letters.word
  | .wordUnicodeNegate => before.any Letters.word == after.any Letters.word
  | .wordStartAscii => !before.any isAsciiWord && after.any isAsciiWord
  | .wordEndAscii => before.any isAsciiWord && !after.any isAsciiWord
  | .wordStartUnicode => !before.any Letters.word && after.any Letters.word
  | .wordEndUnicode => before.any Letters.word && !after.any Letters.word
  | .wordStartHalfAscii => !before.any isAsciiWord
  | .wordEndHalfAscii => !after.any isAsciiWord
  | .wordStartHalfUnicode => !before.any Letters.word
  | .wordEndHalfUnicode => !after.any Letters.word

end

/-- The letters of a class, range after range; a byte stands for the letter of its number. -/
def LetterClass.members : LetterClass → List Char
  | .unicode ranges => ranges.flatMap fun range =>
      ((List.range' range.1.toNat (range.2.toNat + 1 - range.1.toNat)).filter
        (Nat.isValidChar ·)).map Char.ofNat
  | .bytes ranges => ranges.flatMap fun range =>
      (List.range' range.1.toNat (range.2.toNat + 1 - range.1.toNat)).map Char.ofNat

/-- Whether a letter of a text is of a class: a byte is a letter of its own in ASCII only. -/
def LetterClass.has (ranges : LetterClass) (letter : Char) : Prop :=
  match ranges with
  | .unicode _ => letter ∈ ranges.members
  | .bytes _ => letter.toNat < 128 ∧ letter ∈ ranges.members

/-- Pieces side by side, each found in its turn between what is before and after it. -/
def InTurn (finds : List Char → List Char → List Char → Prop) :
    List Char → List (List Char) → List Char → Prop
  | _, [], _ => True
  | before, piece :: rest, after =>
      finds before piece (rest.flatten ++ after) ∧ InTurn finds (before ++ piece) rest after

section

variable [Letters]

mutual

/-- Whether a pattern matches a piece of a text, between what is before and after it. -/
def Hir.Matches : Hir → List Char → List Char → List Char → Prop
  | .empty, _, piece, _ => piece = []
  | .literal bytes, _, piece, _ => (String.ofList piece).asBytes = bytes
  | .letters ranges, _, piece, _ => ∃ letter, piece = [letter] ∧ ranges.has letter
  | .look assertion, before, piece, after =>
      piece = [] ∧ assertion.holds before.getLast? after.head?
  | .repetition least most _ sub, before, piece, after => ∃ pieces : List (List Char),
      piece = pieces.flatten ∧ least ≤ pieces.length ∧ (∀ bound ∈ most, pieces.length ≤ bound) ∧
        InTurn (fun before piece after => sub.Matches before piece after) before pieces after
  | .capture sub, before, piece, after => sub.Matches before piece after
  | .concat items, before, piece, after => Hir.MatchesAll items before piece after
  | .alternation branches, before, piece, after => Hir.MatchesAny branches before piece after

/-- Whether patterns match a piece side by side. -/
def Hir.MatchesAll : List Hir → List Char → List Char → List Char → Prop
  | [], _, piece, _ => piece = []
  | item :: items, before, piece, after => ∃ first rest, piece = first ++ rest ∧
      item.Matches before first (rest ++ after) ∧ Hir.MatchesAll items (before ++ first) rest after

/-- Whether one of several patterns matches a piece. -/
def Hir.MatchesAny : List Hir → List Char → List Char → List Char → Prop
  | [], _, _, _ => False
  | branch :: branches, before, piece, after =>
      branch.Matches before piece after ∨ Hir.MatchesAny branches before piece after

end

/-- `is_match`: whether a pattern matches anywhere in a text. -/
def Hir.IsMatch (hir : Hir) (text : String) : Prop :=
  ∃ before piece after, text.toList = before ++ piece ++ after ∧ hir.Matches before piece after

/-! ### Required literals -/

/-- `one_char`: the letter a class stands for, when it holds one letter's cases only. -/
def LetterClass.oneChar (ranges : LetterClass) : Option Char :=
  let letters := ranges.members
  if 4 < letters.length then none
  else do
    let lowered := letters.map Letters.lower
    let first ← lowered.head?
    if lowered.all (· = first) ∧ first.length = 1 then first.head? else none

/-- The literal built so far, and those finished. -/
structure Literals where
  /-- `run`: the literal that what follows may go on with. -/
  run : String := ""
  /-- `out`: the literals finished. -/
  out : List String := []

/-- `flush`: the literal built is finished. -/
def Literals.flush (held : Literals) : Literals :=
  if held.run = "" then held else ⟨"", held.out ++ [held.run]⟩

/-- `str::to_lowercase`. -/
def lowercased (text : String) : String := String.ofList (Unicode.toLowercase text.toList)

mutual

/-- `walk`: the literals of a pattern join those held. -/
def Hir.walk : Hir → Literals → Literals
  | .literal bytes, held =>
      match String.fromUTF8? ⟨bytes.toArray⟩ with
      | some text => { held with run := held.run ++ lowercased text }
      | none => held.flush
  | .letters ranges, held =>
      match ranges.oneChar with
      | some letter => { held with run := held.run ++ String.ofList (Letters.lower letter) }
      | none => held.flush
  | .concat items, held => Hir.walkAll items held
  | .capture sub, held => sub.walk held
  | .repetition least _ _ sub, held =>
      if 1 ≤ least then (sub.walk held.flush).flush else held.flush
  | .look _, held => held
  | .empty, held => held
  | .alternation _, held => held.flush

/-- `walk`, through the items of a concatenation. -/
def Hir.walkAll : List Hir → Literals → Literals
  | [], held => held
  | item :: items, held => Hir.walkAll items (item.walk held)

end

/-- `required_literals`, of a parsed pattern. -/
def requiredLiterals (parsed : Option Hir) : List String :=
  match parsed with
  | none => []
  | some hir => (hir.walk {}).flush.out

end

/-! ### Anchors -/

/-- The literals a list of patterns begins with, as one text; a broken literal fails. -/
def literalPrefix : List Hir → Option String
  | .literal bytes :: rest => do
      let text ← String.fromUTF8? ⟨bytes.toArray⟩
      pure (text ++ (← literalPrefix rest))
  | _ => some ""

/-- Whether a pattern is an assertion. -/
def Hir.isLook (wanted : Look) : Hir → Bool
  | .look assertion => assertion = wanted
  | _ => false

/-- `anchored_prefix`. -/
def anchoredPrefix (parsed : Option Hir) : Option String :=
  match parsed with
  | some (.concat items) =>
      let rest := items.dropWhile (Hir.isLook .start)
      if rest.length = items.length then none
      else (literalPrefix rest).filter (· ≠ "")
  | _ => none

/-- The literals a reversed list of patterns begins with, their bytes in order. -/
def literalSuffix : List Hir → Bytes
  | .literal bytes :: rest => literalSuffix rest ++ bytes
  | _ => []

/-- `anchored_suffix`. -/
def anchoredSuffix (parsed : Option Hir) : Option String :=
  match parsed with
  | some (.concat items) =>
      let rest := items.reverse.dropWhile (Hir.isLook .end_)
      if rest.length = items.length then none
      else (String.fromUTF8? ⟨(literalSuffix rest).toArray⟩).filter (· ≠ "")
  | _ => none

/-! ### What a match holds -/

section

variable [Letters]

mutual

/-- No literal is built from a capital sigma, whose lower case depends on what is around it. -/
def Hir.Plain : Hir → Prop
  | .literal bytes => ∀ text, String.fromUTF8? ⟨bytes.toArray⟩ = some text →
      capitalSigma ∉ text.toList
  | .letters ranges => ranges.oneChar = none ∨ capitalSigma ∉ ranges.members
  | .concat items => Hir.PlainAll items
  | .capture sub => sub.Plain
  | .repetition least _ _ sub => 1 ≤ least → sub.Plain
  | .look _ => True
  | .empty => True
  | .alternation _ => True

/-- No literal of several patterns is built from a capital sigma. -/
def Hir.PlainAll : List Hir → Prop
  | [] => True
  | item :: items => item.Plain ∧ Hir.PlainAll items

end

/-- The literals held are pieces of a text in lower case; the one being built ends at a place. -/
structure Built (text before : List Char) (held : Literals) : Prop where
  /-- The literal being built is the lower case of the letters before the place. -/
  run : ∃ front piece, before = front ++ piece ∧ capitalSigma ∉ piece ∧
    held.run.toList = piece.flatMap Letters.lower
  /-- The literals finished are in the text. -/
  out : ∀ literal ∈ held.out, literal.toList <:+: Unicode.toLowercase text

theorem built_start (text before : List Char) : Built text before {} :=
  ⟨⟨before, [], by simp⟩, by simp⟩

/-- A literal that is finished is in the text; the next begins anywhere. -/
theorem Built.flush {before after : List Char} {held : Literals}
    (built : Built (before ++ after) before held) (place : List Char) :
    Built (before ++ after) place held.flush := by
  obtain ⟨front, piece, before_eq, plain, run_eq⟩ := built.run
  unfold Literals.flush
  split
  next idle => exact ⟨⟨place, [], by simp [idle]⟩, built.out⟩
  next =>
    refine ⟨⟨place, [], by simp⟩, fun literal member => ?_⟩
    rcases List.mem_append.mp member with earlier | last
    · exact built.out literal earlier
    · rw [List.mem_singleton.mp last, run_eq, before_eq]
      exact infix_toLowercase plain front after

/-- Letters found after the place go on with the literal being built. -/
theorem Built.push {text before piece : List Char} {held : Literals} {lowered : String}
    (built : Built text before held) (plain : capitalSigma ∉ piece)
    (lowered_eq : lowered.toList = piece.flatMap Letters.lower) :
    Built text (before ++ piece) { held with run := held.run ++ lowered } := by
  obtain ⟨front, earlier, before_eq, earlier_plain, run_eq⟩ := built.run
  refine ⟨⟨front, earlier ++ piece, by rw [before_eq, List.append_assoc], ?_, ?_⟩, built.out⟩
  · rw [List.mem_append, not_or]
    exact ⟨earlier_plain, plain⟩
  · rw [String.toList_append, run_eq, lowered_eq, List.flatMap_append]

/-- The letter a class stands for is the lower case of all its members. -/
theorem LetterClass.lower_of_oneChar {ranges : LetterClass} {letter : Char}
    (one : ranges.oneChar = some letter) {member : Char} (listed : member ∈ ranges.members) :
    Letters.lower member = [letter] := by
  unfold oneChar at one
  dsimp only at one
  split at one
  next => cases one
  next =>
    obtain ⟨first, head, rest⟩ := Option.bind_eq_some_iff.mp one
    split at rest
    next same =>
      have lowered := List.all_eq_true.mp same.1 _ (List.mem_map_of_mem listed)
      rw [decide_eq_true_eq] at lowered
      obtain ⟨only, first_eq⟩ := List.length_eq_one_iff.mp same.2
      rw [first_eq, List.head?_cons, Option.some.injEq] at rest
      rw [lowered, first_eq, rest]
    next => cases rest

omit [Letters] in
theorem LetterClass.mem_members {ranges : LetterClass} {letter : Char} (has : ranges.has letter) :
    letter ∈ ranges.members := by
  cases ranges with
  | unicode ranges => exact has
  | bytes ranges => exact has.2

omit [Letters] in
theorem fromUTF8?_of_asBytes {piece : List Char} {bytes : Bytes}
    (spelled : (String.ofList piece).asBytes = bytes) :
    String.fromUTF8? ⟨bytes.toArray⟩ = some (String.ofList piece) := by
  rw [← spelled, fromUTF8?_asBytes]

mutual

/-- Where a pattern matches a piece of a text, its literals are in the text's lower case. -/
theorem Hir.built_walk {before piece after : List Char} {held : Literals} :
    (hir : Hir) → hir.Plain → hir.Matches before piece after →
      Built (before ++ piece ++ after) before held →
        Built (before ++ piece ++ after) (before ++ piece) (hir.walk held)
  | .empty, _, found, built => by
      rw [Hir.Matches] at found
      subst found
      simpa [Hir.walk] using built
  | .literal bytes, plain, found, built => by
      rw [Hir.Matches] at found
      have decoded := fromUTF8?_of_asBytes found
      have no_sigma := plain _ decoded
      rw [String.toList_ofList] at no_sigma
      rw [Hir.walk, decoded]
      refine built.push no_sigma ?_
      rw [lowercased, String.toList_ofList, String.toList_ofList, toLowercase_plain no_sigma]
  | .letters ranges, plain, found, built => by
      obtain ⟨letter, rfl, has⟩ := found
      have listed := LetterClass.mem_members has
      rw [Hir.walk]
      cases one : ranges.oneChar with
      | none =>
          rw [List.append_assoc] at built ⊢
          exact built.flush _
      | some lowered =>
          have lower_eq := LetterClass.lower_of_oneChar one listed
          have no_sigma : capitalSigma ∉ ranges.members := by
            rcases plain with none | no_sigma
            · rw [one] at none
              cases none
            · exact no_sigma
          refine @Built.push _ _ _ [letter] _ _ built ?_ ?_
          · rw [List.mem_singleton]
            rintro rfl
            exact no_sigma listed
          · rw [String.toList_ofList, Letters.lower_lower lower_eq, List.flatMap_singleton,
              lower_eq]
  | .look assertion, _, found, built => by
      obtain ⟨rfl, -⟩ := found
      simpa [Hir.walk] using built
  | .repetition least most greedy sub, plain, found, built => by
      obtain ⟨pieces, rfl, enough, -, turns⟩ := found
      rw [Hir.walk]
      rw [List.append_assoc] at built ⊢
      split
      next once =>
        cases pieces with
        | nil => simp at enough; omega
        | cons first rest =>
            obtain ⟨found_first, -⟩ := turns
            have flushed := built.flush before
            have whole : before ++ ((first :: rest).flatten ++ after) =
                before ++ first ++ (rest.flatten ++ after) := by simp
            rw [whole] at flushed ⊢
            exact (Hir.built_walk sub (plain once) found_first flushed).flush _
      next => exact built.flush _
  | .capture sub, plain, found, built => by
      rw [Hir.walk]
      exact Hir.built_walk sub plain found built
  | .concat items, plain, found, built => by
      rw [Hir.walk]
      exact Hir.built_walkAll items plain found built
  | .alternation branches, _, _, built => by
      rw [Hir.walk]
      rw [List.append_assoc] at built ⊢
      exact built.flush _

/-- Where patterns match a piece of a text side by side, their literals are in its lower case. -/
theorem Hir.built_walkAll {before piece after : List Char} {held : Literals} :
    (items : List Hir) → Hir.PlainAll items → Hir.MatchesAll items before piece after →
      Built (before ++ piece ++ after) before held →
        Built (before ++ piece ++ after) (before ++ piece) (Hir.walkAll items held)
  | [], _, found, built => by
      rw [Hir.MatchesAll] at found
      subst found
      simpa [Hir.walkAll] using built
  | item :: items, plain, found, built => by
      obtain ⟨first, rest, rfl, found_item, found_items⟩ := found
      have whole : before ++ (first ++ rest) ++ after = before ++ first ++ (rest ++ after) := by
        simp
      rw [whole] at built
      have built_item := Hir.built_walk item plain.1 found_item built
      have whole_rest : before ++ first ++ (rest ++ after) = before ++ first ++ rest ++ after := by
        simp
      rw [whole_rest] at built_item
      have built_items := Hir.built_walkAll items plain.2 found_items built_item
      rw [Hir.walkAll, whole, whole_rest, ← List.append_assoc before first rest]
      exact built_items

end

/-- The lower case of a text a pattern matches holds the literals the pattern requires, when none is
built from a capital sigma. -/
theorem requiredLiterals_sound {hir : Hir} (plain : hir.Plain) {text : String}
    (found : hir.IsMatch text) {literal : String}
    (required : literal ∈ requiredLiterals (some hir)) :
    literal.toList <:+: Unicode.toLowercase text.toList := by
  obtain ⟨before, piece, after, text_eq, found⟩ := found
  rw [text_eq]
  have built := Hir.built_walk hir plain found (built_start _ before)
  exact (built.flush []).out literal required

/-! ### What a match begins and ends with -/

/-- Assertions match the empty piece where they hold, and what follows them is matched there. -/
theorem matchesAll_of_looks {wanted : Look} {looks items : List Hir}
    (only : ∀ item ∈ looks, item.isLook wanted) {before piece after : List Char}
    (found : Hir.MatchesAll (looks ++ items) before piece after) :
    Hir.MatchesAll items before piece after ∧
      (looks ≠ [] → wanted.holds before.getLast? (piece ++ after).head?) := by
  induction looks with
  | nil => exact ⟨found, fun some => absurd rfl some⟩
  | cons item looks ih =>
      obtain ⟨first, rest, rfl, found_item, found_rest⟩ := found
      have is_look := only item List.mem_cons_self
      cases item <;> simp only [Hir.isLook, Bool.false_eq_true, decide_eq_true_eq] at is_look
      next assertion =>
        subst is_look
        obtain ⟨rfl, holds⟩ := found_item
        rw [List.append_nil] at found_rest
        obtain ⟨found_items, -⟩ := ih (fun item member => only item (List.mem_cons_of_mem _ member))
          found_rest
        exact ⟨found_items, fun _ => holds⟩

theorem literalPrefix_sound {items : List Hir} {text : String}
    (read : literalPrefix items = some text) {before piece after : List Char} (found : Hir.MatchesAll items before piece after) :
    text.toList <+: piece := by
  induction items generalizing before piece text with
  | nil =>
      have text_eq : "" = text := by simpa [literalPrefix] using read
      simp [← text_eq]
  | cons item items ih =>
      cases item with
      | literal bytes =>
          obtain ⟨first, rest, rfl, found_item, found_items⟩ := found
          simp only [literalPrefix, fromUTF8?_of_asBytes found_item, Option.bind_eq_bind,
            Option.bind_some, Option.bind_eq_some_iff, Option.pure_def, Option.some.injEq] at read
          obtain ⟨later, read_later, rfl⟩ := read
          rw [String.toList_append, String.toList_ofList]
          exact (List.prefix_append_right_inj first).mpr (ih read_later found_items)
      | _ =>
          have text_eq : "" = text := by simpa [literalPrefix] using read
          simp [← text_eq]

/-- A text a pattern matches begins with the pattern's prefix. -/
theorem anchoredPrefix_sound {hir : Hir} {text start : String}
    (anchored : anchoredPrefix (some hir) = some start) (found : hir.IsMatch text) :
    start.toList <+: text.toList := by
  obtain ⟨before, piece, after, text_eq, found⟩ := found
  cases hir with
  | concat items =>
      simp only [anchoredPrefix] at anchored
      split at anchored
      next => cases anchored
      next some_look =>
        obtain ⟨read, -⟩ := Option.filter_eq_some_iff.mp anchored
        rw [Hir.Matches, ← List.takeWhile_append_dropWhile (p := Hir.isLook .start) (l := items)]
          at found
        have only : ∀ item ∈ items.takeWhile (Hir.isLook .start), item.isLook .start :=
          fun item member => List.mem_takeWhile_imp member
        obtain ⟨found_rest, holds⟩ := matchesAll_of_looks only found
        have nonempty : items.takeWhile (Hir.isLook .start) ≠ [] := by
          intro none
          have whole := List.takeWhile_append_dropWhile (p := Hir.isLook .start) (l := items)
          rw [none, List.nil_append] at whole
          exact some_look (congrArg List.length whole)
        have at_start := holds nonempty
        rw [Look.holds, Option.isNone_iff_eq_none, List.getLast?_eq_none_iff] at at_start
        rw [text_eq, at_start, List.nil_append]
        exact (literalPrefix_sound read found_rest).trans (List.prefix_append piece after)
  | _ => simp [anchoredPrefix] at anchored

theorem matchesAll_append {first second : List Hir} {before piece after : List Char}
    (found : Hir.MatchesAll (first ++ second) before piece after) :
    ∃ front back, piece = front ++ back ∧ Hir.MatchesAll first before front (back ++ after) ∧
      Hir.MatchesAll second (before ++ front) back after := by
  induction first generalizing before piece with
  | nil => exact ⟨[], piece, rfl, rfl, by simpa using found⟩
  | cons item items ih =>
      obtain ⟨here, rest, rfl, found_item, found_rest⟩ := found
      obtain ⟨front, back, rfl, found_front, found_back⟩ := ih found_rest
      refine ⟨here ++ front, back, by simp, ⟨here, front, rfl, ?_, found_front⟩, ?_⟩
      · rwa [List.append_assoc] at found_item
      · rwa [List.append_assoc] at found_back

theorem literalSuffix_sound {items : List Hir} {before piece after : List Char}
    (found : Hir.MatchesAll items.reverse before piece after) :
    ∃ front back, piece = front ++ back ∧ (String.ofList back).asBytes = literalSuffix items := by
  induction items generalizing piece after with
  | nil => exact ⟨piece, [], by simp, rfl⟩
  | cons item items ih =>
      cases item with
      | literal bytes =>
          rw [List.reverse_cons] at found
          obtain ⟨earlier, last, rfl, found_earlier, found_last⟩ := matchesAll_append found
          obtain ⟨here, none, rfl, spelled, none_eq⟩ := found_last
          rw [Hir.MatchesAll] at none_eq
          subst none_eq
          obtain ⟨front, back, rfl, back_eq⟩ := ih found_earlier
          refine ⟨front, back ++ here, by simp, ?_⟩
          rw [Hir.Matches] at spelled
          rw [literalSuffix, ← back_eq, ← spelled]
          simp only [String.asBytes_ofList, List.flatMap_append]
      | _ => exact ⟨piece, [], by simp, rfl⟩

/-- A text a pattern matches ends with the pattern's suffix. -/
theorem anchoredSuffix_sound {hir : Hir} {text ending : String}
    (anchored : anchoredSuffix (some hir) = some ending) (found : hir.IsMatch text) :
    ending.toList <:+ text.toList := by
  obtain ⟨before, piece, after, text_eq, found⟩ := found
  cases hir with
  | concat items =>
      simp only [anchoredSuffix] at anchored
      split at anchored
      next => cases anchored
      next some_look =>
        obtain ⟨read, -⟩ := Option.filter_eq_some_iff.mp anchored
        set looks := items.reverse.takeWhile (Hir.isLook .end_) with looks_eq
        set rest := items.reverse.dropWhile (Hir.isLook .end_) with rest_eq
        have whole : looks ++ rest = items.reverse := List.takeWhile_append_dropWhile
        have items_eq : items = rest.reverse ++ looks.reverse := by
          rw [← List.reverse_append, whole, List.reverse_reverse]
        rw [Hir.Matches, items_eq] at found
        obtain ⟨front, back, rfl, found_front, found_back⟩ := matchesAll_append found
        rw [← List.append_nil looks.reverse] at found_back
        have only : ∀ item ∈ looks.reverse, item.isLook .end_ :=
          fun item member => List.mem_takeWhile_imp (List.mem_reverse.mp member)
        obtain ⟨none_eq, holds⟩ := matchesAll_of_looks only found_back
        rw [Hir.MatchesAll] at none_eq
        subst none_eq
        have nonempty : looks.reverse ≠ [] := by
          intro none
          rw [List.reverse_eq_nil_iff] at none
          rw [none, List.nil_append] at whole
          exact some_look (by rw [whole, List.length_reverse])
        have at_end := holds nonempty
        rw [Look.holds, Option.isNone_iff_eq_none, List.nil_append, List.head?_eq_none_iff]
          at at_end
        obtain ⟨earlier, last, rfl, last_eq⟩ := literalSuffix_sound found_front
        rw [fromUTF8?_of_asBytes last_eq, Option.some.injEq] at read
        rw [text_eq, at_end, ← read, String.toList_ofList]
        exact ⟨before ++ earlier, by simp⟩
  | _ => simp [anchoredSuffix] at anchored

end

end Metafolder
