import Metafolder.Deriving
import Metafolder.Regexps

/-!
# Texts a search may find

A text search reads the trigrams of the literals its pattern requires, and looks at the metarecords
that hold them all, and at those with a text too long to be split.  No metarecord with a text the
pattern matches is left out, as long as a text's lower case holds the literals' lower case.
-/

namespace Metafolder

open Unicode

/-! ### Windows -/

theorem windows_subset_cons (byte : UInt8) (bytes : Bytes) :
    windows bytes ⊆ windows (byte :: bytes) := by
  match bytes with
  | [] => simp [windows]
  | [_] => simp [windows]
  | second :: third :: rest =>
      rw [windows]
      exact List.subset_cons_self ..

theorem windows_subset_append (bytes rest : Bytes) : windows bytes ⊆ windows (bytes ++ rest) := by
  induction bytes using windows.induct with
  | case1 first second third tail ih =>
      rw [List.cons_append, List.cons_append, List.cons_append, windows, windows]
      exact List.cons_subset_cons _ ih
  | case2 bytes short =>
      intro gram member
      rw [windows] at member
      · simp at member
      · exact short

theorem windows_subset_of_inside {piece bytes : Bytes} (inside : piece <:+: bytes) :
    windows piece ⊆ windows bytes := by
  obtain ⟨front, back, rfl⟩ := inside
  rw [List.append_assoc]
  have ends : windows piece ⊆ windows (piece ++ back) := windows_subset_append piece back
  induction front with
  | nil => exact ends
  | cons byte front ih => exact List.Subset.trans ih (windows_subset_cons ..)

/-- The trigrams of a piece of a text are the text's. -/
theorem trigrams_subset_of_inside {piece text : String} (inside : piece.toList <:+: text.toList) :
    trigrams piece ⊆ trigrams text := by
  have bytes : piece.asBytes <:+: text.asBytes := by
    obtain ⟨front, back, text_eq⟩ := inside
    rw [← String.ofList_toList (s := piece), ← String.ofList_toList (s := text), ← text_eq]
    simp only [String.asBytes_ofList, List.flatMap_append]
    exact ⟨_, _, rfl⟩
  intro gram member
  exact List.mem_dedup.mpr (windows_subset_of_inside bytes (List.mem_dedup.mp member))

/-! ### Candidates -/

namespace KvSource

variable [Externals]

/-- `gram_set`: the ids holding a trigram in a field's texts. -/
def gramSet (tx : KvTxn) (field : String) (gram : Bytes) : Finset UInt32 :=
  Derived.readSet tx.derived.grams (gramPrefix field gram)

/-- `set`: a whole set. -/
def set (tx : KvTxn) (kind : UInt8) (field : Option String) : Finset UInt32 :=
  Derived.readSet tx.derived.sets (setPrefix kind field)

/-- The loop of `text_candidates`: the candidates holding each trigram, until none is left. -/
def narrow (tx : KvTxn) (field : String) :
    Option (Finset UInt32) → List Bytes → Option (Finset UInt32)
  | candidates, [] => candidates
  | candidates, gram :: grams =>
      let ids := gramSet tx field gram
      let narrowed := match candidates with
        | none => ids
        | some candidates => candidates ∩ ids
      if narrowed = ∅ then some narrowed else narrow tx field (some narrowed) grams

/-- `text_candidates`: the ids whose text may hold the literals, unless they hold no trigram. -/
def textCandidates (tx : KvTxn) (field : String) (literals : List String)
    (restrict : Option (Finset UInt32)) : Option (Finset UInt32) :=
  let grams := (literals.flatMap trigrams).dedup
  if grams = [] then none
  else
    let candidates := (narrow tx field restrict grams).getD ∅
    let long := set tx longTextsKind (some field)
    let long := match restrict with
      | some within => long ∩ within
      | none => long
    some (candidates ∪ long)

/-- The text a value shows to a pattern: a string, or the name of a position. -/
def shownText : Value → Option String
  | .string text => some text
  | .treeRef _ name => some name.display
  | .hierarchyRef _ name => some name.display
  | _ => none

theorem searchText_eq (value : Value) :
    searchText value = (shownText value).map Externals.toLowercase := by
  cases value <;> rfl

omit [Externals] in
/-- An id that holds every trigram stays a candidate. -/
theorem mem_narrow {tx : KvTxn} {field : String} {id : UInt32} {grams : List Bytes}
    {candidates : Option (Finset UInt32)} (held : ∀ gram ∈ grams, id ∈ gramSet tx field gram)
    (inside : ∀ ids ∈ candidates, id ∈ ids) (some_gram : grams ≠ []) :
    ∃ ids, narrow tx field candidates grams = some ids ∧ id ∈ ids := by
  induction grams generalizing candidates with
  | nil => exact absurd rfl some_gram
  | cons gram grams ih =>
      have here := held gram List.mem_cons_self
      unfold narrow
      dsimp only
      have kept : id ∈ (match candidates with
          | none => gramSet tx field gram
          | some candidates => candidates ∩ gramSet tx field gram) := by
        cases candidates with
        | none => exact here
        | some candidates => exact Finset.mem_inter.mpr ⟨inside candidates rfl, here⟩
      rw [if_neg (Finset.ne_empty_of_mem kept)]
      by_cases last : grams = []
      · subst last
        exact ⟨_, rfl, kept⟩
      · refine ih (fun gram member => held gram (List.mem_cons_of_mem _ member)) ?_ last
        rintro ids same
        rw [Option.mem_some_iff] at same
        exact same ▸ kept

/-- An id with a text that holds the literals in lower case is a candidate. -/
theorem mem_textCandidates {tx : KvTxn} (derives : tx.derived.Derives tx.primary) {field : String}
    {uuid : Uuid} {id : UInt32} {row : FieldRow} {text : String}
    (named : tx.derived.id uuid = some id) (holds : tx.primary.Holds uuid row)
    (row_named : row.name = field) (shown : shownText row.value = some text)
    {literals : List String}
    (inside : ∀ literal ∈ literals, literal.toList <:+: (Externals.toLowercase text).toList)
    {restrict : Option (Finset UInt32)} (within : ∀ ids ∈ restrict, id ∈ ids)
    {candidates : Finset UInt32}
    (read : textCandidates tx field literals restrict = some candidates) :
    id ∈ candidates := by
  have searched : searchText row.value = some (Externals.toLowercase text) := by
    rw [searchText_eq, shown, Option.map_some]
  unfold textCandidates at read
  dsimp only at read
  split at read
  next => cases read
  next some_gram =>
    rw [Option.some.injEq] at read
    subst read
    cases split : isSplit (Externals.toLowercase text) with
    | true =>
        refine Finset.mem_union_left _ ?_
        have held : ∀ gram ∈ (literals.flatMap trigrams).dedup, id ∈ gramSet tx field gram := by
          intro gram member
          obtain ⟨literal, listed, in_literal⟩ := List.mem_flatMap.mp (List.mem_dedup.mp member)
          exact derives.mem_gram.mpr ⟨uuid, named, row, _, holds, row_named, searched, split,
            trigrams_subset_of_inside (inside literal listed) in_literal⟩
        obtain ⟨ids, narrowed, member⟩ := mem_narrow held within some_gram
        rw [narrowed]
        exact member
    | false =>
        refine Finset.mem_union_right _ ?_
        have long : id ∈ set tx longTextsKind (some field) :=
          (@Derived.Derives.mem_set _ _ _ derives (.ofField .longTexts field) _ trivial).mpr
            ⟨uuid, named, row, holds, row_named, _, searched, split⟩
        cases restrict with
        | none => exact long
        | some ids => exact Finset.mem_inter.mpr ⟨long, within ids rfl⟩

end KvSource

/-! ### Patterns -/

/-- A text a pattern matches begins and ends as the pattern's anchors say.  When no literal of the
pattern is built from a capital sigma, the lower case of the text holds all it requires, and no
metarecord with the text is left out of the candidates. -/
theorem patterns_narrow [Externals] [Letters]
    (lowers : ∀ text, Externals.toLowercase text = lowercased text) {hir : Hir} {text : String}
    (found : hir.IsMatch text) :
    (∀ start ∈ anchoredPrefix (some hir), start.toList <+: text.toList) ∧
      (∀ ending ∈ anchoredSuffix (some hir), ending.toList <:+ text.toList) ∧
      (hir.Plain →
        (∀ literal ∈ requiredLiterals (some hir), literal.toList <:+: (lowercased text).toList) ∧
        ∀ {store : KvStore}, Reachable (fun _ => True) store → ∀ {uuid id row},
          store.tx.derived.id uuid = some id → store.tx.primary.Holds uuid row →
            KvSource.shownText row.value = some text → ∀ {restrict : Option (Finset UInt32)},
              (∀ ids ∈ restrict, id ∈ ids) → ∀ {candidates},
                KvSource.textCandidates store.tx row.name (requiredLiterals (some hir)) restrict =
                    some candidates → id ∈ candidates) := by
  refine ⟨fun start anchored => anchoredPrefix_sound anchored found,
    fun ending anchored => anchoredSuffix_sound anchored found, fun plain => ?_⟩
  have inside : ∀ literal ∈ requiredLiterals (some hir),
      literal.toList <:+: (lowercased text).toList := by
    intro literal required
    rw [lowercased, String.toList_ofList]
    exact requiredLiterals_sound plain found required
  refine ⟨inside, fun reached _ _ _ named holds shown _ within _ read => ?_⟩
  refine KvSource.mem_textCandidates reached.sound.derives named holds rfl shown ?_ within read
  intro literal required
  rw [lowers]
  exact inside literal required

/-- Whether a letter is a capital of ASCII, or a Greek one. -/
def isCapital (letter : Char) : Bool :=
  (65 ≤ letter.toNat && letter.toNat ≤ 90) || (0x391 ≤ letter.toNat && letter.toNat ≤ 0x3A9)

/-- Whether a letter is one of ASCII, or a Greek one. -/
def isLetter (letter : Char) : Bool :=
  letter.isAlpha || (0x391 ≤ letter.toNat && letter.toNat ≤ 0x3C9)

/-- The tables, for runs on fixed inputs: they are right on the letters of ASCII and the Greek ones
without accents, and on no others. -/
abbrev greekLetters : Letters where
  lower letter := if isCapital letter then [Char.ofNat (letter.toNat + 32)] else [letter]
  cased := isLetter
  caseIgnorable _ := false
  word letter := isLetter letter || letter.isDigit || letter = '_'
  lower_lower {letter lowered} lower_eq := by
    by_cases capital : isCapital letter
    · rw [if_pos capital, List.cons.injEq] at lower_eq
      have valid : (letter.toNat + 32).isValidChar := by
        simp only [isCapital, Bool.or_eq_true, Bool.and_eq_true, decide_eq_true_eq] at capital
        exact .inl (by omega)
      have lowered_eq : lowered.toNat = letter.toNat + 32 := by
        rw [← lower_eq.1, Char.ofNat, dif_pos valid]
        rfl
      refine if_neg fun again => ?_
      simp only [isCapital, Bool.or_eq_true, Bool.and_eq_true, decide_eq_true_eq] at capital again
      omega
    · rw [if_neg capital, List.cons.injEq] at lower_eq
      rw [← lower_eq.1]
      exact if_neg capital

/-- The external functions, for the same runs. -/
abbrev greekExternals : Externals :=
  { plainExternals with toLowercase := @lowercased greekLetters }

/-- `^abc`. -/
def samplePattern : Hir := .concat [.look .start, .literal "abc".asBytes]

theorem samplePattern_found : letI : Letters := greekLetters; samplePattern.IsMatch "abcd" := by
  let _ : Letters := greekLetters
  refine ⟨[], ['a', 'b', 'c'], ['d'], by decide, [], ['a', 'b', 'c'], rfl, ⟨rfl, rfl⟩,
    ['a', 'b', 'c'], [], rfl, ?_, rfl⟩
  exact congrArg String.asBytes (by decide)

/-- A write of one text. -/
def sampleNote : Transaction where
  context := .new ⟨"note", none, none⟩
  retention := .unlimited
  timestamp := 7
  calls := [.createMetarecord (sampleUuids 1) [⟨"note", .string "abcd"⟩]]

theorem sampleNote_run : letI : Letters := greekLetters
    (fun store : KvStore => (store.tx.derived.id (sampleUuids 1),
      store.tx.primary.rows (sampleUuids 1),
      KvSource.textCandidates store.tx "note" ["abc"] none)) <$>
        @Transaction.run greekExternals sampleNote {} =
          .ok (some 1, [⟨1, "note", .string "abcd"⟩], some {1}) := by
  decide +kernel

theorem requiredLiterals_samplePattern : letI : Letters := greekLetters
    requiredLiterals (some samplePattern) = ["abc"] := by
  let _ : Letters := greekLetters
  simp only [requiredLiterals, samplePattern, Hir.walk, Hir.walkAll, fromUTF8?_asBytes]
  decide +kernel

theorem patterns_narrow_abcd : letI : Letters := greekLetters; letI : Externals := greekExternals
    "abc".toList <+: "abcd".toList ∧ "abc".toList <:+: (lowercased "abcd").toList ∧
      ∃ store candidates, sampleNote.run {} = .ok store ∧
        KvSource.textCandidates store.tx "note" (requiredLiterals (some samplePattern)) none =
          some candidates ∧ 1 ∈ candidates := by
  let _ : Letters := greekLetters
  let _ : Externals := greekExternals
  obtain ⟨store, ran, read⟩ := Except.map_eq_ok.mp sampleNote_run
  simp only [Prod.mk.injEq] at read
  obtain ⟨named, rows, candidates⟩ := read
  have reached : Reachable (fun _ => True) store := .commit sampleNote .new trivial ran
  obtain ⟨steps, history, -⟩ := reached.history
  have holds : store.tx.primary.Holds (sampleUuids 1) ⟨1, "note", .string "abcd"⟩ :=
    history.consistent.mem_rows.mp (by simp [rows])
  have plain : samplePattern.Plain := by
    refine ⟨trivial, fun text decoded => ?_, trivial⟩
    rw [fromUTF8?_asBytes, Option.some.injEq] at decoded
    rw [← decoded]
    decide
  obtain ⟨starts, -, narrowed⟩ := patterns_narrow (fun _ => rfl) samplePattern_found
  obtain ⟨holds_literals, kept⟩ := narrowed plain
  have anchored : anchoredPrefix (some samplePattern) = some "abc" := by
    simp [anchoredPrefix, samplePattern, Hir.isLook, literalPrefix, fromUTF8?_asBytes]
  refine ⟨starts _ anchored, holds_literals _ (by rw [requiredLiterals_samplePattern]; simp),
    store, {1}, ran, ?_, ?_⟩
  · rw [requiredLiterals_samplePattern]
    exact candidates
  · have unrestricted : ∀ ids ∈ (none : Option (Finset UInt32)), (1 : UInt32) ∈ ids := by simp
    refine kept reached named holds rfl unrestricted ?_
    rw [requiredLiterals_samplePattern]
    exact candidates

/-- `^ABC$`. -/
def capitalPattern : Hir := .concat [.look .start, .literal "ABC".asBytes, .look .end_]

/-- `ΑΣ`. -/
def sigmaPattern : Hir := .literal "ΑΣ".asBytes

theorem capitalPattern_found : letI : Letters := greekLetters; capitalPattern.IsMatch "ABC" := by
  let _ : Letters := greekLetters
  refine ⟨[], ['A', 'B', 'C'], [], by decide, [], ['A', 'B', 'C'], rfl, ⟨rfl, rfl⟩,
    ['A', 'B', 'C'], [], rfl, ?_, [], [], rfl, ⟨rfl, rfl⟩, rfl⟩
  exact congrArg String.asBytes (by decide)

theorem sigmaPattern_found : letI : Letters := greekLetters; sigmaPattern.IsMatch "ΑΣΑ" := by
  let _ : Letters := greekLetters
  refine ⟨[], ['Α', 'Σ'], ['Α'], by decide, ?_⟩
  exact congrArg String.asBytes (by decide)

/-- The lower case of a text need not begin and end as its pattern does, and a capital sigma that
ends a literal need not end a word of the text. -/
theorem lowercase_loses_matches : letI : Letters := greekLetters
    (¬∀ (hir : Hir) (text : String), hir.IsMatch text → ∀ start ∈ anchoredPrefix (some hir),
        start.toList <+: (lowercased text).toList) ∧
      (¬∀ (hir : Hir) (text : String), hir.IsMatch text → ∀ ending ∈ anchoredSuffix (some hir),
        ending.toList <:+ (lowercased text).toList) ∧
      ¬∀ (hir : Hir) (text : String), hir.IsMatch text →
        ∀ literal ∈ requiredLiterals (some hir), literal.toList <:+: (lowercased text).toList := by
  let _ : Letters := greekLetters
  have capital_prefix : anchoredPrefix (some capitalPattern) = some "ABC" := by
    simp [anchoredPrefix, capitalPattern, Hir.isLook, literalPrefix, fromUTF8?_asBytes]
  have capital_suffix : anchoredSuffix (some capitalPattern) = some "ABC" := by
    simp [anchoredSuffix, capitalPattern, Hir.isLook, literalSuffix, fromUTF8?_asBytes]
  have sigma_literals : requiredLiterals (some sigmaPattern) = ["ας"] := by
    simp only [requiredLiterals, sigmaPattern, Hir.walk, fromUTF8?_asBytes]
    decide +kernel
  refine ⟨fun holds => ?_, fun holds => ?_, fun holds => ?_⟩
  · have wrong := holds _ _ capitalPattern_found _ capital_prefix
    revert wrong
    decide +kernel
  · have wrong := holds _ _ capitalPattern_found _ capital_suffix
    revert wrong
    decide +kernel
  · have wrong := holds _ _ sigmaPattern_found "ας" (by rw [sigma_literals]; simp)
    revert wrong
    decide +kernel

end Metafolder
