import Metafolder.KeybindingsLoaded

/-!
# Spellings of one combo

Rewriting the keys of a file to other spellings of the same combos: what it can change, and what it
cannot.
-/

namespace List

variable {α β : Type}

theorem mapM_option_perm (read : α → Option β) {first second : List α} (same : first.Perm second) :
    (first.mapM read = none ∧ second.mapM read = none) ∨
      ∃ left right, first.mapM read = some left ∧ second.mapM read = some right ∧
        left.Perm right := by
  induction same with
  | nil => exact .inr ⟨[], [], rfl, rfl, .nil⟩
  | @cons head front back _ ih =>
      rw [mapM_cons, mapM_cons]
      cases read head with
      | none => exact .inl ⟨rfl, rfl⟩
      | some value =>
          obtain ⟨left, right⟩ | ⟨left, right, inLeft, inRight, perm⟩ := ih
          · exact .inl ⟨by rw [left]; rfl, by rw [right]; rfl⟩
          · exact .inr ⟨value :: left, value :: right, by rw [inLeft]; rfl, by rw [inRight]; rfl,
              perm.cons value⟩
  | swap head next tail =>
      simp only [mapM_cons]
      cases read head <;> cases read next <;> cases tail.mapM read <;>
        first
          | exact .inl ⟨rfl, rfl⟩
          | exact .inr ⟨_, _, rfl, rfl, .swap _ _ _⟩
  | trans _ _ ihFirst ihSecond =>
      obtain ⟨left, middle⟩ | ⟨left, middle, inLeft, inMiddle, perm⟩ := ihFirst
      · obtain ⟨-, right⟩ | ⟨_, right, other, -, -⟩ := ihSecond
        · exact .inl ⟨left, right⟩
        · rw [middle] at other
          exact nomatch other
      · obtain ⟨none, -⟩ | ⟨again, right, other, inRight, perm'⟩ := ihSecond
        · rw [inMiddle] at none
          exact nomatch none
        · cases inMiddle.symm.trans other
          exact .inr ⟨left, right, inLeft, inRight, perm.trans perm'⟩

theorem eq_of_countP_le_one {p : α → Bool} {items : List α} {first second : α}
    (single : items.countP p ≤ 1) (inFirst : first ∈ items) (inSecond : second ∈ items)
    (holdsFirst : p first) (holdsSecond : p second) : first = second := by
  rw [countP_eq_length_filter] at single
  have left : first ∈ items.filter p := mem_filter.mpr ⟨inFirst, holdsFirst⟩
  have right : second ∈ items.filter p := mem_filter.mpr ⟨inSecond, holdsSecond⟩
  generalize items.filter p = found at single left right
  cases found with
  | nil => cases left
  | cons head tail =>
      obtain rfl : tail = [] := eq_nil_of_length_eq_zero (by simpa using single)
      rw [mem_singleton.mp left, mem_singleton.mp right]

theorem mapM_option_congr {read : α → Option β} {first second : List α}
    (same : Forall₂ (fun a b => read a = read b) first second) :
    first.mapM read = second.mapM read := by
  induction same with
  | nil => rfl
  | cons here _ ih => rw [mapM_cons, mapM_cons, here, ih]

theorem mapM_option_map {γ δ : Type} {read : α → Option β} {other : α → Option γ} {change : β → δ}
    {changed : γ → δ} (items : List α)
    (same : ∀ item ∈ items, (read item).map change = (other item).map changed) :
    (items.mapM read).map (map change) = (items.mapM other).map (map changed) := by
  induction items with
  | nil => rfl
  | cons head tail ih =>
      have first := same head (by simp)
      have rest := ih fun item member => same item (by simp [member])
      rw [mapM_cons, mapM_cons]
      cases left : read head <;> cases right : other head <;> rw [left, right] at first
      · rfl
      · exact nomatch first
      · exact nomatch first
      · cases inLeft : tail.mapM read <;> cases inRight : tail.mapM other <;>
          rw [inLeft, inRight] at rest
        · rfl
        · exact nomatch rest
        · exact nomatch rest
        · simp only [Option.map_some, Option.some.injEq] at first rest
          simp [first, rest]

end List

namespace Metafolder
namespace Keybindings

section Spelled

variable [Externals]

/-! ### Chords -/

/-- A piece of a chord as it is compared. -/
def pieceName (piece : List Char) : String := Externals.toLowercase (String.ofList (trim piece))

/-- The pieces of a chord, which `+` separates. -/
def chordNames (chord : List Char) : List String := (splitOn '+' chord).map pieceName

/-- The chords have the same pieces, in any order and in any case. -/
def SameChord (first second : List Char) : Prop := (chordNames first).Perm (chordNames second)

/-- The pieces that are the key of a chord. -/
def keyNames (names : List String) : List String := names.filter (· ∉ modifiers)

theorem readPieces_toOption (chord : String) (pieces : List (List Char)) (present : List String)
    (key : Option String) :
    (pieces.foldlM (readPiece chord) (present, key)).toOption =
      if "" ∈ pieces.map pieceName ∨
          1 < key.toList.length + (keyNames (pieces.map pieceName)).length then none
      else some (((pieces.map pieceName).filter (· ∈ modifiers)).reverse ++ present,
        (key.toList ++ keyNames (pieces.map pieceName)).head?) := by
  induction pieces generalizing present key with
  | nil => cases key <;> simp [keyNames] <;> rfl
  | cons piece pieces ih =>
      rw [List.foldlM_cons, Except.toOption_bind, List.map_cons]
      by_cases empty : pieceName piece = ""
      · have step : readPiece chord (present, key) piece =
            .error s!"malformed key combo: '{chord}'" := if_pos empty
        rw [step, if_pos (.inl (by simp [empty]))]
        rfl
      by_cases modifier : pieceName piece ∈ modifiers
      · have step : readPiece chord (present, key) piece =
            .ok (pieceName piece :: present, key) := (if_neg empty).trans (if_pos modifier)
        have keys : keyNames (pieceName piece :: pieces.map pieceName) =
            keyNames (pieces.map pieceName) := List.filter_cons_of_neg (by simpa using modifier)
        rw [step]
        refine (ih (pieceName piece :: present) key).trans ?_
        simp [keys, modifier, Ne.symm empty]
      · have keys : keyNames (pieceName piece :: pieces.map pieceName) =
            pieceName piece :: keyNames (pieces.map pieceName) :=
          List.filter_cons_of_pos (by simpa using modifier)
        cases key with
        | some key =>
            have step : readPiece chord (present, some key) piece =
                .error s!"multiple keys in combo: '{chord}'" :=
              (if_neg empty).trans ((if_neg modifier).trans (if_pos rfl))
            rw [step, keys, if_pos]
            · rfl
            · right
              simp
        | none =>
            have step : readPiece chord (present, none) piece = .ok (present, some (pieceName piece)) :=
              (if_neg empty).trans ((if_neg modifier).trans (if_neg (by simp)))
            rw [step]
            refine (ih present (some (pieceName piece))).trans ?_
            simp [keys, modifier, Ne.symm empty, Nat.add_comm]

/-- A chord as it is written back. -/
def spellChord (names : List String) : Option String :=
  if "" ∈ names ∨ (keyNames names).length ≠ 1 then none
  else (keyNames names).head?.map fun key =>
    String.join ((modifiers.filter (· ∈ names)).map (· ++ "+")) ++ key

theorem normalizeChord_toOption (chord : String) :
    (normalizeChord chord).toOption = spellChord (chordNames chord.toList) := by
  unfold normalizeChord spellChord
  rw [Except.toOption_bind, readPieces_toOption]
  simp only [Option.toList_none, List.length_nil, Nat.zero_add, List.nil_append, List.append_nil]
  change (if "" ∈ chordNames chord.toList ∨ 1 < (keyNames (chordNames chord.toList)).length
    then none else some (((chordNames chord.toList).filter (· ∈ modifiers)).reverse,
      (keyNames (chordNames chord.toList)).head?)).bind _ = _
  generalize chordNames chord.toList = names
  by_cases empty : "" ∈ names
  · rw [if_pos (.inl empty), if_pos (.inl empty)]
    rfl
  cases keys : keyNames names with
  | nil =>
      rw [if_neg (by simpa using empty), if_pos (.inr (by simp))]
      rfl
  | cons key others =>
      cases others with
      | cons next others =>
          rw [if_pos (.inr (by simp)), if_pos (.inr (by simp))]
          rfl
      | nil =>
          rw [if_neg (by simpa using empty), if_neg (by simpa using empty)]
          have shared : (modifiers.filter fun modifier =>
              decide (modifier ∈ (names.filter (· ∈ modifiers)).reverse)) =
              modifiers.filter fun modifier => decide (modifier ∈ names) := by
            refine List.filter_congr fun modifier member => ?_
            simp [member]
          simp only [Option.bind_some, List.head?_cons, Option.map_some, ← shared]
          rfl

/-- The spellings of one chord are all written back alike. -/
theorem normalizeChord_respelled {first second : List Char} (same : SameChord first second) :
    (normalizeChord (String.ofList first)).toOption =
      (normalizeChord (String.ofList second)).toOption := by
  rw [normalizeChord_toOption, normalizeChord_toOption, String.toList_ofList, String.toList_ofList]
  have keys : (keyNames (chordNames first)).Perm (keyNames (chordNames second)) := same.filter _
  unfold spellChord
  simp only [same.mem_iff, keys.length_eq]
  split
  · rfl
  · rename_i single
    have short : (keyNames (chordNames second)).length = 1 := by
      by_contra other
      exact single (.inr other)
    obtain ⟨key, only⟩ := List.length_eq_one_iff.mp short
    rw [only] at keys
    rw [only, List.perm_singleton.mp keys]

/-! ### Keys of the file -/

/-- What the keys of a line are, with its variables expanded. -/
def combos (vars : Vars) (key : String) : Option (List (List String)) :=
  (substitute key vars).toOption.bind fun keys => keys.mapM fun key => (parseCombo key).toOption

/-- The keys are spellings of the same combos. -/
structure SameCombo (vars : Vars) (first second : String) : Prop where
  /-- Both name variables, or neither does. -/
  kind : hasVariables second = hasVariables first
  /-- They expand to the same combos. -/
  combos : combos vars second = combos vars first

omit [Externals] in
theorem substitute_literal {key : String} (literal : hasVariables key = false) (vars : Vars) :
    substitute key vars = .ok [key] := by
  have none : referenced key = [] := by simpa [hasVariables] using literal
  rw [substitute, none]
  rfl

theorem normalizeChords_respelled {first second : List (List Char)}
    (chords : List.Forall₂ SameChord first second) :
    (first.mapM fun part => (normalizeChord (String.ofList part)).toOption) =
      second.mapM fun part => (normalizeChord (String.ofList part)).toOption :=
  List.mapM_option_congr (chords.imp fun _ _ same => normalizeChord_respelled same)

/-- Chords spelled otherwise, one by one, are the same combo. -/
theorem sameCombo_of_chords {first second : String}
    (chords : List.Forall₂ SameChord (splitWhitespace [] first.toList)
      (splitWhitespace [] second.toList))
    (plain : hasVariables first = false) (other : hasVariables second = false) (vars : Vars) :
    SameCombo vars first second := by
  refine ⟨other.trans plain.symm, ?_⟩
  have parsed : (parseCombo first).toOption = (parseCombo second).toOption := by
    unfold parseCombo
    simp only [Except.toOption_bind, Except.toOption_mapM, normalizeChords_respelled chords]
  have single (key : String) (literal : hasVariables key = false) :
      combos vars key = (parseCombo key).toOption.map fun keys => [keys] := by
    rw [combos, substitute_literal literal]
    change [key].mapM (fun key => (parseCombo key).toOption) = _
    rw [List.mapM_cons]
    cases (parseCombo key).toOption <;> rfl
  rw [single first plain, single second other, parsed]

omit [Externals] in
theorem sameCombo_shifted : letI : Externals := plainExternals
    SameCombo [] "shift+ctrl+k" "Ctrl+Shift+K" :=
  let _ : Externals := plainExternals
  have names : chordNames "shift+ctrl+k".toList = ["shift", "ctrl", "k"] ∧
      chordNames "Ctrl+Shift+K".toList = ["ctrl", "shift", "k"] := by
    decide +kernel
  have chord : SameChord "shift+ctrl+k".toList "Ctrl+Shift+K".toList := by
    rw [SameChord, names.1, names.2]
    exact .swap ..
  @sameCombo_of_chords _ "shift+ctrl+k" "Ctrl+Shift+K" (.cons chord .nil) rfl rfl []

/-! ### Files -/

/-- A file whose keys are spelled otherwise, line by line. -/
def Respelled (file other : File) : Prop :=
  other.vars = file.vars ∧ ∀ vars, readVars file.vars = .ok vars →
    List.Forall₂ (fun line spelled => spelled.2 = line.2 ∧ SameCombo vars line.1 spelled.1)
      file.lines other.lines

/-- The bindings of a line, whatever its key. -/
def lineBindings (vars : Vars) (line : String × Toml) : Option (List Binding) :=
  (lineEntries vars line).map (·.map Entry.binding)

theorem expand_binding (combo : String) (spec : BindingSpec) (vars : Vars) :
    (expand combo spec vars).toOption.map (·.map Entry.binding) =
      if "\x7btarget\x7d".toList <:+: spec.command.toList then none
      else (combos vars combo).map fun found =>
        found.map fun keys => ⟨keys, spec, hasVariables combo⟩ := by
  unfold expand
  split
  · rfl
  · rw [Except.toOption_bind, combos]
    cases (substitute combo vars).toOption with
    | none => rfl
    | some keys =>
        rw [Option.bind_some, Option.bind_some, Except.toOption_mapM]
        refine List.mapM_option_map keys fun key _ => ?_
        cases parseCombo key with
        | error failure => rfl
        | ok parsed => cases kind : hasVariables combo <;> rfl

/-- A line binds the same however its key is spelled. -/
theorem lineBindings_respelled {vars : Vars} {line spelled : String × Toml}
    (value : spelled.2 = line.2) (same : SameCombo vars line.1 spelled.1) :
    lineBindings vars spelled = lineBindings vars line := by
  unfold lineBindings lineEntries
  rw [value]
  cases specsOf line.2 with
  | none => rfl
  | some specs =>
      have flat (found : Option (List (List Entry))) :
          (found.map List.flatten).map (·.map Entry.binding) =
            (found.map (·.map (·.map Entry.binding))).map List.flatten := by
        cases found <;> simp [List.map_flatten]
      change Option.map _
          ((specs.mapM fun spec => (expand spelled.1 spec vars).toOption).map List.flatten) =
        Option.map _ ((specs.mapM fun spec => (expand line.1 spec vars).toOption).map List.flatten)
      rw [flat, flat]
      congr 1
      refine List.mapM_option_map specs fun spec _ => ?_
      rw [expand_binding, expand_binding, same.kind, same.combos]

theorem bindings_eq (file : File) :
    file.bindings = (readVars file.vars).toOption.bind fun vars =>
      (file.table.mapM (lineBindings vars)).map List.flatten := by
  unfold File.bindings File.entries
  cases (readVars file.vars).toOption with
  | none => rfl
  | some vars =>
      change Option.map _ ((file.table.mapM (lineEntries vars)).map List.flatten) =
        (file.table.mapM (lineBindings vars)).map List.flatten
      have each : (file.table.mapM (lineEntries vars)).map (List.map (·.map Entry.binding)) =
          (file.table.mapM (lineBindings vars)).map (List.map id) :=
        List.mapM_option_map file.table fun line _ => by simp [lineBindings]
      rw [List.map_id_fun, Option.map_id_fun, id_eq] at each
      rw [← each]
      cases file.table.mapM (lineEntries vars) <;> simp [List.map_flatten]

/-- Files that differ in the spelling of their keys bind the same, in some order. -/
theorem bindings_respelled {file other : File} (respelled : Respelled file other) :
    (file.bindings = none ∧ other.bindings = none) ∨
      ∃ here there, file.bindings = some here ∧ other.bindings = some there ∧ here.Perm there := by
  obtain ⟨vars, lines⟩ := respelled
  rw [bindings_eq, bindings_eq, vars]
  cases read : readVars file.vars with
  | error failure => exact .inl ⟨rfl, rfl⟩
  | ok vars =>
      have spelled : file.lines.mapM (lineBindings vars) = other.lines.mapM (lineBindings vars) :=
        List.mapM_option_congr ((lines vars read).imp fun _ _ same =>
          (lineBindings_respelled same.1 same.2).symm)
      change ((file.table.mapM (lineBindings vars)).map List.flatten = none ∧
          (other.table.mapM (lineBindings vars)).map List.flatten = none) ∨
        ∃ here there, (file.table.mapM (lineBindings vars)).map List.flatten = some here ∧
          (other.table.mapM (lineBindings vars)).map List.flatten = some there ∧ here.Perm there
      have first := List.mapM_option_perm (lineBindings vars)
        (List.perm_insertionSort (fun a b : String × Toml => a.1 ≤ b.1) file.lines)
      have second := List.mapM_option_perm (lineBindings vars)
        (List.perm_insertionSort (fun a b : String × Toml => a.1 ≤ b.1) other.lines)
      rw [spelled] at first
      obtain ⟨here, lost⟩ | ⟨here, middle, inHere, inMiddle, perm⟩ := first
      · obtain ⟨there, -⟩ | ⟨_, _, _, found, -⟩ := second
        · exact .inl ⟨by rw [File.table, here]; rfl, by rw [File.table, there]; rfl⟩
        · rw [lost] at found
          exact nomatch found
      · obtain ⟨-, lost⟩ | ⟨there, again, inThere, inAgain, perm'⟩ := second
        · rw [inMiddle] at lost
          exact nomatch lost
        · cases inMiddle.symm.trans inAgain
          exact .inr ⟨here.flatten, there.flatten, by rw [File.table, inHere]; rfl,
            by rw [File.table, inThere]; rfl, (perm.trans perm'.symm).flatten⟩

/-! ### What the spelling decides -/

/-- The place a row of the table is for. -/
def CompiledBinding.place (row : CompiledBinding) : BindingKey :=
  (row.keys, row.when, row.focusScope, fieldSide row.textInput row.focusScope)

/-- The file loads, and the literal bindings are the rows of their places. -/
def File.LiteralsOverride (file : File) : Prop :=
  ∃ table, file.load = some table ∧ ∀ bindings, file.bindings = some bindings →
    ∀ literal ∈ bindings, literal.derived = false →
      literal.compiled ∈ table ∧ ∀ row ∈ table, row.place = literal.place → row = literal.compiled

omit [Externals] in
/-- Where no place is bound twice, one binding a place is in effect. -/
theorem eq_of_inEffect {bindings : List Binding} (once : ¬Twice bindings) {first second : Binding}
    (inFirst : first ∈ inEffect bindings) (inSecond : second ∈ inEffect bindings)
    (same : second.place = first.place) : second = first := by
  obtain ⟨memFirst, winsFirst⟩ := List.mem_filter.mp inFirst
  obtain ⟨memSecond, winsSecond⟩ := List.mem_filter.mp inSecond
  simp only [wins, Bool.or_eq_true, Bool.not_eq_true', decide_eq_true_eq] at winsFirst winsSecond
  rw [same] at winsSecond
  have single : literals first.place bindings ≤ 1 ∧
      (literals first.place bindings = 0 → deriveds first.place bindings ≤ 1) := by
    constructor
    · by_contra many
      exact once ⟨first.place, .inl (by omega)⟩
    · intro none
      by_contra many
      exact once ⟨first.place, .inr ⟨none, by omega⟩⟩
  cases kind : first.derived with
  | false =>
      have positive := literals_pos_of_mem memFirst kind
      have plain : second.derived = false := winsSecond.resolve_right (by omega)
      exact List.eq_of_countP_le_one single.1 memSecond memFirst (by simp [same, plain])
        (by simp [kind])
  | true =>
      have none : literals first.place bindings = 0 := winsFirst.resolve_left (by simp [kind])
      have derived : second.derived = true := by
        by_contra plain
        have positive := literals_pos_of_mem memSecond (by simpa using plain)
        rw [same] at positive
        omega
      exact List.eq_of_countP_le_one (single.2 none) memSecond memFirst (by simp [same, derived])
        (by simp [kind])

omit [Externals] in
theorem tableOf_perm {first second : List Binding} (same : first.Perm second)
    (once : ¬Twice first) : tableOf first = tableOf second := by
  refine sortRows_perm ((inEffect_perm same).map _) fun a left b right row => ?_
  obtain ⟨one, inOne, rfl⟩ := List.mem_map.mp left
  obtain ⟨two, inTwo, rfl⟩ := List.mem_map.mp right
  rw [eq_of_inEffect once inOne inTwo (place_of_row row).symm]

theorem load_eq_some_of {file : File} {bindings : List Binding}
    (found : file.bindings = some bindings) (sound : ¬file.Flawed) (spaced : ¬file.Crowded) :
    file.load = some (tableOf bindings) := by
  have flaws : ¬(Twice bindings ∨ Hidden bindings) := by
    intro flaw
    refine sound fun others same => ?_
    cases found.symm.trans same
    exact flaw
  rw [not_or] at flaws
  exact load_eq_some_iff.mpr ⟨bindings, found, flaws.1,
    fun crowded => spaced ⟨bindings, found, crowded⟩, flaws.2, rfl⟩

theorem load_eq_none_of {file : File} (flawed : file.Flawed ∨ file.Crowded) : file.load = none := by
  cases loaded : file.load with
  | none => rfl
  | some table =>
      obtain ⟨bindings, found, once, spaced, clear, -⟩ := load_eq_some_iff.mp loaded
      cases flawed with
      | inl flawed => exact absurd (flawed bindings found) (not_or.mpr ⟨once, clear⟩)
      | inr crowded =>
          obtain ⟨others, same, crowd⟩ := crowded
          cases found.symm.trans same
          exact absurd crowd spaced

/-- Where nothing else refuses a file, its literal bindings override those of its variables if and
only if none comes after two of them. -/
theorem literalsOverride_iff {file : File} (sound : ¬file.Flawed) :
    file.LiteralsOverride ↔ ¬file.Crowded := by
  constructor
  · rintro ⟨table, loaded, -⟩ crowded
    rw [load_eq_none_of (.inr crowded)] at loaded
    exact nomatch loaded
  · intro spaced
    cases found : file.bindings with
    | none => exact absurd (fun bindings same => by rw [found] at same; exact nomatch same) sound
    | some bindings =>
        have loaded := load_eq_some_of found sound spaced
        obtain ⟨_, same, once, -⟩ := load_eq_some_iff.mp loaded
        cases found.symm.trans same
        refine ⟨tableOf bindings, loaded, fun others same literal member plain => ?_⟩
        cases found.symm.trans same
        have winning : literal ∈ inEffect bindings :=
          List.mem_filter.mpr ⟨member, by simp [wins, plain]⟩
        refine ⟨(List.mem_insertionSort _).mpr (List.mem_map_of_mem winning),
          fun row inside here => ?_⟩
        obtain ⟨binding, effect, rfl⟩ := List.mem_map.mp ((List.mem_insertionSort _).mp inside)
        rw [eq_of_inEffect once winning effect here]

/-- Other spellings of its keys leave a file's outcome the same, as long as it is refused anyway or
neither spelling puts a literal line after two whose variables bind its place; and a literal line
overrides the bindings of variables in its place unless it comes after two of them. -/
theorem respelled_outcome {file other : File} (respelled : Respelled file other) :
    (file.load = other.load ↔ file.Flawed ∨ (file.Crowded ↔ other.Crowded)) ∧
      (¬file.Flawed → (file.LiteralsOverride ↔ ¬file.Crowded)) := by
  refine ⟨?_, literalsOverride_iff⟩
  obtain ⟨unread, unreadThere⟩ | ⟨here, there, found, foundThere, perm⟩ :=
    bindings_respelled respelled
  · have flawed : file.Flawed := fun bindings same => by rw [unread] at same; exact nomatch same
    have flawedThere : other.Flawed := fun bindings same => by
      rw [unreadThere] at same
      exact nomatch same
    simp only [load_eq_none_of (.inl flawed), load_eq_none_of (.inl flawedThere), flawed, true_or]
  have sameFlaws : file.Flawed ↔ other.Flawed := by
    simp only [File.Flawed, found, foundThere, Option.some.injEq, forall_eq', twice_perm perm,
      hidden_perm perm]
  have sameTable : file.Flawed ∨ tableOf here = tableOf there := by
    refine or_iff_not_imp_left.mpr fun sound => tableOf_perm perm fun twice => sound ?_
    intro bindings same
    cases found.symm.trans same
    exact .inl twice
  by_cases flawed : file.Flawed
  · simp only [load_eq_none_of (.inl flawed), load_eq_none_of (.inl (sameFlaws.mp flawed)), flawed,
      true_or]
  have sound := fun flaw => flawed (sameFlaws.mpr flaw)
  have table := sameTable.resolve_left flawed
  by_cases crowded : file.Crowded
  · by_cases crowdedThere : other.Crowded
    · simp [load_eq_none_of (.inr crowded), load_eq_none_of (.inr crowdedThere), crowded,
        crowdedThere]
    · simp [load_eq_none_of (.inr crowded), load_eq_some_of foundThere sound crowdedThere, crowded,
        crowdedThere, flawed]
  · by_cases crowdedThere : other.Crowded
    · simp [load_eq_none_of (.inr crowdedThere), load_eq_some_of found flawed crowded, crowded,
        crowdedThere, flawed]
    · simp [load_eq_some_of found flawed crowded, load_eq_some_of foundThere sound crowdedThere,
        crowded, crowdedThere, table]

end Spelled

/-- Two lines that variables put on `ctrl+shift+k`, and a literal one. -/
def crossedFile (key : String)
    (other : key ∉ ["ctrl+shift+\x7ba\x7d", "ctrl+shift+\x7bb\x7d", "vars"]) : File :=
  { vars := some (.table [("a", .string "k"), ("b", .string "k")])
    lines := [("ctrl+shift+\x7ba\x7d", .table [("command", .string "workspace:new")]),
      ("ctrl+shift+\x7bb\x7d", .table [("command", .string "workspace:close")]),
      (key, .table [("command", .string "workspace:next")])]
    distinct := by simp_all [eq_comm]
    noVars := by simp_all [eq_comm] }

/-- The literal line spelled so that it is sorted after the others. -/
def lateFile : File := crossedFile "shift+ctrl+k" (by decide)

/-- The literal line spelled so that it is sorted before the others. -/
def earlyFile : File := crossedFile "ctrl+shift+k" (by decide)

theorem lateFile_respelled : @Respelled plainExternals lateFile earlyFile := by
  let _ : Externals := plainExternals
  refine ⟨rfl, fun vars read => ?_⟩
  have known : readVars lateFile.vars = .ok [("a", ["k"]), ("b", ["k"])] := by decide +kernel
  cases known.symm.trans read
  refine .cons ⟨rfl, rfl, rfl⟩ (.cons ⟨rfl, rfl, rfl⟩ (.cons ⟨rfl, ?_⟩ .nil))
  exact ⟨by decide +kernel, by decide +kernel⟩

/-- The same file is refused under one spelling, and loads under another. -/
theorem spelling_decides :
    letI : Externals := plainExternals
    Respelled lateFile earlyFile ∧ lateFile.load = none ∧
      earlyFile.load = some
        [⟨["ctrl+shift+k"], "workspace:next", none, false, none, false⟩] :=
  ⟨lateFile_respelled, by decide +kernel, by decide +kernel⟩

theorem respelled_outcome_sample :
    letI : Externals := plainExternals
    Respelled lateFile earlyFile ∧
      (lateFile.load = earlyFile.load ↔
        lateFile.Flawed ∨ (lateFile.Crowded ↔ earlyFile.Crowded)) ∧
      (¬lateFile.Flawed → (lateFile.LiteralsOverride ↔ ¬lateFile.Crowded)) :=
  let _ : Externals := plainExternals
  ⟨lateFile_respelled, respelled_outcome lateFile_respelled⟩

end Keybindings
end Metafolder
