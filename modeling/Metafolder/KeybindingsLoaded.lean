import Metafolder.KeybindingsMerged

/-!
# The files that load

A keybindings file loads if and only if each of its lines can be read, no place is bound twice, no
key hides a sequence, and no literal line comes, in the order of the keys as they are spelled, after
two lines whose variables bind its place.  Only the last depends on how the keys are spelled.
-/

namespace Option

variable {α β γ σ : Type}

/-- Folding over lists that are each read first, all of them can be read before. -/
theorem foldlM_read (items : List α) (read : α → Option (List β)) (step : σ → β → Option σ)
    (start : σ) :
    items.foldlM (fun state item => (read item).bind fun found => found.foldlM step state) start =
      ((items.mapM read).map List.flatten).bind fun found => found.foldlM step start := by
  induction items generalizing start with
  | nil => rfl
  | cons head tail ih =>
      rw [List.foldlM_cons, List.mapM_cons]
      cases found : read head with
      | none => rfl
      | some first =>
          simp only [Option.bind_eq_bind, Option.bind_some, ih]
          cases later : tail.mapM read with
          | none =>
              simp only [Option.map_none, Option.bind_none, Option.bind_fun_none]
          | some rest =>
              simp [List.foldlM_append]

/-- A loop whose second component goes on by itself. -/
theorem foldlM_snd (items : List α) {step : σ × γ → α → Option (σ × γ)} (next : γ → α → Option γ)
    (alone : ∀ state item, (step state item).map Prod.snd = next state.2 item) (start : σ × γ) :
    (items.foldlM step start).map Prod.snd = items.foldlM next start.2 := by
  induction items generalizing start with
  | nil => rfl
  | cons head tail ih =>
      rw [List.foldlM_cons, List.foldlM_cons, ← alone]
      cases step start head with
      | none => rfl
      | some state => exact ih state

end Option

namespace Metafolder
namespace Keybindings

variable [Externals]

/-! ### What a file binds -/

/-- The bindings of one line, when it can be read. -/
def lineEntries (vars : Vars) (line : String × Toml) : Option (List Entry) := do
  let specs ← specsOf line.2
  (specs.mapM fun spec => (expand line.1 spec vars).toOption).map List.flatten

/-- The bindings of a file as the merge meets them: by key. -/
def File.entries (file : File) : Option (List Entry) := do
  let vars ← (readVars file.vars).toOption
  (file.table.mapM (lineEntries vars)).map List.flatten

/-- `File.entries`, whatever the lines they come from. -/
def File.bindings (file : File) : Option (List Binding) := file.entries.map (·.map Entry.binding)

/-- The table compiled from a file, or nothing when it is refused. -/
def File.load (file : File) : Option (List CompiledBinding) :=
  (fromSource file).toOption.map KeybindingSet.compiled

/-- The file is refused however its keys are spelled: a line cannot be read, a place is bound twice,
or a key hides a sequence. -/
def File.Flawed (file : File) : Prop :=
  ∀ bindings, file.bindings = some bindings → Twice bindings ∨ Hidden bindings

/-- A literal line comes after two whose variables bind its place. -/
def File.Crowded (file : File) : Prop :=
  ∃ bindings, file.bindings = some bindings ∧ Keybindings.Crowded bindings

/-- The merge, refusals alike. -/
def mergeOrRefuse (held : List Entry) (entry : Entry) : Option (List Entry) :=
  (merge held entry).toOption

theorem readLine_toOption (vars : Vars) (read : List (String × BindingSpec) × List Entry)
    (line : String × Toml) :
    (readLine vars read line).toOption.map Prod.snd =
      (lineEntries vars line).bind fun found => found.foldlM mergeOrRefuse read.2 := by
  unfold readLine lineEntries
  cases specsOf line.2 with
  | none => rfl
  | some specs =>
      dsimp only
      rw [Except.toOption_foldlM]
      have alone : ∀ (state : List (String × BindingSpec) × List Entry) (spec : BindingSpec),
          (do
            let entries ← (← expand line.1 spec vars).foldlM merge state.2
            Except.ok (state.1 ++ [(line.1, spec)], entries) : Except String _).toOption.map Prod.snd =
            ((expand line.1 spec vars).toOption).bind fun found =>
              found.foldlM mergeOrRefuse state.2 := by
        intro state spec
        simp only [Except.toOption_bind]
        cases (expand line.1 spec vars).toOption with
        | none => rfl
        | some found =>
            rw [Option.bind_some, Option.bind_some, Except.toOption_foldlM]
            change Option.map _ ((found.foldlM mergeOrRefuse state.2).bind _) = _
            cases found.foldlM mergeOrRefuse state.2 <;> rfl
      refine (Option.foldlM_snd specs (fun held spec =>
        ((expand line.1 spec vars).toOption).bind fun found => found.foldlM mergeOrRefuse held)
        alone read).trans ?_
      exact Option.foldlM_read specs _ mergeOrRefuse read.2

/-- What a file's lines merge to. -/
theorem lines_toOption (vars : Vars) (lines : List (String × Toml)) :
    (lines.foldlM (readLine vars) ([], [])).toOption.map Prod.snd =
      ((lines.mapM (lineEntries vars)).map List.flatten).bind fun found =>
        (found.foldlM merge []).toOption := by
  rw [Except.toOption_foldlM]
  refine (Option.foldlM_snd lines (fun held line =>
    (lineEntries vars line).bind fun found => found.foldlM mergeOrRefuse held)
    (fun read line => readLine_toOption vars read line) ([], [])).trans ?_
  rw [Option.foldlM_read]
  simp only [Except.toOption_foldlM]
  rfl

/-! ### The order of the table -/

instance : Std.TransCmp rowOrder := by
  unfold rowOrder
  infer_instance

omit [Externals] in
theorem eq_of_rowOrder {a b : BindingKey} (same : rowOrder a b = .eq) : a = b := by
  simp only [rowOrder, compareLex, compareOn, Ordering.then_eq_eq, Std.compare_eq_iff_eq] at same
  obtain ⟨keys, scope, widget, side⟩ := same
  exact Prod.ext keys (Prod.ext scope (Prod.ext widget side))

/-- A table is sorted by its rows. -/
def RowLe (first second : CompiledBinding) : Prop := (rowOrder first.row second.row).isLE

instance : DecidableRel RowLe := fun _ _ => inferInstanceAs (Decidable (_ = true))

instance : IsTrans CompiledBinding RowLe where
  trans _ _ _ := Std.TransCmp.isLE_trans

instance : Std.Total RowLe where
  total first second := by
    unfold RowLe
    have swapped : rowOrder second.row first.row = (rowOrder first.row second.row).swap :=
      Std.OrientedCmp.eq_swap
    rw [swapped]
    cases rowOrder first.row second.row <;> simp

/-- The rows of a table in their order. -/
def sortRows (rows : List CompiledBinding) : List CompiledBinding := rows.insertionSort RowLe

omit [Externals] in
/-- The order leaves no choice between rows of distinct places. -/
theorem sortRows_perm {first second : List CompiledBinding} (same : first.Perm second)
    (distinct : ∀ a ∈ first, ∀ b ∈ first, a.row = b.row → a = b) :
    sortRows first = sortRows second := by
  refine List.Perm.eq_of_pairwise ?_ (List.pairwise_insertionSort RowLe _)
    (List.pairwise_insertionSort RowLe _) ?_
  · intro a b inFirst inSecond forth back
    have left : a ∈ first := (List.mem_insertionSort _).mp inFirst
    have right : b ∈ first := same.mem_iff.mpr ((List.mem_insertionSort _).mp inSecond)
    refine distinct a left b right (eq_of_rowOrder ?_)
    exact Std.OrientedCmp.isLE_antisymm forth back
  · exact (List.perm_insertionSort _ _).trans (same.trans (List.perm_insertionSort _ _).symm)

/-! ### Loading -/

omit [Externals] in
theorem checkNoKeyHidesASequence_eq_ok {entries : List Entry} :
    checkNoKeyHidesASequence entries = .ok () ↔
      ∀ short ∈ entries, ∀ long ∈ entries, hides short long = false := by
  unfold checkNoKeyHidesASequence
  cases found : (entries.flatMap fun short => entries.map fun long => (short, long)).find?
      fun pair => hides pair.1 pair.2 with
  | none =>
      simp only [true_iff]
      intro short inside long member
      have clear := List.find?_eq_none.mp found (short, long)
        (List.mem_flatMap.mpr ⟨short, inside, List.mem_map_of_mem member⟩)
      simpa using clear
  | some pair =>
      obtain ⟨short, inside, member⟩ := List.mem_flatMap.mp (List.mem_of_find?_eq_some found)
      obtain ⟨long, beside, rfl⟩ := List.mem_map.mp member
      have hidden := List.find?_some found
      simp only [reduceCtorEq, false_iff]
      intro clear
      rw [clear short inside long beside] at hidden
      exact Bool.false_ne_true hidden

omit [Externals] in
theorem foldl_insertEntry {held entries : List Entry}
    (distinct : ((held ++ entries).map Entry.place).Nodup) :
    entries.foldl insertEntry held = held ++ entries := by
  induction entries generalizing held with
  | nil => simp
  | cons entry entries ih =>
      have new : held.filter (·.place ≠ entry.place) = held := by
        refine List.filter_eq_self.mpr fun other member => decide_eq_true ?_
        intro shared
        rw [List.map_append, List.map_cons, List.nodup_append] at distinct
        exact distinct.2.2 _ (List.mem_map_of_mem member) _ (by simp) shared
      rw [List.foldl_cons, insertEntry, new, ih (by simpa using distinct)]
      simp

theorem parseEntries_empty : parseEntries .empty = .ok { entries := [], lines := [], vars := [] } :=
  rfl

/-- The bindings of a parsed file are those of its lines in effect, none of which hides a sequence. -/
theorem parseEntries_eq_ok {file : File} {parsed : Parsed} (read : parseEntries file = .ok parsed) :
    ∃ entries, file.entries = some entries ∧
      Merged (entries.map Entry.binding) parsed.entries ∧
      ∀ short ∈ parsed.entries, ∀ long ∈ parsed.entries, hides short long = false := by
  unfold parseEntries at read
  obtain ⟨vars, varsRead, read⟩ := Except.bind_eq_ok.mp read
  obtain ⟨⟨lines, merged⟩, linesRead, read⟩ := Except.bind_eq_ok.mp read
  obtain ⟨done, checked, same⟩ := Except.bind_eq_ok.mp read
  cases same
  have found := lines_toOption vars file.table
  rw [linesRead] at found
  cases whole : (file.table.mapM (lineEntries vars)).map List.flatten with
  | none =>
      rw [whole] at found
      exact nomatch found
  | some entries =>
      rw [whole, Option.bind_some] at found
      have ran : entries.foldlM merge [] = .ok merged := by
        cases result : entries.foldlM merge [] with
        | error failure =>
            rw [result] at found
            exact nomatch found
        | ok held =>
            rw [result] at found
            cases found
            rfl
      obtain ⟨accepted, effect, distinct⟩ := (merge_run entries).1 merged ran
      have sorted := List.perm_insertionSort
        (fun a b : Entry => (rowOrder a.row b.row).isLE = true) merged
      refine ⟨entries, ?_, ⟨accepted, (sorted.map _).trans effect,
        (sorted.map _).nodup_iff.mpr distinct⟩, checkNoKeyHidesASequence_eq_ok.mp checked⟩
      rw [File.entries, varsRead]
      exact whole

/-- A file is parsed when its lines can be read, they merge, and none in effect hides a sequence. -/
theorem exists_parseEntries {file : File} {entries : List Entry}
    (found : file.entries = some entries) (accepted : Accepted (entries.map Entry.binding))
    (open_ : ¬Hidden (entries.map Entry.binding)) :
    ∃ parsed, parseEntries file = .ok parsed := by
  cases varsRead : readVars file.vars with
  | error failure =>
      rw [File.entries, varsRead] at found
      exact nomatch found
  | ok vars =>
      rw [File.entries, varsRead] at found
      have whole : (file.table.mapM (lineEntries vars)).map List.flatten = some entries := found
      have folded := lines_toOption vars file.table
      rw [whole, Option.bind_some] at folded
      cases ran : entries.foldlM merge [] with
      | error failure => exact absurd accepted ((merge_run entries).2 failure ran)
      | ok held =>
          rw [ran] at folded
          cases linesRead : file.table.foldlM (readLine vars) ([], []) with
          | error failure =>
              rw [linesRead] at folded
              exact nomatch folded
          | ok read =>
              rw [linesRead] at folded
              have same : read.2 = held := by simpa [Except.toOption] using folded
              have effect := ((merge_run entries).1 held ran).effect
              have clear : checkNoKeyHidesASequence
                  (read.2.insertionSort fun a b => (rowOrder a.row b.row).isLE) = .ok () := by
                rw [checkNoKeyHidesASequence_eq_ok, same]
                intro short inside long beside
                by_contra hidden
                have inEffect_of {entry : Entry}
                    (member : entry ∈ held.insertionSort fun a b => (rowOrder a.row b.row).isLE) :
                    entry.binding ∈ inEffect (entries.map Entry.binding) :=
                  effect.mem_iff.mp (List.mem_map_of_mem ((List.mem_insertionSort _).mp member))
                exact open_ ⟨short.binding, inEffect_of inside, long.binding, inEffect_of beside,
                  by simpa using hidden⟩
              cases result : parseEntries file with
              | ok parsed => exact ⟨parsed, rfl⟩
              | error failure =>
                  rw [parseEntries, varsRead] at result
                  simp only [bind, Except.bind, linesRead, clear] at result
                  exact nomatch result

/-- The table of the bindings in effect. -/
def tableOf (bindings : List Binding) : List CompiledBinding :=
  sortRows ((inEffect bindings).map Binding.compiled)

omit [Externals] in
theorem place_of_row {first second : Binding} (same : first.compiled.row = second.compiled.row) :
    first.place = second.place := by
  simp only [Binding.compiled, CompiledBinding.row, Prod.mk.injEq] at same
  obtain ⟨keys, scope, widget, side⟩ := same
  simp only [Binding.place, bindingKey, keys, scope, widget, side]

theorem fromSource_of_parsed {file : File} {parsed : Parsed} (read : parseEntries file = .ok parsed)
    (distinct : (parsed.entries.map Entry.place).Nodup) :
    fromSource file =
      .ok { config := parsed.entries, lines := parsed.lines, vars := parsed.vars,
            suggestions := [] } := by
  have all : parsed.entries.foldl insertEntry [] = parsed.entries :=
    foldl_insertEntry (by simpa using distinct)
  rw [fromSource, fromSources, read, parseEntries_empty]
  simp [bind, Except.bind, KeybindingSet.extend, all]

/-- A file loads, and its table is that of the bindings in effect. -/
theorem load_eq_some_iff {file : File} {table : List CompiledBinding} :
    file.load = some table ↔
      ∃ bindings, file.bindings = some bindings ∧ ¬Twice bindings ∧ ¬Keybindings.Crowded bindings ∧
        ¬Hidden bindings ∧ table = tableOf bindings := by
  have compiled {entries : List Entry} {parsed : Parsed} (read : parseEntries file = .ok parsed)
      (merged : Merged (entries.map Entry.binding) parsed.entries) :
      file.load = some (tableOf (entries.map Entry.binding)) := by
    rw [File.load, fromSource_of_parsed read merged.distinct]
    change some (sortRows (parsed.entries.map Entry.compiled ++ [])) = _
    rw [List.append_nil]
    congr 1
    refine sortRows_perm ?_ ?_
    · have rows := merged.effect.map Binding.compiled
      rwa [List.map_map] at rows
    · intro a left b right same
      obtain ⟨first, inFirst, rfl⟩ := List.mem_map.mp left
      obtain ⟨second, inSecond, rfl⟩ := List.mem_map.mp right
      rw [List.inj_on_of_nodup_map merged.distinct inFirst inSecond
        (@place_of_row first.binding second.binding same)]
  constructor
  · intro loaded
    cases read : parseEntries file with
    | error failure =>
        rw [File.load, fromSource, fromSources, read] at loaded
        exact nomatch loaded
    | ok parsed =>
        obtain ⟨entries, found, merged, clear⟩ := parseEntries_eq_ok read
        obtain ⟨once, spaced⟩ := accepted_iff.mp merged.accepted
        refine ⟨entries.map Entry.binding, by rw [File.bindings, found]; rfl, once, spaced, ?_, ?_⟩
        · rintro ⟨short, inShort, long, inLong, hidden⟩
          obtain ⟨shortEntry, inside, rfl⟩ := List.mem_map.mp (merged.effect.mem_iff.mpr inShort)
          obtain ⟨longEntry, beside, rfl⟩ := List.mem_map.mp (merged.effect.mem_iff.mpr inLong)
          rw [hides_binding, clear _ inside _ beside] at hidden
          exact Bool.false_ne_true hidden
        · rw [compiled read merged] at loaded
          exact (Option.some.inj loaded).symm
  · rintro ⟨bindings, found, once, spaced, clear, rfl⟩
    obtain ⟨entries, entriesFound, rfl⟩ := Option.map_eq_some_iff.mp found
    obtain ⟨parsed, read⟩ :=
      exists_parseEntries entriesFound (accepted_iff.mpr ⟨once, spaced⟩) clear
    obtain ⟨others, same, merged, -⟩ := parseEntries_eq_ok read
    cases entriesFound.symm.trans same
    exact compiled read merged

end Keybindings
end Metafolder
