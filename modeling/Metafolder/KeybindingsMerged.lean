import Metafolder.Keybindings
import Metafolder.Outcome
import Mathlib.Data.List.Count

/-!
# The merge of the bindings of a file

What the merge leaves at each place, for bindings met in any order: a file is refused over a place
with two literal bindings, or with two that variables produced and no literal one; and, because the
bindings are merged one by one, over a place where two that variables produced come before the
literal one.
-/

namespace Metafolder
namespace Keybindings

/-- One binding of a file, whatever the line it comes from. -/
structure Binding where
  /-- The keys it binds. -/
  keys : List String
  /-- The scope and the command. -/
  spec : BindingSpec
  /-- A variable produced it. -/
  derived : Bool
deriving DecidableEq

/-- The binding of an entry. -/
def Entry.binding (entry : Entry) : Binding := ⟨entry.keys, entry.spec, entry.derivedFrom.isSome⟩

namespace Binding

/-- Where the binding applies. -/
def place (binding : Binding) : BindingKey := bindingKey binding.keys binding.spec

/-- The row of the table. -/
def compiled (binding : Binding) : CompiledBinding :=
  { keys := binding.keys, invocation := binding.spec.command, when := binding.spec.when,
    textInput := binding.spec.textInput, focusScope := binding.spec.focusScope, suggested := false }

/-- It is in the scope of another and starts its sequence. -/
def hides (short long : Binding) : Bool :=
  short.spec.when = long.spec.when && short.spec.focusScope = long.spec.focusScope &&
    starts long.keys short.keys

end Binding

@[simp]
theorem place_binding (entry : Entry) : entry.binding.place = entry.place := rfl

@[simp]
theorem compiled_binding (entry : Entry) : entry.binding.compiled = entry.compiled := rfl

@[simp]
theorem hides_binding (short long : Entry) : short.binding.hides long.binding = hides short long :=
  rfl

/-! ### Places -/

/-- How many literal bindings a place has. -/
def literals (place : BindingKey) (bindings : List Binding) : Nat :=
  bindings.countP fun binding => binding.place = place && !binding.derived

/-- How many bindings of a place variables produced. -/
def deriveds (place : BindingKey) (bindings : List Binding) : Nat :=
  bindings.countP fun binding => binding.place = place && binding.derived

/-- A place is bound twice: by two literal bindings, or by two that variables produced and that no
literal one overrides. -/
def Twice (bindings : List Binding) : Prop :=
  ∃ place, 2 ≤ literals place bindings ∨
    (literals place bindings = 0 ∧ 2 ≤ deriveds place bindings)

/-- A literal binding comes after two of its place that variables produced. -/
def Crowded (bindings : List Binding) : Prop :=
  ∃ before literal after, bindings = before ++ literal :: after ∧ literal.derived = false ∧
    2 ≤ deriveds literal.place before

/-- A binding is in effect among others: it is literal, or no literal one overrides it. -/
def wins (bindings : List Binding) (binding : Binding) : Bool :=
  !binding.derived || literals binding.place bindings = 0

/-- The bindings in effect. -/
def inEffect (bindings : List Binding) : List Binding := bindings.filter (wins bindings)

/-- A binding in effect hides the sequence of another. -/
def Hidden (bindings : List Binding) : Prop :=
  ∃ short ∈ inEffect bindings, ∃ long ∈ inEffect bindings, short.hides long

theorem literals_perm {first second : List Binding} (same : first.Perm second)
    (place : BindingKey) : literals place first = literals place second :=
  same.countP_eq _

theorem deriveds_perm {first second : List Binding} (same : first.Perm second)
    (place : BindingKey) : deriveds place first = deriveds place second :=
  same.countP_eq _

theorem inEffect_perm {first second : List Binding} (same : first.Perm second) :
    (inEffect first).Perm (inEffect second) := by
  have agree : wins first = wins second := by
    funext binding
    simp only [wins, literals_perm same]
  rw [inEffect, inEffect, agree]
  exact same.filter _

theorem twice_perm {first second : List Binding} (same : first.Perm second) :
    Twice first ↔ Twice second := by
  simp only [Twice, literals_perm same, deriveds_perm same]

theorem hidden_perm {first second : List Binding} (same : first.Perm second) :
    Hidden first ↔ Hidden second := by
  simp only [Hidden, (inEffect_perm same).mem_iff]

/-! ### The merge -/

/-- The binding that comes next finds its place free, or one of the other kind that it can meet. -/
def Fits (before : List Binding) (binding : Binding) : Prop :=
  if binding.derived then
    0 < literals binding.place before ∨ deriveds binding.place before = 0
  else literals binding.place before = 0 ∧ deriveds binding.place before ≤ 1

/-- Each binding fits after those before it. -/
def Accepted (bindings : List Binding) : Prop :=
  ∀ before binding after, bindings = before ++ binding :: after → Fits before binding

theorem accepted_nil : Accepted [] := by
  intro before binding after split
  simp at split

theorem accepted_concat {bindings : List Binding} {binding : Binding} :
    Accepted (bindings ++ [binding]) ↔ Accepted bindings ∧ Fits bindings binding := by
  constructor
  · intro accepted
    refine ⟨fun before other after same => accepted before other (after ++ [binding]) ?_,
      accepted bindings binding [] rfl⟩
    rw [same]
    simp
  · rintro ⟨accepted, fits⟩ before other after same
    induction after using List.reverseRecOn with
    | nil =>
        obtain ⟨rfl, last⟩ := List.append_inj' same rfl
        cases last
        exact fits
    | append_singleton after last _ =>
        rw [← List.cons_append, ← List.append_assoc] at same
        obtain ⟨same, -⟩ := List.append_inj' same rfl
        exact accepted before other after same

theorem literals_concat (place : BindingKey) (bindings : List Binding) (binding : Binding) :
    literals place (bindings ++ [binding]) =
      literals place bindings + if binding.place = place ∧ binding.derived = false then 1 else 0 := by
  simp [literals, List.countP_append, List.countP_singleton]

theorem deriveds_concat (place : BindingKey) (bindings : List Binding) (binding : Binding) :
    deriveds place (bindings ++ [binding]) =
      deriveds place bindings + if binding.place = place ∧ binding.derived = true then 1 else 0 := by
  simp [deriveds, List.countP_append, List.countP_singleton]

/-- What fits place by place leaves one literal binding at most, or one binding without any. -/
theorem counts_of_accepted {bindings : List Binding} (accepted : Accepted bindings)
    (place : BindingKey) :
    literals place bindings ≤ 1 ∧ (literals place bindings = 0 → deriveds place bindings ≤ 1) := by
  induction bindings using List.reverseRecOn with
  | nil => simp [literals, deriveds]
  | append_singleton bindings binding ih =>
      obtain ⟨before, fits⟩ := accepted_concat.mp accepted
      have counts := ih before
      rw [literals_concat, deriveds_concat]
      unfold Fits at fits
      by_cases here : binding.place = place
      · subst here
        cases kind : binding.derived with
        | false =>
            simp only [kind, Bool.false_eq_true, if_false] at fits
            simp only [if_true, and_false, if_false, Bool.false_eq_true, and_true]
            omega
        | true =>
            simp only [kind, if_true] at fits
            simp only [Bool.true_eq_false, if_false, and_false, and_true, if_true]
            omega
      · simp only [here, false_and, if_false]
        omega

theorem literals_pos_of_mem {bindings : List Binding} {binding : Binding}
    (member : binding ∈ bindings) (literal : binding.derived = false) :
    0 < literals binding.place bindings :=
  List.countP_pos_iff.mpr ⟨binding, member, by simp [literal]⟩

theorem deriveds_pos_of_mem {bindings : List Binding} {binding : Binding}
    (member : binding ∈ bindings) (derived : binding.derived = true) :
    0 < deriveds binding.place bindings :=
  List.countP_pos_iff.mpr ⟨binding, member, by simp [derived]⟩

/-- The bindings fit one after the other if and only if no place is bound twice, and none has its
literal binding after two others. -/
theorem accepted_iff {bindings : List Binding} :
    Accepted bindings ↔ ¬Twice bindings ∧ ¬Crowded bindings := by
  constructor
  · intro accepted
    constructor
    · rintro ⟨place, twice⟩
      have counts := counts_of_accepted accepted place
      omega
    · rintro ⟨before, literal, after, rfl, kind, many⟩
      have fits := accepted before literal after rfl
      simp only [Fits, kind, Bool.false_eq_true, if_false] at fits
      omega
  · rintro ⟨once, spaced⟩ before binding after rfl
    have literal_split : literals binding.place (before ++ binding :: after) =
        literals binding.place before + literals binding.place [binding] +
          literals binding.place after := by
      simp only [literals, List.countP_append, List.countP_cons, List.countP_nil]
      omega
    have derived_split : deriveds binding.place (before ++ binding :: after) =
        deriveds binding.place before + deriveds binding.place [binding] +
          deriveds binding.place after := by
      simp only [deriveds, List.countP_append, List.countP_cons, List.countP_nil]
      omega
    unfold Fits
    cases kind : binding.derived with
    | false =>
        have one : literals binding.place [binding] = 1 := by simp [literals, kind]
        simp only [Bool.false_eq_true, if_false]
        constructor
        · by_contra some_before
          exact once ⟨binding.place, .inl (by omega)⟩
        · by_contra many
          exact spaced ⟨before, binding, after, rfl, kind, by omega⟩
    | true =>
        have none : literals binding.place [binding] = 0 := by simp [literals, kind]
        have one : deriveds binding.place [binding] = 1 := by simp [deriveds, kind]
        simp only [if_true]
        by_contra crowded
        rw [not_or] at crowded
        have later : 0 < literals binding.place after := by
          by_contra no_later
          exact once ⟨binding.place, .inr (by omega)⟩
        obtain ⟨literal, member, here⟩ := List.countP_pos_iff.mp later
        simp only [Bool.and_eq_true, decide_eq_true_eq, Bool.not_eq_true'] at here
        obtain ⟨middle, rest, rfl⟩ := List.append_of_mem member
        refine spaced ⟨before ++ binding :: middle, literal, rest, by simp, here.2, ?_⟩
        rw [here.1]
        simp only [deriveds, List.countP_append, List.countP_cons, List.countP_nil] at one ⊢
        simp only [deriveds] at crowded
        omega

/-- What a run of the merge has kept of the bindings it met. -/
structure Merged (bindings : List Binding) (held : List Entry) : Prop where
  /-- Each binding found its place free or of the other kind. -/
  accepted : Accepted bindings
  /-- The bindings kept are those in effect. -/
  effect : (held.map Entry.binding).Perm (inEffect bindings)
  /-- There is one a place. -/
  distinct : (held.map Entry.place).Nodup

namespace Merged

variable {bindings : List Binding} {held : List Entry}

theorem wins_of_mem (merged : Merged bindings held) {entry : Entry} (member : entry ∈ held) :
    entry.binding ∈ bindings ∧ wins bindings entry.binding :=
  List.mem_filter.mp (merged.effect.mem_iff.mp (List.mem_map_of_mem member))

/-- A place that some binding met is not left free. -/
theorem free (merged : Merged bindings held) {place : BindingKey}
    (absent : ∀ entry ∈ held, entry.place ≠ place) :
    literals place bindings = 0 ∧ deriveds place bindings = 0 := by
  have out : ∀ binding ∈ inEffect bindings, binding.place ≠ place := by
    intro binding member
    obtain ⟨entry, inside, rfl⟩ := List.mem_map.mp (merged.effect.mem_iff.mpr member)
    exact absent entry inside
  have noLiteral : literals place bindings = 0 := by
    refine List.countP_eq_zero.mpr fun binding member here => ?_
    simp only [Bool.and_eq_true, decide_eq_true_eq] at here
    exact out binding (List.mem_filter.mpr ⟨member, by simp [wins, here.2]⟩) here.1
  refine ⟨noLiteral, List.countP_eq_zero.mpr fun binding member here => ?_⟩
  simp only [Bool.and_eq_true, decide_eq_true_eq] at here
  exact out binding
    (List.mem_filter.mpr ⟨member, by simp [wins, here.1, noLiteral]⟩) here.1

end Merged

theorem find?_place_eq_none {held : List Entry} {entry : Entry}
    (absent : held.find? (·.place = entry.place) = none) :
    ∀ other ∈ held, other.place ≠ entry.place := by
  simpa using absent

theorem find?_place_eq_some {held : List Entry} {entry other : Entry}
    (found : held.find? (·.place = entry.place) = some other) :
    other ∈ held ∧ other.place = entry.place :=
  ⟨List.mem_of_find?_eq_some found, by simpa using List.find?_some found⟩

/-- The bindings in effect before a literal one: the other places keep theirs. -/
theorem inEffect_concat_literal {bindings : List Binding} {binding : Binding}
    (literal : binding.derived = false) (first : literals binding.place bindings = 0) :
    inEffect (bindings ++ [binding]) =
      (inEffect bindings).filter (·.place ≠ binding.place) ++ [binding] := by
  have last : wins (bindings ++ [binding]) binding := by simp [wins, literal]
  rw [inEffect, List.filter_append, List.filter_cons_of_pos last, List.filter_nil, inEffect,
    List.filter_filter]
  congr 1
  refine List.filter_congr fun other member => ?_
  simp only [wins, literals_concat, literal, and_true]
  by_cases here : other.place = binding.place
  · have derived : other.derived = true := by
      by_contra plain
      have positive := literals_pos_of_mem member (by simpa using plain)
      rw [here] at positive
      omega
    simp [here, derived]
  · have elsewhere : binding.place ≠ other.place := fun same => here same.symm
    simp [here, elsewhere]

theorem inEffect_concat_derived {bindings : List Binding} {binding : Binding}
    (derived : binding.derived = true) :
    inEffect (bindings ++ [binding]) =
      inEffect bindings ++ if literals binding.place bindings = 0 then [binding] else [] := by
  have agree : wins (bindings ++ [binding]) = wins bindings := by
    funext other
    simp [wins, literals_concat, derived]
  rw [inEffect, agree, List.filter_append, List.filter_singleton, inEffect]
  simp [wins, derived]

/-- Replacing the one entry of a place. -/
theorem map_replace_perm {held : List Entry} {entry other : Entry}
    (distinct : (held.map Entry.place).Nodup) (member : other ∈ held)
    (same : other.place = entry.place) :
    (held.map fun kept => if kept = other then entry else kept).Perm
      (held.filter (·.place ≠ entry.place) ++ [entry]) := by
  induction held with
  | nil => simp at member
  | cons head tail ih =>
      simp only [List.map_cons, List.nodup_cons] at distinct
      by_cases here : head = other
      · subst here
        have out : ∀ kept ∈ tail, kept.place ≠ entry.place := by
          intro kept inside shared
          exact distinct.1 (List.mem_map.mpr ⟨kept, inside, shared.trans same.symm⟩)
        have unchanged : (tail.map fun kept => if kept = head then entry else kept) = tail := by
          refine (List.map_congr_left fun kept inside => ?_).trans (List.map_id tail)
          rw [if_neg]
          · rfl
          · rintro rfl
            exact out kept inside same
        have kept : tail.filter (·.place ≠ entry.place) = tail :=
          List.filter_eq_self.mpr fun kept inside => by simpa using out kept inside
        rw [List.map_cons, if_pos rfl, unchanged, List.filter_cons_of_neg (by simpa using same), kept]
        exact (List.perm_append_singleton entry tail).symm
      · have inside : other ∈ tail := by
          cases member with
          | head => exact absurd rfl here
          | tail _ inside => exact inside
        have apart : head.place ≠ entry.place := by
          intro shared
          exact distinct.1 (List.mem_map.mpr ⟨other, inside, same.trans shared.symm⟩)
        rw [List.map_cons, if_neg here, List.filter_cons_of_pos (by simpa using apart)]
        exact (ih distinct.2 inside).cons head

namespace Merged

variable {bindings : List Binding} {held : List Entry} {entry : Entry}

/-- A binding whose place is free joins those kept. -/
theorem concat_free (merged : Merged bindings held)
    (absent : ∀ other ∈ held, other.place ≠ entry.place) :
    Merged (bindings ++ [entry.binding]) (held ++ [entry]) := by
  obtain ⟨noLiteral, noDerived⟩ := merged.free absent
  have fits : Fits bindings entry.binding := by
    unfold Fits
    split
    · exact .inr noDerived
    · exact ⟨noLiteral, by rw [place_binding, noDerived]; omega⟩
  have out : ∀ binding ∈ inEffect bindings, binding.place ≠ entry.place := by
    intro binding member
    obtain ⟨other, inside, rfl⟩ := List.mem_map.mp (merged.effect.mem_iff.mpr member)
    exact absent other inside
  have effect : inEffect (bindings ++ [entry.binding]) = inEffect bindings ++ [entry.binding] := by
    cases kind : entry.binding.derived with
    | false =>
        rw [inEffect_concat_literal kind noLiteral]
        congr 1
        exact List.filter_eq_self.mpr fun binding member => decide_eq_true (out binding member)
    | true => rw [inEffect_concat_derived kind, place_binding, if_pos noLiteral]
  refine ⟨accepted_concat.mpr ⟨merged.accepted, fits⟩, ?_, ?_⟩
  · rw [effect, List.map_append]
    exact merged.effect.append_right _
  · rw [List.map_append, List.map_singleton, List.nodup_append]
    refine ⟨merged.distinct, by simp, fun place member other same => ?_⟩
    obtain ⟨kept, inside, rfl⟩ := List.mem_map.mp member
    cases List.mem_singleton.mp same
    exact absent kept inside

/-- A literal binding takes the place of the one that a variable produced. -/
theorem concat_literal (merged : Merged bindings held) {other : Entry} (inside : other ∈ held)
    (shared : other.place = entry.place) (before : other.binding.derived = true)
    (now : entry.binding.derived = false) :
    Merged (bindings ++ [entry.binding])
      (held.map fun kept => if kept = other then entry else kept) := by
  have noLiteral : literals entry.place bindings = 0 := by
    simpa [wins, before, shared] using (merged.wins_of_mem inside).2
  have fits : Fits bindings entry.binding := by
    simp only [Fits, now, Bool.false_eq_true, if_false]
    exact ⟨noLiteral, (counts_of_accepted merged.accepted entry.place).2 noLiteral⟩
  have replaced := map_replace_perm merged.distinct inside shared
  refine ⟨accepted_concat.mpr ⟨merged.accepted, fits⟩, ?_, ?_⟩
  · rw [inEffect_concat_literal now noLiteral]
    refine (replaced.map Entry.binding).trans ?_
    rw [List.map_append, List.map_singleton]
    refine List.Perm.append_right _ ?_
    have filtered := merged.effect.filter fun binding => decide (binding.place ≠ entry.place)
    rwa [List.filter_map] at filtered
  · refine (replaced.map Entry.place).nodup_iff.mpr ?_
    rw [List.map_append, List.map_singleton, List.nodup_append]
    refine ⟨merged.distinct.sublist (List.filter_sublist.map _), by simp,
      fun place member again same => ?_⟩
    obtain ⟨kept, apart, rfl⟩ := List.mem_map.mp member
    cases List.mem_singleton.mp same
    simpa using (List.mem_filter.mp apart).2

/-- A binding that a variable produced leaves a literal one where it is. -/
theorem concat_derived (merged : Merged bindings held)
    (literal : 0 < literals entry.place bindings) (now : entry.binding.derived = true) :
    Merged (bindings ++ [entry.binding]) held := by
  have fits : Fits bindings entry.binding := by
    simp only [Fits, now, if_true]
    exact .inl literal
  refine ⟨accepted_concat.mpr ⟨merged.accepted, fits⟩, ?_, merged.distinct⟩
  rw [inEffect_concat_derived now, place_binding, if_neg literal.ne', List.append_nil]
  exact merged.effect

end Merged

/-- One binding met by the merge: what is kept stays what is in effect, or the binding does not
fit. -/
theorem merge_step {bindings : List Binding} {held : List Entry} (merged : Merged bindings held)
    (entry : Entry) :
    (∀ after, merge held entry = .ok after → Merged (bindings ++ [entry.binding]) after) ∧
      (∀ failure, merge held entry = .error failure → ¬Fits bindings entry.binding) := by
  unfold merge
  cases found : held.find? (·.place = entry.place) with
  | none =>
      refine ⟨fun after ran => ?_, fun failure ran => nomatch ran⟩
      cases ran
      exact merged.concat_free (find?_place_eq_none found)
  | some other =>
      obtain ⟨inside, shared⟩ := find?_place_eq_some found
      obtain ⟨met, winning⟩ := merged.wins_of_mem inside
      dsimp only
      cases before : other.derivedFrom.isSome with
      | true =>
          have derived : other.binding.derived = true := before
          have noLiteral : literals entry.place bindings = 0 := by
            simpa [wins, derived, shared] using winning
          cases now : entry.derivedFrom.isSome with
          | false =>
              refine ⟨fun after ran => ?_, fun failure ran => nomatch ran⟩
              cases ran
              exact merged.concat_literal inside shared before now
          | true =>
              refine ⟨fun after ran => (nomatch ran), fun failure _ fits => ?_⟩
              have again : entry.binding.derived = true := now
              have positive := deriveds_pos_of_mem met derived
              simp only [Fits, again, if_true, place_binding] at fits
              rw [place_binding, shared] at positive
              omega
      | false =>
          have positive : 0 < literals entry.place bindings := by
            have found := literals_pos_of_mem met before
            rwa [place_binding, shared] at found
          cases now : entry.derivedFrom.isSome with
          | false =>
              refine ⟨fun after ran => (nomatch ran), fun failure _ fits => ?_⟩
              have again : entry.binding.derived = false := now
              simp only [Fits, again, Bool.false_eq_true, if_false, place_binding] at fits
              omega
          | true =>
              refine ⟨fun after ran => ?_, fun failure ran => nomatch ran⟩
              cases ran
              exact merged.concat_derived positive now

/-- The merge of a whole file keeps the bindings in effect, or the file is refused. -/
theorem merge_run (entries : List Entry) :
    (∀ held, entries.foldlM merge [] = .ok held → Merged (entries.map Entry.binding) held) ∧
      (∀ failure, entries.foldlM merge [] = .error failure →
        ¬Accepted (entries.map Entry.binding)) := by
  induction entries using List.reverseRecOn with
  | nil =>
      refine ⟨fun held ran => ?_, fun failure ran => nomatch ran⟩
      cases ran
      exact ⟨accepted_nil, .nil, .nil⟩
  | append_singleton entries entry ih =>
      rw [List.foldlM_append, List.map_append, List.map_singleton]
      cases ran : entries.foldlM merge [] with
      | error failure =>
          refine ⟨fun held none => (nomatch none), fun _ _ accepted => ?_⟩
          exact ih.2 failure ran (accepted_concat.mp accepted).1
      | ok before =>
          have step := merge_step (ih.1 before ran) entry
          change (∀ held, [entry].foldlM merge before = .ok held → _) ∧
            (∀ failure, [entry].foldlM merge before = .error failure → _)
          rw [List.foldlM_cons]
          cases met : merge before entry with
          | ok held =>
              refine ⟨fun after same => ?_, fun failure none => nomatch none⟩
              cases same
              exact step.1 _ met
          | error failure =>
              refine ⟨fun after none => (nomatch none), fun _ _ accepted => ?_⟩
              exact step.2 failure met (accepted_concat.mp accepted).2

end Keybindings
end Metafolder
