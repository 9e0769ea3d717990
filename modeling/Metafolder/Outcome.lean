import Mathlib.Data.List.Basic

/-!
# Computations that may fail

Inversion of successful computations in `Except`, and induction over a loop that threads a state
through a list and stops at the first failure.
-/

namespace Except

variable {ε α β : Type}

@[simp]
theorem bind_eq_ok {first : Except ε α} {next : α → Except ε β} {result : β} :
    (first >>= next) = .ok result ↔ ∃ value, first = .ok value ∧ next value = .ok result := by
  cases first with
  | error failure => simp [bind, Except.bind]
  | ok value => simp [bind, Except.bind]

@[simp]
theorem pure_eq_ok {value result : α} : (pure value : Except ε α) = .ok result ↔ value = result := by
  simp [pure, Except.pure]

@[simp]
theorem map_eq_ok {change : α → β} {first : Except ε α} {result : β} :
    (change <$> first) = .ok result ↔ ∃ value, first = .ok value ∧ change value = result := by
  cases first with
  | error failure => simp [Functor.map, Except.map]
  | ok value => simp [Functor.map, Except.map]

variable {σ : Type} {step : σ → α → Except ε σ}

@[simp]
theorem foldlM_nil_eq_ok {before after : σ} :
    ([] : List α).foldlM step before = .ok after ↔ before = after := by
  simp

@[simp]
theorem foldlM_cons_eq_ok {head : α} {tail : List α} {before after : σ} :
    (head :: tail).foldlM step before = .ok after ↔
      ∃ middle, step before head = .ok middle ∧ tail.foldlM step middle = .ok after := by
  simp [List.foldlM_cons]

/-- What each step of a loop preserves, the loop preserves. -/
theorem foldlM_induction {items : List α} {before after : σ} (property : σ → Prop)
    (preserved : ∀ item ∈ items, ∀ start finish, property start →
      step start item = .ok finish → property finish)
    (holds : property before) (ran : items.foldlM step before = .ok after) : property after := by
  induction items generalizing before with
  | nil =>
      rw [foldlM_nil_eq_ok] at ran
      exact ran ▸ holds
  | cons head tail ih =>
      obtain ⟨middle, stepped, rest⟩ := foldlM_cons_eq_ok.mp ran
      refine ih (fun item member => preserved item (List.mem_cons_of_mem _ member)) ?_ rest
      exact preserved head List.mem_cons_self before middle holds stepped

/-- A loop of checks passes when each does. -/
theorem forM_eq_ok {items : List α} {check : α → Except ε Unit} :
    items.forM check = .ok () ↔ ∀ item ∈ items, check item = .ok () := by
  induction items with
  | nil => simp [List.forM, pure, Except.pure]
  | cons head tail ih =>
      rw [List.forall_mem_cons, ← ih]
      change (check head >>= fun _ => tail.forM check) = .ok () ↔ _
      rw [bind_eq_ok]
      constructor
      · rintro ⟨⟨⟩, first, rest⟩
        exact ⟨first, rest⟩
      · rintro ⟨first, rest⟩
        exact ⟨(), first, rest⟩

theorem length_of_mapM {items : List α} {read : α → Except ε β} {results : List β}
    (ran : items.mapM read = .ok results) : results.length = items.length := by
  induction items generalizing results with
  | nil =>
      rw [List.mapM_nil, pure_eq_ok] at ran
      subst ran
      rfl
  | cons head tail ih =>
      simp only [List.mapM_cons, bind_eq_ok, pure_eq_ok] at ran
      obtain ⟨first, -, rest, others, rfl⟩ := ran
      rw [List.length_cons, List.length_cons, ih others]

/-- What a map results in is what it read of an item. -/
theorem mem_of_mapM {items : List α} {read : α → Except ε β} {results : List β}
    (ran : items.mapM read = .ok results) {result : β} (member : result ∈ results) :
    ∃ item ∈ items, read item = .ok result := by
  induction items generalizing results with
  | nil =>
      rw [List.mapM_nil, pure_eq_ok] at ran
      simp [← ran] at member
  | cons head tail ih =>
      simp only [List.mapM_cons, bind_eq_ok, pure_eq_ok] at ran
      obtain ⟨first, made, rest, others, rfl⟩ := ran
      rcases List.mem_cons.mp member with rfl | member
      · exact ⟨head, List.mem_cons_self, made⟩
      · obtain ⟨item, listed, read_eq⟩ := ih others member
        exact ⟨item, List.mem_cons_of_mem _ listed, read_eq⟩

/-- A map that fails nowhere is the map of its results. -/
theorem mapM_eq_ok_map {items : List α} {read : α → Except ε β} (result : α → β)
    (each : ∀ item ∈ items, read item = .ok (result item)) :
    items.mapM read = .ok (items.map result) := by
  induction items with
  | nil => rfl
  | cons head tail ih =>
      have rest := ih fun item member => each item (List.mem_cons_of_mem _ member)
      simp [List.mapM_cons, each head List.mem_cons_self, rest]

@[simp]
theorem toOption_ok (value : α) : (.ok value : Except ε α).toOption = some value := rfl

@[simp]
theorem toOption_error (failure : ε) : (.error failure : Except ε α).toOption = none := rfl

@[simp]
theorem toOption_bind (first : Except ε α) (next : α → Except ε β) :
    (first >>= next).toOption = first.toOption.bind fun value => (next value).toOption := by
  cases first with
  | error failure => rfl
  | ok value => rfl

theorem toOption_mapM (items : List α) (read : α → Except ε β) :
    (items.mapM read).toOption = items.mapM fun item => (read item).toOption := by
  induction items with
  | nil => rfl
  | cons head tail ih =>
      rw [List.mapM_cons, List.mapM_cons, toOption_bind]
      simp only [toOption_bind, ih]
      rfl

theorem toOption_foldlM (items : List α) (step : σ → α → Except ε σ) (start : σ) :
    (items.foldlM step start).toOption =
      items.foldlM (fun state item => (step state item).toOption) start := by
  induction items generalizing start with
  | nil => rfl
  | cons head tail ih =>
      rw [List.foldlM_cons, List.foldlM_cons, toOption_bind]
      simp only [ih]
      rfl

end Except
