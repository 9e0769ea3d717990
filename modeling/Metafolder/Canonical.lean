import Mathlib.Data.List.Pairwise
import Mathlib.Data.List.Sort
import Std.Data.ExtTreeMap.Lemmas

/-!
# Lists in canonical order

Elements sorted by a key, and of each key the first only.  Two lists whose keys compare alike, place
by place, are put in order alike, whatever the keys are.
-/

namespace Canonical

variable {α κ : Type} [Ord κ] (key : α → κ)

/-- Whether the key of an element is at most that of another. -/
def le (first second : α) : Bool := (compare (key first) (key second)).isLE

/-- Of an element and those that follow in a row with its key, the first; then the others. -/
def dedupFrom : α → List α → List α
  | held, [] => [held]
  | held, next :: rest =>
      if compare (key held) (key next) = .eq then dedupFrom held rest
      else held :: dedupFrom next rest

/-- Of elements in a row with one key, the first. -/
def dedup : List α → List α
  | [] => []
  | first :: rest => dedupFrom key first rest

/-- The elements in order of their keys, each key once. -/
def canon (elements : List α) : List α := dedup key (elements.mergeSort (le key))

/-- Strictly increasing keys. -/
def Ordered (elements : List α) : Prop :=
  elements.Pairwise fun first second => compare (key first) (key second) = .lt

variable {key}

theorem dedupFrom_subset (held : α) (rest : List α) : dedupFrom key held rest ⊆ held :: rest := by
  induction rest generalizing held with
  | nil => simp [dedupFrom]
  | cons next rest ih =>
      unfold dedupFrom
      split
      · intro other member
        have kept := ih held member
        simp only [List.mem_cons] at kept ⊢
        tauto
      · exact List.cons_subset_cons _ (ih next)

theorem dedup_subset (elements : List α) : dedup key elements ⊆ elements := by
  cases elements with
  | nil => exact List.nil_subset _
  | cons first rest => exact dedupFrom_subset first rest

theorem canon_subset (elements : List α) : canon key elements ⊆ elements := fun _ member =>
  List.mem_mergeSort.mp (dedup_subset _ member)

theorem dedupFrom_map {β : Type} {other : β → κ} {f : α → β} {held : α} {rest : List α}
    (alike : ∀ first ∈ held :: rest, ∀ second ∈ held :: rest,
      compare (key first) (key second) = compare (other (f first)) (other (f second))) :
    (dedupFrom key held rest).map f = dedupFrom other (f held) (rest.map f) := by
  induction rest generalizing held with
  | nil => rfl
  | cons next rest ih =>
      have keys := alike held (by simp) next (by simp)
      rw [List.map_cons, dedupFrom, dedupFrom, keys]
      split
      · apply ih
        intro first member second also
        have skip : ∀ element ∈ held :: rest, element ∈ held :: next :: rest := by
          intro element within
          simp only [List.mem_cons] at within ⊢
          tauto
        exact alike first (skip first member) second (skip second also)
      · rw [List.map_cons, ih fun first member second also =>
          alike first (List.mem_cons_of_mem _ member) second (List.mem_cons_of_mem _ also)]

/-- Elements whose keys compare alike are deduplicated alike. -/
theorem dedup_map {β : Type} {other : β → κ} {pairs : List α} {f : α → β}
    (alike : ∀ first ∈ pairs, ∀ second ∈ pairs,
      compare (key first) (key second) = compare (other (f first)) (other (f second))) :
    (dedup key pairs).map f = dedup other (pairs.map f) := by
  cases pairs with
  | nil => rfl
  | cons first rest => exact dedupFrom_map alike

/-- Elements whose keys compare alike are put in order alike. -/
theorem canon_map {β : Type} {other : β → κ} {pairs : List α} {f : α → β}
    (alike : ∀ first ∈ pairs, ∀ second ∈ pairs,
      compare (key first) (key second) = compare (other (f first)) (other (f second))) :
    (canon key pairs).map f = canon other (pairs.map f) := by
  have sorted : (pairs.mergeSort (le key)).map f = (pairs.map f).mergeSort (le other) := by
    apply List.map_mergeSort
    intro first member second also
    rw [le, le, alike first member second also]
  rw [canon, canon, ← sorted]
  apply dedup_map
  intro first member second also
  exact alike first (List.mem_mergeSort.mp member) second (List.mem_mergeSort.mp also)

variable [Std.TransOrd κ]

omit [Std.TransOrd κ] in
theorem compare_swap [Std.OrientedOrd κ] (first second : κ) :
    compare first second = (compare second first).swap :=
  Std.OrientedCmp.eq_swap

theorem le_trans (first second third : α) (one : le key first second = true)
    (two : le key second third = true) : le key first third = true :=
  Std.TransCmp.isLE_trans one two

theorem le_total (first second : α) : (le key first second || le key second first) = true := by
  have swapped := compare_swap (key first) (key second)
  rw [Bool.or_eq_true, le, le]
  cases held : compare (key second) (key first) <;> simp_all

theorem dedupFrom_ordered {held : α} {rest : List α}
    (sorted : (held :: rest).Pairwise fun first second => le key first second = true) :
    Ordered key (dedupFrom key held rest) := by
  induction rest generalizing held with
  | nil => exact List.pairwise_singleton _ _
  | cons next rest ih =>
      obtain ⟨least, later⟩ := List.pairwise_cons.mp sorted
      unfold dedupFrom
      split
      · exact ih (sorted.sublist (List.Sublist.cons_cons _ (List.sublist_cons_self _ _)))
      next differ =>
        refine List.pairwise_cons.mpr ⟨fun other member => ?_, ih later⟩
        have below : compare (key held) (key next) = .lt := by
          have atMost := least next (by simp)
          rw [le] at atMost
          cases kept : compare (key held) (key next) <;> simp_all
        have rest_le : (compare (key next) (key other)).isLE = true := by
          rcases List.mem_cons.mp (dedupFrom_subset _ _ member) with rfl | further
          · simp [Std.ReflCmp.compare_self]
          · exact (List.pairwise_cons.mp later).1 other further
        exact Std.TransCmp.lt_of_lt_of_isLE below rest_le

/-- Deduplicated, what was in order is strictly so. -/
theorem dedup_ordered {elements : List α}
    (sorted : elements.Pairwise fun first second => le key first second = true) :
    Ordered key (dedup key elements) := by
  cases elements with
  | nil => exact List.Pairwise.nil
  | cons first rest => exact dedupFrom_ordered sorted

theorem canon_ordered (elements : List α) : Ordered key (canon key elements) :=
  dedup_ordered (List.pairwise_mergeSort le_trans le_total elements)

omit [Std.TransOrd κ] in
theorem dedupFrom_of_ordered {held : α} {rest : List α} (ordered : Ordered key (held :: rest)) :
    dedupFrom key held rest = held :: rest := by
  induction rest generalizing held with
  | nil => rfl
  | cons next rest ih =>
      obtain ⟨least, later⟩ := List.pairwise_cons.mp ordered
      have below := least next (by simp)
      rw [dedupFrom, if_neg (by rw [below]; simp), ih later]

omit [Std.TransOrd κ] in
theorem dedup_of_ordered {elements : List α} (ordered : Ordered key elements) :
    dedup key elements = elements := by
  cases elements with
  | nil => rfl
  | cons first rest => exact dedupFrom_of_ordered ordered

omit [Std.TransOrd κ] in
/-- What is in order already stays as it is. -/
theorem canon_of_ordered {elements : List α} (ordered : Ordered key elements) :
    canon key elements = elements := by
  have sorted : elements.mergeSort (le key) = elements := by
    apply List.mergeSort_of_pairwise
    refine ordered.imp ?_
    intro first second below
    rw [le, below]
    rfl
  rw [canon, sorted, dedup_of_ordered ordered]

/-- Elements of distinct keys are all kept. -/
theorem canon_perm {elements : List α}
    (distinct : elements.Pairwise fun first second => compare (key first) (key second) ≠ .eq) :
    (canon key elements).Perm elements := by
  have sorted := List.pairwise_mergeSort (@le_trans _ _ _ key _) le_total elements
  have perm := List.mergeSort_perm elements (le key)
  have apart : (elements.mergeSort (le key)).Pairwise
      fun first second => compare (key first) (key second) ≠ .eq := by
    refine perm.symm.pairwise distinct ?_
    intro first second differ same
    exact differ (Std.OrientedCmp.eq_symm same)
  have ordered : Ordered key (elements.mergeSort (le key)) := by
    refine (sorted.and apart).imp ?_
    rintro first second ⟨atMost, differ⟩
    rw [le] at atMost
    cases held : compare (key first) (key second) <;> simp_all
  rw [canon, dedup_of_ordered ordered]
  exact perm

/-- A list in order is the only order of its elements. -/
theorem canon_of_perm {elements ordered : List α} (order : Ordered key ordered)
    (perm : elements.Perm ordered) : canon key elements = ordered := by
  have distinct : ordered.Pairwise fun first second => compare (key first) (key second) ≠ .eq :=
    order.imp fun below same => by rw [below] at same; contradiction
  have apart : elements.Pairwise fun first second => compare (key first) (key second) ≠ .eq :=
    perm.symm.pairwise distinct fun differ same => differ (Std.OrientedCmp.eq_symm same)
  have irreflexive : Std.Irrefl fun first second : α => compare (key first) (key second) = .lt :=
    ⟨fun element => by simp [Std.ReflCmp.compare_self]⟩
  have antisymmetric : Std.Antisymm fun first second : α =>
      compare (key first) (key second) = .lt :=
    ⟨fun first second one two => by
      rw [compare_swap, one] at two
      contradiction⟩
  refine List.Pairwise.eq_of_mem_iff (canon_ordered elements) order fun element => ?_
  rw [(canon_perm apart).mem_iff, perm.mem_iff]

/-! ### Keys that tell elements apart -/

omit [Std.TransOrd κ] in
theorem subset_dedupFrom (apart : ∀ {first second : α}, compare (key first) (key second) = .eq →
    first = second) (held : α) (rest : List α) : held :: rest ⊆ dedupFrom key held rest := by
  induction rest generalizing held with
  | nil => exact List.Subset.refl _
  | cons next rest ih =>
      intro element member
      rw [dedupFrom]
      split
      next same =>
        rw [apart same] at member ⊢
        apply ih
        simpa using member
      next =>
        rcases List.mem_cons.mp member with rfl | member
        · exact List.mem_cons_self
        · exact List.mem_cons_of_mem _ (ih next member)

omit [Std.TransOrd κ] in
theorem mem_canon (apart : ∀ {first second : α}, compare (key first) (key second) = .eq →
    first = second) {elements : List α} {element : α} :
    element ∈ canon key elements ↔ element ∈ elements := by
  constructor
  · intro member
    exact canon_subset elements member
  · intro member
    have sorted := (List.mergeSort_perm elements (le key)).mem_iff.mpr member
    rw [canon]
    cases held : elements.mergeSort (le key) with
    | nil => simp [held] at sorted
    | cons first rest => exact subset_dedupFrom apart first rest (held ▸ sorted)

/-- The same elements have the same order. -/
theorem canon_congr (apart : ∀ {first second : α}, compare (key first) (key second) = .eq →
    first = second) {first second : List α} (same : ∀ element, element ∈ first ↔ element ∈ second) :
    canon key first = canon key second := by
  have irreflexive : Std.Irrefl fun first second : α => compare (key first) (key second) = .lt :=
    ⟨fun element => by simp [Std.ReflCmp.compare_self]⟩
  have antisymmetric : Std.Antisymm fun first second : α =>
      compare (key first) (key second) = .lt :=
    ⟨fun first second one two => by
      rw [compare_swap, one] at two
      contradiction⟩
  refine List.Pairwise.eq_of_mem_iff (canon_ordered first) (canon_ordered second) fun element => ?_
  rw [mem_canon apart, mem_canon apart, same]

end Canonical
