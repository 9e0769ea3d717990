import Mathlib.Data.Fintype.Card
import Mathlib.Logic.Relation
import Mathlib.Order.WellFounded

/-!
# Ancestry

A relation read as "is placed under": `up x y` says that `y` is directly above `x`.  Changing what
is above one node at a time keeps such a relation without cycles as long as no new place lies below
the node itself.
-/

namespace Ancestry

open Relation

variable {α : Type} {up after : α → α → Prop}

/-- No path up comes back to where it started. -/
def Acyclic (up : α → α → Prop) : Prop := ∀ x, ¬TransGen up x x

theorem Acyclic.mono (acyclic : Acyclic up) (within : ∀ ⦃x y⦄, after x y → up x y) :
    Acyclic after := fun x path => acyclic x (TransGen.mono within x x path)

/-- A path that can be closed to a cycle has no edge but those that can be. -/
theorem transGen_of_closing (closing : ∀ ⦃x y⦄, after x y → ReflTransGen after y x → up x y)
    {x y : α} (path : TransGen after x y) (back : ReflTransGen after y x) : TransGen up x y := by
  induction path with
  | single edge => exact .single (closing edge back)
  | tail path edge ih =>
      have whole := ih (back.head edge)
      exact whole.tail (closing edge (back.trans path.to_reflTransGen))

/-- The edges that could close a cycle were there, and closed none. -/
theorem Acyclic.of_closing (acyclic : Acyclic up)
    (closing : ∀ ⦃x y⦄, after x y → ReflTransGen after y x → up x y) : Acyclic after :=
  fun x path => acyclic x (transGen_of_closing closing path .refl)

/-- A path to a node that leaves it nowhere else: what is above the node itself plays no part. -/
theorem reflTransGen_of_off {target : α} (off : ∀ ⦃x y⦄, x ≠ target → up x y → after x y) {x : α}
    (path : ReflTransGen up x target) : ReflTransGen after x target := by
  induction path using ReflTransGen.head_induction_on with
  | refl => exact .refl
  | @head y z edge _ ih =>
      by_cases arrived : y = target
      · rw [arrived]
      · exact ih.head (off arrived edge)

/-- What one node is placed under changes: no cycle arises if no new place lies below it. -/
theorem Acyclic.replace (acyclic : Acyclic up) {node : α}
    (off : ∀ ⦃x y⦄, x ≠ node → (after x y ↔ up x y))
    (placed : ∀ ⦃y⦄, after node y → up node y ∨ ¬ReflTransGen up y node) : Acyclic after := by
  refine acyclic.of_closing fun x y edge back => ?_
  by_cases moved : x = node
  · subst moved
    refine (placed edge).resolve_right fun outside => outside ?_
    exact reflTransGen_of_off (fun _ _ other => (off other).mp) back
  · exact (off moved).mp edge

/-- What holds of a node and passes upwards holds of everything above it. -/
theorem of_reflTransGen {property : α → Prop} (passes : ∀ ⦃x y⦄, property x → up x y → property y)
    {x y : α} (path : ReflTransGen up x y) (start : property x) : property y := by
  induction path with
  | refl => exact start
  | tail _ edge ih => exact passes ih edge

/-- Going up ends: among finitely many nodes, without cycles. -/
theorem Acyclic.wellFounded [Finite α] (acyclic : Acyclic up) :
    WellFounded fun above below => up below above := by
  have irrefl : Std.Irrefl (TransGen fun above below => up below above) :=
    ⟨fun x path => acyclic x (transGen_swap.mp path)⟩
  have whole : WellFounded (TransGen fun above below => up below above) :=
    Finite.wellFounded_of_trans_of_irrefl _
  exact Subrelation.wf (fun edge => .single edge) whole

theorem acyclic_of_wellFounded (ends : WellFounded fun above below => up below above) :
    Acyclic up := fun x path => ends.transGen.irrefl.irrefl x (transGen_swap.mpr path)

/-! ### Lengths of paths -/

/-- A path up of so many edges. -/
def Climbs (up : α → α → Prop) : Nat → α → α → Prop
  | 0, x, y => x = y
  | n + 1, x, y => ∃ z, up x z ∧ Climbs up n z y

theorem Climbs.mono (within : ∀ ⦃x y⦄, up x y → after x y) {n : Nat} {x y : α}
    (path : Climbs up n x y) : Climbs after n x y := by
  induction n generalizing x with
  | zero => exact path
  | succ n ih =>
      obtain ⟨z, edge, rest⟩ := path
      exact ⟨z, within edge, ih rest⟩

theorem Climbs.append {m n : Nat} {x y z : α} (first : Climbs up m x y) (second : Climbs up n y z) :
    Climbs up (m + n) x z := by
  induction m generalizing x with
  | zero =>
      rw [Climbs] at first
      rw [first, Nat.zero_add]
      exact second
  | succ m ih =>
      obtain ⟨w, edge, rest⟩ := first
      rw [Nat.succ_add]
      exact ⟨w, edge, ih rest⟩

theorem Climbs.reflTransGen {n : Nat} {x y : α} (path : Climbs up n x y) :
    ReflTransGen up x y := by
  induction n generalizing x with
  | zero =>
      rw [Climbs] at path
      rw [path]
  | succ n ih =>
      obtain ⟨z, edge, rest⟩ := path
      exact (ih rest).head edge

theorem exists_climbs {x y : α} (path : TransGen up x y) : ∃ n, Climbs up (n + 1) x y := by
  induction path with
  | single edge => exact ⟨0, _, edge, rfl⟩
  | tail _ edge ih =>
      obtain ⟨n, climbs⟩ := ih
      exact ⟨n + 1, climbs.append (n := 1) ⟨_, edge, rfl⟩⟩

/-- A path of some length ends with an edge. -/
theorem Climbs.last {n : Nat} {x y : α} (path : Climbs up (n + 1) x y) : ∃ z, up z y := by
  induction n generalizing x with
  | zero =>
      obtain ⟨z, edge, arrived⟩ := path
      rw [Climbs] at arrived
      exact ⟨x, arrived ▸ edge⟩
  | succ n ih =>
      obtain ⟨z, -, rest⟩ := path
      exact ih rest

/-- Every path has fewer edges than `depth`: a node and all above it are at most `depth` nodes. -/
def Bounded (up : α → α → Prop) (depth : Nat) : Prop := ∀ ⦃n x y⦄, Climbs up n x y → n < depth

theorem Bounded.acyclic {depth : Nat} (bounded : Bounded up depth) : Acyclic up := by
  intro x path
  obtain ⟨n, climbs⟩ := exists_climbs path
  have rounds : ∀ m, Climbs up (m * (n + 1)) x x := by
    intro m
    induction m with
    | zero => simp [Climbs]
    | succ m ih =>
        rw [Nat.succ_mul]
        exact ih.append climbs
  have long := bounded (rounds depth)
  exact absurd (Nat.le_mul_of_pos_right depth (Nat.succ_pos n)) (Nat.not_le.mpr long)

/-- A path has an edge of a kind, or none of that kind. -/
theorem Climbs.cases_edge {n : Nat} {x y : α} (path : Climbs after n x y) :
    Climbs up n x y ∨ ∃ m k node above, n = m + 1 + k ∧ Climbs after m x node ∧
      after node above ∧ ¬up node above ∧ Climbs after k above y := by
  induction n generalizing x with
  | zero => exact .inl path
  | succ n ih =>
      obtain ⟨z, edge, rest⟩ := path
      by_cases kept : up x z
      · obtain whole | ⟨m, k, node, above, length, first, put, new, second⟩ := ih rest
        · exact .inl ⟨z, kept, whole⟩
        · exact .inr ⟨m + 1, k, node, above, by omega, ⟨z, edge, first⟩, put, new, second⟩
      · exact .inr ⟨0, n, x, z, by omega, rfl, edge, kept, rest⟩

/-- A path to a node, that leaves it nowhere else, is there whatever is above the node. -/
theorem Climbs.off {node : α} (off : ∀ ⦃x y⦄, x ≠ node → after x y → up x y) {n : Nat} {x y : α}
    (outside : ¬ReflTransGen up x node) (path : Climbs after n x y) : Climbs up n x y := by
  induction n generalizing x with
  | zero => exact path
  | succ n ih =>
      obtain ⟨z, edge, rest⟩ := path
      have other : x ≠ node := by
        rintro rfl
        exact outside .refl
      have kept := off other edge
      exact ⟨z, kept, ih (fun reached => outside (reached.head kept)) rest⟩

/-- What one node is placed under changes: a path uses one of its new places at most once. -/
theorem Climbs.cases_node {node : α} (off : ∀ ⦃x y⦄, x ≠ node → after x y → up x y) {n : Nat}
    {x y : α} (path : Climbs after n x y) :
    Climbs up n x y ∨ ∃ m k above, n = m + 1 + k ∧ Climbs up m x node ∧ after node above ∧
      ¬up node above ∧ Climbs after k above y := by
  induction n generalizing x with
  | zero => exact .inl path
  | succ n ih =>
      obtain ⟨z, edge, rest⟩ := path
      by_cases kept : up x z
      · obtain whole | ⟨m, k, above, length, first, put, new, second⟩ := ih rest
        · exact .inl ⟨z, kept, whole⟩
        · exact .inr ⟨m + 1, k, above, by omega, ⟨z, kept, first⟩, put, new, second⟩
      · have moved : x = node := by
          by_contra other
          exact kept (off other edge)
        subst moved
        exact .inr ⟨0, n, z, by omega, rfl, edge, kept, rest⟩

/-- The paths through a place put have fewer edges than `depth`. -/
def Room (up : α → α → Prop) (depth : Nat) (node above : α) : Prop :=
  ∀ ⦃m k x y⦄, Climbs up m x node → Climbs up k above y → m + 1 + k < depth

theorem Bounded.replace {depth : Nat} (bounded : Bounded up depth) {node : α}
    (off : ∀ ⦃x y⦄, x ≠ node → (after x y ↔ up x y))
    (placed : ∀ ⦃y⦄, after node y →
      up node y ∨ ¬ReflTransGen up y node ∧ Room up depth node y) : Bounded after depth := by
  intro n x y path
  obtain whole | ⟨m, k, above, rfl, first, put, new, second⟩ :=
    path.cases_node fun _ _ other => (off other).mp
  · exact bounded whole
  · obtain ⟨outside, room⟩ := (placed put).resolve_left new
    exact room first (second.off (fun _ _ other => (off other).mp) outside)

/-- One way leads up from a node. -/
def OneWay (up : α → α → Prop) (node : α) : Prop :=
  ∀ ⦃x y z⦄, ReflTransGen up node x → up x y → up x z → y = z

theorem OneWay.head {node above : α} (line : OneWay up node) (edge : up node above) :
    OneWay up above := fun _ _ _ path => line (path.head edge)

end Ancestry
