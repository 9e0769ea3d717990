import Mathlib.Data.List.Infix
import Mathlib.Data.List.Induction

/-!
# Mounts and what they show

A mount shows a directory of a device at a point: what is at a path below the point is the object
at the same place below the directory.  The mount a path is seen through is the last of the deepest
above it.
-/

namespace MountViews

variable {α κ D : Type}

/-! ### The last of the greatest -/

/-- The larger of two, the later of equal ones. -/
def keepLarger (key : α → Nat) : Option α → α → Option α
  | none, item => some item
  | some best, item => if key best ≤ key item then some item else some best

/-- The last of the items with the greatest key. -/
def lastMax (key : α → Nat) (items : List α) : Option α := items.foldl (keepLarger key) none

/-- No item has a greater key, nor an equal one and a later rank. -/
def Greatest (key rank : α → Nat) (items : List α) (best : α) : Prop :=
  best ∈ items ∧ ∀ item ∈ items,
    key item < key best ∨ key item = key best ∧ rank item ≤ rank best

variable {key rank : α → Nat} {items : List α}

theorem lastMax_append (items : List α) (item : α) :
    lastMax key (items ++ [item]) = keepLarger key (lastMax key items) item :=
  List.foldl_append

theorem lastMax_eq_none : lastMax key items = none ↔ items = [] := by
  induction items using List.reverseRecOn with
  | nil => exact iff_of_true rfl rfl
  | append_singleton items item ih =>
      rw [lastMax_append]
      refine iff_of_false ?_ (by simp)
      cases lastMax key items with
      | none => nofun
      | some best =>
          rw [keepLarger]
          split <;> nofun

theorem greatest_of_lastMax (ordered : items.Pairwise fun first second => rank first < rank second)
    {best : α} (found : lastMax key items = some best) : Greatest key rank items best := by
  induction items using List.reverseRecOn generalizing best with
  | nil => cases found
  | append_singleton items item ih =>
      rw [lastMax_append] at found
      obtain ⟨before, -, after⟩ := List.pairwise_append.mp ordered
      have later (other : α) (member : other ∈ items) : rank other < rank item :=
        after other member item List.mem_cons_self
      cases held : lastMax key items with
      | none =>
          rw [held] at found
          obtain rfl := Option.some.inj found
          rw [lastMax_eq_none.mp held]
          refine ⟨List.mem_cons_self, fun other member => ?_⟩
          rw [List.mem_singleton.mp member]
          exact .inr ⟨rfl, le_rfl⟩
      | some kept =>
          rw [held, keepLarger] at found
          obtain ⟨listed, greatest⟩ := ih before held
          split at found
          · next larger =>
            obtain rfl := Option.some.inj found
            refine ⟨List.mem_append_right _ List.mem_cons_self, fun other member => ?_⟩
            cases List.mem_append.mp member with
            | inl older =>
                have known := greatest other older
                have order := later other older
                omega
            | inr same =>
                rw [List.mem_singleton.mp same]
                exact .inr ⟨rfl, le_rfl⟩
          · next smaller =>
            obtain rfl := Option.some.inj found
            refine ⟨List.mem_append_left _ listed, fun other member => ?_⟩
            cases List.mem_append.mp member with
            | inl older => exact greatest other older
            | inr same =>
                rw [List.mem_singleton.mp same]
                exact .inl (by omega)

/-- Among items in the order of their ranks there is one greatest at most. -/
theorem Greatest.unique (ordered : items.Pairwise fun first second => rank first < rank second)
    {first second : α} (one : Greatest key rank items first)
    (other : Greatest key rank items second) : first = second := by
  have forward := one.2 second other.1
  have backward := other.2 first one.1
  have same : rank first = rank second := by omega
  have told : items.Pairwise fun first second => rank first = rank second → first = second :=
    ordered.imp fun less equal => by omega
  have flipped : items.Pairwise (flip fun first second => rank first = rank second → first = second) :=
    ordered.imp fun less equal => by omega
  exact List.Pairwise.forall_of_forall_of_flip (fun _ _ _ => rfl) told flipped one.1 other.1 same

/-- The fold finds the greatest. -/
theorem lastMax_eq_some (ordered : items.Pairwise fun first second => rank first < rank second)
    {best : α} : lastMax key items = some best ↔ Greatest key rank items best := by
  constructor
  · exact greatest_of_lastMax ordered
  · intro greatest
    cases found : lastMax key items with
    | none =>
        rw [lastMax_eq_none.mp found] at greatest
        cases greatest.1
    | some other => rw [(greatest_of_lastMax ordered found).unique ordered greatest]

/-! ### Places and objects -/

/-- A directory of a device shown at a point. -/
structure Mount (κ D : Type) where
  device : D
  point : List κ
  root : List κ

/-- The object of the device at a path below the point. -/
def Mount.inner (mount : Mount κ D) (path : List κ) : List κ :=
  mount.root ++ path.drop mount.point.length

/-- A path at which a mount has an object: they are at one place below the point and the root. -/
def Mount.Places (mount : Mount κ D) (object path : List κ) : Prop :=
  ∃ rest, object = mount.root ++ rest ∧ path = mount.point ++ rest

namespace Mount

variable {mount : Mount κ D} {object path other : List κ}

theorem inner_append (mount : Mount κ D) (rest : List κ) :
    mount.inner (mount.point ++ rest) = mount.root ++ rest := by
  rw [inner, List.drop_left]

/-- A path below the point is where its object is. -/
theorem places_inner (below : mount.point <+: path) : mount.Places (mount.inner path) path := by
  obtain ⟨rest, rfl⟩ := below
  exact ⟨rest, mount.inner_append rest, rfl⟩

theorem Places.inner_eq (places : mount.Places object path) : mount.inner path = object := by
  obtain ⟨rest, rfl, rfl⟩ := places
  exact mount.inner_append rest

/-- A mount has an object at one path at most. -/
theorem Places.unique (places : mount.Places object path) (again : mount.Places object other) :
    path = other := by
  obtain ⟨rest, rfl, rfl⟩ := places
  obtain ⟨more, same, rfl⟩ := again
  rw [List.append_cancel_left same]

end Mount

end MountViews
