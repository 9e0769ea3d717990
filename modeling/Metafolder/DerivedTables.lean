import Metafolder.Derived

/-!
# Sets and counts in tables

What the primitives on the derived tables do, key by key: an id joins or leaves one set, a count
grows or shrinks by one.  An empty set and a count of zero have no entry.
-/

namespace Metafolder

namespace Derived

/-! ### Sets -/

theorem readSet_writeSet (table : Table (Finset UInt32)) (key other : Bytes)
    (ids : Finset UInt32) :
    readSet (writeSet table key ids) other = if key = other then ids else readSet table other := by
  unfold writeSet readSet
  split
  next none_left =>
    rw [Table.get_delete]
    split <;> simp_all
  next =>
    rw [Table.get_put]
    split <;> rfl

theorem get_writeSet_of_ne (table : Table (Finset UInt32)) {key other : Bytes}
    (ids : Finset UInt32) (differ : key ≠ other) :
    (writeSet table key ids).get other = table.get other := by
  unfold writeSet
  split
  · rw [Table.get_delete_of_ne _ differ]
  · rw [Table.get_put_of_ne _ _ differ]

theorem get_writeSet_self {table : Table (Finset UInt32)} {key : Bytes} {ids held : Finset UInt32} :
    (writeSet table key ids).get key = some held ↔ ids = held ∧ ids ≠ ∅ := by
  unfold writeSet
  split
  next none_left => simp [none_left]
  next some_left => simp [some_left]

theorem mem_chunkMember {table : Table (Finset UInt32)} {key other : Bytes} {id held : UInt32}
    {member : Bool} : held ∈ readSet (chunkMember table key id member) other ↔
      if key = other ∧ held = id then member = true else held ∈ readSet table other := by
  rw [chunkMember, readSet_writeSet]
  by_cases same : key = other
  · subst same
    by_cases ids : held = id <;> cases member <;> simp [ids]
  · simp [same]

/-- An id joins or leaves one set after the other. -/
theorem mem_foldl_chunkMember {κ : Type} {encode : κ → Bytes} (injective : Function.Injective encode)
    (value : κ → Bool) (id : UInt32) (keys : List κ) (table : Table (Finset UInt32)) {key : κ}
    {held : UInt32} :
    held ∈ readSet (keys.foldl (fun held_table made =>
        chunkMember held_table (encode made) id (value made)) table) (encode key) ↔
      (held = id ∧ key ∈ keys ∧ value key = true) ∨
        ¬(held = id ∧ key ∈ keys) ∧ held ∈ readSet table (encode key) := by
  induction keys generalizing table with
  | nil => simp
  | cons head tail ih =>
      rw [List.foldl_cons, ih, mem_chunkMember, List.mem_cons]
      by_cases same : head = key
      · subst same
        by_cases ids : held = id <;> by_cases member : head ∈ tail <;> simp [ids, member]
      · by_cases ids : held = id <;> by_cases member : key ∈ tail <;>
          simp [ids, member, same, Ne.symm same, injective.eq_iff]

/-! ### Counts -/

/-- The entries of a table are the counts that are not zero. -/
def Tallies (table : Table Int64) (count : Bytes → Nat) : Prop :=
  ∀ key, ((table.get key).getD 0).toInt = count key ∧ ∀ ⦃n⦄, table.get key = some n → 0 < n

theorem tallies_empty : Tallies ∅ fun _ => 0 := by
  intro key
  simp

theorem Tallies.isSome {table : Table Int64} {count : Bytes → Nat} (tallies : Tallies table count)
    {key : Bytes} : (table.get key).isSome ↔ 0 < count key := by
  obtain ⟨counted, positive⟩ := tallies key
  cases found : table.get key with
  | none =>
      rw [found] at counted
      simp at counted ⊢
      omega
  | some held =>
      have some_held := Int64.lt_iff_toInt_lt.mp (positive found)
      rw [found] at counted
      simp at counted some_held ⊢
      omega

theorem Tallies.congr {table : Table Int64} {count other : Bytes → Nat}
    (tallies : Tallies table count) (same : ∀ key, count key = other key) : Tallies table other :=
  (funext same : count = other) ▸ tallies

/-- A count changes at one key, by the change asked. -/
theorem Tallies.bump {table bumped : Table Int64} {count : Bytes → Nat}
    (tallies : Tallies table count) {key : Bytes} {delta : Int64}
    (ran : bump table key delta = .ok bumped) {after : Bytes → Nat}
    (change : ∀ other, (after other : Int) =
      count other + if other = key then delta.toInt else 0) : Tallies bumped after := by
  simp only [Derived.bump, Except.bind_eq_ok, Except.pure_eq_ok] at ran
  obtain ⟨n, added, rfl⟩ := ran
  have sum := toInt_addInt64 added
  rw [(tallies key).1] at sum
  have at_key := change key
  rw [if_pos rfl, ← sum] at at_key
  intro other
  by_cases same : other = key
  · subst same
    split
    next small =>
      rw [Int64.le_iff_toInt_le, Int64.toInt_zero] at small
      simp only [Table.get_delete_self, Option.getD_none, Int64.toInt_zero]
      exact ⟨by omega, by simp⟩
    next large =>
      simp only [Table.get_put_self, Option.getD_some, Option.some.injEq]
      exact ⟨at_key.symm, fun held same => same ▸ Int64.not_le.mp large⟩
  · have unchanged := change other
    rw [if_neg same, Int.add_zero] at unchanged
    have kept : (if n ≤ 0 then table.delete key else table.put key n).get other =
        table.get other := by
      split
      · rw [Table.get_delete_of_ne _ (Ne.symm same)]
      · rw [Table.get_put_of_ne _ _ (Ne.symm same)]
    rw [kept, unchanged]
    exact tallies other

theorem tallies_bumpEach {keys : List Bytes} {table bumped : Table Int64} {count : Bytes → Nat}
    (tallies : Tallies table count)
    (ran : keys.foldlM (fun held key => bump held key 1) table = .ok bumped) :
    Tallies bumped fun key => count key + keys.count key := by
  induction keys generalizing table count with
  | nil =>
      rw [Except.foldlM_nil_eq_ok] at ran
      simpa [← ran] using tallies
  | cons head tail ih =>
      obtain ⟨middle, first, rest⟩ := Except.foldlM_cons_eq_ok.mp ran
      have one : Tallies middle fun key => count key + [head].count key := by
        refine tallies.bump first fun other => ?_
        rw [List.count_singleton]
        by_cases same : head = other
        · simp [same, show (1 : Int64).toInt = 1 from rfl]
        · simp [same, Ne.symm same]
      refine (ih one rest).congr fun key => ?_
      rw [Nat.add_assoc, ← List.count_append, List.singleton_append]

theorem tallies_unbumpEach {keys : List Bytes} {table bumped : Table Int64} {count : Bytes → Nat}
    (tallies : Tallies table fun key => count key + keys.count key)
    (ran : keys.foldlM (fun held key => bump held key (-1)) table = .ok bumped) :
    Tallies bumped count := by
  induction keys generalizing table with
  | nil =>
      rw [Except.foldlM_nil_eq_ok] at ran
      simpa [← ran] using tallies
  | cons head tail ih =>
      obtain ⟨middle, first, rest⟩ := Except.foldlM_cons_eq_ok.mp ran
      refine ih (tallies.bump first fun other => ?_) rest
      rw [List.count_cons]
      by_cases same : head = other
      · simp [same, show (-1 : Int64).toInt = -1 from rfl]
        omega
      · simp [same, Ne.symm same]

end Derived

end Metafolder
