import Metafolder.ByteCode
import Mathlib.Data.List.Perm.Basic
import Mathlib.Data.List.Nodup
import Std.Data.ExtTreeMap.Lemmas

/-!
# Ordered tables of byte strings

A table maps byte-string keys to values and is read in key order.  Equality of tables is equality
of their lookups, so a table is determined by what `get` answers.
-/

/-- An ordered map from byte strings. -/
structure Table (V : Type) where
  /-- The search tree of the entries. -/
  tree : Std.ExtTreeMap Bytes V compare

namespace Table

variable {V : Type}

/-- The table without entries. -/
def empty : Table V := ⟨∅⟩

instance : EmptyCollection (Table V) := ⟨empty⟩

instance : Inhabited (Table V) := ⟨∅⟩

/-- The value under a key. -/
def get (table : Table V) (key : Bytes) : Option V := table.tree[key]?

/-- Put a value under a key, replacing the one there. -/
def put (table : Table V) (key : Bytes) (value : V) : Table V := ⟨table.tree.insert key value⟩

/-- Remove a key, if it is there. -/
def delete (table : Table V) (key : Bytes) : Table V := ⟨table.tree.erase key⟩

/-- Every entry, in key order. -/
def entries (table : Table V) : List (Bytes × V) := table.tree.toList

/-- The entries whose key starts with `front`, in key order. -/
def prefixIter (table : Table V) (front : Bytes) : List (Bytes × V) :=
  table.entries.filter fun entry => front.isPrefixOf entry.1

@[ext]
theorem ext {first second : Table V} (same : ∀ key, first.get key = second.get key) :
    first = second := by
  obtain ⟨first⟩ := first
  obtain ⟨second⟩ := second
  congr 1
  exact Std.ExtTreeMap.ext_getElem? (fun {key} => same key)

@[simp]
theorem get_empty (key : Bytes) : (∅ : Table V).get key = none :=
  Std.ExtTreeMap.getElem?_empty

@[grind =]
theorem get_put (table : Table V) (key other : Bytes) (value : V) :
    (table.put key value).get other = if key = other then some value else table.get other := by
  simp only [get, put, Std.ExtTreeMap.getElem?_insert, Std.compare_eq_iff_eq]

@[grind =]
theorem get_delete (table : Table V) (key other : Bytes) :
    (table.delete key).get other = if key = other then none else table.get other := by
  simp only [get, delete, Std.ExtTreeMap.getElem?_erase, Std.compare_eq_iff_eq]

@[simp]
theorem get_put_self (table : Table V) (key : Bytes) (value : V) :
    (table.put key value).get key = some value := by
  simp [get_put]

@[simp]
theorem get_delete_self (table : Table V) (key : Bytes) : (table.delete key).get key = none := by
  simp [get_delete]

theorem get_put_of_ne (table : Table V) {key other : Bytes} (value : V) (differ : key ≠ other) :
    (table.put key value).get other = table.get other := by
  simp [get_put, differ]

theorem get_delete_of_ne (table : Table V) {key other : Bytes} (differ : key ≠ other) :
    (table.delete key).get other = table.get other := by
  simp [get_delete, differ]

theorem delete_of_get_eq_none (table : Table V) {key : Bytes} (absent : table.get key = none) :
    table.delete key = table := by
  ext other
  by_cases same : key = other
  · subst same
    simp [absent]
  · simp [get_delete, same]

/-! ### Entries -/

theorem mem_entries (table : Table V) (key : Bytes) (value : V) :
    (key, value) ∈ table.entries ↔ table.get key = some value :=
  Std.ExtTreeMap.mem_toList_iff_getElem?_eq_some

theorem mem_prefixIter (table : Table V) (front key : Bytes) (value : V) :
    (key, value) ∈ table.prefixIter front ↔ front <+: key ∧ table.get key = some value := by
  simp [prefixIter, mem_entries, and_comm]

theorem nodup_entries (table : Table V) : table.entries.Nodup := by
  have distinct : table.entries.Pairwise fun a b => ¬compare a.1 b.1 = .eq :=
    Std.ExtTreeMap.distinct_keys_toList
  refine distinct.imp ?_
  rintro first second differ rfl
  exact differ Std.ReflCmp.compare_self

theorem nodup_prefixIter (table : Table V) (front : Bytes) : (table.prefixIter front).Nodup :=
  table.nodup_entries.filter _

/-- Keys are met in increasing order. -/
theorem pairwise_entries (table : Table V) :
    table.entries.Pairwise fun first second => compare first.1 second.1 = .lt :=
  Std.ExtTreeMap.ordered_keys_toList

@[simp]
theorem entries_empty : (∅ : Table V).entries = [] := by
  apply List.eq_nil_iff_forall_not_mem.mpr
  rintro ⟨key, value⟩ member
  simp [mem_entries] at member

/-- A new key adds one entry. -/
theorem entries_put_perm (table : Table V) {key : Bytes} (value : V)
    (absent : table.get key = none) :
    (table.put key value).entries.Perm ((key, value) :: table.entries) := by
  have fresh : (key, value) ∉ table.entries := by simp [mem_entries, absent]
  have grown : ((key, value) :: table.entries).Nodup := List.nodup_cons.mpr ⟨fresh, nodup_entries _⟩
  refine (List.perm_ext_iff_of_nodup (nodup_entries _) grown).mpr ?_
  rintro ⟨other, held⟩
  simp only [mem_entries, get_put, List.mem_cons, Prod.mk.injEq]
  by_cases same : key = other
  · subst same
    simp [absent, eq_comm]
  · simp [same, Ne.symm same]

/-- Removing a key removes one entry. -/
theorem entries_delete_perm (table : Table V) {key : Bytes} {value : V}
    (present : table.get key = some value) :
    table.entries.Perm ((key, value) :: (table.delete key).entries) := by
  have restored : (table.delete key).put key value = table := by
    ext other
    by_cases same : key = other
    · subst same
      simp [present]
    · simp [get_put, get_delete, same]
  have grown := entries_put_perm (table.delete key) value (get_delete_self table key)
  rwa [restored] at grown

end Table
