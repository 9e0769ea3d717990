import Metafolder.Table

/-!
# Indexes of rows

A table indexes rows when its keys are those the live rows give.  A row that comes puts its keys, a
row that goes takes them along, as long as no other row gives one of them.
-/

namespace Table

variable {V α : Type}

/-- The keys of a table are those of the live rows. -/
def Indexes (table : Table V) (live : α → Prop) (keys : α → List Bytes) : Prop :=
  ∀ key, (table.get key).isSome ↔ ∃ row, live row ∧ key ∈ keys row

variable {table after : Table V} {live left : α → Prop} {keys : α → List Bytes} {row : α}

theorem indexes_empty (keys : α → List Bytes) (none_live : ∀ row, ¬live row) :
    Indexes (∅ : Table V) live keys := by
  intro key
  simp [none_live]

theorem Indexes.congr (indexes : Indexes table live keys) (same : ∀ row, left row ↔ live row) :
    Indexes table left keys := by
  intro key
  rw [indexes key]
  simp only [same]

/-- A row comes. -/
theorem Indexes.grow (indexes : Indexes table live keys)
    (put : ∀ key, (after.get key).isSome ↔ key ∈ keys row ∨ (table.get key).isSome)
    (live_iff : ∀ other, left other ↔ other = row ∨ live other) : Indexes after left keys := by
  intro key
  simp only [put, indexes key, live_iff, or_and_right, exists_or, exists_eq_left]

/-- A row goes. -/
theorem Indexes.shrink (indexes : Indexes table live keys) (taken : List Bytes)
    (gone : ∀ key, (after.get key).isSome ↔ (table.get key).isSome ∧ key ∉ taken)
    (own : keys row ⊆ taken)
    (apart : ∀ other, live other → other ≠ row → ∀ key ∈ keys other, key ∉ taken)
    (live_iff : ∀ other, left other ↔ live other ∧ other ≠ row) : Indexes after left keys := by
  intro key
  rw [gone, indexes key]
  constructor
  · rintro ⟨⟨other, there, member⟩, outside⟩
    refine ⟨other, (live_iff other).mpr ⟨there, ?_⟩, member⟩
    rintro rfl
    exact outside (own member)
  · rintro ⟨other, there, member⟩
    obtain ⟨there, differ⟩ := (live_iff other).mp there
    exact ⟨⟨other, there, member⟩, apart other there differ key member⟩

theorem isSome_put (table : Table V) (key other : Bytes) (value : V) :
    ((table.put key value).get other).isSome ↔ other ∈ [key] ∨ (table.get other).isSome := by
  rw [get_put, List.mem_singleton]
  split
  next same => simp [same]
  next differ => simp [Ne.symm differ]

theorem isSome_delete (table : Table V) (key other : Bytes) :
    ((table.delete key).get other).isSome ↔ (table.get other).isSome ∧ other ∉ [key] := by
  rw [get_delete, List.mem_singleton]
  split
  next same => simp [same]
  next differ => simp [Ne.symm differ]

/-- Nothing is indexed under a front that no key of a live row has. -/
theorem Indexes.prefixIter_eq_nil (indexes : Indexes table live keys) {front : Bytes} :
    table.prefixIter front = [] ↔ ∀ row, live row → ∀ key ∈ keys row, ¬front <+: key := by
  constructor
  · intro nothing row there key member starts
    obtain ⟨value, found⟩ := Option.isSome_iff_exists.mp ((indexes key).mpr ⟨row, there, member⟩)
    exact List.ne_nil_of_mem ((mem_prefixIter ..).mpr ⟨starts, found⟩) nothing
  · intro outside
    refine List.eq_nil_iff_forall_not_mem.mpr ?_
    rintro ⟨key, value⟩ member
    obtain ⟨starts, found⟩ := (mem_prefixIter ..).mp member
    obtain ⟨row, there, listed⟩ := (indexes key).mp (Option.isSome_of_mem found)
    exact outside row there key listed starts

end Table
