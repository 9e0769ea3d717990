import Metafolder.CutCodes
import Metafolder.Postings
import Metafolder.TextSearches

/-!
# Reads of a partition

`scan_part` reads a range of a partition entry by entry, and takes the posting of a value that has
one instead of the value's run.  As no value key is the front of another, passing a run passes no
other key.
-/

namespace Table

/-- An end of a range of keys. -/
inductive Bound
  | included (key : Bytes)
  | excluded (key : Bytes)
  | unbounded
deriving DecidableEq

namespace Bound

/-- The end moved behind a prefix. -/
def behind (front : Bytes) : Bound → Bound
  | included key => included (front ++ key)
  | excluded key => excluded (front ++ key)
  | unbounded => unbounded

/-- Whether a key is not before a lower end. -/
def starts : Bound → Bytes → Bool
  | included bound, key => (compare bound key).isLE
  | excluded bound, key => (compare bound key).isLT
  | unbounded, _ => true

/-- Whether a key is not past an upper end. -/
def stops : Bound → Bytes → Bool
  | included bound, key => (compare key bound).isLE
  | excluded bound, key => (compare key bound).isLT
  | unbounded, _ => true

end Bound

variable {V : Type}

/-- The entries between two ends, in the order of their keys. -/
def range (table : Table V) (lower upper : Bound) : List (Bytes × V) :=
  table.entries.filter fun entry => lower.starts entry.1 && upper.stops entry.1

theorem mem_range {table : Table V} {lower upper : Bound} {key : Bytes} {value : V} :
    (key, value) ∈ table.range lower upper ↔
      table.get key = some value ∧ lower.starts key = true ∧ upper.stops key = true := by
  rw [range, List.mem_filter, mem_entries, Bool.and_eq_true]

theorem pairwise_range (table : Table V) (lower upper : Bound) :
    (table.range lower upper).Pairwise fun first second => compare first.1 second.1 = .lt :=
  table.pairwise_entries.filter _

end Table

namespace ByteCode

/-- Where neither of two byte strings starts the other, what follows them decides nothing. -/
theorem compare_append_of_apart {one other : Bytes}
    (apart : ∀ rest tail, one ++ rest ≠ other ++ tail) (rest tail more further : Bytes) :
    compare (one ++ rest) (other ++ tail) = compare (one ++ more) (other ++ further) := by
  induction one generalizing other with
  | nil => exact absurd (List.append_nil other).symm (apart other [])
  | cons byte one ih =>
      cases other with
      | nil => exact absurd (List.append_nil (byte :: one)) (apart [] (byte :: one))
      | cons mark other =>
          simp only [List.cons_append, List.compare_cons_cons]
          by_cases same : byte = mark
          · subst same
            rw [Std.ReflOrd.compare_self, Ordering.eq_then, Ordering.eq_then]
            refine ih fun rest tail ends => apart rest tail ?_
            rw [List.cons_append, List.cons_append, ends]
          · have decided : compare byte mark ≠ .eq := fun equal =>
              same (Std.compare_eq_iff_eq.mp equal)
            cases ordered : compare byte mark with
            | eq => exact absurd ordered decided
            | lt => rfl
            | gt => rfl

/-- What lies between a byte string and one that it starts, it starts. -/
theorem prefix_of_between {front low high : Bytes} (from_front : (compare front low).isLE)
    (less : compare low high = .lt) (starts : front <+: high) : front <+: low := by
  induction front generalizing low high with
  | nil => exact List.nil_prefix
  | cons byte front ih =>
      obtain ⟨rest, rfl⟩ := starts
      cases low with
      | nil => simp at from_front
      | cons mark low =>
          rw [List.compare_cons_cons, Ordering.isLE_then_iff_or] at from_front
          rw [List.cons_append, List.compare_cons_cons, Ordering.then_eq_lt] at less
          have mark_eq : byte = mark := by
            rcases from_front with below | ⟨equal, -⟩
            · rcases less with above | ⟨equal, -⟩
              · exact absurd below (Std.OrientedCmp.not_lt_of_lt above)
              · exact (Std.compare_eq_iff_eq.mp equal).symm
            · exact Std.compare_eq_iff_eq.mp equal
          subst mark_eq
          rw [Std.ReflOrd.compare_self] at from_front less
          simp only [reduceCtorEq, true_and, false_or] at from_front less
          rw [List.cons_prefix_cons]
          exact ⟨rfl, ih from_front less (List.prefix_append _ _)⟩

/-- Bytes come before a longer run of the last byte. -/
theorem compare_replicate (bytes : Bytes) {width : Nat} (short : bytes.length < width) :
    compare bytes (List.replicate width 0xFF) = .lt := by
  induction bytes generalizing width with
  | nil =>
      cases width with
      | zero => simp at short
      | succ width => rfl
  | cons byte bytes ih =>
      cases width with
      | zero => simp at short
      | succ width =>
          rw [List.replicate_succ, List.compare_cons_cons, Ordering.then_eq_lt]
          have bounded : byte.toNat ≤ 255 := Nat.le_of_lt_succ byte.toNat_lt
          by_cases last : byte = 0xFF
          · subst last
            exact .inr ⟨Std.ReflOrd.compare_self, ih (Nat.lt_of_succ_lt_succ short)⟩
          · refine .inl (Std.compare_eq_lt.mpr (UInt8.lt_iff_toNat_lt.mpr ?_))
            refine Nat.lt_of_le_of_ne bounded fun equal => last (UInt8.toNat_inj.mp equal)

end ByteCode

namespace Metafolder

open Table (Bound)

/-! ### The reads -/

/-- `ID_MAX`: past every id that may follow a key. -/
def idMax : Bytes := [0xFF, 0xFF, 0xFF, 0xFF, 0xFF]

namespace KvSource

/-- `posting`: the posting of a value key. -/
def posting (tx : KvTxn) (field : String) (key : Bytes) : Option (Finset UInt32) :=
  tx.derived.sets.get (postingPrefix field key)

/-- `posted`: the value keys of a field that have a posting. -/
def posted (tx : KvTxn) (field : String) : List Bytes :=
  let front := postingsKind :: nameKey field
  (tx.derived.sets.prefixIter front).map fun entry => entry.1.drop front.length

/-- The loop of `scan_part` over the entries of its range.  Where it took a posting, it resumes past
the run of the value: the entries up to there are passed. -/
def scanEntries (tx : KvTxn) (field : String) (front : Bytes) (keep : Bytes → Bool)
    (posted : List Bytes) : Option Bytes → List (Bytes × Int64) → Finset UInt32
  | _, [] => ∅
  | passed, entry :: entries =>
      if passed.any fun bound => (compare entry.1 bound).isLE then
        scanEntries tx field front keep posted passed entries
      else if !front.isPrefixOf entry.1 then ∅
      else
        let rest := entry.1.drop front.length
        let key := rest.take (rest.length - 4)
        if key ∈ posted then
          (if keep key then (posting tx field key).getD ∅ else ∅) ∪
            scanEntries tx field front keep posted (some (front ++ key ++ idMax)) entries
        else
          (if keep key then {dense (rest.drop (rest.length - 4))} else ∅) ∪
            scanEntries tx field front keep posted passed entries

/-- `scan_part`: the ids of the entries of a partition between two ends whose key is kept. -/
def scanPart (tx : KvTxn) (field : String) (part : UInt8) (lower upper : Bound)
    (keep : Bytes → Bool) (posted : List Bytes) : Finset UInt32 :=
  let front := partPrefix field part
  let lower : Bound := match lower with
    | .unbounded => .included front
    | bound => bound.behind front
  scanEntries tx field front keep posted none
    (tx.derived.parts.range lower (upper.behind front))

/-- `part_ids`: a range of a partition, the postings of the value partition taken whole. -/
def partIds (tx : KvTxn) (field : String) (part : UInt8) (lower upper : Bound)
    (keep : Bytes → Bool) : Finset UInt32 :=
  scanPart tx field part lower upper keep (if part = valuePart then posted tx field else [])

/-- `bucket`: the ids holding exactly a key in a partition, from its posting where it has one. -/
def bucket (tx : KvTxn) (field : String) (part : UInt8) (key : Bytes) : Finset UInt32 :=
  match if part = valuePart then posting tx field key else none with
  | some ids => ids
  | none =>
      scanPart tx field part (.included key) (.excluded (key ++ idMax)) (fun held => held = key) []

/-- `all_but`: the ids holding another key in a partition. -/
def allBut (tx : KvTxn) (field : String) (part : UInt8) (key : Option Bytes) : Finset UInt32 :=
  partIds tx field part .unbounded .unbounded fun held => some held ≠ key

/-! ### What they find -/

/-- An id has an entry under a key of a partition. -/
def Held (tx : KvTxn) (field : String) (part : UInt8) (key : Bytes) (id : UInt32) : Prop :=
  (tx.derived.parts.get (partKey field part key id)).isSome

variable [Externals] {tx : KvTxn} {field : String} {part : UInt8} {id : UInt32}

omit [Externals] in
theorem isPrefixOf_partKey (key : Bytes) :
    (partPrefix field part).isPrefixOf (partKey field part key id) = true := by
  rw [List.isPrefixOf_iff_prefix, partKey, List.append_assoc]
  exact List.prefix_append _ _

omit [Externals] in
/-- An entry is read as the key and the id it was written for. -/
theorem read_partKey (key : Bytes) :
    let rest := (partKey field part key id).drop (partPrefix field part).length
    rest.take (rest.length - 4) = key ∧ dense (rest.drop (rest.length - 4)) = id := by
  dsimp only
  rw [partKey, List.append_assoc, List.drop_left, List.length_append, length_be32,
    Nat.add_sub_cancel, List.take_left, List.drop_left]
  exact ⟨rfl, by simpa using dense_be32 id []⟩

/-- What a partition's prefix starts is an entry of the partition. -/
theorem entry_of_prefix (whole : tx.Exact) {entry : Bytes} {count : Int64}
    (found : tx.derived.parts.get entry = some count)
    (front : (partPrefix field part).isPrefixOf entry = true) :
    ∃ key id, entry = partKey field part key id ∧ Held tx field part key id ∧
      (part = valuePart → ∃ value, valueKey value = some key) := by
  obtain ⟨id, row, listed⟩ := whole.keyed found
  have here : ∀ {other : UInt8} {key : Bytes}, entry = partKey row.name other key id →
      field = row.name ∧ part = other := by
    rintro other key rfl
    obtain ⟨rest, same⟩ := List.isPrefixOf_iff_prefix.mp front
    simp only [partKey, partPrefix, List.append_assoc] at same
    obtain ⟨fields, parts⟩ := nameKey_append_inj same
    rw [List.singleton_append, List.singleton_append, List.cons.injEq] at parts
    exact ⟨fields, parts.1⟩
  have held : ∀ {key : Bytes}, entry = partKey field part key id → Held tx field part key id := by
    rintro key rfl
    exact Option.isSome_of_eq_some found
  rcases Derived.mem_partKeys.mp listed with ⟨key, of_row, same⟩ | ⟨key, -, same⟩ |
    ⟨target, -, same⟩
  · obtain ⟨rfl, rfl⟩ := here same
    exact ⟨key, id, same, held same, fun _ => ⟨row.value, of_row⟩⟩
  · obtain ⟨rfl, rfl⟩ := here same
    exact ⟨key, id, same, held same, fun absurd_part => absurd absurd_part (by decide)⟩
  · obtain ⟨rfl, rfl⟩ := here same
    exact ⟨_, id, same, held same, fun absurd_part => absurd absurd_part (by decide)⟩

/-- The posting of a value is its holders. -/
theorem mem_posting (whole : tx.Exact) {value : Value} {key : Bytes}
    (of_value : valueKey value = some key) {ids : Finset UInt32}
    (found : posting tx field key = some ids) : id ∈ ids ↔ Held tx field valuePart key id := by
  have held : Derived.readSet tx.derived.sets (postingPrefix field key) = ids := by
    rw [Derived.readSet, show tx.derived.sets.get (postingPrefix field key) = some ids from found,
      Option.getD_some]
  rcases @whole.posted field value key of_value with ⟨empty, -⟩ | same
  · exact absurd (held.symm.trans empty) (whole.derives.set_keyed found).1
  · rw [← held, same]
    exact Derived.mem_valueHolders whole.keyed of_value

/-- What a scan finds has an entry under a key it keeps. -/
theorem held_of_mem_scanEntries (whole : tx.Exact) {keep : Bytes → Bool} {posted : List Bytes}
    (of_values : posted ≠ [] → part = valuePart) {entries : List (Bytes × Int64)}
    (listed : ∀ entry ∈ entries, tx.derived.parts.get entry.1 = some entry.2)
    {passed : Option Bytes}
    (found : id ∈ scanEntries tx field (partPrefix field part) keep posted passed entries) :
    ∃ key, keep key = true ∧ Held tx field part key id := by
  induction entries generalizing passed with
  | nil => exact absurd found (Finset.notMem_empty id)
  | cons entry entries ih =>
      have later := fun passed =>
        @ih (fun other member => listed other (List.mem_cons_of_mem _ member)) passed
      unfold scanEntries at found
      split at found
      · exact later _ found
      · split at found
        · exact absurd found (Finset.notMem_empty id)
        next front =>
          rw [Bool.not_eq_true', Bool.not_eq_false] at front
          obtain ⟨key, held, same, has, keys⟩ :=
            entry_of_prefix whole (listed entry List.mem_cons_self) front
          obtain ⟨key_eq, id_eq⟩ := @read_partKey field part held key
          rw [← same] at key_eq id_eq
          dsimp only at found
          rw [key_eq, id_eq] at found
          split at found
          next member =>
            rcases Finset.mem_union.mp found with here | there
            · split at here
              next kept =>
                obtain rfl := of_values (List.ne_nil_of_mem member)
                obtain ⟨value, of_value⟩ := keys rfl
                cases posted_eq : posting tx field key with
                | none =>
                    rw [posted_eq] at here
                    exact absurd here (Finset.notMem_empty id)
                | some ids =>
                    rw [posted_eq] at here
                    exact ⟨key, kept, (mem_posting whole of_value posted_eq).mp here⟩
              next => exact absurd here (Finset.notMem_empty id)
            · exact later _ there
          next =>
            rcases Finset.mem_union.mp found with here | there
            · split at here
              next kept =>
                rw [Finset.mem_singleton] at here
                exact ⟨key, kept, here ▸ has⟩
              next => exact absurd here (Finset.notMem_empty id)
            · exact later _ there

/-- A value's run is passed with nothing of another value. -/
theorem past_run {first second : Value} {key other : Bytes} (of_first : valueKey first = some key)
    (of_second : valueKey second = some other) (differ : key ≠ other) {held next : UInt32}
    (after : compare (partKey field valuePart key held) (partKey field valuePart other next) =
      .lt) :
    compare (partPrefix field valuePart ++ key ++ idMax) (partKey field valuePart other next) =
      .lt := by
  have apart : ∀ rest tail, key ++ rest ≠ other ++ tail := fun rest tail same =>
    differ (valueKey_append_inj of_first of_second same).1
  rw [partKey, partKey, List.append_assoc, List.append_assoc, ByteCode.compare_append_left] at after
  rw [partKey, List.append_assoc, List.append_assoc, ByteCode.compare_append_left,
    ByteCode.compare_append_of_apart apart idMax (be32 next) (be32 held) (be32 next)]
  exact after

/-- A scan finds every entry of its range whose key it keeps. -/
theorem mem_scanEntries (whole : tx.Exact) {keep : Bytes → Bool} {posted : List Bytes}
    (of_values : posted ≠ [] → part = valuePart)
    (have_postings : ∀ key ∈ posted, (posting tx field key).isSome)
    {entries : List (Bytes × Int64)}
    (listed : ∀ entry ∈ entries, tx.derived.parts.get entry.1 = some entry.2)
    (sorted : entries.Pairwise fun first second => compare first.1 second.1 = .lt)
    (starts : ∀ entry ∈ entries, (compare (partPrefix field part) entry.1).isLE)
    {passed : Option Bytes} {key : Bytes} {count : Int64}
    (member : (partKey field part key id, count) ∈ entries) (kept : keep key = true)
    (ahead : ∀ bound ∈ passed, compare bound (partKey field part key id) = .lt) :
    id ∈ scanEntries tx field (partPrefix field part) keep posted passed entries := by
  induction entries generalizing passed with
  | nil => exact absurd member List.not_mem_nil
  | cons entry entries ih =>
      obtain ⟨first_lt, sorted⟩ := List.pairwise_cons.mp sorted
      have later := fun (passed : Option Bytes)
          (member : (partKey field part key id, count) ∈ entries) =>
        @ih (fun other member => listed other (List.mem_cons_of_mem _ member)) sorted
          (fun other member => starts other (List.mem_cons_of_mem _ member)) passed member
      have here_or := List.mem_cons.mp member
      unfold scanEntries
      split
      next skipped =>
        -- The entry is passed, and what is looked for is not.
        rcases here_or with rfl | there
        · rw [Option.any_eq_true] at skipped
          obtain ⟨bound, bound_eq, before⟩ := skipped
          exact absurd before (Std.OrientedCmp.not_isLE_of_lt (ahead bound bound_eq))
        · exact later passed there ahead
      next =>
        split
        next foreign =>
          -- An entry of another partition is past all of this one.
          rw [Bool.not_eq_true', ← Bool.not_eq_true, List.isPrefixOf_iff_prefix] at foreign
          rcases here_or with rfl | there
          · exact absurd (List.isPrefixOf_iff_prefix.mp (isPrefixOf_partKey key)) foreign
          · have less := first_lt _ there
            have from_front := starts entry List.mem_cons_self
            exact absurd (ByteCode.prefix_of_between from_front less
              (List.isPrefixOf_iff_prefix.mp (isPrefixOf_partKey key))) foreign
        next front =>
          rw [Bool.not_eq_true', Bool.not_eq_false] at front
          obtain ⟨first, held, same, has, keys⟩ :=
            entry_of_prefix whole (listed entry List.mem_cons_self) front
          obtain ⟨key_eq, id_eq⟩ := @read_partKey field part held first
          rw [← same] at key_eq id_eq
          dsimp only
          rw [key_eq, id_eq]
          have looked_for : (partKey field part key id, count) = entry →
              first = key ∧ held = id := by
            rintro rfl
            have parts := partKey_inj.mp same
            exact ⟨parts.2.2.1.symm, parts.2.2.2.symm⟩
          split
          next with_posting =>
            obtain rfl := of_values (List.ne_nil_of_mem with_posting)
            obtain ⟨value, of_value⟩ := keys rfl
            rw [Finset.mem_union]
            by_cases equal : first = key
            · subst equal
              refine .inl ?_
              rw [if_pos kept]
              obtain ⟨ids, found⟩ := Option.isSome_iff_exists.mp (have_postings first with_posting)
              rw [found, Option.getD_some, mem_posting whole of_value found]
              exact Option.isSome_of_eq_some (listed _ member)
            · refine .inr ?_
              rcases here_or with there | there
              · exact absurd (looked_for there).1 equal
              · refine later _ there fun bound bound_eq => ?_
                obtain rfl := Option.some.inj bound_eq
                obtain ⟨other, of_other⟩ : ∃ other, valueKey other = some key := by
                  obtain ⟨found, held, parts, -, values⟩ := entry_of_prefix whole
                    (listed _ member) (isPrefixOf_partKey key)
                  obtain ⟨-, -, rfl, -⟩ := partKey_inj.mp parts
                  exact values rfl
                have less := first_lt _ there
                rw [same] at less
                exact past_run of_value of_other equal less
          next =>
            rw [Finset.mem_union]
            rcases here_or with there | there
            · obtain ⟨rfl, rfl⟩ := looked_for there
              rw [if_pos kept]
              exact .inl (Finset.mem_singleton_self _)
            · exact .inr (later passed there ahead)

omit [Externals] in
/-- The entries of a scan are those of the partitions, in order, from the partition's prefix on. -/
theorem range_spec (lower upper : Bound) {front : Bytes}
    (from_front : ∀ key, lower.starts key = true → (compare front key).isLE) :
    (∀ entry ∈ tx.derived.parts.range lower upper,
      tx.derived.parts.get entry.1 = some entry.2) ∧
    ((tx.derived.parts.range lower upper).Pairwise fun first second =>
      compare first.1 second.1 = .lt) ∧
    ∀ entry ∈ tx.derived.parts.range lower upper, (compare front entry.1).isLE :=
  ⟨fun _ member => (Table.mem_range.mp member).1, Table.pairwise_range _ _ _,
    fun _ member => from_front _ (Table.mem_range.mp member).2.1⟩

/-- The ids holding exactly a key. -/
theorem mem_scan_run (whole : tx.Exact) (key : Bytes) :
    id ∈ scanPart tx field part (.included key) (.excluded (key ++ idMax))
      (fun held => held = key) [] ↔ Held tx field part key id := by
  have from_front : ∀ other, (Bound.included (partPrefix field part ++ key)).starts other = true →
      (compare (partPrefix field part) other).isLE := by
    intro other starts
    refine Std.TransCmp.isLE_trans ?_ starts
    have front := ByteCode.compare_append_left (partPrefix field part) [] key
    rw [List.append_nil] at front
    rw [front]
    cases key <;> rfl
  obtain ⟨listed, sorted, starts⟩ := @range_spec tx _
    (.excluded (partPrefix field part ++ (key ++ idMax))) _ from_front
  constructor
  · intro found
    obtain ⟨other, kept, held⟩ := held_of_mem_scanEntries whole (by simp) listed found
    exact of_decide_eq_true kept ▸ held
  · intro held
    obtain ⟨count, found⟩ := Option.isSome_iff_exists.mp held
    refine mem_scanEntries whole (by simp) (by simp) listed sorted starts
      (Table.mem_range.mpr ⟨found, ?_, ?_⟩) (decide_eq_true rfl) (by simp)
    · change (compare (partPrefix field part ++ key) (partPrefix field part ++ key ++ be32 id)).isLE
      have after := ByteCode.compare_append_left (partPrefix field part ++ key) [] (be32 id)
      rw [List.append_nil] at after
      rw [after]
      rfl
    · change (compare (partPrefix field part ++ key ++ be32 id)
        (partPrefix field part ++ (key ++ idMax))).isLT
      rw [← List.append_assoc, ByteCode.compare_append_left]
      have short := ByteCode.compare_replicate (be32 id) (by rw [length_be32]; decide : _ < 5)
      exact Ordering.isLT_iff_eq_lt.mpr short

/-- The bucket of a value is its holders, whether it has a posting or not. -/
theorem mem_bucket (whole : tx.Exact) {value : Value} {key : Bytes}
    (of_value : valueKey value = some key) :
    id ∈ bucket tx field valuePart key ↔ Held tx field valuePart key id := by
  unfold bucket
  rw [if_pos rfl]
  split
  next ids found => exact mem_posting whole of_value found
  next => exact mem_scan_run whole key

theorem mem_bucket_name (whole : tx.Exact) (key : Bytes) :
    id ∈ bucket tx field namePart key ↔ Held tx field namePart key id := by
  unfold bucket
  rw [if_neg (by decide)]
  exact mem_scan_run whole key

/-- Past every key but one stand the ids holding another. -/
theorem mem_allBut (whole : tx.Exact) (key : Option Bytes) :
    id ∈ allBut tx field part key ↔
      ∃ other, some other ≠ key ∧ Held tx field part other id := by
  have from_front : ∀ other, (Bound.included (partPrefix field part)).starts other = true →
      (compare (partPrefix field part) other).isLE := fun _ starts => starts
  obtain ⟨listed, sorted, starts⟩ := @range_spec tx _ .unbounded _ from_front
  have of_values : (if part = valuePart then posted tx field else []) ≠ [] → part = valuePart := by
    intro some_posted
    by_contra other
    exact some_posted (if_neg other)
  have have_postings : ∀ other ∈ (if part = valuePart then posted tx field else []),
      (posting tx field other).isSome := by
    intro other member
    split at member
    · simp only [posted, List.mem_map, Prod.exists, Table.mem_prefixIter] at member
      obtain ⟨entry, ids, ⟨⟨rest, rfl⟩, found⟩, rfl⟩ := member
      rw [List.drop_left]
      exact Option.isSome_of_eq_some found
    · exact absurd member List.not_mem_nil
  constructor
  · intro found
    obtain ⟨other, kept, held⟩ := held_of_mem_scanEntries whole of_values listed found
    exact ⟨other, of_decide_eq_true kept, held⟩
  · rintro ⟨other, differ, held⟩
    obtain ⟨count, found⟩ := Option.isSome_iff_exists.mp held
    refine mem_scanEntries whole of_values have_postings listed sorted starts
      (Table.mem_range.mpr ⟨found, ?_, rfl⟩) (decide_eq_true differ) (by simp)
    change (compare (partPrefix field part) (partPrefix field part ++ other ++ be32 id)).isLE
    have after := ByteCode.compare_append_left (partPrefix field part) [] (other ++ be32 id)
    rw [List.append_nil] at after
    rw [List.append_assoc, after]
    cases ends : other ++ be32 id <;> rfl

end KvSource

end Metafolder
