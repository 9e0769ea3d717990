import Metafolder.KeyScans
import Metafolder.Trim

/-!
# The newest operation at or before a time

The ids of a log are searched by halving an interval of them.  A trim or a prune leaves gaps, so a
probe reads the first operation at or past the middle, which may be past the interval's end.
-/

namespace Metafolder

namespace Log

/-- One turn of `last_op_at_or_before`'s loop. -/
def probe (log : Log) (time lo hi : Int64) : Outcome (Int64 × Int64) := do
  let mid := lo + (hi - lo + 1) / 2
  let entry ← context (log.ops.range (.included (be mid)) .unbounded).head? "an operation past mid"
  let id := fromBe entry.1
  pure (if id ≤ hi ∧ entry.2.timestamp ≤ time then (id, hi) else (lo, mid - 1))

/-- `last_op_at_or_before`, its loop, or `none` when it takes more turns than are given. -/
def search (log : Log) (time : Int64) : Nat → Int64 → Int64 → Option (Outcome (Option Int64))
  | 0, _, _ => none
  | turns + 1, lo, hi =>
      if lo < hi then
        match log.probe time lo hi with
        | .ok (lo, hi) => search log time turns lo hi
        | .error failure => some (.error failure)
      else some (pure (some lo))

/-- `last_op_at_or_before`: the newest operation written at or before a time. -/
def lastOpAtOrBefore (log : Log) (time : Int64) (turns : Nat) : Option (Outcome (Option Int64)) :=
  match log.ops.entries.head? with
  | none => some (pure none)
  | some (first, oldest) =>
      if time < oldest.timestamp then some (pure none)
      else
        match log.ops.entries.getLast? with
        | none => some (pure none)
        | some (last, newest) =>
            if newest.timestamp ≤ time then some (pure (some (fromBe last)))
            else log.search time turns (fromBe first) (fromBe last)

/-- The operations are under their ids, which are positive. -/
def Keyed (log : Log) : Prop :=
  ∀ ⦃key row⦄, log.ops.get key = some row → key = be row.id ∧ 0 < row.id

/-- Timestamps do not decrease with the ids. -/
def Chronological (log : Log) : Prop :=
  ∀ ⦃one other⦄, log.Live one → log.Live other → one.id ≤ other.id → one.timestamp ≤ other.timestamp

/-- An id is that of the newest operation at or before a time. -/
def Newest (log : Log) (time id : Int64) : Prop :=
  (∃ row, log.Live row ∧ row.id = id ∧ row.timestamp ≤ time) ∧
    ∀ ⦃other⦄, log.Live other → other.timestamp ≤ time → other.id ≤ id

variable {log : Log} {time lo hi : Int64}

theorem Newest.unique {one other : Int64} (first : log.Newest time one)
    (second : log.Newest time other) : one = other := by
  obtain ⟨row, live, rfl, early⟩ := first.1
  obtain ⟨held, live_held, rfl, early_held⟩ := second.1
  exact Int64.le_antisymm (second.2 live early) (first.2 live_held early_held)

theorem Keyed.mem_entries (keyed : log.Keyed) {key : Bytes} {row : OpRow} :
    (key, row) ∈ log.ops.entries ↔ log.Live row ∧ key = be row.id := by
  rw [Table.mem_entries]
  constructor
  · intro found
    obtain ⟨rfl, -⟩ := keyed found
    exact ⟨found, rfl⟩
  · rintro ⟨live, rfl⟩
    exact live

theorem fromBe_be_self (id : Int64) : fromBe (be id) = id := by
  have read := fromBe_be id []
  rwa [List.append_nil] at read

theorem Keyed.pos (keyed : log.Keyed) {row : OpRow} (live : log.Live row) : 0 < row.id :=
  (keyed live).2

/-- The entries are in the order of the ids. -/
theorem Keyed.pairwise (keyed : log.Keyed) :
    log.ops.entries.Pairwise fun one other => one.2.id < other.2.id := by
  refine log.ops.pairwise_entries.imp_of_mem ?_
  rintro ⟨first, older⟩ ⟨second, newer⟩ one two before
  obtain ⟨live_older, rfl⟩ := keyed.mem_entries.mp one
  obtain ⟨live_newer, rfl⟩ := keyed.mem_entries.mp two
  exact (compare_be (keyed.pos live_older) (keyed.pos live_newer)).mp before

theorem Keyed.head_entries (keyed : log.Keyed) {key : Bytes} {oldest : OpRow}
    (head : log.ops.entries.head? = some (key, oldest)) :
    log.Live oldest ∧ key = be oldest.id ∧ ∀ ⦃row⦄, log.Live row → oldest.id ≤ row.id := by
  obtain ⟨rest, entries⟩ := List.head?_eq_some_iff.mp head
  obtain ⟨live, keys⟩ := keyed.mem_entries.mp (List.mem_of_head? head)
  refine ⟨live, keys, fun row there => ?_⟩
  have listed := keyed.mem_entries.mpr ⟨there, rfl⟩
  have ordered := keyed.pairwise
  rw [entries] at listed ordered
  rcases List.mem_cons.mp listed with same | later
  · rw [(Prod.mk.inj same).2]
    exact Int64.le_refl _
  · exact Int64.le_of_lt ((List.pairwise_cons.mp ordered).1 _ later)

theorem Keyed.getLast_entries (keyed : log.Keyed) {key : Bytes} {newest : OpRow}
    (final : log.ops.entries.getLast? = some (key, newest)) :
    log.Live newest ∧ key = be newest.id ∧ ∀ ⦃row⦄, log.Live row → row.id ≤ newest.id := by
  obtain ⟨front, entries⟩ := List.getLast?_eq_some_iff.mp final
  obtain ⟨live, keys⟩ := keyed.mem_entries.mp (List.mem_of_getLast? final)
  refine ⟨live, keys, fun row there => ?_⟩
  have listed := keyed.mem_entries.mpr ⟨there, rfl⟩
  have ordered := keyed.pairwise
  rw [entries] at listed ordered
  rcases List.mem_append.mp listed with earlier | single
  · exact Int64.le_of_lt
      ((List.pairwise_append.mp ordered).2.2 _ earlier _ (List.mem_singleton_self _))
  · rw [(Prod.mk.inj (List.mem_singleton.mp single)).2]
    exact Int64.le_refl _

/-! ### The interval -/

/-- What the loop keeps: the low end is an operation at or before the time, none after the high end
is, and the log reaches the high end. -/
structure Searching (log : Log) (time lo hi : Int64) : Prop where
  /-- The low end is an operation at or before the time. -/
  low : ∃ row, log.Live row ∧ row.id = lo ∧ row.timestamp ≤ time
  /-- The ends are in order. -/
  ends : lo ≤ hi
  /-- No operation past the high end is at or before the time. -/
  none_above : ∀ ⦃row⦄, log.Live row → row.timestamp ≤ time → row.id ≤ hi
  /-- An operation is at the high end, or past it. -/
  reaches : ∃ row, log.Live row ∧ hi ≤ row.id

/-- The middle of an interval of positive ids is computed without an overflow. -/
theorem toInt_middle (positive : 0 < lo) (less : lo < hi) :
    (lo + (hi - lo + 1) / 2).toInt = lo.toInt + (hi.toInt - lo.toInt + 1) / 2 := by
  rw [Int64.lt_iff_toInt_lt, Int64.toInt_zero] at positive
  rw [Int64.lt_iff_toInt_lt] at less
  have top := hi.toInt_lt
  have width : (hi - lo).toInt = hi.toInt - lo.toInt := by
    rw [Int64.toInt_sub, Int.bmod_eq_of_le (by omega) (by omega)]
  have widened : (hi - lo + 1).toInt = hi.toInt - lo.toInt + 1 := by
    rw [Int64.toInt_add, width, Int64.toInt_one, Int.bmod_eq_of_le (by omega) (by omega)]
  have halved : ((hi - lo + 1) / 2).toInt = (hi.toInt - lo.toInt + 1) / 2 := by
    rw [Int64.toInt_div_of_ne_right _ _ (by decide), widened, show (2 : Int64).toInt = 2 from rfl,
      Int.tdiv_eq_ediv_of_nonneg (by omega)]
  rw [Int64.toInt_add, halved, Int.bmod_eq_of_le (by omega) (by omega)]

/-- The first operation at or past a positive id, where there is one. -/
theorem Keyed.head_range (keyed : log.Keyed) {id : Int64} (positive : 0 < id) {reached : OpRow}
    (live : log.Live reached) (past : id ≤ reached.id) :
    ∃ row, (log.ops.range (.included (be id)) .unbounded).head? = some (be row.id, row) ∧
      log.Live row ∧ id ≤ row.id ∧
      ∀ ⦃other⦄, log.Live other → id ≤ other.id → row.id ≤ other.id := by
  have mem_iff : ∀ {key row}, (key, row) ∈ log.ops.range (.included (be id)) .unbounded ↔
      log.Live row ∧ key = be row.id ∧ id ≤ row.id := by
    intro key row
    rw [Table.mem_range, ← Table.mem_entries, keyed.mem_entries, and_assoc]
    refine and_congr_right fun held => and_congr_right fun key_eq => ?_
    rw [key_eq, Table.Bound.starts, Table.Bound.stops, and_iff_left rfl, Ordering.isLE_iff_ne_gt,
      ← not_iff_not, not_not, Std.OrientedCmp.gt_iff_lt, compare_be (keyed.pos held) positive,
      Int64.not_le]
  have listed := mem_iff.mpr ⟨live, rfl, past⟩
  cases range : log.ops.range (.included (be id)) .unbounded with
  | nil =>
      rw [range] at listed
      exact absurd listed List.not_mem_nil
  | cons entry rest =>
      obtain ⟨key, row⟩ := entry
      have head := mem_iff.mp (range ▸ List.mem_cons_self)
      obtain ⟨held, rfl, from_id⟩ := head
      refine ⟨row, rfl, held, from_id, fun other there after_id => ?_⟩
      have among := mem_iff.mpr ⟨there, rfl, after_id⟩
      rw [range] at among
      have ordered := log.ops.pairwise_range (.included (be id)) .unbounded
      rw [range] at ordered
      rcases List.mem_cons.mp among with same | later
      · rw [(Prod.mk.inj same).2]
        exact Int64.le_refl _
      · have before := (List.pairwise_cons.mp ordered).1 _ later
        exact Int64.le_of_lt ((compare_be (keyed.pos held) (keyed.pos there)).mp before)

/-- A turn of the loop keeps the interval, and makes it narrower. -/
theorem probe_spec (keyed : log.Keyed) (ordered : log.Chronological)
    (searching : log.Searching time lo hi) (less : lo < hi) :
    ∃ low high, log.probe time lo hi = .ok (low, high) ∧ log.Searching time low high ∧
      high.toInt - low.toInt < hi.toInt - lo.toInt := by
  obtain ⟨lowest, live_lowest, rfl, early⟩ := searching.low
  obtain ⟨reached, live_reached, past⟩ := searching.reaches
  have positive := keyed.pos live_lowest
  have middle := toInt_middle positive less
  rw [Int64.lt_iff_toInt_lt] at less
  have above : lowest.id < lowest.id + (hi - lowest.id + 1) / 2 := by
    rw [Int64.lt_iff_toInt_lt, middle]
    omega
  have within : lowest.id + (hi - lowest.id + 1) / 2 ≤ hi := by
    rw [Int64.le_iff_toInt_le, middle]
    omega
  obtain ⟨row, head, live, from_mid, first⟩ := keyed.head_range
    (Int64.lt_trans positive above) live_reached (Int64.le_trans within past)
  have probed : log.probe time lowest.id hi =
      .ok (if row.id ≤ hi ∧ row.timestamp ≤ time then (row.id, hi)
        else (lowest.id, lowest.id + (hi - lowest.id + 1) / 2 - 1)) := by
    simp only [probe, head, context, pure_bind, fromBe_be_self]
    rfl
  rw [probed]
  by_cases takes : row.id ≤ hi ∧ row.timestamp ≤ time
  · refine ⟨row.id, hi, by rw [if_pos takes], ⟨⟨row, live, rfl, takes.2⟩, takes.1,
      searching.none_above, searching.reaches⟩, ?_⟩
    rw [Int64.le_iff_toInt_le, middle] at from_mid
    omega
  · have lowered : (lowest.id + (hi - lowest.id + 1) / 2 - 1).toInt =
        lowest.id.toInt + (hi.toInt - lowest.id.toInt + 1) / 2 - 1 := by
      rw [Int64.toInt_sub, middle, Int64.toInt_one]
      have top := hi.toInt_lt
      rw [Int64.lt_iff_toInt_lt, Int64.toInt_zero] at positive
      exact Int.bmod_eq_of_le (by omega) (by omega)
    refine ⟨lowest.id, _, by rw [if_neg takes], ⟨⟨lowest, live_lowest, rfl, early⟩, ?_, ?_,
      reached, live_reached, ?_⟩, ?_⟩
    · rw [Int64.le_iff_toInt_le, lowered]
      omega
    · -- an operation from the middle on would be past the one probed, and no earlier
      intro other there soon
      rw [Int64.le_iff_toInt_le, lowered]
      by_contra beyond
      have from_middle : lowest.id + (hi - lowest.id + 1) / 2 ≤ other.id := by
        rw [Int64.le_iff_toInt_le, middle]
        omega
      have next := first there from_middle
      refine takes ⟨Int64.le_trans next (searching.none_above there soon), ?_⟩
      exact Int64.le_trans (ordered live there next) soon
    · rw [Int64.le_iff_toInt_le] at past ⊢
      rw [lowered]
      omega
    · rw [lowered]
      omega

/-- With as many turns as the interval is wide, the loop ends at the newest operation. -/
theorem search_spec (keyed : log.Keyed) (ordered : log.Chronological) {turns : Nat}
    (searching : log.Searching time lo hi) (enough : hi.toInt - lo.toInt < turns) :
    ∃ id, log.search time turns lo hi = some (.ok (some id)) ∧ log.Newest time id := by
  induction turns generalizing lo hi with
  | zero =>
      have ends := searching.ends
      rw [Int64.le_iff_toInt_le] at ends
      omega
  | succ turns ih =>
      unfold search
      by_cases less : lo < hi
      · obtain ⟨low, high, probed, narrower, shorter⟩ :=
          probe_spec keyed ordered searching less
        rw [if_pos less, probed]
        exact ih narrower (by omega)
      · rw [if_neg less]
        have same : hi = lo := Int64.le_antisymm (Int64.not_lt.mp less) searching.ends
        subst same
        exact ⟨hi, rfl, searching.low, searching.none_above⟩

/-- In a log whose timestamps do not decrease with the ids, whatever ids are missing, the search
ends, and finds the newest operation at or before a time, or none where there is none. -/
theorem last_op_found (keyed : log.Keyed) (ordered : log.Chronological) (time : Int64) :
    ∃ enough answer, (∀ turns, enough ≤ turns →
        log.lastOpAtOrBefore time turns = some (.ok answer)) ∧
      (answer = none ↔ ∀ ⦃row⦄, log.Live row → time < row.timestamp) ∧
      ∀ ⦃id⦄, answer = some id → log.Newest time id := by
  cases head : log.ops.entries.head? with
  | none =>
      refine ⟨0, none, fun turns _ => ?_, ⟨fun _ row live => ?_, fun _ => rfl⟩, by simp⟩
      · rw [lastOpAtOrBefore, head]
        rfl
      · have listed := keyed.mem_entries.mpr ⟨live, rfl⟩
        rw [List.head?_eq_none_iff.mp head] at listed
        exact absurd listed List.not_mem_nil
  | some entry =>
      obtain ⟨first, oldest⟩ := entry
      obtain ⟨live_oldest, rfl, least⟩ := keyed.head_entries head
      by_cases late : time < oldest.timestamp
      · refine ⟨0, none, fun turns _ => ?_, ⟨fun _ row live => ?_, fun _ => rfl⟩, by simp⟩
        · simp only [lastOpAtOrBefore, head, if_pos late]
          rfl
        · exact Int64.lt_of_lt_of_le late (ordered live_oldest live (least live))
      cases final : log.ops.entries.getLast? with
      | none =>
          rw [List.getLast?_eq_none_iff.mp final] at head
          simp at head
      | some entry =>
          obtain ⟨last, newest⟩ := entry
          obtain ⟨live_newest, rfl, greatest⟩ := keyed.getLast_entries final
          by_cases soon : newest.timestamp ≤ time
          · refine ⟨0, some newest.id, fun turns _ => ?_, ⟨by simp, fun all => ?_⟩, ?_⟩
            · simp only [lastOpAtOrBefore, head, final, if_neg late, if_pos soon, fromBe_be_self]
              rfl
            · exact absurd soon (Int64.not_le.mpr (all live_newest))
            · rintro id ⟨⟩
              exact ⟨⟨newest, live_newest, rfl, soon⟩, fun other live _ => greatest live⟩
          · have searching : log.Searching time oldest.id newest.id :=
              ⟨⟨oldest, live_oldest, rfl, Int64.not_lt.mp late⟩, greatest live_oldest,
                fun row live _ => greatest live, newest, live_newest, Int64.le_refl _⟩
            have wide : newest.id.toInt - oldest.id.toInt <
                ((newest.id.toInt - oldest.id.toInt).toNat + 1 : Nat) := by omega
            obtain ⟨id, -, ends⟩ := search_spec keyed ordered searching wide
            refine ⟨(newest.id.toInt - oldest.id.toInt).toNat + 1, some id, fun turns enough => ?_,
              ⟨by simp, fun all => ?_⟩, ?_⟩
            · have many : newest.id.toInt - oldest.id.toInt < turns := by omega
              obtain ⟨found, ran, ends_found⟩ := search_spec keyed ordered searching many
              simp only [lastOpAtOrBefore, head, final, if_neg late, if_neg soon, fromBe_be_self,
                ran, ends_found.unique ends]
            · obtain ⟨row, live, -, early⟩ := ends.1
              exact absurd early (Int64.not_le.mpr (all live))
            · rintro other ⟨⟩
              exact ends

/-- Three operations left of ten. -/
def sampleGaps : Log :=
  let row (id timestamp : Int64) : OpRow :=
    ⟨id, 1, timestamp, .setField, Uuid.zero, none, none, none, none, none⟩
  { ops := ((∅ : Table OpRow).put (be 2) (row 2 10)).put (be 5) (row 5 20) |>.put (be 9)
      (row 9 30) }

theorem sampleGaps_cases {key : Bytes} {row : OpRow} (found : sampleGaps.ops.get key = some row) :
    key = be row.id ∧ ((row.id = 2 ∧ row.timestamp = 10) ∨ (row.id = 5 ∧ row.timestamp = 20) ∨
      (row.id = 9 ∧ row.timestamp = 30)) := by
  simp only [sampleGaps, Table.get_put] at found
  split at found
  next same =>
    rw [← same, ← Option.some.inj found]
    exact ⟨rfl, .inr (.inr ⟨rfl, rfl⟩)⟩
  next =>
    split at found
    next same =>
      rw [← same, ← Option.some.inj found]
      exact ⟨rfl, .inr (.inl ⟨rfl, rfl⟩)⟩
    next =>
      split at found
      next same =>
        rw [← same, ← Option.some.inj found]
        exact ⟨rfl, .inl ⟨rfl, rfl⟩⟩
      next => simp at found

theorem last_op_found_gaps : (∃ enough answer, (∀ turns, enough ≤ turns →
      sampleGaps.lastOpAtOrBefore 25 turns = some (.ok answer)) ∧
    (answer = none ↔ ∀ ⦃row⦄, sampleGaps.Live row → 25 < row.timestamp) ∧
    ∀ ⦃id⦄, answer = some id → sampleGaps.Newest 25 id) ∧
    sampleGaps.lastOpAtOrBefore 25 4 = some (.ok (some 5)) := by
  refine ⟨last_op_found (fun key row found => ?_) (fun one other live held before => ?_) 25,
    by decide +kernel⟩
  · obtain ⟨keys, ⟨id, -⟩ | ⟨id, -⟩ | ⟨id, -⟩⟩ := sampleGaps_cases found <;>
      exact ⟨keys, by rw [id]; decide⟩
  · obtain ⟨-, ⟨id, time⟩ | ⟨id, time⟩ | ⟨id, time⟩⟩ := sampleGaps_cases live <;>
      obtain ⟨-, ⟨id_held, time_held⟩ | ⟨id_held, time_held⟩ | ⟨id_held, time_held⟩⟩ :=
        sampleGaps_cases held <;>
      rw [id, id_held] at before <;> rw [time, time_held] <;> revert before <;> decide

end Log

end Metafolder
