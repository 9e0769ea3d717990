import Metafolder.LogTables
import Mathlib.Data.List.Sort
import Mathlib.Data.List.TakeDrop

/-!
# Trims of the log

The operations are of two classes, the watcher's and the others, interleaved in one sequence of ids.
A commit whose class has grown past its limit and some slack drops the oldest operations of that
class, down to the limit, but none of those it wrote itself.
-/

namespace Metafolder

/-- Numbers compare as the bytes they are coded by. -/
theorem compare_be {first second : Int64} (first_pos : 0 < first) (second_pos : 0 < second) :
    compare (be first) (be second) = .lt ↔ first < second := by
  have value : ∀ n : Int64, 0 < n → (n.toUInt64.toNat : Int) = n.toInt := by
    intro n positive
    have above := Int64.le_of_lt positive
    rw [Int64.toNat_toUInt64_of_le above, Int64.toInt_eq_toNatClampNeg above]
  have bound (n : Int64) : n.toUInt64.toNat < 256 ^ 8 := n.toUInt64.toNat_lt
  rw [ByteCode.compare_eq_lt_iff (by simp), be, be, ByteCode.ofBigEndian_bigEndian,
    ByteCode.ofBigEndian_bigEndian, Nat.mod_eq_of_lt (bound first), Nat.mod_eq_of_lt (bound second),
    Int64.lt_iff_toInt_lt, ← value first first_pos, ← value second second_pos, Int.ofNat_lt]

/-- Whether an operation is the watcher's. -/
def OpRow.byWatcher (row : OpRow) : Bool := row.origin = some originWatcher

/-- The limit of one class of operations. -/
def Retention.limit (retention : Retention) (watcher : Bool) : UInt64 :=
  if watcher then retention.watcherOps else retention.userOps

namespace Log

/-- `class`: the table of one class of operations. -/
def classTable (log : Log) (watcher : Bool) : Table Unit :=
  if watcher then log.watcherOps else log.userOps

/-- The operations of one class, oldest first. -/
def classOps (log : Log) (watcher : Bool) : List OpRow :=
  (log.ops.entries.map Prod.snd).filter fun row => row.byWatcher = watcher

variable {log after : Log} {bound : Int64} {watcher : Bool}

theorem Tabled.mem_classOps (tabled : log.Tabled bound) {row : OpRow} :
    row ∈ log.classOps watcher ↔ log.Live row ∧ row.byWatcher = watcher := by
  simp only [classOps, List.mem_filter, List.mem_map, Prod.exists, exists_eq_right,
    Table.mem_entries, decide_eq_true_eq]
  refine and_congr_left fun _ => ?_
  constructor
  · rintro ⟨key, found⟩
    rw [(tabled.op_keyed found).1] at found
    exact found
  · intro live
    exact ⟨_, live⟩

theorem Tabled.pairwise_classOps (tabled : log.Tabled bound) :
    (log.classOps watcher).Pairwise fun first second => first.id < second.id := by
  refine List.Pairwise.filter _ (List.pairwise_map.mpr ?_)
  refine log.ops.pairwise_entries.imp_of_mem ?_
  rintro ⟨first, older⟩ ⟨second, newer⟩ one two before
  obtain ⟨rfl, older_pos, -⟩ := tabled.op_keyed ((Table.mem_entries ..).mp one)
  obtain ⟨rfl, newer_pos, -⟩ := tabled.op_keyed ((Table.mem_entries ..).mp two)
  exact (compare_be older_pos newer_pos).mp before

theorem Tabled.pairwise_ids (tabled : log.Tabled bound) :
    ((log.classOps watcher).map OpRow.id).Pairwise (· < ·) :=
  List.pairwise_map.mpr tabled.pairwise_classOps

/-- The table of a class lists its operations. -/
theorem Tabled.classTable (tabled : log.Tabled bound) {key : Bytes} :
    ((log.classTable watcher).get key).isSome ↔
      ∃ row ∈ log.classOps watcher, key = be row.id := by
  simp only [tabled.mem_classOps]
  cases watcher with
  | true =>
      refine (tabled.watcher key).trans (exists_congr fun row => ?_)
      by_cases mine : row.origin = some originWatcher <;> simp [watcherKeys, OpRow.byWatcher, mine]
  | false =>
      refine (tabled.user key).trans (exists_congr fun row => ?_)
      by_cases mine : row.origin = some originWatcher <;> simp [userKeys, OpRow.byWatcher, mine]

/-- The table of a class read in key order gives its operations from the oldest. -/
theorem Tabled.class_ids (tabled : log.Tabled bound) :
    ((log.classTable watcher).entries.map fun entry => fromBe entry.1) =
      (log.classOps watcher).map OpRow.id := by
  have listed : ∀ entry ∈ (log.classTable watcher).entries,
      ∃ row ∈ log.classOps watcher, entry.1 = be row.id := by
    rintro ⟨key, value⟩ member
    exact tabled.classTable.mp (Option.isSome_of_mem ((Table.mem_entries ..).mp member))
  have decoded : ∀ id, fromBe (be id) = id := fun id => by
    have read := fromBe_be id []
    rwa [List.append_nil] at read
  refine List.Pairwise.eq_of_mem_iff (List.pairwise_map.mpr ?_) tabled.pairwise_ids fun id => ?_
  · refine (log.classTable watcher).pairwise_entries.imp_of_mem ?_
    intro first second one two before
    obtain ⟨older, was, first_eq⟩ := listed first one
    obtain ⟨newer, is, second_eq⟩ := listed second two
    rw [first_eq, second_eq] at before
    rw [first_eq, second_eq, decoded, decoded]
    exact (compare_be (tabled.op_keyed (tabled.mem_classOps.mp was).1).2.1
      (tabled.op_keyed (tabled.mem_classOps.mp is).1).2.1).mp before
  · rw [List.mem_map, List.mem_map]
    constructor
    · rintro ⟨entry, member, rfl⟩
      obtain ⟨row, there, key_eq⟩ := listed entry member
      rw [key_eq, decoded]
      exact ⟨row, there, rfl⟩
    · rintro ⟨row, there, rfl⟩
      obtain ⟨value, found⟩ := Option.isSome_iff_exists.mp (tabled.classTable.mpr ⟨row, there, rfl⟩)
      exact ⟨_, (Table.mem_entries ..).mpr found, decoded row.id⟩

/-- There are fewer operations than numbers of 64 bits. -/
theorem Tabled.length_classOps (tabled : log.Tabled bound) :
    (log.classOps watcher).length < 2 ^ 64 := by
  have within : ∀ row ∈ log.classOps watcher, row.id.toInt.toNat < 2 ^ 63 := by
    intro row _
    have above := row.id.toInt_lt
    omega
  have numbered : ((log.classOps watcher).map fun row => row.id.toInt.toNat).Pairwise (· < ·) := by
    refine List.pairwise_map.mpr (tabled.pairwise_classOps.imp_of_mem ?_)
    intro first second one two before
    have first_pos := (tabled.op_keyed (tabled.mem_classOps.mp one).1).2.1
    rw [Int64.lt_iff_toInt_lt] at before first_pos
    change (0 : Int) < _ at first_pos
    omega
  have inside : ((log.classOps watcher).map fun row => row.id.toInt.toNat) ⊆ List.range (2 ^ 63) := by
    intro number member
    obtain ⟨row, there, rfl⟩ := List.mem_map.mp member
    exact List.mem_range.mpr (within row there)
  have fewer := (List.subperm_of_subset (List.Pairwise.nodup numbered) inside).length_le
  rw [List.length_map, List.length_range] at fewer
  omega

/-! ### What is dropped -/

/-- The ids doomed are the oldest of their class, and older than the write. -/
structure Cut (ids : List Int64) (limit : UInt64) (keepFrom : Int64) (count : Nat) : Prop where
  /-- None of the write's own goes. -/
  older : ∀ id ∈ ids.take count, id < keepFrom
  /-- Nothing goes without a limit, nor within the limit and its slack. -/
  spared : limit = 0 ∨ ids.length ≤ (limit + Retention.slack limit).toNat → count = 0
  /-- What stays is within the limit and its slack, or is the write's own. -/
  bounded : limit ≠ 0 → (ids.drop count).length ≤ limit.toNat + (Retention.slack limit).toNat ∨
    ∀ id ∈ ids.drop count, keepFrom ≤ id

/-- The oldest ids up to a count, as long as they are below a bound. -/
theorem takeWhile_take (ids : List Int64) (keepFrom : Int64) (count : Nat) :
    ∃ taken, (ids.take count).takeWhile (fun id => id < keepFrom) = ids.take taken ∧
      taken ≤ count ∧ (∀ id ∈ ids.take taken, id < keepFrom) ∧
        (taken = count ∨ ids.length ≤ taken ∨ ∃ id rest, ids.drop taken = id :: rest ∧
          keepFrom ≤ id) := by
  induction ids generalizing count with
  | nil => exact ⟨0, by simp, Nat.zero_le _, by simp, .inr (.inl (Nat.le_refl 0))⟩
  | cons head rest ih =>
      cases count with
      | zero => exact ⟨0, by simp, Nat.le_refl _, by simp, .inl rfl⟩
      | succ count =>
          by_cases below : head < keepFrom
          · obtain ⟨taken, same, few, old, ending⟩ := ih count
            refine ⟨taken + 1, by simp [below, same], by omega, ?_, ?_⟩
            · rw [List.take_succ_cons, List.forall_mem_cons]
              exact ⟨below, old⟩
            · simp only [List.length_cons, List.drop_succ_cons]
              exact ending.imp (congrArg (· + 1)) (Or.imp_left Nat.succ_le_succ)
          · exact ⟨0, by simp [below], by omega, by simp,
              .inr (.inr ⟨head, rest, rfl, Int64.not_lt.mp below⟩)⟩

theorem doomed_spec {table : Table Unit} {ids : List Int64} (limit : UInt64) (keepFrom : Int64)
    (listed : table.entries.map (fun entry => fromBe entry.1) = ids)
    (ordered : ids.Pairwise (· < ·)) (few : ids.length < 2 ^ 64) :
    ∃ count, doomed table limit keepFrom = ids.take count ∧ Cut ids limit keepFrom count := by
  have total : (UInt64.ofNat table.entries.length).toNat = ids.length := by
    rw [← listed, List.length_map] at few ⊢
    exact UInt64.toNat_ofNat_of_lt few
  unfold doomed
  dsimp only
  generalize UInt64.ofNat table.entries.length = held at total
  split
  next within =>
    refine ⟨0, by simp, by simp, fun _ => rfl, fun limited => .inl ?_⟩
    have fits := UInt64.le_iff_toNat_le.mp (within.resolve_left limited)
    rw [UInt64.toNat_add, total] at fits
    exact fits.trans (Nat.mod_le _ _)
  next past =>
    obtain ⟨limited, past⟩ := not_or.mp past
    rw [List.map_take, listed]
    obtain ⟨taken, same, few_taken, old, ending⟩ := takeWhile_take ids keepFrom (held - limit).toNat
    refine ⟨taken, same, old, ?_, fun _ => ?_⟩
    · rintro (none_set | within)
      · exact absurd none_set limited
      · rw [← total, ← UInt64.le_iff_toNat_le] at within
        exact absurd within past
    · rcases ending with rfl | all | ⟨id, rest, rest_eq, newer⟩
      · left
        rw [List.length_drop, UInt64.toNat_sub, total]
        have limit_lt := limit.toNat_lt
        omega
      · left
        rw [List.length_drop]
        omega
      · right
        have ordered_rest := List.Pairwise.sublist (List.drop_sublist taken ids) ordered
        rw [rest_eq] at ordered_rest ⊢
        rw [List.forall_mem_cons]
        refine ⟨newer, fun later member => ?_⟩
        exact Int64.le_trans newer (Int64.le_of_lt (List.rel_of_pairwise_cons ordered_rest member))

/-! ### What stays -/

/-- Forgetting operations leaves the others, with their rows. -/
theorem Agrees.live_deleteOps (agrees : log.Agrees) (ids : List Int64) {row : OpRow} :
    (log.deleteOps ids).Live row ↔ log.Live row ∧ row.id ∉ ids := by
  rw [(swept_deleteOps agrees ids).live_iff, Live, op_removeOps]
  split
  next member => exact iff_of_false (by simp) fun both => both.2 member
  next outside => exact ⟨fun live => ⟨live, outside⟩, And.left⟩

theorem snapshots_removeOp (log : Log) {id other : Int64} (differ : id ≠ other) (side : Bool) :
    (log.removeOp id).snapshots other side = log.snapshots other side := by
  have apart : ∀ half, snapKey id half ≠ snapKey other side :=
    fun half same => differ (snapKey_inj.mp same).1
  unfold Log.removeOp
  split
  next => rfl
  next => rw [snapshots, Table.get_delete_of_ne _ (apart true), Table.get_delete_of_ne _ (apart false),
    snapshots]

theorem snapshots_removeOps (log : Log) {ids : List Int64} {other : Int64} (outside : other ∉ ids)
    (side : Bool) : (ids.foldl Log.removeOp log).snapshots other side = log.snapshots other side := by
  induction ids generalizing log with
  | nil => rfl
  | cons head rest ih =>
      obtain ⟨differ, later⟩ := not_or.mp (List.mem_cons.not.mp outside)
      rw [List.foldl_cons, ih _ later, snapshots_removeOp log (Ne.symm differ)]

/-- The operations of a class that stay, in their order. -/
theorem Agrees.classOps_deleteOps (agrees : log.Agrees) (ids : List Int64) :
    (log.deleteOps ids).classOps watcher =
      (log.classOps watcher).filter fun row => row.id ∉ ids := by
  have left := (agrees.deleteOps ids).1.2
  have irreflexive : Std.Irrefl fun first second : OpRow => first.id < second.id :=
    ⟨fun row => Int64.lt_irrefl⟩
  have antisymmetric : Std.Antisymm fun first second : OpRow => first.id < second.id :=
    ⟨fun first second one two => absurd (Int64.lt_trans one two) Int64.lt_irrefl⟩
  refine List.Pairwise.eq_of_mem_iff left.pairwise_classOps
    (List.Pairwise.filter _ agrees.2.pairwise_classOps) fun row => ?_
  rw [left.mem_classOps, agrees.live_deleteOps, List.mem_filter, agrees.2.mem_classOps,
    decide_eq_true_eq]
  tauto

/-- The operations left when the oldest are forgotten. -/
theorem filter_oldest {rows : List OpRow} {ids : List Int64} {count : Nat}
    (ordered : rows.Pairwise fun first second => first.id < second.id)
    (oldest : ∀ row ∈ rows, row.id ∈ ids ↔ row.id ∈ (rows.map OpRow.id).take count) :
    rows.filter (fun row => row.id ∉ ids) = rows.drop count := by
  have whole := List.take_append_drop count rows
  rw [← whole, List.pairwise_append] at ordered
  rw [← List.map_take] at oldest
  have front : (rows.take count).filter (fun row => row.id ∉ ids) = [] := by
    refine List.filter_eq_nil_iff.mpr fun row member => ?_
    rw [decide_eq_true_eq, not_not, oldest row (List.mem_of_mem_take member)]
    exact List.mem_map_of_mem member
  have back : (rows.drop count).filter (fun row => row.id ∉ ids) = rows.drop count := by
    refine List.filter_eq_self.mpr fun row member => ?_
    rw [decide_eq_true_eq, oldest row (List.mem_of_mem_drop member), List.mem_map]
    rintro ⟨older, there, same⟩
    have before := ordered.2.2 older there row member
    rw [same] at before
    exact Int64.lt_irrefl before
  calc
    rows.filter (fun row => row.id ∉ ids)
      = (rows.take count ++ rows.drop count).filter (fun row => row.id ∉ ids) := by rw [whole]
    _ = rows.drop count := by rw [List.filter_append, front, back, List.nil_append]

/-- What a trim leaves of a log: the newest operations of each class. -/
structure Trimmed (full : Log) (retention : Retention) (keepFrom : Int64) (after : Log) : Prop where
  /-- Of each class the oldest operations go, and nothing but operations older than a bound. -/
  dropped : ∀ watcher, ∃ count, after.classOps watcher = (full.classOps watcher).drop count ∧
    ∀ row ∈ (full.classOps watcher).take count, row.id < keepFrom
  /-- The rows of the operations that stay are as they were. -/
  snapshots_eq : ∀ {row}, after.Live row → ∀ side,
    after.snapshots row.id side = full.snapshots row.id side
  /-- A class without limit, or within its limit and slack, is as it was. -/
  spared : ∀ watcher, retention.limit watcher = 0 ∨ (full.classOps watcher).length ≤
    (retention.limit watcher + Retention.slack (retention.limit watcher)).toNat →
      after.classOps watcher = full.classOps watcher
  /-- A limited class is within its limit and slack, or holds nothing older than the bound. -/
  bounded : ∀ watcher, retention.limit watcher ≠ 0 → (after.classOps watcher).length ≤
      (retention.limit watcher).toNat + (Retention.slack (retention.limit watcher)).toNat ∨
    ∀ row ∈ after.classOps watcher, keepFrom ≤ row.id

/-- Two classes share no operation. -/
theorem Tabled.class_eq (tabled : log.Tabled bound) {one other : Bool} {first second : OpRow}
    (mine : first ∈ log.classOps one) (theirs : second ∈ log.classOps other)
    (same : first.id = second.id) : one = other := by
  obtain ⟨first_live, first_class⟩ := tabled.mem_classOps.mp mine
  obtain ⟨second_live, second_class⟩ := tabled.mem_classOps.mp theirs
  have rows : first = second := by
    rw [Live, same] at first_live
    exact Option.some.inj (first_live.symm.trans second_live)
  rw [← first_class, ← second_class, rows]

/-- The oldest operations of each class, forgotten together. -/
theorem Agrees.trimmed_deleteOps (agrees : log.Agrees) {retention : Retention} {keepFrom : Int64}
    {count : Bool → Nat} {ids : List Int64}
    (cut : ∀ watcher, Cut ((log.classOps watcher).map OpRow.id) (retention.limit watcher) keepFrom
      (count watcher))
    (oldest : ∀ id, id ∈ ids ↔ ∃ watcher,
      id ∈ ((log.classOps watcher).map OpRow.id).take (count watcher)) :
    Trimmed log retention keepFrom (log.deleteOps ids) := by
  have own : ∀ watcher, ∀ row ∈ log.classOps watcher,
      row.id ∈ ids ↔ row.id ∈ ((log.classOps watcher).map OpRow.id).take (count watcher) := by
    intro watcher row mine
    rw [oldest]
    constructor
    · rintro ⟨other, member⟩
      obtain ⟨twin, there, same⟩ := List.mem_map.mp (List.mem_of_mem_take member)
      rwa [agrees.2.class_eq mine there same.symm]
    · intro member
      exact ⟨watcher, member⟩
  have left : ∀ watcher, (log.deleteOps ids).classOps watcher =
      (log.classOps watcher).drop (count watcher) := by
    intro watcher
    rw [agrees.classOps_deleteOps, filter_oldest agrees.2.pairwise_classOps (own watcher)]
  constructor
  · intro watcher
    refine ⟨count watcher, left watcher, fun row member => (cut watcher).older _ ?_⟩
    rw [← List.map_take]
    exact List.mem_map_of_mem member
  · intro row live side
    have swept := swept_deleteOps agrees ids
    have snaps_eq : (log.deleteOps ids).snaps = (ids.foldl Log.removeOp log).snaps := by
      rw [swept.eq]
    rw [snapshots, snaps_eq]
    exact snapshots_removeOps log (agrees.live_deleteOps ids |>.mp live).2 side
  · intro watcher within
    have none_gone : count watcher = 0 := by
      apply (cut watcher).spared
      rw [List.length_map]
      exact within
    rw [left, none_gone, List.drop_zero]
  · intro watcher limited
    have bounded := (cut watcher).bounded limited
    rw [← List.map_drop, List.length_map, List.forall_mem_map] at bounded
    rw [left]
    exact bounded

/-- The head of the history plays no part. -/
theorem Trimmed.of_head {retention : Retention} {keepFrom : Int64} {head : Option Int64}
    (trimmed : Trimmed { log with head := head } retention keepFrom after) :
    Trimmed log retention keepFrom after :=
  ⟨trimmed.dropped, trimmed.snapshots_eq, trimmed.spared, trimmed.bounded⟩

theorem Agrees.trimmed (agrees : log.Agrees) (retention : Retention) (keepFrom : Int64) :
    Trimmed log retention keepFrom (log.trim retention keepFrom) := by
  have cut : ∀ watcher, ∃ count,
      doomed (log.classTable watcher) (retention.limit watcher) keepFrom =
        ((log.classOps watcher).map OpRow.id).take count ∧
      Cut ((log.classOps watcher).map OpRow.id) (retention.limit watcher) keepFrom count := by
    intro watcher
    apply doomed_spec _ _ agrees.2.class_ids agrees.2.pairwise_ids
    rw [List.length_map]
    exact agrees.2.length_classOps
  choose count taken cut using cut
  have trimmed : Trimmed log retention keepFrom (log.deleteOps
      (doomed log.watcherOps retention.watcherOps keepFrom ++
        doomed log.userOps retention.userOps keepFrom)) := by
    apply agrees.trimmed_deleteOps cut
    intro id
    rw [Bool.exists_bool, ← taken, ← taken, List.mem_append, or_comm]
    rfl
  unfold Log.trim
  split
  next off =>
    -- without limits nothing is doomed
    have limits : retention.watcherOps = 0 ∧ retention.userOps = 0 := by
      simp only [Retention.enabled, Bool.not_eq_true', decide_eq_false_iff_not, not_or,
        UInt64.not_lt, UInt64.le_zero_iff] at off
      exact off
    have nothing : ∀ table, doomed table 0 keepFrom = [] := fun table => by simp [doomed]
    rw [limits.1, limits.2, nothing, nothing] at trimmed
    exact trimmed
  next =>
    dsimp only
    split
    next nothing =>
      rw [nothing] at trimmed
      exact trimmed
    next => exact trimmed

/-! ### The operations of the write -/

theorem Tabled.live_putOp {id : Int64} (tabled : log.Tabled id) (label timestamp : Int64)
    (new : NewOp) (row : OpRow) : log.Live row ↔
      (log.putOp label timestamp id new).Live row ∧ row ≠ rowOf label timestamp id new := by
  rw [Live, Live, op, op, putOp_eq, Table.get_put]
  simp only [be_inj]
  split
  next same =>
    refine iff_of_false (fun live => ?_) fun both => both.2 (Option.some.inj both.1).symm
    have below := (tabled.op_keyed live).2.2
    rw [same] at below
    exact Int64.lt_irrefl below
  next differ =>
    refine ⟨fun live => ⟨live, ?_⟩, And.left⟩
    rintro rfl
    exact differ rfl

/-- The operations older than those appended are those of the log before. -/
theorem Tabled.live_putOps {base last : Int64} (tabled : log.Tabled base) (positive : 0 < base)
    {label timestamp : Int64} (there : (log.label label).isSome) {ops : List NewOp}
    (ran : log.putOps label timestamp base ops = .ok (last, after)) (row : OpRow) :
    log.Live row ↔ after.Live row ∧ row.id < base := by
  induction ops generalizing log base with
  | nil =>
      simp only [Log.putOps, Except.pure_eq_ok, Prod.mk.injEq] at ran
      obtain ⟨rfl, rfl⟩ := ran
      exact ⟨fun live => ⟨live, (tabled.op_keyed live).2.2⟩, And.left⟩
  | cons new rest ih =>
      obtain ⟨next, added, others⟩ := Except.bind_eq_ok.mp ran
      have next_eq := toInt_addInt64 added
      have base_lt : base < next := by
        rw [Int64.lt_iff_toInt_lt, next_eq]
        change _ < _ + (1 : Int)
        omega
      have made := tabled.putOp positive next_eq there timestamp new
      have held : ((log.putOp label timestamp base new).label label).isSome := by
        rw [Log.label, labels_putOp]
        exact there
      have later := ih made (Int64.lt_trans positive base_lt) held others
      have own := tabled.live_putOp label timestamp new row
      constructor
      · intro live
        exact ⟨(later.mp (own.mp live).1).1, (tabled.op_keyed live).2.2⟩
      · rintro ⟨live, below⟩
        refine own.mpr ⟨later.mpr ⟨live, Int64.lt_trans below base_lt⟩, ?_⟩
        rintro rfl
        exact Int64.lt_irrefl below

end Log

variable [Externals]

/-- Whatever the history and the retention, a committed transaction appends its operations and then
trims each class by its own limit: of the operations older than its first, the oldest go; the rows
of the metarecords are those the calls left. -/
theorem commit_trims {store after : KvStore} {transaction : Transaction} (written : Written store)
    (ran : transaction.run store = .ok after) : ∃ (opened last : Writer) (ops : List NewOp)
      (full : Log),
      Writer.beginIn store transaction.context transaction.retention transaction.timestamp =
        .ok opened ∧
      transaction.calls.foldlM Writer.call opened = .ok last ∧
      last.Recorded opened.log ops ∧
      opened.log.Appended opened.labelId transaction.timestamp ops full ∧
      after.tx = last.tx ∧
      (∀ row, store.log.Live row ↔ full.Live row ∧ row.id < store.log.nextOp) ∧
      (ops = [] → ∀ row, after.log.Live row ↔ store.log.Live row) ∧
      (ops ≠ [] → full.Trimmed transaction.retention store.log.nextOp after.log) := by
  simp only [Transaction.run, Except.bind_eq_ok] at ran
  obtain ⟨opened, opening, last, calling, committing⟩ := ran
  obtain ⟨tx_eq, same, recorded, retention_eq, -⟩ := Writer.beginIn_spec opening
  have consistent := written.consistent
  rw [← tx_eq] at consistent
  have usual : Writer.Usual fun _ => True := fun _ => trivial
  obtain ⟨steps, writes, -⟩ := Writer.calls_leads usual consistent (fun _ _ _ _ => trivial) calling
  have start : opened.log.Agrees ∧ (opened.log.label opened.labelId).isSome ∧
      opened.timestamp = transaction.timestamp := by
    simp only [Writer.beginIn, Except.bind_eq_ok, Except.pure_eq_ok, Prod.exists] at opening
    obtain ⟨label, mine, origin, log, labelling, rfl⟩ := opening
    obtain ⟨agrees, there, -⟩ := Writer.openLabel_agrees written.agrees labelling
    exact ⟨agrees, there, rfl⟩
  obtain ⟨agrees, there, timestamp_eq⟩ := start
  have all_recorded := writes.recorded recorded
  obtain ⟨label_eq, opened_eq, kept_timestamp⟩ := writes.label_eq
  have live_eq : ∀ row, store.log.Live row ↔ opened.log.Live row := by
    intro row
    rw [Log.Live, Log.Live, Log.op, Log.op, same.ops_eq]
  have after_tx := (Writer.commit_spec committing).1
  obtain ⟨none_made, idle⟩ | ⟨some_made, full, head, put, log_eq⟩ :=
    Writer.commit_log committing all_recorded
  · refine ⟨opened, last, _, opened.log, opening, calling, all_recorded, ?_, after_tx, ?_, ?_,
      fun made => absurd none_made made⟩
    · rw [none_made]
      exact .nil _ _ _
    · intro row
      rw [live_eq]
      refine ⟨fun live => ⟨live, ?_⟩, And.left⟩
      rw [← same.nextOp_eq]
      exact (agrees.2.op_keyed live).2.2
    · intro _ row
      rw [live_eq, idle]
      split
      · rw [Log.Live, Log.dropLabel_eq]
        rfl
      · rfl
  · rw [label_eq, kept_timestamp, timestamp_eq] at put
    refine ⟨opened, last, _, full, opening, calling, all_recorded, put, after_tx, ?_,
      fun made => absurd made some_made, fun _ => ?_⟩
    · intro row
      obtain ⟨next, made, putting, rfl⟩ := put
      rw [live_eq, ← same.nextOp_eq]
      exact agrees.2.live_putOps agrees.1 there putting row
    · rw [log_eq, writes.retention_eq, retention_eq, same.nextOp_eq]
      exact (((agrees.appended there put).of_head head).trimmed _ _).of_head

omit [Externals] in
theorem commit_trims_set : ∃ (first store : KvStore) (full : Log),
    @Transaction.run plainExternals sampleCreate {} = .ok first ∧
      @Transaction.run plainExternals sampleSet first = .ok store ∧
      full.Trimmed ⟨0, 1⟩ first.log.nextOp store.log ∧ store.log.op 1 = none := by
  let _ : Externals := plainExternals
  obtain ⟨first, created, ran⟩ := Except.bind_eq_ok.mp sampleSet_run
  obtain ⟨store, set, held⟩ := Except.map_eq_ok.mp ran
  simp only [List.map_cons, List.map_nil, Prod.mk.injEq, List.cons.injEq,
    Option.map_eq_none_iff] at held
  obtain ⟨was, -, gone, -⟩ := held
  have written : Written first := .commit sampleCreate .new created
  obtain ⟨opened, last, ops, full, -, -, -, -, -, older, idle, trimmed⟩ := commit_trims written set
  refine ⟨first, store, full, created, set, trimmed fun none_made => ?_, gone⟩
  obtain ⟨row, found⟩ := Option.isSome_iff_exists.mp was
  have still := (idle none_made row).mpr (written.agrees.2.live found)
  rw [Log.Live, written.agrees.2.id_eq found, gone] at still
  contradiction

end Metafolder
