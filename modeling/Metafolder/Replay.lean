import Metafolder.History
import Mathlib.Data.Multiset.UnionInter

/-!
# The log as a diff of the data

The rows of a store are what the operations of its log leave when each, in the order of their ids,
takes its old rows away from the rows so far and adds its new ones: as long as nothing is trimmed,
the log is the data.  The version of a metarecord follows the same rows.
-/

namespace Metafolder

/-! ### Versions -/

variable [Externals]

/-- The version stored of every metarecord is that of its rows, at the end and right after each
operation ever recorded; so the same rows, up to their ids, have the same version. -/
theorem versions_follow_rows {store : KvStore} (reached : Reachable (fun _ => True) store) :
    (∀ {uuid version}, store.tx.primary.version uuid = some version →
      version = Version.ofRows uuid (store.tx.primary.rows uuid)) ∧
    (∀ {other : KvStore}, Reachable (fun _ => True) other → ∀ {uuid first second},
      store.tx.primary.version uuid = some first → other.tx.primary.version uuid = some second →
        ((store.tx.primary.rows uuid).map Version.content).Perm
          ((other.tx.primary.rows uuid).map Version.content) → first = second) ∧
    ∃ steps, History store steps ∧ ∀ step ∈ steps,
      step.2.primary.version step.1.entity = step.1.versionAfter ∧
        ∀ {uuid version}, step.2.primary.version uuid = some version →
          version = Version.ofRows uuid (step.2.primary.rows uuid) := by
  have follows : ∀ {store : KvStore} {steps : List (NewOp × KvTxn)}, History store steps →
      KvTxn.Versioned store.tx.primary ∧ ∀ step ∈ steps,
        step.2.primary.version step.1.entity = step.1.versionAfter ∧
          KvTxn.Versioned step.2.primary := by
    intro store steps history
    obtain ⟨⟨-, last⟩, each⟩ := KvTxn.Chain.induction
      (fun tx => tx.primary.Consistent ∧ KvTxn.Versioned tx.primary) history.chain
      (fun _ performed held => ⟨(performed.spec held.1).1, performed.versioned held.1 held.2⟩)
      ⟨Primary.consistent_of_empty 1, by simp [KvTxn.Versioned, Primary.version]⟩
    refine ⟨last, fun step member => ?_⟩
    obtain ⟨before, ⟨whole, -⟩, performed, -, versioned⟩ := each step member
    obtain ⟨-, -, -, versions⟩ := performed.spec whole
    exact ⟨by rw [versions, if_pos rfl], versioned⟩
  obtain ⟨steps, history, -⟩ := reached.history
  obtain ⟨versioned, each⟩ := follows history
  refine ⟨versioned, ?_, steps, history, each⟩
  intro other reached_other uuid first second found found_other same
  obtain ⟨steps_other, history_other, -⟩ := reached_other.history
  rw [versioned found, (follows history_other).1 found_other]
  exact Version.ofRows_eq (Version.sum_term_perm same)

/-- The metarecord the sample below writes. -/
def sampleUuid : Uuid := ⟨List.replicate 16 1, by simp⟩

/-- A write that creates a metarecord, gives it a second value and then replaces its first. -/
def sampleEdit : Transaction where
  context := .new ⟨"edit", none, none⟩
  retention := .unlimited
  timestamp := 7
  calls :=
    [.createMetarecord sampleUuid [⟨"note", .string "first"⟩],
      .appendField sampleUuid "note" (.string "second"),
      .replaceField sampleUuid 1 (.string "third")]

omit [Externals] in
theorem sampleEdit_run : (fun store : KvStore =>
    (store.log.nextOp, (store.tx.primary.rows sampleUuid).length,
      (store.tx.primary.version sampleUuid).isSome)) <$>
        @Transaction.run plainExternals sampleEdit {} = .ok (5, 2, true) := by
  decide +kernel

omit [Externals] in
theorem versions_follow_rows_edit : ∃ store version,
    @Transaction.run plainExternals sampleEdit {} = .ok store ∧
      store.tx.primary.version sampleUuid = some version ∧
        version = @Version.ofRows plainExternals sampleUuid (store.tx.primary.rows sampleUuid) := by
  let _ : Externals := plainExternals
  obtain ⟨store, ran, counted⟩ := Except.map_eq_ok.mp sampleEdit_run
  have reached : Reachable (fun _ => True) store := .commit sampleEdit .new trivial ran
  rw [Prod.mk.injEq, Prod.mk.injEq] at counted
  obtain ⟨version, found⟩ := Option.isSome_iff_exists.mp counted.2.2
  exact ⟨store, version, ran, found, (versions_follow_rows reached).1 found⟩

/-! ### Folding the log -/

/-- A row of some metarecord. -/
abbrev OwnedRow := Uuid × FieldRow

/-- One operation as a diff: the rows it takes away are there, and those it puts are added. -/
def redo (rows : Multiset OwnedRow) (op : Uuid × List FieldRow × List FieldRow) :
    Option (Multiset OwnedRow) :=
  let before : Multiset OwnedRow := op.2.1.map fun row => (op.1, row)
  let after : Multiset OwnedRow := op.2.2.map fun row => (op.1, row)
  if before ≤ rows then some (rows - before + after) else none

namespace Log

/-- The operations the log holds, in the order of their ids. -/
def operations (log : Log) : List OpRow :=
  (log.ops.entries.map Prod.snd).insertionSort fun first second => first.id.toInt ≤ second.id.toInt

/-- An operation of the log and its two snapshots. -/
def diff (log : Log) (op : OpRow) : Uuid × List FieldRow × List FieldRow :=
  (op.entityUuid, log.snapshots op.id false, log.snapshots op.id true)

/-- The operations folded from the empty store. -/
def replay (log : Log) : Option (Multiset OwnedRow) :=
  (log.operations.map log.diff).foldlM redo 0

/-- The diff an operation is logged as. -/
def diffOf (op : NewOp) : Uuid × List FieldRow × List FieldRow :=
  (op.entity, op.before.map FieldRow.stored, op.after.map FieldRow.stored)

omit [Externals] in
/-- A log that holds every operation of a list holds them in its order. -/
theorem operations_diff {log : Log} {ops : List NewOp} (holds : log.Holds ops)
    (all : log.HoldsAll ops) (next : log.nextOp.toInt = ops.length + 1) :
    log.operations.map log.diff = ops.map diffOf := by
  have inhabited : Nonempty OpRow :=
    ⟨⟨0, 0, 0, .unknown, Uuid.zero, none, none, none, none, none⟩⟩
  have every : ∀ i, i < ops.length → ∃ row, log.ops.get (be (Int64.ofInt (i + 1))) = some row :=
    fun i bound => all bound
  choose! row found using every
  have at_place : ∀ i < ops.length, (row i).id.toInt = i + 1 ∧
      ∃ op, ops[i]? = some op ∧ log.diff (row i) = diffOf op := by
    intro i bound
    obtain ⟨j, op, listed, place, keyed, of_op, before, after⟩ := holds (found i bound)
    have small : (i : Int) + 1 < 2 ^ 63 := by
      have limit := log.nextOp.toInt_lt
      omega
    have id_eq : (row i).id.toInt = i + 1 := by
      rw [← be_inj.mp keyed]
      exact Int64.toInt_ofInt_of_le (by omega) small
    obtain rfl : i = j := by omega
    have entity : (row i).entityUuid = op.entity := by rw [of_op.eq]
    exact ⟨id_eq, op, listed, by rw [diff, diffOf, entity, before, after]⟩
  have apart : ∀ i < ops.length, ∀ j < ops.length, (row i).id.toInt = (row j).id.toInt → i = j := by
    intro i bound_i j bound_j same
    rw [(at_place i bound_i).1, (at_place j bound_j).1] at same
    omega
  have listed : ∀ op, op ∈ log.ops.entries.map Prod.snd ↔ op ∈ (List.range ops.length).map row := by
    intro op
    simp only [List.mem_map, Prod.exists, exists_eq_right, Table.mem_entries, List.mem_range]
    constructor
    · rintro ⟨key, held⟩
      obtain ⟨i, new, of_list, place, keyed, -⟩ := holds held
      have bound : i < ops.length := (List.getElem?_eq_some_iff.mp of_list).1
      refine ⟨i, bound, ?_⟩
      have key_eq : key = be (Int64.ofInt (i + 1)) := by
        rw [keyed, ← place, Int64.ofInt_toInt]
      rw [key_eq, found i bound, Option.some.injEq] at held
      exact held
    · rintro ⟨i, bound, rfl⟩
      exact ⟨_, found i bound⟩
  have sorted : log.operations = (List.range ops.length).map row := by
    have total : Std.Total fun first second : OpRow => first.id.toInt ≤ second.id.toInt :=
      ⟨fun _ _ => le_total _ _⟩
    have trans : IsTrans OpRow fun first second => first.id.toInt ≤ second.id.toInt :=
      ⟨fun _ _ _ => le_trans⟩
    have entries_nodup : (log.ops.entries.map Prod.snd).Nodup := by
      refine List.Nodup.map_on ?_ log.ops.nodup_entries
      rintro ⟨keyFirst, first⟩ memberFirst ⟨keySecond, second⟩ memberSecond same
      obtain ⟨-, -, -, -, keyed, -⟩ := holds ((Table.mem_entries ..).mp memberFirst)
      obtain ⟨-, -, -, -, keyed', -⟩ := holds ((Table.mem_entries ..).mp memberSecond)
      simp only at same
      rw [keyed, keyed', same]
    have range_nodup : ((List.range ops.length).map row).Nodup := by
      refine List.Nodup.map_on ?_ List.nodup_range
      intro i member j member' same
      exact apart i (List.mem_range.mp member) j (List.mem_range.mp member') (by rw [same])
    refine List.Perm.eq_of_pairwise ?_ (List.pairwise_insertionSort _ _) ?_
      ((List.perm_insertionSort _ _).trans
        ((List.perm_ext_iff_of_nodup entries_nodup range_nodup).mpr listed))
    · intro first second memberFirst memberSecond le ge
      have first_listed := (listed first).mp ((List.perm_insertionSort _ _).mem_iff.mp memberFirst)
      obtain ⟨i, bound_i, rfl⟩ := List.mem_map.mp first_listed
      obtain ⟨j, bound_j, rfl⟩ := List.mem_map.mp memberSecond
      rw [apart i (List.mem_range.mp bound_i) j (List.mem_range.mp bound_j) (le_antisymm le ge)]
    · rw [List.pairwise_map]
      refine List.pairwise_lt_range.imp_of_mem ?_
      intro i j member member' less
      rw [(at_place i (List.mem_range.mp member)).1, (at_place j (List.mem_range.mp member')).1]
      omega
  rw [sorted, List.map_map]
  refine List.ext_getElem (by simp) fun i bound _ => ?_
  have inside : i < ops.length := by simpa using bound
  obtain ⟨-, op, place, same⟩ := at_place i inside
  obtain ⟨bounded, rfl⟩ := List.getElem?_eq_some_iff.mp place
  simpa using same

end Log

/-- The rows of a store. -/
def Matches (rows : Multiset OwnedRow) (store : Primary) : Prop :=
  rows.Nodup ∧ ∀ {uuid row}, (uuid, row) ∈ rows ↔ store.Holds uuid row

/-- An operation performed on the data is its diff on the rows. -/
theorem Matches.performed {tx after : KvTxn} (consistent : tx.primary.Consistent)
    {rows : Multiset OwnedRow} (fits : Matches rows tx.primary) {op : NewOp}
    (performed : tx.Performed op after) :
    ∃ left, redo rows (Log.diffOf op) = some left ∧ Matches left after.primary := by
  obtain ⟨-, swapped, -⟩ := performed.spec consistent
  obtain ⟨distinct, mem_rows⟩ := fits
  have stored : op.before.map FieldRow.stored = op.before :=
    (List.map_congr_left fun row member => consistent.stored (swapped.held row member)).trans
      (List.map_id _)
  have owned_inj : Function.Injective fun row : FieldRow => (op.entity, row) :=
    Prod.mk_right_injective op.entity
  have mem_owned : ∀ {list : List FieldRow} {uuid row},
      (uuid, row) ∈ ((list.map fun row => (op.entity, row) : List OwnedRow) :
        Multiset OwnedRow) ↔ uuid = op.entity ∧ row ∈ list := by
    intro list uuid row
    simp only [Multiset.mem_coe, List.mem_map, Prod.mk.injEq]
    constructor
    · rintro ⟨held, member, rfl, rfl⟩
      exact ⟨rfl, member⟩
    · rintro ⟨rfl, member⟩
      exact ⟨row, member, rfl, rfl⟩
  have gone_nodup : ((op.before.map fun row => (op.entity, row) : List OwnedRow) :
      Multiset OwnedRow).Nodup :=
    Multiset.coe_nodup.mpr (swapped.distinct_before.map owned_inj)
  have new_nodup : (((op.after.map FieldRow.stored).map fun row => (op.entity, row) :
      List OwnedRow) : Multiset OwnedRow).Nodup :=
    Multiset.coe_nodup.mpr ((KvTxn.nodup_stored swapped.distinct_after).map owned_inj)
  have present : ((op.before.map fun row => (op.entity, row) : List OwnedRow) :
      Multiset OwnedRow) ≤ rows := by
    refine (Multiset.le_iff_subset gone_nodup).mpr ?_
    rintro ⟨uuid, row⟩ member
    obtain ⟨rfl, taken⟩ := mem_owned.mp member
    exact mem_rows.mpr (swapped.held row taken)
  have left_iff : ∀ {uuid row}, (uuid, row) ∈ rows -
      ((op.before.map fun row => (op.entity, row) : List OwnedRow) : Multiset OwnedRow) ↔
        tx.primary.Holds uuid row ∧ row ∉ op.before := by
    intro uuid row
    rw [Multiset.mem_sub_of_nodup distinct, mem_rows, mem_owned]
    refine and_congr_right fun holds => not_congr ⟨And.right, fun member => And.intro ?_ member⟩
    exact (consistent.holds_unique holds (swapped.held row member) rfl).1
  refine ⟨rows - ((op.before.map fun row => (op.entity, row) : List OwnedRow) :
      Multiset OwnedRow) + (((op.after.map FieldRow.stored).map fun row => (op.entity, row) :
        List OwnedRow) : Multiset OwnedRow), ?_, ?_, fun {uuid row} => ?_⟩
  · rw [redo, Log.diffOf, stored, if_pos present]
  · refine Multiset.nodup_add.mpr
      ⟨Multiset.nodup_of_le (Multiset.sub_le_self _ _) distinct, new_nodup, ?_⟩
    refine Multiset.disjoint_left.mpr ?_
    rintro ⟨uuid, row⟩ kept added
    obtain ⟨holds, left⟩ := left_iff.mp kept
    obtain ⟨rfl, listed⟩ := mem_owned.mp added
    obtain ⟨new, member, rfl⟩ := List.mem_map.mp listed
    exact swapped.fresh holds left new member rfl
  · rw [Multiset.mem_add, left_iff, mem_owned, swapped.holds_iff]
    tauto

theorem Matches.chain {tx after : KvTxn} (consistent : tx.primary.Consistent)
    {rows : Multiset OwnedRow} (fits : Matches rows tx.primary) {steps : List (NewOp × KvTxn)}
    (chain : tx.Chain steps after) :
    ∃ left, ((steps.map Prod.fst).map Log.diffOf).foldlM redo rows = some left ∧
      Matches left after.primary := by
  induction steps generalizing tx rows with
  | nil =>
      rw [KvTxn.Chain] at chain
      exact ⟨rows, rfl, chain ▸ fits⟩
  | cons head rest ih =>
      obtain ⟨performed, others⟩ := chain
      obtain ⟨middle, first, fits_middle⟩ := fits.performed consistent performed
      obtain ⟨left, later, fits_left⟩ := ih (performed.spec consistent).1 fits_middle others
      refine ⟨left, ?_, fits_left⟩
      simp only [List.map_cons, List.foldlM_cons, first]
      exact later

/-- With retention unlimited, the operations of the log folded in the order of their ids, each taking
exactly its old rows from rows that hold them and adding exactly its new ones, are the rows of the
store under their ids. -/
theorem replay_eq_rows {store : KvStore}
    (reached : Reachable (fun transaction => transaction.retention = .unlimited) store) :
    ∃ rows, store.log.replay = some rows ∧ rows.Nodup ∧
      ∀ {uuid row}, (uuid, row) ∈ rows ↔ store.tx.primary.Holds uuid row := by
  obtain ⟨steps, history, full⟩ := reached.history
  have whole := full id
  have empty : Matches 0 (({} : KvTxn).primary) := by
    refine ⟨Multiset.nodup_zero, fun {uuid row} => ?_⟩
    simp [Primary.Holds]
  obtain ⟨rows, folded, fits⟩ :=
    empty.chain (Primary.consistent_of_empty 1) history.chain
  refine ⟨rows, ?_, fits.1, fits.2⟩
  rw [Log.replay, Log.operations_diff history.logged whole
    (by rw [history.nextOp_eq, List.length_map])]
  exact folded

omit [Externals] in
theorem replay_eq_rows_edit : ∃ store rows,
    @Transaction.run plainExternals sampleEdit {} = .ok store ∧ store.log.nextOp = 5 ∧
      store.log.replay = some rows ∧
        ∀ row, (sampleUuid, row) ∈ rows ↔ store.tx.primary.Holds sampleUuid row := by
  let _ : Externals := plainExternals
  obtain ⟨store, ran, counted⟩ := Except.map_eq_ok.mp sampleEdit_run
  have reached : Reachable (fun transaction => transaction.retention = .unlimited) store :=
    .commit sampleEdit .new rfl ran
  obtain ⟨rows, folded, -, held⟩ := replay_eq_rows reached
  rw [Prod.mk.injEq] at counted
  exact ⟨store, rows, ran, counted.1, folded, fun row => held⟩

end Metafolder
