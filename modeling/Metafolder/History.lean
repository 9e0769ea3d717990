import Metafolder.Writes

/-!
# Histories

The history of a store is the list of all operations ever recorded in it, with the data after each:
each was performed on the data the one before it left, from the empty store to the store as it is,
and the log holds those it has not forgotten, under their place in the list.
-/

namespace Metafolder

/-! ### Sequences of operations on the data -/

/-- Operations performed one after the other, with the data after each. -/
def KvTxn.Chain [Externals] (tx : KvTxn) : List (NewOp × KvTxn) → KvTxn → Prop
  | [], after => after = tx
  | (op, next) :: rest, after => tx.Performed op next ∧ next.Chain rest after

namespace KvTxn

variable [Externals]

theorem Chain.append {tx middle after : KvTxn} {first second : List (NewOp × KvTxn)}
    (one : tx.Chain first middle) (two : middle.Chain second after) :
    tx.Chain (first ++ second) after := by
  induction first generalizing tx with
  | nil =>
      rw [Chain] at one
      exact one ▸ two
  | cons head rest ih => exact ⟨one.1, ih one.2⟩

/-- What each operation keeps, a sequence of operations keeps, at every step. -/
theorem Chain.induction (property : KvTxn → Prop) {tx after : KvTxn}
    {steps : List (NewOp × KvTxn)} (chain : tx.Chain steps after)
    (kept : ∀ {tx op next}, (op, next) ∈ steps → tx.Performed op next → property tx → property next)
    (start : property tx) : property after ∧ ∀ step ∈ steps, ∃ before, property before ∧
      before.Performed step.1 step.2 ∧ property step.2 := by
  induction steps generalizing tx with
  | nil =>
      rw [Chain] at chain
      exact ⟨chain ▸ start, by simp⟩
  | cons head rest ih =>
      have first := kept List.mem_cons_self chain.1 start
      obtain ⟨last, others⟩ := ih chain.2 (fun member => kept (List.mem_cons_of_mem _ member)) first
      refine ⟨last, fun step member => ?_⟩
      rcases List.mem_cons.mp member with rfl | member
      · exact ⟨tx, start, chain.1, first⟩
      · exact others step member

end KvTxn

/-! ### What the log holds -/

namespace Log

/-- The operation a log row is of. -/
structure Row (id : Int64) (op : NewOp) (row : OpRow) : Prop where
  /-- It is under its id. -/
  id_eq : row.id = id
  /-- It is of the operation. -/
  eq : row = { row with
    opType := op.opType
    entityUuid := op.entity
    entityVersionBefore := op.versionBefore
    entityVersionAfter := op.versionAfter
    fieldName := op.fieldName
    revertsOpId := op.revertsOpId
    origin := op.origin }

/-- The log holds operations of a list, each with its rows, under its place in the list. -/
def Holds (log : Log) (ops : List NewOp) : Prop :=
  ∀ ⦃key row⦄, log.ops.get key = some row → ∃ (i : Nat) (op : NewOp), ops[i]? = some op ∧
    row.id.toInt = i + 1 ∧ key = be row.id ∧ Row row.id op row ∧
      log.snapshots row.id false = op.before.map FieldRow.stored ∧
      log.snapshots row.id true = op.after.map FieldRow.stored

/-- The log holds every operation of a list, from a place on. -/
def HoldsAll (log : Log) (ops : List NewOp) : Prop :=
  ∀ ⦃i : Nat⦄, i < ops.length → ∃ row, log.ops.get (be (Int64.ofInt (i + 1))) = some row

theorem snapKey_inj {first second : Int64} {sideFirst sideSecond : Bool} :
    snapKey first sideFirst = snapKey second sideSecond ↔
      first = second ∧ sideFirst = sideSecond := by
  constructor
  · intro same
    obtain ⟨ids, sides⟩ := be_append_inj same
    refine ⟨ids, ?_⟩
    cases sideFirst <;> cases sideSecond <;> simp at sides ⊢
  · rintro ⟨rfl, rfl⟩
    rfl

theorem ops_putOp (log : Log) (label timestamp id : Int64) (new : NewOp) :
    (log.putOp label timestamp id new).ops = log.ops.put (be id)
      ⟨id, label, timestamp, new.opType, new.entity, new.versionBefore, new.versionAfter,
        new.fieldName, new.revertsOpId, new.origin⟩ := by
  unfold putOp putClass
  dsimp only
  split <;> rfl

theorem snapshots_putOp (log : Log) (label timestamp id : Int64) (new : NewOp) (other : Int64)
    (side : Bool) : (log.putOp label timestamp id new).snapshots other side =
      if id = other then (if side then new.after else new.before).map FieldRow.stored
      else log.snapshots other side := by
  have snaps : (log.putOp label timestamp id new).snaps =
      (log.snaps.put (snapKey id false) (new.before.map FieldRow.stored)).put
        (snapKey id true) (new.after.map FieldRow.stored) := by
    unfold putOp putClass
    dsimp only
    split <;> rfl
  simp only [snapshots, snaps, Table.get_put, snapKey_inj]
  by_cases same : id = other <;> cases side <;> simp [same]

theorem Holds.putOp {log : Log} {ops : List NewOp} (holds : log.Holds ops)
    {label timestamp id : Int64} (next : id.toInt = ops.length + 1) (new : NewOp) :
    (log.putOp label timestamp id new).Holds (ops ++ [new]) := by
  intro key row found
  rw [ops_putOp, Table.get_put] at found
  split at found
  next same =>
    rw [Option.some.injEq] at found
    subst found
    refine ⟨ops.length, new, by simp, next, same.symm, ⟨rfl, rfl⟩, ?_, ?_⟩
    · rw [snapshots_putOp, if_pos rfl]
      rfl
    · rw [snapshots_putOp, if_pos rfl]
      rfl
  next =>
    obtain ⟨i, op, listed, place, keyed, of_op, before, after⟩ := holds found
    have bound : i < ops.length := (List.getElem?_eq_some_iff.mp listed).1
    have other : id ≠ row.id := by
      rintro rfl
      omega
    refine ⟨i, op, ?_, place, keyed, of_op, ?_, ?_⟩
    · rw [List.getElem?_append_left bound, listed]
    · rw [snapshots_putOp, if_neg other, before]
    · rw [snapshots_putOp, if_neg other, after]

theorem HoldsAll.putOp {log : Log} {ops : List NewOp} (all : log.HoldsAll ops)
    {label timestamp id : Int64} (next : id.toInt = ops.length + 1) (new : NewOp) :
    (log.putOp label timestamp id new).HoldsAll (ops ++ [new]) := by
  intro i bound
  rw [ops_putOp, Table.get_put]
  split
  next => exact ⟨_, rfl⟩
  next differ =>
    refine all (Nat.lt_of_le_of_ne (by simpa [Nat.lt_succ_iff] using bound) ?_)
    rintro rfl
    refine differ (congrArg be ?_)
    rw [← next, Int64.ofInt_toInt]

/-- Operations put in a log that holds those before them. -/
theorem putOps_holds {log recorded : Log} {label timestamp base last : Int64}
    {earlier ops : List NewOp} (holds : log.Holds earlier) (next : base.toInt = earlier.length + 1)
    (put : log.putOps label timestamp base ops = .ok (last, recorded)) :
    recorded.Holds (earlier ++ ops) ∧ last.toInt = (earlier ++ ops).length + 1 ∧
      (log.HoldsAll earlier → recorded.HoldsAll (earlier ++ ops)) := by
  induction ops generalizing log base earlier with
  | nil =>
      rw [putOps, Except.pure_eq_ok, Prod.mk.injEq] at put
      obtain ⟨rfl, rfl⟩ := put
      rw [List.append_nil]
      exact ⟨holds, next, id⟩
  | cons new rest ih =>
      obtain ⟨bumped, added, others⟩ := Except.bind_eq_ok.mp put
      have one : bumped.toInt = (earlier ++ [new]).length + 1 := by
        rw [toInt_addInt64 added, next]
        simp
      obtain ⟨kept, counted, all⟩ := ih (holds.putOp next new) one others
      rw [List.append_assoc, List.singleton_append] at kept counted all
      exact ⟨kept, counted, fun full => all (full.putOp next new)⟩

theorem Appended.holds {log after : Log} {label timestamp : Int64} {earlier ops : List NewOp}
    (appended : log.Appended label timestamp ops after) (holds : log.Holds earlier)
    (next : log.nextOp.toInt = earlier.length + 1) :
    after.Holds (earlier ++ ops) ∧ after.nextOp.toInt = (earlier ++ ops).length + 1 ∧
      (log.HoldsAll earlier → after.HoldsAll (earlier ++ ops)) := by
  obtain ⟨last, recorded, put, rfl⟩ := appended
  have spec := putOps_holds holds next put
  exact spec

/-! ### What forgets operations, and what does not -/

/-- A log with fewer operations: those it holds are as they were. -/
structure Fewer (log after : Log) : Prop where
  /-- An operation left is as it was. -/
  ops_subset : ∀ {key row}, after.ops.get key = some row → log.ops.get key = some row
  /-- Its rows are as they were. -/
  snapshots_eq : ∀ {key row}, after.ops.get key = some row → key = be row.id → ∀ side,
    after.snapshots row.id side = log.snapshots row.id side
  /-- The counter of operation ids stays. -/
  nextOp_eq : after.nextOp = log.nextOp

theorem Fewer.refl (log : Log) : Fewer log log := ⟨id, fun _ _ _ => rfl, rfl⟩

theorem Fewer.trans {log middle after : Log} (one : Fewer log middle) (two : Fewer middle after) :
    Fewer log after where
  ops_subset found := one.ops_subset (two.ops_subset found)
  snapshots_eq found keyed side :=
    (two.snapshots_eq found keyed side).trans (one.snapshots_eq (two.ops_subset found) keyed side)
  nextOp_eq := two.nextOp_eq.trans one.nextOp_eq

/-- A log whose operations are untouched. -/
theorem Fewer.of_eq {log after : Log} (ops_eq : after.ops = log.ops)
    (snaps_eq : after.snaps = log.snaps) (nextOp_eq : after.nextOp = log.nextOp) :
    Fewer log after := by
  refine ⟨fun found => ?_, fun _ _ _ => ?_, nextOp_eq⟩
  · rwa [← ops_eq]
  · rw [snapshots, snaps_eq]
    rfl

theorem Fewer.holds {log after : Log} (fewer : Fewer log after) {ops : List NewOp}
    (holds : log.Holds ops) : after.Holds ops := by
  intro key row found
  obtain ⟨i, op, listed, place, keyed, of_op, before, puts⟩ := holds (fewer.ops_subset found)
  exact ⟨i, op, listed, place, keyed, of_op, (fewer.snapshots_eq found keyed _).trans before,
    (fewer.snapshots_eq found keyed _).trans puts⟩

theorem fewer_removeOp (log : Log) (id : Int64) : Fewer log (log.removeOp id) := by
  unfold removeOp
  split
  next => exact .refl log
  next held found =>
    refine ⟨fun left => ?_, fun left keyed side => ?_, rfl⟩
    · simp only [Table.get_delete] at left
      split at left
      · simp at left
      · exact left
    · simp only [Table.get_delete] at left
      split at left
      next => simp at left
      next differ =>
        have other : id ≠ _ := fun same => differ (by rw [keyed, same])
        simp [snapshots, Table.get_delete, snapKey_inj, other]

theorem fewer_dropLabel (log : Log) (id : Int64) : Fewer log (log.dropLabel id) := by
  unfold dropLabel
  split <;> exact .of_eq rfl rfl rfl

theorem fewer_dropIfEmpty (fuel : Nat) (log : Log) (label : Option Int64) :
    Fewer log (dropIfEmpty fuel log label) := by
  induction fuel generalizing log label with
  | zero => exact .refl log
  | succ fuel ih =>
      cases label with
      | none => exact .refl log
      | some label =>
          rw [dropIfEmpty]
          split
          · exact .refl log
          · split
            · exact (fewer_dropLabel log label).trans (ih _ _)
            · exact .refl log

/-- Steps each of which forgets operations, or none. -/
theorem fewer_foldl {α : Type} {step : Log → α → Log} (stepped : ∀ log item, Fewer log (step log item))
    (items : List α) (log : Log) : Fewer log (items.foldl step log) := by
  induction items generalizing log with
  | nil => exact .refl log
  | cons head tail ih => exact (stepped log head).trans (ih _)

theorem fewer_deleteOps (log : Log) (ids : List Int64) : Fewer log (log.deleteOps ids) :=
  (fewer_foldl fewer_removeOp ids log).trans
    (fewer_foldl (fun held label => fewer_dropIfEmpty _ held (some label)) _ _)

theorem fewer_trim (log : Log) (retention : Retention) (keepFrom : Int64) :
    Fewer log (log.trim retention keepFrom) := by
  unfold trim
  split
  · exact .refl log
  · dsimp only
    split
    · exact .refl log
    · exact fewer_deleteOps log _

/-- Opening a label leaves the operations. -/
structure SameOps (log after : Log) : Prop where
  /-- The operations stay. -/
  ops_eq : after.ops = log.ops
  /-- Their rows stay. -/
  snaps_eq : after.snaps = log.snaps
  /-- The counter of operation ids stays. -/
  nextOp_eq : after.nextOp = log.nextOp
  /-- The newest operation stays. -/
  head_eq : after.head = log.head

theorem SameOps.refl (log : Log) : SameOps log log := ⟨rfl, rfl, rfl, rfl⟩

theorem SameOps.trans {log middle after : Log} (one : SameOps log middle)
    (two : SameOps middle after) : SameOps log after :=
  ⟨two.ops_eq.trans one.ops_eq, two.snaps_eq.trans one.snaps_eq, two.nextOp_eq.trans one.nextOp_eq,
    two.head_eq.trans one.head_eq⟩

theorem sameOps_putLabel {log after : Log} {held : LabelMeta} {command : Option Uuid} {id : Int64}
    (ran : log.putLabel held command = .ok (id, after)) : SameOps log after := by
  simp only [putLabel, Except.bind_eq_ok, Except.pure_eq_ok, Prod.mk.injEq] at ran
  obtain ⟨bumped, -, -, rfl⟩ := ran
  exact ⟨rfl, rfl, rfl, rfl⟩

theorem sameOps_createCommandLabel {log after : Log} {held : LabelMeta} {key : Uuid} {id : Int64}
    (ran : log.createCommandLabel held key = .ok (id, after)) : SameOps log after := by
  simp only [createCommandLabel, Except.bind_eq_ok, Except.pure_eq_ok, Prod.exists,
    Prod.mk.injEq] at ran
  obtain ⟨label, opened, opening, -, rfl⟩ := ran
  obtain ⟨ops_eq, snaps_eq, nextOp_eq, head_eq⟩ := sameOps_putLabel opening
  exact ⟨ops_eq, snaps_eq, nextOp_eq, head_eq⟩

end Log

namespace Writer

/-- The label of what is seen on the disk is there, or is made. -/
theorem watcherRoot_cases {log after : Log} {timestamp id : Int64}
    (ran : watcherRoot log timestamp = .ok (id, after)) :
    (log.label id).isSome ∧ after = log ∨
      ∃ labelled, log.putLabel ⟨"watcher", some "What the daemon recorded for the filesystem", none,
        timestamp⟩ none = .ok (id, labelled) ∧ after = { labelled with watcherLabel := some id } := by
  unfold watcherRoot at ran
  dsimp only at ran
  split at ran
  next root named =>
    split at ran
    next there =>
      simp only [Except.pure_eq_ok, Prod.mk.injEq] at ran
      obtain ⟨rfl, rfl⟩ := ran
      exact .inl ⟨there, rfl⟩
    next =>
      simp only [Except.bind_eq_ok, Except.pure_eq_ok, Prod.exists, Prod.mk.injEq] at ran
      obtain ⟨_, labelled, opening, rfl, rfl⟩ := ran
      exact .inr ⟨labelled, opening, rfl⟩
  next =>
    simp only [Except.bind_eq_ok, Except.pure_eq_ok, Prod.exists, Prod.mk.injEq] at ran
    obtain ⟨_, labelled, opening, rfl, rfl⟩ := ran
    exact .inr ⟨labelled, opening, rfl⟩

theorem sameOps_watcherRoot {log after : Log} {timestamp id : Int64}
    (ran : watcherRoot log timestamp = .ok (id, after)) : log.SameOps after := by
  obtain ⟨-, rfl⟩ | ⟨labelled, opening, rfl⟩ := watcherRoot_cases ran
  · exact .refl after
  · obtain ⟨ops_eq, snaps_eq, nextOp_eq, head_eq⟩ := Log.sameOps_putLabel opening
    exact ⟨ops_eq, snaps_eq, nextOp_eq, head_eq⟩

theorem sameOps_openLabel {log after : Log} {context : WriteContext} {timestamp label : Int64}
    {opened : Bool} {origin : Option String}
    (ran : openLabel log context timestamp = .ok ((label, opened, origin), after)) :
    log.SameOps after := by
  cases context with
  | «in» id =>
      simp only [openLabel, Except.bind_eq_ok, Except.pure_eq_ok, Prod.mk.injEq] at ran
      obtain ⟨-, -, -, rfl⟩ := ran
      exact .refl _
  | new held =>
      simp only [openLabel, Except.bind_eq_ok, Except.pure_eq_ok, Prod.exists,
        Prod.mk.injEq] at ran
      obtain ⟨granted, -, id, opened, opening, -, rfl⟩ := ran
      exact Log.sameOps_putLabel opening
  | command key held =>
      simp only [openLabel] at ran
      split at ran
      · simp only [Except.pure_eq_ok, Prod.mk.injEq] at ran
        rw [ran.2]
        exact .refl after
      · simp only [Except.bind_eq_ok, Except.pure_eq_ok, Prod.exists, Prod.mk.injEq] at ran
        obtain ⟨granted, -, id, opened, opening, -, rfl⟩ := ran
        exact Log.sameOps_createCommandLabel opening
  | watcher =>
      simp only [openLabel, Except.bind_eq_ok, Except.pure_eq_ok, Prod.exists,
        Prod.mk.injEq] at ran
      obtain ⟨root, rooted, rooting, id, opened, opening, -, rfl⟩ := ran
      exact (sameOps_watcherRoot rooting).trans (Log.sameOps_putLabel opening)

/-! ### Whole transactions -/

variable [Externals]

theorem Writes.chain {w after : Writer} {steps : List (NewOp × KvTxn)}
    (writes : Writes w steps after) : w.tx.Chain steps after.tx := by
  induction writes with
  | quiet step => exact step.tx_eq
  | operation step => exact ⟨step.performed, rfl⟩
  | append _ _ one two => exact one.append two

theorem Writes.recorded {w after : Writer} {steps : List (NewOp × KvTxn)}
    (writes : Writes w steps after) {start : Log} {ops : List NewOp}
    (recorded : w.Recorded start ops) : after.Recorded start (ops ++ steps.map Prod.fst) := by
  induction writes generalizing ops with
  | quiet step =>
      rw [step.eq, List.map_nil, List.append_nil]
      exact recorded
  | operation step => exact step.recorded recorded
  | append _ _ one two =>
      rw [List.map_append, ← List.append_assoc]
      exact two (one recorded)

theorem Writes.retention_eq {w after : Writer} {steps : List (NewOp × KvTxn)}
    (writes : Writes w steps after) : after.retention = w.retention := by
  induction writes with
  | quiet step => rw [step.eq]
  | operation step => rw [step.eq]
  | append _ _ one two => exact two.trans one

omit [Externals] in
theorem beginIn_spec {store : KvStore} {context : WriteContext} {retention : Retention}
    {timestamp : Int64} {w : Writer} (ran : beginIn store context retention timestamp = .ok w) :
    w.tx = store.tx ∧ store.log.SameOps w.log ∧ w.Recorded w.log [] ∧ w.retention = retention ∧
      w.treeLost = [] ∧ w.deferredTypes = none ∧ w.deferredTrees = none ∧
        w.fieldTypes = fun _ => none := by
  simp only [beginIn, Except.bind_eq_ok, Except.pure_eq_ok, Prod.exists] at ran
  obtain ⟨label, opened, origin, log, opening, rfl⟩ := ran
  exact ⟨rfl, sameOps_openLabel opening, ⟨[], rfl, rfl, rfl, .nil _ _ _⟩, rfl, rfl, rfl, rfl, rfl⟩

/-- A commit lands the data as it is, once its checks pass, and the operations recorded. -/
theorem commit_spec {w : Writer} {after : KvStore} (ran : w.commit = .ok after) :
    after.tx = w.tx ∧ w.checkForestIntegrity = .ok () ∧ w.checkDeferredTypes = .ok () ∧
      w.checkDeferredTrees = .ok () ∧
      ∀ {start ops}, w.Recorded start ops → ∃ recorded : Log,
        start.Appended w.labelId w.timestamp ops recorded ∧ recorded.Fewer after.log ∧
          (w.retention = .unlimited → after.log.ops = recorded.ops) := by
  simp only [commit, Except.bind_eq_ok] at ran
  obtain ⟨⟨⟩, forest, ⟨⟩, types, ⟨⟩, trees, ending⟩ := ran
  split at ending
  next idle =>
    rw [Except.pure_eq_ok] at ending
    subst ending
    refine ⟨rfl, forest, types, trees, ?_⟩
    rintro start ops ⟨appended, rfl, flushed, -, earlier⟩
    obtain rfl : appended = [] := List.eq_nil_of_length_eq_zero (flushed.symm.trans idle.1)
    rw [idle.2]
    refine ⟨w.log, earlier, ?_, fun _ => ?_⟩
    · split
      · exact Log.fewer_dropLabel w.log w.labelId
      · exact .refl w.log
    · split
      · unfold Log.dropLabel
        split <;> rfl
      · rfl
  next =>
    simp only [Except.bind_eq_ok, Except.pure_eq_ok] at ending
    obtain ⟨flushed, flushing, rfl⟩ := ending
    obtain ⟨flushed_eq, none_pending, recorded, -⟩ := flushPending_spec flushing
    have same : flushed.tx = w.tx ∧ flushed.labelId = w.labelId ∧
        flushed.timestamp = w.timestamp ∧ flushed.retention = w.retention := by
      rw [flushed_eq]
      exact ⟨rfl, rfl, rfl, rfl⟩
    refine ⟨same.1, forest, types, trees, ?_⟩
    intro start ops earlier
    obtain ⟨appended, rfl, -, -, put⟩ := recorded earlier
    rw [none_pending, List.append_nil]
    rw [same.2.1, same.2.2.1] at put
    have headed : flushed.log.Fewer { flushed.log with head := flushed.chainHead } :=
      .of_eq rfl rfl rfl
    refine ⟨flushed.log, put, ?_, fun unlimited => ?_⟩
    · split
      · exact headed.trans (Log.fewer_trim _ _ _)
      · exact headed
    · rw [same.2.2.2, unlimited]
      split <;> rfl

end Writer

variable [Externals]

/-- A transaction is a sequence of operations between its opening and its commit. -/
theorem Transaction.run_spec {transaction : Transaction} {store after : KvStore}
    (consistent : store.tx.primary.Consistent) (kind : OpType → Prop) (usual : Writer.Usual kind)
    (fits : ∀ made ∈ transaction.calls, ∀ opType ∈ made.opTypes, kind opType)
    (ran : transaction.run store = .ok after) :
    ∃ w steps last,
      Writer.beginIn store transaction.context transaction.retention transaction.timestamp = .ok w ∧
      Writer.Writes w steps last ∧ (∀ step ∈ steps, kind step.1.opType) ∧
      last.commit = .ok after := by
  simp only [Transaction.run, Except.bind_eq_ok] at ran
  obtain ⟨w, opening, last, calling, committing⟩ := ran
  have same := (Writer.beginIn_spec opening).1
  rw [← same] at consistent
  obtain ⟨steps, writes, kinds⟩ := Writer.calls_leads usual consistent fits calling
  exact ⟨w, steps, last, opening, writes, kinds, committing⟩

/-- The history of a store: the operations that led to it, and the log as it holds them. -/
structure History (store : KvStore) (steps : List (NewOp × KvTxn)) : Prop where
  /-- Each operation was performed on the data the one before it left. -/
  chain : KvTxn.Chain {} steps store.tx
  /-- The log holds those it has not forgotten. -/
  logged : store.log.Holds (steps.map Prod.fst)
  /-- Operation ids count the operations ever recorded. -/
  nextOp_eq : store.log.nextOp.toInt = steps.length + 1

theorem History.consistent {store : KvStore} {steps : List (NewOp × KvTxn)}
    (history : History store steps) : store.tx.primary.Consistent :=
  (KvTxn.Chain.induction (fun tx => tx.primary.Consistent) history.chain
    (fun _ performed whole => (performed.spec whole).1) (Primary.consistent_of_empty 1)).1

/-- A committed transaction prolongs the history by its operations. -/
theorem History.run {store after : KvStore} {steps : List (NewOp × KvTxn)}
    (history : History store steps) {transaction : Transaction}
    (ran : transaction.run store = .ok after) : ∃ later, History after (steps ++ later) ∧
      (transaction.retention = .unlimited → store.log.HoldsAll (steps.map Prod.fst) →
        after.log.HoldsAll ((steps ++ later).map Prod.fst)) := by
  obtain ⟨w, later, last, opening, writes, -, committing⟩ :=
    Transaction.run_spec history.consistent (fun _ => True) (fun _ => trivial)
      (fun _ _ _ _ => trivial) ran
  obtain ⟨tx_eq, same, recorded, retention, -⟩ := Writer.beginIn_spec opening
  obtain ⟨after_tx, -, -, -, ending⟩ := Writer.commit_spec committing
  obtain ⟨log, appended, fewer, all⟩ := ending (writes.recorded recorded)
  have start : w.log.Holds (steps.map Prod.fst) :=
    (Log.Fewer.of_eq same.ops_eq same.snaps_eq same.nextOp_eq).holds history.logged
  have next : w.log.nextOp.toInt = (steps.map Prod.fst).length + 1 := by
    rw [same.nextOp_eq, history.nextOp_eq, List.length_map]
  obtain ⟨holds, counted, full⟩ := appended.holds start next
  refine ⟨later, ⟨?_, ?_, ?_⟩, fun unlimited before => ?_⟩
  · rw [after_tx]
    exact history.chain.append (tx_eq ▸ writes.chain)
  · rw [List.map_append]
    exact fewer.holds holds
  · rw [fewer.nextOp_eq, counted]
    simp
  · rw [List.map_append]
    rw [Log.HoldsAll, all (writes.retention_eq.trans (retention.trans unlimited))]
    refine full fun i bound => ?_
    rw [same.ops_eq]
    exact before bound

omit [Externals] in
theorem Log.holds_nil : ({} : Log).Holds [] := by
  intro key row found
  simp at found

/-- Every reachable store has a history; with retention unlimited its log holds it whole. -/
theorem Reachable.history {kind : Transaction → Prop} {store : KvStore}
    (reached : Reachable kind store) : ∃ steps, History store steps ∧
      ((∀ {transaction}, kind transaction → transaction.retention = .unlimited) →
        store.log.HoldsAll (steps.map Prod.fst)) := by
  induction reached with
  | new => exact ⟨[], ⟨rfl, Log.holds_nil, rfl⟩, fun _ _ bound => absurd bound (Nat.not_lt_zero _)⟩
  | commit transaction _ fits ran ih =>
      obtain ⟨steps, history, full⟩ := ih
      obtain ⟨later, prolonged, all⟩ := history.run ran
      exact ⟨steps ++ later, prolonged, fun unlimited => all (unlimited fits) (full unlimited)⟩

end Metafolder
