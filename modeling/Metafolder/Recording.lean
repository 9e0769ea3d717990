import Metafolder.Performed
import Metafolder.Writer

/-!
# Recorded operations

Whatever a method of the writer does is a sequence of operations, each performed on the data and
recorded once, and of changes to the writer's notes: the types it has met, the checks it defers, the
origin it writes for.  `Writes` is that sequence; an invariant of a write in progress is shown for
one operation and one change of the notes.
-/

namespace Metafolder

namespace Log

/-- Operations were appended, under consecutive ids. -/
def Appended (log : Log) (label timestamp : Int64) (ops : List NewOp) (after : Log) : Prop :=
  ∃ next recorded, log.putOps label timestamp log.nextOp ops = .ok (next, recorded) ∧
    after = { recorded with nextOp := next }

theorem putOps_append (log : Log) (label timestamp base : Int64) (first second : List NewOp) :
    log.putOps label timestamp base (first ++ second) =
      log.putOps label timestamp base first >>= fun held =>
        held.2.putOps label timestamp held.1 second := by
  induction first generalizing log base with
  | nil => rfl
  | cons new rest ih => simp only [List.cons_append, putOps, ih, bind_assoc]

theorem putOp_nextOp (log : Log) (label timestamp id next : Int64) (new : NewOp) :
    ({ log with nextOp := next } : Log).putOp label timestamp id new =
      { log.putOp label timestamp id new with nextOp := next } := by
  unfold putOp putClass
  dsimp only
  split <;> rfl

/-- The counter of operation ids plays no part in how operations are put. -/
theorem putOps_nextOp {log after : Log} {label timestamp base last : Int64} {ops : List NewOp}
    (next : Int64) (ran : log.putOps label timestamp base ops = .ok (last, after)) :
    ({ log with nextOp := next } : Log).putOps label timestamp base ops =
      .ok (last, { after with nextOp := next }) := by
  induction ops generalizing log base with
  | nil =>
      rw [putOps, Except.pure_eq_ok, Prod.mk.injEq] at ran
      obtain ⟨rfl, rfl⟩ := ran
      rfl
  | cons new rest ih =>
      simp only [putOps, Except.bind_eq_ok] at ran ⊢
      obtain ⟨bumped, added, others⟩ := ran
      refine ⟨bumped, added, ?_⟩
      rw [putOp_nextOp]
      exact ih others

theorem Appended.nil (log : Log) (label timestamp : Int64) : log.Appended label timestamp [] log :=
  ⟨log.nextOp, log, rfl, rfl⟩

theorem Appended.append {log middle after : Log} {label timestamp : Int64}
    {first second : List NewOp} (one : log.Appended label timestamp first middle)
    (two : middle.Appended label timestamp second after) :
    log.Appended label timestamp (first ++ second) after := by
  obtain ⟨next, recorded, put, rfl⟩ := one
  obtain ⟨last, held, putRest, rfl⟩ := two
  have rest := putOps_nextOp recorded.nextOp putRest
  refine ⟨last, { held with nextOp := recorded.nextOp }, ?_, rfl⟩
  rw [putOps_append, put]
  exact rest

theorem appended_of_appendOps {log after : Log} {label timestamp last : Int64} {ops : List NewOp}
    (ran : log.appendOps label timestamp ops = .ok (last, after)) :
    log.Appended label timestamp ops after := by
  simp only [appendOps, Except.bind_eq_ok, Except.pure_eq_ok, Prod.exists, Prod.mk.injEq] at ran
  obtain ⟨next, recorded, put, -, -, -, rfl⟩ := ran
  exact ⟨next, recorded, put, rfl⟩

/-- The id past those of the operations put. -/
theorem putOps_last {log after : Log} {label timestamp base last : Int64} {ops : List NewOp}
    (ran : log.putOps label timestamp base ops = .ok (last, after)) :
    last = base + Int64.ofNat ops.length := by
  induction ops generalizing log base with
  | nil =>
      simp only [putOps, Except.pure_eq_ok, Prod.mk.injEq] at ran
      rw [← ran.1]
      exact (Int64.add_zero base).symm
  | cons new rest ih =>
      obtain ⟨next, added, others⟩ := Except.bind_eq_ok.mp ran
      rw [ih others, addInt64_eq added, List.length_cons, Int64.ofNat_add]
      grind

/-- The first id of a batch, counted back from its last. -/
theorem first_of_appendOps {log after : Log} {label timestamp last first : Int64}
    {ops : List NewOp} (ran : log.appendOps label timestamp ops = .ok (last, after))
    (counted : addInt64 last (1 - Int64.ofNat ops.length) = .ok first) : first = log.nextOp := by
  simp only [appendOps, Except.bind_eq_ok, Except.pure_eq_ok, Prod.exists, Prod.mk.injEq] at ran
  obtain ⟨next, recorded, put, last_op, added, rfl, -⟩ := ran
  rw [addInt64_eq counted, addInt64_eq added, putOps_last put]
  grind

/-- The id of the last operation of a batch. -/
theorem last_of_appendOps {log after : Log} {label timestamp last : Int64} {ops : List NewOp}
    (ran : log.appendOps label timestamp ops = .ok (last, after)) : last = after.nextOp - 1 := by
  simp only [appendOps, Except.bind_eq_ok, Except.pure_eq_ok, Prod.exists, Prod.mk.injEq] at ran
  obtain ⟨next, recorded, -, last_op, added, rfl, rfl⟩ := ran
  rw [addInt64_eq added, Int64.sub_eq_add_neg]

end Log

namespace Writer

/-! ### Changes of the notes -/

/-- The operations recorded since a log are appended to it, or are pending. -/
def Recorded (start : Log) (w : Writer) (ops : List NewOp) : Prop :=
  ∃ appended, ops = appended ++ w.pending ∧ w.flushed = appended.length ∧
    w.firstOp = (if appended = [] then none else some start.nextOp) ∧
      start.Appended w.labelId w.timestamp appended w.log

/-- The newest operation is the last one appended, or the one the write began from. -/
def Headed (base : Option Int64) (w : Writer) : Prop :=
  w.chainHead = if w.flushed = 0 then base else some (w.log.nextOp - 1)

/-- The positions noted to be checked at commit. -/
def noted (w : Writer) : List (Uuid × String × Value) := w.deferredTrees.getD []

/-- The data and the notes of a writer may differ, its log does not, and it defers its checks as
before. -/
structure Ready (w after : Writer) : Prop where
  /-- What may differ. -/
  eq : after = { w with
    tx := after.tx
    fieldTypes := after.fieldTypes
    deferredTypes := after.deferredTypes
    deferredTrees := after.deferredTrees }
  /-- No check noted is forgotten. -/
  noted_subset : w.noted ⊆ after.noted
  /-- Checks are deferred as before. -/
  defers : after.deferredTrees.isSome = w.deferredTrees.isSome

/-- The notes of a writer may differ. -/
structure Quiet (w after : Writer) : Prop where
  /-- What may differ. -/
  eq : after = { w with
    fieldTypes := after.fieldTypes
    deferredTypes := after.deferredTypes
    deferredTrees := after.deferredTrees
    reverting := after.reverting
    origin := after.origin }
  /-- No check noted is forgotten. -/
  noted_subset : w.noted ⊆ after.noted
  /-- Checks once deferred are deferred. -/
  defers : w.deferredTrees.isSome → after.deferredTrees.isSome

@[refl]
theorem Quiet.refl (w : Writer) : Quiet w w := ⟨rfl, fun _ member => member, id⟩

theorem Quiet.forget (w : Writer) (name : String) : Quiet w (w.forget name) :=
  ⟨rfl, fun _ member => member, id⟩

theorem Quiet.tx_eq {w after : Writer} (quiet : Quiet w after) : after.tx = w.tx := by
  rw [quiet.eq]

@[refl]
theorem Ready.refl (w : Writer) : Ready w w := ⟨rfl, fun _ member => member, rfl⟩

theorem Ready.trans {w middle after : Writer} (one : Ready w middle) (two : Ready middle after) :
    Ready w after := by
  refine ⟨?_, fun _ member => two.noted_subset (one.noted_subset member),
    two.defers.trans one.defers⟩
  rw [two.eq, one.eq]

theorem Ready.move (w : Writer) (tx : KvTxn) : Ready w { w with tx := tx } :=
  ⟨rfl, fun _ member => member, rfl⟩

theorem Ready.forget (w : Writer) (name : String) : Ready w (w.forget name) :=
  ⟨rfl, fun _ member => member, rfl⟩

/-- Notes that change while the data stays. -/
theorem Ready.quiet {w after : Writer} (ready : Ready w after) (same : after.tx = w.tx) :
    Quiet w after := by
  refine ⟨?_, ready.noted_subset, fun defers => ready.defers.trans defers⟩
  have eq := ready.eq
  rw [same] at eq
  rw [eq]

/-! ### Operations -/

variable [Externals]

/-- Two stores hold the same rows, those of one metarecord aside. -/
def SameBut (uuid : Uuid) (first second : Primary) : Prop :=
  ∀ ⦃owner row⦄, owner ≠ uuid → (first.Holds owner row ↔ second.Holds owner row)

/-- A value written is no position, or one whose place was checked, or noted to be. -/
def Checked (base : Primary) (after : Writer) (uuid : Uuid) (name : String) (value : Value) : Prop :=
  ∀ ⦃parent node⦄, value.position = some (parent, node) → node.isComponent parent.isNone ∧
    ((uuid, name, value) ∈ after.noted ∨
      after.deferredTrees = none ∧ ∃ store : Primary, store.Consistent ∧ SameBut uuid store base ∧
        checkTreeRef store uuid name value = .ok ())

/-- Two positions of a metarecord in a field may stand together. -/
def Together : Value → Value → Prop
  | .treeRef parentFirst first, .treeRef parentSecond second =>
      parentFirst = parentSecond ∧ first = second
  | .hierarchyRef _ first, .hierarchyRef _ second => first = second
  | _, _ => True

/-- The cells an operation takes a position from. -/
def loses (op : NewOp) : List (String × Uuid) :=
  (op.before.filter fun row => row.value.position.isSome).map fun row => (row.name, op.entity)

/-- One operation of a writer: performed on the data, recorded, and checked. -/
structure Operation (w : Writer) (op : NewOp) (after : Writer) : Prop where
  /-- What may differ. -/
  eq : after = { w with
    tx := after.tx
    log := after.log
    chainHead := after.chainHead
    flushed := after.flushed
    firstOp := after.firstOp
    pending := after.pending
    fieldTypes := after.fieldTypes
    deferredTypes := after.deferredTypes
    deferredTrees := after.deferredTrees
    treeLost := after.treeLost
    effects := after.effects }
  /-- It is performed on the data. -/
  performed : w.tx.Performed op after.tx
  /-- It is recorded once. -/
  recorded : ∀ {start ops}, w.Recorded start ops → after.Recorded start (ops ++ [op])
  /-- The newest operation is followed. -/
  headed : ∀ {base}, w.Headed base → after.Headed base
  /-- The cells that lost a position stay noted. -/
  lost_subset : w.treeLost ⊆ after.treeLost
  /-- A manual operation notes those it takes a position from. -/
  loses_subset : op.opType.isManual → loses op ⊆ after.treeLost
  /-- What it implies is noted. -/
  effects_eq : after.effects = w.effects.observe op.before op.after op.entity
  /-- No check noted is forgotten. -/
  noted_subset : w.noted ⊆ after.noted
  /-- Checks are deferred as before. -/
  defers : after.deferredTrees.isSome = w.deferredTrees.isSome
  /-- The positions it puts are checked, or noted to be. -/
  checked : ∀ row ∈ op.after, Checked w.tx.primary after op.entity row.name row.value
  /-- The positions it puts may stand beside those of their field. -/
  together : ∀ row ∈ op.after, ∀ {other}, after.tx.primary.Holds op.entity other →
    other.name = row.name → Together row.value.stored other.value

/-- A sequence of operations, with the data after each, and of changes to the notes. -/
inductive Writes : Writer → List (NewOp × KvTxn) → Writer → Prop
  /-- The notes change. -/
  | quiet {w after : Writer} (step : Quiet w after) : Writes w [] after
  /-- An operation. -/
  | operation {w after : Writer} {op : NewOp} (step : Operation w op after) :
      Writes w [(op, after.tx)] after
  /-- One sequence and then another. -/
  | append {w middle after : Writer} {first second : List (NewOp × KvTxn)}
      (one : Writes w first middle) (two : Writes middle second after) :
      Writes w (first ++ second) after

/-! ### How an operation is recorded -/

omit [Externals] in
theorem currentVersion_eq_ok {w : Writer} {uuid : Uuid} {version : UInt64} :
    w.currentVersion uuid = .ok version ↔ w.tx.primary.version uuid = some version := by
  unfold currentVersion
  split <;> simp_all

/-- The operation `log_op` records. -/
def recordedOp (w : Writer) (opType : OpType) (entity : Uuid) (fieldName : Option String)
    (versionBefore : Option UInt64) (before after : List FieldRow) : NewOp where
  opType := opType
  entity := entity
  fieldName := fieldName
  versionBefore := versionBefore
  versionAfter := (w.tx.primary.version entity).map fun current =>
    Version.apply current (Version.delta before after).1 (Version.delta before after).2
  before := before
  after := after
  revertsOpId := w.reverting
  origin := w.origin

/-- What `log_op` does with an operation. -/
structure Logged (w : Writer) (op : NewOp) (after : Writer) : Prop where
  /-- What may differ. -/
  eq : after = { w with
    tx := after.tx
    log := after.log
    chainHead := after.chainHead
    flushed := after.flushed
    firstOp := after.firstOp
    pending := after.pending
    treeLost := after.treeLost
    effects := after.effects }
  /-- The metarecord has its version. -/
  tx_eq : after.tx = match op.versionAfter with
    | some assigned => w.tx.setVersion op.entity assigned
    | none => w.tx
  /-- It is recorded once. -/
  recorded : ∀ {start ops}, w.Recorded start ops → after.Recorded start (ops ++ [op])
  /-- The newest operation is followed. -/
  headed : ∀ {base}, w.Headed base → after.Headed base
  /-- The cells that lost a position stay noted. -/
  lost_subset : w.treeLost ⊆ after.treeLost
  /-- A manual operation notes those it takes a position from. -/
  loses_subset : op.opType.isManual → loses op ⊆ after.treeLost
  /-- What it implies is noted. -/
  effects_eq : after.effects = w.effects.observe op.before op.after op.entity

omit [Externals] in
/-- The cells noted before, and those of the rows seen. -/
theorem observeEffects_spec (opType : OpType) (before : List FieldRow) (entity : Uuid)
    (noted : List (String × Uuid)) :
    let lost := before.foldl (fun lost row =>
      if opType.isManual ∧ row.value.position.isSome ∧ (row.name, entity) ∉ lost then
        lost ++ [(row.name, entity)]
      else lost) noted
    noted ⊆ lost ∧ (opType.isManual → ∀ row ∈ before, row.value.position.isSome →
      (row.name, entity) ∈ lost) := by
  induction before generalizing noted with
  | nil => simp
  | cons head tail ih =>
      obtain ⟨kept, seen⟩ := ih (if opType.isManual ∧ head.value.position.isSome ∧
        (head.name, entity) ∉ noted then noted ++ [(head.name, entity)] else noted)
      have grows : noted ⊆ if opType.isManual ∧ head.value.position.isSome ∧
          (head.name, entity) ∉ noted then noted ++ [(head.name, entity)] else noted := by
        split <;> simp
      refine ⟨fun _ member => kept (grows member), fun manual row member placed => ?_⟩
      rcases List.mem_cons.mp member with rfl | member
      · refine kept ?_
        split
        · simp
        · rename_i already
          by_contra absent
          exact already ⟨manual, placed, absent⟩
      · exact seen manual row member placed

omit [Externals] in
theorem flushPending_spec {w after : Writer} (ran : w.flushPending = .ok after) :
    after = { w with
      log := after.log
      chainHead := after.chainHead
      flushed := after.flushed
      firstOp := after.firstOp
      pending := after.pending } ∧ after.pending = [] ∧
      (∀ {start ops}, w.Recorded start ops → after.Recorded start ops) ∧
      (∀ {base}, w.Headed base → after.Headed base) ∧
      after.flushed = w.flushed + w.pending.length := by
  unfold flushPending at ran
  split at ran
  next none =>
    rw [Except.pure_eq_ok] at ran
    subst ran
    exact ⟨rfl, none, id, id, by rw [none, List.length_nil, Nat.add_zero]⟩
  next some =>
    simp only [Except.bind_eq_ok, Except.pure_eq_ok, Prod.exists] at ran
    obtain ⟨last, log, appending, first, counted, rfl⟩ := ran
    refine ⟨rfl, rfl, ?_, fun {base} _ => ?_, rfl⟩
    rotate_left
    · have grown : w.flushed + w.pending.length ≠ 0 := by
        have := List.length_pos_iff.mpr some
        omega
      rw [Headed, if_neg grown, Log.last_of_appendOps appending]
    rintro start ops ⟨appended, rfl, flushed, first_op, earlier⟩
    refine ⟨appended ++ w.pending, by simp, by simp [flushed], ?_,
      earlier.append (Log.appended_of_appendOps appending)⟩
    dsimp only
    rw [first_op, if_neg (fun both => some (List.append_eq_nil_iff.mp both).2)]
    split
    next none_yet =>
      subst none_yet
      obtain ⟨next, recorded, put, log_eq⟩ := earlier
      simp only [Log.putOps, Except.pure_eq_ok, Prod.mk.injEq] at put
      obtain ⟨rfl, rfl⟩ := put
      rw [Option.getD_none, Log.first_of_appendOps appending counted, log_eq]
    next => rfl

theorem logOp_spec {w after : Writer} {opType : OpType} {entity : Uuid}
    {fieldName : Option String} {versionBefore : Option UInt64} {before rows : List FieldRow}
    (ran : w.logOp opType entity fieldName versionBefore before rows = .ok after) :
    Logged w (w.recordedOp opType entity fieldName versionBefore before rows) after := by
  have lost := observeEffects_spec opType before entity w.treeLost
  have loses_eq : ∀ {lost : List (String × Uuid)}, (opType.isManual → ∀ row ∈ before,
      row.value.position.isSome → (row.name, entity) ∈ lost) → opType.isManual →
        loses (w.recordedOp opType entity fieldName versionBefore before rows) ⊆ lost := by
    intro lost seen manual cell member
    obtain ⟨row, held, rfl⟩ := List.mem_map.mp member
    obtain ⟨held, placed⟩ := List.mem_filter.mp held
    exact seen manual row held placed
  have put : ∀ {start ops}, w.Recorded start ops → ∀ {middle : Writer}, middle.log = w.log →
      middle.flushed = w.flushed → middle.firstOp = w.firstOp → middle.labelId = w.labelId →
        middle.timestamp = w.timestamp → middle.pending = w.pending ++
          [w.recordedOp opType entity fieldName versionBefore before rows] →
            middle.Recorded start
              (ops ++ [w.recordedOp opType entity fieldName versionBefore before rows]) := by
    rintro start ops ⟨appended, rfl, flushed, first_op, earlier⟩ middle logs counts firsts labels
      times pendings
    refine ⟨appended, by rw [pendings, List.append_assoc], counts.trans flushed,
      firsts.trans first_op, ?_⟩
    rw [logs, labels, times]
    exact earlier
  unfold logOp at ran
  dsimp only at ran
  split at ran
  · obtain ⟨eq, -, recorded, headed, -⟩ := flushPending_spec ran
    rw [eq]
    exact ⟨rfl, rfl, fun earlier => eq ▸ recorded (put earlier rfl rfl rfl rfl rfl rfl),
      fun earlier => eq ▸ headed earlier, lost.1, loses_eq lost.2, rfl⟩
  · rw [Except.pure_eq_ok] at ran
    subst ran
    exact ⟨rfl, rfl, fun earlier => put earlier rfl rfl rfl rfl rfl rfl, fun earlier => earlier,
      lost.1, loses_eq lost.2, rfl⟩

/-- An operation whose rows were moved, and which is then recorded. -/
theorem operation_of_moved {w moved after : Writer} {opType : OpType} {uuid : Uuid}
    {fieldName : Option String} {versionBefore : Option UInt64} {before rows : List FieldRow}
    (consistent : w.tx.primary.Consistent) (ready : Ready w moved)
    (moves : w.tx.Moved uuid versionBefore before rows moved.tx)
    (logged : moved.logOp opType uuid fieldName versionBefore before rows = .ok after)
    (checked : ∀ row ∈ rows, Checked w.tx.primary moved uuid row.name row.value)
    (together : ∀ row ∈ rows, ∀ {other}, moved.tx.primary.Holds uuid other →
      other.name = row.name → Together row.value.stored other.value) :
    Operation w (moved.recordedOp opType uuid fieldName versionBefore before rows) after := by
  have spec := logOp_spec logged
  obtain ⟨-, -, -, versions⟩ := moves.spec consistent
  have present := versions uuid
  rw [if_pos rfl] at present
  have tx_eq := spec.tx_eq
  simp only [recordedOp, present, Option.map_some] at tx_eq
  have lost_eq : moved.treeLost = w.treeLost := by rw [ready.eq]
  have noted_eq : after.noted = moved.noted := by rw [spec.eq]; rfl
  have defers_eq : after.deferredTrees = moved.deferredTrees := by rw [spec.eq]
  refine ⟨?_, ?_, ?_, ?_, ?_, spec.loses_subset, ?_, ?_, ?_, ?_, ?_⟩
  · rw [spec.eq, ready.eq]
  · refine ⟨moved.tx, moves, ?_⟩
    simp only [KvTxn.Settled, recordedOp, present, Option.map_some]
    exact ⟨trivial, tx_eq⟩
  · intro start ops earlier
    refine spec.recorded ?_
    rw [ready.eq]
    exact earlier
  · intro base earlier
    refine spec.headed ?_
    rw [ready.eq]
    exact earlier
  · rw [← lost_eq]
    exact spec.lost_subset
  · rw [spec.effects_eq, ready.eq]
  · rw [noted_eq]
    exact ready.noted_subset
  · rw [defers_eq, ready.defers]
  · intro row member parent node placed
    rw [noted_eq, defers_eq]
    exact checked row member placed
  · intro row member other holds
    refine together row member ?_
    rw [tx_eq] at holds
    exact KvTxn.holds_setVersion.mp holds

end Writer

end Metafolder
