import Metafolder.LogTables

/-!
# What a committed write implies

A commit reports the cells whose positions it moved and whether it wrote a field that decides which
directories are watched.  What it does not report it did not change.  A commit that recorded an
operation has a newest operation no earlier state had.
-/

namespace Metafolder

namespace Log

theorem head_removeOp (log : Log) (id : Int64) : (log.removeOp id).head = log.head := by
  unfold removeOp
  split <;> rfl

theorem head_dropIfEmpty (fuel : Nat) (log : Log) (label : Option Int64) :
    (dropIfEmpty fuel log label).head = log.head := by
  induction fuel generalizing log label with
  | zero => rfl
  | succ fuel ih =>
      cases label with
      | none => rfl
      | some label =>
          rw [dropIfEmpty]
          split
          · rfl
          · split
            · rw [ih, dropLabel_eq]
            · rfl

theorem head_foldl {α : Type} {step : Log → α → Log}
    (stepped : ∀ log item, (step log item).head = log.head) (items : List α) (log : Log) :
    (items.foldl step log).head = log.head := by
  induction items generalizing log with
  | nil => rfl
  | cons head rest ih =>
      rw [List.foldl_cons, ih, stepped]

/-- A trim keeps the newest operation. -/
theorem head_trim (log : Log) (retention : Retention) (keepFrom : Int64) :
    (log.trim retention keepFrom).head = log.head := by
  unfold trim
  split
  · rfl
  · dsimp only
    split
    · rfl
    · rw [deleteOps, head_foldl fun log label => head_dropIfEmpty _ log (some label),
        head_foldl head_removeOp]

/-- Operations are counted by the ids they are put under. -/
theorem toInt_putOps {log after : Log} {label timestamp base last : Int64} {ops : List NewOp}
    (ran : log.putOps label timestamp base ops = .ok (last, after)) :
    last.toInt = base.toInt + ops.length := by
  induction ops generalizing log base with
  | nil =>
      simp only [putOps, Except.pure_eq_ok, Prod.mk.injEq] at ran
      rw [← ran.1, List.length_nil, Int.natCast_zero, Int.add_zero]
  | cons new rest ih =>
      obtain ⟨next, added, others⟩ := Except.bind_eq_ok.mp ran
      have one : (1 : Int64).toInt = 1 := rfl
      rw [ih others, toInt_addInt64 added, List.length_cons]
      omega

/-- The id of the last of some operations appended. -/
theorem Appended.last {log after : Log} {label timestamp : Int64} {ops : List NewOp}
    (appended : log.Appended label timestamp ops after) (some_op : ops ≠ []) :
    log.nextOp ≤ after.nextOp - 1 ∧ after.nextOp - 1 < after.nextOp := by
  obtain ⟨next, recorded, put, rfl⟩ := appended
  have counted := toInt_putOps put
  have some_length := List.length_pos_iff.mpr some_op
  have lower := log.nextOp.le_toInt
  have upper := next.toInt_lt
  have below : (next - 1).toInt = next.toInt - 1 := by
    rw [Int64.toInt_sub, show (1 : Int64).toInt = 1 from rfl, Int.bmod_eq_of_le] <;> omega
  constructor
  · rw [Int64.le_iff_toInt_le, below]
    omega
  · rw [Int64.lt_iff_toInt_lt, below]
    change _ < next.toInt
    omega

end Log

/-! ### What the effects leave out -/

/-- A cell an operation moved is noted. -/
theorem mem_movedCellsOf {before after : List FieldRow} {entity : Uuid} {row : FieldRow}
    (member : row ∈ before ++ after) (placed : row.value.position.isSome) :
    ⟨row.name, entity⟩ ∈ movedCellsOf before after entity := by
  unfold movedCellsOf
  generalize before ++ after = rows at member
  suffices noted : ∀ out : List MovedCell, (∀ cell ∈ out, cell.uuid = entity) →
      let cells := rows.foldl (fun out row =>
        if row.value.position.isSome ∧ !out.any fun cell => cell.field = row.name then
          out ++ [⟨row.name, entity⟩]
        else out) out
      out ⊆ cells ∧ ∀ row ∈ rows, row.value.position.isSome → ⟨row.name, entity⟩ ∈ cells from
    (noted [] (by simp)).2 row member placed
  clear member
  induction rows with
  | nil => simp
  | cons head rest ih =>
      intro out own
      obtain ⟨kept, others⟩ := ih (if head.value.position.isSome ∧
          !out.any fun cell => cell.field = head.name then out ++ [⟨head.name, entity⟩] else out) (by
        split
        · simpa [or_imp, forall_and] using own
        · exact own)
      refine ⟨fun cell held => kept (by split <;> simp [held]), fun row member moved => ?_⟩
      rcases List.mem_cons.mp member with rfl | member
      · refine kept ?_
        split
        · simp
        next seen =>
          simp only [moved, true_and, Bool.not_eq_true', Bool.not_eq_false, List.any_eq_true,
            decide_eq_true_eq] at seen
          obtain ⟨cell, held, named⟩ := seen
          have owned := own cell held
          rw [← named, ← owned]
          exact held
      · exact others row member moved

namespace Writer

variable [Externals]

/-- The rows a writer has not reported are those there were. -/
structure Tells (start : Primary) (w : Writer) : Prop where
  /-- The tables agree. -/
  consistent : w.tx.primary.Consistent
  /-- The fields that decide which directories are watched. -/
  watch : w.effects.watch = false → ∀ {owner row}, row.name ∈ decidesWatches →
    (start.Holds owner row ↔ w.tx.primary.Holds owner row)
  /-- The positions. -/
  tree : ∀ {owner row}, row.value.position.isSome → ⟨row.name, owner⟩ ∉ w.effects.tree →
    (start.Holds owner row ↔ w.tx.primary.Holds owner row)

theorem Tells.quiet {start : Primary} {w after : Writer} (tells : Tells start w)
    (quiet : Quiet w after) : Tells start after := by
  rw [quiet.eq]
  exact ⟨tells.consistent, tells.watch, tells.tree⟩

/-- The rows an operation neither takes away nor puts stay. -/
theorem Operation.frame {w after : Writer} {op : NewOp} (step : Operation w op after)
    (consistent : w.tx.primary.Consistent) {owner : Uuid} {row : FieldRow}
    (outside : owner = op.entity → row ∉ op.before ∧ row ∉ op.after.map FieldRow.stored) :
    w.tx.primary.Holds owner row ↔ after.tx.primary.Holds owner row := by
  obtain ⟨-, swapped, -⟩ := step.performed.spec consistent
  rw [swapped.holds_iff]
  constructor
  · intro holds
    refine .inr ⟨holds, fun gone => ?_⟩
    have owned := (consistent.holds_unique holds (swapped.held row gone) rfl).1
    exact (outside owned).1 gone
  · rintro (⟨owned, put⟩ | ⟨holds, -⟩)
    · exact absurd put (outside owned).2
    · exact holds

omit [Externals] in
/-- A row an operation takes away or puts is, as stored, one of those it names. -/
theorem mem_of_moved {op : NewOp} {row : FieldRow}
    (moved : ¬(row ∉ op.before ∧ row ∉ op.after.map FieldRow.stored)) :
    ∃ named ∈ op.before ++ op.after, named.name = row.name ∧
      (row.value.position.isSome → named.value.position.isSome) := by
  rw [not_and_or, not_not, not_not] at moved
  cases moved with
  | inl gone => exact ⟨row, List.mem_append_left _ gone, rfl, id⟩
  | inr put =>
      obtain ⟨named, member, rfl⟩ := List.mem_map.mp put
      refine ⟨named, List.mem_append_right _ member, rfl, fun placed => ?_⟩
      rw [FieldRow.stored, Value.position_stored, Option.isSome_map] at placed
      exact placed

theorem Tells.operation {start : Primary} {w after : Writer} {op : NewOp} (tells : Tells start w)
    (step : Operation w op after) : Tells start after := by
  refine ⟨(step.performed.spec tells.consistent).1, ?_, ?_⟩
  · intro quiet owner row decides
    rw [step.effects_eq, WriteEffects.observe, Bool.or_eq_false_iff] at quiet
    refine (tells.watch quiet.1 decides).trans (step.frame tells.consistent fun _ => ?_)
    by_contra moved
    obtain ⟨named, member, same, -⟩ := mem_of_moved moved
    have unnamed := List.any_eq_false.mp quiet.2 named member
    rw [same] at unnamed
    simp [decides] at unnamed
  · intro owner row placed unmoved
    rw [step.effects_eq, WriteEffects.observe, List.mem_append, not_or] at unmoved
    refine (tells.tree placed unmoved.1).trans (step.frame tells.consistent fun owned => ?_)
    by_contra moved
    obtain ⟨named, member, same, position⟩ := mem_of_moved moved
    apply unmoved.2
    rw [owned, ← same]
    exact mem_movedCellsOf member (position placed)

/-- A commit that recorded an operation has a newest operation the write appended. -/
theorem commit_head {w : Writer} {store : KvStore} (ran : w.commit = .ok store) {start : Log}
    {base : Option Int64} (headed : w.Headed base) (kept : start.head = base) {ops : List NewOp}
    (recorded : w.Recorded start ops) :
    ops = [] ∧ store.log.head = base ∧ store.log.nextOp = start.nextOp ∨
      ∃ head, store.log.head = some head ∧ start.nextOp ≤ head ∧ head < store.log.nextOp := by
  obtain ⟨none_made, log_eq⟩ | ⟨some_made, -⟩ := commit_log ran recorded
  · left
    refine ⟨none_made, ?_⟩
    rw [log_eq]
    split
    · rw [Log.dropLabel_eq]
      exact ⟨kept, rfl⟩
    · exact ⟨kept, rfl⟩
  · right
    simp only [commit, Except.bind_eq_ok] at ran
    obtain ⟨⟨⟩, -, ⟨⟩, -, ⟨⟩, -, ending⟩ := ran
    split at ending
    next idle =>
      obtain ⟨appended, rfl, flushed, -⟩ := recorded
      obtain rfl : appended = [] := List.eq_nil_of_length_eq_zero (flushed.symm.trans idle.1)
      exact absurd idle.2 some_made
    next busy =>
      simp only [Except.bind_eq_ok, Except.pure_eq_ok] at ending
      obtain ⟨flushed, flushing, rfl⟩ := ending
      obtain ⟨-, none_pending, kept, followed, count⟩ := flushPending_spec flushing
      obtain ⟨appended, both, -, -, put⟩ := kept recorded
      rw [none_pending, List.append_nil] at both
      obtain ⟨lower, upper⟩ := put.last (both ▸ some_made)
      have counted : flushed.flushed ≠ 0 := by
        intro none_flushed
        apply busy
        rw [none_flushed] at count
        exact ⟨by omega, List.eq_nil_of_length_eq_zero (by omega)⟩
      have newest := followed headed
      rw [Headed, if_neg counted] at newest
      refine ⟨flushed.log.nextOp - 1, ?_, lower, ?_⟩
      · split
        · rw [Log.head_trim]
          exact newest
        · exact newest
      · split
        · rw [(Log.fewer_trim _ _ _).nextOp_eq]
          exact upper
        · exact upper

theorem Writes.headed {w after : Writer} {steps : List (NewOp × KvTxn)}
    (writes : Writes w steps after) {base : Option Int64} (headed : w.Headed base) :
    after.Headed base :=
  writes.induction (fun quiet earlier => by rw [quiet.eq]; exact earlier)
    (fun step earlier => step.headed earlier) headed

theorem Writes.baseHead_eq {w after : Writer} {steps : List (NewOp × KvTxn)}
    (writes : Writes w steps after) : after.effects.baseHead = w.effects.baseHead := by
  induction writes with
  | quiet step => rw [step.eq]
  | operation step => rw [step.effects_eq, WriteEffects.observe]
  | append _ _ one two => exact two.trans one

end Writer

/-! ### Whole transactions -/

variable [Externals]

/-- A whole transaction on a store: what its commit implies, and the store it commits. -/
def Transaction.perform (transaction : Transaction) (store : KvStore) :
    Outcome (WriteEffects × KvStore) := do
  let w ← Writer.beginIn store transaction.context transaction.retention transaction.timestamp
  let w ← transaction.calls.foldlM Writer.call w
  let after ← w.commit
  pure (w.effects, after)

theorem Transaction.run_eq_perform (transaction : Transaction) (store : KvStore) :
    transaction.run store = Prod.snd <$> transaction.perform store := by
  simp [run, perform, map_bind]

/-- The newest operation moves to one no earlier state had, or nothing changes. -/
def Renewed (store after : KvStore) : Prop :=
  after.tx = store.tx ∧ after.log.head = store.log.head ∧ after.log.nextOp = store.log.nextOp ∨
    ∃ head, after.log.head = some head ∧ store.log.nextOp ≤ head ∧ head < after.log.nextOp

/-- What a commit implies, of the store before and the store after. -/
structure Told (store : KvStore) (effects : WriteEffects) (after : KvStore) : Prop where
  /-- The tables agree. -/
  consistent : after.tx.primary.Consistent
  /-- The write began from the store. -/
  baseHead_eq : effects.baseHead = store.log.head
  /-- Unless it says so, it wrote no field that decides which directories are watched. -/
  watch : effects.watch = false → ∀ {owner row}, row.name ∈ decidesWatches →
    (store.tx.primary.Holds owner row ↔ after.tx.primary.Holds owner row)
  /-- Unless it says so, it moved no position. -/
  tree : ∀ {owner row}, row.value.position.isSome → ⟨row.name, owner⟩ ∉ effects.tree →
    (store.tx.primary.Holds owner row ↔ after.tx.primary.Holds owner row)
  /-- The newest operation tells the states apart. -/
  renewed : Renewed store after

theorem Transaction.told {transaction : Transaction} {store after : KvStore}
    {effects : WriteEffects} (consistent : store.tx.primary.Consistent)
    (ran : transaction.perform store = .ok (effects, after)) : Told store effects after := by
  simp only [perform, Except.bind_eq_ok, Except.pure_eq_ok, Prod.mk.injEq] at ran
  obtain ⟨w, opening, last, calling, committed, committing, rfl, rfl⟩ := ran
  obtain ⟨tx_eq, same, recorded, -⟩ := Writer.beginIn_spec opening
  have started : w.Headed store.log.head ∧ w.effects = { baseHead := store.log.head } := by
    simp only [Writer.beginIn, Except.bind_eq_ok, Except.pure_eq_ok, Prod.exists] at opening
    obtain ⟨label, opened, origin, log, -, rfl⟩ := opening
    exact ⟨rfl, rfl⟩
  have usual : Writer.Usual fun _ => True := fun _ => trivial
  obtain ⟨steps, writes, -⟩ := Writer.calls_leads usual (tx_eq.symm ▸ consistent)
    (fun _ _ _ _ => trivial) calling
  have tells : Writer.Tells store.tx.primary last := by
    refine writes.induction (fun quiet tells => tells.quiet quiet)
      (fun step tells => tells.operation step) ?_
    rw [← tx_eq]
    exact ⟨tx_eq.symm ▸ consistent, fun _ {_ _} _ => .rfl, fun {_ _} _ _ => .rfl⟩
  have after_tx := (Writer.commit_spec committing).1
  refine ⟨after_tx ▸ tells.consistent, ?_, ?_, ?_, ?_⟩
  · rw [writes.baseHead_eq, started.2]
  · rw [after_tx]
    exact tells.watch
  · rw [after_tx]
    exact tells.tree
  · obtain ⟨none_made, head_eq, next_eq⟩ | ⟨head, head_eq, lower, upper⟩ :=
      Writer.commit_head committing (writes.headed started.1) same.head_eq (writes.recorded recorded)
    · refine .inl ⟨?_, head_eq, next_eq.trans same.nextOp_eq⟩
      obtain rfl : steps = [] := by simpa using none_made
      rw [after_tx, ← tx_eq]
      exact writes.chain
    · exact .inr ⟨head, head_eq, same.nextOp_eq ▸ lower, upper⟩

end Metafolder
