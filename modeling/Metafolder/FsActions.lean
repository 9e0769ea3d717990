import Metafolder.Log

/-!
# The file action a revert requires

Reverting an operation may need a file moved, brought back from the trash, or sent there.  A creation
or deletion needs its file when the chain of reverts it ends leads to the deletion of a trashing.
-/

namespace Metafolder

/-- `FsAction`: what a revert has to do on disk. -/
inductive FsAction
  /-- A file moves back. -/
  | move
  /-- Content comes back from the trash. -/
  | restoreContent
  /-- A file goes back to the trash. -/
  | trashContent
deriving DecidableEq

namespace OpRow

/-- Whether an operation creates or deletes a metarecord. -/
def createsOrDeletes (op : OpRow) : Bool := op.opType = .deleteRecord ∨ op.opType = .createRecord

/-- Whether an operation is a deletion made by a trashing. -/
def isTrashing (op : OpRow) : Bool := op.opType = .deleteRecord ∧ op.origin = some "trash"

end OpRow

/-- `MAX_REVERT_CHAIN`. -/
def maxRevertChain : Nat := 64

/-- `trash_coupled`, its loop. -/
def trashCoupledLoop (log : Log) : Nat → OpRow → Bool
  | 0, _ => false
  | fuel + 1, current =>
      if !current.createsOrDeletes then false
      else if current.isTrashing then true
      else
        match current.revertsOpId.bind log.op with
        | none => false
        | some next => trashCoupledLoop log fuel next

/-- `trash_coupled`: whether reverting an operation takes the file of a trashing along. -/
def trashCoupled (log : Log) (op : OpRow) : Bool := trashCoupledLoop log maxRevertChain op

/-- `action_for`. -/
def actionFor (op : OpRow) (coupled : Bool) : Option FsAction :=
  match op.opType with
  | .fileMoved => some .move
  | .fileDeleted => some .restoreContent
  | .fileModified => some .restoreContent
  | .deleteRecord => if coupled then some .restoreContent else none
  | .createRecord => if coupled then some .trashContent else none
  | _ => none

/-- `fs_action`: the file action that reverting an operation requires. -/
def fsAction (log : Log) (op : OpRow) : Option FsAction :=
  actionFor op (op.createsOrDeletes && trashCoupled log op)

/-! ### Chains of reverts -/

/-- The chain of reverts of an operation leads, after some undo and redo steps, to a deletion made by
a trashing.  An undo step creates the metarecord again, and a redo step deletes it. -/
inductive LeadsToTrashing (log : Log) : Nat → OpRow → Prop
  /-- The operation is that deletion. -/
  | trashing {op : OpRow} (isTrashing : op.isTrashing) : LeadsToTrashing log 0 op
  /-- The operation undoes or redoes one whose chain leads there. -/
  | step {op next : OpRow} {steps : Nat} (undoes : op.createsOrDeletes)
      (reverted : op.revertsOpId.bind log.op = some next) (leads : LeadsToTrashing log steps next) :
      LeadsToTrashing log (steps + 1) op

theorem OpRow.createsOrDeletes_of_isTrashing {op : OpRow} (isTrashing : op.isTrashing) :
    op.createsOrDeletes := by
  simp only [OpRow.isTrashing, decide_eq_true_eq] at isTrashing
  simp [OpRow.createsOrDeletes, isTrashing.1]

/-- The loop finds the trashing within the operations it may read. -/
theorem trashCoupledLoop_iff (log : Log) (fuel : Nat) (op : OpRow) :
    trashCoupledLoop log fuel op = true ↔ ∃ steps < fuel, LeadsToTrashing log steps op := by
  induction fuel generalizing op with
  | zero => simp [trashCoupledLoop]
  | succ fuel ih =>
      rw [trashCoupledLoop]
      constructor
      · intro coupled
        split at coupled
        · cases coupled
        · next undoes =>
            rw [Bool.not_eq_true', Bool.not_eq_false] at undoes
            split at coupled
            · next isTrashing => exact ⟨0, by omega, .trashing isTrashing⟩
            · split at coupled
              · cases coupled
              · next next reverted =>
                  obtain ⟨steps, within, leads⟩ := (ih next).mp coupled
                  exact ⟨steps + 1, by omega, .step undoes reverted leads⟩
      · rintro ⟨steps, within, leads⟩
        cases leads with
        | trashing isTrashing =>
            simp [OpRow.createsOrDeletes_of_isTrashing isTrashing, isTrashing]
        | step undoes reverted leads =>
            have coupled := (ih _).mpr ⟨_, by omega, leads⟩
            simp [undoes, reverted, coupled]

/-- The answer is right exactly where a chain that leads to a trashing does so within the operations
the walk reads. -/
theorem trashCoupled_iff (log : Log) (op : OpRow) :
    (trashCoupled log op = true ↔ ∃ steps, LeadsToTrashing log steps op) ↔
      ∀ steps, LeadsToTrashing log steps op → ∃ fewer < maxRevertChain,
        LeadsToTrashing log fewer op := by
  rw [trashCoupled, trashCoupledLoop_iff]
  constructor
  · exact fun right steps leads => right.mpr ⟨steps, leads⟩
  · intro within
    constructor
    · rintro ⟨steps, -, leads⟩
      exact ⟨steps, leads⟩
    · rintro ⟨steps, leads⟩
      exact within steps leads

/-- The deletion of a trashing, and sixty-four reverts, each of the operation before it. -/
def undoneAndRedone : List NewOp :=
  let entity : Uuid := ⟨List.replicate 16 1, Uuid.length_ones⟩
  { opType := .deleteRecord, entity, fieldName := none, versionBefore := some 1,
    versionAfter := none, before := [], after := [], revertsOpId := none,
    origin := some "trash" } ::
  (List.range 64).map fun i =>
    { opType := if i % 2 = 0 then .createRecord else .deleteRecord, entity, fieldName := none,
      versionBefore := none, versionAfter := none, before := [], after := [],
      revertsOpId := some (Int64.ofNat (i + 1)), origin := none }

/-- The log they leave. -/
def undoneAndRedoneLog : Log :=
  match ({} : Log).appendOps 1 0 undoneAndRedone with
  | .ok (_, log) => log
  | .error _ => {}

theorem undoneAndRedoneLog_last :
    (undoneAndRedoneLog.op 65).any (fun op =>
      trashCoupledLoop undoneAndRedoneLog 65 op && !trashCoupled undoneAndRedoneLog op) = true := by
  decide +kernel

/-- The chain of the last of sixty-four undo and redo steps leads to the trashing, and the walk does
not reach it. -/
theorem sixty_four_steps_lost :
    ∃ op, undoneAndRedoneLog.op 65 = some op ∧
      (∃ steps, LeadsToTrashing undoneAndRedoneLog steps op) ∧
        trashCoupled undoneAndRedoneLog op = false := by
  obtain ⟨op, found, lost⟩ := (Option.any_eq_true _ _).mp undoneAndRedoneLog_last
  rw [Bool.and_eq_true, Bool.not_eq_true'] at lost
  obtain ⟨steps, -, leads⟩ := (trashCoupledLoop_iff _ _ _).mp lost.1
  exact ⟨op, found, ⟨steps, leads⟩, lost.2⟩

end Metafolder
