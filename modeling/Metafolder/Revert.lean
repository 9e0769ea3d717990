import Mathlib.Data.List.Sort
import Metafolder.Effects

/-!
# What a revert takes

A revert takes the operations of a label and of the labels nested in it, or operations it is given,
oldest first; of a label, it may take only the changes that still stand, or only the undos.  An
operation stands unless a revert of it stands.
-/

namespace Metafolder

namespace Log

/-- `label_subtree`, its loop: labels and every label nested in them. -/
def labelSubtreeLoop (log : Log) : Nat → List Int64 → List Int64
  | 0, _ => []
  | _ + 1, [] => []
  | fuel + 1, label :: rest => label :: labelSubtreeLoop log fuel (rest ++ log.labelChildren label)

/-- `label_subtree`.  A label is nested in one opened before it, and there are no more rounds than
labels. -/
def labelSubtree (log : Log) (label : Int64) : List Int64 :=
  log.labelSubtreeLoop (log.labels.entries.length + 1) [label]

/-- `Log::reverters`. -/
def reverters (log : Log) (op : Int64) : List Int64 :=
  (log.revertedBy.prefixIter (be op)).map fun entry => fromBe (entry.1.drop 8)

end Log

/-- Operations, oldest first. -/
def oldestFirst (ops : List OpRow) : List OpRow := ops.insertionSort fun first second =>
  first.id ≤ second.id

namespace Revert

/-- `label_ops`: the operations of a label and of every label nested in it. -/
def labelOps (log : Log) (label : Int64) : Outcome (List OpRow) := do
  let ops ← (log.labelSubtree label).mapM log.labelOps
  pure (oldestFirst ops.flatten)

/-- `Only`: which operations of a label an undo or a redo takes. -/
inductive Only
  /-- Its changes that stand: no reverts, and not the watcher's. -/
  | changes
  /-- Its undos that stand: the reverts of changes. -/
  | undos
deriving DecidableEq

/-- `Only::parse`. -/
def Only.parse (text : String) : Option Only :=
  if text = "changes" then some .changes else if text = "undos" then some .undos else none

/-- `standing`, as far along the reverts of reverts as there is fuel. -/
def standingLoop (log : Log) : Nat → Int64 → Bool
  | 0, _ => true
  | fuel + 1, op => (log.reverters op).all fun reverter => !standingLoop log fuel reverter

/-- `standing`: no revert of the operation stands.  A revert is newer than what it reverts, and no
chain of them is longer than the log's. -/
def standing (log : Log) (op : Int64) : Bool :=
  standingLoop log (log.revertedBy.entries.length + 1) op

/-- Whether `narrow` takes an operation, were it standing. -/
def Only.takes (only : Only) (log : Log) (op : OpRow) : Bool :=
  match only with
  | .changes => op.revertsOpId = none ∧ op.origin ≠ some originWatcher
  | .undos =>
      match op.revertsOpId with
      | some target => (log.op target).all fun reverted => reverted.revertsOpId = none
      | none => false

/-- `narrow`. -/
def narrow (log : Log) (ops : List OpRow) (only : Only) : List OpRow :=
  ops.filter fun op => only.takes log op && standing log op.id

/-! ### Targets -/

/-- A label, as a request names it. -/
inductive LabelRef
  | text (name : String)
  /-- A number, unless it is no integer. -/
  | number (id : Option Int64)
  | other

/-- `RevertTarget`. -/
structure Target where
  /-- `label_id`. -/
  labelId : Option LabelRef := none
  /-- `op_ids`. -/
  opIds : Option (List Int64) := none
  /-- `only`. -/
  only : Option String := none

/-- The label a request names. -/
def LabelRef.resolve (log : Log) : LabelRef → Outcome Int64
  | .text name =>
      if name = "head" then
        match log.head with
        | none => .error (.notFound "the log is empty")
        | some head =>
            match log.op head with
            | none => .error (.notFound "HEAD names no operation")
            | some op => pure op.labelId
      else .error (.badRequest "label_id must be a number or \"head\"")
  | .number (some id) => pure id
  | .number none => .error (.badRequest "label_id must be an integer")
  | .other => .error (.badRequest "label_id must be a number or \"head\"")

/-- `resolve_revert_target`: the operations a revert takes, oldest first. -/
def resolveTarget (log : Log) (target : Target) : Outcome (List OpRow) :=
  match target.labelId, target.opIds with
  | some label, none => do
      let id ← label.resolve log
      refuseIf ((log.label id).isNone)
        (.notFound s!"no label {id}: it never existed, or what it held was pruned or trimmed away")
      let ops ← labelOps log id
      match target.only with
      | none => pure ops
      | some text =>
          match Only.parse text with
          | none =>
              .error (.badRequest s!"only must be \"changes\" or \"undos\", not \"{text}\"")
          | some only => pure (narrow log ops only)
  | none, some ids => do
      refuseIf (target.only.isSome) (.badRequest "only narrows a label_id target")
      refuseIf (ids = []) (.badRequest "op_ids must not be empty")
      let ops ← ids.mapM fun id =>
        match log.op id with
        | none => .error (.notFound
            s!"operation {id} does not exist, or was pruned or trimmed away")
        | some op => pure op
      pure (oldestFirst ops)
  | _, _ => .error (.badRequest "the target needs exactly one of label_id or op_ids")

/-- `revert_name_of`: the label a coordinated revert opens. -/
def nameOf : List Int64 → String
  | [one] => s!"revert of operation {one}"
  | many => s!"revert of {many.length} operations"

/-! ### What a commit writes -/

/-- The operations a commit finds under the ids it was started for. -/
def effective (log : Log) (locked : List Int64) : Outcome (List OpRow) :=
  locked.mapM fun id =>
    match log.op id with
    | none => .error (.notFound s!"operation {id} vanished during the revert")
    | some op => pure op

/-- `narrow_to_applied`: the operations a commit writes, given those its client applied, and the
ones it leaves out. -/
def narrowToApplied (ops : List OpRow) (apply : List Int64) :
    Outcome (List OpRow × List (Int64 × String)) :=
  match apply.find? fun id => !ops.any fun op => op.id = id with
  | some stray => .error (.badRequest s!"operation {stray} is not part of the revert this lock was started for; commit may only narrow the set start fixed")
  | none => pure
      (ops.filter fun op => op.id ∈ apply,
        (ops.filter fun op => op.id ∉ apply).map fun op => (op.id, "client_skipped"))

variable [Externals]

/-- The write of a commit: its label, its effects, and the store it leaves. -/
def write (store : KvStore) (context : WriteContext) (retention : Retention) (timestamp : Int64)
    (ops : List OpRow) : Outcome (Int64 × WriteEffects × KvStore) := do
  let w ← Writer.beginIn store context retention timestamp
  let (_, w) ← w.applyRevert ops
  let after ← w.commit
  pure (w.labelId, w.effects, after)

end Revert

/-- `WriteContext::named`: the label a context opens, named otherwise. -/
def WriteContext.named (context : WriteContext) (name : String) : WriteContext :=
  match context with
  | .new label => .new { label with name := name }
  | other => other

end Metafolder
