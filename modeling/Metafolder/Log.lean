import Metafolder.Primary

/-!
# The operation log

The log is a sequence of operations, each with the rows it took away and the rows it put, grouped by
nested labels.  Operations are appended in batches; a commit may trim the oldest of each origin, and
the labels left empty.
-/

namespace Metafolder

/-- The types of operations recorded in the log. -/
inductive OpType
  | createRecord
  | deleteRecord
  | setRecord
  | setField
  | appendField
  | deleteField
  | fileDeleted
  | fileMoved
  | fileModified
  | unknown
deriving DecidableEq

/-- `OpType::is_manual`: whether a client asked for the operation. -/
def OpType.isManual : OpType → Bool
  | fileDeleted => false
  | fileMoved => false
  | fileModified => false
  | _ => true

/-- `ORIGIN_WATCHER`. -/
def originWatcher : String := "watcher"

/-- `NewOp`: an operation about to be recorded. -/
structure NewOp where
  /-- Its type. -/
  opType : OpType
  /-- The metarecord it is about. -/
  entity : Uuid
  /-- The field it is about, unless it is about the whole metarecord. -/
  fieldName : Option String
  /-- The version the metarecord had. -/
  versionBefore : Option UInt64
  /-- The version the operation left it with. -/
  versionAfter : Option UInt64
  /-- The rows it took away. -/
  before : List FieldRow
  /-- The rows it put. -/
  after : List FieldRow
  /-- The operation it undoes. -/
  revertsOpId : Option Int64
  /-- Who wrote it. -/
  origin : Option String
deriving DecidableEq

/-- `OpRow`: an operation as the log holds it, its rows apart. -/
structure OpRow where
  /-- Its id. -/
  id : Int64
  /-- Its innermost label. -/
  labelId : Int64
  /-- When it was written. -/
  timestamp : Int64
  /-- Its type. -/
  opType : OpType
  /-- The metarecord it is about. -/
  entityUuid : Uuid
  /-- The version the metarecord had. -/
  entityVersionBefore : Option UInt64
  /-- The version the operation left it with. -/
  entityVersionAfter : Option UInt64
  /-- The field it is about. -/
  fieldName : Option String
  /-- The operation it undoes. -/
  revertsOpId : Option Int64
  /-- Who wrote it. -/
  origin : Option String
deriving DecidableEq

/-- `LabelMeta`. -/
structure LabelMeta where
  /-- Its name. -/
  name : String
  /-- Its description. -/
  description : Option String
  /-- The label it is nested in. -/
  parent : Option Int64
  /-- When it was opened. -/
  created : Int64
deriving DecidableEq

/-- `Retention`: how many operations of each origin to keep, zero for all. -/
structure Retention where
  /-- Operations of the watcher to keep. -/
  watcherOps : UInt64
  /-- Operations of every other origin to keep. -/
  userOps : UInt64
deriving DecidableEq

namespace Retention

/-- `UNLIMITED`. -/
def unlimited : Retention := ⟨0, 0⟩

/-- `slack`: how far past a limit the log may drift. -/
def slack (limit : UInt64) : UInt64 := max (limit / 10) 1

/-- `enabled`. -/
def enabled (retention : Retention) : Bool := 0 < retention.watcherOps ∨ 0 < retention.userOps

end Retention

/-- The tables of the log. -/
structure Log where
  /-- The operations, by id. -/
  ops : Table OpRow := ∅
  /-- The snapshot of each side of an operation, by id and side. -/
  snaps : Table (List FieldRow) := ∅
  /-- The operations of each label. -/
  opsByLabel : Table Unit := ∅
  /-- The operations of each metarecord. -/
  opsByEntity : Table Unit := ∅
  /-- The labels, with the key of the command that opened them. -/
  labels : Table (LabelMeta × Option Uuid) := ∅
  /-- The labels nested in each label. -/
  labelKids : Table Unit := ∅
  /-- The label of each command. -/
  labelKeys : Table Int64 := ∅
  /-- The reverts of each operation. -/
  revertedBy : Table Unit := ∅
  /-- The watcher's operations. -/
  watcherOps : Table Unit := ∅
  /-- Every other operation. -/
  userOps : Table Unit := ∅
  /-- The newest operation. -/
  head : Option Int64 := none
  /-- The label the watcher's flushes are under. -/
  watcherLabel : Option Int64 := none
  /-- The next operation id. -/
  nextOp : Int64 := 1
  /-- The next label id. -/
  nextLabel : Int64 := 1

namespace Log

/-- The key of one side of an operation's snapshot. -/
def snapKey (id : Int64) (after : Bool) : Bytes := be id ++ [if after then 1 else 0]

/-! ### Reading -/

/-- `Log::op`. -/
def op (log : Log) (id : Int64) : Option OpRow := log.ops.get (be id)

/-- `Log::snapshots`: the rows an operation took away, or those it put. -/
def snapshots (log : Log) (id : Int64) (after : Bool) : List FieldRow :=
  (log.snaps.get (snapKey id after)).getD []

/-- `Log::labels`, of one label. -/
def label (log : Log) (id : Int64) : Option LabelMeta := (log.labels.get (be id)).map Prod.fst

/-- `Log::label_of_command`. -/
def labelOfCommand (log : Log) (key : Uuid) : Option Int64 := log.labelKeys.get key.bytes

/-- `Read::label_op_ids`. -/
def labelOpIds (log : Log) (label : Int64) : List Int64 :=
  (log.opsByLabel.prefixIter (be label)).map fun entry => fromBe (entry.1.drop 8)

/-- `Log::label_ops`: the operations of a label, oldest first. -/
def labelOps (log : Log) (label : Int64) : Outcome (List OpRow) :=
  (log.labelOpIds label).mapM fun id => context (log.op id) s!"operation {id} vanished"

/-- `Log::label_children`. -/
def labelChildren (log : Log) (label : Int64) : List Int64 :=
  (log.labelKids.prefixIter (be label)).map fun entry => fromBe (entry.1.drop 8)

/-- `Log::label_first_op`. -/
def labelFirstOp (log : Log) (label : Int64) : Option Int64 := (log.labelOpIds label).head?

/-! ### Labels -/

/-- `put_label`: a new label, and its place among its parent's children. -/
def putLabel (log : Log) (held : LabelMeta) (command : Option Uuid) : Outcome (Int64 × Log) := do
  let bumped ← addInt64 log.nextLabel 1
  let id := log.nextLabel
  pure (id,
    { log with
      nextLabel := bumped
      labels := log.labels.put (be id) (held, command)
      labelKids :=
        match held.parent with
        | some parent => log.labelKids.put (be parent ++ be id) ()
        | none => log.labelKids })

/-- `create_command_label`. -/
def createCommandLabel (log : Log) (held : LabelMeta) (key : Uuid) : Outcome (Int64 × Log) := do
  let (id, opened) ← log.putLabel held (some key)
  pure (id, { opened with labelKeys := opened.labelKeys.put key.bytes id })

/-- `drop_label`. -/
def dropLabel (log : Log) (id : Int64) : Log :=
  match log.labels.get (be id) with
  | none => log
  | some (held, command) =>
      { log with
        labels := log.labels.delete (be id)
        labelKids :=
          match held.parent with
          | some parent => log.labelKids.delete (be parent ++ be id)
          | none => log.labelKids
        labelKeys :=
          match command with
          | some key => log.labelKeys.delete key.bytes
          | none => log.labelKeys }

/-- `check_client_label`, its loop up the nesting. -/
def checkClientLabelLoop (log : Log) (id : Int64) : Nat → Option Int64 → Outcome Unit
  | _, none => pure ()
  | depth, some label => do
      refuseIf (some label = log.watcherLabel)
        (.badRequest s!"label {id} is the watcher's: only the daemon writes under it")
      match log.label label with
      | none => .error (.badRequest s!"no label {label}")
      | some held =>
          match depth with
          | 0 => .error (.badRequest s!"label {id} is nested too deep")
          | depth + 1 => checkClientLabelLoop log id depth held.parent

/-- `check_client_label`: refuses a label a client may not write under. -/
def checkClientLabel (log : Log) (id : Int64) : Outcome Unit :=
  checkClientLabelLoop log id 1000 (some id)

/-! ### Operations -/

/-- `class`, with its table replaced: the operations of one origin. -/
def putClass (log : Log) (origin : Option String) (id : Int64) : Log :=
  if origin = some originWatcher then { log with watcherOps := log.watcherOps.put (be id) () }
  else { log with userOps := log.userOps.put (be id) () }

/-- One operation of a batch, under its id. -/
def putOp (log : Log) (label timestamp id : Int64) (new : NewOp) : Log :=
  let row : OpRow :=
    { id := id
      labelId := label
      timestamp := timestamp
      opType := new.opType
      entityUuid := new.entity
      entityVersionBefore := new.versionBefore
      entityVersionAfter := new.versionAfter
      fieldName := new.fieldName
      revertsOpId := new.revertsOpId
      origin := new.origin }
  let recorded : Log :=
    { log with
      ops := log.ops.put (be id) row
      snaps := (log.snaps.put (snapKey id false) (new.before.map FieldRow.stored)).put
        (snapKey id true) (new.after.map FieldRow.stored)
      opsByLabel := log.opsByLabel.put (be label ++ be id) ()
      revertedBy :=
        match new.revertsOpId with
        | some target => log.revertedBy.put (be target ++ be id) ()
        | none => log.revertedBy
      opsByEntity := log.opsByEntity.put (new.entity.bytes ++ be id) () }
  recorded.putClass new.origin id

/-- The operations of a batch under consecutive ids: the id after the last, and the log. -/
def putOps (log : Log) (label timestamp : Int64) (base : Int64) :
    List NewOp → Outcome (Int64 × Log)
  | [] => pure (base, log)
  | new :: rest => do
      let next ← addInt64 base 1
      (log.putOp label timestamp base new).putOps label timestamp next rest

/-- `append_ops`: the id the last operation got, and the log. -/
def appendOps (log : Log) (label timestamp : Int64) (new : List NewOp) : Outcome (Int64 × Log) := do
  let (next, recorded) ← log.putOps label timestamp log.nextOp new
  let last ← addInt64 next (-1)
  pure (last, { recorded with nextOp := next })

/-- `remove_op`: an operation and its snapshots are forgotten. -/
def removeOp (log : Log) (id : Int64) : Log :=
  match log.op id with
  | none => log
  | some held =>
      { log with
        ops := log.ops.delete (be id)
        snaps := (log.snaps.delete (snapKey id false)).delete (snapKey id true)
        opsByLabel := log.opsByLabel.delete (be held.labelId ++ be id)
        revertedBy :=
          match held.revertsOpId with
          | some target => log.revertedBy.delete (be target ++ be id)
          | none => log.revertedBy
        opsByEntity := log.opsByEntity.delete (held.entityUuid.bytes ++ be id)
        watcherOps := log.watcherOps.delete (be id)
        userOps := log.userOps.delete (be id) }

/-- `drop_if_empty`: a label nothing is left in goes, and then its parent on the same terms.  Each
label met is dropped, so the labels are fuel enough. -/
def dropIfEmpty : Nat → Log → Option Int64 → Log
  | 0, log, _ => log
  | _ + 1, log, none => log
  | fuel + 1, log, some label =>
      match log.label label with
      | none => log
      | some held =>
          if log.labelFirstOp label = none ∧ log.labelChildren label = [] ∧
              log.watcherLabel ≠ some label then
            dropIfEmpty fuel (log.dropLabel label) held.parent
          else log

/-- `delete_ops`: operations are forgotten, and the labels they leave empty. -/
def deleteOps (log : Log) (ids : List Int64) : Log :=
  let hit := (ids.filterMap fun id => (log.op id).map OpRow.labelId).dedup
  let removed := ids.foldl removeOp log
  hit.foldl (fun held label => dropIfEmpty (held.labels.entries.length + 1) held (some label)) removed

/-- The operations of one origin past its limit, oldest first, but for those of this write.  The
sums are of 64 bits, and may wrap. -/
def doomed (table : Table Unit) (limit : UInt64) (keepFrom : Int64) : List Int64 :=
  let total := UInt64.ofNat table.entries.length
  if limit = 0 ∨ total ≤ limit + Retention.slack limit then []
  else
    ((table.entries.take (total - limit).toNat).map fun entry => fromBe entry.1).takeWhile
      fun id => id < keepFrom

/-- `trim`: the history a retention no longer keeps is dropped. -/
def trim (log : Log) (retention : Retention) (keepFrom : Int64) : Log :=
  if !retention.enabled then log
  else
    let ids := doomed log.watcherOps retention.watcherOps keepFrom ++
      doomed log.userOps retention.userOps keepFrom
    if ids = [] then log else log.deleteOps ids

end Log

end Metafolder
