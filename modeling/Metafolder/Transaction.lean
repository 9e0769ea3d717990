import Metafolder.Writer

/-!
# Write transactions and the stores they reach

A transaction opens a writer in a context, makes a sequence of calls, and commits; one that fails
leaves the store as it was.  A store is reachable when committed transactions lead to it from the
empty one.
-/

namespace Metafolder

/-- `NewLabel`: a label a write opens. -/
structure NewLabel where
  /-- Its name. -/
  name : String
  /-- Its description. -/
  description : Option String
  /-- The label it is nested in. -/
  parent : Option Int64

/-- `WriteContext`: where a write's operations go. -/
inductive WriteContext
  /-- Under a label that exists. -/
  | «in» (label : Int64)
  /-- Under a label the write opens. -/
  | new (label : NewLabel)
  /-- Under the label of a client's command. -/
  | command (key : Uuid) (label : NewLabel)
  /-- Under a label opened for one flush of the watcher. -/
  | watcher

namespace Writer

/-- The label a client's write opens, inside a label it may write under. -/
def clientLabel (log : Log) (label : NewLabel) (timestamp : Int64) : Outcome LabelMeta := do
  match label.parent with
  | some parent => log.checkClientLabel parent
  | none => pure ()
  pure ⟨label.name, label.description, label.parent, timestamp⟩

/-- The label the watcher's flushes are opened under. -/
def watcherRoot (log : Log) (timestamp : Int64) : Outcome (Int64 × Log) :=
  let opened : Outcome (Int64 × Log) := do
    let (root, log) ← log.putLabel
      ⟨"watcher", some "What the daemon recorded for the filesystem", none, timestamp⟩ none
    pure (root, { log with watcherLabel := some root })
  match log.watcherLabel with
  | some root => if (log.label root).isSome then pure (root, log) else opened
  | none => opened

/-- The label a write's operations go under, whether the write opened it, and its origin. -/
def openLabel (log : Log) (context : WriteContext) (timestamp : Int64) :
    Outcome ((Int64 × Bool × Option String) × Log) :=
  match context with
  | .in id => do
      log.checkClientLabel id
      pure ((id, false, none), log)
  | .new label => do
      let held ← clientLabel log label timestamp
      let (id, log) ← log.putLabel held none
      pure ((id, true, none), log)
  | .command key label =>
      match log.labelOfCommand key with
      | some id => pure ((id, false, none), log)
      | none => do
          let held ← clientLabel log label timestamp
          let (id, log) ← log.createCommandLabel held key
          pure ((id, true, none), log)
  | .watcher => do
      let (root, log) ← watcherRoot log timestamp
      let (id, log) ← log.putLabel ⟨"watcher flush", none, some root, timestamp⟩ none
      pure ((id, true, some originWatcher), log)

/-- `begin_in`: a writer in a context. -/
def beginIn (store : KvStore) (context : WriteContext) (retention : Retention) (timestamp : Int64) :
    Outcome Writer := do
  let ((labelId, openedLabel, origin), log) ← openLabel store.log context timestamp
  pure
    { tx := store.tx
      log := log
      labelId := labelId
      openedLabel := openedLabel
      timestamp := timestamp
      chainHead := store.log.head
      retention := retention
      origin := origin
      effects := { baseHead := store.log.head } }

/-- A call a transaction makes of its writer. -/
inductive Call
  | createMetarecord (uuid : Uuid) (fields : List Field)
  | deleteMetarecord (uuid : Uuid)
  | setRecord (uuid : Uuid) (fields : List Field)
  | setFieldAs (opType : OpType) (uuid : Uuid) (name : String) (value : Value)
  | setFieldMultiAs (opType : OpType) (uuid : Uuid) (name : String) (values : List Value)
  | appendField (uuid : Uuid) (name : String) (value : Value)
  | replaceField (uuid : Uuid) (id : Int64) (value : Value)
  | renameField (uuid : Uuid) (id : Int64) (newName : String) (value : Value)
  | retypeField (name : String) (target : FieldType)
  | deleteField (uuid : Uuid) (id : Int64)
  | deleteFieldsValued (uuid : Uuid) (name : String) (value : Value)
  | deleteFieldsNamed (uuid : Uuid) (name : String)
  | clearFieldAs (opType : OpType) (uuid : Uuid) (name : String)
  | revert (ops : List OpRow)
  | setOrigin (origin : String)

variable [Externals]

/-- What a call does to the writer. -/
def call (w : Writer) : Call → Outcome Writer
  | .createMetarecord uuid fields => Prod.snd <$> w.createMetarecordWithUuid uuid fields
  | .deleteMetarecord uuid => w.deleteMetarecord uuid
  | .setRecord uuid fields => Prod.snd <$> w.setRecord uuid fields
  | .setFieldAs opType uuid name value => w.setFieldAs opType uuid name value
  | .setFieldMultiAs opType uuid name values =>
      Prod.snd <$> w.setFieldMultiAs opType uuid name values
  | .appendField uuid name value => Prod.snd <$> w.appendField uuid name value
  | .replaceField uuid id value => w.replaceField uuid id value
  | .renameField uuid id newName value => w.renameField uuid id newName value
  | .retypeField name target => Prod.snd <$> w.retypeField name target
  | .deleteField uuid id => w.deleteField uuid id
  | .deleteFieldsValued uuid name value => Prod.snd <$> w.deleteFieldsValued uuid name value
  | .deleteFieldsNamed uuid name => Prod.snd <$> w.deleteFieldsNamed uuid name
  | .clearFieldAs opType uuid name => w.clearFieldAs opType uuid name
  | .revert ops => Prod.snd <$> w.applyRevert ops
  | .setOrigin origin => pure { w with origin := some origin }

end Writer

/-- A write transaction, from its context to its commit. -/
structure Transaction where
  /-- Where its operations go. -/
  context : WriteContext
  /-- How much history its commit keeps. -/
  retention : Retention
  /-- When it begins. -/
  timestamp : Int64
  /-- The calls it makes. -/
  calls : List Writer.Call

variable [Externals]

/-- A whole transaction on a store: the store it commits. -/
def Transaction.run (transaction : Transaction) (store : KvStore) : Outcome KvStore := do
  let w ← Writer.beginIn store transaction.context transaction.retention transaction.timestamp
  let w ← transaction.calls.foldlM Writer.call w
  w.commit

/-- The stores committed transactions lead to from the empty one, each transaction being of a
kind. -/
inductive Reachable (kind : Transaction → Prop) : KvStore → Prop
  /-- The empty store. -/
  | new : Reachable kind {}
  /-- The store a transaction commits. -/
  | commit {store after : KvStore} (transaction : Transaction) (reached : Reachable kind store)
      (fits : kind transaction) (ran : transaction.run store = .ok after) : Reachable kind after

/-- The metarecords the samples write. -/
def sampleUuids (n : UInt8) : Uuid := ⟨List.replicate 16 n, Uuid.length_filled n⟩

end Metafolder
