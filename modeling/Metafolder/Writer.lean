import Metafolder.Convert
import Metafolder.KvTxn
import Metafolder.Log
import Metafolder.Version

/-!
# The logged write flow

Every write goes through a `Writer`: it checks a change, applies it to the transaction at once, and
records it as an operation with the rows it took away and the rows it put.  Operations are buffered
and appended to the log in batches.  What cannot be checked change by change is checked at commit.
-/

namespace Metafolder

/-- `FLUSH_THRESHOLD`: buffered operations are appended once this many accumulate. -/
def flushThreshold : Nat := 4096

/-- A field of a metarecord to be written. -/
structure Field where
  /-- Its name. -/
  name : String
  /-- Its value. -/
  value : Value
deriving DecidableEq

/-- A metarecord as it was written. -/
structure MetaRecord where
  /-- Its uuid. -/
  uuid : Uuid
  /-- Its version. -/
  version : UInt64
  /-- Its rows. -/
  fields : List FieldRow

/-- `MetaRecord::get`: the first value of a name. -/
def MetaRecord.get (record : MetaRecord) (name : String) : Option Value :=
  (record.fields.find? (·.name = name)).map FieldRow.value

/-- `Appended`: the row an append wrote, or the one that held the value already. -/
inductive Appended
  | created (id : Int64)
  | alreadyPresent (id : Int64)

/-- `RetypeSummary`. -/
structure RetypeSummary where
  /-- How many rows were converted. -/
  converted : Nat := 0
  /-- The metarecords whose values fell back to a sentinel. -/
  fallbackUuids : List Uuid := []

/-- `DECIDES_WATCHES`: the fields that decide which directories are watched. -/
def decidesWatches : List String := ["mf_watch", "mf_ignore", "mfr_watch_exceeded"]

/-- `MovedCell`: a cell of a forest an operation moved a position of. -/
structure MovedCell where
  /-- The field. -/
  field : String
  /-- The metarecord. -/
  uuid : Uuid
deriving DecidableEq

/-- `moved_cells_of`: the cells one operation moved, once each. -/
def movedCellsOf (before after : List FieldRow) (entity : Uuid) : List MovedCell :=
  (before ++ after).foldl (fun out row =>
    if row.value.position.isSome ∧ !out.any fun cell => cell.field = row.name then
      out ++ [⟨row.name, entity⟩]
    else out) []

/-- `WriteEffects`: what a committed write obliges its caller to bring back in step. -/
structure WriteEffects where
  /-- The cells the write moved a position of. -/
  tree : List MovedCell := []
  /-- The newest operation when the write began. -/
  baseHead : Option Int64 := none
  /-- Whether the write wrote a field that decides which directories are watched. -/
  watch : Bool := false

/-- What one more operation implies. -/
def WriteEffects.observe (effects : WriteEffects) (before after : List FieldRow) (entity : Uuid) :
    WriteEffects :=
  { effects with
    watch := effects.watch || (before ++ after).any fun row => row.name ∈ decidesWatches
    tree := effects.tree ++ movedCellsOf before after entity }

/-- The content of a store: its data and its log. -/
structure KvStore where
  /-- The metarecords, their rows, and what is derived from them. -/
  tx : KvTxn := {}
  /-- The log. -/
  log : Log := {}

/-- `Writer`: a write in progress. -/
structure Writer where
  /-- The transaction, its data. -/
  tx : KvTxn
  /-- The transaction, its log. -/
  log : Log
  /-- The label its operations go under. -/
  labelId : Int64
  /-- Whether the write opened that label. -/
  openedLabel : Bool
  /-- When the write began. -/
  timestamp : Int64
  /-- The newest operation. -/
  chainHead : Option Int64
  /-- How many operations are appended already. -/
  flushed : Nat := 0
  /-- The first operation the write appended. -/
  firstOp : Option Int64 := none
  /-- The operations recorded and not appended yet. -/
  pending : List NewOp := []
  /-- The established type of each field name met. -/
  fieldTypes : String → Option String := fun _ => none
  /-- The field names whose type is checked at commit, when it is. -/
  deferredTypes : Option (List String) := none
  /-- The positions checked at commit, when they are. -/
  deferredTrees : Option (List (Uuid × String × Value)) := none
  /-- How much history to keep. -/
  retention : Retention
  /-- The cells a manual operation took a position from. -/
  treeLost : List (String × Uuid) := []
  /-- What the write implies. -/
  effects : WriteEffects := {}
  /-- The operation being undone. -/
  reverting : Option Int64 := none
  /-- Who the write is on behalf of. -/
  origin : Option String := none

namespace Writer

variable [Externals]

/-! ### Duplicates -/

/-- `collapse_duplicates`: the first of each value, and the place of each value among them. -/
def collapseDuplicates (values : List Value) : List Value × List Nat :=
  values.foldl (fun held value =>
    match held.1.findIdx? (·.eq value) with
    | some i => (held.1, held.2 ++ [i])
    | none => (held.1 ++ [value], held.2 ++ [held.1.length])) ([], [])

/-- `collapse_duplicate_fields`: the first of each pair of a name and a value. -/
def collapseDuplicateFields (fields : List Field) : List Field :=
  fields.foldl (fun kept field =>
    if kept.any fun other => other.name = field.name ∧ other.value.eq field.value then kept
    else kept ++ [field]) []

/-! ### Positions -/

/-- `second_position`. -/
def secondPosition (uuid : Uuid) (name : String) : Failure :=
  .badRequest s!"metarecord {uuid} would hold two positions in the '{name}' forest: a metarecord has one position per forest (set the field to move it)"

/-- `second_name`. -/
def secondName (uuid : Uuid) (name : String) : Failure :=
  .badRequest s!"metarecord {uuid} would bear two names in the '{name}' hierarchy: every position of a node has one name (set all its positions to rename it)"

/-- One row of `validate_one_position_each`, after the last position seen under each name. -/
def onePositionStep (uuid : Uuid) (seen : String → Option Value) (row : String × Value) :
    Outcome (String → Option Value) :=
  match row.2 with
  | .treeRef _ _ => do
      refuseIf ((seen row.1).any fun other => !other.eq row.2) (secondPosition uuid row.1)
      pure (Function.update seen row.1 (some row.2))
  | .hierarchyRef _ node => do
      refuseIf ((seen row.1).any fun other => other.position.any fun held => held.2 ≠ node)
        (secondName uuid row.1)
      pure (Function.update seen row.1 (some row.2))
  | _ => pure seen

/-- `validate_one_position_each`: at most one `tree_ref` value per name, and one node name across
the `hierarchy_ref` values of a name. -/
def validateOnePositionEach (uuid : Uuid) (rows : List (String × Value)) : Outcome Unit := do
  let _ ← rows.foldlM (onePositionStep uuid) fun _ => none
  pure ()

/-- `validate_one_position`: whether a value may join a metarecord's rows of a name, `replaced`
aside. -/
def validateOnePosition (store : Primary) (uuid : Uuid) (name : String) (value : Value)
    (replaced : Option Int64) : Outcome Unit :=
  if value.position = none then pure ()
  else
    let staying := (store.rowsNamed uuid name).filter fun row =>
      some row.id ≠ replaced ∧ row.value.typeStr = value.typeStr
    validateOnePositionEach uuid (staying.map (fun row => (name, row.value)) ++ [(name, value)])

/-- `tree_parents`: the parents of a metarecord's positions in a forest. -/
def treeParents (store : Primary) (field : String) (uuid : Uuid) : List (Option Uuid) :=
  (store.rowsNamed uuid field).filterMap fun row => row.value.position.map Prod.fst

/-- The message of a cycle. -/
def treeCycle (field : String) : Failure :=
  .badRequest s!"TreeRef write would create a cycle on '{field}'"

/-- The message of a chain too long. -/
def treeTooDeep : Failure := .badRequest s!"TreeRef depth exceeds {maxTreeDepth}"

/-- One node of a level of `check_tree_ref`'s walk: it is visited once, and its parents are the next
level. -/
def climbNode (store : Primary) (metarecord : Uuid) (field : String)
    (held : List Uuid × List Uuid) (node : Uuid) : Outcome (List Uuid × List Uuid) := do
  refuseIf (node = metarecord) (treeCycle field)
  if node ∈ held.1 then pure held
  else pure (node :: held.1, held.2 ++ (treeParents store field node).filterMap id)

/-- `check_tree_ref`, its walk up, level by level: the length of the chain. -/
def climb (store : Primary) (metarecord : Uuid) (field : String) :
    Nat → Nat → List Uuid → List Uuid → Outcome Nat
  | 0, _, _, _ => .error treeTooDeep
  | fuel + 1, chainLen, visited, frontier => do
      let (visited, next) ← frontier.foldlM (climbNode store metarecord field) (visited, [])
      if next = [] then pure chainLen
      else do
        refuseIf (maxTreeDepth ≤ chainLen + 1) treeTooDeep
        climb store metarecord field fuel (chainLen + 1) visited next

/-- `check_tree_ref`: the parent a position names holds a position, and the position closes no cycle
nor makes the walk above it too deep. -/
def checkTreeRef (store : Primary) (metarecord : Uuid) (field : String) (value : Value) :
    Outcome Unit :=
  match value.position with
  | none => pure ()
  | some (none, _) => pure ()
  | some (some parent, _) => do
      refuseIf (parent = metarecord) (treeCycle field)
      refuseIf (treeParents store field parent = [])
        (.badRequest s!"invalid TreeRef parent {parent}: no such metarecord carrying a '{field}' TreeRef field")
      let chainLen ← climb store metarecord field maxTreeDepth 1 [] [parent]
      refuseIf (maxTreeDepth < chainLen + 1) treeTooDeep

/-- `validate_tree_ref`: the name of a position is a component, and the position is checked, or is
noted to be at commit. -/
def validateTreeRef (w : Writer) (metarecord : Uuid) (field : String) (value : Value) :
    Outcome Writer :=
  match value.position with
  | none => pure w
  | some (parent, name) => do
      refuseIf (!name.isComponent parent.isNone)
        (.badRequest s!"invalid name {Externals.debug name.display} on '{field}': a name is one path component (no '/', no NUL, neither '.' nor '..', not empty)")
      match w.deferredTrees with
      | some deferred =>
          pure { w with deferredTrees := some (deferred ++ [(metarecord, field, value)]) }
      | none => do
          checkTreeRef w.tx.primary metarecord field value
          pure w

/-! ### Types -/

/-- `type_conflict`. -/
def typeConflict (field established attempted : String) : Failure :=
  .badRequest s!"field '{field}' has value type '{established}'; cannot write a '{attempted}' value (use retype to change the field's type)"

/-- The established type of a field is forgotten. -/
def forget (w : Writer) (name : String) : Writer :=
  { w with fieldTypes := Function.update w.fieldTypes name none }

/-- `validate_value_type`: a field name carries one type other than `Nothing`. -/
def validateValueType (w : Writer) (name : String) (value : Value) : Outcome Writer :=
  if value.isNothing then pure w
  else
    match w.deferredTypes with
    | some deferred => pure { w with deferredTypes := some (deferred.insert name) }
    | none =>
        let newType := (encodeValue value).valueType
        match w.fieldTypes name with
        | some established => do
            refuseIf (established ≠ newType) (typeConflict name established newType)
            pure w
        | none => do
            let types ← w.tx.primary.valueTypes name
            refuseIf (types.head?.any (· ≠ newType))
              (typeConflict name (types.head?.getD "") newType)
            pure { w with fieldTypes := Function.update w.fieldTypes name (some newType) }

/-! ### The log -/

/-- `current_version`. -/
def currentVersion (w : Writer) (uuid : Uuid) : Outcome UInt64 :=
  match w.tx.primary.version uuid with
  | some version => pure version
  | none => .error (.notFound s!"Metarecord not found: {uuid}")

/-- `get_owned_row`: a row by its id, of the given metarecord. -/
def getOwnedRow (w : Writer) (uuid : Uuid) (id : Int64) : Outcome FieldRow :=
  match (w.tx.primary.rows uuid).find? (·.id = id) with
  | some row => pure row
  | none => .error (.notFound s!"Field {id} not found on metarecord {uuid}")

/-- `observe_effects`: what an operation implies, and the cells that lost a position. -/
def observeEffects (w : Writer) (opType : OpType) (before after : List FieldRow) (entity : Uuid) :
    Writer :=
  { w with
    effects := w.effects.observe before after entity
    treeLost := before.foldl (fun lost row =>
      if opType.isManual ∧ row.value.position.isSome ∧ (row.name, entity) ∉ lost then
        lost ++ [(row.name, entity)]
      else lost) w.treeLost }

/-- `flush_pending`: the buffered operations are appended to the log. -/
def flushPending (w : Writer) : Outcome Writer :=
  if w.pending = [] then pure w
  else do
    let (last, log) ← w.log.appendOps w.labelId w.timestamp w.pending
    let first ← addInt64 last (1 - Int64.ofNat w.pending.length)
    pure { w with
      log := log
      pending := []
      firstOp := some (w.firstOp.getD first)
      flushed := w.flushed + w.pending.length
      chainHead := some last }

/-- `log_op`: the version follows the rows that moved, and the operation is recorded. -/
def logOp (w : Writer) (opType : OpType) (entity : Uuid) (fieldName : Option String)
    (versionBefore : Option UInt64) (before after : List FieldRow) : Outcome Writer :=
  let versionAfter := (w.tx.primary.version entity).map fun current =>
    Version.apply current (Version.delta before after).1 (Version.delta before after).2
  let tx := match versionAfter with
    | some assigned => w.tx.setVersion entity assigned
    | none => w.tx
  let observed := { w with tx := tx }.observeEffects opType before after entity
  let new : NewOp :=
    { opType := opType
      entity := entity
      fieldName := fieldName
      versionBefore := versionBefore
      versionAfter := versionAfter
      before := before
      after := after
      revertsOpId := w.reverting
      origin := w.origin }
  let recorded := { observed with pending := w.pending ++ [new] }
  if flushThreshold ≤ recorded.pending.length then recorded.flushPending else pure recorded

/-! ### Rows -/

/-- `insert_row`, through the writer. -/
def insertRow (w : Writer) (uuid : Uuid) (name : String) (value : Value) (given : Option Int64) :
    Outcome (FieldRow × Writer) := do
  let (id, tx) ← w.tx.insertRow uuid name value given
  pure (⟨id, name, value⟩, { w with tx := tx })

/-- `delete_row`, through the writer. -/
def deleteRow (w : Writer) (id : Int64) : Outcome Writer := do
  let tx ← w.tx.deleteRow id
  pure { w with tx := tx }

/-- `delete_rows`, through the writer. -/
def deleteRows (w : Writer) (uuid : Uuid) (name : Option String) : Outcome Writer := do
  let tx ← w.tx.deleteRows uuid name
  pure { w with tx := tx }

/-! ### Operations -/

/-- `create_metarecord_with_uuid`. -/
def createMetarecordWithUuid (w : Writer) (uuid : Uuid) (fields : List Field) :
    Outcome (MetaRecord × Writer) := do
  let fields := collapseDuplicateFields fields
  validateOnePositionEach uuid (fields.map fun field => (field.name, field.value))
  let w ← fields.foldlM (fun w field => w.validateTreeRef uuid field.name field.value) w
  let tx ← w.tx.createMetarecord uuid (Version.base uuid)
  let (after, w) ← fields.foldlM (fun held field => do
    let w ← held.2.validateValueType field.name field.value
    let (row, w) ← w.insertRow uuid field.name field.value none
    pure (held.1 ++ [row], w)) (([] : List FieldRow), { w with tx := tx })
  let w ← w.logOp .createRecord uuid none none [] after
  let version ← w.currentVersion uuid
  pure (⟨uuid, version, after⟩, w)

/-- Whether a row is the repository root's position. -/
def isRepositoryRoot (row : FieldRow) : Bool :=
  row.name = "mfr_path" ∧ row.value = .treeRef none ⟨[]⟩

/-- `delete_metarecord`. -/
def deleteMetarecord (w : Writer) (uuid : Uuid) : Outcome Writer := do
  let version ← w.currentVersion uuid
  let before := w.tx.primary.rows uuid
  refuseIf (before.any isRepositoryRoot)
    (.badRequest "cannot delete the repository root metarecord")
  let tx ← w.tx.removeMetarecord uuid
  { w with tx := tx }.logOp .deleteRecord uuid none (some version) before []

/-- `set_record`. -/
def setRecord (w : Writer) (uuid : Uuid) (fields : List Field) : Outcome (MetaRecord × Writer) := do
  let fields := collapseDuplicateFields fields
  validateOnePositionEach uuid (fields.map fun field => (field.name, field.value))
  let versionBefore ← w.currentVersion uuid
  let before := w.tx.primary.rows uuid
  let w ← w.deleteRows uuid none
  let w := before.foldl (fun w row => w.forget row.name) w
  let (after, w) ← fields.foldlM (fun held field => do
    let w ← held.2.validateTreeRef uuid field.name field.value
    let w ← w.validateValueType field.name field.value
    let (row, w) ← w.insertRow uuid field.name field.value none
    pure (held.1 ++ [row], w)) (([] : List FieldRow), w)
  let w ← w.logOp .setRecord uuid none (some versionBefore) before after
  let version ← w.currentVersion uuid
  pure (⟨uuid, version, after⟩, w)

/-- `set_field_as`. -/
def setFieldAs (w : Writer) (opType : OpType) (uuid : Uuid) (name : String) (value : Value) :
    Outcome Writer := do
  let w ← w.validateTreeRef uuid name value
  let w ← w.validateValueType name value
  let versionBefore ← w.currentVersion uuid
  let before := w.tx.primary.rowsNamed uuid name
  let w ← w.deleteRows uuid (some name)
  let (row, w) ← w.insertRow uuid name value none
  let w ← w.logOp opType uuid (some name) (some versionBefore) before [row]
  pure (if value.isNothing then w.forget name else w)

/-- `set_field_multi_as`: the id of the row of each given value. -/
def setFieldMultiAs (w : Writer) (opType : OpType) (uuid : Uuid) (name : String)
    (values : List Value) : Outcome (List Int64 × Writer) := do
  validateOnePositionEach uuid (values.map fun value => (name, value))
  let w ← values.foldlM (fun w value => do
    let w ← w.validateTreeRef uuid name value
    w.validateValueType name value) w
  let (kept, slot) := collapseDuplicates values
  let versionBefore ← w.currentVersion uuid
  let before := w.tx.primary.rowsNamed uuid name
  let w ← w.deleteRows uuid (some name)
  let (after, w) ← kept.foldlM (fun held value => do
    let (row, w) ← held.2.insertRow uuid name value none
    pure (held.1 ++ [row], w)) (([] : List FieldRow), w)
  let ids := slot.filterMap fun i => after[i]?.map FieldRow.id
  let w ← w.logOp opType uuid (some name) (some versionBefore) before after
  pure (ids, if values.all Value.isNothing then w.forget name else w)

/-- `append_field`. -/
def appendField (w : Writer) (uuid : Uuid) (name : String) (value : Value) :
    Outcome (Appended × Writer) := do
  validateOnePosition w.tx.primary uuid name value none
  let w ← w.validateTreeRef uuid name value
  let w ← w.validateValueType name value
  match (w.tx.primary.rowsNamed uuid name).find? (·.value.eq value) with
  | some twin => pure (.alreadyPresent twin.id, w)
  | none => do
      let versionBefore ← w.currentVersion uuid
      let (row, w) ← w.insertRow uuid name value none
      let w ← w.logOp .appendField uuid (some name) (some versionBefore) [] [row]
      pure (.created row.id, w)

/-- `twin_row`: another row of a field already holding a value. -/
def twinRow (store : Primary) (uuid : Uuid) (id : Int64) (name : String) (value : Value) :
    Option Int64 :=
  ((store.rowsNamed uuid name).find? fun row => row.id ≠ id ∧ row.value.eq value).map FieldRow.id

/-- `reject_duplicate`. -/
def rejectDuplicate (store : Primary) (uuid : Uuid) (id : Int64) (name : String) (value : Value) :
    Outcome Unit :=
  match twinRow store uuid id name value with
  | some twin =>
      .error (.badRequest s!"duplicate value for field '{name}': row {twin} of {uuid} already holds it")
  | none => pure ()

/-- `replace_owned_row`: a row gives way to another under its id, as two operations. -/
def replaceOwnedRow (w : Writer) (uuid : Uuid) (old : FieldRow) (newName : String)
    (value : Value) : Outcome Writer := do
  let versionFirst ← w.currentVersion uuid
  let w ← w.deleteRow old.id
  let w ← w.logOp .deleteField uuid (some old.name) (some versionFirst) [old] []
  let versionSecond ← w.currentVersion uuid
  let (row, w) ← w.insertRow uuid newName value (some old.id)
  let w ← w.logOp .appendField uuid (some newName) (some versionSecond) [] [row]
  pure (if newName ≠ old.name then (w.forget old.name).forget newName else w)

/-- The checks and the replacement `replace_field` and `rename_field` share. -/
def replaceChecked (w : Writer) (uuid : Uuid) (old : FieldRow) (newName : String) (value : Value) :
    Outcome Writer := do
  validateOnePosition w.tx.primary uuid newName value (some old.id)
  let w ← w.validateTreeRef uuid newName value
  let w ← w.validateValueType newName value
  rejectDuplicate w.tx.primary uuid old.id newName value
  w.replaceOwnedRow uuid old newName value

/-- `replace_field`. -/
def replaceField (w : Writer) (uuid : Uuid) (id : Int64) (value : Value) : Outcome Writer := do
  let old ← w.getOwnedRow uuid id
  w.replaceChecked uuid old old.name value

/-- `rename_field`. -/
def renameField (w : Writer) (uuid : Uuid) (id : Int64) (newName : String) (value : Value) :
    Outcome Writer := do
  let old ← w.getOwnedRow uuid id
  w.replaceChecked uuid old newName value

/-- `delete_field`. -/
def deleteField (w : Writer) (uuid : Uuid) (id : Int64) : Outcome Writer := do
  let old ← w.getOwnedRow uuid id
  let versionBefore ← w.currentVersion uuid
  let w ← w.deleteRow id
  let w ← w.logOp .deleteField uuid (some old.name) (some versionBefore) [old] []
  pure (w.forget old.name)

/-- A converted value as `retype_field` writes it: a position the forest refuses gives way to
`Nothing`. -/
def retypedValue (w : Writer) (uuid : Uuid) (row : FieldRow) (target : FieldType) :
    Outcome ((Value × Bool) × Writer) :=
  let converted := row.value.convertTo target
  if converted.1.position = none then pure (converted, w)
  else
    let valid : Outcome Writer := do
      validateOnePosition w.tx.primary uuid row.name converted.1 (some row.id)
      w.validateTreeRef uuid row.name converted.1
    match valid with
    | .ok w => pure (converted, w)
    | .error failure =>
        if failure.isDomain then pure ((.nothing, true), w) else .error failure

/-- One row of `retype_field`. -/
def retypeRow (uuid : Uuid) (target : FieldType) (held : RetypeSummary × Writer) (row : FieldRow) :
    Outcome (RetypeSummary × Writer) :=
  if row.value.isNothing then pure held
  else do
    let ((newValue, fellBack), w) ← held.2.retypedValue uuid row target
    if newValue.eq row.value then pure (held.1, w)
    else do
      let summary : RetypeSummary :=
        { converted := held.1.converted + 1
          fallbackUuids :=
            if fellBack then held.1.fallbackUuids.insert uuid else held.1.fallbackUuids }
      if (twinRow w.tx.primary uuid row.id row.name newValue).isSome then do
        pure (summary, ← w.deleteField uuid row.id)
      else do
        pure (summary, ← w.replaceOwnedRow uuid row row.name newValue)

/-- `retype_field`. -/
def retypeField (w : Writer) (name : String) (target : FieldType) : Outcome (RetypeSummary × Writer) :=
  let w := w.forget name
  (w.tx.primary.holders name).foldlM (fun held uuid =>
    (held.2.tx.primary.rowsNamed uuid name).foldlM (retypeRow uuid target) held) ({}, w)

/-- `delete_field_rows`: rows of a field go, as one operation; how many. -/
def deleteFieldRows (w : Writer) (uuid : Uuid) (name : String) (rows : List FieldRow) :
    Outcome (Nat × Writer) :=
  if rows = [] then pure (0, w)
  else do
    let versionBefore ← w.currentVersion uuid
    let w ← rows.foldlM (fun w row => w.deleteRow row.id) w
    let w ← w.logOp .deleteField uuid (some name) (some versionBefore) rows []
    pure (rows.length, w.forget name)

/-- `delete_fields_valued`. -/
def deleteFieldsValued (w : Writer) (uuid : Uuid) (name : String) (value : Value) :
    Outcome (Nat × Writer) :=
  w.deleteFieldRows uuid name
    ((w.tx.primary.rowsNamed uuid name).filter fun row => row.value.eq value)

/-- `delete_fields_named`. -/
def deleteFieldsNamed (w : Writer) (uuid : Uuid) (name : String) : Outcome (Nat × Writer) :=
  w.deleteFieldRows uuid name (w.tx.primary.rowsNamed uuid name)

/-- `clear_field_as`. -/
def clearFieldAs (w : Writer) (opType : OpType) (uuid : Uuid) (name : String) : Outcome Writer :=
  let before := w.tx.primary.rowsNamed uuid name
  if before = [] then pure w
  else do
    let versionBefore ← w.currentVersion uuid
    let w ← w.deleteRows uuid (some name)
    let w ← w.logOp opType uuid (some name) (some versionBefore) before []
    pure (w.forget name)

/-! ### Reverts -/

/-- `defer_type_checks`: types and forests are checked at commit. -/
def deferTypeChecks (w : Writer) : Writer :=
  { w with
    deferredTypes := some (w.deferredTypes.getD [])
    deferredTrees := some (w.deferredTrees.getD [])
    fieldTypes := fun _ => none }

/-- `written_as`: the type of the operation a revert of an operation writes. -/
def writtenAs : OpType → OpType
  | .createRecord => .deleteRecord
  | .deleteRecord => .createRecord
  | .setRecord => .setRecord
  | .appendField => .deleteField
  | .deleteField => .appendField
  | .fileDeleted => .fileMoved
  | .fileMoved => .fileMoved
  | .fileModified => .fileModified
  | _ => .setField

/-- `rows_to_fields`. -/
def rowsToFields (rows : List FieldRow) : List Field := rows.map fun row => ⟨row.name, row.value⟩

/-- The inverse of one operation, applied to the state as it is now; whether anything was undone. -/
def applyInverse (w : Writer) (op : OpRow) : Outcome (Bool × Writer) :=
  let before := w.log.snapshots op.id false
  match op.opType with
  | .createRecord =>
      match w.tx.primary.version op.entityUuid with
      | none => pure (false, w)
      | some _ => do pure (true, ← w.deleteMetarecord op.entityUuid)
  | .deleteRecord => do
      refuseIf ((w.tx.primary.version op.entityUuid).isSome)
        (.conflict s!"metarecord {op.entityUuid.simple} exists again: undoing its deletion (operation {op.id}) cannot recreate it")
      let (_, w) ← w.createMetarecordWithUuid op.entityUuid (rowsToFields before)
      pure (true, w)
  | .setRecord => do
      let (_, w) ← w.setRecord op.entityUuid (rowsToFields before)
      pure (true, w)
  | .appendField => do
      let w ← (w.log.snapshots op.id true).foldlM (fun w row => do
        let (_, w) ← w.deleteFieldsValued op.entityUuid row.name row.value
        pure w) w
      pure (true, w)
  | .deleteField => do
      let w ← before.foldlM (fun w row => do
        let (_, w) ← w.appendField op.entityUuid row.name row.value
        pure w) w
      pure (true, w)
  | .unknown => bail s!"operation {op.id} is an unlogged write and cannot be reverted"
  | opType => do
      let name ← context op.fieldName s!"operation {op.id} carries no field name"
      if before = [] then do
        pure (true, ← w.clearFieldAs (writtenAs opType) op.entityUuid name)
      else do
        let (_, w) ← w.setFieldMultiAs (writtenAs opType) op.entityUuid name
          (before.map FieldRow.value)
        pure (true, w)

/-- `revert::apply`: the inverses of operations, newest to oldest; how many were undone. -/
def applyRevert (w : Writer) (ops : List OpRow) : Outcome (Nat × Writer) := do
  let (done, w) ← ops.reverse.foldlM (fun held op => do
    let (undone, w) ← { held.2 with reverting := some op.id }.applyInverse op
    pure (if undone then held.1 + 1 else held.1, w)) (0, w.deferTypeChecks)
  pure (done, { w with reverting := none })

/-! ### Commit -/

/-- One cell of `check_forest_integrity`: a cell that lost its last position has no children. -/
def checkLost (store : Primary) (lost : String × Uuid) : Outcome Unit := do
  let children ← store.children lost.1 lost.2
  let placed := store.rowsNamed lost.2 lost.1
  let named := (children.take 3).map fun child => Externals.debug child.2.1.display
  let listed := if named.length < children.length then
    named ++ [s!"and {children.length - named.length} more"] else named
  let list := ", ".intercalate listed
  refuseIf (children ≠ [] ∧ !placed.any fun row => row.value.position.isSome)
    (.badRequest s!"cannot remove the last '{lost.1}' position of {lost.2}: {children.length} metarecord(s) are placed under it ({list}); move or delete them first")

/-- `check_forest_integrity`. -/
def checkForestIntegrity (w : Writer) : Outcome Unit :=
  w.treeLost.forM (checkLost w.tx.primary)

/-- `check_deferred_types`: a field name written with its check deferred carries one type. -/
def checkDeferredTypes (w : Writer) : Outcome Unit :=
  (w.deferredTypes.getD []).forM fun name => do
    let types ← w.tx.primary.valueTypes name
    let list := ", ".intercalate types
    refuseIf (1 < types.length)
      (.badRequest s!"field '{name}' would be left with more than one value type ({list}); the value types recorded under one field name must agree")

/-- `check_deferred_trees`: a position written with its check deferred, and still there, is
checked. -/
def checkDeferredTrees (w : Writer) : Outcome Unit :=
  (w.deferredTrees.getD []).forM fun held =>
    if (w.tx.primary.rowsNamed held.1 held.2.1).any fun row => row.value.eq held.2.2 then
      checkTreeRef w.tx.primary held.1 held.2.1 held.2.2
    else pure ()

/-- `commit`: the checks of the state the write lands on, and the end of the log. -/
def commit (w : Writer) : Outcome KvStore := do
  w.checkForestIntegrity
  w.checkDeferredTypes
  w.checkDeferredTrees
  if w.flushed = 0 ∧ w.pending = [] then
    pure ⟨w.tx, if w.openedLabel then w.log.dropLabel w.labelId else w.log⟩
  else do
    let w ← w.flushPending
    let headed := { w.log with head := w.chainHead }
    pure ⟨w.tx,
      match w.firstOp with
      | some first => headed.trim w.retention first
      | none => headed⟩

end Writer

end Metafolder
