import Metafolder.SyncModel

/-!
# The linking phase

Which links a sync plans.  Each record of the scope is matched with a record of the other repository,
by the positions it holds or, holding none, by its fields, or with a new bare one; then every record
that is to be synced has the records it refers to linked as well, unless they hold a position.
-/

namespace Metafolder
namespace Sync

/-- `TreePath`. -/
abbrev TreePath := List TreeName

/-- A repository, as its daemon answers for it. -/
structure Repo where
  /-- Its metarecords. -/
  records : List MetaRecord
  /-- `resolve-tree`: the paths of a metarecord in the forest of a field. -/
  paths : Uuid → String → List TreePath

/-- `LinkRow`. -/
structure LinkRow where
  /-- Its uuid. -/
  uuid : Uuid
  /-- The record of the first repository. -/
  recordA : Uuid
  /-- The record of the second. -/
  recordB : Uuid
  /-- The version the first had when last synced. -/
  versionA : Option UInt64
  /-- The version the second had. -/
  versionB : Option UInt64

/-- The record a link has on a side. -/
def LinkRow.record (link : LinkRow) : Side → Uuid
  | .a => link.recordA
  | .b => link.recordB

/-- Why a plan is aborted. -/
inductive PlanError
  /-- `404`: no such metarecord. -/
  | missing (uuid : Uuid)
  /-- `incoherence`: the positions of a record, each with its occupant, and what is wrong. -/
  | incoherent (record : Uuid) (occupants : List ((String × TreePath) × Option Uuid)) (why : String)
  /-- The worklist did not end. -/
  | endless

namespace Repo

/-- `record_opt`. -/
def record (repo : Repo) (uuid : Uuid) : Option MetaRecord :=
  repo.records.find? fun held => held.uuid = uuid

/-- `record`. -/
def getRecord (repo : Repo) (uuid : Uuid) : Except PlanError MetaRecord :=
  match repo.record uuid with
  | some held => .ok held
  | none => .error (.missing uuid)

/-- The fields that place a record. -/
def positionFields (record : MetaRecord) : List String :=
  ((record.fields.filter fun row => row.value.position.isSome).map FieldRow.name).eraseDups

/-- `identity_paths_in`. -/
def identityPaths (repo : Repo) (uuid : Uuid) : Except PlanError (List (String × TreePath)) := do
  let held ← repo.getRecord uuid
  pure ((positionFields held).flatMap fun field => (repo.paths uuid field).map fun path => (field, path))

/-- `occupant`: the record at a position. -/
def occupant (repo : Repo) (field : String) (path : TreePath) : Option Uuid :=
  (repo.records.find? fun held => (repo.paths held.uuid field).contains path).map MetaRecord.uuid

end Repo

section

variable [FloatText]

/-- `field_signature`: the fields a record is matched by, each with its value's text. -/
def fieldSignature (record : MetaRecord) : List (String × Bytes) :=
  (record.fields.filter fun row => !row.name.startsWith "mfr_" && row.value.typeStr ∉
    ["ref", "tree_ref", "hierarchy_ref", "refbase", "externalref", "nothing"]).map
      fun row => (row.name, key row.value)

/-- The records that carry every field of a signature. -/
def Repo.carrying (repo : Repo) (signature : List (String × Bytes)) : List MetaRecord :=
  repo.records.filter fun held => signature.all fun field =>
    held.fields.any fun row => decide (row.name = field.1 ∧ key row.value = field.2)

/-- `match_by_fields`: the one record of the same signature, if no other has it. -/
def matchByFields (source target : Repo) (record : Uuid) (linked planned : List Uuid) :
    Except PlanError (Option Uuid) := do
  let held ← source.getRecord record
  let signature := fieldSignature held
  if signature = [] then pure none
  else
    let found := (target.carrying signature).filter fun other =>
      !linked.contains other.uuid && !planned.contains other.uuid &&
        !(other.fields.any fun row => row.value.position.isSome) &&
          (fieldSignature other).isPerm signature
    match found with
    | [one] => pure (some one.uuid)
    | _ => pure none

/-- `LinkDecision`. -/
inductive LinkDecision
  /-- Link onto this record. -/
  | onto (other : Uuid)
  /-- Create a record. -/
  | create
  /-- Leave unlinked. -/
  | skip

/-- The fields in which a record is placed in a hierarchy. -/
def hierarchies (record : MetaRecord) : List String :=
  (record.fields.filter fun row => row.value.typeStr = "hierarchy_ref").map FieldRow.name

/-- `resolve_link`. -/
def resolveLink (source target : Repo) (record : Uuid) (linked planned : List Uuid) :
    Except PlanError LinkDecision := do
  let ids ← source.identityPaths record
  if ids = [] then
    match ← matchByFields source target record linked planned with
    | some other => pure (.onto other)
    | none => pure .create
  else
    let occupants := ids.map fun id => (id, target.occupant id.1 id.2)
    match (occupants.filterMap Prod.snd).eraseDups with
    | [] => pure .create
    | [other] =>
        if other ∈ linked ∨ other ∈ planned then pure .skip
        else do
          let otherIds ← target.identityPaths other
          let held ← source.getRecord record
          if occupants.any fun place => !(hierarchies held).contains place.1.1 && place.2.isNone &&
              otherIds.any fun id => decide (id.1 = place.1.1 ∧ id.2 ≠ place.1.2) then
            .error (.incoherent record occupants
              "the target already occupies a different position in one of these forests")
          else pure (.onto other)
    | _ => .error (.incoherent record occupants
        "its TreeRef identities map to different target records")

/-! ### Planning links -/

/-- `End`: a record, with its version unless it is to be created. -/
structure End where
  /-- The record. -/
  record : Uuid
  /-- The version it was read at. -/
  baseline : Option UInt64

/-- `existing_end`. -/
def existingEnd (repo : Repo) (record : Uuid) : End where
  record := record
  baseline := (repo.record record).map MetaRecord.version

/-- The ends of a link, one on each side. -/
def Side.ends (side : Side) (here there : End) : End × End :=
  match side with
  | .a => (here, there)
  | .b => (there, here)

/-- The end of a link on a side. -/
def Side.of (side : Side) (ends : End × End) : End :=
  match side with
  | .a => ends.1
  | .b => ends.2

/-- The links planned so far. -/
structure Linking where
  /-- The links to create. -/
  creates : List (End × End) := []
  /-- The records there were that have one. -/
  planned : Side → List Uuid := fun _ => []
  /-- How many uuids were allocated. -/
  allocated : Nat := 0

/-- `Pair`: the two repositories, their links, and the uuids allocated one after the other. -/
structure Pair where
  /-- The repositories. -/
  repo : Side → Repo
  /-- Their links. -/
  links : List LinkRow
  /-- `Uuid::new_v4`. -/
  fresh : Nat → Uuid

namespace Pair

/-- The records of a side that are linked. -/
def linked (pair : Pair) (side : Side) : List Uuid := pair.links.map (LinkRow.record · side)

/-- A link is planned, onto a record there is or a bare one. -/
def plan (pair : Pair) (side : Side) (held : Linking) (here : Uuid) (there : Option Uuid) :
    Linking where
  creates := held.creates ++ [side.ends (existingEnd (pair.repo side) here)
    (match there with
      | some other => existingEnd (pair.repo side.other) other
      | none => ⟨pair.fresh held.allocated, none⟩)]
  planned at_ :=
    if at_ = side then here :: held.planned at_ else there.toList ++ held.planned at_
  allocated := if there.isNone then held.allocated + 1 else held.allocated

/-- A record of the scope is linked, unless it is already. -/
def linkRecord (pair : Pair) (side : Side) (held : Linking) (record : Uuid) :
    Except PlanError Linking :=
  if record ∈ pair.linked side ∨ record ∈ held.planned side then pure held
  else do
    match ← resolveLink (pair.repo side) (pair.repo side.other) record
        (pair.linked side.other) (held.planned side.other) with
    | .onto other => pure (pair.plan side held record (some other))
    | .create => pure (pair.plan side held record none)
    | .skip => pure held

/-! ### References -/

/-- `ref_targets`: the records a record refers to. -/
def refTargets (repo : Repo) (record : Uuid) : Except PlanError (List Uuid) := do
  let held ← repo.getRecord record
  pure ((held.fields.filterMap fun row =>
    if row.name.startsWith "mfr_" ∧ row.name ≠ "mfr_path" then none
    else
      match row.value with
      | .ref uuid => some uuid
      | _ => none).eraseDups)

/-- A record that is referred to is linked, unless it is already or holds a position. -/
def follow (pair : Pair) (side : Side) (held : Linking × List Uuid) (target : Uuid) :
    Except PlanError (Linking × List Uuid) :=
  if target ∈ pair.linked side ∨ target ∈ held.1.planned side then pure held
  else do
    let ids ← (pair.repo side).identityPaths target
    if ids ≠ [] then pure held
    else pure (pair.plan side held.1 target none, held.2 ++ [target])

/-- The worklist of a side. -/
def close (pair : Pair) (side : Side) : Nat → Linking → List Uuid → Except PlanError Linking
  | _, held, [] => pure held
  | 0, _, _ :: _ => .error .endless
  | fuel + 1, held, record :: work => do
      let targets ← refTargets (pair.repo side) record
      let (held, work) ← targets.foldlM (pair.follow side) (held, work)
      pair.close side fuel held work

/-- Whether an intent selects an end of a link. -/
def inScope (scope : Side → List Uuid) (link : LinkRow) : Bool :=
  (scope .a).contains link.recordA || (scope .b).contains link.recordB

/-- Uuids in order, each once. -/
def sorted (uuids : List Uuid) : List Uuid :=
  (uuids.insertionSort fun first second => first.bytes ≤ second.bytes).dedup

/-- The records of a side that are to be synced and that exist. -/
def synced (pair : Pair) (scope : Side → List Uuid) (side : Side) (creates : List (End × End))
    (held : Linking) : List Uuid :=
  let ends := creates.map (fun ends => (side.of ends).record) ++
    (pair.links.filter (inScope scope)).map (LinkRow.record · side)
  (sorted (ends.filter fun record =>
    (pair.linked side).contains record || (held.planned side).contains record)).filter
      fun record => ((pair.repo side).record record).isSome

/-- The worklist of a side, started with what is to be synced; it has no more rounds than there are
records. -/
def closeSide (pair : Pair) (scope : Side → List Uuid) (creates : List (End × End)) (side : Side)
    (held : Linking) : Except PlanError Linking :=
  let work := pair.synced scope side creates held
  pair.close side (work.length + (pair.repo side).records.length) held work

/-- What the scope and the references of what is synced plan. -/
def linkScope (pair : Pair) (scope : Side → List Uuid) : Except PlanError Linking := do
  let held ← (sorted (scope .a)).foldlM (pair.linkRecord .a) {}
  let held ← (sorted (scope .b)).foldlM (pair.linkRecord .b) held
  let creates := held.creates
  let held ← pair.closeSide scope creates .a held
  pair.closeSide scope creates .b held

/-! ### The links there are -/

/-- `LinkingResult`. -/
structure LinkingResult where
  /-- Links to create. -/
  creates : List (End × End)
  /-- Links in scope with both ends alive. -/
  existing : List ((End × End) × LinkRow) := []
  /-- Links in scope with one end gone, and the side of the other. -/
  deletes : List ((End × End) × Side) := []
  /-- Links with both ends gone. -/
  drops : List (End × End) := []

/-- What is to be done of a link there is. -/
def classify (pair : Pair) (scope : Side → List Uuid) (state : Uuid → Option String)
    (held : LinkingResult) (link : LinkRow) : LinkingResult :=
  if state link.uuid = some "missing_both" then
    { held with drops := held.drops ++ [(⟨link.recordA, none⟩, ⟨link.recordB, none⟩)] }
  else if !inScope scope link then held
  else
    let ends := (existingEnd (pair.repo .a) link.recordA, existingEnd (pair.repo .b) link.recordB)
    match ends.1.baseline, ends.2.baseline with
    | some _, some _ => { held with existing := held.existing ++ [(ends, link)] }
    | some _, none => { held with deletes := held.deletes ++ [(ends, .a)] }
    | none, some _ => { held with deletes := held.deletes ++ [(ends, .b)] }
    | none, none => { held with drops := held.drops ++ [ends] }

/-- `linking_phase`, of the records in scope on each side. -/
def linkingPhase (pair : Pair) (scope : Side → List Uuid) (state : Uuid → Option String) :
    Except PlanError LinkingResult := do
  let held ← pair.linkScope scope
  pure (pair.links.foldl (pair.classify scope state) { creates := held.creates })

end Pair

end

end Sync
end Metafolder
