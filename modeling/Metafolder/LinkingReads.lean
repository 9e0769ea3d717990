import Metafolder.Linking
import Mathlib.Data.List.Sort

/-!
# What the linking phase reads

The linking phase reads the records of the scope, their paths and the occupants of these in bulk, and
answers from memory what it read; what a bulk request did not bring is asked of the daemon one record
or one position at a time.  Any bulk request may fail.
-/

namespace Metafolder
namespace Sync

/-! ### Reads -/

/-- `Reads`. -/
structure Reads where
  records : Side × Uuid → Option MetaRecord := fun _ => none
  paths : Side × Uuid → Option (List (String × TreePath)) := fun _ => none
  /-- The records whose paths were all read. -/
  preloaded : Side × Uuid → Bool := fun _ => false
  /-- The occupants of positions, where they were read. -/
  occupants : Side × String × TreePath → Option (Option Uuid) := fun _ => none

/-- What was read, and how many bulk requests were made. -/
structure Reading where
  reads : Reads := {}
  asked : Nat := 0

/-- `PRELOAD_CHUNK`. -/
def preloadChunk : Nat := 500

/-- `OCCUPANT_CHUNK`. -/
def occupantChunk : Nat := 1000

/-- What the daemons hold, how many records a page has, and which bulk requests are answered. -/
structure Bulk where
  pair : Pair
  pageSize : Nat
  answers : Nat → Bool

namespace Bulk

variable (bulk : Bulk)

/-- A bulk request is made: whether it is answered. -/
def ask (reading : Reading) : Bool × Reading :=
  (bulk.answers reading.asked, { reading with asked := reading.asked + 1 })

/-- The pages of a query, one at least. -/
def pages (held : List MetaRecord) : List (List MetaRecord) :=
  if held = [] then [[]] else held.toChunks (max bulk.pageSize 1)

/-- `preload`, a page of a chunk's records. -/
def keepPage (side : Side) (reading : Reading) (page : List MetaRecord) : Reading :=
  { reading with
    reads.records := page.foldl
      (fun records held => Function.update records (side, held.uuid) (some held))
      reading.reads.records }

/-- `preload`, the pages of a chunk's records: whether all came. -/
def readPages (side : Side) : List (List MetaRecord) → Reading → Bool × Reading
  | [], reading => (true, reading)
  | page :: rest, reading =>
      match bulk.ask reading with
      | (false, reading) => (false, reading)
      | (true, reading) => readPages side rest (keepPage side reading page)

/-- `preload`, the paths of a chunk's records, one request for each field: all of them, or none. -/
def readPaths (side : Side) (uuids : List Uuid) :
    List String → Reading → Option (List (String × List (Uuid × List TreePath))) × Reading
  | [], reading => (some [], reading)
  | field :: rest, reading =>
      match bulk.ask reading with
      | (false, reading) => (none, reading)
      | (true, reading) =>
          let found := uuids.map fun uuid => (uuid, (bulk.pair.repo side).paths uuid field)
          match readPaths side uuids rest reading with
          | (some later, reading) => (some ((field, found) :: later), reading)
          | (none, reading) => (none, reading)

/-- The paths read of a record, unless no request named it. -/
def pathsIn (answers : List (String × List (Uuid × List TreePath))) (uuid : Uuid) :
    Option (List (String × TreePath)) :=
  if answers.any fun answer => answer.2.any fun found => found.1 = uuid then
    some (answers.flatMap fun answer =>
      (answer.2.filter fun found => found.1 = uuid).flatMap fun found =>
        found.2.map fun path => (answer.1, path))
  else none

/-- `preload`, what is published of a record whose paths were all read. -/
def publish (side : Side) (answers : List (String × List (Uuid × List TreePath))) (reads : Reads)
    (uuid : Uuid) : Reads :=
  { reads with
    paths :=
      match pathsIn answers uuid with
      | some found => Function.update reads.paths (side, uuid) (some found)
      | none => reads.paths
    preloaded := Function.update reads.preloaded (side, uuid) true }

/-- `preload`, one chunk: whether every request was answered. -/
def readChunk (side : Side) (chunk : List Uuid) (reading : Reading) : Bool × Reading :=
  let held := chunk.filterMap (bulk.pair.repo side).record
  match bulk.readPages side (bulk.pages held) reading with
  | (false, reading) => (false, reading)
  | (true, reading) =>
      let uuids := held.map MetaRecord.uuid
      let fields := (held.flatMap Repo.positionFields).eraseDups
      match bulk.readPaths side uuids fields reading with
      | (none, reading) => (false, reading)
      | (some answers, reading) =>
          (true, { reading with reads := uuids.foldl (publish side answers) reading.reads })

/-- `preload`, chunk by chunk until a request fails. -/
def readChunks (side : Side) : List (List Uuid) → Reading → Reading
  | [], reading => reading
  | chunk :: rest, reading =>
      match bulk.readChunk side chunk reading with
      | (true, reading) => readChunks side rest reading
      | (false, reading) => reading

/-- `preload`. -/
def preload (side : Side) (uuids : List Uuid) (reading : Reading) : Reading :=
  bulk.readChunks side (uuids.toChunks preloadChunk) reading

/-- `preload_occupants`, one chunk of the paths of a field. -/
def readOccupants (side : Side) (field : String) (reading : Reading) (chunk : List TreePath) :
    Reading :=
  match bulk.ask reading with
  | (false, reading) => reading
  | (true, reading) =>
      { reading with
        reads.occupants := chunk.foldl
          (fun occupants path => Function.update occupants (side, field, path)
            (some ((bulk.pair.repo side).occupant field path)))
          reading.reads.occupants }

/-- Paths in the order of their bytes, each once. -/
def sortedPaths (paths : List TreePath) : List TreePath :=
  (paths.insertionSort fun first second =>
    [(0x2F : UInt8)].intercalate (first.map TreeName.bytes) ≤
      [(0x2F : UInt8)].intercalate (second.map TreeName.bytes)).dedup

/-- `preload_occupants`. -/
def preloadOccupants (side : Side) (positions : List (String × TreePath)) (reading : Reading) :
    Reading :=
  let unread := positions.filter fun position =>
    (reading.reads.occupants (side, position.1, position.2)).isNone
  let fields := (unread.map Prod.fst).eraseDups
  fields.foldl (fun reading field =>
    let paths := sortedPaths
      ((unread.filter fun position => position.1 = field).map Prod.snd)
    (paths.toChunks occupantChunk).foldl (bulk.readOccupants side field) reading) reading

/-! ### Answers from memory -/

/-- `Reads::record_opt`. -/
def record (reads : Reads) (side : Side) (uuid : Uuid) : Option MetaRecord :=
  match reads.records (side, uuid) with
  | some held => some held
  | none => (bulk.pair.repo side).record uuid

/-- `Reads::record`. -/
def getRecord (reads : Reads) (side : Side) (uuid : Uuid) : Except PlanError MetaRecord :=
  match bulk.record reads side uuid with
  | some held => .ok held
  | none => .error (.missing uuid)

/-- `Reads::occupant`. -/
def occupant (reads : Reads) (side : Side) (field : String) (path : TreePath) : Option Uuid :=
  match reads.occupants (side, field, path) with
  | some occupant => occupant
  | none => (bulk.pair.repo side).occupant field path

/-- `identity_paths_in`. -/
def identityPaths (reads : Reads) (side : Side) (uuid : Uuid) :
    Except PlanError (List (String × TreePath)) :=
  if reads.preloaded (side, uuid) then pure ((reads.paths (side, uuid)).getD [])
  else do
    let held ← bulk.getRecord reads side uuid
    pure ((Repo.positionFields held).flatMap fun field =>
      ((bulk.pair.repo side).paths uuid field).map fun path => (field, path))

/-- `existing_end`. -/
def existingEnd (reads : Reads) (side : Side) (record : Uuid) : End where
  record := record
  baseline := (bulk.record reads side record).map MetaRecord.version

/-! ### The phase -/

section

variable [FloatText]

/-- `resolve_link`. -/
def resolveLink (reads : Reads) (side : Side) (record : Uuid) (linked planned : List Uuid) :
    Except PlanError LinkDecision := do
  let ids ← bulk.identityPaths reads side record
  if ids = [] then
    match ← matchByFields (bulk.pair.repo side) (bulk.pair.repo side.other) record linked planned with
    | some other => pure (.onto other)
    | none => pure .create
  else
    let occupants := ids.map fun id => (id, bulk.occupant reads side.other id.1 id.2)
    match (occupants.filterMap Prod.snd).eraseDups with
    | [] => pure .create
    | [other] =>
        if other ∈ linked ∨ other ∈ planned then pure .skip
        else do
          let otherIds ← bulk.identityPaths reads side.other other
          let held ← bulk.getRecord reads side record
          if occupants.any fun place => !(hierarchies held).contains place.1.1 && place.2.isNone &&
              otherIds.any fun id => decide (id.1 = place.1.1 ∧ id.2 ≠ place.1.2) then
            .error (.incoherent record occupants
              "the target already occupies a different position in one of these forests")
          else pure (.onto other)
    | _ => .error (.incoherent record occupants
        "its TreeRef identities map to different target records")

/-- A link is planned, onto a record there is or a bare one. -/
def plan (reads : Reads) (side : Side) (held : Linking) (here : Uuid) (there : Option Uuid) :
    Linking where
  creates := held.creates ++ [side.ends (bulk.existingEnd reads side here)
    (match there with
      | some other => bulk.existingEnd reads side.other other
      | none => ⟨bulk.pair.fresh held.allocated, none⟩)]
  planned at_ :=
    if at_ = side then here :: held.planned at_ else there.toList ++ held.planned at_
  allocated := if there.isNone then held.allocated + 1 else held.allocated

/-- A record of the scope is linked, unless it is already. -/
def linkRecord (reads : Reads) (side : Side) (held : Linking) (record : Uuid) :
    Except PlanError Linking :=
  if record ∈ bulk.pair.linked side ∨ record ∈ held.planned side then pure held
  else do
    match ← bulk.resolveLink reads side record (bulk.pair.linked side.other)
        (held.planned side.other) with
    | .onto other => pure (bulk.plan reads side held record (some other))
    | .create => pure (bulk.plan reads side held record none)
    | .skip => pure held

/-- `ref_targets`. -/
def refTargets (reads : Reads) (side : Side) (record : Uuid) : Except PlanError (List Uuid) := do
  let held ← bulk.getRecord reads side record
  pure ((held.fields.filterMap fun row =>
    if row.name.startsWith "mfr_" ∧ row.name ≠ "mfr_path" then none
    else
      match row.value with
      | .ref uuid => some uuid
      | _ => none).eraseDups)

/-- A record that is referred to is linked, unless it is already or holds a position. -/
def follow (reads : Reads) (side : Side) (held : Linking × List Uuid) (target : Uuid) :
    Except PlanError (Linking × List Uuid) :=
  if target ∈ bulk.pair.linked side ∨ target ∈ held.1.planned side then pure held
  else do
    let ids ← bulk.identityPaths reads side target
    if ids ≠ [] then pure held
    else pure (bulk.plan reads side held.1 target none, held.2 ++ [target])

/-- The worklist of a side. -/
def close (reads : Reads) (side : Side) : Nat → Linking → List Uuid → Except PlanError Linking
  | _, held, [] => pure held
  | 0, _, _ :: _ => .error .endless
  | fuel + 1, held, record :: work => do
      let targets ← bulk.refTargets reads side record
      let (held, work) ← targets.foldlM (bulk.follow reads side) (held, work)
      close reads side fuel held work

/-- The records of a side that are to be synced, bare ones apart. -/
def synced (scope : Side → List Uuid) (side : Side) (creates : List (End × End))
    (held : Linking) : List Uuid :=
  let ends := creates.map (fun ends => (side.of ends).record) ++
    (bulk.pair.links.filter (Pair.inScope scope)).map (LinkRow.record · side)
  Pair.sorted (ends.filter fun record =>
    (bulk.pair.linked side).contains record || (held.planned side).contains record)

/-- The worklist of a side, once the records to be synced that are out of scope are read too. -/
def closeSide (scope : Side → List Uuid) (creates : List (End × End)) (side : Side)
    (held : Linking) (reading : Reading) : Except PlanError (Linking × Reading) := do
  let synced := bulk.synced scope side creates held
  let reading := bulk.preload side
    (synced.filter fun record => !reading.reads.preloaded (side, record)) reading
  let work := synced.filter fun record => (bulk.record reading.reads side record).isSome
  let held ← bulk.close reading.reads side
    (work.length + (bulk.pair.repo side).records.length) held work
  pure (held, reading)

/-- What is to be done of a link there is. -/
def classify (reads : Reads) (scope : Side → List Uuid) (state : Uuid → Option String)
    (held : Pair.LinkingResult) (link : LinkRow) : Pair.LinkingResult :=
  if state link.uuid = some "missing_both" then
    { held with drops := held.drops ++ [(⟨link.recordA, none⟩, ⟨link.recordB, none⟩)] }
  else if !Pair.inScope scope link then held
  else
    let ends := (bulk.existingEnd reads .a link.recordA, bulk.existingEnd reads .b link.recordB)
    match ends.1.baseline, ends.2.baseline with
    | some _, some _ => { held with existing := held.existing ++ [(ends, link)] }
    | some _, none => { held with deletes := held.deletes ++ [(ends, .a)] }
    | none, some _ => { held with deletes := held.deletes ++ [(ends, .b)] }
    | none, none => { held with drops := held.drops ++ [ends] }

/-- What is read before any link is planned: the scope of each side, and the occupants of its
positions on the other side. -/
def readScope (scope : Side → List Uuid) : Reading :=
  let positions (reading : Reading) (side : Side) : List (String × TreePath) :=
    ((Pair.sorted (scope side)).filterMap fun uuid => reading.reads.paths (side, uuid)).flatten
  let reading := bulk.preload .b (Pair.sorted (scope .b))
    (bulk.preload .a (Pair.sorted (scope .a)) {})
  let reading := bulk.preloadOccupants .b (positions reading .a) reading
  bulk.preloadOccupants .a (positions reading .b) reading

/-- `linking_phase`. -/
def linkingPhase (scope : Side → List Uuid) (state : Uuid → Option String) :
    Except PlanError Pair.LinkingResult := do
  let reading := bulk.readScope scope
  let held ← (Pair.sorted (scope .a)).foldlM (bulk.linkRecord reading.reads .a) {}
  let held ← (Pair.sorted (scope .b)).foldlM (bulk.linkRecord reading.reads .b) held
  let creates := held.creates
  let (held, reading) ← bulk.closeSide scope creates .a held reading
  let (held, reading) ← bulk.closeSide scope creates .b held reading
  pure (bulk.pair.links.foldl (bulk.classify reading.reads scope state)
    { creates := held.creates })

end

end Bulk

end Sync
end Metafolder
