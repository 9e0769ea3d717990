import Metafolder.Outcome
import Metafolder.Trash

/-!
# File actions of a revert

The client of a coordinated revert goes through its operations in order: it moves files, and brings
content back from the trash, at most once for each entry.  Each operation is performed or left out.
-/

namespace Metafolder

namespace Trash

/-! ### Files and the trash -/

namespace Entries

/-- The entry under a name, taken away. -/
def remove (name : TreeName) : Entries → Entries
  | nil => nil
  | leaf held content rest =>
      if held = name then rest else leaf held content (rest.remove name)
  | dir held below rest => if held = name then rest else dir held below (rest.remove name)

/-- What stands at a path. -/
def nodeAt (entries : Entries) : List TreeName → Option Node
  | [] => some (.dir entries)
  | name :: path =>
      match entries.lookup name with
      | some (.dir below) => below.nodeAt path
      | some (.leaf content) => if path = [] then some (.leaf content) else none
      | none => none

/-- What stands at a path, replaced, the directory it is in being there. -/
def putAt : List TreeName → Node → Entries → Option Entries
  | [], .dir below, _ => some below
  | [], .leaf _, _ => none
  | [name], node, entries => some (entries.put name node)
  | name :: path, node, entries =>
      match entries.lookup name with
      | some (.dir below) => (putAt path node below).map fun below => entries.put name (.dir below)
      | _ => none

/-- What stands at a path, taken away. -/
def removeAt : List TreeName → Entries → Entries
  | [], entries => entries
  | [name], entries => entries.remove name
  | name :: path, entries =>
      match entries.lookup name with
      | some (.dir below) => entries.put name (.dir (removeAt path below))
      | _ => entries

/-- `create_dir_all`. -/
def createDirAll : List TreeName → Entries → Option Entries
  | [], entries => some entries
  | name :: path, entries =>
      match entries.lookup name with
      | none => (createDirAll path nil).map fun below => entries.put name (.dir below)
      | some (.dir below) =>
          (createDirAll path below).map fun below => entries.put name (.dir below)
      | some (.leaf _) => none

end Entries

/-- A path from the root of the disk. -/
abbrev Path : Type := List TreeName

/-- `TrashedNode`: a metarecord a trashing captured. -/
structure TrashedNode where
  uuid : String
  /-- Whether it was taken, and not recorded as a directory above. -/
  trashed : Bool
deriving DecidableEq

/-- `TrashEntry`. -/
structure TrashEntry where
  id : String
  /-- Where it was. -/
  originalPath : Path
  metarecord : Option String
  /-- The version of the metarecord then. -/
  version : Option Nat
  subtree : List TrashedNode
deriving DecidableEq

/-- A disk with the trash of a repository. -/
structure Disk where
  /-- What is there. -/
  root : Entries
  /-- The trash, under the ids of its entries. -/
  blobs : String → Option Node
  /-- Its index. -/
  index : List TrashEntry

/-- What the system decides. -/
structure System where
  clobber : Clobber
  /-- Whether a path is on another device than the trash. -/
  acrossDevices : Path → Bool
  /-- Whether a rename between two paths goes through. -/
  renames : Path → Path → Bool
  /-- The id of an entry, which none of the index has. -/
  newId : Disk → String

namespace Disk

/-- `symlink_metadata`, of a path that may be none. -/
def stat (disk : Disk) (path : Option Path) : Option Node := path.bind disk.root.nodeAt

/-- `path_present`. -/
def pathPresent (disk : Disk) (path : Option Path) : Bool := (disk.stat path).isSome

/-- `is_real_dir`. -/
def isRealDir (disk : Disk) (path : Option Path) : Bool :=
  match disk.stat path with
  | some (.dir _) => true
  | _ => false

/-- The place an entry was at, and what it holds. -/
def bin (disk : Disk) (entry : TrashEntry) : Bin where
  blob := disk.blobs entry.id
  target := disk.root.nodeAt entry.originalPath
  room := (disk.root.createDirAll entry.originalPath.dropLast).isSome

/-- What a restore leaves on the disk. -/
def put (disk : Disk) (entry : TrashEntry) (bin : Bin) : Disk :=
  let made := if disk.root.nodeAt entry.originalPath = none then
      (disk.root.createDirAll entry.originalPath.dropLast).getD disk.root
    else disk.root
  { root := (bin.target.bind fun node => made.putAt entry.originalPath node).getD made
    blobs := Function.update disk.blobs entry.id bin.blob
    index := if bin.listed then disk.index
      else disk.index.filter fun other => other.id ≠ entry.id }

/-- `TrashDir::restore`. -/
def restore (system : System) (disk : Disk) (id : String) :
    Except (Option TrashError) Path × Disk :=
  match disk.index.find? fun entry => entry.id = id with
  | none => (.error none, disk)
  | some entry =>
      match Trash.restore system.clobber (system.acrossDevices entry.originalPath)
          (disk.bin entry) with
      | (.ok (), bin) => (.ok entry.originalPath, disk.put entry bin)
      | (.error refusal, bin) => (.error (some refusal), disk.put entry bin)

/-- `trash_path`, of something that is there and whose metarecord is not known. -/
def trashPath (system : System) (disk : Disk) (path : Path) (node : Node) : Disk :=
  let id := system.newId disk
  { root := disk.root.removeAt path
    blobs := Function.update disk.blobs id
      (movePath system.clobber (system.acrossDevices path) node none)
    index := disk.index ++ [⟨id, path, none, none, []⟩] }

/-- `std::fs::rename`, to a place that is free. -/
def rename (system : System) (disk : Disk) (source target : Path) : Option Disk :=
  match disk.root.nodeAt source with
  | none => none
  | some node =>
      if source <+: target || !system.renames source target then none
      else
        ((disk.root.removeAt source).putAt target node).map fun root => { disk with root }

end Disk

end Trash

namespace Revert

open Trash

/-! ### Operations of a plan -/

/-- `Policy`: what to do with a move. -/
inductive Policy
  | apply
  | skip
  | abort
  /-- It is left to the user. -/
  | ask
deriving DecidableEq

/-- `MovePolicies`. -/
structure MovePolicies where
  onAvailable : Policy
  onUnavailable : Policy

/-- `filesystem.action`: what undoing an operation requires on disk. -/
inductive FileAction
  /-- A file moves, between what the plan gives as paths. -/
  | move (source target : Option Path)
  /-- Content comes back from the trash. -/
  | restoreContent
  /-- It goes there again. -/
  | trashContent
deriving DecidableEq

/-- An operation of a plan, as the client reads it. -/
structure PlanOp where
  id : Option Int64
  opType : String
  entityUuid : Option String
  action : Option FileAction
  /-- `entity_version_before`. -/
  versionBefore : Option Nat := none
  /-- `entity_version_before_label`. -/
  versionBeforeLabel : Option Nat := none
deriving DecidableEq

namespace PlanOp

/-- The metarecord an operation is about. -/
def entity (op : PlanOp) : String := op.entityUuid.getD ""

/-- `takes_a_whole_metarecord`. -/
def takesAWholeMetarecord (op : PlanOp) : Bool :=
  op.opType = "delete_metarecord" || op.opType = "create_metarecord"

/-- The version a trash entry has to hold. -/
def version (op : PlanOp) : Option Nat := op.versionBeforeLabel.or op.versionBefore

/-- Whether a trash entry covers the metarecord of an operation, in `decide_deleted`. -/
def coveredBy (op : PlanOp) (byMetarecordOnly : Bool) (entry : TrashEntry) : Bool :=
  let isTop := entry.metarecord = some op.entity &&
    (byMetarecordOnly || op.version.any fun version => entry.version = some version)
  let isDescendant := entry.metarecord ≠ some op.entity &&
    entry.subtree.any fun node => node.trashed && node.uuid = op.entity
  isTop || isDescendant

end PlanOp

/-! ### Decisions -/

/-- `RevertError`. -/
inductive RevertError
  /-- "mv … failed: …" -/
  | moveFailed
  /-- "revert aborted by move policy" -/
  | aborted
  /-- "the move policy was left undecided" -/
  | undecided
  /-- An error of the front end, or of the daemon. -/
  | other (message : String)
deriving DecidableEq

/-- What a coordinated revert needs. -/
structure Front where
  system : System
  policies : MovePolicies
  /-- `ask_move`, with whether the file is available. -/
  askMove : PlanOp → Bool → Except RevertError Policy

/-- Where a revert is. -/
structure Progress where
  disk : Disk
  /-- The entries of the trash at its start, those restored apart. -/
  entries : List TrashEntry
  /-- The metarecords whose content was brought back. -/
  restored : List String

variable (front : Front)

/-- The policy of a move, the user's where it is left to the user. -/
def policyOf (op : PlanOp) (available : Bool) : Except RevertError Policy :=
  let policy := if available then front.policies.onAvailable else front.policies.onUnavailable
  if policy = .ask then front.askMove op available else pure policy

/-- `decide_move`: whether the operation is left out. -/
def decideMove (op : PlanOp) (source target : Option Path) (progress : Progress) :
    Except RevertError (Bool × Progress) := do
  let disk := progress.disk
  let available := disk.pathPresent source
  match ← policyOf front op available with
  | .apply =>
      if available then
        if disk.isRealDir target then pure (true, progress)
        else
          let disk := match target, disk.stat target with
            | some path, some occupant => disk.trashPath front.system path occupant
            | _, _ => disk
          match source, target with
          | some source, some target =>
              match disk.rename front.system source target with
              | some disk => pure (false, { progress with disk })
              | none => throw .moveFailed
          | _, _ => throw .moveFailed
      else pure (false, progress)
  | .skip => pure (true, progress)
  | .abort => throw .aborted
  | .ask => throw .undecided

/-- `decide_deleted`: whether the operation is left out. -/
def decideDeleted (op : PlanOp) (byMetarecordOnly : Bool) (progress : Progress) :
    Bool × Progress :=
  if op.entity ∈ progress.restored then (false, progress)
  else
    match progress.entries.find? (op.coveredBy byMetarecordOnly) with
    | none => (true, progress)
    | some entry =>
        let covered := (entry.subtree.filter TrashedNode.trashed).map TrashedNode.uuid
        match progress.disk.restore front.system entry.id with
        | (.ok _, disk) =>
            (false,
              { disk
                entries := progress.entries.eraseP (op.coveredBy byMetarecordOnly)
                restored := progress.restored ++ covered ++ [op.entity] })
        | (.error _, disk) => (true, { progress with disk })

/-- What `revert` decides on one operation. -/
def decide (op : PlanOp) (progress : Progress) : Except RevertError (Bool × Progress) :=
  match op.action with
  | some (.move source target) => decideMove front op source target progress
  | some .restoreContent => pure (decideDeleted front op op.takesAWholeMetarecord progress)
  | _ => pure (false, progress)

/-- An operation decided, and where the revert was before and after. -/
structure Decided where
  op : PlanOp
  id : Int64
  before : Progress
  leftOut : Bool
  after : Progress

/-- `revert`, its loop over the operations. -/
def decideAll : List PlanOp → Progress → Except RevertError (List Decided)
  | [], _ => pure []
  | op :: rest, progress =>
      match op.id with
      | none => decideAll rest progress
      | some id => do
          let (leftOut, after) ← decide front op progress
          let later ← decideAll rest after
          pure (⟨op, id, progress, leftOut, after⟩ :: later)

/-- What a coordinated revert sends the daemon last. -/
inductive Ending
  /-- `POST /revert/commit`, with the operations to apply. -/
  | commit (apply : List Int64)
  /-- `POST /revert/abort`. -/
  | abort (error : RevertError)

/-- `revert`, once the lock is taken: `retrash` sends back to the trash what goes again. -/
def revert (retrash : List PlanOp → Disk → Except RevertError Disk) (operations : List PlanOp)
    (disk : Disk) : Ending :=
  let decided : Except RevertError (List Decided) := do
    let resent ← retrash (operations.filter fun op => op.action = some FileAction.trashContent) disk
    decideAll front operations ⟨resent, disk.index, []⟩
  match decided with
  | .ok decided => .commit ((decided.filter fun one => !one.leftOut).map Decided.id)
  | .error error => .abort error

end Revert

end Metafolder
