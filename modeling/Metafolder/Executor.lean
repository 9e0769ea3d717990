import Metafolder.FsEvents
import Metafolder.Lookups
import Metafolder.Transaction

/-!
# Applying filesystem events

A flush applies the buffered events to the metarecords, one write for each group.  An event is
applied against the filesystem as it is then, not as it was when the event happened: each look at
the disk, each check whether the flush was stopped and each new uuid is one tick of a clock.
-/

namespace Metafolder

/-! ### The disk -/

/-- `FileType`. -/
inductive FileKind
  | file
  | dir
  | symlink
deriving DecidableEq

/-- The text of `mfr_type`. -/
def FileKind.text : FileKind → String
  | file => "file"
  | dir => "dir"
  | symlink => "symlink"

/-- `Metadata`: what the filesystem says of an entry, links not followed. -/
structure Metadata where
  /-- What it is. -/
  kind : FileKind
  /-- Its length. -/
  len : UInt64
  /-- Where it points, for a link that can be read. -/
  target : Option String := none
  /-- When it was modified, in milliseconds, where the filesystem says so. -/
  modified : Option Int64 := none
  /-- When it was created, in milliseconds, where the filesystem says so. -/
  created : Option Int64 := none
  /-- Its mode. -/
  mode : UInt32 := 0
  /-- Its owner. -/
  uid : UInt32 := 0
  /-- Its group. -/
  gid : UInt32 := 0
  /-- How many names it has. -/
  nlink : UInt64 := 1
  /-- Its filesystem. -/
  dev : UInt64 := 0
  /-- Its inode. -/
  ino : UInt64 := 0
  /-- `mount::probe`: what is mounted there. -/
  mount : Option String := none

/-- What can be read of the repository's files at one moment. -/
structure Disk where
  /-- `symlink_metadata`. -/
  metadata : RelPath → Option Metadata
  /-- `read_dir`, the entries that could be read. -/
  readDir : RelPath → Option (List TreeName)

namespace Metadata

/-- `{:04o}` of the mode's permission bits. -/
def permissions (held : Metadata) : String :=
  let digits := Nat.toDigits 8 (held.mode.toNat % 4096)
  String.ofList (List.replicate (4 - digits.length) '0' ++ digits)

/-- `stat_fields`. -/
def statFields (held : Metadata) : List Field :=
  [⟨"mfr_type", .string held.kind.text⟩, ⟨"mfr_size", .int held.len.toInt64⟩] ++
    (if held.kind = .symlink then
      (held.target.map fun target => (⟨"mfr_symlink_target", .string target⟩ : Field)).toList
    else []) ++
    (held.modified.map fun ms => (⟨"mfr_mtime", .dateTime ms⟩ : Field)).toList ++
    (held.created.map fun ms => (⟨"mfr_btime", .dateTime ms⟩ : Field)).toList ++
    [⟨"mfr_permissions", .string held.permissions⟩,
      ⟨"mfr_uid", .int held.uid.toUInt64.toInt64⟩, ⟨"mfr_gid", .int held.gid.toUInt64.toInt64⟩] ++
    if 1 < held.nlink then [⟨"mfr_inode", .string s!"{held.dev}:{held.ino}"⟩] else []

/-- `stat_fields_in`: a directory below the root says what is mounted there. -/
def statFieldsIn (held : Metadata) (rel : RelPath) : List Field :=
  held.statFields ++
    if held.kind = .dir ∧ rel ≠ [] then
      (held.mount.map fun identity => (⟨"mfr_mount", .string identity⟩ : Field)).toList
    else []

end Metadata

/-- The value of the first field of a name. -/
def valueOf (fields : List Field) (name : String) : Option Value :=
  (fields.find? (·.name = name)).map Field.value

/-- `OfflineMounts::contains`: whether a path is at or below one of those offline. -/
def offlineContains (offline : List String) (rel : RelPath) : Bool :=
  offline.any fun mount => rel.display = mount || (mount ++ "/").isPrefixOf rel.display

/-! ### Departures -/

/-- `StatKey`: the stat a rename keeps. -/
abbrev StatKey : Type := String × Int64 × Int64

/-- `stat_key`. -/
def statKey (kind size mtime : Option Value) : Option StatKey :=
  match kind, size, mtime with
  | some (.string kind), some (.int size), some (.dateTime mtime) => some (kind, size, mtime)
  | _, _, _ => none

/-- `pick_departure`: the departure of the arrival's name, else the only one there is. -/
def pickDeparture (arrival : RelPath) (candidates : List RelPath) : Option RelPath :=
  match candidates.filter fun source => source.getLast? = arrival.getLast? with
  | [one] => some one
  | [] =>
      match candidates with
      | [only] => some only
      | _ => none
  | _ => none

/-! ### One write of a flush -/

/-- Why a group was not applied. -/
inductive Stopped
  /-- `Cancelled`: the flush was stopped. -/
  | cancelled
  /-- A failure. -/
  | failed (failure : Failure)
  /-- A tree that grows as fast as it is read. -/
  | endless
deriving DecidableEq

/-- What a group's application is given. -/
structure Batch where
  /-- The filesystem, at each tick. -/
  disk : Nat → Disk
  /-- `cancel`: whether the flush was stopped, at each tick. -/
  cancel : Nat → Bool := fun _ => false
  /-- The uuid made at each tick. -/
  made : Nat → Uuid
  /-- How many directories one walk enters. -/
  fuel : Nat
  /-- Whether case does not count in names. -/
  caseInsensitive : Bool := false
  /-- `departed`: the paths renamed away in the batch, with no arrival. -/
  departed : List RelPath
  /-- `moved`: both sides of the batch's whole moves. -/
  moved : List RelPath
  /-- `arriving`: where they land. -/
  arriving : List RelPath
  /-- `offline`: the mount points that are not there, and the second mounts. -/
  offline : List String := []
  /-- `orphan_limit`: how many metarecords one event may orphan, zero for any number. -/
  orphanLimit : Nat := 0

/-- `Apply`: the write of one group, in progress. -/
structure Apply where
  /-- The write. -/
  writer : Writer
  /-- The rules. -/
  rules : WatchRules
  /-- `departed_index`, once it is built. -/
  departedIndex : Option (StatKey → List RelPath) := none
  /-- How many paths were not tracked. -/
  ignored : Nat := 0
  /-- The clock. -/
  tick : Nat := 0

/-- A step of a group's application. -/
abbrev Flushing : Type → Type := StateT Apply (Except Stopped)

namespace Flushing

/-- The outcome of reading the store, or of writing it. -/
def attempt {α : Type} : Outcome α → Flushing α
  | .ok value => pure value
  | .error failure => throw (.failed failure)

/-- The data as the write sees it. -/
def store : Flushing Primary := do return (← get).writer.tx.primary

/-- One call of the writer. -/
def call [Externals] (made : Writer.Call) : Flushing Unit := do
  let apply ← get
  let w ← attempt (apply.writer.call made)
  set { apply with writer := w }

/-- One tick of the clock. -/
def next : Flushing Nat :=
  modifyGet fun apply => (apply.tick, { apply with tick := apply.tick + 1 })

end Flushing

namespace Batch

open Flushing

/-- One look at an entry. -/
def look (batch : Batch) (rel : RelPath) : Flushing (Option Metadata) := do
  return (batch.disk (← next)).metadata rel

/-- `is_dir`. -/
def isDir (batch : Batch) (rel : RelPath) : Flushing Bool := do
  return (← batch.look rel).any fun held => held.kind = .dir

/-- `check_cancelled`. -/
def checkCancelled (batch : Batch) : Flushing Unit := do
  if batch.cancel (← next) then throw .cancelled

variable [Externals]

/-- `frozen`: whether an event is about what is offline. -/
def frozen (batch : Batch) (event : FsEvent) : Bool :=
  event.paths.any (offlineContains batch.offline)

/-- `eligible`. -/
def eligible (rel : RelPath) : Flushing Bool := do
  match (← get).rules.isEligible rel with
  | .error message => throw (.failed (.internal message))
  | .ok true => pure true
  | .ok false => do
      modify fun apply => { apply with ignored := apply.ignored + 1 }
      pure false

/-- `resolve`. -/
def resolve (batch : Batch) (rel : RelPath) : Flushing (Option Uuid) := do
  attempt ((← store).resolveRel batch.caseInsensitive rel)

/-- `create_metarecord`, under a new uuid. -/
def createMetarecord (batch : Batch) (fields : List Field) : Flushing Uuid := do
  let uuid := batch.made (← next)
  call (.createMetarecord uuid fields)
  pure uuid

/-! ### Duplicate groups -/

/-- The first `Int` value of a field. -/
def intField (store : Primary) (uuid : Uuid) (name : String) : Option Int64 :=
  (store.rowsNamed uuid name).findSome? fun row =>
    match row.value with
    | .int n => some n
    | _ => none

/-- The inode a metarecord names. -/
def inodeOf (store : Primary) (uuid : Uuid) : Option String :=
  (store.rowsNamed uuid "mfr_inode").findSome? fun row =>
    match row.value with
    | .string inode => some inode
    | _ => none

/-- `reclaimable_from_inodes`: the bytes freed by keeping one file of some. -/
def reclaimableFromInodes (size : Int64) (inodes : List (Option String)) : Int64 :=
  let distinct := (inodes.filterMap id).dedup.length
  let singles := (inodes.filter Option.isNone).length
  size * Int64.ofNat (distinct + singles - 1)

/-- `duplicate_group_members`. -/
def duplicateGroupMembers (store : Primary) (group : Uuid) : Outcome (List Uuid) := do
  let rows ← store.fieldRows "mfr_duplicate_group"
  pure ((rows.filter fun held => held.2.value = .ref group).map Prod.fst)

/-- `refresh_group`: the counters of a group follow its members; a group of one is dissolved. -/
def refreshGroup (opType : OpType) (group : Uuid) : Flushing Unit := do
  let members ← attempt (duplicateGroupMembers (← store) group)
  if members.length < 2 then
    members.forM fun member => call (.clearFieldAs opType member "mfr_duplicate_group")
    if ((← store).version group).isSome then call (.deleteMetarecord group)
  else
    let before ← store
    let size := (intField before group "mfr_content_size").getD 0
    let count := Int64.ofNat members.length
    let reclaimable := reclaimableFromInodes size (members.map (inodeOf before))
    if intField before group "mfr_duplicate_count" ≠ some count then
      call (.setFieldAs opType group "mfr_duplicate_count" (.int count))
    if intField before group "mfr_duplicate_reclaimable" ≠ some reclaimable then
      call (.setFieldAs opType group "mfr_duplicate_reclaimable" (.int reclaimable))

/-- `leave_group`: a metarecord leaves its duplicate group. -/
def leaveGroup (opType : OpType) (uuid : Uuid) : Flushing Unit := do
  let group := ((← store).rowsNamed uuid "mfr_duplicate_group").findSome? fun row =>
    match row.value with
    | .ref group => some group
    | _ => none
  call (.clearFieldAs opType uuid "mfr_duplicate_group")
  match group with
  | some group => refreshGroup opType group
  | none => pure ()

/-! ### Refreshing -/

/-- `CONTENT_DERIVED_FIELDS`, the group aside. -/
def contentDerivedFields : List String :=
  ["mfr_partial_hash", "mfr_full_hash", "mfr_hash_mtime", "mfr_hash_size"]

/-- The stat fields of some names are written. -/
def writeStat (uuid : Uuid) (names : List String) (stat : List Field) : Flushing Unit := do
  (stat.filter fun field => field.name ∈ names).forM fun field =>
    call (.setFieldAs .fileModified uuid field.name field.value)

/-- `clear_absent_conditional_stat_fields`. -/
def clearAbsentConditionalStatFields (uuid : Uuid) (stat : List Field) : Flushing Unit := do
  if !stat.any fun field => field.name = "mfr_inode" then
    call (.clearFieldAs .fileModified uuid "mfr_inode")

/-- The first value of a field that is not `Nothing`. -/
def storedValue (store : Primary) (uuid : Uuid) (name : String) : Option Value :=
  ((store.rowsNamed uuid name).map FieldRow.value).find? fun value => !value.isNothing

/-- `refresh_data`: size and mtime follow the disk, and what was derived from the content goes. -/
def refreshData (batch : Batch) (uuid : Uuid) (rel : RelPath) : Flushing Unit := do
  match ← batch.look rel with
  | none => pure ()
  | some held =>
      let stat := held.statFieldsIn rel
      let before ← store
      let unchanged := storedValue before uuid "mfr_size" = valueOf stat "mfr_size" ∧
        storedValue before uuid "mfr_mtime" = valueOf stat "mfr_mtime" ∧
          (valueOf stat "mfr_mtime").isSome
      if unchanged then pure ()
      else
        writeStat uuid ["mfr_size", "mfr_mtime", "mfr_inode"] stat
        clearAbsentConditionalStatFields uuid stat
        contentDerivedFields.forM fun name => call (.clearFieldAs .fileModified uuid name)
        leaveGroup .fileModified uuid

/-- `apply_modify_meta`. -/
def applyModifyMeta (batch : Batch) (rel : RelPath) : Flushing Unit := do
  if ← eligible rel then
    match ← batch.resolve rel with
    | none => pure ()
    | some uuid =>
        match ← batch.look rel with
        | none => pure ()
        | some held =>
            writeStat uuid
              ["mfr_permissions", "mfr_uid", "mfr_gid", "mfr_mtime", "mfr_inode"] held.statFields
            clearAbsentConditionalStatFields uuid held.statFields

/-! ### Creating -/

/-- `ensure_parent_metarecords`, its walk down: the directories above a path, made where they are
missing. -/
def ensureParents (batch : Batch) : Uuid → RelPath → List TreeName → Flushing Uuid
  | parent, _, [] => pure parent
  | parent, above, comp :: rest => do
      let here := above.child comp
      match ← batch.resolve here with
      | some existing => ensureParents batch existing here rest
      | none => do
          let stat := match ← batch.look here with
            | some held => held.statFieldsIn here
            | none => [⟨"mfr_type", .string "dir"⟩]
          let created ← batch.createMetarecord
            (⟨"mfr_path", .treeRef (some parent) comp⟩ :: stat)
          ensureParents batch created here rest

/-- `ensure_parents`: the metarecord of the directory a path is in. -/
def ensureParentMetarecords (batch : Batch) (rel : RelPath) : Flushing Uuid := do
  match ← batch.resolve [] with
  | none => throw (.failed
      (.internal "filesystem root entry missing — was the repository initialised?"))
  | some root => batch.ensureParents root [] rel.parent

/-- `create_record`: a metarecord for a path that is on disk. -/
def createRecord (batch : Batch) (rel : RelPath) : Flushing Unit := do
  match ← batch.look rel with
  | none => pure ()
  | some held => do
      let parent ← batch.ensureParentMetarecords rel
      let name := rel.getLast?.getD ⟨[]⟩
      let _ ← batch.createMetarecord
        (⟨"mfr_path", .treeRef (some parent) name⟩ :: held.statFieldsIn rel)

/-- `create_or_refresh`: whether the path is tracked. -/
def createOrRefresh (batch : Batch) (rel : RelPath) : Flushing Bool := do
  if ← eligible rel then
    match ← batch.resolve rel with
    | some existing => batch.refreshData existing rel
    | none => batch.createRecord rel
    pure true
  else pure false

/-! ### Orphaning -/

variable [Patterns]

/-- `path_written`: the rules are read again where a metarecord one depends on moved. -/
def pathWritten (batch : Batch) (uuid : Uuid) : Flushing Unit := do
  let apply ← get
  if apply.rules.affects uuid then
    let store : KvStore := ⟨apply.writer.tx, apply.writer.log⟩
    set { apply with rules := WatchRules.load store batch.caseInsensitive }

/-- One metarecord of `orphan_subtree`, with the path it had. -/
def orphan (batch : Batch) (held : Uuid × Option String) : Flushing Unit := do
  batch.checkCancelled
  match held.2 with
  | some old => call (.setFieldAs .fileDeleted held.1 "mfr_path_old" (.string old))
  | none => pure ()
  call (.setFieldAs .fileDeleted held.1 "mfr_path" .nothing)
  leaveGroup .fileDeleted held.1

/-- `orphan_subtree`: a metarecord and those under it lose their paths, unless they are too many. -/
def orphanSubtree (batch : Batch) (uuid : Uuid) : Flushing Unit := do
  let descendants ← attempt ((← store).descendants "mfr_path" uuid)
  if 0 < batch.orphanLimit ∧ batch.orphanLimit < descendants.length + 1 then pure ()
  else
    let olds ← (uuid :: descendants).mapM fun node => do
      return (node, ← attempt ((← store).pathOf "mfr_path" node))
    olds.forM batch.orphan
    batch.pathWritten uuid

/-- One child of `orphan_what_is_gone_under`: what to enter, after what there was. -/
def orphanGoneChild (batch : Batch) (dir : Uuid) (above : RelPath)
    (todo : List (Uuid × RelPath)) (child : Uuid) : Flushing (List (Uuid × RelPath)) := do
  batch.checkCancelled
  match (← store).nameUnder "mfr_path" dir child with
  | none => pure todo
  | some name =>
      let path := above.child name
      if ← eligible path then
        match ← batch.look path with
        | some held => pure (if held.kind = .dir then (child, path) :: todo else todo)
        | none => do
            batch.orphanSubtree child
            pure todo
      else pure todo

/-- `orphan_what_is_gone_under`, its loop over the directories to enter. -/
def orphanGone (batch : Batch) : Nat → List (Uuid × RelPath) → Flushing Unit
  | _, [] => pure ()
  | 0, _ :: _ => throw .endless
  | fuel + 1, (dir, above) :: todo => do
      let children ← attempt ((← store).children "mfr_path" dir)
      let todo ← (children.map Prod.fst).foldlM (batch.orphanGoneChild dir above) todo
      orphanGone batch fuel todo

/-- `apply_remove`: the subtree of a path that is gone is orphaned; of a directory made again, what
is gone under it. -/
def applyRemove (batch : Batch) (rel : RelPath) : Flushing Unit := do
  match ← batch.resolve rel with
  | none => pure ()
  | some uuid =>
      if (← batch.look rel).isSome then
        if ← batch.isDir rel then batch.orphanGone batch.fuel [(uuid, rel)]
      else if ← eligible rel then batch.orphanSubtree uuid

/-! ### Departures -/

/-- The stat a metarecord records. -/
def statKeyOf (record : MetaRecord) : Option StatKey :=
  statKey (record.get "mfr_type") (record.get "mfr_size") (record.get "mfr_mtime")

/-- One child of `vanished_entries`. -/
def vanishedEntry (batch : Batch) (dir : RelPath) (uuid : Uuid) (found : List (RelPath × Uuid))
    (child : Uuid) : Flushing (List (RelPath × Uuid)) := do
  match (← store).nameUnder "mfr_path" uuid child with
  | none => pure found
  | some name =>
      let path := dir.child name
      pure (if (← batch.look path).isNone then found ++ [(path, child)] else found)

/-- `vanished_entries`: the direct entries of a moved directory that are not on disk. -/
def vanishedEntries (batch : Batch) (dir : RelPath) : Flushing (List (RelPath × Uuid)) := do
  if ← batch.isDir dir then
    match ← batch.resolve dir with
    | none => pure []
    | some uuid => do
        let children ← attempt ((← store).children "mfr_path" uuid)
        (children.map Prod.fst).foldlM (batch.vanishedEntry dir uuid) []
  else pure []

/-- One departure of `index_departures`. -/
def indexDeparted (batch : Batch) (index : StatKey → List RelPath) (source : RelPath) :
    Flushing (StatKey → List RelPath) := do
  if (← batch.look source).isSome then pure index
  else
    match ← batch.resolve source with
    | none => pure index
    | some uuid =>
        match ((← store).metarecord uuid).bind statKeyOf with
        | none => pure index
        | some key => pure (Function.update index key (index key ++ [source]))

/-- One entry of a moved directory, as `index_departures` takes it in. -/
def indexVanished (index : StatKey → List RelPath) (entry : RelPath × Uuid) :
    Flushing (StatKey → List RelPath) := do
  match ((← store).metarecord entry.2).bind statKeyOf with
  | none => pure index
  | some key =>
      pure (if entry.1 ∈ index key then index
        else Function.update index key (index key ++ [entry.1]))

/-- `index_departures`: the departures that are gone and still tracked, by their stat. -/
def indexDepartures (batch : Batch) : Flushing (StatKey → List RelPath) := do
  match (← get).departedIndex with
  | some index => pure index
  | none => do
      let index ← batch.departed.foldlM batch.indexDeparted fun _ => []
      let index ← batch.moved.foldlM (fun index dir => do
        (← batch.vanishedEntries dir).foldlM indexVanished index) index
      modify fun apply => { apply with departedIndex := some index }
      pure index

/-- One candidate of `find_departed_match`: kept once, while it is tracked. -/
def openDeparture (batch : Batch) (candidates : List RelPath) (source : RelPath) :
    Flushing (List RelPath) := do
  if source ∈ candidates then pure candidates
  else pure (if (← batch.resolve source).isSome then candidates ++ [source] else candidates)

/-- `find_departed_match`: the path an arrival left in the same batch, if any. -/
def findDepartedMatch (batch : Batch) (rel : RelPath) : Flushing (Option RelPath) := do
  if batch.departed = [] ∧ batch.moved = [] then pure none
  else
    match ← batch.look rel with
    | none => pure none
    | some held =>
        let stat := held.statFields
        match statKey (valueOf stat "mfr_type") (valueOf stat "mfr_size")
            (valueOf stat "mfr_mtime") with
        | none => pure none
        | some key => do
            let index ← batch.indexDepartures
            let candidates ← (index key).foldlM batch.openDeparture []
            pure (pickDeparture rel candidates)

/-! ### Moving and arriving -/

/-- `apply_rename`, its source found: what was at the target is orphaned, and the source moves. -/
def moveRecord (batch : Batch) (moving : Uuid) (target : RelPath) : Flushing Unit := do
  if ← eligible target then
    match ← batch.resolve target with
    | some occupant => if occupant ≠ moving then batch.orphanSubtree occupant
    | none => pure ()
    let parent ← batch.ensureParentMetarecords target
    call (.setFieldAs .fileMoved moving "mfr_path"
      (.treeRef (some parent) (target.getLast?.getD ⟨[]⟩)))
    batch.pathWritten moving

/-- `ingest_arrival`: a path is refreshed, paired with a departure or created; whether it is
tracked. -/
def ingestArrival (batch : Batch) (rel : RelPath) : Flushing Bool := do
  if ← eligible rel then
    match ← batch.resolve rel with
    | some existing => batch.refreshData existing rel
    | none =>
        match ← batch.findDepartedMatch rel with
        | none => batch.createRecord rel
        | some source =>
            match ← batch.resolve source with
            | some moving => batch.moveRecord moving rel
            -- A departure that is not tracked any more is not a candidate.
            | none => pure ()
    pure true
  else pure false

/-- One entry of a directory `scan_dir` reads: the directories to enter, after those there were. -/
def scanEntry (batch : Batch) (dir : RelPath) (todo : List RelPath) (name : TreeName) :
    Flushing (List RelPath) := do
  batch.checkCancelled
  let child := dir.child name
  if child ∈ batch.arriving then pure todo
  else if ← batch.ingestArrival child then
    pure (if ← batch.isDir child then child :: todo else todo)
  else pure todo

/-- `scan_dir`, its loop over the directories to enter. -/
def scan (batch : Batch) : Nat → List RelPath → Flushing Unit
  | _, [] => pure ()
  | 0, _ :: _ => throw .endless
  | fuel + 1, dir :: todo => do
      match (batch.disk (← next)).readDir dir with
      | none => scan batch fuel todo
      | some names => do
          let todo ← names.foldlM (batch.scanEntry dir) todo
          scan batch fuel todo

/-- `scan_dir`: what a directory that arrived whole holds is ingested. -/
def scanDir (batch : Batch) (rel : RelPath) : Flushing Unit := batch.scan batch.fuel [rel]

/-- `apply_create`. -/
def applyCreate (batch : Batch) (rel : RelPath) : Flushing Unit := do
  if ← batch.createOrRefresh rel then
    if ← batch.isDir rel then batch.scanDir rel

/-- `apply_arrival`. -/
def applyArrival (batch : Batch) (rel : RelPath) : Flushing Unit := do
  if ← batch.ingestArrival rel then
    if ← batch.isDir rel then batch.scanDir rel

/-- `apply_rename`: a source that is not tracked is an arrival. -/
def applyRename (batch : Batch) (source target : RelPath) : Flushing Unit := do
  match ← batch.resolve source with
  | none => batch.applyArrival target
  | some moving => batch.moveRecord moving target

/-- `apply_modify_data`. -/
def applyModifyData (batch : Batch) (rel : RelPath) : Flushing Unit := do
  if ← eligible rel then
    match ← batch.resolve rel with
    | some uuid => batch.refreshData uuid rel
    | none => batch.applyCreate rel

/-! ### Groups -/

/-- `apply`: one event. -/
def apply (batch : Batch) (event : FsEvent) : Flushing Unit := do
  if batch.frozen event then pure ()
  else
    match event with
    | .create path => batch.applyCreate path
    | .remove path => batch.applyRemove path
    | .renameFrom path => batch.applyRemove path
    | .rename source target => batch.applyRename source target
    | .renameTo path => batch.applyArrival path
    | .modifyData path => batch.applyModifyData path
    | .modifyMeta path => batch.applyModifyMeta path

/-- The events of a group. -/
def applyGroup (batch : Batch) (events : List FsEvent) : Flushing Unit :=
  events.forM fun event => do
    batch.checkCancelled
    batch.apply event

/-- `remove_vanished_from_moved`: what a moved directory lost is removed. -/
def removeVanishedFromMoved (batch : Batch) : Flushing Unit :=
  batch.moved.eraseDups.forM fun dir => do
    (← batch.vanishedEntries dir).forM fun entry => do
      batch.checkCancelled
      batch.apply (.remove entry.1)

/-- One write of a flush: a group of events, or what moved directories lost. -/
def work (batch : Batch) : Option (List FsEvent) → Flushing Unit
  | some events => batch.applyGroup events
  | none => batch.removeVanishedFromMoved

/-- One write of a flush, from its writer to its commit: the rules as the write left them, and the
store. -/
def commitGroup (batch : Batch) (group : Option (List FsEvent)) (rules : WatchRules)
    (retention : Retention) (timestamp : Int64) (store : KvStore) :
    Except Stopped (WatchRules × KvStore) := do
  let reading {α : Type} (outcome : Outcome α) : Except Stopped α :=
    outcome.mapError Stopped.failed
  let writer ← reading (Writer.beginIn store .watcher retention timestamp)
  let ((), apply) ← (batch.work group).run { writer := writer, rules := rules }
  let after ← reading apply.writer.commit
  pure (apply.rules, after)

end Batch

/-! ### Whole batches -/

/-- The writes of a batch, in order: its groups and, where a directory was moved, what it lost. -/
def writesOf (events : List FsEvent) : List (Option (List FsEvent)) :=
  (group events).map (fun held => some held.2) ++
    if events.any fun event => event matches .rename _ _ then [none] else []

/-- The paths renamed away with no arrival. -/
def departedOf (events : List FsEvent) : List RelPath :=
  events.filterMap fun event =>
    match event with
    | .renameFrom path => some path
    | _ => none

/-- Where the whole moves land. -/
def arrivingOf (events : List FsEvent) : List RelPath :=
  events.filterMap fun event =>
    match event with
    | .rename _ target => some target
    | _ => none

/-- Both sides of the whole moves. -/
def movedOf (events : List FsEvent) : List RelPath :=
  events.flatMap fun event =>
    match event with
    | .rename source target => [source, target]
    | _ => []

end Metafolder
