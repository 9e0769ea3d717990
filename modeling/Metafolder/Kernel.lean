import Mathlib.Data.List.Basic
import Metafolder.WatchdPaths

/-!
# The kernel's queue

The filesystems as a table of objects, each with a handle that never changes, and the queue of the
events told of them: unread events are merged, a full queue drops what comes, and an ignore mark
silences a directory.
-/

namespace Metafolder
namespace Watchd

/-- The bits of an event's mask. -/
structure Mask where
  create : Bool := false
  delete : Bool := false
  deleteSelf : Bool := false
  rename : Bool := false
  movedFrom : Bool := false
  movedTo : Bool := false
  modify : Bool := false
  closeWrite : Bool := false
  attrib : Bool := false
  qOverflow : Bool := false
  onDir : Bool := false
  deriving DecidableEq, Repr

namespace Mask

/-- The bits of either mask. -/
def or (one other : Mask) : Mask where
  create := one.create || other.create
  delete := one.delete || other.delete
  deleteSelf := one.deleteSelf || other.deleteSelf
  rename := one.rename || other.rename
  movedFrom := one.movedFrom || other.movedFrom
  movedTo := one.movedTo || other.movedTo
  modify := one.modify || other.modify
  closeWrite := one.closeWrite || other.closeWrite
  attrib := one.attrib || other.attrib
  qOverflow := one.qOverflow || other.qOverflow
  onDir := one.onDir || other.onDir

/-- Whether the mask has an event an ignore mark silences. -/
def ignorable (mask : Mask) : Bool :=
  mask.create || mask.delete || mask.modify || mask.closeWrite || mask.attrib

/-- The mask without the events an ignore mark silences. -/
def silenced (mask : Mask) : Mask :=
  { mask with create := false, delete := false, modify := false, closeWrite := false, attrib := false }

/-- Whether the mask has an event at all. -/
def any (mask : Mask) : Bool :=
  mask.ignorable || mask.deleteSelf || mask.rename || mask.movedFrom || mask.movedTo ||
    mask.qOverflow

end Mask

/-- A handle: what an object is known by, as long as it lives. -/
abbrev Handle := Nat

/-- One event, its records named: the object itself, the directory it is an entry of, and both
sides of a move.  The name `.` names the directory itself. -/
structure RawEvent where
  mask : Mask
  fid : Option Handle := none
  parent : Option (Handle × Bytes) := none
  old : Option (Handle × Bytes) := none
  new : Option (Handle × Bytes) := none
  deriving DecidableEq, Repr

/-- `is_directory_move`. -/
def RawEvent.isDirectoryMove (raw : RawEvent) : Bool :=
  raw.mask.onDir && (raw.mask.rename || raw.mask.movedFrom || raw.mask.movedTo)

/-- An object: the filesystem it is on, and where on it until it is gone. -/
structure Object where
  fs : Nat
  at_ : Option (List Bytes)
  dir : Bool
  deriving DecidableEq, Repr

/-- The filesystems and the group's queue; a filesystem that is marked is reached at a place.  The
last two fields record which events were dropped for a full queue, and of which directories an ignore
mark could not be lifted, since the marks were placed. -/
structure Kernel where
  objects : List Object
  base : Nat → Option PathBuf
  maxEvents : Nat
  queue : List RawEvent := []
  ignored : List Handle := []
  dropped : List RawEvent := []
  missed : List Handle := []

/-- `MERGE_WINDOW`. -/
def mergeWindow : Nat := 128

/-- Whether two events are one when neither is read. -/
def RawEvent.sameKind (held new : RawEvent) : Bool :=
  !held.mask.qOverflow && held.mask.onDir == new.mask.onDir && held.mask.rename == new.mask.rename &&
    decide (held.fid = new.fid ∧ held.parent = new.parent ∧ held.old = new.old ∧
      held.new = new.new)

/-- The queue, newest first, with an event merged into one of the newest. -/
def mergeInto (new : RawEvent) : Nat → List RawEvent → Option (List RawEvent)
  | 0, _ => none
  | _ + 1, [] => none
  | window + 1, held :: rest =>
      if held.sameKind new then some ({ held with mask := held.mask.or new.mask } :: rest)
      else (mergeInto new window rest).map (held :: ·)

namespace Kernel

/-- Whether a filesystem is marked. -/
def marked (kernel : Kernel) (fs : Nat) : Bool := (kernel.base fs).isSome

/-- `path_of`: where an object is now. -/
def pathOf (kernel : Kernel) (handle : Handle) : Option PathBuf := do
  let object ← kernel.objects[handle]?
  let names ← object.at_
  let base ← kernel.base object.fs
  some (base ++ names.map .normal)

/-- Whether an object lives. -/
def alive (kernel : Kernel) (handle : Handle) : Bool :=
  (kernel.objects[handle]?.bind Object.at_).isSome

/-- Whether an ignore mark silences an event: its directory holds one. -/
def silences (kernel : Kernel) (raw : RawEvent) : Bool :=
  raw.parent.any fun parent => kernel.ignored.contains parent.1

/-- The queue of an overflow. -/
def overflowEvent : RawEvent := { mask := { qOverflow := true } }

/-- `push`: an event of a filesystem is queued. -/
def push (kernel : Kernel) (fs : Nat) (raw : RawEvent) : Kernel :=
  if !kernel.marked fs then kernel
  else
    let told := if kernel.silences raw then { raw with mask := raw.mask.silenced } else raw
    if kernel.silences raw && !told.mask.any then kernel
    else if told.mask.qOverflow || kernel.maxEvents ≤ kernel.queue.length then
      { kernel with
        dropped := told :: kernel.dropped
        queue :=
          if kernel.queue.any fun held => held.mask.qOverflow then kernel.queue
          else kernel.queue ++ [overflowEvent] }
    else
      { kernel with
        queue :=
          match mergeInto told mergeWindow kernel.queue.reverse with
          | some merged => merged.reverse
          | none => kernel.queue ++ [told] }

/-- The object at a place. -/
def objectAt (kernel : Kernel) (fs : Nat) (names : List Bytes) : Option Handle :=
  kernel.objects.findIdx? fun object => object.fs == fs && object.at_ == some names

/-- The name `.`. -/
def itself : Bytes := [46]

/-- `entry`: the directory an object is in, and its name there. -/
def entry (kernel : Kernel) (object : Object) : Option (Handle × Bytes) := do
  let names ← object.at_
  let name ← names.getLast?
  let parent ← kernel.objectAt object.fs names.dropLast
  some (parent, name)

/-- `about`: a directory as itself, a file by its name and its own handle. -/
def about (kernel : Kernel) (handle : Handle) (object : Object) (mask : Mask) : RawEvent :=
  if object.dir then { mask := { mask with onDir := true }, parent := some (handle, itself) }
  else { mask := mask, parent := kernel.entry object, fid := some handle }

/-- `dirent`: an entry, and the object it names. -/
def dirent (kernel : Kernel) (handle : Handle) (object : Object) (mask : Mask) : RawEvent :=
  { mask := { mask with onDir := object.dir }, parent := kernel.entry object, fid := some handle }

/-- `self_gone`: the object's own end. -/
def selfGone (kernel : Kernel) (handle : Handle) (object : Object) : Kernel :=
  if object.dir then kernel.push object.fs (kernel.about handle object { deleteSelf := true })
  else
    (kernel.push object.fs { mask := { attrib := true }, fid := some handle }).push object.fs
      { mask := { deleteSelf := true }, fid := some handle }

/-- `kill`: the object is gone, and everything under it. -/
def kill (kernel : Kernel) (fs : Nat) (names : List Bytes) : Kernel :=
  { kernel with
    objects := kernel.objects.map fun object =>
      if object.fs = fs ∧ object.at_.any names.isPrefixOf then { object with at_ := none }
      else object }

/-- Where an object is once what was at a place is at another. -/
def relocate (fs : Nat) (source target : List Bytes) (object : Object) : Object :=
  match object.at_ with
  | some names =>
      if object.fs = fs ∧ source.isPrefixOf names then
        { object with at_ := some (target ++ names.drop source.length) }
      else object
  | none => object

/-- Everything at and under a place is moved; a file has nothing under it. -/
def move (kernel : Kernel) (handle : Handle) (object : Object) (source target : List Bytes) :
    Kernel :=
  { kernel with
    objects :=
      if object.dir then kernel.objects.map (relocate object.fs source target)
      else kernel.objects.set handle { object with at_ := some target } }

/-- Whether nothing is under a place. -/
def empty (kernel : Kernel) (fs : Nat) (names : List Bytes) : Bool :=
  kernel.objects.all fun object =>
    !(object.fs == fs && object.at_.any fun other => names.isPrefixOf other && other != names)

end Kernel

/-- An operation on the filesystems. -/
inductive Op where
  /-- An object is made in a directory. -/
  | create (parent : Handle) (name : Bytes) (dir : Bool)
  /-- A file is opened for writing, some data written or none, and closed. -/
  | write (handle : Handle) (some_data : Bool)
  /-- Attributes change. -/
  | attrib (handle : Handle)
  /-- A file, or an empty directory, is removed. -/
  | remove (handle : Handle)
  /-- An object is moved into a directory, in place of what has the name there. -/
  | rename (handle : Handle) (parent : Handle) (name : Bytes)

namespace Kernel

/-- A directory, and where it is. -/
def directory (kernel : Kernel) (handle : Handle) : Option (Nat × List Bytes) := do
  let object ← kernel.objects[handle]?
  let names ← object.at_
  if object.dir then some (object.fs, names) else none

def create (kernel : Kernel) (parent : Handle) (name : Bytes) (dir : Bool) : Option Kernel := do
  let (fs, names) ← kernel.directory parent
  let made : Object := ⟨fs, some (names ++ [name]), dir⟩
  if (kernel.objectAt fs (names ++ [name])).isSome then none
  else
    let added := { kernel with objects := kernel.objects ++ [made] }
    some (added.push fs (added.dirent kernel.objects.length made { create := true }))

def write (kernel : Kernel) (handle : Handle) (some_data : Bool) : Option Kernel := do
  let object ← kernel.objects[handle]?
  if object.dir || object.at_.isNone then none
  else
    let written :=
      if some_data then kernel.push object.fs (kernel.about handle object { modify := true })
      else kernel
    some (written.push object.fs (kernel.about handle object { closeWrite := true }))

def attrib (kernel : Kernel) (handle : Handle) : Option Kernel := do
  let object ← kernel.objects[handle]?
  if object.at_.isNone then none
  else some (kernel.push object.fs (kernel.about handle object { attrib := true }))

/-- `deleted`: the object's own end, then its name's. -/
def remove (kernel : Kernel) (handle : Handle) : Option Kernel := do
  let object ← kernel.objects[handle]?
  let names ← object.at_
  if names = [] || !kernel.empty object.fs names then none
  else
    let told := (kernel.selfGone handle object).push object.fs
      (kernel.dirent handle object { delete := true })
    some (told.kill object.fs names)

/-- Whether a move may replace what has the name. -/
def replaceable (kernel : Kernel) (object victim : Object) (target : List Bytes) : Bool :=
  object.dir == victim.dir && (!victim.dir || kernel.empty object.fs target)

/-- What has the name goes as the move is told. -/
def displace (kernel : Kernel) (fs : Nat) (target : List Bytes) : Option (Handle × Object) → Kernel
  | some (victim, gone) => (kernel.selfGone victim gone).kill fs target
  | none => kernel

def rename (kernel : Kernel) (handle parent : Handle) (name : Bytes) : Option Kernel := do
  let object ← kernel.objects[handle]?
  let source ← object.at_
  let (fs, names) ← kernel.directory parent
  let target := names ++ [name]
  let victim := (kernel.objectAt fs target).bind fun victim =>
    kernel.objects[victim]?.map fun gone => (victim, gone)
  if source = [] || fs ≠ object.fs || source.isPrefixOf names ||
      victim.any (fun held => !kernel.replaceable object held.2 target) then none
  else if victim.any fun held => held.1 == handle then some kernel
  else
    let told := kernel.push fs
      { mask := { rename := true, onDir := object.dir }
        old := kernel.entry object
        new := some (parent, name)
        fid := some handle }
    some ((told.displace fs target victim).move handle object source target)

/-- An operation that may be refused. -/
def perform (kernel : Kernel) : Op → Option Kernel
  | .create parent name dir => kernel.create parent name dir
  | .write handle some_data => kernel.write handle some_data
  | .attrib handle => kernel.attrib handle
  | .remove handle => kernel.remove handle
  | .rename handle parent name => kernel.rename handle parent name

/-- An operation; one refused changes nothing. -/
def does (kernel : Kernel) (op : Op) : Kernel :=
  (kernel.perform op).getD kernel

end Kernel

end Watchd
end Metafolder
