import Metafolder.MountViews
import Metafolder.WatchdPaths
import Mathlib.Data.List.Dedup

/-!
# Events told at every mount

A filesystem mounted at several points shows each of its files at several paths, and an event names
one of them.  The broker tells it again at the other mounts of the device whose directory is above
the file.  That is where the file is seen exactly when none of these places is hidden by another
mount.
-/

namespace Metafolder
namespace Watchd

open MountViews

/-- `Event::with_path`; a move names two paths and is never asked. -/
def Event.withPath : Event → PathBuf → Event
  | create _, path => create path
  | remove _, path => remove path
  | renameFrom _, path => renameFrom path
  | renameTo _, path => renameTo path
  | modifyData _, path => modifyData path
  | modifyMeta _, path => modifyMeta path
  | rename source destination, _ => rename source destination

/-- `MountEntry`: a line of the mount table. -/
structure MountEntry where
  dev : Nat
  point : PathBuf
  root : PathBuf
  /-- A line whose point is not a path from the root is skipped. -/
  pointed : point.isAbsolute
  /-- The kernel names a directory of the filesystem. -/
  rooted : root ≠ []
deriving DecidableEq

/-- `strip_prefix`. -/
def PathBuf.stripPrefix (path base : PathBuf) : Option PathBuf :=
  if path.startsWith base then some (path.drop base.length) else none

/-- `join`: what is left of a path below another is relative. -/
def joinBelow (base rel : PathBuf) : PathBuf := if rel = [] then base else base ++ rel

/-- `Aliases`. -/
structure Aliases where
  table : List MountEntry
  /-- Whether a device is mounted twice. -/
  shared : Bool

namespace Aliases

/-- `Aliases::new`. -/
def new (table : List MountEntry) : Aliases where
  table := table
  shared := table.zipIdx.any fun entry => (table.take entry.2).any fun other => other.dev = entry.1.dev

variable (aliases : Aliases)

/-- `mount_of`, with the mount itself: `max_by_key` keeps the last of equal ones. -/
def mountOf (path : PathBuf) : Option (MountEntry × Nat) :=
  lastMax (fun entry => entry.1.point.length)
    (aliases.table.zipIdx.filter fun entry => path.startsWith entry.1.point)

/-- `elsewhere`. -/
def elsewhere (path : PathBuf) : List (Nat × PathBuf) :=
  match aliases.mountOf path with
  | none => []
  | some own =>
      match path.stripPrefix own.1.point with
      | none => []
      | some rel =>
          (aliases.table.zipIdx.filter fun entry =>
            entry.2 ≠ own.2 ∧ entry.1.dev = own.1.dev).filterMap fun entry =>
              ((joinBelow own.1.root rel).stripPrefix entry.1.root).map fun below =>
                (entry.2, joinBelow entry.1.point below)

/-- One side of a move at a mount. -/
def sideAt (side : List (Nat × PathBuf)) (mount : Nat) : Option PathBuf :=
  (side.find? fun place => place.1 = mount).map Prod.snd

/-- A move at a mount that shows some of it. -/
def moveAt (source destination : List (Nat × PathBuf)) (mount : Nat) : Option Event :=
  match sideAt source mount, sideAt destination mount with
  | some left, some entered => some (.rename left entered)
  | some path, none => some (.renameFrom path)
  | none, some path => some (.renameTo path)
  | none, none => none

/-- An event at the other mounts; of sorted mounts `dedup` leaves one each. -/
def more (event : Event) : List Event :=
  match event with
  | .rename source destination =>
      let left := aliases.elsewhere source
      let entered := aliases.elsewhere destination
      ((left ++ entered).map Prod.fst).mergeSort.dedup.filterMap (moveAt left entered)
  | .create path | .remove path | .renameFrom path | .renameTo path | .modifyData path
  | .modifyMeta path => (aliases.elsewhere path).map fun place => event.withPath place.2

/-- `expand`. -/
def expand (events : List Event) : List Event :=
  if !aliases.shared then events else events.flatMap fun event => event :: aliases.more event

end Aliases

end Watchd
end Metafolder
