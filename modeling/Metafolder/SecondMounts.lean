import Metafolder.MountViews
import Metafolder.WatchdPaths
import Mathlib.Data.List.Nodup
import Mathlib.Data.List.Sort

/-!
# Second mounts

The mounts of the kernel's table under a repository's root are taken in the order they were made.
One that shows what the root or an earlier mount reaches already is left out, with what is beneath
it.
-/

namespace Metafolder
namespace Mounts

open MountViews Watchd

deriving instance Ord for Component

/-- `MountInfoEntry`: what of a filesystem is mounted, and the line it is on. -/
structure MountInfoEntry where
  major : Nat
  minor : Nat
  root : PathBuf
  order : Nat
deriving DecidableEq

/-- The device of a mount. -/
def MountInfoEntry.dev (entry : MountInfoEntry) : Nat × Nat := (entry.major, entry.minor)

/-- `MountTable`: the entries by their points, as the kernel writes them. -/
structure MountTable where
  byPath : List (PathBuf × MountInfoEntry)
  /-- A point has the last of the lines that name it. -/
  points : (byPath.map Prod.fst).Nodup
  /-- Each line has its place. -/
  orders : (byPath.map fun mount => mount.2.order).Nodup
  absolute : ∀ mount ∈ byPath, mount.1.isAbsolute

/-- `by_path.get_key_value`. -/
def MountTable.find (table : MountTable) (path : PathBuf) : Option (PathBuf × MountInfoEntry) :=
  table.byPath.find? fun mount => mount.1 = path

/-- The nearest mount at or above a path. -/
def MountTable.above (table : MountTable) (path : PathBuf) : Option (PathBuf × MountInfoEntry) :=
  path.ancestors.findSome? table.find

/-- The loop's state: the parts reached, and the second mounts. -/
structure Visited where
  reached : List ((Nat × Nat) × PathBuf)
  out : List PathBuf := []

/-- One mount met by the loop. -/
def Visited.visit (visited : Visited) (mount : PathBuf × MountInfoEntry) : Visited :=
  if visited.out.any mount.1.startsWith then visited
  else if visited.reached.any fun part =>
      part.1 = mount.2.dev ∧ mount.2.root.startsWith part.2 then
    { visited with out := visited.out ++ [mount.1] }
  else { visited with reached := visited.reached ++ [(mount.2.dev, mount.2.root)] }

/-- The mounts strictly under a root, in the order they were made. -/
def MountTable.under (table : MountTable) (root : PathBuf) : List (PathBuf × MountInfoEntry) :=
  (table.byPath.filter fun mount => mount.1.startsWith root ∧ mount.1 ≠ root).insertionSort
    fun first second => first.2.order ≤ second.2.order

/-- `second_mounts_under`. -/
def MountTable.secondMountsUnder (table : MountTable) (root : PathBuf) : List PathBuf :=
  match table.above root with
  | none => []
  | some (point, own) =>
      let start : Visited := ⟨[(own.dev, own.root ++ root.drop point.length)], []⟩
      ((table.under root).foldl Visited.visit start).out.insertionSort fun first second =>
        (compare first second).isLE

end Mounts
end Metafolder
