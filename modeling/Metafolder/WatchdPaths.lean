import Mathlib.Data.List.Infix
import Metafolder.ByteCode

/-!
# Paths and events of the broker

Paths as their components, the events the broker sends of them, and the rewriting of an event for
one subscriber.
-/

namespace Metafolder
namespace Watchd

/-- One component of a path.  Only the first can be the filesystem root or `.`. -/
inductive Component where
  | rootDir
  | curDir
  | parentDir
  | normal (name : Bytes)
  deriving DecidableEq, Repr

/-- A path, which equality, prefixes and parents all read by components. -/
abbrev PathBuf := List Component

instance PathBuf.lawfulBEq : LawfulBEq PathBuf := inferInstance

namespace PathBuf

/-- The path `/`. -/
def slash : PathBuf := [.rootDir]

def isAbsolute (path : PathBuf) : Bool :=
  path.head? == some .rootDir

def startsWith (path base : PathBuf) : Bool :=
  base.isPrefixOf path

def join (path : PathBuf) (name : Bytes) : PathBuf :=
  path ++ [.normal name]

/-- The path without its last component; neither `/` nor the empty path has one. -/
def parent (path : PathBuf) : Option PathBuf :=
  match path.getLast? with
  | none => none
  | some .rootDir => none
  | some _ => some path.dropLast

/-- `PathBuf::pop`: the parent where there is one. -/
def pop (path : PathBuf) : PathBuf :=
  path.parent.getD path

/-- The path, its parent, and so on up: to `/`, or to the empty path when it is relative. -/
def ancestors (path : PathBuf) : List PathBuf :=
  (path.inits.filter fun above => above ≠ [] || !path.isAbsolute).reverse

end PathBuf

/-- What the broker saw. -/
inductive Event where
  | create (path : PathBuf)
  | remove (path : PathBuf)
  | rename (source destination : PathBuf)
  | renameFrom (path : PathBuf)
  | renameTo (path : PathBuf)
  | modifyData (path : PathBuf)
  | modifyMeta (path : PathBuf)
  deriving DecidableEq, Repr

namespace Event

/-- Every path the event names. -/
def paths : Event → List PathBuf
  | create path | remove path | renameFrom path | renameTo path | modifyData path
  | modifyMeta path => [path]
  | rename source destination => [source, destination]

variable {m : Type → Type} [Monad m]

/-- Whether a path is under one of the roots and visible: the cheap test first. -/
def inScope (roots : List PathBuf) (visible : PathBuf → m Bool) (path : PathBuf) : m Bool :=
  if roots.any path.startsWith then visible path else pure false

/-- The event as one subscriber may have it: a move with one side out of scope is told as the
other side alone. -/
def adapt (event : Event) (roots : List PathBuf) (visible : PathBuf → m Bool) :
    m (Option Event) :=
  match event with
  | rename source destination => do
      let left ← inScope roots visible source
      let entered ← inScope roots visible destination
      pure <| match left, entered with
        | true, true => some (rename source destination)
        | true, false => some (renameFrom source)
        | false, true => some (renameTo destination)
        | false, false => none
  | create path | remove path | renameFrom path | renameTo path | modifyData path
  | modifyMeta path => do
      return if ← inScope roots visible path then some event else none

end Event

end Watchd
end Metafolder
