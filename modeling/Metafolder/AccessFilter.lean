import Mathlib.Data.UInt
import Metafolder.WatchdPaths

/-!
# What a subscriber may see

The broker runs with privileges no subscriber has.  It answers a subscriber by the owners and
modes of directories, and walks a path looking entries up only where the subscriber could.
-/

namespace Metafolder
namespace Watchd

/-- The owner, the group and the mode bits of a directory. -/
structure DirMeta where
  uid : UInt32
  gid : UInt32
  mode : UInt32
  deriving DecidableEq, Repr

/-- One directory entry, a link not followed. -/
inductive Entry where
  | dir (owner : DirMeta)
  | link (target : PathBuf)
  | other
  deriving DecidableEq, Repr

/-- What the filter asks of the filesystem. -/
structure CredSource where
  dirMeta : PathBuf → Option DirMeta
  entry : PathBuf → Option Entry

/-- Who is asking, with every group it is in. -/
structure Subscriber where
  uid : UInt32
  gid : UInt32
  groups : List UInt32
  deriving DecidableEq, Repr

/-- A clock's reading, in milliseconds. -/
abbrev Instant := Nat

/-- The filter: the owners and modes it has asked for, kept for `ttl`.  `clock` is what the clock
answers each time it is read, and `ticks` how often that was. -/
structure AccessFilter where
  creds : CredSource
  cache : List (PathBuf × Option DirMeta × Instant)
  ttl : Nat
  clock : Nat → Instant
  ticks : Nat

/-- Links followed in one resolution before giving up. -/
def maxLinks : Nat := 40

/-- A cache of this many entries is dropped whole. -/
def cacheMax : Nat := 8192

/-- Whether the subscriber may traverse a directory, and whether it may list it. -/
def rightsIn (subscriber : Subscriber) : Option DirMeta → Bool × Bool
  | some owner =>
      let shift : UInt32 :=
        if subscriber.uid = owner.uid then 6
        else if subscriber.gid = owner.gid ∨ owner.gid ∈ subscriber.groups then 3
        else 0
      let bits := owner.mode >>> shift &&& 7
      (bits &&& 1 ≠ 0, bits &&& 4 ≠ 0)
  | none => (false, false)

/-- What is left to walk of a path: its names and its `..`, without `/` and `.`. -/
inductive Pending where
  | up
  | name (name : Bytes)
  deriving DecidableEq, Repr

/-- The steps a path spells. -/
def pushAll (path : PathBuf) : List Pending :=
  path.filterMap fun
    | .normal name => some (.name name)
    | .parentDir => some .up
    | .rootDir | .curDir => none

namespace AccessFilter

/-- A filter that has asked for nothing yet, keeping what it learns for five seconds. -/
def new (creds : CredSource) (clock : Nat → Instant) : AccessFilter where
  creds := creds
  cache := []
  ttl := 5000
  clock := clock
  ticks := 0

/-- What the cache says of a directory, with the time it was asked. -/
def cached (filter : AccessFilter) (dir : PathBuf) : Option (Option DirMeta × Instant) :=
  (filter.cache.find? (·.1 = dir)).map (·.2)

/-- Read the clock. -/
def now : StateM AccessFilter Instant := do
  let filter ← get
  set { filter with ticks := filter.ticks + 1 }
  return filter.clock filter.ticks

/-- Ask the filesystem about a directory, and keep the answer. -/
def ask (dir : PathBuf) : StateM AccessFilter (Option DirMeta) := do
  let owner := (← get).creds.dirMeta dir
  let at_ ← now
  modify fun filter =>
    let kept := if cacheMax ≤ filter.cache.length then [] else filter.cache
    { filter with cache := (dir, owner, at_) :: kept.filter (·.1 ≠ dir) }
  return owner

/-- The rights of a subscriber on a directory: to traverse it, to list it. -/
def usable (subscriber : Subscriber) (dir : PathBuf) : StateM AccessFilter (Bool × Bool) := do
  match (← get).cached dir with
  | some (owner, asked) =>
      if (← now) - asked < (← get).ttl then return rightsIn subscriber owner
      return rightsIn subscriber (← ask dir)
  | none => return rightsIn subscriber (← ask dir)

/-- The loop of `resolve`: what is resolved so far, what is left to walk and the links followed. -/
def resolveFrom (subscriber : Subscriber) (resolved : PathBuf) (links : Nat) :
    List Pending → StateM AccessFilter (Option PathBuf)
  | [] => return some resolved
  | step :: pending => do
      -- Looking anything up, `..` included, takes the right to traverse.
      if !(← usable subscriber resolved).1 then return none
      match step with
      | .up => resolveFrom subscriber resolved.pop links pending
      | .name name =>
          let next := resolved.join name
          match (← get).creds.entry next with
          | none => return none
          | some .other => return none
          | some (.dir _) => resolveFrom subscriber next links pending
          | some (.link target) =>
              if maxLinks < links + 1 then return none
              let start := if target.isAbsolute then PathBuf.slash else resolved
              resolveFrom subscriber start (links + 1) (pushAll target ++ pending)
  termination_by pending => (maxLinks - links, pending.length)

/-- The directory a path leads to, found with the subscriber's rights. -/
def resolve (subscriber : Subscriber) (path : PathBuf) :
    StateM AccessFilter (Option PathBuf) :=
  if path.isAbsolute then resolveFrom subscriber PathBuf.slash 0 (pushAll path)
  else return none

/-- The loop of `walk` over the directories from `/` down. -/
def walkChain (subscriber : Subscriber) : List PathBuf → StateM AccessFilter Bool
  | [] => return true
  | dir :: below => do
      let (traverse, list) ← usable subscriber dir
      if !traverse then return false
      if below.isEmpty && !list then return false
      walkChain subscriber below

/-- Whether the subscriber can reach a directory and list it. -/
def walk (subscriber : Subscriber) (dir : PathBuf) : StateM AccessFilter Bool :=
  if subscriber.uid = 0 then return true
  else if !dir.isAbsolute then return false
  else walkChain subscriber dir.ancestors.reverse

/-- May the subscriber watch a root? -/
def mayWatch (subscriber : Subscriber) (root : PathBuf) : StateM AccessFilter Bool :=
  walk subscriber root

/-- May a subscriber that watches `root` see the entry at `path`? -/
def maySee (subscriber : Subscriber) (root path : PathBuf) : StateM AccessFilter Bool :=
  match path.parent with
  | none => return false
  | some parent => do
      if !parent.startsWith root then return false
      if !(← walk subscriber parent) then return false
      if subscriber.uid = 0 then return true
      (parent.ancestors.tail.takeWhile (·.startsWith root)).allM fun dir =>
        return (← usable subscriber dir).2

/-- The innermost of the roots that hold a path; the last of them, should two be as long. -/
def innermost (roots : List PathBuf) (path : PathBuf) : Option PathBuf :=
  (roots.filter (path.startsWith ·)).foldl
    (fun best root =>
      match best with
      | none => some root
      | some held => if held.length ≤ root.length then some root else some held)
    none

/-- Whether an event may name a path to a subscriber with these roots. -/
def visible (subscriber : Subscriber) (roots : List PathBuf) (path : PathBuf) :
    StateM AccessFilter Bool :=
  match innermost roots path with
  | none => return false
  | some root => maySee subscriber root path

/-- What the broker sends a subscriber of an event. -/
def adapted (subscriber : Subscriber) (roots : List PathBuf) (event : Event) :
    StateM AccessFilter (Option Event) :=
  event.adapt roots (visible subscriber roots)

end AccessFilter

end Watchd
end Metafolder
