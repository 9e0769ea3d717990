import Metafolder.Eligibility

/-!
# Filesystem events and their batches

What the watcher buffers, and what a flush makes of it before it writes: split renames are fused,
redundant sequences are compacted, and the events are grouped into writes of one kind each.
-/

namespace Metafolder

/-! ### Paths -/

namespace RelPath

/-- `child`. -/
def child (rel : RelPath) (name : TreeName) : RelPath := rel ++ [name]

/-- `parent`: the root is its own. -/
def parent (rel : RelPath) : RelPath := rel.dropLast

/-- `display`. -/
def display (rel : RelPath) : String := displayPrefix rel rel.length

/-- A path and those above it, the root last. -/
def upward (rel : RelPath) : List RelPath := (List.range (rel.length + 1)).reverse.map rel.take

end RelPath

/-! ### Events -/

/-- `FsEvent`: what happened to the filesystem. -/
inductive FsEvent
  /-- An entry was created. -/
  | create (path : RelPath)
  /-- An entry was removed. -/
  | remove (path : RelPath)
  /-- An entry was moved, both its paths inside the repository. -/
  | rename (source target : RelPath)
  /-- An entry left. -/
  | renameFrom (path : RelPath)
  /-- An entry arrived. -/
  | renameTo (path : RelPath)
  /-- The content of an entry changed. -/
  | modifyData (path : RelPath)
  /-- The attributes of an entry changed. -/
  | modifyMeta (path : RelPath)
deriving DecidableEq

/-- An event of the buffer, with the cookie that pairs the halves of a rename. -/
abbrev Queued : Type := FsEvent × Option Int64

/-- `event_paths`. -/
def FsEvent.paths : FsEvent → List RelPath
  | create path => [path]
  | remove path => [path]
  | renameFrom path => [path]
  | renameTo path => [path]
  | modifyData path => [path]
  | modifyMeta path => [path]
  | rename source target => [source, target]

/-! ### Fusing renames -/

/-- One slot of `correlate_renames`: a departure waits for its arrival, and an arrival takes the
latest departure that waits under its cookie. -/
def correlateSlot (held : List (Option Queued) × (Int64 → List Nat)) (i : Nat) :
    List (Option Queued) × (Int64 → List Nat) :=
  match (held.1[i]?).join with
  | some (.renameFrom _, some cookie) =>
      (held.1, Function.update held.2 cookie (i :: held.2 cookie))
  | some (.renameTo target, some cookie) =>
      match held.2 cookie with
      | [] => held
      | j :: waiting =>
          match (held.1[j]?).join with
          | some (.renameFrom source, _) =>
              ((held.1.set j none).set i (some (.rename source target, none)),
                Function.update held.2 cookie waiting)
          | _ => held
  | _ => held

/-- `correlate_renames`: the halves of a rename under one cookie are fused. -/
def correlateRenames (events : List Queued) : List FsEvent :=
  let (slots, _) := (List.range events.length).foldl correlateSlot (events.map some, fun _ => [])
  slots.filterMap fun slot => slot.map Prod.fst

/-! ### Compaction -/

/-- The places of the live events that name a path in one role. -/
abbrev PathIndex : Type := RelPath → List Nat

namespace PathIndex

/-- `last`: the latest place. -/
def last (index : PathIndex) (path : RelPath) : Option Nat := (index path).max?

/-- `insert`. -/
def insert (index : PathIndex) (path : RelPath) (i : Nat) : PathIndex :=
  Function.update index path (i :: (index path).filter (· ≠ i))

/-- `unregister`. -/
def unregister (index : PathIndex) (path : RelPath) (i : Nat) : PathIndex :=
  Function.update index path ((index path).filter (· ≠ i))

/-- `any`. -/
def any (index : PathIndex) (path : RelPath) : Bool := !(index path).isEmpty

end PathIndex

/-- A compaction in progress: the events kept, and where each role names each path. -/
structure Compaction where
  /-- The events, those dropped left empty. -/
  out : List (Option FsEvent) := []
  /-- Creations. -/
  create : PathIndex := fun _ => []
  /-- Departures. -/
  renameFrom : PathIndex := fun _ => []
  /-- Arrivals. -/
  renameTo : PathIndex := fun _ => []
  /-- Renames, by target. -/
  renameByTo : PathIndex := fun _ => []
  /-- Renames, by source. -/
  renameByFrom : PathIndex := fun _ => []
  /-- Changes of content. -/
  modifyData : PathIndex := fun _ => []
  /-- Changes of attributes. -/
  modifyMeta : PathIndex := fun _ => []

namespace Compaction

/-- An event is kept as it is. -/
def push (held : Compaction) (event : FsEvent) : Compaction :=
  { held with out := held.out ++ [some event] }

/-- The one-sided halves of a rename are absorbed by the whole. -/
def absorb (held : Compaction) (source target : RelPath) : Compaction :=
  let held := match held.renameFrom.last source with
    | some i =>
        { held with out := held.out.set i none, renameFrom := held.renameFrom.unregister source i }
    | none => held
  match held.renameTo.last target with
  | some i =>
      { held with out := held.out.set i none, renameTo := held.renameTo.unregister target i }
  | none => held

/-- A rename, its halves absorbed: it renames the entry created, or prolongs the rename that put it
there, unless what left its target has not been moved yet. -/
def rename (held : Compaction) (source target : RelPath) : Compaction :=
  match held.create.last source with
  | some i =>
      { held with
        out := held.out.set i (some (.create target))
        create := (held.create.unregister source i).insert target i }
  | none =>
      let kept : Compaction :=
        { held with
          renameByTo := held.renameByTo.insert target held.out.length
          renameByFrom := held.renameByFrom.insert source held.out.length
          out := held.out ++ [some (.rename source target)] }
      match (held.renameByTo.last source).filter fun i =>
          (held.renameByFrom.last target).all (· ≤ i) with
      | none => kept
      | some i =>
          match (held.out[i]?).join with
          | some (.rename first _) =>
              { held with
                out := held.out.set i (some (.rename first target))
                renameByTo := (held.renameByTo.unregister source i).insert target i }
          | _ => kept

/-- One event of the batch. -/
def step (held : Compaction) : FsEvent → Compaction
  | .remove path =>
      match held.create.last path with
      | some i =>
          { held with out := held.out.set i none, create := held.create.unregister path i }
      | none => held.push (.remove path)
  | .rename source target => (held.absorb source target).rename source target
  | .modifyData path =>
      if held.create.any path || held.modifyData.any path then held
      else { held with modifyData := held.modifyData.insert path held.out.length }.push
        (.modifyData path)
  | .modifyMeta path =>
      if held.create.any path || held.modifyMeta.any path then held
      else { held with modifyMeta := held.modifyMeta.insert path held.out.length }.push
        (.modifyMeta path)
  | .create path =>
      { held with create := held.create.insert path held.out.length }.push (.create path)
  | .renameFrom path =>
      { held with renameFrom := held.renameFrom.insert path held.out.length }.push
        (.renameFrom path)
  | .renameTo path =>
      { held with renameTo := held.renameTo.insert path held.out.length }.push (.renameTo path)

end Compaction

/-- `compact`: redundant sequences of events are simplified. -/
def compact (events : List FsEvent) : List FsEvent :=
  (events.foldl Compaction.step {}).out.filterMap id

/-! ### Groups -/

/-- `GroupKind`. -/
inductive GroupKind
  | create
  | delete
  | move
  | modify
  | arrival
deriving DecidableEq

/-- `group_kind`. -/
def FsEvent.kind : FsEvent → GroupKind
  | create _ => .create
  | remove _ => .delete
  | renameFrom _ => .delete
  | rename _ _ => .move
  | modifyData _ => .modify
  | modifyMeta _ => .modify
  | renameTo _ => .arrival

/-- `Write`: one write being built. -/
structure EventGroup where
  /-- Its kind. -/
  kind : GroupKind
  /-- Its events. -/
  events : List FsEvent := []
  /-- The paths they name. -/
  paths : List RelPath := []
  /-- These, and those above them. -/
  above : List RelPath := []

namespace EventGroup

/-- `shares_a_path`: whether one of some paths is one of the write's, above one or below one. -/
def sharesAPath (write : EventGroup) (paths : List RelPath) : Bool :=
  paths.any fun path =>
    path ∈ write.above || path.parent.upward.any fun above => above ∈ write.paths

/-- `add`. -/
def add (write : EventGroup) (event : FsEvent) : EventGroup :=
  { write with
    events := write.events ++ [event]
    paths := write.paths ++ event.paths
    above := write.above ++ event.paths.flatMap RelPath.upward }

/-- The latest write of a kind an event may move in front of, of writes latest first. -/
def target (kind : GroupKind) (paths : List RelPath) : List (EventGroup × Nat) → Option Nat
  | [] => none
  | (write, i) :: earlier =>
      if write.kind = kind then some i
      else if write.sharesAPath paths then none
      else target kind paths earlier

/-- One event joins the writes. -/
def place (writes : List EventGroup) (event : FsEvent) : List EventGroup :=
  match target event.kind event.paths writes.zipIdx.reverse with
  | some i => writes.modify i fun write => write.add event
  | none => writes ++ [({ kind := event.kind } : EventGroup).add event]

end EventGroup

/-- `group`: the events in writes of one kind each. -/
def group (events : List FsEvent) : List (GroupKind × List FsEvent) :=
  (events.foldl EventGroup.place []).map fun write => (write.kind, write.events)

/-- A rename that overtakes nothing joins the first; the removal that shares a path stays
between. -/
example : group [.remove [.ofString "a"], .rename [.ofString "b"] [.ofString "a"],
    .remove [.ofString "a"]] =
    [(.delete, [.remove [.ofString "a"]]),
      (.move, [.rename [.ofString "b"] [.ofString "a"]]),
      (.delete, [.remove [.ofString "a"]])] := by
  decide

end Metafolder
