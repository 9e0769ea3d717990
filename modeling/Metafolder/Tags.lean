import Metafolder.Convert
import Mathlib.Data.List.Basic

/-!
# Hierarchical tags

The vocabulary of tags, as it is loaded for an answer, and the rewrite an answer makes of the refs of
a record: the entries it creates, the ref it adds, the refs it removes.
-/

namespace Metafolder
namespace Tags

/-- A tag path as shown, its names separated by `/`. -/
abbrev Path := List Char

/-! ### Paths -/

/-- `parent`: the path up to the last `/`. -/
def parent (path : Path) : Option Path :=
  match path.reverse.dropWhile (· ≠ '/') with
  | [] => none
  | _ :: rest => some rest.reverse

/-- `is_ancestor`. -/
def isAncestor (a b : Path) : Bool := a ≠ b && a.isPrefixOf b && b[a.length]? = some '/'

/-- `ancestors`, in no more rounds than there are characters. -/
def ancestorsLoop : Nat → Path → List Path
  | 0, _ => []
  | more + 1, path =>
      match parent path with
      | some par => par :: ancestorsLoop more par
      | none => []

/-- `ancestors`: the proper ancestor paths, deepest first. -/
def ancestors (path : Path) : List Path := ancestorsLoop path.length path

/-- `descendants`: the names strictly under a path. -/
def descendants (path : Path) (names : List Path) : List Path := names.filter (isAncestor path)

/-- `Answer`. -/
inductive Answer
  | add
  | deny
  | mixed
  | remove
deriving DecidableEq

/-! ### The hierarchy -/

/-- A tag entry: its positions, each a parent and the name as shown, and its `partition` flag. -/
structure Entry (Id : Type) where
  /-- The uuid. -/
  uuid : Id
  /-- The positions in the hierarchy of tags. -/
  positions : List (Option Id × List Char)
  /-- The `partition` flag. -/
  partition : Bool

/-- `MAX_PATHS`: how many paths `resolve-tree` gives one node at most. -/
def MAX_PATHS : Nat := 256

section Hierarchy

variable {Id : Type} [DecidableEq Id]

/-- The paths a position gives, below those of its parent. -/
def pathsAt (of : Id → List Path) : Option Id × List Char → List Path
  | (none, name) => [name]
  | (some par, name) => (of par).map (· ++ '/' :: name)

/-- The loop of `paths_within` over the positions of a node, which stops once there are
`MAX_PATHS`. -/
def collectPaths (of : Id → List Path) : List (Option Id × List Char) → List Path → List Path
  | [], paths => paths
  | position :: rest, paths =>
      let paths := paths ++ pathsAt of position
      if MAX_PATHS ≤ paths.length then paths else collectPaths of rest paths

/-- `paths_within`.  The entries are listed children first: a parent comes after its children. -/
def pathsWithin : List (Entry Id) → Id → List Path
  | [], _ => []
  | entry :: rest, uuid =>
      if entry.uuid = uuid then collectPaths (pathsWithin rest) entry.positions []
      else pathsWithin rest uuid

/-- `paths_of`: what `resolve-tree` lists. -/
def pathsOf (entries : List (Entry Id)) (uuid : Id) : List Path :=
  (pathsWithin entries uuid).take MAX_PATHS

/-! ### The vocabulary -/

/-- `Vocab`, without the flags that only steer a script. -/
structure Vocab (Id : Type) where
  /-- `name2uuid`, the last insertion first. -/
  name2uuid : List (Path × Id)
  /-- `paths`. -/
  paths : List (Id × List Path)
  /-- `names`. -/
  names : List Path
  /-- The entries of `flags` whose `partition` is set. -/
  partitions : List Id

/-- `Vocab::load`: the paths of the entries that have one. -/
def Vocab.load (entries : List (Entry Id)) : Vocab Id :=
  let resolved := (entries.map fun entry => (entry.uuid, pathsOf entries entry.uuid)).filter
    fun found => !found.2.isEmpty
  { name2uuid := (resolved.flatMap fun found => found.2.map fun path => (path, found.1)).reverse
    paths := resolved
    names := resolved.flatMap Prod.snd
    partitions := (entries.filter Entry.partition).map Entry.uuid }

namespace Vocab

/-- The uuid that a path names. -/
def uuidOf (vocab : Vocab Id) (path : Path) : Option Id := vocab.name2uuid.lookup path

/-- `Vocab::contains`. -/
def contains (vocab : Vocab Id) (path : Path) : Bool := (vocab.uuidOf path).isSome

/-- `Vocab::paths_of`. -/
def pathsOf (vocab : Vocab Id) (path : Path) : List Path :=
  ((vocab.uuidOf path).bind fun uuid => vocab.paths.lookup uuid).getD [path]

/-- `Vocab::ancestors`. -/
def ancestors (vocab : Vocab Id) (path : Path) : List Path :=
  ((vocab.pathsOf path).flatMap Tags.ancestors).dedup

/-- `Vocab::descendants`. -/
def descendants (vocab : Vocab Id) (path : Path) : List Path :=
  ((vocab.pathsOf path).flatMap fun p => Tags.descendants p vocab.names).dedup

/-- `Vocab::with_ancestors`. -/
def withAncestors (vocab : Vocab Id) (path : Path) : List Path := path :: vocab.ancestors path

/-- `Vocab::with_descendants`. -/
def withDescendants (vocab : Vocab Id) (path : Path) : List Path := path :: vocab.descendants path

/-- The partition a path is directly under, if it is: its parent path. -/
def partitionAbove (vocab : Vocab Id) (node : Path) : Option Path :=
  (parent node).filter fun par =>
    (vocab.uuidOf par).any fun uuid => decide (uuid ∈ vocab.partitions)

/-- What the partition above a node excludes, but for the tags implied. -/
def excludedAt (vocab : Vocab Id) (implied : List Id) (node : Path) : List Path :=
  match vocab.partitionAbove node with
  | none => []
  | some par =>
      (vocab.names.filter fun sibling => parent sibling = some par && sibling ≠ node).flatMap
        fun sibling => (vocab.withDescendants sibling).filter fun excluded =>
          !(vocab.uuidOf excluded).any fun uuid => decide (uuid ∈ implied)

/-- `Vocab::excluded_by_partitions`. -/
def excludedByPartitions (vocab : Vocab Id) (path : Path) : List Path :=
  let implied := (vocab.withAncestors path).filterMap vocab.uuidOf
  ((vocab.pathsOf path).flatMap fun p =>
    (p :: Tags.ancestors p).flatMap (vocab.excludedAt implied)).dedup

/-- The paths of an entry planned at a path: one below each of its parent's. -/
def plannedPaths (vocab : Vocab Id) (path : Path) : List Path :=
  match parent path with
  | some par => (vocab.pathsOf par).map (· ++ path.drop par.length)
  | none => [path]

/-- The vocabulary once an entry is planned at a path. -/
def withEntry (vocab : Vocab Id) (path : Path) (uuid : Id) : Vocab Id :=
  let paths := vocab.plannedPaths path
  { vocab with
    name2uuid := (paths.map fun p => (p, uuid)).reverse ++ vocab.name2uuid
    names := vocab.names ++ paths
    paths := (uuid, paths) :: vocab.paths }

end Vocab

/-! ### Answers -/

/-- The three ref fields of a record. -/
inductive Field
  | positive
  | negative
  | mixed
deriving DecidableEq

/-- An operation of a batch. -/
inductive Op (Id : Type)
  /-- Create a tag entry at a position. -/
  | create (uuid : Id) (par : Option Id) (name : List Char)
  /-- Add a ref to the records selected. -/
  | add (field : Field) (tag : Id)
  /-- Remove a ref from the records selected. -/
  | remove (field : Field) (tag : Id)

/-- The refs of one record. -/
structure Refs (Id : Type) where
  /-- The tags it has. -/
  positive : List Id
  /-- The tags it has not. -/
  negative : List Id
  /-- The tags it partly has. -/
  mixed : List Id
deriving DecidableEq

/-- The refs in a field. -/
def Refs.get (refs : Refs Id) : Field → List Id
  | .positive => refs.positive
  | .negative => refs.negative
  | .mixed => refs.mixed

/-- The refs with those of a field changed. -/
def Refs.modify (refs : Refs Id) (field : Field) (change : List Id → List Id) : Refs Id :=
  match field with
  | .positive => { refs with positive := change refs.positive }
  | .negative => { refs with negative := change refs.negative }
  | .mixed => { refs with mixed := change refs.mixed }

/-- The tag entries, and the refs of one record. -/
structure Store (Id : Type) where
  /-- The entries, the last created first. -/
  entries : List (Entry Id)
  /-- The record. -/
  refs : Refs Id

/-- An operation of a batch carried out.  The selection is the one before the batch: the record is
in it or not. -/
def Store.run (selected : Bool) (store : Store Id) : Op Id → Store Id
  | .create uuid par name =>
      { store with entries := ⟨uuid, [(par, name)], false⟩ :: store.entries }
  | .add field tag =>
      if selected then
        { store with
          refs := store.refs.modify field fun held => if tag ∈ held then held else held ++ [tag] }
      else store
  | .remove field tag =>
      if selected then
        { store with refs := store.refs.modify field fun held => held.filter (· ≠ tag) }
      else store

/-- `TagBatch`: the operations planned, and how many uuids were allocated. -/
structure TagBatch (Id : Type) where
  /-- `ops`. -/
  ops : List (Op Id)
  /-- The uuids taken so far. -/
  taken : Nat

namespace TagBatch

variable (fresh : Nat → Id)

/-- `TagBatch::ensure_entry`, the ancestors of the path given deepest first. -/
def ensureEntry (vocab : Vocab Id) (batch : TagBatch Id) :
    Path → List Path → Id × Vocab Id × TagBatch Id
  | path, above =>
      match vocab.uuidOf path, above with
      | some uuid, _ => (uuid, vocab, batch)
      | none, [] =>
          let uuid := fresh batch.taken
          (uuid, vocab.withEntry path uuid,
            ⟨batch.ops ++ [.create uuid none path], batch.taken + 1⟩)
      | none, par :: above =>
          let (parentUuid, vocab, batch) := ensureEntry vocab batch par above
          let uuid := fresh batch.taken
          (uuid, vocab.withEntry path uuid,
            ⟨batch.ops ++ [.create uuid (some parentUuid) (path.drop (par.length + 1))],
              batch.taken + 1⟩)

/-- `TagBatch::add`. -/
def add (batch : TagBatch Id) (field : Field) (tag : Id) : TagBatch Id :=
  { batch with ops := batch.ops ++ [.add field tag] }

/-- `TagBatch::remove`: once per tag, however many of its paths are given. -/
def remove (batch : TagBatch Id) (vocab : Vocab Id) (field : Field) (paths : List Path) :
    TagBatch Id :=
  { batch with ops := batch.ops ++ ((paths.filterMap vocab.uuidOf).dedup.map (.remove field)) }

end TagBatch

/-- `normalize`: the path as typed without the spaces and slashes around it, unless a name in it is
empty. -/
def normalize (path : Path) : Option Path :=
  let slash (c : Char) : Bool := c = '/'
  let path := ((trim path).dropWhile slash).reverse.dropWhile slash |>.reverse
  if path = [] then none
  else if (splitOn '/' path).any fun name => trim name = [] then none
  else some path

/-- The operations `apply` sends. -/
def plan (fresh : Nat → Id) (vocab : Vocab Id) (answer : Answer) (path : Path) : List (Op Id) :=
  let batch : TagBatch Id := ⟨[], 0⟩
  match answer with
  | .remove =>
      if vocab.contains path then (batch.remove vocab .positive [path]).ops else []
  | .add =>
      let (uuid, vocab, batch) := batch.ensureEntry fresh vocab path (ancestors path)
      let contradicted := vocab.withAncestors path
      ((((batch.add .positive uuid).remove vocab .positive (vocab.ancestors path)).remove vocab
        .positive (vocab.excludedByPartitions path)).remove vocab .negative contradicted).remove
        vocab .mixed contradicted |>.ops
  | .deny =>
      let (uuid, vocab, batch) := batch.ensureEntry fresh vocab path (ancestors path)
      let contradicted := vocab.withDescendants path
      (((batch.add .negative uuid).remove vocab .negative (vocab.descendants path)).remove vocab
        .positive contradicted).remove vocab .mixed contradicted |>.ops
  | .mixed =>
      let (uuid, vocab, batch) := batch.ensureEntry fresh vocab path (ancestors path)
      ((batch.add .mixed uuid).remove vocab .positive (vocab.withDescendants path)).remove vocab
        .negative (vocab.withAncestors path) |>.ops

/-- `apply`. -/
def apply (fresh : Nat → Id) (selected : Bool) (answer : Answer) (typed : Path)
    (store : Store Id) : Store Id :=
  match normalize typed with
  | none => store
  | some path => (plan fresh (.load store.entries) answer path).foldl (Store.run selected) store

end Hierarchy

end Tags
end Metafolder
