import Metafolder.Value

/-!
# The trash

A trash entry holds what a trashing displaced, a file, a link or a directory, under the path it was
at.  Restoring it moves it back to a free place, or into the directory that stands there, unless that
would overwrite anything.
-/

namespace Metafolder

namespace Trash

/-! ### Trees of files -/

/-- What a directory holds that is no directory. -/
inductive Leaf
  /-- A file, with its content. -/
  | file (content : Bytes)
  /-- A link, with the path it names. -/
  | symlink (target : Bytes)
deriving DecidableEq

/-- The entries of a directory, in the order it lists them. -/
inductive Entries
  | nil
  /-- A file or a link. -/
  | leaf (name : TreeName) (leaf : Leaf) (rest : Entries)
  /-- A directory, with its own entries. -/
  | dir (name : TreeName) (below rest : Entries)
deriving DecidableEq

/-- What stands at a path. -/
inductive Node
  | leaf (leaf : Leaf)
  | dir (entries : Entries)
deriving DecidableEq

namespace Entries

/-- The entry under a name. -/
def lookup (name : TreeName) : Entries → Option Node
  | nil => none
  | leaf held content rest => if held = name then some (.leaf content) else rest.lookup name
  | dir held below rest => if held = name then some (.dir below) else rest.lookup name

/-- One entry more. -/
def add (name : TreeName) (node : Node) (rest : Entries) : Entries :=
  match node with
  | .leaf content => leaf name content rest
  | .dir below => dir name below rest

/-- What stands under a name, replaced. -/
def put (name : TreeName) (node : Node) : Entries → Entries
  | nil => add name node nil
  | leaf held content rest =>
      if held = name then add name node rest else leaf held content (rest.put name node)
  | dir held below rest =>
      if held = name then add name node rest else dir held below (rest.put name node)

end Entries

/-! ### Moving -/

/-- What the system does where a move meets an entry. -/
structure Clobber where
  /-- What stands where something was moved onto an entry, unless that fails. -/
  onto : Node → Node → Option Node
  /-- Whether moving the entries of a directory below something that is none succeeds, and which of
  them are left. -/
  below : Entries → Leaf → Bool × Entries

/-- `copy_tree`. -/
def copyTree : Entries → Entries
  | .nil => .nil
  | .leaf name content rest => .leaf name content (copyTree rest)
  | .dir name below rest => .dir name (copyTree below) (copyTree rest)

/-- `copy_entry`. -/
def copyEntry : Node → Node
  | .leaf content => .leaf content
  | .dir entries => .dir (copyTree entries)

/-- `move_path`: what stands where something was moved, renamed or copied across devices, unless the
move fails. -/
def movePath (clobber : Clobber) (acrossDevices : Bool) (source : Node) : Option Node → Option Node
  | none => some (if acrossDevices then copyEntry source else source)
  | some occupant => clobber.onto source occupant

/-- What a merge leaves: the entries it has not moved, the directory it moved into, and whether it
went through. -/
structure Merged where
  /-- The entries left. -/
  left : Entries
  /-- The directory moved into. -/
  into : Entries
  /-- Whether every entry was moved. -/
  done : Bool

/-- `merge_move`: the entries of a directory are moved into another, and shared directories merged. -/
def mergeMove (clobber : Clobber) (acrossDevices : Bool) : Entries → Entries → Merged
  | .nil, dst => ⟨.nil, dst, true⟩
  | .leaf name content rest, dst =>
      match movePath clobber acrossDevices (.leaf content) (dst.lookup name) with
      | none => ⟨.leaf name content rest, dst, false⟩
      | some moved => mergeMove clobber acrossDevices rest (dst.put name moved)
  | .dir name below rest, dst =>
      match dst.lookup name with
      | none =>
          match movePath clobber acrossDevices (.dir below) none with
          | none => ⟨.dir name below rest, dst, false⟩
          | some moved => mergeMove clobber acrossDevices rest (dst.put name moved)
      | some (.dir shared) =>
          let inner := mergeMove clobber acrossDevices below shared
          let dst := dst.put name (.dir inner.into)
          if inner.done then
            let after := mergeMove clobber acrossDevices rest dst
            -- `remove_dir` takes an empty directory only.
            match inner.left with
            | .nil => after
            | left => { after with left := .dir name left after.left }
          else ⟨.dir name inner.left rest, dst, false⟩
      | some (.leaf occupant) =>
          match clobber.below below occupant with
          | (true, .nil) => mergeMove clobber acrossDevices rest dst
          | (true, left) =>
              let after := mergeMove clobber acrossDevices rest dst
              { after with left := .dir name left after.left }
          | (false, left) => ⟨.dir name left rest, dst, false⟩

/-! ### Restoring -/

/-- `TrashError`, of a restore. -/
inductive TrashError
  /-- "… already exists; restore is refused (move it aside first)" -/
  | alreadyExists
  /-- "… already exists; restore is refused (would overwrite)", with the path below the target. -/
  | wouldOverwrite (path : List TreeName)
  /-- "cannot create …" -/
  | cannotCreate
  /-- "cannot restore to …" -/
  | cannotRestore
  /-- "cannot merge into …" -/
  | cannotMerge
deriving DecidableEq

/-- `detect_merge_conflict`: the first entry of a directory, below a path, that would overwrite one
of another. -/
def detectMergeConflict (path : List TreeName) : Entries → Entries → Except TrashError Unit
  | .nil, _ => .ok ()
  | .leaf name _ rest, dst =>
      match dst.lookup name with
      | none => detectMergeConflict path rest dst
      | some _ => .error (.wouldOverwrite (path ++ [name]))
  | .dir name below rest, dst =>
      match dst.lookup name with
      | none => detectMergeConflict path rest dst
      | some (.dir shared) => do
          detectMergeConflict (path ++ [name]) below shared
          detectMergeConflict path rest dst
      | some (.leaf _) => .error (.wouldOverwrite (path ++ [name]))

/-- `RestoreAction`. -/
inductive RestoreAction
  /-- The target is free. -/
  | fresh
  /-- A directory goes into the one that stands there. -/
  | merge
deriving DecidableEq

/-- `plan_restore`: what a restore has to do, if anything may be moved at all. -/
def planRestore (blob target : Option Node) : Except TrashError RestoreAction :=
  match target with
  | none => .ok .fresh
  | some occupant =>
      match blob, occupant with
      | some (.dir src), .dir dst => do
          detectMergeConflict [] src dst
          pure .merge
      | _, _ => .error .alreadyExists

/-- A trash entry, and the place it was at. -/
structure Bin where
  /-- What it holds. -/
  blob : Option Node
  /-- What stands at its original path. -/
  target : Option Node
  /-- Whether the directories above that path are there or can be made. -/
  room : Bool := true
  /-- Whether the index lists it. -/
  listed : Bool := true
deriving DecidableEq

/-- `restore`. -/
def restore (clobber : Clobber) (acrossDevices : Bool) (bin : Bin) :
    Except TrashError Unit × Bin :=
  match planRestore bin.blob bin.target with
  | .error refusal => (.error refusal, bin)
  | .ok .fresh =>
      if !bin.room then (.error .cannotCreate, bin)
      else
        match bin.blob.bind fun blob => movePath clobber acrossDevices blob none with
        | none => (.error .cannotRestore, bin)
        | some moved =>
            (.ok (), { bin with blob := none, target := some moved, listed := false })
  | .ok .merge =>
      match bin.blob, bin.target with
      | some (.dir src), some (.dir dst) =>
          let merged := mergeMove clobber acrossDevices src dst
          let target := some (Node.dir merged.into)
          if merged.done then
            -- The blob directory is removed when the merge has emptied it.
            let blob := match merged.left with
              | .nil => none
              | left => some (Node.dir left)
            (.ok (), { bin with blob, target, listed := false })
          else (.error .cannotMerge, { bin with blob := some (.dir merged.left), target })
      | _, _ => (.error .cannotMerge, bin)

end Trash

end Metafolder
