import Metafolder.Forests
import Metafolder.Lookups
import Metafolder.Placements

/-!
# Paths by exact bytes

A node's paths are assembled from its positions upwards, in a hierarchy one for each way up to a
root, and a path is resolved from its root downwards.  The two meet: a path listed is resolved to its
node, and what a path resolves to stands there.
-/

namespace Metafolder

open Relation Ancestry

/-! ### Paths -/

/-- The byte between the names of a path. -/
def slash : UInt8 := 0x2F

/-- `TreePath`: a path as its exact bytes. -/
abbrev TreePath : Type := Bytes

namespace TreePath

/-- `TreePath::from_names`: the names of a path, the root's first, joined. -/
def ofNames (names : List TreeName) : TreePath := [slash].intercalate (names.map TreeName.bytes)

/-- `TreePath::names`. -/
def names (path : TreePath) : List TreeName := (path.splitOn slash).map TreeName.mk

end TreePath

namespace Primary

/-- `MAX_PATHS`. -/
def maxPaths : Nat := 256

/-- The paths of the metarecords done with, in `paths_within`. -/
abbrev PathMemo : Type := Uuid → Option (List TreePath)

/-- The positions of a metarecord in a field, in the order of their rows. -/
def places (store : Primary) (field : String) (uuid : Uuid) : List (Option Uuid × TreeName) :=
  (store.rowsNamed uuid field).filterMap fun row => row.value.position

/-- `paths_within`, its loop over the positions of a metarecord. -/
def gatherPaths (within : Uuid → PathMemo → Outcome (List TreePath × PathMemo)) :
    List (Option Uuid × TreeName) → List TreePath → PathMemo → Outcome (List TreePath × PathMemo)
  | [], paths, memo => pure (paths, memo)
  | (none, name) :: rest, paths, memo =>
      let paths := paths ++ [name.bytes]
      if maxPaths ≤ paths.length then pure (paths, memo) else gatherPaths within rest paths memo
  | (some parent, name) :: rest, paths, memo => do
      let (above, memo) ← within parent memo
      let paths := paths ++ above.map fun path => path ++ slash :: name.bytes
      if maxPaths ≤ paths.length then pure (paths, memo) else gatherPaths within rest paths memo

/-- `paths_within`, so many levels above the greatest depth. -/
def pathsWithin (store : Primary) (field : String) :
    Nat → Uuid → PathMemo → Outcome (List TreePath × PathMemo)
  | 0, uuid, memo =>
      match memo uuid with
      | some paths => pure (paths, memo)
      | none => bail s!"TreeRef chain deeper than {maxTreeDepth} for entry {uuid}"
  | levels + 1, uuid, memo =>
      match memo uuid with
      | some paths => pure (paths, memo)
      | none => do
          let (paths, memo) ←
            gatherPaths (pathsWithin store field levels) (store.places field uuid) [] memo
          pure (paths, Function.update memo uuid (some paths))

/-- `paths_of`: the paths of a metarecord in a field. -/
def pathsOf (store : Primary) (field : String) (uuid : Uuid) : Outcome (List TreePath) := do
  let (paths, _) ← pathsWithin store field maxTreeDepth uuid fun _ => none
  pure (paths.take maxPaths)

section Resolving

variable [Externals] (store : Primary) (caseInsensitive : Bool) (field : String)

/-- One name of `resolve_exact`. -/
def childExact (parent : Option Uuid) (name : TreeName) : Outcome (Option Uuid) := do
  match ← store.childByBytes field parent name.bytes with
  | some child => pure (some child)
  | none =>
      if caseInsensitive && name.isExact then
        store.childByText field (parent.getD Uuid.zero) name.display
      else pure none

/-- `resolve_exact`, its loop down. -/
def resolveNames : Option Uuid → List TreeName → Outcome (Option Uuid)
  | found, [] => pure found
  | found, name :: rest => do
      match ← store.childExact caseInsensitive field found name with
      | none => pure none
      | some child => resolveNames (some child) rest

/-- The names of a path that `resolve_exact` looks up: an empty one after the first is left out. -/
def lookedUp : List TreeName → List TreeName
  | [] => []
  | first :: rest => first :: rest.filter fun name => name.bytes ≠ []

/-- `resolve_exact`: the metarecord at a path. -/
def resolveExact (path : TreePath) : Outcome (Option Uuid) :=
  store.resolveNames caseInsensitive field none (lookedUp (TreePath.names path))

end Resolving

/-! ### Chains -/

/-- A metarecord has a position in a field. -/
def PlacedAt (store : Primary) (field : String) (uuid : Uuid) (parent : Option Uuid)
    (name : TreeName) : Prop :=
  ∃ row, store.Holds uuid row ∧ row.name = field ∧ row.value.position = some (parent, name)

/-- The names on a way from a root down to a metarecord. -/
inductive Chain (store : Primary) (field : String) : Uuid → List TreeName → Prop
  /-- The metarecord is a root. -/
  | root {uuid : Uuid} {name : TreeName} (placed : store.PlacedAt field uuid none name) :
      Chain store field uuid [name]
  /-- It is under another. -/
  | under {uuid parent : Uuid} {name : TreeName} {names : List TreeName}
      (placed : store.PlacedAt field uuid (some parent) name)
      (above : Chain store field parent names) : Chain store field uuid (names ++ [name])

/-- A well-formed forest or hierarchy field, as writes leave it: no way up is longer than the depth
allowed, every name is one component of a path, and the zero uuid, which stands for no parent, is no
node. -/
structure NamedForest (store : Primary) (field : String) : Prop where
  wellFormed : store.WellFormedForest field
  bounded : Bounded (store.Up field) maxTreeDepth
  component : ∀ {uuid parent name}, store.PlacedAt field uuid parent name →
    name.isComponent parent.isNone = true
  real : ∀ {uuid parent name}, store.PlacedAt field uuid parent name → uuid ≠ Uuid.zero

section Chains

variable {store : Primary} {field : String} {uuid : Uuid} {name : TreeName}
  {names : List TreeName}

theorem slash_not_mem_of_isComponent {isRoot : Bool} (component : name.isComponent isRoot = true) :
    slash ∉ name.bytes := by
  unfold TreeName.isComponent at component
  split at component
  · next empty => simp [empty]
  · split at component
    · cases component
    · intro listed
      rw [Bool.not_eq_true', List.any_eq_false] at component
      exact component _ listed (by simp [slash])

theorem bytes_ne_nil_of_isComponent (component : name.isComponent false = true) :
    name.bytes ≠ [] := by
  intro empty
  simp [TreeName.isComponent, empty] at component

namespace Chain

theorem ne_nil (chain : store.Chain field uuid names) : names ≠ [] := by
  cases chain <;> simp

/-- Every name of a chain is without slash, and only the root's may be empty. -/
theorem slashless (forest : store.NamedForest field) (chain : store.Chain field uuid names) :
    (∀ name ∈ names, slash ∉ name.bytes) ∧ ∀ name ∈ names.tail, name.bytes ≠ [] := by
  induction chain with
  | root placed =>
      refine ⟨?_, by simp⟩
      simpa using slash_not_mem_of_isComponent (forest.component placed)
  | @under uuid parent name names placed above ih =>
      have component := forest.component placed
      constructor
      · intro other listed
        rcases List.mem_append.mp listed with before | last
        · exact ih.1 other before
        · rw [List.mem_singleton.mp last]
          exact slash_not_mem_of_isComponent component
      · intro other listed
        rw [List.tail_append_of_ne_nil above.ne_nil] at listed
        rcases List.mem_append.mp listed with before | last
        · exact ih.2 other before
        · rw [List.mem_singleton.mp last]
          exact bytes_ne_nil_of_isComponent component

/-- A chain joined is split again. -/
theorem names_ofNames (forest : store.NamedForest field) (chain : store.Chain field uuid names) :
    TreePath.names (TreePath.ofNames names) = names := by
  rw [TreePath.names, TreePath.ofNames, List.splitOn_intercalate]
  · rw [List.map_map]
    exact List.map_id' names
  · simpa using (chain.slashless forest).1
  · simpa using chain.ne_nil

/-- The names of a chain are all looked up. -/
theorem lookedUp_eq (forest : store.NamedForest field) (chain : store.Chain field uuid names) :
    lookedUp names = names := by
  have inner := (chain.slashless forest).2
  cases names with
  | nil => rfl
  | cons first rest =>
      rw [lookedUp, List.filter_eq_self.mpr]
      simpa using inner

end Chain

/-- A chain belongs to one metarecord. -/
theorem Chain.unique [Externals] (indexed : store.Indexed) (chain : store.Chain field uuid names)
    {other : Uuid} (same : store.Chain field other names) : uuid = other := by
  have placedOnce {uuid other : Uuid} {parent : Option Uuid} {name : TreeName}
      (here : store.PlacedAt field uuid parent name)
      (there : store.PlacedAt field other parent name) : uuid = other := by
    obtain ⟨row, holds, named, position⟩ := here
    obtain ⟨otherRow, otherHolds, otherNamed, otherPosition⟩ := there
    exact (indexed.place_unique holds otherHolds (named.trans otherNamed.symm)
      (by rw [position]; rfl) (position.trans otherPosition.symm)).1
  induction chain generalizing other with
  | @root uuid name placed =>
      generalize isNames : [name] = names at same
      cases same with
      | root otherPlaced =>
          cases isNames
          exact placedOnce placed otherPlaced
      | @under _ _ _ others _ above =>
          have lengths := congrArg List.length isNames
          have := List.length_pos_of_ne_nil above.ne_nil
          rw [List.length_append, List.length_singleton, List.length_singleton] at lengths
          omega
  | @under uuid parent name names placed above ih =>
      generalize isNames : names ++ [name] = whole at same
      cases same with
      | root otherPlaced =>
          have lengths := congrArg List.length isNames
          have := List.length_pos_of_ne_nil above.ne_nil
          rw [List.length_append, List.length_singleton, List.length_singleton] at lengths
          omega
      | under otherPlaced otherAbove =>
          obtain ⟨rfl, lasts⟩ := List.append_inj' isNames rfl
          cases lasts
          obtain rfl := ih otherAbove
          exact placedOnce placed otherPlaced

end Chains

/-! ### A path listed is resolved -/

section Resolved

variable [Externals] {store : Primary} {field : String} {uuid : Uuid} {name : TreeName}
  {names : List TreeName}

/-- A position is found by its exact bytes. -/
theorem Indexed.childByBytes_eq (indexed : store.Indexed) {parent : Option Uuid}
    (placed : store.PlacedAt field uuid parent name) :
    store.childByBytes field parent name.bytes = .ok (some uuid) := by
  obtain ⟨row, holds, rfl, position⟩ := placed
  have entry := indexed.forest_iff.mpr ⟨row, holds, rfl, by rw [forestKey, position]; rfl⟩
  have readBack : store.nodeName row.name (nodeKey name.bytes) (uuid, row.id) = .ok name.bytes := by
    unfold nodeName
    split
    · next short => rw [nodeKey_eq_self short]; rfl
    · rw [Holds] at holds
      rw [holds]
      simp only [context, Except.bind_eq_ok]
      exact ⟨row, rfl, by rw [position]; rfl⟩
  have found : store.forest.get (nameKey row.name ++ (parent.getD Uuid.zero).bytes ++
      nodeKey name.bytes) = some (uuid, row.id) := entry
  rw [childByBytes, found]
  simp only [readBack]
  change (pure (if name.bytes = name.bytes then some uuid else none) : Outcome (Option Uuid)) = _
  rw [if_pos rfl]
  rfl

theorem Indexed.childExact_eq (indexed : store.Indexed) (caseInsensitive : Bool)
    {parent : Option Uuid} (placed : store.PlacedAt field uuid parent name) :
    store.childExact caseInsensitive field parent name = .ok (some uuid) := by
  rw [childExact, indexed.childByBytes_eq placed]
  rfl

theorem resolveNames_append {caseInsensitive : Bool} {found middle : Option Uuid}
    {first rest : List TreeName}
    (reached : store.resolveNames caseInsensitive field found first = .ok middle)
    (isNode : middle.isSome) :
    store.resolveNames caseInsensitive field found (first ++ rest) =
      store.resolveNames caseInsensitive field middle rest := by
  induction first generalizing found with
  | nil =>
      cases reached
      rfl
  | cons name first ih =>
      rw [resolveNames, Except.bind_eq_ok] at reached
      obtain ⟨child, here, further⟩ := reached
      rw [List.cons_append, resolveNames, here]
      cases child with
      | none =>
          cases further
          cases isNode
      | some child => exact ih further

/-- The names of a chain lead down to its metarecord. -/
theorem Chain.resolveNames_eq (indexed : store.Indexed) (caseInsensitive : Bool)
    (chain : store.Chain field uuid names) :
    store.resolveNames caseInsensitive field none names = .ok (some uuid) := by
  induction chain with
  | root placed =>
      rw [resolveNames, indexed.childExact_eq caseInsensitive placed]
      rfl
  | under placed above ih =>
      rw [resolveNames_append ih rfl, resolveNames, indexed.childExact_eq caseInsensitive placed]
      rfl

/-- A chain joined is resolved to its metarecord, case counting or not. -/
theorem Chain.resolveExact_eq (indexed : store.Indexed) (forest : store.NamedForest field)
    (caseInsensitive : Bool) (chain : store.Chain field uuid names) :
    store.resolveExact caseInsensitive field (TreePath.ofNames names) = .ok (some uuid) := by
  rw [resolveExact, chain.names_ofNames forest, chain.lookedUp_eq forest]
  exact chain.resolveNames_eq indexed caseInsensitive

end Resolved

/-! ### The paths listed -/

section Listed

variable {store : Primary} {field : String} {uuid : Uuid} {names : List TreeName}
  {place : Option Uuid × TreeName}

/-- The chains whose last name is that of a position. -/
def Ends (store : Primary) (field : String) : Option Uuid × TreeName → List TreeName → Prop
  | (none, name), names => names = [name]
  | (some parent, name), names =>
      ∃ above, store.Chain field parent above ∧ names = above ++ [name]

/-- Paths are those of the chains through some positions of a metarecord: each once, and all of them
unless there are as many as are kept. -/
structure Gathered (store : Primary) (field : String) (places : List (Option Uuid × TreeName))
    (paths : List TreePath) : Prop where
  nodup : paths.Nodup
  sound : ∀ path ∈ paths, ∃ place ∈ places, ∃ names,
    store.Ends field place names ∧ path = TreePath.ofNames names
  complete : (∀ place ∈ places, ∀ names, store.Ends field place names →
    TreePath.ofNames names ∈ paths) ∨ maxPaths ≤ paths.length

/-- Paths are those of a metarecord. -/
abbrev Listed (store : Primary) (field : String) (uuid : Uuid) (paths : List TreePath) : Prop :=
  store.Gathered field (store.places field uuid) paths

theorem TreePath.ofNames_append {name : TreeName} (isChain : names ≠ []) :
    TreePath.ofNames (names ++ [name]) = TreePath.ofNames names ++ slash :: name.bytes := by
  have joined (first : Bytes) (rest : List Bytes) (last : Bytes) :
      [slash].intercalate (first :: rest ++ [last]) =
        [slash].intercalate (first :: rest) ++ slash :: last := by
    induction rest generalizing first with
    | nil => simp [List.intercalate]
    | cons second rest ih =>
        have further := ih second
        simp only [List.intercalate, List.cons_append, List.intersperse_cons_cons,
          List.flatten_cons] at further ⊢
        rw [further]
        simp
  cases names with
  | nil => exact absurd rfl isChain
  | cons first rest =>
      rw [TreePath.ofNames, TreePath.ofNames, List.map_append]
      exact joined first.bytes (rest.map TreeName.bytes) name.bytes

theorem Ends.chain (ends : store.Ends field place names)
    (placed : store.PlacedAt field uuid place.1 place.2) : store.Chain field uuid names := by
  obtain ⟨parent, name⟩ := place
  cases parent with
  | none =>
      rw [Ends] at ends
      subst ends
      exact .root placed
  | some parent =>
      obtain ⟨above, chain, rfl⟩ := ends
      exact .under placed chain

theorem Chain.ends (chain : store.Chain field uuid names) :
    ∃ place, store.PlacedAt field uuid place.1 place.2 ∧ store.Ends field place names := by
  cases chain with
  | @root _ name placed => exact ⟨(none, name), placed, rfl⟩
  | @under _ parent name above placed chain => exact ⟨(some parent, name), placed, above, chain, rfl⟩

variable [Externals]

theorem Indexed.mem_places (indexed : store.Indexed) :
    place ∈ store.places field uuid ↔ store.PlacedAt field uuid place.1 place.2 := by
  rw [places, List.mem_filterMap]
  constructor
  · intro listed
    obtain ⟨row, held, position⟩ := listed
    obtain ⟨holds, named⟩ := indexed.mem_rowsNamed.mp held
    exact ⟨row, holds, named, position⟩
  · intro placed
    obtain ⟨row, holds, named, position⟩ := placed
    exact ⟨row, indexed.mem_rowsNamed.mpr ⟨holds, named⟩, position⟩

/-- A metarecord has each of its positions once. -/
theorem Indexed.nodup_places (indexed : store.Indexed) (field : String) (uuid : Uuid) :
    (store.places field uuid).Nodup := by
  have ordered := indexed.pairwise_rowsNamed uuid field
  rw [places, List.Nodup, List.pairwise_filterMap]
  refine ordered.imp_of_mem ?_
  intro first second heldFirst heldSecond below place placeFirst other placeSecond same
  obtain ⟨holdsFirst, namedFirst⟩ := indexed.mem_rowsNamed.mp heldFirst
  obtain ⟨holdsSecond, namedSecond⟩ := indexed.mem_rowsNamed.mp heldSecond
  have alike := (indexed.place_unique holdsFirst holdsSecond (namedFirst.trans namedSecond.symm)
    (by rw [placeFirst]; rfl) (by rw [placeFirst, placeSecond, same])).2
  rw [alike] at below
  exact absurd below (by simp)

/-- Two positions do not end the same chain. -/
theorem Ends.unique (indexed : store.Indexed) (ends : store.Ends field place names)
    {other : Option Uuid × TreeName} (same : store.Ends field other names) : place = other := by
  obtain ⟨parent, name⟩ := place
  obtain ⟨otherParent, otherName⟩ := other
  cases parent with
  | none =>
      cases otherParent with
      | none =>
          rw [Ends] at ends same
          rw [ends] at same
          cases same
          rfl
      | some otherParent =>
          obtain ⟨above, chain, joined⟩ := same
          rw [Ends] at ends
          have lengths := congrArg List.length (ends.symm.trans joined)
          have := List.length_pos_of_ne_nil chain.ne_nil
          rw [List.length_append, List.length_singleton, List.length_singleton] at lengths
          omega
  | some parent =>
      obtain ⟨above, chain, joined⟩ := ends
      cases otherParent with
      | none =>
          rw [Ends] at same
          have lengths := congrArg List.length (same.symm.trans joined)
          have := List.length_pos_of_ne_nil chain.ne_nil
          rw [List.length_append, List.length_singleton, List.length_singleton] at lengths
          omega
      | some otherParent =>
          obtain ⟨otherAbove, otherChain, otherJoined⟩ := same
          obtain ⟨rfl, lasts⟩ := List.append_inj' (joined.symm.trans otherJoined) rfl
          cases lasts
          rw [chain.unique indexed otherChain]

namespace Gathered

variable {handled : List (Option Uuid × TreeName)} {paths further : List TreePath}

omit [Externals] in
theorem nil : store.Gathered field [] [] where
  nodup := List.nodup_nil
  sound := by simp
  complete := .inl (by simp)

/-- The paths through one more position are added. -/
theorem append (indexed : store.Indexed) (forest : store.NamedForest field)
    (gathered : store.Gathered field handled paths) (added : store.Gathered field [place] further)
    (placed : ∀ other ∈ place :: handled, store.PlacedAt field uuid other.1 other.2)
    (fresh : place ∉ handled) : store.Gathered field (handled ++ [place]) (paths ++ further) where
  nodup := by
    refine List.nodup_append'.mpr ⟨gathered.nodup, added.nodup, ?_⟩
    intro path before after
    obtain ⟨other, held, names, ends, isPath⟩ := gathered.sound path before
    obtain ⟨last, isLast, others, otherEnds, isOther⟩ := added.sound path after
    obtain rfl := List.mem_singleton.mp isLast
    have here := (ends.chain (placed other (List.mem_cons_of_mem _ held))).names_ofNames forest
    have there := (otherEnds.chain (placed last List.mem_cons_self)).names_ofNames forest
    rw [← isPath] at here
    rw [← isOther] at there
    rw [← here.symm.trans there] at otherEnds
    exact fresh (otherEnds.unique indexed ends ▸ held)
  sound := by
    intro path listed
    rcases List.mem_append.mp listed with before | after
    · obtain ⟨other, held, ends⟩ := gathered.sound path before
      exact ⟨other, List.mem_append_left _ held, ends⟩
    · obtain ⟨other, held, ends⟩ := added.sound path after
      exact ⟨other, List.mem_append_right _ held, ends⟩
  complete := by
    cases gathered.complete with
    | inr many =>
        right
        rw [List.length_append]
        omega
    | inl all =>
        cases added.complete with
        | inr many =>
            right
            rw [List.length_append]
            omega
        | inl allAdded =>
            left
            intro other held names ends
            rcases List.mem_append.mp held with before | after
            · exact List.mem_append_left _ (all other before names ends)
            · exact List.mem_append_right _ (allAdded other after names ends)

omit [Externals] in
/-- As many paths as are kept are enough. -/
theorem enough {rest : List (Option Uuid × TreeName)}
    (gathered : store.Gathered field handled paths) (many : maxPaths ≤ paths.length) :
    store.Gathered field (handled ++ rest) paths where
  nodup := gathered.nodup
  sound := by
    intro path listed
    obtain ⟨other, held, ends⟩ := gathered.sound path listed
    exact ⟨other, List.mem_append_left _ held, ends⟩
  complete := .inr many

omit [Externals] in
theorem root {name : TreeName} : store.Gathered field [(none, name)] [name.bytes] where
  nodup := List.nodup_singleton _
  sound := by
    intro path listed
    exact ⟨_, List.mem_singleton_self _, [name], rfl, by
      rw [List.mem_singleton.mp listed]
      simp [TreePath.ofNames, List.intercalate]⟩
  complete := by
    left
    intro place held names ends
    rw [List.mem_singleton.mp held, Ends] at ends
    rw [ends]
    simp [TreePath.ofNames, List.intercalate]

/-- The paths of a parent go on with the name. -/
theorem under (indexed : store.Indexed) {parent : Uuid} {name : TreeName} {above : List TreePath}
    (listed : store.Listed field parent above) :
    store.Gathered field [(some parent, name)]
      (above.map fun path => path ++ slash :: name.bytes) where
  nodup := listed.nodup.map fun first second same => List.append_cancel_right same
  sound := by
    intro path isListed
    obtain ⟨start, held, rfl⟩ := List.mem_map.mp isListed
    obtain ⟨place, isPlace, names, ends, rfl⟩ := listed.sound start held
    have chain := ends.chain (indexed.mem_places.mp isPlace)
    exact ⟨_, List.mem_singleton_self _, names ++ [name], ⟨names, chain, rfl⟩,
      (TreePath.ofNames_append chain.ne_nil).symm⟩
  complete := by
    cases listed.complete with
    | inr many =>
        right
        rw [List.length_map]
        exact many
    | inl all =>
        left
        intro place held names ends
        rw [List.mem_singleton.mp held] at ends
        obtain ⟨names, chain, rfl⟩ := ends
        obtain ⟨place, placed, ends⟩ := chain.ends
        rw [TreePath.ofNames_append chain.ne_nil]
        exact List.mem_map_of_mem (all place (indexed.mem_places.mpr placed) names ends)

end Gathered

/-- What a memo remembers are the paths. -/
def Remembers (store : Primary) (field : String) (memo : PathMemo) : Prop :=
  ∀ uuid paths, memo uuid = some paths → store.Listed field uuid paths

/-- The paths of every parent given, those of a metarecord are gathered. -/
theorem gatherPaths_spec (indexed : store.Indexed) (forest : store.NamedForest field) (uuid : Uuid)
    (within : Uuid → PathMemo → Outcome (List TreePath × PathMemo))
    (above : ∀ parent, store.Up field uuid parent → ∀ memo, store.Remembers field memo →
      ∃ paths after, within parent memo = .ok (paths, after) ∧
        store.Listed field parent paths ∧ store.Remembers field after)
    {handled rest : List (Option Uuid × TreeName)} (whole : handled ++ rest = store.places field uuid)
    {paths : List TreePath} (gathered : store.Gathered field handled paths)
    {memo : PathMemo} (remembers : store.Remembers field memo) :
    ∃ found after, gatherPaths within rest paths memo = .ok (found, after) ∧
      store.Listed field uuid found ∧ store.Remembers field after := by
  induction rest generalizing handled paths memo with
  | nil =>
      rw [List.append_nil] at whole
      refine ⟨paths, memo, rfl, ?_, remembers⟩
      change store.Gathered field (store.places field uuid) paths
      rw [← whole]
      exact gathered
  | cons place rest ih =>
      have allPlaced : ∀ other ∈ place :: handled, store.PlacedAt field uuid other.1 other.2 := by
        intro other held
        refine indexed.mem_places.mp ?_
        rw [← whole, List.mem_append, List.mem_cons]
        cases List.mem_cons.mp held with
        | inl isPlace => exact .inr (.inl isPlace)
        | inr before => exact .inl before
      have fresh : place ∉ handled := by
        have once := indexed.nodup_places field uuid
        rw [← whole] at once
        intro held
        exact List.disjoint_of_nodup_append once held List.mem_cons_self
      have shifted : (handled ++ [place]) ++ rest = store.places field uuid := by
        rw [List.append_assoc]
        exact whole
      have goOn {further : List TreePath} (added : store.Gathered field [place] further)
          {memo : PathMemo} (remembers : store.Remembers field memo) :
          ∃ found after, (if maxPaths ≤ (paths ++ further).length then
              pure (paths ++ further, memo)
            else gatherPaths within rest (paths ++ further) memo) = .ok (found, after) ∧
            store.Listed field uuid found ∧ store.Remembers field after := by
        have joined := gathered.append indexed forest added allPlaced fresh
        split
        · next many =>
            refine ⟨_, memo, rfl, ?_, remembers⟩
            rw [Listed, ← shifted]
            exact joined.enough many
        · exact ih shifted joined remembers
      obtain ⟨parent, name⟩ := place
      cases parent with
      | none => exact goOn .root remembers
      | some parent =>
          obtain ⟨row, holds, named, position⟩ := allPlaced _ List.mem_cons_self
          obtain ⟨listed, after, ran, isListed, kept⟩ :=
            above parent ⟨row, name, holds, named, position⟩ memo remembers
          rw [gatherPaths, ran]
          exact goOn (.under indexed isListed) kept

/-- Within the depth allowed, the paths of a metarecord are found. -/
theorem pathsWithin_spec (indexed : store.Indexed) (forest : store.NamedForest field)
    {levels : Nat} (room : ∀ n top, Climbs (store.Up field) n uuid top → n < levels)
    (memo : PathMemo) (remembers : store.Remembers field memo) :
    ∃ paths after, store.pathsWithin field levels uuid memo = .ok (paths, after) ∧
      store.Listed field uuid paths ∧ store.Remembers field after := by
  induction levels generalizing uuid memo with
  | zero => exact absurd (room 0 uuid rfl) (Nat.lt_irrefl 0)
  | succ levels ih =>
      rw [pathsWithin]
      cases known : memo uuid with
      | some paths => exact ⟨paths, memo, rfl, remembers uuid paths known, remembers⟩
      | none =>
          obtain ⟨paths, after, ran, listed, kept⟩ :=
            gatherPaths_spec indexed forest uuid (store.pathsWithin field levels)
              (by
                intro parent up memo remembers
                refine ih ?_ memo remembers
                intro n top climbs
                have := room (n + 1) top ⟨parent, up, climbs⟩
                omega)
              (List.nil_append _) .nil remembers
          refine ⟨paths, Function.update after uuid (some paths), ?_, listed, ?_⟩
          · simp only
            rw [ran]
            rfl
          · intro other found held
            by_cases same : other = uuid
            · subst same
              rw [Function.update_self] at held
              cases held
              exact listed
            · rw [Function.update_of_ne same] at held
              exact kept other found held

/-- The paths of a metarecord are its chains joined: each once, and all of them unless as many as
are kept are listed. -/
theorem pathsOf_spec (indexed : store.Indexed) (forest : store.NamedForest field) (uuid : Uuid) :
    ∃ paths, store.pathsOf field uuid = .ok paths ∧ paths.Nodup ∧ paths.length ≤ maxPaths ∧
      (∀ path ∈ paths, ∃ names, store.Chain field uuid names ∧ path = TreePath.ofNames names) ∧
      ((∀ names, store.Chain field uuid names → TreePath.ofNames names ∈ paths) ∨
        paths.length = maxPaths) := by
  obtain ⟨paths, after, ran, listed, -⟩ :=
    pathsWithin_spec indexed forest (fun _ top (climbs : Climbs (store.Up field) _ uuid top) =>
      forest.bounded climbs) (fun _ => none) (by intro other found held; cases held)
  refine ⟨paths.take maxPaths, by rw [pathsOf, ran]; rfl, listed.nodup.sublist (List.take_sublist ..),
    List.length_take_le .., ?_, ?_⟩
  · intro path held
    obtain ⟨place, isPlace, names, ends, isPath⟩ := listed.sound path (List.mem_of_mem_take held)
    exact ⟨names, ends.chain (indexed.mem_places.mp isPlace), isPath⟩
  · by_cases many : maxPaths ≤ paths.length
    · right
      rw [List.length_take, Nat.min_eq_left many]
    · left
      intro names chain
      rw [List.take_of_length_le (by omega)]
      obtain ⟨place, placed, ends⟩ := chain.ends
      exact listed.complete.resolve_right many place (indexed.mem_places.mpr placed) names ends

end Listed

/-! ### What a path resolves to -/

section Answered

variable [Externals] {store : Primary} {field : String} {caseInsensitive : Bool}

/-- A name of a path is read as one held: the same bytes or, case left out, a text that folds to the
same. -/
def ReadAs (caseInsensitive : Bool) (name held : TreeName) : Prop :=
  held = name ∨ caseInsensitive = true ∧ name.isExact = true ∧
    Externals.toLowercase held.display = Externals.toLowercase name.display

/-- Without case folding, a name is read as itself only. -/
theorem readAs_false {name held : TreeName} : ReadAs false name held ↔ held = name := by
  simp [ReadAs]

/-- A name answered is that of a position under the parent. -/
theorem Indexed.childExact_spec (indexed : store.Indexed) {parent : Option Uuid} {name : TreeName}
    {child : Uuid} (ran : store.childExact caseInsensitive field parent name = .ok (some child)) :
    ∃ above held, store.PlacedAt field child above held ∧
      above.getD Uuid.zero = parent.getD Uuid.zero ∧ ReadAs caseInsensitive name held := by
  rw [childExact, Except.bind_eq_ok] at ran
  obtain ⟨found, byBytes, chosen⟩ := ran
  cases found with
  | some exact =>
      cases chosen
      obtain ⟨row, above, holds, named, position, under⟩ := indexed.childByBytes_spec byBytes
      exact ⟨above, name, ⟨row, holds, named, position⟩, under, .inl rfl⟩
  | none =>
      simp only [Bool.and_eq_true] at chosen
      split at chosen
      · next folds =>
          rw [childByText, Except.bind_eq_ok] at chosen
          obtain ⟨children, read, first⟩ := chosen
          rw [Except.pure_eq_ok, Option.map_eq_some_iff] at first
          obtain ⟨⟨uuid, held, id⟩, found, rfl⟩ := first
          have alike := List.find?_some found
          obtain ⟨row, above, holds, named, position, under⟩ :=
            indexed.mem_children read (List.mem_of_find?_eq_some found)
          exact ⟨above, held, ⟨row, holds, named, position⟩, under,
            .inr ⟨folds.1, folds.2, of_decide_eq_true alike⟩⟩
      · cases chosen

omit [Externals] in
/-- The zero uuid is above nothing. -/
theorem NamedForest.above_ne_zero (forest : store.NamedForest field) {uuid above : Uuid}
    {name : TreeName} (placed : store.PlacedAt field uuid (some above) name) :
    above ≠ Uuid.zero := by
  obtain ⟨row, holds, named, position⟩ := placed
  obtain ⟨-, upper, upperHolds, upperNamed, isPlaced⟩ :=
    forest.wellFormed.parent_placed ⟨row, name, holds, named, position⟩
  obtain ⟨⟨parent, node⟩, place⟩ := Option.isSome_iff_exists.mp isPlaced
  exact forest.real ⟨upper, upperHolds, upperNamed, place⟩

/-- What the names of a path led to so far. -/
def Stood (store : Primary) (field : String) : Option Uuid → List TreeName → Prop
  | none, names => names = []
  | some uuid, names => store.Chain field uuid names

theorem Stood.child (indexed : store.Indexed) (forest : store.NamedForest field)
    {parent : Option Uuid} {names : List TreeName} (stood : store.Stood field parent names)
    {name : TreeName} {child : Uuid}
    (ran : store.childExact caseInsensitive field parent name = .ok (some child)) :
    ∃ held, ReadAs caseInsensitive name held ∧
      store.Stood field (some child) (names ++ [held]) := by
  obtain ⟨above, held, placed, same, read⟩ := indexed.childExact_spec ran
  refine ⟨held, read, ?_⟩
  cases parent with
  | none =>
      rw [Stood] at stood
      subst stood
      cases above with
      | none => exact .root placed
      | some above => exact absurd same (forest.above_ne_zero placed)
  | some parent =>
      cases above with
      | none =>
          obtain ⟨place, isPlaced, -⟩ := Chain.ends stood
          exact absurd same.symm (forest.real isPlaced)
      | some above =>
          rw [Option.getD_some, Option.getD_some] at same
          subst same
          exact .under placed stood

/-- Names resolved are read as those of a chain. -/
theorem Stood.resolveNames (indexed : store.Indexed) (forest : store.NamedForest field)
    {found : Option Uuid} {before given : List TreeName} (stood : store.Stood field found before)
    {uuid : Uuid}
    (ran : store.resolveNames caseInsensitive field found given = .ok (some uuid)) :
    ∃ held, List.Forall₂ (ReadAs caseInsensitive) given held ∧
      store.Chain field uuid (before ++ held) := by
  induction given generalizing found before with
  | nil =>
      rw [Primary.resolveNames, Except.pure_eq_ok] at ran
      subst ran
      rw [← List.append_nil before] at stood
      exact ⟨[], .nil, stood⟩
  | cons name given ih =>
      rw [Primary.resolveNames, Except.bind_eq_ok] at ran
      obtain ⟨child, here, further⟩ := ran
      cases child with
      | none => cases further
      | some child =>
          obtain ⟨held, read, reached⟩ := stood.child indexed forest here
          obtain ⟨names, readRest, chain⟩ := ih reached further
          rw [List.append_assoc] at chain
          exact ⟨held :: names, .cons read readRest, chain⟩

/-- The names of a path answered, its redundant slashes left out, are read as those of a chain. -/
theorem chain_of_resolveExact (indexed : store.Indexed) (forest : store.NamedForest field)
    {path : TreePath} {uuid : Uuid}
    (ran : store.resolveExact caseInsensitive field path = .ok (some uuid)) :
    ∃ names, store.Chain field uuid names ∧
      List.Forall₂ (ReadAs caseInsensitive) (lookedUp path.names) names := by
  have stood : store.Stood field none [] := rfl
  obtain ⟨names, read, chain⟩ := stood.resolveNames indexed forest ran
  exact ⟨names, chain, read⟩

end Answered

/-! ### Paths and lookups -/

section Meeting

variable [Externals] {store : Primary} {field : String}

/-- What `paths_of` lists and what `resolve_exact` answers are the same chains: a path listed is
resolved to its node, each chain is listed once unless `maxPaths` are, and the names of a path that
is resolved are those of a chain, up to redundant slashes and folding. -/
theorem paths_resolved (indexed : store.Indexed) (forest : store.NamedForest field) (uuid : Uuid) :
    ∃ paths, store.pathsOf field uuid = .ok paths ∧
      (∀ path ∈ paths, ∀ caseInsensitive,
        store.resolveExact caseInsensitive field path = .ok (some uuid)) ∧
      paths.Nodup ∧ paths.length ≤ maxPaths ∧
      (∀ path ∈ paths, ∃ names, store.Chain field uuid names ∧ path = TreePath.ofNames names) ∧
      ((∀ names, store.Chain field uuid names → TreePath.ofNames names ∈ paths) ∨
        paths.length = maxPaths) ∧
      ∀ caseInsensitive path, store.resolveExact caseInsensitive field path = .ok (some uuid) →
        ∃ names, store.Chain field uuid names ∧
          List.Forall₂ (ReadAs caseInsensitive) (lookedUp path.names) names := by
  obtain ⟨paths, ran, nodup, few, sound, complete⟩ := pathsOf_spec indexed forest uuid
  refine ⟨paths, ran, ?_, nodup, few, sound, complete, ?_⟩
  · intro path listed caseInsensitive
    obtain ⟨names, chain, rfl⟩ := sound path listed
    exact chain.resolveExact_eq indexed forest caseInsensitive
  · intro caseInsensitive path resolved
    exact chain_of_resolveExact indexed forest resolved

end Meeting

/-- Whether the positions of a field have names and parents as a `NamedForest` has, on ways up that
each lower a rank. -/
def ranked (store : Primary) (rank : Uuid → Nat) (field : String) : Bool :=
  store.forest.entries.all fun entry =>
    entry.2.1 ≠ Uuid.zero && rank entry.2.1 < maxTreeDepth &&
      (store.places field entry.2.1).all fun place =>
        place.2.isComponent place.1.isNone &&
          place.1.all fun parent => rank parent < rank entry.2.1

theorem NamedForest.of_ranked [Externals] {store : Primary} {field : String} {rank : Uuid → Nat}
    (indexed : store.Indexed) (wellFormed : store.WellFormedForest field)
    (checked : store.ranked rank field = true) : store.NamedForest field := by
  have each {uuid : Uuid} {parent : Option Uuid} {name : TreeName}
      (placed : store.PlacedAt field uuid parent name) :
      (uuid ≠ Uuid.zero ∧ rank uuid < maxTreeDepth) ∧ name.isComponent parent.isNone = true ∧
        parent.all fun parent => rank parent < rank uuid := by
    obtain ⟨row, holds, named, position⟩ := placed
    have entry := indexed.forest_iff.mpr ⟨row, holds, rfl, by rw [forestKey, position]; rfl⟩
    have here := List.all_eq_true.mp checked _ ((Table.mem_entries ..).mpr entry)
    rw [Bool.and_eq_true, Bool.and_eq_true, List.all_eq_true] at here
    have place := here.2 (parent, name) (indexed.mem_places.mpr ⟨row, holds, named, position⟩)
    rw [Bool.and_eq_true] at place
    exact ⟨⟨of_decide_eq_true here.1.1, of_decide_eq_true here.1.2⟩, place⟩
  have lowered {uuid parent : Uuid} (up : store.Up field uuid parent) :
      rank parent < rank uuid ∧ rank uuid < maxTreeDepth := by
    obtain ⟨row, name, placed⟩ := up
    have here := each ⟨row, placed⟩
    exact ⟨of_decide_eq_true here.2.2, here.1.2⟩
  refine ⟨wellFormed, ?_, fun placed => (each placed).2.1, fun placed => (each placed).1.1⟩
  intro n bottom top climbs
  have within {n : Nat} {bottom : Uuid} (climbs : Climbs (store.Up field) n bottom top) :
      rank top + n ≤ rank bottom := by
    induction n generalizing bottom with
    | zero =>
        rw [Climbs] at climbs
        rw [climbs, Nat.add_zero]
    | succ n ih =>
        obtain ⟨parent, up, further⟩ := climbs
        have := ih further
        have := (lowered up).1
        omega
  cases n with
  | zero => decide
  | succ n =>
      obtain ⟨parent, up, further⟩ := climbs
      have := within further
      have := lowered up
      omega

/-! ### Runs -/

end Primary

open Primary

/-- The forest of `samplePlaces`: `a` above `c`, above `b`. -/
theorem samplePlaces_ranked : (fun store : KvStore => store.tx.primary.ranked
    (fun uuid => if uuid = sampleUuids 1 then 0 else if uuid = sampleUuids 3 then 1 else 2)
      "in") <$> @Transaction.run plainExternals samplePlaces {} = .ok true := by
  decide +kernel

theorem samplePlaces_manual : samplePlaces.Manual := by
  intro made member
  simp only [samplePlaces, List.mem_cons, List.not_mem_nil, or_false] at member
  rcases member with rfl | rfl | rfl | rfl <;> simp [Writer.Call.opTypes, OpType.isManual]

theorem paths_resolved_places : ∃ store paths,
    @Transaction.run plainExternals samplePlaces {} = .ok store ∧
      store.tx.primary.pathsOf "in" (sampleUuids 2) = .ok paths ∧
      ∀ path ∈ paths, ∀ caseInsensitive, @resolveExact plainExternals store.tx.primary
        caseInsensitive "in" path = .ok (some (sampleUuids 2)) := by
  let _ : Externals := plainExternals
  obtain ⟨store, ran, checked⟩ := Except.map_eq_ok.mp samplePlaces_ranked
  have reached : Reachable Transaction.Manual store :=
    .commit samplePlaces .new samplePlaces_manual ran
  obtain ⟨steps, history, -⟩ := reached.history
  have forest := NamedForest.of_ranked history.consistent.toIndexed
    (forests_well_formed reached "in") checked
  obtain ⟨paths, listed, resolved, -⟩ :=
    paths_resolved history.consistent.toIndexed forest (sampleUuids 2)
  exact ⟨store, paths, ran, listed, resolved⟩

/-- A node of a hierarchy, under earlier ones; 0 for no parent. -/
def latticeNode (node : UInt8) (parents : List UInt8) : Writer.Call :=
  .createMetarecord (sampleUuids node)
    (parents.map fun parent => ⟨"in", .hierarchyRef
      (if parent = 0 then none else some (sampleUuids parent)) ⟨[96 + node]⟩⟩)

/-- A write of eleven nodes, each under the two before it, and one node more under the last three. -/
def sampleLattice : Transaction where
  context := .new ⟨"lattice", none, none⟩
  retention := .unlimited
  timestamp := 9
  calls := latticeNode 1 [0] :: ([2, 3, 4, 5, 6, 7, 8, 9, 10, 11].map fun node =>
    latticeNode node [node - 1, node - 2]) ++ [latticeNode 12 [11, 10, 9]]

/-- `a//b`. -/
def sampleDoubled : TreePath := [97, 47, 47, 98]

/-- `a/c/e/g/i/l`. -/
def sampleLast : TreePath := [97, 47, 99, 47, 101, 47, 103, 47, 105, 47, 108]

theorem sampleLattice_run : (fun store : KvStore => decide
    (store.tx.primary.ranked (fun uuid => (uuid.bytes.headD 0).toNat) "in" ∧
      @resolveExact plainExternals store.tx.primary false "in" sampleDoubled =
        .ok (some (sampleUuids 2)) ∧
      @resolveExact plainExternals store.tx.primary false "in" sampleLast =
        .ok (some (sampleUuids 12)) ∧
      (fun paths => decide (sampleDoubled ∈ paths)) <$>
        store.tx.primary.pathsOf "in" (sampleUuids 2) = .ok false ∧
      (fun paths => decide (sampleLast ∈ paths)) <$>
        store.tx.primary.pathsOf "in" (sampleUuids 12) = .ok false)) <$>
    @Transaction.run plainExternals sampleLattice {} = .ok true := by
  decide +kernel

theorem sampleLattice_manual : sampleLattice.Manual := by
  intro made member
  have isNode : ∃ node parents, made = latticeNode node parents := by
    rcases List.mem_append.mp member with earlier | last
    · rcases List.mem_cons.mp earlier with first | between
      · exact ⟨1, [0], first⟩
      · obtain ⟨node, -, same⟩ := List.mem_map.mp between
        exact ⟨node, [node - 1, node - 2], same.symm⟩
    · exact ⟨12, [11, 10, 9], List.mem_singleton.mp last⟩
  obtain ⟨node, parents, rfl⟩ := isNode
  simp [latticeNode, Writer.Call.opTypes, OpType.isManual]

/-- A path resolved need not be listed: it may have a redundant slash, and a node may have more
chains than are kept. -/
theorem paths_resolved_not_listed : ∃ store,
    @Transaction.run plainExternals sampleLattice {} = .ok store ∧
      store.tx.primary.NamedForest "in" ∧
      (∃ paths, store.tx.primary.pathsOf "in" (sampleUuids 2) = .ok paths ∧
        @resolveExact plainExternals store.tx.primary false "in" sampleDoubled =
          .ok (some (sampleUuids 2)) ∧ sampleDoubled ∉ paths) ∧
      ∃ paths names, store.tx.primary.pathsOf "in" (sampleUuids 12) = .ok paths ∧
        store.tx.primary.Chain "in" (sampleUuids 12) names ∧ TreePath.ofNames names ∉ paths := by
  let _ : Externals := plainExternals
  obtain ⟨store, ran, checks⟩ := Except.map_eq_ok.mp sampleLattice_run
  simp only [decide_eq_true_iff, Except.map_eq_ok, decide_eq_false_iff_not] at checks
  obtain ⟨checked, doubled, last, ⟨few, listedFew, notDoubled⟩, paths, listed, notLast⟩ := checks
  have reached : Reachable Transaction.Manual store :=
    .commit sampleLattice .new sampleLattice_manual ran
  obtain ⟨steps, history, -⟩ := reached.history
  have forest := NamedForest.of_ranked history.consistent.toIndexed
    (forests_well_formed reached "in") checked
  obtain ⟨names, chain, read⟩ := chain_of_resolveExact history.consistent.toIndexed forest last
  have same : lookedUp sampleLast.names = names := by
    rw [← List.forall₂_eq_eq_eq]
    exact read.imp fun name held here => (readAs_false.mp here).symm
  have joined : TreePath.ofNames (lookedUp sampleLast.names) = sampleLast := by decide
  rw [same] at joined
  rw [← joined] at notLast
  exact ⟨store, ran, forest, ⟨few, listedFew, doubled, notDoubled⟩, paths, names, listed, chain,
    notLast⟩

end Metafolder
