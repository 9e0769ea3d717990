import Metafolder.Eligibility

/-!
# Looking up the forest

Paths are resolved, and the metarecords under one found, by reading the positions in the tables.  A
path the daemon built itself is resolved by exact bytes; where case does not count in names, a name
that is text may also be found by its folded text.
-/

namespace Metafolder

/-- `is_exact`: whether a name is text. -/
def TreeName.isExact (name : TreeName) : Bool :=
  (String.fromUTF8? ⟨name.bytes.toArray⟩).isSome

namespace Primary

/-- `Rows::metarecord`. -/
def metarecord (store : Primary) (uuid : Uuid) : Option MetaRecord :=
  (store.version uuid).map fun version => ⟨uuid, version, store.rows uuid⟩

/-- `Rows::field_rows`: the rows of a field with their metarecords, in the order of their ids. -/
def fieldRows (store : Primary) (name : String) : Outcome (List (Uuid × FieldRow)) :=
  (store.byField.prefixIter (nameKey name)).mapM fun entry => do
    let key := cellPrefix entry.2 name ++ entry.1.drop (nameKey name).length
    let row ← context (store.cells.get key) "a row the field index names"
    pure (entry.2, row)

/-- `Rows::positions`: a metarecord's positions, their names as text. -/
def positions (store : Primary) (field : String) (uuid : Uuid) : List (Option Uuid × String) :=
  (store.rowsNamed uuid field).filterMap fun row =>
    row.value.position.map fun held => (held.1, held.2.display)

/-- `path_of`, its loop up, after the names passed. -/
def climbPath (store : Primary) (field : String) (uuid : Uuid) :
    Nat → Uuid → List String → Outcome (Option String)
  | 0, _, _ => bail s!"TreeRef chain deeper than {maxTreeDepth} for entry {uuid}"
  | fuel + 1, cursor, names =>
      match (store.positions field cursor).head? with
      | none => pure none
      | some (none, name) => pure (some ("/".intercalate (name :: names)))
      | some (some parent, name) => climbPath store field uuid fuel parent (name :: names)

/-- `path_of`: the path of a metarecord, as text. -/
def pathOf (store : Primary) (field : String) (uuid : Uuid) : Outcome (Option String) :=
  climbPath store field uuid maxTreeDepth uuid []

/-- What a metarecord newly met by `descendants` adds to those met and to those to visit. -/
def meetDescendant (held : List Uuid × List Uuid) (child : Uuid) : List Uuid × List Uuid :=
  if child ∈ held.1 then held else (held.1 ++ [child], child :: held.2)

/-- `descendants`, its loop: the metarecords met, after those met so far. -/
def walkDescendants (store : Primary) (field : String) :
    Nat → List Uuid → List Uuid → Outcome (List Uuid)
  | 0, found, _ => pure found
  | _ + 1, found, [] => pure found
  | fuel + 1, found, node :: frontier => do
      let children ← store.children field node
      let (found, frontier) := (children.map Prod.fst).foldl meetDescendant (found, frontier)
      walkDescendants store field fuel found frontier

/-- `descendants`: the metarecords under one, each once.  A metarecord is visited once, so as many
visits as there are positions are enough. -/
def descendants (store : Primary) (field : String) (uuid : Uuid) : Outcome (List Uuid) :=
  List.drop 1 <$>
    walkDescendants store field (store.forest.entries.length + 1) [uuid] [uuid]

/-- The exact name of a metarecord under a parent, from its rows. -/
def nameUnder (store : Primary) (field : String) (parent child : Uuid) : Option TreeName :=
  (store.rowsNamed child field).findSome? fun row =>
    match row.value with
    | .treeRef (some above) name => if above = parent then some name else none
    | _ => none

variable [Externals]

/-- `child_by_bytes`: the child whose name is exactly these bytes. -/
def childByBytes (store : Primary) (field : String) (parent : Option Uuid) (name : Bytes) :
    Outcome (Option Uuid) :=
  match store.forest.get (nameKey field ++ (parent.getD Uuid.zero).bytes ++ nodeKey name) with
  | none => pure none
  | some held => do
      let found ← store.nodeName field (nodeKey name) held
      pure (if found = name then some held.1 else none)

/-- `child_by_text`, case left out: the first child whose name, as text, folds to the same. -/
def childByText (store : Primary) (field : String) (parent : Uuid) (name : String) :
    Outcome (Option Uuid) := do
  let children ← store.children field parent
  pure ((children.find? fun child =>
    Externals.toLowercase child.2.1.display = Externals.toLowercase name).map Prod.fst)

/-- One component of `resolve_rel`. -/
def childNamed (store : Primary) (caseInsensitive : Bool) (parent : Uuid) (name : TreeName) :
    Outcome (Option Uuid) := do
  match ← store.childByBytes "mfr_path" (some parent) name.bytes with
  | some child => pure (some child)
  | none =>
      if caseInsensitive && name.isExact then
        store.childByText "mfr_path" parent name.display
      else pure none

/-- `resolve_rel`, below a metarecord. -/
def resolveBelow (store : Primary) (caseInsensitive : Bool) :
    Uuid → RelPath → Outcome (Option Uuid)
  | top, [] => pure (some top)
  | top, name :: rest => do
      match ← store.childNamed caseInsensitive top name with
      | none => pure none
      | some child => resolveBelow store caseInsensitive child rest

/-- `resolve_rel`: the metarecord at a path. -/
def resolveRel (store : Primary) (caseInsensitive : Bool) (rel : RelPath) :
    Outcome (Option Uuid) := do
  match ← store.childByBytes "mfr_path" none [] with
  | none => pure none
  | some root => store.resolveBelow caseInsensitive root rel

/-! ### What a lookup finds -/

theorem nodeKey_eq_self {node : Bytes} (short : (nodeKey node).length ≤ nodeMax) :
    nodeKey node = node := by
  unfold nodeKey at short ⊢
  split
  next => rfl
  next long =>
    have cut : nodeMax ≤ node.length := by omega
    rw [if_neg long, List.length_append, List.length_take, min_eq_left cut,
      ByteCode.length_bigEndian] at short
    omega

/-- The name read for a position is the one its row holds. -/
theorem nodeName_eq {store : Primary} {uuid : Uuid} {row : FieldRow} {above : Option Uuid}
    {node : TreeName} (holds : store.Holds uuid row)
    (position : row.value.position = some (above, node))
    {found : Bytes}
    (ran : store.nodeName row.name (nodeKey node.bytes) (uuid, row.id) = .ok found) :
    found = node.bytes := by
  unfold nodeName at ran
  split at ran
  next short =>
    rw [Except.pure_eq_ok] at ran
    rw [← ran, nodeKey_eq_self short]
  next =>
    rw [Holds] at holds
    simp only [holds, context, Except.bind_eq_ok, Except.pure_eq_ok] at ran
    obtain ⟨read, rfl, named⟩ := ran
    rw [position, Except.pure_eq_ok] at named
    exact named.symm

/-- A metarecord listed under another holds a position under it, of that name. -/
theorem Indexed.mem_children {store : Primary} (indexed : store.Indexed) {field : String}
    {parent : Uuid} {children : List (Uuid × TreeName × Int64)}
    (ran : store.children field parent = .ok children) {child : Uuid × TreeName × Int64}
    (member : child ∈ children) :
    ∃ row above, store.Holds child.1 row ∧ row.name = field ∧
      row.value.position = some (above, child.2.1) ∧ above.getD Uuid.zero = parent := by
  obtain ⟨⟨key, uuid, id⟩, listed, made⟩ := Except.mem_of_mapM ran member
  simp only [Except.bind_eq_ok, Except.pure_eq_ok] at made
  obtain ⟨name, named, rfl⟩ := made
  obtain ⟨starts, entry⟩ := (Table.mem_prefixIter ..).mp listed
  obtain ⟨row, holds, rfl, keyed⟩ := indexed.forest_iff.mp entry
  cases held : row.value.position with
  | none => simp [forestKey, held] at keyed
  | some position =>
      obtain ⟨above, node⟩ := position
      simp only [forestKey, held, Option.map_some, Option.some.injEq] at keyed
      obtain ⟨rest, split⟩ := starts
      rw [← keyed, List.append_assoc, List.append_assoc] at split
      obtain ⟨rfl, tails⟩ := nameKey_append_inj split
      obtain ⟨rfl, rfl⟩ := Uuid.bytes_append_inj tails
      rw [← keyed, List.drop_left'] at named
      · have found := nodeName_eq holds held named
        exact ⟨row, above, holds, rfl, by rw [held, found], rfl⟩
      · rfl

/-- A metarecord found by bytes holds a position of that name there. -/
theorem Indexed.childByBytes_spec {store : Primary} (indexed : store.Indexed) {field : String}
    {parent : Option Uuid} {name : Bytes} {child : Uuid}
    (ran : store.childByBytes field parent name = .ok (some child)) :
    ∃ row above, store.Holds child row ∧ row.name = field ∧
      row.value.position = some (above, ⟨name⟩) ∧ above.getD Uuid.zero = parent.getD Uuid.zero := by
  unfold childByBytes at ran
  split at ran
  next => simp at ran
  next held entry =>
    simp only [Except.bind_eq_ok, Except.pure_eq_ok] at ran
    obtain ⟨found, named, chosen⟩ := ran
    split at chosen
    next same =>
      rw [Option.some.injEq] at chosen
      obtain ⟨uuid, id⟩ := held
      subst chosen same
      obtain ⟨row, holds, rfl, keyed⟩ := indexed.forest_iff.mp entry
      cases place : row.value.position with
      | none => simp [forestKey, place] at keyed
      | some position =>
          obtain ⟨above, node⟩ := position
          simp only [forestKey, place, Option.map_some, Option.some.injEq,
            List.append_assoc] at keyed
          obtain ⟨rfl, tails⟩ := nameKey_append_inj keyed
          obtain ⟨parents, nodes⟩ := Uuid.bytes_append_inj tails
          rw [← nodes] at named
          have name_eq := nodeName_eq holds place named
          exact ⟨row, above, holds, rfl, by rw [place, name_eq], parents⟩
    next => simp at chosen

end Primary

end Metafolder
