import Metafolder.Primary
import Mathlib.Data.Finset.Basic
import Mathlib.Data.Finset.Card
import Mathlib.Data.Finset.SDiff
import Mathlib.Data.List.Dedup

/-!
# The derived key spaces

What the query source reads is derived from the rows and kept beside them: dense ids, sets of dense
ids, three ordered partitions of each field's values, the forest by parent, and the trigrams of the
texts.  Each row change patches them in its own transaction.  A set is cut in chunks in the store;
here it is one finite set under its key without the chunk, and the empty set has no entry.
-/

namespace Metafolder

/-- `MAX_TREE_DEPTH`. -/
def maxTreeDepth : Nat := 1000

/-- `POSTING_MIN`: how many holders promote a value to a posting. -/
def postingMin : Nat := 64

/-- `TRIGRAM_MAX`: the longest text split in trigrams. -/
def trigramMax : Nat := 512

/-- `TEXT_MAX`: the longest escaped text a key holds whole. -/
def textMax : Nat := 256

/-! ### Set kinds and partitions -/

/-- `UNIVERSE`. -/
def universeKind : UInt8 := 0

/-- `PRESENT`: the ids holding a value of a field. -/
def presentKind : UInt8 := 1

/-- `ABSENT`: the ids holding a `Nothing`. -/
def absentKind : UInt8 := 2

/-- `PARENTS`: the ids with a child in a forest. -/
def parentsKind : UInt8 := 3

/-- `LONG_TEXTS`: the ids holding a text too long to be split. -/
def longTextsKind : UInt8 := 4

/-- `REFERRERS`: the ids pointing at a uuid. -/
def referrersKind : UInt8 := 5

/-- `DESCENDANTS`: the ids below a node. -/
def descendantsKind : UInt8 := 6

/-- `POSTINGS`: the holders of a frequent value. -/
def postingsKind : UInt8 := 7

/-- `MULTI`: the ids holding several values. -/
def multiKind : UInt8 := 8

/-- `VALUE`: the partition by value. -/
def valuePart : UInt8 := 0

/-- `NAME`: the partition by node name. -/
def namePart : UInt8 := 1

/-- `TARGET`: the partition by the uuid pointed at. -/
def targetPart : UInt8 := 2

/-! ### Keys -/

/-- A dense id as four bytes. -/
def be32 (id : UInt32) : Bytes := ByteCode.bigEndian 4 id.toNat

/-- `dense`: the dense id in the first four bytes. -/
def dense (bytes : Bytes) : UInt32 := UInt32.ofNat (ByteCode.ofBigEndian (bytes.take 4))

/-- `SIGN`. -/
def signBit : UInt64 := 0x8000000000000000

/-- `num_key`: a float as an order-preserving number. -/
def numKey (f : F64) : UInt64 :=
  let bits := if f.isZero then 0 else f.bits
  if bits.toNat < 2 ^ 63 then bits ^^^ signBit else ~~~bits

/-- `dt_key`: a date as an order-preserving number. -/
def dtKey (ms : Int64) : UInt64 := ms.toUInt64 ^^^ signBit

/-- A number as eight bytes. -/
def be64 (n : UInt64) : Bytes := ByteCode.bigEndian 8 n.toNat

/-- The front of a text whose escaped form fits in `room` bytes, escaped. -/
def cutText : Nat → Bytes → Bytes
  | _, [] => []
  | room, byte :: rest =>
      let escaped := if byte = 0 then [0, 0xFF] else [byte]
      if room < escaped.length then [] else escaped ++ cutText (room - escaped.length) rest

/-- `text_key`: a text in a partition key, escaped whole, or cut and hashed. -/
def textKey [Externals] (bytes : Bytes) : Bytes :=
  let whole := ByteCode.terminated bytes
  if whole.length ≤ textMax + 2 then whole
  else cutText textMax bytes ++ [0, 1] ++ be64 (Externals.xxh3 bytes)

/-- `value_key`: the key a value sorts by in the value partition. -/
def valueKey [Externals] : Value → Option Bytes
  | .nothing => none
  | .bool b => some [0, if b then 1 else 0]
  | .int n => some (1 :: be64 (numKey (F64.ofInt n.toInt)))
  | .float f => some (1 :: be64 (numKey f))
  | .string text => some (2 :: textKey text.asBytes)
  | .dateTime ms => some (3 :: be64 (dtKey ms))
  | .ref uuid => some (4 :: uuid.bytes)
  | .refBase uuid => some (5 :: uuid.bytes)
  | .externalRef repo metarecord => some (6 :: metarecord.bytes ++ repo.bytes)
  | .treeRef parent name => some (7 :: (parent.getD Uuid.zero).bytes ++ textKey name.bytes)
  | .hierarchyRef parent name => some (8 :: (parent.getD Uuid.zero).bytes ++ textKey name.bytes)

/-- `name_part_key`: the key of a position in the name partition. -/
def namePartKey [Externals] (value : Value) : Option Bytes :=
  value.position.map fun held => textKey held.2.display.asBytes

/-- `target_of`: the uuid a value points at, the zero uuid for a root. -/
def targetOf : Value → Option Uuid
  | .ref uuid => some uuid
  | value => value.position.map fun held => held.1.getD Uuid.zero

/-- `search_text`: the text a value offers the text searches. -/
def searchText [Externals] : Value → Option String
  | .string text => some (Externals.toLowercase text)
  | .treeRef _ name => some (Externals.toLowercase name.display)
  | .hierarchyRef _ name => some (Externals.toLowercase name.display)
  | _ => none

/-- The windows of three bytes of a byte string, in order. -/
def windows : Bytes → List Bytes
  | first :: second :: third :: rest => [first, second, third] :: windows (second :: third :: rest)
  | _ => []

/-- `trigrams`: the distinct trigrams of a lower-cased text. -/
def trigrams (lower : String) : List Bytes := (windows lower.asBytes).dedup

/-- Whether a text is short enough to be split in trigrams. -/
def isSplit (text : String) : Bool := text.asBytes.length ≤ trigramMax

/-- `set_prefix`: the key of a set without its chunk. -/
def setPrefix (kind : UInt8) (field : Option String) : Bytes :=
  kind :: (field.map nameKey).getD []

/-- `posting_prefix`. -/
def postingPrefix (field : String) (key : Bytes) : Bytes := postingsKind :: nameKey field ++ key

/-- `descendants_prefix`. -/
def descendantsPrefix (field : String) (node : Uuid) : Bytes :=
  descendantsKind :: nameKey field ++ node.bytes

/-- `referrers_prefix`. -/
def referrersPrefix (field : String) (target : Uuid) : Bytes :=
  referrersKind :: nameKey field ++ target.bytes

/-- `gram_prefix`. -/
def gramPrefix (field : String) (gram : Bytes) : Bytes := nameKey field ++ gram

/-- `part_prefix`. -/
def partPrefix (field : String) (part : UInt8) : Bytes := nameKey field ++ [part]

/-- `part_key`. -/
def partKey (field : String) (part : UInt8) (key : Bytes) (id : UInt32) : Bytes :=
  partPrefix field part ++ key ++ be32 id

/-- The front of the keys of the rows under a parent in a field. -/
def kidsPrefix (parent : Uuid) (field : String) : Bytes := parent.bytes ++ nameKey field

/-- `kids_key`. -/
def kidsKey (parent : Uuid) (field : String) (id : UInt32) : Bytes :=
  kidsPrefix parent field ++ be32 id

/-- The derived tables. -/
structure Derived where
  /-- The next dense id. -/
  nextId : Int64 := 1
  /-- The dense id of each metarecord. -/
  ids : Table UInt32 := ∅
  /-- The metarecord of each dense id. -/
  uuids : Table Uuid := ∅
  /-- The sets of dense ids, by kind, field and key. -/
  sets : Table (Finset UInt32) := ∅
  /-- The rows of each dense id in each partition, counted. -/
  parts : Table Int64 := ∅
  /-- The rows of each dense id under each parent, counted. -/
  kids : Table Int64 := ∅
  /-- The ids holding each trigram, by field. -/
  grams : Table (Finset UInt32) := ∅

namespace Derived

/-! ### Chunked sets and counts -/

/-- `read_chunked`: a whole set. -/
def readSet (table : Table (Finset UInt32)) (key : Bytes) : Finset UInt32 :=
  (table.get key).getD ∅

/-- Replace a set; the empty one has no entry. -/
def writeSet (table : Table (Finset UInt32)) (key : Bytes) (ids : Finset UInt32) :
    Table (Finset UInt32) :=
  if ids = ∅ then table.delete key else table.put key ids

/-- `chunk_member`: an id joins a set, or leaves it. -/
def chunkMember (table : Table (Finset UInt32)) (key : Bytes) (id : UInt32) (member : Bool) :
    Table (Finset UInt32) :=
  writeSet table key (if member then insert id (readSet table key) else (readSet table key).erase id)

/-- `chunk_apply`: ids join a set, or leave it. -/
def chunkApply (table : Table (Finset UInt32)) (key : Bytes) (ids : Finset UInt32) (add : Bool) :
    Table (Finset UInt32) :=
  writeSet table key (if add then readSet table key ∪ ids else readSet table key \ ids)

/-- `bump`: a row count is `delta` more, and has no entry at zero. -/
def bump (table : Table Int64) (key : Bytes) (delta : Int64) : Outcome (Table Int64) := do
  let n ← addInt64 ((table.get key).getD 0) delta
  pure (if n ≤ 0 then table.delete key else table.put key n)

/-- `set_member`. -/
def setMember (derived : Derived) (kind : UInt8) (field : Option String) (id : UInt32)
    (member : Bool) : Derived :=
  { derived with sets := chunkMember derived.sets (setPrefix kind field) id member }

/-! ### Reading -/

/-- The dense id of a metarecord. -/
def id (derived : Derived) (uuid : Uuid) : Option UInt32 := derived.ids.get uuid.bytes

/-- `value_holders`: the holders of a value key in a field's value partition. -/
def valueHolders (derived : Derived) (field : String) (key : Bytes) : Finset UInt32 :=
  let front := partPrefix field valuePart ++ key
  ((derived.parts.prefixIter front).map fun entry => dense (entry.1.drop front.length)).toFinset

/-- `has_kids`: whether a row of a field still has this parent. -/
def hasKids (derived : Derived) (parent : Uuid) (field : String) : Bool :=
  derived.kids.prefixIter (kidsPrefix parent field) ≠ []

/-- `parent_fields`: the fields in which a metarecord has children. -/
def parentFields (derived : Derived) (uuid : Uuid) : Outcome (List String) := do
  let names ← (derived.kids.prefixIter uuid.bytes).mapM fun entry => do
    let (field, _) ← context (ByteCode.unterminated (entry.1.drop 16)) "an unterminated key string"
    textOf field
  pure names.dedup

/-- `children_of`: the nodes placed directly under `parent`, with their ids. -/
def childrenOf (derived : Derived) (field : String) (parent : Uuid) :
    Outcome (List (Uuid × UInt32)) :=
  let front := kidsPrefix parent field
  (derived.kids.prefixIter front).mapM fun entry => do
    let child := dense (entry.1.drop front.length)
    let uuid ← context (derived.uuids.get (be32 child)) "a kid without a uuid"
    pure (uuid, child)

/-! ### Metarecords -/

/-- `derive_created`: a metarecord gets the next dense id. -/
def deriveCreated (derived : Derived) (uuid : Uuid) : Outcome Derived := do
  let bumped ← addInt64 derived.nextId 1
  refuseIf (¬(0 ≤ derived.nextId.toInt ∧ derived.nextId.toInt < 2 ^ 32))
    (.internal "dense ids exhausted")
  let id := UInt32.ofNat derived.nextId.toInt.toNat
  let mapped : Derived :=
    { derived with
      nextId := bumped
      ids := derived.ids.put uuid.bytes id
      uuids := derived.uuids.put (be32 id) uuid }
  let joined := mapped.setMember universeKind none id true
  let fields ← joined.parentFields uuid
  pure (fields.foldl (fun held field => held.setMember parentsKind (some field) id true) joined)

/-- `derive_removed`: a metarecord's dense id leaves everything. -/
def deriveRemoved (derived : Derived) (uuid : Uuid) : Outcome Derived :=
  match derived.id uuid with
  | none => pure derived
  | some id => do
      let unmapped : Derived :=
        { derived with
          ids := derived.ids.delete uuid.bytes
          uuids := derived.uuids.delete (be32 id) }
      let left := unmapped.setMember universeKind none id false
      let fields ← left.parentFields uuid
      pure (fields.foldl (fun held field => held.setMember parentsKind (some field) id false) left)

/-! ### Forests -/

/-- `hierarchy_ancestors`, its loop: what is above the nodes to visit joins `seen`. -/
def hierarchyAncestorsLoop (store : Primary) (field : String) :
    Nat → List Uuid → List Uuid → List Uuid
  | 0, _, seen => seen
  | _ + 1, [], seen => seen
  | fuel + 1, node :: todo, seen =>
      let step (held : List Uuid × List Uuid) (row : FieldRow) : List Uuid × List Uuid :=
        match row.value with
        | .hierarchyRef (some parent) _ =>
            if parent ∈ held.2 then held else (parent :: held.1, parent :: held.2)
        | _ => held
      let visited := (store.rowsNamed node field).foldl step (todo, seen)
      hierarchyAncestorsLoop store field fuel visited.1 visited.2

/-- `hierarchy_ancestors`: a node and every node above it, by every parent, each once.  A visit
meets a node for the first time through a row, so the rows are fuel enough. -/
def hierarchyAncestors (store : Primary) (field : String) (node : Uuid) : List Uuid :=
  hierarchyAncestorsLoop store field (store.cells.entries.length + 1) [node] [node]

/-- `reachable_below`, its loop. -/
def reachableBelowLoop (derived : Derived) (field : String) (walked : List Uuid) :
    Nat → List Uuid → List Uuid → Finset UInt32 → Outcome (Finset UInt32)
  | 0, _, _, out => pure out
  | _ + 1, [], _, out => pure out
  | fuel + 1, node :: todo, seen, out => do
      let step (held : List Uuid × List Uuid × Finset UInt32) (child : Uuid × UInt32) :
          List Uuid × List Uuid × Finset UInt32 :=
        let met := insert child.2 held.2.2
        if child.1 ∈ held.2.1 then (held.1, held.2.1, met)
        else if child.1 ∈ walked then (child.1 :: held.1, child.1 :: held.2.1, met)
        else
          (held.1, child.1 :: held.2.1,
            met ∪ readSet derived.sets (descendantsPrefix field child.1))
      let children ← derived.childrenOf field node
      let visited := children.foldl step (todo, seen, out)
      reachableBelowLoop derived field walked fuel visited.1 visited.2.1 visited.2.2

/-- `reachable_below`: the ids below a node; a child not to be walked stands with its stored set.
A visit meets a node for the first time through an entry of `kids`. -/
def reachableBelow (derived : Derived) (field : String) (node : Uuid) (walked : List Uuid) :
    Outcome (Finset UInt32) :=
  reachableBelowLoop derived field walked (derived.kids.entries.length + 1) [node] [node] ∅

/-- `derive_hierarchy`: an edge of a hierarchy came or went. -/
def deriveHierarchy (store : Primary) (derived : Derived) (uuid : Uuid) (id : UInt32)
    (field : String) (parent : Uuid) (add : Bool) : Outcome Derived :=
  let ancestors := hierarchyAncestors store field parent
  if add then
    let moving := insert id (readSet derived.sets (descendantsPrefix field uuid))
    pure { derived with
      sets := ancestors.foldl (fun sets ancestor =>
        chunkApply sets (descendantsPrefix field ancestor) moving true) derived.sets }
  else do
    let recomputed ← ancestors.mapM fun ancestor => do
      let now ← derived.reachableBelow field ancestor ancestors
      pure (ancestor, now)
    pure { derived with
      sets := recomputed.foldl (fun sets held =>
        let key := descendantsPrefix field held.1
        let before := readSet sets key
        chunkApply (chunkApply sets key (before \ held.2) false) key (held.2 \ before) true)
        derived.sets }

/-- The parent a node's `tree_ref` row names, if it holds one. -/
def treeParent (store : Primary) (field : String) (node : Uuid) : Option Uuid :=
  (store.rowsNamed node field).findSome? fun row =>
    match row.value with
    | .treeRef parent _ => parent
    | _ => none

/-- `derive_descendants`, its loop up the one chain of a forest. -/
def deriveDescendantsLoop (store : Primary) (field : String) (moving : Finset UInt32)
    (add : Bool) : Nat → Option Uuid → Table (Finset UInt32) → Outcome (Table (Finset UInt32))
  | 0, _, _ => bail s!"a tree deeper than {maxTreeDepth} in '{field}'"
  | _ + 1, none, sets => pure sets
  | fuel + 1, some ancestor, sets =>
      deriveDescendantsLoop store field moving add fuel (treeParent store field ancestor)
        (chunkApply sets (descendantsPrefix field ancestor) moving add)

/-- `derive_descendants`: a position of a forest came or went. -/
def deriveDescendants (store : Primary) (derived : Derived) (uuid : Uuid) (id : UInt32)
    (field : String) (parent : Uuid) (add : Bool) : Outcome Derived := do
  let moving := insert id (readSet derived.sets (descendantsPrefix field uuid))
  let sets ← deriveDescendantsLoop store field moving add maxTreeDepth (some parent) derived.sets
  pure { derived with sets := sets }

/-! ### Rows -/

variable [Externals]

/-- `derive_posting`: an id is in the posting of a value as it is in the value partition. -/
def derivePosting (derived : Derived) (field : String) (key : Bytes) (id : UInt32) : Derived :=
  let front := postingPrefix field key
  let held := (derived.parts.get (partKey field valuePart key id)).isSome
  if readSet derived.sets front ≠ ∅ then
    { derived with sets := chunkMember derived.sets front id held }
  else if held ∧ postingMin ≤ (derived.valueHolders field key).card then
    { derived with sets := chunkApply derived.sets front (derived.valueHolders field key) true }
  else derived

/-- The row's entries in the three partitions, and its value's posting. -/
def deriveParts (derived : Derived) (id : UInt32) (field : String) (value : Value)
    (delta : Int64) : Outcome Derived := do
  let valued ← match valueKey value with
    | some key => do
        let parts ← bump derived.parts (partKey field valuePart key id) delta
        pure ({ derived with parts := parts }.derivePosting field key id)
    | none => pure derived
  let named ← match namePartKey value with
    | some key => bump valued.parts (partKey field namePart key id) delta
    | none => pure valued.parts
  let targeted ← match targetOf value with
    | some target => bump named (partKey field targetPart target.bytes id) delta
    | none => pure named
  pure { valued with parts := targeted }

/-- The row's entry under its parent, and whether that parent still has children. -/
def deriveKids (derived : Derived) (id : UInt32) (field : String) (value : Value)
    (delta : Int64) : Outcome Derived :=
  match value.position with
  | none => pure derived
  | some (parent, _) => do
      let parent := parent.getD Uuid.zero
      let kids ← bump derived.kids (kidsKey parent field id) delta
      let counted := { derived with kids := kids }
      match counted.id parent with
      | some pid =>
          let member := 0 < delta ∨ counted.hasKids parent field
          pure (counted.setMember parentsKind (some field) pid member)
      | none => pure counted

/-- The sets a field of a metarecord is in, read off its remaining rows. -/
def deriveSets (derived : Derived) (rows : List FieldRow) (id : UInt32) (field : String)
    (value : Value) : Derived :=
  let present := rows.any fun row => !row.value.isNothing
  let absent := rows.any fun row => row.value.isNothing
  let valued := (rows.filter fun row => !row.value.isNothing).length
  let kinds := ((derived.setMember presentKind (some field) id present).setMember
    absentKind (some field) id absent).setMember multiKind (some field) id (decide (1 < valued))
  let texts := rows.filterMap fun row => searchText row.value
  let held := (texts.filter isSplit).flatMap trigrams
  let grams := match (searchText value).filter isSplit with
    | some text => (trigrams text).foldl (fun table gram =>
        chunkMember table (gramPrefix field gram) id (decide (gram ∈ held))) kinds.grams
    | none => kinds.grams
  let split := { kinds with grams := grams }
  let long := if (searchText value).isSome then
      split.setMember longTextsKind (some field) id (texts.any fun text => !isSplit text)
    else split
  match targetOf value with
  | some target =>
      { long with
        sets := chunkMember long.sets (referrersPrefix field target) id
          (rows.any fun row => targetOf row.value = some target) }
  | none => long

/-- The descendants of the nodes above a position. -/
def deriveForest (store : Primary) (derived : Derived) (uuid : Uuid) (id : UInt32)
    (field : String) (value : Value) (delta : Int64) : Outcome Derived :=
  match value with
  | .treeRef (some parent) _ =>
      derived.deriveDescendants store uuid id field parent (decide (0 < delta))
  | .hierarchyRef (some parent) _ =>
      derived.deriveHierarchy store uuid id field parent (decide (0 < delta))
  | _ => pure derived

/-- `derive_row`: a row was inserted (`delta` is 1) or deleted (-1); the store is the one after. -/
def deriveRow (store : Primary) (derived : Derived) (uuid : Uuid) (field : String) (value : Value)
    (delta : Int64) : Outcome Derived := do
  let id ← context (derived.id uuid) s!"no dense id for {uuid}"
  let parted ← derived.deriveParts id field value delta
  let placed ← parted.deriveKids id field value delta
  let sorted := placed.deriveSets (store.rowsNamed uuid field) id field value
  sorted.deriveForest store uuid id field value delta

end Derived

end Metafolder
