import Metafolder.Rows
import Metafolder.Table
import Mathlib.Data.List.Sort

/-!
# The primary tables

Six ordered tables hold the metarecords and their rows, together with the counter row ids are
allocated from.  A metarecord's rows of one field are one range of `cells`; `rowOwner` addresses a
row by its id alone, `byField` lists the rows of a field, `fieldTypes` counts the rows of each type
under each field, and `forest` holds one entry per position.  Every write goes through the
primitives below, which patch all of them.
-/

namespace Metafolder

/-- `be`: a number as eight bytes, the most significant first. -/
def be (n : Int64) : Bytes := ByteCode.bigEndian 8 n.toUInt64.toNat

/-- `from_be`: the number in the first eight bytes. -/
def fromBe (bytes : Bytes) : Int64 :=
  (UInt64.ofNat (ByteCode.ofBigEndian (bytes.take 8))).toInt64

/-- `name_key`: a name inside a composite key, escaped, then terminated. -/
def nameKey (name : String) : Bytes := ByteCode.terminated name.asBytes

/-- `cell_prefix`: the front of the keys of a metarecord's rows of one field. -/
def cellPrefix (uuid : Uuid) (field : String) : Bytes := uuid.bytes ++ nameKey field

/-- The key of a row in `cells`. -/
def cellKey (uuid : Uuid) (field : String) (id : Int64) : Bytes := cellPrefix uuid field ++ be id

/-- The key of a row in `by_field`. -/
def fieldKey (field : String) (id : Int64) : Bytes := nameKey field ++ be id

/-- The key of a type of a field in `field_types`. -/
def typeKey (field valueType : String) : Bytes := nameKey field ++ valueType.asBytes

/-- `NODE_MAX`: the longest node name a forest key holds whole. -/
def nodeMax : Nat := 300

/-- `node_key`: a node name in a forest key, cut and hashed when it is long. -/
def nodeKey [Externals] (name : Bytes) : Bytes :=
  if name.length ≤ nodeMax then name
  else name.take nodeMax ++ ByteCode.bigEndian 8 (Externals.xxh3 name).toNat

/-- `forest_key`: the key of a position. -/
def forestKey [Externals] (name : String) (value : Value) : Option Bytes :=
  value.position.map fun held =>
    nameKey name ++ (held.1.getD Uuid.zero).bytes ++ nodeKey held.2.bytes

/-- `String::from_utf8`. -/
def textOf (bytes : Bytes) : Outcome String :=
  context (String.fromUTF8? ⟨bytes.toArray⟩) "invalid utf-8 sequence"

/-- The tables of the primary data. -/
structure Primary where
  /-- The version of each metarecord, by uuid. -/
  metarecords : Table UInt64 := ∅
  /-- The rows, by uuid, field name and row id. -/
  cells : Table FieldRow := ∅
  /-- The uuid and field name of each row, by row id. -/
  rowOwner : Table Bytes := ∅
  /-- The metarecord of each row, by field name and row id. -/
  byField : Table Uuid := ∅
  /-- How many rows there are of each type, by field name and type. -/
  fieldTypes : Table Int64 := ∅
  /-- The metarecord and row of each position, by field name, parent and node name. -/
  forest : Table (Uuid × Int64) := ∅
  /-- The next row id; an absent counter reads as one. -/
  nextRow : Int64 := 1

namespace Primary

/-! ### Reading -/

/-- `Read::version`. -/
def version (store : Primary) (uuid : Uuid) : Option UInt64 := store.metarecords.get uuid.bytes

/-- `Read::rows`: a metarecord's rows, in row-id order. -/
def rows (store : Primary) (uuid : Uuid) : List FieldRow :=
  ((store.cells.prefixIter uuid.bytes).map Prod.snd).insertionSort fun first second =>
    first.id ≤ second.id

/-- `Read::rows_named`: a metarecord's rows of one field. -/
def rowsNamed (store : Primary) (uuid : Uuid) (name : String) : List FieldRow :=
  (store.cells.prefixIter (cellPrefix uuid name)).map Prod.snd

/-- `Read::row`: a row by its id, with its metarecord. -/
def row (store : Primary) (id : Int64) : Option (Uuid × FieldRow) := do
  let front ← store.rowOwner.get (be id)
  let held ← store.cells.get (front ++ be id)
  pure (Uuid.ofBytes front, held)

/-- `Rows::value_types`: the types a field holds, `Nothing` aside. -/
def valueTypes (store : Primary) (name : String) : Outcome (List String) :=
  (store.fieldTypes.prefixIter (nameKey name)).mapM fun entry =>
    textOf (entry.1.drop (nameKey name).length)

/-- `Rows::holders`: the metarecords holding a row of a field, each once. -/
def holders (store : Primary) (name : String) : List Uuid :=
  ((store.byField.prefixIter (nameKey name)).map Prod.snd).eraseDups

/-- `Read::node_name`: a position's name, from its forest key or from its row. -/
def nodeName (store : Primary) (field : String) (keyEnd : Bytes) (held : Uuid × Int64) :
    Outcome Bytes :=
  if keyEnd.length ≤ nodeMax then pure keyEnd
  else do
    let row ← context (store.cells.get (cellKey held.1 field held.2))
      "a forest position without its row"
    match row.value.position with
    | some (_, name) => pure name.bytes
    | none => bail "a forest position whose row is no position"

/-- `Read::children`: the positions directly under `parent`, with their names and row ids. -/
def children (store : Primary) (field : String) (parent : Uuid) :
    Outcome (List (Uuid × TreeName × Int64)) :=
  let front := nameKey field ++ parent.bytes
  (store.forest.prefixIter front).mapM fun entry => do
    let name ← store.nodeName field (entry.1.drop front.length) entry.2
    pure (entry.2.1, ⟨name⟩, entry.2.2)

/-! ### Writing -/

/-- `next` on the row counter: the id it held, moved past it. -/
def next (store : Primary) : Outcome (Int64 × Primary) := do
  let bumped ← addInt64 store.nextRow 1
  pure (store.nextRow, { store with nextRow := bumped })

/-- `bump_past` on the row counter: moved past an id put back. -/
def bumpPast (store : Primary) (id : Int64) : Outcome Primary :=
  if store.nextRow ≤ id then do
    let bumped ← addInt64 id 1
    pure { store with nextRow := bumped }
  else pure store

/-- `count_type`: the rows of a type under a field are `delta` more. -/
def countType (store : Primary) (name : String) (value : Value) (delta : Int64) :
    Outcome Primary :=
  if value.isNothing then pure store
  else do
    let key := typeKey name (encodeValue value).valueType
    let n ← addInt64 ((store.fieldTypes.get key).getD 0) delta
    if n ≤ 0 then pure { store with fieldTypes := store.fieldTypes.delete key }
    else pure { store with fieldTypes := store.fieldTypes.put key n }

/-- `create_metarecord`. -/
def createMetarecord (store : Primary) (uuid : Uuid) (version : UInt64) : Outcome Primary :=
  if (store.metarecords.get uuid.bytes).isSome then bail s!"metarecord {uuid} already exists"
  else pure { store with metarecords := store.metarecords.put uuid.bytes version }

/-- `set_version`. -/
def setVersion (store : Primary) (uuid : Uuid) (version : UInt64) : Primary :=
  if (store.metarecords.get uuid.bytes).isSome then
    { store with metarecords := store.metarecords.put uuid.bytes version }
  else store

/-- A metarecord's entry is taken away, its rows gone already. -/
def dropMetarecord (store : Primary) (uuid : Uuid) : Primary :=
  { store with metarecords := store.metarecords.delete uuid.bytes }

/-- `clear_metarecords`. -/
def clearMetarecords (store : Primary) : Primary :=
  { nextRow := store.nextRow }

variable [Externals]

/-- The id of a row about to be inserted: the next one, or the one it is put back under. -/
def allocate (store : Primary) : Option Int64 → Outcome (Int64 × Primary)
  | some id =>
      if (store.rowOwner.get (be id)).isSome then bail s!"row {id} already exists"
      else do
        let bumped ← store.bumpPast id
        pure (id, bumped)
  | none => store.next

/-- The four tables an inserted row is written to. -/
def putRow (store : Primary) (uuid : Uuid) (row : FieldRow) : Primary :=
  { store with
    cells := store.cells.put (cellKey uuid row.name row.id) row.stored
    rowOwner := store.rowOwner.put (be row.id) (cellPrefix uuid row.name)
    byField := store.byField.put (fieldKey row.name row.id) uuid
    forest :=
      match forestKey row.name row.value with
      | some key => store.forest.put key (uuid, row.id)
      | none => store.forest }

/-- The four tables a deleted row is taken from. -/
def dropRow (store : Primary) (uuid : Uuid) (row : FieldRow) : Primary :=
  { store with
    cells := store.cells.delete (cellKey uuid row.name row.id)
    rowOwner := store.rowOwner.delete (be row.id)
    byField := store.byField.delete (fieldKey row.name row.id)
    forest :=
      match forestKey row.name row.value with
      | some key => store.forest.delete key
      | none => store.forest }

/-- `insert_row`, on the primary tables. -/
def insertRow (store : Primary) (uuid : Uuid) (name : String) (value : Value)
    (given : Option Int64) : Outcome (Int64 × Primary) := do
  refuseIf (store.version uuid = none)
    (.internal s!"a row for metarecord {uuid}, which does not exist")
  refuseIf (name = "mfr_path" ∧ store.rowsNamed uuid name ≠ [])
    (.badRequest "mfr_path is single-valued: a metarecord tracks at most one path")
  refuseIf ((forestKey name value).bind store.forest.get ≠ none)
    (.badRequest s!"tree position already occupied for field '{name}'")
  let (id, allocated) ← store.allocate given
  let counted ← (allocated.putRow uuid ⟨id, name, value⟩).countType name value 1
  pure (id, counted)

/-- `delete_row`, on the primary tables: what it removed, and the tables without it. -/
def deleteRow (store : Primary) (id : Int64) : Outcome (Option (Uuid × FieldRow) × Primary) :=
  match store.row id with
  | none => pure (none, store)
  | some (owner, row) => do
      let counted ← (store.dropRow owner { row with id := id }).countType row.name row.value (-1)
      pure (some (owner, row), counted)

end Primary

end Metafolder
