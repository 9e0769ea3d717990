import Metafolder.SyncModel

/-!
# The sync store of a pair

What sync remembers of two repositories: the links between their metarecords, found by the record
of either side, and the fields both held when a link was last synced.  A snapshot field is kept as
a JSON object, its value in columns and its bytes in hexadecimal.
-/

/-- `Database::delete_range`, both bounds included. -/
def Table.deleteRange {V : Type} (table : Table V) (first last : Bytes) : Table V :=
  ⟨table.tree.filter fun key _ => !((compare first key).isLE && (compare key last).isLE)⟩

theorem Table.get_deleteRange {V : Type} (table : Table V) (first last key : Bytes) :
    (table.deleteRange first last).get key =
      if (compare first key).isLE ∧ (compare key last).isLE then none else table.get key := by
  rw [Table.get, deleteRange, Std.ExtTreeMap.getElem?_filter']
  change Option.filter _ (table.get key) = _
  cases table.get key with
  | none => simp
  | some value =>
      rw [Option.filter_some]
      cases (compare first key).isLE with
      | false => rfl
      | true =>
          cases (compare key last).isLE with
          | false => rfl
          | true => rfl

namespace Metafolder

/-- How the JSON library writes a float and reads it back. -/
class FloatJson where
  /-- The number written, none where `null` is. -/
  write : F64 → Option Bytes
  /-- The float a number is read as, none where it is refused. -/
  read : Bytes → Option F64
  /-- JSON has no number for an infinity or a NaN. -/
  write_nonfinite : ∀ f : F64, f.exponent = 2047 → write f = none

/-! ### Hexadecimal texts -/

namespace Hex

/-- `hex::encode`. -/
def encode (bytes : Bytes) : String := String.ofList (bytes.flatMap Uuid.hexByte)

/-- The digit of `hex::decode`, in either case. -/
def digit (c : Char) : Option Nat :=
  if '0' ≤ c ∧ c ≤ '9' then some (c.toNat - 48)
  else if 'a' ≤ c ∧ c ≤ 'f' then some (c.toNat - 87)
  else if 'A' ≤ c ∧ c ≤ 'F' then some (c.toNat - 55)
  else none

/-- The bytes pairs of digits denote. -/
def pairs : List Char → Option Bytes
  | [] => some []
  | [_] => none
  | high :: low :: rest => do
      let byte := (← digit high) * 16 + (← digit low)
      pure (UInt8.ofNat byte :: (← pairs rest))

/-- `hex::decode`. -/
def decode (text : String) : Option Bytes := pairs text.toList

end Hex

namespace SyncDb

open Sync (Side)

/-! ### Links -/

/-- `Link`. -/
structure Link where
  /-- What names the link. -/
  uuid : Uuid
  /-- Its metarecord in repository A. -/
  recordA : Uuid
  /-- Its metarecord in repository B. -/
  recordB : Uuid
  /-- The version of each when they were last synced. -/
  versionA : Option UInt64
  versionB : Option UInt64
deriving DecidableEq

/-- The record of a link on one side. -/
def Link.record (link : Link) : Side → Uuid
  | .a => link.recordA
  | .b => link.recordB

/-- `enc_version`. -/
def encVersion : Option UInt64 → Bytes
  | none => [0]
  | some version => 1 :: ByteCode.bigEndian 8 version.toNat

/-- `enc_link`. -/
def encLink (link : Link) : Bytes :=
  link.recordA.bytes ++ (link.recordB.bytes ++ (encVersion link.versionA ++
    encVersion link.versionB))

/-- The bytes of a range, or the error of a link cut short. -/
def linkSlice (bytes : Bytes) (start length : Nat) : Outcome Bytes :=
  if start + length ≤ bytes.length then pure ((bytes.drop start).take length)
  else bail "a truncated link"

/-- The version at a place, and the place after it. -/
def decVersion (bytes : Bytes) (start : Nat) : Outcome (Option UInt64 × Nat) := do
  let flag ← linkSlice bytes start 1
  if flag = [0] then pure (none, start + 1)
  else do
    let held ← linkSlice bytes (start + 1) 8
    pure (some (UInt64.ofNat (ByteCode.ofBigEndian held)), start + 9)

/-- `dec_link`. -/
def decLink (uuid : Uuid) (bytes : Bytes) : Outcome Link := do
  let (versionA, next) ← decVersion bytes 32
  let (versionB, _) ← decVersion bytes next
  let recordA ← bytesToUuid (← linkSlice bytes 0 16)
  let recordB ← bytesToUuid (← linkSlice bytes 16 16)
  pure { uuid, recordA, recordB, versionA, versionB }

/-! ### Snapshot fields -/

/-- `SnapshotField`: a value both repositories held, in A's perspective, or one held alone. -/
structure SnapshotField where
  name : String
  value : Value
  /-- What the value points at, as B knows it. -/
  valueUuidB : Option Uuid
  /-- The one repository that held it. -/
  side : Option Side
deriving DecidableEq

/-- `StoredField`: the members of the JSON object a field is kept as. -/
structure StoredField where
  name : String
  valueType : String
  text : Option String
  int : Option Int64
  /-- The text of a number. -/
  real : Option Bytes
  uuid : Option String
  refRepo : Option String
  valueName : Option String
  nameBytes : Option String
  uuidB : Option String
  side : Option String
deriving DecidableEq

/-- `Side::name`. -/
def sideName : Side → String
  | .a => "a"
  | .b => "b"

/-- `Side::parse`. -/
def sideParse (text : String) : Outcome Side :=
  if text = "a" then pure .a
  else if text = "b" then pure .b
  else bail s!"a side is 'a' or 'b', not '{text}'"

/-- An optional member, read where it is there. -/
def transpose {α β : Type} (read : α → Outcome β) : Option α → Outcome (Option β)
  | none => pure none
  | some held => some <$> read held

/-- A column of bytes, in hexadecimal. -/
def hexColumn : Option String → Outcome (Option Bytes) :=
  transpose fun text => context (Hex.decode text) "a hex column"

section

variable [FloatJson]

/-- `enc_field`. -/
def encField (field : SnapshotField) : StoredField :=
  let columns := encodeValue field.value
  { name := field.name
    valueType := columns.valueType
    text := columns.text
    int := columns.int
    real := columns.real.bind FloatJson.write
    uuid := columns.uuid.map Hex.encode
    refRepo := columns.refRepo.map Hex.encode
    valueName := columns.name
    nameBytes := columns.nameBytes.map Hex.encode
    uuidB := field.valueUuidB.map fun uuid => Hex.encode uuid.bytes
    side := field.side.map sideName }

/-- The float of a number, as the JSON library reads it. -/
def floatColumn : Option Bytes → Outcome (Option F64) :=
  transpose fun text => context (FloatJson.read text) "a snapshot field"

/-- `dec_field`. -/
def decField (stored : StoredField) : Outcome SnapshotField := do
  let real ← floatColumn stored.real
  let uuid ← hexColumn stored.uuid
  let refRepo ← hexColumn stored.refRepo
  let nameBytes ← hexColumn stored.nameBytes
  let value ← decodeValue
    { valueType := stored.valueType, text := stored.text, int := stored.int, real, uuid, refRepo
      name := stored.valueName, nameBytes }
  let uuidB ← hexColumn stored.uuidB
  let valueUuidB ← transpose bytesToUuid uuidB
  let side ← transpose sideParse stored.side
  pure { name := stored.name, value, valueUuidB, side }

end

end SyncDb

/-! ### The store -/

/-- `SyncDb`: the tables of a pair. -/
structure SyncDb where
  /-- The links, under their uuids. -/
  links : Table Bytes := ∅
  /-- The link of a record of A. -/
  byA : Table Bytes := ∅
  /-- The link of a record of B. -/
  byB : Table Bytes := ∅
  /-- The fields of the snapshots, under the link and their place. -/
  snaps : Table SyncDb.StoredField := ∅

namespace SyncDb

open Sync (Side)

/-- `get_link`. -/
def getLink (db : SyncDb) (uuid : Uuid) : Outcome (Option Link) :=
  transpose (decLink uuid) (db.links.get uuid.bytes)

/-- The table that finds the link of a record. -/
def index (db : SyncDb) : Side → Table Bytes
  | .a => db.byA
  | .b => db.byB

/-- `link_for_record`. -/
def linkForRecord (db : SyncDb) (side : Side) (record : Uuid) : Outcome (Option Link) :=
  match (db.index side).get record.bytes with
  | none => pure none
  | some link => do db.getLink (← bytesToUuid link)

/-- `create_link`, under a uuid that was drawn. -/
def createLink (db : SyncDb) (recordA recordB uuid : Uuid) : Outcome SyncDb := do
  refuseIf ((db.byA.get recordA.bytes).isSome ∨ (db.byB.get recordB.bytes).isSome)
    (.internal "a record is already linked in this pair")
  let link : Link := { uuid, recordA, recordB, versionA := none, versionB := none }
  pure { db with
    links := db.links.put uuid.bytes (encLink link)
    byA := db.byA.put recordA.bytes uuid.bytes
    byB := db.byB.put recordB.bytes uuid.bytes }

/-- `delete_snapshot`. -/
def deleteSnapshot (snaps : Table StoredField) (link : Uuid) : Table StoredField :=
  snaps.deleteRange link.bytes (link.bytes ++ [0xFF, 0xFF, 0xFF, 0xFF])

/-- `delete_link`; an unknown link leaves the store as it is. -/
def deleteLink (db : SyncDb) (uuid : Uuid) : Outcome SyncDb := do
  match ← db.getLink uuid with
  | none => pure db
  | some link =>
      pure
        { links := db.links.delete uuid.bytes
          byA := db.byA.delete link.recordA.bytes
          byB := db.byB.delete link.recordB.bytes
          snaps := deleteSnapshot db.snaps uuid }

/-- The key of a snapshot field: its place is a `u32`. -/
def snapKey (link : Uuid) (place : Nat) : Bytes := link.bytes ++ ByteCode.bigEndian 4 place

variable [FloatJson]

/-- `read_snapshot`. -/
def readSnapshot (db : SyncDb) (link : Uuid) : Outcome (List SnapshotField) :=
  (db.snaps.prefixIter link.bytes).mapM fun entry => decField entry.2

/-- `Commit`. -/
structure Commit where
  link : Uuid
  versionA : UInt64
  versionB : UInt64
  snapshot : List SnapshotField

/-- The fields of a snapshot put in place, the first of them at the one given. -/
def putFields (snaps : Table StoredField) (link : Uuid) : Nat → List SnapshotField → Table StoredField
  | _, [] => snaps
  | place, field :: rest =>
      putFields (snaps.put (snapKey link place) (encField field)) link (place + 1) rest

/-- One sync-commit of a batch. -/
def commitOne (db : SyncDb) (commit : Commit) : Outcome SyncDb := do
  match ← db.getLink commit.link with
  | none => throw (Failure.notFound s!"link not found: {commit.link}")
  | some link =>
      let updated := { link with
        versionA := some commit.versionA, versionB := some commit.versionB }
      pure { db with
        links := db.links.put commit.link.bytes (encLink updated)
        snaps := putFields (deleteSnapshot db.snaps commit.link) commit.link 0 commit.snapshot }

/-- `commit_batch`. -/
def commitBatch (db : SyncDb) (commits : List Commit) : Outcome SyncDb := commits.foldlM commitOne db

/-! ### Runs -/

/-- A call on the store. -/
inductive Call
  /-- `create_link`, with the uuid `Uuid::new_v4` draws. -/
  | createLink (recordA recordB uuid : Uuid)
  | deleteLink (uuid : Uuid)
  | commitBatch (commits : List Commit)

/-- What a call leaves, once its transaction is committed. -/
def perform (db : SyncDb) : Call → Outcome SyncDb
  | .createLink recordA recordB uuid => db.createLink recordA recordB uuid
  | .deleteLink uuid => db.deleteLink uuid
  | .commitBatch commits => db.commitBatch commits

/-- The store after a call: one that is refused drops its transaction. -/
def step (db : SyncDb) (call : Call) : SyncDb := (db.perform call).toOption.getD db

/-- The snapshot last committed for each link, after an accepted call. -/
def committed (last : Uuid → List SnapshotField) : Call → Uuid → List SnapshotField
  | .createLink .. => last
  | .deleteLink uuid => Function.update last uuid []
  | .commitBatch commits =>
      commits.foldl (fun last commit => Function.update last commit.link commit.snapshot) last

/-- A uuid drawn for a link names none yet. -/
def Call.Fresh (db : SyncDb) : Call → Prop
  | .createLink _ _ uuid => db.links.get uuid.bytes = none
  | _ => True

/-- The stores calls lead to, refused ones included, with the snapshot last committed for each
link. -/
inductive Run : SyncDb → (Uuid → List SnapshotField) → Prop
  | opened : Run {} fun _ => []
  | accepted {db after last call} : Run db last → call.Fresh db → db.perform call = .ok after →
      Run (db.step call) (committed last call)
  | refused {db last call failure} : Run db last → db.perform call = .error failure →
      Run (db.step call) last

end SyncDb

end Metafolder
