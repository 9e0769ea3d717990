import Metafolder.ByteCode
import Metafolder.Chunks

/-!
# The bytes of the kernel's events

A read of the queue gives a buffer of events, each with its length first, and each made of records with
their lengths in their heads.  Reading outside the buffer is an outcome of its own.
-/

namespace Metafolder
namespace Watchd
namespace Wire

/-! ### Numbers -/

/-- The order of the bytes of a number in memory. -/
inductive ByteOrder
  | big
  | little

namespace ByteOrder

/-- The number some bytes are. -/
def read : ByteOrder → Bytes → Nat
  | .big, bytes => ByteCode.ofBigEndian bytes
  | .little, bytes => ByteCode.ofBigEndian bytes.reverse

/-- The bytes of a number. -/
def write : ByteOrder → Nat → Nat → Bytes
  | .big, width, number => ByteCode.bigEndian width number
  | .little, width, number => (ByteCode.bigEndian width number).reverse

@[simp]
theorem length_write (order : ByteOrder) (width number : Nat) :
    (order.write width number).length = width := by
  cases order <;> simp [write]

theorem read_write (order : ByteOrder) {width number : Nat} (fits : number < 256 ^ width) :
    order.read (order.write width number) = number := by
  cases order <;>
    simp [read, write, ByteCode.ofBigEndian_bigEndian, Nat.mod_eq_of_lt fits]

end ByteOrder

/-- `buf[start..stop]`: none outside the buffer. -/
def slice (buf : Bytes) (start stop : Nat) : Option Bytes :=
  if start ≤ stop ∧ stop ≤ buf.length then some ((buf.take stop).drop start) else none

/-- An unsigned number read from a buffer. -/
def readNat (order : ByteOrder) (buf : Bytes) (start stop : Nat) : Option Nat :=
  (slice buf start stop).map order.read

/-- `i32::from_ne_bytes`. -/
def readInt (order : ByteOrder) (buf : Bytes) (start stop : Nat) : Option Int32 :=
  (readNat order buf start stop).map fun number => (UInt32.ofNat number).toInt32

/-- `i32::to_ne_bytes`. -/
def writeInt (order : ByteOrder) (number : Int32) : Bytes := order.write 4 number.toUInt32.toNat

/-! ### Events -/

/-- `Handle`. -/
structure Handle where
  /-- `fsid`. -/
  fsid : Int32 × Int32
  /-- `handle_type`. -/
  handleType : Int32
  /-- `bytes`. -/
  bytes : Bytes
deriving DecidableEq

/-- `RawEvent`. -/
structure RawEvent where
  /-- `mask`. -/
  mask : UInt64
  /-- `pid`. -/
  pid : Int32
  /-- `fid`. -/
  fid : Option Handle := none
  /-- `parent`. -/
  parent : Option (Handle × Bytes) := none
  /-- `old`. -/
  old : Option (Handle × Bytes) := none
  /-- `new`. -/
  new : Option (Handle × Bytes) := none
deriving DecidableEq

/-- `FAN_Q_OVERFLOW`. -/
def fanQOverflow : UInt64 := 0x4000

/-- `INFO_TYPE_FID`. -/
def infoTypeFid : UInt8 := 1

/-- `INFO_TYPE_DFID_NAME`. -/
def infoTypeDfidName : UInt8 := 2

/-- `INFO_TYPE_DFID`. -/
def infoTypeDfid : UInt8 := 3

/-- `INFO_TYPE_OLD_DFID_NAME`. -/
def infoTypeOldDfidName : UInt8 := 10

/-- `INFO_TYPE_NEW_DFID_NAME`. -/
def infoTypeNewDfidName : UInt8 := 12

/-- `METADATA_LEN`. -/
def metadataLen : Nat := 24

/-- The kinds of records that name an entry. -/
def namedTypes : List UInt8 :=
  [infoTypeDfidName, infoTypeOldDfidName, infoTypeNewDfidName]

/-- The kinds of records that are read. -/
def fidTypes : List UInt8 := [infoTypeFid, infoTypeDfid] ++ namedTypes

/-! ### Parsing -/

/-- `parse_fid_record`. -/
def parseFidRecord (order : ByteOrder) (record : Bytes) (infoType : UInt8) :
    Option (Option (Handle × Bytes)) :=
  if record.length < 20 then some none
  else do
    let first ← readInt order record 4 8
    let second ← readInt order record 8 12
    let handleBytes ← readNat order record 12 16
    let handleType ← readInt order record 16 20
    if record.length < 20 + handleBytes then some none
    else do
      let bytes ← slice record 20 (20 + handleBytes)
      let name ←
        if infoType ∈ namedTypes then
          (slice record (20 + handleBytes) record.length).map
            fun tail => tail.takeWhile fun byte => byte ≠ 0
        else some []
      some (some (⟨(first, second), handleType, bytes⟩, name))

/-- A record read, put where its kind belongs. -/
def RawEvent.put (raw : RawEvent) (infoType : UInt8) (held : Handle × Bytes) : RawEvent :=
  if infoType = infoTypeFid ∨ infoType = infoTypeDfid then { raw with fid := some held.1 }
  else if infoType = infoTypeDfidName then { raw with parent := some held }
  else if infoType = infoTypeOldDfidName then { raw with old := some held }
  else { raw with new := some held }

/-- A record of an event: one of another kind is not ours. -/
def noteRecord (order : ByteOrder) (raw : RawEvent) (record : Bytes) (infoType : UInt8) :
    Option RawEvent :=
  if infoType ∈ fidTypes then
    (parseFidRecord order record infoType).map fun held =>
      match held with
      | some held => raw.put infoType held
      | none => raw
  else some raw

/-- `parse`, its loop over the records of an event. -/
def parseRecords (order : ByteOrder) (buf : Bytes) (stop : Nat) :
    Nat → Nat → RawEvent → Option RawEvent
  | 0, _, _ => none
  | fuel + 1, pos, raw =>
      if pos + 4 ≤ stop then do
        let infoType ← buf[pos]?
        let len ← readNat order buf (pos + 2) (pos + 4)
        if len < 4 ∨ stop < pos + len then some raw
        else do
          let record ← slice buf pos (pos + len)
          let raw ← noteRecord order raw record infoType
          parseRecords order buf stop fuel (pos + len) raw
      else some raw

/-- `parse`, its loop over the events. -/
def parseEvents (order : ByteOrder) (buf : Bytes) :
    Nat → Nat → List RawEvent → Bool → Option (List RawEvent × Bool)
  | 0, _, _, _ => none
  | fuel + 1, off, events, overflow =>
      if off + metadataLen ≤ buf.length then do
        let eventLen ← readNat order buf off (off + 4)
        if eventLen < metadataLen ∨ buf.length < off + eventLen then some (events, overflow)
        else do
          let mask ← readNat order buf (off + 8) (off + 16)
          let pid ← readInt order buf (off + 20) (off + 24)
          if UInt64.ofNat mask &&& fanQOverflow ≠ 0 then
            parseEvents order buf fuel (off + eventLen) events true
          else do
            let raw ← parseRecords order buf (off + eventLen) eventLen (off + metadataLen)
              { mask := .ofNat mask, pid := pid }
            parseEvents order buf fuel (off + eventLen) (events ++ [raw]) overflow
      else some (events, overflow)

/-- `parse`: none when the buffer would be read outside, or a loop did not end. -/
def parse (order : ByteOrder) (buf : Bytes) : Option (List RawEvent × Bool) :=
  parseEvents order buf (buf.length + 1) 0 [] false

/-! ### The kernel's layout -/

/-- Which entry a record names. -/
inductive Entry
  | parent
  | old
  | new
deriving DecidableEq

/-- The kind of a record that names an entry. -/
def Entry.infoType : Entry → UInt8
  | .parent => infoTypeDfidName
  | .old => infoTypeOldDfidName
  | .new => infoTypeNewDfidName

/-- What a record says. -/
inductive Body
  /-- The object, or the directory. -/
  | object (dir : Bool) (handle : Handle)
  /-- An entry of a directory. -/
  | entry (which : Entry) (handle : Handle) (name : Bytes)
  /-- A record of another kind. -/
  | other (infoType : UInt8) (payload : Bytes)

namespace Body

def infoType : Body → UInt8
  | .object false _ => infoTypeFid
  | .object true _ => infoTypeDfid
  | .entry which _ _ => which.infoType
  | .other infoType _ => infoType

/-- `__kernel_fsid_t` and `struct file_handle`. -/
def handleBytes (order : ByteOrder) (handle : Handle) : Bytes :=
  writeInt order handle.fsid.1 ++ writeInt order handle.fsid.2 ++
    order.write 4 handle.bytes.length ++ writeInt order handle.handleType ++ handle.bytes

/-- The bytes after the head, but for the padding. -/
def content (order : ByteOrder) : Body → Bytes
  | .object _ handle => handleBytes order handle
  | .entry _ handle name => handleBytes order handle ++ (name ++ [0])
  | .other _ payload => payload

/-- The padding: `FANOTIFY_EVENT_ALIGN` is 4. -/
def padding (order : ByteOrder) (body : Body) : Nat := (4 - (body.content order).length % 4) % 4

/-- The length of the record, with its head and its padding. -/
def length (order : ByteOrder) (body : Body) : Nat :=
  4 + (body.content order).length + body.padding order

/-- The record, as the kernel lays it out. -/
def layout (order : ByteOrder) (body : Body) : Bytes :=
  [body.infoType, 0] ++ order.write 2 (body.length order) ++
    (body.content order ++ List.replicate (body.padding order) 0)

/-- A name holds no NUL, another kind is none of those read, and the length can be written. -/
def Sound (order : ByteOrder) (body : Body) : Prop :=
  (match body with
    | .object _ _ => True
    | .entry _ _ name => 0 ∉ name
    | .other infoType _ => infoType ∉ fidTypes) ∧
    body.length order < 2 ^ 16

/-- What the record tells of its event. -/
def tell (raw : RawEvent) : Body → RawEvent
  | .object _ handle => { raw with fid := some handle }
  | .entry .parent handle name => { raw with parent := some (handle, name) }
  | .entry .old handle name => { raw with old := some (handle, name) }
  | .entry .new handle name => { raw with new := some (handle, name) }
  | .other _ _ => raw

end Body

/-- An event the kernel queues; with the bit of an overflow it is a marker. -/
structure Queued (order : ByteOrder) where
  mask : UInt64
  pid : Int32
  records : List { body : Body // body.Sound order }
  /-- The length can be written. -/
  fits : metadataLen + (records.map fun body => body.1.length order).sum < 2 ^ 32

namespace Queued

variable {order : ByteOrder}

/-- The records of an event, laid out. -/
def recordBytes (queued : Queued order) : Bytes :=
  (queued.records.map fun body => body.1.layout order).flatten

/-- `encode`: the event, as the kernel lays it out. -/
def encode (queued : Queued order) : Bytes :=
  order.write 4 (metadataLen + queued.recordBytes.length) ++ [3, 0] ++ order.write 2 metadataLen ++
    order.write 8 queued.mask.toNat ++ writeInt order (-1) ++ writeInt order queued.pid ++
    queued.recordBytes

/-- Whether the event is an overflow's marker. -/
def isMarker (queued : Queued order) : Bool := queued.mask &&& fanQOverflow ≠ 0

/-- The event as it is told. -/
def raw (queued : Queued order) : RawEvent :=
  queued.records.foldl (fun raw body => body.1.tell raw) { mask := queued.mask, pid := queued.pid }

end Queued

end Wire
end Watchd
end Metafolder
