import Metafolder.Canonical
import Metafolder.Json
import Metafolder.Writer

/-!
# Three-way decisions

The pure half of sync: what a value of one repository is in the other, the snapshot of what two
linked records held when they were last synced, and what each field of the link needs.  A side is
compared with its own past, in its own perspective; the sides with each other once translated.
-/

namespace Metafolder

/-- How JSON writes a float. -/
class FloatText where
  /-- The text of a float, `null` for one that is not finite. -/
  text : F64 → Bytes

/-- `MetaRecord::get_all`. -/
def MetaRecord.getAll (record : MetaRecord) (name : String) : List Value :=
  (record.fields.filter fun row => row.name = name).map FieldRow.value

theorem MetaRecord.get_eq_head? (record : MetaRecord) (name : String) :
    record.get name = (record.getAll name).head? := by
  rw [MetaRecord.get, MetaRecord.getAll, List.head?_map, List.head?_filter]

namespace Sync

/-! ### Values -/

section

variable [FloatText]

/-- Bytes as hexadecimal digits, in lower case. -/
def hexText (bytes : Bytes) : Bytes :=
  bytes.flatMap fun byte => [Json.hexDigit (byte / 16), Json.hexDigit (byte % 16)]

/-- `hex_uuid`. -/
def uuidJson (uuid : Uuid) : Bytes := Json.quoted (hexText uuid.bytes)

/-- `hex_uuid_opt`. -/
def parentJson : Option Uuid → Bytes
  | some uuid => uuidJson uuid
  | none => "null".asBytes

/-- `TreeName`'s wire form: its text, or its bytes beside the text shown for them. -/
def nameJson (name : TreeName) : Bytes :=
  if (ByteArray.mk name.bytes.toArray).validateUTF8 then Json.quoted name.bytes
  else
    "\x7b\"text\":".asBytes ++ (Json.quoted name.display.asBytes ++ (",\"bytes\":".asBytes ++
      (Json.quoted (hexText name.bytes) ++ "\x7d".asBytes)))

/-- The wire form of a position. -/
def positionJson (parent : Option Uuid) (name : TreeName) : Bytes :=
  "\x7b\"parent\":".asBytes ++ (parentJson parent ++ (",\"name\":".asBytes ++
    (nameJson name ++ "\x7d".asBytes)))

/-- The content of a value's JSON form. -/
def contentJson : Value → Option Bytes
  | .nothing => none
  | .string text => some (Json.quoted text.asBytes)
  | .int n => some (toString n.toInt).asBytes
  | .float f => some (FloatText.text f)
  | .bool b => some (if b then "true".asBytes else "false".asBytes)
  | .dateTime ms => some (Json.quoted (iso8601FromMs ms).asBytes)
  | .ref uuid => some (uuidJson uuid)
  | .treeRef parent name => some (positionJson parent name)
  | .hierarchyRef parent name => some (positionJson parent name)
  | .refBase uuid => some (uuidJson uuid)
  | .externalRef repo metarecord =>
      some ("\x7b\"repo\":".asBytes ++ (uuidJson repo ++ (",\"metarecord\":".asBytes ++
        (uuidJson metarecord ++ "\x7d".asBytes))))

/-- `key`: a value's JSON text, which orders values. -/
def key (value : Value) : Bytes :=
  "\x7b\"type\":\"".asBytes ++ (value.typeStr.asBytes ++ (0x22 ::
    ((match contentJson value with
      | none => []
      | some content => ",\"value\":".asBytes ++ content) ++ "\x7d".asBytes)))

/-- `canon`: values in canonical order, each once. -/
def canon (values : List Value) : List Value := Canonical.canon key values

/-- Whether two lists hold equal values, as the program tests it. -/
def sameValues : List Value → List Value → Bool
  | [], [] => true
  | first :: restFirst, second :: restSecond =>
      first.eq second && sameValues restFirst restSecond
  | _, _ => false

/-- `values_of`: a record's values for a name, canonical. -/
def valuesOf (record : MetaRecord) (name : String) : List Value := canon (record.getAll name)

end

/-- `is_synced_field`: every field but those a repository derives from its own files. -/
def isSyncedField (name : String) : Bool := !name.startsWith "mfr_" || name = "mfr_path"

/-- `synced_names`: the synced field names a record carries. -/
def syncedNames (record : MetaRecord) : List String :=
  (record.fields.map FieldRow.name).filter isSyncedField

/-! ### Snapshots -/

/-- `Side`: one of the two repositories of a pair. -/
inductive Side
  | a
  | b
deriving DecidableEq

/-- `Side::other`. -/
def Side.other : Side → Side
  | a => b
  | b => a

/-- `CONTENT_STAMP`. -/
def contentStamp : List String := ["mfr_type", "mfr_size", "mfr_mtime", "mfr_symlink_target"]

/-- `MODE_STAMP`. -/
def modeStamp : List String := ["mfr_permissions"]

/-- `Snapshot`: what the two repositories held at the last sync. -/
structure Snapshot where
  /-- What they agreed on, each value in both perspectives. -/
  common : Std.ExtTreeMap String (List (Value × Value)) := ∅
  /-- What each held alone. -/
  sides : Side → Std.ExtTreeMap String Value := fun _ => ∅

/-- One perspective of a pair of values. -/
def perspectiveOf (side : Side) (pair : Value × Value) : Value :=
  match side with
  | .a => pair.1
  | .b => pair.2

variable [FloatText]

/-- `Snapshot::perspective`: the values a side held for a name at the last sync. -/
def Snapshot.perspective (snap : Snapshot) (name : String) (side : Side) : List Value :=
  canon ((snap.common[name]?.getD []).map (perspectiveOf side))

/-! ### Translation -/

/-- `Lookup`: what a counterpart is looked up for. -/
inductive Lookup
  | ref
  | parent (field : String) (hierarchy : Bool)
deriving DecidableEq

/-- `Translate`: the counterpart of a record of one side on the other. -/
structure Translate where
  /-- `counterpart`. -/
  counterpart : Side → Uuid → Lookup → Except String (Option Uuid)

omit [FloatText] in
/-- `translate`: a value of a field as the other side would hold it. -/
def translate (tr : Translate) (side : Side) (field : String) : Value → Except String (Option Value)
  | .ref uuid => do pure ((← tr.counterpart side uuid .ref).map .ref)
  | .treeRef (some parent) name => do
      pure ((← tr.counterpart side parent (.parent field false)).map fun found =>
        .treeRef (some found) name)
  | .hierarchyRef (some parent) name => do
      pure ((← tr.counterpart side parent (.parent field true)).map fun found =>
        .hierarchyRef (some found) name)
  | other => pure (some other)

/-- `translate_all`: none as soon as one value has no counterpart. -/
def translateAll (tr : Translate) (side : Side) (field : String) :
    List Value → Except String (Option (List Value))
  | [] => pure (some [])
  | value :: rest => do
      match ← translate tr side field value with
      | none => pure none
      | some translated => do
          match ← translateAll tr side field rest with
          | none => pure none
          | some others => pure (some (translated :: others))

/-- `agree`: the pairs two sides agree on, when they hold the same values. -/
def agree (tr : Translate) (name : String) (a b : List Value) :
    Except String (Option (List (Value × Value))) := do
  match ← translateAll tr .a name a with
  | none => pure none
  | some translated =>
      if sameValues (canon translated) (canon b) then pure (some (a.zip translated)) else pure none

/-! ### Decisions -/

/-- `Decision`: what a link needs for one field. -/
inductive Decision
  /-- The two sides agree. -/
  | inSync
  /-- They disagree, and neither changed. -/
  | untouched
  /-- Only one side changed. -/
  | propagate (side : Side)
  /-- Both changed, to different values. -/
  | conflict
deriving DecidableEq

/-- `decide_field`. -/
def decideField (tr : Translate) (name : String) (a b : List Value) (snap : Snapshot) :
    Except String Decision := do
  match ← agree tr name a b with
  | some _ => pure .inSync
  | none =>
      let aChanged := !sameValues (canon a) (snap.perspective name .a)
      let bChanged := !sameValues (canon b) (snap.perspective name .b)
      pure <|
        match aChanged, bChanged with
        | false, false => .untouched
        | true, false => .propagate .a
        | false, true => .propagate .b
        | true, true => .conflict

omit [FloatText] in
/-- `stamp`: a record's first value of each name. -/
def stamp (record : MetaRecord) (names : List String) : Std.ExtTreeMap String Value :=
  names.foldl (fun stamps name =>
    match record.get name with
    | some value => stamps.insert name value
    | none => stamps) ∅

/-- One field of the next snapshot. -/
def nextCommon (tr : Translate) (a b : MetaRecord) (old : Snapshot)
    (common : Std.ExtTreeMap String (List (Value × Value))) (name : String) :
    Except String (Std.ExtTreeMap String (List (Value × Value))) := do
  match ← agree tr name (valuesOf a name) (valuesOf b name) with
  | some [] => pure common
  | some pairs => pure (common.insert name pairs)
  | none =>
      match old.common[name]? with
      | some pairs => pure (common.insert name pairs)
      | none => pure common

/-- `next_snapshot`: what the two sides agree on now, and of what they still disagree on, what they
agreed on before. -/
def nextSnapshot (tr : Translate) (a b : MetaRecord) (old : Snapshot) : Except String Snapshot := do
  let names := (syncedNames a ++ syncedNames b ++ old.common.keys).dedup
  let common ← names.foldlM (nextCommon tr a b old) ∅
  let held (record : MetaRecord) := stamp record (contentStamp ++ modeStamp)
  pure
    { common := common
      sides := fun side =>
        match side with
        | .a => held a
        | .b => held b }

end Sync

end Metafolder
