import Metafolder.LogTables
import Metafolder.NameTexts

/-!
# Records as bytes

The rows, operations and labels are stored as records: fields one after another, a text or a byte
string behind its length in four bytes, an optional field behind a byte that tells whether it is
there.  What is read of a record is what was written, for texts and byte strings whose length fits
those four bytes, but for a position under the zero uuid, which is read as a root.  In never
leaves the bytes given: a record cut short is an error.
-/

namespace Metafolder

/-- How the reading of a record ends early. -/
inductive Stop
  /-- An error, which the caller is given. -/
  | failure (failure : Failure)
  /-- A slice index out of range. -/
  | panic
deriving DecidableEq

/-! ### Writing -/

namespace Out

/-- `Out::bytes`: bytes behind their length, of which four bytes are kept. -/
def bytes (held : Bytes) : Bytes := ByteCode.bigEndian 4 held.length ++ held

/-- `Out::opt_bytes`. -/
def optBytes : Option Bytes → Bytes
  | none => [0]
  | some held => 1 :: bytes held

/-- `Out::int`. -/
def int (n : Int64) : Bytes := be n

/-- `Out::opt_int`. -/
def optInt : Option Int64 → Bytes
  | none => [0]
  | some n => 1 :: int n

end Out

/-- `put_value`: a value in its columns. -/
def putValue (value : Value) : Bytes :=
  let e := encodeValue value
  Out.bytes e.valueType.asBytes ++ Out.optBytes (e.text.map String.asBytes) ++ Out.optInt e.int ++
    Out.optInt (e.real.map fun r => r.bits.toInt64) ++ Out.optBytes e.uuid ++
    Out.optBytes e.refRepo ++ Out.optBytes (e.name.map String.asBytes) ++ Out.optBytes e.nameBytes

/-- `enc_row`. -/
def encRow (row : FieldRow) : Bytes :=
  Out.int row.id ++ Out.bytes row.name.asBytes ++ putValue row.value

/-- `OpType::as_str`. -/
def OpType.asStr : OpType → String
  | createRecord => "create_metarecord"
  | deleteRecord => "delete_metarecord"
  | setRecord => "set_metarecord"
  | setField => "set_field"
  | appendField => "append_field"
  | deleteField => "delete_field"
  | fileDeleted => "file_deleted"
  | fileMoved => "file_moved"
  | fileModified => "file_modified"
  | unknown => "unknown"

/-- `enc_op`. -/
def encOp (op : NewOp) (label timestamp : Int64) : Bytes :=
  Out.int label ++ Out.int timestamp ++ Out.optBytes (op.origin.map String.asBytes) ++
    Out.bytes op.opType.asStr.asBytes ++ Out.bytes op.entity.bytes ++
    Out.optInt (op.versionBefore.map UInt64.toInt64) ++
    Out.optInt (op.versionAfter.map UInt64.toInt64) ++
    Out.optBytes (op.fieldName.map String.asBytes) ++ Out.optInt op.revertsOpId

/-- `enc_label`: a label, and the key of the command that opened it. -/
def encLabel (label : LabelMeta) (key : Option Uuid) : Bytes :=
  Out.bytes label.name.asBytes ++ Out.optBytes (label.description.map String.asBytes) ++
    Out.optInt label.parent ++ Out.int label.created ++ Out.optBytes (key.map Uuid.bytes)

/-! ### Reading -/

/-- `In`: a reading of the bytes left. -/
abbrev In (α : Type) := StateT Bytes (Except Stop) α

namespace In

/-- An outcome that reads nothing. -/
def accept {α : Type} (outcome : Outcome α) : In α := fun left =>
  match outcome with
  | .ok value => .ok (value, left)
  | .error failure => .error (.failure failure)

/-- `In::take`. -/
def take (n : Nat) : In Bytes := fun left =>
  if left.length < n then
    .error (.failure (.internal "a truncated record in the key-value store"))
  else .ok (left.take n, left.drop n)

/-- `In::bytes`. -/
def bytes : In Bytes := do take (ByteCode.ofBigEndian (← take 4))

/-- `In::string`. -/
def string : In String := do accept (textOf (← bytes))

/-- What is behind the byte that tells whether it is there. -/
def opt {α : Type} (part : In α) : In (Option α) := do
  match ← take 1 with
  | [0] => pure none
  | _ => some <$> part

/-- `In::opt_bytes`. -/
def optBytes : In (Option Bytes) := opt bytes

/-- `In::opt_string`. -/
def optString : In (Option String) := do
  match ← optBytes with
  | none => pure none
  | some held => some <$> accept (textOf held)

/-- `In::int`. -/
def int : In Int64 := do pure (fromBe (← take 8))

/-- `In::opt_int`. -/
def optInt : In (Option Int64) := opt int

/-- `uuid_of`: the first sixteen bytes, a slice that panics where there are fewer. -/
def uuidOf (held : Bytes) : In Uuid := fun left =>
  if held.length < 16 then .error .panic else .ok (Uuid.ofBytes held, left)

end In

/-- `get_value`. -/
def getValue : In Value := do
  let valueType ← In.string
  let text ← In.optString
  let int ← In.optInt
  let real ← In.optInt
  let uuid ← In.optBytes
  let refRepo ← In.optBytes
  let name ← In.optString
  let nameBytes ← In.optBytes
  In.accept <| decodeValue
    { valueType := valueType
      text := text
      int := int
      real := real.map fun b => ⟨b.toUInt64⟩
      uuid := uuid
      refRepo := refRepo
      name := name
      nameBytes := nameBytes }

/-- `dec_row`, with the bytes left. -/
def readRow : In FieldRow := do
  let id ← In.int
  let name ← In.string
  let value ← getValue
  pure ⟨id, name, value⟩

/-- `dec_row`. -/
def decRow (held : Bytes) : Except Stop FieldRow := readRow.run' held

/-- `OpRow` as it is read, its type a text. -/
structure ReadOp where
  /-- Its id. -/
  id : Int64
  /-- Its innermost label. -/
  labelId : Int64
  /-- When it was written. -/
  timestamp : Int64
  /-- Who wrote it. -/
  origin : Option String
  /-- Its type. -/
  opType : String
  /-- The metarecord it is about. -/
  entityUuid : Uuid
  /-- The version the metarecord had. -/
  entityVersionBefore : Option UInt64
  /-- The version the operation left it with. -/
  entityVersionAfter : Option UInt64
  /-- The field it is about. -/
  fieldName : Option String
  /-- The operation it undoes. -/
  revertsOpId : Option Int64
deriving DecidableEq

/-- An operation of the log, as it is read. -/
def OpRow.read (row : OpRow) : ReadOp :=
  { id := row.id
    labelId := row.labelId
    timestamp := row.timestamp
    origin := row.origin
    opType := row.opType.asStr
    entityUuid := row.entityUuid
    entityVersionBefore := row.entityVersionBefore
    entityVersionAfter := row.entityVersionAfter
    fieldName := row.fieldName
    revertsOpId := row.revertsOpId }

/-- What comes of an operation ahead of its metarecord: its label, its timestamp, its origin and its
type. -/
def opHead : In (Int64 × Int64 × Option String × String) := do
  let labelId ← In.int
  let timestamp ← In.int
  let origin ← In.optString
  let opType ← In.string
  pure (labelId, timestamp, origin, opType)

/-- `dec_op`, with the bytes left. -/
def readOp (id : Int64) : In ReadOp := do
  let (labelId, timestamp, origin, opType) ← opHead
  let entityUuid ← In.uuidOf (← In.bytes)
  let versionBefore ← In.optInt
  let versionAfter ← In.optInt
  let fieldName ← In.optString
  let revertsOpId ← In.optInt
  pure
    { id := id
      labelId := labelId
      timestamp := timestamp
      origin := origin
      opType := opType
      entityUuid := entityUuid
      entityVersionBefore := versionBefore.map Int64.toUInt64
      entityVersionAfter := versionAfter.map Int64.toUInt64
      fieldName := fieldName
      revertsOpId := revertsOpId }

/-- The bytes an operation's metarecord is read from. -/
def opEntity (held : Bytes) : Except Stop Bytes :=
  StateT.run' (do let _ ← opHead; In.bytes : In Bytes) held

/-- `dec_op`. -/
def decOp (id : Int64) (held : Bytes) : Except Stop ReadOp := (readOp id).run' held

/-- `op_timestamp`: the second field alone. -/
def opTimestamp (held : Bytes) : Except Stop Int64 :=
  StateT.run' (do let _ ← In.int; In.int : In Int64) held

/-- `dec_label`, with the bytes left. -/
def readLabel : In LabelMeta := do
  let name ← In.string
  let description ← In.optString
  let parent ← In.optInt
  let created ← In.int
  pure ⟨name, description, parent, created⟩

/-- `dec_label`. -/
def decLabel (held : Bytes) : Except Stop LabelMeta := readLabel.run' held

/-- The bytes of the command key, as they stand after the label. -/
def readKeyBytes : In (Option Bytes) := do
  let _ ← In.string
  let _ ← In.optBytes
  let _ ← In.optInt
  let _ ← In.int
  In.optBytes

/-- The bytes a label's command key is read from. -/
def keyBytes (held : Bytes) : Except Stop (Option Bytes) := readKeyBytes.run' held

/-- `dec_label_key`, with the bytes left. -/
def readLabelKey : In (Option Uuid) := do
  match ← readKeyBytes with
  | none => pure none
  | some key => some <$> In.uuidOf key

/-- `dec_label_key`. -/
def decLabelKey (held : Bytes) : Except Stop (Option Uuid) := readLabelKey.run' held

/-! ### What is read off what was written -/

namespace In

variable {α β : Type}

@[simp]
theorem bind_apply (first : In α) (next : α → In β) (left : Bytes) :
    (first >>= next) left = first left >>= fun came => next came.1 came.2 := rfl

/-- A reading takes a value off some bytes, whatever comes after these. -/
def Yields (part : In α) (word : Bytes) (value : α) : Prop :=
  ∀ rest, part (word ++ rest) = .ok (value, rest)

theorem Yields.run' {part : In α} {word : Bytes} {value : α} (yields : Yields part word value) :
    part.run' word = .ok value := by
  have read := yields []
  rw [List.append_nil] at read
  rw [StateT.run', read]
  rfl

theorem yields_pure (value : α) : Yields (pure value) [] value := fun _ => rfl

theorem Yields.bind {first : In α} {next : α → In β} {word others : Bytes} {value : α} {result : β}
    (yields : Yields first word value) (also : Yields (next value) others result) :
    Yields (first >>= next) (word ++ others) result := by
  intro rest
  rw [List.append_assoc, bind_apply, yields]
  exact also rest

/-- A last part, followed by nothing that reads. -/
theorem Yields.bind_pure {first : In α} {next : α → In β} {word : Bytes} {value : α} {result : β}
    (yields : Yields first word value) (also : Yields (next value) [] result) :
    Yields (first >>= next) word result := by
  have both := yields.bind also
  rwa [List.append_nil] at both

theorem yields_accept {outcome : Outcome α} {value : α} (came : outcome = .ok value) :
    Yields (accept outcome) [] value := by
  intro rest
  rw [came]
  rfl

theorem yields_take (word : Bytes) : Yields (take word.length) word word := by
  intro rest
  rw [take, if_neg (by simp), List.take_left, List.drop_left]

/-- A length four bytes hold. -/
def Short (word : Bytes) : Prop := word.length < 2 ^ 32

instance (word : Bytes) : Decidable (Short word) :=
  inferInstanceAs (Decidable (word.length < 2 ^ 32))

theorem yields_bytes {word : Bytes} (short : Short word) : Yields bytes (Out.bytes word) word := by
  have length := yields_take (ByteCode.bigEndian 4 word.length)
  rw [ByteCode.length_bigEndian] at length
  have number : ByteCode.ofBigEndian (ByteCode.bigEndian 4 word.length) = word.length := by
    rw [ByteCode.ofBigEndian_bigEndian]
    exact Nat.mod_eq_of_lt short
  apply length.bind
  rw [number]
  exact yields_take word

theorem yields_string {text : String} (short : Short text.asBytes) :
    Yields string (Out.bytes text.asBytes) text :=
  (yields_bytes short).bind_pure (yields_accept (textOf_asBytes text))

theorem yields_opt_none (part : In α) : Yields (opt part) [0] none := by
  intro rest
  exact rfl

theorem yields_opt_some {part : In α} {word : Bytes} {value : α} (yields : Yields part word value) :
    Yields (opt part) (1 :: word) (some value) := by
  intro rest
  have read : (some <$> part) (word ++ rest) = .ok (some value, rest) := by
    change (part (word ++ rest) >>= fun came => _) = _
    rw [yields]
    rfl
  exact read

theorem yields_optBytes {held : Option Bytes} (short : ∀ word ∈ held, Short word) :
    Yields optBytes (Out.optBytes held) held := by
  cases held with
  | none => exact yields_opt_none bytes
  | some word => exact yields_opt_some (yields_bytes (short word rfl))

theorem yields_optString {text : Option String} (short : ∀ held ∈ text, Short held.asBytes) :
    Yields optString (Out.optBytes (text.map String.asBytes)) text := by
  cases text with
  | none => exact (yields_opt_none bytes).bind_pure (yields_pure none)
  | some held =>
      have read := yields_opt_some (yields_bytes (short held rfl))
      apply read.bind_pure
      intro rest
      change (some <$> accept (textOf held.asBytes)) _ = _
      rw [textOf_asBytes]
      rfl

theorem yields_int (n : Int64) : Yields int (Out.int n) n := by
  have read := yields_take (be n)
  have width : (be n).length = 8 := ByteCode.length_bigEndian 8 _
  rw [width] at read
  have back : fromBe (be n) = n := by
    have same := fromBe_be n []
    rwa [List.append_nil] at same
  apply read.bind_pure
  rw [back]
  exact yields_pure n

theorem yields_optInt (n : Option Int64) : Yields optInt (Out.optInt n) n := by
  cases n with
  | none => exact yields_opt_none int
  | some n => exact yields_opt_some (yields_int n)

theorem yields_uuidOf (uuid : Uuid) : Yields (uuidOf uuid.bytes) [] uuid := by
  intro rest
  rw [uuidOf, if_neg (by rw [uuid.size]; decide), Uuid.ofBytes_bytes]
  rfl

end In

open In

/-- The columns' texts and bytes are of a length four bytes hold. -/
structure EncodedValue.Storable (e : EncodedValue) : Prop where
  text : ∀ held ∈ e.text, Short held.asBytes
  name : ∀ held ∈ e.name, Short held.asBytes
  nameBytes : ∀ held ∈ e.nameBytes, Short held

/-- A row whose texts and bytes are of a length four bytes hold. -/
structure FieldRow.Storable (row : FieldRow) : Prop where
  name : Short row.name.asBytes
  value : (encodeValue row.value).Storable

/-- An operation whose texts are of a length four bytes hold. -/
structure NewOp.Storable (op : NewOp) : Prop where
  origin : ∀ held ∈ op.origin, Short held.asBytes
  fieldName : ∀ held ∈ op.fieldName, Short held.asBytes

/-- A label whose texts are of a length four bytes hold. -/
structure LabelMeta.Storable (label : LabelMeta) : Prop where
  name : Short label.name.asBytes
  description : ∀ held ∈ label.description, Short held.asBytes

theorem short_uuid (uuid : Uuid) : Short uuid.bytes := by
  rw [Short, uuid.size]
  decide

theorem short_typeStr (value : Value) : Short (encodeValue value).valueType.asBytes := by
  cases value <;> exact of_decide_eq_true rfl

theorem short_opType (opType : OpType) : Short opType.asStr.asBytes := by
  cases opType <;> exact of_decide_eq_true rfl

/-- The columns that hold a uuid hold sixteen bytes. -/
theorem short_uuids (value : Value) :
    (∀ held ∈ (encodeValue value).uuid, Short held) ∧
      ∀ held ∈ (encodeValue value).refRepo, Short held := by
  cases value <;> simp [encodeValue, short_uuid]

theorem yields_value {value : Value} (fits : (encodeValue value).Storable) :
    Yields getValue (putValue value) value.stored := by
  obtain ⟨uuid, refRepo⟩ := short_uuids value
  have real : ((encodeValue value).real.map fun r => r.bits.toInt64).map
      (fun b => (⟨b.toUInt64⟩ : F64)) = (encodeValue value).real := by
    cases (encodeValue value).real with
    | none => rfl
    | some r => simp
  have columns := decodeValue_encodeValue value
  simp only [putValue, List.append_assoc]
  apply (yields_string (short_typeStr value)).bind
  apply (yields_optString fits.text).bind
  apply (yields_optInt _).bind
  apply (yields_optInt _).bind
  apply (yields_optBytes uuid).bind
  apply (yields_optBytes refRepo).bind
  apply (yields_optString fits.name).bind
  apply (yields_optBytes fits.nameBytes).bind_pure
  rw [real]
  exact yields_accept columns

theorem yields_row {row : FieldRow} (fits : row.Storable) : Yields readRow (encRow row) row.stored := by
  simp only [encRow, List.append_assoc]
  apply (yields_int row.id).bind
  apply (yields_string fits.name).bind
  apply (yields_value fits.value).bind_pure
  exact yields_pure _

theorem yields_op {op : NewOp} (fits : op.Storable) (id label timestamp : Int64) :
    Yields (readOp id) (encOp op label timestamp) (Log.rowOf label timestamp id op).read := by
  have version (number : Option UInt64) :
      (number.map UInt64.toInt64).map Int64.toUInt64 = number := by
    cases number with
    | none => rfl
    | some number => simp
  have head : Yields opHead
      (Out.int label ++ (Out.int timestamp ++ (Out.optBytes (op.origin.map String.asBytes) ++
        Out.bytes op.opType.asStr.asBytes))) (label, timestamp, op.origin, op.opType.asStr) := by
    apply (yields_int label).bind
    apply (yields_int timestamp).bind
    apply (yields_optString fits.origin).bind
    exact (yields_string (short_opType op.opType)).bind_pure (yields_pure _)
  have written : encOp op label timestamp =
      Out.int label ++ (Out.int timestamp ++ (Out.optBytes (op.origin.map String.asBytes) ++
        Out.bytes op.opType.asStr.asBytes)) ++ (Out.bytes op.entity.bytes ++
        (Out.optInt (op.versionBefore.map UInt64.toInt64) ++
        (Out.optInt (op.versionAfter.map UInt64.toInt64) ++
        (Out.optBytes (op.fieldName.map String.asBytes) ++ Out.optInt op.revertsOpId)))) := by
    simp only [encOp, List.append_assoc]
  rw [written]
  apply head.bind
  apply (yields_bytes (short_uuid op.entity)).bind
  apply (yields_uuidOf op.entity).bind
  apply (yields_optInt _).bind
  apply (yields_optInt _).bind
  apply (yields_optString fits.fieldName).bind
  apply (yields_optInt _).bind_pure
  rw [version, version]
  exact yields_pure _

/-- What is written of a label ahead of the command key. -/
theorem yields_label {label : LabelMeta} (fits : label.Storable) :
    Yields readLabel (Out.bytes label.name.asBytes ++
      (Out.optBytes (label.description.map String.asBytes) ++ (Out.optInt label.parent ++
        Out.int label.created))) label := by
  apply (yields_string fits.name).bind
  apply (yields_optString fits.description).bind
  apply (yields_optInt _).bind
  exact (yields_int _).bind_pure (yields_pure _)

theorem yields_labelKey {label : LabelMeta} (fits : label.Storable) (key : Option Uuid) :
    Yields readLabelKey (encLabel label key) key := by
  have description : ∀ word ∈ label.description.map String.asBytes, Short word := by
    intro word held
    obtain ⟨text, described, rfl⟩ := Option.mem_map.mp held
    exact fits.description text described
  have uuid : ∀ word ∈ key.map Uuid.bytes, Short word := by
    intro word held
    obtain ⟨uuid, -, rfl⟩ := Option.mem_map.mp held
    exact short_uuid uuid
  have bytes : Yields readKeyBytes (encLabel label key) (key.map Uuid.bytes) := by
    simp only [encLabel, List.append_assoc]
    apply (yields_string fits.name).bind
    apply (yields_optBytes description).bind
    apply (yields_optInt _).bind
    apply (yields_int _).bind
    exact yields_optBytes uuid
  apply bytes.bind_pure
  cases key with
  | none => exact yields_pure none
  | some key =>
      intro rest
      have read := yields_uuidOf key rest
      change (In.uuidOf key.bytes rest >>= fun came => _) = _
      rw [List.nil_append] at read
      rw [read]
      rfl

/-! ### Any bytes at all -/

namespace In

variable {α β : Type}

/-- A reading that never panics, and that leaves an end of what it is given. -/
def Within (part : In α) : Prop :=
  ∀ left, part left ≠ .error .panic ∧
    ∀ value rest, part left = .ok (value, rest) → rest <:+ left

theorem bind_eq_ok {first : In α} {next : α → In β} {left : Bytes} {result : β × Bytes} :
    (first >>= next) left = .ok result ↔
      ∃ value rest, first left = .ok (value, rest) ∧ next value rest = .ok result := by
  rw [bind_apply, Except.bind_eq_ok]
  constructor
  · rintro ⟨⟨value, rest⟩, came, read⟩
    exact ⟨value, rest, came, read⟩
  · rintro ⟨value, rest, came, read⟩
    exact ⟨(value, rest), came, read⟩

theorem run'_eq_ok {part : In α} {held : Bytes} {value : α} :
    part.run' held = .ok value ↔ ∃ rest, part held = .ok (value, rest) := by
  rw [StateT.run']
  cases came : part held with
  | error stop => simp
  | ok result =>
      obtain ⟨read, rest⟩ := result
      simp

/-- What is read panics where the reading does. -/
theorem run'_eq_panic {part : In α} {held : Bytes} :
    part.run' held = .error .panic ↔ part held = .error .panic := by
  rw [StateT.run']
  cases part held <;> simp

theorem within_pure (value : α) : Within (pure value : In α) := by
  intro left
  refine ⟨nofun, fun other rest read => ?_⟩
  obtain ⟨-, rfl⟩ := Prod.mk.inj (Except.ok.inj read)
  exact List.suffix_refl _

/-- What follows has to stay within only for what can be read. -/
theorem bind_within {first : In α} {next : α → In β} {left : Bytes} (within : Within first)
    (others : ∀ value rest, first left = .ok (value, rest) → next value rest ≠ .error .panic ∧
      ∀ result ending, next value rest = .ok (result, ending) → ending <:+ rest) :
    (first >>= next) left ≠ .error .panic ∧
      ∀ result ending, (first >>= next) left = .ok (result, ending) → ending <:+ left := by
  obtain ⟨calm, stays⟩ := within left
  rw [bind_apply]
  cases came : first left with
  | error stop =>
      have stopped : stop ≠ .panic := fun panics => calm (came.trans (by rw [panics]))
      exact ⟨fun panics => stopped (Except.error.inj panics), nofun⟩
  | ok read =>
      obtain ⟨value, rest⟩ := read
      obtain ⟨also, ends⟩ := others value rest came
      exact ⟨also, fun result ending read => (ends result ending read).trans (stays _ _ came)⟩

theorem Within.bind {first : In α} {next : α → In β} (within : Within first)
    (others : ∀ value, Within (next value)) : Within (first >>= next) := fun _ =>
  bind_within within fun value rest _ => others value rest

theorem within_accept (outcome : Outcome α) : Within (accept outcome) := by
  cases outcome with
  | error failure => exact fun left => ⟨nofun, nofun⟩
  | ok value => exact within_pure value

theorem within_take (n : Nat) : Within (take n) := by
  intro left
  rw [take]
  split
  · exact ⟨nofun, nofun⟩
  · refine ⟨nofun, fun value rest read => ?_⟩
    obtain ⟨-, rfl⟩ := Prod.mk.inj (Except.ok.inj read)
    exact List.drop_suffix n left

theorem within_bytes : Within bytes := (within_take 4).bind fun _ => within_take _

theorem within_string : Within string := within_bytes.bind fun _ => within_accept _

theorem within_map {part : In α} (within : Within part) (f : α → β) : Within (f <$> part) :=
  within.bind fun value => within_pure (f value)

theorem within_opt {part : In α} (within : Within part) : Within (opt part) := by
  apply (within_take 1).bind
  intro flag
  split
  · exact within_pure none
  · exact within_map within some

theorem within_optBytes : Within optBytes := within_opt within_bytes

theorem within_optString : Within optString := by
  apply within_optBytes.bind
  intro held
  cases held with
  | none => exact within_pure none
  | some held => exact within_map (within_accept _) some

theorem within_int : Within int := (within_take 8).bind fun _ => within_pure _

theorem within_optInt : Within optInt := within_opt within_int

/-- A uuid is cut off bytes enough, without reading. -/
theorem uuidOf_of_le {held : Bytes} (enough : 16 ≤ held.length) :
    uuidOf held = pure (Uuid.ofBytes held) := by
  funext left
  rw [uuidOf, if_neg (by omega)]
  rfl

end In

theorem within_value : Within getValue := by
  apply within_string.bind
  intro valueType
  apply within_optString.bind
  intro text
  apply within_optInt.bind
  intro int
  apply within_optInt.bind
  intro real
  apply within_optBytes.bind
  intro uuid
  apply within_optBytes.bind
  intro refRepo
  apply within_optString.bind
  intro name
  apply within_optBytes.bind
  intro nameBytes
  exact within_accept _

theorem within_row : Within readRow := by
  apply within_int.bind
  intro id
  apply within_string.bind
  intro name
  exact within_value.bind fun value => within_pure _

theorem within_label : Within readLabel := by
  apply within_string.bind
  intro name
  apply within_optString.bind
  intro description
  apply within_optInt.bind
  intro parent
  exact within_int.bind fun created => within_pure _

theorem within_opHead : Within opHead := by
  apply within_int.bind
  intro labelId
  apply within_int.bind
  intro timestamp
  apply within_optString.bind
  intro origin
  exact within_string.bind fun opType => within_pure _

theorem within_keyBytes : Within readKeyBytes := by
  apply within_string.bind
  intro name
  apply within_optBytes.bind
  intro description
  apply within_optInt.bind
  intro parent
  exact within_int.bind fun created => within_optBytes

theorem In.Within.run'_ne_panic {α : Type} {part : In α} (within : Within part) (held : Bytes) :
    part.run' held ≠ .error .panic :=
  fun panics => (within held).1 (run'_eq_panic.mp panics)

/-- The timestamp of an operation is read alone as it is read with the others. -/
theorem opTimestamp_of_decOp {id : Int64} {held : Bytes} {op : ReadOp}
    (read : decOp id held = .ok op) : opTimestamp held = .ok op.timestamp := by
  obtain ⟨ending, read⟩ := run'_eq_ok.mp read
  obtain ⟨⟨labelId, timestamp, origin, opType⟩, rest, head, read⟩ := bind_eq_ok.mp read
  have kept : op.timestamp = timestamp := by
    obtain ⟨entity, rest, -, read⟩ := bind_eq_ok.mp read
    obtain ⟨uuid, rest, -, read⟩ := bind_eq_ok.mp read
    obtain ⟨versionBefore, rest, -, read⟩ := bind_eq_ok.mp read
    obtain ⟨versionAfter, rest, -, read⟩ := bind_eq_ok.mp read
    obtain ⟨fieldName, rest, -, read⟩ := bind_eq_ok.mp read
    obtain ⟨reverts, rest, -, read⟩ := bind_eq_ok.mp read
    rw [← (Prod.mk.inj (Except.ok.inj read)).1]
  obtain ⟨first, afterFirst, labels, head⟩ := bind_eq_ok.mp head
  obtain ⟨second, afterSecond, times, head⟩ := bind_eq_ok.mp head
  have same : second = timestamp := by
    obtain ⟨origin, rest, -, head⟩ := bind_eq_ok.mp head
    obtain ⟨opType, rest, -, head⟩ := bind_eq_ok.mp head
    exact congrArg (·.2.1) (Prod.mk.inj (Except.ok.inj head)).1
  rw [kept, ← same]
  exact run'_eq_ok.mpr ⟨afterSecond, bind_eq_ok.mpr ⟨first, afterFirst, labels, times⟩⟩

/-- An operation is read without a panic where the bytes of its metarecord are enough for a uuid. -/
theorem decOp_ne_panic {held : Bytes}
    (enough : ∀ entity, opEntity held = .ok entity → 16 ≤ entity.length) (id : Int64) :
    decOp id held ≠ .error .panic := by
  intro panics
  refine (bind_within within_opHead ?_).1 (run'_eq_panic.mp panics)
  intro head rest came
  refine bind_within within_bytes ?_
  intro entity afterEntity read
  have long := enough entity
    (run'_eq_ok.mpr ⟨afterEntity, bind_eq_ok.mpr ⟨head, rest, came, read⟩⟩)
  rw [uuidOf_of_le long, pure_bind]
  apply within_optInt.bind
  intro versionBefore
  apply within_optInt.bind
  intro versionAfter
  apply within_optString.bind
  intro fieldName
  exact within_optInt.bind fun reverts => within_pure _

/-- A command key is read without a panic where its bytes are enough for a uuid. -/
theorem decLabelKey_ne_panic {held : Bytes}
    (enough : ∀ key, keyBytes held = .ok (some key) → 16 ≤ key.length) :
    decLabelKey held ≠ .error .panic := by
  intro panics
  refine (bind_within within_keyBytes ?_).1 (run'_eq_panic.mp panics)
  intro key rest came
  cases key with
  | none => exact within_pure none rest
  | some key =>
      have long := enough key (run'_eq_ok.mpr ⟨rest, came⟩)
      have cut : Within (some <$> uuidOf key) := by
        rw [uuidOf_of_le long]
        exact within_map (within_pure _) some
      exact cut rest

/-! ### Records -/

/-- A value is read back as it is, unless it is a position under the zero uuid. -/
theorem Value.stored_eq_iff (value : Value) :
    value.stored = value ↔ ∀ name, value.position ≠ some (some Uuid.zero, name) := by
  have parents (parent : Option Uuid) : storedParent parent = parent ↔ parent ≠ some Uuid.zero := by
    rw [storedParent]
    split
    · next zero => simp [zero]
    · next other => simp [other]
  cases value <;> simp [Value.stored, Value.position, parents]

/-- What the records written of rows, operations and labels are read as, and that no bytes make the
readers panic where a uuid has bytes enough. -/
theorem records_read_back :
    (∀ row : FieldRow, row.Storable → decRow (encRow row) = .ok row.stored ∧
      (row.stored = row ↔ ∀ name, row.value.position ≠ some (some Uuid.zero, name))) ∧
    (∀ op : NewOp, op.Storable → ∀ id label timestamp,
      decOp id (encOp op label timestamp) = .ok (Log.rowOf label timestamp id op).read) ∧
    (∀ label : LabelMeta, label.Storable → ∀ key,
      decLabel (encLabel label key) = .ok label ∧ decLabelKey (encLabel label key) = .ok key) ∧
    (∀ held id op, decOp id held = .ok op → opTimestamp held = .ok op.timestamp) ∧
    ∀ held, decRow held ≠ .error .panic ∧ decLabel held ≠ .error .panic ∧
      opTimestamp held ≠ .error .panic ∧
      ((∀ entity, opEntity held = .ok entity → 16 ≤ entity.length) →
        ∀ id, decOp id held ≠ .error .panic) ∧
      ((∀ key, keyBytes held = .ok (some key) → 16 ≤ key.length) →
        decLabelKey held ≠ .error .panic) := by
  refine ⟨?_, ?_, ?_, ?_, ?_⟩
  · intro row fits
    refine ⟨(yields_row fits).run', ?_⟩
    rw [← Value.stored_eq_iff, FieldRow.stored]
    exact ⟨fun same => congrArg FieldRow.value same, fun same => by rw [same]⟩
  · intro op fits id label timestamp
    exact (yields_op fits id label timestamp).run'
  · intro label fits key
    refine ⟨?_, (yields_labelKey fits key).run'⟩
    have read := yields_label fits (Out.optBytes (key.map Uuid.bytes))
    simp only [List.append_assoc] at read
    apply run'_eq_ok.mpr
    refine ⟨Out.optBytes (key.map Uuid.bytes), ?_⟩
    simp only [encLabel, List.append_assoc]
    exact read
  · intro held id op read
    exact opTimestamp_of_decOp read
  · intro held
    have times : Within (do let _ ← In.int; In.int : In Int64) :=
      within_int.bind fun _ => within_int
    exact ⟨within_row.run'_ne_panic held, within_label.run'_ne_panic held,
      times.run'_ne_panic held, decOp_ne_panic, decLabelKey_ne_panic⟩

theorem note_read_back :
    decRow (encRow ⟨1, "note", .string "a"⟩) = .ok ⟨1, "note", .string "a"⟩ :=
  (records_read_back.1 ⟨1, "note", .string "a"⟩
    ⟨by decide, ⟨fun held told => Option.mem_some.mp told ▸ by decide, nofun, nofun⟩⟩).1

/-- A text whose length four bytes hold as zero is read as the empty text. -/
theorem optString_wrapped {text : String} (wraps : text.asBytes.length = 2 ^ 32) (rest : Bytes) :
    optString (Out.optBytes (some text.asBytes) ++ rest) = .ok (some "", text.asBytes ++ rest) := by
  have count : ByteCode.bigEndian 4 text.asBytes.length = ByteCode.bigEndian 4 0 := by
    rw [wraps]
    decide +kernel
  have read : Yields optString (Out.optBytes ((some "").map String.asBytes)) (some "") :=
    yields_optString (by simp [Short, String.asBytes])
  have emptied := read (text.asBytes ++ rest)
  rw [Out.optBytes, Out.bytes, count]
  simpa [Out.optBytes, Out.bytes, String.asBytes] using emptied

/-- A string value of such a text is read, if at all, as the empty one. -/
theorem value_of_wrapped {text name : String} {id : Int64} {row : FieldRow}
    (wraps : text.asBytes.length = 2 ^ 32) (short : Short name.asBytes)
    (read : decRow (encRow ⟨id, name, .string text⟩) = .ok row) : row.value = .string "" := by
  obtain ⟨ending, read⟩ := run'_eq_ok.mp read
  simp only [encRow, putValue, List.append_assoc] at read
  obtain ⟨number, rest, came, read⟩ := bind_eq_ok.mp read
  rw [yields_int id] at came
  obtain ⟨-, rfl⟩ := Prod.mk.inj (Except.ok.inj came)
  obtain ⟨field, rest, came, read⟩ := bind_eq_ok.mp read
  rw [yields_string short] at came
  obtain ⟨-, rfl⟩ := Prod.mk.inj (Except.ok.inj came)
  obtain ⟨value, rest, came, read⟩ := bind_eq_ok.mp read
  have kept : row.value = value := by rw [← (Prod.mk.inj (Except.ok.inj read)).1]
  rw [kept]
  obtain ⟨valueType, rest, first, came⟩ := bind_eq_ok.mp came
  rw [yields_string (short_typeStr (.string text))] at first
  obtain ⟨rfl, rfl⟩ := Prod.mk.inj (Except.ok.inj first)
  obtain ⟨column, rest, first, came⟩ := bind_eq_ok.mp came
  change optString (Out.optBytes (some text.asBytes) ++ _) = _ at first
  rw [optString_wrapped wraps] at first
  obtain ⟨rfl, -⟩ := Prod.mk.inj (Except.ok.inj first)
  obtain ⟨int, rest, -, came⟩ := bind_eq_ok.mp came
  obtain ⟨real, rest, -, came⟩ := bind_eq_ok.mp came
  obtain ⟨uuid, rest, -, came⟩ := bind_eq_ok.mp came
  obtain ⟨refRepo, rest, -, came⟩ := bind_eq_ok.mp came
  obtain ⟨shown, rest, -, came⟩ := bind_eq_ok.mp came
  obtain ⟨nameBytes, rest, -, came⟩ := bind_eq_ok.mp came
  exact (Prod.mk.inj (Except.ok.inj came)).1.symm

/-- A text of so many letters. -/
def letters (count : Nat) : String := String.ofList (List.replicate count 'a')

theorem length_letters (count : Nat) : (letters count).asBytes.length = count := by
  have byte : String.utf8EncodeChar 'a' = [97] := by decide
  rw [letters, String.asBytes_ofList, List.flatMap_replicate, byte]
  simp

/-- A position under the zero uuid is read as a root, a text of four gibibytes as an empty one, and
a command key cut short panics. -/
theorem records_misread :
    decRow (encRow ⟨1, "folder", .treeRef (some Uuid.zero) ⟨[97]⟩⟩) =
      .ok ⟨1, "folder", .treeRef none ⟨[97]⟩⟩ ∧
    decRow (encRow ⟨1, "note", .string (letters (2 ^ 32))⟩) ≠
      .ok ⟨1, "note", .string (letters (2 ^ 32))⟩ ∧
    decLabelKey (Out.bytes [] ++ Out.optBytes none ++ Out.optInt none ++ Out.int 0 ++
      Out.optBytes (some [])) = .error .panic := by
  refine ⟨by decide +kernel, ?_, by decide +kernel⟩
  intro read
  have length := length_letters (2 ^ 32)
  have emptied : letters (2 ^ 32) = "" :=
    Value.string.inj (value_of_wrapped length (by decide) read)
  rw [emptied] at length
  exact absurd length (by decide)

end Metafolder
