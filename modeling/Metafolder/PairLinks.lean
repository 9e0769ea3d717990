import Metafolder.PairStore

/-!
# What the sync store is read back as

A link is read back as it was written.  A snapshot field is, when its value is one the columns keep
and JSON has a number for a float in it.  The keys of a snapshot are the ones its link begins.
-/

namespace Metafolder

/-! ### Hexadecimal texts -/

namespace Hex

theorem digit_hexDigit {n : Nat} (small : n < 16) : digit (Uuid.hexDigit n) = some n := by
  have each : ∀ n, n < 16 → digit (Uuid.hexDigit n) = some n := by decide
  exact each n small

theorem pairs_hexByte (bytes : Bytes) : pairs (bytes.flatMap Uuid.hexByte) = some bytes := by
  induction bytes with
  | nil => rfl
  | cons byte rest ih =>
      have small : byte.toNat < 256 := byte.toNat_lt
      have whole : UInt8.ofNat (byte.toNat / 16 * 16 + byte.toNat % 16) = byte := by
        rw [Nat.div_add_mod', UInt8.ofNat_toNat]
      have split : (byte :: rest).flatMap Uuid.hexByte =
          Uuid.hexDigit (byte.toNat / 16) :: Uuid.hexDigit (byte.toNat % 16) ::
            rest.flatMap Uuid.hexByte := rfl
      rw [split, pairs, digit_hexDigit (by omega), digit_hexDigit (by omega), ih]
      exact congrArg (fun first => some (first :: rest)) whole

@[simp]
theorem decode_encode (bytes : Bytes) : decode (encode bytes) = some bytes := by
  rw [decode, encode, String.toList_ofList, pairs_hexByte]

end Hex

namespace SyncDb

open Sync (Side)

/-! ### Links -/

theorem linkSlice_mid {start length : Nat} (front mid back : Bytes) (isStart : start = front.length)
    (isLength : length = mid.length) :
    linkSlice (front ++ (mid ++ back)) start length = .ok mid := by
  rw [linkSlice, if_pos]
  · rw [isStart, isLength, List.drop_left, List.take_left]
    rfl
  · rw [isStart, isLength, List.length_append, List.length_append]
    omega

/-- A version is read back, and the place after it found. -/
theorem decVersion_encVersion {start : Nat} (front back : Bytes) (version : Option UInt64)
    (isStart : start = front.length) :
    decVersion (front ++ (encVersion version ++ back)) start =
      .ok (version, start + (encVersion version).length) := by
  cases version with
  | none =>
      have flag : linkSlice (front ++ ([0] ++ back)) start 1 = .ok [0] :=
        linkSlice_mid front [0] back isStart rfl
      rw [decVersion, encVersion, flag]
      rfl
  | some version =>
      have flag : linkSlice (front ++ ([1] ++ (ByteCode.bigEndian 8 version.toNat ++ back))) start 1 =
          .ok [1] := linkSlice_mid front [1] _ isStart rfl
      have held : linkSlice (front ++ [1] ++ (ByteCode.bigEndian 8 version.toNat ++ back))
          (start + 1) 8 = .ok (ByteCode.bigEndian 8 version.toNat) :=
        linkSlice_mid _ _ _ (by rw [isStart, List.length_append]; rfl)
          (ByteCode.length_bigEndian 8 _).symm
      rw [List.append_assoc] at held
      have number : UInt64.ofNat (ByteCode.ofBigEndian (ByteCode.bigEndian 8 version.toNat)) =
          version := by
        have fits : version.toNat < 256 ^ 8 := version.toNat_lt
        rw [ByteCode.ofBigEndian_bigEndian, Nat.mod_eq_of_lt fits, UInt64.ofNat_toNat]
      have written : encVersion (some version) ++ back =
          [1] ++ (ByteCode.bigEndian 8 version.toNat ++ back) := rfl
      have length : (encVersion (some version)).length = 9 := by
        rw [encVersion, List.length_cons, ByteCode.length_bigEndian]
      rw [decVersion, written, flag, length]
      change (linkSlice _ _ _ >>= _) = _
      rw [held]
      change Except.ok (some (UInt64.ofNat _), start + 9) = _
      rw [number]

/-- A link is read back as it was written. -/
theorem decLink_encLink (link : Link) : decLink link.uuid (encLink link) = .ok link := by
  have sizeA := link.recordA.size
  have sizeB := link.recordB.size
  have first : linkSlice (encLink link) 0 16 = .ok link.recordA.bytes :=
    linkSlice_mid [] _ _ rfl sizeA.symm
  have second : linkSlice (encLink link) 16 16 = .ok link.recordB.bytes :=
    linkSlice_mid link.recordA.bytes _ _ sizeA.symm sizeB.symm
  have versionA : decVersion (encLink link) 32 =
      .ok (link.versionA, 32 + (encVersion link.versionA).length) := by
    rw [encLink, ← List.append_assoc]
    exact decVersion_encVersion _ _ _ (by rw [List.length_append, sizeA, sizeB])
  have versionB : decVersion (encLink link) (32 + (encVersion link.versionA).length) =
      .ok (link.versionB, 32 + (encVersion link.versionA).length +
        (encVersion link.versionB).length) := by
    have placed := @decVersion_encVersion (32 + (encVersion link.versionA).length)
      (link.recordA.bytes ++ link.recordB.bytes ++ encVersion link.versionA) [] link.versionB
      (by rw [List.length_append, List.length_append, sizeA, sizeB])
    rwa [List.append_nil, List.append_assoc, List.append_assoc] at placed
  rw [decLink, versionA]
  change (decVersion _ _ >>= _) = _
  rw [versionB]
  change (linkSlice _ _ _ >>= _) = _
  rw [first]
  change (bytesToUuid _ >>= _) = _
  rw [bytesToUuid_bytes]
  change (linkSlice _ _ _ >>= _) = _
  rw [second]
  change (bytesToUuid _ >>= _) = _
  rw [bytesToUuid_bytes]
  rfl

theorem encLink_injective {first second : Link} (named : first.uuid = second.uuid)
    (same : encLink first = encLink second) : first = second := by
  have read := decLink_encLink first
  rw [named, same, decLink_encLink] at read
  exact (Except.ok.inj read).symm

/-! ### Snapshot fields -/

theorem hexColumn_encode (column : Option Bytes) :
    hexColumn (column.map Hex.encode) = .ok column := by
  cases column with
  | none => rfl
  | some bytes =>
      rw [Option.map_some, hexColumn, transpose, Hex.decode_encode]
      rfl

theorem transpose_bytesToUuid (uuid : Option Uuid) :
    transpose bytesToUuid (uuid.map Uuid.bytes) = .ok uuid := by
  cases uuid with
  | none => rfl
  | some uuid =>
      rw [Option.map_some, transpose, bytesToUuid_bytes]
      rfl

theorem transpose_sideParse (side : Option Side) :
    transpose sideParse (side.map sideName) = .ok side := by
  cases side with
  | none => rfl
  | some side => cases side <;> rfl

section

variable [FloatJson]

/-- A value a snapshot field gives back: no position names the zero uuid as its parent, and a float
is a number JSON has, read back as it was. -/
def Kept (value : Value) : Prop :=
  value.stored = value ∧ ∀ f, value = .float f → (FloatJson.write f).bind FloatJson.read = some f

/-- A field is read back with the value its columns have, the float read back. -/
theorem decField_encField (field : SnapshotField) :
    decField (encField field) = (do
      let real ← floatColumn ((encodeValue field.value).real.bind FloatJson.write)
      let value ← decodeValue { encodeValue field.value with real := real }
      pure { field with value }) := by
  have pointed := hexColumn_encode (field.valueUuidB.map Uuid.bytes)
  rw [Option.map_map] at pointed
  rw [decField]
  refine bind_congr fun real => ?_
  simp only [encField, hexColumn_encode]
  change (do
    let value ← decodeValue { encodeValue field.value with real := real }
    let uuidB ← hexColumn (field.valueUuidB.map (Hex.encode ∘ Uuid.bytes))
    let valueUuidB ← transpose bytesToUuid uuidB
    let side ← transpose sideParse (field.side.map sideName)
    pure (SnapshotField.mk field.name value valueUuidB side)) = _
  refine bind_congr fun value => ?_
  rw [pointed]
  change (transpose _ _ >>= _) = _
  rw [transpose_bytesToUuid]
  change (transpose _ _ >>= _) = _
  rw [transpose_sideParse]
  rfl

/-- What holds no float is read back from its columns. -/
theorem decField_of_real (field : SnapshotField) (real : (encodeValue field.value).real = none) :
    decField (encField field) = .ok { field with value := field.value.stored } := by
  have same : { encodeValue field.value with real := none } = encodeValue field.value := by rw [← real]
  rw [decField_encField, real]
  change (decodeValue { encodeValue field.value with real := none } >>= _) = _
  rw [same, decodeValue_encodeValue]
  rfl

theorem kept_of_real {value : Value} (real : (encodeValue value).real = none) :
    Kept value ↔ value.stored = value := by
  refine and_iff_left fun f isFloat => ?_
  rw [isFloat] at real
  cases real

/-- A field is read back as it was exactly when its value is kept. -/
theorem decField_eq_iff (field : SnapshotField) :
    decField (encField field) = .ok field ↔ Kept field.value := by
  obtain ⟨name, value, valueUuidB, side⟩ := field
  have columns (real : (encodeValue value).real = none) :
      decField (encField ⟨name, value, valueUuidB, side⟩) = .ok ⟨name, value, valueUuidB, side⟩ ↔
        Kept value := by
    rw [decField_of_real _ real, kept_of_real real]
    simp
  cases value with
  | float f =>
      rw [decField_encField]
      change (floatColumn (FloatJson.write f) >>= _) = _ ↔ _
      have kept : Kept (.float f) ↔ (FloatJson.write f).bind FloatJson.read = some f := by
        constructor
        · intro held
          exact held.2 f rfl
        · intro same
          refine ⟨rfl, fun other isFloat => ?_⟩
          cases isFloat
          exact same
      rw [kept]
      cases FloatJson.write f with
      | none => exact iff_of_false (by intro read; cases read) (by intro same; cases same)
      | some text =>
          rw [Option.bind_some, floatColumn, transpose]
          cases FloatJson.read text with
          | none => exact iff_of_false (by intro read; cases read) (by intro same; cases same)
          | some again =>
              change Except.ok (SnapshotField.mk name (.float again) valueUuidB side) = _ ↔ _
              simp
  | _ => exact columns rfl

end

/-! ### The keys of snapshots -/

theorem compare_append {first second : Bytes} (width : first.length = second.length)
    (restFirst restSecond : Bytes) : compare (first ++ restFirst) (second ++ restSecond) =
      (compare first second).then (compare restFirst restSecond) := by
  induction first generalizing second with
  | nil =>
      obtain rfl := List.eq_nil_of_length_eq_zero width.symm
      rw [Std.ReflOrd.compare_self]
      rfl
  | cons byte first ih =>
      cases second with
      | nil => cases width
      | cons other second =>
          have widths : first.length = second.length := Nat.succ.inj width
          rw [List.cons_append, List.cons_append, List.compare_cons_cons, List.compare_cons_cons,
            ih widths]
          cases compare byte other with
          | lt => rfl
          | eq => rfl
          | gt => rfl

/-- No string of a width is above the one of `FF`. -/
theorem compare_top_isLE (bytes : Bytes) :
    (compare bytes (List.replicate bytes.length 0xFF)).isLE := by
  induction bytes with
  | nil => rfl
  | cons byte rest ih =>
      rw [List.length_cons, List.replicate_succ, List.compare_cons_cons, Ordering.isLE_then_iff_or]
      have top : byte.toNat < 256 := byte.toNat_lt
      cases Nat.lt_or_eq_of_le (Nat.le_of_lt_succ top) with
      | inl less =>
          refine .inl (Std.compare_eq_lt.mpr (UInt8.lt_iff_toNat_lt.mpr ?_))
          exact less
      | inr equal =>
          exact .inr ⟨Std.compare_eq_iff_eq.mpr (UInt8.toNat_inj.mp equal), ih⟩

/-- The keys a snapshot is deleted under are the ones of its link. -/
theorem between_iff (link other : Uuid) (place : Nat) :
    (compare link.bytes (snapKey other place)).isLE ∧
      (compare (snapKey other place) (link.bytes ++ [0xFF, 0xFF, 0xFF, 0xFF])).isLE ↔
      other = link := by
  have lower : compare link.bytes (snapKey other place) =
      (compare link.bytes other.bytes).then (compare [] (ByteCode.bigEndian 4 place)) := by
    have same := compare_append (link.size.trans other.size.symm) [] (ByteCode.bigEndian 4 place)
    rwa [List.append_nil] at same
  have upper := compare_append (other.size.trans link.size.symm) (ByteCode.bigEndian 4 place)
    [0xFF, 0xFF, 0xFF, 0xFF]
  have least : (compare [] (ByteCode.bigEndian 4 place)).isLE := List.isLE_compare_nil_left
  have most := compare_top_isLE (ByteCode.bigEndian 4 place)
  rw [ByteCode.length_bigEndian] at most
  rw [lower, snapKey, upper, Ordering.isLE_then_iff_and, Ordering.isLE_then_iff_and]
  constructor
  · intro between
    have same := Std.OrientedCmp.isLE_antisymm between.2.1 between.1.1
    exact Uuid.ext (Std.compare_eq_iff_eq.mp same)
  · intro same
    rw [same, Std.ReflOrd.compare_self]
    exact ⟨⟨rfl, .inr least⟩, rfl, .inr most⟩

theorem get_deleteSnapshot (snaps : Table StoredField) (link other : Uuid) (place : Nat) :
    (deleteSnapshot snaps link).get (snapKey other place) =
      if other = link then none else snaps.get (snapKey other place) := by
  rw [deleteSnapshot, Table.get_deleteRange]
  exact if_congr (between_iff link other place) rfl rfl

/-- Deleting a snapshot puts nothing. -/
theorem get_of_deleteSnapshot {snaps : Table StoredField} {link : Uuid} {key : Bytes}
    {stored : StoredField} (held : (deleteSnapshot snaps link).get key = some stored) :
    snaps.get key = some stored := by
  rw [deleteSnapshot, Table.get_deleteRange] at held
  split at held
  · cases held
  · exact held

theorem snapKey_inj {link other : Uuid} {place next : Nat} (small : place < 2 ^ 32)
    (fits : next < 2 ^ 32) (same : snapKey link place = snapKey other next) :
    link = other ∧ place = next := by
  obtain ⟨named, places⟩ := Uuid.bytes_append_inj same
  exact ⟨named, ByteCode.bigEndian_injective small fits places⟩

/-- A number's low bytes are the ones of its remainder. -/
theorem bigEndian_mod (width number : Nat) :
    ByteCode.bigEndian width (number % 256 ^ width) = ByteCode.bigEndian width number := by
  induction width generalizing number with
  | zero => rfl
  | succ width ih =>
      have high : number % 256 ^ (width + 1) / 256 = number / 256 % 256 ^ width := by
        rw [pow_succ', Nat.mod_mul_right_div_self]
      have low : UInt8.ofNat (number % 256 ^ (width + 1)) = UInt8.ofNat number := by
        apply UInt8.toNat_inj.mp
        rw [UInt8.toNat_ofNat', UInt8.toNat_ofNat', pow_succ']
        exact Nat.mod_mul_right_mod _ _ _
      rw [ByteCode.bigEndian, ByteCode.bigEndian, high, low, ih]

/-- A place counts modulo what a `u32` holds. -/
theorem snapKey_mod (link : Uuid) (place : Nat) : snapKey link (place % 2 ^ 32) = snapKey link place :=
  congrArg (link.bytes ++ ·) (bigEndian_mod 4 place)

theorem snapKey_ne {link other : Uuid} (differ : link ≠ other) (place next : Nat) :
    snapKey link place ≠ snapKey other next :=
  fun same => differ (Uuid.bytes_append_inj same).1

/-- Keys of one link come in the order of their places. -/
theorem compare_snapKey {link : Uuid} {place next : Nat} (less : place < next)
    (fits : next < 2 ^ 32) : compare (snapKey link place) (snapKey link next) = .lt := by
  rw [snapKey, snapKey, compare_append rfl, Std.ReflOrd.compare_self, Ordering.then_eq_lt]
  refine .inr ⟨rfl, (ByteCode.compare_eq_lt_iff (by simp)).mpr ?_⟩
  have small : place < 256 ^ 4 := less.trans fits
  have bound : next < 256 ^ 4 := fits
  rwa [ByteCode.ofBigEndian_bigEndian, ByteCode.ofBigEndian_bigEndian, Nat.mod_eq_of_lt small,
    Nat.mod_eq_of_lt bound]

section

variable [FloatJson]

/-- A snapshot put in place touches no other link. -/
theorem get_putFields_of_ne {link other : Uuid} (differ : other ≠ link) (next : Nat)
    (snaps : Table StoredField) (place : Nat) (fields : List SnapshotField) :
    (putFields snaps link place fields).get (snapKey other next) = snaps.get (snapKey other next) := by
  induction fields generalizing snaps place with
  | nil => rfl
  | cons field rest ih =>
      rw [putFields, ih, Table.get_put_of_ne _ _ (snapKey_ne differ.symm place next)]

/-- What is put under a place the fields reach. -/
theorem get_putFields (link : Uuid) {next : Nat} (small : next < 2 ^ 32)
    (snaps : Table StoredField) (place : Nat) (fields : List SnapshotField)
    (fits : place + fields.length ≤ 2 ^ 32) :
    (putFields snaps link place fields).get (snapKey link next) =
      if place ≤ next ∧ next < place + fields.length then (fields[next - place]?).map encField
      else snaps.get (snapKey link next) := by
  induction fields generalizing snaps place with
  | nil =>
      rw [if_neg]
      · rfl
      · intro reached
        have length : ([] : List SnapshotField).length = 0 := rfl
        omega
  | cons field rest ih =>
      have length : (field :: rest).length = rest.length + 1 := rfl
      rw [putFields, ih _ _ (by omega), length]
      cases Nat.lt_trichotomy next place with
      | inl before =>
          rw [if_neg (by omega), if_neg (by omega), Table.get_put_of_ne]
          intro same
          have equal := (snapKey_inj (by omega) small same).2
          omega
      | inr further =>
          cases further with
          | inl here =>
              rw [if_neg (by omega), if_pos (by omega), here, Table.get_put_self, Nat.sub_self]
              rfl
          | inr after =>
              have shifted : next - place = next - (place + 1) + 1 := by omega
              have differ : snapKey link place ≠ snapKey link next := by
                intro same
                have equal := (snapKey_inj (by omega) small same).2
                omega
              rw [shifted, List.getElem?_cons_succ, Table.get_put_of_ne _ _ differ]
              refine if_congr ?_ rfl rfl
              omega

/-- A snapshot puts fields under the keys of its link only. -/
theorem get_of_putFields {link : Uuid} {key : Bytes} {stored : StoredField}
    (snaps : Table StoredField) (place : Nat) (fields : List SnapshotField)
    (held : (putFields snaps link place fields).get key = some stored) :
    snaps.get key = some stored ∨ ∃ next, key = snapKey link next := by
  induction fields generalizing snaps place with
  | nil => exact .inl held
  | cons field rest ih =>
      cases ih _ _ held with
      | inr placed => exact .inr placed
      | inl before =>
          rw [Table.get_put] at before
          split at before
          · next same => exact .inr ⟨place, same.symm⟩
          · exact .inl before

end

end SyncDb

end Metafolder
