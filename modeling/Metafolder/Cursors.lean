import Metafolder.Base64Texts
import Metafolder.ByteReaders
import Metafolder.ValueKeys

/-!
# Page cursors

A page of results ends in a cursor: the sort position of its last entry, in base64.  A cursor handed
out is read back as the position it was made from, and no text a client sends makes the reader panic.
-/

namespace Metafolder

open ByteReaders

/-- The base64 engine (`STANDARD_NO_PAD`). -/
class Base64 where
  encode : Bytes → List Char
  decode : List Char → Option Bytes

/-- What the engine does, as it is documented. -/
structure Base64.Documented [Base64] : Prop where
  /-- What is encoded is decoded. -/
  decode_encode {bytes : Bytes} : bytes.length ≤ maxLength →
    Base64.decode (Base64.encode bytes) = some bytes
  /-- What is decoded is a slice of bytes. -/
  length_le {token : List Char} {bytes : Bytes} : Base64.decode token = some bytes →
    bytes.length ≤ maxLength

namespace Cursors

/-- `SortEntry`: what an entry sorts by, one representative for each key, and its uuid. -/
abbrev SortEntry := List (Option SortRep) × Uuid

/-! ### Writing -/

/-- A text, its length first. -/
def encodeText (tag : UInt8) (text : String) : Bytes :=
  tag :: (littleEndian 4 (text.asBytes.length % 2 ^ 32) ++ text.asBytes)

/-- `encode_rep`. -/
def encodeRep : SortRep → Bytes
  | .bool b => [0, if b then 1 else 0]
  | .num f => 1 :: littleEndian 8 f.bits.toNat
  | .str text => encodeText 2 text
  | .dateTime ms => 3 :: littleEndian 8 ms.toUInt64.toNat
  | .ref uuid => 4 :: uuid.bytes
  | .tree text => encodeText 5 text

/-- A representative, or that there is none. -/
def encodeKey : Option SortRep → Bytes
  | none => [0]
  | some rep => 1 :: encodeRep rep

/-- The bytes of a cursor. -/
def cursorBytes (guard : UInt64) (entry : SortEntry) : Bytes :=
  littleEndian 8 guard.toNat ++ (littleEndian 4 (entry.1.length % 2 ^ 32) ++
    (entry.1.flatMap encodeKey ++ entry.2.bytes))

/-- `encode_cursor`; `none` where the bytes are more than a vector can hold. -/
def encodeCursor [Base64] (guard : UInt64) (entry : SortEntry) : Option (List Char) :=
  let bytes := cursorBytes guard entry
  if bytes.length ≤ maxLength then some (Base64.encode bytes) else none

/-! ### Reading -/

/-- `Reader::u8`. -/
def readU8 : Reads UInt8 := do pure (UInt8.ofNat (← number 1))

/-- The length of a text, and the text. -/
def decodeText : Reads String := do
  let length ← number 4
  let bytes ← take length
  accept (String.fromUTF8? ⟨bytes.toArray⟩)

/-- `decode_rep`. -/
def decodeRep : Reads SortRep := do
  let tag ← readU8
  if tag = 0 then do pure (.bool (decide ((← readU8) ≠ 0)))
  else if tag = 1 then do pure (.num ⟨UInt64.ofNat (← number 8)⟩)
  else if tag = 2 then do pure (.str (← decodeText))
  else if tag = 3 then do pure (.dateTime (UInt64.ofNat (← number 8)).toInt64)
  else if tag = 4 then do pure (.ref (Uuid.ofBytes (← take 16)))
  else if tag = 5 then do pure (.tree (← decodeText))
  else accept none

/-- A representative, or that there is none. -/
def decodeKey : Reads (Option SortRep) := do
  let there ← readU8
  if there = 0 then pure none
  else if there = 1 then do pure (some (← decodeRep))
  else accept none

/-- What decoding a cursor comes to. -/
inductive Decoded
  | panicked
  | rejected
  | position (guard : UInt64) (entry : SortEntry)

/-- The bytes of an optional representative in memory. -/
def repSize : Nat := 24

/-- The bytes of a sort key in memory. -/
def sortKeySize : Nat := 32

/-- Room for as many representatives, which panics where there is no such room. -/
def withCapacity (n : Nat) : Reads Unit := fun reader =>
  if n * repSize ≤ maxLength then .read () reader else .panicked

/-- The position in a slice of bytes. -/
def decodePosition (expectedKeys : Nat) : Reads (UInt64 × SortEntry) := do
  let guard ← number 8
  let n ← number 4
  if n ≠ expectedKeys then accept none
  else do
    withCapacity n
    let reps ← times decodeKey n
    let uuid ← take 16
    pure (UInt64.ofNat guard, reps, Uuid.ofBytes uuid)

/-- `decode_cursor`. -/
def decodeCursor [Base64] (token : List Char) (expectedKeys : Nat) : Decoded :=
  match Base64.decode token with
  | none => .rejected
  | some bytes =>
      match decodePosition expectedKeys ⟨bytes, 0⟩ with
      | .panicked => .panicked
      | .rejected => .rejected
      | .read (guard, entry) reader =>
          -- Nothing may follow the uuid.
          if reader.pos ≠ bytes.length then .rejected else .position guard entry

/-! ### What is read back -/

theorem yields_readU8 (byte : UInt8) : Yields readU8 [byte] byte := by
  have small : byte.toNat < 256 ^ 1 := byte.toNat_lt
  have word : littleEndian 1 byte.toNat = [byte] := by
    have single : littleEndian 1 byte.toNat = [UInt8.ofNat byte.toNat] := rfl
    rw [single, UInt8.ofNat_toNat]
  have read := yields_map UInt8.ofNat (yields_number small)
  rw [word, UInt8.ofNat_toNat] at read
  exact read

theorem yields_text {text : String} (short : text.asBytes.length < 2 ^ 32) :
    Yields decodeText (littleEndian 4 (text.asBytes.length % 2 ^ 32) ++ text.asBytes) text := by
  have size : text.asBytes.length < 256 ^ 4 := short
  rw [Nat.mod_eq_of_lt short]
  have bytes := @yields_bind _ _ _ (fun bytes => accept (String.fromUTF8? ⟨bytes.toArray⟩)) _ _ _ _
    (yields_take text.asBytes) (yields_accept (fromUTF8?_asBytes text))
  rw [List.append_nil] at bytes
  exact yields_bind (yields_number size) bytes

/-- The text of a representative has a length of 32 bits. -/
def ShortText : SortRep → Prop
  | .str text => text.asBytes.length < 2 ^ 32
  | .tree text => text.asBytes.length < 2 ^ 32
  | _ => True

/-- A representative is read back. -/
theorem yields_rep {rep : SortRep} (short : ShortText rep) :
    Yields decodeRep (encodeRep rep) rep := by
  cases rep with
  | bool b =>
      have bit : decide ((if b then 1 else 0 : UInt8) ≠ 0) = b := by
        cases b with
        | false => rfl
        | true => rfl
      have read := yields_map (fun byte : UInt8 => SortRep.bool (decide (byte ≠ 0)))
        (yields_readU8 (if b then 1 else 0))
      rw [bit] at read
      exact yields_bind (yields_readU8 0) read
  | num f =>
      have size : f.bits.toNat < 256 ^ 8 := f.bits.toNat_lt
      have read := yields_map (fun n => SortRep.num ⟨UInt64.ofNat n⟩) (yields_number size)
      rw [UInt64.ofNat_toNat] at read
      exact yields_bind (yields_readU8 1) read
  | str text => exact yields_bind (yields_readU8 2) (yields_map SortRep.str (yields_text short))
  | dateTime ms =>
      have size : ms.toUInt64.toNat < 256 ^ 8 := ms.toUInt64.toNat_lt
      have read := yields_map (fun n => SortRep.dateTime (UInt64.ofNat n).toInt64)
        (yields_number size)
      rw [UInt64.ofNat_toNat, Int64.toInt64_toUInt64] at read
      exact yields_bind (yields_readU8 3) read
  | ref uuid =>
      have bytes := yields_take uuid.bytes
      rw [uuid.size] at bytes
      have read := yields_map (fun bytes => SortRep.ref (Uuid.ofBytes bytes)) bytes
      rw [Uuid.ofBytes_bytes] at read
      exact yields_bind (yields_readU8 4) read
  | tree text => exact yields_bind (yields_readU8 5) (yields_map SortRep.tree (yields_text short))

theorem yields_key {key : Option SortRep} (short : ∀ rep ∈ key, ShortText rep) :
    Yields decodeKey (encodeKey key) key := by
  cases key with
  | none => exact yields_bind (yields_readU8 0) (yields_pure none)
  | some rep =>
      exact yields_bind (yields_readU8 1) (yields_map some (yields_rep (short rep rfl)))

/-- What a position is to fit: the number of its keys and the lengths of its texts are written in 32
bits. -/
structure Fits (entry : SortEntry) : Prop where
  keys : entry.1.length < 2 ^ 32
  texts : ∀ key ∈ entry.1, ∀ rep ∈ key, ShortText rep

/-- A position is read back. -/
theorem yields_position {entry : SortEntry} (fits : Fits entry) (guard : UInt64) :
    Yields (decodePosition entry.1.length) (cursorBytes guard entry) (guard, entry) := by
  have whole : guard.toNat < 256 ^ 8 := guard.toNat_lt
  have keys : entry.1.length < 256 ^ 4 := fits.keys
  have room : Yields (withCapacity entry.1.length) [] () := by
    have least := fits.keys
    have most : maxLength = 2 ^ 63 - 1 := rfl
    have size : repSize = 24 := rfl
    intro front rest short
    rw [withCapacity, size, if_pos (by omega)]
    rfl
  have uuid := yields_take entry.2.bytes
  rw [entry.2.size] at uuid
  have last := yields_map (fun bytes => (UInt64.ofNat guard.toNat, entry.1, Uuid.ofBytes bytes))
    uuid
  rw [Uuid.ofBytes_bytes] at last
  have reps := @yields_bind _ _ _ (fun reps : List (Option SortRep) => do
      let uuid ← take 16
      pure (UInt64.ofNat guard.toNat, reps, Uuid.ofBytes uuid)) _ _ _ _
    (yields_times fun key member => yields_key (fits.texts key member)) last
  have same : (UInt64.ofNat guard.toNat, entry.1, entry.2) = (guard, entry) := by
    rw [UInt64.ofNat_toNat]
  rw [cursorBytes, Nat.mod_eq_of_lt fits.keys, ← same]
  refine yields_bind (yields_number whole) (yields_bind (yields_number keys) ?_)
  rw [if_neg (fun differ => differ rfl)]
  exact @yields_bind _ _ _ _ [] _ _ _ room reps

/-! ### No panic -/

theorem safe_readU8 : Safe readU8 := safe_bind (safe_number (by decide)) fun _ => safe_pure _

/-- The length of a text is less than a slice can have. -/
theorem safe_decodeText : Safe decodeText := by
  refine safe_bind_of (safe_number (by decide)) fun length read => ?_
  have small := number_lt read
  have most : maxLength = 2 ^ 63 - 1 := rfl
  exact safe_bind (safe_take (by omega)) fun _ => safe_accept _

theorem safe_decodeRep : Safe decodeRep := by
  refine safe_bind safe_readU8 fun tag => ?_
  split
  · exact safe_bind safe_readU8 fun _ => safe_pure _
  · split
    · exact safe_bind (safe_number (by decide)) fun _ => safe_pure _
    · split
      · exact safe_bind safe_decodeText fun _ => safe_pure _
      · split
        · exact safe_bind (safe_number (by decide)) fun _ => safe_pure _
        · split
          · exact safe_bind (safe_take (by decide)) fun _ => safe_pure _
          · split
            · exact safe_bind safe_decodeText fun _ => safe_pure _
            · exact safe_accept none

theorem safe_decodeKey : Safe decodeKey := by
  refine safe_bind safe_readU8 fun there => ?_
  split
  · exact safe_pure none
  · split
    · exact safe_bind safe_decodeRep fun _ => safe_pure _
    · exact safe_accept none

/-- No slice of bytes makes the reader panic, whatever lengths it claims. -/
theorem safe_decodePosition {expectedKeys : Nat} (vector : expectedKeys * sortKeySize ≤ maxLength) :
    Safe (decodePosition expectedKeys) := by
  refine safe_bind (safe_number (by decide)) fun guard => ?_
  refine safe_bind (safe_number (by decide)) fun n => ?_
  split
  · exact safe_accept none
  · next same =>
    rw [ne_eq, Decidable.not_not] at same
    subst same
    have room : Safe (withCapacity n) := by
      have wide : sortKeySize = 32 := rfl
      have size : repSize = 24 := rfl
      intro reader within
      rw [withCapacity, if_pos (by rw [wide] at vector; rw [size]; omega)]
      exact safe_pure () reader within
    refine safe_bind room fun _ => ?_
    refine safe_bind (safe_times safe_decodeKey n) fun reps => ?_
    exact safe_bind (safe_take (by decide)) fun uuid => safe_pure _

/-! ### Cursors -/

section

variable [Base64]

/-- A cursor handed out is read back as the position it was made from, and no text a client may send
makes the reader panic. -/
theorem cursors_right (documented : Base64.Documented) :
    (∀ (guard : UInt64) (entry : SortEntry) (token : List Char), Fits entry →
      encodeCursor guard entry = some token →
        decodeCursor token entry.1.length = .position guard entry) ∧
    ∀ (token : List Char) (expectedKeys : Nat), expectedKeys * sortKeySize ≤ maxLength →
      decodeCursor token expectedKeys ≠ .panicked := by
  constructor
  · intro guard entry token fits handed
    rw [encodeCursor] at handed
    split at handed
    · next short =>
      obtain rfl := Option.some.inj handed
      have read := yields_position fits guard [] [] (by simpa using short)
      rw [List.append_nil, List.nil_append] at read
      rw [decodeCursor, documented.decode_encode short]
      dsimp only
      have start : (⟨cursorBytes guard entry, 0⟩ : Reader) =
          ⟨cursorBytes guard entry, ([] : Bytes).length⟩ := rfl
      rw [start, read]
      dsimp only
      rw [List.length_nil, Nat.zero_add, if_neg (fun differ => differ rfl)]
    · cases handed
  · intro token expectedKeys vector panicked
    rw [decodeCursor] at panicked
    cases decoded : Base64.decode token with
    | none =>
        rw [decoded] at panicked
        cases panicked
    | some bytes =>
        rw [decoded] at panicked
        dsimp only at panicked
        have calm := (safe_decodePosition vector ⟨bytes, 0⟩
          ⟨Nat.zero_le _, documented.length_le decoded⟩).1
        cases came : decodePosition expectedKeys ⟨bytes, 0⟩ with
        | panicked => exact calm came
        | rejected =>
            rw [came] at panicked
            cases panicked
        | read value reader =>
            obtain ⟨guard, entry⟩ := value
            rw [came] at panicked
            dsimp only at panicked
            split at panicked
            · cases panicked
            · cases panicked

end

/-! ### A cursor on one key -/

/-- The engine on slices. -/
abbrev plainBase64 : Base64 where
  encode := Base64Texts.encode
  decode token := (Base64Texts.decode token).filter fun bytes => bytes.length ≤ maxLength

theorem documented_plain : @Base64.Documented plainBase64 := by
  let _ : Base64 := plainBase64
  refine ⟨fun {bytes} short => ?_, fun {token bytes} decoded => ?_⟩
  · change (Base64Texts.decode (Base64Texts.encode bytes)).filter _ = _
    rw [Base64Texts.decode_encode, Option.filter_some, if_pos (decide_eq_true short)]
  · exact of_decide_eq_true (Option.filter_eq_some_iff.mp decoded).2

/-- A position at a text and one at no value. -/
def sampleEntry : SortEntry := ([some (.str "tab"), none], Uuid.zero)

theorem fits_sample : Fits sampleEntry := by
  refine ⟨by decide, fun key member rep some_rep => ?_⟩
  rcases List.mem_cons.mp member with rfl | member
  · obtain rfl := Option.some.inj some_rep
    change "tab".asBytes.length < 2 ^ 32
    decide
  · obtain rfl := List.mem_singleton.mp member
    cases some_rep

/-- The position is read back from its cursor. -/
theorem cursor_of_sample :
    letI : Base64 := plainBase64
    ∃ token, encodeCursor 7 sampleEntry = some token ∧
      decodeCursor token 2 = .position 7 sampleEntry := by
  let _ : Base64 := plainBase64
  have short : (cursorBytes 7 sampleEntry).length ≤ maxLength := by decide
  have handed : encodeCursor 7 sampleEntry =
      some (Base64.encode (cursorBytes 7 sampleEntry)) := by
    rw [encodeCursor]
    exact if_pos short
  exact ⟨_, handed, (cursors_right documented_plain).1 7 sampleEntry _ fits_sample handed⟩

end Cursors
end Metafolder
