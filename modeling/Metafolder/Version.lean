import Metafolder.Rows
import Mathlib.Data.ZMod.Basic
import Mathlib.Algebra.BigOperators.Group.List.Basic
import Mathlib.Tactic.Abel

/-!
# Metarecord versions

A version is a sum modulo `2 ^ 53` of a base term and one term per row.  The residue of a version,
its class modulo `2 ^ 53`, turns the wrapping arithmetic of the program into arithmetic in a
commutative group, where patching a version by the rows that moved agrees with recomputing it.
-/

namespace Metafolder

namespace Version

/-- Width of a version in bits. -/
def bits : Nat := 53

/-- Mask keeping a value inside `bits`. -/
def mask : UInt64 := (1 <<< UInt64.ofNat bits) - 1

/-- A number as its eight bytes, the least significant first. -/
def littleEndian (n : UInt64) : Bytes := (ByteCode.bigEndian 8 n.toNat).reverse

/-- `feed`: one length-prefixed chunk of what is hashed. -/
def feed (chunk : Bytes) : Bytes := littleEndian (UInt64.ofNat chunk.length) ++ chunk

/-- `feed_opt`: an optional chunk, present or absent. -/
def feedOpt : Option Bytes → Bytes
  | some chunk => 1 :: feed chunk
  | none => [0]

/-- `version::apply`: a version after a delta. -/
def apply (current add sub : UInt64) : UInt64 := (current + add - sub) &&& mask

/-! ### Residues -/

/-- The class of a number modulo `2 ^ 53`. -/
def residue (n : UInt64) : ZMod (2 ^ 53) := (n.toNat : ZMod (2 ^ 53))

theorem toNat_and_mask (n : UInt64) : (n &&& mask).toNat = n.toNat % 2 ^ 53 := by
  have width : mask.toNat = 2 ^ 53 - 1 := by decide
  rw [UInt64.toNat_and, width, Nat.and_two_pow_sub_one_eq_mod]

@[simp]
theorem residue_and_mask (n : UInt64) : residue (n &&& mask) = residue n := by
  rw [residue, toNat_and_mask, residue, ZMod.natCast_eq_natCast_iff', Nat.mod_mod]

theorem cast_mod (n : Nat) : ((n % 2 ^ 64 : Nat) : ZMod (2 ^ 53)) = n := by
  rw [ZMod.natCast_eq_natCast_iff', Nat.mod_mod_of_dvd]
  exact pow_dvd_pow 2 (by decide)

@[simp]
theorem residue_add (a b : UInt64) : residue (a + b) = residue a + residue b := by
  simp only [residue, UInt64.toNat_add, cast_mod, Nat.cast_add]

@[simp]
theorem residue_sub (a b : UInt64) : residue (a - b) = residue a - residue b := by
  have restored : residue (a - b) + residue b = residue a := by
    rw [← residue_add, UInt64.sub_add_cancel]
  rw [← restored, add_sub_cancel_right]

@[simp]
theorem residue_zero : residue 0 = 0 := by
  simp [residue]

@[simp]
theorem residue_apply (current add sub : UInt64) :
    residue (apply current add sub) = residue current + residue add - residue sub := by
  simp [apply]

theorem and_mask_eq {a b : UInt64} (same : residue a = residue b) : a &&& mask = b &&& mask := by
  apply UInt64.toNat_inj.mp
  rw [toNat_and_mask, toNat_and_mask]
  exact (ZMod.natCast_eq_natCast_iff' _ _ _).mp same

/-! ### The version of a metarecord -/

variable [Externals]

/-- `version::base`: the term a metarecord contributes for itself. -/
def base (uuid : Uuid) : UInt64 :=
  Externals.xxh3 (feed "metarecord".asBytes ++ feed uuid.bytes) &&& mask

/-- The term of a row whose value is stored in `columns`. -/
def columnsTerm (name : String) (columns : EncodedValue) : UInt64 :=
  Externals.xxh3
    (feed "field".asBytes ++ feed name.asBytes ++ feed columns.valueType.asBytes ++
      feedOpt (columns.text.map String.asBytes) ++
      feedOpt (columns.int.map fun n => littleEndian n.toUInt64) ++
      feedOpt (columns.real.map fun f => littleEndian f.bits) ++
      feedOpt columns.uuid ++ feedOpt columns.refRepo ++
      feedOpt (columns.name.map String.asBytes) ++ feedOpt columns.nameBytes) &&& mask

/-- `version::row`: the term a row contributes. -/
def row (name : String) (value : Value) : UInt64 := columnsTerm name (encodeValue value)

/-- `version::rows_sum`: the sum of the terms of some rows. -/
def rowsSum (rows : List FieldRow) : UInt64 :=
  rows.foldl (fun sum held => sum + row held.name held.value) 0 &&& mask

/-- `version::of_rows`: the version of a metarecord holding exactly `rows`. -/
def ofRows (uuid : Uuid) (rows : List FieldRow) : UInt64 := apply (base uuid) (rowsSum rows) 0

/-- `version::delta`: the terms to add and to subtract when `before` gives way to `after`. -/
def delta (before after : List FieldRow) : UInt64 × UInt64 := (rowsSum after, rowsSum before)

/-- The residue of the term a row contributes. -/
def term (held : FieldRow) : ZMod (2 ^ 53) := residue (row held.name held.value)

theorem residue_foldl (rows : List FieldRow) (start : UInt64) :
    residue (rows.foldl (fun sum held => sum + row held.name held.value) start) =
      residue start + (rows.map term).sum := by
  induction rows generalizing start with
  | nil => simp
  | cons head tail ih => simp [ih, term, add_assoc]

@[simp]
theorem residue_rowsSum (rows : List FieldRow) :
    residue (rowsSum rows) = (rows.map term).sum := by
  simp [rowsSum, residue_foldl]

@[simp]
theorem residue_ofRows (uuid : Uuid) (rows : List FieldRow) :
    residue (ofRows uuid rows) = residue (base uuid) + (rows.map term).sum := by
  simp [ofRows]

/-- A masked number with the residue of a version is that version. -/
theorem apply_eq_ofRows {current add sub : UInt64} {uuid : Uuid} {rows : List FieldRow}
    (same : residue current + residue add - residue sub =
      residue (base uuid) + (rows.map term).sum) :
    apply current add sub = ofRows uuid rows := by
  rw [ofRows, apply, apply]
  apply and_mask_eq
  simpa using same

theorem ofRows_eq {uuid : Uuid} {first second : List FieldRow}
    (same : (first.map term).sum = (second.map term).sum) :
    ofRows uuid first = ofRows uuid second := by
  apply apply_eq_ofRows
  simp [same]

/-- Patching the version of `rows` by what moved gives the version of what is left. -/
theorem apply_delta {uuid : Uuid} {rows before after left : List FieldRow}
    (moved : (rows.map term).sum + (after.map term).sum =
      (left.map term).sum + (before.map term).sum) :
    apply (ofRows uuid rows) (delta before after).1 (delta before after).2 = ofRows uuid left := by
  apply apply_eq_ofRows
  simp only [delta, residue_ofRows, residue_rowsSum]
  rw [add_assoc, moved]
  abel

/-! ### What a version depends on -/

/-- The name, the type and the stored value of a row: what its term hashes. -/
def content (held : FieldRow) : String × EncodedValue := (held.name, encodeValue held.value)

@[simp]
theorem row_stored (name : String) (value : Value) : row name value.stored = row name value := by
  simp [row]

@[simp]
theorem term_stored (held : FieldRow) : term held.stored = term held := by
  simp [term]

theorem sum_term_perm {first second : List FieldRow}
    (same : (first.map content).Perm (second.map content)) :
    (first.map term).sum = (second.map term).sum := by
  have terms (rows : List FieldRow) : rows.map term =
      (rows.map content).map fun held => residue (columnsTerm held.1 held.2) := by
    rw [List.map_map]
    rfl
  rw [terms, terms, (same.map _).sum_eq]

theorem ofRows_perm {uuid : Uuid} {first second : List FieldRow} (same : first.Perm second) :
    ofRows uuid first = ofRows uuid second :=
  ofRows_eq (same.map term).sum_eq

theorem base_eq_ofRows (uuid : Uuid) : base uuid = ofRows uuid [] := by
  rw [ofRows, apply, base]
  apply and_mask_eq
  simp [rowsSum]

end Version

end Metafolder
