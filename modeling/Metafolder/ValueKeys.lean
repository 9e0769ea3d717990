import Metafolder.CutCodes
import Metafolder.DerivedKeys

/-!
# The order of value keys

The keys of the value partition sort as the values they are made from, and none is the front of
another's entry; what two texts that are cut at one front lose is left to the reader.
-/

namespace Metafolder

/-! ### What values sort by -/

/-- A number with one zero. -/
def F64.normalized (f : F64) : F64 := if f.isZero then ⟨0⟩ else f

/-- The place of a number among all: its bits as a signed number, those of a negative one from the
sign downwards. -/
def F64.rank (f : F64) : Int :=
  if f.bits.toNat < 2 ^ 63 then f.bits.toNat else 2 ^ 63 - 1 - f.bits.toNat

/-- `f64::total_cmp`. -/
def F64.totalCmp (first second : F64) : Ordering := compare first.rank second.rank

/-- `SortRep`: a value reduced to what it sorts by. -/
inductive SortRep
  | bool (b : Bool)
  | num (f : F64)
  | str (text : String)
  | dateTime (ms : Int64)
  | ref (uuid : Uuid)
  | tree (text : String)

namespace SortRep

/-- `SortRep::group`. -/
def group : SortRep → Nat
  | bool _ => 0
  | num _ => 1
  | str _ => 2
  | dateTime _ => 3
  | ref _ => 4
  | tree _ => 5

/-- The order of representatives: by group, then as the values of the group. -/
def cmp : SortRep → SortRep → Ordering
  | bool one, bool other => compare one other
  | num one, num other => one.totalCmp other
  | str one, str other => compare one.asBytes other.asBytes
  | dateTime one, dateTime other => compare one.toInt other.toInt
  | ref one, ref other => compare one.bytes other.bytes
  | tree one, tree other => compare one.asBytes other.asBytes
  | one, other => compare one.group other.group

end SortRep

/-- `sort_rep`. -/
def sortRep : Value → Option SortRep
  | .bool b => some (.bool b)
  | .int n => some (.num (F64.ofInt n.toInt).normalized)
  | .float f => some (.num f.normalized)
  | .string text => some (.str text)
  | .dateTime ms => some (.dateTime ms)
  | .ref uuid => some (.ref uuid)
  | .refBase uuid => some (.ref uuid)
  | .externalRef _ metarecord => some (.ref metarecord)
  | .treeRef _ name => some (.tree name.display)
  | .hierarchyRef _ name => some (.tree name.display)
  | .nothing => none

/-- The scalar types, the two of numbers as one. -/
inductive Scalar
  | bool
  | number
  | string
  | dateTime

/-- The scalar type of a value that has one. -/
def scalarType : Value → Option Scalar
  | .bool _ => some .bool
  | .int _ => some .number
  | .float _ => some .number
  | .string _ => some .string
  | .dateTime _ => some .dateTime
  | _ => none

/-- The double a number is compared as. -/
def asDouble : Value → Option F64
  | .int n => some (F64.ofInt n.toInt)
  | .float f => some f
  | _ => none

/-- `long_prefix`: what the key of a text that is cut starts with, up to and with the marker. -/
def longPrefix (key : Bytes) : Option Bytes := ByteCode.markedFront key

theorem length_be64 (n : UInt64) : (be64 n).length = 8 := ByteCode.length_bigEndian 8 n.toNat

theorem be64_inj {one other : UInt64} : be64 one = be64 other ↔ one = other := by
  constructor
  · intro same
    exact UInt64.toNat_inj.mp
      (ByteCode.bigEndian_injective one.toNat_lt other.toNat_lt same)
  · rintro rfl
    rfl

/-! ### Values of one type -/

theorem bool_spec {value : Value} (bool : scalarType value = some .bool) :
    ∃ b, value = .bool b := by
  cases value with
  | bool b => exact ⟨b, rfl⟩
  | _ => cases bool

theorem string_spec {value : Value} (string : scalarType value = some .string) :
    ∃ text, value = .string text := by
  cases value with
  | string text => exact ⟨text, rfl⟩
  | _ => cases string

theorem dateTime_spec {value : Value} (date : scalarType value = some .dateTime) :
    ∃ ms, value = .dateTime ms := by
  cases value with
  | dateTime ms => exact ⟨ms, rfl⟩
  | _ => cases date

/-! ### Texts -/

section Texts

variable {bytes : Bytes} {room : Nat}

/-- What is kept of a text that is cut is its front. -/
theorem cutFront_eq {front : Bytes} (cut : ByteCode.cutFront room bytes = some front) :
    front = cutText room bytes ++ [0, 1] := by
  induction bytes generalizing room front with
  | nil => cases cut
  | cons byte rest ih =>
      rw [cutText]
      change front = (if room < (ByteCode.escape byte).length then []
        else ByteCode.escape byte ++ cutText (room - (ByteCode.escape byte).length) rest) ++ [0, 1]
      by_cases full : room < (ByteCode.escape byte).length
      · rw [ByteCode.cutFront_cons_of_lt full] at cut
        rw [if_pos full]
        exact (Option.some.inj cut).symm
      · rw [ByteCode.cutFront_cons_of_le (by omega)] at cut
        obtain ⟨kept, here, rfl⟩ := Option.map_eq_some_iff.mp cut
        rw [if_neg full, ih here, List.append_assoc]

variable [Externals]

/-- The key of a text is its code. -/
theorem textKey_eq_packed (bytes : Bytes) :
    textKey bytes = ByteCode.packed (be64 (Externals.xxh3 bytes)) textMax bytes := by
  change (if (ByteCode.terminated bytes).length ≤ textMax + 2 then ByteCode.terminated bytes
    else cutText textMax bytes ++ [0, 1] ++ be64 (Externals.xxh3 bytes)) = _
  by_cases whole : (ByteCode.terminated bytes).length ≤ textMax + 2
  · rw [if_pos whole, ByteCode.packed_of_le whole]
  · have cut : ByteCode.cutFront textMax bytes ≠ none := fun none =>
      whole (ByteCode.cutFront_eq_none_iff.mp none)
    obtain ⟨front, cut⟩ := Option.ne_none_iff_exists'.mp cut
    rw [if_neg whole, ByteCode.packed_of_cut cut, cutFront_eq cut]

/-- A text keyed whole has no long prefix, and that of any other is what is kept of it. -/
theorem longPrefix_textKey (bytes : Bytes) : longPrefix (textKey bytes) =
    if (ByteCode.terminated bytes).length ≤ textMax + 2 then none
    else some (cutText textMax bytes ++ [0, 1]) := by
  have read := ByteCode.markedFront_packed (be64 (Externals.xxh3 bytes)) textMax bytes []
  rw [List.append_nil, ← textKey_eq_packed] at read
  rw [longPrefix, read]
  by_cases whole : (ByteCode.terminated bytes).length ≤ textMax + 2
  · rw [if_pos whole, ByteCode.cutFront_eq_none_iff.mpr whole]
  · have cut : ByteCode.cutFront textMax bytes ≠ none := fun none =>
      whole (ByteCode.cutFront_eq_none_iff.mp none)
    obtain ⟨front, cut⟩ := Option.ne_none_iff_exists'.mp cut
    rw [if_neg whole, cut, cutFront_eq cut]

/-- Two texts are cut at one front. -/
def CutAlike (one other : Bytes) : Prop :=
  ∃ front, longPrefix (textKey one) = some front ∧ longPrefix (textKey other) = some front

theorem cutAlike_of_cutFront {one other front : Bytes}
    (cut : ByteCode.cutFront textMax one = some front)
    (also : ByteCode.cutFront textMax other = some front) : CutAlike one other := by
  have read (bytes : Bytes) := ByteCode.markedFront_packed (be64 (Externals.xxh3 bytes)) textMax
    bytes []
  refine ⟨front, ?_, ?_⟩
  · rw [longPrefix, textKey_eq_packed, ← cut, ← read, List.append_nil]
  · rw [longPrefix, textKey_eq_packed, ← also, ← read, List.append_nil]

/-- Keys of texts sort as the texts, unless these are cut at one front. -/
theorem compare_textKey (one other : Bytes) :
    CutAlike one other ∨ compare (textKey one) (textKey other) = compare one other := by
  rw [textKey_eq_packed, textKey_eq_packed]
  rcases @ByteCode.compare_packed (be64 (Externals.xxh3 one)) (be64 (Externals.xxh3 other)) textMax
    one other [] [] with ⟨front, cut, also⟩ | sorted
  · exact .inl (cutAlike_of_cutFront cut also)
  · rw [List.append_nil, List.append_nil] at sorted
    rw [sorted, Std.compare_self, Ordering.then_eq]
    exact .inr rfl

/-- Where two entries that start with keys of texts are equal, the texts are, or they have one
hash. -/
theorem textKey_append_eq {one other rest tail : Bytes}
    (same : textKey one ++ rest = textKey other ++ tail) :
    textKey one = textKey other ∧ rest = tail ∧
      (one = other ∨ Externals.xxh3 one = Externals.xxh3 other) := by
  rw [textKey_eq_packed, textKey_eq_packed] at same ⊢
  obtain ⟨rfl, which⟩ := ByteCode.packed_append_eq
    ((length_be64 _).trans (length_be64 _).symm) same
  refine ⟨List.append_cancel_right same, rfl, ?_⟩
  rcases which with ⟨words, -⟩ | ⟨hashes, -⟩
  · exact .inl words
  · exact .inr (be64_inj.mp hashes)

end Texts

/-! ### Numbers and dates -/

/-- Turning the sign bit moves a number by half of the range. -/
theorem toNat_xor_signBit (n : UInt64) : (n ^^^ signBit).toNat =
    if n.toNat < 2 ^ 63 then n.toNat + 2 ^ 63 else n.toNat - 2 ^ 63 := by
  have low : (n.toNat ^^^ 2 ^ 63) % 2 ^ 63 = n.toNat % 2 ^ 63 := by
    rw [Nat.xor_mod_two_pow, Nat.mod_self, Nat.xor_zero]
  have high : (n.toNat ^^^ 2 ^ 63) / 2 ^ 63 = n.toNat / 2 ^ 63 ^^^ 1 := by
    rw [Nat.xor_div_two_pow, Nat.div_self (by decide)]
  have range := n.toNat_lt
  rw [UInt64.toNat_xor]
  change n.toNat ^^^ 2 ^ 63 = _
  split
  · next below =>
    rw [Nat.div_eq_of_lt below] at high
    have one : 0 ^^^ 1 = 1 := rfl
    omega
  · next above =>
    have unit : n.toNat / 2 ^ 63 = 1 := by omega
    rw [unit] at high
    have zero : 1 ^^^ 1 = 0 := rfl
    omega

/-- The key of a number is its place. -/
theorem toNat_numKey (f : F64) : ((numKey f).toNat : Int) = f.normalized.rank + 2 ^ 63 := by
  have bits : (if f.isZero then 0 else f.bits) = f.normalized.bits := by
    rw [F64.normalized]
    split
    · rfl
    · rfl
  have range := f.normalized.bits.toNat_lt
  rw [numKey, bits, F64.rank]
  split
  · next below =>
    rw [toNat_xor_signBit, if_pos below]
    omega
  · next above =>
    have size : UInt64.size = 2 ^ 64 := rfl
    rw [UInt64.toNat_not]
    omega

/-- The key of a date is its place. -/
theorem toNat_dtKey (ms : Int64) : ((dtKey ms).toNat : Int) = ms.toInt + 2 ^ 63 := by
  have unsigned : ms.toUInt64.toNat = ms.toBitVec.toNat := rfl
  have signed : ms.toInt = ms.toBitVec.toInt := rfl
  have range := ms.toBitVec.isLt
  rw [dtKey, toNat_xor_signBit, unsigned, signed, BitVec.toInt_eq_toNat_cond]
  split
  · next below =>
    rw [if_pos (by omega)]
    omega
  · next above =>
    rw [if_neg (by omega)]
    omega

/-- Keys of eight bytes sort as their numbers. -/
theorem compare_be64 {one other : UInt64} {first second : Int} (shift : Int)
    (one_eq : (one.toNat : Int) = first + shift) (other_eq : (other.toNat : Int) = second + shift) :
    compare (be64 one) (be64 other) = compare first second := by
  rw [be64, be64, ByteCode.compare_bigEndian one.toNat_lt other.toNat_lt]
  rcases Nat.lt_trichotomy one.toNat other.toNat with below | same | above
  · rw [Nat.compare_eq_lt.mpr below, Std.compare_eq_lt.mpr (by omega : first < second)]
  · rw [same, Std.compare_self, (by omega : first = second), Std.compare_self]
  · rw [Nat.compare_eq_gt.mpr above, Std.compare_eq_gt.mpr (by omega : second < first)]

/-- Numbers with one place are one number, but for the zeros. -/
theorem rank_normalized_inj {one other : F64} (same : one.normalized.rank = other.normalized.rank) :
    one = other ∨ one.eq other := by
  have range := one.normalized.bits.toNat_lt
  have bound := other.normalized.bits.toNat_lt
  have bits : one.normalized.bits.toNat = other.normalized.bits.toNat := by
    rw [F64.rank, F64.rank] at same
    split at same
    · split at same
      · omega
      · omega
    · split at same
      · omega
      · omega
  have normal : one.normalized = other.normalized := by
    cases first : one.normalized
    cases second : other.normalized
    rw [first, second] at bits
    exact congrArg F64.mk (UInt64.toNat_inj.mp bits)
  have zero : (⟨0⟩ : F64).isZero = true := by decide
  have number {f : F64} (zero : f.isZero = true) : f.isNaN = false := by
    rw [F64.isZero, decide_eq_true_eq] at zero
    rw [F64.isNaN, decide_eq_false_iff_not, zero.1]
    exact fun nan => absurd nan.1 (by decide)
  rw [F64.normalized, F64.normalized] at normal
  split at normal
  · next first =>
    split at normal
    · next second =>
      right
      rw [F64.eq, number first, number second, first, second]
      simp
    · next second =>
      rw [← normal] at second
      exact absurd zero second
  · next first =>
    split at normal
    · next second =>
      rw [normal] at first
      exact absurd zero first
    · exact .inl normal

theorem compare_cons (byte : UInt8) (rest tail : Bytes) :
    compare (byte :: rest) (byte :: tail) = compare rest tail :=
  ByteCode.compare_append_left [byte] rest tail

theorem compare_numKey (one other : F64) : compare (be64 (numKey one)) (be64 (numKey other)) =
    one.normalized.totalCmp other.normalized :=
  compare_be64 (2 ^ 63) (toNat_numKey one) (toNat_numKey other)

theorem compare_dtKey (one other : Int64) :
    compare (be64 (dtKey one)) (be64 (dtKey other)) = compare one.toInt other.toInt :=
  compare_be64 (2 ^ 63) (toNat_dtKey one) (toNat_dtKey other)

/-! ### Where a key ends -/

/-- How many bytes follow the tag of a key, and whether the key of a text follows these. -/
def keyShape (tag : UInt8) : Nat × Bool :=
  if tag = 0 then (1, false)
  else if tag = 1 then (8, false)
  else if tag = 2 then (0, true)
  else if tag = 3 then (8, false)
  else if tag = 4 then (16, false)
  else if tag = 5 then (16, false)
  else if tag = 6 then (32, false)
  else (16, true)

variable [Externals]

/-- A value key is a tag, bytes as many as the tag has, and the key of a text if it has one. -/
theorem valueKey_shape {value : Value} {key : Bytes} (keyed : valueKey value = some key) :
    ∃ (tag : UInt8) (fixed : Bytes) (text : Option Bytes),
      key = tag :: (fixed ++ (text.map textKey).getD []) ∧ fixed.length = (keyShape tag).1 ∧
        text.isSome = (keyShape tag).2 := by
  cases value with
  | nothing => cases keyed
  | bool b => exact ⟨0, [if b then 1 else 0], none, (Option.some.inj keyed).symm, rfl, rfl⟩
  | int n =>
      obtain rfl := Option.some.inj keyed
      exact ⟨1, _, none, by rw [Option.map_none, Option.getD_none, List.append_nil], length_be64 _,
        rfl⟩
  | float f =>
      obtain rfl := Option.some.inj keyed
      exact ⟨1, _, none, by rw [Option.map_none, Option.getD_none, List.append_nil], length_be64 _,
        rfl⟩
  | string text =>
      obtain rfl := Option.some.inj keyed
      exact ⟨2, [], some text.asBytes, rfl, rfl, rfl⟩
  | dateTime ms =>
      obtain rfl := Option.some.inj keyed
      exact ⟨3, _, none, by rw [Option.map_none, Option.getD_none, List.append_nil], length_be64 _,
        rfl⟩
  | ref uuid =>
      obtain rfl := Option.some.inj keyed
      exact ⟨4, _, none, by rw [Option.map_none, Option.getD_none, List.append_nil], uuid.size, rfl⟩
  | refBase uuid =>
      obtain rfl := Option.some.inj keyed
      exact ⟨5, _, none, by rw [Option.map_none, Option.getD_none, List.append_nil], uuid.size, rfl⟩
  | externalRef repo metarecord =>
      obtain rfl := Option.some.inj keyed
      refine ⟨6, metarecord.bytes ++ repo.bytes, none, ?_, ?_, rfl⟩
      · rw [Option.map_none, Option.getD_none, List.append_nil]
        rfl
      · rw [List.length_append, metarecord.size, repo.size]
        rfl
  | treeRef parent name =>
      obtain rfl := Option.some.inj keyed
      exact ⟨7, _, some name.bytes, rfl, (parent.getD Uuid.zero).size, rfl⟩
  | hierarchyRef parent name =>
      obtain rfl := Option.some.inj keyed
      exact ⟨8, _, some name.bytes, rfl, (parent.getD Uuid.zero).size, rfl⟩

/-- No value key is the front of another. -/
theorem valueKey_append_inj {first second : Value} {key other rest tail : Bytes}
    (keyed : valueKey first = some key) (also : valueKey second = some other)
    (same : key ++ rest = other ++ tail) : key = other ∧ rest = tail := by
  obtain ⟨tag, fixed, text, rfl, width, texts⟩ := valueKey_shape keyed
  obtain ⟨mark, bytes, word, rfl, size, words⟩ := valueKey_shape also
  rw [List.cons_append, List.cons_append] at same
  obtain ⟨rfl, bodies⟩ := List.cons.inj same
  rw [List.append_assoc, List.append_assoc] at bodies
  obtain ⟨rfl, texts_eq⟩ := ByteCode.fixed_append_inj (width.trans size.symm) bodies
  rw [← words] at texts
  cases text with
  | none =>
      obtain rfl := Option.isNone_iff_eq_none.mp (by simpa using texts.symm : word.isNone = true)
      exact ⟨rfl, texts_eq⟩
  | some text =>
      obtain ⟨word, rfl⟩ := Option.isSome_iff_exists.mp texts.symm
      obtain ⟨keys, rests, -⟩ := textKey_append_eq texts_eq
      rw [Option.map_some, Option.map_some, Option.getD_some, Option.getD_some, keys]
      exact ⟨rfl, rests⟩

/-- No key with an id is the front of another's entry. -/
theorem valueKey_prefix {first second : Value} {key other : Bytes} {id next : UInt32}
    (keyed : valueKey first = some key) (also : valueKey second = some other)
    (front : key ++ be32 id <+: other ++ be32 next) : key = other ∧ id = next := by
  obtain ⟨rest, same⟩ := front
  rw [List.append_assoc] at same
  obtain ⟨keys, ids⟩ := valueKey_append_inj keyed also same
  rw [← List.append_nil (be32 next)] at ids
  have ended := ByteCode.fixed_append_inj ((length_be32 id).trans (length_be32 next).symm) ids
  exact ⟨keys, be32_inj.mp ended.1⟩

/-! ### What the keys are for -/

/-- Two texts that are keyed alike though they differ. -/
def Collide (first second : Value) : Prop :=
  ∃ one other : String, first = .string one ∧ second = .string other ∧ one ≠ other ∧
    Externals.xxh3 one.asBytes = Externals.xxh3 other.asBytes

/-- Two numbers that are one double, or equal as doubles. -/
def SameDouble (first second : Value) : Prop :=
  ∃ one other, asDouble first = some one ∧ asDouble second = some other ∧
    (one = other ∨ one.eq other)

/-- What the keys of values are to be. -/
structure KeysRight : Prop where
  /-- Keys of values of one scalar type sort as the values, but for two texts cut at one front. -/
  sorted {first second : Value} {scalar : Scalar} : scalarType first = some scalar →
    scalarType second = some scalar → ∃ key other one two,
      valueKey first = some key ∧ valueKey second = some other ∧
      sortRep first = some one ∧ sortRep second = some two ∧
      (compare key other = one.cmp two ∨ ∃ text word : String, first = .string text ∧
        second = .string word ∧ CutAlike text.asBytes word.asBytes)
  /-- So do the keys of texts, of doubles and of dates. -/
  texts (one other : Bytes) :
    CutAlike one other ∨ compare (textKey one) (textKey other) = compare one other
  doubles (one other : F64) : compare (be64 (numKey one)) (be64 (numKey other)) =
    one.normalized.totalCmp other.normalized
  dates (one other : Int64) :
    compare (be64 (dtKey one)) (be64 (dtKey other)) = compare one.toInt other.toInt
  /-- A text that is cut has its front as the long prefix of its key, and no other has one. -/
  fronts (bytes : Bytes) : longPrefix (textKey bytes) =
    if (ByteCode.terminated bytes).length ≤ textMax + 2 then none
    else some (cutText textMax bytes ++ [0, 1])
  /-- No key with an id is the front of another's entry. -/
  delimited {first second : Value} {key other : Bytes} {id next : UInt32} :
    valueKey first = some key → valueKey second = some other →
    key ++ be32 id <+: other ++ be32 next → key = other ∧ id = next
  /-- What is escaped is read back. -/
  escaped (bytes rest : Bytes) :
    ByteCode.unterminated (ByteCode.terminated bytes ++ rest) = some (bytes, rest)
  /-- Values of one scalar type with one key are equal, or numbers that are equal as doubles, or
  texts whose hashes collide. -/
  equal {first second : Value} {scalar : Scalar} {key : Bytes} : scalarType first = some scalar →
    scalarType second = some scalar → valueKey first = some key → valueKey second = some key →
    first = second ∨ SameDouble first second ∨ Collide first second

/-- The key and the representative of a number are those of its double. -/
theorem number_spec {value : Value} (number : scalarType value = some .number) :
    ∃ f, asDouble value = some f ∧ valueKey value = some (1 :: be64 (numKey f)) ∧
      sortRep value = some (.num f.normalized) := by
  cases value with
  | int n => exact ⟨_, rfl, rfl, rfl⟩
  | float f => exact ⟨f, rfl, rfl, rfl⟩
  | nothing => cases number
  | string => cases number
  | bool => cases number
  | dateTime => cases number
  | ref => cases number
  | treeRef => cases number
  | hierarchyRef => cases number
  | refBase => cases number
  | externalRef => cases number

/-- The keys sort as the values of a scalar type do. -/
theorem valueKey_sorted {first second : Value} {scalar : Scalar}
    (one : scalarType first = some scalar) (two : scalarType second = some scalar) :
    ∃ key other one two, valueKey first = some key ∧ valueKey second = some other ∧
      sortRep first = some one ∧ sortRep second = some two ∧
      (compare key other = one.cmp two ∨ ∃ text word : String, first = .string text ∧
        second = .string word ∧ CutAlike text.asBytes word.asBytes) := by
  cases scalar with
  | bool =>
      obtain ⟨b, rfl⟩ := bool_spec one
      obtain ⟨c, rfl⟩ := bool_spec two
      refine ⟨_, _, _, _, rfl, rfl, rfl, rfl, .inl ?_⟩
      cases b with
      | false =>
          cases c with
          | false => rfl
          | true => rfl
      | true =>
          cases c with
          | false => rfl
          | true => rfl
  | number =>
      obtain ⟨f, -, key, rep⟩ := number_spec one
      obtain ⟨g, -, other, more⟩ := number_spec two
      refine ⟨_, _, _, _, key, other, rep, more, .inl ?_⟩
      rw [compare_cons, compare_numKey]
      rfl
  | string =>
      obtain ⟨text, rfl⟩ := string_spec one
      obtain ⟨word, rfl⟩ := string_spec two
      refine ⟨_, _, _, _, rfl, rfl, rfl, rfl, ?_⟩
      rcases compare_textKey text.asBytes word.asBytes with cut | sorted
      · exact .inr ⟨text, word, rfl, rfl, cut⟩
      · left
        rw [compare_cons, sorted]
        rfl
  | dateTime =>
      obtain ⟨ms, rfl⟩ := dateTime_spec one
      obtain ⟨time, rfl⟩ := dateTime_spec two
      refine ⟨_, _, _, _, rfl, rfl, rfl, rfl, .inl ?_⟩
      rw [compare_cons, compare_dtKey]
      rfl

/-- Keys are equal where they have to be, and where a hash collides. -/
theorem eq_of_valueKey {first second : Value} {scalar : Scalar} {key : Bytes}
    (one : scalarType first = some scalar) (two : scalarType second = some scalar)
    (keyed : valueKey first = some key) (also : valueKey second = some key) :
    first = second ∨ SameDouble first second ∨ Collide first second := by
  have same := keyed.trans also.symm
  cases scalar with
  | bool =>
      obtain ⟨b, rfl⟩ := bool_spec one
      obtain ⟨c, rfl⟩ := bool_spec two
      left
      cases b with
      | false =>
          cases c with
          | false => rfl
          | true => cases same
      | true =>
          cases c with
          | false => cases same
          | true => rfl
  | number =>
      obtain ⟨f, double, here, -⟩ := number_spec one
      obtain ⟨g, also, there, -⟩ := number_spec two
      rw [here, there] at same
      have keys := be64_inj.mp (List.cons.inj (Option.some.inj same)).2
      have ranks := toNat_numKey f
      rw [keys, toNat_numKey g] at ranks
      exact .inr (.inl ⟨f, g, double, also, rank_normalized_inj (by omega)⟩)
  | string =>
      obtain ⟨text, rfl⟩ := string_spec one
      obtain ⟨word, rfl⟩ := string_spec two
      have keys : textKey text.asBytes ++ [] = textKey word.asBytes ++ [] := by
        rw [(List.cons.inj (Option.some.inj same)).2]
      obtain ⟨-, -, which⟩ := textKey_append_eq keys
      by_cases equal : text = word
      · exact .inl (congrArg Value.string equal)
      · refine .inr (.inr ⟨text, word, rfl, rfl, equal, ?_⟩)
        rcases which with bytes | hashes
        · exact absurd (String.asBytes_injective bytes) equal
        · exact hashes
  | dateTime =>
      obtain ⟨ms, rfl⟩ := dateTime_spec one
      obtain ⟨time, rfl⟩ := dateTime_spec two
      have keys := be64_inj.mp (List.cons.inj (Option.some.inj same)).2
      have places := toNat_dtKey ms
      rw [keys, toNat_dtKey time] at places
      exact .inl (congrArg Value.dateTime (Int64.toInt_inj.mp (by omega)))

/-- The keys are as they are to be. -/
theorem keys_right : KeysRight where
  sorted := valueKey_sorted
  texts := compare_textKey
  doubles := compare_numKey
  dates := compare_dtKey
  fronts := longPrefix_textKey
  delimited := valueKey_prefix
  escaped := ByteCode.unterminated_terminated
  equal := eq_of_valueKey

end Metafolder
