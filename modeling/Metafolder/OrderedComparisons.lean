import Metafolder.SchemaQuestions

/-!
# Ordered comparisons

An ordered comparison reads a range of a partition.  Keys sort as what they were made from, but for
texts cut at one front: those cut where the operand is are read back, whether the range is walked or
some candidates are checked on their own rows.
-/

namespace ByteCode

/-- What a cut code starts with ends with the mark. -/
theorem markedFront_spec {code front : Bytes} (found : markedFront code = some front) :
    (∃ start, front = start ++ [1]) ∧ front <+: code := by
  fun_induction markedFront code generalizing front with
  | case1 => cases found
  | case2 => cases found
  | case3 => cases found
  | case4 rest =>
      obtain rfl := Option.some.inj found
      exact ⟨⟨[0], rfl⟩, rest, rfl⟩
  | case5 second rest _ _ ih =>
      obtain ⟨inner, read, rfl⟩ := Option.map_eq_some_iff.mp found
      obtain ⟨⟨start, rfl⟩, tail, rfl⟩ := ih read
      exact ⟨⟨_ :: _ :: start, rfl⟩, tail, rfl⟩
  | case6 first second rest _ ih =>
      obtain ⟨inner, read, rfl⟩ := Option.map_eq_some_iff.mp found
      obtain ⟨⟨start, rfl⟩, tail, same⟩ := ih read
      exact ⟨⟨first :: start, rfl⟩, tail, congrArg (first :: ·) same⟩

/-- A byte string comes before what it starts. -/
theorem isLE_compare_append (front rest : Bytes) : (compare front (front ++ rest)).isLE := by
  have after := compare_append_left front [] rest
  rw [List.append_nil] at after
  rw [after]
  cases rest <;> rfl

/-- What a byte string starts comes before the byte string with its last byte raised. -/
theorem compare_raised (start rest : Bytes) {last : UInt8} (room : last ≠ 0xFF) :
    compare (start ++ [last] ++ rest) (start ++ [last + 1]) = .lt := by
  rw [List.append_assoc, compare_append_left, List.singleton_append, List.compare_cons_cons,
    Ordering.then_eq_lt]
  refine .inl (Std.compare_eq_lt.mpr (UInt8.lt_iff_toNat_lt.mpr ?_))
  have below : last.toNat < 255 := by
    refine Nat.lt_of_le_of_ne (Nat.le_of_lt_succ last.toNat_lt) fun equal => room ?_
    exact UInt8.toNat_inj.mp equal
  rw [UInt8.toNat_add, Nat.mod_eq_of_lt (show last.toNat + UInt8.toNat 1 < 2 ^ 8 by
    rw [show UInt8.toNat 1 = 1 from rfl]; omega)]
  exact Nat.lt_succ_self _

/-- Byte strings that start with a key and another are in the order of the keys, unless these are
the same. -/
theorem compare_run {key other : Bytes}
    (apart : key ≠ other → ∀ rest tail, key ++ rest ≠ other ++ tail) (rest tail : Bytes) :
    compare (key ++ rest) (other ++ tail) =
      if key = other then compare rest tail else compare key other := by
  by_cases same : key = other
  · rw [if_pos same, same, compare_append_left]
  · have decided := compare_append_of_apart (apart same) rest tail [] []
    rw [List.append_nil, List.append_nil] at decided
    rw [if_neg same, decided]

end ByteCode

namespace Table.Bound

/-- The lower end of a scan of what starts with a prefix. -/
def within (front : Bytes) : Bound → Bound
  | .unbounded => .included front
  | bound => bound.behind front

theorem starts_within (front : Bytes) (lower : Bound) (rest : Bytes) :
    (lower.within front).starts (front ++ rest) = lower.starts rest := by
  cases lower with
  | included key => exact congrArg Ordering.isLE (ByteCode.compare_append_left front key rest)
  | excluded key => exact congrArg Ordering.isLT (ByteCode.compare_append_left front key rest)
  | unbounded => exact ByteCode.isLE_compare_append front rest

theorem stops_behind (front : Bytes) (upper : Bound) (rest : Bytes) :
    (upper.behind front).stops (front ++ rest) = upper.stops rest := by
  cases upper with
  | included key => exact congrArg Ordering.isLE (ByteCode.compare_append_left front rest key)
  | excluded key => exact congrArg Ordering.isLT (ByteCode.compare_append_left front rest key)
  | unbounded => rfl

theorem isLE_of_starts {front : Bytes} {lower : Bound} {entry : Bytes}
    (starts : (lower.within front).starts entry = true) : (compare front entry).isLE := by
  cases lower with
  | included key => exact Std.TransCmp.isLE_trans (ByteCode.isLE_compare_append front key) starts
  | excluded key =>
      refine Std.TransCmp.isLE_trans (ByteCode.isLE_compare_append front key) ?_
      rw [Ordering.isLT_iff_eq_lt.mp starts]
      rfl
  | unbounded => exact starts

end Table.Bound

namespace Metafolder

open Table (Bound)

namespace KvSource

variable [Externals] {tx : KvTxn} {field : String} {part : UInt8} {id : UInt32}

/-! ### Ranges of a partition -/

omit [Externals] in
theorem posted_spec : ((if part = valuePart then posted tx field else []) ≠ [] →
      part = valuePart) ∧
    ∀ key ∈ if part = valuePart then posted tx field else [], (posting tx field key).isSome := by
  refine ⟨fun some_posted => by_contra fun other => some_posted (if_neg other),
    fun key member => ?_⟩
  split at member
  · simp only [posted, List.mem_map, Prod.exists, Table.mem_prefixIter] at member
    obtain ⟨entry, ids, ⟨⟨rest, rfl⟩, found⟩, rfl⟩ := member
    rw [List.drop_left]
    exact Option.isSome_of_eq_some found
  · exact absurd member List.not_mem_nil

/-- Whether an entry of a key is in a range. -/
def InRange (lower upper : Bound) (key : Bytes) (id : UInt32) : Prop :=
  lower.starts (key ++ be32 id) = true ∧ upper.stops (key ++ be32 id) = true

omit [Externals] in
theorem partIds_eq (lower upper : Bound) (keep : Bytes → Bool) :
    partIds tx field part lower upper keep =
      scanEntries tx field (partPrefix field part) keep
        (if part = valuePart then posted tx field else []) none
        (tx.derived.parts.range (lower.within (partPrefix field part))
          (upper.behind (partPrefix field part))) := by
  cases lower <;> rfl

/-- An id with an entry in a range, under a key kept, is found. -/
theorem mem_partIds_of_held (whole : tx.Exact) {lower upper : Bound} {keep : Bytes → Bool}
    {key : Bytes} (held : Held tx field part key id) (kept : keep key = true)
    (inside : InRange lower upper key id) : id ∈ partIds tx field part lower upper keep := by
  obtain ⟨of_values, have_postings⟩ := @posted_spec tx field part
  obtain ⟨listed, sorted, starts⟩ := @range_spec tx (lower.within (partPrefix field part))
    (upper.behind (partPrefix field part)) (partPrefix field part) fun _ => Bound.isLE_of_starts
  obtain ⟨count, found⟩ := Option.isSome_iff_exists.mp held
  rw [partIds_eq]
  refine mem_scanEntries whole of_values have_postings listed sorted starts
    (Table.mem_range.mpr ⟨found, ?_, ?_⟩) kept (by simp)
  · rw [partKey, List.append_assoc, Bound.starts_within]
    exact inside.1
  · rw [partKey, List.append_assoc, Bound.stops_behind]
    exact inside.2

/-- What is found has an entry under a key kept, of which an entry is in the range. -/
theorem held_of_mem_partIds (whole : tx.Exact) {lower upper : Bound} {keep : Bytes → Bool}
    (found : id ∈ partIds tx field part lower upper keep) :
    ∃ key, keep key = true ∧ Held tx field part key id ∧
      ∃ other, InRange lower upper key other := by
  classical
  obtain ⟨of_values, -⟩ := @posted_spec tx field part
  obtain ⟨listed, -, -⟩ := @range_spec tx (lower.within (partPrefix field part))
    (upper.behind (partPrefix field part)) (partPrefix field part) fun _ => Bound.isLE_of_starts
  have asked := @scanEntries_congr tx field (partPrefix field part) keep fun key =>
    keep key && decide (∃ other, InRange lower upper key other)
  rw [partIds_eq, asked] at found
  · obtain ⟨key, kept, held⟩ := held_of_mem_scanEntries whole of_values listed found
    rw [Bool.and_eq_true, decide_eq_true_eq] at kept
    exact ⟨key, kept.1, held, kept.2⟩
  · intro entry member starts
    have in_range := (Table.mem_range.mp member).2
    obtain ⟨key, held, same, -, -⟩ := entry_of_prefix whole (listed entry member)
      (List.isPrefixOf_iff_prefix.mpr starts)
    obtain ⟨key_eq, -⟩ := @read_partKey field part held key
    rw [same, partKey, List.append_assoc, Bound.starts_within, Bound.stops_behind] at in_range
    dsimp only at key_eq ⊢
    rw [same, key_eq, decide_eq_true ⟨held, in_range⟩, Bool.and_true]

/-! ### Ranges in order -/

omit [Externals] in
/-- The ends of ranges at an operand, and behind its last entry, cut the keys in order with it. -/
theorem ends_iff {key operand : Bytes} (id : UInt32)
    (apart : key ≠ operand → ∀ rest tail, key ++ rest ≠ operand ++ tail) :
    ((Bound.excluded operand).stops (key ++ be32 id) = true ↔
        CmpOp.lt.matchesOrdering (Ord.compare key operand) = true) ∧
      ((Bound.excluded (operand ++ idMax)).stops (key ++ be32 id) = true ↔
        CmpOp.lte.matchesOrdering (Ord.compare key operand) = true) ∧
      ((Bound.excluded (operand ++ idMax)).starts (key ++ be32 id) = true ↔
        CmpOp.gt.matchesOrdering (Ord.compare key operand) = true) ∧
      ((Bound.included operand).starts (key ++ be32 id) = true ↔
        CmpOp.gte.matchesOrdering (Ord.compare key operand) = true) := by
  have at_operand := ByteCode.compare_run apart (be32 id) []
  have behind := ByteCode.compare_run apart (be32 id) idMax
  have last : Ord.compare (be32 id) idMax = .lt :=
    ByteCode.compare_replicate (be32 id) (by rw [length_be32]; decide : _ < 5)
  rw [List.append_nil, show Ord.compare (be32 id) [] = .gt from rfl] at at_operand
  rw [last] at behind
  simp only [Bound.stops, Bound.starts, CmpOp.matchesOrdering,
    @Std.OrientedCmp.eq_swap _ Ord.compare _ _ (key ++ be32 id), at_operand, behind]
  by_cases same : key = operand
  · simp [same]
  · cases ordered : Ord.compare key operand with
    | eq => exact absurd (Std.compare_eq_iff_eq.mp ordered) same
    | lt => simp [same]
    | gt => simp [same]

omit [Externals] in
/-- An ordered comparison reads a range that holds the keys of its region in order with the
operand's. -/
theorem ordered_eq {region operand : Bytes} {op : CmpOp} (order : op ≠ .eq ∧ op ≠ .neq)
    (shape : region = [] ∨ ∃ tag, tag ≠ 0xFF ∧ region = [tag]) (exclude : Option Bytes) :
    ∃ lower upper, ordered tx field part region op operand exclude =
        partIds tx field part lower upper (fun held =>
          region.isPrefixOf held && exclude.all fun front => !front.isPrefixOf held) ∧
      ∀ ⦃key⦄, region <+: key → (key ≠ operand → ∀ rest tail, key ++ rest ≠ operand ++ tail) →
        ∀ id, InRange lower upper key id ↔ op.matchesOrdering (Ord.compare key operand) = true := by
  have from_region : ∀ {key}, region <+: key → ∀ id,
      (Bound.included region).starts (key ++ be32 id) = true := by
    rintro _ ⟨rest, rfl⟩ id
    rw [List.append_assoc]
    exact ByteCode.isLE_compare_append region _
  obtain rfl | ⟨tag, room, rfl⟩ := shape
  · cases op with
    | eq => exact absurd rfl order.1
    | neq => exact absurd rfl order.2
    | lt => exact ⟨_, _, rfl, fun key front apart id =>
        (and_iff_right (from_region front id)).trans (ends_iff id apart).1⟩
    | lte => exact ⟨_, _, rfl, fun key front apart id =>
        (and_iff_right (from_region front id)).trans (ends_iff id apart).2.1⟩
    | gt => exact ⟨_, .unbounded, rfl, fun key _ apart id =>
        (and_iff_left rfl).trans (ends_iff id apart).2.2.1⟩
    | gte => exact ⟨_, .unbounded, rfl, fun key _ apart id =>
        (and_iff_left rfl).trans (ends_iff id apart).2.2.2⟩
  · have below_next : ∀ {key}, [tag] <+: key → ∀ id,
        (Bound.excluded [tag + 1]).stops (key ++ be32 id) = true := by
      rintro _ ⟨rest, rfl⟩ id
      have less := ByteCode.compare_raised [] (rest ++ be32 id) room
      rw [List.nil_append, ← List.append_assoc] at less
      exact Ordering.isLT_iff_eq_lt.mpr less
    cases op with
    | eq => exact absurd rfl order.1
    | neq => exact absurd rfl order.2
    | lt => exact ⟨_, _, rfl, fun key front apart id =>
        (and_iff_right (from_region front id)).trans (ends_iff id apart).1⟩
    | lte => exact ⟨_, _, rfl, fun key front apart id =>
        (and_iff_right (from_region front id)).trans (ends_iff id apart).2.1⟩
    | gt => exact ⟨_, .excluded [tag + 1], rfl, fun key front apart id =>
        (and_iff_left (below_next front id)).trans (ends_iff id apart).2.2.1⟩
    | gte => exact ⟨_, .excluded [tag + 1], rfl, fun key front apart id =>
        (and_iff_left (below_next front id)).trans (ends_iff id apart).2.2.2⟩

/-! ### Ranges of values -/

section

variable {region operand : Bytes} {op : CmpOp} {keyOf : Value → Option Bytes}

theorem mem_ordered (whole : tx.Exact) (order : op ≠ .eq ∧ op ≠ .neq)
    (shape : region = [] ∨ ∃ tag, tag ≠ 0xFF ∧ region = [tag])
    (held_iff : ∀ {key id}, Held tx field part key id ↔
      ∃ value ∈ values tx id field, keyOf value = some key)
    (apart : ∀ {value key}, keyOf value = some key → key ≠ operand →
      ∀ rest tail, key ++ rest ≠ operand ++ tail) (exclude : Option Bytes) :
    id ∈ ordered tx field part region op operand exclude ↔
      ∃ value ∈ values tx id field, ∃ key, keyOf value = some key ∧
        (∀ front ∈ exclude, ¬front <+: key) ∧ region <+: key ∧
          op.matchesOrdering (Ord.compare key operand) = true := by
  obtain ⟨lower, upper, read, inside⟩ := @ordered_eq tx field part region operand op order shape
    exclude
  have kept_iff : ∀ {key : Bytes}, (region.isPrefixOf key &&
      exclude.all fun front => !front.isPrefixOf key) = true ↔
      region <+: key ∧ ∀ front ∈ exclude, ¬front <+: key := by
    intro key
    simp only [Bool.and_eq_true, List.isPrefixOf_iff_prefix, Option.all_eq_true, Bool.not_eq_true',
      ← Bool.not_eq_true, Option.mem_def]
  rw [read]
  constructor
  · intro found
    obtain ⟨key, kept, held, other, in_range⟩ := held_of_mem_partIds whole found
    obtain ⟨starts, outside⟩ := kept_iff.mp kept
    obtain ⟨value, member, keyed⟩ := held_iff.mp held
    exact ⟨value, member, key, keyed, outside, starts,
      (inside starts (apart keyed) other).mp in_range⟩
  · rintro ⟨value, member, key, keyed, outside, starts, matched⟩
    exact mem_partIds_of_held whole (held_iff.mpr ⟨value, member, keyed⟩)
      (kept_iff.mpr ⟨starts, outside⟩) ((inside starts (apart keyed) id).mpr matched)

/-- A range with the texts cut where the operand is read back holds the values in order, where keys
sort as values do but for these texts. -/
theorem mem_orderedExact (whole : tx.Exact) (order : op ≠ .eq ∧ op ≠ .neq)
    (shape : region = [] ∨ ∃ tag, tag ≠ 0xFF ∧ region = [tag])
    (held_iff : ∀ {key id}, Held tx field part key id ↔
      ∃ value ∈ values tx id field, keyOf value = some key)
    (apart : ∀ {value key}, keyOf value = some key → key ≠ operand →
      ∀ rest tail, key ++ rest ≠ operand ++ tail)
    {ambiguous : Option Bytes}
    (cut : ((longPrefix (operand.drop region.length)).filter fun _ =>
      part = namePart ∨ operand.head? = some 2).map (region ++ ·) = ambiguous)
    {holds : Value → Bool} {wanted : Value → Prop}
    (keyed : ∀ {value}, wanted value → (keyOf value).isSome)
    (by_key : ∀ {value key}, keyOf value = some key → (∀ front ∈ ambiguous, ¬front <+: key) →
      (region <+: key ∧ op.matchesOrdering (Ord.compare key operand) = true ↔ wanted value))
    (by_value : ambiguous.isSome → ∀ {value}, holds value = true ↔ wanted value) :
    id ∈ orderedExact tx field part region op operand holds ↔
      ∃ value ∈ values tx id field, wanted value := by
  have beside : ∀ {exclude}, exclude = ambiguous →
      (id ∈ ordered tx field part region op operand exclude ↔ ∃ value ∈ values tx id field,
        ∃ key, keyOf value = some key ∧ (∀ front ∈ ambiguous, ¬front <+: key) ∧ wanted value) := by
    rintro _ rfl
    rw [mem_ordered whole order shape held_iff apart]
    refine exists_congr fun value => and_congr_right fun _ => exists_congr fun key =>
      and_congr_right fun of_value => and_congr_right fun outside => by_key of_value outside
  unfold orderedExact
  dsimp only
  split
  next none_cut =>
    rw [none_cut, Option.map_none] at cut
    subst cut
    rw [beside rfl]
    refine exists_congr fun value => and_congr_right fun _ => ?_
    constructor
    · rintro ⟨key, -, -, wanted⟩
      exact wanted
    · intro wanted
      obtain ⟨key, of_value⟩ := Option.isSome_iff_exists.mp (keyed wanted)
      exact ⟨key, of_value, by simp, wanted⟩
  next tail some_cut =>
    rw [some_cut, Option.map_some] at cut
    subst cut
    rw [Finset.mem_union, beside rfl, mem_having]
    simp only [by_value rfl]
    constructor
    · rintro (⟨value, member, -, -, -, wanted⟩ | ⟨-, found⟩)
      · exact ⟨value, member, wanted⟩
      · exact found
    · rintro ⟨value, member, wanted⟩
      obtain ⟨key, of_value⟩ := Option.isSome_iff_exists.mp (keyed wanted)
      by_cases starts : region ++ tail <+: key
      · refine .inr ⟨?_, value, member, wanted⟩
        -- What starts with the front the operand is cut at is read back.
        obtain ⟨⟨start, rfl⟩, -⟩ :=
          ByteCode.markedFront_spec (Option.mem_filter_iff.mp some_cut).1
        refine mem_partIds_of_held whole (held_iff.mpr ⟨value, member, of_value⟩) rfl ?_
        obtain ⟨rest, rfl⟩ := starts
        rw [InRange, List.append_assoc _ rest]
        refine ⟨ByteCode.isLE_compare_append _ _, Ordering.isLT_iff_eq_lt.mpr ?_⟩
        have raised := ByteCode.compare_raised (region ++ start) (rest ++ be32 id)
          (by decide : (1 : UInt8) ≠ 0xFF)
        rw [List.append_assoc region] at raised
        rw [← List.append_assoc region start [1], List.dropLast_concat, List.getLastD_concat]
        simpa using raised
      · refine .inl ⟨value, member, key, of_value, ?_, wanted⟩
        intro front listed
        exact (Option.mem_some_iff.mp listed) ▸ starts

end

/-! ### What is in order -/

/-- A value is in order with an operand of its kind. -/
def Ordered (op : CmpOp) (operand held : Value) : Prop :=
  ∃ scalar one other, scalarType held = some scalar ∧ scalarType operand = some scalar ∧
    sortRep held = some one ∧ sortRep operand = some other ∧
      op.matchesOrdering (one.cmp other) = true

/-- The name of a value is in order with a text. -/
def NameOrdered (op : CmpOp) (text : String) (held : Value) : Prop :=
  ∃ name, nameOf held = some name ∧
    op.matchesOrdering (Ord.compare name.asBytes text.asBytes) = true

/-- The tag of the keys of a scalar type. -/
def scalarTag : Scalar → UInt8
  | .bool => 0
  | .number => 1
  | .string => 2
  | .dateTime => 3

/-- The tag of a key says which scalar type it is of. -/
theorem valueKey_tag {value : Value} {key : Bytes} (keyed : valueKey value = some key) :
    ∃ tag rest, key = tag :: rest ∧ tag ≠ 0xFF ∧
      ∀ scalar, scalarType value = some scalar ↔ tag = scalarTag scalar := by
  cases value with
  | nothing => cases keyed
  | _ =>
      obtain rfl := Option.some.inj keyed
      refine ⟨_, _, rfl, by decide, fun scalar => ?_⟩
      cases scalar <;> simp [scalarType, scalarTag]

/-- The front at which the key of an operand is cut, behind its tag. -/
def cutAt (operand : Bytes) : Option Bytes :=
  ((longPrefix (operand.drop 1)).filter fun _ => operand.take 1 = [2]).map (operand.take 1 ++ ·)

/-- A key that does not start where the operand's is cut is in order with it where its value is. -/
theorem ordered_by_key {op : CmpOp} {operand held : Value} {key own : Bytes} {scalar : Scalar}
    (scalar_eq : scalarType operand = some scalar) (of_operand : valueKey operand = some key)
    (of_held : valueKey held = some own) (outside : ∀ front ∈ cutAt key, ¬front <+: own) :
    key.take 1 <+: own ∧ op.matchesOrdering (Ord.compare own key) = true ↔
      Ordered op operand held := by
  obtain ⟨tag, rest, rfl, -, tags⟩ := valueKey_tag of_operand
  obtain ⟨mark, more, rfl, -, marks⟩ := valueKey_tag of_held
  have same_iff : (tag :: rest).take 1 <+: mark :: more ↔ scalarType held = some scalar := by
    rw [marks, ← (tags scalar).mp scalar_eq]
    simp [eq_comm]
  rw [same_iff]
  by_cases same : scalarType held = some scalar
  · obtain ⟨_, _, one, other, held_key, operand_key, sorts, sorts_operand, sorted⟩ :=
      valueKey_sorted same scalar_eq
    obtain rfl := Option.some.inj (of_held.symm.trans held_key)
    obtain rfl := Option.some.inj (of_operand.symm.trans operand_key)
    rcases sorted with sorted | ⟨text, word, rfl, rfl, front, cut, cut_operand⟩
    · rw [and_iff_right same, sorted]
      constructor
      · intro matched
        exact ⟨scalar, one, other, same, scalar_eq, sorts, sorts_operand, matched⟩
      · rintro ⟨-, first, second, -, -, sorts_first, sorts_second, matched⟩
        obtain rfl := Option.some.inj (sorts.symm.trans sorts_first)
        obtain rfl := Option.some.inj (sorts_operand.symm.trans sorts_second)
        exact matched
    · -- Two texts cut at one front: the key starts where the operand's is cut.
      obtain ⟨rfl, rfl⟩ := List.cons.inj (Option.some.inj of_held)
      obtain ⟨rfl, rfl⟩ := List.cons.inj (Option.some.inj of_operand)
      have at_front : cutAt (2 :: textKey word.asBytes) = some ([2] ++ front) := by
        simp [cutAt, cut_operand]
      obtain ⟨-, starts⟩ := ByteCode.markedFront_spec cut
      exact absurd (List.prefix_append_right_inj [2] |>.mpr starts) (outside _ at_front)
  · refine iff_of_false (fun both => same both.1) ?_
    rintro ⟨other, -, -, held_scalar, operand_scalar, -⟩
    rw [scalar_eq] at operand_scalar
    obtain rfl := Option.some.inj operand_scalar
    exact same held_scalar

/-! ### Comparisons in order -/

theorem apart_values {value operand : Value} {key own : Bytes}
    (of_operand : valueKey operand = some key) (of_value : valueKey value = some own)
    (differ : own ≠ key) (rest tail : Bytes) : own ++ rest ≠ key ++ tail := fun same =>
  differ (valueKey_append_inj of_value of_operand same).1

omit [Externals] in
theorem scalar_isSome {op : CmpOp} {operand held : Value} (ordered : Ordered op operand held) :
    (scalarType held).isSome := by
  obtain ⟨scalar, -, -, of_held, -⟩ := ordered
  exact Option.isSome_of_eq_some of_held

theorem keyed_of_ordered {op : CmpOp} {operand held : Value} (ordered : Ordered op operand held) :
    (valueKey held).isSome := by
  have scalar := scalar_isSome ordered
  cases held with
  | nothing => cases scalar
  | _ => rfl

/-- Only the key of a text is cut. -/
theorem text_of_cutAt {operand : Value} {key front : Bytes}
    (of_operand : valueKey operand = some key) (cut : cutAt key = some front) :
    ∃ word, operand = .string word := by
  obtain ⟨tag, rest, rfl, -, tags⟩ := valueKey_tag of_operand
  obtain ⟨_, found, -⟩ := Option.map_eq_some_iff.mp cut
  have text : [tag] = [2] := by simpa using (Option.mem_filter_iff.mp found).2
  have scalar := (tags .string).mpr (List.cons.inj text).1
  exact string_spec scalar

omit [Externals] in
theorem ordered_text {op : CmpOp} {text word : String} :
    Ordered op (.string word) (.string text) ↔
      op.matchesOrdering (Ord.compare text.asBytes word.asBytes) = true := by
  constructor
  · rintro ⟨_, _, _, -, -, of_held, of_operand, matched⟩
    obtain rfl := Option.some.inj of_held
    obtain rfl := Option.some.inj of_operand
    exact matched
  · intro matched
    exact ⟨_, _, _, rfl, rfl, rfl, rfl, matched⟩

omit [Externals] in
theorem not_ordered_text {op : CmpOp} {word : String} {held : Value}
    (other : scalarType held ≠ some .string) : ¬Ordered op (.string word) held := by
  rintro ⟨_, _, _, of_held, of_word, -⟩
  obtain rfl := Option.some.inj of_word
  exact other of_held

/-- An ordered comparison finds the rows in order, walked or probed. -/
theorem mem_compareOrdered (whole : tx.Exact) {op : CmpOp} (order : op ≠ .eq ∧ op ≠ .neq)
    {operand : Value} {key : Bytes} {scalar : Scalar} (scalar_eq : scalarType operand = some scalar)
    (of_operand : valueKey operand = some key) (probe : Option (Finset UInt32)) :
    id ∈ compareOrdered tx field op operand key probe ↔
      (∀ candidates ∈ probe, id ∈ candidates) ∧
        ∃ value ∈ values tx id field, Ordered op operand value := by
  have by_key := fun {held : Value} {own : Bytes} (of_held : valueKey held = some own)
      (outside : ∀ front ∈ cutAt key, ¬front <+: own) =>
    @ordered_by_key _ op _ _ _ _ _ scalar_eq of_operand of_held outside
  obtain ⟨tag, rest, rfl, room, -⟩ := valueKey_tag of_operand
  unfold compareOrdered
  cases probe with
  | some candidates =>
      rw [mem_having]
      simp only [Option.mem_some_iff, forall_eq']
      refine and_congr_right fun _ => exists_congr fun held => and_congr_right fun _ => ?_
      split
      next none_keyed =>
        refine iff_of_false Bool.false_ne_true fun ordered => ?_
        have keyed := keyed_of_ordered ordered
        rw [none_keyed] at keyed
        cases keyed
      next own of_held =>
        change (if (cutAt (tag :: rest)).any (·.isPrefixOf own) = true then _ else _) = true ↔ _
        split
        next cut =>
          obtain ⟨front, found, -⟩ := (Option.any_eq_true ..).mp cut
          obtain ⟨word, rfl⟩ := text_of_cutAt of_operand found
          cases held with
          | string text => exact ordered_text.symm
          | _ => exact iff_of_false Bool.false_ne_true (not_ordered_text nofun)
        next uncut =>
          rw [← by_key of_held, Bool.and_eq_true, List.isPrefixOf_iff_prefix]
          intro front found starts
          refine uncut ((Option.any_eq_true ..).mpr ⟨front, found, ?_⟩)
          exact List.isPrefixOf_iff_prefix.mpr starts
  | none =>
      have asked : valuePart = namePart ∨ (tag :: rest).head? = some 2 ↔
          (tag :: rest).take 1 = [2] := by simp [valuePart, namePart]
      have cut : ((longPrefix ((tag :: rest).drop [tag].length)).filter fun _ =>
          valuePart = namePart ∨ (tag :: rest).head? = some 2).map ([tag] ++ ·) =
            cutAt (tag :: rest) := by
        simp only [cutAt, asked]
        rfl
      rw [and_iff_right (by simp)]
      refine mem_orderedExact whole order (.inr ⟨tag, room, rfl⟩) (held_value whole)
        (apart_values of_operand) cut keyed_of_ordered by_key fun some_cut => ?_
      obtain ⟨front, found⟩ := Option.isSome_iff_exists.mp some_cut
      obtain ⟨word, rfl⟩ := text_of_cutAt of_operand found
      intro held
      cases held with
      | string text => exact ordered_text.symm
      | _ => exact iff_of_false Bool.false_ne_true (not_ordered_text nofun)

/-- An ordered comparison with a name finds the positions whose name is in order. -/
theorem mem_compareNames_ordered (whole : tx.Exact) {op : CmpOp} (order : op ≠ .eq ∧ op ≠ .neq)
    {text : String} : id ∈ compareNames tx field op text ↔
      ∃ value ∈ values tx id field, NameOrdered op text value := by
  have named : compareNames tx field op text =
      orderedExact tx field namePart [] op (textKey text.asBytes) fun held =>
        (nameOf held).any fun name =>
          op.matchesOrdering (Ord.compare name.asBytes text.asBytes) := by
    cases op with
    | eq => exact absurd rfl order.1
    | neq => exact absurd rfl order.2
    | _ => rfl
  have cut : ((longPrefix ((textKey text.asBytes).drop ([] : Bytes).length)).filter fun _ =>
      namePart = namePart ∨ (textKey text.asBytes).head? = some 2).map ([] ++ ·) =
        longPrefix (textKey text.asBytes) := by
    simp only [true_or, decide_true, List.length_nil, List.drop_zero, List.nil_append,
      Option.map_id']
    cases longPrefix (textKey text.asBytes) with
    | none => rfl
    | some front => rfl
  have of_name : ∀ {value key}, namePartKey value = some key →
      ∃ name, nameOf value = some name ∧ textKey name.asBytes = key := by
    intro value key keyed
    rwa [namePartKey_eq, Option.map_eq_some_iff] at keyed
  rw [named]
  refine mem_orderedExact whole order (.inl rfl) (held_name whole) ?_ cut ?_ ?_ ?_
  · intro value key keyed differ rest tail same
    obtain ⟨name, -, rfl⟩ := of_name keyed
    exact differ (textKey_append_eq same).1
  · rintro value ⟨name, of_value, -⟩
    rw [namePartKey_eq, of_value]
    rfl
  · intro value key keyed outside
    obtain ⟨name, of_value, rfl⟩ := of_name keyed
    rw [and_iff_right List.nil_prefix]
    rcases compare_textKey name.asBytes text.asBytes with ⟨front, cut, cut_text⟩ | sorted
    · exact absurd (ByteCode.markedFront_spec cut).2 (outside front cut_text)
    · rw [sorted, NameOrdered]
      simp [of_value]
  · intro _ value
    rw [Option.any_eq_true]
    exact Iff.rfl

/-! ### Whole comparisons in order -/

/-- A row is in order with an operand. -/
def InOrder (tx : KvTxn) (field : String) (op : CmpOp) (operand held : Value) : Prop :=
  match byName tx field operand with
  | some text => NameOrdered op text held
  | none => Ordered op operand held

/-- The values of a field are of the type it holds. -/
theorem valueType_of_mem (whole : tx.Exact) (single : tx.primary.Single field) {value : Value}
    (member : value ∈ values tx id field) (some_value : value ≠ .nothing) :
    valueType tx field = some value.typeStr := by
  obtain ⟨established, typed⟩ := single
  have of_row : ∀ {owner row}, tx.primary.Holds owner row → row.name = field →
      row.value ≠ .nothing → row.value.typeStr = established := by
    intro owner row holds named other
    exact typed holds named (Bool.eq_false_iff.mpr fun nothing =>
      other ((Value.isNothing_iff _).mp nothing))
  obtain ⟨uuid, row, -, holds, named, rfl⟩ := (mem_values whole).mp member
  cases known : valueType tx field with
  | none =>
      have no_kind : kind tx field = none := Option.map_eq_none_iff.mpr known
      exact absurd (nothing_of_kind whole no_kind member) some_value
  | some name =>
      obtain ⟨entry, listed, read⟩ := List.exists_of_findSome?_eq_some known
      have counted := (Table.mem_prefixIter ..).mp listed
      obtain ⟨positive, other, counted_type, typed_name, keyed⟩ :=
        whole.consistent.count_keyed counted.2
      have same := List.find?_some read
      rw [decide_eq_true_eq, keyed] at same
      rw [keyed, typeKey, nameKey_prefix_iff] at counted
      obtain ⟨rfl, found⟩ := counted
      rw [typeKey, List.drop_left] at same
      obtain rfl := String.asBytes_injective same
      have exact_count := whole.consistent.count_eq field name typed_name
      rw [typeKey, found, Option.getD_some] at exact_count
      have above := Int64.lt_iff_toInt_lt.mp positive
      rw [exact_count] at above
      obtain ⟨owner, witness, holds_witness, of_field, of_type⟩ :=
        whole.consistent.typeCount_pos.mp (by simpa using above)
      have of_witness := of_row holds_witness of_field fun nothing =>
        typed_name (by rw [← of_type, nothing]; rfl)
      rw [of_row holds named some_value, ← of_witness, of_type]

/-- Values of one scalar type are used where one of them is held. -/
theorem usable_of_ordered (whole : tx.Exact) (single : tx.primary.Single field) {op : CmpOp}
    {operand held : Value} {sort : Kind} (known : kind tx field = some sort)
    (member : held ∈ values tx id field) (ordered : Ordered op operand held) :
    usable sort operand ≠ .ok false := by
  obtain ⟨scalar, one, other, of_held, of_operand, -⟩ := ordered
  have some_value : held ≠ .nothing := by
    rintro rfl
    cases of_held
  rw [kind, valueType_of_mem whole single member some_value] at known
  cases held <;> cases of_held <;> cases operand <;> cases of_operand <;>
    obtain rfl := Option.some.inj known <;> simp [usable, Value.typeStr]

omit [Externals] in
/-- What an ordered comparison can use has a scalar type. -/
theorem scalar_of_usable {sort : Kind} {operand : Value} (used : usable sort operand = .ok true) :
    ∃ scalar, scalarType operand = some scalar := by
  cases operand <;> cases sort <;> first | exact ⟨_, rfl⟩ | simp [usable] at used

/-- An ordered comparison on values asks whether it can use its operand. -/
theorem compare_ordered {op : CmpOp} (order : op ≠ .eq ∧ op ≠ .neq) {operand : Value} {sort : Kind}
    (known : kind tx field = some sort) (named : byName tx field operand = none)
    (restrict : Option (Finset UInt32)) : compare tx field op operand restrict =
      (usable sort operand).map fun used => if used then
        ((valueKey operand).map fun key => compareOrdered tx field op operand key
          (restrict.filter fun candidates => probes candidates.card (present tx field).card)).getD ∅
      else ∅ := by
  unfold compare
  rw [known]
  split
  next same => cases same
  next text same =>
    obtain rfl := Option.some.inj same
    simp [byName, known] at named
  next operand _ _ other same _ =>
    obtain rfl := Option.some.inj same
    dsimp only
    cases op with
    | eq => exact absurd rfl order.1
    | neq => exact absurd rfl order.2
    | _ =>
        cases usable sort operand with
        | error => rfl
        | ok used => cases valueKey operand <;> cases used <;> simp <;> rfl

/-- An ordered comparison that is not refused finds the rows in order. -/
theorem gives_ordered (whole : tx.Exact) (single : tx.primary.Single field) {op : CmpOp}
    (order : op ≠ .eq ∧ op ≠ .neq) {operand : Value} {restrict : Option (Finset UInt32)}
    {found : Finset UInt32} (ran : compare tx field op operand restrict = .ok found)
    (within : ∀ ids ∈ restrict, id ∈ ids) :
    id ∈ found ↔ ∃ value ∈ values tx id field, InOrder tx field op operand value := by
  unfold InOrder
  cases named : byName tx field operand with
  | some text =>
      obtain rfl := Except.ok.inj ((compare_byName named op restrict).symm.trans ran)
      exact mem_compareNames_ordered whole order
  | none =>
      cases known : kind tx field with
      | none =>
          obtain rfl := Except.ok.inj ((compare_of_none known op restrict).symm.trans ran)
          refine iff_of_false (Finset.notMem_empty id) ?_
          rintro ⟨value, member, _, _, _, of_value, -⟩
          rw [nothing_of_kind whole known member] at of_value
          cases of_value
      | some sort =>
          obtain ⟨used, asked, rfl⟩ :=
            Except.map_eq_ok.mp ((compare_ordered order known named restrict).symm.trans ran)
          cases used with
          | false =>
              refine iff_of_false (Finset.notMem_empty id) ?_
              rintro ⟨value, member, ordered⟩
              exact usable_of_ordered whole single known member ordered asked
          | true =>
              obtain ⟨scalar, scalar_eq⟩ := scalar_of_usable asked
              have keyed : valueKey operand ≠ none := by
                intro none_keyed
                obtain rfl := valueKey_eq_none.mp none_keyed
                cases scalar_eq
              obtain ⟨key, of_operand⟩ := Option.ne_none_iff_exists'.mp keyed
              rw [if_pos rfl, of_operand, Option.map_some, Option.getD_some,
                mem_compareOrdered whole order scalar_eq of_operand]
              refine and_iff_right fun candidates probed => ?_
              exact within candidates (Option.mem_filter_iff.mp probed).1

end KvSource

end Metafolder
