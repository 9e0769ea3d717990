import Metafolder.Comparisons

/-!
# What a comparison finds

A key that is not cut is the key of one value, numbers as doubles aside, and the values of a key
taken to be hashed are read back.  What is left are the keys of `hierarchy_ref` values with a cut
name, and the operands under the nil uuid, which a root's key stands for.
-/

namespace Metafolder

section Compared

variable [Externals]

/-! ### Values of one key -/

/-- Two values are one for a comparison: they are equal, or numbers equal as doubles. -/
def Same (first second : Value) : Prop := first = second ∨ SameDouble first second

/-- Whether the key of a text is cut and hashed. -/
def isCut (text : Bytes) : Bool := (longPrefix (textKey text)).isSome

/-- The values whose key others may have, though it is not taken to be hashed. -/
def Ambiguous : Value → Prop
  | .treeRef parent name => parent = some Uuid.zero ∧ isCut name.bytes = false
  | .hierarchyRef parent name => parent = some Uuid.zero ∨ isCut name.bytes = true
  | _ => False

omit [Externals] in
theorem numKey_of_eq {one other : F64} (same : one.eq other = true) :
    numKey one = numKey other := by
  simp only [F64.eq, Bool.and_eq_true, Bool.or_eq_true, decide_eq_true_eq] at same
  rcases same.2 with rfl | ⟨zero, also⟩
  · rfl
  · rw [numKey, numKey, if_pos zero, if_pos also]

/-- Values that are one have one key. -/
theorem valueKey_of_same {first second : Value} (same : Same first second) :
    valueKey first = valueKey second := by
  rcases same with rfl | ⟨one, other, of_first, of_second, equal⟩
  · rfl
  · have number : ∀ {value : Value} {double : F64}, asDouble value = some double →
        valueKey value = some (1 :: be64 (numKey double)) := by
      intro value double of_value
      cases value <;> cases of_value <;> rfl
    rw [number of_first, number of_second]
    rcases equal with rfl | equal
    · rfl
    · rw [numKey_of_eq equal]

theorem valueKey_eq_none {value : Value} : valueKey value = none ↔ value = .nothing := by
  cases value <;> simp [valueKey]

/-- Texts keyed whole are told apart by their keys. -/
theorem eq_of_textKey {one other : Bytes} (same : textKey one = textKey other)
    (whole : isCut one = false) : one = other := by
  have also : isCut other = false := by rwa [isCut, ← same]
  have fits : ∀ {text : Bytes}, isCut text = false →
      (ByteCode.terminated text).length ≤ textMax + 2 := by
    intro text uncut
    rw [isCut, longPrefix_textKey] at uncut
    by_contra long
    rw [if_neg long] at uncut
    cases uncut
  rw [textKey, textKey] at same
  simp only [fits whole, fits also, if_true] at same
  have ends : ByteCode.terminated one ++ [] = ByteCode.terminated other ++ [] := by rw [same]
  have read := ByteCode.unterminated_terminated one []
  rw [ends, ByteCode.unterminated_terminated] at read
  exact (Prod.mk.inj (Option.some.inj read)).1.symm

/-- Where positions have one key, their parents are one, a root's the nil uuid. -/
theorem positionKey_eq {parent above : Option Uuid} {name word : TreeName} {tag : UInt8}
    (same : some (tag :: (parent.getD Uuid.zero).bytes ++ textKey name.bytes) =
      some (tag :: (above.getD Uuid.zero).bytes ++ textKey word.bytes)) :
    parent.getD Uuid.zero = above.getD Uuid.zero ∧ textKey name.bytes = textKey word.bytes := by
  rw [Option.some.injEq, List.cons_append, List.cons_append, List.cons.injEq] at same
  exact Uuid.bytes_append_inj same.2

/-- The key of a position ends with the key of its name. -/
theorem isHashed_position {tag : UInt8} (parent : Option Uuid) (name : TreeName) :
    KvSource.isHashed (tag :: (parent.getD Uuid.zero).bytes ++ textKey name.bytes) =
      if tag = 2 then (longPrefix ((parent.getD Uuid.zero).bytes ++ textKey name.bytes)).isSome
      else if tag = 7 then isCut name.bytes else false := by
  rw [List.cons_append, KvSource.isHashed]
  have after : ((parent.getD Uuid.zero).bytes ++ textKey name.bytes).drop 16 =
      textKey name.bytes := by
    rw [← (parent.getD Uuid.zero).size, List.drop_left]
  rw [after]
  rfl

omit [Externals] in
/-- A stored position and an operand that is not under the nil uuid have one parent. -/
theorem parent_eq {parent above : Option Uuid} (stored : storedParent parent = parent)
    (same : parent.getD Uuid.zero = above.getD Uuid.zero) (clear : above ≠ some Uuid.zero) :
    parent = above := by
  cases parent with
  | none =>
      cases above with
      | none => rfl
      | some uuid => exact absurd (congrArg some same.symm) clear
  | some uuid =>
      cases above with
      | none =>
          obtain rfl : uuid = Uuid.zero := same
          simp [storedParent] at stored
      | some other => exact congrArg some same

/-- A key that is not taken to be hashed is that of one value, but for the ambiguous ones. -/
theorem same_of_valueKey {held operand : Value} {key : Bytes} (stored : held.stored = held)
    (of_held : valueKey held = some key) (of_operand : valueKey operand = some key)
    (unhashed : KvSource.isHashed key = false) (clear : ¬Ambiguous operand) :
    Same held operand := by
  have same := of_held.trans of_operand.symm
  have scalar : ∀ {sort : Scalar}, scalarType held = some sort → scalarType operand = some sort →
      (∀ text, operand = .string text → isCut text.asBytes = false) → Same held operand := by
    intro sort one two whole
    rcases eq_of_valueKey one two of_held of_operand with equal | double | ⟨text, word, rfl, rfl, -⟩
    · exact .inl equal
    · exact .inr double
    · have keys := (List.cons.inj (Option.some.inj same)).2
      have texts := eq_of_textKey keys.symm (whole word rfl)
      exact .inl (congrArg Value.string (String.asBytes_injective texts.symm))
  cases operand with
  | nothing => cases of_operand
  | bool b =>
      cases held <;> first | exact scalar rfl rfl (by rintro _ ⟨⟩) | simp [valueKey] at same
  | int n =>
      cases held <;> first | exact scalar rfl rfl (by rintro _ ⟨⟩) | simp [valueKey] at same
  | float f =>
      cases held <;> first | exact scalar rfl rfl (by rintro _ ⟨⟩) | simp [valueKey] at same
  | dateTime ms =>
      cases held <;> first | exact scalar rfl rfl (by rintro _ ⟨⟩) | simp [valueKey] at same
  | string text =>
      have whole : isCut text.asBytes = false := by
        obtain rfl := Option.some.inj of_operand
        exact unhashed
      cases held <;> first
        | exact scalar rfl rfl (by rintro _ ⟨⟩; exact whole)
        | simp [valueKey] at same
  | ref uuid =>
      cases held with
      | ref other =>
          have bytes := (List.cons.inj (Option.some.inj same)).2
          exact .inl (congrArg Value.ref (Uuid.ext bytes))
      | _ => simp [valueKey] at same
  | refBase uuid =>
      cases held with
      | refBase other =>
          have bytes := (List.cons.inj (Option.some.inj same)).2
          exact .inl (congrArg Value.refBase (Uuid.ext bytes))
      | _ => simp [valueKey] at same
  | externalRef repo metarecord =>
      cases held with
      | externalRef base record =>
          have bytes := (List.cons.inj (Option.some.inj same)).2
          obtain ⟨rfl, repos⟩ := Uuid.bytes_append_inj bytes
          rw [Uuid.ext repos]
          exact .inl rfl
      | _ => simp [valueKey] at same
  | treeRef parent name =>
      cases held with
      | treeRef above word =>
          obtain ⟨parents, keys⟩ := positionKey_eq same
          obtain rfl := Option.some.inj of_operand
          have whole : isCut name.bytes = false := by
            rwa [isHashed_position, if_neg (by decide), if_pos rfl] at unhashed
          have names := eq_of_textKey keys.symm whole
          have placed : storedParent above = above := (Value.treeRef.inj stored).1
          have words : word = name := congrArg TreeName.mk names.symm
          rw [parent_eq placed parents fun under => clear ⟨under, whole⟩, words]
          exact .inl rfl
      | _ => simp [valueKey] at same
  | hierarchyRef parent name =>
      cases held with
      | hierarchyRef above word =>
          obtain ⟨parents, keys⟩ := positionKey_eq same
          have whole : isCut name.bytes = false :=
            Bool.eq_false_iff.mpr fun long => clear (.inr long)
          have names := eq_of_textKey keys.symm whole
          have placed : storedParent above = above := (Value.hierarchyRef.inj stored).1
          have words : word = name := congrArg TreeName.mk names.symm
          rw [parent_eq placed parents fun under => clear (.inl under), words]
          exact .inl rfl
      | _ => simp [valueKey] at same

/-- The key of an ambiguous value is not taken to be hashed. -/
theorem Ambiguous.unhashed {value : Value} (ambiguous : Ambiguous value) :
    ∃ key, valueKey value = some key ∧ KvSource.isHashed key = false := by
  cases value with
  | treeRef parent name =>
      refine ⟨_, rfl, ?_⟩
      rw [isHashed_position, if_neg (by decide), if_pos rfl]
      exact ambiguous.2
  | hierarchyRef parent name =>
      refine ⟨_, rfl, ?_⟩
      rw [isHashed_position, if_neg (by decide), if_neg (by decide)]
  | _ => exact False.elim ambiguous

/-- Values of a key taken to be hashed are texts, so one for a comparison where they are equal. -/
theorem eq_iff_same {held operand : Value} {key : Bytes} (of_operand : valueKey operand = some key)
    (hashed : KvSource.isHashed key = true) :
    (held.eq operand = true ↔ Same held operand) ∧
      (operand.eq held = true ↔ Same held operand) := by
  have text : asDouble operand = none ∧ ∀ f, operand ≠ .float f := by
    cases operand with
    | int n =>
        obtain rfl := Option.some.inj of_operand
        cases hashed
    | float f =>
        obtain rfl := Option.some.inj of_operand
        cases hashed
    | _ => exact ⟨rfl, fun _ => nofun⟩
  have same_iff : Same held operand ↔ held = operand := by
    refine or_iff_left ?_
    rintro ⟨one, other, -, of_other, -⟩
    rw [text.1] at of_other
    cases of_other
  rw [same_iff]
  constructor
  · cases held <;> cases operand <;> simp_all [Value.eq]
  · rw [@eq_comm _ held operand]
    cases held <;> cases operand <;> simp_all [Value.eq]

namespace KvSource

variable {tx : KvTxn} {field : String} {id : UInt32}

/-! ### The rows of an id -/

theorem mem_values (whole : tx.Exact) {value : Value} : value ∈ values tx id field ↔
    ∃ uuid row, tx.derived.id uuid = some id ∧ tx.primary.Holds uuid row ∧ row.name = field ∧
      row.value = value := by
  unfold values
  split
  next absent =>
    refine iff_of_false List.not_mem_nil ?_
    rintro ⟨uuid, row, named, -⟩
    have there := whole.derives.uuids_iff.mpr ⟨id, named, rfl⟩
    rw [absent] at there
    cases there
  next uuid present =>
    obtain ⟨other, named, ids⟩ := whole.derives.uuids_iff.mp present
    obtain rfl := be32_injective ids
    simp only [List.mem_map, whole.consistent.mem_rowsNamed]
    constructor
    · rintro ⟨row, ⟨holds, row_named⟩, rfl⟩
      exact ⟨uuid, row, named, holds, row_named, rfl⟩
    · rintro ⟨owner, row, owner_named, holds, row_named, rfl⟩
      obtain rfl := whole.derives.toMapped.id_unique owner_named named
      exact ⟨row, ⟨holds, row_named⟩, rfl⟩

theorem stored_of_mem_values (whole : tx.Exact) {value : Value}
    (member : value ∈ values tx id field) : value.stored = value := by
  obtain ⟨uuid, row, -, holds, -, rfl⟩ := (mem_values whole).mp member
  exact congrArg FieldRow.value (whole.consistent.stored holds)

theorem held_iff (whole : tx.Exact) {part : UInt8} {key : Bytes} : Held tx field part key id ↔
    ∃ uuid row, tx.derived.id uuid = some id ∧ tx.primary.Holds uuid row ∧
      partKey field part key id ∈ Derived.partKeys id row := by
  rw [Held, whole.derives.mem_parts whole.consistent.toIndexed]
  constructor
  · rintro ⟨uuid, other, row, named, holds, listed⟩
    have ids : id = other := by
      rcases Derived.mem_partKeys.mp listed with ⟨_, -, same⟩ | ⟨_, -, same⟩ | ⟨_, -, same⟩
      · exact (partKey_inj.mp same).2.2.2
      · exact (partKey_inj.mp same).2.2.2
      · exact (partKey_inj.mp same).2.2.2
    subst ids
    exact ⟨uuid, row, named, holds, listed⟩
  · rintro ⟨uuid, row, named, holds, listed⟩
    exact ⟨uuid, id, row, named, holds, listed⟩

theorem held_value (whole : tx.Exact) {key : Bytes} : Held tx field valuePart key id ↔
    ∃ value ∈ values tx id field, valueKey value = some key := by
  rw [held_iff whole]
  constructor
  · rintro ⟨uuid, row, named, holds, listed⟩
    rcases Derived.mem_partKeys.mp listed with ⟨other, of_row, same⟩ | ⟨_, -, same⟩ | ⟨_, -, same⟩
    · obtain ⟨rfl, -, rfl, -⟩ := partKey_inj.mp same
      exact ⟨row.value, (mem_values whole).mpr ⟨uuid, row, named, holds, rfl, rfl⟩, of_row⟩
    · exact absurd (partKey_inj.mp same).2.1 (by decide)
    · exact absurd (partKey_inj.mp same).2.1 (by decide)
  · rintro ⟨value, member, of_value⟩
    obtain ⟨uuid, row, named, holds, rfl, rfl⟩ := (mem_values whole).mp member
    exact ⟨uuid, row, named, holds, Derived.mem_partKeys.mpr (.inl ⟨key, of_value, rfl⟩)⟩

theorem held_name (whole : tx.Exact) {key : Bytes} : Held tx field namePart key id ↔
    ∃ value ∈ values tx id field, namePartKey value = some key := by
  rw [held_iff whole]
  constructor
  · rintro ⟨uuid, row, named, holds, listed⟩
    rcases Derived.mem_partKeys.mp listed with ⟨_, -, same⟩ | ⟨other, of_row, same⟩ | ⟨_, -, same⟩
    · exact absurd (partKey_inj.mp same).2.1 (by decide)
    · obtain ⟨rfl, -, rfl, -⟩ := partKey_inj.mp same
      exact ⟨row.value, (mem_values whole).mpr ⟨uuid, row, named, holds, rfl, rfl⟩, of_row⟩
    · exact absurd (partKey_inj.mp same).2.1 (by decide)
  · rintro ⟨value, member, of_value⟩
    obtain ⟨uuid, row, named, holds, rfl, rfl⟩ := (mem_values whole).mp member
    exact ⟨uuid, row, named, holds, Derived.mem_partKeys.mpr (.inr (.inl ⟨key, of_value, rfl⟩))⟩

omit [Externals] in
theorem mem_having {ids : Finset UInt32} {holds : Value → Bool} :
    id ∈ having tx ids field holds ↔
      id ∈ ids ∧ ∃ value ∈ values tx id field, holds value = true := by
  rw [having, Finset.mem_filter, List.any_eq_true]

theorem mem_holders (whole : tx.Exact) : id ∈ holders tx field ↔ values tx id field ≠ [] := by
  have listed : ∀ kind, id ∈ set tx kind.byte (some field) ↔
      ∃ uuid, tx.derived.id uuid = some id ∧
        Derived.InSet tx.primary (.ofField kind field) uuid := fun kind => by
    have plain : (SetKey.ofField kind field).Plain := trivial
    exact whole.derives.mem_set plain
  rw [holders, Finset.mem_union, show presentKind = FieldKind.present.byte from rfl,
    show absentKind = FieldKind.absent.byte from rfl, listed, listed]
  constructor
  · rintro (⟨uuid, named, row, holds, row_named, -⟩ | ⟨uuid, named, row, holds, row_named, -⟩)
    · exact List.ne_nil_of_mem ((mem_values whole).mpr ⟨uuid, row, named, holds, row_named, rfl⟩)
    · exact List.ne_nil_of_mem ((mem_values whole).mpr ⟨uuid, row, named, holds, row_named, rfl⟩)
  · intro some_row
    obtain ⟨value, member⟩ := List.exists_mem_of_ne_nil _ some_row
    obtain ⟨uuid, row, named, holds, row_named, rfl⟩ := (mem_values whole).mp member
    cases nothing : row.value.isNothing with
    | false => exact .inl ⟨uuid, named, row, holds, row_named, nothing⟩
    | true => exact .inr ⟨uuid, named, row, holds, row_named, nothing⟩

/-- Where a field has no kind, it holds no value. -/
theorem nothing_of_kind (whole : tx.Exact) (none_known : kind tx field = none) {value : Value}
    (member : value ∈ values tx id field) : value = .nothing := by
  obtain ⟨uuid, row, -, holds, rfl, rfl⟩ := (mem_values whole).mp member
  by_contra some_value
  have typed : row.value.typeStr ≠ "nothing" := fun same =>
    some_value ((Value.typeStr_eq_nothing_iff _).mp same)
  have counted := whole.consistent.count_eq row.name row.value.typeStr typed
  have positive : 0 < tx.primary.typeCount row.name row.value.typeStr :=
    whole.consistent.typeCount_pos.mpr ⟨uuid, row, holds, rfl, rfl⟩
  cases found : tx.primary.fieldTypes.get (typeKey row.name row.value.typeStr) with
  | none =>
      rw [found, Option.getD_none, Int64.toInt_zero] at counted
      omega
  | some count =>
      have listed : (typeKey row.name row.value.typeStr, count) ∈
          tx.primary.fieldTypes.prefixIter (nameKey row.name) :=
        (Table.mem_prefixIter ..).mpr ⟨List.prefix_append _ _, found⟩
      rw [kind, Option.map_eq_none_iff, valueType, List.findSome?_eq_none_iff] at none_known
      have unknown := none_known _ listed
      rw [List.find?_eq_none] at unknown
      refine unknown row.value.typeStr ?_ ?_
      · cases held : row.value with
        | nothing => exact absurd held some_value
        | _ => simp [Value.typeStr, types]
      · rw [typeKey, List.drop_left, decide_eq_true rfl]

/-! ### Names -/

theorem namePartKey_eq (value : Value) :
    namePartKey value = (nameOf value).map fun name => textKey name.asBytes := by
  rw [namePartKey, nameOf, Option.map_map]
  rfl

theorem held_of_name (whole : tx.Exact) {value : Value} (member : value ∈ values tx id field)
    {name : String} (named : nameOf value = some name) :
    Held tx field namePart (textKey name.asBytes) id :=
  (held_name whole).mpr ⟨value, member, by rw [namePartKey_eq, named, Option.map_some]⟩

theorem name_of_held (whole : tx.Exact) {key : Bytes} (held : Held tx field namePart key id) :
    ∃ value ∈ values tx id field, ∃ name, nameOf value = some name ∧
      textKey name.asBytes = key := by
  obtain ⟨value, member, keyed⟩ := (held_name whole).mp held
  rw [namePartKey_eq, Option.map_eq_some_iff] at keyed
  exact ⟨value, member, keyed⟩

/-- An equality with a name finds the positions of that name. -/
theorem mem_compareNames_eq (whole : tx.Exact) {text : String} :
    id ∈ compareNames tx field .eq text ↔
      ∃ value ∈ values tx id field, nameOf value = some text := by
  unfold compareNames
  dsimp only
  split
  next hashed =>
    rw [mem_having, mem_bucket_name whole]
    simp only [beq_true, Option.any_eq_true, decide_eq_true_eq, exists_eq_right]
    refine and_iff_right_of_imp ?_
    rintro ⟨value, member, named⟩
    exact held_of_name whole member named
  next unhashed =>
    rw [mem_bucket_name whole]
    constructor
    · intro held
      obtain ⟨value, member, name, named, keys⟩ := name_of_held whole held
      have whole_text : isCut text.asBytes = false := Bool.eq_false_iff.mpr unhashed
      have same := String.asBytes_injective (eq_of_textKey keys.symm whole_text)
      exact ⟨value, member, same ▸ named⟩
    · rintro ⟨value, member, named⟩
      exact held_of_name whole member named

/-- An inequality with a name finds the positions of another. -/
theorem mem_compareNames_neq (whole : tx.Exact) {text : String} :
    id ∈ compareNames tx field .neq text ↔
      ∃ value ∈ values tx id field, ∃ name, nameOf value = some name ∧ name ≠ text := by
  have others : id ∈ allBut tx field namePart (some (textKey text.asBytes)) ↔
      ∃ value ∈ values tx id field, ∃ name, nameOf value = some name ∧
        textKey name.asBytes ≠ textKey text.asBytes := by
    rw [mem_allBut whole]
    constructor
    · rintro ⟨other, differ, held⟩
      obtain ⟨value, member, name, named, rfl⟩ := name_of_held whole held
      exact ⟨value, member, name, named, fun same => differ (congrArg some same)⟩
    · rintro ⟨value, member, name, named, differ⟩
      exact ⟨_, fun same => differ (Option.some.inj same), held_of_name whole member named⟩
  unfold compareNames
  dsimp only
  split
  next hashed =>
    rw [Finset.mem_union, others, mem_having, mem_bucket_name whole]
    simp only [beq_false, Option.any_eq_true, Bool.not_eq_true', decide_eq_false_iff_not]
    constructor
    · rintro (⟨value, member, name, named, differ⟩ | ⟨-, other⟩)
      · exact ⟨value, member, name, named, fun same => differ (by rw [same])⟩
      · exact other
    · rintro ⟨value, member, name, named, differ⟩
      by_cases keys : textKey name.asBytes = textKey text.asBytes
      · refine .inr ⟨?_, value, member, name, named, differ⟩
        rw [← keys]
        exact held_of_name whole member named
      · exact .inl ⟨value, member, name, named, keys⟩
  next unhashed =>
    rw [others]
    refine exists_congr fun value => and_congr_right fun _ => exists_congr fun name =>
      and_congr_right fun _ => not_congr ⟨fun keys => ?_, fun same => by rw [same]⟩
    have whole_text : isCut text.asBytes = false := Bool.eq_false_iff.mpr unhashed
    exact String.asBytes_injective (eq_of_textKey keys.symm whole_text).symm

/-! ### Values -/

/-- The bucket of a value, and where its key is taken to be hashed the value itself. -/
theorem mem_equal (whole : tx.Exact) {operand : Value} {key : Bytes}
    (of_operand : valueKey operand = some key) : id ∈ equal tx field key operand ↔
      (∃ value ∈ values tx id field, valueKey value = some key) ∧
        (isHashed key = true → ∃ value ∈ values tx id field, Same value operand) := by
  unfold equal
  dsimp only
  split
  next hashed =>
    rw [mem_having, mem_bucket whole of_operand, held_value whole]
    simp only [hashed, true_imp_iff, (eq_iff_same of_operand hashed).1]
  next unhashed =>
    rw [mem_bucket whole of_operand, held_value whole]
    exact (and_iff_left fun hashed => absurd hashed unhashed).symm

/-- Rows of another key, and where the operand's key is taken to be hashed those of its key that
differ from it. -/
def Beside (tx : KvTxn) (field : String) (operand : Value) (id : UInt32) : Prop :=
  (∃ value ∈ values tx id field, value ≠ .nothing ∧ valueKey value ≠ valueKey operand) ∨
    ∃ key, valueKey operand = some key ∧ isHashed key = true ∧
      ∃ value ∈ values tx id field, valueKey value = some key ∧ ¬Same value operand

theorem mem_probed (operand : Value) {candidates : Finset UInt32} :
    id ∈ having tx candidates field (differs (valueKey operand) operand) ↔
      id ∈ candidates ∧ Beside tx field operand id := by
  rw [mem_having]
  refine and_congr_right fun _ => ?_
  have differs_iff : ∀ value, differs (valueKey operand) operand value = true ↔
      (value ≠ .nothing ∧ valueKey value ≠ valueKey operand) ∨
        ∃ key, valueKey operand = some key ∧ isHashed key = true ∧ valueKey value = some key ∧
          ¬Same value operand := by
    intro value
    unfold differs
    split
    next nothing =>
      refine iff_of_false Bool.false_ne_true ?_
      rintro (⟨some_value, -⟩ | ⟨key, -, -, keyed, -⟩)
      · exact some_value (valueKey_eq_none.mp nothing)
      · rw [nothing] at keyed
        cases keyed
    next own keyed =>
      have some_value : value ≠ .nothing := by
        rintro rfl
        cases keyed
      split
      next same =>
        rw [Bool.and_eq_true, Bool.not_eq_true']
        constructor
        · rintro ⟨hashed, differ⟩
          refine .inr ⟨own, same.symm, hashed, keyed, fun equal => ?_⟩
          rw [((eq_iff_same same.symm hashed).1).mpr equal] at differ
          cases differ
        · rintro (⟨-, other⟩ | ⟨key, of_operand, hashed, of_value, differ⟩)
          · exact absurd (keyed.trans same) other
          · obtain rfl := Option.some.inj (keyed.symm.trans of_value)
            refine ⟨hashed, Bool.eq_false_iff.mpr fun equal => differ ?_⟩
            exact (eq_iff_same same.symm hashed).1.mp equal
      next other =>
        refine iff_of_true rfl (.inl ⟨some_value, ?_⟩)
        rw [keyed]
        exact other
  constructor
  · rintro ⟨value, member, differ⟩
    rcases (differs_iff value).mp differ with other | ⟨key, of_operand, hashed, rest⟩
    · exact .inl ⟨value, member, other⟩
    · exact .inr ⟨key, of_operand, hashed, value, member, rest⟩
  · rintro (⟨value, member, other⟩ | ⟨key, of_operand, hashed, value, member, rest⟩)
    · exact ⟨value, member, (differs_iff value).mpr (.inl other)⟩
    · exact ⟨value, member, (differs_iff value).mpr (.inr ⟨key, of_operand, hashed, rest⟩)⟩

theorem mem_allBut_value (whole : tx.Exact) (operand : Value) :
    id ∈ allBut tx field valuePart (valueKey operand) ↔
      ∃ value ∈ values tx id field, value ≠ .nothing ∧ valueKey value ≠ valueKey operand := by
  rw [mem_allBut whole]
  constructor
  · rintro ⟨other, differ, held⟩
    obtain ⟨value, member, keyed⟩ := (held_value whole).mp held
    refine ⟨value, member, ?_, by rwa [keyed]⟩
    rintro rfl
    cases keyed
  · rintro ⟨value, member, some_value, differ⟩
    obtain ⟨key, keyed⟩ := Option.ne_none_iff_exists'.mp fun none_keyed =>
      some_value (valueKey_eq_none.mp none_keyed)
    rw [keyed] at differ
    exact ⟨key, differ, (held_value whole).mpr ⟨value, member, keyed⟩⟩

/-! ### Whole comparisons -/

/-- A string operand on a forest compares the names. -/
def byName (tx : KvTxn) (field : String) : Value → Option String
  | .string text => if kind tx field = some (.reference true) then some text else none
  | _ => none

/-- A row is equal to an operand. -/
def Equals (tx : KvTxn) (field : String) (operand held : Value) : Prop :=
  match byName tx field operand with
  | some text => nameOf held = some text
  | none => held ≠ .nothing ∧ Same held operand

/-- A row differs from an operand. -/
def Differs (tx : KvTxn) (field : String) (operand held : Value) : Prop :=
  match byName tx field operand with
  | some text => ∃ name, nameOf held = some name ∧ name ≠ text
  | none => held ≠ .nothing ∧ ¬Same held operand

/-- A comparison gives the metarecords asked about that have a row of a kind. -/
def Gives (tx : KvTxn) (field : String) (op : CmpOp) (operand : Value)
    (restrict : Option (Finset UInt32)) (wanted : Value → Prop) : Prop :=
  ∃ found, compare tx field op operand restrict = .ok found ∧
    ∀ id, (∀ ids ∈ restrict, id ∈ ids) →
      (id ∈ found ↔ ∃ value ∈ values tx id field, wanted value)

theorem compare_byName {operand : Value} {text : String}
    (named : byName tx field operand = some text) (op : CmpOp) (restrict : Option (Finset UInt32)) :
    compare tx field op operand restrict = .ok (compareNames tx field op text) := by
  unfold byName at named
  split at named
  next other =>
    split at named
    next tree =>
      obtain rfl := Option.some.inj named
      unfold compare
      rw [tree]
    next => cases named
  next => cases named

theorem compare_of_none {operand : Value} (unknown : kind tx field = none) (op : CmpOp)
    (restrict : Option (Finset UInt32)) : compare tx field op operand restrict = .ok ∅ := by
  unfold compare
  rw [unknown]

theorem compare_eq {operand : Value} {sort : Kind} (known : kind tx field = some sort)
    (named : byName tx field operand = none) (restrict : Option (Finset UInt32)) :
    compare tx field .eq operand restrict =
      .ok (((valueKey operand).map fun key => equal tx field key operand).getD ∅) := by
  unfold compare
  rw [known]
  split
  next same => cases same
  next text same =>
    obtain rfl := Option.some.inj same
    simp [byName, known] at named
  next => rfl

/-- An inequality, probed or not, finds those with a row beside the operand. -/
theorem mem_compare_neq (whole : tx.Exact) {operand : Value} {sort : Kind}
    (known : kind tx field = some sort) (named : byName tx field operand = none)
    (restrict : Option (Finset UInt32)) :
    ∃ found, compare tx field .neq operand restrict = .ok found ∧
      ∀ id, (∀ ids ∈ restrict, id ∈ ids) → (id ∈ found ↔ Beside tx field operand id) := by
  unfold compare
  rw [known]
  split
  next same => cases same
  next text same =>
    obtain rfl := Option.some.inj same
    simp [byName, known] at named
  next operand _ _ _ _ _ =>
    dsimp only
    split
    next candidates probing =>
      refine ⟨_, rfl, fun id within => ?_⟩
      rw [mem_probed]
      exact and_iff_right (within candidates (Option.mem_filter_iff.mp probing).1)
    next =>
      split
      next key found =>
        obtain ⟨of_operand, hashed⟩ := Option.mem_filter_iff.mp found
        refine ⟨_, rfl, fun id _ => ?_⟩
        rw [Finset.mem_union, mem_allBut_value whole, mem_having, mem_bucket whole of_operand,
          held_value whole, Beside]
        simp only [Bool.and_eq_true, Bool.not_eq_true']
        have unequal : ∀ {value : Value}, value.eq operand = false ↔ ¬Same value operand := by
          intro value
          rw [← (eq_iff_same of_operand hashed).1, Bool.not_eq_true]
        constructor
        · rintro (other | ⟨-, value, member, some_value, differ⟩)
          · exact .inl other
          · by_cases keyed : valueKey value = some key
            · exact .inr ⟨key, of_operand, hashed, value, member, keyed, unequal.mp differ⟩
            · refine .inl ⟨value, member, ?_, ?_⟩
              · rintro rfl
                cases some_value
              · rwa [of_operand]
        · rintro (other | ⟨own, of_own, -, value, member, keyed, differ⟩)
          · exact .inl other
          · obtain rfl := Option.some.inj (of_operand.symm.trans of_own)
            refine .inr ⟨⟨value, member, keyed⟩, value, member, ?_, unequal.mpr differ⟩
            cases value with
            | nothing => cases keyed
            | _ => rfl
      next none_hashed =>
        refine ⟨_, rfl, fun id _ => ?_⟩
        rw [mem_allBut_value whole, Beside]
        refine (or_iff_left ?_).symm
        rintro ⟨key, of_operand, hashed, -⟩
        rw [of_operand, Option.filter_some, if_pos hashed] at none_hashed
        cases none_hashed

/-- An equality is right unless its operand is ambiguous and a metarecord asked about holds another
value of the operand's key, and not the operand. -/
theorem gives_equals (whole : tx.Exact) (operand : Value) (restrict : Option (Finset UInt32)) :
    Gives tx field .eq operand restrict (Equals tx field operand) ↔
      (Ambiguous operand → ∀ id, (∀ ids ∈ restrict, id ∈ ids) →
        (∃ value ∈ values tx id field, valueKey value = valueKey operand) →
          ∃ value ∈ values tx id field, Same value operand) := by
  unfold Equals
  cases named : byName tx field operand with
  | some text =>
      refine iff_of_true ⟨_, compare_byName named .eq restrict, fun id _ =>
        mem_compareNames_eq whole⟩ fun ambiguous => ?_
      cases operand with
      | string => exact False.elim ambiguous
      | _ => cases named
  | none =>
      have present : ∀ {key : Bytes} {value : Value}, valueKey operand = some key →
          Same value operand → value ≠ .nothing := by
        rintro key value of_operand same rfl
        rw [← valueKey_of_same same] at of_operand
        cases of_operand
      cases known : kind tx field with
      | none =>
          have no_value := fun {id} {value} => @nothing_of_kind _ tx field id whole known value
          refine iff_of_true ⟨_, compare_of_none known .eq restrict, fun id _ => ?_⟩
            fun ambiguous id _ => ?_
          · refine iff_of_false (Finset.notMem_empty id) ?_
            rintro ⟨value, member, some_value, -⟩
            exact some_value (no_value member)
          · obtain ⟨key, of_operand, -⟩ := ambiguous.unhashed
            rintro ⟨value, member, keyed⟩
            rw [no_value member, of_operand] at keyed
            cases keyed
      | some sort =>
          rw [Gives]
          simp only [compare_eq known named, Except.ok.injEq, exists_eq_left']
          cases of_operand : valueKey operand with
          | none =>
              have nothing := valueKey_eq_none.mp of_operand
              refine iff_of_true (fun id _ => iff_of_false (Finset.notMem_empty id) ?_) ?_
              · rintro ⟨value, -, some_value, same | ⟨_, _, -, of_other, -⟩⟩
                · exact some_value (same.trans nothing)
                · rw [nothing] at of_other
                  cases of_other
              · rw [nothing]
                exact False.elim
          | some key =>
              simp only [Option.map_some, Option.getD_some, mem_equal whole of_operand]
              constructor
              · intro right ambiguous id within shared
                obtain ⟨own, of_own, unhashed⟩ := ambiguous.unhashed
                obtain rfl := Option.some.inj (of_operand.symm.trans of_own)
                have found := (right id within).mp ⟨shared, fun hashed => by
                  rw [unhashed] at hashed
                  cases hashed⟩
                obtain ⟨value, member, -, same⟩ := found
                exact ⟨value, member, same⟩
              · intro clear id within
                constructor
                · rintro ⟨⟨value, member, keyed⟩, resolved⟩
                  have found : ∃ value ∈ values tx id field, Same value operand := by
                    by_cases ambiguous : Ambiguous operand
                    · exact clear ambiguous id within ⟨value, member, keyed⟩
                    · cases hashed : isHashed key with
                      | true => exact resolved hashed
                      | false =>
                          exact ⟨value, member, same_of_valueKey (stored_of_mem_values whole member)
                            keyed of_operand hashed ambiguous⟩
                  obtain ⟨value, member, same⟩ := found
                  exact ⟨value, member, present of_operand same, same⟩
                · rintro ⟨value, member, -, same⟩
                  exact ⟨⟨value, member, (valueKey_of_same same).trans of_operand⟩, fun _ =>
                    ⟨value, member, same⟩⟩

/-- An inequality is right unless its operand is ambiguous and a metarecord asked about holds
another value of the operand's key, and no value of another. -/
theorem gives_differs (whole : tx.Exact) (operand : Value) (restrict : Option (Finset UInt32)) :
    Gives tx field .neq operand restrict (Differs tx field operand) ↔
      (Ambiguous operand → ∀ id, (∀ ids ∈ restrict, id ∈ ids) →
        (∃ value ∈ values tx id field, valueKey value = valueKey operand ∧ ¬Same value operand) →
          ∃ value ∈ values tx id field, value ≠ .nothing ∧ valueKey value ≠ valueKey operand) := by
  unfold Differs
  cases named : byName tx field operand with
  | some text =>
      refine iff_of_true ⟨_, compare_byName named .neq restrict, fun id _ =>
        mem_compareNames_neq whole⟩ fun ambiguous => ?_
      cases operand with
      | string => exact False.elim ambiguous
      | _ => cases named
  | none =>
      cases known : kind tx field with
      | none =>
          have no_value := fun {id} {value} => @nothing_of_kind _ tx field id whole known value
          refine iff_of_true ⟨_, compare_of_none known .neq restrict, fun id _ => ?_⟩
            fun ambiguous id _ => ?_
          · refine iff_of_false (Finset.notMem_empty id) ?_
            rintro ⟨value, member, some_value, -⟩
            exact some_value (no_value member)
          · obtain ⟨key, of_operand, -⟩ := ambiguous.unhashed
            rintro ⟨value, member, keyed, -⟩
            rw [no_value member, of_operand] at keyed
            cases keyed
      | some sort =>
          obtain ⟨found, ran, beside⟩ := mem_compare_neq whole known named restrict
          have apart : ∀ {value : Value}, valueKey value ≠ valueKey operand → ¬Same value operand :=
            fun differ same => differ (valueKey_of_same same)
          rw [Gives]
          simp only [ran, Except.ok.injEq, exists_eq_left']
          constructor
          · rintro right ambiguous id within ⟨value, member, keyed, differ⟩
            obtain ⟨own, of_operand, unhashed⟩ := ambiguous.unhashed
            have some_value : value ≠ .nothing := by
              rintro rfl
              rw [of_operand] at keyed
              cases keyed
            have known_found := (right id within).mpr ⟨value, member, some_value, differ⟩
            rcases (beside id within).mp known_found with other | ⟨key, of_key, hashed, -⟩
            · exact other
            · obtain rfl := Option.some.inj (of_operand.symm.trans of_key)
              rw [unhashed] at hashed
              cases hashed
          · intro clear id within
            rw [beside id within]
            constructor
            · rintro (⟨value, member, some_value, differ⟩ |
                ⟨key, -, -, value, member, keyed, differ⟩)
              · exact ⟨value, member, some_value, apart differ⟩
              · refine ⟨value, member, ?_, differ⟩
                rintro rfl
                cases keyed
            · rintro ⟨value, member, some_value, differ⟩
              by_cases keyed : valueKey value = valueKey operand
              · by_cases ambiguous : Ambiguous operand
                · exact .inl (clear ambiguous id within ⟨value, member, keyed, differ⟩)
                · obtain ⟨key, of_value⟩ := Option.ne_none_iff_exists'.mp fun none_keyed =>
                    some_value (valueKey_eq_none.mp none_keyed)
                  have of_operand := keyed.symm.trans of_value
                  cases hashed : isHashed key with
                  | true => exact .inr ⟨key, of_operand, hashed, value, member, of_value, differ⟩
                  | false =>
                      exact absurd (same_of_valueKey (stored_of_mem_values whole member) of_value
                        of_operand hashed ambiguous) differ
              · exact .inl ⟨value, member, some_value, keyed⟩

/-! ### Values shared -/

/-- A row of an id is one of the seed's values. -/
def Shares (tx : KvTxn) (field : String) (seed : Finset UInt32) (id : UInt32) : Prop :=
  ∃ value ∈ values tx id field, ∃ source ∈ seed, ∃ own ∈ values tx source field,
    own ≠ .nothing ∧ Same value own

theorem mem_sameAs (whole : tx.Exact) {seed : Finset UInt32} : id ∈ sameAs tx field seed ↔
    ∃ source ∈ seed, ∃ own ∈ values tx source field, ∃ key, valueKey own = some key ∧
      (∃ value ∈ values tx id field, valueKey value = some key) ∧
        (isHashed key = true → ∃ value ∈ values tx id field, ∃ source ∈ seed,
          ∃ own ∈ values tx source field, valueKey own = some key ∧ Same value own) := by
  have resolved : ∀ {key : Bytes} {own : Value}, valueKey own = some key →
      (id ∈ (let ids := bucket tx field valuePart key
        if isHashed key then
          having tx ids field fun held => decide (∃ id ∈ seed, ∃ own ∈ values tx id field,
            valueKey own = some key ∧ own.eq held = true)
        else ids) ↔
      (∃ value ∈ values tx id field, valueKey value = some key) ∧
        (isHashed key = true → ∃ value ∈ values tx id field, ∃ source ∈ seed,
          ∃ own ∈ values tx source field, valueKey own = some key ∧ Same value own)) := by
    intro key own of_own
    dsimp only
    split
    next hashed =>
      rw [mem_having, mem_bucket whole of_own, held_value whole]
      simp only [hashed, true_imp_iff, decide_eq_true_eq]
      refine and_congr_right fun _ => exists_congr fun value => and_congr_right fun _ =>
        exists_congr fun source => and_congr_right fun _ => exists_congr fun other =>
          and_congr_right fun _ => and_congr_right fun of_other => ?_
      exact (eq_iff_same of_other hashed).2
    next unhashed =>
      rw [mem_bucket whole of_own, held_value whole]
      exact (and_iff_left fun hashed => absurd hashed unhashed).symm
  unfold sameAs
  dsimp only
  simp only [Finset.mem_biUnion, List.mem_toFinset, List.mem_filterMap]
  constructor
  · rintro ⟨key, ⟨source, seeded, own, member, of_own⟩, found⟩
    exact ⟨source, seeded, own, member, key, of_own, (resolved of_own).mp found⟩
  · rintro ⟨source, seeded, own, member, key, of_own, found⟩
    exact ⟨key, ⟨source, seeded, own, member, of_own⟩, (resolved of_own).mpr found⟩

/-- The values shared are right unless the seed holds an ambiguous one, and a metarecord holds
another value of its key, and none of the seed's. -/
theorem sameAs_right (whole : tx.Exact) (seed : Finset UInt32) :
    (∀ id, id ∈ sameAs tx field seed ↔ Shares tx field seed id) ↔
      ∀ source ∈ seed, ∀ own ∈ values tx source field, Ambiguous own → ∀ id,
        (∃ value ∈ values tx id field, valueKey value = valueKey own) →
          Shares tx field seed id := by
  constructor
  · intro right source seeded own member ambiguous id shared
    obtain ⟨key, of_own, unhashed⟩ := ambiguous.unhashed
    rw [of_own] at shared
    refine (right id).mp ((mem_sameAs whole).mpr
      ⟨source, seeded, own, member, key, of_own, shared, ?_⟩)
    intro hashed
    rw [unhashed] at hashed
    cases hashed
  · intro clear id
    rw [mem_sameAs whole]
    constructor
    · rintro ⟨source, seeded, own, member, key, of_own, ⟨value, held, keyed⟩, resolved⟩
      have some_value : ∀ {other : Value}, valueKey other = some key → other ≠ .nothing := by
        rintro other of_other rfl
        cases of_other
      cases hashed : isHashed key with
      | true =>
          obtain ⟨same, same_held, origin, origin_seeded, other, other_member, of_other, equal⟩ :=
            resolved hashed
          exact ⟨same, same_held, origin, origin_seeded, other, other_member,
            some_value of_other, equal⟩
      | false =>
          by_cases ambiguous : Ambiguous own
          · exact clear source seeded own member ambiguous id ⟨value, held, keyed.trans of_own.symm⟩
          · exact ⟨value, held, source, seeded, own, member, some_value of_own,
              same_of_valueKey (stored_of_mem_values whole held) keyed of_own hashed ambiguous⟩
    · rintro ⟨value, held, source, seeded, own, member, some_value, same⟩
      obtain ⟨key, of_own⟩ := Option.ne_none_iff_exists'.mp fun none_keyed =>
        some_value (valueKey_eq_none.mp none_keyed)
      have keyed := (valueKey_of_same same).trans of_own
      exact ⟨source, seeded, own, member, key, of_own, ⟨value, held, keyed⟩, fun _ =>
        ⟨value, held, source, seeded, own, member, of_own, same⟩⟩

/-! ### The question of the schema -/

omit [Externals] in
theorem mem_inOrder {ids : Finset UInt32} : id ∈ inOrder ids ↔ id ∈ ids := by
  simp only [inOrder, List.mem_map, Finset.mem_sort, Finset.mem_image]
  constructor
  · rintro ⟨_, ⟨other, member, rfl⟩, rfl⟩
    rwa [UInt32.ofNat_toNat]
  · intro member
    exact ⟨id.toNat, ⟨id, member, rfl⟩, UInt32.ofNat_toNat⟩

omit [Externals] in
theorem pairwise_inOrder (ids : Finset UInt32) :
    (inOrder ids).Pairwise fun first second => first < second := by
  rw [inOrder, List.pairwise_map]
  refine (Finset.sortedLT_sort (ids.image UInt32.toNat)).pairwise.imp_of_mem ?_
  intro first second first_mem second_mem less
  simp only [Finset.mem_sort, Finset.mem_image] at first_mem second_mem
  obtain ⟨one, -, rfl⟩ := first_mem
  obtain ⟨other, -, rfl⟩ := second_mem
  rw [UInt32.ofNat_toNat, UInt32.ofNat_toNat]
  exact UInt32.lt_iff_toNat_lt.mpr less

/-- The schema's question finds the metarecords declared of one of the types that have no row of the
field, in the order of their ids, as many as asked. -/
theorem typedMissing_right (whole : tx.Exact) (types : List String) (limit : Int64) :
    ∃ ids : List UInt32, (ids.Pairwise fun first second => first < second) ∧
      (∀ id, id ∈ ids ↔ (∃ name ∈ types, Value.string name ∈ values tx id "mf_schema") ∧
        values tx id field = []) ∧
      typedMissing tx types field limit =
        (ids.filterMap fun id => tx.derived.uuids.get (be32 id)).take limit.toInt.toNat := by
  refine ⟨_, pairwise_inOrder _, fun id => ?_, rfl⟩
  rw [mem_inOrder, Finset.mem_sdiff, mem_holders whole, not_not]
  refine and_congr_left fun _ => ?_
  have declared : ∀ {earlier : Finset UInt32}, id ∈ types.foldl (fun declared name =>
      declared ∪ ((valueKey (.string name)).map fun key =>
        equal tx "mf_schema" key (.string name)).getD ∅) earlier ↔
      id ∈ earlier ∨ ∃ name ∈ types, Value.string name ∈ values tx id "mf_schema" := by
    intro earlier
    induction types generalizing earlier with
    | nil => simp
    | cons name types ih =>
        rw [List.foldl_cons, ih, Finset.mem_union, or_assoc]
        refine or_congr_right ?_
        have here : id ∈ ((valueKey (.string name)).map fun key =>
            equal tx "mf_schema" key (.string name)).getD ∅ ↔
              Value.string name ∈ values tx id "mf_schema" := by
          change id ∈ equal tx "mf_schema" (2 :: textKey name.asBytes) (.string name) ↔ _
          rw [mem_equal whole rfl]
          have only : ∀ {value : Value}, Same value (.string name) ↔ value = .string name := by
            intro value
            refine or_iff_left ?_
            rintro ⟨_, _, -, of_other, -⟩
            cases of_other
          simp only [only, exists_eq_right]
          constructor
          · rintro ⟨⟨value, member, keyed⟩, resolved⟩
            cases hashed : isHashed (2 :: textKey name.asBytes) with
            | true => exact resolved hashed
            | false =>
                have same : Same value (.string name) :=
                  same_of_valueKey (stored_of_mem_values whole member) keyed rfl hashed
                    False.elim
                exact only.mp same ▸ member
          · intro member
            exact ⟨⟨_, member, rfl⟩, fun _ => member⟩
        rw [here]
        simp
  rw [declared]
  simp

end KvSource

/-- In every store reachable: an equality, an inequality and the values shared with a seed find what
they are to, unless the value compared is a `hierarchy_ref` with a cut name, or under the nil uuid,
and its key is another's there; and the question of the schema always does. -/
theorem comparisons_right {store : KvStore} (reached : Reachable (fun _ => True) store)
    (field : String) :
    (∀ operand restrict,
      (KvSource.Gives store.tx field .eq operand restrict
          (KvSource.Equals store.tx field operand) ↔
        (Ambiguous operand → ∀ id, (∀ ids ∈ restrict, id ∈ ids) →
          (∃ value ∈ KvSource.values store.tx id field, valueKey value = valueKey operand) →
            ∃ value ∈ KvSource.values store.tx id field, Same value operand)) ∧
      (KvSource.Gives store.tx field .neq operand restrict
          (KvSource.Differs store.tx field operand) ↔
        (Ambiguous operand → ∀ id, (∀ ids ∈ restrict, id ∈ ids) →
          (∃ value ∈ KvSource.values store.tx id field,
            valueKey value = valueKey operand ∧ ¬Same value operand) →
              ∃ value ∈ KvSource.values store.tx id field,
                value ≠ .nothing ∧ valueKey value ≠ valueKey operand))) ∧
    (∀ seed, (∀ id, id ∈ KvSource.sameAs store.tx field seed ↔
        KvSource.Shares store.tx field seed id) ↔
      ∀ source ∈ seed, ∀ own ∈ KvSource.values store.tx source field, Ambiguous own → ∀ id,
        (∃ value ∈ KvSource.values store.tx id field, valueKey value = valueKey own) →
          KvSource.Shares store.tx field seed id) ∧
    ∀ types limit, ∃ ids : List UInt32, (ids.Pairwise fun first second => first < second) ∧
      (∀ id, id ∈ ids ↔
        (∃ name ∈ types, Value.string name ∈ KvSource.values store.tx id "mf_schema") ∧
          KvSource.values store.tx id field = []) ∧
      KvSource.typedMissing store.tx types field limit =
        (ids.filterMap fun id => store.tx.derived.uuids.get (be32 id)).take limit.toInt.toNat :=
  ⟨fun operand restrict => ⟨KvSource.gives_equals reached.exact operand restrict,
    KvSource.gives_differs reached.exact operand restrict⟩,
    KvSource.sameAs_right reached.exact, KvSource.typedMissing_right reached.exact⟩

end Compared

/-- The external functions, for runs on texts without capitals. -/
abbrev lowerExternals : Externals := { plainExternals with toLowercase := fun text => text }

/-- A long name with an ending. -/
def longName (ending : List UInt8) : TreeName := ⟨List.replicate 256 0x78 ++ ending⟩

/-- A write of two tags whose names are cut at one front and hash alike. -/
def sampleTags : Transaction where
  context := .new ⟨"tags", none, none⟩
  retention := .unlimited
  timestamp := 7
  calls := [.createMetarecord (sampleUuids 1) [⟨"tag", .hierarchyRef none (longName [97, 122])⟩],
    .createMetarecord (sampleUuids 2) [⟨"tag", .hierarchyRef none (longName [98, 91])⟩]]

theorem sampleTags_run : letI : Externals := lowerExternals
    (fun store : KvStore => ([KvSource.values store.tx 1 "tag", KvSource.values store.tx 2 "tag"],
      (KvSource.compare store.tx "tag" .eq (.hierarchyRef none (longName [97, 122]))
        none).toOption)) <$> sampleTags.run {} =
      .ok ([[.hierarchyRef none (longName [97, 122])], [.hierarchyRef none (longName [98, 91])]],
        some {1, 2}) := by
  decide +kernel

theorem comparisons_right_first : letI : Externals := lowerExternals
    ∃ store, sampleTags.run {} = .ok store ∧
      KvSource.Gives store.tx "tag" .eq (.hierarchyRef none (longName [97, 122])) (some {1})
        (KvSource.Equals store.tx "tag" (.hierarchyRef none (longName [97, 122]))) := by
  let _ : Externals := lowerExternals
  obtain ⟨store, ran, read⟩ := Except.map_eq_ok.mp sampleTags_run
  simp only [Prod.mk.injEq, List.cons.injEq] at read
  obtain ⟨⟨first, -, -⟩, -⟩ := read
  have reached : Reachable (fun _ => True) store := .commit sampleTags .new trivial ran
  refine ⟨store, ran, ?_⟩
  refine (((comparisons_right reached "tag").1 _ (some {1})).1).mpr fun _ id within _ => ?_
  obtain rfl := Finset.mem_singleton.mp (within {1} rfl)
  exact ⟨_, by rw [first]; exact List.mem_singleton_self _, .inl rfl⟩

/-- The key of a `hierarchy_ref` with a cut name is not read back: an equality finds another tag. -/
theorem hierarchy_key_not_read_back : letI : Externals := lowerExternals
    ∃ store, sampleTags.run {} = .ok store ∧
      ¬KvSource.Gives store.tx "tag" .eq (.hierarchyRef none (longName [97, 122])) none
        (KvSource.Equals store.tx "tag" (.hierarchyRef none (longName [97, 122]))) := by
  let _ : Externals := lowerExternals
  obtain ⟨store, ran, read⟩ := Except.map_eq_ok.mp sampleTags_run
  simp only [Prod.mk.injEq, List.cons.injEq] at read
  obtain ⟨⟨-, second, -⟩, compared⟩ := read
  refine ⟨store, ran, ?_⟩
  rintro ⟨found, gives, right⟩
  rw [gives, Except.toOption, Option.some.injEq] at compared
  subst compared
  obtain ⟨value, member, wanted⟩ := (right 2 (by simp)).mp (by decide)
  rw [second, List.mem_singleton] at member
  subst member
  rcases wanted.2 with same | ⟨_, _, of_first, -⟩
  · exact absurd same (by decide +kernel)
  · cases of_first

end Metafolder
