import Metafolder.SyncModel
import Mathlib.Data.List.Forall2

/-!
# The three-way merge

Translation being one to one, the two sides of a link stand alike, and what a sync has recorded tells
which of them changes later.  Values are compared as the program does: two zeros are equal, though
their texts differ and order a list otherwise.
-/

namespace Metafolder

namespace Value

/-- Whether the value is a float. -/
def isFloat : Value → Bool
  | float _ => true
  | _ => false

/-- Whether the value names a metarecord of its repository. -/
def isLink : Value → Bool
  | ref _ => true
  | treeRef (some _) _ => true
  | hierarchyRef (some _) _ => true
  | _ => false

theorem eq_symm {first second : Value} (same : first.eq second = true) :
    second.eq first = true := by
  cases first with
  | float f =>
      cases second with
      | float g =>
          simp only [eq, F64.eq, Bool.and_eq_true, Bool.or_eq_true, decide_eq_true_eq] at same ⊢
          obtain ⟨⟨numberFirst, numberSecond⟩, rfl | ⟨zeroFirst, zeroSecond⟩⟩ := same
          · exact ⟨⟨numberSecond, numberFirst⟩, Or.inl rfl⟩
          · exact ⟨⟨numberSecond, numberFirst⟩, Or.inr ⟨zeroSecond, zeroFirst⟩⟩
      | _ => simp [eq] at same
  | _ => cases second <;> simp_all [eq]

theorem eq_trans {first second third : Value} (one : first.eq second = true)
    (two : second.eq third = true) : first.eq third = true := by
  cases first with
  | float f =>
      cases second with
      | float g =>
          cases third with
          | float h =>
              simp only [eq, F64.eq, Bool.and_eq_true, Bool.or_eq_true, decide_eq_true_eq]
                at one two ⊢
              refine ⟨⟨one.1.1, two.1.2⟩, ?_⟩
              rcases one.2 with rfl | ⟨zero, zeroSecond⟩
              · exact two.2
              · rcases two.2 with rfl | ⟨-, zeroThird⟩
                · exact Or.inr ⟨zero, zeroSecond⟩
                · exact Or.inr ⟨zero, zeroThird⟩
          | _ => simp [eq] at two
      | _ => simp [eq] at one
  | _ => cases second <;> simp_all [eq]

theorem isNaN_of_eq {first second : Value} (same : first.eq second = true) :
    first.isNaN = false ∧ second.isNaN = false := by
  cases first <;> cases second <;> simp_all [eq, isNaN, F64.eq]

theorem eq_self {value : Value} (number : value.isNaN = false) : value.eq value = true := by
  cases value with
  | float f => simp_all [eq, F64.eq, isNaN]
  | _ => simp [eq]

theorem isNaN_of_isFloat {value : Value} (other : value.isFloat = false) : value.isNaN = false := by
  cases value <;> simp_all [isNaN, isFloat]

theorem isFloat_of_isLink {value : Value} (link : value.isLink = true) :
    value.isFloat = false := by
  cases value <;> simp_all [isLink, isFloat]

theorem exists_float {value : Value} (float : value.isFloat = true) :
    ∃ number, value = .float number := by
  cases value with
  | float number => exact ⟨number, rfl⟩
  | _ => simp [isFloat] at float

/-- Equal values other than floats are one. -/
theorem eq_of_eq {first second : Value} (other : first.isFloat = false)
    (same : first.eq second = true) : first = second := by
  cases first <;> cases second <;> simp_all [eq, isFloat]

theorem isFloat_of_eq {first second : Value} (same : first.eq second = true) :
    first.isFloat = second.isFloat := by
  cases first <;> cases second <;> simp_all [eq, isFloat]

end Value

namespace Sync

/-! ### Lists of equal values -/

theorem sameValues_iff {first second : List Value} :
    sameValues first second = true ↔
      List.Forall₂ (fun one other => one.eq other = true) first second := by
  induction first generalizing second with
  | nil => cases second <;> simp [sameValues]
  | cons value first ih =>
      cases second with
      | nil => simp [sameValues]
      | cons other second => simp [sameValues, ih]

theorem sameValues_symm {first second : List Value} (same : sameValues first second = true) :
    sameValues second first = true := by
  rw [sameValues_iff] at same ⊢
  exact same.flip.imp fun _ _ => Value.eq_symm

theorem sameValues_trans {first second third : List Value} (one : sameValues first second = true)
    (two : sameValues second third = true) : sameValues first third = true := by
  induction first generalizing second third with
  | nil =>
      cases second with
      | nil => exact two
      | cons _ _ => simp [sameValues] at one
  | cons value first ih =>
      cases second with
      | nil => simp [sameValues] at one
      | cons other second =>
          cases third with
          | nil => simp [sameValues] at two
          | cons last third =>
              simp only [sameValues, Bool.and_eq_true] at one two ⊢
              exact ⟨Value.eq_trans one.1 two.1, ih one.2 two.2⟩

theorem exists_eq_of_sameValues {first second : List Value} {value : Value}
    (same : sameValues first second = true) (member : value ∈ first) :
    ∃ other ∈ second, value.eq other = true := by
  rw [sameValues_iff] at same
  induction same with
  | nil => cases member
  | cons equal rest ih =>
      cases member with
      | head => exact ⟨_, List.mem_cons_self, equal⟩
      | tail _ member =>
          obtain ⟨other, within, held⟩ := ih member
          exact ⟨other, List.mem_cons_of_mem _ within, held⟩

theorem sameValues_self {values : List Value} (numbers : ∀ value ∈ values, value.isNaN = false) :
    sameValues values values = true := by
  induction values with
  | nil => rfl
  | cons value values ih =>
      rw [sameValues, Value.eq_self (numbers value (by simp)),
        ih fun other member => numbers other (List.mem_cons_of_mem _ member)]
      rfl

/-! ### Translation -/

/-- The translation is a partial map, one to one, used in both directions. -/
structure Translate.OneToOne (tr : Translate) : Prop where
  /-- Every lookup is answered. -/
  answers : ∀ side uuid how, ∃ found, tr.counterpart side uuid how = .ok found
  /-- The counterpart of a counterpart is the record itself. -/
  inverse : ∀ {side uuid how found}, tr.counterpart side uuid how = .ok (some found) →
    tr.counterpart side.other found how = .ok (some uuid)

section

variable {tr : Translate} {side : Side} {field : String}

/-- A value as the other side would hold it, itself where it has no counterpart. -/
def moved (tr : Translate) (side : Side) (field : String) (value : Value) : Value :=
  match translate tr side field value with
  | .ok (some found) => found
  | _ => value

/-- Every value has a counterpart. -/
def Carried (tr : Translate) (side : Side) (field : String) (values : List Value) : Prop :=
  ∀ value ∈ values, translate tr side field value = .ok (some (moved tr side field value))

theorem moved_of_translate {value found : Value}
    (ran : translate tr side field value = .ok (some found)) :
    moved tr side field value = found := by
  rw [moved, ran]

theorem translate_of_not_link {value : Value} (other : value.isLink = false) :
    translate tr side field value = .ok (some value) := by
  cases value with
  | ref uuid => simp [Value.isLink] at other
  | treeRef parent name =>
      cases parent with
      | none => rfl
      | some parent => simp [Value.isLink] at other
  | hierarchyRef parent name =>
      cases parent with
      | none => rfl
      | some parent => simp [Value.isLink] at other
  | _ => rfl

variable (oneToOne : tr.OneToOne)

include oneToOne

theorem translate_answers (side : Side) (field : String) (value : Value) :
    ∃ found, translate tr side field value = .ok found := by
  cases value with
  | ref uuid =>
      obtain ⟨found, answer⟩ := oneToOne.answers side uuid .ref
      exact ⟨_, by rw [translate, answer]; rfl⟩
  | treeRef parent name =>
      cases parent with
      | none => exact ⟨_, rfl⟩
      | some parent =>
          obtain ⟨found, answer⟩ := oneToOne.answers side parent (.parent field false)
          exact ⟨_, by rw [translate, answer]; rfl⟩
  | hierarchyRef parent name =>
      cases parent with
      | none => exact ⟨_, rfl⟩
      | some parent =>
          obtain ⟨found, answer⟩ := oneToOne.answers side parent (.parent field true)
          exact ⟨_, by rw [translate, answer]; rfl⟩
  | _ => exact ⟨_, rfl⟩

theorem found_of_translate {uuid : Uuid} {how : Lookup} {build : Uuid → Value} {found : Value}
    (ran : (do pure ((← tr.counterpart side uuid how).map build)) =
      (.ok (some found) : Except String (Option Value))) :
    ∃ other, found = build other ∧ tr.counterpart side.other other how = .ok (some uuid) := by
  obtain ⟨answer, reply⟩ := oneToOne.answers side uuid how
  rw [reply] at ran
  cases answer with
  | none => cases ran
  | some other =>
      cases ran
      exact ⟨other, rfl, oneToOne.inverse reply⟩

/-- A translated value is translated back, and is of the same kind. -/
theorem translate_back {value found : Value}
    (ran : translate tr side field value = .ok (some found)) :
    translate tr side.other field found = .ok (some value) ∧
      found.isLink = value.isLink ∧ found.isFloat = value.isFloat := by
  cases held : value.isLink with
  | false =>
      rw [translate_of_not_link held] at ran
      cases ran
      exact ⟨translate_of_not_link held, held, rfl⟩
  | true =>
      cases value with
      | ref uuid =>
          obtain ⟨other, rfl, back⟩ := found_of_translate oneToOne ran
          exact ⟨by rw [translate, back]; rfl, rfl, rfl⟩
      | treeRef parent name =>
          cases parent with
          | none => simp [Value.isLink] at held
          | some parent =>
              obtain ⟨other, rfl, back⟩ := found_of_translate oneToOne ran
              exact ⟨by rw [translate, back]; rfl, rfl, rfl⟩
      | hierarchyRef parent name =>
          cases parent with
          | none => simp [Value.isLink] at held
          | some parent =>
              obtain ⟨other, rfl, back⟩ := found_of_translate oneToOne ran
              exact ⟨by rw [translate, back]; rfl, rfl, rfl⟩
      | _ => simp [Value.isLink] at held

theorem translate_cases (side : Side) (field : String) (value : Value) :
    translate tr side field value = .ok (some (moved tr side field value)) ∨
      translate tr side field value = .ok none := by
  obtain ⟨found, ran⟩ := translate_answers oneToOne side field value
  cases found with
  | none => exact Or.inr ran
  | some found =>
      rw [moved_of_translate ran]
      exact Or.inl ran

omit oneToOne in
theorem moved_of_not_link {value : Value} (other : value.isLink = false) :
    moved tr side field value = value :=
  moved_of_translate (translate_of_not_link other)

omit oneToOne in
theorem moved_float (number : F64) : moved tr side field (.float number) = .float number := rfl

theorem moved_isFloat (value : Value) : (moved tr side field value).isFloat = value.isFloat := by
  rcases translate_cases oneToOne side field value with found | missing
  · exact (translate_back oneToOne found).2.2
  · rw [moved, missing]

theorem isNaN_moved {value : Value} (number : value.isNaN = false) :
    (moved tr side field value).isNaN = false := by
  cases held : value.isFloat with
  | false => exact Value.isNaN_of_isFloat (by rw [moved_isFloat oneToOne, held])
  | true =>
      obtain ⟨float, rfl⟩ := Value.exists_float held
      exact number

omit oneToOne in
theorem translateAll_of_carried {values : List Value} (carried : Carried tr side field values) :
    translateAll tr side field values = .ok (some (values.map (moved tr side field))) := by
  induction values with
  | nil => rfl
  | cons value values ih =>
      have rest := ih fun other member => carried other (List.mem_cons_of_mem _ member)
      rw [translateAll, carried value (by simp), List.map_cons]
      simp only [bind, Except.bind, rest]
      rfl

omit oneToOne in
/-- Equal values have counterparts alike: only those that name a metarecord may have none. -/
theorem Carried.of_same {first second : List Value} (carried : Carried tr side field second)
    (same : sameValues first second = true) : Carried tr side field first := by
  intro value member
  cases held : value.isLink with
  | false => rw [moved_of_not_link held, translate_of_not_link held]
  | true =>
      obtain ⟨other, within, equal⟩ := exists_eq_of_sameValues same member
      rw [Value.eq_of_eq (Value.isFloat_of_isLink held) equal]
      exact carried other within

theorem translateAll_of_not_carried {values : List Value}
    (stuck : ¬ Carried tr side field values) : translateAll tr side field values = .ok none := by
  induction values with
  | nil => exact absurd (fun _ member => nomatch member) stuck
  | cons value values ih =>
      rw [translateAll]
      rcases translate_cases oneToOne side field value with found | missing
      · have rest := ih fun carried => stuck fun other member => by
          cases member with
          | head => exact found
          | tail _ member => exact carried other member
        rw [found]
        simp only [bind, Except.bind, rest]
        rfl
      · rw [missing]
        rfl

end

/-! ### The order of values -/

theorem hexText_injective : Function.Injective hexText := by
  intro first second same
  induction first generalizing second with
  | nil =>
      cases second with
      | nil => rfl
      | cons byte second => simp [hexText] at same
  | cons byte first ih =>
      cases second with
      | nil => simp [hexText] at same
      | cons other second =>
          simp only [hexText, List.flatMap_cons, List.cons_append, List.nil_append,
            List.cons.injEq] at same
          obtain ⟨high, low, rest⟩ := same
          have bytes := Json.digitValue_hexDigit byte
          rw [high, low, Json.digitValue_hexDigit] at bytes
          rw [bytes, ih rest]

theorem uuidJson_append_inj {first second : Uuid} {restFirst restSecond : Bytes}
    (same : uuidJson first ++ restFirst = uuidJson second ++ restSecond) :
    first = second ∧ restFirst = restSecond := by
  obtain ⟨texts, rests⟩ := Json.quoted_append_inj same
  exact ⟨Uuid.ext (hexText_injective texts), rests⟩

theorem parentJson_append_inj {first second : Option Uuid} {restFirst restSecond : Bytes}
    (same : parentJson first ++ restFirst = parentJson second ++ restSecond) :
    first = second ∧ restFirst = restSecond := by
  cases first with
  | none =>
      cases second with
      | none => exact ⟨rfl, List.append_cancel_left same⟩
      | some uuid =>
          have heads : some (0x6E : UInt8) = some 0x22 := congrArg List.head? same
          simp at heads
  | some uuid =>
      cases second with
      | none =>
          have heads : some (0x22 : UInt8) = some 0x6E := congrArg List.head? same
          simp at heads
      | some other =>
          obtain ⟨rfl, rests⟩ := uuidJson_append_inj same
          exact ⟨rfl, rests⟩

theorem nameJson_injective : Function.Injective nameJson := by
  intro first second same
  have bytes : first.bytes = second.bytes := by
    unfold nameJson at same
    split at same <;> split at same
    · exact Json.quoted_injective same
    · have heads : some (0x22 : UInt8) = some 0x7B := congrArg List.head? same
      simp at heads
    · have heads : some (0x7B : UInt8) = some 0x22 := congrArg List.head? same
      simp at heads
    · obtain ⟨-, rests⟩ := Json.quoted_append_inj (List.append_cancel_left same)
      obtain ⟨texts, -⟩ := Json.quoted_append_inj (List.append_cancel_left rests)
      exact hexText_injective texts
  cases first
  cases second
  exact congrArg TreeName.mk bytes

theorem positionJson_inj {parent other : Option Uuid} {name node : TreeName}
    (same : positionJson parent name = positionJson other node) : parent = other ∧ name = node := by
  obtain ⟨parents, rests⟩ := parentJson_append_inj (List.append_cancel_left same)
  exact ⟨parents, nameJson_injective (List.append_cancel_right (List.append_cancel_left rests))⟩

theorem quote_not_mem_typeStr (value : Value) : 0x22 ∉ value.typeStr.asBytes := by
  cases value <;> simp only [Value.typeStr] <;> decide

/-- What comes before the first quote, and after it, are determined. -/
theorem append_quote_inj {first second restFirst restSecond : Bytes} (one : 0x22 ∉ first)
    (two : 0x22 ∉ second) (same : first ++ 0x22 :: restFirst = second ++ 0x22 :: restSecond) :
    first = second ∧ restFirst = restSecond := by
  induction first generalizing second with
  | nil =>
      cases second with
      | nil => exact ⟨rfl, List.tail_eq_of_cons_eq same⟩
      | cons byte second =>
          rw [List.nil_append, List.cons_append, List.cons.injEq] at same
          exact absurd (by simp [same.1]) two
  | cons byte first ih =>
      cases second with
      | nil =>
          rw [List.nil_append, List.cons_append, List.cons.injEq] at same
          exact absurd (by simp [same.1]) one
      | cons other second =>
          rw [List.cons_append, List.cons_append, List.cons.injEq] at same
          obtain ⟨rfl, rests⟩ := same
          obtain ⟨rfl, tails⟩ := ih (fun member => one (List.mem_cons_of_mem _ member))
            (fun member => two (List.mem_cons_of_mem _ member)) rests
          exact ⟨rfl, tails⟩

variable [FloatText]

/-- The text of a value starts with its type. -/
theorem typeStr_of_key {first second : Value} (same : key first = key second) :
    first.typeStr = second.typeStr :=
  String.asBytes_injective (append_quote_inj (quote_not_mem_typeStr first)
    (quote_not_mem_typeStr second) (List.append_cancel_left same)).1

/-- A value that names a metarecord is determined by its text. -/
theorem key_inj_of_isLink {first second : Value} (link : first.isLink = true)
    (same : key first = key second) : first = second := by
  have types := typeStr_of_key same
  have contents := List.append_cancel_right (append_quote_inj (quote_not_mem_typeStr first)
    (quote_not_mem_typeStr second) (List.append_cancel_left same)).2
  cases first with
  | ref uuid =>
      cases second <;> simp only [Value.typeStr, String.reduceEq] at types
      obtain ⟨rfl, -⟩ := uuidJson_append_inj
        (congrArg (· ++ []) (List.append_cancel_left contents))
      rfl
  | treeRef parent name =>
      cases second <;> simp only [Value.typeStr, String.reduceEq] at types
      obtain ⟨rfl, rfl⟩ := positionJson_inj (List.append_cancel_left contents)
      rfl
  | hierarchyRef parent name =>
      cases second <;> simp only [Value.typeStr, String.reduceEq] at types
      obtain ⟨rfl, rfl⟩ := positionJson_inj (List.append_cancel_left contents)
      rfl
  | _ => simp [Value.isLink] at link

omit [FloatText] in
theorem compare_append_left (front first second : Bytes) :
    compare (front ++ first) (front ++ second) = compare first second := by
  induction front with
  | nil => rfl
  | cons byte front ih =>
      have same : compare byte byte = .eq := Std.ReflCmp.compare_self
      rw [List.cons_append, List.cons_append, List.compare_cons_cons, ih, same]
      rfl

/-- A float compares with any other value by their types. -/
theorem compare_key_float {value : Value} (other : value.isFloat = false) (first second : F64) :
    compare (key value) (key (.float first)) = compare (key value) (key (.float second)) := by
  obtain ⟨head, tail, tag, differ⟩ :
      ∃ head tail, value.typeStr.asBytes = head :: tail ∧ head ≠ 0x66 := by
    cases value with
    | float f => simp [Value.isFloat] at other
    | _ => exact ⟨_, _, rfl, by decide⟩
  have float_tag (f : F64) : (Value.float f).typeStr.asBytes = 0x66 :: [0x6C, 0x6F, 0x61, 0x74] :=
    rfl
  have apart : compare head 0x66 ≠ .eq := by
    rw [ne_eq, Std.compare_eq_iff_eq]
    exact differ
  simp only [key, compare_append_left, tag, float_tag, List.cons_append, List.compare_cons_cons]
  cases held : compare head 0x66 with
  | eq => exact absurd held apart
  | lt => rfl
  | gt => rfl

/-- Values in canonical order, as a record's are read. -/
abbrev Canonic (values : List Value) : Prop := Canonical.Ordered key values

@[simp]
theorem canon_nil : canon [] = [] := by
  simp [canon, Canonical.canon, Canonical.dedup]

theorem canon_canonic (values : List Value) : Canonic (canon values) :=
  Canonical.canon_ordered values

theorem valuesOf_canonic (record : MetaRecord) (name : String) :
    Canonic (valuesOf record name) :=
  canon_canonic _

theorem canon_of_canonic {values : List Value} (canonic : Canonic values) :
    canon values = values :=
  Canonical.canon_of_ordered canonic

omit [FloatText] in
theorem exists_pairs {first second : List Value} (same : sameValues first second = true) :
    ∃ pairs : List (Value × Value), first = pairs.map Prod.fst ∧ second = pairs.map Prod.snd ∧
      ∀ pair ∈ pairs, pair.1.eq pair.2 = true := by
  induction first generalizing second with
  | nil =>
      cases second with
      | nil => exact ⟨[], rfl, rfl, by simp⟩
      | cons _ _ => simp [sameValues] at same
  | cons value first ih =>
      cases second with
      | nil => simp [sameValues] at same
      | cons other second =>
          rw [sameValues, Bool.and_eq_true] at same
          obtain ⟨pairs, rfl, rfl, equal⟩ := ih same.2
          refine ⟨(value, other) :: pairs, rfl, rfl, ?_⟩
          intro pair member
          cases member with
          | head => exact same.1
          | tail _ member => exact equal pair member

section

variable {f : Value → Value} (floats : ∀ number, f (.float number) = .float number)
  (others : ∀ value, (f value).isFloat = value.isFloat)

include floats others

omit [FloatText] in
/-- Equal values are mapped to equal ones: the same value, or floats left as they are. -/
theorem mapped_eq {first second : Value} (same : first.eq second = true) :
    (f first).eq (f second) = true := by
  cases held : first.isFloat with
  | false =>
      have image : (f first).isFloat = false := by rw [others, held]
      rw [← Value.eq_of_eq held same]
      exact Value.eq_self (Value.isNaN_of_isFloat image)
  | true =>
      have other := Value.isFloat_of_eq same
      rw [held] at other
      obtain ⟨number, rfl⟩ := Value.exists_float held
      obtain ⟨zero, rfl⟩ := Value.exists_float other.symm
      rwa [floats, floats]

/-- The texts of two pairs of equal values compare alike once mapped: floats are compared as before,
and a float with another value by their types. -/
theorem mapped_alike {first second third fourth : Value} (one : first.eq second = true)
    (two : third.eq fourth = true) (below : compare (key first) (key third) = .lt)
    (also : compare (key second) (key fourth) = .lt) :
    compare (key (f first)) (key (f third)) = compare (key (f second)) (key (f fourth)) := by
  have firsts := Value.isFloat_of_eq one
  have thirds := Value.isFloat_of_eq two
  cases held : first.isFloat with
  | false =>
      have image : (f first).isFloat = false := by rw [others, held]
      rw [← Value.eq_of_eq held one]
      cases kept : third.isFloat with
      | false => rw [← Value.eq_of_eq kept two]
      | true =>
          rw [kept] at thirds
          obtain ⟨number, rfl⟩ := Value.exists_float kept
          obtain ⟨zero, rfl⟩ := Value.exists_float thirds.symm
          rw [floats, floats]
          exact compare_key_float image number zero
  | true =>
      rw [held] at firsts
      obtain ⟨number, rfl⟩ := Value.exists_float held
      obtain ⟨zero, rfl⟩ := Value.exists_float firsts.symm
      cases kept : third.isFloat with
      | false =>
          have image : (f third).isFloat = false := by rw [others, kept]
          rw [← Value.eq_of_eq kept two, floats, floats,
            Canonical.compare_swap, compare_key_float image number zero,
            ← Canonical.compare_swap]
      | true =>
          rw [kept] at thirds
          obtain ⟨last, rfl⟩ := Value.exists_float kept
          obtain ⟨end_, rfl⟩ := Value.exists_float thirds.symm
          rw [floats, floats, floats, floats, below, also]

/-- Equal values that are mapped alike, floats to themselves, are put in the same order. -/
theorem canon_same {first second : List Value} (one : Canonic first) (two : Canonic second)
    (same : sameValues first second = true) :
    sameValues (canon (first.map f)) (canon (second.map f)) = true := by
  obtain ⟨pairs, rfl, rfl, equal⟩ := exists_pairs same
  have apart := (List.pairwise_map.mp one).and (List.pairwise_map.mp two)
  have alike : ∀ p ∈ pairs, ∀ q ∈ pairs,
      compare (key (f p.1)) (key (f q.1)) = compare (key (f p.2)) (key (f q.2)) := by
    have symmetric : Std.Symm fun p q : Value × Value =>
        compare (key (f p.1)) (key (f q.1)) = compare (key (f p.2)) (key (f q.2)) := by
      refine ⟨fun p q same => ?_⟩
      rw [Canonical.compare_swap, same,
        ← Canonical.compare_swap]
    refine List.Pairwise.forall_of_forall ?_ ?_
    · intro p _
      exact Eq.trans Std.ReflCmp.compare_self (Eq.symm Std.ReflCmp.compare_self)
    · refine apart.imp_of_mem ?_
      intro p q within also below
      exact mapped_alike floats others (equal p within) (equal q also) below.1 below.2
  have order : (Canonical.canon (fun p : Value × Value => key (f p.1)) pairs).map (fun p => f p.2)
      = canon ((pairs.map Prod.snd).map f) := by
    rw [List.map_map]
    exact Canonical.canon_map alike
  have front : (Canonical.canon (fun p : Value × Value => key (f p.1)) pairs).map (fun p => f p.1)
      = canon ((pairs.map Prod.fst).map f) := by
    rw [List.map_map]
    exact Canonical.canon_map fun _ _ _ _ => rfl
  rw [← order, ← front, sameValues_iff, List.forall₂_map_left_iff, List.forall₂_map_right_iff,
    List.forall₂_same]
  intro p member
  exact mapped_eq floats others (equal p (Canonical.canon_subset _ member))

end

/-! ### Agreement -/

/-- The values of one side are, translated, those of the other. -/
def Agree (tr : Translate) (name : String) (side : Side) (here there : List Value) : Prop :=
  Carried tr side name here ∧
    sameValues (canon (here.map (moved tr side name))) (canon there) = true

section

variable {tr : Translate} {name : String} {side : Side} {here there : List Value}

/-- Translated, values still have distinct texts. -/
theorem moved_distinct (oneToOne : tr.OneToOne) (canonic : Canonic here)
    (carried : Carried tr side name here) :
    (here.map (moved tr side name)).Pairwise
      fun first second => compare (key first) (key second) ≠ .eq := by
  refine List.pairwise_map.mpr (canonic.imp_of_mem ?_)
  intro first second within also below same
  have texts := Std.compare_eq_iff_eq.mp same
  have one := translate_back oneToOne (carried first within)
  have two := translate_back oneToOne (carried second also)
  have links : first.isLink = false ∧ second.isLink = false ∨
      moved tr side name first = moved tr side name second := by
    cases held : first.isLink with
    | true => exact Or.inr (key_inj_of_isLink (by rw [one.2.1, held]) texts)
    | false =>
        cases kept : second.isLink with
        | true => exact Or.inr (key_inj_of_isLink (by rw [two.2.1, kept]) texts.symm).symm
        | false => exact Or.inl ⟨rfl, rfl⟩
  have equal : key first = key second := by
    rcases links with ⟨held, kept⟩ | image
    · rwa [moved_of_not_link held, moved_of_not_link kept] at texts
    · rw [image, two.1] at one
      cases one.1
      rfl
  rw [equal] at below
  exact absurd below (by simp [Std.ReflCmp.compare_self])

/-- What agrees with the other side is agreed with by it. -/
theorem Agree.flip (oneToOne : tr.OneToOne) (one : Canonic here) (two : Canonic there)
    (agreed : Agree tr name side here there) : Agree tr name side.other there here := by
  obtain ⟨carried, same⟩ := agreed
  rw [canon_of_canonic two] at same
  have perm : (canon (here.map (moved tr side name))).Perm (here.map (moved tr side name)) :=
    Canonical.canon_perm (moved_distinct oneToOne one carried)
  have back : (here.map (moved tr side name)).map (moved tr side.other name) = here := by
    rw [List.map_map]
    refine (List.map_congr_left fun value member => ?_).trans (List.map_id here)
    exact moved_of_translate (translate_back oneToOne (carried value member)).1
  refine ⟨fun value member => ?_, ?_⟩
  · cases held : value.isLink with
    | false => rw [moved_of_not_link held, translate_of_not_link held]
    | true =>
        obtain ⟨other, within, equal⟩ := exists_eq_of_sameValues (sameValues_symm same) member
        rw [← Value.eq_of_eq (Value.isFloat_of_isLink held) equal] at within
        obtain ⟨source, origin, rfl⟩ := List.mem_map.mp (Canonical.canon_subset _ within)
        rw [moved_of_translate (translate_back oneToOne (carried source origin)).1]
        exact (translate_back oneToOne (carried source origin)).1
  · have restored : canon ((canon (here.map (moved tr side name))).map
        (moved tr side.other name)) = here := by
      apply Canonical.canon_of_perm one
      have images := perm.map (moved tr side.other name)
      rwa [back] at images
    have mapped := canon_same (@moved_float tr side.other name)
      (moved_isFloat oneToOne) two (canon_canonic _) (sameValues_symm same)
    rwa [restored, ← canon_of_canonic one] at mapped

/-- Values that agree with others are none of them a NaN. -/
theorem Agree.isNaN (oneToOne : tr.OneToOne) (canonic : Canonic here)
    (agreed : Agree tr name side here there) : ∀ value ∈ here, value.isNaN = false := by
  intro value member
  cases held : value.isFloat with
  | false => exact Value.isNaN_of_isFloat held
  | true =>
      obtain ⟨number, rfl⟩ := Value.exists_float held
      have image : Value.float number ∈ here.map (moved tr side name) :=
        List.mem_map.mpr ⟨_, member, moved_float number⟩
      have perm : (canon (here.map (moved tr side name))).Perm (here.map (moved tr side name)) :=
        Canonical.canon_perm (moved_distinct oneToOne canonic agreed.1)
      obtain ⟨other, -, equal⟩ := exists_eq_of_sameValues agreed.2 (perm.mem_iff.mpr image)
      exact (Value.isNaN_of_eq equal).1

/-- `agree` finds the pairs of values that agree. -/
theorem agree_of_agree {a b : List Value} (agreed : Agree tr name .a a b) :
    agree tr name a b = .ok (some (a.zip (a.map (moved tr .a name)))) := by
  rw [agree, translateAll_of_carried agreed.1]
  simp only [bind, Except.bind, agreed.2, if_true]
  rfl

theorem agree_of_not_agree (oneToOne : tr.OneToOne) {a b : List Value}
    (differ : ¬ Agree tr name .a a b) : agree tr name a b = .ok none := by
  rw [agree]
  by_cases carried : Carried tr .a name a
  · rw [translateAll_of_carried carried]
    have apart : ¬ sameValues (canon (a.map (moved tr .a name))) (canon b) = true :=
      fun same => differ ⟨carried, same⟩
    simp only [bind, Except.bind, if_neg apart]
    rfl
  · rw [translateAll_of_not_carried oneToOne carried]
    rfl

end

/-! ### Decisions -/

/-- What a link needs for a field its sides disagree on. -/
def changed (a b : List Value) (snap : Snapshot) (name : String) : Decision :=
  match sameValues (canon a) (snap.perspective name .a),
    sameValues (canon b) (snap.perspective name .b) with
  | true, true => .untouched
  | false, true => .propagate .a
  | true, false => .propagate .b
  | false, false => .conflict

section

variable {tr : Translate} {name : String} {a b : List Value} {snap : Snapshot}

theorem decideField_of_agree (agreed : Agree tr name .a a b) :
    decideField tr name a b snap = .ok .inSync := by
  rw [decideField, agree_of_agree agreed]
  rfl

theorem decideField_of_not_agree (oneToOne : tr.OneToOne) (differ : ¬ Agree tr name .a a b) :
    decideField tr name a b snap = .ok (changed a b snap name) := by
  rw [decideField, agree_of_not_agree oneToOne differ, changed]
  simp only [bind, Except.bind]
  cases sameValues (canon a) (snap.perspective name .a) <;>
    cases sameValues (canon b) (snap.perspective name .b) <;> rfl

end

/-! ### The two sides exchanged -/

/-- A translation, its sides exchanged. -/
def Translate.swap (tr : Translate) : Translate := ⟨fun side => tr.counterpart side.other⟩

/-- A snapshot, its sides exchanged. -/
def Snapshot.swap (snap : Snapshot) : Snapshot where
  common := snap.common.map fun _ pairs => pairs.map Prod.swap
  sides side := snap.sides side.other

/-- A decision, its sides exchanged. -/
def Decision.swap : Decision → Decision
  | inSync => inSync
  | untouched => untouched
  | propagate side => propagate side.other
  | conflict => conflict

section

variable {tr : Translate} {name : String} {side : Side} {snap : Snapshot}

omit [FloatText] in
theorem translate_swap (value : Value) :
    translate tr.swap side name value = translate tr side.other name value := by
  cases value with
  | treeRef parent node => cases parent <;> rfl
  | hierarchyRef parent node => cases parent <;> rfl
  | _ => rfl

theorem agree_swap_iff {here there : List Value} :
    Agree tr.swap name side here there ↔ Agree tr name side.other here there := by
  have images : moved tr.swap side name = moved tr side.other name := by
    funext value
    rw [moved, moved, translate_swap]
  simp only [Agree, Carried, images, translate_swap]

theorem perspective_swap : snap.swap.perspective name side = snap.perspective name side.other := by
  rw [Snapshot.perspective, Snapshot.perspective, Snapshot.swap, Std.ExtTreeMap.getElem?_map]
  cases snap.common[name]? with
  | none => rfl
  | some pairs =>
      simp only [Option.map_some, Option.getD_some, List.map_map]
      cases side <;> rfl

omit [FloatText] in
theorem Translate.OneToOne.swap (oneToOne : tr.OneToOne) : tr.swap.OneToOne :=
  ⟨fun side => oneToOne.answers side.other, fun found => oneToOne.inverse found⟩

/-- The sides exchanged, a field is decided alike. -/
theorem decideField_swap (oneToOne : tr.OneToOne) {a b : List Value} (one : Canonic a)
    (two : Canonic b) :
    decideField tr.swap name b a snap.swap = (decideField tr name a b snap).map Decision.swap := by
  have agreement : Agree tr.swap name .a b a ↔ Agree tr name .a a b :=
    agree_swap_iff.trans ⟨fun agreed => agreed.flip oneToOne two one,
      fun agreed => agreed.flip oneToOne one two⟩
  by_cases agreed : Agree tr name .a a b
  · rw [decideField_of_agree agreed, decideField_of_agree (agreement.mpr agreed)]
    rfl
  · rw [decideField_of_not_agree oneToOne agreed,
      decideField_of_not_agree oneToOne.swap fun held => agreed (agreement.mp held)]
    rw [changed, changed, perspective_swap, perspective_swap, Side.other, Side.other]
    cases sameValues (canon a) (snap.perspective name .a) <;>
      cases sameValues (canon b) (snap.perspective name .b) <;> rfl

end

/-! ### The next snapshot -/

section

variable {tr : Translate} {a b : MetaRecord} {old next : Snapshot} {name : String}

theorem valuesOf_eq_nil {record : MetaRecord} (synced : isSyncedField name = true)
    (missing : name ∉ syncedNames record) : valuesOf record name = [] := by
  have rows : record.fields.filter (fun row => row.name = name) = [] := by
    rw [List.filter_eq_nil_iff]
    intro row member
    simp only [decide_eq_true_eq]
    rintro rfl
    exact missing (List.mem_filter.mpr ⟨List.mem_map_of_mem member, synced⟩)
  rw [valuesOf, MetaRecord.getAll, rows]
  exact canon_nil

/-- What the next snapshot holds for a field: the pairs the sides agree on, or what it held. -/
def entry (tr : Translate) (a b : MetaRecord) (old : Snapshot) (name : String) :
    Option (List (Value × Value)) :=
  match agree tr name (valuesOf a name) (valuesOf b name) with
  | .ok (some []) => none
  | .ok (some pairs) => some pairs
  | _ => old.common[name]?

theorem nextCommon_spec {common after : Std.ExtTreeMap String (List (Value × Value))}
    {other : String} (ran : nextCommon tr a b old common other = .ok after) :
    after[name]? = if other = name then (entry tr a b old name).or common[name]?
      else common[name]? := by
  rw [nextCommon, Except.bind_eq_ok] at ran
  obtain ⟨found, agreed, stored⟩ := ran
  have absent (kept : other ≠ name) (pairs : List (Value × Value)) :
      (common.insert other pairs)[name]? = common[name]? := by
    rw [Std.ExtTreeMap.getElem?_insert, if_neg (by simpa using kept)]
  by_cases same : other = name
  · subst same
    rw [if_pos rfl, entry, agreed]
    cases found with
    | none =>
        cases held : old.common[other]? with
        | none => simp_all
        | some pairs =>
            simp only [held, Except.pure_eq_ok] at stored
            simp [← stored]
    | some pairs =>
        cases pairs with
        | nil => simp_all
        | cons pair pairs =>
            cases stored
            simp
  · rw [if_neg same]
    cases found with
    | none =>
        cases held : old.common[other]? with
        | none => simp_all
        | some pairs =>
            simp only [held, Except.pure_eq_ok] at stored
            rw [← stored, absent same]
    | some pairs =>
        cases pairs with
        | nil => simp_all
        | cons pair pairs =>
            cases stored
            rw [absent same]

theorem nextCommons_spec {names : List String}
    {common after : Std.ExtTreeMap String (List (Value × Value))}
    (ran : names.foldlM (nextCommon tr a b old) common = .ok after) :
    after[name]? = if name ∈ names then (entry tr a b old name).or common[name]?
      else common[name]? := by
  induction names generalizing common with
  | nil =>
      cases ran
      simp
  | cons other names ih =>
      rw [Except.foldlM_cons_eq_ok] at ran
      obtain ⟨middle, first, rest⟩ := ran
      rw [ih rest, nextCommon_spec first]
      by_cases same : other = name
      · subst same
        by_cases member : other ∈ names
        · simp only [member, List.mem_cons_self, if_true]
          cases entry tr a b old other <;> simp
        · simp [member]
      · have apart : name ≠ other := fun equal => same equal.symm
        simp [same, apart]

theorem nextSnapshot_common (synced : isSyncedField name = true)
    (ran : nextSnapshot tr a b old = .ok next) :
    next.common[name]? = entry tr a b old name := by
  rw [nextSnapshot, Except.bind_eq_ok] at ran
  obtain ⟨common, stored, finished⟩ := ran
  cases finished
  rw [nextCommons_spec stored]
  split
  next member => simp
  next absent =>
    simp only [List.mem_dedup, List.mem_append, not_or, Std.ExtTreeMap.mem_keys] at absent
    obtain ⟨⟨missingA, missingB⟩, missing⟩ := absent
    rw [entry, valuesOf_eq_nil synced missingA, valuesOf_eq_nil synced missingB]
    simp [agree, translateAll, sameValues, bind, Except.bind, pure, Except.pure]

/-- A field the sides agree on is recorded as each of them holds it. -/
theorem nextSnapshot_perspective (synced : isSyncedField name = true)
    (ran : nextSnapshot tr a b old = .ok next)
    (agreed : Agree tr name .a (valuesOf a name) (valuesOf b name)) :
    next.perspective name .a = valuesOf a name ∧
      next.perspective name .b = canon ((valuesOf a name).map (moved tr .a name)) := by
  have pairs : next.common[name]?.getD [] =
      (valuesOf a name).zip ((valuesOf a name).map (moved tr .a name)) := by
    rw [nextSnapshot_common synced ran, entry, agree_of_agree agreed]
    cases valuesOf a name <;> rfl
  have length : (valuesOf a name).length = ((valuesOf a name).map (moved tr .a name)).length := by
    rw [List.length_map]
  rw [Snapshot.perspective, Snapshot.perspective, pairs]
  constructor
  · have firsts := List.map_fst_zip length.le
    have front : perspectiveOf Side.a = Prod.fst := rfl
    rw [front, firsts, canon_of_canonic (valuesOf_canonic a name)]
  · have seconds := List.map_snd_zip length.ge
    have back : perspectiveOf Side.b = Prod.snd := rfl
    rw [back, seconds]

/-- A field the sides still disagree on is recorded as before. -/
theorem nextSnapshot_kept (oneToOne : tr.OneToOne) (synced : isSyncedField name = true)
    (ran : nextSnapshot tr a b old = .ok next)
    (differ : ¬ Agree tr name .a (valuesOf a name) (valuesOf b name)) (side : Side) :
    next.perspective name side = old.perspective name side := by
  rw [Snapshot.perspective, Snapshot.perspective, nextSnapshot_common synced ran, entry,
    agree_of_not_agree oneToOne differ]

/-- Once the sides agree, a later change of the first alone is that side's. -/
theorem changed_a (oneToOne : tr.OneToOne) (synced : isSyncedField name = true)
    (ran : nextSnapshot tr a b old = .ok next)
    (agreed : Agree tr name .a (valuesOf a name) (valuesOf b name)) {later : List Value}
    (canonic : Canonic later) (differ : ¬ Agree tr name .a later (valuesOf b name)) :
    changed later (valuesOf b name) next name = .propagate .a := by
  obtain ⟨front, back⟩ := nextSnapshot_perspective synced ran agreed
  have unchanged := sameValues_symm agreed.2
  rw [changed, front, back, canon_of_canonic canonic, unchanged]
  cases same : sameValues later (valuesOf a name) with
  | false => rfl
  | true =>
      refine absurd ⟨agreed.1.of_same same, ?_⟩ differ
      have images := canon_same (@moved_float tr .a name) (moved_isFloat oneToOne) canonic
        (valuesOf_canonic a name) same
      exact sameValues_trans images agreed.2

/-- And one of the second alone is that side's. -/
theorem changed_b (oneToOne : tr.OneToOne) (synced : isSyncedField name = true)
    (ran : nextSnapshot tr a b old = .ok next)
    (agreed : Agree tr name .a (valuesOf a name) (valuesOf b name)) {later : List Value}
    (differ : ¬ Agree tr name .a (valuesOf a name) later) :
    changed (valuesOf a name) later next name = .propagate .b := by
  obtain ⟨front, back⟩ := nextSnapshot_perspective synced ran agreed
  have unchanged := sameValues_self (agreed.isNaN oneToOne (valuesOf_canonic a name))
  rw [changed, front, back, canon_of_canonic (valuesOf_canonic a name), unchanged]
  cases same : sameValues (canon later) (canon ((valuesOf a name).map (moved tr .a name))) with
  | false => rfl
  | true => exact absurd ⟨agreed.1, sameValues_symm same⟩ differ

end

end Sync

end Metafolder
