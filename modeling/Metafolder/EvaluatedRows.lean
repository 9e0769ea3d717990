import Metafolder.Evaluator
import Metafolder.OrderedComparisons

/-!
# What the evaluator answers

Every answer of the evaluator is what the query means on the rows, within the candidates there are:
whichever way a leaf is read, in whatever order the operands of an `and` are taken, and however soon
it stops.
-/

namespace Metafolder

variable [Externals]

namespace KvSource

open Table (Bound)

variable {tx : KvTxn} {field : String} {id : UInt32}

/-! ### Text scans -/

/-- A text keyed whole is read back from its key. -/
theorem read_textKey {text : String} (whole : isCut text.asBytes = false) :
    (ByteCode.unterminated (textKey text.asBytes)).bind (fun read =>
      String.fromUTF8? ⟨read.1.toArray⟩) = some text := by
  have fits : (ByteCode.terminated text.asBytes).length ≤ textMax + 2 := by
    by_contra long
    rw [isCut, longPrefix_textKey, if_neg long] at whole
    cases whole
  have read := ByteCode.unterminated_terminated text.asBytes []
  rw [List.append_nil] at read
  rw [textKey, if_pos fits, read, Option.bind_some]
  exact fromUTF8?_asBytes text

section

variable {part : UInt8} {region : Bytes} {upper : Bound} {keyOf : Value → Option Bytes}
  {ofValue : Value → Option String} {keep : String → Bool}

/-- A walk of the distinct keys of a partition, and of the rows of those cut and hashed, finds the
texts kept. -/
theorem mem_walked (whole : tx.Exact)
    (held_iff : ∀ {key id}, Held tx field part key id ↔
      ∃ value ∈ values tx id field, keyOf value = some key)
    (inside : ∀ {value key}, keyOf value = some key → ∀ other,
      InRange (.included region) upper key other ↔ region <+: key)
    (text_iff : ∀ {value rest}, keyOf value = some (region ++ rest) ↔
      ∃ text, ofValue value = some text ∧ textKey text.asBytes = rest) :
    id ∈ walkTexts tx field part region upper keep (fun value => (ofValue value).any keep) ↔
      ∃ value ∈ values tx id field, ∃ text, ofValue value = some text ∧ keep text = true := by
  rw [walkTexts, Finset.mem_union, mem_having]
  constructor
  · rintro (found | ⟨-, value, member, kept⟩)
    · obtain ⟨key, tested, held, other, in_range⟩ := held_of_mem_partIds whole found
      obtain ⟨value, member, keyed⟩ := held_iff.mp held
      obtain ⟨rest, rfl⟩ := (inside keyed other).mp in_range
      obtain ⟨text, of_value, rfl⟩ := text_iff.mp keyed
      dsimp only at tested
      rw [List.drop_left, Bool.and_eq_true, Bool.not_eq_true'] at tested
      rw [read_textKey tested.1, Option.any_some] at tested
      exact ⟨value, member, text, of_value, tested.2⟩
    · obtain ⟨text, of_value, kept⟩ := (Option.any_eq_true ..).mp kept
      exact ⟨value, member, text, of_value, kept⟩
  · rintro ⟨value, member, text, of_value, kept⟩
    have keyed := text_iff.mpr ⟨text, of_value, rfl⟩
    have held := held_iff.mpr ⟨value, member, keyed⟩
    have in_range := (inside keyed id).mpr (List.prefix_append ..)
    cases cut : isCut text.asBytes with
    | true =>
        refine .inr ⟨mem_partIds_of_held whole held ?_ in_range, value, member, ?_⟩
        · rwa [List.drop_left]
        · rw [of_value, Option.any_some, kept]
    | false =>
        refine .inl (mem_partIds_of_held whole held ?_ in_range)
        dsimp only
        rw [List.drop_left, read_textKey cut, Option.any_some, kept, Bool.and_true, ← isCut, cut]
        rfl

end

/-- The texts of a metarecord that are kept hold the literals looked up for them. -/
def Narrowed (tx : KvTxn) (field : String) (keep : String → Bool) (literals : List String)
    (id : UInt32) : Prop :=
  ∀ value ∈ values tx id field, ∀ text, shownText value = some text → keep text = true →
    ∀ literal ∈ literals, literal.toList <:+: (Externals.toLowercase text).toList

/-- A row of a metarecord shows a text that is kept. -/
def Shows (tx : KvTxn) (field : String) (keep : String → Bool) (id : UInt32) : Prop :=
  ∃ value ∈ values tx id field, ∃ text, shownText value = some text ∧ keep text = true

theorem candidate_of_shows (whole : tx.Exact) {keep : String → Bool} {literals : List String}
    {restrict : Option (Finset UInt32)} {candidates : Finset UInt32}
    (read : textCandidates tx field literals restrict = some candidates)
    (narrowed : Narrowed tx field keep literals id) (within : ∀ ids ∈ restrict, id ∈ ids)
    (shows_kept : Shows tx field keep id) : id ∈ candidates := by
  obtain ⟨value, member, text, shown, kept⟩ := shows_kept
  have inside := narrowed value member text shown kept
  obtain ⟨uuid, row, named, holds, row_named, rfl⟩ := (mem_values whole).mp member
  exact mem_textCandidates whole.derives named holds row_named shown inside within read

omit [Externals] in
/-- The range of the keys of texts. -/
theorem inRange_text {tag : UInt8} {rest : Bytes} {other : UInt32} :
    InRange (.included [2]) (.excluded [3]) (tag :: rest) other ↔ [2] <+: tag :: rest := by
  refine (ByteCode.between_bytes (by decide : (2 : UInt8) < 255) (rest ++ be32 other)).trans ?_
  simp [eq_comm]

theorem valueKey_text {value : Value} {rest : Bytes} : valueKey value = some ([2] ++ rest) ↔
    ∃ text, textOf value = some text ∧ textKey text.asBytes = rest := by
  cases value <;> simp [valueKey, textOf]

theorem namePartKey_text {value : Value} {rest : Bytes} : namePartKey value = some ([] ++ rest) ↔
    ∃ text, nameOf value = some text ∧ textKey text.asBytes = rest := by
  rw [namePartKey_eq, Option.map_eq_some_iff]
  exact Iff.rfl

/-- A scan finds the texts kept, from candidates or from the keys. -/
theorem mem_scan (whole : tx.Exact) {part : UInt8} {ofValue : Value → Option String}
    (shown : ∀ {value text}, ofValue value = some text → shownText value = some text)
    {keep : String → Bool} {literals : List String} {restrict : Option (Finset UInt32)}
    (narrowed : Narrowed tx field keep literals id) (within : ∀ ids ∈ restrict, id ∈ ids)
    (walked : part = valuePart ∧ ofValue = textOf ∨ part = namePart ∧ ofValue = nameOf) :
    id ∈ scan tx field part ofValue keep literals restrict ↔
      ∃ value ∈ values tx id field, ∃ text, ofValue value = some text ∧ keep text = true := by
  have on_rows : ∀ {candidates : Finset UInt32}, (Shows tx field keep id → id ∈ candidates) →
      (id ∈ having tx candidates field (fun value => (ofValue value).any keep) ↔
        ∃ value ∈ values tx id field, ∃ text, ofValue value = some text ∧ keep text = true) := by
    intro candidates listed
    rw [mem_having]
    simp only [Option.any_eq_true]
    refine and_iff_right_of_imp ?_
    rintro ⟨value, member, text, of_value, kept⟩
    exact listed ⟨value, member, text, shown of_value, kept⟩
  unfold scan
  dsimp only
  split
  next candidates read => exact on_rows (candidate_of_shows whole read narrowed within)
  next =>
    split
    next candidates probed =>
      exact on_rows fun _ => within candidates (Option.mem_filter_iff.mp probed).1
    next =>
      obtain ⟨rfl, rfl⟩ | ⟨rfl, rfl⟩ := walked
      · refine mem_walked whole (held_value whole) ?_ valueKey_text
        intro value key keyed other
        obtain ⟨tag, rest, rfl, -, -⟩ := valueKey_tag keyed
        exact inRange_text
      · refine mem_walked whole (held_name whole) ?_ namePartKey_text
        intro value key _ other
        refine iff_of_true ⟨?_, rfl⟩ List.nil_prefix
        exact ByteCode.isLE_compare_append [] _

/-- A text shown is a string of a field of strings, or a name of a forest. -/
theorem kind_of_shown (whole : tx.Exact) (single : tx.primary.Single field) {value : Value}
    {text : String} (member : value ∈ values tx id field) (shown : shownText value = some text) :
    kind tx field = some .categorical ∧ textOf value = some text ∨
      kind tx field = some (.reference true) ∧ nameOf value = some text := by
  have some_value : value ≠ .nothing := by
    rintro rfl
    cases shown
  rw [kind, valueType_of_mem whole single member some_value]
  cases value <;> cases shown
  · exact .inl ⟨rfl, rfl⟩
  · exact .inr ⟨rfl, rfl⟩
  · exact .inr ⟨rfl, rfl⟩

/-- A text scan finds the metarecords that show a text kept. -/
theorem mem_scanText (whole : tx.Exact) (single : tx.primary.Single field) {keep : String → Bool}
    {literals : List String} {restrict : Option (Finset UInt32)}
    (narrowed : Narrowed tx field keep literals id) (within : ∀ ids ∈ restrict, id ∈ ids) :
    id ∈ scanText tx field keep literals restrict ↔ Shows tx field keep id := by
  have of_text : ∀ {value text}, textOf value = some text → shownText value = some text := by
    intro value text of_value
    cases value <;> cases of_value
    rfl
  have of_name : ∀ {value text}, nameOf value = some text → shownText value = some text := by
    intro value text of_value
    cases value <;> cases of_value <;> rfl
  unfold scanText
  split
  next categorical =>
    rw [mem_scan whole of_text narrowed within (.inl ⟨rfl, rfl⟩)]
    constructor
    · rintro ⟨value, member, text, of_value, kept⟩
      exact ⟨value, member, text, of_text of_value, kept⟩
    · rintro ⟨value, member, text, shown, kept⟩
      rcases kind_of_shown whole single member shown with ⟨-, of_value⟩ | ⟨tree, -⟩
      · exact ⟨value, member, text, of_value, kept⟩
      · rw [categorical] at tree
        cases tree
  next tree =>
    rw [scanNames, if_pos tree, mem_scan whole of_name narrowed within (.inr ⟨rfl, rfl⟩)]
    constructor
    · rintro ⟨value, member, text, of_value, kept⟩
      exact ⟨value, member, text, of_name of_value, kept⟩
    · rintro ⟨value, member, text, shown, kept⟩
      rcases kind_of_shown whole single member shown with ⟨categorical, -⟩ | ⟨-, of_value⟩
      · rw [tree] at categorical
        cases categorical
      · exact ⟨value, member, text, of_value, kept⟩
  next no_text no_name =>
    refine iff_of_false (Finset.notMem_empty id) ?_
    rintro ⟨value, member, text, shown, -⟩
    rcases kind_of_shown whole single member shown with ⟨categorical, -⟩ | ⟨tree, -⟩
    · exact no_text categorical
    · exact no_name tree

/-! ### Sets -/

/-- A metarecord has a value of a field. -/
def Present (tx : KvTxn) (field : String) (id : UInt32) : Prop :=
  ∃ value ∈ values tx id field, value.isNothing = false

/-- A metarecord's row of a field points at a target, a root's at the nil uuid. -/
def Points (tx : KvTxn) (field : String) (target : Uuid) (id : UInt32) : Prop :=
  ∃ value ∈ values tx id field, targetOf value = some target

theorem mem_universeIds (whole : tx.Exact) :
    id ∈ universeIds tx ↔ ∃ uuid, tx.derived.id uuid = some id :=
  mem_universe whole

theorem mem_presentIds (whole : tx.Exact) : id ∈ present tx field ↔ Present tx field id :=
  mem_present whole

/-- A set that a metarecord joins by a row of a field. -/
theorem mem_rowSet (whole : tx.Exact) {key : SetKey} (plain : key.Plain) {joins : Value → Prop}
    (in_set : ∀ uuid, Derived.InSet tx.primary key uuid ↔
      ∃ row, tx.primary.Holds uuid row ∧ row.name = field ∧ joins row.value) :
    id ∈ Derived.readSet tx.derived.sets key.bytes ↔ ∃ value ∈ values tx id field, joins value := by
  rw [whole.derives.mem_set plain]
  simp only [in_set]
  constructor
  · rintro ⟨uuid, named, row, holds, row_named, joined⟩
    exact ⟨row.value, (mem_values whole).mpr ⟨uuid, row, named, holds, row_named, rfl⟩, joined⟩
  · rintro ⟨value, member, joined⟩
    obtain ⟨uuid, row, named, holds, row_named, rfl⟩ := (mem_values whole).mp member
    exact ⟨uuid, named, row, holds, row_named, joined⟩

theorem mem_absent (whole : tx.Exact) : id ∈ absent tx field ↔ .nothing ∈ values tx id field := by
  have plain : (SetKey.ofField .absent field).Plain := trivial
  refine (@mem_rowSet _ tx field id whole _ plain (· = .nothing) fun uuid => ?_).trans ?_
  · simp only [Derived.InSet, Derived.Puts, Value.isNothing_iff]
  · simp

theorem mem_referrersOf (whole : tx.Exact) {target : Uuid} :
    id ∈ referrersOf tx field target ↔ Points tx field target id := by
  have plain : (SetKey.referrers field target).Plain := trivial
  exact mem_rowSet whole plain fun uuid => Iff.rfl

theorem mem_treeParentsExcept (whole : tx.Exact) {except : Option Uuid} :
    id ∈ treeParentsExcept tx field except ↔
      ∃ target, except ≠ some target ∧ Points tx field target id := by
  have held_target : ∀ {key}, Held tx field targetPart key id ↔
      ∃ value ∈ values tx id field,
        ∃ target, targetOf value = some target ∧ target.bytes = key := by
    intro key
    rw [held_iff whole]
    constructor
    · rintro ⟨uuid, row, named, holds, listed⟩
      rcases Derived.mem_partKeys.mp listed with ⟨_, -, same⟩ | ⟨_, -, same⟩ |
        ⟨target, of_row, same⟩
      · exact absurd (partKey_inj.mp same).2.1 (by decide)
      · exact absurd (partKey_inj.mp same).2.1 (by decide)
      · obtain ⟨rfl, -, rfl, -⟩ := partKey_inj.mp same
        exact ⟨row.value, (mem_values whole).mpr ⟨uuid, row, named, holds, rfl, rfl⟩, target,
          of_row, rfl⟩
    · rintro ⟨value, member, target, of_value, rfl⟩
      obtain ⟨uuid, row, named, holds, rfl, rfl⟩ := (mem_values whole).mp member
      exact ⟨uuid, row, named, holds,
        Derived.mem_partKeys.mpr (.inr (.inr ⟨target, of_value, rfl⟩))⟩
  have except_iff : ∀ {target : Uuid}, some target.bytes ≠ except.map Uuid.bytes ↔
      except ≠ some target := by
    intro target
    cases except with
    | none => simp
    | some uuid =>
        rw [Option.map_some, ne_eq, ne_eq, Option.some.injEq, Option.some.injEq]
        exact not_congr ⟨fun same => (Uuid.ext same).symm, fun same => by rw [same]⟩
  rw [treeParentsExcept, mem_allBut whole]
  constructor
  · rintro ⟨key, differ, held⟩
    obtain ⟨value, member, target, of_value, rfl⟩ := held_target.mp held
    exact ⟨target, except_iff.mp differ, value, member, of_value⟩
  · rintro ⟨target, differ, value, member, of_value⟩
    exact ⟨_, except_iff.mpr differ, held_target.mpr ⟨value, member, target, of_value, rfl⟩⟩

/-- A field with a row that points somewhere can be followed. -/
theorem follow_of_points (whole : tx.Exact) (single : tx.primary.Single field) {target : Uuid}
    (points : Points tx field target id) :
    follow tx field = some .direct ∨ follow tx field = some .tree := by
  obtain ⟨value, member, of_value⟩ := points
  have some_value : value ≠ .nothing := by
    rintro rfl
    cases of_value
  rw [follow, valueType_of_mem whole single member some_value]
  cases value <;> cases of_value
  · exact .inl rfl
  · exact .inr rfl
  · exact .inr rfl

theorem no_points (whole : tx.Exact) (single : tx.primary.Single field)
    (unknown : follow tx field = none) (target : Uuid) : ¬Points tx field target id := by
  intro points
  rcases follow_of_points whole single points with known | known
  · rw [unknown] at known
    cases known
  · rw [unknown] at known
    cases known

/-! ### Comparisons -/

/-- A row is in a relation with an operand. -/
def Related (tx : KvTxn) (field : String) (op : CmpOp) (operand held : Value) : Prop :=
  match op with
  | .eq => Equals tx field operand held
  | .neq => Differs tx field operand held
  | op => InOrder tx field op operand held

/-- A metarecord has a row in a relation with an operand. -/
def Satisfies (tx : KvTxn) (field : String) (op : CmpOp) (operand : Value) (id : UInt32) : Prop :=
  ∃ held ∈ values tx id field, Related tx field op operand held

theorem mem_compare (whole : tx.Exact) (single : tx.primary.Single field) {op : CmpOp}
    {operand : Value} (clear : ¬Ambiguous operand) {restrict : Option (Finset UInt32)}
    {found : Finset UInt32} (ran : compare tx field op operand restrict = .ok found)
    (within : ∀ ids ∈ restrict, id ∈ ids) :
    id ∈ found ↔ Satisfies tx field op operand id := by
  have given : ∀ {wanted : Value → Prop}, Gives tx field op operand restrict wanted →
      (id ∈ found ↔ ∃ held ∈ values tx id field, wanted held) := by
    rintro wanted ⟨other, gives, right⟩
    obtain rfl := Except.ok.inj (ran.symm.trans gives)
    exact right id within
  cases op with
  | eq =>
      exact given ((gives_equals whole operand restrict).mpr fun unclear => absurd unclear clear)
  | neq =>
      exact given ((gives_differs whole operand restrict).mpr fun unclear => absurd unclear clear)
  | lt => exact gives_ordered whole single ⟨by decide, by decide⟩ ran within
  | lte => exact gives_ordered whole single ⟨by decide, by decide⟩ ran within
  | gt => exact gives_ordered whole single ⟨by decide, by decide⟩ ran within
  | gte => exact gives_ordered whole single ⟨by decide, by decide⟩ ran within

end KvSource

/-! ### Answers within candidates -/

/-- Whatever an evaluation answers within some candidates is what is wanted among them. -/
def Right (evaluate : Evaluation) (wanted : UInt32 → Prop) : Prop :=
  ∀ ⦃restrict found⦄, evaluate restrict = .ok found →
    ∀ id, id ∈ found ↔ (∀ ids ∈ restrict, id ∈ ids) ∧ wanted id

section

omit [Externals]

variable {wanted : UInt32 → Prop} {restrict : Option (Finset UInt32)} {found : Finset UInt32}

/-- What is right among the candidates is right once cut down to them. -/
theorem right_within {evaluate : Evaluation}
    (right : ∀ {restrict found}, evaluate restrict = .ok found →
      ∀ id, (∀ ids ∈ restrict, id ∈ ids) → (id ∈ found ↔ wanted id)) :
    Right (fun restrict => (evaluate restrict).within restrict) wanted := by
  intro restrict found answered id
  obtain ⟨whole, ran, rfl⟩ := Except.map_eq_ok.mp answered
  cases restrict with
  | none => exact (right ran id (by simp)).trans (and_iff_right (by simp)).symm
  | some ids =>
      rw [Finset.mem_inter, and_comm]
      simp only [Option.mem_some_iff, forall_eq']
      refine and_congr_right fun member => right ran id ?_
      rintro _ ⟨⟩
      exact member

/-- What is asked of every candidate alike is right once cut down to them. -/
theorem right_answer {answer : Answered}
    (right : ∀ {found}, answer = .ok found → ∀ id, id ∈ found ↔ wanted id) :
    Right (fun restrict => answer.within restrict) wanted :=
  right_within fun ran id _ => right ran id

variable {α : Type} {evaluate : α → Evaluation} {means : α → UInt32 → Prop}

/-- An `and` in the planner's order, each operand within what those before it left, leaves what all
of them want. -/
theorem intersectAll_spec {planned : List α}
    (right : ∀ operand ∈ planned, Right (evaluate operand) (means operand))
    {held left : Option (Finset UInt32)}
    (ran : intersectAll (planned.map evaluate) held = .ok left) :
    (planned ≠ [] ∨ held.isSome → left.isSome) ∧ ∀ id, (∀ ids ∈ left, id ∈ ids) ↔
      (∀ ids ∈ held, id ∈ ids) ∧ ∀ operand ∈ planned, means operand id := by
  induction planned generalizing held with
  | nil =>
      obtain rfl := Except.ok.inj ran
      refine ⟨fun kept => kept.resolve_left (absurd rfl), fun id => (and_iff_left ?_).symm⟩
      exact fun operand member => absurd member List.not_mem_nil
  | cons operand rest ih =>
      rw [List.map_cons, intersectAll] at ran
      split at ran
      next none_left =>
        obtain rfl := Except.ok.inj ran
        subst none_left
        refine ⟨fun _ => rfl, fun id => ?_⟩
        simp
      next =>
        obtain ⟨found, answered, ran⟩ := Except.bind_eq_ok.mp ran
        have here := right operand List.mem_cons_self answered
        obtain ⟨kept, others⟩ := ih (fun other member =>
          right other (List.mem_cons_of_mem _ member)) ran
        refine ⟨fun _ => kept (.inr rfl), fun id => ?_⟩
        rw [others, List.forall_mem_cons, ← and_assoc]
        refine and_congr_left fun _ => ?_
        cases held with
        | none => simpa using here id
        | some ids =>
            simp only [Option.mem_some_iff, forall_eq', Finset.mem_inter] at here ⊢
            rw [here]
            tauto

/-- The planner's order keeps the operands. -/
theorem andOrder_spec (isScan : α → Bool) (evaluate : α → Evaluation) (operands : List α) :
    ∃ planned : List α, andOrder (operands.map fun operand => (isScan operand, evaluate operand)) =
        planned.map evaluate ∧ ∀ operand, operand ∈ planned ↔ operand ∈ operands := by
  refine ⟨(operands.filter fun operand => !isScan operand) ++ operands.filter isScan, ?_, ?_⟩
  · simp only [andOrder, List.filter_map, List.map_append, List.map_map]
    rfl
  · intro operand
    rw [List.mem_append, List.mem_filter, List.mem_filter]
    cases isScan operand <;> simp

/-- An `or` finds what one of its operands wants. -/
theorem uniteAll_spec {operands : List α}
    (right : ∀ operand ∈ operands, Right (evaluate operand) (means operand))
    (ran : uniteAll restrict (operands.map evaluate) = .ok found) (id : UInt32) :
    id ∈ found ↔ (∀ ids ∈ restrict, id ∈ ids) ∧ ∃ operand ∈ operands, means operand id := by
  induction operands generalizing found with
  | nil =>
      obtain rfl := Except.ok.inj ran
      simp
  | cons operand rest ih =>
      rw [List.map_cons, uniteAll] at ran
      obtain ⟨first, answered, ran⟩ := Except.bind_eq_ok.mp ran
      obtain ⟨others, read, joined⟩ := Except.bind_eq_ok.mp ran
      obtain rfl := Except.ok.inj joined
      have here := right operand List.mem_cons_self answered id
      have later := ih (fun other member => right other (List.mem_cons_of_mem _ member)) read
      rw [Finset.mem_union, here, later, ← and_or_left]
      simp

end

/-! ### What a query means -/

namespace Eval

open KvSource

variable [Unicode.Letters] [Patterns] (self : Eval)

/-- A metarecord is the node a path was resolved to. -/
def AtNode (field path : String) (id : UInt32) : Prop :=
  ∃ roots ∈ self.roots, ∃ uuid, roots.node field path = some (some uuid) ∧
    self.tx.derived.id uuid = some id

/-- A comparison holds of a metarecord: of its rows, of its parents under the parent aspect, and of
the node itself for a path on a field of positions. -/
def Compares (field : String) (op : CmpOp) (operand : Value) (aspect : Aspect) (id : UInt32) :
    Prop :=
  match aspect, operand with
  | .parent, .string path => ∃ roots ∈ self.roots, ∃ node, roots.node field path = some node ∧
      if op = .eq then ∃ target ∈ node, Points self.tx field target id
      else ∃ target, node ≠ some target ∧ Points self.tx field target id
  | .raw, .string path =>
      if (valueType self.tx field).any isPositionType then
        Present self.tx field id ∧ (op = .eq ↔ self.AtNode field path id)
      else Satisfies self.tx field op operand id
  | _, _ => Satisfies self.tx field op operand id

/-- A metarecord shows a text that matches a pattern. -/
def Finds (field pattern : String) (id : UInt32) : Prop :=
  ∃ keep, Patterns.compile pattern = .ok keep ∧ Shows self.tx field keep id

/-- The texts that match a pattern hold the literals it is looked up by. -/
def Plain (field pattern : String) : Prop :=
  ∀ keep, Patterns.compile pattern = .ok keep → ∀ id,
    Narrowed self.tx field keep (requiredLiterals (self.regexes.parse pattern)) id

mutual

/-- The metarecords a query means. -/
def Means : Query → UInt32 → Prop
  | .isPresent field .parent => fun id =>
      ∃ target, target ≠ Uuid.zero ∧ Points self.tx field target id
  | .isPresent field _ => Present self.tx field
  | .isAbsent field .parent => Points self.tx field Uuid.zero
  | .isAbsent field _ => fun id => .nothing ∈ values self.tx id field
  | .isUnknown field => fun id => (∃ uuid, self.tx.derived.id uuid = some id) ∧
      values self.tx id field = []
  | .compare comparison field value aspect => self.Compares field comparison.op value aspect
  | .isIn field values aspect => fun id => ∃ value ∈ values, self.Compares field .eq value aspect id
  | .and operands => fun id => ∀ means ∈ meansEach operands, means id
  | .or operands => fun id => ∃ means ∈ meansEach operands, means id
  | .not operand => fun id => (∃ uuid, self.tx.derived.id uuid = some id) ∧ ¬Means operand id
  | .follows field (.path path) => fun id => ∃ roots ∈ self.roots,
      ∃ target ∈ roots.path field path, Points self.tx field target id
  | .follows field (.condition query) => fun id => ∃ target source, Means query source ∧
      self.tx.derived.id target = some source ∧ Points self.tx field target id
  | .sameAs field target => fun id => ∃ value ∈ values self.tx id field, ∃ source,
      Means target source ∧ ∃ own ∈ values self.tx source field, own ≠ .nothing ∧ Same value own
  | .osm field _ .path => Present self.tx field
  | .uuidIn uuids => fun id => ∃ uuid ∈ uuids, self.tx.derived.id uuid = some id
  | .matching field pattern _ => self.Finds field pattern
  | .osm field terms .direct => self.Finds field (self.regexes.osmRegex terms)
  | .followsTransitive _ _ _ => fun _ => False

/-- The metarecords each of some queries means. -/
def meansEach : List Query → List (UInt32 → Prop)
  | [] => []
  | operand :: rest => Means operand :: meansEach rest

end

mutual

/-- A query goes down no tree, compares with no value whose key is taken for another's, and looks
for patterns by literals their texts hold. -/
def Clear : Query → Prop
  | .and operands => ∀ clear ∈ clearEach operands, clear
  | .or operands => ∀ clear ∈ clearEach operands, clear
  | .not operand => Clear operand
  | .compare _ _ value _ => ¬Ambiguous value
  | .isIn _ values _ => ∀ value ∈ values, ¬Ambiguous value
  | .follows _ (.condition query) => Clear query
  | .sameAs field target => Clear target ∧ ∀ source, self.Means target source →
      ∀ own ∈ values self.tx source field, ¬Ambiguous own
  | .matching field pattern _ => self.Plain field pattern
  | .osm field terms .direct => self.Plain field (self.regexes.osmRegex terms)
  | .osm _ terms .path => terms = []
  | .followsTransitive _ _ _ => False
  | _ => True

/-- Whether each of some queries is. -/
def clearEach : List Query → List Prop
  | [] => []
  | operand :: rest => Clear operand :: clearEach rest

end

omit [Externals] [Unicode.Letters] in
theorem meansEach_eq (operands : List Query) :
    self.meansEach operands = operands.map self.Means := by
  induction operands with
  | nil => rfl
  | cons operand rest ih => simp [meansEach, ih]

theorem clearEach_eq (operands : List Query) :
    self.clearEach operands = operands.map self.Clear := by
  induction operands with
  | nil => rfl
  | cons operand rest ih => simp [clearEach, ih]

/-! ### Leaves -/

section

variable {self : Eval} {field : String} {id : UInt32}

omit [Unicode.Letters] in
theorem mem_presence (whole : self.tx.Exact) (single : self.tx.primary.Single field)
    {aspect : Aspect} {isPresent : Bool} {found : Finset UInt32}
    (ran : self.presence field aspect isPresent = .ok found) : id ∈ found ↔
      if isPresent then self.Means (.isPresent field aspect) id
      else self.Means (.isAbsent field aspect) id := by
  have of_rows : id ∈ (if isPresent then present self.tx field else absent self.tx field) ↔
      if isPresent then Present self.tx field id else .nothing ∈ values self.tx id field := by
    cases isPresent with
    | true => exact mem_presentIds whole
    | false => exact mem_absent whole
  cases aspect with
  | parent =>
      change self.parentPresence field isPresent = .ok found at ran
      unfold parentPresence at ran
      split at ran
      next unknown =>
        obtain rfl := Except.ok.inj ran
        have no_row := fun target => @no_points _ _ _ id whole single unknown target
        cases isPresent with
        | true =>
            refine iff_of_false (Finset.notMem_empty id) ?_
            rintro ⟨target, -, points⟩
            exact no_row target points
        | false => exact iff_of_false (Finset.notMem_empty id) (no_row _)
      next =>
        obtain rfl := Except.ok.inj ran
        cases isPresent with
        | true =>
            refine (mem_treeParentsExcept whole).trans (exists_congr fun target => ?_)
            refine and_congr_left fun _ => not_congr ?_
            rw [Option.some.injEq, eq_comm]
        | false => exact mem_referrersOf whole
      next => cases ran
  | path =>
      change (if _ then _ else _) = _ at ran
      split at ran
      next => cases ran
      next =>
        obtain rfl := Except.ok.inj ran
        exact of_rows
  | _ =>
      obtain rfl := Except.ok.inj ran
      exact of_rows

omit [Externals] [Unicode.Letters] [Patterns] in
theorem node_of_roots {path : String} {node : Option Uuid}
    (found : (self.roots.bind fun roots => roots.node field path) = some node) :
    ∃ roots ∈ self.roots, roots.node field path = some node :=
  Option.bind_eq_some_iff.mp found

omit [Unicode.Letters] [Patterns] in
/-- A comparison under the parent aspect finds those with a row under the node, or another. -/
theorem mem_parentCompare (whole : self.tx.Exact) (single : self.tx.primary.Single field)
    {op : CmpOp} {value : Value} {found : Finset UInt32}
    (ran : self.parentCompare field op value = .ok found) :
    id ∈ found ↔ self.Compares field op value .parent id := by
  unfold parentCompare at ran
  split at ran
  next => cases ran
  next =>
    split at ran
    next path =>
      split at ran
      next unknown =>
        obtain rfl := Except.ok.inj ran
        refine iff_of_false (Finset.notMem_empty id) ?_
        have no_row := fun target => @no_points _ _ _ id whole single unknown target
        rintro ⟨_, -, node, -, found⟩
        split at found
        next =>
          obtain ⟨target, -, points⟩ := found
          exact no_row target points
        next =>
          obtain ⟨target, -, points⟩ := found
          exact no_row target points
      next =>
        split at ran
        next => cases ran
        next node resolved =>
          obtain rfl := Except.ok.inj ran
          obtain ⟨roots, given, known⟩ := node_of_roots resolved
          have same_node : self.Compares field op (.string path) .parent id ↔
              if op = .eq then ∃ target ∈ node, Points self.tx field target id
              else ∃ target, node ≠ some target ∧ Points self.tx field target id := by
            constructor
            · rintro ⟨other, also, held, found, points⟩
              obtain rfl := Option.some.inj (given.symm.trans also)
              obtain rfl := Option.some.inj (known.symm.trans found)
              exact points
            · intro points
              exact ⟨roots, given, node, known, points⟩
          rw [same_node]
          split
          next =>
            cases node with
            | none => simp
            | some node => simpa using mem_referrersOf whole
          next => exact mem_treeParentsExcept whole
      next => cases ran
    next => cases ran

omit [Unicode.Letters] [Patterns] in
/-- A path on a field of positions finds the node there, or the others. -/
theorem mem_exactNode (whole : self.tx.Exact) {path : String} {op : CmpOp} {found : Finset UInt32}
    (ran : self.exactNode field path op = .ok found) :
    id ∈ found ↔ Present self.tx field id ∧ (op = .eq ↔ self.AtNode field path id) := by
  unfold exactNode at ran
  split at ran
  next => cases ran
  next node resolved =>
    obtain rfl := Except.ok.inj ran
    obtain ⟨roots, given, known⟩ := node_of_roots resolved
    have at_node : id ∈ ((node.bind self.tx.derived.id).map fun id =>
        {id} ∩ present self.tx field).getD ∅ ↔
          Present self.tx field id ∧ self.AtNode field path id := by
      have same_node : self.AtNode field path id ↔ node.bind self.tx.derived.id = some id := by
        rw [Option.bind_eq_some_iff]
        constructor
        · rintro ⟨other, also, uuid, found, named⟩
          obtain rfl := Option.some.inj (given.symm.trans also)
          exact ⟨uuid, Option.some.inj (known.symm.trans found), named⟩
        · rintro ⟨uuid, rfl, named⟩
          exact ⟨roots, given, uuid, known, named⟩
      rw [same_node]
      cases node.bind self.tx.derived.id with
      | none => simp
      | some node =>
          rw [Option.map_some, Option.getD_some, Finset.mem_inter, mem_presentIds whole,
            Finset.mem_singleton, Option.some.injEq, and_comm, @eq_comm _ id]
    by_cases equal : op = .eq
    · rw [if_pos equal, at_node]
      simp [equal]
    · rw [if_neg equal, Finset.mem_sdiff, at_node, mem_presentIds whole]
      simp only [equal, false_iff]
      tauto

omit [Unicode.Letters] [Patterns] in
theorem mem_compare (whole : self.tx.Exact) (single : self.tx.primary.Single field) {op : CmpOp}
    {value : Value} (clear : ¬Ambiguous value) {aspect : Aspect} {restrict : Option (Finset UInt32)}
    {found : Finset UInt32} (ran : self.compare field op value aspect restrict = .ok found)
    (within : ∀ ids ∈ restrict, id ∈ ids) :
    id ∈ found ↔ self.Compares field op value aspect id := by
  unfold compare at ran
  split at ran
  next => cases ran
  next =>
    split at ran
    next parent =>
      subst parent
      exact mem_parentCompare whole single ran
    next no_parent =>
      obtain ⟨-, -, ran⟩ := Except.bind_eq_ok.mp ran
      dsimp only at ran
      split at ran
      next => cases ran
      next no_order =>
        have plain : KvSource.compare self.tx field op value restrict = .ok found →
            (∀ path, value = .string path → aspect = .raw →
              ¬(valueType self.tx field).any isPositionType = true) →
            (id ∈ found ↔ self.Compares field op value aspect id) := by
          intro compared no_path
          rw [KvSource.mem_compare whole single clear compared within]
          cases aspect with
          | parent => exact absurd rfl no_parent
          | path => rfl
          | value => rfl
          | raw =>
              cases value with
              | string path => exact (by rw [Compares, if_neg (no_path path rfl rfl)])
              | _ => rfl
        split at ran
        next path =>
          split at ran
          next exact_path =>
            obtain ⟨-, rfl, position⟩ := exact_path
            rw [mem_exactNode whole ran, Compares, if_pos position]
          next not_exact =>
            refine plain ran fun _ _ raw position => ?_
            subst raw
            refine no_order ⟨rfl, position, fun same => ?_, fun same => ?_⟩
            · exact not_exact ⟨.inl same, rfl, position⟩
            · exact not_exact ⟨.inr same, rfl, position⟩
        next other =>
          exact plain ran fun path same => absurd same (other path)

/-- A text scan finds the metarecords with a text that matches. -/
theorem mem_textScan (whole : self.tx.Exact) (single : self.tx.primary.Single field)
    {pattern : String} (plain : self.Plain field pattern) {restrict : Option (Finset UInt32)}
    {found : Finset UInt32} (ran : self.textScan field pattern restrict = .ok found)
    (within : ∀ ids ∈ restrict, id ∈ ids) : id ∈ found ↔ self.Finds field pattern id := by
  unfold textScan at ran
  split at ran
  next unknown =>
    obtain rfl := Except.ok.inj ran
    refine iff_of_false (Finset.notMem_empty id) ?_
    rintro ⟨_, -, value, member, text, shown, -⟩
    rw [follow, Option.map_eq_none_iff] at unknown
    rcases kind_of_shown whole single member shown with ⟨known, -⟩ | ⟨known, -⟩ <;>
      rw [kind, unknown] at known <;> cases known
  next =>
    obtain ⟨keep, compiled, ran⟩ := Except.bind_eq_ok.mp ran
    obtain rfl := Except.ok.inj ran
    rw [mem_scanText whole single (plain keep compiled id) within]
    constructor
    · intro kept
      exact ⟨keep, compiled, kept⟩
    · rintro ⟨other, also, kept⟩
      obtain rfl := Except.ok.inj (compiled.symm.trans also)
      exact kept

omit [Unicode.Letters] [Patterns] in
theorem mem_follows (whole : self.tx.Exact) (single : self.tx.primary.Single field)
    {referrers found : Finset UInt32}
    (only : id ∈ referrers → ∃ target, Points self.tx field target id)
    (ran : self.follows field referrers = .ok found) : id ∈ found ↔ id ∈ referrers := by
  unfold follows at ran
  split at ran
  next =>
    obtain rfl := Except.ok.inj ran
    rfl
  next =>
    obtain rfl := Except.ok.inj ran
    rfl
  next not_direct not_tree =>
    obtain rfl := Except.ok.inj ran
    refine iff_of_false (Finset.notMem_empty id) fun refers => ?_
    obtain ⟨target, points⟩ := only refers
    rcases follow_of_points whole single points with known | known
    · exact not_direct known
    · exact not_tree known

omit [Unicode.Letters] [Patterns] in
theorem mem_referrersOfAll (whole : self.tx.Exact) {targets : Finset UInt32} :
    id ∈ self.referrersOfAll field targets ↔ ∃ target source, source ∈ targets ∧
      self.tx.derived.id target = some source ∧ Points self.tx field target id := by
  unfold referrersOfAll
  rw [Finset.mem_biUnion]
  constructor
  · rintro ⟨source, listed, refers⟩
    split at refers
    next => exact absurd refers (Finset.notMem_empty id)
    next target found =>
      obtain ⟨other, named, ids⟩ := whole.derives.uuids_iff.mp found
      obtain rfl := be32_injective ids
      exact ⟨target, source, listed, named, (mem_referrersOf whole).mp refers⟩
  · rintro ⟨target, source, listed, named, points⟩
    refine ⟨source, listed, ?_⟩
    have found := whole.derives.uuids_iff.mpr ⟨source, named, rfl⟩
    rw [found]
    exact (mem_referrersOf whole).mpr points

end

/-- Whatever the evaluator answers a clear query is what it means, among the candidates. -/
theorem evalWithin_right (whole : self.tx.Exact) (single : ∀ field, self.tx.primary.Single field)
    {query : Query} (clear : self.Clear query) :
    Right (self.evalWithin query) (self.Means query) := by
  induction query using Query.induct with
  | and operands ih =>
      rw [Clear, clearEach_eq, List.forall_mem_map] at clear
      rw [evalWithin]
      refine right_within fun ran id within => ?_
      rw [intersect, evalEach_eq] at ran
      split at ran
      next => cases ran
      next some_operand =>
        obtain ⟨planned, order, listed⟩ := andOrder_spec Query.isScan self.evalWithin operands
        obtain ⟨left, narrowed, ran⟩ := Except.bind_eq_ok.mp ran
        obtain rfl := Except.ok.inj ran
        rw [order] at narrowed
        obtain ⟨kept, spec⟩ := intersectAll_spec (fun operand member =>
          ih operand ((listed operand).mp member) (clear operand ((listed operand).mp member)))
          narrowed
        have some_planned : planned ≠ [] := by
          rintro rfl
          refine some_operand (List.map_eq_nil_iff.mpr (List.eq_nil_iff_forall_not_mem.mpr ?_))
          exact fun operand member => List.not_mem_nil ((listed operand).mpr member)
        obtain ⟨ids, rfl⟩ := Option.isSome_iff_exists.mp (kept (.inl some_planned))
        have here := spec id
        simp only [Option.mem_some_iff, forall_eq', and_iff_right within, listed] at here
        rw [Option.getD_some, here, Means, meansEach_eq]
        simp only [List.forall_mem_map]
  | or operands ih =>
      rw [Clear, clearEach_eq, List.forall_mem_map] at clear
      rw [evalWithin]
      refine right_within fun ran id within => ?_
      rw [unite, evalEach_eq, List.map_map] at ran
      obtain ⟨united, joined, ran⟩ := Except.bind_eq_ok.mp ran
      split at ran
      next => cases ran
      next =>
        obtain rfl := Except.ok.inj ran
        rw [uniteAll_spec (fun operand member => ih operand member (clear operand member)) joined
            id,
          and_iff_right within, Means, meansEach_eq]
        simp only [List.mem_map, exists_exists_and_eq_and]
  | not operand ih =>
      rw [evalWithin]
      refine right_answer fun ran id => ?_
      obtain ⟨found, answered, ran⟩ := Except.bind_eq_ok.mp ran
      obtain rfl := Except.ok.inj ran
      have here := (ih clear answered id).trans (and_iff_right (by simp))
      rw [Finset.mem_sdiff, mem_universeIds whole, here]
      rfl
  | isPresent field aspect =>
      rw [evalWithin]
      exact right_answer fun ran id => mem_presence whole (single field) ran
  | isAbsent field aspect =>
      rw [evalWithin]
      exact right_answer fun ran id => mem_presence whole (single field) ran
  | isUnknown field =>
      rw [evalWithin]
      refine right_answer fun ran id => ?_
      obtain rfl := Except.ok.inj ran
      rw [Finset.mem_sdiff, Finset.mem_sdiff, mem_universeIds whole, mem_presentIds whole,
        mem_absent whole, and_assoc]
      refine and_congr_right fun _ => ?_
      rw [List.eq_nil_iff_forall_not_mem]
      constructor
      · rintro ⟨absent, none_there⟩ value member
        by_cases nothing : value = .nothing
        · exact none_there (nothing ▸ member)
        · refine absent ⟨value, member, Bool.eq_false_iff.mpr fun same => nothing ?_⟩
          exact (Value.isNothing_iff value).mp same
      · intro empty
        exact ⟨fun ⟨value, member, _⟩ => empty value member, empty _⟩
  | compare comparison field value aspect =>
      rw [evalWithin]
      exact right_within fun ran id within => mem_compare whole (single field) clear ran within
  | isIn field values aspect =>
      rw [evalWithin]
      refine right_within fun ran id within => ?_
      refine (uniteAll_spec (fun value member => right_within fun ran id within =>
        mem_compare whole (single field) (clear value member) ran within) ran id).trans ?_
      exact and_iff_right within
  | followsPath field path =>
      rw [evalWithin]
      refine right_answer fun ran id => ?_
      obtain ⟨root, resolved, ran⟩ := Except.bind_eq_ok.mp ran
      unfold resolvedRoot at resolved
      split at resolved
      next => cases resolved
      next roots given =>
        have path_eq := Except.ok.inj resolved
        have means : self.Means (.follows field (.path path)) id ↔
            ∃ target ∈ root, Points self.tx field target id := by
          rw [← path_eq]
          constructor
          · rintro ⟨other, also, found⟩
            obtain rfl := Option.some.inj (given.symm.trans also)
            exact found
          · intro found
            exact ⟨roots, given, found⟩
        rw [means]
        cases root with
        | none =>
            obtain rfl := Except.ok.inj ran
            simp
        | some target =>
            have points := @mem_referrersOf _ self.tx field id whole target
            rw [mem_follows whole (single field) (fun refers => ⟨target, points.mp refers⟩) ran,
              points]
            simp
  | follows field query ih =>
      rw [evalWithin]
      refine right_answer fun ran id => ?_
      obtain ⟨targets, answered, ran⟩ := Except.bind_eq_ok.mp ran
      have all := @mem_referrersOfAll _ self field id whole targets
      rw [mem_follows whole (single field) (fun refers => ?_) ran, all]
      · refine exists_congr fun target => exists_congr fun source => and_congr_left fun _ => ?_
        exact (ih clear answered source).trans (and_iff_right (by simp))
      · obtain ⟨target, _, -, -, points⟩ := all.mp refers
        exact ⟨target, points⟩
  | followsTransitivePath field path inclusive => exact clear.elim
  | followsTransitive field query inclusive ih => exact clear.elim
  | matching field pattern aspect =>
      rw [evalWithin]
      refine right_within fun ran id within => ?_
      obtain ⟨-, -, ran⟩ := Except.bind_eq_ok.mp ran
      split at ran
      next => cases ran
      next => exact mem_textScan whole (single field) clear ran within
  | osm field terms mode =>
      cases mode with
      | direct =>
          rw [evalWithin]
          exact right_within fun ran id within => mem_textScan whole (single field) clear ran within
      | path =>
          rw [evalWithin]
          refine right_answer fun ran id => ?_
          obtain rfl : terms = [] := clear
          unfold osmPath at ran
          split at ran
          next => cases ran
          next =>
            obtain rfl := Except.ok.inj ran
            exact mem_presentIds whole
  | sameAs field target ih =>
      rw [evalWithin]
      refine right_answer fun ran id => ?_
      obtain ⟨seed, answered, ran⟩ := Except.bind_eq_ok.mp ran
      obtain rfl := Except.ok.inj ran
      have seeded : ∀ source, source ∈ seed ↔ self.Means target source := fun source =>
        (ih clear.1 answered source).trans (and_iff_right (by simp))
      have shared : id ∈ KvSource.sameAs self.tx field seed ↔ Shares self.tx field seed id := by
        refine (sameAs_right whole seed).mpr (fun source member own held ambiguous => ?_) id
        exact absurd ambiguous (clear.2 source ((seeded source).mp member) own held)
      have means : Shares self.tx field seed id ↔ self.Means (.sameAs field target) id := by
        simp only [Shares, Means, seeded]
      split
      next empty =>
        rw [← means, empty]
        simp [Shares]
      next => rw [shared, means]
  | uuidIn uuids =>
      rw [evalWithin]
      refine right_answer fun ran id => ?_
      obtain rfl := Except.ok.inj ran
      rw [Finset.mem_inter, mem_universeIds whole, List.mem_toFinset, List.mem_filterMap]
      refine and_iff_left_of_imp ?_
      rintro ⟨uuid, -, named⟩
      exact ⟨uuid, named⟩

/-! ### What is answered -/

mutual

/-- Each leaf of a query is answered by itself, and no combinator is without operands. -/
def Served : Query → Prop
  | .and operands => operands ≠ [] ∧ ∀ served ∈ servedEach operands, served
  | .or operands => operands ≠ [] ∧ ∀ served ∈ servedEach operands, served
  | .not operand => Served operand
  | .follows _ (.condition query) => Served query
  | .followsTransitive _ (.condition query) _ => Served query
  | .sameAs _ target => Served target
  | .isIn field values aspect =>
      ∀ value ∈ values, ∃ found, self.evaluate (.compare .eq field value aspect) = .ok found
  | leaf => ∃ found, self.evaluate leaf = .ok found

/-- Whether each of some queries is. -/
def servedEach : List Query → List Prop
  | [] => []
  | operand :: rest => Served operand :: servedEach rest

end

theorem servedEach_eq (operands : List Query) :
    self.servedEach operands = operands.map self.Served := by
  induction operands with
  | nil => rfl
  | cons operand rest ih => simp [servedEach, ih]

/-- An evaluation answers within any candidates. -/
def Answers (evaluate : Evaluation) : Prop := ∀ restrict, ∃ found, evaluate restrict = .ok found

section

omit [Externals] [Unicode.Letters] [Patterns]

variable {α : Type} {evaluate : α → Evaluation}

theorem answers_within {evaluate : Evaluation} (answers : Answers evaluate) :
    Answers fun restrict => (evaluate restrict).within restrict := by
  intro restrict
  obtain ⟨found, answered⟩ := answers restrict
  exact ⟨_, congrArg (Answered.within restrict) answered⟩

theorem answers_intersectAll {planned : List α}
    (answers : ∀ operand ∈ planned, Answers (evaluate operand)) (held : Option (Finset UInt32)) :
    ∃ left, intersectAll (planned.map evaluate) held = .ok left := by
  induction planned generalizing held with
  | nil => exact ⟨held, rfl⟩
  | cons operand rest ih =>
      rw [List.map_cons, intersectAll]
      split
      next => exact ⟨held, rfl⟩
      next =>
        obtain ⟨found, answered⟩ := answers operand List.mem_cons_self held
        rw [answered]
        exact ih (fun other member => answers other (List.mem_cons_of_mem _ member)) _

theorem answers_uniteAll {operands : List α} {restrict : Option (Finset UInt32)}
    (answers : ∀ operand ∈ operands, ∃ found, evaluate operand restrict = .ok found) :
    ∃ found, uniteAll restrict (operands.map evaluate) = .ok found := by
  induction operands with
  | nil => exact ⟨∅, rfl⟩
  | cons operand rest ih =>
      obtain ⟨first, answered⟩ := answers operand List.mem_cons_self
      obtain ⟨others, ran⟩ := ih fun other member => answers other (List.mem_cons_of_mem _ member)
      exact ⟨first ∪ others, by rw [List.map_cons, uniteAll, answered, ran]; rfl⟩

theorem answers_leaf {answer : Answered}
    (served : ∃ found, Answered.within none answer = .ok found) :
    Answers fun restrict => answer.within restrict := by
  obtain ⟨_, served⟩ := served
  obtain ⟨found, answered, -⟩ := Except.map_eq_ok.mp served
  exact answers_within fun _ => ⟨found, answered⟩

end

variable {self : Eval}

omit [Unicode.Letters] [Patterns] in
/-- A comparison is refused whatever the candidates, or never. -/
theorem answers_compare (whole : self.tx.Exact) {field : String} {op : CmpOp} {value : Value}
    {aspect : Aspect} {found : Finset UInt32}
    (ran : self.compare field op value aspect none = .ok found) :
    Answers (self.compare field op value aspect) := by
  intro restrict
  have stored : (∃ found, KvSource.compare self.tx field op value none = .ok found) →
      ∃ found, KvSource.compare self.tx field op value restrict = .ok found := by
    rintro ⟨found, ran⟩
    cases known : kind self.tx field with
    | none => exact ⟨_, compare_of_none known op restrict⟩
    | some sort =>
        cases named : byName self.tx field value with
        | some text => exact ⟨_, compare_byName named op restrict⟩
        | none =>
            have in_order (order : op ≠ .eq ∧ op ≠ .neq) :
                ∃ found, KvSource.compare self.tx field op value restrict = .ok found := by
              rw [compare_ordered order known named] at ran
              obtain ⟨used, asked, -⟩ := Except.map_eq_ok.mp ran
              exact ⟨_, by rw [compare_ordered order known named restrict, asked]; rfl⟩
            cases op with
            | eq => exact ⟨_, compare_eq known named restrict⟩
            | neq =>
                obtain ⟨found, answered, -⟩ := mem_compare_neq whole known named restrict
                exact ⟨found, answered⟩
            | _ => exact in_order ⟨by decide, by decide⟩
  unfold compare at ran ⊢
  split at ran
  next => cases ran
  next some_value =>
    rw [if_neg some_value]
    split at ran
    next parent => exact ⟨found, by rw [if_pos parent]; exact ran⟩
    next no_parent =>
      obtain ⟨_, servable, ran⟩ := Except.bind_eq_ok.mp ran
      rw [if_neg no_parent]
      refine Exists.imp (fun found read => Except.bind_eq_ok.mpr ⟨_, servable, read⟩) ?_
      dsimp only at ran ⊢
      split at ran
      next => cases ran
      next no_order =>
        rw [if_neg no_order]
        cases value with
        | string path =>
            dsimp only at ran ⊢
            split at ran
            next exact_path => exact ⟨found, by rw [if_pos exact_path]; exact ran⟩
            next not_exact =>
              rw [if_neg not_exact]
              exact stored ⟨found, ran⟩
        | _ => exact stored ⟨found, ran⟩

/-- A query whose leaves are answered by themselves is answered, in the planner's order, within any
candidates. -/
theorem answers_evalWithin (whole : self.tx.Exact) {query : Query} (served : self.Served query) :
    Answers (self.evalWithin query) := by
  have scanned : ∀ {field pattern}, (∃ found, self.textScan field pattern none = .ok found) →
      Answers (self.textScan field pattern) := by
    rintro field pattern ⟨found, ran⟩ restrict
    unfold textScan at ran ⊢
    split at ran
    next unknown => exact ⟨∅, if_pos unknown⟩
    next known =>
      obtain ⟨keep, compiled, -⟩ := Except.bind_eq_ok.mp ran
      rw [if_neg known, compiled]
      exact ⟨_, rfl⟩
  have followed : ∀ {field referrers}, ∃ found, self.follows field referrers = .ok found := by
    intro field referrers
    unfold follows
    split <;> exact ⟨_, rfl⟩
  -- A leaf is answered as it is by itself, where no candidates are asked about.
  have leaf : ∀ {query : Query} {answer : Answered},
      self.evalWithin query = (fun restrict => answer.within restrict) →
      (∃ found, self.evaluate query = .ok found) → Answers (self.evalWithin query) := by
    intro query answer same served
    rw [evaluate, same] at served
    exact same ▸ answers_leaf served
  induction query using Query.induct with
  | and operands ih =>
      obtain ⟨some_operand, each⟩ := served
      rw [servedEach_eq, List.forall_mem_map] at each
      obtain ⟨planned, order, listed⟩ := andOrder_spec Query.isScan self.evalWithin operands
      rw [evalWithin]
      refine answers_within fun restrict => ?_
      obtain ⟨left, ran⟩ := answers_intersectAll (fun operand member =>
        ih operand ((listed operand).mp member) (each operand ((listed operand).mp member)))
        restrict
      rw [intersect, evalEach_eq, if_neg (by simpa using some_operand), order, ran]
      exact ⟨_, rfl⟩
  | or operands ih =>
      obtain ⟨some_operand, each⟩ := served
      rw [servedEach_eq, List.forall_mem_map] at each
      rw [evalWithin]
      refine answers_within fun restrict => ?_
      obtain ⟨found, ran⟩ := answers_uniteAll fun operand member =>
        ih operand member (each operand member) restrict
      rw [unite, evalEach_eq, List.map_map]
      refine ⟨found, Except.bind_eq_ok.mpr ⟨found, ran, ?_⟩⟩
      rw [if_neg (by simpa using some_operand)]
      rfl
  | not operand ih =>
      obtain ⟨found, answered⟩ := ih served none
      rw [evalWithin]
      exact answers_within fun _ => ⟨_, Except.bind_eq_ok.mpr ⟨found, answered, rfl⟩⟩
  | compare comparison field value aspect =>
      obtain ⟨_, served⟩ := served
      obtain ⟨found, ran, -⟩ := Except.map_eq_ok.mp served
      rw [evalWithin]
      exact answers_within (answers_compare whole ran)
  | isIn field values aspect =>
      rw [evalWithin]
      refine answers_within fun restrict => answers_uniteAll fun value member => ?_
      obtain ⟨_, served⟩ := served value member
      obtain ⟨found, ran, -⟩ := Except.map_eq_ok.mp served
      exact answers_within (answers_compare whole ran) restrict
  | follows field query ih =>
      obtain ⟨targets, answered⟩ := ih served none
      obtain ⟨found, ran⟩ := @followed field (self.referrersOfAll field targets)
      rw [evalWithin]
      exact answers_within fun _ => ⟨found, Except.bind_eq_ok.mpr ⟨targets, answered, ran⟩⟩
  | followsTransitive field query inclusive ih =>
      obtain ⟨nodes, answered⟩ := ih served none
      rw [evalWithin]
      refine answers_within fun _ => ?_
      rw [answered]
      change ∃ found, self.followsTransitive field nodes inclusive = .ok found
      unfold followsTransitive
      split <;> exact ⟨_, rfl⟩
  | matching field pattern aspect =>
      obtain ⟨_, served⟩ := served
      obtain ⟨found, ran, -⟩ := Except.map_eq_ok.mp served
      obtain ⟨_, servable, ran⟩ := Except.bind_eq_ok.mp ran
      rw [evalWithin]
      refine answers_within fun restrict => ?_
      refine Exists.imp (fun found read => Except.bind_eq_ok.mpr ⟨_, servable, read⟩) ?_
      split at ran
      next => cases ran
      next matchable =>
        rw [if_neg matchable]
        exact scanned ⟨found, ran⟩ restrict
  | osm field terms mode =>
      cases mode with
      | path => exact leaf rfl served
      | direct =>
          obtain ⟨_, served⟩ := served
          obtain ⟨found, ran, -⟩ := Except.map_eq_ok.mp served
          rw [evalWithin]
          exact answers_within (scanned ⟨found, ran⟩)
  | sameAs field target ih =>
      obtain ⟨seed, answered⟩ := ih served none
      rw [evalWithin]
      exact answers_within fun _ => ⟨_, Except.bind_eq_ok.mpr ⟨seed, answered, rfl⟩⟩
  | _ => exact leaf rfl served

end Eval

/-- In every store reachable, whatever the evaluator answers a clear query, among candidates or not,
is what the query means on the rows; and it answers every query whose leaves it answers. -/
theorem evaluator_right [Unicode.Letters] [Patterns] {store : KvStore}
    (reached : Reachable (fun _ => True) store) (regexes : Regexes) (roots : Option QueryRoots)
    {query : Query} (clear : (Eval.mk store.tx regexes roots).Clear query) :
    Right ((Eval.mk store.tx regexes roots).evalWithin query)
        ((Eval.mk store.tx regexes roots).Means query) ∧
      ((Eval.mk store.tx regexes roots).Served query →
        Eval.Answers ((Eval.mk store.tx regexes roots).evalWithin query)) :=
  ⟨Eval.evalWithin_right _ reached.exact reached.single clear,
    Eval.answers_evalWithin reached.exact⟩

omit [Externals] in
/-- What is tagged behind a text, as a scan of what is known. -/
def sampleQuery : Query :=
  .and [.compare .gt "tag" (.string "a") .raw, .not (.isUnknown "tag")]

/-- A store, and patterns that are none. -/
def sampleEval (store : KvStore) : Eval := ⟨store.tx, ⟨fun _ => none, fun text => text⟩, none⟩

omit [Externals] in
theorem evaluator_right_tagged : letI : Externals := lowerExternals
    letI : Unicode.Letters := greekLetters
    letI : Patterns := ⟨fun _ => .error "no pattern"⟩
    ∃ store, sampleHolders.run {} = .ok store ∧
      ∀ id, (sampleEval store).Means sampleQuery id ↔ id = 1 := by
  let _ : Externals := lowerExternals
  let _ : Unicode.Letters := greekLetters
  let _ : Patterns := ⟨fun _ => .error "no pattern"⟩
  have run : (fun store : KvStore => ((sampleEval store).evaluate sampleQuery).toOption) <$>
      sampleHolders.run {} = .ok (some {1}) := by
    decide +kernel
  obtain ⟨store, ran, read⟩ := Except.map_eq_ok.mp run
  have reached : Reachable (fun _ => True) store := .commit sampleHolders .new trivial ran
  have clear : (sampleEval store).Clear sampleQuery := by
    simp [sampleQuery, Eval.Clear, Eval.clearEach, Ambiguous]
  cases answered : (sampleEval store).evaluate sampleQuery with
  | error failure =>
      rw [answered] at read
      cases read
  | ok found =>
      rw [answered] at read
      obtain rfl := Option.some.inj read
      refine ⟨store, ran, fun id => ?_⟩
      have right := (evaluator_right reached _ _ clear).1 answered id
      rw [Finset.mem_singleton] at right
      exact (right.trans (and_iff_right fun _ => nofun)).symm

end Metafolder
