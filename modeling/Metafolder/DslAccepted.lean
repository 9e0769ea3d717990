import Metafolder.DslParsed
import Metafolder.NameTexts

/-!
# What the parser accepts

Every query the parser reads off a text can be expressed, is folded already, and is nested no deeper
than the levels the parser was given.  A parser with fewer levels reads what one with more reads, or
refuses the text as nested too deeply.
-/

namespace Metafolder.Dsl

open Parsing Query

section Accepted

variable [Externals] [CharClasses]

/-! ### Tokens taken -/

omit [CharClasses] in
theorem expect_eq_ok {expected : Tok} {toks rest : List Tok} (read : expect expected toks = .ok rest) :
    toks = expected :: rest := by
  cases toks with
  | nil => cases read
  | cons tok more =>
      simp only [expect] at read
      split at read
      · next same =>
          cases read
          rw [same]
      · cases read

theorem fieldName_ident {name : List Char} (lexable : (Tok.ident name).Lexable) :
    FieldName (String.ofList name) := by
  have notHex : ¬HexText name := lexable.1.2.2
  have token : fieldToken (String.ofList name) = .ident name := by
    have not_ : ¬(name.length = 32 ∧ name.all isAsciiHexdigit) := by
      intro ⟨full, all⟩
      exact notHex ⟨full, by simpa using all⟩
    rw [fieldToken, String.toList_ofList, if_neg not_]
  rw [FieldName, token]
  exact lexable

theorem fieldName_hex {text : List Char} (lexable : (Tok.hex text).Lexable) :
    FieldName (String.ofList text) := by
  have hex : HexText text := lexable
  have token : fieldToken (String.ofList text) = .hex text := by
    rw [fieldToken, String.toList_ofList, if_pos ⟨hex.1, by simpa using hex.2⟩]
  rw [FieldName, token]
  exact lexable

theorem callField_eq_ok {call field : String} {toks rest : List Tok}
    (read : callField call toks = .ok (field, rest)) :
    ∃ tok, toks = tok :: rest ∧ (tok.Lexable → FieldName field) := by
  unfold callField at read
  split at read
  · cases read
    exact ⟨_, rfl, fieldName_ident⟩
  · cases read
    exact ⟨_, rfl, fieldName_hex⟩
  · cases read
  · cases read

theorem predicateField_eq_ok {field : String} {toks rest : List Tok}
    (read : predicateField toks = .ok (field, rest)) :
    ∃ tok, toks = tok :: rest ∧ (tok.Lexable → FieldName field) := by
  unfold predicateField at read
  split at read
  · split at read
    · cases read
    · cases read
      exact ⟨_, rfl, fieldName_ident⟩
  · cases read
    exact ⟨_, rfl, fieldName_hex⟩
  · split at read
    · split at read <;> cases read
    · cases read
  · cases read

omit [CharClasses] in
theorem aspect_suffix {given : Aspect} {toks rest : List Tok}
    (read : aspect toks = .ok (given, rest)) : rest <:+ toks := by
  unfold aspect at read
  split at read
  · split at read
    · cases read
      exact (List.suffix_cons _ _).trans (List.suffix_cons _ _)
    · cases read
  · cases read
  · cases read
  · cases read
    exact List.suffix_rfl

theorem literal_of_literalValue {tok : Tok} {value : Value} (read : literalValue tok = .ok value)
    (lexable : tok.Lexable) : Literal value := by
  cases tok with
  | int n | float f | dateTime ms =>
      cases read
      exact ⟨_, rfl, lexable⟩
  | str text =>
      cases read
      have shown : some (Tok.str (String.ofList text).toList) = some (.str text) := by
        rw [String.toList_ofList]
      exact ⟨.str text, shown, trivial⟩
  | true | false =>
      cases read
      exact ⟨_, rfl, trivial⟩
  | _ => cases read

theorem yields_literal : Yields literal Tok.Lexable Literal := by
  intro toks value rest read
  cases toks with
  | nil => cases read
  | cons tok more =>
      obtain ⟨found, foundRead, same⟩ := Except.map_eq_ok.mp read
      cases same
      exact ⟨Left.cons tok rest, fun all => literal_of_literalValue foundRead (all tok (by simp))⟩

theorem yields_inValues :
    Yields inValues Tok.Lexable fun values => ∀ value ∈ values, Literal value := by
  intro toks values rest read
  fun_induction inValues toks generalizing values rest with
  | case1 after =>
      cases read
      exact ⟨Left.cons _ _, fun _ => by simp⟩
  | case2 after =>
      cases read
      exact ⟨(Left.cons _ _).trans (List.suffix_cons _ _), fun _ => by simp⟩
  | case3 tok after notParen ih =>
      obtain ⟨value, valueRead, read⟩ := Except.bind_eq_ok.mp read
      obtain ⟨⟨others, left⟩, othersRead, same⟩ := Except.bind_eq_ok.mp read
      cases same
      have more := ih othersRead
      refine ⟨more.1.trans ((List.suffix_cons _ _).trans (List.suffix_cons _ _)), fun all => ?_⟩
      have first := literal_of_literalValue valueRead (all tok (by simp))
      have later := more.2 fun other member => all other (by simp [member])
      simpa using ⟨first, later⟩
  | case4 => cases read
  | case5 => cases read
  | case6 => cases read

theorem yields_uuidInUuids : Yields uuidInUuids Tok.Lexable fun _ => True := by
  intro toks uuids rest read
  refine ⟨?_, fun _ => trivial⟩
  fun_induction uuidInUuids toks generalizing uuids rest with
  | case1 after =>
      cases read
      exact Left.cons _ _
  | case2 tok after notParen ih =>
      obtain ⟨uuid, uuidRead, read⟩ := Except.bind_eq_ok.mp read
      obtain ⟨⟨others, left⟩, othersRead, same⟩ := Except.bind_eq_ok.mp read
      cases same
      exact (ih othersRead).trans ((List.suffix_cons _ _).trans (List.suffix_cons _ _))
  | case3 tok after notParen =>
      obtain ⟨uuid, uuidRead, same⟩ := Except.bind_eq_ok.mp read
      cases same
      exact (Left.cons _ _).trans (List.suffix_cons _ _)
  | case4 =>
      obtain ⟨uuid, uuidRead, same⟩ := Except.bind_eq_ok.mp read
      cases same
  | case5 =>
      obtain ⟨uuid, uuidRead, same⟩ := Except.bind_eq_ok.mp read
      cases same
  | case6 => cases read

omit [Externals] [CharClasses] in
theorem terms_splitTerms (begun text : List Char)
    (dark : ∀ c ∈ begun, isWhitespace c = Bool.false) : Terms (splitTerms begun text) := by
  have word (nonempty : begun ≠ []) : (String.ofList begun).toList ≠ [] ∧
      ∀ c ∈ (String.ofList begun).toList, isWhitespace c = Bool.false := by
    rw [String.toList_ofList]
    exact ⟨nonempty, dark⟩
  fun_induction splitTerms begun text with
  | case1 => intro term member; cases member
  | case2 begun nonempty =>
      intro term member
      rw [List.mem_singleton] at member
      exact member ▸ word nonempty
  | case3 c rest white ih => exact ih (by simp) (fun none_ => absurd rfl none_)
  | case4 begun c rest white nonempty ih =>
      intro term member
      rcases List.mem_cons.mp member with rfl | later
      · exact word nonempty
      · exact ih (by simp) (fun none_ => absurd rfl none_) term later
  | case5 begun c rest visible ih =>
      have extended : ∀ d ∈ begun ++ [c], isWhitespace d = Bool.false := by
        intro d member
        rcases List.mem_append.mp member with old | new
        · exact dark d old
        · rw [List.mem_singleton] at new
          simpa [new] using visible
      refine ih extended fun nonempty => ?_
      rw [String.toList_ofList]
      exact ⟨nonempty, extended⟩

/-! ### Queries read -/

/-- A query the parser reads at a place with some levels left. -/
structure Settled (levels : Nat) (place : Place) (query : Query) : Prop where
  /-- The language can express it. -/
  expressible : Expressible query
  /-- It is nested no deeper than the levels. -/
  depth : depth place query ≤ levels
  /-- Its alternatives are folded. -/
  fold : fold query = query

theorem Settled.flat {levels : Nat} {place : Place} {query : Query} (expressible : Expressible query)
    (flat : Query.depth place query = 0) (fold : Query.fold query = query) :
    Settled levels place query :=
  ⟨expressible, flat ▸ Nat.zero_le levels, fold⟩

omit [Externals] [CharClasses] in
theorem depth_operand_le (query : Query) : depth .operand query ≤ depth .alternative query + 1 := by
  cases query with
  | and operands | or operands => simp [depth]
  | follows field target | followsTransitive field target inclusive =>
      cases target <;> simp [depth]
  | _ => simp [depth]

omit [Externals] [CharClasses] in
theorem depth_conjunct_le (query : Query) : depth .conjunct query ≤ depth .operand query := by
  cases query with
  | follows field target | followsTransitive field target inclusive =>
      cases target <;> exact Nat.le_refl _
  | and operands => simp [depth]
  | _ => exact Nat.le_refl _

omit [Externals] [CharClasses] in
theorem depth_alternative_le (query : Query) : depth .alternative query ≤ depth .conjunct query := by
  cases query with
  | follows field target | followsTransitive field target inclusive =>
      cases target <;> exact Nat.le_refl _
  | or operands => simp [depth]
  | _ => exact Nat.le_refl _

section Nested

variable {levels : Nat} {orExpr : Parse Query}

/-- What a parser of sub-queries reads takes a level less than there are. -/
abbrev YieldsInner (levels : Nat) (orExpr : Parse Query) : Prop :=
  Yields orExpr Tok.Lexable fun query =>
    Expressible query ∧ depth .alternative query + 1 ≤ levels ∧ fold query = query

theorem yields_closed (inner : YieldsInner levels orExpr) : YieldsInner levels (closed orExpr) := by
  intro toks query rest read
  obtain ⟨⟨found, after⟩, foundRead, read⟩ := Except.bind_eq_ok.mp read
  obtain ⟨left, closes, same⟩ := Except.bind_eq_ok.mp read
  cases same
  have holds := inner foundRead
  have shape := expect_eq_ok closes
  exact ⟨((shape ▸ Left.cons Tok.rParen rest : Left rest after)).trans holds.1.1, holds.2⟩

theorem yields_sameCall (inner : YieldsInner levels orExpr) :
    Yields (sameCall orExpr) Tok.Lexable (Settled levels .operand) := by
  intro toks query rest read
  obtain ⟨first, opens, read⟩ := Except.bind_eq_ok.mp read
  obtain ⟨⟨field, second⟩, fieldRead, read⟩ := Except.bind_eq_ok.mp read
  obtain ⟨third, comma, read⟩ := Except.bind_eq_ok.mp read
  obtain ⟨⟨target, fourth⟩, targetRead, same⟩ := Except.bind_eq_ok.mp read
  cases same
  have opened := expect_eq_ok opens
  obtain ⟨tok, named, name⟩ := callField_eq_ok fieldRead
  have separated := expect_eq_ok comma
  have holds := yields_closed inner targetRead
  have within : third <:+ toks := by
    refine List.IsSuffix.trans ?_ (List.drop_suffix 1 toks)
    rw [opened, named, separated]
    exact ⟨[.lParen, tok, .comma], rfl⟩
  refine ⟨holds.1.trans within, fun all => ?_⟩
  have inTarget := holds.2 fun other member => all other (within.subset member)
  have tokLexable : tok.Lexable := by
    refine all tok ((List.drop_suffix 1 toks).subset ?_)
    rw [opened, named]
    simp
  exact ⟨⟨name tokLexable, inTarget.1⟩, inTarget.2.1, by rw [Query.fold, inTarget.2.2]⟩

theorem yields_followTarget (inner : YieldsInner levels orExpr) (arrow : String) :
    Yields (followTarget orExpr arrow) Tok.Lexable fun target =>
      ∀ field inclusive, FieldName field → Settled levels .operand (.follows field target) ∧
        Settled levels .operand (.followsTransitive field target inclusive) := by
  intro toks target rest read
  unfold followTarget at read
  split at read
  · cases read
    exact ⟨Left.cons _ _, fun _ field inclusive name =>
      ⟨.flat ⟨name, trivial⟩ rfl rfl, .flat ⟨name, trivial⟩ rfl rfl⟩⟩
  · obtain ⟨⟨query, after⟩, queryRead, same⟩ := Except.bind_eq_ok.mp read
    cases same
    have holds := yields_closed inner queryRead
    refine ⟨holds.1.trans (List.suffix_cons _ _), fun all field inclusive name => ?_⟩
    have inQuery := holds.2 fun tok member => all tok (by simp [member])
    exact ⟨⟨⟨name, inQuery.1⟩, inQuery.2.1, by rw [Query.fold, inQuery.2.2]⟩,
      ⟨⟨name, inQuery.1⟩, inQuery.2.1, by rw [Query.fold, inQuery.2.2]⟩⟩
  · cases read
  · cases read

variable (levels) in
theorem yields_comparison (operator : Comparison) (field : String) (given : Aspect) :
    Yields (comparison operator field given) Tok.Lexable fun query =>
      FieldName field → Settled levels .operand query := by
  intro toks query rest read
  obtain ⟨⟨value, after⟩, valueRead, same⟩ := Except.bind_eq_ok.mp read
  cases same
  have holds := yields_literal valueRead
  exact ⟨holds.1, fun all name => .flat ⟨name, holds.2 all⟩ rfl rfl⟩

theorem yields_condition (inner : YieldsInner levels orExpr) (field : String) (given : Aspect) :
    Yields (condition orExpr field given) Tok.Lexable fun query =>
      FieldName field → Settled levels .operand query := by
  have compared (operator : Comparison) {tok : Tok} {toks rest : List Tok} {query : Query}
      (read : comparison operator field given toks = .ok (query, rest)) :
      Left rest (tok :: toks) ∧ ((∀ other ∈ tok :: toks, other.Lexable) →
        FieldName field → Settled levels .operand query) := by
    have holds := yields_comparison levels operator field given read
    exact ⟨holds.1.trans (List.suffix_cons _ _),
      fun all => holds.2 fun other member => all other (by simp [member])⟩
  have followed {arrow : String} (tok : Tok) {toks rest : List Tok} {target : FollowTarget}
      (read : followTarget orExpr arrow toks = .ok (target, rest)) :
      Left rest (tok :: toks) ∧ ((∀ other ∈ tok :: toks, other.Lexable) → ∀ inclusive,
        FieldName field → Settled levels .operand (.follows field target) ∧
          Settled levels .operand (.followsTransitive field target inclusive)) := by
    have holds := yields_followTarget inner _ read
    refine ⟨holds.1.trans (List.suffix_cons _ _), fun all inclusive => ?_⟩
    exact holds.2 (fun other member => all other (by simp [member])) field inclusive
  intro toks query rest read
  unfold condition at read
  split at read
  · cases read
    exact ⟨(Left.cons _ _).trans (List.suffix_cons _ _), fun _ name => .flat name rfl rfl⟩
  · cases read
    exact ⟨(Left.cons _ _).trans (List.suffix_cons _ _), fun _ name => .flat name rfl rfl⟩
  · split at read
    · cases read
    · cases read
      exact ⟨(Left.cons _ _).trans (List.suffix_cons _ _), fun _ name => .flat name rfl rfl⟩
  · cases read
  · cases read
  · exact compared .eq read
  · exact compared .neq read
  · exact compared .lt read
  · exact compared .lte read
  · exact compared .gt read
  · exact compared .gte read
  · cases read
    exact ⟨(Left.cons _ _).trans (List.suffix_cons _ _), fun _ name => .flat name rfl rfl⟩
  · cases read
  · cases read
  · split at read
    · cases read
    · obtain ⟨⟨target, after⟩, targetRead, same⟩ := Except.bind_eq_ok.mp read
      cases same
      have holds := followed .arrow targetRead
      exact ⟨holds.1, fun all name => (holds.2 all Bool.false name).1⟩
  · split at read
    · cases read
    · obtain ⟨⟨target, after⟩, targetRead, same⟩ := Except.bind_eq_ok.mp read
      cases same
      have holds := followed .arrowStar targetRead
      exact ⟨holds.1, fun all name => (holds.2 all Bool.false name).2⟩
  · split at read
    · cases read
    · obtain ⟨⟨target, after⟩, targetRead, same⟩ := Except.bind_eq_ok.mp read
      cases same
      have holds := followed .fatArrowStar targetRead
      exact ⟨holds.1, fun all name => (holds.2 all Bool.true name).2⟩
  · cases read
  · cases read

theorem yields_predicate (inner : YieldsInner levels orExpr) :
    Yields (predicate orExpr) Tok.Lexable (Settled levels .operand) := by
  intro toks query rest read
  obtain ⟨⟨field, first⟩, fieldRead, read⟩ := Except.bind_eq_ok.mp read
  obtain ⟨⟨given, second⟩, aspectRead, conditionRead⟩ := Except.bind_eq_ok.mp read
  obtain ⟨tok, rfl, name⟩ := predicateField_eq_ok fieldRead
  have within : second <:+ tok :: first := (aspect_suffix aspectRead).trans (List.suffix_cons _ _)
  have holds := yields_condition inner field given conditionRead
  exact ⟨holds.1.trans within, fun all =>
    holds.2 (fun other member => all other (within.subset member)) (name (all tok (by simp)))⟩

variable (levels) in
theorem yields_osmTerms (mode : OsmMode) (field : String) :
    Yields (osmTerms mode field) Tok.Lexable fun query =>
      FieldName field → Settled levels .operand query := by
  intro toks query rest read
  unfold osmTerms at read
  split at read
  · next text after =>
      obtain ⟨left, closes, same⟩ := Except.bind_eq_ok.mp read
      cases same
      have shape := expect_eq_ok closes
      subst shape
      exact ⟨(Left.cons _ _).trans (List.suffix_cons _ _), fun _ name =>
        .flat ⟨name, terms_splitTerms [] text (by simp)⟩ rfl rfl⟩
  · cases read
  · cases read

theorem yields_osmCall (mode : OsmMode) :
    Yields (osmCall mode) Tok.Lexable (Settled levels .operand) := by
  intro toks query rest read
  obtain ⟨first, opens, read⟩ := Except.bind_eq_ok.mp read
  obtain ⟨⟨field, second⟩, fieldRead, read⟩ := Except.bind_eq_ok.mp read
  obtain ⟨⟨given, third⟩, aspectRead, read⟩ := Except.bind_eq_ok.mp read
  change (if given = .raw ∨ given = osmAspect mode then _ else _) = _ at read
  split at read
  · obtain ⟨fourth, comma, read⟩ := Except.bind_eq_ok.mp read
    have opened := expect_eq_ok opens
    obtain ⟨tok, named, name⟩ := callField_eq_ok fieldRead
    have separated := expect_eq_ok comma
    have holds := yields_osmTerms levels mode field read
    have from_ : second <:+ toks := by
      refine List.IsSuffix.trans ?_ (List.drop_suffix 1 toks)
      rw [opened, named]
      exact ⟨[.lParen, tok], rfl⟩
    have within : fourth <:+ toks := by
      refine List.IsSuffix.trans ?_ ((aspect_suffix aspectRead).trans from_)
      rw [separated]
      exact List.suffix_cons _ _
    have tokLexable (all : ∀ other ∈ toks, other.Lexable) : tok.Lexable := by
      refine all tok ((List.drop_suffix 1 toks).subset ?_)
      rw [opened, named]
      simp
    exact ⟨holds.1.trans within, fun all =>
      holds.2 (fun other member => all other (within.subset member)) (name (tokLexable all))⟩
  · cases read

theorem yields_inCall : Yields inCall Tok.Lexable (Settled levels .operand) := by
  intro toks query rest read
  obtain ⟨first, opens, read⟩ := Except.bind_eq_ok.mp read
  obtain ⟨⟨field, second⟩, fieldRead, read⟩ := Except.bind_eq_ok.mp read
  obtain ⟨⟨given, third⟩, aspectRead, read⟩ := Except.bind_eq_ok.mp read
  obtain ⟨⟨values, fourth⟩, valuesRead, same⟩ := Except.bind_eq_ok.mp read
  cases same
  have opened := expect_eq_ok opens
  obtain ⟨tok, named, name⟩ := callField_eq_ok fieldRead
  have holds := yields_inValues valuesRead
  have within : third <:+ toks := by
    refine (aspect_suffix aspectRead).trans (List.IsSuffix.trans ?_ (List.drop_suffix 1 toks))
    rw [opened, named]
    exact ⟨[.lParen, tok], rfl⟩
  refine ⟨holds.1.trans within, fun all => ?_⟩
  have tokLexable : tok.Lexable := by
    refine all tok ((List.drop_suffix 1 toks).subset ?_)
    rw [opened, named]
    simp
  exact .flat ⟨name tokLexable, holds.2 fun other member => all other (within.subset member)⟩ rfl rfl

theorem yields_uuidInCall : Yields uuidInCall Tok.Lexable (Settled levels .operand) := by
  intro toks query rest read
  obtain ⟨first, opens, read⟩ := Except.bind_eq_ok.mp read
  obtain ⟨⟨uuids, second⟩, uuidsRead, same⟩ := Except.bind_eq_ok.mp read
  cases same
  have opened := expect_eq_ok opens
  have within : first <:+ toks := by
    refine List.IsSuffix.trans ?_ (List.drop_suffix 1 toks)
    rw [opened]
    exact List.suffix_cons _ _
  exact ⟨(yields_uuidInUuids uuidsRead).1.trans within, fun _ => .flat trivial rfl rfl⟩

theorem yields_atom (inner : YieldsInner levels orExpr) :
    Yields (atom orExpr) Tok.Lexable (Settled levels .operand) := by
  intro toks query rest read
  unfold atom at read
  split at read
  · have holds := yields_closed inner read
    have within : toks.drop 1 <:+ toks := List.drop_suffix 1 toks
    refine ⟨holds.1.trans within, fun all => ?_⟩
    have inQuery := holds.2 fun tok member => all tok (within.subset member)
    exact ⟨inQuery.1, (depth_operand_le query).trans inQuery.2.1, inQuery.2.2⟩
  split at read
  · exact yields_osmCall .path read
  split at read
  · exact yields_osmCall .direct read
  split at read
  · exact yields_sameCall inner read
  split at read
  · exact yields_uuidInCall read
  split at read
  · exact yields_inCall read
  · split at read
    · next uuid found =>
        cases read
        cases toks with
        | nil => cases found
        | cons tok more => exact ⟨Left.cons tok more, fun _ => .flat trivial rfl rfl⟩
    · exact yields_predicate inner read

end Nested

/-! ### Chains and levels -/

theorem yields_andExpr {levels : Nat} {unary : Parse Query}
    (operand : Yields unary Tok.Lexable (Settled levels .operand)) :
    Yields (andExpr unary) Tok.Lexable (Settled levels .conjunct) := by
  intro toks query rest read
  obtain ⟨⟨operands, after⟩, chained, read⟩ := Except.bind_eq_ok.mp read
  have holds := chain_yields operand _ chained
  match operands, read with
  | [], read =>
      cases read
      exact ⟨holds.1, fun all => absurd rfl (holds.2 all).1⟩
  | [single], read =>
      cases read
      refine ⟨holds.1, fun all => ?_⟩
      have settled := (holds.2 all).2 query (by simp)
      exact ⟨settled.expressible, (depth_conjunct_le query).trans settled.depth, settled.fold⟩
  | first :: second :: others, read =>
      cases read
      refine ⟨holds.1, fun all => ?_⟩
      have settled := (holds.2 all).2
      refine ⟨?_, ?_, ?_⟩
      · simp only [Expressible, expressibleAll_iff]
        exact ⟨by simp, fun operand member => (settled operand member).expressible⟩
      · simp only [depth, depthAll_eq_map, reduceCtorEq, if_false, Nat.add_zero, foldr_max_le,
          List.mem_map, forall_exists_index, and_imp, forall_apply_eq_imp_iff₂]
        exact fun operand member => (settled operand member).depth
      · rw [fold, foldAll_eq_map]
        have same : (first :: second :: others).map fold = first :: second :: others :=
          List.map_congr_left (g := id) (fun operand member => (settled operand member).fold)
            |>.trans (List.map_id _)
        rw [same]

/-- Alternatives that are settled are settled together. -/
theorem settled_alternatives {levels : Nat} {operands : List Query} (several : 2 ≤ operands.length)
    (settled : ∀ operand ∈ operands, Settled levels .conjunct operand) :
    Settled levels .alternative (.alternatives operands) := by
  cases found : operands.mapM uuids? with
  | some sets =>
      have set : Query.alternatives operands = .uuidIn sets.flatten := by
        simp only [alternatives, found]
      rw [set]
      exact .flat trivial rfl rfl
  | none =>
      have chain : Query.alternatives operands = .or operands := by simp only [alternatives, found]
      have same : operands.map fold = operands :=
        List.map_congr_left (g := id) (fun operand member => (settled operand member).fold)
          |>.trans (List.map_id _)
      rw [chain]
      refine ⟨?_, ?_, ?_⟩
      · simp only [Expressible, expressibleAll_iff]
        exact ⟨several, fun operand member => (settled operand member).expressible⟩
      · simp only [depth, depthAll_eq_map, if_true, Nat.add_zero, foldr_max_le,
          List.mem_map, forall_exists_index, and_imp, forall_apply_eq_imp_iff₂]
        exact fun operand member => (settled operand member).depth
      · rw [Query.fold, foldAll_eq_map, same, chain]

theorem yields_orExprInner {levels : Nat} {unary : Parse Query}
    (operand : Yields unary Tok.Lexable (Settled levels .operand)) :
    Yields (orExprInner unary) Tok.Lexable (Settled levels .alternative) := by
  intro toks query rest read
  obtain ⟨⟨operands, after⟩, chained, read⟩ := Except.bind_eq_ok.mp read
  have holds := chain_yields (yields_andExpr operand) _ chained
  match operands, read with
  | [], read =>
      cases read
      exact ⟨holds.1, fun all => absurd rfl (holds.2 all).1⟩
  | [single], read =>
      cases read
      refine ⟨holds.1, fun all => ?_⟩
      have settled := (holds.2 all).2 query (by simp)
      exact ⟨settled.expressible, (depth_alternative_le query).trans settled.depth, settled.fold⟩
  | first :: second :: others, read =>
      cases read
      refine ⟨holds.1, fun all => ?_⟩
      have settled := (holds.2 all).2
      exact settled_alternatives (by simp) settled

/-- What the parser reads at an operand, with some levels left. -/
theorem yields_unary (levels : Nat) :
    Yields (unary levels) Tok.Lexable (Settled levels .operand) := by
  induction levels with
  | zero =>
      intro toks query rest read
      change (if toks.head? = some .not then _ else _) = _ at read
      split at read
      · obtain ⟨found, foundRead, -⟩ := Except.bind_eq_ok.mp read
        cases foundRead
      · refine yields_atom (fun toks query rest read => ?_) read
        change Except.error tooDeep = _ at read
        cases read
  | succ levels ih =>
      intro toks query rest read
      change (if toks.head? = some .not then _ else _) = _ at read
      split at read
      · obtain ⟨⟨operand, after⟩, operandRead, same⟩ := Except.bind_eq_ok.mp read
        cases same
        have holds := ih operandRead
        have within : toks.drop 1 <:+ toks := List.drop_suffix 1 toks
        refine ⟨holds.1.trans within, fun all => ?_⟩
        have settled := holds.2 fun tok member => all tok (within.subset member)
        exact ⟨settled.expressible, Nat.succ_le_succ settled.depth, by rw [fold, settled.fold]⟩
      · refine yields_atom (fun toks query rest read => ?_) read
        have holds := yields_orExprInner ih read
        refine ⟨holds.1, fun all => ?_⟩
        have settled := holds.2 all
        exact ⟨settled.expressible, Nat.succ_le_succ settled.depth, settled.fold⟩

/-- What the parser accepts, under a bound on the nesting: a query that can be expressed, nested
within the bound and folded. -/
theorem parseQueryWithin_settled (documented : Documented) {limit : Nat} {input : List Char}
    {query : Query} (accepted : parseQueryWithin limit input = .ok query) :
    Expressible query ∧ nesting query ≤ limit ∧ fold query = query := by
  obtain ⟨toks, lexed, accepted⟩ := Except.bind_eq_ok.mp accepted
  obtain ⟨⟨read, rest⟩, readOk, accepted⟩ := Except.bind_eq_ok.mp accepted
  cases rest with
  | cons tok rest => cases accepted
  | nil =>
      cases accepted
      cases limit with
      | zero => cases readOk
      | succ levels =>
          have settled := (yields_orExprInner (yields_unary levels) readOk).2
            (lex_lexable documented lexed)
          exact ⟨settled.expressible, Nat.succ_le_succ settled.depth, settled.fold⟩

/-! ### The bound on the nesting -/

section Bounded

omit [CharClasses]

variable {inner outer : Parse Query}

theorem bounded_closed (bounded : Bounded tooDeep inner outer) :
    Bounded tooDeep (closed inner) (closed outer) :=
  fun toks => bounded.bind toks fun _ => .inr rfl

theorem bounded_sameCall (bounded : Bounded tooDeep inner outer) :
    Bounded tooDeep (sameCall inner) (sameCall outer) := by
  intro toks
  refine bind_bounded _ fun rest => bind_bounded _ fun field => bind_bounded _ fun after => ?_
  exact (bounded_closed bounded).bind after fun _ => .inr rfl

theorem bounded_followTarget (bounded : Bounded tooDeep inner outer) (arrow : String) :
    Bounded tooDeep (followTarget inner arrow) (followTarget outer arrow) := by
  intro toks
  unfold followTarget
  split
  · exact .inr rfl
  · exact (bounded_closed bounded).bind _ fun _ => .inr rfl
  · exact .inr rfl
  · exact .inr rfl

theorem bounded_condition (bounded : Bounded tooDeep inner outer) (field : String) (given : Aspect) :
    Bounded tooDeep (condition inner field given) (condition outer field given) := by
  have followed (arrow : String) (toks : List Tok) (build : FollowTarget → Query) :
      (followTarget inner arrow toks >>= fun read => .ok (build read.1, read.2)) = .error tooDeep ∨
        (followTarget inner arrow toks >>= fun read => .ok (build read.1, read.2)) =
          (followTarget outer arrow toks >>= fun read => .ok (build read.1, read.2)) :=
    (bounded_followTarget bounded arrow).bind toks fun _ => .inr rfl
  intro toks
  unfold condition
  split <;> try exact .inr rfl
  · split
    · exact .inr rfl
    · exact followed _ _ (.follows field)
  · split
    · exact .inr rfl
    · exact followed _ _ (.followsTransitive field · Bool.false)
  · split
    · exact .inr rfl
    · exact followed _ _ (.followsTransitive field · Bool.true)

theorem bounded_predicate (bounded : Bounded tooDeep inner outer) :
    Bounded tooDeep (predicate inner) (predicate outer) := by
  intro toks
  refine bind_bounded _ fun field => bind_bounded _ fun given => ?_
  exact bounded_condition bounded field.1 given.1 given.2

theorem bounded_atom (bounded : Bounded tooDeep inner outer) :
    Bounded tooDeep (atom inner) (atom outer) := by
  intro toks
  unfold atom
  split
  · exact bounded_closed bounded _
  split
  · exact .inr rfl
  split
  · exact .inr rfl
  split
  · exact bounded_sameCall bounded toks
  split
  · exact .inr rfl
  split
  · exact .inr rfl
  split
  · exact .inr rfl
  · exact bounded_predicate bounded toks

theorem bounded_unaryOver {operand other : Parse Query} (operands : Bounded tooDeep operand other)
    (bounded : Bounded tooDeep inner outer) :
    Bounded tooDeep (unaryOver operand inner) (unaryOver other outer) := by
  intro toks
  unfold unaryOver
  split
  · exact operands.bind _ fun _ => .inr rfl
  · exact bounded_atom bounded toks

omit [Externals] in
theorem bounded_andExpr (bounded : Bounded tooDeep inner outer) :
    Bounded tooDeep (andExpr inner) (andExpr outer) :=
  fun toks => (chain_bounded bounded toks.length).bind toks fun _ => .inr rfl

omit [Externals] in
theorem bounded_orExprInner (bounded : Bounded tooDeep inner outer) :
    Bounded tooDeep (orExprInner inner) (orExprInner outer) :=
  fun toks => (chain_bounded (bounded_andExpr bounded) toks.length).bind toks fun _ => .inr rfl

theorem bounded_unary {few many : Nat} (fewer : few ≤ many) :
    Bounded tooDeep (unary few) (unary many) := by
  induction few generalizing many with
  | zero =>
      rw [unary_eq many]
      exact bounded_unaryOver (fun _ => .inl rfl) (fun _ => .inl rfl)
  | succ few ih =>
      obtain ⟨many, rfl⟩ : ∃ before, many = before + 1 := ⟨many - 1, by omega⟩
      have operands := ih (by omega : few ≤ many)
      exact bounded_unaryOver operands (bounded_orExprInner operands)

theorem bounded_orExpr {few many : Nat} (fewer : few ≤ many) :
    Bounded tooDeep (orExpr few) (orExpr many) := by
  cases few with
  | zero => exact fun _ => .inl rfl
  | succ few =>
      obtain ⟨many, rfl⟩ : ∃ before, many = before + 1 := ⟨many - 1, by omega⟩
      exact bounded_orExprInner (bounded_unary (by omega : few ≤ many))

end Bounded

/-- With fewer levels a text is refused as nested too deeply, or read as with more. -/
theorem parseQueryWithin_bounded {few many : Nat} (fewer : few ≤ many) (input : List Char) :
    parseQueryWithin few input = .error tooDeep ∨
      parseQueryWithin few input = parseQueryWithin many input :=
  bind_bounded (lex input) fun toks => (bounded_orExpr fewer).bind toks fun _ => .inr rfl

/-! ### The round trip -/

/-- The canonical text of a query is read as the query folded, or refused as nested too deeply. -/
theorem parseQueryWithin_canonical (documented : Documented) (numerals : Numerals) {query : Query}
    (expressible : Expressible query) (limit : Nat) :
    parseQueryWithin limit (canonical numerals query) =
      if nesting query ≤ limit then .ok (fold query) else .error tooDeep := by
  have lexed : lex (canonical numerals query) = .ok (tokens .alternative query) :=
    lex_spell documented numerals (lexable_tokens documented expressible .alternative)
  rw [parseQueryWithin, lexed]
  cases limit with
  | zero => rfl
  | succ levels =>
      have read := readsAt documented expressible levels .alternative [] (by simp [Ends])
      rw [List.append_nil] at read
      show orExprInner (unary levels) (tokens .alternative query) >>= _ = _
      rw [show orExprInner (unary levels) = parserAt levels .alternative from rfl, read]
      by_cases fits : depth .alternative query ≤ levels
      · have nested : nesting query ≤ levels + 1 := Nat.succ_le_succ fits
        rw [if_pos nested]
        simp only [verdict, if_pos fits]
        rfl
      · have nested : ¬nesting query ≤ levels + 1 := fun nested => fits (Nat.le_of_succ_le_succ nested)
        rw [if_neg nested]
        simp only [verdict, if_neg fits]
        rfl

/-- The parser and the canonical text.  A text that is accepted is read as a query whose canonical
text is read as that very query.  The canonical text of a query that can be expressed, which has
parentheses only where the precedence of `NOT` over `AND` over `OR` asks for them, is accepted where
the query is nested no deeper than `MAX_DEPTH`, as a query that matches the same metarecords, and
refused otherwise.  And whatever bound a text would be accepted under, under `MAX_DEPTH` it is
accepted as the same query or refused as nested too deeply. -/
theorem canonical_round_trip (documented : Documented) (numerals : Numerals) :
    (∀ text query, parseQuery text = .ok query →
      Expressible query ∧ nesting query ≤ MAX_DEPTH ∧
        parseQuery (canonical numerals query) = .ok query) ∧
    (∀ query, Expressible query → nesting query ≤ MAX_DEPTH →
      ∃ read, parseQuery (canonical numerals query) = .ok read ∧
        ∀ answers, eval answers read = eval answers query) ∧
    (∀ query, Expressible query → MAX_DEPTH < nesting query →
      parseQuery (canonical numerals query) = .error tooDeep) ∧
    (∀ text limit query, parseQueryWithin limit text = .ok query →
      parseQuery text = .ok query ∨ MAX_DEPTH < limit ∧ parseQuery text = .error tooDeep) := by
  refine ⟨fun text query accepted => ?_, fun query expressible fits => ?_,
    fun query expressible deep => ?_, fun text limit query accepted => ?_⟩
  · obtain ⟨expressible, nested, folded⟩ := parseQueryWithin_settled documented accepted
    have read := parseQueryWithin_canonical documented numerals expressible MAX_DEPTH
    rw [if_pos nested, folded] at read
    exact ⟨expressible, nested, read⟩
  · have read := parseQueryWithin_canonical documented numerals expressible MAX_DEPTH
    rw [if_pos fits] at read
    exact ⟨fold query, read, fun answers => eval_fold answers query⟩
  · have read := parseQueryWithin_canonical documented numerals expressible MAX_DEPTH
    rwa [if_neg (Nat.not_le.mpr deep)] at read
  · rcases Nat.lt_or_ge MAX_DEPTH limit with deeper | within
    · rcases parseQueryWithin_bounded (Nat.le_of_lt deeper) text with refused | same
      · exact .inr ⟨deeper, refused⟩
      · exact .inl (same.trans accepted)
    · rcases parseQueryWithin_bounded within text with refused | same
      · rw [refused] at accepted
        cases accepted
      · exact .inl (same.symm.trans accepted)

end Accepted

/-! ### A query on plain texts -/

/-- The classes of characters of ASCII. -/
abbrev plainClasses : CharClasses where
  isAlphabetic := Char.isAlpha
  isNumeric := Char.isDigit

theorem isWhitespace_not_isAlpha {c : Char} (white : isWhitespace c) : c.isAlpha = Bool.false := by
  by_contra letter
  rw [Bool.not_eq_false, isAlpha_iff] at letter
  simp only [isWhitespace, Bool.or_eq_true, Bool.and_eq_true, decide_eq_true_eq] at white
  omega

theorem plain_documented : @Documented plainExternals plainClasses := by
  let _ : Externals := plainExternals
  let _ : CharClasses := plainClasses
  refine ⟨fun c _ => rfl, fun c _ => rfl, fun c white => isWhitespace_not_isAlpha white,
    fun uuid => ?_⟩
  have shown : uuid.simple.toList = uuid.bytes.flatMap Uuid.hexByte := by simp [Uuid.simple]
  show (hexBytes uuid.simple.toList).bind _ = _
  rw [shown, hexBytes_hexByte, Option.bind_some, dif_pos uuid.size]

/-- No numeral is parsed as a float on plain texts. -/
def plainNumerals : @Numerals plainExternals :=
  letI : Externals := plainExternals
  { write := fun _ => []
    numeral := by
      rintro text f ⟨sign, whole, fraction, shape, -, -, -, -, value⟩
      have read : (if String.ofList text = "NaN" then some (⟨0x7FF8000000000000⟩ : F64) else none) =
          some f := value
      split at read
      · next named =>
          have same : text = "NaN".toList := by rw [← named, String.toList_ofList]
          have point : '.' ∈ text := by rw [shape]; simp
          rw [same] at point
          exact absurd point (by decide)
      · cases read }

/-- `(a OR b) AND NOT (x = 1 AND same(y, c))`, the letters before `x` being uuids. -/
def sampleQuery : Query :=
  .and [.or [.uuidIn [Uuid.zero], .uuidIn [⟨List.replicate 16 1, rfl⟩]],
    .not (.and [.compare .eq "x" (.int 1) .raw, .sameAs "y" (.uuidIn [Uuid.zero])])]

theorem canonical_round_trip_sample :
    letI : Externals := plainExternals
    letI : CharClasses := plainClasses
    Expressible sampleQuery ∧ nesting sampleQuery ≤ MAX_DEPTH ∧
      ∃ read, parseQuery (canonical plainNumerals sampleQuery) = .ok read ∧
        ∀ answers, eval answers read = eval answers sampleQuery := by
  let _ : Externals := plainExternals
  let _ : CharClasses := plainClasses
  have name {field : String} (token : fieldToken field = .ident field.toList)
      (plain : isPlainWord field.toList) (identifier : wordToken field.toList = .ident field.toList) :
      FieldName field := by
    rw [FieldName, token]
    exact lexable_ident plain_documented plain identifier
  have expressible : Expressible sampleQuery := by
    refine ⟨by decide, ⟨by decide, trivial, trivial, trivial⟩, ?_, trivial⟩
    refine ⟨by decide, ⟨?_, ⟨.int 1, rfl, trivial⟩⟩, ⟨?_, trivial⟩, trivial⟩
    · exact name rfl rfl rfl
    · exact name rfl rfl rfl
  have nested : nesting sampleQuery ≤ MAX_DEPTH := by decide
  exact ⟨expressible, nested,
    (canonical_round_trip plain_documented plainNumerals).2.1 sampleQuery expressible nested⟩

end Metafolder.Dsl
