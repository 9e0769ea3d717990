import Metafolder.DslLexed

/-!
# Parsing the canonical text

The canonical text of a query puts a parenthesis only where the precedence of `NOT` over `AND` over
`OR` asks for one.  The parser reads it as the query with its alternatives folded, which matches the
same metarecords, or refuses it where it is nested too deeply; and what the parser reads off any
text is a query with a canonical text.
-/

namespace Metafolder

namespace Dsl

open Parsing

variable [Externals] [CharClasses]

/-! ### Names and literals -/

/-- The token of a field name: 32 hexadecimal digits lex as one token of their own. -/
def fieldToken (field : String) : Tok :=
  if field.toList.length = 32 ∧ field.toList.all isAsciiHexdigit then .hex field.toList
  else .ident field.toList

/-- The tokens of an aspect. -/
def aspectTokens : Aspect → List Tok
  | .raw => []
  | .value => [.colon, .ident "value".toList]
  | .parent => [.colon, .ident "parent".toList]
  | .path => [.colon, .ident "path".toList]

/-- The token of a comparison. -/
def comparisonToken : Comparison → Tok
  | .eq => .eq
  | .neq => .neq
  | .lt => .lt
  | .lte => .lte
  | .gt => .gt
  | .gte => .gte

/-- The token of a literal. -/
def literalToken : Value → Option Tok
  | .int n => some (.int n)
  | .float f => some (.float f)
  | .dateTime ms => some (.dateTime ms)
  | .string text => some (.str text.toList)
  | .bool Bool.true => some .true
  | .bool Bool.false => some .false
  | _ => none

/-- The tokens of a literal. -/
def literalTokens (value : Value) : List Tok := (literalToken value).toList

/-- The tokens of the values of `in`. -/
def valueTokens (values : List Value) : List Tok :=
  values.flatMap fun value => .comma :: literalTokens value

/-- The token of a uuid. -/
def uuidToken (uuid : Uuid) : Tok := .hex uuid.simple.toList

/-- The tokens of the uuids of `uuid_in`. -/
def uuidTokens : List Uuid → List Tok
  | [] => []
  | [uuid] => [uuidToken uuid]
  | uuid :: next :: rest => uuidToken uuid :: .comma :: uuidTokens (next :: rest)

/-- The text of terms. -/
def termsText (terms : List String) : List Char :=
  terms.flatMap fun term => term.toList ++ [' ']

end Dsl

open Dsl Parsing

namespace Query

variable [Externals] [CharClasses]

/-! ### The canonical text -/

/-- Where a query stands: under the precedence of what is around it. -/
inductive Place
  | alternative
  | conjunct
  | operand
deriving DecidableEq

/-- Tokens in parentheses, where they are needed. -/
def wrap (needed : Bool) (toks : List Tok) : List Tok :=
  if needed then .lParen :: (toks ++ [.rParen]) else toks

mutual

/-- The tokens of a query at a place. -/
def tokens (place : Place) : Query → List Tok
  | or operands =>
      wrap (place ≠ .alternative) (joined .or (tokensAll .conjunct operands))
  | and operands => wrap (place = .operand) (joined .and (tokensAll .operand operands))
  | not operand => .not :: tokens .operand operand
  | isPresent field aspect => fieldToken field :: (aspectTokens aspect ++ [.is, .present])
  | isAbsent field aspect => fieldToken field :: (aspectTokens aspect ++ [.is, .absent])
  | isUnknown field => [fieldToken field, .is, .unknown]
  | compare comparison field value aspect =>
      fieldToken field :: (aspectTokens aspect ++ comparisonToken comparison :: literalTokens value)
  | isIn field values aspect =>
      .ident "in".toList :: .lParen :: fieldToken field ::
        (aspectTokens aspect ++ (valueTokens values ++ [.rParen]))
  | follows field target => fieldToken field :: .arrow :: targetTokens target
  | followsTransitive field target inclusive =>
      fieldToken field :: (if inclusive then .fatArrowStar else .arrowStar) :: targetTokens target
  | matching field pattern aspect =>
      fieldToken field :: (aspectTokens aspect ++ [.matching, .str pattern.toList])
  | osm field terms mode =>
      [.ident (osmKeyword mode).toList, .lParen, fieldToken field, .comma, .str (termsText terms), .rParen]
  | sameAs field target =>
      .ident "same".toList :: .lParen :: fieldToken field :: .comma ::
        (tokens .alternative target ++ [.rParen])
  | uuidIn uuids =>
      match uuids with
      | [uuid] => [uuidToken uuid]
      | uuids => .ident "uuid_in".toList :: .lParen :: (uuidTokens uuids ++ [.rParen])

/-- The tokens of what a traversal leads to. -/
def targetTokens : FollowTarget → List Tok
  | .path text => [.str text.toList]
  | .condition query => .lParen :: (tokens .alternative query ++ [.rParen])

/-- The tokens of each of some queries. -/
def tokensAll (place : Place) : List Query → List (List Tok)
  | [] => []
  | query :: rest => tokens place query :: tokensAll place rest

end

/-- The canonical text of a query. -/
def canonical (numerals : Numerals) (query : Query) : List Char :=
  spell numerals (tokens .alternative query)

mutual

/-- How many levels of nesting a query at a place takes. -/
def depth (place : Place) : Query → Nat
  | or operands =>
      (depthAll .conjunct operands).foldr max 0 + if place = .alternative then 0 else 1
  | and operands => (depthAll .operand operands).foldr max 0 + if place = .operand then 1 else 0
  | not operand => depth .operand operand + 1
  | follows _ (.condition query) => depth .alternative query + 1
  | followsTransitive _ (.condition query) _ => depth .alternative query + 1
  | sameAs _ target => depth .alternative target + 1
  | _ => 0

/-- The levels of each of some queries. -/
def depthAll (place : Place) : List Query → List Nat
  | [] => []
  | query :: rest => depth place query :: depthAll place rest

end

/-- How deeply the canonical text of a query is nested: the query itself is one level. -/
def nesting (query : Query) : Nat := depth .alternative query + 1

/-! ### The queries the language can express -/

/-- A field the language has a name for. -/
def FieldName (field : String) : Prop := (fieldToken field).Lexable

/-- A value the language has a literal for. -/
def Literal (value : Value) : Prop := ∃ tok, literalToken value = some tok ∧ tok.Lexable

/-- The terms a text can be split into. -/
def Terms (terms : List String) : Prop :=
  ∀ term ∈ terms, term.toList ≠ [] ∧ ∀ c ∈ term.toList, isWhitespace c = Bool.false

mutual

/-- A query the language can express: combinators of two operands at least, and names, literals and
terms it has a text for. -/
def Expressible : Query → Prop
  | and operands => 2 ≤ operands.length ∧ ExpressibleAll operands
  | or operands => 2 ≤ operands.length ∧ ExpressibleAll operands
  | not operand => Expressible operand
  | isPresent field _ => FieldName field
  | isAbsent field _ => FieldName field
  | isUnknown field => FieldName field
  | compare _ field value _ => FieldName field ∧ Literal value
  | isIn field values _ => FieldName field ∧ ∀ value ∈ values, Literal value
  | follows field target => FieldName field ∧ ExpressibleTarget target
  | followsTransitive field target _ => FieldName field ∧ ExpressibleTarget target
  | matching field _ _ => FieldName field
  | osm field terms _ => FieldName field ∧ Terms terms
  | sameAs field target => FieldName field ∧ Expressible target
  | uuidIn _ => True

/-- A target the language can express. -/
def ExpressibleTarget : FollowTarget → Prop
  | .path _ => True
  | .condition query => Expressible query

/-- Queries the language can express. -/
def ExpressibleAll : List Query → Prop
  | [] => True
  | query :: rest => Expressible query ∧ ExpressibleAll rest

end

omit [Externals] [CharClasses] in
@[simp]
theorem tokensAll_eq_map (place : Place) (queries : List Query) :
    tokensAll place queries = queries.map (tokens place) := by
  induction queries with
  | nil => rfl
  | cons query rest ih => simp [tokensAll, ih]

omit [Externals] [CharClasses] in
@[simp]
theorem depthAll_eq_map (place : Place) (queries : List Query) :
    depthAll place queries = queries.map (depth place) := by
  induction queries with
  | nil => rfl
  | cons query rest ih => simp [depthAll, ih]

@[simp]
theorem expressibleAll_iff (queries : List Query) :
    ExpressibleAll queries ↔ ∀ query ∈ queries, Expressible query := by
  induction queries with
  | nil => simp [ExpressibleAll]
  | cons query rest ih => simp [ExpressibleAll, ih]

omit [Externals] [CharClasses] in
theorem foldr_max_le {depths : List Nat} {n : Nat} :
    depths.foldr max 0 ≤ n ↔ ∀ depth ∈ depths, depth ≤ n := by
  induction depths with
  | nil => simp
  | cons depth rest ih => simp [ih]

/-! ### The canonical text lexes -/

omit [Externals] [CharClasses] in
theorem mem_wrap {needed : Bool} {toks : List Tok} {tok : Tok} (member : tok ∈ wrap needed toks) :
    tok = .lParen ∨ tok ∈ toks ∨ tok = .rParen := by
  cases needed <;> simp [wrap] at member <;> grind

theorem lexable_wrap {needed : Bool} {toks : List Tok} (all : ∀ tok ∈ toks, tok.Lexable) :
    ∀ tok ∈ wrap needed toks, tok.Lexable := by
  intro tok member
  rcases mem_wrap member with rfl | inside | rfl
  · trivial
  · exact all tok inside
  · trivial

theorem lexable_joined {separator : Tok} (plain : separator.Lexable) {items : List (List Tok)}
    (all : ∀ toks ∈ items, ∀ tok ∈ toks, tok.Lexable) :
    ∀ tok ∈ joined separator items, tok.Lexable := by
  induction items with
  | nil => simp [joined]
  | cons first others ih =>
      have inFirst := all first (by simp)
      cases others with
      | nil => simpa [joined] using inFirst
      | cons second others =>
          have inOthers := ih fun toks member => all toks (by simp [member])
          intro tok member
          rw [joined_cons_cons, List.mem_append, List.mem_cons] at member
          rcases member with member | rfl | member
          · exact inFirst tok member
          · exact plain
          · exact inOthers tok member

theorem lexable_ident (documented : Documented) {name : List Char} (plain : isPlainWord name)
    (identifier : wordToken name = .ident name) : (Tok.ident name).Lexable :=
  ⟨wordText_plain documented plain, identifier⟩

theorem lexable_aspect (documented : Documented) (aspect : Aspect) :
    ∀ tok ∈ aspectTokens aspect, tok.Lexable := by
  have named {name : List Char} (plain : isPlainWord name)
      (identifier : wordToken name = .ident name) :
      ∀ tok ∈ [Tok.colon, .ident name], tok.Lexable := by
    have lexable := lexable_ident documented plain identifier
    simpa [Tok.Lexable] using lexable
  cases aspect with
  | raw => simp [aspectTokens]
  | value => exact named rfl rfl
  | parent => exact named rfl rfl
  | path => exact named rfl rfl

theorem lexable_literal {value : Value} (literal : Literal value) :
    ∀ tok ∈ literalTokens value, tok.Lexable := by
  obtain ⟨tok, shown, lexable⟩ := literal
  simpa [literalTokens, shown] using lexable

omit [Externals] [CharClasses] in
theorem hexText_simple (uuid : Uuid) : HexText uuid.simple.toList := by
  have digit : ∀ n, n < 16 → isAsciiHexdigit (Uuid.hexDigit n) := by decide
  have shown : uuid.simple.toList = uuid.bytes.flatMap Uuid.hexByte := by
    simp [Uuid.simple]
  rw [shown]
  refine ⟨?_, fun c member => ?_⟩
  · rw [List.length_flatMap]
    simp [Uuid.hexByte, uuid.size]
  · obtain ⟨byte, -, inByte⟩ := List.mem_flatMap.mp member
    have small : byte.toNat < 256 := byte.toNat_lt
    simp only [Uuid.hexByte, List.mem_cons, List.not_mem_nil, or_false] at inByte
    rcases inByte with rfl | rfl
    · exact digit _ (by omega)
    · exact digit _ (by omega)

theorem lexable_uuid (uuid : Uuid) : (uuidToken uuid).Lexable := hexText_simple uuid

theorem lexable_uuids (uuids : List Uuid) : ∀ tok ∈ uuidTokens uuids, tok.Lexable := by
  fun_induction uuidTokens uuids with
  | case1 => simp
  | case2 uuid => simpa using lexable_uuid uuid
  | case3 uuid next rest ih =>
      intro tok member
      simp only [List.mem_cons] at member
      rcases member with rfl | rfl | member
      · exact hexText_simple uuid
      · trivial
      · exact ih tok member

/-- The canonical tokens of a query that can be expressed have texts. -/
theorem lexable_tokens (documented : Documented) {query : Query} (expressible : Expressible query)
    (place : Place) : ∀ tok ∈ tokens place query, tok.Lexable := by
  have aspects := lexable_aspect documented
  induction query using induct generalizing place with
  | and operands ih =>
      simp only [Expressible, expressibleAll_iff] at expressible
      refine lexable_wrap (lexable_joined (show Tok.and.Lexable from trivial) ?_)
      simpa using fun operand member =>
        ih operand member (expressible.2 operand member) .operand
  | or operands ih =>
      simp only [Expressible, expressibleAll_iff] at expressible
      refine lexable_wrap (lexable_joined (show Tok.or.Lexable from trivial) ?_)
      simpa using fun operand member =>
        ih operand member (expressible.2 operand member) .conjunct
  | not operand ih =>
      have inside := ih expressible .operand
      simpa [tokens, Tok.Lexable] using inside
  | isPresent field aspect | isAbsent field aspect | matching field pattern aspect =>
      have name : (fieldToken field).Lexable := expressible
      have inside := aspects aspect
      simp only [tokens, List.mem_cons, List.mem_append, List.not_mem_nil, or_false]
      rintro tok (rfl | member | rfl | rfl)
      · exact name
      · exact inside tok member
      · trivial
      · trivial
  | isUnknown field =>
      have name : (fieldToken field).Lexable := expressible
      simpa [tokens, Tok.Lexable] using name
  | compare comparison field value aspect =>
      have name : (fieldToken field).Lexable := expressible.1
      have inside := aspects aspect
      have literal := lexable_literal expressible.2
      simp only [tokens, List.mem_cons, List.mem_append]
      rintro tok (rfl | member | rfl | member)
      · exact name
      · exact inside tok member
      · cases comparison <;> trivial
      · exact literal tok member
  | isIn field values aspect =>
      have name : (fieldToken field).Lexable := expressible.1
      have inside := aspects aspect
      simp only [tokens, List.mem_cons, List.mem_append, List.not_mem_nil, or_false, valueTokens,
        List.mem_flatMap]
      rintro tok (rfl | rfl | rfl | member | ⟨value, among, rfl | member⟩ | rfl)
      · exact lexable_ident documented rfl rfl
      · trivial
      · exact name
      · exact inside tok member
      · trivial
      · exact lexable_literal (expressible.2 value among) tok member
      · trivial
  | followsPath field text =>
      have name : (fieldToken field).Lexable := expressible.1
      simpa [tokens, targetTokens, Tok.Lexable] using name
  | follows field query ih =>
      have name : (fieldToken field).Lexable := expressible.1
      have inside := ih expressible.2 .alternative
      simp only [tokens, targetTokens, List.mem_cons, List.mem_append, List.not_mem_nil, or_false]
      rintro tok (rfl | rfl | rfl | member | rfl)
      · exact name
      · trivial
      · trivial
      · exact inside tok member
      · trivial
  | followsTransitivePath field text inclusive =>
      have name : (fieldToken field).Lexable := expressible.1
      cases inclusive <;> simpa [tokens, targetTokens, Tok.Lexable] using name
  | followsTransitive field query inclusive ih =>
      have name : (fieldToken field).Lexable := expressible.1
      have inside := ih expressible.2 .alternative
      simp only [tokens, targetTokens, List.mem_cons, List.mem_append, List.not_mem_nil, or_false]
      rintro tok (rfl | rfl | rfl | member | rfl)
      · exact name
      · cases inclusive <;> trivial
      · trivial
      · exact inside tok member
      · trivial
  | osm field terms mode =>
      have name : (fieldToken field).Lexable := expressible.1
      have operator : (Tok.ident (osmKeyword mode).toList).Lexable := by
        cases mode with
        | direct => exact lexable_ident documented rfl rfl
        | path => exact lexable_ident documented rfl rfl
      simp only [tokens, List.mem_cons, List.not_mem_nil, or_false]
      rintro tok (rfl | rfl | rfl | rfl | rfl | rfl)
      · exact operator
      · trivial
      · exact name
      · trivial
      · trivial
      · trivial
  | sameAs field target ih =>
      have name : (fieldToken field).Lexable := expressible.1
      have inside := ih expressible.2 .alternative
      simp only [tokens, List.mem_cons, List.mem_append, List.not_mem_nil, or_false]
      rintro tok (rfl | rfl | rfl | rfl | member | rfl)
      · exact lexable_ident documented rfl rfl
      · trivial
      · exact name
      · trivial
      · exact inside tok member
      · trivial
  | uuidIn uuids =>
      unfold tokens
      split
      · next uuid => simpa using lexable_uuid uuid
      · simp only [List.mem_cons, List.mem_append, List.not_mem_nil, or_false]
        rintro tok (rfl | rfl | member | rfl)
        · exact lexable_ident documented rfl rfl
        · trivial
        · exact lexable_uuids _ tok member
        · trivial

/-! ### The parser over the canonical tokens -/

section Reading

omit [CharClasses]

/-- The query where it fits, or the refusal. -/
def verdict (fits : Prop) [Decidable fits] (query : Query) : Except String Query :=
  if fits then .ok query else .error tooDeep

omit [Externals] in
theorem verdict_congr {fits other : Prop} [Decidable fits] [Decidable other] (same : fits ↔ other)
    (query : Query) : verdict fits query = verdict other query := by
  simp [verdict, same]

/-- What can follow a query at a place: nothing, a parenthesis that closes, or an operator around
the place. -/
def Ends (place : Place) (rest : List Tok) : Prop :=
  ∀ tok, rest.head? = some tok →
    tok = .rParen ∨ (place ≠ .alternative ∧ tok = .or) ∨ (place = .operand ∧ tok = .and)

/-- What reads a query at a place. -/
def parserAt (levels : Nat) : Place → Parse Query
  | .alternative => orExprInner (unary levels)
  | .conjunct => andExpr (unary levels)
  | .operand => unary levels

/-- A query at a place is read with its alternatives folded, or refused. -/
def ReadsAt (levels : Nat) (place : Place) (query : Query) : Prop :=
  ∀ rest, Ends place rest → parserAt levels place (tokens place query ++ rest) =
    (fun read => (read, rest)) <$> verdict (depth place query ≤ levels) (fold query)

omit [Externals] in
theorem ends_rParen (place : Place) (rest : List Tok) : Ends place (.rParen :: rest) := by
  intro tok first
  exact .inl (by simpa using first.symm)

theorem unary_eq (levels : Nat) : unary levels = unaryOver (nested unary levels) (orExpr levels) := by
  cases levels <;> rfl

theorem unary_atom {levels : Nat} {toks : List Tok} (first : toks.head? ≠ some .not) :
    unary levels toks = atom (orExpr levels) toks := by
  rw [unary_eq, unaryOver, if_neg first]

/-- A query in parentheses takes one level more. -/
theorem closed_reads {query : Query} (reads : ∀ levels, ReadsAt levels .alternative query)
    (levels : Nat) (rest : List Tok) :
    closed (orExpr levels) (tokens .alternative query ++ .rParen :: rest) =
      (fun read => (read, rest)) <$> verdict (depth .alternative query + 1 ≤ levels) (fold query) := by
  cases levels with
  | zero => rfl
  | succ levels =>
      have read := reads levels (.rParen :: rest) (ends_rParen _ _)
      have inner : orExpr (levels + 1) (tokens .alternative query ++ .rParen :: rest) =
          (fun read => (read, .rParen :: rest)) <$>
            verdict (depth .alternative query ≤ levels) (fold query) := read
      rw [closed, inner]
      by_cases fits : depth .alternative query ≤ levels
      · have more : depth .alternative query + 1 ≤ levels + 1 := by omega
        simp only [verdict, fits, more, if_true]
        rfl
      · have more : ¬depth .alternative query + 1 ≤ levels + 1 := by omega
        simp only [verdict, fits, more, if_false]
        rfl

omit [Externals] in
/-- Either all of some queries fit, and the folded queries are found, or the first that does not
is refused. -/
theorem mapM_verdict {bound : Query → Nat} {levels : Nat} (operands : List Query) :
    operands.mapM (fun operand => verdict (bound operand ≤ levels) (fold operand)) =
      if ∀ operand ∈ operands, bound operand ≤ levels then .ok (operands.map fold)
      else .error tooDeep := by
  induction operands with
  | nil => rfl
  | cons first others ih =>
      rw [List.mapM_cons, ih]
      by_cases fits : bound first ≤ levels
      · by_cases rest : ∀ operand ∈ others, bound operand ≤ levels
        · have all : ∀ operand ∈ first :: others, bound operand ≤ levels := by
            simpa [fits] using rest
          rw [if_pos rest, if_pos all]
          simp only [verdict, fits, if_true]
          rfl
        · have notAll : ¬∀ operand ∈ first :: others, bound operand ≤ levels :=
            fun all => rest fun operand member => all operand (by simp [member])
          rw [if_neg rest, if_neg notAll]
          simp only [verdict, fits, if_true]
          rfl
      · have notAll : ¬∀ operand ∈ first :: others, bound operand ≤ levels :=
          fun all => fits (all first (by simp))
        rw [if_neg notAll]
        simp only [verdict, fits, if_false]
        rfl

omit [Externals] in
/-- A chain of queries is read back as their folded list, or refused. -/
theorem chain_reads {separator : Tok} {item : Parse Query} {print : Query → List Tok}
    {bound : Query → Nat} {levels : Nat} {operands : List Query} {rest : List Tok}
    (nonempty : operands ≠ []) (ends : rest.head? ≠ some separator)
    (reads : ∀ operand ∈ operands, ∀ later, later = rest ∨ later.head? = some separator →
      item (print operand ++ later) =
        (fun read => (read, later)) <$> verdict (bound operand ≤ levels) (fold operand)) :
    chain separator item (joined separator (operands.map print) ++ rest).length
        (joined separator (operands.map print) ++ rest) =
      if ∀ operand ∈ operands, bound operand ≤ levels then .ok (operands.map fold, rest)
      else .error tooDeep := by
  have enough : operands.length ≤ (joined separator (operands.map print) ++ rest).length + 1 := by
    have long := length_le_joined separator (operands.map print)
    rw [List.length_map] at long
    rw [List.length_append]
    omega
  rw [chain_joined nonempty enough ends
    (fun operand member => reads operand member rest (.inl rfl))
    (fun operand member more => reads operand member (separator :: more) (.inr rfl)), mapM_verdict]
  split <;> rfl

/-! ### Predicates and calls -/

/-- The end of a chain of operands: what follows each operand can follow it at its own place. -/
theorem and_reads {levels : Nat} (operands : List Query) {rest : List Tok} (nonempty : operands ≠ [])
    (ends : Ends .conjunct rest)
    (reads : ∀ operand ∈ operands, ReadsAt levels .operand operand) :
    chain .and (unary levels) (joined .and (operands.map (tokens .operand)) ++ rest).length
        (joined .and (operands.map (tokens .operand)) ++ rest) =
      if ∀ operand ∈ operands, depth .operand operand ≤ levels then .ok (operands.map fold, rest)
      else .error tooDeep := by
  have notAnd : rest.head? ≠ some .and := by
    intro first
    have among := ends _ first
    simp at among
  refine chain_reads nonempty notAnd fun operand member later follows_ => ?_
  refine reads operand member later fun tok first => ?_
  rcases follows_ with rfl | separator
  · rcases ends tok first with closes | ⟨-, isOr⟩ | ⟨same, -⟩
    · exact .inl closes
    · exact .inr (.inl ⟨by decide, isOr⟩)
    · cases same
  · rw [separator] at first
    exact .inr (.inr ⟨rfl, (Option.some.inj first).symm⟩)

theorem or_reads {levels : Nat} (operands : List Query) {rest : List Tok} (nonempty : operands ≠ [])
    (ends : Ends .alternative rest)
    (reads : ∀ operand ∈ operands, ReadsAt levels .conjunct operand) :
    chain .or (andExpr (unary levels)) (joined .or (operands.map (tokens .conjunct)) ++ rest).length
        (joined .or (operands.map (tokens .conjunct)) ++ rest) =
      if ∀ operand ∈ operands, depth .conjunct operand ≤ levels then .ok (operands.map fold, rest)
      else .error tooDeep := by
  have notOr : rest.head? ≠ some .or := by
    intro first
    have among := ends _ first
    simp at among
  refine chain_reads nonempty notOr fun operand member later follows_ => ?_
  refine reads operand member later fun tok first => ?_
  rcases follows_ with rfl | separator
  · rcases ends tok first with closes | ⟨notAlternative, -⟩ | ⟨same, -⟩
    · exact .inl closes
    · exact absurd rfl notAlternative
    · cases same
  · rw [separator] at first
    exact .inr (.inl ⟨by decide, (Option.some.inj first).symm⟩)

/-- A query that stands at a place as it stands inside a chain is read there as one operand. -/
theorem readsAt_conjunct {levels : Nat} {query : Query}
    (sameTokens : tokens .conjunct query = tokens .operand query)
    (sameDepth : depth .conjunct query = depth .operand query)
    (reads : ReadsAt levels .operand query) : ReadsAt levels .conjunct query := by
  intro rest ends
  have chained := and_reads [query] (by simp) ends (by simpa using reads)
  simp only [List.map_cons, List.map_nil, joined, List.mem_singleton, forall_eq] at chained
  rw [sameTokens, sameDepth, show parserAt levels .conjunct = andExpr (unary levels) from rfl, andExpr,
    chained]
  by_cases fits : depth .operand query ≤ levels
  · simp only [verdict, fits, if_true]
    rfl
  · simp only [verdict, fits, if_false]
    rfl

theorem readsAt_alternative {levels : Nat} {query : Query}
    (sameTokens : tokens .alternative query = tokens .conjunct query)
    (sameDepth : depth .alternative query = depth .conjunct query)
    (reads : ReadsAt levels .conjunct query) : ReadsAt levels .alternative query := by
  intro rest ends
  have chained := or_reads [query] (by simp) ends (by simpa using reads)
  simp only [List.map_cons, List.map_nil, joined, List.mem_singleton, forall_eq] at chained
  rw [sameTokens, sameDepth, show parserAt levels .alternative = orExprInner (unary levels) from rfl,
    orExprInner, chained]
  by_cases fits : depth .conjunct query ≤ levels
  · simp only [verdict, fits, if_true]
    rfl
  · simp only [verdict, fits, if_false]
    rfl

/-- A query in parentheses is read as an operand. -/
theorem readsAt_wrapped {levels : Nat} {query : Query}
    (wrapped : tokens .operand query = .lParen :: (tokens .alternative query ++ [.rParen]))
    (deeper : depth .operand query = depth .alternative query + 1)
    (reads : ∀ levels, ReadsAt levels .alternative query) : ReadsAt levels .operand query := by
  intro rest ends
  have read := closed_reads reads levels rest
  rw [show parserAt levels .operand = unary levels from rfl, wrapped, deeper]
  simp only [List.cons_append, List.append_assoc, List.nil_append]
  rw [unary_atom (by simp), atom, if_pos List.head?_cons]
  exact read

theorem atom_predicate {orExpr : Parse Query} {field : String} {toks : List Tok}
    (next : toks.head?.any followsAField) :
    atom orExpr (fieldToken field :: toks) = predicate orExpr (fieldToken field :: toks) := by
  cases toks with
  | nil => simp at next
  | cons tok more =>
      have next : followsAField tok := by simpa using next
      have notCall : tok ≠ .lParen := by
        intro same
        subst same
        exact absurd next (by decide)
      have noCall (name : String) : peekCall name (fieldToken field :: tok :: more) = Bool.false := by
        unfold peekCall
        split
        · next same =>
            exact absurd (List.cons.inj (List.cons.inj same).2).1 notCall
        · rfl
      have noParen : (fieldToken field :: tok :: more).head? ≠ some .lParen := by
        unfold fieldToken
        split <;> simp
      have noUuid : peekUuidAtom (fieldToken field :: tok :: more) = none := by
        unfold fieldToken
        split <;> simp [peekUuidAtom, next]
      simp only [atom, noCall, noParen, noUuid, Bool.false_eq_true, if_false]

theorem predicateField_fieldToken {field : String} {toks : List Tok}
    (next : toks.head?.any followsAField) :
    predicateField (fieldToken field :: toks) = .ok (field, toks) := by
  unfold fieldToken
  split <;> simp [predicateField, next]

theorem callField_fieldToken (call field : String) (toks : List Tok) :
    callField call (fieldToken field :: toks) = .ok (field, toks) := by
  unfold fieldToken
  split <;> simp [callField]

theorem aspect_aspectTokens (given : Aspect) {toks : List Tok} (next : toks.head? ≠ some .colon) :
    aspect (aspectTokens given ++ toks) = .ok (given, toks) := by
  cases given with
  | raw =>
      show aspect toks = _
      unfold aspect
      split
      · simp at next
      · simp at next
      · simp at next
      · rfl
  | value => rfl
  | parent => rfl
  | path => rfl

omit [Externals] in
theorem not_colon {operator : Tok} (isOp : isOperator operator) (more : List Tok) :
    (operator :: more).head? ≠ some .colon := by
  intro same
  have same : operator = .colon := by simpa using same
  subst same
  exact absurd isOp (by decide)

/-- A predicate is read through its field and aspect up to its operator. -/
theorem unary_predicate (levels : Nat) (field : String) (given : Aspect) (operator : Tok)
    (isOp : isOperator operator) (more : List Tok) :
    unary levels (fieldToken field :: (aspectTokens given ++ operator :: more)) =
      condition (orExpr levels) field given (operator :: more) := by
  have next : (aspectTokens given ++ operator :: more).head?.any followsAField := by
    cases given with
    | raw => simp [aspectTokens, followsAField, isOp]
    | value => rfl
    | parent => rfl
    | path => rfl
  have notNot : (fieldToken field :: (aspectTokens given ++ operator :: more)).head? ≠ some .not := by
    unfold fieldToken
    split <;> simp
  rw [unary_atom notNot, atom_predicate next, predicate, predicateField_fieldToken next]
  show aspect _ >>= _ = _
  rw [aspect_aspectTokens given (not_colon isOp more)]
  rfl

theorem literalValue_literalToken {value : Value} {tok : Tok} (shown : literalToken value = some tok) :
    literalValue tok = .ok value := by
  cases value with
  | bool b => cases b <;> (cases shown; rfl)
  | int n => cases shown; rfl
  | float f => cases shown; rfl
  | dateTime ms => cases shown; rfl
  | string text =>
      cases shown
      show Except.ok (Value.string (String.ofList text.toList)) = _
      rw [String.ofList_toList]
  | _ => cases shown

end Reading

theorem literal_literalTokens {value : Value} (expressible : Literal value) (rest : List Tok) :
    literal (literalTokens value ++ rest) = .ok (value, rest) := by
  obtain ⟨tok, shown, -⟩ := expressible
  simp [literalTokens, shown, literal, literalValue_literalToken shown, Functor.map, Except.map]

theorem inValues_valueTokens {values : List Value} (expressible : ∀ value ∈ values, Literal value)
    (rest : List Tok) : inValues (valueTokens values ++ .rParen :: rest) = .ok (values, rest) := by
  induction values with
  | nil => rfl
  | cons value values ih =>
      obtain ⟨tok, shown, -⟩ := expressible value (by simp)
      have later := ih fun other member => expressible other (by simp [member])
      have notParen : tok ≠ .rParen := by
        intro same
        subst same
        have read := literalValue_literalToken shown
        cases read
      have split : valueTokens (value :: values) ++ .rParen :: rest =
          .comma :: tok :: (valueTokens values ++ .rParen :: rest) := by
        simp [valueTokens, literalTokens, shown]
      rw [split, inValues.eq_3 _ _ (fun same => notParen same), literalValue_literalToken shown]
      simp [bind, Except.bind, later]

theorem uuidInElement_uuidToken (documented : Documented) (uuid : Uuid) :
    uuidInElement (uuidToken uuid) = .ok uuid := by
  simp [uuidInElement, uuidToken, documented.simple]

theorem uuidInUuids_uuidTokens (documented : Documented) (uuids : List Uuid) (rest : List Tok) :
    uuidInUuids (uuidTokens uuids ++ .rParen :: rest) = .ok (uuids, rest) := by
  fun_induction uuidTokens uuids with
  | case1 => rfl
  | case2 uuid =>
      show uuidInElement (uuidToken uuid) >>= _ = _
      rw [uuidInElement_uuidToken documented]
      rfl
  | case3 uuid next others ih =>
      show uuidInElement (uuidToken uuid) >>= _ = _
      rw [uuidInElement_uuidToken documented]
      simp only [bind, Except.bind, List.append_eq]
      rw [ih]

omit [Externals] [CharClasses] in
theorem splitTerms_term (begun term rest : List Char) (dark : ∀ c ∈ term, isWhitespace c = Bool.false)
    (nonempty : begun ++ term ≠ []) :
    splitTerms begun (term ++ ' ' :: rest) = String.ofList (begun ++ term) :: splitTerms [] rest := by
  induction term generalizing begun with
  | nil =>
      have filled : begun ≠ [] := by simpa using nonempty
      simp [splitTerms, filled, show isWhitespace ' ' = Bool.true from rfl]
  | cons c term ih =>
      have visible : isWhitespace c = Bool.false := dark c (by simp)
      have later := ih (begun ++ [c]) (fun d member => dark d (by simp [member])) (by simp)
      simpa [splitTerms, visible] using later

omit [Externals] [CharClasses] in
theorem splitTerms_termsText {terms : List String} (words : Terms terms) :
    splitTerms [] (termsText terms) = terms := by
  induction terms with
  | nil => rfl
  | cons term terms ih =>
      have word := words term (by simp)
      have later := ih fun other member => words other (by simp [member])
      have split : termsText (term :: terms) = term.toList ++ ' ' :: termsText terms := by
        simp [termsText]
      rw [split, splitTerms_term [] term.toList _ word.2 (by simpa using word.1), later]
      simp

/-! ### Every query -/

omit [CharClasses] in
theorem readsAt_places {query : Query}
    (conjunct : tokens .conjunct query = tokens .operand query ∧
      depth .conjunct query = depth .operand query)
    (alternative : tokens .alternative query = tokens .conjunct query ∧
      depth .alternative query = depth .conjunct query)
    (reads : ∀ levels, ReadsAt levels .operand query) (levels : Nat) (place : Place) :
    ReadsAt levels place query := by
  have atConjunct := readsAt_conjunct conjunct.1 conjunct.2 (reads levels)
  cases place with
  | operand => exact reads levels
  | conjunct => exact atConjunct
  | alternative => exact readsAt_alternative alternative.1 alternative.2 atConjunct

omit [CharClasses] in
/-- A query of no further nesting is read as it stands. -/
theorem readsAt_flat {query : Query} (flat : depth .operand query = 0) (folded : fold query = query)
    (reads : ∀ levels rest, Ends .operand rest →
      unary levels (tokens .operand query ++ rest) = .ok (query, rest)) (levels : Nat) :
    ReadsAt levels .operand query := by
  intro rest ends
  rw [show parserAt levels .operand = unary levels from rfl, reads levels rest ends, flat, folded]
  simp [verdict, Functor.map, Except.map]

omit [CharClasses] in
theorem readsAt_and {operands : List Query} (several : 2 ≤ operands.length)
    (reads : ∀ operand ∈ operands, ∀ levels, ReadsAt levels .operand operand) (levels : Nat) :
    ReadsAt levels .conjunct (.and operands) := by
  intro rest ends
  have nonempty : operands ≠ [] := by
    intro none_
    simp [none_] at several
  have chained := and_reads _ nonempty ends fun operand member => reads operand member levels
  have printed : tokens .conjunct (.and operands) = joined .and (operands.map (tokens .operand)) := by
    simp [tokens, wrap]
  have deep : depth .conjunct (.and operands) ≤ levels ↔
      ∀ operand ∈ operands, depth .operand operand ≤ levels := by
    simp [depth, foldr_max_le]
  rw [show parserAt levels .conjunct = andExpr (unary levels) from rfl, andExpr, printed, chained,
    verdict_congr deep]
  by_cases fits : ∀ operand ∈ operands, depth .operand operand ≤ levels
  · rw [if_pos fits]
    simp only [verdict, if_pos fits, fold, foldAll_eq_map]
    cases operands with
    | nil => exact absurd rfl nonempty
    | cons first rest =>
        cases rest with
        | nil => exact absurd several (by simp)
        | cons second others => rfl
  · rw [if_neg fits]
    simp only [verdict, if_neg fits]
    rfl

omit [CharClasses] in
theorem readsAt_or {operands : List Query} (several : 2 ≤ operands.length)
    (reads : ∀ operand ∈ operands, ∀ levels, ReadsAt levels .conjunct operand) (levels : Nat) :
    ReadsAt levels .alternative (.or operands) := by
  intro rest ends
  have nonempty : operands ≠ [] := by
    intro none_
    simp [none_] at several
  have chained := or_reads _ nonempty ends fun operand member => reads operand member levels
  have printed : tokens .alternative (.or operands) =
      joined .or (operands.map (tokens .conjunct)) := by
    simp [tokens, wrap]
  have deep : depth .alternative (.or operands) ≤ levels ↔
      ∀ operand ∈ operands, depth .conjunct operand ≤ levels := by
    simp [depth, foldr_max_le]
  rw [show parserAt levels .alternative = orExprInner (unary levels) from rfl, orExprInner, printed,
    chained, verdict_congr deep]
  by_cases fits : ∀ operand ∈ operands, depth .conjunct operand ≤ levels
  · rw [if_pos fits]
    simp only [verdict, if_pos fits, fold, foldAll_eq_map]
    cases operands with
    | nil => exact absurd rfl nonempty
    | cons first rest =>
        cases rest with
        | nil => exact absurd several (by simp)
        | cons second others => rfl
  · rw [if_neg fits]
    simp only [verdict, if_neg fits]
    rfl

omit [Externals] [CharClasses] in
theorem ends_not_followsAField {place : Place} {rest : List Tok} (ends : Ends place rest) :
    rest.head?.any followsAField = Bool.false := by
  cases first : rest.head? with
  | none => rfl
  | some tok => rcases ends tok first with rfl | ⟨-, rfl⟩ | ⟨-, rfl⟩ <;> rfl

/-- A query that can be expressed is read off its canonical tokens at any place. -/
theorem readsAt (documented : Documented) {query : Query} (expressible : Expressible query)
    (levels : Nat) (place : Place) : ReadsAt levels place query := by
  induction query using induct generalizing levels place with
  | and operands ih =>
      simp only [Expressible, expressibleAll_iff] at expressible
      have conjunct := readsAt_and expressible.1 fun operand member levels =>
        ih operand member (expressible.2 operand member) levels .operand
      have alternative (levels : Nat) : ReadsAt levels .alternative (.and operands) :=
        readsAt_alternative rfl rfl (conjunct levels)
      cases place with
      | operand => exact readsAt_wrapped rfl rfl alternative
      | conjunct => exact conjunct levels
      | alternative => exact alternative levels
  | or operands ih =>
      simp only [Expressible, expressibleAll_iff] at expressible
      have alternative := readsAt_or expressible.1 fun operand member levels =>
        ih operand member (expressible.2 operand member) levels .conjunct
      have operand (levels : Nat) : ReadsAt levels .operand (.or operands) :=
        readsAt_wrapped rfl rfl alternative
      cases place with
      | operand => exact operand levels
      | conjunct => exact readsAt_conjunct rfl rfl (operand levels)
      | alternative => exact alternative levels
  | not operand ih =>
      refine readsAt_places ⟨rfl, rfl⟩ ⟨rfl, rfl⟩ (fun levels rest ends => ?_) levels place
      show unary levels (.not :: (tokens .operand operand ++ rest)) = _
      rw [unary_eq, unaryOver, if_pos List.head?_cons]
      cases levels with
      | zero => rfl
      | succ levels =>
          have read := ih expressible levels .operand rest ends
          show unary levels (tokens .operand operand ++ rest) >>= _ = _
          rw [show unary levels = parserAt levels .operand from rfl, read]
          have deeper : depth .operand (.not operand) ≤ levels + 1 ↔
              depth .operand operand ≤ levels := by
            simp [depth]
          rw [verdict_congr deeper]
          by_cases fits : depth .operand operand ≤ levels
          · simp only [verdict, if_pos fits, fold]
            rfl
          · simp only [verdict, if_neg fits]
            rfl
  | isPresent field aspect =>
      refine readsAt_places ⟨rfl, rfl⟩ ⟨rfl, rfl⟩ (readsAt_flat rfl rfl fun levels rest ends => ?_)
        levels place
      have read := unary_predicate levels field aspect .is rfl (.present :: rest)
      simp only [tokens, List.cons_append, List.append_assoc, List.nil_append]
      exact read
  | isAbsent field aspect =>
      refine readsAt_places ⟨rfl, rfl⟩ ⟨rfl, rfl⟩ (readsAt_flat rfl rfl fun levels rest ends => ?_)
        levels place
      have read := unary_predicate levels field aspect .is rfl (.absent :: rest)
      simp only [tokens, List.cons_append, List.append_assoc, List.nil_append]
      exact read
  | isUnknown field =>
      refine readsAt_places ⟨rfl, rfl⟩ ⟨rfl, rfl⟩ (readsAt_flat rfl rfl fun levels rest ends => ?_)
        levels place
      exact unary_predicate levels field .raw .is rfl (.unknown :: rest)
  | compare comparison field value aspect =>
      refine readsAt_places ⟨rfl, rfl⟩ ⟨rfl, rfl⟩ (readsAt_flat rfl rfl fun levels rest ends => ?_)
        levels place
      have isOp : isOperator (comparisonToken comparison) := by cases comparison <;> rfl
      have read := unary_predicate levels field aspect _ isOp (literalTokens value ++ rest)
      have literal := literal_literalTokens expressible.2 rest
      have compared : condition (orExpr levels) field aspect
          (comparisonToken comparison :: (literalTokens value ++ rest)) =
            Dsl.comparison comparison field aspect (literalTokens value ++ rest) := by
        cases comparison <;> rfl
      rw [compared, Dsl.comparison, literal] at read
      simp only [tokens, List.cons_append, List.append_assoc]
      exact read
  | isIn field values aspect =>
      refine readsAt_places ⟨rfl, rfl⟩ ⟨rfl, rfl⟩ (readsAt_flat rfl rfl fun levels rest ends => ?_)
        levels place
      have more : (valueTokens values ++ .rParen :: rest).head? ≠ some .colon := by
        cases values with
        | nil => simp [valueTokens]
        | cons value values => simp [valueTokens]
      have aspects := aspect_aspectTokens aspect more
      have read := inValues_valueTokens expressible.2 rest
      have called : unary levels (tokens .operand (.isIn field values aspect) ++ rest) =
          inCall (.ident "in".toList :: .lParen :: fieldToken field ::
            (aspectTokens aspect ++ (valueTokens values ++ .rParen :: rest))) := by
        simp only [tokens, List.cons_append, List.append_assoc, List.nil_append]
        rw [unary_atom (by simp)]
        rfl
      rw [called, inCall]
      show callField "in" _ >>= _ = _
      rw [callField_fieldToken]
      show Dsl.aspect _ >>= _ = _
      rw [aspects]
      show inValues _ >>= _ = _
      rw [read]
      rfl
  | followsPath field text =>
      refine readsAt_places ⟨rfl, rfl⟩ ⟨rfl, rfl⟩ (readsAt_flat rfl rfl fun levels rest ends => ?_)
        levels place
      have read := unary_predicate levels field .raw .arrow rfl (.str text.toList :: rest)
      refine Eq.trans read ?_
      simp [condition, followTarget, bind, Except.bind]
  | follows field query ih =>
      refine readsAt_places ⟨rfl, rfl⟩ ⟨rfl, rfl⟩ (fun levels rest ends => ?_) levels place
      have inner := closed_reads (fun levels => ih expressible.2 levels .alternative) levels rest
      have read := unary_predicate levels field .raw .arrow rfl
        (.lParen :: (tokens .alternative query ++ .rParen :: rest))
      have shown : tokens .operand (.follows field (.condition query)) ++ rest =
          fieldToken field :: (aspectTokens .raw ++ .arrow :: .lParen ::
            (tokens .alternative query ++ .rParen :: rest)) := by
        simp [tokens, targetTokens, aspectTokens]
      rw [show parserAt levels .operand = unary levels from rfl, shown, read]
      simp only [condition, followTarget, inner]
      by_cases fits : depth .alternative query + 1 ≤ levels
      · simp only [verdict, fits, if_true, depth, fold]
        rfl
      · simp only [verdict, fits, if_false, depth]
        rfl
  | followsTransitivePath field text inclusive =>
      refine readsAt_places ⟨rfl, rfl⟩ ⟨rfl, rfl⟩ (readsAt_flat rfl rfl fun levels rest ends => ?_)
        levels place
      cases inclusive with
      | false =>
          have read := unary_predicate levels field .raw .arrowStar rfl
            (.str text.toList :: rest)
          refine Eq.trans read ?_
          simp [condition, followTarget, bind, Except.bind]
      | true =>
          have read := unary_predicate levels field .raw .fatArrowStar rfl
            (.str text.toList :: rest)
          refine Eq.trans read ?_
          simp [condition, followTarget, bind, Except.bind]
  | followsTransitive field query inclusive ih =>
      refine readsAt_places ⟨rfl, rfl⟩ ⟨rfl, rfl⟩ (fun levels rest ends => ?_) levels place
      have inner := closed_reads (fun levels => ih expressible.2 levels .alternative) levels rest
      have isOp : isOperator (if inclusive then .fatArrowStar else .arrowStar) := by
        cases inclusive <;> rfl
      have read := unary_predicate levels field .raw _ isOp
        (.lParen :: (tokens .alternative query ++ .rParen :: rest))
      have shown : tokens .operand (.followsTransitive field (.condition query) inclusive) ++ rest =
          fieldToken field :: (aspectTokens .raw ++
            (if inclusive then .fatArrowStar else .arrowStar) :: .lParen ::
              (tokens .alternative query ++ .rParen :: rest)) := by
        simp [tokens, targetTokens, aspectTokens]
      rw [show parserAt levels .operand = unary levels from rfl, shown, read]
      cases inclusive <;>
        (simp only [if_true, if_false, Bool.false_eq_true, condition, followTarget, inner]
         by_cases fits : depth .alternative query + 1 ≤ levels
         · simp only [verdict, fits, if_true, depth, fold]
           rfl
         · simp only [verdict, fits, if_false, depth]
           rfl)
  | matching field pattern aspect =>
      refine readsAt_places ⟨rfl, rfl⟩ ⟨rfl, rfl⟩ (readsAt_flat rfl rfl fun levels rest ends => ?_)
        levels place
      have read := unary_predicate levels field aspect .matching rfl
        (.str pattern.toList :: rest)
      simp only [tokens, List.cons_append, List.append_assoc, List.nil_append]
      refine Eq.trans read ?_
      simp [condition]
  | osm field terms mode =>
      refine readsAt_places ⟨rfl, rfl⟩ ⟨rfl, rfl⟩ (readsAt_flat rfl rfl fun levels rest ends => ?_)
        levels place
      have split := splitTerms_termsText expressible.2
      have called : unary levels (tokens .operand (.osm field terms mode) ++ rest) =
          osmCall mode (.ident (osmKeyword mode).toList :: .lParen :: fieldToken field :: .comma ::
            .str (termsText terms) :: .rParen :: rest) := by
        simp only [tokens, List.cons_append, List.nil_append]
        rw [unary_atom (by simp)]
        cases mode <;> rfl
      rw [called, osmCall]
      cases mode <;>
        (show callField _ _ >>= _ = _
         rw [callField_fieldToken]
         show Except.ok (Query.osm field (splitTerms [] (termsText terms)) _, rest) = _
         rw [split])
  | sameAs field target ih =>
      refine readsAt_places ⟨rfl, rfl⟩ ⟨rfl, rfl⟩ (fun levels rest ends => ?_) levels place
      have inner := closed_reads (fun levels => ih expressible.2 levels .alternative) levels rest
      have called : unary levels (tokens .operand (.sameAs field target) ++ rest) =
          sameCall (orExpr levels) (.ident "same".toList :: .lParen :: fieldToken field :: .comma ::
            (tokens .alternative target ++ .rParen :: rest)) := by
        rw [show tokens .operand (.sameAs field target) ++ rest = .ident "same".toList :: .lParen ::
          fieldToken field :: .comma :: (tokens .alternative target ++ .rParen :: rest) by simp [tokens]]
        rw [unary_atom (by simp)]
        rfl
      rw [show parserAt levels .operand = unary levels from rfl, called, sameCall]
      show callField _ _ >>= _ = _
      rw [callField_fieldToken]
      show closed _ _ >>= _ = _
      rw [inner]
      by_cases fits : depth .alternative target + 1 ≤ levels
      · simp only [verdict, fits, if_true, depth, fold]
        rfl
      · simp only [verdict, fits, if_false, depth]
        rfl
  | uuidIn uuids =>
      refine readsAt_places ⟨rfl, rfl⟩ ⟨rfl, rfl⟩ (readsAt_flat rfl rfl fun levels rest ends => ?_)
        levels place
      unfold tokens
      split
      · next uuid =>
          have next := ends_not_followsAField ends
          have found : peekUuidAtom (uuidToken uuid :: rest) = some uuid := by
            simp [peekUuidAtom, uuidToken, next, documented.simple]
          show unary levels (uuidToken uuid :: rest) = _
          rw [unary_atom (by simp [uuidToken])]
          have notCall (name : String) : peekCall name (uuidToken uuid :: rest) = Bool.false := rfl
          have notParen : (uuidToken uuid :: rest).head? ≠ some .lParen := by simp [uuidToken]
          simp only [atom, notCall, notParen, found, Bool.false_eq_true, if_false]
          rfl
      · have read := uuidInUuids_uuidTokens documented uuids rest
        have called : unary levels (.ident "uuid_in".toList :: .lParen ::
            (uuidTokens uuids ++ .rParen :: rest)) =
              uuidInCall (.ident "uuid_in".toList :: .lParen :: (uuidTokens uuids ++ .rParen :: rest)) := by
          rw [unary_atom (by simp)]
          rfl
        simp only [List.cons_append, List.append_assoc, List.nil_append]
        rw [called, uuidInCall]
        show uuidInUuids _ >>= _ = _
        rw [read]
        rfl

end Query

end Metafolder
