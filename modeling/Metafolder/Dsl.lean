import Metafolder.Convert
import Metafolder.Parsing
import Metafolder.Query

/-!
# The query DSL

The lexer that cuts a text into tokens and the recursive-descent parser that reads a query off
them.  Nesting is bounded: the parser is given the number of levels left.
-/

namespace Metafolder

/-- The classes of characters the lexer asks the standard library for. -/
class CharClasses where
  /-- `char::is_alphabetic`. -/
  isAlphabetic : Char → Bool
  /-- `char::is_numeric`. -/
  isNumeric : Char → Bool

namespace Dsl

open Parsing

variable [Externals] [CharClasses]

/-- `char::is_alphanumeric`. -/
def isAlphanumeric (c : Char) : Bool := CharClasses.isAlphabetic c || CharClasses.isNumeric c

/-- `char::is_ascii_hexdigit`. -/
def isAsciiHexdigit (c : Char) : Bool :=
  c.isDigit || ('a' ≤ c && c ≤ 'f') || ('A' ≤ c && c ≤ 'F')

/-! ### Tokens -/

/-- `Tok`. -/
inductive Tok
  | lParen
  | rParen
  | comma
  | colon
  | arrow
  | arrowStar
  | fatArrowStar
  | hex (text : List Char)
  | eq
  | neq
  | lt
  | lte
  | gt
  | gte
  | str (text : List Char)
  | int (n : Int64)
  | float (f : F64)
  | dateTime (ms : Int64)
  | ident (name : List Char)
  | and
  | or
  | not
  | is
  | present
  | absent
  | unknown
  | matching
  | true
  | false
deriving DecidableEq

/-- `describe`. -/
def describe : Tok → String
  | .lParen => "'('"
  | .rParen => "')'"
  | .comma => "','"
  | .colon => "':'"
  | .arrow => "'->'"
  | .arrowStar => "'->*'"
  | .fatArrowStar => "'=>*'"
  | .eq => "'='"
  | .neq => "'!='"
  | .lt => "'<'"
  | .lte => "'<='"
  | .gt => "'>'"
  | .gte => "'>='"
  | .str text => s!"string \"{String.ofList text}\""
  | .int n => s!"number {n}"
  | .float f => s!"number {Externals.showFloat f}"
  | .dateTime ms => s!"datetime {ms}"
  | .ident name => s!"identifier '{String.ofList name}'"
  | .hex text => s!"UUID {String.ofList text}"
  | .and => "'AND'"
  | .or => "'OR'"
  | .not => "'NOT'"
  | .is => "'IS'"
  | .present => "'PRESENT'"
  | .absent => "'ABSENT'"
  | .unknown => "'UNKNOWN'"
  | .matching => "'MATCHES'"
  | .true => "'true'"
  | .false => "'false'"

/-! ### Lexer -/

/-- `TRUNCATED_UUID_MIN`. -/
def truncatedUuidMin : Nat := 8

/-- `truncated_uuid_error`. -/
def truncatedUuidError (text : List Char) : String :=
  s!"'{String.ofList text}' looks like a truncated UUID ({text.length} hex characters, expected 32)"

/-- `looks_like_truncated_uuid`. -/
def looksLikeTruncatedUuid (text : List Char) : Bool :=
  truncatedUuidMin ≤ text.length && text.length ≠ 32 && text.all isAsciiHexdigit

/-- `lex_string`, after the opening quote: the text and what follows the closing one. -/
def lexString : List Char → Except String (List Char × List Char)
  | [] => .error "unterminated string literal"
  | c :: rest =>
      if c = '"' then .ok ([], rest)
      else if c = '\\' then
        match rest with
        | [] => .error "unterminated string literal"
        | escaped :: rest =>
            -- Any other escape keeps its backslash.
            let out := if escaped = '"' ∨ escaped = '\\' then [escaped] else ['\\', escaped]
            (fun read => (out ++ read.1, read.2)) <$> lexString rest
      else (fun read => (c :: read.1, read.2)) <$> lexString rest

/-- Whether a word goes on with a character. -/
def isWordChar (c : Char) : Bool := isAlphanumeric c || c = '_'

/-- `lex_hex_run`: a run of exactly 32 hexadecimal digits, nothing where the number and word
branches are to read the input, or the report of a half-pasted uuid. -/
def lexHexRun (chars : List Char) : Except String (Option (Tok × List Char)) :=
  let text := chars.takeWhile isAsciiHexdigit
  let rest := chars.dropWhile isAsciiHexdigit
  if rest.head?.any isWordChar then .ok none
  else if text.length = 32 then .ok (some (.hex text, rest))
  else
    let dashed := chars.take 36
    match (if rest.head? = some '-' then Externals.parseUuid (String.ofList dashed) else none) with
    | some uuid =>
        .error s!"'{String.ofList dashed}' is a hyphenated UUID, which is not query syntax: write it as {uuid.simple}"
    | none =>
        if text.head?.any Char.isDigit && text.any Char.isAlpha && truncatedUuidMin ≤ text.length then
          .error (truncatedUuidError text)
        else .ok none

/-- The number whose whole part is `whole`, with its fraction where it has one. -/
def lexFraction (whole : List Char) : List Char → Except String (Tok × List Char)
  | '.' :: rest =>
      let text := whole ++ '.' :: rest.takeWhile Char.isDigit
      match Externals.parseFloat (String.ofList text) with
      | some f => .ok (.float f, rest.dropWhile Char.isDigit)
      | none => .error s!"invalid number: '{String.ofList text}'"
  | rest =>
      match parseInt64 whole with
      | some n => .ok (.int n, rest)
      | none => .error s!"invalid number: '{String.ofList whole}'"

/-- `lex_number`. -/
def lexNumber (chars : List Char) : Except String (Tok × List Char) :=
  let (sign, unsigned) := if chars.head? = some '-' then (['-'], chars.drop 1) else ([], chars)
  lexFraction (sign ++ unsigned.takeWhile Char.isDigit) (unsigned.dropWhile Char.isDigit)

/-- The token of a word: a keyword or an identifier. -/
def wordToken (word : List Char) : Tok :=
  if word = "AND".toList then .and
  else if word = "OR".toList then .or
  else if word = "NOT".toList then .not
  else if word = "IS".toList then .is
  else if word = "PRESENT".toList then .present
  else if word = "ABSENT".toList then .absent
  else if word = "UNKNOWN".toList then .unknown
  else if word = "MATCHES".toList then .matching
  else if word = "true".toList then .true
  else if word = "false".toList then .false
  else .ident word

/-- `lex_word`. -/
def lexWord (chars : List Char) : Tok × List Char :=
  (wordToken (chars.takeWhile isWordChar), chars.dropWhile isWordChar)

/-- The token that starts at `@`. -/
def lexDateTime (rest : List Char) : Except String (Tok × List Char) :=
  match rest with
  | '"' :: inside => do
      let (s, rest) ← lexString inside
      match isoToMs s with
      | some ms => .ok (.dateTime ms, rest)
      | none => .error s!"invalid datetime literal: '{String.ofList s}'"
  | _ =>
      if rest.head?.any Char.isDigit ∨
          (rest.head? = some '-' ∧ (rest.drop 1).head?.any Char.isDigit) then do
        match ← lexNumber rest with
        | (.int ms, rest) => .ok (.dateTime ms, rest)
        | _ => .error "datetime literal '@<ms>' must be an integer"
      else .error "expected a quoted datetime or milliseconds after '@'"

/-- A token found without fail, and what follows it. -/
abbrev Found := Except String (Option Tok × List Char)

/-- The token that starts at `=`: `=>*` by maximal munch, and `=>` without the star is refused. -/
def lexEquals : List Char → Found
  | '>' :: '*' :: rest => .ok (some .fatArrowStar, rest)
  | '>' :: _ => .error "expected '*' after '=>' (the inclusive arrow is '=>*')"
  | rest => .ok (some .eq, rest)

/-- The token that starts at `!`. -/
def lexBang : List Char → Found
  | '=' :: rest => .ok (some .neq, rest)
  | _ => .error "expected '=' after '!'"

/-- The token that starts at `<`. -/
def lexLess : List Char → Found
  | '=' :: rest => .ok (some .lte, rest)
  | rest => .ok (some .lt, rest)

/-- The token that starts at `>`. -/
def lexGreater : List Char → Found
  | '=' :: rest => .ok (some .gte, rest)
  | rest => .ok (some .gt, rest)

/-- A token and what follows it, as the lexer's loop takes them. -/
def found (read : Except String (Tok × List Char)) : Found :=
  (fun read => (some read.1, read.2)) <$> read

/-- The token that starts at `-`. -/
def lexDash : List Char → Found
  | '>' :: '*' :: rest => .ok (some .arrowStar, rest)
  | '>' :: rest => .ok (some .arrow, rest)
  | rest =>
      if rest.head?.any Char.isDigit then found (lexNumber ('-' :: rest))
      else .error "expected '>' or a digit after '-'"

/-- The token at the front of the text, past the hexadecimal runs: white space is none. -/
def lexSymbol (c : Char) (rest : List Char) : Found :=
  if isWhitespace c then .ok (none, rest)
  else if c = '(' then .ok (some .lParen, rest)
  else if c = ')' then .ok (some .rParen, rest)
  else if c = ',' then .ok (some .comma, rest)
  else if c = ':' then .ok (some .colon, rest)
  else if c = '=' then lexEquals rest
  else if c = '!' then lexBang rest
  else if c = '<' then lexLess rest
  else if c = '>' then lexGreater rest
  else if c = '-' then lexDash rest
  else if c = '"' then found ((fun read => (.str read.1, read.2)) <$> lexString rest)
  else if c = '@' then found (lexDateTime rest)
  else if c.isDigit then found (lexNumber (c :: rest))
  else if CharClasses.isAlphabetic c || c = '_' then found (.ok (lexWord (c :: rest)))
  else .error s!"unexpected character '{c}'"

/-- One round of the lexer's loop. -/
def lexStep (c : Char) (rest : List Char) : Found := do
  match ← (if isAsciiHexdigit c then lexHexRun (c :: rest) else .ok none) with
  | some (tok, rest) => .ok (some tok, rest)
  | none => lexSymbol c rest

/-- The loop of `lex`, for as many rounds as there are characters. -/
def lexLoop : Nat → List Char → Except String (List Tok)
  | _, [] => .ok []
  | 0, _ :: _ => .ok []
  | rounds + 1, c :: rest => do
      let (tok, rest) ← lexStep c rest
      (fun toks => tok.toList ++ toks) <$> lexLoop rounds rest

/-- `lex`. -/
def lex (input : List Char) : Except String (List Tok) := lexLoop input.length input

/-! ### Parser -/

/-- `MAX_DEPTH`. -/
def MAX_DEPTH : Nat := 128

/-- The refusal of a query nested too deeply. -/
def tooDeep : String := s!"query too deeply nested (maximum {MAX_DEPTH} levels)"

/-- `is_operator`. -/
def isOperator : Tok → Bool
  | .is | .eq | .neq | .lt | .lte | .gt | .gte | .matching | .arrow | .arrowStar | .fatArrowStar =>
      Bool.true
  | _ => Bool.false

/-- `follows_a_field`. -/
def followsAField (tok : Tok) : Bool := isOperator tok || tok = .colon

/-- `aspect_from_name`. -/
def aspectFromName (name : List Char) : Option Aspect :=
  if name = "raw".toList then some .raw
  else if name = "value".toList then some .value
  else if name = "parent".toList then some .parent
  else if name = "path".toList then some .path
  else none

/-- `unknown_aspect_error`. -/
def unknownAspectError (name : List Char) : String :=
  s!"unknown aspect ':{String.ofList name}' (expected :raw, :value, :parent or :path)"

/-- What reads a value off the tokens. -/
abbrev Parse (α : Type) := Parser Tok String α

/-- `expect`. -/
def expect (expected : Tok) : List Tok → Except String (List Tok)
  | tok :: rest =>
      if tok = expected then .ok rest
      else .error s!"expected {describe expected}, got {describe tok}"
  | [] => .error s!"expected {describe expected}, got end of input"

/-- `split_terms`, the term being read kept apart. -/
def splitTerms : List Char → List Char → List String
  | term, [] => if term = [] then [] else [String.ofList term]
  | term, c :: rest =>
      if isWhitespace c then
        if term = [] then splitTerms [] rest else String.ofList term :: splitTerms [] rest
      else splitTerms (term ++ [c]) rest

/-- The value of a literal token. -/
def literalValue : Tok → Except String Value
  | .int n => .ok (.int n)
  | .float f => .ok (.float f)
  | .dateTime ms => .ok (.dateTime ms)
  | .str s => .ok (.string (String.ofList s))
  | .true => .ok (.bool Bool.true)
  | .false => .ok (.bool Bool.false)
  | .hex text =>
      .error s!"a UUID is not a value literal; to match a reference to it write 'field -> ({String.ofList text})'"
  | tok => .error s!"expected a literal value, got {describe tok}"

/-- `literal`. -/
def literal : Parse Value
  | tok :: rest => (fun value => (value, rest)) <$> literalValue tok
  | [] => .error "expected a literal value, got end of input"

/-- The field name a call starts with. -/
def callField (call : String) : Parse String
  | .ident name :: rest => .ok (String.ofList name, rest)
  | .hex text :: rest => .ok (String.ofList text, rest)
  | tok :: _ => .error s!"expected a field name in {call}(...), got {describe tok}"
  | [] => .error s!"expected a field name in {call}(...)"

/-- `aspect`. -/
def aspect : Parse Aspect
  | .colon :: .ident name :: rest =>
      match aspectFromName name with
      | some aspect => .ok (aspect, rest)
      | none => .error (unknownAspectError name)
  | .colon :: tok :: _ =>
      .error s!"expected an aspect name after ':', got {describe tok} (expected :raw, :value, :parent or :path)"
  | [.colon] => .error "expected an aspect name after ':'"
  | toks => .ok (.raw, toks)

/-- The literals of `in_call`, each after a comma; the last comma may be followed by none. -/
def inValues : List Tok → Except String (List Value × List Tok)
  | .rParen :: rest => .ok ([], rest)
  | .comma :: .rParen :: rest => .ok ([], rest)
  | .comma :: tok :: rest => do
      let value ← literalValue tok
      let (values, rest) ← inValues rest
      .ok (value :: values, rest)
  | [.comma] => .error "expected a literal value, got end of input"
  | tok :: _ => .error s!"expected ',' or ')' in in(...), got {describe tok}"
  | [] => .error "expected ',' or ')' in in(...)"

/-- `in_call`. -/
def inCall (toks : List Tok) : Except String (Query × List Tok) := do
  let rest ← expect .lParen (toks.drop 1)
  let (field, rest) ← callField "in" rest
  let (aspect, rest) ← aspect rest
  let (values, rest) ← inValues rest
  .ok (.isIn field values aspect, rest)

/-- `uuid_in_element`, of a token. -/
def uuidInElement (tok : Tok) : Except String Uuid :=
  match tok with
  | .hex text =>
      match Externals.parseUuid (String.ofList text) with
      | some uuid => .ok uuid
      | none => .error (truncatedUuidError text)
  | .ident name =>
      if looksLikeTruncatedUuid name then .error (truncatedUuidError name)
      else .error s!"expected a UUID in uuid_in(...), got {describe tok}"
  | .str s =>
      match Externals.parseUuid (String.ofList s) with
      | some uuid => .error s!"a quoted string is not a UUID: write it unquoted ({uuid.simple})"
      | none => .error s!"expected a UUID in uuid_in(...), got {describe tok}"
  | _ => .error s!"expected a UUID in uuid_in(...), got {describe tok}"

/-- The uuids of `uuid_in_call`, with a comma between them or after the last one too. -/
def uuidInUuids : List Tok → Except String (List Uuid × List Tok)
  | .rParen :: rest => .ok ([], rest)
  | tok :: .comma :: rest => do
      let uuid ← uuidInElement tok
      let (uuids, rest) ← uuidInUuids rest
      .ok (uuid :: uuids, rest)
  | tok :: .rParen :: rest => do
      let uuid ← uuidInElement tok
      .ok ([uuid], rest)
  | tok :: other :: _ => do
      let _ ← uuidInElement tok
      .error s!"expected ',' or ')' in uuid_in(...), got {describe other}"
  | [tok] => do
      let _ ← uuidInElement tok
      .error "expected ',' or ')' in uuid_in(...)"
  | [] => .error "expected a UUID in uuid_in(...)"

/-- `uuid_in_call`. -/
def uuidInCall (toks : List Tok) : Except String (Query × List Tok) := do
  let rest ← expect .lParen (toks.drop 1)
  let (uuids, rest) ← uuidInUuids rest
  .ok (.uuidIn uuids, rest)

/-- The name of a call of ordered substring matching. -/
def osmKeyword : OsmMode → String
  | .path => "osm"
  | .direct => "osmd"

/-- The aspect a call of ordered substring matching reads. -/
def osmAspect : OsmMode → Aspect
  | .path => .path
  | .direct => .value

/-- The refusal of an aspect that contradicts the operator. -/
def osmMisread (mode : OsmMode) (given : Aspect) : String :=
  let kw := osmKeyword mode
  let name := match given with
    | .value => "value"
    | .parent => "parent"
    | .path => "path"
    | .raw => "raw"
  let reads := if mode = .path then "path" else "value"
  let other := if mode = .path then "osmd" else "osm"
  s!"{kw}(...) reads the {reads} aspect; drop ':{name}' or use {other}"

/-- The terms of `osm_call`. -/
def osmTerms (mode : OsmMode) (field : String) : Parse Query
  | .str s :: rest => do
      let rest ← expect .rParen rest
      .ok (.osm field (splitTerms [] s) mode, rest)
  | tok :: _ =>
      .error s!"expected a quoted string of terms in {osmKeyword mode}(...), got {describe tok}"
  | [] => .error s!"expected a quoted string of terms in {osmKeyword mode}(...)"

/-- `osm_call`. -/
def osmCall (mode : OsmMode) (toks : List Tok) : Except String (Query × List Tok) := do
  let rest ← expect .lParen (toks.drop 1)
  let (field, rest) ← callField (osmKeyword mode) rest
  let (given, rest) ← aspect rest
  if given = .raw ∨ given = osmAspect mode then do
    let rest ← expect .comma rest
    osmTerms mode field rest
  else .error (osmMisread mode given)

section Nested

-- What reads a query one level down: `or_expr`, or its refusal.
variable (orExpr : Parse Query)

/-- A sub-query and the parenthesis that closes it. -/
def closed (toks : List Tok) : Except String (Query × List Tok) := do
  let (query, rest) ← orExpr toks
  let rest ← expect .rParen rest
  .ok (query, rest)

/-- `same_call`. -/
def sameCall (toks : List Tok) : Except String (Query × List Tok) := do
  let rest ← expect .lParen (toks.drop 1)
  let (field, rest) ← callField "same" rest
  let rest ← expect .comma rest
  let (target, rest) ← closed orExpr rest
  .ok (.sameAs field target, rest)

/-- The right-hand side of a traversal (`transitive`, and the same of `->`). -/
def followTarget (arrow : String) : Parse FollowTarget
  | .str path :: rest => .ok (.path (String.ofList path), rest)
  | .lParen :: rest => do
      let (sub, rest) ← closed orExpr rest
      .ok (.condition sub, rest)
  | tok :: _ =>
      .error s!"expected a path string or a parenthesized query after '{arrow}', got {describe tok}"
  | [] => .error s!"expected a path string or a parenthesized query after '{arrow}'"

/-- The field name a predicate starts with. -/
def predicateField : Parse String
  | .ident name :: rest =>
      if looksLikeTruncatedUuid name && !rest.head?.any followsAField then
        .error (truncatedUuidError name)
      else .ok (String.ofList name, rest)
  | .hex text :: rest => .ok (String.ofList text, rest)
  | tok :: _ =>
      match tok with
      | .str s =>
          match Externals.parseUuid (String.ofList s) with
          | some uuid =>
              .error s!"a quoted string is not a query: write the UUID unquoted ({uuid.simple})"
          | none => .error s!"expected a field name, got {describe tok}"
      | _ => .error s!"expected a field name, got {describe tok}"
  | [] => .error "expected a field name, got end of input"

/-- A comparison with the literal that follows its operator. -/
def comparison (operator : Comparison) (field : String) (aspect : Aspect) (toks : List Tok) :
    Except String (Query × List Tok) := do
  let (value, rest) ← literal toks
  .ok (.compare operator field value aspect, rest)

/-- What follows the field and the aspect of a predicate. -/
def condition (field : String) (aspect : Aspect) : Parse Query
  | .is :: .present :: rest => .ok (.isPresent field aspect, rest)
  | .is :: .absent :: rest => .ok (.isAbsent field aspect, rest)
  | .is :: .unknown :: rest =>
      if aspect ≠ .raw then
        .error "IS UNKNOWN takes no aspect: it asks whether the field exists at all"
      else .ok (.isUnknown field, rest)
  | .is :: tok :: _ => .error s!"expected PRESENT, ABSENT or UNKNOWN after IS, got {describe tok}"
  | [.is] => .error "expected PRESENT, ABSENT or UNKNOWN after IS"
  | .eq :: rest => comparison .eq field aspect rest
  | .neq :: rest => comparison .neq field aspect rest
  | .lt :: rest => comparison .lt field aspect rest
  | .lte :: rest => comparison .lte field aspect rest
  | .gt :: rest => comparison .gt field aspect rest
  | .gte :: rest => comparison .gte field aspect rest
  | .matching :: .str pattern :: rest => .ok (.matching field (String.ofList pattern) aspect, rest)
  | .matching :: tok :: _ => .error s!"expected a string after MATCHES, got {describe tok}"
  | [.matching] => .error "expected a string after MATCHES"
  | .arrow :: rest =>
      if aspect ≠ .raw then .error s!"{describe .arrow} takes no aspect on its left-hand field"
      else do
        let (target, rest) ← followTarget orExpr "->" rest
        .ok (.follows field target, rest)
  | .arrowStar :: rest =>
      if aspect ≠ .raw then .error s!"{describe .arrowStar} takes no aspect on its left-hand field"
      else do
        let (target, rest) ← followTarget orExpr "->*" rest
        .ok (.followsTransitive field target Bool.false, rest)
  | .fatArrowStar :: rest =>
      if aspect ≠ .raw then
        .error s!"{describe .fatArrowStar} takes no aspect on its left-hand field"
      else do
        let (target, rest) ← followTarget orExpr "=>*" rest
        .ok (.followsTransitive field target Bool.true, rest)
  | tok :: _ => .error s!"expected an operator after field '{field}', got {describe tok}"
  | [] => .error s!"expected an operator after field '{field}'"

/-- `predicate`. -/
def predicate (toks : List Tok) : Except String (Query × List Tok) := do
  let (field, rest) ← predicateField toks
  let (aspect, rest) ← aspect rest
  condition orExpr field aspect rest

/-- Whether a call of a name starts here (`peek_same_call` and its like). -/
def peekCall (name : String) : List Tok → Bool
  | .ident word :: .lParen :: _ => word = name.toList
  | _ => Bool.false

/-- `peek_uuid_atom`. -/
def peekUuidAtom : List Tok → Option Uuid
  | .hex text :: rest =>
      if rest.head?.any followsAField then none else Externals.parseUuid (String.ofList text)
  | _ => none

/-- `atom`. -/
def atom (toks : List Tok) : Except String (Query × List Tok) :=
  if toks.head? = some .lParen then closed orExpr (toks.drop 1)
  else if peekCall "osm" toks then osmCall .path toks
  else if peekCall "osmd" toks then osmCall .direct toks
  else if peekCall "same" toks then sameCall orExpr toks
  else if peekCall "uuid_in" toks then uuidInCall toks
  else if peekCall "in" toks then inCall toks
  else
    match peekUuidAtom toks with
    | some uuid => .ok (.uuidIn [uuid], toks.drop 1)
    | none => predicate orExpr toks

end Nested

/-- `and_expr`, over what reads its operands. -/
def andExpr (unary : Parse Query) (toks : List Tok) : Except String (Query × List Tok) := do
  let (operands, rest) ← chain .and unary toks.length toks
  match operands with
  | [operand] => .ok (operand, rest)
  | _ => .ok (.and operands, rest)

/-- `or_expr_inner`, over what reads the operands of its operands. -/
def orExprInner (unary : Parse Query) (toks : List Tok) : Except String (Query × List Tok) := do
  let (operands, rest) ← chain .or (andExpr unary) toks.length toks
  match operands with
  | [operand] => .ok (operand, rest)
  | _ => .ok (.alternatives operands, rest)

/-- `nested`: one level down, or the refusal where there is none left. -/
def nested (parse : Nat → Parse Query) : Nat → Parse Query
  | 0 => fun _ => .error tooDeep
  | levels + 1 => parse levels

/-- `unary`, over what reads the operand of a `NOT` and what reads a sub-query. -/
def unaryOver (operand orExpr : Parse Query) (toks : List Tok) : Except String (Query × List Tok) :=
  if toks.head? = some .not then do
    let (operand, rest) ← operand (toks.drop 1)
    .ok (.not operand, rest)
  else atom orExpr toks

/-- `unary`, with a number of levels left. -/
def unary : Nat → Parse Query
  | 0 => unaryOver (fun _ => .error tooDeep) fun _ => .error tooDeep
  | levels + 1 => unaryOver (unary levels) (orExprInner (unary levels))

/-- `or_expr`, with a number of levels left. -/
def orExpr : Nat → Parse Query := nested fun levels => orExprInner (unary levels)

/-- `parse_query` with a bound on the nesting. -/
def parseQueryWithin (limit : Nat) (input : List Char) : Except String Query := do
  let tokens ← lex input
  let (query, rest) ← orExpr limit tokens
  match rest with
  | [] => .ok query
  | tok :: _ => .error s!"unexpected trailing input: {describe tok}"

/-- `parse_query`. -/
def parseQuery (input : List Char) : Except String Query := parseQueryWithin MAX_DEPTH input

end Dsl

end Metafolder
