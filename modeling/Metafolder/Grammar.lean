import Metafolder.Outcome

/-!
# The grammar of the simplified language

A grammar is a list of productions.  It is run over the tokens of an input, the first alternative
that matches being taken, and each production renders its template.  Loading a grammar checks it: its
rules exist, its literals are tokens, its templates parse, and it is not left-recursive.
-/

namespace Metafolder

namespace Simplified

/-- `TokKind`. -/
inductive TokKind
  | word
  | number
  | str
  | symbol
  | uuid
  | lParen
  | rParen
deriving DecidableEq

/-- `Tok`: a token, with the text it was read from. -/
structure Tok where
  /-- Its category. -/
  kind : TokKind
  /-- Its text. -/
  text : String
deriving DecidableEq

/-- `RepeatKind`. -/
inductive RepeatKind
  | star
  | plus
  | opt
deriving DecidableEq

mutual

/-- `Expr`: a pattern. -/
inductive Expr
  /-- A token of this text. -/
  | lit (text : String)
  /-- A token of this category. -/
  | ofClass (kind : TokKind)
  /-- Another production. -/
  | rule (name : String)
  /-- The first of some sequences that matches. -/
  | group (seqs : Seqs)
  /-- A repetition, its elements separated or not. -/
  | repetition (inner : Expr) (kind : RepeatKind) (sep : Sep)

/-- The separator of a repetition, if it has one. -/
inductive Sep
  | none
  | expr (expr : Expr)

/-- `Vec<Item>`: a sequence of patterns, each with the label it is captured under. -/
inductive Seq
  | nil
  | item (label : Option String) (expr : Expr) (rest : Seq)

/-- `Vec<Vec<Item>>`: sequences to be tried in order. -/
inductive Seqs
  | nil
  | cons (seq : Seq) (rest : Seqs)

end

/-- `Alt`: a sequence, and the template of what it renders. -/
structure Alt where
  /-- The sequence. -/
  seq : Seq
  /-- The template, unless the matched text is rendered as it is. -/
  template : Option String

/-- `Production`. -/
structure Production where
  /-- Its name. -/
  name : String
  /-- Its alternatives. -/
  alts : List Alt

/-- `Grammar`. -/
structure Grammar where
  /-- Its productions. -/
  productions : List Production

/-- `Capture`. -/
inductive Capture
  | text (text : String)
  | list (texts : List String)

/-- `Captures`: what each label holds, the latest first. -/
abbrev Captures : Type := List (String × Capture)

/-- What the interpreter reads its input and its templates with. -/
structure Notation (Template : Type) where
  /-- `lex`. -/
  lex : String → Except String (List Tok)
  /-- `parse_template`. -/
  parseTemplate : String → Except String Template
  /-- `render`, at the time of the expansion. -/
  render : Template → Captures → Except String String

/-! ### Matching -/

/-- A production entered at a token. -/
abbrev Call : Type := String × Nat

/-- What a match gives, and the productions it entered on the way. -/
structure Traced (α : Type) where
  /-- The productions entered. -/
  calls : List Call
  /-- What it gives. -/
  result : Except String α

namespace Traced

/-- `Ok`. -/
def ok {α : Type} (value : α) : Traced α := ⟨[], .ok value⟩

/-- One match after another: an error ends it. -/
def andThen {α β : Type} (first : Traced α) (next : α → Traced β) : Traced β :=
  match first.result with
  | .error failure => ⟨first.calls, .error failure⟩
  | .ok value => ⟨first.calls ++ (next value).calls, (next value).result⟩

instance : Monad Traced where
  pure := ok
  bind := andThen

/-- What enters no production. -/
def lift {α : Type} (result : Except String α) : Traced α := ⟨[], result⟩

end Traced

/-- How productions are entered: what one renders and the token after it, if it matches. -/
abbrev Enter : Type := String → Nat → Except String (Option (String × Nat))

/-- A match of a pattern: its capture, those inside it, and the token after it. -/
abbrev Matched : Type := Option (Capture × Captures × Nat)

/-- `raw_text`. -/
def rawText (tokens : List Tok) (pos next : Nat) : String :=
  " ".intercalate (((tokens.take next).drop pos).map Tok.text)

/-- `push_value`. -/
def pushValue (list : List String) : Capture → List String
  | .text text => list ++ [text]
  | .list texts => list ++ texts

/-- A capture under its label, if it has one. -/
def captured (label : Option String) (value : Capture) (caps : Captures) : Captures :=
  match label with
  | none => caps
  | some label => (label, value) :: caps

/-- The token at a place, if it meets a condition, as a match. -/
def matchTok (tokens : List Tok) (pos : Nat) (meets : Tok → Bool) : Matched :=
  match tokens[pos]? with
  | none => none
  | some tok => if meets tok then some (.text tok.text, [], pos + 1) else none

/-- Where the next element of a repetition begins, if its separator matches. -/
def elementAt (sep : Option (Nat → Traced Matched)) (pos : Nat) : Traced (Option Nat) :=
  match sep with
  | none => pure (some pos)
  | some sep => do
      let separator ← sep pos
      pure (separator.map fun held => held.2.2)

/-- `match_repeat`, the elements after the first.  An element must take a token, so that there are no
more of them than tokens. -/
def repeatLoop (inner : Nat → Traced Matched) (sep : Option (Nat → Traced Matched)) :
    Nat → List String → Captures → Nat → Traced Matched
  | 0, list, subcaps, pos => pure (some (.list list, subcaps, pos))
  | fuel + 1, list, subcaps, pos => do
      match ← elementAt sep pos with
      | none => pure (some (.list list, subcaps, pos))
      | some element =>
          match ← inner element with
          | none => pure (some (.list list, subcaps, pos))
          | some (value, sub, next) =>
              if element < next then
                repeatLoop inner sep fuel (pushValue list value) (sub ++ subcaps) next
              else pure (some (.list list, subcaps, pos))

section Matching

variable (tokens : List Tok) (enter : Enter)

mutual

/-- `match_expr`. -/
def matchExpr : Expr → Nat → Traced Matched
  | .lit text, pos => pure (matchTok tokens pos fun tok => tok.text = text)
  | .ofClass kind, pos => pure (matchTok tokens pos fun tok => tok.kind = kind)
  | .rule name, pos => do
      let entered ← ⟨[(name, pos)], enter name pos⟩
      pure (entered.map fun held => (.text held.1, [], held.2))
  | .group seqs, pos => matchSeqs seqs pos
  | .repetition inner kind sep, pos => do
      match ← matchExpr inner pos with
      | none => pure (if kind = .plus then none else some (.list [], [], pos))
      | some (value, sub, next) =>
          if kind = .opt then pure (some (.list (pushValue [] value), sub, next))
          else
            repeatLoop (matchExpr inner) (matchSep sep) (tokens.length + 1) (pushValue [] value)
              sub next

/-- A separator. -/
def matchSep : Sep → Option (Nat → Traced Matched)
  | .none => none
  | .expr expr => some (matchExpr expr)

/-- `match_seq`. -/
def matchSeq : Seq → Captures → Nat → Traced (Option (Captures × Nat))
  | .nil, caps, pos => pure (some (caps, pos))
  | .item label expr rest, caps, pos => do
      match ← matchExpr expr pos with
      | none => pure none
      | some (value, sub, next) => matchSeq rest (captured label value (sub ++ caps)) next

/-- `match_expr`, of the sequences of a group. -/
def matchSeqs : Seqs → Nat → Traced Matched
  | .nil, _ => pure none
  | .cons seq rest, pos => do
      match ← matchSeq seq [] pos with
      | none => matchSeqs rest pos
      | some (caps, next) => pure (some (.text (rawText tokens pos next), caps, next))

end

variable {Template : Type} (reads : Notation Template)

/-- `match_prod`, its alternatives. -/
def matchAlts : List Alt → Nat → Traced (Option (String × Nat))
  | [], _ => pure none
  | alt :: rest, pos => do
      match ← matchSeq tokens enter alt.seq [] pos with
      | none => matchAlts rest pos
      | some (caps, next) =>
          match alt.template with
          | none => pure (some (rawText tokens pos next, next))
          | some src => do
              let template ← Traced.lift (reads.parseTemplate src)
              let out ← Traced.lift (reads.render template caps)
              pure (some (out, next))

variable (grammar : Grammar)

/-- The production of a name. -/
def Grammar.find (name : String) : Option Production :=
  grammar.productions.find? fun prod => prod.name = name

/-- `match_prod`, within the depth. -/
def matchBody (name : String) (pos : Nat) : Traced (Option (String × Nat)) :=
  match grammar.find name with
  | none => Traced.lift (.error s!"unknown production '{name}'")
  | some prod => matchAlts tokens enter reads prod.alts pos

end Matching

/-- `MAX_DEPTH`. -/
def maxDepth : Nat := 256

variable {Template : Type} (reads : Notation Template) (grammar : Grammar) (tokens : List Tok)

/-- `match_prod`, as many levels above the greatest depth. -/
def matchProd : Nat → Enter
  | 0, name, _ => .error s!"recursion limit exceeded at '{name}' (left recursion?)"
  | levels + 1, name, pos => (matchBody tokens (matchProd levels) reads grammar name pos).result

/-- The productions that a production enters itself, as many levels above the greatest depth. -/
def callsOf : Nat → Call → List Call
  | 0, _ => []
  | levels + 1, call =>
      (matchBody tokens (matchProd reads grammar tokens levels) reads grammar call.1 call.2).calls

/-- The productions that are being matched at some moment of an expansion, the innermost first. -/
inductive Active : List Call → Prop
  /-- The start production. -/
  | start : Active [("query", 0)]
  /-- The innermost enters another. -/
  | enter {call inner : Call} {outer : List Call} (active : Active (inner :: outer))
      (enters : call ∈ callsOf reads grammar tokens (maxDepth + 1 - outer.length) inner) :
      Active (call :: inner :: outer)

/-- `expand_at`. -/
def expand (input : String) : Except String String := do
  let tokens ← reads.lex input
  match ← matchProd reads grammar tokens (maxDepth + 1) "query" 0 with
  | none => .error "input does not match the simplified grammar"
  | some (out, next) =>
      match tokens[next]? with
      | none => pure out
      | some tok => .error s!"unexpected trailing input starting at '{tok.text}'"

/-! ### Loading -/

/-- `check_literal`: a literal must be one token, or it never matches. -/
def checkLiteral (prod lit : String) : Except String Unit :=
  match reads.lex lit with
  | .error failure =>
      .error s!"production '{prod}': literal \"{lit}\" is not lexable: {failure}"
  | .ok [_] => .ok ()
  | .ok [] => .error s!"production '{prod}': literal \"{lit}\" cannot match — it is empty or whitespace-only"
  | .ok toks =>
      let pieces := " , ".intercalate (toks.map Tok.text)
      let separate := " ".intercalate (toks.map fun tok => s!"\"{tok.text}\"")
      .error s!"production '{prod}': literal \"{lit}\" cannot match — it tokenizes into {toks.length} tokens ({pieces}); write it as separate literals (e.g. {separate})"

section Checks

variable (prod : String) (names : List String)

mutual

/-- `check_refs_expr`. -/
def checkRefsExpr : Expr → Except String Unit
  | .lit lit => checkLiteral reads prod lit
  | .ofClass _ => .ok ()
  | .rule name =>
      if name ∈ names then .ok ()
      else .error s!"production '{prod}' references unknown rule '{name}'"
  | .group seqs => checkRefsSeqs seqs
  | .repetition inner _ sep => do
      checkRefsExpr inner
      checkRefsSep sep

/-- `check_refs_expr`, of a separator. -/
def checkRefsSep : Sep → Except String Unit
  | .none => .ok ()
  | .expr expr => checkRefsExpr expr

/-- `check_refs`. -/
def checkRefs : Seq → Except String Unit
  | .nil => .ok ()
  | .item _ expr rest => do
      checkRefsExpr expr
      checkRefs rest

/-- `check_refs`, of the sequences of a group. -/
def checkRefsSeqs : Seqs → Except String Unit
  | .nil => .ok ()
  | .cons seq rest => do
      checkRefs seq
      checkRefsSeqs rest

end

end Checks

mutual

/-- `expr_left`: the rules an expression may begin with, and whether it can be skipped. -/
def exprLeft : Expr → List String × Bool
  | .lit _ => ([], false)
  | .ofClass _ => ([], false)
  | .rule name => ([name], false)
  | .group seqs => (leftOfSeqs seqs, false)
  | .repetition inner kind _ => ((exprLeft inner).1, kind = .star ∨ kind = .opt)

/-- `left_rules`. -/
def leftRules : Seq → List String
  | .nil => []
  | .item _ expr rest =>
      if (exprLeft expr).2 then (exprLeft expr).1 ++ leftRules rest else (exprLeft expr).1

/-- `left_rules`, of the sequences of a group. -/
def leftOfSeqs : Seqs → List String
  | .nil => []
  | .cons seq rest => leftRules seq ++ leftOfSeqs rest

end

/-- `edges`: the left rules of each production, of its last one where several share a name. -/
def edges (name : String) : Option (List String) :=
  (grammar.productions.reverse.find? fun prod => prod.name = name).map fun prod =>
    prod.alts.flatMap fun alt => leftRules alt.seq

/-- `dfs`, below productions being visited, of which none is met twice. -/
def dfs (edges : String → Option (List String)) :
    Nat → List String → List String → String → Except String (List String)
  | 0, _, _, node => .error s!"left recursion involving production '{node}'"
  | fuel + 1, gray, done, node =>
      if node ∈ done then .ok done
      else if node ∈ gray then .error s!"left recursion involving production '{node}'"
      else do
        let done ← ((edges node).getD []).foldlM
          (fun done next =>
            if (edges next).isSome then dfs edges fuel (node :: gray) done next else .ok done) done
        .ok (node :: done)

/-- `detect_left_recursion`. -/
def detectLeftRecursion : Except String Unit := do
  let _ ← grammar.productions.foldlM
    (fun done prod => dfs (edges grammar) (grammar.productions.length + 1) [] done prod.name) []
  .ok ()

/-- `validate`: whether a grammar may be loaded. -/
def validate : Except String Unit := do
  let names := grammar.productions.map Production.name
  if "query" ∉ names then .error "grammar has no 'query' start production"
  grammar.productions.forM fun prod => prod.alts.forM fun alt => do
    checkRefs reads prod.name names alt.seq
    match alt.template with
    | none => pure ()
    | some src =>
        match reads.parseTemplate src with
        | .ok _ => pure ()
        | .error failure => .error s!"in production '{prod.name}': {failure}"
  detectLeftRecursion grammar

end Simplified

end Metafolder
