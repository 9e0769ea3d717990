import Metafolder.Comparisons
import Metafolder.Eligibility
import Metafolder.Query
import Metafolder.TextSearches

/-!
# The evaluator

A query is evaluated to the set of the dense ids it matches, within a set of candidates where there
is one.  The operands of an `and` are evaluated in the planner's order, each within what those
before it left, and none once nothing is left.
-/

namespace Metafolder

/-- `Follow`: the traversals a field's values support. -/
inductive Follow
  | none
  | direct
  | tree
deriving DecidableEq

/-- `is_position_type`. -/
def isPositionType (valueType : String) : Bool :=
  valueType = "tree_ref" ∨ valueType = "hierarchy_ref"

/-- The operator of a comparison. -/
def Comparison.op : Comparison → CmpOp
  | .eq => .eq
  | .neq => .neq
  | .lt => .lt
  | .lte => .lte
  | .gt => .gt
  | .gte => .gte

/-! ### What the source is asked -/

namespace KvSource

/-- `follow`. -/
def follow (tx : KvTxn) (field : String) : Option Follow :=
  (valueType tx field).map fun name =>
    if isPositionType name then .tree else if name = "ref" then .direct else .none

/-- `referrers_of`: the ids pointing at a uuid. -/
def referrersOf (tx : KvTxn) (field : String) (target : Uuid) : Finset UInt32 :=
  Derived.readSet tx.derived.sets (referrersPrefix field target)

/-- `tree_roots`. -/
def treeRoots (tx : KvTxn) (field : String) : Finset UInt32 := referrersOf tx field Uuid.zero

/-- `tree_parents_except`: the ids with a position under another parent. -/
def treeParentsExcept (tx : KvTxn) (field : String) (except : Option Uuid) : Finset UInt32 :=
  allBut tx field targetPart (except.map Uuid.bytes)

variable [Externals]

/-- `universe`. -/
def universeIds (tx : KvTxn) : Finset UInt32 := set tx universeKind none

/-- `absent`. -/
def absent (tx : KvTxn) (field : String) : Finset UInt32 := set tx absentKind (some field)

/-- `parents`. -/
def parents (tx : KvTxn) (field : String) : Finset UInt32 := set tx parentsKind (some field)

/-- `descendants`: several nodes are sifted by the parents. -/
def descendants (tx : KvTxn) (field : String) (nodes : Finset UInt32) : Finset UInt32 :=
  let sifted := if nodes.card > 1 then nodes ∩ parents tx field else nodes
  sifted.biUnion fun id => match tx.derived.uuids.get (be32 id) with
    | none => ∅
    | some node => Derived.readSet tx.derived.sets (descendantsPrefix field node)

/-- The text of a string. -/
def textOf : Value → Option String
  | .string text => some text
  | _ => none

/-- The walk of `scan`: each distinct key of a partition once, and the rows of those cut and hashed.
The source skips the second pass where the first met no such key; it then finds nothing. -/
def walkTexts (tx : KvTxn) (field : String) (part : UInt8) (region : Bytes) (upper : Table.Bound)
    (keep : String → Bool) (text : Value → Bool) : Finset UInt32 :=
  let hashed (key : Bytes) := (longPrefix (key.drop region.length)).isSome
  let test (key : Bytes) := !hashed key &&
    ((ByteCode.unterminated (key.drop region.length)).bind fun read =>
      String.fromUTF8? ⟨read.1.toArray⟩).any keep
  partIds tx field part (.included region) upper test ∪
    having tx (partIds tx field part (.included region) upper hashed) field text

/-- `scan`: the ids whose text is kept: the candidates the literals leave, or those given where they
are few, on their own rows, or a walk. -/
def scan (tx : KvTxn) (field : String) (part : UInt8) (textOf : Value → Option String)
    (keep : String → Bool) (literals : List String) (restrict : Option (Finset UInt32)) :
    Finset UInt32 :=
  let text (value : Value) := (textOf value).any keep
  match textCandidates tx field literals restrict with
  | some candidates => having tx candidates field text
  | none =>
      match restrict.filter fun ids => probes ids.card (present tx field).card with
      | some candidates => having tx candidates field text
      | none =>
          if part = valuePart then walkTexts tx field part [2] (.excluded [3]) keep text
          else walkTexts tx field part [] .unbounded keep text

/-- `scan_names`. -/
def scanNames (tx : KvTxn) (field : String) (keep : String → Bool) (literals : List String)
    (restrict : Option (Finset UInt32)) : Finset UInt32 :=
  if kind tx field = some (.reference true) then
    scan tx field namePart nameOf keep literals restrict
  else ∅

/-- `scan_text`. -/
def scanText (tx : KvTxn) (field : String) (keep : String → Bool) (literals : List String)
    (restrict : Option (Finset UInt32)) : Finset UInt32 :=
  match kind tx field with
  | some .categorical => scan tx field valuePart textOf keep literals restrict
  | some (.reference true) => scanNames tx field keep literals restrict
  | _ => ∅

end KvSource

/-! ### Plans -/

/-- `is_scan`: whether an operand is answered by walking a field's values. -/
def Query.isScan : Query → Bool
  | .matching _ _ _ => true
  | .osm _ _ .direct => true
  | .compare comparison _ _ _ => comparison ≠ .eq
  | _ => false

/-- `and_order`: the scans last, each part in its own order. -/
def andOrder {α : Type} (operands : List (Bool × α)) : List α :=
  ((operands.filter fun operand => !operand.1) ++
    operands.filter fun operand => operand.1).map Prod.snd

/-! ### Evaluation -/

/-- What else the `regex` crate makes of a text. -/
structure Regexes where
  /-- The parsed pattern. -/
  parse : String → Option Hir
  /-- `escape`. -/
  escape : String → String

/-- `osm_regex`. -/
def Regexes.osmRegex (regexes : Regexes) (terms : List String) : String :=
  "(?i)" ++ String.intercalate ".*" (terms.map regexes.escape)

/-- `osm_path_indexable`. -/
def osmPathIndexable : List String → Option String
  | [only] => if only.toList.contains '/' then none else some only
  | _ => none

/-- `QueryRoots`: what the paths of a query were resolved to. -/
structure QueryRoots where
  /-- The metarecord a path target leads to. -/
  path : String → String → Option Uuid
  /-- The node at a path, unless the path was not resolved. -/
  node : String → String → Option (Option Uuid)

/-- `Eval`: what queries are evaluated against. -/
structure Eval where
  /-- The store, through its source. -/
  tx : KvTxn
  /-- What patterns are parsed to. -/
  regexes : Regexes
  /-- The paths resolved. -/
  roots : Option QueryRoots

/-- A set of ids, or why the index does not serve the query. -/
abbrev Answered : Type := Except String (Finset UInt32)

/-- A query evaluated within some candidates. -/
abbrev Evaluation : Type := Option (Finset UInt32) → Answered

/-- An answer within some candidates. -/
def Answered.within (restrict : Option (Finset UInt32)) (answer : Answered) : Answered :=
  answer.map fun found => match restrict with
    | none => found
    | some ids => found ∩ ids

/-- The loop of `intersect`: each operand within what those before it left, until nothing is. -/
def intersectAll : List Evaluation → Option (Finset UInt32) → Except String (Option (Finset UInt32))
  | [], held => pure held
  | evaluate :: rest, held =>
      if held = some ∅ then pure held
      else do
        let found ← evaluate held
        intersectAll rest (some (match held with
          | none => found
          | some ids => ids ∩ found))

/-- `intersect`. -/
def intersect (operands : List (Bool × Evaluation)) : Evaluation := fun restrict =>
  if operands = [] then .error "'and'/'or' need an operand"
  else do
    let held ← intersectAll (andOrder operands) restrict
    pure (held.getD ∅)

/-- The loop of an `or`. -/
def uniteAll (restrict : Option (Finset UInt32)) : List Evaluation → Answered
  | [] => pure ∅
  | evaluate :: rest => do
      let found ← evaluate restrict
      let others ← uniteAll restrict rest
      pure (found ∪ others)

/-- An `or`. -/
def unite (operands : List Evaluation) : Evaluation := fun restrict => do
  let found ← uniteAll restrict operands
  if operands = [] then .error "'and'/'or' need an operand" else pure found

namespace Eval

open KvSource

variable [Externals] [Unicode.Letters] [Patterns] (self : Eval)

/-- `index_servable_aspect`. -/
def servableAspect : Aspect → Except String Unit
  | .parent => .error "the ':parent' aspect"
  | .path => .error "the ':path' aspect"
  | _ => pure ()

/-- Whether a field is known to hold no positions. -/
def notPositions (field : String) : Bool :=
  (valueType self.tx field).any fun name => !isPositionType name

/-- `parent_presence`. -/
def parentPresence (field : String) (isPresent : Bool) : Answered :=
  match follow self.tx field with
  | none => .ok ∅
  | some .tree =>
      .ok (if isPresent then treeParentsExcept self.tx field (some Uuid.zero)
        else treeRoots self.tx field)
  | some _ => .error "the ':parent' aspect"

/-- `is_present` and `is_absent`. -/
def presence (field : String) (aspect : Aspect) (isPresent : Bool) : Answered :=
  let found := if isPresent then present self.tx field else absent self.tx field
  match aspect with
  | .parent => self.parentPresence field isPresent
  | .path =>
      if self.notPositions field then .error "the ':path' aspect" else .ok found
  | _ => .ok found

/-- `parent_compare`. -/
def parentCompare (field : String) (op : CmpOp) (value : Value) : Answered :=
  if op ≠ .eq ∧ op ≠ .neq then .error "the ':parent' aspect"
  else match value with
    | .string path =>
        match follow self.tx field with
        | none => .ok ∅
        | some .tree =>
            match self.roots.bind fun roots => roots.node field path with
            | none => .error "unresolved ':parent' path"
            | some node =>
                .ok (if op = .eq then (node.map (referrersOf self.tx field)).getD ∅
                  else treeParentsExcept self.tx field node)
        | some _ => .error "the ':parent' aspect"
    | _ => .error "the ':parent' aspect"

/-- The node at a path, where the field has a value of it. -/
def exactNode (field path : String) (op : CmpOp) : Answered :=
  match self.roots.bind fun roots => roots.node field path with
  | none => .error "exact-node tree_ref path equality"
  | some node =>
      let found := ((node.bind self.tx.derived.id).map fun id =>
        {id} ∩ present self.tx field).getD ∅
      .ok (if op = .eq then found else present self.tx field \ found)

/-- `compare`. -/
def compare (field : String) (op : CmpOp) (value : Value) (aspect : Aspect) : Evaluation :=
  fun restrict =>
    if value = .nothing then .error "comparison with 'nothing'"
    else if aspect = .parent then self.parentCompare field op value
    else do
      servableAspect aspect
      let position := (valueType self.tx field).any isPositionType
      if aspect = .raw ∧ position ∧ op ≠ .eq ∧ op ≠ .neq then
        .error "ordered comparison on a tree_ref field needs an aspect"
      else match value with
        | .string path =>
            if (op = .eq ∨ op = .neq) ∧ aspect = .raw ∧ position then self.exactNode field path op
            else KvSource.compare self.tx field op (.string path) restrict
        | value => KvSource.compare self.tx field op value restrict

/-- `text_scan`. -/
def textScan (field pattern : String) : Evaluation := fun restrict =>
  if follow self.tx field = none then .ok ∅
  else do
    let keep ← Patterns.compile pattern
    pure (scanText self.tx field keep (requiredLiterals (self.regexes.parse pattern)) restrict)

/-- `matches`. -/
def matching (field pattern : String) (aspect : Aspect) : Evaluation := fun restrict => do
  servableAspect aspect
  if aspect = .raw ∧ (valueType self.tx field).any isPositionType then
    .error "MATCHES on a tree_ref field needs an aspect"
  else self.textScan field pattern restrict

/-- `resolved_root`. -/
def resolvedRoot (field path : String) : Except String (Option Uuid) :=
  match self.roots with
  | none => .error "path-target follows"
  | some roots => .ok (roots.path field path)

/-- `follows`, from the ids that point at its targets. -/
def follows (field : String) (referrers : Finset UInt32) : Answered :=
  match follow self.tx field with
  | some .direct => .ok referrers
  | some .tree => .ok referrers
  | _ => .ok ∅

/-- The ids that point at the metarecords of some ids. -/
def referrersOfAll (field : String) (targets : Finset UInt32) : Finset UInt32 :=
  targets.biUnion fun id => match self.tx.derived.uuids.get (be32 id) with
    | none => ∅
    | some uuid => referrersOf self.tx field uuid

/-- `expand_subtrees`. -/
def expandSubtrees (field : String) (nodes : Finset UInt32) (inclusive : Bool) : Finset UInt32 :=
  (if inclusive then nodes ∩ universeIds self.tx else ∅) ∪ descendants self.tx field nodes

/-- `follows_transitive`, from the ids its target leads to. -/
def followsTransitive (field : String) (nodes : Finset UInt32) (inclusive : Bool) : Answered :=
  if follow self.tx field ≠ some .tree then .ok ∅
  else .ok (self.expandSubtrees field nodes inclusive)

/-- `osm_path`. -/
def osmPath (field : String) (terms : List String) : Answered :=
  if self.notPositions field then .error "osm path on a non-tree_ref field"
  else if terms = [] then .ok (present self.tx field)
  else match osmPathIndexable terms with
    | none => .error "multi-term osm path"
    | some term =>
        if follow self.tx field ≠ some .tree then .ok ∅
        else do
          let keep ← Patterns.compile ("(?i)" ++ self.regexes.escape term)
          pure (self.expandSubtrees field
            (scanNames self.tx field keep [Externals.toLowercase term] none) true)

mutual

/-- `eval_within`: the ids a query matches, among the candidates where there are some. -/
def evalWithin : Query → Evaluation
  | .isPresent field aspect => fun restrict =>
      (self.presence field aspect true).within restrict
  | .isAbsent field aspect => fun restrict =>
      (self.presence field aspect false).within restrict
  | .isUnknown field => fun restrict =>
      Answered.within restrict
        (.ok ((universeIds self.tx \ present self.tx field) \ absent self.tx field))
  | .compare comparison field value aspect => fun restrict =>
      (self.compare field comparison.op value aspect restrict).within restrict
  | .isIn field values aspect => fun restrict =>
      (uniteAll restrict (values.map fun value restrict =>
        (self.compare field .eq value aspect restrict).within restrict)).within restrict
  | .and operands => fun restrict => (intersect (evalEach operands) restrict).within restrict
  | .or operands => fun restrict =>
      (unite ((evalEach operands).map Prod.snd) restrict).within restrict
  | .not operand => fun restrict => Answered.within restrict do
      let found ← evalWithin operand none
      pure (universeIds self.tx \ found)
  | .follows field (.path path) => fun restrict => Answered.within restrict do
      match ← self.resolvedRoot field path with
      | none => pure ∅
      | some root => self.follows field (referrersOf self.tx field root)
  | .follows field (.condition query) => fun restrict => Answered.within restrict do
      let targets ← evalWithin query none
      self.follows field (self.referrersOfAll field targets)
  | .sameAs field target => fun restrict => Answered.within restrict do
      let seed ← evalWithin target none
      pure (if seed = ∅ then ∅ else KvSource.sameAs self.tx field seed)
  | .followsTransitive field (.path path) inclusive => fun restrict => Answered.within restrict do
      match (← self.resolvedRoot field path).bind self.tx.derived.id with
      | none => pure ∅
      | some id => self.followsTransitive field {id} inclusive
  | .followsTransitive field (.condition query) inclusive => fun restrict =>
      Answered.within restrict do
        let nodes ← evalWithin query none
        self.followsTransitive field nodes inclusive
  | .osm field terms .path => fun restrict => (self.osmPath field terms).within restrict
  | .uuidIn uuids => fun restrict => Answered.within restrict
      (.ok ((uuids.filterMap self.tx.derived.id).toFinset ∩ universeIds self.tx))
  | .matching field pattern aspect => fun restrict =>
      (self.matching field pattern aspect restrict).within restrict
  | .osm field terms .direct => fun restrict =>
      (self.textScan field (self.regexes.osmRegex terms) restrict).within restrict

/-- The operands of a combinator, and whether each is a scan. -/
def evalEach : List Query → List (Bool × Evaluation)
  | [] => []
  | operand :: rest => (operand.isScan, evalWithin operand) :: evalEach rest

end

/-- `evaluate`. -/
def evaluate (query : Query) : Answered := self.evalWithin query none

theorem evalEach_eq (operands : List Query) :
    self.evalEach operands = operands.map fun operand =>
      (operand.isScan, self.evalWithin operand) := by
  induction operands with
  | nil => rfl
  | cons operand rest ih => simp [evalEach, ih]

end Eval

end Metafolder
