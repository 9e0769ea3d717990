import Metafolder.Ancestry
import Metafolder.Canonical
import Metafolder.Forests

/-!
# The watch rule index

Which paths are tracked follows from the rules a few metarecords hold, inherited down the `mfr_path`
forest.  The index holds these rules by path.  It is read from the holders of the rules and from the
places of those, each place found once.
-/

namespace Metafolder

/-- The regular expressions of the program. -/
class Patterns where
  /-- `regexp::compile`: the texts a pattern matches, or why it is no pattern. -/
  compile : String → Except String (String → Bool)

/-- `RelPath`: the components below the repository root, outermost first. -/
abbrev RelPath : Type := List TreeName

instance RelPath.lawfulBEq : LawfulBEq RelPath := inferInstance

/-- `Key`: a path as the rule index keys it. -/
abbrev PathKey : Type := List Bytes

/-! ### Names -/

section Names

variable [Externals]

/-- The loop of `normalize_name`, after the characters read since the last undecodable byte.  Each
step reads a byte at least. -/
def normalizeRun : Nat → List Char → Bytes → Bytes
  | 0, good, _ => (Externals.toLowercase (String.ofList good)).asBytes
  | _ + 1, good, [] => (Externals.toLowercase (String.ofList good)).asBytes
  | fuel + 1, good, first :: rest =>
      match TreeName.readChar first rest with
      | .char c width => normalizeRun fuel (good ++ [c]) (rest.drop (width - 1))
      | .broken width =>
          (Externals.toLowercase (String.ofList good)).asBytes ++ (first :: rest).take width ++
            normalizeRun fuel [] (rest.drop (width - 1))
      | .truncated => (Externals.toLowercase (String.ofList good)).asBytes ++ first :: rest

/-- `normalize_name`: a name's bytes, what decodes of them folded where case does not count. -/
def normalizeName (name : TreeName) (caseInsensitive : Bool) : Bytes :=
  if caseInsensitive then normalizeRun (name.bytes.length + 1) [] name.bytes else name.bytes

end Names

/-- `display_prefix`: the first components of a path, as text. -/
def displayPrefix (comps : RelPath) (depth : Nat) : String :=
  (comps.take depth).foldl (fun out comp => out.push '/' ++ comp.display) ""

/-! ### The index -/

/-- `Carrier`: the rules one metarecord holds. -/
structure Carrier where
  /-- The metarecord. -/
  uuid : Uuid
  /-- Its `mf_watch`. -/
  watch : Option Bool
  /-- Its `mfr_watch_exceeded`. -/
  exceeded : Option Bool
  /-- Its `mf_ignore`, each pattern compiled. -/
  ignore : List (String × Except String (String → Bool))

/-- `WatchRules`: the rule index. -/
structure WatchRules where
  /-- Whether case does not count in names. -/
  caseInsensitive : Bool
  /-- The newest operation when the rules were read. -/
  head : Option Int64
  /-- The rules, by path. -/
  carriers : PathKey → Option Carrier := fun _ => none
  /-- The paths of the rules, and every path above them. -/
  anchors : List PathKey := []
  /-- The holders of the rules, and the metarecords above those that have a path. -/
  affected : List Uuid := []

/-- `Reason`. -/
inductive Reason
  | noWatch
  | watchFalse
  | directWatch
  | ignored
  | tracked
deriving DecidableEq

/-- `Explanation`: whether a path is tracked, and why. -/
structure Explanation where
  /-- Whether it is. -/
  eligible : Bool
  /-- The step that decided. -/
  reason : Reason
  /-- The path whose `mf_watch` decided. -/
  watchScope : Option String := none
  /-- The path whose patterns were tried. -/
  ignoreSource : Option String := none
  /-- The pattern that matched. -/
  pattern : Option String := none
deriving DecidableEq

/-- `EffectiveIgnore`: the patterns that govern a path, and where they come from. -/
structure EffectiveIgnore where
  /-- The path that holds them. -/
  source : Option String := none
  /-- The metarecord that holds them. -/
  sourceUuid : Option Uuid := none
  /-- Whether it is the path itself. -/
  direct : Bool := false
  /-- The patterns. -/
  patterns : List String := []
deriving DecidableEq

/-- The first pattern that matches a text.  One that does not compile is an error when it is met. -/
def matchIgnore (text : String) : List (String × Except String (String → Bool)) →
    Except String (Option String)
  | [] => pure none
  | (pattern, regex) :: rest =>
      match regex with
      | .error e => throw s!"invalid mf_ignore pattern '{pattern}': {e}"
      | .ok isMatch => if isMatch text then pure (some pattern) else matchIgnore text rest

/-- The deepest depth, of those up to a bound, where something is found. -/
def nearest {α : Type} (count : Nat) (found : Nat → Option α) : Option α :=
  (List.range count).reverse.findSome? found

namespace WatchRules

variable [Externals]

/-- `key`. -/
def key (rules : WatchRules) (rel : RelPath) : PathKey :=
  rel.map fun comp => normalizeName comp rules.caseInsensitive

/-- The rules held at the first components of a path. -/
def carrierAt (rules : WatchRules) (rel : RelPath) (depth : Nat) : Option Carrier :=
  rules.carriers ((rules.key rel).take depth)

/-- `explain`: whether a path is tracked, and why. -/
def explain (rules : WatchRules) (rel : RelPath) : Except String Explanation :=
  let watch := nearest (rel.length + 1) fun depth =>
    ((rules.carrierAt rel depth).bind Carrier.watch).map fun value => (depth, value)
  match watch with
  | none => pure ⟨false, .noWatch, none, none, none⟩
  | some (watchDepth, value) =>
      let scope := displayPrefix rel watchDepth
      if !value then pure ⟨false, .watchFalse, some scope, none, none⟩
      else if watchDepth = rel.length then pure ⟨true, .directWatch, some scope, none, none⟩
      else
        let anchored := displayPrefix (rel.drop watchDepth) (rel.length - watchDepth)
        let governing := nearest rel.length fun depth =>
          ((rules.carrierAt rel depth).filter fun carrier => !carrier.ignore.isEmpty).map
            fun carrier => (depth, carrier)
        match governing with
        | none => pure ⟨true, .tracked, some scope, none, none⟩
        | some (depth, carrier) => do
            let source := displayPrefix rel depth
            match ← matchIgnore anchored carrier.ignore with
            | some pattern => pure ⟨false, .ignored, some scope, some source, some pattern⟩
            | none => pure ⟨true, .tracked, some scope, some source, none⟩

/-- `is_eligible`. -/
def isEligible (rules : WatchRules) (rel : RelPath) : Except String Bool :=
  Explanation.eligible <$> rules.explain rel

/-- `effective_ignore`: the patterns that govern a path, itself included. -/
def effectiveIgnore (rules : WatchRules) (rel : RelPath) : EffectiveIgnore :=
  let found := nearest (rel.length + 1) fun depth =>
    ((rules.carrierAt rel depth).filter fun carrier => !carrier.ignore.isEmpty).map
      fun carrier => (depth, carrier)
  match found with
  | none => {}
  | some (depth, carrier) =>
      { source := some (displayPrefix rel depth)
        sourceUuid := some carrier.uuid
        direct := depth = rel.length
        patterns := carrier.ignore.map Prod.fst }

/-- `exceeded_by`: the directory the watch budget left out that covers a path. -/
def exceededBy (rules : WatchRules) (rel : RelPath) : Option String :=
  (nearest (rel.length + 1) fun depth =>
    ((rules.carrierAt rel depth).bind Carrier.exceeded).map fun value =>
      if value then some (displayPrefix rel depth) else none).join

/-- `exceeded_own`. -/
def exceededOwn (rules : WatchRules) (rel : RelPath) : Option Bool :=
  (rules.carriers (rules.key rel)).bind Carrier.exceeded

/-- `touches`: whether a path holds a rule or stands above one. -/
def touches (rules : WatchRules) (rel : RelPath) : Bool := rules.key rel ∈ rules.anchors

/-- `affects`: whether a metarecord's moving could move a rule. -/
def affects (rules : WatchRules) (uuid : Uuid) : Bool := uuid ∈ rules.affected

end WatchRules

/-! ### Reading the rules -/

/-- `Placement`: where a metarecord sits in the `mfr_path` forest. -/
structure Placement where
  /-- The names below the root, outermost first. -/
  names : List TreeName
  /-- The metarecords from the root down to this one. -/
  chain : List Uuid
deriving DecidableEq

/-- The place of a metarecord under a placed one. -/
def Placement.push (name : TreeName) (node : Uuid) (placement : Placement) : Placement :=
  ⟨placement.names ++ [name], placement.chain ++ [node]⟩

/-- `MAX_DEPTH`: how far up a walk to a place goes. -/
def maxPlacement : Nat := 1100

/-- The places found so far. -/
abbrev Placements : Type := Uuid → Option (Option Placement)

/-- The position of a `tree_ref` value. -/
def Value.treePosition : Value → Option (Option Uuid × TreeName)
  | .treeRef parent name => some (parent, name)
  | _ => none

namespace Primary

/-- The first `tree_ref` position of a metarecord in `mfr_path`. -/
def pathPosition (store : Primary) (uuid : Uuid) : Option (Option Uuid × TreeName) :=
  (store.rowsNamed uuid "mfr_path").findSome? fun row => row.value.treePosition

/-- `bool_field`: the first truth value of a field. -/
def boolField (store : Primary) (uuid : Uuid) (name : String) : Option Bool :=
  (store.rowsNamed uuid name).findSome? fun row =>
    match row.value with
    | .bool value => some value
    | _ => none

/-- `string_fields`: the texts of a field. -/
def stringFields (store : Primary) (uuid : Uuid) (name : String) : List String :=
  (store.rowsNamed uuid name).filterMap fun row =>
    match row.value with
    | .string text => some text
    | _ => none

end Primary

/-- The loop of `placement`: up to a place known, to the root or to no place, and the metarecords
passed, the last one first. -/
def climbPlacement (store : Primary) (memo : Placements) : Nat → Uuid → List (Uuid × TreeName) →
    Option Placement × Placements × List (Uuid × TreeName)
  | 0, cursor, pending => ((memo cursor).join, memo, pending)
  | left + 1, cursor, pending =>
      match memo cursor with
      | some known => (known, memo, pending)
      | none =>
          match store.pathPosition cursor with
          | none => (none, memo, pending)
          | some (none, name) =>
              if name.bytes = [] then
                let root : Placement := ⟨[], [cursor]⟩
                (some root, Function.update memo cursor (some (some root)), pending)
              else (none, memo, pending)
          | some (some parent, name) =>
              climbPlacement store memo left parent ((cursor, name) :: pending)

/-- One metarecord on the way back down: its place is under that of the one above it. -/
def descendPlacement (held : Option Placement × Placements) (passed : Uuid × TreeName) :
    Option Placement × Placements :=
  let current := held.1.map (Placement.push passed.2 passed.1)
  (current, Function.update held.2 passed.1 (some current))

/-- `placement`: the place of a metarecord, if it has one, noted for those that follow. -/
def placement (store : Primary) (uuid : Uuid) (memo : Placements) :
    Option Placement × Placements :=
  let (base, memo, pending) := climbPlacement store memo (maxPlacement + 1) uuid []
  let (current, memo) := pending.foldl descendPlacement (base, memo)
  (current, if current = none then Function.update memo uuid (some none) else memo)

/-- The holders of the rules, in order, each once. -/
def ruleHolders (store : Primary) : List Uuid :=
  Canonical.canon Uuid.bytes
    (["mf_watch", "mf_ignore", "mfr_watch_exceeded"].flatMap store.holders)

variable [Externals] [Patterns]

omit [Externals] in
/-- The rules a metarecord holds. -/
def carrierOf (store : Primary) (uuid : Uuid) : Carrier where
  uuid := uuid
  watch := store.boolField uuid "mf_watch"
  exceeded := store.boolField uuid "mfr_watch_exceeded"
  ignore := (store.stringFields uuid "mf_ignore").map fun pattern =>
    (pattern, Patterns.compile pattern)

/-- Whether a holder holds no value the rules read. -/
def Carrier.bare (carrier : Carrier) : Bool :=
  carrier.watch.isNone && carrier.exceeded.isNone && carrier.ignore.isEmpty

omit [Patterns] in
/-- A holder that has a place joins the index. -/
def WatchRules.enter (rules : WatchRules) (carrier : Carrier) (place : Placement) : WatchRules :=
  let key := place.names.map fun name => normalizeName name rules.caseInsensitive
  { rules with
    affected := rules.affected ++ place.chain
    anchors := rules.anchors ++ (List.range (key.length + 1)).map fun depth => key.take depth
    carriers := Function.update rules.carriers key (some carrier) }

/-- What `load` does with one holder. -/
def loadHolder (store : Primary) (held : WatchRules × Placements) (uuid : Uuid) :
    WatchRules × Placements :=
  let rules := { held.1 with affected := held.1.affected ++ [uuid] }
  let carrier := carrierOf store uuid
  if carrier.bare then (rules, held.2)
  else
    let (place, memo) := placement store uuid held.2
    match place with
    | none => (rules, memo)
    | some place => (rules.enter carrier place, memo)

/-- `load`: the rules of a store, read at its newest operation. -/
def WatchRules.load (store : KvStore) (caseInsensitive : Bool) : WatchRules :=
  ((ruleHolders store.tx.primary).foldl (loadHolder store.tx.primary)
    ({ caseInsensitive := caseInsensitive, head := store.log.head }, fun _ => none)).1

end Metafolder
