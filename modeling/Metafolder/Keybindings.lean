import Metafolder.Convert
import Mathlib.Data.List.Infix
import Mathlib.Data.List.Sort

/-!
# Keybindings

The keybindings file: its variables, the expansion of its lines, the merge of the bindings that
meet at one place, and the table compiled from them.  The text of the file is read by the TOML
library; a file is what that library answers.
-/

namespace Metafolder
namespace Keybindings

/-! ### Combos -/

section Combos

variable [Externals]

/-- `str::split_whitespace`, the word being read kept apart. -/
def splitWhitespace : List Char → List Char → List (List Char)
  | word, [] => if word = [] then [] else [word]
  | word, c :: rest =>
      if isWhitespace c then
        if word = [] then splitWhitespace [] rest else word :: splitWhitespace [] rest
      else splitWhitespace (word ++ [c]) rest

/-- `MODIFIERS`. -/
def modifiers : List String := ["ctrl", "alt", "shift", "meta"]

/-- One piece of a chord: a modifier, which joins those present, or the chord's key. -/
def readPiece (chord : String) (read : List String × Option String) (piece : List Char) :
    Except String (List String × Option String) :=
  let piece := Externals.toLowercase (String.ofList (trim piece))
  if piece = "" then .error s!"malformed key combo: '{chord}'"
  else if piece ∈ modifiers then .ok (piece :: read.1, read.2)
  else if read.2.isSome then .error s!"multiple keys in combo: '{chord}'"
  else .ok (read.1, some piece)

/-- `normalize_chord`. -/
def normalizeChord (chord : String) : Except String String := do
  let (present, key) ← (splitOn '+' chord.toList).foldlM (readPiece chord) ([], none)
  match key with
  | none => .error s!"no key in combo: '{chord}'"
  | some key =>
      .ok (String.join ((modifiers.filter (· ∈ present)).map (· ++ "+")) ++ key)

/-- `parse_combo`. -/
def parseCombo (input : String) : Except String (List String) := do
  let keys ← (splitWhitespace [] input.toList).mapM fun part => normalizeChord (String.ofList part)
  if keys = [] then .error "empty key combo" else .ok keys

end Combos

/-! ### Variables -/

/-- The keys of each variable. -/
abbrev Vars := List (String × List String)

/-- `is_var_name`. -/
def isVarName (name : List Char) : Bool :=
  !name.isEmpty && name.all fun c => c.isLower || c.isDigit || c = '-'

/-- `referenced`, looking at a character at a time and at no more than there are. -/
def referencedLoop : Nat → List Char → List String
  | 0, _ => []
  | _, [] => []
  | more + 1, c :: after =>
      if c = '\x7b' then
        match splitOnce ['\x7d'] after with
        | some (name, rest) =>
            if isVarName name then String.ofList name :: referencedLoop more rest
            else referencedLoop more after
        | none => referencedLoop more after
      else referencedLoop more after

/-- `referenced`. -/
def referenced (text : String) : List String := referencedLoop text.length text.toList

/-- `has_variables`. -/
def hasVariables (source : String) : Bool := !(referenced source).isEmpty

/-- `str::replace`, with the number of characters of a match still to leave out. -/
def replaceFrom (pattern value : List Char) : Nat → List Char → List Char
  | _, [] => []
  | skip + 1, _ :: rest => replaceFrom pattern value skip rest
  | 0, c :: rest =>
      if pattern.isPrefixOf (c :: rest) then
        value ++ replaceFrom pattern value (pattern.length - 1) rest
      else c :: replaceFrom pattern value 0 rest

/-- `str::replace`. -/
def replace (text pattern value : String) : String :=
  String.ofList (replaceFrom pattern.toList value.toList 0 text.toList)

/-- `slice::sort` and `Vec::dedup` on names. -/
def sortedNames (names : List String) : List String :=
  (names.insertionSort (· ≤ ·)).dedup

/-- `format!("{{{name}}}")`. -/
def reference (name : String) : String := "\x7b" ++ name ++ "\x7d"

/-- `substitute`. -/
def substitute (combo : String) (vars : Vars) : Except String (List String) :=
  (sortedNames (referenced combo)).foldlM
    (fun out name =>
      match vars.lookup name with
      | none => .error ("unknown variable " ++ reference name ++ s!" in \"{combo}\"")
      | some values =>
          .ok (out.flatMap fun key => values.map fun value => replace key (reference name) value))
    [combo]

/-! ### The file -/

/-- `toml::Value`, the scalars that no keybindings file uses taken together. -/
inductive Toml
  | string (text : String)
  | boolean (value : Bool)
  | scalar
  | array (items : List Toml)
  | table (entries : List (String × Toml))

/-- `BindingSpec`. -/
structure BindingSpec where
  /-- `command`. -/
  command : String
  /-- `when`. -/
  when : Option String
  /-- `text_input`. -/
  textInput : Bool
  /-- `focus`. -/
  focusScope : Option String
deriving DecidableEq

/-- A text that may be left out. -/
def optionalText : Option Toml → Option (Option String)
  | none => some none
  | some (.string text) => some (some text)
  | some _ => none

/-- A flag that may be left out. -/
def optionalFlag : Option Toml → Option Bool
  | none => some false
  | some (.boolean value) => some value
  | some _ => none

/-- A binding written as a table: its fields by name. -/
def specOfTable (entries : List (String × Toml)) : Option BindingSpec := do
  let some (.string command) := entries.lookup "command" | none
  let when ← optionalText (entries.lookup "when")
  let textInput ← optionalFlag (entries.lookup "text-input")
  let focusScope ← optionalText (entries.lookup "focus")
  some { command, when, textInput, focusScope }

/-- A binding written as an array: its fields in order, which the derived reader takes too. -/
def specOfArray (items : List Toml) : Option BindingSpec := do
  let .string command :: _ := items | none
  let when ← optionalText items[1]?
  let textInput ← optionalFlag items[2]?
  let focusScope ← optionalText items[3]?
  if items.length ≤ 4 then some { command, when, textInput, focusScope } else none

/-- One binding, in either form. -/
def specOf : Toml → Option BindingSpec
  | .table entries => specOfTable entries
  | .array items => specOfArray items
  | _ => none

/-- `SpecOrList::into_vec` of what `try_into` reads: one binding, or an array of them. -/
def specsOf (value : Toml) : Option (List BindingSpec) :=
  match specOf value with
  | some spec => some [spec]
  | none =>
      match value with
      | .array items => items.mapM specOf
      | _ => none

/-- A keybindings file: its `vars`, and its other keys in the order of the file.  A TOML file
writes no key twice. -/
structure File where
  /-- The value under `vars`. -/
  vars : Option Toml
  /-- The lines: each key with its value. -/
  lines : List (String × Toml)
  /-- No key is written twice. -/
  distinct : (lines.map Prod.fst).Nodup
  /-- The key `vars` is not a line. -/
  noVars : "vars" ∉ lines.map Prod.fst

/-- The file without anything in it. -/
def File.empty : File := { vars := none, lines := [], distinct := .nil, noVars := by simp }

/-- The lines as `toml::Table` goes over them: by key. -/
def File.table (file : File) : List (String × Toml) :=
  file.lines.insertionSort fun a b => a.1 ≤ b.1

section Reading

variable [Externals]

/-- The keys of one variable: a text, or an array of them that is not empty. -/
def valuesOf (invalid : String → String) : Toml → Except String (List String)
  | .string keys => .ok [keys]
  | .array (first :: items) =>
      (first :: items).mapM fun item =>
        match item with
        | .string keys =>
            if trim keys.toList = [] then .error (invalid "holds something that is not a key")
            else .ok keys
        | _ => .error (invalid "holds something that is not a key")
  | _ => .error (invalid "must be a string or a list of strings")

/-- Refuses a combo that a list of keys has already. -/
def unseen (invalid : String → String) (seen : List (List String)) (keys : List String) :
    Except String (List (List String)) :=
  let combo := " ".intercalate keys
  if keys ∈ seen then .error (invalid s!"holds `{combo}` twice") else .ok (seen ++ [keys])

/-- One variable of the `vars` table. -/
def readVar (written : String × Toml) : Except String (String × List String) := do
  let (name, value) := written
  let invalid (why : String) : String :=
    s!"invalid keybindings file: the variable \"{name}\" {why}"
  if isVarName name.toList = false then
    .error s!"invalid keybindings file: variable name \"{name}\" (lowercase letters, digits, -)"
  else
    let values ← valuesOf invalid value
    match values.find? hasVariables with
    | some keys =>
        .error (invalid (s!"names another (\"{keys}\"): name both in the key, or run " ++
          "metafolder-sync-config, which writes it out"))
    | none =>
        let _ ← (values.filterMap fun keys => (parseCombo keys).toOption).foldlM (unseen invalid) []
        .ok (name, values)

/-- `read_vars`. -/
def readVars : Option Toml → Except String Vars
  | none => .ok []
  | some (.table entries) => (entries.insertionSort fun a b => a.1 ≤ b.1).mapM readVar
  | some _ => .error "invalid keybindings file: `vars` must be a table"

/-! ### Bindings -/

/-- One binding of the file, once its variables are expanded. -/
structure Entry where
  /-- `keys`. -/
  keys : List String
  /-- `spec`. -/
  spec : BindingSpec
  /-- `source`: the key of the file it comes from, as written. -/
  source : String
  /-- `derived_from`: that key, when a variable produced the binding. -/
  derivedFrom : Option String
deriving DecidableEq

/-- `expand`. -/
def expand (combo : String) (spec : BindingSpec) (vars : Vars) : Except String (List Entry) :=
  if "\x7btarget\x7d".toList <:+: spec.command.toList then
    .error (s!"\"{combo}\": \x7btarget\x7d templates no longer exist: write one line per key, " ++
      "or run metafolder-sync-config, which converts them")
  else do
    let derivedFrom := if hasVariables combo then some combo else none
    (← substitute combo vars).mapM fun keys => do
      .ok { keys := ← parseCombo keys, spec, source := combo, derivedFrom }

/-- `field_side`. -/
def fieldSide (textInput : Bool) (focusScope : Option String) : Bool :=
  textInput && focusScope.isNone

/-- `BindingKey`. -/
abbrev BindingKey := List String × Option String × Option String × Bool

/-- `binding_key`. -/
def bindingKey (keys : List String) (spec : BindingSpec) : BindingKey :=
  (keys, spec.when, spec.focusScope, fieldSide spec.textInput spec.focusScope)

/-- The place of a binding. -/
def Entry.place (entry : Entry) : BindingKey := bindingKey entry.keys entry.spec

/-- The variables that brought two keys of the file together, for an error. -/
def throughVariables (first second : String) : String :=
  let names := sortedNames (referenced first ++ referenced second)
  let list := ", ".intercalate names
  if names = [] then "" else s!" (through the variables {list})"

/-- The error for two bindings of one place. -/
def boundTwice (other entry : Entry) : String :=
  let (first, second) :=
    if other.source ≤ entry.source then (other.source, entry.source)
    else (entry.source, other.source)
  let scope :=
    match entry.spec.focusScope, entry.spec.when with
    | some widget, _ => s!"in the {widget} widget"
    | none, some panel => s!"in {panel}"
    | none, none => "globally"
  let keys := " ".intercalate entry.keys
  let through := throughVariables first second
  if first = second then s!"\"{first}\" binds `{keys}` twice {scope}{through}"
  else s!"\"{first}\" and \"{second}\" are the same key `{keys}`, bound twice {scope}{through}"

/-- A binding joins those before it: a literal one takes the place of one that a variable produced,
one that a variable produced leaves a literal one where it is, and two of a kind are refused. -/
def merge (entries : List Entry) (entry : Entry) : Except String (List Entry) :=
  match entries.find? (·.place = entry.place) with
  | none => .ok (entries ++ [entry])
  | some other =>
      match other.derivedFrom.isSome, entry.derivedFrom.isSome with
      | true, false => .ok (entries.map fun held => if held = other then entry else held)
      | false, true => .ok entries
      | _, _ => .error (boundTwice other entry)

/-- The order of the table: keys, scope, side of a text field. -/
def rowOrder : BindingKey → BindingKey → Ordering :=
  compareLex (compareOn (·.1)) <| compareLex (compareOn (·.2.1)) <|
    compareLex (compareOn (·.2.2.1)) (compareOn (·.2.2.2))

/-- What a binding is sorted by: `text_input` as written, whatever the focus. -/
def Entry.row (entry : Entry) : BindingKey :=
  (entry.keys, entry.spec.when, entry.spec.focusScope, entry.spec.textInput)

/-- `describe_scope`. -/
def describeScope : Option String → Option String → String
  | none, none => "globally"
  | some panel, none => s!"in {panel}"
  | none, some widget => s!"at @{widget}"
  | some panel, some widget => s!"at @{widget} in {panel}"

/-- A sequence that starts with other keys, and goes on. -/
def starts (long short : List String) : Bool :=
  short.length < long.length && short.isPrefixOf long

/-- One binding is in the scope of another and starts its sequence. -/
def hides (short long : Entry) : Bool :=
  short.spec.when = long.spec.when && short.spec.focusScope = long.spec.focusScope &&
    starts long.keys short.keys

/-- The error for a key that hides a sequence. -/
def wouldHide (short long : Entry) : String :=
  let scope := describeScope short.spec.when short.spec.focusScope
  let through := throughVariables short.source long.source
  let combo := " ".intercalate short.keys
  let other := " ".intercalate long.keys
  s!"`{combo}` (\"{short.source}\") would hide `{other}` (\"{long.source}\") {scope}{through}: " ++
    "a key alone runs before any sequence it starts"

/-- `check_no_key_hides_a_sequence`. -/
def checkNoKeyHidesASequence (entries : List Entry) : Except String Unit :=
  match (entries.flatMap fun short => entries.map fun long => (short, long)).find?
      fun pair => hides pair.1 pair.2 with
  | some (short, long) => .error (wouldHide short long)
  | none => .ok ()

/-- `Parsed`, without the order of the variables. -/
structure Parsed where
  /-- `entries`. -/
  entries : List Entry
  /-- `lines`: the lines as written, each key with a binding before expansion. -/
  lines : List (String × BindingSpec)
  /-- `vars`. -/
  vars : Vars

/-- One line of the file: its bindings join those read before it. -/
def readLine (vars : Vars) (read : List (String × BindingSpec) × List Entry)
    (line : String × Toml) : Except String (List (String × BindingSpec) × List Entry) :=
  match specsOf line.2 with
  | none =>
      .error (s!"invalid keybindings file: \"{line.1}\": " ++
        "data did not match any variant of untagged enum SpecOrList")
  | some specs =>
      specs.foldlM
        (fun read spec => do
          let entries ← (← expand line.1 spec vars).foldlM merge read.2
          .ok (read.1 ++ [(line.1, spec)], entries))
        read

/-- `parse_entries`. -/
def parseEntries (file : File) : Except String Parsed := do
  let vars ← readVars file.vars
  let (lines, merged) ← file.table.foldlM (readLine vars) ([], [])
  let entries := merged.insertionSort fun a b => (rowOrder a.row b.row).isLE
  checkNoKeyHidesASequence entries
  let position (key : String) : Nat := (file.lines.map Prod.fst).idxOf key
  .ok { entries, lines := lines.insertionSort fun a b => position a.1 ≤ position b.1, vars }

/-! ### The set in effect -/

/-- `CompiledBinding`. -/
structure CompiledBinding where
  /-- `keys`. -/
  keys : List String
  /-- `invocation`. -/
  invocation : String
  /-- `when`. -/
  when : Option String
  /-- `text_input`. -/
  textInput : Bool
  /-- `focus`. -/
  focusScope : Option String
  /-- `suggested`. -/
  suggested : Bool
deriving DecidableEq

/-- `KeybindingSet`.  The maps `config`, `derived` and `origin` have the same keys: they are the
list of the bindings in effect, one a place. -/
structure KeybindingSet where
  /-- `config`, `derived` and `origin`. -/
  config : List Entry
  /-- `lines`. -/
  lines : List (String × BindingSpec)
  /-- `vars`. -/
  vars : Vars
  /-- `suggestions`. -/
  suggestions : List CompiledBinding

/-- A binding takes the place of the one in effect there. -/
def insertEntry (config : List Entry) (entry : Entry) : List Entry :=
  config.filter (·.place ≠ entry.place) ++ [entry]

/-- A file joins a set: its bindings and its variables win. -/
def KeybindingSet.extend (set : KeybindingSet) (parsed : Parsed) : KeybindingSet :=
  { set with
    config := parsed.entries.foldl insertEntry set.config
    lines := set.lines ++ parsed.lines
    vars := parsed.vars ++ set.vars }

/-- `KeybindingSet::from_sources`. -/
def fromSources (defaults user : File) : Except String KeybindingSet := do
  let defaults ← parseEntries defaults
  let user ← parseEntries user
  let set : KeybindingSet := { config := [], lines := [], vars := [], suggestions := [] }
  .ok ((set.extend defaults).extend user)

/-- `KeybindingSet::from_source`. -/
def fromSource (source : File) : Except String KeybindingSet := fromSources source .empty

/-- A binding of the file as the table has it. -/
def Entry.compiled (entry : Entry) : CompiledBinding :=
  { keys := entry.keys, invocation := entry.spec.command, when := entry.spec.when,
    textInput := entry.spec.textInput, focusScope := entry.spec.focusScope, suggested := false }

/-- What a row of the table is sorted by. -/
def CompiledBinding.row (binding : CompiledBinding) : BindingKey :=
  (binding.keys, binding.when, binding.focusScope, binding.textInput)

/-- `KeybindingSet::compiled`. -/
def KeybindingSet.compiled (set : KeybindingSet) : List CompiledBinding :=
  (set.config.map Entry.compiled ++ set.suggestions).insertionSort fun a b =>
    (rowOrder a.row b.row).isLE

end Reading

end Keybindings
end Metafolder
