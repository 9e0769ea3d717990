import Metafolder.SyncModel
import Metafolder.Transaction
import Metafolder.TreePaths
import Mathlib.Data.List.Destutter

/-!
# Counterparts in the other repository

A record's counterpart is the one it is linked to, or else the one at its path on the other side,
made when it is missing.  The path of a record is asked of the daemon once, and remembered for the
whole run, while the run goes on moving what stands above it.
-/

namespace Metafolder

/-- `TreePath::split_last`: the path above and the last name, none for the root of the files. -/
def TreePath.splitLast (path : TreePath) : Option (Option TreePath × TreeName) :=
  if path = [] then none
  else
    some (match path.reverse.findIdx? (· = slash) with
      | some after =>
          (some (path.take (path.length - 1 - after)), ⟨path.drop (path.length - after)⟩)
      | none => (none, ⟨path⟩))

namespace Sync

/-! ### Repositories -/

/-- The stores of the two repositories of a pair. -/
abbrev Stores : Type := Side → KvStore

/-- What the daemon decides of its answers and of the records it makes. -/
structure Settings where
  /-- Whether a repository folds case. -/
  caseInsensitive : Side → Bool
  /-- The uuid of a record made. -/
  newUuid : Side → Stores → Uuid
  context : WriteContext
  retention : Retention
  timestamp : Side → Stores → Int64

section

variable [Externals] (settings : Settings)

/-- `tree_paths`, its first: where a record stands in a field. -/
def firstPath (stores : Stores) (side : Side) (record : Uuid) (field : String) :
    Outcome (Option Metafolder.TreePath) := do
  let paths ← (stores side).tx.primary.pathsOf field record
  pure paths.head?

/-- `resolve_path`: the record at a path. -/
def resolvePath (stores : Stores) (side : Side) (field : String) (path : Metafolder.TreePath) :
    Outcome (Option Uuid) :=
  (stores side).tx.primary.resolveExact (settings.caseInsensitive side) field path

/-- `POST /metarecords`: a record with one field. -/
def createRecord (stores : Stores) (side : Side) (field : Field) : Outcome (Uuid × Stores) := do
  let uuid := settings.newUuid side stores
  let transaction : Transaction :=
    { context := settings.context
      retention := settings.retention
      timestamp := settings.timestamp side stores
      calls := [.createMetarecord uuid [field]] }
  let store ← transaction.run (stores side)
  pure (uuid, Function.update stores side store)

end

/-! ### The translator -/

/-- `Translator`. -/
structure Translator where
  /-- `LinkTable::other`: the record one is linked to. -/
  other : Side → Uuid → Option Uuid
  /-- Whether a record that is missing is made. -/
  create : Bool
  /-- The records made. -/
  created : List (Side × Uuid) := []
  /-- The first paths remembered. -/
  paths : Side × Uuid × String → Option (Option Metafolder.TreePath) := fun _ => none

/-- A run's translator, and the repositories it asks. -/
structure Asking where
  translator : Translator
  stores : Stores

section

variable [Externals] (settings : Settings)

namespace Translator

/-- `path_in`. -/
def pathIn (translator : Translator) (stores : Stores) (side : Side) (record : Uuid)
    (field : String) : Outcome (Option Metafolder.TreePath × Translator) :=
  match translator.paths (side, record, field) with
  | some path => pure (path, translator)
  | none => do
      let path ← firstPath stores side record field
      pure (path,
        { translator with
          paths := Function.update translator.paths (side, record, field) (some path) })

/-- `identity`, its loop over the fields that place the record. -/
def identityIn (stores : Stores) (side : Side) (record : Uuid) :
    List (String × Bool) → Translator →
      Outcome (Option (String × Metafolder.TreePath × Bool) × Translator)
  | [], translator => pure (none, translator)
  | (field, hierarchy) :: rest, translator => do
      match ← translator.pathIn stores side record field with
      | (some path, translator) => pure (some (field, path, hierarchy), translator)
      | (none, translator) => identityIn stores side record rest translator

/-- The fields that place a record, and whether each is a hierarchy. -/
def placing (record : MetaRecord) : List (String × Bool) :=
  List.destutter (· ≠ ·) (record.fields.filterMap fun row =>
    match row.value with
    | .hierarchyRef .. => some (row.name, true)
    | .treeRef .. => some (row.name, false)
    | _ => none)

/-- `identity`: the first position of a record. -/
def identity (translator : Translator) (stores : Stores) (side : Side) (record : Uuid) :
    Outcome (Option (String × Metafolder.TreePath × Bool) × Translator) :=
  match (stores side).tx.primary.metarecord record with
  | none => pure (none, translator)
  | some held => identityIn stores side record (placing held) translator

end Translator

/-- `find_or_create`, in so many levels: the record at a path, and the repositories and the records
made once it is there. -/
def findOrCreate (side : Side) (field : String) (hierarchy : Bool) :
    Nat → Metafolder.TreePath → Stores × List (Side × Uuid) →
      Outcome (Uuid × Stores × List (Side × Uuid))
  | 0, _, _ => bail s!"no root of the {field} forest"
  | levels + 1, path, (stores, created) => do
      match ← resolvePath settings stores side field path with
      | some found => pure (found, stores, created)
      | none =>
          match TreePath.splitLast path with
          | none => bail s!"no root of the {field} forest"
          | some (above, name) => do
              let (parent, stores, created) ←
                match above with
                | some above => do
                    let (parent, made) ←
                      findOrCreate side field hierarchy levels above (stores, created)
                    pure (some parent, made)
                | none => pure (none, stores, created)
              let value := if hierarchy then Value.hierarchyRef parent name
                else Value.treeRef parent name
              let (uuid, stores) ← createRecord settings stores side ⟨field, value⟩
              pure (uuid, stores, created ++ [(side, uuid)])

/-- The place a counterpart is looked for at, and the translator once it is known. -/
def placeFor (asking : Asking) (side : Side) (record : Uuid) :
    Lookup → Outcome (Option (String × Metafolder.TreePath × Bool) × Translator)
  | .ref => asking.translator.identity asking.stores side record
  | .parent field hierarchy => do
      let (path, translator) ← asking.translator.pathIn asking.stores side record field
      pure (path.map fun path => (field, path, hierarchy), translator)

/-- `counterpart`. -/
def counterpart (asking : Asking) (side : Side) (record : Uuid) (how : Lookup) :
    Outcome (Option Uuid × Asking) :=
  match asking.translator.other side record with
  | some linked => pure (some linked, asking)
  | none => do
      match ← placeFor asking side record how with
      | (none, translator) => pure (none, { asking with translator })
      | (some (field, path, hierarchy), translator) =>
          if translator.create then
            let (found, stores, created) ← findOrCreate settings side.other field hierarchy
              (path.length + 1) path (asking.stores, translator.created)
            pure (some found, ⟨{ translator with created }, stores⟩)
          else
            let found ← resolvePath settings asking.stores side.other field path
            pure (found, { asking with translator })

/-! ### Runs -/

/-- What happens in a run. -/
inductive Happening
  /-- The translator is asked for a counterpart. -/
  | ask (side : Side) (record : Uuid) (how : Lookup)
  /-- Something else is done to the repositories, by the run or by another client. -/
  | change (stores : Stores)

/-- A question of a run, and where the run was when it asked. -/
structure Question where
  before : Asking
  side : Side
  record : Uuid
  how : Lookup

/-- The questions of a run, which ends at the first that fails. -/
def questions : Asking → List Happening → List Question
  | _, [] => []
  | asking, .change stores :: rest => questions { asking with stores } rest
  | asking, .ask side record how :: rest =>
      ⟨asking, side, record, how⟩ ::
        match counterpart settings asking side record how with
        | .ok (_, after) => questions after rest
        | .error _ => []

/-- What a question is answered, and what it leaves of the repositories and makes. -/
def Question.answer (question : Question) : Outcome (Option Uuid × Stores × List (Side × Uuid)) := do
  let (found, after) ←
    counterpart settings question.before question.side question.record question.how
  pure (found, after.stores, after.translator.created)

/-- A question to a translator that remembers nothing. -/
def Question.uncached (question : Question) : Question :=
  { question with before.translator.paths := fun _ => none }

end

end Sync

end Metafolder
