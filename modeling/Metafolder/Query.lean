import Metafolder.Value
import Mathlib.Data.Set.Lattice

/-!
# Queries

The tree a query is, what a tree matches, and the folding of alternatives that are all sets of
metarecords into one set, which matches the same.
-/

namespace Metafolder

/-- The component of a field's value a predicate reads. -/
inductive Aspect
  | raw
  | value
  | parent
  | path
deriving DecidableEq

/-- What the terms of an ordered substring match are looked for in. -/
inductive OsmMode
  | direct
  | path
deriving DecidableEq

/-- The operators that compare a field with a literal. -/
inductive Comparison
  | eq
  | neq
  | lt
  | lte
  | gt
  | gte
deriving DecidableEq

mutual

/-- A query predicate. -/
inductive Query
  | and (operands : List Query)
  | or (operands : List Query)
  | not (operand : Query)
  | isPresent (field : String) (aspect : Aspect)
  | isAbsent (field : String) (aspect : Aspect)
  | isUnknown (field : String)
  /-- `Eq`, `Neq`, `Lt`, `Lte`, `Gt` and `Gte`. -/
  | compare (comparison : Comparison) (field : String) (value : Value) (aspect : Aspect)
  | isIn (field : String) (values : List Value) (aspect : Aspect)
  | follows (field : String) (target : FollowTarget)
  | followsTransitive (field : String) (target : FollowTarget) (inclusive : Bool)
  | matching (field pattern : String) (aspect : Aspect)
  | osm (field : String) (terms : List String) (mode : OsmMode)
  | sameAs (field : String) (target : Query)
  | uuidIn (uuids : List Uuid)

/-- What a traversal leads to. -/
inductive FollowTarget
  | path (text : String)
  | condition (query : Query)

end

namespace Query

/-- Induction over a query: through the operands of a combinator, and through a target that is a
query itself. -/
@[elab_as_elim]
theorem induct {motive : Query → Prop}
    (and : ∀ operands, (∀ operand ∈ operands, motive operand) → motive (.and operands))
    (or : ∀ operands, (∀ operand ∈ operands, motive operand) → motive (.or operands))
    (not : ∀ operand, motive operand → motive (.not operand))
    (isPresent : ∀ field aspect, motive (.isPresent field aspect))
    (isAbsent : ∀ field aspect, motive (.isAbsent field aspect))
    (isUnknown : ∀ field, motive (.isUnknown field))
    (compare : ∀ comparison field value aspect, motive (.compare comparison field value aspect))
    (isIn : ∀ field values aspect, motive (.isIn field values aspect))
    (followsPath : ∀ field text, motive (.follows field (.path text)))
    (follows : ∀ field query, motive query → motive (.follows field (.condition query)))
    (followsTransitivePath : ∀ field text inclusive,
      motive (.followsTransitive field (.path text) inclusive))
    (followsTransitive : ∀ field query inclusive, motive query →
      motive (.followsTransitive field (.condition query) inclusive))
    (matching : ∀ field pattern aspect, motive (.matching field pattern aspect))
    (osm : ∀ field terms mode, motive (.osm field terms mode))
    (sameAs : ∀ field target, motive target → motive (.sameAs field target))
    (uuidIn : ∀ uuids, motive (.uuidIn uuids)) (query : Query) : motive query := by
  refine @Query.rec motive (fun target => ∀ query, target = .condition query → motive query)
    (fun operands => ∀ operand ∈ operands, motive operand)
    (fun operands ih => and operands ih) (fun operands ih => or operands ih)
    (fun operand ih => not operand ih) isPresent isAbsent isUnknown compare isIn ?_ ?_ matching osm
    (fun field target ih => sameAs field target ih) uuidIn ?_ ?_ ?_ ?_ query
  · intro field target ih
    cases target with
    | path text => exact followsPath field text
    | condition query => exact follows field query (ih query rfl)
  · intro field target inclusive ih
    cases target with
    | path text => exact followsTransitivePath field text inclusive
    | condition query => exact followsTransitive field query inclusive (ih query rfl)
  · intro text query same
    cases same
  · intro inner ih query same
    cases same
    exact ih
  · simp
  · intro head tail headHolds tailHolds
    simpa using ⟨headHolds, tailHolds⟩

end Query

/-! ### What a query matches -/

/-- How the index answers: the metarecords there are, what a predicate without a query in it
matches, and what a traversal reaches from the metarecords its target matches. -/
structure Answers where
  /-- `universe`: the metarecords of the repository. -/
  records : Set Uuid
  /-- What a predicate matches. -/
  predicate : Query → Set Uuid
  /-- `follows`, from the matches of a condition. -/
  follows : String → Set Uuid → Set Uuid
  /-- `follows_transitive`, from the matches of a condition. -/
  followsTransitive : String → Bool → Set Uuid → Set Uuid
  /-- `same_as`. -/
  sameAs : String → Set Uuid → Set Uuid

namespace Query

mutual

/-- `eval`: the metarecords a query matches. -/
def eval (answers : Answers) : Query → Set Uuid
  | and operands => {uuid ∈ answers.records | ∀ found ∈ evalAll answers operands, uuid ∈ found}
  | or operands => {uuid | ∃ found ∈ evalAll answers operands, uuid ∈ found}
  | not operand => answers.records \ eval answers operand
  | follows field (.condition query) => answers.follows field (eval answers query)
  | followsTransitive field (.condition query) inclusive =>
      answers.followsTransitive field inclusive (eval answers query)
  | sameAs field target => answers.sameAs field (eval answers target)
  | uuidIn uuids => {uuid ∈ answers.records | uuid ∈ uuids}
  | predicate => answers.predicate predicate

/-- What each of some queries matches. -/
def evalAll (answers : Answers) : List Query → List (Set Uuid)
  | [] => []
  | query :: rest => eval answers query :: evalAll answers rest

end

@[simp]
theorem evalAll_eq_map (answers : Answers) (queries : List Query) :
    evalAll answers queries = queries.map (eval answers) := by
  induction queries with
  | nil => rfl
  | cons query rest ih => simp [evalAll, ih]

/-! ### Folding -/

/-- The uuids of a set of metarecords. -/
def uuids? : Query → Option (List Uuid)
  | uuidIn uuids => some uuids
  | _ => none

/-- The alternatives of a chain of `OR`: one set where all are sets of metarecords. -/
def alternatives (operands : List Query) : Query :=
  match operands.mapM uuids? with
  | some sets => uuidIn sets.flatten
  | none => or operands

mutual

/-- A query with its alternatives folded, those inside first. -/
def fold : Query → Query
  | and operands => and (foldAll operands)
  | or operands => alternatives (foldAll operands)
  | not operand => not (fold operand)
  | follows field (.condition query) => follows field (.condition (fold query))
  | followsTransitive field (.condition query) inclusive =>
      followsTransitive field (.condition (fold query)) inclusive
  | sameAs field target => sameAs field (fold target)
  | predicate => predicate

/-- Some queries with their alternatives folded. -/
def foldAll : List Query → List Query
  | [] => []
  | query :: rest => fold query :: foldAll rest

end

@[simp]
theorem foldAll_eq_map (queries : List Query) : foldAll queries = queries.map fold := by
  induction queries with
  | nil => rfl
  | cons query rest ih => simp [foldAll, ih]

theorem uuids?_eq_some {query : Query} {uuids : List Uuid} (found : query.uuids? = some uuids) :
    query = uuidIn uuids := by
  cases query <;> simp_all [uuids?]

theorem mapM_uuids? {operands : List Query} {sets : List (List Uuid)}
    (found : operands.mapM uuids? = some sets) : operands = sets.map uuidIn := by
  induction operands generalizing sets with
  | nil => simpa using found
  | cons head tail ih =>
      simp only [List.mapM_cons, Option.pure_def, Option.bind_eq_bind, Option.bind_eq_some_iff]
        at found
      obtain ⟨uuids, headFound, others, tailFound, same⟩ := found
      cases same
      rw [uuids?_eq_some headFound, ih tailFound]
      rfl

/-- One set of metarecords matches what the sets it joins match. -/
theorem eval_alternatives (answers : Answers) (operands : List Query) :
    eval answers (alternatives operands) = eval answers (or operands) := by
  cases found : operands.mapM uuids? with
  | none => simp only [alternatives, found]
  | some sets =>
      simp only [alternatives, found]
      ext uuid
      rw [mapM_uuids? found]
      simp only [eval, evalAll_eq_map, List.map_map, List.mem_map, Set.mem_ofPred_eq,
        List.mem_flatten]
      constructor
      · intro ⟨exists_, uuids, member, among⟩
        exact ⟨_, ⟨uuids, member, rfl⟩, by simpa [eval] using ⟨exists_, among⟩⟩
      · intro ⟨matched, ⟨uuids, member, same⟩, among⟩
        subst same
        simp only [Function.comp_apply, eval, Set.mem_ofPred_eq] at among
        exact ⟨among.1, uuids, member, among.2⟩

/-- Folding alternatives into one set never changes which metarecords match. -/
theorem eval_fold (answers : Answers) (query : Query) :
    eval answers (fold query) = eval answers query := by
  induction query using induct with
  | and operands ih | or operands ih =>
      have same : (operands.map fold).map (eval answers) = operands.map (eval answers) := by
        simpa using ih
      simp only [fold, foldAll_eq_map, eval_alternatives, eval, evalAll_eq_map, same]
  | not operand ih => simp only [fold, eval, ih]
  | follows field query ih => simp only [fold, eval, ih]
  | followsTransitive field query inclusive ih => simp only [fold, eval, ih]
  | sameAs field target ih => simp only [fold, eval, ih]
  | _ => rfl

end Query

end Metafolder
