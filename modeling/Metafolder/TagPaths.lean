import Metafolder.Tags
import Mathlib.Algebra.Order.BigOperators.Group.List
import Mathlib.Algebra.Order.Group.Nat
import Mathlib.Data.List.Dedup
import Mathlib.Data.List.Infix
import Mathlib.Data.List.TakeWhile
import Mathlib.Logic.Relation

/-!
# Paths of a hierarchy

What the strings of the paths say of the hierarchy: as long as a node lists all of its paths and its
siblings show other names, a path is under another one if and only if its tag is below the other's.
-/

namespace Metafolder
namespace Tags

/-! ### Texts -/

/-- A path goes on below another one. -/
def Under (a b : Path) : Prop := ∃ rest, b = a ++ '/' :: rest

theorem Under.length_lt {a b : Path} (under : Under a b) : a.length < b.length := by
  obtain ⟨rest, rfl⟩ := under
  simp only [List.length_append, List.length_cons]
  omega

theorem Under.trans {a b c : Path} (first : Under a b) (second : Under b c) : Under a c := by
  obtain ⟨rest, rfl⟩ := first
  obtain ⟨more, rfl⟩ := second
  exact ⟨rest ++ '/' :: more, by simp⟩

theorem under_name (path name : List Char) : Under path (path ++ '/' :: name) := ⟨name, rfl⟩

/-- What is above a path is its parent, or above it. -/
theorem under_concat {a par name : Path} (slashless : '/' ∉ name) :
    Under a (par ++ '/' :: name) ↔ a = par ∨ Under a par := by
  constructor
  · rintro ⟨rest, same⟩
    obtain ⟨middle, short, long⟩ | ⟨middle, short, long⟩ := List.append_eq_append_iff.mp same
    · cases middle with
      | nil => exact .inl (by simpa using short)
      | cons c middle =>
          rw [List.cons_append, List.cons.injEq] at long
          exact absurd (by rw [long.2]; simp) slashless
    · cases middle with
      | nil => exact .inl (by simpa using short.symm)
      | cons c middle =>
          rw [List.cons_append, List.cons.injEq] at long
          exact .inr ⟨middle, by rw [short, ← long.1]⟩
  · rintro (rfl | under)
    · exact under_name _ _
    · exact under.trans (under_name _ _)

theorem not_under_of_slashless {a b : Path} (slashless : '/' ∉ b) : ¬Under a b := by
  rintro ⟨rest, rfl⟩
  simp at slashless

theorem parent_concat {par name : Path} (slashless : '/' ∉ name) :
    parent (par ++ '/' :: name) = some par := by
  have skipped : ((par ++ '/' :: name).reverse.dropWhile (· ≠ '/')) = '/' :: par.reverse := by
    rw [List.reverse_append, List.reverse_cons, List.append_assoc, List.dropWhile_append_of_pos]
    · rfl
    · intro c member
      refine decide_eq_true fun slash => slashless ?_
      rw [← slash]
      exact List.mem_reverse.mp member
  unfold parent
  rw [skipped]
  simp

theorem parent_of_slashless {path : Path} (slashless : '/' ∉ path) : parent path = none := by
  have all : path.reverse.dropWhile (· ≠ '/') = [] := by
    rw [List.dropWhile_eq_nil_iff]
    intro c member
    refine decide_eq_true fun slash => slashless ?_
    rw [← slash]
    exact List.mem_reverse.mp member
  unfold parent
  rw [all]

/-- A path is a name, or a name below a path. -/
theorem slashless_or_concat (path : Path) :
    '/' ∉ path ∨ ∃ par name, '/' ∉ name ∧ path = par ++ '/' :: name := by
  induction path with
  | nil => simp
  | cons c path ih =>
      obtain slashless | ⟨par, name, slashless, rfl⟩ := ih
      · by_cases slash : c = '/'
        · exact .inr ⟨[], path, slashless, by rw [slash]; rfl⟩
        · exact .inl (by simp [slashless, Ne.symm slash])
      · exact .inr ⟨c :: par, name, slashless, rfl⟩

theorem isAncestor_iff {a b : Path} : isAncestor a b ↔ Under a b := by
  simp only [isAncestor, Bool.and_eq_true, decide_eq_true_eq, List.isPrefixOf_iff_prefix]
  constructor
  · rintro ⟨⟨-, rest, rfl⟩, next⟩
    rw [List.getElem?_append_right le_rfl, Nat.sub_self] at next
    cases rest with
    | nil => exact nomatch next
    | cons c rest =>
        cases next
        exact ⟨rest, rfl⟩
  · intro under
    have longer := under.length_lt
    obtain ⟨rest, rfl⟩ := under
    refine ⟨⟨fun same => ?_, List.prefix_append _ _⟩, by simp⟩
    rw [← same] at longer
    exact absurd longer (lt_irrefl _)

theorem mem_ancestorsLoop {a path : Path} {rounds : Nat} (enough : path.length ≤ rounds) :
    a ∈ ancestorsLoop rounds path ↔ Under a path := by
  induction rounds generalizing path with
  | zero =>
      obtain rfl : path = [] := List.eq_nil_of_length_eq_zero (by omega)
      simp [ancestorsLoop, not_under_of_slashless]
  | succ rounds ih =>
      obtain slashless | ⟨par, name, slashless, rfl⟩ := slashless_or_concat path
      · simp [ancestorsLoop, parent_of_slashless slashless, not_under_of_slashless slashless]
      · have shorter : par.length ≤ rounds := by
          rw [List.length_append, List.length_cons] at enough
          omega
        simp only [ancestorsLoop, parent_concat slashless, List.mem_cons, ih shorter,
          under_concat slashless]

theorem mem_ancestors {a path : Path} : a ∈ ancestors path ↔ Under a path :=
  mem_ancestorsLoop le_rfl

theorem ancestorsLoop_enough {path : Path} {few many : Nat} (enough : path.length ≤ few)
    (more : few ≤ many) : ancestorsLoop few path = ancestorsLoop many path := by
  induction few generalizing path many with
  | zero =>
      obtain rfl : path = [] := List.eq_nil_of_length_eq_zero (by omega)
      cases many <;> rfl
  | succ few ih =>
      obtain ⟨many, rfl⟩ : ∃ before, many = before + 1 := ⟨many - 1, by omega⟩
      obtain slashless | ⟨par, name, slashless, rfl⟩ := slashless_or_concat path
      · simp [ancestorsLoop, parent_of_slashless slashless]
      · have shorter : par.length ≤ few := by
          rw [List.length_append, List.length_cons] at enough
          omega
        have rest := @ih par many shorter (by omega)
        simp only [ancestorsLoop, parent_concat slashless, rest]

theorem ancestors_concat {par name : Path} (slashless : '/' ∉ name) :
    ancestors (par ++ '/' :: name) = par :: ancestors par := by
  have longer : (par ++ '/' :: name).length = par.length + name.length + 1 := by
    simp only [List.length_append, List.length_cons]
    omega
  rw [ancestors, longer, ancestorsLoop, parent_concat slashless, ancestors]
  exact congrArg (par :: ·) (ancestorsLoop_enough le_rfl (by omega)).symm

theorem ancestors_of_slashless {path : Path} (slashless : '/' ∉ path) : ancestors path = [] := by
  unfold ancestors
  cases path.length with
  | zero => rfl
  | succ length => simp [ancestorsLoop, parent_of_slashless slashless]

/-! ### The hierarchy -/

section Hierarchy

variable {Id : Type} [DecidableEq Id]

/-- Every path of a tag, however many there are. -/
def allPaths : List (Entry Id) → Id → List Path
  | [], _ => []
  | entry :: rest, uuid =>
      if entry.uuid = uuid then entry.positions.flatMap (pathsAt (allPaths rest))
      else allPaths rest uuid

/-- The entries of a hierarchy, each listed before its parents: an entry has a uuid of its own that
no entry after it names, and names without slashes. -/
def Ordered : List (Entry Id) → Prop
  | [] => True
  | entry :: rest =>
      entry.uuid ∉ rest.map Entry.uuid ∧
        (∀ position ∈ entry.positions, position.1 ≠ some entry.uuid ∧ '/' ∉ position.2) ∧
        (∀ other ∈ rest, ∀ position ∈ other.positions, position.1 ≠ some entry.uuid) ∧ Ordered rest

/-- Siblings show different names. -/
def Apart (entries : List (Entry Id)) : Prop :=
  ∀ first ∈ entries, ∀ second ∈ entries, ∀ position ∈ first.positions,
    position ∈ second.positions → first.uuid = second.uuid

/-- No tag has more paths than are listed. -/
def Listed (entries : List (Entry Id)) : Prop :=
  ∀ uuid, (allPaths entries uuid).length ≤ MAX_PATHS

/-- A tag of the vocabulary is a parent of another. -/
def Parent (entries : List (Entry Id)) (par child : Id) : Prop :=
  allPaths entries par ≠ [] ∧ ∃ entry ∈ entries, entry.uuid = child ∧
    ∃ name, (some par, name) ∈ entry.positions

/-- A tag is above another, by some way up. -/
def Above (entries : List (Entry Id)) : Id → Id → Prop := Relation.TransGen (Parent entries)

theorem allPaths_eq_nil {entries : List (Entry Id)} {uuid : Id}
    (absent : uuid ∉ entries.map Entry.uuid) : allPaths entries uuid = [] := by
  induction entries with
  | nil => rfl
  | cons entry rest ih =>
      simp only [List.map_cons, List.mem_cons, not_or] at absent
      rw [allPaths, if_neg (Ne.symm absent.1), ih absent.2]

omit [DecidableEq Id] in
theorem pathsAt_congr {first second : Id → List Path} {position : Option Id × List Char}
    (same : ∀ par, position.1 = some par → first par = second par) :
    pathsAt first position = pathsAt second position := by
  obtain ⟨par, name⟩ := position
  cases par with
  | none => rfl
  | some par => rw [pathsAt, pathsAt, same par rfl]

omit [DecidableEq Id] in
theorem mem_pathsAt {of : Id → List Path} {position : Option Id × List Char} {path : Path} :
    path ∈ pathsAt of position ↔
      (position.1 = none ∧ path = position.2) ∨
        ∃ par above, position.1 = some par ∧ above ∈ of par ∧ path = above ++ '/' :: position.2 := by
  obtain ⟨par, name⟩ := position
  cases par with
  | none => simp [pathsAt]
  | some par => simp [pathsAt, eq_comm]

/-- The paths of a tag are those its positions give. -/
theorem mem_allPaths {entries : List (Entry Id)} (ordered : Ordered entries) {uuid : Id}
    {path : Path} :
    path ∈ allPaths entries uuid ↔
      ∃ entry ∈ entries, entry.uuid = uuid ∧
        ∃ position ∈ entry.positions, path ∈ pathsAt (allPaths entries) position := by
  induction entries with
  | nil => simp [allPaths]
  | cons head rest ih =>
      obtain ⟨new, own, others, ordered⟩ := ordered
      have skip {position : Option Id × List Char} (other : position.1 ≠ some head.uuid) :
          pathsAt (allPaths (head :: rest)) position = pathsAt (allPaths rest) position := by
        refine pathsAt_congr fun par same => if_neg fun here => other ?_
        rw [same, here]
      rw [allPaths]
      by_cases here : head.uuid = uuid
      · rw [if_pos here, List.mem_flatMap]
        constructor
        · rintro ⟨position, member, inside⟩
          exact ⟨head, by simp, here, position, member, by rwa [skip (own position member).1]⟩
        · rintro ⟨entry, member, named, position, inside, given⟩
          cases member with
          | head => exact ⟨position, inside, by rwa [← skip (own position inside).1]⟩
          | tail _ member =>
              exact absurd (List.mem_map.mpr ⟨entry, member, named.trans here.symm⟩) new
      · rw [if_neg here, ih ordered]
        constructor
        · rintro ⟨entry, member, named, position, inside, given⟩
          exact ⟨entry, List.mem_cons_of_mem _ member, named, position, inside,
            by rwa [skip (others entry member position inside)]⟩
        · rintro ⟨entry, member, named, position, inside, given⟩
          cases member with
          | head => exact absurd named here
          | tail _ member =>
              exact ⟨entry, member, named, position, inside,
                by rwa [← skip (others entry member position inside)]⟩

omit [DecidableEq Id] in
theorem slashless_of_mem {entries : List (Entry Id)} (ordered : Ordered entries)
    {entry : Entry Id} (member : entry ∈ entries) {position : Option Id × List Char}
    (inside : position ∈ entry.positions) : '/' ∉ position.2 := by
  induction entries with
  | nil => cases member
  | cons head rest ih =>
      obtain ⟨-, own, -, ordered⟩ := ordered
      cases member with
      | head => exact (own position inside).2
      | tail _ member => exact ih ordered member

/-- A path names one tag. -/
theorem eq_of_mem_allPaths {entries : List (Entry Id)} (ordered : Ordered entries)
    (apart : Apart entries) {path : Path} {first second : Id}
    (inFirst : path ∈ allPaths entries first) (inSecond : path ∈ allPaths entries second) :
    first = second := by
  obtain ⟨size, short⟩ : ∃ size, path.length < size := ⟨_, Nat.lt_succ_self _⟩
  induction size generalizing path first second with
  | zero => omega
  | succ size ih =>
      obtain ⟨one, memOne, rfl, posOne, insideOne, givenOne⟩ := (mem_allPaths ordered).mp inFirst
      obtain ⟨two, memTwo, rfl, posTwo, insideTwo, givenTwo⟩ := (mem_allPaths ordered).mp inSecond
      have flatOne := slashless_of_mem ordered memOne insideOne
      have flatTwo := slashless_of_mem ordered memTwo insideTwo
      have samePosition : posOne = posTwo := by
        obtain ⟨rootOne, sameOne⟩ | ⟨parOne, aboveOne, underOne, inOne, sameOne⟩ :=
          mem_pathsAt.mp givenOne
        · obtain ⟨rootTwo, sameTwo⟩ | ⟨parTwo, aboveTwo, -, -, sameTwo⟩ := mem_pathsAt.mp givenTwo
          · exact Prod.ext (rootOne.trans rootTwo.symm) (sameOne.symm.trans sameTwo)
          · rw [← sameOne, sameTwo] at flatOne
            simp at flatOne
        · obtain ⟨-, sameTwo⟩ | ⟨parTwo, aboveTwo, underTwo, inTwo, sameTwo⟩ :=
            mem_pathsAt.mp givenTwo
          · rw [← sameTwo, sameOne] at flatTwo
            simp at flatTwo
          · have above : aboveOne = aboveTwo := by
              have parents : parent (aboveOne ++ '/' :: posOne.2) = some aboveOne := parent_concat flatOne
              rw [← sameOne, sameTwo, parent_concat flatTwo] at parents
              exact (Option.some.inj parents).symm
            subst above
            have names : posOne.2 = posTwo.2 := by simpa [sameOne] using sameTwo
            have shorter : aboveOne.length < size := by
              have longer := congrArg List.length sameOne
              rw [List.length_append, List.length_cons] at longer
              omega
            have pars := ih inOne inTwo shorter
            exact Prod.ext (by rw [underOne, underTwo, pars]) names
      exact apart one memOne two memTwo posOne insideOne (samePosition ▸ insideTwo)

/-! ### Above -/

theorem parent_of_mem {entries : List (Entry Id)} {entry : Entry Id} {par : Id} {above : Path}
    {name : List Char} (member : entry ∈ entries) (inside : (some par, name) ∈ entry.positions)
    (given : above ∈ allPaths entries par) : Parent entries par entry.uuid :=
  ⟨List.ne_nil_of_mem given, entry, member, rfl, name, inside⟩

/-- A tag with a path under a path of another is below it. -/
theorem above_of_under {entries : List (Entry Id)} (ordered : Ordered entries)
    (apart : Apart entries) {high low : Path} {top bottom : Id}
    (inHigh : high ∈ allPaths entries top) (inLow : low ∈ allPaths entries bottom)
    (under : Under high low) : Above entries top bottom := by
  obtain ⟨size, short⟩ : ∃ size, low.length < size := ⟨_, Nat.lt_succ_self _⟩
  induction size generalizing low bottom with
  | zero => omega
  | succ size ih =>
      obtain ⟨entry, member, rfl, position, inside, given⟩ := (mem_allPaths ordered).mp inLow
      have flat := slashless_of_mem ordered member inside
      obtain ⟨-, same⟩ | ⟨par, above, named, inAbove, same⟩ := mem_pathsAt.mp given
      · exact absurd (same ▸ under) (not_under_of_slashless flat)
      · have direct : Parent entries par entry.uuid :=
          parent_of_mem member (by rwa [← named] : (some par, position.2) ∈ entry.positions) inAbove
        rw [same, under_concat flat] at under
        cases under with
        | inl here =>
            subst here
            rw [eq_of_mem_allPaths ordered apart inHigh inAbove]
            exact .single direct
        | inr higher =>
            have shorter : above.length < size := by
              have longer := congrArg List.length same
              rw [List.length_append, List.length_cons] at longer
              omega
            exact (ih inAbove higher shorter).tail direct

/-- Below each path of a tag, the tags below it have one. -/
theorem under_of_above {entries : List (Entry Id)} (ordered : Ordered entries) {top bottom : Id}
    (above : Above entries top bottom) {high : Path} (inHigh : high ∈ allPaths entries top) :
    ∃ low ∈ allPaths entries bottom, Under high low := by
  have direct {par child : Id} (parental : Parent entries par child) {path : Path}
      (inPath : path ∈ allPaths entries par) :
      ∃ low ∈ allPaths entries child, Under path low := by
    obtain ⟨-, entry, member, rfl, name, inside⟩ := parental
    exact ⟨path ++ '/' :: name, (mem_allPaths ordered).mpr ⟨entry, member, rfl, _, inside,
      mem_pathsAt.mpr (.inr ⟨par, path, rfl, inPath, rfl⟩)⟩, under_name _ _⟩
  induction above with
  | single parental => exact direct parental inHigh
  | tail _ parental ih =>
      obtain ⟨middle, inMiddle, under⟩ := ih
      obtain ⟨low, inLow, lower⟩ := direct parental inMiddle
      exact ⟨low, inLow, under.trans lower⟩

theorem exists_path_of_above {entries : List (Entry Id)} {top bottom : Id}
    (above : Above entries top bottom) : ∃ path, path ∈ allPaths entries top := by
  obtain ⟨middle, parental, -⟩ := Relation.TransGen.head'_iff.mp above
  exact List.exists_mem_of_ne_nil _ parental.1

/-- No tag is above itself. -/
theorem not_above_self {entries : List (Entry Id)} (ordered : Ordered entries) (uuid : Id) :
    ¬Above entries uuid uuid := by
  intro above
  obtain ⟨first, inFirst⟩ := exists_path_of_above above
  have longer (length : Nat) : ∃ path ∈ allPaths entries uuid, length ≤ path.length := by
    induction length with
    | zero => exact ⟨first, inFirst, Nat.zero_le _⟩
    | succ length ih =>
        obtain ⟨path, inPath, long⟩ := ih
        obtain ⟨low, inLow, under⟩ := under_of_above ordered above inPath
        exact ⟨low, inLow, by have := under.length_lt; omega⟩
  obtain ⟨path, inPath, long⟩ := longer (((allPaths entries uuid).map List.length).sum + 1)
  have bound := List.single_le_sum (by simp) _ (List.mem_map_of_mem (f := List.length) inPath)
  omega

/-! ### What is listed -/

theorem allPaths_cons_of_ne {entry : Entry Id} {rest : List (Entry Id)} {uuid : Id}
    (other : uuid ≠ entry.uuid) : allPaths (entry :: rest) uuid = allPaths rest uuid :=
  if_neg (Ne.symm other)

omit [DecidableEq Id] in
/-- A loop that stops at the limit stops with everything, when there is no more than that. -/
theorem collectPaths_eq (of : Id → List Path) (positions : List (Option Id × List Char))
    (paths : List Path) (few : (paths ++ positions.flatMap (pathsAt of)).length ≤ MAX_PATHS) :
    collectPaths of positions paths = paths ++ positions.flatMap (pathsAt of) := by
  induction positions generalizing paths with
  | nil => simp [collectPaths]
  | cons position rest ih =>
      rw [List.flatMap_cons, ← List.append_assoc] at few ⊢
      rw [collectPaths]
      split
      · rename_i full
        have none : rest.flatMap (pathsAt of) = [] := by
          refine List.eq_nil_of_length_eq_zero ?_
          rw [List.length_append] at few
          omega
        rw [none, List.append_nil]
      · exact ih _ few

theorem pathsWithin_eq {entries : List (Entry Id)} (ordered : Ordered entries)
    (listed : Listed entries) (uuid : Id) : pathsWithin entries uuid = allPaths entries uuid := by
  induction entries generalizing uuid with
  | nil => rfl
  | cons entry rest ih =>
      have before : Listed rest := by
        intro other
        by_cases here : other = entry.uuid
        · rw [here, allPaths_eq_nil ordered.1]
          exact Nat.zero_le _
        · rw [← allPaths_cons_of_ne here]
          exact listed other
      have within : pathsWithin rest = allPaths rest := funext (ih ordered.2.2.2 before)
      rw [pathsWithin, allPaths]
      split
      · rename_i here
        have few := listed uuid
        rw [allPaths, if_pos here] at few
        rw [within, collectPaths_eq _ _ _ (by simpa using few), List.nil_append]
      · exact ih ordered.2.2.2 before uuid

/-- A tag with no more paths than the limit lists them all. -/
theorem pathsOf_eq {entries : List (Entry Id)} (ordered : Ordered entries)
    (listed : Listed entries) (uuid : Id) : pathsOf entries uuid = allPaths entries uuid := by
  rw [pathsOf, pathsWithin_eq ordered listed, List.take_of_length_le (listed uuid)]

/-- A vocabulary has the paths of a hierarchy. -/
structure Represents (vocab : Vocab Id) (entries : List (Entry Id)) : Prop where
  /-- A path names the tag that has it. -/
  names : ∀ path uuid, vocab.uuidOf path = some uuid ↔ path ∈ allPaths entries uuid
  /-- The paths are all there. -/
  listed : ∀ path, path ∈ vocab.names ↔ ∃ uuid, path ∈ allPaths entries uuid
  /-- A tag has all of its paths. -/
  paths : ∀ uuid path, path ∈ allPaths entries uuid → ∃ paths, vocab.paths.lookup uuid = some paths ∧
    ∀ other, other ∈ paths ↔ other ∈ allPaths entries uuid
  /-- The partitions are there. -/
  partitions : ∀ uuid, uuid ∈ vocab.partitions ↔
    ∃ entry ∈ entries, entry.uuid = uuid ∧ entry.partition

omit [DecidableEq Id] in
theorem lookup_eq_some_of_unique {α β : Type} [BEq α] [LawfulBEq α] {pairs : List (α × β)}
    (unique : ∀ key first second, (key, first) ∈ pairs → (key, second) ∈ pairs → first = second)
    {key : α} {value : β} : pairs.lookup key = some value ↔ (key, value) ∈ pairs := by
  constructor
  · intro found
    obtain ⟨before, after, rfl, -⟩ := List.lookup_eq_some_iff.mp found
    simp
  · intro member
    cases found : pairs.lookup key with
    | none =>
        have absent := List.lookup_eq_none_iff.mp found (key, value) member
        simp at absent
    | some other =>
        obtain ⟨before, after, rfl, -⟩ := List.lookup_eq_some_iff.mp found
        rw [unique key other value (by simp) member]

theorem exists_entry_of_mem {entries : List (Entry Id)} {uuid : Id} {path : Path}
    (given : path ∈ allPaths entries uuid) : uuid ∈ entries.map Entry.uuid := by
  by_contra absent
  rw [allPaths_eq_nil absent] at given
  exact nomatch given

/-- What is loaded has the paths of the hierarchy. -/
theorem load_represents {entries : List (Entry Id)} (ordered : Ordered entries)
    (apart : Apart entries) (listed : Listed entries) : Represents (.load entries) entries := by
  have resolved (uuid : Id) (paths : List Path) :
      (uuid, paths) ∈ (entries.map fun entry => (entry.uuid, pathsOf entries entry.uuid)).filter
          (fun found => !found.2.isEmpty) ↔
        uuid ∈ entries.map Entry.uuid ∧ paths = allPaths entries uuid ∧ paths ≠ [] := by
    simp only [pathsOf_eq ordered listed, List.mem_filter, List.mem_map, Prod.mk.injEq,
      Bool.not_eq_true', List.isEmpty_eq_false_iff]
    constructor
    · rintro ⟨⟨entry, member, rfl, rfl⟩, some⟩
      exact ⟨⟨entry, member, rfl⟩, rfl, some⟩
    · rintro ⟨⟨entry, member, rfl⟩, rfl, some⟩
      exact ⟨⟨entry, member, rfl, rfl⟩, some⟩
  have mentioned {path : Path} {uuid : Id} (given : path ∈ allPaths entries uuid) :=
    (resolved uuid (allPaths entries uuid)).mpr
      ⟨exists_entry_of_mem given, rfl, List.ne_nil_of_mem given⟩
  have pair (path : Path) (uuid : Id) :
      (path, uuid) ∈ (Vocab.load entries).name2uuid ↔ path ∈ allPaths entries uuid := by
    simp only [Vocab.load, List.mem_reverse, List.mem_flatMap, List.mem_map, Prod.mk.injEq]
    constructor
    · rintro ⟨⟨other, paths⟩, found, path, inside, rfl, rfl⟩
      rwa [← ((resolved other paths).mp found).2.1]
    · intro given
      exact ⟨_, mentioned given, path, given, rfl, rfl⟩
  refine ⟨fun path uuid => ?_, fun path => ?_, fun uuid path given => ?_, fun uuid => ?_⟩
  · refine (lookup_eq_some_of_unique fun key first second inFirst inSecond => ?_).trans
      (pair path uuid)
    exact eq_of_mem_allPaths ordered apart ((pair key first).mp inFirst)
      ((pair key second).mp inSecond)
  · simp only [Vocab.load, List.mem_flatMap]
    constructor
    · rintro ⟨⟨uuid, paths⟩, found, inside⟩
      exact ⟨uuid, by rwa [← ((resolved uuid paths).mp found).2.1]⟩
    · rintro ⟨uuid, given⟩
      exact ⟨_, mentioned given, given⟩
  · refine ⟨allPaths entries uuid, (lookup_eq_some_of_unique ?_).mpr (mentioned given),
      fun other => Iff.rfl⟩
    intro key first second inFirst inSecond
    rw [((resolved key first).mp inFirst).2.1, ((resolved key second).mp inSecond).2.1]
  · simp only [Vocab.load, List.mem_map, List.mem_filter]
    constructor
    · rintro ⟨entry, ⟨member, flagged⟩, rfl⟩
      exact ⟨entry, member, rfl, flagged⟩
    · rintro ⟨entry, member, rfl, flagged⟩
      exact ⟨entry, ⟨member, flagged⟩, rfl⟩

namespace Represents

variable {vocab : Vocab Id} {entries : List (Entry Id)} {path : Path} {uuid : Id}

theorem mem_pathsOf (represents : Represents vocab entries) (named : path ∈ allPaths entries uuid)
    {other : Path} : other ∈ vocab.pathsOf path ↔ other ∈ allPaths entries uuid := by
  obtain ⟨paths, found, same⟩ := represents.paths uuid path named
  rw [Vocab.pathsOf, (represents.names path uuid).mpr named, Option.bind_some, found,
    Option.getD_some, same]

/-- The ancestor paths of a tag name the tags above it. -/
theorem ancestor_iff (represents : Represents vocab entries) (ordered : Ordered entries)
    (apart : Apart entries) (named : path ∈ allPaths entries uuid) {other : Id} :
    other ∈ (vocab.ancestors path).filterMap vocab.uuidOf ↔ Above entries other uuid := by
  simp only [Vocab.ancestors, List.mem_filterMap, List.mem_dedup, List.mem_flatMap, mem_ancestors,
    represents.names, represents.mem_pathsOf named]
  constructor
  · rintro ⟨high, ⟨low, inLow, under⟩, inHigh⟩
    exact above_of_under ordered apart inHigh inLow under
  · intro above
    obtain ⟨high, inHigh⟩ := exists_path_of_above above
    obtain ⟨low, inLow, under⟩ := under_of_above ordered above inHigh
    exact ⟨high, ⟨low, inLow, under⟩, inHigh⟩

/-- The descendant paths of a tag name the tags below it. -/
theorem descendant_iff (represents : Represents vocab entries) (ordered : Ordered entries)
    (apart : Apart entries) (named : path ∈ allPaths entries uuid) {other : Id} :
    other ∈ (vocab.descendants path).filterMap vocab.uuidOf ↔ Above entries uuid other := by
  simp only [Vocab.descendants, descendants, List.mem_filterMap, List.mem_dedup, List.mem_flatMap,
    List.mem_filter, isAncestor_iff, represents.names, represents.listed,
    represents.mem_pathsOf named]
  constructor
  · rintro ⟨low, ⟨high, inHigh, -, under⟩, inLow⟩
    exact above_of_under ordered apart inHigh inLow under
  · intro above
    obtain ⟨low, inLow, under⟩ := under_of_above ordered above named
    exact ⟨low, ⟨path, named, ⟨other, inLow⟩, under⟩, inLow⟩

theorem withAncestors_iff (represents : Represents vocab entries) (ordered : Ordered entries)
    (apart : Apart entries) (named : path ∈ allPaths entries uuid) {other : Id} :
    other ∈ (vocab.withAncestors path).filterMap vocab.uuidOf ↔
      other = uuid ∨ Above entries other uuid := by
  rw [Vocab.withAncestors, List.filterMap_cons_some ((represents.names path uuid).mpr named),
    List.mem_cons, represents.ancestor_iff ordered apart named]

theorem withDescendants_iff (represents : Represents vocab entries) (ordered : Ordered entries)
    (apart : Apart entries) (named : path ∈ allPaths entries uuid) {other : Id} :
    other ∈ (vocab.withDescendants path).filterMap vocab.uuidOf ↔
      other = uuid ∨ Above entries uuid other := by
  rw [Vocab.withDescendants, List.filterMap_cons_some ((represents.names path uuid).mpr named),
    List.mem_cons, represents.descendant_iff ordered apart named]

end Represents

end Hierarchy

end Tags
end Metafolder
