import Metafolder.BudgetWalks
import Metafolder.Executor

/-!
# Placing watches

Which directories the daemon watches where it needs one watch for each: those a walk from the root
reaches through eligible directories, but for the subtrees left out of the budget.
-/

namespace Metafolder

open BudgetWalk

/-- A directory tree, as walks read it. -/
structure DirTree extends Disk where
  /-- An entry is listed once. -/
  nodup : ∀ dir names, readDir dir = some names → names.Nodup
  /-- How deep the tree is. -/
  depth : Nat
  /-- Nothing can be listed deeper. -/
  shallow : ∀ dir, depth ≤ dir.length → readDir dir = none

/-- `file_type().is_dir()`: whether an entry is a directory, links not followed. -/
def DirTree.isDir (disk : DirTree) (rel : RelPath) : Bool :=
  (disk.metadata rel).any fun held => held.kind = .dir

/-- How deep some directories are. -/
def deepest (dirs : List RelPath) : Nat := dirs.foldr (fun dir depth => max dir.length depth) 0

theorem le_deepest {dirs : List RelPath} {dir : RelPath} (member : dir ∈ dirs) :
    dir.length ≤ deepest dirs := by
  induction member with
  | head => exact le_max_left _ _
  | tail _ _ ih => exact ih.trans (le_max_right _ _)

/-- The tree of some directories, and nothing else. -/
def DirTree.ofDirs (dirs : List RelPath) : DirTree where
  metadata rel := if rel = [] ∨ rel ∈ dirs then some { kind := .dir, len := 0 } else none
  readDir rel :=
    if rel = [] ∨ rel ∈ dirs then
      some ((dirs.filter fun dir => dir.dropLast = rel).filterMap List.getLast?).dedup
    else none
  nodup rel names read := by
    split at read
    · cases read
      exact List.nodup_dedup _
    · cases read
  depth := deepest dirs + 1
  shallow rel deep := by
    refine if_neg fun there => ?_
    obtain rfl | member := there
    · exact absurd deep (by simp)
    · have bound := le_deepest member
      omega

/-- `Walk`: what a placement walk is given. -/
structure Walk where
  /-- The directories. -/
  disk : DirTree
  /-- The rules. -/
  rules : WatchRules
  /-- `internal_dir`. -/
  internalDir : RelPath
  /-- The offline mount points, and the second mounts. -/
  offline : List String := []
  /-- Where `mfr_watch_exceeded` is false. -/
  overrides : List String := []
  /-- `stop_at`: directories never entered. -/
  stopAt : List RelPath := []

/-- `WatchPlan`: the directories to watch, and the subtrees there was no room for. -/
abbrev WatchPlan : Type := Taken TreeName

namespace Walk

/-- `holds_override`: whether an override lies at or below a directory. -/
def holdsOverride (walk : Walk) (rel : RelPath) : Bool :=
  walk.overrides.any fun path =>
    path = rel.display || (rel.display ++ "/").toList.isPrefixOf path.toList

variable [Externals]

/-- Whether a directory is left out of the watch, by its own exclusion or the one inherited. -/
def excluded (walk : Walk) (rel : RelPath) (inherited : Bool) : Bool :=
  (walk.rules.exceededOwn rel).getD inherited

/-- What a walk makes of one entry. -/
def judge (walk : Walk) (rel : RelPath) (inherited : Bool) : Verdict Bool :=
  if rel = walk.internalDir ∨ rel ∈ walk.stopAt then .skip
  else if walk.disk.isDir rel then
    match walk.rules.isEligible rel with
    | .ok true =>
        if offlineContains walk.offline rel then .skip
        else if walk.excluded rel inherited then
          -- It is entered only where an override is known to be inside.
          if walk.holdsOverride rel then .enter true else .skip
        else .take false
    | .ok false => .skip
    | .error _ => .skip
  else .skip

/-- The tree a walk goes down. -/
def tree (walk : Walk) : Tree TreeName Bool where
  entries dir := (walk.disk.readDir dir).getD []
  nodup dir := by
    cases listed : walk.disk.readDir dir with
    | none => exact List.nodup_nil
    | some names => exact walk.disk.nodup dir names listed
  depth := walk.disk.depth
  shallow dir deep := by rw [walk.disk.shallow dir deep]; rfl
  verdict := walk.judge

/-- `collect_from`: the walk from a directory whose own exclusion is given. -/
def collectFrom (walk : Walk) (cap : Option Nat) (dir : RelPath) (excluded : Bool)
    (plan : WatchPlan) : WatchPlan :=
  walk.tree.collect cap walk.disk.depth dir excluded plan

/-- `compute_watched_dirs_timed`: the root is watched if it is eligible, and walked in any case. -/
def computeWatchedDirs (walk : Walk) (cap : Option Nat) : WatchPlan :=
  match walk.rules.isEligible [] with
  | .error _ => {}
  | .ok eligible => walk.collectFrom cap [] false ⟨if eligible then {[]} else ∅, []⟩

end Walk

/-! ### What holds the rules -/

/-- The metarecords that have a place, with the rules they hold. -/
structure Tracked [Externals] where
  /-- Whether case does not count in names. -/
  caseInsensitive : Bool
  /-- Each metarecord's path and rules. -/
  records : List (RelPath × Carrier)
  /-- No two have one path. -/
  apart : (records.map fun held => held.1.map (normalizeName · caseInsensitive)).Nodup
  /-- The root is there. -/
  rooted : ∃ carrier, ([], carrier) ∈ records

namespace Tracked

variable [Externals]

/-- A path as the rules key it. -/
def key (tracked : Tracked) (rel : RelPath) : PathKey :=
  rel.map (normalizeName · tracked.caseInsensitive)

/-- `WatchRules::load`, the places known. -/
def rules (tracked : Tracked) : WatchRules :=
  tracked.records.foldl
    (fun rules held => if held.2.bare then rules else rules.enter held.2 ⟨held.1, []⟩)
    { caseInsensitive := tracked.caseInsensitive, head := none }

/-- `watch_exceeded_overrides`. -/
def overrides (tracked : Tracked) : List String :=
  (tracked.records.filter fun held => held.2.exceeded = some false).map fun held => held.1.display

/-- The walk of some directories under these rules. -/
def walk (tracked : Tracked) (disk : DirTree) (internalDir : RelPath) (offline : List String) :
    Walk where
  disk := disk
  rules := tracked.rules
  internalDir := internalDir
  offline := offline
  overrides := tracked.overrides

/-- The metarecord whose path is keyed so. -/
def found (tracked : Tracked) (key : PathKey) : Option (RelPath × Carrier) :=
  tracked.records.find? fun held => tracked.key held.1 = key

/-- `resolve_rel`: the metarecord at a path. -/
def resolveRel (tracked : Tracked) (rel : RelPath) : Option (RelPath × Carrier) :=
  tracked.found (tracked.key rel)

/-- The exclusion of the metarecord at a path. -/
def exceededAt (tracked : Tracked) (rel : RelPath) : Option Bool :=
  (tracked.resolveRel rel).bind fun held => held.2.exceeded

/-- A metarecord at a path where there is none. -/
def create (tracked : Tracked) (rel : RelPath) (carrier : Carrier)
    (new : tracked.resolveRel rel = none) : Tracked where
  caseInsensitive := tracked.caseInsensitive
  records := tracked.records ++ [(rel, carrier)]
  apart := by
    rw [List.map_append, List.nodup_append]
    refine ⟨tracked.apart, List.nodup_singleton _, fun key before other last same => ?_⟩
    obtain ⟨held, inside, rfl⟩ := List.mem_map.mp before
    rw [List.map_singleton, List.mem_singleton] at last
    have differ := List.find?_eq_none.mp new held inside
    exact differ (decide_eq_true (same.trans last))
  rooted := tracked.rooted.imp fun _ held => List.mem_append_left _ held

/-- One directory of `ensure_parent_metarecords`, from the one above it. -/
def ensureChild (made : RelPath → Uuid) (held : Tracked × RelPath) (name : TreeName) :
    Tracked × RelPath :=
  let rel := held.2 ++ [name]
  match new : held.1.resolveRel rel with
  | some existing => (held.1, existing.1)
  | none => (held.1.create rel ⟨made rel, none, none, []⟩ new, rel)

/-- `set_field`: the metarecord at a path is excluded. -/
def setExceeded (tracked : Tracked) (rel : RelPath) : Tracked where
  caseInsensitive := tracked.caseInsensitive
  records := tracked.records.map fun held =>
    if tracked.key held.1 = tracked.key rel then (held.1, { held.2 with exceeded := some true })
    else held
  apart := by
    have same : ∀ held : RelPath × Carrier,
        (if tracked.key held.1 = tracked.key rel then
          (held.1, { held.2 with exceeded := some true }) else held).1 = held.1 := by
      intro held
      split <;> rfl
    rw [List.map_map]
    simpa only [Function.comp_def, same] using tracked.apart
  rooted := by
    obtain ⟨carrier, held⟩ := tracked.rooted
    refine ⟨if tracked.key [] = tracked.key rel then { carrier with exceeded := some true }
      else carrier, List.mem_map.mpr ⟨_, held, ?_⟩⟩
    dsimp only
    split <;> rfl

/-- One path of `write_watch_frontier`: its metarecord is made where there is none, with those above
it. -/
def exclude (made : RelPath → Uuid) (tracked : Tracked) (rel : RelPath) : Tracked :=
  let held := match tracked.resolveRel rel with
    | some _ => tracked
    | none => (rel.foldl (ensureChild made) (tracked, [])).1
  held.setExceeded rel

/-- `write_watch_frontier`: the subtrees left are excluded. -/
def writeWatchFrontier (made : RelPath → Uuid) (tracked : Tracked) (frontier : List RelPath) :
    Tracked :=
  frontier.foldl (exclude made) tracked

end Tracked

end Metafolder
