import Metafolder.WatchFrontier

/-!
# Keeping watches in step

As directories come and go, the watches follow batch by batch: the subtrees that left are forgotten,
those that arrived are walked.  What is watched then is compared with what a placement would watch.
-/

namespace Metafolder

open BudgetWalk

/-! ### What happens to the directories -/

/-- Whether a directory can be walked to: each name on the way is listed, and is a directory. -/
def DirTree.On (disk : DirTree) (rel : RelPath) : Prop :=
  ∀ dir name, dir ++ [name] <+: rel →
    name ∈ (disk.readDir dir).getD [] ∧ disk.isDir (dir ++ [name]) = true

/-- What an event says has happened to the directories.  What is not at or below its paths is as it
was. -/
inductive DirTree.Changes (old new : DirTree) : FsEvent → Prop
  | create {path : RelPath} (absent : ∀ rel, path <+: rel → ¬old.On rel)
      (rest : ∀ rel, ¬path <+: rel → (new.On rel ↔ old.On rel)) : Changes old new (.create path)
  | arrive {path : RelPath} (absent : ∀ rel, path <+: rel → ¬old.On rel)
      (rest : ∀ rel, ¬path <+: rel → (new.On rel ↔ old.On rel)) : Changes old new (.renameTo path)
  | remove {path : RelPath} (gone : ∀ rel, path <+: rel → ¬new.On rel)
      (rest : ∀ rel, ¬path <+: rel → (new.On rel ↔ old.On rel)) : Changes old new (.remove path)
  | depart {path : RelPath} (gone : ∀ rel, path <+: rel → ¬new.On rel)
      (rest : ∀ rel, ¬path <+: rel → (new.On rel ↔ old.On rel)) : Changes old new (.renameFrom path)
  /-- A directory may be moved over an empty one. -/
  | rename {source target : RelPath} (proper : target ≠ []) (outside : ¬source <+: target)
      (gone : ∀ rel, source <+: rel → ¬new.On rel)
      (empty : ∀ rel, target <+: rel → rel ≠ target → ¬old.On rel)
      (kept : old.On target → new.On target)
      (rest : ∀ rel, ¬source <+: rel → ¬target <+: rel → (new.On rel ↔ old.On rel)) :
      Changes old new (.rename source target)
  | data {path : RelPath} (same : ∀ rel, new.On rel ↔ old.On rel) :
      Changes old new (.modifyData path)
  | attributes {path : RelPath} (same : ∀ rel, new.On rel ↔ old.On rel) :
      Changes old new (.modifyMeta path)

namespace FsEvent

/-- Where an event says something has arrived. -/
def arrivals : FsEvent → List RelPath
  | create path => [path]
  | renameTo path => [path]
  | rename _ target => [target]
  | _ => []

/-- Where an event says something has left. -/
def departures : FsEvent → List RelPath
  | remove path => [path]
  | renameFrom path => [path]
  | rename source _ => [source]
  | _ => []

end FsEvent

/-! ### Maintaining the watches -/

/-- `forget_subtree`. -/
def forgetSubtree (watched : Finset RelPath) (dir : RelPath) : Finset RelPath :=
  watched.filter fun path => ¬dir <+: path

namespace Walk

variable [Externals]

/-- Whether an arrival is walked: a directory, eligible and online. -/
def welcomes (walk : Walk) (rel : RelPath) : Bool :=
  walk.disk.isDir rel && walk.rules.isEligible rel matches .ok true &&
    !offlineContains walk.offline rel

/-- An arrival is watched, with what is below it. -/
def arrive (walk : Walk) (cap : Option Nat) (plan : WatchPlan) (rel : RelPath) : WatchPlan :=
  if walk.welcomes rel then
    walk.collectFrom cap rel false { plan with out := insert rel plan.out }
  else plan

/-- `maintain_watches`: the directories watched after a batch of events, and the subtrees there was
no room for. -/
def maintainWatches (walk : Walk) (cap : Option Nat) (events : List Queued)
    (watched : Finset RelPath) : Finset RelPath × List RelPath :=
  let arrivals := events.flatMap fun event => event.1.arrivals
  let departures := events.flatMap fun event => event.1.departures
  let kept := departures.foldl forgetSubtree watched
  -- What is watched already is charged to the ceiling.
  let subtree := arrivals.foldl (walk.arrive (cap.map fun cap => cap - kept.card)) {}
  (kept ∪ subtree.out, subtree.frontier)

/-! ### What is walked -/

variable {walk : Walk} {cap : Option Nat} {rel node : RelPath}

omit [Externals] in
theorem nearest_one {α : Type} (found : Nat → Option α) : nearest 1 found = found 0 := by
  rw [nearest, List.range_one, List.reverse_singleton, List.findSome?_singleton]

/-- Whether the root is tracked can always be told. -/
theorem root_isEligible (rules : WatchRules) : ∃ eligible, rules.isEligible [] = .ok eligible := by
  rw [WatchRules.isEligible, WatchRules.explain]
  have length : ([] : RelPath).length + 1 = 1 := rfl
  rw [length, nearest_one]
  cases (rules.carrierAt [] 0).bind Carrier.watch with
  | none => exact ⟨false, rfl⟩
  | some value =>
      cases value with
      | true => exact ⟨true, rfl⟩
      | false => exact ⟨false, rfl⟩

/-- Where a placement without a budget watches: at the root, if it is eligible, and below it
wherever a walk takes a directory. -/
def Placed (walk : Walk) (rel : RelPath) : Prop :=
  rel = [] ∧ walk.rules.isEligible [] = .ok true ∨
    walk.tree.Meets (fun _ => False) [] false rel

theorem mem_computeWatchedDirs : rel ∈ (walk.computeWatchedDirs none).out ↔ walk.Placed rel := by
  obtain ⟨eligible, root⟩ := root_isEligible walk.rules
  rw [computeWatchedDirs_eq root, Tree.walk_unbounded walk.deep, Placed, root]
  refine or_congr_left ?_
  cases eligible with
  | true => simp [rootWatched]
  | false => simp [rootWatched]

omit [Externals] in
/-- A node above another and not above where the way to it starts is there, or further. -/
theorem above_cases {dir above : RelPath} {name next : TreeName} (below : dir <+: above)
    (within : above ++ [next] <+: node) (way : dir ++ [name] <+: node) :
    above = dir ∧ next = name ∨ dir ++ [name] <+: above := by
  obtain same | longer := Nat.eq_or_lt_of_le below.length_le
  · have same := (below.eq_of_length same).symm
    subst same
    exact .inl ⟨rfl, Tree.Meets.child_unique within way⟩
  · refine .inr (List.prefix_of_prefix_length_le way ((List.prefix_append _ _).trans within) ?_)
    rw [List.length_append, List.length_singleton]
    exact longer

/-- What is met stands in directories that are listed, and that the walk may come by. -/
theorem on_of_meets {dir : RelPath} {state : Bool} {cut : RelPath → Prop}
    (meets : walk.tree.Meets cut dir state node) {above : RelPath} {next : TreeName}
    (below : dir <+: above) (within : above ++ [next] <+: node) :
    next ∈ (walk.disk.readDir above).getD [] ∧ walk.Admits (above ++ [next]) := by
  induction meets with
  | @here path state handed name listed told =>
      obtain ⟨admits, -⟩ := judge_take.mp told
      obtain ⟨rfl, rfl⟩ | further := above_cases below within (List.prefix_refl _)
      · exact ⟨listed, admits⟩
      · have longer := further.length_le.trans (Nat.le_of_lt_succ (by simpa using within.length_le))
        rw [List.length_append, List.length_singleton] at longer
        omega
  | @entered path node state handed name listed told met ih =>
      obtain ⟨admits, -⟩ := judge_enter.mp told
      obtain ⟨rfl, rfl⟩ | further := above_cases below within met.under.1
      · exact ⟨listed, admits⟩
      · exact ih further within
  | @taken path node state handed name listed told uncut met ih =>
      obtain ⟨admits, -⟩ := judge_take.mp told
      obtain ⟨rfl, rfl⟩ | further := above_cases below within met.under.1
      · exact ⟨listed, admits⟩
      · exact ih further within

/-- The same walk, of the directories as they are at another time. -/
def on (walk : Walk) (disk : DirTree) : Walk := { walk with disk := disk }

theorem admits_on {disk : DirTree} (isDir : disk.isDir rel = true) (admits : walk.Admits rel) :
    (walk.on disk).Admits rel :=
  ⟨admits.1, isDir, admits.2.2⟩

theorem judge_on {disk : DirTree} (isDir : disk.isDir rel = true) (admits : walk.Admits rel)
    (inherited : Bool) : (walk.on disk).judge rel inherited = walk.judge rel inherited := by
  rw [judge_admits admits, judge_admits (admits_on isDir admits)]
  rfl

/-- What is met is met as long as it can be walked to. -/
theorem meets_on {disk : DirTree} {dir : RelPath} {state : Bool}
    (meets : walk.tree.Meets (fun _ => False) dir state node) (there : disk.On node) :
    (walk.on disk).tree.Meets (fun _ => False) dir state node := by
  induction meets with
  | @here path state handed name listed told =>
      obtain ⟨listed, isDir⟩ := there path name (List.prefix_refl _)
      exact .here listed ((judge_on isDir (judge_take.mp told).1 state).trans told)
  | @entered path node state handed name listed told met ih =>
      obtain ⟨listed, isDir⟩ := there path name met.under.1
      exact .entered listed ((judge_on isDir (judge_enter.mp told).1 state).trans told) (ih there)
  | @taken path node state handed name listed told uncut met ih =>
      obtain ⟨listed, isDir⟩ := there path name met.under.1
      exact .taken listed ((judge_on isDir (judge_take.mp told).1 state).trans told) uncut
        (ih there)

/-- A placed directory stands in directories the walk may come by. -/
theorem Placed.stands (placed : walk.Placed rel) {dir : RelPath} {name : TreeName}
    (within : dir ++ [name] <+: rel) :
    name ∈ (walk.disk.readDir dir).getD [] ∧ walk.Admits (dir ++ [name]) := by
  obtain ⟨rfl, -⟩ | meets := placed
  · exact absurd within.length_le (by simp)
  · exact on_of_meets meets List.nil_prefix within

theorem Placed.on (placed : walk.Placed rel) : walk.disk.On rel := fun _ _ within =>
  ⟨(placed.stands within).1, (placed.stands within).2.2.1⟩

/-- A directory stays placed as long as it can be walked to. -/
theorem Placed.moved {disk : DirTree} (placed : walk.Placed rel) (there : disk.On rel) :
    (walk.on disk).Placed rel :=
  placed.imp_right fun meets => meets_on meets there

/-- What a placed directory stands in is walked, when it arrives. -/
theorem Placed.welcomes {above : RelPath} (placed : walk.Placed rel) (within : above <+: rel)
    (below : above ≠ []) : walk.welcomes above = true := by
  have same := List.dropLast_append_getLast below
  rw [← same] at within ⊢
  obtain ⟨-, -, isDir, eligible, online⟩ := placed.stands within
  rw [Walk.welcomes, isDir, eligible, online]
  rfl

/-- What is placed below a placed directory is what a walk from it takes. -/
theorem Placed.under {above : RelPath} (placed : walk.Placed above) (within : above <+: rel)
    (below : rel ≠ above) :
    walk.Placed rel ↔ walk.tree.Meets (fun _ => False) above false rel := by
  have longer : above.length < rel.length := by
    refine Nat.lt_of_le_of_ne within.length_le fun same => ?_
    exact below (within.eq_of_length same).symm
  have proper : rel ≠ [] := by
    intro root
    rw [root] at longer
    exact Nat.not_lt_zero _ longer
  have walked : walk.Placed rel ↔ walk.tree.Meets (fun _ => False) [] false rel := by
    simp only [Placed, proper, false_and, false_or]
  rw [walked]
  obtain ⟨rfl, -⟩ | meets := placed
  · exact Iff.rfl
  · constructor
    · intro further
      obtain ⟨-, handed, next, told, rest⟩ := meets.through further within longer
      obtain ⟨-, -, rfl⟩ := judge_take.mp told
      exact rest
    · intro rest
      refine meets.trans id fun handed next told => ?_
      obtain ⟨-, -, rfl⟩ := judge_take.mp told
      exact rest

/-! ### A batch -/

theorem arrive_kept {plan : WatchPlan} :
    plan.frontier ⊆ (walk.arrive cap plan rel).frontier := by
  rw [arrive]
  split
  · exact @Tree.collect_kept _ _ _ walk.tree cap rel false _
      { plan with out := insert rel plan.out }
  · exact List.Subset.refl _

theorem arrivals_kept {rels : List RelPath} {plan : WatchPlan} :
    plan.frontier ⊆ (rels.foldl (walk.arrive cap) plan).frontier := by
  induction rels generalizing plan with
  | nil => exact List.Subset.refl _
  | cons rel rest ih => exact List.Subset.trans arrive_kept ih

/-- What an arrival adds, where nothing is left for want of room. -/
theorem arrive_out {plan : WatchPlan} (room : (walk.arrive cap plan rel).frontier = []) :
    node ∈ (walk.arrive cap plan rel).out ↔ node ∈ plan.out ∨ walk.welcomes rel = true ∧
      (node = rel ∨ walk.tree.Meets (fun _ => False) rel false node) := by
  have before : plan.frontier = [] := List.eq_nil_of_subset_nil (room ▸ arrive_kept)
  rw [arrive] at room ⊢
  split
  · next welcome =>
    rw [if_pos welcome, collectFrom] at room
    have covers : Tree.Covers walk.tree (fun _ => False) rel false
        { plan with out := insert rel plan.out }
        (walk.collectFrom cap rel false { plan with out := insert rel plan.out }) := by
      refine Tree.collect_covers (Nat.le_add_left _ _) (fun node left => ?_) fun node _ _ => ?_
      · change node ∈ plan.frontier at left
        rw [before] at left
        exact absurd left List.not_mem_nil
      · rw [room]
        exact ⟨False.elim, fun left => absurd left List.not_mem_nil⟩
    rw [covers.out, Finset.mem_insert, welcome]
    simp only [not_false_eq_true, and_true, true_and]
    rw [or_comm (a := node = rel), or_assoc]
  · next refused => simp [refused]

/-- What arrivals add one after another, where nothing is left for want of room. -/
theorem arrivals_out {rels : List RelPath} {plan : WatchPlan}
    (room : (rels.foldl (walk.arrive cap) plan).frontier = []) :
    node ∈ (rels.foldl (walk.arrive cap) plan).out ↔ node ∈ plan.out ∨ ∃ rel ∈ rels,
      walk.welcomes rel = true ∧
        (node = rel ∨ walk.tree.Meets (fun _ => False) rel false node) := by
  induction rels generalizing plan with
  | nil => simp
  | cons rel rest ih =>
      rw [List.foldl_cons] at room ⊢
      have first : (walk.arrive cap plan rel).frontier = [] :=
        List.eq_nil_of_subset_nil (room ▸ arrivals_kept)
      rw [ih room, arrive_out first]
      simp only [List.mem_cons, exists_eq_or_imp]
      exact or_assoc

end Walk

theorem mem_forgetSubtrees {dirs : List RelPath} {watched : Finset RelPath} {rel : RelPath} :
    rel ∈ dirs.foldl forgetSubtree watched ↔ rel ∈ watched ∧ ∀ dir ∈ dirs, ¬dir <+: rel := by
  induction dirs generalizing watched with
  | nil => simp
  | cons dir rest ih =>
      rw [List.foldl_cons, ih, forgetSubtree, Finset.mem_filter]
      simp only [List.mem_cons, forall_eq_or_imp]
      exact and_assoc

/-! ### Runs -/

/-- Whether something at or above a path is said to have arrived. -/
def Comes (events : List Queued) (rel : RelPath) : Prop :=
  ∃ event ∈ events, ∃ dir ∈ event.1.arrivals, dir <+: rel

/-- Whether something at or above a path is said to have left. -/
def Leaves (events : List Queued) (rel : RelPath) : Prop :=
  ∃ event ∈ events, ∃ dir ∈ event.1.departures, dir <+: rel

section Told

variable {events more : List Queued} {event : FsEvent} {cookie : Option Int64} {rel : RelPath}

theorem comes_append : Comes (events ++ more) rel ↔ Comes events rel ∨ Comes more rel := by
  simp only [Comes, List.mem_append, or_and_right, exists_or]

theorem leaves_append : Leaves (events ++ more) rel ↔ Leaves events rel ∨ Leaves more rel := by
  simp only [Leaves, List.mem_append, or_and_right, exists_or]

theorem comes_one : Comes [(event, cookie)] rel ↔ ∃ dir ∈ event.arrivals, dir <+: rel := by
  simp only [Comes, List.mem_singleton, exists_eq_left]

theorem leaves_one : Leaves [(event, cookie)] rel ↔ ∃ dir ∈ event.departures, dir <+: rel := by
  simp only [Leaves, List.mem_singleton, exists_eq_left]

/-- What an event says of the directories there are after it, and of those there were before. -/
theorem DirTree.Changes.spec {old new : DirTree} (change : old.Changes new event)
    (cookie : Option Int64) :
    (∀ rel, new.On rel → Comes [(event, cookie)] rel ∨
      old.On rel ∧ ¬Leaves [(event, cookie)] rel) ∧
    (∀ rel, old.On rel → new.On rel ∨ Leaves [(event, cookie)] rel) ∧
    ∀ dir ∈ event.arrivals, dir ≠ [] := by
  -- The root is always there, and no event can say that it came or left.
  have root : ∀ disk : DirTree, disk.On [] := fun disk dir name within =>
    absurd within.length_le (by simp)
  have came : ∀ {path : RelPath}, (∀ rel, path <+: rel → ¬old.On rel) →
      (∀ rel, ¬path <+: rel → (new.On rel ↔ old.On rel)) →
      (∀ rel, new.On rel → path <+: rel ∨ old.On rel) ∧ (∀ rel, old.On rel → new.On rel) ∧
        path ≠ [] := by
    intro path absent rest
    refine ⟨fun rel on => ?_, fun rel on => ?_, ?_⟩
    · by_cases above : path <+: rel
      · exact .inl above
      · exact .inr ((rest rel above).mp on)
    · exact (rest rel fun above => absent rel above on).mpr on
    · rintro rfl
      exact absent [] (List.prefix_refl _) (root old)
  have left : ∀ {path : RelPath}, (∀ rel, path <+: rel → ¬new.On rel) →
      (∀ rel, ¬path <+: rel → (new.On rel ↔ old.On rel)) →
      (∀ rel, new.On rel → old.On rel ∧ ¬path <+: rel) ∧
        ∀ rel, old.On rel → new.On rel ∨ path <+: rel := by
    intro path gone rest
    refine ⟨fun rel on => ?_, fun rel on => ?_⟩
    · have outside : ¬path <+: rel := fun above => gone rel above on
      exact ⟨(rest rel outside).mp on, outside⟩
    · by_cases above : path <+: rel
      · exact .inr above
      · exact .inl ((rest rel above).mpr on)
  simp only [comes_one, leaves_one]
  cases change with
  | create absent rest =>
      obtain ⟨after, before, proper⟩ := came absent rest
      simpa [FsEvent.arrivals, FsEvent.departures] using ⟨after, before, proper⟩
  | arrive absent rest =>
      obtain ⟨after, before, proper⟩ := came absent rest
      simpa [FsEvent.arrivals, FsEvent.departures] using ⟨after, before, proper⟩
  | remove gone rest =>
      obtain ⟨after, before⟩ := left gone rest
      simpa [FsEvent.arrivals, FsEvent.departures] using ⟨after, before⟩
  | depart gone rest =>
      obtain ⟨after, before⟩ := left gone rest
      simpa [FsEvent.arrivals, FsEvent.departures] using ⟨after, before⟩
  | @rename source target proper outside gone empty kept rest =>
      have after : ∀ rel, new.On rel → target <+: rel ∨ old.On rel ∧ ¬source <+: rel := by
        intro rel on
        have stays : ¬source <+: rel := fun above => gone rel above on
        by_cases above : target <+: rel
        · exact .inl above
        · exact .inr ⟨(rest rel stays above).mp on, stays⟩
      have before : ∀ rel, old.On rel → new.On rel ∨ source <+: rel := by
        intro rel on
        by_cases leaves : source <+: rel
        · exact .inr leaves
        · by_cases above : target <+: rel
          · by_cases same : rel = target
            · exact .inl (same ▸ kept (same ▸ on))
            · exact absurd on (empty rel above same)
          · exact .inl ((rest rel leaves above).mpr on)
      simpa [FsEvent.arrivals, FsEvent.departures] using ⟨after, before, proper⟩
  | data same => simp [FsEvent.arrivals, FsEvent.departures, same]
  | attributes same => simp [FsEvent.arrivals, FsEvent.departures, same]

end Told

namespace Walk

variable [Externals] {walk : Walk} {cap : Option Nat} {rel : RelPath} {events : List Queued}
  {watched : Finset RelPath}

/-- Whether each directory that arrives with a batch is one a placement watches. -/
def Fits (walk : Walk) (events : List Queued) : Prop :=
  ∀ event ∈ events, ∀ dir ∈ event.1.arrivals, walk.welcomes dir = true → walk.Placed dir

/-- What is watched after a batch whose arrivals are all placed: what has not left, and what is
placed at or below what has arrived. -/
theorem mem_maintainWatches (fits : walk.Fits events)
    (proper : ∀ event ∈ events, ∀ dir ∈ event.1.arrivals, dir ≠ [])
    (room : (walk.maintainWatches cap events watched).2 = []) :
    rel ∈ (walk.maintainWatches cap events watched).1 ↔
      rel ∈ watched ∧ ¬Leaves events rel ∨ Comes events rel ∧ walk.Placed rel := by
  rw [maintainWatches] at room ⊢
  dsimp only at room ⊢
  rw [Finset.mem_union, mem_forgetSubtrees, arrivals_out room]
  simp only [List.mem_flatMap, Finset.notMem_empty, false_or]
  refine or_congr (and_congr_right fun _ => ?_) ⟨fun added => ?_, fun ⟨comes, placed⟩ => ?_⟩
  · constructor
    · intro stays ⟨event, member, dir, leaves, above⟩
      exact stays dir ⟨event, member, leaves⟩ above
    · intro stays dir ⟨event, member, leaves⟩ above
      exact stays ⟨event, member, dir, leaves, above⟩
  · obtain ⟨dir, ⟨event, member, comes⟩, welcome, below⟩ := added
    have placed := fits event member dir comes welcome
    obtain rfl | met := below
    · exact ⟨⟨event, member, rel, comes, List.prefix_refl _⟩, placed⟩
    · obtain ⟨above, longer⟩ := met.under
      refine ⟨⟨event, member, dir, comes, above⟩, (placed.under above ?_).mpr met⟩
      intro same
      rw [same] at longer
      exact Nat.lt_irrefl _ longer
  · obtain ⟨event, member, dir, arrives, above⟩ := comes
    have welcome := placed.welcomes above (proper event member dir arrives)
    refine ⟨dir, ⟨event, member, arrives⟩, welcome, ?_⟩
    by_cases same : rel = dir
    · exact .inl same
    · exact .inr (((fits event member dir arrives welcome).under above same).mp placed)

end Walk

/-- What is watched, and the events that wait to be told. -/
structure Watching where
  /-- What watches are placed by, the directories as they are. -/
  walk : Walk
  /-- The events not yet handled, oldest first. -/
  pending : List Queued
  /-- The directories watched. -/
  watched : Finset RelPath

section Runs

variable [Externals] {walk : Walk} {state : Watching} {rel : RelPath} {events more : List Queued}

/-- The runs of the watcher: directories change and an event tells it, the oldest events are handled
in one batch, and a rule that changes has the watches placed again.  `fits` is asked of each batch,
and its budget is not reached. -/
inductive Maintained (fits : Walk → List Queued → Prop) : Watching → Prop
  | placed (walk : Walk) : Maintained fits ⟨walk, [], (walk.computeWatchedDirs none).out⟩
  | changed {state : Watching} {disk : DirTree} {event : FsEvent} (cookie : Option Int64)
      (run : Maintained fits state) (change : state.walk.disk.Changes disk event) :
      Maintained fits ⟨state.walk.on disk, state.pending ++ [(event, cookie)], state.watched⟩
  | handled {walk : Walk} {batch rest : List Queued} {watched : Finset RelPath}
      (cap : Option Nat) (run : Maintained fits ⟨walk, batch ++ rest, watched⟩)
      (fit : fits walk batch) (room : (walk.maintainWatches cap batch watched).2 = []) :
      Maintained fits ⟨walk, rest, (walk.maintainWatches cap batch watched).1⟩
  | replaced {state : Watching} {walk : Walk} (run : Maintained fits state)
      (same : walk.disk = state.walk.disk) :
      Maintained fits ⟨walk, state.pending, (walk.computeWatchedDirs none).out⟩

/-- Without a budget nothing is left. -/
theorem Walk.maintainWatches_unbounded (walk : Walk) (events : List Queued)
    (watched : Finset RelPath) : (walk.maintainWatches none events watched).2 = [] := by
  have kept : ∀ {rels : List RelPath} {plan : WatchPlan},
      (rels.foldl (walk.arrive none) plan).frontier = plan.frontier := by
    intro rels plan
    induction rels generalizing plan with
    | nil => rfl
    | cons rel rest ih =>
        rw [List.foldl_cons, ih, arrive]
        split
        · exact Tree.collect_unbounded
        · rfl
  exact kept

/-- What is watched is in step with what is placed, but for what the pending events tell of. -/
structure InStep (state : Watching) : Prop where
  placed : ∀ rel ∈ state.watched, state.walk.Placed rel ∨ Leaves state.pending rel
  watched : ∀ rel, state.walk.Placed rel → rel ∈ state.watched ∨ Comes state.pending rel
  /-- What is there has come after what was there has left. -/
  ordered : ∀ done rest, state.pending = done ++ rest → ∀ rel, state.walk.disk.On rel →
    Leaves rest rel → Comes rest rel
  proper : ∀ event ∈ state.pending, ∀ dir ∈ event.1.arrivals, dir ≠ []

theorem InStep.replaced (step : InStep state) (same : walk.disk = state.walk.disk) :
    InStep ⟨walk, state.pending, (walk.computeWatchedDirs none).out⟩ where
  placed rel watched := .inl (Walk.mem_computeWatchedDirs.mp watched)
  watched rel placed := .inl (Walk.mem_computeWatchedDirs.mpr placed)
  ordered done rest split rel on := by
    change walk.disk.On rel at on
    rw [same] at on
    exact step.ordered done rest split rel on
  proper := step.proper

theorem InStep.changed {disk : DirTree} {event : FsEvent} {cookie : Option Int64}
    (step : InStep state) (change : state.walk.disk.Changes disk event) :
    InStep ⟨state.walk.on disk, state.pending ++ [(event, cookie)], state.watched⟩ := by
  obtain ⟨there, before, proper⟩ := change.spec cookie
  refine ⟨fun rel watched => ?_, fun rel placed => ?_, fun done rest split rel on leaves => ?_, ?_⟩
  · rw [leaves_append]
    obtain placed | leaves := step.placed rel watched
    · exact (before rel placed.on).imp placed.moved .inr
    · exact .inr (.inl leaves)
  · rw [comes_append]
    obtain comes | ⟨on, -⟩ := there rel placed.on
    · exact .inr (.inr comes)
    · exact (step.watched rel (placed.moved on)).imp_right .inl
  · obtain rfl | ⟨back, last, rfl⟩ := List.eq_nil_or_concat rest
    · obtain ⟨held, member, -⟩ := leaves
      exact absurd member List.not_mem_nil
    · change state.pending ++ [(event, cookie)] = done ++ back.concat last at split
      rw [List.concat_eq_append, ← List.append_assoc] at split
      rw [List.concat_eq_append] at leaves ⊢
      obtain ⟨split, same⟩ := List.append_inj' split rfl
      rw [← same, leaves_append] at leaves
      rw [← same, comes_append]
      obtain comes | ⟨on, stays⟩ := there rel on
      · exact .inr comes
      · exact .inl (step.ordered done back split rel on (leaves.resolve_right stays))
  · intro held member
    obtain old | last := List.mem_append.mp member
    · exact step.proper held old
    · rw [List.mem_singleton.mp last]
      exact proper

theorem InStep.handled {cap : Option Nat} {batch rest : List Queued} {watched : Finset RelPath}
    (step : InStep ⟨walk, batch ++ rest, watched⟩) (fits : walk.Fits batch)
    (room : (walk.maintainWatches cap batch watched).2 = []) :
    InStep ⟨walk, rest, (walk.maintainWatches cap batch watched).1⟩ := by
  have proper : ∀ event ∈ batch, ∀ dir ∈ event.1.arrivals, dir ≠ [] := fun event member =>
    step.proper event (List.mem_append_left _ member)
  have kept := fun rel => @Walk.mem_maintainWatches _ walk cap rel batch watched fits proper room
  refine ⟨fun rel held => ?_, fun rel placed => ?_, fun done later split rel on leaves => ?_,
    fun event member => step.proper event (List.mem_append_right _ member)⟩
  · obtain ⟨before, stays⟩ | ⟨-, placed⟩ := (kept rel).mp held
    · obtain placed | leaves := step.placed rel before
      · exact .inl placed
      · exact .inr ((leaves_append.mp leaves).resolve_left stays)
    · exact .inl placed
  · dsimp only
    rw [kept rel]
    by_cases comes : Comes batch rel
    · exact .inl (.inr ⟨comes, placed⟩)
    · by_cases leaves : Leaves batch rel
      · -- What is there has come after it left, so its arrival is still to be told.
        have after := step.ordered [] (batch ++ rest) rfl rel placed.on
          (leaves_append.mpr (.inl leaves))
        exact .inr ((comes_append.mp after).resolve_left comes)
      · obtain held | after := step.watched rel placed
        · exact .inl (.inl ⟨held, leaves⟩)
        · exact .inr ((comes_append.mp after).resolve_left comes)
  · exact step.ordered (batch ++ done) later (by rw [List.append_assoc, ← split]) rel on leaves

theorem Maintained.inStep (run : Maintained Walk.Fits state) : InStep state := by
  induction run with
  | placed walk =>
      exact ⟨fun rel watched => .inl (Walk.mem_computeWatchedDirs.mp watched),
        fun rel placed => .inl (Walk.mem_computeWatchedDirs.mpr placed),
        fun done rest split rel on leaves => by
          obtain ⟨rfl, rfl⟩ := List.append_eq_nil_iff.mp split.symm
          obtain ⟨held, member, -⟩ := leaves
          exact absurd member List.not_mem_nil,
        fun event member => absurd member List.not_mem_nil⟩
  | changed cookie _ change ih => exact ih.changed change
  | handled cap _ fits room ih => exact ih.handled fits room
  | replaced _ same ih => exact ih.replaced same

/-- Where each directory that arrived was one a placement watches, and nothing was left for want of
room, what is watched once every event is handled is what a placement without a budget watches. -/
theorem maintained_placed (run : Maintained Walk.Fits state) (handled : state.pending = []) :
    state.watched = (state.walk.computeWatchedDirs none).out := by
  have step := run.inStep
  ext rel
  rw [Walk.mem_computeWatchedDirs]
  constructor
  · intro watched
    obtain placed | ⟨event, member, -⟩ := step.placed rel watched
    · exact placed
    · rw [handled] at member
      exact absurd member List.not_mem_nil
  · intro placed
    obtain watched | ⟨event, member, -⟩ := step.watched rel placed
    · exact watched
    · rw [handled] at member
      exact absurd member List.not_mem_nil

end Runs

/-! ### An arrival under an exclusion -/

theorem DirTree.isDir_ofDirs {dirs : List RelPath} {rel : RelPath} :
    (DirTree.ofDirs dirs).isDir rel = true ↔ rel = [] ∨ rel ∈ dirs := by
  rw [DirTree.isDir, DirTree.ofDirs]
  by_cases there : rel = [] ∨ rel ∈ dirs
  · simp [there]
  · simp [there]

theorem DirTree.listed_ofDirs {dirs : List RelPath} {dir : RelPath} {name : TreeName}
    (above : dir = [] ∨ dir ∈ dirs) (inside : dir ++ [name] ∈ dirs) :
    name ∈ ((DirTree.ofDirs dirs).readDir dir).getD [] := by
  rw [DirTree.ofDirs]
  simp only [above, if_true, Option.getD_some, List.mem_dedup, List.mem_filterMap, List.mem_filter,
    decide_eq_true_eq]
  exact ⟨dir ++ [name], ⟨inside, List.dropLast_concat⟩, List.getLast?_concat⟩

/-- What stands above a directory is one as well. -/
theorem mem_of_above {dirs : List RelPath}
    (closed : ∀ dir ∈ dirs, dir.dropLast = [] ∨ dir.dropLast ∈ dirs) {rel : RelPath}
    (inside : rel ∈ dirs) {above : RelPath} (within : above <+: rel) :
    above = [] ∨ above ∈ dirs := by
  induction rel using List.reverseRecOn with
  | nil => exact .inl (List.prefix_nil.mp within)
  | append_singleton front last ih =>
      obtain rfl | shorter := List.prefix_concat_iff.mp within
      · exact .inr inside
      · have up := closed _ inside
        rw [List.dropLast_concat] at up
        obtain rfl | up := up
        · exact .inl (List.prefix_nil.mp shorter)
        · exact ih up shorter

/-- What can be walked to in a tree of directories each of which stands in one of them. -/
theorem DirTree.on_ofDirs {dirs : List RelPath}
    (closed : ∀ dir ∈ dirs, dir.dropLast = [] ∨ dir.dropLast ∈ dirs) (rel : RelPath) :
    (DirTree.ofDirs dirs).On rel ↔ rel = [] ∨ rel ∈ dirs := by
  constructor
  · intro on
    by_cases root : rel = []
    · exact .inl root
    · have same := List.dropLast_append_getLast root
      have last := (on rel.dropLast (rel.getLast root) (by simp only [same, List.prefix_refl])).2
      rw [same] at last
      exact DirTree.isDir_ofDirs.mp last
  · intro there dir name within
    have inside : dir ++ [name] ∈ dirs := by
      obtain rfl | member := there
      · exact absurd within.length_le (by simp)
      · exact (mem_of_above closed member within).resolve_left (by simp)
    have above := mem_of_above closed inside (List.prefix_append dir [name])
    exact ⟨DirTree.listed_ofDirs above inside, DirTree.isDir_ofDirs.mpr (.inr inside)⟩

/-- A directory beside an excluded one. -/
def sampleBefore : List RelPath :=
  [[.ofString "a"], [.ofString "a", .ofString "b"], [.ofString "c"]]

/-- It is moved below a directory. -/
def sampleMoved (target : RelPath) : List RelPath :=
  [[.ofString "a"], [.ofString "a", .ofString "b"], target ++ [.ofString "c"]]

/-- The watches of a tree, one directory excluded. -/
def sampleWalk (dirs : List RelPath) : Walk :=
  @Tracked.walk plainExternals (sampleTracked (some true)) (.ofDirs dirs)
    [.ofString ".metafolder"] []

theorem sampleMoved_changes {target : RelPath}
    (inside : target = [.ofString "a"] ∨ target = [.ofString "a", .ofString "b"]) :
    (DirTree.ofDirs sampleBefore).Changes (.ofDirs (sampleMoved target))
      (.rename [.ofString "c"] (target ++ [.ofString "c"])) := by
  have before := DirTree.on_ofDirs (show ∀ dir ∈ sampleBefore,
    dir.dropLast = [] ∨ dir.dropLast ∈ sampleBefore by decide)
  have after : ∀ rel, (DirTree.ofDirs (sampleMoved target)).On rel ↔
      rel = [] ∨ rel ∈ sampleMoved target := by
    obtain rfl | rfl := inside
    · exact DirTree.on_ofDirs (by decide)
    · exact DirTree.on_ofDirs (by decide)
  have left : ∀ dir ∈ sampleMoved target, ¬[TreeName.ofString "c"] <+: dir := by
    obtain rfl | rfl := inside <;> decide
  have free : ∀ dir ∈ sampleBefore, ¬target ++ [.ofString "c"] <+: dir := by
    obtain rfl | rfl := inside <;> decide
  refine .rename ?_ ?_ (fun rel above there => ?_) (fun rel above _ there => ?_) (fun _ => ?_)
    (fun rel outside elsewhere => ?_)
  · exact List.append_ne_nil_of_right_ne_nil _ (by decide)
  · obtain rfl | rfl := inside <;> decide
  · obtain rfl | member := (after rel).mp there
    · exact absurd above (by decide)
    · exact left rel member above
  · obtain rfl | member := (before rel).mp there
    · exact absurd above (by obtain rfl | rfl := inside <;> decide)
    · exact free rel member above
  · exact (after _).mpr (.inr (by simp [sampleMoved]))
  · rw [before, after]
    have one : rel ≠ [.ofString "c"] := fun same => outside (same ▸ List.prefix_refl _)
    have other : rel ≠ target ++ [.ofString "c"] := fun same =>
      elsewhere (same ▸ List.prefix_refl _)
    simp [sampleMoved, sampleBefore, one, other]

/-- A directory is moved, and its event handled. -/
def sampleWatching (target : RelPath) : Watching :=
  let _ : Externals := plainExternals
  let walk := sampleWalk (sampleMoved target)
  let events : List Queued := [(.rename [.ofString "c"] (target ++ [.ofString "c"]), none)]
  let before := (sampleWalk sampleBefore).computeWatchedDirs none
  ⟨walk, [], (walk.maintainWatches none events before.out).1⟩

theorem sampleWatching_run {target : RelPath} {fits : Walk → List Queued → Prop}
    (inside : target = [.ofString "a"] ∨ target = [.ofString "a", .ofString "b"])
    (fit : fits (sampleWalk (sampleMoved target))
      [(.rename [.ofString "c"] (target ++ [.ofString "c"]), none)]) :
    @Maintained plainExternals fits (sampleWatching target) := by
  let _ : Externals := plainExternals
  have start : Maintained fits ⟨sampleWalk sampleBefore, [],
    ((sampleWalk sampleBefore).computeWatchedDirs none).out⟩ := .placed _
  have moved : Maintained fits ⟨sampleWalk (sampleMoved target),
    [(.rename [.ofString "c"] (target ++ [.ofString "c"]), none)] ++ [],
    ((sampleWalk sampleBefore).computeWatchedDirs none).out⟩ :=
    start.changed none (sampleMoved_changes inside)
  exact moved.handled none fit (Walk.maintainWatches_unbounded _ _ _)

/-- Moved where watches are placed, it is watched there. -/
theorem maintained_placed_moved :
    (sampleWatching [.ofString "a"]).watched =
      (@Walk.computeWatchedDirs plainExternals (sampleWatching [.ofString "a"]).walk none).out := by
  let _ : Externals := plainExternals
  refine maintained_placed (sampleWatching_run (.inl rfl) fun event member dir arrives _ => ?_) rfl
  obtain rfl := List.mem_singleton.mp member
  obtain rfl := List.mem_singleton.mp arrives
  exact Walk.mem_computeWatchedDirs.mp (by decide +kernel)

/-- Moved below the excluded directory it is watched as well, where no placement would watch it. -/
theorem maintained_excluded :
    letI : Externals := plainExternals
    ¬∀ state, Maintained (fun _ _ => True) state → state.pending = [] →
      state.watched = (state.walk.computeWatchedDirs none).out := by
  intro claim
  have same := claim (sampleWatching [.ofString "a", .ofString "b"])
    (sampleWatching_run (.inr rfl) trivial) rfl
  revert same
  decide +kernel

end Metafolder
