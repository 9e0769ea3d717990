import Metafolder.WatchPlans

/-!
# Placing watches again

Once the subtrees a capped placement has left are recorded, placing again gives the same, unless an
override lies among them.
-/

namespace Metafolder

open BudgetWalk

section Recording

variable [Externals]

/-! ### What eligibility is read from -/

omit [Externals] in
theorem nearest_map {α β : Type} (count : Nat) (found : Nat → Option α) (f : α → β) :
    (nearest count found).map f = nearest count fun depth => (found depth).map f := by
  rw [nearest, nearest, List.map_findSome?]
  rfl

namespace WatchRules

/-- Rules that agree on `mf_watch` and `mf_ignore` track the same paths. -/
theorem isEligible_congr {first second : WatchRules}
    (folds : first.caseInsensitive = second.caseInsensitive)
    (watch : ∀ key, (first.carriers key).bind Carrier.watch =
      (second.carriers key).bind Carrier.watch)
    (ignore : ∀ key, ((first.carriers key).filter (!·.ignore.isEmpty)).map Carrier.ignore =
      ((second.carriers key).filter (!·.ignore.isEmpty)).map Carrier.ignore) (rel : RelPath) :
    first.isEligible rel = second.isEligible rel := by
  have keys : first.key rel = second.key rel := by rw [key, key, folds]
  have governed : ∀ rules : WatchRules, (nearest rel.length fun depth =>
      ((rules.carrierAt rel depth).filter fun carrier => !carrier.ignore.isEmpty).map
        fun carrier => (depth, carrier)).map (fun found => (found.1, found.2.ignore)) =
      nearest rel.length fun depth =>
        (((rules.carriers ((rules.key rel).take depth)).filter (!·.ignore.isEmpty)).map
          Carrier.ignore).map fun ignore => (depth, ignore) := by
    intro rules
    rw [nearest_map]
    simp only [Option.map_map, Function.comp_def, carrierAt]
  have same := governed first
  simp only [keys, ignore] at same
  replace same := same.trans (governed second).symm
  have watched : ∀ depth, (first.carrierAt rel depth).bind Carrier.watch =
      (second.carrierAt rel depth).bind Carrier.watch := by
    intro depth
    rw [carrierAt, carrierAt, keys, watch]
  rw [isEligible, isEligible, explain, explain]
  simp only [watched]
  split
  · rfl
  · split
    · rfl
    · split
      · rfl
      · revert same
        generalize nearest rel.length _ = one
        generalize nearest rel.length _ = other
        intro same
        cases one with
        | none =>
            cases other with
            | none => rfl
            | some _ => cases same
        | some held =>
            cases other with
            | none => cases same
            | some also =>
                obtain ⟨depth, carrier⟩ := held
                obtain ⟨deep, another⟩ := also
                simp only [Option.map_some, Option.some.injEq, Prod.mk.injEq] at same
                obtain ⟨rfl, same⟩ := same
                simp only [same]

end WatchRules

/-! ### What holds the rules -/

namespace Tracked

variable {tracked after : Tracked} {made : RelPath → Uuid}

/-- A metarecord is found under its own key. -/
theorem found_key {key : PathKey} {held : RelPath × Carrier} (at_ : tracked.found key = some held) :
    held ∈ tracked.records ∧ tracked.key held.1 = key :=
  ⟨List.mem_of_find?_eq_some at_, by simpa using List.find?_some at_⟩

theorem found_of_mem {held : RelPath × Carrier} (member : held ∈ tracked.records) :
    tracked.found (tracked.key held.1) = some held := by
  have apart := tracked.apart
  rw [found]
  change (tracked.records.map fun held => tracked.key held.1).Nodup at apart
  revert apart
  generalize tracked.records = records at member
  intro apart
  induction records with
  | nil => exact absurd member List.not_mem_nil
  | cons first rest ih =>
      obtain ⟨new, apart⟩ := List.nodup_cons.mp apart
      cases member with
      | head => simp
      | tail _ later =>
          rw [List.find?_cons_of_neg, ih later apart]
          intro same
          exact new (List.mem_map.mpr ⟨held, later, (of_decide_eq_true same).symm⟩)

/-- One metarecord joins the rules. -/
def joinRules (rules : WatchRules) (held : RelPath × Carrier) : WatchRules :=
  if held.2.bare then rules else rules.enter held.2 ⟨held.1, []⟩

theorem joinRules_caseInsensitive (rules : WatchRules) (held : RelPath × Carrier) :
    (joinRules rules held).caseInsensitive = rules.caseInsensitive := by
  rw [joinRules]
  split <;> rfl

theorem joinRules_carriers (rules : WatchRules) (held : RelPath × Carrier) (key : PathKey) :
    (joinRules rules held).carriers key =
      if rules.key held.1 = key ∧ held.2.bare = false then some held.2 else rules.carriers key := by
  rw [joinRules]
  cases bare : held.2.bare with
  | true => simp
  | false =>
      simp only [Bool.false_eq_true, if_false, and_true]
      change Function.update rules.carriers (rules.key held.1) (some held.2) key = _
      by_cases same : rules.key held.1 = key
      · rw [if_pos same, ← same, Function.update_self]
      · rw [if_neg same, Function.update_of_ne (Ne.symm same)]

theorem foldl_joinRules {records : List (RelPath × Carrier)} {rules : WatchRules}
    (apart : (records.map fun held => rules.key held.1).Nodup) :
    (records.foldl joinRules rules).caseInsensitive = rules.caseInsensitive ∧
      ∀ key, (records.foldl joinRules rules).carriers key =
        (((records.find? fun held => rules.key held.1 = key).map Prod.snd).filter
          fun carrier => !carrier.bare).or (rules.carriers key) := by
  induction records generalizing rules with
  | nil => exact ⟨rfl, fun _ => rfl⟩
  | cons held rest ih =>
      obtain ⟨new, apart⟩ := List.nodup_cons.mp apart
      have folds := joinRules_caseInsensitive rules held
      have keys : (joinRules rules held).key = rules.key := by
        funext rel
        rw [WatchRules.key, WatchRules.key, folds]
      rw [← keys] at apart
      obtain ⟨first, more⟩ := ih apart
      refine ⟨first.trans folds, fun key => ?_⟩
      rw [List.foldl_cons, more key, joinRules_carriers, keys]
      by_cases same : rules.key held.1 = key
      · have none_ : rest.find? (fun held => rules.key held.1 = key) = none := by
          refine List.find?_eq_none.mpr fun other member alike => new ?_
          exact List.mem_map.mpr ⟨other, member, (of_decide_eq_true alike).trans same.symm⟩
        rw [none_, List.find?_cons_of_pos (by simpa using same)]
        cases bare : held.2.bare with
        | true => simp [same, bare, Option.filter_some]
        | false => simp [same, bare, Option.filter_some]
      · rw [List.find?_cons_of_neg (by simpa using same)]
        simp [same]

theorem rules_joined :
    tracked.rules.caseInsensitive = tracked.caseInsensitive ∧ ∀ key, tracked.rules.carriers key =
      ((tracked.found key).map Prod.snd).filter fun carrier => !carrier.bare := by
  have joined := @foldl_joinRules _ tracked.records
    { caseInsensitive := tracked.caseInsensitive, head := none } tracked.apart
  refine ⟨joined.1, fun key => (joined.2 key).trans ?_⟩
  rw [Option.or_none]
  rfl

theorem rules_key (rel : RelPath) : tracked.rules.key rel = tracked.key rel := by
  rw [WatchRules.key, rules_joined.1]
  rfl

/-- What is read of the rules under a key: of a metarecord that holds none, nothing. -/
theorem rules_bind {α : Type} {read : Carrier → Option α}
    (bare : ∀ carrier : Carrier, carrier.bare = true → read carrier = none) (key : PathKey) :
    (tracked.rules.carriers key).bind read = (tracked.found key).bind fun held => read held.2 := by
  rw [rules_joined.2]
  cases tracked.found key with
  | none => rfl
  | some held =>
      cases empty : held.2.bare with
      | true => simp [empty, bare held.2 empty, Option.filter_some]
      | false => simp [empty, Option.filter_some]

theorem rules_exceeded (rel : RelPath) :
    tracked.rules.exceededOwn rel = tracked.exceededAt rel := by
  rw [WatchRules.exceededOwn, rules_bind, rules_key]
  · rfl
  · intro carrier bare
    simp only [Carrier.bare, Bool.and_eq_true, Option.isNone_iff_eq_none] at bare
    exact bare.1.2

theorem rules_isEligible
    (folds : after.caseInsensitive = tracked.caseInsensitive)
    (watch : ∀ key, ((after.found key).bind fun held => held.2.watch) =
      (tracked.found key).bind fun held => held.2.watch)
    (ignore : ∀ key, ((after.found key).map fun held => held.2.ignore).getD [] =
      ((tracked.found key).map fun held => held.2.ignore).getD []) (rel : RelPath) :
    after.rules.isEligible rel = tracked.rules.isEligible rel := by
  have patterns : ∀ (tracked : Tracked) key,
      ((tracked.rules.carriers key).filter (!·.ignore.isEmpty)).map Carrier.ignore =
        (some (((tracked.found key).map fun held => held.2.ignore).getD [])).filter
          (!·.isEmpty) := by
    intro tracked key
    rw [rules_joined.2]
    cases tracked.found key with
    | none => rfl
    | some held =>
        cases empty : held.2.ignore with
        | nil => simp [empty, Option.filter_some]
        | cons => simp [empty, Option.filter_some, Carrier.bare]
  have bare : ∀ carrier : Carrier, carrier.bare = true → carrier.watch = none := by
    intro carrier bare
    simp only [Carrier.bare, Bool.and_eq_true, Option.isNone_iff_eq_none] at bare
    exact bare.1.1
  refine WatchRules.isEligible_congr ?_ (fun key => ?_) (fun key => ?_) rel
  · rw [rules_joined.1, rules_joined.1, folds]
  · rw [rules_bind bare, rules_bind bare, watch]
  · rw [patterns, patterns, ignore]

/-! ### Recording what was left -/

/-- What recording some subtrees does: they are excluded, and nothing else is. -/
structure Marked (tracked : Tracked) (marks : PathKey → Prop) (after : Tracked) : Prop where
  folds : after.caseInsensitive = tracked.caseInsensitive
  watch : ∀ key, ((after.found key).bind fun held => held.2.watch) =
    (tracked.found key).bind fun held => held.2.watch
  ignore : ∀ key, ((after.found key).map fun held => held.2.ignore).getD [] =
    ((tracked.found key).map fun held => held.2.ignore).getD []
  marked : ∀ key, marks key → ((after.found key).bind fun held => held.2.exceeded) = some true
  unmarked : ∀ key, ¬marks key → ((after.found key).bind fun held => held.2.exceeded) =
    (tracked.found key).bind fun held => held.2.exceeded
  spared : ∀ held, held.2.exceeded = some false →
    (held ∈ after.records ↔ held ∈ tracked.records ∧ ¬marks (tracked.key held.1))

theorem Marked.refl : tracked.Marked (fun _ => False) tracked where
  folds := rfl
  watch _ := rfl
  ignore _ := rfl
  marked _ := False.elim
  unmarked _ _ := rfl
  spared _ _ := by simp

theorem Marked.key_eq {marks : PathKey → Prop} (marked : tracked.Marked marks after)
    (rel : RelPath) : after.key rel = tracked.key rel := by
  rw [key, key, marked.folds]

theorem Marked.trans {first second : PathKey → Prop} {last : Tracked}
    (one : tracked.Marked first after) (more : after.Marked second last) :
    tracked.Marked (fun key => first key ∨ second key) last where
  folds := more.folds.trans one.folds
  watch key := (more.watch key).trans (one.watch key)
  ignore key := (more.ignore key).trans (one.ignore key)
  marked key marks := by
    by_cases late : second key
    · exact more.marked key late
    · rw [more.unmarked key late]
      exact one.marked key (marks.resolve_right late)
  unmarked key none_ := by
    rw [more.unmarked key fun late => none_ (.inr late)]
    exact one.unmarked key fun early => none_ (.inl early)
  spared held exceeded := by
    rw [more.spared held exceeded, one.spared held exceeded, one.key_eq, not_or, and_assoc]

theorem found_create {rel : RelPath} {carrier : Carrier} (new : tracked.resolveRel rel = none)
    (key : PathKey) : (tracked.create rel carrier new).found key =
      (tracked.found key).or (if tracked.key rel = key then some (rel, carrier) else none) := by
  change (tracked.records ++ [(rel, carrier)]).find? (fun held => tracked.key held.1 = key) = _
  rw [List.find?_append, List.find?_singleton]
  simp only [decide_eq_true_eq]
  rfl

/-- A metarecord that holds no rule changes none. -/
theorem create_marked {rel : RelPath} {uuid : Uuid} (new : tracked.resolveRel rel = none) :
    tracked.Marked (fun _ => False) (tracked.create rel ⟨uuid, none, none, []⟩ new) := by
  have reads : ∀ key, (tracked.create rel ⟨uuid, none, none, []⟩ new).found key =
        tracked.found key ∨ tracked.found key = none ∧
      (tracked.create rel ⟨uuid, none, none, []⟩ new).found key =
        some (rel, ⟨uuid, none, none, []⟩) := by
    intro key
    rw [found_create]
    by_cases same : tracked.key rel = key
    · have none_ : tracked.found key = none := same ▸ new
      exact .inr ⟨none_, by rw [none_, if_pos same]; rfl⟩
    · exact .inl (by rw [if_neg same, Option.or_none])
  refine ⟨rfl, fun key => ?_, fun key => ?_, fun _ => False.elim, fun key _ => ?_, ?_⟩
  · obtain same | ⟨before, now⟩ := reads key
    · rw [same]
    · rw [before, now]; rfl
  · obtain same | ⟨before, now⟩ := reads key
    · rw [same]
    · rw [before, now]; rfl
  · obtain same | ⟨before, now⟩ := reads key
    · rw [same]
    · rw [before, now]; rfl
  · intro held exceeded
    refine ⟨fun inside => ⟨?_, id⟩, fun inside => List.mem_append_left _ inside.1⟩
    obtain before | last := List.mem_append.mp inside
    · exact before
    · rw [List.mem_singleton.mp last] at exceeded
      cases exceeded

/-- One directory after another is there, and no rule has changed. -/
theorem ensureChildren_spec (names : List TreeName) {held : Tracked × RelPath}
    (marked : tracked.Marked (fun _ => False) held.1) (here : (held.1.resolveRel held.2).isSome) :
    let last := names.foldl (ensureChild made) held
    tracked.Marked (fun _ => False) last.1 ∧
      tracked.key last.2 = tracked.key (held.2 ++ names) ∧ (last.1.resolveRel last.2).isSome := by
  induction names generalizing held with
  | nil => exact ⟨marked, by rw [List.append_nil]; rfl, here⟩
  | cons name rest ih =>
      have step : tracked.Marked (fun _ => False) (ensureChild made held name).1 ∧
          tracked.key (ensureChild made held name).2 = tracked.key (held.2 ++ [name]) ∧
          ((ensureChild made held name).1.resolveRel (ensureChild made held name).2).isSome := by
        rw [ensureChild]
        split
        · next existing found =>
          obtain ⟨-, same⟩ := found_key found
          refine ⟨marked, ?_, ?_⟩
          · rw [← marked.key_eq, same, marked.key_eq]
          · rw [resolveRel, same]
            exact Option.isSome_of_eq_some found
        · next new =>
          refine ⟨?_, rfl, ?_⟩
          · simpa only [or_self] using marked.trans (create_marked new)
          · rw [resolveRel, found_create]
            change ((held.1.found (held.1.key (held.2 ++ [name]))).or
              (if held.1.key (held.2 ++ [name]) = held.1.key (held.2 ++ [name]) then
                some (held.2 ++ [name], _) else none)).isSome
            rw [if_pos rfl]
            simp
      obtain ⟨ensured, same, found⟩ := step
      have more := ih ensured found
      rw [List.foldl_cons]
      refine ⟨more.1, ?_, more.2.2⟩
      rw [more.2.1, key, key, List.map_append, ← key, same, ← key]
      simp [key]

theorem found_setExceeded (rel : RelPath) (key : PathKey) :
    (tracked.setExceeded rel).found key = (tracked.found key).map fun held =>
      if key = tracked.key rel then (held.1, { held.2 with exceeded := some true }) else held := by
  have sameKey : ∀ held : RelPath × Carrier,
      (if tracked.key held.1 = tracked.key rel then
        (held.1, { held.2 with exceeded := some true }) else held).1 = held.1 := by
    intro held
    split <;> rfl
  change List.find? (fun held => decide (tracked.key held.1 = key))
    (tracked.records.map fun held => if tracked.key held.1 = tracked.key rel then
      (held.1, { held.2 with exceeded := some true }) else held) = _
  rw [List.find?_map]
  simp only [Function.comp_def, sameKey]
  change (tracked.found key).map _ = _
  cases found : tracked.found key with
  | none => rfl
  | some held => rw [Option.map_some, Option.map_some, (found_key found).2]

/-- The metarecord at a path is excluded, and no other rule has changed. -/
theorem setExceeded_marked {rel : RelPath} (here : (tracked.resolveRel rel).isSome) :
    tracked.Marked (fun key => key = tracked.key rel) (tracked.setExceeded rel) where
  folds := rfl
  watch key := by
    rw [found_setExceeded]
    cases tracked.found key with
    | none => rfl
    | some held => by_cases same : key = tracked.key rel <;> simp [same]
  ignore key := by
    rw [found_setExceeded]
    cases tracked.found key with
    | none => rfl
    | some held => by_cases same : key = tracked.key rel <;> simp [same]
  marked key same := by
    obtain ⟨held, found⟩ := Option.isSome_iff_exists.mp here
    rw [found_setExceeded, same, show tracked.found (tracked.key rel) = some held from found]
    simp
  unmarked key other := by
    rw [found_setExceeded]
    simp [other]
  spared held exceeded := by
    change held ∈ tracked.records.map _ ↔ _
    rw [List.mem_map]
    constructor
    · intro ⟨before, inside, made⟩
      split at made
      · rw [← made] at exceeded
        cases exceeded
      · next other => exact made ▸ ⟨inside, other⟩
    · intro ⟨inside, other⟩
      exact ⟨held, inside, by rw [if_neg other]⟩

theorem exclude_marked (rel : RelPath) :
    tracked.Marked (fun key => key = tracked.key rel) (exclude made tracked rel) := by
  rw [exclude]
  cases found : tracked.resolveRel rel with
  | some held => exact setExceeded_marked (Option.isSome_of_eq_some found)
  | none =>
      obtain ⟨carrier, root⟩ := tracked.rooted
      have here : (tracked.resolveRel []).isSome := Option.isSome_of_eq_some (found_of_mem root)
      obtain ⟨marked, same, there⟩ :=
        @ensureChildren_spec _ tracked made rel (tracked, []) Marked.refl here
      dsimp only
      rw [resolveRel, marked.key_eq, same, List.nil_append, ← marked.key_eq] at there
      have excluded := marked.trans (setExceeded_marked there)
      simpa only [false_or, marked.key_eq] using excluded

/-- What was left is excluded, and no other rule has changed. -/
theorem writeWatchFrontier_marked (frontier : List RelPath) :
    tracked.Marked (fun key => ∃ rel ∈ frontier, key = tracked.key rel)
      (writeWatchFrontier made tracked frontier) := by
  rw [writeWatchFrontier]
  induction frontier generalizing tracked with
  | nil => simpa using Marked.refl
  | cons rel rest ih =>
      have first := @exclude_marked _ tracked made rel
      have both := first.trans ih
      simpa only [List.mem_cons, exists_eq_or_imp, first.key_eq, List.foldl_cons] using both

end Tracked

/-! ### Walks -/

namespace Walk

variable {walk first again : Walk}

/-- Whether a walk may come by an entry: a directory, eligible and online. -/
def Admits (walk : Walk) (rel : RelPath) : Prop :=
  ¬(rel = walk.internalDir ∨ rel ∈ walk.stopAt) ∧ walk.disk.isDir rel = true ∧
    walk.rules.isEligible rel = .ok true ∧ offlineContains walk.offline rel = false

theorem judge_admits {rel : RelPath} (admits : walk.Admits rel) (inherited : Bool) :
    walk.judge rel inherited = if walk.excluded rel inherited then
      if walk.holdsOverride rel then .enter true else .skip else .take false := by
  obtain ⟨outside, isDir, eligible, online⟩ := admits
  rw [judge, if_neg outside, if_pos isDir, eligible]
  simp only [online, Bool.false_eq_true, if_false]

theorem judge_skips {rel : RelPath} (refused : ¬walk.Admits rel) (inherited : Bool) :
    walk.judge rel inherited = .skip := by
  rw [judge]
  split
  · rfl
  · next outside =>
    split
    · next isDir =>
      split
      · next eligible =>
        split
        · rfl
        · next online => exact absurd ⟨outside, isDir, eligible, by simpa using online⟩ refused
      · rfl
      · rfl
    · rfl

/-- What a walk takes, it comes by, and no exclusion covers it. -/
theorem judge_take {rel : RelPath} {inherited next : Bool} :
    walk.judge rel inherited = .take next ↔
      walk.Admits rel ∧ walk.excluded rel inherited = false ∧ next = false := by
  by_cases admits : walk.Admits rel
  · rw [judge_admits admits]
    cases walk.excluded rel inherited with
    | true => cases walk.holdsOverride rel <;> simp
    | false => simp [admits, eq_comm]
  · rw [judge_skips admits]
    simp [admits]

/-- What a walk enters and does not take holds an override. -/
theorem judge_enter {rel : RelPath} {inherited next : Bool} :
    walk.judge rel inherited = .enter next ↔ walk.Admits rel ∧
      walk.excluded rel inherited = true ∧ walk.holdsOverride rel = true ∧ next = true := by
  by_cases admits : walk.Admits rel
  · rw [judge_admits admits]
    cases walk.excluded rel inherited with
    | true => cases walk.holdsOverride rel <;> simp [admits, eq_comm]
    | false => simp
  · rw [judge_skips admits]
    simp [admits]

/-- What a walk comes by that looks below an excluded directory, as far as overrides lie there and
none is met. -/
inductive Seeks (walk : Walk) : RelPath → RelPath → Prop
  | here {dir : RelPath} {name : TreeName} (inside : walk.holdsOverride dir = true)
      (listed : name ∈ walk.tree.entries dir) (admits : walk.Admits (dir ++ [name])) :
      Seeks walk dir (dir ++ [name])
  | further {dir target : RelPath} {name : TreeName} (inside : walk.holdsOverride dir = true)
      (listed : name ∈ walk.tree.entries dir) (admits : walk.Admits (dir ++ [name]))
      (own : walk.rules.exceededOwn (dir ++ [name]) ≠ some false)
      (rest : Seeks walk (dir ++ [name]) target) : Seeks walk dir target

/-- A walk takes nothing below an excluded directory unless it finds an exclusion set to false. -/
theorem seeks_of_meets {dir node : RelPath} {cut : RelPath → Prop}
    (inside : walk.holdsOverride dir = true) (meets : walk.tree.Meets cut dir true node) :
    ∃ target, walk.Seeks dir target ∧ walk.rules.exceededOwn target = some false := by
  have own : ∀ {rel : RelPath}, walk.excluded rel true = false →
      walk.rules.exceededOwn rel = some false := by
    intro rel included
    rw [excluded] at included
    cases held : walk.rules.exceededOwn rel with
    | none => rw [held] at included; cases included
    | some value => rw [held] at included; rw [show value = false from included]
  generalize handed : true = state at meets
  induction meets with
  | @here path state next name listed told =>
      obtain ⟨admits, included, -⟩ := judge_take.mp told
      rw [← handed] at included
      exact ⟨_, .here inside listed admits, own included⟩
  | @entered path node state next name listed told further ih =>
      obtain ⟨admits, covered, within, rfl⟩ := judge_enter.mp told
      obtain ⟨target, seeks, found⟩ := ih within rfl
      refine ⟨target, .further inside listed admits (fun false_ => ?_) seeks, found⟩
      rw [excluded, false_] at covered
      cases covered
  | @taken path node state next name listed told uncut further ih =>
      obtain ⟨admits, included, -⟩ := judge_take.mp told
      rw [← handed] at included
      exact ⟨_, .here inside listed admits, own included⟩

/-- It takes the first one it finds. -/
theorem meets_of_seeks {dir target : RelPath} {cut : RelPath → Prop} (seeks : walk.Seeks dir target)
    (found : walk.rules.exceededOwn target = some false) :
    ∃ node, walk.tree.Meets cut dir true node := by
  induction seeks with
  | @here dir name inside listed admits =>
      exact ⟨_, .here listed (judge_take.mpr ⟨admits, by rw [excluded, found]; rfl, rfl⟩)⟩
  | @further dir target name inside listed admits own rest ih =>
      obtain ⟨node, met⟩ := ih found
      have within : walk.holdsOverride (dir ++ [name]) = true := by
        cases rest with
        | here inside => exact inside
        | further inside => exact inside
      refine ⟨node, .entered listed (judge_enter.mpr ⟨admits, ?_, within, rfl⟩) met⟩
      rw [excluded]
      cases held : walk.rules.exceededOwn (dir ++ [name]) with
      | none => rfl
      | some value =>
          cases value with
          | true => rfl
          | false => exact absurd held own

/-- A walk again, some directories excluded since of which none was set to false. -/
structure Again (first again : Walk) (marks : RelPath → Prop) : Prop where
  disk : again.disk = first.disk
  admits : ∀ rel, again.Admits rel ↔ first.Admits rel
  marked : ∀ rel, marks rel → again.rules.exceededOwn rel = some true
  unmarked : ∀ rel, ¬marks rel → again.rules.exceededOwn rel = first.rules.exceededOwn rel
  overrides : ∀ rel, again.holdsOverride rel = first.holdsOverride rel
  clean : ∀ rel, marks rel → first.rules.exceededOwn rel ≠ some false

namespace Again

variable {marks : RelPath → Prop} (pair : Again first again marks)

include pair

theorem entries (dir : RelPath) : again.tree.entries dir = first.tree.entries dir := by
  change (again.disk.readDir dir).getD [] = (first.disk.readDir dir).getD []
  rw [pair.disk]

theorem own_false (rel : RelPath) :
    again.rules.exceededOwn rel = some false ↔ first.rules.exceededOwn rel = some false := by
  by_cases mark : marks rel
  · rw [pair.marked rel mark]
    exact ⟨(fun same => by cases same), fun same => absurd same (pair.clean rel mark)⟩
  · rw [pair.unmarked rel mark]

theorem seeks {dir target : RelPath} : again.Seeks dir target ↔ first.Seeks dir target := by
  constructor
  · intro seeks
    induction seeks with
    | here inside listed admits =>
        exact .here (pair.overrides _ ▸ inside) (pair.entries _ ▸ listed)
          ((pair.admits _).mp admits)
    | further inside listed admits own _ ih =>
        exact .further (pair.overrides _ ▸ inside) (pair.entries _ ▸ listed)
          ((pair.admits _).mp admits) (fun same => own ((pair.own_false _).mpr same)) ih
  · intro seeks
    induction seeks with
    | here inside listed admits =>
        exact .here ((pair.overrides _).trans inside) ((pair.entries _).symm ▸ listed)
          ((pair.admits _).mpr admits)
    | further inside listed admits own _ ih =>
        exact .further ((pair.overrides _).trans inside) ((pair.entries _).symm ▸ listed)
          ((pair.admits _).mpr admits) (fun same => own ((pair.own_false _).mp same)) ih

/-- What was judged before is judged the same, unless it was excluded since. -/
theorem judge_eq {rel : RelPath} (unmarked : ¬marks rel) (inherited : Bool) :
    again.judge rel inherited = first.judge rel inherited := by
  by_cases admits : first.Admits rel
  · rw [judge_admits admits, judge_admits ((pair.admits rel).mpr admits), pair.overrides, excluded,
      excluded, pair.unmarked rel unmarked]
  · rw [judge_skips admits, judge_skips fun held => admits ((pair.admits rel).mp held)]

/-- What was entered under an exclusion still is. -/
theorem judge_entered {rel : RelPath} {inherited next : Bool}
    (told : first.judge rel inherited = .enter next) : again.judge rel inherited = .enter next := by
  obtain ⟨admits, covered, inside, rfl⟩ := judge_enter.mp told
  refine judge_enter.mpr ⟨(pair.admits rel).mpr admits, ?_, (pair.overrides rel).trans inside, rfl⟩
  by_cases mark : marks rel
  · rw [excluded, pair.marked rel mark]
    rfl
  · rw [excluded, pair.unmarked rel mark]
    exact covered

variable {cut : RelPath → Prop} {dir node : RelPath} {state : Bool}

/-- What was taken is taken again. -/
theorem kept (met : first.tree.Meets cut dir state node)
    (apart : ∀ other, first.tree.Meets cut dir state other → ¬cut other → ¬marks other)
    (uncut : ¬cut node) : again.tree.Meets (fun _ => False) dir state node := by
  induction met with
  | @here dir state next name listed told =>
      have unmarked := apart _ (.here listed told) uncut
      refine .here (pair.entries _ ▸ listed) ((pair.judge_eq unmarked state).trans told)
  | entered listed told _ ih =>
      refine .entered (pair.entries _ ▸ listed) (pair.judge_entered told) (ih ?_ uncut)
      exact fun other met => apart other (.entered listed told met)
  | @taken dir node state next name listed told outside _ ih =>
      have unmarked := apart _ (.here listed told) outside
      refine .taken (pair.entries _ ▸ listed) ((pair.judge_eq unmarked state).trans told) id ?_
      exact ih (fun other met => apart other (.taken listed told outside met)) uncut

/-- Nothing else is taken again, unless an override lies below what was left. -/
theorem nothing_else (met : again.tree.Meets (fun _ => False) dir state node)
    (apart : ∀ other, first.tree.Meets cut dir state other → ¬cut other → ¬marks other)
    (left : ∀ other, cut other → marks other)
    (settled : ∀ edge, cut edge → first.tree.Meets cut dir state edge →
      ∀ target, first.Seeks edge target → first.rules.exceededOwn target ≠ some false) :
    first.tree.Meets cut dir state node ∧ ¬cut node := by
  -- A directory that is taken again was not excluded since.
  have unmarked : ∀ {rel : RelPath} {state next : Bool}, again.judge rel state = .take next →
      ¬marks rel := by
    intro rel state next told mark
    obtain ⟨-, included, -⟩ := judge_take.mp told
    rw [excluded, pair.marked rel mark] at included
    cases included
  induction met with
  | @here dir state next name listed told =>
      have free := unmarked told
      refine ⟨.here (pair.entries dir ▸ listed) ((pair.judge_eq free state).symm.trans told), ?_⟩
      exact fun inside => free (left _ inside)
  | @entered dir node state next name listed told met ih =>
      obtain ⟨admits, covered, inside, rfl⟩ := judge_enter.mp told
      have listed := pair.entries dir ▸ listed
      have admitted := (pair.admits _).mp admits
      cases before : first.excluded (dir ++ [name]) state with
      | true =>
          have told := judge_enter.mpr
            ⟨admitted, before, (pair.overrides _).symm.trans inside, rfl⟩
          obtain ⟨met, outside⟩ := ih
            (fun other met => apart other (.entered listed told met))
            fun edge at_ met => settled edge at_ (.entered listed told met)
          exact ⟨.entered listed told met, outside⟩
      | false =>
          have here : first.tree.Meets cut dir state (dir ++ [name]) :=
            .here listed (judge_take.mpr ⟨admitted, before, rfl⟩)
          by_cases edge : cut (dir ++ [name])
          · obtain ⟨target, seeks, found⟩ := seeks_of_meets inside met
            exact absurd ((pair.own_false _).mp found)
              (settled _ edge here target (pair.seeks.mp seeks))
          · rw [excluded, pair.unmarked _ (apart _ here edge), ← excluded, before] at covered
            cases covered
  | @taken dir node state next name listed told _ met ih =>
      have free := unmarked told
      have before := (pair.judge_eq free state).symm.trans told
      have uncut : ¬cut (dir ++ [name]) := fun inside => free (left _ inside)
      have listed := pair.entries dir ▸ listed
      obtain ⟨met, outside⟩ := ih
        (fun other met => apart other (.taken listed before uncut met))
        fun edge at_ met => settled edge at_ (.taken listed before uncut met)
      exact ⟨.taken listed before uncut met, outside⟩

/-- What lies below a subtree that was left is reached through its overrides. -/
theorem reached {edge : RelPath} (met : first.tree.Meets cut dir state edge)
    (apart : ∀ other, first.tree.Meets cut dir state other → ¬cut other → ¬marks other)
    (mark : marks edge) (inside : first.holdsOverride edge = true)
    (further : again.tree.Meets (fun _ => False) edge true node) :
    again.tree.Meets (fun _ => False) dir state node := by
  induction met with
  | @here dir state next name listed told =>
      obtain ⟨admits, -⟩ := judge_take.mp told
      refine .entered (pair.entries dir ▸ listed) (judge_enter.mpr
        ⟨(pair.admits _).mpr admits, ?_, (pair.overrides _).trans inside, rfl⟩) further
      rw [excluded, pair.marked _ mark]
      rfl
  | entered listed told _ ih =>
      refine .entered (pair.entries _ ▸ listed) (pair.judge_entered told)
        (ih ?_ mark inside further)
      exact fun other met => apart other (.entered listed told met)
  | @taken dir edge state next name listed told uncut _ ih =>
      have unmarked := apart _ (.here listed told) uncut
      refine .taken (pair.entries _ ▸ listed) ((pair.judge_eq unmarked state).trans told) id ?_
      exact ih (fun other met => apart other (.taken listed told uncut met)) mark inside further

end Again

end Walk

/-! ### Placing again -/

/-- When placing again after what was left is recorded gives the same: nothing that was left carries
an exclusion set to false, none lies below it where a walk looks for overrides, and nothing that is
watched is keyed as what was left. -/
structure Walk.Settles (walk : Walk) (plan : WatchPlan) : Prop where
  clean : ∀ edge ∈ plan.frontier, walk.rules.exceededOwn edge ≠ some false
  quiet : ∀ edge ∈ plan.frontier, ∀ target, walk.Seeks edge target →
    walk.rules.exceededOwn target ≠ some false
  apart : ∀ edge ∈ plan.frontier, ∀ dir ∈ plan.out, walk.rules.key dir ≠ walk.rules.key edge

namespace Walk

variable {walk first again : Walk} {cap : Nat}

/-- What a placement has watched before it walks. -/
def rootWatched (eligible : Bool) : Finset RelPath := if eligible then {[]} else ∅

omit [Externals] in
theorem rootWatched_card (eligible : Bool) : (rootWatched eligible).card ≤ 1 := by
  cases eligible with
  | true => exact le_of_eq (Finset.card_singleton _)
  | false => exact Nat.zero_le 1

omit [Externals] in
theorem eq_nil_of_rootWatched {eligible : Bool} {dir : RelPath}
    (held : dir ∈ rootWatched eligible) : dir = [] := by
  cases eligible with
  | true => exact Finset.mem_singleton.mp held
  | false => exact absurd held (Finset.notMem_empty dir)

theorem computeWatchedDirs_eq {eligible : Bool} (root : walk.rules.isEligible [] = .ok eligible)
    (cap : Option Nat) : walk.computeWatchedDirs cap =
      walk.tree.collect cap walk.disk.depth [] false ⟨rootWatched eligible, []⟩ := by
  rw [computeWatchedDirs, root]
  rfl

theorem computeWatchedDirs_error {message : String}
    (root : walk.rules.isEligible [] = .error message) (cap : Option Nat) :
    walk.computeWatchedDirs cap = {} := by
  rw [computeWatchedDirs, root]

theorem deep (walk : Walk) : walk.tree.depth ≤ ([] : RelPath).length + walk.disk.depth :=
  (Nat.zero_add _).ge

/-- A capped placement watches no more than its cap, nothing a placement without one does not, and
leaves out only what is at or below its frontier. -/
theorem computeWatchedDirs_capped (walk : Walk) (room : 1 ≤ cap) :
    (walk.computeWatchedDirs (some cap)).out.card ≤ cap ∧
      (walk.computeWatchedDirs (some cap)).out ⊆ (walk.computeWatchedDirs none).out ∧
      ∀ dir ∈ (walk.computeWatchedDirs none).out, dir ∉ (walk.computeWatchedDirs (some cap)).out →
        ∃ edge ∈ (walk.computeWatchedDirs (some cap)).frontier, edge <+: dir := by
  cases root : walk.rules.isEligible [] with
  | error message =>
      simp only [computeWatchedDirs_error root]
      exact ⟨Nat.zero_le _, subset_rfl, fun dir held => absurd held (Finset.notMem_empty dir)⟩
  | ok eligible =>
      simp only [computeWatchedDirs_eq root]
      refine ⟨?_, Tree.walk_subset walk.deep, fun dir => Tree.walk_cut walk.deep⟩
      exact Tree.collect_within ((rootWatched_card eligible).trans room)

/-- Placing again gives the same just when no override lies below what was left, and nothing that is
watched is keyed as what was left. -/
theorem Again.plan_iff {marks : RelPath → Prop} (pair : Again first again marks)
    (left : ∀ rel, marks rel ↔ ∃ edge ∈ (first.computeWatchedDirs (some cap)).frontier,
      first.rules.key rel = first.rules.key edge)
    (same : again.rules.isEligible [] = first.rules.isEligible []) (room : 1 ≤ cap) :
    ((again.computeWatchedDirs (some cap)).out = (first.computeWatchedDirs (some cap)).out ∧
        (again.computeWatchedDirs (some cap)).frontier = []) ↔
      (∀ edge ∈ (first.computeWatchedDirs (some cap)).frontier, ∀ target,
        first.Seeks edge target → first.rules.exceededOwn target ≠ some false) ∧
      ∀ edge ∈ (first.computeWatchedDirs (some cap)).frontier,
        ∀ dir ∈ (first.computeWatchedDirs (some cap)).out,
          first.rules.key dir ≠ first.rules.key edge := by
  cases root : first.rules.isEligible [] with
  | error message =>
      have also := same.trans root
      simp only [computeWatchedDirs_error root, computeWatchedDirs_error also]
      simp
  | ok eligible =>
      have also := same.trans root
      have depth : again.disk.depth = first.disk.depth := by rw [pair.disk]
      rw [computeWatchedDirs_eq root] at left ⊢
      rw [computeWatchedDirs_eq also, depth]
      have covers := @Tree.walk_covers _ _ _ first.tree (some cap) [] false (rootWatched eligible)
        first.disk.depth first.deep
      have fits := @Tree.walk_fits _ _ _ again.tree [] false (rootWatched eligible)
        first.disk.depth (by rw [← depth]; exact again.deep) cap
        ((rootWatched_card eligible).trans room)
        (fun dir held under => by simp [eq_nil_of_rootWatched held] at under)
      have all := @Tree.walk_unbounded _ _ _ again.tree [] false (rootWatched eligible)
        first.disk.depth (by rw [← depth]; exact again.deep)
      have within := @Tree.collect_within _ _ _ first.tree [] false first.disk.depth cap
        ⟨rootWatched eligible, []⟩ ((rootWatched_card eligible).trans room)
      have part := @Tree.walk_subset _ _ _ again.tree (some cap) [] false (rootWatched eligible)
        first.disk.depth (by rw [← depth]; exact again.deep)
      have missed := @Tree.walk_cut _ _ _ again.tree (some cap) [] false (rootWatched eligible)
        first.disk.depth (by rw [← depth]; exact again.deep)
      generalize first.tree.collect (some cap) first.disk.depth [] false
        ⟨rootWatched eligible, []⟩ = plan at *
      generalize again.tree.collect (some cap) first.disk.depth [] false
        ⟨rootWatched eligible, []⟩ = second at *
      generalize again.tree.collect none first.disk.depth [] false
        ⟨rootWatched eligible, []⟩ = unbounded at *
      have marked : ∀ edge ∈ plan.frontier, marks edge := fun edge member =>
        (left edge).mpr ⟨edge, member, rfl⟩
      have met : ∀ edge ∈ plan.frontier,
          first.tree.Meets (· ∈ plan.frontier) [] false edge := fun edge member =>
        (covers.frontier edge member).resolve_left List.not_mem_nil
      -- What is watched is not marked, where its key is not that of what was left.
      have free : (∀ edge ∈ plan.frontier, ∀ dir ∈ plan.out,
          first.rules.key dir ≠ first.rules.key edge) → ∀ other,
            first.tree.Meets (· ∈ plan.frontier) [] false other → other ∉ plan.frontier →
              ¬marks other := by
        intro apart other meets uncut mark
        obtain ⟨edge, member, same⟩ := (left other).mp mark
        exact apart edge member other ((covers.out other).mpr (.inr ⟨meets, uncut⟩)) same
      constructor
      · intro ⟨equal, nothing⟩
        have inPlan : ∀ dir ∈ unbounded.out, dir ∈ plan.out := by
          intro dir held
          rw [← equal]
          by_contra untaken
          obtain ⟨edge, member, -⟩ := missed held untaken
          rw [nothing] at member
          exact absurd member List.not_mem_nil
        have apart : ∀ edge ∈ plan.frontier, ∀ dir ∈ plan.out,
            first.rules.key dir ≠ first.rules.key edge := by
          intro edge member dir watched keyed
          have mark : marks dir := (left dir).mpr ⟨edge, member, keyed⟩
          obtain held | meets := (all dir).mp (part (equal ▸ watched))
          · rw [eq_nil_of_rootWatched held, WatchRules.key, WatchRules.key, List.map_nil] at keyed
            have longer := (met edge member).under.2
            rw [List.map_eq_nil_iff.mp keyed.symm] at longer
            exact absurd longer (Nat.lt_irrefl _)
          · obtain ⟨handed, next, told⟩ := meets.told
            obtain ⟨-, included, -⟩ := judge_take.mp told
            rw [excluded, pair.marked dir mark] at included
            cases included
        refine ⟨fun edge member target seeks found => ?_, apart⟩
        have inside : first.holdsOverride edge = true := by
          cases seeks with
          | here inside => exact inside
          | further inside => exact inside
        obtain ⟨node, further⟩ := meets_of_seeks (pair.seeks.mpr seeks)
          ((pair.own_false target).mpr found)
        have reached := pair.reached (met edge member) (free apart) (marked edge member) inside
          further
        obtain held | ⟨meets, -⟩ :=
          (covers.out node).mp (inPlan node ((all node).mpr (.inr reached)))
        · have longer := further.under.2
          rw [eq_nil_of_rootWatched held] at longer
          exact absurd longer (Nat.not_lt_zero _)
        · exact ((met edge member).through meets further.under.1 further.under.2).1 member
      · intro ⟨quiet, apart⟩
        have equal : unbounded.out = plan.out := by
          ext dir
          rw [all, covers.out]
          refine or_congr_right ⟨fun meets => ?_, fun ⟨meets, uncut⟩ => ?_⟩
          · exact pair.nothing_else meets (free apart) marked fun edge member _ => quiet edge member
          · exact pair.kept meets (free apart) uncut
        have nothing := fits.mpr (equal ▸ within)
        refine ⟨(Finset.Subset.antisymm part fun dir held => ?_).trans equal, nothing⟩
        by_contra untaken
        obtain ⟨edge, member, -⟩ := missed held untaken
        rw [nothing] at member
        exact absurd member List.not_mem_nil

end Walk

namespace Tracked

variable {tracked after : Tracked} {made : RelPath → Uuid}

/-- No exclusion set to false has become true. -/
def Spares (tracked after : Tracked) : Prop :=
  ∀ rel, tracked.exceededAt rel = some false → after.exceededAt rel = some false

theorem exceededAt_congr {first second : RelPath} (same : tracked.key first = tracked.key second) :
    tracked.exceededAt first = tracked.exceededAt second := by
  rw [exceededAt, exceededAt, resolveRel, resolveRel, same]

theorem Marked.exceededAt {marks : PathKey → Prop} (marked : tracked.Marked marks after)
    {rel : RelPath} (mark : marks (tracked.key rel)) : after.exceededAt rel = some true := by
  rw [Tracked.exceededAt, resolveRel, marked.key_eq]
  exact marked.marked _ mark

theorem Marked.exceededAt_eq {marks : PathKey → Prop} (marked : tracked.Marked marks after)
    {rel : RelPath} (unmarked : ¬marks (tracked.key rel)) :
    after.exceededAt rel = tracked.exceededAt rel := by
  rw [Tracked.exceededAt, resolveRel, marked.key_eq]
  exact marked.unmarked _ unmarked

/-- No exclusion is lost just when none that is recorded was set to false. -/
theorem spares_iff {frontier : List RelPath} :
    tracked.Spares (writeWatchFrontier made tracked frontier) ↔
      ∀ edge ∈ frontier, tracked.exceededAt edge ≠ some false := by
  have marked := @writeWatchFrontier_marked _ tracked made frontier
  constructor
  · intro spares edge member lost
    have kept := spares edge lost
    rw [marked.exceededAt ⟨edge, member, rfl⟩] at kept
    cases kept
  · intro clean rel false_
    rw [marked.exceededAt_eq, false_]
    intro ⟨edge, member, same⟩
    exact clean edge member ((exceededAt_congr same).symm.trans false_)

/-- The walk again, where no exclusion was lost. -/
theorem again_walk {disk : DirTree} {internalDir : RelPath} {offline : List String}
    {frontier : List RelPath} (clean : ∀ edge ∈ frontier, tracked.exceededAt edge ≠ some false) :
    Walk.Again (tracked.walk disk internalDir offline)
      ((writeWatchFrontier made tracked frontier).walk disk internalDir offline)
      fun rel => ∃ edge ∈ frontier, tracked.key rel = tracked.key edge := by
  have marked := @writeWatchFrontier_marked _ tracked made frontier
  generalize writeWatchFrontier made tracked frontier = after at marked
  have unlost : ∀ rel, (∃ edge ∈ frontier, tracked.key rel = tracked.key edge) →
      tracked.exceededAt rel ≠ some false := by
    intro rel ⟨edge, member, same⟩
    rw [exceededAt_congr same]
    exact clean edge member
  refine ⟨rfl, fun rel => ?_, fun rel mark => ?_, fun rel unmarked => ?_, fun rel => ?_,
    fun rel mark => ?_⟩
  · have eligible := rules_isEligible marked.folds marked.watch marked.ignore rel
    rw [Walk.Admits, Walk.Admits, walk, walk]
    dsimp only
    rw [eligible]
  · exact (rules_exceeded rel).trans (marked.exceededAt mark)
  · refine (rules_exceeded rel).trans ?_
    exact (marked.exceededAt_eq unmarked).trans (rules_exceeded rel).symm
  · have same : ∀ held : RelPath × Carrier, held.2.exceeded = some false →
        (held ∈ after.records ↔ held ∈ tracked.records) := by
      intro held exceeded
      rw [marked.spared held exceeded]
      refine ⟨And.left, fun inside => ⟨inside, fun mark => unlost held.1 mark ?_⟩⟩
      rw [exceededAt, resolveRel, found_of_mem inside]
      exact exceeded
    rw [Walk.holdsOverride, Walk.holdsOverride, Bool.eq_iff_iff, List.any_eq_true, List.any_eq_true]
    refine exists_congr fun path => and_congr_left' ?_
    change path ∈ after.overrides ↔ path ∈ tracked.overrides
    rw [overrides, overrides, List.mem_map, List.mem_map]
    refine exists_congr fun held => and_congr_left' ?_
    rw [List.mem_filter, List.mem_filter, decide_eq_true_eq]
    exact and_congr_left fun exceeded => same held exceeded
  · rw [show (tracked.walk disk internalDir offline).rules = tracked.rules from rfl, rules_exceeded]
    exact unlost rel mark

/-- A capped placement keeps to its cap and to what one without a cap watches, and its frontier says
what it leaves out.  Once the frontier is recorded, placing again gives the same, and no exclusion
that was set to false is lost, just when no such exclusion lies where the placement was cut. -/
theorem placement_settles (tracked : Tracked) (made : RelPath → Uuid) (disk : DirTree)
    (internalDir : RelPath) (offline : List String) {cap : Nat} (room : 1 ≤ cap) :
    let walk := tracked.walk disk internalDir offline
    let first := walk.computeWatchedDirs (some cap)
    let after := tracked.writeWatchFrontier made first.frontier
    let second := (after.walk disk internalDir offline).computeWatchedDirs (some cap)
    (first.out.card ≤ cap ∧ first.out ⊆ (walk.computeWatchedDirs none).out ∧
      ∀ dir ∈ (walk.computeWatchedDirs none).out, dir ∉ first.out →
        ∃ edge ∈ first.frontier, edge <+: dir) ∧
    ((second.out = first.out ∧ second.frontier = []) ∧ tracked.Spares after ↔
      walk.Settles first) := by
  intro walk first after second
  have own : ∀ rel, walk.rules.exceededOwn rel = tracked.exceededAt rel := rules_exceeded
  refine ⟨walk.computeWatchedDirs_capped room, ?_⟩
  have spares : tracked.Spares after ↔ ∀ edge ∈ first.frontier,
      walk.rules.exceededOwn edge ≠ some false := by
    simp only [own]
    exact spares_iff
  have keys : ∀ rel, (∃ edge ∈ first.frontier, tracked.key rel = tracked.key edge) ↔
      ∃ edge ∈ first.frontier, walk.rules.key rel = walk.rules.key edge := by
    intro rel
    simp only [show ∀ rel, walk.rules.key rel = tracked.key rel from rules_key]
  have marked := @writeWatchFrontier_marked _ tracked made first.frontier
  have root := rules_isEligible marked.folds marked.watch marked.ignore []
  constructor
  · intro ⟨same, kept⟩
    have clean := spares.mp kept
    obtain ⟨quiet, apart⟩ := (Walk.Again.plan_iff
      (again_walk fun edge member => own edge ▸ clean edge member) keys root room).mp same
    exact ⟨clean, quiet, apart⟩
  · intro settles
    refine ⟨(Walk.Again.plan_iff (again_walk fun edge member =>
      own edge ▸ settles.clean edge member) keys root room).mpr ⟨settles.quiet, settles.apart⟩, ?_⟩
    exact spares.mpr settles.clean

end Tracked

end Recording

/-! ### A cut subtree with an override inside -/

/-- A directory with another in it. -/
def sampleDirs : DirTree := .ofDirs [[.ofString "a"], [.ofString "a", .ofString "b"]]

/-- The root is tracked, and the inner directory carries an exclusion, if any. -/
def sampleTracked (exceeded : Option Bool) : @Tracked plainExternals :=
  let _ : Externals := plainExternals
  { caseInsensitive := false
    records := [([], ⟨sampleUuids 0, some true, none, []⟩),
      ([.ofString "a", .ofString "b"], ⟨sampleUuids 1, none, exceeded, []⟩)]
    apart := by
      change List.Nodup
        ([[], [(TreeName.ofString "a").bytes, (TreeName.ofString "b").bytes]] : List PathKey)
      decide
    rooted := ⟨_, List.mem_cons_self⟩ }

theorem sampleTracked_placed :
    letI : Externals := plainExternals
    ((sampleTracked none).walk sampleDirs [.ofString ".metafolder"] []).computeWatchedDirs
      (some 1) = ⟨{[]}, [[.ofString "a"]]⟩ := by
  have out : (@Walk.computeWatchedDirs plainExternals (@Tracked.walk plainExternals
      (sampleTracked none) sampleDirs [.ofString ".metafolder"] []) (some 1)).out = {[]} := by
    decide +kernel
  have frontier : (@Walk.computeWatchedDirs plainExternals (@Tracked.walk plainExternals
      (sampleTracked none) sampleDirs [.ofString ".metafolder"] []) (some 1)).frontier =
        [[.ofString "a"]] := by
    decide +kernel
  exact congrArg₂ Taken.mk out frontier

/-- Without an override, placing again gives the same. -/
theorem placement_settles_plain :
    letI : Externals := plainExternals
    let walk := (sampleTracked none).walk sampleDirs [.ofString ".metafolder"] []
    let first := walk.computeWatchedDirs (some 1)
    let after := (sampleTracked none).writeWatchFrontier (fun _ => sampleUuids 2) first.frontier
    let second := (after.walk sampleDirs [.ofString ".metafolder"] []).computeWatchedDirs (some 1)
    (second.out = first.out ∧ second.frontier = []) ∧ (sampleTracked none).Spares after := by
  let _ : Externals := plainExternals
  refine ((sampleTracked none).placement_settles (fun _ => sampleUuids 2) sampleDirs
    [.ofString ".metafolder"] [] (le_refl 1)).2.mpr ?_
  rw [sampleTracked_placed]
  have own : (@Tracked.rules plainExternals (sampleTracked none)).exceededOwn [.ofString "a"] ≠
      some false := by
    decide +kernel
  have keys :
      @WatchRules.key plainExternals (@Tracked.rules plainExternals (sampleTracked none)) [] ≠
      @WatchRules.key plainExternals (@Tracked.rules plainExternals (sampleTracked none))
        [.ofString "a"] := by
    decide +kernel
  refine ⟨fun edge member => ?_, fun edge member target seeks => ?_,
    fun edge member dir watched => ?_⟩
  · rw [List.mem_singleton.mp member]
    exact own
  · cases seeks with
    | here inside => cases inside
    | further inside => cases inside
  · rw [List.mem_singleton.mp member, Finset.mem_singleton.mp watched]
    exact keys

/-- With one below the subtree that was cut, it is not so: the directory that carries it has no room
either, and is left in its turn. -/
theorem placement_overridden :
    letI : Externals := plainExternals
    ¬∀ (tracked : Tracked) (made : RelPath → Uuid) (disk : DirTree) (internalDir : RelPath)
        (offline : List String) (cap : Nat), 1 ≤ cap →
      let walk := tracked.walk disk internalDir offline
      let first := walk.computeWatchedDirs (some cap)
      let after := tracked.writeWatchFrontier made first.frontier
      let second := (after.walk disk internalDir offline).computeWatchedDirs (some cap)
      (first.out.card ≤ cap ∧ first.out ⊆ (walk.computeWatchedDirs none).out ∧
        ∀ dir ∈ (walk.computeWatchedDirs none).out, dir ∉ first.out →
          ∃ edge ∈ first.frontier, edge <+: dir) ∧
      (second.out = first.out ∧ second.frontier = []) ∧ tracked.Spares after := by
  intro claim
  let _ : Externals := plainExternals
  have again := (claim (sampleTracked (some false)) (fun _ => sampleUuids 2) sampleDirs
    [.ofString ".metafolder"] [] 1 (le_refl 1)).2.1.2
  revert again
  decide +kernel

end Metafolder
