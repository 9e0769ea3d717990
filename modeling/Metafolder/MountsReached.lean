import Metafolder.SecondMounts

/-!
# What is reached under a root

Once the second mounts are left out, two paths reach one object only through a mount that shows a
directory above what an earlier one shows.  What a left out mount shows is reached through the mount
that covers it, unless a mount beneath that one hides it.
-/

namespace Metafolder
namespace Mounts

open MountViews Watchd

/-- A mount and its point. -/
abbrev Mounted := PathBuf × MountInfoEntry

/-- The nearest mount at or above a path is the one its object is seen through. -/
structure SeenThrough (table : MountTable) (path : PathBuf) (mount : Mounted) : Prop where
  listed : mount ∈ table.byPath
  above : mount.1 <+: path
  nearest : ∀ other ∈ table.byPath, other.1 <+: path → other.1.length ≤ mount.1.length

/-- What is mounted at a point. -/
def view (mount : Mounted) : Mount Component (Nat × Nat) := ⟨mount.2.dev, mount.1, mount.2.root⟩

/-- What of a mount is seen from a root: all of it below the root, and of the mount the root is on,
what the root shows. -/
def fromRoot (root : PathBuf) (mount : Mounted) : Mount Component (Nat × Nat) :=
  ⟨mount.2.dev, mount.1 ++ root.drop mount.1.length, mount.2.root ++ root.drop mount.1.length⟩

/-- The object of a device seen at a path. -/
def Shows (table : MountTable) (path : PathBuf) (dev : Nat × Nat) (object : PathBuf) : Prop :=
  ∃ mount, SeenThrough table path mount ∧ mount.2.dev = dev ∧ (view mount).inner path = object

/-- A path under the root, and under no second mount. -/
def Entered (table : MountTable) (root path : PathBuf) : Prop :=
  root <+: path ∧ ∀ second ∈ table.secondMountsUnder root, ¬second <+: path

/-- A mount made before another under the root; the one the root is on was there first. -/
def Before (table : MountTable) (root : PathBuf) (first second : Mounted) : Prop :=
  second ∈ table.under root ∧ (SeenThrough table root first ∨
    first ∈ table.under root ∧ first.2.order < second.2.order)

variable {table : MountTable} {root path other : PathBuf} {mount own first second : Mounted}

/-! ### The nearest mount -/

theorem eq_of_point (listed : first ∈ table.byPath) (also : second ∈ table.byPath)
    (same : first.1 = second.1) : first = second :=
  List.inj_on_of_nodup_map table.points listed also same

theorem eq_of_order (listed : first ∈ table.byPath) (also : second ∈ table.byPath)
    (same : first.2.order = second.2.order) : first = second :=
  List.inj_on_of_nodup_map table.orders listed also same

theorem find_eq_some : table.find path = some mount ↔ mount ∈ table.byPath ∧ mount.1 = path := by
  have known {other : Mounted} (found : table.find path = some other) :
      other ∈ table.byPath ∧ other.1 = path := by
    rw [MountTable.find] at found
    have named := List.find?_some found
    exact ⟨List.mem_of_find?_eq_some found, of_decide_eq_true named⟩
  constructor
  · exact known
  · intro held
    cases found : table.find path with
    | none =>
        have absent := List.find?_eq_none.mp found mount held.1
        exact absurd (decide_eq_true held.2) absent
    | some other =>
        obtain ⟨listed, named⟩ := known found
        rw [eq_of_point listed held.1 (named.trans held.2.symm)]

theorem mem_ancestors {above : PathBuf} :
    above ∈ path.ancestors ↔ above <+: path ∧ (above ≠ [] ∨ ¬path.isAbsolute) := by
  rw [PathBuf.ancestors, List.mem_reverse, List.mem_filter, List.mem_inits]
  simp

/-- Going up shortens a path. -/
theorem ancestors_shrink (path : PathBuf) :
    path.ancestors.Pairwise fun below above => above.length < below.length := by
  rw [PathBuf.ancestors, List.pairwise_reverse]
  refine List.Pairwise.filter _ ?_
  induction path with
  | nil => exact List.pairwise_singleton _ _
  | cons component rest ih =>
      rw [List.inits_cons, List.pairwise_cons]
      constructor
      · intro above member
        obtain ⟨start, -, rfl⟩ := List.mem_map.mp member
        exact Nat.succ_pos _
      · refine List.pairwise_map.mpr (ih.imp fun less => ?_)
        exact Nat.succ_lt_succ less

theorem SeenThrough.unique (seen : SeenThrough table path first)
    (again : SeenThrough table path second) : first = second := by
  have here := seen.nearest second again.listed again.above
  have there := again.nearest first seen.listed seen.above
  apply eq_of_point seen.listed again.listed
  exact (List.prefix_of_prefix_length_le seen.above again.above there).eq_of_length
    (Nat.le_antisymm there here)

theorem point_ne_nil (listed : mount ∈ table.byPath) : mount.1 ≠ [] := by
  intro empty
  have absolute := table.absolute mount listed
  rw [empty] at absolute
  cases absolute

theorem seenThrough_of_above (found : table.above path = some mount) :
    SeenThrough table path mount := by
  obtain ⟨before, above, after, split, here, none⟩ := List.findSome?_eq_some_iff.mp found
  obtain ⟨listed, rfl⟩ := find_eq_some.mp here
  have chain : mount.1 ∈ path.ancestors := split ▸ List.mem_append_right _ List.mem_cons_self
  refine ⟨listed, (mem_ancestors.mp chain).1, fun other member below => ?_⟩
  have ordered := ancestors_shrink path
  have met := mem_ancestors.mpr ⟨below, .inl (point_ne_nil member)⟩
  rw [split] at ordered met
  cases List.mem_append.mp met with
  | inl earlier =>
      have absent := none _ earlier
      rw [find_eq_some.mpr ⟨member, rfl⟩] at absent
      cases absent
  | inr rest =>
      cases List.mem_cons.mp rest with
      | inl same => rw [same]
      | inr later =>
          obtain ⟨shorter, -⟩ := List.pairwise_cons.mp (List.pairwise_append.mp ordered).2.1
          exact Nat.le_of_lt (shorter _ later)

/-- The walk up finds the mount a path is seen through. -/
theorem above_eq_some : table.above path = some mount ↔ SeenThrough table path mount := by
  constructor
  · exact seenThrough_of_above
  · intro seen
    cases found : table.above path with
    | none =>
        have absent := List.findSome?_eq_none_iff.mp found mount.1
          (mem_ancestors.mpr ⟨seen.above, .inl (point_ne_nil seen.listed)⟩)
        rw [find_eq_some.mpr ⟨seen.listed, rfl⟩] at absent
        cases absent
    | some other => rw [(seenThrough_of_above found).unique seen]

/-! ### The loop over the mounts -/

namespace Visited

variable {visited : Visited} {mounts before after : List Mounted}

theorem visit_mono (visited : Visited) (mount : Mounted) :
    visited.reached ⊆ (visited.visit mount).reached ∧ visited.out ⊆ (visited.visit mount).out := by
  rw [visit]
  split
  · exact ⟨List.Subset.refl _, List.Subset.refl _⟩
  · split
    · exact ⟨List.Subset.refl _, List.subset_append_left _ _⟩
    · exact ⟨List.subset_append_left _ _, List.Subset.refl _⟩

/-- The loop only adds. -/
theorem foldl_mono (visited : Visited) (mounts : List Mounted) :
    visited.reached ⊆ (mounts.foldl visit visited).reached ∧
      visited.out ⊆ (mounts.foldl visit visited).out := by
  induction mounts generalizing visited with
  | nil => exact ⟨List.Subset.refl _, List.Subset.refl _⟩
  | cons mount rest ih =>
      have first := visit_mono visited mount
      have others := ih (visited.visit mount)
      exact ⟨List.Subset.trans first.1 others.1, List.Subset.trans first.2 others.2⟩

/-- What is left out is the point of a mount. -/
theorem mem_foldl_out {point : PathBuf} (member : point ∈ (mounts.foldl visit visited).out) :
    point ∈ visited.out ∨ ∃ mount ∈ mounts, mount.1 = point := by
  induction mounts generalizing visited with
  | nil => exact .inl member
  | cons mount rest ih =>
      cases ih member with
      | inr later =>
          obtain ⟨other, listed, same⟩ := later
          exact .inr ⟨other, List.mem_cons_of_mem _ listed, same⟩
      | inl now =>
          rw [visit] at now
          split at now
          · exact .inl now
          · split at now
            · cases List.mem_append.mp now with
              | inl old => exact .inl old
              | inr new =>
                  exact .inr ⟨mount, List.mem_cons_self, (List.mem_singleton.mp new).symm⟩
            · exact .inl now

/-- A mount not left out and beneath none shows what nothing reached before holds, and is reached. -/
theorem reached_of_visit (clear : ∀ point ∈ (visited.visit mount).out, ¬point <+: mount.1) :
    (∀ part ∈ visited.reached, part.1 = mount.2.dev → ¬part.2 <+: mount.2.root) ∧
      (mount.2.dev, mount.2.root) ∈ (visited.visit mount).reached := by
  have apart : ¬visited.out.any mount.1.startsWith := by
    intro beneath
    obtain ⟨point, member, below⟩ := List.any_eq_true.mp beneath
    exact clear point ((visit_mono visited mount).2 member) (List.isPrefixOf_iff_prefix.mp below)
  rw [visit, if_neg apart] at clear ⊢
  split
  · next covered =>
    rw [if_pos covered] at clear
    exact absurd List.prefix_rfl (clear mount.1 (List.mem_append_right _ List.mem_cons_self))
  · next bare =>
    refine ⟨fun part member same below => bare ?_, List.mem_append_right _ List.mem_cons_self⟩
    refine List.any_eq_true.mpr ⟨part, member, decide_eq_true ⟨same, ?_⟩⟩
    exact List.isPrefixOf_iff_prefix.mpr below

/-- A mount of the loop not left out and beneath none is reached. -/
theorem mem_reached (member : mount ∈ mounts)
    (clear : ∀ point ∈ (mounts.foldl visit visited).out, ¬point <+: mount.1) :
    (mount.2.dev, mount.2.root) ∈ (mounts.foldl visit visited).reached := by
  obtain ⟨before, after, rfl⟩ := List.append_of_mem member
  rw [List.foldl_append] at clear ⊢
  have later := foldl_mono ((before.foldl visit visited).visit mount) after
  have here := reached_of_visit fun point held => clear point (later.2 held)
  exact later.1 here.2

/-- A mount left out shows what a part reached before holds. -/
theorem covered_of_visit (fresh : mount.1 ∉ visited.out)
    (left : mount.1 ∈ (visited.visit mount).out) :
    ∃ part ∈ visited.reached, part.1 = mount.2.dev ∧ part.2 <+: mount.2.root := by
  rw [visit] at left
  split at left
  · exact absurd left fresh
  · split at left
    · next covered =>
      obtain ⟨part, member, holds⟩ := List.any_eq_true.mp covered
      obtain ⟨same, below⟩ := of_decide_eq_true holds
      exact ⟨part, member, same, List.isPrefixOf_iff_prefix.mp below⟩
    · exact absurd left fresh

/-- What is reached was there at first, or is shown by a mount not left out. -/
theorem mem_foldl_reached (points : (mounts.map Prod.fst).Nodup)
    (fresh : ∀ mount ∈ mounts, mount.1 ∉ visited.out) {part : (Nat × Nat) × PathBuf}
    (member : part ∈ (mounts.foldl visit visited).reached) : part ∈ visited.reached ∨
      ∃ mount ∈ mounts, part = (mount.2.dev, mount.2.root) ∧
        mount.1 ∉ (mounts.foldl visit visited).out := by
  induction mounts generalizing visited with
  | nil => exact .inl member
  | cons mount rest ih =>
      obtain ⟨absent, distinct⟩ := List.nodup_cons.mp points
      have left : ∀ other ∈ rest, other.1 ∉ (visited.visit mount).out := by
        intro other listed gone
        have met : other.1 ∈ ([mount].foldl visit visited).out := gone
        cases mem_foldl_out met with
        | inl old => exact fresh other (List.mem_cons_of_mem _ listed) old
        | inr here =>
            obtain ⟨same, named, point⟩ := here
            rw [List.mem_singleton.mp named] at point
            exact absent (point ▸ List.mem_map.mpr ⟨other, listed, rfl⟩)
      cases ih distinct left member with
      | inr later =>
          obtain ⟨other, listed, same, kept⟩ := later
          exact .inr ⟨other, List.mem_cons_of_mem _ listed, same, kept⟩
      | inl now =>
          by_cases old : part ∈ visited.reached
          · exact .inl old
          · right
            rw [visit] at now
            split at now
            · exact absurd now old
            · split at now
              · exact absurd now old
              · next apart bare =>
                refine ⟨mount, List.mem_cons_self, ?_, fun gone => ?_⟩
                · exact List.mem_singleton.mp ((List.mem_append.mp now).resolve_left old)
                · have after : mount.1 ∈ (rest.foldl visit (visited.visit mount)).out := gone
                  cases mem_foldl_out after with
                  | inr later =>
                      obtain ⟨other, listed, same⟩ := later
                      exact absent (List.mem_map.mpr ⟨other, listed, same⟩)
                  | inl here =>
                      rw [visit, if_neg apart, if_neg bare] at here
                      exact fresh mount List.mem_cons_self here

end Visited

/-! ### The mounts under a root -/

theorem mem_under : mount ∈ table.under root ↔
    mount ∈ table.byPath ∧ root <+: mount.1 ∧ mount.1 ≠ root := by
  rw [MountTable.under, List.mem_insertionSort, List.mem_filter]
  simp only [PathBuf.startsWith, decide_eq_true_eq, List.isPrefixOf_iff_prefix]

theorem nodup_under {α : Type} (key : Mounted → α) (distinct : (table.byPath.map key).Nodup) :
    ((table.under root).map key).Nodup := by
  have kept := distinct.sublist (List.Sublist.map key (List.filter_sublist (l := table.byPath)
    (p := fun mount => mount.1.startsWith root ∧ mount.1 ≠ root)))
  exact ((List.perm_insertionSort _ _).map key).nodup_iff.mpr kept

/-- They come in the order of their lines. -/
theorem under_ordered (table : MountTable) (root : PathBuf) :
    (table.under root).Pairwise fun first second => first.2.order < second.2.order := by
  let Most (first second : Mounted) : Prop := first.2.order ≤ second.2.order
  have _ : Std.Total Most := ⟨fun _ _ => Nat.le_total _ _⟩
  have _ : IsTrans Mounted Most := ⟨fun _ _ _ => Nat.le_trans⟩
  have sorted : (table.under root).Pairwise Most := List.pairwise_insertionSort Most _
  have distinct : (table.under root).Pairwise fun first second => first.2.order ≠ second.2.order :=
    List.pairwise_map.mp (nodup_under _ table.orders)
  exact sorted.imp₂ (fun _ _ => Nat.lt_of_le_of_ne) distinct

theorem drop_of_under (listed : mount ∈ table.under root) : root.drop mount.1.length = [] :=
  List.drop_eq_nil_of_le (mem_under.mp listed).2.1.length_le

/-- All of a mount under the root is seen from it. -/
theorem fromRoot_root_of_under (listed : mount ∈ table.under root) :
    (fromRoot root mount).root = mount.2.root := by
  change mount.2.root ++ root.drop mount.1.length = mount.2.root
  rw [drop_of_under listed, List.append_nil]

/-- The state the loop starts from. -/
def atRoot (root : PathBuf) (own : Mounted) : Visited where
  reached := [((fromRoot root own).device, (fromRoot root own).root)]

theorem mem_secondMountsUnder (seen : SeenThrough table root own) {point : PathBuf} :
    point ∈ table.secondMountsUnder root ↔
      point ∈ ((table.under root).foldl Visited.visit (atRoot root own)).out := by
  rw [MountTable.secondMountsUnder, above_eq_some.mpr seen, List.mem_insertionSort]
  rfl

/-- A root no mount is above has no second mounts. -/
theorem exists_seen_of_mem {point : PathBuf} (member : point ∈ table.secondMountsUnder root) :
    ∃ own, SeenThrough table root own := by
  cases found : table.above root with
  | none =>
      rw [MountTable.secondMountsUnder, found] at member
      cases member
  | some own => exact ⟨own, above_eq_some.mp found⟩

/-- The mounts met before one, and after it. -/
structure Split (table : MountTable) (root : PathBuf) (mount : Mounted)
    (before after : List Mounted) : Prop where
  whole : table.under root = before ++ mount :: after
  points : mount.1 ∉ before.map Prod.fst ∧ mount.1 ∉ after.map Prod.fst
  earlier : ∀ other, other ∈ before ↔ other ∈ table.under root ∧ other.2.order < mount.2.order

theorem exists_split (listed : mount ∈ table.under root) :
    ∃ before after, Split table root mount before after := by
  obtain ⟨before, after, whole⟩ := List.append_of_mem listed
  refine ⟨before, after, whole, ?_, fun other => ?_⟩
  · have distinct : ((table.under root).map Prod.fst).Nodup := nodup_under _ table.points
    rw [whole, List.map_append, List.map_cons, List.nodup_append] at distinct
    constructor
    · intro met
      exact distinct.2.2 _ met _ List.mem_cons_self rfl
    · exact (List.nodup_cons.mp distinct.2.1).1
  · have ordered := under_ordered table root
    rw [whole] at ordered ⊢
    obtain ⟨-, rest, apart⟩ := List.pairwise_append.mp ordered
    constructor
    · intro member
      exact ⟨List.mem_append_left _ member, apart other member mount List.mem_cons_self⟩
    · intro held
      cases List.mem_append.mp held.1 with
      | inl member => exact member
      | inr later =>
          have beyond : mount.2.order ≤ other.2.order := by
            cases List.mem_cons.mp later with
            | inl same => rw [same]
            | inr after => exact Nat.le_of_lt ((List.pairwise_cons.mp rest).1 other after)
          omega

/-- Of two mounts entered one after the other, the first holds nothing the second is a part of. -/
theorem Before.apart (before : Before table root first second)
    (sameDevice : first.2.dev = second.2.dev) (seen : SeenThrough table root own)
    (clearFirst : ∀ point ∈ table.secondMountsUnder root, ¬point <+: first.1)
    (clearSecond : ∀ point ∈ table.secondMountsUnder root, ¬point <+: second.1) :
    ¬(fromRoot root first).root <+: second.2.root := by
  obtain ⟨listed, earlier⟩ := before
  obtain ⟨others, rest, split⟩ := exists_split listed
  have final : (table.under root).foldl Visited.visit (atRoot root own) =
      rest.foldl Visited.visit ((others.foldl Visited.visit (atRoot root own)).visit second) := by
    rw [split.whole, List.foldl_append]
    rfl
  have clear : ∀ point ∈ ((others.foldl Visited.visit (atRoot root own)).visit second).out,
      ¬point <+: second.1 := by
    intro point member
    refine clearSecond point ((mem_secondMountsUnder seen).mpr ?_)
    rw [final]
    exact (Visited.foldl_mono _ rest).2 member
  have bare := (Visited.reached_of_visit clear).1
  cases earlier with
  | inl isOwn =>
      obtain rfl := isOwn.unique seen
      exact bare _ ((Visited.foldl_mono _ others).1 List.mem_cons_self) sameDevice
  | inr met =>
      have kept : ∀ point ∈ (others.foldl Visited.visit (atRoot root own)).out, ¬point <+: first.1 := by
        intro point member
        refine clearFirst point ((mem_secondMountsUnder seen).mpr ?_)
        rw [final]
        exact (Visited.foldl_mono _ rest).2 ((Visited.visit_mono _ second).2 member)
      rw [fromRoot_root_of_under met.1]
      exact bare _ (Visited.mem_reached ((split.earlier first).mpr met) kept) sameDevice

/-- A mount left out shows part of what one reached before shows. -/
theorem exists_cover (seen : SeenThrough table root own) (listed : mount ∈ table.under root)
    (left : mount.1 ∈ table.secondMountsUnder root) : ∃ first, Before table root first mount ∧
      first.1 ∉ table.secondMountsUnder root ∧ first.2.dev = mount.2.dev ∧
      (fromRoot root first).root <+: mount.2.root := by
  obtain ⟨before, after, split⟩ := exists_split listed
  have final : (table.under root).foldl Visited.visit (atRoot root own) =
      after.foldl Visited.visit ((before.foldl Visited.visit (atRoot root own)).visit mount) := by
    rw [split.whole, List.foldl_append]
    rfl
  have points : ((table.under root).map Prod.fst).Nodup := nodup_under _ table.points
  rw [mem_secondMountsUnder seen, final] at left
  have now := (Visited.mem_foldl_out left).resolve_right fun later =>
    split.points.2 (List.mem_map.mpr later)
  have fresh : mount.1 ∉ (before.foldl Visited.visit (atRoot root own)).out := by
    intro gone
    have met := (Visited.mem_foldl_out gone).resolve_left nofun
    exact split.points.1 (List.mem_map.mpr met)
  obtain ⟨part, reached, sameDevice, below⟩ := Visited.covered_of_visit fresh now
  rw [split.whole, List.map_append, List.nodup_append] at points
  cases Visited.mem_foldl_reached points.1 (fun _ _ => List.not_mem_nil) reached with
  | inl start =>
      obtain rfl := List.mem_singleton.mp start
      refine ⟨own, ⟨listed, .inl seen⟩, fun gone => ?_, sameDevice, below⟩
      rw [mem_secondMountsUnder seen] at gone
      obtain ⟨other, member, same⟩ := (Visited.mem_foldl_out gone).resolve_left nofun
      obtain ⟨known, inside, differ⟩ := mem_under.mp member
      rw [same] at inside differ
      exact differ (seen.above.eq_of_length_le inside.length_le)
  | inr met =>
      obtain ⟨first, member, rfl, kept⟩ := met
      obtain ⟨known, earlier⟩ := (split.earlier first).mp member
      refine ⟨first, ⟨listed, .inr ⟨known, earlier⟩⟩, fun gone => ?_, sameDevice, ?_⟩
      · rw [mem_secondMountsUnder seen, final] at gone
        cases Visited.mem_foldl_out gone with
        | inr later =>
            obtain ⟨other, further, same⟩ := later
            exact points.2.2 first.1 (List.mem_map.mpr ⟨first, member, rfl⟩) other.1
              (List.mem_cons_of_mem _ (List.mem_map.mpr ⟨other, further, rfl⟩)) same.symm
        | inl here =>
            have last : first.1 ∈ ([mount].foldl Visited.visit
                (before.foldl Visited.visit (atRoot root own))).out := here
            obtain ⟨other, isMount, same⟩ := (Visited.mem_foldl_out last).resolve_left kept
            rw [List.mem_singleton.mp isMount] at same
            exact split.points.1 (List.mem_map.mpr ⟨first, member, same.symm⟩)
      · rw [fromRoot_root_of_under known]
        exact below

/-! ### What is reached -/

/-- A path under the root is seen through the mount the root is on, or through one under it. -/
theorem SeenThrough.cases_root (seen : SeenThrough table path mount) (under : root <+: path) :
    SeenThrough table root mount ∨ mount ∈ table.under root := by
  cases Nat.lt_or_ge root.length mount.1.length with
  | inl long =>
      refine .inr (mem_under.mpr ⟨seen.listed, ?_, fun same => ?_⟩)
      · exact List.prefix_of_prefix_length_le under seen.above (Nat.le_of_lt long)
      · rw [same] at long
        omega
  | inr short =>
      have above := List.prefix_of_prefix_length_le seen.above under short
      exact .inl ⟨seen.listed, above, fun other listed higher =>
        seen.nearest other listed (higher.trans under)⟩

/-- A path below the root is, in a mount, below what of it is seen from the root. -/
theorem SeenThrough.places (seen : SeenThrough table path mount) (under : root <+: path) :
    (fromRoot root mount).Places ((view mount).inner path) path := by
  cases List.prefix_or_prefix_of_prefix seen.above under with
  | inl above =>
      obtain ⟨rest, rfl⟩ := under
      obtain ⟨inside, rfl⟩ := above
      have whole : fromRoot (mount.1 ++ inside) mount =
          ⟨mount.2.dev, mount.1 ++ inside, mount.2.root ++ inside⟩ := by
        rw [fromRoot, List.drop_left]
      have inner := (view mount).inner_append (inside ++ rest)
      rw [whole]
      refine ⟨rest, ?_, rfl⟩
      rw [List.append_assoc, List.append_assoc]
      exact inner
  | inr beneath =>
      have whole : fromRoot root mount = view mount := by
        rw [fromRoot, List.drop_eq_nil_of_le beneath.length_le, List.append_nil, List.append_nil]
        rfl
      rw [whole]
      exact Mount.places_inner seen.above

/-- An entered path is under no second mount, and neither is the point it is seen through. -/
theorem Entered.clear (entered : Entered table root path) (seen : SeenThrough table path mount) :
    ∀ point ∈ table.secondMountsUnder root, ¬point <+: mount.1 :=
  fun point member beneath => entered.2 point member (beneath.trans seen.above)

/-- What is seen of an earlier mount is under the root. -/
theorem Before.under_point (before : Before table root first second) :
    root <+: (fromRoot root first).point := by
  cases before.2 with
  | inl isOwn =>
      obtain ⟨inside, rfl⟩ := isOwn.above
      change _ <+: first.1 ++ (first.1 ++ inside).drop first.1.length
      rw [List.drop_left]
  | inr met => exact (mem_under.mp met.1).2.1.trans (List.prefix_append _ _)

/-- Where a mount shows an object from the root is below its point. -/
theorem view_places {object : PathBuf} (places : (fromRoot root mount).Places object path) :
    (view mount).Places object path := by
  obtain ⟨rest, rfl, rfl⟩ := places
  exact ⟨root.drop mount.1.length ++ rest, List.append_assoc _ _ _, List.append_assoc _ _ _⟩

/-- Through two mounts entered one after the other an object is reached only where the later shows
what is above what the earlier shows. -/
theorem Before.above {object : PathBuf} (before : Before table root first second)
    (seen : SeenThrough table root own) (enteredFirst : Entered table root path)
    (enteredSecond : Entered table root other) (here : SeenThrough table path first)
    (there : SeenThrough table other second) (sameDevice : first.2.dev = second.2.dev)
    (shown : (view first).inner path = object) (also : (view second).inner other = object) :
    second.2.root <+: (fromRoot root first).root ∧ second.2.root ≠ (fromRoot root first).root := by
  have apart := before.apart sameDevice seen (enteredFirst.clear here) (enteredSecond.clear there)
  obtain ⟨rest, object_eq, -⟩ := here.places enteredFirst.1
  obtain ⟨more, same, -⟩ := there.places enteredSecond.1
  rw [fromRoot_root_of_under before.1, also, ← shown, object_eq] at same
  cases List.prefix_or_prefix_of_prefix (List.prefix_append (fromRoot root first).root rest)
    (same ▸ List.prefix_append second.2.root more) with
  | inl below => exact absurd below apart
  | inr above => exact ⟨above, fun equal => apart (equal ▸ List.prefix_rfl)⟩

/-- One object is reached through two paths only where a mount shows what is above what one made
before it shows. -/
theorem reached_twice {object : PathBuf} {dev : Nat × Nat} (seen : SeenThrough table root own)
    (enteredFirst : Entered table root path) (enteredSecond : Entered table root other)
    (here : Shows table path dev object) (there : Shows table other dev object)
    (differ : path ≠ other) : ∃ first second, Before table root first second ∧
      (SeenThrough table path first ∧ SeenThrough table other second ∨
        SeenThrough table other first ∧ SeenThrough table path second) ∧
      second.2.root <+: (fromRoot root first).root ∧
      second.2.root ≠ (fromRoot root first).root := by
  obtain ⟨mount, seenHere, device, inner⟩ := here
  obtain ⟨next, seenThere, sameDevice, same⟩ := there
  have devices : mount.2.dev = next.2.dev := device.trans sameDevice.symm
  have distinct : mount ≠ next := by
    intro one
    rw [one] at inner seenHere
    apply differ
    have places : (view next).Places ((view next).inner path) path :=
      Mount.places_inner seenHere.above
    rw [inner, ← same] at places
    exact places.unique (Mount.places_inner seenThere.above)
  have forward (before : Before table root mount next) := before.above seen enteredFirst enteredSecond
    seenHere seenThere devices inner same
  have backward (before : Before table root next mount) := before.above seen enteredSecond enteredFirst
    seenThere seenHere devices.symm same inner
  cases seenHere.cases_root enteredFirst.1 with
  | inl isOwn =>
      cases seenThere.cases_root enteredSecond.1 with
      | inl also => exact absurd (isOwn.unique also) distinct
      | inr listed =>
          have before : Before table root mount next := ⟨listed, .inl isOwn⟩
          exact ⟨mount, next, before, .inl ⟨seenHere, seenThere⟩, forward before⟩
  | inr listed =>
      cases seenThere.cases_root enteredSecond.1 with
      | inl isOwn =>
          have before : Before table root next mount := ⟨listed, .inl isOwn⟩
          exact ⟨next, mount, before, .inr ⟨seenThere, seenHere⟩, backward before⟩
      | inr also =>
          cases Nat.lt_trichotomy mount.2.order next.2.order with
          | inl less =>
              have before : Before table root mount next := ⟨also, .inr ⟨listed, less⟩⟩
              exact ⟨mount, next, before, .inl ⟨seenHere, seenThere⟩, forward before⟩
          | inr further =>
              cases further with
              | inl equal =>
                  exact absurd (eq_of_order (mem_under.mp listed).1 (mem_under.mp also).1 equal) distinct
              | inr greater =>
                  have before : Before table root next mount := ⟨listed, .inr ⟨also, greater⟩⟩
                  exact ⟨next, mount, before, .inr ⟨seenThere, seenHere⟩, backward before⟩

/-- What is seen under the root is reached; or the mount it is seen through is beneath a second
mount; or it is one, and the place of the object in a mount that covers it is hidden or beneath a
second mount, or the object is reached there. -/
theorem reached_or_covered (under : root <+: path) (here : SeenThrough table path mount) :
    Entered table root path ∨
    (∃ point ∈ table.secondMountsUnder root, point <+: mount.1 ∧ point ≠ mount.1) ∨
    ∃ first place, Before table root first mount ∧ first.1 ∉ table.secondMountsUnder root ∧
      (fromRoot root first).Places ((view mount).inner path) place ∧
      (SeenThrough table place first →
        (∀ point ∈ table.secondMountsUnder root, ¬point <+: first.1) →
        Entered table root place ∧ Shows table place mount.2.dev ((view mount).inner path)) := by
  by_cases entered : Entered table root path
  · exact .inl entered
  · right
    obtain ⟨point, member, beneath⟩ : ∃ point ∈ table.secondMountsUnder root, point <+: path := by
      by_contra none
      exact entered ⟨under, fun point member beneath => none ⟨point, member, beneath⟩⟩
    obtain ⟨own, seen⟩ := exists_seen_of_mem member
    obtain ⟨second, listed, rfl⟩ := (Visited.mem_foldl_out
      ((mem_secondMountsUnder seen).mp member)).resolve_left List.not_mem_nil
    have known := mem_under.mp listed
    have above := List.prefix_of_prefix_length_le beneath here.above
      (here.nearest second known.1 beneath)
    by_cases same : second.1 = mount.1
    · right
      obtain rfl := eq_of_point known.1 here.listed same
      obtain ⟨first, before, kept, sameDevice, inside, part⟩ := exists_cover seen listed member
      obtain ⟨rest, rfl⟩ := here.above
      have places : (fromRoot root first).Places ((view second).inner (second.1 ++ rest))
          ((fromRoot root first).point ++ (inside ++ rest)) := by
        refine ⟨inside ++ rest, ?_, rfl⟩
        rw [← List.append_assoc, part]
        exact (view second).inner_append rest
      refine ⟨first, _, before, kept, places, fun through clear => ⟨⟨?_, ?_⟩, ?_⟩⟩
      · exact before.under_point.trans (List.prefix_append _ _)
      · intro point gone beneath
        obtain ⟨other, met, rfl⟩ := (Visited.mem_foldl_out
          ((mem_secondMountsUnder seen).mp gone)).resolve_left List.not_mem_nil
        have high := through.nearest other (mem_under.mp met).1 beneath
        exact clear other.1 gone (List.prefix_of_prefix_length_le beneath through.above high)
      · exact ⟨first, through, sameDevice, (view_places places).inner_eq⟩
    · exact .inl ⟨second.1, member, above, same⟩

/-- An absolute path. -/
abbrev samplePath (names : List UInt8) : PathBuf := .rootDir :: names.map fun name => .normal [name]

/-- A drive of which `/y` is mounted at `/r/a`, and then all of it at `/r/b`. -/
abbrev partFirst : MountTable where
  byPath := [(samplePath [], ⟨8, 1, samplePath [], 0⟩), (samplePath [114, 97], ⟨8, 17, samplePath [121], 1⟩),
    (samplePath [114, 98], ⟨8, 17, samplePath [], 2⟩)]
  points := by decide +kernel
  orders := by decide +kernel
  absolute := by decide +kernel

/-- A drive at `/r/b`, another mounted over its `/y`, and that `/y` at `/r/c`. -/
abbrev hiddenPart : MountTable where
  byPath := [(samplePath [], ⟨8, 1, samplePath [], 0⟩), (samplePath [114, 98], ⟨8, 17, samplePath [], 1⟩),
    (samplePath [114, 98, 121], ⟨8, 33, samplePath [], 2⟩), (samplePath [114, 99], ⟨8, 17, samplePath [121], 3⟩)]
  points := by decide +kernel
  orders := by decide +kernel
  absolute := by decide +kernel

theorem partFirst_out : partFirst.secondMountsUnder (samplePath [114]) = [] := by decide +kernel

theorem hiddenPart_out : hiddenPart.secondMountsUnder (samplePath [114]) = [samplePath [114, 99]] := by
  decide +kernel

end Mounts
end Metafolder
