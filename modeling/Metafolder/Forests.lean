import Metafolder.Ancestry
import Metafolder.FieldTypes
import Mathlib.Data.Fintype.Vector

/-!
# Forests

The positions of a field place metarecords under others.  A position is checked against the places
above its parent as it is written, or, in a revert, as the write is committed; a metarecord that
loses its last position is checked at commit to have nothing under it.
-/

namespace Metafolder

open Relation Ancestry

instance finite_byte : Finite UInt8 := Finite.of_injective UInt8.toFin fun _ _ => UInt8.toFin_inj.mp

instance : Finite Uuid :=
  have : Fintype UInt8 := Fintype.ofFinite UInt8
  Finite.of_injective
    (fun uuid : Uuid => show List.Vector UInt8 16 from ⟨uuid.bytes, uuid.size⟩)
    fun _ _ same => Uuid.ext (congrArg Subtype.val same)

/-- A position under a metarecord is stored as it was given. -/
theorem Value.stored_of_parent {value : Value} {parent : Uuid} {node : TreeName}
    (placed : value.stored.position = some (some parent, node)) : value.stored = value := by
  have kept : ∀ {given : Option Uuid}, storedParent given = some parent →
      storedParent given = given := by
    intro given read
    unfold storedParent at read ⊢
    split at read
    · simp at read
    · rename_i other
      rw [if_neg other]
  cases value with
  | treeRef given name =>
      simp only [Value.stored, Value.position, Option.some.injEq, Prod.mk.injEq] at placed ⊢
      rw [kept placed.1]
  | hierarchyRef given name =>
      simp only [Value.stored, Value.position, Option.some.injEq, Prod.mk.injEq] at placed ⊢
      rw [kept placed.1]
  | _ => rfl

namespace Primary

/-- A metarecord is placed under another in a field. -/
def Up (store : Primary) (field : String) (uuid parent : Uuid) : Prop :=
  ∃ row node, store.Holds uuid row ∧ row.name = field ∧
    row.value.position = some (some parent, node)

/-- A metarecord has a position in a field. -/
def Placed (store : Primary) (field : String) (uuid : Uuid) : Prop :=
  ∃ row, store.Holds uuid row ∧ row.name = field ∧ row.value.position.isSome

/-- Two stores agree on where a metarecord is placed, if they agree on its rows. -/
theorem up_congr {first second : Primary} {uuid : Uuid}
    (same : ∀ row, first.Holds uuid row ↔ second.Holds uuid row) (field : String) (parent : Uuid) :
    first.Up field uuid parent ↔ second.Up field uuid parent := by
  simp only [Up, same]

theorem placed_congr {first second : Primary} {uuid : Uuid}
    (same : ∀ row, first.Holds uuid row ↔ second.Holds uuid row) (field : String) :
    first.Placed field uuid ↔ second.Placed field uuid := by
  simp only [Placed, same]

variable [Externals]

theorem Indexed.mem_treeParents {store : Primary} (indexed : store.Indexed) {field : String}
    {uuid : Uuid} {parent : Option Uuid} : parent ∈ Writer.treeParents store field uuid ↔
      ∃ row node, store.Holds uuid row ∧ row.name = field ∧
        row.value.position = some (parent, node) := by
  simp only [Writer.treeParents, List.mem_filterMap, indexed.mem_rowsNamed, Option.map_eq_some_iff,
    Prod.exists]
  constructor
  · rintro ⟨row, ⟨holds, named⟩, held, node, position, rfl⟩
    exact ⟨row, node, holds, named, position⟩
  · rintro ⟨row, node, holds, named, position⟩
    exact ⟨row, ⟨holds, named⟩, parent, node, position, rfl⟩

theorem Indexed.mem_treeParents_some {store : Primary} (indexed : store.Indexed) {field : String}
    {uuid parent : Uuid} :
    parent ∈ (Writer.treeParents store field uuid).filterMap id ↔ store.Up field uuid parent := by
  simp only [List.mem_filterMap, id, exists_eq_right, indexed.mem_treeParents]
  rfl

theorem Indexed.treeParents_ne_nil {store : Primary} (indexed : store.Indexed) {field : String}
    {uuid : Uuid} : Writer.treeParents store field uuid ≠ [] ↔ store.Placed field uuid := by
  constructor
  · intro some_parent
    obtain ⟨parent, member⟩ := List.exists_mem_of_ne_nil _ some_parent
    obtain ⟨row, node, holds, named, position⟩ := indexed.mem_treeParents.mp member
    exact ⟨row, holds, named, by rw [position]; rfl⟩
  · rintro ⟨row, holds, named, placed⟩
    obtain ⟨⟨parent, node⟩, position⟩ := Option.isSome_iff_exists.mp placed
    exact List.ne_nil_of_mem (indexed.mem_treeParents.mpr ⟨row, node, holds, named, position⟩)

end Primary

namespace Writer

variable [Externals]

/-! ### The walk up -/

/-- What the nodes of a level add to a walk. -/
structure Climbed (store : Primary) (metarecord : Uuid) (field : String)
    (frontier visited next : List Uuid) (after : List Uuid × List Uuid) : Prop where
  /-- The metarecord placed is not among them. -/
  absent : metarecord ∉ frontier
  /-- They are visited too. -/
  visited_iff : ∀ {node}, node ∈ after.1 ↔ node ∈ visited ∨ node ∈ frontier
  /-- What was to be visited next stays so. -/
  next_subset : next ⊆ after.2
  /-- So is what is above those met for the first time. -/
  up_mem : ∀ {node above}, node ∈ frontier → node ∉ visited → store.Up field node above →
    above ∈ after.2
  /-- Nothing else is. -/
  up_of_mem : ∀ {above}, above ∈ after.2 → above ∈ next ∨
    ∃ node ∈ frontier, store.Up field node above

theorem climbNodes_spec {store : Primary} (indexed : store.Indexed) {metarecord : Uuid}
    {field : String} {frontier visited next : List Uuid} {after : List Uuid × List Uuid}
    (ran : frontier.foldlM (climbNode store metarecord field) (visited, next) = .ok after) :
    Climbed store metarecord field frontier visited next after := by
  induction frontier generalizing visited next with
  | nil =>
      rw [Except.foldlM_nil_eq_ok] at ran
      subst ran
      exact ⟨by simp, by simp, List.Subset.refl _, by simp, fun member => .inl member⟩
  | cons head tail ih =>
      obtain ⟨middle, stepped, rest⟩ := Except.foldlM_cons_eq_ok.mp ran
      simp only [climbNode, Except.bind_eq_ok, refuseIf_eq_ok, exists_const] at stepped
      obtain ⟨differ, stepped⟩ := stepped
      split at stepped
      next known =>
        rw [Except.pure_eq_ok] at stepped
        subst stepped
        obtain ⟨absent, visited_iff, next_subset, up_mem, up_of_mem⟩ := ih rest
        refine ⟨?_, ?_, next_subset, ?_, ?_⟩
        · simpa [Ne.symm differ] using absent
        · intro node
          rw [visited_iff, List.mem_cons]
          constructor
          · rintro (member | member)
            · exact .inl member
            · exact .inr (.inr member)
          · rintro (member | rfl | member)
            · exact .inl member
            · exact .inl known
            · exact .inr member
        · intro node above member fresh up
          rcases List.mem_cons.mp member with rfl | member
          · exact absurd known fresh
          · exact up_mem member fresh up
        · intro above member
          refine (up_of_mem member).imp_right ?_
          rintro ⟨node, listed, up⟩
          exact ⟨node, List.mem_cons_of_mem _ listed, up⟩
      next =>
        rw [Except.pure_eq_ok] at stepped
        subst stepped
        obtain ⟨absent, visited_iff, next_subset, up_mem, up_of_mem⟩ := ih rest
        refine ⟨?_, ?_, ?_, ?_, ?_⟩
        · simpa [Ne.symm differ] using absent
        · intro node
          rw [visited_iff, List.mem_cons, List.mem_cons]
          tauto
        · exact fun node member => next_subset (List.mem_append_left _ member)
        · intro node above member fresh up
          by_cases same : node = head
          · subst same
            exact next_subset (List.mem_append_right _ (indexed.mem_treeParents_some.mpr up))
          · refine up_mem ((List.mem_cons.mp member).resolve_left same) ?_ up
            simpa [same] using fresh
        · intro above member
          rcases up_of_mem member with member | ⟨node, listed, up⟩
          · rcases List.mem_append.mp member with member | member
            · exact .inl member
            · exact .inr ⟨head, List.mem_cons_self, indexed.mem_treeParents_some.mp member⟩
          · exact .inr ⟨node, List.mem_cons_of_mem _ listed, up⟩

/-- A walk that ends met everything above where it started, and not the metarecord placed. -/
theorem climb_spec {store : Primary} (indexed : store.Indexed) {metarecord : Uuid} {field : String}
    {fuel chainLen result : Nat} {visited frontier : List Uuid} (fresh : metarecord ∉ visited)
    (closed : ∀ {node above}, node ∈ visited → store.Up field node above →
      above ∈ visited ∨ above ∈ frontier)
    (ran : climb store metarecord field fuel chainLen visited frontier = .ok result) :
    ∀ node ∈ frontier, ¬ReflTransGen (store.Up field) node metarecord := by
  induction fuel generalizing chainLen visited frontier with
  | zero => simp [climb] at ran
  | succ fuel ih =>
      simp only [climb, Except.bind_eq_ok, Prod.exists] at ran
      obtain ⟨met, next, walked, rest⟩ := ran
      obtain ⟨absent, visited_iff, -, up_mem, -⟩ := climbNodes_spec indexed walked
      dsimp only at visited_iff up_mem
      have unmet : metarecord ∉ met := by
        rw [visited_iff]
        exact not_or.mpr ⟨fresh, absent⟩
      have passes : ∀ {node above}, node ∈ met → store.Up field node above →
          above ∈ met ∨ above ∈ next := by
        intro node above member up
        by_cases known : node ∈ visited
        · exact .inl (visited_iff.mpr (closed known up))
        · exact .inr (up_mem ((visited_iff.mp member).resolve_left known) known up)
      intro node member path
      have start : node ∈ met := visited_iff.mpr (.inr member)
      split at rest
      next last =>
        refine unmet (of_reflTransGen (fun x y member up => ?_) path start)
        simpa [last] using passes member up
      next =>
        simp only [Except.bind_eq_ok, refuseIf_eq_ok, exists_const] at rest
        have above := ih unmet passes rest.2
        -- A path that leaves what was met does so through the next level.
        have met_all : ∀ {x}, ReflTransGen (store.Up field) node x →
            x ∈ met ∨ ∃ y ∈ next, ReflTransGen (store.Up field) y x := by
          intro x path
          induction path with
          | refl => exact .inl start
          | tail _ up ih =>
              rcases ih with member | ⟨y, listed, path⟩
              · exact (passes member up).imp_right fun member => ⟨_, member, .refl⟩
              · exact .inr ⟨y, listed, path.tail up⟩
        rcases met_all path with member | ⟨y, listed, path⟩
        · exact unmet member
        · exact above y listed path

/-- A position that passes its check has a placed parent, which is not below it. -/
theorem checkTreeRef_spec {store : Primary} (indexed : store.Indexed) {metarecord parent : Uuid}
    {field : String} {value : Value} {node : TreeName}
    (placed : value.position = some (some parent, node))
    (ran : checkTreeRef store metarecord field value = .ok ()) :
    store.Placed field parent ∧ ¬ReflTransGen (store.Up field) parent metarecord ∧
      ∃ chainLen, climb store metarecord field maxTreeDepth 1 [] [parent] = .ok chainLen ∧
        chainLen + 1 ≤ maxTreeDepth := by
  simp only [checkTreeRef, placed, Except.bind_eq_ok, refuseIf_eq_ok, exists_const] at ran
  obtain ⟨-, present, chainLen, climbed, short⟩ := ran
  refine ⟨indexed.treeParents_ne_nil.mp present, ?_, chainLen, climbed, by omega⟩
  exact climb_spec indexed (by simp) (by simp) climbed parent (by simp)

omit [Externals] in
/-- Two `tree_ref` positions stand together when they are one. -/
theorem Together.eq_of_treeRef {first second : Value} (together : Together first second)
    (typedFirst : first.typeStr = "tree_ref") (typedSecond : second.typeStr = "tree_ref") :
    first = second ∧ first.position.isSome := by
  cases first <;> simp [Value.typeStr] at typedFirst
  cases second <;> simp [Value.typeStr] at typedSecond
  obtain ⟨rfl, rfl⟩ := together
  exact ⟨rfl, rfl⟩

/-- What a place checked, or noted to be, says of the rows of the other metarecords. -/
theorem Checked.spec {base : Primary} {after : Writer} {uuid parent : Uuid} {name : String}
    {value : Value} {node : TreeName} (checked : Checked base after uuid name value)
    (placed : value.position = some (some parent, node)) :
    (uuid, name, value) ∈ after.noted ∨ after.deferredTrees = none ∧ parent ≠ uuid ∧
      base.Placed name parent ∧ ¬ReflTransGen (base.Up name) parent uuid := by
  obtain ⟨-, noted | ⟨eager, store, consistent, same, passed⟩⟩ := checked placed
  · exact .inl noted
  obtain ⟨present, outside, -⟩ := checkTreeRef_spec consistent.toIndexed placed passed
  have other : parent ≠ uuid := by
    rintro rfl
    exact outside .refl
  have there : base.Placed name parent :=
    (Primary.placed_congr (fun row => same other) name).mp present
  refine .inr ⟨eager, other, there, fun path => outside ?_⟩
  exact reflTransGen_of_off
    (fun x y other => (Primary.up_congr (fun row => same other) name y).mpr) path

/-! ### What an operation does to the places -/

variable {w after : Writer} {op : NewOp}

/-- A row there is after an operation was there before, or is one it put. -/
theorem Operation.holds_cases (step : Operation w op after) (consistent : w.tx.primary.Consistent)
    {owner : Uuid} {row : FieldRow} (holds : after.tx.primary.Holds owner row) :
    (w.tx.primary.Holds owner row ∧ row ∉ op.before) ∨
      owner = op.entity ∧ ∃ new ∈ op.after, new.stored = row := by
  obtain ⟨-, swapped, -⟩ := step.performed.spec consistent
  rcases swapped.holds_iff.mp holds with ⟨same, member⟩ | kept
  · exact .inr ⟨same, List.mem_map.mp member⟩
  · exact .inl kept

/-- The place of another metarecord stays. -/
theorem Operation.up_off (step : Operation w op after) (consistent : w.tx.primary.Consistent)
    (field : String) ⦃uuid parent : Uuid⦄ (other : uuid ≠ op.entity) :
    after.tx.primary.Up field uuid parent ↔ w.tx.primary.Up field uuid parent :=
  Primary.up_congr (fun _ => step.sameBut consistent other) field parent

/-- A place put is checked, or noted to be. -/
theorem Operation.parent_put (step : Operation w op after) {row : FieldRow}
    (member : row ∈ op.after) {parent : Uuid} {node : TreeName}
    (placed : row.value.stored.position = some (some parent, node)) :
    (op.entity, row.name, row.value.stored) ∈ after.noted ∨
      after.deferredTrees = none ∧ parent ≠ op.entity ∧ w.tx.primary.Placed row.name parent ∧
        ¬ReflTransGen (w.tx.primary.Up row.name) parent op.entity := by
  have given := Value.stored_of_parent placed
  rw [given] at placed ⊢
  exact (step.checked row member).spec placed

/-- A metarecord keeps a position in a field, or is noted to have lost one. -/
theorem Operation.placed_or_lost (step : Operation w op after)
    (consistent : w.tx.primary.Consistent) (manual : op.opType.isManual) {field : String}
    {uuid : Uuid} (placed : w.tx.primary.Placed field uuid) :
    after.tx.primary.Placed field uuid ∨ (field, uuid) ∈ after.treeLost := by
  obtain ⟨row, holds, rfl, position⟩ := placed
  obtain ⟨-, swapped, -⟩ := step.performed.spec consistent
  by_cases gone : row ∈ op.before
  · obtain ⟨same, -⟩ := consistent.holds_unique holds (swapped.held row gone) rfl
    refine .inr (step.loses_subset manual (List.mem_map.mpr ⟨row, ?_, by rw [same]⟩))
    exact List.mem_filter.mpr ⟨gone, position⟩
  · exact .inl ⟨row, swapped.holds_iff.mpr (.inr ⟨holds, gone⟩), rfl, position⟩

omit [Externals] in
theorem noted_of_eager (eager : w.deferredTrees = none) : w.noted = [] := by
  rw [noted, eager]
  rfl

/-! ### The invariant of a write in progress -/

/-- The places of a field are those of a relation, or are noted to be checked at commit. -/
def Within (w : Writer) (field : String) (up : Uuid → Uuid → Prop) : Prop :=
  ∀ ⦃uuid row parent node⦄, w.tx.primary.Holds uuid row → row.name = field →
    row.value.position = some (some parent, node) →
      up uuid parent ∨ (uuid, field, row.value) ∈ w.noted

omit [Externals] in
theorem Within.eager {field : String} {up : Uuid → Uuid → Prop} (within : w.Within field up)
    (eager : w.deferredTrees = none) ⦃uuid parent : Uuid⦄
    (placed : w.tx.primary.Up field uuid parent) : up uuid parent := by
  obtain ⟨row, node, holds, named, position⟩ := placed
  refine (within holds named position).resolve_right ?_
  rw [noted_of_eager eager]
  exact List.not_mem_nil

/-- Where checks are deferred, an operation notes the places it puts. -/
theorem Within.operation {field : String} {up : Uuid → Uuid → Prop} (within : w.Within field up)
    (step : Operation w op after) (consistent : w.tx.primary.Consistent)
    (deferred : w.deferredTrees.isSome) : after.Within field up := by
  intro uuid row parent node holds named placed
  obtain ⟨there, -⟩ | ⟨rfl, new, member, rfl⟩ := step.holds_cases consistent holds
  · exact (within there named placed).imp_right fun member => step.noted_subset member
  · have named : new.name = field := named
    refine .inr ?_
    obtain noted | ⟨eager, -⟩ := step.parent_put member placed
    · rw [← named]
      exact noted
    · have defers := step.defers
      rw [eager, deferred] at defers
      contradiction

/-- The places of a write in progress close no cycle, those to be checked at commit aside. -/
structure Forested (w : Writer) : Prop where
  /-- The tables agree. -/
  consistent : w.tx.primary.Consistent
  /-- The places checked close no cycle. -/
  acyclic : ∀ field, ∃ up, Acyclic up ∧ w.Within field up

theorem Forested.quiet (forested : Forested w) (quiet : Quiet w after) : Forested after where
  consistent := quiet.tx_eq ▸ forested.consistent
  acyclic field := by
    obtain ⟨up, acyclic, within⟩ := forested.acyclic field
    refine ⟨up, acyclic, fun uuid row parent node holds named placed => ?_⟩
    rw [quiet.tx_eq] at holds
    exact (within holds named placed).imp_right fun member => quiet.noted_subset member

theorem Forested.operation (forested : Forested w) (step : Operation w op after) :
    Forested after where
  consistent := (step.performed.spec forested.consistent).1
  acyclic field := by
    obtain ⟨up, acyclic, within⟩ := forested.acyclic field
    cases eager : w.deferredTrees with
    | some deferred =>
        exact ⟨up, acyclic, within.operation step forested.consistent (by rw [eager]; rfl)⟩
    | none =>
        have held : Acyclic (w.tx.primary.Up field) := acyclic.mono (within.eager eager)
        refine ⟨after.tx.primary.Up field, @Acyclic.replace _ _ _ held op.entity ?_ ?_, ?_⟩
        · exact step.up_off forested.consistent field
        · rintro parent ⟨row, node, holds, rfl, placed⟩
          obtain ⟨there, -⟩ | ⟨-, new, member, rfl⟩ := step.holds_cases forested.consistent holds
          · exact .inl ⟨row, node, there, rfl, placed⟩
          · obtain noted | ⟨-, -, -, outside⟩ := step.parent_put member placed
            · have unnoted : after.deferredTrees = none := by
                have defers := step.defers
                rw [eager] at defers
                simpa using defers
              rw [noted_of_eager unnoted] at noted
              exact absurd noted List.not_mem_nil
            · exact .inr outside
        · exact fun uuid row parent node holds named placed =>
            .inl ⟨row, node, holds, named, placed⟩

/-- No place lost is forgotten, and the positions of a metarecord in a field stand together. -/
structure Rooted (w : Writer) : Prop extends Forested w where
  /-- What a position names has a position, or lost one, or is to be checked at commit. -/
  placed : ∀ {field uuid row parent node}, w.tx.primary.Holds uuid row → row.name = field →
    row.value.position = some (some parent, node) →
      w.tx.primary.Placed field parent ∨ (field, parent) ∈ w.treeLost ∨
        (uuid, field, row.value) ∈ w.noted
  /-- The positions of a metarecord in a field stand together. -/
  together : ∀ {uuid first second}, w.tx.primary.Holds uuid first → w.tx.primary.Holds uuid second →
    first.name = second.name → Together first.value second.value

theorem Rooted.quiet (rooted : Rooted w) (quiet : Quiet w after) : Rooted after where
  toForested := rooted.toForested.quiet quiet
  placed holds named position := by
    have lost_eq : after.treeLost = w.treeLost := by rw [quiet.eq]
    rw [quiet.tx_eq] at holds ⊢
    rw [lost_eq]
    exact (rooted.placed holds named position).imp_right fun rest =>
      rest.imp_right fun member => quiet.noted_subset member
  together holdsFirst holdsSecond := by
    rw [quiet.tx_eq] at holdsFirst holdsSecond
    exact rooted.together holdsFirst holdsSecond

theorem Rooted.operation (rooted : Rooted w) (step : Operation w op after)
    (manual : op.opType.isManual) : Rooted after where
  toForested := rooted.toForested.operation step
  placed := by
    intro field uuid row parent node holds named position
    have kept : w.tx.primary.Placed field parent →
        after.tx.primary.Placed field parent ∨ (field, parent) ∈ after.treeLost :=
      step.placed_or_lost rooted.consistent manual
    obtain ⟨there, -⟩ | ⟨rfl, new, member, rfl⟩ := step.holds_cases rooted.consistent holds
    · rcases rooted.placed there named position with present | lost | noted
      · exact or_assoc.mp (.inl (kept present))
      · exact .inr (.inl (step.lost_subset lost))
      · exact .inr (.inr (step.noted_subset noted))
    · have named : new.name = field := named
      subst named
      obtain noted | ⟨-, -, present, -⟩ := step.parent_put member position
      · exact .inr (.inr noted)
      · exact or_assoc.mp (.inl (kept present))
  together := by
    intro uuid first second holdsFirst holdsSecond named
    obtain ⟨thereFirst, -⟩ | ⟨rfl, new, member, rfl⟩ :=
      step.holds_cases rooted.consistent holdsFirst
    · obtain ⟨thereSecond, -⟩ | ⟨rfl, new, member, rfl⟩ :=
        step.holds_cases rooted.consistent holdsSecond
      · exact rooted.together thereFirst thereSecond named
      · exact (step.together new member holdsFirst named).symm
    · exact step.together new member holdsSecond named.symm

end Writer

/-! ### What a commit leaves -/

namespace Primary

/-- The positions of a field form a well-founded forest. -/
structure WellFormedForest (store : Primary) (field : String) : Prop where
  /-- What a position names exists, and has a position. -/
  parent_placed : ∀ {uuid parent}, store.Up field uuid parent →
    (store.version parent).isSome ∧ store.Placed field parent
  /-- Going up ends. -/
  wellFounded : WellFounded fun parent child => store.Up field child parent
  /-- No two positions are at one place. -/
  place_unique : ∀ {first second rowFirst rowSecond}, store.Holds first rowFirst →
    store.Holds second rowSecond → rowFirst.name = field → rowSecond.name = field →
      rowFirst.value.position.isSome → rowFirst.value.position = rowSecond.value.position →
        first = second ∧ rowFirst = rowSecond
  /-- A metarecord holds at most one `tree_ref` position. -/
  one_treeRef : ∀ {uuid first second}, store.Holds uuid first → store.Holds uuid second →
    first.name = field → second.name = field → first.value.typeStr = "tree_ref" →
      second.value.typeStr = "tree_ref" → first = second
  /-- The `hierarchy_ref` positions of a metarecord bear one name. -/
  one_name : ∀ {uuid first second parentFirst parentSecond nodeFirst nodeSecond},
    store.Holds uuid first → store.Holds uuid second → first.name = field → second.name = field →
      first.value = .hierarchyRef parentFirst nodeFirst →
        second.value = .hierarchyRef parentSecond nodeSecond → nodeFirst = nodeSecond

variable [Externals]

theorem Indexed.place_unique {store : Primary} (indexed : store.Indexed) {first second : Uuid}
    {rowFirst rowSecond : FieldRow} (holdsFirst : store.Holds first rowFirst)
    (holdsSecond : store.Holds second rowSecond) (named : rowFirst.name = rowSecond.name)
    (placed : rowFirst.value.position.isSome)
    (same : rowFirst.value.position = rowSecond.value.position) :
    first = second ∧ rowFirst = rowSecond := by
  rw [← isSome_forestKey rowFirst.name] at placed
  obtain ⟨key, keyed⟩ := Option.isSome_iff_exists.mp placed
  refine indexed.forest_unique holdsFirst holdsSecond keyed ?_
  rw [← keyed, ← named, forestKey, forestKey, same]

/-- A metarecord with something under it has children to read. -/
theorem Indexed.children_ne_nil {store : Primary} (indexed : store.Indexed) {field : String}
    {uuid parent : Uuid} (up : store.Up field uuid parent)
    {children : List (Uuid × TreeName × Int64)} (ran : store.children field parent = .ok children) :
    children ≠ [] := by
  obtain ⟨row, node, holds, rfl, placed⟩ := up
  have keyed : forestKey row.name row.value =
      some (nameKey row.name ++ parent.bytes ++ nodeKey node.bytes) := by
    simp [forestKey, placed]
  have entry := indexed.forest_iff.mpr ⟨row, holds, rfl, keyed⟩
  have listed : (nameKey row.name ++ parent.bytes ++ nodeKey node.bytes, uuid, row.id) ∈
      store.forest.prefixIter (nameKey row.name ++ parent.bytes) :=
    (Table.mem_prefixIter ..).mpr ⟨List.prefix_append _ _, entry⟩
  have counted := Except.length_of_mapM ran
  rintro rfl
  rw [List.length_nil] at counted
  rw [List.eq_nil_of_length_eq_zero counted.symm] at listed
  exact List.not_mem_nil listed

omit [Externals] in
theorem WellFormedForest.together {store : Primary} {field : String}
    (wellFormed : store.WellFormedForest field) {uuid : Uuid} {first second : FieldRow}
    (holdsFirst : store.Holds uuid first) (holdsSecond : store.Holds uuid second)
    (namedFirst : first.name = second.name) (namedSecond : second.name = field) :
    Writer.Together first.value second.value := by
  cases valueFirst : first.value with
  | treeRef parent node =>
      cases valueSecond : second.value with
      | treeRef other name =>
          have same := wellFormed.one_treeRef holdsFirst holdsSecond (namedFirst.trans namedSecond)
            namedSecond (by rw [valueFirst]; rfl) (by rw [valueSecond]; rfl)
          rw [same, valueSecond] at valueFirst
          rw [valueFirst]
      | _ => trivial
  | hierarchyRef parent node =>
      cases valueSecond : second.value with
      | hierarchyRef other name =>
          exact wellFormed.one_name holdsFirst holdsSecond (namedFirst.trans namedSecond)
            namedSecond valueFirst valueSecond
      | _ => trivial
  | _ => trivial

end Primary

namespace Writer

variable [Externals] {w : Writer}

/-- A position noted to be checked at commit, and still held, was. -/
theorem checkDeferredTrees_spec (indexed : w.tx.primary.Indexed)
    (passed : w.checkDeferredTrees = .ok ()) {uuid : Uuid} {row : FieldRow}
    (noted : (uuid, row.name, row.value) ∈ w.noted) (holds : w.tx.primary.Holds uuid row)
    (placed : row.value.position.isSome) :
    checkTreeRef w.tx.primary uuid row.name row.value = .ok () := by
  have checked := Except.forM_eq_ok.mp passed _ noted
  have held : (w.tx.primary.rowsNamed uuid row.name).any fun other => other.value.eq row.value :=
    List.any_eq_true.mpr ⟨row, indexed.mem_rowsNamed.mpr ⟨holds, rfl⟩,
      (Value.eq_iff_of_position placed).mpr rfl⟩
  rwa [if_pos held] at checked

/-- A metarecord noted to have lost a position has one, or has nothing under it. -/
theorem checkForestIntegrity_spec (indexed : w.tx.primary.Indexed)
    (passed : w.checkForestIntegrity = .ok ()) {field : String} {uuid parent : Uuid}
    (lost : (field, parent) ∈ w.treeLost) (up : w.tx.primary.Up field uuid parent) :
    w.tx.primary.Placed field parent := by
  have checked := Except.forM_eq_ok.mp passed _ lost
  simp only [checkLost, Except.bind_eq_ok] at checked
  obtain ⟨children, read, checked⟩ := checked
  have under := indexed.children_ne_nil up read
  simp only [refuseIf_eq_ok, not_and, Bool.not_eq_true', Bool.not_eq_false] at checked
  obtain ⟨row, member, position⟩ := List.any_eq_true.mp (checked under)
  obtain ⟨holds, named⟩ := indexed.mem_rowsNamed.mp member
  exact ⟨row, holds, named, position⟩

theorem Forested.acyclic_of_commit (forested : Forested w)
    (trees : w.checkDeferredTrees = .ok ()) (field : String) :
    Acyclic (w.tx.primary.Up field) := by
  obtain ⟨up, acyclic, within⟩ := forested.acyclic field
  refine acyclic.of_closing ?_
  rintro uuid parent ⟨row, node, holds, rfl, placed⟩ back
  refine (within holds rfl placed).resolve_right fun noted => ?_
  have checked := checkDeferredTrees_spec forested.consistent.toIndexed trees noted holds
    (by rw [placed]; rfl)
  exact (checkTreeRef_spec forested.consistent.toIndexed placed checked).2.1 back

theorem Rooted.wellFormed (rooted : Rooted w) (forest : w.checkForestIntegrity = .ok ())
    (trees : w.checkDeferredTrees = .ok ()) (field : String) :
    w.tx.primary.WellFormedForest field where
  parent_placed := by
    rintro uuid parent ⟨row, node, holds, rfl, position⟩
    have indexed := rooted.consistent.toIndexed
    have present : w.tx.primary.Placed row.name parent := by
      rcases rooted.placed holds rfl position with present | lost | noted
      · exact present
      · exact checkForestIntegrity_spec indexed forest lost ⟨row, node, holds, rfl, position⟩
      · have checked := checkDeferredTrees_spec indexed trees noted holds (by rw [position]; rfl)
        exact (checkTreeRef_spec indexed position checked).1
    obtain ⟨held, there, -⟩ := id present
    exact ⟨rooted.consistent.owner_exists there, present⟩
  wellFounded := (rooted.toForested.acyclic_of_commit trees field).wellFounded
  place_unique holdsFirst holdsSecond namedFirst namedSecond :=
    rooted.consistent.place_unique holdsFirst holdsSecond (namedFirst.trans namedSecond.symm)
  one_treeRef := by
    intro uuid first second holdsFirst holdsSecond namedFirst namedSecond typedFirst typedSecond
    have named := namedFirst.trans namedSecond.symm
    have beside := rooted.together holdsFirst holdsSecond named
    obtain ⟨same, placed⟩ := beside.eq_of_treeRef typedFirst typedSecond
    exact (rooted.consistent.place_unique holdsFirst holdsSecond named placed (by rw [same])).2
  one_name := by
    intro uuid first second _ _ _ _ holdsFirst holdsSecond namedFirst namedSecond
      valueFirst valueSecond
    have beside := rooted.together holdsFirst holdsSecond (namedFirst.trans namedSecond.symm)
    rwa [valueFirst, valueSecond] at beside

/-- What manual operations and changes of the notes keep, a sequence of them keeps. -/
theorem Writes.rooted {after : Writer} {steps : List (NewOp × KvTxn)} (writes : Writes w steps after)
    (manual : ∀ step ∈ steps, step.1.opType.isManual) (rooted : Rooted w) : Rooted after := by
  induction writes with
  | quiet step => exact rooted.quiet step
  | @operation _ _ op step => exact rooted.operation step (manual _ (List.mem_singleton_self _))
  | append _ _ one two =>
      have first := one (fun step member => manual step (List.mem_append_left _ member)) rooted
      exact two (fun step member => manual step (List.mem_append_right _ member)) first

end Writer

variable [Externals]

/-- Whether a transaction names no operation of the watcher. -/
def Transaction.Manual (transaction : Transaction) : Prop :=
  ∀ made ∈ transaction.calls, ∀ opType ∈ made.opTypes, opType.isManual

theorem Transaction.wellFormed {transaction : Transaction} {store after : KvStore}
    (consistent : store.tx.primary.Consistent) (manual : transaction.Manual)
    (wellFormed : ∀ field, store.tx.primary.WellFormedForest field)
    (ran : transaction.run store = .ok after) (field : String) :
    after.tx.primary.WellFormedForest field := by
  obtain ⟨w, steps, last, opening, writes, kinds, committing⟩ :=
    Transaction.run_spec consistent (fun opType => opType.isManual) id manual ran
  obtain ⟨tx_eq, -⟩ := Writer.beginIn_spec opening
  have start : Writer.Rooted w := by
    rw [← tx_eq] at consistent wellFormed
    refine ⟨⟨consistent, fun field =>
      ⟨w.tx.primary.Up field, acyclic_of_wellFounded (wellFormed field).wellFounded, ?_⟩⟩, ?_,
      fun holdsFirst holdsSecond named => ?_⟩
    · exact fun uuid row parent node holds named placed => .inl ⟨row, node, holds, named, placed⟩
    · intro field uuid row parent node holds named placed
      exact .inl ((wellFormed field).parent_placed ⟨row, node, holds, named, placed⟩).2
    · exact (wellFormed _).together holdsFirst holdsSecond named rfl
  obtain ⟨after_tx, forest, -, trees, -⟩ := Writer.commit_spec committing
  rw [after_tx]
  exact (writes.rooted kinds start).wellFormed forest trees field

omit [Externals] in
theorem Primary.wellFormedForest_empty (field : String) : ({} : Primary).WellFormedForest field := by
  have nothing : ∀ {uuid row}, ¬({} : Primary).Holds uuid row := by simp [Primary.Holds]
  have bare : ∀ {uuid parent}, ¬({} : Primary).Up field uuid parent := by
    rintro uuid parent ⟨row, node, holds, -⟩
    exact nothing holds
  refine ⟨fun up => absurd up bare, ?_, fun holds => absurd holds nothing, fun holds =>
    absurd holds nothing, fun holds => absurd holds nothing⟩
  exact ⟨fun uuid => ⟨_, fun _ up => absurd up bare⟩⟩

/-- Where no transaction names an operation of the watcher, the positions of every field form a
well-founded forest. -/
theorem forests_well_formed {store : KvStore} (reached : Reachable Transaction.Manual store)
    (field : String) : store.tx.primary.WellFormedForest field := by
  induction reached generalizing field with
  | new => exact Primary.wellFormedForest_empty field
  | commit transaction reached manual ran ih =>
      obtain ⟨steps, history, -⟩ := reached.history
      exact Transaction.wellFormed history.consistent manual ih ran field

/-- A write that places a metarecord under another, then moves it to a third. -/
def samplePlaces : Transaction where
  context := .new ⟨"places", none, none⟩
  retention := .unlimited
  timestamp := 9
  calls :=
    [.createMetarecord (sampleUuids 1) [⟨"in", .treeRef none (.ofString "a")⟩],
      .createMetarecord (sampleUuids 2)
        [⟨"in", .treeRef (some (sampleUuids 1)) (.ofString "b")⟩],
      .createMetarecord (sampleUuids 3) [⟨"in", .treeRef (some (sampleUuids 1)) (.ofString "c")⟩],
      .setFieldAs .setField (sampleUuids 2) "in" (.treeRef (some (sampleUuids 3)) (.ofString "b"))]

omit [Externals] in
theorem samplePlaces_run : (fun store : KvStore => store.tx.primary.rows (sampleUuids 2)) <$>
    @Transaction.run plainExternals samplePlaces {} =
      .ok [⟨4, "in", .treeRef (some (sampleUuids 3)) (.ofString "b")⟩] := by
  decide +kernel

omit [Externals] in
theorem forests_well_formed_places : ∃ store,
    @Transaction.run plainExternals samplePlaces {} = .ok store ∧
      store.tx.primary.Up "in" (sampleUuids 2) (sampleUuids 3) ∧
      store.tx.primary.WellFormedForest "in" := by
  let _ : Externals := plainExternals
  obtain ⟨store, ran, rows⟩ := Except.map_eq_ok.mp samplePlaces_run
  have manual : samplePlaces.Manual := by
    intro made member
    simp only [samplePlaces, List.mem_cons, List.not_mem_nil, or_false] at member
    rcases member with rfl | rfl | rfl | rfl <;> simp [Writer.Call.opTypes, OpType.isManual]
  have reached : Reachable Transaction.Manual store := .commit samplePlaces .new manual ran
  obtain ⟨steps, history, -⟩ := reached.history
  have holds : store.tx.primary.Holds (sampleUuids 2)
      ⟨4, "in", .treeRef (some (sampleUuids 3)) (.ofString "b")⟩ :=
    history.consistent.mem_rows.mp (by simp [rows])
  exact ⟨store, ran, ⟨_, _, holds, rfl, rfl⟩, forests_well_formed reached "in"⟩

end Metafolder
