import Metafolder.DistinctRows
import Metafolder.Placements

/-!
# Retypes of a field

A retype converts the rows of a field one after another, metarecord by metarecord.  A string whose
position the forest has room for becomes that position where what it names as its parent was
converted before it; where the parent comes later, the string is given up.
-/

namespace Metafolder

variable [Externals]

namespace Writer

/-! ### One row -/

/-- A position may take the place of a row. -/
structure Accepts (store : Primary) (uuid : Uuid) (row : FieldRow) (value : Value) : Prop where
  /-- It may stand beside the other rows. -/
  alone : validateOnePosition store uuid row.name value (some row.id) = .ok ()
  /-- Its name is a component. -/
  component : ∀ {parent node}, value.position = some (parent, node) → node.isComponent parent.isNone
  /-- What it names as its parent is placed, and it closes no cycle and is not too deep. -/
  placed : checkTreeRef store uuid row.name value = .ok ()

theorem validateTreeRef_eager {w after : Writer} (eager : w.deferredTrees = none) {uuid : Uuid}
    {name : String} {value : Value} : w.validateTreeRef uuid name value = .ok after ↔
      after = w ∧ (∀ {parent node}, value.position = some (parent, node) →
        node.isComponent parent.isNone) ∧ checkTreeRef w.tx.primary uuid name value = .ok () := by
  unfold validateTreeRef
  cases place : value.position with
  | none =>
      have free : checkTreeRef w.tx.primary uuid name value = .ok () := by
        rw [checkTreeRef, place]
        rfl
      simp only [Except.pure_eq_ok, free, reduceCtorEq, false_implies, implies_true, and_true]
      exact eq_comm
  | some held =>
      obtain ⟨parent, node⟩ := held
      simp only [eager, Except.bind_eq_ok, refuseIf_eq_ok, Except.pure_eq_ok, exists_const,
        Option.some.injEq, Prod.mk.injEq]
      constructor
      · rintro ⟨component, ⟨⟩, checked, rfl⟩
        refine ⟨rfl, ?_, checked⟩
        rintro _ _ ⟨rfl, rfl⟩
        simpa using component
      · rintro ⟨rfl, component, checked⟩
        exact ⟨by simp [component ⟨rfl, rfl⟩], (), checked, rfl⟩

/-- What a row is converted to, a position that is not accepted giving way to `Nothing`. -/
def Settles (store : Primary) (uuid : Uuid) (row : FieldRow) (target : FieldType) (value : Value) :
    Prop :=
  let converted := (row.value.convertTo target).1
  value = converted ∧ (converted.position = none ∨ Accepts store uuid row converted) ∨
    value = .nothing ∧ ¬Accepts store uuid row converted

theorem retypedValue_settles {w after : Writer} (eager : w.deferredTrees = none) {uuid : Uuid}
    {row : FieldRow} {target : FieldType} {value : Value} {fellBack : Bool}
    (ran : w.retypedValue uuid row target = .ok ((value, fellBack), after)) :
    after = w ∧ Settles w.tx.primary uuid row target value := by
  unfold retypedValue at ran
  dsimp only at ran
  split at ran
  next unplaced =>
    simp only [Except.pure_eq_ok, Prod.mk.injEq] at ran
    obtain ⟨converted, rfl⟩ := ran
    exact ⟨rfl, .inl ⟨by rw [converted], .inl unplaced⟩⟩
  next =>
    split at ran
    next noted valid =>
      simp only [Except.pure_eq_ok, Prod.mk.injEq] at ran
      obtain ⟨converted, rfl⟩ := ran
      obtain ⟨⟨⟩, alone, noting⟩ := Except.bind_eq_ok.mp valid
      obtain ⟨rfl, component, placed⟩ := (validateTreeRef_eager eager).mp noting
      exact ⟨rfl, .inl ⟨by rw [converted], .inr ⟨alone, component, placed⟩⟩⟩
    next failure refused =>
      split at ran
      next =>
        simp only [Except.pure_eq_ok, Prod.mk.injEq] at ran
        obtain ⟨⟨rfl, -⟩, rfl⟩ := ran
        refine ⟨rfl, .inr ⟨rfl, fun accepts => ?_⟩⟩
        have noted := (validateTreeRef_eager eager).mpr ⟨rfl, accepts.component, accepts.placed⟩
        rw [accepts.alone] at refused
        exact absurd (refused.symm.trans noted) (by simp)
      next => cases ran

/-- What a retype does to a row. -/
inductive Turned (store : Primary) (uuid : Uuid) (row : FieldRow) (target : FieldType)
    (after : Primary) : Prop where
  /-- It stays as it is. -/
  | kept (why : row.value.isNothing = true ∨
      ∃ value, Settles store uuid row target value ∧ value.eq row.value = true)
      (same : ∀ {owner held}, after.Holds owner held ↔ store.Holds owner held)
  /-- Another row holds its value already. -/
  | merged {value : Value} {twin : FieldRow} (valued : row.value.isNothing = false)
      (settles : Settles store uuid row target value) (twin_held : store.Holds uuid twin)
      (twin_named : twin.name = row.name) (twin_differs : twin.id ≠ row.id)
      (equal : twin.value.eq value = true)
      (left : ∀ {owner held}, after.Holds owner held ↔ store.Holds owner held ∧ held ≠ row)
  /-- It gives way to its converted value. -/
  | replaced {value : Value} (valued : row.value.isNothing = false)
      (settles : Settles store uuid row target value)
      (left : ∀ {owner held}, after.Holds owner held ↔
        (owner = uuid ∧ held = ⟨row.id, row.name, value.stored⟩) ∨
          (store.Holds owner held ∧ held ≠ row))

theorem twinRow_isSome {store : Primary} (consistent : store.Consistent) {uuid : Uuid} {id : Int64}
    {name : String} {value : Value} (found : (twinRow store uuid id name value).isSome = true) :
    ∃ twin, store.Holds uuid twin ∧ twin.name = name ∧ twin.id ≠ id ∧
      twin.value.eq value = true := by
  rw [twinRow, Option.isSome_map] at found
  obtain ⟨twin, search⟩ := Option.isSome_iff_exists.mp found
  have fits := List.find?_some search
  obtain ⟨holds, named⟩ := consistent.mem_rowsNamed.mp (List.mem_of_find?_eq_some search)
  rw [decide_eq_true_eq] at fits
  exact ⟨twin, holds, named, fits.1, fits.2⟩

theorem retypeRow_turns {w after : Writer} (consistent : w.tx.primary.Consistent)
    (eager : w.deferredTrees = none) {uuid : Uuid} {row : FieldRow} {target : FieldType}
    (holds : w.tx.primary.Holds uuid row) {start summary : RetypeSummary}
    (ran : retypeRow uuid target (start, w) row = .ok (summary, after)) :
    after.deferredTrees = none ∧ Turned w.tx.primary uuid row target after.tx.primary := by
  have stays_eager {middle : Writer} {op : NewOp} {before : Writer}
      (step : Operation before op middle) (start : before.deferredTrees = none) :
      middle.deferredTrees = none := by
    have defers := step.defers
    rw [start, Option.isSome_none] at defers
    exact Option.isSome_eq_false_iff.mp defers |> Option.isNone_iff_eq_none.mp
  unfold retypeRow at ran
  split at ran
  next empty =>
    simp only [Except.pure_eq_ok, Prod.mk.injEq] at ran
    obtain ⟨-, rfl⟩ := ran
    exact ⟨eager, .kept (.inl empty) Iff.rfl⟩
  next some_value =>
    rw [Bool.not_eq_true] at some_value
    simp only [Except.bind_eq_ok, Prod.exists] at ran
    obtain ⟨value, fellBack, noted, converting, rest⟩ := ran
    obtain ⟨rfl, settles⟩ := retypedValue_settles eager converting
    obtain ⟨-, -, -, checked, together⟩ := retypedValue_spec consistent converting
    split at rest
    next same =>
      simp only [Except.pure_eq_ok, Prod.mk.injEq] at rest
      obtain ⟨-, rfl⟩ := rest
      exact ⟨eager, .kept (.inr ⟨value, settles, same⟩) Iff.rfl⟩
    next =>
      split at rest
      next found =>
        simp only [Except.bind_eq_ok, Except.pure_eq_ok, Prod.mk.injEq] at rest
        obtain ⟨removed, removing, -, rfl⟩ := rest
        obtain ⟨gone_row, gone, ids, removes⟩ := deleteField_spec consistent removing
        obtain ⟨-, swapped, -⟩ := removes.performed.spec consistent
        have none_put : gone.after = [] := List.map_eq_nil_iff.mp removes.after_eq
        rw [removes.entity_eq, removes.before_eq, none_put] at swapped
        obtain ⟨-, rfl⟩ := consistent.holds_unique (swapped.held gone_row (by simp)) holds ids
        obtain ⟨twin, twin_held, twin_named, differs, equal⟩ := twinRow_isSome consistent found
        refine ⟨stays_eager removes.toOperation eager,
          .merged some_value settles twin_held twin_named differs equal ?_⟩
        intro owner held
        rw [swapped.holds_iff]
        simp
      next =>
        simp only [Except.bind_eq_ok, Except.pure_eq_ok, Prod.mk.injEq] at rest
        obtain ⟨written, replacing, -, rfl⟩ := rest
        obtain ⟨middle, gone, put, removes, puts, new⟩ :=
          replaceOwnedRow_spec consistent holds checked together replacing
        obtain ⟨kept, swapped, -⟩ := removes.performed.spec consistent
        have none_put : gone.after = [] := List.map_eq_nil_iff.mp removes.after_eq
        rw [removes.entity_eq, removes.before_eq, none_put] at swapped
        obtain ⟨-, swapped_put, -⟩ := puts.performed.spec kept
        rw [puts.entity_eq, puts.before_eq, new] at swapped_put
        refine ⟨stays_eager puts.toOperation (stays_eager removes.toOperation eager),
          .replaced some_value settles ?_⟩
        intro owner held
        rw [swapped_put.holds_iff, swapped.holds_iff]
        simp [FieldRow.stored]

/-! ### The rows of a field -/

namespace Turned

variable {store after : Primary} {uuid : Uuid} {row : FieldRow} {target : FieldType}

/-- A row is left where it is not the one turned. -/
theorem left (turned : Turned store uuid row target after) {owner : Uuid} {held : FieldRow}
    (holds : store.Holds owner held) (differ : held ≠ row) : after.Holds owner held := by
  cases turned with
  | kept _ same => exact same.mpr holds
  | merged _ _ _ _ _ _ left => exact left.mpr ⟨holds, differ⟩
  | replaced _ _ left => exact left.mpr (.inr ⟨holds, differ⟩)

/-- A row was there, or is the one put. -/
theorem cases_held (turned : Turned store uuid row target after) {owner : Uuid} {held : FieldRow}
    (holds : after.Holds owner held) : store.Holds owner held ∨ row.value.isNothing = false ∧
      ∃ value, Settles store uuid row target value ∧ owner = uuid ∧
        held = ⟨row.id, row.name, value.stored⟩ := by
  cases turned with
  | kept _ same => exact .inl (same.mp holds)
  | merged _ _ _ _ _ _ left => exact .inl (left.mp holds).1
  | replaced valued settles left =>
      rcases left.mp holds with new | old
      · exact .inr ⟨valued, _, settles, new⟩
      · exact .inl old.1

/-- The rows of the other metarecords are left. -/
theorem sameBut (turned : Turned store uuid row target after) (consistent : store.Consistent)
    (holds : store.Holds uuid row) : SameBut uuid after store := by
  intro owner held other
  constructor
  · intro there
    rcases turned.cases_held there with old | ⟨-, _, -, same, -⟩
    · exact old
    · exact absurd same other
  · intro there
    refine turned.left there ?_
    rintro rfl
    exact other (consistent.holds_unique there holds rfl).1

/-- The rows of the other fields are left. -/
theorem named_iff (turned : Turned store uuid row target after) {owner : Uuid} {held : FieldRow}
    (other : held.name ≠ row.name) : after.Holds owner held ↔ store.Holds owner held := by
  constructor
  · intro there
    rcases turned.cases_held there with old | ⟨-, _, -, -, rfl⟩
    · exact old
    · exact absurd rfl other
  · intro there
    refine turned.left there ?_
    rintro rfl
    exact other rfl

/-- A row of `Nothing` is left. -/
theorem left_of_nothing (turned : Turned store uuid row target after) {owner : Uuid}
    {held : FieldRow} (holds : store.Holds owner held) (nothing : held.value.isNothing = true) :
    after.Holds owner held := by
  have differ : row.value.isNothing = false → held ≠ row := by
    rintro valued rfl
    rw [nothing] at valued
    cases valued
  cases turned with
  | kept _ same => exact same.mpr holds
  | merged valued _ _ _ _ _ left => exact left.mpr ⟨holds, differ valued⟩
  | replaced valued _ left => exact left.mpr (.inr ⟨holds, differ valued⟩)

end Turned

/-- What each turn of a row keeps, the turns of the rows of a metarecord keep. -/
theorem retypeRows_induction (property : Writer → Prop) {uuid : Uuid} {target : FieldType}
    {rows : List FieldRow}
    (stepped : ∀ row ∈ rows, ∀ {w after : Writer}, w.tx.primary.Consistent →
      w.tx.primary.Holds uuid row → Turned w.tx.primary uuid row target after.tx.primary →
        property w → property after)
    {w after : Writer} (consistent : w.tx.primary.Consistent) (eager : w.deferredTrees = none)
    (listed : ∀ row ∈ rows, w.tx.primary.Holds uuid row) (distinct : rows.Nodup)
    {start summary : RetypeSummary}
    (ran : rows.foldlM (retypeRow uuid target) (start, w) = .ok (summary, after))
    (begun : property w) :
    after.tx.primary.Consistent ∧ after.deferredTrees = none ∧ property after := by
  induction rows generalizing w start with
  | nil =>
      rw [Except.foldlM_nil_eq_ok, Prod.mk.injEq] at ran
      exact ran.2 ▸ ⟨consistent, eager, begun⟩
  | cons head tail ih =>
      obtain ⟨⟨between, middle⟩, first, rest⟩ := Except.foldlM_cons_eq_ok.mp ran
      obtain ⟨absent, distinct⟩ := List.nodup_cons.mp distinct
      have held := listed head List.mem_cons_self
      obtain ⟨still_eager, turned⟩ := retypeRow_turns consistent eager held first
      have usual : Usual fun _ => True := fun _ => trivial
      have leads := retypeRow_leads usual consistent held first
      refine ih (fun row member => stepped row (List.mem_cons_of_mem _ member))
        (leads.consistent consistent) still_eager (fun row member => ?_) distinct rest
        (stepped head List.mem_cons_self consistent held turned begun)
      refine turned.left (listed row (List.mem_cons_of_mem _ member)) ?_
      rintro rfl
      exact absent member

/-- A row that is not turned is left. -/
theorem retypeRows_left {uuid : Uuid} {target : FieldType} {rows : List FieldRow} {w after : Writer}
    (consistent : w.tx.primary.Consistent) (eager : w.deferredTrees = none)
    (listed : ∀ row ∈ rows, w.tx.primary.Holds uuid row) (distinct : rows.Nodup)
    {start summary : RetypeSummary}
    (ran : rows.foldlM (retypeRow uuid target) (start, w) = .ok (summary, after)) {owner : Uuid}
    {held : FieldRow} (holds : w.tx.primary.Holds owner held) (absent : held ∉ rows) :
    after.tx.primary.Holds owner held := by
  obtain ⟨-, -, left⟩ := retypeRows_induction (fun reached => reached.tx.primary.Holds owner held)
    (fun row member _ _ _ _ turned there => turned.left there fun same => absent (same ▸ member))
    consistent eager listed distinct ran holds
  exact left

/-- The rows of some metarecords are turned, one metarecord after another. -/
def retypeOwners (name : String) (target : FieldType) (owners : List Uuid)
    (held : RetypeSummary × Writer) : Outcome (RetypeSummary × Writer) :=
  owners.foldlM (fun held uuid =>
    (held.2.tx.primary.rowsNamed uuid name).foldlM (retypeRow uuid target) held) held

/-- What each turn of a row of a field keeps, the turns of the rows of metarecords keep. -/
theorem retypeOwners_induction (property : Writer → Prop) {name : String} {target : FieldType}
    {owners : List Uuid}
    (stepped : ∀ uuid ∈ owners, ∀ {row : FieldRow} {w after : Writer}, row.name = name →
      w.tx.primary.Consistent → w.tx.primary.Holds uuid row →
        Turned w.tx.primary uuid row target after.tx.primary → property w → property after)
    {start finish : RetypeSummary × Writer} (consistent : start.2.tx.primary.Consistent)
    (eager : start.2.deferredTrees = none)
    (ran : retypeOwners name target owners start = .ok finish) (begun : property start.2) :
    finish.2.tx.primary.Consistent ∧ finish.2.deferredTrees = none ∧ property finish.2 := by
  induction owners generalizing start with
  | nil =>
      rw [retypeOwners, Except.foldlM_nil_eq_ok] at ran
      exact ran ▸ ⟨consistent, eager, begun⟩
  | cons uuid owners ih =>
      obtain ⟨⟨between, middle⟩, first, rest⟩ := Except.foldlM_cons_eq_ok.mp ran
      obtain ⟨kept, still_eager, reached⟩ := retypeRows_induction property
        (fun row member {_ _} whole holds turned held => stepped uuid List.mem_cons_self
          (consistent.mem_rowsNamed.mp member).2 whole holds turned held)
        consistent eager (fun row member => (consistent.mem_rowsNamed.mp member).1)
        (consistent.nodup_rowsNamed uuid name) first begun
      exact ih (fun other member => stepped other (List.mem_cons_of_mem _ member)) kept
        still_eager rest reached

end Writer

/-! ### The order of the metarecords -/

/-- A metarecord comes before another among the holders of a field. -/
def Precedes (store : Primary) (name : String) (first second : Uuid) : Prop :=
  ∃ earlier later, store.holders name = earlier ++ second :: later ∧ first ∈ earlier

/-- A metarecord a chain of strings leads up from, to a root, each parent before its child. -/
inductive Grounded (store : Primary) (name : String) (target : FieldType) : Uuid → Prop
  /-- A string names a root. -/
  | root {uuid : Uuid} {row : FieldRow} {node : TreeName} (holds : store.Holds uuid row)
      (named : row.name = name)
      (place : (row.value.convertTo target).1.position = some (none, node))
      (component : node.isComponent true) : Grounded store name target uuid
  /-- A string names a parent that comes before. -/
  | under {uuid parent : Uuid} {row : FieldRow} {node : TreeName}
      (grounded : Grounded store name target parent) (before : Precedes store name parent uuid)
      (holds : store.Holds uuid row) (named : row.name = name)
      (place : (row.value.convertTo target).1.position = some (some parent, node))
      (component : node.isComponent false) : Grounded store name target uuid

/-- No string names as its parent another metarecord that comes later and has a chain up to a
root. -/
def ParentsFirst (store : Primary) (name : String) (target : FieldType) : Prop :=
  ∀ ⦃uuid row text parent node⦄, store.Holds uuid row → row.name = name →
    row.value = .string text → (row.value.convertTo target).1.position = some (some parent, node) →
      node.isComponent false → Grounded store name target parent →
        parent = uuid ∨ Precedes store name parent uuid

namespace Writer

/-! ### Walks up alike -/

/-- Stores that agree on the parents of some nodes, whose parents are among them, agree on the walks
up from them. -/
theorem climb_congr {first second : Primary} (indexed : second.Indexed) {metarecord : Uuid}
    {field : String} (nodes : Uuid → Prop)
    (agree : ∀ {node}, nodes node → treeParents first field node = treeParents second field node)
    (closed : ∀ {node parent}, nodes node → second.Up field node parent → nodes parent)
    {fuel chainLen : Nat} {visited frontier : List Uuid} (within : ∀ node ∈ frontier, nodes node) :
    climb first metarecord field fuel chainLen visited frontier =
      climb second metarecord field fuel chainLen visited frontier := by
  induction fuel generalizing chainLen visited frontier with
  | zero => rfl
  | succ fuel ih =>
      have level : ∀ {held : List Uuid × List Uuid},
          frontier.foldlM (climbNode first metarecord field) held =
            frontier.foldlM (climbNode second metarecord field) held := by
        clear ih
        induction frontier with
        | nil => intro held; rfl
        | cons node rest ih =>
            intro held
            have same : climbNode first metarecord field held node =
                climbNode second metarecord field held node := by
              rw [climbNode, climbNode, agree (within node List.mem_cons_self)]
            rw [List.foldlM_cons, List.foldlM_cons, same]
            congr 1
            funext middle
            exact ih fun node member => within node (List.mem_cons_of_mem _ member)
      rw [climb, climb, level]
      cases walked : frontier.foldlM (climbNode second metarecord field) (visited, []) with
      | error failure => rfl
      | ok after =>
          obtain ⟨seen, next⟩ := after
          have climbed := climbNodes_spec indexed walked
          have above : ∀ node ∈ next, nodes node := by
            intro node member
            rcases climbed.up_of_mem member with absent | ⟨child, there, up⟩
            · cases absent
            · exact closed (within child there) up
          simp only [bind, Except.bind, ih above]

/-- A position under one of such nodes is checked alike. -/
theorem checkTreeRef_congr {first second : Primary} (indexed : second.Indexed) {metarecord : Uuid}
    {field : String} {value : Value} (nodes : Uuid → Prop)
    (agree : ∀ {node}, nodes node → treeParents first field node = treeParents second field node)
    (closed : ∀ {node parent}, nodes node → second.Up field node parent → nodes parent)
    (under : ∀ {parent node}, value.position = some (some parent, node) → nodes parent) :
    checkTreeRef first metarecord field value = checkTreeRef second metarecord field value := by
  unfold checkTreeRef
  cases place : value.position with
  | none => rfl
  | some held =>
      obtain ⟨parent, node⟩ := held
      cases parent with
      | none => rfl
      | some parent =>
          have inside := under place
          dsimp only
          rw [agree inside, climb_congr indexed nodes agree closed (by simpa using inside)]

omit [Externals] in
/-- A value that may stand together with the last position seen is let pass, and may be the last
seen after it. -/
theorem onePositionStep_of_together {uuid : Uuid} {seen : String → Option Value}
    {row : String × Value} (together : ∀ {other}, seen row.1 = some other →
      other.typeStr = row.2.typeStr ∧ Together other row.2) :
    onePositionStep uuid seen row = .ok seen ∨
      onePositionStep uuid seen row = .ok (Function.update seen row.1 (some row.2)) := by
  obtain ⟨name, value⟩ := row
  cases value with
  | treeRef parent node =>
      right
      simp only [onePositionStep, Except.bind_eq_ok, refuseIf_eq_ok, Except.pure_eq_ok,
        exists_const, and_true, Bool.not_eq_true, Option.any_eq_false, Bool.not_eq_false']
      intro other spoken
      obtain ⟨typed, beside⟩ := together spoken
      cases other with
      | treeRef above held =>
          obtain ⟨rfl, rfl⟩ := beside
          simp [Value.eq]
      | _ => simp [Value.typeStr] at typed
  | hierarchyRef parent node =>
      right
      simp only [onePositionStep, Except.bind_eq_ok, refuseIf_eq_ok, Except.pure_eq_ok,
        exists_const, and_true, Bool.not_eq_true, Option.any_eq_false]
      intro other spoken
      obtain ⟨typed, beside⟩ := together spoken
      cases other with
      | hierarchyRef above held =>
          have same : held = node := beside
          simp [Value.position, same]
      | _ => simp [Value.typeStr] at typed
  | _ => exact .inl rfl

omit [Externals] in
/-- Values of one type that may stand together in pairs may stand together. -/
theorem validateOnePositionEach_of_together {uuid : Uuid} {rows : List (String × Value)}
    {name type : String} (alike : ∀ row ∈ rows, row.1 = name ∧ row.2.typeStr = type)
    (together : ∀ first ∈ rows, ∀ second ∈ rows, Together first.2 second.2) :
    validateOnePositionEach uuid rows = .ok () := by
  have walk : ∀ {later : List (String × Value)} {seen : String → Option Value},
      (∀ row ∈ later, row ∈ rows) →
      (∀ {other}, seen name = some other → ∃ row ∈ rows, row.2 = other) →
        ∃ after, later.foldlM (onePositionStep uuid) seen = .ok after := by
    intro later
    induction later with
    | nil => exact fun _ _ => ⟨_, rfl⟩
    | cons head tail ih =>
        intro seen within speaks
        have member := within head List.mem_cons_self
        obtain ⟨named, typed⟩ := alike head member
        have beside : ∀ {other}, seen head.1 = some other →
            other.typeStr = head.2.typeStr ∧ Together other head.2 := by
          intro other spoken
          rw [named] at spoken
          obtain ⟨row, there, rfl⟩ := speaks spoken
          exact ⟨(alike row there).2.trans typed.symm, together row there head member⟩
        have rest := fun row (listed : row ∈ tail) => within row (List.mem_cons_of_mem _ listed)
        rcases onePositionStep_of_together beside with stays | moves
        · obtain ⟨after, ran⟩ := ih rest speaks
          exact ⟨after, Except.foldlM_cons_eq_ok.mpr ⟨_, stays, ran⟩⟩
        · have spoken : ∀ {other}, Function.update seen head.1 (some head.2) name = some other →
              ∃ row ∈ rows, row.2 = other := by
            intro other same
            rw [named, Function.update_self] at same
            exact ⟨head, member, Option.some.inj same⟩
          obtain ⟨after, ran⟩ := ih rest spoken
          exact ⟨after, Except.foldlM_cons_eq_ok.mpr ⟨_, moves, ran⟩⟩
  obtain ⟨after, ran⟩ := @walk rows (fun _ => none) (fun _ member => member) (by simp)
  rw [validateOnePositionEach, ran]
  rfl

/-- A value that stands beside a position: its own, or that of another row of its type. -/
def Beside (store : Primary) (uuid : Uuid) (name : String) (id : Int64) (value held : Value) :
    Prop :=
  held = value ∨ ∃ row, store.Holds uuid row ∧ row.name = name ∧ row.id ≠ id ∧
    row.value.typeStr = value.typeStr ∧ row.value = held

theorem validateOnePosition_iff {store : Primary} (consistent : store.Consistent) {uuid : Uuid}
    {name : String} {value : Value} {id : Int64} (placed : value.position.isSome) :
    validateOnePosition store uuid name value (some id) = .ok () ↔
      ∀ one other, Beside store uuid name id value one → Beside store uuid name id value other →
        Together one other := by
  have unplaced : value.position ≠ none := Option.isSome_iff_ne_none.mp placed
  rw [validateOnePosition, if_neg unplaced]
  dsimp only
  generalize listing : (((store.rowsNamed uuid name).filter fun row =>
    some row.id ≠ some id ∧ row.value.typeStr = value.typeStr).map fun row => (name, row.value)) ++
      [(name, value)] = pairs
  have listed : ∀ {pair : String × Value}, pair ∈ pairs ↔
      pair.1 = name ∧ Beside store uuid name id value pair.2 := by
    intro pair
    rw [← listing, List.mem_append, List.mem_singleton, List.mem_map]
    constructor
    · rintro (⟨row, kept, rfl⟩ | rfl)
      · obtain ⟨member, fits⟩ := List.mem_filter.mp kept
        obtain ⟨holds, named⟩ := consistent.mem_rowsNamed.mp member
        simp only [ne_eq, Option.some.injEq, decide_eq_true_eq] at fits
        exact ⟨rfl, .inr ⟨row, holds, named, fits.1, fits.2, rfl⟩⟩
      · exact ⟨rfl, .inl rfl⟩
    · rintro ⟨named, same | ⟨row, holds, row_named, differs, typed, valued⟩⟩
      · exact .inr (Prod.ext named same)
      · refine .inl ⟨row, List.mem_filter.mpr ⟨consistent.mem_rowsNamed.mpr ⟨holds, row_named⟩, ?_⟩,
          Prod.ext named.symm valued⟩
        simp only [ne_eq, Option.some.injEq, decide_eq_true_eq]
        exact ⟨differs, typed⟩
  constructor
  · intro alone one other beside_one beside_other
    have pairwise := validateOnePositionEach_spec alone
    have symmetric : Std.Symm fun first second : String × Value =>
        first.1 = second.1 → Together first.2 second.2 :=
      ⟨fun first second together same => (together same.symm).symm⟩
    have all := List.Pairwise.forall_of_forall (fun pair _ _ => Together.refl pair.2) pairwise
    exact all (listed.mpr ⟨rfl, beside_one⟩ : (name, one) ∈ pairs)
      (listed.mpr ⟨rfl, beside_other⟩ : (name, other) ∈ pairs) rfl
  · intro together
    have alike : ∀ pair ∈ pairs, pair.1 = name ∧ pair.2.typeStr = value.typeStr := by
      intro pair member
      obtain ⟨named, same | ⟨row, -, -, -, typed, valued⟩⟩ := listed.mp member
      · exact ⟨named, by rw [same]⟩
      · exact ⟨named, by rw [← valued, typed]⟩
    exact validateOnePositionEach_of_together alike fun first first_mem second second_mem =>
      together _ _ (listed.mp first_mem).2 (listed.mp second_mem).2

/-- A position that may stand beside the rows of a store may stand beside fewer. -/
theorem validateOnePosition_mono {first second : Primary} (consistent : first.Consistent)
    (whole : second.Consistent) {uuid : Uuid} {name : String} {value : Value} {id : Int64}
    (placed : value.position.isSome)
    (fewer : ∀ {other : FieldRow}, first.Holds uuid other → other.name = name →
      other.value.typeStr = value.typeStr → second.Holds uuid other)
    (alone : validateOnePosition second uuid name value (some id) = .ok ()) :
    validateOnePosition first uuid name value (some id) = .ok () := by
  rw [validateOnePosition_iff whole placed] at alone
  rw [validateOnePosition_iff consistent placed]
  have more : ∀ {held}, Beside first uuid name id value held →
      Beside second uuid name id value held := by
    rintro held (same | ⟨row, holds, named, differs, typed, valued⟩)
    · exact .inl same
    · exact .inr ⟨row, fewer holds named typed, named, differs, typed, valued⟩
  intro one other beside_one beside_other
  exact alone one other (more beside_one) (more beside_other)

/-! ### A retype under way -/

/-- What turns of rows without positions leave: the positions, and the rows of other metarecords. -/
structure Onward (owners : List Uuid) (store after : Primary) : Prop where
  /-- The positions. -/
  placed : ∀ {owner held}, store.Holds owner held → held.value.position.isSome →
    after.Holds owner held
  /-- The rows of other metarecords. -/
  others : ∀ {owner held}, owner ∉ owners → (after.Holds owner held ↔ store.Holds owner held)

omit [Externals] in
theorem Onward.refl (owners : List Uuid) (store : Primary) : Onward owners store store :=
  ⟨fun holds _ => holds, fun _ => Iff.rfl⟩

omit [Externals] in
theorem Onward.trans {owners : List Uuid} {store middle after : Primary}
    (first : Onward owners store middle) (second : Onward owners middle after) :
    Onward owners store after :=
  ⟨fun holds placed => second.placed (first.placed holds placed) placed,
    fun outside => (second.others outside).trans (first.others outside)⟩

omit [Externals] in
theorem Onward.mono {owners more : List Uuid} {store after : Primary}
    (onward : Onward owners store after) (inside : owners ⊆ more) : Onward more store after :=
  ⟨onward.placed, fun outside => onward.others fun member => outside (inside member)⟩

theorem Turned.onward {store after : Primary} {uuid : Uuid} {row : FieldRow} {target : FieldType}
    (turned : Turned store uuid row target after) (consistent : store.Consistent)
    (holds : store.Holds uuid row) (unplaced : row.value.position = none) :
    Onward [uuid] store after := by
  constructor
  · intro owner held there placed
    refine turned.left there ?_
    rintro rfl
    rw [unplaced] at placed
    cases placed
  · intro owner held outside
    exact turned.sameBut consistent holds fun same => outside (List.mem_singleton.mpr same)

omit [Externals] in
theorem isSome_position_of_typeStr {value other : Value} (placed : value.position.isSome)
    (typed : other.typeStr = value.typeStr) : other.position.isSome := by
  cases value <;> simp [Value.position] at placed <;> cases other <;>
    simp_all [Value.typeStr, Value.position]

omit [Externals] in
theorem eq_of_storedParent {parent : Option Uuid} {uuid : Uuid}
    (same : storedParent parent = some uuid) : parent = some uuid := by
  unfold storedParent at same
  split at same
  next => cases same
  next => exact same

variable {base : Primary} {name : String} {target : FieldType}

/-- A retype that has turned the rows of some metarecords, of a field with no positions before. -/
structure Walking (base : Primary) (name : String) (target : FieldType) (done touched : List Uuid)
    (store : Primary) : Prop where
  /-- The rows of the others are as they were. -/
  rest : ∀ {uuid row}, uuid ∉ touched → row.name = name →
    (store.Holds uuid row ↔ base.Holds uuid row)
  /-- The parents of positions are among those done with. -/
  closed : ∀ {uuid parent}, store.Up name uuid parent → parent ∈ done
  /-- What has a position has a chain of strings up to a root. -/
  grounded : ∀ {uuid}, store.Placed name uuid → Grounded base name target uuid

variable {done touched later : List Uuid} {uuid : Uuid} {store : Primary}

theorem Walking.mono {more wider : List Uuid}
    (walking : Walking base name target done touched store) (inside : done ⊆ more)
    (outside : touched ⊆ wider) : Walking base name target more wider store :=
  ⟨fun absent => walking.rest fun member => absent (outside member),
    fun up => inside (walking.closed up), walking.grounded⟩

section

variable (unplaced : ∀ {uuid row}, base.Holds uuid row → row.name = name →
  row.value.position = none)
include unplaced

theorem Walking.begin : Walking base name target [] [] base := by
  constructor
  · intro uuid row _ _
    rfl
  · rintro uuid parent ⟨row, node, holds, named, place⟩
    rw [unplaced holds named] at place
    cases place
  · rintro uuid ⟨row, holds, named, place⟩
    rw [unplaced holds named] at place
    cases place

/-- A row turned leaves the retype under way. -/
theorem Walking.turned {after : Primary} (consistent : store.Consistent)
    (walking : Walking base name target done (uuid :: done) store)
    (order : base.holders name = done ++ uuid :: later) {row : FieldRow}
    (given : base.Holds uuid row) (holds : store.Holds uuid row) (named : row.name = name)
    (turned : Turned store uuid row target after) :
    Walking base name target done (uuid :: done) after := by
  have converts : ∀ {value : Value} {place}, Settles store uuid row target value →
      value.position = some place → value = (row.value.convertTo target).1 ∧
        Accepts store uuid row value := by
    intro value place settles position
    obtain ⟨rfl, bare | accepts⟩ | ⟨rfl, -⟩ := settles
    · rw [bare] at position
      cases position
    · exact ⟨rfl, accepts⟩
    · cases position
  -- The parent a new position names is done with, and has a chain.
  have parent_done : ∀ {value : Value} {parent node}, Settles store uuid row target value →
      value.position = some (some parent, node) →
        parent ∈ done ∧ Grounded base name target parent := by
    intro value parent node settles position
    have placed := (converts settles position).2.placed
    rw [named] at placed
    obtain ⟨there, apart, -⟩ := checkTreeRef_spec consistent.toIndexed position placed
    refine ⟨?_, walking.grounded there⟩
    have reached : parent ∈ uuid :: done := by
      by_contra outside
      obtain ⟨held, at_parent, held_named, held_placed⟩ := there
      rw [unplaced ((walking.rest outside held_named).mp at_parent) held_named] at held_placed
      cases held_placed
    rcases List.mem_cons.mp reached with rfl | earlier
    · exact absurd .refl apart
    · exact earlier
  constructor
  · intro owner held outside held_named
    have other : owner ≠ uuid := fun same => outside (same ▸ List.mem_cons_self)
    exact (turned.sameBut consistent holds other).trans (walking.rest outside held_named)
  · rintro owner parent ⟨held, node, there, held_named, place⟩
    rcases turned.cases_held there with old | ⟨-, value, settles, rfl, rfl⟩
    · exact walking.closed ⟨held, node, old, held_named, place⟩
    · rw [Value.position_stored, Option.map_eq_some_iff] at place
      obtain ⟨⟨above, name⟩, position, same⟩ := place
      rw [Prod.mk.injEq] at same
      have above_eq : above = some parent := eq_of_storedParent same.1
      exact (parent_done settles (above_eq ▸ position)).1
  · rintro owner ⟨held, there, held_named, place⟩
    rcases turned.cases_held there with old | ⟨-, value, settles, rfl, rfl⟩
    · exact walking.grounded ⟨held, old, held_named, place⟩
    · rw [Value.position_stored, Option.isSome_map] at place
      obtain ⟨⟨above, node⟩, position⟩ := Option.isSome_iff_exists.mp place
      obtain ⟨same, accepts⟩ := converts settles position
      have component := accepts.component position
      cases above with
      | none => exact .root given named (same ▸ position) component
      | some parent =>
          obtain ⟨earlier, grounded⟩ := parent_done settles position
          exact .under grounded ⟨done, later, order, earlier⟩ given named (same ▸ position)
            component

/-- The rows of a metarecord turned leave the retype under way. -/
theorem Walking.retypeRows {w after : Writer} (consistent : w.tx.primary.Consistent)
    (eager : w.deferredTrees = none)
    (walking : Walking base name target done (uuid :: done) w.tx.primary)
    (order : base.holders name = done ++ uuid :: later) {rows : List FieldRow}
    (given : ∀ row ∈ rows, base.Holds uuid row ∧ row.name = name)
    (listed : ∀ row ∈ rows, w.tx.primary.Holds uuid row) (distinct : rows.Nodup)
    {start summary : RetypeSummary}
    (ran : rows.foldlM (retypeRow uuid target) (start, w) = .ok (summary, after)) :
    after.tx.primary.Consistent ∧ after.deferredTrees = none ∧
      Walking base name target done (uuid :: done) after.tx.primary ∧
        Onward [uuid] w.tx.primary after.tx.primary := by
  refine retypeRows_induction (fun reached =>
    Walking base name target done (uuid :: done) reached.tx.primary ∧
      Onward [uuid] w.tx.primary reached.tx.primary) ?_ consistent eager listed distinct ran
        ⟨walking, .refl _ _⟩
  intro row member before next whole holds turned held
  obtain ⟨in_base, named⟩ := given row member
  exact ⟨held.1.turned unplaced whole order in_base holds named turned,
    held.2.trans (turned.onward whole holds (unplaced in_base named))⟩

/-- The rows of metarecords turned one after another leave the retype under way. -/
theorem Walking.retypeOwners {start finish : RetypeSummary × Writer}
    (consistent : start.2.tx.primary.Consistent) (eager : start.2.deferredTrees = none)
    (walking : Walking base name target done done start.2.tx.primary) {owners : List Uuid}
    (order : base.holders name = done ++ (owners ++ later))
    (ran : retypeOwners name target owners start = .ok finish) :
    finish.2.tx.primary.Consistent ∧ finish.2.deferredTrees = none ∧
      Walking base name target (done ++ owners) (done ++ owners) finish.2.tx.primary ∧
        Onward owners start.2.tx.primary finish.2.tx.primary := by
  induction owners generalizing start done with
  | nil =>
      rw [Writer.retypeOwners, Except.foldlM_nil_eq_ok] at ran
      subst ran
      rw [List.append_nil]
      exact ⟨consistent, eager, walking, .refl _ _⟩
  | cons uuid owners ih =>
      obtain ⟨⟨between, middle⟩, first, rest⟩ := Except.foldlM_cons_eq_ok.mp ran
      have absent : uuid ∉ done := by
        have once := base.nodup_holders name
        rw [order, List.nodup_append] at once
        exact fun member => once.2.2 uuid member uuid (by simp) rfl
      have listed : ∀ row ∈ start.2.tx.primary.rowsNamed uuid name,
          start.2.tx.primary.Holds uuid row ∧ row.name = name :=
        fun row member => consistent.mem_rowsNamed.mp member
      have next_first : base.holders name = done ++ uuid :: (owners ++ later) := order
      obtain ⟨whole, still_eager, walked, onward⟩ :=
        (walking.mono (List.Subset.refl _) (List.subset_cons_self uuid done)).retypeRows unplaced
          consistent eager next_first
          (fun row member => ⟨(walking.rest absent (listed row member).2).mp (listed row member).1,
            (listed row member).2⟩)
          (fun row member => (listed row member).1) (consistent.nodup_rowsNamed uuid name) first
      have further : Walking base name target (done ++ [uuid]) (done ++ [uuid]) middle.tx.primary :=
        walked.mono (List.subset_append_left _ _) (by simp)
      obtain ⟨last, last_eager, done_with, rest_onward⟩ :=
        ih whole still_eager further (by simpa using order) rest
      rw [List.append_assoc] at done_with
      have onward_all : Onward (uuid :: owners) start.2.tx.primary finish.2.tx.primary :=
        (onward.mono (by simp)).trans (rest_onward.mono (by simp))
      exact ⟨last, last_eager, done_with, onward_all⟩

end

/-- A position that a store has room for at the end had room before its row was turned. -/
theorem Accepts.earlier {after : Primary} {row : FieldRow} {value : Value}
    (consistent : store.Consistent) (whole : after.Consistent)
    (walking : Walking base name target done (uuid :: done) store)
    (onward : Onward (uuid :: later) store after) (once : (done ++ uuid :: later).Nodup)
    (named : row.name = name) (placed : value.position.isSome)
    (under : ∀ {parent node}, value.position = some (some parent, node) →
      after.Placed name parent → parent ≠ uuid → parent ∈ done)
    (accepts : Accepts after uuid row value) : Accepts store uuid row value := by
  have same_rows : ∀ {node held}, node ∈ done →
      (after.Holds node held ↔ store.Holds node held) := by
    intro node held member
    refine onward.others fun other => ?_
    exact (List.nodup_append.mp once).2.2 node member node other rfl
  refine ⟨validateOnePosition_mono consistent whole placed ?_ accepts.alone, accepts.component, ?_⟩
  · intro other holds _ typed
    exact onward.placed holds (isSome_position_of_typeStr placed typed)
  · have checked := accepts.placed
    rw [named] at checked ⊢
    rw [← checked]
    refine checkTreeRef_congr whole.toIndexed (· ∈ done) ?_ ?_ ?_
    · intro node member
      rw [treeParents, treeParents, Primary.rowsNamed_congr consistent.toIndexed whole.toIndexed
        fun _ => (same_rows member).symm]
    · rintro node parent member ⟨held, name, holds, held_named, place⟩
      exact walking.closed ⟨held, name, (same_rows member).mp holds, held_named, place⟩
    · intro parent node place
      obtain ⟨there, apart, -⟩ := checkTreeRef_spec whole.toIndexed place checked
      exact under place there fun same => apart (same ▸ .refl)

/-- A string whose position the forest has room for at the end becomes that position. -/
theorem retypeOwners_converts {start finish : RetypeSummary × Writer}
    (consistent : start.2.tx.primary.Consistent) (eager : start.2.deferredTrees = none)
    (unplaced : ∀ {uuid row}, start.2.tx.primary.Holds uuid row → row.name = name →
      row.value.position = none)
    (ordered : ParentsFirst start.2.tx.primary name target)
    (ran : retypeOwners name target (start.2.tx.primary.holders name) start = .ok finish)
    {row : FieldRow} {text : String} (holds : start.2.tx.primary.Holds uuid row)
    (named : row.name = name) (string : row.value = .string text)
    (placed : (row.value.convertTo target).1.position.isSome)
    (accepts : Accepts finish.2.tx.primary uuid row (row.value.convertTo target).1) :
    ∃ held, finish.2.tx.primary.Holds uuid held ∧ held.name = name ∧
      held.value = (row.value.convertTo target).1.stored := by
  obtain ⟨done, later, order⟩ :=
    List.append_of_mem (consistent.mem_holders.mpr ⟨row, holds, named⟩)
  have once := start.2.tx.primary.nodup_holders name
  rw [order] at ran once
  -- The metarecords before this one, its rows before this row, the row, and the rest.
  rw [Writer.retypeOwners, List.foldlM_append, Except.bind_eq_ok] at ran
  obtain ⟨reached, reaching, rest⟩ := ran
  obtain ⟨reached_whole, reached_eager, walked, -⟩ :=
    (Walking.begin unplaced).retypeOwners unplaced consistent eager order reaching
  obtain ⟨⟨between, turned_all⟩, turning, ending⟩ := Except.foldlM_cons_eq_ok.mp rest
  have absent : uuid ∉ done := fun member =>
    (List.nodup_append.mp once).2.2 uuid member uuid List.mem_cons_self rfl
  have of_base : ∀ {other : FieldRow}, other ∈ reached.2.tx.primary.rowsNamed uuid name →
      start.2.tx.primary.Holds uuid other ∧ other.name = name := by
    intro other member
    obtain ⟨there, other_named⟩ := reached_whole.mem_rowsNamed.mp member
    exact ⟨(walked.rest absent other_named).mp there, other_named⟩
  have row_listed : row ∈ reached.2.tx.primary.rowsNamed uuid name :=
    reached_whole.mem_rowsNamed.mpr ⟨(walked.rest absent named).mpr holds, named⟩
  have distinct := reached_whole.nodup_rowsNamed uuid name
  have there : ∀ {other : FieldRow}, other ∈ reached.2.tx.primary.rowsNamed uuid name →
      reached.2.tx.primary.Holds uuid other := fun member =>
    (reached_whole.mem_rowsNamed.mp member).1
  generalize reached.2.tx.primary.rowsNamed uuid name = rows at *
  obtain ⟨earlier, others, rfl⟩ := List.append_of_mem row_listed
  rw [List.foldlM_append, Except.bind_eq_ok] at turning
  obtain ⟨⟨summary, before⟩, turning_earlier, turning⟩ := turning
  obtain ⟨⟨summary_after, after⟩, turning_row, turning_others⟩ :=
    Except.foldlM_cons_eq_ok.mp turning
  obtain ⟨distinct_earlier, distinct_rest, unlisted⟩ := List.nodup_append.mp distinct
  obtain ⟨not_other, distinct_others⟩ := List.nodup_cons.mp distinct_rest
  have left_before : ∀ {other}, other ∈ row :: others → before.tx.primary.Holds uuid other :=
    fun {other} member => retypeRows_left reached_whole reached_eager
      (fun _ listed => there (List.mem_append_left _ listed)) distinct_earlier turning_earlier
      (there (List.mem_append_right _ member)) fun listed => unlisted other listed other member rfl
  obtain ⟨before_whole, before_eager, walking, -⟩ :=
    (walked.mono (List.Subset.refl _) (List.subset_cons_self uuid done)).retypeRows unplaced
      reached_whole reached_eager order (fun _ listed => of_base (List.mem_append_left _ listed))
      (fun _ listed => there (List.mem_append_left _ listed)) distinct_earlier turning_earlier
  have row_before := left_before List.mem_cons_self
  obtain ⟨after_eager, turned⟩ := retypeRow_turns before_whole before_eager row_before turning_row
  have usual : Usual fun _ => True := fun _ => trivial
  have after_whole := (retypeRow_leads usual before_whole row_before turning_row).consistent
    before_whole
  obtain ⟨all_whole, all_eager, walked_all, onward_others⟩ :=
    (walking.turned unplaced before_whole order holds row_before named turned).retypeRows unplaced
      after_whole after_eager order
      (fun _ listed => of_base (List.mem_append_right _ (List.mem_cons_of_mem _ listed)))
      (fun other listed => turned.left (left_before (List.mem_cons_of_mem _ listed))
        fun same => not_other (same ▸ listed)) distinct_others turning_others
  have owners_left : start.2.tx.primary.holders name = (done ++ [uuid]) ++ (later ++ []) := by
    simpa using order
  obtain ⟨last_whole, -, walked_last, onward_later⟩ :=
    (walked_all.mono (List.subset_append_left _ [uuid]) (by simp)).retypeOwners unplaced
      all_whole all_eager owners_left ending
  have onward_after : Onward (uuid :: later) after.tx.primary finish.2.tx.primary :=
    (onward_others.mono (by simp)).trans (onward_later.mono (by simp))
  have onward := ((turned.onward before_whole row_before (unplaced holds named)).mono
    (by simp)).trans onward_after
  have under : ∀ {parent node},
      (row.value.convertTo target).1.position = some (some parent, node) →
        finish.2.tx.primary.Placed name parent → parent ≠ uuid → parent ∈ done := by
    intro parent node place placed_parent differ
    rcases ordered holds named string place (accepts.component place)
      (walked_last.grounded placed_parent) with same | ⟨first, second, split, member⟩
    · exact absurd same differ
    · rw [order] at split
      rw [split] at once
      have first_absent : uuid ∉ first := fun member =>
        (List.nodup_append.mp once).2.2 uuid member uuid List.mem_cons_self rfl
      have second_absent : uuid ∉ second :=
        (List.nodup_cons.mp (List.nodup_append.mp once).2.1).1
      obtain ⟨rfl, -⟩ := (List.append_cons_inj_of_notMem first_absent second_absent).mp split.symm
      exact member
  have accepted := accepts.earlier before_whole last_whole walking onward once named placed under
  have settled : ∀ {value}, Settles before.tx.primary uuid row target value →
      value = (row.value.convertTo target).1 := by
    rintro value (⟨same, -⟩ | ⟨-, refused⟩)
    · exact same
    · exact absurd accepted refused
  cases turned with
  | kept why same =>
      rcases why with empty | ⟨value, settles, equal⟩
      · rw [string] at empty
        cases empty
      · rw [settled settles, Value.eq_comm, Value.eq_iff_of_position placed] at equal
        rw [← equal, string] at placed
        cases placed
  | @merged value twin _ settles twin_held twin_named differs equal left =>
      rw [settled settles, Value.eq_iff_of_position placed] at equal
      have twin_left := left.mpr ⟨twin_held, fun same => differs (by rw [same])⟩
      refine ⟨twin, onward_after.placed twin_left (equal ▸ placed), twin_named.trans named, ?_⟩
      rw [← equal]
      exact (congrArg FieldRow.value (before_whole.stored twin_held)).symm
  | @replaced value _ settles left =>
      have same := settled settles
      subst same
      refine ⟨_, onward_after.placed (left.mpr (.inl ⟨rfl, rfl⟩)) ?_, named, rfl⟩
      rw [Value.position_stored, Option.isSome_map]
      exact placed

end Writer

/-! ### What a retype leads to -/

/-- A field of one type, the rows it should not change being as they were. -/
structure Uniform (before after : Primary) (name : String) (target : FieldType) : Prop where
  /-- The rows of the field are of the type, or `Nothing`. -/
  typed : after.OfType name target.asStr
  /-- The rows that were `Nothing` are unchanged. -/
  nothings : ∀ {uuid row}, before.Holds uuid row → row.value.isNothing = true →
    after.Holds uuid row
  /-- So are the rows of other names. -/
  others : ∀ {uuid row}, row.name ≠ name → (after.Holds uuid row ↔ before.Holds uuid row)
  /-- No metarecord holds two equal rows of a field. -/
  distinct : after.Distinct
  /-- Forests stay well formed. -/
  forests : (∀ field, before.WellFormedForest field) → ∀ field, after.WellFormedForest field

/-- A field of one type, the strings whose positions it has room for being converted. -/
structure Retyped (before after : Primary) (name : String) (target : FieldType) : Prop
    extends Uniform before after name target where
  /-- A string whose position the field has room for is converted. -/
  converted : ∀ {uuid row text}, before.Holds uuid row → row.name = name →
    row.value = .string text → (row.value.convertTo target).1.position.isSome →
      Writer.Accepts after uuid row (row.value.convertTo target).1 →
        (∀ {other held}, after.Holds other held → held.name = name → other ≠ uuid →
          held.value.position ≠ (row.value.convertTo target).1.stored.position) →
          ∃ held, after.Holds uuid held ∧ held.name = name ∧
            held.value = (row.value.convertTo target).1.stored

variable {name : String} {target : FieldType}

theorem Transaction.retypeField_spec {transaction : Transaction} {store after : KvStore}
    (asked : transaction.calls = [.retypeField name target])
    (ran : transaction.run store = .ok after) :
    ∃ (w : Writer) (finish : RetypeSummary × Writer),
      Writer.beginIn store transaction.context transaction.retention transaction.timestamp = .ok w ∧
        w.retypeField name target = .ok finish ∧ after.tx = finish.2.tx := by
  simp only [Transaction.run, asked, Except.bind_eq_ok, Except.foldlM_cons_eq_ok,
    Except.foldlM_nil_eq_ok] at ran
  obtain ⟨w, opening, _, ⟨last, calling, rfl⟩, committing⟩ := ran
  obtain ⟨finish, retyping, rfl⟩ := Except.map_eq_ok.mp calling
  obtain ⟨after_tx, -⟩ := Writer.commit_spec committing
  exact ⟨w, finish, opening, retyping, after_tx⟩

theorem Writer.retypeField_eq (w : Writer) (name : String) (target : FieldType) :
    w.retypeField name target =
      retypeOwners name target (w.tx.primary.holders name) ({}, w.forget name) := rfl

/-- A retype leaves the field with one type, and what it should not change as it was. -/
theorem Transaction.uniform {store after : KvStore} (reached : Reachable (fun _ => True) store)
    {transaction : Transaction} (asked : transaction.calls = [.retypeField name target])
    (ran : transaction.run store = .ok after) :
    Uniform store.tx.primary after.tx.primary name target := by
  obtain ⟨steps, history, -⟩ := reached.history
  obtain ⟨w, finish, opening, retyping, after_tx⟩ := Transaction.retypeField_spec asked ran
  obtain ⟨tx_eq, -, -, -, -, settled, eager, unmet⟩ := Writer.beginIn_spec opening
  have whole : w.tx.primary.Consistent := tx_eq ▸ history.consistent
  have walked := retyping
  rw [Writer.retypeField_eq] at walked
  constructor
  · have start : Writer.Typed none w :=
      ⟨whole, by simp [unmet], fun _ _ => tx_eq ▸ reached.single _, by simp [settled]⟩
    rw [after_tx]
    exact (start.retypeField retyping).2
  · obtain ⟨-, -, left⟩ := Writer.retypeOwners_induction (fun reached => ∀ {uuid row},
        store.tx.primary.Holds uuid row → row.value.isNothing = true →
          reached.tx.primary.Holds uuid row)
      (fun _ _ _ _ _ _ _ _ turned there _ _ holds nothing =>
        turned.left_of_nothing (there holds nothing) nothing)
      whole eager walked (fun holds _ => tx_eq ▸ holds)
    intro uuid row holds nothing
    rw [after_tx]
    exact left holds nothing
  · obtain ⟨-, -, left⟩ := Writer.retypeOwners_induction (fun reached => ∀ {uuid row},
        row.name ≠ name → (reached.tx.primary.Holds uuid row ↔ store.tx.primary.Holds uuid row))
      (fun _ _ turned_row _ _ named _ _ turned there _ row other =>
        (turned.named_iff (named ▸ other : row.name ≠ turned_row.name)).trans (there other))
      whole eager walked (fun _ => by rw [Writer.forget, tx_eq])
    intro uuid row other
    rw [after_tx]
    exact left other
  · exact (Reachable.commit transaction reached trivial ran).distinct
  · intro wellFormed
    refine Transaction.wellFormed history.consistent ?_ wellFormed ran
    intro made member
    rw [asked, List.mem_singleton] at member
    subst member
    simp [Writer.Call.opTypes]

/-- A retype that meets parents before their children converts every string the field has room
for. -/
theorem retyped_of_parentsFirst {store after : KvStore} (reached : Reachable (fun _ => True) store)
    {transaction : Transaction} (asked : transaction.calls = [.retypeField name target])
    (ran : transaction.run store = .ok after)
    (ordered : ParentsFirst store.tx.primary name target) :
    Retyped store.tx.primary after.tx.primary name target := by
  refine ⟨Transaction.uniform reached asked ran, ?_⟩
  intro uuid row text holds named string placed accepts _
  obtain ⟨steps, history, -⟩ := reached.history
  obtain ⟨w, finish, opening, retyping, after_tx⟩ := Transaction.retypeField_spec asked ran
  obtain ⟨tx_eq, -, -, -, -, -, eager, -⟩ := Writer.beginIn_spec opening
  rw [Writer.retypeField_eq] at retyping
  -- The field holds a string, so it holds no position.
  have unplaced : ∀ {owner held}, w.tx.primary.Holds owner held → held.name = name →
      held.value.position = none := by
    intro owner held there held_named
    obtain ⟨valueType, single⟩ := reached.single name
    have texts : (Value.string text).typeStr = valueType := by
      have typed := single holds named (by rw [string]; rfl)
      rwa [string] at typed
    by_cases nothing : held.value.isNothing = true
    · rw [(Value.isNothing_iff _).mp nothing]
      rfl
    · have typed := single (tx_eq ▸ there) held_named (Bool.not_eq_true _ ▸ nothing)
      rw [← texts] at typed
      by_contra place
      have text_placed := Writer.isSome_position_of_typeStr (Option.isSome_iff_ne_none.mpr place)
        typed.symm
      cases text_placed
  rw [after_tx] at accepts ⊢
  rw [← tx_eq] at holds ordered
  exact Writer.retypeOwners_converts (tx_eq ▸ history.consistent) eager unplaced ordered retyping
    holds named string placed accepts

/-- A write that gives two metarecords a field of texts. -/
def sampleStrings (first second : String) : Transaction where
  context := .new ⟨"texts", none, none⟩
  retention := .unlimited
  timestamp := 3
  calls :=
    [.createMetarecord (sampleUuids 1) [⟨"in", .string first⟩],
      .createMetarecord (sampleUuids 2) [⟨"in", .string second⟩]]

/-- A write that retypes the field. -/
def sampleTurned : Transaction where
  context := .new ⟨"retype", none, none⟩
  retention := .unlimited
  timestamp := 5
  calls := [.retypeField "in" .treeRef]

/-- What a store holds of the field, and of the first two metarecords. -/
def sampleHeld (store : KvStore) : List Uuid × List FieldRow × List FieldRow :=
  (store.tx.primary.holders "in", store.tx.primary.rows (sampleUuids 1),
    store.tx.primary.rows (sampleUuids 2))

/-- The text of a place under the first or the second metarecord. -/
def sampleUnderText (n : UInt8) : String := (sampleUuids n).simple ++ "/leaf"

omit [Externals] in
theorem sampleStrings_run :
    (do
      let before ← @Transaction.run plainExternals (sampleStrings "/tags" (sampleUnderText 1)) {}
      let after ← @Transaction.run plainExternals sampleTurned before
      pure (sampleHeld before, sampleHeld after)) =
    (.ok (([sampleUuids 1, sampleUuids 2], [⟨1, "in", .string "/tags"⟩],
        [⟨2, "in", .string (sampleUnderText 1)⟩]),
      ([sampleUuids 1, sampleUuids 2], [⟨1, "in", .treeRef none (.ofString "tags")⟩],
        [⟨2, "in", .treeRef (some (sampleUuids 1)) (.ofString "leaf")⟩])) : Outcome _) := by
  decide +kernel

omit [Externals] in
theorem sampleReads : letI : Externals := plainExternals
    ((Value.string "/tags").convertTo .treeRef).1 = .treeRef none (.ofString "tags") ∧
      ((Value.string (sampleUnderText 2)).convertTo .treeRef).1 =
        .treeRef (some (sampleUuids 2)) (.ofString "leaf") ∧
      ((Value.string (sampleUnderText 1)).convertTo .treeRef).1 =
        .treeRef (some (sampleUuids 1)) (.ofString "leaf") := by
  decide +kernel

omit [Externals] in
theorem sampleStrings_run_reversed :
    letI : Externals := plainExternals
    (do
      let before ← (sampleStrings (sampleUnderText 2) "/tags").run {}
      let after ← sampleTurned.run before
      let value := .treeRef (some (sampleUuids 2)) (.ofString "leaf")
      Writer.validateOnePosition after.tx.primary (sampleUuids 1) "in" value (some 1)
      Writer.checkTreeRef after.tx.primary (sampleUuids 1) "in" value
      pure (before.tx.primary.rows (sampleUuids 1), sampleHeld after)) =
    (.ok ([⟨1, "in", .string (sampleUnderText 2)⟩], ([sampleUuids 1, sampleUuids 2],
      [⟨1, "in", .nothing⟩], [⟨2, "in", .treeRef none (.ofString "tags")⟩])) : Outcome _) := by
  decide +kernel

/-- The rows of the field are those of the two metarecords. -/
theorem holds_of_sampleHeld {store : KvStore} (indexed : store.tx.primary.Indexed)
    {first second : FieldRow}
    (held : sampleHeld store = ([sampleUuids 1, sampleUuids 2], [first], [second]))
    {uuid : Uuid} {row : FieldRow} (holds : store.tx.primary.Holds uuid row)
    (named : row.name = "in") :
    (uuid = sampleUuids 1 ∧ row = first) ∨ (uuid = sampleUuids 2 ∧ row = second) := by
  obtain ⟨owners, rows⟩ := Prod.mk.inj held
  obtain ⟨rows_first, rows_second⟩ := Prod.mk.inj rows
  have listed := indexed.mem_holders.mpr ⟨row, holds, named⟩
  have member := indexed.mem_rows.mpr holds
  rw [owners, List.mem_cons, List.mem_singleton] at listed
  rcases listed with rfl | rfl
  · rw [rows_first, List.mem_singleton] at member
    exact .inl ⟨rfl, member⟩
  · rw [rows_second, List.mem_singleton] at member
    exact .inr ⟨rfl, member⟩

omit [Externals] in
theorem retyped_of_parentsFirst_sample : letI : Externals := plainExternals
    ∃ before after : KvStore, (sampleStrings "/tags" (sampleUnderText 1)).run {} = .ok before ∧
      sampleTurned.run before = .ok after ∧ ParentsFirst before.tx.primary "in" .treeRef ∧
        Retyped before.tx.primary after.tx.primary "in" .treeRef := by
  let _ : Externals := plainExternals
  obtain ⟨before, ran, rest⟩ := Except.bind_eq_ok.mp sampleStrings_run
  obtain ⟨after, turned, held⟩ := Except.bind_eq_ok.mp rest
  obtain ⟨held_before, -⟩ := Prod.mk.inj (Except.pure_eq_ok.mp held)
  have reached : Reachable (fun _ => True) before := .commit _ .new trivial ran
  obtain ⟨steps, history, -⟩ := reached.history
  have ordered : ParentsFirst before.tx.primary "in" .treeRef := by
    intro uuid row text parent node holds named string place _ _
    rcases holds_of_sampleHeld history.consistent.toIndexed held_before holds named with
      ⟨rfl, rfl⟩ | ⟨rfl, rfl⟩
    · rw [sampleReads.1] at place
      simp [Value.position] at place
    · rw [sampleReads.2.2] at place
      simp only [Value.position, Option.some.injEq, Prod.mk.injEq] at place
      rw [← place.1]
      exact .inr ⟨[sampleUuids 1], [], (Prod.mk.inj held_before).1, List.mem_singleton_self _⟩
  exact ⟨before, after, ran, turned, ordered, retyped_of_parentsFirst reached rfl turned ordered⟩

omit [Externals] in
/-- A string is given up where the metarecord its position is under comes later, though there is
room for the position once that one is converted. -/
theorem retyped_too_early : letI : Externals := plainExternals
    ¬∀ {name : String} {target : FieldType} {store after : KvStore} {transaction : Transaction},
      Reachable (fun _ => True) store → transaction.calls = [.retypeField name target] →
        transaction.run store = .ok after →
          Retyped store.tx.primary after.tx.primary name target := by
  let _ : Externals := plainExternals
  intro every
  obtain ⟨before, ran, rest⟩ := Except.bind_eq_ok.mp sampleStrings_run_reversed
  obtain ⟨after, turned, rest⟩ := Except.bind_eq_ok.mp rest
  obtain ⟨⟨⟩, alone, rest⟩ := Except.bind_eq_ok.mp rest
  obtain ⟨⟨⟩, placed, held⟩ := Except.bind_eq_ok.mp rest
  obtain ⟨rows, held_after⟩ := Prod.mk.inj (Except.pure_eq_ok.mp held)
  have reached : Reachable (fun _ => True) before := .commit _ .new trivial ran
  have reached_after : Reachable (fun _ => True) after := .commit _ reached trivial turned
  obtain ⟨steps, history, -⟩ := reached.history
  obtain ⟨more, history_after, -⟩ := reached_after.history
  have indexed := history_after.consistent.toIndexed
  have holds : before.tx.primary.Holds (sampleUuids 1) ⟨1, "in", .string (sampleUnderText 2)⟩ :=
    history.consistent.mem_rows.mp (by rw [rows]; exact List.mem_singleton_self _)
  have reads := sampleReads.2.1
  obtain ⟨row, there, named, valued⟩ := (every reached rfl turned).converted holds rfl rfl
    (by rw [reads]; rfl)
    (by
      rw [reads]
      refine ⟨alone, ?_, placed⟩
      intro parent node place
      obtain ⟨rfl, rfl⟩ := Prod.mk.inj (Option.some.inj place)
      decide)
    (by
      intro other row there named differ same
      rcases holds_of_sampleHeld indexed held_after there named with ⟨rfl, -⟩ | ⟨-, rfl⟩
      · exact differ rfl
      · rw [reads] at same
        exact absurd (Prod.mk.inj (Option.some.inj same)).2 (by decide))
  rw [reads] at valued
  rcases holds_of_sampleHeld indexed held_after there named with ⟨-, rfl⟩ | ⟨-, rfl⟩
  · cases valued
  · cases valued

end Metafolder
