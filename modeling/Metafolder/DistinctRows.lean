import Metafolder.FieldTypes
import Metafolder.Forests

/-!
# No two equal rows

No metarecord holds two rows of a field name with equal values.  Positions are kept apart by the
index of places; the other values by the writer, which looks for a twin before it adds a row.
-/

namespace Metafolder

namespace F64

theorem eq_comm (first second : F64) : first.eq second = second.eq first := by
  simp only [eq, Bool.and_comm first.isZero, Bool.and_comm (!first.isNaN)]
  congr 2
  rw [decide_eq_decide]
  exact ⟨Eq.symm, Eq.symm⟩

end F64

namespace Value

/-- Whether two values are equal does not depend on their order. -/
theorem eq_comm (first second : Value) : first.eq second = second.eq first := by
  cases first with
  | float f =>
      cases second with
      | float other => exact F64.eq_comm f other
      | _ => rfl
  | _ =>
      cases second <;> simp only [eq, decide_eq_decide] <;> exact ⟨Eq.symm, Eq.symm⟩

theorem stored_of_position {value : Value} (unplaced : value.position = none) :
    value.stored = value := by
  cases value <;> first | rfl | simp [position] at unplaced

end Value

/-- Two fields, of one name and with equal values, are not both kept. -/
def Unlike (one other : String × Value) : Prop := one.1 = other.1 → one.2.eq other.2 = false

instance : Std.Symm Unlike where
  symm one other unlike named := by
    rw [Value.eq_comm]
    exact unlike named.symm

namespace Primary

/-- No metarecord holds two rows of a field name with equal values. -/
def Distinct (store : Primary) : Prop :=
  ∀ ⦃uuid first second⦄, store.Holds uuid first → store.Holds uuid second →
    first.name = second.name → first.value.eq second.value = true → first = second

/-- No metarecord holds two rows of a field name with equal values that are not positions. -/
def Apart (store : Primary) : Prop :=
  ∀ ⦃uuid first second⦄, store.Holds uuid first → store.Holds uuid second →
    first.name = second.name → first.value.position = none →
      first.value.eq second.value = true → first = second

/-- Equal positions have one place, which one row holds. -/
theorem Apart.distinct [Externals] {store : Primary} (apart : store.Apart)
    (indexed : store.Indexed) :
    store.Distinct := by
  intro uuid first second holdsFirst holdsSecond named equal
  cases placed : first.value.position with
  | none => exact apart holdsFirst holdsSecond named placed equal
  | some place =>
      have some_place : first.value.position.isSome := by simp [placed]
      rw [Value.eq_comm] at equal
      have same := (Value.eq_iff_of_position some_place).mp equal
      exact (indexed.place_unique holdsFirst holdsSecond named some_place (by rw [same])).2

end Primary

namespace Writer

variable [Externals]

/-! ### Duplicates given -/

omit [Externals] in
theorem pairwise_collapseDuplicates (values : List Value) :
    (collapseDuplicates values).1.Pairwise fun one other => one.eq other = false := by
  induction values using List.reverseRecOn with
  | nil => exact List.Pairwise.nil
  | append_singleton values value ih =>
      obtain ⟨-, same⟩ | ⟨unlike, same⟩ := collapseDuplicates_concat values value
      · rw [same]
        exact ih
      · rw [same, List.pairwise_append]
        refine ⟨ih, List.pairwise_singleton .., fun one member other single => ?_⟩
        rw [List.mem_singleton.mp single]
        exact unlike one member

omit [Externals] in
theorem pairwise_collapseDuplicateFields (fields : List Field) :
    ((collapseDuplicateFields fields).map fun field => (field.name, field.value)).Pairwise
      Unlike := by
  rw [List.pairwise_map]
  have kept : ∀ {rest start : List Field},
      start.Pairwise (fun one other => Unlike (one.name, one.value) (other.name, other.value)) →
        (rest.foldl (fun kept field =>
          if kept.any fun other => other.name = field.name ∧ other.value.eq field.value then kept
          else kept ++ [field]) start).Pairwise
            fun one other => Unlike (one.name, one.value) (other.name, other.value) := by
    intro rest
    induction rest with
    | nil => exact id
    | cons head tail ih =>
        intro start apart
        rw [List.foldl_cons]
        by_cases held : start.any fun other => other.name = head.name ∧ other.value.eq head.value
        · rw [if_pos held]
          exact ih apart
        · rw [if_neg held]
          refine ih ?_
          rw [List.pairwise_append]
          refine ⟨apart, List.pairwise_singleton .., fun one member other single named => ?_⟩
          rw [List.mem_singleton.mp single] at named ⊢
          simp only [List.any_eq_true, decide_eq_true_eq, not_exists, not_and] at held
          exact Bool.eq_false_iff.mpr (held one member named)
  exact kept List.Pairwise.nil

/-! ### Methods -/

/-- The rows of a write in progress, positions aside, are kept apart. -/
structure Parted (w : Writer) : Prop where
  /-- The primary tables agree. -/
  consistent : w.tx.primary.Consistent
  /-- No two rows are equal. -/
  apart : w.tx.primary.Apart

theorem Parted.congr {w after : Writer} (parted : Parted w) (same : after.tx = w.tx) :
    Parted after :=
  ⟨same ▸ parted.consistent, same ▸ parted.apart⟩

/-- An operation whose rows differ from each other and from those left keeps rows apart. -/
theorem Parted.performs {w after : Writer} (parted : Parted w) {opType : OpType} {uuid : Uuid}
    {fieldName : Option String} {before : List FieldRow} {values : List (String × Value)}
    {op : NewOp} (performs : Performs w opType uuid fieldName before values op after)
    (unlike : values.Pairwise Unlike)
    (fresh : ∀ {row}, w.tx.primary.Holds uuid row → row ∉ before → ∀ pair ∈ values,
      Unlike (row.name, row.value) pair) : Parted after := by
  obtain ⟨kept, swapped, -⟩ := performs.performed.spec parted.consistent
  rw [performs.entity_eq, performs.before_eq] at swapped
  rw [← performs.after_eq] at unlike fresh
  -- a row put that holds no position is stored as it was given
  have unstored : ∀ {row : FieldRow}, row.stored.value.position = none →
      row.stored.value = row.value := by
    intro row unplaced
    rw [FieldRow.stored_value, Value.position_stored, Option.map_eq_none_iff] at unplaced
    exact Value.stored_of_position unplaced
  have beside : ∀ {row put : FieldRow}, w.tx.primary.Holds uuid row → row ∉ before →
      put ∈ op.after → put.stored.value.position = none → row.name = put.stored.name →
        row.value.eq put.stored.value = false := by
    intro row put holds left member unplaced named
    rw [unstored unplaced]
    exact fresh holds left _ (List.mem_map.mpr ⟨put, member, rfl⟩) named
  refine ⟨kept, fun owner first second holdsFirst holdsSecond named unplaced equal => ?_⟩
  have unplaced_second : second.value.position = none := by
    cases placed : second.value.position with
    | none => rfl
    | some place =>
        rw [(Value.eq_iff_of_position (by simp [placed])).mp equal, placed] at unplaced
        simp at unplaced
  rcases swapped.holds_iff.mp holdsFirst with ⟨rfl, putFirst⟩ | ⟨oldFirst, leftFirst⟩
  · obtain ⟨one, member_one, rfl⟩ := List.mem_map.mp putFirst
    rcases swapped.holds_iff.mp holdsSecond with ⟨-, putSecond⟩ | ⟨oldSecond, leftSecond⟩
    · obtain ⟨other, member_other, rfl⟩ := List.mem_map.mp putSecond
      by_contra differ
      have symm : Std.Symm fun one other : FieldRow =>
          Unlike (one.name, one.value) (other.name, other.value) := ⟨fun _ _ => symm_of Unlike⟩
      have apart := (List.pairwise_map.mp unlike).forall member_one member_other
        (fun same => differ (by rw [same])) named
      rw [unstored unplaced, unstored unplaced_second] at equal
      exact absurd equal (Bool.eq_false_iff.mp apart)
    · rw [Value.eq_comm, beside oldSecond leftSecond member_one unplaced named.symm] at equal
      contradiction
  · rcases swapped.holds_iff.mp holdsSecond with ⟨rfl, putSecond⟩ | ⟨oldSecond, -⟩
    · obtain ⟨other, member_other, rfl⟩ := List.mem_map.mp putSecond
      rw [beside oldFirst leftFirst member_other unplaced_second named] at equal
      contradiction
    · exact parted.apart oldFirst oldSecond named unplaced equal

/-- Nothing is left beside the rows of a name when all of them are taken away. -/
theorem Parted.performs_named {w after : Writer} (parted : Parted w) {opType : OpType} {uuid : Uuid}
    {name : String} {values : List Value} {op : NewOp}
    (performs : Performs w opType uuid (some name) (w.tx.primary.rowsNamed uuid name)
      (values.map fun value => (name, value)) op after)
    (unlike : values.Pairwise fun one other => one.eq other = false) : Parted after := by
  refine parted.performs performs ?_ fun holds left pair member named => ?_
  · rw [List.pairwise_map]
    exact unlike.imp fun {one other} differ (_ : name = name) => differ
  · obtain ⟨value, -, rfl⟩ := List.mem_map.mp member
    exact absurd (parted.consistent.mem_rowsNamed.mpr ⟨holds, named⟩) left

theorem Parted.deletes {w after : Writer} (parted : Parted w) {opType : OpType} {uuid : Uuid}
    {fieldName : Option String} {before : List FieldRow} {op : NewOp}
    (performs : Performs w opType uuid fieldName before [] op after) : Parted after :=
  parted.performs performs .nil fun _ _ _ member => absurd member List.not_mem_nil

theorem Parted.createMetarecordWithUuid {w after : Writer} (parted : Parted w) {uuid : Uuid}
    {fields : List Field} {record : MetaRecord}
    (ran : w.createMetarecordWithUuid uuid fields = .ok (record, after)) : Parted after := by
  obtain ⟨op, performs, absent⟩ := createMetarecordWithUuid_spec parted.consistent ran
  refine parted.performs performs (pairwise_collapseDuplicateFields fields) fun holds => ?_
  have version_eq := (performs.performed.spec parted.consistent).2.2.1
  rw [performs.entity_eq, absent] at version_eq
  have owned := parted.consistent.owner_exists holds
  simp [version_eq] at owned

theorem Parted.setRecord {w after : Writer} (parted : Parted w) {uuid : Uuid}
    {fields : List Field} {record : MetaRecord}
    (ran : w.setRecord uuid fields = .ok (record, after)) : Parted after := by
  obtain ⟨op, performs⟩ := setRecord_spec parted.consistent ran
  exact parted.performs performs (pairwise_collapseDuplicateFields fields)
    fun holds left => absurd (parted.consistent.mem_rows.mpr holds) left

theorem Parted.setFieldAs {w after : Writer} (parted : Parted w) {opType : OpType} {uuid : Uuid}
    {name : String} {value : Value} (ran : w.setFieldAs opType uuid name value = .ok after) :
    Parted after := by
  obtain ⟨op, performs⟩ := Writer.setFieldAs_spec parted.consistent ran
  have single : [value].Pairwise fun one other => one.eq other = false :=
    List.pairwise_singleton ..
  exact parted.performs_named performs single

theorem Parted.setFieldMultiAs {w after : Writer} (parted : Parted w) {opType : OpType}
    {uuid : Uuid} {name : String} {values : List Value} {ids : List Int64}
    (ran : w.setFieldMultiAs opType uuid name values = .ok (ids, after)) : Parted after := by
  obtain ⟨op, performs⟩ := setFieldMultiAs_spec parted.consistent ran
  exact parted.performs_named performs (pairwise_collapseDuplicates values)

theorem Parted.clearFieldAs {w after : Writer} (parted : Parted w) {opType : OpType} {uuid : Uuid}
    {name : String} (ran : w.clearFieldAs opType uuid name = .ok after) : Parted after := by
  obtain ⟨-, rfl⟩ | ⟨op, performs⟩ := clearFieldAs_spec parted.consistent ran
  · exact parted
  · exact parted.deletes performs

/-- An append looks for a row with its value before it adds one. -/
theorem Parted.appendField {w after : Writer} (parted : Parted w) {uuid : Uuid} {name : String}
    {value : Value} {appended : Appended}
    (ran : w.appendField uuid name value = .ok (appended, after)) : Parted after := by
  by_cases twin : ∃ row, w.tx.primary.Holds uuid row ∧ row.name = name ∧ row.value.eq value
  · obtain ⟨quiet, -⟩ | ⟨op, performs⟩ := appendField_spec parted.consistent ran
    · exact parted.congr quiet.tx_eq
    · obtain ⟨row, holds, named, equal⟩ := twin
      simp only [Writer.appendField, Except.bind_eq_ok] at ran
      obtain ⟨-, -, noted, noting, typed, typing, rest⟩ := ran
      have same : typed.tx = w.tx := (validateValueType_spec typing).2.trans
        (validateTreeRef_spec parted.consistent noting).2.1
      split at rest
      next =>
        simp only [Except.pure_eq_ok, Prod.mk.injEq] at rest
        exact parted.congr (rest.2 ▸ same)
      next none_held =>
        rw [same, List.find?_eq_none] at none_held
        exact absurd equal (none_held row (parted.consistent.mem_rowsNamed.mpr ⟨holds, named⟩))
  · obtain ⟨quiet, -⟩ | ⟨op, performs⟩ := appendField_spec parted.consistent ran
    · exact parted.congr quiet.tx_eq
    · refine parted.performs performs (List.pairwise_singleton ..)
        fun {row} holds _ pair member named => ?_
      rw [List.mem_singleton.mp member] at named ⊢
      exact Bool.eq_false_iff.mpr fun equal => twin ⟨row, holds, named, equal⟩

/-- A row gives way to another that has no twin. -/
theorem Parted.replaces {w middle after : Writer} (parted : Parted w) {uuid : Uuid} {old : FieldRow}
    {newName : String} {value : Value} {fieldFirst fieldSecond : Option String}
    {typeFirst typeSecond : OpType} {gone put : NewOp}
    (removes : Performs w typeFirst uuid fieldFirst [old] [] gone middle)
    (puts : Performs middle typeSecond uuid fieldSecond [] [(newName, value)] put after)
    (single : twinRow w.tx.primary uuid old.id newName value = none) : Parted after := by
  refine (parted.deletes removes).performs puts (List.pairwise_singleton ..)
    fun {row} holds _ pair member named => ?_
  rw [List.mem_singleton.mp member] at named ⊢
  obtain ⟨-, swapped, -⟩ := removes.performed.spec parted.consistent
  have none_put : gone.after = [] := List.map_eq_nil_iff.mp removes.after_eq
  rw [removes.entity_eq, removes.before_eq, none_put] at swapped
  obtain ⟨-, new⟩ | ⟨held, left⟩ := swapped.holds_iff.mp holds
  · simp at new
  rw [twinRow, Option.map_eq_none_iff, List.find?_eq_none] at single
  have differ := single row (parted.consistent.mem_rowsNamed.mpr ⟨held, named⟩)
  simp only [decide_eq_true_eq, not_and] at differ
  refine Bool.eq_false_iff.mpr (differ fun ids => left ?_)
  have owned := swapped.held old (List.mem_singleton_self old)
  rw [(parted.consistent.holds_unique held owned ids).2]
  exact List.mem_singleton_self old

theorem Parted.replaceChecked {w after : Writer} (parted : Parted w) {uuid : Uuid} {old : FieldRow}
    {newName : String} {value : Value} (holds : w.tx.primary.Holds uuid old)
    (ran : w.replaceChecked uuid old newName value = .ok after) : Parted after := by
  have ran_whole := ran
  simp only [Writer.replaceChecked, Except.bind_eq_ok] at ran
  obtain ⟨-, -, noted, noting, typed, typing, ⟨⟩, single, -⟩ := ran
  have same : typed.tx = w.tx := (validateValueType_spec typing).2.trans
    (validateTreeRef_spec parted.consistent noting).2.1
  rw [same] at single
  obtain ⟨start, middle, gone, put, quiet, removes, puts⟩ :=
    replaceChecked_spec parted.consistent holds ran_whole
  refine (parted.congr quiet.tx_eq).replaces removes puts ?_
  rw [quiet.tx_eq]
  unfold rejectDuplicate at single
  split at single
  next => simp at single
  next none_held => exact none_held

theorem Parted.deleteFieldRows {w after : Writer} (parted : Parted w) {uuid : Uuid} {name : String}
    {rows : List FieldRow} {count : Nat}
    (held : ∀ row ∈ rows, w.tx.primary.Holds uuid row) (distinct : rows.Nodup)
    (ran : w.deleteFieldRows uuid name rows = .ok (count, after)) : Parted after := by
  obtain ⟨-, rfl⟩ | ⟨op, performs⟩ := deleteFieldRows_spec parted.consistent held distinct ran
  · exact parted
  · exact parted.deletes performs

/-! ### Retypes -/

theorem Parted.retypeRow {w after : Writer} (parted : Parted w) {uuid : Uuid} {row : FieldRow}
    {target : FieldType} (holds : w.tx.primary.Holds uuid row) {start summary : RetypeSummary}
    (ran : Writer.retypeRow uuid target (start, w) row = .ok (summary, after)) : Parted after := by
  unfold Writer.retypeRow at ran
  split at ran
  next =>
    simp only [Except.pure_eq_ok, Prod.mk.injEq] at ran
    exact ran.2 ▸ parted
  next =>
    simp only [Except.bind_eq_ok, Prod.exists] at ran
    obtain ⟨value, fellBack, noted, converting, rest⟩ := ran
    obtain ⟨-, same, -, checked, together⟩ := retypedValue_spec parted.consistent converting
    have parted_noted := parted.congr same
    rw [← same] at holds checked
    simp only [← same] at together
    split at rest
    next =>
      simp only [Except.pure_eq_ok, Prod.mk.injEq] at rest
      exact rest.2 ▸ parted_noted
    next =>
      split at rest
      next =>
        simp only [Except.bind_eq_ok, Except.pure_eq_ok, Prod.mk.injEq] at rest
        obtain ⟨removed, removing, -, rfl⟩ := rest
        obtain ⟨found, op, -, performs⟩ := deleteField_spec parted_noted.consistent removing
        exact parted_noted.deletes performs
      next single =>
        simp only [Except.bind_eq_ok, Except.pure_eq_ok, Prod.mk.injEq] at rest
        obtain ⟨replaced, replacing, -, rfl⟩ := rest
        obtain ⟨middle, gone, put, removes, puts, -⟩ :=
          replaceOwnedRow_spec parted_noted.consistent holds checked together replacing
        exact parted_noted.replaces removes puts (by simpa using single)

theorem Parted.retypeRows {w after : Writer} (parted : Parted w) {uuid : Uuid}
    {rows : List FieldRow} {target : FieldType}
    (listed : ∀ row ∈ rows, w.tx.primary.Holds uuid row) (distinct : rows.Nodup)
    {start summary : RetypeSummary}
    (ran : rows.foldlM (Writer.retypeRow uuid target) (start, w) = .ok (summary, after)) :
    Parted after := by
  induction rows generalizing w start with
  | nil =>
      rw [Except.foldlM_nil_eq_ok, Prod.mk.injEq] at ran
      exact ran.2 ▸ parted
  | cons head tail ih =>
      obtain ⟨⟨between, middle⟩, first, rest⟩ := Except.foldlM_cons_eq_ok.mp ran
      obtain ⟨absent, distinct⟩ := List.nodup_cons.mp distinct
      have held := listed head List.mem_cons_self
      refine ih (parted.retypeRow held first) (fun row member => ?_) distinct rest
      have holds := listed row (List.mem_cons_of_mem _ member)
      refine retypeRow_holds parted.consistent held first holds fun ids => absent ?_
      rwa [← (parted.consistent.holds_unique holds held ids).2]

theorem Parted.retypeField {w after : Writer} (parted : Parted w) {name : String}
    {target : FieldType} {summary : RetypeSummary}
    (ran : w.retypeField name target = .ok (summary, after)) : Parted after := by
  have forgot : Parted (w.forget name) := parted.congr rfl
  refine Except.foldlM_induction (fun held : RetypeSummary × Writer => Parted held.2) ?_ forgot ran
  rintro uuid - ⟨start, held⟩ ⟨between, next⟩ parted_held stepped
  exact parted_held.retypeRows
    (fun row member => (parted_held.consistent.mem_rowsNamed.mp member).1)
    (parted_held.consistent.nodup_rowsNamed uuid name) stepped

/-! ### Reverts, calls and commits -/

theorem Parted.setCell {w after : Writer} (parted : Parted w) {opType : OpType} {uuid : Uuid}
    {name : String} {before : List FieldRow} {undone : Bool}
    (ran : (if before = [] then do
        pure (true, ← w.clearFieldAs opType uuid name)
      else do
        let (_, w) ← w.setFieldMultiAs opType uuid name (before.map FieldRow.value)
        pure (true, w)) = .ok (undone, after)) : Parted after := by
  split at ran
  next =>
    simp only [Except.bind_eq_ok, Except.pure_eq_ok, Prod.mk.injEq] at ran
    obtain ⟨cleared, clearing, -, rfl⟩ := ran
    exact parted.clearFieldAs clearing
  next =>
    simp only [Except.bind_eq_ok, Except.pure_eq_ok, Prod.exists, Prod.mk.injEq] at ran
    obtain ⟨ids, written, writing, -, rfl⟩ := ran
    exact parted.setFieldMultiAs writing

theorem Parted.deleteFieldsValued {w after : Writer} (parted : Parted w) {uuid : Uuid}
    {name : String} {value : Value} {count : Nat}
    (ran : w.deleteFieldsValued uuid name value = .ok (count, after)) : Parted after := by
  refine parted.deleteFieldRows (fun row member => ?_) ?_ ran
  · exact (parted.consistent.mem_rowsNamed.mp (List.mem_of_mem_filter member)).1
  · exact (parted.consistent.nodup_rowsNamed uuid name).filter _

theorem Parted.applyInverse {w after : Writer} (parted : Parted w) {op : OpRow} {undone : Bool}
    (ran : w.applyInverse op = .ok (undone, after)) : Parted after := by
  unfold Writer.applyInverse at ran
  dsimp only at ran
  split at ran
  case h_1 =>
    split at ran
    · simp only [Except.pure_eq_ok, Prod.mk.injEq] at ran
      exact ran.2 ▸ parted
    · simp only [Except.bind_eq_ok, Except.pure_eq_ok, Prod.mk.injEq] at ran
      obtain ⟨removed, removing, -, rfl⟩ := ran
      obtain ⟨gone, performs, -⟩ := deleteMetarecord_spec parted.consistent removing
      exact parted.deletes performs
  case h_2 =>
    simp only [Except.bind_eq_ok, Except.pure_eq_ok, Prod.exists, Prod.mk.injEq] at ran
    obtain ⟨-, -, record, created, creating, -, rfl⟩ := ran
    exact parted.createMetarecordWithUuid creating
  case h_3 =>
    simp only [Except.bind_eq_ok, Except.pure_eq_ok, Prod.exists, Prod.mk.injEq] at ran
    obtain ⟨record, written, writing, -, rfl⟩ := ran
    exact parted.setRecord writing
  case h_4 =>
    simp only [Except.bind_eq_ok, Except.pure_eq_ok, Prod.mk.injEq] at ran
    obtain ⟨removed, removing, -, rfl⟩ := ran
    refine Except.foldlM_induction Parted (fun row _ held next parted_held stepped => ?_) parted
      removing
    simp only [Except.bind_eq_ok, Except.pure_eq_ok, Prod.exists] at stepped
    obtain ⟨count, next, deleting, rfl⟩ := stepped
    exact parted_held.deleteFieldsValued deleting
  case h_5 =>
    simp only [Except.bind_eq_ok, Except.pure_eq_ok, Prod.mk.injEq] at ran
    obtain ⟨written, writing, -, rfl⟩ := ran
    refine Except.foldlM_induction Parted (fun row _ held next parted_held stepped => ?_) parted
      writing
    simp only [Except.bind_eq_ok, Except.pure_eq_ok, Prod.exists] at stepped
    obtain ⟨appended, next, appending, rfl⟩ := stepped
    exact parted_held.appendField appending
  case h_6 => simp at ran
  case h_7 =>
    obtain ⟨name, -, rest⟩ := Except.bind_eq_ok.mp ran
    exact parted.setCell rest

theorem Parted.applyRevert {w after : Writer} (parted : Parted w) {ops : List OpRow} {done : Nat}
    (ran : w.applyRevert ops = .ok (done, after)) : Parted after := by
  simp only [Writer.applyRevert, Except.bind_eq_ok, Except.pure_eq_ok, Prod.exists,
    Prod.mk.injEq] at ran
  obtain ⟨count, undone, walking, -, rfl⟩ := ran
  have deferred : Parted w.deferTypeChecks := parted.congr rfl
  have walked : Parted undone := Except.foldlM_induction
    (fun held : Nat × Writer => Parted held.2) (by
      rintro op - ⟨before, held⟩ ⟨between, next⟩ parted_held stepped
      simp only [Except.bind_eq_ok, Except.pure_eq_ok, Prod.exists, Prod.mk.injEq] at stepped
      obtain ⟨inverted, next, inverting, -, rfl⟩ := stepped
      have noted : Parted { held with reverting := some op.id } := parted_held.congr rfl
      exact noted.applyInverse inverting) deferred walking
  exact walked.congr rfl

/-- Every call of a transaction keeps rows apart. -/
theorem Parted.call {w after : Writer} (parted : Parted w) {made : Call}
    (ran : w.call made = .ok after) : Parted after := by
  cases made with
  | createMetarecord uuid fields =>
      obtain ⟨⟨record, made⟩, creating, rfl⟩ := Except.map_eq_ok.mp ran
      exact parted.createMetarecordWithUuid creating
  | deleteMetarecord uuid =>
      obtain ⟨gone, performs, -⟩ := deleteMetarecord_spec parted.consistent ran
      exact parted.deletes performs
  | setRecord uuid fields =>
      obtain ⟨⟨record, made⟩, writing, rfl⟩ := Except.map_eq_ok.mp ran
      exact parted.setRecord writing
  | setFieldAs opType uuid name value => exact parted.setFieldAs ran
  | setFieldMultiAs opType uuid name values =>
      obtain ⟨⟨ids, made⟩, writing, rfl⟩ := Except.map_eq_ok.mp ran
      exact parted.setFieldMultiAs writing
  | appendField uuid name value =>
      obtain ⟨⟨appended, made⟩, writing, rfl⟩ := Except.map_eq_ok.mp ran
      exact parted.appendField writing
  | replaceField uuid id value =>
      obtain ⟨old, owned, replacing⟩ := Except.bind_eq_ok.mp ran
      exact parted.replaceChecked (getOwnedRow_spec parted.consistent owned).1 replacing
  | renameField uuid id newName value =>
      obtain ⟨old, owned, replacing⟩ := Except.bind_eq_ok.mp ran
      exact parted.replaceChecked (getOwnedRow_spec parted.consistent owned).1 replacing
  | retypeField name target =>
      obtain ⟨⟨summary, made⟩, retyping, rfl⟩ := Except.map_eq_ok.mp ran
      exact parted.retypeField retyping
  | deleteField uuid id =>
      obtain ⟨row, op, -, performs⟩ := deleteField_spec parted.consistent ran
      exact parted.deletes performs
  | deleteFieldsValued uuid name value =>
      obtain ⟨⟨count, made⟩, deleting, rfl⟩ := Except.map_eq_ok.mp ran
      exact parted.deleteFieldsValued deleting
  | deleteFieldsNamed uuid name =>
      obtain ⟨⟨count, made⟩, deleting, rfl⟩ := Except.map_eq_ok.mp ran
      exact parted.deleteFieldRows
        (fun _ member => (parted.consistent.mem_rowsNamed.mp member).1)
        (parted.consistent.nodup_rowsNamed uuid name) deleting
  | clearFieldAs opType uuid name => exact parted.clearFieldAs ran
  | revert ops =>
      obtain ⟨⟨done, made⟩, undoing, rfl⟩ := Except.map_eq_ok.mp ran
      exact parted.applyRevert undoing
  | setOrigin origin =>
      have after_eq := Except.pure_eq_ok.mp ran
      subst after_eq
      exact parted.congr rfl

end Writer

/-- A committed transaction keeps rows apart. -/
theorem Transaction.apart {transaction : Transaction} {store after : KvStore}
    [Externals] (consistent : store.tx.primary.Consistent) (apart : store.tx.primary.Apart)
    (ran : transaction.run store = .ok after) : after.tx.primary.Apart := by
  simp only [Transaction.run, Except.bind_eq_ok] at ran
  obtain ⟨w, opening, last, calling, committing⟩ := ran
  obtain ⟨tx_eq, -⟩ := Writer.beginIn_spec opening
  have start : Writer.Parted w := ⟨tx_eq ▸ consistent, tx_eq ▸ apart⟩
  have parted : Writer.Parted last := Except.foldlM_induction Writer.Parted
    (fun made _ before after parted stepped => parted.call stepped) start calling
  obtain ⟨after_tx, -⟩ := Writer.commit_spec committing
  rw [after_tx]
  exact parted.apart

theorem Reachable.apart [Externals] {kind : Transaction → Prop} {store : KvStore}
    (reached : Reachable kind store) : store.tx.primary.Apart := by
  induction reached with
  | new => exact fun _ _ _ holds => by simp [Primary.Holds] at holds
  | commit transaction reached _ ran ih =>
      obtain ⟨steps, history, -⟩ := reached.history
      exact Transaction.apart history.consistent ih ran

/-- In every reachable store, no metarecord holds two equal rows of a field. -/
theorem Reachable.distinct [Externals] {kind : Transaction → Prop} {store : KvStore}
    (reached : Reachable kind store) : store.tx.primary.Distinct := by
  obtain ⟨steps, history, -⟩ := reached.history
  exact reached.apart.distinct history.consistent.toIndexed

end Metafolder
