import Metafolder.Checks

/-!
# What the writer's methods do

One theorem for each method that writes: the operations it performs and records, each checked.
-/

namespace Metafolder

namespace KvTxn

variable [Externals]

theorem rowsNamed_perm {store : Primary} (consistent : store.Consistent) (uuid : Uuid)
    (name : String) : (store.rowsNamed uuid name).Perm
      ((store.rows uuid).filter fun row => (some name).all (· = row.name)) := by
  refine (List.perm_ext_iff_of_nodup (consistent.nodup_rowsNamed uuid name)
    ((consistent.nodup_rows uuid).filter _)).mpr fun row => ?_
  simp [consistent.mem_rowsNamed, consistent.mem_rows, eq_comm]

/-- Rows deleted by `delete_rows`, and rows inserted after that. -/
theorem moved_of_deleteRows {tx cleared filled : KvTxn} (consistent : tx.primary.Consistent)
    {uuid : Uuid} {version : UInt64} {name : Option String} {before rows : List FieldRow}
    (present : tx.primary.version uuid = some version)
    (taken : before.Perm ((tx.primary.rows uuid).filter fun row => name.all (· = row.name)))
    (clearing : tx.deleteRows uuid name = .ok cleared)
    (filling : cleared.insertEach uuid rows = .ok filled) :
    tx.Moved uuid (some version) before rows filled := by
  refine ⟨fun row member => ?_, ?_, ?_⟩
  · exact consistent.mem_rows.mp (List.mem_of_mem_filter (taken.mem_iff.mp member))
  · exact taken.nodup_iff.mpr ((consistent.nodup_rows uuid).filter _)
  · refine ⟨_, tx, cleared, taken.symm, ?_, ?_, filling⟩
    · simp [opened, present]
    · rwa [deleteRows_eq] at clearing

/-- Rows deleted by their ids. -/
theorem moved_of_deleteEach {tx cleared : KvTxn} {uuid : Uuid} {version : UInt64}
    {before : List FieldRow} (present : tx.primary.version uuid = some version)
    (held : ∀ row ∈ before, tx.primary.Holds uuid row) (distinct : before.Nodup)
    (clearing : tx.deleteEach before = .ok cleared) :
    tx.Moved uuid (some version) before [] cleared := by
  refine ⟨held, distinct, before, tx, cleared, .refl _, ?_, clearing, rfl⟩
  simp [opened, present]

/-- Rows inserted, none deleted. -/
theorem moved_of_insertEach {tx filled : KvTxn} {uuid : Uuid} {version : UInt64}
    {rows : List FieldRow} (present : tx.primary.version uuid = some version)
    (filling : tx.insertEach uuid rows = .ok filled) :
    tx.Moved uuid (some version) [] rows filled := by
  refine ⟨by simp, List.nodup_nil, [], tx, tx, .refl _, ?_, rfl, filling⟩
  simp [opened, present]

end KvTxn

namespace Writer

variable [Externals]

/-! ### Rows through the writer -/

theorem insertRow_eq_ok {w after : Writer} {uuid : Uuid} {name : String} {value : Value}
    {given : Option Int64} {row : FieldRow} :
    w.insertRow uuid name value given = .ok (row, after) ↔
      ∃ tx, w.tx.insertRow uuid name value given = .ok (row.id, tx) ∧ row.name = name ∧
        row.value = value ∧ after = { w with tx := tx } := by
  simp only [insertRow, Except.bind_eq_ok, Except.pure_eq_ok, Prod.exists, Prod.mk.injEq]
  constructor
  · rintro ⟨id, tx, inserted, rfl, rfl⟩
    exact ⟨tx, inserted, rfl, rfl, rfl⟩
  · rintro ⟨tx, inserted, rfl, rfl, rfl⟩
    exact ⟨row.id, tx, inserted, rfl, rfl⟩

theorem deleteRow_eq_ok {w after : Writer} {id : Int64} :
    w.deleteRow id = .ok after ↔ ∃ tx, w.tx.deleteRow id = .ok tx ∧ after = { w with tx := tx } := by
  simp only [deleteRow, Except.bind_eq_ok, Except.pure_eq_ok]
  exact exists_congr fun tx => and_congr_right fun _ => eq_comm

theorem deleteRows_eq_ok {w after : Writer} {uuid : Uuid} {name : Option String} :
    w.deleteRows uuid name = .ok after ↔
      ∃ tx, w.tx.deleteRows uuid name = .ok tx ∧ after = { w with tx := tx } := by
  simp only [deleteRows, Except.bind_eq_ok, Except.pure_eq_ok]
  exact exists_congr fun tx => and_congr_right fun _ => eq_comm

theorem getOwnedRow_spec {w : Writer} (consistent : w.tx.primary.Consistent) {uuid : Uuid}
    {id : Int64} {row : FieldRow} (ran : w.getOwnedRow uuid id = .ok row) :
    w.tx.primary.Holds uuid row ∧ row.id = id := by
  unfold getOwnedRow at ran
  split at ran
  next found =>
    rw [Except.pure_eq_ok] at ran
    subst ran
    exact ⟨consistent.mem_rows.mp (List.mem_of_find?_eq_some found),
      by simpa using List.find?_some found⟩
  next => simp at ran

/-- A loop that makes ready for each item and inserts its row. -/
theorem fill_spec {α : Type} (uuid : Uuid) (field : α → String × Value)
    (prepared : Writer → α → Writer → Prop)
    {step : List FieldRow × Writer → α → Outcome (List FieldRow × Writer)}
    (ready : ∀ {w item after}, w.tx.primary.Consistent → prepared w item after →
      Ready w after ∧ after.tx = w.tx)
    (stepped : ∀ {held item after}, step held item = .ok after → ∃ w row,
      prepared held.2 item w ∧
        w.insertRow uuid (field item).1 (field item).2 none = .ok (row, after.2) ∧
          after.1 = held.1 ++ [row])
    {items : List α} {start after : List FieldRow × Writer}
    (ran : items.foldlM step start = .ok after) (consistent : start.2.tx.primary.Consistent) :
    ∃ rows, after.1 = start.1 ++ rows ∧ Ready start.2 after.2 ∧
      start.2.tx.insertEach uuid rows = .ok after.2.tx ∧
      rows.map (fun row => (row.name, row.value)) = items.map field ∧
      ∀ item ∈ items, ∃ w made, prepared w item made ∧ w.tx.primary.Consistent ∧
        SameBut uuid w.tx.primary start.2.tx.primary ∧ Ready made after.2 := by
  induction items generalizing start with
  | nil =>
      rw [Except.foldlM_nil_eq_ok] at ran
      subst ran
      exact ⟨[], by simp, .refl _, rfl, rfl, by simp⟩
  | cons head tail ih =>
      obtain ⟨middle, first, rest⟩ := Except.foldlM_cons_eq_ok.mp ran
      obtain ⟨w, row, preparing, inserting, middle_eq⟩ := stepped first
      obtain ⟨made_ready, made_tx⟩ := ready consistent preparing
      obtain ⟨tx, inserted, named, valued, moved⟩ := insertRow_eq_ok.mp inserting
      rw [made_tx] at inserted
      obtain ⟨kept, put, -⟩ := KvTxn.insertRow_spec consistent inserted
      have placed : Ready w middle.2 := moved ▸ Ready.move w tx
      have middle_tx : middle.2.tx = tx := by rw [moved]
      have same : SameBut uuid middle.2.tx.primary start.2.tx.primary := by
        intro owner held other
        rw [middle_tx, put.holds_iff]
        simp [other]
      obtain ⟨rows, after_eq, later, filling, fields, others⟩ :=
        ih rest (middle_tx.symm ▸ kept)
      refine ⟨row :: rows, ?_, made_ready.trans (placed.trans later), ?_, ?_, ?_⟩
      · rw [after_eq, middle_eq, List.append_assoc, List.singleton_append]
      · have given := KvTxn.insertRow_given consistent inserted
        rw [middle_tx] at filling
        refine Except.foldlM_cons_eq_ok.mpr ⟨tx, ?_, filling⟩
        rw [named, valued, given]
        rfl
      · simp [named, valued, fields]
      · intro item member
        rcases List.mem_cons.mp member with rfl | member
        · exact ⟨start.2, w, preparing, consistent, SameBut.refl _ _, placed.trans later⟩
        · obtain ⟨at_item, made, preparing, whole, alike, ready_item⟩ := others item member
          exact ⟨at_item, made, preparing, whole, alike.trans same, ready_item⟩

/-- Rows deleted one after the other, through the writer. -/
theorem deleteEach_ready {w after : Writer} {rows : List FieldRow}
    (ran : rows.foldlM (fun w row => w.deleteRow row.id) w = .ok after) :
    Ready w after ∧ w.tx.deleteEach rows = .ok after.tx := by
  induction rows generalizing w with
  | nil =>
      rw [Except.foldlM_nil_eq_ok] at ran
      subst ran
      exact ⟨.refl w, rfl⟩
  | cons head tail ih =>
      obtain ⟨middle, first, rest⟩ := Except.foldlM_cons_eq_ok.mp ran
      obtain ⟨tx, deleted, rfl⟩ := deleteRow_eq_ok.mp first
      obtain ⟨ready, others⟩ := ih rest
      exact ⟨(Ready.move w tx).trans ready, Except.foldlM_cons_eq_ok.mpr ⟨tx, deleted, others⟩⟩

/-- A loop that makes ready for each item and leaves the data. -/
theorem note_spec {α : Type} {step : Writer → α → Outcome Writer}
    (stepped : ∀ {w item after}, w.tx.primary.Consistent → step w item = .ok after →
      Ready w after ∧ after.tx = w.tx)
    {items : List α} {w after : Writer} (consistent : w.tx.primary.Consistent)
    (ran : items.foldlM step w = .ok after) :
    Ready w after ∧ after.tx = w.tx ∧
      ∀ item ∈ items, ∃ at_item made, step at_item item = .ok made ∧ at_item.tx = w.tx ∧
        Ready made after := by
  induction items generalizing w with
  | nil =>
      rw [Except.foldlM_nil_eq_ok] at ran
      subst ran
      exact ⟨.refl w, rfl, by simp⟩
  | cons head tail ih =>
      obtain ⟨middle, first, rest⟩ := Except.foldlM_cons_eq_ok.mp ran
      obtain ⟨ready, same⟩ := stepped consistent first
      obtain ⟨later, kept, others⟩ := ih (same.symm ▸ consistent) rest
      refine ⟨ready.trans later, kept.trans same, fun item member => ?_⟩
      rcases List.mem_cons.mp member with rfl | member
      · exact ⟨w, middle, first, rfl, later⟩
      · obtain ⟨at_item, made, ran_item, tx_eq, ready_item⟩ := others item member
        exact ⟨at_item, made, ran_item, tx_eq.trans same, ready_item⟩

omit [Externals] in
theorem forgetEach_spec (w : Writer) (rows : List FieldRow) :
    Ready w (rows.foldl (fun w row => w.forget row.name) w) ∧
      (rows.foldl (fun w row => w.forget row.name) w).tx = w.tx := by
  induction rows generalizing w with
  | nil => exact ⟨.refl w, rfl⟩
  | cons head tail ih =>
      obtain ⟨ready, same⟩ := ih (w.forget head.name)
      exact ⟨(Ready.forget w head.name).trans ready, same⟩

/-! ### Positions put together -/

omit [Externals] in
/-- The rows an operation leaves beside those it puts, under one of their names, are those it
puts. -/
theorem together_of_filled {tx filled : KvTxn} {uuid : Uuid} {before rows : List FieldRow}
    (swapped : KvTxn.Swapped tx.primary uuid before rows filled.primary)
    (taken : ∀ row ∈ rows, ∀ {other}, tx.primary.Holds uuid other → other.name = row.name →
      other ∈ before)
    (pairs : ∀ row ∈ rows, ∀ other ∈ rows, other.name = row.name →
      Together row.value other.value) :
    ∀ row ∈ rows, ∀ {other}, filled.primary.Holds uuid other → other.name = row.name →
      Together row.value.stored other.value := by
  intro row member other holds named
  rcases swapped.holds_iff.mp holds with ⟨-, put⟩ | ⟨old, left⟩
  · obtain ⟨origin, origin_member, rfl⟩ := List.mem_map.mp put
    exact (pairs row member origin origin_member named).stored
  · exact absurd (taken row member old named) left

omit [Externals] in
/-- Fields that pass the one-position check stand together pairwise. -/
theorem together_of_each {uuid : Uuid} {rows : List FieldRow} {fields : List (String × Value)}
    (validated : validateOnePositionEach uuid fields = .ok ())
    (within : rows.map (fun row => (row.name, row.value)) ⊆ fields) :
    ∀ row ∈ rows, ∀ other ∈ rows, other.name = row.name → Together row.value other.value := by
  have symm : Std.Symm fun first second : String × Value =>
      first.1 = second.1 → Together first.2 second.2 :=
    ⟨fun _ _ together named => (together named.symm).symm⟩
  have pairs := (validateOnePositionEach_spec validated).forall_of_forall
    fun held _ _ => Together.refl held.2
  intro row member other other_member named
  exact pairs (within (List.mem_map.mpr ⟨row, member, rfl⟩))
    (within (List.mem_map.mpr ⟨other, other_member, rfl⟩)) named.symm

theorem Operation.forget {w after : Writer} {op : NewOp} (step : Operation w op after)
    (name : String) : Operation w op (after.forget name) where
  eq := by
    rw [Writer.forget, step.eq]
  performed := step.performed
  recorded := step.recorded
  headed := step.headed
  lost_subset := step.lost_subset
  loses_subset := step.loses_subset
  effects_eq := step.effects_eq
  noted_subset := step.noted_subset
  defers := step.defers
  checked := step.checked
  together := step.together

/-! ### Methods -/

/-- What a method that performs one operation says of it. -/
structure Performs (w : Writer) (opType : OpType) (uuid : Uuid) (fieldName : Option String)
    (before : List FieldRow) (values : List (String × Value)) (op : NewOp) (after : Writer) : Prop
    extends Operation w op after where
  /-- Its type. -/
  type_eq : op.opType = opType
  /-- Its metarecord. -/
  entity_eq : op.entity = uuid
  /-- Its field. -/
  field_eq : op.fieldName = fieldName
  /-- The rows it takes away. -/
  before_eq : op.before = before
  /-- What the rows it puts hold. -/
  after_eq : op.after.map (fun row => (row.name, row.value)) = values
  /-- The operation it undoes. -/
  reverts_eq : op.revertsOpId = w.reverting
  /-- Who it is for. -/
  origin_eq : op.origin = w.origin

/-- Rows moved, and recorded as one operation. -/
theorem performs_of_moved {w moved after : Writer} {opType : OpType} {uuid : Uuid}
    {fieldName : Option String} {versionBefore : Option UInt64} {before rows : List FieldRow}
    (consistent : w.tx.primary.Consistent) (ready : Ready w moved)
    (moves : w.tx.Moved uuid versionBefore before rows moved.tx)
    (logged : moved.logOp opType uuid fieldName versionBefore before rows = .ok after)
    (checked : ∀ row ∈ rows, Checked w.tx.primary moved uuid row.name row.value)
    (together : ∀ row ∈ rows, ∀ {other}, moved.tx.primary.Holds uuid other →
      other.name = row.name → Together row.value.stored other.value) :
    ∃ op, Performs w opType uuid fieldName before
      (rows.map fun row => (row.name, row.value)) op after :=
  ⟨_, operation_of_moved consistent ready moves logged checked together, rfl, rfl, rfl, rfl, rfl,
    by rw [ready.eq]; rfl, by rw [ready.eq]; rfl⟩

theorem setFieldAs_spec {w after : Writer} (consistent : w.tx.primary.Consistent)
    {opType : OpType} {uuid : Uuid} {name : String} {value : Value}
    (ran : w.setFieldAs opType uuid name value = .ok after) :
    ∃ op, Performs w opType uuid (some name) (w.tx.primary.rowsNamed uuid name) [(name, value)] op
      after := by
  simp only [setFieldAs, Except.bind_eq_ok, Except.pure_eq_ok, Prod.exists] at ran
  obtain ⟨noted, noting, typed, typing, version, versioned, cleared, clearing, row, filled,
    filling, logged, logging, rfl⟩ := ran
  obtain ⟨ready_noted, noted_tx, checked⟩ := validateTreeRef_spec consistent noting
  obtain ⟨ready_typed, typed_tx⟩ := validateValueType_spec typing
  rw [currentVersion_eq_ok, typed_tx, noted_tx] at versioned
  obtain ⟨tx, deleted, rfl⟩ := deleteRows_eq_ok.mp clearing
  rw [typed_tx, noted_tx] at deleted
  obtain ⟨full, inserted, named, valued, rfl⟩ := insertRow_eq_ok.mp filling
  have given := KvTxn.insertRow_given (KvTxn.deleteRows_spec consistent deleted).1 inserted
  have put : tx.insertEach uuid [row] = .ok full := by
    simp [KvTxn.insertEach, named, valued, given]
  have moves := KvTxn.moved_of_deleteRows consistent versioned
    (KvTxn.rowsNamed_perm consistent uuid name) deleted put
  have ready : Ready w { typed with tx := full } :=
    ready_noted.trans (ready_typed.trans (.move typed full))
  rw [typed_tx, noted_tx] at logging
  have checked_row : ∀ put ∈ [row], Checked w.tx.primary { typed with tx := full } uuid put.name
      put.value := by
    intro put member
    rw [List.mem_singleton.mp member, named, valued]
    exact (checked.mono ready_typed).mono (.move typed full)
  have together := together_of_filled (moves.spec consistent).2.1 (fun put member other holds same =>
    consistent.mem_rowsNamed.mpr ⟨holds, by
      rw [same, List.mem_singleton.mp member, named]⟩)
    (fun put member other other_member _ => by
      rw [List.mem_singleton.mp member, List.mem_singleton.mp other_member])
  obtain ⟨op, performs⟩ := performs_of_moved consistent ready moves logging checked_row together
  rw [List.map_singleton, named, valued] at performs
  refine ⟨op, ?_⟩
  split
  · exact { performs with toOperation := performs.toOperation.forget name }
  · exact performs

omit [Externals] in
/-- What is said of each field is said of each row put for one. -/
theorem forall_rows {rows : List FieldRow} {fields : List Field} {property : String → Value → Prop}
    (same : rows.map (fun row => (row.name, row.value)) =
      fields.map fun field => (field.name, field.value))
    (holds : ∀ field ∈ fields, property field.name field.value) :
    ∀ row ∈ rows, property row.name row.value := by
  intro row member
  have listed : (row.name, row.value) ∈ fields.map fun field => (field.name, field.value) :=
    same ▸ List.mem_map.mpr ⟨row, member, rfl⟩
  obtain ⟨field, field_member, equal⟩ := List.mem_map.mp listed
  rw [Prod.mk.injEq] at equal
  rw [← equal.1, ← equal.2]
  exact holds field field_member

theorem createMetarecordWithUuid_spec {w after : Writer} (consistent : w.tx.primary.Consistent)
    {uuid : Uuid} {fields : List Field} {record : MetaRecord}
    (ran : w.createMetarecordWithUuid uuid fields = .ok (record, after)) :
    ∃ op, Performs w .createRecord uuid none []
      ((collapseDuplicateFields fields).map fun field => (field.name, field.value)) op after ∧
        op.versionBefore = none := by
  simp only [createMetarecordWithUuid, Except.bind_eq_ok, Except.pure_eq_ok, Prod.exists,
    Prod.mk.injEq] at ran
  obtain ⟨⟨⟩, validated, noted, noting, tx, creating, rows, filled, filling, logged, logging, _, -,
    -, rfl⟩ := ran
  obtain ⟨ready_noted, noted_tx, each⟩ := note_spec
    (fun whole stepped => ⟨(validateTreeRef_spec whole stepped).1,
      (validateTreeRef_spec whole stepped).2.1⟩) consistent noting
  rw [noted_tx] at creating
  obtain ⟨kept, absent, -⟩ := KvTxn.createMetarecord_spec consistent creating
  obtain ⟨rows, rfl, ready_filled, put, values, -⟩ := fill_spec uuid
    (fun field : Field => (field.name, field.value))
    (fun w field after => w.validateValueType field.name field.value = .ok after)
    (fun _ typing => validateValueType_spec typing)
    (by
      intro held field after stepped
      simp only [Except.bind_eq_ok, Except.pure_eq_ok, Prod.exists] at stepped
      obtain ⟨typed, typing, row, filled, inserting, rfl⟩ := stepped
      exact ⟨typed, row, typing, inserting, rfl⟩) filling kept
  have ready : Ready w filled := ready_noted.trans ((Ready.move noted tx).trans ready_filled)
  have moves : w.tx.Moved uuid none [] rows filled.tx :=
    ⟨by simp, List.nodup_nil, [], tx, tx, .refl _, creating, rfl, put⟩
  have checked : ∀ row ∈ rows, Checked w.tx.primary filled uuid row.name row.value := by
    refine forall_rows values fun field member => ?_
    obtain ⟨at_field, made, noting_field, at_tx, ready_field⟩ := each field member
    have whole : at_field.tx.primary.Consistent := at_tx.symm ▸ consistent
    have checked := (validateTreeRef_spec whole noting_field).2.2
    rw [at_tx] at checked
    exact checked.mono (ready_field.trans ((Ready.move noted tx).trans ready_filled))
  have together := together_of_filled (moves.spec consistent).2.1
    (fun row _ other holds _ => by
      have owned := consistent.owner_exists holds
      simp [absent] at owned)
    (together_of_each validated (by rw [values]; exact List.Subset.refl _))
  obtain ⟨op, performs⟩ := performs_of_moved consistent ready moves logging checked together
  rw [values] at performs
  refine ⟨op, performs, ?_⟩
  have version_eq := (performs.performed.spec consistent).2.2.1
  rw [performs.entity_eq, absent] at version_eq
  exact version_eq.symm

theorem setRecord_spec {w after : Writer} (consistent : w.tx.primary.Consistent)
    {uuid : Uuid} {fields : List Field} {record : MetaRecord}
    (ran : w.setRecord uuid fields = .ok (record, after)) :
    ∃ op, Performs w .setRecord uuid none (w.tx.primary.rows uuid)
      ((collapseDuplicateFields fields).map fun field => (field.name, field.value)) op after := by
  simp only [setRecord, Except.bind_eq_ok, Except.pure_eq_ok, Prod.exists, Prod.mk.injEq] at ran
  obtain ⟨⟨⟩, validated, version, versioned, cleared, clearing, rows, filled, filling, logged,
    logging, _, -, -, rfl⟩ := ran
  rw [currentVersion_eq_ok] at versioned
  obtain ⟨tx, deleted, rfl⟩ := deleteRows_eq_ok.mp clearing
  obtain ⟨kept, gone⟩ := KvTxn.deleteRows_spec consistent deleted
  obtain ⟨ready_forgot, forgot_tx⟩ := forgetEach_spec { w with tx := tx } (w.tx.primary.rows uuid)
  have cleared_same : SameBut uuid tx.primary w.tx.primary := by
    intro owner row other
    rw [gone.holds_iff]
    simp [other]
  obtain ⟨rows, rfl, ready_filled, put, values, each⟩ := fill_spec uuid
    (fun field : Field => (field.name, field.value))
    (fun w field after => ∃ noted, w.validateTreeRef uuid field.name field.value = .ok noted ∧
      noted.validateValueType field.name field.value = .ok after)
    (by
      rintro w field after whole ⟨noted, noting, typing⟩
      obtain ⟨ready_noted, noted_tx, -⟩ := validateTreeRef_spec whole noting
      obtain ⟨ready_typed, typed_tx⟩ := validateValueType_spec typing
      exact ⟨ready_noted.trans ready_typed, typed_tx.trans noted_tx⟩)
    (by
      intro held field after stepped
      simp only [Except.bind_eq_ok, Except.pure_eq_ok, Prod.exists] at stepped
      obtain ⟨noted, noting, typed, typing, row, filled, inserting, rfl⟩ := stepped
      exact ⟨typed, row, ⟨noted, noting, typing⟩, inserting, rfl⟩) filling
    (forgot_tx.symm ▸ kept)
  simp only [forgot_tx] at put each
  have ready : Ready w filled := (Ready.move w tx).trans (ready_forgot.trans ready_filled)
  have taken : (w.tx.primary.rows uuid).Perm
      ((w.tx.primary.rows uuid).filter fun row => (none : Option String).all (· = row.name)) := by
    simp
  have moves := KvTxn.moved_of_deleteRows consistent versioned taken deleted put
  have checked : ∀ row ∈ rows, Checked w.tx.primary filled uuid row.name row.value := by
    refine forall_rows values fun field member => ?_
    obtain ⟨at_field, made, ⟨noted, noting, typing⟩, whole, same, ready_field⟩ := each field member
    have checked := (validateTreeRef_spec whole noting).2.2
    exact (checked.rebase (same.trans cleared_same)).mono
      ((validateValueType_spec typing).1.trans ready_field)
  have together := together_of_filled (moves.spec consistent).2.1
    (fun row _ other holds _ => consistent.mem_rows.mpr holds)
    (together_of_each validated (by rw [values]; exact List.Subset.refl _))
  obtain ⟨op, performs⟩ := performs_of_moved consistent ready moves logging checked together
  rw [values] at performs
  exact ⟨op, performs⟩

theorem setFieldMultiAs_spec {w after : Writer} (consistent : w.tx.primary.Consistent)
    {opType : OpType} {uuid : Uuid} {name : String} {values : List Value} {ids : List Int64}
    (ran : w.setFieldMultiAs opType uuid name values = .ok (ids, after)) :
    ∃ op, Performs w opType uuid (some name) (w.tx.primary.rowsNamed uuid name)
      ((collapseDuplicates values).1.map fun value => (name, value)) op after := by
  simp only [setFieldMultiAs, Except.bind_eq_ok, Except.pure_eq_ok, Prod.exists, Prod.mk.injEq]
    at ran
  obtain ⟨⟨⟩, validated, noted, noting, version, versioned, cleared, clearing, rows, filled,
    filling, logged, logging, -, rfl⟩ := ran
  obtain ⟨ready_noted, noted_tx, each⟩ := note_spec
    (by
      intro w value after whole stepped
      obtain ⟨noted, noting, typing⟩ := Except.bind_eq_ok.mp stepped
      obtain ⟨ready_noted, noted_tx, -⟩ := validateTreeRef_spec whole noting
      obtain ⟨ready_typed, typed_tx⟩ := validateValueType_spec typing
      exact ⟨ready_noted.trans ready_typed, typed_tx.trans noted_tx⟩) consistent noting
  rw [currentVersion_eq_ok, noted_tx] at versioned
  obtain ⟨tx, deleted, rfl⟩ := deleteRows_eq_ok.mp clearing
  rw [noted_tx] at deleted
  obtain ⟨kept, -⟩ := KvTxn.deleteRows_spec consistent deleted
  obtain ⟨rows, rfl, ready_filled, put, fields, -⟩ := fill_spec uuid
    (fun value => (name, value)) (fun w _ after => after = w)
    (by
      rintro w value after - rfl
      exact ⟨.refl _, rfl⟩)
    (by
      intro held value after stepped
      simp only [Except.bind_eq_ok, Except.pure_eq_ok, Prod.exists] at stepped
      obtain ⟨row, filled, inserting, rfl⟩ := stepped
      exact ⟨_, row, rfl, inserting, rfl⟩) filling kept
  have ready : Ready w filled := ready_noted.trans ((Ready.move noted tx).trans ready_filled)
  have moves := KvTxn.moved_of_deleteRows consistent versioned
    (KvTxn.rowsNamed_perm consistent uuid name) deleted put
  have origin : ∀ row ∈ rows, row.name = name ∧ row.value ∈ values := by
    intro row member
    have listed : (row.name, row.value) ∈
        (collapseDuplicates values).1.map fun value => (name, value) :=
      fields ▸ List.mem_map.mpr ⟨row, member, rfl⟩
    obtain ⟨value, kept_value, equal⟩ := List.mem_map.mp listed
    rw [Prod.mk.injEq] at equal
    exact ⟨equal.1.symm, equal.2 ▸ collapseDuplicates_subset values kept_value⟩
  have checked : ∀ row ∈ rows, Checked w.tx.primary filled uuid row.name row.value := by
    intro row member
    obtain ⟨named, given⟩ := origin row member
    obtain ⟨at_value, made, stepped, at_tx, ready_value⟩ := each row.value given
    obtain ⟨at_noted, noting_value, typing⟩ := Except.bind_eq_ok.mp stepped
    have whole : at_value.tx.primary.Consistent := at_tx.symm ▸ consistent
    have checked := (validateTreeRef_spec whole noting_value).2.2
    rw [at_tx] at checked
    rw [named]
    exact checked.mono ((validateValueType_spec typing).1.trans
      (ready_value.trans ((Ready.move noted tx).trans ready_filled)))
  have together := together_of_filled (moves.spec consistent).2.1
    (fun row member other holds same =>
      consistent.mem_rowsNamed.mpr ⟨holds, same.trans (origin row member).1⟩)
    (together_of_each validated (by
      intro held listed
      obtain ⟨row, member, rfl⟩ := List.mem_map.mp listed
      obtain ⟨named, given⟩ := origin row member
      exact List.mem_map.mpr ⟨row.value, given, by rw [named]⟩))
  rw [noted_tx] at logging
  obtain ⟨op, performs⟩ := performs_of_moved consistent ready moves logging checked together
  rw [fields] at performs
  refine ⟨op, ?_⟩
  split
  · exact { performs with toOperation := performs.toOperation.forget name }
  · exact performs

/-- Where an append finds its value held already, nothing is recorded. -/
theorem appendField_spec {w after : Writer} (consistent : w.tx.primary.Consistent)
    {uuid : Uuid} {name : String} {value : Value} {appended : Appended}
    (ran : w.appendField uuid name value = .ok (appended, after)) :
    (Quiet w after ∧ ∃ row ∈ w.tx.primary.rowsNamed uuid name, row.value.eq value) ∨
      ∃ op, Performs w .appendField uuid (some name) [] [(name, value)] op after := by
  simp only [appendField, Except.bind_eq_ok] at ran
  obtain ⟨⟨⟩, alone, noted, noting, typed, typing, rest⟩ := ran
  obtain ⟨ready_noted, noted_tx, checked⟩ := validateTreeRef_spec consistent noting
  obtain ⟨ready_typed, typed_tx⟩ := validateValueType_spec typing
  split at rest
  next twin found =>
    simp only [Except.pure_eq_ok, Prod.mk.injEq] at rest
    obtain ⟨-, rfl⟩ := rest
    refine .inl ⟨(ready_noted.trans ready_typed).quiet (typed_tx.trans noted_tx), twin, ?_, ?_⟩
    · have listed := List.mem_of_find?_eq_some found
      rwa [typed_tx, noted_tx] at listed
    · simpa using List.find?_some found
  next none_held =>
    simp only [Except.bind_eq_ok, Except.pure_eq_ok, Prod.exists, Prod.mk.injEq] at rest
    obtain ⟨version, versioned, row, filled, filling, logged, logging, -, rfl⟩ := rest
    rw [currentVersion_eq_ok, typed_tx, noted_tx] at versioned
    obtain ⟨full, inserted, named, valued, rfl⟩ := insertRow_eq_ok.mp filling
    rw [typed_tx, noted_tx] at inserted
    have given := KvTxn.insertRow_given consistent inserted
    have put : w.tx.insertEach uuid [row] = .ok full := by
      simp [KvTxn.insertEach, named, valued, given]
    have moves := KvTxn.moved_of_insertEach versioned put
    have ready : Ready w { typed with tx := full } :=
      ready_noted.trans (ready_typed.trans (.move typed full))
    have checked_row : ∀ put ∈ [row], Checked w.tx.primary { typed with tx := full } uuid put.name
        put.value := by
      intro put member
      rw [List.mem_singleton.mp member, named, valued]
      exact (checked.mono ready_typed).mono (.move typed full)
    have together : ∀ put ∈ [row], ∀ {other}, full.primary.Holds uuid other →
        other.name = put.name → Together put.value.stored other.value := by
      intro put member other holds same
      rw [List.mem_singleton.mp member] at same ⊢
      rcases (moves.spec consistent).2.1.holds_iff.mp holds with ⟨-, new⟩ | ⟨old, -⟩
      · rw [List.mem_singleton.mp new]
        exact Together.refl _
      · rw [valued]
        exact validateOnePosition_spec consistent alone old (same.trans named) (by simp)
    obtain ⟨op, performs⟩ := performs_of_moved consistent ready moves logging checked_row together
    rw [List.map_singleton, named, valued] at performs
    exact .inr ⟨op, performs⟩

/-- Rows taken away by their ids, and none put. -/
theorem performs_of_deleteEach {w moved after : Writer} {opType : OpType} {uuid : Uuid}
    {fieldName : Option String} {version : UInt64} {before : List FieldRow}
    (consistent : w.tx.primary.Consistent) (ready : Ready w moved)
    (present : w.tx.primary.version uuid = some version)
    (held : ∀ row ∈ before, w.tx.primary.Holds uuid row) (distinct : before.Nodup)
    (clearing : w.tx.deleteEach before = .ok moved.tx)
    (logged : moved.logOp opType uuid fieldName (some version) before [] = .ok after) :
    ∃ op, Performs w opType uuid fieldName before [] op after :=
  performs_of_moved consistent ready (KvTxn.moved_of_deleteEach present held distinct clearing)
    logged (by simp) (by simp)

/-- A row found by its id is taken away, and that is recorded. -/
theorem deleteOwned_spec {w cleared after : Writer} (consistent : w.tx.primary.Consistent)
    {uuid : Uuid} {row : FieldRow} {version : UInt64} (holds : w.tx.primary.Holds uuid row)
    (versioned : w.currentVersion uuid = .ok version) (clearing : w.deleteRow row.id = .ok cleared)
    (logging : cleared.logOp .deleteField uuid (some row.name) (some version) [row] [] =
      .ok after) :
    ∃ op, Performs w .deleteField uuid (some row.name) [row] [] op after := by
  obtain ⟨tx, deleted, rfl⟩ := deleteRow_eq_ok.mp clearing
  refine performs_of_deleteEach consistent (.move w tx) (currentVersion_eq_ok.mp versioned)
    (by simpa using holds) (List.nodup_singleton row) ?_ logging
  simp [KvTxn.deleteEach, deleted]

theorem deleteField_spec {w after : Writer} (consistent : w.tx.primary.Consistent)
    {uuid : Uuid} {id : Int64} (ran : w.deleteField uuid id = .ok after) :
    ∃ row op, row.id = id ∧ Performs w .deleteField uuid (some row.name) [row] [] op after := by
  simp only [deleteField, Except.bind_eq_ok, Except.pure_eq_ok] at ran
  obtain ⟨row, owned, version, versioned, cleared, clearing, logged, logging, rfl⟩ := ran
  obtain ⟨holds, rfl⟩ := getOwnedRow_spec consistent owned
  obtain ⟨op, performs⟩ := deleteOwned_spec consistent holds versioned clearing logging
  exact ⟨row, op, rfl, { performs with toOperation := performs.toOperation.forget row.name }⟩

/-- An operation leaves the rows of the other metarecords. -/
theorem Operation.sameBut {w after : Writer} {op : NewOp} (step : Operation w op after)
    (consistent : w.tx.primary.Consistent) :
    SameBut op.entity after.tx.primary w.tx.primary := by
  intro owner row other
  obtain ⟨-, swapped, -⟩ := step.performed.spec consistent
  rw [swapped.holds_iff]
  constructor
  · rintro (⟨same, -⟩ | ⟨holds, -⟩)
    · exact absurd same other
    · exact holds
  · intro holds
    refine .inr ⟨holds, fun member => other ?_⟩
    exact (consistent.holds_unique holds (swapped.held row member) rfl).1

/-- A row gives way to another under its id: it is taken away, and then the other is put. -/
theorem replaceOwnedRow_spec {w after : Writer} (consistent : w.tx.primary.Consistent)
    {uuid : Uuid} {old : FieldRow} {newName : String} {value : Value}
    (holds : w.tx.primary.Holds uuid old) (checked : Checked w.tx.primary w uuid newName value)
    (together : ∀ {other}, w.tx.primary.Holds uuid other → other.name = newName →
      other.id ≠ old.id → Together value.stored other.value)
    (ran : w.replaceOwnedRow uuid old newName value = .ok after) :
    ∃ middle gone put, Performs w .deleteField uuid (some old.name) [old] [] gone middle ∧
      Performs middle .appendField uuid (some newName) [] [(newName, value)] put after ∧
        put.after = [⟨old.id, newName, value⟩] := by
  simp only [replaceOwnedRow, Except.bind_eq_ok, Except.pure_eq_ok, Prod.exists] at ran
  obtain ⟨version, versioned, cleared, clearing, middle, logging, next, renewed, row, filled,
    filling, logged, recording, rfl⟩ := ran
  obtain ⟨gone, removes⟩ := deleteOwned_spec consistent holds versioned clearing logging
  obtain ⟨kept, swapped, -⟩ := removes.performed.spec consistent
  rw [removes.entity_eq, removes.before_eq] at swapped
  rw [currentVersion_eq_ok] at renewed
  obtain ⟨full, inserted, named, valued, rfl⟩ := insertRow_eq_ok.mp filling
  have same_id : old.id = row.id := by
    simpa using (KvTxn.insertRow_spec kept inserted).2.2
  rw [same_id] at inserted
  have put : middle.tx.insertEach uuid [row] = .ok full := by
    simp [KvTxn.insertEach, named, valued, inserted]
  have moves := KvTxn.moved_of_insertEach renewed put
  have same : SameBut uuid w.tx.primary middle.tx.primary := by
    intro owner row other
    have unchanged := removes.sameBut consistent
    rw [removes.entity_eq] at unchanged
    exact (unchanged other).symm
  have checked_row : ∀ put ∈ [row], Checked middle.tx.primary { middle with tx := full } uuid
      put.name put.value := by
    intro put member
    rw [List.mem_singleton.mp member, named, valued]
    exact ((checked.keep removes.noted_subset removes.defers).rebase same).mono (.move middle full)
  have beside : ∀ put ∈ [row], ∀ {other}, full.primary.Holds uuid other →
      other.name = put.name → Together put.value.stored other.value := by
    intro put member other holds_other same_name
    rw [List.mem_singleton.mp member] at same_name ⊢
    rcases (moves.spec kept).2.1.holds_iff.mp holds_other with ⟨-, new⟩ | ⟨left, -⟩
    · rw [List.mem_singleton.mp new]
      exact Together.refl _
    · rw [valued]
      have after_nil : gone.after = [] := List.map_eq_nil_iff.mp removes.after_eq
      rcases swapped.holds_iff.mp left with ⟨-, new⟩ | ⟨earlier, stays⟩
      · simp [after_nil] at new
      · refine together earlier (same_name.trans named) fun ids => stays ?_
        rw [(consistent.holds_unique earlier holds ids).2]
        exact List.mem_singleton_self old
  have moving : Ready middle { middle with tx := full } := .move middle full
  have step := operation_of_moved kept moving moves recording checked_row beside
  obtain ⟨op, performs, after_eq⟩ : ∃ op, Performs middle .appendField uuid (some newName) []
      [(newName, value)] op logged ∧ op.after = [⟨old.id, newName, value⟩] := by
    refine ⟨_, ⟨step, rfl, rfl, rfl, rfl, ?_, rfl, rfl⟩, ?_⟩
    · simp [recordedOp, named, valued]
    · rw [recordedOp, ← named, ← valued, same_id]
  refine ⟨middle, gone, op, removes, ?_, after_eq⟩
  split
  · exact { performs with
      toOperation := (performs.toOperation.forget old.name).forget newName }
  · exact performs

theorem replaceChecked_spec {w after : Writer} (consistent : w.tx.primary.Consistent)
    {uuid : Uuid} {old : FieldRow} {newName : String} {value : Value}
    (holds : w.tx.primary.Holds uuid old)
    (ran : w.replaceChecked uuid old newName value = .ok after) :
    ∃ noted middle gone put, Quiet w noted ∧
      Performs noted .deleteField uuid (some old.name) [old] [] gone middle ∧
      Performs middle .appendField uuid (some newName) [] [(newName, value)] put after := by
  simp only [replaceChecked, Except.bind_eq_ok] at ran
  obtain ⟨⟨⟩, alone, noted, noting, typed, typing, -, -, replacing⟩ := ran
  obtain ⟨ready_noted, noted_tx, checked⟩ := validateTreeRef_spec consistent noting
  obtain ⟨ready_typed, typed_tx⟩ := validateValueType_spec typing
  have same_tx : typed.tx = w.tx := typed_tx.trans noted_tx
  have quiet := (ready_noted.trans ready_typed).quiet same_tx
  rw [← same_tx] at consistent holds
  obtain ⟨middle, gone, put, removes, puts, -⟩ := replaceOwnedRow_spec consistent holds
    (by rw [same_tx]; exact checked.mono ready_typed)
    (fun holds_other same_name other_id => by
      rw [same_tx] at consistent holds_other
      exact validateOnePosition_spec consistent alone holds_other same_name (by simpa using other_id))
    replacing
  exact ⟨typed, middle, gone, put, quiet, removes, puts⟩

theorem deleteFieldRows_spec {w after : Writer} (consistent : w.tx.primary.Consistent)
    {uuid : Uuid} {name : String} {rows : List FieldRow} {count : Nat}
    (held : ∀ row ∈ rows, w.tx.primary.Holds uuid row) (distinct : rows.Nodup)
    (ran : w.deleteFieldRows uuid name rows = .ok (count, after)) :
    (rows = [] ∧ after = w) ∨
      ∃ op, Performs w .deleteField uuid (some name) rows [] op after := by
  unfold deleteFieldRows at ran
  split at ran
  next empty =>
    rw [Except.pure_eq_ok, Prod.mk.injEq] at ran
    exact .inl ⟨empty, ran.2.symm⟩
  next =>
    simp only [Except.bind_eq_ok, Except.pure_eq_ok, Prod.mk.injEq] at ran
    obtain ⟨version, versioned, cleared, clearing, logged, logging, -, rfl⟩ := ran
    obtain ⟨ready, deleted⟩ := deleteEach_ready clearing
    obtain ⟨op, performs⟩ := performs_of_deleteEach consistent ready
      (currentVersion_eq_ok.mp versioned) held distinct deleted logging
    exact .inr ⟨op, { performs with toOperation := performs.toOperation.forget name }⟩

theorem deleteFieldsValued_spec {w after : Writer} (consistent : w.tx.primary.Consistent)
    {uuid : Uuid} {name : String} {value : Value} {count : Nat}
    (ran : w.deleteFieldsValued uuid name value = .ok (count, after)) :
    let rows := (w.tx.primary.rowsNamed uuid name).filter fun row => row.value.eq value
    (rows = [] ∧ after = w) ∨
      ∃ op, Performs w .deleteField uuid (some name) rows [] op after := by
  refine deleteFieldRows_spec consistent (fun row member => ?_) ?_ ran
  · exact (consistent.mem_rowsNamed.mp (List.mem_of_mem_filter member)).1
  · exact (consistent.nodup_rowsNamed uuid name).filter _

theorem deleteFieldsNamed_spec {w after : Writer} (consistent : w.tx.primary.Consistent)
    {uuid : Uuid} {name : String} {count : Nat}
    (ran : w.deleteFieldsNamed uuid name = .ok (count, after)) :
    (w.tx.primary.rowsNamed uuid name = [] ∧ after = w) ∨
      ∃ op, Performs w .deleteField uuid (some name) (w.tx.primary.rowsNamed uuid name) [] op
        after :=
  deleteFieldRows_spec consistent (fun _ member => (consistent.mem_rowsNamed.mp member).1)
    (consistent.nodup_rowsNamed uuid name) ran

theorem clearFieldAs_spec {w after : Writer} (consistent : w.tx.primary.Consistent)
    {opType : OpType} {uuid : Uuid} {name : String}
    (ran : w.clearFieldAs opType uuid name = .ok after) :
    (w.tx.primary.rowsNamed uuid name = [] ∧ after = w) ∨
      ∃ op, Performs w opType uuid (some name) (w.tx.primary.rowsNamed uuid name) [] op after := by
  unfold clearFieldAs at ran
  dsimp only at ran
  split at ran
  next empty =>
    rw [Except.pure_eq_ok] at ran
    exact .inl ⟨empty, ran.symm⟩
  next =>
    simp only [Except.bind_eq_ok, Except.pure_eq_ok] at ran
    obtain ⟨version, versioned, cleared, clearing, logged, logging, rfl⟩ := ran
    rw [currentVersion_eq_ok] at versioned
    obtain ⟨tx, deleted, rfl⟩ := deleteRows_eq_ok.mp clearing
    have moves : w.tx.Moved uuid (some version) (w.tx.primary.rowsNamed uuid name) [] tx :=
      KvTxn.moved_of_deleteRows consistent versioned (KvTxn.rowsNamed_perm consistent uuid name)
        deleted rfl
    obtain ⟨op, performs⟩ := performs_of_moved consistent (.move w tx) moves logging (by simp)
      (by simp)
    exact .inr ⟨op, { performs with toOperation := performs.toOperation.forget name }⟩

theorem deleteMetarecord_spec {w after : Writer} (consistent : w.tx.primary.Consistent)
    {uuid : Uuid} (ran : w.deleteMetarecord uuid = .ok after) :
    ∃ op, Performs w .deleteRecord uuid none (w.tx.primary.rows uuid) [] op after ∧
      op.versionAfter = none := by
  simp only [deleteMetarecord, Except.bind_eq_ok, refuseIf_eq_ok, exists_const] at ran
  obtain ⟨version, versioned, -, tx, removing, logging⟩ := ran
  rw [currentVersion_eq_ok] at versioned
  obtain ⟨cleared, clearing, dropping⟩ : ∃ cleared,
      w.tx.deleteRows uuid none = .ok cleared ∧ cleared.dropped uuid = .ok tx :=
    Except.bind_eq_ok.mp removing
  obtain ⟨-, gone⟩ := KvTxn.deleteRows_spec consistent clearing
  have taken : (w.tx.primary.rows uuid).Perm
      ((w.tx.primary.rows uuid).filter fun row => (none : Option String).all (· = row.name)) := by
    simp
  have moves : w.tx.Moved uuid (some version) (w.tx.primary.rows uuid) [] cleared :=
    KvTxn.moved_of_deleteRows consistent versioned taken clearing rfl
  have absent : tx.primary.version uuid = none := by
    rw [KvTxn.dropped_primary dropping, KvTxn.version_dropMetarecord, if_pos rfl]
  have spec := logOp_spec logging
  have none_after : (recordedOp { w with tx := tx } .deleteRecord uuid none (some version)
      (w.tx.primary.rows uuid) []).versionAfter = none := by
    simp [recordedOp, absent]
  have tx_eq : after.tx = tx := by
    rw [spec.tx_eq, none_after]
  have noted_eq : after.noted = w.noted := by
    rw [spec.eq]
    rfl
  refine ⟨_, ⟨⟨?_, ⟨cleared, moves, ?_⟩, spec.recorded, spec.headed, spec.lost_subset,
    spec.loses_subset, spec.effects_eq, ?_, ?_, by simp [recordedOp], by simp [recordedOp]⟩,
    rfl, rfl, rfl, rfl, rfl, rfl, rfl⟩, none_after⟩
  · rw [spec.eq]
  · rw [KvTxn.Settled, none_after, tx_eq]
    refine ⟨rfl, fun row holds => ?_, dropping⟩
    simpa [KvTxn.Names, recordedOp] using (gone.holds_iff.mp holds).2
  · rw [noted_eq]
    exact List.Subset.refl _
  · rw [spec.eq]

end Writer

end Metafolder
