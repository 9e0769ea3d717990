import Metafolder.History

/-!
# One type for each field name

All rows of a field name hold values of one type, `Nothing` aside.  A write checks each value against
the types it has met, or against the store; a retype changes the rows of a name without the check,
and a revert puts the check off to its commit.
-/

namespace Metafolder

variable [Externals]

namespace Primary

/-- The rows of a field name hold values of a type, or `Nothing`. -/
def OfType (store : Primary) (name valueType : String) : Prop :=
  ∀ ⦃owner row⦄, store.Holds owner row → row.name = name → row.value.isNothing = false →
    row.value.typeStr = valueType

/-- The rows of a field name hold values of one type, `Nothing` aside. -/
def Single (store : Primary) (name : String) : Prop := ∃ valueType, store.OfType name valueType

omit [Externals] in
theorem OfType.mono {store after : Primary} {name valueType : String}
    (typed : store.OfType name valueType)
    (fewer : ∀ {owner row}, after.Holds owner row → store.Holds owner row) :
    after.OfType name valueType := fun _ _ holds => typed (fewer holds)

theorem Consistent.typeCount_pos {store : Primary} (consistent : store.Consistent)
    {name valueType : String} : 0 < store.typeCount name valueType ↔
      ∃ owner row, store.Holds owner row ∧ row.name = name ∧ row.value.typeStr = valueType := by
  simp only [typeCount, List.countP_pos_iff, Prod.exists, Table.mem_entries, decide_eq_true_eq]
  constructor
  · rintro ⟨key, row, found, named, typed⟩
    obtain ⟨owner, rfl⟩ := consistent.cell_keyed found
    exact ⟨owner, row, found, named, typed⟩
  · rintro ⟨owner, row, holds, named, typed⟩
    exact ⟨_, row, holds, named, typed⟩

/-- A field with no type but the one expected is of that type. -/
theorem Consistent.ofType_of_valueTypes {store : Primary} (consistent : store.Consistent)
    {name newType : String} {types : List String} (single : store.Single name)
    (read : store.valueTypes name = .ok types) (first : ¬types.head?.any (· ≠ newType)) :
    store.OfType name newType := by
  obtain ⟨listed, read_listed, -, mem_listed⟩ := consistent.valueTypes_spec name
  rw [read, Except.ok.injEq] at read_listed
  subst read_listed
  obtain ⟨established, typed⟩ := single
  intro owner row holds named other
  have differ : ∀ {value : Value}, value.isNothing = false ↔ value.typeStr ≠ "nothing" := by
    intro value
    rw [ne_eq, Value.typeStr_eq_nothing_iff, ← Value.isNothing_iff, Bool.not_eq_true]
  have member : row.value.typeStr ∈ types :=
    (mem_listed _).mpr ⟨differ.mp other, consistent.typeCount_pos.mpr ⟨owner, row, holds, named, rfl⟩⟩
  cases types with
  | nil => simp at member
  | cons head rest =>
      have head_eq : head = newType := by simpa using first
      obtain ⟨head_other, counted⟩ := (mem_listed head).mp List.mem_cons_self
      obtain ⟨holder, held, holds_held, held_named, held_typed⟩ :=
        consistent.typeCount_pos.mp counted
      have held_other : held.value.isNothing = false := by
        rw [differ, held_typed]
        exact head_other
      rw [typed holds named other, ← typed holds_held held_named held_other, held_typed, head_eq]

/-- A field that reads at most one type has one. -/
theorem Consistent.single_of_valueTypes {store : Primary} (consistent : store.Consistent)
    {name : String} {types : List String} (read : store.valueTypes name = .ok types)
    (few : types.length ≤ 1) : store.Single name := by
  obtain ⟨listed, read_listed, -, mem_listed⟩ := consistent.valueTypes_spec name
  rw [read, Except.ok.injEq] at read_listed
  subst read_listed
  refine ⟨types.headD "", fun owner row holds named other => ?_⟩
  have member : row.value.typeStr ∈ types := by
    refine (mem_listed _).mpr ⟨fun nothing => ?_,
      consistent.typeCount_pos.mpr ⟨owner, row, holds, named, rfl⟩⟩
    rw [Value.typeStr_eq_nothing_iff] at nothing
    simp [nothing, Value.isNothing] at other
  cases types with
  | nil => cases member
  | cons only rest =>
      cases rest with
      | nil => simpa using member
      | cons second others => simp at few

end Primary

namespace Writer

open Primary

/-- The types a write in progress has met are those of the rows, and each field name has one type,
unless its check is put off, or it is the free one. -/
structure Typed (free : Option String) (w : Writer) : Prop where
  /-- The primary tables agree. -/
  consistent : w.tx.primary.Consistent
  /-- A type met is that of the rows. -/
  cached : ∀ {name valueType}, w.fieldTypes name = some valueType →
    some name ≠ free ∧ w.tx.primary.OfType name valueType
  /-- A field name has one type. -/
  single : ∀ {name}, some name ≠ free → name ∉ w.deferredTypes.getD [] → w.tx.primary.Single name
  /-- A write that puts its checks off remembers no type. -/
  idle : w.deferredTypes.isSome → ∀ name, w.fieldTypes name = none

/-- A value may be written under a name: its type was met, or its check is put off. -/
def Admits (free : Option String) (w : Writer) (name : String) (value : Value) : Prop :=
  value.isNothing ∨ some name = free ∨ name ∈ w.deferredTypes.getD [] ∨
    w.fieldTypes name = some value.typeStr

/-- Rows may go; the types met stay. -/
structure Shrinks (w after : Writer) : Prop where
  /-- The primary tables agree. -/
  consistent : after.tx.primary.Consistent
  /-- The types met stay. -/
  fieldTypes_eq : after.fieldTypes = w.fieldTypes
  /-- The checks put off stay. -/
  deferredTypes_eq : after.deferredTypes = w.deferredTypes
  /-- No row is new. -/
  holds : ∀ {owner row}, after.tx.primary.Holds owner row → w.tx.primary.Holds owner row

variable {free : Option String}

theorem Typed.shrinks {w after : Writer} (typed : Typed free w) (shrinks : Shrinks w after) :
    Typed free after where
  consistent := shrinks.consistent
  cached met := by
    rw [shrinks.fieldTypes_eq] at met
    exact ⟨(typed.cached met).1, (typed.cached met).2.mono shrinks.holds⟩
  single other checked := by
    rw [shrinks.deferredTypes_eq] at checked
    obtain ⟨valueType, of_type⟩ := typed.single other checked
    exact ⟨valueType, of_type.mono shrinks.holds⟩
  idle defers := by
    rw [shrinks.deferredTypes_eq] at defers
    rw [shrinks.fieldTypes_eq]
    exact typed.idle defers

theorem Admits.shrinks {w after : Writer} {name : String} {value : Value}
    (admits : Admits free w name value) (shrinks : Shrinks w after) :
    Admits free after name value := by
  rw [Admits, shrinks.deferredTypes_eq, shrinks.fieldTypes_eq]
  exact admits

theorem Shrinks.trans {w middle after : Writer} (one : Shrinks w middle)
    (two : Shrinks middle after) : Shrinks w after where
  consistent := two.consistent
  fieldTypes_eq := two.fieldTypes_eq.trans one.fieldTypes_eq
  deferredTypes_eq := two.deferredTypes_eq.trans one.deferredTypes_eq
  holds held := one.holds (two.holds held)

omit [Externals] in
theorem fieldTypes_forget (w : Writer) (name : String) :
    (w.forget name).fieldTypes = Function.update w.fieldTypes name none := rfl

theorem Typed.forget {w : Writer} (typed : Typed free w) (name : String) :
    Typed free (w.forget name) where
  consistent := typed.consistent
  cached {other valueType} met := by
    by_cases same : other = name
    · subst same
      simp [fieldTypes_forget] at met
    · rw [fieldTypes_forget, Function.update_of_ne same] at met
      exact typed.cached met
  single := typed.single
  idle defers other := by
    by_cases same : other = name
    · subst same
      simp [fieldTypes_forget]
    · rw [fieldTypes_forget, Function.update_of_ne same]
      exact typed.idle defers other

/-- A row whose value is admitted. -/
theorem Typed.insert {w after : Writer} (typed : Typed free w) {uuid : Uuid} {name : String}
    {value : Value} {given : Option Int64} {row : FieldRow} (admits : Admits free w name value)
    (ran : w.insertRow uuid name value given = .ok (row, after)) : Typed free after ∧
      ∀ {other otherValue}, Admits free w other otherValue → Admits free after other otherValue := by
  obtain ⟨tx, inserted, named, valued, rfl⟩ := insertRow_eq_ok.mp ran
  obtain ⟨kept, put, -⟩ := KvTxn.insertRow_spec typed.consistent inserted
  have of_type : ∀ {other valueType}, w.tx.primary.OfType other valueType →
      (other = name → value.isNothing = false → value.typeStr = valueType) →
        tx.primary.OfType other valueType := by
    intro other valueType holds_type same owner held holds held_named present
    rcases put.holds_iff.mp holds with ⟨-, rfl⟩ | old
    · rw [FieldRow.stored_value, Value.isNothing_stored] at present
      rw [FieldRow.stored_value, Value.typeStr_stored]
      exact same held_named.symm present
    · exact holds_type old held_named present
  refine ⟨⟨kept, fun {other valueType} met => ?_, fun {other} not_free checked => ?_, typed.idle⟩,
    id⟩
  · obtain ⟨not_free, earlier⟩ := typed.cached met
    refine ⟨not_free, of_type earlier fun same present => ?_⟩
    subst same
    rcases admits with nothing | free_name | deferred | known
    · rw [nothing] at present
      contradiction
    · exact absurd free_name not_free
    · have idle := typed.idle (by cases eq : w.deferredTypes <;> simp_all) other
      rw [met] at idle
      contradiction
    · rw [met, Option.some.injEq] at known
      exact known.symm
  · obtain ⟨valueType, earlier⟩ := typed.single not_free checked
    by_cases same : other = name
    · subst same
      rcases admits with nothing | free_name | deferred | known
      · refine ⟨valueType, of_type earlier fun _ present => ?_⟩
        rw [nothing] at present
        contradiction
      · exact absurd free_name not_free
      · exact absurd deferred checked
      · exact ⟨value.typeStr, of_type (typed.cached known).2 fun _ _ => rfl⟩
    · exact ⟨valueType, of_type earlier fun same_name => absurd same_name same⟩

/-- A value that passes its check is admitted, and those admitted before still are. -/
theorem Typed.validate {w after : Writer} (typed : Typed none w) {name : String} {value : Value}
    (ran : w.validateValueType name value = .ok after) : Typed none after ∧
      Admits none after name value ∧
      ∀ {other otherValue}, Admits none w other otherValue → Admits none after other otherValue := by
  unfold validateValueType at ran
  split at ran
  next nothing =>
    rw [Except.pure_eq_ok] at ran
    subst ran
    exact ⟨typed, .inl nothing, id⟩
  next present =>
    split at ran
    next deferred defers =>
      rw [Except.pure_eq_ok] at ran
      subst ran
      have idle := typed.idle (by rw [defers]; rfl)
      have grows : ∀ {other}, other ∈ w.deferredTypes.getD [] → other ∈ deferred.insert name := by
        intro other member
        rw [defers] at member
        exact List.mem_insert_of_mem member
      refine ⟨⟨typed.consistent, typed.cached, fun not_free checked => ?_, fun _ => idle⟩, ?_, ?_⟩
      · exact typed.single not_free fun member => checked (grows member)
      · exact .inr (.inr (.inl (List.mem_insert_self ..)))
      · rintro other otherValue (nothing | free_name | member | known)
        · exact .inl nothing
        · exact .inr (.inl free_name)
        · exact .inr (.inr (.inl (grows member)))
        · rw [idle] at known
          contradiction
    next eager =>
      dsimp only at ran
      rw [encodeValue_valueType] at ran
      split at ran
      next established met =>
        simp only [Except.bind_eq_ok, refuseIf_eq_ok, exists_const, Except.pure_eq_ok,
          not_not] at ran
        obtain ⟨same, rfl⟩ := ran
        exact ⟨typed, .inr (.inr (.inr (met.trans (congrArg some same)))), id⟩
      next unmet =>
        simp only [Except.bind_eq_ok, refuseIf_eq_ok, exists_const, Except.pure_eq_ok] at ran
        obtain ⟨types, read, first, rfl⟩ := ran
        have not_deferred : name ∉ w.deferredTypes.getD [] := by simp [eager]
        have of_type := typed.consistent.ofType_of_valueTypes
          (typed.single (by simp) not_deferred) read first
        refine ⟨⟨typed.consistent, fun {other valueType} known => ?_, typed.single,
          by simp [eager]⟩, ?_, ?_⟩
        · dsimp only at known
          by_cases same : other = name
          · subst same
            rw [Function.update_self, Option.some.injEq] at known
            exact ⟨by simp, known ▸ of_type⟩
          · rw [Function.update_of_ne same] at known
            exact typed.cached known
        · exact .inr (.inr (.inr (Function.update_self ..)))
        · rintro other otherValue (nothing | free_name | member | known)
          · exact .inl nothing
          · exact .inr (.inl free_name)
          · exact .inr (.inr (.inl member))
          · refine .inr (.inr (.inr ?_))
            have other_name : other ≠ name := by
              rintro rfl
              rw [unmet] at known
              contradiction
            exact (Function.update_of_ne other_name ..).trans known

/-! ### The steps of a method -/

theorem Shrinks.refl {w : Writer} (consistent : w.tx.primary.Consistent) : Shrinks w w :=
  ⟨consistent, rfl, rfl, id⟩

theorem shrinks_deleteRow {w after : Writer} (consistent : w.tx.primary.Consistent) {id : Int64}
    (ran : w.deleteRow id = .ok after) : Shrinks w after := by
  obtain ⟨tx, deleted, rfl⟩ := deleteRow_eq_ok.mp ran
  obtain ⟨kept, gone⟩ := KvTxn.deleteRow_cleared consistent deleted
  exact ⟨kept, rfl, rfl, fun holds => (gone.holds_iff.mp holds).1⟩

theorem shrinks_deleteRows {w after : Writer} (consistent : w.tx.primary.Consistent) {uuid : Uuid}
    {name : Option String} (ran : w.deleteRows uuid name = .ok after) : Shrinks w after := by
  obtain ⟨tx, deleted, rfl⟩ := deleteRows_eq_ok.mp ran
  obtain ⟨kept, gone⟩ := KvTxn.deleteRows_spec consistent deleted
  exact ⟨kept, rfl, rfl, fun holds => (gone.holds_iff.mp holds).1⟩

theorem shrinks_logOp {w after : Writer} (consistent : w.tx.primary.Consistent) {opType : OpType}
    {entity : Uuid} {fieldName : Option String} {versionBefore : Option UInt64}
    {before rows : List FieldRow}
    (ran : w.logOp opType entity fieldName versionBefore before rows = .ok after) :
    Shrinks w after := by
  have spec := logOp_spec ran
  have tx_eq := spec.tx_eq
  refine ⟨?_, by rw [spec.eq], by rw [spec.eq], fun {owner row} holds => ?_⟩
  · rw [tx_eq]
    split
    · exact consistent.setVersion _ _
    · exact consistent
  · rw [tx_eq] at holds
    split at holds
    · exact KvTxn.holds_setVersion.mp holds
    · exact holds

theorem shrinks_validateTreeRef {w after : Writer} (consistent : w.tx.primary.Consistent)
    {uuid : Uuid} {name : String} {value : Value}
    (ran : w.validateTreeRef uuid name value = .ok after) : Shrinks w after := by
  unfold validateTreeRef at ran
  split at ran
  next =>
    rw [Except.pure_eq_ok] at ran
    subst ran
    exact .refl consistent
  next =>
    obtain ⟨-, -, rest⟩ := Except.bind_eq_ok.mp ran
    split at rest
    next =>
      rw [Except.pure_eq_ok] at rest
      subst rest
      exact ⟨consistent, rfl, rfl, id⟩
    next =>
      simp only [Except.bind_eq_ok, Except.pure_eq_ok] at rest
      obtain ⟨-, -, rfl⟩ := rest
      exact .refl consistent

theorem shrinks_foldlM {α : Type} {step : Writer → α → Outcome Writer}
    (stepped : ∀ {w item after}, w.tx.primary.Consistent → step w item = .ok after →
      Shrinks w after) {items : List α} {w after : Writer} (consistent : w.tx.primary.Consistent)
    (ran : items.foldlM step w = .ok after) : Shrinks w after :=
  Except.foldlM_induction (Shrinks w)
    (fun _ _ _ _ before made => before.trans (stepped before.consistent made))
    (.refl consistent) ran

theorem Typed.forgetEach {w : Writer} (typed : Typed free w) (rows : List FieldRow) :
    Typed free (rows.foldl (fun w row => w.forget row.name) w) := by
  induction rows generalizing w with
  | nil => exact typed
  | cons head tail ih => exact ih (typed.forget head.name)

/-- Values that pass their check one after the other are admitted together. -/
theorem Typed.validateEach {w after : Writer} (typed : Typed none w) {uuid : Uuid} {name : String}
    {values : List Value} (ran : values.foldlM (fun w value => do
      let w ← w.validateTreeRef uuid name value
      w.validateValueType name value) w = .ok after) :
    Typed none after ∧ (∀ value ∈ values, Admits none after name value) ∧
      ∀ {other otherValue}, Admits none w other otherValue → Admits none after other otherValue := by
  induction values generalizing w with
  | nil =>
      rw [Except.foldlM_nil_eq_ok] at ran
      subst ran
      exact ⟨typed, by simp, id⟩
  | cons head tail ih =>
      obtain ⟨middle, first, rest⟩ := Except.foldlM_cons_eq_ok.mp ran
      obtain ⟨noted, noting, typing⟩ := Except.bind_eq_ok.mp first
      have shrinks := shrinks_validateTreeRef typed.consistent noting
      obtain ⟨typed_head, admits_head, kept⟩ := (typed.shrinks shrinks).validate typing
      obtain ⟨typed_rest, admits_rest, kept_rest⟩ := ih typed_head rest
      refine ⟨typed_rest, fun value member => ?_, fun admits =>
        kept_rest (kept (admits.shrinks shrinks))⟩
      rcases List.mem_cons.mp member with rfl | member
      · exact kept_rest admits_head
      · exact admits_rest value member

/-- Values admitted together are inserted one after the other. -/
theorem Typed.insertEach {start after : List FieldRow × Writer} (typed : Typed none start.2)
    {uuid : Uuid} {name : String} {values : List Value}
    (admits : ∀ value ∈ values, Admits none start.2 name value)
    (ran : values.foldlM (fun held value => do
      let (row, w) ← held.2.insertRow uuid name value none
      pure (held.1 ++ [row], w)) start = .ok after) : Typed none after.2 := by
  induction values generalizing start with
  | nil =>
      rw [Except.foldlM_nil_eq_ok] at ran
      exact ran ▸ typed
  | cons head tail ih =>
      obtain ⟨middle, first, rest⟩ := Except.foldlM_cons_eq_ok.mp ran
      simp only [Except.bind_eq_ok, Except.pure_eq_ok, Prod.exists] at first
      obtain ⟨row, inserted, inserting, rfl⟩ := first
      obtain ⟨typed_head, kept⟩ := typed.insert (admits head List.mem_cons_self) inserting
      exact ih typed_head (fun value member => kept (admits value (List.mem_cons_of_mem _ member)))
        rest

/-! ### Methods -/

theorem Typed.createMetarecordWithUuid {w after : Writer} (typed : Typed none w) {uuid : Uuid}
    {fields : List Field} {record : MetaRecord}
    (ran : w.createMetarecordWithUuid uuid fields = .ok (record, after)) : Typed none after := by
  simp only [Writer.createMetarecordWithUuid, Except.bind_eq_ok, Except.pure_eq_ok, Prod.exists,
    Prod.mk.injEq] at ran
  obtain ⟨-, -, noted, noting, tx, creating, rows, filled, filling, logged, logging, -, -, -,
    rfl⟩ := ran
  have typed_noted := typed.shrinks (shrinks_foldlM
    (fun whole stepped => shrinks_validateTreeRef whole stepped) typed.consistent noting)
  obtain ⟨kept, -, same⟩ := KvTxn.createMetarecord_spec typed_noted.consistent creating
  have created : Shrinks noted { noted with tx := tx } := by
    refine ⟨kept, rfl, rfl, fun holds => ?_⟩
    change tx.primary.Holds _ _ at holds
    rw [same] at holds
    exact holds
  have typed_filled : Typed none filled := Except.foldlM_induction
    (fun held : List FieldRow × Writer => Typed none held.2) (by
      intro field _ held next typed_held stepped
      simp only [Except.bind_eq_ok, Except.pure_eq_ok, Prod.exists] at stepped
      obtain ⟨typed_w, typing, row, inserted, inserting, rfl⟩ := stepped
      obtain ⟨typed_field, admits, -⟩ := typed_held.validate typing
      exact (typed_field.insert admits inserting).1) (typed_noted.shrinks created) filling
  exact typed_filled.shrinks (shrinks_logOp typed_filled.consistent logging)

theorem Typed.setRecord {w after : Writer} (typed : Typed none w) {uuid : Uuid}
    {fields : List Field} {record : MetaRecord}
    (ran : w.setRecord uuid fields = .ok (record, after)) : Typed none after := by
  simp only [Writer.setRecord, Except.bind_eq_ok, Except.pure_eq_ok, Prod.exists,
    Prod.mk.injEq] at ran
  obtain ⟨-, -, version, -, cleared, clearing, rows, filled, filling, logged, logging, -, -, -,
    rfl⟩ := ran
  have typed_cleared := typed.shrinks (shrinks_deleteRows typed.consistent clearing)
  have typed_filled : Typed none filled := Except.foldlM_induction
    (fun held : List FieldRow × Writer => Typed none held.2) (by
      intro field _ held next typed_held stepped
      simp only [Except.bind_eq_ok, Except.pure_eq_ok, Prod.exists] at stepped
      obtain ⟨noted, noting, typed_w, typing, row, inserted, inserting, rfl⟩ := stepped
      have typed_noted := typed_held.shrinks (shrinks_validateTreeRef typed_held.consistent noting)
      obtain ⟨typed_field, admits, -⟩ := typed_noted.validate typing
      exact (typed_field.insert admits inserting).1) (typed_cleared.forgetEach _) filling
  exact typed_filled.shrinks (shrinks_logOp typed_filled.consistent logging)

theorem Typed.setFieldAs {w after : Writer} (typed : Typed none w) {opType : OpType} {uuid : Uuid}
    {name : String} {value : Value} (ran : w.setFieldAs opType uuid name value = .ok after) :
    Typed none after := by
  simp only [Writer.setFieldAs, Except.bind_eq_ok, Except.pure_eq_ok, Prod.exists] at ran
  obtain ⟨noted, noting, typed_w, typing, version, -, cleared, clearing, row, filled, filling,
    logged, logging, rfl⟩ := ran
  have typed_noted := typed.shrinks (shrinks_validateTreeRef typed.consistent noting)
  obtain ⟨typed_value, admits, -⟩ := typed_noted.validate typing
  have shrinks := shrinks_deleteRows typed_value.consistent clearing
  have typed_filled := ((typed_value.shrinks shrinks).insert (admits.shrinks shrinks) filling).1
  have typed_logged := typed_filled.shrinks (shrinks_logOp typed_filled.consistent logging)
  split
  · exact typed_logged.forget name
  · exact typed_logged

theorem Typed.setFieldMultiAs {w after : Writer} (typed : Typed none w) {opType : OpType}
    {uuid : Uuid} {name : String} {values : List Value} {ids : List Int64}
    (ran : w.setFieldMultiAs opType uuid name values = .ok (ids, after)) : Typed none after := by
  simp only [Writer.setFieldMultiAs, Except.bind_eq_ok, Except.pure_eq_ok, Prod.exists,
    Prod.mk.injEq] at ran
  obtain ⟨-, -, noted, noting, version, -, cleared, clearing, rows, filled, filling, logged,
    logging, -, rfl⟩ := ran
  obtain ⟨typed_noted, admits, -⟩ := typed.validateEach noting
  have shrinks := shrinks_deleteRows typed_noted.consistent clearing
  have typed_filled : Typed none filled := (typed_noted.shrinks shrinks).insertEach
    (fun value member =>
      (admits value (collapseDuplicates_subset values member)).shrinks shrinks) filling
  have typed_logged := typed_filled.shrinks (shrinks_logOp typed_filled.consistent logging)
  split
  · exact typed_logged.forget name
  · exact typed_logged

theorem Typed.appendField {w after : Writer} (typed : Typed none w) {uuid : Uuid} {name : String}
    {value : Value} {appended : Appended}
    (ran : w.appendField uuid name value = .ok (appended, after)) : Typed none after := by
  simp only [Writer.appendField, Except.bind_eq_ok] at ran
  obtain ⟨-, -, noted, noting, typed_w, typing, rest⟩ := ran
  have typed_noted := typed.shrinks (shrinks_validateTreeRef typed.consistent noting)
  obtain ⟨typed_value, admits, -⟩ := typed_noted.validate typing
  split at rest
  next =>
    simp only [Except.pure_eq_ok, Prod.mk.injEq] at rest
    exact rest.2 ▸ typed_value
  next =>
    simp only [Except.bind_eq_ok, Except.pure_eq_ok, Prod.exists, Prod.mk.injEq] at rest
    obtain ⟨version, -, row, filled, filling, logged, logging, -, rfl⟩ := rest
    have typed_filled := (typed_value.insert admits filling).1
    exact typed_filled.shrinks (shrinks_logOp typed_filled.consistent logging)

theorem Typed.replaceOwnedRow {w after : Writer} (typed : Typed free w) {uuid : Uuid}
    {old : FieldRow} {newName : String} {value : Value} (admits : Admits free w newName value)
    (ran : w.replaceOwnedRow uuid old newName value = .ok after) : Typed free after := by
  simp only [Writer.replaceOwnedRow, Except.bind_eq_ok, Except.pure_eq_ok, Prod.exists] at ran
  obtain ⟨version, -, cleared, clearing, middle, logging, next, -, row, filled, filling, logged,
    recording, rfl⟩ := ran
  have gone := shrinks_deleteRow typed.consistent clearing
  have shrinks := gone.trans (shrinks_logOp gone.consistent logging)
  have typed_filled := ((typed.shrinks shrinks).insert (admits.shrinks shrinks) filling).1
  have typed_logged := typed_filled.shrinks (shrinks_logOp typed_filled.consistent recording)
  split
  · exact (typed_logged.forget old.name).forget newName
  · exact typed_logged

theorem Typed.replaceChecked {w after : Writer} (typed : Typed none w) {uuid : Uuid}
    {old : FieldRow} {newName : String} {value : Value}
    (ran : w.replaceChecked uuid old newName value = .ok after) : Typed none after := by
  simp only [Writer.replaceChecked, Except.bind_eq_ok] at ran
  obtain ⟨-, -, noted, noting, typed_w, typing, -, -, replacing⟩ := ran
  have typed_noted := typed.shrinks (shrinks_validateTreeRef typed.consistent noting)
  obtain ⟨typed_value, admits, -⟩ := typed_noted.validate typing
  exact typed_value.replaceOwnedRow admits replacing

theorem Typed.deleteField {w after : Writer} (typed : Typed free w) {uuid : Uuid} {id : Int64}
    (ran : w.deleteField uuid id = .ok after) : Typed free after := by
  simp only [Writer.deleteField, Except.bind_eq_ok, Except.pure_eq_ok] at ran
  obtain ⟨row, -, version, -, cleared, clearing, logged, logging, rfl⟩ := ran
  have gone := shrinks_deleteRow typed.consistent clearing
  exact (typed.shrinks (gone.trans (shrinks_logOp gone.consistent logging))).forget row.name

theorem Typed.deleteFieldRows {w after : Writer} (typed : Typed none w) {uuid : Uuid}
    {name : String} {rows : List FieldRow} {count : Nat}
    (ran : w.deleteFieldRows uuid name rows = .ok (count, after)) : Typed none after := by
  unfold Writer.deleteFieldRows at ran
  split at ran
  next =>
    rw [Except.pure_eq_ok, Prod.mk.injEq] at ran
    exact ran.2 ▸ typed
  next =>
    simp only [Except.bind_eq_ok, Except.pure_eq_ok, Prod.mk.injEq] at ran
    obtain ⟨version, -, cleared, clearing, logged, logging, -, rfl⟩ := ran
    have gone := shrinks_foldlM (fun whole stepped => shrinks_deleteRow whole stepped)
      typed.consistent clearing
    exact (typed.shrinks (gone.trans (shrinks_logOp gone.consistent logging))).forget name

theorem Typed.clearFieldAs {w after : Writer} (typed : Typed none w) {opType : OpType} {uuid : Uuid}
    {name : String} (ran : w.clearFieldAs opType uuid name = .ok after) : Typed none after := by
  unfold Writer.clearFieldAs at ran
  dsimp only at ran
  split at ran
  next =>
    rw [Except.pure_eq_ok] at ran
    exact ran ▸ typed
  next =>
    simp only [Except.bind_eq_ok, Except.pure_eq_ok] at ran
    obtain ⟨version, -, cleared, clearing, logged, logging, rfl⟩ := ran
    have gone := shrinks_deleteRows typed.consistent clearing
    exact (typed.shrinks (gone.trans (shrinks_logOp gone.consistent logging))).forget name

theorem Typed.deleteMetarecord {w after : Writer} (typed : Typed none w) {uuid : Uuid}
    (ran : w.deleteMetarecord uuid = .ok after) : Typed none after := by
  simp only [Writer.deleteMetarecord, Except.bind_eq_ok] at ran
  obtain ⟨version, -, -, -, tx, removing, logging⟩ := ran
  obtain ⟨kept, left, -⟩ := KvTxn.removeMetarecord_spec typed.consistent removing
  have gone : Shrinks w { w with tx := tx } :=
    ⟨kept, rfl, rfl, fun holds => (left.mp holds).1⟩
  exact typed.shrinks (gone.trans (shrinks_logOp kept logging))

/-! ### Retypes -/

/-- A row holds a value of the type a retype converts to, or `Nothing`. -/
def Converted (target : FieldType) (row : FieldRow) : Prop :=
  row.value.isNothing ∨ row.value.typeStr = target.asStr

omit [Externals] in
theorem converted_of_eq {target : FieldType} {row : FieldRow} {value : Value}
    (typed : value.typeStr = "nothing" ∨ value.typeStr = target.asStr)
    (same : row.value.typeStr = value.typeStr) : Converted target row := by
  rw [← same] at typed
  rcases typed with nothing | converted
  · exact .inl ((Value.isNothing_iff _).mpr ((Value.typeStr_eq_nothing_iff _).mp nothing))
  · exact .inr converted

/-- One row of a retype leaves it converted, and the other rows as they were. -/
theorem retypeRow_converts {w after : Writer} (consistent : w.tx.primary.Consistent) {uuid : Uuid}
    {row : FieldRow} {target : FieldType} (holds : w.tx.primary.Holds uuid row)
    {start summary : RetypeSummary}
    (ran : retypeRow uuid target (start, w) row = .ok (summary, after)) {owner : Uuid}
    {other : FieldRow} (held : after.tx.primary.Holds owner other) :
    Converted target other ∨ (w.tx.primary.Holds owner other ∧ other ≠ row) := by
  obtain ⟨nothing, rfl⟩ | ⟨noted, value, quiet, value_eq, replaced⟩ :=
    retypeRow_spec consistent holds ran
  · by_cases same : other = row
    · exact .inl (.inl (same ▸ nothing))
    · exact .inr ⟨held, same⟩
  have value_typed : value.typeStr = "nothing" ∨ value.typeStr = target.asStr := by
    rcases value_eq with rfl | rfl
    · exact .inl rfl
    · exact (Value.typeStr_convertTo row.value target).imp_left fun nothing => by rw [nothing]; rfl
  rw [← quiet.tx_eq] at consistent ⊢
  rcases replaced with ⟨equal, rfl⟩ | ⟨gone, removes⟩ | ⟨middle, gone, put, removes, puts, new⟩
  · by_cases same : other = row
    · refine .inl (converted_of_eq value_typed ?_)
      rw [same, ← Value.typeStr_eq_of_eq equal]
    · exact .inr ⟨held, same⟩
  · obtain ⟨-, swapped, -⟩ := removes.performed.spec consistent
    have none_put : gone.after = [] := List.map_eq_nil_iff.mp removes.after_eq
    rw [removes.before_eq, none_put] at swapped
    obtain ⟨-, put⟩ | ⟨old, left⟩ := swapped.holds_iff.mp held
    · simp at put
    · exact .inr ⟨old, by simpa using left⟩
  · obtain ⟨kept, swapped, -⟩ := removes.performed.spec consistent
    have none_put : gone.after = [] := List.map_eq_nil_iff.mp removes.after_eq
    rw [removes.before_eq, none_put] at swapped
    obtain ⟨-, swapped_put, -⟩ := puts.performed.spec kept
    rw [puts.before_eq, new] at swapped_put
    obtain ⟨-, put_row⟩ | ⟨old, -⟩ := swapped_put.holds_iff.mp held
    · refine .inl (converted_of_eq value_typed ?_)
      rw [List.map_singleton, List.mem_singleton] at put_row
      rw [put_row]
      exact Value.typeStr_stored value
    · obtain ⟨-, put⟩ | ⟨older, left⟩ := swapped.holds_iff.mp old
      · simp at put
      · exact .inr ⟨older, by simpa using left⟩

theorem Typed.retypeRow {name : String} {w after : Writer} (typed : Typed (some name) w)
    {uuid : Uuid} {row : FieldRow} {target : FieldType} (named : row.name = name)
    {start summary : RetypeSummary}
    (ran : Writer.retypeRow uuid target (start, w) row = .ok (summary, after)) :
    Typed (some name) after := by
  unfold Writer.retypeRow at ran
  split at ran
  next =>
    simp only [Except.pure_eq_ok, Prod.mk.injEq] at ran
    exact ran.2 ▸ typed
  next =>
    simp only [Except.bind_eq_ok, Prod.exists] at ran
    obtain ⟨value, fellBack, noted, converting, rest⟩ := ran
    have typed_noted : Typed (some name) noted := by
      unfold retypedValue at converting
      dsimp only at converting
      split at converting
      next =>
        simp only [Except.pure_eq_ok, Prod.mk.injEq] at converting
        exact converting.2 ▸ typed
      next =>
        split at converting
        next valid =>
          simp only [Except.pure_eq_ok, Prod.mk.injEq] at converting
          obtain ⟨-, -, noting⟩ := Except.bind_eq_ok.mp valid
          exact converting.2 ▸ typed.shrinks (shrinks_validateTreeRef typed.consistent noting)
        next =>
          split at converting
          next =>
            simp only [Except.pure_eq_ok, Prod.mk.injEq] at converting
            exact converting.2 ▸ typed
          next => simp at converting
    split at rest
    next =>
      simp only [Except.pure_eq_ok, Prod.mk.injEq] at rest
      exact rest.2 ▸ typed_noted
    next =>
      split at rest
      next =>
        simp only [Except.bind_eq_ok, Except.pure_eq_ok, Prod.mk.injEq] at rest
        obtain ⟨removed, removing, -, rfl⟩ := rest
        exact typed_noted.deleteField removing
      next =>
        simp only [Except.bind_eq_ok, Except.pure_eq_ok, Prod.mk.injEq] at rest
        obtain ⟨replaced, replacing, -, rfl⟩ := rest
        exact typed_noted.replaceOwnedRow (.inr (.inl (congrArg some named))) replacing

/-- The rows of one metarecord are converted, and no other row of the field appears. -/
theorem Typed.retypeRows {name : String} {w after : Writer} (typed : Typed (some name) w)
    {uuid : Uuid} {rows : List FieldRow} {target : FieldType}
    (listed : ∀ row ∈ rows, w.tx.primary.Holds uuid row ∧ row.name = name) (distinct : rows.Nodup)
    {start summary : RetypeSummary}
    (ran : rows.foldlM (Writer.retypeRow uuid target) (start, w) = .ok (summary, after)) :
    Typed (some name) after ∧ ∀ {owner other}, after.tx.primary.Holds owner other →
      Converted target other ∨ (w.tx.primary.Holds owner other ∧ other ∉ rows) := by
  induction rows generalizing w start with
  | nil =>
      rw [Except.foldlM_nil_eq_ok, Prod.mk.injEq] at ran
      rw [← ran.2]
      exact ⟨typed, fun holds => .inr ⟨holds, by simp⟩⟩
  | cons head tail ih =>
      obtain ⟨⟨between, middle⟩, first, rest⟩ := Except.foldlM_cons_eq_ok.mp ran
      obtain ⟨absent, distinct⟩ := List.nodup_cons.mp distinct
      obtain ⟨held, named⟩ := listed head List.mem_cons_self
      have typed_head := typed.retypeRow named first
      have listed_tail : ∀ row ∈ tail, middle.tx.primary.Holds uuid row ∧ row.name = name := by
        intro row member
        obtain ⟨holds, row_named⟩ := listed row (List.mem_cons_of_mem _ member)
        refine ⟨retypeRow_holds typed.consistent held first holds fun ids => absent ?_, row_named⟩
        rwa [← (typed.consistent.holds_unique holds held ids).2]
      obtain ⟨typed_tail, converts⟩ := ih typed_head listed_tail distinct rest
      refine ⟨typed_tail, fun holds => ?_⟩
      rcases converts holds with converted | ⟨old, left⟩
      · exact .inl converted
      · rcases retypeRow_converts typed.consistent held first old with converted | ⟨older, differ⟩
        · exact .inl converted
        · exact .inr ⟨older, by simp [differ, left]⟩

theorem Typed.retypeField {w after : Writer} (typed : Typed none w) {name : String}
    {target : FieldType} {summary : RetypeSummary}
    (ran : w.retypeField name target = .ok (summary, after)) :
    Typed none after ∧ after.tx.primary.OfType name target.asStr := by
  have forgot := typed.forget name
  have unmet : (w.forget name).fieldTypes name = none := by simp [fieldTypes_forget]
  have freed : Typed (some name) (w.forget name) :=
    { forgot with
      cached := by
        intro other valueType met
        refine ⟨fun same => ?_, (forgot.cached met).2⟩
        rw [Option.some.injEq] at same
        rw [same, unmet] at met
        contradiction
      single := fun _ checked => forgot.single (by simp) checked }
  have walk : ∀ {owners : List Uuid} {start finish : RetypeSummary × Writer},
      Typed (some name) start.2 →
      (∀ {owner row}, start.2.tx.primary.Holds owner row → row.name = name →
        Converted target row ∨ owner ∈ owners) →
      owners.foldlM (fun held uuid =>
        (held.2.tx.primary.rowsNamed uuid name).foldlM (Writer.retypeRow uuid target) held) start =
          .ok finish →
        Typed (some name) finish.2 ∧ ∀ {owner row}, finish.2.tx.primary.Holds owner row →
          row.name = name → Converted target row := by
    intro owners
    induction owners with
    | nil =>
        intro start finish typed_start left ran
        rw [Except.foldlM_nil_eq_ok] at ran
        subst ran
        exact ⟨typed_start, fun holds named => by simpa using left holds named⟩
    | cons head tail ih =>
        intro start finish typed_start left ran
        obtain ⟨middle, first, rest⟩ := Except.foldlM_cons_eq_ok.mp ran
        obtain ⟨typed_head, converts⟩ := typed_start.retypeRows
          (fun row member => typed_start.consistent.mem_rowsNamed.mp member)
          (typed_start.consistent.nodup_rowsNamed head name) first
        refine ih typed_head (fun holds named => ?_) rest
        rcases converts holds with converted | ⟨old, missed⟩
        · exact .inl converted
        · rcases left old named with converted | member
          · exact .inl converted
          · rcases List.mem_cons.mp member with rfl | member
            · exact absurd (typed_start.consistent.mem_rowsNamed.mpr ⟨old, named⟩) missed
            · exact .inr member
  obtain ⟨typed_after, converted⟩ := walk freed
    (fun holds named => .inr (freed.consistent.mem_holders.mpr ⟨_, holds, named⟩)) ran
  have of_type : after.tx.primary.OfType name target.asStr := by
    intro owner row holds named present
    rcases converted holds named with nothing | converted
    · rw [nothing] at present
      contradiction
    · exact converted
  refine ⟨⟨typed_after.consistent, fun met => ⟨by simp, (typed_after.cached met).2⟩, ?_,
    typed_after.idle⟩, of_type⟩
  intro other _ checked
  by_cases same : other = name
  · exact ⟨target.asStr, same ▸ of_type⟩
  · exact typed_after.single (by simpa using same) checked

/-! ### Reverts, calls and commits -/

theorem Typed.setCell {w after : Writer} (typed : Typed none w) {opType : OpType} {uuid : Uuid}
    {name : String} {before : List FieldRow} {undone : Bool}
    (ran : (if before = [] then do
        pure (true, ← w.clearFieldAs opType uuid name)
      else do
        let (_, w) ← w.setFieldMultiAs opType uuid name (before.map FieldRow.value)
        pure (true, w)) = .ok (undone, after)) : Typed none after := by
  split at ran
  next =>
    simp only [Except.bind_eq_ok, Except.pure_eq_ok, Prod.mk.injEq] at ran
    obtain ⟨cleared, clearing, -, rfl⟩ := ran
    exact typed.clearFieldAs clearing
  next =>
    simp only [Except.bind_eq_ok, Except.pure_eq_ok, Prod.exists, Prod.mk.injEq] at ran
    obtain ⟨ids, written, writing, -, rfl⟩ := ran
    exact typed.setFieldMultiAs writing

theorem Typed.applyInverse {w after : Writer} (typed : Typed none w) {op : OpRow} {undone : Bool}
    (ran : w.applyInverse op = .ok (undone, after)) : Typed none after := by
  unfold Writer.applyInverse at ran
  dsimp only at ran
  split at ran
  case h_1 =>
    split at ran
    · simp only [Except.pure_eq_ok, Prod.mk.injEq] at ran
      exact ran.2 ▸ typed
    · simp only [Except.bind_eq_ok, Except.pure_eq_ok, Prod.mk.injEq] at ran
      obtain ⟨removed, removing, -, rfl⟩ := ran
      exact typed.deleteMetarecord removing
  case h_2 =>
    simp only [Except.bind_eq_ok, Except.pure_eq_ok, Prod.exists, Prod.mk.injEq] at ran
    obtain ⟨-, -, record, created, creating, -, rfl⟩ := ran
    exact typed.createMetarecordWithUuid creating
  case h_3 =>
    simp only [Except.bind_eq_ok, Except.pure_eq_ok, Prod.exists, Prod.mk.injEq] at ran
    obtain ⟨record, written, writing, -, rfl⟩ := ran
    exact typed.setRecord writing
  case h_4 =>
    simp only [Except.bind_eq_ok, Except.pure_eq_ok, Prod.mk.injEq] at ran
    obtain ⟨removed, removing, -, rfl⟩ := ran
    refine Except.foldlM_induction (Typed none) (fun row _ held next typed_held stepped => ?_) typed
      removing
    simp only [Except.bind_eq_ok, Except.pure_eq_ok, Prod.exists] at stepped
    obtain ⟨count, next, deleting, rfl⟩ := stepped
    exact typed_held.deleteFieldRows deleting
  case h_5 =>
    simp only [Except.bind_eq_ok, Except.pure_eq_ok, Prod.mk.injEq] at ran
    obtain ⟨written, writing, -, rfl⟩ := ran
    refine Except.foldlM_induction (Typed none) (fun row _ held next typed_held stepped => ?_) typed
      writing
    simp only [Except.bind_eq_ok, Except.pure_eq_ok, Prod.exists] at stepped
    obtain ⟨appended, next, appending, rfl⟩ := stepped
    exact typed_held.appendField appending
  case h_6 => simp at ran
  case h_7 =>
    obtain ⟨name, -, rest⟩ := Except.bind_eq_ok.mp ran
    exact typed.setCell rest

theorem Typed.applyRevert {w after : Writer} (typed : Typed none w) {ops : List OpRow} {done : Nat}
    (ran : w.applyRevert ops = .ok (done, after)) : Typed none after := by
  simp only [Writer.applyRevert, Except.bind_eq_ok, Except.pure_eq_ok, Prod.exists,
    Prod.mk.injEq] at ran
  obtain ⟨count, undone, walking, -, rfl⟩ := ran
  have deferred : Typed none w.deferTypeChecks :=
    ⟨typed.consistent, by simp [deferTypeChecks], fun other checked => typed.single other checked,
      fun _ _ => rfl⟩
  have walked : Typed none undone := Except.foldlM_induction
    (fun held : Nat × Writer => Typed none held.2) (by
      rintro op - ⟨before, held⟩ ⟨between, next⟩ typed_held stepped
      simp only [Except.bind_eq_ok, Except.pure_eq_ok, Prod.exists, Prod.mk.injEq] at stepped
      obtain ⟨inverted, next, inverting, -, rfl⟩ := stepped
      have noted : Typed none { held with reverting := some op.id } := { typed_held with }
      exact noted.applyInverse inverting) deferred walking
  exact { walked with }

/-- Every call of a transaction keeps one type for each field name. -/
theorem Typed.call {w after : Writer} (typed : Typed none w) {made : Call}
    (ran : w.call made = .ok after) : Typed none after := by
  cases made with
  | createMetarecord uuid fields =>
      obtain ⟨⟨record, made⟩, creating, rfl⟩ := Except.map_eq_ok.mp ran
      exact typed.createMetarecordWithUuid creating
  | deleteMetarecord uuid => exact typed.deleteMetarecord ran
  | setRecord uuid fields =>
      obtain ⟨⟨record, made⟩, writing, rfl⟩ := Except.map_eq_ok.mp ran
      exact typed.setRecord writing
  | setFieldAs opType uuid name value => exact typed.setFieldAs ran
  | setFieldMultiAs opType uuid name values =>
      obtain ⟨⟨ids, made⟩, writing, rfl⟩ := Except.map_eq_ok.mp ran
      exact typed.setFieldMultiAs writing
  | appendField uuid name value =>
      obtain ⟨⟨appended, made⟩, writing, rfl⟩ := Except.map_eq_ok.mp ran
      exact typed.appendField writing
  | replaceField uuid id value =>
      obtain ⟨old, -, replacing⟩ := Except.bind_eq_ok.mp ran
      exact typed.replaceChecked replacing
  | renameField uuid id newName value =>
      obtain ⟨old, -, replacing⟩ := Except.bind_eq_ok.mp ran
      exact typed.replaceChecked replacing
  | retypeField name target =>
      obtain ⟨⟨summary, made⟩, retyping, rfl⟩ := Except.map_eq_ok.mp ran
      exact (typed.retypeField retyping).1
  | deleteField uuid id => exact typed.deleteField ran
  | deleteFieldsValued uuid name value =>
      obtain ⟨⟨count, made⟩, deleting, rfl⟩ := Except.map_eq_ok.mp ran
      exact typed.deleteFieldRows deleting
  | deleteFieldsNamed uuid name =>
      obtain ⟨⟨count, made⟩, deleting, rfl⟩ := Except.map_eq_ok.mp ran
      exact typed.deleteFieldRows deleting
  | clearFieldAs opType uuid name => exact typed.clearFieldAs ran
  | revert ops =>
      obtain ⟨⟨done, made⟩, undoing, rfl⟩ := Except.map_eq_ok.mp ran
      exact typed.applyRevert undoing
  | setOrigin origin =>
      have after_eq := Except.pure_eq_ok.mp ran
      subst after_eq
      exact { typed with }

end Writer

/-- A committed transaction leaves one type for each field name. -/
theorem Transaction.single {transaction : Transaction} {store after : KvStore}
    (consistent : store.tx.primary.Consistent) (single : ∀ name, store.tx.primary.Single name)
    (ran : transaction.run store = .ok after) : ∀ name, after.tx.primary.Single name := by
  simp only [Transaction.run, Except.bind_eq_ok] at ran
  obtain ⟨w, opening, last, calling, committing⟩ := ran
  obtain ⟨tx_eq, -, -, -, -, eager, -, unmet⟩ := Writer.beginIn_spec opening
  have start : Writer.Typed none w :=
    ⟨tx_eq ▸ consistent, by simp [unmet], fun _ _ => tx_eq ▸ single _, by simp [eager]⟩
  have typed : Writer.Typed none last := Except.foldlM_induction (Writer.Typed none)
    (fun made _ before after typed stepped => typed.call stepped) start calling
  obtain ⟨after_tx, -, checked, -⟩ := Writer.commit_spec committing
  intro name
  rw [after_tx]
  by_cases deferred : name ∈ last.deferredTypes.getD []
  · have passed := (Except.forM_eq_ok.mp checked) name deferred
    simp only [Except.bind_eq_ok, refuseIf_eq_ok, not_lt] at passed
    obtain ⟨types, read, few⟩ := passed
    exact typed.consistent.single_of_valueTypes read few
  · exact typed.single (by simp) deferred

theorem Reachable.single {kind : Transaction → Prop} {store : KvStore}
    (reached : Reachable kind store) (name : String) : store.tx.primary.Single name := by
  induction reached generalizing name with
  | new => exact ⟨"", fun _ _ holds => by simp [Primary.Holds] at holds⟩
  | commit transaction reached _ ran ih =>
      obtain ⟨steps, history, -⟩ := reached.history
      exact Transaction.single history.consistent ih ran name

/-- In every reachable store, all rows of a field name hold values of one type, `Nothing` aside. -/
theorem field_names_have_one_type {store : KvStore} (reached : Reachable (fun _ => True) store)
    {first second : Uuid} {rowFirst rowSecond : FieldRow}
    (holdsFirst : store.tx.primary.Holds first rowFirst)
    (holdsSecond : store.tx.primary.Holds second rowSecond)
    (named : rowFirst.name = rowSecond.name) (presentFirst : rowFirst.value ≠ .nothing)
    (presentSecond : rowSecond.value ≠ .nothing) :
    rowFirst.value.typeStr = rowSecond.value.typeStr := by
  obtain ⟨valueType, typed⟩ := reached.single rowSecond.name
  have present : ∀ {value : Value}, value ≠ .nothing → value.isNothing = false := by
    intro value other
    rw [← Bool.not_eq_true, Value.isNothing_iff]
    exact other
  rw [typed holdsFirst named (present presentFirst),
    typed holdsSecond rfl (present presentSecond)]

/-- A write that gives two metarecords a field and retypes it. -/
def sampleRetype : Transaction where
  context := .new ⟨"retype", none, none⟩
  retention := .unlimited
  timestamp := 7
  calls :=
    [.createMetarecord (sampleUuids 1) [⟨"count", .string "12"⟩],
      .createMetarecord (sampleUuids 2) [⟨"count", .string "none"⟩], .retypeField "count" .int]

omit [Externals] in
theorem sampleRetype_run : (fun store : KvStore =>
    (store.tx.primary.rows (sampleUuids 1), store.tx.primary.rows (sampleUuids 2))) <$>
      @Transaction.run plainExternals sampleRetype {} =
        .ok ([⟨1, "count", .int 12⟩], [⟨2, "count", .int 0⟩]) := by
  decide +kernel

omit [Externals] in
theorem field_names_have_one_type_retype : ∃ store,
    @Transaction.run plainExternals sampleRetype {} = .ok store ∧
      store.tx.primary.Holds (sampleUuids 1) ⟨1, "count", .int 12⟩ ∧
      store.tx.primary.Holds (sampleUuids 2) ⟨2, "count", .int 0⟩ ∧
      (Value.int 12).typeStr = (Value.int 0).typeStr := by
  let _ : Externals := plainExternals
  obtain ⟨store, ran, rows⟩ := Except.map_eq_ok.mp sampleRetype_run
  have reached : Reachable (fun _ => True) store := .commit sampleRetype .new trivial ran
  obtain ⟨steps, history, -⟩ := reached.history
  rw [Prod.mk.injEq] at rows
  have first : store.tx.primary.Holds (sampleUuids 1) ⟨1, "count", .int 12⟩ :=
    history.consistent.mem_rows.mp (by simp [rows.1])
  have second : store.tx.primary.Holds (sampleUuids 2) ⟨2, "count", .int 0⟩ :=
    history.consistent.mem_rows.mp (by simp [rows.2])
  exact ⟨store, ran, first, second, field_names_have_one_type reached first second rfl (by simp)
    (by simp)⟩

end Metafolder
