import Mathlib.Data.Set.Insert
import Metafolder.FieldTypes

/-!
# The types a write remembers

A write probes the store once for the type of a field name, and remembers the answer.  What it
remembers is right as long as a row of that type is there: each method that takes the last row away
has to forget the name, and the deletion of a metarecord and a replacement by `Nothing` do not.
-/

namespace Metafolder

variable [Externals]

omit [Externals] in
/-- Of two equal values, for the program, both are `Nothing` or neither. -/
theorem Value.isNothing_eq_of_eq {first second : Value} (same : first.eq second = true) :
    first.isNothing = second.isNothing := by
  have types := typeStr_eq_of_eq same
  rw [Bool.eq_iff_iff, isNothing_iff, isNothing_iff, ← typeStr_eq_nothing_iff, types,
    typeStr_eq_nothing_iff]

namespace Primary

/-- A row of a field name holds a value other than `Nothing`. -/
def Bears (store : Primary) (name : String) : Prop :=
  ∃ owner row, store.Holds owner row ∧ row.name = name ∧ row.value.isNothing = false

omit [Externals] in
theorem Bears.mono {store after : Primary} {name : String} (bears : store.Bears name)
    (stays : ∀ {owner row}, store.Holds owner row → row.name = name →
      row.value.isNothing = false → after.Holds owner row) : after.Bears name := by
  obtain ⟨owner, row, holds, named, present⟩ := bears
  exact ⟨owner, row, stays holds named present, named, present⟩

/-- A row of a field name holds a value other than `Nothing`, and is not among those that go. -/
def BearsApart (store : Primary) (name : String) (gone : Uuid → FieldRow → Prop) : Prop :=
  ∃ owner row, store.Holds owner row ∧ row.name = name ∧ row.value.isNothing = false ∧
    ¬gone owner row

omit [Externals] in
theorem BearsApart.bears {store after : Primary} {name : String} {gone : Uuid → FieldRow → Prop}
    (bears : store.BearsApart name gone)
    (stays : ∀ {owner row}, store.Holds owner row → ¬gone owner row → after.Holds owner row) :
    after.Bears name := by
  obtain ⟨owner, row, holds, named, present, left⟩ := bears
  exact ⟨owner, row, stays holds left, named, present⟩

end Primary

namespace Writer

open Primary

/-- A write that has probed no type. -/
def uncached (w : Writer) : Writer := { w with fieldTypes := fun _ => none }

/-- The check of a value's type answers as an uncached one, and refuses a value for a row of its
name with a value of another type. -/
def TypesRight (w : Writer) : Prop := ∀ (name : String) (value : Value),
  (fun _ => ()) <$> w.validateValueType name value =
      (fun _ => ()) <$> w.uncached.validateValueType name value ∧
    ∀ {failure}, w.validateValueType name value = .error failure →
      ∃ owner row, w.tx.primary.Holds owner row ∧ row.name = name ∧ row.value ≠ .nothing ∧
        row.value.typeStr ≠ value.typeStr

/-- Each type remembered is that of a row, the names of a set aside. -/
structure Backed (free : Set String) (w : Writer) : Prop where
  /-- The primary tables agree. -/
  consistent : w.tx.primary.Consistent
  /-- A name whose type is remembered has a row. -/
  bears : ∀ {name}, name ∉ free → w.fieldTypes name ≠ none → w.tx.primary.Bears name

variable {free : Set String}

theorem Backed.mono {more : Set String} {w : Writer} (backed : Backed free w)
    (fewer : free ⊆ more) : Backed more w where
  consistent := backed.consistent
  bears apart := backed.bears fun member => apart (fewer member)

/-- The names set aside are backed in their turn. -/
theorem Backed.close {w : Writer} (backed : Backed free w)
    (closed : ∀ name ∈ free, w.fieldTypes name ≠ none → w.tx.primary.Bears name) : Backed ∅ w where
  consistent := backed.consistent
  bears {name} _ met := by
    by_cases member : name ∈ free
    · exact closed name member met
    · exact backed.bears member met

/-- Rows may go under the names set aside; no type is newly remembered. -/
structure Leaves (free : Set String) (w after : Writer) : Prop where
  /-- The primary tables agree. -/
  consistent : after.tx.primary.Consistent
  /-- No type is newly remembered. -/
  fewer : ∀ {name}, after.fieldTypes name ≠ none → w.fieldTypes name ≠ none
  /-- The rows of the other names stay. -/
  holds : ∀ {owner row}, row.name ∉ free → w.tx.primary.Holds owner row →
    after.tx.primary.Holds owner row

theorem Backed.leaves {w after : Writer} (backed : Backed free w) (leaves : Leaves free w after) :
    Backed free after where
  consistent := leaves.consistent
  bears apart met := (backed.bears apart (leaves.fewer met)).mono
    fun holds named _ => leaves.holds (named ▸ apart) holds

theorem Leaves.refl {w : Writer} (consistent : w.tx.primary.Consistent) : Leaves free w w :=
  ⟨consistent, id, fun _ => id⟩

theorem Leaves.trans {w middle after : Writer} (one : Leaves free w middle)
    (two : Leaves free middle after) : Leaves free w after where
  consistent := two.consistent
  fewer met := one.fewer (two.fewer met)
  holds apart held := two.holds apart (one.holds apart held)

theorem Backed.forget {w : Writer} {name : String} (backed : Backed (insert name free) w) :
    Backed free (w.forget name) where
  consistent := backed.consistent
  bears {other} apart met := by
    by_cases same : other = name
    · subst same
      rw [fieldTypes_forget, Function.update_self] at met
      contradiction
    · rw [fieldTypes_forget, Function.update_of_ne same] at met
      exact backed.bears (by simp [same, apart]) met

/-! ### The steps of a method -/

theorem leaves_validateTreeRef {w after : Writer} (consistent : w.tx.primary.Consistent)
    {uuid : Uuid} {name : String} {value : Value}
    (ran : w.validateTreeRef uuid name value = .ok after) : Leaves free w after := by
  have shrinks := shrinks_validateTreeRef consistent ran
  obtain ⟨-, tx_eq, -⟩ := validateTreeRef_spec consistent ran
  refine ⟨shrinks.consistent, fun met => ?_, fun _ holds => ?_⟩
  · rwa [shrinks.fieldTypes_eq] at met
  · rwa [tx_eq]

theorem leaves_logOp {w after : Writer} (consistent : w.tx.primary.Consistent) {opType : OpType}
    {entity : Uuid} {fieldName : Option String} {versionBefore : Option UInt64}
    {before rows : List FieldRow}
    (ran : w.logOp opType entity fieldName versionBefore before rows = .ok after) :
    Leaves free w after := by
  have shrinks := shrinks_logOp consistent ran
  have tx_eq := (logOp_spec ran).tx_eq
  refine ⟨shrinks.consistent, fun met => ?_, fun _ holds => ?_⟩
  · rwa [shrinks.fieldTypes_eq] at met
  · rw [tx_eq]
    split
    · exact KvTxn.holds_setVersion.mpr holds
    · exact holds

theorem leaves_deleteRow {w after : Writer} (consistent : w.tx.primary.Consistent) {id : Int64}
    (named : ∀ {owner row}, w.tx.primary.Holds owner row → row.id = id → row.name ∈ free)
    (ran : w.deleteRow id = .ok after) : Leaves free w after := by
  obtain ⟨tx, deleted, rfl⟩ := deleteRow_eq_ok.mp ran
  obtain ⟨kept, gone⟩ := KvTxn.deleteRow_cleared consistent deleted
  exact ⟨kept, fun met => met, fun apart holds => gone.holds_iff.mpr ⟨holds, fun same =>
    apart (named holds same)⟩⟩

theorem leaves_deleteRows {w after : Writer} (consistent : w.tx.primary.Consistent) {uuid : Uuid}
    {name : Option String}
    (named : ∀ {row}, w.tx.primary.Holds uuid row → KvTxn.Names name row → row.name ∈ free)
    (ran : w.deleteRows uuid name = .ok after) : Leaves free w after := by
  obtain ⟨tx, deleted, rfl⟩ := deleteRows_eq_ok.mp ran
  obtain ⟨kept, gone⟩ := KvTxn.deleteRows_spec consistent deleted
  refine ⟨kept, id, fun apart holds => gone.holds_iff.mpr ⟨holds, ?_⟩⟩
  rintro ⟨rfl, names⟩
  exact apart (named holds names)

/-- A value that passes its check leaves its name to be backed. -/
theorem Backed.validate {w after : Writer} {name : String} {value : Value}
    (backed : Backed free w) (ran : w.validateValueType name value = .ok after) :
    Backed (insert name free) after ∧ after.tx = w.tx ∧ (value.isNothing → after = w) := by
  unfold validateValueType at ran
  split at ran
  next nothing =>
    rw [Except.pure_eq_ok] at ran
    subst ran
    exact ⟨backed.mono (Set.subset_insert name free), rfl, fun _ => rfl⟩
  next present =>
    have other : ∀ {same : Prop}, value.isNothing → same := fun nothing => absurd nothing present
    have known : Backed (insert name free) w := backed.mono (Set.subset_insert name free)
    split at ran
    next =>
      rw [Except.pure_eq_ok] at ran
      subst ran
      exact ⟨⟨known.consistent, known.bears⟩, rfl, other⟩
    next =>
      dsimp only at ran
      split at ran
      next =>
        obtain ⟨-, -, rest⟩ := Except.bind_eq_ok.mp ran
        rw [Except.pure_eq_ok] at rest
        subst rest
        exact ⟨known, rfl, other⟩
      next =>
        simp only [Except.bind_eq_ok, Except.pure_eq_ok] at ran
        obtain ⟨types, -, -, -, rfl⟩ := ran
        refine ⟨⟨known.consistent, fun {field} apart met => known.bears apart ?_⟩, rfl, other⟩
        have differ : field ≠ name := by
          rintro rfl
          exact apart (Set.mem_insert ..)
        dsimp only at met
        rwa [Function.update_of_ne differ] at met

/-- A row put under a name backs it, and takes no other away. -/
theorem Backed.insert_row {w after : Writer} {uuid : Uuid} {name : String} {value : Value}
    {given : Option Int64} {row : FieldRow} (backed : Backed free w)
    (ran : w.insertRow uuid name value given = .ok (row, after)) :
    Backed free after ∧ (value.isNothing = false → after.tx.primary.Bears name) ∧
      ∀ {other}, w.tx.primary.Bears other → after.tx.primary.Bears other := by
  obtain ⟨tx, inserted, named, valued, rfl⟩ := insertRow_eq_ok.mp ran
  obtain ⟨kept, put, -⟩ := KvTxn.insertRow_spec backed.consistent inserted
  have stays : ∀ {other}, w.tx.primary.Bears other → tx.primary.Bears other :=
    fun bears => bears.mono fun holds _ _ => put.holds_iff.mpr (.inr holds)
  refine ⟨⟨kept, fun apart met => stays (backed.bears apart met)⟩, fun present => ?_, stays⟩
  refine ⟨uuid, _, put.holds_iff.mpr (.inl ⟨rfl, rfl⟩), rfl, ?_⟩
  rwa [FieldRow.stored_value, Value.isNothing_stored]

/-- A value checked and written leaves its name backed. -/
theorem Backed.write {w checked after : Writer} {uuid : Uuid} {name : String} {value : Value}
    {given : Option Int64} {row : FieldRow} (backed : Backed ∅ w)
    (typing : w.validateValueType name value = .ok checked)
    (ran : checked.insertRow uuid name value given = .ok (row, after)) : Backed ∅ after := by
  obtain ⟨typed, -, same⟩ := backed.validate typing
  cases nothing : value.isNothing with
  | true =>
      obtain rfl := same nothing
      exact (backed.insert_row ran).1
  | false =>
      obtain ⟨filled, bears, -⟩ := typed.insert_row ran
      refine filled.close fun other member _ => ?_
      obtain rfl : other = name := by simpa using member
      exact bears nothing

theorem Backed.fold {α : Type} {step : Writer → α → Outcome Writer}
    (stepped : ∀ {w item after}, Backed free w → step w item = .ok after → Backed free after)
    {items : List α} {w after : Writer} (backed : Backed free w)
    (ran : items.foldlM step w = .ok after) : Backed free after :=
  Except.foldlM_induction (Backed free) (fun _ _ _ _ held made => stepped held made) backed ran

theorem Backed.validateTreeRef {w after : Writer} (backed : Backed free w) {uuid : Uuid}
    {name : String} {value : Value} (ran : w.validateTreeRef uuid name value = .ok after) :
    Backed free after :=
  backed.leaves (leaves_validateTreeRef backed.consistent ran)

theorem Backed.logOp {w after : Writer} (backed : Backed free w) {opType : OpType} {entity : Uuid}
    {fieldName : Option String} {versionBefore : Option UInt64} {before rows : List FieldRow}
    (ran : w.logOp opType entity fieldName versionBefore before rows = .ok after) :
    Backed free after :=
  backed.leaves (leaves_logOp backed.consistent ran)

theorem Backed.forgetEach {w : Writer} {rows : List FieldRow}
    (backed : Backed {name | ∃ row ∈ rows, row.name = name} w) :
    Backed ∅ (rows.foldl (fun w row => w.forget row.name) w) := by
  induction rows generalizing w with
  | nil => exact backed.mono (by simp)
  | cons head tail ih =>
      refine ih (Backed.forget (backed.mono ?_))
      rintro name ⟨row, member, rfl⟩
      rcases List.mem_cons.mp member with rfl | member
      · exact Set.mem_insert ..
      · exact Set.mem_insert_of_mem _ ⟨row, member, rfl⟩

/-- The rows of one field of a metarecord go. -/
theorem Backed.deleteRows {w after : Writer} {uuid : Uuid} {name : String}
    (backed : Backed {name} w) (ran : w.deleteRows uuid (some name) = .ok after) :
    Backed {name} after :=
  backed.leaves (leaves_deleteRows backed.consistent (fun _ names => names name rfl) ran)

/-- A row of a metarecord goes, by its id. -/
theorem Backed.deleteRow {w after : Writer} {uuid : Uuid} {old : FieldRow}
    (backed : Backed free w) (holds : w.tx.primary.Holds uuid old) (member : old.name ∈ free)
    (ran : w.deleteRow old.id = .ok after) : Backed free after :=
  backed.leaves (leaves_deleteRow backed.consistent (fun held same => by
    rwa [(backed.consistent.holds_unique held holds same).2]) ran)

/-! ### Methods -/

theorem Backed.createMetarecordWithUuid {w after : Writer} (backed : Backed ∅ w) {uuid : Uuid}
    {fields : List Field} {record : MetaRecord}
    (ran : w.createMetarecordWithUuid uuid fields = .ok (record, after)) : Backed ∅ after := by
  simp only [Writer.createMetarecordWithUuid, Except.bind_eq_ok, Except.pure_eq_ok, Prod.exists,
    Prod.mk.injEq] at ran
  obtain ⟨-, -, noted, noting, tx, creating, rows, filled, filling, logged, logging, -, -, -,
    rfl⟩ := ran
  have backed_noted : Backed ∅ noted :=
    backed.fold (fun held made => held.validateTreeRef made) noting
  obtain ⟨kept, -, same⟩ := KvTxn.createMetarecord_spec backed_noted.consistent creating
  have created : Leaves ∅ noted { noted with tx := tx } := by
    refine ⟨kept, fun met => met, fun _ holds => ?_⟩
    change tx.primary.Holds _ _
    rw [same]
    exact holds
  have backed_filled : Backed ∅ filled := Except.foldlM_induction
    (fun held : List FieldRow × Writer => Backed ∅ held.2) (by
      intro field _ held next backed_held stepped
      simp only [Except.bind_eq_ok, Except.pure_eq_ok, Prod.exists] at stepped
      obtain ⟨checked, typing, row, inserted, inserting, rfl⟩ := stepped
      exact backed_held.write typing inserting) (backed_noted.leaves created) filling
  exact backed_filled.logOp logging

theorem Backed.setRecord {w after : Writer} (backed : Backed ∅ w) {uuid : Uuid}
    {fields : List Field} {record : MetaRecord}
    (ran : w.setRecord uuid fields = .ok (record, after)) : Backed ∅ after := by
  simp only [Writer.setRecord, Except.bind_eq_ok, Except.pure_eq_ok, Prod.exists,
    Prod.mk.injEq] at ran
  obtain ⟨-, -, version, -, cleared, clearing, rows, filled, filling, logged, logging, -, -, -,
    rfl⟩ := ran
  have backed_cleared : Backed {name | ∃ row ∈ w.tx.primary.rows uuid, row.name = name} cleared :=
    (backed.mono (Set.empty_subset _)).leaves (leaves_deleteRows backed.consistent
      (fun holds _ => ⟨_, backed.consistent.mem_rows.mpr holds, rfl⟩) clearing)
  have backed_filled : Backed ∅ filled := Except.foldlM_induction
    (fun held : List FieldRow × Writer => Backed ∅ held.2) (by
      intro field _ held next backed_held stepped
      simp only [Except.bind_eq_ok, Except.pure_eq_ok, Prod.exists] at stepped
      obtain ⟨noted, noting, checked, typing, row, inserted, inserting, rfl⟩ := stepped
      exact (backed_held.validateTreeRef noting).write typing inserting)
    backed_cleared.forgetEach filling
  exact backed_filled.logOp logging

theorem Backed.setFieldAs {w after : Writer} (backed : Backed ∅ w) {opType : OpType} {uuid : Uuid}
    {name : String} {value : Value} (ran : w.setFieldAs opType uuid name value = .ok after) :
    Backed ∅ after := by
  simp only [Writer.setFieldAs, Except.bind_eq_ok, Except.pure_eq_ok, Prod.exists] at ran
  obtain ⟨noted, noting, checked, typing, version, -, cleared, clearing, row, filled, filling,
    logged, logging, rfl⟩ := ran
  obtain ⟨typed, -, -⟩ := (backed.validateTreeRef noting).validate typing
  rw [insert_empty_eq] at typed
  obtain ⟨backed_filled, bears, -⟩ := (typed.deleteRows clearing).insert_row filling
  have leaves : Leaves ∅ filled logged := leaves_logOp backed_filled.consistent logging
  have backed_logged := backed_filled.logOp logging
  split
  next => exact Backed.forget (by rwa [insert_empty_eq])
  next present =>
    refine backed_logged.close fun other member _ => ?_
    obtain rfl : other = name := member
    exact (bears ((Bool.not_eq_true _).mp present)).mono
      fun holds _ _ => leaves.holds (by simp) holds

/-- Rows inserted one after the other: the name is borne once a value other than `Nothing` is
written. -/
theorem Backed.insertEach {start after : List FieldRow × Writer} (backed : Backed free start.2)
    {uuid : Uuid} {name : String} {values : List Value}
    (ran : values.foldlM (fun held value => do
      let (row, w) ← held.2.insertRow uuid name value none
      pure (held.1 ++ [row], w)) start = .ok after) : Backed free after.2 ∧
        ((∃ value ∈ values, value.isNothing = false) ∨ start.2.tx.primary.Bears name →
          after.2.tx.primary.Bears name) := by
  induction values generalizing start with
  | nil =>
      rw [Except.foldlM_nil_eq_ok] at ran
      subst ran
      exact ⟨backed, by simp⟩
  | cons head tail ih =>
      obtain ⟨middle, first, rest⟩ := Except.foldlM_cons_eq_ok.mp ran
      simp only [Except.bind_eq_ok, Except.pure_eq_ok, Prod.exists] at first
      obtain ⟨row, inserted, inserting, rfl⟩ := first
      obtain ⟨backed_head, bears, stays⟩ := backed.insert_row inserting
      obtain ⟨backed_rest, borne⟩ := ih backed_head rest
      refine ⟨backed_rest, ?_⟩
      rintro (⟨value, member, present⟩ | held)
      · rcases List.mem_cons.mp member with rfl | member
        · exact borne (.inr (bears present))
        · exact borne (.inl ⟨value, member, present⟩)
      · exact borne (.inr (stays held))

omit [Externals] in
/-- A value other than `Nothing` is kept when duplicates collapse. -/
theorem exists_present_of_collapseDuplicates {values : List Value}
    (present : ∃ value ∈ values, value.isNothing = false) :
    ∃ value ∈ (collapseDuplicates values).1, value.isNothing = false := by
  induction values using List.reverseRecOn with
  | nil => simp at present
  | append_singleton values last ih =>
      obtain ⟨value, member, other⟩ := present
      rw [List.mem_append, List.mem_singleton] at member
      obtain ⟨⟨kept, held, equal⟩, same⟩ | ⟨-, same⟩ := collapseDuplicates_concat values last
      · rw [same]
        rcases member with earlier | rfl
        · exact ih ⟨value, earlier, other⟩
        · refine ⟨kept, held, ?_⟩
          rwa [Value.isNothing_eq_of_eq equal]
      · rw [same]
        rcases member with earlier | rfl
        · obtain ⟨kept, held, some_value⟩ := ih ⟨value, earlier, other⟩
          exact ⟨kept, List.mem_append_left _ held, some_value⟩
        · exact ⟨value, by simp, other⟩

theorem Backed.setFieldMultiAs {w after : Writer} (backed : Backed ∅ w) {opType : OpType}
    {uuid : Uuid} {name : String} {values : List Value} {ids : List Int64}
    (ran : w.setFieldMultiAs opType uuid name values = .ok (ids, after)) : Backed ∅ after := by
  simp only [Writer.setFieldMultiAs, Except.bind_eq_ok, Except.pure_eq_ok, Prod.exists,
    Prod.mk.injEq] at ran
  obtain ⟨-, -, noted, noting, version, -, cleared, clearing, rows, filled, filling, logged,
    logging, -, rfl⟩ := ran
  have typed : Backed {name} noted := (backed.mono (Set.empty_subset _)).fold (by
    intro w value after held stepped
    obtain ⟨middle, noting, typing⟩ := Except.bind_eq_ok.mp stepped
    obtain ⟨checked, -, -⟩ := (held.validateTreeRef noting).validate typing
    rwa [Set.pair_eq_singleton] at checked) noting
  obtain ⟨backed_filled, bears⟩ := (typed.deleteRows clearing).insertEach filling
  have leaves : Leaves ∅ filled logged := leaves_logOp backed_filled.consistent logging
  have backed_logged := backed_filled.logOp logging
  split
  next => exact Backed.forget (by rwa [insert_empty_eq])
  next present =>
    have written : ∃ value ∈ values, value.isNothing = false := by
      simpa only [List.all_eq_true, not_forall, exists_prop, Bool.not_eq_true] using present
    refine backed_logged.close fun other member _ => ?_
    obtain rfl : other = name := member
    exact (bears (.inl (exists_present_of_collapseDuplicates written))).mono
      fun holds _ _ => leaves.holds (by simp) holds

theorem Backed.appendField {w after : Writer} (backed : Backed ∅ w) {uuid : Uuid} {name : String}
    {value : Value} {appended : Appended}
    (ran : w.appendField uuid name value = .ok (appended, after)) : Backed ∅ after := by
  simp only [Writer.appendField, Except.bind_eq_ok] at ran
  obtain ⟨-, -, noted, noting, checked, typing, rest⟩ := ran
  have backed_noted := backed.validateTreeRef noting
  split at rest
  next twin found =>
    simp only [Except.pure_eq_ok, Prod.mk.injEq] at rest
    obtain ⟨-, rfl⟩ := rest
    obtain ⟨typed, tx_eq, same⟩ := backed_noted.validate typing
    refine typed.close fun other member met => ?_
    obtain rfl : other = name := by simpa using member
    cases nothing : value.isNothing with
    | true =>
        obtain rfl := same nothing
        exact backed_noted.bears (by simp) met
    | false =>
        have member := List.mem_of_find?_eq_some found
        obtain ⟨holds, named⟩ := typed.consistent.mem_rowsNamed.mp member
        refine ⟨uuid, twin, holds, named, ?_⟩
        have same_value : twin.value.eq value = true := by simpa using List.find?_some found
        rw [Value.isNothing_eq_of_eq same_value, nothing]
  next =>
    simp only [Except.bind_eq_ok, Except.pure_eq_ok, Prod.exists, Prod.mk.injEq] at rest
    obtain ⟨version, -, row, filled, filling, logged, logging, -, rfl⟩ := rest
    exact (backed_noted.write typing filling).logOp logging

theorem Backed.replaceOwnedRow {w after : Writer} (backed : Backed free w) {uuid : Uuid}
    {old : FieldRow} {newName : String} {value : Value} (holds : w.tx.primary.Holds uuid old)
    (member : old.name ∈ free) (ran : w.replaceOwnedRow uuid old newName value = .ok after) :
    Backed free after ∧ (value.isNothing = false → after.tx.primary.Bears newName) ∧
      (∀ {owner row}, w.tx.primary.Holds owner row → row.id ≠ old.id →
        after.tx.primary.Holds owner row) ∧
      ∀ {name}, after.fieldTypes name ≠ none → w.fieldTypes name ≠ none ∧
        (name = newName ∨ name = old.name → newName = old.name) := by
  simp only [Writer.replaceOwnedRow, Except.bind_eq_ok, Except.pure_eq_ok, Prod.exists] at ran
  obtain ⟨version, -, cleared, clearing, middle, logging, next, -, row, filled, filling, logged,
    recording, rfl⟩ := ran
  obtain ⟨gone, deleted, cleared_eq⟩ := deleteRow_eq_ok.mp clearing
  obtain ⟨-, left⟩ := KvTxn.deleteRow_cleared backed.consistent deleted
  have backed_cleared := backed.deleteRow holds member clearing
  have leaves : Leaves ∅ cleared middle := leaves_logOp backed_cleared.consistent logging
  obtain ⟨tx, inserted, -, -, filled_eq⟩ := insertRow_eq_ok.mp filling
  obtain ⟨-, put, -⟩ := KvTxn.insertRow_spec leaves.consistent inserted
  obtain ⟨backed_filled, bears, -⟩ := (backed_cleared.logOp logging).insert_row filling
  have recorded : Leaves ∅ filled logged := leaves_logOp backed_filled.consistent recording
  have stays : ∀ {owner row}, w.tx.primary.Holds owner row → row.id ≠ old.id →
      logged.tx.primary.Holds owner row := by
    intro owner row held differ
    refine recorded.holds (by simp) ?_
    rw [filled_eq]
    refine put.holds_iff.mpr (.inr (leaves.holds (by simp) ?_))
    rw [cleared_eq]
    exact left.holds_iff.mpr ⟨held, differ⟩
  have known : ∀ {name}, logged.fieldTypes name ≠ none → w.fieldTypes name ≠ none := by
    intro name met
    have earlier := recorded.fewer met
    rw [filled_eq] at earlier
    have before := leaves.fewer earlier
    rwa [cleared_eq] at before
  have borne : value.isNothing = false → logged.tx.primary.Bears newName := fun present =>
    (bears present).mono fun held _ _ => recorded.holds (by simp) held
  have backed_logged := backed_filled.logOp recording
  split
  next differ =>
    refine ⟨Backed.forget (Backed.forget (backed_logged.mono ?_)), borne, stays, ?_⟩
    · exact (Set.subset_insert _ _).trans (Set.subset_insert _ _)
    · intro name met
      rw [fieldTypes_forget] at met
      by_cases at_new : name = newName
      · rw [at_new, Function.update_self] at met
        contradiction
      rw [Function.update_of_ne at_new, fieldTypes_forget] at met
      by_cases at_old : name = old.name
      · rw [at_old, Function.update_self] at met
        contradiction
      rw [Function.update_of_ne at_old] at met
      exact ⟨known met, by simp [at_new, at_old]⟩
  next same =>
    exact ⟨backed_logged, borne, stays, fun met => ⟨known met, fun _ => not_not.mp same⟩⟩

/-- A row replaced under its own name by `Nothing` leaves another of its name. -/
theorem Backed.replaceChecked {w after : Writer} (backed : Backed ∅ w) {uuid : Uuid}
    {old : FieldRow} {newName : String} {value : Value} (holds : w.tx.primary.Holds uuid old)
    (keeps : value.isNothing → newName = old.name → w.fieldTypes newName ≠ none →
      w.tx.primary.BearsApart newName fun _ row => row.id = old.id)
    (ran : w.replaceChecked uuid old newName value = .ok after) : Backed ∅ after := by
  simp only [Writer.replaceChecked, Except.bind_eq_ok] at ran
  obtain ⟨-, -, noted, noting, checked, typing, -, -, replacing⟩ := ran
  have leaves : Leaves ∅ w noted := leaves_validateTreeRef backed.consistent noting
  have backed_noted := backed.leaves leaves
  obtain ⟨typed, tx_eq, unchanged⟩ := backed_noted.validate typing
  have stayed : ∀ {owner row}, w.tx.primary.Holds owner row →
      checked.tx.primary.Holds owner row := by
    intro owner row held
    rw [tx_eq]
    exact leaves.holds (by simp) held
  have freed : Backed {newName, old.name} checked := typed.mono (by simp)
  obtain ⟨backed_after, bears, stays, met⟩ :=
    freed.replaceOwnedRow (stayed holds) (by simp) replacing
  refine backed_after.close fun name member known => ?_
  obtain ⟨known_before, names⟩ := met known
  have same : newName = old.name := names (by simpa using member)
  obtain rfl : name = newName := by simpa [← same] using member
  cases nothing : value.isNothing with
  | false => exact bears nothing
  | true =>
      have known_start : w.fieldTypes name ≠ none := by
        rw [unchanged nothing] at known_before
        exact leaves.fewer known_before
      exact (keeps nothing same known_start).bears fun held left => stays (stayed held) left

theorem Backed.deleteField {w after : Writer} (backed : Backed free w) {uuid : Uuid} {id : Int64}
    (ran : w.deleteField uuid id = .ok after) :
    Backed free after ∧ ∀ {name}, after.fieldTypes name ≠ none → w.fieldTypes name ≠ none := by
  simp only [Writer.deleteField, Except.bind_eq_ok, Except.pure_eq_ok] at ran
  obtain ⟨row, owned, version, -, cleared, clearing, logged, logging, rfl⟩ := ran
  obtain ⟨holds, rfl⟩ := getOwnedRow_spec backed.consistent owned
  have leaves : Leaves (insert row.name free) w cleared :=
    leaves_deleteRow backed.consistent (fun held same => by
      rw [(backed.consistent.holds_unique held holds same).2]
      exact Set.mem_insert ..) clearing
  have both := leaves.trans (leaves_logOp leaves.consistent logging)
  refine ⟨((backed.mono (Set.subset_insert ..)).leaves both).forget, fun {name} met => ?_⟩
  by_cases same : name = row.name
  · rw [same, fieldTypes_forget, Function.update_self] at met
    contradiction
  · rw [fieldTypes_forget, Function.update_of_ne same] at met
    exact both.fewer met

theorem Backed.deleteFieldRows {w after : Writer} (backed : Backed ∅ w) {uuid : Uuid}
    {name : String} {rows : List FieldRow}
    (listed : ∀ row ∈ rows, row ∈ w.tx.primary.rowsNamed uuid name) {count : Nat}
    (ran : w.deleteFieldRows uuid name rows = .ok (count, after)) : Backed ∅ after := by
  unfold Writer.deleteFieldRows at ran
  split at ran
  next =>
    rw [Except.pure_eq_ok, Prod.mk.injEq] at ran
    exact ran.2 ▸ backed
  next =>
    simp only [Except.bind_eq_ok, Except.pure_eq_ok, Prod.mk.injEq] at ran
    obtain ⟨version, -, cleared, clearing, logged, logging, -, rfl⟩ := ran
    have walk : ∀ {later : List FieldRow} {held next : Writer}, Backed {name} held →
        (∀ {owner other}, held.tx.primary.Holds owner other → w.tx.primary.Holds owner other) →
        later ⊆ rows → later.foldlM (fun w row => w.deleteRow row.id) held = .ok next →
          Backed {name} next := by
      intro later
      induction later with
      | nil =>
          intro held next kept _ _ ran
          rw [Except.foldlM_nil_eq_ok] at ran
          exact ran ▸ kept
      | cons head tail ih =>
          intro held next kept fewer inside ran
          obtain ⟨middle, first, rest⟩ := Except.foldlM_cons_eq_ok.mp ran
          obtain ⟨head_holds, named⟩ :=
            backed.consistent.mem_rowsNamed.mp (listed head (inside List.mem_cons_self))
          have shrinks := shrinks_deleteRow kept.consistent first
          refine ih (kept.leaves (leaves_deleteRow kept.consistent (fun at_id same => ?_) first))
            (fun at_id => fewer (shrinks.holds at_id))
            (fun _ member => inside (List.mem_cons_of_mem _ member)) rest
          rw [(backed.consistent.holds_unique (fewer at_id) head_holds same).2]
          exact named
    have backed_cleared := walk (backed.mono (Set.empty_subset _)) id (List.Subset.refl _) clearing
    exact Backed.forget (by rw [insert_empty_eq]; exact backed_cleared.logOp logging)

theorem Backed.clearFieldAs {w after : Writer} (backed : Backed ∅ w) {opType : OpType}
    {uuid : Uuid} {name : String} (ran : w.clearFieldAs opType uuid name = .ok after) :
    Backed ∅ after := by
  unfold Writer.clearFieldAs at ran
  dsimp only at ran
  split at ran
  next =>
    rw [Except.pure_eq_ok] at ran
    exact ran ▸ backed
  next =>
    simp only [Except.bind_eq_ok, Except.pure_eq_ok] at ran
    obtain ⟨version, -, cleared, clearing, logged, logging, rfl⟩ := ran
    have backed_cleared := Backed.deleteRows (backed.mono (Set.empty_subset _)) clearing
    exact Backed.forget (by rw [insert_empty_eq]; exact backed_cleared.logOp logging)

theorem Backed.deleteMetarecord {w after : Writer} (backed : Backed ∅ w) {uuid : Uuid}
    (keeps : ∀ name, w.fieldTypes name ≠ none →
      w.tx.primary.BearsApart name fun owner _ => owner = uuid)
    (ran : w.deleteMetarecord uuid = .ok after) : Backed ∅ after := by
  simp only [Writer.deleteMetarecord, Except.bind_eq_ok] at ran
  obtain ⟨version, -, -, -, tx, removing, logging⟩ := ran
  obtain ⟨kept, left, -⟩ := KvTxn.removeMetarecord_spec backed.consistent removing
  have removed : Backed ∅ { w with tx := tx } := ⟨kept, fun _ met =>
    (keeps _ met).bears fun holds apart => left.mpr ⟨holds, apart⟩⟩
  exact removed.logOp logging

/-- One row of a retype: its name stays forgotten. -/
theorem Backed.retypeRow {w after : Writer} {name : String}
    (backed : Backed {name} w) (forgotten : w.fieldTypes name = none) {uuid : Uuid}
    {row : FieldRow} (holds : w.tx.primary.Holds uuid row) (named : row.name = name)
    {target : FieldType} {start summary : RetypeSummary}
    (ran : Writer.retypeRow uuid target (start, w) row = .ok (summary, after)) :
    Backed {name} after ∧ after.fieldTypes name = none := by
  have stays : ∀ {last : Writer},
      (last.fieldTypes name ≠ none → w.fieldTypes name ≠ none) → last.fieldTypes name = none :=
    fun met => not_not.mp fun known => met known forgotten
  unfold Writer.retypeRow at ran
  split at ran
  next =>
    simp only [Except.pure_eq_ok, Prod.mk.injEq] at ran
    exact ran.2 ▸ ⟨backed, forgotten⟩
  next =>
    simp only [Except.bind_eq_ok, Prod.exists] at ran
    obtain ⟨value, fellBack, noted, converting, rest⟩ := ran
    have leaves : Leaves ∅ w noted := by
      unfold retypedValue at converting
      dsimp only at converting
      split at converting
      next =>
        simp only [Except.pure_eq_ok, Prod.mk.injEq] at converting
        exact converting.2 ▸ .refl backed.consistent
      next =>
        split at converting
        next valid =>
          simp only [Except.pure_eq_ok, Prod.mk.injEq] at converting
          obtain ⟨-, -, noting⟩ := Except.bind_eq_ok.mp valid
          exact converting.2 ▸ leaves_validateTreeRef backed.consistent noting
        next =>
          split at converting
          next =>
            simp only [Except.pure_eq_ok, Prod.mk.injEq] at converting
            exact converting.2 ▸ .refl backed.consistent
          next => simp at converting
    have backed_noted : Backed {name} noted := ⟨leaves.consistent, fun apart met =>
      (backed.bears apart (leaves.fewer met)).mono fun held _ _ => leaves.holds (by simp) held⟩
    split at rest
    next =>
      simp only [Except.pure_eq_ok, Prod.mk.injEq] at rest
      exact rest.2 ▸ ⟨backed_noted, stays leaves.fewer⟩
    next =>
      split at rest
      next =>
        simp only [Except.bind_eq_ok, Except.pure_eq_ok, Prod.mk.injEq] at rest
        obtain ⟨removed, removing, -, rfl⟩ := rest
        obtain ⟨backed_after, met⟩ := backed_noted.deleteField removing
        exact ⟨backed_after, stays fun known => leaves.fewer (met known)⟩
      next =>
        simp only [Except.bind_eq_ok, Except.pure_eq_ok, Prod.mk.injEq] at rest
        obtain ⟨replaced, replacing, -, rfl⟩ := rest
        obtain ⟨backed_after, -, -, met⟩ :=
          backed_noted.replaceOwnedRow (leaves.holds (by simp) holds) named replacing
        exact ⟨backed_after, stays fun known => leaves.fewer (met known).1⟩

theorem Backed.retypeRows {w after : Writer} {name : String} (backed : Backed {name} w)
    (forgotten : w.fieldTypes name = none) {uuid : Uuid} {rows : List FieldRow}
    {target : FieldType}
    (listed : ∀ row ∈ rows, w.tx.primary.Holds uuid row ∧ row.name = name) (distinct : rows.Nodup)
    {start summary : RetypeSummary}
    (ran : rows.foldlM (Writer.retypeRow uuid target) (start, w) = .ok (summary, after)) :
    Backed {name} after ∧ after.fieldTypes name = none := by
  induction rows generalizing w start with
  | nil =>
      rw [Except.foldlM_nil_eq_ok, Prod.mk.injEq] at ran
      rw [← ran.2]
      exact ⟨backed, forgotten⟩
  | cons head tail ih =>
      obtain ⟨⟨between, middle⟩, first, rest⟩ := Except.foldlM_cons_eq_ok.mp ran
      obtain ⟨absent, distinct⟩ := List.nodup_cons.mp distinct
      obtain ⟨held, named⟩ := listed head List.mem_cons_self
      obtain ⟨backed_head, forgotten_head⟩ := backed.retypeRow forgotten held named first
      refine ih backed_head forgotten_head (fun row member => ?_) distinct rest
      obtain ⟨holds, row_named⟩ := listed row (List.mem_cons_of_mem _ member)
      refine ⟨retypeRow_holds backed.consistent held first holds fun ids => absent ?_, row_named⟩
      rwa [← (backed.consistent.holds_unique holds held ids).2]

theorem Backed.retypeField {w after : Writer} (backed : Backed ∅ w) {name : String}
    {target : FieldType} {summary : RetypeSummary}
    (ran : w.retypeField name target = .ok (summary, after)) : Backed ∅ after := by
  have walk : ∀ {owners : List Uuid} (start : RetypeSummary × Writer)
      {finish : RetypeSummary × Writer}, Backed {name} start.2 → start.2.fieldTypes name = none →
      owners.foldlM (fun held uuid =>
        (held.2.tx.primary.rowsNamed uuid name).foldlM (Writer.retypeRow uuid target) held) start =
          .ok finish → Backed {name} finish.2 ∧ finish.2.fieldTypes name = none := by
    intro owners
    induction owners with
    | nil =>
        intro start finish held forgotten ran
        rw [Except.foldlM_nil_eq_ok] at ran
        exact ran ▸ ⟨held, forgotten⟩
    | cons head tail ih =>
        intro start finish held forgotten ran
        obtain ⟨middle, first, rest⟩ := Except.foldlM_cons_eq_ok.mp ran
        obtain ⟨backed_head, forgotten_head⟩ := held.retypeRows forgotten
          (fun row member => held.consistent.mem_rowsNamed.mp member)
          (held.consistent.nodup_rowsNamed head name) first
        exact ih middle backed_head forgotten_head rest
  have forgot : Backed ∅ (w.forget name) := Backed.forget (backed.mono (Set.empty_subset _))
  obtain ⟨backed_after, forgotten⟩ := walk ({}, w.forget name)
    (forgot.mono (Set.empty_subset _)) (by simp [fieldTypes_forget]) ran
  refine backed_after.close fun other member known => ?_
  obtain rfl : other = name := member
  exact absurd forgotten known

/-! ### Runs -/

/-- A call that takes no row away without forgetting its name, or leaves another: no metarecord is
deleted with the last row of a name remembered, and none such is replaced by `Nothing` in place. -/
def KeepsBearers (w : Writer) : Call → Prop
  | .deleteMetarecord uuid => ∀ name, w.fieldTypes name ≠ none →
      w.tx.primary.BearsApart name fun owner _ => owner = uuid
  | .replaceField uuid id value => value.isNothing → ∀ row, w.tx.primary.Holds uuid row →
      row.id = id → w.fieldTypes row.name ≠ none →
        w.tx.primary.BearsApart row.name fun _ other => other.id = id
  | .renameField uuid id newName value => value.isNothing → ∀ row, w.tx.primary.Holds uuid row →
      row.id = id → newName = row.name → w.fieldTypes newName ≠ none →
        w.tx.primary.BearsApart newName fun _ other => other.id = id
  | _ => True

/-- A call that puts no check off. -/
def Eager : Call → Prop
  | .revert _ => False
  | _ => True

/-- The states the calls of a write lead to, each call being of a kind where it is made. -/
inductive Run (kind : Writer → Call → Prop) (w : Writer) : Writer → Prop
  | start : Run kind w w
  | call {middle after : Writer} {made : Call} (run : Run kind w middle)
      (fits : kind middle made) (ran : middle.call made = .ok after) : Run kind w after

theorem Backed.call {w after : Writer} (backed : Backed ∅ w) {made : Call} (eager : Eager made)
    (keeps : w.KeepsBearers made) (ran : w.call made = .ok after) : Backed ∅ after := by
  cases made with
  | createMetarecord uuid fields =>
      obtain ⟨⟨record, made⟩, creating, rfl⟩ := Except.map_eq_ok.mp ran
      exact backed.createMetarecordWithUuid creating
  | deleteMetarecord uuid => exact backed.deleteMetarecord keeps ran
  | setRecord uuid fields =>
      obtain ⟨⟨record, made⟩, writing, rfl⟩ := Except.map_eq_ok.mp ran
      exact backed.setRecord writing
  | setFieldAs opType uuid name value => exact backed.setFieldAs ran
  | setFieldMultiAs opType uuid name values =>
      obtain ⟨⟨ids, made⟩, writing, rfl⟩ := Except.map_eq_ok.mp ran
      exact backed.setFieldMultiAs writing
  | appendField uuid name value =>
      obtain ⟨⟨appended, made⟩, writing, rfl⟩ := Except.map_eq_ok.mp ran
      exact backed.appendField writing
  | replaceField uuid id value =>
      obtain ⟨old, owned, replacing⟩ := Except.bind_eq_ok.mp ran
      obtain ⟨holds, rfl⟩ := getOwnedRow_spec backed.consistent owned
      exact backed.replaceChecked holds (fun nothing _ => keeps nothing old holds rfl) replacing
  | renameField uuid id newName value =>
      obtain ⟨old, owned, replacing⟩ := Except.bind_eq_ok.mp ran
      obtain ⟨holds, rfl⟩ := getOwnedRow_spec backed.consistent owned
      exact backed.replaceChecked holds (fun nothing => keeps nothing old holds rfl) replacing
  | retypeField name target =>
      obtain ⟨⟨summary, made⟩, retyping, rfl⟩ := Except.map_eq_ok.mp ran
      exact backed.retypeField retyping
  | deleteField uuid id => exact (backed.deleteField ran).1
  | deleteFieldsValued uuid name value =>
      obtain ⟨⟨count, made⟩, deleting, rfl⟩ := Except.map_eq_ok.mp ran
      exact backed.deleteFieldRows (fun row => List.mem_of_mem_filter) deleting
  | deleteFieldsNamed uuid name =>
      obtain ⟨⟨count, made⟩, deleting, rfl⟩ := Except.map_eq_ok.mp ran
      exact backed.deleteFieldRows (fun row => id) deleting
  | clearFieldAs opType uuid name => exact backed.clearFieldAs ran
  | revert ops => exact eager.elim
  | setOrigin origin =>
      rw [Writer.call, Except.pure_eq_ok] at ran
      subst ran
      exact ⟨backed.consistent, backed.bears⟩

omit [Externals] in
/-- The answer of the check, from the type remembered or the first the store lists. -/
theorem answer_validateValueType {w : Writer} {name : String} {value : Value} {types : List String}
    (present : value.isNothing = false) (eager : w.deferredTypes = none)
    (read : w.tx.primary.valueTypes name = .ok types) :
    (fun _ => ()) <$> w.validateValueType name value =
      refuseIf (((w.fieldTypes name).or types.head?).any (· ≠ value.typeStr))
        (typeConflict name (((w.fieldTypes name).or types.head?).getD "") value.typeStr) := by
  unfold validateValueType
  rw [if_neg (by simp [present]), eager]
  dsimp only
  rw [encodeValue_valueType]
  cases known : w.fieldTypes name with
  | none =>
      dsimp only
      rw [read, Option.none_or]
      change (fun _ => ()) <$> (refuseIf _ _ >>= fun _ => pure _) = _
      unfold refuseIf
      split <;> rfl
  | some established =>
      rw [Option.some_or]
      change (fun _ => ()) <$> (refuseIf _ _ >>= fun _ => pure _) = _
      unfold refuseIf
      simp only [Option.any_some, Option.getD_some, decide_eq_true_eq]
      split <;> rfl

/-- A write whose remembered types are those of rows answers as one that probes again. -/
theorem Backed.typesRight {w : Writer} (backed : Backed ∅ w) (typed : Typed none w) :
    w.TypesRight := by
  intro name value
  cases nothing : value.isNothing with
  | true =>
      have passes : ∀ {w : Writer}, w.validateValueType name value = .ok w := by
        intro w
        rw [validateValueType, if_pos nothing]
        rfl
      exact ⟨by rw [passes, passes]; rfl, fun refused => by simp [passes] at refused⟩
  | false =>
      cases deferred : w.deferredTypes with
      | some names =>
          have idle := typed.idle (by simp [deferred])
          have same : w.uncached = w := by
            unfold uncached
            rw [← funext idle]
          refine ⟨by rw [same], fun refused => ?_⟩
          rw [validateValueType, if_neg (by simp [nothing]), deferred] at refused
          cases refused
      | none =>
          obtain ⟨types, read, -, mem_types⟩ := typed.consistent.valueTypes_spec name
          have bearer : ∀ {established}, established ∈ types → ∃ owner row,
              w.tx.primary.Holds owner row ∧ row.name = name ∧ row.value ≠ .nothing ∧
                row.value.typeStr = established := by
            intro established member
            obtain ⟨other, counted⟩ := (mem_types established).mp member
            obtain ⟨owner, row, holds, named, row_typed⟩ :=
              typed.consistent.typeCount_pos.mp counted
            refine ⟨owner, row, holds, named, fun nothing => other ?_, row_typed⟩
            rw [← row_typed, nothing]
            rfl
          -- The type remembered is the one the store lists first, as it lists no other.
          have listed : (w.fieldTypes name).or types.head? = types.head? := by
            cases known : w.fieldTypes name with
            | none => rfl
            | some established =>
                have of_type := (typed.cached known).2
                obtain ⟨owner, row, holds, named, present⟩ :=
                  backed.bears (Set.notMem_empty name) (by simp [known])
                have row_typed := of_type holds named present
                have other : established ≠ "nothing" := by
                  rw [← row_typed, ne_eq, Value.typeStr_eq_nothing_iff, ← Value.isNothing_iff,
                    present]
                  exact Bool.false_ne_true
                have member : established ∈ types := (mem_types established).mpr
                  ⟨other, typed.consistent.typeCount_pos.mpr ⟨owner, row, holds, named, row_typed⟩⟩
                cases types with
                | nil => simp at member
                | cons first rest =>
                    obtain ⟨holder, held, holds_held, held_named, held_present, held_typed⟩ :=
                      bearer (List.mem_cons_self (a := first))
                    rw [Option.some_or, List.head?_cons, ← held_typed,
                      of_type holds_held held_named]
                    rw [← Bool.not_eq_true, Value.isNothing_iff]
                    exact held_present
          have answer := answer_validateValueType nothing deferred read
          have probed : (fun _ => ()) <$> w.uncached.validateValueType name value = _ :=
            answer_validateValueType (w := w.uncached) nothing deferred read
          rw [listed] at answer
          refine ⟨answer.trans probed.symm, fun refused => ?_⟩
          rw [refused] at answer
          by_cases conflict : types.head?.any (· ≠ value.typeStr)
          · obtain ⟨established, first, differ⟩ := (Option.any_eq_true _ _).mp conflict
            obtain ⟨owner, row, holds, named, present, row_typed⟩ :=
              bearer (List.mem_of_head? first)
            exact ⟨owner, row, holds, named, present, by simpa [row_typed] using differ⟩
          · rw [refuseIf, if_neg conflict] at answer
            cases answer

/-- The state of a run: the types remembered are those of rows, and each name has one. -/
theorem Run.backed {kind : Writer → Call → Prop} {w after : Writer} (backed : Backed ∅ w)
    (typed : Typed none w)
    (fits : ∀ {w made}, kind w made → Eager made ∧ w.KeepsBearers made) (run : Run kind w after) :
    Backed ∅ after ∧ Typed none after := by
  induction run with
  | start => exact ⟨backed, typed⟩
  | call _ fit ran ih =>
      obtain ⟨backed_middle, typed_middle⟩ := ih
      obtain ⟨eager, keeps⟩ := fits fit
      exact ⟨backed_middle.call eager keeps ran, typed_middle.call ran⟩

/-- In a write whose calls keep a row under each name remembered, the check of a value's type
answers as an uncached one in every state. -/
theorem typesRight_of_run {store : KvStore} (reached : Reachable (fun _ => True) store)
    {context : WriteContext} {retention : Retention} {timestamp : Int64} {w after : Writer}
    (opening : beginIn store context retention timestamp = .ok w)
    (run : Run (fun w made => Eager made ∧ w.KeepsBearers made) w after) : after.TypesRight := by
  obtain ⟨steps, history, -⟩ := reached.history
  obtain ⟨tx_eq, -, -, -, -, eager, -, unmet⟩ := beginIn_spec opening
  have consistent : w.tx.primary.Consistent := tx_eq ▸ history.consistent
  have typed : Typed none w :=
    ⟨consistent, by simp [unmet], fun _ _ => tx_eq ▸ reached.single _, by simp [eager]⟩
  have backed : Backed ∅ w := ⟨consistent, by simp [unmet]⟩
  obtain ⟨backed_after, typed_after⟩ := run.backed backed typed id
  exact backed_after.typesRight typed_after

/-- A write that replaces one of two rows of a name by `Nothing`. -/
def sampleKept : List Call :=
  [.createMetarecord (sampleUuids 1) [⟨"count", .int 12⟩],
    .createMetarecord (sampleUuids 2) [⟨"count", .int 12⟩],
    .replaceField (sampleUuids 1) 1 .nothing]

omit [Externals] in
theorem sampleKept_run : letI : Externals := plainExternals
    (do
      let w ← beginIn {} (.new ⟨"kept", none, none⟩) .unlimited 7
      let first ← w.call (.createMetarecord (sampleUuids 1) [⟨"count", .int 12⟩])
      let second ← first.call (.createMetarecord (sampleUuids 2) [⟨"count", .int 12⟩])
      let _ ← second.call (.replaceField (sampleUuids 1) 1 .nothing)
      pure (second.tx.primary.rows (sampleUuids 1), second.tx.primary.rows (sampleUuids 2))) =
        (.ok ([⟨1, "count", .int 12⟩], [⟨2, "count", .int 12⟩]) :
          Outcome (List FieldRow × List FieldRow)) := by
  decide +kernel

omit [Externals] in
theorem typesRight_of_sampleKept : letI : Externals := plainExternals
    ∃ w after, beginIn {} (.new ⟨"kept", none, none⟩) .unlimited 7 = .ok w ∧
      sampleKept.foldlM call w = .ok after ∧ after.TypesRight := by
  let _ : Externals := plainExternals
  have ran := sampleKept_run
  simp only [Except.bind_eq_ok, Except.pure_eq_ok, Prod.mk.injEq] at ran
  obtain ⟨w, opening, first, created, second, added, after, replaced, rows_first,
    rows_second⟩ := ran
  have start : Backed ∅ w ∧ Typed none w := by
    obtain ⟨tx_eq, -, -, -, -, eager, -, unmet⟩ := beginIn_spec opening
    have fresh : Reachable (fun _ => True) {} := .new
    obtain ⟨steps, history, -⟩ := fresh.history
    have consistent : w.tx.primary.Consistent := tx_eq ▸ history.consistent
    refine ⟨⟨consistent, by simp [unmet]⟩, ⟨consistent, by simp [unmet], fun _ _ => ?_,
      by simp [eager]⟩⟩
    exact tx_eq ▸ fresh.single _
  have creates : ∀ (held : Writer) {uuid fields}, Eager (.createMetarecord uuid fields) ∧
      held.KeepsBearers (.createMetarecord uuid fields) := fun _ => ⟨trivial, trivial⟩
  have two : Run (fun w made => Eager made ∧ w.KeepsBearers made) w second :=
    .call (.call .start (creates w) created) (creates first) added
  have consistent := (two.backed start.1 start.2 id).1.consistent
  have kept : second.tx.primary.Holds (sampleUuids 2) ⟨2, "count", .int 12⟩ :=
    consistent.mem_rows.mp (by simp [rows_second])
  have keeps : second.KeepsBearers (.replaceField (sampleUuids 1) 1 .nothing) := by
    intro _ row holds _ _
    have listed := consistent.mem_rows.mpr holds
    rw [rows_first, List.mem_singleton] at listed
    subst listed
    exact ⟨_, _, kept, rfl, rfl, by decide⟩
  refine ⟨w, after, opening, ?_, ?_⟩
  · refine Except.foldlM_cons_eq_ok.mpr ⟨first, created, ?_⟩
    refine Except.foldlM_cons_eq_ok.mpr ⟨second, added, ?_⟩
    exact Except.foldlM_cons_eq_ok.mpr ⟨after, replaced, Except.foldlM_nil_eq_ok.mpr rfl⟩
  · have eager : Eager (.replaceField (sampleUuids 1) 1 .nothing) := trivial
    exact typesRight_of_run .new opening (.call two ⟨eager, keeps⟩ replaced)

/-- The calls of a write that deletes the only metarecord with a field it has written. -/
def sampleUnlocked : List Call :=
  [.createMetarecord (sampleUuids 1) [⟨"count", .int 12⟩], .deleteMetarecord (sampleUuids 1)]

/-- Whether a value passes its check. -/
def passes (w : Writer) (name : String) (value : Value) : Bool :=
  ((fun _ => ()) <$> w.validateValueType name value).isOk

omit [Externals] in
theorem sampleUnlocked_run : letI : Externals := plainExternals
    (do
      let w ← beginIn {} (.new ⟨"unlocked", none, none⟩) .unlimited 7
      let after ← sampleUnlocked.foldlM call w
      pure (after.passes "count" (.string "none"),
        after.uncached.passes "count" (.string "none"))) =
        (.ok (false, true) : Outcome (Bool × Bool)) := by
  decide +kernel

omit [Externals] in
/-- A metarecord is deleted with the only row of a name; another type is refused still. -/
theorem deleted_type_remembered : letI : Externals := plainExternals
    ¬∀ (store : KvStore) (context : WriteContext) (retention : Retention) (timestamp : Int64)
      (w after : Writer), Reachable (fun _ => True) store →
        beginIn store context retention timestamp = .ok w →
          Run (fun _ made => Eager made) w after → after.TypesRight := by
  let _ : Externals := plainExternals
  intro right
  have ran := sampleUnlocked_run
  simp only [Except.bind_eq_ok, Except.pure_eq_ok, Prod.mk.injEq] at ran
  obtain ⟨w, opening, after, calling, refused, admitted⟩ := ran
  obtain ⟨middle, created, rest⟩ := Except.foldlM_cons_eq_ok.mp calling
  obtain ⟨last, deleted, rest⟩ := Except.foldlM_cons_eq_ok.mp rest
  rw [Except.foldlM_nil_eq_ok] at rest
  subst rest
  have run : Run (fun _ made => Eager made) w last :=
    .call (.call .start (show Eager (.createMetarecord _ _) from trivial) created)
      (show Eager (.deleteMetarecord _) from trivial) deleted
  have answers := (right {} _ _ _ w last .new opening run "count" (.string "none")).1
  rw [passes, answers] at refused
  rw [passes, refused] at admitted
  contradiction

end Writer

end Metafolder
