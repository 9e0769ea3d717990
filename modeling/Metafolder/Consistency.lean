import Metafolder.KvTxn
import Metafolder.PrimarySteps

/-!
# The primitives of a write transaction keep the primary tables consistent

Each primitive is characterised by the rows held afterwards.  Over any sequence of calls the primary
tables agree, and the row counter is past every row id ever given.
-/

namespace Metafolder

namespace KvTxn

variable [Externals]

theorem insertRow_spec {tx after : KvTxn} (consistent : tx.primary.Consistent) {uuid : Uuid}
    {name : String} {value : Value} {given : Option Int64} {id : Int64}
    (ran : tx.insertRow uuid name value given = .ok (id, after)) :
    after.primary.Consistent ∧ tx.primary.Inserted uuid ⟨id, name, value⟩ after.primary ∧
      (given = none ∧ id = tx.primary.nextRow ∨ given = some id) :=
  Primary.insertRow_spec consistent (insertRow_primary ran)

theorem deleteRow_spec {tx after : KvTxn} (consistent : tx.primary.Consistent) {id : Int64}
    (ran : tx.deleteRow id = .ok after) :
    after.primary.Consistent ∧
      ((after.primary = tx.primary ∧ ∀ {owner held}, tx.primary.Holds owner held → held.id ≠ id) ∨
        ∃ owner row, row.id = id ∧ tx.primary.Deleted owner row after.primary) := by
  obtain ⟨removed, deleted⟩ := deleteRow_primary ran
  obtain ⟨kept, ⟨-, same, absent⟩ | ⟨owner, row, -, ids, gone⟩⟩ :=
    Primary.deleteRow_spec consistent deleted
  · exact ⟨kept, .inl ⟨same, absent⟩⟩
  · exact ⟨kept, .inr ⟨owner, row, ids, gone⟩⟩

/-- What `delete_rows` and `remove_metarecord` do: the rows of some ids are gone. -/
structure Cleared (before : Primary) (gone : Uuid → FieldRow → Prop) (after : Primary) : Prop where
  /-- The rows are those held before, but for those that went. -/
  holds_iff : ∀ {owner held}, after.Holds owner held ↔ before.Holds owner held ∧ ¬gone owner held
  /-- The metarecords and their versions stay. -/
  metarecords_eq : after.metarecords = before.metarecords
  /-- The row counter stays. -/
  nextRow_eq : after.nextRow = before.nextRow

/-- Deleting a row by its id, whether or not it is there. -/
theorem deleteRow_cleared {tx after : KvTxn} (consistent : tx.primary.Consistent) {id : Int64}
    (ran : tx.deleteRow id = .ok after) :
    after.primary.Consistent ∧ Cleared tx.primary (fun _ held => held.id = id) after.primary := by
  obtain ⟨kept, ⟨same, absent⟩ | ⟨owner, row, rfl, gone⟩⟩ := deleteRow_spec consistent ran
  · refine ⟨kept, ⟨?_, by rw [same], by rw [same]⟩⟩
    intro owner held
    rw [same]
    exact ⟨fun holds => ⟨holds, absent holds⟩, And.left⟩
  · exact ⟨kept, ⟨gone.holds_iff, gone.metarecords_eq, gone.nextRow_eq⟩⟩

theorem deleteEach_cleared {tx after : KvTxn} (consistent : tx.primary.Consistent)
    {rows : List FieldRow} (chosen : FieldRow → Bool)
    (ran : rows.foldlM (fun held row =>
      if chosen row then held.deleteRow row.id else pure held) tx = .ok after) :
    after.primary.Consistent ∧
      Cleared tx.primary (fun _ held => ∃ row ∈ rows, chosen row ∧ held.id = row.id)
        after.primary := by
  induction rows generalizing tx with
  | nil =>
      rw [Except.foldlM_nil_eq_ok] at ran
      subst ran
      exact ⟨consistent, by simp, rfl, rfl⟩
  | cons head tail ih =>
      obtain ⟨middle, stepped, rest⟩ := Except.foldlM_cons_eq_ok.mp ran
      by_cases picked : chosen head
      · rw [if_pos picked] at stepped
        obtain ⟨kept, first⟩ := deleteRow_cleared consistent stepped
        obtain ⟨left, others⟩ := ih kept rest
        refine ⟨left, ⟨?_, others.metarecords_eq.trans first.metarecords_eq,
          others.nextRow_eq.trans first.nextRow_eq⟩⟩
        intro owner held
        rw [others.holds_iff, first.holds_iff]
        simp only [List.mem_cons, exists_eq_or_imp, picked, true_and, not_or, and_assoc]
      · rw [if_neg picked, Except.pure_eq_ok] at stepped
        subst stepped
        obtain ⟨left, others⟩ := ih consistent rest
        refine ⟨left, ⟨?_, others.metarecords_eq, others.nextRow_eq⟩⟩
        intro owner held
        rw [others.holds_iff]
        simp [picked]

/-- Whether a row is among those `delete_rows` takes. -/
def Names (name : Option String) (row : FieldRow) : Prop := ∀ wanted ∈ name, row.name = wanted

theorem deleteRows_spec {tx after : KvTxn} (consistent : tx.primary.Consistent) {uuid : Uuid}
    {name : Option String} (ran : tx.deleteRows uuid name = .ok after) :
    after.primary.Consistent ∧
      Cleared tx.primary (fun owner held => owner = uuid ∧ Names name held) after.primary := by
  obtain ⟨kept, cleared⟩ := deleteEach_cleared consistent
    (fun row => name.all (· = row.name)) ran
  refine ⟨kept, ⟨?_, cleared.metarecords_eq, cleared.nextRow_eq⟩⟩
  intro owner held
  rw [cleared.holds_iff]
  refine and_congr_right fun holds => not_congr ?_
  have wanted (row : FieldRow) : (name.all (· = row.name)) = true ↔ Names name row := by
    cases name <;> simp [Names, eq_comm]
  constructor
  · rintro ⟨row, member, picked, ids⟩
    obtain ⟨rfl, rfl⟩ := consistent.holds_unique holds (consistent.mem_rows.mp member) ids
    exact ⟨rfl, (wanted held).mp picked⟩
  · rintro ⟨rfl, picked⟩
    exact ⟨held, consistent.mem_rows.mpr holds, (wanted held).mpr picked, rfl⟩

theorem removeMetarecord_spec {tx after : KvTxn} (consistent : tx.primary.Consistent) {uuid : Uuid}
    (ran : tx.removeMetarecord uuid = .ok after) :
    after.primary.Consistent ∧
      (∀ {owner held}, after.primary.Holds owner held ↔
        tx.primary.Holds owner held ∧ owner ≠ uuid) ∧
      after.primary.metarecords = tx.primary.metarecords.delete uuid.bytes ∧
      after.primary.nextRow = tx.primary.nextRow := by
  simp only [removeMetarecord, Except.bind_eq_ok, Except.pure_eq_ok] at ran
  obtain ⟨cleared, clearing, derived, -, rfl⟩ := ran
  obtain ⟨kept, gone⟩ := deleteRows_spec consistent clearing
  have left : ∀ {owner held}, cleared.primary.Holds owner held ↔
      tx.primary.Holds owner held ∧ owner ≠ uuid := by
    intro owner held
    rw [gone.holds_iff]
    simp [Names]
  refine ⟨kept.delete_metarecord fun row holds => (left.mp holds).2 rfl, left, ?_, gone.nextRow_eq⟩
  rw [← gone.metarecords_eq]
  rfl

theorem createMetarecord_spec {tx after : KvTxn} (consistent : tx.primary.Consistent) {uuid : Uuid}
    {version : UInt64} (ran : tx.createMetarecord uuid version = .ok after) :
    after.primary.Consistent ∧ tx.primary.version uuid = none ∧
      after.primary = { tx.primary with
        metarecords := tx.primary.metarecords.put uuid.bytes version } := by
  simp only [createMetarecord, Except.bind_eq_ok, Except.pure_eq_ok] at ran
  obtain ⟨primary, created, derived, -, rfl⟩ := ran
  refine ⟨consistent.createMetarecord created, ?_⟩
  unfold Primary.createMetarecord at created
  split at created
  · simp at created
  · rename_i absent
    rw [Except.pure_eq_ok] at created
    exact ⟨Option.not_isSome_iff_eq_none.mp absent, created.symm⟩

/-! ### Sequences of calls -/

/-- A call of a primitive. -/
inductive Call
  | insertRow (uuid : Uuid) (name : String) (value : Value) (given : Option Int64)
  | deleteRow (id : Int64)
  | deleteRows (uuid : Uuid) (name : Option String)
  | createMetarecord (uuid : Uuid) (version : UInt64)
  | removeMetarecord (uuid : Uuid)
  | clearMetarecords

/-- What a call does to the transaction, and to the list of row ids given so far. -/
def call (state : List Int64 × KvTxn) : Call → Outcome (List Int64 × KvTxn)
  | .insertRow uuid name value given => do
      let (id, tx) ← state.2.insertRow uuid name value given
      pure (id :: state.1, tx)
  | .deleteRow id => do pure (state.1, ← state.2.deleteRow id)
  | .deleteRows uuid name => do pure (state.1, ← state.2.deleteRows uuid name)
  | .createMetarecord uuid version => do pure (state.1, ← state.2.createMetarecord uuid version)
  | .removeMetarecord uuid => do pure (state.1, ← state.2.removeMetarecord uuid)
  | .clearMetarecords => pure (state.1, state.2.clearMetarecords)

/-- The tables agree, and the row counter is past every row id given. -/
def Accounted (state : List Int64 × KvTxn) : Prop :=
  state.2.primary.Consistent ∧ ∀ id ∈ state.1, id < state.2.primary.nextRow

theorem Accounted.call {state after : List Int64 × KvTxn} (accounted : Accounted state)
    {made : Call} (ran : KvTxn.call state made = .ok after) : Accounted after := by
  obtain ⟨consistent, used⟩ := accounted
  cases made with
  | insertRow uuid name value given =>
      simp only [KvTxn.call, Except.bind_eq_ok, Except.pure_eq_ok, Prod.exists] at ran
      obtain ⟨id, tx, inserted, rfl⟩ := ran
      obtain ⟨kept, row, -⟩ := insertRow_spec consistent inserted
      refine ⟨kept, fun given member => ?_⟩
      rcases List.mem_cons.mp member with rfl | member
      · exact row.id_lt
      · exact Int64.lt_of_lt_of_le (used given member) row.nextRow_le
  | deleteRow id =>
      simp only [KvTxn.call, Except.bind_eq_ok, Except.pure_eq_ok] at ran
      obtain ⟨tx, deleted, rfl⟩ := ran
      obtain ⟨kept, gone⟩ := deleteRow_cleared consistent deleted
      exact ⟨kept, by rwa [gone.nextRow_eq]⟩
  | deleteRows uuid name =>
      simp only [KvTxn.call, Except.bind_eq_ok, Except.pure_eq_ok] at ran
      obtain ⟨tx, deleted, rfl⟩ := ran
      obtain ⟨kept, gone⟩ := deleteRows_spec consistent deleted
      exact ⟨kept, by rwa [gone.nextRow_eq]⟩
  | createMetarecord uuid version =>
      simp only [KvTxn.call, Except.bind_eq_ok, Except.pure_eq_ok] at ran
      obtain ⟨tx, created, rfl⟩ := ran
      obtain ⟨kept, -, same⟩ := createMetarecord_spec consistent created
      exact ⟨kept, by simpa only [same] using used⟩
  | removeMetarecord uuid =>
      simp only [KvTxn.call, Except.bind_eq_ok, Except.pure_eq_ok] at ran
      obtain ⟨tx, removed, rfl⟩ := ran
      obtain ⟨kept, -, -, same⟩ := removeMetarecord_spec consistent removed
      exact ⟨kept, by rwa [same]⟩
  | clearMetarecords =>
      simp only [KvTxn.call, Except.pure_eq_ok] at ran
      subst ran
      exact ⟨Primary.consistent_of_empty _, used⟩

/-- Over any sequence of calls on a new store, the primary tables agree: they index one set of rows,
each of one metarecord and one field and of an existing metarecord, count them exactly by type, and
hold one forest entry per position; the row counter is past every row id ever given. -/
theorem primary_tables_agree {calls : List Call} {used : List Int64} {tx : KvTxn}
    (ran : calls.foldlM KvTxn.call ([], {}) = .ok (used, tx)) :
    tx.primary.Consistent ∧
      (∀ {first second rowFirst rowSecond}, tx.primary.Holds first rowFirst →
        tx.primary.Holds second rowSecond → rowFirst.id = rowSecond.id →
          first = second ∧ rowFirst = rowSecond) ∧
      (∀ {first second rowFirst rowSecond key}, tx.primary.Holds first rowFirst →
        tx.primary.Holds second rowSecond →
          forestKey rowFirst.name rowFirst.value = some key →
            forestKey rowSecond.name rowSecond.value = some key →
              first = second ∧ rowFirst = rowSecond) ∧
      ∀ id ∈ used, id < tx.primary.nextRow := by
  have start : Accounted ([], {}) := ⟨Primary.consistent_of_empty 1, by simp⟩
  obtain ⟨consistent, past⟩ := Except.foldlM_induction Accounted
    (fun made _ before after accounted stepped => accounted.call stepped) start ran
  exact ⟨consistent, consistent.holds_unique, consistent.forest_unique, past⟩

/-- Two metarecords, one placed under the other and then removed. -/
def sampleCalls : List Call :=
  let uuid (n : UInt8) : Uuid := ⟨List.replicate 16 n, Uuid.length_filled n⟩
  [.createMetarecord (uuid 1) 0, .createMetarecord (uuid 2) 0,
    .insertRow (uuid 1) "place" (.treeRef none (.ofString "top")) none,
    .insertRow (uuid 2) "place" (.treeRef (some (uuid 1)) (.ofString "leaf")) (some 7),
    .insertRow (uuid 2) "note" (.string "a text") none,
    .deleteRow 1, .removeMetarecord (uuid 2)]

omit [Externals] in
theorem primary_tables_agree_sample :
    ∃ used tx, sampleCalls.foldlM (@KvTxn.call plainExternals) ([], {}) = .ok (used, tx) ∧
      used = [8, 7, 1] ∧ @Primary.Consistent plainExternals tx.primary ∧
      ∀ id ∈ used, id < tx.primary.nextRow := by
  have ids : (sampleCalls.foldlM (@KvTxn.call plainExternals) ([], {})).map Prod.fst =
      .ok [8, 7, 1] := by
    decide +kernel
  obtain ⟨⟨used, tx⟩, ran, named⟩ := Except.map_eq_ok.mp ids
  have agree := @primary_tables_agree plainExternals _ _ _ ran
  exact ⟨used, tx, ran, named, agree.1, agree.2.2.2⟩

end KvTxn

end Metafolder
