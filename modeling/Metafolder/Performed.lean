import Metafolder.Consistency
import Metafolder.Log
import Metafolder.Version

/-!
# Operations on the data

An operation moves rows of one metarecord: the rows it took away go one by one, and the rows it put
come in their order under their ids; it may create the metarecord first, or take it away last.
`Performed` says that the primitives were called in this way, and `Diff` what that does to the rows
and the versions.
-/

namespace Metafolder

namespace KvTxn

variable [Externals]

/-- Rows are deleted one after the other. -/
def deleteEach (tx : KvTxn) (rows : List FieldRow) : Outcome KvTxn :=
  rows.foldlM (fun held row => held.deleteRow row.id) tx

/-- Rows are inserted one after the other, under their ids. -/
def insertEach (tx : KvTxn) (uuid : Uuid) (rows : List FieldRow) : Outcome KvTxn :=
  rows.foldlM (fun held row =>
    Prod.snd <$> held.insertRow uuid row.name row.value (some row.id)) tx

/-- The metarecord of an operation, which creates it when it had no version. -/
def opened (tx : KvTxn) (uuid : Uuid) (versionBefore : Option UInt64) : Outcome KvTxn :=
  match versionBefore with
  | none => tx.createMetarecord uuid (Version.base uuid)
  | some version => do
      refuseIf (tx.primary.version uuid ≠ some version) (.internal "another version")
      pure tx

/-- The rows of an operation were moved: those it took away, in some order, then those it put. -/
structure Moved (tx : KvTxn) (uuid : Uuid) (versionBefore : Option UInt64)
    (before after : List FieldRow) (filled : KvTxn) : Prop where
  /-- The rows it took away were there. -/
  held : ∀ row ∈ before, tx.primary.Holds uuid row
  /-- It took each away once. -/
  distinct : before.Nodup
  /-- The calls it made. -/
  calls : ∃ removed created cleared, removed.Perm before ∧
    tx.opened uuid versionBefore = .ok created ∧ created.deleteEach removed = .ok cleared ∧
      cleared.insertEach uuid after = .ok filled

/-- The metarecord is taken away, its rows gone already. -/
def dropped (tx : KvTxn) (uuid : Uuid) : Outcome KvTxn := do
  let derived ← tx.derived.deriveRemoved uuid
  pure ⟨tx.primary.dropMetarecord uuid, derived⟩

/-- What ends an operation: the metarecord is gone with its rows, or has its new version. -/
def Settled (filled : KvTxn) (op : NewOp) (after : KvTxn) : Prop :=
  match op.versionAfter with
  | none => op.after = [] ∧ (∀ row, ¬filled.primary.Holds op.entity row) ∧
      filled.dropped op.entity = .ok after
  | some version =>
      version = Version.apply (op.versionBefore.getD (Version.base op.entity))
        (Version.delta op.before op.after).1 (Version.delta op.before op.after).2 ∧
      after = filled.setVersion op.entity version

/-- An operation was performed on a transaction. -/
structure Performed (tx : KvTxn) (op : NewOp) (after : KvTxn) : Prop where
  /-- Its rows were moved, and its metarecord has its version. -/
  done : ∃ filled, tx.Moved op.entity op.versionBefore op.before op.after filled ∧
    filled.Settled op after

/-! ### Rows deleted and inserted one after the other -/

theorem deleteRows_eq (tx : KvTxn) (uuid : Uuid) (name : Option String) :
    tx.deleteRows uuid name =
      tx.deleteEach ((tx.primary.rows uuid).filter fun row => name.all (· = row.name)) := by
  rw [deleteRows, deleteEach, List.foldlM_filter]

theorem deleteEach_spec {tx after : KvTxn} (consistent : tx.primary.Consistent)
    {rows : List FieldRow} (ran : tx.deleteEach rows = .ok after) :
    after.primary.Consistent ∧
      Cleared tx.primary (fun _ held => ∃ row ∈ rows, held.id = row.id) after.primary := by
  have each : rows.foldlM (fun held row =>
      if (fun _ => true) row then held.deleteRow row.id else pure held) tx = .ok after := ran
  simpa using deleteEach_cleared consistent (fun _ => true) each

/-- What inserting rows does: they are there too. -/
structure Filled (before : Primary) (uuid : Uuid) (rows : List FieldRow) (after : Primary) :
    Prop where
  /-- The rows are those held before, and the new ones. -/
  holds_iff : ∀ {owner held}, after.Holds owner held ↔
    (owner = uuid ∧ held ∈ rows.map FieldRow.stored) ∨ before.Holds owner held
  /-- No row had the id of a new row. -/
  fresh : ∀ {owner held}, before.Holds owner held → ∀ row ∈ rows, held.id ≠ row.id
  /-- The new rows have an id each. -/
  distinct : (rows.map FieldRow.id).Nodup
  /-- The metarecords and their versions stay. -/
  metarecords_eq : after.metarecords = before.metarecords
  /-- The row counter does not go back. -/
  nextRow_le : before.nextRow ≤ after.nextRow
  /-- The row counter is past the new rows. -/
  id_lt : ∀ row ∈ rows, row.id < after.nextRow

theorem insertEach_spec {tx after : KvTxn} (consistent : tx.primary.Consistent) {uuid : Uuid}
    {rows : List FieldRow} (ran : tx.insertEach uuid rows = .ok after) :
    after.primary.Consistent ∧ Filled tx.primary uuid rows after.primary := by
  induction rows generalizing tx with
  | nil =>
      rw [insertEach, Except.foldlM_nil_eq_ok] at ran
      subst ran
      exact ⟨consistent, by simp, by simp, by simp, rfl, Int64.le_refl _, by simp⟩
  | cons head tail ih =>
      obtain ⟨middle, stepped, rest⟩ := Except.foldlM_cons_eq_ok.mp ran
      obtain ⟨⟨id, filled⟩, inserted, rfl⟩ := Except.map_eq_ok.mp stepped
      obtain ⟨kept, first, named⟩ := insertRow_spec consistent inserted
      obtain rfl : head.id = id := by simpa using named
      obtain ⟨left, others⟩ := ih kept rest
      have there : filled.primary.Holds uuid head.stored := first.holds_iff.mpr (.inl ⟨rfl, rfl⟩)
      refine ⟨left, ⟨?_, ?_, ?_, others.metarecords_eq.trans first.metarecords_eq,
        Int64.le_trans first.nextRow_le others.nextRow_le, ?_⟩⟩
      · intro owner held
        rw [others.holds_iff, first.holds_iff]
        simp only [List.map_cons, List.mem_cons]
        tauto
      · intro owner held holds row member
        rcases List.mem_cons.mp member with rfl | member
        · exact first.fresh holds
        · exact others.fresh (first.holds_iff.mpr (.inr holds)) row member
      · rw [List.map_cons, List.nodup_cons]
        refine ⟨fun again => ?_, others.distinct⟩
        obtain ⟨row, member, ids⟩ := List.mem_map.mp again
        exact others.fresh there row member ids.symm
      · intro row member
        rcases List.mem_cons.mp member with rfl | member
        · exact Int64.lt_of_lt_of_le first.id_lt others.nextRow_le
        · exact others.id_lt row member

/-- A row inserted under the next id is a row put back under it. -/
theorem insertRow_given {tx after : KvTxn} (consistent : tx.primary.Consistent) {uuid : Uuid}
    {name : String} {value : Value} {id : Int64}
    (ran : tx.insertRow uuid name value none = .ok (id, after)) :
    tx.insertRow uuid name value (some id) = .ok (id, after) := by
  have next_eq : id = tx.primary.nextRow := by
    simpa using (insertRow_spec consistent ran).2.2
  have vacant : tx.primary.rowOwner.get (be tx.primary.nextRow) = none := by
    by_contra present
    obtain ⟨front, owned⟩ := Option.ne_none_iff_exists'.mp present
    obtain ⟨uuid, row, holds, ids, -⟩ := consistent.owner_iff.mp owned
    have below := consistent.id_lt holds
    rw [← be_inj.mp ids] at below
    exact absurd below (Int64.lt_irrefl)
  have allocated : tx.primary.allocate (some id) = tx.primary.allocate none := by
    subst next_eq
    simp only [Primary.allocate, vacant, Option.isSome_none, Bool.false_eq_true, ↓reduceIte,
      Primary.bumpPast, Int64.le_refl, Primary.next, bind_assoc, pure_bind]
  have primary_eq : tx.primary.insertRow uuid name value (some id) =
      tx.primary.insertRow uuid name value none := by
    simp only [Primary.insertRow, allocated]
  simpa only [insertRow, primary_eq] using ran

/-! ### What an operation does -/

/-- What moving the rows of a metarecord does. -/
structure Swapped (store : Primary) (uuid : Uuid) (before after : List FieldRow)
    (filled : Primary) : Prop where
  /-- The rows taken away were there. -/
  held : ∀ row ∈ before, store.Holds uuid row
  /-- Each was taken away once. -/
  distinct_before : before.Nodup
  /-- The rows are those left, and the new ones. -/
  holds_iff : ∀ {owner row}, filled.Holds owner row ↔
    (owner = uuid ∧ row ∈ after.map FieldRow.stored) ∨ (store.Holds owner row ∧ row ∉ before)
  /-- No row left has the id of a new row. -/
  fresh : ∀ {owner row}, store.Holds owner row → row ∉ before → ∀ new ∈ after, row.id ≠ new.id
  /-- The new rows have an id each. -/
  distinct_after : (after.map FieldRow.id).Nodup
  /-- The row counter does not go back. -/
  nextRow_le : store.nextRow ≤ filled.nextRow

omit [Externals] in
theorem nodup_stored {rows : List FieldRow} (distinct : (rows.map FieldRow.id).Nodup) :
    (rows.map FieldRow.stored).Nodup := by
  refine List.Nodup.of_map FieldRow.id ?_
  rwa [List.map_map, show FieldRow.id ∘ FieldRow.stored = FieldRow.id from rfl]

theorem opened_spec {tx created : KvTxn} (consistent : tx.primary.Consistent) {uuid : Uuid}
    {versionBefore : Option UInt64} (ran : tx.opened uuid versionBefore = .ok created) :
    created.primary.Consistent ∧ tx.primary.version uuid = versionBefore ∧
      (∀ owner, created.primary.version owner =
        if uuid = owner then some (versionBefore.getD (Version.base uuid))
        else tx.primary.version owner) ∧
      created.primary.cells = tx.primary.cells ∧ created.primary.nextRow = tx.primary.nextRow := by
  cases versionBefore with
  | none =>
      obtain ⟨kept, absent, same⟩ := createMetarecord_spec consistent ran
      refine ⟨kept, absent, fun owner => ?_, by rw [same], by rw [same]⟩
      rw [same, Primary.version_put]
      rfl
  | some version =>
      simp only [opened, Except.bind_eq_ok, refuseIf_eq_ok, exists_const, not_not,
        Except.pure_eq_ok] at ran
      obtain ⟨present, rfl⟩ := ran
      refine ⟨consistent, present, fun owner => ?_, rfl, rfl⟩
      split
      · rename_i same
        rw [← same, present]
        rfl
      · rfl

theorem Moved.spec {tx filled : KvTxn} (consistent : tx.primary.Consistent) {uuid : Uuid}
    {versionBefore : Option UInt64} {before after : List FieldRow}
    (moved : tx.Moved uuid versionBefore before after filled) :
    filled.primary.Consistent ∧ Swapped tx.primary uuid before after filled.primary ∧
      tx.primary.version uuid = versionBefore ∧
      ∀ owner, filled.primary.version owner =
        if uuid = owner then some (versionBefore.getD (Version.base uuid))
        else tx.primary.version owner := by
  obtain ⟨removed, created, cleared, removed_perm, opening, clearing, filling⟩ := moved.calls
  obtain ⟨kept, version_eq, versions, cells_eq, created_next⟩ := opened_spec consistent opening
  obtain ⟨left, gone⟩ := deleteEach_spec kept clearing
  obtain ⟨full, put⟩ := insertEach_spec left filling
  have same_rows : ∀ {owner row}, created.primary.Holds owner row ↔ tx.primary.Holds owner row := by
    intro owner row
    rw [Primary.Holds, cells_eq]
    rfl
  have remaining : ∀ {owner row}, cleared.primary.Holds owner row ↔
      tx.primary.Holds owner row ∧ row ∉ before := by
    intro owner row
    rw [gone.holds_iff, same_rows]
    refine and_congr_right fun holds => not_congr ⟨?_, ?_⟩
    · rintro ⟨other, member, ids⟩
      have old := moved.held other (removed_perm.mem_iff.mp member)
      obtain ⟨-, rfl⟩ := consistent.holds_unique holds old ids
      exact removed_perm.mem_iff.mp member
    · intro member
      exact ⟨row, removed_perm.mem_iff.mpr member, rfl⟩
  refine ⟨full, ⟨moved.held, moved.distinct, ?_, ?_, put.distinct, ?_⟩, version_eq,
    fun owner => ?_⟩
  · intro owner row
    rw [put.holds_iff, remaining]
  · intro owner row holds kept_row
    exact put.fresh (remaining.mpr ⟨holds, kept_row⟩)
  · rw [← created_next, ← gone.nextRow_eq]
    exact put.nextRow_le
  · rw [Primary.version, put.metarecords_eq, gone.metarecords_eq, ← Primary.version, versions]

omit [Externals] in
theorem dropped_primary {tx after : KvTxn} {uuid : Uuid} (ran : tx.dropped uuid = .ok after) :
    after.primary = tx.primary.dropMetarecord uuid := by
  simp only [dropped, Except.bind_eq_ok, Except.pure_eq_ok] at ran
  obtain ⟨derived, -, rfl⟩ := ran
  rfl

omit [Externals] in
theorem version_setVersion {store : Primary} {uuid owner : Uuid} {version : UInt64}
    (present : (store.version uuid).isSome) :
    (store.setVersion uuid version).version owner =
      if uuid = owner then some version else store.version owner := by
  have found : (store.metarecords.get uuid.bytes).isSome := present
  rw [Primary.setVersion, if_pos found, Primary.version_put]

omit [Externals] in
theorem version_dropMetarecord {store : Primary} {uuid owner : Uuid} :
    (store.dropMetarecord uuid).version owner =
      if uuid = owner then none else store.version owner := by
  have keys : uuid.bytes = owner.bytes ↔ uuid = owner := ⟨Uuid.ext, fun same => by rw [same]⟩
  simp only [Primary.version, Primary.dropMetarecord, Table.get_delete, keys]

omit [Externals] in
theorem holds_setVersion {store : Primary} {uuid owner : Uuid} {version : UInt64}
    {row : FieldRow} : (store.setVersion uuid version).Holds owner row ↔ store.Holds owner row := by
  unfold Primary.setVersion
  split <;> rfl

omit [Externals] in
theorem nextRow_setVersion (store : Primary) (uuid : Uuid) (version : UInt64) :
    (store.setVersion uuid version).nextRow = store.nextRow := by
  unfold Primary.setVersion
  split <;> rfl

/-- An operation moves the rows it names, and changes the version of its metarecord alone. -/
theorem Performed.spec {tx after : KvTxn} (consistent : tx.primary.Consistent) {op : NewOp}
    (performed : tx.Performed op after) :
    after.primary.Consistent ∧ Swapped tx.primary op.entity op.before op.after after.primary ∧
      tx.primary.version op.entity = op.versionBefore ∧
      ∀ owner, after.primary.version owner =
        if op.entity = owner then op.versionAfter else tx.primary.version owner := by
  obtain ⟨filled, moved, settled⟩ := performed.done
  obtain ⟨full, swapped, version_eq, versions⟩ := moved.spec consistent
  unfold Settled at settled
  split at settled
  next gone =>
    obtain ⟨no_rows, empty, dropping⟩ := settled
    have after_eq := dropped_primary dropping
    have swapped : Swapped tx.primary op.entity op.before op.after after.primary := by
      rw [after_eq]
      exact { swapped with }
    refine ⟨?_, swapped, version_eq, fun owner => ?_⟩
    · rw [after_eq]
      exact full.delete_metarecord empty
    · rw [after_eq, version_dropMetarecord, versions, gone]
      split <;> rfl
  next version kept =>
    obtain ⟨-, rfl⟩ := settled
    have present : (filled.primary.version op.entity).isSome := by
      rw [versions, if_pos rfl]
      rfl
    have swapped : Swapped tx.primary op.entity op.before op.after
        (filled.primary.setVersion op.entity version) := by
      refine { swapped with holds_iff := ?_, nextRow_le := ?_ }
      · intro owner row
        rw [holds_setVersion, swapped.holds_iff]
      · rw [nextRow_setVersion]
        exact swapped.nextRow_le
    refine ⟨full.setVersion op.entity version, swapped, version_eq, fun owner => ?_⟩
    rw [setVersion, version_setVersion present, versions, kept]
    split <;> rfl

/-- The rows there were and the new ones are the rows there are and those that went. -/
theorem Swapped.rows_perm {store filled : Primary} {uuid : Uuid} {before after : List FieldRow}
    (swapped : Swapped store uuid before after filled) (consistent : store.Consistent)
    (full : filled.Consistent) :
    (store.rows uuid ++ after.map FieldRow.stored).Perm (filled.rows uuid ++ before) := by
  have old : (store.rows uuid).Perm
      ((store.rows uuid).filter (· ∉ before) ++ before) := by
    refine (List.perm_ext_iff_of_nodup (consistent.nodup_rows uuid) ?_).mpr fun row => ?_
    · refine ((consistent.nodup_rows uuid).filter _).append swapped.distinct_before ?_
      intro row kept gone
      simp only [List.mem_filter, decide_eq_true_eq] at kept
      exact kept.2 gone
    · have owned : row ∈ before → row ∈ store.rows uuid := fun member =>
        consistent.mem_rows.mpr (swapped.held row member)
      simp only [List.mem_append, List.mem_filter, decide_eq_true_eq]
      tauto
  have new : (filled.rows uuid).Perm
      ((store.rows uuid).filter (· ∉ before) ++ after.map FieldRow.stored) := by
    refine (List.perm_ext_iff_of_nodup (full.nodup_rows uuid) ?_).mpr fun row => ?_
    · refine ((consistent.nodup_rows uuid).filter _).append
        (nodup_stored swapped.distinct_after) ?_
      intro row kept added
      simp only [List.mem_filter, decide_eq_true_eq] at kept
      obtain ⟨added_row, member, rfl⟩ := List.mem_map.mp added
      exact swapped.fresh (consistent.mem_rows.mp kept.1) kept.2 added_row member rfl
    · simp only [full.mem_rows, swapped.holds_iff, List.mem_append, List.mem_filter,
        consistent.mem_rows, decide_eq_true_eq, true_and]
      tauto
  refine (old.append_right _).trans (.trans ?_ (new.symm.append_right _))
  rw [List.append_assoc, List.append_assoc]
  exact List.perm_append_comm.append_left _

/-! ### Versions -/

/-- The version of each metarecord is that of its rows. -/
def Versioned (store : Primary) : Prop :=
  ∀ {uuid version}, store.version uuid = some version →
    version = Version.ofRows uuid (store.rows uuid)

/-- The version an operation starts from is that of the rows there were. -/
theorem Versioned.before {store : Primary} (versioned : Versioned store)
    (consistent : store.Consistent) (uuid : Uuid) :
    (store.version uuid).getD (Version.base uuid) = Version.ofRows uuid (store.rows uuid) := by
  cases found : store.version uuid with
  | some version => exact versioned found
  | none =>
      have empty : store.rows uuid = [] := by
        refine List.eq_nil_iff_forall_not_mem.mpr fun row member => ?_
        have owned := consistent.owner_exists (consistent.mem_rows.mp member)
        simp [found] at owned
      rw [empty]
      exact Version.base_eq_ofRows uuid

theorem Performed.versioned {tx after : KvTxn} (consistent : tx.primary.Consistent)
    (versioned : Versioned tx.primary) {op : NewOp} (performed : tx.Performed op after) :
    Versioned after.primary := by
  obtain ⟨full, swapped, version_eq, versions⟩ := performed.spec consistent
  intro uuid version found
  rw [versions] at found
  split at found
  next same =>
    subst same
    obtain ⟨filled, -, settled⟩ := performed.done
    rw [Settled, found] at settled
    rw [settled.1, ← version_eq, versioned.before consistent]
    refine Version.apply_delta ?_
    have sums := ((swapped.rows_perm consistent full).map Version.term).sum_eq
    simpa [Function.comp_def] using sums
  next other =>
    rw [versioned found]
    refine Version.ofRows_perm (Primary.rows_perm consistent.toIndexed full.toIndexed fun row => ?_)
    rw [swapped.holds_iff]
    constructor
    · intro holds
      refine .inr ⟨holds, fun member => other ?_⟩
      exact (consistent.holds_unique (swapped.held row member) holds rfl).1
    · rintro (⟨same, -⟩ | ⟨holds, -⟩)
      · exact absurd same.symm other
      · exact holds

end KvTxn

end Metafolder
