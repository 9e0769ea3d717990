import Metafolder.Operations
import Metafolder.Transaction

/-!
# Calls as sequences of operations

Every call of a transaction is a sequence of operations and of changes to the notes, whatever loops
it runs through; so is a whole transaction up to its commit.
-/

namespace Metafolder

namespace Writer

variable [Externals]

/-- A sequence of operations of some types leads from one state of a write to another. -/
def Leads (kind : OpType → Prop) (w after : Writer) : Prop :=
  ∃ ops, Writes w ops after ∧ ∀ step ∈ ops, kind step.1.opType

variable {kind : OpType → Prop}

@[refl]
theorem Leads.refl (w : Writer) : Leads kind w w := ⟨[], .quiet (.refl w), by simp⟩

theorem Leads.trans {w middle after : Writer} (one : Leads kind w middle)
    (two : Leads kind middle after) : Leads kind w after := by
  obtain ⟨first, one, fits_one⟩ := one
  obtain ⟨second, two, fits_two⟩ := two
  refine ⟨first ++ second, .append one two, fun step member => ?_⟩
  exact (List.mem_append.mp member).elim (fits_one step) (fits_two step)

theorem Quiet.leads {w after : Writer} (quiet : Quiet w after) : Leads kind w after :=
  ⟨[], .quiet quiet, by simp⟩

theorem Performs.leads {w after : Writer} {opType : OpType} {uuid : Uuid}
    {fieldName : Option String} {before : List FieldRow} {values : List (String × Value)}
    {op : NewOp} (performs : Performs w opType uuid fieldName before values op after)
    (fits : kind opType) : Leads kind w after :=
  ⟨_, .operation performs.toOperation, by simpa [performs.type_eq] using fits⟩

/-- What operations and changes of the notes keep, a sequence of them keeps. -/
theorem Writes.induction {property : Writer → Prop}
    (quiet : ∀ {w after}, Quiet w after → property w → property after)
    (operation : ∀ {w after op}, Operation w op after → property w → property after)
    {w after : Writer} {ops : List (NewOp × KvTxn)} (writes : Writes w ops after)
    (start : property w) : property after := by
  induction writes with
  | quiet step => exact quiet step start
  | operation step => exact operation step start
  | append _ _ one two => exact two (one start)

theorem Writes.consistent {w after : Writer} {ops : List (NewOp × KvTxn)}
    (writes : Writes w ops after) (consistent : w.tx.primary.Consistent) :
    after.tx.primary.Consistent :=
  writes.induction (fun quiet consistent => quiet.tx_eq.symm ▸ consistent)
    (fun step consistent => (step.performed.spec consistent).1) consistent

theorem Leads.consistent {w after : Writer} (leads : Leads kind w after)
    (consistent : w.tx.primary.Consistent) : after.tx.primary.Consistent := by
  obtain ⟨ops, writes, -⟩ := leads
  exact writes.consistent consistent

/-- A loop each turn of which is a sequence of operations is one. -/
theorem leads_of_foldlM {α σ : Type} {step : σ → α → Outcome σ} (writer : σ → Writer)
    {items : List α} {start after : σ}
    (stepped : ∀ item ∈ items, ∀ {held next}, (writer held).tx.primary.Consistent →
      step held item = .ok next → Leads kind (writer held) (writer next))
    (consistent : (writer start).tx.primary.Consistent)
    (ran : items.foldlM step start = .ok after) : Leads kind (writer start) (writer after) := by
  induction items generalizing start with
  | nil =>
      rw [Except.foldlM_nil_eq_ok] at ran
      rw [ran]
  | cons head tail ih =>
      obtain ⟨middle, first, rest⟩ := Except.foldlM_cons_eq_ok.mp ran
      have leads := stepped head List.mem_cons_self consistent first
      exact leads.trans (ih (fun item member => stepped item (List.mem_cons_of_mem _ member))
        (leads.consistent consistent) rest)

/-! ### Retypes -/

/-- A converted value, or `Nothing` where its position is refused. -/
theorem retypedValue_spec {w after : Writer} (consistent : w.tx.primary.Consistent) {uuid : Uuid}
    {row : FieldRow} {target : FieldType} {value : Value} {fellBack : Bool}
    (ran : w.retypedValue uuid row target = .ok ((value, fellBack), after)) :
    Ready w after ∧ after.tx = w.tx ∧
      (value = .nothing ∨ value = (row.value.convertTo target).1) ∧
      Checked w.tx.primary after uuid row.name value ∧
      ∀ {other}, w.tx.primary.Holds uuid other → other.name = row.name → other.id ≠ row.id →
        Together value.stored other.value := by
  unfold retypedValue at ran
  dsimp only at ran
  split at ran
  next absent =>
    simp only [Except.pure_eq_ok, Prod.mk.injEq] at ran
    obtain ⟨converted, rfl⟩ := ran
    have value_eq : value = (row.value.convertTo target).1 := by rw [converted]
    rw [← value_eq] at absent
    refine ⟨.refl w, rfl, .inr value_eq, checked_of_position absent, fun _ _ _ => ?_⟩
    exact together_of_position (by rw [Value.position_stored, absent]; rfl)
  next =>
    split at ran
    next noted valid =>
      simp only [Except.pure_eq_ok, Prod.mk.injEq] at ran
      obtain ⟨converted, rfl⟩ := ran
      have value_eq : value = (row.value.convertTo target).1 := by rw [converted]
      simp only [Except.bind_eq_ok] at valid
      obtain ⟨⟨⟩, alone, noting⟩ := valid
      rw [← value_eq] at alone noting
      obtain ⟨ready, same, checked⟩ := validateTreeRef_spec consistent noting
      refine ⟨ready, same, .inr value_eq, checked, fun holds named other_id => ?_⟩
      exact validateOnePosition_spec consistent alone holds named (by simpa using other_id)
    next failure refused =>
      split at ran
      next =>
        simp only [Except.pure_eq_ok, Prod.mk.injEq] at ran
        obtain ⟨⟨rfl, -⟩, rfl⟩ := ran
        exact ⟨.refl w, rfl, .inl rfl, checked_of_position rfl, fun _ _ _ =>
          together_of_position rfl⟩
      next => simp at ran

/-- One row of a retype: it is skipped, taken away, or gives way to its converted value. -/
theorem retypeRow_spec {w after : Writer} (consistent : w.tx.primary.Consistent) {uuid : Uuid}
    {row : FieldRow} {target : FieldType} (holds : w.tx.primary.Holds uuid row)
    {start summary : RetypeSummary}
    (ran : retypeRow uuid target (start, w) row = .ok (summary, after)) :
    (row.value.isNothing ∧ after = w) ∨ ∃ noted value, Quiet w noted ∧
      (value = .nothing ∨ value = (row.value.convertTo target).1) ∧
      ((value.eq row.value ∧ after = noted) ∨
        (∃ gone, Performs noted .deleteField uuid (some row.name) [row] [] gone after) ∨
        ∃ middle gone put, Performs noted .deleteField uuid (some row.name) [row] [] gone middle ∧
          Performs middle .appendField uuid (some row.name) [] [(row.name, value)] put after ∧
            put.after = [⟨row.id, row.name, value⟩]) := by
  unfold retypeRow at ran
  split at ran
  next empty =>
    simp only [Except.pure_eq_ok, Prod.mk.injEq] at ran
    exact .inl ⟨empty, ran.2.symm⟩
  next =>
    simp only [Except.bind_eq_ok, Prod.exists] at ran
    obtain ⟨value, fellBack, noted, converting, rest⟩ := ran
    obtain ⟨ready, same_tx, value_eq, checked, together⟩ := retypedValue_spec consistent converting
    refine .inr ⟨noted, value, ready.quiet same_tx, value_eq, ?_⟩
    rw [← same_tx] at consistent holds checked
    simp only [← same_tx] at together
    split at rest
    next same =>
      simp only [Except.pure_eq_ok, Prod.mk.injEq] at rest
      exact .inl ⟨same, rest.2.symm⟩
    next =>
      split at rest
      next =>
        simp only [Except.bind_eq_ok, Except.pure_eq_ok, Prod.mk.injEq] at rest
        obtain ⟨removed, removing, -, rfl⟩ := rest
        obtain ⟨found, gone, ids, removes⟩ := deleteField_spec consistent removing
        have held := removes.performed.spec consistent
        rw [removes.entity_eq, removes.before_eq] at held
        obtain ⟨-, rfl⟩ := consistent.holds_unique (held.2.1.held found (by simp)) holds ids
        exact .inr (.inl ⟨gone, removes⟩)
      next =>
        simp only [Except.bind_eq_ok, Except.pure_eq_ok, Prod.mk.injEq] at rest
        obtain ⟨replaced, replacing, -, rfl⟩ := rest
        exact .inr (.inr (replaceOwnedRow_spec consistent holds checked together replacing))

/-- The other rows stay as a row is taken away or replaced. -/
theorem Performs.holds_other {w after : Writer} {opType : OpType} {uuid : Uuid}
    {fieldName : Option String} {row : FieldRow} {values : List (String × Value)} {op : NewOp}
    (consistent : w.tx.primary.Consistent)
    (performs : Performs w opType uuid fieldName [row] values op after) {owner : Uuid}
    {other : FieldRow} (holds : w.tx.primary.Holds owner other) (differ : other.id ≠ row.id) :
    after.tx.primary.Holds owner other := by
  obtain ⟨-, swapped, -⟩ := performs.performed.spec consistent
  rw [performs.before_eq] at swapped
  refine swapped.holds_iff.mpr (.inr ⟨holds, ?_⟩)
  rw [List.mem_singleton]
  rintro rfl
  exact differ rfl

/-- The types of the operations clients write are among those meant. -/
def Usual (kind : OpType → Prop) : Prop := ∀ {opType : OpType}, opType.isManual → kind opType

/-- A row retyped leaves the rows of other ids. -/
theorem retypeRow_holds {w after : Writer} (consistent : w.tx.primary.Consistent) {uuid : Uuid}
    {row : FieldRow} {target : FieldType} (holds : w.tx.primary.Holds uuid row)
    {start summary : RetypeSummary}
    (ran : retypeRow uuid target (start, w) row = .ok (summary, after)) {owner : Uuid}
    {other : FieldRow} (held : w.tx.primary.Holds owner other) (differ : other.id ≠ row.id) :
    after.tx.primary.Holds owner other := by
  obtain ⟨-, rfl⟩ | ⟨noted, value, quiet, -, replaced⟩ := retypeRow_spec consistent holds ran
  · exact held
  rw [← quiet.tx_eq] at consistent held
  rcases replaced with ⟨-, rfl⟩ | ⟨gone, removes⟩ | ⟨middle, gone, put, removes, puts, -⟩
  · exact held
  · exact removes.holds_other consistent held differ
  · have kept := removes.holds_other consistent held differ
    obtain ⟨-, swapped, -⟩ := puts.performed.spec (removes.performed.spec consistent).1
    refine swapped.holds_iff.mpr (.inr ⟨kept, ?_⟩)
    simp [puts.before_eq]

theorem retypeRow_leads (usual : Usual kind) {w after : Writer}
    (consistent : w.tx.primary.Consistent) {uuid : Uuid} {row : FieldRow} {target : FieldType}
    (holds : w.tx.primary.Holds uuid row) {start summary : RetypeSummary}
    (ran : retypeRow uuid target (start, w) row = .ok (summary, after)) : Leads kind w after := by
  obtain ⟨-, rfl⟩ | ⟨noted, value, quiet, -, replaced⟩ := retypeRow_spec consistent holds ran
  · exact .refl _
  rcases replaced with ⟨-, rfl⟩ | ⟨gone, removes⟩ | ⟨middle, gone, put, removes, puts, -⟩
  · exact quiet.leads
  · exact quiet.leads.trans (removes.leads (usual rfl))
  · exact quiet.leads.trans ((removes.leads (usual rfl)).trans (puts.leads (usual rfl)))

theorem retypeRows_leads (usual : Usual kind) {w after : Writer} (consistent : w.tx.primary.Consistent) {uuid : Uuid}
    {rows : List FieldRow} {target : FieldType}
    (holds : ∀ row ∈ rows, w.tx.primary.Holds uuid row) (distinct : rows.Nodup)
    {start summary : RetypeSummary}
    (ran : rows.foldlM (retypeRow uuid target) (start, w) = .ok (summary, after)) :
    Leads kind w after := by
  induction rows generalizing w start with
  | nil =>
      rw [Except.foldlM_nil_eq_ok, Prod.mk.injEq] at ran
      rw [ran.2]
  | cons head tail ih =>
      obtain ⟨⟨between, middle⟩, first, rest⟩ := Except.foldlM_cons_eq_ok.mp ran
      obtain ⟨absent, distinct⟩ := List.nodup_cons.mp distinct
      have held := holds head List.mem_cons_self
      have leads := retypeRow_leads usual consistent held first
      refine leads.trans (ih (leads.consistent consistent) (fun row member => ?_) distinct rest)
      have holds_row := holds row (List.mem_cons_of_mem _ member)
      refine retypeRow_holds consistent held first holds_row fun ids => absent ?_
      rwa [← (consistent.holds_unique holds_row held ids).2]

theorem retypeField_leads (usual : Usual kind) {w after : Writer} (consistent : w.tx.primary.Consistent) {name : String}
    {target : FieldType} {summary : RetypeSummary}
    (ran : w.retypeField name target = .ok (summary, after)) : Leads kind w after := by
  have forgot : Leads kind w (w.forget name) := (Quiet.forget w name).leads
  refine forgot.trans (leads_of_foldlM Prod.snd (fun uuid _ => ?_) consistent ran)
  rintro ⟨start, held⟩ ⟨between, next⟩ whole stepped
  exact retypeRows_leads usual whole (fun row member => (whole.mem_rowsNamed.mp member).1)
    (whole.nodup_rowsNamed uuid name) stepped

theorem replaceChecked_leads (usual : Usual kind) {w after : Writer} (consistent : w.tx.primary.Consistent) {uuid : Uuid}
    {old : FieldRow} {newName : String} {value : Value} (holds : w.tx.primary.Holds uuid old)
    (ran : w.replaceChecked uuid old newName value = .ok after) : Leads kind w after := by
  obtain ⟨noted, middle, gone, put, quiet, removes, puts⟩ :=
    replaceChecked_spec consistent holds ran
  exact quiet.leads.trans ((removes.leads (usual rfl)).trans (puts.leads (usual rfl)))

/-! ### Reverts -/

theorem appendField_leads (usual : Usual kind) {w after : Writer} (consistent : w.tx.primary.Consistent) {uuid : Uuid}
    {name : String} {value : Value} {appended : Appended}
    (ran : w.appendField uuid name value = .ok (appended, after)) : Leads kind w after := by
  obtain ⟨quiet, -⟩ | ⟨op, performs⟩ := appendField_spec consistent ran
  · exact quiet.leads
  · exact performs.leads (usual rfl)

theorem deleteFieldsValued_leads (usual : Usual kind) {w after : Writer} (consistent : w.tx.primary.Consistent)
    {uuid : Uuid} {name : String} {value : Value} {count : Nat}
    (ran : w.deleteFieldsValued uuid name value = .ok (count, after)) : Leads kind w after := by
  obtain ⟨-, rfl⟩ | ⟨op, performs⟩ := deleteFieldsValued_spec consistent ran
  · exact .refl _
  · exact performs.leads (usual rfl)

theorem clearFieldAs_leads {w after : Writer} (consistent : w.tx.primary.Consistent)
    {opType : OpType} (fits : kind opType) {uuid : Uuid} {name : String}
    (ran : w.clearFieldAs opType uuid name = .ok after) : Leads kind w after := by
  obtain ⟨-, rfl⟩ | ⟨op, performs⟩ := clearFieldAs_spec consistent ran
  · exact .refl _
  · exact performs.leads fits

theorem setCell_leads {w after : Writer} (consistent : w.tx.primary.Consistent) {opType : OpType}
    (fits : kind (writtenAs opType)) {uuid : Uuid} {name : String} {before : List FieldRow} {undone : Bool}
    (ran : (if before = [] then do
        pure (true, ← w.clearFieldAs (writtenAs opType) uuid name)
      else do
        let (_, w) ← w.setFieldMultiAs (writtenAs opType) uuid name (before.map FieldRow.value)
        pure (true, w)) = .ok (undone, after)) : Leads kind w after := by
  split at ran
  next =>
    simp only [Except.bind_eq_ok, Except.pure_eq_ok, Prod.mk.injEq] at ran
    obtain ⟨cleared, clearing, -, rfl⟩ := ran
    exact clearFieldAs_leads consistent fits clearing
  next =>
    simp only [Except.bind_eq_ok, Except.pure_eq_ok, Prod.exists, Prod.mk.injEq] at ran
    obtain ⟨ids, written, writing, -, rfl⟩ := ran
    obtain ⟨op, performs⟩ := setFieldMultiAs_spec consistent writing
    exact performs.leads fits

theorem applyInverse_leads (usual : Usual kind) {w after : Writer} (consistent : w.tx.primary.Consistent) {op : OpRow}
    (fits : kind (writtenAs op.opType)) {undone : Bool} (ran : w.applyInverse op = .ok (undone, after)) : Leads kind w after := by
  unfold applyInverse at ran
  dsimp only at ran
  split at ran
  case h_1 =>
    split at ran
    · simp only [Except.pure_eq_ok, Prod.mk.injEq] at ran
      rw [ran.2]
    · simp only [Except.bind_eq_ok, Except.pure_eq_ok, Prod.mk.injEq] at ran
      obtain ⟨removed, removing, -, rfl⟩ := ran
      obtain ⟨op, performs, -⟩ := deleteMetarecord_spec consistent removing
      exact performs.leads (usual rfl)
  case h_2 =>
    simp only [Except.bind_eq_ok, Except.pure_eq_ok, Prod.exists, Prod.mk.injEq] at ran
    obtain ⟨-, -, record, created, creating, -, rfl⟩ := ran
    obtain ⟨op, performs, -⟩ := createMetarecordWithUuid_spec consistent creating
    exact performs.leads (usual rfl)
  case h_3 =>
    simp only [Except.bind_eq_ok, Except.pure_eq_ok, Prod.exists, Prod.mk.injEq] at ran
    obtain ⟨record, written, writing, -, rfl⟩ := ran
    obtain ⟨op, performs⟩ := setRecord_spec consistent writing
    exact performs.leads (usual rfl)
  case h_4 =>
    simp only [Except.bind_eq_ok, Except.pure_eq_ok, Prod.mk.injEq] at ran
    obtain ⟨removed, removing, -, rfl⟩ := ran
    refine leads_of_foldlM id (fun row _ held next whole stepped => ?_) consistent removing
    simp only [Except.bind_eq_ok, Except.pure_eq_ok, Prod.exists] at stepped
    obtain ⟨count, next, deleting, rfl⟩ := stepped
    exact deleteFieldsValued_leads usual whole deleting
  case h_5 =>
    simp only [Except.bind_eq_ok, Except.pure_eq_ok, Prod.mk.injEq] at ran
    obtain ⟨written, writing, -, rfl⟩ := ran
    refine leads_of_foldlM id (fun row _ held next whole stepped => ?_) consistent writing
    simp only [Except.bind_eq_ok, Except.pure_eq_ok, Prod.exists] at stepped
    obtain ⟨appended, next, appending, rfl⟩ := stepped
    exact appendField_leads usual whole appending
  case h_6 => simp at ran
  case h_7 =>
    obtain ⟨name, -, rest⟩ := Except.bind_eq_ok.mp ran
    exact setCell_leads consistent fits rest

theorem applyRevert_leads (usual : Usual kind) {w after : Writer} (consistent : w.tx.primary.Consistent)
    {ops : List OpRow} (fits : ∀ op ∈ ops, kind (writtenAs op.opType)) {done : Nat} (ran : w.applyRevert ops = .ok (done, after)) :
    Leads kind w after := by
  simp only [applyRevert, Except.bind_eq_ok, Except.pure_eq_ok, Prod.exists, Prod.mk.injEq] at ran
  obtain ⟨count, undone, walking, -, rfl⟩ := ran
  have deferring : Quiet w w.deferTypeChecks := by
    refine ⟨rfl, ?_, fun _ => rfl⟩
    simp [noted, deferTypeChecks]
  have ending : Quiet undone { undone with reverting := none } := ⟨rfl, fun _ member => member, id⟩
  refine deferring.leads.trans (Leads.trans ?_ ending.leads)
  refine leads_of_foldlM Prod.snd (fun op member => ?_) consistent walking
  rintro ⟨before, held⟩ ⟨between, next⟩ whole stepped
  simp only [Except.bind_eq_ok, Except.pure_eq_ok, Prod.exists, Prod.mk.injEq] at stepped
  obtain ⟨inverted, next, inverting, -, rfl⟩ := stepped
  have noting : Quiet held { held with reverting := some op.id } :=
    ⟨rfl, fun _ member => member, id⟩
  exact noting.leads.trans (applyInverse_leads usual whole
    (fits op (List.mem_reverse.mp member)) inverting)

/-! ### Calls -/

/-- The types of operations a call names, beside those that go without saying. -/
def Call.opTypes : Call → List OpType
  | .setFieldAs opType _ _ _ => [opType]
  | .setFieldMultiAs opType _ _ _ => [opType]
  | .clearFieldAs opType _ _ => [opType]
  | .revert ops => ops.map fun op => writtenAs op.opType
  | _ => []

/-- Every call of a transaction is a sequence of operations. -/
theorem call_leads (usual : Usual kind) {w after : Writer} (consistent : w.tx.primary.Consistent)
    {made : Call} (fits : ∀ opType ∈ made.opTypes, kind opType) (ran : w.call made = .ok after) :
    Leads kind w after := by
  cases made with
  | createMetarecord uuid fields =>
      obtain ⟨⟨record, made⟩, creating, rfl⟩ := Except.map_eq_ok.mp ran
      obtain ⟨op, performs, -⟩ := createMetarecordWithUuid_spec consistent creating
      exact performs.leads (usual rfl)
  | deleteMetarecord uuid =>
      obtain ⟨op, performs, -⟩ := deleteMetarecord_spec consistent ran
      exact performs.leads (usual rfl)
  | setRecord uuid fields =>
      obtain ⟨⟨record, made⟩, writing, rfl⟩ := Except.map_eq_ok.mp ran
      obtain ⟨op, performs⟩ := setRecord_spec consistent writing
      exact performs.leads (usual rfl)
  | setFieldAs opType uuid name value =>
      obtain ⟨op, performs⟩ := setFieldAs_spec consistent ran
      exact performs.leads (fits opType (by simp [Call.opTypes]))
  | setFieldMultiAs opType uuid name values =>
      obtain ⟨⟨ids, made⟩, writing, rfl⟩ := Except.map_eq_ok.mp ran
      obtain ⟨op, performs⟩ := setFieldMultiAs_spec consistent writing
      exact performs.leads (fits opType (by simp [Call.opTypes]))
  | appendField uuid name value =>
      obtain ⟨⟨appended, made⟩, writing, rfl⟩ := Except.map_eq_ok.mp ran
      exact appendField_leads usual consistent writing
  | replaceField uuid id value =>
      obtain ⟨old, owned, replacing⟩ := Except.bind_eq_ok.mp ran
      exact replaceChecked_leads usual consistent (getOwnedRow_spec consistent owned).1 replacing
  | renameField uuid id newName value =>
      obtain ⟨old, owned, replacing⟩ := Except.bind_eq_ok.mp ran
      exact replaceChecked_leads usual consistent (getOwnedRow_spec consistent owned).1 replacing
  | retypeField name target =>
      obtain ⟨⟨summary, made⟩, retyping, rfl⟩ := Except.map_eq_ok.mp ran
      exact retypeField_leads usual consistent retyping
  | deleteField uuid id =>
      obtain ⟨row, op, -, performs⟩ := deleteField_spec consistent ran
      exact performs.leads (usual rfl)
  | deleteFieldsValued uuid name value =>
      obtain ⟨⟨count, made⟩, deleting, rfl⟩ := Except.map_eq_ok.mp ran
      exact deleteFieldsValued_leads usual consistent deleting
  | deleteFieldsNamed uuid name =>
      obtain ⟨⟨count, made⟩, deleting, rfl⟩ := Except.map_eq_ok.mp ran
      obtain ⟨-, rfl⟩ | ⟨op, performs⟩ := deleteFieldsNamed_spec consistent deleting
      · exact .refl _
      · exact performs.leads (usual rfl)
  | clearFieldAs opType uuid name =>
      exact clearFieldAs_leads consistent (fits opType (by simp [Call.opTypes])) ran
  | revert ops =>
      obtain ⟨⟨done, made⟩, undoing, rfl⟩ := Except.map_eq_ok.mp ran
      refine applyRevert_leads usual consistent (fun op member => ?_) undoing
      exact fits _ (List.mem_map.mpr ⟨op, member, rfl⟩)
  | setOrigin origin =>
      have after_eq := Except.pure_eq_ok.mp ran
      subst after_eq
      exact Quiet.leads ⟨rfl, fun _ member => member, id⟩

theorem calls_leads (usual : Usual kind) {w after : Writer} (consistent : w.tx.primary.Consistent)
    {calls : List Call} (fits : ∀ made ∈ calls, ∀ opType ∈ made.opTypes, kind opType)
    (ran : calls.foldlM call w = .ok after) : Leads kind w after :=
  leads_of_foldlM id (fun made member _ _ whole stepped =>
    call_leads usual whole (fits made member) stepped) consistent ran

end Writer

end Metafolder
