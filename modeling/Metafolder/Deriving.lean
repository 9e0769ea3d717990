import Metafolder.DerivedSteps
import Metafolder.History

/-!
# Every store derives what its rows say

The primitives of a write transaction keep the derived tables in step with the rows, so each
operation does, and so does every store transactions lead to.
-/

namespace Metafolder

open Derived

namespace KvTxn

variable [Externals] {tx after : KvTxn}

/-- The primary tables agree, and the derived tables hold what the rows derive. -/
structure Sound (tx : KvTxn) : Prop where
  /-- The primary tables agree. -/
  consistent : tx.primary.Consistent
  /-- The derived tables hold what the rows derive. -/
  derives : Derives tx.primary tx.derived

theorem sound_empty (nextRow nextId : Int64) :
    Sound ⟨{ nextRow := nextRow }, { nextId := nextId }⟩ :=
  ⟨Primary.consistent_of_empty nextRow, derives_empty nextRow nextId⟩

theorem Sound.insertRow (sound : tx.Sound) {uuid : Uuid} {name : String} {value : Value}
    {given : Option Int64} {id : Int64} (ran : tx.insertRow uuid name value given = .ok (id, after)) :
    after.Sound := by
  simp only [KvTxn.insertRow, Except.bind_eq_ok, Except.pure_eq_ok, Prod.exists,
    Prod.mk.injEq] at ran
  obtain ⟨newId, primary, inserting, derived, deriving_row, rfl, rfl⟩ := ran
  obtain ⟨kept, inserted, -⟩ := Primary.insertRow_spec sound.consistent inserting
  have indexed := sound.consistent.toIndexed
  have counted := inserted.total indexed kept.toIndexed
  have there := inserted.holds_iff.mpr (.inl ⟨rfl, rfl⟩)
  exact ⟨kept, sound.derives.deriveRow kept.toIndexed inserted.touched (.inl ⟨rfl, counted⟩)
    (fun _ => there) rfl deriving_row⟩

theorem Sound.deleteRow (sound : tx.Sound) {id : Int64} (ran : tx.deleteRow id = .ok after) :
    after.Sound := by
  simp only [KvTxn.deleteRow, Except.bind_eq_ok, Prod.exists] at ran
  obtain ⟨removed, primary, deleting, rest⟩ := ran
  obtain ⟨kept, ⟨rfl, same, -⟩ | ⟨owner, row, rfl, -, deleted⟩⟩ :=
    Primary.deleteRow_spec sound.consistent deleting
  · rw [Except.pure_eq_ok] at rest
    subst rest
    exact ⟨kept, same ▸ sound.derives⟩
  · simp only [Except.bind_eq_ok, Except.pure_eq_ok] at rest
    obtain ⟨derived, deriving_row, rfl⟩ := rest
    have indexed := sound.consistent.toIndexed
    have counted := deleted.total indexed kept.toIndexed
    have read : row.value.stored = row.value :=
      congrArg FieldRow.value (sound.consistent.stored deleted.held)
    exact ⟨kept, sound.derives.deriveRow kept.toIndexed (deleted.touched indexed)
      (.inr ⟨rfl, counted⟩) (fun positive => absurd positive (by decide)) read deriving_row⟩

theorem Sound.createMetarecord (sound : tx.Sound) {uuid : Uuid} {version : UInt64}
    (ran : tx.createMetarecord uuid version = .ok after) : after.Sound := by
  obtain ⟨kept, absent, same⟩ := createMetarecord_spec sound.consistent ran
  simp only [KvTxn.createMetarecord, Except.bind_eq_ok, Except.pure_eq_ok] at ran
  obtain ⟨primary, -, derived, deriving_id, rfl⟩ := ran
  refine ⟨kept, ?_⟩
  rw [show primary = _ from same]
  exact sound.derives.deriveCreated sound.consistent.toIndexed absent deriving_id

theorem Sound.dropped (sound : tx.Sound) {uuid : Uuid}
    (empty : ∀ row, ¬tx.primary.Holds uuid row) (ran : tx.dropped uuid = .ok after) :
    after.Sound := by
  simp only [KvTxn.dropped, Except.bind_eq_ok, Except.pure_eq_ok] at ran
  obtain ⟨derived, deriving_id, rfl⟩ := ran
  exact ⟨sound.consistent.delete_metarecord empty,
    sound.derives.deriveRemoved sound.consistent.toIndexed empty deriving_id⟩

theorem Sound.setVersion (sound : tx.Sound) (uuid : Uuid) (version : UInt64) :
    (tx.setVersion uuid version).Sound := by
  refine ⟨sound.consistent.setVersion uuid version, ?_⟩
  refine sound.derives.congr ?_ fun key => ?_
  · change (tx.primary.setVersion uuid version).cells = tx.primary.cells
    unfold Primary.setVersion
    split <;> rfl
  · change ((tx.primary.setVersion uuid version).metarecords.get key).isSome ↔ _
    unfold Primary.setVersion
    split
    next present =>
      dsimp only
      rw [Table.get_put]
      split
      next same => exact same ▸ iff_of_true rfl present
      next => exact Iff.rfl
    next => exact Iff.rfl

theorem Sound.deleteEach (sound : tx.Sound) {rows : List FieldRow}
    (ran : tx.deleteEach rows = .ok after) : after.Sound :=
  Except.foldlM_induction Sound (fun _ _ _ _ held stepped => held.deleteRow stepped) sound ran

theorem Sound.insertEach (sound : tx.Sound) {uuid : Uuid} {rows : List FieldRow}
    (ran : tx.insertEach uuid rows = .ok after) : after.Sound := by
  refine Except.foldlM_induction Sound (fun row _ before next held stepped => ?_) sound ran
  obtain ⟨⟨id, filled⟩, inserting, rfl⟩ := Except.map_eq_ok.mp stepped
  exact held.insertRow inserting

/-- An operation keeps the derived tables in step. -/
theorem Performed.sound {op : NewOp} (performed : tx.Performed op after) (sound : tx.Sound) :
    after.Sound := by
  obtain ⟨filled, moved, settled⟩ := performed.done
  obtain ⟨removed, created, cleared, -, opening, clearing, filling⟩ := moved.calls
  have begun : created.Sound := by
    unfold opened at opening
    split at opening
    · exact sound.createMetarecord opening
    · simp only [Except.bind_eq_ok, refuseIf_eq_ok, exists_const, Except.pure_eq_ok] at opening
      exact opening.2 ▸ sound
  have full := (begun.deleteEach clearing).insertEach filling
  unfold Settled at settled
  split at settled
  · exact full.dropped settled.2.1 settled.2.2
  · rw [settled.2]
    exact full.setVersion _ _

end KvTxn

variable [Externals]

/-- In every store reachable, the derived tables hold what the rows derive. -/
theorem Reachable.sound {kind : Transaction → Prop} {store : KvStore}
    (reached : Reachable kind store) : store.tx.Sound := by
  obtain ⟨steps, history, -⟩ := reached.history
  exact (KvTxn.Chain.induction KvTxn.Sound history.chain
    (fun _ performed held => performed.sound held) (KvTxn.sound_empty 1 1)).1

end Metafolder
