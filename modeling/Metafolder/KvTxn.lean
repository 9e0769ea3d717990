import Metafolder.Derived

/-!
# The write transaction

A write transaction patches the primary tables and, in the same step, what is derived from them.
-/

namespace Metafolder

/-- The data of a store, as a write transaction sees and changes it; the log is kept apart. -/
structure KvTxn where
  /-- The primary tables. -/
  primary : Primary := {}
  /-- The derived tables. -/
  derived : Derived := {}

namespace KvTxn

variable [Externals]

/-- `create_metarecord`. -/
def createMetarecord (tx : KvTxn) (uuid : Uuid) (version : UInt64) : Outcome KvTxn := do
  let primary ← tx.primary.createMetarecord uuid version
  let derived ← tx.derived.deriveCreated uuid
  pure ⟨primary, derived⟩

/-- `set_version`. -/
def setVersion (tx : KvTxn) (uuid : Uuid) (version : UInt64) : KvTxn :=
  { tx with primary := tx.primary.setVersion uuid version }

/-- `insert_row`: the id the row got, and the transaction. -/
def insertRow (tx : KvTxn) (uuid : Uuid) (name : String) (value : Value) (given : Option Int64) :
    Outcome (Int64 × KvTxn) := do
  let (id, primary) ← tx.primary.insertRow uuid name value given
  let derived ← tx.derived.deriveRow primary uuid name value 1
  pure (id, ⟨primary, derived⟩)

/-- `delete_row`. -/
def deleteRow (tx : KvTxn) (id : Int64) : Outcome KvTxn := do
  let (removed, primary) ← tx.primary.deleteRow id
  match removed with
  | none => pure ⟨primary, tx.derived⟩
  | some (owner, row) => do
      let derived ← tx.derived.deriveRow primary owner row.name row.value (-1)
      pure ⟨primary, derived⟩

/-- `delete_rows`: a metarecord's rows go, all of them or those of one name. -/
def deleteRows (tx : KvTxn) (uuid : Uuid) (name : Option String) : Outcome KvTxn :=
  (tx.primary.rows uuid).foldlM (fun held row =>
    if name.all (· = row.name) then held.deleteRow row.id else pure held) tx

/-- `remove_metarecord`. -/
def removeMetarecord (tx : KvTxn) (uuid : Uuid) : Outcome KvTxn := do
  let cleared ← tx.deleteRows uuid none
  let derived ← cleared.derived.deriveRemoved uuid
  pure ⟨cleared.primary.dropMetarecord uuid, derived⟩

/-- `clear_metarecords`: the tables are emptied; the counters of row ids and dense ids stay. -/
def clearMetarecords (tx : KvTxn) : KvTxn :=
  ⟨tx.primary.clearMetarecords, { nextId := tx.derived.nextId }⟩

/-! ### What the primitives do to the rows -/

theorem insertRow_primary {tx after : KvTxn} {uuid : Uuid} {name : String} {value : Value}
    {given : Option Int64} {id : Int64}
    (ran : tx.insertRow uuid name value given = .ok (id, after)) :
    tx.primary.insertRow uuid name value given = .ok (id, after.primary) := by
  simp only [insertRow, Except.bind_eq_ok, Except.pure_eq_ok, Prod.exists, Prod.mk.injEq] at ran
  obtain ⟨newId, primary, inserted, derived, -, rfl, rfl⟩ := ran
  exact inserted

theorem deleteRow_primary {tx after : KvTxn} {id : Int64} (ran : tx.deleteRow id = .ok after) :
    ∃ removed, tx.primary.deleteRow id = .ok (removed, after.primary) := by
  simp only [deleteRow, Except.bind_eq_ok, Prod.exists] at ran
  obtain ⟨removed, primary, deleted, rest⟩ := ran
  refine ⟨removed, ?_⟩
  cases removed with
  | none =>
      rw [Except.pure_eq_ok] at rest
      subst rest
      exact deleted
  | some found =>
      simp only [Except.bind_eq_ok, Except.pure_eq_ok] at rest
      obtain ⟨derived, -, rfl⟩ := rest
      exact deleted

end KvTxn

end Metafolder
