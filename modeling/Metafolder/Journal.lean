import Metafolder.Table
import Mathlib.Logic.Function.Basic

/-!
# Journals of changes

A transaction on named tables notes each change it makes.  Replayed in order on tables like those it
began with, the changes give the tables it left, whatever was put, deleted or cleared in between.
-/

namespace Journal

variable {Name V : Type} [DecidableEq Name]

/-- Tables, by name. -/
abbrev Tables (Name V : Type) := Name → Table V

/-- One change to one table. -/
inductive Change (Name V : Type)
  /-- A value is put under a key. -/
  | put (table : Name) (key : Bytes) (value : V)
  /-- A key is deleted. -/
  | delete (table : Name) (key : Bytes)
  /-- A table is emptied. -/
  | clear (table : Name)

/-- The tables after a change. -/
def Change.apply (tables : Tables Name V) : Change Name V → Tables Name V
  | put table key value => Function.update tables table ((tables table).put key value)
  | delete table key => Function.update tables table ((tables table).delete key)
  | clear table => Function.update tables table ∅

/-- The tables after a journal of changes. -/
def replay (tables : Tables Name V) (journal : List (Change Name V)) : Tables Name V :=
  journal.foldl Change.apply tables

theorem replay_append_singleton (tables : Tables Name V) (journal : List (Change Name V))
    (change : Change Name V) :
    replay tables (journal ++ [change]) = change.apply (replay tables journal) := by
  simp [replay]

/-- Tables a transaction began with, those it has now, and the changes between them if it notes
them. -/
structure Noted (start : Tables Name V) where
  /-- The tables as the transaction sees them. -/
  tables : Tables Name V
  /-- The changes, when they are noted. -/
  journal : Option (List (Change Name V))
  /-- The changes lead from the first tables to the last. -/
  replays : ∀ changes, journal = some changes → replay start changes = tables

namespace Noted

variable {start : Tables Name V}

/-- A transaction that has changed nothing. -/
def begin (start : Tables Name V) (journaled : Bool) : Noted start where
  tables := start
  journal := if journaled then some [] else none
  replays changes noted := by
    cases journaled with
    | false => simp at noted
    | true => cases noted; rfl

/-- A change made, and noted. -/
def change (noted : Noted start) (made : Change Name V) : Noted start where
  tables := made.apply noted.tables
  journal := noted.journal.map (· ++ [made])
  replays changes same := by
    obtain ⟨earlier, held, rfl⟩ := Option.map_eq_some_iff.mp same
    rw [replay_append_singleton, noted.replays earlier held]

/-- A key deleted, noted when it was there. -/
def delete (noted : Noted start) (table : Name) (key : Bytes) : Noted start :=
  if ((noted.tables table).get key).isSome then noted.change (.delete table key) else noted

theorem journal_isSome_change (noted : Noted start) (made : Change Name V) :
    (noted.change made).journal.isSome = noted.journal.isSome := Option.isSome_map

theorem journal_isSome_delete (noted : Noted start) (table : Name) (key : Bytes) :
    (noted.delete table key).journal.isSome = noted.journal.isSome := by
  unfold delete
  split
  · exact noted.journal_isSome_change _
  · rfl

end Noted

end Journal
