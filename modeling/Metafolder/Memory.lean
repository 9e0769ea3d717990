import Metafolder.Journal
import Metafolder.Outcome

/-!
# Stores held in memory

A store held in memory reads and writes a copy of its tables.  A transaction notes the changes it
makes to the copy; they are committed to the disk first, replayed there, and then to the copy.  A
transaction the disk refuses is dropped; a copy that refuses what the disk took is lost, and takes
no write any more.
-/

namespace Metafolder

/-- The bitmaps the sets are cut in, and their serialized form. -/
class Roaring where
  /-- A bitmap. -/
  Bitmap : Type
  /-- The bitmap without members. -/
  new : Bitmap
  /-- Whether it has no member. -/
  isEmpty : Bitmap → Bool
  /-- `serialize_into`. -/
  serializeInto : Bitmap → Bytes
  /-- `deserialize_from`. -/
  deserializeFrom : Bytes → Option Bitmap

namespace Held

open Roaring

/-- `Db`: a table, by its place among the store's tables. -/
abbrev Db := Fin 23

namespace Db

/-- The dense ids. -/
def ids : Db := 17

/-- The uuids of the dense ids. -/
def uuids : Db := 18

/-- The sets. -/
def sets : Db := 19

/-- The partitions. -/
def parts : Db := 20

/-- The forest by parent. -/
def kids : Db := 21

/-- The trigrams. -/
def grams : Db := 22

end Db

/-- The tables of an environment, as its last commit left them. -/
abbrev Env := Journal.Tables Db Bytes

/-- `Change`. -/
abbrev Change := Journal.Change Db Bytes

variable [Roaring]

/-! ### Transactions -/

/-- `KvTxn`: a write transaction, and the chunks of sets it changed. -/
structure Txn (start : Env) where
  /-- `Wtxn`: the tables, and the changes when they are noted. -/
  txn : Journal.Noted start
  /-- The chunks changed, written at commit. -/
  sets : Table Bitmap

/-- `SETS`. -/
def setsTag : UInt8 := 0

/-- What a transaction does to its tables.  A read is of no effect here. -/
inductive Call
  /-- A value is put. -/
  | put (db : Db) (key value : Bytes)
  /-- A key is deleted. -/
  | delete (db : Db) (key : Bytes)
  /-- A table is cleared. -/
  | clear (db : Db)
  /-- A chunk of a set is changed. -/
  | withChunk (table : UInt8) (front : Bytes) (chunk : UInt16) (change : Bitmap → Bitmap)
  /-- The derived tables are cleared. -/
  | clearDerived

namespace Txn

variable {start : Env}

/-- The table of a chunk: the sets', or the trigrams'. -/
def chunkDb (table : UInt8) : Db := if table = setsTag then .sets else .grams

/-- `with_chunk`, its load: a chunk from the transaction's cache, or from its table. -/
def loadChunk (txn : Txn start) (table : UInt8) (key : Bytes) : Except String Bitmap :=
  match txn.sets.get key with
  | some held => pure held
  | none =>
      match (txn.txn.tables (chunkDb table)).get key.tail with
      | some bytes =>
          match deserializeFrom bytes with
          | some held => pure held
          | none => throw "a derived set chunk"
      | none => pure new

/-- `with_chunk`: a chunk is changed in the transaction's cache. -/
def withChunk (txn : Txn start) (table : UInt8) (front : Bytes) (chunk : UInt16)
    (change : Bitmap → Bitmap) : Except String (Txn start) := do
  let key := table :: (front ++ ByteCode.bigEndian 2 chunk.toNat)
  let loaded ← txn.loadChunk table key
  pure { txn with sets := txn.sets.put key (change loaded) }

/-- `clear_derived`. -/
def clearDerived (txn : Txn start) : Txn start where
  txn := [Db.ids, .uuids, .sets, .parts, .kids, .grams].foldl
    (fun txn db => txn.change (.clear db)) txn.txn
  sets := ∅

/-- What a call does. -/
def call (txn : Txn start) : Call → Except String (Txn start)
  | .put db key value => pure { txn with txn := txn.txn.change (.put db key value) }
  | .delete db key => pure { txn with txn := txn.txn.delete db key }
  | .clear db => pure { txn with txn := txn.txn.change (.clear db) }
  | .withChunk table front chunk change => txn.withChunk table front chunk change
  | .clearDerived => pure txn.clearDerived

/-- One chunk written: an empty one is deleted. -/
def flushChunk (txn : Journal.Noted start) (chunk : Bytes × Bitmap) : Journal.Noted start :=
  let db := chunkDb (chunk.1.headD 0)
  if isEmpty chunk.2 then txn.delete db chunk.1.tail
  else txn.change (.put db chunk.1.tail (serializeInto chunk.2))

end Txn

/-- The order a hash map of chunks is drained in. -/
structure Drain where
  /-- The chunks, in that order. -/
  order : List (Bytes × Bitmap) → List (Bytes × Bitmap)
  /-- Each is met once. -/
  perm : ∀ chunks, (order chunks).Perm chunks

namespace Txn

variable {start : Env}

/-- `flush_sets`: the chunks changed are written. -/
def flushSets (txn : Txn start) (drain : Drain) : Txn start where
  txn := (drain.order txn.sets.entries).foldl flushChunk txn.txn
  sets := ∅

end Txn

/-! ### The store and its commits -/

/-- `Memory`: the store on disk behind a copy. -/
structure Memory where
  /-- The store on disk. -/
  disk : Env
  /-- Why the copy fell behind the disk, once it did. -/
  lost : Option String := none
  /-- What was said through `on_lost`. -/
  told : List String := []

/-- `KvStore`: the tables it reads, and the store on disk when they are a copy. -/
structure Store where
  /-- The tables read and written. -/
  env : Env
  /-- The store on disk, when it is held in memory. -/
  memory : Option Memory := none

/-- Where the commit to the disk fails. -/
inductive DiskFault
  /-- The transaction is not opened. -/
  | opening (why : String)
  /-- A change is not replayed. -/
  | change (place : Nat) (why : String)
  /-- The transaction is not committed. -/
  | commit (why : String)

/-- What fails in a write transaction. -/
structure Faults where
  /-- The transaction is not opened. -/
  opening : Option String := none
  /-- It is dropped before its commit. -/
  dropped : Option String := none
  /-- The disk refuses it. -/
  disk : Option DiskFault := none
  /-- The copy refuses it. -/
  copy : Option String := none

/-- A write transaction: its calls, and what fails. -/
structure Write where
  /-- The calls. -/
  calls : List Call
  /-- How its chunks are drained. -/
  drain : Drain
  /-- What fails. -/
  faults : Faults := {}

/-- How a write transaction ends. -/
inductive Ended
  /-- It did not begin. -/
  | notBegun (why : String)
  /-- It was dropped before its commit. -/
  | dropped (why : String)
  /-- Its commit was refused, and it did not happen. -/
  | refused (why : String)
  /-- The disk took it, the copy did not. -/
  | behind (why : String)
  /-- It was committed. -/
  | committed
deriving DecidableEq

/-- `replay`, which may fail at a change. -/
def replay (tables : Env) : List Change → Option (Nat × String) → Except String Env
  | [], _ => pure tables
  | change :: rest, none => replay (change.apply tables) rest none
  | _ :: _, some (0, why) => throw why
  | change :: rest, some (place + 1, why) => replay (change.apply tables) rest (some (place, why))

namespace Memory

/-- What a copy behind its disk says. -/
def behindMessage (why : String) : String :=
  "the copy in memory of the store could not take a write its disk took (" ++ why ++
    "): it is behind the disk, and the repository is unloaded — load it again"

/-- `commit_to_disk`. -/
def commitToDisk (memory : Memory) (changes : List Change) :
    Option DiskFault → Except String Env
  | none => replay memory.disk changes none
  | some (.opening why) => throw why
  | some (.change place why) => replay memory.disk changes (some (place, why))
  | some (.commit why) => do
      let _ ← replay memory.disk changes none
      throw why

/-- `Memory::commit`: a write is committed to the disk, then to the copy. -/
def commit (memory : Memory) (store : Store) (copy : Env) (changes : List Change)
    (faults : Faults) : Store × Ended :=
  match memory.commitToDisk changes faults.disk with
  | .error why => (store, .refused s!"commit the write to the store on disk: {why}")
  | .ok disk =>
      match faults.copy with
      | none => (⟨copy, some { memory with disk := disk }⟩, .committed)
      | some why =>
          let held :=
            match memory.lost with
            | none => { memory with
                disk := disk
                lost := some (behindMessage why)
                told := memory.told ++ [behindMessage why] }
            | some _ => { memory with disk := disk }
          (⟨store.env, some held⟩, .behind (behindMessage why))

end Memory

namespace Store

/-- `hold_in_memory`: the file of the store is copied. -/
def holdInMemory (store : Store) : Store :=
  match store.memory with
  | none => { store with memory := some { disk := store.env } }
  | some _ => store

/-- `finish`: what the transaction still holds is written, and committed. -/
def finish (store : Store) (txn : Txn store.env) (write : Write) : Store × Ended :=
  let flushed := (txn.flushSets write.drain).txn
  match store.memory, flushed.journal with
  | some memory, some changes => memory.commit store flushed.tables changes write.faults
  | _, _ =>
      match write.faults.copy with
      | some why => (store, .refused s!"Failed to commit write transaction: {why}")
      | none => ({ store with env := flushed.tables }, .committed)

/-- A write transaction, from `KvTxn::new` to `finish`. -/
def write (store : Store) (write : Write) : Store × Ended :=
  match store.memory.bind Memory.lost, write.faults.opening with
  | some lost, _ => (store, .notBegun lost)
  | none, some why => (store, .notBegun why)
  | none, none =>
      match write.calls.foldlM Txn.call ⟨.begin store.env store.memory.isSome, ∅⟩ with
      | .error why => (store, .dropped why)
      | .ok txn =>
          match write.faults.dropped with
          | some why => (store, .dropped why)
          | none => store.finish txn write

/-- Write transactions, one after the other. -/
def writes (store : Store) (writes : List Write) : Store :=
  writes.foldl (fun store made => (store.write made).1) store

end Store

/-! ### What the copy and the disk hold -/

section

variable {start : Env}

theorem journal_flushChunk (txn : Journal.Noted start) (chunk : Bytes × Bitmap) :
    (Txn.flushChunk txn chunk).journal.isSome = txn.journal.isSome := by
  unfold Txn.flushChunk
  dsimp only
  split
  · exact txn.journal_isSome_delete _ _
  · exact txn.journal_isSome_change _

theorem journal_flushChunks (txn : Journal.Noted start) (chunks : List (Bytes × Bitmap)) :
    (chunks.foldl Txn.flushChunk txn).journal.isSome = txn.journal.isSome := by
  induction chunks generalizing txn with
  | nil => rfl
  | cons chunk rest ih => rw [List.foldl_cons, ih, journal_flushChunk]

theorem journal_withChunk {txn after : Txn start} {table : UInt8} {front : Bytes} {chunk : UInt16}
    {change : Bitmap → Bitmap} (ran : txn.withChunk table front chunk change = .ok after) :
    after.txn = txn.txn := by
  simp only [Txn.withChunk, Except.bind_eq_ok, Except.pure_eq_ok] at ran
  obtain ⟨loaded, -, rfl⟩ := ran
  rfl

/-- A transaction that notes its changes notes them to its end. -/
theorem journal_call {txn after : Txn start} {made : Call} (ran : txn.call made = .ok after) :
    after.txn.journal.isSome = txn.txn.journal.isSome := by
  cases made with
  | put db key value =>
      cases ran
      exact txn.txn.journal_isSome_change _
  | delete db key =>
      cases ran
      exact txn.txn.journal_isSome_delete _ _
  | clear db =>
      cases ran
      exact txn.txn.journal_isSome_change _
  | withChunk table front chunk change => rw [journal_withChunk ran]
  | clearDerived =>
      cases ran
      simp [Txn.clearDerived, Journal.Noted.journal_isSome_change]

theorem journal_calls {txn after : Txn start} {calls : List Call}
    (ran : calls.foldlM Txn.call txn = .ok after) :
    after.txn.journal.isSome = txn.txn.journal.isSome := by
  induction calls generalizing txn with
  | nil =>
      cases ran
      rfl
  | cons made rest ih =>
      obtain ⟨middle, called, others⟩ := Except.foldlM_cons_eq_ok.mp ran
      rw [ih others, journal_call called]

end

omit [Roaring] in
theorem replay_eq {tables after : Env} {changes : List Change} {fault : Option (Nat × String)}
    (ran : replay tables changes fault = .ok after) : after = Journal.replay tables changes := by
  induction changes generalizing tables fault with
  | nil =>
      cases ran
      rfl
  | cons change rest ih =>
      match fault with
      | none => exact ih ran
      | some (0, why) => cases ran
      | some (place + 1, why) => exact ih ran

omit [Roaring] in
theorem Memory.commitToDisk_eq {memory : Memory} {changes : List Change}
    {fault : Option DiskFault} {disk : Env} (ran : memory.commitToDisk changes fault = .ok disk) :
    disk = Journal.replay memory.disk changes := by
  match fault with
  | none => exact replay_eq ran
  | some (.opening why) => cases ran
  | some (.change place why) => exact replay_eq ran
  | some (.commit why) =>
      obtain ⟨-, -, refused⟩ := Except.bind_eq_ok.mp ran
      cases refused

namespace Store

/-- The copy and the store on disk hold the same keys and values. -/
def InStep (store : Store) : Prop :=
  ∃ memory, store.memory = some memory ∧ ∀ db, memory.disk db = store.env db

/-- The copy is behind the disk, and its owner was told so once. -/
def Behind (store : Store) (message : String) : Prop :=
  ∃ memory, store.memory = some memory ∧ memory.lost = some message ∧ memory.told = [message]

/-- A store held in memory, in step with its disk and of which nothing was said, or behind it. -/
def Sound (store : Store) : Prop :=
  (∃ memory, store.memory = some memory ∧ memory.disk = store.env ∧ memory.lost = none ∧
    memory.told = []) ∨ ∃ message, store.Behind message

/-- What one write transaction does to a store held in memory. -/
structure Outcomes (before after : Store) (ended : Ended) : Prop where
  /-- One that succeeds leaves the copy and the disk in step. -/
  committed : ended = .committed → after.InStep
  /-- One that did not begin, was dropped or was refused changes nothing. -/
  refused : ended ≠ .committed → (∀ why, ended ≠ .behind why) → after = before
  /-- One the disk took and the copy did not leaves the copy as it was. -/
  behind : ∀ why, ended = .behind why → after.env = before.env ∧ after.Behind why

theorem write_behind {store : Store} {message : String} (behind : store.Behind message)
    (made : Write) : store.write made = (store, .notBegun message) := by
  obtain ⟨memory, held, lost, -⟩ := behind
  simp only [write, held, Option.bind_some, lost]

theorem writes_behind {store : Store} {message : String} (behind : store.Behind message)
    (later : List Write) : store.writes later = store := by
  induction later with
  | nil => rfl
  | cons made rest ih =>
      rw [writes, List.foldl_cons, write_behind behind]
      exact ih

omit [Roaring] in
theorem unchanged (store : Store) (ended : Ended) (none_made : ended ≠ .committed)
    (none_behind : ∀ why, ended ≠ .behind why) : Outcomes store store ended where
  committed made := absurd made none_made
  refused _ _ := rfl
  behind why same := absurd same (none_behind why)

/-- A commit replays on the disk what the transaction did to the copy. -/
theorem finish_spec {store : Store} {memory : Memory} (held : store.memory = some memory)
    (same : memory.disk = store.env) (lost : memory.lost = none) (told : memory.told = [])
    (txn : Txn store.env) (noted : txn.txn.journal.isSome) (made : Write) :
    (store.finish txn made).1.Sound ∧
      Outcomes store (store.finish txn made).1 (store.finish txn made).2 := by
  have flushed_noted : (txn.flushSets made.drain).txn.journal.isSome := by
    rw [Txn.flushSets, journal_flushChunks]
    exact noted
  obtain ⟨changes, journal⟩ := Option.isSome_iff_exists.mp flushed_noted
  have replays := (txn.flushSets made.drain).txn.replays changes journal
  have in_step : store.Sound := .inl ⟨memory, held, same, lost, told⟩
  simp only [finish, held, journal, Memory.commit]
  split
  next why refused => exact ⟨in_step, store.unchanged _ (by simp) (by simp)⟩
  next disk took =>
    have disk_eq : disk = (txn.flushSets made.drain).txn.tables := by
      rw [Memory.commitToDisk_eq took, same, replays]
    split
    next =>
      refine ⟨.inl ⟨_, rfl, disk_eq, lost, told⟩, fun _ => ⟨_, rfl, fun db => ?_⟩, ?_, ?_⟩
      · exact congrFun disk_eq db
      · exact fun other => absurd rfl other
      · intro why other
        contradiction
    next why failed =>
      have behind : Behind ⟨store.env, some ⟨disk, some (Memory.behindMessage why),
          memory.told ++ [Memory.behindMessage why]⟩⟩ (Memory.behindMessage why) :=
        ⟨_, rfl, rfl, by rw [told]; rfl⟩
      simp only [lost]
      refine ⟨.inr ⟨_, behind⟩, fun other => ?_, fun _ other => ?_, fun why same => ?_⟩
      · contradiction
      · exact absurd rfl (other _)
      · cases same
        exact ⟨rfl, behind⟩

/-- One write transaction on a store held in memory. -/
theorem write_spec {store : Store} (sound : store.Sound) (made : Write) :
    (store.write made).1.Sound ∧ Outcomes store (store.write made).1 (store.write made).2 := by
  obtain ⟨memory, held, same, lost, told⟩ | ⟨message, behind⟩ := sound
  · have in_step : store.Sound := .inl ⟨memory, held, same, lost, told⟩
    have nothing_lost : store.memory.bind Memory.lost = none := by rw [held, Option.bind_some, lost]
    unfold write
    rw [nothing_lost]
    split
    next other => contradiction
    next why => exact ⟨in_step, store.unchanged _ (by simp) (by simp)⟩
    next =>
      split
      next why _ => exact ⟨in_step, store.unchanged _ (by simp) (by simp)⟩
      next txn calling =>
        split
        next why _ => exact ⟨in_step, store.unchanged _ (by simp) (by simp)⟩
        next =>
          refine finish_spec held same lost told txn ?_ made
          rw [journal_calls calling, held]
          rfl
  · rw [write_behind behind]
    exact ⟨.inr ⟨message, behind⟩, store.unchanged _ (by simp) (by simp)⟩

theorem writes_sound {store : Store} (sound : store.Sound) (earlier : List Write) :
    (store.writes earlier).Sound := by
  induction earlier generalizing store with
  | nil => exact sound
  | cons made rest ih => exact ih (write_spec sound made).1

end Store

/-- However the commits of earlier transactions failed, one more transaction on a store held in
memory, when it succeeds, leaves the copy and the disk with the same keys and values; it changes
neither when it is refused; and when the disk took it but not the copy, no later one begins. -/
theorem copy_follows_disk (env : Env) (earlier later : List Write) (made another : Write) :
    let before := (Store.mk env none).holdInMemory.writes earlier
    let after := (before.write made).1
    Store.Outcomes before after (before.write made).2 ∧
      ∀ why, (before.write made).2 = .behind why →
        (after.writes later).write another = (after, .notBegun why) := by
  have held : (Store.mk env none).holdInMemory.Sound := .inl ⟨_, rfl, rfl, rfl, rfl⟩
  have outcomes := (Store.write_spec (Store.writes_sound held earlier) made).2
  refine ⟨outcomes, fun why same => ?_⟩
  have behind := (outcomes.behind why same).2
  rw [Store.writes_behind behind, Store.write_behind behind]

end Held

end Metafolder
