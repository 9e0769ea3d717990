import Metafolder.Executor
import Metafolder.Revert
import Metafolder.WatchRun

/-!
# Coordinated reverts

A coordinated revert is started, then committed or aborted; in between its client moves files, writes
are refused and flushes wait.  Any number of threads serve requests and flush.  Each takes the store,
which one thread holds at a time; the revert lock is looked at both with the store in hand and
without it.
-/

namespace Metafolder

namespace Coordination

/-- What a commit answers. -/
structure Reply where
  /-- `label`: the label it wrote under, unless it wrote nothing. -/
  label : Option Int64
  /-- `head`. -/
  head : Option Int64
  /-- `reverted_operations`. -/
  reverted : List Int64
  /-- `skipped_operations`, each with its reason. -/
  skipped : List (Int64 × String)

/-- What a request is answered. -/
inductive Answer
  /-- The operations the plan is about. -/
  | plan (ops : List OpRow)
  | reply (reply : Reply)
  | head (head : Option Int64)
  | flushed
  | written
  | failed (failure : Failure)
  /-- `423`. -/
  | locked (message : String)

/-- What a thread does after a flush. -/
inductive After
  | nothing
  /-- It answers its commit. -/
  | reply (reply : Reply)
  /-- It answers its abort. -/
  | head

/-- What a thread does once it lets go of the store. -/
inductive Next
  | answer (answer : Answer)
  | flush (after : After)
  /-- It flushed. -/
  | finish (after : After)

/-- What a thread takes the store for. -/
inductive Entry
  | start (target : Revert.Target)
  | commit (apply : List Int64)
  | abort
  | flush (after : After)
  /-- A write of another client. -/
  | write (transaction : Transaction)
  | head

/-- What a thread does with the store in its hands. -/
inductive Work
  | enter (entry : Entry)
  /-- A commit that read the lock. -/
  | revert (apply : List Int64) (locked : List Int64)
  /-- A commit that succeeded, its lock to be released. -/
  | close (reply : Reply)
  /-- A flush: the events it took, those left of them by compaction, the writes not yet made, and the
  rules. -/
  | groups (after : After) (taken : List Queued) (events : List FsEvent)
      (left : List (Option (List FsEvent))) (rules : WatchRules)
  | leave (next : Next)

/-- Where a thread is. -/
inductive Doing
  | idle
  /-- A flush, about to look at the lock. -/
  | flushes (after : After)
  /-- A flush, about to look whether ingestion is paused. -/
  | unlocked (after : After)
  /-- A flush, about to look whether the root is there. -/
  | unpaused (after : After)
  /-- A write, about to look at the lock. -/
  | writes (transaction : Transaction)
  /-- It waits for the store. -/
  | awaits (entry : Entry)
  /-- It holds the store. -/
  | holds
  | answered (answer : Answer)

/-- What happened. -/
inductive Event
  /-- A start took the lock for some operations. -/
  | started (ops : List OpRow)
  /-- A commit wrote the reverts of some operations, and left a store. -/
  | reverted (ops : List OpRow) (after : KvStore)
  /-- A commit released the lock. -/
  | committed
  /-- An abort released the lock. -/
  | aborted
  /-- A commit was refused: the store and the lock as it found and as it left them. -/
  | refused (found left : KvStore × Option (List Int64))
  /-- A flush committed a write, and left a store. -/
  | flushed (after : KvStore)
  /-- Another client's write committed, and left a store. -/
  | wrote (after : KvStore)

/-- What does not change. -/
structure Settings where
  /-- How much history is kept. -/
  retention : Retention
  /-- Whether case does not count in names. -/
  caseInsensitive : Bool := false

/-- What a step meets outside the repository. -/
structure Outside where
  /-- The context of the request. -/
  context : WriteContext
  /-- The time. -/
  timestamp : Int64
  /-- What a flush's write meets. -/
  batch : Batch
  /-- Whether the root is there. -/
  rootPresent : Bool := true

/-- A repository, and the threads at work on it. -/
structure Repo where
  /-- The store. -/
  store : KvStore
  /-- The rules published. -/
  slot : RulesSlot := {}
  /-- `revert_lock`. -/
  revertLock : Option (List Int64) := none
  /-- The event buffer. -/
  pending : List Queued := []
  /-- `ingestion_paused`. -/
  paused : Bool := false
  /-- The thread that holds the store, and what it does with it. -/
  conn : Option (Nat × Work) := none
  /-- The store and the lock as the thread that holds the store found them. -/
  found : KvStore × Option (List Int64)
  /-- Where each thread is. -/
  doing : Nat → Doing := fun _ => .idle
  /-- What happened, the newest first. -/
  history : List Event := []

/-- A repository just loaded. -/
def Repo.loaded (store : KvStore) (pending : List Queued) : Repo :=
  { store := store, pending := pending, found := (store, none) }

namespace Repo

/-- A thread moves on. -/
def put (repo : Repo) (thread : Nat) (doing : Doing) : Repo :=
  { repo with doing := Function.update repo.doing thread doing }

/-- The thread that holds the store moves on. -/
def goes (repo : Repo) (thread : Nat) (work : Work) : Repo :=
  { repo with conn := some (thread, work) }

/-- It is about to let go of the store and answer. -/
def answers (repo : Repo) (thread : Nat) (answer : Answer) : Repo :=
  repo.goes thread (.leave (.answer answer))

/-- Something happened. -/
def note (repo : Repo) (event : Event) : Repo := { repo with history := event :: repo.history }

/-- A thread that flushed moves on. -/
def finish (repo : Repo) (thread : Nat) : After → Repo
  | .nothing => repo.put thread (.answered .flushed)
  | .reply reply => repo.put thread (.answered (.reply reply))
  | .head => repo.put thread (.awaits .head)

/-- The refusal of a commit. -/
def refuse (repo : Repo) (thread : Nat) (failure : Failure) : Repo :=
  (repo.note (.refused repo.found (repo.store, repo.revertLock))).answers thread (.failed failure)

variable [Externals] [Patterns] (settings : Settings)

/-- `revert_start`, with the store in hand. -/
def start (repo : Repo) (thread : Nat) (target : Revert.Target) : Repo :=
  if repo.revertLock.isSome then
    repo.answers thread (.failed (.conflict "a coordinated revert is already in progress"))
  else
    match Revert.resolveTarget repo.store.log target with
    | .error failure => repo.answers thread (.failed failure)
    | .ok ops =>
        ({ repo with revertLock := some (ops.map OpRow.id) }.note (.started ops)).answers thread
          (.plan ops)

/-- `revert_commit`, reading the lock. -/
def commit (repo : Repo) (thread : Nat) (apply : List Int64) : Repo :=
  match repo.revertLock with
  | some locked => repo.goes thread (.revert apply locked)
  | none => repo.refuse thread (.conflict "no revert in progress; call revert/start first")

/-- `revert_commit`, from the operations it was started for to its result. -/
def revert (repo : Repo) (thread : Nat) (outside : Outside) (apply locked : List Int64) : Repo :=
  let narrowed := do
    let ops ← Revert.effective repo.store.log locked
    Revert.narrowToApplied ops apply
  match narrowed with
  | .error failure => repo.refuse thread failure
  | .ok ([], skipped) => repo.goes thread (.close ⟨none, repo.store.log.head, [], skipped⟩)
  | .ok (kept, skipped) =>
      match Revert.write repo.store (outside.context.named (Revert.nameOf locked))
          settings.retention outside.timestamp kept with
      | .error failure => repo.refuse thread failure
      | .ok (label, effects, after) =>
          ({ repo with
              store := after
              slot := repo.slot.settle after effects settings.caseInsensitive }.note
            (.reverted kept after)).goes thread
              (.close ⟨some label, after.log.head, kept.map OpRow.id, skipped⟩)

/-- `revert_commit`, releasing the lock. -/
def close (repo : Repo) (thread : Nat) (reply : Reply) : Repo :=
  ({ repo with revertLock := none }.note .committed).goes thread (.leave (.flush (.reply reply)))

/-- `revert_abort`, with the store in hand. -/
def abort (repo : Repo) (thread : Nat) : Repo :=
  if repo.revertLock.isSome then
    ({ repo with revertLock := none }.note .aborted).goes thread (.leave (.flush .head))
  else repo.answers thread (.failed (.conflict "no revert in progress"))

/-- `writer`: the refusal of a write while a coordinated revert holds the repository. -/
def writerLocked : String :=
  "repository is in a coordinated revert; commit or abort it first"

/-- `flush_pending_once`, with the store in hand: the lock is looked at again, and the buffer
taken. -/
def flush (repo : Repo) (thread : Nat) (after : After) : Repo :=
  if repo.revertLock.isSome then repo.goes thread (.leave (.finish after))
  else if repo.pending = [] then repo.goes thread (.leave (.finish after))
  else
    let events := compact (correlateRenames repo.pending)
    let (rules, slot) := repo.slot.watchRules repo.store settings.caseInsensitive
    { repo with pending := [], slot := slot }.goes thread
      (.groups after repo.pending events (writesOf events) rules)

/-- `return_pending`. -/
def returnPending (repo : Repo) (taken : List Queued) : Repo :=
  { repo with pending := taken ++ repo.pending }

/-- `flush_pending_once`, one of its writes; none where the write does not end. -/
def group (repo : Repo) (thread : Nat) (outside : Outside) (after : After) (taken : List Queued)
    (events : List FsEvent) (write : Option (List FsEvent)) (left : List (Option (List FsEvent)))
    (rules : WatchRules) : Option Repo :=
  if repo.revertLock.isSome then
    some ((repo.returnPending taken).answers thread (.locked writerLocked))
  else
    let batch :=
      { outside.batch with
        caseInsensitive := settings.caseInsensitive
        departed := departedOf events
        moved := movedOf events
        arriving := arrivingOf events }
    match batch.commitGroup write rules settings.retention outside.timestamp repo.store with
    | .ok (rules, store) =>
        some (({ repo with store := store }.note (.flushed store)).goes thread
          (.groups after taken events left rules))
    | .error .cancelled =>
        some ({ repo.returnPending taken with paused := true }.goes thread
          (.leave (.finish after)))
    | .error (.failed failure) =>
        some ((repo.returnPending taken).answers thread (.failed failure))
    | .error .endless => none

/-- A write of another client, with the store in hand. -/
def write (repo : Repo) (thread : Nat) (transaction : Transaction) : Repo :=
  if repo.revertLock.isSome then repo.answers thread (.locked writerLocked)
  else
    match transaction.perform repo.store with
    | .error failure => repo.answers thread (.failed failure)
    | .ok (effects, after) =>
        ({ repo with
            store := after
            slot := repo.slot.settle after effects settings.caseInsensitive }.note
          (.wrote after)).answers thread .written

/-- The first step of a thread that took the store. -/
def enter (repo : Repo) (thread : Nat) : Entry → Repo
  | .start target => repo.start thread target
  | .commit apply => repo.commit thread apply
  | .abort => repo.abort thread
  | .flush after => repo.flush settings thread after
  | .write transaction => repo.write settings thread transaction
  | .head => repo.answers thread (.head repo.store.log.head)

/-- One step of the thread that holds the store. -/
def works (repo : Repo) (thread : Nat) (outside : Outside) : Work → Option Repo
  | .enter entry => some (repo.enter settings thread entry)
  | .revert apply locked => some (repo.revert settings thread outside apply locked)
  | .close reply => some (repo.close thread reply)
  | .groups after taken events (write :: left) rules =>
      repo.group settings thread outside after taken events write left rules
  | .groups after _ _ [] _ =>
      some ({ repo with
          slot := (repo.slot.watchRules repo.store settings.caseInsensitive).2 }.goes thread
        (.leave (.finish after)))
  | .leave next =>
      let free := { repo with conn := none }
      match next with
      | .answer answer => some (free.put thread (.answered answer))
      | .flush after => some (free.put thread (.flushes after))
      | .finish after => some (free.finish thread after)

/-- One step of a thread; none where it waits, or has nothing to do. -/
def advance (repo : Repo) (thread : Nat) (outside : Outside) : Option Repo :=
  match repo.doing thread with
  | .idle => none
  | .flushes after =>
      some (if repo.revertLock.isSome then repo.finish thread after
        else repo.put thread (.unlocked after))
  | .unlocked after =>
      some (if repo.paused then repo.finish thread after else repo.put thread (.unpaused after))
  | .unpaused after =>
      some (if outside.rootPresent then repo.put thread (.awaits (.flush after))
        else { repo with pending := [] }.finish thread after)
  | .writes transaction =>
      some (repo.put thread (if repo.revertLock.isSome then .answered (.locked writerLocked)
        else .awaits (.write transaction)))
  | .awaits entry =>
      match repo.conn with
      | none => some ({ repo with
          conn := some (thread, .enter entry)
          found := (repo.store, repo.revertLock) }.put thread .holds)
      | some _ => none
  | .holds =>
      match repo.conn with
      | some (holder, work) =>
          if holder = thread then repo.works settings thread outside work else none
      | none => none
  | .answered _ => none

end Repo

/-- What a thread is asked. -/
inductive Request
  /-- `POST /revert/start`. -/
  | start (target : Revert.Target)
  /-- `POST /revert/commit`. -/
  | commit (apply : List Int64)
  /-- `POST /revert/abort`. -/
  | abort
  /-- A flush. -/
  | flush
  /-- A client's write. -/
  | write (transaction : Transaction)

/-- Where a request begins. -/
def Request.doing : Request → Doing
  | .start target => .awaits (.start target)
  | .commit apply => .awaits (.commit apply)
  | .abort => .awaits .abort
  | .flush => .flushes .nothing
  | .write transaction => .writes transaction

/-- What may happen next. -/
inductive Action
  /-- An idle thread is asked something. -/
  | ask (thread : Nat) (request : Request)
  /-- A thread makes one step. -/
  | advance (thread : Nat) (outside : Outside)
  /-- The watcher buffers an event. -/
  | buffer (event : Queued)
  /-- Ingestion is paused or resumed. -/
  | pause (paused : Bool)

namespace Repo

variable [Externals] [Patterns] (settings : Settings)

/-- One step of the whole. -/
def step (repo : Repo) : Action → Option Repo
  | .ask thread request =>
      match repo.doing thread with
      | .idle => some (repo.put thread request.doing)
      | _ => none
  | .advance thread outside => repo.advance settings thread outside
  | .buffer event => some { repo with pending := repo.pending ++ [event] }
  | .pause paused => some { repo with paused := paused }

/-- Steps in a row. -/
def run (repo : Repo) (actions : List Action) : Option Repo := actions.foldlM (step settings) repo

end Repo

/-! ### The history -/

/-- The operations of the revert in progress. -/
def inProgress : List Event → Option (List OpRow)
  | [] => none
  | .started ops :: _ => some ops
  | .committed :: _ => none
  | .aborted :: _ => none
  | _ :: earlier => inProgress earlier

/-- Whether the revert in progress was written. -/
def written : List Event → Bool
  | [] => false
  | .started _ :: _ => false
  | .reverted _ _ :: _ => true
  | .committed :: _ => false
  | .aborted :: _ => false
  | _ :: earlier => written earlier

/-- The store as the history leaves it. -/
def storeAfter (initial : KvStore) : List Event → KvStore
  | [] => initial
  | .reverted _ after :: _ => after
  | .flushed after :: _ => after
  | .wrote after :: _ => after
  | _ :: earlier => storeAfter initial earlier

variable [Externals]

/-- What may happen after a history. -/
def Allowed (settings : Settings) (initial : KvStore) (earlier : List Event) : Event → Prop
  | .started _ => inProgress earlier = none
  | .reverted ops after =>
      written earlier = false ∧
        (∃ fixed, inProgress earlier = some fixed ∧ ∀ op ∈ ops, ∃ original ∈ fixed,
          (storeAfter initial earlier).log.op original.id = some op) ∧
        ∃ context timestamp label effects, Revert.write (storeAfter initial earlier) context
          settings.retention timestamp ops = .ok (label, effects, after)
  | .committed => (inProgress earlier).isSome
  | .aborted => (inProgress earlier).isSome
  | .refused found left => found = left
  | .flushed _ => inProgress earlier = none
  | .wrote _ => inProgress earlier = none

/-- Every event of a history was allowed. -/
def Orderly (settings : Settings) (initial : KvStore) : List Event → Prop
  | [] => True
  | event :: earlier =>
      Allowed settings initial earlier event ∧ Orderly settings initial earlier

theorem Orderly.allowed {settings : Settings} {initial : KvStore}
    {history later earlier : List Event} {event : Event}
    (orderly : Orderly settings initial history) (split : history = later ++ event :: earlier) :
    Allowed settings initial earlier event := by
  subst split
  induction later with
  | nil => exact orderly.1
  | cons _ _ ih => exact ih orderly.2

end Coordination

end Metafolder
