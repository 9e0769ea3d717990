import Mathlib.Logic.Function.Basic
import Mathlib.Logic.Relation
import Metafolder.AccessFilter

/-!
# The broker

A registry of subscribers, each with a bounded queue and two threads of its own, and the threads
that feed it: what each does between two points where another may run is one step.
-/

namespace Metafolder
namespace Watchd

/-- A root the event source could not cover, and why. -/
structure Uncovered where
  root : PathBuf
  reason : String
  deriving DecidableEq, Repr

/-- A filesystem mounted beneath a root that no mark covers, and why. -/
structure Gap where
  mount : PathBuf
  reason : String
  deriving DecidableEq, Repr

/-- A root a subscriber is refused, and why. -/
structure Denied where
  root : PathBuf
  reason : String
  deriving DecidableEq, Repr

/-- What the broker sends a subscriber. -/
inductive ServerMsg where
  | subscribed (roots : List PathBuf) (denied : List Denied) (gaps : List Gap)
  | event (event : Event)
  | overflow
  | gaps (gaps : List Gap)
  | error (message : String)
  deriving DecidableEq, Repr

/-- What a subscriber's writer is handed: a message, a wake to announce an overflow, or the order
to hang up. -/
inductive Out where
  | msg (message : ServerMsg)
  | overflow
  | close
  deriving DecidableEq, Repr

/-- A connected subscriber.  The last four fields are not the broker's: they record what was
answered, whether a message was dropped since an overflow was last written, which lists of gaps
were queued, and whether the last announcement of gaps was refused. -/
structure Client where
  peer : Subscriber
  roots : List PathBuf
  queue : List Out
  overflow : Bool
  gaps : List Gap
  promised : List PathBuf
  lost : Bool
  told : List (List Gap)
  untold : Bool

/-- A subscriber as it connects. -/
def Client.attached (peer : Subscriber) : Client where
  peer := peer
  roots := []
  queue := []
  overflow := false
  gaps := []
  promised := []
  lost := false
  told := [[]]
  untold := false

/-- The threads: a reader and a writer for each subscriber, and those of the service. -/
inductive Thread where
  | reader (id : Nat)
  | writer (id : Nat)
  | service (index : Nat)
  deriving DecidableEq, Repr

/-- The subscriber a thread serves. -/
def Thread.client : Thread → Option Nat
  | reader id | writer id => some id
  | service _ => none

/-- Who reads the union of the roots: a subscription, or a departure. -/
inductive Caller where
  | subscribe (allowed : List PathBuf) (denied : List Denied)
  | drop
  deriving DecidableEq, Repr

/-- A round of announcements: the subscribers still to visit, and whether the thread ends then. -/
structure Round where
  ends : Bool
  left : List Nat
  deriving DecidableEq, Repr

/-- What a list of gaps is made for: the answer to a subscription, or an announcement. -/
inductive Job where
  | answer (allowed : List PathBuf) (denied : List Denied)
  | announce (id : Nat) (round : Round)
  deriving DecidableEq, Repr

/-- The subscriber a list of gaps is made for. -/
def Job.id (thread : Thread) : Job → Option Nat
  | .answer _ _ => thread.client
  | .announce id _ => some id

/-- What follows once a refused message has raised the overflow flag. -/
inductive Next where
  | gaps (round : Round)
  | event (event : Event) (left : List Nat)
  deriving DecidableEq, Repr

/-- What a thread is about to do. -/
inductive Doing where
  | gone
  | idle
  -- `apply_subscription`
  | storing (allowed : List PathBuf) (denied : List Denied)
  | locking (allowed : List PathBuf) (denied : List Denied)
  | refusing (allowed : List PathBuf) (denied : List Denied)
  | noting (allowed : List PathBuf) (denied : List Denied) (gaps : List Gap)
  | answering (allowed : List PathBuf) (denied : List Denied) (gaps : List Gap)
  -- `drop_client`
  | closing
  | dropping
  -- `union_roots` and `set_roots`
  | reading (caller : Caller) (left : List Nat) (union : List PathBuf)
  | giving (caller : Caller) (union : List PathBuf)
  -- `gaps_for`
  | listing (job : Job)
  | asking (job : Job) (roots : List PathBuf)
  | sifting (job : Job) (roots : List PathBuf) (all : List Gap)
  -- `announce_gaps`
  | announcing (ends : Bool)
  | visiting (round : Round)
  | comparing (id : Nat) (gaps : List Gap) (round : Round)
  -- `broadcast`
  | broadcasting (event : Event) (left : List Nat)
  | adapting (event : Event) (id : Nat) (roots : List PathBuf) (left : List Nat)
  | sending (sent event : Event) (id : Nat) (left : List Nat)
  | flagging (id : Nat) (next : Next)
  -- `broadcast_overflow`
  | overflowing (left : List Nat)
  | waking (id : Nat) (left : List Nat)
  -- the writer
  | waiting
  | holding (item : Out)
  | marking (message : Option ServerMsg)
  | writing (message : ServerMsg)
  deriving DecidableEq, Repr

/-- The broker: its registry with the lock on it, its subscribers and its threads, the roots and
the gaps of the event source, and what the filter answers. -/
structure Broker where
  queueCap : Nat
  nextId : Nat
  clients : List Nat
  locked : Option Thread
  client : Nat → Client
  doing : Thread → Doing
  source : List PathBuf
  sourceGaps : List Gap
  sees : Subscriber → PathBuf → PathBuf → Bool

/-- A broker nobody has connected to. -/
def Broker.start (queueCap : Nat) (sees : Subscriber → PathBuf → PathBuf → Bool) : Broker where
  queueCap := queueCap
  nextId := 1
  clients := []
  locked := none
  client _ := Client.attached ⟨0, 0, []⟩
  doing
    | .service _ => .idle
    | _ => .gone
  source := []
  sourceGaps := []
  sees := sees

/-- What a thread learns from outside as it takes a step: the roots the source could not cover and
its gaps, or whether the message was written. -/
structure Answer where
  uncovered : List Uncovered
  gaps : List Gap
  written : Bool

/-- What can happen: a subscriber connects, sends a line or hangs up, the service is handed an
event, an overflow of the kernel or a mount change, permissions change, or a thread goes on. -/
inductive Action where
  | attach (peer : Subscriber)
  | subscribe (id : Nat) (roots : List PathBuf) (canonical : PathBuf → Option PathBuf)
  | unparsable (id : Nat) (error : String)
  | tooLong (id : Nat)
  | hangUp (id : Nat)
  | event (index : Nat) (event : Event)
  | kernelOverflow (index : Nat)
  | remark (index : Nat) (gaps : List Gap)
  | permissions (sees : Subscriber → PathBuf → PathBuf → Bool)
  | advance (thread : Thread) (answer : Answer)

namespace Broker

/-- The thread is next to do this. -/
def put (broker : Broker) (thread : Thread) (doing : Doing) : Broker :=
  { broker with doing := Function.update broker.doing thread doing }

def modify (broker : Broker) (id : Nat) (change : Client → Client) : Broker :=
  { broker with client := Function.update broker.client id (change (broker.client id)) }

/-- Whether the writer still takes items from the queue. -/
def receiving (broker : Broker) (id : Nat) : Bool :=
  match broker.doing (.writer id) with
  | .waiting | .holding _ | .marking _ | .writing _ => true
  | _ => false

/-- Whether the queue has room; one of no capacity hands an item to a writer that waits. -/
def accepts (broker : Broker) (id : Nat) : Bool :=
  (broker.client id).queue.length < broker.queueCap ||
    (broker.client id).queue = [] && broker.doing (.writer id) = .waiting

/-- What came of `try_send`. -/
inductive Sent where
  | accepted
  | full
  | disconnected
  deriving DecidableEq, Repr

def trySend (broker : Broker) (id : Nat) : Sent :=
  if broker.receiving id then if broker.accepts id then .accepted else .full
  else .disconnected

def enqueue (broker : Broker) (id : Nat) (item : Out) : Broker :=
  broker.modify id fun client => { client with queue := client.queue ++ [item] }

/-- A message was dropped. -/
def lose (broker : Broker) (id : Nat) : Broker :=
  broker.modify id fun client => { client with lost := true }

/-- The longest message a subscriber may send. -/
def maxLine : Nat := 256 * 1024

/-- Queue an error, which is dropped when the queue is full. -/
def fail (broker : Broker) (id : Nat) (message : String) : Broker :=
  match broker.trySend id with
  | .accepted => broker.enqueue id (.msg (.error message))
  | .full => broker.lose id
  | .disconnected => broker

/-- The roots of one more subscriber, each but once. -/
def merge (union roots : List PathBuf) : List PathBuf :=
  roots.foldl (fun union root => if root ∈ union then union else union ++ [root]) union

/-- The gaps a subscriber may know of, of those the source reported. -/
def sift (sees : Subscriber → PathBuf → PathBuf → Bool) (peer : Subscriber)
    (roots : List PathBuf) (all : List Gap) : List Gap :=
  all.filter fun gap =>
    roots.any fun root =>
      gap.mount.startsWith root && gap.mount ≠ root && sees peer root gap.mount

/-- The event as a subscriber may have it, by what the filter answers. -/
def adaptFor (broker : Broker) (id : Nat) (roots : List PathBuf) (event : Event) :
    Option Event :=
  event.adapt (m := Id) roots fun path =>
    match AccessFilter.innermost roots path with
    | none => false
    | some root => broker.sees (broker.client id).peer root path

/-- The roots asked for under the names the filter finds for them, and the denials. -/
def checked (roots : List PathBuf) (canonical : PathBuf → Option PathBuf) :
    List PathBuf × List Denied :=
  (roots.filterMap canonical,
    (roots.filter fun root => (canonical root).isNone).map fun root => ⟨root, "not accessible"⟩)

/-- The message an item carries. -/
def message : Out → Option ServerMsg
  | .msg message => some message
  | .overflow | .close => none

/-- The writer once the overflow, if any, is announced. -/
def wrote : Option ServerMsg → Doing
  | some message => .writing message
  | none => .waiting

def resume : Next → Doing
  | .gaps round => .visiting round
  | .event event left => .broadcasting event left

/-- The lists of gaps a subscriber is to be told now. -/
def current (broker : Broker) (id : Nat) : List Gap :=
  sift broker.sees (broker.client id).peer (broker.client id).roots broker.sourceGaps

/-- The event source is given the union, and answers the roots it cannot cover: those its caller
asked for are denied. -/
def given (caller : Caller) (answer : Answer) : Doing :=
  match caller with
  | .drop => .announcing true
  | .subscribe allowed denied =>
      let mine := answer.uncovered.filter fun refused => refused.root ∈ allowed
      if mine = [] then .listing (.answer allowed denied)
      else .refusing (allowed.filter fun root => mine.all fun refused => refused.root ≠ root)
        (denied ++ mine.map fun refused =>
          ⟨refused.root, "cannot be watched: " ++ refused.reason⟩)

/-- The answer to a subscription is queued, or dropped. -/
def answerWith (broker : Broker) (id : Nat) (allowed : List PathBuf) (denied : List Denied)
    (gaps : List Gap) : Broker :=
  match broker.trySend id with
  | .accepted =>
      (broker.enqueue id (.msg (.subscribed allowed denied gaps))).modify id fun client =>
        { client with promised := allowed, told := gaps :: client.told }
  | .full => broker.lose id
  | .disconnected => broker

/-- A list of gaps is compared with the one last sent, and sent where it differs. -/
def announce (broker : Broker) (thread : Thread) (id : Nat) (gaps : List Gap) (round : Round) :
    Broker :=
  if (broker.client id).gaps = gaps then
    (broker.modify id fun client =>
      { client with untold := client.untold && gaps ≠ broker.current id }).put thread
        (.visiting round)
  else
    match broker.trySend id with
    | .accepted =>
        ((broker.enqueue id (.msg (.gaps gaps))).modify id fun client =>
          { client with gaps := gaps, told := gaps :: client.told, untold := false }).put thread
            (.visiting round)
    | .full =>
        ((broker.lose id).modify id fun client => { client with untold := true }).put thread
          (.flagging id (.gaps round))
    | .disconnected =>
        (broker.modify id fun client => { client with untold := true }).put thread
          (.flagging id (.gaps round))

/-- A subscriber is removed from the registry, and the union read under the same lock. -/
def remove (broker : Broker) (thread : Thread) (id : Nat) : Broker :=
  let remaining := broker.clients.filter (· ≠ id)
  if id ∈ broker.clients then
    { (broker.modify id fun client => { client with promised := [] }).put thread
        (.reading .drop remaining []) with
      clients := remaining
      locked := some thread }
  else broker.put thread .gone

/-- The next step of a subscriber's writer. -/
def write (broker : Broker) (thread : Thread) (id : Nat) (answer : Answer) :
    Doing → Option Broker
  | .waiting =>
      match (broker.client id).queue with
      | [] => none
      | item :: rest =>
          some ((broker.modify id fun client => { client with queue := rest }).put thread
            (if item = .close then .dropping else .holding item))
  | .holding item =>
      if (broker.client id).overflow then
        some ((broker.modify id fun client => { client with overflow := false }).put thread
          (.marking (message item)))
      else some (broker.put thread (wrote (message item)))
  | .marking pending =>
      if answer.written then
        some ((broker.modify id fun client => { client with lost := false }).put thread
          (wrote pending))
      else some (broker.put thread .dropping)
  | .writing _ => some (broker.put thread (if answer.written then .waiting else .dropping))
  | _ => none

/-- The next step of a subscription, on the subscriber's own reader. -/
def apply (broker : Broker) (thread : Thread) (id : Nat) : Doing → Option Broker
  | .storing allowed denied =>
      some ((broker.modify id fun client =>
        { client with roots := allowed, promised := [] }).put thread (.locking allowed denied))
  | .locking allowed denied =>
      if broker.locked = none then
        some { broker.put thread (.reading (.subscribe allowed denied) broker.clients []) with
          locked := some thread }
      else none
  | .refusing allowed denied =>
      some ((broker.modify id fun client => { client with roots := allowed }).put thread
        (.listing (.answer allowed denied)))
  | .noting allowed denied gaps =>
      some ((broker.modify id fun client => { client with gaps := gaps }).put thread
        (.answering allowed denied gaps))
  | .answering allowed denied gaps =>
      some ((broker.answerWith id allowed denied gaps).put thread (.announcing false))
  | .closing =>
      some ((match broker.trySend id with
        | .accepted => broker.enqueue id .close
        | .full | .disconnected => broker).put thread .dropping)
  | _ => none

/-- The next step of reading the union of the roots and giving it to the source, and of making and
announcing lists of gaps. -/
def share (broker : Broker) (thread : Thread) (answer : Answer) : Doing → Option Broker
  | .reading caller [] union =>
      some { broker.put thread (.giving caller union) with locked := none }
  | .reading caller (id :: left) union =>
      some (broker.put thread (.reading caller left (merge union (broker.client id).roots)))
  | .giving caller union =>
      some { broker.put thread (given caller answer) with
        source := union
        sourceGaps := answer.gaps }
  | .listing job => do
      let id ← job.id thread
      some (broker.put thread (.asking job (broker.client id).roots))
  | .asking job roots => some (broker.put thread (.sifting job roots broker.sourceGaps))
  | .sifting job roots all => do
      let id ← job.id thread
      let gaps := sift broker.sees (broker.client id).peer roots all
      some (broker.put thread (match job with
        | .answer allowed denied => .noting allowed denied gaps
        | .announce id round => .comparing id gaps round))
  | .announcing ends =>
      if broker.locked = none then
        some (broker.put thread (.visiting ⟨ends, broker.clients⟩))
      else none
  | .visiting ⟨ends, []⟩ => some (broker.put thread (if ends then .gone else .idle))
  | .visiting ⟨ends, id :: left⟩ =>
      some (broker.put thread
        (if (broker.client id).roots = [] then .visiting ⟨ends, left⟩
        else .listing (.announce id ⟨ends, left⟩)))
  | .comparing id gaps round => some (broker.announce thread id gaps round)
  | .flagging id next =>
      some ((broker.modify id fun client => { client with overflow := true }).put thread
        (resume next))
  | _ => none

/-- The next step of a broadcast, under the lock on the registry. -/
def deliver (broker : Broker) (thread : Thread) : Doing → Option Broker
  | .broadcasting _ [] | .overflowing [] =>
      some { broker.put thread .idle with locked := none }
  | .broadcasting event (id :: left) =>
      some (broker.put thread
        (if (broker.client id).roots = [] then .broadcasting event left
        else .adapting event id (broker.client id).roots left))
  | .adapting event id roots left =>
      some (broker.put thread
        (match broker.adaptFor id roots event with
        | none => .broadcasting event left
        | some sent => .sending sent event id left))
  | .sending sent event id left =>
      some (match broker.trySend id with
        | .accepted =>
            (broker.enqueue id (.msg (.event sent))).put thread (.broadcasting event left)
        | .full => (broker.lose id).put thread (.flagging id (.event event left))
        | .disconnected => broker.put thread (.broadcasting event left))
  | .overflowing (id :: left) =>
      some ((broker.modify id fun client => { client with overflow := true }).put thread
        (.waking id left))
  -- Behind what was queued before the gap; the loss is the kernel's, told unless the flag is down.
  | .waking id left =>
      let waked := match broker.trySend id with
        | .accepted => broker.enqueue id .overflow
        | .full | .disconnected => broker
      some ((waked.modify id fun client =>
        { client with lost := client.lost || client.overflow }).put thread (.overflowing left))
  | _ => none

/-- `drop_client`, on either of the subscriber's threads. -/
def leave (broker : Broker) (thread : Thread) (id : Nat) : Doing → Option Broker
  | .dropping => if broker.locked = none then some (broker.remove thread id) else none
  | _ => none

/-- The next step of a thread. -/
def advance (broker : Broker) (thread : Thread) (answer : Answer) : Option Broker :=
  let doing := broker.doing thread
  match thread with
  | .reader id =>
      broker.apply thread id doing <|> broker.leave thread id doing <|>
        broker.share thread answer doing
  | .writer id =>
      broker.write thread id answer doing <|> broker.leave thread id doing <|>
        broker.share thread answer doing
  | .service _ => broker.deliver thread doing <|> broker.share thread answer doing

/-- The broker after an action, where it can happen. -/
def step (broker : Broker) : Action → Option Broker
  | .attach peer =>
      if broker.locked = none then
        some { ((broker.modify broker.nextId fun _ => Client.attached peer).put
            (.reader broker.nextId) .idle).put (.writer broker.nextId) .waiting with
          clients := broker.clients ++ [broker.nextId]
          nextId := broker.nextId + 1 }
      else none
  | .subscribe id roots canonical =>
      if broker.doing (.reader id) = .idle then
        some (broker.put (.reader id)
          (.storing (checked roots canonical).1 (checked roots canonical).2))
      else none
  | .unparsable id error =>
      if broker.doing (.reader id) = .idle then
        some (broker.fail id ("unparsable message: " ++ error))
      else none
  | .tooLong id =>
      if broker.doing (.reader id) = .idle then
        some ((broker.fail id ("message too long (over " ++ toString maxLine ++ " bytes)")).put
          (.reader id) .closing)
      else none
  | .hangUp id =>
      if broker.doing (.reader id) = .idle then some (broker.put (.reader id) .closing) else none
  | .event index event =>
      if broker.doing (.service index) = .idle ∧ broker.locked = none then
        some { broker.put (.service index) (.broadcasting event broker.clients) with
          locked := some (.service index) }
      else none
  | .kernelOverflow index =>
      if broker.doing (.service index) = .idle ∧ broker.locked = none then
        some { broker.put (.service index) (.overflowing broker.clients) with
          locked := some (.service index) }
      else none
  | .remark index gaps =>
      if broker.doing (.service index) = .idle then
        some { broker.put (.service index) (.announcing false) with sourceGaps := gaps }
      else none
  | .permissions sees => some { broker with sees := sees }
  | .advance thread answer => broker.advance thread answer

/-- The states reached by steps that keep to a condition. -/
def Run (keeps : Broker → Action → Prop) : Broker → Broker → Prop :=
  Relation.ReflTransGen fun before after =>
    ∃ action, keeps before action ∧ before.step action = some after

variable {broker after : Broker} {thread : Thread} {id : Nat}

@[simp]
theorem put_doing_self (broker : Broker) (thread : Thread) (doing : Doing) :
    (broker.put thread doing).doing thread = doing := by
  simp [put]

theorem put_doing_of_ne {other : Thread} (different : other ≠ thread) (broker : Broker)
    (doing : Doing) : (broker.put thread doing).doing other = broker.doing other := by
  simp [put, different]

section

variable (broker : Broker) (thread : Thread) (doing : Doing) (id : Nat) (change : Client → Client)

@[simp] theorem put_client : (broker.put thread doing).client = broker.client := rfl
@[simp] theorem put_clients : (broker.put thread doing).clients = broker.clients := rfl
@[simp] theorem put_nextId : (broker.put thread doing).nextId = broker.nextId := rfl
@[simp] theorem put_source : (broker.put thread doing).source = broker.source := rfl
@[simp] theorem put_sourceGaps : (broker.put thread doing).sourceGaps = broker.sourceGaps := rfl
@[simp] theorem put_sees : (broker.put thread doing).sees = broker.sees := rfl
@[simp] theorem put_queueCap : (broker.put thread doing).queueCap = broker.queueCap := rfl
@[simp] theorem modify_doing : (broker.modify id change).doing = broker.doing := rfl
@[simp] theorem modify_clients : (broker.modify id change).clients = broker.clients := rfl
@[simp] theorem modify_nextId : (broker.modify id change).nextId = broker.nextId := rfl
@[simp] theorem modify_source : (broker.modify id change).source = broker.source := rfl
@[simp] theorem modify_sourceGaps :
    (broker.modify id change).sourceGaps = broker.sourceGaps := rfl
@[simp] theorem modify_sees : (broker.modify id change).sees = broker.sees := rfl
@[simp] theorem modify_queueCap : (broker.modify id change).queueCap = broker.queueCap := rfl
@[simp] theorem enqueue_doing (item : Out) : (broker.enqueue id item).doing = broker.doing := rfl
@[simp] theorem lose_doing : (broker.lose id).doing = broker.doing := rfl

end

@[simp]
theorem modify_client_self (broker : Broker) (id : Nat) (change : Client → Client) :
    (broker.modify id change).client id = change (broker.client id) :=
  Function.update_self id _ broker.client

theorem modify_client_of_ne {other : Nat} (different : other ≠ id) (broker : Broker)
    (change : Client → Client) : (broker.modify id change).client other = broker.client other :=
  Function.update_of_ne different _ broker.client

/-- What a change to a subscriber keeps of it, it keeps of every subscriber. -/
theorem modify_keeps {β : Type} (field : Client → β) (broker : Broker) (id : Nat)
    {change : Client → Client}
    (keeps : field (change (broker.client id)) = field (broker.client id)) (other : Nat) :
    field ((broker.modify id change).client other) = field (broker.client other) := by
  by_cases same : other = id
  · subst same
    rw [modify_client_self, keeps]
  · rw [modify_client_of_ne same]

/-- Which part of the code took a step. -/
theorem advance_cases {answer : Answer} (step : broker.advance thread answer = some after) :
    (∃ id, thread = .writer id ∧ broker.write thread id answer (broker.doing thread) = some after) ∨
    (∃ id, thread = .reader id ∧ broker.apply thread id (broker.doing thread) = some after) ∨
    (∃ id, thread.client = some id ∧ broker.leave thread id (broker.doing thread) = some after) ∨
    (∃ index, thread = .service index ∧
      broker.deliver thread (broker.doing thread) = some after) ∨
    broker.share thread answer (broker.doing thread) = some after := by
  unfold advance at step
  cases thread with
  | reader id =>
      simp only [Option.orElse_eq_some] at step
      rcases step with applied | ⟨_, left | ⟨_, shared⟩⟩
      · exact Or.inr (Or.inl ⟨id, rfl, applied⟩)
      · exact Or.inr (Or.inr (Or.inl ⟨id, rfl, left⟩))
      · exact Or.inr (Or.inr (Or.inr (Or.inr shared)))
  | writer id =>
      simp only [Option.orElse_eq_some] at step
      rcases step with wrote | ⟨_, left | ⟨_, shared⟩⟩
      · exact Or.inl ⟨id, rfl, wrote⟩
      · exact Or.inr (Or.inr (Or.inl ⟨id, rfl, left⟩))
      · exact Or.inr (Or.inr (Or.inr (Or.inr shared)))
  | service index =>
      simp only [Option.orElse_eq_some] at step
      rcases step with delivered | ⟨_, shared⟩
      · exact Or.inr (Or.inr (Or.inr (Or.inl ⟨index, rfl, delivered⟩)))
      · exact Or.inr (Or.inr (Or.inr (Or.inr shared)))

/-- Take actions one after another, as long as they can happen and pass a check. -/
def play (passes : Broker → Action → Bool) (broker : Broker) : List Action → Option Broker
  | [] => some broker
  | action :: rest =>
      if passes broker action then (broker.step action).bind fun after => after.play passes rest
      else none

/-- What is played under a check is a run under the condition the check is enough for. -/
theorem run_of_play {keeps : Broker → Action → Prop} {passes : Broker → Action → Bool}
    (enough : ∀ broker action, passes broker action = true → keeps broker action)
    {actions : List Action} (played : broker.play passes actions = some after) :
    Run keeps broker after := by
  induction actions generalizing broker with
  | nil =>
      obtain rfl := Option.some.inj played
      exact .refl
  | cons action rest ih =>
      simp only [play] at played
      split at played
      next passed =>
        obtain ⟨between, stepped, later⟩ := Option.bind_eq_some_iff.mp played
        exact .head ⟨action, enough broker action passed, stepped⟩ (ih later)
      · cases played

end Broker

end Watchd
end Metafolder
