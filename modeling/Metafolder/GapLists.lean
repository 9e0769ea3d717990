import Metafolder.Delivery

/-!
# Lists of gaps

A subscriber is told the mounts beneath its roots that no mark covers, and told again as they
change.  In runs in which no list is recorded that has changed since it was made, the last one
recorded is the current one once no thread has still to make it.
-/

namespace Metafolder
namespace Watchd
namespace Broker

variable {broker after : Broker} {thread : Thread} {id : Nat}

/-- A thread has read what the list of gaps of a subscriber is made of, and it stands. -/
def reads (broker : Broker) (doing : Doing) (id : Nat) : Prop :=
  match doing with
  | .asking (.announce other _) roots => id = other ∧ roots = (broker.client id).roots
  | .sifting (.announce other _) roots all =>
      id = other ∧ roots = (broker.client id).roots ∧ all = broker.sourceGaps
  | .comparing other gaps _ => id = other ∧ gaps = broker.current id
  | _ => False

/-- A thread is to tell a subscriber its list of gaps as it is now. -/
def Owes (broker : Broker) (thread : Thread) (id : Nat) : Prop :=
  awaits (broker.doing thread) id = true ∨ broker.reads (broker.doing thread) id

/-- A subscription that has stored its roots and not yet recorded their gaps. -/
def recording : Doing → Bool
  | .locking _ _ | .reading (.subscribe _ _) _ _ | .giving (.subscribe _ _) _ | .refusing _ _
  | .listing (.answer _ _) | .asking (.answer _ _) _ | .sifting (.answer _ _) _ _
  | .noting _ _ _ => true
  | _ => false

/-- What a subscription has read of its own roots is what they are. -/
def ownList (broker : Broker) (id : Nat) : Doing → Prop
  | .asking (.answer _ _) roots | .sifting (.answer _ _) roots _ =>
      roots = (broker.client id).roots
  | .noting _ _ gaps => (broker.client id).roots = [] → gaps = []
  | _ => True

/-- A list recorded as told was queued, and it is the current one unless the last announcement was
refused or one is still to come. -/
structure Gapped (broker : Broker) : Prop where
  attached : ∀ id ∈ broker.clients, id < broker.nextId
  unstarted : ∀ thread id, thread.client = some id → broker.nextId ≤ id →
    broker.doing thread = .gone
  told : ∀ id, broker.receiving id = true →
    (broker.client id).gaps ∈ (broker.client id).told ∨
      ∃ allowed denied,
        broker.doing (.reader id) = .answering allowed denied (broker.client id).gaps
  upToDate : ∀ id ∈ broker.clients, (broker.client id).gaps = broker.current id ∨
    (broker.client id).untold = true ∨ ∃ thread, broker.Owes thread id
  empty : ∀ id, (broker.client id).roots = [] →
    (broker.client id).gaps = [] ∨ recording (broker.doing (.reader id)) = true
  own : ∀ id, broker.ownList id (broker.doing (.reader id))

theorem current_of_no_roots (none_ : (broker.client id).roots = []) : broker.current id = [] := by
  simp [current, sift, none_]

namespace Gapped

theorem start (queueCap : Nat) (sees : Subscriber → PathBuf → PathBuf → Bool) :
    (Broker.start queueCap sees).Gapped where
  attached := by simp [Broker.start]
  unstarted := by
    rintro (id | id | index) _ client _
    · rfl
    · rfl
    · cases client
  told := by simp [Broker.start, Client.attached]
  upToDate := by simp [Broker.start]
  empty := by simp [Broker.start, Client.attached]
  own := by simp [Broker.start, ownList]

theorem unstarted_put (gapped : broker.Gapped) {doing : Doing}
    (started : broker.doing thread ≠ .gone) :
    ∀ other id, other.client = some id → broker.nextId ≤ id →
      (broker.put thread doing).doing other = .gone := by
  intro other id client unattached
  by_cases self : other = thread
  · exact absurd (gapped.unstarted thread id (self ▸ client) unattached) started
  · rw [put_doing_of_ne self]
    exact gapped.unstarted other id client unattached

theorem receiving_put {doing : Doing} (works : takes doing = true →
    takes (broker.doing thread) = true) (receives : (broker.put thread doing).receiving id = true) :
    broker.receiving id = true := by
  rw [receiving_eq] at receives ⊢
  by_cases self : Thread.writer id = thread
  · rw [self, put_doing_self] at receives
    rw [self]
    exact works receives
  · rwa [put_doing_of_ne self] at receives

/-- A thread goes on that is no subscription about to answer: what it owed it owes, or it is
settled. -/
theorem put (gapped : broker.Gapped) (doing : Doing) (started : broker.doing thread ≠ .gone)
    (works : takes doing = true → takes (broker.doing thread) = true)
    (answers : ∀ allowed denied gaps, broker.doing thread ≠ .answering allowed denied gaps)
    (owes : ∀ id ∈ broker.clients, broker.Owes thread id →
      (awaits doing id = true ∨ broker.reads doing id) ∨
        (broker.client id).gaps = broker.current id ∨ (broker.client id).untold = true ∨
          ∃ other, other ≠ thread ∧ broker.Owes other id)
    (records : recording (broker.doing thread) = true → recording doing = true)
    (own : ∀ id, thread = .reader id → broker.ownList id doing) :
    (broker.put thread doing).Gapped := by
  have owes_other : ∀ other, other ≠ thread → ∀ id, broker.Owes other id →
      (broker.put thread doing).Owes other id := by
    intro other different id owed
    unfold Owes at owed ⊢
    rw [put_doing_of_ne different]
    exact owed
  refine ⟨gapped.attached, gapped.unstarted_put started, ?_, ?_, ?_, ?_⟩
  · intro id receives
    refine (gapped.told id (receiving_put works receives)).imp (fun told => told) ?_
    rintro ⟨allowed, denied, answering⟩
    refine ⟨allowed, denied, ?_⟩
    rw [put_doing_of_ne _ broker]
    · exact answering
    · rintro rfl
      exact answers _ _ _ answering
  · intro id connected
    rcases gapped.upToDate id connected with settled | untold | ⟨other, owed⟩
    · exact Or.inl settled
    · exact Or.inr (Or.inl untold)
    · by_cases self : other = thread
      · rcases owes id connected (self ▸ owed) with still | settled | untold | ⟨third, ne, owed'⟩
        · exact Or.inr (Or.inr ⟨thread, by unfold Owes; rw [put_doing_self]; exact still⟩)
        · exact Or.inl settled
        · exact Or.inr (Or.inl untold)
        · exact Or.inr (Or.inr ⟨third, owes_other third ne id owed'⟩)
      · exact Or.inr (Or.inr ⟨other, owes_other other self id owed⟩)
  · intro id none_
    refine (gapped.empty id none_).imp (fun nothing => nothing) fun recorded => ?_
    by_cases self : Thread.reader id = thread
    · rw [self, put_doing_self]
      exact records (self ▸ recorded)
    · rwa [put_doing_of_ne self]
  · intro id
    by_cases self : Thread.reader id = thread
    · rw [self, put_doing_self]
      exact own id self.symm
    · rw [put_doing_of_ne self]
      exact gapped.own id

/-- A thread goes on that owed no list and was recording none. -/
theorem go (gapped : broker.Gapped) (doing : Doing) (started : broker.doing thread ≠ .gone)
    (works : takes doing = true → takes (broker.doing thread) = true)
    (answers : ∀ allowed denied gaps, broker.doing thread ≠ .answering allowed denied gaps)
    (nothing : ∀ id, ¬ broker.Owes thread id)
    (not_recording : recording (broker.doing thread) = false)
    (own : ∀ id, broker.ownList id doing) : (broker.put thread doing).Gapped := by
  apply gapped.put doing started works answers
  · exact fun id _ owed => absurd owed (nothing id)
  · rw [not_recording]
    exact fun impossible => absurd impossible (by decide)
  · exact fun id _ => own id

/-- A thread goes on that is to tell every subscriber its list. -/
theorem await (gapped : broker.Gapped) (doing : Doing) (started : broker.doing thread ≠ .gone)
    (works : takes doing = false)
    (answers : ∀ allowed denied gaps, broker.doing thread ≠ .answering allowed denied gaps)
    (all : ∀ id, awaits doing id = true)
    (records : recording (broker.doing thread) = true → recording doing = true)
    (own : ∀ id, thread = .reader id → broker.ownList id doing) :
    (broker.put thread doing).Gapped := by
  apply gapped.put doing started (by simp [works]) answers
  · exact fun id _ _ => Or.inl (Or.inl (all id))
  · exact records
  · exact own

/-- What the lists of gaps of a subscriber are judged by. -/
def judged (client : Client) : List Gap × List (List Gap) × Bool × List PathBuf × Subscriber :=
  (client.gaps, client.told, client.untold, client.roots, client.peer)

/-- A subscriber changes, but not in its roots nor in its gaps and what is recorded of them. -/
theorem note (gapped : broker.Gapped) (id : Nat) {change : Client → Client}
    (same : judged (change (broker.client id)) = judged (broker.client id)) :
    (broker.modify id change).Gapped := by
  have all_same := modify_keeps judged broker id same
  simp only [judged, Prod.mk.injEq] at all_same
  have current_same : ∀ other, (broker.modify id change).current other = broker.current other := by
    intro other
    simp [current, (all_same other).2.2.2.1, (all_same other).2.2.2.2]
  have reads_same : ∀ doing other, (broker.modify id change).reads doing other ↔
      broker.reads doing other := by
    intro doing other
    unfold reads
    split <;> simp [(all_same other).2.2.2.1, current_same]
  refine ⟨gapped.attached, gapped.unstarted, ?_, ?_, ?_, ?_⟩
  · intro other receives
    rw [(all_same other).1, (all_same other).2.1]
    exact gapped.told other receives
  · intro other connected
    rw [(all_same other).1, (all_same other).2.2.1, current_same]
    refine (gapped.upToDate other connected).imp (fun settled => settled)
      (Or.imp (fun untold => untold) ?_)
    rintro ⟨thread, owed⟩
    exact ⟨thread, owed.imp (fun awaiting => awaiting) (reads_same _ _).mpr⟩
  · intro other
    rw [(all_same other).1, (all_same other).2.2.2.1]
    exact gapped.empty other
  · intro other
    have own := gapped.own other
    unfold ownList at own ⊢
    rw [(all_same other).2.2.2.1]
    exact own

theorem enqueue (gapped : broker.Gapped) (id : Nat) (item : Out) :
    (broker.enqueue id item).Gapped :=
  gapped.note id rfl

theorem lose (gapped : broker.Gapped) (id : Nat) : (broker.lose id).Gapped :=
  gapped.note id rfl

theorem frame (gapped : broker.Gapped) (locked : Option Thread) (source : List PathBuf) :
    Gapped { broker with locked := locked, source := source } :=
  ⟨gapped.attached, gapped.unstarted, gapped.told, gapped.upToDate, gapped.empty, gapped.own⟩

/-- The writer owes no list. -/
theorem write (gapped : broker.Gapped) {said : Answer}
    (step : broker.write (.writer id) id said (broker.doing (.writer id)) = some after) :
    after.Gapped := by
  cases doing : broker.doing (.writer id) with
  | waiting =>
      rw [doing] at step
      cases queue : (broker.client id).queue with
      | nil => simp [Broker.write, queue] at step
      | cons item rest =>
          simp only [Broker.write, queue, Option.some.injEq] at step
          rw [← step]
          have taken : (broker.modify id fun client => { client with queue := rest }).Gapped :=
            gapped.note id rfl
          by_cases last : item = .close <;> apply taken.go <;>
            simp [last, doing, takes, recording, Owes, awaits, reads, ownList]
  | holding item =>
      rw [doing] at step
      simp only [Broker.write] at step
      split at step <;> rw [← Option.some.inj step]
      · have lowered : (broker.modify id fun client => { client with overflow := false }).Gapped :=
            gapped.note id rfl
        apply lowered.go <;> simp [doing, takes, recording, Owes, awaits, reads, ownList]
      · cases message item <;> apply gapped.go <;>
          simp [wrote, doing, takes, recording, Owes, awaits, reads, ownList]
  | marking pending =>
      rw [doing] at step
      simp only [Broker.write] at step
      split at step <;> rw [← Option.some.inj step]
      · have written : (broker.modify id fun client => { client with lost := false }).Gapped :=
            gapped.note id rfl
        cases pending <;> apply written.go <;>
          simp [wrote, doing, takes, recording, Owes, awaits, reads, ownList]
      · apply gapped.go <;> simp [doing, takes, recording, Owes, awaits, reads, ownList]
  | writing item =>
      rw [doing] at step
      simp only [Broker.write, Option.some.injEq] at step
      rw [← step]
      cases said.written <;> apply gapped.go <;>
        simp [doing, takes, recording, Owes, awaits, reads, ownList]
  | _ => simp [Broker.write, doing] at step

theorem leave (gapped : broker.Gapped)
    (step : broker.leave thread id (broker.doing thread) = some after) : after.Gapped := by
  cases doing : broker.doing thread with
  | dropping =>
      simp only [doing, Broker.leave] at step
      split at step
      · rw [← Option.some.inj step, remove]
        split
        · have noted : (broker.modify id fun client => { client with promised := [] }).Gapped :=
            gapped.note id rfl
          have left : ((broker.modify id fun client => { client with promised := [] }).put thread
              (.reading .drop (broker.clients.filter (· ≠ id)) [])).Gapped := by
            apply noted.await <;> simp [doing, takes, recording, awaits, ownList]
          have fewer : ∀ other ∈ broker.clients.filter (· ≠ id), other ∈ broker.clients :=
            fun other kept => (List.mem_filter.mp kept).1
          exact ⟨fun other kept => left.attached other (fewer other kept), left.unstarted,
            left.told, fun other kept => left.upToDate other (fewer other kept), left.empty,
            left.own⟩
        · apply gapped.go <;> simp [doing, takes, recording, Owes, awaits, reads, ownList]
      · cases step
  | _ => simp [Broker.leave, doing] at step

/-- A broadcast owes no list. -/
theorem deliver (gapped : broker.Gapped)
    (step : broker.deliver thread (broker.doing thread) = some after) : after.Gapped := by
  cases doing : broker.doing thread with
  | broadcasting event left =>
      cases left with
      | nil =>
          simp only [doing, Broker.deliver, Option.some.injEq] at step
          rw [← step]
          have idle : (broker.put thread .idle).Gapped := by
            apply gapped.go <;> simp [doing, takes, recording, Owes, awaits, reads, ownList]
          exact idle.frame none _
      | cons other left =>
          simp only [doing, Broker.deliver, Option.some.injEq] at step
          rw [← step]
          by_cases none_ : (broker.client other).roots = [] <;> apply gapped.go <;>
            simp [none_, doing, takes, recording, Owes, awaits, reads, ownList]
  | adapting event other roots left =>
      simp only [doing, Broker.deliver, Option.some.injEq] at step
      rw [← step]
      cases broker.adaptFor other roots event <;> apply gapped.go <;>
        simp [doing, takes, recording, Owes, awaits, reads, ownList]
  | sending sent event other left =>
      simp only [doing, Broker.deliver, Option.some.injEq] at step
      rw [← step]
      cases broker.trySend other with
      | accepted =>
          apply (gapped.enqueue other _).go <;>
            simp [doing, takes, recording, Owes, awaits, reads, ownList]
      | full =>
          apply (gapped.lose other).go <;>
            simp [doing, takes, recording, Owes, awaits, reads, ownList]
      | disconnected =>
          apply gapped.go <;> simp [doing, takes, recording, Owes, awaits, reads, ownList]
  | overflowing left =>
      cases left with
      | nil =>
          simp only [doing, Broker.deliver, Option.some.injEq] at step
          rw [← step]
          have idle : (broker.put thread .idle).Gapped := by
            apply gapped.go <;> simp [doing, takes, recording, Owes, awaits, reads, ownList]
          exact idle.frame none _
      | cons other left =>
          simp only [doing, Broker.deliver, Option.some.injEq] at step
          rw [← step]
          have raised : (broker.modify other fun client =>
              { client with overflow := true }).Gapped :=
            gapped.note other rfl
          apply raised.go <;> simp [doing, takes, recording, Owes, awaits, reads, ownList]
  | waking other left =>
      simp only [doing, Broker.deliver, Option.some.injEq] at step
      rw [← step]
      have told : ∀ waked : Broker, waked.Gapped → waked.doing = broker.doing →
          ((waked.modify other fun client =>
            { client with lost := client.lost || client.overflow }).put thread
              (.overflowing left)).Gapped := by
        intro waked waked_gapped same
        have noted : (waked.modify other fun client =>
            { client with lost := client.lost || client.overflow }).Gapped :=
            waked_gapped.note other rfl
        apply noted.go <;> simp [same, doing, takes, recording, Owes, awaits, reads, ownList]
      cases broker.trySend other with
      | accepted => exact told _ (gapped.enqueue other _) rfl
      | full | disconnected => exact told broker gapped rfl
  | _ => simp [Broker.deliver, doing] at step

/-- The roots of a subscriber are stored by its own reader, which is to record their gaps and to
tell every subscriber its list. -/
theorem store (gapped : broker.Gapped) {change : Client → Client} {doing : Doing}
    (same_gaps : (change (broker.client id)).gaps = (broker.client id).gaps)
    (same_told : (change (broker.client id)).told = (broker.client id).told)
    (started : broker.doing (.reader id) ≠ .gone)
    (answers : ∀ allowed denied gaps,
      broker.doing (.reader id) ≠ .answering allowed denied gaps)
    (all : ∀ id, awaits doing id = true) (records : recording doing = true)
    (own : ∀ broker : Broker, broker.ownList id doing) :
    ((broker.modify id change).put (.reader id) doing).Gapped := by
  set after := (broker.modify id change).put (.reader id) doing with after_eq
  have reader : after.doing (.reader id) = doing := put_doing_self _ _ _
  have others : ∀ thread, thread ≠ .reader id → after.doing thread = broker.doing thread :=
    fun thread different => put_doing_of_ne different _ _
  have gaps : ∀ other, (after.client other).gaps = (broker.client other).gaps := by
    rw [after_eq, put_client]
    exact modify_keeps Client.gaps broker id same_gaps
  have told : ∀ other, (after.client other).told = (broker.client other).told := by
    rw [after_eq, put_client]
    exact modify_keeps Client.told broker id same_told
  have clients : ∀ other, other ≠ id → after.client other = broker.client other := by
    intro other different
    simp [after_eq, modify_client_of_ne different]
  refine ⟨gapped.attached, gapped.unstarted_put started, ?_, ?_, ?_, ?_⟩
  · intro other receives
    rw [receiving_eq, others _ (by simp), ← receiving_eq] at receives
    rw [gaps, told]
    refine (gapped.told other receives).imp (fun told => told) ?_
    rintro ⟨allowed, denied, answering⟩
    refine ⟨allowed, denied, ?_⟩
    rw [others]
    · exact answering
    · rintro self
      exact answers _ _ _ (self ▸ answering)
  · intro other _
    exact Or.inr (Or.inr ⟨.reader id, Or.inl (by rw [reader]; exact all other)⟩)
  · intro other none_
    by_cases self : other = id
    · exact Or.inr (by rw [self, reader]; exact records)
    · rw [clients other self] at none_ ⊢
      rw [others _ (by simpa using self)]
      exact gapped.empty other none_
  · intro other
    by_cases self : other = id
    · rw [self, reader]
      exact own after
    · rw [others _ (by simpa using self)]
      have kept := gapped.own other
      unfold ownList at kept ⊢
      rw [clients other self]
      exact kept

/-- A subscription records the gaps it is to tell. -/
theorem record (gapped : broker.Gapped) {allowed : List PathBuf} {denied : List Denied}
    {list : List Gap} (doing : broker.doing (.reader id) = .noting allowed denied list) :
    ((broker.modify id fun client => { client with gaps := list }).put (.reader id)
      (.answering allowed denied list)).Gapped := by
  have own := gapped.own id
  rw [doing] at own
  set after := (broker.modify id fun client => { client with gaps := list }).put (.reader id)
    (.answering allowed denied list) with after_eq
  have reader : after.doing (.reader id) = .answering allowed denied list := put_doing_self _ _ _
  have others : ∀ thread, thread ≠ .reader id → after.doing thread = broker.doing thread :=
    fun thread different => put_doing_of_ne different _ _
  have roots : ∀ other, (after.client other).roots = (broker.client other).roots := by
    rw [after_eq, put_client]
    exact modify_keeps Client.roots broker id rfl
  have self_gaps : (after.client id).gaps = list := by simp [after_eq]
  have clients : ∀ other, other ≠ id → after.client other = broker.client other := by
    intro other different
    simp [after_eq, modify_client_of_ne different]
  refine ⟨gapped.attached, gapped.unstarted_put (by simp [doing]), ?_, ?_, ?_, ?_⟩
  · intro other receives
    by_cases self : other = id
    · subst self
      exact Or.inr ⟨allowed, denied, by rw [reader, self_gaps]⟩
    · rw [receiving_eq, others _ (by simp), ← receiving_eq] at receives
      rw [clients other self, others _ (by simpa using self)]
      exact gapped.told other receives
  · intro other _
    exact Or.inr (Or.inr ⟨.reader id, Or.inl (by rw [reader]; rfl)⟩)
  · intro other none_
    rw [roots] at none_
    by_cases self : other = id
    · subst self
      exact Or.inl (self_gaps.trans (own none_))
    · rw [clients other self, others _ (by simpa using self)]
      exact gapped.empty other none_
  · intro other
    by_cases self : other = id
    · subst self
      rw [reader]
      trivial
    · rw [others _ (by simpa using self)]
      have kept := gapped.own other
      unfold ownList at kept ⊢
      rw [roots]
      exact kept

/-- A subscription is answered. -/
theorem answer (gapped : broker.Gapped) {allowed : List PathBuf} {denied : List Denied}
    {list : List Gap} {said : Answer}
    (doing : broker.doing (.reader id) = .answering allowed denied list)
    (announces : broker.Announces (.advance (.reader id) said)) :
    ((broker.answerWith id allowed denied list).put (.reader id) (.announcing false)).Gapped := by
  simp only [Announces, doing] at announces
  set after := (broker.answerWith id allowed denied list).put (.reader id) (.announcing false)
    with after_eq
  have same : (broker.answerWith id allowed denied list).doing = broker.doing := by
    unfold answerWith
    cases broker.trySend id <;> rfl
  have registry : after.clients = broker.clients ∧ after.nextId = broker.nextId := by
    simp only [after_eq, put_clients, put_nextId, answerWith]
    cases broker.trySend id <;> exact ⟨rfl, rfl⟩
  have reader : after.doing (.reader id) = .announcing false := put_doing_self _ _ _
  have others : ∀ thread, thread ≠ .reader id → after.doing thread = broker.doing thread := by
    intro thread different
    rw [after_eq, put_doing_of_ne different, same]
  have kept : ∀ other, (after.client other).roots = (broker.client other).roots ∧
      (after.client other).gaps = (broker.client other).gaps ∧
      (∀ told ∈ (broker.client other).told, told ∈ (after.client other).told) := by
    intro other
    simp only [after_eq, put_client, answerWith]
    cases broker.trySend id with
    | accepted | full =>
        by_cases self : other = id
        · subst self
          simp +contextual [Broker.enqueue, Broker.lose]
        · simp [Broker.enqueue, Broker.lose, modify_client_of_ne self]
    | disconnected => simp
  have answered : broker.receiving id = true → list ∈ (after.client id).told := by
    intro receives
    simp only [after_eq, put_client, answerWith]
    cases came : broker.trySend id with
    | accepted => simp
    | full => simpa [Broker.lose] using (announces id rfl came).2.2
    | disconnected =>
        rw [trySend_disconnected came] at receives
        cases receives
  refine ⟨?_, ?_, ?_, ?_, ?_, ?_⟩
  · rw [registry.1, registry.2]
    exact gapped.attached
  · rw [registry.2]
    intro thread other client unattached
    by_cases self : thread = .reader id
    · have gone := gapped.unstarted thread other client unattached
      rw [self, doing] at gone
      cases gone
    · rw [others thread self]
      exact gapped.unstarted thread other client unattached
  · intro other receives
    rw [receiving_eq, others _ (by simp), ← receiving_eq] at receives
    rw [(kept other).2.1]
    rcases gapped.told other receives with told | ⟨other_allowed, other_denied, answering⟩
    · exact Or.inl ((kept other).2.2 _ told)
    · by_cases self : other = id
      · subst self
        rw [doing] at answering
        obtain ⟨_, _, list_eq⟩ := Doing.answering.inj answering
        exact Or.inl (list_eq ▸ answered receives)
      · exact Or.inr ⟨other_allowed, other_denied, by
          rw [others _ (by simpa using self)]
          exact answering⟩
  · intro other _
    exact Or.inr (Or.inr ⟨.reader id, Or.inl (by rw [reader]; rfl)⟩)
  · intro other none_
    rw [(kept other).1] at none_
    rw [(kept other).2.1]
    refine (gapped.empty other none_).imp (fun nothing => nothing) fun recorded => ?_
    by_cases self : other = id
    · subst self
      rw [doing] at recorded
      cases recorded
    · rwa [others _ (by simpa using self)]
  · intro other
    by_cases self : other = id
    · subst self
      rw [reader]
      trivial
    · rw [others _ (by simpa using self)]
      have own := gapped.own other
      unfold ownList at own ⊢
      rw [(kept other).1]
      exact own

/-- A subscription goes on. -/
theorem apply (gapped : broker.Gapped) {said : Answer}
    (announces : broker.Announces (.advance (.reader id) said))
    (step : broker.apply (.reader id) id (broker.doing (.reader id)) = some after) :
    after.Gapped := by
  cases doing : broker.doing (.reader id) with
  | storing allowed denied =>
      simp only [doing, Broker.apply, Option.some.injEq] at step
      rw [← step]
      apply gapped.store rfl rfl <;> simp [doing, awaits, recording, ownList]
  | locking allowed denied =>
      simp only [doing, Broker.apply] at step
      split at step
      · rw [← Option.some.inj step]
        have locked : (broker.put (.reader id)
            (.reading (.subscribe allowed denied) broker.clients [])).Gapped := by
          apply gapped.await <;> simp [doing, takes, awaits, recording, ownList]
        exact locked.frame (some (.reader id)) _
      · cases step
  | refusing allowed denied =>
      simp only [doing, Broker.apply, Option.some.injEq] at step
      rw [← step]
      apply gapped.store rfl rfl <;> simp [doing, awaits, recording, ownList]
  | noting allowed denied list =>
      simp only [doing, Broker.apply, Option.some.injEq] at step
      rw [← step]
      exact gapped.record doing
  | answering allowed denied list =>
      simp only [doing, Broker.apply, Option.some.injEq] at step
      rw [← step]
      exact gapped.answer doing announces
  | closing =>
      simp only [doing, Broker.apply, Option.some.injEq] at step
      rw [← step]
      cases broker.trySend id with
      | accepted =>
          apply (gapped.enqueue id _).go <;>
            simp [doing, takes, recording, Owes, awaits, reads, ownList]
      | full | disconnected =>
          apply gapped.go <;> simp [doing, takes, recording, Owes, awaits, reads, ownList]
  | _ => simp [Broker.apply, doing] at step

/-- A subscriber changes in its list of gaps and what is recorded of it. -/
theorem renote (gapped : broker.Gapped) (id : Nat) {change : Client → Client}
    (roots : (change (broker.client id)).roots = (broker.client id).roots)
    (peer : (change (broker.client id)).peer = (broker.client id).peer)
    (told : ((change (broker.client id)).gaps = (broker.client id).gaps ∧
        (change (broker.client id)).told = (broker.client id).told) ∨
      (change (broker.client id)).gaps ∈ (change (broker.client id)).told)
    (settled : (change (broker.client id)).gaps = broker.current id ∨
      (change (broker.client id)).untold = true ∨
      ((change (broker.client id)).gaps = (broker.client id).gaps ∧
        (change (broker.client id)).untold = (broker.client id).untold))
    (empty : (change (broker.client id)).gaps = broker.current id ∨
      (change (broker.client id)).gaps = (broker.client id).gaps) :
    (broker.modify id change).Gapped := by
  have same_roots := modify_keeps Client.roots broker id roots
  have same_peer := modify_keeps Client.peer broker id peer
  have current_same : ∀ other, (broker.modify id change).current other = broker.current other := by
    intro other
    simp [current, same_roots, same_peer]
  have reads_same : ∀ doing other, (broker.modify id change).reads doing other ↔
      broker.reads doing other := by
    intro doing other
    unfold reads
    split <;> simp [same_roots, current_same]
  have owes_same : ∀ other, (∃ thread, broker.Owes thread other) →
      ∃ thread, (broker.modify id change).Owes thread other := by
    rintro other ⟨thread, owed⟩
    exact ⟨thread, owed.imp (fun awaiting => awaiting) (reads_same _ _).mpr⟩
  refine ⟨gapped.attached, gapped.unstarted, ?_, ?_, ?_, ?_⟩
  · intro other receives
    by_cases self : other = id
    · subst self
      rw [modify_client_self]
      rcases told with ⟨gaps_same, told_same⟩ | was_told
      · rw [gaps_same, told_same]
        exact gapped.told other receives
      · exact Or.inl was_told
    · rw [modify_client_of_ne self]
      exact gapped.told other receives
  · intro other connected
    rw [current_same]
    by_cases self : other = id
    · subst self
      rw [modify_client_self]
      rcases settled with is_current | untold | ⟨gaps_same, untold_same⟩
      · exact Or.inl is_current
      · exact Or.inr (Or.inl untold)
      · rw [gaps_same, untold_same]
        exact (gapped.upToDate other connected).imp (fun same => same)
          (Or.imp (fun untold => untold) (owes_same other))
    · rw [modify_client_of_ne self]
      exact (gapped.upToDate other connected).imp (fun same => same)
        (Or.imp (fun untold => untold) (owes_same other))
  · intro other none_
    rw [same_roots] at none_
    by_cases self : other = id
    · subst self
      rw [modify_client_self]
      rcases empty with is_current | same
      · exact Or.inl (is_current.trans (current_of_no_roots none_))
      · rw [same]
        exact gapped.empty other none_
    · rw [modify_client_of_ne self]
      exact gapped.empty other none_
  · intro other
    have own := gapped.own other
    unfold ownList at own ⊢
    rw [same_roots]
    exact own

/-- A round of announcements goes on past a subscriber whose list is settled. -/
theorem settle (gapped : broker.Gapped) {list : List Gap} {round : Round} {next : Doing}
    (doing : broker.doing thread = .comparing id list round)
    (goes : next = .visiting round ∨ next = .flagging id (.gaps round))
    (settled : list = broker.current id →
      (broker.client id).gaps = broker.current id ∨ (broker.client id).untold = true) :
    (broker.put thread next).Gapped := by
  apply gapped.put next
  · simp [doing]
  · rcases goes with rfl | rfl <;> simp [takes]
  · simp [doing]
  · intro other _ owed
    simp only [Owes, doing, awaits, reads, decide_eq_true_eq] at owed
    rcases owed with later | ⟨rfl, is_current⟩
    · left
      left
      rcases goes with rfl | rfl <;> simpa [awaits] using later
    · exact Or.inr ((settled is_current).imp (fun same => same) Or.inl)
  · simp [doing, recording]
  · intro other _
    rcases goes with rfl | rfl <;> simp [ownList]

/-- A list is compared with the one last sent, and recorded only as it is sent. -/
theorem announce (gapped : broker.Gapped) {list : List Gap} {round : Round} {said : Answer}
    (doing : broker.doing thread = .comparing id list round)
    (announces : broker.Announces (.advance thread said)) :
    (broker.announce thread id list round).Gapped := by
  simp only [Announces, doing] at announces
  unfold Broker.announce
  split
  next same_list =>
    have noted : (broker.modify id fun client =>
        { client with untold := client.untold && list ≠ broker.current id }).Gapped := by
      apply gapped.renote id rfl rfl (Or.inl ⟨rfl, rfl⟩) _ (Or.inr rfl)
      by_cases is_current : list = broker.current id
      · exact Or.inl (same_list.trans is_current)
      · exact Or.inr (Or.inr ⟨rfl, by simp [is_current]⟩)
    apply noted.settle doing (Or.inl rfl)
    intro is_current
    left
    simpa [current] using same_list.trans is_current
  next changed =>
    have untold : ∀ between : Broker, between.Gapped → between.doing = broker.doing →
        ((between.modify id fun client => { client with untold := true }).put thread
          (.flagging id (.gaps round))).Gapped := by
      intro between between_gapped same
      have noted : (between.modify id fun client => { client with untold := true }).Gapped :=
        between_gapped.renote id rfl rfl (Or.inl ⟨rfl, rfl⟩) (Or.inr (Or.inl rfl)) (Or.inr rfl)
      have still : between.doing thread = .comparing id list round := by rw [same, doing]
      exact noted.settle still (Or.inr rfl) fun _ => Or.inr (by simp)
    cases came : broker.trySend id with
    | accepted =>
        have is_current := (announces changed).2 came
        have queued := gapped.enqueue id (.msg (.gaps list))
        have same : (broker.enqueue id (.msg (.gaps list))).current id = broker.current id := by
          simp [current, Broker.enqueue]
        have noted : ((broker.enqueue id (.msg (.gaps list))).modify id fun client =>
            { client with gaps := list, told := list :: client.told, untold := false }).Gapped :=
          queued.renote id rfl rfl (Or.inr List.mem_cons_self) (Or.inl (is_current.trans same.symm))
            (Or.inl (is_current.trans same.symm))
        apply noted.settle doing (Or.inl rfl)
        intro current_now
        left
        rw [← current_now]
        simp
    | full => exact untold _ (gapped.lose id) rfl
    | disconnected => exact untold _ gapped rfl

/-- What the source covers changes, and a thread is to tell every subscriber its list. -/
theorem regap (gapped : broker.Gapped) (source : List PathBuf) (all_gaps : List Gap)
    (doing : Doing) (started : broker.doing thread ≠ .gone) (works : takes doing = false)
    (answers : ∀ allowed denied gaps, broker.doing thread ≠ .answering allowed denied gaps)
    (all : ∀ id, awaits doing id = true)
    (records : recording (broker.doing thread) = true → recording doing = true)
    (own : ∀ id, broker.ownList id doing) :
    Gapped { broker.put thread doing with source := source, sourceGaps := all_gaps } := by
  have put := gapped.await doing started works answers all records fun id _ => own id
  refine ⟨put.attached, put.unstarted, put.told, ?_, put.empty, put.own⟩
  intro id _
  exact Or.inr (Or.inr ⟨thread, Or.inl (by rw [put_doing_self]; exact all id)⟩)

/-- A thread that owes a list while it makes it owes it as long as what it has read stands. -/
theorem share (gapped : broker.Gapped) {said : Answer}
    (announces : broker.Announces (.advance thread said))
    (step : broker.share thread said (broker.doing thread) = some after) : after.Gapped := by
  have own := gapped.own
  cases doing : broker.doing thread with
  | reading caller left union =>
      cases left with
      | nil =>
          simp only [doing, Broker.share, Option.some.injEq] at step
          rw [← step]
          have given : (broker.put thread (.giving caller union)).Gapped := by
            cases caller <;> apply gapped.await <;> simp [doing, takes, awaits, recording, ownList]
          exact given.frame none _
      | cons other left =>
          simp only [doing, Broker.share, Option.some.injEq] at step
          rw [← step]
          cases caller <;> apply gapped.await <;> simp [doing, takes, awaits, recording, ownList]
  | giving caller union =>
      simp only [doing, Broker.share, Option.some.injEq] at step
      rw [← step]
      cases caller with
      | drop => apply gapped.regap <;> simp [given, doing, takes, awaits, recording, ownList]
      | subscribe allowed denied =>
          by_cases mine : (said.uncovered.filter fun refused => refused.root ∈ allowed) = []
          · apply gapped.regap <;> simp [given, mine, doing, takes, awaits, recording, ownList]
          · apply gapped.regap <;> simp [given, mine, doing, takes, awaits, recording, ownList]
  | listing job =>
      simp only [doing, Broker.share, Option.bind_eq_bind, Option.bind_eq_some_iff,
        Option.some.injEq] at step
      obtain ⟨id, of_job, rfl⟩ := step
      cases job with
      | answer allowed denied =>
          refine gapped.await _ (by simp [doing]) rfl (by simp [doing]) (by simp [awaits])
            (by simp [recording]) ?_
          rintro other rfl
          simp only [Job.id, Thread.client, Option.some.injEq] at of_job
          simp [ownList, of_job]
      | announce other round =>
          obtain rfl := Option.some.inj of_job
          apply gapped.put <;> simp [doing, takes, recording, ownList]
          intro met _ owed
          simp only [Owes, doing, awaits, reads, Bool.or_eq_true, decide_eq_true_eq,
            or_false] at owed
          rcases owed with rfl | later
          · exact Or.inl (Or.inr ⟨rfl, rfl⟩)
          · exact Or.inl (Or.inl (by simpa [awaits] using later))
  | asking job roots =>
      simp only [doing, Broker.share, Option.some.injEq] at step
      rw [← step]
      cases job with
      | answer allowed denied =>
          refine gapped.await _ (by simp [doing]) rfl (by simp [doing]) (by simp [awaits])
            (by simp [recording]) ?_
          rintro other rfl
          have read := own other
          rw [doing] at read
          exact read
      | announce other round =>
          apply gapped.put <;> simp [doing, takes, recording, ownList]
          intro met _ owed
          simp only [Owes, doing, awaits, reads, decide_eq_true_eq] at owed
          rcases owed with later | ⟨rfl, read⟩
          · exact Or.inl (Or.inl (by simpa [awaits] using later))
          · exact Or.inl (Or.inr ⟨rfl, read, rfl⟩)
  | sifting job roots all =>
      simp only [doing, Broker.share, Option.bind_eq_bind, Option.bind_eq_some_iff,
        Option.some.injEq] at step
      obtain ⟨id, of_job, rfl⟩ := step
      cases job with
      | answer allowed denied =>
          refine gapped.await _ (by simp [doing]) rfl (by simp [doing]) (by simp [awaits])
            (by simp [recording]) ?_
          rintro other rfl none_
          have read := own other
          rw [doing] at read
          rw [show roots = [] from read.trans none_]
          simp [sift]
      | announce other round =>
          obtain rfl := Option.some.inj of_job
          apply gapped.put <;> simp [doing, takes, recording, ownList]
          intro met _ owed
          simp only [Owes, doing, awaits, reads, decide_eq_true_eq] at owed
          rcases owed with later | ⟨rfl, read, read_all⟩
          · exact Or.inl (Or.inl (by simpa [awaits] using later))
          · exact Or.inl (Or.inr ⟨rfl, by rw [read, read_all]; rfl⟩)
  | announcing ends =>
      simp only [doing, Broker.share] at step
      split at step
      · rw [← Option.some.inj step]
        apply gapped.put <;> simp [doing, takes, recording, ownList]
        exact fun other connected _ => Or.inl (Or.inl (by simpa [awaits] using connected))
      · cases step
  | visiting round =>
      obtain ⟨ends, left⟩ := round
      cases left with
      | nil =>
          simp only [doing, Broker.share, Option.some.injEq] at step
          rw [← step]
          cases ends <;> apply gapped.go <;>
            simp [doing, takes, recording, Owes, awaits, reads, ownList]
      | cons other left =>
          simp only [doing, Broker.share, Option.some.injEq] at step
          rw [← step]
          by_cases none_ : (broker.client other).roots = []
          · rw [if_pos none_]
            apply gapped.put <;> simp [doing, takes, recording, ownList]
            intro met _ owed
            simp only [Owes, doing, awaits, reads, List.mem_cons, decide_eq_true_eq,
              or_false] at owed
            rcases owed with rfl | later
            · -- No roots, no gaps: an older list is about to be recorded anew by its own reader.
              rcases gapped.empty met none_ with nothing | recorded
              · exact Or.inr (Or.inl (nothing.trans (current_of_no_roots none_).symm))
              · refine Or.inr (Or.inr (Or.inr ⟨.reader met, ?_, ?_⟩))
                · rintro self
                  rw [self, doing] at recorded
                  cases recorded
                · left
                  revert recorded
                  cases broker.doing (.reader met) with
                  | listing job | asking job | sifting job => cases job <;> simp [recording, awaits]
                  | _ => simp [recording, awaits]
            · exact Or.inl (Or.inl (by simpa [awaits] using later))
          · rw [if_neg none_]
            apply gapped.put <;> simp [doing, takes, recording, ownList]
            intro met _ owed
            simp only [Owes, doing, awaits, reads, List.mem_cons, decide_eq_true_eq,
              or_false] at owed
            exact Or.inl (Or.inl (by simpa [awaits] using owed))
  | comparing other list round =>
      simp only [doing, Broker.share, Option.some.injEq] at step
      rw [← step]
      exact gapped.announce doing announces
  | flagging other next =>
      simp only [doing, Broker.share, Option.some.injEq] at step
      rw [← step]
      have raised : (broker.modify other fun client => { client with overflow := true }).Gapped :=
        gapped.note other rfl
      cases next with
      | gaps round =>
          apply raised.put <;> simp [resume, doing, takes, recording, ownList]
          intro met _ owed
          simp only [Owes, modify_doing, doing, awaits, reads, decide_eq_true_eq, or_false] at owed
          exact Or.inl (Or.inl (by simpa [awaits] using owed))
      | event event left =>
          apply raised.go <;>
            simp [resume, doing, takes, recording, Owes, awaits, reads, ownList]
  | _ => simp [Broker.share, doing] at step

theorem fail (gapped : broker.Gapped) (id : Nat) (message : String) :
    (broker.fail id message).Gapped := by
  unfold Broker.fail
  cases broker.trySend id with
  | accepted => exact gapped.enqueue id _
  | full => exact gapped.lose id
  | disconnected => exact gapped

/-- A subscriber connects, with no roots and no gaps. -/
theorem attach (gapped : broker.Gapped) (peer : Subscriber) :
    Gapped { ((broker.modify broker.nextId fun _ => Client.attached peer).put
        (.reader broker.nextId) .idle).put (.writer broker.nextId) .waiting with
      clients := broker.clients ++ [broker.nextId]
      nextId := broker.nextId + 1 } := by
  set after : Broker := { ((broker.modify broker.nextId fun _ => Client.attached peer).put
        (.reader broker.nextId) .idle).put (.writer broker.nextId) .waiting with
      clients := broker.clients ++ [broker.nextId]
      nextId := broker.nextId + 1 } with after_eq
  have new_client : after.client broker.nextId = Client.attached peer := by simp [after_eq]
  have old_client : ∀ id, id ≠ broker.nextId → after.client id = broker.client id := by
    intro id different
    simp [after_eq, modify_client_of_ne different]
  have reader : after.doing (.reader broker.nextId) = .idle := by
    simp only [after_eq]
    rw [put_doing_of_ne (by simp), put_doing_self]
  have old_doing : ∀ thread, thread.client ≠ some broker.nextId →
      after.doing thread = broker.doing thread := by
    intro thread different
    simp only [after_eq]
    rw [put_doing_of_ne (by rintro rfl; exact different rfl),
      put_doing_of_ne (by rintro rfl; exact different rfl)]
    rfl
  have old_thread : ∀ id, id ≠ broker.nextId →
      after.doing (.reader id) = broker.doing (.reader id) ∧
        after.doing (.writer id) = broker.doing (.writer id) := fun id different =>
    ⟨old_doing _ fun same => different (Option.some.inj same),
      old_doing _ fun same => different (Option.some.inj same)⟩
  have old_owes : ∀ id, id ≠ broker.nextId → ∀ thread, broker.Owes thread id →
      after.Owes thread id := by
    intro id different thread owed
    have there : thread.client ≠ some broker.nextId := by
      intro client
      rw [Owes, gapped.unstarted thread _ client le_rfl] at owed
      simp [awaits, reads] at owed
    have current_same : after.current id = broker.current id := by
      simp only [current, old_client id different]
      rfl
    unfold Owes at owed ⊢
    rw [old_doing thread there]
    refine owed.imp (fun awaiting => awaiting) ?_
    cases broker.doing thread with
    | asking job roots | sifting job roots all =>
        cases job <;> simp only [reads, old_client id different] <;> exact fun read => read
    | comparing other list round =>
        simp only [reads, current_same]
        exact fun read => read
    | _ => exact fun read => read
  refine ⟨?_, ?_, ?_, ?_, ?_, ?_⟩
  · intro id connected
    rcases List.mem_append.mp connected with old | new
    · exact Nat.lt_succ_of_lt (gapped.attached id old)
    · rw [List.mem_singleton.mp new]
      exact Nat.lt_succ_self _
  · intro thread id client unattached
    have beyond : broker.nextId < id := unattached
    rw [old_doing thread (by rw [client]; simp; omega)]
    exact gapped.unstarted thread id client beyond.le
  · intro id receives
    by_cases self : id = broker.nextId
    · rw [self, new_client]
      exact Or.inl (by simp [Client.attached])
    · rw [receiving_eq, (old_thread id self).2, ← receiving_eq] at receives
      rw [old_client id self, (old_thread id self).1]
      exact gapped.told id receives
  · intro id connected
    by_cases self : id = broker.nextId
    · subst self
      left
      rw [current_of_no_roots (by rw [new_client]; rfl), new_client]
      rfl
    · have old := (List.mem_append.mp connected).resolve_right fun new =>
        self (List.mem_singleton.mp new)
      have current_same : after.current id = broker.current id := by
        simp only [current, old_client id self]
        rfl
      rw [old_client id self, current_same]
      refine (gapped.upToDate id old).imp (fun same => same) (Or.imp (fun untold => untold) ?_)
      rintro ⟨thread, owed⟩
      exact ⟨thread, old_owes id self thread owed⟩
  · intro id none_
    by_cases self : id = broker.nextId
    · rw [self, new_client]
      exact Or.inl rfl
    · rw [old_client id self] at none_ ⊢
      rw [(old_thread id self).1]
      exact gapped.empty id none_
  · intro id
    by_cases self : id = broker.nextId
    · rw [self, reader]
      trivial
    · rw [(old_thread id self).1]
      have own := gapped.own id
      unfold ownList at own ⊢
      rw [old_client id self]
      exact own

/-- What may be seen changes where no list does, or where one is still to be made. -/
theorem permit (gapped : broker.Gapped) {sees : Subscriber → PathBuf → PathBuf → Bool}
    (announces : broker.Announces (.permissions sees)) :
    Gapped { broker with sees := sees } := by
  simp only [Announces] at announces
  refine ⟨gapped.attached, gapped.unstarted, gapped.told, ?_, gapped.empty, gapped.own⟩
  intro id connected
  rcases announces id connected with same | ⟨thread, awaiting⟩
  · rw [same]
    refine (gapped.upToDate id connected).imp (fun settled => settled)
      (Or.imp (fun untold => untold) ?_)
    rintro ⟨thread, owed⟩
    refine ⟨thread, owed.imp (fun awaiting => awaiting) ?_⟩
    change broker.reads (broker.doing thread) id →
      reads { broker with sees := sees } (broker.doing thread) id
    cases broker.doing thread with
    | comparing other list round =>
        rintro ⟨rfl, is_current⟩
        exact ⟨rfl, is_current.trans same.symm⟩
    | asking job roots | sifting job roots all => cases job <;> exact fun read => read
    | _ => exact fun read => read
  · exact Or.inr (Or.inr ⟨thread, Or.inl awaiting⟩)

/-- Every step that keeps to the condition keeps the lists of gaps told. -/
theorem step (gapped : broker.Gapped) {action : Action} (announces : broker.Announces action)
    (stepped : broker.step action = some after) : after.Gapped := by
  cases action with
  | attach peer =>
      simp only [Broker.step] at stepped
      split at stepped
      · rw [← Option.some.inj stepped]
        exact gapped.attach peer
      · cases stepped
  | subscribe id roots canonical =>
      simp only [Broker.step] at stepped
      split at stepped
      next idle =>
        rw [← Option.some.inj stepped]
        apply gapped.go <;> simp [idle, takes, recording, Owes, awaits, reads, ownList]
      · cases stepped
  | unparsable id error =>
      simp only [Broker.step] at stepped
      split at stepped
      · rw [← Option.some.inj stepped]
        exact gapped.fail id _
      · cases stepped
  | tooLong id =>
      simp only [Broker.step] at stepped
      split at stepped
      next idle =>
        rw [← Option.some.inj stepped]
        apply (gapped.fail id _).go <;>
          simp [Covered.fail_doing, idle, takes, recording, Owes, awaits, reads, ownList]
      · cases stepped
  | hangUp id =>
      simp only [Broker.step] at stepped
      split at stepped
      next idle =>
        rw [← Option.some.inj stepped]
        apply gapped.go <;> simp [idle, takes, recording, Owes, awaits, reads, ownList]
      · cases stepped
  | event index event =>
      simp only [Broker.step] at stepped
      split at stepped
      next idle =>
        rw [← Option.some.inj stepped]
        have began : (broker.put (.service index) (.broadcasting event broker.clients)).Gapped := by
          apply gapped.go <;> simp [idle.1, takes, recording, Owes, awaits, reads, ownList]
        exact began.frame (some (.service index)) _
      · cases stepped
  | kernelOverflow index =>
      simp only [Broker.step] at stepped
      split at stepped
      next idle =>
        rw [← Option.some.inj stepped]
        have began : (broker.put (.service index) (.overflowing broker.clients)).Gapped := by
          apply gapped.go <;> simp [idle.1, takes, recording, Owes, awaits, reads, ownList]
        exact began.frame (some (.service index)) _
      · cases stepped
  | remark index gaps =>
      simp only [Broker.step] at stepped
      split at stepped
      next idle =>
        rw [← Option.some.inj stepped]
        apply gapped.regap broker.source gaps <;> simp [idle, takes, recording, awaits, ownList]
      · cases stepped
  | permissions sees =>
      simp only [Broker.step, Option.some.injEq] at stepped
      rw [← stepped]
      exact gapped.permit announces
  | advance thread answer =>
      rcases advance_cases stepped with ⟨id, rfl, wrote⟩ | ⟨id, rfl, applied⟩ |
        ⟨id, _, left⟩ | ⟨index, rfl, delivered⟩ | shared
      · exact gapped.write wrote
      · exact gapped.apply announces applied
      · exact gapped.leave left
      · exact gapped.deliver delivered
      · exact gapped.share announces shared

theorem run (gapped : broker.Gapped) (ran : Run Announces broker after) : after.Gapped := by
  induction ran with
  | refl => exact gapped
  | tail _ stepped ih =>
      obtain ⟨action, announces, stepped⟩ := stepped
      exact ih.step announces stepped

end Gapped

/-- A check that is enough for losses to be announced: a full queue is met by events alone, and the
writer looks at the flag with it up or with more to come. -/
def announcesPlainly (broker : Broker) : Action → Bool
  | .unparsable _ _ | .tooLong _ | .permissions _ => false
  | .advance thread _ =>
      match broker.doing thread, thread with
      | .holding _, .writer id => (broker.client id).overflow || (broker.client id).queue ≠ []
      | .sending _ _ id _, _ | .waking id _, _ => (broker.client id).queue ≠ []
      | .comparing id gaps _, _ => (broker.client id).gaps = gaps
      | .answering _ _ _, .reader id => broker.trySend id ≠ .full
      | _, _ => true
  | _ => true

theorem announces_of_plainly (broker : Broker) (action : Action)
    (plain : broker.announcesPlainly action = true) : broker.Announces action := by
  cases action with
  | unparsable | tooLong | permissions => cases plain
  | advance thread answer =>
      simp only [announcesPlainly] at plain
      simp only [Announces]
      cases doing : broker.doing thread with
      | holding item =>
          simp only
          rintro id rfl
          simp only [doing, Bool.or_eq_true, decide_eq_true_eq] at plain
          exact plain.imp (fun flag => flag) Or.inl
      | sending sent event id left | waking id left =>
          simp only [doing, decide_eq_true_eq] at plain
          exact fun _ => Or.inl plain
      | comparing id gaps round =>
          simp only [doing, decide_eq_true_eq] at plain
          exact fun changed => absurd plain changed
      | answering allowed denied gaps =>
          simp only
          rintro id rfl full
          simp [doing, full] at plain
      | _ => exact trivial
  | _ => exact trivial

/-- A subscriber of the root `/a`, answered, and an event under it, broadcast until it is queued or
refused. -/
def subscribedTo : List Action :=
  .attach ⟨1000, 100, [100]⟩ :: subscribing 1 (top 97) 1 ++ subscribed 1 ++
    List.replicate 7 (on (.reader 1))

def broadcasts : List Action :=
  .event 0 (.create [.rootDir, .normal [97], .normal [98]]) :: List.replicate 3 (on (.service 0))

end Broker
end Watchd
end Metafolder
