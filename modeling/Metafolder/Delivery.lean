import Metafolder.Coverage

/-!
# Delivery

A message dropped for a subscriber is announced to it: the thread that finds the queue full raises
a flag, and the writer that takes an item writes the overflow first.  So it is in runs in which no
writer takes the last item between a refused message and its flag.
-/

namespace Metafolder
namespace Watchd
namespace Broker

variable {broker after : Broker} {thread : Thread} {id : Nat}

/-- The writer has an item before it for which it will look at the flag. -/
def Coming (broker : Broker) (id : Nat) : Prop :=
  (broker.client id).queue ≠ [] ∨ ∃ item, broker.doing (.writer id) = .holding item

/-- A message was dropped, and the writer waits before an empty queue with no overflow written
since. -/
def Silent (broker : Broker) (id : Nat) : Prop :=
  (broker.client id).lost = true ∧ (broker.client id).queue = [] ∧
    broker.doing (.writer id) = .waiting

/-- An overflow is still to be written: its flag is up or about to be, with an item to come, or it
is being written.  A writer that has ended owes nothing. -/
def Owed (broker : Broker) (id : Nat) : Prop :=
  ((broker.client id).overflow = true ∧ broker.Coming id) ∨
  (∃ pending, broker.doing (.writer id) = .marking pending) ∨
  (broker.Coming id ∧ ∃ thread next, broker.doing thread = .flagging id next) ∨
  broker.receiving id = false

/-- A thread on its way to a round of announcements, or in one, that has still to make the list of
gaps of a subscriber. -/
def awaits (doing : Doing) (id : Nat) : Bool :=
  match doing with
  | .locking _ _ | .reading _ _ _ | .giving _ _ | .refusing _ _ | .noting _ _ _
  | .answering _ _ _ | .announcing _ | .listing (.answer _ _) | .asking (.answer _ _) _
  | .sifting (.answer _ _) _ _ => true
  | .visiting round | .comparing _ _ round | .flagging _ (.gaps round)
  | .asking (.announce _ round) _ | .sifting (.announce _ round) _ _ => id ∈ round.left
  | .listing (.announce other round) => id = other || id ∈ round.left
  | _ => false

/-- No message is dropped but with an item to come, nor an answer but with the flag up and its gaps
told before; no writer takes the last item with the flag down while a thread is about to raise it;
a list of gaps is recorded only while it is the current one, and what may be seen changes only
where no list changes or one is still to be made. -/
def Announces (broker : Broker) : Action → Prop
  | .unparsable id _ | .tooLong id =>
      broker.trySend id = .full → (broker.client id).overflow = true ∧ broker.Coming id
  | .permissions sees =>
      ∀ id ∈ broker.clients, current { broker with sees := sees } id = broker.current id ∨
        ∃ thread, awaits (broker.doing thread) id = true
  | .advance thread _ =>
      match broker.doing thread with
      | .holding _ =>
          ∀ id, thread = .writer id → (broker.client id).overflow = true ∨
            (broker.client id).queue ≠ [] ∨ ∀ other next, broker.doing other ≠ .flagging id next
      | .sending _ _ id _ | .waking id _ => broker.trySend id = .full → broker.Coming id
      | .comparing id gaps _ =>
          (broker.client id).gaps ≠ gaps → (broker.trySend id = .full → broker.Coming id) ∧
            (broker.trySend id = .accepted → gaps = broker.current id)
      | .answering _ _ gaps =>
          ∀ id, thread = .reader id → broker.trySend id = .full →
            (broker.client id).overflow = true ∧ broker.Coming id ∧
              gaps ∈ (broker.client id).told
      | _ => True
  | _ => True

/-- Whether a writer that does this still takes items. -/
def takes : Doing → Bool
  | .waiting | .holding _ | .marking _ | .writing _ => true
  | _ => false

theorem receiving_eq (broker : Broker) (id : Nat) :
    broker.receiving id = takes (broker.doing (.writer id)) := by
  unfold receiving
  cases broker.doing (.writer id) <;> rfl

theorem trySend_disconnected (sent : broker.trySend id = .disconnected) :
    broker.receiving id = false := by
  unfold trySend at sent
  split at sent
  · split at sent <;> cases sent
  next departed => simpa using departed

theorem not_silent_of_owed (owed : broker.Owed id) : ¬ broker.Silent id := by
  rintro ⟨_, empty, waiting⟩
  have nothing : ¬ broker.Coming id := by
    rintro (queued | ⟨item, holding⟩)
    · exact queued empty
    · rw [waiting] at holding
      cases holding
  rcases owed with ⟨_, coming⟩ | ⟨pending, marking⟩ | ⟨coming, _⟩ | departed
  · exact nothing coming
  · rw [waiting] at marking
    cases marking
  · exact nothing coming
  · rw [receiving_eq, waiting] at departed
    cases departed

theorem coming_put (different : Thread.writer id ≠ thread) (broker : Broker) (doing : Doing) :
    (broker.put thread doing).Coming id ↔ broker.Coming id := by
  unfold Coming
  rw [put_doing_of_ne different, put_client]

/-- Every loss is to be announced. -/
structure Heard (broker : Broker) : Prop where
  attached : ∀ id ∈ broker.clients, id < broker.nextId
  unstarted : ∀ thread id, thread.client = some id → broker.nextId ≤ id →
    broker.doing thread = .gone
  heard : ∀ id, (broker.client id).lost = true → broker.Owed id

namespace Heard

theorem start (queueCap : Nat) (sees : Subscriber → PathBuf → PathBuf → Bool) :
    (Broker.start queueCap sees).Heard where
  attached := by simp [Broker.start]
  unstarted := by
    rintro (id | id | index) _ client _
    · rfl
    · rfl
    · cases client
  heard := by simp [Broker.start, Client.attached]

theorem unstarted_put (heard : broker.Heard) {doing : Doing}
    (started : broker.doing thread ≠ .gone) :
    ∀ other id, other.client = some id → broker.nextId ≤ id →
      (broker.put thread doing).doing other = .gone := by
  intro other id client unattached
  by_cases self : other = thread
  · exact absurd (heard.unstarted thread id (self ▸ client) unattached) started
  · rw [put_doing_of_ne self]
    exact heard.unstarted other id client unattached

/-- What is owed a subscriber stays owed when a thread goes on that is not its writer and raises
no flag for it. -/
theorem owed_put_of_ne {doing : Doing} (different : Thread.writer id ≠ thread)
    (no_flag : ∀ next, broker.doing thread ≠ .flagging id next) (owed : broker.Owed id) :
    (broker.put thread doing).Owed id := by
  have writer := put_doing_of_ne different broker doing
  have coming := (coming_put different broker doing).mpr
  rcases owed with ⟨flag, item⟩ | ⟨pending, marking⟩ | ⟨item, other, next, flagging⟩ | departed
  · exact Or.inl ⟨flag, coming item⟩
  · exact Or.inr (Or.inl ⟨pending, writer.trans marking⟩)
  · refine Or.inr (Or.inr (Or.inl ⟨coming item, other, next, ?_⟩))
    rw [put_doing_of_ne _ broker doing, flagging]
    rintro rfl
    exact no_flag next flagging
  · exact Or.inr (Or.inr (Or.inr (by rwa [receiving_eq, writer, ← receiving_eq])))

/-- What is owed stays owed when a thread that is no writer at work and raises no flag goes on. -/
theorem owed_put {doing : Doing} (idle' : takes doing = false)
    (no_flag : ∀ next, broker.doing thread ≠ .flagging id next) (owed : broker.Owed id) :
    (broker.put thread doing).Owed id := by
  by_cases self : Thread.writer id = thread
  · exact Or.inr (Or.inr (Or.inr (by rw [receiving_eq, self, put_doing_self, idle'])))
  · exact owed_put_of_ne self no_flag owed

/-- What is owed stays owed when a subscriber's queue grows and its flag is not lowered. -/
theorem owed_modify {other : Nat} {change : Client → Client}
    (queue : (broker.client other).queue ≠ [] → (change (broker.client other)).queue ≠ [])
    (flag : (broker.client other).overflow = true → (change (broker.client other)).overflow = true)
    (owed : broker.Owed id) : (broker.modify other change).Owed id := by
  have coming : broker.Coming id → (broker.modify other change).Coming id := by
    refine Or.imp ?_ fun holding => holding
    by_cases self : id = other
    · subst self
      rw [modify_client_self]
      exact queue
    · rw [modify_client_of_ne self]
      exact fun queued => queued
  refine Or.imp ?_ (Or.imp (fun marking => marking) (Or.imp ?_ fun departed => departed)) owed
  · rintro ⟨raised, item⟩
    refine ⟨?_, coming item⟩
    by_cases self : id = other
    · subst self
      rw [modify_client_self]
      exact flag raised
    · rwa [modify_client_of_ne self]
  · rintro ⟨item, flagging⟩
    exact ⟨coming item, flagging⟩

/-- A thread goes on that is no writer at work and raises no flag. -/
theorem put (heard : broker.Heard) (doing : Doing) (started : broker.doing thread ≠ .gone)
    (idle : takes doing = false)
    (no_flag : ∀ id next, broker.doing thread ≠ .flagging id next) :
    (broker.put thread doing).Heard :=
  ⟨heard.attached, heard.unstarted_put started,
    fun id lost => owed_put idle (no_flag id) (heard.heard id lost)⟩

/-- A subscriber changes, but in its queue, its flag and its losses only for the better. -/
theorem modify (heard : broker.Heard) (id : Nat) {change : Client → Client}
    (queue : (broker.client id).queue ≠ [] → (change (broker.client id)).queue ≠ [])
    (flag : (broker.client id).overflow = true → (change (broker.client id)).overflow = true)
    (lost : (change (broker.client id)).lost = true → (broker.client id).lost = true) :
    (broker.modify id change).Heard := by
  refine ⟨heard.attached, heard.unstarted, ?_⟩
  intro other other_lost
  apply owed_modify queue flag
  apply heard.heard
  by_cases self : other = id
  · subst self
    rw [modify_client_self] at other_lost
    exact lost other_lost
  · rwa [modify_client_of_ne self] at other_lost

/-- A message is dropped for which an overflow is to be written. -/
theorem lose (heard : broker.Heard) (owed : broker.Owed id) : (broker.lose id).Heard := by
  refine ⟨heard.attached, heard.unstarted, ?_⟩
  intro other other_lost
  refine owed_modify (fun queued => queued) (fun flag => flag) ?_
  by_cases self : other = id
  · exact self ▸ owed
  · rw [Broker.lose, modify_client_of_ne self] at other_lost
    exact heard.heard other other_lost

theorem enqueue (heard : broker.Heard) (id : Nat) (item : Out) :
    (broker.enqueue id item).Heard :=
  heard.modify id (fun _ => by simp) (fun flag => flag) fun lost => lost

theorem frame (heard : broker.Heard) (locked : Option Thread) (source : List PathBuf)
    (gaps : List Gap) (sees : Subscriber → PathBuf → PathBuf → Bool) :
    Heard { broker with
      locked := locked, source := source, sourceGaps := gaps, sees := sees } :=
  ⟨heard.attached, heard.unstarted, heard.heard⟩

/-- A message is refused, and the thread is about to raise the flag. -/
theorem refused (heard : broker.Heard) {next : Next} (started : broker.doing thread ≠ .gone)
    (idle : takes (broker.doing thread) = false)
    (no_flag : ∀ id next, broker.doing thread ≠ .flagging id next) (coming : broker.Coming id) :
    ((broker.lose id).put thread (.flagging id next)).Heard := by
  have flagged : (broker.put thread (.flagging id next)).Heard := heard.put _ started rfl no_flag
  refine flagged.lose (Or.inr (Or.inr (Or.inl ⟨?_, thread, next, put_doing_self _ _ _⟩)))
  by_cases own : Thread.writer id = thread
  · rcases coming with queued | ⟨item, holding⟩
    · exact Or.inl queued
    · rw [← own, holding] at idle
      cases idle
  · exact (coming_put own _ _).mpr coming

/-- The flag is raised. -/
theorem flag (heard : broker.Heard) {next : Next}
    (doing : broker.doing thread = .flagging id next) :
    ((broker.modify id fun client => { client with overflow := true }).put thread
      (resume next)).Heard := by
  have quiet : takes (resume next) = false := by cases next <;> rfl
  have raised : (broker.modify id fun client => { client with overflow := true }).Heard :=
    heard.modify id (fun queued => queued) (fun _ => rfl) fun lost => lost
  refine ⟨raised.attached, raised.unstarted_put (by simp [doing]), ?_⟩
  intro other lost
  have owed := raised.heard other lost
  by_cases self : other = id
  · subst self
    by_cases own : Thread.writer other = thread
    · exact Or.inr (Or.inr (Or.inr (by rw [receiving_eq, own, put_doing_self, quiet])))
    · have same := put_doing_of_ne own (broker.modify other fun client =>
        { client with overflow := true }) (resume next)
      have still := coming_put own (broker.modify other fun client =>
        { client with overflow := true }) (resume next)
      rcases owed with ⟨up, coming⟩ | ⟨pending, marking⟩ | ⟨coming, _⟩ | departed
      · exact Or.inl ⟨up, still.mpr coming⟩
      · exact Or.inr (Or.inl ⟨pending, same.trans marking⟩)
      · exact Or.inl ⟨by simp, still.mpr coming⟩
      · exact Or.inr (Or.inr (Or.inr (by rwa [receiving_eq, same, ← receiving_eq])))
  · exact owed_put quiet (by simp [doing, Ne.symm self]) owed

/-- The writer of one subscriber goes on: only what that one is owed is in question. -/
theorem work (heard : broker.Heard) {change : Client → Client} {doing : Doing}
    (started : broker.doing (.writer id) ≠ .gone)
    (no_flag : ∀ other next, broker.doing (.writer id) ≠ .flagging other next)
    (own : (change (broker.client id)).lost = true →
      ((broker.client id).lost = true → broker.Owed id) →
        ((broker.modify id change).put (.writer id) doing).Owed id) :
    ((broker.modify id change).put (.writer id) doing).Heard := by
  refine ⟨heard.attached, heard.unstarted_put started, ?_⟩
  intro other lost
  by_cases self : other = id
  · subst self
    exact own (by simpa using lost) (heard.heard other)
  · rw [put_client, modify_client_of_ne self] at lost
    have owed : (broker.modify id change).Owed other := by
      simpa only [Owed, Coming, receiving_eq, modify_client_of_ne self, modify_doing] using
        heard.heard other lost
    exact owed_put_of_ne (by simpa using self) (no_flag other) owed

/-- What is owed by a writer that neither holds an item nor writes an overflow. -/
theorem owed_between (between : takes (broker.doing (.writer id)) = true)
    (not_marking : ∀ pending, broker.doing (.writer id) ≠ .marking pending)
    (owed : broker.Owed id) :
    broker.Coming id ∧ ((broker.client id).overflow = true ∨
      ∃ thread next, thread ≠ Thread.writer id ∧ broker.doing thread = .flagging id next) := by
  rcases owed with ⟨flag, coming⟩ | ⟨pending, marking⟩ | ⟨coming, other, next, flagging⟩ | departed
  · exact ⟨coming, Or.inl flag⟩
  · exact absurd marking (not_marking pending)
  · refine ⟨coming, Or.inr ⟨other, next, ?_, flagging⟩⟩
    rintro rfl
    rw [flagging] at between
    cases between
  · rw [receiving_eq, between] at departed
    cases departed

/-- What is owed once the writer has gone on, with its item still to come. -/
theorem owed_of_between {change : Client → Client} {doing : Doing}
    (flag : (change (broker.client id)).overflow = (broker.client id).overflow)
    (coming : ((broker.modify id change).put (.writer id) doing).Coming id)
    (owed : (broker.client id).overflow = true ∨
      ∃ thread next, thread ≠ Thread.writer id ∧ broker.doing thread = .flagging id next) :
    ((broker.modify id change).put (.writer id) doing).Owed id := by
  rcases owed with up | ⟨other, next, different, flagging⟩
  · exact Or.inl ⟨by rwa [put_client, modify_client_self, flag], coming⟩
  · refine Or.inr (Or.inr (Or.inl ⟨coming, other, next, ?_⟩))
    rw [put_doing_of_ne different]
    exact flagging

theorem owed_departed {doing : Doing} (departs : takes doing = false) (broker : Broker) (id : Nat) :
    (broker.put (.writer id) doing).Owed id :=
  Or.inr (Or.inr (Or.inr (by rw [receiving_eq, put_doing_self, departs])))

theorem modify_id (broker : Broker) (id : Nat) :
    (broker.modify id fun client => client) = broker := by
  simp [Broker.modify]

/-- The writer takes an item, lowers the flag it finds, writes the overflow and the message. -/
theorem write (heard : broker.Heard) {said : Answer}
    (announces : broker.Announces (.advance (.writer id) said))
    (step : broker.write (.writer id) id said (broker.doing (.writer id)) = some after) :
    after.Heard := by
  cases doing : broker.doing (.writer id) with
  | waiting =>
      rw [doing] at step
      cases queue : (broker.client id).queue with
      | nil => simp [Broker.write, queue] at step
      | cons item rest =>
          simp only [Broker.write, queue, Option.some.injEq] at step
          rw [← step]
          apply heard.work (by simp [doing]) (by simp [doing])
          intro lost owed
          by_cases last : item = .close
          · exact owed_departed (by rw [if_pos last]; rfl) _ id
          · obtain ⟨_, announcing⟩ :=
              owed_between (by simp [doing, takes]) (by simp [doing]) (owed lost)
            refine owed_of_between rfl (Or.inr ⟨item, ?_⟩) announcing
            rw [put_doing_self, if_neg last]
  | holding item =>
      rw [doing] at step
      simp only [Broker.write] at step
      split at step <;> rw [← Option.some.inj step]
      · apply heard.work (by simp [doing]) (by simp [doing])
        exact fun _ _ => Or.inr (Or.inl ⟨_, put_doing_self _ _ _⟩)
      next lowered =>
        rw [← modify_id broker id]
        apply heard.work (by simp [doing]) (by simp [doing])
        intro lost owed
        obtain ⟨_, announcing⟩ :=
          owed_between (by simp [doing, takes]) (by simp [doing]) (owed lost)
        obtain ⟨other, next, _, flagging⟩ := announcing.resolve_left lowered
        simp only [Announces, doing] at announces
        have queued : (broker.client id).queue ≠ [] := by
          rcases announces id rfl with up | queued | nobody
          · exact absurd up lowered
          · exact queued
          · exact absurd flagging (nobody other next)
        exact owed_of_between rfl (Or.inl (by simpa using queued)) announcing
  | marking pending =>
      rw [doing] at step
      simp only [Broker.write] at step
      split at step <;> rw [← Option.some.inj step]
      · apply heard.work (by simp [doing]) (by simp [doing])
        intro lost
        cases lost
      · rw [← modify_id broker id]
        apply heard.work (by simp [doing]) (by simp [doing])
        exact fun _ _ => owed_departed rfl _ id
  | writing item =>
      rw [doing] at step
      simp only [Broker.write, Option.some.injEq] at step
      rw [← step, ← modify_id broker id]
      apply heard.work (by simp [doing]) (by simp [doing])
      intro lost owed
      cases said.written with
      | false => exact owed_departed rfl _ id
      | true =>
          obtain ⟨coming, announcing⟩ :=
            owed_between (by simp [doing, takes]) (by simp [doing]) (owed lost)
          rcases coming with queued | ⟨held, holding⟩
          · exact owed_of_between rfl (Or.inl (by simpa using queued)) announcing
          · rw [doing] at holding
            cases holding
  | _ => simp [Broker.write, doing] at step

/-- A subscriber changes in its roots, its gaps and what was recorded of them. -/
theorem note (heard : broker.Heard) (id : Nat) {change : Client → Client}
    (queue : (change (broker.client id)).queue = (broker.client id).queue)
    (flag : (change (broker.client id)).overflow = (broker.client id).overflow)
    (lost : (change (broker.client id)).lost = (broker.client id).lost) :
    (broker.modify id change).Heard :=
  heard.modify id (by rw [queue]; exact fun queued => queued) (by rw [flag]; exact fun up => up)
    (by rw [lost]; exact fun was => was)

/-- A subscription goes on. -/
theorem apply (heard : broker.Heard) {said : Answer}
    (announces : broker.Announces (.advance (.reader id) said))
    (step : broker.apply (.reader id) id (broker.doing (.reader id)) = some after) :
    after.Heard := by
  cases doing : broker.doing (.reader id) with
  | storing allowed denied =>
      simp only [doing, Broker.apply, Option.some.injEq] at step
      rw [← step]
      apply (heard.note id rfl rfl rfl).put <;> simp [doing, takes]
  | locking allowed denied =>
      simp only [doing, Broker.apply] at step
      split at step
      · rw [← Option.some.inj step]
        refine (heard.put (.reading (.subscribe allowed denied) broker.clients []) ?_ rfl
          ?_).frame (some (.reader id)) _ _ _ <;> simp [doing]
      · cases step
  | refusing allowed denied =>
      simp only [doing, Broker.apply, Option.some.injEq] at step
      rw [← step]
      apply (heard.note id rfl rfl rfl).put <;> simp [doing, takes]
  | noting allowed denied gaps =>
      simp only [doing, Broker.apply, Option.some.injEq] at step
      rw [← step]
      apply (heard.note id rfl rfl rfl).put <;> simp [doing, takes]
  | answering allowed denied gaps =>
      simp only [doing, Broker.apply, Option.some.injEq] at step
      rw [← step]
      have answered : (broker.answerWith id allowed denied gaps).Heard := by
        unfold answerWith
        cases sent : broker.trySend id with
        | accepted => exact (heard.enqueue id _).note id rfl rfl rfl
        | full =>
            simp only [Announces, doing] at announces
            obtain ⟨flag, coming, _⟩ := announces id rfl sent
            exact heard.lose (Or.inl ⟨flag, coming⟩)
        | disconnected => exact heard
      have same : (broker.answerWith id allowed denied gaps).doing = broker.doing := by
        unfold answerWith
        cases broker.trySend id <;> rfl
      apply answered.put <;> simp [same, doing, takes]
  | closing =>
      simp only [doing, Broker.apply, Option.some.injEq] at step
      rw [← step]
      cases broker.trySend id with
      | accepted => apply (heard.enqueue id _).put <;> simp [doing, takes]
      | full | disconnected => apply heard.put <;> simp [doing, takes]
  | _ => simp [Broker.apply, doing] at step

theorem leave (heard : broker.Heard)
    (step : broker.leave thread id (broker.doing thread) = some after) : after.Heard := by
  cases doing : broker.doing thread with
  | dropping =>
      simp only [doing, Broker.leave] at step
      split at step
      · rw [← Option.some.inj step, remove]
        split
        · have left : ((broker.modify id fun client => { client with promised := [] }).put thread
              (.reading .drop (broker.clients.filter (· ≠ id)) [])).Heard := by
            apply (heard.note id rfl rfl rfl).put <;> simp [doing, takes]
          exact ⟨fun other kept => heard.attached other (List.mem_filter.mp kept).1,
            left.unstarted, left.heard⟩
        · apply heard.put <;> simp [doing, takes]
      · cases step
  | _ => simp [Broker.leave, doing] at step

/-- A broadcast goes on. -/
theorem deliver (heard : broker.Heard) {said : Answer}
    (announces : broker.Announces (.advance thread said))
    (step : broker.deliver thread (broker.doing thread) = some after) : after.Heard := by
  cases doing : broker.doing thread with
  | broadcasting event left =>
      cases left with
      | nil =>
          simp only [doing, Broker.deliver, Option.some.injEq] at step
          rw [← step]
          exact (heard.put .idle (by simp [doing]) rfl (by simp [doing])).frame none _ _ _
      | cons other left =>
          simp only [doing, Broker.deliver, Option.some.injEq] at step
          rw [← step]
          by_cases none_ : (broker.client other).roots = [] <;> apply heard.put <;>
            simp [none_, doing, takes]
  | adapting event other roots left =>
      simp only [doing, Broker.deliver, Option.some.injEq] at step
      rw [← step]
      cases broker.adaptFor other roots event <;> apply heard.put <;> simp [doing, takes]
  | sending sent event other left =>
      simp only [doing, Broker.deliver, Option.some.injEq] at step
      rw [← step]
      simp only [Announces, doing] at announces
      cases came : broker.trySend other with
      | accepted => apply (heard.enqueue other _).put <;> simp [doing, takes]
      | full =>
          exact heard.refused (by simp [doing]) (by simp [doing, takes]) (by simp [doing])
            (announces came)
      | disconnected => apply heard.put <;> simp [doing, takes]
  | overflowing left =>
      cases left with
      | nil =>
          simp only [doing, Broker.deliver, Option.some.injEq] at step
          rw [← step]
          exact (heard.put .idle (by simp [doing]) rfl (by simp [doing])).frame none _ _ _
      | cons other left =>
          simp only [doing, Broker.deliver, Option.some.injEq] at step
          rw [← step]
          apply (heard.modify other (fun queued => queued) (fun _ => rfl) fun lost => lost).put <;>
            simp [doing, takes]
  | waking other left =>
      simp only [doing, Broker.deliver, Option.some.injEq] at step
      rw [← step]
      simp only [Announces, doing] at announces
      have told : ∀ waked : Broker, waked.Heard → waked.doing = broker.doing →
          ((waked.client other).overflow = true → waked.Owed other) →
          ((waked.modify other fun client =>
            { client with lost := client.lost || client.overflow }).put thread
              (.overflowing left)).Heard := by
        intro waked waked_heard same owed
        have noted : (waked.modify other fun client =>
            { client with lost := client.lost || client.overflow }).Heard := by
          cases up : (waked.client other).overflow with
          | false => exact waked_heard.note other rfl rfl (by simp [up])
          | true =>
              have lost := waked_heard.lose (owed up)
              refine ⟨lost.attached, lost.unstarted, ?_⟩
              intro any any_lost
              by_cases self : any = other
              · subst self
                simpa [Owed, Coming, receiving_eq, Broker.lose] using
                  lost.heard any (by simp [Broker.lose])
              · have any_owed := lost.heard any
                  (by simpa [Broker.lose, modify_client_of_ne self] using any_lost)
                simpa [Owed, Coming, receiving_eq, Broker.lose, modify_client_of_ne self] using
                  any_owed
        apply noted.put <;> simp [same, doing, takes]
      cases came : broker.trySend other with
      | accepted =>
          apply told _ (heard.enqueue other _) rfl
          exact fun flag => Or.inl ⟨flag, Or.inl (by simp [Broker.enqueue])⟩
      | full => exact told broker heard rfl fun flag => Or.inl ⟨flag, announces came⟩
      | disconnected =>
          exact told broker heard rfl fun _ =>
            Or.inr (Or.inr (Or.inr (trySend_disconnected came)))
  | _ => simp [Broker.deliver, doing] at step

theorem announce (heard : broker.Heard) {gaps : List Gap} {round : Round} {said : Answer}
    (doing : broker.doing thread = .comparing id gaps round)
    (announces : broker.Announces (.advance thread said)) :
    (broker.announce thread id gaps round).Heard := by
  simp only [Announces, doing] at announces
  unfold Broker.announce
  split
  · apply (heard.note id rfl rfl rfl).put <;> simp [doing, takes]
  next changed =>
    cases came : broker.trySend id with
    | accepted =>
        apply ((heard.enqueue id _).note id rfl rfl rfl).put <;> simp [doing, takes]
    | full =>
        have refused : ((broker.lose id).put thread (.flagging id (.gaps round))).Heard :=
          heard.refused (by simp [doing]) (by simp [doing, takes]) (by simp [doing])
            ((announces changed).1 came)
        have noted : (((broker.lose id).put thread (.flagging id (.gaps round))).modify id
            fun client => { client with untold := true }).Heard := refused.note id rfl rfl rfl
        exact noted
    | disconnected =>
        apply (heard.note id rfl rfl rfl).put <;> simp [doing, takes]

theorem share (heard : broker.Heard) {said : Answer}
    (announces : broker.Announces (.advance thread said))
    (step : broker.share thread said (broker.doing thread) = some after) : after.Heard := by
  cases doing : broker.doing thread with
  | reading caller left union =>
      cases left with
      | nil =>
          simp only [doing, Broker.share, Option.some.injEq] at step
          rw [← step]
          exact (heard.put (.giving caller union) (by simp [doing]) rfl
            (by simp [doing])).frame none _ _ _
      | cons other left =>
          simp only [doing, Broker.share, Option.some.injEq] at step
          rw [← step]
          apply heard.put <;> simp [doing, takes]
  | giving caller union =>
      simp only [doing, Broker.share, Option.some.injEq] at step
      rw [← step]
      have quiet : takes (given caller said) = false := by
        cases caller with
        | drop => rfl
        | subscribe allowed denied =>
            simp only [given]
            split <;> rfl
      exact (heard.put _ (by simp [doing]) quiet (by simp [doing])).frame _ union said.gaps _
  | listing job =>
      simp only [doing, Broker.share, Option.bind_eq_bind, Option.bind_eq_some_iff,
        Option.some.injEq] at step
      obtain ⟨id, _, rfl⟩ := step
      apply heard.put <;> simp [doing, takes]
  | asking job roots =>
      simp only [doing, Broker.share, Option.some.injEq] at step
      rw [← step]
      apply heard.put <;> simp [doing, takes]
  | sifting job roots all =>
      simp only [doing, Broker.share, Option.bind_eq_bind, Option.bind_eq_some_iff,
        Option.some.injEq] at step
      obtain ⟨id, _, rfl⟩ := step
      cases job <;> apply heard.put <;> simp [doing, takes]
  | announcing ends =>
      simp only [doing, Broker.share] at step
      split at step
      · rw [← Option.some.inj step]
        apply heard.put <;> simp [doing, takes]
      · cases step
  | visiting round =>
      obtain ⟨ends, left⟩ := round
      cases left with
      | nil =>
          simp only [doing, Broker.share, Option.some.injEq] at step
          rw [← step]
          cases ends <;> apply heard.put <;> simp [doing, takes]
      | cons other left =>
          simp only [doing, Broker.share, Option.some.injEq] at step
          rw [← step]
          by_cases none_ : (broker.client other).roots = [] <;> apply heard.put <;>
            simp [none_, doing, takes]
  | comparing other gaps round =>
      simp only [doing, Broker.share, Option.some.injEq] at step
      rw [← step]
      exact heard.announce doing announces
  | flagging other next =>
      simp only [doing, Broker.share, Option.some.injEq] at step
      rw [← step]
      exact heard.flag doing
  | _ => simp [Broker.share, doing] at step

theorem fail (heard : broker.Heard) {message : String}
    (announces : broker.trySend id = .full →
      (broker.client id).overflow = true ∧ broker.Coming id) :
    (broker.fail id message).Heard := by
  unfold Broker.fail
  cases came : broker.trySend id with
  | accepted => exact heard.enqueue id _
  | full => exact heard.lose (Or.inl (announces came))
  | disconnected => exact heard

theorem attach (heard : broker.Heard) (peer : Subscriber) :
    Heard { ((broker.modify broker.nextId fun _ => Client.attached peer).put
        (.reader broker.nextId) .idle).put (.writer broker.nextId) .waiting with
      clients := broker.clients ++ [broker.nextId]
      nextId := broker.nextId + 1 } := by
  refine ⟨?_, ?_, ?_⟩
  · intro id connected
    rcases List.mem_append.mp connected with old | new
    · exact Nat.lt_succ_of_lt (heard.attached id old)
    · rw [List.mem_singleton.mp new]
      exact Nat.lt_succ_self _
  · intro thread id client unattached
    have beyond : broker.nextId < id := unattached
    have different : thread.client ≠ some broker.nextId := by
      rw [client, ne_eq, Option.some.injEq]
      omega
    refine (put_doing_of_ne ?_ _ _).trans ((put_doing_of_ne ?_ _ _).trans
      (heard.unstarted thread id client beyond.le)) <;>
    · rintro rfl
      exact different rfl
  · intro id lost
    by_cases self : id = broker.nextId
    · subst self
      simp [Client.attached] at lost
    · have owed := heard.heard id (by simpa [modify_client_of_ne self] using lost)
      have changed : (broker.modify broker.nextId fun _ => Client.attached peer).Owed id := by
        simpa only [Owed, Coming, receiving_eq, modify_client_of_ne self, modify_doing] using owed
      have gone := heard.unstarted
      have reading : ((broker.modify broker.nextId fun _ => Client.attached peer).put
          (.reader broker.nextId) .idle).Owed id :=
        owed_put_of_ne (by simp) (by simp [gone (.reader broker.nextId) broker.nextId rfl le_rfl])
          changed
      refine owed_put_of_ne (by simpa using self) ?_ reading
      intro next
      rw [put_doing_of_ne (by simp), modify_doing, gone _ broker.nextId rfl le_rfl]
      simp

/-- Every step that keeps to the condition keeps every loss to be announced. -/
theorem step (heard : broker.Heard) {action : Action} (announces : broker.Announces action)
    (stepped : broker.step action = some after) : after.Heard := by
  cases action with
  | attach peer =>
      simp only [Broker.step] at stepped
      split at stepped
      · rw [← Option.some.inj stepped]
        exact heard.attach peer
      · cases stepped
  | subscribe id roots canonical =>
      simp only [Broker.step] at stepped
      split at stepped
      next idle =>
        rw [← Option.some.inj stepped]
        apply heard.put <;> simp [idle, takes]
      · cases stepped
  | unparsable id error =>
      simp only [Broker.step] at stepped
      split at stepped
      · rw [← Option.some.inj stepped]
        exact heard.fail announces
      · cases stepped
  | tooLong id =>
      simp only [Broker.step] at stepped
      split at stepped
      next idle =>
        rw [← Option.some.inj stepped]
        apply (heard.fail announces).put <;> simp [Covered.fail_doing, idle, takes]
      · cases stepped
  | hangUp id =>
      simp only [Broker.step] at stepped
      split at stepped
      next idle =>
        rw [← Option.some.inj stepped]
        apply heard.put <;> simp [idle, takes]
      · cases stepped
  | event index event =>
      simp only [Broker.step] at stepped
      split at stepped
      next idle =>
        rw [← Option.some.inj stepped]
        exact (heard.put (.broadcasting event broker.clients) (by simp [idle.1]) rfl
          (by simp [idle.1])).frame (some (.service index)) _ _ _
      · cases stepped
  | kernelOverflow index =>
      simp only [Broker.step] at stepped
      split at stepped
      next idle =>
        rw [← Option.some.inj stepped]
        exact (heard.put (.overflowing broker.clients) (by simp [idle.1]) rfl
          (by simp [idle.1])).frame (some (.service index)) _ _ _
      · cases stepped
  | remark index gaps =>
      simp only [Broker.step] at stepped
      split at stepped
      next idle =>
        rw [← Option.some.inj stepped]
        exact (heard.put (.announcing false) (by simp [idle]) rfl
          (by simp [idle])).frame _ _ gaps _
      · cases stepped
  | permissions sees =>
      simp only [Broker.step, Option.some.injEq] at stepped
      rw [← stepped]
      exact heard.frame _ _ _ sees
  | advance thread answer =>
      rcases advance_cases stepped with ⟨id, rfl, wrote⟩ | ⟨id, rfl, applied⟩ |
        ⟨id, _, left⟩ | ⟨index, rfl, delivered⟩ | shared
      · exact heard.write announces wrote
      · exact heard.apply announces applied
      · exact heard.leave left
      · exact heard.deliver announces delivered
      · exact heard.share announces shared

theorem run (heard : broker.Heard) (ran : Run Announces broker after) : after.Heard := by
  induction ran with
  | refl => exact heard
  | tail _ stepped ih =>
      obtain ⟨action, announces, stepped⟩ := stepped
      exact ih.step announces stepped

end Heard

end Broker
end Watchd
end Metafolder
