import Metafolder.Broker

/-!
# Coverage

Each subscription and each departure reads the union of the roots, and only then gives it to the
event source: a union read earlier may be given later.  Where none is, the source has the roots of
every connected subscriber, and what a subscriber was promised stays covered.
-/

namespace Metafolder
namespace Watchd
namespace Broker

variable {broker after : Broker} {thread : Thread} {id : Nat} {root : PathBuf}

/-- A root some connected subscriber asks for. -/
def Wanted (broker : Broker) (root : PathBuf) : Prop :=
  ∃ id ∈ broker.clients, root ∈ (broker.client id).roots

/-- A thread that reads the union of the roots, or has it in hand. -/
def pending : Doing → Bool
  | .locking _ _ | .reading _ _ _ | .giving _ _ => true
  | _ => false

def OnTheWay (broker : Broker) (thread : Thread) : Prop :=
  pending (broker.doing thread) = true

/-- The roots a subscription stored, until it is answered. -/
def carries : Doing → Option (List PathBuf)
  | .locking allowed _ | .refusing allowed _ | .noting allowed _ _ | .answering allowed _ _
  | .reading (.subscribe allowed _) _ _ | .giving (.subscribe allowed _) _
  | .listing (.answer allowed _) | .asking (.answer allowed _) _
  | .sifting (.answer allowed _) _ _ => some allowed
  | _ => none

/-- A union given has the roots of every connected subscriber whose own is not on its way, and is
the union as it stands unless another is on its way; a root refused to one subscriber is another's
too, unless a union is on its way. -/
def GivesUnion (broker : Broker) : Action → Prop
  | .advance thread _ =>
      match broker.doing thread with
      | .giving _ union =>
          (∀ id ∈ broker.clients, (∀ root ∈ (broker.client id).roots, root ∈ union) ∨
            (Thread.reader id ≠ thread ∧ broker.OnTheWay (.reader id))) ∧
          ((∀ root, root ∈ union ↔ broker.Wanted root) ∨
            ∃ other, other ≠ thread ∧ broker.OnTheWay other)
      | .refusing allowed _ =>
          (∀ id, thread = .reader id → id ∈ broker.clients →
            ∀ root ∈ (broker.client id).roots, root ∈ allowed ∨
              ∃ other ∈ broker.clients, other ≠ id ∧ root ∈ (broker.client other).roots) ∨
          ∃ other, broker.OnTheWay other
      | _ => True
  | _ => True

/-- What holds of the roots in every state. -/
structure Covered (broker : Broker) : Prop where
  attached : ∀ id ∈ broker.clients, id < broker.nextId
  unstarted : ∀ thread id, thread.client = some id → broker.nextId ≤ id →
    broker.doing thread = .gone
  settled : (∀ root, root ∈ broker.source ↔ broker.Wanted root) ∨
    ∃ thread, broker.OnTheWay thread
  held : ∀ id ∈ broker.clients, ¬ broker.OnTheWay (.reader id) →
    ∀ root ∈ (broker.client id).roots, root ∈ broker.source
  promised : ∀ id, ∀ root ∈ (broker.client id).promised, root ∈ (broker.client id).roots
  carried : ∀ id allowed, carries (broker.doing (.reader id)) = some allowed →
    ∀ root ∈ allowed, root ∈ (broker.client id).roots
  unanswered : ∀ id, (broker.OnTheWay (.reader id) ∨
    (carries (broker.doing (.reader id))).isSome) → (broker.client id).promised = []

namespace Covered

theorem start (queueCap : Nat) (sees : Subscriber → PathBuf → PathBuf → Bool) :
    (Broker.start queueCap sees).Covered where
  attached := by simp [Broker.start]
  unstarted := by
    rintro (id | id | index) _ client _
    · rfl
    · rfl
    · cases client
  settled := Or.inl (by simp [Broker.start, Wanted])
  held := by simp [Broker.start]
  promised := by simp [Broker.start, Client.attached]
  carried := by simp [Broker.start, carries]
  unanswered := by simp [Broker.start, Client.attached]

/-- A thread goes on: what it carries is stored, and it is on the way as it was. -/
theorem put (covered : broker.Covered) (doing : Doing)
    (started : broker.doing thread ≠ .gone)
    (same : pending doing = pending (broker.doing thread))
    (carried : ∀ id allowed, thread = .reader id → carries doing = some allowed →
      (∀ root ∈ allowed, root ∈ (broker.client id).roots) ∧ (broker.client id).promised = []) :
    (broker.put thread doing).Covered := by
  have on_the_way : ∀ other, (broker.put thread doing).OnTheWay other ↔ broker.OnTheWay other := by
    intro other
    unfold OnTheWay
    by_cases self : other = thread
    · rw [self, put_doing_self, same]
    · rw [put_doing_of_ne self]
  refine ⟨covered.attached, ?_, ?_, ?_, covered.promised, ?_, ?_⟩
  · intro other id client unattached
    by_cases self : other = thread
    · exact absurd (covered.unstarted thread id (self ▸ client) unattached) started
    · rw [put_doing_of_ne self]
      exact covered.unstarted other id client unattached
  · exact covered.settled.imp id fun ⟨other, way⟩ => ⟨other, (on_the_way other).mpr way⟩
  · intro id connected still
    exact covered.held id connected (mt (on_the_way _).mpr still)
  · intro id allowed carrying
    by_cases self : Thread.reader id = thread
    · rw [self, put_doing_self] at carrying
      exact (carried id allowed self.symm carrying).1
    · rw [put_doing_of_ne self] at carrying
      exact covered.carried id allowed carrying
  · intro id busy
    rw [on_the_way] at busy
    rcases busy with way | carrying
    · exact covered.unanswered id (Or.inl way)
    · by_cases self : Thread.reader id = thread
      · rw [self, put_doing_self] at carrying
        obtain ⟨allowed, is_carried⟩ := Option.isSome_iff_exists.mp carrying
        exact (carried id allowed self.symm is_carried).2
      · rw [put_doing_of_ne self] at carrying
        exact covered.unanswered id (Or.inr carrying)

/-- A thread that carries no roots goes on. -/
theorem go (covered : broker.Covered) (doing : Doing) (started : broker.doing thread ≠ .gone)
    (same : pending doing = pending (broker.doing thread)) (nothing : carries doing = none) :
    (broker.put thread doing).Covered :=
  covered.put doing started same fun id allowed _ carrying => by
    rw [nothing] at carrying
    cases carrying

/-- A thread goes on with the roots it carries. -/
theorem pass (covered : broker.Covered) (doing : Doing) (started : broker.doing thread ≠ .gone)
    (same : pending doing = pending (broker.doing thread))
    (carrying : carries doing = carries (broker.doing thread)) :
    (broker.put thread doing).Covered := by
  apply covered.put doing started same
  rintro id allowed rfl carried
  rw [carrying] at carried
  exact ⟨covered.carried id allowed carried,
    covered.unanswered id (Or.inr (by rw [carried]; rfl))⟩

/-- A subscriber changes, but not in its roots nor in what it was promised. -/
theorem modify (covered : broker.Covered) (id : Nat) {change : Client → Client}
    (roots : (change (broker.client id)).roots = (broker.client id).roots)
    (promised : (change (broker.client id)).promised = (broker.client id).promised) :
    (broker.modify id change).Covered := by
  have same_roots := modify_keeps Client.roots broker id roots
  have same_promised := modify_keeps Client.promised broker id promised
  have wanted : ∀ root, (broker.modify id change).Wanted root ↔ broker.Wanted root := by
    intro root
    simp only [Wanted, same_roots]
    rfl
  refine ⟨covered.attached, covered.unstarted, ?_, ?_, ?_, ?_, ?_⟩
  · refine covered.settled.imp (fun exact_ root => ?_) fun way => way
    rw [wanted]
    exact exact_ root
  · intro other connected still
    rw [same_roots]
    exact covered.held other connected still
  · intro other
    rw [same_roots, same_promised]
    exact covered.promised other
  · intro other
    rw [same_roots]
    exact covered.carried other
  · intro other
    rw [same_promised]
    exact covered.unanswered other

/-- The lock, the gaps and the filter have no part in it. -/
theorem frame (covered : broker.Covered) (locked : Option Thread) (gaps : List Gap)
    (sees : Subscriber → PathBuf → PathBuf → Bool) :
    Covered { broker with locked := locked, sourceGaps := gaps, sees := sees } :=
  ⟨covered.attached, covered.unstarted, covered.settled, covered.held, covered.promised,
    covered.carried, covered.unanswered⟩

/-- The writer has no part in it. -/
theorem write (covered : broker.Covered) {answer : Answer}
    (step : broker.write (.writer id) id answer (broker.doing (.writer id)) = some after) :
    after.Covered := by
  cases doing : broker.doing (.writer id) with
  | waiting =>
      rw [doing] at step
      cases queue : (broker.client id).queue with
      | nil => simp [Broker.write, queue] at step
      | cons item rest =>
          simp only [Broker.write, queue, Option.some.injEq] at step
          rw [← step]
          by_cases last : item = .close <;> apply (covered.modify id rfl rfl).go <;>
            simp [last, doing, pending, carries]
  | holding item =>
      rw [doing] at step
      simp only [Broker.write] at step
      split at step <;> rw [← Option.some.inj step]
      · apply (covered.modify id rfl rfl).go <;> simp [doing, pending, carries]
      · cases message item <;> apply covered.go <;> simp [wrote, doing, pending, carries]
  | marking waiting =>
      rw [doing] at step
      simp only [Broker.write] at step
      split at step <;> rw [← Option.some.inj step]
      · cases waiting <;> apply (covered.modify id rfl rfl).go <;>
          simp [wrote, doing, pending, carries]
      · apply covered.go <;> simp [doing, pending, carries]
  | writing item =>
      rw [doing] at step
      simp only [Broker.write, Option.some.injEq] at step
      rw [← step]
      cases answer.written <;> apply covered.go <;> simp [doing, pending, carries]
  | _ => simp [Broker.write, doing] at step

/-- The roots of a subscriber are stored anew, by its own reader. -/
theorem store (covered : broker.Covered) {allowed : List PathBuf} {denied : List Denied}
    (doing : broker.doing (.reader id) = .storing allowed denied) :
    ((broker.modify id fun client => { client with roots := allowed, promised := [] }).put
      (.reader id) (.locking allowed denied)).Covered := by
  refine ⟨covered.attached, ?_, Or.inr ⟨.reader id, by simp [OnTheWay, pending]⟩, ?_, ?_, ?_, ?_⟩
  · intro thread other client unattached
    by_cases self : thread = .reader id
    · have gone := covered.unstarted thread other client unattached
      rw [self, doing] at gone
      cases gone
    · rw [put_doing_of_ne self]
      exact covered.unstarted thread other client unattached
  · intro other connected still
    by_cases self : other = id
    · exact absurd (by simp [OnTheWay, pending, self]) still
    · unfold OnTheWay at still
      rw [put_doing_of_ne (by simpa using self)] at still
      have same := modify_client_of_ne self broker
        fun client => { client with roots := allowed, promised := [] }
      simp only [put_client, same]
      exact covered.held other connected still
  · intro other
    by_cases self : other = id
    · subst self
      simp
    · simpa [modify_client_of_ne self] using covered.promised other
  · intro other carrying
    by_cases self : other = id
    · subst self
      simp only [put_doing_self, carries, Option.some.injEq]
      rintro rfl
      simp
    · rw [put_doing_of_ne (by simpa using self)]
      simpa [modify_client_of_ne self] using covered.carried other carrying
  · intro other
    by_cases self : other = id
    · subst self
      simp
    · unfold OnTheWay
      rw [put_doing_of_ne (by simpa using self)]
      simpa [modify_client_of_ne self, OnTheWay] using covered.unanswered other

/-- A subscriber keeps the roots that were not refused. -/
theorem refuse (covered : broker.Covered) {allowed : List PathBuf} {denied : List Denied}
    {answer : Answer} (doing : broker.doing (.reader id) = .refusing allowed denied)
    (gives : broker.GivesUnion (.advance (.reader id) answer)) :
    ((broker.modify id fun client => { client with roots := allowed }).put
      (.reader id) (.listing (.answer allowed denied))).Covered := by
  have kept := covered.carried id allowed (by rw [doing]; rfl)
  have nothing := covered.unanswered id (Or.inr (by rw [doing]; rfl))
  simp only [GivesUnion, doing] at gives
  set after := (broker.modify id fun client => { client with roots := allowed }).put
    (.reader id) (.listing (.answer allowed denied)) with after_eq
  have roots_self : (after.client id).roots = allowed := by simp [after_eq]
  have roots_other : ∀ other, other ≠ id → after.client other = broker.client other := by
    intro other different
    simp [after_eq, modify_client_of_ne different]
  have way : ∀ thread, after.OnTheWay thread ↔ broker.OnTheWay thread := by
    intro thread
    unfold OnTheWay
    by_cases self : thread = .reader id
    · rw [self, after_eq, put_doing_self, doing]
      rfl
    · rw [after_eq, put_doing_of_ne self]
      rfl
  have fewer : ∀ other, ∀ root ∈ (after.client other).roots,
      root ∈ (broker.client other).roots := by
    intro other root root_mem
    by_cases self : other = id
    · subst self
      exact kept root (roots_self ▸ root_mem)
    · rwa [roots_other other self] at root_mem
  refine ⟨covered.attached, ?_, ?_, ?_, ?_, ?_, ?_⟩
  · intro thread other client unattached
    by_cases self : thread = .reader id
    · have gone := covered.unstarted thread other client unattached
      rw [self, doing] at gone
      cases gone
    · rw [after_eq, put_doing_of_ne self]
      exact covered.unstarted thread other client unattached
  · rcases covered.settled with exact_ | ⟨thread, on_the_way⟩
    · rcases gives with others | ⟨thread, on_the_way⟩
      · left
        intro root
        rw [show after.source = broker.source from rfl, exact_]
        constructor
        · rintro ⟨other, connected, root_mem⟩
          by_cases self : other = id
          · subst self
            rcases others other rfl connected root root_mem with here | ⟨elsewhere, held⟩
            · exact ⟨other, connected, roots_self ▸ here⟩
            · exact ⟨elsewhere, held.1, (roots_other elsewhere held.2.1).symm ▸ held.2.2⟩
          · exact ⟨other, connected, (roots_other other self).symm ▸ root_mem⟩
        · rintro ⟨other, connected, root_mem⟩
          exact ⟨other, connected, fewer other root root_mem⟩
      · exact Or.inr ⟨thread, (way thread).mpr on_the_way⟩
    · exact Or.inr ⟨thread, (way thread).mpr on_the_way⟩
  · intro other connected still root root_mem
    exact covered.held other connected (mt (way _).mpr still) root (fewer other root root_mem)
  · intro other
    by_cases self : other = id
    · subst self
      have empty : (after.client other).promised = [] := by simpa [after_eq] using nothing
      simp [empty]
    · rw [roots_other other self]
      exact covered.promised other
  · intro other carrying carried
    by_cases self : other = id
    · subst self
      rw [after_eq, put_doing_self] at carried
      obtain rfl := Option.some.inj carried
      rw [roots_self]
      exact fun root root_mem => root_mem
    · rw [after_eq, put_doing_of_ne (by simpa using self)] at carried
      rw [roots_other other self]
      exact covered.carried other carrying carried
  · intro other busy
    by_cases self : other = id
    · subst self
      simpa [after_eq] using nothing
    · rw [roots_other other self]
      rw [way, after_eq, put_doing_of_ne (by simpa using self)] at busy
      exact covered.unanswered other busy

/-- The answer to a subscription promises what it stored. -/
theorem answer (covered : broker.Covered) {allowed : List PathBuf} {denied : List Denied}
    {gaps : List Gap} (doing : broker.doing (.reader id) = .answering allowed denied gaps) :
    ((broker.answerWith id allowed denied gaps).put (.reader id) (.announcing false)).Covered := by
  have kept := covered.carried id allowed (by rw [doing]; rfl)
  unfold answerWith
  cases broker.trySend id with
  | full => apply (covered.modify id rfl rfl).go <;> simp [doing, pending, carries]
  | disconnected => apply covered.go <;> simp [doing, pending, carries]
  | accepted =>
      have queued : ((broker.enqueue id (.msg (.subscribed allowed denied gaps))).put (.reader id)
          (.announcing false)).Covered := by
        apply (covered.modify id rfl rfl).go <;> simp [doing, pending, carries]
      set between := (broker.enqueue id (.msg (.subscribed allowed denied gaps))).put (.reader id)
        (.announcing false) with between_eq
      have still : between.doing (.reader id) = .announcing false := put_doing_self _ _ _
      have same_roots : ∀ other, ((between.modify id fun client =>
          { client with promised := allowed, told := gaps :: client.told }).client other).roots =
            (between.client other).roots :=
        modify_keeps Client.roots between id rfl
      have roots : (between.client id).roots = (broker.client id).roots := by
        simp [between_eq, enqueue]
      have answered : (between.modify id fun client =>
          { client with promised := allowed, told := gaps :: client.told }).Covered := by
        refine ⟨queued.attached, queued.unstarted, ?_, ?_, ?_, ?_, ?_⟩
        · refine queued.settled.imp (fun exact_ root => ?_) fun way => way
          rw [modify_source, exact_]
          simp only [Wanted, same_roots, modify_clients]
        · intro other connected way
          rw [same_roots]
          exact queued.held other connected way
        · intro other
          by_cases self : other = id
          · subst self
            simpa [roots] using kept
          · rw [modify_client_of_ne self]
            exact queued.promised other
        · intro other
          rw [same_roots]
          exact queued.carried other
        · intro other busy
          by_cases self : other = id
          · subst self
            simp [OnTheWay, still, pending, carries] at busy
          · rw [modify_client_of_ne self]
            exact queued.unanswered other busy
      exact answered

/-- A subscription goes on. -/
theorem apply (covered : broker.Covered) {said : Answer}
    (gives : broker.GivesUnion (.advance (.reader id) said))
    (step : broker.apply (.reader id) id (broker.doing (.reader id)) = some after) :
    after.Covered := by
  cases doing : broker.doing (.reader id) with
  | storing allowed denied =>
      simp only [doing, Broker.apply, Option.some.injEq] at step
      rw [← step]
      exact covered.store doing
  | locking allowed denied =>
      simp only [doing, Broker.apply] at step
      split at step
      · rw [← Option.some.inj step]
        have stored := covered.carried id allowed (by rw [doing]; rfl)
        have nothing := covered.unanswered id (Or.inr (by rw [doing]; rfl))
        refine (covered.put (.reading (.subscribe allowed denied) broker.clients []) ?_ ?_
          ?_).frame (some (.reader id)) _ _
        · simp [doing]
        · simp [doing, pending]
        · rintro _ _ ⟨⟩ ⟨⟩
          exact ⟨stored, nothing⟩
      · cases step
  | refusing allowed denied =>
      simp only [doing, Broker.apply, Option.some.injEq] at step
      rw [← step]
      exact covered.refuse doing gives
  | noting allowed denied gaps =>
      simp only [doing, Broker.apply, Option.some.injEq] at step
      rw [← step]
      have stored := covered.carried id allowed (by rw [doing]; rfl)
      have nothing := covered.unanswered id (Or.inr (by rw [doing]; rfl))
      apply (covered.modify id rfl rfl).put
      · simp [doing]
      · simp [doing, pending]
      · rintro _ _ ⟨⟩ ⟨⟩
        simpa using ⟨stored, nothing⟩
  | answering allowed denied gaps =>
      simp only [doing, Broker.apply, Option.some.injEq] at step
      rw [← step]
      exact covered.answer doing
  | closing =>
      simp only [doing, Broker.apply, Option.some.injEq] at step
      rw [← step]
      cases broker.trySend id with
      | accepted => apply (covered.modify id rfl rfl).go <;> simp [doing, pending, carries]
      | full | disconnected => apply covered.go <;> simp [doing, pending, carries]
  | _ => simp [Broker.apply, doing] at step

/-- A subscriber departs, and the union is read. -/
theorem depart (covered : broker.Covered) (client : thread.client = some id)
    (doing : broker.doing thread = .dropping) (remaining : List Nat)
    (fewer : ∀ other ∈ remaining, other ∈ broker.clients) (locked : Option Thread) :
    Covered { (broker.modify id fun client => { client with promised := [] }).put thread
      (.reading .drop remaining []) with clients := remaining, locked := locked } := by
  have same_roots : ∀ other, ((broker.modify id fun client =>
      { client with promised := [] }).client other).roots = (broker.client other).roots :=
    modify_keeps Client.roots broker id rfl
  refine ⟨?_, ?_, Or.inr ⟨thread, by simp [OnTheWay, pending]⟩, ?_, ?_, ?_, ?_⟩
  · exact fun other connected => covered.attached other (fewer other connected)
  · intro other otherId otherClient unattached
    by_cases self : other = thread
    · have gone := covered.unstarted other otherId otherClient unattached
      rw [self, doing] at gone
      cases gone
    · exact (put_doing_of_ne self _ _).trans
        (covered.unstarted other otherId otherClient unattached)
  · intro other connected still
    simp only [OnTheWay] at still
    simp only [put_client, same_roots]
    apply covered.held other (fewer other connected)
    intro way
    by_cases self : Thread.reader other = thread
    · rw [OnTheWay, self, doing] at way
      cases way
    · rw [put_doing_of_ne self] at still
      exact still way
  · intro other
    simp only [put_client, same_roots]
    by_cases self : other = id
    · subst self
      simp
    · rw [modify_client_of_ne self]
      exact covered.promised other
  · intro other carrying carried
    simp only [put_client, same_roots]
    by_cases self : Thread.reader other = thread
    · simp [self, carries] at carried
    · simp only [put_doing_of_ne self, modify_doing] at carried
      exact covered.carried other carrying carried
  · intro other busy
    simp only [put_client]
    by_cases self : other = id
    · subst self
      simp
    · have different : Thread.reader other ≠ thread := by
        rintro rfl
        exact self (Option.some.inj client)
      rw [modify_client_of_ne self]
      simp only [OnTheWay, put_doing_of_ne different, modify_doing] at busy
      exact covered.unanswered other busy

theorem leave (covered : broker.Covered) (client : thread.client = some id)
    (step : broker.leave thread id (broker.doing thread) = some after) : after.Covered := by
  cases doing : broker.doing thread with
  | dropping =>
      simp only [doing, Broker.leave] at step
      split at step
      · rw [← Option.some.inj step, remove]
        split
        · exact covered.depart client doing _ (fun other kept => (List.mem_filter.mp kept).1) _
        · apply covered.go <;> simp [doing, pending, carries]
      · cases step
  | _ => simp [Broker.leave, doing] at step

/-- A broadcast has no part in it. -/
theorem deliver (covered : broker.Covered)
    (step : broker.deliver thread (broker.doing thread) = some after) : after.Covered := by
  cases doing : broker.doing thread with
  | broadcasting event left =>
      cases left with
      | nil =>
          simp only [doing, Broker.deliver, Option.some.injEq] at step
          rw [← step]
          exact (covered.go .idle (by simp [doing]) (by simp [doing, pending]) rfl).frame
            none _ _
      | cons other left =>
          simp only [doing, Broker.deliver, Option.some.injEq] at step
          rw [← step]
          by_cases none_ : (broker.client other).roots = [] <;> apply covered.go <;>
            simp [none_, doing, pending, carries]
  | adapting event other roots left =>
      simp only [doing, Broker.deliver, Option.some.injEq] at step
      rw [← step]
      cases broker.adaptFor other roots event <;> apply covered.go <;>
        simp [doing, pending, carries]
  | sending sent event other left =>
      simp only [doing, Broker.deliver, Option.some.injEq] at step
      rw [← step]
      cases broker.trySend other with
      | accepted | full =>
          apply (covered.modify other rfl rfl).go <;> simp [doing, pending, carries]
      | disconnected => apply covered.go <;> simp [doing, pending, carries]
  | overflowing left =>
      cases left with
      | nil =>
          simp only [doing, Broker.deliver, Option.some.injEq] at step
          rw [← step]
          exact (covered.go .idle (by simp [doing]) (by simp [doing, pending]) rfl).frame
            none _ _
      | cons other left =>
          simp only [doing, Broker.deliver, Option.some.injEq] at step
          rw [← step]
          apply (covered.modify other rfl rfl).go <;> simp [doing, pending, carries]
  | waking other left =>
      simp only [doing, Broker.deliver, Option.some.injEq] at step
      rw [← step]
      cases broker.trySend other with
      | accepted =>
          apply ((covered.modify other rfl rfl).modify other rfl rfl).go <;>
            simp [doing, pending, carries]
      | full | disconnected =>
          apply (covered.modify other rfl rfl).go <;> simp [doing, pending, carries]
  | _ => simp [Broker.deliver, doing] at step

/-- The union is given to the source. -/
theorem give (covered : broker.Covered) {caller : Caller} {union : List PathBuf} {said : Answer}
    (doing : broker.doing thread = .giving caller union)
    (gives : broker.GivesUnion (.advance thread said)) :
    Covered { broker.put thread (given caller said) with
      source := union, sourceGaps := said.gaps } := by
  simp only [GivesUnion, doing] at gives
  obtain ⟨all_held, union_exact⟩ := gives
  have past : pending (given caller said) = false := by
    cases caller with
    | drop => rfl
    | subscribe allowed denied =>
        simp only [given]
        split <;> rfl
  have sorted : ∀ carrying, carries (given caller said) = some carrying →
      ∃ allowed denied, caller = .subscribe allowed denied ∧ ∀ root ∈ carrying, root ∈ allowed := by
    intro carrying carried
    cases caller with
    | drop => cases carried
    | subscribe allowed denied =>
        refine ⟨allowed, denied, rfl, ?_⟩
        simp only [given] at carried
        split at carried
        · obtain rfl := Option.some.inj carried
          exact fun root root_mem => root_mem
        · obtain rfl := Option.some.inj carried
          exact fun root root_mem => (List.mem_filter.mp root_mem).1
  refine ⟨covered.attached, ?_, ?_, ?_, covered.promised, ?_, ?_⟩
  · intro other id client unattached
    by_cases self : other = thread
    · have gone := covered.unstarted other id client unattached
      rw [self, doing] at gone
      cases gone
    · exact (put_doing_of_ne self _ _).trans (covered.unstarted other id client unattached)
  · refine union_exact.imp (fun exact_ => exact_) ?_
    rintro ⟨other, different, way⟩
    exact ⟨other, by simpa [OnTheWay, put_doing_of_ne different] using way⟩
  · intro id connected still root root_mem
    rcases all_held id connected with held | ⟨different, way⟩
    · exact held root root_mem
    · simp only [OnTheWay, put_doing_of_ne different] at still
      exact absurd way still
  · intro id carrying carried
    by_cases self : Thread.reader id = thread
    · simp only [self, put_doing_self] at carried
      obtain ⟨allowed, denied, rfl, within⟩ := sorted carrying carried
      have stored := covered.carried id allowed (by rw [self, doing]; rfl)
      exact fun root root_mem => stored root (within root root_mem)
    · simp only [put_doing_of_ne self] at carried
      exact covered.carried id carrying carried
  · intro id busy
    by_cases self : Thread.reader id = thread
    · exact covered.unanswered id (Or.inl (by rw [OnTheWay, self, doing]; rfl))
    · simp only [OnTheWay, put_doing_of_ne self] at busy
      exact covered.unanswered id busy

theorem announce (covered : broker.Covered) {gaps : List Gap} {round : Round}
    (doing : broker.doing thread = .comparing id gaps round) :
    (broker.announce thread id gaps round).Covered := by
  unfold Broker.announce
  split
  · apply (covered.modify id rfl rfl).go <;> simp [doing, pending, carries]
  · cases broker.trySend id with
    | accepted | full =>
        apply ((covered.modify id rfl rfl).modify id rfl rfl).go <;>
          simp [doing, pending, carries]
    | disconnected => apply (covered.modify id rfl rfl).go <;> simp [doing, pending, carries]

/-- The union is read and given, and gaps are listed and announced. -/
theorem share (covered : broker.Covered) {said : Answer}
    (gives : broker.GivesUnion (.advance thread said))
    (step : broker.share thread said (broker.doing thread) = some after) : after.Covered := by
  cases doing : broker.doing thread with
  | reading caller left union =>
      cases left with
      | nil =>
          simp only [doing, Broker.share, Option.some.injEq] at step
          rw [← step]
          have passed : (broker.put thread (.giving caller union)).Covered := by
            cases caller <;> apply covered.pass <;> simp [doing, pending, carries]
          exact passed.frame none _ _
      | cons other left =>
          simp only [doing, Broker.share, Option.some.injEq] at step
          rw [← step]
          cases caller <;> apply covered.pass <;> simp [doing, pending, carries]
  | giving caller union =>
      simp only [doing, Broker.share, Option.some.injEq] at step
      rw [← step]
      exact covered.give doing gives
  | listing job =>
      simp only [doing, Broker.share, Option.bind_eq_bind, Option.bind_eq_some_iff,
        Option.some.injEq] at step
      obtain ⟨id, _, rfl⟩ := step
      cases job <;> apply covered.pass <;> simp [doing, pending, carries]
  | asking job roots =>
      simp only [doing, Broker.share, Option.some.injEq] at step
      rw [← step]
      cases job <;> apply covered.pass <;> simp [doing, pending, carries]
  | sifting job roots all =>
      simp only [doing, Broker.share, Option.bind_eq_bind, Option.bind_eq_some_iff,
        Option.some.injEq] at step
      obtain ⟨id, _, rfl⟩ := step
      cases job <;> apply covered.pass <;> simp [doing, pending, carries]
  | announcing ends =>
      simp only [doing, Broker.share] at step
      split at step
      · rw [← Option.some.inj step]
        apply covered.go <;> simp [doing, pending, carries]
      · cases step
  | visiting round =>
      obtain ⟨ends, left⟩ := round
      cases left with
      | nil =>
          simp only [doing, Broker.share, Option.some.injEq] at step
          rw [← step]
          cases ends <;> apply covered.go <;> simp [doing, pending, carries]
      | cons other left =>
          simp only [doing, Broker.share, Option.some.injEq] at step
          rw [← step]
          by_cases none_ : (broker.client other).roots = [] <;> apply covered.go <;>
            simp [none_, doing, pending, carries]
  | comparing other gaps round =>
      simp only [doing, Broker.share, Option.some.injEq] at step
      rw [← step]
      exact covered.announce doing
  | flagging other next =>
      simp only [doing, Broker.share, Option.some.injEq] at step
      rw [← step]
      cases next <;> apply (covered.modify other rfl rfl).go <;>
        simp [resume, doing, pending, carries]
  | _ => simp [Broker.share, doing] at step

theorem fail (covered : broker.Covered) (id : Nat) (message : String) :
    (broker.fail id message).Covered := by
  unfold Broker.fail
  cases broker.trySend id with
  | accepted | full => exact covered.modify id rfl rfl
  | disconnected => exact covered

theorem fail_doing (broker : Broker) (id : Nat) (message : String) :
    (broker.fail id message).doing = broker.doing := by
  unfold Broker.fail
  cases broker.trySend id <;> rfl

/-- A subscriber connects, with no roots. -/
theorem attach (covered : broker.Covered) (peer : Subscriber) :
    Covered { ((broker.modify broker.nextId fun _ => Client.attached peer).put
        (.reader broker.nextId) .idle).put (.writer broker.nextId) .waiting with
      clients := broker.clients ++ [broker.nextId]
      nextId := broker.nextId + 1 } := by
  set after : Broker := { ((broker.modify broker.nextId fun _ => Client.attached peer).put
        (.reader broker.nextId) .idle).put (.writer broker.nextId) .waiting with
      clients := broker.clients ++ [broker.nextId]
      nextId := broker.nextId + 1 } with after_eq
  have self_client : after.client broker.nextId = Client.attached peer := by simp [after_eq]
  have old_client : ∀ id, id ≠ broker.nextId → after.client id = broker.client id := by
    intro id different
    simp [after_eq, modify_client_of_ne different]
  have reader : after.doing (.reader broker.nextId) = .idle := by
    simp only [after_eq]
    rw [put_doing_of_ne (by simp), put_doing_self]
  have old_doing : ∀ thread, thread.client ≠ some broker.nextId →
      after.doing thread = broker.doing thread := by
    intro thread different
    simp only [after_eq]
    rw [put_doing_of_ne (by rintro rfl; exact different rfl),
      put_doing_of_ne (by rintro rfl; exact different rfl)]
    rfl
  have old_reader : ∀ id, id ≠ broker.nextId →
      after.doing (.reader id) = broker.doing (.reader id) :=
    fun id different => old_doing _ fun same => different (Option.some.inj same)
  have way : ∀ thread, broker.OnTheWay thread → after.OnTheWay thread := by
    intro thread on_the_way
    unfold OnTheWay
    rwa [old_doing]
    intro client
    rw [OnTheWay, covered.unstarted thread _ client le_rfl] at on_the_way
    cases on_the_way
  refine ⟨?_, ?_, ?_, ?_, ?_, ?_, ?_⟩
  · intro id connected
    rcases List.mem_append.mp connected with old | new
    · exact Nat.lt_succ_of_lt (covered.attached id old)
    · rw [List.mem_singleton.mp new]
      exact Nat.lt_succ_self _
  · intro thread id client unattached
    have beyond : broker.nextId < id := unattached
    rw [old_doing thread (by rw [client]; simp; omega)]
    exact covered.unstarted thread id client beyond.le
  · refine covered.settled.imp (fun exact_ root => ?_) fun ⟨thread, on_the_way⟩ =>
      ⟨thread, way thread on_the_way⟩
    rw [show after.source = broker.source from rfl, exact_]
    constructor
    · rintro ⟨id, connected, root_mem⟩
      have different := (covered.attached id connected).ne
      exact ⟨id, List.mem_append_left _ connected, (old_client id different).symm ▸ root_mem⟩
    · rintro ⟨id, connected, root_mem⟩
      rcases List.mem_append.mp connected with old | new
      · have different := (covered.attached id old).ne
        exact ⟨id, old, old_client id different ▸ root_mem⟩
      · rw [List.mem_singleton.mp new, self_client] at root_mem
        cases root_mem
  · intro id connected still root root_mem
    by_cases self : id = broker.nextId
    · rw [self, self_client] at root_mem
      cases root_mem
    · rw [old_client id self] at root_mem
      rw [OnTheWay, old_reader id self] at still
      rcases List.mem_append.mp connected with old | new
      · exact covered.held id old still root root_mem
      · exact absurd (List.mem_singleton.mp new) self
  · intro id
    by_cases self : id = broker.nextId
    · simp [self, self_client, Client.attached]
    · rw [old_client id self]
      exact covered.promised id
  · intro id allowed carried
    by_cases self : id = broker.nextId
    · rw [self, reader] at carried
      cases carried
    · rw [old_reader id self] at carried
      rw [old_client id self]
      exact covered.carried id allowed carried
  · intro id busy
    by_cases self : id = broker.nextId
    · rw [self, self_client]
      rfl
    · rw [OnTheWay, old_reader id self] at busy
      rw [old_client id self]
      exact covered.unanswered id busy

/-- Every step that keeps to the condition keeps what holds of the roots. -/
theorem step (covered : broker.Covered) {action : Action} (gives : broker.GivesUnion action)
    (stepped : broker.step action = some after) : after.Covered := by
  cases action with
  | attach peer =>
      simp only [Broker.step] at stepped
      split at stepped
      · rw [← Option.some.inj stepped]
        exact covered.attach peer
      · cases stepped
  | subscribe id roots canonical =>
      simp only [Broker.step] at stepped
      split at stepped
      next idle =>
        rw [← Option.some.inj stepped]
        apply covered.go <;> simp [idle, pending, carries]
      · cases stepped
  | unparsable id error =>
      simp only [Broker.step] at stepped
      split at stepped
      · rw [← Option.some.inj stepped]
        exact covered.fail id _
      · cases stepped
  | tooLong id =>
      simp only [Broker.step] at stepped
      split at stepped
      next idle =>
        rw [← Option.some.inj stepped]
        apply (covered.fail id _).go <;> simp [fail_doing, idle, pending, carries]
      · cases stepped
  | hangUp id =>
      simp only [Broker.step] at stepped
      split at stepped
      next idle =>
        rw [← Option.some.inj stepped]
        apply covered.go <;> simp [idle, pending, carries]
      · cases stepped
  | event index event =>
      simp only [Broker.step] at stepped
      split at stepped
      next idle =>
        rw [← Option.some.inj stepped]
        exact (covered.go (.broadcasting event broker.clients) (by simp [idle.1])
          (by simp [idle.1, pending]) rfl).frame (some (.service index)) _ _
      · cases stepped
  | kernelOverflow index =>
      simp only [Broker.step] at stepped
      split at stepped
      next idle =>
        rw [← Option.some.inj stepped]
        exact (covered.go (.overflowing broker.clients) (by simp [idle.1])
          (by simp [idle.1, pending]) rfl).frame (some (.service index)) _ _
      · cases stepped
  | remark index gaps =>
      simp only [Broker.step] at stepped
      split at stepped
      next idle =>
        rw [← Option.some.inj stepped]
        exact (covered.go (.announcing false) (by simp [idle]) (by simp [idle, pending])
          rfl).frame _ gaps _
      · cases stepped
  | permissions sees =>
      simp only [Broker.step, Option.some.injEq] at stepped
      rw [← stepped]
      exact covered.frame _ _ sees
  | advance thread answer =>
      rcases advance_cases stepped with ⟨id, rfl, wrote⟩ | ⟨id, rfl, applied⟩ |
        ⟨id, client, left⟩ | ⟨index, rfl, delivered⟩ | shared
      · exact covered.write wrote
      · exact covered.apply gives applied
      · exact covered.leave client left
      · exact covered.deliver delivered
      · exact covered.share gives shared

/-- So it holds in every state a run reaches. -/
theorem run (covered : broker.Covered) (ran : Run GivesUnion broker after) : after.Covered := by
  induction ran with
  | refl => exact covered
  | tail _ stepped ih =>
      obtain ⟨action, gives, stepped⟩ := stepped
      exact ih.step gives stepped

end Covered

/-- The filter lets everyone see everything. -/
def openTo : Subscriber → PathBuf → PathBuf → Bool := fun _ _ _ => true

/-- A directory at the top of the filesystem. -/
def top (letter : UInt8) : PathBuf := [.rootDir, .normal [letter]]

/-- A thread goes on, with every root covered and every message written. -/
def on (thread : Thread) : Action := .advance thread ⟨[], [], true⟩

/-- A subscription of a reader up to the union it has read, of `count` subscribers. -/
def subscribing (id : Nat) (root : PathBuf) (count : Nat) : List Action :=
  .subscribe id [root] some :: List.replicate (3 + count) (on (.reader id))

/-- The rest of it, up to the answer. -/
def subscribed (id : Nat) : List Action := List.replicate 6 (on (.reader id))

/-- A check that is enough for a union to be given as it stands, with no root refused. -/
def givesWhole (broker : Broker) : Action → Bool
  | .advance thread _ =>
      match broker.doing thread with
      | .giving _ union =>
          broker.clients.all (fun id => (broker.client id).roots.all fun root => root ∈ union) &&
            union.all fun root => broker.clients.any fun id => root ∈ (broker.client id).roots
      | .refusing _ _ => false
      | _ => true
  | _ => true

theorem givesUnion_of_givesWhole (broker : Broker) (action : Action)
    (whole : broker.givesWhole action = true) : broker.GivesUnion action := by
  cases action with
  | advance thread answer =>
      cases doing : broker.doing thread with
      | giving caller union =>
          simp only [givesWhole, doing, Bool.and_eq_true, List.all_eq_true, List.any_eq_true,
            decide_eq_true_eq] at whole
          simp only [GivesUnion, doing]
          refine ⟨fun id connected => Or.inl (whole.1 id connected), Or.inl fun root => ?_⟩
          constructor
          · exact whole.2 root
          · rintro ⟨id, connected, root_mem⟩
            exact whole.1 id connected root root_mem
      | refusing => simp [givesWhole, doing] at whole
      | _ => simp [GivesUnion, doing]
  | _ => exact trivial

end Broker
end Watchd
end Metafolder
