import Metafolder.Coordination

/-!
# One coordinated revert at a time

Every ending of a revert, and its start, is made with the store in hand: the lock a commit read is
the lock until it lets go of the store, and nothing else was written meanwhile.  A revert that was
written is one whose commit still holds the store.
-/

namespace Metafolder

namespace Revert

theorem effective_spec {log : Log} {locked : List Int64} {ops : List OpRow}
    (found : effective log locked = .ok ops) {op : OpRow} (member : op ∈ ops) :
    ∃ id ∈ locked, log.op id = some op := by
  obtain ⟨id, listed, read⟩ := Except.mem_of_mapM found member
  refine ⟨id, listed, ?_⟩
  cases at_id : log.op id with
  | none => simp [at_id] at read
  | some row => simpa [at_id] using read

theorem narrowToApplied_subset {ops kept : List OpRow} {apply : List Int64}
    {skipped : List (Int64 × String)} (narrowed : narrowToApplied ops apply = .ok (kept, skipped)) :
    kept ⊆ ops := by
  rw [narrowToApplied] at narrowed
  split at narrowed
  · cases narrowed
  · obtain ⟨rfl, -⟩ := Prod.mk.inj (Except.pure_eq_ok.mp narrowed)
    exact List.filter_subset_self _

variable [Externals]

end Revert

namespace Coordination

/-- What the thread that holds the store relies on. -/
def Repo.Fits (repo : Repo) : Work → Prop
  | .enter (.commit _) => written repo.history = false ∧ repo.found = (repo.store, repo.revertLock)
  | .revert _ locked =>
      written repo.history = false ∧ repo.found = (repo.store, repo.revertLock) ∧
        repo.revertLock = some locked
  | .close _ => repo.revertLock.isSome
  | _ => written repo.history = false

/-- What holds of whoever holds the store. -/
def Repo.Held (repo : Repo) : Prop :=
  match repo.conn with
  | some (_, work) => repo.Fits work
  | none => written repo.history = false

/-- What every step keeps. -/
structure Sound [Externals] (settings : Settings) (initial : KvStore) (repo : Repo) : Prop where
  /-- The lock is that of the revert in progress. -/
  lock : repo.revertLock = (inProgress repo.history).map (List.map OpRow.id)
  /-- The store is as the history leaves it. -/
  store : repo.store = storeAfter initial repo.history
  /-- Every event was allowed. -/
  orderly : Orderly settings initial repo.history
  /-- The thread that holds the store may go on. -/
  held : repo.Held

namespace Sound

variable [Externals] {settings : Settings} {initial : KvStore} {repo : Repo} {thread : Nat}

theorem loaded (store : KvStore) (pending : List Queued) :
    Sound settings store (Repo.loaded store pending) :=
  ⟨rfl, rfl, trivial, rfl⟩

theorem none_in_progress (sound : Sound settings initial repo) (free : ¬ repo.revertLock.isSome = true) :
    inProgress repo.history = none := by
  rw [sound.lock, Option.isSome_map, Option.not_isSome_iff_eq_none] at free
  exact free

theorem in_progress (sound : Sound settings initial repo) (taken : repo.revertLock.isSome = true) :
    (inProgress repo.history).isSome = true := by
  rwa [sound.lock, Option.isSome_map] at taken

theorem put (sound : Sound settings initial repo) (doing : Doing) :
    Sound settings initial (repo.put thread doing) :=
  ⟨sound.lock, sound.store, sound.orderly, sound.held⟩

theorem goes (sound : Sound settings initial repo) {work : Work} (fits : repo.Fits work) :
    Sound settings initial (repo.goes thread work) :=
  ⟨sound.lock, sound.store, sound.orderly, fits⟩

theorem answers (sound : Sound settings initial repo) (unwritten : written repo.history = false)
    (answer : Answer) : Sound settings initial (repo.answers thread answer) :=
  sound.goes unwritten

theorem finish (sound : Sound settings initial repo) (after : After) :
    Sound settings initial (repo.finish thread after) := by
  cases after with
  | nothing => exact sound.put _
  | reply reply => exact sound.put _
  | head => exact sound.put _

theorem buffer (sound : Sound settings initial repo) (pending : List Queued) :
    Sound settings initial { repo with pending := pending } :=
  ⟨sound.lock, sound.store, sound.orderly, sound.held⟩

theorem publish (sound : Sound settings initial repo) (slot : RulesSlot) :
    Sound settings initial { repo with slot := slot } :=
  ⟨sound.lock, sound.store, sound.orderly, sound.held⟩

theorem pause (sound : Sound settings initial repo) (paused : Bool) :
    Sound settings initial { repo with paused := paused } :=
  ⟨sound.lock, sound.store, sound.orderly, sound.held⟩

theorem refuse (sound : Sound settings initial repo) (unwritten : written repo.history = false)
    (untouched : repo.found = (repo.store, repo.revertLock)) (failure : Failure) :
    Sound settings initial (repo.refuse thread failure) where
  lock := sound.lock
  store := sound.store
  orderly := ⟨untouched, sound.orderly⟩
  held := unwritten

theorem start (sound : Sound settings initial repo) (unwritten : written repo.history = false)
    (target : Revert.Target) : Sound settings initial (repo.start thread target) := by
  rw [Repo.start]
  split
  · exact sound.answers unwritten _
  · next free =>
    cases Revert.resolveTarget repo.store.log target with
    | error failure => exact sound.answers unwritten _
    | ok ops =>
        exact {
          lock := rfl
          store := sound.store
          orderly := ⟨sound.none_in_progress free, sound.orderly⟩
          held := rfl }

theorem commit (sound : Sound settings initial repo) {apply : List Int64}
    (fits : repo.Fits (.enter (.commit apply))) : Sound settings initial (repo.commit thread apply) := by
  obtain ⟨unwritten, untouched⟩ := fits
  rw [Repo.commit]
  split
  · next locked taken => exact sound.goes ⟨unwritten, untouched, taken⟩
  · exact sound.refuse unwritten untouched _

theorem close (sound : Sound settings initial repo) {reply : Reply}
    (fits : repo.Fits (.close reply)) : Sound settings initial (repo.close thread reply) where
  lock := rfl
  store := sound.store
  orderly := ⟨sound.in_progress fits, sound.orderly⟩
  held := rfl

theorem abort (sound : Sound settings initial repo) (unwritten : written repo.history = false) :
    Sound settings initial (repo.abort thread) := by
  rw [Repo.abort]
  split
  · next taken =>
    exact {
      lock := rfl
      store := sound.store
      orderly := ⟨sound.in_progress taken, sound.orderly⟩
      held := rfl }
  · exact sound.answers unwritten _

theorem leave (sound : Sound settings initial repo) (unwritten : written repo.history = false) :
    Sound settings initial { repo with conn := none } :=
  ⟨sound.lock, sound.store, sound.orderly, unwritten⟩

/-- A thread takes the store. -/
theorem take (sound : Sound settings initial repo) (free : repo.conn = none) (entry : Entry) :
    Sound settings initial { repo with
      conn := some (thread, .enter entry)
      found := (repo.store, repo.revertLock) } := by
  have unwritten : written repo.history = false := by
    have held := sound.held
    rwa [Repo.Held, free] at held
  refine ⟨sound.lock, sound.store, sound.orderly, ?_⟩
  cases entry with
  | commit apply => exact ⟨unwritten, rfl⟩
  | _ => exact unwritten

variable [Patterns]

theorem revert (sound : Sound settings initial repo) {apply locked : List Int64}
    (fits : repo.Fits (.revert apply locked)) (outside : Outside) :
    Sound settings initial (repo.revert settings thread outside apply locked) := by
  obtain ⟨unwritten, untouched, taken⟩ := fits
  have taken_some : repo.revertLock.isSome = true := by rw [taken]; rfl
  rw [Repo.revert]
  split
  · exact sound.refuse unwritten untouched _
  · exact sound.goes taken_some
  · next kept skipped some_kept narrowed =>
    obtain ⟨ops, found, narrowed⟩ := Except.bind_eq_ok.mp narrowed
    split
    · exact sound.refuse unwritten untouched _
    · next label effects after ran =>
      obtain ⟨fixed, current, ids⟩ := Option.map_eq_some_iff.mp (sound.lock ▸ taken)
      -- what is written is under the ids of the lock, which are those the start fixed
      have originals : ∀ op ∈ kept, ∃ original ∈ fixed,
          (storeAfter initial repo.history).log.op original.id = some op := by
        intro op member
        obtain ⟨id, listed, read⟩ :=
          Revert.effective_spec found (Revert.narrowToApplied_subset narrowed member)
        rw [← ids] at listed
        obtain ⟨original, fixed_mem, rfl⟩ := List.mem_map.mp listed
        exact ⟨original, fixed_mem, sound.store ▸ read⟩
      exact {
        lock := sound.lock
        store := rfl
        orderly := ⟨⟨unwritten, ⟨fixed, current, originals⟩, _, _, label, effects, sound.store ▸ ran⟩,
          sound.orderly⟩
        held := taken_some }

theorem flush (sound : Sound settings initial repo) (unwritten : written repo.history = false)
    (after : After) : Sound settings initial (repo.flush settings thread after) := by
  rw [Repo.flush]
  split
  · exact sound.goes unwritten
  · split
    · exact sound.goes unwritten
    · exact ((sound.buffer []).publish _).goes unwritten

theorem group (sound : Sound settings initial repo) (unwritten : written repo.history = false)
    {outside : Outside} {after : After} {taken : List Queued} {events : List FsEvent}
    {write : Option (List FsEvent)} {left : List (Option (List FsEvent))} {rules : WatchRules}
    {next : Repo}
    (stepped : repo.group settings thread outside after taken events write left rules = some next) :
    Sound settings initial next := by
  rw [Repo.group] at stepped
  split at stepped
  · obtain rfl := Option.some.inj stepped
    exact (sound.buffer (taken ++ repo.pending)).answers unwritten _
  · next free =>
    dsimp only at stepped
    split at stepped
    · obtain rfl := Option.some.inj stepped
      exact {
        lock := sound.lock
        store := rfl
        orderly := ⟨sound.none_in_progress free, sound.orderly⟩
        held := unwritten }
    · obtain rfl := Option.some.inj stepped
      exact ((sound.buffer (taken ++ repo.pending)).pause true).goes unwritten
    · obtain rfl := Option.some.inj stepped
      exact (sound.buffer (taken ++ repo.pending)).answers unwritten _
    · cases stepped

theorem write (sound : Sound settings initial repo) (unwritten : written repo.history = false)
    (transaction : Transaction) : Sound settings initial (repo.write settings thread transaction) := by
  rw [Repo.write]
  split
  · exact sound.answers unwritten _
  · next free =>
    split
    · exact sound.answers unwritten _
    · exact {
        lock := sound.lock
        store := rfl
        orderly := ⟨sound.none_in_progress free, sound.orderly⟩
        held := unwritten }

theorem enter (sound : Sound settings initial repo) {entry : Entry} (fits : repo.Fits (.enter entry)) :
    Sound settings initial (repo.enter settings thread entry) := by
  cases entry with
  | start target => exact sound.start fits target
  | commit apply => exact sound.commit fits
  | abort => exact sound.abort fits
  | flush after => exact sound.flush fits after
  | write transaction => exact sound.write fits transaction
  | head => exact sound.answers fits _

theorem works (sound : Sound settings initial repo) {work : Work} (fits : repo.Fits work)
    {outside : Outside} {next : Repo}
    (stepped : repo.works settings thread outside work = some next) : Sound settings initial next := by
  cases work with
  | enter entry => exact Option.some.inj stepped ▸ sound.enter fits
  | revert apply locked => exact Option.some.inj stepped ▸ sound.revert fits outside
  | close reply => exact Option.some.inj stepped ▸ sound.close fits
  | groups after taken events left rules =>
      cases left with
      | nil => exact Option.some.inj stepped ▸ (sound.publish _).goes fits
      | cons write left => exact sound.group fits stepped
  | leave next =>
      cases next with
      | answer answer => exact Option.some.inj stepped ▸ (sound.leave fits).put _
      | flush after => exact Option.some.inj stepped ▸ (sound.leave fits).put _
      | finish after => exact Option.some.inj stepped ▸ (sound.leave fits).finish after

theorem advance (sound : Sound settings initial repo) {outside : Outside} {next : Repo}
    (stepped : repo.advance settings thread outside = some next) : Sound settings initial next := by
  rw [Repo.advance] at stepped
  cases doing : repo.doing thread with
  | idle => simp [doing] at stepped
  | flushes after =>
      simp only [doing, Option.some.injEq] at stepped
      subst stepped
      split
      · exact sound.finish after
      · exact sound.put _
  | unlocked after =>
      simp only [doing, Option.some.injEq] at stepped
      subst stepped
      split
      · exact sound.finish after
      · exact sound.put _
  | unpaused after =>
      simp only [doing, Option.some.injEq] at stepped
      subst stepped
      split
      · exact sound.put _
      · exact (sound.buffer []).finish after
  | writes transaction =>
      simp only [doing, Option.some.injEq] at stepped
      exact stepped ▸ sound.put _
  | awaits entry =>
      simp only [doing] at stepped
      cases conn : repo.conn with
      | none =>
          simp only [conn, Option.some.injEq] at stepped
          exact stepped ▸ (sound.take conn entry).put _
      | some holder => simp [conn] at stepped
  | holds =>
      simp only [doing] at stepped
      cases conn : repo.conn with
      | none => simp [conn] at stepped
      | some holder =>
          simp only [conn] at stepped
          split at stepped
          · have held := sound.held
            rw [Repo.Held, conn] at held
            exact sound.works held stepped
          · cases stepped
  | answered answer => simp [doing] at stepped

theorem step (sound : Sound settings initial repo) {action : Action} {next : Repo}
    (stepped : repo.step settings action = some next) : Sound settings initial next := by
  cases action with
  | ask thread request =>
      rw [Repo.step] at stepped
      split at stepped
      · exact Option.some.inj stepped ▸ sound.put _
      · cases stepped
  | advance thread outside => exact sound.advance stepped
  | buffer event => exact Option.some.inj stepped ▸ sound.buffer _
  | pause paused => exact Option.some.inj stepped ▸ sound.pause paused

theorem run {actions : List Action} (sound : Sound settings initial repo) {last : Repo}
    (ran : repo.run settings actions = some last) : Sound settings initial last := by
  induction actions generalizing repo with
  | nil => exact Option.some.inj ran ▸ sound
  | cons action rest ih =>
      obtain ⟨next, stepped, rest_ran⟩ := Option.bind_eq_some_iff.mp ran
      exact ih (sound.step stepped) rest_ran

end Sound

/-- One coordinated revert is in progress at a time: it is started when none is, written at most once
and only where its start fixed it, before its one ending; a commit refused changed neither the store
nor the lock; and no flush writes while one is in progress. -/
theorem one_revert_at_a_time [Externals] [Patterns] (settings : Settings) {store : KvStore}
    {pending : List Queued} {actions : List Action} {repo : Repo}
    (ran : (Repo.loaded store pending).run settings actions = some repo) :
    (∀ later event earlier, repo.history = later ++ event :: earlier →
      Allowed settings store earlier event) ∧
      repo.store = storeAfter store repo.history ∧
      repo.revertLock = (inProgress repo.history).map (List.map OpRow.id) := by
  have sound := (Sound.loaded store pending).run ran
  exact ⟨fun _ _ _ split => sound.orderly.allowed split, sound.store, sound.lock⟩

/-- What the steps of the sample meet outside: no file is there. -/
def sampleOutside : Outside where
  context := .new ⟨"revert", none, none⟩
  timestamp := 3
  batch :=
    { disk := fun _ => ⟨fun _ => none, fun _ => none⟩
      made := fun _ => sampleUuids 9
      fuel := 1
      departed := []
      moved := []
      arriving := [] }

/-- Some steps of one thread. -/
def sampleSteps (thread count : Nat) : List Action :=
  List.replicate count (.advance thread sampleOutside)

/-- A flush waits for the store while a start takes the lock; another start is refused, then a commit
of what was not started, then the operation is reverted and the buffer flushed. -/
def sampleCoordination : List Action :=
  [.ask 0 (.write sampleCreate)] ++ sampleSteps 0 4 ++
    [.buffer (.create [.ofString "a"], none), .ask 1 .flush] ++ sampleSteps 1 3 ++
    [.ask 2 (.start { opIds := some [1] })] ++ sampleSteps 2 3 ++ sampleSteps 1 3 ++
    [.ask 3 (.start { opIds := some [1] })] ++ sampleSteps 3 3 ++
    [.ask 4 (.commit [2])] ++ sampleSteps 4 4 ++
    [.ask 5 (.commit [1])] ++ sampleSteps 5 13

/-- An event, told apart from the others. -/
def Event.kind : Event → Nat
  | .started _ => 0
  | .reverted _ _ => 1
  | .committed => 2
  | .aborted => 3
  | .refused _ _ => 4
  | .flushed _ => 5
  | .wrote _ => 6

theorem sampleCoordination_run :
    letI : Externals := plainExternals
    letI : Patterns := plainPatterns
    ((Repo.loaded {} []).run ⟨.unlimited, false⟩ sampleCoordination).map
        (fun repo => (repo.history.map Event.kind, repo.revertLock,
          (repo.store.tx.primary.version (sampleUuids 1)).isNone)) =
      some ([5, 2, 1, 4, 0, 6], none, true) := by
  decide +kernel

theorem one_revert_at_a_time_sample :
    letI : Externals := plainExternals
    letI : Patterns := plainPatterns
    ∃ repo : Repo, repo.history.map Event.kind = [5, 2, 1, 4, 0, 6] ∧
      (∀ later event earlier, repo.history = later ++ event :: earlier →
        Allowed ⟨.unlimited, false⟩ {} earlier event) ∧
      repo.store = storeAfter {} repo.history ∧ inProgress repo.history = none := by
  let _ : Externals := plainExternals
  let _ : Patterns := plainPatterns
  obtain ⟨repo, ran, found⟩ := Option.map_eq_some_iff.mp sampleCoordination_run
  simp only [Prod.mk.injEq] at found
  obtain ⟨kinds, lock, -⟩ := found
  obtain ⟨allowed, store, held⟩ := one_revert_at_a_time ⟨.unlimited, false⟩ ran
  refine ⟨repo, kinds, allowed, store, ?_⟩
  rwa [lock, eq_comm, Option.map_eq_none_iff] at held

end Coordination

end Metafolder
