import Metafolder.FsEvents

/-!
# What grouping keeps

An event joins an earlier write only past writes that share no path with it: the writes, one after
the other, are the batch in an order that keeps every two related events as they came.
-/

namespace Metafolder

/-! ### Related events -/

/-- Two paths are the same, or one is above the other. -/
def RelPath.Related (path other : RelPath) : Prop := path <+: other ∨ other <+: path

/-- Two events share a path: a path of one is a path of the other, or above or below one. -/
def FsEvent.SharesAPath (event other : FsEvent) : Prop :=
  ∃ path ∈ event.paths, ∃ otherPath ∈ other.paths, path.Related otherPath

theorem RelPath.mem_upward {path above : RelPath} : above ∈ path.upward ↔ above <+: path := by
  unfold upward
  rw [List.mem_map]
  constructor
  · rintro ⟨n, -, rfl⟩
    exact List.take_prefix n path
  · intro isPrefix
    have := isPrefix.length_le
    exact ⟨above.length, by simp; omega, (List.prefix_iff_eq_take.mp isPrefix).symm⟩

/-- What is above a path is the path itself or above its parent. -/
theorem RelPath.eq_or_above_parent {path above : RelPath} (isPrefix : above <+: path) :
    above = path ∨ above <+: path.parent := by
  rcases List.eq_nil_or_concat path with rfl | ⟨parent, name, rfl⟩
  · exact Or.inl (List.prefix_nil.mp isPrefix)
  · rw [List.concat_eq_append] at isPrefix ⊢
    rcases List.prefix_concat_iff.mp isPrefix with same | below
    · exact Or.inl (by simpa using same)
    · exact Or.inr (by simpa [RelPath.parent] using below)

namespace EventGroup

/-! ### A write and its events -/

/-- A write holds events of its kind, their paths, and those above them. -/
structure Sound (write : EventGroup) : Prop where
  kind : ∀ event ∈ write.events, event.kind = write.kind
  paths : write.paths = write.events.flatMap FsEvent.paths
  above : write.above = write.paths.flatMap RelPath.upward

namespace Sound

variable {write : EventGroup}

theorem add (sound : Sound write) {event : FsEvent} (kind : event.kind = write.kind) :
    Sound (write.add event) where
  kind := by
    intro other listed
    rcases List.mem_append.mp listed with before | last
    · exact sound.kind other before
    · rw [List.mem_singleton.mp last]
      exact kind
  paths := by simp [EventGroup.add, sound.paths]
  above := by simp [EventGroup.add, sound.above]

/-- A write of one event. -/
theorem single (event : FsEvent) : Sound (({ kind := event.kind } : EventGroup).add event) :=
  add { kind := by simp, paths := rfl, above := rfl } rfl

/-- An event that may pass a write shares no path with its events. -/
theorem not_sharesAPath (sound : Sound write) {event other : FsEvent} (listed : other ∈ write.events)
    (passes : write.sharesAPath event.paths = false) : ¬event.SharesAPath other := by
  rintro ⟨path, ofEvent, otherPath, ofOther, related⟩
  have held : otherPath ∈ write.paths := by
    rw [sound.paths]
    exact List.mem_flatMap.mpr ⟨other, listed, ofOther⟩
  have passesHere := List.any_eq_false.mp passes path ofEvent
  simp only [Bool.or_eq_true, decide_eq_true_eq, List.any_eq_true, not_or, not_exists,
    not_and] at passesHere
  obtain ⟨notAbove, notBelow⟩ := passesHere
  have isAbove {above : RelPath} (isPrefix : above <+: otherPath) : above ∈ write.above := by
    rw [sound.above]
    exact List.mem_flatMap.mpr ⟨otherPath, held, RelPath.mem_upward.mpr isPrefix⟩
  rcases related with above | below
  · exact notAbove (isAbove above)
  · rcases RelPath.eq_or_above_parent below with same | below
    · exact notAbove (isAbove (same ▸ List.prefix_refl _))
    · exact notBelow otherPath (RelPath.mem_upward.mpr below) held

end Sound

/-! ### Where an event goes -/

/-- The write an event joins is of its kind, and shares a path with none after it. -/
theorem target_eq_some {kind : GroupKind} {paths : List RelPath} {writes : List EventGroup}
    {i : Nat} (found : target kind paths writes.zipIdx.reverse = some i) :
    ∃ before write after, writes = before ++ write :: after ∧ before.length = i ∧
      write.kind = kind ∧ ∀ later ∈ after, later.sharesAPath paths = false := by
  induction writes using List.reverseRecOn with
  | nil => simp [target] at found
  | append_singleton writes last ih =>
      rw [List.zipIdx_append, List.reverse_append] at found
      simp only [List.zipIdx_cons, List.zipIdx_nil, List.reverse_cons, List.reverse_nil,
        List.nil_append, List.cons_append, target] at found
      split at found
      · next same =>
          obtain rfl : writes.length = i := by simpa using found
          exact ⟨writes, last, [], rfl, rfl, same, by simp⟩
      · split at found
        · cases found
        · next passes =>
            obtain ⟨before, write, after, rfl, isLength, same, unrelated⟩ := ih found
            refine ⟨before, write, after ++ [last], by simp, isLength, same, fun later listed => ?_⟩
            rcases List.mem_append.mp listed with earlier | isLast
            · exact unrelated later earlier
            · rw [List.mem_singleton.mp isLast]
              simpa using passes

/-! ### The order of the events -/

/-- Two numbered events stand in the order they came, unless they share no path. -/
def InOrder (event later : FsEvent × Nat) : Prop :=
  event.1.SharesAPath later.1 → event.2 < later.2

/-- Writes hold a batch: each is sound, and their events, one write after the other, are those of
the batch in an order that keeps every two related events as they came. -/
structure Arranges (writes : List EventGroup) (events : List FsEvent) : Prop where
  sound : ∀ write ∈ writes, Sound write
  order : ∃ arranged : List (FsEvent × Nat),
    arranged.map Prod.fst = writes.flatMap EventGroup.events ∧ arranged.Perm events.zipIdx ∧
      arranged.Pairwise InOrder

/-- An entry stands after those it must follow and before those it may pass. -/
theorem pairwise_insert {α : Type} {R : α → α → Prop} {front back : List α} {entry : α}
    (ordered : (front ++ back).Pairwise R) (follows : ∀ earlier ∈ front, R earlier entry)
    (passes : ∀ later ∈ back, R entry later) : (front ++ entry :: back).Pairwise R := by
  obtain ⟨inFront, inBack, across⟩ := List.pairwise_append.mp ordered
  refine List.pairwise_append.mpr ⟨inFront, List.pairwise_cons.mpr ⟨passes, inBack⟩, ?_⟩
  intro earlier inFront later listed
  rcases List.mem_cons.mp listed with rfl | behind
  · exact follows earlier inFront
  · exact across earlier inFront later behind

theorem modify_length_append {α : Type} (change : α → α) (before : List α) (entry : α)
    (after : List α) :
    (before ++ entry :: after).modify before.length change = before ++ change entry :: after := by
  induction before with
  | nil => rfl
  | cons first before ih => simpa using ih

namespace Arranges

variable {writes : List EventGroup} {events : List FsEvent} {event : FsEvent}

/-- An event that joins no write is last. -/
theorem last (arranges : Arranges writes events) (event : FsEvent) :
    Arranges (writes ++ [({ kind := event.kind } : EventGroup).add event]) (events ++ [event]) := by
  obtain ⟨sound, arranged, same, perm, ordered⟩ := arranges
  refine ⟨?_, arranged ++ [(event, events.length)], ?_, ?_, ?_⟩
  · intro write listed
    rcases List.mem_append.mp listed with earlier | isLast
    · exact sound write earlier
    · rw [List.mem_singleton.mp isLast]
      exact Sound.single event
  · simp [same, EventGroup.add]
  · simpa [List.zipIdx_append] using perm.append_right [(event, events.length)]
  · rw [← List.append_nil arranged] at ordered
    refine pairwise_insert ordered ?_ (by simp)
    exact fun earlier listed _ => List.snd_lt_of_mem_zipIdx (perm.mem_iff.mp listed)

/-- An event joins a write past writes that share no path with it. -/
theorem join {before after : List EventGroup} {write : EventGroup}
    (arranges : Arranges (before ++ write :: after) events) (kind : event.kind = write.kind)
    (unrelated : ∀ later ∈ after, later.sharesAPath event.paths = false) :
    Arranges (before ++ write.add event :: after) (events ++ [event]) := by
  obtain ⟨sound, arranged, same, perm, ordered⟩ := arranges
  have isSplit : arranged.map Prod.fst =
      (before.flatMap EventGroup.events ++ write.events) ++ after.flatMap EventGroup.events := by
    simp [same]
  obtain ⟨front, back, rfl, isFront, isBack⟩ := List.map_eq_append_iff.mp isSplit
  refine ⟨?_, front ++ (event, events.length) :: back, ?_, ?_, ?_⟩
  · intro other listed
    rcases List.mem_append.mp listed with earlier | here
    · exact sound other (List.mem_append_left _ earlier)
    · rcases List.mem_cons.mp here with rfl | later
      · exact (sound write (by simp)).add kind
      · exact sound other (by simp [later])
  · simp [isFront, isBack, EventGroup.add]
  · have moved : (front ++ (event, events.length) :: back).Perm
        ((front ++ back) ++ [(event, events.length)]) := by
      rw [List.append_assoc]
      exact (List.perm_append_singleton _ back).symm.append_left front
    simpa [List.zipIdx_append] using moved.trans (perm.append_right [(event, events.length)])
  · refine pairwise_insert ordered ?_ ?_
    · intro earlier inFront _
      exact List.snd_lt_of_mem_zipIdx (perm.mem_iff.mp (List.mem_append_left _ inFront))
    · -- What stands after the write shares no path with the event.
      intro later inBack shares
      have listed : later.1 ∈ after.flatMap EventGroup.events :=
        isBack ▸ List.mem_map_of_mem inBack
      obtain ⟨passed, isLater, ofPassed⟩ := List.mem_flatMap.mp listed
      have passedSound := sound passed (by simp [isLater])
      exact absurd shares (passedSound.not_sharesAPath ofPassed (unrelated passed isLater))

theorem place (arranges : Arranges writes events) (event : FsEvent) :
    Arranges (EventGroup.place writes event) (events ++ [event]) := by
  unfold EventGroup.place
  cases found : target event.kind event.paths writes.zipIdx.reverse with
  | none => exact arranges.last event
  | some i =>
      obtain ⟨before, write, after, rfl, rfl, same, unrelated⟩ := target_eq_some found
      simp only [modify_length_append]
      exact arranges.join same.symm unrelated

theorem foldl (arranges : Arranges writes events) (batch : List FsEvent) :
    Arranges (batch.foldl EventGroup.place writes) (events ++ batch) := by
  induction batch generalizing writes events with
  | nil => simpa using arranges
  | cons event batch ih => simpa using ih (arranges.place event)

end Arranges

end EventGroup

/-- The writes of a batch, one after the other, are a permutation of it in which every two events
that share a path stand as they came; each write holds events of its kind. -/
theorem group_keeps_order (events : List FsEvent) :
    (∃ arranged : List (FsEvent × Nat),
      arranged.map Prod.fst = (group events).flatMap Prod.snd ∧
        arranged.Perm events.zipIdx ∧
        arranged.Pairwise fun event later => event.1.SharesAPath later.1 → event.2 < later.2) ∧
      ∀ write ∈ group events, ∀ event ∈ write.2, event.kind = write.1 := by
  have start : EventGroup.Arranges [] [] := ⟨by simp, [], rfl, by simp, List.Pairwise.nil⟩
  obtain ⟨sound, arranged, same, perm, ordered⟩ := start.foldl events
  refine ⟨⟨arranged, ?_, perm, ordered⟩, ?_⟩
  · rw [same, group, List.flatMap_map]
  · intro write listed event held
    obtain ⟨built, isBuilt, rfl⟩ := List.mem_map.mp listed
    exact (sound built isBuilt).kind event held

end Metafolder
