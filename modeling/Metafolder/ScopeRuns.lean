import Metafolder.Scoped

/-!
# Runs of the group

In every run that drops no move of a directory for a full queue, and lifts every ignore mark it is
to lift, what is remembered once the queue has been read to its end is right, and no entry of a
directory under a root is missed.
-/

namespace Metafolder
namespace Watchd

namespace Group

/-- What is remembered is right: every verdict on a directory that lives, and every ignore mark; so
every event of an entry of a directory under a root is queued, and told. -/
structure Faithful (group : Group) : Prop where
  verdicts : ∀ entry ∈ group.translator.scope.verdicts, group.kernel.LiveDir entry.1 →
    entry.2 = group.kernel.under group.roots entry.1
  marks : ∀ handle ∈ group.kernel.ignored, group.kernel.LiveDir handle →
    group.kernel.under group.roots handle = false
  heard : ∀ (raw : RawEvent) (dir : Handle) (name : Bytes), raw.parent = some (dir, name) →
    group.kernel.LiveDir dir → group.kernel.under group.roots dir = true →
      group.kernel.silences raw = false ∧ (group.relevant raw).1 = true

namespace Sound

variable {rest : List RawEvent} {group : Group}

theorem does (sound : Sound [] [] false group) (op : Op) : Sound [] [] false (group.does op) :=
  sound.lead rfl (Kernel.does_leads _ _)

theorem cover (sound : Sound [] [] false group) (roots : List PathBuf)
    (base : Nat → Option PathBuf) : Sound [] [] false (group.cover roots base) := by
  refine ⟨fun _ member => ?_, fun _ member => ?_, fun _ member => ?_, sound.moved, sound.tidy⟩
  · cases member
  · cases member
  · cases member

/-- What is taken off the queue is still to be translated. -/
theorem take (sound : Sound [] [] false group) (count : Nat) (meanwhile : List Meanwhile) :
    Sound ((group.kernel.queue.take count).filter fun raw => !raw.mask.qOverflow) [] false
      { group with kernel.queue := group.kernel.queue.drop count, coming := meanwhile } := by
  have moving : Moving [] group.kernel →
      Moving ((group.kernel.queue.take count).filter fun raw => !raw.mask.qOverflow)
        { group.kernel with queue := group.kernel.queue.drop count } := by
    rintro (⟨_, member, -⟩ | ⟨raw, member, moves⟩)
    · cases member
    · rcases List.mem_append.mp member with queued | lost
      · rw [← List.take_append_drop count group.kernel.queue] at queued
        rcases List.mem_append.mp queued with taken | left
        · refine .inl ⟨raw, List.mem_filter.mpr ⟨taken, ?_⟩, moves⟩
          cases overflow : raw.mask.qOverflow with
          | false => rfl
          | true =>
              have still := sound.tidy raw (List.mem_of_mem_take taken) overflow
              rw [still] at moves
              cases moves
        · exact .inr ⟨raw, List.mem_append_left _ left, moves⟩
      · exact .inr ⟨raw, List.mem_append_right _ lost, moves⟩
  have tells : ∀ {handle told}, Tells [] group.kernel group.roots handle told →
      Tells ((group.kernel.queue.take count).filter fun raw => !raw.mask.qOverflow)
        { group.kernel with queue := group.kernel.queue.drop count } group.roots handle told :=
    fun ⟨object, found, tells⟩ => ⟨object, found, fun live => (tells live).imp_right moving⟩
  refine ⟨fun entry member => tells (sound.cache entry member),
    fun entry member => tells (sound.verdicts entry member), ?_, sound.moved, ?_⟩
  · intro handle member
    obtain ⟨object, found, marked⟩ := sound.marks handle member
    exact ⟨object, found, fun live => (marked live).imp_right
      (Or.imp_right (And.imp_right (Or.imp_right (Or.imp_left moving))))⟩
  · exact fun raw member => sound.tidy raw (List.mem_of_mem_drop member)

theorem read (sound : Sound [] [] false group) (count : Nat) (meanwhile : List Meanwhile) :
    Sound [] [] false (group.read count meanwhile).2 := by
  obtain ⟨stirred, translated⟩ := (sound.take count meanwhile).translateBatch _
  have settled := translated.settleIgnores
  exact ⟨settled.cache, settled.verdicts, settled.marks, settled.moved, settled.tidy⟩

theorem step (sound : Sound [] [] false group) (step : Step) :
    Sound [] [] false (group.step step) := by
  cases step with
  | does op => exact sound.does op
  | read count meanwhile => exact sound.read count meanwhile
  | cover roots base => exact sound.cover roots base

theorem run (steps : List Step) (sound : Sound [] [] false group) :
    Sound [] [] false (group.run steps) := by
  induction steps generalizing group with
  | nil => exact sound
  | cons step later ih => exact ih (sound.step step)

theorem opened (objects : List Object) (maxEvents ignoreAfter ignoredMax : Nat) :
    Sound [] [] false (opened objects maxEvents ignoreAfter ignoredMax) := by
  refine ⟨fun _ member => ?_, fun _ member => ?_, fun _ member => ?_, rfl, fun _ member => ?_⟩
  · cases member
  · cases member
  · cases member
  · cases member

end Sound

theorem step_coming (group : Group) (step : Step) (idle : group.coming = []) :
    (group.step step).coming = [] := by
  cases step with
  | does op => exact idle
  | read count meanwhile => rfl
  | cover roots base => exact idle

theorem run_coming (steps : List Step) (group : Group) (idle : group.coming = []) :
    (group.run steps).coming = [] := by
  induction steps generalizing group with
  | nil => exact idle
  | cons step later ih => exact ih _ (group.step_coming step idle)

theorem ask_of_idle {group : Group} (idle : group.coming = []) : group.ask = ({}, group) := by
  rw [ask, idle]

/-- A directory under a root is found to be, by what is remembered of it or by asking. -/
theorem dirUnderRoot_of_under {group : Group} (idle : group.coming = []) {dir : Handle}
    (under : group.kernel.under group.roots dir = true)
    (cache : ∀ entry ∈ group.translator.cache, entry.1 = dir →
      underRoot group.roots entry.2 = true)
    (verdicts : ∀ entry ∈ group.translator.scope.verdicts, entry.1 = dir → entry.2 = true) :
    (group.dirUnderRoot dir).1 = true := by
  rw [dirUnderRoot]
  split
  · next verdict found =>
    obtain ⟨before, after, split, -⟩ := List.lookup_eq_some_iff.mp found
    exact verdicts (dir, verdict) (split ▸ List.mem_append_right _ List.mem_cons_self) rfl
  · rw [resolve, ask_of_idle idle]
    dsimp only
    rw [Kernel.under] at under
    obtain ⟨path, there, inside⟩ := (Option.any_eq_true _ _).mp under
    simp only [Bool.false_eq_true, if_false, if_true, there]
    cases found : group.translator.cache.lookup dir with
    | some held =>
        obtain ⟨before, after, split, -⟩ := List.lookup_eq_some_iff.mp found
        exact cache (dir, held) (split ▸ List.mem_append_right _ List.mem_cons_self) rfl
    | none => exact inside

/-- An event of an entry of a directory under a root is told. -/
theorem relevant_of_under {group : Group} (idle : group.coming = []) {raw : RawEvent} {dir : Handle}
    {name : Bytes} (parent : raw.parent = some (dir, name))
    (under : group.kernel.under group.roots dir = true)
    (cache : ∀ entry ∈ group.translator.cache, entry.1 = dir →
      underRoot group.roots entry.2 = true)
    (verdicts : ∀ entry ∈ group.translator.scope.verdicts, entry.1 = dir → entry.2 = true) :
    (group.relevant raw).1 = true := by
  have first : ∃ others, dirsOf raw = dir :: others := by simp [dirsOf, parent]
  obtain ⟨others, dirs⟩ := first
  have found : ((if raw.isDirectoryMove then group.unjudge else group).dirUnderRoot dir).1 = true := by
    split
    · have forgot : group.unjudge.coming = [] := idle
      exact dirUnderRoot_of_under forgot under cache fun _ member => nomatch member
    · exact dirUnderRoot_of_under idle under cache verdicts
  rw [relevant, dirs, someUnderRoot]
  dsimp only
  rw [found]
  rfl

/-- Once every move of a directory was read, what is remembered is right. -/
theorem Sound.faithful {group : Group} (sound : Sound [] [] false group) (idle : group.coming = [])
    (still : ¬ group.kernel.Moved) (lifted : group.kernel.missed = []) : Faithful group := by
  have settled : ¬ Moving [] group.kernel := by
    rintro (⟨_, member, -⟩ | moved)
    · cases member
    · exact still moved
  have marks : ∀ handle ∈ group.kernel.ignored, group.kernel.LiveDir handle →
      group.kernel.under group.roots handle = false := by
    intro handle member live
    obtain ⟨object, found, marked⟩ := sound.marks handle member
    obtain missed | listed | ⟨-, outside | moving | stirs⟩ := marked live
    · exact absurd lifted missed
    · cases listed
    · exact outside
    · exact absurd moving settled
    · cases stirs
  refine ⟨?_, marks, ?_⟩
  · intro entry member live
    obtain ⟨object, found, tells⟩ := sound.verdicts entry member
    exact (tells live).resolve_right settled
  · intro raw dir name parent live under
    constructor
    · rw [Kernel.silences, parent, Option.any_some]
      cases held : group.kernel.ignored.contains dir with
      | false => rfl
      | true =>
          have outside := marks dir (List.contains_iff_mem.mp held) live
          rw [outside] at under
          cases under
    · refine relevant_of_under idle parent under ?_ ?_
      · rintro entry member rfl
        obtain ⟨object, found, tells⟩ := sound.cache entry member
        exact ((tells live).resolve_right settled).trans under
      · rintro entry member rfl
        obtain ⟨object, found, tells⟩ := sound.verdicts entry member
        exact ((tells live).resolve_right settled).trans under

/-- In every run, once the queue is read to its end, what is remembered is right, if no move of a
directory was dropped and no lifting missed. -/
theorem faithful_of_run (objects : List Object) (maxEvents ignoreAfter ignoredMax : Nat)
    (steps : List Step)
    (read : ((opened objects maxEvents ignoreAfter ignoredMax).run steps).kernel.queue = [])
    (kept : ∀ raw ∈ ((opened objects maxEvents ignoreAfter ignoredMax).run steps).kernel.dropped,
      raw.isDirectoryMove = false)
    (lifted : ((opened objects maxEvents ignoreAfter ignoredMax).run steps).kernel.missed = []) :
    Faithful ((opened objects maxEvents ignoreAfter ignoredMax).run steps) := by
  apply (Sound.run steps (Sound.opened _ _ _ _)).faithful (run_coming steps _ rfl) _ lifted
  rintro ⟨raw, member, moves⟩
  rw [read, List.nil_append] at member
  rw [kept raw member] at moves
  cases moves

/-- A directory outside the root is moved into it once an entry of it was judged. -/
def sampleObjects : List Object :=
  [⟨0, some [], true⟩, ⟨0, some [[114]], true⟩, ⟨0, some [[111]], true⟩]

def sampleRun : List Step :=
  [.cover [[.normal [109], .normal [114]]] fun fs => if fs = 0 then some [.normal [109]] else none,
    .does (.create 2 [97] false), .read 1 [], .does (.create 2 [98] false),
    .does (.rename 2 1 [111]), .read 2 []]

theorem faithful_of_sampleRun : Faithful ((opened sampleObjects 8 1 1024).run sampleRun) :=
  faithful_of_run sampleObjects 8 1 1024 sampleRun (by decide +kernel) (by decide +kernel)
    (by decide +kernel)

/-- With room for one event the move is dropped, and the verdict stays. -/
theorem unfaithful_of_overflow :
    ¬ ∀ (objects : List Object) (maxEvents ignoreAfter ignoredMax : Nat) (steps : List Step),
      ((opened objects maxEvents ignoreAfter ignoredMax).run steps).kernel.queue = [] →
        Faithful ((opened objects maxEvents ignoreAfter ignoredMax).run steps) := by
  intro claimed
  have faithful := claimed sampleObjects 1 1000 1024 sampleRun (by decide +kernel)
  have verdict : ((2, false) : Handle × Bool) ∈
      ((opened sampleObjects 1 1000 1024).run sampleRun).translator.scope.verdicts := by
    decide +kernel
  have live : ((opened sampleObjects 1 1000 1024).run sampleRun).kernel.LiveDir 2 :=
    ⟨⟨0, some [[114], [111]], true⟩, by decide +kernel, rfl, rfl⟩
  have under : ((opened sampleObjects 1 1000 1024).run sampleRun).kernel.under
      ((opened sampleObjects 1 1000 1024).run sampleRun).roots 2 = true := by
    decide +kernel
  have same := faithful.verdicts (2, false) verdict live
  rw [under] at same
  cases same

end Group

end Watchd
end Metafolder
