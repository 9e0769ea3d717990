import Mathlib.Data.List.Chain
import Mathlib.Tactic.Common

/-!
# Walks some steps of which are lost

Something goes from place to place, and not every step it takes is told.  The steps told follow on
from one another just when what is lost between two of them leads back to where it began.
-/

namespace LostSteps

variable {π : Type}

/-- A step, and whether it is told. -/
structure Step (π : Type) where
  source : π
  target : π
  told : Bool
  deriving DecidableEq

/-- Each step starts where the one before it ended. -/
def Walk (steps : List (Step π)) : Prop :=
  steps.IsChain fun one other => one.target = other.source

/-- Each move starts where the one before it ended. -/
def Joined (moves : List (π × π)) : Prop := moves.IsChain fun one other => one.2 = other.1

/-- A step, as a move. -/
def Step.move (step : Step π) : π × π := (step.source, step.target)

/-- The moves told. -/
def told (steps : List (Step π)) : List (π × π) := (steps.filter Step.told).map Step.move

/-- A stretch of steps that leads back to where it began. -/
def Returns (stretch : List (Step π)) : Prop :=
  ∀ first ∈ stretch.head?, ∀ last ∈ stretch.getLast?, last.target = first.source

/-- What is lost between two steps told leads back to where it began. -/
def Closed (steps : List (Step π)) : Prop :=
  ∀ before one lost other after, steps = before ++ one :: (lost ++ other :: after) →
    one.told = true → other.told = true → (∀ step ∈ lost, step.told = false) → Returns lost

/-- What is lost after the last step told leads back to where it began, or to where a step that is
told leads from there. -/
def Ended (steps : List (Step π)) : Prop :=
  ∀ before one lost, steps = before ++ one :: lost → one.told = true →
    (∀ step ∈ lost, step.told = false) →
      Returns lost ∨ ∃ first ∈ lost.head?, ∃ last ∈ lost.getLast?,
        (first.source, last.target) ∈ told steps

theorem told_cons (step : Step π) (rest : List (Step π)) :
    told (step :: rest) = if step.told then step.move :: told rest else told rest := by
  rw [told, List.filter_cons]
  split
  · rfl
  · rfl

theorem told_append (steps more : List (Step π)) :
    told (steps ++ more) = told steps ++ told more := by
  rw [told, List.filter_append, List.map_append]
  rfl

/-- Nothing is told of what is lost, and of nothing else. -/
theorem told_eq_nil {lost : List (Step π)} :
    told lost = [] ↔ ∀ step ∈ lost, step.told = false := by
  rw [told, List.map_eq_nil_iff, List.filter_eq_nil_iff]
  refine forall₂_congr fun step _ => ?_
  rw [Bool.not_eq_true]

/-- Between two steps of a walk, what comes in between starts where the first ends and ends where the
second starts. -/
theorem Walk.between {one other : Step π} {lost after : List (Step π)}
    (walk : Walk (one :: (lost ++ other :: after))) :
    Returns lost ↔ one.target = other.source := by
  cases lost with
  | nil =>
      have joined : one.target = other.source := (List.isChain_cons_cons.mp walk).1
      exact ⟨fun _ => joined, fun _ _ nothing => by cases nothing⟩
  | cons first rest =>
      have start : one.target = first.source := (List.isChain_cons_cons.mp walk).1
      have finish : ∀ last ∈ (first :: rest).getLast?, last.target = other.source := by
        intro last ends
        have tail : Walk ((first :: rest) ++ other :: after) := (List.isChain_cons_cons.mp walk).2
        exact (List.isChain_append.mp tail).2.2 last ends other rfl
      obtain ⟨last, ends⟩ : ∃ last, (first :: rest).getLast? = some last :=
        ⟨_, List.getLast?_eq_some_getLast (List.cons_ne_nil _ _)⟩
      constructor
      · intro returns
        exact start.trans ((returns first rfl last ends).symm.trans (finish last ends))
      · intro same head begins final ending
        cases begins
        exact (finish final ending).trans (same.symm.trans start)

/-- What the first step asks of those after it. -/
theorem closed_cons {step : Step π} {rest : List (Step π)} :
    Closed (step :: rest) ↔ Closed rest ∧ (step.told = true → ∀ lost other after,
      rest = lost ++ other :: after → other.told = true →
        (∀ between ∈ lost, between.told = false) → Returns lost) := by
  constructor
  · intro closed
    refine ⟨fun before one lost other after split => ?_, fun first lost other after split => ?_⟩
    · exact closed (step :: before) one lost other after (by rw [split, List.cons_append])
    · exact closed [] step lost other after (by rw [split, List.nil_append]) first
  · intro ⟨closed, begins⟩ before one lost other after split first last silent
    cases before with
    | nil =>
        obtain ⟨rfl, rfl⟩ := List.cons.inj split
        exact begins first lost other after rfl last silent
    | cons head before =>
        obtain ⟨-, split⟩ := List.cons.inj split
        exact closed before one lost other after split first last silent

/-- The next step that is told. -/
theorem told_head {steps : List (Step π)} {move : π × π} :
    (told steps).head? = some move ↔ ∃ lost other after, steps = lost ++ other :: after ∧
      other.told = true ∧ (∀ step ∈ lost, step.told = false) ∧ other.move = move := by
  induction steps with
  | nil => simp [told]
  | cons step rest ih =>
      rw [told_cons]
      cases here : step.told with
      | true =>
          rw [if_pos rfl, List.head?_cons, Option.some.injEq]
          constructor
          · intro same
            exact ⟨[], step, rest, rfl, here, fun _ nothing => absurd nothing List.not_mem_nil, same⟩
          · intro ⟨lost, other, after, split, tells, silent, same⟩
            cases lost with
            | nil =>
                obtain ⟨rfl, -⟩ := List.cons.inj split
                exact same
            | cons head lost =>
                obtain ⟨rfl, -⟩ := List.cons.inj split
                rw [silent step List.mem_cons_self] at here
                cases here
      | false =>
          rw [if_neg Bool.false_ne_true, ih]
          constructor
          · intro ⟨lost, other, after, split, tells, silent, same⟩
            refine ⟨step :: lost, other, after, by rw [split, List.cons_append], tells, ?_, same⟩
            intro between member
            cases member with
            | head => exact here
            | tail _ later => exact silent between later
          · intro ⟨lost, other, after, split, tells, silent, same⟩
            cases lost with
            | nil =>
                obtain ⟨rfl, -⟩ := List.cons.inj split
                rw [tells] at here
                cases here
            | cons head lost =>
                obtain ⟨rfl, tail⟩ := List.cons.inj split
                exact ⟨lost, other, after, tail, tells,
                  fun between member => silent between (List.mem_cons_of_mem _ member), same⟩

/-- The steps told follow on from one another just when what is lost between leads back. -/
theorem joined_told {steps : List (Step π)} (walk : Walk steps) :
    Joined (told steps) ↔ Closed steps := by
  induction steps with
  | nil =>
      refine iff_of_true List.IsChain.nil fun before one lost other after split => ?_
      exact absurd split.symm (by simp)
  | cons step rest ih =>
      have later : Walk rest := List.IsChain.tail walk
      rw [told_cons, closed_cons]
      cases here : step.told with
      | false =>
          rw [if_neg Bool.false_ne_true, ih later]
          simp
      | true =>
          rw [if_pos rfl, Joined, List.isChain_cons]
          change _ ∧ Joined (told rest) ↔ _
          rw [ih later, and_comm]
          refine and_congr_right fun _ => ?_
          constructor
          · intro joined _ lost other after split tells silent
            have next := told_head.mpr ⟨lost, other, after, split, tells, silent, rfl⟩
            rw [split] at walk
            exact walk.between.mpr (joined _ next)
          · intro closed move next
            obtain ⟨lost, other, after, split, tells, silent, rfl⟩ := told_head.mp next
            rw [split] at walk
            exact walk.between.mp (closed rfl lost other after split tells silent)

/-- The last step that is told. -/
theorem told_getLast {steps : List (Step π)} {move : π × π} :
    (told steps).getLast? = some move ↔ ∃ before one lost, steps = before ++ one :: lost ∧
      one.told = true ∧ (∀ step ∈ lost, step.told = false) ∧ one.move = move := by
  constructor
  · intro last
    induction steps with
    | nil => cases last
    | cons step rest ih =>
        cases further : told rest with
        | nil =>
            have silent := told_eq_nil.mp further
            rw [told_cons, further] at last
            cases here : step.told with
            | true =>
                rw [here, if_pos rfl] at last
                exact ⟨[], step, rest, rfl, here, silent, Option.some.inj last⟩
            | false =>
                rw [here, if_neg Bool.false_ne_true] at last
                cases last
        | cons head more =>
            have later : (told rest).getLast? = some move := by
              rw [told_cons] at last
              split at last
              · rw [further, List.getLast?_cons_cons] at last
                rw [further]
                exact last
              · exact last
            obtain ⟨before, one, lost, split, tells, silent, same⟩ := ih later
            exact ⟨step :: before, one, lost, by rw [split, List.cons_append], tells, silent, same⟩
  · intro ⟨before, one, lost, split, tells, silent, same⟩
    rw [split, told_append, told_cons, if_pos tells, told_eq_nil.mpr silent,
      List.getLast?_append, List.getLast?_singleton, same]
    rfl

/-- Where the last step that is told leads, against where the walk ends. -/
theorem Walk.ending {steps before lost : List (Step π)} {one : Step π} {now : π}
    (walk : Walk steps) (split : steps = before ++ one :: lost)
    (ends : ∀ last ∈ steps.getLast?, last.target = now) {moves : List (π × π)} :
    (Returns lost ∨ ∃ first ∈ lost.head?, ∃ last ∈ lost.getLast?,
        (first.source, last.target) ∈ moves) ↔
      one.target = now ∨ (one.target, now) ∈ moves := by
  rw [split] at walk ends
  cases lost with
  | nil =>
      have here : one.target = now := ends one (by simp)
      exact iff_of_true (.inl fun _ nothing => by cases nothing) (.inl here)
  | cons first rest =>
      have start : one.target = first.source := (List.isChain_append_cons_cons.mp walk).2.1
      obtain ⟨last, final⟩ : ∃ last, (first :: rest).getLast? = some last :=
        ⟨_, List.getLast?_eq_some_getLast (List.cons_ne_nil _ _)⟩
      have finish : last.target = now := by
        refine ends last ?_
        rw [List.getLast?_append, List.getLast?_cons_cons, final]
        rfl
      rw [start]
      refine or_congr ?_ ?_
      · constructor
        · intro returns
          exact (returns first rfl last final).symm.trans finish
        · intro same head begins tail ending
          cases begins
          cases final.symm.trans ending
          exact finish.trans same.symm
      · constructor
        · intro ⟨head, begins, tail, ending, member⟩
          cases begins
          cases final.symm.trans ending
          rwa [finish] at member
        · intro member
          exact ⟨first, rfl, last, final, finish ▸ member⟩

/-! ### What is put back -/

section Mended

variable [DecidableEq π]

/-- A move put back: from where the last one told ends to where the thing is, if that is told of
elsewhere. -/
def mend (now : π) (moves : List (π × π)) : List (π × π) :=
  match moves.getLast? with
  | some last => if now ≠ last.2 ∧ (last.2, now) ∈ moves then [(last.2, now)] else []
  | none => []

/-- The moves follow on from one another, and the last ends where the thing is. -/
def Leads (now : π) (moves : List (π × π)) : Prop :=
  Joined moves ∧ ∀ last ∈ moves.getLast?, last.2 = now

/-- With what is put back, the moves told lead to where the thing is just when what is lost between
leads back, and what is lost at the end leads back or along a step that is told. -/
theorem leads_mended {steps : List (Step π)} (walk : Walk steps) {now : π}
    (ends : ∀ last ∈ steps.getLast?, last.target = now) :
    Leads now (told steps ++ mend now (told steps)) ↔ Closed steps ∧ Ended steps := by
  have joined := joined_told walk
  cases last : (told steps).getLast? with
  | none =>
      have nothing : told steps = [] := List.getLast?_eq_none_iff.mp last
      have silent := told_eq_nil.mp nothing
      have ended : Ended steps := by
        intro before one lost split tells _
        have hushed := silent one (by rw [split]; simp)
        rw [tells] at hushed
        cases hushed
      rw [mend, last, List.append_nil, Leads, joined, last]
      simp [ended]
  | some move =>
      obtain ⟨before, one, lost, split, tells, silent, rfl⟩ := told_getLast.mp last
      have ended : Ended steps ↔ one.target = now ∨ (one.target, now) ∈ told steps := by
        constructor
        · intro ended
          exact (walk.ending split ends).mp (ended before one lost split tells silent)
        · intro here front other after again heard hushed
          have same := last.symm.trans
            (told_getLast.mpr ⟨front, other, after, again, heard, hushed, rfl⟩)
          have alike : one.target = other.target := congrArg Prod.snd (Option.some.inj same)
          exact (walk.ending again ends).mpr (alike ▸ here)
      have put : mend now (told steps) = if now ≠ one.target ∧ (one.target, now) ∈ told steps then
          [(one.target, now)] else [] := by
        rw [mend, last]
        rfl
      rw [ended, ← joined, put, Leads]
      by_cases there : now = one.target
      · rw [if_neg fun other => other.1 there, List.append_nil, last]
        simp [Step.move, there]
      · by_cases member : (one.target, now) ∈ told steps
        · rw [if_pos ⟨there, member⟩, Joined, List.isChain_append, last, List.getLast?_append]
          simp [Step.move, member, Joined]
        · rw [if_neg fun held => member held.2, List.append_nil, last]
          simp [Step.move, Ne.symm there, member]

end Mended

end LostSteps
