import Metafolder.GuiLayout

/-!
# The clean-up after a stopped script

What the clean-up closes and what it gives back.  A run knows the workspaces it opened by their ids,
and an id is given out again once its workspace is closed: the history kept here says which workspace
an id is.
-/

namespace Metafolder
namespace Gui

/-- What a slot shows. -/
def Slot.shows (slot : Slot) : Option (Option String × Option String) :=
  if slot.visible then some (slot.workspace, slot.panelType) else none

/-! ### Closing one workspace -/

namespace Inner

section Closings

variable {α : Type} {inner : Inner}

theorem slot_mutate (change : Mutation α) (inner : Inner) (slotId : SlotId) :
    (mutate change inner).2.slot slotId = (change inner).2.slot slotId := by
  unfold mutate
  split
  · rename_i value next changed
    rw [changed, slot_settleFocus]
  · rename_i error next changed
    rw [changed]

theorem ids_mutate (change : Mutation α) (inner : Inner) :
    (mutate change inner).2.ids = (change inner).2.ids := by
  unfold mutate
  split
  · rename_i value next changed
    rw [changed, ids_settleFocus]
  · rename_i error next changed
    rw [changed]

/-- A slot assigned anew stays as shown or hidden as it was; another one is left alone. -/
theorem replaceIn_slots {next : Inner} {closed : String} {replacement : Option String}
    {slotId : SlotId} (replaced : inner.replaceIn closed replacement slotId = .ok next) :
    next.ids = inner.ids ∧ next.slot slotId.other = inner.slot slotId.other ∧
      (next.slot slotId).visible = (inner.slot slotId).visible ∧
      ((inner.slot slotId).workspace ≠ some closed → next = inner) := by
  unfold replaceIn at replaced
  split at replaced
  · cases replaced
    exact ⟨rfl, rfl, rfl, fun _ => rfl⟩
  · rename_i shown
    refine and_assoc.mp (and_assoc.mp ⟨?_, fun differs => absurd differs shown⟩)
    cases replacement with
    | none =>
        cases replaced
        simp
    | some id =>
        simp only [] at replaced
        cases assigned : inner.assign id slotId with
        | error error =>
            rw [assigned] at replaced
            exact nomatch replaced
        | ok given =>
            obtain ⟨ws, -, same⟩ := assign_eq_ok assigned
            rw [assigned] at replaced
            have final : next = given.setVisible slotId (inner.slot slotId).visible :=
              (Except.ok.inj replaced).symm
            rw [final, same, setVisible_setSlot]
            simp

theorem assignBoth_slots {next : Inner} {wsId : String} (assigned : inner.assignBoth wsId = .ok next) :
    ∃ ws, inner.workspace wsId = .ok ws ∧ next.ids = inner.ids ∧
      (next.slot inner.focused.other).visible = ws.split := by
  obtain ⟨ws, found⟩ := assignBoth_eq_ok assigned
  obtain ⟨first, same, began⟩ := assignBoth_ok found
  rw [assigned, Except.ok.injEq] at same
  subst same began
  exact ⟨ws, found, by simp, by simp⟩

/-- A workspace that shows two panels may be shown in place of the one closed. -/
def SplitsWindow (wsId : String) (inner : Inner) : Prop :=
  ∃ index ∈ inner.workspaces.findIdx? (fun ws => ws.id = wsId),
    ∃ id ∈ inner.replacement wsId index, ∃ ws, (inner.remove wsId).workspace id = .ok ws ∧ ws.split

/-- Closing shows other workspaces only in the slots that showed the one closed. -/
def Kept (wsId : String) (inner after : Inner) : Prop :=
  ∀ slotId, (after.slot slotId).visible = (inner.slot slotId).visible ∧
    ((inner.slot slotId).workspace ≠ some wsId → after.slot slotId = inner.slot slotId)

theorem replaceBoth_kept {first second : Inner} {closed : String} {replacement : Option String}
    (left : inner.replaceIn closed replacement .left = .ok first)
    (right : first.replaceIn closed replacement .right = .ok second) :
    second.ids = inner.ids ∧ Kept closed inner second := by
  obtain ⟨idsLeft, keptRight, visibleLeft, sameLeft⟩ := replaceIn_slots left
  obtain ⟨idsRight, keptLeft, visibleRight, sameRight⟩ := replaceIn_slots right
  have keptRight : first.slot .right = inner.slot .right := keptRight
  have keptLeft : second.slot .left = first.slot .left := keptLeft
  refine ⟨idsRight.trans idsLeft, fun slotId => ?_⟩
  cases slotId with
  | left => exact ⟨by rw [keptLeft, visibleLeft], fun differs => by rw [keptLeft, sameLeft differs]⟩
  | right =>
      refine ⟨by rw [visibleRight, keptRight], fun differs => ?_⟩
      rw [← keptRight] at differs ⊢
      rw [sameRight differs]

/-- What closing a tab does: the slots that showed it show another one, or both slots move where it
had the window to itself. -/
theorem closeTab_cases (wsId : String) (inner : Inner) :
    ((closeTab wsId inner).2.ids = inner.ids ∨
      (closeTab wsId inner).2.ids = inner.ids.erase wsId) ∧
    (Kept wsId inner (closeTab wsId inner).2 ∨
      inner.ownsWindow wsId ∧
        (((closeTab wsId inner).2.slot inner.focused.other).visible → SplitsWindow wsId inner)) := by
  simp only [Kept, closeTab, ids_mutate, slot_mutate]
  cases position : inner.workspaces.findIdx? fun ws => ws.id = wsId with
  | none => exact ⟨.inl rfl, .inl fun slotId => ⟨rfl, fun _ => rfl⟩⟩
  | some index =>
      simp only []
      have removed : Kept wsId inner (inner.remove wsId) := fun slotId => by simp
      split
      · rename_i id owned replaced
        cases assigned : (inner.remove wsId).assignBoth id with
        | error error => exact ⟨.inr (ids_remove inner wsId), .inl removed⟩
        | ok next =>
            obtain ⟨ws, found, ids, split⟩ := assignBoth_slots assigned
            refine ⟨.inr (ids.trans (ids_remove inner wsId)), .inr ⟨owned, fun visible => ?_⟩⟩
            exact ⟨index, position, id, replaced, ws, found, split ▸ visible⟩
      · cases left : (inner.remove wsId).replaceIn wsId (inner.replacement wsId index) .left with
        | error error => exact ⟨.inr (ids_remove inner wsId), .inl removed⟩
        | ok first =>
            cases right : first.replaceIn wsId (inner.replacement wsId index) .right with
            | error error =>
                simp only [right, bind, Except.bind, attempt]
                exact ⟨.inr (ids_remove inner wsId), .inl removed⟩
            | ok second =>
                obtain ⟨ids, kept⟩ := replaceBoth_kept left right
                simp only [right, bind, Except.bind, attempt]
                exact ⟨.inr (ids.trans (ids_remove inner wsId)),
                  .inl fun slotId => by simpa using kept slotId⟩

/-- A slot that shows another workspace than the one closed is left alone. -/
theorem closeTab_shown {wsId : String} {slotId : SlotId}
    (visible : (inner.slot slotId).visible) (differs : (inner.slot slotId).workspace ≠ some wsId) :
    (closeTab wsId inner).2.slot slotId = inner.slot slotId := by
  obtain ⟨-, kept | ⟨owned, -⟩⟩ := closeTab_cases wsId inner
  · exact (kept slotId).2 differs
  · simp only [ownsWindow, Bool.and_eq_true, decide_eq_true_eq, Bool.or_eq_true,
      Bool.not_eq_true'] at owned
    obtain ⟨⟨-, shown⟩, other⟩ := owned
    obtain rfl | rfl := slotId.eq_or_eq_other inner.focused
    · exact absurd shown differs
    · cases other with
      | inl hidden => exact absurd visible (by simp [hidden])
      | inr same => exact absurd same differs

/-- A slot that is hidden stays hidden, unless the window is split again. -/
theorem closeTab_hidden {wsId : String} {slotId : SlotId}
    (hidden : (inner.slot slotId).visible = false)
    (single : slotId = inner.focused.other → inner.ownsWindow wsId → ¬SplitsWindow wsId inner) :
    ((closeTab wsId inner).2.slot slotId).visible = false := by
  obtain ⟨-, kept | ⟨owned, split⟩⟩ := closeTab_cases wsId inner
  · rw [(kept slotId).1, hidden]
  · obtain rfl | rfl := slotId.eq_or_eq_other inner.focused
    · simp [ownsWindow, hidden] at owned
    · cases visible : ((closeTab wsId inner).2.slot inner.focused.other).visible with
      | false => rfl
      | true => exact absurd (split visible) (single rfl owned)

theorem closeTab_ids {wsId id : String} (member : id ∈ (closeTab wsId inner).2.ids) :
    id ∈ inner.ids := by
  obtain ⟨same | erased, -⟩ := closeTab_cases wsId inner
  · exact same ▸ member
  · exact List.mem_of_mem_erase (erased ▸ member)

theorem mem_closeTab_ids {wsId id : String} (member : id ∈ inner.ids) (differs : id ≠ wsId) :
    id ∈ (closeTab wsId inner).2.ids := by
  obtain ⟨same | erased, -⟩ := closeTab_cases wsId inner
  · exact same.symm ▸ member
  · rw [erased]
    exact (List.mem_erase_of_ne differs).mpr member

end Closings

/-! ### Closing what a run opened -/

/-- The workspaces of a list are closed as tabs, and the slots of a set are not shown again. -/
def CloseAllQuiet (kept : SlotId → Prop) : List String → Inner → Prop
  | [], _ => True
  | wsId :: rest, inner =>
      (∀ ws, inner.workspace wsId = .ok ws → isPicker ws = false) ∧
        (kept inner.focused.other → (inner.slot inner.focused.other).visible = false →
          inner.ownsWindow wsId → ¬SplitsWindow wsId inner) ∧
        CloseAllQuiet kept rest (closeWorkspace wsId inner).2

section CloseAll

variable {inner : Inner}

theorem closeWorkspace_tab {wsId : String}
    (plain : ∀ ws, inner.workspace wsId = .ok ws → isPicker ws = false) :
    closeWorkspace wsId inner = closeTab wsId inner := by
  unfold closeWorkspace
  split
  · rfl
  · rename_i ws found
    rw [plain ws found, if_neg (by simp)]

/-- A slot that holds none of the workspaces closed shows what it showed. -/
theorem closeAll_shows {opened closing : List String} (inside : closing ⊆ opened)
    {kept : SlotId → Prop} {slotId : SlotId} (keeps : kept slotId)
    (holds : ∀ id, (inner.slot slotId).visible → (inner.slot slotId).workspace = some id → id ∉ opened)
    (quiet : CloseAllQuiet kept closing inner) :
    ((inner.closeAll closing).slot slotId).shows = (inner.slot slotId).shows := by
  induction closing generalizing inner with
  | nil => rfl
  | cons wsId rest ih =>
      obtain ⟨plain, single, quiet⟩ := quiet
      have opened_ : wsId ∈ opened := inside List.mem_cons_self
      have insideRest : rest ⊆ opened := fun id member => inside (List.mem_cons_of_mem _ member)
      rw [closeAll, List.foldl_cons, ← closeAll]
      rw [closeWorkspace_tab plain] at quiet ⊢
      cases visible : (inner.slot slotId).visible with
      | true =>
          have differs : (inner.slot slotId).workspace ≠ some wsId :=
            fun same => holds wsId visible same opened_
          have same := closeTab_shown visible differs
          rw [ih insideRest (by rw [same]; exact holds) quiet, same]
      | false =>
          have hidden := closeTab_hidden visible fun other owned =>
            single (other ▸ keeps) (other ▸ visible) owned
          rw [ih insideRest (fun id shown => absurd shown (by simp [hidden])) quiet]
          simp [Slot.shows, visible, hidden]

theorem closeAll_ids {closing : List String} {kept : SlotId → Prop}
    (quiet : CloseAllQuiet kept closing inner) {id : String} :
    (id ∈ (inner.closeAll closing).ids → id ∈ inner.ids) ∧
      (id ∈ inner.ids → id ∉ closing → id ∈ (inner.closeAll closing).ids) := by
  induction closing generalizing inner with
  | nil => exact ⟨fun member => member, fun member _ => member⟩
  | cons wsId rest ih =>
      obtain ⟨plain, -, quiet⟩ := quiet
      rw [closeAll, List.foldl_cons, ← closeAll]
      rw [closeWorkspace_tab plain] at quiet ⊢
      refine ⟨fun member => closeTab_ids ((ih quiet).1 member), fun member outside => ?_⟩
      obtain ⟨differs, outside⟩ := not_or.mp (List.mem_cons.not.mp outside)
      exact (ih quiet).2 (mem_closeTab_ids member differs) outside

end CloseAll

/-! ### Giving the slots back -/

section GiveBack

variable {inner : Inner}

/-- Giving one slot back leaves the other one alone. -/
theorem giveBack_other (slotId : SlotId) (taken : Bool) (before : Option String) :
    (giveBack slotId taken before inner).slot slotId.other = inner.slot slotId.other := by
  unfold giveBack
  split
  · rfl
  · cases before with
    | none =>
        simp only [hideSlot, update, slot_settleFocus, slot_recordSplit]
        split <;> simp [setVisible]
    | some wsId =>
        simp only [tabAssign, slot_mutate]
        cases assigned : inner.assign wsId slotId with
        | error error => rfl
        | ok given =>
            obtain ⟨ws, -, rfl⟩ := assign_eq_ok assigned
            simp [attempt, Except.map]

theorem giveBack_ids (slotId : SlotId) (taken : Bool) (before : Option String) :
    (giveBack slotId taken before inner).ids = inner.ids := by
  unfold giveBack
  split
  · rfl
  · cases before with
    | none =>
        simp only [hideSlot, update, ids_settleFocus, ids_recordSplit]
        split <;> simp [setVisible]
    | some wsId =>
        simp only [tabAssign, ids_mutate]
        cases assigned : inner.assign wsId slotId with
        | error error => rfl
        | ok given =>
            obtain ⟨ws, -, rfl⟩ := assign_eq_ok assigned
            simp [attempt, Except.map]

theorem giveBack_some {slotId : SlotId} {wsId : String} (member : wsId ∈ inner.ids) :
    ((giveBack slotId true (some wsId) inner).slot slotId).visible = true ∧
      ((giveBack slotId true (some wsId) inner).slot slotId).workspace = some wsId := by
  obtain ⟨ws, found⟩ := mem_ids_iff.mp member
  simp only [giveBack, Bool.not_true, Bool.false_eq_true, if_false, tabAssign, slot_mutate,
    assign_ok found, attempt, Except.map, slot_recordSplit, slot_setSlot, and_self]

theorem giveBack_none {slotId : SlotId} :
    ((giveBack slotId true none inner).slot slotId).visible = false := by
  simp only [giveBack, Bool.not_true, Bool.false_eq_true, if_false, hideSlot, update,
    slot_settleFocus, slot_recordSplit]
  split <;> simp [setVisible]

/-- Each slot is given back apart from the other one. -/
theorem cleanUpAfter_slot (inner : Inner) (task : ScriptTask) (slotId : SlotId) :
    ∃ before, before.ids = (inner.closeAll task.opened).ids ∧
      before.slot slotId = (inner.closeAll task.opened).slot slotId ∧
      (inner.cleanUpAfter task).slot slotId =
        (giveBack slotId (inner.taken task.opened slotId) (task.launchLayout slotId) before).slot
          slotId := by
  cases slotId with
  | left => exact ⟨inner.closeAll task.opened, rfl, rfl, giveBack_other .right _ _⟩
  | right => exact ⟨_, giveBack_ids .left _ _, giveBack_other .left _ _, rfl⟩

theorem cleanUpAfter_ids (task : ScriptTask) :
    (inner.cleanUpAfter task).ids = (inner.closeAll task.opened).ids :=
  (giveBack_ids .right _ _).trans (giveBack_ids .left _ _)

end GiveBack

/-- The clean-up after a run closes only tabs, shows no slot that was hidden when the run began and
splits no window. -/
def CleanUpClear (task : ScriptTask) (inner : Inner) : Prop :=
  (∀ slotId, inner.taken task.opened slotId → (inner.slot slotId).visible = false →
    task.launchLayout slotId = none) ∧
  CloseAllQuiet (fun slotId => inner.taken task.opened slotId = false) task.opened inner

/-- What a clean-up may do, of a run that opened some workspaces and began with some shown. -/
structure CleanedUp (mine : String → Prop) (launch : SlotId → Option String)
    (before after : Inner) : Prop where
  /-- No workspace is made. -/
  made : ∀ id ∈ after.ids, id ∈ before.ids
  /-- Only workspaces of the run are closed. -/
  closed : ∀ id ∈ before.ids, id ∉ after.ids → mine id
  /-- Only the slots that showed one are changed. -/
  kept : ∀ slotId, ¬((before.slot slotId).visible ∧
      ∃ id, (before.slot slotId).workspace = some id ∧ mine id) →
    (after.slot slotId).shows = (before.slot slotId).shows
  /-- Those show again what they showed when the run began, if it is still open. -/
  given : ∀ slotId, (before.slot slotId).visible →
    (∃ id, (before.slot slotId).workspace = some id ∧ mine id) →
    ∀ id, launch slotId = some id → id ∈ after.ids →
      (after.slot slotId).visible ∧ (after.slot slotId).workspace = some id

theorem taken_iff {inner : Inner} {opened : List String} {slotId : SlotId} :
    inner.taken opened slotId = true ↔
      ∃ id, (inner.slot slotId).workspace = some id ∧ id ∈ opened := by
  simp [taken, Option.any_eq_true]

/-- The clean-up after a run, in terms of what the run remembers. -/
theorem cleanUpAfter_cleanedUp {inner : Inner} {task : ScriptTask}
    (clear : CleanUpClear task inner) :
    CleanedUp (· ∈ task.opened) task.launchLayout inner (inner.cleanUpAfter task) := by
  obtain ⟨unhidden, quiet⟩ := clear
  refine ⟨fun id member => ?_, fun id member gone => ?_, fun slotId free => ?_,
    fun slotId visible held id shown member => ?_⟩
  · rw [cleanUpAfter_ids] at member
    exact (closeAll_ids quiet).1 member
  · by_contra outside
    rw [cleanUpAfter_ids] at gone
    exact gone ((closeAll_ids quiet).2 member outside)
  · obtain ⟨before, -, same, final⟩ := cleanUpAfter_slot inner task slotId
    cases took : inner.taken task.opened slotId with
    | false =>
        rw [final, took]
        simp only [giveBack, Bool.not_false, if_true]
        rw [same]
        refine closeAll_shows (List.Subset.refl _) took (fun id _ shown inside => ?_) quiet
        rw [taken_iff.mpr ⟨id, shown, inside⟩] at took
        cases took
    | true =>
        have hidden : (inner.slot slotId).visible = false := by
          cases visible : (inner.slot slotId).visible with
          | false => rfl
          | true => exact absurd ⟨visible, taken_iff.mp took⟩ free
        rw [final, took, unhidden slotId took hidden]
        simp only [Slot.shows, giveBack_none, hidden, Bool.false_eq_true, if_false]
  · obtain ⟨before, ids, -, final⟩ := cleanUpAfter_slot inner task slotId
    rw [cleanUpAfter_ids, ← ids] at member
    rw [final, taken_iff.mpr held, shown]
    exact giveBack_some member

end Inner

/-! ### Which workspace an id is -/

theorem Inner.createWorkspaceWithPanels_mem (inner : Inner) (activeRepo repoName : Option String)
    (panels : List (SlotId × String)) :
    (inner.createWorkspaceWithPanels activeRepo repoName panels).1 ∈
      (inner.createWorkspaceWithPanels activeRepo repoName panels).2.ids := by
  simp only [createWorkspaceWithPanels, ids_settleFocus]
  refine (ids_change _ ?_).symm ▸ newWorkspace_mem inner activeRepo repoName
  exact fun _ => rfl

/-- The window with its history: when the workspace of an id was made, and what the runs opened and
began with. -/
structure World where
  /-- The window. -/
  gui : GuiState
  /-- When the last workspace of each id was made. -/
  births : String → Nat
  /-- How many steps were made. -/
  clock : Nat
  /-- The workspaces made for a run that it does not own yet: the run, the id and the birth. -/
  requests : List (String × String × Nat)
  /-- What each run opened: the ids, with the births. -/
  opened : String → List (String × Nat)
  /-- What each run began with: the ids the slots showed, with the births. -/
  launch : String → SlotId → Option (String × Nat)

/-- A step of the window.  A script asks for a workspace, which is made for it and then claimed. -/
inductive WorldEvent
  | command (asked : Command)
  | scriptBegin (taskId wsId label : String)
  | scriptCreate (taskId : String) (activeRepo repoName : Option String)
      (panels : List (SlotId × String))
  | scriptClaim (taskId wsId : String) (birth : Nat)
  | scriptMarkStopped (taskId how : String)
  | scriptEnd (taskId : String)

namespace GuiState

variable {gui : GuiState} {taskId : String}

/-- A claim adds the workspace claimed to what a run opened, unless the run owns it. -/
theorem scriptClaimWorkspace_task {wsId other : String} {task : ScriptTask}
    (found : (gui.scriptClaimWorkspace taskId wsId).scripts other = some task) :
    ∃ before, gui.scripts other = some before ∧
      ((other = taskId → wsId ∉ before.workspaces) →
        ∀ id, id ∈ task.opened ↔ id ∈ before.opened ∨ (other = taskId ∧ id = wsId)) ∧
      before.launchLayout = task.launchLayout := by
  unfold scriptClaimWorkspace at found
  split at found
  · rename_i unknown
    refine ⟨task, found, fun _ id => ?_, rfl⟩
    have differs : other ≠ taskId := by
      rintro rfl
      rw [unknown] at found
      exact nomatch found
    simp [differs]
  · rename_i before running
    split at found
    · rename_i owned
      refine ⟨task, found, fun unowned id => ?_, rfl⟩
      have differs : other ≠ taskId := by
        rintro rfl
        rw [running] at found
        cases found
        exact unowned rfl owned
      simp [differs]
    · by_cases same : other = taskId
      · subst same
        simp only [Function.update_self, Option.some.injEq] at found
        subst found
        exact ⟨before, running, fun _ id => by simp, rfl⟩
      · simp only [Function.update_of_ne same] at found
        exact ⟨task, found, fun _ id => by simp [same], rfl⟩

theorem scriptMarkStopped_task {how other : String} {task : ScriptTask}
    (found : (gui.scriptMarkStopped taskId how).scripts other = some task) :
    ∃ before, gui.scripts other = some before ∧ task.opened = before.opened ∧
      before.launchLayout = task.launchLayout := by
  unfold scriptMarkStopped at found
  split at found
  · exact ⟨task, found, rfl, rfl⟩
  · rename_i before running
    by_cases same : other = taskId
    · subst same
      simp only [Function.update_self, Option.some.injEq] at found
      subst found
      exact ⟨before, running, rfl, rfl⟩
    · simp only [Function.update_of_ne same] at found
      exact ⟨task, found, rfl, rfl⟩

end GuiState

namespace World

/-- The start. -/
def new : World := ⟨.new, fun _ => 0, 1, [], fun _ => [], fun _ _ => none⟩

/-- The history after a step: a workspace made is born now. -/
def after (world : World) (gui : GuiState) : World :=
  { world with
    gui := gui
    births := fun id =>
      if id ∈ gui.inner.ids ∧ id ∉ world.gui.inner.ids then world.clock else world.births id
    clock := world.clock + 1 }

/-- A step. -/
def next (world : World) : WorldEvent → World
  | .command asked => world.after (world.gui.next (.command asked))
  | .scriptBegin taskId wsId label =>
      { world.after (world.gui.next (.scriptBegin taskId wsId label)) with
        opened := Function.update world.opened taskId []
        launch := Function.update world.launch taskId fun slotId =>
          (world.gui.inner.shownWorkspaces slotId).map fun id => (id, world.births id) }
  | .scriptCreate taskId activeRepo repoName panels =>
      let created := world.gui.inner.createWorkspaceWithPanels activeRepo repoName panels
      { world.after { world.gui with inner := created.2 } with
        requests := (taskId, created.1, world.clock) :: world.requests }
  | .scriptClaim taskId wsId birth =>
      if (taskId, wsId, birth) ∈ world.requests then
        { world.after (world.gui.next (.scriptClaimWorkspace taskId wsId)) with
          requests := world.requests.erase (taskId, wsId, birth)
          opened :=
            if (world.gui.scripts taskId).isSome then
              Function.update world.opened taskId ((wsId, birth) :: world.opened taskId)
            else world.opened }
      else world
  | .scriptMarkStopped taskId how => world.after (world.gui.next (.scriptMarkStopped taskId how))
  | .scriptEnd taskId =>
      { world.after (world.gui.next (.scriptEnd taskId)) with
        opened := Function.update world.opened taskId [] }

/-- An id that a run remembers as a workspace it opened, or is about to. -/
def Remembered (world : World) (id : String) : Prop :=
  (∃ taskId birth, (id, birth) ∈ world.opened taskId) ∨
    ∃ taskId birth, (taskId, id, birth) ∈ world.requests

/-- No workspace is given an id that a run remembers. -/
def Unused (world : World) (event : WorldEvent) : Prop :=
  ∀ id ∈ (world.next event).gui.inner.ids, id ∉ world.gui.inner.ids → ¬world.Remembered id

/-- A step gives no workspace an id that a run remembers, nor a run one with the id of a workspace it
owns: that of the one it was launched from. -/
def Clear (world : World) (event : WorldEvent) : Prop :=
  world.Unused event ∧
    match event with
    | .scriptClaim taskId wsId _ =>
        ∀ task, world.gui.scripts taskId = some task → wsId ∉ task.workspaces
    | _ => True

/-- The states that steps lead to that give out no id a run remembers. -/
inductive Run : World → Prop
  | new : Run .new
  | next {world : World} (run : Run world) {event : WorldEvent} (clear : world.Clear event) :
      Run (world.next event)

/-- What a run remembers is what happened. -/
structure Tracked (world : World) : Prop where
  /-- What it closes at its end is what it opened. -/
  opened : ∀ taskId task, world.gui.scripts taskId = some task → ∀ id,
    id ∈ task.opened ↔ ∃ birth, (id, birth) ∈ world.opened taskId
  /-- What it gives back, the slots showed when it began. -/
  launch : ∀ taskId task, world.gui.scripts taskId = some task → ∀ slotId,
    task.launchLayout slotId = (world.launch taskId slotId).map Prod.fst
  /-- The ids it opened are still those workspaces. -/
  born : ∀ taskId id birth, (id, birth) ∈ world.opened taskId → world.births id = birth
  /-- So are those to be claimed. -/
  asked : ∀ taskId id birth, (taskId, id, birth) ∈ world.requests → world.births id = birth

section Tracked

variable {world : World}

/-- An id remembered stays the same workspace. -/
theorem births_after {gui : GuiState}
    (clear : ∀ id ∈ gui.inner.ids, id ∉ world.gui.inner.ids → ¬world.Remembered id)
    {id : String} (remembered : world.Remembered id) :
    (world.after gui).births id = world.births id := by
  refine if_neg fun new => ?_
  exact clear id new.1 new.2 remembered

/-- A step leaves the ids that are remembered the workspaces they are. -/
theorem births_next {event : WorldEvent} (clear : world.Unused event) {id : String}
    (remembered : world.Remembered id) : (world.next event).births id = world.births id := by
  cases event with
  | scriptClaim taskId wsId birth =>
      unfold Unused at clear
      simp only [next] at clear ⊢
      split
      · rename_i asked
        rw [if_pos asked] at clear
        exact births_after clear remembered
      · rfl
  | _ => exact births_after clear remembered

theorem Tracked.next (tracked : Tracked world) {event : WorldEvent} (clear : world.Clear event) :
    Tracked (world.next event) := by
  have born {taskId : String} {id : String} {birth : Nat} (member : (id, birth) ∈ world.opened taskId) :
      (world.next event).births id = birth :=
    (births_next clear.1 (.inl ⟨taskId, birth, member⟩)).trans (tracked.born taskId id birth member)
  have asked {taskId : String} {id : String} {birth : Nat}
      (member : (taskId, id, birth) ∈ world.requests) : (world.next event).births id = birth :=
    (births_next clear.1 (.inr ⟨taskId, birth, member⟩)).trans (tracked.asked taskId id birth member)
  cases event with
  | command _ =>
      exact ⟨tracked.opened, tracked.launch, fun _ _ _ => born, fun _ _ _ => asked⟩
  | scriptBegin taskId wsId label =>
      refine ⟨fun other task found id => ?_, fun other task found slotId => ?_,
        fun other id birth member => ?_, fun _ _ _ => asked⟩
      · by_cases same : other = taskId
        · subst same
          simp only [World.next, World.after, GuiState.next, GuiState.scriptBegin,
            Function.update_self, Option.some.injEq] at found ⊢
          subst found
          simp
        · simp only [World.next, World.after, GuiState.next, GuiState.scriptBegin,
            Function.update_of_ne same] at found ⊢
          exact tracked.opened other task found id
      · by_cases same : other = taskId
        · subst same
          simp only [World.next, World.after, GuiState.next, GuiState.scriptBegin,
            Function.update_self, Option.some.injEq] at found ⊢
          subst found
          simp [Option.map_map, Function.comp_def]
        · simp only [World.next, World.after, GuiState.next, GuiState.scriptBegin,
            Function.update_of_ne same] at found ⊢
          exact tracked.launch other task found slotId
      · by_cases same : other = taskId
        · subst same
          simp only [World.next, Function.update_self] at member
          cases member
        · simp only [World.next, Function.update_of_ne same] at member
          exact born member
  | scriptCreate taskId activeRepo repoName panels =>
      refine ⟨tracked.opened, tracked.launch, fun _ _ _ => born, fun other id birth member => ?_⟩
      cases member with
      | head =>
          refine if_pos ⟨?_, world.gui.inner.newWorkspace_not_mem activeRepo repoName⟩
          exact Inner.createWorkspaceWithPanels_mem world.gui.inner activeRepo repoName panels
      | tail _ member => exact asked member
  | scriptClaim taskId wsId birth =>
      simp only [World.next] at born asked ⊢
      split
      · rename_i claimed
        rw [if_pos claimed] at born asked
        refine ⟨fun other task found id => ?_, fun other task found slotId => ?_,
          fun other id stamp member => ?_, fun other id stamp member => ?_⟩
        · obtain ⟨before, foundBefore, known⟩ := GuiState.scriptClaimWorkspace_task found
          have unowned (here : other = taskId) : wsId ∉ before.workspaces :=
            clear.2 before (here ▸ foundBefore)
          rw [(known.1 unowned id), tracked.opened other before foundBefore id]
          by_cases same : other = taskId
          · subst same
            simp only [foundBefore, Option.isSome_some, if_true, Function.update_self,
              List.mem_cons, Prod.mk.injEq, true_and, exists_or]
            simp [or_comm]
          · split <;> simp [same]
        · obtain ⟨before, foundBefore, known⟩ := GuiState.scriptClaimWorkspace_task found
          exact known.2 ▸ tracked.launch other before foundBefore slotId
        · simp only [] at member
          split at member
          · by_cases same : other = taskId
            · subst same
              rw [Function.update_self] at member
              cases member with
              | head => exact asked claimed
              | tail _ member => exact born member
            · rw [Function.update_of_ne same] at member
              exact born member
          · exact born member
        · exact asked (List.mem_of_mem_erase member)
      · exact tracked
  | scriptMarkStopped taskId how =>
      refine ⟨fun other task found id => ?_, fun other task found slotId => ?_,
        fun _ _ _ => born, fun _ _ _ => asked⟩
      · obtain ⟨before, foundBefore, known, -⟩ := GuiState.scriptMarkStopped_task found
        exact known ▸ tracked.opened other before foundBefore id
      · obtain ⟨before, foundBefore, -, known⟩ := GuiState.scriptMarkStopped_task found
        exact known ▸ tracked.launch other before foundBefore slotId
  | scriptEnd taskId =>
      have remains {other : String} {task : ScriptTask}
          (found : (world.next (.scriptEnd taskId)).gui.scripts other = some task) :
          other ≠ taskId ∧ world.gui.scripts other = some task := by
        simp only [World.next, World.after, GuiState.next, GuiState.scriptEnd] at found
        have kept : Function.update world.gui.scripts taskId none other = some task := by
          split at found <;> exact found
        by_cases same : other = taskId
        · subst same
          rw [Function.update_self] at kept
          cases kept
        · rw [Function.update_of_ne same] at kept
          exact ⟨same, kept⟩
      refine ⟨fun other task found id => ?_, fun other task found slotId => ?_,
        fun other id birth member => ?_, fun _ _ _ => asked⟩
      · obtain ⟨differs, before⟩ := remains found
        simp only [World.next, Function.update_of_ne differs]
        exact tracked.opened other task before id
      · exact tracked.launch other task (remains found).2 slotId
      · by_cases same : other = taskId
        · subst same
          simp only [World.next, Function.update_self] at member
          cases member
        · simp only [World.next, Function.update_of_ne same] at member
          exact born member

/-- Along a run no run is mistaken about what it opened. -/
theorem tracked_of_run (run : Run world) : Tracked world := by
  induction run with
  | new =>
      refine ⟨fun _ _ found => ?_, fun _ _ found => ?_, fun _ _ _ member => ?_,
        fun _ _ _ member => ?_⟩
      · exact nomatch found
      · exact nomatch found
      · exact nomatch member
      · exact nomatch member
  | next _ clear ih => exact ih.next clear

/-- A workspace that a run opened, the id not given out again since. -/
def Mine (world : World) (taskId id : String) : Prop := (id, world.births id) ∈ world.opened taskId

/-- As long as no id that a run remembers is given out again, the clean-up after a run that was
stopped closes only workspaces the run opened and changes only the slots that showed one, which show
again what they showed when it began. -/
theorem scriptEnd_cleanedUp (run : Run world) {taskId : String} {task : ScriptTask}
    (found : world.gui.scripts taskId = some task) (stopped : task.endedBy.isSome)
    (clear : Inner.CleanUpClear task world.gui.inner) :
    Inner.CleanedUp (world.Mine taskId) (fun slotId => (world.launch taskId slotId).map Prod.fst)
      world.gui.inner (world.next (.scriptEnd taskId)).gui.inner := by
  have tracked := tracked_of_run run
  have mine (id : String) : world.Mine taskId id ↔ id ∈ task.opened := by
    rw [tracked.opened taskId task found id]
    refine ⟨fun inside => ⟨_, inside⟩, fun ⟨birth, inside⟩ => ?_⟩
    rw [Mine, tracked.born taskId id birth inside]
    exact inside
  have same : world.Mine taskId = (· ∈ task.opened) := funext fun id => propext (mine id)
  have launched : (fun slotId => (world.launch taskId slotId).map Prod.fst) = task.launchLayout :=
    funext fun slotId => (tracked.launch taskId task found slotId).symm
  have ended : (world.next (.scriptEnd taskId)).gui.inner = world.gui.inner.cleanUpAfter task := by
    simp only [World.next, World.after, GuiState.next, GuiState.scriptEnd, found,
      Option.filter_some, stopped, if_true]
  rw [same, launched, ended]
  exact Inner.cleanUpAfter_cleanedUp clear

end Tracked

/-- A run that shows a workspace it opened in the left slot, and is stopped. -/
theorem scriptEnd_cleanedUp_sample :
    let world := [WorldEvent.scriptBegin "script-1" "ws-1" "tag.sh",
      .scriptCreate "script-1" none none [], .scriptClaim "script-1" "ws-2" 2,
      .command (.tabAssign "ws-2" .left), .scriptMarkStopped "script-1" "stopped"].foldl next .new
    let ended := (world.next (.scriptEnd "script-1")).gui.inner
    ended.ids = ["ws-1"] ∧ (ended.slot .left).workspace = some "ws-1" ∧
      Inner.CleanedUp (world.Mine "script-1")
        (fun slotId => (world.launch "script-1" slotId).map Prod.fst) world.gui.inner ended := by
  intro world ended
  have begun : Run (World.new.next (.scriptBegin "script-1" "ws-1" "tag.sh")) :=
    Run.new.next ⟨fun id new old => absurd new old, trivial⟩
  -- Nothing is remembered when the workspace is made.
  have unused (id : String) :
      ¬(World.new.next (.scriptBegin "script-1" "ws-1" "tag.sh")).Remembered id := by
    rintro (⟨taskId, birth, member⟩ | ⟨taskId, birth, member⟩)
    · simp only [World.next, World.after, World.new, Function.update_apply, ite_self] at member
      exact nomatch member
    · exact nomatch member
  have created : Run ((World.new.next (.scriptBegin "script-1" "ws-1" "tag.sh")).next
      (.scriptCreate "script-1" none none [])) :=
    begun.next ⟨fun id _ _ => unused id, trivial⟩
  have claimed : Run (((World.new.next (.scriptBegin "script-1" "ws-1" "tag.sh")).next
      (.scriptCreate "script-1" none none [])).next (.scriptClaim "script-1" "ws-2" 2)) := by
    refine created.next ⟨fun id new old => absurd new old, fun task found => ?_⟩
    have owned : task.workspaces = ["ws-1"] := by
      cases found
      rfl
    rw [owned]
    decide
  have shown := claimed.next (show Clear _ (.command (.tabAssign "ws-2" .left)) from
    ⟨fun id new old => absurd new old, trivial⟩)
  have stopped : Run world := shown.next (show Clear _ (.scriptMarkStopped "script-1" "stopped") from
    ⟨fun id new old => absurd new old, trivial⟩)
  have found : world.gui.scripts "script-1" = some
      { wsId := "ws-1", label := "tag.sh", workspaces := ["ws-1", "ws-2"], opened := ["ws-2"]
        launchLayout := Inner.initial.shownWorkspaces, endedBy := some "stopped" } := rfl
  refine ⟨by decide +kernel, by decide +kernel, scriptEnd_cleanedUp stopped found rfl ?_⟩
  refine ⟨fun slotId took hidden => ?_, fun ws open_ => ?_, fun _ _ _ split => ?_, trivial⟩
  · cases slotId with
    | left => exact absurd hidden (by decide +kernel)
    | right => exact absurd took (by decide +kernel)
  · cases open_
    rfl
  · obtain ⟨index, position, id, replaced, ws, remains, split⟩ := split
    cases position
    cases replaced
    cases remains
    exact nomatch split

/-- A workspace the run opened is closed by the user, and a new one takes its id. -/
theorem id_reused :
    let world := [WorldEvent.scriptBegin "script-1" "ws-1" "tag.sh",
      .scriptCreate "script-1" none none [], .scriptClaim "script-1" "ws-2" 2,
      .command (.closeWorkspace "ws-2"), .command (.createWorkspace none none []),
      .scriptMarkStopped "script-1" "stopped"].foldl next .new
    (world.gui.scripts "script-1").any (fun task => task.endedBy.isSome) ∧
      ¬Inner.CleanedUp (world.Mine "script-1")
        (fun slotId => (world.launch "script-1" slotId).map Prod.fst)
        world.gui.inner (world.next (.scriptEnd "script-1")).gui.inner := by
  intro world
  refine ⟨by decide +kernel, fun cleaned => ?_⟩
  have closed := cleaned.closed "ws-2" (by decide +kernel) (by decide +kernel)
  have other : ("ws-2", world.births "ws-2") ∉ world.opened "script-1" := by decide +kernel
  exact other closed

end World

end Gui
end Metafolder
