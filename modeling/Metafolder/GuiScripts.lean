import Metafolder.GuiCommands

/-!
# Runs of scripts

The scripts that run, the workspaces they opened and the clean-up after one that was stopped; and
every command of the window as one step of its state.
-/

namespace Metafolder
namespace Gui

/-- `ScriptTask`, without its progress. -/
structure ScriptTask where
  /-- `ws_id`: the workspace it was launched from. -/
  wsId : String
  /-- `label`. -/
  label : String
  /-- `workspaces`: the ones it owns. -/
  workspaces : List String
  /-- `opened`: the ones it opened. -/
  opened : List String
  /-- `launch_layout`: what the slots showed when it began. -/
  launchLayout : SlotId → Option String
  /-- `ended_by`. -/
  endedBy : Option String

/-- `GuiState`: what its two locks guard. -/
structure GuiState where
  /-- `inner`. -/
  inner : Inner
  /-- `scripts`, by run id. -/
  scripts : String → Option ScriptTask

namespace Inner

/-- `shown_workspaces`. -/
def shownWorkspaces (inner : Inner) (slotId : SlotId) : Option String :=
  if (inner.slot slotId).visible then (inner.slot slotId).workspace else none

/-- Whether a slot holds a workspace of a list. -/
def taken (inner : Inner) (opened : List String) (slotId : SlotId) : Bool :=
  (inner.slot slotId).workspace.any fun ws => decide (ws ∈ opened)

/-- The workspaces a run opened closed, those already closed passed over. -/
def closeAll (opened : List String) (inner : Inner) : Inner :=
  opened.foldl (fun inner wsId => (closeWorkspace wsId inner).2) inner

/-- A slot that was taken given back what it showed. -/
def giveBack (slotId : SlotId) (taken : Bool) (before : Option String) (inner : Inner) : Inner :=
  if !taken then inner
  else
    match before with
    | some wsId => (tabAssign wsId slotId inner).2
    | none => hideSlot slotId inner

/-- `clean_up_after`. -/
def cleanUpAfter (task : ScriptTask) (inner : Inner) : Inner :=
  giveBack .right (inner.taken task.opened .right) (task.launchLayout .right)
    (giveBack .left (inner.taken task.opened .left) (task.launchLayout .left)
      (inner.closeAll task.opened))

/-- The window with nothing in it. -/
def empty : Inner := ⟨[], ⟨false, none, none⟩, ⟨false, none, none⟩, .left, fun _ => none⟩

/-- The state `GuiState::new` starts from: a workspace in the left slot. -/
def initial : Inner :=
  let (id, inner) := empty.newWorkspace none none
  (attempt () inner (inner.assign id .left)).2

end Inner

namespace GuiState

/-- `GuiState::new`. -/
def new : GuiState := ⟨.initial, fun _ => none⟩

/-- `script_begin`. -/
def scriptBegin (taskId wsId label : String) (gui : GuiState) : GuiState :=
  { gui with
    scripts := Function.update gui.scripts taskId
      (some ⟨wsId, label, [wsId], [], gui.inner.shownWorkspaces, none⟩) }

/-- `script_claim_workspace`. -/
def scriptClaimWorkspace (taskId wsId : String) (gui : GuiState) : GuiState :=
  match gui.scripts taskId with
  | none => gui
  | some task =>
      if wsId ∈ task.workspaces then gui
      else
        { gui with
          scripts := Function.update gui.scripts taskId
            (some { task with
              workspaces := task.workspaces ++ [wsId], opened := task.opened ++ [wsId] }) }

/-- `script_mark_stopped`. -/
def scriptMarkStopped (taskId how : String) (gui : GuiState) : GuiState :=
  match gui.scripts taskId with
  | none => gui
  | some task =>
      { gui with scripts := Function.update gui.scripts taskId (some { task with endedBy := some how }) }

/-- `script_end`. -/
def scriptEnd (taskId : String) (gui : GuiState) : GuiState :=
  let scripts := Function.update gui.scripts taskId none
  match (gui.scripts taskId).filter fun task => task.endedBy.isSome with
  | none => { gui with scripts := scripts }
  | some task => ⟨gui.inner.cleanUpAfter task, scripts⟩

end GuiState

/-- A command of the window. -/
inductive Command
  | createWorkspace (activeRepo repoName : Option String) (panels : List (SlotId × String))
  | workspaceNew (activeRepo repoName : Option String)
  | workspaceCreate (activeRepo repoName : Option String) (showIn : Option SlotId)
  | fork (source : String)
  | closeWorkspace (wsId : String)
  | workspaceClose
  | renameWorkspace (wsId name : String)
  | tabAssign (wsId : String) (slotId : SlotId)
  | step (direction : Int) (both : Bool)
  | workspaceGoto (n : Nat)
  | panelSplit
  | panelUnsplit
  | panelSplitToggle
  | hideSlot (slotId : SlotId)
  | panelSwap
  | focusNext
  | focusSlot (slotId : SlotId)
  | setPanelType (slotId : SlotId) (panelType : String)
  | adoptRepo (wsId repo : String) (repoName : Option String)
  | sendVars (wsId : String) (vars : List (String × JsonValue))
  | pickStart (spec : PickSpec)
  | pickConfirm
  | pickCancel
  | applySaved (wsId : String) (saved : SavedWorkspace) (apply : Apply)

/-- What a command does to the workspaces and the slots, whether it fails or not. -/
def Command.perform (inner : Inner) : Command → Inner
  | .createWorkspace activeRepo repoName panels =>
      (inner.createWorkspaceWithPanels activeRepo repoName panels).2
  | .workspaceNew activeRepo repoName => (Inner.workspaceNewNamed activeRepo repoName inner).2
  | .workspaceCreate activeRepo repoName showIn =>
      (Inner.workspaceCreate activeRepo repoName showIn inner).2
  | .fork source => (Inner.fork source inner).2
  | .closeWorkspace wsId => (Inner.closeWorkspace wsId inner).2
  | .workspaceClose => (Inner.workspaceClose inner).2
  | .renameWorkspace wsId name => (Inner.renameWorkspace wsId name inner).2
  | .tabAssign wsId slotId => (Inner.tabAssign wsId slotId inner).2
  | .step direction both => (Inner.step direction both inner).2
  | .workspaceGoto n => (Inner.workspaceGoto n inner).2
  | .panelSplit => (Inner.panelSplit inner).2
  | .panelUnsplit => inner.panelUnsplit
  | .panelSplitToggle => (Inner.panelSplitToggle inner).2
  | .hideSlot slotId => Inner.hideSlot slotId inner
  | .panelSwap => (Inner.panelSwap inner).2
  | .focusNext => inner.focusNext
  | .focusSlot slotId => Inner.focusSlot slotId inner
  | .setPanelType slotId panelType => (Inner.setPanelType slotId panelType inner).2
  | .adoptRepo wsId repo repoName => (Inner.adoptRepoNamed wsId repo repoName inner).2
  | .sendVars wsId vars => (Inner.sendVars wsId vars inner).2
  | .pickStart spec => (Inner.pickStart spec inner).2
  | .pickConfirm => (Inner.pickFinished true inner).2
  | .pickCancel => (Inner.pickFinished false inner).2
  | .applySaved wsId saved apply => (Inner.applySaved wsId saved apply inner).2

/-- A step of the window: a command, or a step of a run. -/
inductive Event
  | command (command : Command)
  | scriptBegin (taskId wsId label : String)
  | scriptClaimWorkspace (taskId wsId : String)
  | scriptMarkStopped (taskId how : String)
  | scriptEnd (taskId : String)

/-- The state after a step. -/
def GuiState.next (gui : GuiState) : Event → GuiState
  | .command command => { gui with inner := command.perform gui.inner }
  | .scriptBegin taskId wsId label => gui.scriptBegin taskId wsId label
  | .scriptClaimWorkspace taskId wsId => gui.scriptClaimWorkspace taskId wsId
  | .scriptMarkStopped taskId how => gui.scriptMarkStopped taskId how
  | .scriptEnd taskId => gui.scriptEnd taskId

end Gui
end Metafolder
