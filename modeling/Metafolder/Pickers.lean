import Metafolder.GuiScripts

/-!
# Pickers in flight

Ending a picker takes three sections, each under the lock: the request is read, the picker closed, the
result delivered; closing its tab is one more way to cancel it.  Anything may happen between two
sections.  The history says which workspace an id is, as an id is given out again, who opened each
picker, and what was delivered.
-/

namespace Metafolder
namespace Gui

/-! ### Sections -/

/-- A workspace, of all there ever were: its id, and the section that made it. -/
abbrev Who := String × Nat

/-- A command under way, between two of its sections. -/
inductive Pending
  /-- `close_workspace`, about to see whether the workspace is a picker. -/
  | closing (wsId : String)
  /-- `finish_pick`, about to read the request; on behalf of `close_workspace`, or not. -/
  | asked (wsId : String) (confirm closing : Bool)
  /-- `finish_pick`, about to close the picker whose request it read. -/
  | read (wsId : String) (ending : Ending) (result : JsonValue) (closing : Bool) (birth : Nat)
  /-- `finish_pick`, about to deliver the result. -/
  | closed (wsId : String) (ending : Ending) (result : JsonValue) (closing : Bool) (birth : Nat)
  /-- `close_workspace`, about to take the tab away. -/
  | tab (wsId : String)

/-- The picker whose result is on its way. -/
def Pending.picker : Pending → Option Who
  | .closed wsId _ _ _ birth => some (wsId, birth)
  | _ => none

/-- What a picker was opened with. -/
structure Opened where
  /-- The workspace that opened it. -/
  opener : Who
  /-- `token`. -/
  token : JsonValue

/-- A result delivered. -/
structure Delivery where
  /-- The picker it is of. -/
  picker : Who
  /-- The workspace it was put in. -/
  receiver : Who
  /-- `pick_result`. -/
  result : JsonValue

/-- The window, the commands under way, and what happened. -/
structure Picking where
  inner : Inner
  pending : List Pending := []
  /-- How many sections were run. -/
  clock : Nat := 1
  /-- The section that made the workspace of an id. -/
  born : String → Nat := fun _ => 0
  /-- The pickers opened. -/
  pickers : Who → Option Opened := fun _ => none
  delivered : List Delivery := []

/-- Whether a command is one section, in which no workspace is closed and no request is changed. -/
def Command.isSection : Command → Bool
  | .closeWorkspace _ => false
  | .workspaceClose => false
  | .pickStart _ => false
  | .pickConfirm => false
  | .pickCancel => false
  | .sendVars _ vars => vars.all fun entry => entry.1 ≠ "pick_request"
  | _ => true

/-- A section of the window. -/
inductive PickEvent
  /-- Another command. -/
  | command (command : Command)
  /-- `pick_start`. -/
  | pickStart (spec : PickSpec)
  /-- `pick_confirm` or `pick_cancel`, its first section: the workspace in the focused slot. -/
  | pickFinished (confirm : Bool)
  /-- `close_workspace` is called. -/
  | closeWorkspace (wsId : String)
  /-- `workspace_close`, its first section: the workspace in the focused slot. -/
  | workspaceClose
  /-- The next section of a command under way. -/
  | advance (index : Nat)

namespace Picking

/-- The state a window starts from. -/
def new : Picking := { inner := .initial }

/-- The workspace of an id. -/
def who (world : Picking) (id : String) : Who := (id, world.born id)

/-- The window after a section: a workspace that was not there is a new one. -/
def move (world : Picking) (next : Inner) : Picking :=
  { world with
    inner := next
    clock := world.clock + 1
    born := fun id =>
      if id ∈ next.ids ∧ id ∉ world.inner.ids then world.clock else world.born id }

/-- A command goes on. -/
def push (world : Picking) (pending : Pending) : Picking :=
  { world with pending := world.pending ++ [pending] }

/-- `finish_pick` fails: `close_workspace` closes the tab instead. -/
def failed (world : Picking) (wsId : String) (closing : Bool) : Picking :=
  if closing then world.push (.tab wsId) else world

/-- The next section of a command. -/
def resume (world : Picking) : Pending → Picking
  | .closing wsId =>
      if (world.inner.workspace wsId).toOption.any Inner.isPicker then
        world.push (.asked wsId false true)
      else world.push (.tab wsId)
  | .asked wsId confirm closing =>
      match world.inner.readPick wsId with
      | .error _ => world.failed wsId closing
      | .ok ending =>
          match pickResult ending confirm with
          | .error _ => world.failed wsId closing
          | .ok result => world.push (.read wsId ending result closing (world.born wsId))
  | .read wsId ending result closing birth =>
      match Inner.closePick ending wsId world.inner with
      | (.error _, next) => (world.move next).failed wsId closing
      | (.ok _, next) => (world.move next).push (.closed wsId ending result closing birth)
  | .closed wsId ending result closing birth =>
      match Inner.sendVars ending.callerWs [("pick_result", result)] world.inner with
      | (.error _, next) => (world.move next).failed wsId closing
      | (.ok _, next) =>
          { world.move next with
            delivered := world.delivered ++ [⟨(wsId, birth), world.who ending.callerWs, result⟩] }
  | .tab wsId => world.move (Inner.closeTab wsId world.inner).2

/-- A section is run. -/
def step (world : Picking) : PickEvent → Picking
  | .command command =>
      if command.isSection then world.move (command.perform world.inner) else world
  | .pickStart spec =>
      match Inner.pickStart spec world.inner with
      | (.error _, next) => world.move next
      | (.ok id, next) =>
          { world.move next with
            pickers := Function.update world.pickers (id, world.clock)
              (some ⟨world.who spec.callerWs, spec.token⟩) }
  | .pickFinished confirm =>
      match (world.inner.slot world.inner.focused).workspace with
      | none => world
      | some wsId => world.push (.asked wsId confirm false)
  | .closeWorkspace wsId => world.push (.closing wsId)
  | .workspaceClose =>
      match (world.inner.slot world.inner.focused).workspace with
      | none => world
      | some wsId => world.push (.closing wsId)
  | .advance index =>
      match world.pending[index]? with
      | none => world
      | some pending =>
          { world with pending := world.pending.eraseIdx index }.resume pending

/-! ### What is asked -/

/-- A workspace is open. -/
def Open (world : Picking) (who : Who) : Prop :=
  who.1 ∈ world.inner.ids ∧ world.born who.1 = who.2

/-- Every picker delivers at most one result, its own and to the workspace that opened it; and has
delivered one, once it is closed with nothing on its way, as long as that workspace is open. -/
structure Answered (world : Picking) : Prop where
  once : (world.delivered.map Delivery.picker).Nodup
  own : ∀ delivery ∈ world.delivered, ∃ opened, world.pickers delivery.picker = some opened ∧
    delivery.receiver = opened.opener ∧ delivery.result.field "token" = opened.token
  answered : ∀ {picker opened}, world.pickers picker = some opened → ¬world.Open picker →
    world.Open opened.opener → picker ∉ world.pending.filterMap Pending.picker →
      picker ∈ world.delivered.map Delivery.picker

/-- The picker closed is the one whose request was read, a result is put in the workspace that opened
the picker, and no tab taken away is a picker whose opener is still open. -/
def ClearSection (world : Picking) : Pending → Prop
  | .read wsId ending _ _ birth =>
      ending.callerWs ∈ world.inner.ids → world.Open (wsId, birth)
  | .closed wsId ending _ _ birth =>
      ending.callerWs ∈ world.inner.ids →
        ∀ opened ∈ world.pickers (wsId, birth), world.Open opened.opener
  | .tab wsId =>
      wsId ∈ world.inner.ids → ∀ opened ∈ world.pickers (world.who wsId), ¬world.Open opened.opener
  | _ => True

/-- The condition on a section. -/
def Clear (world : Picking) : PickEvent → Prop
  | .advance index => ∀ pending ∈ world.pending[index]?, world.ClearSection pending
  | _ => True

/-- The states of runs whose sections all meet the condition. -/
inductive Run : Picking → Prop
  | new : Run new
  | step {world : Picking} (run : Run world) (event : PickEvent) (clear : world.Clear event) :
      Run (world.step event)

end Picking

end Gui
end Metafolder
