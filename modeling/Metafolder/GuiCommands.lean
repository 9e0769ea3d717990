import Metafolder.Workspaces

/-!
# Commands of the window

The commands on the workspaces, the slots, the value pickers and the saved workspaces, and the runs
of scripts with the clean-up after a stopped one.  Each critical section is a function of its own.
-/

namespace Metafolder
namespace Gui

/-- What a section answers, and the state it leaves: an error keeps what was changed before it. -/
abbrev Mutation (α : Type) := Inner → Except String α × Inner

/-- `mutate`: the focus is settled unless the section failed. -/
def mutate {α : Type} (change : Mutation α) : Mutation α := fun inner =>
  match change inner with
  | (.ok value, next) => (.ok value, next.settleFocus)
  | (.error error, next) => (.error error, next)

/-- `update`: a section that cannot fail. -/
def update (change : Inner → Inner) (inner : Inner) : Inner := (change inner).settleFocus

/-- A method that changes nothing when it fails, as the end of a section. -/
def attempt {α : Type} (value : α) (inner : Inner) (result : Except String Inner) :
    Except String α × Inner :=
  match result with
  | .ok next => (.ok value, next)
  | .error error => (.error error, inner)

namespace Inner

/-! ### Slots -/

/-- The slot `panel_split` shows. -/
def reveal (target : SlotId) : Mutation Unit := fun inner =>
  match (inner.slot target).workspace with
  | some _ => (.ok (), (inner.setVisible target true).recordSplit)
  | none =>
      match (inner.slot inner.focused).workspace with
      | some wsId => attempt () inner ((inner.assign wsId target).map recordSplit)
      | none =>
          let (id, next) := inner.newWorkspace none none
          attempt () next ((next.assign id target).map recordSplit)

/-- `panel_split`. -/
def panelSplit : Mutation Unit := mutate fun inner =>
  if !inner.right.visible then reveal .right inner
  else if !inner.left.visible then reveal .left inner
  else (.ok (), inner)

/-- `panel_unsplit`. -/
def panelUnsplit : Inner → Inner := update fun inner =>
  (inner.setVisible inner.focused.other false).recordSplit

/-- `panel_split_toggle`. -/
def panelSplitToggle : Mutation Unit := fun inner =>
  if inner.left.visible && inner.right.visible then (.ok (), inner.panelUnsplit)
  else panelSplit inner

/-- `hide_slot`. -/
def hideSlot (slotId : SlotId) : Inner → Inner := update fun inner =>
  let inner := inner.setVisible slotId false
  let inner :=
    if inner.focused = slotId && (inner.slot slotId.other).visible then inner.setFocused slotId.other
    else inner
  inner.recordSplit

/-- A workspace changed through `workspace_mut`, if it exists. -/
def changeKnown (wsId : String) (f : Workspace → Workspace) : Mutation Unit := fun inner =>
  attempt () inner ((inner.workspace wsId).map fun _ => inner.change wsId f)

/-- A panel type remembered by a workspace for a slot, or forgotten. -/
def rememberPanel (wsId : String) (slotId : SlotId) (panelType : Option String) : Mutation Unit :=
  changeKnown wsId fun ws => { ws with lastPanel := Function.update ws.lastPanel slotId panelType }

/-- The panel type a slot shows, remembered by its workspace. -/
def rememberShown (slotId : SlotId) : Mutation Unit := fun inner =>
  match (inner.slot slotId).workspace, (inner.slot slotId).panelType with
  | some wsId, some panelType => rememberPanel wsId slotId (some panelType) inner
  | _, _ => (.ok (), inner)

/-- `panel_swap`. -/
def panelSwap : Mutation Unit := mutate fun inner =>
  if !(inner.left.visible && inner.right.visible) then
    (.error "both panel slots must be visible to swap", inner)
  else
    let inner :=
      { inner with
        left := { inner.left with panelType := inner.right.panelType }
        right := { inner.right with panelType := inner.left.panelType } }
    match rememberShown .left inner with
    | (.error error, inner) => (.error error, inner)
    | (.ok _, inner) => rememberShown .right inner

/-- `focus_next`. -/
def focusNext : Inner → Inner := update fun inner =>
  if (inner.slot inner.focused.other).visible then inner.setFocused inner.focused.other
  else inner

/-- `focus_slot`. -/
def focusSlot (slotId : SlotId) : Inner → Inner := update fun inner =>
  if (inner.slot slotId).visible && inner.focused ≠ slotId then inner.setFocused slotId
  else inner

/-- The other slot made to forget its panel type, if it is the one to be shown here. -/
def dropCollision (wsId panelType : String) (slotId : SlotId) : Mutation Unit := fun inner =>
  let other := inner.slot slotId.other
  if other.workspace = some wsId && other.panelType = some panelType then
    rememberPanel wsId slotId.other none
      (inner.setSlot slotId.other { other with panelType := none })
  else (.ok (), inner)

/-- `set_panel_type`. -/
def setPanelType (slotId : SlotId) (panelType : String) : Mutation Unit := mutate fun inner =>
  match (inner.slot slotId).workspace with
  | none => (.error "no workspace assigned to this slot", inner)
  | some wsId =>
      if inner.otherShows slotId wsId panelType then
        (.error s!"'{panelType}' is already displayed for this workspace in the other panel", inner)
      else
        match dropCollision wsId panelType slotId inner with
        | (.error error, inner) => (.error error, inner)
        | (.ok _, inner) =>
            rememberPanel wsId slotId (some panelType)
              (inner.setSlot slotId { inner.slot slotId with panelType := some panelType })

/-- `adopt_repo_named`. -/
def adoptRepoNamed (wsId repo : String) (repoName : Option String) : Mutation Unit := fun inner =>
  match inner.workspace wsId with
  | .error error => (.error error, inner)
  | .ok ws =>
      if ws.activeRepo.isSome then
        (.error "this workspace already has a repository; open a new tab", inner)
      else
        let base := repoName.getD "Workspace"
        let index := inner.nextIndexForBase base
        (.ok (), inner.change wsId fun ws =>
          { ws with
            activeRepo := some repo
            repoName := repoName
            autoIndex := if ws.autoIndex.isSome then some index else ws.autoIndex
            name := if ws.autoIndex.isSome then s!"{base} {index}" else ws.name })

/-! ### Workspaces -/

/-- `create_workspace_with_panels`. -/
def createWorkspaceWithPanels (activeRepo repoName : Option String)
    (panels : List (SlotId × String)) (inner : Inner) : String × Inner :=
  let (id, next) := inner.newWorkspace activeRepo repoName
  (id, (next.change id fun ws =>
    { ws with
      lastPanel := panels.foldl (fun last panel => Function.update last panel.1 (some panel.2))
        ws.lastPanel }).settleFocus)

/-- The repository a new workspace inherits, and its name. -/
def inherited (inner : Inner) : Option String × Option String :=
  match (inner.slot inner.focused).workspace with
  | none => (none, none)
  | some wsId =>
      match inner.workspace wsId with
      | .ok ws => (ws.activeRepo, ws.repoName)
      | .error _ => (none, none)

/-- `workspace_create`. -/
def workspaceCreate (activeRepo repoName : Option String) (showIn : Option SlotId) :
    Mutation String := mutate fun inner =>
  let (id, next) := inner.newWorkspace activeRepo repoName
  attempt id next (next.showNewWorkspace id showIn)

/-- `workspace_new_named`: what it expects of `assign_both` is that it does not fail. -/
def workspaceNewNamed (activeRepo repoName : Option String) : Mutation String := fun inner =>
  match activeRepo with
  | some repo => workspaceCreate (some repo) repoName none inner
  | none => workspaceCreate inner.inherited.1 inner.inherited.2 none inner

/-- `send_vars`. -/
def sendVars (wsId : String) (vars : List (String × JsonValue)) : Mutation Unit := fun inner =>
  if vars.any fun entry => entry.1 = "active_repo" then
    (.error "active_repo is set at workspace creation and cannot change", inner)
  else changeKnown wsId (fun ws => { ws with vars := ws.vars.extend vars }) inner

/-- Whether a workspace is a value picker: its `pick_request` is set. -/
def isPicker (ws : Workspace) : Bool :=
  (ws.vars "pick_request").any fun request => !request.isNull

/-- `fork`. -/
def fork (source : String) : Mutation String := mutate fun inner =>
  match inner.workspace source with
  | .error error => (.error error, inner)
  | .ok ws =>
      if isPicker ws then
        (.error "a value picker cannot be forked: confirm or cancel it first", inner)
      else
        let (id, next) := inner.newWorkspace ws.activeRepo ws.repoName
        let next := next.change id fun forked =>
          { forked with vars := ws.vars, lastPanel := ws.lastPanel, split := ws.split }
        attempt id next (next.showNewWorkspace id none)

/-- `rename_workspace`. -/
def renameWorkspace (wsId name : String) : Mutation Unit :=
  mutate (changeKnown wsId fun ws => { ws with name := name, autoIndex := none })

/-- `tab_assign`. -/
def tabAssign (wsId : String) (slotId : SlotId) : Mutation Unit := mutate fun inner =>
  attempt () inner ((inner.assign wsId slotId).map recordSplit)

/-- `step`: the workspace so many tabs further, in both slots or in the focused one. -/
def step (direction : Int) (both : Bool) : Mutation Unit := mutate fun inner =>
  if inner.workspaces.isEmpty then (.error "no workspaces", inner)
  else
    let position := (inner.slot inner.focused).workspace.bind fun id =>
      inner.workspaces.findIdx? fun ws => ws.id = id
    let target :=
      match position with
      | some pos => ((pos + direction) % (inner.workspaces.length : Int)).toNat
      | none => 0
    match inner.workspaces[target]? with
    | none => (.ok (), inner)
    | some ws =>
        attempt () inner (if both then inner.assignBoth ws.id else inner.assign ws.id inner.focused)

/-- `workspace_goto`. -/
def workspaceGoto (n : Nat) : Mutation Unit := mutate fun inner =>
  match n with
  | 0 => (.error s!"no workspace at position {n}", inner)
  | m + 1 =>
      match inner.workspaces[m]? with
      | none => (.error s!"no workspace at position {n}", inner)
      | some ws => attempt () inner (inner.assignBoth ws.id)

end Inner

/-! ### Value pickers -/

/-- `PickSpec`. -/
structure PickSpec where
  /-- `caller_ws`. -/
  callerWs : String
  /-- `token`. -/
  token : JsonValue
  /-- `repo`. -/
  repo : Option String
  /-- `name`. -/
  name : Option String
  /-- `result`. -/
  result : Option String
  /-- The panel type of `panel`. -/
  panelType : String
  /-- The variables of `panel`. -/
  vars : List (String × JsonValue)

/-- The `pick_request` of a picker. -/
def pickRequest (spec : PickSpec) (pickerSlot : SlotId) (prior : Slot) : JsonValue :=
  .object
    [("caller_ws", .string spec.callerWs), ("token", spec.token),
      ("picker_slot", .string (slotName pickerSlot)),
      ("restore", .object
        [("workspace", .ofText prior.workspace), ("panel_type", .ofText prior.panelType),
          ("visible", .bool prior.visible)]),
      ("result", .string (spec.result.getD "uuid"))]

/-- What `finish_pick` reads of a picker. -/
structure Ending where
  /-- `caller_ws`. -/
  callerWs : String
  /-- `token`. -/
  token : JsonValue
  /-- `picker_slot`. -/
  pickerSlot : SlotId
  /-- `restore`. -/
  restore : JsonValue
  /-- `result_kind`. -/
  resultKind : String
  /-- `selected`. -/
  selected : JsonValue
  /-- `paths`. -/
  paths : JsonValue

namespace Inner

/-- `pick_start`, but for the prompt. -/
def pickStart (spec : PickSpec) : Mutation String := mutate fun inner =>
  match inner.workspace spec.callerWs with
  | .error error => (.error error, inner)
  | .ok _ =>
      let pickerSlot := inner.focused.other
      let request := pickRequest spec pickerSlot (inner.slot pickerSlot)
      let (id, next) := inner.newWorkspace spec.repo none
      let next := next.change id fun ws =>
        { ws with
          name := spec.name.getD ws.name
          autoIndex := if spec.name.isSome then none else ws.autoIndex
          vars := ws.vars.extend (spec.vars ++ [("pick_request", request)])
          lastPanel := Function.update ws.lastPanel pickerSlot (some spec.panelType) }
      attempt id next (next.showNewWorkspace id (some pickerSlot))

/-- The first section of `finish_pick`: the request and the selection of a picker. -/
def readPick (inner : Inner) (pickerWs : String) : Except String Ending := do
  let ws ← inner.workspace pickerWs
  match (ws.vars "pick_request").filter fun request => !request.isNull with
  | none => .error "the focused workspace is not a value picker"
  | some request =>
      match (request.field "caller_ws").asStr,
          (request.field "picker_slot").asStr.bind slotFromName with
      | some callerWs, some pickerSlot =>
          return {
            callerWs := callerWs
            token := request.field "token"
            pickerSlot := pickerSlot
            restore := request.field "restore"
            resultKind := (request.field "result").asStr.getD "uuid"
            selected := (ws.vars "selected_metarecord").getD .null
            paths := (ws.vars "selected_paths").getD .null }
      | _, _ => .error "malformed pick_request"

/-- What the slot of a picker is given back: what it showed before, if that still exists. -/
def restored (inner : Inner) (restore : JsonValue) : Slot :=
  let prior := (restore.field "workspace").asStr.filter fun ws => (inner.workspace ws).isOk
  { visible := prior.isSome && (restore.field "visible").asBool.getD false
    workspace := prior
    panelType := if prior.isSome then (restore.field "panel_type").asStr else none }

/-- The slot of the caller shown again, where the window would show nothing. -/
def showCaller (pickerSlot : SlotId) (inner : Inner) : Inner :=
  if !(inner.slot pickerSlot).visible && (inner.slot pickerSlot.other).workspace.isSome then
    inner.setVisible pickerSlot.other true
  else inner

/-- The second section of `finish_pick`: the picker closed, the slots given back. -/
def closePick (ending : Ending) (pickerWs : String) : Mutation Unit := mutate fun inner =>
  match inner.workspace ending.callerWs with
  | .error error => (.error error, inner)
  | .ok _ =>
      let inner := inner.remove pickerWs
      let callerSlot := ending.pickerSlot.other
      let inner :=
        (inner.setSlot ending.pickerSlot (inner.restored ending.restore)).setFocused callerSlot
      if (inner.slot callerSlot).workspace = some pickerWs then
        attempt () inner ((inner.assign ending.callerWs callerSlot).map fun next =>
          (next.setVisible callerSlot (inner.slot callerSlot).visible).showCaller
            ending.pickerSlot)
      else (.ok (), inner.showCaller ending.pickerSlot)

end Inner

/-- The result of a picker. -/
def pickResult (ending : Ending) (confirm : Bool) : Except String JsonValue :=
  if !confirm then .ok (.object [("token", ending.token), ("cancelled", .bool true)])
  else if ending.resultKind = "path" then
    match ending.paths with
    | .array (path :: _) =>
        if path.isString || (path.field "bytes").isString then
          .ok (.object [("token", ending.token), ("path", path)])
        else .error "no path selected in the picker"
    | _ => .error "no path selected in the picker"
  else
    match (ending.selected.field "uuid").asStr with
    | some uuid => .ok (.object [("token", ending.token), ("uuid", .string uuid)])
    | none => .error "no metarecord selected in the picker"

namespace Inner

/-- `finish_pick`, its three sections one after the other. -/
def finishPick (pickerWs : String) (confirm : Bool) : Mutation Unit := fun inner =>
  match inner.readPick pickerWs with
  | .error error => (.error error, inner)
  | .ok ending =>
      match pickResult ending confirm with
      | .error error => (.error error, inner)
      | .ok result =>
          match closePick ending pickerWs inner with
          | (.error error, inner) => (.error error, inner)
          | (.ok _, inner) => sendVars ending.callerWs [("pick_result", result)] inner

/-- `pick_confirm` and `pick_cancel`: the picker is the workspace in the focused slot. -/
def pickFinished (confirm : Bool) : Mutation Unit := fun inner =>
  match (inner.slot inner.focused).workspace with
  | none => (.error "no focused workspace", inner)
  | some picker => finishPick picker confirm inner

/-! ### Closing -/

/-- A slot that showed a workspace now closed. -/
def replaceIn (wsId : String) (replacement : Option String) (slotId : SlotId) (inner : Inner) :
    Except String Inner :=
  if (inner.slot slotId).workspace ≠ some wsId then .ok inner
  else
    match replacement with
    | some id => do
        let next ← inner.assign id slotId
        return next.setVisible slotId (inner.slot slotId).visible
    | none => .ok (inner.setSlot slotId { inner.slot slotId with workspace := none, panelType := none })

/-- The workspace shown in place of one closed: the one before it in tab order. -/
def replacement (wsId : String) (index : Nat) (inner : Inner) : Option String :=
  (inner.remove wsId).workspaces[index - 1]?.map Workspace.id

/-- The last section of `close_workspace`: the tab taken away, and what is shown in its place. -/
def closeTab (wsId : String) : Mutation Unit := mutate fun inner =>
  match inner.workspaces.findIdx? fun ws => ws.id = wsId with
  | none => (.error s!"unknown workspace: {wsId}", inner)
  | some index =>
      let owned := inner.ownsWindow wsId
      let replacement := inner.replacement wsId index
      let inner := inner.remove wsId
      match owned, replacement with
      | true, some id => attempt () inner (inner.assignBoth id)
      | _, _ =>
          attempt () inner (do
            let next ← inner.replaceIn wsId replacement .left
            next.replaceIn wsId replacement .right)

/-- `close_workspace`: a picker closed is cancelled, unless its caller is gone. -/
def closeWorkspace (wsId : String) : Mutation Unit := fun inner =>
  match inner.workspace wsId with
  | .error _ => closeTab wsId inner
  | .ok ws =>
      if isPicker ws then
        match finishPick wsId false inner with
        | (.ok _, next) => (.ok (), next)
        | (.error _, next) => closeTab wsId next
      else closeTab wsId inner

/-- `workspace_close`. -/
def workspaceClose : Mutation Unit := fun inner =>
  match (inner.slot inner.focused).workspace with
  | none => (.error "no workspace in the focused slot", inner)
  | some wsId => closeWorkspace wsId inner

end Inner

/-! ### Saved workspaces -/

/-- `SavedWorkspace`: its variables, and its `Slots`. -/
structure SavedWorkspace where
  /-- `layout`. -/
  layout : List (String × JsonValue)
  /-- `work`. -/
  work : Option (List (String × JsonValue))
  /-- `shown`. -/
  shown : Nat
  /-- `left`. -/
  left : Option String
  /-- `right`. -/
  right : Option String

/-- `NEVER_SAVED`. -/
def NEVER_SAVED : List String := ["active_repo", "metarecords:dirty", "pick_request", "pick_result"]

/-- `Apply`. -/
inductive Apply
  | whole
  | layoutVars
deriving DecidableEq

namespace Inner

/-- The slot cleared by `show_saved_panels` before it is assigned anew. -/
def clearPanel (wsId : String) (slotId : SlotId) (inner : Inner) : Inner :=
  if (inner.slot slotId).workspace = some wsId then
    inner.setSlot slotId { inner.slot slotId with panelType := none }
  else inner

/-- The slot that shows a workspace assigned to it again. -/
def reassign (wsId : String) (slotId : SlotId) (inner : Inner) : Except String Inner :=
  if (inner.slot slotId).visible && (inner.slot slotId).workspace = some wsId then
    inner.assign wsId slotId
  else .ok inner

/-- `show_saved_panels`. -/
def showSavedPanels (inner : Inner) (wsId : String) : Except String Inner :=
  if inner.ownsWindow wsId then
    ((inner.clearPanel wsId .left).clearPanel wsId .right).assignBoth wsId
  else do
    let next ← inner.reassign wsId .left
    next.reassign wsId .right

/-- `apply_saved`. -/
def applySaved (wsId : String) (saved : SavedWorkspace) (apply : Apply) : Mutation Unit :=
  let vars := (saved.layout ++ if apply = .whole then saved.work.getD [] else []).filter
    fun entry => decide (entry.1 ∉ NEVER_SAVED)
  mutate fun inner =>
    match inner.workspace wsId with
    | .error error => (.error error, inner)
    | .ok ws =>
        match apply with
        | .layoutVars =>
            let vars := vars.filter fun entry => (ws.vars entry.1).isNone
            (.ok (), inner.change wsId fun ws => { ws with vars := ws.vars.extend vars })
        | .whole =>
            let inner := inner.change wsId fun ws =>
              { ws with
                vars := ws.vars.extend vars
                lastPanel := fun slotId =>
                  match slotId with
                  | .left => saved.left
                  | .right => saved.right
                split := 2 ≤ saved.shown }
            attempt () inner (inner.showSavedPanels wsId)

end Inner

end Gui
end Metafolder
