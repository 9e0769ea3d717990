import Mathlib.Data.List.Basic
import Mathlib.Data.List.Nodup
import Mathlib.Data.List.Perm.Subperm
import Mathlib.Logic.Function.Basic

/-!
# Workspaces

The state of the window: the workspaces in tab order, the two slots that show them, the one that has
the focus and the global variables, with the methods that the commands are made of.
-/

namespace Metafolder
namespace Gui

/-! ### Values -/

/-- The value of a variable. -/
inductive JsonValue
  | null
  | bool (value : Bool)
  | number (digits : String)
  | string (text : String)
  | array (items : List JsonValue)
  | object (fields : List (String × JsonValue))

namespace JsonValue

/-- `value[key]`: `null` where there is no such field. -/
def field (value : JsonValue) (key : String) : JsonValue :=
  match value with
  | .object fields => (fields.lookup key).getD .null
  | _ => .null

/-- `as_str`. -/
def asStr : JsonValue → Option String
  | .string text => some text
  | _ => none

/-- `as_bool`. -/
def asBool : JsonValue → Option Bool
  | .bool value => some value
  | _ => none

/-- `is_null`. -/
def isNull : JsonValue → Bool
  | .null => true
  | _ => false

/-- `is_string`. -/
def isString : JsonValue → Bool
  | .string _ => true
  | _ => false

/-- A text that may be missing. -/
def ofText : Option String → JsonValue
  | some text => .string text
  | none => .null

end JsonValue

/-- `Vars`: the variables of a workspace, or the global ones. -/
abbrev Vars := String → Option JsonValue

/-- `Vars::insert`. -/
def Vars.insert (vars : Vars) (key : String) (value : JsonValue) : Vars :=
  Function.update vars key (some value)

/-- `Vars::extend`. -/
def Vars.extend (vars : Vars) (more : List (String × JsonValue)) : Vars :=
  more.foldl (fun vars entry => vars.insert entry.1 entry.2) vars

/-! ### Slots -/

/-- `SlotId`. -/
inductive SlotId
  | left
  | right
deriving DecidableEq

/-- `SlotId::other`. -/
def SlotId.other : SlotId → SlotId
  | .left => .right
  | .right => .left

@[simp]
theorem SlotId.other_other (slotId : SlotId) : slotId.other.other = slotId := by
  cases slotId <;> rfl

@[simp]
theorem SlotId.other_ne (slotId : SlotId) : slotId.other ≠ slotId := by
  cases slotId <;> exact SlotId.noConfusion

theorem SlotId.eq_or_eq_other (slotId first : SlotId) : slotId = first ∨ slotId = first.other := by
  cases slotId <;> cases first <;> simp [SlotId.other]

/-- `slot_name`. -/
def slotName : SlotId → String
  | .left => "left"
  | .right => "right"

/-- `slot_from_name`. -/
def slotFromName (name : String) : Option SlotId :=
  if name = "left" then some .left else if name = "right" then some .right else none

/-- `Slot`: the workspace is remembered while the slot is hidden. -/
structure Slot where
  /-- `visible`. -/
  visible : Bool
  /-- `workspace`. -/
  workspace : Option String
  /-- `panel_type`. -/
  panelType : Option String
deriving DecidableEq

/-! ### Workspaces -/

/-- `Workspace`, without its logs and its shell. -/
structure Workspace where
  /-- `id`. -/
  id : String
  /-- `name`. -/
  name : String
  /-- `active_repo`. -/
  activeRepo : Option String
  /-- `repo_name`. -/
  repoName : Option String
  /-- `auto_index`: the number that named it, unless it was named by hand. -/
  autoIndex : Option Nat
  /-- `vars`. -/
  vars : Vars
  /-- `last_panel`: the panel type last shown in each slot. -/
  lastPanel : SlotId → Option String
  /-- `split`: whether it was left with two panels. -/
  split : Bool

/-- `Workspace::base`. -/
def Workspace.base (ws : Workspace) : String := ws.repoName.getD "Workspace"

/-- `default_panel_type`. -/
def defaultPanelType : Option String → String
  | some _ => "metarecord-list"
  | none => "repos"

/-- The first number from 1 on that is not used, of as many as asked about. -/
def firstUnused (used : Nat → Bool) (bound : Nat) : Nat :=
  ((List.range' 1 bound).find? fun n => !used n).getD 1

/-- The id a workspace is given with a number. -/
def workspaceId (n : Nat) : String := s!"ws-{n}"

theorem workspaceId_injective : Function.Injective workspaceId := by
  intro first second same
  have digits : Nat.toDigits 10 first = Nat.toDigits 10 second := by
    have texts := congrArg String.toList same
    simpa [workspaceId] using texts
  have values := congrArg (fun chars => Nat.ofDigitChars 10 chars 0) digits
  simpa using values

theorem firstUnused_unused {used : Nat → Bool} {bound n : Nat} (inside : n ∈ List.range' 1 bound)
    (unused : used n = false) : used (firstUnused used bound) = false := by
  unfold firstUnused
  cases found : (List.range' 1 bound).find? fun n => !used n with
  | none =>
      have all := List.find?_eq_none.mp found n inside
      simp [unused] at all
  | some m =>
      have free := List.find?_some found
      simpa using free

/-- `Inner`. -/
structure Inner where
  /-- `workspaces`, in tab order. -/
  workspaces : List Workspace
  /-- `left`. -/
  left : Slot
  /-- `right`. -/
  right : Slot
  /-- `focused`. -/
  focused : SlotId
  /-- `globals`. -/
  globals : Vars

namespace Inner

/-- `slot`. -/
def slot (inner : Inner) : SlotId → Slot
  | .left => inner.left
  | .right => inner.right

/-- A slot changed through `slot_mut`. -/
def setSlot (inner : Inner) (slotId : SlotId) (slot : Slot) : Inner :=
  match slotId with
  | .left => { inner with left := slot }
  | .right => { inner with right := slot }

/-- A slot shown or hidden. -/
def setVisible (inner : Inner) (slotId : SlotId) (visible : Bool) : Inner :=
  inner.setSlot slotId { inner.slot slotId with visible := visible }

/-- The focus put on a slot. -/
def setFocused (inner : Inner) (slotId : SlotId) : Inner := { inner with focused := slotId }

/-- The ids of the workspaces. -/
def ids (inner : Inner) : List String := inner.workspaces.map Workspace.id

/-- `workspace`. -/
def workspace (inner : Inner) (id : String) : Except String Workspace :=
  match inner.workspaces.find? fun ws => ws.id = id with
  | some ws => .ok ws
  | none => .error s!"unknown workspace: {id}"

/-- The first workspace of an id changed. -/
def changeFirst (id : String) (change : Workspace → Workspace) : List Workspace → List Workspace
  | [] => []
  | ws :: rest => if ws.id = id then change ws :: rest else ws :: changeFirst id change rest

/-- A workspace changed through `workspace_mut`. -/
def change (inner : Inner) (id : String) (f : Workspace → Workspace) : Inner :=
  { inner with workspaces := changeFirst id f inner.workspaces }

/-- The first workspace of an id taken out of the tabs. -/
def remove (inner : Inner) (wsId : String) : Inner :=
  { inner with workspaces := inner.workspaces.eraseP fun ws => ws.id = wsId }

/-- `next_workspace_number`. -/
def nextWorkspaceNumber (inner : Inner) : Nat :=
  firstUnused (fun n => decide (workspaceId n ∈ inner.ids)) (inner.workspaces.length + 1)

/-- `next_index_for_base`. -/
def nextIndexForBase (inner : Inner) (base : String) : Nat :=
  firstUnused
    (fun n => inner.workspaces.any fun ws => ws.base = base && ws.autoIndex = some n)
    (inner.workspaces.length + 1)

/-- The workspace `new_workspace` makes. -/
def freshWorkspace (inner : Inner) (activeRepo repoName : Option String) : Workspace :=
  let base := repoName.getD "Workspace"
  let index := inner.nextIndexForBase base
  { id := workspaceId inner.nextWorkspaceNumber
    name := s!"{base} {index}"
    activeRepo := activeRepo
    repoName := repoName
    autoIndex := some index
    vars := fun _ => none
    lastPanel := fun _ => none
    split := false }

/-- `new_workspace`: the id, and the workspace at the end. -/
def newWorkspace (inner : Inner) (activeRepo repoName : Option String) : String × Inner :=
  let ws := inner.freshWorkspace activeRepo repoName
  (ws.id, { inner with workspaces := inner.workspaces ++ [ws] })

/-- Whether the slot beside one shows a panel type of a workspace. -/
def otherShows (inner : Inner) (slotId : SlotId) (wsId panelType : String) : Bool :=
  let other := inner.slot slotId.other
  other.visible && other.workspace = some wsId && other.panelType = some panelType

/-- The panel type `assign` shows. -/
def panelFor (inner : Inner) (ws : Workspace) (wsId : String) (slotId : SlotId) : Option String :=
  let wanted := (ws.lastPanel slotId).getD (defaultPanelType ws.activeRepo)
  if !inner.otherShows slotId wsId wanted then some wanted
  else if ws.activeRepo.isSome && !inner.otherShows slotId wsId "metarecord-detail" then
    some "metarecord-detail"
  else none

/-- `assign`. -/
def assign (inner : Inner) (wsId : String) (slotId : SlotId) : Except String Inner := do
  let ws ← inner.workspace wsId
  return inner.setSlot slotId ⟨true, some wsId, inner.panelFor ws wsId slotId⟩

/-- `assign_both`. -/
def assignBoth (inner : Inner) (wsId : String) : Except String Inner := do
  let ws ← inner.workspace wsId
  let focused := inner.focused
  let inner ← inner.assign wsId focused
  let inner ← inner.assign wsId focused.other
  return inner.setVisible focused.other ws.split

/-- `show_new_workspace`. -/
def showNewWorkspace (inner : Inner) (wsId : String) : Option SlotId → Except String Inner
  | some slotId => do
      let inner ← inner.assign wsId slotId
      return inner.setFocused slotId
  | none => inner.assignBoth wsId

/-- `record_split`. -/
def recordSplit (inner : Inner) : Inner :=
  let slot := inner.slot inner.focused
  match slot.workspace with
  | none => inner
  | some wsId =>
      if !slot.visible then inner
      else
        let other := inner.slot inner.focused.other
        let otherSame := other.visible && other.workspace = some wsId
        if otherSame || !other.visible then
          inner.change wsId fun ws => { ws with split := otherSame }
        else inner

/-- `settle_focus`. -/
def settleFocus (inner : Inner) : Inner :=
  if (inner.slot inner.focused).visible || !(inner.slot inner.focused.other).visible then inner
  else inner.setFocused inner.focused.other

/-- `owns_window`. -/
def ownsWindow (inner : Inner) (wsId : String) : Bool :=
  let slot := inner.slot inner.focused
  let other := inner.slot inner.focused.other
  slot.visible && slot.workspace = some wsId && (!other.visible || other.workspace = some wsId)

/-! ### What the methods leave alone -/

section Frames

variable (inner : Inner) (slotId : SlotId) (slot : Slot)

@[simp]
theorem slot_setSlot : (inner.setSlot slotId slot).slot slotId = slot := by
  cases slotId <;> rfl

@[simp]
theorem slot_other_setSlot :
    (inner.setSlot slotId slot).slot slotId.other = inner.slot slotId.other := by
  cases slotId <;> rfl

@[simp]
theorem slot_setSlot_other : (inner.setSlot slotId.other slot).slot slotId = inner.slot slotId := by
  cases slotId <;> rfl

@[simp]
theorem setVisible_setSlot (visible : Bool) :
    (inner.setSlot slotId slot).setVisible slotId visible =
      inner.setSlot slotId { slot with visible := visible } := by
  cases slotId <;> rfl

@[simp]
theorem workspaces_setSlot : (inner.setSlot slotId slot).workspaces = inner.workspaces := by
  cases slotId <;> rfl

@[simp]
theorem focused_setSlot : (inner.setSlot slotId slot).focused = inner.focused := by
  cases slotId <;> rfl

@[simp]
theorem ids_setSlot : (inner.setSlot slotId slot).ids = inner.ids := by
  simp [ids]

@[simp]
theorem slot_setFocused (focused : SlotId) :
    (inner.setFocused focused).slot slotId = inner.slot slotId := by
  cases slotId <;> rfl

@[simp]
theorem workspaces_setFocused : (inner.setFocused slotId).workspaces = inner.workspaces := rfl

@[simp]
theorem ids_setFocused : (inner.setFocused slotId).ids = inner.ids := rfl

@[simp]
theorem focused_setFocused : (inner.setFocused slotId).focused = slotId := rfl

@[simp]
theorem slot_change (id : String) (f : Workspace → Workspace) :
    (inner.change id f).slot slotId = inner.slot slotId := by
  cases slotId <;> rfl

@[simp]
theorem focused_change (id : String) (f : Workspace → Workspace) :
    (inner.change id f).focused = inner.focused := rfl

@[simp]
theorem slot_newWorkspace (activeRepo repoName : Option String) :
    (inner.newWorkspace activeRepo repoName).2.slot slotId = inner.slot slotId := by
  cases slotId <;> rfl

@[simp]
theorem focused_newWorkspace (activeRepo repoName : Option String) :
    (inner.newWorkspace activeRepo repoName).2.focused = inner.focused := rfl

@[simp]
theorem ids_newWorkspace (activeRepo repoName : Option String) :
    (inner.newWorkspace activeRepo repoName).2.ids =
      inner.ids ++ [(inner.newWorkspace activeRepo repoName).1] := by
  simp [newWorkspace, ids]

theorem newWorkspace_mem (activeRepo repoName : Option String) :
    (inner.newWorkspace activeRepo repoName).1 ∈ (inner.newWorkspace activeRepo repoName).2.ids := by
  rw [ids_newWorkspace]
  exact List.mem_append_right _ List.mem_cons_self

theorem workspace_setSlot (id : String) :
    (inner.setSlot slotId slot).workspace id = inner.workspace id := by
  simp [workspace]

theorem changeFirst_ids {id : String} {f : Workspace → Workspace} (keeps : ∀ ws, (f ws).id = ws.id)
    (workspaces : List Workspace) :
    (changeFirst id f workspaces).map Workspace.id = workspaces.map Workspace.id := by
  induction workspaces with
  | nil => rfl
  | cons ws rest ih =>
      rw [changeFirst]
      split
      · simp [keeps]
      · simp [ih]

theorem ids_change {id : String} {f : Workspace → Workspace} (keeps : ∀ ws, (f ws).id = ws.id) :
    (inner.change id f).ids = inner.ids :=
  changeFirst_ids keeps inner.workspaces

@[simp]
theorem slot_remove (id : String) : (inner.remove id).slot slotId = inner.slot slotId := by
  cases slotId <;> rfl

@[simp]
theorem ids_remove (id : String) : (inner.remove id).ids = inner.ids.erase id := by
  rw [ids, ids, List.erase_eq_eraseP, List.eraseP_map]
  have same : (fun ws : Workspace => decide (ws.id = id)) =
      (fun other => id == other) ∘ Workspace.id := by
    funext ws
    by_cases equal : ws.id = id
    · simp [equal]
    · simp [equal, Ne.symm equal]
  rw [← same]
  rfl

end Frames

theorem workspace_eq_ok {inner : Inner} {id : String} {ws : Workspace}
    (found : inner.workspace id = .ok ws) : ws ∈ inner.workspaces ∧ ws.id = id := by
  unfold workspace at found
  cases search : inner.workspaces.find? fun ws => ws.id = id with
  | none => simp [search] at found
  | some other =>
      simp only [search, Except.ok.injEq] at found
      subst found
      have same := List.find?_some search
      exact ⟨List.mem_of_find?_eq_some search, of_decide_eq_true same⟩

theorem mem_ids_iff {inner : Inner} {id : String} :
    id ∈ inner.ids ↔ ∃ ws, inner.workspace id = .ok ws := by
  constructor
  · intro member
    obtain ⟨ws, inside, same⟩ := List.mem_map.mp member
    cases search : inner.workspaces.find? fun ws => ws.id = id with
    | none => exact absurd (decide_eq_true same) (List.find?_eq_none.mp search ws inside)
    | some found => exact ⟨found, by simp [workspace, search]⟩
  · rintro ⟨ws, found⟩
    obtain ⟨inside, same⟩ := workspace_eq_ok found
    exact List.mem_map.mpr ⟨ws, inside, same⟩

/-- A new workspace takes a number that no other has. -/
theorem nextWorkspaceNumber_unused (inner : Inner) :
    workspaceId inner.nextWorkspaceNumber ∉ inner.ids := by
  let numbers := List.range' 1 (inner.workspaces.length + 1)
  have unused : ∃ n ∈ numbers, workspaceId n ∉ inner.ids := by
    by_contra all
    simp only [not_exists, not_and, not_not] at all
    have distinct : (numbers.map workspaceId).Nodup :=
      List.Nodup.map workspaceId_injective List.nodup_range'
    have inside : numbers.map workspaceId ⊆ inner.ids := by
      intro id member
      obtain ⟨n, below, rfl⟩ := List.mem_map.mp member
      exact all n below
    have short := (List.Nodup.subperm distinct inside).length_le
    simp only [numbers, ids, List.length_map, List.length_range'] at short
    omega
  obtain ⟨n, inside, free⟩ := unused
  let used (n : Nat) : Bool := decide (workspaceId n ∈ inner.ids)
  have spec : used inner.nextWorkspaceNumber = false :=
    firstUnused_unused inside (decide_eq_false free : used n = false)
  exact of_decide_eq_false spec

theorem newWorkspace_not_mem (inner : Inner) (activeRepo repoName : Option String) :
    (inner.newWorkspace activeRepo repoName).1 ∉ inner.ids := inner.nextWorkspaceNumber_unused

/-- `record_split` changes at most how many panels one workspace remembers. -/
theorem recordSplit_eq (inner : Inner) :
    inner.recordSplit = inner ∨
      ∃ id split, inner.recordSplit = inner.change id fun ws => { ws with split := split } := by
  simp only [recordSplit]
  split
  · exact .inl rfl
  · split
    · exact .inl rfl
    · split
      · exact .inr ⟨_, _, rfl⟩
      · exact .inl rfl

@[simp]
theorem slot_recordSplit (inner : Inner) (slotId : SlotId) :
    inner.recordSplit.slot slotId = inner.slot slotId := by
  obtain same | ⟨id, split, changed⟩ := inner.recordSplit_eq
  · rw [same]
  · rw [changed, slot_change]

@[simp]
theorem ids_recordSplit (inner : Inner) : inner.recordSplit.ids = inner.ids := by
  obtain same | ⟨id, split, changed⟩ := inner.recordSplit_eq
  · rw [same]
  · rw [changed]
    exact ids_change inner fun _ => rfl

/-- `settle_focus` changes nothing but the focus. -/
theorem settleFocus_eq (inner : Inner) :
    ∃ focused, inner.settleFocus = inner.setFocused focused := by
  unfold settleFocus
  split
  · exact ⟨inner.focused, rfl⟩
  · exact ⟨inner.focused.other, rfl⟩

@[simp]
theorem slot_settleFocus (inner : Inner) (slotId : SlotId) :
    inner.settleFocus.slot slotId = inner.slot slotId := by
  obtain ⟨focused, same⟩ := inner.settleFocus_eq
  rw [same, slot_setFocused]

@[simp]
theorem workspaces_settleFocus (inner : Inner) :
    inner.settleFocus.workspaces = inner.workspaces := by
  obtain ⟨focused, same⟩ := inner.settleFocus_eq
  rw [same, workspaces_setFocused]

@[simp]
theorem ids_settleFocus (inner : Inner) : inner.settleFocus.ids = inner.ids := by
  rw [ids, workspaces_settleFocus, ids]

/-! ### Assignments -/

theorem assign_ok {inner : Inner} {wsId : String} {ws : Workspace}
    (found : inner.workspace wsId = .ok ws) (slotId : SlotId) :
    inner.assign wsId slotId =
      .ok (inner.setSlot slotId ⟨true, some wsId, inner.panelFor ws wsId slotId⟩) := by
  rw [assign, found]
  rfl

theorem assign_eq_ok {inner next : Inner} {wsId : String} {slotId : SlotId}
    (assigned : inner.assign wsId slotId = .ok next) :
    ∃ ws, inner.workspace wsId = .ok ws ∧
      next = inner.setSlot slotId ⟨true, some wsId, inner.panelFor ws wsId slotId⟩ := by
  cases found : inner.workspace wsId with
  | error error =>
      rw [assign, found] at assigned
      exact nomatch assigned
  | ok ws =>
      rw [assign_ok found] at assigned
      exact ⟨ws, rfl, (Except.ok.inj assigned).symm⟩

/-- Both slots are assigned: the one focused first, and shown; the other one as the workspace
remembers. -/
theorem assignBoth_ok {inner : Inner} {wsId : String} {ws : Workspace}
    (found : inner.workspace wsId = .ok ws) :
    ∃ first, inner.assignBoth wsId = .ok
      ((first.setSlot inner.focused.other
        ⟨true, some wsId, first.panelFor ws wsId inner.focused.other⟩).setVisible
          inner.focused.other ws.split) ∧
      first = inner.setSlot inner.focused ⟨true, some wsId, inner.panelFor ws wsId inner.focused⟩ := by
  refine ⟨_, ?_, rfl⟩
  have foundToo : (inner.setSlot inner.focused
      ⟨true, some wsId, inner.panelFor ws wsId inner.focused⟩).workspace wsId = .ok ws := by
    rw [workspace_setSlot, found]
  rw [assignBoth, found]
  change (do
    let next ← inner.assign wsId inner.focused
    let next ← next.assign wsId inner.focused.other
    return next.setVisible inner.focused.other ws.split) = _
  rw [assign_ok found]
  change (do
    let next ← (inner.setSlot inner.focused
      ⟨true, some wsId, inner.panelFor ws wsId inner.focused⟩).assign wsId inner.focused.other
    return next.setVisible inner.focused.other ws.split) = _
  rw [assign_ok foundToo]
  rfl

theorem assignBoth_eq_ok {inner next : Inner} {wsId : String}
    (assigned : inner.assignBoth wsId = .ok next) : ∃ ws, inner.workspace wsId = .ok ws := by
  cases found : inner.workspace wsId with
  | error error =>
      rw [assignBoth, found] at assigned
      exact nomatch assigned
  | ok ws => exact ⟨ws, rfl⟩

end Inner

end Gui
end Metafolder
