import Metafolder.GuiScripts

/-!
# The layout of the window

What holds of the two slots and the workspaces whatever is done: ids differ, a slot remembers a
workspace that exists, the slots show different panels and the focus is on a slot that is shown.
A slot hidden may remember what the other one shows by now; shown again, the panel is there twice.
-/

namespace Metafolder
namespace Gui

/-- Two slots show the same panel type of the same workspace. -/
def Alike (first second : Slot) : Prop :=
  first.visible ∧ second.visible ∧ first.workspace.isSome ∧ first.workspace = second.workspace ∧
    first.panelType.isSome ∧ first.panelType = second.panelType

instance (first second : Slot) : Decidable (Alike first second) :=
  inferInstanceAs (Decidable (_ ∧ _))

theorem Alike.symm {first second : Slot} (alike : Alike first second) : Alike second first := by
  obtain ⟨shown, shownToo, some_, same, typed, types⟩ := alike
  exact ⟨shownToo, shown, same ▸ some_, same.symm, types ▸ typed, types.symm⟩

/-- A slot like another one is shown. -/
theorem Alike.shown {visible : Bool} {workspace panelType : Option String} {other : Slot}
    (alike : Alike ⟨visible, workspace, panelType⟩ other) :
    Alike ⟨true, workspace, panelType⟩ other :=
  ⟨rfl, alike.2⟩

namespace Inner

/-- What holds within a section, wherever the focus is. -/
structure Laid (inner : Inner) : Prop where
  /-- The ids differ. -/
  distinct : inner.ids.Nodup
  /-- A slot remembers a workspace that exists. -/
  known : ∀ slotId id, (inner.slot slotId).workspace = some id → id ∈ inner.ids
  /-- The slots do not show the same panel. -/
  apart : ∀ slotId, ¬Alike (inner.slot slotId) (inner.slot slotId.other)

/-- What holds between the sections. -/
structure Coherent (inner : Inner) : Prop extends Laid inner where
  /-- The slot focused is shown whenever one is. -/
  settled : ∀ slotId, (inner.slot slotId).visible → (inner.slot inner.focused).visible

/-- No slot remembers what the other one shows: it may be shown again. -/
def RemembersApart (inner : Inner) : Prop :=
  ∀ slotId, ¬Alike { inner.slot slotId with visible := true } (inner.slot slotId.other)

/-! ### Sections -/

section Laid

variable {inner next : Inner}

theorem Laid.congr (laid : Laid inner) (ids : next.ids = inner.ids)
    (slots : ∀ slotId, next.slot slotId = inner.slot slotId) : Laid next := by
  refine ⟨ids ▸ laid.distinct, fun slotId id remembered => ?_, fun slotId => ?_⟩
  · rw [ids]
    exact laid.known slotId id (slots slotId ▸ remembered)
  · rw [slots, slots]
    exact laid.apart slotId

theorem Laid.setSlot (laid : Laid inner) {slotId : SlotId} {slot : Slot}
    (known : ∀ id, slot.workspace = some id → id ∈ inner.ids)
    (apart : ¬Alike slot (inner.slot slotId.other)) : Laid (inner.setSlot slotId slot) := by
  refine ⟨by simpa using laid.distinct, fun other id remembered => ?_, fun other => ?_⟩
  · rw [ids_setSlot]
    obtain rfl | rfl := other.eq_or_eq_other slotId
    · exact known id (by simpa using remembered)
    · exact laid.known _ id (by simpa using remembered)
  · obtain rfl | rfl := other.eq_or_eq_other slotId
    · simpa using apart
    · simp only [slot_other_setSlot, SlotId.other_other, slot_setSlot]
      exact fun alike => apart alike.symm

theorem Laid.setVisible (laid : Laid inner) {slotId : SlotId} {visible : Bool}
    (apart : visible = true →
      ¬Alike { inner.slot slotId with visible := true } (inner.slot slotId.other)) :
    Laid (inner.setVisible slotId visible) := by
  refine laid.setSlot (fun id remembered => laid.known slotId id remembered) fun alike => ?_
  cases visible with
  | false => exact absurd alike.1 (by simp)
  | true => exact apart rfl alike

theorem Laid.hide (laid : Laid inner) (slotId : SlotId) : Laid (inner.setVisible slotId false) :=
  laid.setVisible fun shown => absurd shown (by simp)

theorem Laid.focus (laid : Laid inner) (focused : SlotId) : Laid (inner.setFocused focused) :=
  laid.congr rfl fun slotId => slot_setFocused inner slotId focused

theorem Laid.change (laid : Laid inner) {id : String} {f : Workspace → Workspace}
    (keeps : ∀ ws, (f ws).id = ws.id) : Laid (inner.change id f) :=
  laid.congr (ids_change inner keeps) fun slotId => slot_change inner slotId id f

theorem Laid.recordSplit (laid : Laid inner) : Laid inner.recordSplit :=
  laid.congr (ids_recordSplit inner) (slot_recordSplit inner)

theorem Laid.newWorkspace (laid : Laid inner) (activeRepo repoName : Option String) :
    Laid (inner.newWorkspace activeRepo repoName).2 := by
  refine ⟨?_, fun slotId id remembered => ?_, fun slotId => ?_⟩
  · rw [ids_newWorkspace, List.nodup_append]
    refine ⟨laid.distinct, by simp, fun id member other new => ?_⟩
    rw [List.mem_singleton.mp new]
    rintro rfl
    exact newWorkspace_not_mem inner activeRepo repoName member
  · rw [slot_newWorkspace] at remembered
    simp [laid.known slotId id remembered]
  · simpa using laid.apart slotId

theorem Laid.settleFocus (laid : Laid inner) : Coherent inner.settleFocus := by
  unfold Inner.settleFocus
  split
  · rename_i shown
    refine ⟨laid, fun slotId visible => ?_⟩
    cases focused : (inner.slot inner.focused).visible with
    | true => rfl
    | false =>
        simp only [focused, Bool.false_or, Bool.not_eq_eq_eq_not] at shown
        obtain rfl | rfl := slotId.eq_or_eq_other inner.focused
        · exact absurd visible (by simp [focused])
        · exact absurd visible (by simp [shown])
  · rename_i hidden
    refine ⟨laid.focus _, fun slotId visible => ?_⟩
    simp only [Bool.or_eq_true, Bool.not_eq_true', not_or, Bool.not_eq_true,
      Bool.not_eq_false] at hidden
    simpa using hidden.2

end Laid

/-- A section leaves the slots laid out, and everything as it was if it fails. -/
structure Sound {α : Type} (inner : Inner) (result : Except String α × Inner) : Prop where
  /-- What is left is laid out. -/
  laid : Laid result.2
  /-- A failure changes nothing. -/
  failed : ∀ error, result.1 = .error error → result.2 = inner

section Sound

variable {α : Type} {inner : Inner}

theorem Sound.ok {next : Inner} (laid : Laid next) (value : α) : Sound inner (.ok value, next) :=
  ⟨laid, fun _ failed => nomatch failed⟩

theorem Sound.error (laid : Laid inner) (error : String) :
    Sound inner ((.error error, inner) : Except String α × Inner) :=
  ⟨laid, fun _ _ => rfl⟩

theorem Sound.attempt (laid : Laid inner) (value : α) {result : Except String Inner}
    (each : ∀ next, result = .ok next → Laid next) : Sound inner (attempt value inner result) := by
  cases result with
  | error error => exact .error laid error
  | ok next => exact .ok (each next rfl) value

theorem Coherent.mutate (coherent : Coherent inner) {change : Mutation α}
    (sound : Sound inner (change inner)) : Coherent (mutate change inner).2 := by
  unfold Gui.mutate
  split
  · rename_i value next changed
    rw [changed] at sound
    exact sound.laid.settleFocus
  · rename_i error next changed
    have same := sound.failed error (by rw [changed])
    rw [changed] at same
    exact same ▸ coherent

end Sound

/-! ### Assignments -/

section Assignments

variable {inner next : Inner}

theorem otherShows_of_alike {wsId panelType : String} {slotId : SlotId}
    (alike : Alike ⟨true, some wsId, some panelType⟩ (inner.slot slotId.other)) :
    inner.otherShows slotId wsId panelType = true := by
  obtain ⟨-, shown, -, same, -, types⟩ := alike
  simp [otherShows, shown, ← same, ← types]

/-- What `assign` shows is not what the other slot shows. -/
theorem panelFor_apart (inner : Inner) (ws : Workspace) (wsId : String) (slotId : SlotId) :
    ¬Alike ⟨true, some wsId, inner.panelFor ws wsId slotId⟩ (inner.slot slotId.other) := by
  simp only [panelFor]
  split
  · rename_i free
    intro alike
    rw [otherShows_of_alike alike] at free
    exact absurd free (by simp)
  · split
    · rename_i free
      intro alike
      rw [otherShows_of_alike alike] at free
      exact absurd free (by simp)
    · exact fun alike => absurd alike.2.2.2.2.1 (by simp)

theorem Laid.assigned (laid : Laid inner) {wsId : String} {ws : Workspace}
    (found : inner.workspace wsId = .ok ws) (slotId : SlotId) :
    Laid (inner.setSlot slotId ⟨true, some wsId, inner.panelFor ws wsId slotId⟩) := by
  refine laid.setSlot (fun id same => ?_) (panelFor_apart inner ws wsId slotId)
  cases same
  exact mem_ids_iff.mpr ⟨ws, found⟩

theorem Laid.assign (laid : Laid inner) {wsId : String} {slotId : SlotId}
    (assigned : inner.assign wsId slotId = .ok next) : Laid next := by
  obtain ⟨ws, found, rfl⟩ := assign_eq_ok assigned
  exact laid.assigned found slotId

/-- Both slots given to a workspace are laid out, whatever they showed. -/
theorem assignBoth_laid (distinct : inner.ids.Nodup) {wsId : String}
    (assigned : inner.assignBoth wsId = .ok next) : Laid next := by
  obtain ⟨ws, found⟩ := assignBoth_eq_ok assigned
  obtain ⟨first, same, began⟩ := assignBoth_ok found
  rw [assigned, Except.ok.injEq] at same
  have member : wsId ∈ inner.ids := mem_ids_iff.mpr ⟨ws, found⟩
  have apart := panelFor_apart first ws wsId inner.focused.other
  subst same began
  refine ⟨by simpa [setVisible] using distinct, fun slotId id remembered => ?_, fun slotId => ?_⟩
  · obtain rfl | rfl := slotId.eq_or_eq_other inner.focused
    all_goals
      simp only [setVisible, slot_setSlot_other, slot_setSlot, Option.some.injEq] at remembered
      subst remembered
      simpa [setVisible] using member
  · -- The slot beside the focused one is shown as the workspace remembers, the panel the same.
    have shown : ¬Alike ((inner.setSlot inner.focused
        ⟨true, some wsId, inner.panelFor ws wsId inner.focused⟩).slot inner.focused)
        ⟨ws.split, some wsId, (inner.setSlot inner.focused
          ⟨true, some wsId, inner.panelFor ws wsId inner.focused⟩).panelFor ws wsId
            inner.focused.other⟩ := by
      intro alike
      refine apart ?_
      rw [SlotId.other_other]
      obtain ⟨first, -, some_, same, typed, types⟩ := alike
      exact ⟨rfl, first, same ▸ some_, same.symm, types ▸ typed, types.symm⟩
    obtain rfl | rfl := slotId.eq_or_eq_other inner.focused
    · simpa [setVisible] using shown
    · simpa [setVisible] using fun alike => shown (Alike.symm alike)

end Assignments

/-! ### Commands on the slots -/

section Slots

variable {inner : Inner}

theorem assign_of_mem {wsId : String} (member : wsId ∈ inner.ids) (slotId : SlotId) :
    ∃ next, inner.assign wsId slotId = .ok next := by
  obtain ⟨ws, found⟩ := mem_ids_iff.mp member
  exact ⟨_, assign_ok found slotId⟩

theorem assignBoth_of_mem {wsId : String} (member : wsId ∈ inner.ids) :
    ∃ next, inner.assignBoth wsId = .ok next := by
  obtain ⟨ws, found⟩ := mem_ids_iff.mp member
  obtain ⟨first, same, -⟩ := assignBoth_ok found
  exact ⟨_, same⟩

theorem Sound.assign (laid : Laid inner) (wsId : String) (slotId : SlotId) :
    Sound inner (Gui.attempt () inner ((inner.assign wsId slotId).map recordSplit)) := by
  refine .attempt laid () fun next mapped => ?_
  cases assigned : inner.assign wsId slotId with
  | error error => simp [assigned, Except.map] at mapped
  | ok given =>
      simp only [assigned, Except.map, Except.ok.injEq] at mapped
      exact mapped ▸ (laid.assign assigned).recordSplit

theorem Sound.reveal (laid : Laid inner) {target : SlotId}
    (apart : ¬Alike { inner.slot target with visible := true } (inner.slot target.other)) :
    Sound inner (inner.reveal target) := by
  unfold Inner.reveal
  split
  · exact .ok (laid.setVisible fun _ => apart).recordSplit ()
  · split
    · exact .assign laid _ target
    · have grown := laid.newWorkspace none none
      have member := newWorkspace_mem inner none none
      obtain ⟨next, assigned⟩ := assign_of_mem member target
      simp only [assigned, Except.map, Gui.attempt]
      exact .ok (grown.assign assigned).recordSplit ()

theorem Coherent.panelSplit (coherent : Coherent inner) (apart : RemembersApart inner) :
    Coherent (panelSplit inner).2 := by
  refine coherent.mutate ?_
  split
  · exact .reveal coherent.toLaid (apart .right)
  · split
    · exact .reveal coherent.toLaid (apart .left)
    · exact .ok coherent.toLaid ()

theorem Laid.update {change : Inner → Inner} (laid : Laid (change inner)) :
    Coherent (update change inner) := laid.settleFocus

theorem Coherent.panelUnsplit (coherent : Coherent inner) : Coherent inner.panelUnsplit :=
  (coherent.toLaid.hide inner.focused.other).recordSplit.update

theorem Coherent.panelSplitToggle (coherent : Coherent inner) (apart : RemembersApart inner) :
    Coherent (panelSplitToggle inner).2 := by
  unfold Inner.panelSplitToggle
  split
  · exact coherent.panelUnsplit
  · exact coherent.panelSplit apart

theorem Coherent.hideSlot (coherent : Coherent inner) (slotId : SlotId) :
    Coherent (hideSlot slotId inner) := by
  refine Laid.update (Laid.recordSplit ?_)
  split
  · exact (coherent.toLaid.hide slotId).focus _
  · exact coherent.toLaid.hide slotId

theorem Coherent.focusNext (coherent : Coherent inner) : Coherent inner.focusNext := by
  refine Laid.update ?_
  split
  · exact coherent.toLaid.focus _
  · exact coherent.toLaid

theorem Coherent.focusSlot (coherent : Coherent inner) (slotId : SlotId) :
    Coherent (focusSlot slotId inner) := by
  refine Laid.update ?_
  split
  · exact coherent.toLaid.focus _
  · exact coherent.toLaid

/-- A known workspace changed: the section does not fail. -/
theorem changeKnown_ok {wsId : String} (member : wsId ∈ inner.ids) (f : Workspace → Workspace) :
    changeKnown wsId f inner = (.ok (), inner.change wsId f) := by
  obtain ⟨ws, found⟩ := mem_ids_iff.mp member
  simp [changeKnown, found, Except.map, Gui.attempt]

theorem Sound.changeKnown (laid : Laid inner) {wsId : String} {f : Workspace → Workspace}
    (keeps : ∀ ws, (f ws).id = ws.id) : Sound inner (changeKnown wsId f inner) := by
  refine .attempt laid () fun next mapped => ?_
  cases found : inner.workspace wsId with
  | error error => simp [found, Except.map] at mapped
  | ok ws =>
      simp only [found, Except.map, Except.ok.injEq] at mapped
      exact mapped ▸ laid.change keeps

theorem rememberShown_ok (laid : Laid inner) (slotId : SlotId) :
    ∃ next, rememberShown slotId inner = (.ok (), next) ∧ next.ids = inner.ids ∧
      ∀ other, next.slot other = inner.slot other := by
  unfold rememberShown
  split
  · rename_i wsId panelType remembered shown
    refine ⟨_, changeKnown_ok (laid.known slotId wsId remembered) _, ids_change inner fun _ => rfl,
      fun other => slot_change inner other _ _⟩
  · exact ⟨inner, rfl, rfl, fun _ => rfl⟩

theorem Coherent.panelSwap (coherent : Coherent inner) : Coherent (panelSwap inner).2 := by
  refine coherent.mutate ?_
  split
  · exact .error coherent.toLaid _
  · rename_i shown
    simp only []
    have swapped : Laid
        { inner with
          left := { inner.left with panelType := inner.right.panelType }
          right := { inner.right with panelType := inner.left.panelType } } := by
      refine ⟨coherent.distinct, fun slotId id remembered => ?_, fun slotId alike => ?_⟩
      · cases slotId with
        | left => exact coherent.known .left id remembered
        | right => exact coherent.known .right id remembered
      · cases slotId with
        | left =>
            obtain ⟨first, second, some_, same, typed, types⟩ := alike
            exact coherent.apart .left ⟨first, second, some_, same, types ▸ typed, types.symm⟩
        | right =>
            obtain ⟨first, second, some_, same, typed, types⟩ := alike
            exact coherent.apart .right ⟨first, second, some_, same, types ▸ typed, types.symm⟩
    obtain ⟨next, first, ids, slots⟩ := rememberShown_ok swapped .left
    rw [first]
    have after := swapped.congr ids slots
    obtain ⟨last, second, idsToo, slotsToo⟩ := rememberShown_ok after .right
    change Sound inner (rememberShown .right next)
    rw [second]
    exact .ok (after.congr idsToo slotsToo) ()

/-- The panel to be shown is nowhere else once the other slot has forgotten it. -/
theorem dropCollision_ok (laid : Laid inner) {wsId : String} (panelType : String) {slotId : SlotId}
    (remembered : (inner.slot slotId).workspace = some wsId) :
    ∃ next, dropCollision wsId panelType slotId inner = (.ok (), next) ∧ Laid next ∧
      next.ids = inner.ids ∧
      ¬Alike { next.slot slotId with panelType := some panelType } (next.slot slotId.other) := by
  have member := laid.known slotId wsId remembered
  simp only [dropCollision]
  split
  · have cleared : Laid (inner.setSlot slotId.other
        { inner.slot slotId.other with panelType := none }) := by
      refine laid.setSlot (fun id same => laid.known slotId.other id same) ?_
      exact fun alike => absurd alike.2.2.2.2.1 (by simp)
    refine ⟨_, changeKnown_ok (by simpa using member) _, cleared.change fun _ => rfl, ?_, ?_⟩
    · refine (ids_change _ ?_).trans (ids_setSlot inner _ _)
      exact fun _ => rfl
    · intro alike
      obtain ⟨-, -, -, -, -, types⟩ := alike
      simp at types
  · rename_i differs
    refine ⟨inner, rfl, laid, rfl, fun alike => ?_⟩
    obtain ⟨-, -, -, same, -, types⟩ := alike
    rw [remembered] at same
    exact differs (by simp [← same, ← types])

theorem Coherent.setPanelType (coherent : Coherent inner) (slotId : SlotId) (panelType : String) :
    Coherent (setPanelType slotId panelType inner).2 := by
  refine coherent.mutate ?_
  split
  · exact .error coherent.toLaid _
  · rename_i wsId remembered
    split
    · exact .error coherent.toLaid _
    · obtain ⟨next, dropped, laid, ids, apart⟩ :=
        dropCollision_ok coherent.toLaid panelType remembered
      have member : wsId ∈ next.ids := ids ▸ coherent.known slotId wsId remembered
      have shown : Laid (next.setSlot slotId
          { next.slot slotId with panelType := some panelType }) :=
        laid.setSlot (fun id same => laid.known slotId id same) apart
      rw [dropped]
      change Sound inner (rememberPanel wsId slotId (some panelType) _)
      rw [rememberPanel, changeKnown_ok (by simpa using member)]
      refine .ok (shown.change ?_) ()
      exact fun _ => rfl

end Slots

/-! ### Commands on the workspaces -/

section Workspaces

variable {inner : Inner}

theorem Coherent.createWorkspaceWithPanels (coherent : Coherent inner)
    (activeRepo repoName : Option String) (panels : List (SlotId × String)) :
    Coherent (inner.createWorkspaceWithPanels activeRepo repoName panels).2 := by
  have grown := coherent.toLaid.newWorkspace activeRepo repoName
  refine Laid.settleFocus (grown.change ?_)
  exact fun _ => rfl

/-- A workspace that exists can be shown. -/
theorem showNewWorkspace_laid (laid : Laid inner) {wsId : String} (member : wsId ∈ inner.ids)
    (showIn : Option SlotId) :
    ∃ next, inner.showNewWorkspace wsId showIn = .ok next ∧ Laid next := by
  cases showIn with
  | some slotId =>
      obtain ⟨next, assigned⟩ := assign_of_mem member slotId
      refine ⟨next.setFocused slotId, ?_, (laid.assign assigned).focus slotId⟩
      rw [showNewWorkspace, assigned]
      rfl
  | none =>
      obtain ⟨next, assigned⟩ := assignBoth_of_mem member
      exact ⟨next, assigned, assignBoth_laid laid.distinct assigned⟩

theorem Sound.showNewWorkspace {next : Inner} (laid : Laid next) {wsId : String}
    (member : wsId ∈ next.ids) (showIn : Option SlotId) :
    Sound inner (Gui.attempt wsId next (next.showNewWorkspace wsId showIn)) := by
  obtain ⟨shown, same, laidToo⟩ := showNewWorkspace_laid laid member showIn
  rw [same]
  exact .ok laidToo wsId

theorem Coherent.workspaceCreate (coherent : Coherent inner) (activeRepo repoName : Option String)
    (showIn : Option SlotId) : Coherent (workspaceCreate activeRepo repoName showIn inner).2 :=
  coherent.mutate (.showNewWorkspace (coherent.toLaid.newWorkspace activeRepo repoName)
    (newWorkspace_mem inner activeRepo repoName) showIn)

theorem Coherent.workspaceNewNamed (coherent : Coherent inner)
    (activeRepo repoName : Option String) :
    Coherent (workspaceNewNamed activeRepo repoName inner).2 := by
  cases activeRepo with
  | some repo => exact coherent.workspaceCreate (some repo) repoName none
  | none => exact coherent.workspaceCreate inner.inherited.1 inner.inherited.2 none

theorem Coherent.fork (coherent : Coherent inner) (source : String) :
    Coherent (fork source inner).2 := by
  refine coherent.mutate ?_
  cases found : inner.workspace source with
  | error error =>
      simp only []
      exact .error coherent.toLaid error
  | ok ws =>
      simp only []
      split
      · exact .error coherent.toLaid _
      · have grown := coherent.toLaid.newWorkspace ws.activeRepo ws.repoName
        refine .showNewWorkspace (grown.change ?_) ?_ none
        · exact fun _ => rfl
        · refine (ids_change _ ?_).symm ▸ newWorkspace_mem inner ws.activeRepo ws.repoName
          exact fun _ => rfl

theorem Coherent.renameWorkspace (coherent : Coherent inner) (wsId name : String) :
    Coherent (renameWorkspace wsId name inner).2 :=
  coherent.mutate (.changeKnown coherent.toLaid fun _ => rfl)

theorem Coherent.tabAssign (coherent : Coherent inner) (wsId : String) (slotId : SlotId) :
    Coherent (tabAssign wsId slotId inner).2 :=
  coherent.mutate (.assign coherent.toLaid wsId slotId)

/-- A workspace shown by navigation. -/
theorem Sound.navigate (laid : Laid inner) (wsId : String) (both : Bool) (slotId : SlotId) :
    Sound inner (Gui.attempt () inner
      (if both then inner.assignBoth wsId else inner.assign wsId slotId)) := by
  refine .attempt laid () fun next assigned => ?_
  cases both with
  | true => exact assignBoth_laid laid.distinct assigned
  | false => exact laid.assign assigned

theorem Coherent.step (coherent : Coherent inner) (direction : Int) (both : Bool) :
    Coherent (step direction both inner).2 := by
  refine coherent.mutate ?_
  split
  · exact .error coherent.toLaid _
  · simp only []
    split
    · exact .ok coherent.toLaid ()
    · exact .navigate coherent.toLaid _ both inner.focused

theorem Coherent.workspaceGoto (coherent : Coherent inner) (n : Nat) :
    Coherent (workspaceGoto n inner).2 := by
  refine coherent.mutate ?_
  cases n with
  | zero => exact .error coherent.toLaid _
  | succ m =>
      simp only []
      split
      · exact .error coherent.toLaid _
      · exact .navigate coherent.toLaid _ true inner.focused

/-- A change of a workspace outside of `mutate` moves no slot. -/
theorem Coherent.change (coherent : Coherent inner) {id : String} {f : Workspace → Workspace}
    (keeps : ∀ ws, (f ws).id = ws.id) : Coherent (inner.change id f) :=
  ⟨coherent.toLaid.change keeps, fun slotId => by simpa using coherent.settled slotId⟩

theorem Coherent.changeKnown (coherent : Coherent inner) {id : String}
    {f : Workspace → Workspace} (keeps : ∀ ws, (f ws).id = ws.id) :
    Coherent (changeKnown id f inner).2 := by
  unfold Inner.changeKnown
  cases inner.workspace id with
  | error error => exact coherent
  | ok ws => exact coherent.change keeps

theorem Coherent.adoptRepoNamed (coherent : Coherent inner) (wsId repo : String)
    (repoName : Option String) : Coherent (adoptRepoNamed wsId repo repoName inner).2 := by
  unfold Inner.adoptRepoNamed
  split
  · exact coherent
  · split
    · exact coherent
    · refine coherent.change ?_
      exact fun _ => rfl

theorem Coherent.sendVars (coherent : Coherent inner) (wsId : String)
    (vars : List (String × JsonValue)) : Coherent (sendVars wsId vars inner).2 := by
  unfold Inner.sendVars
  split
  · exact coherent
  · exact coherent.changeKnown fun _ => rfl

theorem Coherent.pickStart (coherent : Coherent inner) (spec : PickSpec) :
    Coherent (pickStart spec inner).2 := by
  refine coherent.mutate ?_
  cases found : inner.workspace spec.callerWs with
  | error error =>
      simp only []
      exact .error coherent.toLaid error
  | ok ws =>
      simp only []
      have grown := coherent.toLaid.newWorkspace spec.repo none
      refine .showNewWorkspace (grown.change ?_) ?_ _
      · exact fun _ => rfl
      · refine (ids_change _ ?_).symm ▸ newWorkspace_mem inner spec.repo none
        exact fun _ => rfl

end Workspaces

/-! ### Saved workspaces -/

section Saved

variable {inner : Inner}

theorem reassign_laid (laid : Laid inner) {wsId : String} (member : wsId ∈ inner.ids)
    (slotId : SlotId) :
    ∃ next, inner.reassign wsId slotId = .ok next ∧ Laid next ∧ next.ids = inner.ids := by
  unfold reassign
  split
  · obtain ⟨next, assigned⟩ := assign_of_mem member slotId
    obtain ⟨ws, found, same⟩ := assign_eq_ok assigned
    exact ⟨next, assigned, laid.assign assigned, by rw [same, ids_setSlot]⟩
  · exact ⟨inner, rfl, laid, rfl⟩

theorem ids_clearPanel (inner : Inner) (wsId : String) (slotId : SlotId) :
    (inner.clearPanel wsId slotId).ids = inner.ids := by
  unfold clearPanel
  split
  · exact ids_setSlot _ _ _
  · rfl

theorem showSavedPanels_laid (laid : Laid inner) {wsId : String} (member : wsId ∈ inner.ids) :
    ∃ next, inner.showSavedPanels wsId = .ok next ∧ Laid next := by
  unfold showSavedPanels
  split
  · have ids : ((inner.clearPanel wsId .left).clearPanel wsId .right).ids = inner.ids := by
      rw [ids_clearPanel, ids_clearPanel]
    obtain ⟨next, assigned⟩ := assignBoth_of_mem (ids ▸ member)
    exact ⟨next, assigned, assignBoth_laid (ids ▸ laid.distinct) assigned⟩
  · obtain ⟨first, left, laidLeft, ids⟩ := reassign_laid laid member .left
    obtain ⟨second, right, laidRight, -⟩ := reassign_laid laidLeft (ids ▸ member) .right
    refine ⟨second, ?_, laidRight⟩
    rw [left]
    exact right

theorem Coherent.applySaved (coherent : Coherent inner) (wsId : String) (saved : SavedWorkspace)
    (apply : Apply) : Coherent (applySaved wsId saved apply inner).2 := by
  refine coherent.mutate ?_
  cases found : inner.workspace wsId with
  | error error => exact .error coherent.toLaid error
  | ok ws =>
      have member : wsId ∈ inner.ids := mem_ids_iff.mpr ⟨ws, found⟩
      cases apply with
      | layoutVars =>
          refine .ok (coherent.toLaid.change ?_) ()
          exact fun _ => rfl
      | whole =>
          have kept {f : Workspace → Workspace} (keeps : ∀ ws, (f ws).id = ws.id) :
              Sound inner (Gui.attempt () (inner.change wsId f)
                ((inner.change wsId f).showSavedPanels wsId)) := by
            obtain ⟨next, shown, laid⟩ := showSavedPanels_laid (coherent.toLaid.change keeps)
              ((ids_change inner keeps).symm ▸ member)
            rw [shown]
            exact .ok laid ()
          refine kept ?_
          exact fun _ => rfl

end Saved

/-! ### Closing -/

/-- A workspace has just been taken out of the tabs: the slots may still show it. -/
structure Closing (closed : String) (inner : Inner) : Prop where
  /-- The ids differ. -/
  distinct : inner.ids.Nodup
  /-- It is gone. -/
  gone : closed ∉ inner.ids
  /-- What else a slot remembers exists. -/
  known : ∀ slotId id, (inner.slot slotId).workspace = some id → id ≠ closed → id ∈ inner.ids
  /-- The slots do not show the same panel. -/
  apart : ∀ slotId, ¬Alike (inner.slot slotId) (inner.slot slotId.other)

section Closing

variable {inner : Inner} {closed : String}

theorem Laid.remove (laid : Laid inner) (closed : String) : Closing closed (inner.remove closed) := by
  refine ⟨?_, ?_, fun slotId id remembered differs => ?_, fun slotId => ?_⟩
  · rw [ids_remove]
    exact laid.distinct.erase closed
  · rw [ids_remove, laid.distinct.mem_erase_iff]
    exact fun member => member.1 rfl
  · rw [slot_remove] at remembered
    rw [ids_remove, laid.distinct.mem_erase_iff]
    exact ⟨differs, laid.known slotId id remembered⟩
  · simpa using laid.apart slotId

theorem Closing.laid (closing : Closing closed inner)
    (left : ∀ slotId, (inner.slot slotId).workspace ≠ some closed) : Laid inner := by
  refine ⟨closing.distinct, fun slotId id remembered => ?_, closing.apart⟩
  refine closing.known slotId id remembered ?_
  rintro rfl
  exact left slotId remembered

theorem Closing.setSlot (closing : Closing closed inner) {slotId : SlotId} {slot : Slot}
    (known : ∀ id, slot.workspace = some id → id ∈ inner.ids)
    (apart : ¬Alike slot (inner.slot slotId.other)) : Closing closed (inner.setSlot slotId slot) := by
  refine ⟨by simpa using closing.distinct, by simpa using closing.gone,
    fun other id remembered differs => ?_, fun other => ?_⟩
  · rw [ids_setSlot]
    obtain rfl | rfl := other.eq_or_eq_other slotId
    · exact known id (by simpa using remembered)
    · exact closing.known _ id (by simpa using remembered) differs
  · obtain rfl | rfl := other.eq_or_eq_other slotId
    · simpa using apart
    · simp only [slot_other_setSlot, SlotId.other_other, slot_setSlot]
      exact fun alike => apart alike.symm

theorem Closing.setFocused (closing : Closing closed inner) (focused : SlotId) :
    Closing closed (inner.setFocused focused) :=
  ⟨closing.distinct, closing.gone, fun slotId => by simpa using closing.known slotId,
    fun slotId => by simpa using closing.apart slotId⟩

/-- A slot assigned anew, shown or not. -/
theorem Closing.assigned (closing : Closing closed inner) {id : String} {ws : Workspace}
    (found : inner.workspace id = .ok ws) (slotId : SlotId) (visible : Bool) :
    Closing closed (inner.setSlot slotId ⟨visible, some id, inner.panelFor ws id slotId⟩) := by
  refine closing.setSlot (fun other same => ?_) fun alike => ?_
  · cases same
    exact mem_ids_iff.mpr ⟨ws, found⟩
  · exact panelFor_apart inner ws id slotId alike.shown

/-- A slot that showed the workspace closed shows another one, or none. -/
theorem replaceIn_ok (closing : Closing closed inner) {replacement : Option String}
    (exists_ : ∀ id, replacement = some id → id ∈ inner.ids) (slotId : SlotId) :
    ∃ next, inner.replaceIn closed replacement slotId = .ok next ∧ Closing closed next ∧
      next.ids = inner.ids ∧ (next.slot slotId).workspace ≠ some closed ∧
      next.slot slotId.other = inner.slot slotId.other := by
  unfold replaceIn
  split
  · rename_i other
    exact ⟨inner, rfl, closing, rfl, other, rfl⟩
  · cases replacement with
    | none =>
        refine ⟨_, rfl, closing.setSlot (fun id same => nomatch same) ?_, by simp, by simp, by simp⟩
        exact fun alike => absurd alike.2.2.1 (by simp)
    | some id =>
        have member := exists_ id rfl
        obtain ⟨ws, found⟩ := mem_ids_iff.mp member
        simp only [assign_ok found]
        refine ⟨inner.setSlot slotId ⟨(inner.slot slotId).visible, some id, _⟩,
          congrArg Except.ok (setVisible_setSlot _ _ _ _), closing.assigned found slotId _,
          by simp, ?_, by simp⟩
        simp only [slot_setSlot, ne_eq, Option.some.injEq]
        rintro rfl
        exact closing.gone member

theorem Coherent.closeTab (coherent : Coherent inner) (wsId : String) :
    Coherent (closeTab wsId inner).2 := by
  refine coherent.mutate ?_
  split
  · exact .error coherent.toLaid _
  · have closing := coherent.toLaid.remove wsId
    rename_i index position
    have exists_ : ∀ id, inner.replacement wsId index = some id → id ∈ (inner.remove wsId).ids := by
      intro id same
      obtain ⟨ws, inside, rfl⟩ := Option.map_eq_some_iff.mp same
      exact List.mem_map.mpr ⟨ws, List.mem_of_getElem? inside, rfl⟩
    simp only []
    split
    · rename_i id owned replacement
      obtain ⟨next, assigned⟩ := assignBoth_of_mem (exists_ id replacement)
      rw [assigned]
      exact .ok (assignBoth_laid closing.distinct assigned) ()
    · obtain ⟨first, left, closingLeft, ids, goneLeft, -⟩ := replaceIn_ok closing exists_ .left
      obtain ⟨second, right, closingRight, -, goneRight, kept⟩ :=
        replaceIn_ok closingLeft (ids ▸ exists_) .right
      rw [left]
      change Sound inner (Gui.attempt () (inner.remove wsId) (first.replaceIn wsId _ .right))
      rw [right]
      refine .ok (closingRight.laid fun slotId => ?_) ()
      cases slotId with
      | left => exact kept ▸ goneLeft
      | right => exact goneRight

end Closing

/-! ### Value pickers -/

/-- A picker may be finished: what its slot is given back is not what the slot of its caller shows;
or that slot shows the picker itself, which is not its own caller. -/
def endClear (pickerWs : String) (confirm : Bool) (inner : Inner) : Prop :=
  match inner.readPick pickerWs with
  | .error _ => True
  | .ok ending =>
      (pickResult ending confirm).isOk → (inner.workspace ending.callerWs).isOk →
        if (inner.slot ending.pickerSlot.other).workspace = some pickerWs then
          ending.callerWs ≠ pickerWs
        else
          ¬Alike ((inner.remove pickerWs).restored ending.restore)
            (inner.slot ending.pickerSlot.other)

instance (pickerWs : String) (confirm : Bool) (inner : Inner) :
    Decidable (endClear pickerWs confirm inner) :=
  match read : inner.readPick pickerWs with
  | .error _ => isTrue (by simp only [endClear, read])
  | .ok ending =>
      decidable_of_iff
        ((pickResult ending confirm).isOk → (inner.workspace ending.callerWs).isOk →
          if (inner.slot ending.pickerSlot.other).workspace = some pickerWs then
            ending.callerWs ≠ pickerWs
          else
            ¬Alike ((inner.remove pickerWs).restored ending.restore)
              (inner.slot ending.pickerSlot.other))
        (by simp only [endClear, read])

section Pickers

variable {inner : Inner}

theorem Laid.showCaller (laid : Laid inner) (pickerSlot : SlotId) :
    Laid (inner.showCaller pickerSlot) := by
  unfold Inner.showCaller
  split
  · rename_i hidden
    refine laid.setVisible fun _ alike => ?_
    simp only [SlotId.other_other, Bool.and_eq_true, Bool.not_eq_true'] at alike hidden
    exact absurd alike.2.1 (by simp [hidden.1])
  · exact laid

/-- The slot of a picker is given back a workspace that exists, or none. -/
theorem restored_known (inner : Inner) (restore : JsonValue) {id : String}
    (same : (inner.restored restore).workspace = some id) : id ∈ inner.ids := by
  simp only [restored, Option.filter_eq_some_iff] at same
  cases found : inner.workspace id with
  | error error => simp [found, Except.isOk, Except.toBool] at same
  | ok ws => exact mem_ids_iff.mpr ⟨ws, found⟩

theorem Coherent.closePick (coherent : Coherent inner) {pickerWs : String} {ending : Ending}
    (clear : (inner.workspace ending.callerWs).isOk →
      if (inner.slot ending.pickerSlot.other).workspace = some pickerWs then
        ending.callerWs ≠ pickerWs
      else
        ¬Alike ((inner.remove pickerWs).restored ending.restore)
          (inner.slot ending.pickerSlot.other)) :
    Coherent (closePick ending pickerWs inner).2 := by
  refine coherent.mutate ?_
  cases found : inner.workspace ending.callerWs with
  | error error => exact .error coherent.toLaid error
  | ok caller =>
      have closing := coherent.toLaid.remove pickerWs
      have callerMember : ending.callerWs ∈ inner.ids := mem_ids_iff.mpr ⟨caller, found⟩
      have clear := clear (by rw [found]; rfl)
      have elsewhere {id : String} (inside : id ∈ (inner.remove pickerWs).ids) : id ≠ pickerWs := by
        rintro rfl
        exact closing.gone inside
      have away : ((inner.remove pickerWs).restored ending.restore).workspace ≠ some pickerWs :=
        fun same => elsewhere (restored_known _ _ same) rfl
      -- What is given back is not what the slot of the caller shows, be it the picker.
      have apart : ¬Alike ((inner.remove pickerWs).restored ending.restore)
          (inner.slot ending.pickerSlot.other) := by
        split at clear
        · rename_i shown
          exact fun alike => away (alike.2.2.2.1.trans shown)
        · exact clear
      have given : Closing pickerWs ((inner.remove pickerWs).setSlot ending.pickerSlot
          ((inner.remove pickerWs).restored ending.restore)) :=
        closing.setSlot (fun id same => restored_known _ _ same) (by simpa using apart)
      simp only []
      split
      · rename_i shown
        have differs : ending.callerWs ≠ pickerWs := by
          rwa [if_pos (by simpa using shown)] at clear
        have member : ending.callerWs ∈ (((inner.remove pickerWs).setSlot ending.pickerSlot
            ((inner.remove pickerWs).restored ending.restore)).setFocused
              ending.pickerSlot.other).ids := by
          rw [ids_setFocused, ids_setSlot, ids_remove, coherent.distinct.mem_erase_iff]
          exact ⟨differs, callerMember⟩
        obtain ⟨ws, foundToo⟩ := mem_ids_iff.mp member
        rw [assign_ok foundToo]
        refine .ok (Laid.showCaller ?_ _) ()
        rw [setVisible_setSlot]
        refine ((given.setFocused _).assigned foundToo _ _).laid fun slotId => ?_
        obtain rfl | rfl := slotId.eq_or_eq_other ending.pickerSlot
        · simpa using away
        · simpa using differs
      · rename_i hidden
        refine .ok (Laid.showCaller (Laid.focus (given.laid fun slotId => ?_) _) _) ()
        obtain rfl | rfl := slotId.eq_or_eq_other ending.pickerSlot
        · simpa using away
        · simpa using hidden

theorem Coherent.finishPick (coherent : Coherent inner) {pickerWs : String} {confirm : Bool}
    (clear : endClear pickerWs confirm inner) : Coherent (finishPick pickerWs confirm inner).2 := by
  unfold Inner.finishPick
  unfold endClear at clear
  cases read : inner.readPick pickerWs with
  | error error => exact coherent
  | ok ending =>
      simp only [read] at clear ⊢
      cases answered : pickResult ending confirm with
      | error error => exact coherent
      | ok result =>
          simp only []
          have closed : Coherent (Inner.closePick ending pickerWs inner).2 :=
            coherent.closePick (clear (by rw [answered]; rfl))
          cases outcome : Inner.closePick ending pickerWs inner with
          | mk answer next =>
              rw [outcome] at closed
              cases answer with
              | error error => exact closed
              | ok _ => exact closed.sendVars _ _

/-- Everything the end of the picker in the focused slot needs. -/
def FocusedClear (confirm : Bool) (inner : Inner) : Prop :=
  ∀ picker ∈ (inner.slot inner.focused).workspace, endClear picker confirm inner

instance (confirm : Bool) (inner : Inner) : Decidable (FocusedClear confirm inner) :=
  inferInstanceAs (Decidable (∀ picker ∈ _, _))

theorem Coherent.pickFinished (coherent : Coherent inner) {confirm : Bool}
    (clear : FocusedClear confirm inner) : Coherent (pickFinished confirm inner).2 := by
  unfold Inner.pickFinished
  cases shown : (inner.slot inner.focused).workspace with
  | none => exact coherent
  | some picker => exact coherent.finishPick (clear picker shown)

theorem Coherent.closeWorkspace (coherent : Coherent inner) {wsId : String}
    (clear : endClear wsId false inner) : Coherent (closeWorkspace wsId inner).2 := by
  unfold Inner.closeWorkspace
  split
  · exact coherent.closeTab wsId
  · split
    · have finished := coherent.finishPick clear
      split
      · rename_i next outcome
        rwa [outcome] at finished
      · rename_i next outcome
        rw [outcome] at finished
        exact finished.closeTab wsId
    · exact coherent.closeTab wsId

theorem Coherent.workspaceClose (coherent : Coherent inner) (clear : FocusedClear false inner) :
    Coherent (workspaceClose inner).2 := by
  unfold Inner.workspaceClose
  cases shown : (inner.slot inner.focused).workspace with
  | none => exact coherent
  | some wsId => exact coherent.closeWorkspace (clear wsId shown)

/-! ### The clean-up after a run -/

/-- The workspaces of a list may be closed one after the other. -/
def CloseAllClear : List String → Inner → Prop
  | [], _ => True
  | wsId :: rest, inner => endClear wsId false inner ∧ CloseAllClear rest (closeWorkspace wsId inner).2

instance decidableCloseAllClear : (opened : List String) → (inner : Inner) →
    Decidable (CloseAllClear opened inner)
  | [], _ => isTrue trivial
  | wsId :: rest, inner =>
      have := decidableCloseAllClear rest (closeWorkspace wsId inner).2
      inferInstanceAs (Decidable (_ ∧ _))

theorem Coherent.closeAll {opened : List String} (coherent : Coherent inner)
    (clear : CloseAllClear opened inner) : Coherent (inner.closeAll opened) := by
  induction opened generalizing inner with
  | nil => exact coherent
  | cons wsId rest ih => exact ih (coherent.closeWorkspace clear.1) clear.2

theorem Coherent.giveBack (coherent : Coherent inner) (slotId : SlotId) (taken : Bool)
    (before : Option String) : Coherent (giveBack slotId taken before inner) := by
  unfold Inner.giveBack
  split
  · exact coherent
  · cases before with
    | none => exact coherent.hideSlot slotId
    | some wsId => exact coherent.tabAssign wsId slotId

theorem Coherent.cleanUpAfter (coherent : Coherent inner) {task : ScriptTask}
    (clear : CloseAllClear task.opened inner) : Coherent (inner.cleanUpAfter task) :=
  ((coherent.closeAll clear).giveBack _ _ _).giveBack _ _ _

end Pickers

/-- The window starts coherent. -/
theorem initial_coherent : Coherent initial := by
  have bare : Laid empty := by
    refine ⟨List.nodup_nil, fun slotId id remembered => ?_, fun slotId alike => ?_⟩
    · cases slotId <;> exact nomatch remembered
    · cases slotId <;> exact absurd alike.1 (by simp [empty, slot])
  obtain ⟨next, assigned⟩ := assign_of_mem (newWorkspace_mem empty none none) .left
  have same : initial = next := by
    simp only [initial, Gui.attempt, assigned]
  obtain ⟨ws, -, explicit⟩ := assign_eq_ok assigned
  refine same ▸ ⟨(bare.newWorkspace none none).assign assigned, fun slotId _ => ?_⟩
  subst explicit
  rfl

end Inner

/-! ### Runs -/

/-- A command shows no panel twice: a slot shown again remembers another panel than the other one
shows, a picker is finished clear of its caller. -/
def Command.Clear (inner : Inner) : Command → Prop
  | .panelSplit => inner.RemembersApart
  | .panelSplitToggle => inner.RemembersApart
  | .pickConfirm => inner.FocusedClear true
  | .pickCancel => inner.FocusedClear false
  | .closeWorkspace wsId => Inner.endClear wsId false inner
  | .workspaceClose => inner.FocusedClear false
  | _ => True

theorem Command.perform_coherent {inner : Inner} (coherent : inner.Coherent) {command : Command}
    (clear : command.Clear inner) : (command.perform inner).Coherent := by
  cases command with
  | createWorkspace activeRepo repoName panels =>
      exact coherent.createWorkspaceWithPanels activeRepo repoName panels
  | workspaceNew activeRepo repoName => exact coherent.workspaceNewNamed activeRepo repoName
  | workspaceCreate activeRepo repoName showIn =>
      exact coherent.workspaceCreate activeRepo repoName showIn
  | fork source => exact coherent.fork source
  | closeWorkspace wsId => exact coherent.closeWorkspace clear
  | workspaceClose => exact coherent.workspaceClose clear
  | renameWorkspace wsId name => exact coherent.renameWorkspace wsId name
  | tabAssign wsId slotId => exact coherent.tabAssign wsId slotId
  | step direction both => exact coherent.step direction both
  | workspaceGoto n => exact coherent.workspaceGoto n
  | panelSplit => exact coherent.panelSplit clear
  | panelUnsplit => exact coherent.panelUnsplit
  | panelSplitToggle => exact coherent.panelSplitToggle clear
  | hideSlot slotId => exact coherent.hideSlot slotId
  | panelSwap => exact coherent.panelSwap
  | focusNext => exact coherent.focusNext
  | focusSlot slotId => exact coherent.focusSlot slotId
  | setPanelType slotId panelType => exact coherent.setPanelType slotId panelType
  | adoptRepo wsId repo repoName => exact coherent.adoptRepoNamed wsId repo repoName
  | sendVars wsId vars => exact coherent.sendVars wsId vars
  | pickStart spec => exact coherent.pickStart spec
  | pickConfirm => exact coherent.pickFinished clear
  | pickCancel => exact coherent.pickFinished clear
  | applySaved wsId saved apply => exact coherent.applySaved wsId saved apply

/-- A step of the window shows no panel twice. -/
def Event.Clear (gui : GuiState) : Event → Prop
  | .command asked => asked.Clear gui.inner
  | .scriptEnd taskId =>
      ∀ task ∈ gui.scripts taskId, task.endedBy.isSome → gui.inner.CloseAllClear task.opened
  | _ => True

theorem GuiState.next_coherent {gui : GuiState} (coherent : gui.inner.Coherent) {event : Event}
    (clear : event.Clear gui) : (gui.next event).inner.Coherent := by
  cases event with
  | command asked => exact Command.perform_coherent coherent clear
  | scriptBegin taskId wsId label => exact coherent
  | scriptClaimWorkspace taskId wsId =>
      simp only [GuiState.next, GuiState.scriptClaimWorkspace]
      split
      · exact coherent
      · split <;> exact coherent
  | scriptMarkStopped taskId how =>
      simp only [GuiState.next, GuiState.scriptMarkStopped]
      split <;> exact coherent
  | scriptEnd taskId =>
      simp only [GuiState.next, GuiState.scriptEnd]
      split
      · exact coherent
      · rename_i task ended
        obtain ⟨found, stopped⟩ := Option.filter_eq_some_iff.mp ended
        exact coherent.cleanUpAfter (clear task found stopped)

/-- The states of the window that steps showing no panel twice lead to. -/
inductive ClearRun : GuiState → Prop
  | new : ClearRun .new
  | next {gui : GuiState} (run : ClearRun gui) {event : Event} (clear : event.Clear gui) :
      ClearRun (gui.next event)

/-- The window stays coherent as long as no step shows a panel twice. -/
theorem clearRun_coherent {gui : GuiState} (run : ClearRun gui) : gui.inner.Coherent := by
  induction run with
  | new => exact Inner.initial_coherent
  | next _ clear ih => exact GuiState.next_coherent ih clear

/-- A run: the window split, a picker opened beside its caller and given up, a script stopped. -/
theorem clearRun_coherent_sample :
    let pick : PickSpec := ⟨"ws-1", .null, none, none, none, "metarecord-list", []⟩
    let events : List Event :=
      [.command .panelSplit, .command (.pickStart pick), .command .pickCancel,
        .scriptBegin "script-1" "ws-1" "tag.sh", .command (.createWorkspace none none []),
        .scriptClaimWorkspace "script-1" "ws-2", .scriptMarkStopped "script-1" "stopped",
        .scriptEnd "script-1"]
    let gui := events.foldl GuiState.next .new
    gui.inner.ids = ["ws-1"] ∧ gui.inner.Coherent := by
  intro pick events gui
  have split : ClearRun (GuiState.new.next (.command .panelSplit)) :=
    .next .new (fun slotId => by cases slotId <;> decide +kernel)
  have picked := split.next (show Event.Clear _ (.command (.pickStart pick)) from trivial)
  have cancelled := picked.next
    (show Event.Clear _ (.command .pickCancel) from by
      change Inner.FocusedClear false _
      decide +kernel)
  have begun := cancelled.next
    (show Event.Clear _ (.scriptBegin "script-1" "ws-1" "tag.sh") from trivial)
  have created := begun.next
    (show Event.Clear _ (.command (.createWorkspace none none [])) from trivial)
  have claimed := created.next
    (show Event.Clear _ (.scriptClaimWorkspace "script-1" "ws-2") from trivial)
  have stopped := claimed.next
    (show Event.Clear _ (.scriptMarkStopped "script-1" "stopped") from trivial)
  have ended := stopped.next
    (show Event.Clear _ (.scriptEnd "script-1") from by
      change ∀ task ∈ _, _ → Inner.CloseAllClear _ _
      decide +kernel)
  exact ⟨by decide +kernel, clearRun_coherent ended⟩

/-- The left slot hidden while it shows the repositories of a workspace, which the right one is then
given: split again, the window shows them twice. -/
theorem shown_twice :
    let events : List Event :=
      [.command .panelSplit, .command (.hideSlot .left), .command (.tabAssign "ws-1" .right),
        .command .panelSplit]
    ¬(events.foldl GuiState.next .new).inner.Coherent := by
  intro events coherent
  exact coherent.apart .left (by decide +kernel)

end Gui
end Metafolder
