import Metafolder.GuiLayout
import Metafolder.Outcome
import Metafolder.Pickers

/-!
# Every picker is answered once

A picker is answered once, by its own result and where it was opened, as long as no section closes a
picker closed already, puts a result in a workspace that took the id of the opener, or takes a picker
away as a tab while its opener is open.
-/

namespace Metafolder
namespace Gui

namespace Inner

variable {α : Type} {inner next third : Inner}

/-! ### What a section keeps of the workspaces -/

/-- No workspace is closed, and those there were are pickers as before; a new one is none. -/
structure Steady (inner next : Inner) : Prop where
  nodup : inner.ids.Nodup → next.ids.Nodup
  grown : inner.ids ⊆ next.ids
  kept : ∀ ws ∈ next.workspaces,
    (∃ old ∈ inner.workspaces, old.id = ws.id ∧ ws.vars "pick_request" = old.vars "pick_request") ∨
      ws.id ∉ inner.ids ∧ isPicker ws = false

theorem isPicker_congr {ws other : Workspace}
    (same : ws.vars "pick_request" = other.vars "pick_request") : isPicker ws = isPicker other := by
  rw [isPicker, isPicker, same]

theorem Steady.of_workspaces (same : next.workspaces = inner.workspaces) : Steady inner next where
  nodup distinct := by rwa [ids, same]
  grown := by rw [Inner.ids, Inner.ids, same]; exact List.Subset.refl _
  kept ws member := .inl ⟨ws, same ▸ member, rfl, rfl⟩

theorem Steady.refl (inner : Inner) : Steady inner inner := .of_workspaces rfl

theorem Steady.trans (one : Steady inner next) (two : Steady next third) : Steady inner third where
  nodup distinct := two.nodup (one.nodup distinct)
  grown := List.Subset.trans one.grown two.grown
  kept ws member := by
    obtain ⟨middle, there, id, request⟩ | ⟨new, plain⟩ := two.kept ws member
    · obtain ⟨old, there, older, before⟩ | ⟨new, plain⟩ := one.kept middle there
      · exact .inl ⟨old, there, older.trans id, request.trans before⟩
      · exact .inr ⟨id ▸ new, (isPicker_congr request).trans plain⟩
    · exact .inr ⟨fun there => new (one.grown there), plain⟩

theorem mem_changeFirst_of_nodup {id : String} {f : Workspace → Workspace}
    {workspaces : List Workspace} {ws : Workspace} (distinct : (workspaces.map Workspace.id).Nodup)
    (member : ws ∈ changeFirst id f workspaces) :
    ws ∈ workspaces ∧ ws.id ≠ id ∨ ∃ old ∈ workspaces, old.id = id ∧ ws = f old := by
  induction workspaces with
  | nil => cases member
  | cons head rest ih =>
      rw [List.map_cons, List.nodup_cons] at distinct
      rw [changeFirst] at member
      split at member
      · next named =>
        rcases List.mem_cons.mp member with rfl | member
        · exact .inr ⟨head, List.mem_cons_self, named, rfl⟩
        · refine .inl ⟨List.mem_cons_of_mem _ member, fun same => distinct.1 ?_⟩
          rw [named, ← same]
          exact List.mem_map_of_mem member
      · next differs =>
        rcases List.mem_cons.mp member with rfl | member
        · exact .inl ⟨List.mem_cons_self, differs⟩
        · obtain ⟨there, other⟩ | ⟨old, there, changed⟩ := ih distinct.2 member
          · exact .inl ⟨List.mem_cons_of_mem _ there, other⟩
          · exact .inr ⟨old, List.mem_cons_of_mem _ there, changed⟩

theorem mem_changeFirst {id : String} {f : Workspace → Workspace} {workspaces : List Workspace}
    {ws : Workspace} (member : ws ∈ changeFirst id f workspaces) :
    ws ∈ workspaces ∨ ∃ old ∈ workspaces, old.id = id ∧ ws = f old := by
  induction workspaces with
  | nil => cases member
  | cons head rest ih =>
      rw [changeFirst] at member
      split at member
      · next named =>
        rcases List.mem_cons.mp member with rfl | member
        · exact .inr ⟨head, List.mem_cons_self, named, rfl⟩
        · exact .inl (List.mem_cons_of_mem _ member)
      · rcases List.mem_cons.mp member with rfl | member
        · exact .inl List.mem_cons_self
        · obtain there | ⟨old, there, changed⟩ := ih member
          · exact .inl (List.mem_cons_of_mem _ there)
          · exact .inr ⟨old, List.mem_cons_of_mem _ there, changed⟩

theorem Steady.change (inner : Inner) (id : String) {f : Workspace → Workspace}
    (keepsId : ∀ ws, (f ws).id = ws.id)
    (keepsRequest : ∀ ws, (f ws).vars "pick_request" = ws.vars "pick_request") :
    Steady inner (inner.change id f) where
  nodup distinct := by rwa [ids_change inner keepsId]
  grown := by rw [ids_change inner keepsId]; exact List.Subset.refl _
  kept ws member := by
    obtain there | ⟨old, there, -, rfl⟩ := mem_changeFirst member
    · exact .inl ⟨ws, there, rfl, rfl⟩
    · exact .inl ⟨old, there, (keepsId old).symm, keepsRequest old⟩

theorem nodup_newWorkspace (distinct : inner.ids.Nodup) (activeRepo repoName : Option String) :
    (inner.newWorkspace activeRepo repoName).2.ids.Nodup := by
  rw [ids_newWorkspace, List.nodup_append]
  refine ⟨distinct, List.nodup_singleton _, fun id there other member => ?_⟩
  rintro rfl
  exact inner.newWorkspace_not_mem activeRepo repoName (List.mem_singleton.mp member ▸ there)

theorem Steady.newWorkspace (inner : Inner) (activeRepo repoName : Option String) :
    Steady inner (inner.newWorkspace activeRepo repoName).2 where
  nodup distinct := nodup_newWorkspace distinct activeRepo repoName
  grown := by rw [ids_newWorkspace]; exact List.subset_append_left _ _
  kept ws member := by
    rcases List.mem_append.mp member with there | member
    · exact .inl ⟨ws, there, rfl, rfl⟩
    · obtain rfl := List.mem_singleton.mp member
      exact .inr ⟨inner.newWorkspace_not_mem activeRepo repoName, rfl⟩

/-- A new workspace is changed before anything else sees it. -/
theorem Steady.made (inner : Inner) (activeRepo repoName : Option String)
    {f : Workspace → Workspace} (keepsId : ∀ ws, (f ws).id = ws.id)
    (plain : ∀ ws, isPicker (f ws) = false) :
    Steady inner ((inner.newWorkspace activeRepo repoName).2.change
      (inner.newWorkspace activeRepo repoName).1 f) where
  nodup distinct := by
    rw [ids_change _ keepsId]
    exact nodup_newWorkspace distinct activeRepo repoName
  grown := by
    rw [ids_change _ keepsId, ids_newWorkspace]
    exact List.subset_append_left _ _
  kept ws member := by
    obtain there | ⟨old, -, named, rfl⟩ := mem_changeFirst member
    · exact (Steady.newWorkspace inner activeRepo repoName).kept ws there
    · refine .inr ⟨?_, plain old⟩
      rw [keepsId, named]
      exact inner.newWorkspace_not_mem activeRepo repoName

/-! ### Sections, step by step -/

theorem Steady.settleFocus (inner : Inner) : Steady inner inner.settleFocus :=
  .of_workspaces inner.workspaces_settleFocus

theorem Steady.setSlot (inner : Inner) (slotId : SlotId) (slot : Slot) :
    Steady inner (inner.setSlot slotId slot) :=
  .of_workspaces (workspaces_setSlot inner slotId slot)

theorem Steady.setVisible (inner : Inner) (slotId : SlotId) (visible : Bool) :
    Steady inner (inner.setVisible slotId visible) := .setSlot _ _ _

theorem Steady.recordSplit (inner : Inner) : Steady inner inner.recordSplit := by
  obtain same | ⟨id, split, changed⟩ := inner.recordSplit_eq
  · exact .of_workspaces (congrArg Inner.workspaces same)
  · rw [changed]
    exact .change inner id (fun _ => rfl) fun _ => rfl

theorem Steady.mutate {change : Mutation α} (steady : Steady inner (change inner).2) :
    Steady inner (mutate change inner).2 := by
  rw [Gui.mutate]
  split
  · next value next changed =>
    rw [changed] at steady
    exact steady.trans (.settleFocus next)
  · next error next changed =>
    rw [changed] at steady
    exact steady

theorem Steady.update {change : Inner → Inner} (steady : Steady inner (change inner)) :
    Steady inner (update change inner) := steady.trans (.settleFocus _)

theorem Steady.attempt (value : α) {result : Except String Inner}
    (steady : ∀ {after}, result = .ok after → Steady next after) :
    Steady next (Gui.attempt value next result).2 := by
  cases result with
  | error error => exact .refl next
  | ok after => exact steady rfl

theorem Steady.assign {wsId : String} {slotId : SlotId}
    (assigned : inner.assign wsId slotId = .ok next) : Steady inner next := by
  obtain ⟨ws, -, rfl⟩ := assign_eq_ok assigned
  exact .setSlot _ _ _

theorem Steady.assignBoth {wsId : String} (assigned : inner.assignBoth wsId = .ok next) :
    Steady inner next := by
  obtain ⟨ws, found⟩ := assignBoth_eq_ok assigned
  obtain ⟨first, same, rfl⟩ := assignBoth_ok found
  rw [assigned, Except.ok.injEq] at same
  subst same
  exact (Steady.setSlot _ _ _).trans ((Steady.setSlot _ _ _).trans (.setVisible _ _ _))

theorem Steady.showNewWorkspace {wsId : String} {showIn : Option SlotId}
    (shown : inner.showNewWorkspace wsId showIn = .ok next) : Steady inner next := by
  cases showIn with
  | none => exact .assignBoth shown
  | some slotId =>
      obtain ⟨given, assigned, same⟩ := Except.bind_eq_ok.mp shown
      obtain rfl := Except.ok.inj same
      exact (Steady.assign assigned).trans (.of_workspaces rfl)

/-! ### Commands -/

theorem Steady.changeKnown (inner : Inner) (wsId : String) {f : Workspace → Workspace}
    (keepsId : ∀ ws, (f ws).id = ws.id)
    (keepsRequest : ∀ ws, (f ws).vars "pick_request" = ws.vars "pick_request") :
    Steady inner (changeKnown wsId f inner).2 := by
  refine .attempt () fun {after} changed => ?_
  obtain ⟨ws, -, rfl⟩ := Except.map_eq_ok.mp changed
  exact .change inner wsId keepsId keepsRequest

theorem Steady.rememberPanel (inner : Inner) (wsId : String) (slotId : SlotId)
    (panelType : Option String) : Steady inner (rememberPanel wsId slotId panelType inner).2 :=
  .changeKnown inner wsId (fun _ => rfl) fun _ => rfl

theorem Steady.reveal (inner : Inner) (target : SlotId) : Steady inner (reveal target inner).2 := by
  have split : ∀ {start after : Inner} {wsId : String},
      (start.assign wsId target).map Inner.recordSplit = .ok after → Steady start after := by
    intro start after wsId changed
    obtain ⟨given, assigned, rfl⟩ := Except.map_eq_ok.mp changed
    exact (Steady.assign assigned).trans (.recordSplit given)
  rw [Inner.reveal]
  split
  · exact (Steady.setVisible _ _ _).trans (.recordSplit _)
  · split
    · exact .attempt () split
    · exact (Steady.newWorkspace _ _ _).trans (.attempt () split)

theorem Steady.panelSplit (inner : Inner) : Steady inner (panelSplit inner).2 := by
  refine .mutate ?_
  split
  · exact .reveal _ _
  · split
    · exact .reveal _ _
    · exact .refl _

theorem Steady.panelUnsplit (inner : Inner) : Steady inner inner.panelUnsplit :=
  .update ((Steady.setVisible _ _ _).trans (.recordSplit _))

theorem Steady.panelSplitToggle (inner : Inner) : Steady inner (panelSplitToggle inner).2 := by
  rw [Inner.panelSplitToggle]
  split
  · exact .panelUnsplit inner
  · exact .panelSplit inner

theorem Steady.hideSlot (inner : Inner) (slotId : SlotId) : Steady inner (hideSlot slotId inner) := by
  refine .update ?_
  refine (Steady.setVisible _ slotId false).trans (Steady.trans ?_ (.recordSplit _))
  split
  · exact .of_workspaces rfl
  · exact .refl _

theorem Steady.rememberShown (inner : Inner) (slotId : SlotId) :
    Steady inner (rememberShown slotId inner).2 := by
  rw [Inner.rememberShown]
  split
  · exact .rememberPanel _ _ _ _
  · exact .refl _

theorem Steady.panelSwap (inner : Inner) : Steady inner (panelSwap inner).2 := by
  refine .mutate ?_
  split
  · exact .refl _
  · dsimp only
    generalize swapped : ({ inner with
        left := { inner.left with panelType := inner.right.panelType }
        right := { inner.right with panelType := inner.left.panelType } } : Inner) = start
    have first : Steady inner start := by
      subst swapped
      exact .of_workspaces rfl
    have second := Steady.rememberShown start .left
    split
    · next error after changed =>
      rw [changed] at second
      exact first.trans second
    · next after changed =>
      rw [changed] at second
      exact (first.trans second).trans (.rememberShown _ _)

theorem Steady.focusNext (inner : Inner) : Steady inner inner.focusNext := by
  refine .update ?_
  split
  · exact .of_workspaces rfl
  · exact .refl _

theorem Steady.focusSlot (inner : Inner) (slotId : SlotId) :
    Steady inner (focusSlot slotId inner) := by
  refine .update ?_
  split
  · exact .of_workspaces rfl
  · exact .refl _

theorem Steady.setPanelType (inner : Inner) (slotId : SlotId) (panelType : String) :
    Steady inner (setPanelType slotId panelType inner).2 := by
  refine .mutate ?_
  split
  · exact .refl _
  · next wsId shown =>
    split
    · exact .refl _
    · have dropped : Steady inner (dropCollision wsId panelType slotId inner).2 := by
        rw [Inner.dropCollision]
        split
        · exact (Steady.setSlot _ _ _).trans (.rememberPanel _ _ _ _)
        · exact .refl _
      split
      · next error after changed =>
        rw [changed] at dropped
        exact dropped
      · next after changed =>
        rw [changed] at dropped
        exact (dropped.trans (.setSlot _ _ _)).trans (.rememberPanel _ _ _ _)

theorem Steady.createWorkspaceWithPanels (inner : Inner) (activeRepo repoName : Option String)
    (panels : List (SlotId × String)) :
    Steady inner (inner.createWorkspaceWithPanels activeRepo repoName panels).2 := by
  refine Steady.trans ?_ (.settleFocus _)
  exact (Steady.newWorkspace _ _ _).trans (.change _ _ (fun _ => rfl) fun _ => rfl)

theorem Steady.workspaceCreate (inner : Inner) (activeRepo repoName : Option String)
    (showIn : Option SlotId) : Steady inner (workspaceCreate activeRepo repoName showIn inner).2 :=
  .mutate ((Steady.newWorkspace inner activeRepo repoName).trans
    (.attempt _ fun shown => .showNewWorkspace shown))

theorem Steady.workspaceNewNamed (inner : Inner) (activeRepo repoName : Option String) :
    Steady inner (workspaceNewNamed activeRepo repoName inner).2 := by
  cases activeRepo <;> exact .workspaceCreate _ _ _ _

theorem Steady.renameWorkspace (inner : Inner) (wsId name : String) :
    Steady inner (renameWorkspace wsId name inner).2 :=
  .mutate (.changeKnown inner wsId (fun _ => rfl) fun _ => rfl)

theorem Steady.tabAssign (inner : Inner) (wsId : String) (slotId : SlotId) :
    Steady inner (tabAssign wsId slotId inner).2 := by
  refine .mutate (.attempt () fun changed => ?_)
  obtain ⟨given, assigned, rfl⟩ := Except.map_eq_ok.mp changed
  exact (Steady.assign assigned).trans (.recordSplit given)

theorem Steady.step (inner : Inner) (direction : Int) (both : Bool) :
    Steady inner (step direction both inner).2 := by
  refine .mutate ?_
  split
  · exact .refl _
  · dsimp only
    split
    · exact .refl _
    · cases both with
      | true => exact .attempt () .assignBoth
      | false => exact .attempt () .assign

theorem Steady.workspaceGoto (inner : Inner) (n : Nat) : Steady inner (workspaceGoto n inner).2 := by
  refine .mutate ?_
  cases n with
  | zero => exact .refl _
  | succ m =>
      dsimp only
      split
      · exact .refl _
      · exact .attempt () .assignBoth

theorem Steady.adoptRepoNamed (inner : Inner) (wsId repo : String) (repoName : Option String) :
    Steady inner (adoptRepoNamed wsId repo repoName inner).2 := by
  rw [Inner.adoptRepoNamed]
  split
  · exact .refl _
  · split
    · exact .refl _
    · exact .change inner wsId (fun _ => rfl) fun _ => rfl

theorem extend_apply_of_forall {key : String} {more : List (String × JsonValue)}
    (other : ∀ entry ∈ more, entry.1 ≠ key) (vars : Vars) : vars.extend more key = vars key := by
  induction more generalizing vars with
  | nil => rfl
  | cons entry rest ih =>
      obtain ⟨differs, others⟩ := List.forall_mem_cons.mp other
      rw [Vars.extend, List.foldl_cons, ← Vars.extend, ih others, Vars.insert,
        Function.update_of_ne (Ne.symm differs)]

theorem Steady.sendVars (inner : Inner) (wsId : String) {vars : List (String × JsonValue)}
    (other : ∀ entry ∈ vars, entry.1 ≠ "pick_request") :
    Steady inner (sendVars wsId vars inner).2 := by
  rw [Inner.sendVars]
  split
  · exact .refl _
  · exact .changeKnown inner wsId (fun _ => rfl) fun ws => extend_apply_of_forall other ws.vars

/-- A fork is made of a workspace that is no picker. -/
theorem Steady.fork (inner : Inner) (source : String) : Steady inner (fork source inner).2 := by
  refine .mutate ?_
  split
  · exact .refl _
  · next ws found =>
    split
    · exact .refl _
    · next plain =>
      refine Steady.trans ?_ (.attempt _ fun shown => .showNewWorkspace shown)
      refine .made inner _ _ (fun _ => rfl) fun forked => ?_
      exact (isPicker_congr rfl).trans (Bool.not_eq_true _ ▸ plain)

theorem Steady.showSavedPanels {wsId : String} (shown : inner.showSavedPanels wsId = .ok next) :
    Steady inner next := by
  have cleared : ∀ (start : Inner) (slotId : SlotId), Steady start (start.clearPanel wsId slotId) := by
    intro start slotId
    rw [clearPanel]
    split
    · exact .setSlot _ _ _
    · exact .refl _
  have again : ∀ {start after : Inner} {slotId : SlotId},
      start.reassign wsId slotId = .ok after → Steady start after := by
    intro start after slotId assigned
    rw [reassign] at assigned
    split at assigned
    · exact .assign assigned
    · exact Except.ok.inj assigned ▸ .refl _
  rw [Inner.showSavedPanels] at shown
  split at shown
  · exact ((cleared _ _).trans (cleared _ _)).trans (.assignBoth shown)
  · obtain ⟨first, one, two⟩ := Except.bind_eq_ok.mp shown
    exact (again one).trans (again two)

theorem Steady.applySaved (inner : Inner) (wsId : String) (saved : SavedWorkspace) (apply : Apply) :
    Steady inner (applySaved wsId saved apply inner).2 := by
  refine .mutate ?_
  have unsaved : ∀ {more : List (String × JsonValue)},
      ∀ entry ∈ more.filter fun entry => decide (entry.1 ∉ NEVER_SAVED),
        entry.1 ≠ "pick_request" := by
    intro more entry member same
    have := (List.mem_filter.mp member).2
    rw [same] at this
    exact absurd this (by decide)
  split
  · exact .refl _
  · split
    · refine .change inner wsId (fun _ => rfl) fun ws => extend_apply_of_forall ?_ ws.vars
      exact fun entry member => unsaved entry (List.mem_of_mem_filter member)
    · refine Steady.trans ?_ (.attempt () .showSavedPanels)
      exact .change inner wsId (fun _ => rfl) fun ws => extend_apply_of_forall unsaved ws.vars

end Inner

theorem Command.perform_steady {command : Command} (section_ : command.isSection = true)
    (inner : Inner) : inner.Steady (command.perform inner) := by
  cases command with
  | createWorkspace => exact .createWorkspaceWithPanels _ _ _ _
  | workspaceNew => exact .workspaceNewNamed _ _ _
  | workspaceCreate => exact .workspaceCreate _ _ _ _
  | fork => exact .fork _ _
  | renameWorkspace => exact .renameWorkspace _ _ _
  | tabAssign => exact .tabAssign _ _ _
  | step => exact .step _ _ _
  | workspaceGoto => exact .workspaceGoto _ _
  | panelSplit => exact .panelSplit _
  | panelUnsplit => exact .panelUnsplit _
  | panelSplitToggle => exact .panelSplitToggle _
  | hideSlot => exact .hideSlot _ _
  | panelSwap => exact .panelSwap _
  | focusNext => exact .focusNext _
  | focusSlot => exact .focusSlot _ _
  | setPanelType => exact .setPanelType _ _ _
  | adoptRepo => exact .adoptRepoNamed _ _ _ _
  | sendVars wsId vars =>
      refine .sendVars _ _ fun entry member => ?_
      simpa using List.all_eq_true.mp section_ entry member
  | applySaved => exact .applySaved _ _ _ _
  | closeWorkspace | workspaceClose | pickStart | pickConfirm | pickCancel => cases section_

namespace Inner

variable {inner next : Inner}

/-! ### Sections that open or close a picker -/

variable {wsId : String}

theorem workspace_of_not_mem {id : String} (absent : id ∉ inner.ids) :
    ∃ error, inner.workspace id = .error error := by
  cases found : inner.workspace id with
  | error error => exact ⟨error, rfl⟩
  | ok ws => exact absurd (mem_ids_iff.mpr ⟨ws, found⟩) absent

theorem workspaces_mutate {α : Type} (change : Mutation α) (inner : Inner) :
    (mutate change inner).2.workspaces = (change inner).2.workspaces := by
  rw [mutate]
  split
  · next value next changed => rw [changed, workspaces_settleFocus]
  · next error next changed => rw [changed]

theorem assign_workspaces {slotId : SlotId} (assigned : inner.assign wsId slotId = .ok next) :
    next.workspaces = inner.workspaces := by
  obtain ⟨ws, -, rfl⟩ := assign_eq_ok assigned
  exact workspaces_setSlot _ _ _

theorem assignBoth_workspaces (assigned : inner.assignBoth wsId = .ok next) :
    next.workspaces = inner.workspaces := by
  obtain ⟨ws, found⟩ := assignBoth_eq_ok assigned
  obtain ⟨first, same, rfl⟩ := assignBoth_ok found
  rw [assigned, Except.ok.injEq] at same
  subst same
  rw [setVisible, workspaces_setSlot, workspaces_setSlot, workspaces_setSlot]

theorem replaceIn_workspaces {replacement : Option String} {slotId : SlotId}
    (replaced : inner.replaceIn wsId replacement slotId = .ok next) :
    next.workspaces = inner.workspaces := by
  unfold replaceIn at replaced
  split at replaced
  · rw [← Except.ok.inj replaced]
  · cases replacement with
    | none =>
        rw [← Except.ok.inj replaced]
        exact workspaces_setSlot _ _ _
    | some id =>
        obtain ⟨given, assigned, same⟩ := Except.bind_eq_ok.mp replaced
        rw [← Except.ok.inj same, setVisible, workspaces_setSlot, assign_workspaces assigned]

/-- Taking a tab away closes its workspace, whatever is shown in its place. -/
theorem closeTab_workspaces (wsId : String) (inner : Inner) :
    (closeTab wsId inner).2.workspaces = (inner.remove wsId).workspaces := by
  rw [closeTab, workspaces_mutate]
  cases position : inner.workspaces.findIdx? fun ws => ws.id = wsId with
  | none =>
      refine (List.eraseP_of_forall_not fun ws member => ?_).symm
      exact Bool.not_eq_true _ ▸ List.findIdx?_eq_none_iff.mp position ws member
  | some index =>
      have attempted : ∀ {result : Except String Inner},
          (∀ {after}, result = .ok after → after.workspaces = (inner.remove wsId).workspaces) →
            (attempt () (inner.remove wsId) result).2.workspaces =
              (inner.remove wsId).workspaces := by
        intro result same
        cases result with
        | error error => rfl
        | ok after => exact same rfl
      dsimp only
      split
      · exact attempted assignBoth_workspaces
      · refine attempted fun {after} replaced => ?_
        obtain ⟨first, left, right⟩ := Except.bind_eq_ok.mp replaced
        rw [replaceIn_workspaces right, replaceIn_workspaces left]

/-- A picker is opened, if the workspace that asks for it is there. -/
theorem pickStart_cases (distinct : inner.ids.Nodup) (spec : PickSpec) :
    (∃ error, pickStart spec inner = (.error error, inner)) ∨
      ∃ id next slotId prior, pickStart spec inner = (.ok id, next) ∧
        spec.callerWs ∈ inner.ids ∧ id ∉ inner.ids ∧ next.ids = inner.ids ++ [id] ∧
        ∀ ws ∈ next.workspaces,
          (∃ old ∈ inner.workspaces, old.id = ws.id ∧
            ws.vars "pick_request" = old.vars "pick_request") ∨
          ws.id = id ∧ ws.vars "pick_request" = some (pickRequest spec slotId prior) := by
  rw [pickStart, mutate]
  cases found : inner.workspace spec.callerWs with
  | error error => exact .inl ⟨error, rfl⟩
  | ok caller =>
      right
      dsimp only
      generalize request : pickRequest spec inner.focused.other (inner.slot inner.focused.other) = asked
      generalize changed : (inner.newWorkspace spec.repo none).2.change
        (inner.newWorkspace spec.repo none).1 _ = made
      have keepsId : ∀ ws : Workspace, ({ ws with
          name := spec.name.getD ws.name
          autoIndex := if spec.name.isSome then none else ws.autoIndex
          vars := ws.vars.extend (spec.vars ++ [("pick_request", asked)])
          lastPanel := Function.update ws.lastPanel inner.focused.other (some spec.panelType) } :
            Workspace).id = ws.id := fun _ => rfl
      have ids : made.ids = inner.ids ++ [(inner.newWorkspace spec.repo none).1] := by
        rw [← changed, ids_change _ keepsId, ids_newWorkspace]
      have listed : (inner.newWorkspace spec.repo none).1 ∈ made.ids := by
        rw [ids]
        exact List.mem_append_right _ List.mem_cons_self
      obtain ⟨shown, assigned⟩ := assign_of_mem listed inner.focused.other
      have displayed : made.showNewWorkspace (inner.newWorkspace spec.repo none).1
          (some inner.focused.other) = .ok (shown.setFocused inner.focused.other) := by
        rw [showNewWorkspace, assigned]
        rfl
      have same : (shown.setFocused inner.focused.other).settleFocus.workspaces = made.workspaces := by
        rw [workspaces_settleFocus, workspaces_setFocused, assign_workspaces assigned]
      rw [displayed]
      refine ⟨_, _, inner.focused.other, inner.slot inner.focused.other, rfl,
        mem_ids_iff.mpr ⟨caller, found⟩, inner.newWorkspace_not_mem _ _, ?_, fun ws member => ?_⟩
      · rw [Inner.ids, same]
        exact ids
      · rw [same, ← changed] at member
        have distinct := nodup_newWorkspace distinct spec.repo none
        obtain ⟨there, differs⟩ | ⟨old, -, named, rfl⟩ := mem_changeFirst_of_nodup distinct member
        · rcases List.mem_append.mp there with there | new
          · exact .inl ⟨ws, there, rfl, rfl⟩
          · rw [List.mem_singleton.mp new] at differs
            exact absurd rfl differs
        · refine .inr ⟨named, ?_⟩
          rw [request]
          change old.vars.extend (spec.vars ++ [("pick_request", asked)]) "pick_request" = _
          rw [Vars.extend, List.foldl_append, List.foldl_cons, List.foldl_nil, Vars.insert,
            Function.update_self]

theorem closePick_missing {ending : Ending} (absent : ending.callerWs ∉ inner.ids) :
    ∃ error, closePick ending wsId inner = (.error error, inner) := by
  obtain ⟨error, missing⟩ := workspace_of_not_mem absent
  exact ⟨error, by rw [closePick, mutate, missing]⟩

theorem sendVars_ok {vars : List (String × JsonValue)} (there : wsId ∈ inner.ids)
    (allowed : (vars.any fun entry => entry.1 = "active_repo") = false) :
    sendVars wsId vars inner =
      (.ok (), inner.change wsId fun ws => { ws with vars := ws.vars.extend vars }) := by
  rw [sendVars, if_neg (by simp [allowed]), changeKnown_ok there]

theorem sendVars_missing (vars : List (String × JsonValue)) (absent : wsId ∉ inner.ids)
    (allowed : (vars.any fun entry => entry.1 = "active_repo") = false) :
    ∃ error, sendVars wsId vars inner = (.error error, inner) := by
  obtain ⟨error, missing⟩ := workspace_of_not_mem absent
  exact ⟨error, by rw [sendVars, if_neg (by simp [allowed]), changeKnown, missing]; rfl⟩

theorem showCaller_workspaces (pickerSlot : SlotId) (inner : Inner) :
    (inner.showCaller pickerSlot).workspaces = inner.workspaces := by
  rw [showCaller]
  split
  · exact workspaces_setSlot _ _ _
  · rfl

theorem closePick_closes {ending : Ending} (there : ending.callerWs ∈ inner.ids)
    (other : ending.callerWs ≠ wsId) :
    ∃ next, closePick ending wsId inner = (.ok (), next) ∧
      next.workspaces = (inner.remove wsId).workspaces := by
  obtain ⟨caller, found⟩ := mem_ids_iff.mp there
  rw [closePick, mutate, found]
  dsimp only
  generalize given : (((inner.remove wsId).setSlot ending.pickerSlot
    ((inner.remove wsId).restored ending.restore)).setFocused ending.pickerSlot.other) = start
  have same : start.workspaces = (inner.remove wsId).workspaces := by
    rw [← given, workspaces_setFocused, workspaces_setSlot]
  by_cases covers : (start.slot ending.pickerSlot.other).workspace = some wsId
  · have listed : ending.callerWs ∈ start.ids := by
      have ids : start.ids = (inner.remove wsId).ids := by rw [Inner.ids, Inner.ids, same]
      rw [ids, ids_remove]
      exact (List.mem_erase_of_ne other).mpr there
    obtain ⟨shown, assigned⟩ := assign_of_mem listed ending.pickerSlot.other
    rw [if_pos covers, assigned]
    refine ⟨_, rfl, ?_⟩
    rw [workspaces_settleFocus, showCaller_workspaces, setVisible, workspaces_setSlot,
      assign_workspaces assigned, same]
  · rw [if_neg covers]
    refine ⟨_, rfl, ?_⟩
    rw [workspaces_settleFocus, showCaller_workspaces, same]

theorem readPick_request {ending : Ending} (read : inner.readPick wsId = .ok ending) :
    ∃ ws ∈ inner.workspaces, ws.id = wsId ∧ ∃ request, ws.vars "pick_request" = some request ∧
      request.isNull = false ∧ (request.field "caller_ws").asStr = some ending.callerWs ∧
      request.field "token" = ending.token := by
  obtain ⟨ws, found, read⟩ := Except.bind_eq_ok.mp read
  obtain ⟨there, named⟩ := workspace_eq_ok found
  refine ⟨ws, there, named, ?_⟩
  cases requested : (ws.vars "pick_request").filter fun request => !request.isNull with
  | none =>
      rw [requested] at read
      cases read
  | some request =>
      rw [requested] at read
      obtain ⟨kept, notNull⟩ := Option.filter_eq_some_iff.mp requested
      refine ⟨request, kept, by simpa using notNull, ?_⟩
      dsimp only at read
      split at read
      · next callerWs pickerSlot caller slot =>
        obtain rfl := Except.ok.inj read
        exact ⟨caller, rfl⟩
      · cases read

end Inner

theorem pickResult_token {ending : Ending} {confirm : Bool} {result : JsonValue}
    (made : pickResult ending confirm = .ok result) : result.field "token" = ending.token := by
  rw [pickResult] at made
  split at made
  · obtain rfl := Except.ok.inj made
    rfl
  · split at made
    · split at made
      · split at made
        · obtain rfl := Except.ok.inj made
          rfl
        · cases made
      · cases made
    · split at made
      · obtain rfl := Except.ok.inj made
        rfl
      · cases made

namespace Picking

variable {world : Picking} {next : Inner}

/-! ### Which workspace an id is -/

/-- What is known of the workspaces that are open and of the pickers that were opened. -/
structure Tracked (world : Picking) : Prop where
  nodup : world.inner.ids.Nodup
  born_lt : ∀ id ∈ world.inner.ids, world.born id < world.clock
  /-- A picker and its opener were made earlier. -/
  known : ∀ {who opened}, world.pickers who = some opened →
    who.2 < world.clock ∧ opened.opener.2 < world.clock
  /-- A picker has another id than its opener. -/
  apart : ∀ {who opened}, world.pickers who = some opened → who.1 ≠ opened.opener.1
  plain : ∀ ws ∈ world.inner.workspaces, world.pickers (world.who ws.id) = none →
    Inner.isPicker ws = false
  requests : ∀ ws ∈ world.inner.workspaces, ∀ {opened},
    world.pickers (world.who ws.id) = some opened →
      ∃ request, ws.vars "pick_request" = some request ∧
        request.field "caller_ws" = .string opened.opener.1 ∧ request.field "token" = opened.token

theorem mem_ids_of_mem {inner : Inner} {ws : Workspace} (member : ws ∈ inner.workspaces) :
    ws.id ∈ inner.ids := List.mem_map_of_mem member

theorem who_move_of_mem {id : String} (there : id ∈ world.inner.ids) :
    (world.move next).who id = world.who id :=
  congrArg (Prod.mk id) (if_neg fun both => both.2 there)

theorem who_move_of_new {id : String} (new : id ∉ world.inner.ids) (member : id ∈ next.ids) :
    (world.move next).who id = (id, world.clock) := congrArg (Prod.mk id) (if_pos ⟨member, new⟩)

theorem open_iff {who : Who} : world.Open who ↔ who.1 ∈ world.inner.ids ∧ world.who who.1 = who := by
  refine and_congr_right fun _ => ?_
  constructor
  · intro same
    exact Prod.ext rfl same
  · exact congrArg Prod.snd

/-- A workspace made earlier is open after a section if it was before and was not closed. -/
theorem open_move {who : Who} (earlier : who.2 < world.clock) :
    (world.move next).Open who ↔ who.1 ∈ next.ids ∧ world.Open who := by
  rw [open_iff, open_iff]
  constructor
  · rintro ⟨member, same⟩
    by_cases there : who.1 ∈ world.inner.ids
    · rw [who_move_of_mem there] at same
      exact ⟨member, there, same⟩
    · have moved : (world.move next).who who.1 = _ := who_move_of_new there member
      rw [moved] at same
      have := congrArg Prod.snd same
      dsimp only at this
      omega
  · rintro ⟨member, there, same⟩
    exact ⟨member, (who_move_of_mem there).trans same⟩

theorem Tracked.pickers_clock (tracked : Tracked world) (id : String) :
    world.pickers (id, world.clock) = none := by
  cases made : world.pickers (id, world.clock) with
  | none => rfl
  | some opened => exact absurd (tracked.known made).1 (Nat.lt_irrefl _)

theorem Tracked.born_lt_move (tracked : Tracked world) :
    ∀ id ∈ next.ids, (world.move next).born id < world.clock + 1 := by
  intro id member
  change (if id ∈ next.ids ∧ id ∉ world.inner.ids then world.clock else world.born id) < _
  split
  · omega
  · next old =>
    have there : id ∈ world.inner.ids := by
      by_contra new
      exact old ⟨member, new⟩
    have := tracked.born_lt id there
    omega

theorem Tracked.known_move (tracked : Tracked world) {who : Who} {opened : Opened}
    (made : world.pickers who = some opened) :
    who.2 < world.clock + 1 ∧ opened.opener.2 < world.clock + 1 := by
  obtain ⟨one, two⟩ := tracked.known made
  omega

/-- No workspace is closed, and no picker is made. -/
theorem Tracked.steady (tracked : Tracked world) (steady : world.inner.Steady next) :
    Tracked (world.move next) where
  nodup := steady.nodup tracked.nodup
  born_lt := tracked.born_lt_move
  known made := tracked.known_move made
  apart made := tracked.apart made
  plain ws member none := by
    obtain ⟨old, there, id, request⟩ | ⟨new, plain⟩ := steady.kept ws member
    · rw [Inner.isPicker_congr request]
      refine tracked.plain old there ?_
      rwa [id, ← who_move_of_mem (id ▸ mem_ids_of_mem there)]
    · exact plain
  requests ws member opened made := by
    obtain ⟨old, there, id, request⟩ | ⟨new, -⟩ := steady.kept ws member
    · rw [request]
      refine tracked.requests old there ?_
      rwa [id, ← who_move_of_mem (id ▸ mem_ids_of_mem there)]
    · have moved : (world.move next).who ws.id = _ := who_move_of_new new (mem_ids_of_mem member)
      rw [moved] at made
      exact nomatch (tracked.pickers_clock ws.id).symm.trans made

/-- A workspace is closed. -/
theorem Tracked.close (tracked : Tracked world) {wsId : String}
    (closes : next.workspaces = (world.inner.remove wsId).workspaces) :
    Tracked (world.move next) := by
  have ids : next.ids = world.inner.ids.erase wsId := by
    rw [← Inner.ids_remove, Inner.ids, Inner.ids, closes]
  have older : ∀ ws ∈ next.workspaces, ws ∈ world.inner.workspaces := fun ws member => by
    rw [closes] at member
    exact List.mem_of_mem_eraseP member
  refine ⟨?_, tracked.born_lt_move, fun made => tracked.known_move made,
    fun made => tracked.apart made, fun ws member none => ?_, fun ws member opened made => ?_⟩
  · change next.ids.Nodup
    rw [ids]
    exact tracked.nodup.erase wsId
  · rw [who_move_of_mem (mem_ids_of_mem (older ws member))] at none
    exact tracked.plain ws (older ws member) none
  · rw [who_move_of_mem (mem_ids_of_mem (older ws member))] at made
    exact tracked.requests ws (older ws member) made

/-- A picker is opened. -/
theorem Tracked.pickStart (tracked : Tracked world) {id : String} {spec : PickSpec} {slotId : SlotId}
    {prior : Slot} (caller : spec.callerWs ∈ world.inner.ids) (new : id ∉ world.inner.ids)
    (ids : next.ids = world.inner.ids ++ [id])
    (kept : ∀ ws ∈ next.workspaces,
      (∃ old ∈ world.inner.workspaces, old.id = ws.id ∧
        ws.vars "pick_request" = old.vars "pick_request") ∨
      ws.id = id ∧ ws.vars "pick_request" = some (pickRequest spec slotId prior)) :
    Tracked { world.move next with
      pickers := Function.update world.pickers (id, world.clock)
        (some ⟨world.who spec.callerWs, spec.token⟩) } := by
  have listed : id ∈ next.ids := by
    rw [ids]
    exact List.mem_append_right _ List.mem_cons_self
  have older : ∀ {old}, old ∈ world.inner.ids → (world.move next).who old ≠ (id, world.clock) := by
    intro old there same
    have named : old = id := congrArg Prod.fst same
    exact new (named ▸ there)
  have either : ∀ {who opened}, Function.update world.pickers (id, world.clock)
      (some ⟨world.who spec.callerWs, spec.token⟩) who = some opened →
      who = (id, world.clock) ∧ opened = ⟨world.who spec.callerWs, spec.token⟩ ∨
        world.pickers who = some opened := by
    intro who opened made
    by_cases same : who = (id, world.clock)
    · rw [same, Function.update_self] at made
      exact .inl ⟨same, (Option.some.inj made).symm⟩
    · rw [Function.update_of_ne same] at made
      exact .inr made
  refine ⟨?_, tracked.born_lt_move, fun {who opened} made => ?_, fun {who opened} made => ?_,
    fun ws member none => ?_, fun ws member opened made => ?_⟩
  · change next.ids.Nodup
    rw [ids, List.nodup_append]
    refine ⟨tracked.nodup, List.nodup_singleton _, fun old there other member same => new ?_⟩
    rwa [← List.mem_singleton.mp member, ← same]
  · obtain ⟨rfl, rfl⟩ | made := either made
    · exact ⟨Nat.lt_succ_self _, Nat.lt_succ_of_lt (tracked.born_lt spec.callerWs caller)⟩
    · exact tracked.known_move made
  · obtain ⟨rfl, rfl⟩ | made := either made
    · intro same
      exact new ((show id = spec.callerWs from same) ▸ caller)
    · exact tracked.apart made
  · obtain ⟨old, there, named, request⟩ | ⟨named, -⟩ := kept ws member
    · have before : ws.id ∈ world.inner.ids := named ▸ mem_ids_of_mem there
      rw [Inner.isPicker_congr request]
      refine tracked.plain old there ?_
      change Function.update world.pickers _ _ ((world.move next).who ws.id) = _ at none
      rwa [Function.update_of_ne (older before), who_move_of_mem before, ← named] at none
    · change Function.update world.pickers _ _ ((world.move next).who ws.id) = _ at none
      rw [named, who_move_of_new new listed, Function.update_self] at none
      cases none
  · change Function.update world.pickers _ _ ((world.move next).who ws.id) = _ at made
    obtain ⟨old, there, named, request⟩ | ⟨named, request⟩ := kept ws member
    · have before : ws.id ∈ world.inner.ids := named ▸ mem_ids_of_mem there
      rw [request]
      refine tracked.requests old there ?_
      rwa [Function.update_of_ne (older before), who_move_of_mem before, ← named] at made
    · rw [named, who_move_of_new new listed, Function.update_self] at made
      obtain rfl := Option.some.inj made
      exact ⟨_, request, rfl, rfl⟩

theorem Tracked.pickers_isSome (tracked : Tracked world) {ws : Workspace}
    (member : ws ∈ world.inner.workspaces) {request : JsonValue}
    (requested : ws.vars "pick_request" = some request) (notNull : request.isNull = false) :
    ∃ opened, world.pickers (world.who ws.id) = some opened ∧
      request.field "caller_ws" = .string opened.opener.1 ∧ request.field "token" = opened.token := by
  cases made : world.pickers (world.who ws.id) with
  | none =>
      have plain := tracked.plain ws member made
      rw [Inner.isPicker, requested] at plain
      simp [notNull] at plain
  | some opened =>
      obtain ⟨held, same, caller, token⟩ := tracked.requests ws member made
      obtain rfl := Option.some.inj (requested.symm.trans same)
      exact ⟨opened, rfl, caller, token⟩

/-! ### Endings -/

/-- An ending of a picker under way has the picker's token, and its caller. -/
def Asks (world : Picking) (picker : Who) (ending : Ending) (result : JsonValue) : Prop :=
  ∃ opened, world.pickers picker = some opened ∧ ending.callerWs = opened.opener.1 ∧
    result.field "token" = opened.token

/-- What is asked of a command under way. -/
def Asked (world : Picking) : Pending → Prop
  | .read wsId ending result _ birth => world.Asks (wsId, birth) ending result
  | .closed wsId ending result _ birth => world.Asks (wsId, birth) ending result
  | _ => True

/-- The pickers answered, or whose result is on its way. -/
def ended (world : Picking) (pending : List Pending) : List Who :=
  pending.filterMap Pending.picker ++ world.delivered.map Delivery.picker

/-- The endings of the pickers, with the commands under way. -/
structure Answering (world : Picking) (pending : List Pending) : Prop where
  asked : ∀ one ∈ pending, world.Asked one
  nodup : (world.ended pending).Nodup
  gone : ∀ picker ∈ world.ended pending,
    (∃ opened, world.pickers picker = some opened) ∧ ¬world.Open picker
  own : ∀ delivery ∈ world.delivered, ∃ opened, world.pickers delivery.picker = some opened ∧
    delivery.receiver = opened.opener ∧ delivery.result.field "token" = opened.token
  answered : ∀ {picker opened}, world.pickers picker = some opened → ¬world.Open picker →
    world.Open opened.opener → picker ∈ world.ended pending

variable {pending rest : List Pending} {one other : Pending}

theorem Answering.perm (answering : Answering world pending) (perm : pending.Perm rest) :
    Answering world rest := by
  have same : (world.ended pending).Perm (world.ended rest) :=
    (perm.filterMap _).append_right _
  exact ⟨fun one member => answering.asked one (perm.mem_iff.mpr member),
    same.nodup_iff.mp answering.nodup,
    fun picker member => answering.gone picker (same.mem_iff.mpr member), answering.own,
    fun made closed opener => same.mem_iff.mp (answering.answered made closed opener)⟩

/-- A command under way that delivers nothing next is done with. -/
theorem Answering.drop (answering : Answering world (one :: rest)) (silent : one.picker = none) :
    Answering world rest := by
  have same : world.ended (one :: rest) = world.ended rest := by
    rw [ended, List.filterMap_cons_none silent]
    rfl
  exact ⟨fun other member => answering.asked other (List.mem_cons_of_mem _ member),
    same ▸ answering.nodup, fun picker member => answering.gone picker (same ▸ member),
    answering.own, fun made closed opener => same ▸ answering.answered made closed opener⟩

/-- A command goes on that delivers nothing next. -/
theorem Answering.add (answering : Answering world pending) (silent : other.picker = none)
    (asked : world.Asked other) : Answering world (pending ++ [other]) := by
  have same : world.ended (pending ++ [other]) = world.ended pending := by
    rw [ended, List.filterMap_append, List.filterMap_cons_none silent]
    simp [ended]
  refine ⟨fun one member => ?_, same ▸ answering.nodup,
    fun picker member => answering.gone picker (same ▸ member), answering.own,
    fun made closed opener => same ▸ answering.answered made closed opener⟩
  rcases List.mem_append.mp member with member | member
  · exact answering.asked one member
  · exact List.mem_singleton.mp member ▸ asked

theorem Asked.move (asked : world.Asked one) : (world.move next).Asked one := by
  cases one <;> exact asked

/-- No workspace is closed. -/
theorem Answering.steady (answering : Answering world pending) (tracked : Tracked world)
    (steady : world.inner.Steady next) : Answering (world.move next) pending := by
  have same : ∀ {who : Who}, who.2 < world.clock → ((world.move next).Open who ↔ world.Open who) :=
    fun earlier => (open_move earlier).trans (and_iff_right_of_imp fun held => steady.grown held.1)
  refine ⟨fun one member => (answering.asked one member).move, answering.nodup,
    fun picker member => ?_, answering.own, fun {picker opened} made closed opener => ?_⟩
  · obtain ⟨⟨opened, made⟩, closed⟩ := answering.gone picker member
    exact ⟨⟨opened, made⟩, (not_congr (same (tracked.known made).1)).mpr closed⟩
  · obtain ⟨one, two⟩ := tracked.known made
    exact answering.answered made ((not_congr (same one)).mp closed) ((same two).mp opener)

/-- A picker is opened. -/
theorem Answering.pickStart (answering : Answering world pending) (tracked : Tracked world)
    {id : String} {made : Opened} (ids : next.ids = world.inner.ids ++ [id])
    (new : id ∉ world.inner.ids) :
    Answering { world.move next with
      pickers := Function.update world.pickers (id, world.clock) (some made) } pending := by
  have kept : ∀ {who opened}, world.pickers who = some opened →
      Function.update world.pickers (id, world.clock) (some made) who = some opened := by
    intro who opened held
    rw [Function.update_of_ne ?_]
    · exact held
    · rintro rfl
      exact nomatch (tracked.pickers_clock id).symm.trans held
  have same : ∀ {who : Who}, who.2 < world.clock → ((world.move next).Open who ↔ world.Open who) :=
    fun earlier => (open_move earlier).trans (and_iff_right_of_imp fun held => by
      rw [ids]
      exact List.mem_append_left _ held.1)
  have asks : ∀ {picker ending result}, world.Asks picker ending result → Asks { world.move next with
      pickers := Function.update world.pickers (id, world.clock) (some made) } picker ending result :=
    fun ⟨opened, held, caller, token⟩ => ⟨opened, kept held, caller, token⟩
  refine ⟨fun one member => ?_, answering.nodup, fun picker member => ?_, fun delivery member => ?_,
    fun {picker opened} held closed opener => ?_⟩
  · have asked := answering.asked one member
    cases one with
    | read => exact asks asked
    | closed => exact asks asked
    | closing | asked | tab => trivial
  · obtain ⟨⟨opened, held⟩, closed⟩ := answering.gone picker member
    exact ⟨⟨opened, kept held⟩, (not_congr (same (tracked.known held).1)).mpr closed⟩
  · obtain ⟨opened, held, receiver, token⟩ := answering.own delivery member
    exact ⟨opened, kept held, receiver, token⟩
  · change Function.update world.pickers (id, world.clock) (some made) picker = _ at held
    by_cases newest : picker = (id, world.clock)
    · refine absurd ?_ closed
      have listed : id ∈ next.ids := by
        rw [ids]
        exact List.mem_append_right _ List.mem_cons_self
      rw [newest]
      exact ⟨listed, if_pos ⟨listed, new⟩⟩
    · rw [Function.update_of_ne newest] at held
      obtain ⟨one, two⟩ := tracked.known held
      exact answering.answered held ((not_congr (same one)).mp closed) ((same two).mp opener)

theorem open_close (tracked : Tracked world) {wsId : String}
    (closes : next.workspaces = (world.inner.remove wsId).workspaces) {who : Who}
    (earlier : who.2 < world.clock) :
    (world.move next).Open who ↔ who.1 ≠ wsId ∧ world.Open who := by
  have ids : next.ids = world.inner.ids.erase wsId := by
    rw [← Inner.ids_remove, Inner.ids, Inner.ids, closes]
  rw [open_move earlier, ids, tracked.nodup.mem_erase_iff, and_assoc]
  exact and_congr_right fun _ => and_iff_right_of_imp fun held => held.1

/-- A tab is taken away: no picker whose opener is open. -/
theorem Answering.closeTab (answering : Answering world pending) (tracked : Tracked world)
    {wsId : String} (closes : next.workspaces = (world.inner.remove wsId).workspaces)
    (clear : wsId ∈ world.inner.ids →
      ∀ opened ∈ world.pickers (world.who wsId), ¬world.Open opened.opener) :
    Answering (world.move next) pending := by
  refine ⟨fun one member => (answering.asked one member).move, answering.nodup,
    fun picker member => ?_, answering.own, fun {picker opened} made closed opener => ?_⟩
  · obtain ⟨⟨opened, made⟩, closed⟩ := answering.gone picker member
    exact ⟨⟨opened, made⟩, fun held =>
      closed ((open_close tracked closes (tracked.known made).1).mp held).2⟩
  · obtain ⟨one, two⟩ := tracked.known made
    have opener := ((open_close tracked closes two).mp opener).2
    refine answering.answered made (fun held => ?_) opener
    have named : picker.1 = wsId := by
      by_contra differs
      exact closed ((open_close tracked closes one).mpr ⟨differs, held⟩)
    have same : world.who wsId = picker := by
      rw [← named]
      exact (open_iff.mp held).2
    exact clear (named ▸ held.1) opened (same ▸ made) opener

/-- A picker is closed, and its result on its way. -/
theorem Answering.closePick (answering : Answering world pending) (tracked : Tracked world)
    {wsId : String} {ending : Ending} {result : JsonValue} {closing : Bool} {birth : Nat}
    (closes : next.workspaces = (world.inner.remove wsId).workspaces)
    (held : world.Open (wsId, birth)) (asks : world.Asks (wsId, birth) ending result) :
    Answering (world.move next) (pending ++ [.closed wsId ending result closing birth]) := by
  have ended_eq : (world.move next).ended (pending ++ [.closed wsId ending result closing birth]) =
      pending.filterMap Pending.picker ++ (wsId, birth) :: world.delivered.map Delivery.picker := by
    rw [ended, List.filterMap_append, List.append_assoc]
    rfl
  have perm : (pending.filterMap Pending.picker ++
      (wsId, birth) :: world.delivered.map Delivery.picker).Perm
        ((wsId, birth) :: world.ended pending) := List.perm_middle
  refine ⟨fun one member => ?_, ?_, fun picker member => ?_, answering.own,
    fun {picker opened} made closed opener => ?_⟩
  · rcases List.mem_append.mp member with member | member
    · exact (answering.asked one member).move
    · obtain rfl := List.mem_singleton.mp member
      exact asks
  · rw [ended_eq, perm.nodup_iff, List.nodup_cons]
    exact ⟨fun member => (answering.gone _ member).2 held, answering.nodup⟩
  · rw [ended_eq, perm.mem_iff, List.mem_cons] at member
    rcases member with rfl | member
    · obtain ⟨opened, made, -⟩ := asks
      exact ⟨⟨opened, made⟩, fun open_ =>
        ((open_close tracked closes (tracked.known made).1).mp open_).1 rfl⟩
    · obtain ⟨⟨opened, made⟩, closed⟩ := answering.gone picker member
      exact ⟨⟨opened, made⟩, fun open_ =>
        closed ((open_close tracked closes (tracked.known made).1).mp open_).2⟩
  · rw [ended_eq, perm.mem_iff, List.mem_cons]
    obtain ⟨one, two⟩ := tracked.known made
    by_cases before : world.Open picker
    · left
      have named : picker.1 = wsId := by
        by_contra differs
        exact closed ((open_close tracked closes one).mpr ⟨differs, before⟩)
      refine Prod.ext named ?_
      rw [← before.2, ← held.2, named]
    · right
      exact answering.answered made before ((open_close tracked closes two).mp opener).2

/-- A result is not delivered: its caller is gone. -/
theorem Answering.undelivered {wsId : String} {ending : Ending} {result : JsonValue}
    {closing : Bool} {birth : Nat}
    (answering : Answering world (.closed wsId ending result closing birth :: rest))
    (absent : ending.callerWs ∉ world.inner.ids) : Answering world rest := by
  have ended_eq : world.ended (.closed wsId ending result closing birth :: rest) =
      (wsId, birth) :: world.ended rest := rfl
  have nodup := answering.nodup
  rw [ended_eq, List.nodup_cons] at nodup
  refine ⟨fun one member => answering.asked one (List.mem_cons_of_mem _ member), nodup.2,
    fun picker member => ?_, answering.own, fun {picker opened} made closed opener => ?_⟩
  · refine answering.gone picker ?_
    rw [ended_eq]
    exact List.mem_cons_of_mem _ member
  · have member := answering.answered made closed opener
    rw [ended_eq, List.mem_cons] at member
    rcases member with rfl | member
    · obtain ⟨held, same, caller, -⟩ := answering.asked _ List.mem_cons_self
      obtain rfl := Option.some.inj (made.symm.trans same)
      exact absurd (caller ▸ opener.1) absent
    · exact member

/-- A result is delivered where the picker was opened. -/
theorem Answering.deliver {wsId : String} {ending : Ending} {result : JsonValue}
    {closing : Bool} {birth : Nat}
    (answering : Answering world (.closed wsId ending result closing birth :: rest))
    (clear : ∀ opened ∈ world.pickers (wsId, birth), world.Open opened.opener) :
    Answering { world with
      delivered := world.delivered ++ [⟨(wsId, birth), world.who ending.callerWs, result⟩] } rest := by
  have perm : (ended { world with delivered := world.delivered ++
      [⟨(wsId, birth), world.who ending.callerWs, result⟩] } rest).Perm
        (world.ended (.closed wsId ending result closing birth :: rest)) := by
    rw [ended, List.map_append, ← List.append_assoc]
    exact List.perm_append_singleton _ _
  refine ⟨fun one member => ?_, perm.nodup_iff.mpr answering.nodup,
    fun picker member => answering.gone picker (perm.mem_iff.mp member),
    fun delivery member => ?_,
    fun made closed opener => perm.mem_iff.mpr (answering.answered made closed opener)⟩
  · have asked := answering.asked one (List.mem_cons_of_mem _ member)
    cases one <;> exact asked
  · rcases List.mem_append.mp member with member | member
    · exact answering.own delivery member
    · obtain rfl := List.mem_singleton.mp member
      obtain ⟨opened, made, caller, token⟩ := answering.asked _ List.mem_cons_self
      refine ⟨opened, made, ?_, token⟩
      rw [caller]
      exact (open_iff.mp (clear opened made)).2

/-! ### Runs -/

/-- What every clear run keeps. -/
structure Kept (world : Picking) : Prop where
  tracked : Tracked world
  answering : Answering world world.pending

theorem Tracked.withPending (tracked : Tracked world) (pending : List Pending) :
    Tracked { world with pending := pending } :=
  ⟨tracked.nodup, tracked.born_lt, tracked.known, tracked.apart, tracked.plain, tracked.requests⟩

theorem Answering.withPending (answering : Answering world pending) (others : List Pending) :
    Answering { world with pending := others } pending := by
  refine ⟨fun one member => ?_, answering.nodup, answering.gone, answering.own, answering.answered⟩
  have asked := answering.asked one member
  cases one <;> exact asked

theorem Kept.push (tracked : Tracked world) (answering : Answering world world.pending)
    (silent : one.picker = none) (asked : world.Asked one) : Kept (world.push one) where
  tracked := tracked.withPending _
  answering := (answering.add silent asked).withPending _

theorem Kept.failed (tracked : Tracked world) (answering : Answering world world.pending)
    (wsId : String) (closing : Bool) : Kept (world.failed wsId closing) := by
  rw [Picking.failed]
  split
  · exact .push tracked answering rfl trivial
  · exact ⟨tracked, answering⟩

/-- The next section of a command under way, taken off those under way. -/
theorem Kept.resume (tracked : Tracked world) (answering : Answering world (one :: world.pending))
    (clear : world.ClearSection one) : Kept (world.resume one) := by
  cases one with
  | closing wsId =>
      have dropped := answering.drop rfl
      rw [Picking.resume]
      split
      · exact .push tracked dropped rfl trivial
      · exact .push tracked dropped rfl trivial
  | asked wsId confirm closing =>
      have dropped := answering.drop rfl
      rw [Picking.resume]
      cases read : world.inner.readPick wsId with
      | error error => exact .failed tracked dropped _ _
      | ok ending =>
          dsimp only
          cases made : pickResult ending confirm with
          | error error => exact .failed tracked dropped _ _
          | ok result =>
              refine .push tracked dropped rfl ?_
              obtain ⟨ws, member, rfl, request, requested, notNull, caller, token⟩ :=
                Inner.readPick_request read
              obtain ⟨opened, held, named, echoed⟩ :=
                tracked.pickers_isSome member requested notNull
              refine ⟨opened, held, ?_, ?_⟩
              · rw [named] at caller
                exact (Option.some.inj caller).symm
              · rw [pickResult_token made, ← token, echoed]
  | read wsId ending result closing birth =>
      have asks : world.Asks (wsId, birth) ending result := answering.asked _ List.mem_cons_self
      have dropped := answering.drop rfl
      rw [Picking.resume]
      by_cases there : ending.callerWs ∈ world.inner.ids
      · have held := asks
        obtain ⟨opened, made, caller, -⟩ := held
        have other : ending.callerWs ≠ wsId := by
          rw [caller]
          exact (tracked.apart made).symm
        obtain ⟨next, closed, closes⟩ := Inner.closePick_closes there other
        rw [closed]
        exact ⟨(tracked.close closes).withPending _,
          (dropped.closePick tracked closes (clear there) asks).withPending _⟩
      · obtain ⟨error, missing⟩ := Inner.closePick_missing there
        rw [missing]
        have same := Inner.Steady.refl world.inner
        exact .failed (tracked.steady same) (dropped.steady tracked same) _ _
  | closed wsId ending result closing birth =>
      have named : ∀ entry ∈ [("pick_result", result)], entry.1 ≠ "pick_request" := by simp
      have steady := Inner.Steady.sendVars world.inner ending.callerWs named
      rw [Picking.resume]
      by_cases there : ending.callerWs ∈ world.inner.ids
      · rw [Inner.sendVars_ok there (by simp)] at steady ⊢
        have delivered := answering.deliver (clear there)
        have same : Tracked { world with delivered := world.delivered ++
            [⟨(wsId, birth), world.who ending.callerWs, result⟩] } :=
          ⟨tracked.nodup, tracked.born_lt, tracked.known, tracked.apart, tracked.plain,
            tracked.requests⟩
        exact ⟨same.steady steady, delivered.steady same steady⟩
      · obtain ⟨error, missing⟩ := Inner.sendVars_missing [("pick_result", result)] there rfl
        rw [missing] at steady ⊢
        exact .failed (tracked.steady steady)
          ((answering.undelivered there).steady tracked steady) _ _
  | tab wsId =>
      have closes := Inner.closeTab_workspaces wsId world.inner
      exact ⟨tracked.close closes, (answering.drop rfl).closeTab tracked closes clear⟩

theorem Kept.step (kept : Kept world) {event : PickEvent} (clear : world.Clear event) :
    Kept (world.step event) := by
  obtain ⟨tracked, answering⟩ := kept
  cases event with
  | command command =>
      rw [Picking.step]
      split
      · next section_ =>
        have steady := Command.perform_steady section_ world.inner
        exact ⟨tracked.steady steady, answering.steady tracked steady⟩
      · exact ⟨tracked, answering⟩
  | pickStart spec =>
      rw [Picking.step]
      obtain ⟨error, refused⟩ | ⟨id, next, slotId, prior, opened, caller, new, ids, kept⟩ :=
        Inner.pickStart_cases tracked.nodup spec
      · rw [refused]
        have same := Inner.Steady.refl world.inner
        exact ⟨tracked.steady same, answering.steady tracked same⟩
      · rw [opened]
        exact ⟨tracked.pickStart caller new ids kept, answering.pickStart tracked ids new⟩
  | pickFinished confirm =>
      rw [Picking.step]
      split
      · exact ⟨tracked, answering⟩
      · exact .push tracked answering rfl trivial
  | closeWorkspace wsId => exact .push tracked answering rfl trivial
  | workspaceClose =>
      rw [Picking.step]
      split
      · exact ⟨tracked, answering⟩
      · exact .push tracked answering rfl trivial
  | advance index =>
      rw [Picking.step]
      cases found : world.pending[index]? with
      | none => exact ⟨tracked, answering⟩
      | some one =>
          obtain ⟨inside, same⟩ := List.getElem?_eq_some_iff.mp found
          have perm : world.pending.Perm (one :: world.pending.eraseIdx index) := by
            rw [← same]
            exact (List.getElem_cons_eraseIdx_perm inside).symm
          refine .resume (tracked.withPending _) ((answering.perm perm).withPending _) ?_
          have clear := clear one found
          cases one <;> exact clear

theorem kept_new : Kept new where
  tracked := by
    have steady : Inner.empty.Steady Inner.initial :=
      (Inner.Steady.newWorkspace _ _ _).trans (.attempt () .assign)
    refine ⟨steady.nodup List.nodup_nil, fun id member => Nat.zero_lt_one,
      (fun made => nomatch made), (fun made => nomatch made), fun ws member _ => ?_,
      fun ws member opened made => nomatch made⟩
    obtain ⟨old, there, -⟩ | ⟨-, plain⟩ := steady.kept ws member
    · cases there
    · exact plain
  answering := ⟨(fun one member => nomatch member), List.nodup_nil,
    (fun picker member => nomatch member), (fun delivery member => nomatch member),
    fun made => nomatch made⟩

theorem Run.kept (run : Run world) : Kept world := by
  induction run with
  | new => exact kept_new
  | step _ event clear ih => exact ih.step clear

instance (world : Picking) (who : Who) : Decidable (world.Open who) :=
  inferInstanceAs (Decidable (_ ∧ _))

/-- A picker opened from the first workspace. -/
def samplePick : PickSpec := ⟨"ws-1", .string "7", none, none, none, "metarecord-list", []⟩

end Picking

end Gui
end Metafolder
