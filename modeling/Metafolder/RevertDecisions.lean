import Metafolder.Restored
import Metafolder.RevertActions
import Mathlib.Data.List.Pairwise

/-!
# What a revert decides of one write

One event of the watcher writes several fields of a metarecord, and each operation asks for its
content.  They are decided alike as long as nothing between two of them changes what the first found:
an entry refused stays refused, and no entry that covers the metarecord is restored for another.
-/

namespace Metafolder.Revert

open Trash

/-- Two operations that bring back the content of one metarecord, as it was before one label. -/
structure SameWrite (first second : PlanOp) : Prop where
  restores : first.action = some .restoreContent
  restores_too : second.action = some .restoreContent
  entity_eq : first.entity = second.entity
  version_eq : first.versionBeforeLabel = second.versionBeforeLabel
  labelled : first.versionBeforeLabel.isSome

theorem SameWrite.symm {first second : PlanOp} (same : SameWrite first second) :
    SameWrite second first where
  restores := same.restores_too
  restores_too := same.restores
  entity_eq := same.entity_eq.symm
  version_eq := same.version_eq.symm
  labelled := same.version_eq ▸ same.labelled

/-- A trash entry was that of a metarecord, or took it with others. -/
def Covers (entry : TrashEntry) (uuid : String) : Prop :=
  entry.metarecord = some uuid ∨ ∃ node ∈ entry.subtree, node.trashed = true ∧ node.uuid = uuid

/-- Whether the trash refuses to restore an entry. -/
def Refuses (system : System) (disk : Disk) (entry : TrashEntry) : Prop :=
  ∀ path, (disk.restore system entry.id).1 ≠ .ok path

section Steps

variable (front : Front)

/-- An operation decided brought an entry back. -/
structure Decided.Restores (step : Decided) (entry : TrashEntry) : Prop where
  action : step.op.action = some .restoreContent
  pending : step.op.entity ∉ step.before.restored
  found : step.before.entries.find? (step.op.coveredBy step.op.takesAWholeMetarecord) = some entry
  accepted : ¬Refuses front.system step.before.disk entry

/-- What an operation decided after another leaves of what the other found. -/
structure Harmless (op : PlanOp) (step : Decided) : Prop where
  /-- Entries are looked for by one rule. -/
  one_rule : SameWrite op step.op → step.op.takesAWholeMetarecord = op.takesAWholeMetarecord
  /-- A refused entry of the metarecord stays refused: no move frees its place. -/
  stays_refused : ∀ entry ∈ step.before.entries, Covers entry op.entity →
    Refuses front.system step.before.disk entry → Refuses front.system step.after.disk entry
  /-- An entry of the metarecord is not restored for another write. -/
  kept : ¬SameWrite op step.op → ∀ entry, step.Restores front entry → ¬Covers entry op.entity

/-- From an operation on, as long as the content of its metarecord is not back, what is decided leaves
what the operation found. -/
def Steady (decided : List Decided) : Prop :=
  ∀ ⦃earlier first later⦄, decided = earlier ++ first :: later →
    first.op.action = some .restoreContent → first.op.versionBeforeLabel.isSome →
      ∀ step ∈ first :: later, first.op.entity ∉ step.before.restored →
        Harmless front first.op step

/-- An operation decided put the content of an entry back at its path: the blob, where the path was
free. -/
def Decided.PutsBack (step : Decided) (entry : TrashEntry) : Prop :=
  ∃ path node, step.before.disk.restore front.system entry.id = (.ok path, step.after.disk) ∧
    step.after.disk.root.nodeAt path = some node ∧
      (step.before.disk.root.nodeAt path = none → step.before.disk.blobs entry.id = some node)

/-- The content an operation asks for was put back, at the operation or before it. -/
def BroughtBack (decided : List Decided) (one : Decided) : Prop :=
  ∃ earlier step later entry, decided = earlier ++ step :: later ∧ one ∈ step :: later ∧
    step.PutsBack front entry ∧ Covers entry one.op.entity

/-- Content is not back, and nothing that could bring it back is accepted. -/
structure Obstructed (op : PlanOp) (progress : Progress) : Prop where
  pending : op.entity ∉ progress.restored
  refused : ∀ entry,
    progress.entries.find? (op.coveredBy op.takesAWholeMetarecord) = some entry →
      Refuses front.system progress.disk entry

end Steps

variable {front : Front} {op : PlanOp} {progress after : Progress} {leftOut : Bool}
  {entry : TrashEntry}

theorem covers_of_coveredBy {byMetarecordOnly : Bool}
    (covered : op.coveredBy byMetarecordOnly entry = true) : Covers entry op.entity := by
  simp only [PlanOp.coveredBy, Bool.or_eq_true, Bool.and_eq_true, decide_eq_true_iff,
    List.any_eq_true] at covered
  rcases covered with ⟨top, -⟩ | ⟨-, node, listed, taken⟩
  · exact .inl top
  · exact .inr ⟨node, listed, taken⟩

/-- Operations of one write, looked for by one rule, are covered by the same entries. -/
theorem SameWrite.coveredBy_eq {other : PlanOp} (same : SameWrite op other)
    (byMetarecordOnly : Bool) :
    other.coveredBy byMetarecordOnly = op.coveredBy byMetarecordOnly := by
  have version : other.version = op.version := by
    obtain ⟨held, labelled⟩ := Option.isSome_iff_exists.mp same.labelled
    rw [PlanOp.version, PlanOp.version, ← same.version_eq, labelled]
    rfl
  funext entry
  rw [PlanOp.coveredBy, PlanOp.coveredBy, version, ← same.entity_eq]

/-- Taking away an entry that is not looked for, another is found as before. -/
theorem find?_eraseP {α : Type} {wanted taken : α → Bool} {items : List α} {item : α}
    (found : items.find? taken = some item) (other : wanted item = false) :
    (items.eraseP taken).find? wanted = items.find? wanted := by
  induction items with
  | nil => rfl
  | cons first rest ih =>
      cases here : taken first with
      | true =>
          rw [List.find?_cons_of_pos here, Option.some.injEq] at found
          subst found
          rw [List.eraseP_cons_of_pos here, List.find?_cons_of_neg (by simp [other])]
      | false =>
          rw [List.find?_cons_of_neg (by simp [here])] at found
          rw [List.eraseP_cons_of_neg (by simp [here])]
          cases wantedHere : wanted first with
          | true => rw [List.find?_cons_of_pos wantedHere, List.find?_cons_of_pos wantedHere]
          | false =>
              rw [List.find?_cons_of_neg (by simp [wantedHere]),
                List.find?_cons_of_neg (by simp [wantedHere]), ih found]

/-! ### What a restore leaves on the disk -/

section Disks

variable {name : TreeName} {path : Path} {node : Node} {entries made : Entries}

theorem nodeAt_putAt_cons (path : Path) :
    (entries.put name node).nodeAt (name :: path) =
      match node with
      | .dir below => below.nodeAt path
      | .leaf content => if path = [] then some (.leaf content) else none := by
  rw [Entries.nodeAt, Entries.lookup_put, if_pos rfl]
  cases node <;> rfl

/-- What was put at a path stands there. -/
theorem nodeAt_of_putAt (put : entries.putAt path node = some made) :
    made.nodeAt path = some node := by
  induction path generalizing entries made with
  | nil =>
      cases node with
      | leaf content => cases put
      | dir below =>
          cases put
          rfl
  | cons name path ih =>
      cases path with
      | nil =>
          cases put
          rw [nodeAt_putAt_cons]
          cases node <;> rfl
      | cons next path =>
          rw [Entries.putAt] at put
          · split at put
            · rw [Option.map_eq_some_iff] at put
              obtain ⟨below, inner, rfl⟩ := put
              rw [nodeAt_putAt_cons]
              exact ih inner
            · cases put
          · simp

/-- Something can be put into a directory that is there. -/
theorem putAt_isSome (name : TreeName) (node : Node) {below : Entries} (parent : entries.nodeAt path = some (.dir below)) :
    (entries.putAt (path ++ [name]) node).isSome := by
  induction path generalizing entries with
  | nil => rfl
  | cons first path ih =>
      rw [Entries.nodeAt] at parent
      cases path with
      | nil =>
          split at parent
          · next inner found => simp [Entries.putAt, found]
          · cases parent
          · cases parent
      | cons next path =>
          split at parent
          · next inner found =>
              simp only [List.cons_append, Entries.putAt, found, Option.isSome_map]
              exact ih parent
          · cases parent
          · cases parent

/-- What stands at a path is replaced. -/
theorem putAt_isSome_of_nodeAt (below : Entries) {occupant : Entries}
    (there : entries.nodeAt path = some (.dir occupant)) :
    (entries.putAt path (.dir below)).isSome := by
  induction path generalizing entries with
  | nil => rfl
  | cons first path ih =>
      cases path with
      | nil => rfl
      | cons next path =>
          rw [Entries.nodeAt] at there
          split at there
          · next inner found =>
              simp only [Entries.putAt, found, Option.isSome_map]
              exact ih there
          · cases there
          · cases there

/-- Directories made are there. -/
theorem nodeAt_createDirAll (created : entries.createDirAll path = some made) :
    ∃ below, made.nodeAt path = some (.dir below) := by
  induction path generalizing entries made with
  | nil => exact ⟨made, rfl⟩
  | cons name path ih =>
      rw [Entries.createDirAll] at created
      split at created
      · rw [Option.map_eq_some_iff] at created
        obtain ⟨below, inner, rfl⟩ := created
        rw [nodeAt_putAt_cons]
        exact ih inner
      · rw [Option.map_eq_some_iff] at created
        obtain ⟨below, inner, rfl⟩ := created
        rw [nodeAt_putAt_cons]
        exact ih inner
      · cases created

end Disks

/-- A restore that goes through filled a free place with the blob, or merged it into a directory. -/
theorem restore_cases {clobber : Clobber} {acrossDevices : Bool} {bin left : Bin}
    (ran : Trash.restore clobber acrossDevices bin = (.ok (), left)) :
    (bin.target = none ∧ bin.room = true ∧ bin.blob.isSome ∧ left.target = bin.blob) ∨
      ∃ dst into, bin.target = some (.dir dst) ∧ left.target = some (.dir into) := by
  obtain ⟨blob, target, room, listed⟩ := bin
  cases target with
  | none =>
      left
      cases room with
      | false => cases ran
      | true =>
          cases blob with
          | none => cases ran
          | some node =>
              simp only [Trash.restore, planRestore, Bool.not_true, Bool.false_eq_true, if_false,
                Option.bind_some, movePath_free, Prod.mk.injEq, true_and] at ran
              subst ran
              exact ⟨rfl, rfl, rfl, rfl⟩
  | some occupant =>
      right
      cases blob with
      | none => cases ran
      | some node =>
          cases node with
          | leaf content => cases ran
          | dir src =>
              cases occupant with
              | leaf content => cases ran
              | dir dst =>
                  simp only [Trash.restore, planRestore] at ran
                  cases clear : detectMergeConflict [] src dst with
                  | error refusal =>
                      rw [clear] at ran
                      cases ran
                  | ok passed =>
                      rw [clear] at ran
                      change (if (mergeMove clobber acrossDevices src dst).done then _ else _) = _
                        at ran
                      split at ran
                      · simp only [Prod.mk.injEq, true_and] at ran
                        subst ran
                        exact ⟨dst, _, rfl, rfl⟩
                      · cases ran

/-- A restore that goes through puts something at its path, the blob if the path was free. -/
theorem nodeAt_of_restore {system : System} {disk left : Disk} {id : String} {path : Path}
    (ran : disk.restore system id = (.ok path, left)) :
    ∃ node, left.root.nodeAt path = some node ∧
      (disk.root.nodeAt path = none → disk.blobs id = some node) := by
  rw [Disk.restore] at ran
  cases listed : disk.index.find? fun entry => entry.id = id with
  | none =>
      rw [listed] at ran
      cases ran
  | some entry =>
      have isEntry : entry.id = id := by simpa using List.find?_some listed
      simp only [listed] at ran
      cases restored : Trash.restore system.clobber (system.acrossDevices entry.originalPath)
          (disk.bin entry) with
      | mk outcome bin =>
          rw [restored] at ran
          cases outcome with
          | error refusal => cases ran
          | ok done =>
              simp only [Prod.mk.injEq, Except.ok.injEq] at ran
              obtain ⟨rfl, rfl⟩ := ran
              rcases restore_cases restored with ⟨free, room, held, target⟩ | ⟨dst, into, there, target⟩
              · obtain ⟨blob, isBlob⟩ := Option.isSome_iff_exists.mp held
                rw [isBlob] at target
                refine ⟨blob, ?_, fun _ => isEntry ▸ isBlob⟩
                obtain ⟨made, created⟩ := Option.isSome_iff_exists.mp room
                obtain ⟨below, parent⟩ := nodeAt_createDirAll created
                have free : disk.root.nodeAt entry.originalPath = none := free
                have named : entry.originalPath ≠ [] := by
                  intro top
                  rw [top] at free
                  cases free
                have put := putAt_isSome (entry.originalPath.getLast named) blob parent
                rw [List.dropLast_append_getLast] at put
                obtain ⟨root, placed⟩ := Option.isSome_iff_exists.mp put
                simp only [Disk.put, free, if_true, created, target, Option.bind_some, Option.getD_some,
                  placed]
                exact nodeAt_of_putAt placed
              · refine ⟨.dir into, ?_, fun free => ?_⟩
                · have there : disk.root.nodeAt entry.originalPath = some (.dir dst) := there
                  obtain ⟨root, placed⟩ := Option.isSome_iff_exists.mp
                    (putAt_isSome_of_nodeAt into there)
                  simp only [Disk.put, there, reduceCtorEq, if_false, target, Option.bind_some,
                    placed, Option.getD_some]
                  exact nodeAt_of_putAt placed
                · have there : disk.root.nodeAt entry.originalPath = some (.dir dst) := there
                  rw [there] at free
                  cases free

/-! ### What one decision does -/

/-- A move brings no content back. -/
theorem decideMove_spec {source target : Option Path}
    (ran : decideMove front op source target progress = .ok (leftOut, after)) :
    after.entries = progress.entries ∧ after.restored = progress.restored := by
  simp only [decideMove, Except.bind_eq_ok] at ran
  obtain ⟨policy, -, ran⟩ := ran
  cases policy with
  | apply =>
      simp only at ran
      split at ran
      · split at ran
        · cases ran
          exact ⟨rfl, rfl⟩
        · split at ran
          · split at ran
            · cases ran
              exact ⟨rfl, rfl⟩
            · cases ran
          · cases ran
      · cases ran
        exact ⟨rfl, rfl⟩
  | skip =>
      cases ran
      exact ⟨rfl, rfl⟩
  | abort => cases ran
  | ask => cases ran

/-- What `decide_deleted` does: the content is back already, or it is not and no entry covers it, or
the one that does is refused, or is restored. -/
theorem decideDeleted_cases {byMetarecordOnly : Bool}
    (ran : decideDeleted front op byMetarecordOnly progress = (leftOut, after)) :
    (op.entity ∈ progress.restored ∧ leftOut = false ∧ after = progress) ∨
    (op.entity ∉ progress.restored ∧ leftOut = true ∧ after.entries = progress.entries ∧
      after.restored = progress.restored ∧
      (∀ entry, progress.entries.find? (op.coveredBy byMetarecordOnly) = some entry →
        Refuses front.system progress.disk entry) ∧
      (progress.entries.find? (op.coveredBy byMetarecordOnly) = none → after = progress)) ∨
    (op.entity ∉ progress.restored ∧ leftOut = false ∧ ∃ entry path,
      progress.entries.find? (op.coveredBy byMetarecordOnly) = some entry ∧
      progress.disk.restore front.system entry.id = (.ok path, after.disk) ∧
      after.entries = progress.entries.eraseP (op.coveredBy byMetarecordOnly) ∧
      after.restored = progress.restored ++
        (entry.subtree.filter TrashedNode.trashed).map TrashedNode.uuid ++ [op.entity]) := by
  rw [decideDeleted] at ran
  split at ran
  · next back =>
      cases ran
      exact .inl ⟨back, rfl, rfl⟩
  · next pending =>
      right
      cases found : progress.entries.find? (op.coveredBy byMetarecordOnly) with
      | none =>
          rw [found] at ran
          cases ran
          exact .inl ⟨pending, rfl, rfl, rfl, by simp, fun _ => rfl⟩
      | some entry =>
          simp only [found] at ran
          cases restored : progress.disk.restore front.system entry.id with
          | mk outcome disk =>
              rw [restored] at ran
              cases outcome with
              | ok path =>
                  cases ran
                  exact .inr ⟨pending, rfl, entry, path, rfl, restored, rfl, rfl⟩
              | error refusal =>
                  cases ran
                  refine .inl ⟨pending, rfl, rfl, rfl, ?_, by simp⟩
                  intro other isFound path accepted
                  cases isFound
                  rw [restored] at accepted
                  cases accepted

/-- Content that is back stays back. -/
theorem restored_subset (ran : decide front op progress = .ok (leftOut, after)) :
    progress.restored ⊆ after.restored := by
  rw [decide] at ran
  split at ran
  · rw [(decideMove_spec ran).2]
    exact List.Subset.refl _
  · rw [Except.pure_eq_ok] at ran
    rcases decideDeleted_cases ran with ⟨-, -, rfl⟩ | ⟨-, -, -, same, -⟩ |
        ⟨-, -, entry, path, -, -, -, grown⟩
    · exact List.Subset.refl _
    · rw [same]
      exact List.Subset.refl _
    · rw [grown, List.append_assoc]
      exact List.subset_append_left _ _
  · cases ran
    exact List.Subset.refl _

/-- An operation that brings content back leaves it back, or leaves itself out. -/
theorem decide_restoreContent (restores : op.action = some .restoreContent)
    (ran : decide front op progress = .ok (leftOut, after)) :
    leftOut = false ∧ op.entity ∈ after.restored ∨ leftOut = true ∧ Obstructed front op progress := by
  rw [decide, restores] at ran
  rw [Except.pure_eq_ok] at ran
  rcases decideDeleted_cases ran with
    ⟨back, rfl, rfl⟩ | ⟨pending, rfl, -, -, refused, -⟩ |
      ⟨-, rfl, entry, path, -, -, -, grown⟩
  · exact .inl ⟨rfl, back⟩
  · exact .inr ⟨rfl, pending, refused⟩
  · exact .inl ⟨rfl, by rw [grown]; simp⟩

/-- A harmless decision keeps content obstructed, and leaves an operation of the same write out. -/
theorem Obstructed.decide (step : Decided) (obstructed : Obstructed front op step.before)
    (harmless : Harmless front op step)
    (ran : Revert.decide front step.op step.before = .ok (step.leftOut, step.after)) :
    Obstructed front op step.after ∧ (SameWrite op step.op → step.leftOut = true) := by
  have still (entries : step.after.entries.find? (op.coveredBy op.takesAWholeMetarecord) =
        step.before.entries.find? (op.coveredBy op.takesAWholeMetarecord))
      (pending : op.entity ∉ step.after.restored) : Obstructed front op step.after := by
    refine ⟨pending, ?_⟩
    intro entry found
    rw [entries] at found
    exact harmless.stays_refused entry (List.mem_of_find?_eq_some found)
      (covers_of_coveredBy (List.find?_some found)) (obstructed.refused entry found)
  have unchanged (same : step.after = step.before) : Obstructed front op step.after := by
    rw [same] at still ⊢
    exact still rfl obstructed.pending
  rw [Revert.decide] at ran
  split at ran
  · next source target action =>
      obtain ⟨entries, restored⟩ := decideMove_spec ran
      refine ⟨still (by rw [entries]) (by rw [restored]; exact obstructed.pending), ?_⟩
      intro same
      cases same.restores_too.symm.trans action
  · next action =>
      rw [Except.pure_eq_ok] at ran
      rcases decideDeleted_cases ran with
        ⟨back, -, same⟩ | ⟨-, out, entries, restored, -, -⟩ |
          ⟨pending, -, entry, path, found, accepted, entries, restored⟩
      · refine ⟨unchanged same, ?_⟩
        intro write
        exact absurd (write.entity_eq ▸ back) obstructed.pending
      · exact ⟨still (by rw [entries]) (by rw [restored]; exact obstructed.pending), fun _ => out⟩
      · have accepted : ¬Refuses front.system step.before.disk entry :=
          fun refuses => refuses path (by rw [accepted])
        have restores : step.Restores front entry := ⟨action, pending, found, accepted⟩
        have differs : ¬SameWrite op step.op := by
          intro write
          rw [harmless.one_rule write, write.coveredBy_eq] at found
          exact accepted (obstructed.refused entry found)
        have uncovered := harmless.kept differs entry restores
        refine ⟨still ?_ ?_, fun write => absurd write differs⟩
        · rw [entries]
          refine find?_eraseP found ?_
          rw [Bool.eq_false_iff]
          exact fun covered => uncovered (covers_of_coveredBy covered)
        · rw [restored, List.mem_append, List.mem_append, List.mem_singleton, List.mem_map]
          rintro ((before | ⟨node, taken, isNode⟩) | own)
          · exact obstructed.pending before
          · rw [List.mem_filter] at taken
            exact uncovered (.inr ⟨node, taken.1, taken.2, isNode⟩)
          · rw [own] at uncovered
            exact uncovered (covers_of_coveredBy (List.find?_some found))
  · next other =>
      rw [Except.pure_eq_ok, Prod.mk.injEq] at ran
      refine ⟨unchanged ran.2.symm, ?_⟩
      intro write
      exact absurd write.restores_too other

/-! ### Runs -/

variable {operations : List PlanOp} {decided : List Decided}

theorem decideAll_cons_eq_ok {op : PlanOp} :
    decideAll front (op :: operations) progress = .ok decided ↔
      (op.id = none ∧ decideAll front operations progress = .ok decided) ∨
      ∃ id leftOut after later, op.id = some id ∧
        decide front op progress = .ok (leftOut, after) ∧
        decideAll front operations after = .ok later ∧
        decided = ⟨op, id, progress, leftOut, after⟩ :: later := by
  rw [decideAll]
  cases named : op.id with
  | none => simp
  | some id =>
      simp only [Except.bind_eq_ok, Except.pure_eq_ok, Prod.exists, reduceCtorEq, false_and,
        Option.some.injEq, false_or]
      constructor
      · rintro ⟨leftOut, after, ran, later, rest, rfl⟩
        exact ⟨id, leftOut, after, later, rfl, ran, rest, rfl⟩
      · rintro ⟨_, leftOut, after, later, rfl, ran, rest, rfl⟩
        exact ⟨leftOut, after, ran, later, rest, rfl⟩

/-- As long as what comes is harmless, content that is obstructed is left out. -/
theorem Obstructed.decideAll {op : PlanOp} (obstructed : Obstructed front op progress)
    (ran : decideAll front operations progress = .ok decided)
    (harmless : ∀ step ∈ decided, op.entity ∉ step.before.restored → Harmless front op step) :
    ∀ step ∈ decided, SameWrite op step.op → step.leftOut = true := by
  induction operations generalizing progress decided with
  | nil =>
      cases ran
      simp
  | cons first rest ih =>
      rcases decideAll_cons_eq_ok.mp ran with
        ⟨-, further⟩ | ⟨id, leftOut, after, later, -, here, further, rfl⟩
      · exact ih obstructed further harmless
      · have step := Obstructed.decide ⟨first, id, progress, leftOut, after⟩ obstructed
          (harmless _ List.mem_cons_self obstructed.pending) here
        intro one listed
        cases List.mem_cons.mp listed with
        | inl isFirst =>
            subst isFirst
            exact step.2
        | inr isLater =>
            exact ih step.1 further (fun other held => harmless other (List.mem_cons_of_mem _ held))
              one isLater

/-- Content that is back lets every operation on it be applied. -/
theorem applied_of_restored {uuid : String} (back : uuid ∈ progress.restored)
    (ran : decideAll front operations progress = .ok decided) :
    ∀ step ∈ decided, step.op.action = some .restoreContent → step.op.entity = uuid →
      step.leftOut = false := by
  induction operations generalizing progress decided with
  | nil =>
      cases ran
      simp
  | cons first rest ih =>
      rcases decideAll_cons_eq_ok.mp ran with
        ⟨-, further⟩ | ⟨id, leftOut, after, later, -, here, further, rfl⟩
      · exact ih back further
      · intro one listed restores isEntity
        cases List.mem_cons.mp listed with
        | inl isFirst =>
            subst isFirst
            rcases decide_restoreContent restores here with ⟨applied, -⟩ | ⟨-, obstructed⟩
            · exact applied
            · exact absurd (isEntity ▸ back) obstructed.pending
        | inr isLater => exact ih (restored_subset here back) further one isLater restores isEntity

/-- Of two operations of one write, the second is decided as the first. -/
theorem pairwise_decideAll (ran : decideAll front operations progress = .ok decided)
    (steady : Steady front decided) :
    decided.Pairwise fun first second =>
      SameWrite first.op second.op → first.leftOut = second.leftOut := by
  induction operations generalizing progress decided with
  | nil =>
      cases ran
      exact List.Pairwise.nil
  | cons first rest ih =>
      rcases decideAll_cons_eq_ok.mp ran with
        ⟨-, further⟩ | ⟨id, leftOut, after, later, -, here, further, rfl⟩
      · exact ih further steady
      · refine List.pairwise_cons.mpr ⟨?_, ih further ?_⟩
        · intro second listed write
          rcases decide_restoreContent write.restores here with ⟨applied, back⟩ | ⟨out, obstructed⟩
          · rw [applied, applied_of_restored back further second listed write.restores_too
              write.entity_eq.symm]
          · have harmless := @steady [] _ _ rfl write.restores write.labelled
            have still := Obstructed.decide ⟨first, id, progress, leftOut, after⟩
              obstructed (harmless _ List.mem_cons_self obstructed.pending) here
            rw [out, still.1.decideAll further
              (fun step held => harmless step (List.mem_cons_of_mem _ held)) second listed write]
        · intro earlier one later split
          exact @steady (_ :: earlier) _ _ (by rw [split]; rfl)

/-- What one decision brings back is the content of one entry, put at its path. -/
theorem putsBack_of_restored (step : Decided)
    (ran : decide front step.op step.before = .ok (step.leftOut, step.after)) {uuid : String}
    (back : uuid ∈ step.after.restored) :
    uuid ∈ step.before.restored ∨ ∃ entry, step.PutsBack front entry ∧ Covers entry uuid := by
  rw [decide] at ran
  split at ran
  · rw [(decideMove_spec ran).2] at back
    exact .inl back
  · rw [Except.pure_eq_ok] at ran
    rcases decideDeleted_cases ran with ⟨-, -, same⟩ | ⟨-, -, -, same, -⟩ |
      ⟨-, -, entry, path, found, accepted, -, grown⟩
    · rw [same] at back
      exact .inl back
    · rw [same] at back
      exact .inl back
    · rw [grown, List.mem_append, List.mem_append, List.mem_singleton, List.mem_map] at back
      obtain ⟨node, stands, free⟩ := nodeAt_of_restore accepted
      have put : step.PutsBack front entry := ⟨path, node, accepted, stands, free⟩
      rcases back with (before | ⟨node, taken, isNode⟩) | own
      · exact .inl before
      · rw [List.mem_filter] at taken
        exact .inr ⟨entry, put, .inr ⟨node, taken.1, taken.2, isNode⟩⟩
      · rw [own]
        exact .inr ⟨entry, put, covers_of_coveredBy (List.find?_some found)⟩
  · rw [Except.pure_eq_ok, Prod.mk.injEq] at ran
    rw [← ran.2] at back
    exact .inl back

/-- Content that operations are applied on was put back. -/
theorem broughtBack_of_applied (ran : decideAll front operations progress = .ok decided) :
    ∀ one ∈ decided, one.op.action = some .restoreContent → one.leftOut = false →
      one.op.entity ∈ progress.restored ∨ BroughtBack front decided one := by
  induction operations generalizing progress decided with
  | nil =>
      cases ran
      simp
  | cons first rest ih =>
      rcases decideAll_cons_eq_ok.mp ran with
        ⟨-, further⟩ | ⟨id, leftOut, after, later, -, here, further, rfl⟩
      · exact ih further
      · intro one listed restores applied
        have atFirst (back : one.op.entity ∈ after.restored) :
            one.op.entity ∈ progress.restored ∨
              BroughtBack front (⟨first, id, progress, leftOut, after⟩ :: later) one := by
          rcases putsBack_of_restored ⟨first, id, progress, leftOut, after⟩ here back with
            before | ⟨entry, put, covers⟩
          · exact .inl before
          · exact .inr ⟨[], _, later, entry, rfl, listed, put, covers⟩
        cases List.mem_cons.mp listed with
        | inl isFirst =>
            subst isFirst
            rcases decide_restoreContent restores here with ⟨-, back⟩ | ⟨out, -⟩
            · exact atFirst back
            · cases out.symm.trans applied
        | inr isLater =>
            cases ih further one isLater restores applied with
            | inl back => exact atFirst back
            | inr brought =>
                obtain ⟨earlier, step, last, entry, split, isLast, put⟩ := brought
                exact .inr ⟨_ :: earlier, step, last, entry, by rw [split]; rfl, isLast, put⟩

/-- Everything goes through, and what would be overwritten stays. -/
def plainSystem : System where
  clobber := ⟨fun _ _ => none, fun entries _ => (false, entries)⟩
  acrossDevices _ := false
  renames _ _ := true
  newId disk := String.join (disk.index.map TrashEntry.id) ++ "+"

/-- Moves are made. -/
def plainFront : Front where
  system := plainSystem
  policies := ⟨.apply, .apply⟩
  askMove _ _ := .ok .apply

/-- A disk with one file, and the trash with another of the same path. -/
def sampleDisk (file : TreeName) : Disk where
  root := .leaf file (.file [1]) .nil
  blobs id := if id = "e" then some (.leaf (.file [2])) else none
  index := [⟨"e", [.ofString "a"], some "r", some 5, []⟩]

/-- An operation that brings back the content of a metarecord, of one write. -/
def sampleRestore (id : Int64) : PlanOp where
  id := some id
  opType := "file_deleted"
  entityUuid := some "r"
  action := some .restoreContent
  versionBeforeLabel := some 5

/-- One that moves the file at its path away. -/
def sampleMove : PlanOp where
  id := some 2
  opType := "file_moved"
  entityUuid := some "s"
  action := some (.move (some [.ofString "a"]) (some [.ofString "b"]))

/-- Two operations of one write, the place of their content free. -/
theorem sampleRestore_run : (decideAll plainFront [sampleRestore 3, sampleRestore 1]
    ⟨sampleDisk (.ofString "c"), (sampleDisk (.ofString "c")).index, []⟩).map
      (fun decided => decided.map fun one => (one.leftOut, one.before.restored)) =
    .ok [(false, []), (false, ["r"])] := by
  decide +kernel

end Metafolder.Revert
