import Metafolder.Outcome
import Metafolder.Trash

/-!
# What a restore leaves

The test for a conflict and the merge meet the same entries: a restore that may overwrite something
moves nothing, and any other leaves what stood at the target as it was, with every entry of the blob
beside it.
-/

namespace Metafolder.Trash

/-! ### What stands at a path -/

/-- What an entry is, the entries below it apart. -/
inductive Kind
  | leaf (leaf : Leaf)
  | directory
deriving DecidableEq

/-- What stands at a path below a node. -/
def Node.kindAt : Node → List TreeName → Option Kind
  | .leaf content, [] => some (.leaf content)
  | .dir _, [] => some .directory
  | .leaf _, _ :: _ => none
  | .dir entries, name :: path =>
      match entries.lookup name with
      | none => none
      | some node => node.kindAt path

/-- Every entry of a directory has a name of its own, at any depth. -/
def Entries.Distinct : Entries → Prop
  | .nil => True
  | .leaf name _ rest => rest.lookup name = none ∧ rest.Distinct
  | .dir name below rest => rest.lookup name = none ∧ below.Distinct ∧ rest.Distinct

/-- Every entry has a name of its own in its directory. -/
def Node.Distinct : Node → Prop
  | .leaf _ => True
  | .dir entries => entries.Distinct

/-- Where a node and another both have an entry, both are directories. -/
def Node.Fits (source occupant : Node) : Prop :=
  ∀ path kind other, source.kindAt path = some kind → occupant.kindAt path = some other →
    kind = .directory ∧ other = .directory

/-- A node holds what another does, with the entries of a third beside it. -/
def Node.Overlays (result occupant source : Node) : Prop :=
  ∀ path, result.kindAt path = (occupant.kindAt path).or (source.kindAt path)

namespace Entries

variable {name other : TreeName} {node : Node} {rest entries : Entries}

theorem lookup_add :
    (add name node rest).lookup other = if name = other then some node else rest.lookup other := by
  cases node <;> rfl

theorem lookup_put :
    (entries.put name node).lookup other =
      if name = other then some node else entries.lookup other := by
  induction entries with
  | nil => exact lookup_add
  | leaf held content rest ih =>
      rw [put]
      split
      · next same =>
          subst same
          rw [lookup_add, lookup]
          split <;> rfl
      · next differs =>
          rw [lookup, lookup, ih]
          split
          · next here => rw [if_neg (here ▸ Ne.symm differs)]
          · rfl
  | dir held below rest _ ih =>
      rw [put]
      split
      · next same =>
          subst same
          rw [lookup_add, lookup]
          split <;> rfl
      · next differs =>
          rw [lookup, lookup, ih]
          split
          · next here => rw [if_neg (here ▸ Ne.symm differs)]
          · rfl

end Entries

namespace Node

variable {source occupant node moved : Node} {src dst rest into : Entries} {name : TreeName}

theorem kindAt_dir_cons (path : List TreeName) :
    (dir src).kindAt (name :: path) = (src.lookup name).bind fun node => node.kindAt path := by
  rw [kindAt]
  cases src.lookup name <;> rfl

theorem not_fits_leaf {content : Leaf} : ¬(leaf content).Fits occupant := by
  intro fits
  cases occupant with
  | leaf other => cases (fits [] _ _ rfl rfl).1
  | dir entries => cases (fits [] _ _ rfl rfl).1

theorem not_fits_of_leaf {content : Leaf} : ¬source.Fits (leaf content) := by
  intro fits
  cases source with
  | leaf other => cases (fits [] _ _ rfl rfl).1
  | dir entries => cases (fits [] _ _ rfl rfl).2

/-- Two directories fit when their entries of one name do. -/
theorem fits_dir_iff :
    (dir src).Fits (dir dst) ↔ ∀ name node occupant, src.lookup name = some node →
      dst.lookup name = some occupant → node.Fits occupant := by
  constructor
  · intro fits name node occupant isSource isOccupant path kind other here there
    refine fits (name :: path) kind other ?_ ?_
    · rw [kindAt_dir_cons, isSource]
      exact here
    · rw [kindAt_dir_cons, isOccupant]
      exact there
  · intro each path kind other here there
    cases path with
    | nil => exact ⟨(Option.some.inj here).symm, (Option.some.inj there).symm⟩
    | cons name path =>
        rw [kindAt_dir_cons, Option.bind_eq_some_iff] at here there
        obtain ⟨node, isSource, here⟩ := here
        obtain ⟨occupant, isOccupant, there⟩ := there
        exact each name node occupant isSource isOccupant path kind other here there

/-- The entries after the first fit what stands already. -/
theorem Fits.tail (fits : (dir (Entries.add name node rest)).Fits (dir dst))
    (absent : rest.lookup name = none) : (dir rest).Fits (dir dst) := by
  rw [fits_dir_iff] at fits ⊢
  intro other source occupant isSource isOccupant
  have differs : name ≠ other := by
    rintro rfl
    rw [absent] at isSource
    cases isSource
  refine fits other source occupant ?_ isOccupant
  rw [Entries.lookup_add, if_neg differs, isSource]

/-- Entries fit what stands once another of another name is put there. -/
theorem Fits.put (fits : (dir rest).Fits (dir dst)) (absent : rest.lookup name = none)
    (moved : Node) : (dir rest).Fits (dir (dst.put name moved)) := by
  rw [fits_dir_iff] at fits ⊢
  intro other source occupant isSource isOccupant
  have differs : name ≠ other := by
    rintro rfl
    rw [absent] at isSource
    cases isSource
  rw [Entries.lookup_put, if_neg differs] at isOccupant
  exact fits other source occupant isSource isOccupant

theorem Fits.first (fits : (dir (Entries.add name node rest)).Fits (dir dst))
    (isOccupant : dst.lookup name = some occupant) : node.Fits occupant := by
  refine fits_dir_iff.mp fits name node occupant ?_ isOccupant
  rw [Entries.lookup_add, if_pos rfl]

/-- Entries fit what stands when the first does and the others do. -/
theorem fits_add
    (first : ∀ occupant, dst.lookup name = some occupant → node.Fits occupant)
    (others : (dir rest).Fits (.dir dst)) :
    (dir (Entries.add name node rest)).Fits (.dir dst) := by
  rw [fits_dir_iff] at others ⊢
  intro other source occupant isSource isOccupant
  rw [Entries.lookup_add] at isSource
  split at isSource
  · next same =>
      subst same
      obtain rfl := Option.some.inj isSource
      exact first occupant isOccupant
  · exact others other source occupant isSource isOccupant

/-- The first entry moved, and then the rest, is the directory moved. -/
theorem Overlays.add (overlays : (dir into).Overlays (dir (dst.put name moved)) (dir rest))
    (absent : rest.lookup name = none)
    (here : ∀ path, moved.kindAt path =
      ((dst.lookup name).bind fun occupant => occupant.kindAt path).or (node.kindAt path)) :
    (dir into).Overlays (dir dst) (dir (Entries.add name node rest)) := by
  intro path
  rw [overlays path]
  cases path with
  | nil => rfl
  | cons other path =>
      simp only [kindAt_dir_cons, Entries.lookup_put, Entries.lookup_add]
      split
      · next same =>
          subst same
          simp only [absent, Option.bind_some, Option.bind_none, Option.or_none]
          exact here path
      · rfl

end Node

/-! ### The test and the merge -/

theorem copyTree_eq (entries : Entries) : copyTree entries = entries := by
  induction entries with
  | nil => rfl
  | leaf name content rest ih => rw [copyTree, ih]
  | dir name below rest ihBelow ihRest => rw [copyTree, ihBelow, ihRest]

/-- A move to a free place brings what was moved, across devices or not. -/
theorem movePath_free (clobber : Clobber) (acrossDevices : Bool) (source : Node) :
    movePath clobber acrossDevices source none = some source := by
  cases source with
  | leaf content => cases acrossDevices <;> rfl
  | dir entries =>
      rw [movePath, copyEntry, copyTree_eq, ite_self]

/-- The test passes exactly when no entry would overwrite another. -/
theorem detectMergeConflict_eq_ok_iff {src : Entries} (distinct : src.Distinct)
    (path : List TreeName) (dst : Entries) :
    detectMergeConflict path src dst = .ok () ↔ (Node.dir src).Fits (.dir dst) := by
  induction src generalizing path dst with
  | nil =>
      rw [detectMergeConflict, Node.fits_dir_iff]
      exact iff_of_true rfl fun _ _ _ isSource _ => by cases isSource
  | leaf name content rest ih =>
      obtain ⟨absent, others⟩ := distinct
      change _ ↔ (Node.dir (Entries.add name (.leaf content) rest)).Fits (.dir dst)
      rw [detectMergeConflict]
      cases isOccupant : dst.lookup name with
      | none =>
          rw [ih others]
          constructor
          · exact Node.fits_add (by simp [isOccupant])
          · exact fun fits => fits.tail absent
      | some occupant =>
          refine iff_of_false (by simp) fun fits => ?_
          exact Node.not_fits_leaf (fits.first isOccupant)
  | dir name below rest ihBelow ihRest =>
      obtain ⟨absent, inside, others⟩ := distinct
      change _ ↔ (Node.dir (Entries.add name (.dir below) rest)).Fits (.dir dst)
      rw [detectMergeConflict]
      cases isOccupant : dst.lookup name with
      | none =>
          rw [ihRest others]
          constructor
          · exact Node.fits_add (by simp [isOccupant])
          · exact fun fits => fits.tail absent
      | some occupant =>
          cases occupant with
          | leaf there =>
              refine iff_of_false (by simp) fun fits => ?_
              exact Node.not_fits_of_leaf (fits.first isOccupant)
          | dir shared =>
              simp only [Except.bind_eq_ok]
              rw [ihRest others]
              constructor
              · rintro ⟨_, passed, rest⟩
                refine Node.fits_add ?_ rest
                intro occupant here
                obtain rfl := Option.some.inj (isOccupant.symm.trans here)
                exact (ihBelow inside _ shared).mp passed
              · intro fits
                have passed := (ihBelow inside (path ++ [name]) shared).mpr
                  (fits.first isOccupant)
                exact ⟨(), passed, fits.tail absent⟩

/-- A merge of what fits goes through, leaves nothing behind and overwrites nothing. -/
theorem mergeMove_spec (clobber : Clobber) (acrossDevices : Bool) {src : Entries}
    (distinct : src.Distinct) {dst : Entries} (fits : (Node.dir src).Fits (.dir dst)) :
    (mergeMove clobber acrossDevices src dst).done = true ∧
      (mergeMove clobber acrossDevices src dst).left = .nil ∧
      (Node.dir (mergeMove clobber acrossDevices src dst).into).Overlays (.dir dst) (.dir src) := by
  induction src generalizing dst with
  | nil =>
      refine ⟨rfl, rfl, fun path => ?_⟩
      cases path with
      | nil => rfl
      | cons name path => simp [mergeMove, Node.kindAt_dir_cons, Entries.lookup]
  | leaf name content rest ih =>
      obtain ⟨absent, others⟩ := distinct
      change (Node.dir (Entries.add name (.leaf content) rest)).Fits (.dir dst) at fits
      change _ ∧ _ ∧ Node.Overlays _ _ (.dir (Entries.add name (.leaf content) rest))
      cases isOccupant : dst.lookup name with
      | some occupant => exact absurd (fits.first isOccupant) Node.not_fits_leaf
      | none =>
          rw [mergeMove, isOccupant, movePath_free]
          obtain ⟨done, left, overlays⟩ := ih others
            ((fits.tail absent).put absent (.leaf content))
          exact ⟨done, left, overlays.add absent fun path => by simp [isOccupant]⟩
  | dir name below rest ihBelow ihRest =>
      obtain ⟨absent, inside, others⟩ := distinct
      change (Node.dir (Entries.add name (.dir below) rest)).Fits (.dir dst) at fits
      change _ ∧ _ ∧ Node.Overlays _ _ (.dir (Entries.add name (.dir below) rest))
      cases isOccupant : dst.lookup name with
      | none =>
          rw [mergeMove, isOccupant, movePath_free]
          obtain ⟨done, left, overlays⟩ := ihRest others
            ((fits.tail absent).put absent (.dir below))
          exact ⟨done, left, overlays.add absent fun path => by simp [isOccupant]⟩
      | some occupant =>
          have here := fits.first isOccupant
          cases occupant with
          | leaf there => exact absurd here Node.not_fits_of_leaf
          | dir shared =>
              obtain ⟨innerDone, innerLeft, inner⟩ := ihBelow inside here
              let merged := (mergeMove clobber acrossDevices below shared).into
              obtain ⟨done, left, overlays⟩ := ihRest others
                ((fits.tail absent).put absent (.dir merged))
              rw [mergeMove, isOccupant]
              simp only [innerDone, innerLeft, if_true]
              exact ⟨done, left, overlays.add absent
                fun path => by simpa [isOccupant] using inner path⟩

/-! ### The restore -/

/-- What stands at a path below a place that may be free. -/
def kindAt (place : Option Node) (path : List TreeName) : Option Kind :=
  place.bind fun node => node.kindAt path

/-- Some entry of a blob that is not a directory on both sides meets an entry at the target. -/
def Blocked (blob : Node) (target : Option Node) : Prop :=
  ∃ path kind occupant, blob.kindAt path = some kind ∧ kindAt target path = some occupant ∧
    ¬(kind = .directory ∧ occupant = .directory)

theorem not_blocked_iff {blob : Node} {target : Option Node} :
    ¬Blocked blob target ↔ ∀ occupant, target = some occupant → blob.Fits occupant := by
  unfold Blocked kindAt
  constructor
  · rintro free occupant rfl path kind other here there
    by_contra meets
    exact free ⟨path, kind, other, here, there, meets⟩
  · rintro fits ⟨path, kind, other, here, there, meets⟩
    obtain ⟨occupant, isTarget, there⟩ := Option.bind_eq_some_iff.mp there
    exact meets (fits occupant isTarget path kind other here there)

/-- What a restore has to do, of a blob that nothing blocks. -/
theorem planRestore_free {blob : Node} (distinct : blob.Distinct) {target : Option Node}
    (free : ¬Blocked blob target) :
    (target = none ∧ planRestore (some blob) target = .ok .fresh) ∨
      ∃ src dst, blob = .dir src ∧ target = some (.dir dst) ∧
        planRestore (some blob) target = .ok .merge := by
  rw [not_blocked_iff] at free
  cases target with
  | none => exact Or.inl ⟨rfl, rfl⟩
  | some occupant =>
      have fits := free occupant rfl
      cases blob with
      | leaf content => exact absurd fits Node.not_fits_leaf
      | dir src =>
          cases occupant with
          | leaf there => exact absurd fits Node.not_fits_of_leaf
          | dir dst =>
              have passed := (detectMergeConflict_eq_ok_iff distinct [] dst).mpr fits
              exact Or.inr ⟨src, dst, rfl, rfl, by rw [planRestore, passed]; rfl⟩

/-- A blocked restore is not planned. -/
theorem planRestore_blocked {blob : Node} (distinct : blob.Distinct) {target : Option Node}
    (blocked : Blocked blob target) :
    ∃ refusal, planRestore (some blob) target = .error refusal := by
  cases planned : planRestore (some blob) target with
  | error refusal => exact ⟨refusal, rfl⟩
  | ok action =>
      refine absurd blocked (not_blocked_iff.mpr ?_)
      rintro occupant rfl
      cases blob with
      | leaf content => cases planned
      | dir src =>
          cases occupant with
          | leaf there => cases planned
          | dir dst =>
              rw [planRestore, Except.bind_eq_ok] at planned
              obtain ⟨_, passed, -⟩ := planned
              exact (detectMergeConflict_eq_ok_iff distinct [] dst).mp passed

/-- A restore refuses and moves nothing where an entry of the blob that is not a directory on both
sides meets an entry at the target; and otherwise, where the directories above the target can be
made, it leaves every entry of the blob at its path under the target, every entry that was there as
it was, nothing more, and nothing in the blob. -/
theorem restore_all_or_nothing (clobber : Clobber) (acrossDevices : Bool) {bin : Bin} {blob : Node}
    (holds : bin.blob = some blob) (distinct : blob.Distinct) :
    (Blocked blob bin.target →
      ∃ refusal, restore clobber acrossDevices bin = (.error refusal, bin)) ∧
      (¬Blocked blob bin.target → bin.room = true →
        ∃ restored, restore clobber acrossDevices bin = (.ok (),
          { bin with blob := none, target := some restored, listed := false }) ∧
          (∀ path kind, blob.kindAt path = some kind → restored.kindAt path = some kind) ∧
          (∀ path kind, kindAt bin.target path = some kind →
            restored.kindAt path = some kind) ∧
          ∀ path kind, restored.kindAt path = some kind →
            blob.kindAt path = some kind ∨ kindAt bin.target path = some kind) := by
  constructor
  · intro blocked
    obtain ⟨refusal, refused⟩ := planRestore_blocked distinct blocked
    exact ⟨refusal, by rw [restore, holds, refused]⟩
  · intro free room
    rcases planRestore_free distinct free with ⟨isFree, planned⟩ | ⟨src, dst, rfl, isDir, planned⟩
    · refine ⟨blob, ?_, fun _ _ here => here, ?_, fun _ _ here => Or.inl here⟩
      · rw [restore, holds, planned]
        simp [room, movePath_free]
      · simp [kindAt, isFree]
    · have fits : (Node.dir src).Fits (.dir dst) := not_blocked_iff.mp free _ isDir
      obtain ⟨done, left, overlays⟩ := mergeMove_spec clobber acrossDevices distinct fits
      refine ⟨.dir (mergeMove clobber acrossDevices src dst).into, ?_, ?_, ?_, ?_⟩
      · rw [restore, holds, planned, isDir]
        simp only [done, left, if_true]
      · intro path kind here
        rw [overlays path]
        cases there : (Node.dir dst).kindAt path with
        | none => exact here
        | some occupant =>
            obtain ⟨rfl, rfl⟩ := fits path kind occupant here there
            rfl
      · intro path kind there
        rw [isDir] at there
        rw [overlays path, show (Node.dir dst).kindAt path = some kind from there]
        rfl
      · intro path kind here
        rw [overlays path, Option.or_eq_some_iff] at here
        rw [isDir]
        rcases here with there | ⟨-, here⟩
        · exact Or.inr there
        · exact Or.inl here

/-- What a rename does: a file or a link is replaced, and an empty directory by a directory. -/
def renames : Clobber where
  onto source occupant :=
    match source, occupant with
    | .leaf content, .leaf _ => some (.leaf content)
    | .dir entries, .dir .nil => some (.dir entries)
    | _, _ => none
  below below _ := (below = .nil, below)

/-- A trashed directory, part of which stands again where it was. -/
def sampleBin : Bin where
  blob := some (.dir (.dir (.ofString "d") (.leaf (.ofString "x") (.file [1]) .nil)
    (.leaf (.ofString "f") (.symlink [2]) .nil)))
  target := some (.dir (.dir (.ofString "d") (.leaf (.ofString "y") (.file [3]) .nil) .nil))

theorem restore_all_or_nothing_sample :
    ∃ restored, restore renames true sampleBin = (.ok (),
      { sampleBin with blob := none, target := some restored, listed := false }) ∧
      restored.kindAt [.ofString "d", .ofString "x"] = some (.leaf (.file [1])) ∧
      restored.kindAt [.ofString "d", .ofString "y"] = some (.leaf (.file [3])) := by
  have distinct : Node.Distinct (.dir (.dir (.ofString "d") (.leaf (.ofString "x") (.file [1]) .nil)
      (.leaf (.ofString "f") (.symlink [2]) .nil))) := by
    simp only [Node.Distinct, Entries.Distinct, Entries.lookup]
    decide
  have fits := (detectMergeConflict_eq_ok_iff distinct []
    (.dir (.ofString "d") (.leaf (.ofString "y") (.file [3]) .nil) .nil)).mp (by decide)
  obtain ⟨restored, done, ofBlob, ofTarget, -⟩ :=
    (@restore_all_or_nothing renames true sampleBin _ rfl distinct).2
      (not_blocked_iff.mpr fun occupant isTarget => Option.some.inj isTarget ▸ fits) rfl
  exact ⟨restored, done, ofBlob _ _ (by decide), ofTarget _ _ (by decide)⟩

end Metafolder.Trash
