import Metafolder.Index
import Metafolder.History

/-!
# The tables of the log agree

Seven tables index the operations by what they are about, and two the labels by where they are
nested and by the command that opened them.  Each write to the log, and each removal, keeps all of
them in step; a label that is left empty by a removal goes with it, and its parent after it.
-/

namespace Metafolder

namespace Log

/-! ### What the tables hold -/

/-- Whether the log holds an operation. -/
def Live (log : Log) (row : OpRow) : Prop := log.op row.id = some row

/-- A label, with its id and the key of the command that opened it. -/
structure LabelRow where
  /-- Its id. -/
  id : Int64
  /-- What it says. -/
  held : LabelMeta
  /-- The key of the command. -/
  command : Option Uuid
deriving DecidableEq

/-- Whether the log holds a label. -/
def HasLabel (log : Log) (row : LabelRow) : Prop :=
  log.labels.get (be row.id) = some (row.held, row.command)

/-- The keys of the two sides of an operation. -/
def snapKeys (row : OpRow) : List Bytes := [snapKey row.id false, snapKey row.id true]

/-- The key of an operation among those of its label. -/
def labelOpKeys (row : OpRow) : List Bytes := [be row.labelId ++ be row.id]

/-- The key of an operation among those of its metarecord. -/
def entityOpKeys (row : OpRow) : List Bytes := [row.entityUuid.bytes ++ be row.id]

/-- The key of a revert among those of the operation it undoes. -/
def revertKeys (row : OpRow) : List Bytes :=
  (row.revertsOpId.map fun target => be target ++ be row.id).toList

/-- The key of an operation of the watcher. -/
def watcherKeys (row : OpRow) : List Bytes :=
  if row.origin = some originWatcher then [be row.id] else []

/-- The key of an operation of any other origin. -/
def userKeys (row : OpRow) : List Bytes :=
  if row.origin = some originWatcher then [] else [be row.id]

/-- The key of a label among those nested in its parent. -/
def nestKeys (row : LabelRow) : List Bytes :=
  (row.held.parent.map fun parent => be parent ++ be row.id).toList

/-- The tables describe the same operations, all below a bound, and the same labels. -/
structure Tabled (log : Log) (bound : Int64) : Prop where
  /-- An operation is under its id. -/
  op_keyed : ∀ {key row}, log.ops.get key = some row →
    key = be row.id ∧ 0 < row.id ∧ row.id < bound
  /-- The snapshots are those of the operations. -/
  snaps : log.snaps.Indexes log.Live snapKeys
  /-- The labels list the operations. -/
  byLabel : log.opsByLabel.Indexes log.Live labelOpKeys
  /-- The metarecords list the operations. -/
  byEntity : log.opsByEntity.Indexes log.Live entityOpKeys
  /-- The operations undone list the operations that undo them. -/
  reverted : log.revertedBy.Indexes log.Live revertKeys
  /-- The watcher's operations are listed. -/
  watcher : log.watcherOps.Indexes log.Live watcherKeys
  /-- So are the others. -/
  user : log.userOps.Indexes log.Live userKeys
  /-- The label of an operation exists. -/
  op_label : ∀ {row}, log.Live row → (log.label row.labelId).isSome
  /-- A label is under its id. -/
  label_keyed : ∀ {key held}, log.labels.get key = some held →
    ∃ id, key = be id ∧ id < log.nextLabel
  /-- The parent of a label exists, and is older. -/
  parent_exists : ∀ {row parent}, log.HasLabel row → row.held.parent = some parent →
    parent < row.id ∧ (log.label parent).isSome
  /-- The labels list those nested in them. -/
  kids : log.labelKids.Indexes log.HasLabel nestKeys
  /-- The commands name the labels they opened. -/
  command_iff : ∀ {key id}, log.labelKeys.get key = some id ↔ ∃ row command, log.HasLabel row ∧
    row.id = id ∧ row.command = some command ∧ key = command.bytes

/-- The tables of the log agree. -/
def Agrees (log : Log) : Prop := 0 < log.nextOp ∧ log.Tabled log.nextOp

variable {log after : Log} {bound : Int64}

theorem agrees_empty : ({} : Log).Agrees := by
  have no_op : ∀ row, ¬({} : Log).Live row := by
    intro row live
    simp [Live, op] at live
  have no_label : ∀ row, ¬({} : Log).HasLabel row := by
    intro row held
    simp [HasLabel] at held
  refine ⟨by decide, ⟨?_, Table.indexes_empty _ no_op, Table.indexes_empty _ no_op,
    Table.indexes_empty _ no_op, Table.indexes_empty _ no_op, Table.indexes_empty _ no_op,
    Table.indexes_empty _ no_op, fun live => absurd live (no_op _), ?_,
    fun held => absurd held (no_label _), Table.indexes_empty _ no_label, ?_⟩⟩
  · intro key row found
    simp at found
  · intro key held found
    simp at found
  · intro key id
    simp [no_label]

/-- The tables are what counts. -/
theorem Tabled.of_tables (tabled : log.Tabled bound) (same : after = { log with
    head := after.head, watcherLabel := after.watcherLabel, nextOp := after.nextOp }) :
    after.Tabled bound := by
  rw [same]
  exact ⟨tabled.op_keyed, tabled.snaps, tabled.byLabel, tabled.byEntity, tabled.reverted,
    tabled.watcher, tabled.user, tabled.op_label, tabled.label_keyed, tabled.parent_exists,
    tabled.kids, tabled.command_iff⟩

theorem Tabled.id_eq (tabled : log.Tabled bound) {id : Int64} {row : OpRow}
    (found : log.op id = some row) : row.id = id :=
  (be_inj.mp (tabled.op_keyed found).1).symm

theorem Tabled.live (tabled : log.Tabled bound) {id : Int64} {row : OpRow}
    (found : log.op id = some row) : log.Live row := by
  rw [Live, tabled.id_eq found]
  exact found

theorem label_isSome {id : Int64} :
    (log.label id).isSome ↔ ∃ row, log.HasLabel row ∧ row.id = id := by
  rw [label, Option.isSome_map]
  constructor
  · intro there
    obtain ⟨⟨held, command⟩, found⟩ := Option.isSome_iff_exists.mp there
    exact ⟨⟨id, held, command⟩, found, rfl⟩
  · rintro ⟨row, found, rfl⟩
    exact Option.isSome_of_mem found

/-- A label with an id is one. -/
theorem HasLabel.unique {first second : LabelRow} (one : log.HasLabel first)
    (two : log.HasLabel second) (ids : first.id = second.id) : first = second := by
  obtain ⟨id, held, command⟩ := first
  obtain ⟨_, _, _⟩ := second
  obtain rfl : id = _ := ids
  obtain ⟨rfl, rfl⟩ := Prod.mk.inj (Option.some.inj (one.symm.trans two))
  rfl

/-- A label has no operation of its own. -/
theorem Tabled.labelFirstOp_eq_none (tabled : log.Tabled bound) {label : Int64} :
    log.labelFirstOp label = none ↔ ∀ row, log.Live row → row.labelId ≠ label := by
  rw [labelFirstOp, labelOpIds, List.head?_eq_none_iff, List.map_eq_nil_iff,
    tabled.byLabel.prefixIter_eq_nil]
  refine forall_congr' fun row => forall_congr' fun _ => ?_
  simp only [labelOpKeys, List.mem_singleton, forall_eq, be_prefix_iff, ne_eq, eq_comm]

/-- No label is nested in a label. -/
theorem Tabled.labelChildren_eq_nil (tabled : log.Tabled bound) {label : Int64} :
    log.labelChildren label = [] ↔ ∀ row, log.HasLabel row → row.held.parent ≠ some label := by
  rw [labelChildren, List.map_eq_nil_iff, tabled.kids.prefixIter_eq_nil]
  refine forall_congr' fun row => forall_congr' fun _ => ?_
  simp only [nestKeys]
  cases row.held.parent with
  | none => simp
  | some parent => simp [be_prefix_iff, eq_comm]

/-! ### Operations put -/

/-- The row an operation is recorded as. -/
def rowOf (label timestamp id : Int64) (new : NewOp) : OpRow :=
  ⟨id, label, timestamp, new.opType, new.entity, new.versionBefore, new.versionAfter,
    new.fieldName, new.revertsOpId, new.origin⟩

theorem watcherOps_putOp (log : Log) (label timestamp id : Int64) (new : NewOp) (key : Bytes) :
    (((log.putOp label timestamp id new).watcherOps).get key).isSome ↔
      key ∈ watcherKeys (rowOf label timestamp id new) ∨ (log.watcherOps.get key).isSome := by
  unfold putOp putClass watcherKeys rowOf
  dsimp only
  split
  · exact Table.isSome_put _ _ _ _
  · simp

theorem userOps_putOp (log : Log) (label timestamp id : Int64) (new : NewOp) (key : Bytes) :
    (((log.putOp label timestamp id new).userOps).get key).isSome ↔
      key ∈ userKeys (rowOf label timestamp id new) ∨ (log.userOps.get key).isSome := by
  unfold putOp putClass userKeys rowOf
  dsimp only
  split
  · simp
  · exact Table.isSome_put _ _ _ _

/-- The tables an operation does not choose between by its origin. -/
theorem putOp_eq (log : Log) (label timestamp id : Int64) (new : NewOp) :
    log.putOp label timestamp id new = { log with
      ops := log.ops.put (be id) (rowOf label timestamp id new)
      snaps := (log.snaps.put (snapKey id false) (new.before.map FieldRow.stored)).put
        (snapKey id true) (new.after.map FieldRow.stored)
      opsByLabel := log.opsByLabel.put (be label ++ be id) ()
      revertedBy :=
        match new.revertsOpId with
        | some target => log.revertedBy.put (be target ++ be id) ()
        | none => log.revertedBy
      opsByEntity := log.opsByEntity.put (new.entity.bytes ++ be id) ()
      watcherOps := (log.putOp label timestamp id new).watcherOps
      userOps := (log.putOp label timestamp id new).userOps } := by
  unfold putOp putClass rowOf
  dsimp only
  split <;> rfl

/-- An operation recorded under the next id, in a label that exists. -/
theorem Tabled.putOp {id next : Int64} (tabled : log.Tabled id) (positive : 0 < id)
    (next_eq : next.toInt = id.toInt + 1) {label : Int64} (there : (log.label label).isSome)
    (timestamp : Int64) (new : NewOp) : (log.putOp label timestamp id new).Tabled next := by
  have watchers := watcherOps_putOp log label timestamp id new
  have users := userOps_putOp log label timestamp id new
  have shape := putOp_eq log label timestamp id new
  generalize log.putOp label timestamp id new = made at watchers users shape ⊢
  have id_lt : id < next := by
    rw [Int64.lt_iff_toInt_lt]
    omega
  have fresh : log.op id = none := by
    by_contra present
    obtain ⟨row, found⟩ := Option.ne_none_iff_exists'.mp present
    have below := (tabled.op_keyed found).2.2
    rw [tabled.id_eq found] at below
    exact absurd below Int64.lt_irrefl
  have ops_eq : ∀ other, made.op other =
      if id = other then some (rowOf label timestamp id new) else log.op other := by
    intro other
    rw [op, shape, Table.get_put]
    simp only [be_inj]
    rfl
  have live_iff : ∀ row, made.Live row ↔ row = rowOf label timestamp id new ∨ log.Live row := by
    intro row
    rw [Live, ops_eq]
    split
    next same =>
      rw [Option.some.injEq]
      constructor
      · rintro rfl
        exact .inl rfl
      · rintro (rfl | live)
        · rfl
        · rw [Live, ← same, fresh] at live
          contradiction
    next differ =>
      refine ⟨.inr, fun either => either.resolve_left ?_⟩
      rintro rfl
      exact differ rfl
  have labels_eq : ∀ other, made.label other = log.label other := fun other => by rw [shape]; rfl
  have has_iff : ∀ row, made.HasLabel row ↔ log.HasLabel row := fun row => by rw [shape]; rfl
  refine ⟨fun {key row} found => ?_, tabled.snaps.grow (fun key => ?_) live_iff,
    tabled.byLabel.grow (fun key => ?_) live_iff, tabled.byEntity.grow (fun key => ?_) live_iff,
    tabled.reverted.grow (fun key => ?_) live_iff, tabled.watcher.grow watchers live_iff,
    tabled.user.grow users live_iff, fun {row} live => ?_, fun found => ?_,
    fun {row parent} held nested => ?_, ?_, ?_⟩
  · rw [shape, Table.get_put] at found
    split at found
    next same =>
      obtain rfl := Option.some.inj found
      exact ⟨same.symm, positive, id_lt⟩
    next =>
      obtain ⟨keyed, above, below⟩ := tabled.op_keyed found
      exact ⟨keyed, above, Int64.lt_trans below id_lt⟩
  · rw [shape]
    dsimp only
    rw [Table.isSome_put, Table.isSome_put, ← or_assoc]
    simp [snapKeys, rowOf, or_comm]
  · rw [shape]
    exact Table.isSome_put _ _ _ _
  · rw [shape]
    exact Table.isSome_put _ _ _ _
  · rw [shape]
    dsimp only [revertKeys, rowOf]
    cases new.revertsOpId with
    | none => simp
    | some target => exact Table.isSome_put _ _ _ _
  · rw [labels_eq]
    rcases (live_iff row).mp live with rfl | live
    · exact there
    · exact tabled.op_label live
  · rw [shape] at found ⊢
    exact tabled.label_keyed found
  · rw [labels_eq]
    exact tabled.parent_exists ((has_iff row).mp held) nested
  · have kids_eq : made.labelKids = log.labelKids := by rw [shape]
    rw [kids_eq]
    exact tabled.kids.congr has_iff
  · intro key command
    have keys_eq : made.labelKeys = log.labelKeys := by rw [shape]
    rw [keys_eq, tabled.command_iff]
    simp only [has_iff]

theorem labels_putOp (log : Log) (label timestamp id : Int64) (new : NewOp) :
    (log.putOp label timestamp id new).labels = log.labels := by
  rw [putOp_eq]

theorem Tabled.putOps {base last : Int64} (tabled : log.Tabled base) (positive : 0 < base)
    {label timestamp : Int64} (there : (log.label label).isSome) {ops : List NewOp}
    (ran : log.putOps label timestamp base ops = .ok (last, after)) :
    0 < last ∧ after.Tabled last := by
  induction ops generalizing log base with
  | nil =>
      simp only [Log.putOps, Except.pure_eq_ok, Prod.mk.injEq] at ran
      obtain ⟨rfl, rfl⟩ := ran
      exact ⟨positive, tabled⟩
  | cons new rest ih =>
      obtain ⟨next, added, others⟩ := Except.bind_eq_ok.mp ran
      have next_eq := toInt_addInt64 added
      refine ih (tabled.putOp positive next_eq there timestamp new) ?_ ?_ others
      · rw [Int64.lt_iff_toInt_lt] at positive ⊢
        rw [next_eq]
        change (0 : Int) < _ at positive
        change (0 : Int) < _ + 1
        omega
      · rw [Log.label, labels_putOp]
        exact there

theorem Agrees.appended (agrees : log.Agrees) {label timestamp : Int64}
    (there : (log.label label).isSome) {ops : List NewOp}
    (appended : log.Appended label timestamp ops after) : after.Agrees := by
  obtain ⟨last, recorded, put, rfl⟩ := appended
  obtain ⟨positive, tabled⟩ := agrees.2.putOps agrees.1 there put
  exact ⟨positive, tabled.of_tables rfl⟩

/-! ### Operations removed -/

/-- A key that ends with an id ends with no other. -/
theorem id_eq_of_suffix {key : Bytes} {first second : Int64} (one : be first <:+ key)
    (two : be second <:+ key) : first = second := by
  have inside := List.suffix_of_suffix_length_le one two (by simp)
  exact be_inj.mp (inside.eq_of_length (by simp))

theorem snapKeys_id {key : Bytes} {first second : OpRow} (one : key ∈ snapKeys first)
    (two : key ∈ snapKeys second) : first.id = second.id := by
  simp only [snapKeys, List.mem_cons, List.not_mem_nil, or_false] at one two
  rcases one with rfl | rfl <;> rcases two with same | same <;> exact (snapKey_inj.mp same).1

theorem labelOpKeys_suffix {key : Bytes} {row : OpRow} (member : key ∈ labelOpKeys row) :
    be row.id <:+ key := by
  rw [List.mem_singleton.mp member]
  exact List.suffix_append _ _

theorem entityOpKeys_suffix {key : Bytes} {row : OpRow} (member : key ∈ entityOpKeys row) :
    be row.id <:+ key := by
  rw [List.mem_singleton.mp member]
  exact List.suffix_append _ _

theorem revertKeys_suffix {key : Bytes} {row : OpRow} (member : key ∈ revertKeys row) :
    be row.id <:+ key := by
  simp only [revertKeys, Option.mem_toList, Option.map_eq_some_iff] at member
  obtain ⟨target, -, rfl⟩ := member
  exact List.suffix_append _ _

theorem nestKeys_suffix {key : Bytes} {row : LabelRow} (member : key ∈ nestKeys row) :
    be row.id <:+ key := by
  simp only [nestKeys, Option.mem_toList, Option.map_eq_some_iff] at member
  obtain ⟨parent, -, rfl⟩ := member
  exact List.suffix_append _ _

theorem watcherKeys_subset (row : OpRow) : watcherKeys row ⊆ [be row.id] := by
  unfold watcherKeys
  split <;> simp

theorem userKeys_subset (row : OpRow) : userKeys row ⊆ [be row.id] := by
  unfold userKeys
  split <;> simp

theorem Agrees.of_head (agrees : log.Agrees) (head : Option Int64) :
    ({ log with head := head } : Log).Agrees := ⟨agrees.1, agrees.2.of_tables rfl⟩

/-- An operation is taken away. -/
theorem Tabled.removeOp (tabled : log.Tabled bound) (id : Int64) :
    (log.removeOp id).Tabled bound := by
  unfold Log.removeOp
  split
  next => exact tabled
  next row found =>
    obtain rfl := tabled.id_eq found
    -- What is left is what another id names.
    have live_iff : ∀ {left : Log}, left.ops = log.ops.delete (be row.id) → ∀ other,
        left.Live other ↔ log.Live other ∧ other ≠ row := by
      intro left ops_eq other
      rw [Live, op, ops_eq, Table.get_delete]
      simp only [be_inj]
      split
      next same =>
        refine iff_of_false (by simp) ?_
        rintro ⟨there, differ⟩
        rw [Live, ← same, found] at there
        exact differ (Option.some.inj there).symm
      next other_id =>
        refine ⟨fun there => ⟨there, ?_⟩, And.left⟩
        rintro rfl
        exact other_id rfl
    have other_id : ∀ {other}, log.Live other → other ≠ row → other.id ≠ row.id := by
      intro other there differ same
      rw [Live, same, found] at there
      exact differ (Option.some.inj there).symm
    have apart : ∀ {keys : OpRow → List Bytes}, (∀ {key held}, key ∈ keys held → be held.id <:+ key) →
        ∀ other, log.Live other → other ≠ row → ∀ key ∈ keys other, key ∉ keys row := by
      intro keys ends other there differ key mine taken
      exact other_id there differ (id_eq_of_suffix (ends mine) (ends taken))
    have alone : ∀ {keys : OpRow → List Bytes}, (∀ held, keys held ⊆ [be held.id]) →
        ∀ other, log.Live other → other ≠ row → ∀ key ∈ keys other, key ∉ [be row.id] := by
      intro keys within other there differ key mine taken
      have same := (List.mem_singleton.mp (within other mine)).symm.trans
        (List.mem_singleton.mp taken)
      exact other_id there differ (be_inj.mp same)
    refine ⟨fun {key other} left => ?_,
      tabled.snaps.shrink (snapKeys row) (fun key => ?_) (List.Subset.refl _)
        (fun other there differ key mine taken =>
          other_id there differ (snapKeys_id mine taken)) (live_iff rfl),
      tabled.byLabel.shrink (labelOpKeys row) (Table.isSome_delete _ _) (List.Subset.refl _)
        (apart labelOpKeys_suffix) (live_iff rfl),
      tabled.byEntity.shrink (entityOpKeys row) (Table.isSome_delete _ _) (List.Subset.refl _)
        (apart entityOpKeys_suffix) (live_iff rfl),
      tabled.reverted.shrink (revertKeys row) (fun key => ?_) (List.Subset.refl _)
        (apart revertKeys_suffix) (live_iff rfl),
      tabled.watcher.shrink [be row.id] (Table.isSome_delete _ _) (watcherKeys_subset row)
        (alone watcherKeys_subset) (live_iff rfl),
      tabled.user.shrink [be row.id] (Table.isSome_delete _ _) (userKeys_subset row)
        (alone userKeys_subset) (live_iff rfl),
      fun {other} there => tabled.op_label ((live_iff rfl other).mp there).1,
      tabled.label_keyed, tabled.parent_exists, tabled.kids, tabled.command_iff⟩
    · dsimp only at left
      rw [Table.get_delete] at left
      split at left
      · contradiction
      · exact tabled.op_keyed left
    · dsimp only
      rw [Table.isSome_delete, Table.isSome_delete, and_assoc]
      simp [snapKeys]
    · dsimp only [revertKeys]
      cases row.revertsOpId with
      | none => simp
      | some target => exact Table.isSome_delete _ _ _

theorem nextOp_removeOp (log : Log) (id : Int64) : (log.removeOp id).nextOp = log.nextOp :=
  (fewer_removeOp log id).nextOp_eq

/-! ### Labels -/

/-- The command of a label is forgotten with it, and no other. -/
theorem Tabled.command_dropped (tabled : log.Tabled bound) {row : LabelRow}
    (found : log.HasLabel row) {key : Bytes} {other : Int64} :
    (match row.command with
      | some made => log.labelKeys.delete made.bytes
      | none => log.labelKeys).get key = some other ↔
        log.labelKeys.get key = some other ∧ other ≠ row.id := by
  cases opened : row.command with
  | none =>
      refine ⟨fun named => ⟨named, ?_⟩, And.left⟩
      rintro rfl
      obtain ⟨same, made, there, ids, by_command, -⟩ := tabled.command_iff.mp named
      rw [there.unique found ids, opened] at by_command
      contradiction
  | some made =>
      have mine := tabled.command_iff.mpr ⟨row, made, found, rfl, opened, rfl⟩
      dsimp only
      rw [Table.get_delete]
      split
      next same =>
        refine iff_of_false (by simp) ?_
        rintro ⟨named, differ⟩
        rw [same, named] at mine
        exact differ (Option.some.inj mine)
      next differ =>
        refine ⟨fun named => ⟨named, ?_⟩, And.left⟩
        rintro rfl
        obtain ⟨same, by_row, there, ids, by_command, rfl⟩ := tabled.command_iff.mp named
        rw [there.unique found ids, opened] at by_command
        exact differ (by rw [Option.some.inj by_command])

/-- A label nothing is left in is taken away. -/
theorem Tabled.dropLabel (tabled : log.Tabled bound) {id : Int64}
    (no_op : ∀ row, log.Live row → row.labelId ≠ id)
    (no_child : ∀ row, log.HasLabel row → row.held.parent ≠ some id) :
    (log.dropLabel id).Tabled bound := by
  unfold Log.dropLabel
  split
  next => exact tabled
  next held command found =>
    have mine : log.HasLabel ⟨id, held, command⟩ := found
    have has_iff : ∀ {left : Log}, left.labels = log.labels.delete (be id) → ∀ other,
        left.HasLabel other ↔ log.HasLabel other ∧ other ≠ ⟨id, held, command⟩ := by
      intro left labels_eq other
      rw [HasLabel, labels_eq, Table.get_delete]
      simp only [be_inj]
      split
      next same =>
        refine iff_of_false (by simp) ?_
        rintro ⟨other_there, differ⟩
        exact differ (other_there.unique mine same.symm)
      next other_id =>
        refine ⟨fun other_there => ⟨other_there, ?_⟩, And.left⟩
        rintro rfl
        exact other_id rfl
    have label_eq : ∀ {left : Log}, left.labels = log.labels.delete (be id) → ∀ other, other ≠ id →
        left.label other = log.label other := by
      intro left labels_eq other differ
      rw [label, label, labels_eq, Table.get_delete_of_ne]
      exact fun same => differ (be_inj.mp same).symm
    refine ⟨tabled.op_keyed, tabled.snaps, tabled.byLabel, tabled.byEntity, tabled.reverted,
      tabled.watcher, tabled.user, fun {row} live => ?_, fun {key entry} left => ?_,
      fun {row parent} there nested => ?_,
      tabled.kids.shrink (nestKeys ⟨id, held, command⟩) (fun key => ?_) (List.Subset.refl _)
        (fun other there differ key own taken => ?_) (has_iff rfl), fun {key other} => ?_⟩
    · rw [label_eq rfl _ (no_op row live)]
      exact tabled.op_label live
    · dsimp only at left
      rw [Table.get_delete] at left
      split at left
      · contradiction
      · exact tabled.label_keyed left
    · obtain ⟨older, exists_parent⟩ :=
        tabled.parent_exists ((has_iff rfl row).mp there).1 nested
      refine ⟨older, ?_⟩
      rw [label_eq rfl]
      · exact exists_parent
      · rintro rfl
        exact no_child row ((has_iff rfl row).mp there).1 nested
    · dsimp only [nestKeys]
      cases held.parent with
      | none => simp
      | some parent => exact Table.isSome_delete _ _ _
    · have ids := id_eq_of_suffix (nestKeys_suffix own) (nestKeys_suffix taken)
      exact differ (there.unique mine ids)
    · refine (tabled.command_dropped mine).trans ?_
      rw [tabled.command_iff]
      constructor
      · rintro ⟨⟨row, made, there, rfl, by_command, keyed⟩, differ⟩
        refine ⟨row, made, (has_iff rfl row).mpr ⟨there, ?_⟩, rfl, by_command, keyed⟩
        rintro rfl
        exact differ rfl
      · rintro ⟨row, made, there, rfl, by_command, keyed⟩
        obtain ⟨was, differ⟩ := (has_iff rfl row).mp there
        refine ⟨⟨row, made, was, rfl, by_command, keyed⟩, fun same => differ ?_⟩
        exact was.unique mine same

/-! ### Labels left empty -/

/-- No operation and no label is under a label. -/
def Bare (log : Log) (label : Int64) : Prop :=
  (∀ row, log.Live row → row.labelId ≠ label) ∧
    ∀ row, log.HasLabel row → row.held.parent ≠ some label

/-- A label holds no operation and no label, and is not the watcher's. -/
def LeftEmpty (log : Log) (label : Int64) : Prop :=
  (log.label label).isSome ∧ log.labelFirstOp label = none ∧ log.labelChildren label = [] ∧
    log.watcherLabel ≠ some label

theorem dropLabel_eq (log : Log) (id : Int64) : log.dropLabel id = { log with
    labels := log.labels.delete (be id)
    labelKids := (log.dropLabel id).labelKids
    labelKeys := (log.dropLabel id).labelKeys } := by
  unfold Log.dropLabel
  split
  next absent => rw [Table.delete_of_get_eq_none _ absent]
  next => rfl

/-- Labels were dropped, none of which held anything that stays; those some labels are still to be
looked at. -/
structure Swept (before : Log) (touched pending : Int64 → Prop) (held : Log) : Prop where
  /-- What may differ. -/
  eq : held = { before with
    labels := held.labels
    labelKids := held.labelKids
    labelKeys := held.labelKeys }
  /-- The tables agree. -/
  tabled : held.Tabled before.nextOp
  /-- The labels left are as they were. -/
  labels_subset : ∀ {row}, held.HasLabel row → before.HasLabel row
  /-- A label dropped was touched, or held one that was dropped, and held no operation. -/
  dropped : ∀ {row}, before.HasLabel row → ¬held.HasLabel row →
    (∀ op, before.Live op → op.labelId ≠ row.id) ∧ before.watcherLabel ≠ some row.id ∧
      (touched row.id ∨ ∃ child, before.HasLabel child ∧ child.held.parent = some row.id)
  /-- A label left empty is to be looked at, or was empty before and not touched. -/
  left : ∀ {label}, held.LeftEmpty label →
    pending label ∨ before.LeftEmpty label ∧ ¬touched label

theorem Swept.start {before : Log} (agrees : before.Agrees) (touched : Int64 → Prop) :
    Swept before touched touched before where
  eq := rfl
  tabled := agrees.2
  labels_subset there := there
  dropped there gone := absurd there gone
  left {label} empty := (em (touched label)).imp_right fun untouched => ⟨empty, untouched⟩

variable {before held : Log} {touched pending : Int64 → Prop}

theorem Swept.live_iff (swept : Swept before touched pending held) (row : OpRow) :
    held.Live row ↔ before.Live row := by
  rw [swept.eq]
  rfl

theorem Swept.weaken (swept : Swept before touched pending held) {fewer : Int64 → Prop}
    (still : ∀ {label}, held.LeftEmpty label → pending label → fewer label) :
    Swept before touched fewer held :=
  { swept with left := fun empty => (swept.left empty).imp_left (still empty) }

/-- A label left empty is dropped; its parent is to be looked at then. -/
theorem Swept.drop (swept : Swept before touched pending held) {row : LabelRow}
    (there : held.HasLabel row) (empty : held.LeftEmpty row.id)
    (named : touched row.id ∨ ∃ child, before.HasLabel child ∧ child.held.parent = some row.id) :
    Swept before touched (fun label => row.held.parent = some label ∨ pending label)
      (held.dropLabel row.id) := by
  obtain ⟨-, no_op, no_child, other_label⟩ := empty
  rw [swept.tabled.labelFirstOp_eq_none] at no_op
  rw [swept.tabled.labelChildren_eq_nil] at no_child
  have shape := dropLabel_eq held row.id
  have tabled := swept.tabled.dropLabel no_op no_child
  generalize held.dropLabel row.id = left at shape tabled ⊢
  have has_iff : ∀ other, left.HasLabel other ↔ held.HasLabel other ∧ other.id ≠ row.id := by
    intro other
    rw [HasLabel, shape, Table.get_delete]
    simp only [be_inj]
    split
    next same => exact iff_of_false (by simp) fun both => both.2 same.symm
    next differ => exact ⟨fun has => ⟨has, Ne.symm differ⟩, And.left⟩
  have live_eq : ∀ op, left.Live op ↔ held.Live op := fun op => by rw [shape]; rfl
  have watcher_eq : left.watcherLabel = held.watcherLabel := by rw [shape]
  refine ⟨?_, tabled, fun has => swept.labels_subset ((has_iff _).mp has).1,
    fun {other} was gone => ?_, fun {label} empty => ?_⟩
  · rw [shape, swept.eq]
  · by_cases same : other.id = row.id
    · rw [same]
      refine ⟨fun op live => no_op op ((swept.live_iff op).mpr live), ?_, named⟩
      rw [swept.eq] at other_label
      exact other_label
    · exact swept.dropped was fun has => gone ((has_iff other).mpr ⟨has, same⟩)
  · obtain ⟨exists_label, no_op_left, no_child_left, not_watcher⟩ := empty
    rw [tabled.labelFirstOp_eq_none] at no_op_left
    rw [tabled.labelChildren_eq_nil] at no_child_left
    obtain ⟨other, has, rfl⟩ := label_isSome.mp exists_label
    obtain ⟨was, differ⟩ := (has_iff other).mp has
    by_cases nested : row.held.parent = some other.id
    · exact .inl (.inl nested)
    · refine (swept.left ⟨label_isSome.mpr ⟨other, was, rfl⟩, ?_, ?_, ?_⟩).imp_left .inr
      · rw [swept.tabled.labelFirstOp_eq_none]
        exact fun op live => no_op_left op ((live_eq op).mpr live)
      · rw [swept.tabled.labelChildren_eq_nil]
        intro child child_has
        by_cases mine : child.id = row.id
        · rw [child_has.unique there mine]
          exact nested
        · exact no_child_left child ((has_iff child).mpr ⟨child_has, mine⟩)
      · rw [← watcher_eq]
        exact not_watcher

/-- A label is looked at, and those it is nested in after it. -/
theorem Swept.dropIfEmpty {fuel : Nat} {label : Option Int64}
    (swept : Swept before touched (fun other => label = some other ∨ pending other) held)
    (named : ∀ {other}, label = some other → touched other ∨
      ∃ child, before.HasLabel child ∧ child.held.parent = some other)
    (enough : held.labels.entries.length < fuel) :
    Swept before touched pending (Log.dropIfEmpty fuel held label) := by
  induction fuel generalizing held label with
  | zero => omega
  | succ fuel ih =>
      cases label with
      | none => exact swept.weaken fun _ either => either.resolve_left (by simp)
      | some label =>
          have gone : ∀ {other}, ¬held.LeftEmpty label → held.LeftEmpty other →
              (some label = some other ∨ pending other) → pending other := by
            intro other full empty either
            refine either.resolve_left fun same => full ?_
            rw [Option.some.inj same]
            exact empty
          unfold Log.dropIfEmpty
          split
          next absent =>
            refine swept.weaken (gone ?_)
            rintro ⟨there, -⟩
            rw [absent] at there
            contradiction
          next entry found =>
            have exists_label : (held.label label).isSome := by
              rw [found]
              rfl
            split
            next empty =>
              obtain ⟨row, there, rfl⟩ := label_isSome.mp exists_label
              have entry_eq : row.held = entry := by
                rw [Log.label, there, Option.map_some, Option.some.injEq] at found
                exact found
              have left_empty : held.LeftEmpty row.id := ⟨exists_label, empty⟩
              have dropped := swept.drop there left_empty (named rfl)
              have fewer : (held.dropLabel row.id).labels.entries.length < fuel := by
                have perm := Table.entries_delete_perm held.labels there
                have count := perm.length_eq
                rw [dropLabel_eq]
                simp only [List.length_cons] at count
                dsimp only
                omega
              rw [← entry_eq]
              refine ih ?_ (fun {other} nested => ?_) fewer
              · refine dropped.weaken fun {other} empty_left either => ?_
                rcases either with nested | same | waits
                · exact .inl nested
                · obtain ⟨exists_other, -⟩ := empty_left
                  rw [Option.some.inj same, Log.label, dropLabel_eq, Table.get_delete_self]
                    at exists_other
                  contradiction
                · exact .inr waits
              · exact .inr ⟨row, swept.labels_subset there, nested⟩
            next full =>
              exact swept.weaken (gone fun empty => full empty.2)

/-- `delete_ops`, its last loop, over the labels of the operations removed in any order. -/
def sweep (log : Log) (hit : List Int64) : Log :=
  hit.foldl (fun held label => dropIfEmpty (held.labels.entries.length + 1) held (some label)) log

theorem Swept.sweep {hit : List Int64} (swept : Swept before touched (· ∈ hit) held)
    (named : ∀ label ∈ hit, touched label) :
    Swept before touched (fun _ => False) (held.sweep hit) := by
  induction hit generalizing held with
  | nil => exact swept.weaken fun _ member => List.not_mem_nil member
  | cons head rest ih =>
      refine ih ?_ fun label member => named label (List.mem_cons_of_mem _ member)
      refine Swept.dropIfEmpty (swept.weaken fun _ member => ?_) ?_ (Nat.lt_succ_self _)
      · rcases List.mem_cons.mp member with rfl | member
        · exact .inl rfl
        · exact .inr member
      · rintro other same
        exact .inl (Option.some.inj same ▸ named head List.mem_cons_self)

/-- Whether a label stays does not depend on the order the labels are looked at in. -/
theorem Swept.has_of_has {first second : Log} (agrees : before.Agrees)
    (one : Swept before touched (fun _ => False) first)
    (two : Swept before touched (fun _ => False) second) {row : LabelRow}
    (has : first.HasLabel row) : second.HasLabel row := by
  -- The induction is on how far the label is from the newest there can be: children come first.
  induction distance : (2 ^ 63 - row.id.toInt).toNat using Nat.strong_induction_on
    generalizing row with
  | _ distance ih =>
      by_contra gone
      have was := one.labels_subset has
      obtain ⟨no_op, not_watcher, named⟩ := two.dropped was gone
      have orphan : ∀ child, first.HasLabel child → child.held.parent ≠ some row.id := by
        intro child child_has nested
        have younger := (one.tabled.parent_exists child_has nested).1
        rw [Int64.lt_iff_toInt_lt] at younger
        have bound := child.id.toInt_lt
        have stays := ih _ (by omega) child_has rfl
        obtain ⟨parent, parent_has, ids⟩ :=
          label_isSome.mp (two.tabled.parent_exists stays nested).2
        have same := (two.labels_subset parent_has).unique was ids
        exact gone (same ▸ parent_has)
      have empty : first.LeftEmpty row.id := by
        refine ⟨label_isSome.mpr ⟨row, has, rfl⟩, ?_, ?_, ?_⟩
        · rw [one.tabled.labelFirstOp_eq_none]
          exact fun op live => no_op op ((one.live_iff op).mp live)
        · rw [one.tabled.labelChildren_eq_nil]
          exact orphan
        · rw [one.eq]
          exact not_watcher
      obtain ⟨⟨-, -, no_child, -⟩, untouched⟩ := (one.left empty).resolve_left id
      obtain ⟨child, child_was, nested⟩ := named.resolve_left untouched
      exact agrees.2.labelChildren_eq_nil.mp no_child child child_was nested

theorem ext_isSome {first second : Table Unit}
    (same : ∀ key, (first.get key).isSome ↔ (second.get key).isSome) : first = second := by
  refine Table.ext fun key => ?_
  have one := same key
  cases found : first.get key <;> cases other : second.get key <;> simp_all

theorem Swept.unique {first second : Log} (agrees : before.Agrees)
    (one : Swept before touched (fun _ => False) first)
    (two : Swept before touched (fun _ => False) second) : first = second := by
  have has_iff : ∀ row, first.HasLabel row ↔ second.HasLabel row := fun row =>
    ⟨one.has_of_has agrees two, two.has_of_has agrees one⟩
  have labels_eq : first.labels = second.labels := by
    refine Table.ext fun key => Option.ext fun entry => ?_
    constructor
    · intro found
      obtain ⟨id, rfl, -⟩ := one.tabled.label_keyed found
      exact (has_iff ⟨id, entry.1, entry.2⟩).mp found
    · intro found
      obtain ⟨id, rfl, -⟩ := two.tabled.label_keyed found
      exact (has_iff ⟨id, entry.1, entry.2⟩).mpr found
  have kids_eq : first.labelKids = second.labelKids := by
    refine ext_isSome fun key => ?_
    rw [one.tabled.kids key, two.tabled.kids key]
    simp only [has_iff]
  have keys_eq : first.labelKeys = second.labelKeys := by
    refine Table.ext fun key => Option.ext fun id => ?_
    rw [one.tabled.command_iff, two.tabled.command_iff]
    simp only [has_iff]
  rw [one.eq, two.eq, labels_eq, kids_eq, keys_eq]

/-! ### Operations forgotten -/

/-- The labels of the operations with some ids. -/
def Touches (log : Log) (ids : List Int64) (label : Int64) : Prop :=
  ∃ id ∈ ids, ∃ row, log.op id = some row ∧ row.labelId = label

theorem op_removeOp (log : Log) (id other : Int64) :
    (log.removeOp id).op other = if id = other then none else log.op other := by
  unfold Log.removeOp
  split
  next absent =>
    split
    next same => rw [← same, absent]
    next => rfl
  next =>
    simp only [op, Table.get_delete, be_inj]

theorem op_removeOps (log : Log) (ids : List Int64) (other : Int64) :
    (ids.foldl Log.removeOp log).op other = if other ∈ ids then none else log.op other := by
  induction ids generalizing log with
  | nil => simp
  | cons head rest ih =>
      rw [List.foldl_cons, ih, op_removeOp]
      by_cases later : other ∈ rest <;> by_cases same : head = other <;>
        simp [later, same, Ne.symm]

/-- Removing operations leaves the labels. -/
theorem removeOps_labels (log : Log) (ids : List Int64) :
    (ids.foldl Log.removeOp log).labels = log.labels ∧
      (ids.foldl Log.removeOp log).labelKids = log.labelKids ∧
      (ids.foldl Log.removeOp log).watcherLabel = log.watcherLabel := by
  induction ids generalizing log with
  | nil => exact ⟨rfl, rfl, rfl⟩
  | cons head rest ih =>
      have one : (log.removeOp head).labels = log.labels ∧
          (log.removeOp head).labelKids = log.labelKids ∧
          (log.removeOp head).watcherLabel = log.watcherLabel := by
        unfold Log.removeOp
        split <;> exact ⟨rfl, rfl, rfl⟩
      obtain ⟨labels, kids, watcher⟩ := ih (log.removeOp head)
      exact ⟨labels.trans one.1, kids.trans one.2.1, watcher.trans one.2.2⟩

theorem Agrees.removeOp (agrees : log.Agrees) (id : Int64) : (log.removeOp id).Agrees := by
  rw [Agrees, nextOp_removeOp]
  exact ⟨agrees.1, agrees.2.removeOp id⟩

theorem Agrees.removeOps (agrees : log.Agrees) (ids : List Int64) :
    (ids.foldl Log.removeOp log).Agrees := by
  induction ids generalizing log with
  | nil => exact agrees
  | cons head rest ih => exact ih (agrees.removeOp head)

/-- The labels hit are looked at in any order: the log is the same. -/
theorem deleteOps_eq (agrees : log.Agrees) {ids hit : List Int64}
    (touches : ∀ label, label ∈ hit ↔ log.Touches ids label) :
    log.deleteOps ids = (ids.foldl Log.removeOp log).sweep hit := by
  have listed : ∀ label, label ∈ (ids.filterMap fun id => (log.op id).map OpRow.labelId).dedup ↔
      label ∈ hit := by
    intro label
    rw [touches, List.mem_dedup, List.mem_filterMap]
    simp only [Option.map_eq_some_iff]
    rfl
  have removed := agrees.removeOps ids
  have start := Swept.start removed (· ∈ hit)
  have other := start.weaken fun _ member => (listed _).mpr member
  exact Swept.unique removed (other.sweep fun label member => (listed label).mp member)
    (start.sweep fun _ member => member)

theorem swept_deleteOps (agrees : log.Agrees) (ids : List Int64) :
    Swept (ids.foldl Log.removeOp log) (log.Touches ids) (fun _ => False) (log.deleteOps ids) := by
  have listed : ∀ label, label ∈ (ids.filterMap fun id => (log.op id).map OpRow.labelId).dedup ↔
      log.Touches ids label := by
    intro label
    rw [List.mem_dedup, List.mem_filterMap]
    simp only [Option.map_eq_some_iff]
    rfl
  have start := Swept.start (agrees.removeOps ids) (log.Touches ids)
  have waiting := start.weaken fun _ touched => (listed _).mpr touched
  exact waiting.sweep fun label member => (listed label).mp member

/-- Forgetting operations keeps the tables in step, and leaves no label empty that was not empty
before: none of those whose operations went, and none that only held such labels. -/
theorem Agrees.deleteOps (agrees : log.Agrees) (ids : List Int64) : (log.deleteOps ids).Agrees ∧
    ∀ {label}, (log.deleteOps ids).LeftEmpty label →
      log.LeftEmpty label ∧ ¬log.Touches ids label := by
  have removed := agrees.removeOps ids
  have swept := swept_deleteOps agrees ids
  have next_eq : (log.deleteOps ids).nextOp = (ids.foldl Log.removeOp log).nextOp := by
    rw [swept.eq]
  refine ⟨⟨next_eq ▸ removed.1, next_eq ▸ swept.tabled⟩, fun {label} empty => ?_⟩
  obtain ⟨⟨there, no_op, no_child, watcher⟩, untouched⟩ := (swept.left empty).resolve_left (·)
  obtain ⟨labels_eq, kids_eq, watcher_eq⟩ := removeOps_labels log ids
  rw [watcher_eq] at watcher
  rw [Log.label, labels_eq] at there
  rw [labelChildren, kids_eq] at no_child
  refine ⟨⟨there, ?_, no_child, watcher⟩, untouched⟩
  rw [removed.2.labelFirstOp_eq_none] at no_op
  rw [agrees.2.labelFirstOp_eq_none]
  rintro row live rfl
  refine no_op row ?_ rfl
  rw [Live, op_removeOps, if_neg]
  · exact live
  · exact fun member => untouched ⟨row.id, member, row, live, rfl⟩

theorem Agrees.dropLabel (agrees : log.Agrees) {label : Int64} (bare : log.Bare label) :
    (log.dropLabel label).Agrees := by
  have next_eq : (log.dropLabel label).nextOp = log.nextOp := by rw [dropLabel_eq]
  rw [Agrees, next_eq]
  exact ⟨agrees.1, agrees.2.dropLabel bare.1 bare.2⟩

theorem Agrees.trim (agrees : log.Agrees) (retention : Retention) (keepFrom : Int64) :
    (log.trim retention keepFrom).Agrees := by
  unfold Log.trim
  split
  · exact agrees
  · dsimp only
    split
    · exact agrees
    · exact (agrees.deleteOps _).1

/-! ### Labels put -/

/-- The labels of the commands, with one more. -/
def putCommand (table : Table Int64) (command : Option Uuid) (id : Int64) : Table Int64 :=
  match command with
  | some key => table.put key.bytes id
  | none => table

/-- A label is put under the next id, in a label that exists, for a command that opened none. -/
theorem Agrees.labelled (agrees : log.Agrees) {held : LabelMeta} (command : Option Uuid)
    {bumped : Int64} (next_eq : bumped.toInt = log.nextLabel.toInt + 1)
    (nested : ∀ parent, held.parent = some parent → (log.label parent).isSome)
    (fresh : ∀ key, command = some key → log.labelKeys.get key.bytes = none)
    (made : after = { log with
      nextLabel := bumped
      labels := log.labels.put (be log.nextLabel) (held, command)
      labelKids :=
        match held.parent with
        | some parent => log.labelKids.put (be parent ++ be log.nextLabel) ()
        | none => log.labelKids
      labelKeys := putCommand log.labelKeys command log.nextLabel }) :
    after.Agrees ∧ after.HasLabel ⟨log.nextLabel, held, command⟩ ∧
      (∀ row, after.Live row → row.labelId ≠ log.nextLabel) ∧
      ∀ row, after.HasLabel row → row.held.parent ≠ some log.nextLabel := by
  have older : ∀ {id}, (log.label id).isSome → id < log.nextLabel := by
    intro id there
    obtain ⟨row, has, rfl⟩ := label_isSome.mp there
    obtain ⟨other, keyed, below⟩ := agrees.2.label_keyed has
    rw [be_inj.mp keyed]
    exact below
  have unheld : ∀ row, log.HasLabel row → row.id ≠ log.nextLabel := by
    intro row has same
    have below := older (label_isSome.mpr ⟨row, has, same⟩)
    exact absurd below Int64.lt_irrefl
  have has_iff : ∀ row, after.HasLabel row ↔
      row = ⟨log.nextLabel, held, command⟩ ∨ log.HasLabel row := by
    intro row
    rw [HasLabel, made, Table.get_put]
    simp only [be_inj]
    split
    next same =>
      obtain ⟨id, other, by_command⟩ := row
      obtain rfl : log.nextLabel = id := same
      have absent : ¬log.HasLabel ⟨log.nextLabel, other, by_command⟩ := fun has => unheld _ has rfl
      simp [absent, eq_comm]
    next differ =>
      refine ⟨.inr, fun either => either.resolve_left ?_⟩
      rintro rfl
      exact differ rfl
  have mine : after.HasLabel ⟨log.nextLabel, held, command⟩ := (has_iff _).mpr (.inl rfl)
  have live_iff : ∀ row, after.Live row ↔ log.Live row := fun row => by rw [made]; rfl
  have label_of : ∀ {id}, (log.label id).isSome → (after.label id).isSome := by
    intro id there
    obtain ⟨row, has, ids⟩ := label_isSome.mp there
    exact label_isSome.mpr ⟨row, (has_iff row).mpr (.inr has), ids⟩
  have next_lt : log.nextLabel < after.nextLabel := by
    rw [made, Int64.lt_iff_toInt_lt]
    dsimp only
    omega
  have nextOp_eq : after.nextOp = log.nextOp := by rw [made]
  refine ⟨⟨nextOp_eq ▸ agrees.1, nextOp_eq ▸ ?_⟩, mine, fun row live same => ?_,
    fun row has parent => ?_⟩
  · refine ⟨?_, ?_, ?_, ?_, ?_, ?_, ?_, fun live => label_of (agrees.2.op_label
        ((live_iff _).mp live)), fun {key entry} found => ?_, fun {row parent} has nests => ?_,
      agrees.2.kids.grow (fun key => ?_) has_iff, fun {key id} => ?_⟩
    · rw [made]
      exact agrees.2.op_keyed
    · rw [made]
      exact agrees.2.snaps
    · rw [made]
      exact agrees.2.byLabel
    · rw [made]
      exact agrees.2.byEntity
    · rw [made]
      exact agrees.2.reverted
    · rw [made]
      exact agrees.2.watcher
    · rw [made]
      exact agrees.2.user
    · rw [made, Table.get_put] at found
      split at found
      next same => exact ⟨log.nextLabel, same.symm, next_lt⟩
      next =>
        obtain ⟨id, keyed, below⟩ := agrees.2.label_keyed found
        exact ⟨id, keyed, Int64.lt_trans below next_lt⟩
    · rcases (has_iff row).mp has with rfl | was
      · exact ⟨older (nested parent nests), label_of (nested parent nests)⟩
      · obtain ⟨before_it, there⟩ := agrees.2.parent_exists was nests
        exact ⟨before_it, label_of there⟩
    · rw [made]
      dsimp only [nestKeys]
      cases held.parent with
      | none => simp
      | some parent => exact Table.isSome_put _ _ _ _
    · have keys_eq : after.labelKeys = putCommand log.labelKeys command log.nextLabel := by
        rw [made]
      rw [keys_eq]
      have other_row : (∃ row made, log.HasLabel row ∧ row.id = id ∧ row.command = some made ∧
          key = made.bytes) ↔ log.labelKeys.get key = some id := agrees.2.command_iff.symm
      simp only [has_iff, or_and_right, exists_or, other_row, ↓existsAndEq, true_and]
      cases command with
      | none => simp [putCommand]
      | some opened =>
          rw [putCommand, Table.get_put]
          split
          next same =>
            subst same
            rw [fresh opened rfl]
            simp
          next differ => simp [Ne.symm differ]
  · have there := agrees.2.op_label ((live_iff row).mp live)
    rw [same] at there
    exact absurd (older there) Int64.lt_irrefl
  · rcases (has_iff row).mp has with rfl | was
    · exact absurd (older (nested _ parent)) Int64.lt_irrefl
    · exact absurd (older (agrees.2.parent_exists was parent).2) Int64.lt_irrefl

theorem Agrees.putLabel (agrees : log.Agrees) {held : LabelMeta} {id : Int64}
    (nested : ∀ parent, held.parent = some parent → (log.label parent).isSome)
    (ran : log.putLabel held none = .ok (id, after)) :
    after.Agrees ∧ (after.label id).isSome ∧ after.Bare id := by
  simp only [Log.putLabel, Except.bind_eq_ok, Except.pure_eq_ok, Prod.mk.injEq] at ran
  obtain ⟨bumped, added, rfl, rfl⟩ := ran
  obtain ⟨agree, mine, bare⟩ :=
    agrees.labelled none (toInt_addInt64 added) nested (by simp) rfl
  exact ⟨agree, label_isSome.mpr ⟨_, mine, rfl⟩, bare⟩

theorem Agrees.createCommandLabel (agrees : log.Agrees) {held : LabelMeta} {key : Uuid} {id : Int64}
    (nested : ∀ parent, held.parent = some parent → (log.label parent).isSome)
    (fresh : log.labelOfCommand key = none)
    (ran : log.createCommandLabel held key = .ok (id, after)) :
    after.Agrees ∧ (after.label id).isSome ∧ after.Bare id := by
  simp only [Log.createCommandLabel, Log.putLabel, Except.bind_eq_ok, Except.pure_eq_ok,
    Prod.exists, Prod.mk.injEq] at ran
  obtain ⟨_, _, ⟨bumped, added, rfl, rfl⟩, rfl, rfl⟩ := ran
  obtain ⟨agree, mine, bare⟩ := agrees.labelled (some key) (toInt_addInt64 added) nested
    (fun other same => Option.some.inj same ▸ fresh) rfl
  exact ⟨agree, label_isSome.mpr ⟨_, mine, rfl⟩, bare⟩

/-- A label a client may write under exists. -/
theorem label_of_checkClientLabel {id : Int64} (ran : log.checkClientLabel id = .ok ()) :
    (log.label id).isSome := by
  simp only [checkClientLabel, checkClientLabelLoop, Except.bind_eq_ok] at ran
  obtain ⟨-, -, rest⟩ := ran
  split at rest
  · simp at rest
  next found =>
    rw [found]
    rfl

end Log

namespace Writer

variable {log after : Log}

theorem clientLabel_spec {label : NewLabel} {timestamp : Int64} {held : LabelMeta}
    (ran : clientLabel log label timestamp = .ok held) :
    ∀ parent, held.parent = some parent → (log.label parent).isSome := by
  unfold clientLabel at ran
  cases nested : label.parent with
  | none =>
      simp only [nested, Except.pure_eq_ok] at ran
      obtain ⟨-, -, rfl⟩ := ran
      simp
  | some parent =>
      simp only [nested, Except.bind_eq_ok, Except.pure_eq_ok] at ran
      obtain ⟨⟨⟩, checked, rfl⟩ := ran
      rintro other same
      rw [← Option.some.inj same]
      exact Log.label_of_checkClientLabel checked

theorem watcherRoot_agrees (agrees : log.Agrees) {timestamp id : Int64}
    (ran : watcherRoot log timestamp = .ok (id, after)) :
    after.Agrees ∧ (after.label id).isSome := by
  obtain ⟨there, rfl⟩ | ⟨labelled, opening, rfl⟩ := watcherRoot_cases ran
  · exact ⟨agrees, there⟩
  · obtain ⟨agree, there, -⟩ := agrees.putLabel (by simp) opening
    exact ⟨⟨agree.1, agree.2.of_tables rfl⟩, there⟩

/-- A write opens a label that exists; one it made itself holds nothing yet. -/
theorem openLabel_agrees (agrees : log.Agrees) {context : WriteContext} {timestamp label : Int64}
    {opened : Bool} {origin : Option String}
    (ran : openLabel log context timestamp = .ok ((label, opened, origin), after)) :
    after.Agrees ∧ (after.label label).isSome ∧ (opened = true → after.Bare label) := by
  cases context with
  | «in» id =>
      simp only [openLabel, Except.bind_eq_ok, Except.pure_eq_ok, Prod.mk.injEq] at ran
      obtain ⟨⟨⟩, checked, ⟨rfl, rfl, -⟩, rfl⟩ := ran
      exact ⟨agrees, Log.label_of_checkClientLabel checked, by simp⟩
  | new held =>
      simp only [openLabel, Except.bind_eq_ok, Except.pure_eq_ok, Prod.exists,
        Prod.mk.injEq] at ran
      obtain ⟨granted, granting, id, opened, opening, ⟨rfl, -, -⟩, rfl⟩ := ran
      obtain ⟨agree, there, bare⟩ := agrees.putLabel (clientLabel_spec granting) opening
      exact ⟨agree, there, fun _ => bare⟩
  | command key held =>
      simp only [openLabel] at ran
      split at ran
      next id named =>
        simp only [Except.pure_eq_ok, Prod.mk.injEq] at ran
        obtain ⟨⟨rfl, rfl, -⟩, rfl⟩ := ran
        obtain ⟨row, made, has, rfl, -⟩ := agrees.2.command_iff.mp named
        exact ⟨agrees, Log.label_isSome.mpr ⟨row, has, rfl⟩, by simp⟩
      next fresh =>
        simp only [Except.bind_eq_ok, Except.pure_eq_ok, Prod.exists, Prod.mk.injEq] at ran
        obtain ⟨granted, granting, id, opened, opening, ⟨rfl, -, -⟩, rfl⟩ := ran
        obtain ⟨agree, there, bare⟩ :=
          agrees.createCommandLabel (clientLabel_spec granting) fresh opening
        exact ⟨agree, there, fun _ => bare⟩
  | watcher =>
      simp only [openLabel, Except.bind_eq_ok, Except.pure_eq_ok, Prod.exists,
        Prod.mk.injEq] at ran
      obtain ⟨root, rooted, rooting, id, opened, opening, ⟨rfl, -, -⟩, rfl⟩ := ran
      obtain ⟨held, there⟩ := watcherRoot_agrees agrees rooting
      have nested : ∀ parent, some root = some parent → (rooted.label parent).isSome := by
        rintro parent same
        rw [← Option.some.inj same]
        exact there
      obtain ⟨agree, made, bare⟩ := held.putLabel nested opening
      exact ⟨agree, made, fun _ => bare⟩

/-- A commit that wrote nothing drops the label it opened; any other appends its operations and
trims what is older than the first of them. -/
theorem commit_log [Externals] {w : Writer} {store : KvStore} (ran : w.commit = .ok store) {start : Log}
    {ops : List NewOp} (recorded : w.Recorded start ops) :
    ops = [] ∧ store.log = (if w.openedLabel then start.dropLabel w.labelId else start) ∨
      ops ≠ [] ∧ ∃ appended head, start.Appended w.labelId w.timestamp ops appended ∧
        store.log = ({ appended with head := head } : Log).trim w.retention start.nextOp := by
  simp only [commit, Except.bind_eq_ok] at ran
  obtain ⟨⟨⟩, -, ⟨⟩, -, ⟨⟩, -, ending⟩ := ran
  split at ending
  next idle =>
    rw [Except.pure_eq_ok] at ending
    subst ending
    obtain ⟨appended, rfl, flushed, -, earlier⟩ := recorded
    obtain rfl : appended = [] := List.eq_nil_of_length_eq_zero (flushed.symm.trans idle.1)
    obtain ⟨next, held, put, log_eq⟩ := earlier
    simp only [Log.putOps, Except.pure_eq_ok, Prod.mk.injEq] at put
    obtain ⟨rfl, rfl⟩ := put
    refine .inl ⟨by rw [idle.2]; rfl, ?_⟩
    dsimp only
    rw [log_eq]
  next busy =>
    simp only [Except.bind_eq_ok, Except.pure_eq_ok] at ending
    obtain ⟨flushed, flushing, rfl⟩ := ending
    obtain ⟨flushed_eq, none_pending, kept, -⟩ := flushPending_spec flushing
    have same : flushed.labelId = w.labelId ∧ flushed.timestamp = w.timestamp ∧
        flushed.retention = w.retention := by
      rw [flushed_eq]
      exact ⟨rfl, rfl, rfl⟩
    have some_op : ops ≠ [] := by
      rintro rfl
      obtain ⟨appended, both, count, -⟩ := recorded
      obtain ⟨rfl, none_waiting⟩ := List.append_eq_nil_iff.mp both.symm
      exact busy ⟨count, none_waiting⟩
    obtain ⟨appended, rfl, -, first_op, put⟩ := kept recorded
    rw [none_pending, List.append_nil] at some_op ⊢
    rw [same.1, same.2.1] at put
    refine .inr ⟨some_op, flushed.log, flushed.chainHead, put, ?_⟩
    rw [first_op, if_neg some_op, same.2.2]

end Writer

variable [Externals]

theorem Writer.Writes.label_eq {w after : Writer} {steps : List (NewOp × KvTxn)}
    (writes : Writer.Writes w steps after) :
    after.labelId = w.labelId ∧ after.openedLabel = w.openedLabel ∧ after.timestamp = w.timestamp := by
  induction writes with
  | quiet step =>
      rw [step.eq]
      exact ⟨rfl, rfl, rfl⟩
  | operation step =>
      rw [step.eq]
      exact ⟨rfl, rfl, rfl⟩
  | append _ _ one two =>
      exact ⟨two.1.trans one.1, two.2.1.trans one.2.1, two.2.2.trans one.2.2⟩

/-- A committed transaction appends its operations to the log it opened a label in, and trims what
is older, or wrote nothing and drops that label. -/
theorem Transaction.log_spec {transaction : Transaction} {store after : KvStore}
    (consistent : store.tx.primary.Consistent) (agrees : store.log.Agrees)
    (ran : transaction.run store = .ok after) : ∃ (start : Log) (label : Int64) (opened : Bool),
      start.Agrees ∧ store.log.SameOps start ∧ (start.label label).isSome ∧
        (opened = true → start.Bare label) ∧
        (after.log = (if opened then start.dropLabel label else start) ∨
          ∃ ops appended head, start.Appended label transaction.timestamp ops appended ∧
            after.log = ({ appended with head := head } : Log).trim transaction.retention
              start.nextOp) := by
  obtain ⟨w, steps, last, opening, writes, -, committing⟩ :=
    Transaction.run_spec consistent (fun _ => True) (fun _ => trivial) (fun _ _ _ _ => trivial) ran
  obtain ⟨-, same, recorded, retention_eq, -⟩ := Writer.beginIn_spec opening
  obtain ⟨label_eq, opened_eq, timestamp_eq⟩ := writes.label_eq
  simp only [Writer.beginIn, Except.bind_eq_ok, Except.pure_eq_ok, Prod.exists] at opening
  obtain ⟨label, opened, origin, start, labelling, rfl⟩ := opening
  obtain ⟨agree, there, bare⟩ := Writer.openLabel_agrees agrees labelling
  refine ⟨start, label, opened, agree, same, there, bare, ?_⟩
  obtain ⟨-, idle⟩ | ⟨-, appended, head, put, log_eq⟩ :=
    Writer.commit_log committing (writes.recorded recorded)
  · rw [label_eq, opened_eq] at idle
    exact .inl idle
  · rw [label_eq, timestamp_eq] at put
    rw [writes.retention_eq] at log_eq
    exact .inr ⟨_, appended, head, put, log_eq⟩

theorem Transaction.agrees {transaction : Transaction} {store after : KvStore}
    (consistent : store.tx.primary.Consistent) (agrees : store.log.Agrees)
    (ran : transaction.run store = .ok after) : after.log.Agrees := by
  obtain ⟨start, label, opened, agree, -, there, bare, idle | ⟨ops, appended, head, put, log_eq⟩⟩ :=
    Transaction.log_spec consistent agrees ran
  · rw [idle]
    split
    next mine => exact agree.dropLabel (bare mine)
    next => exact agree
  · rw [log_eq]
    exact ((agree.appended there put).of_head head).trim _ _

/-! ### Every sequence of writes to the log -/

/-- `ops_back`: the operations up to an id, newest first. -/
def Log.opsBack (log : Log) (last : Int64) : List OpRow :=
  ((log.ops.entries.filter fun entry => compare entry.1 (be last) ≠ .gt).map Prod.snd).reverse

/-- `prune`: every operation older than one goes. -/
def Log.prune (log : Log) (target : Int64) : Outcome Log := do
  let _ ← context log.head "cannot prune an empty history"
  let last ← addInt64 target (-1)
  pure (log.deleteOps ((log.opsBack last).map OpRow.id))

/-- `POST /repos/:repo/labels`: a client opens a label. -/
def Log.createLabel (log : Log) (label : NewLabel) (timestamp : Int64) : Outcome (Int64 × Log) := do
  let held ← Writer.clientLabel log label timestamp
  log.putLabel held none

/-- What commits, prunes, trims and new labels lead to from the empty store. -/
inductive Written : KvStore → Prop
  /-- The empty store. -/
  | new : Written {}
  /-- A transaction commits. -/
  | commit {store after : KvStore} (transaction : Transaction) (written : Written store)
      (ran : transaction.run store = .ok after) : Written after
  /-- The operations older than one are pruned. -/
  | prune {store : KvStore} {log : Log} (target : Int64) (written : Written store)
      (ran : store.log.prune target = .ok log) : Written ⟨store.tx, log⟩
  /-- The log is trimmed. -/
  | trim {store : KvStore} (retention : Retention) (keepFrom : Int64) (written : Written store) :
      Written ⟨store.tx, store.log.trim retention keepFrom⟩
  /-- A client opens a label. -/
  | label {store : KvStore} {log : Log} {id : Int64} (label : NewLabel) (timestamp : Int64)
      (written : Written store) (ran : store.log.createLabel label timestamp = .ok (id, log)) :
      Written ⟨store.tx, log⟩

theorem Written.consistent {store : KvStore} (written : Written store) :
    store.tx.primary.Consistent := by
  induction written with
  | new => exact Primary.consistent_of_empty 1
  | commit transaction _ ran ih =>
      obtain ⟨w, steps, last, opening, writes, -, committing⟩ :=
        Transaction.run_spec ih (fun _ => True) (fun _ => trivial) (fun _ _ _ _ => trivial) ran
      have chain := writes.chain
      rw [(Writer.beginIn_spec opening).1, ← (Writer.commit_spec committing).1] at chain
      exact (KvTxn.Chain.induction (fun tx => tx.primary.Consistent) chain
        (fun _ performed whole => (performed.spec whole).1) ih).1
  | prune _ _ _ ih => exact ih
  | trim _ _ _ ih => exact ih
  | label _ _ _ _ ih => exact ih

theorem Written.agrees {store : KvStore} (written : Written store) : store.log.Agrees := by
  induction written with
  | new => exact Log.agrees_empty
  | commit transaction written ran ih => exact Transaction.agrees written.consistent ih ran
  | prune target _ ran ih =>
      simp only [Log.prune, Except.bind_eq_ok, Except.pure_eq_ok] at ran
      obtain ⟨-, -, last, -, rfl⟩ := ran
      exact (ih.deleteOps _).1
  | trim retention keepFrom _ ih => exact ih.trim retention keepFrom
  | label label timestamp _ ran ih =>
      obtain ⟨held, granted, labelled⟩ := Except.bind_eq_ok.mp ran
      exact (ih.putLabel (Writer.clientLabel_spec granted) labelled).1

/-- Over every sequence of commits, prunes, trims and new labels the tables of the log describe the
same operations and the same labels.  Operations forgotten, their labels looked at in any order,
leave no label empty that was not empty before. -/
theorem log_tables_agree {store : KvStore} (written : Written store) : store.log.Agrees ∧
    ∀ ids hit : List Int64, (∀ label, label ∈ hit ↔ store.log.Touches ids label) →
      store.log.deleteOps ids = (ids.foldl Log.removeOp store.log).sweep hit ∧
      (store.log.deleteOps ids).Agrees ∧
      ∀ {label}, (store.log.deleteOps ids).LeftEmpty label →
        store.log.LeftEmpty label ∧ ¬store.log.Touches ids label := by
  have agrees := written.agrees
  exact ⟨agrees, fun ids hit touches => ⟨Log.deleteOps_eq agrees touches, agrees.deleteOps ids⟩⟩

/-- A write that creates a metarecord. -/
def sampleCreate : Transaction where
  context := .new ⟨"create", none, none⟩
  retention := .unlimited
  timestamp := 1
  calls := [.createMetarecord (sampleUuids 1) [⟨"f", .int 5⟩]]

/-- A write that sets its field twice, and keeps one operation of the log it meets. -/
def sampleSet : Transaction where
  context := .new ⟨"set", none, none⟩
  retention := ⟨0, 1⟩
  timestamp := 2
  calls :=
    [.setFieldAs .setField (sampleUuids 1) "f" (.int 6),
      .setFieldAs .setField (sampleUuids 1) "f" (.int 7)]

omit [Externals] in
/-- The first label goes with its only operation. -/
theorem sampleSet_run : (@Transaction.run plainExternals sampleCreate {} >>= fun first =>
    (fun store : KvStore => ((first.log.op 1).isSome, store.log.label 1,
      [1, 2, 3].map fun id => (store.log.op id).map OpRow.labelId)) <$>
        @Transaction.run plainExternals sampleSet first) =
      .ok (true, none, [none, some 2, some 2]) := by
  decide +kernel

omit [Externals] in
theorem log_tables_agree_set : ∃ first store,
    @Transaction.run plainExternals sampleCreate {} = .ok first ∧
      @Transaction.run plainExternals sampleSet first = .ok store ∧
      store.log.label 1 = none ∧ store.log.Agrees ∧
      store.log.deleteOps [2, 3] = ([2, 3].foldl Log.removeOp store.log).sweep [2] := by
  let _ : Externals := plainExternals
  obtain ⟨first, created, ran⟩ := Except.bind_eq_ok.mp sampleSet_run
  obtain ⟨store, set, held⟩ := Except.map_eq_ok.mp ran
  have written : Written store := .commit sampleSet (.commit sampleCreate .new created) set
  simp only [List.map_cons, List.map_nil, Prod.mk.injEq, List.cons.injEq] at held
  obtain ⟨-, no_label, -, second, third, -⟩ := held
  have touches : ∀ label, label ∈ [2] ↔ store.log.Touches [2, 3] label := by
    intro label
    simp only [Log.Touches, ← Option.map_eq_some_iff, List.mem_cons, List.not_mem_nil, or_false,
      exists_eq_or_imp, exists_eq_left, second, third, Option.some.injEq, or_self]
    exact eq_comm
  obtain ⟨agrees, forgotten⟩ := log_tables_agree written
  exact ⟨first, store, created, set, no_label, agrees, (forgotten [2, 3] [2] touches).1⟩

end Metafolder
