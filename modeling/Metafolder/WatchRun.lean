import Metafolder.Effects
import Metafolder.Placements

/-!
# The published rule index

A repository publishes one rule index, stamped with the newest operation it is valid at.  A client's
write brings it in step: the index is read again when the write moved a rule, and else stamped
anew.  A flush leaves the stamp behind.  A write that gives a path to a holder that had none, by
moving a metarecord above it, moves a rule the index does not know of.
-/

namespace Metafolder

open Ancestry

/-- `RulesSlot`: the index published, and the newest operation it is valid at. -/
structure RulesSlot where
  /-- The index. -/
  rules : Option WatchRules := none
  /-- What it is valid at. -/
  validAt : Option (Option Int64) := none

/-- Whether a write's effects say it moved a rule. -/
def WatchRules.movedARule (rules : WatchRules) (effects : WriteEffects) : Bool :=
  effects.watch || effects.tree.any fun cell => cell.field = "mfr_path" && rules.affects cell.uuid

/-- `settle_watch_rules` where a read fails: the next reader reads. -/
def RulesSlot.settleFailed (slot : RulesSlot) : RulesSlot :=
  match slot.rules with
  | none => slot
  | some _ => { slot with validAt := none }

section Index

variable [Externals] [Patterns]

/-- `watch_rules`: the index, current as of the newest operation. -/
def RulesSlot.watchRules (slot : RulesSlot) (store : KvStore) (caseInsensitive : Bool) :
    WatchRules × RulesSlot :=
  let read : WatchRules × RulesSlot :=
    let rules := WatchRules.load store caseInsensitive
    (rules, { slot with rules := some rules, validAt := some rules.head })
  match slot.rules, slot.validAt with
  | some rules, some validAt => if validAt = store.log.head then (rules, slot) else read
  | _, _ => read

/-- `settle_watch_rules`: the index in step with a write just committed.  A stamp that did not
describe the state the write started from stays behind. -/
def RulesSlot.settle (slot : RulesSlot) (store : KvStore) (effects : WriteEffects)
    (caseInsensitive : Bool) : RulesSlot :=
  match slot.rules with
  | none => slot
  | some rules =>
      if rules.movedARule effects then
        let read := WatchRules.load store caseInsensitive
        { slot with rules := some read, validAt := some read.head }
      else if slot.validAt = some effects.baseHead then
        { slot with validAt := some store.log.head }
      else slot

/-- A repository, as its rule index sees it. -/
structure WatchedRepo where
  /-- The store. -/
  store : KvStore := {}
  /-- The index published. -/
  slot : RulesSlot := {}

/-- What happens to a repository. -/
inductive WatchStep (caseInsensitive : Bool)
    (allowed : WatchedRepo → WriteEffects → KvStore → Prop) : WatchedRepo → WatchedRepo → Prop
  /-- A client's write, or a revert. -/
  | client {repo : WatchedRepo} (transaction : Transaction) {effects : WriteEffects}
      {after : KvStore} (ran : transaction.perform repo.store = .ok (effects, after))
      (fits : allowed repo effects after) :
      WatchStep caseInsensitive allowed repo
        ⟨after, repo.slot.settle after effects caseInsensitive⟩
  /-- A client's write after which the index could not be read. -/
  | unsettled {repo : WatchedRepo} (transaction : Transaction) {after : KvStore}
      (ran : transaction.run repo.store = .ok after) :
      WatchStep caseInsensitive allowed repo ⟨after, repo.slot.settleFailed⟩
  /-- A transaction of a flush. -/
  | flush {repo : WatchedRepo} (transaction : Transaction) {after : KvStore}
      (ran : transaction.run repo.store = .ok after) :
      WatchStep caseInsensitive allowed repo ⟨after, repo.slot⟩
  /-- A reader asks for the index. -/
  | read {repo : WatchedRepo} :
      WatchStep caseInsensitive allowed repo
        ⟨repo.store, (repo.slot.watchRules repo.store caseInsensitive).2⟩

end Index

/-- The `mfr_path` forest is well formed: every position is placed, none is above itself, and no way
up is too long. -/
structure PathsWellFormed (store : Primary) : Prop where
  /-- The forest. -/
  forest : store.WellFormedForest "mfr_path"
  /-- Its depth. -/
  bounded : Bounded (store.Up "mfr_path") maxTreeDepth

variable [Externals] [Patterns]

/-- The repositories reached where the `mfr_path` forest stays well formed. -/
inductive WatchRun (caseInsensitive : Bool)
    (allowed : WatchedRepo → WriteEffects → KvStore → Prop) : WatchedRepo → Prop
  /-- The empty store, its index never read. -/
  | new : WatchRun caseInsensitive allowed {}
  /-- One more step. -/
  | step {repo next : WatchedRepo} (reached : WatchRun caseInsensitive allowed repo)
      (stepped : WatchStep caseInsensitive allowed repo next)
      (wellFormed : PathsWellFormed next.store.tx.primary) : WatchRun caseInsensitive allowed next

/-- Two indexes answer alike for every path. -/
def WatchRules.Answers (rules other : WatchRules) : Prop :=
  ∀ rel, rules.explain rel = other.explain rel ∧ rules.exceededBy rel = other.exceededBy rel ∧
    rules.effectiveIgnore rel = other.effectiveIgnore rel

/-- No holder of a rule without a path gets one. -/
def GivesNoPath (before after : Primary) : Prop :=
  ∀ uuid ∈ ruleHolders before, (carrierOf before uuid).bare = false →
    (∀ place, ¬Stands before uuid place) → ∀ place, ¬Stands after uuid place

/-- A client's write whose effects say it moved no rule gives no holder of a rule a path. -/
def Steady (repo : WatchedRepo) (effects : WriteEffects) (after : KvStore) : Prop :=
  ∀ rules, repo.slot.rules = some rules → rules.movedARule effects = false →
    GivesNoPath repo.store.tx.primary after.tx.primary

/-! ### A write that moved no rule -/

omit [Patterns] in
theorem mem_holdersOf {store : Primary} (indexed : store.Indexed) {names : List String}
    {uuid : Uuid} :
    uuid ∈ names.flatMap store.holders ↔ ∃ row, store.Holds uuid row ∧ row.name ∈ names := by
  rw [List.mem_flatMap]
  constructor
  · rintro ⟨name, listed, member⟩
    obtain ⟨row, holds, rfl⟩ := indexed.mem_holders.mp member
    exact ⟨row, holds, listed⟩
  · rintro ⟨row, holds, listed⟩
    exact ⟨row.name, listed, indexed.mem_holders.mpr ⟨row, holds, rfl⟩⟩

/-- A write that moved no rule, and gave none a path, leaves the same rules at the same places. -/
theorem Told.sameRules {store after : KvStore} {effects : WriteEffects}
    (told : Told store effects after) (consistent : store.tx.primary.Consistent)
    (bounded : Bounded (store.tx.primary.Up "mfr_path") maxTreeDepth) (caseInsensitive : Bool)
    (quiet : (WatchRules.load store caseInsensitive).movedARule effects = false)
    (steady : GivesNoPath store.tx.primary after.tx.primary) :
    SameRules store.tx.primary after.tx.primary := by
  rw [WatchRules.movedARule, Bool.or_eq_false_iff] at quiet
  obtain ⟨no_rule, no_move⟩ := quiet
  have indexed := consistent.toIndexed
  have after_indexed := told.consistent.toIndexed
  have rows : ∀ {uuid name}, name ∈ decidesWatches →
      after.tx.primary.rowsNamed uuid name = store.tx.primary.rowsNamed uuid name := by
    intro uuid name listed
    refine Primary.rowsNamed_congr after_indexed indexed fun {row} named => ?_
    exact (told.watch no_rule (named.symm ▸ listed)).symm
  have still : ∀ {node}, (WatchRules.load store caseInsensitive).affects node →
      after.tx.primary.pathPosition node = store.tx.primary.pathPosition node := by
    intro node affected
    refine Primary.pathPosition_congr after_indexed indexed fun {row} named placed => ?_
    refine (told.tree placed fun moved => ?_).symm
    have unaffected := List.any_eq_false.mp no_move _ moved
    simp [named, affected] at unaffected
  constructor
  · apply Canonical.canon_congr fun same => Uuid.ext (Std.LawfulEqCmp.eq_of_compare same)
    intro uuid
    rw [mem_holdersOf after_indexed, mem_holdersOf indexed]
    exact exists_congr fun row => and_congr_left fun listed => (told.watch no_rule listed).symm
  · intro uuid
    simp only [carrierOf, Primary.boolField, Primary.stringFields]
    rw [rows (by decide), rows (by decide), rows (by decide)]
  · intro uuid known holder full knows
    cases known with
    | some place =>
        refine Stands.congr knows fun node member => still ?_
        exact (WatchRules.affects_load indexed bounded holder).2 full knows node member
    | none => exact steady uuid holder full knows

/-! ### Every run -/

theorem WatchRules.head_load (store : KvStore) (caseInsensitive : Bool) :
    (load store caseInsensitive).head = store.log.head := by
  have kept : ∀ (items : List Uuid) (held : WatchRules × Placements),
      (items.foldl (loadHolder store.tx.primary) held).1.head = held.1.head := by
    intro items
    induction items with
    | nil => exact fun held => rfl
    | cons head rest ih =>
        intro held
        rw [List.foldl_cons, ih, loadHolder]
        dsimp only
        split
        · rfl
        · split <;> rfl
  exact kept _ _

/-- What holds in every state of a run. -/
structure WatchedRepo.Follows (repo : WatchedRepo) (caseInsensitive : Bool) : Prop where
  /-- The tables agree. -/
  consistent : repo.store.tx.primary.Consistent
  /-- The forest is well formed. -/
  wellFormed : PathsWellFormed repo.store.tx.primary
  /-- Operation ids only grow. -/
  head_lt : ∀ {head}, repo.store.log.head = some head → head < repo.store.log.nextOp
  /-- A stamp is not of an operation to come. -/
  stamp_lt : ∀ {head}, repo.slot.validAt = some (some head) → head < repo.store.log.nextOp
  /-- The index stamped with the newest operation is that of the store. -/
  current : ∀ {rules}, repo.slot.rules = some rules →
    repo.slot.validAt = some repo.store.log.head →
      ∃ head, rules = { WatchRules.load repo.store caseInsensitive with head := head }

omit [Externals] [Patterns] in
/-- A stamp from before a write that recorded an operation is not that of the state after. -/
theorem Renewed.same_of_stamp {store after : KvStore} (renewed : Renewed store after)
    {validAt : Option (Option Int64)}
    (stamp_lt : ∀ {head}, validAt = some (some head) → head < store.log.nextOp)
    (stamped : validAt = some after.log.head) :
    after.tx = store.tx ∧ after.log.head = store.log.head ∧ after.log.nextOp = store.log.nextOp := by
  cases renewed with
  | inl same => exact same
  | inr fresh =>
      obtain ⟨head, head_eq, lower, -⟩ := fresh
      rw [head_eq] at stamped
      exact absurd (Int64.lt_of_lt_of_le (stamp_lt stamped) lower) Int64.lt_irrefl

omit [Externals] [Patterns] in
theorem Renewed.nextOp_le {store after : KvStore} (renewed : Renewed store after) :
    store.log.nextOp ≤ after.log.nextOp := by
  cases renewed with
  | inl same => exact same.2.2 ▸ Int64.le_refl _
  | inr fresh =>
      obtain ⟨head, -, lower, upper⟩ := fresh
      exact Int64.le_trans lower (Int64.le_of_lt upper)

omit [Externals] [Patterns] in
theorem Renewed.head_lt {store after : KvStore} (renewed : Renewed store after)
    (head_lt : ∀ {head}, store.log.head = some head → head < store.log.nextOp) {head : Int64}
    (newest : after.log.head = some head) : head < after.log.nextOp := by
  cases renewed with
  | inl same =>
      rw [same.2.2]
      exact head_lt (same.2.1 ▸ newest)
  | inr fresh =>
      obtain ⟨other, head_eq, -, upper⟩ := fresh
      rw [newest, Option.some.injEq] at head_eq
      exact head_eq ▸ upper

/-- A write that leaves the slot leaves it right. -/
theorem WatchedRepo.Follows.written {repo : WatchedRepo} {caseInsensitive : Bool}
    (follows : repo.Follows caseInsensitive) {after : KvStore} {effects : WriteEffects}
    (told : Told repo.store effects after) (wellFormed : PathsWellFormed after.tx.primary) :
    WatchedRepo.Follows ⟨after, repo.slot⟩ caseInsensitive where
  consistent := told.consistent
  wellFormed := wellFormed
  head_lt := told.renewed.head_lt follows.head_lt
  stamp_lt stamped := Int64.lt_of_lt_of_le (follows.stamp_lt stamped) told.renewed.nextOp_le
  current published stamped := by
    obtain ⟨tx_eq, head_eq, -⟩ := told.renewed.same_of_stamp follows.stamp_lt stamped
    rw [WatchRules.load, tx_eq, head_eq]
    exact follows.current published (head_eq ▸ stamped)

/-- An index just read is right. -/
theorem WatchedRepo.Follows.reread {repo : WatchedRepo} {caseInsensitive : Bool}
    (follows : repo.Follows caseInsensitive) {slot : RulesSlot}
    (published : slot.rules = some (WatchRules.load repo.store caseInsensitive))
    (stamped : slot.validAt = some (WatchRules.load repo.store caseInsensitive).head) :
    WatchedRepo.Follows ⟨repo.store, slot⟩ caseInsensitive where
  consistent := follows.consistent
  wellFormed := follows.wellFormed
  head_lt := follows.head_lt
  stamp_lt newest := by
    rw [stamped, WatchRules.head_load] at newest
    exact follows.head_lt (Option.some.inj newest)
  current again _ := by
    rw [published, Option.some.injEq] at again
    exact ⟨_, again.symm⟩

/-- A client's write that settles leaves the slot right. -/
theorem WatchedRepo.Follows.settled {repo : WatchedRepo} {caseInsensitive : Bool}
    (follows : repo.Follows caseInsensitive) {after : KvStore} {effects : WriteEffects}
    (told : Told repo.store effects after) (wellFormed : PathsWellFormed after.tx.primary)
    (steady : Steady repo effects after) :
    WatchedRepo.Follows ⟨after, repo.slot.settle after effects caseInsensitive⟩
      caseInsensitive := by
  have unsettled := follows.written told wellFormed
  cases published : repo.slot.rules with
  | none =>
      rw [RulesSlot.settle, published]
      exact unsettled
  | some rules =>
      rw [RulesSlot.settle, published]
      dsimp only
      split
      next moved => exact unsettled.reread rfl rfl
      next quiet =>
        rw [Bool.not_eq_true] at quiet
        split
        next stamped =>
          rw [told.baseHead_eq] at stamped
          refine ⟨unsettled.consistent, wellFormed, unsettled.head_lt, fun {head} newest => ?_,
            fun {other} again _ => ?_⟩
          · exact unsettled.head_lt (Option.some.inj newest)
          · obtain rfl := Option.some.inj again
            obtain ⟨head, rules_eq⟩ := follows.current published stamped
            have same := told.sameRules follows.consistent follows.wellFormed.bounded
              caseInsensitive ?_ (steady rules published quiet)
            · refine ⟨head, ?_⟩
              rw [WatchRules.load_congr follows.consistent.toIndexed told.consistent.toIndexed
                follows.wellFormed.bounded wellFormed.bounded same]
              exact rules_eq
            · rw [rules_eq] at quiet
              exact quiet
        next => exact unsettled

theorem WatchStep.follows {repo next : WatchedRepo} {caseInsensitive : Bool}
    (stepped : WatchStep caseInsensitive Steady repo next)
    (follows : repo.Follows caseInsensitive)
    (wellFormed : PathsWellFormed next.store.tx.primary) : next.Follows caseInsensitive := by
  have told : ∀ {transaction : Transaction} {after : KvStore},
      transaction.run repo.store = .ok after → ∃ effects, Told repo.store effects after := by
    intro transaction after ran
    rw [Transaction.run_eq_perform, Except.map_eq_ok] at ran
    obtain ⟨⟨effects, committed⟩, performed, rfl⟩ := ran
    exact ⟨effects, Transaction.told follows.consistent performed⟩
  cases stepped with
  | client transaction ran steady =>
      exact follows.settled (Transaction.told follows.consistent ran) wellFormed steady
  | unsettled transaction ran =>
      obtain ⟨effects, told⟩ := told ran
      have written := follows.written told wellFormed
      unfold RulesSlot.settleFailed
      split
      · exact written
      · exact ⟨written.consistent, wellFormed, written.head_lt, by simp, by simp⟩
  | flush transaction ran =>
      obtain ⟨effects, told⟩ := told ran
      exact follows.written told wellFormed
  | read =>
      unfold RulesSlot.watchRules
      dsimp only
      split
      next published stamped =>
        split
        · exact follows
        · exact follows.reread rfl rfl
      next => exact follows.reread rfl rfl

theorem WatchRun.follows {repo : WatchedRepo} {caseInsensitive : Bool}
    (run : WatchRun caseInsensitive Steady repo) : repo.Follows caseInsensitive := by
  induction run with
  | new =>
      refine ⟨Primary.consistent_of_empty 1, ⟨Primary.wellFormedForest_empty _, ?_⟩, ?_, ?_, ?_⟩
      · intro n x y path
        cases n with
        | zero => decide
        | succ n =>
            obtain ⟨z, ⟨row, node, holds, -⟩, -⟩ := path
            simp [Primary.Holds] at holds
      · intro head newest
        simp at newest
      · intro head stamped
        simp at stamped
      · intro rules published
        simp at published
  | step _ stepped wellFormed ih => exact stepped.follows ih wellFormed

omit [Patterns] in
/-- An index answers as itself read at another time. -/
theorem WatchRules.answers_head (rules : WatchRules) (head : Option Int64) :
    Answers { rules with head := head } rules := fun _ => ⟨rfl, rfl, rfl⟩

/-- Where no client's write that is taken to have moved no rule gives a holder of a rule a path, an
index stamped with the newest operation answers, for every path, as one read from the store.  A
write that moved no rule so changes no path's answer. -/
theorem rules_follow_store {repo : WatchedRepo} {caseInsensitive : Bool}
    (run : WatchRun caseInsensitive Steady repo) :
    (∀ rules, repo.slot.rules = some rules → repo.slot.validAt = some repo.store.log.head →
      rules.Answers (.load repo.store caseInsensitive)) ∧
    ∀ (transaction : Transaction) (effects : WriteEffects) (after : KvStore),
      transaction.perform repo.store = .ok (effects, after) →
      PathsWellFormed after.tx.primary →
      (WatchRules.load repo.store caseInsensitive).movedARule effects = false →
      GivesNoPath repo.store.tx.primary after.tx.primary →
      (WatchRules.load after caseInsensitive).Answers (.load repo.store caseInsensitive) := by
  have follows := run.follows
  refine ⟨fun rules published stamped => ?_, ?_⟩
  · obtain ⟨head, rfl⟩ := follows.current published stamped
    exact WatchRules.answers_head _ head
  · intro transaction effects after ran wellFormed quiet steady
    have told := Transaction.told follows.consistent ran
    have same := told.sameRules follows.consistent follows.wellFormed.bounded caseInsensitive quiet
      steady
    rw [WatchRules.load_congr follows.consistent.toIndexed told.consistent.toIndexed
      follows.wellFormed.bounded wellFormed.bounded same]
    exact WatchRules.answers_head _ _

/-! ### A rule the index does not know of -/

/-- Patterns that match the texts they are. -/
abbrev plainPatterns : Patterns where
  compile pattern := .ok fun text => text = pattern

/-- The first byte of a uuid: how deep the metarecords of the samples are, at most. -/
def sampleDepth (uuid : Uuid) : Nat := (uuid.bytes.headD 0).toNat

/-- Whether every position read in `mfr_path` is under a metarecord less deep. -/
def sampleShallow (store : Primary) : Bool :=
  (store.holders "mfr_path").all fun uuid => (store.rowsNamed uuid "mfr_path").all fun row =>
    match row.value.position with
    | some (some parent, _) => sampleDepth parent < sampleDepth uuid
    | _ => true

omit [Patterns] in
theorem bounded_of_sampleShallow {store : Primary} (indexed : store.Indexed)
    (shallow : sampleShallow store = true) : Bounded (store.Up "mfr_path") maxTreeDepth := by
  have below : ∀ {uuid parent}, store.Up "mfr_path" uuid parent →
      sampleDepth parent < sampleDepth uuid := by
    rintro uuid parent ⟨row, node, holds, named, placed⟩
    have member := indexed.mem_holders.mpr ⟨row, holds, named⟩
    have read := indexed.mem_rowsNamed.mpr ⟨holds, named⟩
    have lower := List.all_eq_true.mp (List.all_eq_true.mp shallow uuid member) row read
    simpa [placed] using lower
  have sum : ∀ {n uuid top}, Climbs (store.Up "mfr_path") n uuid top →
      n + sampleDepth top ≤ sampleDepth uuid := by
    intro n
    induction n with
    | zero =>
        intro uuid top path
        rw [Climbs] at path
        rw [path, Nat.zero_add]
    | succ n ih =>
        rintro uuid top ⟨parent, up, rest⟩
        have one := below up
        have others := ih rest
        omega
  intro n uuid top path
  have total := sum path
  have small : sampleDepth uuid < 256 := UInt8.toNat_lt _
  have room : maxTreeDepth = 1000 := rfl
  omega

/-- A client creates the root, a metarecord beside it, and a watched one under that. -/
def sampleBeside : Transaction where
  context := .new ⟨"beside", none, none⟩
  retention := .unlimited
  timestamp := 1
  calls :=
    [.createMetarecord (sampleUuids 1) [⟨"mfr_path", .treeRef none (.ofString "")⟩],
      .createMetarecord (sampleUuids 2) [⟨"mfr_path", .treeRef none (.ofString "foo")⟩],
      .createMetarecord (sampleUuids 3)
        [⟨"mfr_path", .treeRef (some (sampleUuids 2)) (.ofString "c")⟩,
          ⟨"mf_watch", .bool true⟩]]

/-- A client moves the metarecord between them under the root. -/
def sampleUnder : Transaction where
  context := .new ⟨"under", none, none⟩
  retention := .unlimited
  timestamp := 2
  calls :=
    [.setFieldAs .setField (sampleUuids 2) "mfr_path"
      (.treeRef (some (sampleUuids 1)) (.ofString "foo"))]

/-- The path of the watched metarecord. -/
def sampleRel : RelPath := [.ofString "foo", .ofString "c"]

omit [Externals] [Patterns] in
/-- The index is read between the two writes; the second is not taken to have moved a rule. -/
theorem sampleUnder_run :
    letI : Externals := plainExternals
    letI : Patterns := plainPatterns
    (sampleBeside.perform {} >>= fun first =>
      let slot := (({} : RulesSlot).watchRules first.2 false).2
      (fun second : WriteEffects × KvStore =>
        let settled := slot.settle second.2 second.1 false
        (decide (settled.validAt = some second.2.log.head),
          settled.rules.map fun rules => (rules.explain sampleRel).toOption,
          ((WatchRules.load second.2 false).explain sampleRel).toOption,
          sampleShallow first.2.tx.primary, sampleShallow second.2.tx.primary)) <$>
        sampleUnder.perform first.2) =
      .ok (true, some (some ⟨false, .noWatch, none, none, none⟩),
        some ⟨true, .directWatch, some "/foo/c", none, none⟩, true, true) := by
  decide +kernel

omit [Patterns] in
/-- A run of manual calls keeps the sample's forest well formed. -/
theorem wellFormed_of_sample {transaction : Transaction} {store after : KvStore}
    {effects : WriteEffects} (consistent : store.tx.primary.Consistent)
    (forests : ∀ field, store.tx.primary.WellFormedForest field)
    (ran : transaction.perform store = .ok (effects, after)) (manual : transaction.Manual)
    (shallow : sampleShallow after.tx.primary = true) :
    (∀ field, after.tx.primary.WellFormedForest field) ∧
      PathsWellFormed after.tx.primary := by
  have whole : transaction.run store = .ok after := by
    rw [Transaction.run_eq_perform, ran]
    rfl
  have kept := Transaction.wellFormed consistent manual forests whole
  have told := Transaction.told consistent ran
  exact ⟨kept, kept "mfr_path", bounded_of_sampleShallow told.consistent.toIndexed shallow⟩

omit [Externals] [Patterns] in
/-- The index is stamped with the newest operation, and does not know of the watched metarecord the
write gave a path. -/
theorem rules_go_stale :
    letI : Externals := plainExternals
    letI : Patterns := plainPatterns
    ∃ repo rules, WatchRun false (fun _ _ _ => True) repo ∧ repo.slot.rules = some rules ∧
      repo.slot.validAt = some repo.store.log.head ∧
      ¬rules.Answers (.load repo.store false) := by
  let _ : Externals := plainExternals
  let _ : Patterns := plainPatterns
  obtain ⟨⟨begun, first⟩, beside, rest⟩ := Except.bind_eq_ok.mp sampleUnder_run
  obtain ⟨⟨effects, second⟩, under, found⟩ := Except.map_eq_ok.mp rest
  simp only [Prod.mk.injEq, decide_eq_true_eq] at found
  obtain ⟨stamped, published, fresh, shallowFirst, shallowSecond⟩ := found
  have manual : sampleBeside.Manual ∧ sampleUnder.Manual := by
    constructor <;> intro made member <;>
      simp only [sampleBeside, sampleUnder, List.mem_cons, List.not_mem_nil, or_false] at member
    · rcases member with rfl | rfl | rfl <;> simp [Writer.Call.opTypes, OpType.isManual]
    · rw [member]
      simp [Writer.Call.opTypes, OpType.isManual]
  obtain ⟨forests, wellFormed⟩ := wellFormed_of_sample (Primary.consistent_of_empty 1)
    Primary.wellFormedForest_empty beside manual.1 shallowFirst
  have consistent := (Transaction.told (Primary.consistent_of_empty 1) beside).consistent
  have moved := (wellFormed_of_sample consistent forests under manual.2 shallowSecond).2
  obtain ⟨rules, held, noticed⟩ := Option.map_eq_some_iff.mp published
  refine ⟨_, rules, .step (.step (.step .new (.client sampleBeside beside trivial) wellFormed)
    .read wellFormed) (.client sampleUnder under trivial) moved, held, stamped, fun answers => ?_⟩
  have same := (answers sampleRel).1
  rw [same] at noticed
  exact absurd (noticed.symm.trans fresh) (by decide)

/-- A client creates the root, watched. -/
def sampleWatched : Transaction where
  context := .new ⟨"watched", none, none⟩
  retention := .unlimited
  timestamp := 1
  calls :=
    [.createMetarecord (sampleUuids 1)
      [⟨"mfr_path", .treeRef none (.ofString "")⟩, ⟨"mf_watch", .bool true⟩]]

/-- A client creates a metarecord under the root. -/
def sampleFile : Transaction where
  context := .new ⟨"file", none, none⟩
  retention := .unlimited
  timestamp := 2
  calls :=
    [.createMetarecord (sampleUuids 2)
      [⟨"mfr_path", .treeRef (some (sampleUuids 1)) (.ofString "a")⟩]]

omit [Externals] [Patterns] in
theorem sampleFile_run :
    letI : Externals := plainExternals
    letI : Patterns := plainPatterns
    (sampleWatched.perform {} >>= fun first =>
      let slot := (({} : RulesSlot).watchRules first.2 false).2
      (fun second : WriteEffects × KvStore =>
        let settled := slot.settle second.2 second.1 false
        (decide (settled.validAt = some second.2.log.head),
          settled.rules.map fun rules => (rules.explain [.ofString "a"]).toOption,
          decide (ruleHolders first.2.tx.primary = [sampleUuids 1]),
          decide (first.2.tx.primary.pathPosition (sampleUuids 1) = some (none, ⟨[]⟩)),
          sampleShallow first.2.tx.primary, sampleShallow second.2.tx.primary)) <$>
        sampleFile.perform first.2) =
      .ok (true, some (some ⟨true, .tracked, some "", none, none⟩), true, true, true, true) := by
  decide +kernel

omit [Externals] [Patterns] in
theorem rules_follow_store_file :
    letI : Externals := plainExternals
    letI : Patterns := plainPatterns
    ∃ repo rules, WatchRun false Steady repo ∧ repo.slot.rules = some rules ∧
      repo.slot.validAt = some repo.store.log.head ∧ rules.Answers (.load repo.store false) ∧
      (rules.explain [.ofString "a"]).toOption = some ⟨true, .tracked, some "", none, none⟩ := by
  let _ : Externals := plainExternals
  let _ : Patterns := plainPatterns
  obtain ⟨⟨begun, first⟩, watched, rest⟩ := Except.bind_eq_ok.mp sampleFile_run
  obtain ⟨⟨effects, second⟩, file, found⟩ := Except.map_eq_ok.mp rest
  simp only [Prod.mk.injEq, decide_eq_true_eq] at found
  obtain ⟨stamped, published, holders, position, shallowFirst, shallowSecond⟩ := found
  have manual : sampleWatched.Manual ∧ sampleFile.Manual := by
    constructor <;> intro made member <;>
      simp only [sampleWatched, sampleFile, List.mem_cons, List.not_mem_nil, or_false] at member <;>
      rw [member] <;> simp [Writer.Call.opTypes, OpType.isManual]
  obtain ⟨forests, wellFormed⟩ := wellFormed_of_sample (Primary.consistent_of_empty 1)
    Primary.wellFormedForest_empty watched manual.1 shallowFirst
  have consistent := (Transaction.told (Primary.consistent_of_empty 1) watched).consistent
  have placed := (wellFormed_of_sample consistent forests file manual.2 shallowSecond).2
  -- The only holder of a rule is the root, which has its path already.
  have steady : GivesNoPath first.tx.primary second.tx.primary := by
    intro uuid holder _ nowhere
    rw [holders, List.mem_singleton] at holder
    rw [holder] at nowhere
    exact absurd (Stands.root position rfl) (nowhere _)
  obtain ⟨rules, held, noticed⟩ := Option.map_eq_some_iff.mp published
  have unread : Steady {} begun first := by
    intro rules published
    simp at published
  have run : WatchRun false Steady ⟨second, (({} : RulesSlot).watchRules first false).2.settle
      second effects false⟩ :=
    .step (.step (.step .new (.client sampleWatched watched unread) wellFormed) .read wellFormed)
      (.client sampleFile file fun _ _ _ => steady) placed
  exact ⟨_, rules, run, held, stamped, (rules_follow_store run).1 rules held stamped, noticed⟩

end Metafolder
