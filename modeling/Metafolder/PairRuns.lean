import Metafolder.PairLinks

/-!
# Runs of the sync store

Whatever calls are made, the links are one-to-one, found by either record, and only their snapshots
are kept.  A snapshot is read back exactly when its values are kept and its places fit their keys.
-/

namespace Metafolder.SyncDb

open Sync (Side)

/-- A link the store has. -/
def Holds (db : SyncDb) (link : Link) : Prop := db.getLink link.uuid = .ok (some link)

/-- The links pair each record with one of the other side, and each is found by either. -/
structure OneToOne (db : SyncDb) : Prop where
  unique : ∀ side {first second : Link}, db.Holds first → db.Holds second →
    first.record side = second.record side → first = second
  inverse : ∀ side key held, (db.index side).get key = some held ↔
    ∃ link, db.Holds link ∧ (link.record side).bytes = key ∧ link.uuid.bytes = held
  found : ∀ side record link, db.linkForRecord side record = .ok (some link) ↔
    db.Holds link ∧ link.record side = record

/-- Only links the store has have a snapshot. -/
def Owned (db : SyncDb) : Prop := ∀ key stored, db.snaps.get key = some stored →
  ∃ link place, db.Holds link ∧ key = snapKey link.uuid place

/-- A link as the table of links keeps it. -/
def Listed (db : SyncDb) (link : Link) : Prop := db.links.get link.uuid.bytes = some (encLink link)

theorem Listed.holds {db : SyncDb} {link : Link} (listed : db.Listed link) : db.Holds link := by
  rw [Holds, getLink, listed, transpose, decLink_encLink]
  rfl

theorem Listed.unique {db : SyncDb} {first second : Link} (listed : db.Listed first)
    (other : db.Listed second) (named : first.uuid = second.uuid) : first = second := by
  apply encLink_injective named
  rw [Listed, named, other] at listed
  exact (Option.some.inj listed).symm

/-! ### Links added and removed -/

/-- A link put in the tables. -/
def add (db : SyncDb) (link : Link) : SyncDb :=
  { db with
    links := db.links.put link.uuid.bytes (encLink link)
    byA := db.byA.put link.recordA.bytes link.uuid.bytes
    byB := db.byB.put link.recordB.bytes link.uuid.bytes }

/-- A link taken out of the tables, with its snapshot. -/
def remove (db : SyncDb) (link : Link) : SyncDb where
  links := db.links.delete link.uuid.bytes
  byA := db.byA.delete link.recordA.bytes
  byB := db.byB.delete link.recordB.bytes
  snaps := deleteSnapshot db.snaps link.uuid

@[simp]
theorem index_add (db : SyncDb) (link : Link) (side : Side) :
    (db.add link).index side = (db.index side).put (link.record side).bytes link.uuid.bytes := by
  cases side <;> rfl

@[simp]
theorem index_remove (db : SyncDb) (link : Link) (side : Side) :
    (db.remove link).index side = (db.index side).delete (link.record side).bytes := by
  cases side <;> rfl

/-- A link put under a uuid takes the place of the one there. -/
theorem listed_put (db : SyncDb) (link other : Link) (byA byB : Table Bytes)
    (snaps : Table StoredField) :
    Listed ⟨db.links.put link.uuid.bytes (encLink link), byA, byB, snaps⟩ other ↔
      other = link ∨ other.uuid ≠ link.uuid ∧ db.Listed other := by
  rw [Listed, Table.get_put]
  split
  · next same =>
    have named : link.uuid = other.uuid := Uuid.ext same
    constructor
    · intro written
      exact .inl (encLink_injective named (Option.some.inj written)).symm
    · intro either
      cases either with
      | inl isLink => rw [isLink]
      | inr kept => exact absurd named.symm kept.1
  · next differ =>
    constructor
    · intro listed
      exact .inr ⟨fun named => differ (by rw [named]), listed⟩
    · intro either
      cases either with
      | inl isLink => exact absurd (by rw [isLink]) differ
      | inr kept => exact kept.2

theorem listed_remove (db : SyncDb) (link other : Link) :
    (db.remove link).Listed other ↔ other.uuid ≠ link.uuid ∧ db.Listed other := by
  rw [Listed, remove, Table.get_delete]
  split
  · next same => exact iff_of_false nofun fun kept => kept.1 (Uuid.ext same).symm
  · next differ => exact ⟨fun listed => ⟨fun named => differ (by rw [named]), listed⟩, And.right⟩

variable [FloatJson]

/-- What calls keep of the store, with the snapshot last committed for each link. -/
structure Sound (db : SyncDb) (last : Uuid → List SnapshotField) : Prop where
  links : ∀ key bytes, db.links.get key = some bytes →
    ∃ link, key = link.uuid.bytes ∧ db.Listed link
  inverse : ∀ side key held, (db.index side).get key = some held ↔
    ∃ link, db.Listed link ∧ (link.record side).bytes = key ∧ link.uuid.bytes = held
  owned : ∀ key stored, db.snaps.get key = some stored →
    ∃ link place, db.Listed link ∧ key = snapKey link.uuid place
  snaps : ∀ uuid place, (last uuid).length ≤ 2 ^ 32 → place < 2 ^ 32 →
    db.snaps.get (snapKey uuid place) = ((last uuid)[place]?).map encField

namespace Sound

variable {db : SyncDb} {last : Uuid → List SnapshotField}

theorem opened : Sound {} fun _ => [] where
  links key bytes held := by
    rw [Table.get_empty] at held
    cases held
  inverse side key held := by
    have empty : ({} : SyncDb).index side = ∅ := by cases side <;> rfl
    rw [empty, Table.get_empty]
    refine iff_of_false nofun fun found => ?_
    obtain ⟨link, listed, -⟩ := found
    rw [Listed, Table.get_empty] at listed
    cases listed
  owned key stored held := by
    rw [Table.get_empty] at held
    cases held
  snaps uuid place _ _ := by
    rw [Table.get_empty]
    rfl

/-- Every link read is one the store lists. -/
theorem getLink_eq (sound : db.Sound last) (uuid : Uuid) :
    (db.getLink uuid = .ok none ∧ db.links.get uuid.bytes = none) ∨
      ∃ link, link.uuid = uuid ∧ db.Listed link ∧ db.getLink uuid = .ok (some link) := by
  cases held : db.links.get uuid.bytes with
  | none =>
      refine .inl ⟨?_, rfl⟩
      rw [getLink, held]
      rfl
  | some bytes =>
      obtain ⟨link, named, listed⟩ := sound.links _ _ held
      have same : link.uuid = uuid := (Uuid.ext named).symm
      refine .inr ⟨link, same, listed, ?_⟩
      rw [← same]
      exact listed.holds

theorem holds_iff (sound : db.Sound last) (link : Link) : db.Holds link ↔ db.Listed link := by
  constructor
  · intro holds
    cases sound.getLink_eq link.uuid with
    | inl absent =>
        rw [Holds, absent.1] at holds
        cases holds
    | inr present =>
        obtain ⟨other, named, listed, read⟩ := present
        rw [Holds, read] at holds
        cases holds
        exact listed
  · exact Listed.holds

/-- A record is in one link. -/
theorem record_unique (sound : db.Sound last) (side : Side) {first second : Link}
    (listed : db.Listed first) (other : db.Listed second)
    (same : first.record side = second.record side) : first = second := by
  have here := (sound.inverse side _ _).mpr ⟨first, listed, rfl, rfl⟩
  have there := (sound.inverse side _ _).mpr ⟨second, other, rfl, rfl⟩
  rw [same, there] at here
  exact listed.unique other (Uuid.ext (Option.some.inj here)).symm

theorem oneToOne (sound : db.Sound last) : db.OneToOne where
  unique side first second holds other same :=
    sound.record_unique side ((sound.holds_iff _).mp holds) ((sound.holds_iff _).mp other) same
  inverse side key held := by
    simp only [sound.holds_iff]
    exact sound.inverse side key held
  found side record link := by
    rw [sound.holds_iff, linkForRecord]
    cases held : (db.index side).get record.bytes with
    | none =>
        refine iff_of_false nofun fun found => ?_
        have kept := (sound.inverse side _ _).mpr ⟨link, found.1, rfl, rfl⟩
        rw [found.2, held] at kept
        cases kept
    | some bytes =>
        obtain ⟨other, listed, recorded, named⟩ := (sound.inverse side _ _).mp held
        rw [← named]
        change (bytesToUuid _ >>= _) = _ ↔ _
        rw [bytesToUuid_bytes]
        change db.getLink other.uuid = _ ↔ _
        rw [listed.holds]
        constructor
        · intro same
          cases same
          exact ⟨listed, Uuid.ext recorded⟩
        · intro found
          have same : other.record side = link.record side := (Uuid.ext recorded).trans found.2.symm
          rw [sound.record_unique side listed found.1 same]

theorem isOwned (sound : db.Sound last) : db.Owned := by
  intro key stored held
  obtain ⟨link, place, listed, same⟩ := sound.owned key stored held
  exact ⟨link, place, listed.holds, same⟩

/-- A uuid without a link has no snapshot. -/
theorem unsnapped (sound : db.Sound last) {uuid : Uuid} (absent : db.links.get uuid.bytes = none)
    (place : Nat) : db.snaps.get (snapKey uuid place) = none := by
  cases held : db.snaps.get (snapKey uuid place) with
  | none => rfl
  | some stored =>
      obtain ⟨link, next, listed, same⟩ := sound.owned _ _ held
      rw [Listed, ← (Uuid.bytes_append_inj same).1, absent] at listed
      cases listed

/-! ### What a call leaves -/

/-- A link of two records that had none, under a uuid of its own. -/
theorem add (sound : db.Sound last) (link : Link) (fresh : db.links.get link.uuid.bytes = none)
    (free : ∀ side, (db.index side).get (link.record side).bytes = none) :
    (db.add link).Sound last := by
  have listed_add (other : Link) : (db.add link).Listed other ↔ other = link ∨ db.Listed other := by
    rw [SyncDb.add, listed_put]
    refine or_congr_right (and_iff_right_of_imp fun listed named => ?_)
    rw [Listed, named, fresh] at listed
    cases listed
  constructor
  case links =>
    intro key bytes held
    rw [SyncDb.add, Table.get_put] at held
    split at held
    · next same => exact ⟨link, same.symm, (listed_add link).mpr (.inl rfl)⟩
    · obtain ⟨other, named, listed⟩ := sound.links _ _ held
      exact ⟨other, named, (listed_add other).mpr (.inr listed)⟩
  case inverse =>
    intro side key held
    rw [index_add, Table.get_put]
    simp only [listed_add]
    split
    · next same =>
      constructor
      · intro given
        exact ⟨link, .inl rfl, same, Option.some.inj given⟩
      · intro found
        obtain ⟨other, isLink | listed, recorded, named⟩ := found
        · rw [← named, isLink]
        · have kept := (sound.inverse side _ _).mpr ⟨other, listed, recorded, rfl⟩
          rw [← same, free] at kept
          cases kept
    · next differ =>
      rw [sound.inverse]
      constructor
      · intro found
        obtain ⟨other, listed, recorded, named⟩ := found
        exact ⟨other, .inr listed, recorded, named⟩
      · intro found
        obtain ⟨other, isLink | listed, recorded, named⟩ := found
        · exact absurd recorded (by rw [isLink]; exact differ)
        · exact ⟨other, listed, recorded, named⟩
  case owned =>
    intro key stored held
    obtain ⟨other, place, listed, same⟩ := sound.owned key stored held
    exact ⟨other, place, (listed_add other).mpr (.inr listed), same⟩
  case snaps => exact sound.snaps

/-- A link leaves with its snapshot. -/
theorem remove (sound : db.Sound last) {link : Link} (listed : db.Listed link) :
    (db.remove link).Sound (Function.update last link.uuid []) := by
  constructor
  case links =>
    intro key bytes held
    rw [SyncDb.remove, Table.get_delete] at held
    split at held
    · cases held
    · next differ =>
      obtain ⟨other, named, kept⟩ := sound.links _ _ held
      refine ⟨other, named, (listed_remove db link other).mpr ⟨fun same => differ ?_, kept⟩⟩
      rw [named, same]
  case inverse =>
    intro side key held
    rw [index_remove, Table.get_delete]
    simp only [listed_remove]
    split
    · next same =>
      refine iff_of_false nofun fun found => ?_
      obtain ⟨other, ⟨differ, kept⟩, recorded, -⟩ := found
      have shared : other.record side = link.record side := Uuid.ext (recorded.trans same.symm)
      exact differ (by rw [sound.record_unique side kept listed shared])
    · next differ =>
      rw [sound.inverse]
      constructor
      · intro found
        obtain ⟨other, kept, recorded, named⟩ := found
        refine ⟨other, ⟨fun same => differ ?_, kept⟩, recorded, named⟩
        rw [← recorded, kept.unique listed same]
      · intro found
        obtain ⟨other, kept, recorded, named⟩ := found
        exact ⟨other, kept.2, recorded, named⟩
  case owned =>
    intro key stored held
    obtain ⟨other, place, kept, same⟩ := sound.owned key stored (get_of_deleteSnapshot held)
    refine ⟨other, place, (listed_remove db link other).mpr ⟨fun named => ?_, kept⟩, same⟩
    rw [same, SyncDb.remove, get_deleteSnapshot, if_pos named] at held
    cases held
  case snaps =>
    intro uuid place short small
    rw [SyncDb.remove, get_deleteSnapshot]
    split
    · next same =>
      rw [same, Function.update_self]
      rfl
    · next differ =>
      rw [Function.update_of_ne differ] at short ⊢
      exact sound.snaps uuid place short small

/-- A link is made of two records that had none. -/
theorem createLink {recordA recordB uuid : Uuid} {after : SyncDb} (sound : db.Sound last)
    (fresh : db.links.get uuid.bytes = none)
    (made : db.createLink recordA recordB uuid = .ok after) : after.Sound last := by
  obtain ⟨⟨⟩, free, made⟩ := Except.bind_eq_ok.mp made
  rw [refuseIf_eq_ok] at free
  have added : db.add ⟨uuid, recordA, recordB, none, none⟩ = after := Except.ok.inj made
  have freeOf (side : Side) :
      (db.index side).get (Link.record ⟨uuid, recordA, recordB, none, none⟩ side).bytes = none := by
    rw [not_or, Option.not_isSome_iff_eq_none, Option.not_isSome_iff_eq_none] at free
    cases side with
    | a => exact free.1
    | b => exact free.2
  rw [← added]
  exact sound.add _ fresh freeOf

theorem deleteLink {uuid : Uuid} {after : SyncDb} (sound : db.Sound last)
    (made : db.deleteLink uuid = .ok after) : after.Sound (Function.update last uuid []) := by
  cases sound.getLink_eq uuid with
  | inl absent =>
      rw [SyncDb.deleteLink, absent.1] at made
      obtain rfl := Except.ok.inj made
      refine { sound with snaps := fun other place short small => ?_ }
      by_cases same : other = uuid
      · rw [same, Function.update_self]
        exact sound.unsnapped absent.2 place
      · rw [Function.update_of_ne same] at short ⊢
        exact sound.snaps other place short small
  | inr present =>
      obtain ⟨link, named, listed, read⟩ := present
      rw [SyncDb.deleteLink, read] at made
      have removed : db.remove link = after := by
        rw [← named] at made
        exact Except.ok.inj made
      rw [← removed, ← named]
      exact sound.remove listed

/-- A link whose versions are set, and its snapshot replaced. -/
theorem replace (sound : db.Sound last) {link updated : Link} (listed : db.Listed link)
    (named : updated.uuid = link.uuid) (paired : ∀ side, updated.record side = link.record side)
    (fields : List SnapshotField) :
    Sound { db with
      links := db.links.put updated.uuid.bytes (encLink updated)
      snaps := putFields (deleteSnapshot db.snaps updated.uuid) updated.uuid 0 fields }
      (Function.update last updated.uuid fields) := by
  constructor
  case links =>
    intro key bytes held
    rw [Table.get_put] at held
    split at held
    · next same => exact ⟨updated, same.symm, (listed_put db updated updated _ _ _).mpr (.inl rfl)⟩
    · next differ =>
      obtain ⟨other, name, kept⟩ := sound.links _ _ held
      refine ⟨other, name, (listed_put db updated other _ _ _).mpr (.inr ⟨fun same => differ ?_, kept⟩)⟩
      rw [name, same]
  case inverse =>
    intro side key held
    have same : SyncDb.index { db with
        links := db.links.put updated.uuid.bytes (encLink updated)
        snaps := putFields (deleteSnapshot db.snaps updated.uuid) updated.uuid 0 fields } side =
        db.index side := by
      cases side <;> rfl
    rw [same, sound.inverse]
    constructor
    · intro found
      obtain ⟨other, kept, recorded, name⟩ := found
      by_cases here : other.uuid = updated.uuid
      · obtain rfl := kept.unique listed (here.trans named)
        exact ⟨updated, (listed_put db updated updated _ _ _).mpr (.inl rfl),
          (congrArg Uuid.bytes (paired side)).trans recorded,
          (congrArg Uuid.bytes named).trans name⟩
      · exact ⟨other, (listed_put db updated other _ _ _).mpr (.inr ⟨here, kept⟩), recorded, name⟩
    · intro found
      obtain ⟨other, kept, recorded, name⟩ := found
      cases (listed_put db updated other _ _ _).mp kept with
      | inl isUpdated =>
          rw [isUpdated, paired side] at recorded
          rw [isUpdated, named] at name
          exact ⟨link, listed, recorded, name⟩
      | inr kept => exact ⟨other, kept.2, recorded, name⟩
  case owned =>
    intro key stored held
    cases get_of_putFields _ _ _ held with
    | inl before =>
        obtain ⟨other, place, kept, same⟩ := sound.owned key stored (get_of_deleteSnapshot before)
        refine ⟨other, place, (listed_put db updated other _ _ _).mpr (.inr ⟨fun name => ?_, kept⟩), same⟩
        rw [same, get_deleteSnapshot, if_pos name] at before
        cases before
    | inr put =>
        obtain ⟨place, same⟩ := put
        exact ⟨updated, place, (listed_put db updated updated _ _ _).mpr (.inl rfl), same⟩
  case snaps =>
    intro uuid place short small
    by_cases here : uuid = updated.uuid
    · rw [here, Function.update_self] at short ⊢
      rw [get_putFields _ small _ _ _ (by omega), get_deleteSnapshot, if_pos rfl]
      split
      · rfl
      · next beyond =>
        rw [List.getElem?_eq_none (by omega)]
        rfl
    · rw [Function.update_of_ne here] at short ⊢
      rw [get_putFields_of_ne here, get_deleteSnapshot, if_neg here]
      exact sound.snaps uuid place short small

/-- A commit keeps the records of its link, and replaces its snapshot. -/
theorem commitOne {commit : Commit} {after : SyncDb} (sound : db.Sound last)
    (made : db.commitOne commit = .ok after) :
    after.Sound (Function.update last commit.link commit.snapshot) := by
  cases sound.getLink_eq commit.link with
  | inl absent =>
      rw [SyncDb.commitOne, absent.1] at made
      cases made
  | inr present =>
      obtain ⟨link, named, listed, read⟩ := present
      rw [SyncDb.commitOne, read] at made
      have replaced := @replace _ _ _ sound link { link with
        versionA := some commit.versionA, versionB := some commit.versionB } listed rfl
        (fun side => by cases side <;> rfl) commit.snapshot
      rw [← named] at made ⊢
      obtain rfl := Except.ok.inj made
      exact replaced

/-- A batch replaces the snapshots of its links, one after the other. -/
theorem commitBatch {commits : List Commit} {after : SyncDb} (sound : db.Sound last)
    (made : db.commitBatch commits = .ok after) :
    after.Sound (committed last (.commitBatch commits)) := by
  induction commits generalizing db last with
  | nil =>
      obtain rfl := Except.ok.inj made
      exact sound
  | cons commit rest ih =>
      rw [SyncDb.commitBatch, List.foldlM_cons] at made
      obtain ⟨middle, first, made⟩ := Except.bind_eq_ok.mp made
      exact ih (sound.commitOne first) made

end Sound

theorem step_of_ok {db after : SyncDb} {call : Call} (made : db.perform call = .ok after) :
    db.step call = after := by
  rw [step, made]
  rfl

theorem step_of_error {db : SyncDb} {call : Call} {failure : Failure}
    (refused : db.perform call = .error failure) : db.step call = db := by
  rw [step, refused]
  rfl

/-- Every run keeps the store sound. -/
theorem Run.sound {db : SyncDb} {last : Uuid → List SnapshotField} (run : Run db last) :
    db.Sound last := by
  induction run with
  | opened => exact Sound.opened
  | @accepted db after last call _ fresh made ih =>
      rw [step_of_ok made]
      cases call with
      | createLink recordA recordB uuid => exact ih.createLink fresh made
      | deleteLink uuid => exact ih.deleteLink made
      | commitBatch commits => exact ih.commitBatch made
  | refused _ failed ih =>
      rw [step_of_error failed]
      exact ih

/-! ### Reading a snapshot -/

omit [FloatJson] in
/-- Each item is read as itself where the list of them is. -/
theorem mapM_eq_ok_self {α : Type} {read : α → Outcome α} {items : List α} :
    items.mapM read = .ok items ↔ ∀ item ∈ items, read item = .ok item := by
  induction items with
  | nil => exact iff_of_true rfl nofun
  | cons item rest ih =>
      rw [List.mapM_cons, List.forall_mem_cons, ← ih]
      constructor
      · intro ran
        obtain ⟨first, here, ran⟩ := Except.bind_eq_ok.mp ran
        obtain ⟨others, there, same⟩ := Except.bind_eq_ok.mp ran
        obtain ⟨rfl, rfl⟩ := List.cons.inj (Except.ok.inj same)
        exact ⟨here, there⟩
      · intro each
        rw [each.1, each.2]
        rfl

namespace Sound

variable {db : SyncDb} {last : Uuid → List SnapshotField}

/-- The rows of a snapshot are its fields, in order. -/
theorem prefixIter_eq (sound : db.Sound last) {uuid : Uuid} (short : (last uuid).length ≤ 2 ^ 32) :
    db.snaps.prefixIter uuid.bytes =
      (last uuid).zipIdx.map fun entry => (snapKey uuid entry.2, encField entry.1) := by
  have ordered : (db.snaps.prefixIter uuid.bytes).Pairwise fun first second =>
      compare first.1 second.1 = .lt := db.snaps.pairwise_entries.filter _
  have placed : ((last uuid).zipIdx.map fun entry =>
      (snapKey uuid entry.2, encField entry.1)).Pairwise fun first second =>
        compare first.1 second.1 = .lt := by
    rw [List.pairwise_iff_getElem]
    intro place next inside within less
    rw [List.length_map, List.length_zipIdx] at inside within
    simp only [List.getElem_map, List.getElem_zipIdx, Nat.zero_add]
    exact compare_snapKey less (by omega)
  have irrefl {entries : List (Bytes × StoredField)} (sorted : entries.Pairwise fun first second =>
      compare first.1 second.1 = .lt) : entries.Nodup := by
    refine sorted.imp fun less same => ?_
    rw [same, Std.ReflOrd.compare_self] at less
    cases less
  refine List.Perm.eq_of_pairwise ?_ ordered placed ?_
  · intro first second _ _ less greater
    rw [Std.OrientedOrd.eq_swap, less] at greater
    cases greater
  · refine (List.perm_ext_iff_of_nodup (irrefl ordered) (irrefl placed)).mpr ?_
    intro entry
    obtain ⟨key, stored⟩ := entry
    rw [Table.mem_prefixIter, List.mem_map]
    constructor
    · intro held
      obtain ⟨link, place, -, keyed⟩ := sound.owned key stored held.2
      have named : uuid = link.uuid := (Uuid.prefix_iff _ _ _).mp (keyed ▸ held.1)
      have small : place % 2 ^ 32 < 2 ^ 32 := Nat.mod_lt _ (by omega)
      have there := sound.snaps uuid _ short small
      rw [snapKey_mod, named, ← keyed, held.2] at there
      obtain ⟨field, listed, written⟩ := Option.map_eq_some_iff.mp there.symm
      refine ⟨(field, place % 2 ^ 32), List.mk_mem_zipIdx_iff_getElem?.mpr ?_, ?_⟩
      · rw [named]
        exact listed
      · rw [snapKey_mod, named, ← keyed, written]
    · intro found
      obtain ⟨⟨field, place⟩, member, same⟩ := found
      have listed := List.mk_mem_zipIdx_iff_getElem?.mp member
      have within : place < (last uuid).length := (List.getElem?_eq_some_iff.mp listed).1
      obtain ⟨rfl, rfl⟩ := Prod.mk.inj same
      refine ⟨List.prefix_append _ _, ?_⟩
      rw [sound.snaps uuid place short (by omega), listed]
      rfl

/-- A link has no more rows than a `u32` has values. -/
theorem length_prefixIter_le (sound : db.Sound last) (uuid : Uuid) :
    (db.snaps.prefixIter uuid.bytes).length ≤ 2 ^ 32 := by
  let place (entry : Bytes × StoredField) : Nat := ByteCode.ofBigEndian (entry.1.drop 16)
  have keyed {entry : Bytes × StoredField} (member : entry ∈ db.snaps.prefixIter uuid.bytes) :
      place entry < 2 ^ 32 ∧ entry.1 = snapKey uuid (place entry) := by
    obtain ⟨key, stored⟩ := entry
    have held := (Table.mem_prefixIter _ _ _ _).mp member
    obtain ⟨link, next, -, same⟩ := sound.owned key stored held.2
    have named : uuid = link.uuid := (Uuid.prefix_iff _ _ _).mp (same ▸ held.1)
    have counted : place (key, stored) = next % 2 ^ 32 := by
      have behind : (snapKey link.uuid next).drop 16 = ByteCode.bigEndian 4 next := by
        rw [snapKey, ← link.uuid.size, List.drop_left]
      change ByteCode.ofBigEndian (key.drop 16) = _
      rw [same, behind, ByteCode.ofBigEndian_bigEndian]
      rfl
    rw [counted, snapKey_mod, named]
    exact ⟨Nat.mod_lt _ (by omega), same⟩
  have distinct : ((db.snaps.prefixIter uuid.bytes).map place).Nodup := by
    refine (List.nodup_map_iff_inj_on (db.snaps.nodup_prefixIter _)).mpr ?_
    intro first here second there same
    obtain ⟨key, stored⟩ := first
    obtain ⟨other, held⟩ := second
    have keys : key = other := by
      have named := (keyed here).2
      rw [same, ← (keyed there).2] at named
      exact named
    have kept := ((Table.mem_prefixIter _ _ _ _).mp here).2
    rw [keys, ((Table.mem_prefixIter _ _ _ _).mp there).2] at kept
    rw [keys, Option.some.inj kept]
  have bounded : (db.snaps.prefixIter uuid.bytes).map place ⊆ List.range (2 ^ 32) := by
    intro next member
    obtain ⟨entry, listed, same⟩ := List.mem_map.mp member
    rw [← same]
    exact List.mem_range.mpr (keyed listed).1
  have counted := (distinct.subperm bounded).length_le
  rwa [List.length_map, List.length_range] at counted

/-- A snapshot is read back exactly when its values are kept and its places fit their keys. -/
theorem readSnapshot_iff (sound : db.Sound last) (uuid : Uuid) :
    db.readSnapshot uuid = .ok (last uuid) ↔
      (∀ field ∈ last uuid, Kept field.value) ∧ (last uuid).length ≤ 2 ^ 32 := by
  cases Nat.lt_or_ge (2 ^ 32) (last uuid).length with
  | inl long =>
      refine iff_of_false (fun read => ?_) fun kept => absurd kept.2 (by omega)
      have counted := Except.length_of_mapM read
      have bounded := sound.length_prefixIter_le uuid
      omega
  | inr short =>
      rw [and_iff_left short, readSnapshot, sound.prefixIter_eq short]
      have rows : ((last uuid).zipIdx.map fun entry => (snapKey uuid entry.2, encField entry.1)).mapM
          (fun entry => decField entry.2) = (last uuid).mapM fun field => decField (encField field) := by
        have fields : (last uuid).zipIdx.map Prod.fst = last uuid := List.zipIdx_map_fst 0 _
        rw [List.mapM_map]
        conv_rhs => rw [← fields]
        rw [List.mapM_map]
        rfl
      rw [rows, mapM_eq_ok_self]
      exact forall₂_congr fun field _ => decField_eq_iff field

end Sound

/-- In every run the links are one-to-one and found by their records, only links have snapshots, a
refused call changes nothing, and a snapshot is read back as committed exactly when its values are
kept and its places fit a `u32`. -/
theorem sync_store_sound {db : SyncDb} {last : Uuid → List SnapshotField} (run : Run db last) :
    db.OneToOne ∧ db.Owned ∧
      (∀ call failure, db.perform call = .error failure → db.step call = db) ∧
      ∀ link, db.Holds link → (db.readSnapshot link.uuid = .ok (last link.uuid) ↔
        (∀ field ∈ last link.uuid, Kept field.value) ∧ (last link.uuid).length ≤ 2 ^ 32) :=
  ⟨run.sound.oneToOne, run.sound.isOwned, fun _ _ => step_of_error,
    fun link _ => run.sound.readSnapshot_iff link.uuid⟩

/-! ### A pair of records -/

omit [FloatJson]

/-- A JSON library for the runs below: it writes one and a half as `1.5`, and reads that back. -/
abbrev sampleJson : FloatJson where
  write f := if f.exponent = 2047 then none else if f = ⟨0x3FF8000000000000⟩ then some "1.5".asBytes
    else some (toString f.bits).asBytes
  read text := if text = "1.5".asBytes then some ⟨0x3FF8000000000000⟩ else none
  write_nonfinite _ nonfinite := if_pos nonfinite

/-- A uuid of one byte repeated. -/
abbrev sampleUuid (byte : UInt8) : Uuid := ⟨List.replicate 16 byte, Uuid.length_filled byte⟩

/-- A float both held, a position with a name in no encoding, and a size one held alone. -/
abbrev sampleFields : List SnapshotField :=
  [⟨"rating", .float ⟨0x3FF8000000000000⟩, none, none⟩,
    ⟨"mfr_path", .treeRef (some (sampleUuid 5)) ⟨[0x63, 0xE9]⟩, some (sampleUuid 6), none⟩,
    ⟨"mfr_size", .int 3, none, some .a⟩]

/-- The store once two records are linked and a snapshot of theirs is committed. -/
abbrev sampleStore (fields : List SnapshotField) : SyncDb :=
  let _ : FloatJson := sampleJson
  step (step {} (.createLink (sampleUuid 1) (sampleUuid 2) (sampleUuid 3)))
    (.commitBatch [⟨sampleUuid 3, 1, 2, fields⟩])

theorem sampleStore_run (fields : List SnapshotField) :
    @Run sampleJson (sampleStore fields) (Function.update (fun _ => []) (sampleUuid 3) fields) := by
  let _ : FloatJson := sampleJson
  have linked : Run (step {} (.createLink (sampleUuid 1) (sampleUuid 2) (sampleUuid 3)))
      fun _ => [] := .accepted .opened (Table.get_empty _) rfl
  cases found : perform (step {} (.createLink (sampleUuid 1) (sampleUuid 2) (sampleUuid 3)))
      (.commitBatch [⟨sampleUuid 3, 1, 2, fields⟩]) with
  | error failure => cases found
  | ok after => exact .accepted linked trivial found

/-- The links pair the records of a run, and its snapshot is read back as committed. -/
theorem sync_store_sound_sample : (sampleStore sampleFields).OneToOne ∧
    @readSnapshot sampleJson (sampleStore sampleFields) (sampleUuid 3) = .ok sampleFields := by
  let _ : FloatJson := sampleJson
  have sound := sync_store_sound (sampleStore_run sampleFields)
  have held : (sampleStore sampleFields).Holds
      ⟨sampleUuid 3, sampleUuid 1, sampleUuid 2, some 1, some 2⟩ := by
    rw [Holds]
    decide +kernel
  have read := (sound.2.2.2 _ held).mpr
  rw [Function.update_self] at read
  refine ⟨sound.1, read ⟨?_, by decide⟩⟩
  rw [List.forall_mem_cons, List.forall_mem_cons, List.forall_mem_cons]
  refine ⟨⟨rfl, fun f same => ?_⟩, (kept_of_real rfl).mpr (by decide), (kept_of_real rfl).mpr rfl,
    nofun⟩
  cases same
  decide +kernel

/-- A float a record can hold is lost: JSON has no number for an infinity. -/
theorem infinity_unread : ¬∀ (json : FloatJson) (db : SyncDb) (last : Uuid → List SnapshotField),
    @Run json db last → ∀ link, db.Holds link →
      @readSnapshot json db link.uuid = .ok (last link.uuid) := by
  intro claim
  let infinite : SnapshotField := ⟨"rating", .float ⟨0x7FF0000000000000⟩, none, none⟩
  have read := claim sampleJson _ _ (sampleStore_run [infinite])
    ⟨sampleUuid 3, sampleUuid 1, sampleUuid 2, some 1, some 2⟩ (by rw [Holds]; decide +kernel)
  have failed : (@readSnapshot sampleJson (sampleStore [infinite]) (sampleUuid 3)).toOption = none := by
    decide +kernel
  rw [read] at failed
  cases failed

end Metafolder.SyncDb
