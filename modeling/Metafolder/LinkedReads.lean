import Metafolder.Linked
import Metafolder.LinkingReads
import Metafolder.Lookups
import Metafolder.TreePaths

/-!
# A phase plans the same whatever was read in bulk

What is held in memory is what the daemons hold, whichever bulk requests were answered, and a record
whose paths count as read has all of them.  An answer from memory then is the daemon's own, but for the
order in which the paths of a record come, on which no decision rests.
-/

namespace Metafolder
namespace Sync

/-! ### Chunks -/

theorem mem_of_mem_toChunks_go {α : Type} {size : Nat} {rest : List α} {open_ : Array α}
    {closed : Array (List α)} {chunk : List α}
    (listed : chunk ∈ List.toChunks.go size rest open_ closed) {item : α} (member : item ∈ chunk) :
    item ∈ rest ∨ item ∈ open_ ∨ ∃ earlier ∈ closed, item ∈ earlier := by
  induction rest generalizing open_ closed with
  | nil =>
      rw [List.toChunks.go, Array.mem_toList_iff, Array.mem_push] at listed
      rcases listed with older | rfl
      · exact .inr (.inr ⟨chunk, older, member⟩)
      · exact .inr (.inl (Array.mem_toList_iff.mp member))
  | cons head tail ih =>
      rw [List.toChunks.go] at listed
      split at listed
      · rcases ih listed with later | now | ⟨earlier, older, held⟩
        · exact .inl (List.mem_cons_of_mem _ later)
        · have : item = head := by simpa using now
          exact .inl (this ▸ List.mem_cons_self)
        · rcases Array.mem_push.mp older with older | rfl
          · exact .inr (.inr ⟨earlier, older, held⟩)
          · exact .inr (.inl (Array.mem_toList_iff.mp held))
      · rcases ih listed with later | now | earlier
        · exact .inl (List.mem_cons_of_mem _ later)
        · rcases Array.mem_push.mp now with now | rfl
          · exact .inr (.inl now)
          · exact .inl List.mem_cons_self
        · exact .inr (.inr earlier)

theorem mem_of_mem_toChunks {α : Type} {size : Nat} {items chunk : List α}
    (listed : chunk ∈ items.toChunks size) {item : α} (member : item ∈ chunk) : item ∈ items := by
  cases items with
  | nil => simp [List.toChunks] at listed
  | cons head tail =>
      cases size with
      | zero =>
          rw [List.mem_singleton.mp listed] at member
          exact member
      | succ size =>
          rcases mem_of_mem_toChunks_go listed member with later | now | ⟨earlier, older, -⟩
          · exact List.mem_cons_of_mem _ later
          · have : item = head := by simpa using now
            exact this ▸ List.mem_cons_self
          · simp at older

/-! ### Lists with the same members -/

theorem nil_congr {α : Type} {first second : List α}
    (same : ∀ item, item ∈ first ↔ item ∈ second) : first = [] ↔ second = [] := by
  rw [List.eq_nil_iff_forall_not_mem, List.eq_nil_iff_forall_not_mem]
  exact forall_congr' fun item => not_congr (same item)

theorem any_congr {α : Type} {first second : List α} {meets : α → Bool}
    (same : ∀ item, item ∈ first ↔ item ∈ second) : first.any meets = second.any meets := by
  rw [Bool.eq_iff_iff, List.any_eq_true, List.any_eq_true]
  exact exists_congr fun item => and_congr_left fun _ => same item

theorem mem_map_congr {α β : Type} {first second : List α} (change : α → β)
    (same : ∀ item, item ∈ first ↔ item ∈ second) (item : β) :
    item ∈ first.map change ↔ item ∈ second.map change := by
  rw [List.mem_map, List.mem_map]
  exact exists_congr fun item => and_congr_left fun _ => same item

theorem mem_filterMap_congr {α β : Type} {first second : List α} (change : α → Option β)
    (same : ∀ item, item ∈ first ↔ item ∈ second) (item : β) :
    item ∈ first.filterMap change ↔ item ∈ second.filterMap change := by
  rw [List.mem_filterMap, List.mem_filterMap]
  exact exists_congr fun item => and_congr_left fun _ => same item

/-- Two lists with the same members have, each once, no one, the same one or several of them. -/
theorem eraseDups_cases {α : Type} [BEq α] [LawfulBEq α] {first second : List α}
    (same : ∀ item, item ∈ first ↔ item ∈ second) :
    (first.eraseDups = [] ∧ second.eraseDups = []) ∨
      (∃ item, first.eraseDups = [item] ∧ second.eraseDups = [item]) ∨
      (∃ item other rest, first.eraseDups = item :: other :: rest) ∧
        ∃ item other rest, second.eraseDups = item :: other :: rest := by
  have perm : first.eraseDups.Perm second.eraseDups := by
    refine (List.perm_ext_iff_of_nodup (Primary.nodup_eraseDups _)
      (Primary.nodup_eraseDups _)).mpr fun item => ?_
    rw [List.mem_eraseDups, List.mem_eraseDups, same]
  revert perm
  generalize first.eraseDups = one
  generalize second.eraseDups = two
  intro perm
  cases one with
  | nil => exact .inl ⟨rfl, perm.nil_eq.symm⟩
  | cons item rest =>
      cases rest with
      | nil => exact .inr (.inl ⟨item, rfl, List.perm_singleton.mp perm.symm⟩)
      | cons other rest =>
          have lengths := perm.length_eq
          match two, lengths with
          | first :: second :: others, _ =>
              exact .inr (.inr ⟨⟨item, other, rest, rfl⟩, first, second, others, rfl⟩)

/-! ### Daemons -/

namespace Repo

/-- A repository whose daemon answers from a store.  A forest too deep to be read, which no forest
without cycles is, counts as one with no path. -/
def ofStore (store : Primary) : Repo where
  records := store.metarecords.entries.filterMap fun entry => store.metarecord (Uuid.ofBytes entry.1)
  paths uuid field :=
    match store.pathsOf field uuid with
    | .ok paths => paths.map Metafolder.TreePath.names
    | .error _ => []

/-- No path is listed of a record in a field that does not place it. -/
def Placing (repo : Repo) : Prop :=
  ∀ {uuid held}, repo.record uuid = some held → ∀ field ∉ positionFields held,
    repo.paths uuid field = []

theorem uuid_of_record {repo : Repo} {uuid : Uuid} {held : MetaRecord}
    (found : repo.record uuid = some held) : held.uuid = uuid := by
  simpa using List.find?_some found

theorem mem_positionFields {held : MetaRecord} {field : String} :
    field ∈ positionFields held ↔
      ∃ row ∈ held.fields, row.value.position.isSome ∧ row.name = field := by
  rw [positionFields, List.mem_eraseDups, List.mem_map]
  constructor
  · rintro ⟨row, member, named⟩
    obtain ⟨member, placed⟩ := List.mem_filter.mp member
    exact ⟨row, member, placed, named⟩
  · rintro ⟨row, member, placed, named⟩
    exact ⟨row, List.mem_filter.mpr ⟨member, placed⟩, named⟩

theorem fields_ofStore {store : Primary} {uuid : Uuid} {held : MetaRecord}
    (found : (ofStore store).record uuid = some held) : held.fields = store.rows uuid := by
  have named := uuid_of_record found
  obtain ⟨entry, -, read⟩ := List.mem_filterMap.mp (List.mem_of_find?_eq_some found)
  obtain ⟨version, -, rfl⟩ := Option.map_eq_some_iff.mp read
  change Uuid.ofBytes entry.1 = uuid at named
  change store.rows (Uuid.ofBytes entry.1) = store.rows uuid
  rw [named]

theorem ofStore_placing [Externals] {store : Primary} (indexed : store.Indexed) :
    (ofStore store).Placing := by
  intro uuid held found field unplaced
  have none_placed : store.places field uuid = [] := by
    refine List.filterMap_eq_nil_iff.mpr fun row member => ?_
    obtain ⟨holds, named⟩ := indexed.mem_rowsNamed.mp member
    cases position : row.value.position with
    | none => rfl
    | some place =>
        refine absurd (mem_positionFields.mpr ⟨row, ?_, by rw [position]; rfl, named⟩) unplaced
        rw [fields_ofStore found]
        exact indexed.mem_rows.mpr holds
  have listed : store.pathsOf field uuid = .ok [] := by
    change (Primary.pathsWithin store field (maxTreeDepth - 1 + 1) uuid _ >>= _) = _
    rw [Primary.pathsWithin]
    simp only [none_placed, Primary.gatherPaths]
    rfl
  change (match store.pathsOf field uuid with
    | .ok paths => paths.map Metafolder.TreePath.names
    | .error _ => []) = []
  rw [listed]
  rfl

end Repo

namespace Bulk

variable {bulk : Bulk} {reads : Reads} {reading : Reading} {side : Side} {uuid : Uuid}

/-! ### What was read -/

/-- What is held in memory is what the daemons hold. -/
structure Right (bulk : Bulk) (reads : Reads) : Prop where
  records : ∀ {side uuid held}, reads.records (side, uuid) = some held →
    (bulk.pair.repo side).record uuid = some held
  occupants : ∀ {side field path occupant}, reads.occupants (side, field, path) = some occupant →
    occupant = (bulk.pair.repo side).occupant field path
  paths : ∀ {side uuid field path}, (field, path) ∈ (reads.paths (side, uuid)).getD [] →
    path ∈ (bulk.pair.repo side).paths uuid field
  /-- The records counted as read are there, with all their paths. -/
  preloaded : ∀ {side uuid}, reads.preloaded (side, uuid) = true →
    (∃ held, (bulk.pair.repo side).record uuid = some held) ∧
      ∀ {field path}, path ∈ (bulk.pair.repo side).paths uuid field →
        (field, path) ∈ (reads.paths (side, uuid)).getD []

theorem right_empty : bulk.Right {} where
  records found := by cases found
  occupants found := by cases found
  paths member := by cases member
  preloaded read := by cases read

/-- A record read is kept. -/
theorem Right.keepRecord (right : bulk.Right reads) {held : MetaRecord}
    (found : (bulk.pair.repo side).record held.uuid = some held) :
    bulk.Right { reads with
      records := Function.update reads.records (side, held.uuid) (some held) } := by
  refine ⟨fun {at_ uuid kept} read => ?_, right.occupants, right.paths, right.preloaded⟩
  change Function.update reads.records (side, held.uuid) (some held) (at_, uuid) = some kept at read
  by_cases same : (at_, uuid) = (side, held.uuid)
  · obtain ⟨rfl, rfl⟩ := Prod.mk.inj same
    rw [Function.update_self] at read
    exact Option.some.inj read ▸ found
  · rw [Function.update_of_ne same] at read
    exact right.records read

theorem Right.keepPage {page : List MetaRecord} (right : bulk.Right reading.reads)
    (found : ∀ held ∈ page, (bulk.pair.repo side).record held.uuid = some held) :
    bulk.Right (keepPage side reading page).reads := by
  change bulk.Right { reading.reads with records := page.foldl _ reading.reads.records }
  generalize reading.reads = reads at right ⊢
  induction page generalizing reads with
  | nil => exact right
  | cons held page ih =>
      rw [List.foldl_cons]
      exact ih (fun other member => found other (List.mem_cons_of_mem _ member)) _
        (right.keepRecord (found held List.mem_cons_self))

theorem Right.readPages {pages : List (List MetaRecord)} (right : bulk.Right reading.reads)
    (found : ∀ page ∈ pages, ∀ held ∈ page, (bulk.pair.repo side).record held.uuid = some held) :
    bulk.Right (bulk.readPages side pages reading).2.reads := by
  induction pages generalizing reading with
  | nil => exact right
  | cons page rest ih =>
      rw [Bulk.readPages, ask]
      cases bulk.answers reading.asked with
      | false => exact right
      | true =>
          refine ih (.keepPage right (found page List.mem_cons_self)) fun other member => ?_
          exact found other (List.mem_cons_of_mem _ member)

/-- The pages of a query have the records found. -/
theorem mem_pages {held : List MetaRecord} {page : List MetaRecord}
    (listed : page ∈ bulk.pages held) {record : MetaRecord} (member : record ∈ page) :
    record ∈ held := by
  rw [pages] at listed
  split at listed
  · rw [List.mem_singleton.mp listed] at member
    cases member
  · exact mem_of_mem_toChunks listed member

theorem readPaths_reads (bulk : Bulk) (side : Side) (uuids : List Uuid) (fields : List String)
    (reading : Reading) : (bulk.readPaths side uuids fields reading).2.reads = reading.reads := by
  induction fields generalizing reading with
  | nil => rfl
  | cons field rest ih =>
      rw [readPaths, ask]
      cases bulk.answers reading.asked with
      | false => rfl
      | true =>
          have later := ih { reading with asked := reading.asked + 1 }
          dsimp only
          split
          · next same => rw [same] at later; exact later
          · next same => rw [same] at later; exact later

theorem readPaths_answers {uuids : List Uuid} {fields : List String}
    {answers : List (String × List (Uuid × List TreePath))}
    (came : (bulk.readPaths side uuids fields reading).1 = some answers) :
    answers = fields.map fun field =>
      (field, uuids.map fun uuid => (uuid, (bulk.pair.repo side).paths uuid field)) := by
  induction fields generalizing reading answers with
  | nil => exact (Option.some.inj came).symm
  | cons field rest ih =>
      rw [readPaths, ask] at came
      cases asked : bulk.answers reading.asked with
      | false => simp [asked] at came
      | true =>
          simp only [asked] at came
          split at came
          · next later reading same =>
            have brought := ih (congrArg Prod.fst same)
            rw [← Option.some.inj came, List.map_cons, brought]
          · cases came

section

variable {uuids : List Uuid} (fields : List String) (paths : Uuid → String → List TreePath)

/-- What a chunk's requests brought of one of its records. -/
theorem mem_pathsIn (listed : uuid ∈ uuids) (field : String) (path : TreePath) :
    (field, path) ∈ (pathsIn (fields.map fun field =>
        (field, uuids.map fun uuid => (uuid, paths uuid field))) uuid).getD [] ↔
      field ∈ fields ∧ path ∈ paths uuid field := by
  rw [pathsIn]
  split
  · rw [Option.getD_some]
    simp only [List.mem_flatMap, List.mem_map, List.mem_filter, decide_eq_true_eq, Prod.mk.injEq]
    constructor
    · rintro ⟨_, ⟨asked, member, rfl⟩, found, ⟨owned, same⟩, read, held, rfl, rfl⟩
      obtain ⟨owner, -, rfl⟩ := List.mem_map.mp owned
      exact ⟨member, same ▸ held⟩
    · rintro ⟨member, held⟩
      exact ⟨_, ⟨field, member, rfl⟩, (uuid, paths uuid field),
        ⟨List.mem_map.mpr ⟨uuid, listed, rfl⟩, rfl⟩, path, held, rfl, rfl⟩
  · next unnamed =>
    refine ⟨fun member => by simp at member, fun both => absurd ?_ unnamed⟩
    obtain ⟨member, -⟩ := both
    refine List.any_eq_true.mpr ⟨_, List.mem_map.mpr ⟨field, member, rfl⟩, ?_⟩
    exact List.any_eq_true.mpr ⟨_, List.mem_map.mpr ⟨uuid, listed, rfl⟩, by simp⟩

end

/-- The paths of a record are published, all of them. -/
theorem Right.publish (placing : (bulk.pair.repo side).Placing) (right : bulk.Right reads)
    {uuids : List Uuid} {fields : List String} (listed : uuid ∈ uuids) {held : MetaRecord}
    (found : (bulk.pair.repo side).record uuid = some held)
    (asked : Repo.positionFields held ⊆ fields) :
    bulk.Right (publish side (fields.map fun field =>
      (field, uuids.map fun uuid => (uuid, (bulk.pair.repo side).paths uuid field))) reads uuid) := by
  have brought := mem_pathsIn fields (bulk.pair.repo side).paths listed
  revert brought
  rw [Bulk.publish]
  generalize pathsIn _ uuid = read
  intro brought
  have complete : ∀ {field path}, path ∈ (bulk.pair.repo side).paths uuid field →
      (field, path) ∈ read.getD [] := by
    intro field path member
    refine (brought field path).mpr ⟨asked ?_, member⟩
    by_contra unplaced
    rw [placing found field unplaced] at member
    cases member
  have sound : ∀ {field path}, (field, path) ∈ read.getD [] →
      path ∈ (bulk.pair.repo side).paths uuid field :=
    fun {field path} member => ((brought field path).mp member).2
  refine ⟨right.records, right.occupants, fun {at_ owner field path} member => ?_,
    fun {at_ owner} counted => ?_⟩
  · cases read with
    | none => exact right.paths member
    | some read =>
        by_cases same : (at_, owner) = (side, uuid)
        · obtain ⟨rfl, rfl⟩ := Prod.mk.inj same
          refine sound (?_ : _ ∈ (some read).getD [])
          change _ ∈ (Function.update reads.paths _ _ _).getD [] at member
          rwa [Function.update_self] at member
        · change _ ∈ (Function.update reads.paths _ _ _).getD [] at member
          rw [Function.update_of_ne same] at member
          exact right.paths member
  · by_cases same : (at_, owner) = (side, uuid)
    · obtain ⟨rfl, rfl⟩ := Prod.mk.inj same
      refine ⟨⟨held, found⟩, fun {field path} member => ?_⟩
      cases read with
      | none => cases complete member
      | some read =>
          change _ ∈ (Function.update reads.paths _ _ _).getD []
          rw [Function.update_self]
          exact complete member
    · change Function.update reads.preloaded _ _ _ = true at counted
      rw [Function.update_of_ne same] at counted
      refine ⟨(right.preloaded counted).1, fun {field path} member => ?_⟩
      have older := (right.preloaded counted).2 member
      cases read with
      | none => exact older
      | some read =>
          change _ ∈ (Function.update reads.paths _ _ _).getD []
          rwa [Function.update_of_ne same]

theorem Right.readChunk (placing : (bulk.pair.repo side).Placing) (right : bulk.Right reading.reads)
    (chunk : List Uuid) : bulk.Right (bulk.readChunk side chunk reading).2.reads := by
  have found : ∀ held ∈ chunk.filterMap (bulk.pair.repo side).record,
      (bulk.pair.repo side).record held.uuid = some held := by
    intro held member
    obtain ⟨uuid, -, read⟩ := List.mem_filterMap.mp member
    rw [Repo.uuid_of_record read, read]
  rw [Bulk.readChunk]
  generalize chunk.filterMap (bulk.pair.repo side).record = records at found ⊢
  have paged : bulk.Right (bulk.readPages side (bulk.pages records) reading).2.reads :=
    right.readPages fun page listed held member => found held (mem_pages listed member)
  dsimp only
  split
  · next same => rwa [same] at paged
  · next paged_reading same =>
    rw [same] at paged
    have unread := readPaths_reads bulk side (records.map MetaRecord.uuid)
      (records.flatMap Repo.positionFields).eraseDups paged_reading
    split
    · next none_read =>
      rw [none_read] at unread
      exact unread ▸ paged
    · next answers after all_read =>
      rw [all_read] at unread
      have brought := readPaths_answers (congrArg Prod.fst all_read)
      subst brought
      rw [unread]
      refine List.foldlRecOn _ _ paged fun reads right uuid member => ?_
      obtain ⟨held, listed, rfl⟩ := List.mem_map.mp member
      refine right.publish placing member (found held listed) fun field placed => ?_
      exact List.mem_eraseDups.mpr (List.mem_flatMap.mpr ⟨held, listed, placed⟩)

theorem Right.readChunks (placing : (bulk.pair.repo side).Placing) {chunks : List (List Uuid)}
    (right : bulk.Right reading.reads) : bulk.Right (bulk.readChunks side chunks reading).reads := by
  induction chunks generalizing reading with
  | nil => exact right
  | cons chunk rest ih =>
      have chunked := right.readChunk placing chunk
      rw [Bulk.readChunks]
      split
      · next same => 
        rw [same] at chunked
        exact ih chunked
      · next same => rwa [same] at chunked

theorem Right.preload (placing : (bulk.pair.repo side).Placing) (right : bulk.Right reading.reads)
    (uuids : List Uuid) : bulk.Right (bulk.preload side uuids reading).reads :=
  right.readChunks placing

/-- The occupant read of a position is kept. -/
theorem Right.keepOccupant (right : bulk.Right reads) (side : Side) (field : String)
    (path : TreePath) :
    bulk.Right { reads with
      occupants := Function.update reads.occupants (side, field, path)
        (some ((bulk.pair.repo side).occupant field path)) } := by
  refine ⟨right.records, fun {at_ asked read occupant} found => ?_, right.paths, right.preloaded⟩
  change Function.update reads.occupants _ _ _ = _ at found
  by_cases same : (at_, asked, read) = (side, field, path)
  · obtain ⟨rfl, rfl, rfl⟩ : at_ = side ∧ asked = field ∧ read = path := by simpa using same
    rw [Function.update_self] at found
    exact (Option.some.inj found).symm
  · rw [Function.update_of_ne same] at found
    exact right.occupants found

theorem Right.readOccupants (right : bulk.Right reading.reads) (field : String)
    (chunk : List TreePath) : bulk.Right (bulk.readOccupants side field reading chunk).reads := by
  rw [Bulk.readOccupants, ask]
  cases bulk.answers reading.asked with
  | false => exact right
  | true =>
      change bulk.Right { reading.reads with occupants := chunk.foldl _ reading.reads.occupants }
      generalize reading.reads = reads at right ⊢
      induction chunk generalizing reads with
      | nil => exact right
      | cons path chunk ih =>
          rw [List.foldl_cons]
          exact ih _ (right.keepOccupant side field path)

theorem Right.preloadOccupants (right : bulk.Right reading.reads)
    (positions : List (String × TreePath)) :
    bulk.Right (bulk.preloadOccupants side positions reading).reads := by
  rw [Bulk.preloadOccupants]
  refine List.foldlRecOn (motive := fun reading : Reading => bulk.Right reading.reads) _ _ right
    fun reading right field _ => ?_
  exact List.foldlRecOn (motive := fun reading : Reading => bulk.Right reading.reads) _ _ right
    fun reading right chunk _ => right.readOccupants field chunk

theorem right_readScope (placing : ∀ side, (bulk.pair.repo side).Placing)
    (scope : Side → List Uuid) : bulk.Right (bulk.readScope scope).reads :=
  (((right_empty.preload (placing .a) _).preload (placing .b) _).preloadOccupants _).preloadOccupants _

/-! ### Answers -/

theorem Right.record_eq (right : bulk.Right reads) (side : Side) (uuid : Uuid) :
    bulk.record reads side uuid = (bulk.pair.repo side).record uuid := by
  rw [record]
  cases read : reads.records (side, uuid) with
  | none => rfl
  | some held => exact (right.records read).symm

theorem Right.getRecord_eq (right : bulk.Right reads) (side : Side) (uuid : Uuid) :
    bulk.getRecord reads side uuid = (bulk.pair.repo side).getRecord uuid := by
  rw [getRecord, right.record_eq]
  rfl

theorem Right.occupant_eq (right : bulk.Right reads) (side : Side) (field : String)
    (path : TreePath) :
    bulk.occupant reads side field path = (bulk.pair.repo side).occupant field path := by
  rw [occupant]
  cases read : reads.occupants (side, field, path) with
  | none => rfl
  | some held => exact right.occupants read

theorem Right.existingEnd_eq (right : bulk.Right reads) (side : Side) (uuid : Uuid) :
    bulk.existingEnd reads side uuid = Sync.existingEnd (bulk.pair.repo side) uuid := by
  rw [existingEnd, right.record_eq]
  rfl

/-- The paths of a record are the daemon's, in some order, or both readings fail alike. -/
theorem Right.identityPaths_cases (right : bulk.Right reads)
    (placing : (bulk.pair.repo side).Placing) (uuid : Uuid) :
    (∃ read ids, bulk.identityPaths reads side uuid = .ok read ∧
        (bulk.pair.repo side).identityPaths uuid = .ok ids ∧ ∀ id, id ∈ read ↔ id ∈ ids) ∨
      ∃ failure, bulk.identityPaths reads side uuid = .error failure ∧
        (bulk.pair.repo side).identityPaths uuid = .error failure := by
  rw [identityPaths]
  cases counted : reads.preloaded (side, uuid) with
  | false =>
      rw [if_neg (by simp), right.getRecord_eq]
      cases direct : (bulk.pair.repo side).identityPaths uuid with
      | error failure => exact .inr ⟨failure, direct, rfl⟩
      | ok ids => exact .inl ⟨ids, ids, direct, rfl, fun _ => Iff.rfl⟩
  | true =>
      obtain ⟨⟨held, found⟩, complete⟩ := right.preloaded counted
      refine .inl ⟨_, (Repo.positionFields held).flatMap fun field =>
        ((bulk.pair.repo side).paths uuid field).map fun path => (field, path), rfl, ?_, ?_⟩
      · rw [Repo.identityPaths, Repo.getRecord, found]
        rfl
      · rintro ⟨field, path⟩
        rw [List.mem_flatMap]
        constructor
        · intro member
          have listed := right.paths member
          refine ⟨field, ?_, List.mem_map.mpr ⟨path, listed, rfl⟩⟩
          by_contra unplaced
          rw [placing found field unplaced] at listed
          cases listed
        · rintro ⟨_, -, member⟩
          obtain ⟨_, listed, same⟩ := List.mem_map.mp member
          obtain ⟨rfl, rfl⟩ := Prod.mk.inj same
          exact complete listed

/-! ### The phase -/

theorem Right.plan_eq (right : bulk.Right reads) (held : Linking) (here : Uuid)
    (there : Option Uuid) :
    bulk.plan reads side held here there = bulk.pair.plan side held here there := by
  cases there <;> simp only [plan, Pair.plan, right.existingEnd_eq]

theorem Right.refTargets_eq (right : bulk.Right reads) (side : Side) (record : Uuid) :
    bulk.refTargets reads side record = Pair.refTargets (bulk.pair.repo side) record := by
  rw [refTargets, right.getRecord_eq]
  rfl

theorem Right.follow_eq (right : bulk.Right reads)
    (placing : ∀ side, (bulk.pair.repo side).Placing) (held : Linking × List Uuid)
    (target : Uuid) : bulk.follow reads side held target = bulk.pair.follow side held target := by
  rw [follow, Pair.follow]
  split
  · rfl
  · rcases right.identityPaths_cases (placing side) target with
      ⟨read, ids, inMemory, direct, same⟩ | ⟨failure, inMemory, direct⟩
    · have unplaced : read = [] ↔ ids = [] := nil_congr same
      rw [inMemory, direct]
      change (if read ≠ [] then _ else _) = if ids ≠ [] then _ else _
      simp only [ne_eq, unplaced, right.plan_eq]
    · rw [inMemory, direct]
      rfl

theorem Right.classify_eq (right : bulk.Right reads) (scope : Side → List Uuid)
    (state : Uuid → Option String) :
    bulk.classify reads scope state = bulk.pair.classify scope state := by
  funext held link
  rw [classify, Pair.classify]
  simp only [right.existingEnd_eq] <;> rfl

theorem Right.close_eq (right : bulk.Right reads)
    (placing : ∀ side, (bulk.pair.repo side).Placing) (fuel : Nat) (held : Linking)
    (work : List Uuid) :
    bulk.close reads side fuel held work = bulk.pair.close side fuel held work := by
  induction fuel generalizing held work with
  | zero => cases work <;> rfl
  | succ fuel ih =>
      cases work with
      | nil => rfl
      | cons record work =>
          have followed : bulk.follow reads side = bulk.pair.follow side :=
            funext fun held => funext fun target => right.follow_eq placing held target
          rw [close, Pair.close, right.refTargets_eq, followed]
          simp only [ih]

/-- The worklist of a side, and what was read in the end. -/
theorem Right.closeSide_eq (right : bulk.Right reading.reads)
    (placing : ∀ side, (bulk.pair.repo side).Placing) (side : Side) (scope : Side → List Uuid)
    (creates : List (End × End)) (held : Linking) :
    ∃ after, bulk.Right after.reads ∧ bulk.closeSide scope creates side held reading =
      (bulk.pair.closeSide scope creates side held).map fun held => (held, after) := by
  rw [closeSide]
  have preloaded := right.preload (placing side) ((bulk.synced scope side creates held).filter
    fun record => !reading.reads.preloaded (side, record))
  refine ⟨_, preloaded, ?_⟩
  simp only [preloaded.record_eq, preloaded.close_eq placing]
  rfl

section

variable [FloatText] {linked planned : List Uuid}

theorem Right.resolveLink_eq (right : bulk.Right reads)
    (placing : ∀ side, (bulk.pair.repo side).Placing) (record : Uuid) :
    (bulk.resolveLink reads side record linked planned).toOption =
      (Sync.resolveLink (bulk.pair.repo side) (bulk.pair.repo side.other) record linked
        planned).toOption := by
  rw [resolveLink, Sync.resolveLink]
  rcases right.identityPaths_cases (placing side) record with
    ⟨read, ids, inMemory, direct, same⟩ | ⟨failure, inMemory, direct⟩
  · have unplaced : read = [] ↔ ids = [] := nil_congr same
    simp only [inMemory, direct, Except.toOption_bind, Except.toOption_ok, Option.bind_some]
    by_cases placed : ids = []
    · simp only [if_pos placed, if_pos (unplaced.mpr placed)] <;> rfl
    · rw [if_neg placed, if_neg (mt unplaced.mp placed)]
      simp only [right.occupant_eq]
      have occupied := mem_map_congr (fun id : String × TreePath =>
        (id, (bulk.pair.repo side.other).occupant id.1 id.2)) same
      rcases eraseDups_cases (mem_filterMap_congr Prod.snd occupied) with
        ⟨inMemory, direct⟩ | ⟨other, inMemory, direct⟩ |
          ⟨⟨one, two, rest, inMemory⟩, first, second, others, direct⟩
      · rw [inMemory, direct]
      · rw [inMemory, direct]
        dsimp only
        split
        · rfl
        · rcases right.identityPaths_cases (placing side.other) other with
            ⟨read, ids, inMemory, direct, same⟩ | ⟨failure, inMemory, direct⟩
          · simp only [inMemory, direct, right.getRecord_eq, Except.toOption_bind,
              Except.toOption_ok, Option.bind_some]
            cases (bulk.pair.repo side).getRecord record with
            | error failure => rfl
            | ok held =>
                simp only [Except.toOption_ok, Option.bind_some, any_congr same,
                  any_congr occupied]
                split <;> rfl
          · simp only [inMemory, direct, Except.toOption_bind, Except.toOption_error,
              Option.bind_none]
      · rw [inMemory, direct]
        rfl
  · simp only [inMemory, direct, Except.toOption_bind, Except.toOption_error, Option.bind_none]

theorem Right.linkRecord_eq (right : bulk.Right reads)
    (placing : ∀ side, (bulk.pair.repo side).Placing) (held : Linking) (record : Uuid) :
    (bulk.linkRecord reads side held record).toOption =
      (bulk.pair.linkRecord side held record).toOption := by
  rw [linkRecord, Pair.linkRecord]
  split
  · rfl
  · rw [Except.toOption_bind, Except.toOption_bind, right.resolveLink_eq placing]
    refine Option.bind_congr fun decision _ => ?_
    cases decision with
    | onto other => simp only [right.plan_eq]
    | create => simp only [right.plan_eq]
    | skip => rfl

theorem Right.linkRecords_eq (right : bulk.Right reads)
    (placing : ∀ side, (bulk.pair.repo side).Placing) (records : List Uuid) (held : Linking) :
    (records.foldlM (bulk.linkRecord reads side) held).toOption =
      (records.foldlM (bulk.pair.linkRecord side) held).toOption := by
  simp only [Except.toOption_foldlM, right.linkRecord_eq placing]

theorem linkingPhase_direct (placing : ∀ side, (bulk.pair.repo side).Placing)
    (scope : Side → List Uuid) (state : Uuid → Option String) :
    (bulk.linkingPhase scope state).toOption = (bulk.pair.linkingPhase scope state).toOption := by
  have right := right_readScope placing scope
  rw [linkingPhase, Pair.linkingPhase, Pair.linkScope]
  simp only [Except.toOption_bind, right.linkRecords_eq placing, Option.bind_assoc]
  refine Option.bind_congr fun first _ => Option.bind_congr fun second _ => ?_
  obtain ⟨middle, right, same⟩ :=
    right.closeSide_eq placing .a scope second.creates second
  rw [same]
  cases bulk.pair.closeSide scope second.creates .a second with
  | error failure => rfl
  | ok third =>
      obtain ⟨last, right, same⟩ :=
        right.closeSide_eq placing .b scope second.creates third
      simp only [Except.map, Except.toOption_ok, Option.bind_some, same]
      cases bulk.pair.closeSide scope second.creates .b third with
      | error failure => rfl
      | ok held =>
          rw [← right.classify_eq]
          rfl

/-- Two daemons on consistent stores: what is planned does not depend on which bulk requests are
answered. -/
theorem linkingPhase_answers [Externals] (stores : Side → Primary)
    (indexed : ∀ side, (stores side).Indexed) (links : List LinkRow) (fresh : Nat → Uuid)
    (pageSize : Nat) (answers : Nat → Bool) (scope : Side → List Uuid)
    (state : Uuid → Option String) :
    (linkingPhase ⟨⟨fun side => .ofStore (stores side), links, fresh⟩, pageSize, answers⟩ scope
        state).toOption =
      (linkingPhase ⟨⟨fun side => .ofStore (stores side), links, fresh⟩, pageSize, fun _ => true⟩
        scope state).toOption := by
  have placing : ∀ side, (Repo.ofStore (stores side)).Placing :=
    fun side => Repo.ofStore_placing (indexed side)
  rw [linkingPhase_direct placing, linkingPhase_direct placing]

end

/-- Every other bulk request fails, or none, as the records of one store are linked. -/
theorem linkingPhase_answers_places : ∃ store,
    @Transaction.run plainExternals samplePlaces {} = .ok store ∧
      (@linkingPhase ⟨⟨fun _ => .ofStore store.tx.primary, [], fun n => sampleUuids (.ofNat n)⟩,
        500, fun request => request % 2 = 0⟩ Pair.sampleFloats (fun _ => [sampleUuids 2])
          fun _ => none).toOption =
      (@linkingPhase ⟨⟨fun _ => .ofStore store.tx.primary, [], fun n => sampleUuids (.ofNat n)⟩,
        500, fun _ => true⟩ Pair.sampleFloats (fun _ => [sampleUuids 2]) fun _ => none).toOption := by
  let _ : Externals := plainExternals
  obtain ⟨store, ran, -⟩ := Except.map_eq_ok.mp samplePlaces_run
  have reached : Reachable Transaction.Manual store :=
    .commit samplePlaces .new samplePlaces_manual ran
  obtain ⟨steps, history, -⟩ := reached.history
  refine ⟨store, ran, ?_⟩
  exact @linkingPhase_answers Pair.sampleFloats _ (fun _ => store.tx.primary)
    (fun _ => history.consistent.toIndexed) [] (fun n => sampleUuids (.ofNat n)) 500 _ _ _

end Bulk

end Sync
end Metafolder
