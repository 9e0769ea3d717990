import Mathlib.Data.List.Nodup
import Metafolder.Linking

/-!
# What the linking phase plans

No record of either side is in two links, planned or there before, and every record that a record to
be synced refers to is linked, or planned to be, or holds a position.  The worklist ends: a record is
put on it as its link is planned.
-/

namespace Metafolder
namespace Sync

/-! ### Results that are no endless worklist -/

section

variable {α β : Type}

/-- A computation that does not run out of fuel. -/
def Ends (result : Except PlanError α) : Prop := result ≠ .error .endless

theorem ends_pure (value : α) : Ends (pure value : Except PlanError α) := nofun

theorem Ends.bind {first : Except PlanError α} {next : α → Except PlanError β} (ends : Ends first)
    (later : ∀ value, first = .ok value → Ends (next value)) : Ends (first >>= next) := by
  cases first with
  | error failure => exact fun same => ends (by injection same with same; rw [same])
  | ok value => exact later value rfl

theorem ends_foldlM {step : β → α → Except PlanError β} (each : ∀ held item, Ends (step held item))
    (items : List α) (held : β) : Ends (items.foldlM step held) := by
  induction items generalizing held with
  | nil => exact ends_pure held
  | cons item rest ih =>
      rw [List.foldlM_cons]
      exact (each held item).bind fun value _ => ih value

end

@[simp]
theorem Side.of_ends_self (side : Side) (here there : End) : side.of (side.ends here there) = here := by
  cases side <;> rfl

@[simp]
theorem Side.of_ends_other (side : Side) (here there : End) :
    side.other.of (side.ends here there) = there := by
  cases side <;> rfl

theorem Side.eq_or_other (side at_ : Side) : at_ = side ∨ at_ = side.other := by
  cases side <;> cases at_ <;> simp [other]

theorem Side.other_ne (side : Side) : side.other ≠ side := by
  cases side <;> simp [other]

/-! ### Reading -/

namespace Repo

variable {repo : Repo}

theorem record_isSome_of_mem {held : MetaRecord} (member : held ∈ repo.records) :
    (repo.record held.uuid).isSome := by
  rw [record, List.find?_isSome]
  exact ⟨held, member, by simp⟩

theorem ends_getRecord (repo : Repo) (uuid : Uuid) : Ends (repo.getRecord uuid) := by
  rw [getRecord]
  split
  · exact ends_pure _
  · nofun

theorem record_of_getRecord {uuid : Uuid} {held : MetaRecord} (read : repo.getRecord uuid = .ok held) :
    repo.record uuid = some held := by
  rw [getRecord] at read
  split at read
  · next found =>
    rw [found, Except.ok.inj read]
  · cases read

theorem ends_identityPaths (repo : Repo) (uuid : Uuid) : Ends (repo.identityPaths uuid) :=
  (repo.ends_getRecord uuid).bind fun _ _ => ends_pure _

theorem record_of_identityPaths {uuid : Uuid} {ids : List (String × TreePath)}
    (read : repo.identityPaths uuid = .ok ids) : (repo.record uuid).isSome := by
  obtain ⟨held, read, -⟩ := Except.bind_eq_ok.mp read
  rw [record_of_getRecord read]
  rfl

theorem record_of_occupant {field : String} {path : TreePath} {uuid : Uuid}
    (found : repo.occupant field path = some uuid) : (repo.record uuid).isSome := by
  obtain ⟨held, there, rfl⟩ := Option.map_eq_some_iff.mp found
  exact record_isSome_of_mem (List.mem_of_find?_eq_some there)

end Repo

section

variable [FloatText] {source target : Repo} {record : Uuid} {linked planned : List Uuid}

theorem ends_matchByFields (source target : Repo) (record : Uuid) (linked planned : List Uuid) :
    Ends (matchByFields source target record linked planned) := by
  refine (source.ends_getRecord record).bind fun held _ => ?_
  dsimp only
  split
  · exact ends_pure _
  · split <;> exact ends_pure _

/-- A record matched by its fields is free. -/
theorem matchByFields_free {other : Uuid}
    (matched : matchByFields source target record linked planned = .ok (some other)) :
    other ∉ linked ∧ other ∉ planned ∧ (target.record other).isSome := by
  obtain ⟨held, -, matched⟩ := Except.bind_eq_ok.mp matched
  dsimp only at matched
  split at matched
  · cases matched
  · split at matched
    · next one found =>
      obtain rfl := Option.some.inj (Except.ok.inj matched)
      have member := List.mem_filter.mp (found ▸ List.mem_singleton_self one :
        one ∈ (target.carrying (fieldSignature held)).filter _)
      obtain ⟨carried, free⟩ := member
      simp only [Bool.and_eq_true, Bool.not_eq_true', List.contains_eq_mem, decide_eq_false_iff_not]
        at free
      exact ⟨free.1.1.1, free.1.1.2, Repo.record_isSome_of_mem (List.mem_of_mem_filter carried)⟩
    · cases matched

theorem ends_resolveLink (source target : Repo) (record : Uuid) (linked planned : List Uuid) :
    Ends (resolveLink source target record linked planned) := by
  refine (source.ends_identityPaths record).bind fun ids _ => ?_
  split
  · refine (ends_matchByFields source target record linked planned).bind fun found _ => ?_
    split <;> exact ends_pure _
  · dsimp only
    split
    · exact ends_pure _
    · split
      · exact ends_pure _
      · refine (target.ends_identityPaths _).bind fun otherIds _ => ?_
        refine (source.ends_getRecord record).bind fun held _ => ?_
        split
        · nofun
        · exact ends_pure _
    · nofun

theorem record_of_resolveLink {decision : LinkDecision}
    (resolved : resolveLink source target record linked planned = .ok decision) :
    (source.record record).isSome := by
  obtain ⟨ids, read, -⟩ := Except.bind_eq_ok.mp resolved
  exact Repo.record_of_identityPaths read

/-- A record a record is linked onto is free. -/
theorem resolveLink_free {other : Uuid}
    (resolved : resolveLink source target record linked planned = .ok (.onto other)) :
    other ∉ linked ∧ other ∉ planned ∧ (target.record other).isSome := by
  obtain ⟨ids, -, resolved⟩ := Except.bind_eq_ok.mp resolved
  split at resolved
  · obtain ⟨found, matched, resolved⟩ := Except.bind_eq_ok.mp resolved
    split at resolved
    · next one =>
      obtain rfl := LinkDecision.onto.inj (Except.ok.inj resolved)
      exact matchByFields_free matched
    · cases resolved
  · dsimp only at resolved
    split at resolved
    · cases resolved
    · next one found =>
      split at resolved
      · cases resolved
      · next free =>
        obtain ⟨otherIds, -, resolved⟩ := Except.bind_eq_ok.mp resolved
        obtain ⟨held, -, resolved⟩ := Except.bind_eq_ok.mp resolved
        split at resolved
        · cases resolved
        · obtain rfl := LinkDecision.onto.inj (Except.ok.inj resolved)
          rw [not_or] at free
          refine ⟨free.1, free.2, ?_⟩
          have member : one ∈ ((ids.map fun id => (id, target.occupant id.1 id.2)).filterMap
              Prod.snd).eraseDups := found ▸ List.mem_singleton_self one
          rw [List.mem_eraseDups, List.filterMap_map] at member
          obtain ⟨id, -, occupied⟩ := List.mem_filterMap.mp member
          exact Repo.record_of_occupant occupied
    · cases resolved

end

namespace Pair

variable {pair : Pair} {side : Side} {held after : Linking}

/-! ### Planned links -/

/-- The records the planned links have on a side: those there were, and those allocated by number. -/
structure Tagged (pair : Pair) (held : Linking) (side : Side) (tags : List (Uuid ⊕ Nat)) : Prop where
  ends : held.creates.map (fun ends => (side.of ends).record) =
    tags.map (Sum.elim id pair.fresh)
  nodup : tags.Nodup
  known : ∀ uuid, Sum.inl uuid ∈ tags ↔ uuid ∈ held.planned side
  bare : ∀ n, Sum.inr n ∈ tags → n < held.allocated

/-- The links planned join records that exist, each in no other link, or are to be created. -/
structure Planned (pair : Pair) (held : Linking) : Prop where
  tagged : ∀ side, ∃ tags, Tagged pair held side tags
  unlinked : ∀ side, ∀ uuid ∈ held.planned side, uuid ∉ pair.linked side
  there : ∀ side, ∀ uuid ∈ held.planned side, ((pair.repo side).record uuid).isSome
  counted : held.allocated ≤ held.creates.length

theorem planned_nil (pair : Pair) : pair.Planned {} where
  tagged _ := ⟨[], rfl, List.nodup_nil, fun _ => by simp, fun _ member => by cases member⟩
  unlinked _ _ member := by cases member
  there _ _ member := by cases member
  counted := Nat.le_refl _

theorem planned_plan_self (held : Linking) (here : Uuid) (there : Option Uuid) :
    (pair.plan side held here there).planned side = here :: held.planned side := by
  simp [plan]

theorem planned_plan_other (held : Linking) (here : Uuid) (there : Option Uuid) :
    (pair.plan side held here there).planned side.other =
      there.toList ++ held.planned side.other := by
  simp [plan, side.other_ne]

theorem le_allocated_plan (held : Linking) (here : Uuid) (there : Option Uuid) :
    held.allocated ≤ (pair.plan side held here there).allocated := by
  cases there with
  | none => exact Nat.le_succ _
  | some other => exact Nat.le_refl _

/-- The side a link is planned from has one more record. -/
theorem Tagged.plan_self {tags : List (Uuid ⊕ Nat)} (tagged : Tagged pair held side tags)
    {here : Uuid} (new : here ∉ held.planned side) (there : Option Uuid) :
    Tagged pair (pair.plan side held here there) side (tags ++ [.inl here]) where
  ends := by simp [plan, tagged.ends, existingEnd]
  nodup := by
    refine List.nodup_append.mpr ⟨tagged.nodup, List.nodup_singleton _, ?_⟩
    intro tag member other same
    rw [List.mem_singleton.mp same]
    rintro rfl
    exact new ((tagged.known here).mp member)
  known uuid := by
    rw [planned_plan_self, List.mem_append, List.mem_singleton, List.mem_cons, tagged.known,
      Sum.inl.injEq, or_comm]
  bare n member := by
    rcases List.mem_append.mp member with older | added
    · exact Nat.lt_of_lt_of_le (tagged.bare n older) (le_allocated_plan held here there)
    · cases List.mem_singleton.mp added

/-- So has the other, whose record is there or is to be created. -/
theorem Tagged.plan_other {tags : List (Uuid ⊕ Nat)} (tagged : Tagged pair held side.other tags)
    (here : Uuid) {there : Option Uuid} (new : ∀ other ∈ there, other ∉ held.planned side.other) :
    Tagged pair (pair.plan side held here there) side.other
      (tags ++ [match there with | some other => .inl other | none => .inr held.allocated]) := by
  cases there with
  | none =>
      refine ⟨by simp [plan, tagged.ends], ?_, fun uuid => ?_, fun n member => ?_⟩
      · refine List.nodup_append.mpr ⟨tagged.nodup, List.nodup_singleton _, ?_⟩
        intro tag member other same
        rw [List.mem_singleton.mp same]
        rintro rfl
        exact Nat.lt_irrefl _ (tagged.bare _ member)
      · simp [planned_plan_other, tagged.known]
      · change n < held.allocated + 1
        rcases List.mem_append.mp member with older | added
        · exact Nat.lt_succ_of_lt (tagged.bare n older)
        · rw [Sum.inr.inj (List.mem_singleton.mp added)]
          exact Nat.lt_succ_self _
  | some other =>
      refine ⟨by simp [plan, tagged.ends, existingEnd], ?_, fun uuid => ?_, fun n member => ?_⟩
      · refine List.nodup_append.mpr ⟨tagged.nodup, List.nodup_singleton _, ?_⟩
        intro tag member added same
        rw [List.mem_singleton.mp same]
        rintro rfl
        exact new other rfl ((tagged.known other).mp member)
      · rw [planned_plan_other, List.mem_append, List.mem_singleton, tagged.known, Sum.inl.injEq,
          Option.toList_some, List.singleton_append, List.mem_cons, or_comm]
      · rcases List.mem_append.mp member with older | added
        · exact tagged.bare n older
        · cases List.mem_singleton.mp added

/-- A link planned between two records that are in none. -/
theorem Planned.plan (planned : pair.Planned held) {here : Uuid} {there : Option Uuid}
    (free : here ∉ pair.linked side ∧ here ∉ held.planned side ∧
      ((pair.repo side).record here).isSome)
    (other : ∀ uuid ∈ there, uuid ∉ pair.linked side.other ∧ uuid ∉ held.planned side.other ∧
      ((pair.repo side.other).record uuid).isSome) :
    pair.Planned (pair.plan side held here there) := by
  refine ⟨fun at_ => ?_, fun at_ uuid member => ?_, fun at_ uuid member => ?_, ?_⟩
  · rcases side.eq_or_other at_ with rfl | rfl
    · obtain ⟨tags, tagged⟩ := planned.tagged at_
      exact ⟨_, tagged.plan_self free.2.1 there⟩
    · obtain ⟨tags, tagged⟩ := planned.tagged side.other
      exact ⟨_, tagged.plan_other here fun uuid member => (other uuid member).2.1⟩
  · rcases side.eq_or_other at_ with rfl | rfl
    · rw [planned_plan_self] at member
      rcases List.mem_cons.mp member with rfl | older
      · exact free.1
      · exact planned.unlinked at_ uuid older
    · rw [planned_plan_other] at member
      rcases List.mem_append.mp member with new | older
      · exact (other uuid (Option.mem_toList.mp new)).1
      · exact planned.unlinked side.other uuid older
  · rcases side.eq_or_other at_ with rfl | rfl
    · rw [planned_plan_self] at member
      rcases List.mem_cons.mp member with rfl | older
      · exact free.2.2
      · exact planned.there at_ uuid older
    · rw [planned_plan_other] at member
      rcases List.mem_append.mp member with new | older
      · exact (other uuid (Option.mem_toList.mp new)).2.2
      · exact planned.there side.other uuid older
  · have counted := planned.counted
    cases there <;> simp [Pair.plan, List.length_append] <;> omega

/-! ### The scope -/

section

variable [FloatText]

theorem ends_linkRecord (pair : Pair) (side : Side) (held : Linking) (record : Uuid) :
    Ends (pair.linkRecord side held record) := by
  rw [linkRecord]
  split
  · exact ends_pure _
  · refine (ends_resolveLink _ _ _ _ _).bind fun decision _ => ?_
    cases decision <;> exact ends_pure _

theorem linkRecord_planned {record : Uuid} (planned : pair.Planned held)
    (ran : pair.linkRecord side held record = .ok after) : pair.Planned after := by
  rw [linkRecord] at ran
  split at ran
  · exact Except.ok.inj ran ▸ planned
  · next free =>
    rw [not_or] at free
    obtain ⟨decision, resolved, ran⟩ := Except.bind_eq_ok.mp ran
    have there := record_of_resolveLink resolved
    cases decision with
    | onto other =>
        obtain rfl := Except.ok.inj ran
        refine planned.plan ⟨free.1, free.2, there⟩ fun uuid member => ?_
        obtain rfl := Option.some.inj member
        exact resolveLink_free resolved
    | create =>
        obtain rfl := Except.ok.inj ran
        exact planned.plan ⟨free.1, free.2, there⟩ fun uuid member => by cases member
    | skip => exact Except.ok.inj ran ▸ planned

theorem linkRecords_planned {records : List Uuid} (planned : pair.Planned held)
    (ran : records.foldlM (pair.linkRecord side) held = .ok after) : pair.Planned after :=
  Except.foldlM_induction pair.Planned (fun _ _ _ _ planned ran => linkRecord_planned planned ran)
    planned ran

end

/-! ### References -/

/-- A record is linked, planned to be, or holds a position. -/
def Known (pair : Pair) (side : Side) (held : Linking) (uuid : Uuid) : Prop :=
  uuid ∈ pair.linked side ∨ uuid ∈ held.planned side ∨
    ∃ ids, (pair.repo side).identityPaths uuid = .ok ids ∧ ids ≠ []

/-- What a record refers to in the fields that are synced is known. -/
def Settled (pair : Pair) (side : Side) (held : Linking) (uuid : Uuid) : Prop :=
  ∀ record, (pair.repo side).record uuid = some record → ∀ row ∈ record.fields,
    isSyncedField row.name = true → ∀ target, row.value = .ref target →
      pair.Known side held target

theorem Known.mono {uuid : Uuid} (known : pair.Known side held uuid)
    (more : held.planned side ⊆ after.planned side) : pair.Known side after uuid :=
  known.imp_right (Or.imp_left fun member => more member)

theorem Settled.mono {uuid : Uuid} (settled : pair.Settled side held uuid)
    (more : held.planned side ⊆ after.planned side) : pair.Settled side after uuid :=
  fun record found row member synced target refers =>
    (settled record found row member synced target refers).mono more

theorem ends_refTargets (repo : Repo) (uuid : Uuid) : Ends (refTargets repo uuid) :=
  (repo.ends_getRecord uuid).bind fun _ _ => ends_pure _

theorem mem_refTargets {repo : Repo} {uuid target : Uuid} {targets : List Uuid} {record : MetaRecord}
    (ran : refTargets repo uuid = .ok targets) (found : repo.record uuid = some record)
    {row : FieldRow} (member : row ∈ record.fields) (synced : isSyncedField row.name = true)
    (refers : row.value = .ref target) : target ∈ targets := by
  obtain ⟨held, read, ran⟩ := Except.bind_eq_ok.mp ran
  obtain rfl := Option.some.inj ((Repo.record_of_getRecord read).symm.trans found)
  obtain rfl := Except.ok.inj ran
  rw [List.mem_eraseDups]
  refine List.mem_filterMap.mpr ⟨row, member, ?_⟩
  have kept : ¬(row.name.startsWith "mfr_" = true ∧ row.name ≠ "mfr_path") := by
    intro both
    simp [isSyncedField, both.1, both.2] at synced
  rw [if_neg kept, refers]

/-- The records of a side that no link is planned for. -/
def unplanned (pair : Pair) (side : Side) (held : Linking) : Nat :=
  ((pair.repo side).records.filter fun record => record.uuid ∉ held.planned side).length

/-- What following references does: links are planned on the side for what is added to the work. -/
structure Followed (pair : Pair) (side : Side) (held : Linking × List Uuid)
    (after : Linking × List Uuid) : Prop where
  planned : pair.Planned held.1 → pair.Planned after.1
  more : held.1.planned side ⊆ after.1.planned side
  others : after.1.planned side.other = held.1.planned side.other
  work : held.2 ⊆ after.2
  added : ∀ uuid ∈ after.1.planned side, uuid ∈ held.1.planned side ∨ uuid ∈ after.2
  shrinks : after.2.length + pair.unplanned side after.1 ≤ held.2.length + pair.unplanned side held.1

namespace Followed

theorem refl (held : Linking × List Uuid) : Followed pair side held held where
  planned := id
  more := List.Subset.refl _
  others := rfl
  work := List.Subset.refl _
  added _ member := .inl member
  shrinks := Nat.le_refl _

theorem trans {first second third : Linking × List Uuid} (one : Followed pair side first second)
    (two : Followed pair side second third) : Followed pair side first third where
  planned planned := two.planned (one.planned planned)
  more := List.Subset.trans one.more two.more
  others := two.others.trans one.others
  work := List.Subset.trans one.work two.work
  added uuid member := by
    rcases two.added uuid member with older | new
    · exact (one.added uuid older).imp_right fun held => two.work held
    · exact .inr new
  shrinks := Nat.le_trans two.shrinks one.shrinks

end Followed

/-- A record no link was planned for has one fewer like it once one is. -/
theorem unplanned_plan_lt {uuid : Uuid} (there : ((pair.repo side).record uuid).isSome)
    (new : uuid ∉ held.planned side) :
    pair.unplanned side (pair.plan side held uuid none) < pair.unplanned side held := by
  obtain ⟨record, member, named⟩ := List.find?_isSome.mp there
  have named : record.uuid = uuid := by simpa using named
  rw [unplanned, unplanned, planned_plan_self]
  have narrowed : (pair.repo side).records.filter (fun other =>
      other.uuid ∉ uuid :: held.planned side) =
      ((pair.repo side).records.filter fun other => other.uuid ∉ held.planned side).filter
        fun other => other.uuid ≠ uuid := by
    rw [List.filter_filter]
    refine List.filter_congr fun other _ => ?_
    simp
  rw [narrowed]
  refine List.length_filter_lt_length_iff_exists.mpr ⟨record, ?_, by simp [named]⟩
  exact List.mem_filter.mpr ⟨member, by simpa [named] using new⟩

theorem ends_follow (pair : Pair) (side : Side) (held : Linking × List Uuid) (target : Uuid) :
    Ends (pair.follow side held target) := by
  rw [follow]
  split
  · exact ends_pure _
  · refine ((pair.repo side).ends_identityPaths target).bind fun ids _ => ?_
    split <;> exact ends_pure _

theorem follow_spec {start finish : Linking × List Uuid} {target : Uuid}
    (ran : pair.follow side start target = .ok finish) :
    Followed pair side start finish ∧ pair.Known side finish.1 target := by
  rw [follow] at ran
  split at ran
  · next known =>
    obtain rfl := Except.ok.inj ran
    exact ⟨.refl _, known.imp_right Or.inl⟩
  · next free =>
    rw [not_or] at free
    obtain ⟨ids, read, ran⟩ := Except.bind_eq_ok.mp ran
    split at ran
    · next placed =>
      obtain rfl := Except.ok.inj ran
      exact ⟨.refl _, .inr (.inr ⟨ids, read, placed⟩)⟩
    · obtain rfl := Except.ok.inj ran
      have there := Repo.record_of_identityPaths read
      refine ⟨⟨fun planned => ?_, ?_, ?_, List.subset_append_left _ _, ?_, ?_⟩, .inr (.inl ?_)⟩
      · change pair.Planned (pair.plan side start.1 target none)
        refine planned.plan ⟨free.1, free.2, there⟩ ?_
        intro uuid member
        cases member
      · rw [planned_plan_self]
        exact List.subset_cons_self _ _
      · rw [planned_plan_other]
        rfl
      · intro uuid member
        rw [planned_plan_self] at member
        rcases List.mem_cons.mp member with rfl | older
        · exact .inr (List.mem_append_right _ (List.mem_singleton_self _))
        · exact .inl older
      · have fewer := unplanned_plan_lt there free.2
        rw [List.length_append, List.length_singleton]
        dsimp only
        omega
      · rw [planned_plan_self]
        exact List.mem_cons_self

theorem follows_spec {targets : List Uuid} {start finish : Linking × List Uuid}
    (ran : targets.foldlM (pair.follow side) start = .ok finish) :
    Followed pair side start finish ∧ ∀ target ∈ targets, pair.Known side finish.1 target := by
  induction targets generalizing start with
  | nil =>
      obtain rfl := Except.foldlM_nil_eq_ok.mp ran
      exact ⟨.refl _, fun _ member => by cases member⟩
  | cons target rest ih =>
      obtain ⟨middle, first, later⟩ := Except.foldlM_cons_eq_ok.mp ran
      obtain ⟨one, known⟩ := follow_spec first
      obtain ⟨two, others⟩ := ih later
      refine ⟨one.trans two, fun uuid member => ?_⟩
      rcases List.mem_cons.mp member with rfl | listed
      · exact known.mono two.more
      · exact others uuid listed

/-- The worklist ends: it loses a record each round, and gains one only for which a link is planned. -/
theorem ends_close {fuel : Nat} {work : List Uuid}
    (enough : work.length + pair.unplanned side held ≤ fuel) :
    Ends (pair.close side fuel held work) := by
  induction fuel generalizing held work with
  | zero =>
      cases work with
      | nil => exact ends_pure _
      | cons record rest =>
          rw [List.length_cons] at enough
          omega
  | succ fuel ih =>
      cases work with
      | nil => exact ends_pure _
      | cons record rest =>
          refine (ends_refTargets _ _).bind fun targets _ => ?_
          refine (ends_foldlM (pair.ends_follow side) targets _).bind fun next ran => ?_
          have shrinks := (follows_spec ran).1.shrinks
          rw [List.length_cons] at enough
          dsimp only at shrinks ⊢
          exact ih (by omega)

/-- What the worklist does: every record on it, and every record it plans a link for, is settled. -/
theorem close_spec {fuel : Nat} {work : List Uuid}
    (ran : pair.close side fuel held work = .ok after) :
    (pair.Planned held → pair.Planned after) ∧ held.planned side ⊆ after.planned side ∧
      after.planned side.other = held.planned side.other ∧
      ∀ uuid, uuid ∈ work ∨ uuid ∈ after.planned side ∧ uuid ∉ held.planned side →
        pair.Settled side after uuid := by
  induction fuel generalizing held work with
  | zero =>
      cases work with
      | nil =>
          obtain rfl := Except.ok.inj ran
          refine ⟨id, List.Subset.refl _, rfl, fun uuid listed => ?_⟩
          rcases listed with listed | ⟨member, new⟩
          · cases listed
          · exact absurd member new
      | cons record rest => cases ran
  | succ fuel ih =>
      cases work with
      | nil =>
          obtain rfl := Except.ok.inj ran
          refine ⟨id, List.Subset.refl _, rfl, fun uuid listed => ?_⟩
          rcases listed with listed | ⟨member, new⟩
          · cases listed
          · exact absurd member new
      | cons record rest =>
          obtain ⟨targets, read, ran⟩ := Except.bind_eq_ok.mp ran
          obtain ⟨⟨middle, later⟩, followed, ran⟩ := Except.bind_eq_ok.mp ran
          obtain ⟨one, known⟩ := follows_spec followed
          obtain ⟨planned, more, others, settled⟩ := ih ran
          refine ⟨fun start => planned (one.planned start), List.Subset.trans one.more more,
            others.trans one.others, fun uuid listed => ?_⟩
          rcases listed with listed | ⟨member, new⟩
          · rcases List.mem_cons.mp listed with rfl | listed
            · intro held found row member synced target refers
              exact (known target (mem_refTargets read found member synced refers)).mono more
            · exact settled uuid (.inl (one.work listed))
          · by_cases early : uuid ∈ middle.planned side
            · exact settled uuid (.inl ((one.added uuid early).resolve_left new))
            · exact settled uuid (.inr ⟨member, early⟩)

/-! ### The whole phase -/

/-- The uuids allocated are new, and each another. -/
structure Fresh (pair : Pair) (count : Nat) : Prop where
  distinct : ∀ first second, first < second → second < count → pair.fresh first ≠ pair.fresh second
  unlinked : ∀ n, n < count → ∀ side, pair.fresh n ∉ pair.linked side
  absent : ∀ n, n < count → ∀ side, (pair.repo side).record (pair.fresh n) = none

/-- The records of the planned links are in no two links. -/
theorem Planned.nodup (planned : pair.Planned held) (fresh : pair.Fresh held.allocated)
    (single : (pair.linked side).Nodup) :
    (pair.linked side ++ held.creates.map fun ends => (side.of ends).record).Nodup := by
  obtain ⟨tags, tagged⟩ := planned.tagged side
  rw [tagged.ends]
  refine List.nodup_append.mpr ⟨single, ?_, ?_⟩
  · refine List.Nodup.map_on ?_ tagged.nodup
    intro first one second two same
    cases first with
    | inl uuid =>
        cases second with
        | inl other => exact congrArg Sum.inl same
        | inr n =>
            have there := planned.there side uuid ((tagged.known uuid).mp one)
            rw [show uuid = pair.fresh n from same, fresh.absent n (tagged.bare n two) side] at there
            cases there
    | inr n =>
        cases second with
        | inl other =>
            have there := planned.there side other ((tagged.known other).mp two)
            rw [show other = pair.fresh n from same.symm,
              fresh.absent n (tagged.bare n one) side] at there
            cases there
        | inr m =>
            rcases Nat.lt_trichotomy n m with less | equal | more
            · exact absurd same (fresh.distinct n m less (tagged.bare m two))
            · rw [equal]
            · exact absurd same.symm (fresh.distinct m n more (tagged.bare n one))
  · intro uuid member other planned_end same
    obtain ⟨tag, tag_mem, named⟩ := List.mem_map.mp planned_end
    rw [same, ← named] at member
    cases tag with
    | inl known => exact planned.unlinked side known ((tagged.known known).mp tag_mem) member
    | inr n => exact fresh.unlinked n (tagged.bare n tag_mem) side member

section

variable [FloatText] {scope : Side → List Uuid}

omit [FloatText] in
theorem ends_closeSide (pair : Pair) (scope : Side → List Uuid) (creates : List (End × End))
    (side : Side) (held : Linking) : Ends (pair.closeSide scope creates side held) :=
  ends_close (Nat.add_le_add_left (List.length_filter_le _ _) _)

theorem ends_linkScope (pair : Pair) (scope : Side → List Uuid) : Ends (pair.linkScope scope) := by
  refine (ends_foldlM (pair.ends_linkRecord .a) _ _).bind fun first _ => ?_
  refine (ends_foldlM (pair.ends_linkRecord .b) _ _).bind fun second _ => ?_
  exact (pair.ends_closeSide scope _ .a second).bind fun third _ => pair.ends_closeSide scope _ .b third

end

/-- A record planned is an end of a planned link. -/
theorem Planned.mem_creates (planned : pair.Planned held) {uuid : Uuid}
    (member : uuid ∈ held.planned side) :
    uuid ∈ held.creates.map fun ends => (side.of ends).record := by
  obtain ⟨tags, tagged⟩ := planned.tagged side
  rw [tagged.ends]
  exact List.mem_map.mpr ⟨.inl uuid, (tagged.known uuid).mpr member, rfl⟩

/-- An end of a planned link is a record planned, or one that is to be created. -/
theorem Planned.of_mem_creates (planned : pair.Planned held) {uuid : Uuid}
    (member : uuid ∈ held.creates.map fun ends => (side.of ends).record) :
    uuid ∈ held.planned side ∨ ∃ n, n < held.allocated ∧ uuid = pair.fresh n := by
  obtain ⟨tags, tagged⟩ := planned.tagged side
  rw [tagged.ends] at member
  obtain ⟨tag, tag_mem, rfl⟩ := List.mem_map.mp member
  cases tag with
  | inl known => exact .inl ((tagged.known known).mp tag_mem)
  | inr n => exact .inr ⟨n, tagged.bare n tag_mem, rfl⟩

theorem mem_sorted {uuids : List Uuid} {uuid : Uuid} : uuid ∈ sorted uuids ↔ uuid ∈ uuids := by
  rw [sorted, List.mem_dedup, List.mem_insertionSort]

theorem mem_synced {scope : Side → List Uuid} {creates : List (End × End)} {uuid : Uuid} :
    uuid ∈ pair.synced scope side creates held ↔
      (uuid ∈ creates.map (fun ends => (side.of ends).record) ∨
        ∃ link ∈ pair.links, inScope scope link = true ∧ link.record side = uuid) ∧
      (uuid ∈ pair.linked side ∨ uuid ∈ held.planned side) ∧
        ((pair.repo side).record uuid).isSome = true := by
  have chosen : uuid ∈ (pair.links.filter (inScope scope)).map (LinkRow.record · side) ↔
      ∃ link ∈ pair.links, inScope scope link = true ∧ link.record side = uuid := by
    simp only [List.mem_map, List.mem_filter, and_assoc]
  simp only [synced, List.mem_filter, mem_sorted, List.mem_append, chosen, Bool.or_eq_true,
    List.contains_iff_mem, and_assoc]

/-- Every record to be synced is settled once the worklist of its side ended. -/
theorem closeSide_spec {scope : Side → List Uuid} {creates : List (End × End)}
    (planned : pair.Planned held)
    (listed : ∀ uuid ∈ held.planned side, uuid ∈ creates.map fun ends => (side.of ends).record)
    (ran : pair.closeSide scope creates side held = .ok after) :
    pair.Planned after ∧ held.planned side ⊆ after.planned side ∧
      after.planned side.other = held.planned side.other ∧
      (∀ uuid ∈ after.planned side, pair.Settled side after uuid) ∧
      ∀ link ∈ pair.links, inScope scope link = true →
        pair.Settled side after (link.record side) := by
  obtain ⟨keeps, more, others, settled⟩ := close_spec ran
  refine ⟨keeps planned, more, others, fun uuid member => ?_, fun link member chosen => ?_⟩
  · by_cases early : uuid ∈ held.planned side
    · exact settled uuid (.inl (mem_synced.mpr
        ⟨.inl (listed uuid early), .inr early, planned.there side uuid early⟩))
    · exact settled uuid (.inr ⟨member, early⟩)
  · cases found : (pair.repo side).record (link.record side) with
    | none =>
        intro record there
        rw [found] at there
        cases there
    | some record =>
        refine settled _ (.inl (mem_synced.mpr ⟨.inr ⟨link, member, chosen, rfl⟩, .inl ?_, ?_⟩))
        · exact List.mem_map.mpr ⟨link, member, rfl⟩
        · rw [found]
          rfl

section

variable [FloatText] {scope : Side → List Uuid}

theorem linkScope_spec (ran : pair.linkScope scope = .ok after) :
    pair.Planned after ∧ ∀ side, (∀ uuid ∈ after.planned side, pair.Settled side after uuid) ∧
      ∀ link ∈ pair.links, inScope scope link = true →
        pair.Settled side after (link.record side) := by
  obtain ⟨first, forth, ran⟩ := Except.bind_eq_ok.mp ran
  obtain ⟨second, back, ran⟩ := Except.bind_eq_ok.mp ran
  obtain ⟨third, closed, ran⟩ := Except.bind_eq_ok.mp ran
  have begun := linkRecords_planned (linkRecords_planned pair.planned_nil forth) back
  obtain ⟨planned, -, same_b, settled, chosen⟩ :=
    closeSide_spec begun (fun uuid member => begun.mem_creates member) closed
  obtain ⟨finished, -, same_a, settled_b, chosen_b⟩ := closeSide_spec planned
    (fun uuid member => begun.mem_creates (same_b ▸ member)) ran
  refine ⟨finished, fun side => ?_⟩
  cases side with
  | a =>
      have more : third.planned .a ⊆ after.planned .a := fun uuid member => by
        change uuid ∈ after.planned (Side.other .b)
        rw [same_a]
        exact member
      refine ⟨fun uuid member => ?_, fun link member inside => (chosen link member inside).mono more⟩
      rw [show after.planned .a = third.planned .a from same_a] at member
      exact (settled uuid member).mono more
  | b => exact ⟨settled_b, chosen_b⟩

omit [FloatText] in
/-- Classifying the links there are leaves the links to create. -/
theorem creates_classify (state : Uuid → Option String) (links : List LinkRow)
    (result : LinkingResult) :
    (links.foldl (pair.classify scope state) result).creates = result.creates := by
  induction links generalizing result with
  | nil => rfl
  | cons link rest ih =>
      rw [List.foldl_cons, ih, classify]
      split
      · rfl
      · split
        · rfl
        · dsimp only
          split <;> rfl

/-- The phase ends; the links it plans are one-to-one with those there are, and closed under
references. -/
theorem linkingPhase_one_to_one (pair : Pair) (scope : Side → List Uuid)
    (state : Uuid → Option String) (single : ∀ side, (pair.linked side).Nodup)
    (fresh : ∀ result, pair.linkingPhase scope state = .ok result →
      pair.Fresh result.creates.length) :
    pair.linkingPhase scope state ≠ .error .endless ∧
      ∀ result, pair.linkingPhase scope state = .ok result → ∀ side,
        (pair.linked side ++ result.creates.map fun ends => (side.of ends).record).Nodup ∧
        ∀ uuid, (uuid ∈ result.creates.map fun ends => (side.of ends).record) ∨
            (∃ link ∈ pair.links, inScope scope link = true ∧ link.record side = uuid) →
          ∀ record, (pair.repo side).record uuid = some record → ∀ row ∈ record.fields,
            isSyncedField row.name = true → ∀ target, row.value = .ref target →
              target ∈ pair.linked side ∨
                (target ∈ result.creates.map fun ends => (side.of ends).record) ∨
                ∃ ids, (pair.repo side).identityPaths target = .ok ids ∧ ids ≠ [] := by
  refine ⟨(ends_linkScope pair scope).bind fun _ _ => ends_pure _, fun result ran side => ?_⟩
  obtain ⟨held, linked, found⟩ := Except.bind_eq_ok.mp ran
  have creates : result.creates = held.creates := by
    rw [← Except.ok.inj found, creates_classify]
  obtain ⟨planned, settled⟩ := linkScope_spec linked
  have new := fresh result ran
  rw [creates] at new ⊢
  have few : pair.Fresh held.allocated :=
    ⟨fun one two less within => new.distinct one two less (Nat.lt_of_lt_of_le within planned.counted),
      fun n within => new.unlinked n (Nat.lt_of_lt_of_le within planned.counted),
      fun n within => new.absent n (Nat.lt_of_lt_of_le within planned.counted)⟩
  refine ⟨planned.nodup few (single side), fun uuid ended record there row member synced target refers =>
    ?_⟩
  have known : pair.Settled side held uuid := by
    rcases ended with ended | ⟨link, link_mem, chosen, rfl⟩
    · rcases planned.of_mem_creates ended with listed | ⟨n, bound, rfl⟩
      · exact (settled side).1 uuid listed
      · intro record there
        rw [few.absent n bound side] at there
        cases there
    · exact (settled side).2 link link_mem chosen
  exact (known record there row member synced target refers).imp_right
    (Or.imp_left planned.mem_creates)

end

/-- Floats, written by their bits. -/
abbrev sampleFloats : FloatText := ⟨fun f => (toString f.bits).asBytes⟩

def sampleIds (n : UInt8) : Uuid := ⟨List.replicate 16 n, Uuid.length_filled n⟩

/-- Two records that refer to each other, one of them in scope, beside two records that are
linked. -/
def samplePair : Pair where
  repo side :=
    match side with
    | .a =>
        { records :=
            [⟨sampleIds 1, 1, [⟨1, "next", .ref (sampleIds 2)⟩]⟩,
              ⟨sampleIds 2, 2, [⟨2, "next", .ref (sampleIds 1)⟩, ⟨3, "see", .ref (sampleIds 3)⟩]⟩,
              ⟨sampleIds 3, 3, []⟩]
          paths := fun _ _ => [] }
    | .b => { records := [⟨sampleIds 4, 4, []⟩], paths := fun _ _ => [] }
  links := [⟨sampleIds 9, sampleIds 3, sampleIds 4, some 3, some 4⟩]
  fresh n := sampleIds (UInt8.ofNat (100 + n))

def sampleScope : Side → List Uuid
  | .a => [sampleIds 1]
  | .b => []

theorem samplePair_run : ((@linkingPhase sampleFloats samplePair sampleScope fun _ => none).toOption.map
    fun result => result.creates.map fun ends => (ends.1.record, ends.2.record)) =
      some [(sampleIds 1, sampleIds 100), (sampleIds 2, sampleIds 101)] := by
  decide +kernel

theorem samplePair_fresh : samplePair.Fresh 2 where
  distinct first second less within := by
    obtain ⟨rfl, rfl⟩ : first = 0 ∧ second = 1 := by omega
    decide
  unlinked n within side := by
    obtain rfl | rfl : n = 0 ∨ n = 1 := by omega
    all_goals cases side <;> decide
  absent n within side := by
    obtain rfl | rfl : n = 0 ∨ n = 1 := by omega
    all_goals cases side <;> decide

theorem linkingPhase_one_to_one_sample : ∃ result : LinkingResult,
    @linkingPhase sampleFloats samplePair sampleScope (fun _ => none) = .ok result ∧
      (samplePair.linked .a ++ result.creates.map fun ends => (Side.a.of ends).record).Nodup := by
  have ran := samplePair_run
  obtain ⟨result, done, creates⟩ := Option.map_eq_some_iff.mp ran
  have done : @linkingPhase sampleFloats samplePair sampleScope (fun _ => none) = .ok result := by
    cases found : @linkingPhase sampleFloats samplePair sampleScope fun _ => none with
    | error failure =>
        rw [found] at done
        cases done
    | ok other =>
        rw [found] at done
        rw [Option.some.inj done]
  refine ⟨result, done, ?_⟩
  have count : result.creates.length = 2 := by
    rw [← List.length_map (f := fun ends : End × End => (ends.1.record, ends.2.record)), creates]
    rfl
  refine ((@linkingPhase_one_to_one sampleFloats samplePair sampleScope (fun _ => none)
    (fun side => by cases side <;> decide) fun other ran => ?_).2 result done .a).1
  obtain rfl := Except.ok.inj (done.symm.trans ran)
  rw [count]
  exact samplePair_fresh

end Pair

end Sync
end Metafolder
