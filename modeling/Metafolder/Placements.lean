import Metafolder.Eligibility

/-!
# The places of the rule holders

The loop that finds places agrees with the places the positions spell out, whatever places were
noted before.  What is read of the rules depends on the rows of the rule fields and on the places of
their holders alone.
-/

namespace Metafolder

open Ancestry

namespace Primary

variable [Externals]

/-! ### Rows read alike -/

/-- The rows of a field come in the order of their keys. -/
theorem Indexed.pairwise_rowsNamed {store : Primary} (indexed : store.Indexed) (uuid : Uuid)
    (name : String) : (store.rowsNamed uuid name).Pairwise fun first second =>
      compare (cellKey uuid name first.id) (cellKey uuid name second.id) = .lt := by
  have keyed : ∀ entry ∈ store.cells.prefixIter (cellPrefix uuid name),
      entry.1 = cellKey uuid name entry.2.id := by
    intro entry member
    obtain ⟨starts, found⟩ := (Table.mem_prefixIter _ _ _ _).mp member
    obtain ⟨owner, key_eq⟩ := indexed.cell_keyed found
    rw [key_eq, cellPrefix_prefix_cellKey] at starts
    rw [key_eq, starts.1, starts.2]
  refine List.pairwise_map.mpr ?_
  have ordered := store.cells.pairwise_entries.filter fun entry =>
    (cellPrefix uuid name).isPrefixOf entry.1
  refine List.Pairwise.imp_of_mem ?_ ordered
  intro first second memberFirst memberSecond below
  rw [keyed first memberFirst, keyed second memberSecond] at below
  exact below

/-- Stores that hold the same rows of some kind in a field read them alike. -/
theorem rowsNamed_filter_congr {first second : Primary} (indexedFirst : first.Indexed)
    (indexedSecond : second.Indexed) {uuid : Uuid} {name : String} (keep : FieldRow → Bool)
    (same : ∀ {row}, row.name = name → keep row →
      (first.Holds uuid row ↔ second.Holds uuid row)) :
    (first.rowsNamed uuid name).filter keep = (second.rowsNamed uuid name).filter keep := by
  have irreflexive : Std.Irrefl fun first second : FieldRow =>
      compare (cellKey uuid name first.id) (cellKey uuid name second.id) = .lt :=
    ⟨fun row => by simp [Std.ReflCmp.compare_self]⟩
  have antisymmetric : Std.Antisymm fun first second : FieldRow =>
      compare (cellKey uuid name first.id) (cellKey uuid name second.id) = .lt :=
    ⟨fun first second one two => by
      rw [Canonical.compare_swap, one] at two
      contradiction⟩
  refine List.Pairwise.eq_of_mem_iff ((indexedFirst.pairwise_rowsNamed uuid name).filter _)
    ((indexedSecond.pairwise_rowsNamed uuid name).filter _) fun row => ?_
  simp only [List.mem_filter, indexedFirst.mem_rowsNamed, indexedSecond.mem_rowsNamed]
  constructor
  · rintro ⟨⟨holds, named⟩, kept⟩
    exact ⟨⟨(same named kept).mp holds, named⟩, kept⟩
  · rintro ⟨⟨holds, named⟩, kept⟩
    exact ⟨⟨(same named kept).mpr holds, named⟩, kept⟩

theorem rowsNamed_congr {first second : Primary} (indexedFirst : first.Indexed)
    (indexedSecond : second.Indexed) {uuid : Uuid} {name : String}
    (same : ∀ {row}, row.name = name → (first.Holds uuid row ↔ second.Holds uuid row)) :
    first.rowsNamed uuid name = second.rowsNamed uuid name := by
  have all := rowsNamed_filter_congr indexedFirst indexedSecond (fun _ => true)
    fun named _ => same named
  simpa using all

omit [Externals] in
theorem findSome?_filter {α β : Type} {f : α → Option β} {keep : α → Bool}
    (kept : ∀ x, (f x).isSome → keep x) (items : List α) :
    (items.filter keep).findSome? f = items.findSome? f := by
  induction items with
  | nil => rfl
  | cons head rest ih =>
      cases held : keep head with
      | true => rw [List.filter_cons_of_pos held, List.findSome?_cons, List.findSome?_cons, ih]
      | false =>
          have nothing : f head = none := by
            rw [← Option.not_isSome_iff_eq_none]
            intro found
            rw [kept head found] at held
            contradiction
          rw [List.filter_cons_of_neg (by simp [held]), List.findSome?_cons, nothing, ih]

/-- Stores that hold the same positions of a metarecord place it alike. -/
theorem pathPosition_congr {first second : Primary} (indexedFirst : first.Indexed)
    (indexedSecond : second.Indexed) {uuid : Uuid}
    (same : ∀ {row}, row.name = "mfr_path" → row.value.position.isSome →
      (first.Holds uuid row ↔ second.Holds uuid row)) :
    first.pathPosition uuid = second.pathPosition uuid := by
  have positioned : ∀ row : FieldRow, row.value.treePosition.isSome →
      row.value.position.isSome := by
    intro row found
    cases held : row.value <;> simp_all [Value.position, Value.treePosition]
  rw [pathPosition, pathPosition, ← findSome?_filter positioned (first.rowsNamed uuid "mfr_path"),
    ← findSome?_filter positioned (second.rowsNamed uuid "mfr_path"),
    rowsNamed_filter_congr indexedFirst indexedSecond _ same]

/-- A position read is an edge of the forest. -/
theorem Indexed.up_of_pathPosition {store : Primary} (indexed : store.Indexed) {uuid parent : Uuid}
    {name : TreeName} (found : store.pathPosition uuid = some (some parent, name)) :
    store.Up "mfr_path" uuid parent := by
  obtain ⟨row, member, read⟩ := List.exists_of_findSome?_eq_some found
  obtain ⟨holds, named⟩ := indexed.mem_rowsNamed.mp member
  refine ⟨row, name, holds, named, ?_⟩
  cases held : row.value <;> simp_all [Value.position, Value.treePosition]

end Primary

/-! ### Places -/

/-- The place the positions above a metarecord give it. -/
inductive Stands (store : Primary) : Uuid → Placement → Prop
  /-- The root of the repository. -/
  | root {uuid : Uuid} {name : TreeName} (position : store.pathPosition uuid = some (none, name))
      (unnamed : name.bytes = []) : Stands store uuid ⟨[], [uuid]⟩
  /-- A metarecord under a placed one. -/
  | under {uuid parent : Uuid} {name : TreeName} {place : Placement}
      (position : store.pathPosition uuid = some (some parent, name))
      (above : Stands store parent place) : Stands store uuid (place.push name uuid)

theorem Stands.unique {store : Primary} {uuid : Uuid} {first second : Placement}
    (one : Stands store uuid first) (two : Stands store uuid second) : first = second := by
  induction one generalizing second with
  | root position unnamed =>
      cases two with
      | root other _ => rfl
      | under other _ => rw [position] at other; simp at other
  | under position above ih =>
      cases two with
      | root other _ => rw [position] at other; simp at other
      | under other above =>
          rw [position, Option.some.injEq, Prod.mk.injEq, Option.some.injEq] at other
          obtain ⟨rfl, rfl⟩ := other
          rw [ih above]

/-- A place is found again where the positions on the way to it are the same. -/
theorem Stands.congr {first second : Primary} {uuid : Uuid} {place : Placement}
    (stands : Stands first uuid place)
    (same : ∀ node ∈ place.chain, second.pathPosition node = first.pathPosition node) :
    Stands second uuid place := by
  induction stands with
  | root position unnamed =>
      refine .root ?_ unnamed
      · exact (same _ (by simp)).trans position
  | under position above ih =>
      refine .under ?_ (ih fun node member => same node ?_)
      · rw [same _ (by simp [Placement.push]), position]
      · simp [Placement.push, member]

/-- What is known of the place of a metarecord. -/
def Knows (store : Primary) (uuid : Uuid) : Option Placement → Prop
  | some place => Stands store uuid place
  | none => ∀ place, ¬Stands store uuid place

theorem Knows.unique {store : Primary} {uuid : Uuid} {first second : Option Placement}
    (one : Knows store uuid first) (two : Knows store uuid second) : first = second := by
  cases first with
  | none =>
      cases second with
      | none => rfl
      | some place => exact absurd two (one place)
  | some place =>
      cases second with
      | none => exact absurd one (two place)
      | some other => rw [Stands.unique one two]

theorem knows_unplaced {store : Primary} {uuid : Uuid} (unplaced : store.pathPosition uuid = none) :
    Knows store uuid none := by
  intro place stands
  cases stands with
  | root position _ => rw [unplaced] at position; contradiction
  | under position _ => rw [unplaced] at position; contradiction

theorem knows_named {store : Primary} {uuid : Uuid} {name : TreeName}
    (position : store.pathPosition uuid = some (none, name)) (named : name.bytes ≠ []) :
    Knows store uuid none := by
  intro place stands
  cases stands with
  | root other unnamed =>
      rw [position, Option.some.injEq, Prod.mk.injEq] at other
      exact named (other.2 ▸ unnamed)
  | under other _ => rw [position] at other; simp at other

theorem Knows.push {store : Primary} {uuid parent : Uuid} {name : TreeName}
    {known : Option Placement} (position : store.pathPosition uuid = some (some parent, name))
    (knows : Knows store parent known) : Knows store uuid (known.map (Placement.push name uuid)) := by
  cases known with
  | some place => exact .under position knows
  | none =>
      intro place stands
      cases stands with
      | root other _ => rw [position] at other; simp at other
      | under other above =>
          rw [position, Option.some.injEq, Prod.mk.injEq, Option.some.injEq] at other
          obtain ⟨rfl, rfl⟩ := other
          exact knows _ above

/-! ### The loop -/

/-- The places noted are right. -/
def Sound (store : Primary) (memo : Placements) : Prop :=
  ∀ {uuid known}, memo uuid = some known → Knows store uuid known

theorem Sound.update {store : Primary} {memo : Placements} (sound : Sound store memo) {uuid : Uuid}
    {known : Option Placement} (knows : Knows store uuid known) :
    Sound store (Function.update memo uuid (some known)) := by
  intro other found held
  rw [Function.update_apply] at held
  split at held
  next same =>
    rw [same, ← Option.some.inj held]
    exact knows
  next => exact sound held

/-- The metarecords passed on a way up, from the top down. -/
def Linked (store : Primary) (top : Uuid) : List (Uuid × TreeName) → Uuid → Prop
  | [], bottom => bottom = top
  | (node, name) :: rest, bottom =>
      store.pathPosition node = some (some top, name) ∧ Linked store node rest bottom

theorem Linked.climbs [Externals] {store : Primary} (indexed : store.Indexed) {top bottom : Uuid}
    {pending : List (Uuid × TreeName)} (linked : Linked store top pending bottom) :
    Climbs (store.Up "mfr_path") pending.length bottom top := by
  induction pending generalizing top with
  | nil => exact linked
  | cons head rest ih =>
      obtain ⟨node, name⟩ := head
      obtain ⟨position, below⟩ := linked
      exact (ih below).append (n := 1) ⟨top, indexed.up_of_pathPosition position, rfl⟩

/-- The way down gives each metarecord passed its place. -/
theorem descend_spec {store : Primary} {top bottom : Uuid} {pending : List (Uuid × TreeName)}
    (linked : Linked store top pending bottom) (held : Option Placement × Placements)
    (knows : Knows store top held.1) (sound : Sound store held.2) :
    Knows store bottom (pending.foldl descendPlacement held).1 ∧
      Sound store (pending.foldl descendPlacement held).2 := by
  induction pending generalizing top held with
  | nil =>
      rw [Linked] at linked
      rw [linked]
      exact ⟨knows, sound⟩
  | cons head rest ih =>
      obtain ⟨node, name⟩ := head
      obtain ⟨position, below⟩ := linked
      have placed := knows.push position
      exact ih below _ placed (sound.update placed)

/-- In a forest shallow enough, the way up ends at a metarecord whose place is known. -/
theorem climb_spec [Externals] {store : Primary} (indexed : store.Indexed)
    (bounded : Bounded (store.Up "mfr_path") maxTreeDepth) {memo : Placements}
    (sound : Sound store memo) (left : Nat) (cursor : Uuid) {bottom : Uuid}
    (pending : List (Uuid × TreeName)) (room : maxTreeDepth ≤ left + pending.length)
    (linked : Linked store cursor pending bottom) :
    ∃ top, Linked store top (climbPlacement store memo left cursor pending).2.2 bottom ∧
      Knows store top (climbPlacement store memo left cursor pending).1 ∧
      Sound store (climbPlacement store memo left cursor pending).2.1 := by
  induction left generalizing cursor pending with
  | zero =>
      have short := bounded (linked.climbs indexed)
      omega
  | succ left ih =>
      rw [climbPlacement]
      split
      next known noted => exact ⟨cursor, linked, sound noted, sound⟩
      next =>
        split
        next unplaced => exact ⟨cursor, linked, knows_unplaced unplaced, sound⟩
        next name position =>
          split
          next unnamed =>
            have stands : Knows store cursor (some ⟨[], [cursor]⟩) := .root position unnamed
            exact ⟨cursor, linked, stands, sound.update stands⟩
          next named => exact ⟨cursor, linked, knows_named position named, sound⟩
        next parent name position =>
          refine ih _ _ ?_ ⟨position, linked⟩
          rw [List.length_cons]
          omega

/-- The place of a metarecord is the one its positions spell out. -/
theorem placement_spec [Externals] {store : Primary} (indexed : store.Indexed)
    (bounded : Bounded (store.Up "mfr_path") maxTreeDepth) {memo : Placements}
    (sound : Sound store memo) (uuid : Uuid) :
    Knows store uuid (placement store uuid memo).1 ∧ Sound store (placement store uuid memo).2 := by
  obtain ⟨top, linked, knows, kept⟩ :=
    climb_spec indexed bounded sound (maxPlacement + 1) uuid [] (by decide) rfl
  obtain ⟨placed, noted⟩ := descend_spec linked ((climbPlacement store memo (maxPlacement + 1)
    uuid []).1, (climbPlacement store memo (maxPlacement + 1) uuid []).2.1) knows kept
  refine ⟨placed, ?_⟩
  unfold placement
  dsimp only
  split
  next nowhere =>
    rw [nowhere] at placed
    exact noted.update placed
  next => exact noted

/-! ### The whole index -/

variable [Externals] [Patterns]

/-- The metarecords a holder of a rule adds are affected, and those affected before stay so. -/
theorem loadHolder_affected {store : Primary} (indexed : store.Indexed)
    (bounded : Bounded (store.Up "mfr_path") maxTreeDepth) {held : WatchRules × Placements}
    (sound : Sound store held.2) (uuid : Uuid) :
    Sound store (loadHolder store held uuid).2 ∧
      held.1.affected ⊆ (loadHolder store held uuid).1.affected ∧
      uuid ∈ (loadHolder store held uuid).1.affected ∧
      ∀ {place}, (carrierOf store uuid).bare = false → Stands store uuid place →
        place.chain ⊆ (loadHolder store held uuid).1.affected := by
  obtain ⟨knows, kept⟩ := placement_spec indexed bounded sound uuid
  unfold loadHolder
  dsimp only
  split
  next bare =>
    refine ⟨sound, List.subset_append_left _ _, by simp, fun full => ?_⟩
    rw [bare] at full
    contradiction
  next =>
    split
    next nowhere =>
      rw [nowhere] at knows
      exact ⟨kept, List.subset_append_left _ _, by simp, fun _ stands => absurd stands (knows _)⟩
    next place found =>
      rw [found] at knows
      refine ⟨kept, ?_, by simp [WatchRules.enter], fun {other} _ stands => ?_⟩
      · intro node member
        simp [WatchRules.enter, member]
      · obtain rfl := Stands.unique knows stands
        exact List.subset_append_right _ _

theorem loadHolders_affected {store : Primary} (indexed : store.Indexed)
    (bounded : Bounded (store.Up "mfr_path") maxTreeDepth) (items : List Uuid)
    (held : WatchRules × Placements) (sound : Sound store held.2) :
    held.1.affected ⊆ (items.foldl (loadHolder store) held).1.affected ∧
      ∀ uuid ∈ items, uuid ∈ (items.foldl (loadHolder store) held).1.affected ∧
        ∀ {place}, (carrierOf store uuid).bare = false → Stands store uuid place →
          place.chain ⊆ (items.foldl (loadHolder store) held).1.affected := by
  induction items generalizing held with
  | nil => exact ⟨List.Subset.refl _, by simp⟩
  | cons head rest ih =>
      obtain ⟨kept, grown, mine, above⟩ := loadHolder_affected indexed bounded sound head
      obtain ⟨later, others⟩ := ih _ kept
      refine ⟨List.Subset.trans grown later, fun uuid member => ?_⟩
      rcases List.mem_cons.mp member with rfl | member
      · exact ⟨later mine, fun full stands => List.Subset.trans (above full stands) later⟩
      · exact others uuid member

/-- Every holder of a rule is affected, and every metarecord above one that has a place. -/
theorem WatchRules.affects_load {store : KvStore} (indexed : store.tx.primary.Indexed)
    (bounded : Bounded (store.tx.primary.Up "mfr_path") maxTreeDepth) {caseInsensitive : Bool}
    {uuid : Uuid} (holder : uuid ∈ ruleHolders store.tx.primary) :
    (load store caseInsensitive).affects uuid ∧
      ∀ {place}, (carrierOf store.tx.primary uuid).bare = false →
        Stands store.tx.primary uuid place → ∀ node ∈ place.chain,
          (load store caseInsensitive).affects node := by
  have empty : Sound store.tx.primary (fun _ => none) := by
    intro uuid known noted
    simp at noted
  obtain ⟨-, each⟩ := loadHolders_affected indexed bounded (ruleHolders store.tx.primary)
    ({ caseInsensitive := caseInsensitive, head := store.log.head }, fun _ => none) empty
  obtain ⟨mine, above⟩ := each uuid holder
  refine ⟨decide_eq_true mine, fun full stands node member => ?_⟩
  exact decide_eq_true (above full stands member)

/-- Two stores hold the same rules, at the same places. -/
structure SameRules (first second : Primary) : Prop where
  /-- The same metarecords hold rules. -/
  holders_eq : ruleHolders second = ruleHolders first
  /-- They hold the same rules. -/
  carrier_eq : ∀ uuid, carrierOf second uuid = carrierOf first uuid
  /-- They have the same places. -/
  places : ∀ {uuid known}, uuid ∈ ruleHolders first → (carrierOf first uuid).bare = false →
    Knows first uuid known → Knows second uuid known

/-- One holder adds the same to the index of both stores. -/
theorem SameRules.loadHolder_eq {first second : Primary} (same : SameRules first second)
    (indexedFirst : first.Indexed) (indexedSecond : second.Indexed)
    (boundedFirst : Bounded (first.Up "mfr_path") maxTreeDepth)
    (boundedSecond : Bounded (second.Up "mfr_path") maxTreeDepth) {uuid : Uuid}
    (holder : uuid ∈ ruleHolders first) {one two : Placements} (soundFirst : Sound first one)
    (soundSecond : Sound second two) (rules : WatchRules) (head : Option Int64) :
    (loadHolder second ({ rules with head := head }, two) uuid).1 =
      { (loadHolder first (rules, one) uuid).1 with head := head } := by
  obtain ⟨knowsFirst, -⟩ := placement_spec indexedFirst boundedFirst soundFirst uuid
  obtain ⟨knowsSecond, -⟩ := placement_spec indexedSecond boundedSecond soundSecond uuid
  unfold loadHolder
  dsimp only
  rw [same.carrier_eq]
  split
  next => rfl
  next full =>
    have found := (same.places holder (by simpa using full) knowsFirst).unique knowsSecond
    rw [← found]
    cases (placement first uuid one).1 with
    | none => rfl
    | some place => rfl

/-- The rules of two stores that hold the same are the same, the newest operation aside.  The places
noted on the two sides differ: each is right in its own store. -/
theorem WatchRules.load_congr {first second : KvStore} (indexedFirst : first.tx.primary.Indexed)
    (indexedSecond : second.tx.primary.Indexed)
    (boundedFirst : Bounded (first.tx.primary.Up "mfr_path") maxTreeDepth)
    (boundedSecond : Bounded (second.tx.primary.Up "mfr_path") maxTreeDepth)
    (same : SameRules first.tx.primary second.tx.primary) (caseInsensitive : Bool) :
    load second caseInsensitive =
      { load first caseInsensitive with head := second.log.head } := by
  have walk : ∀ (items : List Uuid) (held other : WatchRules × Placements),
      items ⊆ ruleHolders first.tx.primary → Sound first.tx.primary held.2 →
        Sound second.tx.primary other.2 → other.1 = { held.1 with head := second.log.head } →
          (items.foldl (loadHolder second.tx.primary) other).1 =
            { (items.foldl (loadHolder first.tx.primary) held).1 with head := second.log.head } := by
    intro items
    induction items with
    | nil => exact fun held other _ _ _ rules_eq => rules_eq
    | cons head rest ih =>
        intro held other within soundFirst soundSecond rules_eq
        have stepped := same.loadHolder_eq indexedFirst indexedSecond boundedFirst boundedSecond
          (within List.mem_cons_self) soundFirst soundSecond held.1 second.log.head
        rw [← rules_eq] at stepped
        refine ih _ _ (fun _ member => within (List.mem_cons_of_mem head member)) ?_ ?_ stepped
        · exact (loadHolder_affected indexedFirst boundedFirst soundFirst head).1
        · exact (loadHolder_affected indexedSecond boundedSecond soundSecond head).1
  have empty : ∀ {store : Primary}, Sound store (fun _ => none) := by
    intro store uuid known noted
    simp at noted
  rw [load, same.holders_eq]
  exact walk _ ({ caseInsensitive := caseInsensitive, head := first.log.head }, fun _ => none) _
    (List.Subset.refl _) empty empty rfl

end Metafolder
