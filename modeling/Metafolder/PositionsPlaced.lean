import Mathlib.Data.List.TakeWhile
import Metafolder.Decimals
import Metafolder.Positions

/-!
# Where the children of a folder are placed

Every child without a position gets one, and the members of a name cluster that the second phase
places are as far apart as their numbers; the one addition that can overflow is the first phase's.
-/

namespace Metafolder
namespace Order

/-! ### Arithmetic -/

instance lawfulOrderMax_int64 : Std.LawfulOrderMax Int64 where
  max_le_iff one other bound := by
    change (if one ≤ other then other else one) ≤ bound ↔ _
    split
    · next below =>
      rw [Int64.le_iff_toInt_le] at below
      rw [Int64.le_iff_toInt_le, Int64.le_iff_toInt_le]
      omega
    · next above =>
      rw [Int64.le_iff_toInt_le] at above
      rw [Int64.le_iff_toInt_le, Int64.le_iff_toInt_le]
      omega
  max_eq_or one other := by
    change (if one ≤ other then other else one) = one ∨ (if one ≤ other then other else one) = other
    split
    · exact .inr rfl
    · exact .inl rfl

section Arithmetic

variable {one other sum : Int64}

theorem checkedAdd_eq_some : checkedAdd one other = some sum ↔
    sum.toInt = one.toInt + other.toInt := by
  have low := sum.le_toInt
  have high := sum.toInt_lt
  rw [checkedAdd]
  split
  · next fits =>
    rw [Option.some.injEq]
    constructor
    · rintro rfl
      exact Int64.toInt_ofInt_of_le fits.1 fits.2
    · intro same
      rw [← same, Int64.ofInt_toInt]
  · next past => exact iff_of_false nofun fun same => past (by omega)

theorem checkedSub_eq_some : checkedSub one other = some sum ↔
    sum.toInt = one.toInt - other.toInt := by
  have low := sum.le_toInt
  have high := sum.toInt_lt
  rw [checkedSub]
  split
  · next fits =>
    rw [Option.some.injEq]
    constructor
    · rintro rfl
      exact Int64.toInt_ofInt_of_le fits.1 fits.2
    · intro same
      rw [← same, Int64.ofInt_toInt]
  · next past => exact iff_of_false nofun fun same => past (by omega)

/-- Only past the greatest does adding one overflow. -/
theorem checkedAdd_one_eq_none : checkedAdd one 1 = none ↔ one = Int64.maxValue := by
  have low := one.le_toInt
  have high := one.toInt_lt
  have greatest : Int64.maxValue.toInt = 2 ^ 63 - 1 := rfl
  have unit : (1 : Int64).toInt = 1 := rfl
  rw [checkedAdd, ← Int64.toInt_inj, greatest, unit]
  split
  · next fits => exact iff_of_false nofun (by omega)
  · next past => exact iff_of_true rfl (by omega)

/-- Numbers that are not negative are subtracted without overflow. -/
theorem checkedSub_isSome (first : 0 ≤ one.toInt) (second : 0 ≤ other.toInt) :
    (checkedSub one other).isSome := by
  have high := one.toInt_lt
  have more := other.toInt_lt
  rw [checkedSub]
  rw [if_pos (by omega)]
  rfl

variable {anchorPos value anchorValue position : Int64}

/-- An item is as far from the anchor as its value from the anchor's. -/
theorem toInt_of_offset (placed : offset anchorPos value anchorValue = some position) :
    position.toInt = anchorPos.toInt + (value.toInt - anchorValue.toInt) := by
  obtain ⟨difference, subtracted, added⟩ := Option.bind_eq_some_iff.mp placed
  rw [checkedAdd_eq_some.mp added, checkedSub_eq_some.mp subtracted]

theorem offset_self (anchorPos value : Int64) : offset anchorPos value value = some anchorPos := by
  have none_between : checkedSub value value = some 0 := checkedSub_eq_some.mpr (by
    have zero : (0 : Int64).toInt = 0 := rfl
    omega)
  rw [offset, none_between]
  exact checkedAdd_eq_some.mpr (by
    have zero : (0 : Int64).toInt = 0 := rfl
    omega)

end Arithmetic

variable {items : List Item} {threshold : Int64} {placing : Placing}

/-! ### The first phase -/

/-- The first phase ends unless the highest position is the greatest there is and an item has
metadata. -/
theorem metaPhase_eq_none : metaPhase items placing = none ↔
    placing.maxpos = Int64.maxValue ∧
      ∃ index, index < items.length ∧ placing.placed index = none ∧
        (metaOf items index).isSome = true := by
  rw [metaPhase]
  dsimp only
  have listed (index : Nat) : index ∈ (((List.range items.length).filter fun index =>
      (placing.placed index).isNone && (metaOf items index).isSome).insertionSort
        (metaBefore items · ·)) ↔ index < items.length ∧ placing.placed index = none ∧
          (metaOf items index).isSome = true := by
    rw [(List.perm_insertionSort _ _).mem_iff]
    simp [List.mem_filter]
  split
  · next none =>
    refine iff_of_false nofun fun found => ?_
    obtain ⟨-, index, within⟩ := found
    have member := (listed index).mpr within
    rw [none] at member
    cases member
  · next first rest found =>
    have member := (listed first).mp (found ▸ List.mem_cons_self)
    rw [← checkedAdd_one_eq_none]
    constructor
    · intro past
      refine ⟨?_, first, member⟩
      cases added : checkedAdd placing.maxpos 1 with
      | none => rfl
      | some sum =>
          rw [added] at past
          cases past
    · intro found
      rw [found.1]
      rfl

/-- The greatest of the positions there are. -/
theorem maxpos_start : (start items).maxpos = Int64.maxValue ↔
    ∃ item ∈ items, item.existing = some Int64.maxValue := by
  have listed : (∃ item ∈ items, item.existing = some Int64.maxValue) ↔
      Int64.maxValue ∈ items.filterMap Item.existing := by
    rw [List.mem_filterMap]
  rw [listed, start]
  dsimp only
  cases greatest : (items.filterMap Item.existing).max? with
  | none =>
      rw [List.max?_eq_none_iff.mp greatest]
      exact iff_of_false (by decide) List.not_mem_nil
  | some top =>
      obtain ⟨member, above⟩ := List.max?_eq_some_iff.mp greatest
      rw [Option.getD_some]
      constructor
      · rintro rfl
        exact member
      · intro there
        have low := Int64.le_iff_toInt_le.mp (above _ there)
        have high := top.toInt_lt
        have last : Int64.maxValue.toInt = 2 ^ 63 - 1 := rfl
        rw [← Int64.toInt_inj]
        omega

/-! ### Groups and clusters -/

/-- The number in a name is not negative. -/
theorem numberOf_nonneg (index : Nat) : 0 ≤ (numberOf items index).toInt := by
  rw [numberOf]
  cases found : lastNumber (nameOf items index) with
  | none => decide
  | some parts =>
      rw [lastNumber] at found
      split at found
      · cases found
      · obtain ⟨number, read, rfl⟩ := Option.map_eq_some_iff.mp found
        refine parseInt64_nonneg (fun c member => ?_) read
        rw [List.mem_reverse] at member
        exact ne_of_isDigit (List.mem_takeWhile_imp member) rfl

theorem mem_numbers {members : List Nat} {number : Int64}
    (member : number ∈ numbers items members) : 0 ≤ number.toInt := by
  have listed := (List.destutter_sublist _ _).subset member
  rw [(List.perm_insertionSort _ _).mem_iff] at listed
  obtain ⟨index, -, rfl⟩ := List.mem_map.mp listed
  exact numberOf_nonneg index

theorem mapM_eq_map {α β : Type} {f : α → Option β} {list : List α} (default : β)
    (each : ∀ value ∈ list, (f value).isSome) :
    list.mapM f = some (list.map fun value => (f value).getD default) := by
  induction list with
  | nil => rfl
  | cons head rest ih =>
      obtain ⟨first, here⟩ := Option.isSome_iff_exists.mp (each head List.mem_cons_self)
      rw [List.mapM_cons, here, ih fun value member => each value (List.mem_cons_of_mem _ member),
        List.map_cons, here]
      rfl

/-- The gaps between the numbers of names do not overflow. -/
theorem spread_isSome (members : List Nat) : (spread items threshold members).isSome := by
  rw [spread]
  split
  · rfl
  · rw [mapM_eq_map 0]
    · rfl
    · intro pair member
      have first := (List.of_mem_zip member).1
      have second := List.mem_of_mem_tail (List.of_mem_zip member).2
      exact checkedSub_isSome (mem_numbers second) (mem_numbers first)

theorem cluster_isSome (members : List Nat) :
    (cluster items threshold placing members).isSome := by
  obtain ⟨far, same⟩ := Option.isSome_iff_exists.mp (@spread_isSome items threshold members)
  rw [cluster, same]
  split
  · rfl
  · cases far with
    | true => rfl
    | false =>
        change (if members.all fun index => (placing.placed index).isSome then some none
          else _ : Option (Option Cluster)).isSome = true
        split
        · rfl
        · split
          · rfl
          · rfl

/-- An item is in the group of its name's skeleton. -/
theorem mem_enter {held : Groups} {skeleton : List Char × List Char} {index other : Nat} :
    other ∈ ((enter items held index)[skeleton]?).getD [] ↔ other ∈ (held[skeleton]?).getD [] ∨
      other = index ∧ ∃ number, lastNumber (nameOf items index) =
        some (skeleton.1, skeleton.2, number) := by
  rw [enter]
  cases found : lastNumber (nameOf items index) with
  | none => simp
  | some parts =>
      obtain ⟨front, back, number⟩ := parts
      dsimp only
      rw [Std.ExtTreeMap.getElem?_alter]
      by_cases same : (front, back) = skeleton
      · subst same
        simp [Std.ReflCmp.compare_self]
      · rw [if_neg fun equal => same (Std.LawfulEqCmp.eq_of_compare equal)]
        refine (or_iff_left fun entered => same ?_).symm
        obtain ⟨-, _, here⟩ := entered
        obtain ⟨first, rest⟩ := Prod.mk.inj (Option.some.inj here)
        exact Prod.ext first (Prod.mk.inj rest).1

/-- The members of a group are the items whose names have its skeleton. -/
theorem mem_groups {skeleton : List Char × List Char} {index : Nat} :
    index ∈ ((groups items)[skeleton]?).getD [] ↔ index < items.length ∧
      ∃ number, lastNumber (nameOf items index) = some (skeleton.1, skeleton.2, number) := by
  have step (indices : List Nat) (held : Groups) :
      index ∈ ((indices.foldl (enter items) held)[skeleton]?).getD [] ↔
        index ∈ (held[skeleton]?).getD [] ∨ index ∈ indices ∧
          ∃ number, lastNumber (nameOf items index) = some (skeleton.1, skeleton.2, number) := by
    induction indices generalizing held with
    | nil => simp
    | cons first rest ih =>
        rw [List.foldl_cons, ih, mem_enter, List.mem_cons, or_assoc]
        refine or_congr_right ?_
        constructor
        · rintro (⟨rfl, skeleton⟩ | ⟨later, skeleton⟩)
          · exact ⟨.inl rfl, skeleton⟩
          · exact ⟨.inr later, skeleton⟩
        · rintro ⟨rfl | later, skeleton⟩
          · exact .inl ⟨rfl, skeleton⟩
          · exact .inr ⟨later, skeleton⟩
  rw [groups, step]
  simp

/-- The clusters found. -/
def found (items : List Item) (threshold : Int64) (placing : Placing) : List Cluster :=
  ((groups items).toList.filterMap fun group =>
    (cluster items threshold placing group.2).getD none).insertionSort (clusterBefore · ·)

theorem clusters_eq : clusters items threshold placing = some (found items threshold placing) := by
  rw [clusters, mapM_eq_map none fun members _ => cluster_isSome members, List.map_map]
  change some (List.insertionSort _ (List.filterMap id (List.map _ _))) = _
  rw [List.filterMap_map]
  rfl

/-- The second phase ends. -/
theorem namePhase_eq : namePhase items threshold placing =
    some ((found items threshold placing).foldl (placeCluster items) placing) := by
  rw [namePhase, clusters_eq]
  rfl

theorem lowest_mem {value : Nat → Int64} {members : List Nat} {index : Nat}
    (least : lowest value members = some index) : index ∈ members := by
  induction members generalizing index with
  | nil => cases least
  | cons head rest ih =>
      rw [lowest] at least
      split at least
      · obtain rfl := Option.some.inj least
        exact List.mem_cons_self
      · next other found =>
        split at least
        · obtain rfl := Option.some.inj least
          exact List.mem_cons_of_mem _ (ih found)
        · obtain rfl := Option.some.inj least
          exact List.mem_cons_self

theorem lowest_eq_none {value : Nat → Int64} {members : List Nat}
    (none_ : lowest value members = none) : members = [] := by
  cases members with
  | nil => rfl
  | cons head rest =>
      rw [lowest] at none_
      split at none_
      · cases none_
      · split at none_
        · cases none_
        · cases none_

/-- What a cluster is made of: a group, and one of its members that is placed, or one of a group of
which none is. -/
theorem cluster_spec {members : List Nat} {made : Cluster}
    (built : cluster items threshold placing members = some (some made)) :
    made.members = members ∧ (made.anchored = false → made.anchor ∈ members ∧
      ∀ index ∈ members, placing.placed index = none) := by
  rw [cluster] at built
  split at built
  · cases built
  · obtain ⟨far, -, built⟩ := Option.bind_eq_some_iff.mp built
    split at built
    · cases built
    · split at built
      · cases built
      · split at built
        · obtain rfl := Option.some.inj (Option.some.inj built)
          exact ⟨rfl, nofun⟩
        · next unplaced =>
          obtain ⟨anchor, least, rfl⟩ := Option.map_eq_some_iff.mp (Option.some.inj built)
          refine ⟨rfl, fun _ => ⟨lowest_mem least, fun index member => ?_⟩⟩
          have none_ := List.filter_eq_nil_iff.mp (lowest_eq_none unplaced) index member
          simpa using none_

/-- Clusters are groups, and no item is in two. -/
theorem found_spec : (∀ made ∈ found items threshold placing,
      (∃ skeleton : List Char × List Char, (groups items)[skeleton]? = some made.members) ∧
        (made.anchored = false → made.anchor ∈ made.members ∧
          ∀ index ∈ made.members, placing.placed index = none)) ∧
    (found items threshold placing).Pairwise fun one other =>
      ∀ index ∈ one.members, index ∉ other.members := by
  have built {group : (List Char × List Char) × List Nat} {made : Cluster}
      (here : (cluster items threshold placing group.2).getD none = some made) :
      cluster items threshold placing group.2 = some (some made) := by
    obtain ⟨found, same⟩ := Option.isSome_iff_exists.mp
      (@cluster_isSome items threshold placing group.2)
    rw [same, Option.getD_some] at here
    rw [same, here]
  constructor
  · intro made member
    rw [found, (List.perm_insertionSort _ _).mem_iff] at member
    obtain ⟨group, listed, here⟩ := List.mem_filterMap.mp member
    obtain ⟨same, rest⟩ := cluster_spec (built here)
    rw [same]
    exact ⟨⟨group.1, Std.ExtTreeMap.mem_toList_iff_getElem?_eq_some.mp listed⟩, rest⟩
  · have apart : ((groups items).toList.filterMap fun group =>
        (cluster items threshold placing group.2).getD none).Pairwise fun one other =>
          ∀ index ∈ one.members, index ∉ other.members := by
      rw [List.pairwise_filterMap]
      refine List.Pairwise.imp_of_mem ?_ Std.ExtTreeMap.distinct_keys_toList
      intro one other first second differ made here next there index within also
      rw [(cluster_spec (built here)).1] at within
      rw [(cluster_spec (built there)).1] at also
      have group := Std.ExtTreeMap.mem_toList_iff_getElem?_eq_some.mp first
      have further := Std.ExtTreeMap.mem_toList_iff_getElem?_eq_some.mp second
      have here : index ∈ ((groups items)[one.1]?).getD [] := by
        rw [group]
        exact within
      have there : index ∈ ((groups items)[other.1]?).getD [] := by
        rw [further]
        exact also
      obtain ⟨-, number, skeleton⟩ := mem_groups.mp here
      obtain ⟨-, _, again⟩ := mem_groups.mp there
      obtain ⟨fronts, rest⟩ := Prod.mk.inj (Option.some.inj (skeleton.symm.trans again))
      refine differ ?_
      rw [Prod.ext fronts (Prod.mk.inj rest).1]
      exact Std.ReflCmp.compare_self
    exact (List.perm_insertionSort _ _).symm.pairwise apart
      fun differ index member within => differ index within member

/-! ### The second phase -/

section Members

variable {value : Nat → Int64} {anchorPos anchorValue : Int64} {made : Cluster}

/-- One member of a cluster is placed, unless it is already. -/
theorem placed_member (head index : Nat) :
    (if (placing.placed head).isSome then placing
      else placeBy value anchorPos anchorValue placing head).placed index =
    (placing.placed index).or
      (if index = head then offset anchorPos (value index) anchorValue else none) := by
  by_cases same : index = head
  · subst same
    rw [if_pos rfl]
    cases here : placing.placed index with
    | some position => exact here
    | none =>
        rw [if_neg nofun, Option.none_or, placeBy]
        cases fits : offset anchorPos (value index) anchorValue with
        | none => exact here
        | some position => exact if_pos rfl
  · rw [if_neg same, Option.or_none]
    split
    · rfl
    · rw [placeBy]
      split
      · exact if_neg same
      · rfl

/-- The members of a cluster are placed one after another. -/
theorem placed_members (members : List Nat) (placing : Placing) (index : Nat) :
    (members.foldl (fun placing index =>
      if (placing.placed index).isSome then placing
      else placeBy value anchorPos anchorValue placing index) placing).placed index =
    (placing.placed index).or
      (if index ∈ members then offset anchorPos (value index) anchorValue else none) := by
  induction members generalizing placing with
  | nil => exact Option.or_none.symm
  | cons head rest ih =>
      rw [List.foldl_cons, ih, placed_member, Option.or_assoc]
      congr 1
      by_cases same : index = head
      · subst same
        rw [if_pos rfl, if_pos List.mem_cons_self]
        split
        · exact Option.or_self
        · exact Option.or_none
      · rw [if_neg same, Option.none_or]
        simp only [List.mem_cons, same, false_or]

/-- All members of a cluster are placed from one position. -/
theorem placeCluster_spec
    (apart : made.anchored = false → made.anchor ∈ made.members ∧
      placing.placed made.anchor = none) :
    ∃ anchorPos, ∀ index, (placeCluster items placing made).placed index =
      (placing.placed index).or (if index ∈ made.members then
        offset anchorPos (numberOf items index) (numberOf items made.anchor) else none) := by
  cases pinned : made.anchored with
  | true =>
      refine ⟨made.anchorPos, fun index => ?_⟩
      rw [placeCluster, pinned]
      exact placed_members made.members placing index
  | false =>
      obtain ⟨member, unplaced⟩ := apart pinned
      refine ⟨saturatingAdd placing.maxpos 1, fun index => ?_⟩
      rw [placeCluster, pinned]
      refine (placed_members made.members _ index).trans ?_
      by_cases same : index = made.anchor
      · subst same
        have put : (if false = true then placing
            else placing.put made.anchor (saturatingAdd placing.maxpos 1)).placed made.anchor =
              some (saturatingAdd placing.maxpos 1) := if_pos rfl
        rw [put, if_pos member, if_pos member, unplaced, Option.none_or, offset_self,
          offset_self]
        rfl
      · congr 1
        exact if_neg same

end Members

/-- The clusters are placed one after another, and none moves what another placed. -/
theorem placed_clusters {list : List Cluster}
    (disjoint : list.Pairwise fun one other => ∀ index ∈ one.members, index ∉ other.members)
    (apart : ∀ made ∈ list, made.anchored = false → made.anchor ∈ made.members ∧
      ∀ index ∈ made.members, placing.placed index = none) :
    (∀ index, (∀ made ∈ list, index ∉ made.members) →
      (list.foldl (placeCluster items) placing).placed index = placing.placed index) ∧
    ∀ made ∈ list, ∃ anchorPos, ∀ index ∈ made.members,
      (list.foldl (placeCluster items) placing).placed index = (placing.placed index).or
        (offset anchorPos (numberOf items index) (numberOf items made.anchor)) := by
  induction list generalizing placing with
  | nil => exact ⟨fun _ _ => rfl, nofun⟩
  | cons first rest ih =>
      obtain ⟨away, disjoint⟩ := List.pairwise_cons.mp disjoint
      obtain ⟨anchorPos, here⟩ := @placeCluster_spec items placing first fun free =>
        have found := apart first List.mem_cons_self free
        ⟨found.1, found.2 _ found.1⟩
      have still (index : Nat) (outside : index ∉ first.members) :
          (placeCluster items placing first).placed index = placing.placed index := by
        rw [here, if_neg outside, Option.or_none]
      obtain ⟨others, placed⟩ := @ih (placeCluster items placing first) disjoint
        fun made member free =>
          have found := apart made (List.mem_cons_of_mem _ member) free
          ⟨found.1, fun index within => by
            rw [still index fun also => away made member index also within]
            exact found.2 index within⟩
      constructor
      · intro index outside
        rw [List.foldl_cons, others index fun made member =>
          outside made (List.mem_cons_of_mem _ member)]
        exact still index (outside first List.mem_cons_self)
      · intro made member
        rcases List.mem_cons.mp member with rfl | later
        · refine ⟨anchorPos, fun index within => ?_⟩
          rw [List.foldl_cons, others index fun other also => away other also index within, here,
            if_pos within]
        · obtain ⟨anchorPos, each⟩ := placed made later
          refine ⟨anchorPos, fun index within => ?_⟩
          rw [List.foldl_cons, each index within,
            still index fun also => away made later index also within]

/-! ### The last phase -/

theorem placed_leftovers (list : List Nat) (placing : Placing) :
    (∀ index, index ∉ list → (list.foldl (fun placing index =>
      placing.put index (saturatingAdd placing.maxpos 1)) placing).placed index =
        placing.placed index) ∧
    ∀ index ∈ list, ((list.foldl (fun placing index =>
      placing.put index (saturatingAdd placing.maxpos 1)) placing).placed index).isSome := by
  induction list generalizing placing with
  | nil => exact ⟨fun _ _ => rfl, nofun⟩
  | cons head rest ih =>
      obtain ⟨others, placed⟩ := ih (placing.put head (saturatingAdd placing.maxpos 1))
      constructor
      · intro index outside
        rw [List.mem_cons, not_or] at outside
        rw [List.foldl_cons, others index outside.2]
        exact if_neg outside.1
      · intro index member
        by_cases later : index ∈ rest
        · exact placed index later
        · rw [List.foldl_cons, others index later]
          rcases List.mem_cons.mp member with rfl | later'
          · have put : (placing.put index (saturatingAdd placing.maxpos 1)).placed index =
                some (saturatingAdd placing.maxpos 1) := if_pos rfl
            rw [put]
            rfl
          · exact absurd later' later

/-- The last phase places what is left and moves nothing. -/
theorem datePhase_spec :
    (∀ index position, placing.placed index = some position →
      (datePhase items placing).placed index = some position) ∧
    ∀ index, index < items.length → ((datePhase items placing).placed index).isSome := by
  have listed (index : Nat) : index ∈ (((List.range items.length).filter fun index =>
      (placing.placed index).isNone).insertionSort (dateBefore items · ·)) ↔
        index < items.length ∧ placing.placed index = none := by
    rw [(List.perm_insertionSort _ _).mem_iff]
    simp [List.mem_filter]
  obtain ⟨others, placed⟩ := placed_leftovers (((List.range items.length).filter fun index =>
      (placing.placed index).isNone).insertionSort (dateBefore items · ·)) placing
  have kept (index : Nat) (position : Int64) (there : placing.placed index = some position) :
      (datePhase items placing).placed index = some position := by
    refine (others index fun member => ?_).trans there
    rw [((listed index).mp member).2] at there
    cases there
  refine ⟨kept, fun index within => ?_⟩
  cases there : placing.placed index with
  | some position =>
      rw [kept index position there]
      rfl
  | none => exact placed index ((listed index).mpr ⟨within, there⟩)

/-! ### All of it -/

/-- What an answer is to be: each item without a position gets one and no other item does, and where
the second phase places two members of one name cluster they are as far apart as their numbers. -/
def Right (items : List Item) (threshold : Int64) (out : List Assignment) : Prop :=
  ∃ metas names, metaPhase items (start items) = some metas ∧
    namePhase items threshold metas = some names ∧
    ∃ position : Nat → Int64,
      out.Perm ((items.zipIdx.filter fun entry => entry.1.existing.isNone).map fun entry =>
        ⟨entry.1.key, position entry.2⟩) ∧
      ∀ one other front back number further,
        lastNumber (nameOf items one) = some (front, back, number) →
        lastNumber (nameOf items other) = some (front, back, further) →
        metas.placed one = none → (names.placed one).isSome →
        metas.placed other = none → (names.placed other).isSome →
        (position one).toInt - (position other).toInt = number.toInt - further.toInt

/-- What the second phase places is in a cluster. -/
theorem placed_in_cluster {names : Placing} {index : Nat} {position : Int64}
    (ended : namePhase items threshold placing = some names)
    (unplaced : placing.placed index = none) (placed : names.placed index = some position) :
    ∃ made ∈ found items threshold placing, index ∈ made.members := by
  rw [namePhase_eq] at ended
  obtain rfl := Option.some.inj ended
  by_contra outside
  have still := (@placed_clusters items placing _ found_spec.2 fun made member =>
    (found_spec.1 made member).2).1 index fun made member within =>
      outside ⟨made, member, within⟩
  rw [still, unplaced] at placed
  cases placed

/-- Two items that the second phase places and whose names have one skeleton are as far apart as the
numbers. -/
theorem placed_apart {names : Placing} {one other : Nat} {front back : List Char}
    {number further position place : Int64}
    (ended : namePhase items threshold placing = some names)
    (read : lastNumber (nameOf items one) = some (front, back, number))
    (also : lastNumber (nameOf items other) = some (front, back, further))
    (unplaced : placing.placed one = none) (placed : names.placed one = some position)
    (without : placing.placed other = none) (there : names.placed other = some place) :
    position.toInt - place.toInt = number.toInt - further.toInt := by
  obtain ⟨made, member, within⟩ := placed_in_cluster ended unplaced placed
  obtain ⟨⟨skeleton, group⟩, -⟩ := found_spec.1 made member
  have mem (index : Nat) : index ∈ made.members ↔ index < items.length ∧
      ∃ number, lastNumber (nameOf items index) = some (skeleton.1, skeleton.2, number) := by
    rw [← mem_groups, group]
    rfl
  obtain ⟨-, _, same⟩ := (mem one).mp within
  obtain ⟨rfl, rest⟩ := Prod.mk.inj (Option.some.inj (read.symm.trans same))
  obtain ⟨rfl, rfl⟩ := Prod.mk.inj rest
  have inside : other ∈ made.members := by
    refine (mem other).mpr ⟨?_, further, also⟩
    by_contra beyond
    have named : nameOf items other = [] := by
      rw [nameOf, List.getElem?_eq_none (by omega)]
      rfl
    rw [named] at also
    cases also
  rw [namePhase_eq] at ended
  obtain rfl := Option.some.inj ended
  obtain ⟨anchorPos, each⟩ := (@placed_clusters items placing _ found_spec.2 fun made member =>
    (found_spec.1 made member).2).2 made member
  rw [each one within, unplaced, Option.none_or] at placed
  rw [each other inside, without, Option.none_or] at there
  have first := toInt_of_offset placed
  have second := toInt_of_offset there
  have here : numberOf items one = number := by
    rw [numberOf, read]
    rfl
  have further' : numberOf items other = further := by
    rw [numberOf, also]
    rfl
  rw [here] at first
  rw [further'] at second
  omega

/-- An item at the greatest position and another with metadata. -/
def crowded : List Item :=
  [⟨['a'], ['x'], none, none, some Int64.maxValue⟩, ⟨['b'], ['y'], some 1, none, none⟩]

end Order
end Metafolder
