import Metafolder.ComparedValues
import Metafolder.Lookups
import Metafolder.NameTexts

/-!
# Pages of children

A page of the children under a parent is read off the forest's keys, in their order, or made of all
the children, sorted by the names shown.  A key holds a name whole, up to a length, so the two are
one for texts that are not longer; a longer name is keyed by its front and a hash.
-/

namespace ByteCode

/-- What follows a front decides nothing against bytes that are not longer than the front. -/
theorem compare_front {bytes front rest tail : Bytes} (short : bytes.length ≤ front.length)
    (some_rest : rest ≠ []) (some_tail : tail ≠ []) :
    compare bytes (front ++ rest) = compare bytes (front ++ tail) := by
  induction bytes generalizing front with
  | nil =>
      cases front with
      | nil =>
          obtain ⟨first, rest, rfl⟩ := List.exists_cons_of_ne_nil some_rest
          obtain ⟨second, tail, rfl⟩ := List.exists_cons_of_ne_nil some_tail
          rfl
      | cons mark front => rfl
  | cons byte bytes ih =>
      cases front with
      | nil => simp at short
      | cons mark front =>
          rw [List.cons_append, List.cons_append, List.compare_cons_cons, List.compare_cons_cons,
            ih (Nat.le_of_succ_le_succ short)]

end ByteCode

/-! ### Two orders of a list -/

namespace TwoOrders

variable {ι κ : Type} {items : List (ι × κ)} {shown : κ → κ} {early late : κ → Bool}
  {ahead le : κ → κ → Prop}

/-- An item under the name it is shown by. -/
def relabel (shown : κ → κ) (item : ι × κ) : ι × κ := (item.1, shown item.2)

/-- What is chosen of either list is shown as it is, and in either; and of what is chosen, what
comes ahead is not after. -/
structure Alike (items : List (ι × κ)) (shown : κ → κ) (early late : κ → Bool)
    (ahead le : κ → κ → Prop) : Prop where
  /-- What is chosen is shown as it is, and in either list. -/
  chosen : ∀ item ∈ items, early item.2 = true ∨ late (shown item.2) = true →
    shown item.2 = item.2 ∧ early item.2 = true ∧ late item.2 = true
  /-- Of what is chosen, what comes ahead is not after. -/
  ordered : ∀ first ∈ items, ∀ second ∈ items, early first.2 = true → early second.2 = true →
    ahead first.2 second.2 → le first.2 second.2

/-- Items in an order no name comes ahead of itself in have different names. -/
theorem eq_of_names (irrefl : ∀ name, ¬ahead name name)
    (sorted : items.Pairwise fun first second => ahead first.2 second.2) {first second : ι × κ}
    (first_mem : first ∈ items) (second_mem : second ∈ items) (same : first.2 = second.2) :
    first = second := by
  have nodup : (items.map Prod.snd).Nodup := by
    rw [List.Nodup, List.pairwise_map]
    refine sorted.imp fun {one other} less equal => ?_
    rw [equal] at less
    exact irrefl _ less
  exact List.inj_on_of_nodup_map nodup first_mem second_mem same

/-- The items chosen by the names shown, and shown. -/
theorem filter_relabel : (items.map (relabel shown)).filter (fun item => late item.2) =
    (items.filter fun item => late (shown item.2)).map (relabel shown) :=
  List.filter_map

variable [DecidableRel le]

/-- The items chosen, in the order of their keys, are those chosen of the list sorted by the names
shown, if and only if the two choices and the two orders are alike. -/
theorem filter_eq_filter_sort_iff (asymm : ∀ {one other}, ahead one other → ¬ahead other one)
    (sorted : items.Pairwise fun first second => ahead first.2 second.2)
    (total : ∀ one other, le one other ∨ le other one)
    (trans : ∀ {one other next}, le one other → le other next → le one next)
    (antisymm : ∀ {one other}, le one other → le other one → one = other)
    (idem : ∀ name, shown (shown name) = shown name) :
    items.filter (fun item => early item.2) =
        ((items.map (relabel shown)).insertionSort fun first second => le first.2 second.2).filter
          (fun item => late item.2) ↔
      Alike items shown early late ahead le := by
  have irrefl : ∀ name, ¬ahead name name := fun name own => asymm own own
  have names := fun {first second} => @eq_of_names ι κ items ahead irrefl sorted first second
  have nodup : items.Nodup := sorted.imp fun {first second} less same => by
    rw [same] at less
    exact irrefl _ less
  have _ : Std.Total fun first second : ι × κ => le first.2 second.2 :=
    ⟨fun first second => total first.2 second.2⟩
  have _ : IsTrans (ι × κ) fun first second => le first.2 second.2 := ⟨fun _ _ _ => trans⟩
  have sort_sorted := (List.pairwise_insertionSort
    (fun first second : ι × κ => le first.2 second.2) (items.map (relabel shown))).filter
      fun item => late item.2
  have sort_perm := (List.perm_insertionSort (fun first second : ι × κ => le first.2 second.2)
    (items.map (relabel shown))).filter fun item => late item.2
  rw [filter_relabel] at sort_perm
  constructor
  · intro same
    rw [← same] at sort_perm sort_sorted
    have listed : ∀ {item}, item ∈ items → early item.2 = true →
        ∃ other ∈ items, late (shown other.2) = true ∧ relabel shown other = item := by
      intro item member chosen
      have found := sort_perm.mem_iff.mp (List.mem_filter.mpr ⟨member, chosen⟩)
      obtain ⟨other, other_mem, rfl⟩ := List.mem_map.mp found
      exact ⟨other, (List.mem_filter.mp other_mem).1, (List.mem_filter.mp other_mem).2, rfl⟩
    have once := List.inj_on_of_nodup_map (sort_perm.nodup_iff.mp (nodup.filter _))
    refine ⟨fun item member either => ?_, fun first first_mem second second_mem one other => ?_⟩
    · rcases either with chosen | chosen
      · obtain ⟨other, -, late_other, rfl⟩ := listed member chosen
        exact ⟨idem other.2, chosen, late_other⟩
      · -- What is shown is an item of the first list, which is shown so too.
        have shown_mem := sort_perm.mem_iff.mpr
          (List.mem_map_of_mem (List.mem_filter.mpr ⟨member, chosen⟩))
        obtain ⟨there, chosen_there⟩ := List.mem_filter.mp shown_mem
        have again : late (shown (relabel shown item).2) = true := by
          rw [relabel, idem]
          exact chosen
        have equal : relabel shown item = item :=
          once (List.mem_filter.mpr ⟨there, again⟩) (List.mem_filter.mpr ⟨member, chosen⟩)
            (Prod.ext rfl (idem item.2))
        have name : shown item.2 = item.2 := congrArg Prod.snd equal
        rw [equal] at chosen_there
        rw [name] at chosen
        exact ⟨name, chosen_there, chosen⟩
    · intro less
      have both := List.Pairwise.and (sorted.filter fun item => early item.2) sort_sorted
      have alike : (items.filter fun item => early item.2).Pairwise fun first second =>
          (ahead first.2 second.2 → le first.2 second.2) ∧
            (ahead second.2 first.2 → le second.2 first.2) :=
        both.imp fun both => ⟨fun _ => both.2, fun back => absurd back (asymm both.1)⟩
      have _ : Std.Symm fun first second : ι × κ =>
          (ahead first.2 second.2 → le first.2 second.2) ∧
            (ahead second.2 first.2 → le second.2 first.2) := ⟨fun _ _ both => both.symm⟩
      have all := alike.forall_of_forall fun item _ =>
        ⟨fun own => absurd own (irrefl _), fun own => absurd own (irrefl _)⟩
      exact (all (List.mem_filter.mpr ⟨first_mem, one⟩)
        (List.mem_filter.mpr ⟨second_mem, other⟩)).1 less
  · intro alike
    have same_choice : items.filter (fun item => late (shown item.2)) =
        items.filter fun item => early item.2 := by
      refine List.filter_congr fun item member => Bool.eq_iff_iff.mpr ⟨fun chosen => ?_, ?_⟩
      · exact (alike.chosen item member (.inr chosen)).2.1
      · intro chosen
        obtain ⟨name, -, also⟩ := alike.chosen item member (.inl chosen)
        rwa [name]
    have unlabelled : (items.filter fun item => early item.2).map (relabel shown) =
        items.filter fun item => early item.2 := by
      refine (List.map_congr_left fun item member => ?_).trans (List.map_id _)
      obtain ⟨there, chosen⟩ := List.mem_filter.mp member
      exact Prod.ext rfl (alike.chosen item there (.inl chosen)).1
    rw [same_choice, unlabelled] at sort_perm
    refine List.Perm.eq_of_pairwise ?_ ?_ sort_sorted sort_perm.symm
    · intro first second first_mem second_mem forth back
      exact names (List.mem_filter.mp first_mem).1
        ((List.mem_filter.mp (sort_perm.mem_iff.mp second_mem)).1) (antisymm forth back)
    · refine (sorted.filter _).imp_of_mem fun {first second} first_mem second_mem less => ?_
      obtain ⟨first_there, first_chosen⟩ := List.mem_filter.mp first_mem
      obtain ⟨second_there, second_chosen⟩ := List.mem_filter.mp second_mem
      exact alike.ordered first first_there second second_there first_chosen second_chosen less

end TwoOrders

namespace Metafolder

open Table (Bound)

namespace Primary

/-! ### The pages -/

/-- `Rows::children`: the children under a parent, by their names as text. -/
def childrenShown (store : Primary) (field : String) (parent : Uuid) :
    Outcome (List (Uuid × String)) :=
  (List.map fun child => (child.1, child.2.1.display)) <$> store.children field parent

/-- Whether a name is strictly after another, in the order asked. -/
def isLater (after : Option Bytes) (descending : Bool) (name : Bytes) : Bool :=
  after.all fun bound =>
    if descending then (compare name bound).isLT else (compare name bound).isGT

/-- `Rows::children_page`, as every store has it. -/
def childrenPageDefault (store : Primary) (field : String) (parent : Uuid) (after : Option Bytes)
    (descending : Bool) (limit : Nat) : Outcome (List (Uuid × Bytes)) := do
  let all := (← store.childrenShown field parent).map fun child => (child.1, child.2.asBytes)
  let sorted := all.insertionSort fun first second => (compare first.2 second.2).isLE
  let all := if descending then sorted.reverse else sorted
  pure ((all.filter fun child => isLater after descending child.2).take limit)

/-- The loop of `children_page` over the entries of its range. -/
def pageEntries (store : Primary) (field : String) (front : Bytes) (limit : Nat) :
    List (Bytes × (Uuid × Int64)) → List (Uuid × Bytes) → Outcome (List (Uuid × Bytes))
  | [], out => pure out
  | entry :: entries, out =>
      if !front.isPrefixOf entry.1 then pure out
      else do
        let name ← store.nodeName field (entry.1.drop front.length) entry.2
        let out := out ++ [(entry.2.1, name)]
        if limit ≤ out.length then pure out
        else pageEntries store field front limit entries out

variable [Externals]

/-- The range of `children_page`: after a key or from the parent's first, either way. -/
def pageRange (store : Primary) (front : Bytes) (after : Option Bytes) (descending : Bool) :
    List (Bytes × (Uuid × Int64)) :=
  let bound := after.map fun name => front ++ nodeKey name
  let top := front ++ List.replicate 400 0xFF
  if descending then store.forest.range (.included front) (.excluded (bound.getD top))
  else
    let lower : Bound := match bound with
      | some key => .excluded key
      | none => .included front
    store.forest.range lower (.excluded top)

/-- `Read::children_page`: a page read off the forest's keys. -/
def childrenPage (store : Primary) (field : String) (parent : Uuid) (after : Option Bytes)
    (descending : Bool) (limit : Nat) : Outcome (List (Uuid × Bytes)) :=
  let front := nameKey field ++ parent.bytes
  let range := store.pageRange front after descending
  store.pageEntries field front limit (if descending then range.reverse else range) []

/-! ### What a page read off the keys holds -/

/-- Whether the key of a name is strictly after that of another, in the order asked. -/
def isKeyLater (after : Option Bytes) (descending : Bool) (name : Bytes) : Bool :=
  after.all fun bound =>
    if descending then (compare (nodeKey name) (nodeKey bound)).isLT
    else (compare (nodeKey name) (nodeKey bound)).isGT

omit [Externals] in
/-- A page ends with the entry that fills it, and has one if there is one. -/
theorem pageEntries_eq {store : Primary} {field : String} {front : Bytes} {limit : Nat}
    {name : Bytes × (Uuid × Int64) → Bytes} {entries : List (Bytes × (Uuid × Int64))}
    (named : ∀ entry ∈ entries, front <+: entry.1 ∧
      store.nodeName field (entry.1.drop front.length) entry.2 = .ok (name entry))
    (out : List (Uuid × Bytes)) :
    store.pageEntries field front limit entries out =
      .ok (out ++ (entries.map fun entry => (entry.2.1, name entry)).take
        (max 1 (limit - out.length))) := by
  induction entries generalizing out with
  | nil => simp [pageEntries, pure, Except.pure]
  | cons entry entries ih =>
      obtain ⟨starts, read⟩ := named entry List.mem_cons_self
      have later := ih fun other member => named other (List.mem_cons_of_mem _ member)
      rw [pageEntries, if_neg (by simpa using starts), read]
      dsimp only [Bind.bind, Except.bind]
      rw [later, List.length_append, List.length_singleton]
      split
      next full =>
        have one : max 1 (limit - out.length) = 1 := by omega
        rw [one]
        rfl
      next room =>
        have more : max 1 (limit - out.length) = max 1 (limit - (out.length + 1)) + 1 := by omega
        rw [more, List.map_cons, List.take_succ_cons, List.append_assoc]
        rfl

/-- The name of a position is read. -/
theorem Indexed.nodeName_ok {store : Primary} {uuid : Uuid} {row : FieldRow}
    {above : Option Uuid} {node : TreeName} (holds : store.Holds uuid row)
    (position : row.value.position = some (above, node)) :
    store.nodeName row.name (nodeKey node.bytes) (uuid, row.id) = .ok node.bytes := by
  unfold nodeName
  split
  next short => rw [nodeKey_eq_self short]; rfl
  next long =>
    rw [Holds] at holds
    rw [holds]
    dsimp only [context, Bind.bind, Except.bind, Pure.pure, Except.pure]
    rw [position]

/-- The entries under a parent are keyed by names, which are read. -/
theorem Indexed.forest_names {store : Primary} (indexed : store.Indexed) (field : String)
    (parent : Uuid) : ∃ name : Bytes × (Uuid × Int64) → Bytes,
      ∀ entry ∈ store.forest.prefixIter (nameKey field ++ parent.bytes),
        entry.1 = nameKey field ++ parent.bytes ++ nodeKey (name entry) ∧
          store.nodeName field (nodeKey (name entry)) entry.2 = .ok (name entry) := by
  have shape : ∀ entry ∈ store.forest.prefixIter (nameKey field ++ parent.bytes), ∃ name,
      entry.1 = nameKey field ++ parent.bytes ++ nodeKey name ∧
        store.nodeName field (nodeKey name) entry.2 = .ok name := by
    rintro ⟨key, uuid, id⟩ member
    obtain ⟨⟨rest, starts⟩, entry⟩ := (Table.mem_prefixIter ..).mp member
    obtain ⟨row, holds, rfl, keyed⟩ := indexed.forest_iff.mp entry
    cases held : row.value.position with
    | none => simp [forestKey, held] at keyed
    | some position =>
        obtain ⟨above, node⟩ := position
        simp only [forestKey, held, Option.map_some, Option.some.injEq] at keyed
        have split := starts.trans keyed.symm
        simp only [List.append_assoc] at split
        obtain ⟨rfl, tails⟩ := nameKey_append_inj split
        obtain ⟨rfl, -⟩ := Uuid.bytes_append_inj tails
        exact ⟨node.bytes, keyed.symm, Indexed.nodeName_ok holds held⟩
  choose! name named using shape
  exact ⟨name, named⟩

omit [Externals] in
/-- A range behind a prefix is the entries with the prefix that are inside it. -/
theorem range_eq_filter {V : Type} (table : Table V) {front tail : Bytes} {lower : Bound}
    (from_front : ∀ key, lower.starts key = true → (compare front key).isLE) :
    table.range lower (.excluded (front ++ tail)) = (table.prefixIter front).filter fun entry =>
      lower.starts entry.1 && (compare entry.1 (front ++ tail)).isLT := by
  rw [Table.range, Table.prefixIter, List.filter_filter]
  refine List.filter_congr fun entry _ => ?_
  rw [Bool.eq_iff_iff]
  simp only [Bool.and_eq_true, Bound.stops, List.isPrefixOf_iff_prefix]
  constructor
  · rintro ⟨starts, stops⟩
    exact ⟨⟨starts, stops⟩, ByteCode.prefix_of_between (from_front _ starts)
      (Ordering.isLT_iff_eq_lt.mp stops) (List.prefix_append _ _)⟩
  · rintro ⟨inside, -⟩
    exact inside

theorem length_nodeKey_lt (name : Bytes) : (nodeKey name).length < 400 := by
  unfold nodeKey
  split
  next short => exact short.trans_lt (by decide)
  next =>
    rw [List.length_append, ByteCode.length_bigEndian]
    have cut : (name.take nodeMax).length ≤ nodeMax := List.length_take_le _ _
    have most : nodeMax = 300 := rfl
    omega

/-- A page's range holds the entries under the parent whose keys are later. -/
theorem pageRange_eq {store : Primary} {front : Bytes} {name : Bytes × (Uuid × Int64) → Bytes}
    (keyed : ∀ entry ∈ store.forest.prefixIter front, entry.1 = front ++ nodeKey (name entry))
    (after : Option Bytes) (descending : Bool) :
    store.pageRange front after descending =
      (store.forest.prefixIter front).filter fun entry =>
        isKeyLater after descending (name entry) := by
  have behind : ∀ tail : Bytes, (compare front (front ++ tail)).isLE = true := fun tail => by
    have front_le := ByteCode.compare_append_left front [] tail
    rw [List.append_nil] at front_le
    rw [front_le]
    exact List.isLE_compare_nil_left
  have under_top : ∀ bytes : Bytes, (compare (front ++ nodeKey bytes)
      (front ++ List.replicate 400 0xFF)).isLT = true := fun bytes => by
    rw [ByteCode.compare_append_left, ByteCode.compare_replicate _ (length_nodeKey_lt bytes)]
    rfl
  have whole : ∀ key, (Bound.included front).starts key = true → (compare front key).isLE :=
    fun _ starts => starts
  unfold pageRange
  cases descending with
  | true =>
      cases after with
      | none =>
          simp only [Option.map_none, Option.getD_none, if_true]
          rw [range_eq_filter _ whole]
          refine List.filter_congr fun entry member => ?_
          rw [keyed entry member, Bound.starts, behind, under_top]
          rfl
      | some bound =>
          simp only [Option.map_some, Option.getD_some, if_true]
          rw [range_eq_filter _ whole]
          refine List.filter_congr fun entry member => ?_
          rw [keyed entry member, Bound.starts, behind, ByteCode.compare_append_left]
          rfl
  | false =>
      cases after with
      | none =>
          simp only [Option.map_none, Bool.false_eq_true, if_false]
          rw [range_eq_filter _ whole]
          refine List.filter_congr fun entry member => ?_
          rw [keyed entry member, Bound.starts, behind, under_top]
          rfl
      | some bound =>
          simp only [Option.map_some, Bool.false_eq_true, if_false]
          have from_front : ∀ key, (Bound.excluded (front ++ nodeKey bound)).starts key = true →
              (compare front key).isLE := fun key starts =>
            Std.TransCmp.isLE_trans (behind _) (Ordering.isLE_of_eq_lt
              (Ordering.isLT_iff_eq_lt.mp starts))
          rw [range_eq_filter _ from_front]
          refine List.filter_congr fun entry member => ?_
          rw [keyed entry member, Bound.starts, under_top, ByteCode.compare_append_left,
            Bool.and_true, isKeyLater, Option.all_some, if_neg Bool.false_ne_true]
          rw [Bool.eq_iff_iff, Ordering.isLT_iff_eq_lt, Ordering.isGT_iff_eq_gt,
            Std.OrientedCmp.gt_iff_lt]

/-- A child's metarecord and its exact name. -/
def named (child : Uuid × TreeName × Int64) : Uuid × Bytes := (child.1, child.2.1.bytes)

/-- A list, or its reverse. -/
def turned {α : Type} (descending : Bool) (items : List α) : List α :=
  if descending then items.reverse else items

omit [Externals] in
@[simp]
theorem mem_turned {α : Type} {descending : Bool} {items : List α} {item : α} :
    item ∈ turned descending items ↔ item ∈ items := by
  cases descending <;> simp [turned]

omit [Externals] in
theorem filter_turned {α : Type} (descending : Bool) (items : List α) (keep : α → Bool) :
    (turned descending items).filter keep = turned descending (items.filter keep) := by
  cases descending <;> simp [turned]

omit [Externals] in
theorem map_turned {α β : Type} (descending : Bool) (items : List α) (f : α → β) :
    (turned descending items).map f = turned descending (items.map f) := by
  cases descending <;> simp [turned]

omit [Externals] in
theorem turned_inj {α : Type} {descending : Bool} {items others : List α} :
    turned descending items = turned descending others ↔ items = others := by
  cases descending <;> simp [turned]

/-- A page read off the keys holds the children whose keys are later, in the order of these, as many
as asked and at least one. -/
theorem childrenPage_eq {store : Primary} (indexed : store.Indexed) (field : String)
    (parent : Uuid) : ∃ children, store.children field parent = .ok children ∧
      ((children.map named).Pairwise fun first second =>
        compare (nodeKey first.2) (nodeKey second.2) = .lt) ∧
      ∀ after descending limit, store.childrenPage field parent after descending limit =
        .ok (((turned descending (children.map named)).filter fun child =>
          isKeyLater after descending child.2).take (max 1 limit)) := by
  obtain ⟨name, read⟩ := indexed.forest_names field parent
  have keyed := fun entry member => (read entry member).1
  have dropped : ∀ entry ∈ store.forest.prefixIter (nameKey field ++ parent.bytes),
      store.nodeName field (entry.1.drop (nameKey field ++ parent.bytes).length) entry.2 =
        .ok (name entry) := fun entry member => by
    rw [keyed entry member, List.drop_left]
    exact (read entry member).2
  refine ⟨(store.forest.prefixIter (nameKey field ++ parent.bytes)).map fun entry =>
    (entry.2.1, ⟨name entry⟩, entry.2.2), ?_, ?_, fun after descending limit => ?_⟩
  · refine Except.mapM_eq_ok_map _ fun entry member => ?_
    rw [dropped entry member]
    rfl
  · rw [List.map_map, List.pairwise_map]
    refine (store.forest.pairwise_entries.filter _).imp_of_mem ?_
    intro first second first_mem second_mem less
    rw [keyed first first_mem, keyed second second_mem, ByteCode.compare_append_left] at less
    exact less
  · have page := @pageEntries_eq store field (nameKey field ++ parent.bytes) limit name
    have listed : ∀ entry ∈
        turned descending (store.pageRange (nameKey field ++ parent.bytes) after descending),
        (nameKey field ++ parent.bytes) <+: entry.1 ∧ store.nodeName field
          (entry.1.drop (nameKey field ++ parent.bytes).length) entry.2 = .ok (name entry) := by
      intro entry member
      rw [mem_turned, pageRange_eq keyed] at member
      have there := (List.mem_filter.mp member).1
      refine ⟨?_, dropped entry there⟩
      rw [keyed entry there]
      exact List.prefix_append _ _
    have read := page listed []
    rw [List.nil_append, List.length_nil, Nat.sub_zero, map_turned] at read
    have page_eq : store.childrenPage field parent after descending limit = _ := read
    rw [page_eq, pageRange_eq keyed, filter_turned, List.map_map, List.filter_map]
    rfl

/-! ### The two pages -/

/-- The name a child is shown by, as bytes. -/
def shown (name : Bytes) : Bytes := (TreeName.display ⟨name⟩).asBytes

omit [Externals] in
/-- A name shown is a text, and shown as it is. -/
theorem shown_shown (name : Bytes) : shown (shown name) = shown name := by
  have text := TreeName.display_ofString (TreeName.display ⟨name⟩)
  rw [shown, shown]
  exact congrArg String.asBytes text

/-- The children chosen by their keys and by the names shown are alike. -/
def PagesAlike (children : List (Uuid × TreeName × Int64)) (after : Option Bytes)
    (descending : Bool) : Prop :=
  TwoOrders.Alike (children.map named) shown (isKeyLater after descending)
    (isLater after descending) (fun one other => compare (nodeKey one) (nodeKey other) = .lt)
    fun one other => (compare one other).isLE = true

omit [Externals] in
/-- A page made of all the children. -/
theorem childrenPageDefault_eq {store : Primary} {field : String} {parent : Uuid}
    {children : List (Uuid × TreeName × Int64)} (read : store.children field parent = .ok children)
    (after : Option Bytes) (descending : Bool) (limit : Nat) :
    store.childrenPageDefault field parent after descending limit =
      .ok ((turned descending ((((children.map named).map (TwoOrders.relabel shown)).insertionSort
        fun first second => (compare first.2 second.2).isLE).filter fun child =>
          isLater after descending child.2)).take limit) := by
  have labelled : (children.map fun child => (child.1, child.2.1.display)).map
      (fun child => (child.1, child.2.asBytes)) =
        (children.map named).map (TwoOrders.relabel shown) := by
    rw [List.map_map, List.map_map]
    rfl
  rw [childrenPageDefault, childrenShown, read, ← filter_turned]
  change Except.ok _ = _
  rw [labelled]
  rfl

omit [Externals] in
/-- Lists with one page at every limit but zero are one. -/
theorem every_page {α : Type} {items others : List α} :
    (∀ limit ≠ 0, items.take (max 1 limit) = others.take limit) ↔ items = others := by
  constructor
  · intro same
    have most := same (items.length + others.length + 1) (Nat.succ_ne_zero _)
    rwa [List.take_of_length_le (by omega), List.take_of_length_le (by omega)] at most
  · rintro rfl limit positive
    rw [max_eq_right (Nat.pos_of_ne_zero positive)]

omit [Externals] in
theorem le_total_of_compare (one other : Bytes) :
    (compare one other).isLE = true ∨ (compare other one).isLE = true := by
  cases order : (compare one other).isLE with
  | true => exact .inl rfl
  | false =>
      have less : compare other one = .lt :=
        Std.OrientedCmp.lt_of_not_isLE (by rw [order]; exact Bool.false_ne_true)
      exact .inr (Ordering.isLE_of_eq_lt less)

/-- A name that is keyed whole is compared with the key of another as with its name. -/
theorem compare_nodeKey {name : Bytes} (short : name.length ≤ nodeMax) (bound : Bytes) :
    compare (nodeKey name) (nodeKey bound) = compare name bound := by
  have whole : nodeKey name = name := if_pos short
  rw [whole, nodeKey]
  split
  next => rfl
  next long =>
    have front : (bound.take nodeMax).length = nodeMax := by
      rw [List.length_take]
      omega
    have some_hash : ByteCode.bigEndian 8 (Externals.xxh3 bound).toNat ≠ [] :=
      List.ne_nil_of_length_pos (by rw [ByteCode.length_bigEndian]; decide)
    have some_rest : bound.drop nodeMax ≠ [] :=
      List.ne_nil_of_length_pos (by rw [List.length_drop]; omega)
    have same := ByteCode.compare_front (short.trans front.ge) some_hash some_rest
    rwa [List.take_append_drop] at same

/-- Children that are texts, and no longer than a key holds whole, are chosen alike. -/
theorem pagesAlike_of_short {children : List (Uuid × TreeName × Int64)}
    (plain : ∀ child ∈ children, shown child.2.1.bytes = child.2.1.bytes ∧
      child.2.1.bytes.length ≤ nodeMax) (after : Option Bytes) (descending : Bool) :
    PagesAlike children after descending := by
  have names : ∀ item ∈ children.map named, shown item.2 = item.2 ∧ item.2.length ≤ nodeMax := by
    intro item member
    obtain ⟨child, there, rfl⟩ := List.mem_map.mp member
    exact plain child there
  have same : ∀ item ∈ children.map named,
      isKeyLater after descending item.2 = isLater after descending item.2 := by
    intro item member
    cases after with
    | none => rfl
    | some bound =>
        rw [isKeyLater, isLater, Option.all_some, Option.all_some,
          compare_nodeKey (names item member).2]
  refine ⟨fun item member either => ?_, fun first first_mem second _ _ _ less => ?_⟩
  · obtain ⟨text, -⟩ := names item member
    rw [text, same item member, or_self] at either
    exact ⟨text, (same item member).trans either, either⟩
  · rw [compare_nodeKey (names first first_mem).2] at less
    exact Ordering.isLE_of_eq_lt less

/-- The pages are one at every limit but zero if and only if the children they choose are alike; and
at zero, where the page read off the keys has its first child, if and only if it has none. -/
theorem childrenPage_iff {store : Primary} (indexed : store.Indexed) (field : String)
    (parent : Uuid) (after : Option Bytes) (descending : Bool) :
    ∃ children, store.children field parent = .ok children ∧
      ((∀ limit ≠ 0, store.childrenPage field parent after descending limit =
          store.childrenPageDefault field parent after descending limit) ↔
        PagesAlike children after descending) ∧
      (store.childrenPage field parent after descending 0 =
          store.childrenPageDefault field parent after descending 0 ↔
        ∀ child ∈ children, isKeyLater after descending child.2.1.bytes = false) ∧
      ((∀ child ∈ children, shown child.2.1.bytes = child.2.1.bytes ∧
          child.2.1.bytes.length ≤ nodeMax) → PagesAlike children after descending) := by
  obtain ⟨children, read, sorted, page⟩ := childrenPage_eq indexed field parent
  have default := @childrenPageDefault_eq store field parent children read after descending
  have same_iff := @TwoOrders.filter_eq_filter_sort_iff _ _ (children.map named) shown
    (isKeyLater after descending) (isLater after descending)
    (fun one other => compare (nodeKey one) (nodeKey other) = .lt)
    (fun one other => (compare one other).isLE = true) _
    (fun less => Std.OrientedCmp.not_lt_of_lt less) sorted
    le_total_of_compare (fun one two => Std.TransCmp.isLE_trans one two)
    (fun one other => Std.compare_eq_iff_eq.mp (Std.OrientedCmp.isLE_antisymm one other))
    shown_shown
  refine ⟨children, read, ?_, ?_, fun plain => pagesAlike_of_short plain after descending⟩
  · rw [PagesAlike, ← same_iff]
    simp only [page, default, Except.ok.injEq, filter_turned]
    exact every_page.trans turned_inj
  · have none_later : (children.map named).filter (fun child =>
        isKeyLater after descending child.2) = [] ↔
          ∀ child ∈ children, isKeyLater after descending child.2.1.bytes = false := by
      rw [List.filter_eq_nil_iff, List.forall_mem_map]
      simp only [named, Bool.not_eq_true]
    rw [page, default, Except.ok.injEq, filter_turned, ← none_later, Nat.max_zero,
      List.take_zero]
    cases descending <;> simp [turned]

end Primary

/-- A write of a folder with a name that is no text in it, and of one with a text in it. -/
def sampleFolders : Transaction where
  context := .new ⟨"folders", none, none⟩
  retention := .unlimited
  timestamp := 7
  calls := [.createMetarecord (sampleUuids 1) [⟨"loc", .treeRef none ⟨[97]⟩⟩],
    .createMetarecord (sampleUuids 2)
      [⟨"loc", .treeRef (some (sampleUuids 1)) ⟨[99, 97, 102, 0xE9]⟩⟩],
    .createMetarecord (sampleUuids 3) [⟨"loc", .treeRef none ⟨[98]⟩⟩],
    .createMetarecord (sampleUuids 4) [⟨"loc", .treeRef (some (sampleUuids 3)) ⟨[99]⟩⟩]]

/-- A name that is no text is paged by its bytes, or by the text shown for it. -/
theorem childrenPage_not_text : letI : Externals := plainExternals
    ∃ store, sampleFolders.run {} = .ok store ∧
      store.tx.primary.childrenPage "loc" (sampleUuids 1) none false 1 =
        .ok [(sampleUuids 2, [99, 97, 102, 0xE9])] ∧
      store.tx.primary.childrenPageDefault "loc" (sampleUuids 1) none false 1 =
        .ok [(sampleUuids 2, "caf%E9".asBytes)] ∧
      store.tx.primary.childrenPage "loc" (sampleUuids 3) none false 0 =
        .ok [(sampleUuids 4, [99])] ∧
      store.tx.primary.childrenPageDefault "loc" (sampleUuids 3) none false 0 = .ok [] := by
  let _ : Externals := plainExternals
  have run : (fun store : KvStore => let primary := store.tx.primary
      [primary.childrenPage "loc" (sampleUuids 1) none false 1,
        primary.childrenPageDefault "loc" (sampleUuids 1) none false 1,
        primary.childrenPage "loc" (sampleUuids 3) none false 0,
        primary.childrenPageDefault "loc" (sampleUuids 3) none false 0]) <$>
      sampleFolders.run {} =
        .ok [.ok [(sampleUuids 2, [99, 97, 102, 0xE9])], .ok [(sampleUuids 2, "caf%E9".asBytes)],
          .ok [(sampleUuids 4, [99])], .ok []] := by
    decide +kernel
  obtain ⟨store, ran, read⟩ := Except.map_eq_ok.mp run
  simp only [List.cons.injEq, and_true] at read
  exact ⟨store, ran, read⟩

theorem childrenPage_text : letI : Externals := plainExternals
    ∃ store, sampleFolders.run {} = .ok store ∧ ∀ limit ≠ 0,
      store.tx.primary.childrenPage "loc" (sampleUuids 3) (some [98]) false limit =
        store.tx.primary.childrenPageDefault "loc" (sampleUuids 3) (some [98]) false limit := by
  let _ : Externals := plainExternals
  have run : (fun store : KvStore => store.tx.primary.children "loc" (sampleUuids 3)) <$>
      sampleFolders.run {} = .ok (.ok [(sampleUuids 4, ⟨[99]⟩, 4)]) := by
    decide +kernel
  obtain ⟨store, ran, listed⟩ := Except.map_eq_ok.mp run
  have reached : Reachable (fun _ => True) store := .commit sampleFolders .new trivial ran
  have indexed : store.tx.primary.Indexed := reached.exact.consistent.toIndexed
  obtain ⟨children, read, agree, -, plain⟩ :=
    Primary.childrenPage_iff indexed "loc" (sampleUuids 3) (some [98]) false
  obtain rfl := Except.ok.inj (read.symm.trans listed)
  refine ⟨store, ran, agree.mpr (plain fun child member => ?_)⟩
  obtain rfl := List.mem_singleton.mp member
  exact ⟨by decide +kernel, by decide⟩

end Metafolder
