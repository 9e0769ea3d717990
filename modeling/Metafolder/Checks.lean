import Metafolder.Recording

/-!
# What the writer's checks say

Each check of a write in progress, when it passes, leaves the data as it is and says something about
the value written: its place is checked or noted to be, and it may stand beside the other positions
of its metarecord.
-/

namespace Metafolder

namespace Writer

/-! ### Positions standing together -/

@[refl]
theorem Together.refl (value : Value) : Together value value := by
  cases value <;> simp [Together]

theorem Together.symm {first second : Value} (together : Together first second) :
    Together second first := by
  cases first <;> cases second <;> simp_all [Together]

theorem Together.stored {first second : Value} (together : Together first second) :
    Together first.stored second.stored := by
  cases first <;> cases second <;> simp_all [Together, Value.stored]

theorem together_of_typeStr {first second : Value} (differ : first.typeStr ≠ second.typeStr) :
    Together first second := by
  cases first <;> cases second <;> simp_all [Together, Value.typeStr]

theorem together_of_position {first second : Value} (absent : first.position = none) :
    Together first second := by
  cases first <;> simp_all [Together, Value.position]

/-- The last position seen under a name speaks for those seen before. -/
def Speaks (earlier : List (String × Value)) (seen : String → Option Value) : Prop :=
  ∀ row ∈ earlier, ∀ {parent node}, row.2.position = some (parent, node) →
    ∃ last held, seen row.1 = some last ∧ last.position = some (held, node) ∧
      (last.typeStr = "tree_ref" → row.2 = last)

theorem Speaks.step {earlier : List (String × Value)} {seen after : String → Option Value}
    {uuid : Uuid} {row : String × Value} (speaks : Speaks earlier seen)
    (ran : onePositionStep uuid seen row = .ok after) :
    Speaks (earlier ++ [row]) after ∧
      ∀ other ∈ earlier, other.1 = row.1 → Together other.2 row.2 := by
  obtain ⟨name, value⟩ := row
  cases value with
  | treeRef parent node =>
      simp only [onePositionStep, Except.bind_eq_ok, refuseIf_eq_ok, exists_const,
        Except.pure_eq_ok] at ran
      obtain ⟨alone, rfl⟩ := ran
      have same : ∀ other ∈ earlier, other.1 = name → other.2.position.isSome →
          other.2 = .treeRef parent node := by
        intro other member named placed
        obtain ⟨held, position⟩ := Option.isSome_iff_exists.mp placed
        obtain ⟨last, -, found, -, whole⟩ := speaks other member position
        rw [named] at found
        have last_eq : last = .treeRef parent node :=
          (Value.eq_iff_of_position rfl).mp (by simpa [found] using alone)
        rw [whole (by rw [last_eq]; rfl), last_eq]
      refine ⟨?_, fun other member named => ?_⟩
      · intro other member held at_node placed
        by_cases named : other.1 = name
        · have equal : other.2 = .treeRef parent node := by
            rcases List.mem_append.mp member with member | member
            · exact same other member named (by rw [placed]; rfl)
            · rw [List.mem_singleton.mp member]
          refine ⟨.treeRef parent node, held, ?_, ?_, fun _ => equal⟩
          · rw [named, Function.update_self]
          · rw [← equal, placed]
        · rw [Function.update_of_ne named]
          rcases List.mem_append.mp member with member | member
          · exact speaks other member placed
          · exact absurd (by rw [List.mem_singleton.mp member]) named
      · cases placed : other.2.position with
        | none => exact together_of_position placed
        | some position => rw [same other member named (by rw [placed]; rfl)]
  | hierarchyRef parent node =>
      simp only [onePositionStep, Except.bind_eq_ok, refuseIf_eq_ok, exists_const,
        Except.pure_eq_ok] at ran
      obtain ⟨alike, rfl⟩ := ran
      have same : ∀ other ∈ earlier, other.1 = name → ∀ {held at_node},
          other.2.position = some (held, at_node) → at_node = node := by
        intro other member named held at_node placed
        obtain ⟨last, last_held, found, last_placed, -⟩ := speaks other member placed
        rw [named] at found
        simpa [found, last_placed] using alike
      refine ⟨?_, fun other member named => ?_⟩
      · intro other member held at_node placed
        by_cases named : other.1 = name
        · have equal : at_node = node := by
            rcases List.mem_append.mp member with member | member
            · exact same other member named placed
            · rw [List.mem_singleton.mp member] at placed
              simpa [Value.position, eq_comm] using congrArg (Option.map Prod.snd) placed
          refine ⟨.hierarchyRef parent node, parent, ?_, ?_, by simp [Value.typeStr]⟩
          · rw [named, Function.update_self]
          · rw [equal]
            rfl
        · rw [Function.update_of_ne named]
          rcases List.mem_append.mp member with member | member
          · exact speaks other member placed
          · exact absurd (by rw [List.mem_singleton.mp member]) named
      · cases other_eq : other.2 with
        | hierarchyRef held at_node =>
            exact same other member named (by rw [other_eq]; rfl)
        | _ => trivial
  | _ =>
      rw [onePositionStep, Except.pure_eq_ok] at ran
      subst ran
      refine ⟨?_, fun other _ _ => (together_of_position rfl).symm⟩
      intro other member held at_node placed
      rcases List.mem_append.mp member with member | member
      · exact speaks other member placed
      · rw [List.mem_singleton.mp member] at placed
        simp [Value.position] at placed

/-- The values of one name may stand together. -/
theorem validateOnePositionEach_spec {uuid : Uuid} {rows : List (String × Value)}
    (ran : validateOnePositionEach uuid rows = .ok ()) :
    rows.Pairwise fun first second => first.1 = second.1 → Together first.2 second.2 := by
  have walk : ∀ {later earlier : List (String × Value)} {seen after : String → Option Value},
      Speaks earlier seen → later.foldlM (onePositionStep uuid) seen = .ok after →
        (∀ first ∈ earlier, ∀ second ∈ later, first.1 = second.1 →
          Together first.2 second.2) ∧
        later.Pairwise fun first second => first.1 = second.1 → Together first.2 second.2 := by
    intro later
    induction later with
    | nil => simp
    | cons head tail ih =>
        intro earlier seen after speaks ran
        obtain ⟨middle, stepped, rest⟩ := Except.foldlM_cons_eq_ok.mp ran
        obtain ⟨speaks_head, beside⟩ := speaks.step stepped
        obtain ⟨others, among⟩ := ih speaks_head rest
        refine ⟨fun first member second member_second named => ?_, ?_⟩
        · rcases List.mem_cons.mp member_second with rfl | member_second
          · exact beside first member named
          · exact others first (List.mem_append_left _ member) second member_second named
        · exact List.pairwise_cons.mpr ⟨others head (by simp), among⟩
  simp only [validateOnePositionEach, Except.bind_eq_ok] at ran
  obtain ⟨after, ran, -⟩ := ran
  have nothing : Speaks [] fun _ => none := by simp [Speaks]
  exact (walk nothing ran).2

/-- A value about to join the rows of a field may stand beside those that stay. -/
theorem validateOnePosition_spec [Externals] {store : Primary} (consistent : store.Consistent)
    {uuid : Uuid} {name : String} {value : Value} {replaced : Option Int64}
    (ran : validateOnePosition store uuid name value replaced = .ok ()) {other : FieldRow}
    (holds : store.Holds uuid other) (named : other.name = name)
    (stays : some other.id ≠ replaced) : Together value.stored other.value := by
  have stored : other.value.stored = other.value :=
    congrArg FieldRow.value (consistent.stored holds)
  rw [← stored]
  refine Together.stored ?_
  unfold validateOnePosition at ran
  split at ran
  next absent => exact together_of_position absent
  next =>
    by_cases typed : other.value.typeStr = value.typeStr
    · have pairs := validateOnePositionEach_spec ran
      rw [List.pairwise_append] at pairs
      refine (pairs.2.2 (name, other.value) ?_ (name, value) (by simp) rfl).symm
      refine List.mem_map.mpr ⟨other, List.mem_filter.mpr ⟨?_, ?_⟩, rfl⟩
      · exact consistent.mem_rowsNamed.mpr ⟨holds, named⟩
      · simpa using ⟨stays, typed⟩
    · exact together_of_typeStr (Ne.symm typed)

/-! ### Places -/

@[refl]
theorem SameBut.refl (uuid : Uuid) (store : Primary) : SameBut uuid store store :=
  fun _ _ _ => Iff.rfl

theorem SameBut.trans {uuid : Uuid} {first second third : Primary}
    (one : SameBut uuid first second) (two : SameBut uuid second third) :
    SameBut uuid first third := fun _ _ other => (one other).trans (two other)

variable [Externals]

/-- A place once checked, or noted to be, stays so. -/
theorem Checked.keep {base : Primary} {w after : Writer} {uuid : Uuid} {name : String}
    {value : Value} (checked : Checked base w uuid name value) (noted_subset : w.noted ⊆ after.noted)
    (defers : after.deferredTrees.isSome = w.deferredTrees.isSome) :
    Checked base after uuid name value := by
  intro parent node placed
  obtain ⟨component, noted | ⟨eager, store⟩⟩ := checked placed
  · exact ⟨component, .inl (noted_subset noted)⟩
  · refine ⟨component, .inr ⟨?_, store⟩⟩
    rw [eager] at defers
    simpa using defers

theorem Checked.mono {base : Primary} {w after : Writer} {uuid : Uuid} {name : String}
    {value : Value} (checked : Checked base w uuid name value) (ready : Ready w after) :
    Checked base after uuid name value :=
  checked.keep ready.noted_subset ready.defers

/-- A place is checked against the rows of the other metarecords. -/
theorem Checked.rebase {base other : Primary} {w : Writer} {uuid : Uuid} {name : String}
    {value : Value} (checked : Checked base w uuid name value) (same : SameBut uuid base other) :
    Checked other w uuid name value := by
  intro parent node placed
  obtain ⟨component, noted | ⟨eager, store, consistent, alike, passed⟩⟩ := checked placed
  · exact ⟨component, .inl noted⟩
  · exact ⟨component, .inr ⟨eager, store, consistent, alike.trans same, passed⟩⟩

theorem checked_of_position {base : Primary} {w : Writer} {uuid : Uuid} {name : String}
    {value : Value} (absent : value.position = none) : Checked base w uuid name value := by
  intro parent node placed
  rw [absent] at placed
  contradiction

theorem validateTreeRef_spec {w after : Writer} (consistent : w.tx.primary.Consistent) {uuid : Uuid}
    {name : String} {value : Value} (ran : w.validateTreeRef uuid name value = .ok after) :
    Ready w after ∧ after.tx = w.tx ∧ Checked w.tx.primary after uuid name value := by
  unfold validateTreeRef at ran
  split at ran
  next absent =>
    rw [Except.pure_eq_ok] at ran
    subst ran
    exact ⟨.refl w, rfl, checked_of_position absent⟩
  next parent node placed =>
    simp only [Except.bind_eq_ok, refuseIf_eq_ok, exists_const] at ran
    obtain ⟨component, checking⟩ := ran
    have fits : ∀ {held at_node}, value.position = some (held, at_node) →
        at_node.isComponent held.isNone := by
      intro held at_node position
      rw [placed, Option.some.injEq, Prod.mk.injEq] at position
      obtain ⟨rfl, rfl⟩ := position
      simpa using component
    split at checking
    next deferred defers =>
      rw [Except.pure_eq_ok] at checking
      subst checking
      refine ⟨⟨rfl, ?_, by simp [defers]⟩, rfl, fun _ _ position =>
        ⟨fits position, .inl ?_⟩⟩
      · simp [noted, defers]
      · simp [noted]
    next eager =>
      simp only [Except.bind_eq_ok, Except.pure_eq_ok] at checking
      obtain ⟨⟨⟩, passed, rfl⟩ := checking
      exact ⟨.refl w, rfl, fun _ _ position =>
        ⟨fits position, .inr ⟨eager, w.tx.primary, consistent, SameBut.refl _ _, passed⟩⟩⟩

omit [Externals] in
theorem validateValueType_spec {w after : Writer} {name : String} {value : Value}
    (ran : w.validateValueType name value = .ok after) : Ready w after ∧ after.tx = w.tx := by
  unfold validateValueType at ran
  split at ran
  · rw [Except.pure_eq_ok] at ran
    subst ran
    exact ⟨.refl w, rfl⟩
  · split at ran
    · rw [Except.pure_eq_ok] at ran
      subst ran
      exact ⟨⟨rfl, fun _ member => member, rfl⟩, rfl⟩
    · dsimp only at ran
      split at ran
      · simp only [Except.bind_eq_ok, refuseIf_eq_ok, exists_const, Except.pure_eq_ok] at ran
        obtain ⟨-, rfl⟩ := ran
        exact ⟨.refl w, rfl⟩
      · simp only [Except.bind_eq_ok, refuseIf_eq_ok, exists_const, Except.pure_eq_ok] at ran
        obtain ⟨types, -, -, rfl⟩ := ran
        exact ⟨⟨rfl, fun _ member => member, rfl⟩, rfl⟩

/-! ### Duplicates -/

omit [Externals] in
/-- A value after others is kept where none of those kept equals it. -/
theorem collapseDuplicates_concat (values : List Value) (value : Value) :
    ((∃ other ∈ (collapseDuplicates values).1, other.eq value = true) ∧
      (collapseDuplicates (values ++ [value])).1 = (collapseDuplicates values).1) ∨
    ((∀ other ∈ (collapseDuplicates values).1, other.eq value = false) ∧
      (collapseDuplicates (values ++ [value])).1 = (collapseDuplicates values).1 ++ [value]) := by
  simp only [collapseDuplicates, List.foldl_append, List.foldl_cons, List.foldl_nil]
  generalize values.foldl _ ([], []) = held
  cases found : held.1.findIdx? (·.eq value) with
  | some i =>
      obtain ⟨bound, same, -⟩ := List.findIdx?_eq_some_iff_getElem.mp found
      exact .inl ⟨⟨held.1[i], List.getElem_mem bound, same⟩, rfl⟩
  | none => exact .inr ⟨List.findIdx?_eq_none_iff.mp found, rfl⟩

omit [Externals] in
theorem collapseDuplicates_subset (values : List Value) :
    (collapseDuplicates values).1 ⊆ values := by
  induction values using List.reverseRecOn with
  | nil => exact List.nil_subset _
  | append_singleton values value ih =>
      obtain ⟨-, same⟩ | ⟨-, same⟩ := collapseDuplicates_concat values value
      · rw [same]
        exact List.Subset.trans ih (List.subset_append_left _ _)
      · rw [same]
        exact List.append_subset.mpr ⟨List.subset_append_of_subset_left _ ih,
          List.subset_append_right _ _⟩

end Writer

end Metafolder
