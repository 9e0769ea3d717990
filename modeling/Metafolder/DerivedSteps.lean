import Metafolder.DerivedRows

/-!
# A row change derives what the rows say

Each primitive keeps the derived tables in step with the rows: the counts follow the row that came
or went, the sets of its metarecord are read off the rows left, and its parent is a parent as long
as a row places a child under it.
-/

namespace Metafolder

namespace Derived

variable [Externals]

/-! ### What the rows say -/

omit [Externals] in
theorem targetOf_of_position {value : Value} {parent : Option Uuid} {node : TreeName}
    (placed : value.position = some (parent, node)) :
    targetOf value = some (parent.getD Uuid.zero) := by
  cases value <;> simp_all [Value.position, targetOf]

/-- A metarecord has children exactly when a row places one under it. -/
theorem hasKids_iff {store : Primary} {derived : Derived} (indexed : store.Indexed)
    (mapped : Mapped store derived)
    (kids : Tallies derived.kids fun key => store.total (derived.countOf kidKeys key))
    (parent : Uuid) (field : String) : derived.hasKids parent field ↔
      InSet store (.ofField .parents field) parent := by
  have keyed : ∀ {owner row id key}, derived.id owner = some id → key ∈ kidKeys id row →
      ∃ held node, row.value.position = some (held, node) ∧
        key = kidsKey (held.getD Uuid.zero) row.name id := by
    intro owner row id key _ member
    simp only [kidKeys, Option.mem_toList, Option.map_eq_some_iff, Prod.exists] at member
    obtain ⟨held, node, placed, rfl⟩ := member
    exact ⟨held, node, placed, rfl⟩
  rw [hasKids, decide_eq_true_iff]
  constructor
  · intro some_kid
    obtain ⟨⟨key, n⟩, member⟩ := List.exists_mem_of_ne_nil _ some_kid
    obtain ⟨starts, found⟩ := (Table.mem_prefixIter ..).mp member
    have counted := kids.isSome.mp (Option.isSome_of_mem found)
    obtain ⟨owner, row, holds, counted⟩ := (Primary.total_pos indexed).mp counted
    unfold countOf at counted
    split at counted
    next id named =>
      obtain ⟨held, node, placed, rfl⟩ := keyed named (List.count_pos_iff.mp counted)
      rw [kidsPrefix_prefix_iff] at starts
      obtain ⟨rfl, rfl⟩ := starts
      exact ⟨owner, row, holds, rfl, by rw [placed]; rfl, targetOf_of_position placed⟩
    next => exact absurd counted (Nat.lt_irrefl 0)
  · rintro ⟨child, row, holds, rfl, position, target⟩
    obtain ⟨⟨held, node⟩, placed⟩ := Option.isSome_iff_exists.mp position
    rw [targetOf_of_position placed, Option.some.injEq] at target
    have existing := indexed.owner_exists holds
    rw [Primary.version, ← mapped.ids_iff] at existing
    obtain ⟨id, named⟩ := Option.isSome_iff_exists.mp existing
    have member : kidsKey parent row.name id ∈ kidKeys id row := by
      simp [kidKeys, placed, target]
    have counted : 0 < store.total (derived.countOf kidKeys (kidsKey parent row.name id)) := by
      refine (Primary.total_pos indexed).mpr ⟨child, row, holds, ?_⟩
      rw [countOf, show derived.id child = some id from named]
      exact List.count_pos_iff.mpr member
    obtain ⟨n, found⟩ := Option.isSome_iff_exists.mp (kids.isSome.mpr counted)
    exact List.ne_nil_of_mem ((Table.mem_prefixIter ..).mpr ⟨List.prefix_append _ _, found⟩)

omit [Externals] in
/-- Rows of a metarecord with something the row touched has not. -/
theorem exists_touched_iff {store after : Primary} {uuid owner : Uuid} {row : FieldRow}
    (touched : store.Touched uuid row after) {property : FieldRow → Prop}
    (apart : owner = uuid → ¬property row) :
    (∃ held, after.Holds owner held ∧ property held) ↔
      ∃ held, store.Holds owner held ∧ property held := by
  have differ : ∀ {held}, property held → (owner, held) ≠ (uuid, row) := by
    rintro held there same
    rw [Prod.mk.injEq] at same
    exact apart same.1 (same.2 ▸ there)
  constructor
  · rintro ⟨held, holds, there⟩
    exact ⟨held, (touched.holds_iff (differ there)).mp holds, there⟩
  · rintro ⟨held, holds, there⟩
    exact ⟨held, (touched.holds_iff (differ there)).mpr holds, there⟩

/-- The sets a row change does not recompute keep their metarecords, the parents aside. -/
theorem inSet_touched_iff {store after : Primary} {uuid owner : Uuid} {row : FieldRow}
    (touched : store.Touched uuid row after) {key : SetKey}
    (apart : owner = uuid → key ∉ recomputed row.name row.value)
    (other : ∀ field, key ≠ .ofField .parents field) :
    InSet after key owner ↔ InSet store key owner := by
  have named : ∀ {kind field}, key = .ofField kind field →
      kind = .present ∨ kind = .absent ∨ kind = .multi → owner = uuid → row.name ≠ field := by
    rintro kind field rfl listed same rfl
    refine apart same ?_
    rcases listed with rfl | rfl | rfl <;> simp [recomputed]
  cases key with
  | all => exact Iff.rfl
  | descendants field node => exact Iff.rfl
  | posting field value => exact Iff.rfl
  | referrers field target =>
      refine exists_touched_iff touched fun same there => apart same ?_
      simp [recomputed, there.1, there.2]
  | ofField kind field =>
      cases kind with
      | parents => exact absurd rfl (other field)
      | present =>
          exact exists_touched_iff touched fun same there =>
            named rfl (.inl rfl) same there.1
      | absent =>
          exact exists_touched_iff touched fun same there =>
            named rfl (.inr (.inl rfl)) same there.1
      | longTexts =>
          refine exists_touched_iff touched ?_
          rintro same ⟨here, text, found, -⟩
          exact apart same (by simp [recomputed, here, found])
      | multi =>
          have differ : ∀ {held : FieldRow}, held.name = field → (owner, held) ≠ (uuid, row) := by
            rintro held here same
            rw [Prod.mk.injEq] at same
            exact named rfl (.inr (.inr rfl)) same.1 (same.2 ▸ here)
          constructor
          · rintro ⟨first, second, holdsFirst, holdsSecond, here, there, rest⟩
            exact ⟨first, second, (touched.holds_iff (differ here)).mp holdsFirst,
              (touched.holds_iff (differ there)).mp holdsSecond, here, there, rest⟩
          · rintro ⟨first, second, holdsFirst, holdsSecond, here, there, rest⟩
            exact ⟨first, second, (touched.holds_iff (differ here)).mpr holdsFirst,
              (touched.holds_iff (differ there)).mpr holdsSecond, here, there, rest⟩

omit [Externals] in
/-- The parents a row change does not name keep their children. -/
theorem parents_touched_iff {store after : Primary} {uuid owner : Uuid} {row : FieldRow}
    (touched : store.Touched uuid row after) {field : String}
    (apart : ¬(row.name = field ∧ row.value.position.isSome ∧ targetOf row.value = some owner)) :
    (∃ child held, after.Holds child held ∧ held.name = field ∧ held.value.position.isSome ∧
        targetOf held.value = some owner) ↔
      ∃ child held, store.Holds child held ∧ held.name = field ∧ held.value.position.isSome ∧
        targetOf held.value = some owner :=
  exists_congr fun _ => exists_touched_iff touched fun _ => apart

/-- Two rows of a field that are not `Nothing`, seen in the rows read. -/
theorem two_rows_iff {store : Primary} (indexed : store.Indexed) {uuid : Uuid} {field : String} :
    1 < ((store.rowsNamed uuid field).filter fun row => !row.value.isNothing).length ↔
      InSet store (.ofField .multi field) uuid := by
  have distinct := (indexed.nodup_rowsNamed uuid field).filter fun row => !row.value.isNothing
  rw [← List.toFinset_card_of_nodup distinct, Finset.one_lt_card]
  simp only [List.mem_toFinset, List.mem_filter, indexed.mem_rowsNamed, Bool.not_eq_true']
  constructor
  · rintro ⟨first, ⟨⟨holdsFirst, here⟩, filled⟩, second, ⟨⟨holdsSecond, there⟩, full⟩, differ⟩
    exact ⟨first, second, holdsFirst, holdsSecond, here, there, filled, full, differ⟩
  · rintro ⟨first, second, holdsFirst, holdsSecond, here, there, filled, full, differ⟩
    exact ⟨first, ⟨⟨holdsFirst, here⟩, filled⟩, second, ⟨⟨holdsSecond, there⟩, full⟩, differ⟩

/-- What a row change recomputes is what the rows say. -/
theorem computed_iff {store : Primary} (indexed : store.Indexed) {uuid : Uuid} {field : String}
    {value : Value} {key : SetKey} (member : key ∈ recomputed field value) :
    computed (store.rowsNamed uuid field) key = true ↔ InSet store key uuid := by
  have any_iff : ∀ {property : FieldRow → Prop} [DecidablePred property],
      ((store.rowsNamed uuid field).any fun row => decide (property row)) = true ↔
        ∃ row, store.Holds uuid row ∧ row.name = field ∧ property row := by
    intro property _
    simp [List.any_eq_true, indexed.mem_rowsNamed, and_assoc]
  simp only [recomputed, List.mem_append, List.mem_cons, List.not_mem_nil, or_false,
    Option.mem_toList, Option.map_eq_some_iff] at member
  rcases member with ((rfl | rfl | rfl) | member) | ⟨target, found, rfl⟩
  · simpa [computed, InSet, Puts] using @any_iff (fun row => row.value.isNothing = false) _
  · simpa [computed, InSet, Puts] using @any_iff (fun row => row.value.isNothing = true) _
  · rw [computed, decide_eq_true_iff, two_rows_iff indexed]
  · split at member
    · rw [List.mem_singleton] at member
      subst member
      simp only [computed, List.any_eq_true, List.mem_filterMap, indexed.mem_rowsNamed,
        Bool.not_eq_true', InSet, Puts]
      constructor
      · rintro ⟨text, ⟨row, ⟨holds, named⟩, found⟩, long⟩
        exact ⟨row, holds, named, text, found, long⟩
      · rintro ⟨row, holds, named, text, found, long⟩
        exact ⟨text, ⟨row, ⟨holds, named⟩, found⟩, long⟩
    · exact absurd member List.not_mem_nil
  · simpa [computed, InSet] using @any_iff (fun row => targetOf row.value = some target) _

/-- The trigrams of a field a row change does not touch keep their metarecords. -/
theorem inGram_touched_iff {store after : Primary} {uuid owner : Uuid} {row : FieldRow}
    (touched : store.Touched uuid row after) {field : String} {gram : Bytes}
    (apart : owner = uuid → ¬(field = row.name ∧ gram ∈ changedGrams row.value)) :
    InGram after field gram owner ↔ InGram store field gram owner := by
  have gathered : ∀ {held : Primary}, InGram held field gram owner ↔ ∃ other,
      held.Holds owner other ∧ other.name = field ∧ ∃ text, searchText other.value = some text ∧
        isSplit text = true ∧ gram ∈ trigrams text := by
    intro held
    constructor
    · rintro ⟨other, text, holds, named, rest⟩
      exact ⟨other, holds, named, text, rest⟩
    · rintro ⟨other, holds, named, text, rest⟩
      exact ⟨other, text, holds, named, rest⟩
  rw [gathered, gathered]
  refine exists_touched_iff touched ?_
  rintro same ⟨named, text, found, short, member⟩
  exact apart same ⟨named.symm, by simpa [changedGrams, found, Option.filter, short] using member⟩

/-- The trigrams of the rows read are those the rows say. -/
theorem mem_heldGrams {store : Primary} (indexed : store.Indexed) {uuid : Uuid} {field : String}
    {gram : Bytes} :
    gram ∈ heldGrams (store.rowsNamed uuid field) ↔ InGram store field gram uuid := by
  simp only [heldGrams, List.mem_flatMap, List.mem_filter, List.mem_filterMap, indexed.mem_rowsNamed]
  constructor
  · rintro ⟨text, ⟨⟨row, ⟨holds, named⟩, found⟩, short⟩, member⟩
    exact ⟨row, text, holds, named, found, short, member⟩
  · rintro ⟨row, text, holds, named, found, short, member⟩
    exact ⟨text, ⟨⟨row, ⟨holds, named⟩, found⟩, short⟩, member⟩

omit [Externals] in
theorem Mapped.id_unique {store : Primary} {derived : Derived} (mapped : Mapped store derived)
    {first second : Uuid} {id : UInt32} (namedFirst : derived.id first = some id)
    (namedSecond : derived.id second = some id) : first = second := by
  have back := mapped.uuids_iff.mpr ⟨id, namedFirst, rfl⟩
  rw [mapped.uuids_iff.mpr ⟨id, namedSecond, rfl⟩, Option.some.injEq] at back
  exact back.symm

omit [Externals] in
/-- A trigram has three bytes. -/
theorem length_of_mem_trigrams {text : String} {gram : Bytes} (member : gram ∈ trigrams text) :
    gram.length = 3 := by
  have walk : ∀ bytes : Bytes, ∀ gram ∈ windows bytes, gram.length = 3 := by
    intro bytes
    induction bytes using windows.induct with
    | case1 first second third rest ih =>
        intro gram member
        rw [windows, List.mem_cons] at member
        rcases member with rfl | member
        · rfl
        · exact ih gram member
    | case2 bytes short =>
        intro gram member
        rw [windows] at member
        · exact absurd member List.not_mem_nil
        · exact short
  exact walk _ gram (List.mem_dedup.mp member)

omit [Externals] in
theorem GramsKeyed.chunkMember {table : Table (Finset UInt32)} (keyed : GramsKeyed table)
    {field : String} {gram : Bytes} (width : gram.length = 3) (id : UInt32) (member : Bool) :
    GramsKeyed (chunkMember table (gramPrefix field gram) id member) := by
  intro other held found
  unfold Derived.chunkMember at found
  by_cases same : gramPrefix field gram = other
  · rw [← same, get_writeSet_self] at found
    exact ⟨found.1 ▸ found.2, field, gram, width, same.symm⟩
  · rw [get_writeSet_of_ne _ _ same] at found
    exact keyed found

theorem GramsKeyed.changed {table : Table (Finset UInt32)} (keyed : GramsKeyed table)
    (field : String) (value : Value) (id : UInt32) (member : Bytes → Bool) :
    GramsKeyed ((changedGrams value).foldl (fun held gram =>
      Derived.chunkMember held (gramPrefix field gram) id (member gram)) table) := by
  have widths : ∀ gram ∈ changedGrams value, gram.length = 3 := by
    intro gram listed
    unfold changedGrams at listed
    cases found : (searchText value).filter isSplit with
    | none => simp [found] at listed
    | some text =>
        rw [found] at listed
        exact length_of_mem_trigrams listed
  generalize changedGrams value = grams at widths
  induction grams generalizing table with
  | nil => exact keyed
  | cons head tail ih =>
      exact ih (keyed.chunkMember (widths head List.mem_cons_self) id _) fun gram listed =>
        widths gram (List.mem_cons_of_mem _ listed)

/-- A row change: what it derives is what the rows after it say. -/
theorem Derives.deriveRow {store after : Primary} {derived next : Derived} {uuid : Uuid}
    {row : FieldRow} {value : Value} {delta : Int64} (derives : Derives store derived)
    (kept : after.Indexed) (touched : store.Touched uuid row after)
    (counts : Counts store uuid row delta after) (there : 0 < delta → after.Holds uuid row)
    (read : value.stored = row.value)
    (ran : derived.deriveRow after uuid row.name value delta = .ok next) : Derives after next := by
  simp only [Derived.deriveRow, Except.bind_eq_ok] at ran
  obtain ⟨id, naming, parted, parting, placed, placing, foresting⟩ := ran
  have named : derived.id uuid = some id := by
    unfold context at naming
    split at naming <;> simp_all
  rw [← deriveParts_stored, read] at parting
  rw [← deriveKids_stored, read] at placing
  rw [← deriveSets_stored, read] at foresting
  obtain ⟨parts_ran, parts_sets⟩ := deriveParts_spec parting
  obtain ⟨kids_ran, kids_sets, under, apart⟩ := deriveKids_spec placing
  have forest_sets := setsChanged_deriveForest foresting
  have sorted_eq := deriveSets_eq placed (after.rowsNamed uuid row.name) id row.name row.value
  have sets_eq := sets_deriveSets placed (after.rowsNamed uuid row.name) id row.name row.value
  have grams_eq := grams_deriveSets placed (after.rowsNamed uuid row.name) id row.name row.value
  generalize placed.deriveSets (after.rowsNamed uuid row.name) id row.name row.value = sorted
    at foresting forest_sets sorted_eq sets_eq grams_eq
  -- What does not change on the way.
  have next_eq : next = { derived with
      sets := next.sets, parts := parted.parts, kids := placed.kids, grams := sorted.grams } := by
    rw [forest_sets.eq, sorted_eq, kids_sets.eq, parts_sets.eq]
  have id_eq : next.id = derived.id := by
    rw [next_eq]
    rfl
  have rows_eq : ∀ keys key, next.countOf keys key = derived.countOf keys key := by
    intro keys key
    unfold countOf
    rw [id_eq]
  have owner_of : ∀ {property : Uuid → Prop},
      property uuid ↔ ∃ owner, derived.id owner = some id ∧ property owner := by
    intro property
    constructor
    · exact fun holds => ⟨uuid, named, holds⟩
    · rintro ⟨owner, same, holds⟩
      exact derives.toMapped.id_unique same named ▸ holds
  have placed_grams : placed.grams = derived.grams := by
    rw [kids_sets.eq, parts_sets.eq]
  have parted_kids : parted.kids = derived.kids := by
    rw [parts_sets.eq]
  have parted_id : parted.id = derived.id := by
    rw [parts_sets.eq]
    rfl
  have placed_id : placed.id = derived.id := by
    rw [kids_sets.eq, ← parted_id]
    rfl
  have kids_tally : Tallies placed.kids fun key => after.total (derived.countOf kidKeys key) :=
    tallies_of_counts named derives.kids counts (parted_kids ▸ kids_ran)
  have placed_tally : Tallies placed.kids fun key => after.total (placed.countOf kidKeys key) := by
    refine kids_tally.congr fun key => ?_
    rw [show placed.countOf kidKeys key = derived.countOf kidKeys key by
      unfold countOf
      rw [placed_id]]
  have mapped : Mapped after next := by
    rw [next_eq]
    refine ⟨fun key => ?_, derives.uuids_iff, derives.id_lt⟩
    rw [touched.metarecords_eq]
    exact derives.ids_iff key
  have placed_mapped : Mapped after placed := by
    rw [kids_sets.eq, parts_sets.eq]
    refine ⟨fun key => ?_, derives.uuids_iff, derives.id_lt⟩
    rw [touched.metarecords_eq]
    exact derives.ids_iff key
  refine ⟨mapped, ?_, ?_, ?_, ?_, ?_, ?_⟩
  · rw [next_eq]
    simp only [← next_eq, rows_eq]
    exact tallies_of_counts named derives.parts counts parts_ran
  · rw [next_eq]
    simp only [← next_eq, rows_eq]
    exact kids_tally
  · have sorted_keyed : SetsKeyed placed → SetsKeyed sorted := by
      intro keyed key ids found
      rw [sets_eq] at found
      exact (@setsChanged_foldl _ (fun _ => True) _ _ placed fun held key _ =>
        setsChanged_member held trivial id _).keyed keyed found
    exact forest_sets.keyed (sorted_keyed (kids_sets.keyed (parts_sets.keyed derives.set_keyed)))
  · have keyed := derives.gram_keyed.changed row.name row.value id fun gram =>
      decide (gram ∈ heldGrams (after.rowsNamed uuid row.name))
    rw [next_eq]
    dsimp only
    rw [grams_eq, placed_grams]
    exact keyed
  · intro key held plain
    rw [id_eq]
    have forest_same : readSet next.sets key.bytes = readSet sorted.sets key.bytes := by
      refine forest_sets.same ?_
      rintro ⟨field, node, rfl⟩
      exact plain
    have parts_same : readSet parted.sets key.bytes = readSet derived.sets key.bytes := by
      refine parts_sets.same ?_
      rintro ⟨field, value, rfl⟩
      exact plain
    rw [forest_same, sets_eq, mem_foldl_chunkMember SetKey.bytes_injective]
    by_cases mine : held = id ∧ key ∈ recomputed row.name row.value
    · obtain ⟨rfl, listed⟩ := mine
      rw [← owner_of, ← computed_iff kept listed]
      simp [listed]
    · have unlisted : ¬(held = id ∧ key ∈ recomputed row.name row.value ∧
          computed (after.rowsNamed uuid row.name) key = true) := fun listed =>
        mine ⟨listed.1, listed.2.1⟩
      rw [or_iff_right unlisted, and_iff_right mine]
      have untouched : ∀ owner, derived.id owner = some held → owner = uuid →
          key ∉ recomputed row.name row.value := by
        rintro owner same rfl listed
        exact mine ⟨Option.some.inj (same.symm.trans named), listed⟩
      by_cases parents : ∃ field, key = .ofField .parents field
      · obtain ⟨field, rfl⟩ := parents
        have stays : (∀ target, ¬(field = row.name ∧ Under parted row target held)) →
            (held ∈ readSet placed.sets (SetKey.ofField .parents field).bytes ↔
              ∃ owner, derived.id owner = some held ∧ InSet after (.ofField .parents field) owner) := by
          intro outside
          have same : held ∈ readSet placed.sets (SetKey.ofField .parents field).bytes ↔
              held ∈ readSet parted.sets (SetKey.ofField .parents field).bytes := by
            by_cases here : field = row.name
            · subst here
              exact apart fun target under => outside target ⟨rfl, under⟩
            · rw [kids_sets.same (by simpa using here)]
          rw [same, parts_same, derives.mem_set plain]
          refine exists_congr fun owner => and_congr_right fun ids => ?_
          refine (parents_touched_iff touched ?_).symm
          rintro ⟨here, position, target⟩
          exact outside owner ⟨here.symm, position, target, by rw [parted_id]; exact ids⟩
        by_cases inside : ∃ target, field = row.name ∧ Under parted row target held
        · obtain ⟨target, rfl, below⟩ := inside
          rw [under below, hasKids_iff kept placed_mapped placed_tally]
          obtain ⟨position, target_eq, ids⟩ := below
          rw [parted_id] at ids
          constructor
          · rintro (grows | child)
            · exact ⟨target, ids, uuid, row, there grows, rfl, position, target_eq⟩
            · exact ⟨target, ids, child⟩
          · rintro ⟨owner, same, child⟩
            rw [derives.toMapped.id_unique ids same]
            exact .inr child
        · exact stays fun target inside_target => inside ⟨target, inside_target⟩
      · have other : ∀ field, key ≠ .ofField .parents field := fun field same =>
          parents ⟨field, same⟩
        rw [kids_sets.same (other row.name), parts_same, derives.mem_set plain]
        refine exists_congr fun owner => and_congr_right fun ids => ?_
        exact (inSet_touched_iff touched (untouched owner ids) other).symm
  · intro field gram held
    rw [id_eq]
    have grams_same : next.grams = ((changedGrams row.value).map (Prod.mk row.name)).foldl
        (fun table (key : String × Bytes) => chunkMember table (gramPrefix key.1 key.2) id
          (decide (key.2 ∈ heldGrams (after.rowsNamed uuid row.name)))) derived.grams := by
      rw [List.foldl_map, ← placed_grams, ← grams_eq, next_eq]
    have injective : Function.Injective fun key : String × Bytes => gramPrefix key.1 key.2 := by
      rintro ⟨first, one⟩ ⟨second, two⟩ same
      obtain ⟨rfl, rfl⟩ := gramPrefix_inj.mp same
      rfl
    have written := @mem_foldl_chunkMember _ _ injective
      (fun key => decide (key.2 ∈ heldGrams (after.rowsNamed uuid row.name))) id
      ((changedGrams row.value).map (Prod.mk row.name)) derived.grams (field, gram) held
    rw [grams_same, written]
    simp only [List.mem_map, Prod.mk.injEq, exists_eq_right_right, decide_eq_true_iff]
    by_cases mine : held = id ∧ gram ∈ changedGrams row.value ∧ row.name = field
    · obtain ⟨rfl, listed, rfl⟩ := mine
      rw [← owner_of, ← mem_heldGrams kept]
      simp [listed]
    · have unlisted : ¬(held = id ∧ gram ∈ changedGrams row.value ∧ row.name = field ∧
          gram ∈ heldGrams (after.rowsNamed uuid row.name)) := by tauto
      rw [or_iff_right (by tauto), and_iff_right (by tauto), derives.mem_gram]
      refine exists_congr fun owner => and_congr_right fun ids => ?_
      refine (inGram_touched_iff touched ?_).symm
      rintro rfl ⟨here, listed⟩
      exact mine ⟨Option.some.inj (ids.symm.trans named), listed, here.symm⟩

/-! ### Metarecords created and removed -/

/-- The entries under a metarecord name the fields in which rows place others under it. -/
theorem parentFields_spec {store : Primary} {derived : Derived} (indexed : store.Indexed)
    (mapped : Mapped store derived)
    (kids : Tallies derived.kids fun key => store.total (derived.countOf kidKeys key))
    (uuid : Uuid) : ∃ fields, derived.parentFields uuid = .ok fields ∧ fields.Nodup ∧
      ∀ field, field ∈ fields ↔ InSet store (.ofField .parents field) uuid := by
  have shape : ∀ entry ∈ derived.kids.prefixIter uuid.bytes, ∃ field id,
      entry.1 = kidsKey uuid field id ∧ InSet store (.ofField .parents field) uuid := by
    rintro ⟨key, n⟩ member
    obtain ⟨starts, found⟩ := (Table.mem_prefixIter ..).mp member
    have counted := kids.isSome.mp (Option.isSome_of_mem found)
    obtain ⟨owner, row, holds, counted⟩ := (Primary.total_pos indexed).mp counted
    unfold countOf at counted
    split at counted
    next id named =>
      have listed := List.count_pos_iff.mp counted
      simp only [kidKeys, Option.mem_toList, Option.map_eq_some_iff, Prod.exists] at listed
      obtain ⟨parent, node, placed, rfl⟩ := listed
      rw [bytes_prefix_kidsKey] at starts
      subst starts
      exact ⟨row.name, id, rfl, owner, row, holds, rfl, by rw [placed]; rfl,
        targetOf_of_position placed⟩
    next => exact absurd counted (Nat.lt_irrefl 0)
  choose! fieldOf idOf keyed inside using shape
  refine ⟨((derived.kids.prefixIter uuid.bytes).map fieldOf).dedup, ?_, List.nodup_dedup _,
    fun field => ?_⟩
  · unfold parentFields
    refine Except.bind_eq_ok.mpr ⟨_, Except.mapM_eq_ok_map fieldOf fun entry member => ?_, rfl⟩
    have rest : entry.1.drop 16 = nameKey (fieldOf entry) ++ be32 (idOf entry) := by
      rw [keyed entry member, kidsKey, kidsPrefix, List.append_assoc, ← uuid.size, List.drop_left]
    rw [rest, nameKey, ByteCode.unterminated_terminated]
    exact textOf_asBytes (fieldOf entry)
  · rw [List.mem_dedup, List.mem_map]
    constructor
    · rintro ⟨entry, member, rfl⟩
      exact inside entry member
    · intro parent
      have kid := (hasKids_iff indexed mapped kids uuid field).mpr parent
      rw [hasKids, decide_eq_true_iff] at kid
      obtain ⟨⟨key, n⟩, member⟩ := List.exists_mem_of_ne_nil _ kid
      obtain ⟨starts, found⟩ := (Table.mem_prefixIter ..).mp member
      have under : (key, n) ∈ derived.kids.prefixIter uuid.bytes := by
        refine (Table.mem_prefixIter ..).mpr ⟨?_, found⟩
        exact (List.prefix_append uuid.bytes _).trans starts
      refine ⟨(key, n), under, ?_⟩
      have same : key = _ := keyed _ under
      rw [same, kidsPrefix_prefix_iff] at starts
      exact starts.2.symm

omit [Externals] in
/-- A metarecord joins, or leaves, the parents of some fields. -/
theorem setParents_eq (fields : List String) (derived : Derived) (id : UInt32) (member : Bool) :
    fields.foldl (fun held field => held.setMember parentsKind (some field) id member) derived =
      { derived with
        sets := (fields.map (SetKey.ofField .parents)).foldl (fun table key =>
          chunkMember table key.bytes id member) derived.sets } := by
  induction fields generalizing derived with
  | nil => rfl
  | cons head tail ih =>
      rw [List.foldl_cons, ih]
      rfl

/-- What the rows say, the metarecord with no rows says nothing of. -/
theorem inSet_of_no_rows {store : Primary} {uuid : Uuid} {key : SetKey} (plain : key.Plain)
    (empty : ∀ row, ¬store.Holds uuid row) (inside : InSet store key uuid) :
    key = .all ∨ ∃ field, key = .ofField .parents field := by
  cases key with
  | all => exact .inl rfl
  | descendants field node => exact False.elim plain
  | posting field value => exact False.elim plain
  | referrers field target =>
      obtain ⟨row, holds, -⟩ := inside
      exact absurd holds (empty row)
  | ofField kind field =>
      cases kind with
      | parents => exact .inr ⟨field, rfl⟩
      | multi =>
          obtain ⟨first, -, holds, -⟩ := inside
          exact absurd holds (empty first)
      | _ =>
          obtain ⟨row, holds, -⟩ := inside
          exact absurd holds (empty row)

theorem inSet_congr {store after : Primary}
    (same : ∀ {uuid row}, after.Holds uuid row ↔ store.Holds uuid row) (key : SetKey) (uuid : Uuid) :
    InSet after key uuid ↔ InSet store key uuid := by
  cases key with
  | ofField kind field => cases kind <;> simp only [InSet, same]
  | _ => simp only [InSet, same]

omit [Externals] in
/-- A metarecord joins, or leaves, the universe and the parents of the fields it has children in. -/
theorem mem_membership {fields : List String} {sets : Table (Finset UInt32)} {id held : UInt32}
    {member : Bool} {key : SetKey} :
    held ∈ readSet ((fields.map (SetKey.ofField .parents)).foldl
        (fun table made => chunkMember table made.bytes id member)
          (chunkMember sets SetKey.all.bytes id member)) key.bytes ↔
      if held = id ∧ (key = .all ∨ ∃ field ∈ fields, key = .ofField .parents field) then member = true
      else held ∈ readSet sets key.bytes := by
  have written := @mem_foldl_chunkMember _ _ SetKey.bytes_injective (fun _ => member) id
    (SetKey.all :: fields.map (SetKey.ofField .parents)) sets key held
  rw [List.foldl_cons] at written
  have listed_iff : key ∈ SetKey.all :: fields.map (SetKey.ofField .parents) ↔
      key = .all ∨ ∃ field ∈ fields, key = .ofField .parents field := by
    simp only [List.mem_cons, List.mem_map, @eq_comm SetKey key]
  rw [written, listed_iff]
  by_cases ids : held = id <;>
    by_cases listed : key = .all ∨ ∃ field ∈ fields, key = .ofField .parents field <;>
      simp [ids, listed]

omit [Externals] in
theorem setsChanged_membership (fields : List String) (derived : Derived) (id : UInt32)
    (member : Bool) : SetsChanged (fun _ => True) derived { derived with
      sets := (fields.map (SetKey.ofField .parents)).foldl (fun table key =>
        chunkMember table key.bytes id member)
          (chunkMember derived.sets SetKey.all.bytes id member) } :=
  setsChanged_foldl (SetKey.all :: fields.map (SetKey.ofField .parents)) derived
    fun held _ _ => setsChanged_member held trivial id member

/-- A metarecord with no rows gets a dense id, or loses it: it joins, or leaves, the universe and the
parents of the fields it has children in. -/
theorem Derives.remapped {store after : Primary} {derived next : Derived} {uuid : Uuid}
    {id : UInt32} {member : Bool} {fields : List String} (derives : Derives store derived)
    (indexed : store.Indexed) (cells_eq : after.cells = store.cells)
    (empty : ∀ row, ¬store.Holds uuid row) (mapped : Mapped after next)
    (others : ∀ {owner}, owner ≠ uuid → next.id owner = derived.id owner)
    (own : if member = true then next.id uuid = some id ∧ derived.id uuid = none
      else next.id uuid = none ∧ derived.id uuid = some id)
    (listed_iff : ∀ field, field ∈ fields ↔ InSet store (.ofField .parents field) uuid)
    (eq : next = { derived with
      nextId := next.nextId
      ids := next.ids
      uuids := next.uuids
      sets := (fields.map (SetKey.ofField .parents)).foldl (fun table key =>
        chunkMember table key.bytes id member)
          (chunkMember derived.sets SetKey.all.bytes id member) }) : Derives after next := by
  have holds_eq : ∀ {owner row}, after.Holds owner row ↔ store.Holds owner row := by
    intro owner row
    rw [Primary.Holds, cells_eq]
    rfl
  have owner_ne : ∀ {owner row}, store.Holds owner row → owner ≠ uuid := by
    rintro owner row holds rfl
    exact empty row holds
  have totals : ∀ keys key, store.total (derived.countOf keys key) =
      after.total (next.countOf keys key) := by
    intro keys key
    have held_eq : after.held = store.held := by
      rw [Primary.held, cells_eq]
      rfl
    rw [Primary.total, Primary.total, held_eq]
    refine Primary.total_congr_of_holds indexed fun owner row holds => ?_
    rw [countOf, countOf, others (owner_ne holds)]
  have parts_eq : next.parts = derived.parts := by rw [eq]
  have kids_eq : next.kids = derived.kids := by rw [eq]
  have grams_eq : next.grams = derived.grams := by rw [eq]
  refine ⟨mapped, ?_, ?_, ?_, ?_, ?_, ?_⟩
  · rw [parts_eq]
    exact derives.parts.congr (totals partKeys)
  · rw [kids_eq]
    exact derives.kids.congr (totals kidKeys)
  · have keyed := (setsChanged_membership fields derived id member).keyed derives.set_keyed
    rw [eq]
    exact keyed
  · rw [grams_eq]
    exact derives.gram_keyed
  · intro key held plain
    rw [eq, mem_membership, ← eq]
    have mine : InSet store key uuid → key = .all ∨ ∃ field ∈ fields, key = .ofField .parents field := by
      intro inside
      refine (inSet_of_no_rows plain empty inside).imp_right ?_
      rintro ⟨field, rfl⟩
      exact ⟨field, (listed_iff field).mpr inside, rfl⟩
    have inside_mine : (key = .all ∨ ∃ field ∈ fields, key = .ofField .parents field) →
        InSet store key uuid := by
      rintro (rfl | ⟨field, member, rfl⟩)
      · trivial
      · exact (listed_iff field).mp member
    simp only [inSet_congr holds_eq]
    split
    next listed =>
      obtain ⟨rfl, listed⟩ := listed
      cases member with
      | true => exact iff_of_true rfl ⟨uuid, own.1, inside_mine listed⟩
      | false =>
          refine iff_of_false Bool.false_ne_true ?_
          rintro ⟨owner, named, -⟩
          by_cases same : owner = uuid
          · rw [same, own.1] at named
            contradiction
          · rw [others same] at named
            exact same (derives.toMapped.id_unique named own.2)
    next unlisted =>
      rw [derives.mem_set plain]
      refine exists_congr fun owner => ?_
      by_cases same : owner = uuid
      · subst same
        refine iff_of_false ?_ ?_
        · rintro ⟨named, inside⟩
          cases member with
          | true => simp [own.2] at named
          | false =>
              refine unlisted ⟨?_, mine inside⟩
              exact Option.some.inj (named.symm.trans own.2)
        · rintro ⟨named, inside⟩
          cases member with
          | true =>
              refine unlisted ⟨?_, mine inside⟩
              exact Option.some.inj (named.symm.trans own.1)
          | false => simp [own.1] at named
      · rw [others same]
  · intro field gram held
    rw [grams_eq, derives.mem_gram]
    refine exists_congr fun owner => ?_
    have gathered : InGram after field gram owner ↔ InGram store field gram owner := by
      simp only [InGram, holds_eq]
    rw [gathered]
    refine and_congr_left ?_
    rintro ⟨row, text, holds, -⟩
    rw [others (owner_ne holds)]

omit [Externals] in
theorem Mapped.unnamed {store : Primary} {derived : Derived} (mapped : Mapped store derived)
    {uuid : Uuid} (absent : store.version uuid = none) : derived.id uuid = none := by
  refine Option.not_isSome_iff_eq_none.mp fun named => ?_
  have there := (mapped.ids_iff uuid.bytes).mp named
  rw [show store.metarecords.get uuid.bytes = none from absent] at there
  contradiction

omit [Externals] in
/-- A metarecord gets a dense id. -/
theorem Mapped.named {store : Primary} {derived next : Derived} (mapped : Mapped store derived)
    {uuid : Uuid} {version : UInt64} {id : UInt32} (fresh : derived.nextId.toInt = id.toNat)
    (unnamed : derived.id uuid = none) (ids_eq : next.ids = derived.ids.put uuid.bytes id)
    (uuids_eq : next.uuids = derived.uuids.put (be32 id) uuid)
    (next_eq : next.nextId.toInt = derived.nextId.toInt + 1) :
    Mapped { store with metarecords := store.metarecords.put uuid.bytes version } next := by
  have id_eq : ∀ owner, next.id owner = if uuid = owner then some id else derived.id owner := by
    intro owner
    have keys : uuid.bytes = owner.bytes ↔ uuid = owner := ⟨Uuid.ext, congrArg Uuid.bytes⟩
    rw [Derived.id, ids_eq, Table.get_put]
    simp only [keys]
    rfl
  refine ⟨fun key => ?_, fun {key owner} => ?_, fun {owner held} named => ?_⟩
  · rw [ids_eq, Table.get_put, Table.get_put]
    split
    · exact Iff.rfl
    · exact mapped.ids_iff key
  · rw [uuids_eq, Table.get_put]
    simp only [id_eq]
    split
    next same =>
      rw [Option.some.injEq]
      constructor
      · rintro rfl
        exact ⟨id, if_pos rfl, same.symm⟩
      · rintro ⟨held, named, rfl⟩
        obtain rfl := be32_injective same
        split at named
        next here => exact here
        next =>
          have below := mapped.id_lt named
          omega
    next differ =>
      rw [mapped.uuids_iff]
      refine exists_congr fun held => and_congr_left fun keyed => ?_
      split
      next here =>
        subst here
        refine iff_of_false (by simp [unnamed]) fun same => differ ?_
        rw [Option.some.inj same, keyed]
      next => exact Iff.rfl
  · rw [next_eq]
    rw [id_eq] at named
    split at named
    · rw [← Option.some.inj named]
      omega
    · have below := mapped.id_lt named
      omega

omit [Externals] in
/-- A metarecord's dense id is given up. -/
theorem Mapped.forgotten {store : Primary} {derived next : Derived} (mapped : Mapped store derived)
    {uuid : Uuid} {id : UInt32} (named : derived.id uuid = some id)
    (ids_eq : next.ids = derived.ids.delete uuid.bytes)
    (uuids_eq : next.uuids = derived.uuids.delete (be32 id))
    (next_eq : next.nextId = derived.nextId) : Mapped (store.dropMetarecord uuid) next := by
  have id_eq : ∀ owner, next.id owner = if uuid = owner then none else derived.id owner := by
    intro owner
    have keys : uuid.bytes = owner.bytes ↔ uuid = owner := ⟨Uuid.ext, congrArg Uuid.bytes⟩
    rw [Derived.id, ids_eq, Table.get_delete]
    simp only [keys]
    rfl
  refine ⟨fun key => ?_, fun {key owner} => ?_, fun {owner held} other => ?_⟩
  · rw [ids_eq, Primary.dropMetarecord, Table.get_delete, Table.get_delete]
    split
    · exact Iff.rfl
    · exact mapped.ids_iff key
  · rw [uuids_eq, Table.get_delete]
    simp only [id_eq]
    split
    next same =>
      refine iff_of_false (by simp) ?_
      rintro ⟨held, other, rfl⟩
      obtain rfl := be32_injective same
      split at other
      next => contradiction
      next differ => exact differ (mapped.id_unique named other)
    next differ =>
      rw [mapped.uuids_iff]
      refine exists_congr fun held => and_congr_left fun keyed => ?_
      split
      next here =>
        subst here
        refine iff_of_false (fun same => differ ?_) (by simp)
        rw [keyed, Option.some.inj (named.symm.trans same)]
      next => exact Iff.rfl
  · rw [next_eq]
    rw [id_eq] at other
    split at other
    · contradiction
    · exact mapped.id_lt other

/-- A metarecord created: its dense id is derived. -/
theorem Derives.deriveCreated {store : Primary} {derived next : Derived} {uuid : Uuid}
    {version : UInt64} (derives : Derives store derived) (indexed : store.Indexed)
    (absent : store.version uuid = none) (ran : derived.deriveCreated uuid = .ok next) :
    Derives { store with metarecords := store.metarecords.put uuid.bytes version } next := by
  simp only [Derived.deriveCreated, Except.bind_eq_ok, refuseIf_eq_ok, exists_const,
    Except.pure_eq_ok, not_not] at ran
  obtain ⟨bumped, added, ⟨nonneg, small⟩, fields, parents, rfl⟩ := ran
  obtain ⟨listed, found, -, listed_iff⟩ :=
    parentFields_spec indexed derives.toMapped derives.kids uuid
  obtain rfl : listed = fields := Except.ok.inj (found.symm.trans parents)
  rw [setParents_eq]
  have fresh : derived.nextId.toInt = (UInt32.ofNat derived.nextId.toInt.toNat).toNat := by
    rw [UInt32.toNat_ofNat']
    omega
  have unnamed := derives.unnamed absent
  have empty : ∀ row, ¬store.Holds uuid row := by
    intro row holds
    have existing := indexed.owner_exists holds
    rw [absent] at existing
    contradiction
  refine @remapped _ _ _ _ _ uuid _ true listed derives indexed rfl empty
    (derives.named fresh unnamed rfl rfl (toInt_addInt64 added)) (fun {owner} other => ?_)
    ⟨Table.get_put_self _ _ _, unnamed⟩ listed_iff rfl
  exact Table.get_put_of_ne _ _ fun same => other (Uuid.ext same).symm

/-- A metarecord removed, its rows gone already: its dense id is given up. -/
theorem Derives.deriveRemoved {store : Primary} {derived next : Derived} {uuid : Uuid}
    (derives : Derives store derived) (indexed : store.Indexed)
    (empty : ∀ row, ¬store.Holds uuid row) (ran : derived.deriveRemoved uuid = .ok next) :
    Derives (store.dropMetarecord uuid) next := by
  unfold Derived.deriveRemoved at ran
  split at ran
  next unnamed =>
    rw [Except.pure_eq_ok] at ran
    subst ran
    have absent : store.metarecords.get uuid.bytes = none := by
      refine Option.not_isSome_iff_eq_none.mp fun there => ?_
      have named := (derives.ids_iff uuid.bytes).mpr there
      rw [show derived.ids.get uuid.bytes = none from unnamed] at named
      contradiction
    have same : store.dropMetarecord uuid = store := by
      rw [Primary.dropMetarecord, Table.delete_of_get_eq_none _ absent]
    rw [same]
    exact derives
  next id named =>
    simp only [Except.bind_eq_ok, Except.pure_eq_ok] at ran
    obtain ⟨fields, parents, rfl⟩ := ran
    obtain ⟨listed, found, -, listed_iff⟩ :=
      parentFields_spec indexed derives.toMapped derives.kids uuid
    obtain rfl : listed = fields := Except.ok.inj (found.symm.trans parents)
    rw [setParents_eq]
    refine @remapped _ _ _ _ _ uuid id false listed derives indexed rfl empty
      (derives.forgotten named rfl rfl rfl) (fun {owner} other => ?_)
      ⟨Table.get_delete_self _ _, named⟩ listed_iff rfl
    exact Table.get_delete_of_ne _ fun same => other (Uuid.ext same).symm

/-- What is derived depends on the rows, and on which metarecords there are. -/
theorem Derives.congr {store after : Primary} {derived : Derived} (derives : Derives store derived)
    (cells_eq : after.cells = store.cells)
    (metarecords_iff : ∀ key, (after.metarecords.get key).isSome ↔ (store.metarecords.get key).isSome) :
    Derives after derived := by
  have holds_eq : ∀ {owner row}, after.Holds owner row ↔ store.Holds owner row := by
    intro owner row
    rw [Primary.Holds, cells_eq]
    rfl
  have totals : ∀ weight, after.total weight = store.total weight := by
    intro weight
    rw [Primary.total, Primary.held, cells_eq]
    rfl
  refine ⟨⟨fun key => ?_, derives.uuids_iff, derives.id_lt⟩, derives.parts.congr fun key => ?_,
    derives.kids.congr fun key => ?_, derives.set_keyed, derives.gram_keyed, fun plain => ?_, ?_⟩
  · rw [metarecords_iff]
    exact derives.ids_iff key
  · rw [totals]
  · rw [totals]
  · rw [derives.mem_set plain]
    simp only [inSet_congr holds_eq]
  · intro field gram id
    rw [derives.mem_gram]
    simp only [InGram, holds_eq]

/-- With no rows and no metarecords nothing is derived. -/
theorem derives_empty (nextRow nextId : Int64) :
    Derives { nextRow := nextRow } { nextId := nextId } := by
  have unnamed : ∀ uuid, ({ nextId := nextId } : Derived).id uuid = none := fun _ => rfl
  have no_total : ∀ weight, Primary.total { nextRow := nextRow } weight = 0 := fun _ => rfl
  refine ⟨⟨fun key => by simp, by simp [unnamed], by simp [unnamed]⟩,
    tallies_empty.congr fun key => ?_, tallies_empty.congr fun key => ?_, ?_, ?_, ?_, ?_⟩
  · rw [no_total]
  · rw [no_total]
  · intro key ids found
    simp at found
  · intro key ids found
    simp at found
  · intro key id _
    simp [readSet, unnamed]
  · intro field gram id
    simp [readSet, unnamed]

end Derived

end Metafolder
