import Metafolder.Deriving
import Metafolder.ValueKeys

/-!
# The postings

A value held by many metarecords has a posting, their ids as one set.  It is patched with the value
partition from then on, until its last holder goes, so the posting of a value is all its holders.
-/

namespace Metafolder

namespace Derived

variable [Externals]

/-! ### The holders of a value -/

theorem mem_partKeys {id : UInt32} {row : FieldRow} {key : Bytes} : key ∈ partKeys id row ↔
    (∃ value, valueKey row.value = some value ∧ key = partKey row.name valuePart value id) ∨
      (∃ name, namePartKey row.value = some name ∧ key = partKey row.name namePart name id) ∨
        ∃ target, targetOf row.value = some target ∧
          key = partKey row.name targetPart target.bytes id := by
  simp [partKeys, eq_comm]

/-- The keys of the partitions are those of rows. -/
def PartsKeyed (parts : Table Int64) : Prop :=
  ∀ ⦃key count⦄, parts.get key = some count → ∃ id row, key ∈ partKeys id row

theorem Derives.mem_parts {store : Primary} {derived : Derived} (derives : Derives store derived)
    (indexed : store.Indexed) {key : Bytes} : (derived.parts.get key).isSome ↔
      ∃ uuid id row, derived.id uuid = some id ∧ store.Holds uuid row ∧ key ∈ partKeys id row := by
  rw [derives.parts.isSome, Primary.total_pos indexed]
  constructor
  · rintro ⟨uuid, row, holds, positive⟩
    unfold countOf at positive
    split at positive
    next id named => exact ⟨uuid, id, row, named, holds, List.count_pos_iff.mp positive⟩
    next => exact absurd positive (Nat.lt_irrefl 0)
  · rintro ⟨uuid, id, row, named, holds, listed⟩
    refine ⟨uuid, row, holds, ?_⟩
    rw [countOf, named]
    exact List.count_pos_iff.mpr listed

theorem Derives.partsKeyed {store : Primary} {derived : Derived} (derives : Derives store derived)
    (indexed : store.Indexed) : PartsKeyed derived.parts := by
  intro key count found
  obtain ⟨uuid, id, row, -, -, listed⟩ :=
    (derives.mem_parts indexed).mp (Option.isSome_of_eq_some found)
  exact ⟨id, row, listed⟩

omit [Externals] in
theorem get_bump_of_ne {table bumped : Table Int64} {key other : Bytes} {delta : Int64}
    (ran : bump table key delta = .ok bumped) (differ : key ≠ other) :
    bumped.get other = table.get other := by
  simp only [bump, Except.bind_eq_ok, Except.pure_eq_ok] at ran
  obtain ⟨n, -, rfl⟩ := ran
  split
  · exact Table.get_delete_of_ne _ differ
  · exact Table.get_put_of_ne _ _ differ

theorem PartsKeyed.bump {table bumped : Table Int64} (keyed : PartsKeyed table) {id : UInt32}
    {row : FieldRow} {key : Bytes} {delta : Int64} (listed : key ∈ partKeys id row)
    (ran : Derived.bump table key delta = .ok bumped) : PartsKeyed bumped := by
  intro other count found
  by_cases same : key = other
  · exact same ▸ ⟨id, row, listed⟩
  · rw [get_bump_of_ne ran same] at found
    exact keyed found

/-- The holders of a value are the ids of its entries in the value partition. -/
theorem mem_valueHolders {derived : Derived} (keyed : PartsKeyed derived.parts) {value : Value}
    {key : Bytes} (of_value : valueKey value = some key) {field : String} {id : UInt32} :
    id ∈ derived.valueHolders field key ↔
      (derived.parts.get (partKey field valuePart key id)).isSome := by
  simp only [valueHolders, List.mem_toFinset, List.mem_map, Prod.exists, Table.mem_prefixIter]
  constructor
  · rintro ⟨entry, count, ⟨⟨rest, rfl⟩, found⟩, read⟩
    obtain ⟨held, row, listed⟩ := keyed found
    rw [List.drop_left] at read
    have split : ∀ {part : UInt8} {other : Bytes},
        partPrefix field valuePart ++ key ++ rest = partKey row.name part other held →
          field = row.name ∧ valuePart = part ∧ key ++ rest = other ++ be32 held := by
      intro part other same
      simp only [partKey, partPrefix, List.append_assoc] at same
      obtain ⟨fields, parts⟩ := nameKey_append_inj same
      rw [List.singleton_append, List.singleton_append, List.cons.injEq] at parts
      exact ⟨fields, parts⟩
    rcases mem_partKeys.mp listed with ⟨other, also, same⟩ | ⟨name, -, same⟩ | ⟨target, -, same⟩
    · obtain ⟨rfl, -, ends⟩ := split same
      obtain ⟨rfl, rfl⟩ := valueKey_append_inj of_value also ends
      have ids := dense_be32 held []
      rw [List.append_nil, read] at ids
      rw [ids]
      exact Option.isSome_of_eq_some found
    · exact absurd (split same).2.1 (by decide)
    · exact absurd (split same).2.1 (by decide)
  · intro found
    obtain ⟨count, found⟩ := Option.isSome_iff_exists.mp found
    refine ⟨_, count, ⟨⟨be32 id, rfl⟩, found⟩, ?_⟩
    rw [List.drop_left]
    simpa using dense_be32 id []

/-! ### What a posting holds -/

/-- A value without a posting has few holders, and a posting is all the holders of its value. -/
def Posted (derived : Derived) : Prop :=
  ∀ ⦃field value key⦄, valueKey value = some key →
    readSet derived.sets (postingPrefix field key) = ∅ ∧
        (derived.valueHolders field key).card < postingMin ∨
      readSet derived.sets (postingPrefix field key) = derived.valueHolders field key

/-- The postings stay right where neither they nor the value partition change. -/
theorem Posted.congr {derived after : Derived} (posted : Posted derived)
    (keyed : PartsKeyed derived.parts) (kept : PartsKeyed after.parts)
    (sets_eq : ∀ field key, readSet after.sets (SetKey.posting field key).bytes =
      readSet derived.sets (SetKey.posting field key).bytes)
    (parts_iff : ∀ field key id, (after.parts.get (partKey field valuePart key id)).isSome ↔
      (derived.parts.get (partKey field valuePart key id)).isSome) : Posted after := by
  intro field value key of_value
  have holders_eq : after.valueHolders field key = derived.valueHolders field key := by
    ext id
    rw [mem_valueHolders kept of_value, mem_valueHolders keyed of_value, parts_iff]
  have posting_eq : readSet after.sets (postingPrefix field key) =
      readSet derived.sets (postingPrefix field key) := sets_eq field key
  rw [holders_eq, posting_eq]
  exact posted of_value

/-- The postings stay right where no set but others changes. -/
theorem Posted.setsChanged {derived after : Derived} (posted : Posted derived)
    (keyed : PartsKeyed derived.parts) {sort : SetKey → Prop}
    (changed : SetsChanged sort derived after) (others : ∀ field key, ¬sort (.posting field key)) :
    Posted after := by
  have parts_eq : after.parts = derived.parts := by rw [changed.eq]
  refine posted.congr keyed (parts_eq ▸ keyed) (fun field key => changed.same (others field key))
    fun field key id => ?_
  rw [parts_eq]

omit [Externals] in
theorem derivePosting_parts (derived : Derived) (field : String) (key : Bytes) (id : UInt32) :
    (derived.derivePosting field key id).parts = derived.parts := by
  rw [(setsChanged_derivePosting derived field key id).eq]

omit [Externals] in
theorem readSet_derivePosting_of_ne (derived : Derived) {field other : String} {key word : Bytes}
    (id : UInt32) (differ : SetKey.posting field key ≠ .posting other word) :
    readSet (derived.derivePosting field key id).sets (postingPrefix other word) =
      readSet derived.sets (postingPrefix other word) := by
  have apart : postingPrefix field key ≠ postingPrefix other word :=
    fun same => differ (SetKey.bytes_injective same)
  unfold derivePosting
  dsimp only
  split
  · rw [chunkMember, readSet_writeSet, if_neg apart]
  · split
    · rw [chunkApply, readSet_writeSet, if_neg apart]
    · rfl

/-- A value counted anew: its posting, if it has one, is patched, and it gets one once it has
holders enough. -/
theorem Posted.counted {derived : Derived} (posted : Posted derived)
    (keyed : PartsKeyed derived.parts) {id : UInt32} {row : FieldRow} {key : Bytes} {delta : Int64}
    {parts : Table Int64} (of_row : valueKey row.value = some key)
    (ran : bump derived.parts (partKey row.name valuePart key id) delta = .ok parts) :
    Posted (derivePosting { derived with parts := parts } row.name key id) := by
  have kept : PartsKeyed parts :=
    keyed.bump (mem_partKeys.mpr (.inl ⟨key, of_row, rfl⟩)) ran
  have held_iff : ∀ {other : Derived}, other.parts = parts → ∀ {field value word held},
      valueKey value = some word → (held ∈ other.valueHolders field word ↔
        (parts.get (partKey field valuePart word held)).isSome) := by
    rintro other rfl field value word held of_value
    exact mem_valueHolders kept of_value
  have stays : ∀ {other : Derived}, other.parts = parts → ∀ {field value word held},
      valueKey value = some word → ¬(row.name = field ∧ key = word ∧ id = held) →
        (held ∈ other.valueHolders field word ↔ held ∈ derived.valueHolders field word) := by
    intro other same field value word held of_value differ
    rw [held_iff same of_value, mem_valueHolders keyed of_value, get_bump_of_ne ran]
    rw [Ne, partKey_inj]
    rintro ⟨fields, -, words, ids⟩
    exact differ ⟨fields, words, ids⟩
  have parts_eq := derivePosting_parts { derived with parts := parts } row.name key id
  intro field value word of_value
  by_cases same : SetKey.posting row.name key = .posting field word
  · obtain ⟨rfl, rfl⟩ := SetKey.posting.inj same
    have now : (derivePosting { derived with parts := parts } row.name key id).valueHolders
        row.name key = valueHolders { derived with parts := parts } row.name key := by
      ext held
      rw [held_iff parts_eq of_row]
      exact (held_iff rfl of_row).symm
    rw [now]
    unfold derivePosting
    dsimp only
    split
    next held_already =>
      -- The posting was there, so it was whole; it follows the one id that may have changed.
      refine .inr ?_
      rw [chunkMember, readSet_writeSet, if_pos rfl]
      have whole : readSet derived.sets (postingPrefix row.name key) =
          derived.valueHolders row.name key := by
        rcases posted of_row with ⟨none_held, -⟩ | whole
        · exact absurd none_held held_already
        · exact whole
      ext held
      have own := @held_iff { derived with parts := parts } rfl row.name _ key held of_row
      rw [whole, own]
      by_cases ids : id = held
      · subst ids
        split
        next there => exact iff_of_true (Finset.mem_insert_self _ _) there
        next gone => exact iff_of_false (Finset.notMem_erase _ _) gone
      · have others := @stays { derived with parts := parts } rfl row.name _ key held of_row
          fun all => ids all.2.2
        rw [← own, others]
        split
        · rw [Finset.mem_insert, or_iff_right fun equal => ids equal.symm]
        · rw [Finset.mem_erase, and_iff_right fun equal => ids equal.symm]
    next none_held =>
      have empty : readSet derived.sets (postingPrefix row.name key) = ∅ := not_not.mp none_held
      split
      next =>
        refine .inr ?_
        rw [chunkApply, readSet_writeSet, if_pos rfl]
        simp [empty]
      next few =>
        refine .inl ⟨empty, ?_⟩
        by_cases there : (parts.get (partKey row.name valuePart key id)).isSome
        · exact Nat.lt_of_not_le fun many => few ⟨there, many⟩
        · -- Nobody joined the holders, who were few.
          have fewer : valueHolders { derived with parts := parts } row.name key ⊆
              derived.valueHolders row.name key := by
            intro held member
            by_cases ids : id = held
            · subst ids
              exact absurd ((held_iff rfl of_row).mp member) there
            · exact (stays rfl of_row fun all => ids all.2.2).mp member
          refine (Finset.card_le_card fewer).trans_lt ?_
          rcases posted of_row with ⟨-, few⟩ | whole
          · exact few
          · rw [← whole, empty]
            decide
  · have holders_eq : (derivePosting { derived with parts := parts } row.name key id).valueHolders
        field word = derived.valueHolders field word := by
      ext held
      refine stays parts_eq of_value ?_
      rintro ⟨rfl, rfl, -⟩
      exact same rfl
    rw [holders_eq, readSet_derivePosting_of_ne _ id same]
    exact posted of_value

/-! ### Every change of the tables -/

theorem Posted.bumped {derived : Derived} (posted : Posted derived)
    (keyed : PartsKeyed derived.parts) {id : UInt32} {row : FieldRow} {part : UInt8} {key : Bytes}
    {delta : Int64} {parts : Table Int64} (other : valuePart ≠ part)
    (listed : partKey row.name part key id ∈ partKeys id row)
    (ran : bump derived.parts (partKey row.name part key id) delta = .ok parts) :
    Posted { derived with parts := parts } ∧ PartsKeyed parts := by
  have kept := keyed.bump listed ran
  refine ⟨posted.congr keyed kept (fun _ _ => rfl) fun field word held => ?_, kept⟩
  dsimp only
  rw [get_bump_of_ne ran]
  rw [Ne, partKey_inj]
  rintro ⟨-, parts, -⟩
  exact other parts.symm

theorem Posted.deriveParts {derived after : Derived} (posted : Posted derived)
    (keyed : PartsKeyed derived.parts) {id : UInt32} {row : FieldRow} {delta : Int64}
    (ran : derived.deriveParts id row.name row.value delta = .ok after) :
    Posted after ∧ PartsKeyed after.parts := by
  obtain ⟨valued, named, targeted, valuing, naming, targeting, rfl⟩ := deriveParts_eq_ok.mp ran
  have value_step : Posted valued ∧ PartsKeyed valued.parts := by
    split at valuing
    next key found =>
      simp only [Except.bind_eq_ok, Except.pure_eq_ok] at valuing
      obtain ⟨parts, bumped, rfl⟩ := valuing
      refine ⟨posted.counted keyed found bumped, ?_⟩
      rw [derivePosting_parts]
      exact keyed.bump (mem_partKeys.mpr (.inl ⟨key, found, rfl⟩)) bumped
    next =>
      rw [Except.pure_eq_ok] at valuing
      exact valuing ▸ ⟨posted, keyed⟩
  have name_step : Posted { valued with parts := named } ∧ PartsKeyed named := by
    cases found : namePartKey row.value with
    | none =>
        rw [found] at naming
        obtain rfl := Except.ok.inj naming
        exact value_step
    | some key =>
        rw [found] at naming
        have bumped : bump valued.parts (partKey row.name namePart key id) delta = .ok named := by
          simpa using naming
        exact value_step.1.bumped value_step.2 (by decide)
          (mem_partKeys.mpr (.inr (.inl ⟨key, found, rfl⟩))) bumped
  cases found : targetOf row.value with
  | none =>
      rw [found] at targeting
      obtain rfl := Except.ok.inj targeting
      exact name_step
  | some target =>
      rw [found] at targeting
      have bumped : bump named (partKey row.name targetPart target.bytes id) delta =
          .ok targeted := by
        simpa using targeting
      exact name_step.1.bumped name_step.2 (by decide)
        (mem_partKeys.mpr (.inr (.inr ⟨target, found, rfl⟩))) bumped

theorem Posted.deriveRow {store : Primary} {derived next : Derived} {uuid : Uuid} {row : FieldRow}
    {value : Value} {delta : Int64} (posted : Posted derived) (keyed : PartsKeyed derived.parts)
    (read : value.stored = row.value)
    (ran : derived.deriveRow store uuid row.name value delta = .ok next) : Posted next := by
  simp only [Derived.deriveRow, Except.bind_eq_ok] at ran
  obtain ⟨id, -, parted, parting, placed, placing, foresting⟩ := ran
  rw [← deriveParts_stored, read] at parting
  rw [← deriveKids_stored, read] at placing
  obtain ⟨posted_parts, keyed_parts⟩ := posted.deriveParts keyed parting
  have placed_changed := (deriveKids_spec placing).2.1
  have posted_kids : Posted placed :=
    @Posted.setsChanged _ { parted with kids := placed.kids } placed posted_parts keyed_parts _
      placed_changed fun _ _ => by simp
  have placed_parts : placed.parts = parted.parts := by rw [placed_changed.eq]
  have keyed_kids : PartsKeyed placed.parts := placed_parts ▸ keyed_parts
  have sorted_eq := deriveSets_eq placed (store.rowsNamed uuid row.name) id row.name value
  have sorted_parts : (placed.deriveSets (store.rowsNamed uuid row.name) id row.name value).parts =
      placed.parts := by rw [sorted_eq]
  have posted_sets :
      Posted (placed.deriveSets (store.rowsNamed uuid row.name) id row.name value) := by
    refine posted_kids.congr keyed_kids (sorted_parts.symm ▸ keyed_kids) (fun field key => ?_)
      fun field key held => by rw [sorted_parts]
    have unlisted : SetKey.posting field key ∉ recomputed row.name value := by
      intro listed
      simp only [recomputed, List.mem_append, List.mem_cons, Option.mem_toList] at listed
      rcases listed with (listed | listed) | listed
      · simp at listed
      · split at listed <;> simp at listed
      · simp at listed
    ext held
    rw [sets_deriveSets, mem_foldl_chunkMember SetKey.bytes_injective]
    simp [unlisted]
  refine posted_sets.setsChanged (sorted_parts.symm ▸ keyed_kids)
    (setsChanged_deriveForest foresting) fun field key => ?_
  rintro ⟨other, node, same⟩
  cases same

omit [Externals] in
/-- A metarecord joins, or leaves, the universe and the parents of its fields. -/
theorem readSet_membership (fields : List String) (sets : Table (Finset UInt32)) (id : UInt32)
    (member : Bool) (field : String) (key : Bytes) :
    readSet ((fields.map (SetKey.ofField .parents)).foldl (fun table made =>
        chunkMember table made.bytes id member) (chunkMember sets SetKey.all.bytes id member))
          (SetKey.posting field key).bytes =
      readSet sets (SetKey.posting field key).bytes := by
  ext held
  rw [mem_membership, if_neg]
  rintro ⟨-, same | ⟨other, -, same⟩⟩
  · cases same
  · cases same

theorem Posted.deriveCreated {derived next : Derived} (posted : Posted derived)
    (keyed : PartsKeyed derived.parts) {uuid : Uuid} (ran : derived.deriveCreated uuid = .ok next) :
    Posted next := by
  simp only [Derived.deriveCreated, Except.bind_eq_ok, refuseIf_eq_ok, exists_const,
    Except.pure_eq_ok] at ran
  obtain ⟨bumped, -, -, fields, -, rfl⟩ := ran
  rw [setParents_eq]
  exact posted.congr keyed keyed (fun field key => readSet_membership fields _ _ true field key)
    fun _ _ _ => Iff.rfl

theorem Posted.deriveRemoved {derived next : Derived} (posted : Posted derived)
    (keyed : PartsKeyed derived.parts) {uuid : Uuid} (ran : derived.deriveRemoved uuid = .ok next) :
    Posted next := by
  unfold Derived.deriveRemoved at ran
  split at ran
  next =>
    rw [Except.pure_eq_ok] at ran
    exact ran ▸ posted
  next id named =>
    simp only [Except.bind_eq_ok, Except.pure_eq_ok] at ran
    obtain ⟨fields, -, rfl⟩ := ran
    rw [setParents_eq]
    exact posted.congr keyed keyed (fun field key => readSet_membership fields _ _ false field key)
      fun _ _ _ => Iff.rfl

theorem posted_empty (nextId : Int64) : Posted { nextId := nextId } := by
  intro field value key _
  exact .inr rfl

end Derived

namespace KvTxn

open Derived

variable [Externals] {tx after : KvTxn}

/-- The derived tables hold what the rows derive, the postings of values with them. -/
structure Exact (tx : KvTxn) : Prop extends Sound tx where
  /-- The postings are right. -/
  posted : Posted tx.derived

theorem Exact.keyed (whole : tx.Exact) : PartsKeyed tx.derived.parts :=
  whole.derives.partsKeyed whole.consistent.toIndexed

theorem Exact.insertRow (whole : tx.Exact) {uuid : Uuid} {name : String} {value : Value}
    {given : Option Int64} {id : Int64}
    (ran : tx.insertRow uuid name value given = .ok (id, after)) : after.Exact := by
  refine ⟨whole.toSound.insertRow ran, ?_⟩
  simp only [KvTxn.insertRow, Except.bind_eq_ok, Except.pure_eq_ok, Prod.exists,
    Prod.mk.injEq] at ran
  obtain ⟨newId, primary, -, derived, deriving_row, rfl, rfl⟩ := ran
  exact @Posted.deriveRow _ _ _ _ _ ⟨newId, name, value.stored⟩ _ _ whole.posted whole.keyed rfl
    deriving_row

theorem Exact.deleteRow (whole : tx.Exact) {id : Int64} (ran : tx.deleteRow id = .ok after) :
    after.Exact := by
  refine ⟨whole.toSound.deleteRow ran, ?_⟩
  simp only [KvTxn.deleteRow, Except.bind_eq_ok, Prod.exists] at ran
  obtain ⟨removed, primary, deleting, rest⟩ := ran
  obtain ⟨-, ⟨rfl, -⟩ | ⟨owner, row, rfl, -, deleted⟩⟩ :=
    Primary.deleteRow_spec whole.consistent deleting
  · rw [Except.pure_eq_ok] at rest
    exact rest ▸ whole.posted
  · simp only [Except.bind_eq_ok, Except.pure_eq_ok] at rest
    obtain ⟨derived, deriving_row, rfl⟩ := rest
    have read : row.value.stored = row.value :=
      congrArg FieldRow.value (whole.consistent.stored deleted.held)
    exact whole.posted.deriveRow whole.keyed read deriving_row

theorem Exact.createMetarecord (whole : tx.Exact) {uuid : Uuid} {version : UInt64}
    (ran : tx.createMetarecord uuid version = .ok after) : after.Exact := by
  refine ⟨whole.toSound.createMetarecord ran, ?_⟩
  simp only [KvTxn.createMetarecord, Except.bind_eq_ok, Except.pure_eq_ok] at ran
  obtain ⟨primary, -, derived, deriving_id, rfl⟩ := ran
  exact whole.posted.deriveCreated whole.keyed deriving_id

theorem Exact.dropped (whole : tx.Exact) {uuid : Uuid}
    (empty : ∀ row, ¬tx.primary.Holds uuid row) (ran : tx.dropped uuid = .ok after) :
    after.Exact := by
  refine ⟨whole.toSound.dropped empty ran, ?_⟩
  simp only [KvTxn.dropped, Except.bind_eq_ok, Except.pure_eq_ok] at ran
  obtain ⟨derived, deriving_id, rfl⟩ := ran
  exact whole.posted.deriveRemoved whole.keyed deriving_id

theorem Exact.deleteEach (whole : tx.Exact) {rows : List FieldRow}
    (ran : tx.deleteEach rows = .ok after) : after.Exact :=
  Except.foldlM_induction Exact (fun _ _ _ _ held stepped => held.deleteRow stepped) whole ran

theorem Exact.insertEach (whole : tx.Exact) {uuid : Uuid} {rows : List FieldRow}
    (ran : tx.insertEach uuid rows = .ok after) : after.Exact := by
  refine Except.foldlM_induction Exact (fun row _ before next held stepped => ?_) whole ran
  obtain ⟨⟨id, filled⟩, inserting, rfl⟩ := Except.map_eq_ok.mp stepped
  exact held.insertRow inserting

/-- An operation keeps the postings right. -/
theorem Performed.exact {op : NewOp} (performed : tx.Performed op after) (whole : tx.Exact) :
    after.Exact := by
  obtain ⟨filled, moved, settled⟩ := performed.done
  obtain ⟨removed, created, cleared, -, opening, clearing, filling⟩ := moved.calls
  have begun : created.Exact := by
    unfold opened at opening
    split at opening
    · exact whole.createMetarecord opening
    · simp only [Except.bind_eq_ok, refuseIf_eq_ok, exists_const, Except.pure_eq_ok] at opening
      exact opening.2 ▸ whole
  have full := (begun.deleteEach clearing).insertEach filling
  unfold Settled at settled
  split at settled
  · exact full.dropped settled.2.1 settled.2.2
  · rw [settled.2]
    exact ⟨full.toSound.setVersion _ _, full.posted⟩

end KvTxn

variable [Externals]

/-- In every store reachable, the derived tables hold what the rows derive, and the posting of a
value all its holders. -/
theorem Reachable.exact {kind : Transaction → Prop} {store : KvStore}
    (reached : Reachable kind store) : store.tx.Exact := by
  obtain ⟨steps, history, -⟩ := reached.history
  exact (KvTxn.Chain.induction KvTxn.Exact history.chain
    (fun _ performed held => performed.exact held)
    ⟨KvTxn.sound_empty 1 1, Derived.posted_empty 1⟩).1

end Metafolder
