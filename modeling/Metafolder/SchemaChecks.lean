import Metafolder.SchemaQuestions

/-!
# The check of a whole repository

Metarecords are checked against the constraints of a schema, those first that the questions of the
schema bring up.  Each question is asked for one metarecord more than violations are wanted, so the
check tells what checking every metarecord would tell where the violators are among those asked for.
-/

namespace Metafolder

/-! ### The schema -/

/-- `IndexedConstraint`. -/
structure IndexedConstraint where
  /-- Nothing for the constraints of every metarecord. -/
  targets : Option (List String)
  valueType : Option String
  min : UInt64
  max : Option UInt64

/-- `CompiledSchema`: the constraints of each field, in the order the fields are walked in. -/
structure CompiledSchema where
  byField : List (String × List IndexedConstraint)
  /-- A field has its constraints once. -/
  distinct : (byField.map Prod.fst).Nodup

namespace CompiledSchema

/-- `constrained_fields`. -/
def constrainedFields (schema : CompiledSchema) : List String := schema.byField.map Prod.fst

/-- The constraints of a field. -/
def get (schema : CompiledSchema) (field : String) : Option (List IndexedConstraint) :=
  schema.byField.lookup field

end CompiledSchema

/-- `Violation`. -/
structure Violation where
  metarecordUuid : Uuid
  /-- The type that activated the constraint. -/
  origin : Option String
  field : String
  kind : String
  message : String
deriving DecidableEq

/-- Fields no schema constrains. -/
def isReserved (field : String) : Bool :=
  "mfr_".asBytes.isPrefixOf field.asBytes || "mf_".asBytes.isPrefixOf field.asBytes

/-- The types a metarecord declares: its `mf_schema` values. -/
def declaredTypes (store : Primary) (uuid : Uuid) : List String :=
  (store.rowsNamed uuid "mf_schema").filterMap fun row =>
    match row.value with
    | .string name => some name
    | _ => none

namespace IndexedConstraint

/-- The type that activates a constraint for a metarecord of some types; nothing where none does. -/
def origin (types : List String) (c : IndexedConstraint) : Option (Option String) :=
  match c.targets with
  | none => some none
  | some targets => (targets.find? fun target => target ∈ types).map some

/-- What a constraint finds wrong in the rows of a field. -/
def violations (c : IndexedConstraint) (uuid : Uuid) (origin : Option String) (field : String)
    (rows : List FieldRow) : List Violation :=
  let typed :=
    match c.valueType with
    | none => []
    | some expected =>
        match rows.find? fun row => !row.value.isNothing && row.value.typeStr != expected with
        | none => []
        | some bad => [⟨uuid, origin, field, "type",
            s!"value of type {bad.value.typeStr} not allowed (expected: {expected})"⟩]
  let few :=
    if rows.length < c.min.toNat then [⟨uuid, origin, field, "min_cardinality",
      s!"{rows.length} rows, minimum is {c.min}"⟩]
    else []
  let many :=
    match c.max with
    | none => []
    | some max =>
        if max.toNat < rows.length then [⟨uuid, origin, field, "max_cardinality",
          s!"{rows.length} rows, maximum is {max}"⟩]
        else []
  typed ++ few ++ many

end IndexedConstraint

/-- `validate_entry_fields`. -/
def validateEntryFields (schema : CompiledSchema) (store : Primary) (uuid : Uuid)
    (touched : List String) : List Violation :=
  let types := declaredTypes store uuid
  touched.flatMap fun field =>
    if isReserved field then []
    else match schema.get field with
      | none => []
      | some constraints =>
          let rows := store.rowsNamed uuid field
          constraints.flatMap fun c =>
            match c.origin types with
            | none => []
            | some origin => c.violations uuid origin field rows

/-! ### The candidates -/

/-- `add`: the metarecords not seen yet. -/
def addUnseen (out uuids : List Uuid) : List Uuid :=
  uuids.foldl (fun out uuid => if uuid ∈ out then out else out ++ [uuid]) out

variable [Externals]

/-- A row of the wrong type trips `type`. -/
def addWrong (tx : KvTxn) (limit : Int64) (field : String) (out : List Uuid) :
    Option String → Outcome (List Uuid)
  | some expected => addUnseen out <$> KvSource.wrongType tx field expected limit
  | none => pure out

/-- Too many rows trip `max`. -/
def addMany (tx : KvTxn) (limit : Int64) (field : String) (out : List Uuid) :
    Option UInt64 → List Uuid
  | some max => addUnseen out (KvSource.countOver tx field max.toInt64 limit)
  | none => out

/-- Too few rows trip `min`, and so do none, in the target population of a targeted constraint. -/
def addFew (tx : KvTxn) (limit : Int64) (field : String) (out : List Uuid) (min : UInt64)
    (targets : Option (List String)) : List Uuid :=
  if 0 < min then
    let out := addUnseen out (KvSource.countUnder tx field min.toInt64 limit)
    match targets with
    | some types => addUnseen out (KvSource.typedMissing tx types field limit)
    | none => addUnseen out (KvSource.missing tx field limit)
  else out

/-- The candidates of a constraint. -/
def addCandidates (tx : KvTxn) (limit : Int64) (field : String) (out : List Uuid)
    (c : IndexedConstraint) : Outcome (List Uuid) := do
  let out ← addWrong tx limit field out c.valueType
  let out := addMany tx limit field out c.max
  pure (addFew tx limit field out c.min c.targets)

/-- How many metarecords a question is asked for. -/
def capLimit : Option UInt64 → Int64
  | some cap => cap.toInt64
  | none => Int64.maxValue

/-- `violation_candidates`. -/
def violationCandidates (schema : CompiledSchema) (tx : KvTxn) (cap : Option UInt64) :
    Outcome (List Uuid) :=
  schema.byField.foldlM (fun out held =>
    held.2.foldlM (addCandidates tx (capLimit cap) held.1) out) []

/-! ### The check -/

/-- The body of a check.  Its query is the metarecords it finds. -/
structure CheckBody where
  query : Option (List Uuid) := none
  limit : Option UInt64 := none

/-- The answer of a check. -/
structure CheckAnswer where
  checked : Nat
  violations : List Violation
  truncated : Bool

/-- There are more violations than wanted. -/
def exceeds (limit : Option UInt64) (violations : List Violation) : Bool :=
  limit.any fun l => l.toNat < violations.length

/-- The violations of a metarecord are added until there are too many. -/
def pushUntil (limit : Option UInt64) (out : List Violation) :
    List Violation → List Violation × Bool
  | [] => (out, false)
  | violation :: rest =>
      if exceeds limit (out ++ [violation]) then (out ++ [violation], true)
      else pushUntil limit (out ++ [violation]) rest

/-- The metarecords are checked until there are too many violations. -/
def scan (limit : Option UInt64) (validate : Uuid → List Violation) (checked : Nat)
    (out : List Violation) : List Uuid → Nat × List Violation
  | [] => (checked, out)
  | uuid :: uuids =>
      match pushUntil limit out (validate uuid) with
      | (out, true) => (checked + 1, out)
      | (out, false) => scan limit validate (checked + 1) out uuids

/-- `check_schema`.  The cap is `limit + 1`, which wraps. -/
def checkSchema (schema : Option CompiledSchema) (tx : KvTxn) (body : CheckBody) :
    Outcome CheckAnswer := do
  match schema with
  | none => pure ⟨0, [], false⟩
  | some schema =>
      let uuids ←
        match body.query with
        | some found => pure found
        | none => violationCandidates schema tx (body.limit.map (· + 1))
      let fields := schema.constrainedFields
      let (checked, violations) :=
        scan body.limit (fun uuid => validateEntryFields schema tx.primary uuid fields) 0 [] uuids
      let truncated := exceeds body.limit violations
      let checked :=
        if body.query.isNone && !truncated then tx.primary.metarecords.entries.length else checked
      let returned :=
        match body.limit with
        | some l => violations.take l.toNat
        | none => violations
      pure ⟨checked, returned, truncated⟩

/-! ### Metarecords in the order of their ids -/

omit [Externals] in
theorem mem_addUnseen {out uuids : List Uuid} {uuid : Uuid} :
    uuid ∈ addUnseen out uuids ↔ uuid ∈ out ∨ uuid ∈ uuids := by
  induction uuids generalizing out with
  | nil => simp [addUnseen]
  | cons head rest ih =>
      rw [addUnseen, List.foldl_cons, ← addUnseen, ih, List.mem_cons]
      split
      next seen =>
        constructor
        · rintro (member | member)
          · exact .inl member
          · exact .inr (.inr member)
        · rintro (member | rfl | member)
          · exact .inl member
          · exact .inl seen
          · exact .inr member
      next => simp [or_assoc]

omit [Externals] in
theorem nodup_addUnseen {out uuids : List Uuid} (nodup : out.Nodup) :
    (addUnseen out uuids).Nodup := by
  induction uuids generalizing out with
  | nil => exact nodup
  | cons head rest ih =>
      rw [addUnseen, List.foldl_cons, ← addUnseen]
      apply ih
      split
      next => exact nodup
      next unseen => exact nodup.append (List.nodup_singleton _) (by simpa using unseen)

namespace KvTxn

/-- The metarecords in the order of their ids. -/
def inIdOrder (tx : KvTxn) : List Uuid := tx.derived.uuids.entries.map Prod.snd

/-- A metarecord whose id is less. -/
def Before (tx : KvTxn) (first second : Uuid) : Prop :=
  ∃ one other, tx.derived.id first = some one ∧ tx.derived.id second = some other ∧ one < other

variable {tx : KvTxn}

omit [Externals] in
theorem Before.not_before {first second : Uuid} (before : tx.Before first second) :
    ¬tx.Before second first := by
  obtain ⟨one, other, first_named, second_named, less⟩ := before
  rintro ⟨again, still, second_again, first_again, more⟩
  obtain rfl := Option.some.inj (first_named.symm.trans first_again)
  obtain rfl := Option.some.inj (second_named.symm.trans second_again)
  exact absurd (UInt32.lt_trans less more) (UInt32.lt_irrefl _)

theorem uuids_get_iff (whole : tx.Exact) {id : UInt32} {uuid : Uuid} :
    tx.derived.uuids.get (be32 id) = some uuid ↔ tx.derived.id uuid = some id := by
  rw [whole.derives.uuids_iff]
  constructor
  · rintro ⟨other, named, ids⟩
    rwa [be32_injective ids]
  · intro named
    exact ⟨id, named, rfl⟩

theorem mem_inIdOrder (whole : tx.Exact) {uuid : Uuid} :
    uuid ∈ tx.inIdOrder ↔ ∃ id, tx.derived.id uuid = some id := by
  simp only [inIdOrder, List.mem_map, Prod.exists, Table.mem_entries]
  constructor
  · rintro ⟨key, _, found, rfl⟩
    obtain ⟨id, named, -⟩ := whole.derives.uuids_iff.mp found
    exact ⟨id, named⟩
  · rintro ⟨id, named⟩
    exact ⟨be32 id, uuid, (uuids_get_iff whole).mpr named, rfl⟩

theorem pairwise_inIdOrder (whole : tx.Exact) : tx.inIdOrder.Pairwise tx.Before := by
  rw [inIdOrder, List.pairwise_map]
  refine tx.derived.uuids.pairwise_entries.imp_of_mem ?_
  rintro ⟨key, first⟩ ⟨next, second⟩ first_mem second_mem less
  rw [Table.mem_entries] at first_mem second_mem
  obtain ⟨one, first_named, rfl⟩ := whole.derives.uuids_iff.mp first_mem
  obtain ⟨other, second_named, rfl⟩ := whole.derives.uuids_iff.mp second_mem
  refine ⟨one, other, first_named, second_named, ?_⟩
  have bound (id : UInt32) : id.toNat < 256 ^ 4 := id.toNat_lt
  rw [be32, be32, ByteCode.compare_bigEndian (bound one) (bound other), Std.compare_eq_lt] at less
  exact UInt32.lt_iff_toNat_lt.mpr less

omit [Externals] in
theorem nodup_of_pairwise {uuids : List Uuid} (pairwise : uuids.Pairwise tx.Before) :
    uuids.Nodup := by
  refine pairwise.imp ?_
  rintro first _ before rfl
  exact before.not_before before

theorem nodup_inIdOrder (whole : tx.Exact) : tx.inIdOrder.Nodup :=
  nodup_of_pairwise (pairwise_inIdOrder whole)

/-- Ids in order name the metarecords they are those of, in order. -/
theorem filterMap_eq_filter (whole : tx.Exact) {ids : List UInt32}
    (ordered : ids.Pairwise fun first second => first < second) {fits : Uuid → Bool}
    (same : ∀ {id uuid}, tx.derived.id uuid = some id → (id ∈ ids ↔ fits uuid = true)) :
    ids.filterMap (fun id => tx.derived.uuids.get (be32 id)) = tx.inIdOrder.filter fits := by
  have left : (ids.filterMap fun id => tx.derived.uuids.get (be32 id)).Pairwise tx.Before := by
    rw [List.pairwise_filterMap]
    refine ordered.imp ?_
    intro one other less first first_named second second_named
    exact ⟨one, other, (uuids_get_iff whole).mp first_named, (uuids_get_iff whole).mp second_named,
      less⟩
  have right : (tx.inIdOrder.filter fits).Pairwise tx.Before :=
    (pairwise_inIdOrder whole).filter fits
  refine List.Perm.eq_of_pairwise (fun first second _ _ before after =>
    absurd after before.not_before) left right ?_
  refine (List.perm_ext_iff_of_nodup (nodup_of_pairwise left)
    (nodup_of_pairwise right)).mpr fun uuid => ?_
  rw [List.mem_filterMap, List.mem_filter, mem_inIdOrder whole]
  simp only [uuids_get_iff whole]
  constructor
  · rintro ⟨id, member, named⟩
    exact ⟨⟨id, named⟩, (same named).mp member⟩
  · rintro ⟨⟨id, named⟩, fitting⟩
    exact ⟨id, (same named).mpr fitting, named⟩

end KvTxn

/-! ### The metarecords a constraint brings up -/

/-- A row of a value of another type. -/
def holdsWrong (expected : String) (rows : List FieldRow) : Bool :=
  rows.any fun row => !row.value.isNothing && row.value.typeStr != expected

/-- One row, of some value. -/
def holdsSingle : List FieldRow → Bool
  | [row] => !row.value.isNothing
  | _ => false

/-- The first of the metarecords that fit. -/
def firsts (tx : KvTxn) (limit : Int64) (fits : Uuid → Bool) : List Uuid :=
  (tx.inIdOrder.filter fits).take limit.toInt.toNat

/-- The first metarecords that hold a value of another type. -/
def askedWrong (tx : KvTxn) (limit : Int64) (field : String) : Option String → List Uuid
  | some expected =>
      firsts tx limit fun uuid => holdsWrong expected (tx.primary.rowsNamed uuid field)
  | none => []

/-- The first metarecords that hold too many rows.  Bounds from `2 ^ 63` on are read as negative. -/
def askedMany (tx : KvTxn) (limit : Int64) (field : String) : Option UInt64 → List Uuid
  | some max => firsts tx limit fun uuid =>
      let rows := tx.primary.rowsNamed uuid field
      !rows.isEmpty && max.toInt64.toInt < rows.length
  | none => []

/-- The first metarecords that hold too few rows, those with a single value before the others, and
the first of the target population that hold none. -/
def askedFew (tx : KvTxn) (limit : Int64) (field : String) (min : UInt64)
    (targets : Option (List String)) : List Uuid :=
  if 0 < min then
    let rows := fun uuid => tx.primary.rowsNamed uuid field
    let few :=
      if 1 < min.toInt64.toInt then
        (tx.inIdOrder.filter (fun uuid => holdsSingle (rows uuid)) ++
          tx.inIdOrder.filter fun uuid => !(rows uuid).isEmpty && !holdsSingle (rows uuid) &&
            (rows uuid).length < min.toInt64.toInt).take limit.toInt.toNat
      else []
    few ++ firsts tx limit fun uuid => (rows uuid).isEmpty &&
      targets.all fun types => types.any fun target => target ∈ declaredTypes tx.primary uuid
  else []

/-- The metarecords a constraint brings up. -/
def asked (tx : KvTxn) (limit : Int64) (field : String) (c : IndexedConstraint) : List Uuid :=
  askedWrong tx limit field c.valueType ++ askedMany tx limit field c.max ++
    askedFew tx limit field c.min c.targets

section Asked

variable {tx : KvTxn} {field : String}

open KvSource

theorem uuidsOf_eq_firsts (whole : tx.Exact) {ids : List UInt32}
    (ordered : ids.Pairwise fun first second => first < second) {fits : Uuid → Bool}
    (same : ∀ {id uuid}, tx.derived.id uuid = some id → (id ∈ ids ↔ fits uuid = true))
    (limit : Int64) : uuidsOf tx ids limit = firsts tx limit fits := by
  rw [uuidsOf, firsts, KvTxn.filterMap_eq_filter whole ordered same]

theorem wrongType_eq (whole : tx.Exact) (expected : String) (limit : Int64) :
    wrongType tx field expected limit =
      .ok (firsts tx limit fun uuid => holdsWrong expected (tx.primary.rowsNamed uuid field)) := by
  obtain ⟨ids, finds, wrong⟩ := wrongType_ids whole field expected limit
  rw [finds, uuidsOf_eq_firsts whole (pairwise_inOrder ids) fun {id uuid} named => ?_]
  rw [mem_inOrder, wrong, values_eq whole named, holdsWrong, List.any_eq_true]
  have valued (value : Value) : ¬value.typeStr = "nothing" ↔ value.isNothing = false := by
    rw [Value.typeStr_eq_nothing_iff, ← Value.isNothing_iff, Bool.not_eq_true]
  simp [Wrong, valued]

theorem countOver_eq (whole : tx.Exact) (max limit : Int64) :
    countOver tx field max limit = firsts tx limit fun uuid =>
      !(tx.primary.rowsNamed uuid field).isEmpty &&
        max.toInt < (tx.primary.rowsNamed uuid field).length := by
  obtain ⟨ids, finds, exceeding⟩ := countOver_ids whole field max limit
  rw [finds, uuidsOf_eq_firsts whole (pairwise_inOrder ids) fun {id uuid} named => ?_]
  rw [mem_inOrder, exceeding, values_eq whole named]
  simp

theorem single_iff (whole : tx.Exact) {id : UInt32} {uuid : Uuid}
    (named : tx.derived.id uuid = some id) :
    Single tx id field ↔ holdsSingle (tx.primary.rowsNamed uuid field) = true := by
  rw [Single, values_eq whole named]
  cases tx.primary.rowsNamed uuid field with
  | nil => simp [holdsSingle]
  | cons row rest => cases rest <;> simp [holdsSingle]

theorem countUnder_eq (whole : tx.Exact) (min limit : Int64) :
    countUnder tx field min limit =
      if 1 < min.toInt then
        (tx.inIdOrder.filter (fun uuid => holdsSingle (tx.primary.rowsNamed uuid field)) ++
          tx.inIdOrder.filter fun uuid => !(tx.primary.rowsNamed uuid field).isEmpty &&
            !holdsSingle (tx.primary.rowsNamed uuid field) &&
              (tx.primary.rowsNamed uuid field).length < min.toInt).take limit.toInt.toNat
      else [] := by
  by_cases above : 1 < min.toInt
  · obtain ⟨single, counted, finds, single_less, counted_less, of_single, of_counted⟩ :=
      countUnder_ids whole field limit above
    rw [if_pos above, finds, uuidsOf, List.filterMap_append]
    congr 2
    · refine KvTxn.filterMap_eq_filter whole single_less fun {id uuid} named => ?_
      rw [of_single, single_iff whole named]
    · refine KvTxn.filterMap_eq_filter whole counted_less fun {id uuid} named => ?_
      rw [of_counted, single_iff whole named, values_eq whole named]
      simp
  · have least : min ≤ 1 := Int64.le_iff_toInt_le.mpr (not_lt.mp above)
    rw [if_neg above, countUnder, if_pos least]
    simp [uuidsOf]

theorem holders_eq (whole : tx.Exact) {id : UInt32} {uuid : Uuid}
    (named : tx.derived.id uuid = some id) :
    id ∈ holders tx field ↔ tx.primary.rowsNamed uuid field ≠ [] := by
  rw [mem_holders whole, values_eq whole named, ne_eq, List.map_eq_nil_iff]

theorem missing_eq (whole : tx.Exact) (limit : Int64) :
    missing tx field limit =
      firsts tx limit fun uuid => (tx.primary.rowsNamed uuid field).isEmpty := by
  refine uuidsOf_eq_firsts whole (pairwise_inOrder _) (fun {id uuid} named => ?_) limit
  rw [mem_inOrder, Finset.mem_sdiff, holders_eq whole named, ne_eq, not_not,
    and_iff_right ((mem_universe whole).mpr ⟨uuid, named⟩), List.isEmpty_iff]

theorem mem_declaredTypes (whole : tx.Exact) {id : UInt32} {uuid : Uuid}
    (named : tx.derived.id uuid = some id) {name : String} :
    name ∈ declaredTypes tx.primary uuid ↔ Value.string name ∈ values tx id "mf_schema" := by
  rw [values_eq whole named, declaredTypes, List.mem_filterMap, List.mem_map]
  refine exists_congr fun row => and_congr_right fun _ => ?_
  cases row.value <;> simp

theorem typedMissing_eq (whole : tx.Exact) (types : List String) (limit : Int64) :
    typedMissing tx types field limit = firsts tx limit fun uuid =>
      (tx.primary.rowsNamed uuid field).isEmpty &&
        types.any fun target => target ∈ declaredTypes tx.primary uuid := by
  obtain ⟨ids, ordered, found, answer⟩ := @typedMissing_right _ tx field whole types limit
  refine answer.trans (uuidsOf_eq_firsts whole ordered (fun {id uuid} named => ?_) limit)
  have rows := @values_eq tx field _ id whole uuid named
  rw [found, rows, List.map_eq_nil_iff, Bool.and_eq_true, List.isEmpty_iff, List.any_eq_true,
    and_comm]
  simp only [decide_eq_true_eq, mem_declaredTypes whole named]

end Asked

/-- A step that adds metarecords to those gathered, each once. -/
def Gathers (out : List Uuid) (ran : Outcome (List Uuid)) (found : List Uuid) : Prop :=
  ∃ grown, ran = .ok grown ∧ (out.Nodup → grown.Nodup) ∧
    ∀ uuid, uuid ∈ grown ↔ uuid ∈ out ∨ uuid ∈ found

omit [Externals] in
theorem gathers_foldlM {α : Type} {step : List Uuid → α → Outcome (List Uuid)}
    {gives : α → List Uuid} (each : ∀ out item, Gathers out (step out item) (gives item))
    (items : List α) (out : List Uuid) :
    Gathers out (items.foldlM step out) (items.flatMap gives) := by
  induction items generalizing out with
  | nil => exact ⟨out, rfl, id, by simp⟩
  | cons item items ih =>
      obtain ⟨middle, stepped, keeps, mem_middle⟩ := each out item
      obtain ⟨grown, ran, kept, mem_grown⟩ := ih middle
      refine ⟨grown, ?_, fun nodup => kept (keeps nodup), fun uuid => ?_⟩
      · rw [List.foldlM_cons, stepped]
        exact ran
      · rw [mem_grown, mem_middle, List.flatMap_cons, List.mem_append, or_assoc]

omit [Externals] in
theorem gathers_addUnseen (out found : List Uuid) : Gathers out (.ok (addUnseen out found)) found :=
  ⟨_, rfl, nodup_addUnseen, fun _ => mem_addUnseen⟩

omit [Externals] in
theorem gathers_twice (out found more : List Uuid) :
    Gathers out (.ok (addUnseen (addUnseen out found) more)) (found ++ more) :=
  ⟨_, rfl, fun nodup => nodup_addUnseen (nodup_addUnseen nodup), fun _ => by
    rw [mem_addUnseen, mem_addUnseen, List.mem_append, or_assoc]⟩

omit [Externals] in
theorem gathers_nil (out : List Uuid) : Gathers out (.ok out) [] := ⟨out, rfl, id, by simp⟩

omit [Externals] in
/-- What one step gathers and then another, both gather. -/
theorem Gathers.bind {out : List Uuid} {ran : Outcome (List Uuid)} {found later : List Uuid}
    {next : List Uuid → Outcome (List Uuid)} (gathers : Gathers out ran found)
    (then_ : ∀ grown, Gathers grown (next grown) later) :
    Gathers out (ran >>= next) (found ++ later) := by
  obtain ⟨middle, stepped, keeps, mem_middle⟩ := gathers
  obtain ⟨grown, went, kept, mem_grown⟩ := then_ middle
  refine ⟨grown, ?_, fun nodup => kept (keeps nodup), fun uuid => ?_⟩
  · rw [stepped]
    exact went
  · rw [mem_grown, mem_middle, List.mem_append, or_assoc]

section Gathered

variable {tx : KvTxn} {limit : Int64} {field : String}

theorem gathers_addWrong (whole : tx.Exact) (out : List Uuid) (valueType : Option String) :
    Gathers out (addWrong tx limit field out valueType) (askedWrong tx limit field valueType) := by
  cases valueType with
  | none => exact gathers_nil out
  | some expected =>
      rw [addWrong, wrongType_eq whole]
      exact gathers_addUnseen out _

theorem gathers_addMany (whole : tx.Exact) (out : List Uuid) (max : Option UInt64) :
    Gathers out (.ok (addMany tx limit field out max)) (askedMany tx limit field max) := by
  cases max with
  | none => exact gathers_nil out
  | some max =>
      rw [addMany, countOver_eq whole]
      exact gathers_addUnseen out _

theorem gathers_addFew (whole : tx.Exact) (out : List Uuid) (min : UInt64)
    (targets : Option (List String)) :
    Gathers out (.ok (addFew tx limit field out min targets))
      (askedFew tx limit field min targets) := by
  unfold addFew askedFew
  split
  next =>
    rw [countUnder_eq whole]
    cases targets with
    | none =>
        dsimp only
        rw [missing_eq whole]
        simpa using gathers_twice out _ _
    | some types =>
        dsimp only
        rw [typedMissing_eq whole]
        exact gathers_twice out _ _
  next => exact gathers_nil out

/-- A constraint adds the metarecords it brings up. -/
theorem gathers_addCandidates (whole : tx.Exact) (out : List Uuid) (c : IndexedConstraint) :
    Gathers out (addCandidates tx limit field out c) (asked tx limit field c) := by
  rw [asked, List.append_assoc]
  refine (gathers_addWrong whole out c.valueType).bind fun held => ?_
  exact (gathers_addMany whole held c.max).bind fun grown =>
    gathers_addFew whole grown c.min c.targets

end Gathered

/-- The candidates are the metarecords the constraints bring up. -/
theorem gathers_candidates {tx : KvTxn} (whole : tx.Exact) (schema : CompiledSchema)
    (cap : Option UInt64) : Gathers [] (violationCandidates schema tx cap)
      (schema.byField.flatMap fun held => held.2.flatMap (asked tx (capLimit cap) held.1)) :=
  gathers_foldlM (fun out held =>
    gathers_foldlM (gathers_addCandidates whole) held.2 out) schema.byField []

/-! ### The scan -/

section Scan

variable {limit : Option UInt64}

/-- The violations up to one more than wanted. -/
def wanted (limit : Option UInt64) (violations : List Violation) : List Violation :=
  limit.elim violations fun l => violations.take (l.toNat + 1)

omit [Externals] in
theorem wanted_of_not_exceeds {violations : List Violation}
    (within : exceeds limit violations = false) : wanted limit violations = violations := by
  cases limit with
  | none => rfl
  | some l =>
      simp only [exceeds, Option.any_some, decide_eq_false_iff_not, not_lt] at within
      exact List.take_of_length_le (by omega)

omit [Externals] in
theorem exceeds_append {violations : List Violation} (exceeded : exceeds limit violations = true)
    (more : List Violation) : exceeds limit (violations ++ more) = true := by
  cases limit with
  | none => cases exceeded
  | some l =>
      simp only [exceeds, Option.any_some, decide_eq_true_eq, List.length_append] at exceeded ⊢
      omega

omit [Externals] in
/-- Once there are too many, no more are wanted. -/
theorem wanted_append {violations : List Violation} (exceeded : exceeds limit violations = true)
    (more : List Violation) : wanted limit (violations ++ more) = wanted limit violations := by
  cases limit with
  | none => cases exceeded
  | some l =>
      simp only [exceeds, Option.any_some, decide_eq_true_eq] at exceeded
      exact List.take_append_of_le_length exceeded

omit [Externals] in
theorem exceeds_wanted (violations : List Violation) :
    exceeds limit (wanted limit violations) = exceeds limit violations := by
  cases limit with
  | none => rfl
  | some l =>
      simp only [exceeds, wanted, Option.any_some, Option.elim_some, List.length_take]
      congr 1
      exact propext (by omega)

omit [Externals] in
theorem pushUntil_eq {out : List Violation} (within : exceeds limit out = false)
    (violations : List Violation) : pushUntil limit out violations =
      (wanted limit (out ++ violations), exceeds limit (out ++ violations)) := by
  induction violations generalizing out with
  | nil =>
      rw [List.append_nil, wanted_of_not_exceeds within, within]
      rfl
  | cons violation rest ih =>
      have split : out ++ violation :: rest = out ++ [violation] ++ rest := by simp
      rw [split, pushUntil]
      cases exceeded : exceeds limit (out ++ [violation]) with
      | false =>
          rw [if_neg Bool.false_ne_true]
          exact ih exceeded
      | true =>
          rw [if_pos rfl, exceeds_append exceeded, wanted_append exceeded]
          -- Before the last one there were not too many.
          have full : wanted limit (out ++ [violation]) = out ++ [violation] := by
            cases limit with
            | none => rfl
            | some l =>
                simp only [exceeds, Option.any_some, decide_eq_false_iff_not] at within
                exact List.take_of_length_le (by
                  rw [List.length_append, List.length_singleton]
                  omega)
          rw [full]

omit [Externals] in
/-- The scan finds what is wanted of the violations of the metarecords it is given. -/
theorem scan_eq (validate : Uuid → List Violation) {checked : Nat} {out : List Violation}
    (within : exceeds limit out = false) (uuids : List Uuid) :
    (scan limit validate checked out uuids).2 = wanted limit (out ++ uuids.flatMap validate) := by
  induction uuids generalizing checked out with
  | nil =>
      rw [List.flatMap_nil, List.append_nil, wanted_of_not_exceeds within]
      rfl
  | cons uuid uuids ih =>
      rw [List.flatMap_cons, ← List.append_assoc, scan, pushUntil_eq within]
      cases exceeded : exceeds limit (out ++ validate uuid) with
      | true => exact (wanted_append exceeded _).symm
      | false =>
          dsimp only
          rw [ih (by rw [exceeds_wanted, exceeded]), wanted_of_not_exceeds exceeded]

end Scan

/-! ### What the check tells -/

/-- The violations of some metarecords. -/
def violationsOf (schema : CompiledSchema) (store : Primary) (uuids : List Uuid) : List Violation :=
  uuids.flatMap fun uuid => validateEntryFields schema store uuid schema.constrainedFields

/-- An answer is what checking every metarecord gives: it is cut where there are more violations
than the limit, and holds as many of them as the limit allows. -/
structure Reports (limit : Option UInt64) (all : List Violation) (answer : CheckAnswer) : Prop where
  truncated : answer.truncated = true ↔ ∃ l, limit = some l ∧ l.toNat < all.length
  length : answer.violations.length = limit.elim all.length fun l => min l.toNat all.length
  /-- What is told is there. -/
  real : answer.violations.Subperm all

/-- The metarecords a check of the repository examines. -/
def examined (schema : CompiledSchema) (tx : KvTxn) (limit : Option UInt64) : List Uuid :=
  (schema.byField.flatMap fun held =>
    held.2.flatMap (asked tx (capLimit (limit.map (· + 1))) held.1)).eraseDups

/-- Every metarecord with a violation is examined, or those examined have more than the limit. -/
def Covered (schema : CompiledSchema) (tx : KvTxn) (limit : Option UInt64) : Prop :=
  (∀ uuid ∈ tx.primary.metarecordUuids, violationsOf schema tx.primary [uuid] ≠ [] →
    uuid ∈ examined schema tx limit) ∨
  ∃ l, limit = some l ∧
    l.toNat < (violationsOf schema tx.primary (examined schema tx limit)).length

section Told

variable {tx : KvTxn}

theorem checkSchema_spec (whole : tx.Exact) (schema : CompiledSchema) (limit : Option UInt64) :
    ∃ found answer, found.Perm (examined schema tx limit) ∧
      checkSchema (some schema) tx { limit := limit } = .ok answer ∧
      answer.truncated = exceeds limit (violationsOf schema tx.primary found) ∧
      answer.violations = limit.elim (violationsOf schema tx.primary found) fun l =>
        (violationsOf schema tx.primary found).take l.toNat := by
  obtain ⟨found, gathered, nodup, listed⟩ :=
    gathers_candidates whole schema (limit.map (· + 1))
  let validate uuid := validateEntryFields schema tx.primary uuid schema.constrainedFields
  have scanned := @scan_eq limit validate 0 [] (by cases limit <;> rfl) found
  rw [List.nil_append] at scanned
  obtain ⟨checked, ran⟩ : ∃ checked, checkSchema (some schema) tx { limit := limit } =
      .ok ⟨checked, limit.elim (scan limit validate 0 [] found).2 fun l =>
        (scan limit validate 0 [] found).2.take l.toNat,
        exceeds limit (scan limit validate 0 [] found).2⟩ := by
    cases limit with
    | none => exact ⟨_, by simp only [checkSchema, gathered]; rfl⟩
    | some l => exact ⟨_, by simp only [checkSchema, gathered]; rfl⟩
  refine ⟨found, _, ?_, ran, ?_, ?_⟩
  · refine (List.perm_ext_iff_of_nodup (nodup List.nodup_nil)
      (Primary.nodup_eraseDups _)).mpr fun uuid => ?_
    rw [listed, List.mem_eraseDups]
    simp
  · exact (congrArg (exceeds limit) scanned).trans (exceeds_wanted _)
  · cases limit with
    | none => exact scanned
    | some l =>
        refine (congrArg (List.take l.toNat) scanned).trans ?_
        rw [wanted, Option.elim_some, List.take_take, Nat.min_eq_left (Nat.le_succ _)]
        rfl

omit [Externals] in
theorem mem_of_mem_asked {limit : Int64} {field : String} {c : IndexedConstraint} {uuid : Uuid}
    (member : uuid ∈ asked tx limit field c) : uuid ∈ tx.inIdOrder := by
  have of_firsts {fits : Uuid → Bool} (member : uuid ∈ firsts tx limit fits) :
      uuid ∈ tx.inIdOrder := List.mem_of_mem_filter (List.mem_of_mem_take member)
  obtain ⟨targets, valueType, min, max⟩ := c
  simp only [asked, List.mem_append] at member
  rcases member with (wrong | many) | few
  · cases valueType with
    | none => cases wrong
    | some expected => exact of_firsts wrong
  · cases max with
    | none => cases many
    | some max => exact of_firsts many
  · unfold askedFew at few
    split at few
    next =>
      dsimp only at few
      rcases List.mem_append.mp few with few | none_
      · split at few
        next =>
          rcases List.mem_append.mp (List.mem_of_mem_take few) with single | counted
          · exact List.mem_of_mem_filter single
          · exact List.mem_of_mem_filter counted
        next => cases few
      · exact of_firsts none_
    next => cases few

/-- What is examined is a metarecord. -/
theorem examined_subset (whole : tx.Exact) {schema : CompiledSchema} {limit : Option UInt64}
    {uuid : Uuid} (member : uuid ∈ examined schema tx limit) :
    uuid ∈ tx.primary.metarecordUuids := by
  rw [examined, List.mem_eraseDups, List.mem_flatMap] at member
  obtain ⟨held, -, member⟩ := member
  obtain ⟨c, -, member⟩ := List.mem_flatMap.mp member
  obtain ⟨id, named⟩ := (KvTxn.mem_inIdOrder whole).mp (mem_of_mem_asked member)
  exact (Derive.mem_metarecordUuids whole.consistent).mpr (KvSource.version_of_id whole named)

theorem nodup_metarecordUuids {store : Primary} (consistent : store.Consistent) :
    store.metarecordUuids.Nodup := by
  refine List.Nodup.map_on ?_ store.metarecords.nodup_entries
  rintro ⟨key, version⟩ member ⟨other, again⟩ other_mem same
  rw [Table.mem_entries] at member other_mem
  obtain ⟨uuid, rfl⟩ := consistent.metarecord_keyed member
  obtain ⟨owner, rfl⟩ := consistent.metarecord_keyed other_mem
  dsimp only at same
  rw [Uuid.ofBytes_bytes, Uuid.ofBytes_bytes] at same
  subst same
  rw [Option.some.inj (member.symm.trans other_mem)]

omit [Externals] in
/-- Of what lists give, as much as of some of them where the others give nothing. -/
theorem subperm_flatMap {α β : Type} [DecidableEq α] {found all : List α} (gives : α → List β)
    (found_nodup : found.Nodup) (all_nodup : all.Nodup) (subset : ∀ item ∈ found, item ∈ all) :
    (found.flatMap gives).Subperm (all.flatMap gives) ∧
      ((found.flatMap gives).length = (all.flatMap gives).length ↔
        ∀ item ∈ all, gives item ≠ [] → item ∈ found) := by
  have split : all.Perm (found ++ all.filter (· ∉ found)) := by
    refine (List.perm_ext_iff_of_nodup all_nodup ?_).mpr fun item => ?_
    · refine found_nodup.append (all_nodup.filter _) fun item member other => ?_
      exact of_decide_eq_true (List.mem_filter.mp other).2 member
    · rw [List.mem_append, List.mem_filter, decide_eq_true_eq]
      constructor
      · intro member
        by_cases known : item ∈ found
        · exact .inl known
        · exact .inr ⟨member, known⟩
      · rintro (member | ⟨member, -⟩)
        · exact subset item member
        · exact member
  have given := split.flatMap_right gives
  rw [List.flatMap_append] at given
  refine ⟨(List.sublist_append_left _ _).subperm.trans given.symm.subperm, ?_⟩
  rw [given.length_eq, List.length_append, eq_comm, Nat.add_eq_left, List.length_eq_zero_iff,
    List.flatMap_eq_nil_iff]
  constructor
  · intro none_ item member some_given
    by_contra unknown
    exact some_given (none_ item (List.mem_filter.mpr ⟨member, decide_eq_true unknown⟩))
  · intro known item member
    obtain ⟨there, unknown⟩ := List.mem_filter.mp member
    by_contra some_given
    exact of_decide_eq_true unknown (known item there some_given)

omit [Externals] in
/-- An answer read off some of the metarecords is the one of all of them where those read have all
the violations, or more than the limit. -/
theorem reports_iff {limit : Option UInt64} {found all : List Violation} {answer : CheckAnswer}
    (truncated : answer.truncated = exceeds limit found)
    (told : answer.violations = limit.elim found fun l => found.take l.toNat)
    (some_of : found.Subperm all) : Reports limit all answer ↔
      found.length = all.length ∨ ∃ l, limit = some l ∧ l.toNat < found.length := by
  have fewer := some_of.length_le
  have real : answer.violations.Subperm all := by
    rw [told]
    cases limit with
    | none => exact some_of
    | some l => exact (List.take_sublist _ _).subperm.trans some_of
  constructor
  · rintro ⟨cut, length, -⟩
    rw [told] at length
    rw [truncated] at cut
    cases limit with
    | none => exact .inl length
    | some l =>
        simp only [exceeds, Option.any_some, decide_eq_true_eq, Option.some.injEq,
          exists_eq_left', Option.elim_some, List.length_take] at cut length ⊢
        omega
  · intro enough
    refine ⟨?_, ?_, real⟩
    · rw [truncated]
      cases limit with
      | none => simp [exceeds]
      | some l =>
          simp only [exceeds, Option.any_some, decide_eq_true_eq, Option.some.injEq,
            exists_eq_left'] at enough ⊢
          omega
    · rw [told]
      cases limit with
      | none => simpa using enough
      | some l =>
          simp only [Option.some.injEq, exists_eq_left', Option.elim_some, List.length_take]
            at enough ⊢
          omega

/-- A check of the repository answers as checking every metarecord would where it covers the
violations. -/
theorem told_iff (whole : tx.Exact) (schema : CompiledSchema) (limit : Option UInt64) :
    ∃ answer, checkSchema (some schema) tx { limit := limit } = .ok answer ∧
      (Reports limit (violationsOf schema tx.primary tx.primary.metarecordUuids) answer ↔
        Covered schema tx limit) := by
  obtain ⟨found, answer, perm, ran, truncated, told⟩ := checkSchema_spec whole schema limit
  have nodup : found.Nodup := perm.nodup_iff.mpr (Primary.nodup_eraseDups _)
  obtain ⟨some_of, all_given⟩ := subperm_flatMap
    (fun uuid => validateEntryFields schema tx.primary uuid schema.constrainedFields) nodup
    (nodup_metarecordUuids whole.consistent)
    fun uuid member => examined_subset whole (perm.mem_iff.mp member)
  refine ⟨answer, ran, (reports_iff truncated told some_of).trans ?_⟩
  refine or_congr ?_ ?_
  · refine all_given.trans (forall_congr' fun uuid => ?_)
    rw [perm.mem_iff]
    simp [violationsOf]
  · have same : (violationsOf schema tx.primary found).length =
        (violationsOf schema tx.primary (examined schema tx limit)).length :=
      (perm.flatMap_right _).length_eq
    rw [same]

/-! ### Where nothing is left out -/

omit [Externals] in
theorem toInt_toInt64 (n : UInt64) :
    n.toInt64.toInt = if n.toNat < 2 ^ 63 then (n.toNat : Int) else n.toNat - 2 ^ 64 := by
  have signed := BitVec.toInt_eq_toNat_cond n.toBitVec
  have bits : n.toBitVec.toNat = n.toNat := rfl
  rw [show n.toInt64.toInt = n.toBitVec.toInt from rfl, signed, bits]
  split <;> split <;> omega

omit [Externals] in
theorem mem_firsts {limit : Int64} (room : tx.inIdOrder.length ≤ limit.toInt.toNat)
    {fits : Uuid → Bool} {uuid : Uuid} (listed : uuid ∈ tx.inIdOrder) (fitting : fits uuid = true) :
    uuid ∈ firsts tx limit fits := by
  rw [firsts, List.take_of_length_le ((List.length_filter_le _ _).trans room)]
  exact List.mem_filter.mpr ⟨listed, fitting⟩

omit [Externals] in
/-- A constraint brings up every metarecord that violates it, where the questions are asked for as
many as there are and its minimum fits a signed number. -/
theorem asked_of_violations {limit : Int64} {field : String} {c : IndexedConstraint} {uuid : Uuid}
    {origin : Option String} (room : tx.inIdOrder.length ≤ limit.toInt.toNat)
    (bound : c.min.toNat < 2 ^ 63) (listed : uuid ∈ tx.inIdOrder)
    (targeted : c.origin (declaredTypes tx.primary uuid) = some origin)
    (violated : c.violations uuid origin field (tx.primary.rowsNamed uuid field) ≠ []) :
    uuid ∈ asked tx limit field c := by
  obtain ⟨targets, valueType, min, max⟩ := c
  dsimp only at bound
  simp only [IndexedConstraint.violations, ne_eq, List.append_eq_nil_iff, not_and_or] at violated
  simp only [asked, List.mem_append]
  rcases violated with (wrong | few) | many
  · refine .inl (.inl ?_)
    cases valueType with
    | none => exact absurd rfl wrong
    | some expected =>
        refine mem_firsts room listed ?_
        dsimp only at wrong
        split at wrong
        next => exact absurd rfl wrong
        next bad found =>
          have fitting := List.find?_some found
          exact List.any_eq_true.mpr ⟨bad, List.mem_of_find?_eq_some found, fitting⟩
  · refine .inr ?_
    have fewer : (tx.primary.rowsNamed uuid field).length < min.toNat := by
      by_contra enough
      exact few (if_neg enough)
    have some_min : 0 < min := by
      rw [UInt64.lt_iff_toNat_lt]
      exact Nat.zero_lt_of_lt fewer
    have signed : min.toInt64.toInt = min.toNat := by rw [toInt_toInt64, if_pos bound]
    rw [askedFew, if_pos some_min]
    dsimp only
    rw [List.mem_append]
    by_cases none_ : tx.primary.rowsNamed uuid field = []
    · refine .inr (mem_firsts room listed ?_)
      rw [none_, Bool.and_eq_true]
      refine ⟨rfl, ?_⟩
      cases targets with
      | none => rfl
      | some targets =>
          simp only [IndexedConstraint.origin, Option.map_eq_some_iff] at targeted
          obtain ⟨target, found, -⟩ := targeted
          have fitting := List.find?_some found
          exact List.any_eq_true.mpr ⟨target, List.mem_of_find?_eq_some found, fitting⟩
    · have positive := List.length_pos_of_ne_nil none_
      have above : 1 < min.toInt64.toInt := by omega
      refine .inl ?_
      rw [if_pos above, List.take_of_length_le, List.mem_append, List.mem_filter, List.mem_filter]
      · cases single : holdsSingle (tx.primary.rowsNamed uuid field) with
        | true => exact .inl ⟨listed, rfl⟩
        | false =>
            refine .inr ⟨listed, ?_⟩
            have less : ((tx.primary.rowsNamed uuid field).length : Int) < min.toInt64.toInt := by
              omega
            simp [none_, less]
      · -- No metarecord is counted twice.
        refine le_trans ?_ room
        rw [List.length_append, List.length_eq_length_filter_add (fun uuid =>
          holdsSingle (tx.primary.rowsNamed uuid field)) (l := tx.inIdOrder)]
        refine Nat.add_le_add_left ?_ _
        refine (List.monotone_filter_right _ ?_).length_le
        intro uuid kept
        simp only [Bool.and_eq_true] at kept
        exact kept.1.2
  · refine .inl (.inr ?_)
    cases max with
    | none => exact absurd rfl many
    | some max =>
        have more : max.toNat < (tx.primary.rowsNamed uuid field).length := by
          by_contra within
          exact many (if_neg within)
        have some_rows : tx.primary.rowsNamed uuid field ≠ [] :=
          List.ne_nil_of_length_pos (Nat.zero_lt_of_lt more)
        have signed : max.toInt64.toInt < (tx.primary.rowsNamed uuid field).length := by
          have small := max.toNat_lt
          rw [toInt_toInt64]
          split <;> omega
        refine mem_firsts room listed ?_
        simp [some_rows, signed]

/-- Where the questions are asked for as many metarecords as there are, and the minimums fit signed
numbers, a check covers the violations. -/
theorem covered_of_room (whole : tx.Exact) {schema : CompiledSchema} {limit : Option UInt64}
    (bounds : ∀ held ∈ schema.byField, ∀ c ∈ held.2, c.min.toNat < 2 ^ 63)
    (room : tx.inIdOrder.length ≤ (capLimit (limit.map (· + 1))).toInt.toNat) :
    Covered schema tx limit := by
  refine .inl fun uuid there violates => ?_
  have present := (Derive.mem_metarecordUuids whole.consistent).mp there
  have listed := (KvTxn.mem_inIdOrder whole).mpr (KvSource.exists_id whole present)
  obtain ⟨violation, found⟩ := List.exists_mem_of_ne_nil _ violates
  simp only [violationsOf, List.flatMap_cons, List.flatMap_nil, List.append_nil,
    validateEntryFields, List.mem_flatMap] at found
  obtain ⟨field, -, found⟩ := found
  rw [examined, List.mem_eraseDups, List.mem_flatMap]
  split at found
  next => cases found
  next =>
    split at found
    next => cases found
    next constraints held =>
      obtain ⟨c, member, found⟩ := List.mem_flatMap.mp found
      obtain ⟨before, after, split, -⟩ := List.lookup_eq_some_iff.mp held
      have entry : (field, constraints) ∈ schema.byField := by simp [split]
      refine ⟨_, entry, List.mem_flatMap.mpr ⟨c, member, ?_⟩⟩
      split at found
      next => cases found
      next origin targeted =>
        exact asked_of_violations room (bounds _ entry c member) listed targeted
          (List.ne_nil_of_mem found)

/-- There are no more metarecords than ids. -/
theorem length_inIdOrder_le (whole : tx.Exact) : tx.inIdOrder.length ≤ 2 ^ 32 := by
  let ids := tx.inIdOrder.map fun uuid => ((tx.derived.id uuid).getD 0).toNat
  have nodup : ids.Nodup := by
    rw [List.nodup_map_iff_inj_on (KvTxn.nodup_inIdOrder whole)]
    intro first first_mem second second_mem same
    obtain ⟨one, first_named⟩ := (KvTxn.mem_inIdOrder whole).mp first_mem
    obtain ⟨other, second_named⟩ := (KvTxn.mem_inIdOrder whole).mp second_mem
    rw [first_named, second_named, Option.getD_some, Option.getD_some, UInt32.toNat_inj] at same
    subst same
    exact whole.derives.toMapped.id_unique first_named second_named
  have within : ids ⊆ List.range (2 ^ 32) := by
    intro id member
    obtain ⟨uuid, -, rfl⟩ := List.mem_map.mp member
    exact List.mem_range.mpr (UInt32.toNat_lt _)
  have shorter := (List.subperm_of_subset nodup within).length_le
  rwa [List.length_map, List.length_range] at shorter

/-- Without a limit a check covers the violations where the minimums fit signed numbers. -/
theorem covered_of_unlimited (whole : tx.Exact) {schema : CompiledSchema}
    (bounds : ∀ held ∈ schema.byField, ∀ c ∈ held.2, c.min.toNat < 2 ^ 63) :
    Covered schema tx none := by
  apply covered_of_room whole bounds
  have room : (capLimit (Option.map (· + 1) none)).toInt.toNat = 2 ^ 63 - 1 := rfl
  have fewer := length_inIdOrder_le whole
  omega

/-- A check of the repository answers as checking every metarecord would exactly where each
metarecord with a violation is among the first that some question is asked for, or those have more
violations than the limit. -/
theorem checkSchema_iff (whole : tx.Exact) (schema : CompiledSchema) (limit : Option UInt64) :
    ∃ answer, checkSchema (some schema) tx { limit := limit } = .ok answer ∧
      (Reports limit (violationsOf schema tx.primary tx.primary.metarecordUuids) answer ↔
        Covered schema tx limit) :=
  told_iff whole schema limit

end Told

/-- Two books and a film, rated in words. -/
def sampleRatings : Transaction where
  context := .new ⟨"ratings", none, none⟩
  retention := .unlimited
  timestamp := 7
  calls := [.createMetarecord (sampleUuids 1) [⟨"rating", .string "fine"⟩],
    .createMetarecord (sampleUuids 2) [⟨"rating", .string "good"⟩],
    .createMetarecord (sampleUuids 3) [⟨"mf_schema", .string "film"⟩, ⟨"rating", .string "poor"⟩]]

/-- The rating of a film is a number. -/
def sampleSchema : CompiledSchema where
  byField := [("rating", [⟨some ["film"], some "int", 0, none⟩])]
  distinct := List.nodup_singleton _

omit [Externals] in
/-- A limit of two leaves room for the film. -/
theorem checkSchema_rated : letI : Externals := lowerExternals
    ∃ store, sampleRatings.run {} = .ok store ∧
      ∃ answer, checkSchema (some sampleSchema) store.tx { limit := some 2 } = .ok answer ∧
        Reports (some 2)
          (violationsOf sampleSchema store.tx.primary store.tx.primary.metarecordUuids) answer := by
  let _ : Externals := lowerExternals
  have run : (fun store : KvStore => (store.tx.primary.metarecordUuids.all fun uuid =>
      uuid ∈ examined sampleSchema store.tx (some 2))) <$> sampleRatings.run {} = .ok true := by
    decide +kernel
  obtain ⟨store, ran, all_examined⟩ := Except.map_eq_ok.mp run
  have reached : Reachable (fun _ => True) store := .commit sampleRatings .new trivial ran
  obtain ⟨answer, checked, right⟩ := checkSchema_iff reached.exact sampleSchema (some 2)
  refine ⟨store, ran, answer, checked, right.mpr (.inl fun uuid there _ => ?_)⟩
  exact of_decide_eq_true (List.all_eq_true.mp all_examined uuid there)

omit [Externals] in
/-- With a limit of one the books use up what is asked for, and the film is not seen. -/
theorem checkSchema_unseen : letI : Externals := lowerExternals
    ∃ store, sampleRatings.run {} = .ok store ∧
      ∃ answer, checkSchema (some sampleSchema) store.tx { limit := some 1 } = .ok answer ∧
        ¬Reports (some 1)
          (violationsOf sampleSchema store.tx.primary store.tx.primary.metarecordUuids) answer := by
  let _ : Externals := lowerExternals
  have run : (fun store : KvStore =>
      ((violationsOf sampleSchema store.tx.primary store.tx.primary.metarecordUuids).length,
        (violationsOf sampleSchema store.tx.primary
          (examined sampleSchema store.tx (some 1))).length)) <$>
      sampleRatings.run {} = .ok (1, 0) := by
    decide +kernel
  obtain ⟨store, ran, counted⟩ := Except.map_eq_ok.mp run
  obtain ⟨one, none_seen⟩ := Prod.mk.inj counted
  have reached : Reachable (fun _ => True) store := .commit sampleRatings .new trivial ran
  obtain ⟨found, answer, perm, checked, -, told⟩ :=
    checkSchema_spec reached.exact sampleSchema (some 1)
  refine ⟨store, ran, answer, checked, fun reports => ?_⟩
  have length := reports.length
  have seen : (violationsOf sampleSchema store.tx.primary found).length = 0 :=
    (perm.flatMap_right _).length_eq.trans none_seen
  rw [told, Option.elim_some, Option.elim_some, List.length_take, seen, one] at length
  exact absurd length (by decide)

/-- A check without a limit, of bounds that fit signed numbers, tells every violation. -/
theorem unlimited_check_exhaustive {store : KvStore} (reached : Reachable (fun _ => True) store)
    (schema : CompiledSchema)
    (bounds : ∀ held ∈ schema.byField, ∀ c ∈ held.2, c.min.toNat < 2 ^ 63) :
    ∃ answer, checkSchema (some schema) store.tx { limit := none } = .ok answer ∧
      answer.truncated = false ∧ answer.violations.Perm
        (violationsOf schema store.tx.primary store.tx.primary.metarecordUuids) := by
  obtain ⟨answer, checked, right⟩ := told_iff reached.exact schema none
  have reports := right.mpr (covered_of_unlimited reached.exact bounds)
  exact ⟨answer, checked, by simpa using reports.truncated,
    reports.real.perm_of_length_le reports.length.ge⟩

omit [Externals] in
theorem unlimited_check_rated : letI : Externals := lowerExternals
    ∃ store, sampleRatings.run {} = .ok store ∧
      ∃ answer, checkSchema (some sampleSchema) store.tx { limit := none } = .ok answer ∧
        answer.truncated = false ∧ answer.violations.Perm
          (violationsOf sampleSchema store.tx.primary store.tx.primary.metarecordUuids) := by
  let _ : Externals := lowerExternals
  have run : (fun _ => ()) <$> sampleRatings.run {} = .ok () := by decide +kernel
  obtain ⟨store, ran, -⟩ := Except.map_eq_ok.mp run
  exact ⟨store, ran, unlimited_check_exhaustive (.commit sampleRatings .new trivial ran) _
    (by decide)⟩

end Metafolder
