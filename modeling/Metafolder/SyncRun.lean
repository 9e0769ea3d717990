import Metafolder.SyncMerge
import Metafolder.Transaction

/-!
# The metadata phase of a sync

A link's fields are decided on the records as they stood when the phase began, and each change is
written on the other side.  What the daemons answer is left to the requests a run makes.
-/

namespace Metafolder

namespace Sync

/-- What a run asks for one link: the records it knows, the writes it makes, and that the link be
held back from the commit. -/
structure Requests (m : Type → Type) where
  /-- `Run::record`. -/
  record : Side → m MetaRecord
  /-- `Run::put`: why a write was refused, if it was. -/
  put : Side → String → List Value → m (Option String)
  /-- A value is left out, or a conflict undecided. -/
  hold : m Unit

section

variable [FloatText] {m : Type → Type} [Monad m] [MonadLiftT (Except String) m]
  (requests : Requests m) (look tr : Translate) (resolve : String → Option Side) (snap : Snapshot)

/-- `Run::propagate`: writes a side's values of a field on the other, translated. -/
def propagate (side : Side) (name : String) : m (Option String) := do
  let values := valuesOf (← requests.record side) name
  match ← (translateAll tr side name values : Except String (Option (List Value))) with
  | some translated => requests.put side.other name translated
  | none =>
      requests.hold
      pure none

/-- The side a field's values are taken from, if they are to be written. -/
def winner (a b : MetaRecord) (name : String) : m (Option Side) := do
  match ← (decideField look name (valuesOf a name) (valuesOf b name) snap :
      Except String Decision) with
  | .propagate side => pure (some side)
  | .conflict =>
      match resolve name with
      | some side => pure (some side)
      | none =>
          requests.hold
          pure none
  | .inSync => pure none
  | .untouched => pure none

/-- Each field in turn, up to the first write refused. -/
def syncNames (a b : MetaRecord) : List String → m (Option String)
  | [] => pure none
  | name :: rest => do
      match ← winner requests look resolve snap a b name with
      | none => syncNames a b rest
      | some side =>
          match ← propagate requests tr side name with
          | some why => pure (some why)
          | none => syncNames a b rest

/-- A record without a position is given that of the other side. -/
def placeBare (side : Side) : m (Option String) := do
  let here ← requests.record side
  let there ← requests.record side.other
  if (here.get "mfr_path").isNone && (there.get "mfr_path").isSome then
    propagate requests tr side.other "mfr_path"
  else pure none

/-- The fields a link is decided on. -/
def linkNames (a b : MetaRecord) (snap : Snapshot) : List String :=
  (syncedNames a ++ syncedNames b ++ snap.common.keys).dedup.mergeSort (compare · · |>.isLE)

/-- `Run::sync`: why the operation was skipped, if it was. -/
def sync : m (Option String) := do
  let a ← requests.record .a
  let b ← requests.record .b
  let names := (linkNames a b snap).filter (· ≠ "mfr_path")
  match ← syncNames requests look tr resolve snap a b names with
  | some why => pure (some why)
  | none =>
      match ← placeBare requests tr .a with
      | some why => pure (some why)
      | none => placeBare requests tr .b

end

/-! ### One client -/

/-- What a daemon decides by itself of the write of a field. -/
class Daemon where
  /-- Why it refuses the write, if it does. -/
  refuses : MetaRecord → String → List Value → Option String
  /-- The version it gives the record. -/
  version : MetaRecord → UInt64
  /-- The ids it gives the rows. -/
  rowId : MetaRecord → Nat → Int64

/-- What a run knows of a link: its two records, and whether the link is held back. -/
structure Known where
  /-- Each side's record. -/
  record : Side → MetaRecord
  /-- Whether the link is held back from the commit. -/
  held : Bool := false

variable [Daemon]

/-- A record once a field's values are replaced. -/
def putField (record : MetaRecord) (name : String) (values : List Value) : MetaRecord :=
  { record with
    version := Daemon.version record
    fields := record.fields.filter (·.name ≠ name) ++
      values.mapIdx fun index value => ⟨Daemon.rowId record index, name, value⟩ }

/-- A link's record replaced by a daemon's answer. -/
def Known.answer (known : Known) (side : Side) (record : MetaRecord) : Known :=
  { known with record := Function.update known.record side record }

/-- The requests of a run alone with its daemons. -/
def alone : Requests (StateT Known (Except String)) where
  record side := do pure ((← get).record side)
  put side name values := do
    let known ← get
    match Daemon.refuses (known.record side) name values with
    | some why => pure (some why)
    | none =>
        set (known.answer side (putField (known.record side) name values))
        pure none
  hold := modify fun known => { known with held := true }

omit [Daemon] in
@[simp]
theorem Known.answer_record (known : Known) (side : Side) (record : MetaRecord) :
    (known.answer side record).record side = record := by
  simp [Known.answer]

omit [Daemon] in
@[simp]
theorem Known.answer_other (known : Known) (side : Side) (record : MetaRecord) :
    (known.answer side.other record).record side = known.record side := by
  cases side <;> simp [Known.answer, Side.other]

@[simp]
theorem alone_record_run (side : Side) (known : Known) :
    (alone.record side).run known = .ok (known.record side, known) := rfl

theorem alone_put_run {side : Side} {name : String} {values : List Value} {known after : Known}
    (ran : (alone.put side name values).run known = .ok (none, after)) :
    after = known.answer side (putField (known.record side) name values) := by
  simp only [alone, StateT.run_bind, StateT.run_get, pure_bind] at ran
  cases held : Daemon.refuses (known.record side) name values with
  | some why =>
      rw [held] at ran
      cases ran
  | none =>
      rw [held] at ran
      cases ran
      rfl

theorem getAll_putField (record : MetaRecord) (name : String) (values : List Value) :
    (putField record name values).getAll name = values := by
  have others : (record.fields.filter (·.name ≠ name)).filter (·.name = name) = [] := by
    rw [List.filter_filter, List.filter_eq_nil_iff]
    simp
  have rows : (values.mapIdx fun index value =>
      (⟨Daemon.rowId record index, name, value⟩ : FieldRow)).filter (·.name = name) =
      values.mapIdx fun index value => ⟨Daemon.rowId record index, name, value⟩ := by
    rw [List.filter_eq_self]
    intro row member
    obtain ⟨index, below, rfl⟩ := List.mem_mapIdx.mp member
    simp
  rw [MetaRecord.getAll, putField, List.filter_append, others, rows, List.nil_append]
  apply List.ext_getElem <;> simp

theorem getAll_putField_of_ne (record : MetaRecord) {name other : String} (values : List Value)
    (ne : other ≠ name) : (putField record name values).getAll other = record.getAll other := by
  have others : (record.fields.filter (·.name ≠ name)).filter (·.name = other) =
      record.fields.filter (·.name = other) := by
    rw [List.filter_filter]
    apply List.filter_congr
    intro row _
    by_cases held : row.name = other <;> simp [held, ne]
  have rows : (values.mapIdx fun index value =>
      (⟨Daemon.rowId record index, name, value⟩ : FieldRow)).filter (·.name = other) = [] := by
    rw [List.filter_eq_nil_iff]
    intro row member
    obtain ⟨index, below, rfl⟩ := List.mem_mapIdx.mp member
    simp [ne.symm]
  rw [MetaRecord.getAll, putField, List.filter_append, others, rows, List.append_nil]
  rfl

variable [FloatText]

theorem valuesOf_putField (record : MetaRecord) (name : String) (values : List Value) :
    valuesOf (putField record name values) name = canon values := by
  rw [valuesOf, getAll_putField]

/-- The side a decision takes a field's values from, a conflict's resolution given. -/
def Decision.winner (resolved : Option Side) : Decision → Option Side
  | propagate side => some side
  | conflict => resolved
  | inSync => none
  | untouched => none

/-- What a part of the phase leaves alone: the other fields, and that the link is held back. -/
structure Frame (touched : String → Prop) (before after : Known) : Prop where
  /-- The fields not touched keep their values. -/
  rows : ∀ {name}, ¬ touched name → ∀ side,
    (after.record side).getAll name = (before.record side).getAll name
  /-- A link held back stays so. -/
  held : before.held = true → after.held = true

/-- One side's values of a field are carried to the other: written there, and then the two agree; or
left out, one of them having no counterpart, and the link is held back. -/
structure Sent (tr : Translate) (name : String) (side : Side) (before after : Known) : Prop where
  /-- The values carried are not changed. -/
  source : valuesOf (after.record side) name = valuesOf (before.record side) name
  /-- What the other side holds. -/
  target :
    (Carried tr side name (valuesOf (before.record side) name) ∧
      valuesOf (after.record side.other) name =
        canon ((valuesOf (before.record side) name).map (moved tr side name))) ∨
    (¬ Carried tr side name (valuesOf (before.record side) name) ∧
      valuesOf (after.record side.other) name = valuesOf (before.record side.other) name ∧
      after.held = true)

/-- What is decided for a field is carried out. -/
def Settled (tr : Translate) (resolve : String → Option Side) (snap : Snapshot) (name : String)
    (before after : Known) : Prop :=
  ∃ decision, decideField tr name (valuesOf (before.record .a) name)
      (valuesOf (before.record .b) name) snap = .ok decision ∧
    match decision.winner (resolve name) with
    | some side => Sent tr name side before after
    | none => (∀ side, valuesOf (after.record side) name = valuesOf (before.record side) name) ∧
        (decision = .conflict → after.held = true)

omit [Daemon] [FloatText] in
theorem Frame.get {touched : String → Prop} {before after : Known}
    (frame : Frame touched before after) {name : String} (apart : ¬ touched name) (side : Side) :
    (after.record side).get name = (before.record side).get name := by
  rw [MetaRecord.get_eq_head?, frame.rows apart side, ← MetaRecord.get_eq_head?]

omit [Daemon] in
theorem Frame.values {touched : String → Prop} {before after : Known}
    (frame : Frame touched before after) {name : String} (apart : ¬ touched name) (side : Side) :
    valuesOf (after.record side) name = valuesOf (before.record side) name := by
  rw [valuesOf, frame.rows apart side, valuesOf]

omit [Daemon] [FloatText] in
theorem Frame.refl (touched : String → Prop) (known : Known) : Frame touched known known :=
  ⟨fun _ _ => rfl, id⟩

omit [Daemon] [FloatText] in
theorem Frame.trans {first second : String → Prop} {before middle after : Known}
    (one : Frame first before middle) (two : Frame second middle after) :
    Frame (fun name => first name ∨ second name) before after := by
  refine ⟨fun apart side => ?_, fun held => two.held (one.held held)⟩
  rw [not_or] at apart
  rw [two.rows apart.2 side, one.rows apart.1 side]

omit [Daemon] [FloatText] in
theorem Frame.mono {first second : String → Prop} {before after : Known}
    (frame : Frame first before after) (within : ∀ name, first name → second name) :
    Frame second before after :=
  ⟨fun apart => frame.rows fun touched => apart (within _ touched), frame.held⟩

section

variable {tr : Translate} {resolve : String → Option Side} {snap : Snapshot} {name : String}
  {side : Side} {known before middle after : Known}

omit [Daemon] in
/-- Values stay carried through what leaves the field alone. -/
theorem Sent.frame {touched : String → Prop} (sent : Sent tr name side before middle)
    (two : Frame touched middle after) (apart : ¬ touched name) :
    Sent tr name side before after := by
  refine ⟨by rw [two.values apart, sent.source], ?_⟩
  rw [two.values apart]
  rcases sent.target with written | ⟨stuck, kept, held⟩
  · exact Or.inl written
  · exact Or.inr ⟨stuck, kept, two.held held⟩

omit [Daemon] in
theorem Sent.after_frame {touched : String → Prop} (one : Frame touched before middle)
    (apart : ¬ touched name) (sent : Sent tr name side middle after) :
    Sent tr name side before after := by
  obtain ⟨source, target⟩ := sent
  rw [one.values apart] at source target
  rw [one.values apart] at target
  exact ⟨source, target⟩

omit [Daemon] in
theorem Settled.frame {touched : String → Prop}
    (settled : Settled tr resolve snap name before middle)
    (two : Frame touched middle after) (apart : ¬ touched name) :
    Settled tr resolve snap name before after := by
  obtain ⟨decision, decided, done⟩ := settled
  refine ⟨decision, decided, ?_⟩
  cases taken : decision.winner (resolve name) with
  | none =>
      simp only [taken] at done ⊢
      exact ⟨fun side => by rw [two.values apart, done.1], fun held => two.held (done.2 held)⟩
  | some side =>
      simp only [taken] at done ⊢
      exact done.frame two apart

omit [Daemon] in
theorem Settled.after_frame {touched : String → Prop} (one : Frame touched before middle)
    (apart : ¬ touched name) (settled : Settled tr resolve snap name middle after) :
    Settled tr resolve snap name before after := by
  obtain ⟨decision, decided, done⟩ := settled
  rw [one.values apart .a, one.values apart .b] at decided
  refine ⟨decision, decided, ?_⟩
  cases taken : decision.winner (resolve name) with
  | none =>
      simp only [taken] at done ⊢
      exact ⟨fun side => by rw [done.1, one.values apart], done.2⟩
  | some side =>
      simp only [taken] at done ⊢
      exact Sent.after_frame one apart done

theorem propagate_spec (oneToOne : tr.OneToOne)
    (ran : (propagate alone tr side name).run known = .ok (none, after)) :
    Sent tr name side known after ∧ Frame (· = name) known after ∧
      after.record side = known.record side := by
  rw [propagate, StateT.run_bind, alone_record_run] at ran
  simp only [bind, Except.bind] at ran
  by_cases carried : Carried tr side name (valuesOf (known.record side) name)
  · rw [translateAll_of_carried carried] at ran
    cases alone_put_run ran
    refine ⟨⟨by rw [Known.answer_other], Or.inl ⟨carried, ?_⟩⟩, ⟨?_, id⟩, Known.answer_other ..⟩
    · rw [Known.answer_record, valuesOf_putField]
    · intro other ne place
      by_cases target : place = side.other
      · rw [target, Known.answer_record, getAll_putField_of_ne _ _ ne]
      · simp only [Known.answer, Function.update_of_ne target]
  · rw [translateAll_of_not_carried oneToOne carried] at ran
    cases ran
    exact ⟨⟨rfl, Or.inr ⟨carried, rfl, rfl⟩⟩, ⟨fun _ _ => rfl, fun _ => rfl⟩, rfl⟩

theorem winner_spec {a b : MetaRecord} {found : Option Side}
    (ran : (winner alone tr resolve snap a b name).run known = .ok (found, after)) :
    ∃ decision, decideField tr name (valuesOf a name) (valuesOf b name) snap = .ok decision ∧
      decision.winner (resolve name) = found ∧ after.record = known.record ∧
      (known.held = true → after.held = true) ∧
      (found = none → decision = .conflict → after.held = true) := by
  rw [winner, StateT.run_bind] at ran
  cases decided : decideField tr name (valuesOf a name) (valuesOf b name) snap with
  | error failure =>
      rw [decided] at ran
      cases ran
  | ok decision =>
      rw [decided] at ran
      refine ⟨decision, rfl, ?_⟩
      cases decision with
      | conflict =>
          cases resolved : resolve name with
          | none =>
              simp only [resolved] at ran
              cases ran
              exact ⟨rfl, rfl, fun _ => rfl, fun _ _ => rfl⟩
          | some side =>
              simp only [resolved] at ran
              cases ran
              exact ⟨rfl, rfl, id, nofun⟩
      | propagate side =>
          cases ran
          exact ⟨rfl, rfl, id, nofun⟩
      | inSync =>
          cases ran
          exact ⟨rfl, rfl, id, nofun⟩
      | untouched =>
          cases ran
          exact ⟨rfl, rfl, id, nofun⟩

/-- Each field in turn is settled, and no other touched: the induction is on the fields, each of them
holding still what it held when the phase began. -/
theorem syncNames_spec (oneToOne : tr.OneToOne) {a b : MetaRecord} {names : List String}
    (distinct : names.Nodup)
    (current : ∀ name ∈ names, valuesOf (known.record .a) name = valuesOf a name ∧
      valuesOf (known.record .b) name = valuesOf b name)
    (ran : (syncNames alone tr tr resolve snap a b names).run known = .ok (none, after)) :
    (∀ name ∈ names, Settled tr resolve snap name known after) ∧
      Frame (· ∈ names) known after := by
  induction names generalizing known with
  | nil =>
      cases ran
      exact ⟨nofun, Frame.refl _ _⟩
  | cons name names ih =>
      obtain ⟨fresh, apart⟩ := List.nodup_cons.mp distinct
      rw [syncNames, StateT.run_bind, Except.bind_eq_ok] at ran
      obtain ⟨⟨found, middle⟩, decided, rest⟩ := ran
      obtain ⟨decision, decision_eq, rfl, record_eq, held, undecided⟩ := winner_spec decided
      obtain ⟨currentA, currentB⟩ := current name (by simp)
      rw [← currentA, ← currentB] at decision_eq
      have first : Frame (· = name) known middle := ⟨fun _ _ => by rw [record_eq], held⟩
      obtain ⟨sent, settled, frame, rest⟩ : ∃ sent, Settled tr resolve snap name known sent ∧
          Frame (· = name) known sent ∧
          (syncNames alone tr tr resolve snap a b names).run sent = .ok (none, after) := by
        cases taken : decision.winner (resolve name) with
        | none =>
            simp only [taken] at rest
            refine ⟨middle, ⟨decision, decision_eq, ?_⟩, first, rest⟩
            simp only [taken]
            exact ⟨fun side => by rw [record_eq], undecided taken⟩
        | some side =>
            simp only [taken] at rest
            rw [StateT.run_bind, Except.bind_eq_ok] at rest
            obtain ⟨⟨refused, sent⟩, wrote, rest⟩ := rest
            cases refused with
            | some why => cases rest
            | none =>
                obtain ⟨carried, second, -⟩ := propagate_spec oneToOne wrote
                refine ⟨sent, ⟨decision, decision_eq, ?_⟩, (first.trans second).mono (by simp), rest⟩
                simp only [taken]
                obtain ⟨source, target⟩ := carried
                rw [record_eq] at source target
                exact ⟨source, target⟩
      have later : ∀ other ∈ names, ¬ other = name := by
        rintro other member rfl
        exact fresh member
      obtain ⟨others, last⟩ := ih apart (fun other member => by
        rw [frame.values (later other member), frame.values (later other member)]
        exact current other (List.mem_cons_of_mem _ member)) rest
      refine ⟨fun other member => ?_, (frame.trans last).mono (by simp)⟩
      cases member with
      | head => exact settled.frame last fresh
      | tail _ member => exact (others other member).after_frame frame (later other member)

/-- Whether a side's record has no position while the other's has one. -/
def Known.bare (known : Known) (side : Side) : Bool :=
  ((known.record side).get "mfr_path").isNone && ((known.record side.other).get "mfr_path").isSome

omit [Daemon] [FloatText] in
theorem Known.bare_of_isSome (place : ((known.record side).get "mfr_path").isSome = true) :
    known.bare side = false := by
  rw [Known.bare, Option.isNone_eq_false_iff.mpr place, Bool.false_and]

omit [Daemon] [FloatText] in
theorem Known.bare_frame {touched : String → Prop} (frame : Frame touched before after)
    (apart : ¬ touched "mfr_path") (side : Side) : after.bare side = before.bare side := by
  rw [Known.bare, frame.get apart, frame.get apart, Known.bare]

/-- A record without a position is given the other's. -/
theorem placeBare_spec (oneToOne : tr.OneToOne)
    (ran : (placeBare alone tr side).run known = .ok (none, after)) :
    Frame (· = "mfr_path") known after ∧ (known.bare side = false → after = known) ∧
      (known.bare side = true → Sent tr "mfr_path" side.other known after ∧
        after.record side.other = known.record side.other) := by
  have branches : (if known.bare side = true then propagate alone tr side.other "mfr_path"
      else pure none).run known = .ok (none, after) := ran
  cases bare : known.bare side with
  | false =>
      rw [bare] at branches
      cases branches
      exact ⟨Frame.refl _ _, fun _ => rfl, nofun⟩
  | true =>
      rw [bare] at branches
      obtain ⟨sent, frame, source⟩ := propagate_spec oneToOne branches
      exact ⟨frame, nofun, fun _ => ⟨sent, source⟩⟩

omit [Daemon] [FloatText] in
theorem linkNames_nodup (a b : MetaRecord) (snap : Snapshot) : (linkNames a b snap).Nodup :=
  (List.mergeSort_perm _ _).nodup_iff.mpr (List.nodup_dedup _)

omit [Daemon] [FloatText] in
theorem mem_linkNames {a b : MetaRecord} {snap : Snapshot} {name : String} :
    name ∈ linkNames a b snap ↔
      name ∈ syncedNames a ∨ name ∈ syncedNames b ∨ name ∈ snap.common := by
  simp [linkNames]

omit [Daemon] in
/-- A field neither side has, and none had, is in sync. -/
theorem Settled.of_absent (synced : isSyncedField name = true)
    (missing : name ∉ linkNames (known.record .a) (known.record .b) snap) :
    Settled tr resolve snap name known known := by
  rw [mem_linkNames, not_or, not_or] at missing
  have agreed : Agree tr name .a (valuesOf (known.record .a) name)
      (valuesOf (known.record .b) name) := by
    rw [valuesOf_eq_nil synced missing.1, valuesOf_eq_nil synced missing.2.1]
    exact ⟨nofun, by rw [List.map_nil, canon_nil]; rfl⟩
  exact ⟨.inSync, decideField_of_agree agreed, fun _ => rfl, nofun⟩

theorem sync_parts (ran : (sync alone tr tr resolve snap).run known = .ok (none, after)) :
    ∃ middle placed,
      (syncNames alone tr tr resolve snap (known.record .a) (known.record .b)
        ((linkNames (known.record .a) (known.record .b) snap).filter (· ≠ "mfr_path"))).run known =
          .ok (none, middle) ∧
      (placeBare alone tr .a).run middle = .ok (none, placed) ∧
      (placeBare alone tr .b).run placed = .ok (none, after) := by
  simp only [sync, StateT.run_bind, alone_record_run, Except.bind_eq_ok, Except.ok.injEq,
    exists_eq_left', Prod.exists] at ran
  obtain ⟨refused, middle, fields, ran⟩ := ran
  cases refused with
  | some why => cases ran
  | none =>
      simp only [StateT.run_bind, Except.bind_eq_ok, Prod.exists] at ran
      obtain ⟨refused, placed, first, ran⟩ := ran
      cases refused with
      | some why => cases ran
      | none => exact ⟨middle, placed, fields, first, ran⟩

/-- What a sync did with each field, and with a record that had no position. -/
theorem sync_spec (oneToOne : tr.OneToOne)
    (ran : (sync alone tr tr resolve snap).run known = .ok (none, after)) :
    (∀ name, isSyncedField name = true → name ≠ "mfr_path" →
      Settled tr resolve snap name known after) ∧
    ∀ side, known.bare side = true → Sent tr "mfr_path" side.other known after := by
  obtain ⟨middle, placed, fields, first, last⟩ := sync_parts ran
  have names : ∀ {name}, name ∈ (linkNames (known.record .a) (known.record .b) snap).filter
      (· ≠ "mfr_path") → name ≠ "mfr_path" := fun member => by
    simpa using (List.mem_filter.mp member).2
  obtain ⟨settled, frame⟩ := syncNames_spec oneToOne ((linkNames_nodup ..).filter _)
    (fun _ _ => ⟨rfl, rfl⟩) fields
  have placeA := placeBare_spec oneToOne first
  have placeB := placeBare_spec oneToOne last
  constructor
  · intro name synced other
    by_cases member : name ∈ (linkNames (known.record .a) (known.record .b) snap).filter
        (· ≠ "mfr_path")
    · exact ((settled name member).frame placeA.1 other).frame placeB.1 other
    · have missing : name ∉ linkNames (known.record .a) (known.record .b) snap := fun within =>
        member (List.mem_filter.mpr ⟨within, by simpa using other⟩)
      exact ((Settled.of_absent synced missing).frame frame member).frame placeA.1 other |>.frame
        placeB.1 other
  · have apart : "mfr_path" ∉ (linkNames (known.record .a) (known.record .b) snap).filter
        (· ≠ "mfr_path") := fun member => names member rfl
    have kept := Known.bare_frame frame apart
    intro side bare
    rw [← kept] at bare
    cases side with
    | a =>
        obtain ⟨sent, source⟩ := placeA.2.2 bare
        have done : placed.bare .b = false := by
          apply Known.bare_of_isSome
          have held : placed.record .b = middle.record .b := source
          rw [held]
          exact (Bool.and_eq_true_iff.mp bare).2
        rw [placeB.2.1 done]
        exact Sent.after_frame frame apart sent
    | b =>
        have done : middle.bare .a = false :=
          Known.bare_of_isSome (Bool.and_eq_true_iff.mp bare).2
        rw [placeA.2.1 done] at placeB
        exact Sent.after_frame frame apart (placeB.2.2 bare).1

omit [Daemon] in
/-- Values carried to the other side are agreed on, none of them being a NaN. -/
theorem Sent.agree (sent : Sent tr name side before after)
    (carried : Carried tr side name (valuesOf (before.record side) name))
    (numbers : ∀ value ∈ valuesOf (before.record side) name, value.isNaN = false)
    (oneToOne : tr.OneToOne) :
    Agree tr name .a (valuesOf (after.record .a) name) (valuesOf (after.record .b) name) := by
  have agreed : Agree tr name side (valuesOf (after.record side) name)
      (valuesOf (after.record side.other) name) := by
    rcases sent.target with ⟨-, written⟩ | ⟨stuck, -⟩
    · rw [sent.source, written]
      refine ⟨carried, ?_⟩
      rw [canon_of_canonic (canon_canonic _)]
      apply sameValues_self
      intro value member
      obtain ⟨origin, within, rfl⟩ := List.mem_map.mp (Canonical.canon_subset _ member)
      exact isNaN_moved oneToOne (numbers origin within)
    · exact absurd carried stuck
  cases side with
  | a => exact agreed
  | b => exact agreed.flip oneToOne (valuesOf_canonic ..) (valuesOf_canonic ..)

end

/-- No value of a record is a NaN: JSON, in which records travel, has none. -/
def Numbers (record : MetaRecord) : Prop := ∀ row ∈ record.fields, row.value.isNaN = false

omit [Daemon] in
theorem valuesOf_number {record : MetaRecord} (numbers : Numbers record) {name : String} :
    ∀ value ∈ valuesOf record name, value.isNaN = false := by
  intro value member
  obtain ⟨row, within, rfl⟩ := List.mem_map.mp (Canonical.canon_subset _ member)
  exact numbers row (List.mem_filter.mp within).1

section

variable {tr : Translate} {name : String} {a b : MetaRecord} {snap next : Snapshot}

omit [Daemon] in
theorem agree_ok_iff (oneToOne : tr.OneToOne) :
    (∃ pairs, agree tr name (valuesOf a name) (valuesOf b name) = .ok (some pairs)) ↔
      Agree tr name .a (valuesOf a name) (valuesOf b name) := by
  constructor
  · rintro ⟨pairs, found⟩
    by_contra differ
    rw [agree_of_not_agree oneToOne differ] at found
    cases found
  · exact fun agreed => ⟨_, agree_of_agree agreed⟩

omit [Daemon] in
theorem not_agree_iff (oneToOne : tr.OneToOne) :
    agree tr name (valuesOf a name) (valuesOf b name) = .ok none ↔
      ¬ Agree tr name .a (valuesOf a name) (valuesOf b name) := by
  constructor
  · intro differ agreed
    rw [agree_of_agree agreed] at differ
    cases differ
  · exact agree_of_not_agree oneToOne

omit [Daemon] in
/-- By what was recorded of a field two records agree on, the side that changes is known. -/
theorem decideField_later (oneToOne : tr.OneToOne) (synced : isSyncedField name = true)
    (recorded : nextSnapshot tr a b snap = .ok next)
    (agreed : Agree tr name .a (valuesOf a name) (valuesOf b name)) (record : MetaRecord) :
    (agree tr name (valuesOf record name) (valuesOf b name) = .ok none →
      decideField tr name (valuesOf record name) (valuesOf b name) next = .ok (.propagate .a)) ∧
    (agree tr name (valuesOf a name) (valuesOf record name) = .ok none →
      decideField tr name (valuesOf a name) (valuesOf record name) next =
        .ok (.propagate .b)) := by
  constructor
  · intro differ
    rw [not_agree_iff oneToOne] at differ
    rw [decideField_of_not_agree oneToOne differ,
      changed_a oneToOne synced recorded agreed (valuesOf_canonic record name) differ]
  · intro differ
    rw [not_agree_iff oneToOne] at differ
    rw [decideField_of_not_agree oneToOne differ,
      changed_b oneToOne synced recorded agreed differ]

omit [Daemon] in
theorem decideField_kept (oneToOne : tr.OneToOne) (synced : isSyncedField name = true)
    (recorded : nextSnapshot tr a b snap = .ok next)
    (differ : ¬ Agree tr name .a (valuesOf a name) (valuesOf b name)) (first second : List Value) :
    decideField tr name first second next = decideField tr name first second snap := by
  simp only [decideField, nextSnapshot_kept oneToOne synced recorded differ]

end

/-- Three-way merge.  The translation being a partial map, one to one, a field is decided alike
whichever side comes first.  Once a link has been synced, each of its fields is carried to the other
side, and then the sides agree on it, or left as it was; and by the snapshot recorded next, a field
they agree on is in sync until a side changes, and then that side's, while one they disagree on is
decided as before. -/
theorem three_way_merge {tr : Translate} (oneToOne : tr.OneToOne) :
    (∀ name a b snap, decideField tr.swap name (valuesOf b name) (valuesOf a name) snap.swap =
      (decideField tr name (valuesOf a name) (valuesOf b name) snap).map Decision.swap) ∧
    ∀ {resolve : String → Option Side} {snap : Snapshot} {known after : Known},
      (∀ side, Numbers (known.record side)) →
      (sync alone tr tr resolve snap).run known = .ok (none, after) →
      (∀ name, isSyncedField name = true → name ≠ "mfr_path" →
        Settled tr resolve snap name known after) ∧
      (∀ side, known.bare side = true → Sent tr "mfr_path" side.other known after) ∧
      (∀ name side, Sent tr name side known after →
        Carried tr side name (valuesOf (known.record side) name) →
        ∃ pairs, agree tr name (valuesOf (after.record .a) name)
          (valuesOf (after.record .b) name) = .ok (some pairs)) ∧
      ∀ {next : Snapshot}, nextSnapshot tr (after.record .a) (after.record .b) snap = .ok next →
        ∀ name, isSyncedField name = true →
          ((∃ pairs, agree tr name (valuesOf (after.record .a) name)
              (valuesOf (after.record .b) name) = .ok (some pairs)) →
            decideField tr name (valuesOf (after.record .a) name)
              (valuesOf (after.record .b) name) next = .ok .inSync ∧
            ∀ record,
              (agree tr name (valuesOf record name) (valuesOf (after.record .b) name) = .ok none →
                decideField tr name (valuesOf record name) (valuesOf (after.record .b) name) next =
                  .ok (.propagate .a)) ∧
              (agree tr name (valuesOf (after.record .a) name) (valuesOf record name) = .ok none →
                decideField tr name (valuesOf (after.record .a) name) (valuesOf record name) next =
                  .ok (.propagate .b))) ∧
          (agree tr name (valuesOf (after.record .a) name)
              (valuesOf (after.record .b) name) = .ok none →
            ∀ a b, decideField tr name (valuesOf a name) (valuesOf b name) next =
              decideField tr name (valuesOf a name) (valuesOf b name) snap) := by
  refine ⟨fun name a b snap => decideField_swap oneToOne (valuesOf_canonic a name)
    (valuesOf_canonic b name), ?_⟩
  intro resolve snap known after numbers ran
  obtain ⟨settled, placed⟩ := sync_spec oneToOne ran
  refine ⟨settled, placed, ?_, ?_⟩
  · intro name side sent carried
    exact (agree_ok_iff oneToOne).mpr
      (sent.agree carried (valuesOf_number (numbers side)) oneToOne)
  · intro next recorded name synced
    constructor
    · intro found
      have agreed := (agree_ok_iff oneToOne).mp found
      exact ⟨decideField_of_agree agreed, decideField_later oneToOne synced recorded agreed⟩
    · intro found a b
      exact decideField_kept oneToOne synced recorded ((not_agree_iff oneToOne).mp found) _ _

/-- Floats, written by their bits. -/
abbrev sampleText : FloatText := ⟨fun f => (toString f.bits).asBytes⟩

/-- A daemon that refuses nothing. -/
abbrev sampleDaemon : Daemon where
  refuses _ _ _ := none
  version record := record.version + 1
  rowId _ index := Int64.ofNat index

/-- Two metarecords, each the other's counterpart. -/
def sampleTranslate : Translate :=
  ⟨fun _ uuid _ => .ok <|
    if uuid = sampleUuids 1 then some (sampleUuids 2)
    else if uuid = sampleUuids 2 then some (sampleUuids 1)
    else none⟩

/-- Two records just linked: the first names an author, the second none. -/
def sampleLink : Known where
  record side :=
    match side with
    | .a => ⟨sampleUuids 3, 5, [⟨7, "author", .ref (sampleUuids 1)⟩]⟩
    | .b => ⟨sampleUuids 4, 6, []⟩

omit [Daemon] [FloatText] in
theorem sampleTranslate_oneToOne : sampleTranslate.OneToOne where
  answers _ _ _ := ⟨_, rfl⟩
  inverse := by
    intro side uuid how found answer
    simp only [sampleTranslate, Except.ok.injEq] at answer ⊢
    by_cases first : uuid = sampleUuids 1
    · rw [if_pos first, Option.some.injEq] at answer
      subst first answer
      decide
    · rw [if_neg first] at answer
      by_cases second : uuid = sampleUuids 2
      · rw [if_pos second, Option.some.injEq] at answer
        subst second answer
        decide
      · rw [if_neg second] at answer
        cases answer

omit [Daemon] [FloatText] in
theorem three_way_merge_ref :
    letI := sampleText
    letI := sampleDaemon
    ∃ after next,
      (sync alone sampleTranslate sampleTranslate (fun _ => none) {}).run sampleLink =
        .ok (none, after) ∧
      nextSnapshot sampleTranslate (after.record .a) (after.record .b) {} = .ok next ∧
      valuesOf (after.record .b) "author" = [.ref (sampleUuids 2)] ∧
      decideField sampleTranslate "author" (valuesOf (after.record .a) "author")
        (valuesOf (after.record .b) "author") next = .ok .inSync ∧
      decideField sampleTranslate "author" (valuesOf (after.record .a) "author")
        (valuesOf ⟨sampleUuids 4, 8, []⟩ "author") next = .ok (.propagate .b) := by
  let _ := sampleText
  let _ := sampleDaemon
  have computed : ((sync alone sampleTranslate sampleTranslate (fun _ => none) {}).run sampleLink >>=
      fun ended => (fun _ => (ended.1, valuesOf (ended.2.record .a) "author",
        valuesOf (ended.2.record .b) "author")) <$>
        nextSnapshot sampleTranslate (ended.2.record .a) (ended.2.record .b) {}) =
      .ok (none, [.ref (sampleUuids 1)], [.ref (sampleUuids 2)]) := by
    decide +kernel
  have agreed : agree sampleTranslate "author" [.ref (sampleUuids 1)] [.ref (sampleUuids 2)] =
      .ok (some [(.ref (sampleUuids 1), .ref (sampleUuids 2))]) := by
    decide +kernel
  have empty : valuesOf ⟨sampleUuids 4, 8, []⟩ "author" = [] := by
    decide +kernel
  have differ : agree sampleTranslate "author" [.ref (sampleUuids 1)] [] = .ok none := by
    decide +kernel
  rw [Except.bind_eq_ok] at computed
  obtain ⟨⟨refused, after⟩, ran, computed⟩ := computed
  obtain ⟨next, recorded, values⟩ := Except.map_eq_ok.mp computed
  simp only [Prod.mk.injEq] at values
  obtain ⟨rfl, first, second⟩ := values
  have numbers : ∀ side, Numbers (sampleLink.record side) := by
    intro side
    cases side <;> simp [Numbers, sampleLink, Value.isNaN]
  obtain ⟨-, merged⟩ := three_way_merge sampleTranslate_oneToOne
  obtain ⟨-, -, -, recorded_spec⟩ := merged numbers ran
  obtain ⟨inSync, later⟩ := (recorded_spec recorded "author" (by simp [isSyncedField])).1
    ⟨_, by rw [first, second]; exact agreed⟩
  refine ⟨after, next, ran, recorded, second, inSync, (later ⟨sampleUuids 4, 8, []⟩).2 ?_⟩
  rw [first, empty]
  exact differ
end Sync

end Metafolder
