import Metafolder.Counterparts

/-!
# Remembered paths

While every path remembered is the first path of its record, the translator answers as one that
remembers nothing.  What is done to the repositories between two questions can change a path that is
remembered; the translator does not see it.
-/

namespace Metafolder.Sync

/-! ### The place of a record now -/

/-- The first of some fields a record has a path in. -/
def firstPlace (stores : Stores) (side : Side) (record : Uuid) :
    List (String × Bool) → Outcome (Option (String × Metafolder.TreePath × Bool))
  | [] => pure none
  | (field, hierarchy) :: rest => do
      match ← firstPath stores side record field with
      | some path => pure (some (field, path, hierarchy))
      | none => firstPlace stores side record rest

/-- The place a counterpart is looked for at, as the repositories have it. -/
def placeNow (stores : Stores) (side : Side) (record : Uuid) :
    Lookup → Outcome (Option (String × Metafolder.TreePath × Bool))
  | .ref =>
      match (stores side).tx.primary.metarecord record with
      | none => pure none
      | some held => firstPlace stores side record (Translator.placing held)
  | .parent field hierarchy => do
      let path ← firstPath stores side record field
      pure (path.map fun path => (field, path, hierarchy))

/-- Every path remembered is the first path of its record. -/
def Current (paths : Side × Uuid × String → Option (Option Metafolder.TreePath)) (stores : Stores) :
    Prop :=
  ∀ side record field path, paths (side, record, field) = some path →
    firstPath stores side record field = .ok path

/-- What is done to the repositories leaves the paths remembered the first ones. -/
def Keeps (paths : Side × Uuid × String → Option (Option Metafolder.TreePath))
    (stores after : Stores) : Prop :=
  ∀ side record field path, paths (side, record, field) = some path →
    firstPath stores side record field = .ok path → firstPath after side record field = .ok path

theorem Current.keeps {paths : Side × Uuid × String → Option (Option Metafolder.TreePath)}
    {stores after : Stores} (current : Current paths stores) (keeps : Keeps paths stores after) :
    Current paths after := by
  intro side record field path remembered
  exact keeps side record field path remembered (current side record field path remembered)

/-- Nothing is remembered. -/
theorem current_none (stores : Stores) : Current (fun _ => none) stores := by
  intro side record field path remembered
  cases remembered

/-- A translator that remembers more, and is the same otherwise. -/
structure Translator.Recalls (translator after : Translator) (stores : Stores) : Prop where
  current : Current after.paths stores
  same : after = { translator with paths := after.paths }

variable {translator : Translator} {stores : Stores} {side : Side}
  {record : Uuid}

/-- While the paths remembered are current, one is answered as the daemon has it. -/
theorem pathIn_spec (current : Current translator.paths stores) (side : Side) (record : Uuid)
    (field : String) :
    (∃ failure, translator.pathIn stores side record field = .error failure ∧
      firstPath stores side record field = .error failure) ∨
    ∃ path after, translator.pathIn stores side record field = .ok (path, after) ∧
      firstPath stores side record field = .ok path ∧ translator.Recalls after stores := by
  rw [Translator.pathIn]
  cases remembered : translator.paths (side, record, field) with
  | some path =>
      exact .inr ⟨path, translator, rfl, current side record field path remembered, current, rfl⟩
  | none =>
      cases read : firstPath stores side record field with
      | error failure => exact .inl ⟨failure, rfl, rfl⟩
      | ok path =>
          refine .inr ⟨path, _, rfl, rfl, ?_, rfl⟩
          intro other uuid name held
          change Function.update translator.paths (side, record, field) (some path)
            (other, uuid, name) = some held → _
          rw [Function.update_apply]
          split
          · next same =>
              cases same
              intro isPath
              cases isPath
              exact read
          · exact current other uuid name held

theorem identityIn_spec (current : Current translator.paths stores) (side : Side) (record : Uuid)
    (fields : List (String × Bool)) :
    (∃ failure, Translator.identityIn stores side record fields translator = .error failure ∧
      firstPlace stores side record fields = .error failure) ∨
    ∃ place after, Translator.identityIn stores side record fields translator = .ok (place, after) ∧
      firstPlace stores side record fields = .ok place ∧ translator.Recalls after stores := by
  induction fields generalizing translator with
  | nil => exact .inr ⟨none, translator, rfl, rfl, current, rfl⟩
  | cons first rest ih =>
      obtain ⟨field, hierarchy⟩ := first
      rw [Translator.identityIn, firstPlace]
      rcases pathIn_spec current side record field with
        ⟨failure, ran, read⟩ | ⟨path, after, ran, read, recalls⟩
      · rw [ran, read]
        exact .inl ⟨failure, rfl, rfl⟩
      · rw [ran, read]
        cases path with
        | some path => exact .inr ⟨some (field, path, hierarchy), after, rfl, rfl, recalls⟩
        | none =>
            rcases ih recalls.current with further | ⟨place, last, further, found, later⟩
            · exact .inl further
            · refine .inr ⟨place, last, further, found, later.current, ?_⟩
              rw [later.same, recalls.same]

theorem placeFor_spec (current : Current translator.paths stores) (side : Side) (record : Uuid)
    (how : Lookup) :
    (∃ failure, placeFor ⟨translator, stores⟩ side record how = .error failure ∧
      placeNow stores side record how = .error failure) ∨
    ∃ place after, placeFor ⟨translator, stores⟩ side record how = .ok (place, after) ∧
      placeNow stores side record how = .ok place ∧ translator.Recalls after stores := by
  cases how with
  | ref =>
      rw [placeFor, placeNow, Translator.identity]
      cases (stores side).tx.primary.metarecord record with
      | none => exact .inr ⟨none, translator, rfl, rfl, current, rfl⟩
      | some held => exact identityIn_spec current side record (Translator.placing held)
  | parent field hierarchy =>
      rw [placeFor, placeNow]
      rcases pathIn_spec current side record field with
        ⟨failure, ran, read⟩ | ⟨path, after, ran, read, recalls⟩
      · rw [ran, read]
        exact .inl ⟨failure, rfl, rfl⟩
      · rw [ran, read]
        exact .inr ⟨_, after, rfl, rfl, recalls⟩

/-! ### Questions -/

variable [Externals] {settings : Settings}

/-- The answer of a translator that asks the daemon for every path. -/
def answerNow (settings : Settings) (asking : Asking) (side : Side) (record : Uuid) (how : Lookup) :
    Outcome (Option Uuid × Stores × List (Side × Uuid)) :=
  let created := asking.translator.created
  match asking.translator.other side record with
  | some linked => pure (some linked, asking.stores, created)
  | none => do
      match ← placeNow asking.stores side record how with
      | none => pure (none, asking.stores, created)
      | some (field, path, hierarchy) =>
          if asking.translator.create then
            let (found, made) ← findOrCreate settings side.other field hierarchy (path.length + 1)
              path (asking.stores, created)
            pure (some found, made)
          else
            let found ← resolvePath settings asking.stores side.other field path
            pure (found, asking.stores, created)

/-- While the paths remembered are current, the translator answers as the repositories are, and what
it remembers then was current before it made anything. -/
theorem counterpart_spec {asking : Asking}
    (current : Current asking.translator.paths asking.stores) (side : Side) (record : Uuid)
    (how : Lookup) :
    (∃ failure, counterpart settings asking side record how = .error failure ∧
      answerNow settings asking side record how = .error failure) ∨
    ∃ found after, counterpart settings asking side record how = .ok (found, after) ∧
      answerNow settings asking side record how =
        .ok (found, after.stores, after.translator.created) ∧
      Current after.translator.paths asking.stores ∧
      after.translator.other = asking.translator.other ∧
      after.translator.create = asking.translator.create := by
  obtain ⟨translator, stores⟩ := asking
  rw [counterpart, answerNow]
  cases linked : translator.other side record with
  | some other => exact .inr ⟨some other, ⟨translator, stores⟩, rfl, rfl, current, rfl, rfl⟩
  | none =>
      simp only
      rcases placeFor_spec current side record how with
        ⟨failure, ran, read⟩ | ⟨place, after, ran, read, recalls⟩
      · rw [ran, read]
        exact .inl ⟨failure, rfl, rfl⟩
      · rw [ran, read]
        cases place with
        | none =>
            have others : after.other = translator.other := by rw [recalls.same]
            have create : after.create = translator.create := by rw [recalls.same]
            refine .inr ⟨none, ⟨after, stores⟩, rfl, ?_, recalls.current, others, create⟩
            rw [recalls.same]
            rfl
        | some place =>
            obtain ⟨field, path, hierarchy⟩ := place
            have others : after.other = translator.other := by rw [recalls.same]
            have create : after.create = translator.create := by rw [recalls.same]
            have created : after.created = translator.created := by rw [recalls.same]
            cases makes : translator.create with
            | true =>
                simp only [bind, Except.bind, create, created, makes, if_true]
                cases made : findOrCreate settings side.other field hierarchy (path.length + 1) path
                    (stores, translator.created) with
                | error failure => exact .inl ⟨failure, rfl, rfl⟩
                | ok result =>
                    obtain ⟨found, left, created⟩ := result
                    exact .inr ⟨some found, ⟨{ after with create := true, created }, left⟩, rfl, rfl,
                      recalls.current, others, rfl⟩
            | false =>
                simp only [bind, Except.bind, create, makes, Bool.false_eq_true, if_false]
                cases looked : resolvePath settings stores side.other field path with
                | error failure => exact .inl ⟨failure, rfl, rfl⟩
                | ok found =>
                    refine .inr ⟨found, ⟨after, stores⟩, rfl, ?_, recalls.current, others,
                      create.trans makes⟩
                    rw [created]
                    rfl

/-- A question is answered as now while what is remembered is current. -/
theorem Question.answer_eq {question : Question}
    (current : Current question.before.translator.paths question.before.stores) :
    question.answer settings = answerNow settings question.before question.side question.record
      question.how := by
  rw [Question.answer]
  rcases counterpart_spec current question.side question.record question.how with
    ⟨failure, ran, now⟩ | ⟨found, after, ran, now, -⟩
  · rw [ran, now]
    rfl
  · rw [ran, now]
    rfl

/-- A question to a translator that remembers nothing is answered as now. -/
theorem Question.uncached_answer (question : Question) :
    question.uncached.answer settings = answerNow settings question.before question.side
      question.record question.how :=
  Question.answer_eq (current_none _)

/-! ### Runs -/

/-- Nothing done in a run changes the first path of a record the translator remembers: neither what
else is done to the repositories, nor what it makes itself. -/
def Undisturbed (settings : Settings) : Asking → List Happening → Prop
  | _, [] => True
  | asking, .change stores :: rest =>
      Keeps asking.translator.paths asking.stores stores ∧
        Undisturbed settings { asking with stores } rest
  | asking, .ask side record how :: rest =>
      match counterpart settings asking side record how with
      | .ok (_, after) =>
          Keeps after.translator.paths asking.stores after.stores ∧ Undisturbed settings after rest
      | .error _ => True

omit [Externals] in
/-- The same repositories keep every path. -/
theorem Keeps.refl (paths : Side × Uuid × String → Option (Option Metafolder.TreePath))
    (stores : Stores) : Keeps paths stores stores := by
  intro side record field path remembered first
  exact first

/-- Questions whose answer is there already disturb nothing. -/
theorem undisturbed_of_asks {asking : Asking} {happenings : List Happening}
    (current : Current asking.translator.paths asking.stores)
    (asks : ∀ happening ∈ happenings, ∃ side record how found, happening = .ask side record how ∧
      answerNow settings asking side record how =
        .ok (found, asking.stores, asking.translator.created)) :
    Undisturbed settings asking happenings := by
  induction happenings generalizing asking with
  | nil => trivial
  | cons first rest ih =>
      obtain ⟨side, record, how, found, rfl, answered⟩ := asks first List.mem_cons_self
      rw [Undisturbed]
      rcases @counterpart_spec _ settings asking current side record how with
        ⟨failure, ran, -⟩ | ⟨answer, after, ran, now, kept, other, create⟩
      · rw [ran]
        trivial
      · rw [ran]
        rw [answered, Except.ok.injEq, Prod.mk.injEq, Prod.mk.injEq] at now
        obtain ⟨-, stores, created⟩ := now
        change Keeps after.translator.paths asking.stores after.stores ∧
          Undisturbed settings after rest
        rw [← stores]
        refine ⟨Keeps.refl _ _, ih (stores ▸ kept) ?_⟩
        intro happening listed
        obtain ⟨side, record, how, found, isAsk, answered⟩ := asks happening
          (List.mem_cons_of_mem _ listed)
        refine ⟨side, record, how, found, isAsk, ?_⟩
        rw [answerNow, other, create, ← created, ← stores]
        exact answered

/-- In a run that disturbs no path remembered, every question is answered, and leaves the
repositories, as if nothing were remembered. -/
theorem answers_uncached (settings : Settings) (happenings : List Happening) (stores : Stores)
    (translator : Translator) (new : translator.paths = fun _ => none)
    (undisturbed : Undisturbed settings ⟨translator, stores⟩ happenings) :
    ∀ question ∈ questions settings ⟨translator, stores⟩ happenings,
      question.answer settings = question.uncached.answer settings := by
  have current : Current translator.paths stores := by
    rw [new]
    exact current_none stores
  clear new
  induction happenings generalizing stores translator with
  | nil => simp [questions]
  | cons first rest ih =>
      cases first with
      | change after =>
          exact ih after translator undisturbed.2 (current.keeps undisturbed.1)
      | ask side record how =>
          rw [questions]
          intro question listed
          cases List.mem_cons.mp listed with
          | inl isFirst =>
              subst isFirst
              rw [Question.uncached_answer]
              exact Question.answer_eq current
          | inr later =>
              rw [Undisturbed] at undisturbed
              rcases @counterpart_spec _ settings ⟨translator, stores⟩ current side record how with
                ⟨failure, ran, -⟩ | ⟨found, after, ran, -, kept, -⟩
              · rw [ran] at later
                cases later
              · rw [ran] at later undisturbed
                exact ih after.stores after.translator undisturbed.2
                  (kept.keeps undisturbed.1) question later

/-! ### A directory moved -/

/-- A record with one position among the files. -/
def sampleFile (uuid : UInt8) (parent : Option UInt8) (name : String) : Writer.Call :=
  .createMetarecord (sampleUuids uuid)
    [⟨"mfr_path", .treeRef (parent.map sampleUuids) (.ofString name)⟩]

/-- A write of some calls. -/
def sampleWrite (calls : List Writer.Call) : Transaction where
  context := .new ⟨"files", none, none⟩
  retention := .unlimited
  timestamp := 9
  calls := calls

/-- `/d/x` in one repository. -/
def sampleHere : Transaction :=
  sampleWrite [sampleFile 1 none "", sampleFile 2 (some 1) "d", sampleFile 3 (some 2) "x"]

/-- `/d/x` and `/e/x` in the other. -/
def sampleThere : Transaction :=
  sampleWrite [sampleFile 4 none "", sampleFile 5 (some 4) "d", sampleFile 6 (some 5) "x",
    sampleFile 7 (some 4) "e", sampleFile 8 (some 7) "x"]

/-- `/d` becomes `/e` in the first. -/
def sampleMoved : Transaction :=
  sampleWrite [.setFieldAs .setField (sampleUuids 2) "mfr_path"
    (.treeRef (some (sampleUuids 1)) (.ofString "e"))]

def sampleSettings : Settings where
  caseInsensitive _ := false
  newUuid _ _ := sampleUuids 9
  context := .new ⟨"sync", none, none⟩
  retention := .unlimited
  timestamp _ _ := 10

/-- The two stores. -/
def sampleStores (here there : KvStore) : Stores
  | .a => here
  | .b => there

/-- A translator that makes what is missing, of records not linked. -/
def sampleTranslator : Translator where
  other _ _ := none
  create := true

/-- `x` is asked for by the place of its parent, before and after the directory is moved. -/
def sampleQuestions (here moved there : KvStore) : List Question :=
  let ask := Happening.ask .a (sampleUuids 3) (.parent "mfr_path" false)
  @questions plainExternals sampleSettings ⟨sampleTranslator, sampleStores here there⟩
    [ask, .change (sampleStores moved there), ask]

omit [Externals] in
/-- The place remembered is answered a second time, where the repositories have another. -/
theorem sampleQuestions_run : (do
    let here ← @Transaction.run plainExternals sampleHere {}
    let there ← @Transaction.run plainExternals sampleThere {}
    let moved ← @Transaction.run plainExternals sampleMoved here
    pure ((sampleQuestions here moved there).map fun question =>
      (Prod.fst <$> @Question.answer plainExternals sampleSettings question,
        Prod.fst <$> @Question.answer plainExternals sampleSettings question.uncached))) =
    .ok [(.ok (some (sampleUuids 6)), .ok (some (sampleUuids 6))),
      (.ok (some (sampleUuids 6)), .ok (some (sampleUuids 8)))] := by
  decide +kernel

omit [Externals] in
theorem answers_uncached_fails : ∃ here there moved,
    @Transaction.run plainExternals sampleHere {} = .ok here ∧
      @Transaction.run plainExternals sampleThere {} = .ok there ∧
      @Transaction.run plainExternals sampleMoved here = .ok moved ∧
      ∃ question ∈ sampleQuestions here moved there,
        @Question.answer plainExternals sampleSettings question ≠
          @Question.answer plainExternals sampleSettings question.uncached := by
  have ran := sampleQuestions_run
  simp only [Except.bind_eq_ok, Except.pure_eq_ok] at ran
  obtain ⟨here, isHere, there, isThere, moved, isMoved, answers⟩ := ran
  refine ⟨here, there, moved, isHere, isThere, isMoved, ?_⟩
  have second : (.ok (some (sampleUuids 6)), .ok (some (sampleUuids 8))) ∈
      (sampleQuestions here moved there).map fun question =>
        (Prod.fst <$> @Question.answer plainExternals sampleSettings question,
          Prod.fst <$> @Question.answer plainExternals sampleSettings question.uncached) := by
    rw [answers]
    simp
  obtain ⟨question, listed, pair⟩ := List.mem_map.mp second
  refine ⟨question, listed, ?_⟩
  intro same
  rw [same, Prod.mk.injEq] at pair
  have alike := pair.1.symm.trans pair.2
  rw [Except.ok.injEq, Option.some.injEq] at alike
  exact absurd alike (by decide)

omit [Externals] in
/-- Where `x` stands, and what stands there in the other repository. -/
theorem sampleStores_run : (do
    let here ← @Transaction.run plainExternals sampleHere {}
    let there ← @Transaction.run plainExternals sampleThere {}
    let path ← firstPath (sampleStores here there) .a (sampleUuids 3) "mfr_path"
    let found ← @resolvePath plainExternals sampleSettings (sampleStores here there) .b "mfr_path"
      (path.getD [])
    pure (path.isSome, found)) = .ok (true, some (sampleUuids 6)) := by
  decide +kernel

omit [Externals] in
theorem answers_uncached_twice : ∃ here there,
    @Transaction.run plainExternals sampleHere {} = .ok here ∧
      @Transaction.run plainExternals sampleThere {} = .ok there ∧
      ∀ question ∈ @questions plainExternals sampleSettings
          ⟨sampleTranslator, sampleStores here there⟩
          [.ask .a (sampleUuids 3) (.parent "mfr_path" false),
            .ask .a (sampleUuids 3) (.parent "mfr_path" false)],
        @Question.answer plainExternals sampleSettings question =
          @Question.answer plainExternals sampleSettings question.uncached := by
  let _ : Externals := plainExternals
  have ran := sampleStores_run
  simp only [Except.bind_eq_ok, Except.pure_eq_ok, Prod.mk.injEq] at ran
  obtain ⟨here, isHere, there, isThere, path, isPath, found, isFound, some_path, rfl⟩ := ran
  obtain ⟨path, rfl⟩ := Option.isSome_iff_exists.mp some_path
  refine ⟨here, there, isHere, isThere, ?_⟩
  refine answers_uncached sampleSettings _ _ sampleTranslator rfl ?_
  refine undisturbed_of_asks (current_none _) ?_
  intro happening listed
  refine ⟨.a, sampleUuids 3, .parent "mfr_path" false, some (sampleUuids 6), ?_, ?_⟩
  · rcases List.mem_pair.mp listed with rfl | rfl <;> rfl
  · have found : findOrCreate sampleSettings .b "mfr_path" false (path.length + 1) path
        (sampleStores here there, []) = .ok (sampleUuids 6, sampleStores here there, []) := by
      rw [Option.getD_some] at isFound
      rw [findOrCreate, isFound]
      rfl
    have place : placeNow (sampleStores here there) .a (sampleUuids 3) (.parent "mfr_path" false) =
        .ok (some ("mfr_path", path, false)) := by
      rw [placeNow, isPath]
      rfl
    simp only [answerNow, sampleTranslator, place]
    change (findOrCreate sampleSettings .b "mfr_path" false (path.length + 1) path
      (sampleStores here there, []) >>= _) = _
    rw [found]
    rfl

end Metafolder.Sync
