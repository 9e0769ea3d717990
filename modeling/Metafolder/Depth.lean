import Metafolder.Forests

/-!
# Depth of forests

A position is checked against the walk up from its parent, level by level.  The walk counts the
nodes of the one way up where there is one; it sees nothing of what lies below the node placed, and
where several ways lead up it may count fewer nodes than the longest has.
-/

namespace Metafolder

open Relation Ancestry

/-- Whether the walk that checks a place decides how deep it is, or the place leaves room for the
longest way through it: nothing is under the node and one way leads up from the parent, or that
longest way has at most `maxTreeDepth` nodes. -/
def PlaceFits (up : Uuid → Uuid → Prop) (node parent : Uuid) : Prop :=
  (∀ below, ¬up below node) ∧ OneWay up parent ∨ Room up maxTreeDepth node parent

/-- The places an operation puts fit in the data before it. -/
def NewOp.Fits (op : NewOp) (store : Primary) : Prop :=
  ∀ row ∈ op.after, ∀ {parent node}, row.value.stored.position = some (some parent, node) →
    PlaceFits (store.Up row.name) op.entity parent

namespace Writer

theorem climb_le {store : Primary} {metarecord : Uuid} {field : String}
    {fuel chainLen result : Nat} {visited frontier : List Uuid}
    (ran : climb store metarecord field fuel chainLen visited frontier = .ok result) :
    chainLen ≤ result := by
  induction fuel generalizing chainLen visited frontier with
  | zero => simp [climb] at ran
  | succ fuel ih =>
      simp only [climb, Except.bind_eq_ok, Prod.exists] at ran
      obtain ⟨met, next, -, rest⟩ := ran
      split at rest
      · rw [Except.pure_eq_ok] at rest
        omega
      · simp only [Except.bind_eq_ok, refuseIf_eq_ok, exists_const] at rest
        have later := ih rest.2
        omega

variable [Externals]

/-- Where one way leads up, the walk counts its nodes. -/
theorem climb_length {store : Primary} (indexed : store.Indexed) {metarecord : Uuid}
    {field : String} {up : Uuid → Uuid → Prop} (acyclic : Acyclic up)
    (off : ∀ ⦃x y⦄, x ≠ metarecord → (store.Up field x y ↔ up x y))
    {fuel chainLen result : Nat} {visited frontier : List Uuid} {node : Uuid}
    (reached : node ∈ frontier) (alone : ∀ other ∈ frontier, other = node)
    (below : ∀ other ∈ visited, TransGen up other node) (line : OneWay up node)
    (ran : climb store metarecord field fuel chainLen visited frontier = .ok result) {n : Nat}
    {top : Uuid} (path : Climbs up n node top) : chainLen + n ≤ result := by
  induction fuel generalizing chainLen visited frontier node n with
  | zero => simp [climb] at ran
  | succ fuel ih =>
      cases n with
      | zero => exact climb_le ran
      | succ n =>
          obtain ⟨above, edge, rest_path⟩ := path
          simp only [climb, Except.bind_eq_ok, Prod.exists] at ran
          obtain ⟨met, next, walked, rest⟩ := ran
          obtain ⟨absent, visited_iff, -, up_mem, up_of_mem⟩ := climbNodes_spec indexed walked
          dsimp only at visited_iff up_mem up_of_mem
          have other : node ≠ metarecord := by
            rintro rfl
            exact absent reached
          have fresh : node ∉ visited := fun member => acyclic node (below node member)
          have listed : above ∈ next := up_mem reached fresh ((off other).mpr edge)
          rw [if_neg (List.ne_nil_of_mem listed)] at rest
          simp only [Except.bind_eq_ok, refuseIf_eq_ok, exists_const] at rest
          have only : ∀ later ∈ next, later = above := by
            intro later member
            obtain ⟨held, member, up_later⟩ := (up_of_mem member).resolve_left List.not_mem_nil
            rw [alone held member, off other] at up_later
            exact line .refl up_later edge
          have passed : ∀ held ∈ met, TransGen up held above := by
            intro held member
            rcases visited_iff.mp member with member | member
            · exact (below held member).tail edge
            · rw [alone held member]
              exact .single edge
          have longer := ih listed only passed (line.head edge) rest.2 rest_path
          omega

/-- A place that passes its check, and fits, leaves room. -/
theorem room_of_fits {store : Primary} (indexed : store.Indexed) {node parent : Uuid}
    {field : String} {up : Uuid → Uuid → Prop} (fits : PlaceFits up node parent)
    (acyclic : Acyclic up) (off : ∀ ⦃x y⦄, x ≠ node → (store.Up field x y ↔ up x y))
    {chainLen : Nat} (ran : climb store node field maxTreeDepth 1 [] [parent] = .ok chainLen)
    (short : chainLen + 1 ≤ maxTreeDepth) : Room up maxTreeDepth node parent := by
  obtain ⟨lowest, line⟩ | room := fits
  · intro m k x y first second
    have counted := climb_length indexed acyclic off List.mem_cons_self
      (fun _ member => List.mem_singleton.mp member) (by simp) line ran second
    cases m with
    | zero => omega
    | succ m =>
        obtain ⟨below, edge⟩ := first.last
        exact absurd edge (lowest below)
  · exact room

/-! ### The invariant of a write in progress -/

variable {w after : Writer} {op : NewOp}

/-- The places of a write in progress are on short ways, those to be checked at commit aside. -/
structure Shallow (w : Writer) : Prop where
  /-- The tables agree. -/
  consistent : w.tx.primary.Consistent
  /-- The ways through the places checked are short. -/
  bounded : ∀ field, ∃ up, Bounded up maxTreeDepth ∧ w.Within field up

theorem Shallow.forested (shallow : Shallow w) : Forested w where
  consistent := shallow.consistent
  acyclic field := by
    obtain ⟨up, bounded, within⟩ := shallow.bounded field
    exact ⟨up, bounded.acyclic, within⟩

theorem Shallow.quiet (shallow : Shallow w) (quiet : Quiet w after) : Shallow after where
  consistent := quiet.tx_eq ▸ shallow.consistent
  bounded field := by
    obtain ⟨up, bounded, within⟩ := shallow.bounded field
    refine ⟨up, bounded, fun uuid row parent node holds named placed => ?_⟩
    rw [quiet.tx_eq] at holds
    exact (within holds named placed).imp_right fun member => quiet.noted_subset member

/-- Where checks are deferred an operation need not fit: its places are noted. -/
theorem Shallow.operation (shallow : Shallow w) (step : Operation w op after)
    (fits : w.deferredTrees = none → op.Fits w.tx.primary) : Shallow after where
  consistent := (step.performed.spec shallow.consistent).1
  bounded field := by
    have consistent := shallow.consistent
    obtain ⟨up, bounded, within⟩ := shallow.bounded field
    cases eager : w.deferredTrees with
    | some deferred =>
        exact ⟨up, bounded, within.operation step consistent (by rw [eager]; rfl)⟩
    | none =>
        have held : Bounded (w.tx.primary.Up field) maxTreeDepth :=
          fun _ _ _ path => bounded (path.mono (within.eager eager))
        have unnoted : after.deferredTrees = none := by
          have defers := step.defers
          rw [eager] at defers
          simpa using defers
        refine ⟨after.tx.primary.Up field, @Bounded.replace _ _ _ _ held op.entity ?_ ?_, ?_⟩
        · exact step.up_off consistent field
        · rintro parent ⟨row, node, holds, rfl, placed⟩
          obtain ⟨there, -⟩ | ⟨-, new, member, rfl⟩ := step.holds_cases consistent holds
          · exact .inl ⟨row, node, there, rfl, placed⟩
          have fitting := fits eager new member placed
          rw [FieldRow.stored, Value.stored_of_parent placed] at placed
          obtain ⟨-, noted | ⟨-, store, sound, same, passed⟩⟩ := step.checked new member placed
          · rw [noted_of_eager unnoted] at noted
            exact absurd noted List.not_mem_nil
          obtain ⟨-, outside, chainLen, climbed, short⟩ :=
            checkTreeRef_spec sound.toIndexed placed passed
          have off : ∀ ⦃x y⦄, x ≠ op.entity →
              (store.Up new.name x y ↔ w.tx.primary.Up new.name x y) :=
            fun x y other => Primary.up_congr (fun row => same other) new.name y
          refine .inr ⟨fun path => outside ?_, ?_⟩
          · exact reflTransGen_of_off (fun _ _ other => (off other).mpr) path
          · exact room_of_fits sound.toIndexed fitting held.acyclic off climbed short
        · exact fun uuid row parent node holds named placed =>
            .inl ⟨row, node, holds, named, placed⟩

/-- The places noted to be checked at commit, and still held, fit in the data committed. -/
def Lands (w : Writer) : Prop :=
  ∀ {uuid row parent node}, (uuid, row.name, row.value) ∈ w.noted → w.tx.primary.Holds uuid row →
    row.value.position = some (some parent, node) → PlaceFits (w.tx.primary.Up row.name) uuid parent

/-- At commit, the places noted are checked, and every way is short. -/
theorem Shallow.bounded_of_commit (shallow : Shallow w) (trees : w.checkDeferredTrees = .ok ())
    (lands : w.Lands) (field : String) : Bounded (w.tx.primary.Up field) maxTreeDepth := by
  have indexed := shallow.consistent.toIndexed
  have acyclic := shallow.forested.acyclic_of_commit trees field
  obtain ⟨up, bounded, within⟩ := shallow.bounded field
  intro n x y path
  obtain whole | ⟨m, k, node, above, rfl, first, put, new, second⟩ := path.cases_edge
  · exact bounded whole
  obtain ⟨row, name, holds, rfl, placed⟩ := put
  have noted := (within holds rfl placed).resolve_left new
  have checked := checkDeferredTrees_spec indexed trees noted holds (by rw [placed]; rfl)
  obtain ⟨-, -, chainLen, climbed, short⟩ := checkTreeRef_spec indexed placed checked
  exact room_of_fits indexed (lands noted holds placed) acyclic (fun _ _ _ => Iff.rfl) climbed short
    first second

end Writer

/-! ### Whole transactions -/

variable [Externals]

/-- The operations of a sequence each fit in the data before them. -/
def KvTxn.Fitting (tx : KvTxn) : List (NewOp × KvTxn) → Prop
  | [] => True
  | (op, next) :: rest => op.Fits tx.primary ∧ next.Fitting rest

theorem KvTxn.Chain.fitting_append {tx middle : KvTxn} {first second : List (NewOp × KvTxn)}
    (chain : tx.Chain first middle) (fitting : tx.Fitting (first ++ second)) :
    tx.Fitting first ∧ middle.Fitting second := by
  induction first generalizing tx with
  | nil =>
      rw [KvTxn.Chain] at chain
      rw [chain]
      exact ⟨trivial, fitting⟩
  | cons head rest ih =>
      obtain ⟨one, others⟩ := ih chain.2 fitting.2
      exact ⟨⟨fitting.1, one⟩, others⟩

namespace Writer

variable {w after : Writer} {steps : List (NewOp × KvTxn)}

theorem Writes.shallow (writes : Writes w steps after) (fitting : w.tx.Fitting steps)
    (shallow : Shallow w) : Shallow after := by
  induction writes with
  | quiet step => exact shallow.quiet step
  | operation step => exact shallow.operation step fun _ => fitting.1
  | append one _ ih_one ih_two =>
      obtain ⟨first, second⟩ := one.chain.fitting_append fitting
      exact ih_two second (ih_one first shallow)

/-- Where checks are deferred they stay so, and no operation need fit. -/
theorem Writes.shallow_of_deferred (writes : Writes w steps after)
    (deferred : w.deferredTrees.isSome) (shallow : Shallow w) :
    Shallow after ∧ after.deferredTrees.isSome := by
  induction writes with
  | quiet step => exact ⟨shallow.quiet step, step.defers deferred⟩
  | operation step =>
      refine ⟨shallow.operation step fun eager => ?_, step.defers.trans deferred⟩
      rw [eager] at deferred
      contradiction
  | append _ _ one two =>
      obtain ⟨middle, kept⟩ := one deferred shallow
      exact two kept middle

omit [Externals] in
theorem Quiet.deferTypeChecks (w : Writer) : Quiet w w.deferTypeChecks := by
  refine ⟨rfl, ?_, fun _ => rfl⟩
  simp [noted, Writer.deferTypeChecks]

/-- Whether a call is a revert, which defers the checks to the commit. -/
def Call.isRevert : Call → Bool
  | .revert _ => true
  | _ => false

theorem Shallow.call (shallow : Shallow w) {made : Call} (ran : w.call made = .ok after)
    (fitting : w.deferredTrees = none → made.isRevert = false →
      ∀ {steps}, Writes w steps after → w.tx.Fitting steps) : Shallow after := by
  have leading : ∀ {start : Writer}, start.tx.primary.Consistent → start.call made = .ok after →
      ∃ steps, Writes start steps after := by
    intro start whole ran
    obtain ⟨steps, writes, -⟩ := @call_leads _ (fun _ => True) (fun _ => trivial) _ _ whole _
      (fun _ _ => trivial) ran
    exact ⟨steps, writes⟩
  cases revert : made.isRevert with
  | true =>
      cases made with
      | revert ops =>
          -- A revert defers the checks first; deferring them again changes nothing.
          have again : w.deferTypeChecks.call (.revert ops) = .ok after := ran
          have deferring := Quiet.deferTypeChecks w
          obtain ⟨steps, writes⟩ := leading (deferring.tx_eq ▸ shallow.consistent) again
          exact (writes.shallow_of_deferred rfl (shallow.quiet deferring)).1
      | _ => cases revert
  | false =>
      obtain ⟨steps, writes⟩ := leading shallow.consistent ran
      cases eager : w.deferredTrees with
      | none => exact writes.shallow (fitting eager revert writes) shallow
      | some deferred => exact (writes.shallow_of_deferred (by rw [eager]; rfl) shallow).1

end Writer

/-- Every place of a transaction fits as it is checked: in the data before its operation, or in the
data committed once a revert defers the checks. -/
structure Transaction.Fits (transaction : Transaction) (store : KvStore) : Prop where
  /-- Each operation of a call before any revert fits in the data before it. -/
  each : ∀ {start front made rest w after steps},
    Writer.beginIn store transaction.context transaction.retention transaction.timestamp =
      .ok start →
    transaction.calls = front ++ made :: rest → front.foldlM Writer.call start = .ok w →
    w.deferredTrees = none → made.isRevert = false → w.call made = .ok after →
    Writer.Writes w steps after → w.tx.Fitting steps
  /-- The places noted fit in the data committed. -/
  lands : ∀ {start last},
    Writer.beginIn store transaction.context transaction.retention transaction.timestamp =
      .ok start →
    transaction.calls.foldlM Writer.call start = .ok last → last.Lands

theorem Transaction.bounded {transaction : Transaction} {store after : KvStore}
    (consistent : store.tx.primary.Consistent)
    (bounded : ∀ field, Bounded (store.tx.primary.Up field) maxTreeDepth)
    (fits : transaction.Fits store) (ran : transaction.run store = .ok after) (field : String) :
    Bounded (after.tx.primary.Up field) maxTreeDepth := by
  simp only [Transaction.run, Except.bind_eq_ok] at ran
  obtain ⟨start, opening, last, calling, committing⟩ := ran
  have begun : Writer.Shallow start := by
    rw [← (Writer.beginIn_spec opening).1] at consistent bounded
    exact ⟨consistent, fun field => ⟨_, bounded field, fun uuid row parent node holds named placed =>
      .inl ⟨row, node, holds, named, placed⟩⟩⟩
  -- The induction is over the calls made, the last one first.
  have walk : ∀ (front rest : List Writer.Call) (w : Writer), transaction.calls = front ++ rest →
      front.foldlM Writer.call start = .ok w → w.Shallow := by
    intro front
    induction front using List.reverseRecOn with
    | nil =>
        intro rest w split walked
        rw [Except.foldlM_nil_eq_ok] at walked
        exact walked ▸ begun
    | append_singleton front made ih =>
        intro rest w split walked
        rw [List.foldlM_append, Except.bind_eq_ok] at walked
        obtain ⟨middle, walked, stepped⟩ := walked
        obtain ⟨held, called, ended⟩ := Except.foldlM_cons_eq_ok.mp stepped
        rw [Except.foldlM_nil_eq_ok] at ended
        subst ended
        rw [List.append_assoc, List.singleton_append] at split
        exact (ih (made :: rest) middle split walked).call called fun eager other _ writes =>
          fits.each opening split walked eager other called writes
  have shallow := walk transaction.calls [] last (List.append_nil _).symm calling
  obtain ⟨after_tx, -, -, trees, -⟩ := Writer.commit_spec committing
  rw [after_tx]
  exact shallow.bounded_of_commit trees (fits.lands opening calling) field

/-- The stores reached by transactions whose places fit as they are checked. -/
inductive ReachableFitting : KvStore → Prop
  /-- The empty store. -/
  | new : ReachableFitting {}
  /-- The store a transaction commits. -/
  | commit {store after : KvStore} (transaction : Transaction) (reached : ReachableFitting store)
      (fits : transaction.Fits store) (ran : transaction.run store = .ok after) :
      ReachableFitting after

theorem ReachableFitting.reachable {store : KvStore} (reached : ReachableFitting store) :
    Reachable (fun _ => True) store := by
  induction reached with
  | new => exact .new
  | commit transaction _ _ ran ih => exact .commit transaction ih trivial ran

/-- In every store reached by transactions whose places fit as they are checked, a metarecord and
all above it, by the longest way, are at most `maxTreeDepth` nodes. -/
theorem fitting_forests_are_shallow {store : KvStore} (reached : ReachableFitting store)
    (field : String) : Bounded (store.tx.primary.Up field) maxTreeDepth := by
  induction reached generalizing field with
  | new =>
      intro n x y path
      cases n with
      | zero => decide
      | succ n =>
          obtain ⟨z, ⟨row, node, holds, -⟩, -⟩ := path
          simp [Primary.Holds] at holds
  | commit transaction reached fits ran ih =>
      obtain ⟨steps, history, -⟩ := reached.reachable.history
      exact Transaction.bounded history.consistent ih fits ran field

end Metafolder
