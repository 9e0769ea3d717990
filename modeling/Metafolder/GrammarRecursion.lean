import Mathlib.Data.List.Nodup
import Mathlib.Data.List.Perm.Subperm
import Mathlib.Data.List.ProdSigma
import Mathlib.Logic.Relation
import Metafolder.Grammar

/-!
# Left recursion

What an expression may enter before a token is taken is what it begins with, behind what can match
nothing.  Where the check of a grammar overlooks no cycle of this, no production is entered again at
the token it is being matched at, and the productions being matched are at most one for each
production and token.
-/

namespace Metafolder.Simplified

/-! ### What can match nothing -/

section Skips

variable (skips : String → Prop)

mutual

/-- An expression can match nothing, where some rules can. -/
def Expr.Skips : Expr → Prop
  | .lit _ => False
  | .ofClass _ => False
  | .rule name => skips name
  | .group seqs => seqs.Skips
  | .repetition inner kind _ => kind ≠ .plus ∨ inner.Skips

/-- A sequence can match nothing. -/
def Seq.Skips : Seq → Prop
  | .nil => True
  | .item _ expr rest => expr.Skips ∧ rest.Skips

/-- One of some sequences can match nothing. -/
def Seqs.Skips : Seqs → Prop
  | .nil => False
  | .cons seq rest => seq.Skips ∨ rest.Skips

end

mutual

/-- An expression may enter a rule before it takes a token. -/
def Expr.Starts (name : String) : Expr → Prop
  | .lit _ => False
  | .ofClass _ => False
  | .rule rule => rule = name
  | .group seqs => seqs.Starts name
  | .repetition inner _ sep => inner.Starts name ∨ (inner.Skips skips ∧ sep.Starts name)

/-- A separator may enter a rule before it takes a token. -/
def Sep.Starts (name : String) : Sep → Prop
  | .none => False
  | .expr expr => expr.Starts name

/-- A sequence may enter a rule before it takes a token. -/
def Seq.Starts (name : String) : Seq → Prop
  | .nil => False
  | .item _ expr rest => expr.Starts name ∨ (expr.Skips skips ∧ rest.Starts name)

/-- One of some sequences may enter a rule before it takes a token. -/
def Seqs.Starts (name : String) : Seqs → Prop
  | .nil => False
  | .cons seq rest => seq.Starts name ∨ rest.Starts name

end

end Skips

mutual

/-- The rules an expression names are among some. -/
def Expr.Known (names : List String) : Expr → Prop
  | .lit _ => True
  | .ofClass _ => True
  | .rule name => name ∈ names
  | .group seqs => seqs.Known names
  | .repetition inner _ sep => inner.Known names ∧ sep.Known names

/-- The rules a separator names are among some. -/
def Sep.Known (names : List String) : Sep → Prop
  | .none => True
  | .expr expr => expr.Known names

/-- The rules a sequence names are among some. -/
def Seq.Known (names : List String) : Seq → Prop
  | .nil => True
  | .item _ expr rest => expr.Known names ∧ rest.Known names

/-- The rules some sequences name are among some. -/
def Seqs.Known (names : List String) : Seqs → Prop
  | .nil => True
  | .cons seq rest => seq.Known names ∧ rest.Known names

end

/-- A production can match nothing, within some levels of rules. -/
def SkipsWithin (grammar : Grammar) : Nat → String → Prop
  | 0, _ => False
  | levels + 1, name =>
      ∃ prod, grammar.find name = some prod ∧
        ∃ alt ∈ prod.alts, alt.seq.Skips (SkipsWithin grammar levels)

/-- A production can match nothing. -/
def CanSkip (grammar : Grammar) (name : String) : Prop := ∃ levels, SkipsWithin grammar levels name

/-- A production may enter another before it takes a token. -/
def LeftCorner (grammar : Grammar) (name next : String) : Prop :=
  ∃ prod, grammar.find name = some prod ∧
    ∃ alt ∈ prod.alts, alt.seq.Starts (CanSkip grammar) next

/-! ### What a match may do -/

namespace Traced

variable {α β : Type}

/-- The productions a match enters meet a condition, and so does what it gives. -/
def Within (enters : Call → Prop) (gives : α → Prop) (traced : Traced α) : Prop :=
  (∀ call ∈ traced.calls, enters call) ∧ ∀ value, traced.result = .ok value → gives value

theorem Within.pure {enters : Call → Prop} {gives : α → Prop} {value : α} (given : gives value) :
    (Pure.pure value : Traced α).Within enters gives :=
  ⟨fun _ absent => (nomatch absent), fun _ same => Except.ok.inj same ▸ given⟩

theorem Within.lift {enters : Call → Prop} {gives : α → Prop} {result : Except String α}
    (given : ∀ value, result = .ok value → gives value) : (lift result).Within enters gives :=
  ⟨fun _ absent => (nomatch absent), given⟩

/-- What two matches in a row do. -/
theorem Within.bind {enters : Call → Prop} {gives : α → Prop} {givesNext : β → Prop}
    {first : Traced α} {next : α → Traced β} (start : first.Within enters gives)
    (rest : ∀ value, gives value → (next value).Within enters givesNext) :
    (first >>= next).Within enters givesNext := by
  obtain ⟨calls, result⟩ := first
  cases result with
  | error failure => exact ⟨start.1, fun _ impossible => by cases impossible⟩
  | ok value =>
      have after := rest value (start.2 value rfl)
      refine ⟨fun call entered => ?_, after.2⟩
      rcases List.mem_append.mp entered with before | later
      · exact start.1 call before
      · exact after.1 call later

theorem Within.mono {enters more : Call → Prop} {gives given : α → Prop} {traced : Traced α}
    (within : traced.Within enters gives) (entersMore : ∀ call, enters call → more call)
    (givesMore : ∀ value, gives value → given value) : traced.Within more given :=
  ⟨fun call entered => entersMore call (within.1 call entered),
    fun value same => givesMore value (within.2 value same)⟩

end Traced

section Matching

variable {tokens : List Tok} {names : List String} {pos next : Nat}

/-- A match ends at or after the token it began at, and took one unless it can match nothing. -/
def Advances (tokens : List Tok) (pos : Nat) (skipped : Prop) (next : Nat) : Prop :=
  pos ≤ next ∧ next ≤ tokens.length ∧ (next = pos → skipped)

/-- A known production is entered at or after a token, at that token only if a match may start with
it. -/
def MayEnter (tokens : List Tok) (names : List String) (pos : Nat) (starts : String → Prop)
    (call : Call) : Prop :=
  pos ≤ call.2 ∧ call.2 ≤ tokens.length ∧ (call.2 = pos → starts call.1) ∧ call.1 ∈ names

/-- What a match gives, if it matches, advances. -/
def Gives {α : Type} (tokens : List Tok) (token : α → Nat) (pos : Nat) (skipped : Prop)
    (matched : Option α) : Prop :=
  ∀ held, matched = some held → Advances tokens pos skipped (token held)

theorem Advances.trans {first second : Prop} {middle : Nat} (start : Advances tokens pos first middle)
    (rest : Advances tokens middle second next) : Advances tokens pos (first ∧ second) next := by
  obtain ⟨before, -, skippedFirst⟩ := start
  obtain ⟨after, inside, skippedSecond⟩ := rest
  refine ⟨by omega, inside, fun same => ⟨skippedFirst (by omega), skippedSecond (by omega)⟩⟩

theorem Advances.mono {first second : Prop} (advances : Advances tokens pos first next)
    (implies : first → second) : Advances tokens pos second next :=
  ⟨advances.1, advances.2.1, fun same => implies (advances.2.2 same)⟩

theorem MayEnter.mono {starts more : String → Prop} {call : Call}
    (enters : MayEnter tokens names pos starts call) (implies : ∀ name, starts name → more name) :
    MayEnter tokens names pos more call :=
  ⟨enters.1, enters.2.1, fun same => implies _ (enters.2.2.1 same), enters.2.2.2⟩

/-- What is entered after a match is entered at its first token only if the match took none. -/
theorem MayEnter.after {starts : String → Prop} {skipped : Prop} {call : Call}
    (advances : Advances tokens pos skipped next) (enters : MayEnter tokens names next starts call) :
    MayEnter tokens names pos (fun name => skipped ∧ starts name) call := by
  obtain ⟨before, -, skips⟩ := advances
  obtain ⟨after, inside, begins, known⟩ := enters
  exact ⟨by omega, inside, fun same => ⟨skips (by omega), begins (by omega)⟩, known⟩

theorem Gives.none {α : Type} {token : α → Nat} {skipped : Prop} :
    Gives tokens token pos skipped none := by
  rintro held ⟨⟩

theorem Gives.some {α : Type} {token : α → Nat} {skipped : Prop} {held : α}
    (advances : Advances tokens pos skipped (token held)) :
    Gives tokens token pos skipped (some held) := by
  rintro other ⟨⟩
  exact advances

theorem Gives.matchTok {skipped : Prop} (meets : Tok → Bool) :
    Gives tokens (fun held : Capture × Captures × Nat => held.2.2) pos skipped
      (matchTok tokens pos meets) := by
  unfold Simplified.matchTok
  cases here : tokens[pos]? with
  | none => exact Gives.none
  | some tok =>
      have inside : pos < tokens.length := (List.getElem?_eq_some_iff.mp here).1
      dsimp only
      split
      · exact Gives.some ⟨by simp, inside, by simp⟩
      · exact Gives.none

/-- A matcher enters productions and advances as what it matches allows. -/
def Follows {α : Type} (tokens : List Tok) (names : List String) (token : α → Nat)
    (starts : String → Prop) (skipped : Prop) (matcher : Nat → Traced (Option α)) : Prop :=
  ∀ pos ≤ tokens.length, (matcher pos).Within (MayEnter tokens names pos starts)
    (Gives tokens token pos skipped)

theorem elementAt_within {sepStarts : String → Prop} {sepSkipped : Prop}
    {sep : Option (Nat → Traced Matched)}
    (sepFollows : ∀ matcher, sep = some matcher →
      Follows tokens names (fun held => held.2.2) sepStarts sepSkipped matcher)
    (inside : pos ≤ tokens.length) :
    (elementAt sep pos).Within (MayEnter tokens names pos sepStarts)
      (Gives tokens id pos True) := by
  cases sep with
  | none => exact Traced.Within.pure (Gives.some ⟨Nat.le_refl _, inside, fun _ => trivial⟩)
  | some matcher =>
      refine Traced.Within.bind (sepFollows matcher rfl pos inside) fun matched given => ?_
      cases matched with
      | none => exact Traced.Within.pure Gives.none
      | some held =>
          exact Traced.Within.pure (Gives.some ((given held rfl).mono fun _ => trivial))

/-- The elements of a repetition after the first. -/
theorem repeatLoop_within {starts sepStarts : String → Prop} {skipped sepSkipped : Prop}
    {inner : Nat → Traced Matched} {sep : Option (Nat → Traced Matched)}
    (innerFollows : Follows tokens names (fun held => held.2.2) starts skipped inner)
    (sepFollows : ∀ matcher, sep = some matcher →
      Follows tokens names (fun held => held.2.2) sepStarts sepSkipped matcher)
    (fuel : Nat) (list : List String) (subcaps : Captures) {reached : Nat}
    (advances : Advances tokens pos skipped reached) :
    (repeatLoop inner sep fuel list subcaps reached).Within
      (MayEnter tokens names pos fun name => starts name ∨ (skipped ∧ sepStarts name))
      (Gives tokens (fun held => held.2.2) pos skipped) := by
  induction fuel generalizing list subcaps reached with
  | zero => exact Traced.Within.pure (Gives.some advances)
  | succ fuel ih =>
      have inside := advances.2.1
      simp only [repeatLoop]
      refine Traced.Within.bind ((elementAt_within sepFollows inside).mono
        (fun call enters => (enters.after advances).mono fun _ => Or.inr) fun _ => id) ?_
      intro element given
      cases element with
      | none => exact Traced.Within.pure (Gives.some advances)
      | some element =>
          have started := advances.trans (given element rfl)
          refine Traced.Within.bind ((innerFollows element started.2.1).mono
            (fun call enters => (enters.after started).mono fun _ begins => Or.inl begins.2)
            fun _ => id) ?_
          intro matched given
          cases matched with
          | none => exact Traced.Within.pure (Gives.some advances)
          | some held =>
              have ended := started.trans (given held rfl)
              dsimp only
              split
              · exact ih _ _ (ended.mono fun skips => skips.1.1)
              · exact Traced.Within.pure (Gives.some advances)

/-- Entering a production gives a match that advances, past a token unless it can match nothing. -/
def Enters (tokens : List Tok) (skips : String → Prop) (enter : Enter) : Prop :=
  ∀ name, ∀ pos ≤ tokens.length, ∀ matched, enter name pos = .ok matched →
    Gives tokens Prod.snd pos (skips name) matched

variable {skips : String → Prop} {enter : Enter}

mutual

theorem matchExpr_follows (entered : Enters tokens skips enter) : ∀ expr : Expr,
    expr.Known names → Follows tokens names (fun held => held.2.2)
      (fun name => expr.Starts skips name) (expr.Skips skips) (matchExpr tokens enter expr)
  | .lit text, _ => fun pos _ => Traced.Within.pure (Gives.matchTok _)
  | .ofClass kind, _ => fun pos _ => Traced.Within.pure (Gives.matchTok _)
  | .rule name, known => by
      intro pos inside
      have call : (⟨[(name, pos)], enter name pos⟩ : Traced (Option (String × Nat))).Within
          (MayEnter tokens names pos fun other => name = other)
          (Gives tokens Prod.snd pos (skips name)) := by
        refine ⟨fun call entered => ?_, fun matched given => entered name pos inside matched given⟩
        rw [List.mem_singleton.mp entered]
        exact ⟨Nat.le_refl _, inside, fun _ => rfl, known⟩
      refine Traced.Within.bind call fun matched given => ?_
      cases matched with
      | none => exact Traced.Within.pure Gives.none
      | some held => exact Traced.Within.pure (Gives.some (given held rfl))
  | .group seqs, known => matchSeqs_follows entered seqs known
  | .repetition inner kind sep, known => by
      intro pos inside
      have first := matchExpr_follows entered inner known.1
      refine Traced.Within.bind ((first pos inside).mono
        (fun call enters => enters.mono fun _ => Or.inl) fun _ => id) fun matched given => ?_
      cases matched with
      | none =>
          refine Traced.Within.pure ?_
          split
          · exact Gives.none
          · next skippable => exact Gives.some ⟨Nat.le_refl _, inside, fun _ => Or.inl skippable⟩
      | some held =>
          have ended := given held rfl
          dsimp only
          split
          · exact Traced.Within.pure (Gives.some (ended.mono Or.inr))
          · refine (repeatLoop_within first (matchSep_follows entered sep known.2) _ _ _
              ended).mono (fun call enters => enters) fun _ given held same =>
                (given held same).mono Or.inr

theorem matchSep_follows (entered : Enters tokens skips enter) : ∀ sep : Sep, sep.Known names →
    ∀ matcher, matchSep tokens enter sep = some matcher →
      Follows tokens names (fun held => held.2.2) (fun name => sep.Starts skips name) True matcher
  | .none, _ => fun _ impossible => by cases impossible
  | .expr expr, known => by
      rintro _ ⟨⟩ pos inside
      exact (matchExpr_follows entered expr known pos inside).mono (fun _ => id)
        fun _ given held same => (given held same).mono fun _ => trivial

theorem matchSeq_follows (entered : Enters tokens skips enter) : ∀ seq : Seq, seq.Known names →
    ∀ caps, Follows tokens names Prod.snd (fun name => seq.Starts skips name) (seq.Skips skips)
      (matchSeq tokens enter seq caps)
  | .nil, _ => fun caps pos inside =>
      Traced.Within.pure (Gives.some ⟨Nat.le_refl _, inside, fun _ => trivial⟩)
  | .item label expr rest, known => by
      intro caps pos inside
      refine Traced.Within.bind ((matchExpr_follows entered expr known.1 pos inside).mono
        (fun call enters => enters.mono fun _ => Or.inl) fun _ => id) fun matched given => ?_
      cases matched with
      | none => exact Traced.Within.pure Gives.none
      | some held =>
          have ended := given held rfl
          exact (matchSeq_follows entered rest known.2 _ _ ended.2.1).mono
            (fun call enters => (enters.after ended).mono fun _ => Or.inr)
            fun _ given held same => ended.trans (given held same)

theorem matchSeqs_follows (entered : Enters tokens skips enter) : ∀ seqs : Seqs,
    seqs.Known names → Follows tokens names (fun held => held.2.2)
      (fun name => seqs.Starts skips name) (seqs.Skips skips) (matchSeqs tokens enter seqs)
  | .nil, _ => fun pos _ => Traced.Within.pure Gives.none
  | .cons seq rest, known => by
      intro pos inside
      refine Traced.Within.bind ((matchSeq_follows entered seq known.1 [] pos inside).mono
        (fun call enters => enters.mono fun _ => Or.inl) fun _ => id) fun matched given => ?_
      cases matched with
      | none =>
          exact (matchSeqs_follows entered rest known.2 pos inside).mono
            (fun call enters => enters.mono fun _ => Or.inr)
            fun _ given held same => (given held same).mono Or.inr
      | some held => exact Traced.Within.pure (Gives.some ((given held rfl).mono Or.inl))

end

variable {Template : Type} {reads : Notation Template}

theorem matchAlts_follows (entered : Enters tokens skips enter) {alts : List Alt}
    (known : ∀ alt ∈ alts, alt.seq.Known names) :
    Follows tokens names Prod.snd (fun name => ∃ alt ∈ alts, alt.seq.Starts skips name)
      (∃ alt ∈ alts, alt.seq.Skips skips) (matchAlts tokens enter reads alts) := by
  induction alts with
  | nil => exact fun pos _ => Traced.Within.pure Gives.none
  | cons alt rest ih =>
      intro pos inside
      obtain ⟨knownHere, knownRest⟩ := List.forall_mem_cons.mp known
      refine Traced.Within.bind ((matchSeq_follows entered alt.seq knownHere [] pos inside).mono
        (fun call enters => enters.mono fun _ begins => ⟨alt, List.mem_cons_self, begins⟩)
        fun _ => id) fun matched given => ?_
      cases matched with
      | none =>
          refine (ih knownRest pos inside).mono (fun call enters => enters.mono ?_)
            fun _ given held same => (given held same).mono ?_
          · rintro name ⟨other, listed, begins⟩
            exact ⟨other, List.mem_cons_of_mem _ listed, begins⟩
          · rintro ⟨other, listed, skipped⟩
            exact ⟨other, List.mem_cons_of_mem _ listed, skipped⟩
      | some held =>
          have ended := (given held rfl).mono fun skipped =>
            (⟨alt, List.mem_cons_self, skipped⟩ : ∃ other ∈ alt :: rest, other.seq.Skips skips)
          dsimp only
          split
          · exact Traced.Within.pure (Gives.some ended)
          · refine Traced.Within.bind (Traced.Within.lift fun _ _ => trivial) fun _ _ => ?_
            refine Traced.Within.bind (Traced.Within.lift fun _ _ => trivial) fun _ _ => ?_
            exact Traced.Within.pure (Gives.some ended)

variable {grammar : Grammar}

/-- Every rule a grammar names is one of its productions. -/
def Grammar.Known (grammar : Grammar) : Prop :=
  ∀ prod ∈ grammar.productions, ∀ alt ∈ prod.alts,
    alt.seq.Known (grammar.productions.map Production.name)

/-- A production enters its left corners at the token it begins at. -/
theorem matchBody_within (entered : Enters tokens skips enter) (known : grammar.Known)
    (name : String) (inside : pos ≤ tokens.length) :
    (matchBody tokens enter reads grammar name pos).Within
      (MayEnter tokens (grammar.productions.map Production.name) pos fun next =>
        ∃ prod, grammar.find name = some prod ∧ ∃ alt ∈ prod.alts, alt.seq.Starts skips next)
      (Gives tokens Prod.snd pos (∃ prod, grammar.find name = some prod ∧
        ∃ alt ∈ prod.alts, alt.seq.Skips skips)) := by
  unfold matchBody
  cases found : grammar.find name with
  | none => exact Traced.Within.lift fun _ impossible => by cases impossible
  | some prod =>
      have listed : prod ∈ grammar.productions := List.mem_of_find?_eq_some found
      refine (matchAlts_follows entered (known prod listed) pos inside).mono
        (fun call enters => enters.mono fun next begins => ⟨prod, rfl, begins⟩)
        fun _ given held same => (given held same).mono fun skipped => ⟨prod, rfl, skipped⟩

/-- A production matches nothing only if it can, within its levels. -/
theorem matchProd_enters (known : grammar.Known) (levels : Nat) :
    Enters tokens (SkipsWithin grammar levels) (matchProd reads grammar tokens levels) := by
  induction levels with
  | zero => exact fun _ _ _ _ impossible => by cases impossible
  | succ levels ih =>
      intro name pos inside matched given
      exact (matchBody_within ih known name inside).2 matched given

/-- What a production enters itself: its left corners, or productions at later tokens. -/
theorem mayEnter_of_callsOf (known : grammar.Known) {levels : Nat} {call inner : Call}
    (inside : inner.2 ≤ tokens.length) (enters : call ∈ callsOf reads grammar tokens levels inner) :
    MayEnter tokens (grammar.productions.map Production.name) inner.2
      (LeftCorner grammar inner.1) call := by
  cases levels with
  | zero => cases enters
  | succ levels =>
      have skipped : Enters tokens (CanSkip grammar) (matchProd reads grammar tokens levels) :=
        fun name pos inside matched given held same =>
          (matchProd_enters known levels name pos inside matched given held same).mono
            fun skips => ⟨levels, skips⟩
      exact (matchBody_within skipped known inner.1 inside).1 call enters

end Matching

/-! ### Cycles -/

/-- The check sees that a production may begin with another. -/
def Seen (edges : String → Option (List String)) (name next : String) : Prop :=
  next ∈ (edges name).getD [] ∧ (edges next).isSome

/-- Of productions done with, the latest first, each begins with earlier ones only. -/
def Settled (edges : String → Option (List String)) : List String → Prop
  | [] => True
  | name :: earlier =>
      name ∉ earlier ∧ (∀ next, Seen edges name next → next ∈ earlier) ∧ Settled edges earlier

section Search

variable {edges : String → Option (List String)} {done after gray : List String} {name : String}

theorem Settled.seen (settled : Settled edges done) {next : String} (listed : name ∈ done)
    (seen : Seen edges name next) : next ∈ done := by
  induction done with
  | nil => cases listed
  | cons latest earlier ih =>
      obtain ⟨-, before, settled⟩ := settled
      rcases List.mem_cons.mp listed with rfl | listed
      · exact List.mem_cons_of_mem _ (before next seen)
      · exact List.mem_cons_of_mem _ (ih settled listed)

theorem Settled.reached (settled : Settled edges done) {next : String} (listed : name ∈ done)
    (reaches : Relation.ReflTransGen (Seen edges) name next) : next ∈ done := by
  induction reaches with
  | refl => exact listed
  | tail _ seen ih => exact settled.seen ih seen

/-- A production done with is not reached from itself. -/
theorem Settled.acyclic (settled : Settled edges done) (listed : name ∈ done) :
    ¬Relation.TransGen (Seen edges) name name := by
  induction done with
  | nil => cases listed
  | cons latest earlier ih =>
      obtain ⟨fresh, before, settled⟩ := settled
      rcases List.mem_cons.mp listed with rfl | listed
      · intro cycle
        obtain ⟨next, seen, back⟩ := Relation.TransGen.head'_iff.mp cycle
        exact fresh (settled.reached (before next seen) back)
      · exact ih settled listed

/-- Productions done with, and none of some others among them. -/
def Holds (edges : String → Option (List String)) (gray done : List String) : Prop :=
  Settled edges done ∧ ∀ above ∈ gray, above ∉ done

/-- Visits that each leave a production done with leave every production visited done with. -/
theorem visits_settled {ι : Type} {target : ι → String} {known : ι → Prop}
    {visit : List String → ι → Except String (List String)}
    (each : ∀ {done after item}, visit done item = .ok after → Holds edges gray done →
      Holds edges gray after ∧ done ⊆ after ∧ (known item → target item ∈ after))
    {items : List ι} (ran : items.foldlM visit done = .ok after) (holds : Holds edges gray done) :
    Holds edges gray after ∧ done ⊆ after ∧ ∀ item ∈ items, known item → target item ∈ after := by
  induction items generalizing done with
  | nil =>
      obtain rfl := Except.foldlM_nil_eq_ok.mp ran
      exact ⟨holds, List.Subset.refl _, by simp⟩
  | cons item rest ih =>
      obtain ⟨middle, first, ran⟩ := Except.foldlM_cons_eq_ok.mp ran
      obtain ⟨holds, grew, visited⟩ := each first holds
      obtain ⟨holds, grewMore, others⟩ := ih ran holds
      refine ⟨holds, List.Subset.trans grew grewMore, fun other listed isKnown => ?_⟩
      rcases List.mem_cons.mp listed with rfl | listed
      · exact grewMore (visited isKnown)
      · exact others other listed isKnown

/-- What a search leaves: the production is done with, and none below which it runs. -/
theorem dfs_settled {fuel : Nat} (ran : dfs edges fuel gray done name = .ok after)
    (holds : Holds edges gray done) :
    Holds edges gray after ∧ done ⊆ after ∧ name ∈ after := by
  induction fuel generalizing gray done name after with
  | zero => cases ran
  | succ fuel ih =>
      rw [dfs] at ran
      split at ran
      · next finished =>
          cases ran
          exact ⟨holds, List.Subset.refl _, finished⟩
      · next unfinished =>
          split at ran
          · cases ran
          · next unvisited =>
              obtain ⟨middle, visited, same⟩ := Except.bind_eq_ok.mp ran
              cases same
              have below : Holds edges (name :: gray) done :=
                ⟨holds.1, List.forall_mem_cons.mpr ⟨unfinished, holds.2⟩⟩
              obtain ⟨⟨settled, pending⟩, grew, reached⟩ := visits_settled
                (fun {_ _ next} step held => show _ ∧ _ ∧ ((edges next).isSome → id next ∈ _) by
                split at step
                · obtain ⟨held, grew, listed⟩ := ih step held
                  exact ⟨held, grew, fun _ => listed⟩
                · next unknown =>
                    cases step
                    exact ⟨held, List.Subset.refl _, fun known => absurd known unknown⟩)
                visited below
              obtain ⟨fresh, pending⟩ := List.forall_mem_cons.mp pending
              refine ⟨⟨⟨fresh, fun next seen => reached next seen.1 seen.2, settled⟩, ?_⟩,
                List.Subset.trans grew (List.subset_cons_self _ _), List.mem_cons_self⟩
              intro above visiting listed
              rcases List.mem_cons.mp listed with rfl | listed
              · exact unvisited visiting
              · exact pending above visiting listed

end Search

section Check

variable {grammar : Grammar}

/-- A grammar without left recursion, as far as the check sees. -/
theorem acyclic_of_detect (ran : detectLeftRecursion grammar = .ok ()) {prod : Production}
    (listed : prod ∈ grammar.productions) :
    ¬Relation.TransGen (Seen (edges grammar)) prod.name prod.name := by
  obtain ⟨done, searched, -⟩ := Except.bind_eq_ok.mp ran
  have start : Holds (edges grammar) [] [] := ⟨trivial, by simp⟩
  obtain ⟨⟨settled, -⟩, -, reached⟩ := visits_settled
    (fun {_ _ prod} step held => show _ ∧ _ ∧ (True → Production.name prod ∈ _) by
      obtain ⟨held, grew, listed⟩ := dfs_settled step held
      exact ⟨held, grew, fun _ => listed⟩) searched start
  exact settled.acyclic (reached prod listed trivial)

/-- A left corner that the check does not see: it stands behind a rule, a group or a `+` repetition
that can match nothing, it begins the separator of elements that can, or another production of the
same name hides it. -/
def Overlooked (grammar : Grammar) (name next : String) : Prop :=
  LeftCorner grammar name next ∧ ¬Seen (edges grammar) name next

theorem exists_production_of_leftCorner {name next : String}
    (corner : LeftCorner grammar name next) :
    ∃ prod ∈ grammar.productions, prod.name = name := by
  obtain ⟨prod, found, -⟩ := corner
  exact ⟨prod, List.mem_of_find?_eq_some found, by simpa using List.find?_some found⟩

/-- A chain of left corners that closes is seen, where no overlooked corner closes a cycle. -/
theorem seen_of_corners (closed : ∀ name next, Overlooked grammar name next →
      ¬Relation.ReflTransGen (LeftCorner grammar) next name) {name next : String}
    (corners : Relation.TransGen (LeftCorner grammar) name next)
    (back : Relation.ReflTransGen (LeftCorner grammar) next name) :
    Relation.TransGen (Seen (edges grammar)) name next := by
  induction corners with
  | single corner =>
      by_contra unseen
      exact closed _ _ ⟨corner, fun seen => unseen (.single seen)⟩ back
  | @tail middle last corners corner ih =>
      have seen : Seen (edges grammar) middle last := by
        by_contra unseen
        exact closed _ _ ⟨corner, unseen⟩ (back.trans corners.to_reflTransGen)
      exact (ih (.head corner back)).tail seen

/-- A grammar that the search passes is not left-recursive exactly when no overlooked corner closes a
cycle. -/
theorem acyclic_corners_iff (ran : detectLeftRecursion grammar = .ok ()) :
    (∀ name, ¬Relation.TransGen (LeftCorner grammar) name name) ↔
      ∀ name next, Overlooked grammar name next →
        ¬Relation.ReflTransGen (LeftCorner grammar) next name := by
  constructor
  · exact fun acyclic name next overlooked back => acyclic name (.head' overlooked.1 back)
  · intro closed name cycle
    obtain ⟨next, corner, -⟩ := Relation.TransGen.head'_iff.mp cycle
    obtain ⟨prod, listed, rfl⟩ := exists_production_of_leftCorner corner
    exact acyclic_of_detect ran listed (seen_of_corners closed cycle .refl)

/-! ### Accepted grammars -/

section Known

variable {Template : Type} {reads : Notation Template} {prod : String} {names : List String}

mutual

theorem Expr.known_of_check : ∀ {expr : Expr},
    checkRefsExpr reads prod names expr = .ok () → expr.Known names
  | .lit _, _ => trivial
  | .ofClass _, _ => trivial
  | .rule name, ran => by
      rw [checkRefsExpr] at ran
      split at ran
      · next listed => exact listed
      · cases ran
  | .group seqs, ran => Seqs.known_of_check (by rwa [checkRefsExpr] at ran)
  | .repetition inner kind sep, ran => by
      rw [checkRefsExpr, Except.bind_eq_ok] at ran
      obtain ⟨_, first, ran⟩ := ran
      exact ⟨Expr.known_of_check first, Sep.known_of_check ran⟩

theorem Sep.known_of_check : ∀ {sep : Sep},
    checkRefsSep reads prod names sep = .ok () → sep.Known names
  | .none, _ => trivial
  | .expr expr, ran => Expr.known_of_check (by rwa [checkRefsSep] at ran)

theorem Seq.known_of_check : ∀ {seq : Seq},
    checkRefs reads prod names seq = .ok () → seq.Known names
  | .nil, _ => trivial
  | .item _ expr rest, ran => by
      rw [checkRefs, Except.bind_eq_ok] at ran
      obtain ⟨_, first, ran⟩ := ran
      exact ⟨Expr.known_of_check first, Seq.known_of_check ran⟩

theorem Seqs.known_of_check : ∀ {seqs : Seqs},
    checkRefsSeqs reads prod names seqs = .ok () → seqs.Known names
  | .nil, _ => trivial
  | .cons seq rest, ran => by
      rw [checkRefsSeqs, Except.bind_eq_ok] at ran
      obtain ⟨_, first, ran⟩ := ran
      exact ⟨Seq.known_of_check first, Seqs.known_of_check ran⟩

end

end Known

variable {Template : Type} {reads : Notation Template} {tokens : List Tok}

theorem accepted_spec (accepted : validate reads grammar = .ok ()) :
    "query" ∈ grammar.productions.map Production.name ∧ grammar.Known ∧
      detectLeftRecursion grammar = .ok () := by
  rw [validate] at accepted
  split at accepted
  · obtain ⟨_, refused, -⟩ := Except.bind_eq_ok.mp accepted
    cases refused
  · next named =>
      obtain ⟨_, checked, detected⟩ := Except.bind_eq_ok.mp accepted
      refine ⟨not_not.mp named, fun prod listed alt inside => ?_, detected⟩
      have checkedAlt := Except.forM_eq_ok.mp (Except.forM_eq_ok.mp checked prod listed) alt inside
      obtain ⟨_, refs, -⟩ := Except.bind_eq_ok.mp checkedAlt
      exact Seq.known_of_check refs

/-- A production being matched was entered, through left corners where that is at the same token, by
those being matched outside it. -/
def Inside (grammar : Grammar) (inner outer : Call) : Prop :=
  outer.2 ≤ inner.2 ∧ (inner.2 = outer.2 → Relation.TransGen (LeftCorner grammar) outer.1 inner.1)

/-- The productions being matched are known, and each inside those after it. -/
theorem Active.inside (known : grammar.Known)
    (start : "query" ∈ grammar.productions.map Production.name) {stack : List Call}
    (active : Active reads grammar tokens stack) :
    (∀ call ∈ stack, call.2 ≤ tokens.length ∧
      call.1 ∈ grammar.productions.map Production.name) ∧
      stack.Pairwise (Inside grammar) := by
  induction active with
  | start => exact ⟨by simpa using start, List.pairwise_singleton _ _⟩
  | @enter call inner outer active enters ih =>
      obtain ⟨valid, inside⟩ := ih
      have isValid := valid inner List.mem_cons_self
      obtain ⟨after, within, corner, isKnown⟩ := mayEnter_of_callsOf known isValid.1 enters
      refine ⟨List.forall_mem_cons.mpr ⟨⟨within, isKnown⟩, valid⟩, ?_⟩
      refine List.pairwise_cons.mpr ⟨fun other listed => ?_, inside⟩
      rcases List.mem_cons.mp listed with rfl | further
      · exact ⟨after, fun same => .single (corner same)⟩
      · obtain ⟨before, corners⟩ := (List.pairwise_cons.mp inside).1 other further
        refine ⟨by omega, fun same => ?_⟩
        exact (corners (by omega)).tail (corner (by omega))

/-- Productions and tokens met once each are at most one for each production and token. -/
theorem length_le_of_nodup {stack : List Call} (once : stack.Nodup)
    (valid : ∀ call ∈ stack, call.2 ≤ tokens.length ∧
      call.1 ∈ grammar.productions.map Production.name) :
    stack.length ≤ grammar.productions.length * (tokens.length + 1) := by
  have among : stack ⊆
      grammar.productions.map Production.name ×ˢ List.range (tokens.length + 1) := by
    intro call listed
    obtain ⟨inside, known⟩ := valid call listed
    exact List.mem_product.mpr ⟨known, List.mem_range.mpr (by omega)⟩
  have := (List.subperm_of_subset once among).length_le
  simpa [List.length_product] using this

/-- Of a grammar that is accepted, where no left corner the check overlooks closes a cycle, no
production is entered at the token it is being matched at, so that no more are being matched at once
than there are productions times places in the input. -/
theorem no_left_recursion (accepted : validate reads grammar = .ok ())
    (closed : ∀ name next, Overlooked grammar name next →
      ¬Relation.ReflTransGen (LeftCorner grammar) next name)
    {stack : List Call} (active : Active reads grammar tokens stack) :
    stack.Nodup ∧ stack.length ≤ grammar.productions.length * (tokens.length + 1) := by
  obtain ⟨start, known, detected⟩ := accepted_spec accepted
  obtain ⟨valid, inside⟩ := active.inside known start
  have once : stack.Nodup := by
    refine inside.imp ?_
    rintro inner _ ⟨-, corners⟩ rfl
    exact (acyclic_corners_iff detected).mpr closed inner.1 (corners rfl)
  exact ⟨once, length_le_of_nodup once valid⟩

end Check

/-! ### Samples -/

/-- Single words, without templates. -/
def words : Notation Unit where
  lex input := .ok (if input = "" then [] else [⟨.word, input⟩])
  parseTemplate _ := .ok ()
  render _ _ := .ok ""

/-- A query of predicates: words, negated or not. -/
def predicates : Grammar := ⟨[
  ⟨"query", [⟨.item none (.repetition (.rule "pred") .plus .none) .nil, none⟩]⟩,
  ⟨"pred", [⟨.item none (.lit "not") (.item none (.rule "pred") .nil), none⟩,
    ⟨.item none (.ofClass .word) .nil, none⟩]⟩]⟩

theorem predicates_seen {name next : String} (corner : LeftCorner predicates name next) :
    Seen (edges predicates) name next := by
  obtain ⟨prod, found, alt, listed, starts⟩ := corner
  have listedProd := List.mem_of_find?_eq_some found
  have named : prod.name = name := by simpa using List.find?_some found
  subst named
  simp only [predicates, List.mem_cons, List.not_mem_nil, or_false] at listedProd
  rcases listedProd with rfl | rfl
  · simp only [List.mem_cons, List.not_mem_nil, or_false] at listed
    subst listed
    obtain rfl : "pred" = next := by
      simpa [Seq.Starts, Expr.Starts, Sep.Starts] using starts
    exact ⟨by decide, by decide⟩
  · simp only [List.mem_cons, List.not_mem_nil, or_false] at listed
    rcases listed with rfl | rfl
    · simp [Seq.Starts, Expr.Starts, Expr.Skips] at starts
    · simp [Seq.Starts, Expr.Starts] at starts

theorem no_left_recursion_predicates :
    [(("pred" : String), 0), ("query", 0)].Nodup ∧
      [(("pred" : String), 0), ("query", 0)].length ≤ 2 * (1 + 1) :=
  no_left_recursion (show validate words predicates = .ok () by decide +kernel)
    (fun _ _ overlooked _ => overlooked.2 (predicates_seen overlooked.1))
    (show Active words predicates [⟨.word, "jazz"⟩] [("pred", 0), ("query", 0)] from
      .enter .start (by decide +kernel))

/-- A query of an optional word, in a production of its own, and a query. -/
def optionalFirst : Grammar := ⟨[
  ⟨"query", [⟨.item none (.rule "maybe") (.item none (.rule "query") .nil), none⟩]⟩,
  ⟨"maybe", [⟨.item none (.repetition (.lit "x") .opt .none) .nil, none⟩]⟩]⟩

/-- The check accepts a grammar whose start production is entered again at the token it is being
matched at, until the greatest depth. -/
theorem optionalFirst_reenters :
    validate words optionalFirst = .ok () ∧
      Active words optionalFirst [⟨.word, "y"⟩] [("query", 0), ("query", 0)] ∧
      (expand words optionalFirst "y").isOk = false := by
  refine ⟨by decide +kernel, .enter .start (by decide +kernel), by decide +kernel⟩

end Metafolder.Simplified
