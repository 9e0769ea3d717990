import Metafolder.Outcome
import Mathlib.Data.List.Forall2

/-!
# Recursive descent over a list of tokens

A parser reads a value off the front of a list of tokens or stops with an error.  Chains of items
between separators are read by one loop, and printed by `joined`; a parser with a bound on its
nesting either stops at the bound or reads what it reads under a larger one.
-/

namespace Parsing

variable {τ ε α β : Type}

/-- Reads a value off the front of the tokens. -/
abbrev Parser (τ ε α : Type) := List τ → Except ε (α × List τ)

/-- What is left of the tokens once some are taken off their front. -/
def Left (rest toks : List τ) : Prop := rest <:+ toks ∧ rest.length < toks.length

theorem Left.cons (tok : τ) (rest : List τ) : Left rest (tok :: rest) :=
  ⟨List.suffix_cons tok rest, by simp⟩

theorem Left.trans {first second third : List τ} (short : Left first second)
    (shorter : second <:+ third) : Left first third :=
  ⟨short.1.trans shorter, Nat.lt_of_lt_of_le short.2 shorter.length_le⟩

/-- Every value read takes at least one token off the front, and from tokens that are `fine` it has
a property. -/
def Yields (parser : Parser τ ε α) (fine : τ → Prop) (property : α → Prop) : Prop :=
  ∀ ⦃toks value rest⦄, parser toks = .ok (value, rest) →
    Left rest toks ∧ ((∀ tok ∈ toks, fine tok) → property value)

/-- The first parser stops with `failure`, or reads what the second one reads. -/
def Bounded (failure : ε) (parser unbounded : Parser τ ε α) : Prop :=
  ∀ toks, parser toks = .error failure ∨ parser toks = unbounded toks

/-- What reads on from a bounded parser is bounded. -/
theorem Bounded.bind {failure : ε} {parser unbounded : Parser τ ε α}
    (bounded : Bounded failure parser unbounded) (toks : List τ)
    {next after : α × List τ → Except ε β}
    (nextBounded : ∀ read, next read = .error failure ∨ next read = after read) :
    (parser toks >>= next) = .error failure ∨ (parser toks >>= next) = (unbounded toks >>= after) := by
  rcases bounded toks with stopped | same
  · left
    rw [stopped]
    rfl
  · rw [same]
    cases unbounded toks with
    | error other => right; rfl
    | ok read => exact nextBounded read

/-- What goes on from the same computation is bounded where it goes on so. -/
theorem bind_bounded {failure : ε} (first : Except ε α) {next after : α → Except ε β}
    (nextBounded : ∀ value, next value = .error failure ∨ next value = after value) :
    (first >>= next) = .error failure ∨ (first >>= next) = (first >>= after) := by
  cases first with
  | error other => exact .inr rfl
  | ok value => exact nextBounded value

/-! ### Chains -/

variable [DecidableEq τ]

/-- What follows an item: the separator and the items after it, or the end of the chain. -/
def onward (separator : τ) (more : Parser τ ε (List α)) :
    α × List τ → Except ε (List α × List τ)
  | (first, []) => .ok ([first], [])
  | (first, tok :: later) =>
      if tok = separator then (fun read => (first :: read.1, read.2)) <$> more later
      else .ok ([first], tok :: later)

/-- One or more items with a separator between them.  The number bounds the separators: as many as
there are tokens are enough. -/
def chain (separator : τ) (item : Parser τ ε α) : Nat → Parser τ ε (List α)
  | 0, toks => item toks >>= fun read => .ok ([read.1], read.2)
  | fuel + 1, toks => item toks >>= onward separator (chain separator item fuel)

variable {separator : τ} {item : Parser τ ε α}

@[simp]
theorem onward_separator (more : Parser τ ε (List α)) (first : α) (later : List τ) :
    onward separator more (first, separator :: later) =
      (fun read => (first :: read.1, read.2)) <$> more later := by
  simp [onward]

theorem onward_of_ne (more : Parser τ ε (List α)) (first : α) {rest : List τ}
    (ends : rest.head? ≠ some separator) :
    onward separator more (first, rest) = .ok ([first], rest) := by
  cases rest with
  | nil => rfl
  | cons tok later =>
      have other : tok ≠ separator := by simpa using ends
      simp [onward, other]

theorem onward_eq_ok {more : Parser τ ε (List α)} {first : α} {later rest : List τ}
    {items : List α} (read : onward separator more (first, later) = .ok (items, rest)) :
    (items = [first] ∧ rest = later) ∨
      ∃ next others, later = separator :: next ∧ more next = .ok (others, rest) ∧
        items = first :: others := by
  by_cases ends : later.head? = some separator
  · obtain ⟨next, rfl⟩ := List.head?_eq_some_iff.mp ends
    simp only [onward_separator, Except.map_eq_ok, Prod.mk.injEq, Prod.exists] at read
    obtain ⟨others, _, moreRead, rfl, rfl⟩ := read
    exact .inr ⟨next, others, rfl, moreRead, rfl⟩
  · rw [onward_of_ne more first ends] at read
    cases read
    exact .inl ⟨rfl, rfl⟩

/-- The items of a chain have what every item has, and there is at least one. -/
theorem chain_yields {fine : τ → Prop} {property : α → Prop} (yields : Yields item fine property)
    (fuel : Nat) :
    Yields (chain separator item fuel) fine fun items =>
      items ≠ [] ∧ ∀ value ∈ items, property value := by
  induction fuel with
  | zero =>
      intro toks items rest read
      obtain ⟨⟨first, later⟩, itemRead, same⟩ := Except.bind_eq_ok.mp read
      cases same
      have holds := yields itemRead
      exact ⟨holds.1, fun all => by simpa using holds.2 all⟩
  | succ fuel ih =>
      intro toks items rest read
      obtain ⟨⟨first, later⟩, itemRead, read⟩ := Except.bind_eq_ok.mp read
      have holds := yields itemRead
      rcases onward_eq_ok read with ⟨rfl, rfl⟩ | ⟨next, others, rfl, chainRead, rfl⟩
      · exact ⟨holds.1, fun all => by simpa using holds.2 all⟩
      · have more := ih chainRead
        have after : next <:+ toks := (List.suffix_cons separator next).trans holds.1.1
        refine ⟨more.1.trans after, fun all => ⟨by simp, ?_⟩⟩
        have othersHold := (more.2 fun tok member => all tok (after.subset member)).2
        simpa using ⟨holds.2 all, othersHold⟩

theorem chain_bounded {failure : ε} {unbounded : Parser τ ε α}
    (bounded : Bounded failure item unbounded) (fuel : Nat) :
    Bounded failure (chain separator item fuel) (chain separator unbounded fuel) := by
  induction fuel with
  | zero =>
      intro toks
      exact bounded.bind toks fun _ => .inr rfl
  | succ fuel ih =>
      intro toks
      refine bounded.bind toks fun (first, rest) => ?_
      cases rest with
      | nil => exact .inr rfl
      | cons tok later =>
          simp only [onward]
          split
          · rcases ih later with stopped | same
            · exact .inl (by rw [stopped]; rfl)
            · exact .inr (by rw [same])
          · exact .inr rfl

/-! ### Printed chains -/

/-- The texts of the items with the separator between them. -/
def joined (separator : τ) : List (List τ) → List τ
  | [] => []
  | [toks] => toks
  | toks :: others => toks ++ separator :: joined separator others

omit [DecidableEq τ] in
@[simp]
theorem joined_cons_cons (toks next : List τ) (others : List (List τ)) :
    joined separator (toks :: next :: others) = toks ++ separator :: joined separator (next :: others) :=
  rfl

omit [DecidableEq τ] in
/-- There is a token at least for each item but one. -/
theorem length_le_joined (separator : τ) (items : List (List τ)) :
    items.length ≤ (joined separator items).length + 1 := by
  induction items with
  | nil => simp
  | cons first others ih =>
      cases others with
      | nil => simp
      | cons second others =>
          rw [joined_cons_cons, List.length_append]
          simp only [List.length_cons] at ih ⊢
          omega

/-- A chain reads the printed items back one by one: what it finds is what the items find, read
each before the separator or before what follows the chain. -/
theorem chain_joined {print : β → List τ} {found : β → Except ε α} {items : List β}
    {rest : List τ} {fuel : Nat} (nonempty : items ≠ []) (enough : items.length ≤ fuel + 1)
    (ends : rest.head? ≠ some separator)
    (last : ∀ value ∈ items, item (print value ++ rest) = (fun read => (read, rest)) <$> found value)
    (inner : ∀ value ∈ items, ∀ more,
      item (print value ++ separator :: more) = (fun read => (read, separator :: more)) <$> found value) :
    chain separator item fuel (joined separator (items.map print) ++ rest) =
      (fun read => (read, rest)) <$> items.mapM found := by
  induction items generalizing fuel with
  | nil => exact absurd rfl nonempty
  | cons first others ih =>
      cases others with
      | nil =>
          have reads := last first (by simp)
          have mapped : [first].mapM found = (fun read => [read]) <$> found first := by simp
          rw [mapped]
          cases result : found first with
          | error failure =>
              cases fuel <;>
                (simp only [List.map_cons, List.map_nil, joined, chain, reads, result]; rfl)
          | ok value =>
              cases fuel with
              | zero => simp only [List.map_cons, List.map_nil, joined, chain, reads, result]; rfl
              | succ fuel =>
                  simp only [List.map_cons, List.map_nil, joined, chain, reads, result]
                  exact onward_of_ne _ value ends
      | cons second others =>
          obtain ⟨fuel, rfl⟩ : ∃ before, fuel = before + 1 :=
            ⟨fuel - 1, by simp only [List.length_cons] at enough; omega⟩
          have reads := inner first (by simp)
            (joined separator ((second :: others).map print) ++ rest)
          have later := @ih fuel (by simp) (by simpa using enough)
            (fun value member => last value (by simp [member]))
            (fun value member => inner value (by simp [member]))
          have mapped : (first :: second :: others).mapM found =
              found first >>= fun read => (fun reads => read :: reads) <$> (second :: others).mapM found := by
            rw [List.mapM_cons]
            rfl
          rw [mapped]
          simp only [List.map_cons, joined_cons_cons, List.append_assoc, List.cons_append, chain]
            at reads later ⊢
          rw [reads]
          cases result : found first with
          | error failure => rfl
          | ok value =>
              change onward separator (chain separator item fuel) (value, separator :: _) = _
              rw [onward_separator, later]
              cases (second :: others).mapM found <;> rfl

end Parsing
