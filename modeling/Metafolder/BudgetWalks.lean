import Mathlib.Data.Finset.Card
import Mathlib.Data.List.Infix
import Mathlib.Data.List.Nodup
import Mathlib.Tactic.Common

/-!
# Walks under a budget

A walk goes down a tree and takes what it is told to while there is room.  What it meets once its
budget is spent is left on a frontier, and not entered.
-/

namespace BudgetWalk

/-- What is made of an entry, and what is handed down to those under it. -/
inductive Verdict (σ : Type)
  /-- It is passed over. -/
  | skip
  /-- It is entered, but not taken. -/
  | enter (state : σ)
  /-- It is taken and entered, where there is room. -/
  | take (state : σ)
deriving DecidableEq

/-- A tree to walk, each node named by the names on the way to it. -/
structure Tree (ν σ : Type) where
  /-- The names under a node. -/
  entries : List ν → List ν
  /-- Each name is there once. -/
  nodup : ∀ path, (entries path).Nodup
  /-- How deep it is. -/
  depth : Nat
  /-- Nothing is deeper. -/
  shallow : ∀ path, depth ≤ path.length → entries path = []
  /-- What is made of a node, from what is handed down to it. -/
  verdict : List ν → σ → Verdict σ

/-- A walk so far. -/
structure Taken (ν : Type) where
  /-- What was taken. -/
  out : Finset (List ν) := ∅
  /-- What was left for want of room. -/
  frontier : List (List ν) := []

variable {ν σ : Type}

/-- Whether the budget still allows one more. -/
def Taken.hasRoom (cap : Option Nat) (taken : Taken ν) : Bool :=
  cap.all fun cap => taken.out.card < cap

namespace Tree

section Walk

variable [DecidableEq ν] (tree : Tree ν σ) (cap : Option Nat)

/-- One entry of a node: what is to be entered goes on top. -/
def judge (path : List ν) (state : σ) (held : List (List ν × σ) × Taken ν) (name : ν) :
    List (List ν × σ) × Taken ν :=
  let entry := path ++ [name]
  match tree.verdict entry state with
  | .skip => held
  | .enter next => ((entry, next) :: held.1, held.2)
  | .take next =>
      if held.2.hasRoom cap then
        ((entry, next) :: held.1, { held.2 with out := insert entry held.2.out })
      else (held.1, { held.2 with frontier := held.2.frontier ++ [entry] })

/-- The entries of a node. -/
def list (path : List ν) (state : σ) (taken : Taken ν) : List (List ν × σ) × Taken ν :=
  (tree.entries path).foldl (tree.judge cap path state) ([], taken)

/-- A walk of what is under a node, some levels deep.  The entries of a node are judged before any
of them is entered, and the last one is entered first. -/
def collect : Nat → List ν → σ → Taken ν → Taken ν
  | 0, _, _, taken => taken
  | levels + 1, path, state, taken =>
      let listed := tree.list cap path state taken
      listed.1.foldl (fun taken entry => collect levels entry.1 entry.2 taken) listed.2

end Walk

/-! ### What a walk meets -/

/-- The nodes under one that a walk is told to take, entering all it may but those of a cut. -/
inductive Meets (tree : Tree ν σ) (cut : List ν → Prop) : List ν → σ → List ν → Prop
  | here {path : List ν} {state next : σ} {name : ν} (listed : name ∈ tree.entries path)
      (told : tree.verdict (path ++ [name]) state = .take next) :
      Meets tree cut path state (path ++ [name])
  | entered {path node : List ν} {state next : σ} {name : ν} (listed : name ∈ tree.entries path)
      (told : tree.verdict (path ++ [name]) state = .enter next)
      (further : Meets tree cut (path ++ [name]) next node) : Meets tree cut path state node
  | taken {path node : List ν} {state next : σ} {name : ν} (listed : name ∈ tree.entries path)
      (told : tree.verdict (path ++ [name]) state = .take next) (uncut : ¬cut (path ++ [name]))
      (further : Meets tree cut (path ++ [name]) next node) : Meets tree cut path state node

namespace Meets

variable {tree : Tree ν σ} {cut : List ν → Prop} {path node : List ν} {state : σ}

/-- What is met is under where the walk starts. -/
theorem under (meets : tree.Meets cut path state node) :
    path <+: node ∧ path.length < node.length := by
  induction meets with
  | here => exact ⟨List.prefix_append _ _, by simp⟩
  | entered _ _ _ ih =>
      refine ⟨(List.prefix_append _ _).trans ih.1, ?_⟩
      have longer := ih.2
      rw [List.length_append] at longer
      omega
  | taken _ _ _ _ ih =>
      refine ⟨(List.prefix_append _ _).trans ih.1, ?_⟩
      have longer := ih.2
      rw [List.length_append] at longer
      omega

/-- A walk that is cut less meets as much. -/
theorem mono {less : List ν → Prop} (fewer : ∀ node, less node → cut node)
    (meets : tree.Meets cut path state node) : tree.Meets less path state node := by
  induction meets with
  | here listed told => exact .here listed told
  | entered listed told _ ih => exact .entered listed told ih
  | taken listed told uncut _ ih =>
      exact .taken listed told (fun inside => uncut (fewer _ inside)) ih

/-- What only a walk cut less meets is below the cut. -/
theorem cut_above {less : List ν → Prop} (meets : tree.Meets less path state node) :
    tree.Meets cut path state node ∨
      ∃ edge, tree.Meets cut path state edge ∧ cut edge ∧ edge <+: node := by
  induction meets with
  | here listed told => exact .inl (.here listed told)
  | entered listed told _ ih =>
      obtain met | ⟨edge, met, at_, above⟩ := ih
      · exact .inl (.entered listed told met)
      · exact .inr ⟨edge, .entered listed told met, at_, above⟩
  | @taken path node state next name listed told _ further ih =>
      by_cases edge : cut (path ++ [name])
      · exact .inr ⟨_, .here listed told, edge, further.under.1⟩
      · obtain met | ⟨edge, met, at_, above⟩ := ih
        · exact .inl (.taken listed told edge met)
        · exact .inr ⟨_, .taken listed told ‹_› met, at_, above⟩

/-- What is met was told to be taken. -/
theorem told (meets : tree.Meets cut path state node) :
    ∃ handed next, tree.verdict node handed = .take next := by
  induction meets with
  | here _ told => exact ⟨_, _, told⟩
  | entered _ _ _ ih => exact ih
  | taken _ _ _ _ ih => exact ih

/-- A node met is entered unless it is cut. -/
theorem trans {edge : List ν} (meets : tree.Meets cut path state edge) (uncut : ¬cut edge)
    (further : ∀ handed next, tree.verdict edge handed = .take next →
      tree.Meets cut edge next node) :
    tree.Meets cut path state node := by
  induction meets with
  | here listed told => exact .taken listed told uncut (further _ _ told)
  | entered listed told _ ih => exact .entered listed told (ih uncut further)
  | taken listed told outside _ ih => exact .taken listed told outside (ih uncut further)

theorem child_unique {name other : ν} (one : path ++ [name] <+: node)
    (another : path ++ [other] <+: node) : name = other := by
  have same := (List.prefix_of_prefix_length_le one another (by simp)).eq_of_length (by simp)
  simpa using List.append_cancel_left same

/-- The way to what is under a node met goes through it. -/
theorem through {edge : List ν} (meets : tree.Meets cut path state edge)
    (further : tree.Meets cut path state node) (above : edge <+: node)
    (shorter : edge.length < node.length) :
    ¬cut edge ∧ ∃ handed next, tree.verdict edge handed = .take next ∧
      tree.Meets cut edge next node := by
  induction meets with
  | @here path state next name listed told =>
      cases further with
      | here => simp at shorter
      | entered inside verdict rest =>
          obtain rfl := child_unique above rest.under.1
          rw [told] at verdict
          cases verdict
      | taken inside verdict uncut rest =>
          obtain rfl := child_unique above rest.under.1
          rw [told] at verdict
          cases verdict
          exact ⟨uncut, _, _, told, rest⟩
  | @entered path edge state next name listed told met ih =>
      have on := met.under.1.trans above
      cases further with
      | here =>
          have longer := met.under.2
          have bounded := above.length_le
          simp at longer shorter
          omega
      | entered inside verdict rest =>
          obtain rfl := child_unique on rest.under.1
          rw [told] at verdict
          cases verdict
          exact ih rest above shorter
      | taken inside verdict uncut rest =>
          obtain rfl := child_unique on rest.under.1
          rw [told] at verdict
          cases verdict
  | @taken path edge state next name listed told uncut met ih =>
      have on := met.under.1.trans above
      cases further with
      | here =>
          have longer := met.under.2
          simp at longer shorter
          omega
      | entered inside verdict rest =>
          obtain rfl := child_unique on rest.under.1
          rw [told] at verdict
          cases verdict
      | taken inside verdict outside rest =>
          obtain rfl := child_unique on rest.under.1
          rw [told] at verdict
          cases verdict
          exact ih rest above shorter

end Meets

/-! ### What one node's entries give -/

section Spec

variable [DecidableEq ν] {tree : Tree ν σ} {cap : Option Nat} {path : List ν} {state : σ}

/-- A property each judgement keeps is kept by the entries of a node. -/
theorem list_keeps {property : Taken ν → Prop} {taken : Taken ν}
    (kept : ∀ {path state held name}, property held.2 →
      property (tree.judge cap path state held name).2) (holds : property taken) :
    property (tree.list cap path state taken).2 := by
  rw [list]
  generalize tree.entries path = names
  generalize ([] : List (List ν × σ)) = pushed
  induction names generalizing pushed taken with
  | nil => exact holds
  | cons name rest ih => exact ih (kept holds) _

/-- A property each judgement keeps is kept by a walk. -/
theorem collect_keeps {property : Taken ν → Prop}
    (kept : ∀ {path state held name}, property held.2 →
      property (tree.judge cap path state held name).2) {levels : Nat} {taken : Taken ν}
    (holds : property taken) : property (tree.collect cap levels path state taken) := by
  induction levels generalizing path state taken with
  | zero => exact holds
  | succ levels ih =>
      rw [collect]
      have listed := @list_keeps _ _ _ tree cap path state property taken kept holds
      generalize tree.list cap path state taken = after at listed
      obtain ⟨pushed, taken⟩ := after
      induction pushed generalizing taken with
      | nil => exact listed
      | cons entry rest step => exact step _ (ih listed)

/-- What was taken stays taken. -/
theorem judge_out {held : List (List ν × σ) × Taken ν} {name : ν} :
    held.2.out ⊆ (tree.judge cap path state held name).2.out := by
  rw [judge]
  cases tree.verdict (path ++ [name]) state with
  | skip => exact subset_rfl
  | enter => exact subset_rfl
  | take =>
      dsimp only
      split
      · exact Finset.subset_insert _ _
      · exact subset_rfl

/-- What was left stays left. -/
theorem judge_frontier {held : List (List ν × σ) × Taken ν} {name : ν} :
    held.2.frontier ⊆ (tree.judge cap path state held name).2.frontier := by
  rw [judge]
  cases tree.verdict (path ++ [name]) state with
  | skip => exact List.Subset.refl _
  | enter => exact List.Subset.refl _
  | take =>
      dsimp only
      split
      · exact List.Subset.refl _
      · exact List.subset_append_left _ _

theorem collect_kept {levels : Nat} {taken : Taken ν} :
    taken.frontier ⊆ (tree.collect cap levels path state taken).frontier := by
  have kept : ∀ {path state held name}, taken.frontier ⊆ held.2.frontier →
      taken.frontier ⊆ (tree.judge cap path state held name).2.frontier :=
    fun kept => List.Subset.trans kept judge_frontier
  exact @collect_keeps _ _ _ tree cap path state (fun after => taken.frontier ⊆ after.frontier) kept
    _ _ (List.Subset.refl _)

/-- What entries a node has given, and what they left. -/
structure Listed (tree : Tree ν σ) (path : List ν) (state : σ) (names : List ν)
    (before after : List (List ν × σ) × Taken ν) : Prop where
  /-- What is to be entered. -/
  pushed : ∀ entry, entry ∈ after.1 ↔ entry ∈ before.1 ∨ ∃ name ∈ names, entry.1 = path ++ [name] ∧
    (tree.verdict entry.1 state = .enter entry.2 ∨
      tree.verdict entry.1 state = .take entry.2 ∧ entry.1 ∉ after.2.frontier)
  /-- What was taken. -/
  out : ∀ node, node ∈ after.2.out ↔ node ∈ before.2.out ∨ ∃ name ∈ names, ∃ next,
    node = path ++ [name] ∧ tree.verdict node state = .take next ∧ node ∉ after.2.frontier
  /-- What was left. -/
  frontier : ∀ node, node ∈ after.2.frontier → node ∈ before.2.frontier ∨ ∃ name ∈ names, ∃ next,
    node = path ++ [name] ∧ tree.verdict node state = .take next
  /-- What was left before still is. -/
  kept : before.2.frontier ⊆ after.2.frontier

theorem listed_foldl {names : List ν} (nodup : names.Nodup)
    {before : List (List ν × σ) × Taken ν}
    (fresh : ∀ name ∈ names, path ++ [name] ∉ before.2.frontier) :
    Listed tree path state names before (names.foldl (tree.judge cap path state) before) := by
  induction names generalizing before with
  | nil =>
      exact ⟨fun _ => by simp, fun _ => by simp, fun _ left => .inl left, List.Subset.refl _⟩
  | cons name rest ih =>
      obtain ⟨apart, nodup⟩ := List.nodup_cons.mp nodup
      have new := fresh name List.mem_cons_self
      -- What the first entry gives, the others change nothing of it.
      have one : Listed tree path state [name] before (tree.judge cap path state before name) := by
        rw [judge]
        cases told : tree.verdict (path ++ [name]) state with
        | skip => exact ⟨fun _ => by grind, fun _ => by grind, fun _ => .inl, List.Subset.refl _⟩
        | enter next =>
            exact ⟨fun _ => by grind, fun _ => by grind, fun _ => .inl, List.Subset.refl _⟩
        | take next =>
            dsimp only
            split
            · exact ⟨fun _ => by grind, fun _ => by grind, fun _ => .inl, List.Subset.refl _⟩
            · exact ⟨fun _ => by grind, fun _ => by grind, fun _ => by grind,
                List.subset_append_left _ _⟩
      rw [List.foldl_cons]
      generalize tree.judge cap path state before name = mid at one
      have others : ∀ other ∈ rest, path ++ [other] ∉ mid.2.frontier := by
        intro other member left
        obtain left | ⟨first, found, next, same, -⟩ := one.frontier _ left
        · exact fresh other (List.mem_cons_of_mem _ member) left
        · have same := List.append_cancel_left same
          grind
      have more := ih nodup others
      generalize rest.foldl (tree.judge cap path state) mid = after at more
      have settled : path ++ [name] ∈ after.2.frontier ↔ path ++ [name] ∈ mid.2.frontier := by
        refine ⟨fun left => ?_, fun left => more.kept left⟩
        obtain left | ⟨other, member, next, same, -⟩ := more.frontier _ left
        · exact left
        · have same := List.append_cancel_left same
          grind
      refine ⟨fun entry => ?_, fun node => ?_, fun node left => ?_,
        List.Subset.trans one.kept more.kept⟩
      · rw [more.pushed, one.pushed]
        grind
      · rw [more.out, one.out]
        grind
      · obtain left | ⟨other, member, next, same, told⟩ := more.frontier _ left
        · obtain left | ⟨first, found, next, same, told⟩ := one.frontier _ left
          · exact .inl left
          · exact .inr ⟨first, by grind, next, same, told⟩
        · exact .inr ⟨other, List.mem_cons_of_mem _ member, next, same, told⟩

/-- The entries of a node, where nothing under it was left before. -/
theorem list_spec {taken : Taken ν}
    (fresh : ∀ node ∈ taken.frontier, path <+: node → node = path) :
    Listed tree path state (tree.entries path) ([], taken) (tree.list cap path state taken) := by
  refine listed_foldl (tree.nodup path) fun name _ left => ?_
  have same := fresh _ left (List.prefix_append _ _)
  simp at same

theorem judge_pushed {held : List (List ν × σ) × Taken ν} {name : ν} :
    (tree.judge cap path state held name).1 = held.1 ∨
      ∃ next, (tree.judge cap path state held name).1 = (path ++ [name], next) :: held.1 := by
  rw [judge]
  cases tree.verdict (path ++ [name]) state with
  | skip => exact .inl rfl
  | enter next => exact .inr ⟨next, rfl⟩
  | take next =>
      dsimp only
      split
      · exact .inr ⟨next, rfl⟩
      · exact .inl rfl

/-- The nodes to be entered are told apart. -/
theorem list_nodup {taken : Taken ν} :
    ((tree.list cap path state taken).1.map Prod.fst).Nodup := by
  rw [list]
  have nodup := tree.nodup path
  have start : (([] : List (List ν × σ)).map Prod.fst).Nodup := List.nodup_nil
  have fresh : ∀ name ∈ tree.entries path,
      path ++ [name] ∉ ([] : List (List ν × σ)).map Prod.fst := fun _ _ => List.not_mem_nil
  generalize tree.entries path = names at nodup fresh
  generalize ([] : List (List ν × σ)) = pushed at start fresh
  induction names generalizing pushed taken with
  | nil => exact start
  | cons name rest ih =>
      obtain ⟨apart, nodup⟩ := List.nodup_cons.mp nodup
      rw [List.foldl_cons]
      generalize judged : tree.judge cap path state (pushed, taken) name = mid
      obtain ⟨pushedMid, takenMid⟩ := mid
      have grown := @judge_pushed _ _ _ tree cap path state (pushed, taken) name
      rw [judged] at grown
      have new := fresh name List.mem_cons_self
      have later : ∀ other ∈ rest, path ++ [other] ∉ pushed.map Prod.fst := fun other member =>
        fresh other (List.mem_cons_of_mem _ member)
      obtain same | ⟨next, same⟩ := grown
      · dsimp only at same
        subst same
        exact ih nodup _ start later
      · dsimp only at same
        subst same
        refine ih nodup _ ?_ fun other member => ?_
        · rw [List.map_cons]
          exact List.nodup_cons.mpr ⟨new, start⟩
        · rw [List.map_cons, List.mem_cons]
          intro held
          obtain same | held := held
          · have same := List.append_cancel_left same
            grind
          · exact later other member held

/-! ### What a walk gives -/

/-- What was listed to be entered is right under the node. -/
theorem list_child {taken : Taken ν} {entry : List ν × σ}
    (member : entry ∈ (tree.list cap path state taken).1) : ∃ name, entry.1 = path ++ [name] := by
  rw [list] at member
  have start : ∀ entry ∈ ([] : List (List ν × σ)), ∃ name, entry.1 = path ++ [name] :=
    fun _ nothing => absurd nothing List.not_mem_nil
  generalize tree.entries path = names at member
  generalize ([] : List (List ν × σ)) = pushed at start member
  induction names generalizing pushed taken with
  | nil => exact start entry member
  | cons name rest ih =>
      rw [List.foldl_cons] at member
      refine ih (tree.judge cap path state (pushed, taken) name).1 (fun held inside => ?_) member
      obtain same | ⟨next, same⟩ := @judge_pushed _ _ _ tree cap path state (pushed, taken) name
      · rw [same] at inside
        exact start held inside
      · rw [same] at inside
        cases inside with
        | head => exact ⟨name, rfl⟩
        | tail _ before => exact start held before

/-- The entries of a node leave nothing but entries of it. -/
theorem list_frontier {taken : Taken ν} {node : List ν}
    (left : node ∈ (tree.list cap path state taken).2.frontier) :
    node ∈ taken.frontier ∨ ∃ name, node = path ++ [name] := by
  rw [list] at left
  generalize tree.entries path = names at left
  generalize ([] : List (List ν × σ)) = pushed at left
  induction names generalizing pushed taken with
  | nil => exact .inl left
  | cons name rest ih =>
      rw [List.foldl_cons] at left
      obtain held | under := ih _ left
      · simp only at held
        split at held
        · exact .inl held
        · exact .inl held
        · split at held
          · exact .inl held
          · obtain held | last := List.mem_append.mp held
            · exact .inl held
            · exact .inr ⟨name, List.mem_singleton.mp last⟩
      · exact .inr under

/-- Walks one after another leave nothing but what is under where one of them starts. -/
theorem foldl_frontier {levels : Nat} {node : List ν}
    (each : ∀ {path state taken}, node ∈ (tree.collect cap levels path state taken).frontier →
      node ∈ taken.frontier ∨ path <+: node ∧ path.length < node.length)
    {entries : List (List ν × σ)} {taken : Taken ν}
    (left : node ∈ (entries.foldl
      (fun taken entry => tree.collect cap levels entry.1 entry.2 taken) taken).frontier) :
    node ∈ taken.frontier ∨ ∃ entry ∈ entries, entry.1 <+: node ∧ entry.1.length < node.length := by
  induction entries generalizing taken with
  | nil => exact .inl left
  | cons entry rest step =>
      obtain held | ⟨later, member, under⟩ := step left
      · obtain held | under := each held
        · exact .inl held
        · exact .inr ⟨entry, List.mem_cons_self, under⟩
      · exact .inr ⟨later, List.mem_cons_of_mem _ member, under⟩

/-- A walk leaves nothing but what is under where it starts. -/
theorem collect_frontier {levels : Nat} {taken : Taken ν} {node : List ν}
    (left : node ∈ (tree.collect cap levels path state taken).frontier) :
    node ∈ taken.frontier ∨ path <+: node ∧ path.length < node.length := by
  induction levels generalizing path state taken with
  | zero => exact .inl left
  | succ levels ih =>
      rw [collect] at left
      obtain held | ⟨entry, member, above, longer⟩ := foldl_frontier ih left
      · obtain held | ⟨name, rfl⟩ := list_frontier held
        · exact .inl held
        · exact .inr ⟨List.prefix_append _ _, by simp⟩
      · obtain ⟨name, same⟩ := list_child member
        rw [same] at above longer
        refine .inr ⟨(List.prefix_append _ _).trans above, ?_⟩
        rw [List.length_append] at longer
        omega

/-- Walks one after another keep what was left. -/
theorem foldl_kept {levels : Nat} {entries : List (List ν × σ)} {taken : Taken ν} :
    taken.frontier ⊆ (entries.foldl
      (fun taken entry => tree.collect cap levels entry.1 entry.2 taken) taken).frontier := by
  induction entries generalizing taken with
  | nil => exact List.Subset.refl _
  | cons entry rest step => exact List.Subset.trans collect_kept step

/-- What a walk has taken and left, from what it meets while a cut is left out. -/
structure Covers (tree : Tree ν σ) (cut : List ν → Prop) (path : List ν) (state : σ)
    (before after : Taken ν) : Prop where
  /-- What it took. -/
  out : ∀ node, node ∈ after.out ↔
    node ∈ before.out ∨ tree.Meets cut path state node ∧ ¬cut node
  /-- What it left. -/
  frontier : ∀ node, node ∈ after.frontier → node ∈ before.frontier ∨ tree.Meets cut path state node

/-- Walks one after another from nodes that have nothing in common. -/
theorem foldl_covers {levels : Nat} {cut : List ν → Prop} {entries : List (List ν × σ)}
    {before : Taken ν}
    (each : ∀ {path state before}, tree.depth ≤ path.length + levels →
      (∀ node ∈ before.frontier, path <+: node → node = path) →
      (∀ node, path <+: node → path.length < node.length →
        (cut node ↔ node ∈ (tree.collect cap levels path state before).frontier)) →
      Covers tree cut path state before (tree.collect cap levels path state before))
    (deep : ∀ entry ∈ entries, tree.depth ≤ entry.1.length + levels)
    (apart : entries.Pairwise fun one other => ∀ node, one.1 <+: node → ¬other.1 <+: node)
    (fresh : ∀ entry ∈ entries, ∀ node ∈ before.frontier, entry.1 <+: node → node = entry.1)
    (cuts : ∀ entry ∈ entries, ∀ node, entry.1 <+: node → entry.1.length < node.length →
      (cut node ↔ node ∈ (entries.foldl
        (fun taken entry => tree.collect cap levels entry.1 entry.2 taken) before).frontier)) :
    let after := entries.foldl
      (fun taken entry => tree.collect cap levels entry.1 entry.2 taken) before
    (∀ node, node ∈ after.out ↔ node ∈ before.out ∨
      ∃ entry ∈ entries, tree.Meets cut entry.1 entry.2 node ∧ ¬cut node) ∧
    ∀ node ∈ after.frontier, node ∈ before.frontier ∨
      ∃ entry ∈ entries, tree.Meets cut entry.1 entry.2 node := by
  induction entries generalizing before with
  | nil => exact ⟨fun node => by simp, fun _ => .inl⟩
  | cons entry rest step =>
      obtain ⟨others, apart⟩ := List.pairwise_cons.mp apart
      have first := cuts entry List.mem_cons_self
      rw [List.foldl_cons] at first
      have one : Covers tree cut entry.1 entry.2 before
          (tree.collect cap levels entry.1 entry.2 before) := by
        refine each (deep entry List.mem_cons_self) (fresh entry List.mem_cons_self) ?_
        intro node above longer
        rw [first node above longer]
        refine ⟨fun left => ?_, fun left => foldl_kept left⟩
        obtain held | ⟨later, member, under, -⟩ := foldl_frontier collect_frontier left
        · exact held
        · exact absurd under (others later member node above)
      have freshMore : ∀ later ∈ rest,
          ∀ node ∈ (tree.collect cap levels entry.1 entry.2 before).frontier,
            later.1 <+: node → node = later.1 := by
        intro later member node left above
        obtain held | ⟨under, -⟩ := collect_frontier left
        · exact fresh later (List.mem_cons_of_mem _ member) node held above
        · exact absurd above (others later member node under)
      have more := step (fun later member => deep later (List.mem_cons_of_mem _ member)) apart
        freshMore fun later member => cuts later (List.mem_cons_of_mem _ member)
      refine ⟨fun node => ?_, fun node left => ?_⟩
      · rw [List.foldl_cons, more.1, one.out]
        simp only [List.mem_cons, exists_eq_or_imp]
        exact or_assoc
      · obtain held | ⟨later, member, met⟩ := more.2 node left
        · obtain held | met := one.frontier node held
          · exact .inl held
          · exact .inr ⟨entry, List.mem_cons_self, met⟩
        · exact .inr ⟨later, List.mem_cons_of_mem _ member, met⟩

/-- A walk meets all there is, but for what is under what it leaves. -/
theorem collect_covers {levels : Nat} {before : Taken ν} {cut : List ν → Prop}
    (deep : tree.depth ≤ path.length + levels)
    (fresh : ∀ node ∈ before.frontier, path <+: node → node = path)
    (cuts : ∀ node, path <+: node → path.length < node.length →
      (cut node ↔ node ∈ (tree.collect cap levels path state before).frontier)) :
    Covers tree cut path state before (tree.collect cap levels path state before) := by
  induction levels generalizing path state before with
  | zero =>
      have nothing : ∀ node, ¬tree.Meets cut path state node := by
        intro node meets
        have empty := tree.shallow path deep
        cases meets with
        | here listed => rw [empty] at listed; exact absurd listed List.not_mem_nil
        | entered listed => rw [empty] at listed; exact absurd listed List.not_mem_nil
        | taken listed => rw [empty] at listed; exact absurd listed List.not_mem_nil
      exact ⟨fun node => ⟨.inl, fun held => held.resolve_right fun met => nothing node met.1⟩,
        fun _ => .inl⟩
  | succ levels ih =>
      have listed := @list_spec _ _ _ tree cap path state before fresh
      have nodup := @list_nodup _ _ _ tree cap path state before
      have children := fun entry => @list_child _ _ _ tree cap path state before entry
      rw [collect] at cuts ⊢
      generalize tree.list cap path state before = held at listed nodup children cuts ⊢
      obtain ⟨pushed, mid⟩ := held
      dsimp only at nodup children cuts ⊢
      -- Whether an entry is cut is settled once the entries are listed.
      have settled : ∀ name, cut (path ++ [name]) ↔ path ++ [name] ∈ mid.frontier := by
        intro name
        rw [cuts _ (List.prefix_append _ _) (by simp)]
        refine ⟨fun left => ?_, fun left => foldl_kept left⟩
        obtain held | ⟨entry, member, -, longer⟩ := foldl_frontier collect_frontier left
        · exact held
        · obtain ⟨other, same⟩ := children entry member
          rw [same] at longer
          simp at longer
      have equal : ∀ {entry : List ν × σ} {name : ν}, entry ∈ pushed →
          entry.1 <+: path ++ [name] → path ++ [name] = entry.1 := by
        intro entry name member above
        obtain ⟨other, same⟩ := children entry member
        exact (above.eq_of_length (by rw [same]; simp)).symm
      have apart : pushed.Pairwise fun one other => ∀ node, one.1 <+: node → ¬other.1 <+: node := by
        refine (List.pairwise_map.mp nodup).imp_of_mem fun {one other} inOne inOther differ => ?_
        intro node above aside
        obtain ⟨name, same⟩ := children one inOne
        obtain ⟨another, alike⟩ := children other inOther
        refine differ ((List.prefix_of_prefix_length_le above aside ?_).eq_of_length ?_)
        · rw [same, alike]; simp
        · rw [same, alike]; simp
      have freshChildren : ∀ entry ∈ pushed, ∀ node ∈ mid.frontier,
          entry.1 <+: node → node = entry.1 := by
        intro entry member node left above
        obtain held | ⟨name, -, next, rfl, -⟩ := listed.frontier node left
        · obtain ⟨name, same⟩ := children entry member
          rw [same] at above
          have root := fresh node held ((List.prefix_append _ _).trans above)
          have longer := above.length_le
          rw [root, List.length_append, List.length_singleton] at longer
          omega
        · exact equal member above
      have cutsChildren : ∀ entry ∈ pushed, ∀ node, entry.1 <+: node →
          entry.1.length < node.length → (cut node ↔ node ∈ (pushed.foldl
            (fun taken entry => tree.collect cap levels entry.1 entry.2 taken) mid).frontier) := by
        intro entry member node above longer
        obtain ⟨name, same⟩ := children entry member
        rw [same] at above longer
        refine cuts node ((List.prefix_append _ _).trans above) ?_
        rw [List.length_append] at longer
        omega
      have deeper : ∀ entry ∈ pushed, tree.depth ≤ entry.1.length + levels := by
        intro entry member
        obtain ⟨name, same⟩ := children entry member
        rw [same, List.length_append, List.length_singleton]
        omega
      have more := foldl_covers ih deeper apart freshChildren cutsChildren
      have unfolds : ∀ node, tree.Meets cut path state node ↔
          (∃ name ∈ tree.entries path, ∃ next, node = path ++ [name] ∧
            tree.verdict node state = .take next) ∨
          ∃ entry ∈ pushed, tree.Meets cut entry.1 entry.2 node := by
        intro node
        refine ⟨fun met => ?_, fun given => ?_⟩
        · cases met with
          | here inside told => exact .inl ⟨_, inside, _, rfl, told⟩
          | @entered _ _ _ next name inside told further =>
              have member := (listed.pushed (path ++ [name], next)).mpr
                (.inr ⟨name, inside, rfl, .inl told⟩)
              exact .inr ⟨_, member, further⟩
          | @taken _ _ _ next name inside told uncut further =>
              have member := (listed.pushed (path ++ [name], next)).mpr
                (.inr ⟨name, inside, rfl, .inr ⟨told, fun left => uncut ((settled name).mpr left)⟩⟩)
              exact .inr ⟨_, member, further⟩
        · obtain ⟨name, inside, next, rfl, told⟩ | ⟨⟨at_, next⟩, member, met⟩ := given
          · exact .here inside told
          · obtain held | ⟨name, inside, same, verdict⟩ := (listed.pushed _).mp member
            · exact absurd held List.not_mem_nil
            · dsimp only at same verdict met
              subst same
              obtain told | ⟨told, kept⟩ := verdict
              · exact .entered inside told met
              · exact .taken inside told (fun edge => kept ((settled name).mp edge)) met
      refine ⟨fun node => ?_, fun node left => ?_⟩
      · rw [more.1, listed.out, unfolds, or_assoc]
        refine or_congr_right ⟨fun given => ?_, fun given => ?_⟩
        · obtain ⟨name, inside, next, rfl, told, kept⟩ | ⟨entry, member, met, uncut⟩ := given
          · exact ⟨.inl ⟨name, inside, next, rfl, told⟩, fun edge => kept ((settled name).mp edge)⟩
          · exact ⟨.inr ⟨entry, member, met⟩, uncut⟩
        · obtain ⟨⟨name, inside, next, rfl, told⟩ | ⟨entry, member, met⟩, uncut⟩ := given
          · exact .inl ⟨name, inside, next, rfl, told, fun left => uncut ((settled name).mpr left)⟩
          · exact .inr ⟨entry, member, met, uncut⟩
      · rw [unfolds]
        obtain held | met := more.2 node left
        · obtain held | here := listed.frontier node held
          · exact .inl held
          · exact .inr (.inl here)
        · exact .inr (.inr met)

/-! ### Whole walks -/

/-- Without a budget nothing is left. -/
theorem collect_unbounded {levels : Nat} {taken : Taken ν} :
    (tree.collect none levels path state taken).frontier = taken.frontier := by
  have kept : ∀ {path state held name}, held.2.frontier = taken.frontier →
      (tree.judge none path state held name).2.frontier = taken.frontier := by
    intro path state held name same
    rw [judge]
    cases tree.verdict (path ++ [name]) state with
    | skip => exact same
    | enter => exact same
    | take => exact same
  exact @collect_keeps _ _ _ tree none path state
    (fun after => after.frontier = taken.frontier) kept _ _ rfl

/-- A walk takes no more than its budget. -/
theorem collect_within {levels budget : Nat} {taken : Taken ν} (within : taken.out.card ≤ budget) :
    (tree.collect (some budget) levels path state taken).out.card ≤ budget := by
  have kept : ∀ {path state held name}, held.2.out.card ≤ budget →
      (tree.judge (some budget) path state held name).2.out.card ≤ budget := by
    intro path state held name within
    rw [judge]
    cases tree.verdict (path ++ [name]) state with
    | skip => exact within
    | enter => exact within
    | take =>
        dsimp only
        split
        · next room =>
          have fits : held.2.out.card < budget := by simpa [Taken.hasRoom] using room
          have one := Finset.card_insert_le (path ++ [name]) held.2.out
          dsimp only
          omega
        · exact within
  exact @collect_keeps _ _ _ tree (some budget) path state
    (fun after => after.out.card ≤ budget) kept _ _ within

/-- A walk leaves a node only when its budget is spent. -/
theorem collect_spent {levels budget : Nat} {taken : Taken ν} {node : List ν}
    (left : node ∈ (tree.collect (some budget) levels path state taken).frontier) :
    node ∈ taken.frontier ∨
      budget ≤ (tree.collect (some budget) levels path state taken).out.card := by
  have kept : ∀ {path state held name},
      (node ∈ held.2.frontier → node ∈ taken.frontier ∨ budget ≤ held.2.out.card) →
      node ∈ (tree.judge (some budget) path state held name).2.frontier → node ∈ taken.frontier ∨
        budget ≤ (tree.judge (some budget) path state held name).2.out.card := by
    intro path state held name before
    have grown := Finset.card_le_card (@judge_out _ _ _ tree (some budget) path state held name)
    revert grown
    rw [judge]
    cases tree.verdict (path ++ [name]) state with
    | skip => exact fun _ => before
    | enter => exact fun _ => before
    | take =>
        dsimp only
        split
        · intro grown left
          exact (before left).imp_right fun spent => spent.trans grown
        · next full =>
          intro _ _
          exact .inr (by simpa [Taken.hasRoom] using full)
  exact @collect_keeps _ _ _ tree (some budget) path state
    (fun after => node ∈ after.frontier → node ∈ taken.frontier ∨ budget ≤ after.out.card) kept
    _ _ .inl left

section Whole

variable {start : Finset (List ν)} {levels : Nat} (deep : tree.depth ≤ path.length + levels)

include deep

/-- What a walk takes and leaves, its own frontier the cut. -/
theorem walk_covers : Covers tree
    (· ∈ (tree.collect cap levels path state ⟨start, []⟩).frontier) path state ⟨start, []⟩
    (tree.collect cap levels path state ⟨start, []⟩) :=
  collect_covers deep (fun _ nothing => absurd nothing List.not_mem_nil) fun _ _ _ => Iff.rfl

/-- What a walk without a budget takes. -/
theorem walk_unbounded (node : List ν) :
    node ∈ (tree.collect none levels path state ⟨start, []⟩).out ↔
      node ∈ start ∨ tree.Meets (fun _ => False) path state node := by
  have covers : Covers tree (fun _ => False) path state ⟨start, []⟩
      (tree.collect none levels path state ⟨start, []⟩) := by
    refine collect_covers deep (fun _ nothing => absurd nothing List.not_mem_nil) fun _ _ _ => ?_
    rw [collect_unbounded]
    exact ⟨False.elim, fun nothing => absurd nothing List.not_mem_nil⟩
  rw [covers.out]
  simp

/-- A walk takes nothing that one without a budget does not. -/
theorem walk_subset : (tree.collect cap levels path state ⟨start, []⟩).out ⊆
    (tree.collect none levels path state ⟨start, []⟩).out := by
  intro node taken
  rw [walk_unbounded deep]
  obtain held | ⟨met, -⟩ := ((walk_covers deep).out node).mp taken
  · exact .inl held
  · exact .inr (met.mono fun _ => False.elim)

/-- What is only taken without a budget is at or below what is left. -/
theorem walk_cut {node : List ν}
    (taken : node ∈ (tree.collect none levels path state ⟨start, []⟩).out)
    (untaken : node ∉ (tree.collect cap levels path state ⟨start, []⟩).out) :
    ∃ edge ∈ (tree.collect cap levels path state ⟨start, []⟩).frontier, edge <+: node := by
  have covers := @walk_covers _ _ _ tree cap path state start levels deep
  obtain held | met := (walk_unbounded deep node).mp taken
  · exact absurd ((covers.out node).mpr (.inl held)) untaken
  · obtain met | ⟨edge, -, left, above⟩ := @Meets.cut_above _ _ tree
      (· ∈ (tree.collect cap levels path state ⟨start, []⟩).frontier) _ _ _ _ met
    · refine ⟨node, ?_, List.prefix_refl _⟩
      by_contra uncut
      exact untaken ((covers.out node).mpr (.inr ⟨met, uncut⟩))
    · exact ⟨edge, left, above⟩

/-- A walk within its budget takes all there is, and leaves nothing. -/
theorem walk_fits {budget : Nat} (within : start.card ≤ budget)
    (clear : ∀ node ∈ start, ¬(path <+: node ∧ path.length < node.length)) :
    (tree.collect (some budget) levels path state ⟨start, []⟩).frontier = [] ↔
      (tree.collect none levels path state ⟨start, []⟩).out.card ≤ budget := by
  have less := @walk_subset _ _ _ tree (some budget) path state start levels deep
  constructor
  · intro nothing
    refine (Finset.card_le_card fun node taken => ?_).trans
      (@collect_within _ _ _ tree path state levels budget ⟨start, []⟩ within)
    by_contra untaken
    obtain ⟨edge, left, -⟩ := walk_cut deep taken untaken
    rw [nothing] at left
    exact absurd left List.not_mem_nil
  · intro fits
    refine List.eq_nil_iff_forall_not_mem.mpr fun edge left => ?_
    have covers := @walk_covers _ _ _ tree (some budget) path state start levels deep
    have met := (covers.frontier edge left).resolve_left List.not_mem_nil
    have taken : edge ∈ (tree.collect none levels path state ⟨start, []⟩).out :=
      (walk_unbounded deep edge).mpr (.inr (met.mono fun _ => False.elim))
    have untaken : edge ∉ (tree.collect (some budget) levels path state ⟨start, []⟩).out := by
      intro inside
      obtain held | ⟨-, uncut⟩ := (covers.out edge).mp inside
      · exact clear edge held met.under
      · exact uncut left
    have spent := (collect_spent left).resolve_left List.not_mem_nil
    have more := Finset.card_lt_card
      ((Finset.ssubset_iff_of_subset less).mpr ⟨edge, taken, untaken⟩)
    omega

end Whole

end Spec

end Tree

end BudgetWalk
