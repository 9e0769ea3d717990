import Metafolder.OrderedTerms

/-!
# Searching the paths of a forest

The walk of a stored forest visits a node once for each of its paths, and hands down what a visit found
out about the path above.  The search of terms hands down how far it got in that path.
-/

namespace Metafolder

namespace Primary

/-! ### The walk -/

/-- A node to be walked below: its path, the state it passes down, its depth. -/
structure WalkFrame (σ : Type) where
  node : Uuid
  path : String
  state : σ
  depth : Nat

/-- The path of a name below a node: a root's is its bare name. -/
def joinPath (depth : Nat) (path : String) (name : TreeName) : String :=
  if depth = 0 then name.display else path ++ "/" ++ name.display

variable {σ τ α : Type}

/-- What a visit does: the state for the node's children, or none to skip them. -/
abbrev Visit (σ α : Type) : Type := σ → Uuid → String → α → α × Option σ

/-- A child is visited, and put on the stack. -/
def visitChild (visit : Visit σ α) (frame : WalkFrame σ) (held : α × List (WalkFrame σ))
    (child : Uuid × TreeName × Int64) : α × List (WalkFrame σ) :=
  let path := joinPath frame.depth frame.path child.2.1
  match visit frame.state child.1 path held.1 with
  | (found, some next) => (found, ⟨child.1, path, next, frame.depth + 1⟩ :: held.2)
  | (found, none) => (found, held.2)

/-- `walk_stored_from`, so many levels above the greatest depth: the nodes put on the stack last are
walked below first. -/
def walkStoredFrom (store : Primary) (field : String) (visit : Visit σ α) :
    Nat → WalkFrame σ → α → Outcome α
  | 0, _, _ => bail s!"TreeRef chain deeper than {maxTreeDepth} in field '{field}'"
  | levels + 1, frame, found => do
      let children ← store.children field frame.node
      let (found, stack) := children.foldl (visitChild visit frame) (found, [])
      stack.foldlM (fun found frame => walkStoredFrom store field visit levels frame found) found

/-- `walk_stored`. -/
def walkStored (store : Primary) (field : String) (start : σ) (visit : Visit σ α) (found : α) :
    Outcome α :=
  walkStoredFrom store field visit maxTreeDepth ⟨Uuid.zero, "", start, 0⟩ found

/-- `path_matches_with`: the nodes with a path that satisfies a predicate, in the order met. -/
def pathMatchesWith (store : Primary) (field : String) (pred : String → Bool) :
    Outcome (List Uuid) :=
  store.walkStored field ()
    (fun _ uuid path matched => (if pred path then matched.insert uuid else matched, some ())) []

/-- `osm_path_matches_with`: the state is how far the scan got, none once every term is taken. -/
def osmPathMatchesWith (tables : CaseTables) (store : Primary) (field : String)
    (terms : List String) : Outcome (List Uuid) :=
  let termsLower := terms.map tables.toLowercase
  store.walkStored field (some {})
    (fun progress uuid path matched =>
      let progress : Option OsmProgress :=
        match progress with
        | none => none
        | some progress =>
            let further := osmAdvance (tables.toLowercase path) termsLower progress
            if further.matched < termsLower.length then some further else none
      (if progress.isNone then matched.insert uuid else matched, some progress)) []

/-! ### The paths of a forest -/

/-- A node below another, and its path by way of it. -/
inductive Reaches (store : Primary) (field : String) : Uuid → String → Nat → Uuid → String → Prop
  | child {node : Uuid} {path : String} {depth : Nat} {children : List (Uuid × TreeName × Int64)}
      {child : Uuid × TreeName × Int64} (read : store.children field node = .ok children)
      (listed : child ∈ children) :
      Reaches store field node path depth child.1 (joinPath depth path child.2.1)
  | further {node : Uuid} {path : String} {depth : Nat} {children : List (Uuid × TreeName × Int64)}
      {child : Uuid × TreeName × Int64} {found : Uuid} {foundPath : String}
      (read : store.children field node = .ok children) (listed : child ∈ children)
      (reaches : Reaches store field child.1 (joinPath depth path child.2.1) (depth + 1) found
        foundPath) :
      Reaches store field node path depth found foundPath

/-- A node of a forest and one of its paths, assembled from the root. -/
def Assembled (store : Primary) (field : String) (uuid : Uuid) (path : String) : Prop :=
  store.Reaches field Uuid.zero "" 0 uuid path

variable {store : Primary} {field : String}

/-! ### Two walks side by side -/

section Twice

variable {one : Visit σ α} {two : Visit τ α} {agree : σ → τ → Nat → String → Prop}

/-- Two frames of one node, whose states agree. -/
structure WalkFrame.Same (agree : σ → τ → Nat → String → Prop) (first : WalkFrame σ)
    (second : WalkFrame τ) : Prop where
  node : first.node = second.node
  path : first.path = second.path
  depth : first.depth = second.depth
  agreed : agree first.state second.state first.depth first.path

/-- Two visits that find the same, and pass down states that agree. -/
def VisitsAgree (agree : σ → τ → Nat → String → Prop) (one : Visit σ α) (two : Visit τ α) : Prop :=
  ∀ {state other depth path}, agree state other depth path → ∀ uuid name found,
    ∃ next further grown, one state uuid (joinPath depth path name) found = (grown, some next) ∧
      two other uuid (joinPath depth path name) found = (grown, some further) ∧
      agree next further (depth + 1) (joinPath depth path name)

/-- The children of a node are visited alike. -/
theorem foldl_visitChild_same (visits : VisitsAgree agree one two) {first : WalkFrame σ}
    {second : WalkFrame τ} (same : first.Same agree second)
    (children : List (Uuid × TreeName × Int64)) (held : α × List (WalkFrame σ))
    {stack : List (WalkFrame τ)} (piled : List.Forall₂ (WalkFrame.Same agree) held.2 stack) :
    (children.foldl (visitChild one first) held).1 =
        (children.foldl (visitChild two second) (held.1, stack)).1 ∧
      List.Forall₂ (WalkFrame.Same agree) (children.foldl (visitChild one first) held).2
        (children.foldl (visitChild two second) (held.1, stack)).2 := by
  induction children generalizing held stack with
  | nil => exact ⟨rfl, piled⟩
  | cons child rest ih =>
      obtain ⟨next, further, found, ranOne, ranTwo, follow⟩ :=
        visits same.agreed child.1 child.2.1 held.1
      rw [List.foldl_cons, List.foldl_cons, visitChild, visitChild, ← same.depth, ← same.path,
        ranOne, ranTwo]
      exact ih _ (.cons ⟨rfl, rfl, rfl, follow⟩ piled)

/-- Stacks of such frames are walked alike. -/
theorem foldlM_same {walkOne : α → WalkFrame σ → Outcome α} {walkTwo : α → WalkFrame τ → Outcome α}
    (walks : ∀ {first second}, WalkFrame.Same agree first second →
      ∀ found, walkOne found first = walkTwo found second)
    {frames : List (WalkFrame σ)} {others : List (WalkFrame τ)}
    (same : List.Forall₂ (WalkFrame.Same agree) frames others) (found : α) :
    frames.foldlM walkOne found = others.foldlM walkTwo found := by
  induction same generalizing found with
  | nil => rfl
  | cons held _ ih =>
      rw [List.foldlM_cons, List.foldlM_cons, walks held]
      exact bind_congr fun found => ih found

/-- Two visits that find the same at every node make the same walk. -/
theorem walkStoredFrom_congr (visits : VisitsAgree agree one two) (levels : Nat)
    {first : WalkFrame σ} {second : WalkFrame τ} (same : first.Same agree second) (found : α) :
    store.walkStoredFrom field one levels first found =
      store.walkStoredFrom field two levels second found := by
  induction levels generalizing first second found with
  | zero => rfl
  | succ levels ih =>
      rw [walkStoredFrom, walkStoredFrom, same.node]
      refine bind_congr fun children => ?_
      obtain ⟨sameFound, piled⟩ :=
        foldl_visitChild_same visits same children (found, []) (@List.Forall₂.nil _ _ (WalkFrame.Same agree))
      change List.foldlM _ _ _ = List.foldlM _ _ _
      rw [sameFound]
      exact foldlM_same (fun held found => ih held found) piled _

end Twice

/-! ### What a walk finds -/

/-- The visit of `path_matches_with`. -/
def matchVisit (pred : String → Bool) : Visit Unit (List Uuid) := fun _ uuid path matched =>
  (if pred path then matched.insert uuid else matched, some ())

theorem mem_matchVisit {pred : String → Bool} {uuid other : Uuid} {path : String}
    {matched : List Uuid} : other ∈ (matchVisit pred () uuid path matched).1 ↔
      other ∈ matched ∨ other = uuid ∧ pred path := by
  rw [matchVisit]
  cases pred path with
  | true => simp [List.mem_insert_iff, or_comm]
  | false => simp

/-- The children of a node, visited and put on the stack. -/
theorem mem_foldl_matchVisit {pred : String → Bool} {frame : WalkFrame Unit}
    {children : List (Uuid × TreeName × Int64)} {held : List Uuid × List (WalkFrame Unit)}
    {other : Uuid} {next : WalkFrame Unit} :
    (other ∈ (children.foldl (visitChild (matchVisit pred) frame) held).1 ↔
      other ∈ held.1 ∨ ∃ child ∈ children, other = child.1 ∧
        pred (joinPath frame.depth frame.path child.2.1)) ∧
    (next ∈ (children.foldl (visitChild (matchVisit pred) frame) held).2 ↔
      next ∈ held.2 ∨ ∃ child ∈ children,
        next = ⟨child.1, joinPath frame.depth frame.path child.2.1, (), frame.depth + 1⟩) := by
  induction children generalizing held with
  | nil => simp
  | cons child rest ih =>
      rw [List.foldl_cons, ih.1, ih.2]
      constructor
      · change other ∈ (matchVisit pred () child.1 _ held.1).1 ∨ _ ↔ _
        simp only [mem_matchVisit, List.mem_cons, exists_eq_or_imp, or_assoc]
      · change next ∈ _ :: held.2 ∨ _ ↔ _
        simp only [List.mem_cons, exists_eq_or_imp, or_left_comm, or_assoc]

/-- A node reached is a child, or reached from one. -/
theorem reaches_iff {node found : Uuid} {path foundPath : String} {depth : Nat}
    {children : List (Uuid × TreeName × Int64)} (read : store.children field node = .ok children) :
    store.Reaches field node path depth found foundPath ↔ ∃ child ∈ children,
      (found = child.1 ∧ foundPath = joinPath depth path child.2.1) ∨
        store.Reaches field child.1 (joinPath depth path child.2.1) (depth + 1) found foundPath := by
  constructor
  · intro reaches
    cases reaches with
    | child again listed =>
        obtain rfl := Except.ok.inj (again.symm.trans read)
        exact ⟨_, listed, .inl ⟨rfl, rfl⟩⟩
    | further again listed reaches =>
        obtain rfl := Except.ok.inj (again.symm.trans read)
        exact ⟨_, listed, .inr reaches⟩
  · rintro ⟨child, listed, ⟨rfl, rfl⟩ | reaches⟩
    · exact .child read listed
    · exact .further read listed reaches

/-- The walk of `path_matches_with` finds the nodes below with a path that satisfies the predicate. -/
theorem mem_walkStoredFrom {pred : String → Bool} {levels : Nat} {frame : WalkFrame Unit}
    {found after : List Uuid}
    (ran : store.walkStoredFrom field (matchVisit pred) levels frame found = .ok after)
    {other : Uuid} : other ∈ after ↔ other ∈ found ∨ ∃ path,
      store.Reaches field frame.node frame.path frame.depth other path ∧ pred path := by
  induction levels generalizing frame found after with
  | zero => cases ran
  | succ levels ih =>
      rw [walkStoredFrom] at ran
      obtain ⟨children, read, ran⟩ := Except.bind_eq_ok.mp ran
      have visited := @mem_foldl_matchVisit pred frame children (found, []) other
      generalize children.foldl (visitChild (matchVisit pred) frame) (found, []) = held at ran visited
      obtain ⟨start, stack⟩ := held
      -- What the frames of the stack find, one after the other.
      have walked : ∀ {stack : List (WalkFrame Unit)} {start after : List Uuid},
          stack.foldlM (fun found frame =>
            store.walkStoredFrom field (matchVisit pred) levels frame found) start = .ok after →
          (other ∈ after ↔ other ∈ start ∨ ∃ next ∈ stack, ∃ path,
            store.Reaches field next.node next.path next.depth other path ∧ pred path) := by
        intro stack
        induction stack with
        | nil =>
            intro start after same
            obtain rfl := Except.ok.inj same
            simp
        | cons next rest step =>
            intro start after ran
            rw [List.foldlM_cons] at ran
            obtain ⟨middle, first, ran⟩ := Except.bind_eq_ok.mp ran
            rw [step ran, ih first]
            simp only [List.mem_cons, exists_eq_or_imp, or_assoc]
      rw [walked ran, (@visited frame).1]
      have piled (next : WalkFrame Unit) := (@visited next).2
      simp only [List.not_mem_nil, false_or] at piled
      simp only [piled, reaches_iff read]
      constructor
      · rintro ((old | ⟨child, listed, rfl, fits⟩) | ⟨_, ⟨child, listed, rfl⟩, path, reaches, fits⟩)
        · exact .inl old
        · exact .inr ⟨_, ⟨child, listed, .inl ⟨rfl, rfl⟩⟩, fits⟩
        · exact .inr ⟨path, ⟨child, listed, .inr reaches⟩, fits⟩
      · rintro (old | ⟨path, ⟨child, listed, ⟨rfl, rfl⟩ | reaches⟩, fits⟩)
        · exact .inl (.inl old)
        · exact .inl (.inr ⟨child, listed, rfl, fits⟩)
        · exact .inr ⟨_, ⟨child, listed, rfl⟩, path, reaches, fits⟩

theorem mem_pathMatchesWith {pred : String → Bool} {matched : List Uuid}
    (ran : store.pathMatchesWith field pred = .ok matched) {uuid : Uuid} :
    uuid ∈ matched ↔ ∃ path, store.Assembled field uuid path ∧ pred path := by
  rw [pathMatchesWith] at ran
  rw [mem_walkStoredFrom ran]
  exact or_iff_right List.not_mem_nil

/-! ### The search of terms -/

section Terms

variable {tables : CaseTables} {terms : List String}

/-- What the search hands down from a node: how far the scan got in its path. -/
def handedDown (tables : CaseTables) (terms : List String) (depth : Nat) (path : String) :
    Option OsmProgress :=
  let progress := osmAdvance (tables.toLowercase path) (terms.map tables.toLowercase) {}
  if depth = 0 then some {}
  else if progress.matched < terms.length then some progress
  else none

/-- The scan of a path goes on from the one above. -/
theorem handedDown_join (depth : Nat) (path : String) (name : TreeName) :
    (match handedDown tables terms depth path with
      | none => none
      | some progress =>
          let further := osmAdvance (tables.toLowercase (joinPath depth path name))
            (terms.map tables.toLowercase) progress
          if further.matched < (terms.map tables.toLowercase).length then some further else none) =
      handedDown tables terms (depth + 1) (joinPath depth path name) := by
  rw [List.length_map]
  cases depth with
  | zero => rfl
  | succ depth =>
      have resumed := osmAdvance_resume (tables.toLowercase path)
        ('/' :: tables.toLowercase name.display) (terms.map tables.toLowercase)
      rw [← CaseTables.toLowercase_join] at resumed
      rw [handedDown, handedDown, if_neg (Nat.succ_ne_zero _), if_neg (Nat.succ_ne_zero _), joinPath,
        if_neg (Nat.succ_ne_zero _)]
      dsimp only
      split
      · next progress held =>
        split at held
        · cases held
        · next all =>
          have most := @osmAdvance_matched_le (tables.toLowercase path)
            (terms.map tables.toLowercase)
          rw [List.length_map] at most
          have full : (terms.map tables.toLowercase).drop (osmAdvance (tables.toLowercase path)
              (terms.map tables.toLowercase) {}).matched = [] := by
            rw [List.drop_eq_nil_iff, List.length_map]
            omega
          rw [← resumed, osmAdvance_of_drop full, advanceOver, if_neg all]
      · next progress held =>
        split at held
        · obtain rfl := Option.some.inj held
          rw [resumed]
        · cases held

theorem osmOrderedMatch_eq (depth : Nat) (path : String) :
    tables.osmOrderedMatch (tables.toLowercase path) terms =
      (handedDown tables terms (depth + 1) path).isNone := by
  have most := @osmAdvance_matched_le (tables.toLowercase path) (terms.map tables.toLowercase)
  rw [List.length_map] at most
  rw [handedDown, if_neg (Nat.succ_ne_zero _), CaseTables.osmOrderedMatch]
  rcases most.lt_or_eq with some_left | full
  · rw [if_pos some_left, decide_eq_false some_left.ne]
    rfl
  · rw [if_neg full.not_lt, decide_eq_true full]
    rfl

/-- The search of terms finds the nodes with a path that holds them, as a scan of each path would. -/
theorem osmPathMatchesWith_eq (tables : CaseTables) (store : Primary) (field : String)
    (terms : List String) : store.osmPathMatchesWith tables field terms =
      store.pathMatchesWith field fun path =>
        tables.osmOrderedMatch (tables.toLowercase path) terms := by
  let agree (state : Option OsmProgress) (_ : Unit) (depth : Nat) (path : String) : Prop :=
    state = handedDown tables terms depth path
  have start : WalkFrame.Same agree ⟨Uuid.zero, "", some {}, 0⟩ ⟨Uuid.zero, "", (), 0⟩ :=
    ⟨rfl, rfl, rfl, rfl⟩
  refine walkStoredFrom_congr (fun {state other depth path} agreed uuid name found => ?_)
    maxTreeDepth start []
  obtain rfl := agreed
  refine ⟨_, (), _, rfl, ?_, handedDown_join depth path name⟩
  rw [handedDown_join]
  simp only [osmOrderedMatch_eq depth]

end Terms

end Primary
end Metafolder
