import Metafolder.FsEvents

/-!
# Compaction by indices

The indices that `compact` keeps name the events it has kept: what they find last is what a scan of
the events finds, so that it returns what the scanning version returns.
-/

namespace Metafolder

/-! ### Scanning -/

/-- `rposition`: the last place whose entry meets a condition. -/
def rposition {α : Type} (meets : α → Bool) : List α → Option Nat
  | [] => none
  | entry :: rest =>
      match rposition meets rest with
      | some i => some (i + 1)
      | none => if meets entry then some 0 else none

theorem not_met_of_rposition_none {α : Type} {meets : α → Bool} {entries : List α}
    (none_found : rposition meets entries = none) (i : Nat) : ¬entries[i]?.any meets := by
  induction entries generalizing i with
  | nil => simp
  | cons entry rest ih =>
      rw [rposition] at none_found
      cases later : rposition meets rest with
      | some k => simp [later] at none_found
      | none =>
          cases i with
          | zero => simpa [later] using none_found
          | succ i => simpa using ih later i

theorem met_of_rposition_some {α : Type} {meets : α → Bool} {entries : List α} {i : Nat}
    (found : rposition meets entries = some i) :
    entries[i]?.any meets ∧ ∀ j, entries[j]?.any meets → j ≤ i := by
  induction entries generalizing i with
  | nil => simp [rposition] at found
  | cons entry rest ih =>
      rw [rposition] at found
      cases later : rposition meets rest with
      | some k =>
          obtain rfl : k + 1 = i := by simpa [later] using found
          obtain ⟨met, latest⟩ := ih later
          refine ⟨by simpa using met, fun j metToo => ?_⟩
          cases j with
          | zero => omega
          | succ j =>
              have := latest j (by simpa using metToo)
              omega
      | none =>
          obtain ⟨met, rfl⟩ : meets entry ∧ 0 = i := by simpa [later] using found
          refine ⟨by simpa using met, fun j metToo => ?_⟩
          cases j with
          | zero => exact Nat.le_refl 0
          | succ j => exact absurd (by simpa using metToo) (not_met_of_rposition_none later j)

/-! ### The roles of a path -/

namespace FsEvent

/-- The path a creation names. -/
def created : FsEvent → Option RelPath
  | create path => some path
  | _ => none

/-- The path a departure names. -/
def departed : FsEvent → Option RelPath
  | renameFrom path => some path
  | _ => none

/-- The path an arrival names. -/
def arrived : FsEvent → Option RelPath
  | renameTo path => some path
  | _ => none

/-- The target of a rename. -/
def target : FsEvent → Option RelPath
  | rename _ target => some target
  | _ => none

/-- The source of a rename. -/
def source : FsEvent → Option RelPath
  | rename source _ => some source
  | _ => none

/-- The path whose content changed. -/
def rewritten : FsEvent → Option RelPath
  | modifyData path => some path
  | _ => none

/-- The path whose attributes changed. -/
def restyled : FsEvent → Option RelPath
  | modifyMeta path => some path
  | _ => none

end FsEvent

/-! ### Compaction by scans -/

/-- `find_last`: the last event kept that meets a condition. -/
def findLast (out : List (Option FsEvent)) (pred : FsEvent → Bool) : Option Nat :=
  rposition (fun slot => slot.any pred) out

namespace Reference

/-- The last event of one role under a path is dropped. -/
def drop (out : List (Option FsEvent)) (role : FsEvent → Option RelPath) (path : RelPath) :
    List (Option FsEvent) :=
  match findLast out fun event => role event = some path with
  | some i => out.set i none
  | none => out

/-- A rename whose halves are absorbed. -/
def rename (out : List (Option FsEvent)) (source target : RelPath) : List (Option FsEvent) :=
  match findLast out fun event => event.created = some source with
  | some i => out.set i (some (.create target))
  | none =>
      -- Not when a rename still to be applied starts from the target.
      match (findLast out fun event => event.target = some source).filter fun i =>
          !(out.drop (i + 1)).any fun slot => slot.any fun event => event.source = some target with
      | none => out ++ [some (.rename source target)]
      | some i =>
          match (out[i]?).join with
          | some (.rename first _) => out.set i (some (.rename first target))
          | _ => out ++ [some (.rename source target)]

/-- One event of the batch. -/
def step (out : List (Option FsEvent)) : FsEvent → List (Option FsEvent)
  | .remove path =>
      match findLast out fun event => event.created = some path with
      | some i => out.set i none
      | none => out ++ [some (.remove path)]
  | .rename source target =>
      rename (drop (drop out FsEvent.departed source) FsEvent.arrived target) source target
  | .modifyData path =>
      if (findLast out fun event =>
          event.created = some path || event.rewritten = some path).isSome then out
      else out ++ [some (.modifyData path)]
  | .modifyMeta path =>
      if (findLast out fun event =>
          event.created = some path || event.restyled = some path).isSome then out
      else out ++ [some (.modifyMeta path)]
  | other => out ++ [some other]

end Reference

/-- `compact_reference`: the compaction that scans the events kept at every step. -/
def compactReference (events : List FsEvent) : List FsEvent :=
  (events.foldl Reference.step []).filterMap id

/-! ### Indices -/

/-- The path the event at a place names in a role. -/
def named (role : FsEvent → Option RelPath) (out : List (Option FsEvent)) (i : Nat) :
    Option RelPath :=
  (out[i]?).join.bind role

/-- An index holds the places of the events that name each path in its role. -/
def Indexes (role : FsEvent → Option RelPath) (out : List (Option FsEvent)) (index : PathIndex) :
    Prop :=
  ∀ path i, i ∈ index path ↔ named role out i = some path

section Indexes

variable {role : FsEvent → Option RelPath} {out : List (Option FsEvent)} {index : PathIndex}
  {path : RelPath} {i : Nat}

theorem named_append (event : FsEvent) :
    named role (out ++ [some event]) i =
      if i = out.length then role event else named role out i := by
  unfold named
  rcases Nat.lt_trichotomy i out.length with before | rfl | after
  · rw [List.getElem?_append_left before, if_neg (by omega)]
  · simp
  · rw [List.getElem?_eq_none (by simp; omega), List.getElem?_eq_none (by omega),
      if_neg (by omega)]

theorem lt_of_named (here : named role out i = some path) : i < out.length := by
  rcases Nat.lt_or_ge i out.length with inside | outside
  · exact inside
  · simp [named, List.getElem?_eq_none outside] at here

theorem named_set (inside : i < out.length) (slot : Option FsEvent) (j : Nat) :
    named role (out.set i slot) j = if j = i then slot.bind role else named role out j := by
  unfold named
  by_cases same : j = i
  · subst same
    simp [inside]
  · rw [List.getElem?_set_ne (by omega), if_neg same]

theorem any_eq_named (role : FsEvent → Option RelPath) (path : RelPath)
    (slots : List (Option FsEvent)) (j : Nat) :
    (slots[j]?.any fun slot => slot.any fun event => role event = some path) =
      decide (named role slots j = some path) := by
  unfold named
  rcases slots[j]? with _ | _ | event <;> simp

namespace Indexes

/-- What an index finds last, a scan finds last. -/
theorem last_eq (keeps : Indexes role out index) (path : RelPath) :
    index.last path = findLast out fun event => role event = some path := by
  unfold findLast PathIndex.last
  cases found : rposition (fun slot : Option FsEvent =>
      slot.any fun event => role event = some path) out with
  | none =>
      have absent := not_met_of_rposition_none found
      simp only [any_eq_named, decide_eq_true_eq] at absent
      rw [List.max?_eq_none_iff, List.eq_nil_iff_forall_not_mem]
      exact fun j listed => absent j ((keeps path j).mp listed)
  | some i =>
      obtain ⟨here, latest⟩ := met_of_rposition_some found
      simp only [any_eq_named, decide_eq_true_eq] at here latest
      rw [List.max?_eq_some_iff]
      exact ⟨(keeps path i).mpr here, fun j listed => latest j ((keeps path j).mp listed)⟩

theorem named_of_last (keeps : Indexes role out index) (found : index.last path = some i) :
    named role out i = some path := by
  rw [PathIndex.last, List.max?_eq_some_iff] at found
  exact (keeps path i).mp found.1

theorem any_iff (keeps : Indexes role out index) (path : RelPath) :
    index.any path = true ↔ ∃ j, named role out j = some path := by
  rw [PathIndex.any, Bool.not_eq_true', List.isEmpty_eq_false_iff_exists_mem]
  exact exists_congr fun j => keeps path j

/-- An event kept that has no path in the role. -/
theorem push (keeps : Indexes role out index) {event : FsEvent} (none_named : role event = none) :
    Indexes role (out ++ [some event]) index := by
  intro path i
  rw [keeps path i, named_append, none_named]
  split
  · next last =>
      subst last
      simp [named]
  · exact Iff.rfl

/-- An event kept and registered. -/
theorem push_insert (keeps : Indexes role out index) {event : FsEvent}
    (here : role event = some path) :
    Indexes role (out ++ [some event]) (index.insert path out.length) := by
  intro other i
  rw [named_append, here, PathIndex.insert, Function.update_apply]
  have before := keeps other i
  have inside (listed : named role out i = some other) : i < out.length := lt_of_named listed
  split
  · next same =>
      subst same
      split
      · next last => simp [last]
      · next elsewhere => simp [elsewhere, before]
  · next differs =>
      rw [before]
      split
      · next last =>
          subst last
          constructor
          · exact fun listed => absurd (inside listed) (by omega)
          · exact fun same => absurd (Option.some.inj same).symm differs
      · exact Iff.rfl

/-- A place whose path in the role stays what it was. -/
theorem set_same (keeps : Indexes role out index) (inside : i < out.length)
    {slot : Option FsEvent} (same : slot.bind role = named role out i) :
    Indexes role (out.set i slot) index := by
  intro path j
  rw [keeps path j, named_set inside]
  split
  · next here => rw [here, same]
  · exact Iff.rfl

/-- A place emptied and unregistered. -/
theorem clear (keeps : Indexes role out index) (here : named role out i = some path)
    {slot : Option FsEvent} (gone : slot.bind role = none) :
    Indexes role (out.set i slot) (index.unregister path i) := by
  intro other j
  rw [named_set (lt_of_named here), gone, PathIndex.unregister, Function.update_apply]
  have before := keeps other j
  split
  · next same =>
      subst same
      by_cases emptied : j = i
      · simp [emptied]
      · simp [emptied, before]
  · next differs =>
      rw [before]
      split
      · next emptied =>
          subst emptied
          simp [here, Ne.symm differs]
      · exact Iff.rfl

/-- A place registered under another path. -/
theorem retarget (keeps : Indexes role out index) (here : named role out i = some path)
    {slot : Option FsEvent} {target : RelPath} (there : slot.bind role = some target) :
    Indexes role (out.set i slot) ((index.unregister path i).insert target i) := by
  have inside := lt_of_named here
  have cleared : Indexes role (out.set i none) (index.unregister path i) := keeps.clear here rfl
  intro other j
  have before := cleared other j
  rw [named_set inside] at before
  rw [named_set inside, there, PathIndex.insert, Function.update_apply]
  split
  · next same =>
      subst same
      by_cases moved : j = i
      · simp [moved]
      · simpa [moved] using before
  · next differs =>
      rw [before]
      split
      · simp [Ne.symm differs]
      · exact Iff.rfl

/-- Whether a rename still to be applied starts from a path. -/
theorem all_last_le_iff (keeps : Indexes role out index) (path : RelPath) (i : Nat) :
    (index.last path).all (· ≤ i) =
      !(out.drop (i + 1)).any fun slot => slot.any fun event => role event = some path := by
  rw [Bool.eq_iff_iff, Bool.not_eq_true', List.any_eq_false]
  constructor
  · intro none_later slot listed
    obtain ⟨j, inside, rfl⟩ := List.mem_iff_getElem.mp listed
    rw [List.getElem_drop]
    intro met
    have later : named role out (i + 1 + j) = some path := by
      have := any_eq_named role path out (i + 1 + j)
      rw [List.length_drop] at inside
      rw [List.getElem?_eq_getElem (by omega), Option.any_some, met] at this
      simpa using this.symm
    have listedToo := (keeps path _).mpr later
    obtain ⟨last, isLast⟩ : ∃ last, index.last path = some last :=
      Option.isSome_iff_exists.mp (List.isSome_max?_of_mem listedToo)
    have before : last ≤ i := by simpa [isLast] using none_later
    have := (List.max?_eq_some_iff.mp isLast).2 _ listedToo
    omega
  · intro none_later
    cases isLast : index.last path with
    | none => rfl
    | some last =>
        have here := keeps.named_of_last isLast
        have inside := lt_of_named here
        simp only [Option.all_some, decide_eq_true_eq]
        by_contra after
        have listed : out[last] ∈ out.drop (i + 1) := by
          rw [List.mem_iff_getElem]
          exact ⟨last - (i + 1), by simp; omega, by simp; congr 1; omega⟩
        have met := any_eq_named role path out last
        rw [List.getElem?_eq_getElem inside, Option.any_some, here] at met
        exact none_later _ listed (by simpa using met)

end Indexes

end Indexes

/-! ### The indices of a compaction -/

/-- Every index holds the places its role gives it. -/
structure Synced (held : Compaction) : Prop where
  create : Indexes FsEvent.created held.out held.create
  renameFrom : Indexes FsEvent.departed held.out held.renameFrom
  renameTo : Indexes FsEvent.arrived held.out held.renameTo
  renameByTo : Indexes FsEvent.target held.out held.renameByTo
  renameByFrom : Indexes FsEvent.source held.out held.renameByFrom
  modifyData : Indexes FsEvent.rewritten held.out held.modifyData
  modifyMeta : Indexes FsEvent.restyled held.out held.modifyMeta

/-- The place of an event that names a path in a role holds that event. -/
theorem exists_of_named {role : FsEvent → Option RelPath} {out : List (Option FsEvent)} {i : Nat}
    {path : RelPath} (here : named role out i = some path) :
    ∃ event, (out[i]?).join = some event ∧ role event = some path := by
  unfold named at here
  exact Option.bind_eq_some_iff.mp here

/-- A place whose event is replaced by one that names the same path in the role, or none. -/
theorem Indexes.replace {role : FsEvent → Option RelPath} {out : List (Option FsEvent)}
    {index : PathIndex} (keeps : Indexes role out index) {i : Nat} {event : FsEvent}
    (held : (out[i]?).join = some event) {slot : Option FsEvent}
    (same : slot.bind role = role event) : Indexes role (out.set i slot) index := by
  have inside : i < out.length := by
    rcases Nat.lt_or_ge i out.length with inside | outside
    · exact inside
    · simp [List.getElem?_eq_none outside] at held
  exact keeps.set_same inside (by simp [named, held, same])

/-- Two indices find a path exactly when a scan for either role does. -/
theorem Indexes.any_or_any {role other : FsEvent → Option RelPath} {index otherIndex : PathIndex}
    {out : List (Option FsEvent)} (keeps : Indexes role out index)
    (keepsOther : Indexes other out otherIndex) (path : RelPath) :
    (index.any path || otherIndex.any path) =
      (findLast out fun event => role event = some path || other event = some path).isSome := by
  have either (j : Nat) : (out[j]?.any fun slot => slot.any fun event =>
      decide (role event = some path) || decide (other event = some path)) ↔
      named role out j = some path ∨ named other out j = some path := by
    unfold named
    rcases out[j]? with _ | _ | event <;> simp
  rw [Bool.eq_iff_iff, Bool.or_eq_true, keeps.any_iff, keepsOther.any_iff, ← exists_or]
  unfold findLast
  cases found : rposition _ out with
  | none =>
      have absent := not_met_of_rposition_none found
      simp only [either] at absent
      simpa using absent
  | some i =>
      have here := (met_of_rposition_some found).1
      rw [either] at here
      simpa using ⟨i, here⟩

namespace FsEvent

theorem created_eq_some {event : FsEvent} {path : RelPath} (here : event.created = some path) :
    event = create path := by
  cases event <;> simp_all [created]

theorem departed_eq_some {event : FsEvent} {path : RelPath} (here : event.departed = some path) :
    event = renameFrom path := by
  cases event <;> simp_all [departed]

theorem arrived_eq_some {event : FsEvent} {path : RelPath} (here : event.arrived = some path) :
    event = renameTo path := by
  cases event <;> simp_all [arrived]

theorem target_eq_some {event : FsEvent} {path : RelPath} (here : event.target = some path) :
    ∃ source, event = rename source path := by
  cases event <;> simp_all [target]

end FsEvent

namespace Synced

variable {held : Compaction}

/-- A departure absorbed. -/
theorem departure (synced : Synced held) {path : RelPath} {i : Nat}
    (found : held.renameFrom.last path = some i) :
    Synced { held with
      out := held.out.set i none, renameFrom := held.renameFrom.unregister path i } := by
  have here := synced.renameFrom.named_of_last found
  obtain ⟨event, kept, departed⟩ := exists_of_named here
  obtain rfl := FsEvent.departed_eq_some departed
  exact {
    create := synced.create.replace kept rfl
    renameFrom := synced.renameFrom.clear here rfl
    renameTo := synced.renameTo.replace kept rfl
    renameByTo := synced.renameByTo.replace kept rfl
    renameByFrom := synced.renameByFrom.replace kept rfl
    modifyData := synced.modifyData.replace kept rfl
    modifyMeta := synced.modifyMeta.replace kept rfl }

/-- An arrival absorbed. -/
theorem arrival (synced : Synced held) {path : RelPath} {i : Nat}
    (found : held.renameTo.last path = some i) :
    Synced { held with
      out := held.out.set i none, renameTo := held.renameTo.unregister path i } := by
  have here := synced.renameTo.named_of_last found
  obtain ⟨event, kept, arrived⟩ := exists_of_named here
  obtain rfl := FsEvent.arrived_eq_some arrived
  exact {
    create := synced.create.replace kept rfl
    renameFrom := synced.renameFrom.replace kept rfl
    renameTo := synced.renameTo.clear here rfl
    renameByTo := synced.renameByTo.replace kept rfl
    renameByFrom := synced.renameByFrom.replace kept rfl
    modifyData := synced.modifyData.replace kept rfl
    modifyMeta := synced.modifyMeta.replace kept rfl }

/-- A creation undone by the removal of what it created. -/
theorem removal (synced : Synced held) {path : RelPath} {i : Nat}
    (found : held.create.last path = some i) :
    Synced { held with out := held.out.set i none, create := held.create.unregister path i } := by
  have here := synced.create.named_of_last found
  obtain ⟨event, kept, created⟩ := exists_of_named here
  obtain rfl := FsEvent.created_eq_some created
  exact {
    create := synced.create.clear here rfl
    renameFrom := synced.renameFrom.replace kept rfl
    renameTo := synced.renameTo.replace kept rfl
    renameByTo := synced.renameByTo.replace kept rfl
    renameByFrom := synced.renameByFrom.replace kept rfl
    modifyData := synced.modifyData.replace kept rfl
    modifyMeta := synced.modifyMeta.replace kept rfl }

/-- A creation renamed. -/
theorem renamedCreation (synced : Synced held) {path : RelPath} {i : Nat} (target : RelPath)
    (found : held.create.last path = some i) :
    Synced { held with
      out := held.out.set i (some (.create target))
      create := (held.create.unregister path i).insert target i } := by
  have here := synced.create.named_of_last found
  obtain ⟨event, kept, created⟩ := exists_of_named here
  obtain rfl := FsEvent.created_eq_some created
  exact {
    create := synced.create.retarget here rfl
    renameFrom := synced.renameFrom.replace kept rfl
    renameTo := synced.renameTo.replace kept rfl
    renameByTo := synced.renameByTo.replace kept rfl
    renameByFrom := synced.renameByFrom.replace kept rfl
    modifyData := synced.modifyData.replace kept rfl
    modifyMeta := synced.modifyMeta.replace kept rfl }

/-- A rename prolonged. -/
theorem prolonged (synced : Synced held) {path first : RelPath} {i : Nat} (target : RelPath)
    (here : (held.out[i]?).join = some (.rename first path)) :
    Synced { held with
      out := held.out.set i (some (.rename first target))
      renameByTo := (held.renameByTo.unregister path i).insert target i } where
  create := synced.create.replace here rfl
  renameFrom := synced.renameFrom.replace here rfl
  renameTo := synced.renameTo.replace here rfl
  renameByTo := synced.renameByTo.retarget (by simp [named, here, FsEvent.target]) rfl
  renameByFrom := synced.renameByFrom.replace here rfl
  modifyData := synced.modifyData.replace here rfl
  modifyMeta := synced.modifyMeta.replace here rfl

/-- A rename kept. -/
theorem kept (synced : Synced held) (source target : RelPath) :
    Synced { held with
      renameByTo := held.renameByTo.insert target held.out.length
      renameByFrom := held.renameByFrom.insert source held.out.length
      out := held.out ++ [some (.rename source target)] } where
  create := synced.create.push rfl
  renameFrom := synced.renameFrom.push rfl
  renameTo := synced.renameTo.push rfl
  renameByTo := synced.renameByTo.push_insert rfl
  renameByFrom := synced.renameByFrom.push_insert rfl
  modifyData := synced.modifyData.push rfl
  modifyMeta := synced.modifyMeta.push rfl

/-- The arrival absorbed, once the departure has been. -/
theorem arrivalOf (synced : Synced held) (target : RelPath) :
    Synced (match held.renameTo.last target with
      | some i =>
          { held with out := held.out.set i none, renameTo := held.renameTo.unregister target i }
      | none => held) ∧
      (match held.renameTo.last target with
      | some i =>
          { held with out := held.out.set i none, renameTo := held.renameTo.unregister target i }
      | none => held).out = Reference.drop held.out FsEvent.arrived target := by
  rw [Reference.drop, ← synced.renameTo.last_eq]
  cases found : held.renameTo.last target with
  | none => exact ⟨synced, rfl⟩
  | some i => exact ⟨synced.arrival found, rfl⟩

theorem absorb (synced : Synced held) (source target : RelPath) :
    Synced (held.absorb source target) ∧
      (held.absorb source target).out =
        Reference.drop (Reference.drop held.out FsEvent.departed source) FsEvent.arrived
          target := by
  rw [Reference.drop.eq_1 held.out, ← synced.renameFrom.last_eq, Compaction.absorb]
  cases found : held.renameFrom.last source with
  | none => exact synced.arrivalOf target
  | some i => exact (synced.departure found).arrivalOf target

theorem rename (synced : Synced held) (source target : RelPath) :
    Synced (held.rename source target) ∧
      (held.rename source target).out = Reference.rename held.out source target := by
  rw [Compaction.rename, Reference.rename, ← synced.create.last_eq, ← synced.renameByTo.last_eq]
  simp only [synced.renameByFrom.all_last_le_iff]
  cases found : held.create.last source with
  | some i => exact ⟨synced.renamedCreation target found, rfl⟩
  | none =>
      dsimp only
      generalize isChain : Option.filter _ (held.renameByTo.last source) = chain
      cases chain with
      | none => exact ⟨synced.kept source target, rfl⟩
      | some i =>
          have here := synced.renameByTo.named_of_last (Option.filter_eq_some_iff.mp isChain).1
          obtain ⟨event, present, isTarget⟩ := exists_of_named here
          obtain ⟨first, rfl⟩ := FsEvent.target_eq_some isTarget
          simp only [present, and_true]
          exact synced.prolonged target present

/-- A change of content kept. -/
theorem pushData (synced : Synced held) (path : RelPath) :
    Synced ({ held with
      modifyData := held.modifyData.insert path held.out.length }.push (.modifyData path)) where
  create := synced.create.push rfl
  renameFrom := synced.renameFrom.push rfl
  renameTo := synced.renameTo.push rfl
  renameByTo := synced.renameByTo.push rfl
  renameByFrom := synced.renameByFrom.push rfl
  modifyData := synced.modifyData.push_insert rfl
  modifyMeta := synced.modifyMeta.push rfl

/-- A change of attributes kept. -/
theorem pushMeta (synced : Synced held) (path : RelPath) :
    Synced ({ held with
      modifyMeta := held.modifyMeta.insert path held.out.length }.push (.modifyMeta path)) where
  create := synced.create.push rfl
  renameFrom := synced.renameFrom.push rfl
  renameTo := synced.renameTo.push rfl
  renameByTo := synced.renameByTo.push rfl
  renameByFrom := synced.renameByFrom.push rfl
  modifyData := synced.modifyData.push rfl
  modifyMeta := synced.modifyMeta.push_insert rfl

/-- A removal kept. -/
theorem pushRemove (synced : Synced held) (path : RelPath) :
    Synced (held.push (.remove path)) where
  create := synced.create.push rfl
  renameFrom := synced.renameFrom.push rfl
  renameTo := synced.renameTo.push rfl
  renameByTo := synced.renameByTo.push rfl
  renameByFrom := synced.renameByFrom.push rfl
  modifyData := synced.modifyData.push rfl
  modifyMeta := synced.modifyMeta.push rfl

theorem step (synced : Synced held) (event : FsEvent) :
    Synced (held.step event) ∧ (held.step event).out = Reference.step held.out event := by
  cases event with
  | create path =>
      exact ⟨{
        create := synced.create.push_insert rfl
        renameFrom := synced.renameFrom.push rfl
        renameTo := synced.renameTo.push rfl
        renameByTo := synced.renameByTo.push rfl
        renameByFrom := synced.renameByFrom.push rfl
        modifyData := synced.modifyData.push rfl
        modifyMeta := synced.modifyMeta.push rfl }, rfl⟩
  | remove path =>
      rw [Compaction.step, Reference.step, ← synced.create.last_eq]
      cases found : held.create.last path with
      | some i => exact ⟨synced.removal found, rfl⟩
      | none => exact ⟨synced.pushRemove path, rfl⟩
  | rename source target =>
      obtain ⟨absorbed, same⟩ := synced.absorb source target
      obtain ⟨renamed, sameToo⟩ := absorbed.rename source target
      exact ⟨renamed, by rw [Reference.step, ← same]; exact sameToo⟩
  | renameFrom path =>
      exact ⟨{
        create := synced.create.push rfl
        renameFrom := synced.renameFrom.push_insert rfl
        renameTo := synced.renameTo.push rfl
        renameByTo := synced.renameByTo.push rfl
        renameByFrom := synced.renameByFrom.push rfl
        modifyData := synced.modifyData.push rfl
        modifyMeta := synced.modifyMeta.push rfl }, rfl⟩
  | renameTo path =>
      exact ⟨{
        create := synced.create.push rfl
        renameFrom := synced.renameFrom.push rfl
        renameTo := synced.renameTo.push_insert rfl
        renameByTo := synced.renameByTo.push rfl
        renameByFrom := synced.renameByFrom.push rfl
        modifyData := synced.modifyData.push rfl
        modifyMeta := synced.modifyMeta.push rfl }, rfl⟩
  | modifyData path =>
      rw [Compaction.step, Reference.step, synced.create.any_or_any synced.modifyData]
      split
      · exact ⟨synced, rfl⟩
      · exact ⟨synced.pushData path, rfl⟩
  | modifyMeta path =>
      rw [Compaction.step, Reference.step, synced.create.any_or_any synced.modifyMeta]
      split
      · exact ⟨synced, rfl⟩
      · exact ⟨synced.pushMeta path, rfl⟩

/-- Nothing is kept yet. -/
theorem nil : Synced {} := by
  constructor <;> · intro path i; simp [named]

theorem foldl (synced : Synced held) (events : List FsEvent) :
    Synced (events.foldl Compaction.step held) ∧
      (events.foldl Compaction.step held).out = events.foldl Reference.step held.out := by
  induction events generalizing held with
  | nil => exact ⟨synced, rfl⟩
  | cons event events ih =>
      obtain ⟨after, same⟩ := synced.step event
      rw [List.foldl_cons, List.foldl_cons, ← same]
      exact ih after

end Synced

/-- Compaction by indices keeps, of any events, what compaction by scans keeps. -/
theorem compact_eq_compactReference (events : List FsEvent) :
    compact events = compactReference events := by
  rw [compact, compactReference, (Synced.nil.foldl events).2]

/-- A swap through a third name keeps its three renames. -/
example : compact [.rename [.ofString "a"] [.ofString "t"], .rename [.ofString "b"] [.ofString "a"],
    .rename [.ofString "t"] [.ofString "b"]] =
    [.rename [.ofString "a"] [.ofString "t"], .rename [.ofString "b"] [.ofString "a"],
      .rename [.ofString "t"] [.ofString "b"]] := by
  decide +kernel

end Metafolder
