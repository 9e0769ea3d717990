import Metafolder.AccessFilter
import Metafolder.Outcome

/-!
# Access

The filter answers as a walk with the subscriber's own rights would, and from nothing that such a
walk would not meet: two filesystems that agree on the entries of the directories a subscriber may
traverse to are answered alike.
-/

namespace Metafolder
namespace Watchd

/-- A directory by its names from `/` down, links and `..` resolved. -/
abbrev Dir := List Bytes

/-- The kernel's name for a directory. -/
def Dir.path (dir : Dir) : PathBuf :=
  .rootDir :: dir.map .normal

/-- A filesystem: the entry at each resolved name, and what `lstat` answers for a path that passes
through something else than directories, where the kernel follows links or gives up. -/
structure FileSystem where
  tree : Dir → Option Entry
  through : PathBuf → Option Entry

namespace FileSystem

/-- The owner and mode of a directory. -/
def owner (files : FileSystem) (dir : Dir) : Option DirMeta :=
  match files.tree dir with
  | some (.dir owner) => some owner
  | _ => none

/-- Where a path leads that passes through directories alone. -/
def locate (files : FileSystem) (dir : Dir) : List Component → Option Dir
  | [] => some dir
  | part :: parts =>
      if (files.owner dir).isSome then
        match part with
        | .rootDir | .curDir => files.locate dir parts
        | .parentDir => files.locate dir.dropLast parts
        | .normal name => files.locate (dir ++ [name]) parts
      else none

/-- `lstat`: the entry at a path, the last component not followed. -/
def lstat (files : FileSystem) (path : PathBuf) : Option Entry :=
  match path with
  | .rootDir :: parts =>
      match files.locate [] parts with
      | some dir => files.tree dir
      | none => files.through path
  | _ => files.through path

/-- The filesystem as the filter reads it. -/
def creds (files : FileSystem) : CredSource where
  dirMeta path :=
    match files.lstat path with
    | some (.dir owner) => some owner
    | _ => none
  entry := files.lstat

/-- Whether the mode bits let a subscriber traverse a directory. -/
def Admits (files : FileSystem) (subscriber : Subscriber) (dir : Dir) : Prop :=
  (rightsIn subscriber (files.owner dir)).1 = true

instance (files : FileSystem) (subscriber : Subscriber) (dir : Dir) :
    Decidable (files.Admits subscriber dir) :=
  inferInstanceAs (Decidable (_ = true))

/-- Whether a subscriber may look entries up in a directory: the superuser in any directory. -/
def Searches (files : FileSystem) (subscriber : Subscriber) (dir : Dir) : Prop :=
  (subscriber.uid = 0 ∧ (files.owner dir).isSome) ∨ files.Admits subscriber dir

/-- A directory the subscriber may traverse to: it may look entries up in it and in every
directory above. -/
def TraversesTo (files : FileSystem) (subscriber : Subscriber) (dir : Dir) : Prop :=
  ∀ above, above <+: dir → files.Searches subscriber above

/-- A walk from a directory along the steps of a path, with what may be searched given: the number
of links followed, the directories entries were looked up in and the directory it ends in. -/
inductive Reaches (files : FileSystem) (searches : Dir → Prop) :
    Dir → List Pending → Nat → List Dir → Dir → Prop
  | done (dir) : Reaches files searches dir [] 0 [] dir
  | up {dir pending links trail final} (searched : searches dir)
      (rest : Reaches files searches dir.dropLast pending links trail final) :
      Reaches files searches dir (.up :: pending) links (dir :: trail) final
  | enter {dir name owner pending links trail final} (searched : searches dir)
      (entry : files.tree (dir ++ [name]) = some (.dir owner))
      (rest : Reaches files searches (dir ++ [name]) pending links trail final) :
      Reaches files searches dir (.name name :: pending) links (dir :: trail) final
  | follow {dir name target pending links trail final} (searched : searches dir)
      (entry : files.tree (dir ++ [name]) = some (.link target))
      (rest : Reaches files searches (if target.isAbsolute then [] else dir)
        (pushAll target ++ pending) links trail final) :
      Reaches files searches dir (.name name :: pending) (links + 1) (dir :: trail) final

/-- The walk of a whole path, within the limit of links. -/
def Leads (files : FileSystem) (searches : Dir → Prop) (path : PathBuf) (trail : List Dir)
    (final : Dir) : Prop :=
  path.isAbsolute ∧ ∃ links, links ≤ maxLinks ∧
    Reaches files searches [] (pushAll path) links trail final

namespace Reaches

variable {files : FileSystem} {searches : Dir → Prop}

/-- A walk is determined by where it starts and what it is to walk. -/
theorem unique {more : Dir → Prop} {dir : Dir} {pending : List Pending} {links links' : Nat}
    {trail trail' : List Dir} {final final' : Dir}
    (walk : Reaches files searches dir pending links trail final)
    (other : Reaches files more dir pending links' trail' final') :
    links = links' ∧ trail = trail' ∧ final = final' := by
  induction walk generalizing links' trail' final' with
  | done dir =>
      cases other
      exact ⟨rfl, rfl, rfl⟩
  | up searched rest ih =>
      cases other with
      | up searched' rest' =>
          obtain ⟨same_links, same_trail, same_final⟩ := ih rest'
          exact ⟨same_links, by rw [same_trail], same_final⟩
  | enter searched entry rest ih =>
      cases other with
      | enter searched' entry' rest' =>
          obtain ⟨same_links, same_trail, same_final⟩ := ih rest'
          exact ⟨same_links, by rw [same_trail], same_final⟩
      | follow searched' entry' rest' =>
          rw [entry] at entry'
          cases entry'
  | follow searched entry rest ih =>
      cases other with
      | enter searched' entry' rest' =>
          rw [entry] at entry'
          cases entry'
      | follow searched' entry' rest' =>
          rw [entry] at entry'
          obtain rfl := Entry.link.inj (Option.some.inj entry')
          obtain ⟨same_links, same_trail, same_final⟩ := ih rest'
          exact ⟨by rw [same_links], by rw [same_trail], same_final⟩

/-- Only the directories on the trail need be searched. -/
theorem of_trail {more : Dir → Prop} {dir : Dir} {pending : List Pending} {links : Nat}
    {trail : List Dir} {final : Dir} (walk : Reaches files searches dir pending links trail final)
    (searched : ∀ on_trail ∈ trail, more on_trail) :
    Reaches files more dir pending links trail final := by
  induction walk with
  | done dir => exact .done dir
  | up _ rest ih =>
      simp only [List.mem_cons, forall_eq_or_imp] at searched
      exact .up searched.1 (ih searched.2)
  | enter _ entry rest ih =>
      simp only [List.mem_cons, forall_eq_or_imp] at searched
      exact .enter searched.1 entry (ih searched.2)
  | follow _ entry rest ih =>
      simp only [List.mem_cons, forall_eq_or_imp] at searched
      exact .follow searched.1 entry (ih searched.2)

/-- Every directory on the trail was searched. -/
theorem searched {dir : Dir} {pending : List Pending} {links : Nat} {trail : List Dir}
    {final : Dir} (walk : Reaches files searches dir pending links trail final) :
    ∀ on_trail ∈ trail, searches on_trail := by
  induction walk with
  | done => simp
  | up searched _ ih | enter searched _ _ ih | follow searched _ _ ih =>
      simp only [List.mem_cons, forall_eq_or_imp]
      exact ⟨searched, ih⟩

end Reaches

/-- Where a path leads with one component more. -/
theorem locate_append (files : FileSystem) (dir : Dir) (parts : List Component)
    (part : Component) :
    files.locate dir (parts ++ [part]) =
      (files.locate dir parts).bind fun reached => files.locate reached [part] := by
  induction parts generalizing dir with
  | nil => rfl
  | cons first rest ih =>
      simp only [List.cons_append, locate]
      split
      · cases first <;> exact ih _
      · rfl

/-- Every directory above one is there. -/
def Grounded (files : FileSystem) (dir : Dir) : Prop :=
  ∀ above, above <+: dir → above ≠ dir → (files.owner above).isSome

theorem grounded_nil (files : FileSystem) : files.Grounded [] := by
  intro above prefix_ other
  exact absurd (List.prefix_nil.mp prefix_) other

theorem Grounded.dropLast {files : FileSystem} {dir : Dir} (grounded : files.Grounded dir) :
    files.Grounded dir.dropLast := by
  intro above prefix_ other
  apply grounded above (prefix_.trans (List.dropLast_prefix dir))
  rintro rfl
  have shorter := prefix_.length_le
  simp only [List.length_dropLast] at shorter
  have empty : above.length = 0 := by omega
  obtain rfl := List.length_eq_zero_iff.mp empty
  exact other rfl

theorem Grounded.child {files : FileSystem} {dir : Dir} (grounded : files.Grounded dir)
    (there : (files.owner dir).isSome) (name : Bytes) : files.Grounded (dir ++ [name]) := by
  intro above prefix_ other
  rcases List.prefix_concat_iff.mp prefix_ with rfl | within
  · exact absurd rfl other
  · by_cases same : above = dir
    · exact same ▸ there
    · exact grounded above within same

theorem locate_grounded {files : FileSystem} {dir : Dir} (grounded : files.Grounded dir) :
    files.locate [] (dir.map .normal) = some dir := by
  induction dir using List.reverseRecOn with
  | nil => rfl
  | append_singleton dir name ih =>
      have above : files.Grounded dir := by
        have := grounded.dropLast
        rwa [List.dropLast_concat] at this
      have there : (files.owner dir).isSome :=
        grounded dir (List.prefix_append dir [name]) (by simp)
      rw [List.map_append, List.map_singleton, locate_append, ih above]
      simp [locate, there]

/-- At a resolved name, `lstat` answers the entry there. -/
theorem lstat_path {files : FileSystem} {dir : Dir} (grounded : files.Grounded dir) :
    files.lstat dir.path = files.tree dir := by
  simp [lstat, Dir.path, locate_grounded grounded]

theorem dirMeta_path {files : FileSystem} {dir : Dir} (grounded : files.Grounded dir) :
    files.creds.dirMeta dir.path = files.owner dir := by
  simp [creds, lstat_path grounded, owner]

end FileSystem

theorem Dir.path_concat (dir : Dir) (name : Bytes) :
    Dir.path (dir ++ [name]) = dir.path ++ [.normal name] := by
  simp [Dir.path]

theorem Dir.join_path (dir : Dir) (name : Bytes) :
    dir.path.join name = Dir.path (dir ++ [name]) :=
  (Dir.path_concat dir name).symm

theorem Dir.pop_path (dir : Dir) : dir.path.pop = Dir.path dir.dropLast := by
  induction dir using List.reverseRecOn with
  | nil => rfl
  | append_singleton dir name _ =>
      rw [Dir.path_concat, List.dropLast_concat]
      simp [PathBuf.pop, PathBuf.parent]

namespace AccessFilter

/-- What the filter may take for the owner and mode of a directory: what the filesystem says, or
what it said less than `ttl` before. -/
def Attests (filter : AccessFilter) (dir : PathBuf) (owner : Option DirMeta) : Prop :=
  owner = filter.creds.dirMeta dir ∨
    ∃ asked tick, (dir, owner, asked) ∈ filter.cache ∧ filter.clock tick - asked < filter.ttl

/-- What questions leave of a filter: it may have forgotten, and learnt what the filesystem
says. -/
structure Grown (before after : AccessFilter) : Prop where
  creds : after.creds = before.creds
  ttl : after.ttl = before.ttl
  clock : after.clock = before.clock
  cache : ∀ kept ∈ after.cache, kept ∈ before.cache ∨ kept.2.1 = before.creds.dirMeta kept.1

/-- Nothing is kept but what the filesystem says; so it is of a filter that kept nothing. -/
def Fresh (filter : AccessFilter) : Prop :=
  ∀ kept ∈ filter.cache, kept.2.1 = filter.creds.dirMeta kept.1

theorem fresh_new (creds : CredSource) (clock : Nat → Instant) : (new creds clock).Fresh := by
  simp [Fresh, new]

namespace Grown

theorem refl (filter : AccessFilter) : Grown filter filter :=
  ⟨rfl, rfl, rfl, fun _ kept => Or.inl kept⟩

theorem trans {first second third : AccessFilter} (early : Grown first second)
    (late : Grown second third) : Grown first third where
  creds := late.creds.trans early.creds
  ttl := late.ttl.trans early.ttl
  clock := late.clock.trans early.clock
  cache := by
    intro kept kept_mem
    rcases late.cache kept kept_mem with old | learnt
    · exact early.cache kept old
    · exact Or.inr (learnt.trans (by rw [early.creds]))

theorem attests {before after : AccessFilter} (grown : Grown before after) {dir : PathBuf}
    {owner : Option DirMeta} (attested : after.Attests dir owner) : before.Attests dir owner := by
  rcases attested with said | ⟨asked, tick, kept, recent⟩
  · exact Or.inl (said.trans (by rw [grown.creds]))
  · rcases grown.cache _ kept with old | learnt
    · exact Or.inr ⟨asked, tick, old, by rwa [grown.clock, grown.ttl] at recent⟩
    · exact Or.inl learnt

theorem fresh {before after : AccessFilter} (grown : Grown before after) (fresh : before.Fresh) :
    after.Fresh := by
  intro kept kept_mem
  rw [grown.creds]
  exact (grown.cache kept kept_mem).elim (fresh kept) id

end Grown

theorem Fresh.attests {filter : AccessFilter} (fresh : filter.Fresh) {dir : PathBuf}
    {owner : Option DirMeta} (attested : filter.Attests dir owner) :
    owner = filter.creds.dirMeta dir := by
  rcases attested with said | ⟨asked, tick, kept, _⟩
  · exact said
  · exact fresh _ kept

theorem cached_mem {filter : AccessFilter} {dir : PathBuf} {owner : Option DirMeta}
    {asked : Instant} (found : filter.cached dir = some (owner, asked)) :
    (dir, owner, asked) ∈ filter.cache := by
  obtain ⟨⟨path, kept⟩, kept_mem, rfl⟩ := Option.map_eq_some_iff.mp found
  have same : path = dir := by simpa using List.find?_some kept_mem
  exact same ▸ List.mem_of_find?_eq_some kept_mem

theorem grown_tick (filter : AccessFilter) :
    Grown filter { filter with ticks := filter.ticks + 1 } :=
  ⟨rfl, rfl, rfl, fun _ kept => Or.inl kept⟩

/-- What follows an action goes on from its answer. -/
theorem run_bind {α β : Type} {action : StateM AccessFilter α} {filter after : AccessFilter}
    {answer : α} (ran : action.run filter = (answer, after)) (next : α → StateM AccessFilter β) :
    (action >>= next).run filter = (next answer).run after := by
  rw [StateT.run_bind, ran]
  rfl

/-- Asking answers what the filesystem says. -/
theorem ask_spec (filter : AccessFilter) (dir : PathBuf) :
    ∃ after, (ask dir).run filter = (filter.creds.dirMeta dir, after) ∧ Grown filter after := by
  refine ⟨_, rfl, ⟨rfl, rfl, rfl, ?_⟩⟩
  intro kept kept_mem
  rcases List.mem_cons.mp kept_mem with rfl | old
  · exact Or.inr rfl
  · left
    have among := (List.mem_filter.mp old).1
    simp only at among
    split at among
    · cases among
    · exact among

/-- The rights answered are those some attested owner and mode give. -/
theorem usable_spec (filter : AccessFilter) (subscriber : Subscriber) (dir : PathBuf) :
    ∃ owner after, (usable subscriber dir).run filter = (rightsIn subscriber owner, after) ∧
      filter.Attests dir owner ∧ Grown filter after := by
  have asking : ∀ ticked : AccessFilter, Grown filter ticked →
      ∃ owner after, ((do return rightsIn subscriber (← ask dir) :
          StateM AccessFilter (Bool × Bool))).run ticked = (rightsIn subscriber owner, after) ∧
        filter.Attests dir owner ∧ Grown filter after := by
    intro ticked grown
    obtain ⟨after, answer, later⟩ := ask_spec ticked dir
    exact ⟨_, after, by rw [StateT.run_bind, answer]; rfl, Or.inl (by rw [grown.creds]),
      grown.trans later⟩
  cases found : filter.cached dir with
  | none =>
      have step : (usable subscriber dir).run filter =
          ((do return rightsIn subscriber (← ask dir) :
            StateM AccessFilter (Bool × Bool))).run filter := by
        simp [usable, found]
      rw [step]
      exact asking filter (Grown.refl filter)
  | some kept =>
      obtain ⟨owner, asked⟩ := kept
      by_cases recent : filter.clock filter.ticks - asked < filter.ttl
      · refine ⟨owner, _, ?_, Or.inr ⟨asked, _, cached_mem found, recent⟩, grown_tick filter⟩
        simp only [usable, found, now, recent, StateT.run_bind, StateT.run_get, StateT.run_set,
          pure_bind, if_true, StateT.run_pure]
        rfl
      · have step : (usable subscriber dir).run filter =
            ((do return rightsIn subscriber (← ask dir) :
              StateM AccessFilter (Bool × Bool))).run
                { filter with ticks := filter.ticks + 1 } := by
          simp [usable, found, now, recent]
        rw [step]
        exact asking _ (grown_tick filter)

/-- A fresh filter answers the rights the filesystem gives. -/
theorem usable_fresh {filter : AccessFilter} (fresh : filter.Fresh) (subscriber : Subscriber)
    (dir : PathBuf) :
    ∃ after, (usable subscriber dir).run filter =
        (rightsIn subscriber (filter.creds.dirMeta dir), after) ∧ Grown filter after := by
  obtain ⟨owner, after, answer, attested, grown⟩ := usable_spec filter subscriber dir
  exact ⟨after, by rw [answer, fresh.attests attested], grown⟩

variable {files : FileSystem} {subscriber : Subscriber}

theorem owner_of_admits {dir : Dir} (admits : files.Admits subscriber dir) :
    (files.owner dir).isSome := by
  unfold FileSystem.Admits at admits
  cases there : files.owner dir with
  | none => simp [there, rightsIn] at admits
  | some owner => rfl

/-- One turn of the loop: the right to traverse is looked up, and then the step is taken. -/
theorem resolveFrom_cons (subscriber : Subscriber) {filter : AccessFilter} (fresh : filter.Fresh)
    (reads : filter.creds = files.creds) {dir : Dir} (grounded : files.Grounded dir)
    (links : Nat) (step : Pending) (pending : List Pending) :
    ∃ after, Fresh after ∧ after.creds = files.creds ∧
      ((resolveFrom subscriber dir.path links (step :: pending)).run filter).1 =
        if files.Admits subscriber dir then
          match step with
          | .up => ((resolveFrom subscriber (Dir.path dir.dropLast) links pending).run after).1
          | .name name =>
              match files.tree (dir ++ [name]) with
              | none => none
              | some .other => none
              | some (.dir _) =>
                  ((resolveFrom subscriber (Dir.path (dir ++ [name])) links pending).run after).1
              | some (.link target) =>
                  if maxLinks < links + 1 then none
                  else ((resolveFrom subscriber
                    (Dir.path (if target.isAbsolute then [] else dir)) (links + 1)
                    (pushAll target ++ pending)).run after).1
        else none := by
  obtain ⟨after, answer, grown⟩ := usable_fresh fresh subscriber dir.path
  rw [reads, files.dirMeta_path grounded] at answer
  have after_reads : after.creds = files.creds := grown.creds.trans reads
  refine ⟨after, grown.fresh fresh, after_reads, ?_⟩
  cases step with
  | up =>
      rw [resolveFrom, run_bind answer]
      by_cases admits : files.Admits subscriber dir
      · have traverse : (rightsIn subscriber (files.owner dir)).1 = true := admits
        simp [traverse, if_pos admits, Dir.pop_path]
      · have traverse : (rightsIn subscriber (files.owner dir)).1 = false := by
          simpa [FileSystem.Admits] using admits
        simp only [traverse, Bool.not_false, if_true, if_neg admits]
        rfl
  | name name =>
      rw [resolveFrom, run_bind answer]
      by_cases admits : files.Admits subscriber dir
      · have traverse : (rightsIn subscriber (files.owner dir)).1 = true := admits
        have entry : after.creds.entry (Dir.path (dir ++ [name])) = files.tree (dir ++ [name]) := by
          rw [after_reads]
          exact files.lstat_path (grounded.child (owner_of_admits admits) name)
        simp only [traverse, Dir.join_path, StateT.run_bind, StateT.run_get, pure_bind, entry,
          Bool.not_true, Bool.false_eq_true, if_false, if_pos admits]
        cases files.tree (dir ++ [name]) with
        | none => rfl
        | some found =>
            cases found with
            | other => rfl
            | dir owner => rfl
            | link target =>
                by_cases beyond : maxLinks < links + 1
                · simp only [beyond, if_true]
                  rfl
                · cases absolute : target.isAbsolute <;>
                    simp [beyond, absolute, Dir.path, PathBuf.slash]
      · have traverse : (rightsIn subscriber (files.owner dir)).1 = false := by
          simpa [FileSystem.Admits] using admits
        simp only [traverse, Bool.not_false, if_true, if_neg admits]
        rfl

/-- The loop ends where a walk along what is left of the path does, with the links that may still
be followed. -/
theorem resolveFrom_spec (subscriber : Subscriber) (left : Nat) {links : Nat}
    (bounded : links + left = maxLinks)
    (pending : List Pending) {dir : Dir} (grounded : files.Grounded dir) {filter : AccessFilter}
    (fresh : filter.Fresh) (reads : filter.creds = files.creds) (path : PathBuf) :
    ((resolveFrom subscriber dir.path links pending).run filter).1 = some path ↔
      ∃ followed trail final, followed ≤ left ∧
        files.Reaches (files.Admits subscriber) dir pending followed trail final ∧
        path = final.path := by
  induction left using Nat.strong_induction_on generalizing links pending dir filter with
  | _ left outer =>
  induction pending generalizing dir filter with
  | nil =>
      rw [resolveFrom]
      constructor
      · intro found
        obtain rfl : dir.path = path := Option.some.inj found
        exact ⟨0, [], dir, Nat.zero_le _, .done dir, rfl⟩
      · rintro ⟨_, _, _, _, walk, rfl⟩
        cases walk
        rfl
  | cons step pending inner =>
      obtain ⟨after, after_fresh, after_reads, turn⟩ :=
        resolveFrom_cons subscriber fresh reads grounded links step pending
      rw [turn]
      by_cases admits : files.Admits subscriber dir
      · rw [if_pos admits]
        cases step with
        | up =>
            rw [inner grounded.dropLast after_fresh after_reads]
            constructor
            · rintro ⟨followed, trail, final, within, walk, rfl⟩
              exact ⟨followed, _, final, within, .up admits walk, rfl⟩
            · rintro ⟨followed, _, final, within, walk, rfl⟩
              cases walk with
              | up _ rest => exact ⟨followed, _, final, within, rest, rfl⟩
        | name name =>
            cases entry : files.tree (dir ++ [name]) with
            | none =>
                simp only [entry, reduceCtorEq, false_iff]
                rintro ⟨_, _, _, _, walk, _⟩
                cases walk with
                | enter _ there | follow _ there => exact absurd (entry.symm.trans there) (by simp)
            | some found =>
                cases found with
                | other =>
                    simp only [entry, reduceCtorEq, false_iff]
                    rintro ⟨_, _, _, _, walk, _⟩
                    cases walk with
                    | enter _ there | follow _ there =>
                        exact absurd (entry.symm.trans there) (by simp)
                | dir owner =>
                    simp only [entry]
                    rw [inner (grounded.child (owner_of_admits admits) name) after_fresh
                      after_reads]
                    constructor
                    · rintro ⟨followed, trail, final, within, walk, rfl⟩
                      exact ⟨followed, _, final, within, .enter admits entry walk, rfl⟩
                    · rintro ⟨followed, _, final, within, walk, rfl⟩
                      cases walk with
                      | enter _ _ rest => exact ⟨followed, _, final, within, rest, rfl⟩
                      | follow _ there => exact absurd (entry.symm.trans there) (by simp)
                | link target =>
                    simp only [entry]
                    cases left with
                    | zero =>
                        rw [if_pos (by omega)]
                        simp only [reduceCtorEq, false_iff]
                        rintro ⟨_, _, _, within, walk, _⟩
                        cases walk with
                        | enter _ there => exact absurd (entry.symm.trans there) (by simp)
                        | follow => omega
                    | succ left =>
                        have start : files.Grounded (if target.isAbsolute then [] else dir) := by
                          split
                          · exact files.grounded_nil
                          · exact grounded
                        rw [if_neg (by omega), outer left (Nat.lt_succ_self left) (by omega) _ start
                          after_fresh after_reads]
                        constructor
                        · rintro ⟨followed, trail, final, within, walk, rfl⟩
                          exact ⟨followed + 1, _, final, by omega, .follow admits entry walk, rfl⟩
                        · rintro ⟨_, _, final, within, walk, rfl⟩
                          cases walk with
                          | enter _ there => exact absurd (entry.symm.trans there) (by simp)
                          | follow _ there rest =>
                              obtain rfl := Entry.link.inj
                                (Option.some.inj (entry.symm.trans there))
                              exact ⟨_, _, final, by omega, rest, rfl⟩
      · simp only [if_neg admits, reduceCtorEq, false_iff]
        rintro ⟨_, _, _, _, walk, _⟩
        cases walk with
        | up searched | enter searched | follow searched => exact admits searched

/-- A path resolves to the directory a walk with the rights of the mode bits ends in. -/
theorem resolve_spec {filter : AccessFilter} (fresh : filter.Fresh)
    (reads : filter.creds = files.creds) (path found : PathBuf) :
    ((resolve subscriber path).run filter).1 = some found ↔
      ∃ trail final, files.Leads (files.Admits subscriber) path trail final ∧
        found = final.path := by
  unfold resolve FileSystem.Leads
  cases absolute : path.isAbsolute with
  | false =>
      simp only [Bool.false_eq_true, if_false, false_and, exists_false, iff_false]
      intro equal
      cases equal
  | true =>
      have loop := resolveFrom_spec subscriber maxLinks
        (Nat.zero_add _) (pushAll path) files.grounded_nil fresh reads found
      simp only [if_true, true_and]
      rw [show PathBuf.slash = Dir.path [] from rfl, loop]
      constructor
      · rintro ⟨followed, trail, final, within, walk, rfl⟩
        exact ⟨trail, final, ⟨followed, within, walk⟩, rfl⟩
      · rintro ⟨trail, final, ⟨followed, within, walk⟩, rfl⟩
        exact ⟨followed, trail, final, within, walk, rfl⟩

/-- Whether every directory of a chain may be traversed, and the last one listed. -/
def Clears (creds : CredSource) (subscriber : Subscriber) : List PathBuf → Bool
  | [] => true
  | dir :: below =>
      (rightsIn subscriber (creds.dirMeta dir)).1 &&
        (!below.isEmpty || (rightsIn subscriber (creds.dirMeta dir)).2) &&
        Clears creds subscriber below

/-- Whether a directory may be reached and listed. -/
def Walks (creds : CredSource) (subscriber : Subscriber) (dir : PathBuf) : Bool :=
  subscriber.uid = 0 || (dir.isAbsolute && Clears creds subscriber dir.ancestors.reverse)

/-- Whether the entry at a path may be seen from a root. -/
def Sees (creds : CredSource) (subscriber : Subscriber) (root path : PathBuf) : Bool :=
  match path.parent with
  | none => false
  | some parent =>
      parent.startsWith root && Walks creds subscriber parent &&
        (subscriber.uid = 0 || (parent.ancestors.tail.takeWhile (·.startsWith root)).all fun dir =>
          (rightsIn subscriber (creds.dirMeta dir)).2)

theorem walkChain_fresh (subscriber : Subscriber) {filter : AccessFilter}
    (fresh : filter.Fresh) (chain : List PathBuf) :
    ∃ after, (walkChain subscriber chain).run filter =
      (Clears filter.creds subscriber chain, after) ∧ Grown filter after := by
  induction chain generalizing filter with
  | nil => exact ⟨filter, rfl, Grown.refl filter⟩
  | cons dir below ih =>
      obtain ⟨asked, answer, grown⟩ := usable_fresh fresh subscriber dir
      obtain ⟨after, rest, later⟩ := ih (grown.fresh fresh)
      rw [grown.creds] at rest
      rw [walkChain, run_bind answer]
      cases traverse : (rightsIn subscriber (filter.creds.dirMeta dir)).1 with
      | false => exact ⟨asked, by simp [traverse, Clears]; rfl, grown⟩
      | true =>
          by_cases last : below = []
          · cases list : (rightsIn subscriber (filter.creds.dirMeta dir)).2 with
            | false => exact ⟨asked, by simp [traverse, list, last, Clears]; rfl, grown⟩
            | true =>
                refine ⟨after, ?_, grown.trans later⟩
                simpa [traverse, list, Clears] using rest
          · have further : below.isEmpty = false := by simpa using last
            refine ⟨after, ?_, grown.trans later⟩
            simpa [traverse, further, Clears] using rest

theorem walk_fresh (subscriber : Subscriber) {filter : AccessFilter} (fresh : filter.Fresh)
    (dir : PathBuf) :
    ∃ after, (walk subscriber dir).run filter =
      (Walks filter.creds subscriber dir, after) ∧ Grown filter after := by
  unfold walk Walks
  by_cases superuser : subscriber.uid = 0
  · exact ⟨filter, by simp [superuser]; rfl, Grown.refl filter⟩
  · cases absolute : dir.isAbsolute with
    | false => exact ⟨filter, by simp [superuser]; rfl, Grown.refl filter⟩
    | true =>
        obtain ⟨after, answer, grown⟩ :=
          walkChain_fresh subscriber fresh dir.ancestors.reverse
        exact ⟨after, by simpa [superuser] using answer, grown⟩

theorem listing_fresh (subscriber : Subscriber) {filter : AccessFilter} (fresh : filter.Fresh)
    (dirs : List PathBuf) :
    ∃ after, (dirs.allM fun dir => return (← usable subscriber dir).2).run filter =
      (dirs.all fun dir => (rightsIn subscriber (filter.creds.dirMeta dir)).2, after) ∧
        Grown filter after := by
  induction dirs generalizing filter with
  | nil => exact ⟨filter, rfl, Grown.refl filter⟩
  | cons dir dirs ih =>
      obtain ⟨asked, answer, grown⟩ := usable_fresh fresh subscriber dir
      obtain ⟨after, rest, later⟩ := ih (grown.fresh fresh)
      rw [grown.creds] at rest
      have head : (do return (← usable subscriber dir).2 : StateM AccessFilter Bool).run filter =
          ((rightsIn subscriber (filter.creds.dirMeta dir)).2, asked) := by
        rw [run_bind answer]
        rfl
      rw [List.allM, run_bind head]
      cases list : (rightsIn subscriber (filter.creds.dirMeta dir)).2 with
      | false => exact ⟨asked, by simp [list]; rfl, grown⟩
      | true => exact ⟨after, by simpa [list] using rest, grown.trans later⟩

theorem maySee_fresh (subscriber : Subscriber) {filter : AccessFilter} (fresh : filter.Fresh)
    (root path : PathBuf) :
    ∃ after, (maySee subscriber root path).run filter =
      (Sees filter.creds subscriber root path, after) ∧ Grown filter after := by
  unfold maySee Sees
  cases path.parent with
  | none => exact ⟨filter, rfl, Grown.refl filter⟩
  | some parent =>
      cases under : parent.startsWith root with
      | false => exact ⟨filter, by simp [under]; rfl, Grown.refl filter⟩
      | true =>
          obtain ⟨walked, answer, grown⟩ := walk_fresh subscriber fresh parent
          simp only [under, Bool.not_true, Bool.false_eq_true, if_false, Bool.true_and]
          rw [run_bind answer]
          cases reached : Walks filter.creds subscriber parent with
          | false => exact ⟨walked, by simp; rfl, grown⟩
          | true =>
              by_cases superuser : subscriber.uid = 0
              · exact ⟨walked, by simp [superuser]; rfl, grown⟩
              · obtain ⟨after, listed, later⟩ := listing_fresh subscriber
                  (grown.fresh fresh) (parent.ancestors.tail.takeWhile (·.startsWith root))
                rw [grown.creds] at listed
                exact ⟨after, by simpa [superuser] using listed, grown.trans later⟩

end AccessFilter

namespace PathBuf

theorem ancestors_reverse (parts : List Component) :
    (ancestors (.rootDir :: parts)).reverse = parts.inits.map (.rootDir :: ·) := by
  have kept : ∀ prefixes : List (List Component),
      ((prefixes.map (.rootDir :: ·)).filter fun above : PathBuf =>
        decide (above ≠ []) || !isAbsolute (.rootDir :: parts)) =
          prefixes.map (.rootDir :: ·) := by
    intro prefixes
    rw [List.filter_eq_self]
    simp
  rw [ancestors, List.reverse_reverse, List.inits_cons,
    List.filter_cons_of_neg (by simp [isAbsolute])]
  exact kept parts.inits

theorem eq_cons_of_isAbsolute {path : PathBuf} (absolute : path.isAbsolute) :
    ∃ parts, path = .rootDir :: parts := by
  cases path with
  | nil => simp [isAbsolute] at absolute
  | cons first parts => exact ⟨parts, by simpa [isAbsolute] using absolute⟩

end PathBuf

namespace FileSystem

/-- Two filesystems a subscriber cannot tell apart by its own walks: they agree at `/` and on every
entry of a directory it may traverse to. -/
structure Agree (first second : FileSystem) (subscriber : Subscriber) : Prop where
  root : first.tree [] = second.tree []
  entries : ∀ dir, first.TraversesTo subscriber dir → ∀ name,
    first.tree (dir ++ [name]) = second.tree (dir ++ [name])

/-- A directory whose every directory above is searched. -/
def Within (files : FileSystem) (subscriber : Subscriber) (dir : Dir) : Prop :=
  ∀ above, above <+: dir → above ≠ dir → files.Admits subscriber above

variable {first second : FileSystem} {subscriber : Subscriber} {dir : Dir}

theorem searches_iff (other : subscriber.uid ≠ 0) (files : FileSystem) (dir : Dir) :
    files.Searches subscriber dir ↔ files.Admits subscriber dir := by
  simp [Searches, other]

theorem within_nil (files : FileSystem) : files.Within subscriber [] := by
  intro above prefix_ different
  exact absurd (List.prefix_nil.mp prefix_) different

theorem Within.prefix {files : FileSystem} (within : files.Within subscriber dir)
    (admits : files.Admits subscriber dir) {above : Dir} (prefix_ : above <+: dir) :
    files.Admits subscriber above := by
  by_cases same : above = dir
  · exact same ▸ admits
  · exact within above prefix_ same

theorem Within.child {files : FileSystem} (within : files.Within subscriber dir)
    (admits : files.Admits subscriber dir) (name : Bytes) :
    files.Within subscriber (dir ++ [name]) := by
  intro above prefix_ different
  rcases List.prefix_concat_iff.mp prefix_ with same | shorter
  · exact absurd same different
  · exact within.prefix admits shorter

theorem Within.dropLast {files : FileSystem} (within : files.Within subscriber dir)
    (admits : files.Admits subscriber dir) : files.Within subscriber dir.dropLast := by
  intro above prefix_ _
  exact within.prefix admits (prefix_.trans (List.dropLast_prefix dir))

namespace Agree

theorem tree (agree : Agree first second subscriber) (other : subscriber.uid ≠ 0)
    (within : first.Within subscriber dir) : first.tree dir = second.tree dir := by
  induction dir using List.reverseRecOn with
  | nil => exact agree.root
  | append_singleton dir name _ =>
      apply agree.entries
      intro above prefix_
      rw [searches_iff other]
      apply within above (prefix_.trans (List.prefix_append dir [name]))
      rintro rfl
      have shorter := prefix_.length_le
      simp only [List.length_append, List.length_singleton] at shorter
      omega

theorem owner (agree : Agree first second subscriber) (other : subscriber.uid ≠ 0)
    (within : first.Within subscriber dir) : first.owner dir = second.owner dir := by
  unfold FileSystem.owner
  rw [agree.tree other within]

theorem admits (agree : Agree first second subscriber) (other : subscriber.uid ≠ 0)
    (within : first.Within subscriber dir) :
    first.Admits subscriber dir ↔ second.Admits subscriber dir := by
  unfold FileSystem.Admits
  rw [agree.owner other within]

/-- A walk in one filesystem is a walk in the other. -/
theorem reaches (agree : Agree first second subscriber) (other : subscriber.uid ≠ 0)
    (within : first.Within subscriber dir) {pending : List Pending} {links : Nat}
    {trail : List Dir} {final : Dir} :
    first.Reaches (first.Admits subscriber) dir pending links trail final →
      second.Reaches (second.Admits subscriber) dir pending links trail final := by
  intro walk
  induction walk with
  | done dir => exact .done dir
  | up searched rest ih =>
      exact .up ((agree.admits other within).mp searched) (ih (within.dropLast searched))
  | @enter dir name owner pending links trail final searched entry rest ih =>
      have child := within.child searched name
      exact .enter ((agree.admits other within).mp searched) (agree.tree other child ▸ entry)
        (ih child)
  | @follow dir name target pending links trail final searched entry rest ih =>
      have start : first.Within subscriber (if target.isAbsolute then [] else dir) := by
        split
        · exact first.within_nil
        · exact within
      exact .follow ((agree.admits other within).mp searched)
        (agree.tree other (within.child searched _) ▸ entry) (ih start)

/-- What a subscriber may traverse to in one filesystem it may traverse to in the other. -/
theorem traversesTo (agree : Agree first second subscriber) (other : subscriber.uid ≠ 0)
    (reached : second.TraversesTo subscriber dir) : first.TraversesTo subscriber dir := by
  induction dir using List.reverseRecOn with
  | nil =>
      intro above prefix_
      obtain rfl := List.prefix_nil.mp prefix_
      have searched := reached [] (List.prefix_refl [])
      rw [searches_iff other] at searched ⊢
      exact (agree.admits other first.within_nil).mpr searched
  | append_singleton dir name ih =>
      have above_reached : first.TraversesTo subscriber dir := by
        apply ih
        intro above prefix_
        exact reached above (prefix_.trans (List.prefix_append dir [name]))
      have within : first.Within subscriber (dir ++ [name]) := by
        intro above prefix_ different
        rcases List.prefix_concat_iff.mp prefix_ with same | shorter
        · exact absurd same different
        · exact (searches_iff other _ _).mp (above_reached above shorter)
      intro above prefix_
      rcases List.prefix_concat_iff.mp prefix_ with rfl | shorter
      · have searched := reached _ (List.prefix_refl _)
        rw [searches_iff other] at searched ⊢
        exact (agree.admits other within).mpr searched
      · exact above_reached above shorter

theorem symm (agree : Agree first second subscriber) (other : subscriber.uid ≠ 0) :
    Agree second first subscriber where
  root := agree.root.symm
  entries dir reached name := (agree.entries dir (agree.traversesTo other reached) name).symm

/-- Down a path the answers are the same as far as the subscriber gets. -/
theorem clears (agree : Agree first second subscriber) (other : subscriber.uid ≠ 0)
    (parts base : List Component) (within : first.Within subscriber dir)
    (located : first.locate [] base = some dir) (located' : second.locate [] base = some dir) :
    AccessFilter.Clears first.creds subscriber (parts.inits.map (.rootDir :: base ++ ·)) =
        AccessFilter.Clears second.creds subscriber (parts.inits.map (.rootDir :: base ++ ·)) ∧
      (AccessFilter.Clears first.creds subscriber (parts.inits.map (.rootDir :: base ++ ·)) →
        ∀ path ∈ parts.inits.map (.rootDir :: base ++ ·),
          first.creds.dirMeta path = second.creds.dirMeta path) := by
  have met : first.creds.dirMeta (.rootDir :: base) = first.owner dir := by
    simp [creds, lstat, located, FileSystem.owner]
  have met' : second.creds.dirMeta (.rootDir :: base) = first.owner dir := by
    rw [agree.owner other within]
    simp [creds, lstat, located', FileSystem.owner]
  induction parts generalizing base dir with
  | nil => simp [AccessFilter.Clears, met, met']
  | cons part parts ih =>
      have onward : (part :: parts).inits.map (.rootDir :: base ++ ·) =
          (.rootDir :: base) :: parts.inits.map (.rootDir :: (base ++ [part]) ++ ·) := by
        simp [Function.comp_def]
      rw [onward]
      by_cases admits : first.Admits subscriber dir
      · have there := AccessFilter.owner_of_admits admits
        have there' : (second.owner dir).isSome := agree.owner other within ▸ there
        obtain ⟨next, within_next, at_next, at_next'⟩ : ∃ next, first.Within subscriber next ∧
            first.locate [] (base ++ [part]) = some next ∧
            second.locate [] (base ++ [part]) = some next := by
          rw [locate_append, locate_append, located, located']
          cases part with
          | rootDir => exact ⟨dir, within, by simp [locate, there], by simp [locate, there']⟩
          | curDir => exact ⟨dir, within, by simp [locate, there], by simp [locate, there']⟩
          | parentDir =>
              exact ⟨dir.dropLast, within.dropLast admits, by simp [locate, there],
                by simp [locate, there']⟩
          | normal name =>
              exact ⟨dir ++ [name], within.child admits name, by simp [locate, there],
                by simp [locate, there']⟩
        have met_next : first.creds.dirMeta (.rootDir :: (base ++ [part])) = first.owner next := by
          simp [creds, lstat, at_next, FileSystem.owner]
        have met_next' :
            second.creds.dirMeta (.rootDir :: (base ++ [part])) = first.owner next := by
          rw [agree.owner other within_next]
          simp [creds, lstat, at_next', FileSystem.owner]
        obtain ⟨same, all_same⟩ :=
          ih (base ++ [part]) within_next at_next at_next' met_next met_next'
        constructor
        · simp only [AccessFilter.Clears, met, met', same]
        · intro clear path path_mem
          simp only [AccessFilter.Clears, Bool.and_eq_true] at clear
          rcases List.mem_cons.mp path_mem with rfl | below
          · rw [met, met']
          · exact all_same clear.2 path below
      · have closed : (rightsIn subscriber (first.owner dir)).1 = false := by
          simpa [Admits] using admits
        simp [AccessFilter.Clears, met, met', closed]

theorem walks (agree : Agree first second subscriber) (other : subscriber.uid ≠ 0)
    (path : PathBuf) :
    AccessFilter.Walks first.creds subscriber path =
        AccessFilter.Walks second.creds subscriber path ∧
      (AccessFilter.Walks first.creds subscriber path → ∀ above ∈ path.ancestors,
        first.creds.dirMeta above = second.creds.dirMeta above) := by
  unfold AccessFilter.Walks
  cases absolute : path.isAbsolute with
  | false => simp [other]
  | true =>
      obtain ⟨parts, rfl⟩ := PathBuf.eq_cons_of_isAbsolute absolute
      obtain ⟨same, all_same⟩ := agree.clears other parts [] first.within_nil rfl rfl
      simp only [List.singleton_append] at same all_same
      rw [PathBuf.ancestors_reverse]
      refine ⟨by rw [same], ?_⟩
      intro clear above above_mem
      apply all_same (by simpa [other] using clear)
      rw [← PathBuf.ancestors_reverse]
      exact List.mem_reverse.mpr above_mem

theorem sees (agree : Agree first second subscriber) (other : subscriber.uid ≠ 0)
    (root path : PathBuf) :
    AccessFilter.Sees first.creds subscriber root path =
      AccessFilter.Sees second.creds subscriber root path := by
  unfold AccessFilter.Sees
  cases path.parent with
  | none => rfl
  | some parent =>
      obtain ⟨same, all_same⟩ := agree.walks other parent
      cases walked : AccessFilter.Walks first.creds subscriber parent with
      | false =>
          rw [walked] at same
          simp [walked, ← same]
      | true =>
          have listed : ((parent.ancestors.tail.takeWhile (·.startsWith root)).all fun dir =>
                (rightsIn subscriber (first.creds.dirMeta dir)).2) =
              ((parent.ancestors.tail.takeWhile (·.startsWith root)).all fun dir =>
                (rightsIn subscriber (second.creds.dirMeta dir)).2) := by
            rw [Bool.eq_iff_iff, List.all_eq_true, List.all_eq_true]
            refine forall₂_congr fun dir dir_mem => ?_
            have above := List.mem_of_mem_tail ((List.takeWhile_prefix _).subset dir_mem)
            rw [all_same walked dir above]
          simp only [listed, same]

end Agree

end FileSystem

namespace AccessFilter

/-- The filter lets a subscriber traverse a directory, by what it attests. -/
def Lets (filter : AccessFilter) (subscriber : Subscriber) (dir : PathBuf) : Prop :=
  subscriber.uid = 0 ∨
    ∃ owner, filter.Attests dir owner ∧ (rightsIn subscriber owner).1 = true

/-- The filter lets a subscriber list a directory, by what it attests. -/
def Lists (filter : AccessFilter) (subscriber : Subscriber) (dir : PathBuf) : Prop :=
  subscriber.uid = 0 ∨
    ∃ owner, filter.Attests dir owner ∧ (rightsIn subscriber owner).2 = true

variable {subscriber : Subscriber} {filter after : AccessFilter}

theorem Grown.lets (grown : Grown filter after) {dir : PathBuf}
    (lets : after.Lets subscriber dir) : filter.Lets subscriber dir :=
  lets.imp id fun ⟨owner, attested, traverse⟩ => ⟨owner, grown.attests attested, traverse⟩

theorem Grown.lists (grown : Grown filter after) {dir : PathBuf}
    (lists : after.Lists subscriber dir) : filter.Lists subscriber dir :=
  lists.imp id fun ⟨owner, attested, list⟩ => ⟨owner, grown.attests attested, list⟩

/-- A chain passes only if each directory may be traversed, and the last one listed. -/
theorem walkChain_spec (subscriber : Subscriber) (filter : AccessFilter) (chain : List PathBuf) :
    ∃ answer after, (walkChain subscriber chain).run filter = (answer, after) ∧
      Grown filter after ∧ (answer = true → (∀ dir ∈ chain, filter.Lets subscriber dir) ∧
        ∀ dir ∈ chain.getLast?, filter.Lists subscriber dir) := by
  induction chain generalizing filter with
  | nil => exact ⟨true, filter, rfl, Grown.refl filter, by simp⟩
  | cons dir below ih =>
      obtain ⟨owner, asked, ran, attested, grown⟩ := usable_spec filter subscriber dir
      obtain ⟨answer, after, rest, later, passed⟩ := ih asked
      rw [walkChain, run_bind ran]
      cases traverse : (rightsIn subscriber owner).1 with
      | false => exact ⟨false, asked, by simp [traverse]; rfl, grown, by simp⟩
      | true =>
          have lets : filter.Lets subscriber dir := Or.inr ⟨owner, attested, traverse⟩
          cases below with
          | nil =>
              cases list : (rightsIn subscriber owner).2 with
              | false => exact ⟨false, asked, by simp [traverse, list]; rfl, grown, by simp⟩
              | true =>
                  have lists : filter.Lists subscriber dir := Or.inr ⟨owner, attested, list⟩
                  exact ⟨true, asked, by simp [traverse, list, walkChain]; rfl, grown,
                    by simp [lets, lists]⟩
          | cons next below =>
              refine ⟨answer, after, by simpa [traverse] using rest, grown.trans later, ?_⟩
              intro answered
              obtain ⟨all_let, last_lists⟩ := passed answered
              constructor
              · intro met met_mem
                rcases List.mem_cons.mp met_mem with rfl | met_below
                · exact lets
                · exact grown.lets (all_let met met_below)
              · intro last is_last
                rw [List.getLast?_cons_cons] at is_last
                exact grown.lists (last_lists last is_last)

theorem listing_spec (subscriber : Subscriber) (filter : AccessFilter) (dirs : List PathBuf) :
    ∃ answer after, (dirs.allM fun dir => return (← usable subscriber dir).2).run filter =
        (answer, after) ∧ Grown filter after ∧
      (answer = true → ∀ dir ∈ dirs, filter.Lists subscriber dir) := by
  induction dirs generalizing filter with
  | nil => exact ⟨true, filter, rfl, Grown.refl filter, by simp⟩
  | cons dir dirs ih =>
      obtain ⟨owner, asked, ran, attested, grown⟩ := usable_spec filter subscriber dir
      obtain ⟨answer, after, rest, later, passed⟩ := ih asked
      have head : (do return (← usable subscriber dir).2 : StateM AccessFilter Bool).run filter =
          ((rightsIn subscriber owner).2, asked) := by
        rw [run_bind ran]
        rfl
      rw [List.allM, run_bind head]
      cases list : (rightsIn subscriber owner).2 with
      | false => exact ⟨false, asked, by simp; rfl, grown, by simp⟩
      | true =>
          refine ⟨answer, after, by simpa [list] using rest, grown.trans later, ?_⟩
          intro answered met met_mem
          rcases List.mem_cons.mp met_mem with rfl | met_below
          · exact Or.inr ⟨owner, attested, list⟩
          · exact grown.lists (passed answered met met_below)

end AccessFilter

namespace PathBuf

theorem pairwise_inits {α : Type} (parts : List α) :
    parts.inits.Pairwise fun above below => above <+: below := by
  induction parts with
  | nil => simp
  | cons part parts ih =>
      rw [List.inits_cons, List.pairwise_cons, List.pairwise_map]
      exact ⟨fun above _ => List.nil_prefix, ih.imp fun prefix_ => by simpa using prefix_⟩

/-- The directories above a path and under a root come first among those above it. -/
theorem mem_takeWhile_ancestors {path root above : PathBuf}
    (above_mem : above ∈ path.ancestors.tail) (under : above.startsWith root) :
    above ∈ path.ancestors.tail.takeWhile (·.startsWith root) := by
  have shrinking : path.ancestors.tail.Pairwise fun below above => above <+: below := by
    apply List.Pairwise.tail
    exact List.pairwise_reverse.mpr ((pairwise_inits path).filter _)
  generalize path.ancestors.tail = chain at above_mem shrinking
  induction chain with
  | nil => cases above_mem
  | cons first rest ih =>
      rw [List.pairwise_cons] at shrinking
      have first_under : startsWith first root := by
        rcases List.mem_cons.mp above_mem with rfl | later
        · exact under
        · rw [startsWith, List.isPrefixOf_iff_prefix] at under ⊢
          exact under.trans (shrinking.1 above later)
      rw [List.takeWhile_cons_of_pos (by simpa using first_under)]
      rcases List.mem_cons.mp above_mem with rfl | later
      · exact List.mem_cons_self
      · exact List.mem_cons_of_mem first (ih later shrinking.2)

theorem ancestors_eq_cons {path : PathBuf} (absolute : path.isAbsolute) :
    path.ancestors = path :: path.ancestors.tail := by
  obtain ⟨parts, rfl⟩ := eq_cons_of_isAbsolute absolute
  rw [← List.reverse_reverse (ancestors _), ancestors_reverse]
  induction parts using List.reverseRecOn with
  | nil => rfl
  | append_singleton parts part _ => simp

end PathBuf

namespace AccessFilter

variable {subscriber : Subscriber} {filter after : AccessFilter}

/-- What lets an entry be seen from a root: each directory down to its parent may be traversed, and
from the root down each may be listed. -/
def Discovers (filter : AccessFilter) (subscriber : Subscriber) (root path : PathBuf) : Prop :=
  ∃ parent, path.parent = some parent ∧ parent.startsWith root ∧
    (∀ dir ∈ parent.ancestors, filter.Lets subscriber dir) ∧
    ∀ dir ∈ parent.ancestors, dir.startsWith root → filter.Lists subscriber dir

theorem Grown.discovers (grown : Grown filter after) {root path : PathBuf}
    (discovers : after.Discovers subscriber root path) :
    filter.Discovers subscriber root path := by
  obtain ⟨parent, is_parent, under, lets, lists⟩ := discovers
  exact ⟨parent, is_parent, under, fun dir above => grown.lets (lets dir above),
    fun dir above inside => grown.lists (lists dir above inside)⟩

theorem maySee_spec (subscriber : Subscriber) (filter : AccessFilter) (root path : PathBuf) :
    ∃ answer after, (maySee subscriber root path).run filter = (answer, after) ∧
      Grown filter after ∧ (answer = true → filter.Discovers subscriber root path) := by
  unfold maySee
  cases is_parent : path.parent with
  | none => exact ⟨false, filter, rfl, Grown.refl filter, by simp⟩
  | some parent =>
      by_cases under : parent.startsWith root
      · by_cases superuser : subscriber.uid = 0
        · refine ⟨true, filter, by simp [under, walk, superuser]; rfl, Grown.refl filter, ?_⟩
          intro _
          exact ⟨parent, is_parent, under, fun _ _ => Or.inl superuser,
            fun _ _ _ => Or.inl superuser⟩
        · cases absolute : parent.isAbsolute with
          | false =>
              exact ⟨false, filter, by simp [under, walk, superuser, absolute]; rfl,
                Grown.refl filter, by simp⟩
          | true =>
              obtain ⟨reached, walked, ran, grown, passed⟩ :=
                walkChain_spec subscriber filter parent.ancestors.reverse
              have walks : (walk subscriber parent).run filter = (reached, walked) := by
                simpa [walk, superuser, absolute] using ran
              simp only [under, Bool.not_true, Bool.false_eq_true, if_false]
              rw [run_bind walks]
              cases reached with
              | false => exact ⟨false, walked, by simp; rfl, grown, by simp⟩
              | true =>
                  obtain ⟨answer, after, listed, later, all_list⟩ :=
                    listing_spec subscriber walked
                      (parent.ancestors.tail.takeWhile (·.startsWith root))
                  refine ⟨answer, after, by simpa [superuser] using listed, grown.trans later, ?_⟩
                  intro answered
                  obtain ⟨lets, last_lists⟩ := passed rfl
                  refine ⟨parent, is_parent, under,
                    fun dir above => lets dir (List.mem_reverse.mpr above), ?_⟩
                  intro dir above inside
                  rw [PathBuf.ancestors_eq_cons absolute] at above
                  rcases List.mem_cons.mp above with rfl | further
                  · apply last_lists
                    rw [PathBuf.ancestors_eq_cons absolute]
                    simp
                  · exact grown.lists
                      (all_list answered dir (PathBuf.mem_takeWhile_ancestors further inside))
      · exact ⟨false, filter, by simp [under]; rfl, Grown.refl filter, by simp⟩

/-- The root chosen holds the path, and no root that holds it is longer. -/
theorem innermost_spec {roots : List PathBuf} {path root : PathBuf}
    (chosen : innermost roots path = some root) :
    root ∈ roots ∧ path.startsWith root ∧
      ∀ other ∈ roots, path.startsWith other → other.length ≤ root.length := by
  have scanned : ∀ (held : List PathBuf) (best : Option PathBuf) (root : PathBuf),
      held.foldl (fun best root =>
        match best with
        | none => some root
        | some held => if held.length ≤ root.length then some root else some held) best =
          some root →
      (root ∈ held ∨ best = some root) ∧ (∀ other ∈ held, other.length ≤ root.length) ∧
        ∀ other, best = some other → other.length ≤ root.length := by
    intro held
    induction held with
    | nil =>
        rintro best root rfl
        simp
    | cons first rest ih =>
        intro best root chosen
        obtain ⟨origin, longest, longer⟩ := ih _ root chosen
        cases best with
        | none =>
            have first_le := longer first rfl
            refine ⟨Or.inl ?_, ?_, by simp⟩
            · rcases origin with later | now
              · exact List.mem_cons_of_mem first later
              · exact List.mem_cons.mpr (Or.inl (Option.some.inj now).symm)
            · simpa [first_le] using longest
        | some best =>
            by_cases replaced : best.length ≤ first.length
            · simp only [replaced, if_true, Option.some.injEq] at origin longer
              have first_le := longer first rfl
              refine ⟨Or.inl ?_, by simpa [first_le] using longest, ?_⟩
              · rcases origin with later | now
                · exact List.mem_cons_of_mem first later
                · exact List.mem_cons.mpr (Or.inl now.symm)
              · rintro _ ⟨⟩
                omega
            · simp only [replaced, if_false, Option.some.injEq] at origin longer
              have best_le := longer best rfl
              refine ⟨?_, ?_, ?_⟩
              · rcases origin with later | now
                · exact Or.inl (List.mem_cons_of_mem first later)
                · exact Or.inr (congrArg some now)
              · have first_le : first.length ≤ root.length := by omega
                simpa [first_le] using longest
              · rintro _ ⟨⟩
                exact best_le
  obtain ⟨origin, longest, _⟩ := scanned _ none root chosen
  rcases origin with held | impossible
  · obtain ⟨root_mem, under⟩ := List.mem_filter.mp held
    refine ⟨root_mem, under, ?_⟩
    intro other other_mem other_under
    exact longest other (List.mem_filter.mpr ⟨other_mem, other_under⟩)
  · cases impossible

/-- What an event may tell a subscriber of a path: it is under one of its roots, and discovered
from the innermost of those. -/
def Shows (filter : AccessFilter) (subscriber : Subscriber) (roots : List PathBuf)
    (path : PathBuf) : Prop :=
  ∃ root ∈ roots, path.startsWith root ∧
    (∀ other ∈ roots, path.startsWith other → other.length ≤ root.length) ∧
    filter.Discovers subscriber root path

theorem inScope_spec (subscriber : Subscriber) (filter : AccessFilter) (roots : List PathBuf)
    (path : PathBuf) :
    ∃ answer after, (Event.inScope roots (visible subscriber roots) path).run filter =
        (answer, after) ∧ Grown filter after ∧
      (answer = true → filter.Shows subscriber roots path) := by
  unfold Event.inScope visible
  cases roots.any path.startsWith with
  | false => exact ⟨false, filter, rfl, Grown.refl filter, by simp⟩
  | true =>
      cases chosen : innermost roots path with
      | none => exact ⟨false, filter, rfl, Grown.refl filter, by simp⟩
      | some root =>
          obtain ⟨answer, after, ran, grown, discovers⟩ :=
            maySee_spec subscriber filter root path
          refine ⟨answer, after, ran, grown, ?_⟩
          intro answered
          obtain ⟨root_mem, under, longest⟩ := innermost_spec chosen
          exact ⟨root, root_mem, under, longest, discovers answered⟩

/-- Every path of an event as a subscriber is sent it is one it may be told of. -/
theorem adapted_spec (filter : AccessFilter) (roots : List PathBuf) (event sent : Event)
    (adapts : ((adapted subscriber roots event).run filter).1 = some sent) :
    ∀ path ∈ sent.paths, filter.Shows subscriber roots path := by
  have single : ∀ (kept : Event) (path : PathBuf), kept.paths = [path] →
      ((do return if ← Event.inScope roots (visible subscriber roots) path then some kept
        else none : StateM AccessFilter (Option Event)).run filter).1 = some sent →
      ∀ path ∈ sent.paths, filter.Shows subscriber roots path := by
    intro kept path names adapts
    obtain ⟨answer, after, ran, _, shows⟩ := inScope_spec subscriber filter roots path
    rw [run_bind ran] at adapts
    cases answer with
    | false => cases adapts
    | true =>
        obtain rfl : kept = sent := Option.some.inj adapts
        simpa [names] using shows rfl
  cases event with
  | create path | remove path | renameFrom path | renameTo path | modifyData path
  | modifyMeta path => exact single _ path rfl adapts
  | rename source destination =>
      obtain ⟨left, between, ran, grown, left_shows⟩ :=
        inScope_spec subscriber filter roots source
      obtain ⟨entered, after, ran', _, entered_shows⟩ :=
        inScope_spec subscriber between roots destination
      rw [adapted, Event.adapt, run_bind ran, run_bind ran'] at adapts
      have shown : entered = true → filter.Shows subscriber roots destination := by
        intro answered
        obtain ⟨root, root_mem, under, longest, discovers⟩ := entered_shows answered
        exact ⟨root, root_mem, under, longest, grown.discovers discovers⟩
      cases left <;> cases entered
      · cases adapts
      · obtain rfl := Option.some.inj adapts
        simpa [Event.paths] using shown rfl
      · obtain rfl := Option.some.inj adapts
        simpa [Event.paths] using left_shows rfl
      · obtain rfl := Option.some.inj adapts
        simpa [Event.paths] using ⟨left_shows rfl, shown rfl⟩

variable {files first second : FileSystem}

/-- What a subscriber may look entries up in by the mode bits, it may look entries up in. -/
theorem searches_of_admits {dir : Dir} (admits : files.Admits subscriber dir) :
    files.Searches subscriber dir :=
  Or.inr admits

/-- A path resolves as the subscriber's own walk goes, unless the superuser's walk enters a
directory whose mode bits are closed to it. -/
theorem resolve_exact_iff (fresh : filter.Fresh) (reads : filter.creds = files.creds)
    (path : PathBuf) :
    (∀ found, ((resolve subscriber path).run filter).1 = some found ↔
        ∃ trail final, files.Leads (files.Searches subscriber) path trail final ∧
          found = final.path) ↔
      (subscriber.uid = 0 → ∀ trail final,
        files.Leads (files.Searches subscriber) path trail final → ∀ dir ∈ trail, files.Admits subscriber dir) := by
  constructor
  · rintro exact_ _ trail final ⟨absolute, links, within, walk⟩ dir dir_mem
    have found := (exact_ final.path).mpr ⟨trail, final, ⟨absolute, links, within, walk⟩, rfl⟩
    obtain ⟨_, _, ⟨_, _, _, admitted⟩, _⟩ := (resolve_spec fresh reads path _).mp found
    obtain ⟨_, rfl, _⟩ := walk.unique admitted
    exact admitted.searched dir dir_mem
  · intro condition found
    rw [resolve_spec fresh reads path found]
    constructor
    · rintro ⟨trail, final, ⟨absolute, links, within, walk⟩, rfl⟩
      have searched : ∀ dir ∈ trail, files.Searches subscriber dir := fun dir on_trail =>
        searches_of_admits (walk.searched dir on_trail)
      exact ⟨trail, final, ⟨absolute, links, within, walk.of_trail searched⟩, rfl⟩
    · rintro ⟨trail, final, leads, rfl⟩
      obtain ⟨absolute, links, within, walk⟩ := leads
      have admitted : ∀ dir ∈ trail, files.Admits subscriber dir := by
        intro dir on_trail
        rcases walk.searched dir on_trail with ⟨superuser, _⟩ | admits
        · exact condition superuser trail final ⟨absolute, links, within, walk⟩ dir on_trail
        · exact admits
      exact ⟨trail, final, ⟨absolute, links, within, walk.of_trail admitted⟩, rfl⟩

/-- Filesystems a subscriber cannot tell apart resolve a path alike. -/
theorem resolve_agree (agree : first.Agree second subscriber) (other : subscriber.uid ≠ 0)
    {filter' : AccessFilter} (fresh : filter.Fresh) (reads : filter.creds = first.creds)
    (fresh' : filter'.Fresh) (reads' : filter'.creds = second.creds) (path : PathBuf) :
    ((resolve subscriber path).run filter).1 = ((resolve subscriber path).run filter').1 := by
  apply Option.ext
  intro found
  rw [resolve_spec fresh reads, resolve_spec fresh' reads']
  constructor
  · rintro ⟨trail, final, ⟨absolute, links, within, walk⟩, rfl⟩
    exact ⟨trail, final, ⟨absolute, links, within,
      agree.reaches other first.within_nil walk⟩, rfl⟩
  · rintro ⟨trail, final, ⟨absolute, links, within, walk⟩, rfl⟩
    exact ⟨trail, final, ⟨absolute, links, within,
      (agree.symm other).reaches other second.within_nil walk⟩, rfl⟩

/-- The broker reveals nothing its subscriber could not find: filesystems a subscriber cannot tell
apart are answered alike, a path resolves as the subscriber's own walk goes unless the superuser's
walk enters a directory closed to it by its mode bits, and an event tells only of paths that may
be listed from a root down. -/
theorem filter_answers_own_walks (subscriber : Subscriber) (filter : AccessFilter) :
    (∀ (first second : FileSystem) (filter' : AccessFilter) (root path : PathBuf),
      subscriber.uid ≠ 0 → first.Agree second subscriber →
      filter.Fresh → filter.creds = first.creds → filter'.Fresh → filter'.creds = second.creds →
        ((resolve subscriber path).run filter).1 = ((resolve subscriber path).run filter').1 ∧
        ((mayWatch subscriber path).run filter).1 = ((mayWatch subscriber path).run filter').1 ∧
        ((maySee subscriber root path).run filter).1 =
          ((maySee subscriber root path).run filter').1) ∧
    (∀ (files : FileSystem) (path : PathBuf), filter.Fresh → filter.creds = files.creds →
        ((∀ found, ((resolve subscriber path).run filter).1 = some found ↔
            ∃ trail final, files.Leads (files.Searches subscriber) path trail final ∧
              found = final.path) ↔
          (subscriber.uid = 0 → ∀ trail final,
            files.Leads (files.Searches subscriber) path trail final →
              ∀ dir ∈ trail, files.Admits subscriber dir))) ∧
    (∀ (roots : List PathBuf) (event sent : Event),
      ((adapted subscriber roots event).run filter).1 = some sent →
        ∀ path ∈ sent.paths, filter.Shows subscriber roots path) := by
  refine ⟨?_, ?_, ?_⟩
  · intro first second filter' root path other agree fresh reads fresh' reads'
    refine ⟨resolve_agree agree other fresh reads fresh' reads' path, ?_, ?_⟩
    · obtain ⟨_, answer, _⟩ := walk_fresh subscriber fresh path
      obtain ⟨_, answer', _⟩ := walk_fresh subscriber fresh' path
      rw [mayWatch, answer, answer', reads, reads']
      exact (agree.walks other path).1
    · obtain ⟨_, answer, _⟩ := maySee_fresh subscriber fresh root path
      obtain ⟨_, answer', _⟩ := maySee_fresh subscriber fresh' root path
      rw [answer, answer', reads, reads']
      exact agree.sees other root path
  · intro files path fresh reads
    exact resolve_exact_iff fresh reads path
  · intro roots event sent adapts
    exact adapted_spec filter roots event sent adapts

/-- A home closed to all but its owner, with a directory in it. -/
def privateHome : FileSystem where
  tree := fun dir =>
    if dir = [] then some (.dir ⟨0, 0, 0o755⟩)
    else if dir = [[104]] then some (.dir ⟨1000, 100, 0o700⟩)
    else if dir = [[104], [100]] then some (.dir ⟨1000, 100, 0o755⟩)
    else none
  through _ := none

/-- The same home, empty. -/
def emptyHome : FileSystem :=
  { privateHome with
    tree := fun dir => if dir = [[104], [100]] then none else privateHome.tree dir }

/-- A stranger cannot tell what the home holds, its owner resolves a path in it, and is told of a
file made there. -/
theorem private_home_answers :
    ((resolve ⟨2000, 200, [200]⟩ (Dir.path [[104], [100]])).run
        (new privateHome.creds fun _ => 0)).1 =
      ((resolve ⟨2000, 200, [200]⟩ (Dir.path [[104], [100]])).run
        (new emptyHome.creds fun _ => 0)).1 ∧
    (∀ found, ((resolve ⟨1000, 100, [100]⟩ (Dir.path [[104], [100]])).run
        (new privateHome.creds fun _ => 0)).1 = some found ↔
      ∃ trail final, privateHome.Leads (privateHome.Searches ⟨1000, 100, [100]⟩)
        (Dir.path [[104], [100]]) trail final ∧ found = final.path) ∧
    (new privateHome.creds fun _ => 0).Shows ⟨1000, 100, [100]⟩ [Dir.path [[104]]]
      (Dir.path [[104], [100], [120]]) := by
  obtain ⟨alike, -, -⟩ :=
    filter_answers_own_walks ⟨2000, 200, [200]⟩ (new privateHome.creds fun _ => 0)
  obtain ⟨-, exact_, shown⟩ :=
    filter_answers_own_walks ⟨1000, 100, [100]⟩ (new privateHome.creds fun _ => 0)
  have closed : ¬ privateHome.Searches ⟨2000, 200, [200]⟩ [[104]] := by
    rintro (⟨superuser, _⟩ | admits)
    · exact absurd superuser (by decide)
    · exact absurd admits (by decide)
  have agree : privateHome.Agree emptyHome ⟨2000, 200, [200]⟩ := by
    refine ⟨by decide, ?_⟩
    intro dir reached name
    by_cases inside : dir = [[104]]
    · exact absurd (reached [[104]] (inside ▸ List.prefix_refl _)) closed
    · have other : dir ++ [name] ≠ [[104], [100]] := by
        intro same
        have := congrArg List.dropLast same
        rw [List.dropLast_concat] at this
        exact inside this
      exact (if_neg other).symm
  refine ⟨?_, ?_, ?_⟩
  · exact (alike privateHome emptyHome _ [] _ (by decide) agree
      (fresh_new _ _) rfl (fresh_new _ _) rfl).1
  · exact (exact_ privateHome _ (fresh_new _ _) rfl).mpr
      (fun superuser => absurd superuser (by decide))
  · exact shown [Dir.path [[104]]]
      (.create (Dir.path [[104], [100], [120]])) (.create (Dir.path [[104], [100], [120]]))
      (by decide) _ (by simp [Event.paths])

/-- The superuser's walk through a private home ends, but the path does not resolve for it. -/
theorem superuser_not_resolved :
    ¬ ∀ (files : FileSystem) (subscriber : Subscriber) (filter : AccessFilter) (path : PathBuf),
      filter.Fresh → filter.creds = files.creds →
        ∀ found, ((resolve subscriber path).run filter).1 = some found ↔
          ∃ trail final, files.Leads (files.Searches subscriber) path trail final ∧
            found = final.path := by
  intro exact_
  let path := Dir.path [[104], [100]]
  have open_ : ∀ dir, (privateHome.owner dir).isSome → privateHome.Searches ⟨0, 0, [0]⟩ dir :=
    fun dir there => Or.inl ⟨rfl, there⟩
  have walk : privateHome.Leads (privateHome.Searches ⟨0, 0, [0]⟩) path [[], [[104]]]
      [[104], [100]] := by
    refine ⟨by decide, 0, by decide, ?_⟩
    refine .enter (open_ [] (by decide))
      (show privateHome.tree [[104]] = some (.dir ⟨1000, 100, 0o700⟩) by decide) ?_
    refine .enter (open_ [[104]] (by decide))
      (show privateHome.tree [[104], [100]] = some (.dir ⟨1000, 100, 0o755⟩) by decide) ?_
    exact .done _
  have admitted := (resolve_exact_iff (fresh_new privateHome.creds fun _ => 0) rfl path).mp
    (exact_ privateHome ⟨0, 0, [0]⟩ (new privateHome.creds fun _ => 0) path
      (fresh_new _ _) rfl) rfl _ _ walk [[104]] (by simp)
  exact absurd admitted (by decide)

end AccessFilter

end Watchd
end Metafolder
