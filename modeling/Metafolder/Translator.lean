import Metafolder.Kernel

/-!
# From the kernel's events to the broker's

What the broker makes of one read of the queue: the events of directories outside the roots are
dropped by their handles, the others are told by path, and a directory whose events keep being
dropped is given an ignore mark.  Paths and verdicts are remembered until a directory move is read.
The filesystems go on changing meanwhile, before each question the kernel is asked.
-/

namespace Metafolder
namespace Watchd

/-- `SCOPE_MAX`. -/
def scopeMax : Nat := 65536

/-- `RESOLVE_CACHE_MAX`. -/
def resolveCacheMax : Nat := 16384

/-- Why the kernel refuses an ignore mark. -/
inductive Refusal where
  /-- `EINVAL`: it does not know them. -/
  | unknown
  | other

/-- What happens before the kernel is asked one question, and how it answers. -/
structure Meanwhile where
  /-- What is done to the filesystems. -/
  ops : List Op := []
  /-- Whether the answer remembered is too old. -/
  expired : Bool := false
  /-- Whether the object's filesystem can be reached. -/
  reaches : Bool := true
  /-- The refusal of an ignore mark. -/
  refusal : Option Refusal := none

/-- `Scope`: whether an event concerns a root, by its directories. -/
structure Scope where
  roots : List PathBuf := []
  verdicts : List (Handle × Bool) := []
  droppedIn : List Handle := []
  moved : Bool := false

/-- `Translator`, with the answers its resolver remembers. -/
structure Translator where
  scope : Scope := {}
  cache : List (Handle × PathBuf) := []
  dropped : List (Handle × Nat) := []
  ignored : List Handle := []
  refused : Bool := false
  ignoreAfter : Nat := 1000
  ignoredMax : Nat := 1024

/-- The kernel, the translator over it, and what is still to happen as it works. -/
structure Group where
  kernel : Kernel
  translator : Translator := {}
  coming : List Meanwhile := []

/-- `under_root`. -/
def underRoot (roots : List PathBuf) (path : PathBuf) : Bool := roots.any path.startsWith

namespace Kernel

/-- `IgnoreMarks::ignore`. -/
def ignore (kernel : Kernel) (handle : Handle) (meanwhile : Meanwhile) :
    Kernel × Except Refusal Unit :=
  if !meanwhile.reaches || !kernel.alive handle then (kernel, .error .other)
  else
    match meanwhile.refusal with
    | some refusal => (kernel, .error refusal)
    | none => ({ kernel with ignored := handle :: kernel.ignored }, .ok ())

/-- `IgnoreMarks::lift`. -/
def lift (kernel : Kernel) (handle : Handle) (meanwhile : Meanwhile) : Kernel :=
  if meanwhile.reaches then { kernel with ignored := kernel.ignored.filter (· != handle) }
  else if kernel.alive handle then { kernel with missed := handle :: kernel.missed }
  else kernel

end Kernel

namespace Group

def roots (group : Group) : List PathBuf := group.translator.scope.roots

/-- A question to the kernel: what happens before it is answered. -/
def ask (group : Group) : Meanwhile × Group :=
  match group.coming with
  | [] => ({}, group)
  | meanwhile :: later =>
      (meanwhile, { group with
        kernel := meanwhile.ops.foldl Kernel.does group.kernel
        coming := later })

/-- `resolve_fresh`: where an object is now. -/
def resolveFresh (group : Group) (handle : Handle) : Option PathBuf × Group :=
  let (meanwhile, group) := group.ask
  (if meanwhile.reaches then group.kernel.pathOf handle else none, group)

/-- What is remembered of an object, replaced. -/
def remember (group : Group) (handle : Handle) (path : PathBuf) : Group :=
  let cache :=
    if resolveCacheMax ≤ group.translator.cache.length then [] else group.translator.cache
  { group with translator.cache := (handle, path) :: cache.filter (·.1 != handle) }

/-- `Memo::resolve`. -/
def resolve (group : Group) (handle : Handle) : Option PathBuf × Group :=
  let (meanwhile, group) := group.ask
  let held := if meanwhile.expired then none else group.translator.cache.lookup handle
  match held with
  | some path => (some path, group)
  | none =>
      if meanwhile.reaches then
        match group.kernel.pathOf handle with
        | some path => (some path, group.remember handle path)
        | none => (none, group)
      else (none, group)

/-! ### Scope -/

/-- A verdict is remembered. -/
def judge (group : Group) (handle : Handle) (verdict : Bool) : Group :=
  let verdicts :=
    if scopeMax ≤ group.translator.scope.verdicts.length then []
    else group.translator.scope.verdicts
  { group with translator.scope.verdicts := (handle, verdict) :: verdicts }

/-- `dir_under_root`. -/
def dirUnderRoot (group : Group) (handle : Handle) : Bool × Group :=
  match group.translator.scope.verdicts.lookup handle with
  | some verdict => (verdict, group)
  | none =>
      let (path, group) := group.resolve handle
      match path with
      | none => (false, group)
      | some path =>
          let verdict := underRoot group.roots path
          (verdict, group.judge handle verdict)

/-- Whether some directory is under a root. -/
def someUnderRoot (group : Group) : List Handle → Bool × Group
  | [] => (false, group)
  | handle :: rest =>
      let (verdict, group) := group.dirUnderRoot handle
      if verdict then (true, group) else group.someUnderRoot rest

/-- The directories an event names. -/
def dirsOf (raw : RawEvent) : List Handle :=
  ([raw.parent, raw.old, raw.new].filterMap id).map Prod.fst

/-- Every path remembered is forgotten. -/
def forget (group : Group) : Group := { group with translator.cache := [] }

/-- Every verdict is forgotten, for a directory that moved. -/
def unjudge (group : Group) : Group :=
  { group with translator.scope.verdicts := [], translator.scope.moved := true }

/-- An event outside the roots is counted where an ignore mark would have silenced it. -/
def countDropped (group : Group) (raw : RawEvent) : Group :=
  if raw.mask.ignorable then
    match raw.parent with
    | some (dir, _) =>
        { group with translator.scope.droppedIn := group.translator.scope.droppedIn ++ [dir] }
    | none => group
  else group

/-- `relevant`. -/
def relevant (group : Group) (raw : RawEvent) : Bool × Group :=
  let group := if raw.isDirectoryMove then group.unjudge else group
  let (under, group) := group.someUnderRoot (dirsOf raw)
  if under then (true, group)
  else
    let group := group.countDropped raw
    match raw.fid, dirsOf raw with
    | some handle, [] =>
        let (path, group) := group.resolve handle
        (path.any (underRoot group.roots), group)
    | _, _ => (false, group)

/-! ### Translation -/

/-- `path_of` of `translate`: a record's path. -/
def recordPath (group : Group) (handle : Handle) (name : Bytes) : Option PathBuf × Group :=
  let (base, group) := group.resolve handle
  (base.map fun base => if name = [] ∨ name = Kernel.itself then base else base.join name, group)

/-- `push_parent`: the event of an entry. -/
def entryEvent (group : Group) (raw : RawEvent) (asked : Bool) (make : PathBuf → Event) :
    List Event × Group :=
  match asked, raw.parent with
  | true, some (handle, name) =>
      let (path, group) := group.recordPath handle name
      ((path.map make).toList, group)
  | _, _ => ([], group)

/-- One side of a move. -/
def sidePath (group : Group) : Option (Handle × Bytes) → Option PathBuf × Group
  | some (handle, name) => group.recordPath handle name
  | none => (none, group)

/-- The event of a move. -/
def moveEvent (group : Group) (raw : RawEvent) : List Event × Group :=
  if raw.mask.rename then
    let (source, group) := group.sidePath raw.old
    let (target, group) := group.sidePath raw.new
    match source, target with
    | some source, some target => ([.rename source target], group)
    | some source, none => ([.renameFrom source], group)
    | none, some target => ([.renameTo target], group)
    | none, none => ([], group)
  else ([], group)

/-- The event of an object's own end. -/
def endEvent (group : Group) (raw : RawEvent) : List Event × Group :=
  if raw.mask.deleteSelf then
    match raw.fid <|> raw.parent.map Prod.fst with
    | some handle =>
        let (path, group) := group.recordPath handle []
        ((path.map Event.remove).toList, group)
    | none => ([], group)
  else ([], group)

/-- `translate`, of one event. -/
def translate (group : Group) (raw : RawEvent) : List Event × Group :=
  let (created, group) := group.entryEvent raw raw.mask.create .create
  let (removed, group) := group.entryEvent raw raw.mask.delete .remove
  let (departed, group) := group.entryEvent raw raw.mask.movedFrom .renameFrom
  let (arrived, group) := group.entryEvent raw raw.mask.movedTo .renameTo
  let (written, group) :=
    group.entryEvent raw (raw.mask.modify || raw.mask.closeWrite) .modifyData
  let (changed, group) := group.entryEvent raw raw.mask.attrib .modifyMeta
  let (moved, group) := group.moveEvent raw
  let (ended, group) := group.endEvent raw
  (created ++ removed ++ departed ++ arrived ++ written ++ changed ++ moved ++ ended, group)

/-- `Moves`: the moves of one batch, per object, in order. -/
abbrev Moves := List (Handle × List (PathBuf × PathBuf))

/-- `Moves::hop`. -/
def hop (handle : Handle) (source target : PathBuf) : Moves → Moves
  | [] => [(handle, [(source, target)])]
  | held :: rest =>
      if held.1 = handle then (held.1, held.2 ++ [(source, target)]) :: rest
      else held :: hop handle source target rest

/-- The move an event told of, noted. -/
def hopOf (raw : RawEvent) (told : List Event) (moves : Moves) : Moves :=
  match raw.fid, told.getLast? with
  | some handle, some (.rename source target) => hop handle source target moves
  | _, _ => moves

/-- `restore_merged_moves`: the moves merged away, put back. -/
def restoreMergedMoves (group : Group) : Moves → List Event × Group
  | [] => ([], group)
  | (handle, hops) :: rest =>
      match hops.getLast? with
      | none => group.restoreMergedMoves rest
      | some (_, last) =>
          let (now, group) := group.resolveFresh handle
          let restored := match now with
            | some now =>
                if now ≠ last ∧ hops.any (fun hop => hop.1 == last && hop.2 == now) then
                  [Event.rename last now]
                else []
            | none => []
          let (others, group) := group.restoreMergedMoves rest
          (restored ++ others, group)

/-- `translate_batch`, its loop. -/
def translateEach (group : Group) (moves : Moves) : List RawEvent → List Event × Moves × Group
  | [] => ([], moves, group)
  | raw :: rest =>
      let group := if raw.isDirectoryMove then group.forget else group
      let (relevant, group) := group.relevant raw
      if relevant then
        let (told, group) := group.translate raw
        let (others, moves, group) := group.translateEach (hopOf raw told moves) rest
        (told ++ others, moves, group)
      else group.translateEach moves rest

/-- `translate_batch`. -/
def translateBatch (group : Group) (raws : List RawEvent) : List Event × Group :=
  let (told, moves, group) := group.translateEach [] raws
  let (restored, group) := group.restoreMergedMoves moves
  (told ++ restored, group)

/-! ### Ignore marks -/

/-- A directory still outside the roots keeps its mark; from any other it is lifted. -/
def sweep (group : Group) : List Handle → Group
  | [] => group
  | dir :: rest =>
      let (path, group) := group.resolveFresh dir
      if path.any fun path => !underRoot group.roots path then
        { group with translator.ignored := dir :: group.translator.ignored }.sweep rest
      else
        let (meanwhile, group) := group.ask
        { group with
          kernel := group.kernel.lift dir meanwhile
          translator.dropped := group.translator.dropped.filter (·.1 != dir) }.sweep rest

/-- `ignore`. -/
def ignore (group : Group) (dir : Handle) : Group :=
  if group.translator.refused || group.translator.ignoredMax ≤ group.translator.ignored.length ||
      group.translator.ignored.contains dir then group
  else
    let (path, group) := group.resolveFresh dir
    if path.any fun path => !underRoot group.roots path then
      let (meanwhile, group) := group.ask
      let (kernel, answer) := group.kernel.ignore dir meanwhile
      match answer with
      | .ok () =>
          { group with kernel := kernel, translator.ignored := dir :: group.translator.ignored }
      | .error .unknown => { group with translator.refused := true }
      | .error .other => group
    else group

/-- One more event dropped in a directory outside the roots. -/
def countIn (group : Group) (dir : Handle) : Group :=
  let dropped :=
    if scopeMax ≤ group.translator.dropped.length then [] else group.translator.dropped
  let count := (dropped.lookup dir).getD 0 + 1
  let counted :=
    { group with translator.dropped := (dir, count) :: dropped.filter (·.1 != dir) }
  if count = group.translator.ignoreAfter then counted.ignore dir else counted

/-- `settle_ignores`. -/
def settleIgnores (group : Group) : Group :=
  let moved := group.translator.scope.moved
  let group := { group with translator.scope.moved := false }
  let group :=
    if moved then { group with translator.ignored := [] }.sweep group.translator.ignored
    else group
  let dirs := group.translator.scope.droppedIn
  dirs.foldl countIn { group with translator.scope.droppedIn := [] }

/-! ### What happens -/

/-- One read of the queue, of some of its events, and what happens as it is translated: the events
told, and whether the queue overflowed. -/
def read (group : Group) (count : Nat) (meanwhile : List Meanwhile) :
    (List Event × Bool) × Group :=
  let batch := group.kernel.queue.take count
  let group := { group with
    kernel.queue := group.kernel.queue.drop count
    coming := meanwhile }
  let (told, group) := group.translateBatch (batch.filter fun raw => !raw.mask.qOverflow)
  ((told, batch.any fun raw => raw.mask.qOverflow), { group.settleIgnores with coming := [] })

/-- An operation on the filesystems. -/
def does (group : Group) (op : Op) : Group := { group with kernel := group.kernel.does op }

/-- `set_roots` and `marks_placed`: the roots to cover, or the mount table, changed. -/
def cover (group : Group) (roots : List PathBuf) (base : Nat → Option PathBuf) : Group :=
  { group with
    kernel := { group.kernel with base := base, ignored := [], dropped := [], missed := [] }
    translator := { group.translator with
      scope := { group.translator.scope with roots := roots, verdicts := [] }
      cache := []
      ignored := []
      dropped := [] } }

/-- A group just opened. -/
def opened (objects : List Object) (maxEvents ignoreAfter ignoredMax : Nat) : Group where
  kernel :=
    { objects := objects
      base := fun _ => none
      maxEvents := maxEvents }
  translator := { ignoreAfter := ignoreAfter, ignoredMax := ignoredMax }

end Group

/-- A step of a run. -/
inductive Step where
  /-- An operation on the filesystems. -/
  | does (op : Op)
  /-- A read of the queue. -/
  | read (count : Nat) (meanwhile : List Meanwhile)
  /-- The marks are placed again. -/
  | cover (roots : List PathBuf) (base : Nat → Option PathBuf)

namespace Group

def step (group : Group) : Step → Group
  | .does op => group.does op
  | .read count meanwhile => (group.read count meanwhile).2
  | .cover roots base => group.cover roots base

/-- What steps lead to. -/
def run (group : Group) (steps : List Step) : Group := steps.foldl step group

end Group

end Watchd
end Metafolder
