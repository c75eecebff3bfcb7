import AlloyFs.Agent.Ops
import AlloyFs.Sync.Reconcile

/-!
# The sync engine

One executor owns the baseline and makes every change: it applies remote events to the
local tree, pushes local ones, and reconciles the two.

The engine runs against a `Peer`, which answers its requests or loses them and may change
by itself in between.  What else comes from outside is in `Env`: which calls on the disk
fail for reasons that do not lie in the tree, and what the clocks show.
-/

namespace AlloyFs.Sync

/-- The other side of the connection. -/
structure Peer (σ : Type) where
  /-- the answer to a request; none if the connection fails -/
  answer : Request → σ → Option (Except ErrorCode Response) × σ
  /-- the file at a path has this content -/
  holds : σ → RelPath → Bytes → Prop

/-- The client's errors. -/
inductive FsError
  | remote (e : ErrorCode)
  | transport
deriving DecidableEq

/-- Which side wins a conflict. -/
inductive ConflictPolicy
  /-- the newer one; the server if they are equally old -/
  | newer
  | remote
  | local_
deriving DecidableEq

/-- What the local tree will look like after a change of the engine's own. -/
inductive Expect
  | present (size mtimeNs : ℕ)
  | absent
  | dir
deriving DecidableEq

structure Suppress where
  expect : Expect
  at_ : ℕ

/-- How long an expectation suppresses echoes, in nanoseconds. -/
def SUPPRESS_TTL : ℕ := 2000000000

inductive Op
  | remote (batch : List FsEvent)
  | local_ (batch : List (RelPath × EventKind))
  | reconcile

/-- What comes from outside. -/
structure Env where
  /-- the `n`-th change to the disk fails -/
  fault : ℕ → Bool
  /-- the `n`-th reading of the monotonic clock, in nanoseconds -/
  instant : ℕ → ℕ
  /-- the `n`-th reading of the wall clock, in seconds -/
  wall : ℕ → ℕ

structure SyncEngine (σ : Type) where
  root : Loc
  exclude : ExcludeSet
  policy : ConflictPolicy
  disk : Disk
  remote : σ
  manifest : SyncManifest
  suppress : AList fun _ : Text => Suppress
  queue : List Op
  stopped : Bool
  env : Env
  /-- changes made to the disk so far -/
  calls : ℕ
  /-- readings of the monotonic clock so far -/
  ticks : ℕ
  /-- readings of the wall clock so far -/
  readings : ℕ

abbrev EngineM (σ α : Type) := EStateM FsError (SyncEngine σ) α

/-- The name a conflict's loser is kept under. -/
def conflictSuffix (secs : ℕ) : Text := ".sync-conflict-".toList ++ Nat.toDigits 10 secs

def conflictName (path : Text) (secs : ℕ) : Text := path ++ conflictSuffix secs

/-- The path is a conflict copy itself. -/
def isConflictCopy (path : Text) : Bool := decide (".sync-conflict-".toList <:+: path)

/-- Where a download is staged: beside its destination. -/
def stagingOf (full : List Name) : List Name :=
  full.dropLast ++ [".ds-tmp-".toList ++ full.getLast?.getD []]

/-- The chunks a file of some size is transferred in: offset and length. -/
def chunks (size : ℕ) : List (ℕ × ℕ) :=
  ((List.range ((max size 1 + DATA_CHUNK - 1) / DATA_CHUNK)).map fun i =>
    (i * DATA_CHUNK, min (size - min (i * DATA_CHUNK) size) DATA_CHUNK)).filter fun c => 0 < c.2

/-- The local file differs from its baseline, or has none. -/
def localDirty (base : Option SyncEntry) (l : Stat) : Bool :=
  match base with
  | some b => !decide (l.kind = b.kind ∧ l.size = b.size ∧ l.mtimeNs = b.mtimeNs)
  | none => true

/-- The server's file is neither the baseline's version nor of its size and time. -/
def remoteDirty (base : Option SyncEntry) (r : Stat) : Bool :=
  match base with
  | some b =>
    !decide (b.remoteVersion ≠ 0 ∧ b.remoteVersion = r.version) &&
      !decide (b.size = r.size ∧ b.mtimeNs = r.mtimeNs)
  | none => true

/-- An edit that a remote delete must not take away. -/
def editWins (base : Option SyncEntry) (l : Stat) : Bool :=
  match base with
  | some b =>
    !(decide (l.kind = b.kind) &&
      (decide (l.kind = .dir) || decide (l.size = b.size ∧ l.mtimeNs = b.mtimeNs)))
  | none => false

/-- The server's view of a file, from its attributes. -/
def statOfAttr (a : Attr) : Stat := ⟨.file, a.size, mtimeNsOf a.mtime, a.version⟩

def localWins (policy : ConflictPolicy) (here there : Stat) : Bool :=
  match policy with
  | .local_ => true
  | .remote => false
  | .newer => decide (there.mtimeNs < here.mtimeNs)

namespace SyncEngine

open Act

variable {σ : Type} (peer : Peer σ)

/-! ## The world outside -/

def full (s : SyncEngine σ) (rel : Text) : List Name := s.root ++ (RelPath.mk rel).comps

/-- What the disk shows of a path; a link counts as a file. -/
def localStat (s : SyncEngine σ) (rel : Text) : Option Stat :=
  match s.disk.fs.lstat (s.full rel) with
  | some (.dir, _) => some ⟨.dir, 0, 0, 0⟩
  | some (_, st) => some ⟨.file, st.size, mtimeNsOf st.mtime, 0⟩
  | none => none

/-- Send a request; a lost connection ends the operation. -/
def request (req : Request) : EngineM σ (Except ErrorCode Response) := fun s =>
  match peer.answer req s.remote with
  | (some reply, r) => .ok reply { s with remote := r }
  | (none, r) => .error .transport { s with remote := r }

/-- Send a request; an error of the server ends the operation too. -/
def ask (req : Request) : EngineM σ Response := do
  let reply ← request peer req
  orFail (reply.mapError .remote)

/-- Change the disk.  A call that fails changes nothing here, while `remove_dir_all` and `copy` can
stop half-way and leave what they did. -/
def onDisk {α : Type} (c : DiskCall α) : EngineM σ α := fun s =>
  if s.env.fault s.calls then .error (.remote .io) { s with calls := s.calls + 1 }
  else
    match c.exec s.disk with
    | .ok (a, disk) => .ok a { s with calls := s.calls + 1, disk := disk }
    | .error _ => .error (.remote .io) { s with calls := s.calls + 1 }

def instantNow : EngineM σ ℕ := fun s =>
  .ok (s.env.instant s.ticks) { s with ticks := s.ticks + 1 }

def wallNow : EngineM σ ℕ := fun s =>
  .ok (s.env.wall s.readings) { s with readings := s.readings + 1 }

def enqueue (op : Op) : EngineM σ Unit :=
  modify fun s => if s.stopped then s else { s with queue := s.queue ++ [op] }

/-- Record what the local tree will look like after the engine's own change. -/
def expect (rel : Text) (e : Expect) : EngineM σ Unit := do
  let now ← instantNow
  modify fun s => { s with suppress := s.suppress.insert rel ⟨e, now⟩ }

/-- What is there is what was expected. -/
def asExpected : Expect → Option Stat → Bool
  | .absent, none => true
  | .dir, some s => decide (s.kind = .dir)
  | .present size mtimeNs, some s =>
    decide (s.kind = .file ∧ s.size = size ∧ s.mtimeNs = mtimeNs)
  | _, _ => false

/-- A path the watcher reports was changed by the engine itself. -/
def isOwnEcho (rel : Text) : EngineM σ Bool := do
  let s ← get
  match s.suppress.lookup rel with
  | none => return false
  | some entry =>
    let now ← instantNow
    if SUPPRESS_TTL < now - entry.at_ then
      modify fun s => { s with suppress := s.suppress.erase rel }
      return false
    else return asExpected entry.expect (s.localStat rel)

def record (rel : Text) (kind : EntryKind) (size mtimeNs version : ℕ) : EngineM σ Unit :=
  modify fun s => { s with manifest := s.manifest.insert rel ⟨kind, version, size, mtimeNs⟩ }

def recordStat (rel : Text) (st : Stat) (version : ℕ) : EngineM σ Unit :=
  record rel st.kind st.size st.mtimeNs version

def forget (rel : Text) : EngineM σ Unit :=
  modify fun s => { s with manifest := s.manifest.remove rel }

def forgetTree (rel : Text) : EngineM σ Unit :=
  modify fun s => { s with manifest := s.manifest.removeTree rel }

/-! ## Transfers -/

/-- Read an open file chunk by chunk; each answer is appended as it is. -/
def fetchChunks (fh : ℕ) : List (ℕ × ℕ) → Bytes → EngineM σ Bytes
  | [], out => return out
  | c :: cs, out => do
    let resp ← ask peer (.read fh c.1 c.2)
    match resp with
    | .data bytes => fetchChunks fh cs (out ++ bytes)
    | _ => throw (.remote .io)

def fetchBody (fh size : ℕ) (staging : List Name) : EngineM σ Unit := do
  let out ← fetchChunks peer fh (chunks size) []
  onDisk (.write staging out)

/-- Download a file into a staging file, with the server's time. -/
def downloadTo (rel : Text) (staging : List Name) : EngineM σ Attr := do
  let resp ← ask peer (.openFile ⟨rel⟩ { read := true })
  match resp with
  | .opened fh attr =>
    let result ← attempt (fetchBody peer fh attr.size staging)
    let _ ← attempt (request peer (.release fh))
    orFail result
    onDisk (.setModified staging attr.mtime)
    return attr
  | _ => throw (.remote .io)

/-- Write an open file chunk by chunk, up to the first failure. -/
def sendChunks (fh : ℕ) (data : Bytes) : List (ℕ × ℕ) → EngineM σ Unit
  | [] => return ()
  | c :: cs => do
    let resp ← attempt (request peer (.write fh c.1 ((data.drop c.1).take c.2) none))
    match resp with
    | .ok (.ok (.written _ _ _)) => sendChunks fh data cs
    | _ => throw (.remote .io)

/-- Upload a local file, then give it the local time. -/
def upload (rel : Text) : EngineM σ Attr := do
  let s ← get
  let file ← orFail ((s.disk.fs.readFile (s.full rel)).mapError fun _ => .remote .io)
  let resp ← ask peer (.create ⟨rel⟩ { write := true, truncate := true } 0o644)
  match resp with
  | .opened fh _ =>
    let result ← attempt (sendChunks peer fh file.content (chunks file.content.length))
    let _ ← attempt (request peer (.release fh))
    orFail result
    let resp ← ask peer (.setattr ⟨rel⟩ none (some file.mtime) none)
    match resp with
    | .attr attr => return attr
    | _ => throw (.remote .io)
  | _ => throw (.remote .io)

/-- Download into place: staging file, time, rename. -/
def pull (rel : Text) : EngineM σ Unit := do
  let s ← get
  let dst := s.full rel
  onDisk (.createDirAll dst.dropLast)
  ensure (decide (dst.getLast? ≠ some ['.', '.'])) (.remote .invalidPath)
  let got ← attempt (downloadTo peer rel (stagingOf dst))
  match got with
  | .error e =>
    let _ ← attempt (onDisk (σ := σ) (.removeFile (stagingOf dst)))
    throw e
  | .ok attr =>
    expect rel (.present attr.size (mtimeNsOf attr.mtime))
    onDisk (.rename (stagingOf dst) dst)
    record rel .file attr.size (mtimeNsOf attr.mtime) attr.version

/-- Upload the local file as it is. -/
def push (rel : Text) : EngineM σ Unit := do
  let attr ← upload peer rel
  let s ← get
  match s.localStat rel with
  | some l => record rel .file l.size l.mtimeNs attr.version
  | none => throw (.remote .io)

/-! ## Conflicts -/

/-- Push a conflict copy that was made; a failure is only logged. -/
def pushKept (kept : Bool) (keep : Text) : EngineM σ Unit := do
  if kept then
    let _ ← attempt (push peer keep)
  return ()

/-- Keep the server's copy beside the local file, then overwrite the server's. -/
def keepRemote (rel keep : Text) : EngineM σ Unit := do
  let s ← get
  let dst := s.full keep
  let _ ← attempt (onDisk (σ := σ) (.createDirAll dst.dropLast))
  let kept ← attempt (do
    let _ ← downloadTo peer rel (stagingOf dst)
    onDisk (.rename (stagingOf dst) dst))
  let res ← attempt (push peer rel)
  pushKept peer kept.isOk keep
  orFail res

/-- Copy the local file aside, then overwrite it with the server's. -/
def keepLocal (rel keep : Text) : EngineM σ Unit := do
  let s ← get
  let kept ← attempt (onDisk (σ := σ) (.copy (s.full rel) (s.full keep)))
  let res ← attempt (pull peer rel)
  pushKept peer kept.isOk keep
  orFail res

/-- Both sides changed: the policy's winner overwrites the other, which is kept as a
conflict copy. -/
def resolveConflict (rel : Text) (here there : Stat) : EngineM σ Unit := do
  let s ← get
  let wins := localWins s.policy here there
  -- a conflict copy that conflicts itself is not copied again
  if isConflictCopy rel then
    if wins then push peer rel else pull peer rel
  else
    let secs ← wallNow
    let keep := conflictName rel secs
    if wins then keepRemote peer rel keep else keepLocal peer rel keep

/-! ## Remote changes -/

/-- Pull a file the server has, unless the baseline shows it already; if the local file
changed too, it is a conflict. -/
def pullFile (rel : Text) (there : Stat) : EngineM σ Unit := do
  let s ← get
  let base := s.manifest.get rel
  if base.any fun b => decide (b.size = there.size ∧ b.mtimeNs = there.mtimeNs) then return ()
  else
    match s.localStat rel with
    | some l =>
      if localDirty base l then
        if l.size = there.size ∧ l.mtimeNs = there.mtimeNs then recordStat rel l there.version
        else resolveConflict peer rel l there
      else pull peer rel
    | none => pull peer rel

def pullIfNeeded (rel : Text) : EngineM σ Unit := do
  let reply ← request peer (.getattr ⟨rel⟩)
  match reply with
  | .ok (.attr attr) =>
    if attr.kind = .dir then
      expect rel .dir
      let s ← get
      onDisk (.createDirAll (s.full rel))
      record rel .dir 0 0 attr.version
    else pullFile peer rel (statOfAttr attr)
  | .ok _ => throw (.remote .io)
  | .error .notFound => return ()
  | .error e => throw (.remote e)

/-- Expect that everything in a snapshot below a path goes away. -/
def expectGone (rel : Text) : List Text → EngineM σ Unit
  | [] => return ()
  | child :: rest => do
    expect (dirPrefix rel ++ child) .absent
    expectGone rel rest

/-- The entries below a local directory, named from there. -/
def childrenOf (s : SyncEngine σ) (rel : Text) (exclude : ExcludeSet) : Snapshot :=
  match s.disk.fs.canonicalize (s.full rel) with
  | .ok l => (snapshotLocal s.disk.fs l exclude).toOption.getD ∅
  | .error _ => ∅

/-- The paths of a snapshot in order. -/
def sortedKeys (snap : Snapshot) : List Text := snap.keys.insertionSort textLe

/-- Remove a path locally, unless it was edited. -/
def deleteLocal (rel : Text) : EngineM σ Unit := do
  let s ← get
  match s.localStat rel with
  | none => forget rel
  | some stat =>
    if editWins (s.manifest.get rel) stat then return ()
    else if stat.kind = .dir then
      expectGone rel (sortedKeys (s.childrenOf rel .none))
      expect rel .absent
      onDisk (.removeDirAll (s.full rel))
      forgetTree rel
    else
      expect rel .absent
      onDisk (.removeFile (s.full rel))
      forget rel

/-- The expectation for a path that has just been moved somewhere. -/
def expectArrived (rel : Text) : EngineM σ Unit := do
  let s ← get
  onSome (s.localStat rel) fun st =>
    match st.kind with
    | .dir => expect rel .dir
    | .file => expect rel (.present st.size st.mtimeNs)

/-- Replay a remote rename; says whether the baseline moved along. -/
def renameLocal (rel dst : Text) : EngineM σ Bool := do
  let s ← get
  if s.disk.fs.leadsSomewhere (s.full rel) then
    expect rel .absent
    let _ ← attempt (onDisk (σ := σ) (.createDirAll (s.full dst).dropLast))
    let moved ← attempt (onDisk (σ := σ) (.rename (s.full rel) (s.full dst)))
    if moved.isOk then
      expectArrived dst
      let s ← get
      set { s with manifest := (s.manifest.renamePrefix rel dst).2 }
      return (s.manifest.renamePrefix rel dst).1
    else return false
  else return false

def applyRemote (ev : FsEvent) : EngineM σ Unit := do
  let s ← get
  let rel := ev.path.text
  if s.exclude.isExcluded ev.path || isInternal rel then return ()
  else
    match ev.kind with
    | .created | .modified | .attrChanged => pullIfNeeded peer rel
    | .removed => deleteLocal rel
    | .renamedFrom dst =>
      let done ← renameLocal rel dst.text
      if done then return () else pullIfNeeded peer dst.text
    | .resyncRequired => enqueue .reconcile

/-! ## Local changes -/

/-- Make a directory on the server; one that is there already is fine. -/
def mkdirRemote (rel : Text) : EngineM σ Unit := do
  let reply ← request peer (.mkdir ⟨rel⟩ 0o755)
  match reply with
  | .ok _ | .error .alreadyExists => record rel .dir 0 0 0
  | .error e => throw (.remote e)

/-- The baseline shows what the snapshot has. -/
def known (base : Option SyncEntry) (st : Stat) : Bool :=
  match base with
  | some b =>
    decide (b.kind = st.kind ∧ b.size = st.size ∧ b.mtimeNs = st.mtimeNs) ||
      decide (st.kind = .dir ∧ b.kind = .dir)
  | none => false

/-- Push the entries of a new directory that the baseline does not know; failures are
only logged. -/
def pushChildren (rel : Text) (snap : Snapshot) : List Text → EngineM σ Unit
  | [] => return ()
  | child :: rest => do
    let path := dirPrefix rel ++ child
    let s ← get
    onSome ((snap.lookup child).filter fun st => !known (s.manifest.get path) st) fun st => do
      let _ ← attempt (if st.kind = .dir then mkdirRemote peer path else push peer path)
    pushChildren rel snap rest

def pushNewDirContents (rel : Text) : EngineM σ Unit := do
  let s ← get
  let snap := s.childrenOf rel s.exclude
  pushChildren peer rel snap (sortedKeys snap)

/-- Push a local file; if the server's changed too, it is a conflict. -/
def pushFile (rel : Text) (here : Stat) : EngineM σ Unit := do
  let reply ← request peer (.getattr ⟨rel⟩)
  match reply with
  | .ok (.attr attr) =>
    let there := statOfAttr attr
    let s ← get
    if remoteDirty (s.manifest.get rel) there then
      if here.size = there.size ∧ here.mtimeNs = there.mtimeNs then
        recordStat rel here there.version
      else resolveConflict peer rel here there
    else push peer rel
  | .error .notFound => push peer rel
  | .ok _ => throw (.remote .io)
  | .error e => throw (.remote e)

/-- Delete a path on the server that the baseline knows as `b`. -/
def deleteOnServer (rel : Text) (b : SyncEntry) : EngineM σ Unit := do
  let reply ← request peer (.getattr ⟨rel⟩)
  match reply with
  | .error .notFound => forget rel
  | .ok (.attr a) =>
    -- an edit on the server wins
    if remoteDirty (some b) (statOfAttr a) && decide (a.kind ≠ .dir) then pull peer rel
    else
      let reply ← request peer (if a.kind = .dir then .rmdir ⟨rel⟩ else .unlink ⟨rel⟩)
      match reply with
      | .ok _ | .error .notFound => forgetTree rel
      | .error .notEmpty => return ()
      | .error e => throw (.remote e)
  | .ok _ => throw (.remote .io)
  | .error e => throw (.remote e)

/-- The server has moved `rel` to `dst`: the baseline moves along, or is made anew. -/
def renamedOnServer (rel dst : Text) : EngineM σ Unit := do
  let s ← get
  set { s with manifest := (s.manifest.renamePrefix rel dst).2 }
  if (s.manifest.renamePrefix rel dst).1 then return ()
  else onSome (s.localStat dst) fun st => recordStat dst st 0

/-- The server never had the source: push the target. -/
def pushTarget (rel dst : Text) : EngineM σ Unit := do
  forget rel
  let s ← get
  match s.localStat dst with
  | some st => if st.kind = .dir then mkdirRemote peer dst else push peer dst
  | none => return ()

def pushLocal (rel : Text) (kind : EventKind) : EngineM σ Unit := do
  let echo ← isOwnEcho rel
  if echo then return ()
  else
    let s ← get
    match kind with
    | .created | .modified | .attrChanged =>
      match s.localStat rel with
      | none => return ()
      | some here =>
        if here.kind = .dir then
          mkdirRemote peer rel
          pushNewDirContents peer rel
        else pushFile peer rel here
    | .removed =>
      match s.manifest.get rel with
      | none => return ()
      | some b => deleteOnServer peer rel b
    | .renamedFrom dst =>
      let reply ← request peer (.rename ⟨rel⟩ dst true)
      match reply with
      | .ok _ => renamedOnServer rel dst.text
      | .error .notFound => pushTarget peer rel dst.text
      | .error e => throw (.remote e)
    | .resyncRequired => return ()

/-! ## Reconciling -/

/-- One entry of a remote listing. -/
def scanRemote (exclude : ExcludeSet) (dir : Text) (acc : Snapshot × List Text) (e : DirEntry) :
    Snapshot × List Text :=
  let path := if dir.isEmpty then e.name else dirPrefix dir ++ e.name
  if exclude.isExcluded ⟨path⟩ || isInternal path then acc
  else
    match e.attr.kind with
    | .dir => (acc.1.insert path ⟨.dir, 0, 0, e.attr.version⟩, path :: acc.2)
    | .file => (acc.1.insert path (statOfAttr e.attr), acc.2)
    -- links are not synced
    | .symlink => acc

/-- Work off the pages still to be asked for; out of fuel counts as a failure. -/
def remoteLoop : ℕ → List (Text × ℕ) → Snapshot → EngineM σ Snapshot
  | _, [], snap => return snap
  | 0, _ :: _, _ => throw (.remote .io)
  | n + 1, (dir, cursor) :: rest, snap => do
    let s ← get
    let resp ← ask peer (.readdir ⟨dir⟩ cursor)
    match resp with
    | .dir entries next =>
      let acc := entries.foldl (scanRemote s.exclude dir) (snap, [])
      let found := acc.2.map fun d => (d, 0)
      remoteLoop n ((next.map fun c => (dir, c)).toList ++ found ++ rest) acc.1
    | _ => throw (.remote .io)

def snapshotRemote (fuel : ℕ) : EngineM σ Snapshot := remoteLoop peer fuel [([], 0)] ∅

/-- The order actions run in: deletes last, children first. -/
def ordered (actions : List Action) : List Action :=
  actions.filter (fun a => !a.isDelete) ++ (actions.filter Action.isDelete).reverse

/-- Compare the two sides with the baseline. -/
def reconcilePlan (fuel : ℕ) : EngineM σ (List Action) := do
  let there ← snapshotRemote peer fuel
  let s ← get
  let here ← orFail ((snapshotLocal s.disk.fs s.root s.exclude).mapError fun _ => .remote .io)
  return ordered (plan s.manifest here there)

/-- What an action does; it may fail. -/
def perform : Action → EngineM σ Unit
  | .pull p => pullIfNeeded peer p
  | .push p => do
    let s ← get
    let isDir := (s.localStat p).any fun st => decide (st.kind = .dir)
    pushLocal peer p (if isDir then .created else .modified)
  | .deleteLocal p _ => deleteLocal p
  | .deleteRemote p _ => pushLocal peer p .removed
  | .adopt p st => recordStat p st st.version
  | .conflict p here there => resolveConflict peer p here there
  | .forget p => forget p

/-- Run an action; a failure is only logged. -/
def runAction (a : Action) : EngineM σ Unit := do
  let _ ← attempt (perform peer a)

def runActions : List Action → EngineM σ Unit
  | [] => return ()
  | a :: rest => do
    runAction peer a
    runActions rest

def reconcile (fuel : ℕ) : EngineM σ Unit := do
  let actions ← reconcilePlan peer fuel
  runActions peer actions

end SyncEngine

/-- The agent as the other side: it answers through its handlers, and what it holds is
what its paths lead to. -/
def Peer.agent (x : Export) : Peer Ctx where
  answer req c :=
    match Ctx.handle x req c with
    | .ok (some r) c' => (some (.ok r), c')
    | .ok none c' => (none, c')
    | .error e c' => (some (.error e), c')
  holds c path data := ∃ l, x.resolve c.fs path = .ok l ∧ c.fs.contentAt l = some data

end AlloyFs.Sync
