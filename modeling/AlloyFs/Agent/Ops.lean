import AlloyFs.Lib.Act
import AlloyFs.Common.Exclude
import AlloyFs.Os.Fs
import AlloyFs.Agent.Watch
import AlloyFs.Agent.Locks
import Mathlib.Algebra.Group.Nat.Defs
import Mathlib.Data.List.AList

/-!
# The agent's request handlers

A session is attached to an export and holds file handles.  Each request is one
handler: it checks that the export may be written to, resolves the paths it was given
against the export's root, makes one or two calls on the file system, and keeps the
books — versions, and which session touched which path.

Two functions turn a path of a request into a location.  `resolve` follows the whole
path and insists that it ends inside the root.  `resolveNew` does that for the parent
only and appends the last name, for paths that may not exist yet.
-/

namespace AlloyFs

/-! ## Exports and paths -/

/-- Suggested client settings. -/
structure MountDefaults where
  exclude : List Text
  pin : List Text
  autoCacheMax : Option ℕ
  autoCacheBudget : Option ℕ

/-- What is configured of an export; the root is a canonical location. -/
structure Export where
  name : Text
  root : Loc
  readOnly : Bool
  exclude : ExcludeSet
  mountDefaults : MountDefaults

/-- Follow a path below a root, refusing whatever ends outside it. -/
def resolveUnchecked (fs : Fs) (root : Loc) (rel : RelPath) : Except ErrorCode Loc :=
  if rel.validate = false then .error .invalidPath
  else if rel.isRoot then .ok root
  else
    match fs.canonicalize (root ++ rel.pushed) with
    | .error e => .error e
    | .ok canon => if root <+: canon then .ok canon else .error .permissionDenied

namespace Export

def resolve (x : Export) (fs : Fs) (rel : RelPath) : Except ErrorCode Loc :=
  if x.exclude.isExcluded rel then .error .notFound
  else
    match resolveUnchecked fs x.root rel with
    | .error e => .error e
    | .ok full =>
      -- what the path leads to must not be excluded either
      if x.exclude.empty = false ∧ x.exclude.isExcluded (stripRoot x.root full) = true then
        .error .notFound
      else .ok full

/-- `resolve` for paths that may not exist yet. -/
def resolveNew (x : Export) (fs : Fs) (rel : RelPath) : Except ErrorCode Loc :=
  if x.exclude.isExcluded rel then .error .notFound
  else if rel.validate = false then .error .invalidPath
  else
    match rel.split with
    | none => .error .invalidPath
    | some (parent, leaf) =>
      match x.resolve fs parent with
      | .error e => .error e
      | .ok parentFull => .ok (parentFull ++ [leaf])

end Export

/-- The components of a link target, in either dialect. -/
def splitTarget (target : Text) : List Name := target.splitOnP fun c => c == '/' || c == '\\'

/-- Follow the components of a target by their text alone. -/
def landing : List Name → List Name → Option (List Name)
  | stack, [] => some stack
  | stack, c :: cs =>
    if c = [] ∨ c = ['.'] then landing stack cs
    else if c = ['.', '.'] then
      if stack = [] then none else landing stack.dropLast cs
    else landing (stack ++ [c]) cs

/-- Where a link would land, as a path of the export; `none` if it leaves it.  The
check is lexical: it counts from the path the link was asked for. -/
def symlinkLandsInside (link : RelPath) (target : Text) : Option RelPath :=
  match target with
  | [] => none
  | c :: rest =>
    if c = '/' ∨ c = '\\' then none
    else if c.isAlpha ∧ rest.head? = some ':' then none
    else
      match link.split with
      | none => none
      | some (parent, _) =>
        match landing parent.pushed (splitTarget target) with
        | none => none
        | some stack => some ⟨['/'].intercalate stack⟩

/-! ## Sessions -/

/-- An open file of a session: which file, and where and under which path it was
opened. -/
structure OpenFile where
  ino : ℕ
  loc : Loc
  path : RelPath
  writable : Bool
deriving DecidableEq

/-- One session. -/
structure SessionInner where
  id : ℕ
  attached : Bool
  handles : AList fun _ : ℕ => OpenFile
  nextFh : ℕ
  requiredToken : Option Text
  authed : Bool

namespace SessionInner

def withToken (id : ℕ) (token : Option Text) : SessionInner :=
  ⟨id, false, ∅, 1, token, token.isNone⟩

end SessionInner

/-- The state the sessions of an export share. -/
structure Agent where
  fs : Fs
  versions : AList fun _ : RelPath => ℕ
  vclock : ℕ
  events : EventHub
  locks : LockTable
  /-- block size, blocks and free blocks of the volume, if it tells -/
  space : Option (ℕ × ℕ × ℕ)
  clock : ℕ

/-- What a request is handled in: the shared state and the session. -/
structure Ctx extends Agent where
  me : SessionInner

/-- A handler changes the state and answers, or fails. -/
abbrev Handler (α : Type) := EStateM ErrorCode Ctx α

/-- Permission bits. -/
def modeBits (mode : ℕ) : ℕ := mode % 0o10000

def attrFromMetadata (md : FileKind × Stat) (version : ℕ) : Attr :=
  ⟨md.1, md.2.size, md.2.mtime, md.2.ctime, modeBits md.2.mode, version⟩

/-- The bytes after writing `data` at an offset; a gap is filled with zeros. -/
def writeAt (content : Bytes) (offset : ℕ) (data : Bytes) : Bytes :=
  if data = [] then content
  else
    (content ++ List.replicate (offset - content.length) 0).take offset ++ data ++
      content.drop (offset + data.length)

/-- `set_len`: cut or fill with zeros. -/
def setLen (content : Bytes) (size : ℕ) : Bytes :=
  (content ++ List.replicate (size - content.length) 0).take size

namespace Ctx

open Act

variable (x : Export)

/-! ## Parts of handlers -/

/-- Make a call on the file system. -/
def call {α : Type} (f : Fs → Fs.Call α) : Handler α :=
  lens (fun c => c.fs) (fun c fs => { c with fs := fs }) f

/-- The session must be attached. -/
def attachedExport : Handler Unit := do
  let c ← get
  ensure c.me.attached .notAttached

/-- The one gate on writing: every mutating handler starts here. -/
def writableExport : Handler Unit := do
  attachedExport
  ensure (!x.readOnly) .readOnly

def resolve (path : RelPath) : Handler Loc := do
  let c ← get
  orFail (x.resolve c.fs path)

def resolveNew (path : RelPath) : Handler Loc := do
  let c ← get
  orFail (x.resolveNew c.fs path)

def handleOf (fh : ℕ) : Handler OpenFile := do
  let c ← get
  orFail ((c.me.handles.lookup fh).elim (.error .badHandle) .ok)

def versionOf (path : RelPath) : Handler ℕ := do
  let c ← get
  return (c.versions.lookup path).getD 0

def bump (path : RelPath) : Handler ℕ := do
  let c ← get
  modify fun c =>
    { c with vclock := c.vclock + 1, versions := c.versions.insert path (c.vclock + 1) }
  return c.vclock + 1

/-- Opening with truncation makes a new version. -/
def openedVersion (path : RelPath) (flags : OpenFlags) : Handler ℕ :=
  if flags.truncate then bump path else versionOf path

def renameVersion (src dst : RelPath) : Handler ℕ := do
  modify fun c => { c with versions := c.versions.erase src }
  bump dst

def noteLocalWrite (path : RelPath) : Handler Unit :=
  modify fun c => { c with events := c.events.noteLocalWrite c.clock path c.me.id }

def insertHandle (file : OpenFile) : Handler ℕ := do
  let c ← get
  modify fun c => { c with me := { c.me with
    handles := c.me.handles.insert c.me.nextFh file, nextFh := c.me.nextFh + 1 } }
  return c.me.nextFh

/-- `metadata` and `symlink_metadata`. -/
def metadata (follow : Bool) (full : Loc) : Handler (FileKind × Stat) := do
  let c ← get
  orFail (c.fs.metadata follow full)

/-- The metadata of an open file. -/
def fileMetadata (ino : ℕ) : Handler (FileKind × Stat) := do
  let c ← get
  let i := c.fs.inodes ino
  return (.file, ⟨i.content.length, i.mtime, i.ctime, i.mode⟩)

/-- Change an open file. -/
def modifyFile (loc : Loc) (ino : ℕ) (f : Inode → Inode) : Handler Unit :=
  modify fun c => { c with fs := (c.fs.modify ino f).touch [loc] }

/-- Open an existing file for writing and change it. -/
def changeAt (full : Loc) (f : Inode → Inode) : Handler Unit := do
  let opened ← call fun fs => fs.openFile full true false
  match opened.2 with
  | .file ino => modifyFile opened.1 ino f
  | _ => throw .io

/-! ## One handler per request -/

def attach (name : Text) : Handler Response := do
  let c ← get
  ensure (decide (name = x.name)) (if c.me.attached then .alreadyExists else .noSuchExport)
  let md ← metadata true x.root
  modify fun c => { c with me := { c.me with attached := true } }
  return .attachOk 0 (attrFromMetadata md 0)

def getattr (path : RelPath) : Handler Response := do
  attachedExport
  let full ← resolve x path
  let md ← metadata true full
  let version ← versionOf path
  return .attr (attrFromMetadata md version)

def readdir (path : RelPath) (cursor : ℕ) : Handler Response := do
  attachedExport
  let full ← resolve x path
  let c ← get
  ensure (c.fs.isDir full) .notADirectory
  let entries := (c.fs.children full).filterMap fun name =>
    let child := path.join name
    if x.exclude.isExcluded child then none
    else (c.fs.stat (full ++ [name])).map fun md =>
      DirEntry.mk name (attrFromMetadata md ((c.versions.lookup child).getD 0))
  return readdirPage entries cursor

def openFile (path : RelPath) (flags : OpenFlags) : Handler Response := do
  attachedExport
  let wantsWrite := flags.write || flags.truncate || flags.append
  ensure (!(wantsWrite && x.readOnly)) .readOnly
  let full ← resolve x path
  let opened ← call fun fs => fs.openFile full wantsWrite flags.truncate
  match opened.2 with
  | .file ino =>
    let md ← fileMetadata ino
    let version ← openedVersion path flags
    let fh ← insertHandle ⟨ino, opened.1, path, wantsWrite⟩
    return .opened fh (attrFromMetadata md version)
  | _ => throw .isADirectory

def create (path : RelPath) (flags : OpenFlags) (mode : ℕ) : Handler Response := do
  writableExport x
  let full ← resolveNew x path
  let file ← call fun fs =>
    if flags.excl then fs.createNew full else fs.openCreate full flags.truncate
  modifyFile file.1 file.2 fun i => { i with mode := modeBits mode }
  let md ← fileMetadata file.2
  noteLocalWrite path
  let version ← bump path
  let fh ← insertHandle ⟨file.2, file.1, path, true⟩
  return .opened fh (attrFromMetadata md version)

def read (fh offset len : ℕ) : Handler Response := do
  ensure (decide (len ≤ DATA_CHUNK)) .io
  let file ← handleOf fh
  let c ← get
  modify fun c => { c with fs := c.fs.touch [file.loc] }
  return .data (((c.fs.inodes file.ino).content.drop offset).take len)

def write (fh offset : ℕ) (data : Bytes) (expectVersion : Option ℕ) : Handler Response := do
  writableExport x
  let file ← handleOf fh
  ensure file.writable .badHandle
  let version ← versionOf file.path
  ensure (decide (expectVersion = none ∨ expectVersion = some version)) .conflict
  let c ← get
  modifyFile file.loc file.ino fun i =>
    { i with content := writeAt i.content offset data, mtime := c.fs.now }
  noteLocalWrite file.path
  let newVersion ← bump file.path
  return .written data.length newVersion false

def setattr (path : RelPath) (size : Option ℕ) (mtime : Option SystemTime) (mode : Option ℕ) :
    Handler Response := do
  writableExport x
  let full ← resolve x path
  let c ← get
  onSome size fun size =>
    changeAt full fun i => { i with content := setLen i.content size, mtime := c.fs.now }
  onSome mtime fun mtime => changeAt full fun i => { i with mtime := mtime }
  onSome mode fun mode => changeAt full fun i => { i with mode := modeBits mode }
  let md ← metadata true full
  noteLocalWrite path
  let version ← bump path
  return .attr (attrFromMetadata md version)

def mkdir (path : RelPath) : Handler Response := do
  writableExport x
  let full ← resolveNew x path
  call fun fs => fs.createDir full
  let md ← metadata true full
  noteLocalWrite path
  let version ← bump path
  return .attr (attrFromMetadata md version)

/-- Remove what a path leads to with a call of the file system. -/
def removeWith (remove : Fs → Loc → Fs.Call Unit) (path : RelPath) : Handler Response := do
  writableExport x
  let full ← resolve x path
  call fun fs => remove fs full
  noteLocalWrite path
  let _ ← bump path
  return .ok

def unlink (path : RelPath) : Handler Response := removeWith x Fs.removeFile path

def rmdir (path : RelPath) : Handler Response := removeWith x Fs.removeDir path

def rename (src dst : RelPath) (replace : Bool) : Handler Response := do
  writableExport x
  let srcFull ← resolve x src
  let dstFull ← resolveNew x dst
  let c ← get
  ensure (replace || !c.fs.exists_ dstFull) .alreadyExists
  call fun fs => fs.rename srcFull dstFull
  noteLocalWrite src
  noteLocalWrite dst
  let _ ← renameVersion src dst
  return .ok

def link (target link : RelPath) : Handler Response := do
  writableExport x
  let targetFull ← resolve x target
  let linkFull ← resolveNew x link
  call fun fs => fs.hardLink targetFull linkFull
  let md ← metadata true linkFull
  noteLocalWrite link
  let version ← bump link
  return .attr (attrFromMetadata md version)

/-- Refuses a link that would leave the export, or land on an excluded path. -/
def symlink (target : Text) (link : RelPath) : Handler Response := do
  writableExport x
  let linkFull ← resolveNew x link
  let landing ← orFail ((symlinkLandsInside link target).elim (.error .permissionDenied) .ok)
  ensure (!x.exclude.isExcluded landing) .permissionDenied
  call fun fs => fs.symlink target linkFull
  let md ← metadata false linkFull
  noteLocalWrite link
  let version ← bump link
  return .attr (attrFromMetadata md version)

/-- The target of a link, with forward slashes. -/
def readlink (path : RelPath) : Handler Response := do
  attachedExport
  let full ← resolveNew x path
  let md ← metadata false full
  ensure (decide (md.1 = .symlink)) .invalidPath
  let target ← call fun fs => fs.readLink full
  return .target (target.map fun c => if c = '\\' then '/' else c)

/-- Closing a handle drops any lock it held. -/
def release (fh : ℕ) : Handler Response := do
  let c ← get
  match c.me.handles.lookup fh with
  | none => return .ok
  | some file =>
    modify fun c => { c with
      me := { c.me with handles := c.me.handles.erase fh }
      locks := if c.me.attached then c.locks.unlock file.path c.me.id fh else c.locks }
    return .ok

def statfs : Handler Response := do
  let c ← get
  match (if c.me.attached then c.space else none) with
  | some (blockSize, blocks, blocksFree) => return .statfs blockSize blocks blocksFree
  | none => return .statfs 4096 (2 ^ 24) (2 ^ 23)

def mountDefaults : Handler Response := do
  attachedExport
  let d := x.mountDefaults
  return .mountDefaults d.exclude d.pin d.autoCacheMax d.autoCacheBudget

/-- Routing of the requests that do blocking file I/O. -/
def dispatch : Request → Handler Response
  | .attach name => attach x name
  | .getattr path => getattr x path
  | .readdir path cursor => readdir x path cursor
  | .openFile path flags => openFile x path flags
  | .create path flags mode => create x path flags mode
  | .read fh offset len => read fh offset len
  | .write fh offset data expectVersion => write x fh offset data expectVersion
  | .flush _ => return .ok
  | .release fh => release fh
  | .setattr path size mtime mode => setattr x path size mtime mode
  | .mkdir path _ => mkdir x path
  | .unlink path => unlink x path
  | .rmdir path => rmdir x path
  | .rename src dst replace => rename x src dst replace
  | .link target link => Ctx.link x target link
  | .symlink target link => symlink x target link
  | .readLink path => readlink x path
  | .statfs => statfs
  | .mountDefaults => mountDefaults x
  | .lock _ _ _ | .unlock _ | .subscribe _ | .auth _ => throw .io

/-! ## Requests handled outside the pool -/

/-- Present the token, if one is required. -/
def auth (token : Text) : Handler Response := do
  let c ← get
  match c.me.requiredToken with
  | none => return .ok
  | some expected =>
    ensure (decide (token = expected)) .permissionDenied
    modify fun c => { c with me := { c.me with authed := true } }
    return .ok

def subscribe (sinceSeq : Option ℕ) : Handler Response := do
  attachedExport
  let c ← get
  let _ ← orFail (c.events.subscribe sinceSeq)
  return .subscribed c.events.seq

/-- A lock request, up to its first answer; `none` when it waits for another session
to let go. -/
def lock (fh : ℕ) (kind : LockKind) (wait : Bool) : Handler (Option Response) := do
  attachedExport
  let file ← handleOf fh
  let c ← get
  let attempt := c.locks.attempt file.path c.me.id fh kind wait 0
  modify fun c => { c with locks := attempt.2 }
  match attempt.1 with
  | .granted => return some .ok
  | .wouldBlock => throw .wouldBlock
  | .parked => return none

def unlock (fh : ℕ) : Handler Response := do
  attachedExport
  let file ← handleOf fh
  modify fun c => { c with locks := c.locks.unlock file.path c.me.id fh }
  return .ok

/-- **One request of a session.**  Nothing but the token is served before it was
presented. -/
def handle (req : Request) : Handler (Option Response) :=
  match req with
  | .auth token => some <$> auth token
  | _ => do
    let c ← get
    ensure c.me.authed .authRequired
    match req with
    | .subscribe sinceSeq => some <$> subscribe sinceSeq
    | .lock fh kind wait => lock fh kind wait
    | .unlock fh => some <$> unlock fh
    | req => some <$> dispatch x req

/-! ## Running the parts -/

variable {x : Export} {c c' : Ctx} {path : RelPath}

theorem attachedExport_run (c : Ctx) :
    attachedExport c = if c.me.attached then .ok () c else .error .notAttached c :=
  ensure_run c.me.attached ErrorCode.notAttached c

theorem writableExport_run (x : Export) (c : Ctx) :
    writableExport x c =
      if c.me.attached then if x.readOnly then .error .readOnly c else .ok () c
      else .error .notAttached c := by
  have hatt := attachedExport_run c
  rw [writableExport]
  cases h : c.me.attached with
  | false =>
    rw [h] at hatt
    exact bind_of_error hatt
  | true =>
    rw [h] at hatt
    rw [bind_of_ok hatt, ensure_run]
    cases x.readOnly <;> rfl

theorem resolve_run (x : Export) (path : RelPath) (c : Ctx) :
    resolve x path c =
      match x.resolve c.fs path with
      | .ok full => .ok full c
      | .error e => .error e c := by
  rw [resolve, get_bind]
  cases x.resolve c.fs path <;> rfl

theorem resolveNew_run (x : Export) (path : RelPath) (c : Ctx) :
    resolveNew x path c =
      match x.resolveNew c.fs path with
      | .ok full => .ok full c
      | .error e => .error e c := by
  rw [resolveNew, get_bind]
  cases x.resolveNew c.fs path <;> rfl

/-! ## Reading a successful request backwards -/

theorem attachedExport_ok {u : Unit} (h : attachedExport c = .ok u c') :
    c.me.attached = true ∧ c' = c := by
  rw [attachedExport, get_bind] at h
  exact ensure_eq_ok.mp h

theorem writableExport_ok {u : Unit} (h : writableExport x c = .ok u c') :
    c.me.attached = true ∧ x.readOnly = false ∧ c' = c := by
  rw [writableExport, bind_eq_ok] at h
  obtain ⟨_, _, hatt, h⟩ := h
  obtain ⟨hatt, rfl⟩ := attachedExport_ok hatt
  obtain ⟨hro, rfl⟩ := ensure_eq_ok.mp h
  exact ⟨hatt, by simpa using hro, rfl⟩

theorem resolve_ok {full : Loc} (h : resolve x path c = .ok full c') :
    x.resolve c.fs path = .ok full ∧ c' = c := by
  rw [resolve, get_bind] at h
  exact orFail_eq_ok.mp h

theorem resolveNew_ok {full : Loc} (h : resolveNew x path c = .ok full c') :
    x.resolveNew c.fs path = .ok full ∧ c' = c := by
  rw [resolveNew, get_bind] at h
  exact orFail_eq_ok.mp h

end Ctx

namespace Export

variable {x : Export} {fs : Fs} {path : RelPath} {full : Loc}

/-- What a resolved path is: inside the root, and either the root itself or where the
path leads. -/
theorem resolve_ok (h : x.resolve fs path = .ok full) :
    path.validate = true ∧ (path.isRoot = true ∧ full = x.root ∨ path.isRoot = false ∧
      fs.canonicalize (x.root ++ path.pushed) = .ok full ∧ x.root <+: full) := by
  unfold resolve at h
  split at h
  · cases h
  · split at h
    · cases h
    · next full' hun =>
      have hfull : full' = full := by
        split at h
        · cases h
        · exact Except.ok.inj h
      subst hfull
      unfold resolveUnchecked at hun
      by_cases hv : path.validate = false
      · rw [if_pos hv] at hun
        cases hun
      rw [if_neg hv] at hun
      refine ⟨by simpa using hv, ?_⟩
      by_cases hr : path.isRoot = true
      · rw [if_pos hr] at hun
        cases hun
        exact .inl ⟨hr, rfl⟩
      rw [if_neg hr] at hun
      split at hun
      · cases hun
      · next canon hc =>
        split at hun
        · next hpre =>
          cases hun
          exact .inr ⟨by simpa using hr, hc, hpre⟩
        · cases hun

theorem prefix_of_resolve (h : x.resolve fs path = .ok full) : x.root <+: full := by
  rcases (resolve_ok h).2 with ⟨_, rfl⟩ | ⟨_, _, hpre⟩
  · exact List.prefix_rfl
  · exact hpre

theorem resolveNew_ok (h : x.resolveNew fs path = .ok full) :
    ∃ parent leaf d, path.validate = true ∧ path.split = some (parent, leaf) ∧
      x.resolve fs parent = .ok d ∧ full = d ++ [leaf] := by
  unfold resolveNew at h
  split at h
  · cases h
  · by_cases hv : path.validate = false
    · rw [if_pos hv] at h
      cases h
    rw [if_neg hv] at h
    split at h
    · cases h
    · next parent leaf hs =>
      split at h
      · cases h
      · next d hd =>
        cases h
        exact ⟨parent, leaf, d, by simpa using hv, hs, hd, rfl⟩

theorem prefix_of_resolveNew (h : x.resolveNew fs path = .ok full) : x.root <+: full := by
  obtain ⟨parent, leaf, d, _, _, hd, rfl⟩ := resolveNew_ok h
  exact (prefix_of_resolve hd).trans (List.prefix_append d [leaf])

theorem resolve_of_tree {fs' : Fs} (h : fs'.tree = fs.tree) (x : Export) (path : RelPath) :
    x.resolve fs' path = x.resolve fs path := by
  rw [resolve, resolve, resolveUnchecked, resolveUnchecked, Fs.canonicalize, Fs.canonicalize,
    Fs.walk_of_tree h]

end Export

/-- No link below the root leads outside it. -/
def LinksInside (fs : Fs) (root : Loc) : Prop :=
  ∀ l t l', root <+: l → fs.get l = some (.symlink t) →
    (fs.leaf true l = .found l' ∨ fs.leaf true l = .vacant l') → root <+: l'

/-! ## A small export, for runs -/

/-- A writable export at `/srv` without excludes. -/
def Export.srv : Export where
  name := ['s', 'r', 'v']
  root := [['s', 'r', 'v']]
  readOnly := false
  exclude := .none
  mountDefaults := ⟨[], [], none, none⟩

/-- A server with the given entries and file contents. -/
def Agent.ofTree (tree : PathMap Name Node) (contents : List Bytes) : Agent where
  fs :=
    { tree := tree
      inodes := fun ino => ⟨contents.getD ino [], 0, 0, 0o644⟩
      nextIno := contents.length
      statOf := fun _ => ⟨4096, 0, 0, 0o755⟩
      now := 0
      touched := [] }
  versions := ∅
  vclock := 0
  events := .new
  locks := .empty
  space := none
  clock := 0

/-- A session attached to the export. -/
def SessionInner.first : SessionInner := { withToken 1 none with attached := true }

end AlloyFs
