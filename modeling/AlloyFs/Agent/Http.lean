import AlloyFs.Agent.Ops

/-!
# The HTTP surface of the agent

Beside the mounts, the agent answers plain HTTP: it lists directories, hands out files and event
streams, and takes uploads, new directories and deletions.  There are no sessions here, and changes
have no origin: every mount is to see them.

The handlers resolve paths with the functions of the export and have their own gate for exports that
are read-only.
-/

namespace AlloyFs

/-- The codes that the API fails with. -/
inductive StatusCode
  | badRequest | unauthorized | forbidden | notFound | conflict | payloadTooLarge
  | internalServerError
  deriving DecidableEq

/-- The largest body of a POST. -/
def MAX_BODY : ℕ := 256 * 1024 * 1024

def codeToStatus : ErrorCode → StatusCode
  | .notFound => .notFound
  | .permissionDenied | .invalidPath => .forbidden
  | .notADirectory | .isADirectory => .badRequest
  | .alreadyExists => .conflict
  | .notEmpty => .conflict
  | .readOnly => .forbidden
  | _ => .internalServerError

/-- The routes, with the name of the export and the query. -/
inductive HttpCall
  | status
  | exports
  | browse (name : Text) (path : RelPath)
  | fileGet (name : Text) (path : RelPath)
  | filePost (name : Text) (path : RelPath) (body : Bytes)
  | mkdirPost (name : Text) (path : RelPath)
  | deletePost (name : Text) (path : RelPath)
  | eventsSse (name : Text) (lastEventId : Option ℕ)

inductive HttpReply
  /-- name, root, `read_only` and `last_seq` of the export -/
  | exportInfo (name : Text) (root : Loc) (readOnly : Bool) (lastSeq : ℕ)
  | entries (entries : List DirEntry)
  | data (bytes : Bytes)
  | written (written version : ℕ)
  | created
  | deleted
  | stream

/-- A handler changes the shared state and answers, or fails. -/
abbrev HttpHandler (α : Type) := EStateM StatusCode Agent α

namespace Http

open Act

/-! ## Parts of handlers -/

/-- Make a call on the file system. -/
def call {α : Type} (onError : ErrorCode → ErrorCode) (f : Fs → Fs.Call α) : HttpHandler α :=
  lens (fun a => a.fs) (fun a fs => { a with fs := fs }) fun fs =>
    (f fs).mapError fun e => codeToStatus (onError e)

def bump (path : RelPath) : HttpHandler ℕ := do
  let a ← get
  set { a with vclock := a.vclock + 1, versions := a.versions.insert path (a.vclock + 1) }
  return a.vclock + 1

variable (x : Export)

/-- `registry.get(&name)` -/
def exportNamed (name : Text) : HttpHandler Unit := ensure (decide (name = x.name)) .notFound

/-- The export is there and may be written to. -/
def writableExport (name : Text) : HttpHandler Unit := do
  exportNamed x name
  ensure (!x.readOnly) .forbidden

def resolve (path : RelPath) : HttpHandler Loc := do
  let a ← get
  orFail ((x.resolve a.fs path).mapError codeToStatus)

def resolveNew (path : RelPath) : HttpHandler Loc := do
  let a ← get
  orFail ((x.resolveNew a.fs path).mapError codeToStatus)

/-- What is told of the export. -/
def exportInfo : HttpHandler HttpReply := do
  let a ← get
  return .exportInfo x.name x.root x.readOnly a.events.seq

/-! ## One handler per route -/

def browse (name : Text) (path : RelPath) : HttpHandler HttpReply := do
  exportNamed x name
  let full ← resolve x path
  let a ← get
  ensure (a.fs.isDir full) (codeToStatus .notADirectory)
  return .entries <| (a.fs.children full).filterMap fun name =>
    let child := path.join name
    if x.exclude.isExcluded child then none
    else (a.fs.stat (full ++ [name])).map fun md =>
      DirEntry.mk name (attrFromMetadata md ((a.versions.lookup child).getD 0))

def fileGet (name : Text) (path : RelPath) : HttpHandler HttpReply := do
  exportNamed x name
  let full ← resolve x path
  let opened ← call (fun _ => .notFound) fun fs => fs.openFile full false false
  match opened.2 with
  | .file ino =>
    let a ← get
    return .data (a.fs.inodes ino).content
  | _ => throw .badRequest

/-- Create or overwrite with the body.  The write follows a link, as `std::fs::write` does. -/
def filePost (name : Text) (path : RelPath) (body : Bytes) : HttpHandler HttpReply := do
  ensure (decide (body.length ≤ MAX_BODY)) .payloadTooLarge
  writableExport x name
  let full ← resolveNew x path
  let file ← call (fun _ => .io) fun fs => fs.openCreate full true
  modify fun a => { a with
    fs :=
      (a.fs.modify file.2 fun i => { i with content := body, mtime := a.fs.now }).touch [file.1] }
  let version ← bump path
  return .written body.length version

def mkdirPost (name : Text) (path : RelPath) : HttpHandler HttpReply := do
  writableExport x name
  let full ← resolveNew x path
  call (fun e => if e = .alreadyExists then e else .io) fun fs => fs.createDir full
  let _ ← bump path
  return .created

/-- A file or an empty directory. -/
def deletePost (name : Text) (path : RelPath) : HttpHandler HttpReply := do
  writableExport x name
  let full ← resolve x path
  let a ← get
  let md ← orFail ((a.fs.metadata false full).mapError fun _ => StatusCode.notFound)
  if md.1 = .dir then
    call (fun e => if e = .notEmpty then e else .io) fun fs => fs.removeDir full
  else
    call (fun _ => .io) fun fs => fs.removeFile full
  let _ ← bump path
  return .deleted

/-- History that has expired is answered by a resync, so there is always a stream. -/
def eventsSse (name : Text) (_lastEventId : Option ℕ) : HttpHandler HttpReply := do
  exportNamed x name
  return .stream

def route : HttpCall → HttpHandler HttpReply
  | .status | .exports => exportInfo x
  | .browse name path => browse x name path
  | .fileGet name path => fileGet x name path
  | .filePost name path body => filePost x name path body
  | .mkdirPost name path => mkdirPost x name path
  | .deletePost name path => deletePost x name path
  | .eventsSse name lastEventId => eventsSse x name lastEventId

/-- `Bearer ` -/
def bearer : Text := ['B', 'e', 'a', 'r', 'e', 'r', ' ']

/-- The layer in front of every route: without a configured token all calls pass. -/
def auth (token authorization : Option Text) : Bool :=
  match token with
  | none => true
  | some expected => decide (authorization = some (bearer ++ expected))

/-- **One call**, with its `Authorization` header. -/
def serve (token authorization : Option Text) (req : HttpCall) : HttpHandler HttpReply := do
  ensure (auth token authorization) .unauthorized
  route x req

end Http

end AlloyFs
