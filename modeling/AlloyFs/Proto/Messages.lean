import AlloyFs.Proto.Path
import Mathlib.Algebra.Group.Nat.Defs
import Mathlib.Data.Int.Notation

/-!
# The wire messages

The types both ends of a connection agree on.  Fixed-width integers are natural numbers here, and
`Frame.numbers` has their widths; a `SystemTime` is the signed number of nanoseconds since the Unix
epoch, because a file may carry a modification time before it.
-/

namespace AlloyFs

/-- A byte string. -/
abbrev Bytes := List UInt8

/-- Nanoseconds since the Unix epoch; negative before it. -/
abbrev SystemTime := ℤ

/-- Read and write payloads are capped to this many bytes per request. -/
def DATA_CHUNK : ℕ := 128 * 1024

/-- Errors that travel over the wire. -/
inductive ErrorCode
  | notFound | permissionDenied | alreadyExists | notADirectory | isADirectory
  | notEmpty | invalidPath | badHandle | readOnly | noSuchExport | wouldBlock
  | conflict | versionMismatch | notAttached | tooOld | io | crossDevice
  | authRequired
  deriving DecidableEq, Repr

/-- File kind as the server reports it. -/
inductive FileKind
  | file | dir | symlink
  deriving DecidableEq, Repr

/-- Metadata as the server reports it. -/
structure Attr where
  kind : FileKind
  size : ℕ
  mtime : SystemTime
  ctime : SystemTime
  mode : ℕ
  /-- Server-side version of the file, bumped on every mutation. -/
  version : ℕ
  deriving DecidableEq, Repr

structure DirEntry where
  name : Name
  attr : Attr
  deriving DecidableEq, Repr

/-- Open intent. -/
structure OpenFlags where
  read : Bool := false
  write : Bool := false
  truncate : Bool := false
  append : Bool := false
  /-- Creation must fail if the path already exists. -/
  excl : Bool := false
  deriving DecidableEq, Repr

inductive LockKind
  | shared | exclusive
  deriving DecidableEq, Repr

inductive EventKind
  | created | modified | attrChanged | removed
  | renamedFrom (dst : RelPath)
  /-- The event log no longer reaches back to this subscriber. -/
  | resyncRequired
  deriving DecidableEq, Repr

/-- One coalesced change on the server's file system. -/
structure FsEvent where
  seq : ℕ
  kind : EventKind
  path : RelPath
  newVersion : Option ℕ
  /-- The session that made the change through the server, when one did. -/
  origin : Option ℕ
  deriving DecidableEq, Repr

inductive Request
  | attach (exportName : Text)
  | getattr (path : RelPath)
  | readdir (path : RelPath) (cursor : ℕ)
  | openFile (path : RelPath) (flags : OpenFlags)
  | create (path : RelPath) (flags : OpenFlags) (mode : ℕ)
  | read (fh offset len : ℕ)
  | write (fh offset : ℕ) (data : Bytes) (expectVersion : Option ℕ)
  | flush (fh : ℕ)
  | release (fh : ℕ)
  | setattr (path : RelPath) (size : Option ℕ) (mtime : Option SystemTime) (mode : Option ℕ)
  | mkdir (path : RelPath) (mode : ℕ)
  | unlink (path : RelPath)
  | rmdir (path : RelPath)
  | rename (src dst : RelPath) (replace : Bool)
  | lock (fh : ℕ) (kind : LockKind) (wait : Bool)
  | unlock (fh : ℕ)
  | subscribe (sinceSeq : Option ℕ)
  | statfs
  | link (target link : RelPath)
  | mountDefaults
  | auth (token : Text)
  /-- The target is opaque text: it may be relative and need not resolve. -/
  | symlink (target : Text) (link : RelPath)
  | readLink (path : RelPath)
  deriving DecidableEq, Repr

inductive Response
  | attachOk (exportId : ℕ) (rootAttr : Attr)
  | attr (a : Attr)
  | dir (entries : List DirEntry) (nextCursor : Option ℕ)
  | opened (fh : ℕ) (attr : Attr)
  | data (bytes : Bytes)
  | written (n newVersion : ℕ) (conflict : Bool)
  | statfs (blockSize blocks blocksFree : ℕ)
  | subscribed (lastSeq : ℕ)
  | ok
  | mountDefaults (exclude pin : List Text) (autoCacheMax autoCacheBudget : Option ℕ)
  | target (text : Text)
  deriving DecidableEq, Repr

inductive Frame
  | hello (protoMin protoMax : ℕ) (client : Text)
  | helloAck (proto : ℕ) (server : Text)
  | request (id : ℕ) (body : Request)
  | response (id : ℕ) (body : Except ErrorCode Response)
  /-- Server push; not correlated with any request. -/
  | events (batch : List FsEvent)
  | ping (nonce : ℕ)
  | pong (nonce : ℕ)
  /-- An entire encoded frame, compressed; nesting is forbidden. -/
  | compressed (data : Bytes)

namespace Frame

/-- `matches!(frame, Frame::Compressed(_))`. -/
def isCompressed : Frame → Bool
  | .compressed _ => true
  | _ => false

end Frame

/-- The two time stamps of an attribute record. -/
def Attr.times (a : Attr) : List SystemTime := [a.mtime, a.ctime]

/-- Every time stamp of a request. -/
def Request.times : Request → List SystemTime
  | .setattr _ _ mtime _ => mtime.toList
  | _ => []

/-- Every time stamp of a response. -/
def Response.times : Response → List SystemTime
  | .attachOk _ a => a.times
  | .attr a => a.times
  | .dir entries _ => entries.flatMap fun e => e.attr.times
  | .opened _ a => a.times
  | _ => []

/-- Every time stamp a frame carries. -/
def Frame.times : Frame → List SystemTime
  | .request _ body => body.times
  | .response _ (.ok body) => body.times
  | _ => []

/-- The frame carries a time before the Unix epoch. -/
def Frame.preEpoch (f : Frame) : Prop := ∃ t ∈ f.times, t < 0
deriving Decidable

/-- The numbers of an attribute record with the bits of their types; of a time, its seconds. -/
def Attr.numbers (a : Attr) : List (ℕ × ℕ) :=
  [(a.size, 64), (a.mtime.toNat / 10 ^ 9, 64), (a.ctime.toNat / 10 ^ 9, 64), (a.mode, 32),
    (a.version, 64)]

def FsEvent.numbers (e : FsEvent) : List (ℕ × ℕ) :=
  (e.seq, 64) :: (e.newVersion.toList.map (·, 64) ++ e.origin.toList.map (·, 64))

def Request.numbers : Request → List (ℕ × ℕ)
  | .readdir _ cursor => [(cursor, 64)]
  | .create _ _ mode | .mkdir _ mode => [(mode, 32)]
  | .read fh offset len => [(fh, 64), (offset, 64), (len, 32)]
  | .write fh offset _ version => (fh, 64) :: (offset, 64) :: version.toList.map (·, 64)
  | .flush fh | .release fh | .lock fh _ _ | .unlock fh => [(fh, 64)]
  | .setattr _ size mtime mode =>
    size.toList.map (·, 64) ++ mtime.toList.map (·.toNat / 10 ^ 9, 64) ++ mode.toList.map (·, 32)
  | .subscribe since => since.toList.map (·, 64)
  | _ => []

def Response.numbers : Response → List (ℕ × ℕ)
  | .attachOk exportId a => (exportId, 32) :: a.numbers
  | .attr a => a.numbers
  | .dir entries next => entries.flatMap (fun e => e.attr.numbers) ++ next.toList.map (·, 64)
  | .opened fh a => (fh, 64) :: a.numbers
  | .written n version _ => [(n, 32), (version, 64)]
  | .statfs size blocks free => [(size, 32), (blocks, 64), (free, 64)]
  | .subscribed seq => [(seq, 64)]
  | .mountDefaults _ _ max budget => max.toList.map (·, 64) ++ budget.toList.map (·, 64)
  | _ => []

def Frame.numbers : Frame → List (ℕ × ℕ)
  | .hello least most _ => [(least, 16), (most, 16)]
  | .helloAck proto _ => [(proto, 16)]
  | .request id body => (id, 64) :: body.numbers
  | .response id (.ok body) => (id, 64) :: body.numbers
  | .response n (.error _) | .ping n | .pong n => [(n, 64)]
  | .events batch => batch.flatMap FsEvent.numbers
  | .compressed _ => []

/-- The numbers of the frame are within their types. -/
def Frame.InRange (f : Frame) : Prop := ∀ p ∈ f.numbers, p.1 < 2 ^ p.2
deriving Decidable

end AlloyFs
