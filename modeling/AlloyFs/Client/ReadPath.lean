import AlloyFs.Agent.Ops
import AlloyFs.Client.AutoCache
import AlloyFs.Client.ReadAhead
import AlloyFs.Lib.Transition

/-!
# The calls of a mount that read and write files

The bytes of a file are in several places of a mount: in the window and among the retained blocks
of each handle, in the blocks that reads under way have got, and in the blob of its path.  A read
is answered from any of them.  It is not one step: it fetches ahead, looks for its blocks, asks
for the ones it has not found, and retains them all when it is done, while other reads and writes
do the same.

This module has the steps of these calls, and of the server, the event pump and the fetcher beside
them, on one connection.  The server keeps every content that a file has had, so that one can say
which content some bytes show.
-/

namespace AlloyFs

open Function

/-! ## The server -/

/-- The files of the server: the contents each has had, by number, and what a path names. -/
structure Files where
  latest : ℕ → ℕ
  content : ℕ → ℕ → Bytes
  tree : RelPath → Option ℕ

namespace Files

/-- What a file holds. -/
def current (fs : Files) (f : ℕ) : Bytes := fs.content f (fs.latest f)

/-- A file gets another content. -/
def change (fs : Files) (f : ℕ) (data : Bytes) : Files :=
  { fs with
    latest := update fs.latest f (fs.latest f + 1)
    content := update fs.content f
      (update (fs.content f) (fs.latest f + 1) data) }

/-- A file, or a directory with all below it, gets another name. -/
def rename (fs : Files) (src dst : RelPath) : Files :=
  { fs with
    tree := fun p =>
      match AutoCache.movedTo dst src p with
      | some q => fs.tree q
      | none => if (AutoCache.movedTo src dst p).isSome then none else fs.tree p }

/-- The attribute the server reports of a file. -/
def attr (fs : Files) (f : ℕ) (mtime : SystemTime) (version : ℕ) : Attr :=
  ⟨.file, (fs.current f).length, mtime, mtime, 0o644, version⟩

end Files

/-! ## A read -/

/-- An open handle: the path it was opened by, the file the server has it on, whether the blob may
serve it, and its blocks. -/
structure ReadHandle where
  path : RelPath
  file : ℕ
  cacheOk : Bool
  ra : ReadAhead

/-- How far a read is. -/
inductive ReadPhase
  /-- it fetches blocks ahead; a fetch that was spawned is not in the window yet -/
  | topUp (missing : List ℕ) (spawned : Option Fetch)
  /-- it looks for its blocks, one after the other, and may wait for one that was in the window -/
  | look (todo : List ℕ) (held : Option Fetch) (need : List ℕ)
  /-- it has asked for the blocks it has not found -/
  | fetch (need : List (ℕ × Fetch))
  /-- it retains its blocks, in any order -/
  | retain (todo : List (ℕ × Bytes)) (out : Bytes)
  | done (result : Except ErrorCode Bytes)

/-- A read under way. -/
structure ReadCall where
  fh : ℕ
  file : ℕ
  offset : ℕ
  size : ℕ
  phase : ReadPhase
  ready : List (ℕ × Bytes)
  /-- the last content of the file that a finished write had left when the read began -/
  since : ℕ

inductive ReadStep
  | spawn
  | put
  | next
  | assemble
  | retain (b : ℕ)
  | finish

/-- The bytes a fetch has brought. -/
def Fetch.bytes : Fetch → Option Bytes
  | .pending => none
  | .done data => data

/-- A block that a fetch has brought. -/
def fetched (e : ℕ × Fetch) : Option (ℕ × Bytes) := e.2.bytes.map fun data => (e.1, data)

namespace ReadCall

/-- One step of a read, which may change its handle. -/
def advance (call : ReadCall) (h : ReadHandle) : ReadStep → Option (ReadCall × ReadHandle)
  | .spawn =>
    match call.phase with
    | .topUp (b :: bs) none => some ({ call with phase := .topUp (b :: bs) (some .pending) }, h)
    | _ => none
  | .put =>
    match call.phase with
    | .topUp (b :: bs) (some f) =>
      some ({ call with phase := .topUp bs none }, { h with ra := h.ra.put b f })
    | _ => none
  | .next =>
    match call.phase with
    | .topUp [] none =>
      some ({ call with phase := .look (blocksOf call.offset call.size) none [] }, h)
    | .look (b :: bs) none need =>
      match h.ra.retained b with
      | some data =>
        some ({ call with phase := .look bs none need, ready := (b, data) :: call.ready }, h)
      | none =>
        match h.ra.take b with
        | (some f, ra) =>
          some ({ call with phase := .look (b :: bs) (some f) need }, { h with ra := ra })
        | (none, _) => some ({ call with phase := .look bs none (need ++ [b]) }, h)
    | .look (b :: bs) (some (.done (some data))) need =>
      some ({ call with phase := .look bs none need, ready := (b, data) :: call.ready }, h)
    -- the fetch failed: ask again
    | .look (b :: bs) (some (.done none)) need =>
      some ({ call with phase := .look bs none (need ++ [b]) }, h)
    | .look [] none need =>
      some ({ call with phase := .fetch (need.map fun b => (b, .pending)) }, h)
    | _ => none
  | .assemble =>
    match call.phase with
    | .fetch need =>
      if need.all fun e => decide (e.2 ≠ .pending) then
        if need.any fun e => decide (e.2 = .done none) then
          some ({ call with phase := .done (.error .io), ready := [] }, h)
        else
          match answer (pick (call.ready ++ need.filterMap fetched)) call.offset call.size with
          | some out =>
            some ({ call with
              phase := .retain (call.ready ++ need.filterMap fetched) out, ready := [] }, h)
          | none => some ({ call with phase := .done (.error .io), ready := [] }, h)
      else none
    | _ => none
  | .retain b =>
    match call.phase with
    | .retain todo out =>
      match pick todo b with
      | some data =>
        some ({ call with phase := .retain (todo.filter fun e => decide (e.1 ≠ b)) out },
          { h with ra := h.ra.retain b data })
      | none => none
    | _ => none
  | .finish =>
    match call.phase with
    | .retain [] out => some ({ call with phase := .done (.ok out) }, h)
    | _ => none

/-- The server answers the fetch of a block that the read has in hand. -/
def answered (call : ReadCall) (b : ℕ) (data : Option Bytes) : Option ReadCall :=
  match call.phase with
  | .topUp (b' :: bs) (some .pending) =>
    if b' = b then some { call with phase := .topUp (b' :: bs) (some (.done data)) } else none
  | .look (b' :: bs) (some .pending) need =>
    if b' = b then some { call with phase := .look (b' :: bs) (some (.done data)) need } else none
  | .fetch need =>
    some { call with
      phase := .fetch (need.map fun e => if e = (b, .pending) then (b, .done data) else e) }
  | _ => none

/-- Has the read returned? -/
def isDone (call : ReadCall) : Bool :=
  match call.phase with
  | .done _ => true
  | _ => false

end ReadCall

/-! ## Writes, opens and fetches -/

/-- What `mark_path_written` does, one thing after the other. -/
inductive MarkStep
  | flag (fh : ℕ)
  | window (fh : ℕ)
  | recent (fh : ℕ)
  | blob
deriving DecidableEq

/-- A write or a truncation under way: the handle that is written through, the path it marks, its
file, the content it has left, and what is still to be marked. -/
structure MarkedWrite where
  through : Option ℕ
  path : RelPath
  file : ℕ
  version : ℕ
  todo : Option (List MarkStep)

/-- An open that the server has answered. -/
structure OpenCall where
  path : RelPath
  file : ℕ
  attr : Attr

/-- A fetch of a whole file for the cache. -/
structure CacheFetch where
  path : RelPath
  file : ℕ
  attr : Attr
  /-- its chunks, which come in any order -/
  parts : List (Option Bytes)
  placed : Bool

/-- How many chunks a file of this size is fetched in. -/
def chunksOf (size : ℕ) : ℕ := (size + DATA_CHUNK - 1) / DATA_CHUNK

/-- The chunk at a place, of which no more is asked than the size says. -/
def chunkOf (content : Bytes) (size i : ℕ) : Bytes :=
  (content.drop (i * DATA_CHUNK)).take (min (size - i * DATA_CHUNK) DATA_CHUNK)

def CacheFetch.data (e : CacheFetch) : Bytes := (e.parts.filterMap id).flatten

/-! ## The mount -/

/-- The mount, with the calls under way. -/
structure ReadPath where
  files : Files
  handles : AList fun _ : ℕ => ReadHandle
  cache : AutoCache
  reads : AList fun _ : ℕ => ReadCall
  writes : AList fun _ : ℕ => MarkedWrite
  opens : AList fun _ : ℕ => OpenCall
  fetches : AList fun _ : ℕ => CacheFetch
  /-- renames the server has made, with the cache still to follow -/
  renames : AList fun _ : ℕ => RelPath × RelPath
  /-- the last content of each file that a write has left which returned -/
  returned : ℕ → ℕ

inductive PathStep
  | read (c fh offset size : ℕ)
  | advance (c : ℕ) (l : ReadStep)
  /-- the server answers the fetch of a block, in the window or in the hands of a read -/
  | answerWindow (fh b : ℕ) (ok : Bool)
  | answerCall (c b : ℕ) (ok : Bool)
  | write (w fh : ℕ)
  | chunk (w offset : ℕ) (data : Bytes)
  /-- `setattr` with a size -/
  | truncate (w : ℕ) (path : RelPath) (size : ℕ)
  /-- all is on the server; the handles are gone through in some order -/
  | written (w : ℕ) (order : List ℕ)
  | mark (w : ℕ)
  | returns (w : ℕ)
  | fails (w : ℕ)
  | rename (r : ℕ) (src dst : RelPath)
  | renamed (r : ℕ) (moves : RelPath → Bool)
  | ask (o : ℕ) (path : RelPath) (mtime : SystemTime) (version : ℕ)
  | install (o fh : ℕ)
  | release (fh : ℕ)
  /-- the pump handles an event -/
  | event (kind : EventKind) (path : RelPath) (moves : RelPath → Bool)
  | fetch (k : ℕ) (path : RelPath) (mtime : SystemTime) (version : ℕ)
  | fetchChunk (k i : ℕ)
  | place (k : ℕ)
  | commit (k : ℕ) (pinned : Bool)
  | dropFetch (k : ℕ)
  /-- somebody else changes a file -/
  | change (f : ℕ) (data : Bytes)

namespace ReadPath

variable (cfg : CacheConfig) (s : ReadPath)

/-- The answer to a fetch of a block. -/
def served (f b : ℕ) (ok : Bool) : Option Bytes :=
  if ok then some (block (s.files.current f) b) else none

/-- A read that goes for blocks: it looks at the pattern of the reads and says what is missing. -/
def readBlocks (c fh offset size : ℕ) (h : ReadHandle) : ReadPath :=
  let (prefetch, ra) := h.ra.observe offset size
  let last := ReadAhead.blockOf (offset + max size 1 - 1)
  { s with
    handles := s.handles.insert fh { h with ra := ra }
    reads := s.reads.insert c
      ⟨fh, h.file, offset, size, .topUp (if prefetch then ra.missing (last + 1) else []) none, [],
        s.returned h.file⟩ }

/-- A read begins, with the blob if it may. -/
def startRead (c fh offset size : ℕ) (h : ReadHandle) : ReadPath :=
  if h.cacheOk then
    match s.cache.read h.path offset size with
    | some out =>
      { s with
        reads := s.reads.insert c
          ⟨fh, h.file, offset, size, .done (.ok out), [], s.returned h.file⟩ }
    -- the blob vanished: on to the network
    | none => s.readBlocks c fh offset size { h with cacheOk := false }
  else s.readBlocks c fh offset size h

/-- Change a handle, if it is open. -/
def onHandle (fh : ℕ) (g : ReadHandle → ReadHandle) : AList fun _ : ℕ => ReadHandle :=
  match s.handles.lookup fh with
  | some h => s.handles.insert fh (g h)
  | none => s.handles

/-- One thing that `mark_path_written` does for a path. -/
def marked (path : RelPath) : MarkStep → ReadPath
  | .flag fh => { s with handles := s.onHandle fh fun h => { h with cacheOk := false } }
  | .window fh =>
    { s with handles := s.onHandle fh fun h => { h with ra := { h.ra with window := ∅ } } }
  | .recent fh =>
    { s with handles := s.onHandle fh fun h => { h with ra := { h.ra with recent := [] } } }
  | .blob => { s with cache := s.cache.invalidate path }

/-- The handles that are open under a path. -/
def openAt (path : RelPath) : List ℕ :=
  (s.handles.entries.filter fun e => decide (e.2.path = path)).map fun e => e.1

def onEvent (kind : EventKind) (path : RelPath) (moves : RelPath → Bool) : AutoCache :=
  match kind with
  | .modified | .attrChanged | .created | .removed => s.cache.invalidate path
  | .renamedFrom dst => s.cache.rename moves path dst
  | .resyncRequired => s.cache.markAllUnverified

def step : PathStep → Option ReadPath
  | .read c fh offset size =>
    match s.handles.lookup fh, s.reads.lookup c with
    | some h, none => some (s.startRead c fh offset size h)
    | _, _ => none
  | .advance c l =>
    match s.reads.lookup c with
    | none => none
    | some call =>
      match s.handles.lookup call.fh with
      | none => none
      | some h =>
        (call.advance h l).map fun n =>
          { s with reads := s.reads.insert c n.1, handles := s.handles.insert call.fh n.2 }
  | .answerWindow fh b ok =>
    match s.handles.lookup fh with
    | none => none
    | some h =>
      if h.ra.window.lookup b = some .pending then
        some { s with
          handles := s.handles.insert fh
            { h with ra := h.ra.put b (.done (s.served h.file b ok)) } }
      else none
  | .answerCall c b ok =>
    match s.reads.lookup c with
    | none => none
    | some call =>
      (call.answered b (s.served call.file b ok)).map fun call =>
        { s with reads := s.reads.insert c call }
  | .write w fh =>
    match s.handles.lookup fh, s.writes.lookup w with
    | some h, none =>
      some { s with
        writes := s.writes.insert w ⟨some fh, h.path, h.file, s.files.latest h.file, none⟩ }
    | _, _ => none
  | .chunk w offset data =>
    match s.writes.lookup w with
    | some ⟨through, path, f, _, none⟩ =>
      let files := s.files.change f (writeAt (s.files.current f) offset data)
      some { s with
        files := files
        writes := s.writes.insert w ⟨through, path, f, files.latest f, none⟩ }
    | _ => none
  | .truncate w path size =>
    match s.files.tree path, s.writes.lookup w with
    | some f, none =>
      let files := s.files.change f (setLen (s.files.current f) size)
      some { s with
        files := files
        writes := s.writes.insert w ⟨none, path, f, files.latest f, none⟩ }
    | _, _ => none
  | .written w order =>
    match s.writes.lookup w with
    | some ⟨through, path, f, version, none⟩ =>
      -- the handle is looked up again, and if it is gone nothing is marked
      if through.any fun fh => (s.handles.lookup fh).isNone then
        some { s with writes := s.writes.insert w ⟨through, path, f, version, some []⟩ }
      else if order.Perm (s.openAt path) then
        some { s with
          writes := s.writes.insert w ⟨through, path, f, version,
            some (order.flatMap (fun fh => [.flag fh, .window fh, .recent fh]) ++ [.blob])⟩ }
      else none
    | _ => none
  | .mark w =>
    match s.writes.lookup w with
    | some ⟨through, path, f, version, some (m :: todo)⟩ =>
      some { s.marked path m with
        writes := s.writes.insert w ⟨through, path, f, version, some todo⟩ }
    | _ => none
  | .returns w =>
    match s.writes.lookup w with
    | some ⟨_, _, f, version, some []⟩ =>
      some { s with
        writes := s.writes.erase w
        returned := update s.returned f (max (s.returned f) version) }
    | _ => none
  -- a chunk was refused, and nothing is marked
  | .fails w =>
    match s.writes.lookup w with
    | some ⟨_, _, _, _, none⟩ => some { s with writes := s.writes.erase w }
    | _ => none
  | .rename r src dst =>
    match s.renames.lookup r with
    | none =>
      some { s with
        files := s.files.rename src dst
        renames := s.renames.insert r (src, dst) }
    | some _ => none
  | .renamed r moves =>
    match s.renames.lookup r with
    | some (src, dst) =>
      some { s with cache := s.cache.rename moves src dst, renames := s.renames.erase r }
    | none => none
  | .ask o path mtime version =>
    match s.files.tree path, s.opens.lookup o with
    | some f, none =>
      some { s with opens := s.opens.insert o ⟨path, f, s.files.attr f mtime version⟩ }
    | _, _ => none
  | .install o fh =>
    match s.opens.lookup o, s.handles.lookup fh with
    | some call, none =>
      let (fresh, cache) := s.cache.freshFor call.path call.attr
      some { s with
        cache := cache
        opens := s.opens.erase o
        handles := s.handles.insert fh ⟨call.path, call.file, fresh, .new⟩ }
    | _, _ => none
  | .release fh =>
    -- a read under way keeps its handle
    if s.reads.entries.any fun e => decide (e.2.fh = fh) && !e.2.isDone then none
    else some { s with handles := s.handles.erase fh }
  | .event kind path moves => some { s with cache := s.onEvent kind path moves }
  | .fetch k path mtime version =>
    match s.files.tree path, s.fetches.lookup k with
    | some f, none =>
      let attr := s.files.attr f mtime version
      if AutoCache.wants cfg path attr.size && s.cache.needsFetch path attr then
        some { s with
          fetches := s.fetches.insert k
            ⟨path, f, attr, List.replicate (chunksOf attr.size) none, false⟩ }
      else some s
    | _, _ => none
  | .fetchChunk k i =>
    match s.fetches.lookup k with
    | some e =>
      if e.parts[i]? = some none then
        some { s with
          fetches := s.fetches.insert k { e with
            parts := e.parts.set i (some (chunkOf (s.files.current e.file) e.attr.size i)) } }
      else none
    | none => none
  | .place k =>
    match s.fetches.lookup k with
    | some e =>
      if !e.placed && e.parts.all Option.isSome && decide (e.data.length = e.attr.size) then
        some { s with
          cache := { s.cache with blobs := update s.cache.blobs e.path (some e.data) }
          fetches := s.fetches.insert k { e with placed := true } }
      else none
    | none => none
  | .commit k pinned =>
    match s.fetches.lookup k with
    | some ⟨path, _, attr, _, true⟩ =>
      some { s with cache := s.cache.commit cfg path attr pinned, fetches := s.fetches.erase k }
    | _ => none
  | .dropFetch k => some { s with fetches := s.fetches.erase k }
  | .change f data => some { s with files := s.files.change f data }

end ReadPath
end AlloyFs
