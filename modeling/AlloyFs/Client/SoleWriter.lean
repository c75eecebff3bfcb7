import AlloyFs.Agent.Answers
import AlloyFs.Client.Handles
import AlloyFs.Common.Coalesce

/-!
# Conflict detection and the only writer

A mount that detects conflicts remembers, for each open handle, the version of the file it saw
last: the one `open` or `create` reported, and then the one each of its chunks made.  A write
sends it along, and the agent refuses the write if the path has another version by then.

Nothing else updates what a handle remembers.  But the version of its path moves whenever the
agent learns of a change: when the watcher reports what the mount itself has written, when the
mount writes through another handle or sets the length of the file by its path, when a handle
is opened again with its truncate flag after a reconnect, and when the answer to a chunk is
lost.  After that the next write through the handle is refused, although there is no other
writer.

Here the mount runs against the handlers of the agent, one request or one step of the watcher
at a time; a write is a request for each of its chunks, with other steps between them.
`SoleWriter.undisturbed` is the condition on a step: it moves no version that another handle
remembers.
-/

namespace AlloyFs

/-- The mount's record of an open handle, with the version it saw last; `0` is none. -/
structure VersionedOpen extends OpenState where
  version : ℕ
  /-- the handle was opened for writing -/
  writable : Bool

/-- A write in progress: what is left of it. -/
structure WriteTask where
  fh : ℕ
  serverFh : ℕ
  offset : ℕ
  data : Bytes
  expect : Option ℕ

/-- The connection of the mount; while the supervisor opens the handles again, the mount still
has the lost one. -/
inductive Link
  | up
  | down
  | reopening (todo : List ℕ)
deriving DecidableEq

/-- The handle that is opened again next. -/
def Link.next : Link → Option ℕ
  | .reopening todo => todo.head?
  | _ => none

/-- A mount, the agent with the session of the mount, and the agent's watcher. -/
structure SoleWriter where
  ctx : Ctx
  link : Link
  openFiles : AList fun _ : ℕ => VersionedOpen
  writes : AList fun _ : ℕ => WriteTask
  watcher : Coalescer
  detectConflicts : Bool
  /-- a write was refused with `Conflict` -/
  refused : Bool

/-- The flag `answered` says whether the answer to the request arrives. -/
inductive SoleStep
  | openFile (path : RelPath) (flags : OpenFlags) (answered : Bool)
  | create (path : RelPath) (flags : OpenFlags) (mode : ℕ) (answered : Bool)
  | setattr (path : RelPath) (size : Option ℕ) (mtime : Option SystemTime) (mode : Option ℕ)
  | release (fh : ℕ)
  /-- a call of `write`, up to its loop -/
  | write (id fh offset : ℕ) (data : Bytes)
  /-- one turn of the loop -/
  | nextChunk (id : ℕ) (answered : Bool)
  | lose
  /-- a new connection attaches; the handles are visited in this order -/
  | dial (token : Option Text) (order : List ℕ)
  | reopen
  | swap
  | observe (event : NotifyEvent)
  | flush

variable {data : Bytes}

namespace SoleWriter

open Act

variable (x : Export)

/-- A mount that is not connected yet. -/
def boot (fs : Fs) (space : Option (ℕ × ℕ × ℕ)) (clock : ℕ) (detectConflicts : Bool) :
    SoleWriter where
  ctx := ⟨(Server.boot fs space clock).agent, .withToken 0 none⟩
  link := .down
  openFiles := ∅
  writes := ∅
  watcher := .new x.root x.exclude
  detectConflicts := detectConflicts
  refused := false

/-- The number to send for a handle: its entry's, or its own if it has none. -/
def serverFh (s : SoleWriter) (fh : ℕ) : ℕ := (s.openFiles.lookup fh).elim fh fun e => e.serverFh

/-- The version a write through the handle may overwrite. -/
def expectation (s : SoleWriter) (fh : ℕ) : Option ℕ :=
  if s.detectConflicts then
    ((s.openFiles.lookup fh).map fun e => e.version).filter fun v => v ≠ 0
  else none

/-- Send a request whose answer makes no difference to the mount. -/
def ask (s : SoleWriter) (req : Request) : SoleWriter :=
  { s with ctx := final (Ctx.handle x req s.ctx) }

/-- Send an `Open` or a `Create` and keep what is answered. -/
def opens (s : SoleWriter) (req : Request) (path : RelPath) (flags : OpenFlags) (writable : Bool) :
    SoleWriter :=
  match Ctx.handle x req s.ctx with
  | .ok (some (.opened fh attr)) c => { s with
      ctx := c
      openFiles := s.openFiles.insert fh ⟨⟨path, flags, fh, none⟩, attr.version, writable⟩ }
  | .ok _ c => { s with ctx := c }
  | .error _ c => { s with ctx := c }

/-- Remember the version a chunk made. -/
def storeVersion (s : SoleWriter) (fh v : ℕ) : AList fun _ : ℕ => VersionedOpen :=
  match s.openFiles.lookup fh with
  | some e => s.openFiles.insert fh { e with version := v }
  | none => s.openFiles

/-- Send one chunk. -/
def writeChunk (s : SoleWriter) (id : ℕ) (t : WriteTask) (answered : Bool) : SoleWriter :=
  match Ctx.handle x (.write t.serverFh t.offset (t.data.take DATA_CHUNK) t.expect) s.ctx with
  | .ok (some (.written n v _)) c =>
    if answered then { s with
      ctx := c
      openFiles := s.storeVersion t.fh v
      writes :=
        if n = 0 then s.writes.erase id
        else s.writes.insert id { t with
          offset := t.offset + n
          data := t.data.drop n
          expect := t.expect.map fun _ => v } }
    else { s with ctx := c, writes := s.writes.erase id }
  | .ok _ c => { s with ctx := c, writes := s.writes.erase id }
  | .error e c => { s with
      ctx := c
      writes := s.writes.erase id
      refused := s.refused || decide (e = .conflict) }

/-- The agent after the connection was lost: the session's locks and handles are freed. -/
def afterLoss (c : Ctx) : Ctx where
  toAgent := { c.toAgent with
    locks := if c.me.attached then c.locks.releaseSession c.me.id else c.locks }
  me := { c.me with handles := ∅, attached := false, authed := false }

/-- Open one handle again in the new session; a failure leaves it as it is. -/
def reopenOne (s : SoleWriter) (fh : ℕ) : SoleWriter :=
  match s.openFiles.lookup fh with
  | none => s
  | some e =>
    match Ctx.handle x (.openFile e.path e.flags) s.ctx with
    | .ok (some (.opened n _)) c => { s with
        ctx := c
        openFiles := s.openFiles.insert fh { e with serverFh := n } }
    | .ok _ c => { s with ctx := c }
    | .error _ c => { s with ctx := c }

def step (s : SoleWriter) : SoleStep → Option SoleWriter
  | .openFile path flags answered =>
    if s.link ≠ .up then none
    else if answered then some (s.opens x (.openFile path flags) path flags flags.wantsWrite)
    else some (s.ask x (.openFile path flags))
  | .create path flags mode answered =>
    if s.link ≠ .up then none
    else if answered then some (s.opens x (.create path flags mode) path flags true)
    else some (s.ask x (.create path flags mode))
  | .setattr path size mtime mode =>
    if s.link ≠ .up then none else some (s.ask x (.setattr path size mtime mode))
  | .release fh =>
    let s' := { s with openFiles := s.openFiles.erase fh }
    if s.link ≠ .up then some s' else some (s'.ask x (.release (s.serverFh fh)))
  | .write id fh offset data =>
    if id ∈ s.writes then none
    else some { s with
      writes := s.writes.insert id ⟨fh, s.serverFh fh, offset, data, s.expectation fh⟩ }
  | .nextChunk id answered =>
    match s.writes.lookup id with
    | none => none
    | some t =>
      -- the loop ends, or the request fails at once
      if t.data = [] ∨ s.link ≠ .up then some { s with writes := s.writes.erase id }
      else some (s.writeChunk x id t answered)
  | .lose =>
    if s.link = .down then none else some { s with ctx := afterLoss s.ctx, link := .down }
  | .dial token order =>
    if s.link ≠ .down ∨ ¬ order.Perm s.openFiles.keys then none
    else
      let me := { SessionInner.withToken (s.ctx.me.id + 1) token with authed := true }
      match Ctx.handle x (.attach x.name) ⟨s.ctx.toAgent, me⟩ with
      | .ok _ c => some { s with ctx := c, link := .reopening order }
      | .error _ _ => none
  | .reopen =>
    match s.link with
    | .reopening (fh :: todo) => some { s.reopenOne x fh with link := .reopening todo }
    | _ => none
  | .swap => if s.link = .reopening [] then some { s with link := .up } else none
  | .observe event => some { s with watcher := s.watcher.ingest event }
  | .flush => some { s with
      ctx := ⟨s.ctx.toAgent.publishBatch s.watcher.takeBatch.1, s.ctx.me⟩
      watcher := s.watcher.takeBatch.2 }

/-! ## The condition on a step -/

/-- No handle, except perhaps one, remembers a version of the path to write with. -/
def NoneExpects (s : SoleWriter) (except : Option ℕ) (path : RelPath) : Prop :=
  ∀ fh ∈ s.openFiles.keys, ∀ e ∈ (s.openFiles.lookup fh : Option VersionedOpen),
    some fh ≠ except → e.path = path → e.writable = true → e.version = 0
deriving Decidable

/-- No write through the handle is in progress. -/
def NoWrite (s : SoleWriter) (fh : ℕ) : Prop :=
  ∀ id ∈ s.writes.keys, ∀ t ∈ (s.writes.lookup id : Option WriteTask), t.fh ≠ fh
deriving Decidable

/-- Every entry holds the number of an open of its path, with its flags. -/
def Reopened (s : SoleWriter) : Prop :=
  ∀ fh ∈ s.openFiles.keys, ∀ e ∈ (s.openFiles.lookup fh : Option VersionedOpen),
    ∃ file ∈ (s.ctx.me.handles.lookup e.serverFh : Option OpenFile),
      file.path = e.path ∧ file.writable = e.flags.wantsWrite
deriving Decidable

/-- **The condition on a step**, in the state before it: it moves the version of no path that a
handle remembers a version of, a chunk's own handle apart; no two writes go through one handle
number; and when the mount takes over a new connection, no write is in progress and every
handle was opened again. -/
def undisturbed (s : SoleWriter) : SoleStep → Prop
  | .openFile path flags _ =>
    (flags.truncate = true → s.NoneExpects none path) ∧ s.NoWrite s.ctx.me.nextFh
  | .create path _ _ _ => s.NoneExpects none path ∧ s.NoWrite s.ctx.me.nextFh
  | .setattr path _ _ _ => s.NoneExpects none path
  | .write _ fh _ _ => s.NoWrite fh
  | .nextChunk id answered =>
    ∀ t ∈ (s.writes.lookup id : Option WriteTask),
      ∀ file ∈ (s.ctx.me.handles.lookup t.serverFh : Option OpenFile),
        s.NoneExpects (if answered then some t.fh else none) file.path
  | .reopen => ∀ fh ∈ s.link.next, ∀ e ∈ (s.openFiles.lookup fh : Option VersionedOpen),
      e.flags.truncate = true → s.NoneExpects none e.path
  | .swap => s.writes.keys = [] ∧ s.Reopened
  | .flush => ∀ item ∈ s.watcher.takeBatch.1, ∀ path ∈ (Agent.markOf item).paths,
      s.NoneExpects none path
  | _ => True

instance (s : SoleWriter) : ∀ l, Decidable (s.undisturbed l) := fun l => by
  unfold undisturbed
  split <;> infer_instance

/-! ## The invariant -/

def books (s : SoleWriter) : Books := s.ctx.books

/-- What a write in progress relies on: the entry of its handle, while there is one. -/
structure Tied (s : SoleWriter) (t : WriteTask) : Prop where
  entry : ∀ e, s.openFiles.lookup t.fh = some e → e.serverFh = t.serverFh
  expects : ∀ v, t.expect = some v → v ≠ 0 ∧ t.serverFh < s.ctx.me.nextFh ∧
    ((∃ e, s.openFiles.lookup t.fh = some e ∧ e.version = v) ∨
      s.ctx.me.handles.lookup t.serverFh = none)

theorem Tied.of_lookup {s s' : SoleWriter} {t : WriteTask} (h : s.Tied t) (hctx : s'.ctx = s.ctx)
    (hl : s'.openFiles.lookup t.fh = s.openFiles.lookup t.fh) : s'.Tied t := by
  refine ⟨fun e he => h.entry e (hl ▸ he), fun v hv => ?_⟩
  rw [hctx, hl]
  exact h.expects v hv

/-- What holds while the connection is up. -/
structure Linked (s : SoleWriter) : Prop where
  issued : ∀ fh e, s.openFiles.lookup fh = some e → e.serverFh < s.ctx.me.nextFh
  denotes : ∀ fh e file, s.openFiles.lookup fh = some e →
    s.ctx.me.handles.lookup e.serverFh = some file →
    file.path = e.path ∧ (file.writable = true → e.writable = true)
  alone : ∀ id id' t t', s.writes.lookup id = some t → s.writes.lookup id' = some t' →
    t.fh = t'.fh → id = id'
  tied : ∀ id t, s.writes.lookup id = some t → s.Tied t

/-- Every handle that can be written through, except perhaps one, remembers the version its path
has. -/
structure Inv (except : Option ℕ) (s : SoleWriter) : Prop where
  notRefused : s.refused = false
  authed : s.link ≠ .down → s.ctx.me.authed = true
  bounded : ∀ n ∈ s.ctx.me.handles, n < s.ctx.me.nextFh
  given : ∀ q, s.books.versionOf q ≤ s.books.vclock
  wants : ∀ fh e, s.openFiles.lookup fh = some e → e.flags.wantsWrite = true → e.writable = true
  current : ∀ fh e, s.openFiles.lookup fh = some e → some fh ≠ except → e.writable = true →
    e.version ≠ 0 → e.version = s.books.versionOf e.path
  linked : s.link = .up → s.Linked

section Steps

variable {x : Export} {s : SoleWriter} {except : Option ℕ}
  {path : RelPath} {c : Ctx} {id v fh : ℕ} {t : WriteTask} {m : Mark} {req : Request}
  {e : VersionedOpen} {writable : Bool}

theorem inv_boot (fs : Fs) (space : Option (ℕ × ℕ × ℕ)) (clock : ℕ) (detect : Bool) :
    Inv none (boot x fs space clock detect) := by
  have hnone : ∀ fh, (boot x fs space clock detect).openFiles.lookup fh = none :=
    fun fh => AList.lookup_empty fh
  refine ⟨rfl, fun h => absurd rfl h, fun n hn => absurd hn (AList.notMem_empty n),
    fun q => le_rfl, fun fh e h => ?_, fun fh e h => ?_, fun h => by cases h⟩
  · cases h
  · cases h

theorem noneExpects_iff : s.NoneExpects except path ↔
    ∀ fh e, s.openFiles.lookup fh = some e → some fh ≠ except → e.path = path →
      e.writable = true → e.version = 0 := by
  constructor
  · intro h fh e hl
    exact h fh (AList.mem_keys.mp (mem_of_lookup hl)) e hl
  · intro h fh _ e hl
    exact h fh e hl

/-- The session has gone on: no number that was given out stands for another file. -/
structure Later (me me' : SessionInner) : Prop where
  authed : me'.authed = me.authed
  nextFh : me.nextFh ≤ me'.nextFh
  handles : ∀ n < me.nextFh, ∀ file, me'.handles.lookup n = some file →
    me.handles.lookup n = some file
  bounded : (∀ n ∈ me.handles, n < me.nextFh) → ∀ n ∈ me'.handles, n < me'.nextFh

theorem Later.refl (me : SessionInner) : Later me me :=
  ⟨rfl, le_rfl, fun _ _ _ h => h, fun h => h⟩

theorem later_insert (me : SessionInner) (file : OpenFile) :
    Later me { me with handles := me.handles.insert me.nextFh file, nextFh := me.nextFh + 1 } where
  authed := rfl
  nextFh := Nat.le_succ _
  handles := fun n hn file' h => by
    rwa [AList.lookup_insert_ne hn.ne] at h
  bounded := fun hb n hn => by
    rcases (AList.mem_insert me.handles).mp hn with rfl | hn
    · exact Nat.lt_succ_self _
    · exact Nat.lt_succ_of_lt (hb n hn)

theorem later_erase (me : SessionInner) (fh : ℕ) :
    Later me { me with handles := me.handles.erase fh } where
  authed := rfl
  nextFh := le_rfl
  handles := fun _ _ _ h => (lookup_of_erase h).2
  bounded := fun hb n hn => hb n (AList.mem_erase.mp hn).2

section

variable (hi : s.Inv none)
include hi

/-- **The agent has gone on**: what holds of the mount still does, if the versions that moved are
remembered by no handle but one. -/
theorem Inv.withCtx (hme : Later s.ctx.me c.me) (hadv : s.books.Advance c.books)
    (hq : ∀ q, c.books.versionOf q = s.books.versionOf q ∨ s.NoneExpects except q) :
    Inv except { s with ctx := c } := by
  refine ⟨hi.notRefused, fun h => hme.authed.trans (hi.authed h), hme.bounded hi.bounded,
    hadv.bounded hi.given, hi.wants, fun fh e hl hne hw hv => ?_, fun hup => ?_⟩
  · rcases hq e.path with hsame | hnone
    · exact (hi.current fh e hl (by simp) hw hv).trans hsame.symm
    · exact absurd (noneExpects_iff.mp hnone fh e hl hne rfl hw) hv
  · have hlink := hi.linked hup
    have hgone : ∀ n < s.ctx.me.nextFh, s.ctx.me.handles.lookup n = none →
        c.me.handles.lookup n = none := by
      intro n hn hnone
      cases h : c.me.handles.lookup n with
      | none => rfl
      | some file =>
        rw [hme.handles n hn file h] at hnone
        cases hnone
    refine ⟨fun fh e hl => (hlink.issued fh e hl).trans_le hme.nextFh,
      fun fh e file hl hf => hlink.denotes fh e file hl ?_, hlink.alone, fun id t ht => ?_⟩
    · exact hme.handles _ (hlink.issued fh e hl) file hf
    · have htied := hlink.tied id t ht
      refine ⟨htied.entry, fun v hv => ?_⟩
      obtain ⟨hne, hlt, hor⟩ := htied.expects v hv
      exact ⟨hne, hlt.trans_le hme.nextFh, hor.imp_right (hgone _ hlt)⟩

theorem Inv.accepted (hup : s.link = .up) {file : OpenFile} (ht : s.writes.lookup id = some t)
    (hfile : s.ctx.me.handles.lookup t.serverFh = some file) (hw : file.writable = true)
    (hv : t.expect = some v) : v = s.books.versionOf file.path := by
  have hlink := hi.linked hup
  have htied := hlink.tied id t ht
  obtain ⟨hne, -, hor⟩ := htied.expects v hv
  rcases hor with ⟨e, he, rfl⟩ | hnone
  · rw [← htied.entry e he] at hfile
    obtain ⟨hpath, hwrite⟩ := hlink.denotes t.fh e file he hfile
    rw [hpath]
    exact hi.current t.fh e he (by simp) (hwrite hw) hne
  · rw [hfile] at hnone
    cases hnone

/-! ## What each step does to it -/

theorem Inv.request {b : Books} {me : SessionInner}
    (hb : b = m.apply s.books) (hme : Later s.ctx.me me)
    (hmark : ∀ q ∈ m.paths, s.NoneExpects except q) (hc : c.books = b) (hc' : c.me = me) :
    Inv except { s with ctx := c } := by
  subst hc hc'
  refine hi.withCtx hme (hb ▸ m.advance_apply _) fun q => ?_
  by_cases hq : q ∈ m.paths
  · exact .inr (hmark q hq)
  · rw [hb]
    exact .inl (Mark.versionOf_apply_of_notMem hq _)

theorem Inv.failed (hc : c.clientView = (s.books, s.ctx.me)) : Inv none { s with ctx := c } := by
  obtain ⟨hb, hme⟩ := Prod.mk.inj hc
  exact hi.request (m := .none) rfl (Later.refl _) (fun _ h => by cases h) hb hme

theorem inv_ask (h : Ctx.Answers s.books s.ctx.me (Ctx.handle x req) fun _ b me =>
      b = m.apply s.books ∧ Later s.ctx.me me)
    (hmark : ∀ q ∈ m.paths, s.NoneExpects none q) : Inv none (s.ask x req) := by
  have hrun := h s.ctx rfl
  rw [ask]
  cases hh : Ctx.handle x req s.ctx with
  | ok r c =>
    rw [hh] at hrun
    exact hi.request hrun.1 hrun.2 hmark rfl rfl
  | error e c =>
    rw [hh] at hrun
    exact hi.failed hrun

theorem Inv.insertEntry {n : ℕ} (hwants : e.flags.wantsWrite = true → e.writable = true)
    (hcur : e.version = s.books.versionOf e.path) (hnum : e.serverFh < s.ctx.me.nextFh)
    (hfile : ∀ file, s.ctx.me.handles.lookup e.serverFh = some file →
      file.path = e.path ∧ (file.writable = true → e.writable = true)) (hfree : s.NoWrite n) :
    Inv none { s with openFiles := s.openFiles.insert n e } := by
  refine { hi with
    wants := fun fh e' hl => ?_
    current := fun fh e' hl hne hw hv => ?_
    linked := fun hup => ?_ }
  · rcases lookup_of_insert hl with ⟨-, rfl⟩ | ⟨-, hl⟩
    · exact hwants
    · exact hi.wants fh e' hl
  · rcases lookup_of_insert hl with ⟨-, rfl⟩ | ⟨-, hl⟩
    · exact hcur
    · exact hi.current fh e' hl hne hw hv
  · have hlink := hi.linked hup
    refine ⟨fun fh e' hl => ?_, fun fh e' file hl hf => ?_, hlink.alone, fun id t ht => ?_⟩
    · rcases lookup_of_insert hl with ⟨-, rfl⟩ | ⟨-, hl⟩
      · exact hnum
      · exact hlink.issued fh e' hl
    · rcases lookup_of_insert hl with ⟨-, rfl⟩ | ⟨-, hl⟩
      · exact hfile file hf
      · exact hlink.denotes fh e' file hl hf
    · have hne : t.fh ≠ n := hfree id (AList.mem_keys.mp (mem_of_lookup ht)) t ht
      exact (hlink.tied id t ht).of_lookup rfl (AList.lookup_insert_ne hne)

theorem inv_opens {flags : OpenFlags}
    (h : Ctx.Answers s.books s.ctx.me (Ctx.handle x req) fun r b me =>
      ∃ r', r = some r' ∧ b = m.apply s.books ∧ Ctx.Opened s.ctx.me path writable r' b me)
    (hwants : flags.wantsWrite = true → writable = true)
    (hmark : ∀ q ∈ m.paths, s.NoneExpects none q) (hfree : s.NoWrite s.ctx.me.nextFh) :
    Inv none (s.opens x req path flags writable) := by
  have hrun := h s.ctx rfl
  rw [opens]
  cases hh : Ctx.handle x req s.ctx with
  | error e c =>
    rw [hh] at hrun
    exact hi.failed hrun
  | ok r c =>
    rw [hh] at hrun
    obtain ⟨r', rfl, hb, attr, file, rfl, hver, hpath, hwr, hme⟩ := hrun
    have hi' : Inv none { s with ctx := c } :=
      hi.request hb (later_insert s.ctx.me file) hmark rfl hme
    have hnew : c.me.handles.lookup s.ctx.me.nextFh = some file := by
      rw [hme]
      exact AList.lookup_insert _
    refine hi'.insertEntry (n := s.ctx.me.nextFh) hwants hver ?_ (fun file' hf => ?_) hfree
    · rw [hme]
      exact Nat.lt_succ_self _
    · obtain rfl : file = file' := Option.some.inj (hnew.symm.trans hf)
      exact ⟨hpath, fun h => hwr ▸ h⟩

end

theorem later_of_opened {me me' : SessionInner} {r : Response}
    {b : Books} (h : Ctx.Opened me path writable r b me') : Later me me' := by
  obtain ⟨attr, file, -, -, -, -, rfl⟩ := h
  exact later_insert me file

theorem inv_ask_opens (hi : s.Inv none)
    (h : Ctx.Answers s.books s.ctx.me (Ctx.handle x req) fun r b me =>
      ∃ r', r = some r' ∧ b = m.apply s.books ∧ Ctx.Opened s.ctx.me path writable r' b me)
    (hmark : ∀ q ∈ m.paths, s.NoneExpects none q) : Inv none (s.ask x req) :=
  inv_ask hi (h.conseq (fun _ hc => hc)
    (fun _ _ ⟨_, _, hb, ho⟩ => ⟨hb, later_of_opened ho⟩) fun _ hc => hc) hmark

theorem mark_openFile_paths {q : RelPath} {flags : OpenFlags}
    (h : flags.truncate = true → s.NoneExpects none path)
    (hq : q ∈ ((Request.openFile path flags).mark s.ctx.me.handles).paths) :
    s.NoneExpects none q := by
  rw [Request.mark] at hq
  split at hq
  · next ht =>
    obtain rfl := List.mem_singleton.mp hq
    exact h ht
  · cases hq

theorem Inv.eraseEntry (hi : s.Inv none)
    (hgone : s.link = .up → s.ctx.me.handles.lookup (s.serverFh fh) = none) :
    Inv none { s with openFiles := s.openFiles.erase fh } := by
  refine { hi with
    wants := fun k e hl => hi.wants k e (lookup_of_erase hl).2
    current := fun k e hl => hi.current k e (lookup_of_erase hl).2
    linked := fun hup => ?_ }
  have hlink := hi.linked hup
  refine ⟨fun k e hl => hlink.issued k e (lookup_of_erase hl).2,
    fun k e file hl => hlink.denotes k e file (lookup_of_erase hl).2, hlink.alone,
      fun id t ht => ?_⟩
  have htied := hlink.tied id t ht
  by_cases hfh : t.fh = fh
  · -- the write goes on without an entry, and its handle is gone
    refine ⟨fun e he => htied.entry e (lookup_of_erase he).2, fun v hv => ?_⟩
    obtain ⟨hne, hlt, hor⟩ := htied.expects v hv
    refine ⟨hne, hlt, .inr ?_⟩
    rcases hor with ⟨e, he, -⟩ | hnone
    · have hnum : s.serverFh fh = t.serverFh := by
        rw [serverFh, ← hfh, he]
        exact htied.entry e he
      exact hnum ▸ hgone hup
    · exact hnone
  · exact htied.of_lookup rfl (AList.lookup_erase_ne hfh)

theorem handle_release (hauth : c.me.authed = true) (fh : ℕ) :
    ∃ c', Ctx.handle x (.release fh) c = .ok (some .ok) c' := by
  have hrun : ∃ c', Ctx.release fh c = .ok .ok c' := by
    rw [Ctx.release, get_bind]
    cases c.me.handles.lookup fh with
    | none => exact ⟨_, rfl⟩
    | some file => exact ⟨_, rfl⟩
  obtain ⟨c', hrun⟩ := hrun
  exact ⟨c', Ctx.handle_of_ok hauth hrun⟩

theorem inv_release (hi : s.Inv none) (hup : s.link = .up) (fh : ℕ) :
    Inv none ({ s with openFiles := s.openFiles.erase fh }.ask x (.release (s.serverFh fh))) := by
  have hauth : s.ctx.me.authed = true := hi.authed (by rw [hup]; simp)
  obtain ⟨c, hc⟩ := handle_release (x := x) hauth (s.serverFh fh)
  have hrun := Ctx.answers_handle_release x s.books s.ctx.me (s.serverFh fh) s.ctx rfl
  rw [hc] at hrun
  obtain ⟨hb, hme⟩ := hrun
  have hi' : Inv none { s with ctx := c } :=
    hi.request (m := .none) hb (later_erase _ _) (fun _ h => by cases h) rfl hme
  have heq : { s with openFiles := s.openFiles.erase fh }.ask x (.release (s.serverFh fh)) =
      { s with ctx := c, openFiles := s.openFiles.erase fh } := by
    rw [ask, hc]
    rfl
  rw [heq]
  refine hi'.eraseEntry fun _ => ?_
  rw [hme]
  exact AList.lookup_erase _ _

/-! ### Writes -/

theorem Inv.dropWrite (hi : s.Inv except) (id : ℕ) :
    Inv except { s with writes := s.writes.erase id } := by
  refine { hi with linked := fun hup => ?_ }
  have hlink := hi.linked hup
  exact { hlink with
    alone := fun id id' t t' ht ht' =>
      hlink.alone id id' t t' (lookup_of_erase ht).2 (lookup_of_erase ht').2
    tied := fun id t ht => (hlink.tied id t (lookup_of_erase ht).2).of_lookup rfl rfl }

theorem Linked.insertWrite {t : WriteTask} (hlink : Linked { s with writes := s.writes.erase id })
    (halone : ∀ id' t', id' ≠ id → s.writes.lookup id' = some t' → t'.fh ≠ t.fh)
    (htied : s.Tied t) : Linked { s with writes := s.writes.insert id t } := by
  have hother : ∀ {k t'}, k ≠ id → s.writes.lookup k = some t' →
      (s.writes.erase id).lookup k = some t' :=
    fun hk h => (AList.lookup_erase_ne hk).trans h
  refine { hlink with alone := fun k k' t₁ t₂ h₁ h₂ heq => ?_, tied := fun k t' ht => ?_ }
  · rcases lookup_of_insert h₁ with ⟨hk, rfl⟩ | ⟨hk, hold⟩
    · rcases lookup_of_insert h₂ with ⟨hk', -⟩ | ⟨hk', hold'⟩
      · rw [hk, hk']
      · exact absurd heq.symm (halone k' t₂ hk' hold')
    · rcases lookup_of_insert h₂ with ⟨-, rfl⟩ | ⟨hk', hold'⟩
      · exact absurd heq (halone k t₁ hk hold)
      · exact hlink.alone k k' t₁ t₂ (hother hk hold) (hother hk' hold') heq
  · rcases lookup_of_insert ht with ⟨-, rfl⟩ | ⟨hk, ht⟩
    · exact htied.of_lookup rfl rfl
    · exact (hlink.tied k t' (hother hk ht)).of_lookup rfl rfl

theorem inv_write (hi : s.Inv none) {offset : ℕ} (hfree : s.NoWrite fh) : Inv none { s with
      writes := s.writes.insert id ⟨fh, s.serverFh fh, offset, data, s.expectation fh⟩ } := by
  refine { hi with linked := fun hup => ?_ }
  have hlink := hi.linked hup
  refine ((hi.dropWrite id).linked hup).insertWrite (fun id' t' _ ht' => ?_)
    ⟨fun e he => ?_, fun v hv => ?_⟩
  · exact hfree id' (AList.mem_keys.mp (mem_of_lookup ht')) t' ht'
  · rw [serverFh, he]
    rfl
  · rw [expectation] at hv
    split at hv
    · rw [Option.filter_eq_some_iff, Option.map_eq_some_iff] at hv
      obtain ⟨⟨e, he, rfl⟩, hne⟩ := hv
      refine ⟨by simpa using hne, ?_, .inl ⟨e, he, rfl⟩⟩
      rw [serverFh, he]
      exact hlink.issued fh e he
    · cases hv

theorem lookup_storeVersion_self (h : s.openFiles.lookup fh = some e) :
    (s.storeVersion fh v).lookup fh = some { e with version := v } := by
  rw [storeVersion, h]
  exact AList.lookup_insert _

theorem lookup_storeVersion_of_ne {k : ℕ} (h : k ≠ fh) :
    (s.storeVersion fh v).lookup k = s.openFiles.lookup k := by
  rw [storeVersion]
  split
  · exact AList.lookup_insert_ne h
  · rfl

theorem of_lookup_storeVersion {k : ℕ} {e' : VersionedOpen}
    (h : (s.storeVersion fh v).lookup k = some e') :
    ∃ e, s.openFiles.lookup k = some e ∧
    ((k = fh ∧ e' = { e with version := v }) ∨ k ≠ fh ∧ e' = e) := by
  by_cases hk : k = fh
  · subst hk
    cases he : s.openFiles.lookup k with
    | none =>
      rw [storeVersion, he] at h
      rw [show s.openFiles.lookup k = some e' from h] at he
      cases he
    | some e =>
      rw [lookup_storeVersion_self he, Option.some.injEq] at h
      exact ⟨e, rfl, .inl ⟨rfl, h.symm⟩⟩
  · rw [lookup_storeVersion_of_ne hk] at h
    exact ⟨e', h, .inr ⟨hk, rfl⟩⟩

/-- **A chunk's own handle catches up**: what the chunk made is stored where the next one, and the
next write, will look. -/
theorem Inv.store {t' : WriteTask} (hi : s.Inv (some t.fh))
    (hup : s.link = .up) (ht : s.writes.lookup id = some t)
    (hv : v ≠ 0) (hcur : ∀ e, s.openFiles.lookup t.fh = some e → v = s.books.versionOf e.path)
    (hfh : t'.fh = t.fh) (hnum : t'.serverFh = t.serverFh)
    (hexp : t'.expect = t.expect.map fun _ => v) :
    Inv none { s with
      openFiles := s.storeVersion t.fh v
      writes := s.writes.insert id t' } := by
  have hlink := hi.linked hup
  have htied := hlink.tied id t ht
  refine { hi with
    wants := fun k e' hl => ?_, current := fun k e' hl _ hw hne => ?_, linked := fun _ => ?_ }
  · obtain ⟨e, he, ⟨-, rfl⟩ | ⟨-, rfl⟩⟩ := of_lookup_storeVersion hl
    · exact hi.wants k e he
    · exact hi.wants k _ he
  · obtain ⟨e, he, ⟨rfl, rfl⟩ | ⟨hk, rfl⟩⟩ := of_lookup_storeVersion hl
    · exact hcur e he
    · exact hi.current k _ he (fun h => hk (Option.some.inj h)) hw hne
  · have hrest := (hi.dropWrite id).linked hup
    -- the other writes go through other handles
    have halone : ∀ id' t₁, id' ≠ id → s.writes.lookup id' = some t₁ → t₁.fh ≠ t.fh :=
      fun id' t₁ hne h₁ heq => hne (hlink.alone id' id t₁ t h₁ ht heq)
    refine Linked.insertWrite (s := { s with openFiles := s.storeVersion t.fh v })
      ⟨fun k e' hl => ?_, fun k e' file hl hf => ?_, hrest.alone, fun k t₁ ht₁ => ?_⟩
      (hfh ▸ halone) ⟨fun e' he' => ?_, fun w hw => ?_⟩
    · obtain ⟨e, he, ⟨-, rfl⟩ | ⟨-, rfl⟩⟩ := of_lookup_storeVersion hl
      · exact hlink.issued k e he
      · exact hlink.issued k _ he
    · obtain ⟨e, he, ⟨-, rfl⟩ | ⟨-, rfl⟩⟩ := of_lookup_storeVersion hl
      · exact hlink.denotes k e file he hf
      · exact hlink.denotes k _ file he hf
    · have hk : k ≠ id := by
        rintro rfl
        rw [AList.lookup_erase] at ht₁
        cases ht₁
      refine (hrest.tied k t₁ ht₁).of_lookup rfl (lookup_storeVersion_of_ne (halone k t₁ hk ?_))
      exact (AList.lookup_erase_ne hk).symm.trans ht₁
    · rw [hfh] at he'
      obtain ⟨e, he, ⟨-, rfl⟩ | ⟨-, rfl⟩⟩ := of_lookup_storeVersion he'
      · exact (htied.entry e he).trans hnum.symm
      · exact (htied.entry _ he).trans hnum.symm
    · rw [hexp, Option.map_eq_some_iff] at hw
      obtain ⟨w₀, hw₀, rfl⟩ := hw
      obtain ⟨-, hlt, hor⟩ := htied.expects w₀ hw₀
      rw [hfh, hnum]
      refine ⟨hv, hlt, hor.imp_left fun ⟨e, he, _⟩ => ⟨{ e with version := v }, ?_, rfl⟩⟩
      exact lookup_storeVersion_self he

theorem inv_writeChunk (hi : s.Inv none) (hup : s.link = .up)
    {answered : Bool} (ht : s.writes.lookup id = some t) (hdata : t.data ≠ [])
    (hok : ∀ file, s.ctx.me.handles.lookup t.serverFh = some file →
      s.NoneExpects (if answered then some t.fh else none) file.path) :
    Inv none (s.writeChunk x id t answered) := by
  have hrun := Ctx.answers_handle_write x s.books s.ctx.me t.serverFh t.offset
    (t.data.take DATA_CHUNK) t.expect s.ctx rfl
  rw [writeChunk]
  cases hh : Ctx.handle x (.write t.serverFh t.offset (t.data.take DATA_CHUNK) t.expect) s.ctx with
  | error e c =>
    rw [hh] at hrun
    have hne : e ≠ .conflict := by
      rintro rfl
      obtain ⟨file, v, hl, hw, hv, hne⟩ := Ctx.conflict_of_handle hh
      exact hne (hi.accepted hup ht hl hw hv)
    have h := (hi.failed hrun).dropWrite id
    have hflag : (s.refused || decide (e = .conflict)) = s.refused := by
      rw [decide_eq_false hne, Bool.or_false]
    simp only [hflag]
    exact h
  | ok r c =>
    rw [hh] at hrun
    obtain ⟨file, hl, hw, hb, hme, rfl⟩ := hrun
    have hmark := hok file hl
    cases answered with
    | false =>
      have h : Inv none { s with ctx := c } :=
        hi.request hb (hme ▸ Later.refl _)
          (fun q hq => by obtain rfl := List.mem_singleton.mp hq; exact hmark) rfl rfl
      exact h.dropWrite id
    | true =>
      have h : Inv (some t.fh) { s with ctx := c } :=
        hi.request hb (hme ▸ Later.refl _)
          (fun q hq => by obtain rfl := List.mem_singleton.mp hq; exact hmark) rfl rfl
      have hlen : (t.data.take DATA_CHUNK).length ≠ 0 := by
        have : 0 < t.data.length := List.length_pos_iff.mpr hdata
        rw [List.length_take, DATA_CHUNK]
        omega
      have hnew : c.books.versionOf file.path ≠ 0 := by
        rw [hb]
        exact (Books.versionOf_bump_self).trans_ne (Nat.succ_ne_zero _)
      have hlink := hi.linked hup
      simp only [if_neg hlen, if_true]
      refine h.store hup ht hnew (fun e he => ?_) rfl rfl rfl
      have hnum := (hlink.tied id t ht).entry e he
      rw [(hlink.denotes t.fh e file he (hnum ▸ hl)).1]
      rfl

/-! ### The supervisor -/

theorem inv_reopenOne (hi : s.Inv none) (hlink : s.link ≠ .up)
    (hok : ∀ e, s.openFiles.lookup fh = some e → e.flags.truncate = true →
      s.NoneExpects none e.path) : Inv none (s.reopenOne x fh) := by
  rw [reopenOne]
  split
  · exact hi
  · next e he =>
    have hrun := Ctx.answers_handle_openFile x s.books s.ctx.me e.path e.flags s.ctx rfl
    cases hh : Ctx.handle x (.openFile e.path e.flags) s.ctx with
    | error code c =>
      rw [hh] at hrun
      exact hi.failed hrun
    | ok r c =>
      rw [hh] at hrun
      obtain ⟨_, rfl, hb, hopened⟩ := hrun
      have hi' : Inv none { s with ctx := c } :=
        hi.request hb (later_of_opened hopened)
          (fun q hq => mark_openFile_paths (hok e he) hq) rfl rfl
      obtain ⟨attr, file, rfl, -⟩ := hopened
      -- the entry keeps its path, its flags and its version
      have hcases :
          ∀ {k e'}, (s.openFiles.insert fh { e with serverFh := s.ctx.me.nextFh }).lookup k =
          some e' → ∃ e₀, s.openFiles.lookup k = some e₀ ∧ e'.path = e₀.path ∧
            e'.flags = e₀.flags ∧ e'.version = e₀.version ∧ e'.writable = e₀.writable := by
        intro k e' hl
        rcases lookup_of_insert hl with ⟨rfl, rfl⟩ | ⟨-, hl⟩
        · exact ⟨e, he, rfl, rfl, rfl, rfl⟩
        · exact ⟨e', hl, rfl, rfl, rfl, rfl⟩
      refine { hi' with
        wants := fun k e' hl => ?_
        current := fun k e' hl hne hw hv => ?_
        linked := fun hup => absurd hup hlink }
      · obtain ⟨e₀, he₀, -, hflags, -, hwr⟩ := hcases hl
        rw [hflags, hwr]
        exact hi'.wants k e₀ he₀
      · obtain ⟨e₀, he₀, hpath, -, hver, hwr⟩ := hcases hl
        rw [hver] at hv ⊢
        rw [hpath]
        exact hi'.current k e₀ he₀ hne (hwr ▸ hw) hv

theorem link_reopenOne (fh : ℕ) : (s.reopenOne x fh).link = s.link := by
  rw [reopenOne]
  split
  · rfl
  · split <;> rfl

section

variable (hi : s.Inv none)
include hi

theorem Inv.withLink {link : Link} (hup : link ≠ .up)
    (hauth : link ≠ .down → s.ctx.me.authed = true) : Inv none { s with link := link } :=
  { hi with authed := hauth, linked := fun h => absurd h hup }

theorem inv_lose : Inv none { s with ctx := afterLoss s.ctx, link := .down } :=
  { hi with
    authed := fun h => absurd rfl h
    bounded := fun n hn => absurd hn (AList.notMem_empty n)
    linked := fun h => by cases h }

theorem inv_dial {token : Option Text} {order : List ℕ} {r : Option Response}
    {c : Ctx} (hrun : Ctx.handle x (.attach x.name)
      ⟨s.ctx.toAgent, { SessionInner.withToken (s.ctx.me.id + 1) token with authed := true }⟩ =
        .ok r c) : Inv none { s with ctx := c, link := .reopening order } := by
  have h := Ctx.answers_handle_attach x s.books
    { SessionInner.withToken (s.ctx.me.id + 1) token with authed := true } x.name
    ⟨s.ctx.toAgent, { SessionInner.withToken (s.ctx.me.id + 1) token with authed := true }⟩ rfl
  rw [hrun] at h
  obtain ⟨hb, hme⟩ := h
  have hbooks : SoleWriter.books { s with ctx := c, link := .reopening order } = s.books := hb
  refine ⟨hi.notRefused, fun _ => ?_, fun n hn => ?_, ?_, hi.wants, ?_, fun h => by cases h⟩
  · rw [hme]
  · rw [hme] at hn
    exact absurd hn (AList.notMem_empty n)
  · rw [hbooks]
    exact hi.given
  · rw [hbooks]
    exact hi.current

theorem inv_swap (hlink : s.link = .reopening []) (hwrites : s.writes.keys = [])
    (hre : s.Reopened) : Inv none { s with link := .up } := by
  have hno : ∀ id t, s.writes.lookup id ≠ some t := by
    intro id t h
    have := AList.mem_keys.mp (mem_of_lookup h)
    rw [hwrites] at this
    cases this
  have hentry : ∀ fh e, s.openFiles.lookup fh = some e →
      ∃ file, s.ctx.me.handles.lookup e.serverFh = some file ∧ file.path = e.path ∧
        file.writable = e.flags.wantsWrite :=
    fun fh e hl => hre fh (AList.mem_keys.mp (mem_of_lookup hl)) e hl
  refine { hi with
    authed := fun _ => hi.authed (by rw [hlink]; simp)
    linked := fun _ => ⟨fun fh e hl => ?_, fun fh e file hl hf => ?_,
      fun id _ t _ h => absurd h (hno id t), fun id t h => absurd h (hno id t)⟩ }
  · obtain ⟨file, hf, -⟩ := hentry fh e hl
    exact hi.bounded _ (mem_of_lookup hf)
  · obtain ⟨file', hf', hpath, hw⟩ := hentry fh e hl
    obtain rfl : file' = file := Option.some.inj (hf'.symm.trans hf)
    exact ⟨hpath, fun h => hi.wants fh e hl (hw ▸ h)⟩

/-! ### Whole runs -/

theorem Inv.withWatcher (watcher : Coalescer) : Inv none { s with watcher := watcher } :=
  { hi with linked := fun hup => { hi.linked hup with
      tied := fun id t ht => ((hi.linked hup).tied id t ht).of_lookup rfl rfl } }

theorem inv_step {s' : SoleWriter} {l : SoleStep} (hok : s.undisturbed l)
    (h : s.step x l = some s') : s'.Inv none := by
  cases l with
  | openFile path flags answered =>
    simp only [step] at h
    split at h
    · cases h
    · have hans := Ctx.answers_handle_openFile x s.books s.ctx.me path flags
      have hmark : ∀ q ∈ ((Request.openFile path flags).mark s.ctx.me.handles).paths,
          s.NoneExpects none q := fun q hq => mark_openFile_paths hok.1 hq
      split at h
      · cases h
        exact inv_opens hi hans (fun hw => hw) hmark hok.2
      · cases h
        exact inv_ask_opens hi hans hmark
  | create path flags mode answered =>
    simp only [step] at h
    split at h
    · cases h
    · have hans := Ctx.answers_handle_create x s.books s.ctx.me path flags mode
      have hmark : ∀ q ∈ (Mark.bump path).paths, s.NoneExpects none q := by
        intro q hq
        obtain rfl := List.mem_singleton.mp hq
        exact hok.1
      split at h
      · cases h
        exact inv_opens hi hans (fun _ => rfl) hmark hok.2
      · cases h
        exact inv_ask_opens hi hans hmark
  | setattr path size mtime mode =>
    obtain ⟨-, rfl⟩ := of_guard_not h
    refine inv_ask (m := .bump path) hi ?_ fun q hq => ?_
    · exact (Ctx.answers_handle_setattr x s.books s.ctx.me path size mtime mode).conseq
        (fun _ h => h) (fun _ _ h => ⟨h.1, h.2 ▸ Later.refl _⟩) fun _ h => h
    · obtain rfl := List.mem_singleton.mp hq
      exact hok
  | release fh =>
    simp only [step] at h
    split at h
    · next hdown =>
      cases h
      exact hi.eraseEntry fun hup => absurd hup hdown
    · next hup =>
      cases h
      exact inv_release hi (not_not.mp hup) fh
  | write id fh offset data =>
    obtain ⟨-, rfl⟩ := of_guard_not h
    exact inv_write hi hok
  | nextChunk id answered =>
    simp only [step] at h
    split at h
    · cases h
    · next t ht =>
      split at h
      · cases h
        exact hi.dropWrite id
      · next hgo =>
        cases h
        obtain ⟨hdata, hup⟩ := not_or.mp hgo
        exact inv_writeChunk hi (not_not.mp hup) ht hdata (hok t ht)
  | lose =>
    obtain ⟨-, rfl⟩ := of_guard_not h
    exact inv_lose hi
  | dial token order =>
    simp only [step] at h
    split at h
    · cases h
    · split at h
      · next hrun =>
        cases h
        exact inv_dial hi hrun
      · cases h
  | reopen =>
    simp only [step] at h
    split at h
    · next fh todo hlink =>
      cases h
      have hup : s.link ≠ .up := by rw [hlink]; simp
      have hi' := inv_reopenOne (x := x) hi hup
        fun e he => hok fh (by rw [hlink]; rfl) e he
      refine hi'.withLink (by simp) fun _ => hi'.authed ?_
      rw [link_reopenOne, hlink]
      simp
    · cases h
  | swap =>
    obtain ⟨hlink, rfl⟩ := of_guard h
    exact inv_swap hi hlink hok.1 hok.2
  | observe event =>
    cases h
    exact hi.withWatcher _
  | flush =>
    cases h
    have hi' : Inv none { s with
        ctx := ⟨s.ctx.toAgent.publishBatch s.watcher.takeBatch.1, s.ctx.me⟩ } := by
      refine hi.withCtx (Later.refl _) (Agent.advance_publishBatch _ _) fun q => ?_
      by_cases hq : ∃ item ∈ s.watcher.takeBatch.1, q ∈ (Agent.markOf item).paths
      · obtain ⟨item, hitem, hq⟩ := hq
        exact .inr (hok item hitem q hq)
      · refine .inl (Agent.versionOf_publishBatch_of_notMem _ fun item hitem hmem => ?_)
        exact hq ⟨item, hitem, hmem⟩
    exact hi'.withWatcher _

end

/-! ## When the watcher reports a change -/

end Steps

/-- The writes in progress, and what is in the file. -/
def outcome (s : SoleWriter) : List ℕ × Option Bytes :=
  (s.writes.keys, s.ctx.fs.contentAt [['s', 'r', 'v'], ['a']])

end SoleWriter
end AlloyFs
