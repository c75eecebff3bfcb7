import AlloyFs.Agent.LockLater
import AlloyFs.Client.Handles

/-!
# Clients that remember their locks

A client keeps, beside each open handle, the lock that it believes the handle has.  It writes this
mirror when a `Lock` or an `Unlock` request has been answered, and when its connection is lost, the
reconnect supervisor opens every handle again in a new session and asks for the locks of the
mirror.  A handle whose lock cannot be had again is poisoned.

Here any number of clients run against the lock server.  A call is taken apart into the steps
between which others can move: it reads the number of its handle, sends the request on the
connection there is by then, the server looks the handle up, runs its critical sections and
answers, the reader of the connection hands the answer over, and the caller writes the mirror.  A
caller whose connection is lost, or whose time is up, no longer waits, and the server does not know
it.  The supervisor works through the handles one by one, one try for a lock at a time.

What the server does is a sequence of its own steps, `LockSystem.serverSteps`; the rest of an event
is the client's.
-/

namespace AlloyFs

/-- A client's record of an open handle, with its lock and whether it is poisoned. -/
structure MirroredState extends OpenState where
  poisoned : Bool
  /-- the session that gave `serverFh`; the client keeps the number only -/
  issuer : ℕ
deriving DecidableEq

/-- A lock that the supervisor is asking for, with the number of tries left. -/
structure Replay where
  fh : ℕ
  number : ℕ
  kind : LockKind
  tries : ℕ
deriving DecidableEq

/-- A pass of the supervisor: the new session, the handles yet to be visited, and the lock of the
last one visited, while it is being asked for. -/
structure Pass where
  session : ℕ
  todo : List ℕ
  replay : Option Replay
deriving DecidableEq

/-- The connection of a client, as the client sees it. -/
inductive MirrorLink
  | up (session : ℕ)
  | down
  | dialling (pass : Pass)
deriving DecidableEq

/-- The session that the client is in, or is about to be in. -/
def MirrorLink.session : MirrorLink → Option ℕ
  | up session => some session
  | down => none
  | dialling pass => some pass.session

structure LockClient where
  link : MirrorLink
  files : AList fun _ : ℕ => MirroredState

/-- What a call asks of the server. -/
inductive MirrorOp
  | lock (kind : LockKind) (wait : Bool)
  | unlock
  | release
deriving DecidableEq

/-- The mirror after a call that went well. -/
def MirrorOp.mirror : MirrorOp → Option LockKind
  | lock kind _ => some kind
  | _ => none

/-- How far a call has come. -/
inductive CallPhase
  /-- the number of the handle is read, and nothing sent -/
  | prepared
  | travelling (session : ℕ)
  /-- a task of the server; once `parked`, it has let go of what the handle had -/
  | locking (session : ℕ) (path : RelPath) (task : ℕ) (parked : Bool)
  | unlocking (session : ℕ) (path : RelPath)
  | releasing (session : ℕ) (path : RelPath)
  | answered (session : ℕ) (ok : Bool)
  /-- the caller has the answer, and has yet to act on it -/
  | received (ok : Bool)
deriving DecidableEq

/-- The session whose server is concerned with the call. -/
def CallPhase.session : CallPhase → Option ℕ
  | prepared => none
  | travelling session => some session
  | locking session _ _ _ => some session
  | unlocking session _ => some session
  | releasing session _ => some session
  | answered session _ => some session
  | received _ => none

/-- A call on a handle. -/
structure HandleCall where
  client : ℕ
  fh : ℕ
  op : MirrorOp
  /-- the number read for the handle, and who gave it -/
  number : ℕ
  issuer : Option ℕ
  /-- the caller is still there -/
  waiting : Bool
  phase : CallPhase
deriving DecidableEq

/-- The call is a caller's `lock` or `unlock` on this handle. -/
def HandleCall.claims (call : HandleCall) (client fh : ℕ) : Prop :=
  call.client = client ∧ call.fh = fh ∧ call.op ≠ .release ∧ call.waiting = true
deriving Decidable

structure LockSystem where
  server : LockServer
  clients : ℕ → LockClient
  calls : List HandleCall

/-- How a request ends that a connection may cut short. -/
inductive Ending
  | done
  /-- carried out, and the answer is lost -/
  | unanswered
  | unserved
deriving DecidableEq

inductive LockEvent
  /-- dial and attach; the handles are visited in this order -/
  | dial (client : ℕ) (order : List ℕ) (attached : Bool)
  | visit (client : ℕ) (ending : Ending)
  | replay (client : ℕ) (ending : Ending)
  | swap (client : ℕ)
  | lose (client : ℕ)
  | openFile (client : ℕ) (path : RelPath) (flags : OpenFlags) (ending : Ending)
  | call (client : ℕ) (op : MirrorOp) (fh : ℕ)
  | send (call : HandleCall)
  | arrive (call : HandleCall)
  | serve (call : HandleCall)
  | deliver (call : HandleCall)
  | finish (call : HandleCall)
  | giveUp (call : HandleCall)
  | disconnect (session : ℕ)
  | forget (session : ℕ)

namespace LockSystem

/-- No client has connected yet. -/
def init : LockSystem := ⟨.init, fun _ => ⟨.down, ∅⟩, []⟩

def link (s : LockSystem) (client : ℕ) : MirrorLink := (s.clients client).link

def session (s : LockSystem) (client : ℕ) : Option ℕ := (s.link client).session

def file (s : LockSystem) (client fh : ℕ) : Option MirroredState :=
    (s.clients client).files.lookup fh

/-! ## What an event asks of the server -/

/-- The handle that a pass visits next. -/
def visited (s : LockSystem) (client : ℕ) : Option (Pass × ℕ × List ℕ) :=
  match s.link client with
  | .dialling pass =>
    match pass.replay, pass.todo with
    | none, fh :: rest => some (pass, fh, rest)
    | _, _ => none
  | _ => none

/-- The lock that a pass is asking for. -/
def replayed (s : LockSystem) (client : ℕ) : Option (Pass × Replay) :=
  match s.link client with
  | .dialling pass => pass.replay.map fun r => (pass, r)
  | _ => none

/-- The steps of the server in an event. -/
def serverSteps (s : LockSystem) : LockEvent → List LockStep
  | .dial _ _ _ => [.connect]
  | .visit client ending =>
    match s.visited client with
    | none => []
    | some (pass, fh, _) =>
      match s.file client fh with
      | none => []
      | some file => if ending = .unserved then [] else [.openFile pass.session file.path]
  | .replay client ending =>
    match s.replayed client with
    | none => []
    | some (pass, r) =>
      if ending = .unserved then []
      else if (s.server.handles pass.session r.number).isSome then
        [.lockLookup pass.session r.number r.kind false, .lockAttempt s.server.nextTask]
      else [.lockLookup pass.session r.number r.kind false]
  | .openFile client path _ ending =>
    match s.link client with
    | .up session => if ending = .unserved then [] else [.openFile session path]
    | _ => []
  | .arrive call =>
    match call.phase, call.op with
    | .travelling session, .lock kind wait => [.lockLookup session call.number kind wait]
    | .travelling session, .unlock => [.unlockLookup session call.number]
    | .travelling session, .release => [.releaseHandle session call.number]
    | _, _ => []
  | .serve call =>
    match call.phase with
    | .locking _ _ task _ => [.lockAttempt task]
    | .unlocking session path => [.unlockRun session call.number path]
    | .releasing session path => [.releaseUnlock session call.number path]
    | _ => []
  | .disconnect session => [.freeLocks session true]
  | .forget session => [.freeHandles session true]
  | _ => []

/-! ## What it does to the clients -/

def setClient (s : LockSystem) (client : ℕ) (c : LockClient) : LockSystem :=
  { s with clients := Function.update s.clients client c }

def setLink (s : LockSystem) (client : ℕ) (link : MirrorLink) : LockSystem :=
  s.setClient client ⟨link, (s.clients client).files⟩

def setFile (s : LockSystem) (client fh : ℕ) (file : MirroredState) : LockSystem :=
  s.setClient client ⟨s.link client, (s.clients client).files.insert fh file⟩

def eraseFile (s : LockSystem) (client fh : ℕ) : LockSystem :=
  s.setClient client ⟨s.link client, (s.clients client).files.erase fh⟩

/-- A call moves on. -/
def replaceCall (s : LockSystem) (call call' : HandleCall) : LockSystem :=
  { s with calls := call' :: s.calls.erase call }

/-- A call returns. -/
def endCall (s : LockSystem) (call : HandleCall) : LockSystem :=
  { s with calls := s.calls.erase call }

def poison (s : LockSystem) (client fh : ℕ) : LockSystem :=
  match s.file client fh with
  | none => s
  | some file => s.setFile client fh { file with poisoned := true }

/-- The server grants this lock. -/
def grants (s : LockSystem) (session number : ℕ) (path : RelPath) (kind : LockKind) : Bool :=
  compatible (dropHandle (s.server.locks.holders path) session number) kind

/-- One handle of the supervisor's loop, up to its lock. -/
def runVisit (s : LockSystem) (client : ℕ) (ending : Ending) : Option LockSystem :=
  match s.visited client with
  | none => none
  | some (pass, fh, rest) =>
    match s.file client fh with
    | none => some (s.setLink client (.dialling { pass with todo := rest }))
    | some file =>
      let number := s.server.nextFh pass.session
      if ending = .done then
        some ((s.setFile client fh { file with serverFh := number, issuer := pass.session }).setLink
          client (.dialling ⟨pass.session, rest, file.lock.map fun kind => ⟨fh, number, kind, 4⟩⟩))
      else
        let s := if file.lock.isSome then s.poison client fh else s
        some (s.setLink client (.dialling { pass with todo := rest }))

/-- One try of `replay_lock`. -/
def runReplay (s : LockSystem) (client : ℕ) (ending : Ending) : Option LockSystem :=
  match s.replayed client with
  | none => none
  | some (pass, r) =>
    let lost := (s.poison client r.fh).setLink client (.dialling { pass with replay := none })
    match s.server.handles pass.session r.number with
    | none => some lost
    | some path =>
      if ending ≠ .done then some lost
      else if s.grants pass.session r.number path r.kind then
        some (s.setLink client (.dialling { pass with replay := none }))
      else if r.tries ≤ 1 then some lost
      else some (s.setLink client
        (.dialling { pass with replay := some { r with tries := r.tries - 1 } }))

/-- The handle is being visited, and its entry locked. -/
def visiting (s : LockSystem) (client fh : ℕ) : Bool :=
  (s.replayed client).any fun r => decide (r.2.fh = fh)

/-- The beginning of `lock`, `unlock` and `release`. -/
def beginCall (s : LockSystem) (client : ℕ) (op : MirrorOp) (fh : ℕ) : Option LockSystem :=
  let file := s.file client fh
  let call : HandleCall :=
    { client, fh, op
      number := file.elim fh fun f => f.serverFh
      issuer := file.map fun f => f.issuer
      waiting := true
      phase := .prepared }
  match op with
  | .lock _ _ =>
    if file.any fun f => f.poisoned then some s else some { s with calls := call :: s.calls }
  | .unlock => some { s with calls := call :: s.calls }
  | .release =>
    if s.visiting client fh then none
    else some { s.eraseFile client fh with calls := call :: s.calls }

def sendCall (s : LockSystem) (call : HandleCall) : Option LockSystem :=
  match call.phase, s.link call.client with
  | .prepared, .up session => some (s.replaceCall call { call with phase := .travelling session })
  | .prepared, _ => some (s.endCall call)
  | _, _ => none

/-- What the lookup of the handle leads to. -/
def arrival (s : LockSystem) (call : HandleCall) (session : ℕ) : CallPhase :=
  match call.op, s.server.handles session call.number with
  | .lock _ _, some path => .locking session path s.server.nextTask false
  | .unlock, some path => .unlocking session path
  | .release, some path => .releasing session path
  | .release, none => .answered session true
  | _, none => .answered session false

def arriveCall (s : LockSystem) (call : HandleCall) : Option LockSystem :=
  match call.phase with
  | .travelling session => some (s.replaceCall call { call with phase := s.arrival call session })
  | _ => none

def serveCall (s : LockSystem) (call : HandleCall) : Option LockSystem :=
  match call.phase, call.op with
  | .locking session path task _, .lock kind wait =>
    let phase := if s.grants session call.number path kind then CallPhase.answered session true
      else if wait then .locking session path task true else .answered session false
    some (s.replaceCall call { call with phase })
  | .unlocking session _, .unlock =>
    some (s.replaceCall call { call with phase := .answered session true })
  | .releasing session _, .release =>
    some (s.replaceCall call { call with phase := .answered session true })
  | _, _ => none

/-- The reader hands the answer over, if somebody waits for it. -/
def deliverCall (s : LockSystem) (call : HandleCall) : Option LockSystem :=
  match call.phase with
  | .answered _ ok =>
    if call.waiting then some (s.replaceCall call { call with phase := .received ok })
    else some (s.endCall call)
  | _ => none

/-- The end of `lock`, `unlock` and `release`. -/
def finishCall (s : LockSystem) (call : HandleCall) : Option LockSystem :=
  match call.phase with
  | .received ok =>
    match s.file call.client call.fh with
    | some file =>
      if ok && decide (call.op ≠ .release) then
        some ((s.endCall call).setFile call.client call.fh
          { file with lock := call.op.mirror })
      else some (s.endCall call)
    | none => some (s.endCall call)
  | _ => none

/-- The calls after a client has lost its connection. -/
def abandon (client : ℕ) (call : HandleCall) : HandleCall :=
  if call.client = client ∧ call.phase.session.isSome then { call with waiting := false } else call

/-- What an event does to the clients and their calls. -/
def clientStep (s : LockSystem) : LockEvent → Option LockSystem
  | .dial client order attached =>
    if s.link client = .down ∧ order.Perm (s.clients client).files.keys then
      if attached then some (s.setLink client (.dialling ⟨s.server.nextSession, order, none⟩))
      else some s
    else none
  | .visit client ending => s.runVisit client ending
  | .replay client ending => s.runReplay client ending
  | .swap client =>
    match s.link client with
    | .dialling pass =>
      if pass.todo = [] ∧ pass.replay = none then some (s.setLink client (.up pass.session))
      else none
    | _ => none
  | .lose client =>
    match s.link client with
    | .up _ => some { s.setLink client .down with calls := s.calls.map (abandon client) }
    | _ => none
  | .openFile client path flags ending =>
    match s.link client with
    | .up session =>
      let number := s.server.nextFh session
      if ending = .done then
        some (s.setFile client number
          { path, flags, serverFh := number, lock := none, poisoned := false, issuer := session })
      else some s
    | _ => none
  | .call client op fh => s.beginCall client op fh
  | .send call => if call ∈ s.calls then s.sendCall call else none
  | .arrive call => if call ∈ s.calls then s.arriveCall call else none
  | .serve call => if call ∈ s.calls then s.serveCall call else none
  | .deliver call => if call ∈ s.calls then s.deliverCall call else none
  | .finish call => if call ∈ s.calls then s.finishCall call else none
  | .giveUp call =>
    if call ∈ s.calls ∧ call.waiting = true ∧ call.phase.session.isSome then
      some (s.replaceCall call { call with waiting := false })
    else none
  | .disconnect _ => some s
  | .forget _ => some s

/-- An event: the server's part, and the clients'. -/
def step (s : LockSystem) (e : LockEvent) : Option LockSystem :=
  match s.clientStep e, exec LockServer.step s.server (s.serverSteps e) with
  | some s', some server => some { s' with server }
  | _, _ => none

/-! ## What is asked -/

/-- Both ends take the connection to be open. -/
def Live (s : LockSystem) (client session : ℕ) : Prop :=
  s.link client = .up session ∧ ¬ s.server.Dead session

/-- **What an unpoisoned handle of a client believes to hold, the server holds for it**, while the
connection lives and no lock request of the client is under way. -/
def MirrorSound (s : LockSystem) (client : ℕ) : Prop :=
  ∀ session, s.Live client session → (∀ call ∈ s.calls, ∀ fh, ¬ call.claims client fh) →
    ∀ fh file kind, s.file client fh = some file → file.poisoned = false → file.lock = some kind →
      (⟨session, file.serverFh, kind⟩ : Holder) ∈ s.server.locks.holders file.path

/-- A request carries the number that the handle has in the session it is sent to. -/
def sendOk (s : LockSystem) (call : HandleCall) : MirrorLink → Prop
  | .up session => call.issuer = some session ∧
      (call.op ≠ .release → ∀ file ∈ s.file call.client call.fh,
        file.issuer = session ∧ file.serverFh = call.number)
  | _ => True

/-- A request that is refused comes by a handle whose mirror is empty. -/
def serveOk (s : LockSystem) (call : HandleCall) : CallPhase → MirrorOp → Prop
  | .locking session path _ _, .lock kind false =>
    s.grants session call.number path kind = false →
      ∀ file ∈ s.file call.client call.fh, file.issuer = session → file.lock = none
  | _, _ => True

/-- **The condition on an event.**  Calls on one handle come one after the other.  What is sent is
the number that the handle has in the session it is sent to.  A request that is refused comes by a
handle whose mirror is empty.  No answer is lost while the connection lives, and none that has come
in is pending on a handle that the supervisor visits. -/
def mirrorOk (s : LockSystem) : LockEvent → Prop
  | .call client op fh => op ≠ .release → ∀ call ∈ s.calls, ¬ call.claims client fh
  | .openFile client _ _ _ => ∀ session ∈ s.session client,
      ∀ call ∈ s.calls, ¬ call.claims client (s.server.nextFh session)
  | .send call => s.sendOk call (s.link call.client)
  | .serve call => s.serveOk call call.phase call.op
  | .visit client _ => ∀ v ∈ s.visited client,
      ∀ call ∈ s.calls, call.claims client v.2.1 → call.phase = .prepared
  | .giveUp call => call.op = .release ∨ ∀ session ∈ call.phase.session, s.server.Dead session
  | _ => True

instance (s : LockSystem) (call : HandleCall) : ∀ link, Decidable (s.sendOk call link)
  | .up _ => inferInstanceAs (Decidable (_ ∧ (_ → ∀ file ∈ s.file call.client call.fh, _)))
  | .down | .dialling _ => inferInstanceAs (Decidable True)

instance (s : LockSystem) (call : HandleCall) : ∀ phase op, Decidable (s.serveOk call phase op)
  | .locking _ _ _ _, .lock _ false =>
    inferInstanceAs (Decidable (_ → ∀ file ∈ s.file call.client call.fh, _))
  | .locking _ _ _ _, .lock _ true | .locking _ _ _ _, .unlock | .locking _ _ _ _, .release
  | .prepared, _ | .travelling _, _ | .unlocking _ _, _ | .releasing _ _, _ | .answered _ _, _
  | .received _, _ => inferInstanceAs (Decidable True)

instance (s : LockSystem) : ∀ e, Decidable (s.mirrorOk e)
  | .call _ op _ => inferInstanceAs (Decidable (op ≠ .release → ∀ call ∈ s.calls, _))
  | .openFile client _ _ _ => inferInstanceAs (Decidable (∀ session ∈ s.session client, _))
  | .send call => inferInstanceAs (Decidable (s.sendOk call _))
  | .serve call => inferInstanceAs (Decidable (s.serveOk call _ _))
  | .visit client _ => inferInstanceAs (Decidable (∀ v ∈ s.visited client, _))
  | .giveUp call => inferInstanceAs (Decidable (_ ∨ ∀ session ∈ call.phase.session, _))
  | .dial _ _ _ | .replay _ _ | .swap _ | .lose _ | .arrive _ | .deliver _ | .finish _
  | .disconnect _ | .forget _ => inferInstanceAs (Decidable True)

end LockSystem

end AlloyFs
