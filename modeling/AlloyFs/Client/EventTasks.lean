import AlloyFs.Lib.Fair
import Mathlib.Logic.Function.Basic

/-!
# The tasks behind the event stream

A mount receives the events of the server by way of five tasks.  Each connection has a reader, which
tears the connection down when the stream ends, a writer, and a heartbeat, which pings the server
every ten seconds.  The supervisor waits for the current connection to end, dials until it has
another, attaches and opens the handles again, puts the new connection in place and counts the
epoch.  The pump reads the events of one connection until all senders of its channel are gone, waits
for the epoch to move past the one it has noted, and subscribes on the connection there is then.

One of the senders is in the connection, so the pump does not see its end as long as anyone refers
to it.  The heartbeat does, while it waits for the answer to a ping: the reader drops the pings it
finds when the stream ends, but a ping that is sent after that is never answered.  And the pump
notes the epoch after it has subscribed, so it misses the change of an epoch in between.

This module models the tasks with a clock and their references.
-/

namespace AlloyFs

/-- The reader of a connection: it marks the connection closed, and then drops who waits for an
answer. -/
inductive Reader
  | reading
  | closing
  | ended
deriving DecidableEq

/-- The heartbeat: between two pings, waiting for an answer, or over. -/
inductive Heartbeat
  | idle (due : ℕ)
  | pinging (due : ℕ)
  | over
deriving DecidableEq

/-- A connection. -/
structure Mux where
  reader : Reader
  /-- the writer takes frames -/
  writer : Bool
  beat : Heartbeat
  /-- callers that wait for an answer, each with a reference -/
  callers : ℕ
deriving DecidableEq

inductive Supervisor
  | watching (conn : ℕ)
  | dialling (delay wake : ℕ)
  | attaching (conn : ℕ)
  | reopening (conn left : ℕ)
  /-- the new connection is in place, and the epoch not yet counted -/
  | swapped (conn : ℕ)
deriving DecidableEq

inductive EventPump
  | receiving (conn epoch : ℕ)
  /-- all senders are gone -/
  | lost (epoch : ℕ)
  /-- has the connection, and a receiver of its events -/
  | resuming (conn : ℕ)
  | awaiting (conn : ℕ)
  /-- is about to note the epoch -/
  | capturing (conn : ℕ)
deriving DecidableEq

/-- The tasks, and the connections on which the pump has sent `Subscribe`. -/
structure EventTasks where
  now : ℕ
  conns : ℕ → Mux
  next : ℕ
  current : ℕ
  epoch : ℕ
  supervisor : Supervisor
  pump : EventPump
  subscribed : List ℕ

inductive EventStep
  | advance (millis : ℕ)
  /-- the stream of a connection ends -/
  | eof (conn : ℕ)
  | clear (conn : ℕ)
  | writeFails (conn : ℕ)
  | beat (conn : ℕ)
  | pong (conn : ℕ)
  /-- a caller takes the current connection -/
  | begin
  | answer (conn : ℕ)
  | fail (conn : ℕ)
  | notice
  | dial (ok : Bool)
  /-- the number of handles to open again -/
  | attach (ok : Bool) (handles : ℕ)
  | reopen
  | swap
  | bump
  | drained
  | wake
  | subscribe
  | respond
  | capture
deriving DecidableEq

/-- Those that the scheduler has to run. -/
inductive EventTask
  | reader (conn : ℕ)
  | callers (conn : ℕ)
  | heartbeat (conn : ℕ)
  | supervisor
  | pump

/-- The steps of a task.  What depends on the network or on the server is not among them. -/
def EventTask.runs : EventTask → EventStep → Prop
  | reader conn, l => l = .clear conn
  | callers conn, l => l = .fail conn
  | heartbeat conn, l => l = .beat conn
  | supervisor, l => l ∈ [EventStep.notice, .reopen, .swap, .bump]
  | pump, l => l ∈ [EventStep.drained, .wake, .subscribe, .respond, .capture]

/-- The supervisor refers to the connection. -/
def Supervisor.holds (sup : Supervisor) (conn : ℕ) : Bool :=
  match sup with
  | .watching c => decide (c = conn)
  | .dialling _ _ => false
  | .attaching c => decide (c = conn)
  | .reopening c _ => decide (c = conn)
  | .swapped c => decide (c = conn)

/-- The pump refers to the connection, and not only to its events. -/
def EventPump.holds (pump : EventPump) (conn : ℕ) : Bool :=
  match pump with
  | .resuming c => decide (c = conn)
  | .awaiting c => decide (c = conn)
  | _ => false

def Heartbeat.holds : Heartbeat → Bool
  | .pinging _ => true
  | _ => false

/-- The heartbeat after the reader has dropped the pings. -/
def Heartbeat.dropped : Heartbeat → Heartbeat
  | .pinging _ => .over
  | b => b

/-- The connection that the pump has read and whose epoch it has yet to note. -/
def EventPump.between : EventPump → Option ℕ
  | .resuming k => some k
  | .awaiting k => some k
  | .capturing k => some k
  | _ => none

namespace EventTasks

/-- A connection just made. -/
def fresh (now : ℕ) : Mux := ⟨.reading, true, .idle now, 0⟩

/-- There is no such connection. -/
def absent : Mux := ⟨.ended, false, .over, 0⟩

/-- The pump has subscribed on the first connection. -/
def init : EventTasks where
  now := 0
  conns := Function.update (fun _ => absent) 0 (fresh 0)
  next := 1
  current := 0
  epoch := 0
  supervisor := .watching 0
  pump := .capturing 0
  subscribed := [0]

def setConn (s : EventTasks) (conn : ℕ) (mux : Mux) : EventTasks :=
  { s with conns := Function.update s.conns conn mux }

/-- Somebody refers to the connection. -/
def referenced (s : EventTasks) (conn : ℕ) : Bool :=
  decide (s.current = conn) || s.supervisor.holds conn || s.pump.holds conn ||
    (s.conns conn).beat.holds || decide (0 < (s.conns conn).callers)

/-- A sender of the events of the connection is left: in the reader, or in the connection. -/
def senders (s : EventTasks) (conn : ℕ) : Bool :=
  decide ((s.conns conn).reader ≠ .ended) || s.referenced conn

/-- A tick of the heartbeat. -/
def tick (s : EventTasks) (conn : ℕ) : Heartbeat :=
  if s.referenced conn && (s.conns conn).writer then .pinging (s.now + 10000) else .over

def step (s : EventTasks) : EventStep → Option EventTasks
  | .advance millis => some { s with now := s.now + millis }
  | .eof k =>
    let c := s.conns k
    if c.reader = .reading then some (s.setConn k { c with reader := .closing }) else none
  | .clear k =>
    let c := s.conns k
    if c.reader = .closing then
      some (s.setConn k { c with reader := .ended, beat := c.beat.dropped })
    else none
  | .writeFails k => some (s.setConn k { s.conns k with writer := false })
  | .beat k =>
    match (s.conns k).beat with
    | .idle due =>
      if due ≤ s.now then some (s.setConn k { s.conns k with beat := s.tick k }) else none
    | _ => none
  | .pong k =>
    match (s.conns k).reader, (s.conns k).beat with
    | .reading, .pinging due => some (s.setConn k { s.conns k with beat := .idle due })
    | _, _ => none
  | .begin =>
    let c := s.conns s.current
    some (s.setConn s.current { c with callers := c.callers + 1 })
  | .answer k =>
    let c := s.conns k
    if c.reader = .reading ∧ 0 < c.callers then
      some (s.setConn k { c with callers := c.callers - 1 })
    else none
  | .fail k =>
    let c := s.conns k
    if c.reader = .ended ∧ 0 < c.callers then
      some (s.setConn k { c with callers := c.callers - 1 })
    else none
  | .notice =>
    match s.supervisor with
    | .watching k =>
      if (s.conns k).reader = .reading then none
      else some { s with supervisor := .dialling 500 s.now }
    | _ => none
  | .dial ok =>
    match s.supervisor with
    | .dialling delay wake =>
      if wake ≤ s.now then
        if ok then
          some { s.setConn s.next (fresh s.now) with
            next := s.next + 1, supervisor := .attaching s.next }
        else some { s with supervisor := .dialling (min (delay * 2) 15000) (s.now + delay) }
      else none
    | _ => none
  | .attach ok handles =>
    match s.supervisor with
    | .attaching k =>
      some { s with supervisor := if ok then .reopening k handles else .watching s.current }
    | _ => none
  | .reopen =>
    match s.supervisor with
    | .reopening k (left + 1) => some { s with supervisor := .reopening k left }
    | _ => none
  | .swap =>
    match s.supervisor with
    | .reopening k 0 => some { s with current := k, supervisor := .swapped k }
    | _ => none
  | .bump =>
    match s.supervisor with
    | .swapped _ => some { s with epoch := s.epoch + 1, supervisor := .watching s.current }
    | _ => none
  | .drained =>
    match s.pump with
    | .receiving k epoch => if s.senders k then none else some { s with pump := .lost epoch }
    | _ => none
  | .wake =>
    match s.pump with
    | .lost epoch => if epoch < s.epoch then some { s with pump := .resuming s.current } else none
    | _ => none
  | .subscribe =>
    match s.pump with
    | .resuming k =>
      if (s.conns k).reader = .reading then
        some { s with pump := .awaiting k, subscribed := k :: s.subscribed }
      else some { s with pump := .capturing k }
    | _ => none
  | .respond =>
    match s.pump with
    | .awaiting k => some { s with pump := .capturing k }
    | _ => none
  | .capture =>
    match s.pump with
    | .capturing k => some { s with pump := .receiving k s.epoch }
    | _ => none

/-- **The condition.**  No ping is begun on a connection whose reader has ended, while its writer
still takes frames; and no epoch is counted while the pump is between reading an earlier connection
and noting the epoch. -/
def pumpOk (s : EventTasks) : EventStep → Prop
  | .beat k => (s.conns k).reader = .ended → s.referenced k = true → (s.conns k).writer = false
  | .bump => ∀ k ∈ s.pump.between, k = s.current
  | _ => True

end EventTasks

end AlloyFs
