import AlloyFs.Agent.Subscribers
import AlloyFs.Lib.Unbroken

/-!
# The event pump of the sync engine

The engine subscribes when it starts, and its pump does so again on every connection that follows.
It asks for the events after the highest number it has applied, or, when it has not applied any, for
live events only.  A number that is above the last one of the agent tells it that the agent was
started again, and then it reconciles; so it does when the events it asks for have left the ring,
when its receiver has missed some, and when the agent says that it has.

The numbers of an agent start again when it does.  An agent that has counted past the engine's
number looks like the one before it, and what it published up to that number is never asked for.
Nor is what was published while an engine without a number was not connected.

This module models the pump, the executor as far as it concerns the numbers, the connections and the
agents.
-/

namespace AlloyFs.Sync

/-- A connection of the engine. -/
structure SyncLink where
  /-- the agent at its other end: how often the agent was started before -/
  agent : ℕ
  session : ℕ
  up : Bool
  /-- a subscription was served on it -/
  subscribed : Bool
  /-- the number that the engine asked for came from this agent -/
  own : Bool
  /-- the pump has heard the answer -/
  settled : Bool
  /-- events on their way to the pump -/
  stream : List FsEvent

/-- The events of this connection count for the number of the engine: it asked for a number of the
same agent, or has heard the answer. -/
def SyncLink.sound (link : SyncLink) : Bool := link.own || link.settled

inductive SyncPump
  | off
  | receiving (conn epoch : ℕ)
  /-- for an epoch after this one -/
  | waiting (epoch : ℕ)
  | resuming (conn : ℕ)
  | asked (conn : ℕ) (since : Option ℕ)
  /-- the agent has made the subscription -/
  | served (conn : ℕ) (since : Option ℕ)
  /-- the answer is on its way -/
  | answered (conn : ℕ) (since : Option ℕ) (last : ℕ)
  /-- was told `TooOld`, and asks for live events -/
  | expired (conn : ℕ)
  /-- is about to reconcile -/
  | refreshed (conn : ℕ)
  /-- the engine did not start -/
  | over

/-- What the executor has to do; an event with the agent it came from, if it counts. -/
inductive SyncOp
  | remote (source : Option ℕ) (ev : FsEvent)
  | reconcile

/-- The agent, the connections and the engine. -/
structure SyncRun where
  agent : ℕ
  hub : EventHub
  links : ℕ → SyncLink
  /-- the connection in place, which is also the epoch -/
  current : ℕ
  pump : SyncPump
  started : Bool
  lastSeq : ℕ
  /-- the agent that `lastSeq` came from -/
  mark : Option ℕ
  queue : List SyncOp
  /-- what earlier agents published -/
  past : List (ℕ × FsEvent)
  /-- what this agent published -/
  history : List FsEvent
  /-- what was delivered to the executor -/
  delivered : List (ℕ × FsEvent)
  /-- what was published when the executor was last told to reconcile -/
  covered : List (ℕ × FsEvent)

inductive SyncStep
  | note (now : ℕ) (path : RelPath) (session : ℕ)
  | publish (now : ℕ) (raw : List (RelPath × EventKind))
  | restart
  /-- the forwarding task of the agent has missed some events -/
  | lag (conn start stop : ℕ)
  /-- a connection ends; this many events have arrived -/
  | cut (conn arrived : ℕ)
  | start (session : ℕ)
  | reconnect (session : ℕ)
  | recv (count : ℕ)
  /-- the receiver of the pump has missed some events -/
  | missed (count : ℕ)
  | closed
  | wake
  | ask
  | serve
  | reply
  | settle
  | fail
  | serveLive
  | skipLive
  | refresh
  | apply

namespace SyncRun

def absent : SyncLink := ⟨0, 0, false, false, false, false, []⟩

def init (cap lastSeq : ℕ) : SyncRun where
  agent := 0
  hub := .withCapacity cap
  links := fun _ => absent
  current := 0
  pump := .off
  started := false
  lastSeq := lastSeq
  mark := none
  queue := []
  past := []
  history := []
  delivered := []
  covered := []

/-- Everything that was published, with the agent that did. -/
def published (s : SyncRun) : List (ℕ × FsEvent) := s.past ++ s.history.map (s.agent, ·)

def setLink (s : SyncRun) (conn : ℕ) (link : SyncLink) : SyncRun :=
  { s with links := Function.update s.links conn link }

/-- `engine.enqueue(Op::Reconcile)` -/
def reconcile (s : SyncRun) : SyncRun :=
  { s with queue := s.queue ++ [.reconcile], covered := s.published }

/-- A connection just made. -/
def dialled (s : SyncRun) (session : ℕ) : SyncLink :=
    ⟨s.agent, session, true, false, false, false, []⟩

/-- The agent answers on this connection. -/
def talks (s : SyncRun) (conn : ℕ) : Bool :=
  (s.links conn).up && decide ((s.links conn).agent = s.agent)

/-- The forwarding task of a connection. -/
def push (s : SyncRun) (batch : List FsEvent) (conn : ℕ) : SyncLink :=
  let link := s.links conn
  if s.talks conn && link.subscribed then
    { link with stream := link.stream ++ strip link.session batch }
  else link

/-- A batch is numbered and fanned out. -/
def fanOut (s : SyncRun) (hub : EventHub) (batch : List FsEvent) : SyncRun :=
  { s with hub := hub, links := s.push batch, history := s.history ++ batch }

/-- The pump has its answer: from here on it receives. -/
def receive (s : SyncRun) (conn : ℕ) : SyncRun :=
  { s.setLink conn { s.links conn with settled := (s.links conn).subscribed } with
    pump := .receiving conn s.current, started := true }

/-- Where the events of a connection come from, if they count. -/
def source (link : SyncLink) : Option ℕ := if link.sound then some link.agent else none

/-- A connection without its first events. -/
def behead (link : SyncLink) (count : ℕ) : SyncLink :=
  { link with stream := link.stream.drop count }

/-- `engine.enqueue(Op::Remote(batch))`, with what the pump takes from its connection -/
def deliver (s : SyncRun) (conn count : ℕ) : SyncRun :=
  { s.setLink conn (behead (s.links conn) count) with
    queue := s.queue ++
      ((s.links conn).stream.take count).map (.remote (source (s.links conn)) ·)
    delivered := s.delivered ++
      ((s.links conn).stream.take count).map ((s.links conn).agent, ·) }

/-- One event is applied. -/
def applyEvent (s : SyncRun) (source : Option ℕ) (ev : FsEvent) : SyncRun :=
  let s := if ev.kind = .resyncRequired then s.reconcile else s
  { s with
    lastSeq := max s.lastSeq ev.seq
    mark := if s.lastSeq < ev.seq then source else s.mark }

variable (mine : ℕ → Bool)

def step (s : SyncRun) : SyncStep → Option SyncRun
  | .note now path session => some { s with hub := s.hub.noteLocalWrite now path session }
  | .publish now raw =>
    some (s.fanOut (s.hub.publish now raw).1 (s.hub.publish now raw).2)
  | .restart =>
    some { s with
      agent := s.agent + 1, hub := .withCapacity s.hub.logCap, past := s.published, history := [] }
  | .lag conn start stop =>
    if start < stop ∧ stop ≤ (s.links conn).stream.length then
      some (s.setLink conn { s.links conn with
        stream := (s.links conn).stream.take start ++ resync ++ (s.links conn).stream.drop stop })
    else none
  | .cut conn arrived =>
    some (s.setLink conn { s.links conn with
      up := false, stream := (s.links conn).stream.take arrived })
  | .start session =>
    match s.pump with
    | .off =>
      if mine session then some { s.setLink 0 (s.dialled session) with pump := .resuming 0 }
      else none
    | _ => none
  | .reconnect session =>
    if s.started = true ∧ (s.links s.current).up = false ∧ mine session = true then
      some { s.setLink (s.current + 1) (s.dialled session) with current := s.current + 1 }
    else none
  | .recv count =>
    match s.pump with
    | .receiving conn _ =>
      if count < (s.links conn).stream.length then some (s.deliver conn (count + 1)) else none
    | _ => none
  | .missed count =>
    match s.pump with
    | .receiving conn _ =>
      if count < (s.links conn).stream.length then
        some (s.setLink conn (behead (s.links conn) (count + 1))).reconcile
      else none
    | _ => none
  | .closed =>
    match s.pump with
    | .receiving conn epoch =>
      if (s.links conn).up = false ∧ (s.links conn).stream = [] then
        some { s with pump := .waiting epoch }
      else none
    | _ => none
  | .wake =>
    match s.pump with
    | .waiting epoch =>
      if epoch < s.current then some { s with pump := .resuming s.current } else none
    | _ => none
  | .ask =>
    match s.pump with
    | .resuming conn =>
      let link := s.links conn
      some { s.setLink conn { link with own := decide (s.mark = some link.agent) } with
        pump := .asked conn (if s.lastSeq = 0 then none else some s.lastSeq) }
    | _ => none
  | .serve =>
    match s.pump with
    | .asked conn since =>
      if s.talks conn then
        match s.hub.subscribe since with
        | .error _ => some { s with pump := .expired conn }
        | .ok catchup =>
          let link := s.links conn
          some { s.setLink conn { link with
              subscribed := true, stream := strip link.session catchup } with
            pump := .served conn since }
      else none
    | _ => none
  | .reply =>
    match s.pump with
    | .served conn since =>
      if s.talks conn then some { s with pump := .answered conn since s.hub.seq } else none
    | _ => none
  | .settle =>
    match s.pump with
    | .answered conn since last =>
      if s.started = true ∧ ∀ n ∈ since, n ≤ last then some (s.receive conn)
      else some (s.receive conn).reconcile
    | _ => none
  | .fail =>
    match s.pump with
    | .resuming conn | .asked conn _ | .served conn _ | .answered conn _ _ =>
      if s.started then some { s with pump := .receiving conn s.current }
      else some { s with pump := .over }
    | _ => none
  | .serveLive =>
    match s.pump with
    | .expired conn =>
      if s.talks conn then
        some { s.setLink conn { s.links conn with subscribed := true, own := false } with
          pump := .refreshed conn }
      else none
    | _ => none
  | .skipLive =>
    match s.pump with
    | .expired conn =>
      some { s with pump := if s.started then .refreshed conn else .over }
    | _ => none
  | .refresh =>
    match s.pump with
    | .refreshed conn => some (s.receive conn).reconcile
    | _ => none
  | .apply =>
    match s.queue with
    | .remote source ev :: queue => some ({ s with queue := queue }.applyEvent source ev)
    | .reconcile :: queue => some { s with queue := queue }
    | [] => none

/-- **The condition.**  When the agent answers a subscription after an outage, the number that the
engine has asked for came from the same agent, or is above all the agent's numbers. -/
def seqOk (s : SyncRun) : SyncStep → Prop
  | .reply =>
    match s.pump with
    | .served conn since =>
      s.started = true → (s.links conn).own = true ∨ ∃ n ∈ since, s.hub.seq < n
    | _ => True
  | _ => True

/-- The event was not caused by the engine. -/
def Foreign (e : FsEvent) : Prop := ∀ n ∈ e.origin, mine n = false
deriving Decidable

/-- The event was delivered, or the executor was told to reconcile after it was published. -/
def Done (s : SyncRun) (p : ℕ × FsEvent) : Prop := p ∈ s.delivered ∨ p ∈ s.covered

/-- The executor will find that it has to reconcile. -/
def WillReconcile (s : SyncRun) (conn : ℕ) : Prop :=
  (∃ source ev, .remote source ev ∈ s.queue ∧ ev.kind = .resyncRequired) ∨
    ∃ ev ∈ (s.links conn).stream, ev.kind = .resyncRequired

/-- The event is on its way to the pump, or word that something is missing. -/
def Underway (s : SyncRun) (conn : ℕ) (p : ℕ × FsEvent) : Prop :=
  (p.1 = s.agent ∧ p.2 ∈ (s.links conn).stream) ∨ s.WillReconcile conn

end SyncRun

end AlloyFs.Sync
