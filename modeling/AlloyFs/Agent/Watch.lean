import AlloyFs.Proto.Messages

/-!
# The event hub

Each export has an `EventHub`.  A batch from the coalescer is numbered, remembered
in a ring of bounded length and fanned out to the live subscribers; a subscriber
that comes back asks the ring for what it missed.  A session never hears its own
writes: the hub tags an event with the session that touched its path a moment ago,
and the forwarding task strips the events with its own tag.
-/

namespace AlloyFs

/-- How many events the ring remembers. -/
def EVENT_LOG_CAP : ℕ := 8192

/-- How long a session owns a path after writing it, in nanoseconds. -/
def ORIGIN_TTL : ℕ := 2000000000

/-- How many entries one page of a listing has. -/
def READDIR_PAGE : ℕ := 1024

/-- The event state of one export: the last sequence number, the ring of recent
events, and who touched which path when. -/
structure EventHub where
  seq : ℕ
  log : List FsEvent
  logCap : ℕ
  recentLocal : List (RelPath × ℕ × ℕ)

namespace EventHub

def withCapacity (logCap : ℕ) : EventHub := ⟨0, [], logCap, []⟩

def new : EventHub := withCapacity EVENT_LOG_CAP

/-- A session just touched `path`. -/
def noteLocalWrite (hub : EventHub) (now : ℕ) (path : RelPath) (session : ℕ) : EventHub :=
  { hub with recentLocal := (path, session, now) :: hub.recentLocal }

/-- The session whose echo an event on `path` is, if one touched it recently. -/
def originOf (hub : EventHub) (now : ℕ) (path : RelPath) : Option ℕ :=
  match hub.recentLocal.lookup path with
  | some (session, touched) => if now - touched < ORIGIN_TTL then some session else none
  | none => none

/-- Number one event and remember it, dropping the oldest of a full ring. -/
def publishOne (hub : EventHub) (now : ℕ) (item : RelPath × EventKind) : EventHub × FsEvent :=
  let event : FsEvent := ⟨hub.seq + 1, item.2, item.1, none, hub.originOf now item.1⟩
  let log := if hub.log.length = hub.logCap then hub.log.tail else hub.log
  ({ hub with seq := hub.seq + 1, log := log ++ [event] }, event)

/-- Number and remember a batch; what is fanned out is the second component. -/
def publish (hub : EventHub) (now : ℕ) : List (RelPath × EventKind) → EventHub × List FsEvent
  | [] => (hub, [])
  | item :: raw =>
    let one := hub.publishOne now item
    let rest := publish one.1 now raw
    (rest.1, one.2 :: rest.2)

/-- The catch-up batch of a subscriber that has seen everything up to `since`. -/
def subscribe (hub : EventHub) (since : Option ℕ) : Except ErrorCode (List FsEvent) :=
  match since with
  | none => .ok []
  | some since =>
    match hub.log.head? with
    | some head =>
      if since + 1 < head.seq then .error .tooOld
      else .ok (hub.log.filter fun e => decide (since < e.seq))
    | none => .ok []

/-- What happens to a hub from outside. -/
inductive Input
  | note (now : ℕ) (path : RelPath) (session : ℕ)
  | batch (now : ℕ) (raw : List (RelPath × EventKind))

def apply (hub : EventHub) : Input → EventHub
  | .note now path session => hub.noteLocalWrite now path session
  | .batch now raw => (hub.publish now raw).1

/-- A hub after a history of inputs. -/
def after (inputs : List Input) : EventHub := inputs.foldl apply new

end EventHub

/-- A subscriber's own writes are taken out of a batch. -/
def strip (session : ℕ) (batch : List FsEvent) : List FsEvent :=
  batch.filter fun e => decide (e.origin ≠ some session)

/-- What a subscriber that lagged behind is told. -/
def resync : List FsEvent := [⟨0, .resyncRequired, ⟨[]⟩, none, none⟩]

/-- One page of a sorted listing, and where the next one starts. -/
def readdirPage (entries : List DirEntry) (cursor : ℕ) : Response :=
  let page := (entries.drop cursor).take READDIR_PAGE
  .dir page (if cursor + page.length < entries.length then some (cursor + page.length) else none)

end AlloyFs
