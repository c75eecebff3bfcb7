import AlloyFs.Lib.Transition
import Mathlib.Data.Int.Notation
import Mathlib.Data.Nat.Notation
import Mathlib.Logic.Function.Basic

/-!
# Requests of the kernel module

A file system operation makes a request, puts it on the list `pending` of the connection and sleeps.
The daemon takes it by a read, which moves it to `processing`, and answers it by a write, which
takes it off the list and wakes the caller.  A caller that is killed takes its request back if it is
still on a list.  An abort takes over both lists and fails whatever was on them.

Two references keep a request alive: the caller's and the queue's; a read has a third while it
copies.  Who owns the queue's reference is told by the list the request is linked in: whoever takes
it off drops the reference.

The abort walks the list it has taken over without the lock, and keeps a pointer to the next request
while it works on the current one.  Until it comes to them, these requests look linked to everybody
else.  A killed caller may take one of them off and free it, and a read whose copy has failed may
move one back to `pending`, where nobody will look for it any more.

Sections under the lock and single list operations are atomic; anything else may come between them.
-/

namespace AlloyFs.Kernel

open Function

/-- The heads of lists: two of the connection, and one on the stack of each abort. -/
inductive ListHead
  | pending | processing
  | dead (k : ℕ)
  deriving DecidableEq

/-- What a `next` pointer leads to. -/
inductive Node
  | req (r : ℕ)
  | head (h : ListHead)
  deriving DecidableEq

/-- Where the caller of `alloyfs_request` is. -/
inductive Caller
  | absent
  /-- the request is filled in, but not queued -/
  | made
  | waiting
  /-- the wait has ended by a signal -/
  | killed
  /-- the request was still linked, and is not any more -/
  | reclaimed
  /-- nothing is left but the caller's own reference -/
  | leaving
  | returned (ret : ℤ)
  deriving DecidableEq

structure Req where
  refs : ℕ
  freed : Bool
  unique : ℕ
  outMax : ℕ
  error : ℤ
  outLen : ℕ
  /-- how often `complete` was called -/
  completions : ℕ
  /-- how often the queue's reference was dropped -/
  drops : ℕ
  caller : Caller

/-- A call of `alloyfs_dev_read` that has taken a request. -/
inductive Read
  | copying (r : ℕ)
  /-- the copy has failed -/
  | failed (r : ℕ)
  | leaving (r : ℕ)
  | done

/-- A call of `alloyfs_dev_write` that has found its request. -/
inductive Write
  | holding (r : ℕ)
  | answered (r : ℕ)
  | done

/-- The loop of `alloyfs_conn_abort`: the current request, and the saved pointer. -/
inductive Stage
  | spliced
  | current (pos : ℕ) (next : Node)
  | unlinked (pos : ℕ) (next : Node)
  | failed (pos : ℕ) (next : Node)
  | dropped (next : Node)
  | returned

structure Abort where
  dead : List ℕ
  stage : Stage

/-- The connection and everything that works on it. -/
structure Conn where
  connected : Bool
  nextUnique : ℕ
  pending : List ℕ
  processing : List ℕ
  reqs : ℕ → Req
  made : ℕ
  reads : List Read
  writes : ℕ → Write
  nWrites : ℕ
  aborts : ℕ → Abort
  nAborts : ℕ
  /-- memory was used that is not a request, or not any more -/
  bad : Bool

inductive Step
  /-- `alloyfs_request`, up to the lock -/
  | call (outMax : ℕ)
  /-- its section under the lock -/
  | enqueue (r : ℕ)
  /-- the completion was signalled: take the result and return -/
  | wake (r : ℕ)
  /-- a fatal signal ends the wait -/
  | kill (r : ℕ)
  /-- the section under the lock after that -/
  | reclaim (r : ℕ)
  | dropQueue (r : ℕ)
  | leave (r : ℕ)
  /-- `alloyfs_dev_read`: the section that takes the first request -/
  | read
  | copied (i : ℕ) (ok : Bool)
  /-- the section after a copy that has failed -/
  | requeue (i : ℕ)
  | readPut (i : ℕ)
  /-- `alloyfs_dev_write`: the section that looks for the request -/
  | find (unique : ℕ)
  /-- take over the answer, and complete -/
  | answer (w : ℕ) (error : ℤ) (payload : ℕ) (faulty : Bool)
  | writePut (w : ℕ)
  /-- `alloyfs_conn_abort`: the section under the lock -/
  | abort
  /-- the loop begins -/
  | first (k : ℕ)
  /-- `list_del_init` -/
  | unlink (k : ℕ)
  /-- set the error, and complete -/
  | fail (k : ℕ)
  | abortPut (k : ℕ)
  /-- on to the saved pointer -/
  | advance (k : ℕ)

def EINTR : ℤ := 4

def EIO : ℤ := 5

def ECONNABORTED : ℤ := 103

namespace Req

/-- Memory that is not in use. -/
def blank : Req := ⟨0, false, 0, 0, 0, 0, 0, 0, .absent⟩

/-- `alloyfs_req_put`: the last reference frees. -/
def put (q : Req) : Req := { q with refs := q.refs - 1, freed := q.freed || decide (q.refs ≤ 1) }

/-- Drop the queue's reference. -/
def putQueue (q : Req) : Req := { q.put with drops := q.drops + 1 }

end Req

/-- The request a read has a reference to. -/
def Read.on (r : ℕ) : Read → Bool
  | .copying x | .failed x | .leaving x => x = r
  | .done => false

/-- The request in the hands of a write, and whether it is completed. -/
def Write.hand : Write → Option (ℕ × Bool)
  | .holding r => some (r, false)
  | .answered r => some (r, true)
  | .done => none

namespace Stage

/-- The request in the hands of an abort, and whether it is completed. -/
def hand : Stage → Option (ℕ × Bool)
  | .unlinked pos _ => some (pos, false)
  | .failed pos _ => some (pos, true)
  | _ => none

/-- The abort is about to work on this request: it is the current one and still linked, or the saved
pointer leads to it. -/
def eyes (r : ℕ) : Stage → Bool
  | .current pos next => decide (pos = r ∨ next = .req r)
  | .unlinked _ next | .failed _ next | .dropped next => decide (next = .req r)
  | _ => false

end Stage

/-- The first node of a list. -/
def firstNode (h : ListHead) : List ℕ → Node
  | [] => .head h
  | r :: _ => .req r

/-- The node that follows a member of a list. -/
def nodeAfter (h : ListHead) (l : List ℕ) (r : ℕ) : Node := firstNode h (l.drop (l.idxOf r + 1))

namespace Conn

/-- `alloyfs_dev_open` -/
def init : Conn where
  connected := true
  nextUnique := 0
  pending := []
  processing := []
  reqs := fun _ => .blank
  made := 0
  reads := []
  writes := fun _ => .done
  nWrites := 0
  aborts := fun _ => ⟨[], .returned⟩
  nAborts := 0
  bad := false

/-- Look at a request. -/
def use (s : Conn) (r : ℕ) : Conn := { s with bad := s.bad || (s.reqs r).freed }

/-- Change a request. -/
def modifyReq (s : Conn) (r : ℕ) (f : Req → Req) : Conn :=
  { s.use r with reqs := update s.reqs r (f (s.reqs r)) }

def setRead (s : Conn) (i : ℕ) (t : Read) : Conn := { s with reads := s.reads.set i t }

def setWrite (s : Conn) (w : ℕ) (t : Write) : Conn :=
  { s with writes := update s.writes w t }

def setStage (s : Conn) (k : ℕ) (stage : Stage) : Conn :=
  { s with aborts := update s.aborts k { s.aborts k with stage := stage } }

/-- The list of an abort that a request is linked in. -/
def deadList (s : Conn) (r : ℕ) : Option ℕ :=
  (List.range s.nAborts).find? fun k => decide (r ∈ (s.aborts k).dead)

/-- `!list_empty(&req->list)` -/
def linked (s : Conn) (r : ℕ) : Bool :=
  decide (r ∈ s.pending) || decide (r ∈ s.processing) || (s.deadList r).isSome

/-- `req->list.next`; a request that is not linked leads to itself. -/
def nextNode (s : Conn) (r : ℕ) : Node :=
  if r ∈ s.pending then nodeAfter .pending s.pending r
  else if r ∈ s.processing then nodeAfter .processing s.processing r
  else
    match s.deadList r with
    | some k => nodeAfter (.dead k) (s.aborts k).dead r
    | none => .req r

/-- `list_del_init(&req->list)`, whichever list it is. -/
def listDelInit (s : Conn) (r : ℕ) : Conn :=
  { s.use r with
    pending := s.pending.erase r
    processing := s.processing.erase r
    aborts := fun k => { s.aborts k with dead := (s.aborts k).dead.erase r } }

/-- The loop of an abort goes on with this node.  The head of another list does not end it. -/
def goTo (s : Conn) (k : ℕ) : Node → Conn
  | .head h =>
    { s.setStage k .returned with bad := s.bad || decide (h ≠ .dead k) }
  | .req r => (s.use r).setStage k (.current r (s.nextNode r))

def step (s : Conn) : Step → Option Conn
  | .call outMax =>
    some { s with
      reqs := update s.reqs s.made
        { Req.blank with refs := 1, outMax := outMax, caller := .made }
      made := s.made + 1 }
  | .enqueue r =>
    if (s.reqs r).caller = .made then
      if s.connected then
        some { s.modifyReq r fun q =>
            { q with unique := s.nextUnique + 1, refs := q.refs + 1, caller := .waiting } with
          nextUnique := s.nextUnique + 1
          pending := s.pending ++ [r] }
      else some (s.modifyReq r fun q => { q.put with caller := .returned (-ECONNABORTED) })
    else none
  | .wake r =>
    if (s.reqs r).caller = .waiting ∧ 0 < (s.reqs r).completions then
      some (s.modifyReq r fun q =>
        { q.put with caller := .returned (if q.error ≠ 0 then q.error else q.outLen) })
    else none
  | .kill r =>
    if (s.reqs r).caller = .waiting ∧ (s.reqs r).completions = 0 then
      some (s.modifyReq r fun q => { q with caller := .killed })
    else none
  | .reclaim r =>
    if (s.reqs r).caller = .killed then
      if s.linked r then
        some ((s.listDelInit r).modifyReq r fun q => { q with caller := .reclaimed })
      else some (s.modifyReq r fun q => { q with caller := .leaving })
    else none
  | .dropQueue r =>
    if (s.reqs r).caller = .reclaimed then
      some (s.modifyReq r fun q => { q.putQueue with caller := .leaving })
    else none
  | .leave r =>
    if (s.reqs r).caller = .leaving then
      some (s.modifyReq r fun q => { q.put with caller := .returned (-EINTR) })
    else none
  | .read =>
    match s.connected, s.pending with
    | true, r :: rest =>
      some { s.modifyReq r fun q => { q with refs := q.refs + 1 } with
        pending := rest
        processing := s.processing ++ [r]
        reads := s.reads ++ [.copying r] }
    | _, _ => none
  | .copied i ok =>
    match s.reads[i]? with
    | some (.copying r) => some ((s.use r).setRead i (if ok then .leaving r else .failed r))
    | _ => none
  | .requeue i =>
    match s.reads[i]? with
    | some (.failed r) =>
      if s.linked r then
        some { (s.listDelInit r).setRead i (.leaving r) with pending := r :: s.pending.erase r }
      else some ((s.use r).setRead i (.leaving r))
    | _ => none
  | .readPut i =>
    match s.reads[i]? with
    | some (.leaving r) => some ((s.modifyReq r Req.put).setRead i .done)
    | _ => none
  | .find unique =>
    let s := { s with bad := s.bad || s.processing.any fun r => (s.reqs r).freed }
    match s.processing.find? fun r => decide ((s.reqs r).unique = unique) with
    | some r =>
      some { (s.listDelInit r).setWrite s.nWrites (.holding r) with nWrites := s.nWrites + 1 }
    | none => some s
  | .answer w error payload faulty =>
    match s.writes w with
    | .holding r =>
      some ((s.modifyReq r fun q =>
        -- an answer that is too long is cut; one that cannot be read is an error
        let n := min payload q.outMax
        if n ≠ 0 ∧ faulty then { q with error := - EIO, completions := q.completions + 1 }
        else { q with error := error, outLen := n, completions := q.completions + 1 }).setWrite w
          (.answered r))
    | _ => none
  | .writePut w =>
    match s.writes w with
    | .answered r => some ((s.modifyReq r Req.putQueue).setWrite w .done)
    | _ => none
  | .abort =>
    some { s with
      connected := false
      pending := []
      processing := []
      aborts := update s.aborts s.nAborts ⟨s.processing ++ s.pending, .spliced⟩
      nAborts := s.nAborts + 1 }
  | .first k =>
    match (s.aborts k).stage with
    | .spliced => some (s.goTo k (firstNode (.dead k) (s.aborts k).dead))
    | _ => none
  | .unlink k =>
    match (s.aborts k).stage with
    | .current pos next => some ((s.listDelInit pos).setStage k (.unlinked pos next))
    | _ => none
  | .fail k =>
    match (s.aborts k).stage with
    | .unlinked pos next =>
      some ((s.modifyReq pos fun q =>
        { q with error := -ECONNABORTED, completions := q.completions + 1 }).setStage k
          (.failed pos next))
    | _ => none
  | .abortPut k =>
    match (s.aborts k).stage with
    | .failed pos next => some ((s.modifyReq pos Req.putQueue).setStage k (.dropped next))
    | _ => none
  | .advance k =>
    match (s.aborts k).stage with
    | .dropped next => some (s.goTo k next)
    | _ => none

end Conn

/-- Who owns the queue's reference of a request. -/
inductive Holder
  | pending | processing
  | dead (k : ℕ)
  | abort (k : ℕ) (completed : Bool)
  | writer (w : ℕ) (completed : Bool)
  | caller
  deriving DecidableEq

namespace Conn

/-- The list the request is linked in, or the task that has taken it off. -/
def holds (s : Conn) : Holder → ℕ → Prop
  | .pending, r => r ∈ s.pending
  | .processing, r => r ∈ s.processing
  | .dead k, r => r ∈ (s.aborts k).dead
  | .abort k completed, r => (s.aborts k).stage.hand = some (r, completed)
  | .writer w completed, r => (s.writes w).hand = some (r, completed)
  | .caller, r => (s.reqs r).caller = .reclaimed

/-- A task that has not ended is going to complete the request. -/
def Finishing (s : Conn) (r : ℕ) : Prop :=
  (∃ w, s.writes w = .holding r) ∨
    ∃ k, (s.aborts k).stage ≠ .returned ∧ (s.holds (.dead k) r ∨ s.holds (.abort k false) r)

/-- **The property.** -/
structure Resolved (s : Conn) : Prop where
  /-- the queue's reference is dropped once, and not before its last owner has let go -/
  once : ∀ r, (s.reqs r).unique ≠ 0 →
    ((s.reqs r).drops = 1 ∧ ∀ h, ¬ s.holds h r) ∨ ((s.reqs r).drops = 0 ∧ ∃ h, s.holds h r)
  /-- nothing is used after its last reference is gone -/
  alive : s.bad = false
  /-- each caller gets one completion at most -/
  completed : ∀ r, (s.reqs r).completions ≤ 1
  /-- once an abort has returned, a caller waits for no more than a task that has not ended -/
  woken : ∀ k < s.nAborts, (s.aborts k).stage = .returned →
    ∀ r, (s.reqs r).caller = .waiting → (s.reqs r).completions = 0 → s.Finishing r

/-- **The condition**: no caller reclaims the request that an abort works on or has saved a pointer
to, and no read requeues a request that an abort has taken over. -/
def apart (s : Conn) : Step → Prop
  | .reclaim r => ∀ k < s.nAborts, (s.aborts k).stage.eyes r = false
  | .requeue i => ∀ t ∈ s.reads[i]?, ∀ k < s.nAborts, ∀ r ∈ (s.aborts k).dead, t.on r = false
  | _ => True

instance (s : Conn) (l : Step) : Decidable (s.apart l) := by
  unfold apart
  split <;> infer_instance

end Conn

end AlloyFs.Kernel
