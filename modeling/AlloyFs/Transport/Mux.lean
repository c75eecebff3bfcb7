import AlloyFs.Lib.Transition
import AlloyFs.Proto.Messages
import Mathlib.Algebra.Ring.Nat

/-!
# Requests on a shared connection, with a clock

Many callers share one connection.  A call parks its waiter in `inflight`, puts its frame into a
channel of 256 slots, and waits for the answer.  A writer task takes the frames from the channel one
by one and is held up for as long as the peer does not read; a reader task hands the answers to
their waiters and, when the stream ends, fails those that are left.

The wait for the answer is bounded by `REQUEST_TIMEOUT`.  The wait for a slot of the channel is not,
and the time only starts to count when the frame is in the channel.

Time passes only while nobody can go on: a caller that is ready runs before the clock does, and the
clock does not jump past a timer.  How long the peer takes, what it answers and when it closes
either direction is open.
-/

namespace AlloyFs

open List

/-- In milliseconds. -/
def REQUEST_TIMEOUT : ℕ := 30000

/-- The slots of the channel to the writer task. -/
def OUT_SLOTS : ℕ := 256

/-- How a call can fail, short of the handshake. -/
inductive TransportError
  | closed | timeout
  deriving DecidableEq

/-- The oneshot channel of a call: its sender is in `inflight`, or was used, or was dropped. -/
inductive MuxSlot
  | inflight
  | answered (body : Except ErrorCode Response)
  | dropped

/-- Where a call is. -/
inductive MuxPhase
  /-- before the first look at `closed` -/
  | checking
  /-- the waiter is parked -/
  | inserted
  /-- `closed` was looked at once more: about to send -/
  | rechecked
  /-- waiting for a slot of the channel -/
  | sending
  /-- the frame is in the channel; waiting for the answer until the deadline -/
  | waiting (deadline : ℕ)
  /-- returned, at this time -/
  | done (time : ℕ) (result : Except TransportError (Except ErrorCode Response))

/-- One call of `MuxConnection::request`. -/
structure MuxCall where
  made : ℕ
  body : Request
  phase : MuxPhase
  /-- without a meaning before the waiter is parked -/
  slot : MuxSlot

/-- The reader task; between the end of the stream and its own end it clears `inflight`. -/
inductive MuxReader
  | running | clearing | gone
  deriving DecidableEq

/-- The writer task; `busy` while it waits for the peer to read. -/
inductive MuxWriter
  | idle | busy | gone
  deriving DecidableEq

/-- The connection.  A call's place in `calls` stands for its id. -/
structure MuxConn where
  clock : ℕ
  closed : Bool
  reader : MuxReader
  writer : MuxWriter
  /-- the channel to the writer task -/
  out : List Frame
  /-- who waits for a slot of the channel, in order: a call, or a ping and the like -/
  senders : List (Option ℕ × Frame)
  calls : List MuxCall

inductive MuxStep
  | request (body : Request)
  /-- the call goes on from where it is -/
  | run (i : ℕ)
  /-- the frame of a ping, or of a request with another deadline -/
  | send (frame : Frame)
  | answer (i : ℕ) (body : Except ErrorCode Response)
  /-- the peer closes its direction, or sends what cannot be decoded -/
  | readerEnds
  | clear
  /-- the writer takes a frame from the channel -/
  | take
  /-- the peer has read the frame -/
  | written
  /-- the peer has closed the other direction -/
  | writerFails
  | tick (d : ℕ)

namespace MuxCall

/-- The call can go on. -/
def ready (clock : ℕ) (writer : MuxWriter) (c : MuxCall) : Bool :=
  match c.phase with
  | .checking | .inserted | .rechecked => true
  | .sending => writer = .gone
  | .waiting deadline =>
    match c.slot with
    | .inflight => deadline ≤ clock
    | _ => true
  | .done _ _ => false

/-- The timer of the call. -/
def due (c : MuxCall) : Option ℕ :=
  match c.phase with
  | .waiting deadline => some deadline
  | _ => none

/-- The call has returned in time, or there is time left. -/
def inTime (clock : ℕ) (c : MuxCall) : Bool :=
  match c.phase with
  | .done time _ => time ≤ c.made + REQUEST_TIMEOUT
  | _ => clock ≤ c.made + REQUEST_TIMEOUT

def blocked (c : MuxCall) : Bool :=
  match c.phase with
  | .sending => true
  | _ => false

/-- The frame of the call is in the channel: `timeout(deadline, done_rx)` starts. -/
def sent (clock : ℕ) (c : MuxCall) : MuxCall :=
  { c with phase := .waiting (clock + REQUEST_TIMEOUT) }

/-- A slot of the channel is given to the call that waits for it. -/
def granted (clock : ℕ) (c : MuxCall) : MuxCall := if c.blocked then c.sent clock else c

/-- The call returns; its entry of `inflight` is gone. -/
def finish (clock : ℕ) (c : MuxCall)
    (result : Except TransportError (Except ErrorCode Response)) : MuxCall :=
  { c with phase := .done clock result, slot := .dropped }

/-- `inflight.clear()`, for one waiter -/
def orphan (c : MuxCall) : MuxCall :=
  match c.phase, c.slot with
  | .checking, _ => c
  | _, .inflight => { c with slot := .dropped }
  | _, _ => c

/-- `waiter.send(body)`, if the waiter is in `inflight` -/
def answer (c : MuxCall) (body : Except ErrorCode Response) : MuxCall :=
  match c.phase, c.slot with
  | .checking, _ => c
  | _, .inflight => { c with slot := .answered body }
  | _, _ => c

end MuxCall

namespace MuxConn

def init : MuxConn where
  clock := 0
  closed := false
  reader := .running
  writer := .idle
  out := []
  senders := []
  calls := []

def setCall (s : MuxConn) (i : ℕ) (c : MuxCall) : MuxConn := { s with calls := s.calls.set i c }

/-- The call goes on until its next `await`, or to the next point where others may come between. -/
def run (s : MuxConn) (i : ℕ) (c : MuxCall) : MuxConn :=
  match c.phase with
  | .checking =>
    if s.closed then s.setCall i (c.finish s.clock (.error .closed))
    else s.setCall i { c with phase := .inserted, slot := .inflight }
  | .inserted =>
    if s.closed then s.setCall i (c.finish s.clock (.error .closed))
    else s.setCall i { c with phase := .rechecked }
  | .rechecked =>
    if s.writer = .gone then s.setCall i (c.finish s.clock (.error .closed))
    else if s.out.length < OUT_SLOTS then
      { s.setCall i (c.sent s.clock) with out := s.out ++ [.request i c.body] }
    else
      { s.setCall i { c with phase := .sending } with
        senders := s.senders ++ [(some i, .request i c.body)] }
  | .sending => s.setCall i (c.finish s.clock (.error .closed))
  | .waiting _ =>
    s.setCall i <| c.finish s.clock <|
      match c.slot with
      | .answered body => .ok body
      | .dropped => .error .closed
      | .inflight => .error .timeout
  | .done _ _ => s

/-- The writer has taken a frame: its slot goes to the first of those who wait. -/
def grant (s : MuxConn) : MuxConn :=
  match s.senders with
  | [] => s
  | (owner, frame) :: rest =>
    { s with
      out := s.out ++ [frame]
      senders := rest
      calls := match owner with
        | some i => s.calls.modify i (MuxCall.granted s.clock)
        | none => s.calls }

/-- Nobody can go on. -/
def Quiet (s : MuxConn) : Prop :=
  (∀ c ∈ s.calls, c.ready s.clock s.writer = false) ∧ s.reader ≠ .clearing ∧
    (s.writer = .idle → s.out = [])
deriving Decidable

def step (s : MuxConn) : MuxStep → Option MuxConn
  | .request body =>
    some { s with calls := s.calls ++ [⟨s.clock, body, .checking, .dropped⟩] }
  | .run i =>
    match s.calls[i]? with
    | some c => if c.ready s.clock s.writer then some (s.run i c) else none
    | none => none
  | .send frame =>
    if s.writer = .gone then none
    else if s.out.length < OUT_SLOTS then some { s with out := s.out ++ [frame] }
    else some { s with senders := s.senders ++ [(none, frame)] }
  | .answer i body =>
    if s.reader = .running then
      some { s with calls := s.calls.modify i fun c => c.answer body }
    else none
  | .readerEnds =>
    if s.reader = .running then some { s with closed := true, reader := .clearing } else none
  | .clear =>
    if s.reader = .clearing then
      some { s with reader := .gone, calls := s.calls.map MuxCall.orphan }
    else none
  | .take =>
    match s.writer, s.out with
    | .idle, _ :: out => some { s with writer := .busy, out := out }.grant
    | _, _ => none
  | .written => if s.writer = .busy then some { s with writer := .idle } else none
  | .writerFails =>
    -- the receiver is dropped with what is in the channel; whoever waits for a slot is woken
    if s.writer = .busy then some { s with writer := .gone, out := [], senders := [] } else none
  | .tick d =>
    if s.Quiet ∧ ∀ c ∈ s.calls, ∀ deadline ∈ c.due, s.clock + d ≤ deadline then
      some { s with clock := s.clock + d }
    else none

/-- **The property**: every call returns within `REQUEST_TIMEOUT` of being made. -/
def InTime (s : MuxConn) : Prop := ∀ c ∈ s.calls, c.inTime s.clock = true
deriving Decidable

/-- **The condition**: time does not pass while a call waits for a slot of the channel. -/
def unblocked (s : MuxConn) : MuxStep → Prop
  | .tick _ => ∀ c ∈ s.calls, c.blocked = false
  | _ => True

instance (s : MuxConn) (l : MuxStep) : Decidable (s.unblocked l) := by
  unfold unblocked
  split <;> infer_instance

end MuxConn

namespace MuxCall

/-- The call has not got its frame into the channel. -/
def Early (c : MuxCall) : Prop :=
  match c.phase with
  | .checking | .inserted | .rechecked | .sending => True
  | _ => False

/-- What happens to a call while the clock stands still. -/
inductive Moves (clock : ℕ) (c : MuxCall) : MuxCall → Prop
  | slot (slot : MuxSlot) : Moves clock c { c with slot := slot }
  | early (phase : MuxPhase) (slot : MuxSlot) (hc : c.Early)
      (hphase : Early { c with phase := phase, slot := slot }) :
      Moves clock c { c with phase := phase, slot := slot }
  | sent (hc : c.Early) : Moves clock c (c.sent clock)
  | finish (result : Except TransportError (Except ErrorCode Response))
      (hc : ∀ time r, c.phase ≠ .done time r) : Moves clock c (c.finish clock result)

variable {clock : ℕ} {writer : MuxWriter} {c c' : MuxCall}

theorem Moves.refl : Moves clock c c := .slot c.slot

theorem moves_granted : Moves clock c (c.granted clock) := by
  unfold granted
  split
  · apply Moves.sent
    cases hp : c.phase <;> simp_all [blocked, Early]
  · exact .refl

theorem moves_orphan : Moves clock c c.orphan := by
  unfold orphan
  split
  · exact .refl
  · exact .slot .dropped
  · exact .refl

theorem moves_answer (body : Except ErrorCode Response) : Moves clock c (c.answer body) := by
  unfold answer
  split
  · exact .refl
  · exact .slot (.answered body)
  · exact .refl

/-- What carries the bound: a call that is not in the channel was made just now, and a timer is set
for no later than the bound. -/
def OnTime (clock : ℕ) (c : MuxCall) : Prop :=
  match c.phase with
  | .waiting deadline => deadline ≤ c.made + REQUEST_TIMEOUT ∧ clock ≤ deadline
  | .done time _ => time ≤ c.made + REQUEST_TIMEOUT
  | _ => c.made = clock

theorem OnTime.inTime (h : c.OnTime clock) : c.inTime clock = true := by
  unfold OnTime at h
  unfold MuxCall.inTime
  cases hp : c.phase <;> simp only [hp, decide_eq_true_eq] at h ⊢ <;> omega

theorem OnTime.le (h : c.OnTime clock) (hc : ∀ time r, c.phase ≠ .done time r) :
    clock ≤ c.made + REQUEST_TIMEOUT := by
  have hin := h.inTime
  unfold MuxCall.inTime at hin
  split at hin
  · rename_i time r hp
    exact absurd hp (hc time r)
  · exact of_decide_eq_true hin

theorem OnTime.made (h : c.OnTime clock) (hc : c.Early) : c.made = clock := by
  unfold OnTime at h
  unfold Early at hc
  cases hp : c.phase <;> simp_all

theorem onTime_of_early (hc : c.Early) (h : c.made = clock) : c.OnTime clock := by
  unfold OnTime
  unfold Early at hc
  cases hp : c.phase <;> simp_all

theorem OnTime.moves (h : c.OnTime clock) (hm : Moves clock c c') : c'.OnTime clock := by
  cases hm with
  | slot slot => exact h
  | early phase slot hc hphase => exact onTime_of_early hphase (h.made hc)
  | sent hc =>
    have hmade := h.made hc
    simp only [OnTime, MuxCall.sent]
    omega
  | finish result hc => exact h.le hc

theorem OnTime.tick {d : ℕ} (h : c.OnTime clock) (hready : c.ready clock writer = false)
    (hblocked : c.blocked = false) (hdue : ∀ deadline ∈ c.due, clock + d ≤ deadline) :
    c.OnTime (clock + d) := by
  unfold OnTime at h ⊢
  cases hp : c.phase with
  | waiting deadline =>
    rw [hp] at h
    exact ⟨h.1, hdue deadline (by simp [due, hp])⟩
  | done time result =>
    rw [hp] at h
    exact h
  | _ => simp [ready, blocked, hp] at hready hblocked

end MuxCall

namespace MuxConn

variable {s s' : MuxConn} {l : MuxStep} {i : ℕ} {c : MuxCall}

/-- Every call of the second state is new or comes from a call of the first. -/
def Goes (s s' : MuxConn) : Prop :=
  s'.clock = s.clock ∧ ∀ c' ∈ s'.calls,
    (c'.made = s.clock ∧ c'.phase = .checking) ∨ ∃ c ∈ s.calls, MuxCall.Moves s.clock c c'

theorem goes_of_calls (hclock : s'.clock = s.clock) (hcalls : s'.calls = s.calls) : Goes s s' := by
  refine ⟨hclock, fun c hc => Or.inr ⟨c, ?_, .refl⟩⟩
  rwa [hcalls] at hc

theorem goes_set {c' : MuxCall} (hclock : s'.clock = s.clock)
    (hcalls : s'.calls = s.calls.set i c') (hc : s.calls[i]? = some c)
    (hm : MuxCall.Moves s.clock c c') : Goes s s' := by
  refine ⟨hclock, fun b hb => Or.inr ?_⟩
  rw [hcalls] at hb
  rcases mem_or_eq_of_mem_set hb with hb | rfl
  · exact ⟨b, hb, .refl⟩
  · exact ⟨c, mem_of_getElem? hc, hm⟩

theorem goes_modify {f : MuxCall → MuxCall} (hclock : s'.clock = s.clock)
    (hcalls : s'.calls = s.calls.modify i f) (hf : ∀ c, MuxCall.Moves s.clock c (f c)) :
    Goes s s' := by
  cases hc : s.calls[i]? with
  | none =>
    rw [getElem?_eq_none_iff] at hc
    exact goes_of_calls hclock (by rw [hcalls, modify_eq_self hc])
  | some c => exact goes_set hclock (by rw [hcalls, modify_eq_set_getElem?, hc]; rfl) hc (hf c)

theorem goes_run (hc : s.calls[i]? = some c) : Goes s (s.run i c) := by
  unfold run
  split
  · rename_i hp
    split
    · exact goes_set rfl rfl hc (.finish _ (by simp [hp]))
    · exact goes_set rfl rfl hc (.early .inserted .inflight (by simp [MuxCall.Early, hp]) trivial)
  · rename_i hp
    split
    · exact goes_set rfl rfl hc (.finish _ (by simp [hp]))
    · exact goes_set rfl rfl hc (.early .rechecked c.slot (by simp [MuxCall.Early, hp]) trivial)
  · rename_i hp
    split
    · exact goes_set rfl rfl hc (.finish _ (by simp [hp]))
    · split
      · exact goes_set rfl rfl hc (.sent (by simp [MuxCall.Early, hp]))
      · exact goes_set rfl rfl hc (.early .sending c.slot (by simp [MuxCall.Early, hp]) trivial)
  · rename_i hp
    exact goes_set rfl rfl hc (.finish _ (by simp [hp]))
  · rename_i hp
    exact goes_set rfl rfl hc (.finish _ (by simp [hp]))
  · exact goes_of_calls rfl rfl

theorem goes_grant : Goes s s.grant := by
  unfold grant
  split
  · exact goes_of_calls rfl rfl
  · rename_i owner frame rest _
    cases owner with
    | none => exact goes_of_calls rfl rfl
    | some i => exact goes_modify rfl rfl fun _ => MuxCall.moves_granted

/-- What a step does to the calls: time passes when nobody can go on, or each call makes a move. -/
theorem step_cases (h : s.step l = some s') :
    (∃ d, l = .tick d ∧ s.Quiet ∧ (∀ c ∈ s.calls, ∀ deadline ∈ c.due, s.clock + d ≤ deadline) ∧
      s' = { s with clock := s.clock + d }) ∨ Goes s s' := by
  cases l with
  | tick d =>
    obtain ⟨⟨hq, hdue⟩, h⟩ := Option.ite_none_right_eq_some.mp h
    exact Or.inl ⟨d, rfl, hq, hdue, (Option.some.inj h).symm⟩
  | request body =>
    right
    simp only [step, Option.some.injEq] at h
    subst h
    refine ⟨rfl, fun c hc => ?_⟩
    rcases mem_append.mp hc with hc | hc
    · exact Or.inr ⟨c, hc, .refl⟩
    · rw [mem_singleton.mp hc]
      exact Or.inl ⟨rfl, rfl⟩
  | run i =>
    right
    simp only [step] at h
    cases hc : s.calls[i]? with
    | none => simp [hc] at h
    | some c =>
      simp only [hc] at h
      obtain ⟨-, rfl⟩ := of_guard h
      exact goes_run hc
  | send frame =>
    right
    obtain ⟨-, h⟩ := Option.ite_none_left_eq_some.mp h
    split at h <;> rw [← Option.some.inj h] <;> exact goes_of_calls rfl rfl
  | answer i body =>
    right
    obtain ⟨-, rfl⟩ := of_guard h
    exact goes_modify rfl rfl fun _ => MuxCall.moves_answer body
  | clear =>
    right
    obtain ⟨-, rfl⟩ := of_guard h
    refine ⟨rfl, fun c' hc' => Or.inr ?_⟩
    obtain ⟨c, hc, rfl⟩ := mem_map.mp hc'
    exact ⟨c, hc, MuxCall.moves_orphan⟩
  | take =>
    right
    simp only [step] at h
    split at h
    · rw [← Option.some.inj h]
      exact goes_grant (s := { s with writer := .busy, out := _ })
    · cases h
  | readerEnds | written | writerFails =>
    right
    obtain ⟨-, rfl⟩ := of_guard h
    exact goes_of_calls rfl rfl

theorem onTime_step (hi : ∀ c ∈ s.calls, c.OnTime s.clock) (hok : s.unblocked l)
    (h : s.step l = some s') : ∀ c ∈ s'.calls, c.OnTime s'.clock := by
  intro c' hc'
  rcases step_cases h with ⟨d, rfl, hq, hdue, rfl⟩ | ⟨hclock, hgoes⟩
  · exact (hi c' hc').tick (hq.1 c' hc') (hok c' hc') (hdue c' hc')
  · rw [hclock]
    rcases hgoes c' hc' with ⟨hmade, hp⟩ | ⟨c, hc, hm⟩
    · exact MuxCall.onTime_of_early (by simp [MuxCall.Early, hp]) hmade
    · exact (hi c hc).moves hm

/-! ### Time goes on

The clock stands still while somebody can go on; everybody soon comes to a point where they
cannot. -/

/-- How many moves a call has left. -/
def rank (c : MuxCall) : ℕ :=
  match c.phase with
  | .checking => 5
  | .inserted => 4
  | .rechecked => 3
  | .sending => 2
  | .waiting _ => 1
  | .done _ _ => 0

/-- How many steps are left until the clock can go on. -/
def work (s : MuxConn) : ℕ :=
  (s.calls.map rank).sum + (if s.reader = .clearing then 1 else 0) +
    (if s.writer = .idle then 1 else 0)

theorem sum_rank_set {cs : List MuxCall} {c' : MuxCall} (hc : cs[i]? = some c)
    (h : rank c' < rank c) : ((cs.set i c').map rank).sum < (cs.map rank).sum := by
  induction cs generalizing i with
  | nil => simp at hc
  | cons b cs ih =>
    cases i with
    | zero =>
      simp only [getElem?_cons_zero, Option.some.injEq] at hc
      subst hc
      simp only [set_cons_zero, map_cons, sum_cons]
      omega
    | succ i =>
      have := ih hc
      simp only [set_cons_succ, map_cons, sum_cons]
      omega

theorem rank_granted (clock : ℕ) (c : MuxCall) : rank (c.granted clock) ≤ rank c := by
  unfold MuxCall.granted
  split
  · cases hp : c.phase <;> simp_all [MuxCall.blocked, MuxCall.sent, rank]
  · exact le_rfl

theorem rank_orphan (c : MuxCall) : rank c.orphan = rank c := by
  unfold MuxCall.orphan
  split <;> rfl

theorem sum_rank_granted (clock i : ℕ) (cs : List MuxCall) :
    ((cs.modify i (MuxCall.granted clock)).map rank).sum ≤ (cs.map rank).sum := by
  induction cs generalizing i with
  | nil => simp
  | cons c cs ih =>
    cases i with
    | zero =>
      have := rank_granted clock c
      simp only [modify_zero_cons, map_cons, sum_cons]
      omega
    | succ i =>
      have := ih i
      simp only [modify_succ_cons, map_cons, sum_cons]
      omega

theorem sum_rank_grant (s : MuxConn) : (s.grant.calls.map rank).sum ≤ (s.calls.map rank).sum := by
  unfold grant
  split
  · exact le_rfl
  · rename_i owner frame rest _
    cases owner with
    | none => exact le_rfl
    | some i => exact sum_rank_granted s.clock i s.calls

@[simp] theorem grant_reader (s : MuxConn) : s.grant.reader = s.reader := by
  unfold grant
  split <;> rfl

@[simp] theorem grant_writer (s : MuxConn) : s.grant.writer = s.writer := by
  unfold grant
  split <;> rfl

theorem run_spec (hready : c.ready s.clock s.writer = true) :
    ∃ c', rank c' < rank c ∧ (s.run i c).calls = s.calls.set i c' ∧
      (s.run i c).reader = s.reader ∧ (s.run i c).writer = s.writer := by
  unfold run
  cases hp : c.phase with
  | checking | inserted =>
    dsimp only
    split <;> exact ⟨_, by simp [rank, hp, MuxCall.finish], rfl, rfl, rfl⟩
  | rechecked =>
    dsimp only
    split
    · exact ⟨_, by simp [rank, hp, MuxCall.finish], rfl, rfl, rfl⟩
    · split <;> exact ⟨_, by simp [rank, hp, MuxCall.sent], rfl, rfl, rfl⟩
  | sending | waiting _ => exact ⟨_, by simp [rank, hp, MuxCall.finish], rfl, rfl, rfl⟩
  | done time result => simp [MuxCall.ready, hp] at hready

theorem exists_step (h : ¬ s.Quiet) :
    ∃ l s', s.step l = some s' ∧ s'.clock = s.clock ∧ s'.work < s.work := by
  by_cases hcalls : ∀ c ∈ s.calls, c.ready s.clock s.writer = false
  · by_cases hreader : s.reader = .clearing
    · have horphan : (rank ∘ MuxCall.orphan) = rank := funext rank_orphan
      refine ⟨.clear, { s with reader := .gone, calls := s.calls.map MuxCall.orphan },
        if_pos hreader, rfl, ?_⟩
      simp [work, hreader, horphan]
    · have hwriter : s.writer = .idle ∧ s.out ≠ [] := by
        by_contra hw
        exact h ⟨hcalls, hreader, fun hidle => by_contra fun hout => hw ⟨hidle, hout⟩⟩
      obtain ⟨hidle, hout⟩ := hwriter
      obtain ⟨frame, out, hcons⟩ := exists_cons_of_ne_nil hout
      have hstep : s.step .take = some { s with writer := .busy, out := out }.grant := by
        simp only [step, hidle, hcons]
      refine ⟨.take, _, hstep, goes_grant.1, ?_⟩
      have hgrant := sum_rank_grant { s with writer := .busy, out := out }
      simp only [work, grant_reader, grant_writer, hidle, reduceCtorEq, if_true, if_false]
      simp only at hgrant
      omega
  · obtain ⟨c, hc, hready⟩ : ∃ c ∈ s.calls, c.ready s.clock s.writer = true := by
      simpa using hcalls
    obtain ⟨i, hi⟩ := getElem?_of_mem hc
    refine ⟨.run i, s.run i c, by simp only [step, hi, hready, if_true], (goes_run hi).1, ?_⟩
    obtain ⟨c', hrank, hcalls', hreader, hwriter⟩ := run_spec (i := i) hready
    have := sum_rank_set hi hrank
    unfold work
    rw [hcalls', hreader, hwriter]
    omega

theorem time_passes (s : MuxConn) :
    ∃ s', Reaches step (fun _ _ => True) s s' ∧ s.clock < s'.clock := by
  induction hn : s.work using Nat.strongRecOn generalizing s with
  | _ n ih =>
    subst hn
    by_cases hq : s.Quiet
    · refine ⟨{ s with clock := s.clock + 1 }, .tail .refl trivial (l := .tick 1) ?_,
        Nat.lt_succ_self _⟩
      have hdue : ∀ c ∈ s.calls, ∀ deadline ∈ c.due, s.clock + 1 ≤ deadline := by
        intro c hc deadline hd
        have hr := hq.1 c hc
        unfold MuxCall.due at hd
        cases hp : c.phase with
        | waiting d =>
          rw [hp] at hd
          simp only [Option.mem_some_iff] at hd
          unfold MuxCall.ready at hr
          rw [hp] at hr
          cases hs : c.slot with
          | inflight =>
            simp only [hs, decide_eq_false_iff_not] at hr
            omega
          | answered body | dropped => simp [hs] at hr
        | _ => simp [hp] at hd
      exact if_pos ⟨hq, hdue⟩
    · obtain ⟨l, t, hstep, hclock, hwork⟩ := exists_step hq
      obtain ⟨s', hr, hlt⟩ := ih t.work hwork t rfl
      exact ⟨s', Reaches.trans (.tail .refl trivial hstep) hr, hclock ▸ hlt⟩

/-- **No request hangs.**  In every run in which time does not pass while a call waits for a slot of
the channel, a call is back within `REQUEST_TIMEOUT` of being made; and the clock never stands still
for good, so it is back. -/
theorem inTime_of_unblocked (h : Reaches step unblocked init s) :
    s.InTime ∧ ∃ s', Reaches step (fun _ _ => True) s s' ∧ s.clock < s'.clock := by
  have hi : ∀ c ∈ s.calls, c.OnTime s.clock :=
    h.invariant (fun s => ∀ c ∈ s.calls, c.OnTime s.clock) (by simp [init])
      fun _ _ _ hi hok hs => onTime_step hi hok hs
  exact ⟨fun c hc => (hi c hc).inTime, time_passes s⟩

/-- One call after the other sends its frame, until call `n`. -/
def burst (n : ℕ) : List MuxStep :=
  (range n).flatMap fun i => [.request .statfs, .run i, .run i, .run i]

/-- A call is answered, one is left to its timer, and one is made at the end of the stream. -/
theorem inTime_untilClosed : ∃ s, Reaches step unblocked init s ∧
    (s.clock, s.calls.length, s.InTime) = (30000, 3, True) := by
  obtain ⟨s, hs, hclock, hcalls⟩ : ∃ s, Reaches step unblocked init s ∧ s.clock = 30000 ∧
      s.calls.length = 3 :=
    exists_of_run
      (burst 2 ++ [.take, .written, .answer 0 (.ok .ok), .run 0, .take, .tick 30000, .run 1,
        .request .statfs, .run 2, .readerEnds, .clear, .run 2])
      (by decide +kernel) (fun _ h => h) (by decide +kernel)
  exact ⟨s, hs, by simp [hclock, hcalls, (inTime_of_unblocked hs).1]⟩

/-- The peer does not read.  The writer is stuck with the frame of a call, 256 requests that wait
for locks fill the channel, and the next call still waits for a slot when its time is up. -/
theorem not_inTime_full : ∃ s, Reaches step (fun _ _ => True) init s ∧
    s.clock = REQUEST_TIMEOUT + 1 ∧
    (s.calls[1]?).map (fun c => (c.made, c.blocked)) = some (0, true) ∧
    ¬ s.InTime :=
  exists_of_run
    (burst 1 ++ [.take] ++ replicate 256 (.send (.request 2 (.lock 7 .exclusive true))) ++
      (burst 2).drop 4 ++ [.tick REQUEST_TIMEOUT, .run 0, .tick 1])
    (allowed_true _ _ _) (fun _ h => h) (by decide +kernel)

end MuxConn

end AlloyFs
