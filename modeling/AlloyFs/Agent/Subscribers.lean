import AlloyFs.Agent.Watch
import AlloyFs.Lib.Broadcast
import AlloyFs.Lib.Fair
import Mathlib.Data.List.Infix
import Mathlib.Logic.Function.Basic

/-!
# The subscribers of the event hub

The hub numbers a batch and appends it to the ring under a lock, and sends it on the broadcast
channel after that.  A subscriber makes its receiver first and reads the ring after that.  Its
forwarding task then pushes what it found in the ring, and goes on with what the receiver gets; when
the receiver has fallen behind the channel, it pushes a `ResyncRequired` instead.

This module runs the publisher and any number of subscribers side by side, with each of these steps
taken on its own, and shows that no event falls between the ring and the channel.
-/

namespace AlloyFs

open Function List

/-! ## The ring -/

namespace EventHub

/-- The hub has published this history: the numbers count up from one, and the ring holds as many of
the last events as fit. -/
structure Logs (hub : EventHub) (history : List FsEvent) : Prop where
  pos : 0 < hub.logCap
  seq : hub.seq = history.length
  seqs : history.map FsEvent.seq = range' 1 history.length
  log : hub.log = history.drop (history.length - hub.logCap)

/-- The ring holds consecutive numbers up to the last one, and no more than its capacity. -/
def Ring (hub : EventHub) : Prop :=
  hub.log.length ≤ hub.logCap ∧ hub.log.length ≤ hub.seq ∧
    hub.log.map FsEvent.seq = range' (hub.seq - hub.log.length + 1) hub.log.length

variable {hub : EventHub} {history : List FsEvent} {e : FsEvent}

theorem logs_withCapacity {cap : ℕ} (h : 0 < cap) : (withCapacity cap).Logs [] :=
  ⟨h, rfl, rfl, drop_nil.symm⟩

theorem Logs.ring (h : hub.Logs history) : hub.Ring := by
  have hlen : hub.log.length = history.length - (history.length - hub.logCap) := by
    rw [h.log, length_drop]
  refine ⟨by omega, by rw [h.seq]; omega, ?_⟩
  rw [hlen, h.log, map_drop, h.seqs, drop_range', h.seq]
  congr 1
  omega

theorem Logs.publishOne (h : hub.Logs history) (now : ℕ) (item : RelPath × EventKind) :
    (hub.publishOne now item).1.Logs (history ++ [(hub.publishOne now item).2]) := by
  have hlen : hub.log.length = history.length - (history.length - hub.logCap) := by
    rw [h.log, length_drop]
  refine ⟨h.pos, ?_, ?_, ?_⟩
  · rw [length_append, ← h.seq]
    rfl
  · rw [map_append, h.seqs, length_append, length_singleton, range'_concat,
      Nat.one_mul, Nat.add_comm 1, ← h.seq]
    rfl
  · have hpos := h.pos
    have hcap : (hub.publishOne now item).1.logCap = hub.logCap := rfl
    rw [hcap, length_append, length_singleton, drop_append_of_le_length (by omega)]
    simp only [EventHub.publishOne]
    congr 1
    split
    · rw [h.log, tail_drop]
      congr 1
      omega
    · rw [h.log]
      congr 1
      omega

theorem Logs.publish (now : ℕ) (raw : List (RelPath × EventKind)) :
    ∀ {hub : EventHub} {history : List FsEvent}, hub.Logs history →
      (hub.publish now raw).1.Logs (history ++ (hub.publish now raw).2) := by
  induction raw with
  | nil =>
    intro hub history h
    simpa only [EventHub.publish, append_nil] using h
  | cons item raw ih =>
    intro hub history h
    have := ih (h.publishOne now item)
    rwa [append_assoc] at this

theorem logCap_publish (now : ℕ) (raw : List (RelPath × EventKind)) :
    ∀ hub : EventHub, (hub.publish now raw).1.logCap = hub.logCap := by
  induction raw with
  | nil => exact fun _ => rfl
  | cons item raw ih => exact fun hub => ih (hub.publishOne now item).1

/-- The event has left the ring. -/
def Left (hub : EventHub) (seq : ℕ) : Prop := seq ≤ hub.seq ∧ ∀ e ∈ hub.log, seq < e.seq

section

variable (h : hub.Logs history)
include h

theorem Logs.seq_of_mem_log (he : e ∈ hub.log) : history.length - hub.logCap < e.seq := by
  have hmem : e.seq ∈ hub.log.map FsEvent.seq := mem_map_of_mem he
  rw [h.log, map_drop, h.seqs, drop_range', mem_range'_1] at hmem
  omega

theorem Logs.seq_of_mem_take (he : e ∈ history.take (history.length - hub.logCap)) :
    e.seq ≤ history.length - hub.logCap := by
  have hmem : e.seq ∈ (history.take (history.length - hub.logCap)).map FsEvent.seq :=
    mem_map_of_mem he
  rw [map_take, h.seqs, mem_take_iff_getElem] at hmem
  obtain ⟨i, hi, heq⟩ := hmem
  rw [getElem_range'] at heq
  omega

theorem Logs.seq_of_mem (he : e ∈ history) : 1 ≤ e.seq ∧ e.seq ≤ history.length := by
  have hmem : e.seq ∈ history.map FsEvent.seq := mem_map_of_mem he
  rw [h.seqs, mem_range'_1] at hmem
  omega

theorem Logs.left_iff (seq : ℕ) : hub.Left seq ↔ seq ≤ history.length - hub.logCap := by
  refine ⟨fun hleft => ?_, fun hle => ⟨by rw [h.seq]; omega, fun e he => ?_⟩⟩
  · obtain ⟨hle, hlog⟩ := hleft
    rw [h.seq] at hle
    by_cases hfit : history.length - hub.logCap < history.length
    · -- the first number of the ring
      have hmem : history.length - hub.logCap + 1 ∈ hub.log.map FsEvent.seq := by
        rw [h.log, map_drop, h.seqs, drop_range', mem_range'_1]
        omega
      obtain ⟨e, he, heq⟩ := mem_map.mp hmem
      have := hlog e he
      omega
    · omega
  · have := h.seq_of_mem_log he
    omega

/-- **A refused subscriber** asked for an event that has left the ring. -/
theorem Logs.left_of_refused {since : Option ℕ} {e : ErrorCode}
    (hsub : hub.subscribe since = .error e) :
    e = .tooOld ∧ ∃ s, since = some s ∧ hub.Left (s + 1) := by
  unfold subscribe at hsub
  split at hsub
  · cases hsub
  · rename_i s
    split at hsub
    · rename_i head hhead
      split at hsub
      · cases hsub
        refine ⟨rfl, s, rfl, (h.left_iff _).mpr ?_⟩
        -- the head has the first number that fits
        have hfirst : (hub.log.map FsEvent.seq).head? = some head.seq := by
          rw [head?_map, hhead]
          rfl
        rw [h.log, map_drop, h.seqs, drop_range', head?_range'] at hfirst
        split at hfirst
        · cases hfirst
        · have := Option.some.inj hfirst
          omega
      · cases hsub
    · cases hsub

/-- **A subscriber that is not refused** finds in the ring all that it has missed. -/
theorem Logs.mem_catchup {s : ℕ} {catchup : List FsEvent}
    (hsub : hub.subscribe (some s) = .ok catchup) (he : e ∈ history)
    (hlt : s < e.seq) : e ∈ catchup := by
  simp only [subscribe] at hsub
  split at hsub
  · rename_i head hhead
    split at hsub
    · cases hsub
    · cases hsub
      rw [mem_filter]
      refine ⟨?_, decide_eq_true hlt⟩
      rw [← take_append_drop (history.length - hub.logCap) history, mem_append] at he
      rcases he with htake | hdrop
      · have := h.seq_of_mem_take htake
        have := h.seq_of_mem_log (mem_of_mem_head? hhead)
        omega
      · rwa [h.log]
  · rename_i hnone
    have hnil : hub.log = [] := head?_eq_none_iff.mp hnone
    rw [h.log, drop_eq_nil_iff] at hnil
    have hpos := h.pos
    have := length_pos_of_mem he
    omega

end

end EventHub

/-! ## The model -/

/-- What a forwarding task has dealt with. -/
inductive Passed
  | catchup (batch : List FsEvent)
  | live (r : Recv (List FsEvent))

/-- The events it was about. -/
def Passed.events : Passed → List FsEvent
  | .catchup batch => batch
  | .live (.value _ batch) => batch
  | .live (.lagged _ _) => []

/-- What it pushes to the client. -/
def Passed.push (session : ℕ) : Passed → List FsEvent
  | .catchup batch => strip session batch
  | .live (.value _ batch) => strip session batch
  | .live (.lagged _ _) => resync

/-- A forwarding task. -/
structure Forwarder where
  session : ℕ
  since : Option ℕ
  /-- what was found in the ring, until it is pushed -/
  catchup : Option (List FsEvent)
  /-- the position of its receiver -/
  next : ℕ
  passed : List Passed

inductive Subscriber
  | absent
  /-- has its receiver -/
  | joined (session : ℕ) (since : Option ℕ) (next : ℕ)
  | refused (since : Option ℕ) (error : ErrorCode)
  | forwarding (f : Forwarder)
  /-- its connection is gone -/
  | gone

/-- A hub, its channel, a batch between the two, and the subscribers. -/
structure HubState where
  hub : EventHub
  unsent : Option (List FsEvent)
  channel : Broadcast (List FsEvent)
  subs : ℕ → Subscriber

inductive HubStep
  | note (now : ℕ) (path : RelPath) (session : ℕ)
  | append (now : ℕ) (raw : List (RelPath × EventKind))
  | send
  | join (i session : ℕ) (since : Option ℕ)
  | read (i : ℕ)
  /-- one round of the forwarding task; the push succeeds or not -/
  | forward (i : ℕ) (ok : Bool)

/-- Those that the scheduler has to run. -/
inductive HubTask
  | publisher
  | subscriber (i : ℕ)

def HubTask.runs : HubTask → HubStep → Prop
  | publisher, l => l = .send
  | subscriber i, l => l = .read i ∨ ∃ ok, l = .forward i ok

/-- The task pushes, and ends when the connection is gone. -/
def Forwarder.pass (f : Forwarder) (ok : Bool) (p : Passed) (next : ℕ) : Subscriber :=
  if p.push f.session = [] ∨ ok = true then
    .forwarding { f with catchup := none, next := next, passed := f.passed ++ [p] }
  else .gone

/-- One round of a forwarding task: first the catch-up, then the receiver. -/
def Forwarder.forward (f : Forwarder) (channel : Broadcast (List FsEvent)) (ok : Bool) :
    Option Subscriber :=
  match f.catchup with
  | some batch => some (f.pass ok (.catchup batch) f.next)
  | none => (channel.recv f.next).map fun r => f.pass ok (.live r.1) r.2

namespace HubState

/-- The channel of a hub keeps 256 batches. -/
def init (cap : ℕ) : HubState := ⟨.withCapacity cap, none, ⟨256, []⟩, fun _ => .absent⟩

def setSub (s : HubState) (i : ℕ) (sub : Subscriber) : HubState :=
  { s with subs := update s.subs i sub }

def step (s : HubState) : HubStep → Option HubState
  | .note now path session => some { s with hub := s.hub.noteLocalWrite now path session }
  | .append now raw =>
    if s.unsent = none ∧ raw ≠ [] then
      some { s with hub := (s.hub.publish now raw).1, unsent := some (s.hub.publish now raw).2 }
    else none
  | .send =>
    match s.unsent with
    | some batch => some { s with unsent := none, channel := s.channel.send batch }
    | none => none
  | .join i session since =>
    match s.subs i with
    | .absent => some (s.setSub i (.joined session since s.channel.tail))
    | _ => none
  | .read i =>
    match s.subs i with
    | .joined session since next =>
      match s.hub.subscribe since with
      | .error e => some (s.setSub i (.refused since e))
      | .ok catchup => some (s.setSub i (.forwarding ⟨session, since, some catchup, next, []⟩))
    | _ => none
  | .forward i ok =>
    match s.subs i with
    | .forwarding f => (f.forward s.channel ok).map (s.setSub i)
    | _ => none

/-- All events that were numbered. -/
def history (s : HubState) : List FsEvent := s.channel.sent.flatten ++ s.unsent.getD []

end HubState

/-- The task has dealt with the event. -/
def Forwarder.Handles (f : Forwarder) (e : FsEvent) : Prop := ∃ p ∈ f.passed, e ∈ p.events

/-- The task has pushed a `ResyncRequired` for a batch that its receiver missed, and the event was
in it. -/
def Forwarder.Resyncs (f : Forwarder) (channel : Broadcast (List FsEvent)) (e : FsEvent) : Prop :=
  ∃ start stop pos batch, .live (.lagged start stop) ∈ f.passed ∧ start ≤ pos ∧ pos < stop ∧
    channel.sent[pos]? = some batch ∧ e ∈ batch

/-- The catch-up comes first, and after it what the receiver gets. -/
def Forwarder.InOrder (f : Forwarder) : Prop :=
  f.passed = [] ∧ f.catchup.isSome = true ∨
    ∃ batch rs, f.catchup = none ∧ f.passed = .catchup batch :: map Passed.live rs

/-- Where an event is that a subscriber is owed. -/
def Forwarder.Accounts (f : Forwarder) (s : HubState) (e : FsEvent) : Prop :=
  (f.Handles e ∨ f.Resyncs s.channel e) ∨ (∃ batch, f.catchup = some batch ∧ e ∈ batch) ∨
    (∃ pos batch, f.next ≤ pos ∧ s.channel.sent[pos]? = some batch ∧ e ∈ batch) ∨
    ∃ batch, s.unsent = some batch ∧ e ∈ batch

/-- The position of the receiver of a subscriber. -/
def Subscriber.next : Subscriber → ℕ
  | .joined _ _ next => next
  | .forwarding f => f.next
  | _ => 0

/-- What holds of one subscriber. -/
structure Subscriber.Sound (s : HubState) (sub : Subscriber) : Prop where
  next : sub.next ≤ s.channel.tail
  refused : ∀ since e, sub = .refused since e →
    e = .tooOld ∧ ∃ n, since = some n ∧ s.hub.Left (n + 1)
  inOrder : ∀ f, sub = .forwarding f → f.InOrder
  owed : ∀ f n, sub = .forwarding f → f.since = some n → ∀ e ∈ s.history, n < e.seq → f.Accounts s e

/-- **The invariant.** -/
structure HubState.Inv (s : HubState) : Prop where
  logs : s.hub.Logs s.history
  subs : ∀ i, (s.subs i).Sound s

/-! ## Steps -/

variable {f : Forwarder} {channel : Broadcast (List FsEvent)} {e : FsEvent}

theorem Forwarder.Resyncs.send
    (h : f.Resyncs channel e) (batch : List FsEvent) : f.Resyncs (channel.send batch) e := by
  obtain ⟨start, stop, pos, b, hp, hle, hlt, hb, he⟩ := h
  exact ⟨start, stop, pos, b, hp, hle, hlt, channel.sent_send_of_lt batch hb, he⟩

variable {s : HubState}

theorem Forwarder.accounts_pass (h : f.Accounts s e)
    {p : Passed} {next : ℕ} (hcatchup : ∀ batch, f.catchup = some batch → e ∈ batch → e ∈ p.events)
    (hlive : ∀ pos batch, f.next ≤ pos → s.channel.sent[pos]? = some batch → e ∈ batch →
      next ≤ pos ∨ e ∈ p.events ∨
        ∃ start stop, p = .live (.lagged start stop) ∧ start ≤ pos ∧ pos < stop) :
    ({ f with catchup := none, next := next, passed := f.passed ++ [p] } : Forwarder).Accounts
      s e := by
  have hlast : p ∈ f.passed ++ [p] := mem_append_right _ mem_cons_self
  rcases h with (⟨q, hq, he⟩ | ⟨start, stop, pos, b, hq, hle, hlt, hb, he⟩) | ⟨b, hb, he⟩ |
    ⟨pos, b, hle, hb, he⟩ | ⟨b, hb, he⟩
  · exact .inl (.inl ⟨q, mem_append_left _ hq, he⟩)
  · exact .inl (.inr ⟨start, stop, pos, b, mem_append_left _ hq, hle, hlt, hb, he⟩)
  · exact .inl (.inl ⟨p, hlast, hcatchup b hb he⟩)
  · rcases hlive pos b hle hb he with hnext | hp | ⟨start, stop, rfl, hle', hlt⟩
    · exact .inr (.inr (.inl ⟨pos, b, hnext, hb, he⟩))
    · exact .inl (.inl ⟨p, hlast, hp⟩)
    · exact .inl (.inr ⟨start, stop, pos, b, hlast, hle', hlt, hb, he⟩)
  · exact .inr (.inr (.inr ⟨b, hb, he⟩))

variable {sub : Subscriber} {ok : Bool}

theorem Forwarder.forward_cases (h : f.forward channel ok = some sub) :
    (∃ batch, f.catchup = some batch ∧ sub = f.pass ok (.catchup batch) f.next) ∨
    ∃ r next, f.catchup = none ∧ channel.recv f.next = some (r, next) ∧
      sub = f.pass ok (.live r) next := by
  unfold forward at h
  split at h
  · rename_i batch hb
    cases h
    exact .inl ⟨batch, hb, rfl⟩
  · rename_i hnone
    obtain ⟨⟨r, next⟩, hr, rfl⟩ := Option.map_eq_some_iff.mp h
    exact .inr ⟨r, next, hnone, hr, rfl⟩

theorem Forwarder.pass_cases (f : Forwarder) (ok : Bool) (p : Passed) (next : ℕ) :
    f.pass ok p next =
        .forwarding { f with catchup := none, next := next, passed := f.passed ++ [p] } ∨
      f.pass ok p next = .gone := by
  unfold pass
  split
  · exact .inl rfl
  · exact .inr rfl

variable {batch : List FsEvent}

theorem Passed.of_recv {next next' pos : ℕ}
    {r : Recv (List FsEvent)}
    (hr : channel.recv next = some (r, next')) (hge : next ≤ pos) (hlt : pos < next')
    (hb : channel.sent[pos]? = some batch) (he : e ∈ batch) :
    e ∈ (Passed.live r).events ∨
      ∃ start stop, Passed.live r = .live (.lagged start stop) ∧ start ≤ pos ∧ pos < stop := by
  have hcovers := Broadcast.covers_of_recv hr hge hlt
  cases r with
  | value p a =>
    have ha := Broadcast.value_of_recv hr
    cases hcovers
    rw [hb] at ha
    exact .inl (Option.some.inj ha ▸ he)
  | lagged start stop => exact .inr ⟨start, stop, rfl, hcovers⟩

theorem Subscriber.Sound.gone : Sound s .gone :=
  ⟨Nat.zero_le _, nofun, nofun, nofun⟩

/-- **One round of a task.** -/
theorem Subscriber.Sound.forward (h : Sound s (.forwarding f))
    (hsub : f.forward s.channel ok = some sub) : Sound s sub := by
  rcases Forwarder.forward_cases hsub with ⟨batch, hb, rfl⟩ | ⟨r, next, hnone, hr, rfl⟩
  · rcases f.pass_cases ok (.catchup batch) f.next with heq | heq <;> rw [heq]
    · refine ⟨h.next, nofun, ?_, ?_⟩
      · rintro f' ⟨⟩
        rcases h.inOrder f rfl with ⟨hnil, -⟩ | ⟨-, -, hnone, -⟩
        · exact .inr ⟨batch, [], rfl, by rw [hnil]; rfl⟩
        · rw [hb] at hnone
          cases hnone
      · rintro f' n ⟨⟩ hn e he hlt
        refine Forwarder.accounts_pass (h.owed f n rfl hn e he hlt) ?_ ?_
        · intro b hb' he'
          rw [hb] at hb'
          exact Option.some.inj hb' ▸ he'
        · exact fun pos b hle _ _ => .inl hle
    · exact .gone
  · obtain ⟨-, hle⟩ := Broadcast.lt_of_recv hr
    rcases f.pass_cases ok (.live r) next with heq | heq <;> rw [heq]
    · refine ⟨hle, nofun, ?_, ?_⟩
      · rintro f' ⟨⟩
        rcases h.inOrder f rfl with ⟨-, hsome⟩ | ⟨batch, rs, -, hpassed⟩
        · rw [hnone] at hsome
          cases hsome
        · exact .inr ⟨batch, rs ++ [r], rfl, by rw [hpassed, map_append]; rfl⟩
      · rintro f' n ⟨⟩ hn e he hlt
        refine Forwarder.accounts_pass (h.owed f n rfl hn e he hlt) ?_ ?_
        · intro b hb
          rw [hnone] at hb
          cases hb
        · intro pos b hge hb he'
          rcases Nat.lt_or_ge pos next with hpos | hpos
          · exact .inr (Passed.of_recv hr hge hpos hb he')
          · exact .inl hpos
    · exact .gone

namespace HubState

variable {s s' : HubState} {l : HubStep}

theorem inv_init {cap : ℕ} (h : 0 < cap) : (init cap).Inv :=
  ⟨EventHub.logs_withCapacity h, fun _ => ⟨Nat.zero_le _, nofun, nofun, nofun⟩⟩

theorem Inv.setSub (hi : s.Inv) {i : ℕ} (h : sub.Sound s) : (s.setSub i sub).Inv := by
  refine ⟨hi.logs, fun j => ?_⟩
  simp only [HubState.setSub]
  by_cases hj : j = i
  · subst hj
    rw [update_self]
    exact { h with }
  · rw [update_of_ne hj]
    exact { hi.subs j with }

theorem Inv.append (hi : s.Inv) (now : ℕ) (raw : List (RelPath × EventKind))
    (hu : s.unsent = none) :
    Inv { s with hub := (s.hub.publish now raw).1, unsent := some (s.hub.publish now raw).2 } := by
  have hhistory : s.history = s.channel.sent.flatten := by
    rw [history, hu]
    exact append_nil _
  have hlogs : (s.hub.publish now raw).1.Logs
      (s.channel.sent.flatten ++ (s.hub.publish now raw).2) := by
    rw [← hhistory]
    exact .publish now raw hi.logs
  refine ⟨hlogs, fun i => ⟨(hi.subs i).next, ?_, (hi.subs i).inOrder, ?_⟩⟩
  · intro since e hsub
    obtain ⟨he, n, hn, hleft⟩ := (hi.subs i).refused since e hsub
    refine ⟨he, n, hn, (hlogs.left_iff _).mpr ?_⟩
    rw [hi.logs.left_iff, hhistory] at hleft
    rw [length_append, EventHub.logCap_publish]
    omega
  · intro f n hsub hn e he hlt
    rcases mem_append.mp he with hold | hnew
    · rcases (hi.subs i).owed f n hsub hn e (hhistory ▸ hold) hlt with h | h | h | ⟨b, hb, -⟩
      · exact .inl h
      · exact .inr (.inl h)
      · exact .inr (.inr (.inl h))
      · rw [hu] at hb
        cases hb
    · exact .inr (.inr (.inr ⟨_, rfl, hnew⟩))

theorem Inv.send (hi : s.Inv) (hu : s.unsent = some batch) :
    Inv { s with unsent := none, channel := s.channel.send batch } := by
  have hhistory :
      history { s with unsent := none, channel := s.channel.send batch } = s.history := by
    simp [history, hu, Broadcast.send]
  refine ⟨?_, fun i => ⟨?_, (hi.subs i).refused, (hi.subs i).inOrder, ?_⟩⟩
  · rw [hhistory]
    exact hi.logs
  · rw [Broadcast.tail_send]
    exact Nat.le_succ_of_le (hi.subs i).next
  · intro f n hsub hn e he hlt
    rw [hhistory] at he
    rcases (hi.subs i).owed f n hsub hn e he hlt with
      (h | h) | h | ⟨pos, b, hle, hb, he⟩ | ⟨b, hb, he⟩
    · exact .inl (.inl h)
    · exact .inl (.inr (h.send batch))
    · exact .inr (.inl h)
    · exact .inr (.inr (.inl ⟨pos, b, hle, s.channel.sent_send_of_lt batch hb, he⟩))
    · refine .inr (.inr (.inl ⟨s.channel.tail, batch, ?_, s.channel.sent_send_tail batch, ?_⟩))
      · have := (hi.subs i).next
        rwa [hsub] at this
      · rw [hu] at hb
        exact Option.some.inj hb ▸ he

theorem Inv.read (hi : s.Inv) {i session next : ℕ} {since : Option ℕ}
    (hsub : s.subs i = .joined session since next) {catchup : List FsEvent}
    (hread : s.hub.subscribe since = .ok catchup) :
    Subscriber.Sound s (.forwarding ⟨session, since, some catchup, next, []⟩) := by
  refine ⟨?_, nofun, ?_, ?_⟩
  · have := (hi.subs i).next
    rwa [hsub] at this
  · rintro f ⟨⟩
    exact .inl ⟨rfl, rfl⟩
  · rintro f n ⟨⟩ hn e he hlt
    subst hn
    exact .inr (.inl ⟨catchup, rfl, hi.logs.mem_catchup hread he hlt⟩)

/-- What a subscriber does. -/
inductive Acts (s : HubState) (i : ℕ) : HubStep → Subscriber → Prop
  | join {session : ℕ} {since : Option ℕ} (h : s.subs i = .absent) :
      Acts s i (.join i session since) (.joined session since s.channel.tail)
  | refuse {session next : ℕ} {since : Option ℕ} {e : ErrorCode}
      (h : s.subs i = .joined session since next) (he : s.hub.subscribe since = .error e) :
      Acts s i (.read i) (.refused since e)
  | read {session next : ℕ} {since : Option ℕ} {catchup : List FsEvent}
      (h : s.subs i = .joined session since next) (hread : s.hub.subscribe since = .ok catchup) :
      Acts s i (.read i) (.forwarding ⟨session, since, some catchup, next, []⟩)
  | forward {f : Forwarder} {ok : Bool} {sub : Subscriber} (h : s.subs i = .forwarding f)
      (hf : f.forward s.channel ok = some sub) : Acts s i (.forward i ok) sub

/-- What a step does. -/
inductive Steps (s : HubState) : HubStep → HubState → Prop
  | note {now : ℕ} {path : RelPath} {session : ℕ} :
      Steps s (.note now path session) { s with hub := s.hub.noteLocalWrite now path session }
  | append {now : ℕ} {raw : List (RelPath × EventKind)} (hu : s.unsent = none) :
      Steps s (.append now raw)
        { s with hub := (s.hub.publish now raw).1, unsent := some (s.hub.publish now raw).2 }
  | send {batch : List FsEvent} (hu : s.unsent = some batch) :
      Steps s .send { s with unsent := none, channel := s.channel.send batch }
  | acts {i : ℕ} {l : HubStep} {sub : Subscriber} (h : Acts s i l sub) : Steps s l (s.setSub i sub)

theorem steps_of_step (h : s.step l = some s') : Steps s l s' := by
  cases l with
  | note now path session =>
    cases h
    exact .note
  | append now raw =>
    obtain ⟨⟨hu, -⟩, rfl⟩ := of_guard h
    exact .append hu
  | send =>
    simp only [step] at h
    split at h
    · next batch hu =>
      cases h
      exact .send hu
    · cases h
  | join i session since =>
    simp only [step] at h
    split at h
    · next hsub =>
      cases h
      exact .acts (.join hsub)
    · cases h
  | read i =>
    simp only [step] at h
    split at h
    · next session since next hsub =>
      split at h
      · next e he =>
        cases h
        exact .acts (.refuse hsub he)
      · next catchup hread =>
        cases h
        exact .acts (.read hsub hread)
    · cases h
  | forward i ok =>
    simp only [step] at h
    split at h
    · next f hsub =>
      obtain ⟨sub, hf, rfl⟩ := Option.map_eq_some_iff.mp h
      exact .acts (.forward hsub hf)
    · cases h

/-- **A step keeps the invariant.** -/
theorem inv_step (hi : s.Inv) (h : s.step l = some s') : s'.Inv := by
  cases steps_of_step h with
  | note => exact ⟨{ hi.logs with }, fun i => { hi.subs i with }⟩
  | append hu => exact hi.append _ _ hu
  | send hu => exact hi.send hu
  | @acts i _ sub hacts =>
    refine hi.setSub ?_
    cases hacts with
    | join => exact ⟨le_rfl, nofun, nofun, nofun⟩
    | refuse hsub he =>
      refine ⟨Nat.zero_le _, ?_, nofun, nofun⟩
      rintro since' e' ⟨⟩
      exact hi.logs.left_of_refused he
    | read hsub hread => exact hi.read hsub hread
    | forward hsub hf => exact (hsub ▸ hi.subs i).forward hf

/-! ## What a step leaves alone -/

section Runs

variable {ρ : Run step} {n i : ℕ} {e : FsEvent} {f : Forwarder} {batch : List FsEvent}

/-- The subscriber is served, as far as this event goes, or its connection is gone. -/
def Served (s : HubState) (i : ℕ) (e : FsEvent) : Prop :=
  s.subs i = .gone ∨ ∃ f, s.subs i = .forwarding f ∧ (f.Handles e ∨ f.Resyncs s.channel e)

theorem inv_of_run {cap : ℕ} (hcap : 0 < cap) (h₀ : ρ.state 0 = init cap) (n : ℕ) :
    (ρ.state n).Inv := by
  have hmeets : ρ.Meets fun _ _ => True := fun _ _ _ => trivial
  have hreach := ρ.reaches hmeets n
  rw [h₀] at hreach
  exact hreach.invariant Inv (inv_init hcap) fun _ _ _ hi _ h => inv_step hi h

end Runs

end HubState

end AlloyFs
