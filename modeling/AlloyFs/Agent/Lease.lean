import AlloyFs.Agent.LockRun
import Mathlib.Order.Nat

/-!
# Leases

The server frees the locks and handles of a session that has not been heard of for a while.  A task
looks at all sessions every five seconds, and compares the clock with the time at which each last
began to handle a request.

The loop that serves a connection answers a `Ping` by itself.  Only requests are handed to the
session, so only they count: the heartbeat of a client keeps its connection and not its lease.

This module follows the clock, the frames and the reaper beside the lock server, and says exactly
when a session is freed.
-/

namespace AlloyFs

open Function

/-- What a client sends. -/
inductive ClientFrame
  | ping
  | request
deriving DecidableEq

/-- The lock server with a clock in milliseconds.  The last three fields are the history. -/
structure LeaseServer where
  server : LockServer
  now : ℕ
  /-- when each session last began to handle a request -/
  lastSeen : ℕ → ℕ
  /-- requests handed to a session that has not begun to handle them -/
  pending : List ℕ
  nextTick : ℕ
  /-- the sessions that the reaper has yet to look at in its round -/
  round : List ℕ
  /-- frames by session and time -/
  frames : List (ℕ × ℕ)
  /-- requests by session and time; a new session counts as one -/
  handled : List (ℕ × ℕ)
  /-- sessions freed by the reaper -/
  reaped : List ℕ

inductive LeaseStep
  | advance (millis : ℕ)
  | connect
  /-- the loop of `serve_connection` reads a frame -/
  | frame (session : ℕ) (frame : ClientFrame)
  /-- the task of a request begins -/
  | handle (session : ℕ)
  /-- a step of a task of the lock server, or the end of a connection -/
  | work (l : LockStep)
  | tick (order : List ℕ)
  | examine
  /-- the second half of `force_release` -/
  | clear (session : ℕ)

namespace LeaseServer

/-- How often the reaper looks. -/
def reapEvery : ℕ := 5000

def init : LeaseServer where
  server := .init
  now := 0
  lastSeen := fun _ => 0
  pending := []
  nextTick := 0
  round := []
  frames := []
  handled := []
  reaped := []

/-- The sessions of the registry. -/
def sessions (s : LeaseServer) : List ℕ :=
  (List.range s.server.nextSession).filter s.server.connected

/-- What belongs to the connections or to the reaper is not a task of the lock server. -/
def taskStep : LockStep → Bool
  | .connect => false
  | .freeLocks _ disconnect => disconnect
  | .freeHandles _ disconnect => disconnect
  | _ => true

/-- The time since a session was last seen. -/
def elapsed (s : LeaseServer) (session : ℕ) : ℕ := s.now - s.lastSeen session

/-- One step, with the lease in milliseconds. -/
def step (lease : ℕ) (s : LeaseServer) : LeaseStep → Option LeaseServer
  | .advance millis => some { s with now := s.now + millis }
  | .connect =>
    let session := s.server.nextSession
    match s.server.step .connect with
    | some server => some { s with
        server
        lastSeen := update s.lastSeen session s.now
        frames := (session, s.now) :: s.frames
        handled := (session, s.now) :: s.handled }
    | none => none
  | .frame session frame =>
    if s.server.connected session then
      some { s with
        pending := match frame with
          | .ping => s.pending
          | .request => session :: s.pending
        frames := (session, s.now) :: s.frames }
    else none
  | .handle session =>
    if session ∈ s.pending then
      some { s with
        lastSeen := update s.lastSeen session s.now
        pending := s.pending.erase session
        handled := (session, s.now) :: s.handled }
    else none
  | .work l =>
    if taskStep l then (s.server.step l).map ({ s with server := · }) else none
  | .tick order =>
    if s.round = [] ∧ s.nextTick ≤ s.now ∧ order.Perm s.sessions then
      some { s with nextTick := s.nextTick + reapEvery, round := order }
    else none
  | .examine =>
    match s.round with
    | [] => none
    | session :: rest =>
      if s.server.connected session = true ∧ lease < s.elapsed session then
        (s.server.step (.freeLocks session false)).map
          ({ s with server := ·, round := rest, reaped := session :: s.reaped })
      else some { s with round := rest }
  | .clear session => (s.server.step (.freeHandles session false)).map ({ s with server := · })

/-- The frames of a connected session come in at most fifteen seconds apart. -/
def lively (session : ℕ) (s : LeaseServer) : LeaseStep → Prop
  | .advance millis => s.server.connected session = true →
      ∃ f ∈ s.frames, f.1 = session ∧ s.now + millis ≤ f.2 + 15000
  | _ => True

/-- When the reaper looks at the session, it has begun to handle a request within the lease. -/
def busy (lease session : ℕ) (s : LeaseServer) : LeaseStep → Prop
  | .examine => s.round.head? = some session → s.server.connected session = true →
      ∃ r ∈ s.handled, r.1 = session ∧ s.now ≤ r.2 + lease
  | _ => True

instance (session : ℕ) (s : LeaseServer) : ∀ l, Decidable (s.lively session l) := fun l => by
  unfold lively
  split <;> infer_instance

instance (lease session : ℕ) (s : LeaseServer) :
    ∀ l, Decidable (s.busy lease session l) := fun l => by
  unfold busy
  split <;> infer_instance

/-! ## The time of the last request -/

/-- `lastSeen` is the time of the last request, and no request is in the future. -/
structure Inv (s : LeaseServer) : Prop where
  past : ∀ r ∈ s.handled, r.2 ≤ s.now
  last : ∀ r ∈ s.handled, r.2 ≤ s.lastSeen r.1
  seen : ∀ session, s.server.connected session = true → (session, s.lastSeen session) ∈ s.handled
  /-- a request that is to be handled belongs to a session that there was -/
  known : ∀ session ∈ s.pending, ∃ r ∈ s.handled, r.1 = session

variable {lease : ℕ} {s s' : LeaseServer}

theorem inv_init : Inv init := ⟨nofun, nofun, nofun, nofun⟩

theorem Inv.handle (hi : s.Inv) (session : ℕ) {pending : List ℕ}
    (hp : ∀ p ∈ pending, p ∈ s.pending) :
    Inv { s with
      lastSeen := update s.lastSeen session s.now
      pending
      handled := (session, s.now) :: s.handled } := by
  refine ⟨?_, ?_, ?_, ?_⟩
  · intro r hr
    rcases List.mem_cons.mp hr with rfl | hr
    · exact le_rfl
    · exact hi.past r hr
  · intro r hr
    dsimp only
    by_cases h : r.1 = session
    · rw [h, update_self]
      rcases List.mem_cons.mp hr with rfl | hr
      · exact le_rfl
      · exact hi.past r hr
    · rw [update_of_ne h]
      rcases List.mem_cons.mp hr with rfl | hr
      · exact absurd rfl h
      · exact hi.last r hr
  · intro session' hc
    dsimp only
    by_cases h : session' = session
    · rw [h, update_self]
      exact List.mem_cons_self
    · rw [update_of_ne h]
      exact List.mem_cons_of_mem _ (hi.seen session' hc)
  · intro p hp'
    obtain ⟨r, hr, he⟩ := hi.known p (hp p hp')
    exact ⟨r, List.mem_cons_of_mem _ hr, he⟩

/-- What the lock server does, other than to take a new connection, connects nobody. -/
theorem connected_of_step {t t' : LockServer} {l : LockStep} (hl : l ≠ .connect)
    (h : t.step l = some t') {session : ℕ} (hc : t'.connected session = true) :
    t.connected session = true := by
  cases l with
  | connect => exact absurd rfl hl
  | freeHandles session' disconnect =>
    obtain ⟨-, rfl⟩ := of_guard h
    cases disconnect with
    | false => exact hc
    | true =>
      simp only [if_true] at hc
      by_cases he : session = session'
      · rw [he, update_self] at hc
        cases hc
      · rwa [update_of_ne he] at hc
  | openFile _ _ =>
    cases h
    exact hc
  | _ =>
    simp only [LockServer.step] at h
    repeat' split at h
    all_goals first | cases h; exact hc | cases h

theorem Inv.of_server (hi : s.Inv) (hh : s'.handled = s.handled) (hn : s.now ≤ s'.now)
    (hl : s'.lastSeen = s.lastSeen) (hp : s'.pending = s.pending)
    (hc : ∀ session, s'.server.connected session = true → s.server.connected session = true) :
    s'.Inv := by
  refine ⟨?_, ?_, ?_, ?_⟩
  · intro r hr
    rw [hh] at hr
    exact (hi.past r hr).trans hn
  · intro r hr
    rw [hh] at hr
    rw [hl]
    exact hi.last r hr
  · intro session h
    rw [hh, hl]
    exact hi.seen session (hc session h)
  · rw [hh, hp]
    exact hi.known

theorem inv_step {l : LeaseStep} (hi : s.Inv) (h : s.step lease l = some s') : s'.Inv := by
  cases l with
  | advance millis =>
    cases h
    exact hi.of_server rfl (Nat.le_add_right _ _) rfl rfl fun _ hc => hc
  | connect =>
    cases h
    obtain ⟨hpast, hlast, hseen, hknown⟩ := hi.handle s.server.nextSession fun p hp => hp
    refine ⟨hpast, hlast, fun session hc => ?_, hknown⟩
    dsimp only at hc ⊢
    by_cases he : session = s.server.nextSession
    · rw [he, update_self]
      exact List.mem_cons_self
    · rw [update_of_ne he] at hc
      exact hseen session hc
  | frame session frame =>
    obtain ⟨hc, rfl⟩ := of_guard h
    refine ⟨hi.past, hi.last, hi.seen, fun p hp => ?_⟩
    cases frame with
    | ping => exact hi.known p hp
    | request =>
      rcases List.mem_cons.mp hp with rfl | hp
      · exact ⟨_, hi.seen p hc, rfl⟩
      · exact hi.known p hp
  | handle session =>
    obtain ⟨-, rfl⟩ := of_guard h
    exact hi.handle session fun p hp => List.mem_of_mem_erase hp
  | work l =>
    simp only [step] at h
    split at h
    · next hl =>
      obtain ⟨server, hs, rfl⟩ := Option.map_eq_some_iff.mp h
      refine hi.of_server rfl le_rfl rfl rfl fun session hc => connected_of_step ?_ hs hc
      rintro rfl
      cases hl
    · cases h
  | tick order =>
    obtain ⟨-, rfl⟩ := of_guard h
    exact hi.of_server rfl le_rfl rfl rfl fun _ hc => hc
  | examine =>
    simp only [step] at h
    split at h
    · cases h
    · split at h
      · obtain ⟨server, hs, rfl⟩ := Option.map_eq_some_iff.mp h
        exact hi.of_server rfl le_rfl rfl rfl fun session hc => connected_of_step (by nofun) hs hc
      · cases h
        exact hi.of_server rfl le_rfl rfl rfl fun _ hc => hc
  | clear session =>
    obtain ⟨server, hs, rfl⟩ := Option.map_eq_some_iff.mp h
    exact hi.of_server rfl le_rfl rfl rfl fun session hc => connected_of_step (by nofun) hs hc

/-! ## When a session is freed -/

theorem Inv.elapsed_lt (hi : s.Inv) {session : ℕ} (hc : s.server.connected session = true) :
    lease < s.elapsed session ↔ ¬ ∃ r ∈ s.handled, r.1 = session ∧ s.now ≤ r.2 + lease := by
  have hseen := hi.seen session hc
  rw [elapsed]
  constructor
  · rintro h ⟨r, hr, rfl, hle⟩
    have := hi.last r hr
    omega
  · intro h
    by_contra hle
    exact h ⟨_, hseen, rfl, by dsimp only; omega⟩

theorem reaped_step {l : LeaseStep} (h : s.step lease l = some s') (session : ℕ) :
    session ∈ s'.reaped ↔ session ∈ s.reaped ∨ l = .examine ∧ s.round.head? = some session ∧
      s.server.connected session = true ∧ lease < s.elapsed session := by
  cases l with
  | examine =>
    simp only [step] at h
    split at h
    · cases h
    · next session' rest hr =>
      rw [hr]
      split at h
      · next hcond =>
        obtain ⟨server, hs, rfl⟩ := Option.map_eq_some_iff.mp h
        simp only [List.mem_cons, List.head?_cons, Option.some.injEq, true_and]
        constructor
        · rintro (rfl | hm)
          · exact .inr ⟨rfl, hcond⟩
          · exact .inl hm
        · rintro (hm | ⟨rfl, -⟩)
          · exact .inr hm
          · exact .inl rfl
      · next hcond =>
        cases h
        refine ⟨.inl, fun hm => hm.elim id ?_⟩
        rintro ⟨-, he, hc⟩
        cases he
        exact absurd hc hcond
  | advance | connect =>
    cases h
    exact ⟨.inl, fun hm => hm.elim id nofun⟩
  | frame | handle | tick =>
    obtain ⟨-, rfl⟩ := of_guard h
    exact ⟨.inl, fun hm => hm.elim id nofun⟩
  | work =>
    simp only [step] at h
    split at h
    · obtain ⟨server, hs, rfl⟩ := Option.map_eq_some_iff.mp h
      exact ⟨.inl, fun hm => hm.elim id nofun⟩
    · cases h
  | clear =>
    obtain ⟨server, hs, rfl⟩ := Option.map_eq_some_iff.mp h
    exact ⟨.inl, fun hm => hm.elim id nofun⟩

/-- **A session keeps its lease** in every run in which it has begun to handle a request within the
lease whenever the reaper looks at it; and it loses it the first time that it has not. -/
theorem kept_of_busy {session : ℕ}
    (h : Reaches (step lease) (fun s l => s.busy lease session l) init s) :
    session ∉ s.reaped ∧
      ∀ l s', ¬ s.busy lease session l → s.step lease l = some s' → session ∈ s'.reaped := by
  have hinv := h.invariant (fun s => s.Inv ∧ session ∉ s.reaped) ⟨inv_init, List.not_mem_nil⟩
    fun t l t' ⟨hi, hno⟩ hok hs => by
      refine ⟨inv_step hi hs, fun hm => ?_⟩
      rcases (reaped_step hs session).mp hm with hm | ⟨rfl, hhead, hc, hlt⟩
      · exact hno hm
      · exact (hi.elapsed_lt hc).mp hlt (hok hhead hc)
  obtain ⟨hi, hno⟩ := hinv
  refine ⟨hno, fun l s' hbusy hs => (reaped_step hs session).mpr (.inr ?_)⟩
  cases l with
  | examine =>
    simp only [busy, Classical.not_imp] at hbusy
    obtain ⟨hhead, hc, hbusy⟩ := hbusy
    exact ⟨rfl, hhead, hc, (hi.elapsed_lt hc).mpr hbusy⟩
  | _ => exact absurd trivial hbusy

/-! ## Small runs -/

/-- A client connects, opens a file and locks it. -/
def takesLock : List LeaseStep :=
  [.connect, .work (.openFile 1 ⟨['a']⟩), .frame 1 .request, .handle 1,
    .work (.lockLookup 1 1 .exclusive false), .work (.lockAttempt 0), .tick [1], .examine]

/-- Ten seconds with a heartbeat at their end, and the reaper at work. -/
def heartbeat : List LeaseStep :=
  [.advance 5000, .tick [1], .examine, .advance 5000, .tick [1], .examine, .frame 1 .ping]

/-- What is seen of the first session and its file. -/
structure Status where
  now : ℕ
  connected : Bool
  reaped : List ℕ
  holders : List Holder
deriving DecidableEq

def status (s : LeaseServer) : Status :=
  ⟨s.now, s.server.connected 1, s.reaped, s.server.locks.holders ⟨['a']⟩⟩

/-- A client that sends a request after twenty seconds still has its lock after forty. -/
theorem kept_of_request : ∃ s : LeaseServer, 1 ∉ s.reaped ∧
    s.status = ⟨40000, true, [], [⟨1, 1, .exclusive⟩]⟩ :=
  exists_of_run (takesLock ++ heartbeat ++ heartbeat ++ [.frame 1 .request, .handle 1] ++
    heartbeat ++ heartbeat)
    (show Allowed (step 30000) (fun s l => s.busy 30000 1 l) _ _ by decide +kernel)
    (fun _ hs => (kept_of_busy hs).1) (by decide +kernel)

/-- A client that holds a lock and does nothing: its heartbeats come in every ten seconds, and after
thirty-five it is freed. -/
theorem reaped_while_lively : ∃ s, Reaches (step 30000) (fun s l => s.lively 1 l) init s ∧
    s.status = ⟨35000, true, [1], []⟩ :=
  exists_reaches_of_exec (takesLock ++ heartbeat ++ heartbeat ++ heartbeat ++
    [.advance 5000, .tick [1], .examine, .clear 1]) status _ (by decide +kernel) (by decide +kernel)

end LeaseServer

end AlloyFs
