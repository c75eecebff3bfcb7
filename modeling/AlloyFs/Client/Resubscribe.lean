import AlloyFs.Client.EventTasks

/-!
# The event stream comes back

In a fair run in which no ping is sent on a connection that has been torn down, and in which the
pump notes the epoch before the next one is counted, the pump subscribes on every connection that
the supervisor puts in place and that stays.

The safety half says where the pump can be: with the connection in place, or with an earlier one
that has ended, and then with an epoch behind the one there is or is about to be.  The progress half
follows the supervisor to the new connection and then the pump through its states: the reader of the
old connection drops whoever waits, the callers leave, the last sender is gone, the pump wakes, and
subscribes.
-/

namespace AlloyFs

open Function

/-- The supervisor is at ease with this connection. -/
def Supervisor.atRest : Supervisor → Option ℕ
  | .watching k => some k
  | .swapped k => some k
  | _ => none

/-- The connection that the supervisor has dialled. -/
def Supervisor.fetched : Supervisor → Option ℕ
  | .attaching k => some k
  | .reopening k _ => some k
  | _ => none

/-- A connection is in place, and its epoch not yet counted. -/
def Supervisor.pending : Supervisor → Bool
  | .swapped _ => true
  | _ => false

/-- The supervisor is putting this connection in place, or has done so. -/
def Supervisor.installs (k : ℕ) : Supervisor → Prop
  | .watching c => c = k
  | .reopening c _ => c = k
  | .swapped c => c = k
  | _ => False

/-- How many steps that takes. -/
def Supervisor.toGo : Supervisor → ℕ
  | .reopening _ left => left + 2
  | .swapped _ => 1
  | _ => 0

/-- The connection whose events the pump is after. -/
def EventPump.conn : EventPump → Option ℕ
  | .receiving k _ => some k
  | .lost _ => none
  | .resuming k => some k
  | .awaiting k => some k
  | .capturing k => some k

/-- Who takes a step. -/
inductive TaskKind
  | clock
  | conn
  | supervisor
  | pump

def EventStep.kind : EventStep → TaskKind
  | .advance _ => .clock
  | .eof _ | .clear _ | .writeFails _ | .beat _ | .pong _ | .begin | .answer _ | .fail _ => .conn
  | .notice | .dial _ | .attach _ _ | .reopen | .swap | .bump => .supervisor
  | .drained | .wake | .subscribe | .respond | .capture => .pump

theorem EventTask.kind_of_supervisor {l : EventStep} (hl : EventTask.supervisor.runs l) :
    l.kind = .supervisor := by
  simp only [runs, List.mem_cons, List.not_mem_nil, or_false] at hl
  rcases hl with rfl | rfl | rfl | rfl <;> rfl

theorem EventTask.pump_runs_iff {l : EventStep} : EventTask.pump.runs l ↔ l.kind = .pump := by
  cases l <;> simp [runs, EventStep.kind]

variable {k : ℕ}

namespace EventTasks

/-- How often a connection was put in place. -/
def swaps (s : EventTasks) : ℕ := s.epoch + if s.supervisor.pending then 1 else 0

/-- What holds of the connections and the supervisor. -/
structure Steady (s : EventTasks) : Prop where
  lt : s.current < s.next
  rest : ∀ k ∈ s.supervisor.atRest, k = s.current
  fetched : ∀ k ∈ s.supervisor.fetched, k < s.next
  busy : s.supervisor.atRest = none → (s.conns s.current).reader ≠ .reading
  /-- no ping is left behind -/
  quiet : ∀ k, (s.conns k).reader = .ended → (s.conns k).beat.holds = false

/-- Where the pump is. -/
structure Following (s : EventTasks) : Prop where
  lt : ∀ k ∈ s.pump.conn, k < s.next
  between : ∀ k ∈ s.pump.between, k = s.current ∨ s.supervisor.pending = true
  noted : ∀ k e, s.pump = .receiving k e → e ≤ s.epoch ∧ (k = s.current ∨ e < s.swaps)
  lost : ∀ e, s.pump = .lost e → e < s.swaps
  closed : ∀ k ∈ s.pump.conn, k = s.current ∨ (s.conns k).reader ≠ .reading
  sent : ∀ k ∈ s.pump.conn, (∀ k, s.pump ≠ .resuming k) →
    k ∈ s.subscribed ∨ (s.conns k).reader ≠ .reading

variable {s s' : EventTasks} {l : EventStep} {r e c : ℕ}

theorem steady_init : Steady init := by
  refine ⟨Nat.zero_lt_one, ?_, nofun, nofun, fun k => ?_⟩
  · intro k hk
    cases hk
    rfl
  · by_cases hk : k = 0
    · rw [hk]
      nofun
    · simp only [init, update_of_ne hk]
      exact fun _ => rfl

theorem following_init : Following init := by
  refine ⟨?_, ?_, nofun, nofun, ?_, ?_⟩ <;> intro k hk <;> cases hk
  · exact Nat.zero_lt_one
  · exact .inl rfl
  · exact .inl rfl
  · exact fun _ => .inl List.mem_cons_self

/-! ## Steps of connections -/

theorem quiet_setConn (hi : s.Steady) {mux : Mux}
    (h : mux.reader = .ended → mux.beat.holds = false) :
    ∀ k', ((s.setConn k mux).conns k').reader = .ended →
      ((s.setConn k mux).conns k').beat.holds = false := by
  intro k'
  simp only [setConn]
  by_cases he : k' = k
  · subst he
    rw [update_self]
    exact h
  · rw [update_of_ne he]
    exact hi.quiet k'

theorem inv_setConn (hs : s.Steady) (hf : s.Following) {mux : Mux}
    (hreader : (s.conns k).reader ≠ .reading → mux.reader ≠ .reading)
    (hquiet : mux.reader = .ended → mux.beat.holds = false) :
    (s.setConn k mux).Steady ∧ (s.setConn k mux).Following := by
  have hforward (k' : ℕ) (hk' : (s.conns k').reader ≠ .reading) :
      ((s.setConn k mux).conns k').reader ≠ .reading := by
    simp only [setConn]
    by_cases he : k' = k
    · subst he
      rw [update_self]
      exact hreader hk'
    · rwa [update_of_ne he]
  constructor
  · exact { hs with
      busy := fun h => hforward _ (hs.busy h)
      quiet := quiet_setConn hs hquiet }
  · exact { hf with
      closed := fun k hk => (hf.closed k hk).imp_right (hforward k)
      sent := fun k hk h => (hf.sent k hk h).imp_right (hforward k) }

theorem dropped_holds (b : Heartbeat) : b.dropped.holds = false := by cases b <;> rfl

theorem tick_holds (hok : s.pumpOk (.beat k)) (h : (s.conns k).reader = .ended) :
    (s.tick k).holds = false := by
  rw [tick]
  cases hr : s.referenced k with
  | false => rfl
  | true => rw [hok h hr]; rfl

/-- What a step of a connection does to it. -/
structure Turned (s : EventTasks) (l : EventStep) (k : ℕ) (mux : Mux) : Prop where
  reader : mux.reader = (s.conns k).reader ∨ (s.conns k).reader = .reading ∨
    (s.conns k).reader = .closing ∧ mux.reader = .ended
  clear : l = .clear k → mux.reader = .ended
  callers : mux.callers ≤ (s.conns k).callers ∨ k = s.current
  fail : l = .fail k → mux.callers < (s.conns k).callers
  /-- a connection that has ended has no ping left -/
  quiet : s.Steady → s.pumpOk l → mux.reader = .ended → mux.beat.holds = false
  own : ∀ k', l = .clear k' ∨ l = .fail k' → k' = k
  forward : (s.conns k).reader ≠ .reading → mux.reader ≠ .reading

theorem turned_of_step (hl : l.kind = .conn) (h : s.step l = some s') :
    ∃ k mux, s' = s.setConn k mux ∧ s.Turned l k mux := by
  cases l <;> first | (cases hl; done) | simp only [step] at h
  case eof k =>
    obtain ⟨hr, rfl⟩ := of_guard h
    exact ⟨k, _, rfl, .inr (.inl hr), nofun, .inl le_rfl, nofun, nofun, by simp,
      fun _ => nofun⟩
  case clear k =>
    obtain ⟨hr, rfl⟩ := of_guard h
    exact ⟨k, _, rfl, .inr (.inr ⟨hr, rfl⟩), fun _ => rfl, .inl le_rfl, nofun,
      fun _ _ _ => dropped_holds _, by simp [eq_comm], fun _ => nofun⟩
  case writeFails k =>
    cases h
    exact ⟨k, _, rfl, .inl rfl, nofun, .inl le_rfl, nofun, fun hs _ => hs.quiet k, by simp,
      id⟩
  case beat k =>
    split at h
    · obtain ⟨hdue, rfl⟩ := of_guard h
      exact ⟨k, _, rfl, .inl rfl, nofun, .inl le_rfl, nofun, fun _ hok => tick_holds hok,
        by simp, id⟩
    · cases h
  case pong k =>
    split at h
    · cases h
      exact ⟨k, _, rfl, .inl rfl, nofun, .inl le_rfl, nofun, fun _ _ _ => rfl, by simp, id⟩
    · cases h
  case begin =>
    cases h
    exact ⟨s.current, _, rfl, .inl rfl, nofun, .inr rfl, nofun, fun hs _ => hs.quiet s.current,
      by simp, id⟩
  case answer k =>
    obtain ⟨hr, rfl⟩ := of_guard h
    exact ⟨k, _, rfl, .inl rfl, nofun, .inl (Nat.sub_le _ _), nofun,
        fun hs _ => hs.quiet k, by simp,
      id⟩
  case fail k =>
    obtain ⟨hr, rfl⟩ := of_guard h
    exact ⟨k, _, rfl, .inl rfl, nofun, .inl (Nat.sub_le _ _),
      fun _ => Nat.sub_lt hr.2 Nat.zero_lt_one, fun hs _ => hs.quiet k, by simp [eq_comm], id⟩

/-! ## Steps of the supervisor -/

/-- The supervisor moves, and neither the connection in place nor the epoch does. -/
theorem inv_supervisor (hs : s.Steady) (hf : s.Following) {sup : Supervisor}
    (hrest : ∀ k ∈ sup.atRest, k = s.current) (hfetched : ∀ k ∈ sup.fetched, k < s.next)
    (hbusy : sup.atRest = none → (s.conns s.current).reader ≠ .reading)
    (hpending : sup.pending = s.supervisor.pending) :
    Steady { s with supervisor := sup } ∧ Following { s with supervisor := sup } := by
  have hswaps : swaps { s with supervisor := sup } = s.swaps := by
    rw [swaps, swaps, hpending]
  constructor
  · exact { hs with rest := hrest, fetched := hfetched, busy := hbusy }
  · exact { hf with
      between := fun k hk => hpending ▸ hf.between k hk
      noted := fun k e he => hswaps ▸ hf.noted k e he
      lost := fun e he => hswaps ▸ hf.lost e he }

theorem inv_dialled (hs : s.Steady) (hf : s.Following) {delay wake : ℕ}
    (hsup : s.supervisor = .dialling delay wake) :
    Steady { s.setConn s.next (fresh s.now) with
      next := s.next + 1, supervisor := .attaching s.next } ∧
    Following { s.setConn s.next (fresh s.now) with
      next := s.next + 1, supervisor := .attaching s.next } := by
  have hbusy : (s.conns s.current).reader ≠ .reading := hs.busy (by rw [hsup]; rfl)
  have hold : ∀ k, k < s.next → (s.setConn s.next (fresh s.now)).conns k = s.conns k :=
    fun k hk => update_of_ne hk.ne _ _
  have hpending : s.supervisor.pending = false := by rw [hsup]; rfl
  have hswaps : s.swaps = s.epoch := by rw [swaps, hpending]; rfl
  refine ⟨⟨Nat.lt_succ_of_lt hs.lt, nofun, ?_, ?_, ?_⟩, ?_, ?_, ?_, ?_, ?_, ?_⟩
  · rintro k ⟨⟩
    exact Nat.lt_succ_self _
  · intro _
    exact (congrArg Mux.reader (hold _ hs.lt)).trans_ne hbusy
  · exact quiet_setConn hs nofun
  · exact fun k hk => Nat.lt_succ_of_lt (hf.lt k hk)
  · intro k hk
    exact .inl ((hf.between k hk).resolve_right (by rw [hpending]; nofun))
  · intro k e he
    have := hf.noted k e he
    rwa [hswaps] at this
  · intro e he
    have := hf.lost e he
    rwa [hswaps] at this
  · intro k hk
    simp only [hold k (hf.lt k hk)]
    exact hf.closed k hk
  · intro k hk hne
    simp only [hold k (hf.lt k hk)]
    exact hf.sent k hk hne

/-- The new connection is put in place: the pump is left with one that has ended. -/
theorem inv_swapped (hs : s.Steady) (hf : s.Following) {k left : ℕ}
    (hsup : s.supervisor = .reopening k left) :
    Steady { s with current := k, supervisor := .swapped k } ∧
    Following { s with current := k, supervisor := .swapped k } := by
  have hbusy : (s.conns s.current).reader ≠ .reading := hs.busy (by rw [hsup]; rfl)
  have hswaps : s.swaps = s.epoch := by
    rw [swaps, hsup]
    rfl
  refine ⟨⟨hs.fetched k (by rw [hsup]; rfl), ?_, nofun, nofun, hs.quiet⟩, hf.lt, ?_, ?_, ?_, ?_,
    hf.sent⟩
  · rintro k' ⟨⟩
    rfl
  · exact fun _ _ => .inr rfl
  · intro k' e he
    obtain ⟨hle, -⟩ := hf.noted k' e he
    exact ⟨hle, .inr (Nat.lt_succ_of_le hle)⟩
  · intro e he
    have := hf.lost e he
    rw [hswaps] at this
    exact Nat.lt_succ_of_lt this
  · intro k' hk'
    refine .inr ?_
    rcases hf.closed k' hk' with rfl | hne
    · exact hbusy
    · exact hne

theorem inv_bumped (hs : s.Steady) (hf : s.Following) (hsup : s.supervisor = .swapped k)
    (hok : s.pumpOk .bump) :
    Steady { s with epoch := s.epoch + 1, supervisor := .watching s.current } ∧
    Following { s with epoch := s.epoch + 1, supervisor := .watching s.current } := by
  have hswaps : s.swaps = s.epoch + 1 := by
    rw [swaps, hsup]
    rfl
  refine ⟨⟨hs.lt, ?_, nofun, nofun, hs.quiet⟩, hf.lt, ?_, ?_, ?_, hf.closed, hf.sent⟩
  · rintro k' ⟨⟩
    rfl
  · exact fun k' hk' => .inl (hok k' hk')
  · intro k' e he
    obtain ⟨hle, hlt⟩ := hf.noted k' e he
    rw [hswaps] at hlt
    exact ⟨Nat.le_succ_of_le hle, hlt⟩
  · intro e he
    have := hf.lost e he
    rwa [hswaps] at this

/-- What the supervisor does. -/
inductive Supervised (s : EventTasks) : EventStep → EventTasks → Prop
  | noticed {k : ℕ} (hsup : s.supervisor = .watching k) (hr : (s.conns k).reader ≠ .reading) :
      Supervised s .notice { s with supervisor := .dialling 500 s.now }
  | failed {delay wake delay' wake' : ℕ} (hsup : s.supervisor = .dialling delay wake) :
      Supervised s (.dial false) { s with supervisor := .dialling delay' wake' }
  | dialled {delay wake : ℕ} (hsup : s.supervisor = .dialling delay wake) :
      Supervised s (.dial true) { s.setConn s.next (fresh s.now) with
        next := s.next + 1, supervisor := .attaching s.next }
  | attached {k handles : ℕ} (hsup : s.supervisor = .attaching k) :
      Supervised s (.attach true handles) { s with supervisor := .reopening k handles }
  | refused {k handles : ℕ} (hsup : s.supervisor = .attaching k) :
      Supervised s (.attach false handles) { s with supervisor := .watching s.current }
  | reopened {k left : ℕ} (hsup : s.supervisor = .reopening k (left + 1)) :
      Supervised s .reopen { s with supervisor := .reopening k left }
  | swapped {k : ℕ} (hsup : s.supervisor = .reopening k 0) :
      Supervised s .swap { s with current := k, supervisor := .swapped k }
  | bumped {k : ℕ} (hsup : s.supervisor = .swapped k) :
      Supervised s .bump { s with epoch := s.epoch + 1, supervisor := .watching s.current }

theorem supervised_of_step (hl : l.kind = .supervisor) (h : s.step l = some s') :
    Supervised s l s' := by
  cases l <;> first | (cases hl; done) | (simp only [step] at h; split at h) <;> rename_i hsup
  · split at h
    · cases h
    · rename_i hr
      cases h
      exact .noticed hsup hr
  · cases h
  · rename_i ok _ delay wake
    obtain ⟨-, h⟩ := Option.ite_none_right_eq_some.mp h
    cases ok with
    | true =>
      cases h
      exact .dialled hsup
    | false =>
      cases h
      exact .failed hsup
  · cases h
  · rename_i ok handles _ k
    cases h
    cases ok with
    | true => exact .attached hsup
    | false => exact .refused hsup
  · cases h
  · cases h
    exact .reopened hsup
  · cases h
  · cases h
    exact .swapped hsup
  · cases h
  · cases h
    exact .bumped hsup
  · cases h

theorem Supervised.inv (h : Supervised s l s') (hs : s.Steady) (hf : s.Following)
    (hok : s.pumpOk l) : s'.Steady ∧ s'.Following := by
  cases h with
  | @noticed k hsup hr =>
    refine inv_supervisor hs hf nofun nofun (fun _ => ?_) (by rw [hsup]; rfl)
    rwa [← hs.rest k (by rw [hsup]; rfl)]
  | failed hsup =>
    exact inv_supervisor hs hf nofun nofun (fun _ => hs.busy (by rw [hsup]; rfl))
      (by rw [hsup]; rfl)
  | dialled hsup => exact inv_dialled hs hf hsup
  | @attached k handles hsup =>
    refine inv_supervisor hs hf nofun ?_ (fun _ => hs.busy (by rw [hsup]; rfl)) (by rw [hsup]; rfl)
    rintro k' ⟨⟩
    exact hs.fetched k (by rw [hsup]; rfl)
  | refused hsup =>
    refine inv_supervisor hs hf ?_ nofun nofun (by rw [hsup]; rfl)
    rintro k' ⟨⟩
    rfl
  | @reopened k left hsup =>
    refine inv_supervisor hs hf nofun ?_ (fun _ => hs.busy (by rw [hsup]; rfl)) (by rw [hsup]; rfl)
    rintro k' ⟨⟩
    exact hs.fetched k (by rw [hsup]; rfl)
  | swapped hsup => exact inv_swapped hs hf hsup
  | bumped hsup => exact inv_bumped hs hf hsup hok

/-! ## Steps of the pump -/

/-- What the pump does next. -/
def pumpNext (s : EventTasks) : EventPump :=
  match s.pump with
  | .receiving _ epoch => .lost epoch
  | .lost _ => .resuming s.current
  | .resuming k => if (s.conns k).reader = .reading then .awaiting k else .capturing k
  | .awaiting k => .capturing k
  | .capturing k => .receiving k s.epoch

/-- What the pump does: where it goes, and what is subscribed then. -/
inductive Pumped (s : EventTasks) : EventPump → List ℕ → Prop
  | drained {k e : ℕ} (hp : s.pump = .receiving k e) (hsenders : ¬ s.senders k = true) :
      Pumped s (.lost e) s.subscribed
  | woken {e : ℕ} (hp : s.pump = .lost e) : Pumped s (.resuming s.current) s.subscribed
  | subscribed {k : ℕ} (hp : s.pump = .resuming k) (hr : (s.conns k).reader = .reading) :
      Pumped s (.awaiting k) (k :: s.subscribed)
  | refused {k : ℕ} (hp : s.pump = .resuming k) (hr : (s.conns k).reader ≠ .reading) :
      Pumped s (.capturing k) s.subscribed
  | answered {k : ℕ} (hp : s.pump = .awaiting k) : Pumped s (.capturing k) s.subscribed
  | captured {k : ℕ} (hp : s.pump = .capturing k) : Pumped s (.receiving k s.epoch) s.subscribed

theorem pumped_of_step (hl : EventTask.pump.runs l) (h : s.step l = some s') :
    ∃ pump subs, s' = { s with pump := pump, subscribed := subs } ∧ s.Pumped pump subs := by
  simp only [EventTask.runs, List.mem_cons, List.not_mem_nil, or_false] at hl
  rcases hl with rfl | rfl | rfl | rfl | rfl <;> simp only [step] at h <;> split at h <;>
    first | (cases h; done) | rename_i hp
  · obtain ⟨hsenders, rfl⟩ := of_guard_not h
    exact ⟨_, _, rfl, .drained hp hsenders⟩
  · obtain ⟨-, rfl⟩ := of_guard h
    exact ⟨_, _, rfl, .woken hp⟩
  · split at h <;> rename_i hr <;> cases h
    · exact ⟨_, _, rfl, .subscribed hp hr⟩
    · exact ⟨_, _, rfl, .refused hp hr⟩
  · cases h
    exact ⟨_, _, rfl, .answered hp⟩
  · cases h
    exact ⟨_, _, rfl, .captured hp⟩

variable {pump : EventPump} {subs : List ℕ}

theorem Pumped.next (h : s.Pumped pump subs) : pump = s.pumpNext := by
  cases h <;> simp [pumpNext, *]

theorem Following.goes_on (hf : s.Following) (hconn : k ∈ s.pump.conn)
    (hbetween : k ∈ s.pump.between) (hp : pump = .awaiting k ∨ pump = .capturing k)
    (hsent : k ∈ subs ∨ (s.conns k).reader ≠ .reading) :
    Following { s with pump := pump, subscribed := subs } := by
  rcases hp with rfl | rfl <;> refine ⟨?_, ?_, nofun, nofun, ?_, ?_⟩ <;> rintro k' ⟨⟩
  any_goals exact hf.lt k hconn
  any_goals exact hf.between k hbetween
  any_goals exact hf.closed k hconn
  all_goals exact fun _ => hsent

theorem Pumped.following (h : s.Pumped pump subs) (hs : s.Steady) (hf : s.Following) :
    Following { s with pump := pump, subscribed := subs } := by
  cases h with
  | @drained k e hp hsenders =>
    refine ⟨nofun, nofun, nofun, ?_, nofun, nofun⟩
    rintro e' ⟨⟩
    refine (hf.noted k e hp).2.resolve_left ?_
    rintro rfl
    simp [senders, referenced] at hsenders
  | woken hp =>
    refine ⟨?_, ?_, nofun, nofun, ?_, fun _ _ hne => absurd rfl (hne _)⟩ <;> rintro k ⟨⟩
    · exact hs.lt
    · exact .inl rfl
    · exact .inl rfl
  | subscribed hp hr =>
    exact hf.goes_on (by rw [hp]; rfl) (by rw [hp]; rfl) (.inl rfl) (.inl List.mem_cons_self)
  | refused hp hr => exact hf.goes_on (by rw [hp]; rfl) (by rw [hp]; rfl) (.inr rfl) (.inr hr)
  | answered hp =>
    exact hf.goes_on (by rw [hp]; rfl) (by rw [hp]; rfl) (.inr rfl)
      (hf.sent _ (by rw [hp]; rfl) (by rw [hp]; nofun))
  | @captured k hp =>
    have hconn : k ∈ s.pump.conn := by rw [hp]; rfl
    refine ⟨?_, nofun, ?_, nofun, ?_, ?_⟩
    · rintro k' ⟨⟩
      exact hf.lt k hconn
    · rintro k' e ⟨⟩
      refine ⟨le_rfl, (hf.between k (by rw [hp]; rfl)).imp_right fun hpending => ?_⟩
      simp only [swaps, hpending]
      exact Nat.lt_succ_self _
    · rintro k' ⟨⟩
      exact hf.closed k hconn
    · rintro k' ⟨⟩ _
      exact hf.sent k hconn (by rw [hp]; nofun)

/-- What a step is: one of the clock, of a connection, of the supervisor or of the pump. -/
theorem step_cases (h : s.step l = some s') :
    (∃ millis, l = .advance millis ∧ s' = { s with now := s.now + millis }) ∨
    (l.kind = .conn ∧ ∃ k mux, s' = s.setConn k mux ∧ s.Turned l k mux) ∨
    Supervised s l s' ∨ EventTask.pump.runs l ∧
      ∃ pump subs, s' = { s with pump := pump, subscribed := subs } ∧ s.Pumped pump subs := by
  cases hl : l.kind with
  | clock =>
    cases l <;> cases hl
    cases h
    exact .inl ⟨_, rfl, rfl⟩
  | conn => exact .inr (.inl ⟨rfl, turned_of_step hl h⟩)
  | supervisor => exact .inr (.inr (.inl (supervised_of_step hl h)))
  | pump =>
    have hruns := EventTask.pump_runs_iff.mpr hl
    exact .inr (.inr (.inr ⟨hruns, pumped_of_step hruns h⟩))

/-- **A step keeps the invariant.** -/
theorem inv_step (hs : s.Steady) (hf : s.Following) (hok : s.pumpOk l)
    (h : s.step l = some s') : s'.Steady ∧ s'.Following := by
  rcases step_cases h with ⟨millis, rfl, rfl⟩ | ⟨-, k, mux, rfl, ht⟩ | hsup | ⟨-, _, _, rfl, hp⟩
  · exact ⟨{ hs with }, { hf with }⟩
  · exact inv_setConn hs hf ht.forward (ht.quiet hs hok)
  · exact hsup.inv hs hf hok
  · exact ⟨{ hs with }, hp.following hs hf⟩

theorem inv_of_run {ρ : Run step} (h₀ : ρ.state 0 = init) (hok : ρ.Meets pumpOk) (n : ℕ) :
    (ρ.state n).Steady ∧ (ρ.state n).Following := by
  have hreach := ρ.reaches hok n
  rw [h₀] at hreach
  exact hreach.invariant (fun s => s.Steady ∧ s.Following) ⟨steady_init, following_init⟩
    fun _ _ _ hi hok h => inv_step hi.1 hi.2 hok h

/-! ## What a step leaves alone -/

theorem pump_of_step (h : s.step l = some s') :
    ¬ EventTask.pump.runs l ∧ s'.pump = s.pump ∨ s'.pump = s.pumpNext := by
  rcases step_cases h with ⟨millis, rfl, rfl⟩ | ⟨hl, k, mux, rfl, -⟩ | hsup | ⟨-, _, _, rfl, hp⟩
  · exact .inl ⟨by simp [EventTask.runs], rfl⟩
  · exact .inl ⟨by rw [EventTask.pump_runs_iff, hl]; nofun, rfl⟩
  · exact .inl (by cases hsup <;> exact ⟨by simp [EventTask.runs], rfl⟩)
  · exact .inr hp.next

/-- What a moment does to a connection that is not in place: its reader goes on to its end, and no
callers come. -/
structure Recedes (r : ℕ) (s s' : EventTasks) (l : Option EventStep) : Prop where
  closing : (s.conns r).reader = .closing →
    (s'.conns r).reader = .ended ∨ (s'.conns r).reader = .closing ∧ l ≠ some (.clear r)
  ended : (s.conns r).reader = .ended → (s'.conns r).reader = .ended
  callers : (s'.conns r).callers ≤ (s.conns r).callers
  fail : l = some (.fail r) → (s'.conns r).callers < (s.conns r).callers

theorem recedes_of_eq {l : Option EventStep} (hconn : s'.conns r = s.conns r)
    (hclear : l ≠ some (.clear r)) (hfail : l ≠ some (.fail r)) : Recedes r s s' l := by
  refine ⟨?_, ?_, ?_, fun h => absurd h hfail⟩ <;> rw [hconn]
  · exact fun h => .inr ⟨h, hclear⟩
  · exact id

theorem recedes_of_step (hr : r < s.next) (hne : r ≠ s.current) (h : s.step l = some s') :
    Recedes r s s' (some l) := by
  rcases step_cases h with ⟨millis, rfl, rfl⟩ | ⟨-, k, mux, rfl, ht⟩ | hsup | ⟨hl, _, _, rfl, -⟩
  · exact recedes_of_eq rfl nofun nofun
  · by_cases hk : r = k
    · subst hk
      refine ⟨fun hc => ?_, fun he => ?_, ?_, fun hl => ?_⟩ <;>
        simp only [setConn, update_self]
      · rcases ht.reader with heq | hread | ⟨-, hend⟩
        · by_cases hl : l = .clear r
          · exact .inl (ht.clear hl)
          · exact .inr ⟨heq.trans hc, fun h => hl (Option.some.inj h)⟩
        · cases hc.symm.trans hread
        · exact .inl hend
      · rcases ht.reader with heq | hread | ⟨hc, -⟩
        · exact heq.trans he
        · cases he.symm.trans hread
        · cases he.symm.trans hc
      · exact ht.callers.resolve_right hne
      · exact ht.fail (Option.some.inj hl)
    · refine recedes_of_eq (update_of_ne hk _ _) ?_ ?_
      · exact fun hl => hk (ht.own r (.inl (Option.some.inj hl)))
      · exact fun hl => hk (ht.own r (.inr (Option.some.inj hl)))
  · refine recedes_of_eq ?_ (by cases hsup <;> nofun) (by cases hsup <;> nofun)
    cases hsup with
    | dialled hsup => exact update_of_ne hr.ne _ _
    | _ => rfl
  · refine recedes_of_eq rfl ?_ ?_ <;> rintro ⟨⟩ <;> simp [EventTask.runs] at hl

/-! ## The supervisor gets there -/

theorem installs_of_step (hs : s.Steady) (hk : s.supervisor.installs k)
    (hr : (s.conns k).reader = .reading) (h : s.step l = some s') :
    s'.supervisor.installs k ∧ s'.supervisor.toGo ≤ s.supervisor.toGo ∧
      (EventTask.supervisor.runs l → s'.supervisor.toGo < s.supervisor.toGo) := by
  have hsame (heq : s'.supervisor = s.supervisor) (hl : l.kind ≠ .supervisor) :
      s'.supervisor.installs k ∧ s'.supervisor.toGo ≤ s.supervisor.toGo ∧
        (EventTask.supervisor.runs l → s'.supervisor.toGo < s.supervisor.toGo) := by
    rw [heq]
    exact ⟨hk, le_rfl, fun h => absurd (EventTask.kind_of_supervisor h) hl⟩
  rcases step_cases h with ⟨millis, rfl, rfl⟩ | ⟨hl, k', mux, rfl, -⟩ | hsup | ⟨hl, _, _, rfl, -⟩
  · exact hsame rfl nofun
  · exact hsame rfl (by rw [hl]; nofun)
  · cases hsup with
    | noticed hsup hne =>
      rw [hsup] at hk
      exact absurd (hk ▸ hr) hne
    | failed hsup => rw [hsup] at hk; exact hk.elim
    | dialled hsup => rw [hsup] at hk; exact hk.elim
    | attached hsup => rw [hsup] at hk; exact hk.elim
    | refused hsup => rw [hsup] at hk; exact hk.elim
    | reopened hsup =>
      rw [hsup] at hk ⊢
      exact ⟨hk, Nat.le_succ _, fun _ => Nat.lt_succ_self _⟩
    | swapped hsup =>
      rw [hsup] at hk ⊢
      exact ⟨hk, Nat.le_succ _, fun _ => Nat.lt_succ_self _⟩
    | @bumped k' hsup =>
      have hcurrent : k' = s.current := hs.rest k' (by rw [hsup]; rfl)
      rw [hsup] at hk ⊢
      exact ⟨hcurrent.symm.trans hk, Nat.zero_le _, fun _ => Nat.zero_lt_one⟩
  · exact hsame rfl (by rw [EventTask.pump_runs_iff.mp hl]; nofun)

theorem supervisor_enabled (hgo : 0 < s.supervisor.toGo) :
    Run.Enabled step EventTask.supervisor.runs s := by
  cases hsup : s.supervisor with
  | watching c => rw [hsup] at hgo; cases hgo
  | dialling delay wake => rw [hsup] at hgo; cases hgo
  | attaching c => rw [hsup] at hgo; cases hgo
  | reopening c left =>
    cases left with
    | zero => exact ⟨.swap, by simp [EventTask.runs], by simp [step, hsup]⟩
    | succ left => exact ⟨.reopen, by simp [EventTask.runs], by simp [step, hsup]⟩
  | swapped c => exact ⟨.bump, by simp [EventTask.runs], by simp [step, hsup]⟩

/-- The connection is in place and stays. -/
structure Placed (k : ℕ) (s : EventTasks) : Prop where
  steady : s.Steady
  following : s.Following
  watching : s.supervisor = .watching k
  reading : (s.conns k).reader = .reading

variable {ρ : Run step} {n k : ℕ}

/-- **The supervisor gets there**: from the successful attach on, a connection that stays is put in
place. -/
theorem placed_of_attached (hinv : ∀ m, (ρ.state m).Steady ∧ (ρ.state m).Following)
    (hfair : ρ.Fair EventTask.supervisor.runs) (hk : (ρ.state n).supervisor.installs k)
    (hstays : ∀ m, n ≤ m → ((ρ.state m).conns k).reader = .reading) :
    ∃ n', n ≤ n' ∧ ∀ m, n' ≤ m → Placed k (ρ.state m) := by
  have hstep (m : ℕ) (hm : n ≤ m) (hk : (ρ.state m).supervisor.installs k) :
      (ρ.state (m + 1)).supervisor.installs k ∧
        (ρ.state (m + 1)).supervisor.toGo ≤ (ρ.state m).supervisor.toGo ∧
        ∀ l ∈ ρ.label m, EventTask.supervisor.runs l →
          (ρ.state (m + 1)).supervisor.toGo < (ρ.state m).supervisor.toGo := by
    rcases ρ.next_cases m with ⟨hl, heq⟩ | ⟨l, hl, h⟩
    · rw [heq, hl]
      exact ⟨hk, le_rfl, nofun⟩
    · obtain ⟨hk', hle, hlt⟩ := installs_of_step (hinv m).1 hk (hstays m hm) h
      rw [hl]
      refine ⟨hk', hle, ?_⟩
      rintro l' ⟨⟩
      exact hlt
  obtain ⟨n', hn', hgo⟩ : ∃ n', n ≤ n' ∧ (False ∨ (ρ.state n').supervisor.installs k ∧
      (ρ.state n').supervisor.toGo = 0) := by
    refine hfair.drains (P := fun m => (ρ.state m).supervisor.installs k) (Q := fun _ => False)
      (fun m => (ρ.state m).supervisor.toGo) hk (fun m _ _ hgo => supervisor_enabled hgo) ?_
    intro m hm hk
    obtain ⟨hk', hle, hlt⟩ := hstep m hm hk
    refine .inl ⟨hk', (Nat.lt_or_eq_of_le hle).imp_right fun heq => ⟨heq, fun l hl hruns => ?_⟩⟩
    exact absurd heq (Nat.ne_of_lt (hlt l hl hruns))
  refine ⟨n', hn', fun m hm => ?_⟩
  have halways := Run.always_of_step (n := n')
    (P := fun m => (ρ.state m).supervisor.installs k ∧ (ρ.state m).supervisor.toGo = 0)
    (hgo.resolve_left id) (fun m hm hp => by
      obtain ⟨hk', hle, -⟩ := hstep m (hn'.trans hm) hp.1
      exact ⟨hk', Nat.le_zero.mp (hp.2 ▸ hle)⟩) m hm
  refine ⟨(hinv m).1, (hinv m).2, ?_, hstays m (hn'.trans hm)⟩
  obtain ⟨hinstalls, hzero⟩ := halways
  cases hsup : (ρ.state m).supervisor <;> rw [hsup] at hinstalls hzero <;>
    first | (cases hzero; done) | (cases hinstalls; done) | skip
  exact congrArg Supervisor.watching hinstalls

/-! ## The pump gets there -/

theorem Placed.current (hp : Placed k s) : s.current = k :=
  (hp.steady.rest k (by rw [hp.watching]; rfl)).symm

theorem Placed.swaps (hp : Placed k s) : s.swaps = s.epoch := by
  rw [EventTasks.swaps, hp.watching]
  rfl

theorem pump_of_next (m : ℕ) :
    (∀ l ∈ ρ.label m, ¬ EventTask.pump.runs l) ∧ (ρ.state (m + 1)).pump = (ρ.state m).pump ∨
    (ρ.state (m + 1)).pump = (ρ.state m).pumpNext := by
  rcases ρ.next_cases m with ⟨hl, heq⟩ | ⟨l, hl, h⟩
  · rw [hl, heq]
    exact .inl ⟨nofun, rfl⟩
  · rw [hl]
    rcases pump_of_step h with ⟨hruns, heq⟩ | heq
    · refine .inl ⟨?_, heq⟩
      rintro l' ⟨⟩
      exact hruns
    · exact .inr heq

section

variable (hfair : ρ.Fair EventTask.pump.runs)
include hfair

theorem leads_pumpNext {p q : EventPump} {P : ℕ → Prop} (hp : (ρ.state n).pump = p ∧ P n)
    (hstay : ∀ m, n ≤ m → (ρ.state m).pump = p → P m → P (m + 1))
    (hnext : ∀ m, n ≤ m → (ρ.state m).pump = p → P m → (ρ.state m).pumpNext = q)
    (henabled : ∀ m, n ≤ m → (ρ.state m).pump = p → P m →
      Run.Enabled step EventTask.pump.runs (ρ.state m)) :
    ∃ m, n ≤ m ∧ (ρ.state m).pump = q := by
  refine hfair.leads (P := fun m => (ρ.state m).pump = p ∧ P m) hp ?_ ?_
  · exact fun m hm h => henabled m hm h.1 h.2
  · intro m hm h
    rcases pump_of_next (ρ := ρ) m with ⟨hno, heq⟩ | heq
    · exact .inl ⟨⟨heq.trans h.1, hstay m hm h.1 h.2⟩, hno⟩
    · exact .inr (heq.trans (hnext m hm h.1 h.2))

theorem subscribed_of_resuming
    (hplaced : ∀ m, n ≤ m → Placed k (ρ.state m)) (hp : (ρ.state n).pump = .resuming k) :
    ∃ m, n ≤ m ∧ k ∈ (ρ.state m).subscribed := by
  obtain ⟨m, hm, hawait⟩ := leads_pumpNext (q := .awaiting k) (P := fun _ => True) hfair
    ⟨hp, trivial⟩ (fun _ _ _ _ => trivial)
    (fun m hm hp _ => by simp only [pumpNext, hp, (hplaced m hm).reading, if_pos])
    fun m hm hp _ => ⟨.subscribe, by simp [EventTask.runs],
      by simp [step, hp, (hplaced m hm).reading]⟩
  refine ⟨m, hm, ?_⟩
  have hsent := (hplaced m hm).following.sent k (by rw [hawait]; rfl) (by rw [hawait]; nofun)
  exact hsent.resolve_right fun hne => hne (hplaced m hm).reading

theorem resuming_of_lost
    (hplaced : ∀ m, n ≤ m → Placed k (ρ.state m)) (hp : (ρ.state n).pump = .lost e) :
    ∃ m, n ≤ m ∧ (ρ.state m).pump = .resuming k := by
  refine leads_pumpNext (P := fun _ => True) hfair ⟨hp, trivial⟩ (fun _ _ _ _ => trivial) ?_ ?_
  · intro m hm hp _
    simp only [pumpNext, hp, (hplaced m hm).current]
  · intro m hm hp _
    have hlt := (hplaced m hm).following.lost e hp
    rw [(hplaced m hm).swaps] at hlt
    exact ⟨.wake, by simp [EventTask.runs], by simp [step, hp, hlt]⟩

end

/-- What holds of an earlier connection whose events the pump still waits for. -/
theorem earlier_of_placed (hplaced : Placed k s) (hne : r ≠ k) (hp : s.pump = .receiving r e) :
    r < s.next ∧ r ≠ s.current ∧ (s.conns r).reader ≠ .reading := by
  have hcurrent : r ≠ s.current := hplaced.current ▸ hne
  exact ⟨hplaced.following.lt r (by rw [hp]; rfl), hcurrent,
    (hplaced.following.closed r (by rw [hp]; rfl)).resolve_left hcurrent⟩

theorem senders_of_ended (hplaced : Placed k s) (hne : r ≠ k)
    (hp : s.pump = .receiving r e) (hend : (s.conns r).reader = .ended)
    (hcallers : (s.conns r).callers = 0) : s.senders r = false := by
  have hcurrent : s.current ≠ r := hplaced.current ▸ hne.symm
  simp [senders, referenced, hend, hcurrent, hplaced.watching, Supervisor.holds, hne.symm, hp,
    EventPump.holds, hplaced.steady.quiet r hend, hcallers]

/-- What one moment does to an earlier connection while the pump waits for its events. -/
theorem earlier_of_next (hplaced : Placed k (ρ.state n)) (hne : r ≠ k)
    (hp : (ρ.state n).pump = .receiving r e) :
    Recedes r (ρ.state n) (ρ.state (n + 1)) (ρ.label n) := by
  obtain ⟨hr, hcurrent, -⟩ := earlier_of_placed hplaced hne hp
  rcases ρ.next_cases n with ⟨hl, heq⟩ | ⟨l, hl, h⟩
  · rw [hl, heq]
    exact recedes_of_eq rfl nofun nofun
  · rw [hl]
    exact recedes_of_step hr hcurrent h

theorem lost_of_receiving (hreader : ρ.Fair (EventTask.reader r).runs)
    (hcallers : ρ.Fair (EventTask.callers r).runs) (hfair : ρ.Fair EventTask.pump.runs)
    (hplaced : ∀ m, n ≤ m → Placed k (ρ.state m)) (hne : r ≠ k)
    (hp : (ρ.state n).pump = .receiving r e) : ∃ m, n ≤ m ∧ (ρ.state m).pump = .lost e := by
  -- the pump stands still until it sees the end
  have hwaits (m : ℕ) (hp : (ρ.state m).pump = .receiving r e) :
      (ρ.state (m + 1)).pump = .receiving r e ∨ (ρ.state (m + 1)).pump = .lost e := by
    rcases pump_of_next m with ⟨-, heq⟩ | heq
    · exact .inl (heq.trans hp)
    · exact .inr (by rw [heq, pumpNext, hp])
  -- the reader ends
  obtain ⟨n₁, hn₁, hend⟩ : ∃ m, n ≤ m ∧ ((ρ.state m).pump = .lost e ∨
      (ρ.state m).pump = .receiving r e ∧ ((ρ.state m).conns r).reader = .ended) := by
    obtain ⟨-, -, hreading⟩ := earlier_of_placed (hplaced n le_rfl) hne hp
    cases hr : ((ρ.state n).conns r).reader with
    | reading => exact absurd hr hreading
    | ended => exact ⟨n, le_rfl, .inr ⟨hp, hr⟩⟩
    | closing =>
      refine hreader.leads
        (P := fun m => (ρ.state m).pump = .receiving r e ∧ ((ρ.state m).conns r).reader = .closing)
        ⟨hp, hr⟩ ?_ ?_
      · exact fun m _ h => ⟨.clear r, rfl, by simp [step, h.2]⟩
      · intro m hm h
        rcases hwaits m h.1 with hp' | hp'
        · rcases (earlier_of_next (hplaced m hm) hne h.1).closing h.2 with hend | ⟨hc, hno⟩
          · exact .inr (.inr ⟨hp', hend⟩)
          · refine .inl ⟨⟨hp', hc⟩, ?_⟩
            rintro l hl rfl
            exact hno hl
        · exact .inr (.inl hp')
  rcases hend with hlost | ⟨hp₁, hend⟩
  · exact ⟨n₁, hn₁, hlost⟩
  -- the callers leave
  obtain ⟨n₂, hn₂, hleft⟩ : ∃ m, n₁ ≤ m ∧ ((ρ.state m).pump = .lost e ∨
      ((ρ.state m).pump = .receiving r e ∧ ((ρ.state m).conns r).reader = .ended) ∧
        ((ρ.state m).conns r).callers = 0) := by
    refine hcallers.drains
      (P := fun m => (ρ.state m).pump = .receiving r e ∧ ((ρ.state m).conns r).reader = .ended)
      (Q := fun m => (ρ.state m).pump = .lost e) (fun m => ((ρ.state m).conns r).callers)
      ⟨hp₁, hend⟩ ?_ ?_
    · exact fun m _ h hpos => ⟨.fail r, rfl, by simp [step, h.2, hpos]⟩
    · intro m hm h
      have hrecedes := earlier_of_next (hplaced m (hn₁.trans hm)) hne h.1
      rcases hwaits m h.1 with hp' | hp'
      · refine .inl ⟨⟨hp', hrecedes.ended h.2⟩, ?_⟩
        refine (Nat.lt_or_eq_of_le hrecedes.callers).imp_right fun heq => ⟨heq, ?_⟩
        rintro l hl rfl
        exact absurd heq (Nat.ne_of_lt (hrecedes.fail hl))
      · exact .inr hp'
  rcases hleft with hlost | ⟨⟨hp₂, hend₂⟩, hzero⟩
  · exact ⟨n₂, hn₁.trans hn₂, hlost⟩
  -- and the pump sees it
  have hle := hn₁.trans hn₂
  obtain ⟨m, hm, hlost⟩ := leads_pumpNext (n := n₂) (q := .lost e)
    (P := fun m => ((ρ.state m).conns r).reader = .ended ∧ ((ρ.state m).conns r).callers = 0) hfair
    ⟨hp₂, hend₂, hzero⟩
    (fun m hm hp h => by
      have hrecedes := earlier_of_next (hplaced m (hle.trans hm)) hne hp
      exact ⟨hrecedes.ended h.1, Nat.le_zero.mp (h.2 ▸ hrecedes.callers)⟩)
    (fun m hm hp _ => by rw [pumpNext, hp])
    fun m hm hp h => ⟨.drained, by simp [EventTask.runs], by
      simp [step, hp, senders_of_ended (hplaced m (hle.trans hm)) hne hp h.1 h.2]⟩
  exact ⟨m, hle.trans hm, hlost⟩

/-- **The pump gets there.** -/
theorem subscribed_of_placed (hfair : ∀ task : EventTask, ρ.Fair task.runs)
    (hplaced : ∀ m, n ≤ m → Placed k (ρ.state m)) : ∃ m, n ≤ m ∧ k ∈ (ρ.state m).subscribed := by
  have hnow := hplaced n le_rfl
  -- a pump past the point where it has subscribed
  have hsent (hconn : k ∈ (ρ.state n).pump.conn) (hne : ∀ k, (ρ.state n).pump ≠ .resuming k) :
      ∃ m, n ≤ m ∧ k ∈ (ρ.state m).subscribed :=
    ⟨n, le_rfl, (hnow.following.sent k hconn hne).resolve_right fun h => h hnow.reading⟩
  -- a pump between the connection and the epoch has the one in place
  have hbetween (r : ℕ) (hr : r ∈ (ρ.state n).pump.between) : r = k :=
    ((hnow.following.between r hr).resolve_right (by rw [hnow.watching]; nofun)).trans hnow.current
  have hresume {n' : ℕ} (hn' : n ≤ n') (hp : (ρ.state n').pump = .resuming k) :
      ∃ m, n ≤ m ∧ k ∈ (ρ.state m).subscribed := by
    obtain ⟨m, hm, hk⟩ := subscribed_of_resuming (hfair .pump)
      (fun m hm => hplaced m (hn'.trans hm)) hp
    exact ⟨m, hn'.trans hm, hk⟩
  have hlost {n' e : ℕ} (hn' : n ≤ n') (hp : (ρ.state n').pump = .lost e) :
      ∃ m, n ≤ m ∧ k ∈ (ρ.state m).subscribed := by
    obtain ⟨m, hm, hp'⟩ := resuming_of_lost (hfair .pump) (fun m hm => hplaced m (hn'.trans hm)) hp
    exact hresume (hn'.trans hm) hp'
  cases hp : (ρ.state n).pump with
  | receiving r e =>
    by_cases hr : r = k
    · subst hr
      exact hsent (by rw [hp]; rfl) (by rw [hp]; nofun)
    · obtain ⟨m, hm, hp'⟩ := lost_of_receiving (hfair (.reader r)) (hfair (.callers r))
        (hfair .pump) hplaced hr hp
      exact hlost hm hp'
  | lost e => exact hlost le_rfl hp
  | resuming r =>
    have hr := hbetween r (by rw [hp]; rfl)
    exact hresume le_rfl (hr ▸ hp)
  | awaiting r =>
    have hr := hbetween r (by rw [hp]; rfl)
    exact hsent (by rw [hp, hr]; rfl) (by rw [hp]; nofun)
  | capturing r =>
    have hr := hbetween r (by rw [hp]; rfl)
    exact hsent (by rw [hp, hr]; rfl) (by rw [hp]; nofun)

/-! ## Runs in which nothing happens any more -/

/-- Nothing is left to do but to answer the pings on the connection in place. -/
structure Resting (c : ℕ) (s : EventTasks) : Prop where
  supervisor : s.supervisor = .watching c
  current : s.current = c
  conn : s.conns c = fresh s.now
  others : ∀ k, k ≠ c →
    (s.conns k).reader = .ended ∧ (s.conns k).callers = 0 ∧ ∀ due, (s.conns k).beat ≠ .idle due
  /-- the pump waits for events -/
  pump : ∃ r e, s.pump = .receiving r e ∧ (r = c ∨ (s.conns r).beat.holds = true)

/-- The state with this heartbeat. -/
def beatAt (s : EventTasks) (c now : ℕ) (beat : Heartbeat) : EventTasks :=
  { s.setConn c ⟨.reading, true, beat, 0⟩ with now := now }

/-- Every ten seconds there is a ping, and an answer to it. -/
def beating (s : EventTasks) (c n : ℕ) : EventTasks :=
  let now := s.now + 10000 * (n / 3)
  match n % 3 with
  | 0 => s.beatAt c now (.idle now)
  | 1 => s.beatAt c now (.pinging (now + 10000))
  | _ => s.beatAt c now (.idle (now + 10000))

def beatingLabel (c n : ℕ) : EventStep :=
  match n % 3 with
  | 0 => .beat c
  | 1 => .pong c
  | _ => .advance 10000

theorem conns_beatAt_self (s : EventTasks) (c now : ℕ) (beat : Heartbeat) :
    (s.beatAt c now beat).conns c = ⟨.reading, true, beat, 0⟩ :=
  update_self _ _ _

theorem conns_beatAt_of_ne (hk : k ≠ c) (now : ℕ) (beat : Heartbeat) :
    (s.beatAt c now beat).conns k = s.conns k :=
  update_of_ne hk _ _

theorem setConn_beatAt (s : EventTasks) (c now : ℕ) (beat beat' : Heartbeat) :
    (s.beatAt c now beat).setConn c ⟨.reading, true, beat', 0⟩ = s.beatAt c now beat' := by
  simp [beatAt, setConn]

theorem beating_eq (s : EventTasks) (c n : ℕ) :
    ∃ now beat, s.beating c n = s.beatAt c now beat := by
  rw [beating]
  split
  · exact ⟨_, _, rfl⟩
  · exact ⟨_, _, rfl⟩
  · exact ⟨_, _, rfl⟩

theorem beating_zero (h : Resting c s) : s.beating c 0 = s := by
  have hconn : update s.conns c ⟨.reading, true, .idle s.now, 0⟩ = s.conns := by
    have := update_eq_self c s.conns
    rwa [h.conn] at this
  exact congrArg (fun conns => { s with conns := conns }) hconn

theorem step_beating (h : Resting c s) (n : ℕ) :
    (s.beating c n).step (beatingLabel c n) = some (s.beating c (n + 1)) := by
  have hlt : n % 3 < 3 := Nat.mod_lt n (by decide)
  rcases (by omega : n % 3 = 0 ∨ n % 3 = 1 ∨ n % 3 = 2) with hn | hn | hn
  · have hn' : (n + 1) % 3 = 1 := by omega
    have hdiv : (n + 1) / 3 = n / 3 := by omega
    simp only [beating, beatingLabel, hn, hn', hdiv, step, conns_beatAt_self]
    have htick (now : ℕ) (beat : Heartbeat) :
        (s.beatAt c now beat).tick c = .pinging (now + 10000) := by
      have hcurrent : (s.beatAt c now beat).current = c := h.current
      simp [tick, referenced, conns_beatAt_self, hcurrent]
      rfl
    rw [htick, setConn_beatAt]
    exact if_pos le_rfl
  · have hn' : (n + 1) % 3 = 2 := by omega
    have hdiv : (n + 1) / 3 = n / 3 := by omega
    simp only [beating, beatingLabel, hn, hn', hdiv, step, conns_beatAt_self, setConn_beatAt]
  · have hn' : (n + 1) % 3 = 0 := by omega
    have hdiv : (n + 1) / 3 = n / 3 + 1 := by omega
    simp only [beating, beatingLabel, hn, hn', hdiv, step, Nat.mul_succ, ← Nat.add_assoc]
    rfl

theorem not_enabled_beatAt {now : ℕ} {beat : Heartbeat} (h : Resting c s) (task : EventTask)
    (hne : ∀ k, task = .heartbeat k → k ≠ c) :
    ¬ Run.Enabled step task.runs (s.beatAt c now beat) := by
  rintro ⟨l, hl, hsome⟩
  have hsup : (s.beatAt c now beat).supervisor = .watching c := h.supervisor
  cases task with
  | reader k =>
    cases hl
    by_cases hk : k = c
    · simp [step, hk, conns_beatAt_self] at hsome
    · simp [step, conns_beatAt_of_ne hk, (h.others k hk).1] at hsome
  | callers k =>
    cases hl
    by_cases hk : k = c
    · simp [step, hk, conns_beatAt_self] at hsome
    · simp [step, conns_beatAt_of_ne hk, (h.others k hk).2.1] at hsome
  | heartbeat k =>
    cases hl
    have hk := hne k rfl
    have hidle := (h.others k hk).2.2
    simp only [step, conns_beatAt_of_ne hk] at hsome
    cases hsome
  | supervisor =>
    simp only [EventTask.runs, List.mem_cons, List.not_mem_nil, or_false] at hl
    rcases hl with rfl | rfl | rfl | rfl <;> simp [step, hsup, conns_beatAt_self] at hsome
  | pump =>
    obtain ⟨r, e, hp, hr⟩ := h.pump
    have hpump : (s.beatAt c now beat).pump = .receiving r e := hp
    have hsenders : (s.beatAt c now beat).senders r = true := by
      by_cases hrc : r = c
      · simp [senders, hrc, conns_beatAt_self]
      · simp [senders, referenced, conns_beatAt_of_ne hrc, hr.resolve_left hrc]
    simp only [EventTask.runs, List.mem_cons, List.not_mem_nil, or_false] at hl
    rcases hl with rfl | rfl | rfl | rfl | rfl <;> simp [step, hpump, hsenders] at hsome

/-- **A run at rest**: from a state in which nothing is left to do, there is a fair run that changes
nothing but the heartbeat. -/
theorem exists_run_of_resting (h : Resting c s) :
    ∃ ρ : Run step, ρ.state 0 = s ∧ (∀ task : EventTask, ρ.Fair task.runs) ∧ ρ.Meets pumpOk ∧
      ∀ n, (ρ.state n).subscribed = s.subscribed ∧ ((ρ.state n).conns c).reader = .reading := by
  refine ⟨⟨s.beating c, fun n => some (beatingLabel c n), step_beating h⟩, beating_zero h,
    ?_, ?_, ?_⟩
  · intro task n henabled
    by_cases htask : task = .heartbeat c
    · subst htask
      refine ⟨3 * n, by omega, .beat c, ?_, rfl⟩
      have hmod : 3 * n % 3 = 0 := by omega
      simp only [beatingLabel, hmod]
      rfl
    · have hn := henabled n le_rfl
      obtain ⟨now, beat, heq⟩ := s.beating_eq c n
      simp only [heq] at hn
      exact absurd hn (not_enabled_beatAt h task fun k hk => fun hkc => htask (hkc ▸ hk))
  · rintro n l ⟨⟩
    obtain ⟨now, beat, heq⟩ := s.beating_eq c n
    simp only [heq, beatingLabel]
    split
    · intro hend
      rw [conns_beatAt_self] at hend
      cases hend
    · trivial
    · trivial
  · intro n
    obtain ⟨now, beat, heq⟩ := s.beating_eq c n
    simp only [heq, conns_beatAt_self, and_true]
    rfl

/-! ## The event stream -/

instance : DecidableRel pumpOk := fun s l => by
  unfold pumpOk
  split <;> infer_instance

/-- **The event stream comes back**: in a fair run under the condition, the pump subscribes on every
connection that the supervisor attaches on and that stays. -/
theorem subscribes_of_pumpOk (ρ : Run step) (h₀ : ρ.state 0 = init) (hok : ρ.Meets pumpOk)
    (hfair : ∀ task : EventTask, ρ.Fair task.runs) {n k handles : ℕ}
    (hsup : (ρ.state n).supervisor = .attaching k) (hl : ρ.label n = some (.attach true handles))
    (hstays : ∀ m, n ≤ m → ((ρ.state m).conns k).reader = .reading) :
    ∃ m, n ≤ m ∧ k ∈ (ρ.state m).subscribed := by
  have hnext : (ρ.state (n + 1)).supervisor = .reopening k handles := by
    have hmoment := ρ.next n
    rw [hl] at hmoment
    simp only [Moment, step, hsup, if_pos] at hmoment
    rw [← Option.some.inj hmoment]
  have hinstalls : (ρ.state (n + 1)).supervisor.installs k := by
    rw [hnext]
    rfl
  obtain ⟨n', hn', hplaced⟩ := placed_of_attached (inv_of_run h₀ hok) (hfair .supervisor) hinstalls
    fun m hm => hstays m (by omega)
  obtain ⟨m, hm, hk⟩ := subscribed_of_placed hfair hplaced
  exact ⟨m, by omega, hk⟩

/-- The server goes away while it owes the answer to a ping, and comes back. -/
def outage : List EventStep :=
  [.capture, .beat 0, .eof 0, .clear 0, .notice, .dial true, .attach true 0, .swap, .bump, .drained,
    .wake, .subscribe, .respond, .capture]

/-- There is a fair run of an outage, and the pump subscribes again. -/
theorem subscribes_after_outage : ∃ ρ : Run step, ρ.state 0 = init ∧ ρ.Meets pumpOk ∧
    (∀ task : EventTask, ρ.Fair task.runs) ∧ (ρ.state 6).supervisor = .attaching 1 ∧
    ∃ m, 6 ≤ m ∧ 1 ∈ (ρ.state m).subscribed := by
  let s := (exec step init outage).get (by decide +kernel)
  have hs : exec step init outage = some s := (Option.some_get _).symm
  have hrest : Resting 1 s := by
    refine ⟨rfl, rfl, rfl, fun k hk => ?_, 1, 1, rfl, .inl rfl⟩
    match k, hk with
    | 0, _ => exact ⟨rfl, rfl, nofun⟩
    | k + 2, _ => exact ⟨rfl, rfl, nofun⟩
  obtain ⟨ρ, hρ, hfair, hmeets, hstill⟩ := exists_run_of_resting hrest
  obtain ⟨ρ', hstate, hlabel, hfirst, htake, hok⟩ := ρ.prepend outage (hρ ▸ hs)
  have hfair' : ∀ task : EventTask, ρ'.Fair task.runs := fun task =>
    (hfair task).prepend hstate hlabel
  have h₀ : ρ'.state 0 = init := (Option.some.inj (htake 0 (by decide))).symm
  have hok' : ρ'.Meets pumpOk := hok pumpOk (by decide +kernel) hmeets
  have hsup : (ρ'.state 6).supervisor = .attaching 1 := by
    rw [← Option.some.inj (htake 6 (by decide))]
    rfl
  refine ⟨ρ', h₀, hok', hfair', hsup, ?_⟩
  refine subscribes_of_pumpOk ρ' h₀ hok' hfair' hsup (hfirst 6 _ rfl) ?_
  exact Run.always_prepend hstate htake (n := 6) (P := fun s => (s.conns 1).reader = .reading)
    (by decide +kernel) fun m => (hstill m).2

/-- The server is away for ten seconds; the next ping is due after the connection has ended. -/
def longOutage : List EventStep :=
  [.capture, .beat 0, .pong 0, .eof 0, .clear 0, .notice, .dial false, .advance 10000, .beat 0,
    .dial true, .attach true 0, .swap, .bump]

/-- **A ping to nobody**: there is a fair run in which the second connection is attached and stays,
and the pump never subscribes on it. -/
theorem silent_after_ping : ∃ ρ : Run step, ρ.state 0 = init ∧ 0 ∈ (ρ.state 0).subscribed ∧
    (∀ task : EventTask, ρ.Fair task.runs) ∧ (ρ.state 10).supervisor = .attaching 1 ∧
    ρ.label 10 = some (.attach true 0) ∧
    (∀ m, 10 ≤ m → ((ρ.state m).conns 1).reader = .reading) ∧
    ∀ m, 1 ∉ (ρ.state m).subscribed := by
  let s := (exec step init longOutage).get (by decide +kernel)
  have hs : exec step init longOutage = some s := (Option.some_get _).symm
  have hrest : Resting 1 s := by
    refine ⟨rfl, rfl, rfl, fun k hk => ?_, 0, 0, rfl, .inr rfl⟩
    match k, hk with
    | 0, _ => exact ⟨rfl, rfl, nofun⟩
    | k + 2, _ => exact ⟨rfl, rfl, nofun⟩
  obtain ⟨ρ, hρ, hfair, -, hstill⟩ := exists_run_of_resting hrest
  obtain ⟨ρ', hstate, hlabel, hfirst, htake, -⟩ := ρ.prepend longOutage (hρ ▸ hs)
  have h₀ : ρ'.state 0 = init := (Option.some.inj (htake 0 (by decide))).symm
  refine ⟨ρ', h₀, ?_, fun task => (hfair task).prepend hstate hlabel, ?_, hfirst 10 _ rfl, ?_, ?_⟩
  · rw [h₀]
    exact List.mem_cons_self
  · rw [← Option.some.inj (htake 10 (by decide))]
    rfl
  · exact Run.always_prepend hstate htake (n := 10) (P := fun s => (s.conns 1).reader = .reading)
      (by decide +kernel) fun m => (hstill m).2
  · refine fun m => Run.always_prepend hstate htake (n := 0) (P := fun s => 1 ∉ s.subscribed)
      (by decide +kernel) (fun m => ?_) m (Nat.zero_le m)
    rw [(hstill m).1]
    decide

end EventTasks

end AlloyFs
