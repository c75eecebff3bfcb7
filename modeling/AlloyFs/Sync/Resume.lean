import AlloyFs.Sync.Pump

/-!
# The sync engine misses nothing

The highest number that the engine has applied stands for all events up to it, as long as it came
from the agent that is running: they have been delivered, or the executor was told to reconcile
after they were published.  This holds because events reach the executor in the order of their
numbers, and because a gap in that order is always announced before what comes after it.

The invariant follows the events through the queue of the executor and the stream of the connection
(`SyncRun.line`).  `Shape` has what does not depend on the condition; `Fed` says that nothing is
missing.
-/

namespace AlloyFs.Sync

open List

/-- The connection of the pump. -/
def SyncPump.conn : SyncPump → Option ℕ
  | .receiving c _ | .resuming c | .asked c _ | .served c _ | .answered c _ _ | .expired c
  | .refreshed c => some c
  | .off | .waiting _ | .over => none

/-- The connections from this one on have not been subscribed on. -/
def SyncPump.bound : SyncPump → ℕ
  | .resuming c | .asked c _ | .expired c => c
  | .served c _ | .answered c _ _ | .refreshed c => c + 1
  | .receiving _ epoch | .waiting epoch => epoch + 1
  | .off | .over => 0

variable {links : ℕ → SyncLink}

namespace SyncRun

variable (mine : ℕ → Bool)
  {ev e : FsEvent} {queue : List SyncOp} {c epoch session : ℕ} {pump : SyncPump}
  {since src : Option ℕ} {link : SyncLink} {batch : List FsEvent} {hub : EventHub}

/-- The events of the connection count, for the agent that is running. -/
def counts (s : SyncRun) (conn : ℕ) : Bool := decide (source (s.links conn) = some s.agent)

/-- An event in the queue. -/
def opItem (agent : ℕ) : SyncOp → Option (Bool × FsEvent)
  | .remote source ev => some (decide (source = some agent), ev)
  | .reconcile => none

/-- What is on its way from the pump's connection. -/
def inbound (s : SyncRun) : List (Bool × FsEvent) :=
  match s.pump.conn with
  | some c => (s.links c).stream.map (s.counts c, ·)
  | none => []

/-- All events that are on their way, and whether they count. -/
def line (s : SyncRun) : List (Bool × FsEvent) := s.queue.filterMap (opItem s.agent) ++ s.inbound

/-- An event of the running agent that the engine must hear of. -/
def Owed (s : SyncRun) (e : FsEvent) : Prop := e ∈ s.history ∧ Foreign mine e

def Resync (e : FsEvent) : Prop := e.kind = .resyncRequired

/-- Something of the running agent counts. -/
def Engaged (s : SyncRun) : Prop :=
  s.mark = some s.agent ∨ (∃ ev, SyncOp.remote (some s.agent) ev ∈ s.queue) ∨
    ∃ c ∈ s.pump.conn, (s.links c).subscribed = true ∧ s.counts c = true

/-- What holds of the agents that events come from. -/
structure Tags (s : SyncRun) : Prop where
  agents : ∀ k, (s.links k).agent ≤ s.agent
  sources : ∀ a ev, SyncOp.remote (some a) ev ∈ s.queue → a ≤ s.agent
  marked : ∀ a ∈ s.mark, a ≤ s.agent ∧ 0 < s.lastSeq
  lastSeq : s.mark = some s.agent → s.lastSeq ≤ s.hub.seq
  queued : ∀ ev, SyncOp.remote (some s.agent) ev ∈ s.queue →
    (s.agent, ev) ∈ s.delivered ∧ ev.seq ≤ s.hub.seq
  streams : ∀ k, (s.links k).agent = s.agent → ∀ e ∈ (s.links k).stream, e.seq ≤ s.hub.seq

/-- What holds of the connections and the pump. -/
structure Wired (s : SyncRun) : Prop where
  conn : ∀ c ∈ s.pump.conn, c ≤ s.current
  bound : s.pump.bound ≤ s.current + 1
  unused : s.pump ≠ .over → ∀ k, (s.links k).subscribed = true → k < s.pump.bound
  idle : ∀ k, (s.links k).subscribed = false →
    (s.links k).stream = [] ∧ (s.links k).settled = false
  sessions : ∀ k, (s.links k).up = true ∨ (s.links k).subscribed = true →
    mine (s.links k).session = true
  answered : ∀ c since last, s.pump = .answered c since last → s.started = true →
    (s.links c).own = true ∨ ∃ n ∈ since, last < n

/-- Nothing is missing. -/
structure Fed (s : SyncRun) : Prop where
  line : Unbroken FsEvent.seq Resync (s.Owed mine) (fun e => s.Done (s.agent, e)) s.line
  low : s.mark = some s.agent → ∀ e, s.Owed mine e → e.seq ≤ s.lastSeq → s.Done (s.agent, e)
  full : ∀ c ∈ s.pump.conn, s.talks c = true → (s.links c).subscribed = true → s.counts c = true →
    (∃ p ∈ s.line, Resync p.2) ∨ ∀ e, s.Owed mine e → s.Done (s.agent, e) ∨ e ∈ (s.links c).stream
  past : s.Engaged → ∀ p ∈ s.past, Foreign mine p.2 → s.Done p
  asked : ∀ c since, s.pump = .asked c since → (s.links c).own = true →
    (s.links c).agent = s.agent → ∃ n, since = some n ∧ n ≤ s.hub.seq ∧
      (∀ e, s.Owed mine e → e.seq ≤ n → s.Done (s.agent, e)) ∧
      ∀ p ∈ s.past, Foreign mine p.2 → s.Done p

/-- **The invariant.** -/
structure Inv (s : SyncRun) : Prop where
  logs : s.hub.Logs s.history
  tags : s.Tags
  wired : s.Wired mine
  fed : s.Fed mine

variable {mine} {s s' : SyncRun}

theorem mem_published {p : ℕ × FsEvent} :
    p ∈ s.published ↔ p ∈ s.past ∨ p.1 = s.agent ∧ p.2 ∈ s.history := by
  obtain ⟨a, e⟩ := p
  simp only [published, mem_append, mem_map, Prod.mk.injEq]
  constructor
  · rintro (h | ⟨e', he', rfl, rfl⟩)
    · exact .inl h
    · exact .inr ⟨rfl, he'⟩
  · rintro (h | ⟨rfl, he⟩)
    · exact .inl h
    · exact .inr ⟨e, he, rfl, rfl⟩

theorem mem_queue_items {t : Bool} {agent : ℕ} :
    (t, ev) ∈ queue.filterMap (opItem agent) ↔
      ∃ source, SyncOp.remote source ev ∈ queue ∧ t = decide (source = some agent) := by
  simp only [mem_filterMap]
  constructor
  · rintro ⟨op, hop, heq⟩
    cases op with
    | remote source ev' =>
      obtain ⟨rfl, rfl⟩ := heq
      exact ⟨source, hop, rfl⟩
    | reconcile => cases heq
  · rintro ⟨source, hop, rfl⟩
    exact ⟨.remote source ev, hop, rfl⟩

theorem mem_inbound (hc : s.pump.conn = some c) {p : Bool × FsEvent} :
    p ∈ s.inbound ↔ p.1 = s.counts c ∧ p.2 ∈ (s.links c).stream := by
  obtain ⟨t, e⟩ := p
  simp only [inbound, hc, mem_map, Prod.mk.injEq]
  constructor
  · rintro ⟨e', he', rfl, rfl⟩
    exact ⟨rfl, he'⟩
  · rintro ⟨rfl, he⟩
    exact ⟨e, he, rfl, rfl⟩

theorem agent_of_counts (h : s.counts c = true) : (s.links c).agent = s.agent := by
  have hsource := of_decide_eq_true h
  rw [source] at hsource
  split at hsource
  · exact Option.some.inj hsource
  · cases hsource

theorem Tags.seqs (h : s.Tags) {p : Bool × FsEvent} (hp : p ∈ s.line) (hcounts : p.1 = true) :
    p.2.seq ≤ s.hub.seq := by
  obtain ⟨t, ev⟩ := p
  rcases mem_append.mp hp with hq | hin
  · obtain ⟨source, hmem, rfl⟩ := mem_queue_items.mp hq
    obtain rfl := of_decide_eq_true hcounts
    exact (h.queued ev hmem).2
  · cases hc : s.pump.conn with
    | none =>
      simp only [inbound, hc] at hin
      cases hin
    | some c =>
      obtain ⟨rfl, he⟩ := (mem_inbound hc).mp hin
      exact h.streams c (agent_of_counts hcounts) ev he

theorem inbound_eq_nil (h : ∀ c ∈ s.pump.conn, (s.links c).stream = []) : s.inbound = [] := by
  cases hc : s.pump.conn with
  | none => simp only [inbound, hc]
  | some c => simp only [inbound, hc, h c hc, map_nil]

theorem fed_of_done (h : ∀ p ∈ s.published, Foreign mine p.2 → s.Done p)
    (hasked : ∀ c since, s.pump = .asked c since → (s.links c).own = true →
      (s.links c).agent = s.agent → ∃ n, since = some n ∧ n ≤ s.hub.seq) : s.Fed mine := by
  have howed (e : FsEvent) (he : s.Owed mine e) : s.Done (s.agent, e) :=
    h _ (mem_published.mpr (.inr ⟨rfl, he.1⟩)) he.2
  refine ⟨unbroken_of_done fun _ _ _ e he _ => howed e he, fun _ e he _ => howed e he,
    fun _ _ _ _ _ => .inr fun e he => .inl (howed e he), fun _ p hp hforeign => ?_,
    fun c since hp hown hagent => ?_⟩
  · exact h p (mem_published.mpr (.inl hp)) hforeign
  · obtain ⟨n, hn, hle⟩ := hasked c since hp hown hagent
    exact ⟨n, hn, hle, fun e he _ => howed e he, fun p hp => h p (mem_published.mpr (.inl hp))⟩

theorem done_reconcile (s : SyncRun) : ∀ p ∈ s.reconcile.published, s.reconcile.Done p :=
  fun _ hp => .inr hp

theorem inv_init {cap : ℕ} (hcap : 0 < cap) (lastSeq : ℕ) : (init cap lastSeq).Inv mine where
  logs := EventHub.logs_withCapacity hcap
  tags := ⟨fun _ => le_rfl, nofun, nofun, nofun, nofun, nofun⟩
  wired := ⟨nofun, Nat.zero_le _, nofun, fun _ _ => ⟨rfl, rfl⟩, nofun, nofun⟩
  fed := ⟨trivial, nofun, nofun, nofun, nofun⟩

/-! ## What holds of one connection -/

theorem links_setLink_self (s : SyncRun) (c : ℕ) (link : SyncLink) :
    (s.setLink c link).links c = link :=
  Function.update_self _ _ _

theorem links_setLink_of_ne {k : ℕ} (hk : k ≠ c) (link : SyncLink) :
    (s.setLink c link).links k = s.links k :=
  Function.update_of_ne hk _ _

theorem forall_setLink {P : ℕ → SyncLink → Prop} (hc : P c link) (h : ∀ k, P k (s.links k))
    (k : ℕ) : P k ((s.setLink c link).links k) := by
  by_cases hk : k = c
  · subst hk
    rwa [links_setLink_self]
  · rw [links_setLink_of_ne hk]
    exact h k

/-- What the invariant says of a connection by itself. -/
structure LinkOk (mine : ℕ → Bool) (s : SyncRun) (k : ℕ) (link : SyncLink) : Prop where
  agent : link.agent ≤ s.agent
  seqs : link.agent = s.agent → ∀ e ∈ link.stream, e.seq ≤ s.hub.seq
  unused : s.pump ≠ .over → link.subscribed = true → k < s.pump.bound
  idle : link.subscribed = false → link.stream = [] ∧ link.settled = false
  session : link.up = true ∨ link.subscribed = true → mine link.session = true

/-- The invariant, but for what may be missing. -/
structure Ready (mine : ℕ → Bool) (s : SyncRun) : Prop where
  logs : s.hub.Logs s.history
  tags : s.Tags
  wired : s.Wired mine

/-- The connections and the pump change; the rest stays. -/
def rewired (s : SyncRun) (links : ℕ → SyncLink) (pump : SyncPump) (current : ℕ) (started : Bool) :
    SyncRun :=
  { s with links := links, pump := pump, current := current, started := started }

theorem Inv.linkOk (hi : s.Inv mine) (k : ℕ) : LinkOk mine s k (s.links k) :=
  ⟨hi.tags.agents k, hi.tags.streams k, fun hover => hi.wired.unused hover k, hi.wired.idle k,
    hi.wired.sessions k⟩

theorem LinkOk.turn {k : ℕ} (h : LinkOk mine s k link) (hover : s.pump ≠ .over)
    (hle : s.pump.bound ≤ pump.bound) : LinkOk mine { s with pump := pump } k link :=
  { h with unused := fun _ hsub => (h.unused hover hsub).trans_le hle }

section

variable (hi : s.Inv mine)
include hi

theorem Inv.ready {current : ℕ} {started : Bool}
    (hlinks : ∀ k, LinkOk mine { s with pump := pump } k (links k))
    (hconn : ∀ c ∈ pump.conn, c ≤ current) (hbound : pump.bound ≤ current + 1)
    (hanswered : ∀ c since last, pump = .answered c since last → started = true →
      (links c).own = true ∨ ∃ n ∈ since, last < n) :
    Ready mine (s.rewired links pump current started) where
  logs := hi.logs
  tags := { hi.tags with
    agents := fun k => (hlinks k).agent
    streams := fun k => (hlinks k).seqs }
  wired := ⟨hconn, hbound, fun hover k => (hlinks k).unused hover, fun k => (hlinks k).idle,
    fun k => (hlinks k).session, hanswered⟩

/-- **The line stays**: what the pump has before it comes from the same connection as before. -/
theorem Inv.onward {current : ℕ} {started : Bool}
    (hready : Ready mine (s.rewired links pump current started))
    (hin : (s.rewired links pump current started).inbound = s.inbound)
    (hsame : ∀ c ∈ pump.conn, (links c).subscribed = true → c ∈ s.pump.conn ∧ links c = s.links c)
    (hasked : ∀ c since, pump = .asked c since → s.pump = pump ∧ links c = s.links c) :
    (s.rewired links pump current started).Inv mine := by
  have hline : (s.rewired links pump current started).line = s.line :=
    congrArg (s.queue.filterMap (opItem s.agent) ++ ·) hin
  refine ⟨hready.logs, hready.tags, hready.wired, ?_, hi.fed.low, ?_, ?_, ?_⟩
  · rw [hline]
    exact hi.fed.line
  · intro c hc htalks hsub hcounts
    obtain ⟨hc', hlink⟩ := hsame c hc hsub
    rw [hline]
    simp only [rewired, talks, counts, hlink] at htalks hsub hcounts ⊢
    exact hi.fed.full c hc' htalks hsub hcounts
  · rintro (hmark | hqueue | ⟨c, hc, hsub, hcounts⟩)
    · exact hi.fed.past (.inl hmark)
    · exact hi.fed.past (.inr (.inl hqueue))
    · obtain ⟨hc', hlink⟩ := hsame c hc hsub
      simp only [rewired, counts, hlink] at hsub hcounts
      exact hi.fed.past (.inr (.inr ⟨c, hc', hsub, hcounts⟩))
  · intro c since hp hown hagent
    obtain ⟨hp', hlink⟩ := hasked c since hp
    simp only [rewired, hlink] at hown hagent
    exact hi.fed.asked c since (hp'.trans hp) hown hagent

/-! ## Steps of the pump alone -/

theorem Inv.turn (hover : s.pump ≠ .over) (hle : s.pump.bound ≤ pump.bound)
    (hconn : ∀ c ∈ pump.conn, c ≤ s.current) (hbound : pump.bound ≤ s.current + 1)
    (hanswered : ∀ c since last, pump = .answered c since last → s.started = true →
      (s.links c).own = true ∨ ∃ n ∈ since, last < n)
    (hin : inbound { s with pump := pump } = s.inbound)
    (hsame : ∀ c ∈ pump.conn, (s.links c).subscribed = true → c ∈ s.pump.conn)
    (hasked : ∀ c since, pump ≠ .asked c since) : Inv mine { s with pump := pump } :=
  hi.onward (hi.ready (fun k => (hi.linkOk k).turn hover hle) hconn hbound hanswered) hin
    (fun c hc hsub => ⟨hsame c hc hsub, rfl⟩) fun c since h => absurd h (hasked c since)

theorem Inv.turn_conn (hc : s.pump.conn = some c) (hconn : pump.conn = some c)
    (hle : s.pump.bound ≤ pump.bound) (hbound : pump.bound ≤ s.current + 1)
    (hanswered : ∀ c since last, pump = .answered c since last → s.started = true →
      (s.links c).own = true ∨ ∃ n ∈ since, last < n)
    (hasked : ∀ c since, pump ≠ .asked c since) : Inv mine { s with pump := pump } := by
  have hover : s.pump ≠ .over := fun h => by rw [h] at hc; cases hc
  have heq : pump.conn = s.pump.conn := hconn.trans hc.symm
  refine hi.turn hover hle ?_ hbound hanswered ?_ (fun _ hc _ => heq ▸ hc) hasked
  · rw [heq]
    exact hi.wired.conn
  · simp only [inbound, heq]
    rfl

theorem Inv.closed (hp : s.pump = .receiving c epoch)
    (hstream : (s.links c).stream = []) : Inv mine { s with pump := .waiting epoch } := by
  have hbound := hi.wired.bound
  rw [hp] at hbound
  refine hi.turn (by simp [hp]) (by simp [hp, SyncPump.bound]) nofun hbound nofun ?_ nofun nofun
  simp only [inbound, hp, SyncPump.conn, hstream, map_nil]

end

theorem Wired.fresh (hw : s.Wired mine) (hover : s.pump ≠ .over) (hc : s.pump.bound ≤ c) :
    (s.links c).subscribed = false := by
  cases hsub : (s.links c).subscribed with
  | false => rfl
  | true => exact absurd (hw.unused hover c hsub) (not_lt.mpr hc)

section

variable (hi : s.Inv mine)
include hi

theorem Inv.wake (hp : s.pump = .waiting epoch)
    (hlt : epoch < s.current) : Inv mine { s with pump := .resuming s.current } := by
  have hle : s.pump.bound ≤ s.current := by simpa [hp, SyncPump.bound]
  have hfresh := hi.wired.fresh (by simp [hp]) hle
  refine hi.turn (by simp [hp]) hle ?_ (Nat.le_succ _) nofun ?_ ?_ nofun
  · rintro c ⟨⟩
    exact le_rfl
  · simp only [inbound, hp, SyncPump.conn, (hi.wired.idle _ hfresh).1, map_nil]
  · rintro c ⟨⟩ hsub
    rw [hfresh] at hsub
    cases hsub

theorem Inv.reply (hp : s.pump = .served c since)
    (hok : s.seqOk .reply) : Inv mine { s with pump := .answered c since s.hub.seq } := by
  have hbound := hi.wired.bound
  rw [hp] at hbound
  simp only [seqOk, hp] at hok
  refine hi.turn_conn (by rw [hp]; rfl) rfl (by simp [hp, SyncPump.bound]) hbound ?_ nofun
  rintro c' since' last ⟨⟩
  exact hok

theorem Inv.expired (hp : s.pump = .asked c since) : Inv mine { s with pump := .expired c } := by
  have hbound := hi.wired.bound
  rw [hp] at hbound
  exact hi.turn_conn (by rw [hp]; rfl) rfl (by simp [hp, SyncPump.bound]) hbound nofun nofun

theorem Inv.skipLive (hp : s.pump = .expired c) : Inv mine { s with pump := .refreshed c } :=
  hi.turn_conn (by rw [hp]; rfl) rfl (by simp [hp, SyncPump.bound])
    (Nat.succ_le_succ (hi.wired.conn c (by rw [hp]; rfl))) nofun nofun

theorem Inv.fail (hc : s.pump.conn = some c) : Inv mine { s with pump := .receiving c s.current } :=
  hi.turn_conn hc rfl hi.wired.bound le_rfl nofun nofun

theorem Inv.over : Inv mine { s with pump := .over } := by
  refine ⟨hi.logs, { hi.tags with }, ⟨nofun, Nat.zero_le _, fun h => absurd rfl h, hi.wired.idle,
    hi.wired.sessions, nofun⟩, ?_, hi.fed.low, nofun, ?_, nofun⟩
  · have : line { s with pump := .over } = s.queue.filterMap (opItem s.agent) := append_nil _
    rw [this]
    exact hi.fed.line.of_append
  · rintro (hmark | hqueue | ⟨c, hc, -⟩)
    · exact hi.fed.past (.inl hmark)
    · exact hi.fed.past (.inr (.inl hqueue))
    · cases hc

end

/-! ## Steps that reconcile -/

theorem Ready.reconcile (h : s.Ready mine)
    (hasked : ∀ c since, s.pump = .asked c since → (s.links c).own = true →
      (s.links c).agent = s.agent → ∃ n, since = some n ∧ n ≤ s.hub.seq) :
    s.reconcile.Inv mine := by
  have hmem {a : Option ℕ} {ev : FsEvent} (h : SyncOp.remote a ev ∈ s.reconcile.queue) :
      SyncOp.remote a ev ∈ s.queue := by
    rcases mem_append.mp h with h | h
    · exact h
    · simp at h
  exact ⟨h.logs, { h.tags with
      sources := fun a ev hop => h.tags.sources a ev (hmem hop)
      queued := fun ev hop => h.tags.queued ev (hmem hop) },
    { h.wired with }, fed_of_done (fun p hp _ => done_reconcile s p hp) hasked⟩

/-! ## Steps of a connection -/

/-- What a connection keeps when only its stream changes, or its end. -/
structure SameEnds (old new : SyncLink) : Prop where
  agent : new.agent = old.agent
  session : new.session = old.session
  up : new.up = true → old.up = true
  subscribed : new.subscribed = old.subscribed
  own : new.own = old.own
  settled : new.settled = old.settled ∨ new.settled = old.subscribed
  source : source new = source old

theorem LinkOk.ends {k : ℕ} {old : SyncLink} (h : LinkOk mine s k old) (hends : SameEnds old link)
    (hidle : link.subscribed = false → link.stream = [])
    (hseqs : ∀ e ∈ link.stream, e ∈ old.stream ∨ e.seq = 0) : LinkOk mine s k link where
  agent := hends.agent ▸ h.agent
  seqs hagent e he := by
    rcases hseqs e he with hold | hzero
    · exact h.seqs (hends.agent ▸ hagent) e hold
    · rw [hzero]
      exact Nat.zero_le _
  unused := hends.subscribed ▸ h.unused
  idle hsub := by
    have hold : old.subscribed = false := hends.subscribed ▸ hsub
    refine ⟨hidle hsub, ?_⟩
    rcases hends.settled with heq | heq
    · exact heq.trans (h.idle hold).2
    · exact heq.trans hold
  session hup := by
    rw [hends.session]
    exact h.session (hup.imp hends.up fun hsub => hends.subscribed ▸ hsub)

theorem SameEnds.setLink (h : SameEnds (s.links c) link) :
    ∀ k, SameEnds (s.links k) ((s.setLink c link).links k) :=
  forall_setLink (P := fun k => SameEnds (s.links k)) h fun _ =>
    ⟨rfl, rfl, id, rfl, rfl, .inl rfl, rfl⟩

theorem SameEnds.counts (h : SameEnds (s.links c) (s'.links c)) (hagent : s'.agent = s.agent) :
    s'.counts c = s.counts c := by
  simp only [SyncRun.counts, h.source, hagent]

theorem SameEnds.talks (h : SameEnds (s.links c) (s'.links c)) (hagent : s'.agent = s.agent)
    (htalks : s'.talks c = true) : s.talks c = true := by
  simp only [SyncRun.talks, Bool.and_eq_true, decide_eq_true_eq, h.agent, hagent] at htalks ⊢
  exact ⟨h.up htalks.1, htalks.2⟩

theorem Inv.ready_setLink (hi : s.Inv mine) (h : SameEnds (s.links c) link)
    (hidle : link.subscribed = false → link.stream = [])
    (hseqs : ∀ e ∈ link.stream, e ∈ (s.links c).stream ∨ e.seq = 0) :
    (s.setLink c link).Ready mine :=
  hi.ready (forall_setLink ((hi.linkOk c).ends h hidle hseqs) hi.linkOk) hi.wired.conn
    hi.wired.bound fun k since last hp hs => by
      change ((s.setLink c link).links k).own = true ∨ _
      rw [(h.setLink k).own]
      exact hi.wired.answered k since last hp hs

/-- **A connection's stream changes**: it must still count for something. -/
theorem Inv.setLink (hi : s.Inv mine) (h : SameEnds (s.links c) link)
    (hidle : link.subscribed = false → link.stream = [])
    (hseqs : ∀ e ∈ link.stream, e ∈ (s.links c).stream ∨ e.seq = 0)
    (hline : s.pump.conn = some c → Unbroken FsEvent.seq Resync (s.Owed mine)
      (fun e => s.Done (s.agent, e))
      (s.queue.filterMap (opItem s.agent) ++ link.stream.map (s.counts c, ·)))
    (hfull : link.up = true → (∃ e ∈ link.stream, Resync e) ∨
      ∀ e, e ∈ (s.links c).stream → e ∈ link.stream) : (s.setLink c link).Inv mine := by
  have hready := hi.ready_setLink h hidle hseqs
  have hcounts (k : ℕ) : (s.setLink c link).counts k = s.counts k := (h.setLink k).counts rfl
  have hinbound (hc : s.pump.conn = some c) :
      (s.setLink c link).inbound = link.stream.map (s.counts c, ·) := by
    have : (s.setLink c link).pump.conn = some c := hc
    simp only [inbound, this, links_setLink_self, hcounts]
  have hother (hc : s.pump.conn ≠ some c) : (s.setLink c link).inbound = s.inbound := by
    cases hp : s.pump.conn with
    | none =>
      have : (s.setLink c link).pump.conn = none := hp
      simp only [inbound, this, hp]
    | some c' =>
      have hne : c' ≠ c := fun heq => hc (heq ▸ hp)
      have : (s.setLink c link).pump.conn = some c' := hp
      simp only [inbound, this, hp, links_setLink_of_ne hne, hcounts]
  refine ⟨hready.logs, hready.tags, hready.wired, ?_, hi.fed.low,
    fun c' hc' htalks hsub hcount => ?_, fun he => hi.fed.past ?_,
      fun c' since hp hown hagent => ?_⟩
  · by_cases hc : s.pump.conn = some c
    · have := hline hc
      rw [← hinbound hc] at this
      exact this
    · have := hi.fed.line
      rw [line, ← hother hc] at this
      exact this
  · have hold := hi.fed.full c' hc' ((h.setLink c').talks rfl htalks)
      ((h.setLink c').subscribed ▸ hsub) (hcounts c' ▸ hcount)
    by_cases hcc : c' = c
    · subst hcc
      have hup : link.up = true := by
        simp only [talks, links_setLink_self, Bool.and_eq_true] at htalks
        exact htalks.1
      rcases hfull hup with ⟨e, he, hres⟩ | hkeep
      · refine .inl ⟨(s.counts c', e), mem_append_right _ ?_, hres⟩
        rw [hinbound hc']
        exact mem_map_of_mem he
      · rcases hold with ⟨p, hp, hres⟩ | hall
        · refine .inl ⟨p, ?_, hres⟩
          rcases mem_append.mp hp with hq | hin
          · exact mem_append_left _ hq
          · obtain ⟨hp1, hp2⟩ := (mem_inbound (s := s) hc').mp hin
            refine mem_append_right _ ?_
            rw [hinbound hc', mem_map]
            exact ⟨p.2, hkeep _ hp2, by rw [← hp1]⟩
        · exact .inr fun e he => (hall e he).imp_right fun hmem => by
            rw [links_setLink_self]
            exact hkeep e hmem
    · have hc : s.pump.conn ≠ some c := fun heq => hcc (Option.some.inj (hc'.symm.trans heq))
      rcases hold with ⟨p, hp, hres⟩ | hall
      · refine .inl ⟨p, ?_, hres⟩
        rw [line, hother hc]
        exact hp
      · rw [links_setLink_of_ne hcc]
        exact .inr hall
  · rcases he with hmark | hqueue | ⟨k, hk, hsub, hcount⟩
    · exact .inl hmark
    · exact .inr (.inl hqueue)
    · exact .inr (.inr ⟨k, hk, (h.setLink k).subscribed ▸ hsub, hcounts k ▸ hcount⟩)
  · exact hi.fed.asked c' since hp ((h.setLink c').own ▸ hown) ((h.setLink c').agent ▸ hagent)

theorem Inv.lag (hi : s.Inv mine) {start stop : ℕ}
    (h : start < stop ∧ stop ≤ (s.links c).stream.length) :
    (s.setLink c { s.links c with
      stream := (s.links c).stream.take start ++ resync ++
        (s.links c).stream.drop stop }).Inv mine := by
  refine hi.setLink ⟨rfl, rfl, id, rfl, rfl, .inl rfl, rfl⟩ (fun hsub => ?_) (fun e he => ?_)
      (fun hc => ?_)
    fun _ => ?_
  · rw [(hi.wired.idle c hsub).1] at h
    simp only [length_nil] at h
    omega
  · simp only [mem_append] at he
    rcases he with (he | he) | he
    · exact .inl (mem_of_mem_take he)
    · rw [resync, mem_singleton] at he
      exact .inr (he ▸ rfl)
    · exact .inl (mem_of_mem_drop he)
  · have hold := hi.fed.line
    simp only [line, inbound, hc] at hold
    rw [← take_append_drop start (s.links c).stream, map_append, ← append_assoc] at hold
    rw [append_assoc, map_append, ← append_assoc]
    exact unbroken_append hold.of_append (.inr (.inl rfl))
  · refine .inl ⟨⟨0, .resyncRequired, ⟨[]⟩, none, none⟩, ?_, rfl⟩
    exact mem_append_left _ (mem_append_right _ mem_cons_self)

theorem Inv.cut (hi : s.Inv mine) (c arrived : ℕ) :
    (s.setLink c { s.links c with
      up := false, stream := (s.links c).stream.take arrived }).Inv mine := by
  refine hi.setLink ⟨rfl, rfl, nofun, rfl, rfl, .inl rfl, rfl⟩ (fun hsub => ?_)
    (fun e he => .inl (mem_of_mem_take he)) (fun hc => ?_) nofun
  · simp only [(hi.wired.idle c hsub).1, take_nil]
  · have hold := hi.fed.line
    simp only [line, inbound, hc] at hold
    rw [← take_append_drop arrived (s.links c).stream, map_append,
      ← append_assoc] at hold
    exact hold.of_append

theorem linkOk_dialled (hmine : mine session = true) (k : ℕ) :
    LinkOk mine { s with pump := pump } k (s.dialled session) :=
  ⟨le_rfl, nofun, nofun, fun _ => ⟨rfl, rfl⟩, fun _ => hmine⟩

theorem Inv.start (hi : s.Inv mine) (hmine : mine session = true) (hp : s.pump = .off) :
    Inv mine { s.setLink 0 (s.dialled session) with pump := .resuming 0 } := by
  have hself := links_setLink_self s 0 (s.dialled session)
  refine hi.onward (hi.ready (forall_setLink (linkOk_dialled hmine 0) fun k =>
    (hi.linkOk k).turn (by simp [hp]) (by simp [hp, SyncPump.bound])) ?_ (Nat.zero_le _) nofun)
    ?_ ?_ nofun
  · rintro c ⟨⟩
    exact Nat.zero_le _
  · simp only [inbound, rewired, hp, SyncPump.conn, hself]
    rfl
  · rintro c ⟨⟩ hsub
    cases hsub

theorem Inv.reconnect (hi : s.Inv mine) (hmine : mine session = true) :
    Inv mine { s.setLink (s.current + 1) (s.dialled session) with current := s.current + 1 } := by
  -- the pump does not have the new connection
  have hsame (c : ℕ) (hc : c ∈ s.pump.conn) :
      (s.setLink (s.current + 1) (s.dialled session)).links c = s.links c :=
    links_setLink_of_ne (Nat.ne_of_lt (Nat.lt_succ_of_le (hi.wired.conn c hc))) _
  change Inv mine (s.rewired (s.setLink (s.current + 1) (s.dialled session)).links s.pump
    (s.current + 1) s.started)
  refine hi.onward (hi.ready (forall_setLink (linkOk_dialled hmine _) hi.linkOk) ?_
    (Nat.le_succ_of_le hi.wired.bound) ?_) ?_ (fun c hc _ => ⟨hc, hsame c hc⟩) fun c since hp =>
    ⟨rfl, hsame c (by rw [hp]; rfl)⟩
  · exact fun c hc => Nat.le_succ_of_le (hi.wired.conn c hc)
  · intro c since last hp hs
    rw [hsame c (by rw [hp]; rfl)]
    exact hi.wired.answered c since last hp hs
  · cases hc : s.pump.conn with
    | none => simp only [inbound, rewired, hc]
    | some c => simp only [inbound, rewired, counts, hc, hsame c hc]

/-! ## Steps of the subscription -/

/-- The pump's connection is used for the first time. -/
structure Begun (s : SyncRun) (c : ℕ) (pump : SyncPump) (link : SyncLink) : Prop where
  conn : s.pump.conn = some c
  fresh : (s.links c).subscribed = false
  agent : link.agent = (s.links c).agent
  session : link.session = (s.links c).session
  up : link.up = (s.links c).up
  settled : link.settled = false
  idle : link.subscribed = false → link.stream = []
  used : link.subscribed = true → link.up = true ∧ c < pump.bound
  stays : pump.conn = some c
  bound : s.pump.bound ≤ pump.bound ∧ pump.bound ≤ s.current + 1
  answered : ∀ c since last, pump ≠ .answered c since last

theorem Begun.not_over (h : s.Begun c pump link) : s.pump ≠ .over := fun hp => by
  have hc := h.conn
  rw [hp] at hc
  cases hc

theorem Inv.linkOk_begun (hi : s.Inv mine) (h : s.Begun c pump link)
    (hseqs : ∀ e ∈ link.stream, e.seq ≤ s.hub.seq) :
    LinkOk mine { s with pump := pump } c link where
  agent := h.agent ▸ hi.tags.agents c
  seqs _ := hseqs
  unused _ hsub := (h.used hsub).2
  idle hsub := ⟨h.idle hsub, h.settled⟩
  session hup := by
    have hup : link.up = true := hup.elim id fun hsub => (h.used hsub).1
    rw [h.session]
    exact hi.wired.sessions c (.inl (h.up ▸ hup))

/-- **The pump's connection is used for the first time**: what comes from it follows on what is in
the queue. -/
theorem Inv.begun (hi : s.Inv mine)
    (h : s.Begun c pump link) (hseqs : ∀ e ∈ link.stream, e.seq ≤ s.hub.seq)
    (hline : source link = some s.agent → link.subscribed = true →
      (∀ e, s.Owed mine e → s.Done (s.agent, e) ∨ e ∈ link.stream) ∧
      link.stream.Pairwise (fun a b => a.seq < b.seq) ∧ ∀ p ∈ s.past, Foreign mine p.2 → s.Done p)
    (hasked : ∀ since, pump = .asked c since → link.own = true → link.agent = s.agent →
      ∃ n, since = some n ∧ n ≤ s.hub.seq ∧
        (∀ e, s.Owed mine e → e.seq ≤ n → s.Done (s.agent, e)) ∧
        ∀ p ∈ s.past, Foreign mine p.2 → s.Done p) :
    Inv mine { s.setLink c link with pump := pump } := by
  have hold : s.line = s.queue.filterMap (opItem s.agent) := by
    rw [line, inbound_eq_nil, append_nil]
    intro c' hc'
    have hcc : c' = c := Option.some.inj (hc'.symm.trans h.conn)
    exact hcc ▸ (hi.wired.idle c h.fresh).1
  have hnew : line { s.setLink c link with pump := pump } =
      s.line ++ link.stream.map (decide (source link = some s.agent), ·) := by
    rw [hold, line]
    simp only [inbound, h.stays, counts, links_setLink_self]
    rfl
  have hmem {k : ℕ} (hk : pump.conn = some k) : k = c := Option.some.inj (hk.symm.trans h.stays)
  have hready : Ready mine { s.setLink c link with pump := pump } :=
    hi.ready (forall_setLink (hi.linkOk_begun h hseqs) fun k =>
      (hi.linkOk k).turn h.not_over h.bound.1)
      (fun k hk => hmem hk ▸ hi.wired.conn c h.conn) h.bound.2
      fun k since last hp => absurd hp (h.answered k since last)
  refine ⟨hready.logs, hready.tags, hready.wired, ⟨?_, hi.fed.low, fun k hk _ hsub hcount => ?_, ?_,
    fun k since hp hown hagent => ?_⟩⟩
  · rw [hnew]
    refine unbroken_append hi.fed.line (.inr ?_)
    by_cases hcount : source link = some s.agent
    · cases hsub : link.subscribed with
      | false =>
        rw [h.idle hsub]
        trivial
      | true =>
        obtain ⟨hall, hasc, -⟩ := hline hcount hsub
        rw [decide_eq_true hcount]
        exact unbroken_of_pairwise hasc fun a _ b hb _ => (hall b hb).imp_left .inl
    · refine unbroken_of_not_counts fun p hp => ?_
      obtain ⟨e, -, rfl⟩ := mem_map.mp hp
      exact decide_eq_false hcount
  · cases hmem hk
    simp only [links_setLink_self] at hsub ⊢
    have hcount : source link = some s.agent := by
      have := of_decide_eq_true hcount
      rwa [links_setLink_self] at this
    exact .inr (hline hcount hsub).1
  · rintro (hmark | hqueue | ⟨k, hk, hsub, hcount⟩)
    · exact hi.fed.past (.inl hmark)
    · exact hi.fed.past (.inr (.inl hqueue))
    · cases hmem hk
      simp only [links_setLink_self] at hsub
      have hcount : source link = some s.agent := by
        have := of_decide_eq_true hcount
        rwa [links_setLink_self] at this
      exact (hline hcount hsub).2.2
  · have hkc : k = c := hmem (by
      have hp' : pump = .asked k since := hp
      rw [hp']
      rfl)
    subst hkc
    rw [links_setLink_self] at hown hagent
    exact hasked since hp hown hagent

theorem Inv.ask (hi : s.Inv mine) (hp : s.pump = .resuming c) :
    Inv mine { s.setLink c { s.links c with own := decide (s.mark = some (s.links c).agent) } with
      pump := .asked c (if s.lastSeq = 0 then none else some s.lastSeq) } := by
  have hbound := hi.wired.bound
  have hfresh := hi.wired.fresh (c := c) (by rw [hp]; nofun) (by rw [hp]; exact le_rfl)
  have hidle := hi.wired.idle c hfresh
  rw [hp] at hbound
  refine hi.begun ⟨by rw [hp]; rfl, hfresh, rfl, rfl, rfl, hidle.2, fun _ => hidle.1,
    (fun hsub => by rw [hfresh] at hsub; cases hsub), rfl, ⟨by rw [hp]; exact le_rfl, hbound⟩,
    nofun⟩ ?_ (fun _ hsub => by rw [hfresh] at hsub; cases hsub) ?_
  · rw [hidle.1]
    nofun
  · rintro since ⟨⟩ hown hagent
    have hmark : s.mark = some s.agent := (of_decide_eq_true hown).trans (congrArg some hagent)
    have hpos := (hi.tags.marked _ hmark).2
    exact ⟨s.lastSeq, if_neg (Nat.ne_of_gt hpos), hi.tags.lastSeq hmark, hi.fed.low hmark,
      hi.fed.past (.inl hmark)⟩

theorem mem_strip :
    e ∈ strip session batch ↔ e ∈ batch ∧ e.origin ≠ some session := by
  simp [strip]

theorem mem_strip_of_foreign
    (hmine : mine session = true) (he : e ∈ batch) (hforeign : Foreign mine e) :
    e ∈ strip session batch := by
  refine mem_strip.mpr ⟨he, fun horigin => ?_⟩
  have := hforeign session horigin
  rw [hmine] at this
  cases this

theorem pairwise_history (hlogs : s.hub.Logs s.history) :
    s.history.Pairwise fun a b => a.seq < b.seq := by
  have : (range' 1 s.history.length).Pairwise (· < ·) := pairwise_lt_range' 1
  rwa [← hlogs.seqs, pairwise_map] at this

theorem catchup_sublist {history catchup : List FsEvent}
    (hlogs : hub.Logs history) (h : hub.subscribe since = .ok catchup) :
    catchup.Sublist history := by
  unfold EventHub.subscribe at h
  split at h
  · cases h
    exact nil_sublist _
  · split at h
    · split at h
      · cases h
      · cases h
        rw [hlogs.log]
        exact filter_sublist.trans (drop_sublist _ _)
    · cases h
      exact nil_sublist _

section

variable (hi : s.Inv mine)
include hi

theorem Inv.serve {catchup : List FsEvent}
    (hp : s.pump = .asked c since) (htalks : s.talks c = true)
    (hsub : s.hub.subscribe since = .ok catchup) :
    Inv mine { s.setLink c { s.links c with
        subscribed := true, stream := strip (s.links c).session catchup } with
      pump := .served c since } := by
  have hconn := hi.wired.conn c (by rw [hp]; rfl)
  have hfresh := hi.wired.fresh (c := c) (by rw [hp]; nofun) (by rw [hp]; exact le_rfl)
  have hidle := hi.wired.idle c hfresh
  have hsublist := catchup_sublist hi.logs hsub
  obtain ⟨hup, hagent⟩ := Bool.and_eq_true_iff.mp htalks
  refine hi.begun ⟨by rw [hp]; rfl, hfresh, rfl, rfl, rfl, hidle.2, nofun,
    fun _ => ⟨hup, Nat.lt_succ_self c⟩, rfl, ⟨by rw [hp]; exact Nat.le_succ c,
      Nat.succ_le_succ hconn⟩, nofun⟩ (fun e he => ?_) (fun hcount _ => ?_) nofun
  · have hmem := hsublist.subset (mem_strip.mp he).1
    rw [hi.logs.seq]
    exact (hi.logs.seq_of_mem hmem).2
  · have hown : (s.links c).own = true := by
      simp only [source, SyncLink.sound, hidle.2, Bool.or_false] at hcount
      by_contra hne
      rw [if_neg hne] at hcount
      cases hcount
    obtain ⟨n, rfl, -, hlow, hpast⟩ := hi.fed.asked c since hp hown (of_decide_eq_true hagent)
    refine ⟨fun e he => ?_, ?_, hpast⟩
    · rcases Nat.lt_or_ge n e.seq with hlt | hge
      · exact .inr (mem_strip_of_foreign (hi.wired.sessions c (.inl hup))
          (hi.logs.mem_catchup hsub he.1 hlt) he.2)
      · exact .inl (hlow e he hge)
    · exact (pairwise_history hi.logs).sublist (filter_sublist.trans hsublist)

theorem Inv.serveLive (hp : s.pump = .expired c) (htalks : s.talks c = true) :
    Inv mine { s.setLink c { s.links c with subscribed := true, own := false } with
      pump := .refreshed c } := by
  have hconn := hi.wired.conn c (by rw [hp]; rfl)
  have hfresh := hi.wired.fresh (c := c) (by rw [hp]; nofun) (by rw [hp]; exact le_rfl)
  have hidle := hi.wired.idle c hfresh
  obtain ⟨hup, -⟩ := Bool.and_eq_true_iff.mp htalks
  refine hi.begun ⟨by rw [hp]; rfl, hfresh, rfl, rfl, rfl, hidle.2, nofun,
    fun _ => ⟨hup, Nat.lt_succ_self c⟩, rfl, ⟨by rw [hp]; exact Nat.le_succ c,
      Nat.succ_le_succ hconn⟩, nofun⟩ ?_ (fun hcount _ => ?_) nofun
  · rw [hidle.1]
    nofun
  · simp [source, SyncLink.sound, hidle.2] at hcount

/-! ## The answer -/

theorem Inv.start_over (started : Bool) (hp : ∀ c since last, s.pump ≠ .answered c since last) :
    Inv mine { s with started := started } :=
  ⟨hi.logs, { hi.tags with }, { hi.wired with
    answered := fun c since last h => absurd h (hp c since last) }, { hi.fed with }⟩

theorem Inv.receive (hc : s.pump.conn = some c)
    (hown : (s.links c).own = true) : (s.receive c).Inv mine := by
  have hsource :
      source { s.links c with settled := (s.links c).subscribed } = source (s.links c) := by
    simp only [source, SyncLink.sound, hown, Bool.true_or]
  have hset : (s.setLink c { s.links c with settled := (s.links c).subscribed }).Inv mine := by
    refine hi.setLink ⟨rfl, rfl, id, rfl, rfl, .inr rfl, hsource⟩
      (fun hsub => (hi.wired.idle c hsub).1) (fun e he => .inl he) (fun hc => ?_)
      fun _ => .inr fun _ => id
    have := hi.fed.line
    simp only [line, inbound, hc] at this
    exact this
  exact (hset.fail hc).start_over true nofun

theorem Inv.receive_reconcile (hc : s.pump.conn = some c) : (s.receive c).reconcile.Inv mine := by
  have hover : s.pump ≠ .over := fun h => by rw [h] at hc; cases hc
  have hlink (k : ℕ) : LinkOk mine { s with pump := .receiving c s.current } k (s.links k) :=
    (hi.linkOk k).turn hover hi.wired.bound
  have hready : (s.receive c).Ready mine := hi.ready (forall_setLink
    { hlink c with idle := fun hsub => ⟨((hlink c).idle hsub).1, hsub⟩ } hlink) ?_ le_rfl
    nofun
  · exact hready.reconcile nofun
  · rintro c' ⟨⟩
    exact hi.wired.conn c hc

theorem Inv.settle {last : ℕ}
    (hp : s.pump = .answered c since last) (hs : s.started = true) (hle : ∀ n ∈ since, n ≤ last) :
    (s.receive c).Inv mine := by
  refine hi.receive (by rw [hp]; rfl) ?_
  rcases hi.wired.answered c since last hp hs with hown | ⟨n, hn, hlt⟩
  · exact hown
  · exact absurd hlt (not_lt.mpr (hle n hn))

end

/-! ## Receiving -/

theorem sameEnds_behead (link : SyncLink) (count : ℕ) : SameEnds link (behead link count) :=
  ⟨rfl, rfl, id, rfl, rfl, .inl rfl, rfl⟩

theorem Inv.ready_behead (hi : s.Inv mine) (c count : ℕ) :
    (s.setLink c (behead (s.links c) count)).Ready mine := by
  refine hi.ready_setLink (sameEnds_behead _ _) (fun hsub => ?_) fun e he =>
    .inl (mem_of_mem_drop he)
  simp only [behead, (hi.wired.idle c hsub).1, drop_nil]

theorem line_deliver (hc : s.pump.conn = some c) (count : ℕ) :
    (s.deliver c count).line = s.line := by
  have hfilter (events : List FsEvent) :
      (events.map (SyncOp.remote (source (s.links c)) ·)).filterMap (opItem s.agent) =
        events.map (s.counts c, ·) := by
    rw [filterMap_map, ← filterMap_eq_map]
    rfl
  have hitems : (s.deliver c count).queue.filterMap (opItem s.agent) =
      s.queue.filterMap (opItem s.agent) ++
        ((s.links c).stream.take count).map (s.counts c, ·) := by
    rw [← hfilter, ← filterMap_append]
    rfl
  have hinbound : (s.deliver c count).inbound =
      ((s.links c).stream.drop count).map (s.counts c, ·) := by
    have hconn : (s.deliver c count).pump.conn = some c := hc
    have hlink : (s.deliver c count).links c = behead (s.links c) count := links_setLink_self s c _
    have hcounts : (s.deliver c count).counts c = s.counts c :=
      ((sameEnds_behead (s.links c) count).setLink c).counts rfl
    simp only [inbound, hconn, hlink, hcounts]
    rfl
  have hagent : (s.deliver c count).agent = s.agent := rfl
  rw [line, line, hagent, hitems, hinbound, append_assoc, ← map_append,
    take_append_drop]
  simp only [inbound, hc]

/-- **What the pump takes from its connection goes into the queue.** -/
theorem Inv.deliver (hi : s.Inv mine) (hp : s.pump = .receiving c epoch) (count : ℕ) :
    (s.deliver c count).Inv mine := by
  have hc : s.pump.conn = some c := by rw [hp]; rfl
  have hends (k : ℕ) : SameEnds (s.links k) ((s.deliver c count).links k) :=
    (sameEnds_behead (s.links c) count).setLink k
  have hcounts (k : ℕ) : (s.deliver c count).counts k = s.counts k := (hends k).counts rfl
  have hready := hi.ready_behead c count
  have hmono (p : ℕ × FsEvent) (h : s.Done p) : (s.deliver c count).Done p :=
    h.imp_left (mem_append_left _)
  have hsource {a : ℕ} (h : source (s.links c) = some a) : (s.links c).agent = a := by
    rw [source] at h
    split at h
    · exact Option.some.inj h
    · cases h
  -- what comes into the queue
  have hqueue {src : Option ℕ} {ev : FsEvent}
      (h : SyncOp.remote src ev ∈ (s.deliver c count).queue) :
      SyncOp.remote src ev ∈ s.queue ∨
        src = source (s.links c) ∧ ev ∈ (s.links c).stream.take count := by
    rcases mem_append.mp h with h | h
    · exact .inl h
    · obtain ⟨e, he, heq⟩ := mem_map.mp h
      cases heq
      exact .inr ⟨rfl, he⟩
  refine ⟨hready.logs, { hready.tags with sources := fun a ev h => ?_, queued := fun ev h => ?_ },
    { hready.wired with },
    ⟨?_, fun hmark e he hle => hmono _ (hi.fed.low hmark e he hle), ?_, ?_, ?_⟩⟩
  · rcases hqueue h with h | ⟨hsrc, -⟩
    · exact hi.tags.sources a ev h
    · exact hsource hsrc.symm ▸ hi.tags.agents c
  · rcases hqueue h with h | ⟨hsrc, hmem⟩
    · obtain ⟨hdelivered, hseq⟩ := hi.tags.queued ev h
      exact ⟨mem_append_left _ hdelivered, hseq⟩
    · have hagent : (s.links c).agent = s.agent := hsource hsrc.symm
      refine ⟨mem_append_right _ (mem_map.mpr ⟨ev, hmem, ?_⟩),
        hi.tags.streams c hagent ev (mem_of_mem_take hmem)⟩
      rw [hagent]
      rfl
  · rw [line_deliver hc]
    exact hi.fed.line.mono (fun _ _ _ _ hb _ => hb) fun e => hmono (s.agent, e)
  · intro k hk htalks hsub hcount
    cases (hc.symm.trans hk : some c = some k)
    rw [line_deliver hc]
    refine (hi.fed.full c hc ((hends c).talks rfl htalks) ((hends c).subscribed ▸ hsub)
      (hcounts c ▸ hcount)).imp_right fun hall e he => ?_
    rcases hall e he with hdone | hmem
    · exact .inl (hmono _ hdone)
    · have hlink : (s.deliver c count).links c = behead (s.links c) count :=
        links_setLink_self s c _
      rw [← take_append_drop count (s.links c).stream, mem_append] at hmem
      rcases hmem with htake | hdrop
      · have hagent : (s.links c).agent = s.agent := agent_of_counts (hcounts c ▸ hcount)
        exact .inl (.inl (mem_append_right _ (mem_map.mpr ⟨e, htake, by rw [hagent]; rfl⟩)))
      · rw [hlink]
        exact .inr hdrop
  · intro he p hp' hforeign
    refine hmono p (hi.fed.past ?_ p hp' hforeign)
    rcases he with hmark | ⟨ev, hev⟩ | ⟨k, hk, hsub, hcount⟩
    · exact .inl hmark
    · rcases hqueue hev with h | ⟨hsrc, hmem⟩
      · exact .inr (.inl ⟨ev, h⟩)
      · refine .inr (.inr ⟨c, hc, ?_, decide_eq_true hsrc.symm⟩)
        cases hsub : (s.links c).subscribed with
        | true => rfl
        | false =>
          rw [(hi.wired.idle c hsub).1, take_nil] at hmem
          cases hmem
    · exact .inr (.inr ⟨k, hk, (hends k).subscribed ▸ hsub, hcounts k ▸ hcount⟩)
  · intro k since hp'
    have : s.pump = .asked k since := hp'
    rw [hp] at this
    cases this

theorem Inv.missed (hi : s.Inv mine) (hp : s.pump = .receiving c epoch) (count : ℕ) :
    (s.setLink c (behead (s.links c) count)).reconcile.Inv mine := by
  refine (hi.ready_behead c count).reconcile fun k since hp' => ?_
  have : s.pump = .asked k since := hp'
  rw [hp] at this
  cases this

/-! ## Applying -/

theorem tags_apply (ht : s.Tags) (hq : s.queue = .remote src ev :: queue) : Tags { s with
      queue := queue
      lastSeq := max s.lastSeq ev.seq
      mark := if s.lastSeq < ev.seq then src else s.mark } := by
  have htail {op : SyncOp} (h : op ∈ queue) : op ∈ s.queue := by
    rw [hq]
    exact mem_cons_of_mem _ h
  have hhead : SyncOp.remote src ev ∈ s.queue := by
    rw [hq]
    exact mem_cons_self
  refine ⟨ht.agents, fun a e h => ht.sources a e (htail h), fun a ha => ?_, fun ha => ?_,
    fun e h => ht.queued e (htail h), ht.streams⟩
  · simp only at ha ⊢
    split at ha
    · subst ha
      exact ⟨ht.sources a ev hhead, by omega⟩
    · obtain ⟨hle, hpos⟩ := ht.marked a ha
      exact ⟨hle, by omega⟩
  · simp only at ha ⊢
    split at ha
    · have := (ht.queued ev (ha ▸ hhead)).2
      omega
    · have := ht.lastSeq ha
      omega

theorem Inv.apply (hi : s.Inv mine) (hq : s.queue = .remote src ev :: queue) (hev : ¬ Resync ev) :
    Inv mine { s with
      queue := queue
      lastSeq := max s.lastSeq ev.seq
      mark := if s.lastSeq < ev.seq then src else s.mark } := by
  have hhead : SyncOp.remote src ev ∈ s.queue := by
    rw [hq]
    exact mem_cons_self
  have hline : s.line = (decide (src = some s.agent), ev) ::
      (queue.filterMap (opItem s.agent) ++ s.inbound) := by
    rw [line, hq]
    rfl
  have hfed := hi.fed.line
  rw [hline] at hfed
  obtain ⟨hlow, hrest⟩ := hfed.resolve_left hev
  -- an event that counts has been delivered, and all before it are done
  have hdone (hsrc : src = some s.agent) : s.Done (s.agent, ev) :=
    .inl (hi.tags.queued ev (hsrc ▸ hhead)).1
  have hup (hsrc : src = some s.agent) (e : FsEvent) (he : s.Owed mine e) (hle : e.seq ≤ ev.seq) :
      s.Done (s.agent, e) := by
    rcases hlow (decide_eq_true hsrc) e he hle with h | rfl
    · exact h
    · exact hdone hsrc
  refine ⟨hi.logs, tags_apply hi.tags hq, { hi.wired with }, ⟨?_, fun ha e he hle => ?_,
    fun c hc htalks hsub hcounts => ?_, fun he => hi.fed.past ?_, hi.fed.asked⟩⟩
  · refine hrest.mono (fun _ _ _ _ hb _ => hb) ?_
    rintro e (h | ⟨hsrc, rfl⟩)
    · exact h
    · exact hdone (of_decide_eq_true hsrc)
  · simp only at ha hle
    split at ha
    · exact hup ha e he (by omega)
    · exact hi.fed.low ha e he (by omega)
  · refine (hi.fed.full c hc htalks hsub hcounts).imp_left ?_
    rintro ⟨p, hp, hres⟩
    rw [hline] at hp
    rcases mem_cons.mp hp with rfl | hp
    · exact absurd hres hev
    · exact ⟨p, hp, hres⟩
  · rcases he with hmark | ⟨e, he⟩ | hconn
    · split at hmark
      · exact .inr (.inl ⟨ev, hmark ▸ hhead⟩)
      · exact .inl hmark
    · exact .inr (.inl ⟨e, by rw [hq]; exact mem_cons_of_mem _ he⟩)
    · exact .inr (.inr hconn)

theorem Inv.apply_resync (hi : s.Inv mine) (hq : s.queue = .remote src ev :: queue) :
    Inv mine (reconcile { s with
      queue := queue
      lastSeq := max s.lastSeq ev.seq
      mark := if s.lastSeq < ev.seq then src else s.mark }) := by
  refine Ready.reconcile ⟨hi.logs, tags_apply hi.tags hq, { hi.wired with }⟩
    fun c since hp hown hagent => ?_
  obtain ⟨n, hn, hle, -, -⟩ := hi.fed.asked c since hp hown hagent
  exact ⟨n, hn, hle⟩

theorem Inv.applied_reconcile (hi : s.Inv mine)
    (hq : s.queue = .reconcile :: queue) : Inv mine { s with queue := queue } := by
  have hline : s.line = queue.filterMap (opItem s.agent) ++ s.inbound := by
    rw [line, hq]
    rfl
  have htail {op : SyncOp} (h : op ∈ queue) : op ∈ s.queue := by
    rw [hq]
    exact mem_cons_of_mem _ h
  have hfed := hi.fed
  refine ⟨hi.logs, { hi.tags with
      sources := fun a e h => hi.tags.sources a e (htail h)
      queued := fun e h => hi.tags.queued e (htail h) }, { hi.wired with },
        ⟨?_, hfed.low, fun c hc htalks hsub hcounts => ?_, ?_, hfed.asked⟩⟩
  · have := hfed.line
    rw [hline] at this
    exact this
  · have := hfed.full c hc htalks hsub hcounts
    rw [hline] at this
    exact this
  · rintro (hmark | ⟨e, he⟩ | hconn)
    · exact hfed.past (.inl hmark)
    · exact hfed.past (.inr (.inl ⟨e, htail he⟩))
    · exact hfed.past (.inr (.inr hconn))

/-! ## The agent -/

theorem Inv.restart (hi : s.Inv mine) : Inv mine { s with
    agent := s.agent + 1, hub := .withCapacity s.hub.logCap, past := s.published,
    history := [] } := by
  have hagent (k : ℕ) : (s.links k).agent ≠ s.agent + 1 := by
    have := hi.tags.agents k
    omega
  have hmark : s.mark ≠ some (s.agent + 1) := fun h => by
    have := (hi.tags.marked _ h).1
    omega
  have hqueue (e : FsEvent) : SyncOp.remote (some (s.agent + 1)) e ∉ s.queue := fun h => by
    have := hi.tags.sources _ e h
    omega
  refine ⟨EventHub.logs_withCapacity hi.logs.pos, ⟨fun k => Nat.le_succ_of_le (hi.tags.agents k),
    fun a e h => Nat.le_succ_of_le (hi.tags.sources a e h), fun a ha => ?_,
    fun h => absurd h hmark, fun e h => absurd h (hqueue e), fun k hk => absurd hk (hagent k)⟩,
    { hi.wired with }, ⟨unbroken_of_done ?_, nofun, fun c _ htalks => ?_, ?_, ?_⟩⟩
  · obtain ⟨hle, hpos⟩ := hi.tags.marked a ha
    exact ⟨Nat.le_succ_of_le hle, hpos⟩
  · rintro p hp hc b ⟨hb, -⟩
    cases hb
  · obtain ⟨-, h⟩ := Bool.and_eq_true_iff.mp htalks
    exact absurd (of_decide_eq_true h) (hagent c)
  · rintro (h | ⟨e, he⟩ | ⟨c, -, -, hcounts⟩)
    · exact absurd h hmark
    · exact absurd he (hqueue e)
    · exact absurd (agent_of_counts hcounts) (hagent c)
  · exact fun c since _ _ h => absurd h (hagent c)

theorem push_cases (s : SyncRun) (batch : List FsEvent) (k : ℕ) :
    (s.talks k = true ∧ (s.links k).subscribed = true ∧ s.push batch k = { s.links k with
      stream := (s.links k).stream ++ strip (s.links k).session batch }) ∨
    ((s.talks k = false ∨ (s.links k).subscribed = false) ∧ s.push batch k = s.links k) := by
  by_cases h : (s.talks k && (s.links k).subscribed) = true
  · obtain ⟨htalks, hsub⟩ := Bool.and_eq_true_iff.mp h
    exact .inl ⟨htalks, hsub, if_pos h⟩
  · refine .inr ⟨?_, if_neg h⟩
    rwa [Bool.not_eq_true, Bool.and_eq_false_iff] at h

theorem ends_fanOut (s : SyncRun) (hub : EventHub) (batch : List FsEvent) (k : ℕ) :
    SameEnds (s.links k) ((s.fanOut hub batch).links k) := by
  change SameEnds (s.links k) (s.push batch k)
  rcases s.push_cases batch k with ⟨-, -, h⟩ | ⟨-, h⟩
  all_goals
    rw [h]
    exact ⟨rfl, rfl, id, rfl, rfl, .inl rfl, rfl⟩

theorem counts_fanOut (s : SyncRun) (hub : EventHub) (batch : List FsEvent) (c : ℕ) :
    (s.fanOut hub batch).counts c = s.counts c :=
  (s.ends_fanOut hub batch c).counts rfl

theorem seq_of_mem_batch {hub' : EventHub} {history : List FsEvent}
    (h : hub.Logs history) (h' : hub'.Logs (history ++ batch)) (he : e ∈ batch) :
    hub.seq < e.seq ∧ e.seq ≤ hub'.seq := by
  have hmem : e.seq ∈ (batch.map FsEvent.seq) := mem_map_of_mem he
  have hdrop :
      batch.map FsEvent.seq = (range' 1 (history ++ batch).length).drop history.length := by
    rw [← h'.seqs, map_append, drop_left' (by rw [length_map])]
  rw [hdrop, drop_range', mem_range'_1] at hmem
  rw [h.seq, h'.seq]
  omega

theorem line_fanOut (s : SyncRun) (hub : EventHub) (batch : List FsEvent) :
    (∃ c ∈ s.pump.conn, s.talks c = true ∧ (s.links c).subscribed = true ∧
      (s.fanOut hub batch).line =
        s.line ++ (strip (s.links c).session batch).map (s.counts c, ·)) ∨
    ((∀ c ∈ s.pump.conn, s.talks c = false ∨ (s.links c).subscribed = false) ∧
      (s.fanOut hub batch).line = s.line) := by
  have hcounts := s.counts_fanOut hub batch
  cases hc : s.pump.conn with
  | none =>
    refine .inr ⟨nofun, ?_⟩
    have hc' : (s.fanOut hub batch).pump.conn = none := hc
    simp only [line, inbound, hc, hc']
    rfl
  | some c =>
    have hc' : (s.fanOut hub batch).pump.conn = some c := hc
    rcases s.push_cases batch c with ⟨htalks, hsub, hpush⟩ | ⟨hno, hpush⟩
    · refine .inl ⟨c, rfl, htalks, hsub, ?_⟩
      have hlink : ((s.fanOut hub batch).links c).stream =
        (s.links c).stream ++ strip (s.links c).session batch := congrArg SyncLink.stream hpush
      simp only [line, inbound, hc, hc', hlink, hcounts, map_append, append_assoc]
      rfl
    · refine .inr ⟨?_, ?_⟩
      · rintro k ⟨⟩
        exact hno
      · have hlink : ((s.fanOut hub batch).links c).stream = (s.links c).stream :=
          congrArg SyncLink.stream hpush
        simp only [line, inbound, hc, hc', hlink, hcounts]
        rfl

section

variable (hi : s.Inv mine)
include hi

theorem Inv.linkOk_fanOut (hle : s.hub.seq ≤ hub.seq)
    (hnew : ∀ e ∈ batch, e.seq ≤ hub.seq) (k : ℕ) :
    LinkOk mine (s.fanOut hub batch) k ((s.fanOut hub batch).links k) := by
  have hold := hi.linkOk k
  change LinkOk mine (s.fanOut hub batch) k (s.push batch k)
  rcases s.push_cases batch k with ⟨-, hsub, h⟩ | ⟨-, h⟩
  · rw [h]
    refine { hold with seqs := fun hagent e he => ?_, idle := fun hno => ?_ }
    · rcases mem_append.mp he with he | he
      · exact (hold.seqs hagent e he).trans hle
      · exact hnew e (mem_strip.mp he).1
    · rw [hsub] at hno
      cases hno
  · rw [h]
    exact { hold with seqs := fun hagent e he => (hold.seqs hagent e he).trans hle }

theorem Inv.ready_fanOut (hlogs : hub.Logs (s.history ++ batch))
    (hle : s.hub.seq ≤ hub.seq) (hnew : ∀ e ∈ batch, e.seq ≤ hub.seq) :
    (s.fanOut hub batch).Ready mine := by
  have hlink := hi.linkOk_fanOut hle hnew
  refine ⟨hlogs, { hi.tags with
      agents := fun k => (hlink k).agent
      lastSeq := fun h => (hi.tags.lastSeq h).trans hle
      queued := fun ev h => (hi.tags.queued ev h).imp_right (·.trans hle)
      streams := fun k => (hlink k).seqs }, ⟨hi.wired.conn, hi.wired.bound,
    fun hover k => (hlink k).unused hover, fun k => (hlink k).idle, fun k => (hlink k).session,
    fun c since last hp hs => ?_⟩⟩
  rw [(s.ends_fanOut hub batch c).own]
  exact hi.wired.answered c since last hp hs

/-- **The agent publishes a batch.** -/
theorem Inv.fanOut (hlogs : hub.Logs (s.history ++ batch)) : (s.fanOut hub batch).Inv mine := by
  have hle : s.hub.seq ≤ hub.seq := by
    rw [hlogs.seq, hi.logs.seq, length_append]
    exact Nat.le_add_right _ _
  have hnew {e : FsEvent} (he : e ∈ batch) := seq_of_mem_batch hi.logs hlogs he
  have hold {e : FsEvent} (he : (s.fanOut hub batch).Owed mine e) (hle : e.seq ≤ s.hub.seq) :
      s.Owed mine e := by
    refine ⟨(mem_append.mp he.1).resolve_right fun hmem => ?_, he.2⟩
    exact absurd (hnew hmem).1 (not_lt.mpr hle)
  -- the old line, to which the new events are not owed yet
  have hline : Unbroken FsEvent.seq Resync ((s.fanOut hub batch).Owed mine)
      (fun e => s.Done (s.agent, e)) s.line :=
    hi.fed.line.mono (fun p hp hc b hb hble => hold hb (hble.trans (hi.tags.seqs hp hc)))
      fun _ => id
  have hcounts := s.counts_fanOut hub batch
  have hends := s.ends_fanOut hub batch
  have hready := hi.ready_fanOut hlogs hle fun e he => (hnew he).2
  -- a new event that is owed is not stripped
  have hkept {c : ℕ} {e : FsEvent} (hc : (s.links c).subscribed = true)
      (he : (s.fanOut hub batch).Owed mine e) (hmem : e ∈ batch) :
      e ∈ strip (s.links c).session batch :=
    mem_strip_of_foreign (hi.wired.sessions c (.inr hc)) hmem he.2
  refine ⟨hready.logs, hready.tags, hready.wired,
      ⟨?_, fun hmark e he hble => ?_, fun c hc ht hs hcount => ?_, fun he => hi.fed.past ?_,
      fun c since hp hown hagent => ?_⟩⟩
  · rcases s.line_fanOut hub batch with ⟨c, hc, ht, hs, heq⟩ | ⟨-, heq⟩
    · rw [heq]
      refine unbroken_append hline ?_
      cases hcount : s.counts c with
      | false =>
        refine .inr (unbroken_of_not_counts fun p hp => ?_)
        obtain ⟨e, -, rfl⟩ := mem_map.mp hp
        rfl
      | true =>
        refine (hi.fed.full c hc ht hs hcount).imp_right fun hall => ?_
        have hasc : batch.Pairwise fun a b => a.seq < b.seq := by
          have := pairwise_history (s := s.fanOut hub batch) hlogs
          exact (pairwise_append.mp this).2.1
        refine unbroken_of_pairwise (hasc.sublist filter_sublist) fun a _ b hb _ => ?_
        rcases mem_append.mp hb.1 with hmem | hmem
        · refine .inl ((hall b ⟨hmem, hb.2⟩).imp_right fun hin => ?_)
          exact mem_append_right _ ((mem_inbound hc).mpr ⟨hcount.symm, hin⟩)
        · exact .inr (hkept hs hb hmem)
    · rw [heq]
      exact hline
  · exact hi.fed.low hmark e (hold he (hble.trans (hi.tags.lastSeq hmark))) hble
  · replace ht := (hends c).talks rfl ht
    rw [(hends c).subscribed] at hs
    rw [hcounts] at hcount
    rcases s.push_cases batch c with ⟨-, -, hpush⟩ | ⟨hno, -⟩
    · have hstream : ((s.fanOut hub batch).links c).stream =
        (s.links c).stream ++ strip (s.links c).session batch := congrArg SyncLink.stream hpush
      rw [hstream]
      refine (hi.fed.full c hc ht hs hcount).imp ?_ fun hall e he => ?_
      · rintro ⟨p, hp, hres⟩
        refine ⟨p, ?_, hres⟩
        rcases s.line_fanOut hub batch with ⟨c', -, -, -, heq⟩ | ⟨-, heq⟩
        · rw [heq]
          exact mem_append_left _ hp
        · rwa [heq]
      · rcases mem_append.mp he.1 with hmem | hmem
        · exact (hall e ⟨hmem, he.2⟩).imp_right (mem_append_left _)
        · exact .inr (mem_append_right _ (hkept hs he hmem))
    · rcases hno with h | h
      · rw [ht] at h
        cases h
      · rw [hs] at h
        cases h
  · rcases he with hmark | hqueue | ⟨c, hc, hs, hcount⟩
    · exact .inl hmark
    · exact .inr (.inl hqueue)
    · exact .inr (.inr ⟨c, hc, (hends c).subscribed ▸ hs, hcounts c ▸ hcount⟩)
  · rw [(hends c).own] at hown
    rw [(hends c).agent] at hagent
    obtain ⟨n, hn, hnle, hlow, hpast⟩ := hi.fed.asked c since hp hown hagent
    exact ⟨n, hn, hnle.trans hle, fun e he hble => hlow e (hold he (hble.trans hnle)) hble, hpast⟩

/-! ## Runs -/

theorem Inv.note (now : ℕ) (path : RelPath) (session : ℕ) :
    Inv mine { s with hub := s.hub.noteLocalWrite now path session } :=
  ⟨{ hi.logs with }, { hi.tags with }, { hi.wired with }, { hi.fed with }⟩

/-- **A step keeps the invariant.** -/
theorem inv_step {l : SyncStep} (hok : s.seqOk l) (h : s.step mine l = some s') : s'.Inv mine := by
  cases l with
  | note now path session =>
    cases h
    exact hi.note now path session
  | publish now raw =>
    cases h
    exact hi.fanOut (.publish now raw hi.logs)
  | restart =>
    cases h
    exact hi.restart
  | lag conn start stop =>
    obtain ⟨hlag, rfl⟩ := of_guard h
    exact hi.lag hlag
  | cut conn arrived =>
    cases h
    exact hi.cut conn arrived
  | start session =>
    simp only [step] at h
    split at h
    · rename_i hp
      obtain ⟨hmine, rfl⟩ := of_guard h
      exact hi.start hmine hp
    · cases h
  | reconnect session =>
    obtain ⟨⟨-, -, hmine⟩, rfl⟩ := of_guard h
    exact hi.reconnect hmine
  | recv count =>
    simp only [step] at h
    split at h
    · rename_i c epoch hp
      obtain ⟨-, rfl⟩ := of_guard h
      exact hi.deliver hp (count + 1)
    · cases h
  | missed count =>
    simp only [step] at h
    split at h
    · rename_i c epoch hp
      obtain ⟨-, rfl⟩ := of_guard h
      exact hi.missed hp (count + 1)
    · cases h
  | closed =>
    simp only [step] at h
    split at h
    · rename_i c epoch hp
      obtain ⟨⟨-, hstream⟩, rfl⟩ := of_guard h
      exact hi.closed hp hstream
    · cases h
  | wake =>
    simp only [step] at h
    split at h
    · rename_i epoch hp
      obtain ⟨hlt, rfl⟩ := of_guard h
      exact hi.wake hp hlt
    · cases h
  | ask =>
    simp only [step] at h
    split at h
    · rename_i c hp
      cases h
      exact hi.ask hp
    · cases h
  | serve =>
    simp only [step] at h
    split at h
    · rename_i c since hp
      obtain ⟨htalks, h⟩ := Option.ite_none_right_eq_some.mp h
      split at h
      · cases h
        exact hi.expired hp
      · rename_i catchup hsub
        cases h
        exact hi.serve hp htalks hsub
    · cases h
  | reply =>
    simp only [step] at h
    split at h
    · rename_i c since hp
      obtain ⟨-, rfl⟩ := of_guard h
      exact hi.reply hp hok
    · cases h
  | settle =>
    simp only [step] at h
    split at h
    · rename_i c since last hp
      split at h
      · rename_i hfine
        cases h
        exact hi.settle hp hfine.1 hfine.2
      · cases h
        exact hi.receive_reconcile (by rw [hp]; rfl)
    · cases h
  | fail =>
    simp only [step] at h
    split at h
    case h_5 => cases h
    all_goals
      rename_i hp
      split at h <;> cases h
      · exact hi.fail (by rw [hp]; rfl)
      · exact hi.over
  | serveLive =>
    simp only [step] at h
    split at h
    · rename_i c hp
      obtain ⟨htalks, rfl⟩ := of_guard h
      exact hi.serveLive hp htalks
    · cases h
  | skipLive =>
    simp only [step] at h
    split at h
    · rename_i c hp
      cases h
      split
      · exact hi.skipLive hp
      · exact hi.over
    · cases h
  | refresh =>
    simp only [step] at h
    split at h
    · rename_i c hp
      cases h
      exact hi.receive_reconcile (by rw [hp]; rfl)
    · cases h
  | apply =>
    simp only [step] at h
    split at h
    · rename_i src ev queue hq
      cases h
      by_cases hev : ev.kind = .resyncRequired
      · have := hi.apply_resync hq
        simp only [applyEvent, if_pos hev]
        exact this
      · simp only [applyEvent, if_neg hev]
        exact hi.apply hq hev
    · rename_i queue hq
      cases h
      exact hi.applied_reconcile hq
    · cases h

end

/-- **The engine misses nothing**, if it never takes one agent for another: while it is subscribed,
an event that any agent has published and that the engine did not cause was delivered to the
executor, or the executor was told to reconcile after it, or it is on its way. -/
theorem misses_nothing {cap lastSeq : ℕ} (hcap : 0 < cap)
    (h : Reaches (step mine) seqOk (init cap lastSeq) s) {c epoch : ℕ}
    (hp : s.pump = .receiving c epoch) (hsettled : (s.links c).settled = true)
    (htalks : s.talks c = true) :
    ∀ p ∈ s.published, Foreign mine p.2 → s.Done p ∨ s.Underway c p := by
  have hi : s.Inv mine := h.invariant (Inv mine) (inv_init hcap lastSeq)
    fun _ _ _ hi hok hstep => inv_step hi hok hstep
  have hc : s.pump.conn = some c := by rw [hp]; rfl
  have hsub : (s.links c).subscribed = true := by
    cases hsub : (s.links c).subscribed with
    | true => rfl
    | false =>
      rw [(hi.wired.idle c hsub).2] at hsettled
      cases hsettled
  obtain ⟨-, hagent⟩ := Bool.and_eq_true_iff.mp htalks
  have hcounts : s.counts c = true := by
    refine decide_eq_true ?_
    rw [source, SyncLink.sound, hsettled, Bool.or_true, if_pos rfl, of_decide_eq_true hagent]
  rintro ⟨a, e⟩ hmem hforeign
  rcases mem_published.mp hmem with hpast | ⟨rfl, he⟩
  · exact .inl (hi.fed.past (.inr (.inr ⟨c, hc, hsub, hcounts⟩)) _ hpast hforeign)
  · rcases hi.fed.full c hc htalks hsub hcounts with ⟨⟨t, ev⟩, hline, hres⟩ | hall
    · refine .inr (.inr ?_)
      rcases mem_append.mp hline with hq | hin
      · obtain ⟨src, hsrc, -⟩ := mem_queue_items.mp hq
        exact .inl ⟨src, ev, hsrc, hres⟩
      · exact .inr ⟨ev, ((mem_inbound hc).mp hin).2, hres⟩
    · exact (hall e ⟨he, hforeign⟩).imp_right fun hstream => .inl ⟨rfl, hstream⟩

instance : DecidableRel seqOk := fun s l =>
  match l with
  | .reply =>
    match hp : s.pump with
    | .served conn since =>
      decidable_of_iff
        (s.started = true → (s.links conn).own = true ∨ since.any (s.hub.seq < ·) = true) (by
          simp only [seqOk, hp, Option.any_eq_true, decide_eq_true_eq]
          rfl)
    | .off | .receiving _ _ | .waiting _ | .resuming _ | .asked _ _ | .answered _ _ _
    | .expired _ | .refreshed _ | .over => isTrue (by simp only [seqOk, hp])
  | .note _ _ _ | .publish _ _ | .restart | .lag _ _ _ | .cut _ _ | .start _ | .reconnect _
  | .recv _ | .missed _ | .closed | .wake | .ask | .serve | .settle | .fail | .serveLive
  | .skipLive | .refresh | .apply => isTrue trivial

/-- The sessions of the engine in the examples below. -/
def exampleSessions (n : ℕ) : Bool := decide (n < 10)

/-- A file that somebody changes on the server. -/
def notes : RelPath := ⟨"notes".toList⟩

/-- The engine starts, applies an event, is cut off while there is another, and comes back. -/
def outage : List SyncStep :=
  [.start 1, .ask, .serve, .reply, .settle, .publish 0 [(notes, .created)], .recv 0, .apply, .apply,
    .cut 0 0, .publish 0 [(notes, .modified)], .closed, .reconnect 2, .wake, .ask, .serve, .reply,
    .settle]

/-- What was published in the meantime is on its way. -/
theorem misses_nothing_outage : ∃ s,
    Reaches (step exampleSessions) seqOk (init 8192 0) s ∧ s.pump = .receiving 1 1 ∧
    s.published.length = 2 ∧
    ∀ p ∈ s.published, Foreign exampleSessions p.2 → s.Done p ∨ s.Underway 1 p := by
  obtain ⟨s, hs⟩ : ∃ s, exec (step exampleSessions) (init 8192 0) outage = some s := ⟨_, rfl⟩
  have hreach : Reaches (step exampleSessions) seqOk (init 8192 0) s :=
    reaches_of_exec .refl outage (by decide +kernel) hs
  have hfacts : s.pump = .receiving 1 1 ∧ (s.links 1).settled = true ∧ s.talks 1 = true ∧
      s.published.length = 2 := by
    cases hs
    exact ⟨rfl, rfl, rfl, rfl⟩
  obtain ⟨hp, hsettled, htalks, hlength⟩ := hfacts
  exact ⟨s, hreach, hp, hlength, misses_nothing (by decide) hreach hp hsettled htalks⟩

/-- The engine starts, and is cut off while there is the first event. -/
def firstOutage : List SyncStep :=
  [.start 1, .ask, .serve, .reply, .settle, .cut 0 0, .publish 0 [(notes, .modified)], .closed,
    .reconnect 2, .wake, .ask, .serve, .reply, .settle]

/-- **The first event is lost**: the engine has no number yet, and asks for live events only. -/
theorem misses_first_event : ∃ s,
    Reaches (step exampleSessions) (fun _ _ => True) (init 8192 0) s ∧ s.pump = .receiving 1 1 ∧
    (s.links 1).settled = true ∧ s.talks 1 = true ∧
    ∃ p ∈ s.published, Foreign exampleSessions p.2 ∧ ¬ s.Done p ∧ ¬ s.Underway 1 p := by
  obtain ⟨s, hs⟩ : ∃ s, exec (step exampleSessions) (init 8192 0) firstOutage = some s := ⟨_, rfl⟩
  have hreach : Reaches (step exampleSessions) (fun _ _ => True) (init 8192 0) s :=
    reaches_of_exec .refl firstOutage (allowed_true _ _ _) hs
  have hfacts : s.pump = .receiving 1 1 ∧ (s.links 1).settled = true ∧ s.talks 1 = true ∧
      s.published = [(0, ⟨1, .modified, notes, none, none⟩)] ∧ s.delivered = [] ∧ s.covered = [] ∧
      s.queue = [.reconcile] ∧ (s.links 1).stream = [] := by
    cases hs
    exact ⟨rfl, rfl, rfl, rfl, rfl, rfl, rfl, rfl⟩
  obtain ⟨hp, hsettled, htalks, hpublished, hdelivered, hcovered, hqueue, hstream⟩ := hfacts
  refine ⟨s, hreach, hp, hsettled, htalks, _, hpublished ▸ mem_cons_self, ?_, ?_, ?_⟩
  · intro n hn
    cases hn
  · simp [Done, hdelivered, hcovered]
  · simp [Underway, WillReconcile, hqueue, hstream]

end SyncRun

end AlloyFs.Sync
