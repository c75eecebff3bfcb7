import AlloyFs.Sync.Resume

/-!
# The sync cursor

The manifest of the engine holds the highest event number that the executor has been through.  It is
written to disk after every operation, it is where the engine goes on after a crash, and what the
pump asks for on a new connection.  Whatever has a lower number is never asked for again, so it had
better be applied, or be covered by a reconcile.

The executor raises the number after each event, also when applying it has failed, and a reconcile
that fails is not queued again.  Then nothing is left that would bring the event back.

This module models the executor's loop with its failures, the manifest in memory and on disk, the
pump with the point at which its subscription started, and crashes of the engine and of its
connection.
-/

namespace AlloyFs.Sync

open List

/-- The subscription of the engine. -/
inductive CursorFeed
  /-- the engine is not running -/
  | off
  /-- there is no connection -/
  | cut
  /-- a connection is there, and the pump has asked for what follows this number -/
  | asking (since : Option ℕ)
  /-- a connection is there, but not a subscription -/
  | deaf
  /-- so many events have been taken from it, or came before it -/
  | live (pos : ℕ)
  deriving DecidableEq

/-- What the executor has to do, one event at a time. -/
inductive CursorOp
  | remote (ev : FsEvent)
  | edit
  | reconcile
  deriving DecidableEq

/-- What the agent says to `Subscribe`. -/
inductive CursorAnswer
  | subscribed
  /-- and whether it served the second request, for live events -/
  | tooOld (served : Bool)
  | failed

/-- The engine, its manifest, and what the agent has published. -/
structure CursorRun where
  history : List FsEvent
  session : ℕ
  feed : CursorFeed
  queue : List CursorOp
  /-- a reconcile is running; so many events had been published when it began -/
  running : Option ℕ
  lastSeq : ℕ
  /-- the number in the manifest on disk -/
  disk : ℕ
  /-- what was applied without an error -/
  applied : List FsEvent
  /-- so many events had been published when a reconcile began that came to its end -/
  reconciled : ℕ

inductive CursorStep
  | publish (kind : EventKind) (path : RelPath) (origin : Option ℕ)
  /-- `SyncEngine::start`, with the answer to its subscription -/
  | start (session : ℕ) (tooOld : Bool)
  /-- the manifest is lost or cannot be read -/
  | forget
  | crash
  /-- the connection ends -/
  | lose
  /-- a new connection: the pump asks -/
  | ask (session : ℕ)
  | serve (answer : CursorAnswer)
  | recv (count : ℕ)
  /-- the receiver of the pump has missed some events -/
  | missed (count : ℕ)
  /-- the forwarding task of the agent has missed some events -/
  | lag (count : ℕ)
  /-- the local watcher has a batch -/
  | edit
  | apply (ok : Bool)
  | push
  | beginReconcile
  | endReconcile (ok : Bool)
  | flush

namespace CursorRun

def init : CursorRun where
  history := []
  session := 0
  feed := .off
  queue := []
  running := none
  lastSeq := 0
  disk := 0
  applied := []
  reconciled := 0

/-- `engine.enqueue(op)` -/
def enqueue (s : CursorRun) (op : CursorOp) : CursorRun := { s with queue := s.queue ++ [op] }

/-- The agent publishes an event. -/
def log (s : CursorRun) (e : FsEvent) : CursorRun := { s with history := s.history ++ [e] }

/-- What the engine asks for when this is its number. -/
def since (lastSeq : ℕ) : Option ℕ := if lastSeq = 0 then none else some lastSeq

/-- Where a subscription starts. -/
def position (s : CursorRun) (since : Option ℕ) : ℕ := since.getD s.history.length

/-- `Op::Remote(batch)`, with the next events of the subscription -/
def take (s : CursorRun) (pos count : ℕ) : CursorRun :=
  { s with
    feed := .live (pos + count)
    queue := s.queue ++ (strip s.session ((s.history.drop pos).take count)).map .remote }

/-- One turn of the loop over a batch: the number is raised whether or not `apply_remote` was
successful. -/
def applyRemote (s : CursorRun) (ev : FsEvent) (ok : Bool) : CursorRun :=
  let s := if ev.kind = .resyncRequired then s.enqueue .reconcile else s
  { s with
    lastSeq := max s.lastSeq ev.seq
    applied := if ok then s.applied ++ [ev] else s.applied }

variable (mine : ℕ → Bool) {e : FsEvent} {pos : ℕ}

def step (s : CursorRun) : CursorStep → Option CursorRun
  | .publish kind path origin =>
    -- `ResyncRequired` is not an event of the log
    if kind = .resyncRequired then none
    else some (s.log ⟨s.history.length + 1, kind, path, none, origin⟩)
  | .start session tooOld =>
    if s.feed = .off ∧ mine session = true then
      some { s with
        session := session
        feed := .live (s.position (if tooOld then none else since s.disk))
        queue := [.reconcile]
        lastSeq := s.disk }
    else none
  | .forget => if s.feed = .off then some { s with disk := 0 } else none
  | .crash => some { s with feed := .off, queue := [], running := none }
  | .lose =>
    match s.feed with
    | .off => none
    | _ => some { s with feed := .cut }
  | .ask session =>
    if s.feed = .cut ∧ mine session = true then
      some { s with session := session, feed := .asking (since s.lastSeq) }
    else none
  | .serve answer =>
    match s.feed, answer with
    | .asking since, .subscribed => some { s with feed := .live (s.position since) }
    | .asking _, .tooOld served =>
      some ({ s with
        feed := if served then .live (s.position none) else .deaf }.enqueue .reconcile)
    | .asking _, .failed => some { s with feed := .deaf }
    | _, _ => none
  | .recv count =>
    match s.feed with
    | .live pos => if pos + count ≤ s.history.length then some (s.take pos count) else none
    | _ => none
  | .missed count =>
    match s.feed with
    | .live pos =>
      if pos + count ≤ s.history.length then
        some ({ s with feed := .live (pos + count) }.enqueue .reconcile)
      else none
    | _ => none
  | .lag count =>
    match s.feed with
    | .live pos =>
      if pos + count ≤ s.history.length then
        some { s with
          feed := .live (pos + count), queue := s.queue ++ resync.map .remote }
      else none
    | _ => none
  | .edit => if s.feed = .off then none else some (s.enqueue .edit)
  | .apply ok =>
    match s.queue, s.running with
    | .remote ev :: queue, none => some ({ s with queue := queue }.applyRemote ev ok)
    | _, _ => none
  | .push =>
    match s.queue, s.running with
    | .edit :: queue, none => some { s with queue := queue }
    | _, _ => none
  | .beginReconcile =>
    match s.queue, s.running with
    | .reconcile :: queue, none =>
      some { s with queue := queue, running := some s.history.length }
    | _, _ => none
  | .endReconcile ok =>
    match s.running with
    | some n =>
      some { s with running := none, reconciled := if ok then max s.reconciled n else s.reconciled }
    | none => none
  | .flush => if s.feed = .off then none else some { s with disk := s.lastSeq }

/-- A reconcile is queued or running.  An engine that is not running starts with one. -/
def Pending (s : CursorRun) : Prop :=
  s.feed = .off ∨ .reconcile ∈ s.queue ∨ s.running.isSome = true
deriving Decidable

/-- **The number does not pass an event that is lost.**  What others have changed, up to the number
of the engine, was applied, or was there when a reconcile began that came to its end, or a reconcile
is still to come. -/
def Kept (s : CursorRun) : Prop :=
  s.Pending ∨ ∀ e ∈ s.history, SyncRun.Foreign mine e → e.seq ≤ s.lastSeq →
    e ∈ s.applied ∨ e.seq ≤ s.reconciled
deriving Decidable

/-- The event was applied, or is covered by a reconcile: one that is over or the one that runs. -/
def Done (s : CursorRun) (e : FsEvent) : Prop :=
  e ∈ s.applied ∨ e.seq ≤ s.reconciled ∨ ∃ n ∈ s.running, e.seq ≤ n
deriving Decidable

/-- The event that is to be applied was dealt with before. -/
def FirstDone (s : CursorRun) : Prop :=
  match s.queue with
  | .remote ev :: _ => s.Done ev
  | _ => False

/-- **The condition.**  Applying an event fails only when the event was dealt with before or a
reconcile is queued, a reconcile fails only when another one is queued, and a subscription for live
events only is made only when nothing was published that the engine has not got. -/
def retried (s : CursorRun) : CursorStep → Prop
  | .apply ok => ok = true ∨ .reconcile ∈ s.queue ∨ s.FirstDone
  | .endReconcile ok => ok = true ∨ .reconcile ∈ s.queue
  | .serve .subscribed =>
    s.feed = .asking none → .reconcile ∈ s.queue ∨
      ∀ e ∈ s.history, SyncRun.Foreign mine e → s.Done e ∨ .remote e ∈ s.queue
  | _ => True

/-- The events in the queue. -/
def items (s : CursorRun) : List FsEvent :=
  s.queue.filterMap fun op =>
    match op with
    | .remote ev => some ev
    | _ => none

/-- The events that the subscription will bring. -/
def inbound (s : CursorRun) : List FsEvent :=
  match s.feed with
  | .live pos => strip s.session (s.history.drop pos)
  | _ => []

/-- All that comes to the executor, in order. -/
def line (s : CursorRun) : List (Bool × FsEvent) := (s.items ++ s.inbound).map (true, ·)

/-- The event has to reach the engine. -/
def Owed (s : CursorRun) (e : FsEvent) : Prop := e ∈ s.history ∧ SyncRun.Foreign mine e

/-- What is known about numbers and positions. -/
structure Numbered (s : CursorRun) : Prop where
  seqs : s.history.map FsEvent.seq = range' 1 s.history.length
  queued : ∀ e, .remote e ∈ s.queue → e.seq ≤ s.history.length
  lastSeq : s.lastSeq ≤ s.history.length
  disk : s.disk ≤ s.history.length
  live : ∀ pos, s.feed = .live pos → pos ≤ s.history.length ∧ mine s.session = true
  asking : ∀ since, s.feed = .asking since →
    mine s.session = true ∧ ∀ n ∈ since, n ≤ s.lastSeq

/-- The engine gets what it is owed without another reconcile. -/
structure Sound (s : CursorRun) : Prop where
  low : ∀ e, s.Owed mine e → e.seq ≤ s.lastSeq → s.Done e
  line : Unbroken FsEvent.seq SyncRun.Resync (s.Owed mine) s.Done s.line
  full : ∀ pos, s.feed = .live pos → (∃ e ∈ s.items, SyncRun.Resync e) ∨
    ∀ e, s.Owed mine e → s.Done e ∨ e ∈ s.items ++ s.inbound

structure Inv (s : CursorRun) : Prop where
  numbered : s.Numbered mine
  sound : s.feed = .off ∨ .reconcile ∈ s.queue ∨ s.Sound mine

variable {mine} {s s' : CursorRun}

theorem mem_items : e ∈ s.items ↔ .remote e ∈ s.queue := by
  simp only [items, mem_filterMap]
  constructor
  · rintro ⟨op, hop, hev⟩
    cases op with
    | remote ev =>
      cases hev
      exact hop
    | edit => cases hev
    | reconcile => cases hev
  · intro he
    exact ⟨_, he, rfl⟩

theorem mem_line {p : Bool × FsEvent} : p ∈ s.line ↔ p.1 = true ∧ p.2 ∈ s.items ++ s.inbound := by
  obtain ⟨t, e⟩ := p
  simp [line, eq_comm, and_comm, and_or_left]

theorem inbound_live (h : s.feed = .live pos) :
    s.inbound = strip s.session (s.history.drop pos) := by
  simp only [inbound, h]

theorem inbound_of_ne_live (h : ∀ pos, s.feed ≠ .live pos) : s.inbound = [] := by
  unfold inbound
  split
  · rename_i pos hpos
    exact absurd hpos (h pos)
  · rfl

theorem Numbered.pairwise (h : s.Numbered mine) :
    s.history.Pairwise fun a b => a.seq < b.seq := by
  have : (range' 1 s.history.length).Pairwise (· < ·) := pairwise_lt_range' 1
  rwa [← h.seqs, pairwise_map] at this

theorem Numbered.seq_le (h : s.Numbered mine) (he : e ∈ s.history) :
    1 ≤ e.seq ∧ e.seq ≤ s.history.length := by
  have hmem := mem_map_of_mem (f := FsEvent.seq) he
  rw [h.seqs, mem_range'_1] at hmem
  omega

theorem Numbered.mem_drop (h : s.Numbered mine) (he : e ∈ s.history)
    (hpos : pos < e.seq) : e ∈ s.history.drop pos := by
  obtain ⟨i, hi, rfl⟩ := mem_iff_getElem.mp he
  have hseq : (s.history.map FsEvent.seq)[i]? = some s.history[i].seq := by
    simp [getElem?_eq_getElem hi]
  rw [h.seqs, getElem?_range' hi] at hseq
  have hle : pos ≤ i := by
    have := Option.some.inj hseq
    omega
  refine mem_iff_getElem.mpr ⟨i - pos, by simp; omega, ?_⟩
  simp [Nat.add_sub_cancel' hle]

theorem mem_strip_history (h : e ∈ strip s.session (s.history.drop pos)) :
    e ∈ s.history :=
  drop_subset _ _ (SyncRun.mem_strip.mp h).1

section

variable (h : s.Numbered mine)
include h

theorem Numbered.seq_line (he : e ∈ s.items ++ s.inbound) : e.seq ≤ s.history.length := by
  rcases mem_append.mp he with he | he
  · exact h.queued e (mem_items.mp he)
  · unfold inbound at he
    split at he
    · exact (h.seq_le (mem_strip_history he)).2
    · cases he

theorem Numbered.log (hseq : e.seq = s.history.length + 1) : (s.log e).Numbered mine := by
  have hlen : (s.log e).history.length = s.history.length + 1 := length_append
  exact { h with
    seqs := by simp [CursorRun.log, h.seqs, hseq, range'_concat, Nat.add_comm]
    queued := fun e he => hlen ▸ Nat.le_succ_of_le (h.queued e he)
    lastSeq := hlen ▸ Nat.le_succ_of_le h.lastSeq
    disk := hlen ▸ Nat.le_succ_of_le h.disk
    live := fun pos hpos => (h.live pos hpos).imp_left fun hle => hlen ▸ Nat.le_succ_of_le hle }

theorem Numbered.received {pos' : ℕ} {ops : List CursorOp}
    (hfeed : s.feed = .live pos) (hpos : pos' ≤ s.history.length)
    (hops : ∀ e, .remote e ∈ ops → e.seq ≤ s.history.length) :
    Numbered mine { s with feed := .live pos', queue := s.queue ++ ops } :=
  { h with
    queued := fun e he => (mem_append.mp he).elim (h.queued e) (hops e)
    live := by
      rintro _ ⟨⟩
      exact ⟨hpos, (h.live pos hfeed).2⟩
    asking := by simp }

theorem Numbered.next {op : CursorOp} {queue : List CursorOp}
    (hqueue : s.queue = op :: queue) (running : Option ℕ) :
    Numbered mine { s with queue := queue, running := running } :=
  { h with queued := fun e he => h.queued e (by rw [hqueue]; exact mem_cons_of_mem _ he) }

theorem Numbered.enqueue {op : CursorOp} (hop : ∀ e, op ≠ .remote e) :
    (s.enqueue op).Numbered mine :=
  { h with
    queued := fun e he => (mem_append.mp he).elim (h.queued e) fun he =>
      absurd (mem_singleton.mp he).symm (hop e) }

theorem Numbered.applyRemote (he : e.seq ≤ s.history.length) (ok : Bool) :
    (s.applyRemote e ok).Numbered mine := by
  have hraised : ∀ {s : CursorRun}, s.Numbered mine → e.seq ≤ s.history.length → Numbered mine
      { s with
        lastSeq := max s.lastSeq e.seq
        applied := if ok then s.applied ++ [e] else s.applied } := fun h he =>
    { h with
      lastSeq := Nat.max_le.mpr ⟨h.lastSeq, he⟩
      asking := fun since hfeed => (h.asking since hfeed).imp_right fun hle n hn =>
        (hle n hn).trans (Nat.le_max_left _ _) }
  unfold CursorRun.applyRemote
  split
  · exact hraised (h.enqueue nofun) he
  · exact hraised h he

end

theorem sound_of_done (h : ∀ e ∈ s.history, s.Done e) : s.Sound mine where
  low e he _ := h e he.1
  line := unbroken_of_done fun _ _ _ e he _ => h e he.1
  full _ _ := .inr fun e he => .inl (h e he.1)

section

variable (h : s.Sound mine)
include h

theorem Sound.mono (hhistory : s'.history = s.history)
    (hlast : s'.lastSeq = s.lastSeq) (hitems : s'.items = s.items)
    (hinbound : s'.inbound = s.inbound)
    (hfeed : ∀ pos, s'.feed = .live pos → s.feed = .live pos) (hdone : ∀ e, s.Done e → s'.Done e) :
    s'.Sound mine := by
  have howed : ∀ e, s'.Owed mine e → s.Owed mine e := by
    simp [Owed, hhistory]
  constructor
  · intro e he hle
    exact hdone e (h.low e (howed e he) (hlast ▸ hle))
  · have hline : s'.line = s.line := by simp only [CursorRun.line, hitems, hinbound]
    rw [hline]
    exact h.line.mono (fun _ _ _ e he _ => howed e he) hdone
  · intro pos hpos
    rw [hitems, hinbound]
    exact (h.full pos (hfeed pos hpos)).imp_right fun h e he =>
      (h e (howed e he)).imp_left (hdone e)

theorem Sound.log (hn : s.Numbered mine)
    (hseq : e.seq = s.history.length + 1) : Sound mine (s.log e) := by
  have hold : ∀ b, (s.log e).Owed mine b → b.seq ≤ s.history.length → s.Owed mine b := by
    rintro b ⟨hb, hforeign⟩ hle
    rcases mem_append.mp hb with hb | hb
    · exact ⟨hb, hforeign⟩
    · rw [mem_singleton.mp hb] at hle
      omega
  have hline : Unbroken FsEvent.seq SyncRun.Resync ((s.log e).Owed mine) s.Done s.line := by
    refine h.line.mono (fun p hp _ b hb hle => hold b hb ?_) fun _ hb => hb
    exact hle.trans (hn.seq_line (mem_line.mp hp).2)
  have hlow : ∀ b, (s.log e).Owed mine b → b.seq ≤ s.lastSeq → s.Done b := by
    intro b hb hle
    exact h.low b (hold b hb (hle.trans hn.lastSeq)) hle
  by_cases hlive : ∃ pos, s.feed = .live pos
  · obtain ⟨pos, hpos⟩ := hlive
    have hmine := (hn.live pos hpos).2
    -- the subscription brings the event, if the session of the engine has not caused it
    have hinbound : (s.log e).inbound = s.inbound ++ strip s.session [e] := by
      rw [inbound_live hpos, inbound_live (show (s.log e).feed = .live pos from hpos)]
      simp only [CursorRun.log, drop_append_of_le_length (hn.live pos hpos).1]
      exact filter_append ..
    have hfull : (∃ b ∈ s.items, SyncRun.Resync b) ∨
        ∀ b, (s.log e).Owed mine b → b = e ∨ s.Done b ∨ b ∈ s.items ++ s.inbound := by
      refine (h.full pos hpos).imp_right fun h b hb => ?_
      rcases mem_append.mp hb.1 with hmem | hmem
      · exact .inr (h b ⟨hmem, hb.2⟩)
      · exact .inl (mem_singleton.mp hmem)
    refine ⟨hlow, ?_, fun _ _ => ?_⟩
    · have happend : (s.log e).line = s.line ++ (strip s.session [e]).map (true, ·) := by
        rw [CursorRun.line, hinbound]
        simp only [map_append, CursorRun.line, append_assoc]
        rfl
      rw [happend]
      refine unbroken_append hline ?_
      rcases hfull with ⟨b, hb, hgap⟩ | hfull
      · exact .inl ⟨(true, b), mem_line.mpr ⟨rfl, mem_append_left _ hb⟩, hgap⟩
      · have hone : (strip s.session [e]).Pairwise fun a b => a.seq < b.seq :=
          (pairwise_singleton _ e).sublist filter_sublist
        refine .inr (unbroken_of_pairwise hone fun a _ b hb _ => ?_)
        rcases hfull b hb with rfl | hdone | hmem
        · exact .inr (SyncRun.mem_strip_of_foreign hmine (by simp) hb.2)
        · exact .inl (.inl hdone)
        · exact .inl (.inr (mem_line.mpr ⟨rfl, hmem⟩))
    · refine hfull.imp_right fun hfull b hb => ?_
      rw [hinbound]
      rcases hfull b hb with rfl | hdone | hmem
      · have := SyncRun.mem_strip_of_foreign hmine (mem_singleton_self b) hb.2
        exact .inr (mem_append_right _ (mem_append_right _ this))
      · exact .inl hdone
      · rw [← append_assoc]
        exact .inr (mem_append_left _ hmem)
  · have hnot : ∀ pos, s.feed ≠ .live pos := fun pos hpos => hlive ⟨pos, hpos⟩
    refine ⟨hlow, ?_, fun pos hpos => absurd hpos (hnot pos)⟩
    have hsame : (s.log e).line = s.line := by
      simp only [CursorRun.line, inbound_of_ne_live hnot,
        inbound_of_ne_live (show ∀ pos, (s.log e).feed ≠ .live pos from hnot)]
      rfl
    rw [hsame]
    exact hline

theorem Sound.queued :
    Unbroken FsEvent.seq SyncRun.Resync (s.Owed mine) s.Done (s.items.map (true, ·)) := by
  have := h.line
  rw [CursorRun.line, map_append] at this
  exact this.of_append

theorem Sound.unsubscribed {feed : CursorFeed} {session : ℕ} (hfeed : ∀ pos, feed ≠ .live pos) :
    Sound mine { s with session := session, feed := feed } where
  low := h.low
  line := by
    rw [CursorRun.line, inbound_of_ne_live hfeed, append_nil]
    exact h.queued
  full pos hpos := absurd hpos (hfeed pos)

/-- **A subscription is served**: it starts at the number of the engine, or the engine has got
everything. -/
theorem Sound.subscribed (hn : s.Numbered mine) {since : Option ℕ} (hfeed : s.feed = .asking since)
    (hnone : since = none → ∀ e, s.Owed mine e → s.Done e ∨ e ∈ s.items) :
    Sound mine { s with feed := .live (s.position since) } := by
  obtain ⟨hmine, hsince⟩ := hn.asking since hfeed
  -- what the engine has not got comes after the start of the subscription
  have hgot : ∀ e, s.Owed mine e → s.Done e ∨ e ∈ s.items ∨
      e ∈ strip s.session (s.history.drop (s.position since)) := by
    intro e he
    cases since with
    | none => exact (hnone rfl e he).imp_right .inl
    | some n =>
      by_cases hle : e.seq ≤ n
      · exact .inl (h.low e he (hle.trans (hsince n rfl)))
      · exact .inr (.inr (SyncRun.mem_strip_of_foreign hmine
          (hn.mem_drop he.1 (Nat.lt_of_not_le hle)) he.2))
  refine ⟨h.low, ?_, fun pos hpos => .inr fun e he => (hgot e he).imp_right mem_append.mpr⟩
  rw [CursorRun.line, inbound_live rfl, map_append]
  refine unbroken_append h.queued (.inr (unbroken_of_pairwise ?_ fun a _ b hb _ => ?_))
  · exact hn.pairwise.sublist (filter_sublist.trans (drop_sublist _ _))
  · rcases hgot b hb with hdone | hmem | hmem
    · exact .inl (.inl hdone)
    · exact .inl (.inr (mem_map_of_mem hmem))
    · exact .inr hmem

theorem Sound.take (hfeed : s.feed = .live pos) (count : ℕ) : (s.take pos count).Sound mine := by
  have hall : (s.take pos count).items ++ (s.take pos count).inbound = s.items ++ s.inbound := by
    have hitems : (s.take pos count).items =
        s.items ++ strip s.session ((s.history.drop pos).take count) := by
      simp [items, CursorRun.take, filterMap_append, filterMap_map]
    have hsplit : strip s.session (s.history.drop pos) =
        strip s.session ((s.history.drop pos).take count) ++
          strip s.session (s.history.drop (pos + count)) := by
      rw [← drop_drop, strip, strip, strip, ← filter_append, take_append_drop]
    rw [hitems, inbound_live hfeed, hsplit, append_assoc]
    rfl
  refine ⟨h.low, ?_, fun _ _ => ?_⟩
  · rw [CursorRun.line, hall]
    exact h.line
  · rw [hall]
    refine (h.full pos hfeed).imp_left fun hgap => ?_
    obtain ⟨e, he, hresync⟩ := hgap
    exact ⟨e, mem_items.mpr (mem_append_left _ (mem_items.mp he)), hresync⟩

theorem Sound.lag :
    Sound mine { s with feed := .live pos, queue := s.queue ++ resync.map .remote } := by
  have hitems : items { s with feed := .live pos, queue := s.queue ++ resync.map .remote } =
      s.items ++ resync := by
    simp [items, resync]
  refine ⟨h.low, ?_, fun _ _ => .inl ?_⟩
  · rw [CursorRun.line, hitems, append_assoc, map_append]
    exact unbroken_append h.queued (.inr (.inl rfl))
  · rw [hitems]
    exact ⟨_, mem_append_right _ (mem_singleton_self _), rfl⟩

/-- **An event is applied**: what comes before it has come before. -/
theorem Sound.apply {ev : FsEvent} {queue : List CursorOp} {ok : Bool}
    (hqueue : s.queue = .remote ev :: queue) (hkind : ev.kind ≠ .resyncRequired)
    (hok : ok = true ∨ s.Done ev) :
    Sound mine ({ s with queue := queue }.applyRemote ev ok) := by
  have hitems : s.items = ev :: items { s with queue := queue } := by
    simp [CursorRun.items, hqueue]
  have hline := h.line
  rw [CursorRun.line, hitems, cons_append, map_cons] at hline
  obtain ⟨hhead, htail⟩ := hline.resolve_left hkind
  rw [applyRemote, if_neg hkind]
  have hdone : ∀ b, s.Done b ∨ (true = true ∧ b = ev) →
      Done { s with
        applied := if ok then s.applied ++ [ev] else s.applied } b := by
    rintro b (hb | ⟨-, rfl⟩)
    · refine hb.imp_left fun hb => ?_
      split <;> simp [hb]
    · rcases hok with rfl | hb
      · exact .inl (by simp)
      · refine hb.imp_left fun hb => ?_
        split <;> simp [hb]
  constructor
  · intro e he hle
    refine hdone e ?_
    by_cases hlow : e.seq ≤ s.lastSeq
    · exact .inl (h.low e he hlow)
    · have hseq : e.seq ≤ ev.seq := by
        simp only at hle
        omega
      exact (hhead rfl e he hseq).imp_right fun heq => ⟨rfl, heq⟩
  · exact htail.mono (fun _ _ _ e he _ => he) hdone
  · intro pos hpos
    have hfull := h.full pos hpos
    rw [hitems] at hfull
    rcases hfull with ⟨e, he, hgap⟩ | hfull
    · rcases mem_cons.mp he with rfl | he
      · exact absurd hgap hkind
      · exact .inl ⟨e, he, hgap⟩
    · refine .inr fun e he => ?_
      rcases hfull e he with hb | hmem
      · exact .inl (hdone e (.inl hb))
      · rcases mem_cons.mp hmem with rfl | hmem
        · exact .inl (hdone e (.inr ⟨rfl, rfl⟩))
        · exact .inr hmem

end

theorem inv_init : init.Inv mine where
  numbered := ⟨rfl, by simp [init], le_rfl, le_rfl, by simp [init], by simp [init]⟩
  sound := .inl rfl

/-- **What every step keeps**, when what fails is followed by a reconcile. -/
theorem Inv.step (hi : s.Inv mine) {l : CursorStep} (hok : s.retried mine l)
    (hs : s.step mine l = some s') : s'.Inv mine := by
  obtain ⟨hn, hsound⟩ := hi
  cases l with
  | publish kind path origin =>
    obtain ⟨-, rfl⟩ := of_guard_not hs
    exact ⟨hn.log rfl, hsound.imp_right (Or.imp_right fun h => h.log hn rfl)⟩
  | start session tooOld =>
    obtain ⟨⟨-, hmine⟩, rfl⟩ := of_guard hs
    refine ⟨{ hn with queued := by simp, lastSeq := hn.disk, live := ?_, asking := by simp },
      .inr (.inl (by simp))⟩
    rintro pos ⟨⟩
    refine ⟨?_, hmine⟩
    have hdisk := hn.disk
    unfold position since
    split
    · simp
    · split <;> simp [hdisk]
  | forget =>
    obtain ⟨hfeed, rfl⟩ := of_guard hs
    exact ⟨{ hn with disk := Nat.zero_le _ }, .inl hfeed⟩
  | crash =>
    cases hs
    exact ⟨{ hn with queued := by simp, live := by simp, asking := by simp }, .inl rfl⟩
  | lose =>
    simp only [CursorRun.step] at hs
    split at hs
    · cases hs
    · next hfeed =>
      cases hs
      exact ⟨{ hn with live := by simp, asking := by simp },
        .inr ((hsound.resolve_left hfeed).imp_right fun h => h.unsubscribed (by simp))⟩
  | ask session =>
    obtain ⟨⟨hfeed, hmine⟩, rfl⟩ := of_guard hs
    have := hsound.resolve_left (by simp [hfeed])
    refine ⟨{ hn with live := by simp, asking := ?_ },
      .inr (this.imp_right fun h => h.unsubscribed (by simp))⟩
    rintro asked ⟨⟩
    refine ⟨hmine, ?_⟩
    unfold since
    split <;> simp
  | serve answer =>
    simp only [CursorRun.step] at hs
    split at hs
    · next since hfeed =>
      cases hs
      obtain ⟨hmine, hsince⟩ := hn.asking since hfeed
      refine ⟨{ hn with live := ?_, asking := by simp }, .inr ?_⟩
      · rintro pos ⟨⟩
        refine ⟨?_, hmine⟩
        cases since with
        | none => exact le_rfl
        | some n => exact (hsince n rfl).trans hn.lastSeq
      · by_cases hqueued : .reconcile ∈ s.queue
        · exact .inl hqueued
        · have h := (hsound.resolve_left (by simp [hfeed])).resolve_left hqueued
          refine .inr (h.subscribed hn hfeed ?_)
          rintro rfl e he
          exact ((hok hfeed).resolve_left hqueued e he.1 he.2).imp_right mem_items.mpr
    · next since served hfeed =>
      cases hs
      refine ⟨Numbered.enqueue ?_ (by simp), .inr (.inl (by simp [CursorRun.enqueue]))⟩
      refine { hn with live := ?_, asking := ?_ }
      · cases served <;> simp [position, (hn.asking since hfeed).1]
      · cases served <;> simp
    · next since hfeed =>
      cases hs
      have := hsound.resolve_left (by simp [hfeed])
      exact ⟨{ hn with live := by simp, asking := by simp },
        .inr (this.imp_right fun h => h.unsubscribed (by simp))⟩
    · cases hs
  | recv count =>
    simp only [CursorRun.step] at hs
    split at hs
    · next pos hfeed =>
      obtain ⟨hcount, rfl⟩ := of_guard hs
      have := hsound.resolve_left (by simp [hfeed])
      refine ⟨hn.received hfeed hcount fun e he => ?_,
        .inr (this.imp (mem_append_left _) fun h => h.take hfeed count)⟩
      simp only [mem_map, CursorOp.remote.injEq, exists_eq_right] at he
      have hmem := drop_subset _ _ (take_subset _ _ (SyncRun.mem_strip.mp he).1)
      exact (hn.seq_le hmem).2
    · cases hs
  | missed count =>
    simp only [CursorRun.step] at hs
    split at hs
    · next pos hfeed =>
      obtain ⟨hcount, rfl⟩ := of_guard hs
      exact ⟨hn.received hfeed hcount (by simp), .inr (.inl (by simp [enqueue]))⟩
    · cases hs
  | lag count =>
    simp only [CursorRun.step] at hs
    split at hs
    · next pos hfeed =>
      obtain ⟨hcount, rfl⟩ := of_guard hs
      have := hsound.resolve_left (by simp [hfeed])
      exact ⟨hn.received hfeed hcount (by simp [resync]),
        .inr (this.imp (mem_append_left _) fun h => h.lag)⟩
    · cases hs
  | edit =>
    obtain ⟨hfeed, rfl⟩ := of_guard_not hs
    refine ⟨hn.enqueue (by simp),
      .inr ((hsound.resolve_left hfeed).imp (mem_append_left _) fun h => ?_)⟩
    exact h.mono rfl rfl (by simp [CursorRun.items, CursorRun.enqueue]) rfl
      (fun _ h => h) fun _ h => h
  | apply ok =>
    simp only [CursorRun.step] at hs
    split at hs
    · next ev queue hqueue hrunning =>
      cases hs
      refine ⟨(hn.next hqueue s.running).applyRemote (hn.queued ev (by simp [hqueue])) ok, ?_⟩
      by_cases hkind : ev.kind = .resyncRequired
      · exact .inr (.inl (by simp [applyRemote, hkind, enqueue]))
      · refine hsound.imp (fun h => by rw [applyRemote, if_neg hkind]; exact h) fun h => ?_
        by_cases hqueued : .reconcile ∈ s.queue
        · rw [applyRemote, if_neg hkind]
          exact .inl (by simpa [hqueue] using hqueued)
        · refine .inr ((h.resolve_left hqueued).apply hqueue hkind ?_)
          rcases hok with hok | hok | hok
          · exact .inl hok
          · exact absurd hok hqueued
          · rw [FirstDone, hqueue] at hok
            exact .inr hok
    · cases hs
  | push =>
    simp only [CursorRun.step] at hs
    split at hs
    · next queue hqueue hrunning =>
      cases hs
      refine ⟨hn.next hqueue s.running,
        hsound.imp_right (Or.imp (fun h => by simpa [hqueue] using h) fun h => ?_)⟩
      exact h.mono rfl rfl (by simp [CursorRun.items, hqueue]) rfl (fun _ h => h) fun _ h => h
    · cases hs
  | beginReconcile =>
    simp only [CursorRun.step] at hs
    split at hs
    · next queue hqueue hrunning =>
      cases hs
      refine ⟨hn.next hqueue _, .inr (.inr (sound_of_done fun e he => .inr (.inr ⟨_, rfl, ?_⟩)))⟩
      exact (hn.seq_le he).2
    · cases hs
  | endReconcile ok =>
    simp only [CursorRun.step] at hs
    split at hs
    · next n hrunning =>
      cases hs
      refine ⟨{ hn with }, hsound.imp_right fun h => ?_⟩
      by_cases hqueued : .reconcile ∈ s.queue
      · exact .inl hqueued
      · cases hok.resolve_right hqueued
        refine .inr ((h.resolve_left hqueued).mono rfl rfl rfl rfl (fun _ h => h) ?_)
        rintro e (he | he | ⟨m, hm, he⟩)
        · exact .inl he
        · exact .inr (.inl (he.trans (Nat.le_max_left _ _)))
        · rw [hrunning] at hm
          cases hm
          exact .inr (.inl (he.trans (Nat.le_max_right _ _)))
    · cases hs
  | flush =>
    obtain ⟨-, rfl⟩ := of_guard_not hs
    refine ⟨{ hn with disk := hn.lastSeq }, hsound.imp_right (Or.imp_right fun h => ?_)⟩
    exact h.mono rfl rfl rfl rfl (fun _ h => h) fun _ h => h

theorem Inv.kept (hi : s.Inv mine) : s.Kept mine := by
  by_cases hpending : s.Pending
  · exact .inl hpending
  · refine .inr fun e he hforeign hle => ?_
    have hidle : s.feed ≠ .off ∧ .reconcile ∉ s.queue ∧ s.running = none := by
      simpa [Pending, not_or] using hpending
    have hlow := ((hi.sound.resolve_left hidle.1).resolve_left hidle.2.1).low e ⟨he, hforeign⟩ hle
    rcases hlow with happlied | hreconciled | ⟨n, hn, -⟩
    · exact .inl happlied
    · exact .inr hreconciled
    · rw [hidle.2.2] at hn
      cases hn

/-- **The cursor never passes an event that is lost**, when what fails is followed by a reconcile
and a subscription without a number finds nothing that was missed. -/
theorem kept_of_retried (h : Reaches (step mine) (retried mine) init s) : s.Kept mine :=
  (h.invariant (Inv mine) inv_init fun _ _ _ hi hok hs => hi.step hok hs).kept

instance (s : CursorRun) : Decidable s.FirstDone := by
  unfold FirstDone; split <;> infer_instance

instance (mine : ℕ → Bool) (s : CursorRun) (l : CursorStep) : Decidable (s.retried mine l) := by
  unfold retried; split <;> infer_instance

/-- An engine that has started, and has reconciled. -/
def settle : List CursorStep := [.start 1 false, .beginReconcile, .endReconcile true]

/-- Somebody else changes a file, and the pump has the event. -/
def change : List CursorStep := [.publish .modified ⟨['a']⟩ none, .recv 1]

/-- **The cursor passes an event that could not be applied.**  The download fails, the number is
raised and written to disk, and nothing is left to be done. -/
theorem passes_failed_event :
    ∃ s, Reaches (step (· == 1)) (fun _ _ => True) init s ∧
      s.disk = 1 ∧ s.queue = [] ∧ ¬ s.Kept (· == 1) :=
  exists_of_run (settle ++ change ++ [.apply false, .flush]) (allowed_true _ _ _) (fun _ h => h)
    (by decide +kernel)

/-- The engine applies an event and crashes; what is published then is covered by the reconcile of
the next start. -/
def crashed : List CursorStep :=
  settle ++ change ++ [.apply true, .flush, .crash, .publish .removed ⟨['a']⟩ none] ++ settle ++
    [.recv 1, .apply false]

theorem kept_across_crash :
    ∃ s, Reaches (step (· == 1)) (retried (· == 1)) init s ∧
      s.lastSeq = 2 ∧ ¬ s.Pending ∧ s.Kept (· == 1) := by
  obtain ⟨s, hs, hseq, hdone⟩ : ∃ s, Reaches (step (· == 1)) (retried (· == 1)) init s ∧
      s.lastSeq = 2 ∧ ¬ s.Pending :=
    exists_of_run crashed (by decide +kernel) (fun _ h => h) (by decide +kernel)
  exact ⟨s, hs, hseq, hdone, kept_of_retried hs⟩

end CursorRun

end AlloyFs.Sync
