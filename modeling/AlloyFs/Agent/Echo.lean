import AlloyFs.Agent.Watch
import AlloyFs.Common.Coalesce
import AlloyFs.Lib.Transition

/-!
# Whose echo an event is

A session does not hear its own writes.  The agent cannot tell from a raw event who caused it:
a request handler notes its session under the path once the file system operation is done, and
an event published for that path within `ORIGIN_TTL` of the note is tagged with the session and
stripped from its subscription.

One path and one subscribed session are followed through a whole run.  Sessions and programs on
the server change things, the backend reports the changes as raw events in the order they were
made, the coalescer takes them in one by one, and a flush publishes the window.  `foreign`
records that somebody else has changed the path since the session last did, and `heard` that
the session was told something about the path since then.

Two things can keep a foreign change from being heard.  The window may lose it, when a removal
cancels a creation; and the flush may come while the session's own note is still young, so that
the one event for both changes is taken for an echo.
-/

namespace AlloyFs

namespace EventHub

/-- The table of recent writers does not name the session for the path, or has done so for too
long. -/
def Aged (hub : EventHub) (now me : ℕ) (path : RelPath) : Prop :=
  ∀ note ∈ hub.recentLocal.lookup path, note.1 = me → ORIGIN_TTL ≤ now - note.2
deriving Decidable

theorem Aged.originOf_ne {hub : EventHub} {now me : ℕ} {path : RelPath}
    (h : hub.Aged now me path) : hub.originOf now path ≠ some me := by
  rw [originOf]
  split
  · next session touched hnote =>
    intro heq
    obtain ⟨hlt, hme⟩ := Option.ite_none_right_eq_some.mp heq
    have := h (session, touched) hnote (Option.some.inj hme)
    omega
  · nofun

/-- Every item of a batch is published, under its own path and with the origin that the table
of recent writers has for it. -/
theorem mem_publish (now : ℕ) {item : RelPath × EventKind} {raw : List (RelPath × EventKind)} :
    ∀ hub : EventHub, item ∈ raw → ∃ e ∈ (hub.publish now raw).2,
      e.path = item.1 ∧ e.kind = item.2 ∧ e.origin = hub.originOf now item.1 := by
  induction raw with
  | nil => exact fun _ h => nomatch h
  | cons first raw ih =>
    intro hub h
    rcases List.mem_cons.mp h with rfl | h
    · exact ⟨_, List.mem_cons_self, rfl, rfl, rfl⟩
    · -- publishing an event leaves the table of recent writers alone
      obtain ⟨e, he, hpath, hkind, horigin⟩ := ih (hub.publishOne now first).1 h
      exact ⟨e, List.mem_cons_of_mem _ he, hpath, hkind, horigin⟩

end EventHub

/-- An event tells a subscriber that a path is not what it was. -/
def FsEvent.tells (p : RelPath) (e : FsEvent) : Bool :=
  e.path = p || e.kind = .renamedFrom p || e.kind = .resyncRequired

/-- One export, one subscribed session and one path. -/
structure EchoState where
  /-- the clock, in nanoseconds -/
  now : ℕ
  hub : EventHub
  co : Coalescer
  /-- raw events that the coalescer has not taken in -/
  raw : List NotifyEvent
  /-- handlers that have changed something and have not noted it -/
  owed : List (ℕ × List RelPath)
  /-- somebody else changed the path since the session last did -/
  foreign : Bool
  /-- the session was told about the path since the last change by somebody else -/
  heard : Bool

/-- What can happen. -/
inductive EchoStep
  | tick (elapsed : ℕ)
  /-- a handler of a session changes the tree and will note these paths -/
  | request (session : ℕ) (paths : List RelPath) (reports : List NotifyEvent)
  /-- a handler notes its paths, the `i`-th of those that have yet to -/
  | note (i : ℕ)
  /-- a program on the server changes the tree -/
  | program (reports : List NotifyEvent)
  /-- the coalescer takes in a raw event -/
  | ingest
  /-- the window is published; a subscriber that has lagged loses the batch and is told so -/
  | flush (lagged : Bool)

namespace EchoState

def init (root : List Name) (exclude : ExcludeSet) : EchoState :=
  ⟨0, .new, .new root exclude, [], [], false, false⟩

variable (me : ℕ) (p : RelPath)

/-- Somebody changed the tree, and these raw events report it. -/
def changed (s : EchoState) (own : Bool) (reports : List NotifyEvent) : EchoState :=
  let s' := { s with raw := s.raw ++ reports }
  if ∃ e ∈ reports, Coalescer.touches s.co.root p e then
    if own then { s' with foreign := false } else { s' with foreign := true, heard := false }
  else s'

/-- What the session's subscription delivers of a batch. -/
def delivered (lagged : Bool) (batch : List FsEvent) : List FsEvent :=
  if batch = [] then [] else if lagged then resync else strip me batch

/-- The window is drained and published. -/
def published (s : EchoState) (lagged : Bool) : EchoState :=
  let window := s.co.takeBatch
  let out := s.hub.publish s.now window.1
  { s with
    hub := out.1
    co := window.2
    heard := s.heard || (delivered me lagged out.2).any (FsEvent.tells p) }

def step (s : EchoState) : EchoStep → Option EchoState
  | .tick elapsed => some { s with now := s.now + elapsed }
  | .request session paths reports =>
    let s' := s.changed p (session = me) reports
    some { s' with owed := s'.owed ++ [(session, paths)] }
  | .note i => do
    let (session, paths) ← s.owed[i]?
    some { s with
      hub := paths.foldl (fun hub q => hub.noteLocalWrite s.now q session) s.hub
      owed := s.owed.eraseIdx i }
  | .program reports => some (s.changed p false reports)
  | .ingest =>
    match s.raw with
    | [] => none
    | e :: raw => some { s with co := s.co.ingest e, raw := raw }
  | .flush lagged => some (s.published me p lagged)

/-- Some raw event about the path has yet to be taken in. -/
def Queued (root : List Name) (raw : List NotifyEvent) : Prop :=
  ∃ e ∈ raw, Coalescer.touches root p e
deriving Decidable

/-- Nothing about the path is on its way to the subscribers. -/
def Settled (s : EchoState) : Prop := ¬Queued p s.co.root s.raw ∧ ¬s.co.About p
deriving Decidable

/-- Somebody else's change has yet to be heard of. -/
def Unheard (s : EchoState) : Prop := s.foreign = true ∧ s.heard = false
deriving Decidable

/-- Taking in a raw event does not lose the path: it is no removal that cancels a pending
creation, and no rename across the edge of the export. -/
def ingestOk (s : EchoState) (e : NotifyEvent) : Prop :=
  (s.co.pending.lookup p = some .created → s.co.removes p e = false) ∧
    (Coalescer.touches s.co.root p e → Coalescer.straddles s.co.root e = false)
deriving Decidable

/-- A flush is not taken for an echo: the session noted no path that the batch is published
under less than `ORIGIN_TTL` ago, or another session noted it since. -/
def flushOk (s : EchoState) : Prop :=
  s.hub.Aged s.now me p ∧ ∀ r ∈ s.co.renames, r.2 = p → s.hub.Aged s.now me r.1
deriving Decidable

/-- The last raw event about an unheard change is taken in without loss, and the window that
holds it is not flushed as an echo. -/
def echoOk (s : EchoState) : EchoStep → Prop
  | .ingest => s.Unheard → ¬Queued p s.co.root s.raw.tail → ∀ e ∈ s.raw.head?, s.ingestOk p e
  | .flush false => s.Unheard → ¬Queued p s.co.root s.raw → s.flushOk me p
  | _ => True

instance decidableEchoOk (s : EchoState) : ∀ l, Decidable (s.echoOk me p l) := fun l => by
  unfold echoOk
  split <;> infer_instance

/-- Let the coalescer take in everything and publish. -/
def drain (s : EchoState) (lagged : Bool) : List EchoStep :=
  List.replicate s.raw.length .ingest ++ [.flush lagged]

/-! ## A foreign change stays on its way until it is heard of -/

variable {me p}

/-- The window is in order and an unheard change is on its way. -/
structure Inv (p : RelPath) (s : EchoState) : Prop where
  paired : s.co.Paired
  visible : s.co.exclude.isExcluded p = false
  underway : s.Unheard → Queued p s.co.root s.raw ∨ s.co.About p

variable {s s' : EchoState}

theorem Inv.init (root : List Name) {exclude : ExcludeSet} (hp : exclude.isExcluded p = false) :
    (init root exclude).Inv p :=
  ⟨⟨nofun, nofun⟩, hp, fun h => nomatch h.1⟩

theorem co_changed (s : EchoState) (own : Bool) (reports : List NotifyEvent) :
    (s.changed p own reports).co = s.co := by
  rw [changed]
  split
  · split <;> rfl
  · rfl

theorem raw_changed (s : EchoState) (own : Bool) (reports : List NotifyEvent) :
    (s.changed p own reports).raw = s.raw ++ reports := by
  rw [changed]
  split
  · split <;> rfl
  · rfl

/-- After a change the path is unheard only if it was, or if somebody else changed it. -/
theorem unheard_changed {own : Bool} {reports : List NotifyEvent}
    (h : (s.changed p own reports).Unheard) :
    s.Unheard ∨ Queued p s.co.root reports := by
  rw [changed] at h
  split at h
  · next htouch => exact .inr htouch
  · exact .inl h

theorem Inv.changed (h : s.Inv p) (own : Bool) (reports : List NotifyEvent) :
    (s.changed p own reports).Inv p := by
  constructor
  · rw [co_changed]
    exact h.paired
  · rw [co_changed]
    exact h.visible
  · intro hun
    rw [co_changed, raw_changed]
    rcases unheard_changed hun with hun | ⟨e, he, htouch⟩
    · refine (h.underway hun).imp_left fun ⟨e, he, htouch⟩ => ?_
      exact ⟨e, List.mem_append_left _ he, htouch⟩
    · exact .inl ⟨e, List.mem_append_right _ he, htouch⟩

theorem Inv.ingest {e : NotifyEvent} {raw : List NotifyEvent} (h : s.Inv p)
    (hraw : s.raw = e :: raw)
    (hok : s.Unheard → ¬Queued p s.co.root raw → s.ingestOk p e) :
    Inv p { s with co := s.co.ingest e, raw := raw } := by
  obtain ⟨hroot, hexclude⟩ := s.co.frame_ingest e
  refine ⟨h.paired.ingest e, hexclude ▸ h.visible, fun hun => ?_⟩
  rw [hroot]
  by_cases hrest : Queued p s.co.root raw
  · exact .inl hrest
  · obtain ⟨hcancel, hstraddle⟩ := hok hun hrest
    refine .inr (.ingest h.paired h.visible hcancel ?_)
    rcases h.underway hun with ⟨e', he', htouch⟩ | habout
    · rw [hraw, List.mem_cons] at he'
      rcases he' with rfl | he'
      · exact .inr ⟨htouch, hstraddle htouch⟩
      · exact absurd ⟨e', he', htouch⟩ hrest
    · exact .inl habout

theorem tells_of_flushOk {lagged : Bool} (habout : s.co.About p)
    (hok : lagged = false → s.flushOk me p) :
    (delivered me lagged (s.hub.publish s.now s.co.takeBatch.1).2).any (FsEvent.tells p) =
      true := by
  obtain ⟨item, hitem, hsays⟩ := habout.takeBatch
  obtain ⟨e, he, hpath, hkind, horigin⟩ := s.hub.mem_publish s.now hitem
  rw [delivered, if_neg (List.ne_nil_of_mem he)]
  cases lagged with
  | true => simp [resync, FsEvent.tells]
  | false =>
    obtain ⟨hself, hsource⟩ := hok rfl
    have haged : s.hub.Aged s.now me item.1 := by
      rcases hsays with heq | ⟨-, r, hr, hr1, hr2⟩
      · exact heq ▸ hself
      · exact hr1 ▸ hsource r hr hr2
    refine List.any_eq_true.mpr ⟨e, List.mem_filter.mpr ⟨he, ?_⟩, ?_⟩
    · rw [horigin]
      exact decide_eq_true haged.originOf_ne
    · rcases hsays with heq | ⟨heq, -⟩
      · simp [FsEvent.tells, hpath, heq]
      · simp [FsEvent.tells, hkind, heq]

theorem Inv.published {lagged : Bool} (h : s.Inv p)
    (hok : s.Unheard → ¬Queued p s.co.root s.raw → lagged = false → s.flushOk me p) :
    (s.published me p lagged).Inv p := by
  refine ⟨⟨nofun, nofun⟩, h.visible, fun ⟨hforeign, hheard⟩ => ?_⟩
  obtain ⟨hheard, hsilent⟩ := Bool.or_eq_false_iff.mp hheard
  have hun : s.Unheard := ⟨hforeign, hheard⟩
  refine .inl (Classical.byContradiction fun hrest => ?_)
  have htells := tells_of_flushOk ((h.underway hun).resolve_left hrest) (hok hun hrest)
  rw [htells] at hsilent
  cases hsilent

/-- **No step loses an unheard change** as long as it meets the condition. -/
theorem Inv.step {l : EchoStep} (h : s.Inv p) (hok : s.echoOk me p l)
    (hs : s.step me p l = some s') : s'.Inv p := by
  cases l with
  | tick elapsed =>
    cases hs
    exact ⟨h.paired, h.visible, h.underway⟩
  | request session paths reports =>
    cases hs
    have hc := h.changed (session = me) reports
    exact ⟨hc.paired, hc.visible, hc.underway⟩
  | note i =>
    obtain ⟨⟨session, paths⟩, -, hs⟩ := Option.bind_eq_some_iff.mp hs
    cases hs
    exact ⟨h.paired, h.visible, h.underway⟩
  | program reports =>
    cases hs
    exact h.changed false reports
  | ingest =>
    cases hraw : s.raw with
    | nil => simp [EchoState.step, hraw] at hs
    | cons e raw =>
      simp only [EchoState.step, hraw, Option.some.injEq] at hs
      cases hs
      apply h.ingest hraw
      intro hun hrest
      exact hok hun (by rwa [hraw]) e (by simp [hraw])
  | flush lagged =>
    cases hs
    apply h.published
    rintro hun hrest rfl
    exact hok hun hrest

/-! ## Draining -/

theorem exec_ingest (me : ℕ) (p : RelPath) :
    ∀ (raw : List NotifyEvent) (s : EchoState), s.raw = raw →
      exec (EchoState.step me p) s (List.replicate raw.length .ingest) =
        some { s with co := raw.foldl Coalescer.ingest s.co, raw := [] } := by
  intro raw
  induction raw with
  | nil =>
    intro s hraw
    cases s
    cases hraw
    rfl
  | cons e raw ih =>
    intro s hraw
    simp only [List.length_cons, List.replicate_succ, exec_cons, EchoState.step, hraw,
      Option.bind_some]
    exact ih { s with co := s.co.ingest e, raw := raw } rfl

theorem exec_drain (me : ℕ) (p : RelPath) (s : EchoState) (lagged : Bool) :
    ∃ s', exec (EchoState.step me p) s (s.drain lagged) = some s' ∧ s'.Settled p ∧
      s'.foreign = s.foreign := by
  rw [drain, exec_append, exec_ingest me p s.raw s rfl]
  refine ⟨_, rfl, ?_, rfl⟩
  constructor
  · rintro ⟨e, he, _⟩
    cases he
  · rintro (h | ⟨r, hr, _⟩)
    · cases h
    · cases hr

/-- **A session hears of what others do.**  Take any run of requests, programs on the server,
raw events, flushes and ticks of the clock in which the last raw event about an unheard change
cancels no pending creation and crosses no edge of the export, and in which the window that
holds it is flushed only when the session's notes are old.  Whenever nothing about the path is
on its way, and somebody else changed the path after the session last did, the session has been
told of it since; and from every state it takes only the raw events at hand and one flush to
get there. -/
theorem hears_foreign_change {root : List Name} {exclude : ExcludeSet}
    (hp : exclude.isExcluded p = false)
    (h : Reaches (EchoState.step me p) (EchoState.echoOk me p) (init root exclude) s) :
    (s.Settled p → s.foreign = true → s.heard = true) ∧
    ∀ lagged, ∃ s', exec (EchoState.step me p) s (s.drain lagged) = some s' ∧
      (Allowed (EchoState.step me p) (EchoState.echoOk me p) s (s.drain lagged) →
        s.foreign = true → s'.heard = true) := by
  have heard_of : ∀ s, Reaches (EchoState.step me p) (EchoState.echoOk me p) (init root exclude) s →
      s.Settled p → s.foreign = true → s.heard = true := by
    intro s h hset hforeign
    have hinv : s.Inv p := h.invariant (EchoState.Inv p) (.init root hp) fun _ _ _ hi hok hs =>
      hi.step hok hs
    by_contra hheard
    have hun : s.Unheard := ⟨hforeign, by simpa using hheard⟩
    exact (hinv.underway hun).elim hset.1 hset.2
  refine ⟨heard_of s h, fun lagged => ?_⟩
  obtain ⟨s', hs', hset, hforeign'⟩ := exec_drain me p s lagged
  refine ⟨s', hs', fun hallowed hforeign => ?_⟩
  exact heard_of s' (reaches_of_exec h _ hallowed hs') hset (hforeign'.trans hforeign)

/-- Session 1 writes `a`, the write is reported and flushed, and after `pause` nanoseconds a
program on the server writes `a` too. -/
def editAfter (pause : ℕ) : List EchoStep :=
  let report : NotifyEvent := ⟨.modify, [["srv".toList, "a".toList]]⟩
  [.request 1 [⟨"a".toList⟩] [report], .note 0, .ingest, .tick 50000000, .flush false,
    .tick pause, .program [report], .ingest, .tick 50000000, .flush false]

/-- Three seconds later the program's write is heard of. -/
theorem hears_after_three_seconds :
    ∃ s, exec (EchoState.step 1 ⟨"a".toList⟩) (init ["srv".toList] .none) (editAfter 3000000000) =
      some s ∧ s.Settled ⟨"a".toList⟩ ∧ s.foreign = true ∧ s.heard = true := by
  obtain ⟨s, hs⟩ : ∃ s, exec (EchoState.step 1 ⟨"a".toList⟩) (init ["srv".toList] .none)
      (editAfter 3000000000) = some s := ⟨_, rfl⟩
  have hr := reaches_of_exec .refl _
    (by decide +kernel : Allowed (EchoState.step 1 ⟨"a".toList⟩) (EchoState.echoOk 1 ⟨"a".toList⟩)
      (init ["srv".toList] .none) (editAfter 3000000000)) hs
  have hset : s.Settled ⟨"a".toList⟩ := by
    cases hs
    decide +kernel
  have hforeign : s.foreign = true := by
    cases hs
    rfl
  exact ⟨s, hs, hset, hforeign, (hears_foreign_change rfl hr).1 hset hforeign⟩

/-- **One second later it is not**: the session's note is still young, so the event that reports
the program's write alone is taken for an echo of the session's own. -/
theorem deaf_after_one_second :
    ∃ s, Reaches (EchoState.step 1 ⟨"a".toList⟩) (fun _ _ => True) (init ["srv".toList] .none) s ∧
      s.Settled ⟨"a".toList⟩ ∧ s.foreign = true ∧ s.heard = false := by
  exact exists_of_run (editAfter 1000000000) (allowed_true _ _ _) (fun _ h => h) (by decide +kernel)

end EchoState
end AlloyFs
