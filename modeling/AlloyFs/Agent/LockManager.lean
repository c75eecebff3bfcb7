import AlloyFs.Agent.LockRun
import Mathlib.Data.Finset.Card

/-!
# The lock manager under every interleaving

The lock table with the calls of `lock` that have not returned, and nothing of sessions and
handles: any session may call for any handle at any time.  A call runs its critical section
once when it starts, and again each time its wake-up channel is resolved.

What the table promises at every moment is in `LockTable.Ok`.  Waking is another matter:
only `unlock` and `release_session` wake, but a pass of `lock` changes the holders too, and
a woken call that finds the lock taken again goes to the end of the queue.  So the front of
the queue can be left parked next to holders that would admit it.  `LockManager.wakeOk` is
the condition on a pass of `lock` under which this does not happen.
-/

namespace AlloyFs

open Function List

/-! ## What the table promises -/

/-- Any number of shared holders, or one exclusive holder. -/
def Exclusion (hs : List Holder) : Prop :=
  (∀ h ∈ hs, h.kind = .shared) ∨ ∃ h, hs = [h] ∧ h.kind = .exclusive

/-- The handle of a holder. -/
def Holder.handle (h : Holder) : ℕ × ℕ := (h.session, h.fh)

/-- What an entry promises. -/
structure Entry.Ok (e : Entry) : Prop where
  exclusion : Exclusion e.holders
  once : (e.holders.map Holder.handle).Nodup
  /-- an entry with neither holders nor waiters is not kept -/
  used : e.holders ≠ [] ∨ e.waiters ≠ []

def LockTable.Ok (t : LockTable) : Prop := ∀ p e, t p = some e → e.Ok

section Holders

variable {hs : List Holder} {kind : LockKind}

theorem Exclusion.filter (h : Exclusion hs) (f : Holder → Bool) : Exclusion (hs.filter f) := by
  rcases h with hall | ⟨x, rfl, hx⟩
  · exact .inl fun y hy => hall y (mem_filter.mp hy).1
  · by_cases hf : f x = true
    · rw [filter_cons_of_pos hf]
      exact .inr ⟨x, rfl, hx⟩
    · rw [filter_cons_of_neg hf]
      exact .inl fun y hy => by cases hy

theorem compatible_nil (kind : LockKind) : compatible [] kind = true := by cases kind <;> rfl

theorem compatible_shared : compatible hs .shared = true ↔ ∀ h ∈ hs, h.kind = .shared := by
  rw [compatible, all_eq_true]
  exact forall₂_congr fun h _ => decide_eq_true_iff

theorem compatible_exclusive : compatible hs .exclusive = true ↔ hs = [] := by
  rw [compatible, List.isEmpty_iff]

theorem Exclusion.grant (hc : compatible hs kind = true) (session fh : ℕ) :
    Exclusion (hs ++ [⟨session, fh, kind⟩]) := by
  cases kind with
  | shared =>
    refine .inl fun h hm => ?_
    rcases mem_append.mp hm with hm | hm
    · exact compatible_shared.mp hc h hm
    · rw [mem_singleton.mp hm]
  | exclusive =>
    rw [compatible_exclusive.mp hc]
    exact .inr ⟨_, rfl, rfl⟩

end Holders

namespace LockTable

variable {t : LockTable} {p : RelPath} {session fh : ℕ}

theorem ok_empty : Ok empty := nofun

theorem Ok.holders (h : t.Ok) (p : RelPath) :
    Exclusion (t.holders p) ∧ ((t.holders p).map Holder.handle).Nodup := by
  rw [LockTable.holders, entryOf]
  cases hp : t p with
  | none => exact ⟨.inl (by simp), nodup_nil⟩
  | some e => exact ⟨(h p e hp).exclusion, (h p e hp).once⟩

theorem Ok.update (h : t.Ok) {e : Option Entry} (he : ∀ e' ∈ e, e'.Ok) :
    Ok (update t p e) := by
  intro q e' hq
  by_cases hqp : q = p
  · rw [hqp, update_self] at hq
    exact he e' hq
  · rw [update_of_ne hqp] at hq
    exact h q e' hq

theorem ok_keep {e : Entry} (hx : Exclusion e.holders) (hn : (e.holders.map Holder.handle).Nodup) :
    ∀ e' ∈ keep e, e'.Ok := by
  intro e' he'
  rw [keep] at he'
  split at he'
  · cases he'
  · next hne =>
    cases he'
    refine ⟨hx, hn, ?_⟩
    rw [Bool.and_eq_true, not_and_or, List.isEmpty_iff, List.isEmpty_iff] at hne
    exact hne

theorem handle_notMem_dropHandle (hs : List Holder) :
    (session, fh) ∉ (dropHandle hs session fh).map Holder.handle := by
  intro hm
  obtain ⟨h, hmem, heq⟩ := mem_map.mp hm
  exact (mem_dropHandle.mp hmem).2 (Prod.mk.inj heq)

theorem Ok.attempt (h : t.Ok) (kind : LockKind) (wait : Bool) (task : ℕ) :
    Ok (t.attempt p session fh kind wait task).2 := by
  obtain ⟨hx, hn⟩ := h.holders p
  have hx' : Exclusion (dropHandle (t.holders p) session fh) := hx.filter _
  have hn' : ((dropHandle (t.holders p) session fh).map Holder.handle).Nodup :=
    hn.sublist (filter_sublist.map _)
  rw [LockTable.attempt]
  by_cases hc : compatible (dropHandle (t.holders p) session fh) kind = true
  · simp only [hc, if_true]
    refine h.update fun e' he' => ?_
    cases he'
    refine ⟨Exclusion.grant hc session fh, ?_, .inl (by simp)⟩
    rw [map_append, nodup_append']
    refine ⟨hn', nodup_singleton _, ?_⟩
    rw [map_singleton, disjoint_singleton]
    exact handle_notMem_dropHandle _
  · -- what is incompatible has holders
    have hne : dropHandle (t.holders p) session fh ≠ [] := by
      intro hnil
      rw [hnil] at hc
      exact hc (compatible_nil kind)
    cases wait with
    | true =>
      simp only [hc, Bool.false_eq_true, if_false, Bool.not_true]
      exact h.update fun e' he' => by cases he'; exact ⟨hx', hn', .inl hne⟩
    | false =>
      simp only [hc, Bool.false_eq_true, if_false, Bool.not_false, if_true]
      exact h.update fun e' he' => by cases he'; exact ⟨hx', hn', .inl hne⟩

theorem Ok.unlock (h : t.Ok) : Ok (t.unlock p session fh) := by
  rw [LockTable.unlock]
  split
  · exact h
  · next e he =>
    have hok := h p e he
    exact h.update (ok_keep (hok.exclusion.filter _)
      (hok.once.sublist (filter_sublist.map _)))

theorem Ok.releaseSession (h : t.Ok) : Ok (t.releaseSession session) := by
  intro p e he
  rw [LockTable.releaseSession] at he
  split at he
  · cases he
  · next e' he' =>
    have hok := h p e' he'
    exact ok_keep (hok.exclusion.filter _) (hok.once.sublist (filter_sublist.map _)) e he

theorem mem_holders_of_granted {kind : LockKind} {wait : Bool} {task : ℕ}
    (hg : (t.attempt p session fh kind wait task).1 = .granted) :
    ⟨session, fh, kind⟩ ∈ (t.attempt p session fh kind wait task).2.holders p := by
  by_cases hc : compatible (dropHandle (t.holders p) session fh) kind = true
  · rw [holders_attempt, if_pos rfl, if_pos hc]
    exact mem_append_right _ mem_cons_self
  · cases wait <;> simp [LockTable.attempt, hc] at hg

/-! ## The queues -/

theorem wakeWaiters_suffix (hs : List Holder) (ws : List Waiter) : wakeWaiters hs ws <:+ ws := by
  induction ws with
  | nil => exact suffix_rfl
  | cons w ws ih =>
    rw [wakeWaiters]
    split
    · split
      · exact suffix_cons w ws
      · exact ih.trans (suffix_cons w ws)
    · exact suffix_rfl

theorem wakeWaiters_cases (hs : List Holder) (ws : List Waiter) :
    (wakeWaiters hs ws = ws ∧ ∀ w ∈ ws.head?, compatible hs w.kind = false) ∨
      ∃ w rest, ws = w :: rest ∧ wakeWaiters hs ws <:+ rest := by
  cases ws with
  | nil => exact .inl ⟨rfl, nofun⟩
  | cons w rest =>
    by_cases hc : compatible hs w.kind = true
    · refine .inr ⟨w, rest, rfl, ?_⟩
      rw [wakeWaiters, if_pos hc]
      split
      · exact suffix_rfl
      · exact wakeWaiters_suffix hs rest
    · refine .inl ⟨?_, fun w' hw' => ?_⟩
      · rw [wakeWaiters, if_neg hc]
      · cases hw'
        simpa using hc

theorem waiters_keep (e : Entry) : ((keep e).getD ⟨[], []⟩).waiters = e.waiters := by
  unfold keep
  split
  · next he =>
    simp only [Bool.and_eq_true, List.isEmpty_iff] at he
    simp [he.2]
  · rfl

theorem waiters_update_of_ne {q : RelPath} (e : Option Entry) (hne : q ≠ p) :
    LockTable.waiters (update t p e) q = t.waiters q := by
  simp only [waiters, entryOf, update_of_ne hne]

theorem waiters_update_self (e : Option Entry) :
    LockTable.waiters (update t p e) p = (e.getD ⟨[], []⟩).waiters := by
  simp only [waiters, entryOf, update_self]

theorem waiters_attempt (q : RelPath) (kind : LockKind) (wait : Bool) (task : ℕ) :
    (t.attempt p session fh kind wait task).2.waiters q =
      if q = p ∧ (t.attempt p session fh kind wait task).1 = .parked then
        t.waiters p ++ [⟨session, kind, task⟩]
      else t.waiters q := by
  by_cases hq : q = p
  · subst hq
    by_cases hc : compatible (dropHandle (t.holders q) session fh) kind = true
    · simp [LockTable.attempt, hc, waiters_update_self]
    · cases wait <;> simp [LockTable.attempt, hc, waiters_update_self]
  · rw [if_neg fun h => hq h.1]
    by_cases hc : compatible (dropHandle (t.holders p) session fh) kind = true
    · simp [LockTable.attempt, hc, waiters_update_of_ne _ hq]
    · cases wait <;> simp [LockTable.attempt, hc, waiters_update_of_ne _ hq]

theorem holders_unlock_self :
    (t.unlock p session fh).holders p = dropHandle (t.holders p) session fh := by
  unfold unlock
  cases hp : t p with
  | none => simp [holders, entryOf, hp, dropHandle]
  | some e =>
    simp only [holders, entryOf, hp, Option.getD_some, update_self, holders_keep]

theorem waiters_unlock_self :
    (t.unlock p session fh).waiters p =
      wakeWaiters (dropHandle (t.holders p) session fh) (t.waiters p) := by
  unfold unlock
  cases hp : t p with
  | none => simp [waiters, entryOf, hp, wakeWaiters]
  | some e =>
    simp only [holders, waiters, entryOf, hp, Option.getD_some, update_self, waiters_keep]

theorem unlock_of_ne {q : RelPath} (hq : q ≠ p) : (t.unlock p session fh) q = t q := by
  unfold unlock
  cases t p with
  | none => rfl
  | some e => exact update_of_ne hq _ _

theorem holders_releaseSession (q : RelPath) : (t.releaseSession session).holders q =
    (t.holders q).filter fun h => decide (h.session ≠ session) := by
  cases hq : t q with
  | none => simp [holders, entryOf, releaseSession, hq]
  | some e => simp only [holders, entryOf, releaseSession, hq, holders_keep, Option.getD_some]

theorem waiters_releaseSession (q : RelPath) : (t.releaseSession session).waiters q =
    wakeWaiters ((t.holders q).filter fun h => decide (h.session ≠ session))
      ((t.waiters q).filter fun w => decide (w.session ≠ session)) := by
  cases hq : t q with
  | none => simp [waiters, holders, entryOf, releaseSession, hq, wakeWaiters]
  | some e =>
    simp only [waiters, holders, entryOf, releaseSession, hq, waiters_keep, Option.getD_some]

end LockTable

/-! ## Calls of `lock` -/

/-- The table and the calls of `lock` that have not returned. -/
structure LockManager where
  entries : LockTable
  nextCall : ℕ
  calls : ℕ → Option LockTask

/-- One critical section, or the start of a call. -/
inductive LockOp
  | lock (path : RelPath) (session fh : ℕ) (kind : LockKind) (wait : Bool)
  /-- a pass of the loop of `lock` -/
  | pass (call : ℕ)
  | unlock (path : RelPath) (session fh : ℕ)
  | releaseSession (session : ℕ)
deriving DecidableEq

variable {w : Waiter}

namespace LockManager

variable {m m' : LockManager} {id : ℕ} {op : LockOp} {task : LockTask} {t : LockTable}
  {path : RelPath}

def init : LockManager := ⟨.empty, 0, fun _ => none⟩

/-- The channel of a parked call is resolved: its waiter has left the queue. -/
def woken (m : LockManager) (id : ℕ) (task : LockTask) : Bool :=
  decide (task.phase = .parked) && (m.entries.waiters task.path).all fun w => decide (w.task ≠ id)

/-- How the next pass of a call ends. -/
def outcome (m : LockManager) (id : ℕ) (task : LockTask) : Attempt :=
  (m.entries.attempt task.path task.session task.fh task.kind task.wait id).1

/-- A pass of a call: it returns or parks. -/
def run (m : LockManager) (id : ℕ) (task : LockTask) : LockManager :=
  { m with
    entries := (m.entries.attempt task.path task.session task.fh task.kind task.wait id).2
    calls := update m.calls id
      (if m.outcome id task = .parked then some { task with phase := .parked } else none) }

def step (m : LockManager) : LockOp → Option LockManager
  | .lock path session fh kind wait =>
    some { m with
      nextCall := m.nextCall + 1
      calls := update m.calls m.nextCall
        (some ⟨path, session, fh, kind, wait, .trying⟩) }
  | .pass id =>
    match m.calls id with
    | none => none
    | some task =>
      if task.phase = .trying ∨ m.woken id task then some (m.run id task) else none
  | .unlock path session fh => some { m with entries := m.entries.unlock path session fh }
  | .releaseSession session => some { m with entries := m.entries.releaseSession session }

theorem step_pass (h : m.step (.pass id) = some m') :
    ∃ task, m.calls id = some task ∧ (task.phase = .trying ∨ m.woken id task = true) ∧
      m' = m.run id task := by
  simp only [step] at h
  split at h
  · cases h
  · next task htask =>
    obtain ⟨hrun, rfl⟩ := of_guard h
    exact ⟨task, htask, hrun, rfl⟩

/-! ## The invariant of the table -/

theorem ok_step (hok : m.entries.Ok) (h : m.step op = some m') :
    m'.entries.Ok := by
  cases op with
  | lock path session fh kind wait =>
    cases h
    exact hok
  | pass id =>
    obtain ⟨task, -, -, rfl⟩ := step_pass h
    exact hok.attempt _ _ _
  | unlock path session fh =>
    cases h
    exact hok.unlock
  | releaseSession session =>
    cases h
    exact hok.releaseSession

/-- **The lock table at every moment.**  Whatever calls, retries, unlocks and session ends
led there: on every path the holders are shared or a single exclusive one, no handle holds
twice, and no entry has neither holders nor waiters; and a call that returns `Ok` has made
its handle a holder of the kind it asked for. -/
theorem ok_of_reaches {m : LockManager} (h : Reaches step (fun _ _ => True) init m) :
    (∀ path, Exclusion (m.entries.holders path)) ∧
      (∀ path, ((m.entries.holders path).map Holder.handle).Nodup) ∧
      (∀ path e, m.entries path = some e → e.holders ≠ [] ∨ e.waiters ≠ []) ∧
      ∀ id task m', m.calls id = some task → m.outcome id task = .granted →
        m.step (.pass id) = some m' →
        ⟨task.session, task.fh, task.kind⟩ ∈ m'.entries.holders task.path := by
  have hok : m.entries.Ok := h.invariant (fun m => m.entries.Ok) LockTable.ok_empty
    fun _ _ _ hok _ hs => ok_step hok hs
  refine ⟨fun path => (hok.holders path).1, fun path => (hok.holders path).2,
    fun path e he => (hok path e he).used, fun id task m' htask hg hs => ?_⟩
  obtain ⟨task', htask', -, rfl⟩ := step_pass hs
  obtain rfl := Option.some.inj (htask.symm.trans htask')
  exact LockTable.mem_holders_of_granted hg

/-- Two shared holders, and an exclusive one that gets its turn after both. -/
theorem ok_of_reaches_shared :
    ∃ m m' : LockManager, m.entries.holders ⟨['a']⟩ = [⟨1, 1, .shared⟩, ⟨2, 1, .shared⟩] ∧
      Exclusion (m.entries.holders ⟨['a']⟩) ∧
      m'.entries.holders ⟨['a']⟩ = [⟨3, 1, .exclusive⟩] ∧
      Exclusion (m'.entries.holders ⟨['a']⟩) := by
  let both := [LockOp.lock ⟨['a']⟩ 1 1 .shared false, .pass 0, .lock ⟨['a']⟩ 2 1 .shared false,
    .lock ⟨['a']⟩ 3 1 .exclusive true, .pass 2, .pass 1]
  obtain ⟨m, hm, hobs⟩ := exists_reaches_of_exec both
    (fun m => m.entries.holders ⟨['a']⟩) [⟨1, 1, .shared⟩, ⟨2, 1, .shared⟩]
    (allowed_true step _ init) (by decide +kernel)
  obtain ⟨m', hm', hobs'⟩ := exists_reaches_of_exec
    (both ++ [.unlock ⟨['a']⟩ 1 1, .releaseSession 2, .pass 2])
    (fun m => m.entries.holders ⟨['a']⟩) [⟨3, 1, .exclusive⟩]
    (allowed_true step _ init) (by decide +kernel)
  exact ⟨m, m', hobs, (ok_of_reaches hm).1 _, hobs', (ok_of_reaches hm').1 _⟩

/-! ## The queues and the calls -/

/-- A parked call whose channel is resolved has its retry outstanding on this path. -/
def Retrying (m : LockManager) (path : RelPath) : Prop :=
  ∃ id task, m.calls id = some task ∧ task.path = path ∧ m.woken id task = true

/-- The waiter at the front of the queue is incompatible with the holders. -/
def FrontBlocked (m : LockManager) (path : RelPath) : Prop :=
  ∀ w ∈ (m.entries.waiters path).head?, compatible (m.entries.holders path) w.kind = false

/-- **No lost wake-up**: once no retry is outstanding, every front waiter has to wait. -/
def NoLostWake (m : LockManager) : Prop :=
  (∀ path, ¬ m.Retrying path) → ∀ path, m.FrontBlocked path

/-- Every waiter belongs to a parked call on its path, and every call has one at most. -/
structure Queued (m : LockManager) : Prop where
  fresh : ∀ id task, m.calls id = some task → id < m.nextCall
  parked : ∀ path, ∀ w ∈ m.entries.waiters path,
    ∃ task, m.calls w.task = some task ∧ task.path = path ∧ task.phase = .parked
  once : ∀ path, ((m.entries.waiters path).map Waiter.task).Nodup

/-- The condition on a pass of `lock`, in the state before it.  If the front waiter wants a
shared lock and no other retry is outstanding on the path, then an exclusive holder other
than the caller is there, or the caller takes an exclusive lock on a path that nobody else
holds. -/
def wakeOk (m : LockManager) : LockOp → Prop
  | .pass id =>
    ∀ task ∈ m.calls id,
      (∃ other < m.nextCall, other ≠ id ∧ ∃ task' ∈ m.calls other,
        task'.path = task.path ∧ m.woken other task' = true) ∨
      ∀ w ∈ (m.entries.waiters task.path).head?, w.kind = .shared →
        let others := dropHandle (m.entries.holders task.path) task.session task.fh
        (∃ h ∈ others, h.kind = .exclusive) ∨ (others = [] ∧ task.kind = .exclusive)
  | _ => True

instance (m : LockManager) : ∀ op, Decidable (m.wakeOk op)
  | .pass id => inferInstanceAs (Decidable (∀ task ∈ m.calls id, _ ∨ _))
  | .lock _ _ _ _ _ | .unlock _ _ _ | .releaseSession _ => inferInstanceAs (Decidable True)

theorem woken_iff :
    m.woken id task = true ↔
      task.phase = .parked ∧ ∀ w ∈ m.entries.waiters task.path, w.task ≠ id := by
  simp only [woken, Bool.and_eq_true, decide_eq_true_iff, all_eq_true]

theorem Queued.no_waiter (hq : m.Queued)
    (htask : m.calls id = some task) (hrun : task.phase = .trying ∨ m.woken id task = true)
    (path : RelPath) : ∀ w ∈ m.entries.waiters path, w.task ≠ id := by
  rintro w hw rfl
  obtain ⟨task', htask', rfl, hphase⟩ := hq.parked path w hw
  obtain rfl := Option.some.inj (htask.symm.trans htask')
  rcases hrun with htry | hwoken
  · rw [htry] at hphase
    cases hphase
  · exact (woken_iff.mp hwoken).2 w hw rfl

theorem queued_init : Queued init := ⟨nofun, nofun, fun _ => nodup_nil⟩

theorem Queued.of_sublist (hq : m.Queued)
    (h : ∀ path, (t.waiters path).Sublist (m.entries.waiters path)) :
    Queued { m with entries := t } :=
  ⟨hq.fresh, fun path w hw => hq.parked path w ((h path).subset hw),
    fun path => (hq.once path).sublist ((h path).map _)⟩

theorem sublist_unlock (t : LockTable) (p path : RelPath) (session fh : ℕ) :
    ((t.unlock p session fh).waiters path).Sublist (t.waiters path) := by
  by_cases hp : path = p
  · subst hp
    rw [LockTable.waiters_unlock_self]
    exact (LockTable.wakeWaiters_suffix _ _).sublist
  · rw [LockTable.waiters, LockTable.entryOf, LockTable.unlock_of_ne hp]
    exact List.Sublist.refl _

theorem sublist_releaseSession (t : LockTable) (path : RelPath) (session : ℕ) :
    ((t.releaseSession session).waiters path).Sublist (t.waiters path) := by
  rw [LockTable.waiters_releaseSession]
  exact (LockTable.wakeWaiters_suffix _ _).sublist.trans filter_sublist

theorem waiters_run (path : RelPath) :
    (m.run id task).entries.waiters path =
      if path = task.path ∧ m.outcome id task = .parked then
        m.entries.waiters task.path ++ [⟨task.session, task.kind, id⟩]
      else m.entries.waiters path :=
  LockTable.waiters_attempt path task.kind task.wait id

theorem Queued.run (hq : m.Queued)
    (htask : m.calls id = some task) (hrun : task.phase = .trying ∨ m.woken id task = true) :
    (m.run id task).Queued := by
  have hno := hq.no_waiter htask hrun
  refine ⟨fun id' task' h => ?_, fun path w hw => ?_, fun path => ?_⟩
  · by_cases hid : id' = id
    · rw [hid]
      exact hq.fresh id task htask
    · simp only [LockManager.run, update_of_ne hid] at h
      exact hq.fresh id' task' h
  · have hold : w ∈ m.entries.waiters path → ∃ task', (m.run id task).calls w.task = some task' ∧
        task'.path = path ∧ task'.phase = .parked := by
      intro hw
      simp only [LockManager.run, update_of_ne (hno path w hw)]
      exact hq.parked path w hw
    rw [waiters_run] at hw
    split at hw
    · next hpark =>
      rcases mem_append.mp hw with hw | hw
      · exact hold (hpark.1 ▸ hw)
      · rw [mem_singleton.mp hw]
        simp only [LockManager.run, update_self, if_pos hpark.2]
        exact ⟨_, rfl, hpark.1.symm, rfl⟩
    · exact hold hw
  · rw [waiters_run]
    split
    · next hpark =>
      rw [map_append, nodup_append']
      refine ⟨hq.once _, nodup_singleton _, ?_⟩
      rw [map_singleton, disjoint_singleton, mem_map]
      rintro ⟨w, hw, heq⟩
      exact hno _ w hw heq
    · exact hq.once path

theorem queued_step (hq : m.Queued) (h : m.step op = some m') :
    m'.Queued := by
  cases op with
  | lock path session fh kind wait =>
    cases h
    have hne : ∀ id task, m.calls id = some task → id ≠ m.nextCall := fun id task hid heq =>
      absurd (hq.fresh id task hid) (by omega)
    refine ⟨fun id task hid => ?_, fun path w hw => ?_, hq.once⟩
    · dsimp only at hid ⊢
      by_cases heq : id = m.nextCall
      · omega
      · rw [update_of_ne heq] at hid
        have := hq.fresh id task hid
        omega
    · obtain ⟨task, htask, hpath, hphase⟩ := hq.parked path w hw
      refine ⟨task, ?_, hpath, hphase⟩
      dsimp only
      rw [update_of_ne (hne _ _ htask), htask]
  | pass id =>
    obtain ⟨task, htask, hrun, rfl⟩ := step_pass h
    exact hq.run htask hrun
  | unlock path session fh =>
    cases h
    exact hq.of_sublist fun path' => sublist_unlock _ _ _ _ _
  | releaseSession session =>
    cases h
    exact hq.of_sublist fun path' => sublist_releaseSession _ _ _

/-! ## Who is woken -/

theorem Queued.retrying (hq : m.Queued) (hw : w ∈ m.entries.waiters path)
    (hgone : ∀ w' ∈ t.waiters path, w'.task ≠ w.task) :
    Retrying { m with entries := t } path := by
  obtain ⟨task, htask, rfl, hphase⟩ := hq.parked path w hw
  exact ⟨w.task, task, htask, rfl, woken_iff.mpr ⟨hphase, hgone⟩⟩

theorem Queued.awake (hq : m.Queued)
    (hw : t.waiters path = wakeWaiters (t.holders path) (m.entries.waiters path)) :
    Retrying { m with entries := t } path ∨ FrontBlocked { m with entries := t } path := by
  rcases LockTable.wakeWaiters_cases (t.holders path) (m.entries.waiters path) with
    ⟨hsame, hblocked⟩ | ⟨w, rest, hcons, hsuffix⟩
  · refine .inr fun w hmem => hblocked w ?_
    rw [hw, hsame] at hmem
    exact hmem
  · refine .inl (hq.retrying (w := w) (by rw [hcons]; exact mem_cons_self) fun w' hw' heq => ?_)
    have honce := hq.once path
    rw [hcons, map_cons, nodup_cons] at honce
    rw [hw] at hw'
    exact honce.1 (heq ▸ mem_map_of_mem (hsuffix.subset hw'))

theorem Retrying.congr (h : m.Retrying path)
    (hcalls : ∀ id task, m.calls id = some task → task.path = path → m'.calls id = some task)
    (hw : m'.entries.waiters path = m.entries.waiters path) : m'.Retrying path := by
  obtain ⟨id, task, htask, rfl, hwoken⟩ := h
  refine ⟨id, task, hcalls id task htask rfl, rfl, ?_⟩
  rw [woken_iff] at hwoken ⊢
  rw [hw]
  exact hwoken

theorem FrontBlocked.congr (h : m.FrontBlocked path)
    (he : m'.entries.entryOf path = m.entries.entryOf path) : m'.FrontBlocked path := by
  rw [FrontBlocked, LockTable.waiters, LockTable.holders, he]
  exact h

/-- On every path a retry is outstanding or the front waiter is blocked. -/
def Awake (m : LockManager) : Prop := ∀ path, m.Retrying path ∨ m.FrontBlocked path

theorem awake_unlock (hq : m.Queued) (ha : m.Awake) (p : RelPath)
    (session fh : ℕ) : Awake { m with entries := m.entries.unlock p session fh } := by
  intro path
  by_cases hp : path = p
  · subst hp
    refine hq.awake ?_
    rw [LockTable.waiters_unlock_self, LockTable.holders_unlock_self]
  · have he : (m.entries.unlock p session fh).entryOf path = m.entries.entryOf path := by
      rw [LockTable.entryOf, LockTable.unlock_of_ne hp, LockTable.entryOf]
    refine (ha path).imp (fun h => h.congr (fun _ _ hid _ => hid) ?_) fun h => h.congr he
    rw [LockTable.waiters, he, LockTable.waiters]

theorem awake_releaseSession (hq : m.Queued) (session : ℕ) :
    Awake { m with entries := m.entries.releaseSession session } := by
  intro path
  by_cases hall : ∀ w ∈ m.entries.waiters path, w.session ≠ session
  · refine hq.awake ?_
    have hkeep : (m.entries.waiters path).filter (fun w => decide (w.session ≠ session)) =
        m.entries.waiters path :=
      filter_eq_self.mpr fun w hw => decide_eq_true (hall w hw)
    rw [LockTable.waiters_releaseSession, LockTable.holders_releaseSession, hkeep]
  · -- a waiter of the session is dropped
    push Not at hall
    obtain ⟨w, hw, hs⟩ := hall
    refine .inl (hq.retrying hw fun w' hw' heq => ?_)
    have hsub := (sublist_releaseSession m.entries path session).subset hw'
    have heq' : w' = w := inj_on_of_nodup_map (hq.once path) hsub hw heq
    rw [LockTable.waiters_releaseSession] at hw'
    have hmem := (LockTable.wakeWaiters_suffix _ _).subset hw'
    rw [mem_filter, decide_eq_true_iff] at hmem
    exact hmem.2 (heq' ▸ hs)

/-! ## A pass of `lock` -/

section Pass

variable {m : LockManager} {id : ℕ} {task : LockTask}

/-- The holders other than the caller. -/
abbrev others (m : LockManager) (task : LockTask) : List Holder :=
  dropHandle (m.entries.holders task.path) task.session task.fh

theorem holders_run : (m.run id task).entries.holders task.path =
    if compatible (m.others task) task.kind then
      m.others task ++ [⟨task.session, task.fh, task.kind⟩]
    else m.others task := by
  have h : (m.run id task).entries.holders task.path = _ :=
    LockTable.holders_attempt task.kind task.wait id
  rw [h, if_pos rfl]

theorem holders_run_ne_nil : (m.run id task).entries.holders task.path ≠ [] := by
  rw [holders_run]
  split
  · simp
  · next hc =>
    intro hnil
    rw [hnil] at hc
    exact hc (compatible_nil task.kind)

theorem calls_run_of_ne {id' : ℕ} (h : id' ≠ id) : (m.run id task).calls id' = m.calls id' :=
  update_of_ne h _ _

theorem not_woken_run {task' : LockTask} (h : (m.run id task).calls id = some task') :
    (m.run id task).woken id task' = false := by
  simp only [run, update_self] at h
  obtain ⟨hpark, rfl⟩ := of_guard h
  rw [Bool.eq_false_iff]
  intro hwoken
  have hno := (woken_iff.mp hwoken).2
  rw [waiters_run, if_pos ⟨rfl, hpark⟩] at hno
  exact hno _ (mem_append_right _ mem_cons_self) rfl

theorem woken_run {id' : ℕ} (h : id' ≠ id) (task' : LockTask) :
    (m.run id task).woken id' task' = m.woken id' task' := by
  rw [Bool.eq_iff_iff, woken_iff, woken_iff, waiters_run]
  refine and_congr_right fun _ => ?_
  split
  · next hpark =>
    rw [hpark.1]
    constructor
    · exact fun hall w hw => hall w (mem_append_left _ hw)
    · intro hall w hw
      rcases mem_append.mp hw with hw | hw
      · exact hall w hw
      · rw [mem_singleton.mp hw]
        exact Ne.symm h
  · rfl

theorem entryOf_run_of_ne (h : path ≠ task.path) :
    (m.run id task).entries.entryOf path = m.entries.entryOf path := by
  have hentry : (m.run id task).entries path = m.entries path := by
    simp only [run, LockTable.attempt]
    split
    · exact update_of_ne h _ _
    · split <;> exact update_of_ne h _ _
  rw [LockTable.entryOf, hentry, LockTable.entryOf]

theorem retrying_run (htask : m.calls id = some task) :
    (m.run id task).Retrying path ↔ ∃ id', id' ≠ id ∧ ∃ task', m.calls id' = some task' ∧
      task'.path = path ∧ m.woken id' task' = true := by
  constructor
  · rintro ⟨id', task', hid, hpath, hwoken⟩
    have hne : id' ≠ id := by
      rintro rfl
      rw [not_woken_run hid] at hwoken
      cases hwoken
    rw [calls_run_of_ne hne] at hid
    rw [woken_run hne] at hwoken
    exact ⟨id', hne, task', hid, hpath, hwoken⟩
  · rintro ⟨id', hne, task', hid, hpath, hwoken⟩
    exact ⟨id', task', (calls_run_of_ne hne).trans hid, hpath, (woken_run hne task').trans hwoken⟩

/-- The front of the queue after a pass: who was there before, or the caller. -/
theorem front_run (h : w ∈ ((m.run id task).entries.waiters task.path).head?) :
    w ∈ (m.entries.waiters task.path).head? ∨
      (w.kind = task.kind ∧ compatible (m.others task) task.kind = false) := by
  rw [waiters_run] at h
  split at h
  · next hpark =>
    cases hws : m.entries.waiters task.path with
    | nil =>
      rw [hws] at h
      cases h
      refine .inr ⟨rfl, ?_⟩
      by_contra hc
      have hgrant : m.outcome id task = .granted := by
        exact congrArg Prod.fst (if_pos (by rwa [Bool.not_eq_false] at hc))
      rw [hgrant] at hpark
      cases hpark.2
    | cons w' ws =>
      rw [hws] at h
      cases h
      exact .inl rfl
  · exact .inl h

theorem front_run_of_front (h : w ∈ (m.entries.waiters task.path).head?) :
    w ∈ ((m.run id task).entries.waiters task.path).head? := by
  rw [waiters_run]
  split
  · cases hws : m.entries.waiters task.path with
    | nil =>
      rw [hws] at h
      cases h
    | cons w' ws =>
      rw [hws] at h
      exact h
  · exact h

theorem frontBlocked_run (hok : ∀ w ∈ (m.entries.waiters task.path).head?, w.kind = .shared →
      (∃ h ∈ m.others task, h.kind = .exclusive) ∨
        (m.others task = [] ∧ task.kind = .exclusive)) :
    (m.run id task).FrontBlocked task.path := by
  intro w hw
  rcases front_run hw with hfront | ⟨hkind, hc⟩
  · rw [Bool.eq_false_iff]
    intro hcompat
    cases hk : w.kind with
    | exclusive =>
      rw [hk, compatible_exclusive] at hcompat
      exact holders_run_ne_nil hcompat
    | shared =>
      rw [hk, compatible_shared, holders_run] at hcompat
      rcases hok w hfront hk with ⟨h, hm, hx⟩ | ⟨hnil, hx⟩
      · have hmem : h ∈ (if compatible (m.others task) task.kind then
            m.others task ++ [⟨task.session, task.fh, task.kind⟩] else m.others task) := by
          split
          · exact mem_append_left _ hm
          · exact hm
        rw [hcompat h hmem] at hx
        cases hx
      · rw [if_pos (by rw [hnil]; exact compatible_nil _)] at hcompat
        have := hcompat _ (mem_append_right _ mem_cons_self)
        rw [show _ = _ from hx] at this
        cases this
  · rw [hkind, holders_run, if_neg (by rw [hc]; nofun)]
    exact hc

end Pass

theorem awake_run (ha : m.Awake)
    (htask : m.calls id = some task) (hok : m.wakeOk (.pass id)) : (m.run id task).Awake := by
  intro path
  by_cases hp : path = task.path
  · subst hp
    rcases hok task htask with ⟨other, -, hne, task', htask', hpath, hwoken⟩ | hfront
    · exact .inl ((retrying_run htask).mpr ⟨other, hne, task', htask', hpath, hwoken⟩)
    · exact .inr (frontBlocked_run hfront)
  · refine (ha path).imp (fun h => ?_) fun h => h.congr (entryOf_run_of_ne hp)
    refine h.congr (fun id' task' hid hpath => ?_) ?_
    · have hne : id' ≠ id := by
        rintro rfl
        rw [htask] at hid
        cases hid
        exact hp hpath.symm
      rw [calls_run_of_ne hne, hid]
    · rw [LockTable.waiters, entryOf_run_of_ne hp, LockTable.waiters]

/-- **Every step that meets the condition keeps the front waiters blocked**, or a retry
outstanding. -/
theorem awake_step (hq : m.Queued) (ha : m.Awake)
    (hok : m.wakeOk op) (h : m.step op = some m') : m'.Awake := by
  cases op with
  | lock path session fh kind wait =>
    cases h
    intro path'
    refine (ha path').imp (fun hr => hr.congr (fun id task hid _ => ?_) rfl) fun hf => hf.congr rfl
    have hne : id ≠ m.nextCall := (hq.fresh id task hid).ne
    dsimp only
    rw [update_of_ne hne, hid]
  | pass id =>
    obtain ⟨task, htask, -, rfl⟩ := step_pass h
    exact awake_run ha htask hok
  | unlock path session fh =>
    cases h
    exact awake_unlock hq ha path session fh
  | releaseSession session =>
    cases h
    exact awake_releaseSession hq session

/-! ## A pass outside the condition -/

/-- The front waiter is left next to holders that would admit it, with no retry to come. -/
def Lost (m : LockManager) (path : RelPath) : Prop := ¬ m.Retrying path ∧ ¬ m.FrontBlocked path

theorem lost_of_not_wakeOk (hq : m.Queued) (hok : ¬ m.wakeOk op)
    (h : m.step op = some m') : ∃ path, m'.Lost path := by
  cases op with
  | pass id =>
    obtain ⟨task, htask, -, rfl⟩ := step_pass h
    simp only [wakeOk, not_forall, not_or] at hok
    obtain ⟨task', htask', hnone, w, hw, hshared, hno, hnot⟩ := hok
    obtain rfl := Option.some.inj (htask.symm.trans htask')
    refine ⟨task.path, fun hr => hnone ?_, fun hb => ?_⟩
    · obtain ⟨other, hne, task', htask', hpath, hwoken⟩ := (retrying_run htask).mp hr
      exact ⟨other, hq.fresh _ _ htask', hne, task', htask', hpath, hwoken⟩
    · have hall : ∀ h ∈ m.others task, h.kind = .shared := by
        intro h hm
        cases hk : h.kind with
        | shared => rfl
        | exclusive => exact absurd ⟨h, hm, hk⟩ hno
      have hcompat : compatible ((m.run id task).entries.holders task.path) .shared = true := by
        rw [compatible_shared, holders_run]
        split
        · next hc =>
          intro h hm
          rcases mem_append.mp hm with hm | hm
          · exact hall h hm
          · rw [mem_singleton.mp hm]
            cases hk : task.kind with
            | shared => rfl
            | exclusive =>
              rw [hk, compatible_exclusive] at hc
              exact absurd ⟨hc, hk⟩ hnot
        · exact hall
      have hblocked := hb w (front_run_of_front hw)
      rw [hshared, hcompat] at hblocked
      cases hblocked
  | _ => exact absurd trivial hok

/-- The calls with a retry outstanding. -/
def retries (m : LockManager) : Finset ℕ :=
  (Finset.range m.nextCall).filter fun id => (m.calls id).any fun task => m.woken id task

theorem mem_retries (hq : m.Queued) :
    id ∈ m.retries ↔ ∃ task, m.calls id = some task ∧ m.woken id task = true := by
  rw [retries, Finset.mem_filter, Finset.mem_range, Option.any_eq_true]
  constructor
  · exact fun h => h.2
  · rintro ⟨task, htask, hwoken⟩
    exact ⟨hq.fresh id task htask, task, htask, hwoken⟩

theorem not_retrying_of_retries (hq : m.Queued) (h : m.retries = ∅)
    (path : RelPath) : ¬ m.Retrying path := by
  rintro ⟨id, task, htask, -, hwoken⟩
  have hmem := (mem_retries hq).mpr ⟨task, htask, hwoken⟩
  rw [h] at hmem
  cases hmem

/-- A retry is one retry less: the call returns or parks, and its pass wakes nobody. -/
theorem retries_run (hq : m.Queued) (hq' : (m.run id task).Queued) (hid : id ∈ m.retries) :
    (m.run id task).retries ⊂ m.retries := by
  have hnot : id ∉ (m.run id task).retries := by
    intro hmem
    obtain ⟨task', htask', hwoken'⟩ := (mem_retries hq').mp hmem
    rw [not_woken_run htask'] at hwoken'
    cases hwoken'
  refine (Finset.ssubset_iff_of_subset fun id' hid' => ?_).mpr ⟨id, hid, hnot⟩
  have hne : id' ≠ id := by
    rintro rfl
    exact hnot hid'
  obtain ⟨task', htask', hwoken'⟩ := (mem_retries hq').mp hid'
  rw [calls_run_of_ne hne] at htask'
  rw [woken_run hne] at hwoken'
  exact (mem_retries hq).mpr ⟨task', htask', hwoken'⟩

theorem exists_settled (n : ℕ) : ∀ m : LockManager, m.retries.card = n →
    m.Queued → m.Lost path →
      ∃ m', Reaches step (fun _ _ => True) m m' ∧ (∀ p, ¬ m'.Retrying p) ∧ m'.Lost path := by
  induction n using Nat.strong_induction_on with
  | _ n ih =>
    intro m hn hq hl
    by_cases hempty : m.retries = ∅
    · exact ⟨m, .refl, not_retrying_of_retries hq hempty, hl⟩
    · obtain ⟨id, hid⟩ := Finset.nonempty_iff_ne_empty.mpr hempty
      obtain ⟨task, htask, hwoken⟩ := (mem_retries hq).mp hid
      have hne : path ≠ task.path := by
        rintro rfl
        exact hl.1 ⟨id, task, htask, rfl, hwoken⟩
      have hstep : m.step (.pass id) = some (m.run id task) := by
        simp only [step, htask]
        exact if_pos (.inr hwoken)
      have hq' : (m.run id task).Queued := hq.run htask (.inr hwoken)
      have hl' : (m.run id task).Lost path := by
        refine ⟨fun hr => hl.1 ?_, fun hb => hl.2 (hb.congr (entryOf_run_of_ne hne).symm)⟩
        obtain ⟨id', -, task', htask', hpath, hwoken'⟩ := (retrying_run htask).mp hr
        exact ⟨id', task', htask', hpath, hwoken'⟩
      have hlt : (m.run id task).retries.card < n := by
        rw [← hn]
        exact Finset.card_lt_card (retries_run hq hq' hid)
      obtain ⟨m', hm', hset, hlost⟩ := ih _ hlt _ rfl hq' hl'
      exact ⟨m', .trans (.tail .refl trivial hstep) hm', hset, hlost⟩

/-! ## Whole runs -/

/-- **No wake-up is lost, exactly in the runs whose passes meet `wakeOk`.**  In every state
that such a run reaches and in which no woken or dropped waiter has its retry outstanding,
every front waiter is incompatible with the holders.  And once such a run takes a step
outside the condition, finishing the retries under way leads to a state in which a waiter
is parked next to holders that would admit it. -/
theorem noLostWake_iff_wakeOk {m : LockManager} (hm : Reaches step wakeOk init m) :
    m.NoLostWake ∧ ∀ op m', ¬ m.wakeOk op → m.step op = some m' →
      ∃ m'', Reaches step (fun _ _ => True) m' m'' ∧ ¬ m''.NoLostWake := by
  have hinv : m.Queued ∧ m.Awake :=
    hm.invariant (fun m => m.Queued ∧ m.Awake) ⟨queued_init, fun _ => .inr nofun⟩
      fun _ _ _ hi hok hs => ⟨queued_step hi.1 hs, awake_step hi.1 hi.2 hok hs⟩
  refine ⟨fun hset path => (hinv.2 path).resolve_left (hset path), fun op m' hok hs => ?_⟩
  obtain ⟨path, hlost⟩ := lost_of_not_wakeOk hinv.1 hok hs
  obtain ⟨m'', hm'', hset, hlost'⟩ := exists_settled _ m' rfl (queued_step hinv.1 hs) hlost
  exact ⟨m'', hm'', fun hno => hlost'.2 (hno hset path)⟩

/-- A waits for a file that is held, gets it when the holder unlocks, and unlocks. -/
def waitAndUnlock : List LockOp :=
  let a : RelPath := ⟨['a']⟩
  [.lock a 1 1 .exclusive false, .pass 0, .lock a 2 1 .exclusive true, .pass 1,
    .lock a 3 1 .shared true, .pass 2, .unlock a 1 1, .pass 1]

theorem noLostWake_waitAndUnlock :
    ∃ m : LockManager, m.entries.waiters ⟨['a']⟩ = [⟨3, .shared, 2⟩] ∧ m.NoLostWake := by
  have hallowed : Allowed step wakeOk init waitAndUnlock := by decide +kernel
  obtain ⟨m, hm, hobs⟩ := exists_reaches_of_exec waitAndUnlock
    (fun m => m.entries.waiters ⟨['a']⟩) [⟨3, .shared, 2⟩] hallowed (by decide +kernel)
  exact ⟨m, hobs, (noLostWake_iff_wakeOk hm).1⟩

/-- The holder of an exclusive lock takes a shared one instead while another session waits
for a shared one. -/
def downgradeWhileWaiting : List LockOp :=
  let a : RelPath := ⟨['a']⟩
  [.lock a 1 1 .exclusive false, .pass 0, .lock a 2 1 .shared true, .pass 1,
    .lock a 1 1 .shared false, .pass 2]

/-- The downgrade wakes nobody: the waiter stays parked next to a shared holder. -/
theorem lostWake_downgrade :
    ∃ m, Reaches step (fun _ _ => True) init m ∧ ¬ m.NoLostWake := by
  obtain ⟨m, hm, hobs⟩ := exists_reaches_of_exec downgradeWhileWaiting
    (fun m => (m.entries.holders ⟨['a']⟩, m.entries.waiters ⟨['a']⟩, m.retries))
    ([⟨1, 1, .shared⟩], [⟨2, .shared, 1⟩], ∅) (allowed_true step _ init) (by decide +kernel)
  simp only [Prod.mk.injEq] at hobs
  obtain ⟨hholders, hwaiters, hretries⟩ := hobs
  have hq : m.Queued := hm.invariant Queued queued_init fun _ _ _ hi _ hs => queued_step hi hs
  refine ⟨m, hm, fun hno => ?_⟩
  have hset := not_retrying_of_retries hq hretries
  have hblocked := hno hset ⟨['a']⟩ ⟨2, .shared, 1⟩ (by rw [hwaiters]; rfl)
  rw [hholders] at hblocked
  revert hblocked
  decide

end LockManager

/-! ## The lock manager of a server -/

namespace LockServer

variable {s : LockServer}

/-- The part of a server that is its lock manager. -/
def manager (s : LockServer) : LockManager := ⟨s.locks, s.nextTask, s.tasks⟩

theorem manager_runAttempt (s : LockServer) (id : ℕ) (task : LockTask) :
    (s.runAttempt id task).manager = s.manager.run id task := by
  have hnext : (s.runAttempt id task).tasks = (s.manager.run id task).calls := by
    simp only [runAttempt, LockManager.run]
    congr 1
    split
    · next h => exact (if_pos h).symm
    · next h => exact (if_neg h).symm
  rw [manager, hnext]
  rfl

theorem runnable_iff {id : ℕ} {task : LockTask} :
    s.runnable id task = true ↔ task.phase = .trying ∨ s.manager.woken id task = true := by
  cases hp : task.phase with
  | trying => simp [runnable, hp]
  | parked => simp [runnable, LockManager.woken, manager, hp]

theorem manager_step {s' : LockServer} {l : LockStep} (h : s.step l = some s') :
    s'.manager = s.manager ∨ ∃ op, s.manager.step op = some s'.manager := by
  cases l with
  | connect =>
    cases h
    exact .inl rfl
  | openFile session path =>
    cases h
    exact .inl rfl
  | lockLookup session fh kind wait =>
    simp only [step] at h
    split at h
    · cases h
      exact .inl rfl
    · next path _ =>
      cases h
      exact .inr ⟨.lock path session fh kind wait, rfl⟩
  | lockAttempt id =>
    simp only [step] at h
    split at h
    · cases h
    · next task htask =>
      obtain ⟨hrun, rfl⟩ := of_guard h
      refine .inr ⟨.pass id, ?_⟩
      have htask' : s.manager.calls id = some task := htask
      simp only [LockManager.step, htask', manager_runAttempt]
      exact if_pos (runnable_iff.mp hrun)
  | unlockLookup session fh =>
    simp only [step] at h
    split at h <;> cases h <;> exact .inl rfl
  | unlockRun session fh path =>
    obtain ⟨-, rfl⟩ := of_guard h
    exact .inr ⟨.unlock path session fh, rfl⟩
  | releaseHandle session fh =>
    simp only [step] at h
    split at h <;> cases h <;> exact .inl rfl
  | releaseUnlock session fh path =>
    obtain ⟨-, rfl⟩ := of_guard h
    exact .inr ⟨.unlock path session fh, rfl⟩
  | freeLocks session disconnect =>
    obtain ⟨-, rfl⟩ := of_guard h
    exact .inr ⟨.releaseSession session, rfl⟩
  | freeHandles session disconnect =>
    obtain ⟨-, rfl⟩ := of_guard h
    exact .inl rfl

/-- **Every run of the server is a run of its lock manager**, so the table of the server
keeps `LockTable.Ok`. -/
theorem manager_reaches (h : Reaches step (fun _ _ => True) init s) :
    Reaches LockManager.step (fun _ _ => True) LockManager.init s.manager :=
  h.simulate manager rfl fun _ _ _ hs => manager_step hs

theorem locks_ok (h : Reaches step (fun _ _ => True) init s) : s.locks.Ok :=
  (manager_reaches h).invariant (fun m => m.entries.Ok) LockTable.ok_empty
    fun _ _ _ hok _ hs => LockManager.ok_step hok hs

end LockServer
end AlloyFs
