import AlloyFs.Agent.Locks
import AlloyFs.Lib.Transition

/-!
# Lock requests, handles and session ends, interleaved

A `Lock` request looks its handle up once and then runs the loop of `lock` on its
own, across any number of waits.  It knows nothing of what happens to the handle or
to the session meanwhile: `Release` removes the handle and then unlocks its path, a
lease expiry or a disconnect frees the session's locks and then its handles, and in
between, or after, a request task may take the lock it was waiting for.

One label is one atomic step of one task.  Steps of different tasks interleave
freely, and a task outlives the handle and the connection it was started for.

The lock table has no orphans, `LockServer.NoOrphan`, in the quiescent states of a
run in which locks are granted only to handles that someone will still let go of:
open at that moment in a connected session that is not being freed, or with their
own release still to unlock the path (`LockServer.grantOk`).  The code does not check
this; the first grant outside it leaves an orphan.
-/

namespace AlloyFs

open Function List

/-- Where the task of a `Lock` request stands. -/
inductive LockPhase
  /-- about to run its critical section -/
  | trying
  /-- waiting for its channel -/
  | parked
deriving DecidableEq

/-- A `Lock` request after its handle was looked up. -/
structure LockTask where
  path : RelPath
  session : ℕ
  fh : ℕ
  kind : LockKind
  wait : Bool
  phase : LockPhase
deriving DecidableEq

/-- A freeing of a session that has let go of its locks and not yet of its handles. -/
structure Clearing where
  session : ℕ
  /-- a disconnect, not a lease expiry -/
  disconnect : Bool
deriving DecidableEq

/-- The sessions of one export, their handles, the lock table and the tasks under
way. -/
structure LockServer where
  nextSession : ℕ
  connected : ℕ → Bool
  nextFh : ℕ → ℕ
  handles : ℕ → ℕ → Option RelPath
  locks : LockTable
  nextTask : ℕ
  tasks : ℕ → Option LockTask
  /-- `Unlock` requests past their lookup -/
  unlocking : List (ℕ × ℕ × RelPath)
  /-- `Release` requests that removed their handle and have not unlocked its path -/
  releasing : List (ℕ × ℕ × RelPath)
  clearing : List Clearing

/-- One atomic step of one task. -/
inductive LockStep
  | connect
  | openFile (session : ℕ) (path : RelPath)
  | lockLookup (session fh : ℕ) (kind : LockKind) (wait : Bool)
  | lockAttempt (task : ℕ)
  | unlockLookup (session fh : ℕ)
  | unlockRun (session fh : ℕ) (path : RelPath)
  | releaseHandle (session fh : ℕ)
  | releaseUnlock (session fh : ℕ) (path : RelPath)
  | freeLocks (session : ℕ) (disconnect : Bool)
  | freeHandles (session : ℕ) (disconnect : Bool)
deriving DecidableEq

namespace LockServer

def init : LockServer where
  nextSession := 1
  connected := fun _ => false
  nextFh := fun _ => 1
  handles := fun _ _ => none
  locks := .empty
  nextTask := 0
  tasks := fun _ => none
  unlocking := []
  releasing := []
  clearing := []

/-- Insert or remove one handle. -/
def setHandle (s : LockServer) (session fh : ℕ) (path : Option RelPath) : ℕ → ℕ → Option RelPath :=
  update s.handles session (update (s.handles session) fh path)

/-- The task can run: it has not parked yet, or its waiter has left the queue. -/
def runnable (s : LockServer) (id : ℕ) (task : LockTask) : Bool :=
  match task.phase with
  | .trying => true
  | .parked => (s.locks.waiters task.path).all fun w => decide (w.task ≠ id)

/-- One pass of the loop of `lock` for a task. -/
def runAttempt (s : LockServer) (id : ℕ) (task : LockTask) : LockServer :=
  let r := s.locks.attempt task.path task.session task.fh task.kind task.wait id
  let next := match r.1 with
    | .parked => some { task with phase := .parked }
    | _ => none
  { s with locks := r.2, tasks := update s.tasks id next }

def step (s : LockServer) : LockStep → Option LockServer
  | .connect =>
    some { s with
      nextSession := s.nextSession + 1
      connected := update s.connected s.nextSession true }
  | .openFile session path =>
    some { s with
      nextFh := update s.nextFh session (s.nextFh session + 1)
      handles := s.setHandle session (s.nextFh session) (some path) }
  | .lockLookup session fh kind wait =>
    match s.handles session fh with
    | none => some s
    | some path =>
      some { s with
        nextTask := s.nextTask + 1
        tasks := update s.tasks s.nextTask
          (some ⟨path, session, fh, kind, wait, .trying⟩) }
  | .lockAttempt id =>
    match s.tasks id with
    | none => none
    | some task => if s.runnable id task then some (s.runAttempt id task) else none
  | .unlockLookup session fh =>
    match s.handles session fh with
    | none => some s
    | some path => some { s with unlocking := (session, fh, path) :: s.unlocking }
  | .unlockRun session fh path =>
    if (session, fh, path) ∈ s.unlocking then
      some { s with
        locks := s.locks.unlock path session fh
        unlocking := s.unlocking.erase (session, fh, path) }
    else none
  | .releaseHandle session fh =>
    match s.handles session fh with
    | none => some s
    | some path =>
      some { s with
        handles := s.setHandle session fh none
        releasing := (session, fh, path) :: s.releasing }
  | .releaseUnlock session fh path =>
    if (session, fh, path) ∈ s.releasing then
      some { s with
        locks := s.locks.unlock path session fh
        releasing := s.releasing.erase (session, fh, path) }
    else none
  | .freeLocks session disconnect =>
    if s.connected session then
      some { s with
        locks := s.locks.releaseSession session
        clearing := ⟨session, disconnect⟩ :: s.clearing }
    else none
  | .freeHandles session disconnect =>
    if ⟨session, disconnect⟩ ∈ s.clearing then
      some { s with
        handles := update s.handles session fun _ => none
        connected :=
          if disconnect then update s.connected session false else s.connected
        clearing := s.clearing.erase ⟨session, disconnect⟩ }
    else none

/-- No `Release`, lease expiry or disconnect is half done. -/
def Quiescent (s : LockServer) : Prop := s.releasing = [] ∧ s.clearing = []

/-- **Every holder is an open handle of a connected session.** -/
def NoOrphan (s : LockServer) : Prop :=
  ∀ path, ∀ h ∈ s.locks.holders path,
    s.handles h.session h.fh = some path ∧ s.connected h.session = true

/-- The handle is open, its session is connected and is not being freed. -/
def Live (s : LockServer) (session fh : ℕ) (path : RelPath) : Prop :=
  s.handles session fh = some path ∧ s.connected session = true ∧
    ∀ c ∈ s.clearing, c.session ≠ session
deriving Decidable

/-- Someone will still let go of what this handle holds: it is live, or its release
has yet to unlock its path. -/
def Owned (s : LockServer) (session fh : ℕ) (path : RelPath) : Prop :=
  s.Live session fh path ∨ (session, fh, path) ∈ s.releasing
deriving Decidable

/-- The condition on a step, in the state before it: a pass of `lock` that finds the
lock free runs while its handle is owned.  Nothing is asked of any other step. -/
def grantOk (s : LockServer) : LockStep → Prop
  | .lockAttempt id =>
    ∀ task ∈ s.tasks id,
      compatible (dropHandle (s.locks.holders task.path) task.session task.fh) task.kind = true →
      s.Owned task.session task.fh task.path
  | _ => True

instance (s : LockServer) : ∀ l, Decidable (s.grantOk l) := fun l => by
  unfold grantOk
  split <;> infer_instance

/-! ## The invariant -/

/-- Every holder is owned. -/
structure Inv (s : LockServer) : Prop where
  /-- Handle numbers are not reused. -/
  fresh : ∀ session fh, (s.handles session fh).isSome = true → fh < s.nextFh session
  owned : ∀ path, ∀ h ∈ s.locks.holders path, s.Owned h.session h.fh path

theorem inv_init : Inv init := by
  refine ⟨?_, ?_⟩
  · intro session fh h
    cases h
  · intro path h hm
    simp [init, LockTable.empty, LockTable.holders, LockTable.entryOf] at hm

theorem Inv.noOrphan {s : LockServer} (hi : s.Inv) (hq : s.Quiescent) : s.NoOrphan := by
  intro path h hm
  rcases hi.owned path h hm with ⟨hh, hc, -⟩ | hr
  · exact ⟨hh, hc⟩
  · rw [hq.1] at hr
    cases hr

/-! ## One step -/

variable {s : LockServer} {session : ℕ} {s' : LockServer} {path : RelPath} {h : Holder}

theorem setHandle_self (session fh : ℕ) (path : Option RelPath) :
    s.setHandle session fh path session fh = path := by
  simp [setHandle]

theorem setHandle_of_ne {fh session' fh' : ℕ} (path : Option RelPath)
    (h : ¬ (session' = session ∧ fh' = fh)) :
    s.setHandle session fh path session' fh' = s.handles session' fh' := by
  by_cases hs : session' = session
  · subst hs
    have hfh : fh' ≠ fh := fun hf => h ⟨rfl, hf⟩
    simp only [setHandle, update_self, update_of_ne hfh]
  · simp only [setHandle, update_of_ne hs]

section

variable (hi : s.Inv)
include hi

/-- A step that changes only the table keeps the invariant if each of its holders
was one before or is owned. -/
theorem Inv.of_locks (hh : s'.handles = s.handles)
    (hn : s'.nextFh = s.nextFh) (hc : s'.connected = s.connected)
    (hr : s'.releasing = s.releasing) (hcl : s'.clearing = s.clearing)
    (hl : ∀ path, ∀ h ∈ s'.locks.holders path,
      h ∈ s.locks.holders path ∨ s.Owned h.session h.fh path) : s'.Inv := by
  refine ⟨fun session fh h => ?_, fun path h hm => ?_⟩
  · rw [hn]
    exact hi.fresh session fh (hh ▸ h)
  · simp only [Owned, Live, hh, hc, hr, hcl]
    rcases hl path h hm with hm | howned
    · exact hi.owned path h hm
    · exact howned

theorem inv_openFile (session : ℕ) (path : RelPath) : Inv { s with
      nextFh := update s.nextFh session (s.nextFh session + 1)
      handles := s.setHandle session (s.nextFh session) (some path) } := by
  refine ⟨fun session' fh h => ?_, fun q h hm => ?_⟩
  · dsimp only at h ⊢
    by_cases hs : session' = session
    · subst hs
      rw [update_self]
      by_cases hf : fh = s.nextFh session'
      · omega
      · rw [setHandle_of_ne _ fun he => hf he.2] at h
        have := hi.fresh session' fh h
        omega
    · rw [update_of_ne hs]
      rw [setHandle_of_ne _ fun he => hs he.1] at h
      exact hi.fresh session' fh h
  · rcases hi.owned q h hm with ⟨hh, hc, hcl⟩ | hr
    · -- an open handle has a number below the one just issued
      have hlt := hi.fresh h.session h.fh (by rw [hh]; rfl)
      refine .inl ⟨?_, hc, hcl⟩
      dsimp only
      rw [setHandle_of_ne, hh]
      rintro ⟨hs, hf⟩
      rw [hs] at hlt
      omega
    · exact .inr hr

theorem inv_releaseHandle {fh : ℕ} (hp : s.handles session fh = some path) : Inv { s with
      handles := s.setHandle session fh none
      releasing := (session, fh, path) :: s.releasing } := by
  refine ⟨fun session' fh' h => ?_, fun q h hm => ?_⟩
  · dsimp only at h ⊢
    by_cases he : session' = session ∧ fh' = fh
    · obtain ⟨rfl, rfl⟩ := he
      rw [setHandle_self] at h
      cases h
    · rw [setHandle_of_ne _ he] at h
      exact hi.fresh session' fh' h
  · rcases hi.owned q h hm with ⟨hh, hc, hcl⟩ | hr
    · by_cases he : h.session = session ∧ h.fh = fh
      · -- the holder's own handle goes: from here on its release is under way
        rw [he.1, he.2, hp, Option.some.injEq] at hh
        refine .inr ?_
        rw [he.1, he.2, hh]
        exact mem_cons_self
      · exact .inl ⟨(setHandle_of_ne _ he).trans hh, hc, hcl⟩
    · exact .inr (mem_cons_of_mem _ hr)

theorem inv_releaseUnlock (session fh : ℕ) (path : RelPath) : Inv { s with
      locks := s.locks.unlock path session fh
      releasing := s.releasing.erase (session, fh, path) } := by
  refine ⟨hi.fresh, fun q h hm => ?_⟩
  obtain ⟨hm, hother⟩ := LockTable.mem_holders_unlock.mp hm
  rcases hi.owned q h hm with hlive | hr
  · exact .inl hlive
  · refine .inr ((mem_erase_of_ne ?_).mpr hr)
    intro he
    simp only [Prod.mk.injEq] at he
    exact hother ⟨he.2.2, he.1, he.2.1⟩

theorem inv_freeLocks (session : ℕ) (disconnect : Bool) : Inv { s with
      locks := s.locks.releaseSession session
      clearing := ⟨session, disconnect⟩ :: s.clearing } := by
  refine ⟨hi.fresh, fun q h hm => ?_⟩
  obtain ⟨hm, hne⟩ := LockTable.mem_holders_releaseSession.mp hm
  rcases hi.owned q h hm with ⟨hh, hc, hcl⟩ | hr
  · exact .inl ⟨hh, hc, forall_mem_cons.mpr ⟨Ne.symm hne, hcl⟩⟩
  · exact .inr hr

theorem inv_freeHandles {disconnect : Bool} (hmem : ⟨session, disconnect⟩ ∈ s.clearing) :
    Inv { s with
      handles := update s.handles session fun _ => none
      connected := if disconnect then update s.connected session false else s.connected
      clearing := s.clearing.erase ⟨session, disconnect⟩ } := by
  refine ⟨fun session' fh h => ?_, fun q h hm => ?_⟩
  · dsimp only at h ⊢
    by_cases hs : session' = session
    · subst hs
      simp at h
    · rw [update_of_ne hs] at h
      exact hi.fresh session' fh h
  · rcases hi.owned q h hm with ⟨hh, hc, hcl⟩ | hr
    · -- a live handle is not in a session that is being freed
      have hne : h.session ≠ session := fun he => hcl _ hmem he.symm
      refine .inl ⟨?_, ?_, fun c hc => hcl c (mem_of_mem_erase hc)⟩
      · dsimp only
        rw [update_of_ne hne, hh]
      · cases disconnect
        · exact hc
        · simp only [if_true, update_of_ne hne, hc]
    · exact .inr hr

theorem inv_runAttempt {id : ℕ} {task : LockTask}
    (hok : compatible (dropHandle (s.locks.holders task.path) task.session task.fh)
        task.kind = true → s.Owned task.session task.fh task.path) :
    (s.runAttempt id task).Inv := by
  refine hi.of_locks rfl rfl rfl rfl rfl fun q h hm => ?_
  rcases LockTable.mem_holders_attempt hm with hm | ⟨rfl, rfl, hc⟩
  · exact .inl hm
  · exact .inr (hok hc)

/-- **Every step that meets the condition keeps the invariant.** -/
theorem inv_step {l : LockStep} (hok : s.grantOk l) (h : s.step l = some s') : s'.Inv := by
  cases l with
  | connect =>
    cases h
    refine ⟨hi.fresh, fun q h hm => ?_⟩
    rcases hi.owned q h hm with ⟨hh, hc, hcl⟩ | hr
    · refine .inl ⟨hh, ?_, hcl⟩
      by_cases hs : h.session = s.nextSession
      · simp only [hs, update_self]
      · simp only [update_of_ne hs, hc]
    · exact .inr hr
  | openFile session path =>
    cases h
    exact inv_openFile hi session path
  | lockLookup session fh kind wait =>
    simp only [step] at h
    split at h
    · cases h
      exact hi
    · cases h
      exact hi.of_locks rfl rfl rfl rfl rfl fun _ _ hm => .inl hm
  | lockAttempt id =>
    simp only [step] at h
    split at h
    · cases h
    · next task htask =>
      obtain ⟨-, rfl⟩ := of_guard h
      exact inv_runAttempt hi (hok task htask)
  | unlockLookup session fh =>
    simp only [step] at h
    split at h
    · cases h
      exact hi
    · cases h
      exact hi.of_locks rfl rfl rfl rfl rfl fun _ _ hm => .inl hm
  | unlockRun session fh path =>
    obtain ⟨-, rfl⟩ := of_guard h
    exact hi.of_locks rfl rfl rfl rfl rfl fun _ _ hm =>
      .inl (LockTable.mem_holders_unlock.mp hm).1
  | releaseHandle session fh =>
    simp only [step] at h
    split at h
    · cases h
      exact hi
    · next path hp =>
      cases h
      exact inv_releaseHandle hi hp
  | releaseUnlock session fh path =>
    obtain ⟨-, rfl⟩ := of_guard h
    exact inv_releaseUnlock hi session fh path
  | freeLocks session disconnect =>
    obtain ⟨-, rfl⟩ := of_guard h
    exact inv_freeLocks hi session disconnect
  | freeHandles session disconnect =>
    obtain ⟨hmem, rfl⟩ := of_guard h
    exact inv_freeHandles hi hmem

end

/-! ## Letting everything under way finish -/

/-- The lock is held for a handle that nobody will let go of. -/
def Abandoned (s : LockServer) (path : RelPath) (h : Holder) : Prop :=
  h ∈ s.locks.holders path ∧ ¬ s.Owned h.session h.fh path

theorem abandoned_releaseUnlock (ha : s.Abandoned path h)
    {r : ℕ × ℕ × RelPath} (hr : r ∈ s.releasing) :
    Abandoned { s with
      locks := s.locks.unlock r.2.2 r.1 r.2.1
      releasing := s.releasing.erase r } path h := by
  obtain ⟨hm, hno⟩ := ha
  refine ⟨LockTable.mem_holders_unlock.mpr ⟨hm, ?_⟩, fun ho => hno ?_⟩
  · rintro ⟨hp, hs, hf⟩
    refine hno (.inr ?_)
    rw [hp, hs, hf]
    exact hr
  · exact ho.imp_right mem_of_mem_erase

theorem abandoned_freeHandles (ha : s.Abandoned path h) (session : ℕ) (disconnect : Bool) :
    Abandoned { s with
      handles := update s.handles session fun _ => none
      connected := if disconnect then update s.connected session false else s.connected
      clearing := s.clearing.erase ⟨session, disconnect⟩ } path h := by
  obtain ⟨hm, hno⟩ := ha
  refine ⟨hm, fun ho => hno (ho.imp_left ?_)⟩
  rintro ⟨hh, hc, hcl⟩
  dsimp only at hh hc hcl
  by_cases hs : h.session = session
  · rw [hs, update_self] at hh
    cases hh
  · rw [update_of_ne hs] at hh
    refine ⟨hh, ?_, fun c hmem => ?_⟩
    · cases disconnect
      · exact hc
      · simpa only [if_true, update_of_ne hs] using hc
    · by_cases he : c = ⟨session, disconnect⟩
      · rw [he]
        exact Ne.symm hs
      · exact hcl c ((mem_erase_of_ne he).mpr hmem)

/-- Finishing every release and every freeing leaves an abandoned lock abandoned. -/
theorem exists_quiescent (n : ℕ) :
    ∀ s : LockServer, s.releasing.length + s.clearing.length = n → s.Abandoned path h →
      ∃ s', Reaches step (fun _ _ => True) s s' ∧ s'.Quiescent ∧ s'.Abandoned path h := by
  induction n with
  | zero =>
    intro s hn ha
    refine ⟨s, .refl, ⟨?_, ?_⟩, ha⟩
    · exact length_eq_zero_iff.mp (by omega)
    · exact length_eq_zero_iff.mp (by omega)
  | succ n ih =>
    intro s hn ha
    cases hr : s.releasing with
    | cons r rs =>
      have hmem : r ∈ s.releasing := by rw [hr]; exact mem_cons_self
      have hstep : s.step (.releaseUnlock r.1 r.2.1 r.2.2) = some { s with
          locks := s.locks.unlock r.2.2 r.1 r.2.1
          releasing := s.releasing.erase r } := if_pos hmem
      obtain ⟨s', hs', hq, ha'⟩ := ih _ (by
        rw [hr, length_cons] at hn
        simp only [hr, erase_cons_head]
        omega) (abandoned_releaseUnlock ha hmem)
      exact ⟨s', .trans (.tail .refl trivial hstep) hs', hq, ha'⟩
    | nil =>
      cases hc : s.clearing with
      | nil => rw [hr, hc] at hn; cases hn
      | cons c cs =>
        have hmem : c ∈ s.clearing := by rw [hc]; exact mem_cons_self
        have hstep : s.step (.freeHandles c.session c.disconnect) = some _ := if_pos hmem
        obtain ⟨s', hs', hq, ha'⟩ := ih _ (by
          rw [hr, hc, length_cons] at hn
          simp only [hr, hc, erase_cons_head]
          omega) (abandoned_freeHandles ha c.session c.disconnect)
        exact ⟨s', .trans (.tail .refl trivial hstep) hs', hq, ha'⟩

theorem Abandoned.not_noOrphan (ha : s.Abandoned path h) (hq : s.Quiescent) : ¬ s.NoOrphan := by
  intro hno
  obtain ⟨hh, hc⟩ := hno path h ha.1
  refine ha.2 (.inl ⟨hh, hc, fun c hmem => ?_⟩)
  rw [hq.2] at hmem
  cases hmem

theorem abandoned_of_not_grantOk {l : LockStep} (hok : ¬ s.grantOk l)
    (h : s.step l = some s') : ∃ path holder, s'.Abandoned path holder := by
  cases l with
  | lockAttempt id =>
    simp only [grantOk, not_forall] at hok
    obtain ⟨task, htask, hc, hno⟩ := hok
    rw [Option.mem_def] at htask
    simp only [step, htask] at h
    obtain ⟨-, rfl⟩ := of_guard h
    refine ⟨task.path, ⟨task.session, task.fh, task.kind⟩, ?_, hno⟩
    simp only [runAttempt, LockTable.holders_attempt, if_true, hc]
    exact mem_append_right _ mem_cons_self
  | _ => exact absurd trivial hok

/-! ## Whole runs -/

/-- **No orphan locks, exactly in the runs that grant locks to owned handles.**  In
every quiescent state that a run meeting `grantOk` reaches, each holder in the lock
table is a handle still open in a session still connected.  Conversely, once such a
run takes a step outside `grantOk`, finishing what is under way leads to a quiescent
state with an orphan. -/
theorem noOrphan_iff_grantOk {s : LockServer} (hs : Reaches step grantOk init s) :
    (s.Quiescent → s.NoOrphan) ∧
      ∀ l s', ¬ s.grantOk l → s.step l = some s' →
        ∃ s'', Reaches step (fun _ _ => True) s' s'' ∧ s''.Quiescent ∧ ¬ s''.NoOrphan := by
  refine ⟨fun hq => ?_, fun l s' hok h => ?_⟩
  · have hi : s.Inv := hs.invariant Inv inv_init fun _ _ _ hi hok hs => inv_step hi hok hs
    exact hi.noOrphan hq
  · obtain ⟨path, holder, ha⟩ := abandoned_of_not_grantOk hok h
    obtain ⟨s'', hs'', hq, ha'⟩ := exists_quiescent _ s' rfl ha
    exact ⟨s'', hs'', hq, ha'.not_noOrphan hq⟩

/-- A session locks a file and a second one waits for it. -/
def lockAndWait : List LockStep :=
  let a : RelPath := ⟨['a']⟩
  [.connect, .connect, .openFile 1 a, .openFile 2 a,
    .lockLookup 1 1 .exclusive false, .lockAttempt 0,
    .lockLookup 2 1 .exclusive true, .lockAttempt 1]

/-- The first one releases its handle and goes away, and the second one gets its turn.  A third one
locks another file until its lease is over. -/
def lockInTurn : List LockStep :=
  lockAndWait ++
    [.releaseHandle 1 1, .releaseUnlock 1 1 ⟨['a']⟩, .lockAttempt 1, .freeLocks 1 true,
      .freeHandles 1 true, .connect, .openFile 3 ⟨['b']⟩, .lockLookup 3 1 .shared false,
      .lockAttempt 2, .freeLocks 3 false, .freeHandles 3 false]

theorem noOrphan_lockInTurn :
    ∃ s : LockServer, s.locks.holders ⟨['a']⟩ = [⟨2, 1, .exclusive⟩] ∧ s.connected 1 = false ∧
      s.handles 3 1 = none ∧ s.NoOrphan := by
  obtain ⟨s, hs, hreleasing, hclearing, hheld, hgone, hclosed⟩ : ∃ s, Reaches step grantOk init s ∧
      s.releasing = [] ∧ s.clearing = [] ∧ s.locks.holders ⟨['a']⟩ = [⟨2, 1, .exclusive⟩] ∧
      s.connected 1 = false ∧ s.handles 3 1 = none :=
    exists_of_run lockInTurn (by decide) (fun _ h => h) (by decide)
  exact ⟨s, hheld, hgone, hclosed, (noOrphan_iff_grantOk hs).1 ⟨hreleasing, hclearing⟩⟩

/-- The second one releases its handle while it waits, and the first one unlocks. -/
def releaseWhileWaiting : List LockStep :=
  let a : RelPath := ⟨['a']⟩
  lockAndWait ++
    [.releaseHandle 2 1, .releaseUnlock 2 1 a, .unlockLookup 1 1, .unlockRun 1 1 a, .lockAttempt 1]

/-- The waiting request takes the lock for a handle that no longer exists, and
nobody is left to release it. -/
theorem orphan_after_release :
    ∃ s, Reaches step (fun _ _ => True) init s ∧ s.Quiescent ∧ ¬ s.NoOrphan := by
  obtain ⟨s, hs, hobs⟩ := exists_reaches_of_exec releaseWhileWaiting
    (fun s => (s.releasing, s.clearing, s.locks.holders ⟨['a']⟩, s.handles 2 1))
    ([], [], [⟨2, 1, .exclusive⟩], none) (allowed_true step _ init) (by decide)
  simp only [Prod.mk.injEq] at hobs
  obtain ⟨hrel, hcl, hheld, hgone⟩ := hobs
  refine ⟨s, hs, ⟨hrel, hcl⟩, fun h => ?_⟩
  have hopen := (h ⟨['a']⟩ ⟨2, 1, .exclusive⟩ (by rw [hheld]; exact mem_cons_self)).1
  rw [hgone] at hopen
  cases hopen

end LockServer
end AlloyFs
