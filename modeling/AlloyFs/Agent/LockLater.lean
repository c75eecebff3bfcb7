import AlloyFs.Agent.LockRun
import Mathlib.Order.Nat

/-!
# What the lock server leaves alone

A client that counts on a lock counts on the steps of everyone else: none of them may take the
lock away, reuse the number of its handle, or bring a session back that the server has given up.
This module says so for single steps of the server and for sequences of them.
-/

namespace AlloyFs

open Function

/-- Two states of one `Lock` request. -/
def LockTask.Same (a b : LockTask) : Prop :=
  a.path = b.path ∧ a.session = b.session ∧ a.fh = b.fh ∧ a.kind = b.kind ∧ a.wait = b.wait

theorem LockTask.Same.trans {a b c : LockTask} (h : a.Same b) (h' : b.Same c) : a.Same c :=
  ⟨h.1.trans h'.1, h.2.1.trans h'.2.1, h.2.2.1.trans h'.2.2.1, h.2.2.2.1.trans h'.2.2.2.1,
    h.2.2.2.2.trans h'.2.2.2.2⟩

theorem LockTask.Same.refl (a : LockTask) : a.Same a := ⟨rfl, rfl, rfl, rfl, rfl⟩

namespace LockServer

/-- The server has seen the end of the connection. -/
def Dead (s : LockServer) (session : ℕ) : Prop :=
  s.connected session = false ∨ ∃ c ∈ s.clearing, c.session = session
deriving Decidable

/-- A handle number in use was issued. -/
def Fresh (s : LockServer) : Prop :=
  ∀ session fh, (s.handles session fh).isSome = true → fh < s.nextFh session

/-- What only moves forward: numbers are not given again, dead sessions stay dead, and a request
asks for what it asked. -/
structure Later (s s' : LockServer) : Prop where
  nextFh : ∀ session, s.nextFh session ≤ s'.nextFh session
  nextSession : s.nextSession ≤ s'.nextSession
  nextTask : s.nextTask ≤ s'.nextTask
  fresh : s.Fresh → s'.Fresh
  dead : ∀ session, session < s.nextSession → s.Dead session → s'.Dead session
  tasks : ∀ id, id < s.nextTask → ∀ task' ∈ s'.tasks id, ∃ task ∈ s.tasks id, task'.Same task

/-- The handle is open as it was, and holds the locks it held, or its session is dead. -/
structure Spares (s s' : LockServer) (session fh : ℕ) : Prop where
  handles : ∀ path, s.handles session fh = some path →
    s'.Dead session ∨ s'.handles session fh = some path
  holders : ∀ path kind, (⟨session, fh, kind⟩ : Holder) ∈ s.locks.holders path →
    s'.Dead session ∨ (⟨session, fh, kind⟩ : Holder) ∈ s'.locks.holders path

/-- The step is one of a request for this handle. -/
def touches (s : LockServer) (session fh : ℕ) : LockStep → Prop
  | .lockAttempt id => ∃ task ∈ s.tasks id, task.session = session ∧ task.fh = fh
  | .unlockRun session' fh' _ => session' = session ∧ fh' = fh
  | .releaseHandle session' fh' => session' = session ∧ fh' = fh
  | .releaseUnlock session' fh' _ => session' = session ∧ fh' = fh
  | _ => False

variable {s s' s'' : LockServer} {session fh : ℕ}

theorem Later.refl (s : LockServer) : s.Later s :=
  ⟨fun _ => le_rfl, le_rfl, le_rfl, id, fun _ _ h => h, fun _ _ task h => ⟨task, h, .refl task⟩⟩

theorem Later.trans (h : s.Later s') (h' : s'.Later s'') : s.Later s'' where
  nextFh := fun session => (h.nextFh session).trans (h'.nextFh session)
  nextSession := h.nextSession.trans h'.nextSession
  nextTask := h.nextTask.trans h'.nextTask
  fresh := fun hf => h'.fresh (h.fresh hf)
  dead := fun session hlt hd =>
    h'.dead session (hlt.trans_le h.nextSession) (h.dead session hlt hd)
  tasks := fun id hlt task'' h'' => by
    obtain ⟨task', ht', hs'⟩ := h'.tasks id (hlt.trans_le h.nextTask) task'' h''
    obtain ⟨task, ht, hs⟩ := h.tasks id hlt task' ht'
    exact ⟨task, ht, hs'.trans hs⟩

theorem Spares.refl (s : LockServer) (session fh : ℕ) : s.Spares s session fh :=
  ⟨fun _ h => .inr h, fun _ _ h => .inr h⟩

/-- A step that changes neither sessions nor handles moves forward if it keeps the requests. -/
theorem Later.of_eq (hc : s'.connected = s.connected) (hcl : s'.clearing = s.clearing)
    (hh : s'.handles = s.handles) (hfh : s'.nextFh = s.nextFh) (hs : s'.nextSession = s.nextSession)
    (hn : s.nextTask ≤ s'.nextTask)
    (ht : ∀ id, id < s.nextTask → ∀ task' ∈ s'.tasks id, ∃ task ∈ s.tasks id, task'.Same task) :
    s.Later s' where
  nextFh := fun session => (congrFun hfh session).ge
  nextSession := hs.ge
  nextTask := hn
  fresh := fun hf => by rwa [Fresh, hh, hfh]
  dead := fun session _ hd => by rwa [Dead, hc, hcl]
  tasks := ht

theorem later_openFile (session : ℕ) (path : RelPath) :
    s.Later { s with
      nextFh := update s.nextFh session (s.nextFh session + 1)
      handles := s.setHandle session (s.nextFh session) (some path) } where
  nextFh := fun σ => by
    dsimp only
    by_cases h : σ = session
    · subst h
      rw [update_self]
      omega
    · rw [update_of_ne h]
  nextSession := le_rfl
  nextTask := le_rfl
  fresh := fun hf σ n h => by
    dsimp only at h ⊢
    by_cases hs : σ = session
    · subst hs
      rw [update_self]
      by_cases hn : n = s.nextFh σ
      · omega
      · rw [setHandle_of_ne _ fun he => hn he.2] at h
        have := hf σ n h
        omega
    · rw [update_of_ne hs]
      rw [setHandle_of_ne _ fun he => hs he.1] at h
      exact hf σ n h
  dead := fun _ _ hd => hd
  tasks := fun _ _ task h => ⟨task, h, .refl task⟩

theorem later_freeHandles (session : ℕ) :
    s.Later { s with
      handles := update s.handles session fun _ => none
      connected := update s.connected session false
      clearing := s.clearing.erase ⟨session, true⟩ } where
  nextFh := fun _ => le_rfl
  nextSession := le_rfl
  nextTask := le_rfl
  fresh := fun hf σ n h => by
    dsimp only at h ⊢
    by_cases hs : σ = session
    · rw [hs, update_self] at h
      cases h
    · rw [update_of_ne hs] at h
      exact hf σ n h
  dead := fun σ _ hd => by
    by_cases hs : σ = session
    · exact .inl (by rw [hs]; exact update_self _ _ _)
    · refine hd.imp (fun hc => ?_) fun ⟨c, hc, he⟩ => ⟨c, ?_, he⟩
      · exact (update_of_ne hs _ _).trans hc
      · exact (List.mem_erase_of_ne fun h => hs (by rw [← he, h])).mpr hc
  tasks := fun _ _ task h => ⟨task, h, .refl task⟩

/-- **A step moves forward**, unless it ends a lease and not a connection. -/
theorem later_step {l : LockStep} (hl : ∀ session, l ≠ .freeHandles session false)
    (h : s.step l = some s') : s.Later s' := by
  have hsame : ∀ id, id < s.nextTask → ∀ task' ∈ s.tasks id, ∃ task ∈ s.tasks id, task'.Same task :=
    fun _ _ task ht => ⟨task, ht, .refl task⟩
  cases l with
  | connect =>
    cases h
    refine ⟨fun _ => le_rfl, Nat.le_succ _, le_rfl, id, fun session hlt hd => ?_, hsame⟩
    refine hd.imp_left fun hc => ?_
    exact (update_of_ne hlt.ne _ _).trans hc
  | openFile session path =>
    cases h
    exact later_openFile session path
  | lockLookup session fh kind wait =>
    simp only [step] at h
    split at h
    · cases h
      exact .refl s
    · cases h
      refine .of_eq rfl rfl rfl rfl rfl (Nat.le_succ _) fun id hlt task' ht => ?_
      dsimp only at ht
      rw [update_of_ne hlt.ne] at ht
      exact hsame id hlt task' ht
  | lockAttempt id =>
    simp only [step] at h
    split at h
    · cases h
    · next task htask =>
      obtain ⟨-, rfl⟩ := of_guard h
      refine .of_eq rfl rfl rfl rfl rfl le_rfl fun id' hlt task' ht => ?_
      by_cases hid : id' = id
      · subst hid
        refine ⟨task, htask, ?_⟩
        simp only [runAttempt, update_self] at ht
        split at ht
        · cases ht
          exact .refl task
        · cases ht
      · simp only [runAttempt, update_of_ne hid] at ht
        exact hsame id' hlt task' ht
  | unlockLookup session fh =>
    simp only [step] at h
    split at h
    · cases h
      exact .refl s
    · cases h
      exact .of_eq rfl rfl rfl rfl rfl le_rfl hsame
  | unlockRun session fh path =>
    obtain ⟨-, rfl⟩ := of_guard h
    exact .of_eq rfl rfl rfl rfl rfl le_rfl hsame
  | releaseHandle session fh =>
    simp only [step] at h
    split at h
    · cases h
      exact .refl s
    · cases h
      refine ⟨fun _ => le_rfl, le_rfl, le_rfl, fun hf σ n hn => ?_, fun _ _ hd => hd, hsame⟩
      dsimp only at hn
      by_cases he : σ = session ∧ n = fh
      · rw [he.1, he.2, setHandle_self] at hn
        cases hn
      · rw [setHandle_of_ne _ he] at hn
        exact hf σ n hn
  | releaseUnlock session fh path =>
    obtain ⟨-, rfl⟩ := of_guard h
    exact .of_eq rfl rfl rfl rfl rfl le_rfl hsame
  | freeLocks session disconnect =>
    obtain ⟨-, rfl⟩ := of_guard h
    refine ⟨fun _ => le_rfl, le_rfl, le_rfl, id, fun σ _ hd => ?_, hsame⟩
    refine hd.imp_right fun hcut => ?_
    obtain ⟨c, hc, he⟩ := hcut
    exact ⟨c, List.mem_cons_of_mem _ hc, he⟩
  | freeHandles session disconnect =>
    cases disconnect with
    | false => exact absurd rfl (hl session)
    | true =>
      obtain ⟨-, rfl⟩ := of_guard h
      exact later_freeHandles session

theorem Spares.of_eq (hh : s'.handles = s.handles) (hl : s'.locks = s.locks) :
    s.Spares s' session fh :=
  ⟨fun _ h => .inr (by rwa [hh]), fun _ _ h => .inr (by rwa [hl])⟩

theorem spares_runAttempt {id : ℕ} {task : LockTask}
    (ho : ¬ (task.session = session ∧ task.fh = fh)) :
    s.Spares (s.runAttempt id task) session fh := by
  refine ⟨fun _ h => .inr h, fun path kind hm => .inr ?_⟩
  have hkept : (⟨session, fh, kind⟩ : Holder) ∈
      dropHandle (s.locks.holders path) task.session task.fh :=
    LockTable.mem_dropHandle.mpr ⟨hm, fun he => ho ⟨he.1.symm, he.2.symm⟩⟩
  simp only [runAttempt]
  rw [LockTable.holders_attempt]
  by_cases hp : path = task.path
  · subst hp
    rw [if_pos rfl]
    split
    · exact List.mem_append_left _ hkept
    · exact hkept
  · rwa [if_neg hp]

theorem spares_unlock {path : RelPath} {session' fh' : ℕ} (ho : ¬ (session' = session ∧ fh' = fh))
    (hh : s'.handles = s.handles) (hl : s'.locks = s.locks.unlock path session' fh') :
    s.Spares s' session fh := by
  refine ⟨fun _ h => .inr (by rwa [hh]), fun q kind hm => .inr ?_⟩
  rw [hl]
  exact LockTable.mem_holders_unlock.mpr ⟨hm, fun he => ho ⟨he.2.1.symm, he.2.2.symm⟩⟩

/-- **A step spares the handles that it is not about.** -/
theorem spares_step {l : LockStep} (hf : s.Fresh) (hl : ∀ session, l ≠ .freeHandles session false)
    (ho : ¬ s.touches session fh l) (h : s.step l = some s') : s.Spares s' session fh := by
  cases l with
  | connect =>
    cases h
    exact .of_eq rfl rfl
  | openFile session' path =>
    cases h
    refine ⟨fun p hp => .inr ?_, fun _ _ hm => .inr hm⟩
    dsimp only
    rw [setHandle_of_ne, hp]
    rintro ⟨rfl, rfl⟩
    exact lt_irrefl _ (hf _ _ (by rw [hp]; rfl))
  | lockLookup session' fh' kind wait =>
    simp only [step] at h
    split at h <;> cases h <;> exact .of_eq rfl rfl
  | lockAttempt id =>
    simp only [step] at h
    split at h
    · cases h
    · next task htask =>
      obtain ⟨-, rfl⟩ := of_guard h
      exact spares_runAttempt fun he => ho ⟨task, htask, he⟩
  | unlockLookup session' fh' =>
    simp only [step] at h
    split at h <;> cases h <;> exact .of_eq rfl rfl
  | unlockRun session' fh' path =>
    obtain ⟨-, rfl⟩ := of_guard h
    exact spares_unlock ho rfl rfl
  | releaseHandle session' fh' =>
    simp only [step] at h
    split at h
    · cases h
      exact .refl s session fh
    · cases h
      refine ⟨fun p hp => .inr ?_, fun _ _ hm => .inr hm⟩
      exact (setHandle_of_ne _ fun he => ho ⟨he.1.symm, he.2.symm⟩).trans hp
  | releaseUnlock session' fh' path =>
    obtain ⟨-, rfl⟩ := of_guard h
    exact spares_unlock ho rfl rfl
  | freeLocks session' disconnect =>
    obtain ⟨-, rfl⟩ := of_guard h
    refine ⟨fun _ hp => .inr hp, fun p kind hm => ?_⟩
    by_cases hs : session = session'
    · exact .inl (.inr ⟨_, List.mem_cons_self, hs.symm⟩)
    · exact .inr (LockTable.mem_holders_releaseSession.mpr ⟨hm, hs⟩)
  | freeHandles session' disconnect =>
    cases disconnect with
    | false => exact absurd rfl (hl session')
    | true =>
      obtain ⟨-, rfl⟩ := of_guard h
      refine ⟨fun p hp => ?_, fun _ _ hm => .inr hm⟩
      by_cases hs : session = session'
      · exact .inl (.inl (by rw [hs]; exact update_self _ _ _))
      · exact .inr (by dsimp only; rwa [update_of_ne hs])

end LockServer

end AlloyFs
