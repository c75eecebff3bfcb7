import AlloyFs.Proto.Messages
import Mathlib.Logic.Function.Basic

/-!
# The lock table of an export

Whole-file advisory locks shared by every session of an export: any number of
shared holders, or one exclusive holder.  A request that waits parks a `Waiter` in
the queue of its path; a release wakes the waiters at the front of the queue that
have become compatible, and a woken request tries again from the start.

A waiter's wake-up channel is resolved by sending on it or by dropping it, and both
take the waiter out of its queue.  So a parked request is runnable exactly when no
waiter of its own is queued, and the table needs no record of sent wake-ups.

The critical sections of `lock`, `unlock` and `release_session` are functions on
the table, since each runs under the table's mutex.
-/

namespace AlloyFs

open Function

/-- A lock held: by a handle of a session. -/
structure Holder where
  session : ℕ
  fh : ℕ
  kind : LockKind
deriving DecidableEq

/-- A request parked behind a path; `task` identifies whom its channel wakes. -/
structure Waiter where
  session : ℕ
  kind : LockKind
  task : ℕ
deriving DecidableEq

/-- The holders and the queue of one path. -/
structure Entry where
  holders : List Holder
  waiters : List Waiter
deriving DecidableEq

/-- A lock of this kind can join these holders. -/
def compatible (holders : List Holder) : LockKind → Bool
  | .shared => holders.all fun h => decide (h.kind = .shared)
  | .exclusive => holders.isEmpty

/-- Take waiters off the front while they are compatible; an exclusive one goes
alone. -/
def wakeWaiters (holders : List Holder) : List Waiter → List Waiter
  | [] => []
  | w :: ws =>
    if compatible holders w.kind then
      match w.kind with
      | .exclusive => ws
      | .shared => wakeWaiters holders ws
    else w :: ws

/-- The holders other than this handle. -/
def dropHandle (holders : List Holder) (session fh : ℕ) : List Holder :=
  holders.filter fun h => !(decide (h.session = session) && decide (h.fh = fh))

/-- How one pass of the loop of `lock` ends. -/
inductive Attempt
  | granted
  | wouldBlock
  | parked
deriving DecidableEq

/-- The entries by path. -/
abbrev LockTable := RelPath → Option Entry

namespace LockTable

/-- No entries. -/
def empty : LockTable := fun _ => none

def entryOf (t : LockTable) (p : RelPath) : Entry := (t p).getD ⟨[], []⟩

/-- Who holds a lock on `p`. -/
def holders (t : LockTable) (p : RelPath) : List Holder := (t.entryOf p).holders

/-- Who waits for `p`. -/
def waiters (t : LockTable) (p : RelPath) : List Waiter := (t.entryOf p).waiters

/-- An entry with neither holders nor waiters is dropped. -/
def keep (e : Entry) : Option Entry :=
  if e.holders.isEmpty && e.waiters.isEmpty then none else some e

/-- One pass of the loop of `lock`: let go of this handle's previous hold, then take
the lock, give up or park. -/
def attempt (t : LockTable) (p : RelPath) (session fh : ℕ) (kind : LockKind) (wait : Bool)
    (task : ℕ) : Attempt × LockTable :=
  let others := dropHandle (t.holders p) session fh
  let ws := t.waiters p
  if compatible others kind then
    (.granted, update t p (some ⟨others ++ [⟨session, fh, kind⟩], ws⟩))
  else if !wait then (.wouldBlock, update t p (some ⟨others, ws⟩))
  else (.parked, update t p (some ⟨others, ws ++ [⟨session, kind, task⟩]⟩))

def unlock (t : LockTable) (p : RelPath) (session fh : ℕ) : LockTable :=
  match t p with
  | none => t
  | some e =>
    let others := dropHandle e.holders session fh
    update t p (keep ⟨others, wakeWaiters others e.waiters⟩)

/-- Drop everything a session holds or waits for. -/
def releaseSession (t : LockTable) (session : ℕ) : LockTable := fun p =>
  match t p with
  | none => none
  | some e =>
    let others := e.holders.filter fun h => decide (h.session ≠ session)
    let ws := e.waiters.filter fun w => decide (w.session ≠ session)
    keep ⟨others, wakeWaiters others ws⟩

/-! ## Who holds what -/

variable {t : LockTable} {p q : RelPath} {session fh : ℕ} {h : Holder}

theorem mem_dropHandle {hs : List Holder} :
    h ∈ dropHandle hs session fh ↔ h ∈ hs ∧ ¬ (h.session = session ∧ h.fh = fh) := by
  rw [dropHandle, List.mem_filter]
  refine and_congr_right fun _ => ?_
  simp only [Bool.not_eq_true', Bool.and_eq_false_iff, decide_eq_false_iff_not]
  exact not_and_or.symm

theorem holders_keep (e : Entry) : ((keep e).getD ⟨[], []⟩).holders = e.holders := by
  unfold keep
  split
  · next he =>
    simp only [Bool.and_eq_true, List.isEmpty_iff] at he
    simp [he.1]
  · rfl

theorem holders_update_of_ne (e : Option Entry) (hne : q ≠ p) :
    LockTable.holders (update t p e) q = t.holders q := by
  simp only [holders, entryOf, update_of_ne hne]

theorem holders_update_self (e : Option Entry) :
    LockTable.holders (update t p e) p = (e.getD ⟨[], []⟩).holders := by
  simp only [holders, entryOf, update_self]

theorem holders_attempt (kind : LockKind) (wait : Bool) (task : ℕ) :
    (t.attempt p session fh kind wait task).2.holders q =
      if q = p then
        if compatible (dropHandle (t.holders p) session fh) kind then
          dropHandle (t.holders p) session fh ++ [⟨session, fh, kind⟩]
        else dropHandle (t.holders p) session fh
      else t.holders q := by
  have hself : ∀ e : Option Entry, q = p →
      LockTable.holders (update t p e) q = (e.getD ⟨[], []⟩).holders := by
    rintro e rfl
    exact holders_update_self e
  by_cases hq : q = p
  · rw [if_pos hq]
    by_cases hc : compatible (dropHandle (t.holders p) session fh) kind = true
    · simp only [attempt, hc, if_true, hself _ hq, Option.getD_some]
    · cases wait <;> simp [attempt, hc, hself _ hq]
  · rw [if_neg hq]
    by_cases hc : compatible (dropHandle (t.holders p) session fh) kind = true
    · simp only [attempt, hc, if_true, holders_update_of_ne _ hq]
    · cases wait <;> simp [attempt, hc, holders_update_of_ne _ hq]

/-- After a pass of `lock` each holder held before, or is the handle that asked. -/
theorem mem_holders_attempt {kind : LockKind} {wait : Bool} {task : ℕ}
    (hm : h ∈ (t.attempt p session fh kind wait task).2.holders q) :
    h ∈ t.holders q ∨
      (q = p ∧ h = ⟨session, fh, kind⟩ ∧
        compatible (dropHandle (t.holders p) session fh) kind = true) := by
  rw [holders_attempt] at hm
  by_cases hq : q = p
  · subst hq
    rw [if_pos rfl] at hm
    by_cases hc : compatible (dropHandle (t.holders q) session fh) kind = true
    · rw [if_pos hc] at hm
      rcases List.mem_append.mp hm with hm | hm
      · exact .inl (mem_dropHandle.mp hm).1
      · exact .inr ⟨rfl, List.mem_singleton.mp hm, hc⟩
    · rw [if_neg hc] at hm
      exact .inl (mem_dropHandle.mp hm).1
  · rw [if_neg hq] at hm
    exact .inl hm

theorem mem_holders_unlock :
    h ∈ (t.unlock p session fh).holders q ↔
      h ∈ t.holders q ∧ ¬ (q = p ∧ h.session = session ∧ h.fh = fh) := by
  unfold unlock
  cases hp : t p with
  | none =>
    have hnil : t.holders p = [] := by simp [holders, entryOf, hp]
    constructor
    · intro hm
      refine ⟨hm, ?_⟩
      rintro ⟨rfl, -⟩
      rw [hnil] at hm
      cases hm
    · exact fun hm => hm.1
  | some e =>
    by_cases hq : q = p
    · subst hq
      have he : t.holders q = e.holders := by simp [holders, entryOf, hp]
      simp only [holders_update_self, holders_keep, mem_dropHandle, he, true_and]
    · simp only [holders_update_of_ne _ hq, hq, false_and, not_false_iff, and_true]

theorem mem_holders_releaseSession :
    h ∈ (t.releaseSession session).holders q ↔ h ∈ t.holders q ∧ h.session ≠ session := by
  cases hq : t q with
  | none => simp [holders, entryOf, releaseSession, hq]
  | some e =>
    have he : (t.releaseSession session).holders q =
        e.holders.filter fun h => decide (h.session ≠ session) := by
      simp only [holders, entryOf, releaseSession, hq, holders_keep]
    have he' : t.holders q = e.holders := by simp [holders, entryOf, hq]
    rw [he, he', List.mem_filter, decide_eq_true_iff]

end LockTable
end AlloyFs
