import AlloyFs.Agent.Locks
import AlloyFs.Lib.Transition
import AlloyFs.Os.RangeLocks

/-!
# Byte-range locks, forwarded as locks on the whole file

A mount forwards the byte-range locks of its processes to the server, which knows locks on whole
files only, one for each handle.  The FUSE mount forwards a lock through the handle of the open
file it came by, and leaves it to the server whether there is a conflict.  The kernel mount has one
handle for a file, keeps the locks of its processes itself, and asks the server for those that it
could set.

A new lock through a handle replaces the one the handle has, and unlocking a range gives up the
lock of the handle.  Locks on other ranges that came by the same handle are not asked after.  And a
handle whose request is refused, or has to wait, has lost the lock it had.

This module models both mounts, for one file and any number of processes, next to sessions of other
machines, and says which calls leave every lock of a process covered.
-/

namespace AlloyFs

open RangeLock LockTable

namespace LockKind

/-- A lock of this kind is at most one of the other. -/
def within (k held : LockKind) : Bool := decide (k = .shared) || decide (held = .exclusive)

/-- Locks of different processes in one range are both shared, or in conflict. -/
def excludes (k k' : LockKind) : Bool := decide (k = .exclusive) || decide (k' = .exclusive)

theorem within_refl (k : LockKind) : k.within k = true := by cases k <;> rfl

end LockKind

/-- How a mount forwards locks. -/
inductive Frontend
  /-- `DsFuse::setlk`: through the handle of the open file -/
  | fuse
  /-- `alloyfs_lock_common` with `op_lock` and `op_unlock`: through the handle of the node -/
  | kernel
deriving DecidableEq

/-- The handle that the kernel mount keeps for the file. -/
structure CachedHandle where
  fh : ℕ
  write : Bool
  /-- not to be evicted -/
  locked : Bool
deriving DecidableEq

/-- A call that waits for the server. -/
structure LockCall where
  task : ℕ
  owner : ℕ
  fh : ℕ
  range : ByteRange
  kind : LockKind
deriving DecidableEq

/-- A lock of a process: by which handle the server granted it, or not yet. -/
abbrev LocalLock := RangeLock LockKind (Option ℕ)

/-- One file of a mount. -/
structure LockMount where
  table : LockTable
  /-- numbers of open files and of handles given so far -/
  next : ℕ
  /-- the processes and the open files they refer to -/
  descriptors : List (ℕ × ℕ)
  cached : Option CachedHandle
  locks : List LocalLock
  calls : List LockCall
  nextTask : ℕ

/-- What other machines do to the table. -/
inductive Elsewhere
  | lock (path : RelPath) (session fh : ℕ) (kind : LockKind) (wait : Bool) (task : ℕ)
  | unlock (path : RelPath) (session fh : ℕ)
  | gone (session : ℕ)

def Elsewhere.session : Elsewhere → ℕ
  | lock _ session _ _ _ _ => session
  | unlock _ session _ => session
  | gone session => session

def Elsewhere.apply (t : LockTable) : Elsewhere → LockTable
  | lock path session fh kind wait task => (t.attempt path session fh kind wait task).2
  | unlock path session fh => t.unlock path session fh
  | gone session => t.releaseSession session

/-- The calls of processes, and what happens around them. -/
inductive LockMountStep
  | openFile (process : ℕ)
  | fork (parent child : ℕ)
  /-- the last two say whether the file can be opened for writing, and for reading -/
  | setlk (process file : ℕ) (range : ByteRange) (kind : LockKind) (wait openWrite openRead : Bool)
  | unlk (process file : ℕ) (range : ByteRange)
  | close (process file : ℕ)
  | wake (task : ℕ)
  | evict
  | elsewhere (e : Elsewhere)

variable {ls : List LocalLock} {l : LockMountStep} {wait openWrite openRead : Bool} {c : LockCall}

namespace LockMount

variable (path : RelPath) (me : ℕ) (s : LockMount)

/-- No lock, no open file. -/
def boot (table : LockTable) (next nextTask : ℕ) : LockMount where
  table := table
  next := next
  descriptors := []
  cached := none
  locks := []
  calls := []
  nextTask := nextTask

/-- The process is not waiting in a call. -/
def idle (process : ℕ) : Bool := s.calls.all fun c => decide (c.owner ≠ process)

/-! ## The FUSE mount -/

def park (process fh : ℕ) (range : ByteRange) (kind : LockKind) : LockMount :=
  { s with calls := ⟨s.nextTask, process, fh, range, kind⟩ :: s.calls, nextTask := s.nextTask + 1 }

/-- `DsFuse::setlk` with `F_RDLCK` or `F_WRLCK`. -/
def fuseSetlk (process fh : ℕ) (range : ByteRange) (kind : LockKind) (wait : Bool) : LockMount :=
  let r := s.table.attempt path me fh kind wait s.nextTask
  let s := { s with table := r.2 }
  match r.1 with
  | .granted => { s with locks := set process range kind (some fh) s.locks }
  | .wouldBlock => s
  | .parked => s.park process fh range kind

/-- `DsFuse::setlk` with `F_UNLCK`. -/
def fuseUnlk (process fh : ℕ) (range : ByteRange) : LockMount :=
  { s with
    table := s.table.unlock path me fh
    locks := clear process range s.locks }

/-- Closing drops the locks of the process, and says nothing of it to the server; the last
reference releases the handle. -/
def fuseClose (process fh : ℕ) : LockMount :=
  let descriptors := s.descriptors.erase (process, fh)
  { s with
    descriptors := descriptors
    locks := drop process s.locks
    table := if descriptors.any fun d => decide (d.2 = fh) then s.table
      else s.table.unlock path me fh }

/-! ## The kernel mount -/

/-- `install_handle`: a new handle takes over, and the old one is released. -/
def install (write : Bool) : LockMount :=
  { s with
    next := s.next + 1
    table := s.cached.elim s.table fun old => s.table.unlock path me old.fh
    cached := some ⟨s.next, write, s.cached.elim false fun old => old.locked⟩
    locks := s.locks.map fun l =>
      if ∃ old ∈ s.cached, l.via = some old.fh then { l with via := some s.next } else l }

/-- The handle that `op_lock` asks with: one for writing if there can be one. -/
def handleFor (openWrite openRead : Bool) : Option (ℕ × LockMount) :=
  match s.cached with
  | some h =>
    if h.write then some (h.fh, s)
    else if openWrite then some (s.next, s.install path me true)
    else some (h.fh, s)
  | none =>
    if openWrite then some (s.next, s.install path me true)
    else if openRead then some (s.next, s.install path me false)
    else none

def markLocked (locked : Bool) : LockMount :=
  { s with cached := s.cached.map ({ · with locked := locked }) }

/-- `alloyfs_lock_common` for a lock: the own list first, then the server, and if that refuses,
the range is cleared. -/
def kernelSetlk (process : ℕ) (range : ByteRange) (kind : LockKind)
    (wait openWrite openRead : Bool) :
    Option LockMount :=
  if conflicts LockKind.excludes process range kind s.locks then
    -- a call that waits for another process of the machine has not begun
    if wait then none else some s
  else
    match s.handleFor path me openWrite openRead with
    | none => some { s with locks := clear process range s.locks }
    | some (fh, s) =>
      let r := s.table.attempt path me fh kind wait s.nextTask
      let s := { s with table := r.2 }
      match r.1 with
      | .granted =>
        some ({ s with locks := set process range kind (some fh) s.locks }.markLocked true)
      | .wouldBlock => some { s with locks := clear process range s.locks }
      | .parked =>
        some ({ s with locks := set process range kind none s.locks }.park process fh
          range kind)

/-- `op_unlock`: without a handle there is nothing to do. -/
def opUnlock : LockMount :=
  match s.cached with
  | none => s
  | some h => { s with table := s.table.unlock path me h.fh }.markLocked false

/-- `alloyfs_lock_common` for an unlock. -/
def kernelUnlk (process : ℕ) (range : ByteRange) : LockMount :=
  { s with locks := clear process range s.locks }.opUnlock path me

/-- Closing unlocks the whole file for the process, if there is any lock on it. -/
def kernelClose (process file : ℕ) : LockMount :=
  let s := { s with descriptors := s.descriptors.erase (process, file) }
  if s.locks = [] then s
  else { s with locks := drop process s.locks }.opUnlock path me

/-! ## Steps -/

/-- A call that waits tries again. -/
def retry (via : Frontend) (c : LockCall) : Option LockMount :=
  let r := s.table.attempt path me c.fh c.kind true c.task
  let s := { s with table := r.2 }
  match r.1 with
  | .granted =>
    let s := { s with
      locks := set c.owner c.range c.kind (some c.fh) s.locks
      calls := s.calls.erase c }
    match via with
    | .fuse => some s
    | .kernel => some (s.markLocked true)
  | .wouldBlock => none
  | .parked => some s

def step (via : Frontend) (s : LockMount) : LockMountStep → Option LockMount
  | .openFile process =>
    some { s with next := s.next + 1, descriptors := (process, s.next) :: s.descriptors }
  | .fork parent child =>
    if (s.descriptors.all fun d => decide (d.1 ≠ child)) && s.locks.all fun l =>
        decide (l.owner ≠ child) then
      some { s with descriptors := s.descriptors ++
        (s.descriptors.filter fun d => decide (d.1 = parent)).map fun d => (child, d.2) }
    else none
  | .setlk process file range kind wait openWrite openRead =>
    if (process, file) ∈ s.descriptors ∧ s.idle process = true then
      match via with
      | .fuse => some (s.fuseSetlk path me process file range kind wait)
      | .kernel => s.kernelSetlk path me process range kind wait openWrite openRead
    else none
  | .unlk process file range =>
    if (process, file) ∈ s.descriptors ∧ s.idle process = true then
      match via with
      | .fuse => some (s.fuseUnlk path me process file range)
      | .kernel => some (s.kernelUnlk path me process range)
    else none
  | .close process file =>
    if (process, file) ∈ s.descriptors ∧ s.idle process = true then
      match via with
      | .fuse => some (s.fuseClose path me process file)
      | .kernel => some (s.kernelClose path me process file)
    else none
  | .wake task =>
    match s.calls.find? fun c => decide (c.task = task) with
    | none => none
    | some c =>
      if (s.table.waiters path).all fun w => decide (¬ (w.session = me ∧ w.task = task)) then
        s.retry path me via c
      else none
  | .evict =>
    match via, s.cached with
    | .kernel, some h =>
      if h.locked then none
      else some { s with table := s.table.unlock path me h.fh, cached := none }
    | _, _ => none
  | .elsewhere e => if e.session = me then none else some { s with table := e.apply s.table }

/-! ## What is asked -/

/-- **The server holds at least what any process holds.** -/
def Covered : Prop :=
  ∀ l ∈ s.locks, l.via ≠ none →
    ∃ h ∈ s.table.holders path, h.session = me ∧ l.kind.within h.kind = true
deriving Decidable

/-- A lock of a process is covered by the handle that it came by. -/
def HeldBy (t : LockTable) (l : LocalLock) : Prop :=
  ∀ fh, l.via = some fh →
    ∃ h ∈ t.holders path, h.session = me ∧ h.fh = fh ∧ l.kind.within h.kind = true

/-- A request through a handle spares the locks that came by it: it is granted and is no less
than those that stay, or there are none. -/
def lockSpares (t : LockTable) (fh : ℕ) (kind : LockKind) (stay refused : List LocalLock) : Prop :=
  if compatible (dropHandle (t.holders path) me fh) kind then
    ∀ l ∈ stay, l.via = some fh → l.kind.within kind = true
  else ∀ l ∈ refused, l.via ≠ some fh
deriving Decidable

/-- **When a call spares the locks of all processes.** -/
def spares (via : Frontend) : LockMountStep → Prop
  | .setlk process file range kind _ openWrite openRead =>
    match via with
    | .fuse => lockSpares path me s.table file kind (clear process range s.locks) s.locks
    | .kernel => conflicts LockKind.excludes process range kind s.locks = false →
        ∀ r ∈ s.handleFor path me openWrite openRead,
          lockSpares path me r.2.table r.1 kind (clear process range r.2.locks)
            (clear process range r.2.locks)
  | .unlk process file range =>
    match via with
    | .fuse => ∀ l ∈ clear process range s.locks, l.via ≠ some file
    | .kernel => ∀ h ∈ s.cached, ∀ l ∈ clear process range s.locks, l.via ≠ some h.fh
  | .close process _ =>
    match via with
    | .fuse => True
    | .kernel => ∀ h ∈ s.cached, ∀ l ∈ drop process s.locks, l.via ≠ some h.fh
  | .wake task => ∀ c ∈ s.calls.find? fun c => decide (c.task = task),
      lockSpares path me s.table c.fh c.kind (clear c.owner c.range s.locks) s.locks
  | _ => True

/-! ## What requests do to the handles of the session -/

section Table

variable {path me} {t : LockTable} {fh : ℕ} {kind : LockKind} {wait : Bool} {task : ℕ}
  {l : LocalLock}

theorem attempt_fst : (t.attempt path me fh kind wait task).1 =
    if compatible (dropHandle (t.holders path) me fh) kind then .granted
    else if wait then .parked else .wouldBlock := by
  rw [attempt]
  by_cases hc : compatible (dropHandle (t.holders path) me fh) kind = true
  · simp only [hc, if_true]
  · cases wait <;> simp [hc]

theorem heldBy_attempt (h : l.via ≠ some fh → HeldBy path me t l)
    (hl : l.via = some fh → compatible (dropHandle (t.holders path) me fh) kind = true ∧
      l.kind.within kind = true) :
    HeldBy path me (t.attempt path me fh kind wait task).2 l := by
  intro fh' hvia
  rw [holders_attempt, if_pos rfl]
  by_cases hfh : fh' = fh
  · subst hfh
    obtain ⟨hc, hk⟩ := hl hvia
    rw [if_pos hc]
    exact ⟨⟨me, fh', kind⟩, List.mem_append_right _ (List.mem_singleton_self _), rfl, rfl, hk⟩
  · have hother : l.via ≠ some fh := by
      rw [hvia]
      simpa using hfh
    obtain ⟨h, hm, hs, hf, hk⟩ := h hother fh' hvia
    have hm' : h ∈ dropHandle (t.holders path) me fh :=
      mem_dropHandle.mpr ⟨hm, fun hboth => hfh (hf ▸ hboth.2)⟩
    refine ⟨h, ?_, hs, hf, hk⟩
    split
    · exact List.mem_append_left _ hm'
    · exact hm'

theorem HeldBy.unlock (h : HeldBy path me t l) (hl : l.via ≠ some fh) :
    HeldBy path me (t.unlock path me fh) l := by
  intro fh' hvia
  obtain ⟨h, hm, hs, hf, hk⟩ := h fh' hvia
  refine ⟨h, mem_holders_unlock.mpr ⟨hm, fun hgone => hl ?_⟩, hs, hf, hk⟩
  rw [hvia, ← hf, hgone.2.2]

theorem HeldBy.elsewhere (h : HeldBy path me t l) {e : Elsewhere} (he : e.session ≠ me) :
    HeldBy path me (e.apply t) l := by
  intro fh hvia
  obtain ⟨h, hm, hs, hf, hk⟩ := h fh hvia
  refine ⟨h, ?_, hs, hf, hk⟩
  cases e with
  | lock q session fh' kind wait task =>
    rw [Elsewhere.apply, holders_attempt]
    have hkept : h ∈ dropHandle (t.holders path) session fh' :=
      mem_dropHandle.mpr ⟨hm, fun hboth => he (hboth.1.symm.trans hs)⟩
    split
    · next hq =>
      rw [← hq]
      split
      · exact List.mem_append_left _ hkept
      · exact hkept
    · exact hm
  | unlock q session fh' =>
    exact mem_holders_unlock.mpr ⟨hm, fun hgone => he (hgone.2.1.symm.trans hs)⟩
  | gone session =>
    exact mem_holders_releaseSession.mpr ⟨hm, fun hgone => he (hgone.symm.trans hs)⟩

theorem heldBy_of_mem_clear {process : ℕ} {range : ByteRange} (hl : l ∈ clear process range ls)
    (h : ∀ l' ∈ ls, l'.via = l.via → HeldBy path me t l') : HeldBy path me t l := by
  intro fh hvia
  obtain ⟨l', hl', -, hk, hv⟩ := of_mem_clear hl
  obtain ⟨x, hx, hs, hf, hw⟩ := h l' hl' hv fh (hv.trans hvia)
  exact ⟨x, hx, hs, hf, hk ▸ hw⟩

/-- After a request that is granted, its handle has the new lock and no other. -/
theorem not_heldBy_attempt (hvia : l.via = some fh)
    (hl : compatible (dropHandle (t.holders path) me fh) kind = true → l.kind.within kind = false) :
    ¬ HeldBy path me (t.attempt path me fh kind wait task).2 l := by
  intro h
  obtain ⟨x, hx, hs, hf, hk⟩ := h fh hvia
  have hno : x ∉ dropHandle (t.holders path) me fh := fun hm =>
    (mem_dropHandle.mp hm).2 ⟨hs, hf⟩
  rw [holders_attempt, if_pos rfl] at hx
  split at hx
  · next hc =>
    rcases List.mem_append.mp hx with hx | hx
    · exact hno hx
    · rw [List.mem_singleton.mp hx, hl hc] at hk
      cases hk
  · exact hno hx

theorem not_heldBy_unlock (hvia : l.via = some fh) : ¬ HeldBy path me (t.unlock path me fh) l := by
  intro h
  obtain ⟨x, hx, hs, hf, -⟩ := h fh hvia
  exact (mem_holders_unlock.mp hx).2 ⟨rfl, hs, hf⟩

end Table

section Spares

variable {path me} {t : LockTable} {fh : ℕ} {kind : LockKind} {wait : Bool} {task : ℕ}
  {stay refused : List LocalLock}

theorem heldBy_clear {process : ℕ} {range : ByteRange}
    (h : ∀ l ∈ ls, l.via ≠ some fh → HeldBy path me t l) :
    ∀ l ∈ clear process range ls, l.via ≠ some fh → HeldBy path me t l :=
  fun _ hl hne => heldBy_of_mem_clear hl fun l' hl' hv => h l' hl' (hv ▸ hne)

theorem lockSpares.attempt (h : lockSpares path me t fh kind stay refused)
    (hstay : ∀ l ∈ stay, l.via ≠ some fh → HeldBy path me t l)
    (hrefused : ∀ l ∈ refused, l.via ≠ some fh → HeldBy path me t l) (wait : Bool) (task : ℕ) :
    ((t.attempt path me fh kind wait task).1 = .granted ∧ ∀ process range,
      ∀ l ∈ stay ++ [⟨process, range, kind, some fh⟩],
        HeldBy path me (t.attempt path me fh kind wait task).2 l) ∨
    (t.attempt path me fh kind wait task).1 = (if wait then .parked else .wouldBlock) ∧
      ∀ l ∈ refused, HeldBy path me (t.attempt path me fh kind wait task).2 l := by
  rw [attempt_fst]
  rw [lockSpares] at h
  by_cases hc : compatible (dropHandle (t.holders path) me fh) kind = true
  · rw [if_pos hc] at h ⊢
    refine .inl ⟨rfl, fun process range l hl => ?_⟩
    rcases List.mem_append.mp hl with hl | hl
    · exact heldBy_attempt (hstay l hl) fun hvia => ⟨hc, h l hl hvia⟩
    · rw [List.mem_singleton.mp hl]
      rintro fh' ⟨⟩
      rw [holders_attempt, if_pos rfl, if_pos hc]
      exact ⟨⟨me, fh, kind⟩, List.mem_append_right _ (List.mem_singleton_self _), rfl, rfl,
        kind.within_refl⟩
  · rw [if_neg hc] at h ⊢
    exact .inr ⟨rfl, fun l hl => heldBy_attempt (hrefused l hl) fun hvia => absurd hvia (h l hl)⟩

theorem attempt_of_not_lockSpares (h : ¬ lockSpares path me t fh kind stay refused) (wait : Bool)
    (task : ℕ) :
    ((t.attempt path me fh kind wait task).1 = .granted ∧
      ∃ l ∈ stay, ¬ HeldBy path me (t.attempt path me fh kind wait task).2 l) ∨
    (t.attempt path me fh kind wait task).1 = (if wait then .parked else .wouldBlock) ∧
      ∃ l ∈ refused, ¬ HeldBy path me (t.attempt path me fh kind wait task).2 l := by
  rw [attempt_fst]
  rw [lockSpares] at h
  by_cases hc : compatible (dropHandle (t.holders path) me fh) kind = true
  · rw [if_pos hc] at h ⊢
    push Not at h
    obtain ⟨l, hl, hvia, hk⟩ := h
    exact .inl ⟨rfl, l, hl, not_heldBy_attempt hvia fun _ => by simpa using hk⟩
  · rw [if_neg hc] at h ⊢
    push Not at h
    obtain ⟨l, hl, hvia⟩ := h
    exact .inr ⟨rfl, l, hl, not_heldBy_attempt hvia fun hc' => absurd hc' hc⟩

end Spares

/-! ## The FUSE mount keeps its locks covered -/

/-- Locks and calls come by open files of their processes, and the locks are covered. -/
structure FuseInv (s : LockMount) : Prop where
  held : ∀ l ∈ s.locks, HeldBy path me s.table l
  opened : ∀ l ∈ s.locks, ∀ fh, l.via = some fh → (l.owner, fh) ∈ s.descriptors
  calls : ∀ c ∈ s.calls, (c.owner, c.fh) ∈ s.descriptors

section Fuse

variable {path me} {s : LockMount} {process fh : ℕ} {range : ByteRange}

theorem fuseInv_boot (table : LockTable) (next nextTask : ℕ) :
    (boot table next nextTask).FuseInv path me where
  held := List.forall_mem_nil _
  opened := List.forall_mem_nil _
  calls := List.forall_mem_nil _

section

variable (hi : s.FuseInv path me)
include hi

theorem opened_clear {l : LocalLock}
    (hl : l ∈ clear process range s.locks) (hvia : l.via = some fh) :
    (l.owner, fh) ∈ s.descriptors := by
  obtain ⟨l', hl', ho, -, hv⟩ := of_mem_clear hl
  exact ho ▸ hi.opened l' hl' fh (hv.trans hvia)

theorem opened_set {kind : LockKind} (hmem : (process, fh) ∈ s.descriptors) :
    ∀ l ∈ set process range kind (some fh) s.locks, ∀ fh', l.via = some fh' →
      (l.owner, fh') ∈ s.descriptors := by
  intro l hl fh' hvia
  rcases mem_set.mp hl with hl | rfl
  · exact opened_clear hi hl hvia
  · cases hvia
    exact hmem

theorem fuseInv_setlk {kind : LockKind} {wait : Bool} (hmem : (process, fh) ∈ s.descriptors)
    (hok : lockSpares path me s.table fh kind (clear process range s.locks) s.locks) :
    (s.fuseSetlk path me process fh range kind wait).FuseInv path me := by
  rcases hok.attempt (heldBy_clear fun l hl _ => hi.held l hl) (fun l hl _ => hi.held l hl) wait
    s.nextTask with ⟨hr, hheld⟩ | ⟨hr, hheld⟩ <;> rw [fuseSetlk, hr]
  · exact ⟨hheld process range, opened_set hi hmem, hi.calls⟩
  · cases wait with
    | false => exact ⟨hheld, hi.opened, hi.calls⟩
    | true => exact ⟨hheld, hi.opened, List.forall_mem_cons.mpr ⟨hmem, hi.calls⟩⟩

/-- The last reference to an open file goes, and with it every lock that came by it. -/
theorem fuseInv_close (hidle : s.idle process = true) :
    (s.fuseClose path me process fh).FuseInv path me := by
  have hkept : ∀ owner fh', owner ≠ process → (owner, fh') ∈ s.descriptors →
      (owner, fh') ∈ s.descriptors.erase (process, fh) := fun owner fh' hne hmem =>
    (List.mem_erase_of_ne fun heq => hne (Prod.mk.inj heq).1).mpr hmem
  have hopened : ∀ l ∈ drop process s.locks, ∀ fh', l.via = some fh' →
      (l.owner, fh') ∈ s.descriptors.erase (process, fh) := by
    intro l hl fh' hvia
    obtain ⟨hl, hne⟩ := mem_drop.mp hl
    exact hkept _ _ hne (hi.opened l hl fh' hvia)
  refine ⟨fun l hl => ?_, hopened, fun c hc => ?_⟩
  · have hheld := hi.held l (mem_drop.mp hl).1
    change HeldBy path me (if _ then _ else _) l
    split
    · exact hheld
    · next hlast =>
      refine hheld.unlock fun hvia => hlast ?_
      exact List.any_eq_true.mpr ⟨_, hopened l hl fh hvia, by simp⟩
  · have hne : c.owner ≠ process := by
      rw [idle, List.all_eq_true] at hidle
      simpa using hidle c hc
    exact hkept _ _ hne (hi.calls c hc)

theorem fuseInv_retry (hmem : c ∈ s.calls) {s' : LockMount}
    (hok : lockSpares path me s.table c.fh c.kind (clear c.owner c.range s.locks) s.locks)
    (h : s.retry path me .fuse c = some s') : s'.FuseInv path me := by
  rcases hok.attempt (heldBy_clear fun l hl _ => hi.held l hl) (fun l hl _ => hi.held l hl) true
    c.task with ⟨hr, hheld⟩ | ⟨hr, hheld⟩ <;> rw [retry, hr] at h <;> cases h
  · exact ⟨hheld c.owner c.range, opened_set hi (hi.calls c hmem),
      fun c' hc' => hi.calls c' (List.mem_of_mem_erase hc')⟩
  · exact ⟨hheld, hi.opened, hi.calls⟩

theorem fuseInv_step {s' : LockMount}
    (hok : s.spares path me .fuse l) (h : s.step path me .fuse l = some s') :
    s'.FuseInv path me := by
  cases l with
  | openFile process =>
    cases h
    exact ⟨hi.held, fun l hl fh hvia => List.mem_cons_of_mem _ (hi.opened l hl fh hvia),
      fun c hc => List.mem_cons_of_mem _ (hi.calls c hc)⟩
  | fork parent child =>
    obtain ⟨-, rfl⟩ := of_guard h
    exact ⟨hi.held, fun l hl fh hvia => List.mem_append_left _ (hi.opened l hl fh hvia),
      fun c hc => List.mem_append_left _ (hi.calls c hc)⟩
  | setlk process file range kind wait openWrite openRead =>
    obtain ⟨hmem, rfl⟩ := of_guard h
    exact fuseInv_setlk hi hmem.1 hok
  | unlk process file range =>
    obtain ⟨-, rfl⟩ := of_guard h
    exact ⟨fun l hl => (heldBy_of_mem_clear hl fun l' hl' _ => hi.held l' hl').unlock
      (hok l hl),
      fun l hl fh hvia => opened_clear hi hl hvia, hi.calls⟩
  | close process file =>
    obtain ⟨hmem, rfl⟩ := of_guard h
    exact fuseInv_close hi hmem.2
  | wake task =>
    simp only [step] at h
    split at h
    · cases h
    · next c hc =>
      split at h
      · exact fuseInv_retry hi (List.mem_of_find?_eq_some hc) (hok c hc) h
      · cases h
  | evict => cases h
  | elsewhere e =>
    obtain ⟨he, rfl⟩ := of_guard_not h
    exact ⟨fun l hl => (hi.held l hl).elsewhere he, hi.opened, hi.calls⟩

end

end Fuse

/-! ## The kernel mount keeps its locks covered -/

/-- What is known of handles: the one that a lock came by is marked. -/
structure Known (s : LockMount) : Prop where
  fresh : ∀ l ∈ s.locks, ∀ fh, l.via = some fh → fh < s.next
  calls : ∀ c ∈ s.calls, c.fh < s.next
  cached : ∀ h ∈ s.cached, h.fh < s.next
  locked : ∀ h ∈ s.cached, ∀ l ∈ s.locks, l.via = some h.fh → h.locked = true

/-- And the locks are covered. -/
structure KernelInv (s : LockMount) : Prop extends s.Known where
  held : ∀ l ∈ s.locks, HeldBy path me s.table l

/-- Before a request through the handle `fh`: the other handles keep what they have. -/
structure Ready (fh : ℕ) (s : LockMount) : Prop extends s.Known where
  held : ∀ l ∈ s.locks, l.via ≠ some fh → HeldBy path me s.table l
  handle : fh < s.next

section Kernel

variable {path me} {s : LockMount} {process : ℕ} {range : ByteRange} {s' : LockMount}

theorem kernelInv_boot (table : LockTable) (next nextTask : ℕ) :
    (boot table next nextTask).KernelInv path me where
  held := List.forall_mem_nil _
  fresh := List.forall_mem_nil _
  calls := List.forall_mem_nil _
  cached h hh := by cases hh
  locked h hh := by cases hh

theorem KernelInv.ready (hi : s.KernelInv path me) {fh : ℕ} (hfh : fh < s.next) :
    s.Ready path me fh :=
  { hi with held := fun l hl _ => hi.held l hl, handle := hfh }

theorem ready_install (hi : s.KernelInv path me) (write : Bool) :
    (s.install path me write).Ready path me s.next := by
  -- a lock of the new mount is one of the old, under its own handle or under the new one
  have hmem : ∀ l ∈ (s.install path me write).locks,
      (∃ l' ∈ s.locks, ∃ old ∈ s.cached, l'.via = some old.fh ∧ l.via = some s.next) ∨
        l ∈ s.locks ∧ ∀ old ∈ s.cached, l.via ≠ some old.fh := by
    intro l hl
    obtain ⟨l', hl', rfl⟩ := List.mem_map.mp hl
    split
    · next h =>
      obtain ⟨old, hold, hvia⟩ := h
      exact .inl ⟨l', hl', old, hold, hvia, rfl⟩
    · next h =>
      push Not at h
      exact .inr ⟨hl', h⟩
  refine ⟨⟨fun l hl fh hvia => ?_, fun c hc => Nat.lt_succ_of_lt (hi.calls c hc), fun h hh => ?_,
    fun h hh l hl hvia => ?_⟩, fun l hl hne => ?_, Nat.lt_succ_self _⟩
  · rcases hmem l hl with ⟨_, _, _, _, _, hnew⟩ | ⟨hl, -⟩
    · cases hnew.symm.trans hvia
      exact Nat.lt_succ_self _
    · exact Nat.lt_succ_of_lt (hi.fresh l hl fh hvia)
  · cases hh
    exact Nat.lt_succ_self _
  · cases hh
    rcases hmem l hl with ⟨l', hl', old, hold, hvia', -⟩ | ⟨hl, -⟩
    · have hlocked := hi.locked old hold l' hl' hvia'
      rw [Option.mem_def] at hold
      simpa [hold] using hlocked
    · exact absurd (hi.fresh l hl _ hvia) (Nat.lt_irrefl _)
  · rcases hmem l hl with ⟨_, _, _, _, _, hvia⟩ | ⟨hl, hother⟩
    · exact absurd hvia hne
    · change HeldBy path me (s.cached.elim s.table fun old => s.table.unlock path me old.fh) l
      cases hc : s.cached with
      | none => exact hi.held l hl
      | some old => exact (hi.held l hl).unlock (hother old hc)

theorem ready_handleFor (hi : s.KernelInv path me) {openWrite openRead : Bool} {fh : ℕ}
    {s₁ : LockMount} (h : s.handleFor path me openWrite openRead = some (fh, s₁)) :
    s₁.Ready path me fh := by
  rw [handleFor] at h
  split at h
  · next old hold =>
    split at h
    · cases h
      exact hi.ready (hi.cached old hold)
    · split at h
      · cases h
        exact ready_install hi true
      · cases h
        exact hi.ready (hi.cached old hold)
  · split at h
    · cases h
      exact ready_install hi true
    · split at h
      · cases h
        exact ready_install hi false
      · cases h

theorem Known.fewer (h : s.Known) {locks : List LocalLock}
    (hls : ∀ l ∈ locks, ∀ fh, l.via = some fh → ∃ l' ∈ s.locks, l'.via = some fh) :
    Known { s with locks := locks } :=
  { h with
    fresh := fun l hl fh hvia => by
      obtain ⟨l', hl', hv⟩ := hls l hl fh hvia
      exact h.fresh l' hl' fh hv
    locked := fun x hx l hl hvia => by
      obtain ⟨l', hl', hv⟩ := hls l hl _ hvia
      exact h.locked x hx l' hl' hv }

theorem via_of_mem_clear :
    ∀ l ∈ clear process range ls, ∀ fh, l.via = some fh → ∃ l' ∈ ls, l'.via = some fh := by
  intro l hl fh hvia
  obtain ⟨l', hl', -, -, hv⟩ := of_mem_clear hl
  exact ⟨l', hl', hv.trans hvia⟩

theorem KernelInv.clear (hi : s.KernelInv path me) :
    KernelInv path me { s with locks := clear process range s.locks } :=
  ⟨hi.fewer via_of_mem_clear, fun _ hl => heldBy_of_mem_clear hl fun l' hl' _ => hi.held l' hl'⟩

theorem kernelInv_granted (hk : s.Known) {fh : ℕ} {kind : LockKind} {table : LockTable}
    {calls : List LockCall} (hfh : fh < s.next) (hcalls : ∀ c ∈ calls, c ∈ s.calls)
    (held : ∀ l ∈ set process range kind (some fh) s.locks, HeldBy path me table l) :
    KernelInv path me (markLocked { s with
      table := table
      locks := set process range kind (some fh) s.locks
      calls := calls } true) := by
  refine ⟨⟨fun l hl fh' hvia => ?_, fun c hc => hk.calls c (hcalls c hc), fun h hh => ?_,
    fun h hh l _ _ => ?_⟩, held⟩
  · rcases mem_set.mp hl with hl | rfl
    · obtain ⟨l', hl', hv⟩ := via_of_mem_clear l hl fh' hvia
      exact hk.fresh l' hl' fh' hv
    · cases hvia
      exact hfh
  · obtain ⟨h', hh', rfl⟩ := Option.map_eq_some_iff.mp hh
    exact hk.cached h' hh'
  · obtain ⟨h', hh', rfl⟩ := Option.map_eq_some_iff.mp hh
    rfl

section

variable (hi : s.KernelInv path me)
include hi

theorem kernelInv_setlk {kind : LockKind}
    (hok : conflicts LockKind.excludes process range kind s.locks = false →
      ∀ r ∈ s.handleFor path me openWrite openRead, lockSpares path me r.2.table r.1 kind
        (clear process range r.2.locks) (clear process range r.2.locks))
    (h : s.kernelSetlk path me process range kind wait openWrite openRead = some s') :
    s'.KernelInv path me := by
  rw [kernelSetlk] at h
  split at h
  · split at h
    · cases h
    · cases h
      exact hi
  · next hno =>
    split at h
    · cases h
      exact hi.clear
    · next fh s₁ hfor =>
      have hr := ready_handleFor hi hfor
      dsimp only at h
      rcases (hok (by simpa using hno) _ hfor).attempt (heldBy_clear hr.held) (heldBy_clear hr.held)
        wait s₁.nextTask with ⟨hfst, hheld⟩ | ⟨hfst, hheld⟩ <;> rw [hfst] at h
      · cases h
        exact kernelInv_granted hr.toKnown hr.handle (fun _ => id) (hheld process range)
      · cases wait with
        | false =>
          cases h
          exact { hr.toKnown.fewer via_of_mem_clear with held := hheld }
        | true =>
          cases h
          have hset : Known { s₁ with locks := set process range kind none s₁.locks } := by
            refine hr.toKnown.fewer fun l hl fh' hvia => ?_
            rcases mem_set.mp hl with hl | rfl
            · exact via_of_mem_clear l hl fh' hvia
            · cases hvia
          refine { hset with
            calls := List.forall_mem_cons.mpr ⟨hr.handle, hr.calls⟩
            held := fun l hl => ?_ }
          rcases mem_set.mp hl with hl | rfl
          · exact hheld l hl
          · exact nofun

/-- The handle gives up its lock, and none of the locks that stay came by it. -/
theorem kernelInv_opUnlock
    (hok : ∀ h ∈ s.cached, ∀ l ∈ s.locks, l.via ≠ some h.fh) :
    (s.opUnlock path me).KernelInv path me := by
  rw [opUnlock]
  split
  · exact hi
  · next h hh =>
    refine ⟨⟨hi.fresh, hi.calls, fun x hx => ?_, fun x hx l hl hvia => ?_⟩,
      fun l hl => (hi.held l hl).unlock (hok h hh l hl)⟩
    · obtain ⟨x', hx', rfl⟩ := Option.map_eq_some_iff.mp hx
      exact hi.cached x' hx'
    · obtain ⟨x', hx', rfl⟩ := Option.map_eq_some_iff.mp hx
      exact absurd hvia (hok x' hx' l hl)

theorem kernelInv_retry (hmem : c ∈ s.calls)
    (hok : lockSpares path me s.table c.fh c.kind (clear c.owner c.range s.locks) s.locks)
    (h : s.retry path me .kernel c = some s') : s'.KernelInv path me := by
  rcases hok.attempt (heldBy_clear fun l hl _ => hi.held l hl) (fun l hl _ => hi.held l hl) true
    c.task with ⟨hr, hheld⟩ | ⟨hr, hheld⟩ <;> rw [retry, hr] at h <;> cases h
  · exact kernelInv_granted hi.toKnown (hi.calls c hmem) (fun _ => List.mem_of_mem_erase)
      (hheld c.owner c.range)
  · exact { hi with held := hheld }

theorem kernelInv_step (hok : s.spares path me .kernel l) (h : s.step path me .kernel l = some s') :
    s'.KernelInv path me := by
  cases l with
  | openFile process =>
    cases h
    exact { hi with
      fresh := fun l hl fh hvia => Nat.lt_succ_of_lt (hi.fresh l hl fh hvia)
      calls := fun c hc => Nat.lt_succ_of_lt (hi.calls c hc)
      cached := fun h hh => Nat.lt_succ_of_lt (hi.cached h hh) }
  | fork parent child =>
    obtain ⟨-, rfl⟩ := of_guard h
    exact { hi with }
  | setlk process file range kind wait openWrite openRead =>
    simp only [step] at h
    split at h
    · exact kernelInv_setlk hi hok h
    · cases h
  | unlk process file range =>
    obtain ⟨-, rfl⟩ := of_guard h
    exact kernelInv_opUnlock hi.clear hok
  | close process file =>
    obtain ⟨-, rfl⟩ := of_guard h
    rw [kernelClose]
    have hdrop : ∀ {l : LocalLock}, l ∈ drop process s.locks → l ∈ s.locks :=
      fun hl => (mem_drop.mp hl).1
    split
    · exact { hi with }
    · exact kernelInv_opUnlock { hi.fewer fun l hl _ hvia => ⟨l, hdrop hl, hvia⟩ with
        held := fun l hl => hi.held l (hdrop hl) } hok
  | wake task =>
    simp only [step] at h
    split at h
    · cases h
    · next c hc =>
      split at h
      · exact kernelInv_retry hi (List.mem_of_find?_eq_some hc) (hok c hc) h
      · cases h
  | evict =>
    simp only [step] at h
    split at h
    · next _ _ x _ hx =>
      obtain ⟨hfree, rfl⟩ := of_guard_not h
      refine ⟨⟨hi.fresh, hi.calls, nofun, nofun⟩, fun l hl => (hi.held l hl).unlock fun hvia => ?_⟩
      exact hfree (hi.locked x hx l hl hvia)
    · cases h
  | elsewhere e =>
    obtain ⟨he, rfl⟩ := of_guard_not h
    exact { hi with held := fun l hl => (hi.held l hl).elsewhere he }

end

end Kernel

/-! ## Other calls expose a lock -/

section Exposed

variable {path me} {s s' : LockMount} {process file : ℕ} {range : ByteRange} {kind : LockKind}

/-- Some lock of a process is not covered by the handle it came by. -/
def Exposed (path : RelPath) (me : ℕ) (s : LockMount) : Prop :=
    ∃ l ∈ s.locks, ¬ HeldBy path me s.table l

theorem exposed_fuseSetlk {wait : Bool}
    (hno : ¬ lockSpares path me s.table file kind (clear process range s.locks) s.locks) :
    (s.fuseSetlk path me process file range kind wait).Exposed path me := by
  rcases attempt_of_not_lockSpares hno wait s.nextTask with ⟨hr, l, hl, hbare⟩ | ⟨hr, hbare⟩ <;>
    rw [fuseSetlk, hr]
  · exact ⟨l, mem_set.mpr (.inl hl), hbare⟩
  · cases wait <;> exact hbare

theorem exposed_kernelSetlk {r : ℕ × LockMount}
    (hconf : conflicts LockKind.excludes process range kind s.locks = false)
    (hr : s.handleFor path me openWrite openRead = some r)
    (hno : ¬ lockSpares path me r.2.table r.1 kind (clear process range r.2.locks)
      (clear process range r.2.locks))
    (h : s.kernelSetlk path me process range kind wait openWrite openRead = some s') :
    s'.Exposed path me := by
  obtain ⟨fh, s₁⟩ := r
  rw [kernelSetlk, hconf, if_neg Bool.false_ne_true, hr] at h
  dsimp only at h hno
  rcases attempt_of_not_lockSpares hno wait s₁.nextTask with ⟨hfst, l, hl, hbare⟩ |
    ⟨hfst, l, hl, hbare⟩ <;> rw [hfst] at h
  · cases h
    exact ⟨l, mem_set.mpr (.inl hl), hbare⟩
  · cases wait with
    | false =>
      cases h
      exact ⟨l, hl, hbare⟩
    | true =>
      cases h
      exact ⟨l, mem_set.mpr (.inl hl), hbare⟩

theorem exposed_retry {via : Frontend}
    (hno : ¬ lockSpares path me s.table c.fh c.kind (clear c.owner c.range s.locks) s.locks)
    (h : s.retry path me via c = some s') : s'.Exposed path me := by
  rcases attempt_of_not_lockSpares hno true c.task with ⟨hr, l, hl, hbare⟩ | ⟨hr, hbare⟩ <;>
    rw [retry, hr] at h
  · cases via <;> cases h <;> exact ⟨l, mem_set.mpr (.inl hl), hbare⟩
  · cases h
    exact hbare

theorem exposed_opUnlock {h : CachedHandle} (hh : s.cached = some h) {l : LocalLock}
    (hl : l ∈ s.locks)
    (hvia : l.via = some h.fh) : (s.opUnlock path me).Exposed path me := by
  rw [opUnlock, hh]
  exact ⟨l, hl, not_heldBy_unlock hvia⟩

/-- **A call outside the condition exposes a lock.** -/
theorem exposed_of_not_spares {via : Frontend} (hno : ¬ s.spares path me via l)
    (h : s.step path me via l = some s') : s'.Exposed path me := by
  cases l with
  | setlk process file range kind wait openWrite openRead =>
    simp only [step] at h
    split at h
    · cases via with
      | fuse =>
        cases h
        exact exposed_fuseSetlk hno
      | kernel =>
        simp only [spares, not_forall] at hno
        obtain ⟨hconf, r, hr, hno⟩ := hno
        exact exposed_kernelSetlk hconf hr hno h
    · cases h
  | unlk process file range =>
    simp only [step] at h
    split at h
    · cases via with
      | fuse =>
        cases h
        simp only [spares, not_forall, not_not] at hno
        obtain ⟨l, hl, hvia⟩ := hno
        exact ⟨l, hl, not_heldBy_unlock hvia⟩
      | kernel =>
        cases h
        simp only [spares, not_forall, not_not] at hno
        obtain ⟨h, hh, l, hl, hvia⟩ := hno
        exact exposed_opUnlock hh hl hvia
    · cases h
  | close process file =>
    simp only [step] at h
    split at h
    · cases via with
      | fuse => exact absurd trivial hno
      | kernel =>
        cases h
        simp only [spares, not_forall, not_not] at hno
        obtain ⟨h, hh, l, hl, hvia⟩ := hno
        rw [kernelClose]
        split
        · next hnil =>
          have hmem := (mem_drop.mp hl).1
          rw [hnil] at hmem
          cases hmem
        · exact exposed_opUnlock hh hl hvia
    · cases h
  | wake task =>
    simp only [spares, not_forall] at hno
    obtain ⟨c, hc, hno⟩ := hno
    rw [Option.mem_def] at hc
    simp only [step, hc] at h
    split at h
    · exact exposed_retry hno h
    · cases h
  | openFile process => exact absurd trivial hno
  | fork parent child => exact absurd trivial hno
  | evict => exact absurd trivial hno
  | elsewhere e => exact absurd trivial hno

end Exposed

/-! ## Whole runs -/

theorem covered_of_held {path : RelPath} {me : ℕ} {s : LockMount}
    (h : ∀ l ∈ s.locks, HeldBy path me s.table l) : s.Covered path me := by
  intro l hl hvia
  obtain ⟨fh, hfh⟩ := Option.ne_none_iff_exists'.mp hvia
  obtain ⟨x, hx, hs, -, hk⟩ := h l hl fh hfh
  exact ⟨x, hx, hs, hk⟩

/-- **The server never holds less than a process**, in every run of either mount whose calls spare
the locks that came by the handle they use; and a call that does not leaves one that its handle
does not cover. -/
theorem covered_of_spares {path : RelPath} {me : ℕ} {via : Frontend} {table : LockTable}
    {next nextTask : ℕ} {s : LockMount}
    (h : Reaches (step path me via) (fun s l => s.spares path me via l)
      (boot table next nextTask) s) :
    s.Covered path me ∧
      ∀ l s', ¬ s.spares path me via l → s.step path me via l = some s' → s'.Exposed path me := by
  refine ⟨covered_of_held ?_, fun l s' => exposed_of_not_spares⟩
  cases via with
  | fuse =>
    exact (h.invariant (FuseInv path me) (fuseInv_boot table next nextTask)
      fun _ _ _ hi hok hs => fuseInv_step hi hok hs).held
  | kernel =>
    exact (h.invariant (KernelInv path me) (kernelInv_boot table next nextTask)
      fun _ _ _ hi hok hs => kernelInv_step hi hok hs).held

/-! ## Small runs -/

instance (via : Frontend) (l : LockMountStep) : Decidable (s.spares path me via l) :=
  match via, l with
  | .fuse, .setlk _ _ _ _ _ _ _ => inferInstanceAs (Decidable (lockSpares _ _ _ _ _ _ _))
  | .kernel, .setlk _ _ _ _ _ _ _ => inferInstanceAs (Decidable (_ → ∀ r ∈ handleFor _ _ _ _ _, _))
  | .fuse, .unlk _ _ _ => inferInstanceAs (Decidable (∀ l ∈ clear _ _ _, _))
  | .kernel, .unlk _ _ _ => inferInstanceAs (Decidable (∀ h ∈ s.cached, _))
  | .fuse, .close _ _ => inferInstanceAs (Decidable True)
  | .kernel, .close _ _ => inferInstanceAs (Decidable (∀ h ∈ s.cached, _))
  | _, .wake _ => inferInstanceAs (Decidable (∀ c ∈ s.calls.find? _, _))
  | _, .openFile _ => inferInstanceAs (Decidable True)
  | _, .fork _ _ => inferInstanceAs (Decidable True)
  | _, .evict => inferInstanceAs (Decidable True)
  | _, .elsewhere _ => inferInstanceAs (Decidable True)

/-- The locks of the processes, and the kinds that the server has for the mount. -/
def outcome (s : LockMount) : List (ℕ × ℕ × LockKind) × List (ℕ × LockKind) :=
  (s.locks.map fun l => (l.owner, l.range.first, l.kind),
    (s.table.holders ⟨['a']⟩).map fun h => (h.session, h.kind))

/-- The first ten bytes. -/
def lower : ByteRange :=
  ⟨0, 9, by decide⟩

/-- Ten bytes further on. -/
def upper : ByteRange :=
  ⟨20, 29, by decide⟩

/-- Two processes lock and unlock one range after the other, while another machine has the file:
the first has to wait for it. -/
theorem covered_inTurns :
    (∃ s : LockMount, s.Covered ⟨['a']⟩ 1 ∧
      s.outcome = ([(2, 20, .exclusive)], [(1, .exclusive)])) ∧
    ∃ s : LockMount, s.Covered ⟨['a']⟩ 1 ∧
      s.outcome = ([(1, 0, .shared), (2, 20, .exclusive)], [(1, .exclusive)]) := by
  constructor
  · exact exists_of_run
      [LockMountStep.elsewhere (.lock ⟨['a']⟩ 2 1 .exclusive false 0), .openFile 1, .openFile 2,
        .setlk 1 1 lower .exclusive true true true,
        .elsewhere (.unlock ⟨['a']⟩ 2 1), .wake 0, .unlk 1 1 lower,
        .setlk 2 2 upper .exclusive false true true, .close 1 1]
      (show Allowed (step _ 1 .fuse) (fun s l => s.spares _ 1 .fuse l) (boot .empty 1 0) _ by
        decide +kernel) (fun _ hs => (covered_of_spares hs).1) (by decide +kernel)
  · exact exists_of_run
      [LockMountStep.elsewhere (.lock ⟨['a']⟩ 2 1 .exclusive false 0), .openFile 1, .openFile 2,
        .setlk 1 1 lower .shared true true true,
        .elsewhere (.unlock ⟨['a']⟩ 2 1), .wake 0,
        .setlk 2 2 upper .exclusive false true true]
      (show Allowed (step _ 1 .kernel) (fun s l => s.spares _ 1 .kernel l) (boot .empty 1 0) _ by
        decide +kernel) (fun _ hs => (covered_of_spares hs).1) (by decide +kernel)

/-- Through one open file, a process locks two ranges and unlocks one of them.  And on the kernel
mount, a process that has no lock closes the file that another one has locked.  Both times a lock
stays that the server has given up. -/
theorem uncovered_after_unlock :
    (∃ s, Reaches (step ⟨['a']⟩ 1 .fuse) (fun _ _ => True) (boot .empty 1 0) s ∧
      s.outcome = ([(1, 20, .exclusive)], []) ∧ ¬ s.Covered ⟨['a']⟩ 1) ∧
    ∃ s, Reaches (step ⟨['a']⟩ 1 .kernel) (fun _ _ => True) (boot .empty 1 0) s ∧
      s.outcome = ([(1, 0, .exclusive)], []) ∧ ¬ s.Covered ⟨['a']⟩ 1 := by
  constructor
  · exact exists_of_run
      [.openFile 1, .setlk 1 1 lower .exclusive false true true,
        .setlk 1 1 upper .exclusive false true true, .unlk 1 1 lower]
      (allowed_true _ _ _) (fun _ h => h) (by decide +kernel)
  · exact exists_of_run
      [.openFile 1, .openFile 2, .setlk 1 1 lower .exclusive false true true, .close 2 2]
      (allowed_true _ _ _) (fun _ h => h) (by decide +kernel)

end LockMount

end AlloyFs
