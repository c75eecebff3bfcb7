import AlloyFs.Client.Handles

/-!
# Requests that carry handle numbers, interleaved with reconnects

A request on an open handle is made in several steps: the task loads the number
stored in the handle's entry, takes the current connection, and sends.  The cache
walker's fetch opens a file on one connection and then reads and releases it, each
on whatever connection is current at that step.  Meanwhile the supervisor replaces
a lost connection: it opens every entry again on the new one, storing the new
numbers, and then swaps the connection in.

Numbers are meaningful only in the session that issued them, and each session
starts again at one.  `Client.SentOk` says that every number sent on a connection
was issued there, for the operation's own file.  It holds in every run that meets
`Client.sessionOk`: no swap between loading a number and taking a connection, none
between opening a file and registering it, the handle's own entry still there when
it is loaded, and every entry re-opened when the new connection is swapped in.

A session's numbers are kept here after their release: a request that was prepared
before may still carry one, and it still means the same file.
-/

namespace AlloyFs

open Function

/-- A connection: whether it is up, and the numbers its session has issued. -/
structure Conn where
  up : Bool
  session : Session

/-- Its session opens a path. -/
def Conn.insertHandle (c : Conn) (path : RelPath) : Conn :=
  { c with session := c.session.insertHandle path }

/-- The operations that send a handle number. -/
inductive HandleOp
  | read
  | write
  | lock
  | unlock
  | flush
  | release
  /-- the walker's background fetch: reads, then a release -/
  | fetch
deriving DecidableEq

/-- A request with a handle number, on the connection it went out on; `file` is the
file of the operation that sent it. -/
structure SentRequest where
  conn : ℕ
  op : HandleOp
  fh : ℕ
  file : RelPath
deriving DecidableEq

/-- Where a task stands.  `stamp` is the number of swaps seen when the handle number
was loaded, or when the connection of an `Open` was taken. -/
inductive ClientTask
  /-- about to load the number of handle `fh` -/
  | started (op : HandleOp) (fh : ℕ) (file : RelPath)
  /-- a release about to remove its entry -/
  | removing (fh : ℕ) (file : RelPath) (num stamp : ℕ)
  /-- about to take a connection -/
  | loaded (op : HandleOp) (file : RelPath) (num stamp : ℕ)
  /-- about to send -/
  | taken (op : HandleOp) (file : RelPath) (num stamp conn : ℕ)
  /-- about to send an `Open` -/
  | opening (path : RelPath) (flags : OpenFlags) (fetch : Bool) (stamp conn : ℕ)
  /-- about to register what an `Open` or `Create` returned -/
  | opened (path : RelPath) (flags : OpenFlags) (num stamp conn : ℕ)
deriving DecidableEq

/-- A mount, its connections past and present, and the tasks under way. -/
structure Client where
  conns : ℕ → Conn
  nextConn : ℕ
  cur : ℕ
  /-- the number of swaps so far -/
  epoch : ℕ
  /-- the connection the supervisor is setting up -/
  sup : Option ℕ
  openFiles : AList fun _ : ℕ => OpenState
  live : List (ℕ × RelPath)
  tasks : ℕ → Option ClientTask
  sent : List SentRequest

/-- One atomic step of a task, of the supervisor or of the network. -/
inductive ClientStep
  | start (id : ℕ) (op : HandleOp) (fh : ℕ) (file : RelPath)
  | load (id : ℕ)
  | remove (id : ℕ)
  | take (id : ℕ)
  /-- `last`: the task has nothing more to send -/
  | send (id : ℕ) (last : Bool)
  | openTake (id : ℕ) (path : RelPath) (flags : OpenFlags) (fetch : Bool)
  | openAnswer (id : ℕ) (granted : Bool)
  | register (id : ℕ)
  | lose (conn : ℕ)
  | dial
  | abandon
  | reopen (fh : ℕ) (granted replay : Bool)
  | swap

namespace Client

variable {s s' : Client} {id : ℕ}

def init : Client where
  conns := fun _ => ⟨true, .fresh⟩
  nextConn := 1
  cur := 0
  epoch := 0
  sup := none
  openFiles := ∅
  live := []
  tasks := fun _ => none
  sent := []

/-- The path a number stands for on a connection. -/
def issued (s : Client) (conn num : ℕ) : Option RelPath := (s.conns conn).session.opens.lookup num

/-- The connection is up. -/
def isUp (s : Client) (conn : ℕ) : Prop := (s.conns conn).up = true
deriving Decidable

def setTask (s : Client) (id : ℕ) (t : Option ClientTask) : Client :=
  { s with tasks := update s.tasks id t }

/-- The session of a connection opens a path. -/
def issue (s : Client) (conn : ℕ) (path : RelPath) : Client :=
  { s with conns := update s.conns conn ((s.conns conn).insertHandle path) }

/-- The number stored for a handle, or its own if it has no entry. -/
def serverFh (s : Client) (fh : ℕ) : ℕ :=
  match s.openFiles.lookup fh with
  | some state => state.serverFh
  | none => fh

/-- The request a task sends: a fetch ends with a release. -/
def requestOf (op : HandleOp) (last : Bool) : HandleOp :=
  match op with
  | .fetch => if last then .release else .read
  | op => op

def step (s : Client) : ClientStep → Option Client
  | .start id op fh file =>
    if s.tasks id = none ∧ (fh, file) ∈ s.live ∧ op ≠ .fetch then
      some { s.setTask id (some (.started op fh file)) with
        live := if op = .release then s.live.erase (fh, file) else s.live }
    else none
  | .load id =>
    match s.tasks id with
    | some (.started op fh file) =>
      if op = .release then
        some (s.setTask id (some (.removing fh file (s.serverFh fh) s.epoch)))
      else some (s.setTask id (some (.loaded op file (s.serverFh fh) s.epoch)))
    | _ => none
  | .remove id =>
    match s.tasks id with
    | some (.removing fh file num stamp) =>
      some { s.setTask id (some (.loaded .release file num stamp)) with
        openFiles := s.openFiles.erase fh }
    | _ => none
  | .take id =>
    match s.tasks id with
    | some (.loaded op file num stamp) =>
      some (s.setTask id (some (.taken op file num stamp s.cur)))
    | _ => none
  | .send id last =>
    match s.tasks id with
    | some (.taken op file num stamp conn) =>
      let next := if last then none else some (.loaded op file num stamp)
      -- a request on a closed connection fails without being sent
      some { s.setTask id next with
        sent := if s.isUp conn then ⟨conn, requestOf op last, num, file⟩ :: s.sent else s.sent }
    | _ => none
  | .openTake id path flags fetch =>
    if s.tasks id = none then some (s.setTask id (some (.opening path flags fetch s.epoch s.cur)))
    else none
  | .openAnswer id granted =>
    match s.tasks id with
    | some (.opening path flags fetch stamp conn) =>
      if granted then
        if s.isUp conn then
          let num := (s.conns conn).session.nextFh
          some ((s.issue conn path).setTask id (some
            (if fetch then .loaded .fetch path num stamp
            else .opened path flags num stamp conn)))
        else none
      else some (s.setTask id none)
    | _ => none
  | .register id =>
    match s.tasks id with
    | some (.opened path flags num _ _) =>
      some { s.setTask id none with
        openFiles := s.openFiles.insert num ⟨path, flags, num, none⟩
        live := (num, path) :: s.live }
    | _ => none
  | .lose conn =>
    if conn < s.nextConn then
      some { s with conns := update s.conns conn ⟨false, (s.conns conn).session⟩ }
    else none
  | .dial =>
    if s.sup = none ∧ ¬ s.isUp s.cur then
      some { s with sup := some s.nextConn, nextConn := s.nextConn + 1 }
    else none
  | .abandon => some { s with sup := none }
  | .reopen fh granted replay =>
    match s.sup, s.openFiles.lookup fh with
    | some conn, some state =>
      if granted then
        if s.isUp conn then
          let num := (s.conns conn).session.nextFh
          some { s.issue conn state.path with
            openFiles := s.openFiles.insert fh { state with serverFh := num }
            sent := if replay then ⟨conn, .lock, num, state.path⟩ :: s.sent else s.sent }
        else none
      else some s
    | _, _ => none
  | .swap =>
    match s.sup with
    | some conn => some { s with cur := conn, epoch := s.epoch + 1, sup := none }
    | none => none

/-- **Every request sent on a connection carries a number that this connection's own
session issued for the operation's file.** -/
def SentOk (s : Client) : Prop := ∀ r ∈ s.sent, s.issued r.conn r.fh = some r.file

/-- A task about to load a number finds its handle's own entry. -/
def EntryKept (s : Client) : Option ClientTask → Prop
  | some (.started _ fh file) => (s.openFiles.lookup fh).map OpenState.path = some file
  | _ => True

/-- No swap since the task loaded its number, or since it took the connection it
opened a file on. -/
def UpToDate (s : Client) : Option ClientTask → Prop
  | some (.loaded _ _ _ stamp) => stamp = s.epoch
  | some (.opened _ _ _ stamp _) => stamp = s.epoch
  | _ => True

/-- The condition on a step, in the state before it. -/
def sessionOk (s : Client) : ClientStep → Prop
  | .load id => s.EntryKept (s.tasks id)
  | .take id => s.UpToDate (s.tasks id)
  | .register id => s.UpToDate (s.tasks id)
  | .swap =>
    -- every entry was opened again on the new connection
    ∀ conn ∈ s.sup, ∀ e ∈ s.openFiles.entries, s.issued conn e.2.serverFh = some e.2.path
  | _ => True

instance (s : Client) : ∀ t, Decidable (s.EntryKept t) := fun t => by
  unfold EntryKept
  split <;> infer_instance

instance (s : Client) : ∀ t, Decidable (s.UpToDate t) := fun t => by
  unfold UpToDate
  split <;> infer_instance

instance (s : Client) : ∀ l, Decidable (s.sessionOk l) := fun l => by
  unfold sessionOk
  split <;> infer_instance

/-! ## What a step leaves alone -/

/-- Sessions only issue more, and connections only go down. -/
structure Grows (s s' : Client) : Prop where
  issued : ∀ {conn num path}, s.issued conn num = some path → s'.issued conn num = some path
  down : ∀ {conn}, s'.isUp conn → s.isUp conn

/-- What a task relies on. -/
def TaskOk (s : Client) : ClientTask → Prop
  | .started _ _ _ => True
  | .removing _ file num stamp | .loaded _ file num stamp =>
    stamp ≤ s.epoch ∧ (stamp = s.epoch → s.isUp s.cur → s.issued s.cur num = some file)
  | .taken _ file num stamp conn =>
    stamp ≤ s.epoch ∧ (s.isUp conn → s.issued conn num = some file) ∧
      (stamp = s.epoch → s.isUp s.cur → s.issued s.cur num = some file)
  | .opening _ _ _ stamp conn => stamp ≤ s.epoch ∧ (stamp = s.epoch → conn = s.cur)
  | .opened path _ num stamp conn =>
    s.issued conn num = some path ∧ stamp ≤ s.epoch ∧ (stamp = s.epoch → conn = s.cur)

/-- The invariant of a run. -/
structure Inv (s : Client) : Prop where
  bounded : ∀ conn, (s.conns conn).session.Bounded
  sent : s.SentOk
  /-- while the current connection is up, the entries hold its numbers -/
  entries : s.isUp s.cur → ∀ fh state, s.openFiles.lookup fh = some state →
    s.issued s.cur state.serverFh = some state.path
  tasks : ∀ id t, s.tasks id = some t → s.TaskOk t
  /-- the supervisor works only while the current connection is down -/
  sup : s.sup.isSome = true → ¬ s.isUp s.cur

theorem taskOk_mono (hg : Grows s s') (hcur : s'.cur = s.cur)
    (hepoch : s'.epoch = s.epoch) {t : ClientTask} (h : s.TaskOk t) : s'.TaskOk t := by
  have hc : ∀ {num stamp file}, (stamp = s.epoch → s.isUp s.cur → s.issued s.cur num = some file) →
      stamp = s.epoch → s'.isUp s.cur → s'.issued s.cur num = some file :=
    fun hold he hu => hg.issued (hold he (hg.down hu))
  cases t with
  | started op fh file => trivial
  | removing fh file num stamp =>
    simp only [TaskOk, hcur, hepoch] at h ⊢
    exact ⟨h.1, hc h.2⟩
  | loaded op file num stamp =>
    simp only [TaskOk, hcur, hepoch] at h ⊢
    exact ⟨h.1, hc h.2⟩
  | taken op file num stamp conn =>
    simp only [TaskOk, hcur, hepoch] at h ⊢
    exact ⟨h.1, fun hu => hg.issued (h.2.1 (hg.down hu)), hc h.2.2⟩
  | opening path flags fetch stamp conn =>
    simp only [TaskOk, hcur, hepoch] at h ⊢
    exact h
  | opened path flags num stamp conn =>
    simp only [TaskOk, hcur, hepoch] at h ⊢
    exact ⟨hg.issued h.1, h.2⟩

theorem sentOk_mono (hg : Grows s s') (hsent : s'.sent = s.sent) (h : s.SentOk) : s'.SentOk := by
  intro r hr
  rw [hsent] at hr
  exact hg.issued (h r hr)

theorem Inv.setTask (hi : s.Inv) (id : ℕ) (t : Option ClientTask)
    (ht : ∀ t' ∈ t, s.TaskOk t') : (s.setTask id t).Inv := by
  refine ⟨hi.bounded, hi.sent, hi.entries, fun id' t' h => ?_, hi.sup⟩
  by_cases hid : id' = id
  · subst hid
    simp only [Client.setTask, update_self] at h
    exact ht t' h
  · simp only [Client.setTask, update_of_ne hid] at h
    exact hi.tasks id' t' h

theorem grows_issue (hi : s.Inv) (conn : ℕ) (path : RelPath) :
    Grows s (s.issue conn path) := by
  refine ⟨fun {c num p} h => ?_, fun {c} hu => ?_⟩
  · by_cases hc : c = conn
    · subst hc
      have hmem : num ∈ (s.conns c).session.opens := mem_of_lookup h
      have hne : num ≠ (s.conns c).session.nextFh := fun he =>
        (hi.bounded c).nextFh_notMem (he ▸ hmem)
      simp only [issued, issue, update_self, Conn.insertHandle,
        Session.insertHandle]
      exact (AList.lookup_insert_ne hne).trans h
    · simpa only [issued, issue, update_of_ne hc] using h
  · by_cases hc : c = conn
    · subst hc
      simpa only [isUp, issue, update_self, Conn.insertHandle] using hu
    · simpa only [isUp, issue, update_of_ne hc] using hu

theorem issued_issue (s : Client) (conn : ℕ) (path : RelPath) :
    (s.issue conn path).issued conn (s.conns conn).session.nextFh = some path := by
  simp only [issued, issue, update_self, Conn.insertHandle, Session.insertHandle]
  exact AList.lookup_insert _

theorem Inv.issue (hi : s.Inv) (conn : ℕ) (path : RelPath) :
    (s.issue conn path).Inv := by
  have hg := grows_issue hi conn path
  refine ⟨fun c => ?_, sentOk_mono hg rfl hi.sent, fun hu fh state hl => ?_,
    fun id t ht => taskOk_mono hg rfl rfl (hi.tasks id t ht), fun hs hu => hi.sup hs (hg.down hu)⟩
  · by_cases hc : c = conn
    · subst hc
      simp only [Client.issue, update_self]
      exact (hi.bounded c).insertHandle path
    · simp only [Client.issue, update_of_ne hc]
      exact hi.bounded c
  · exact hg.issued (hi.entries (hg.down hu) fh state hl)

/-! ## One step -/

theorem inv_init : Inv init := by
  refine ⟨fun _ => Session.bounded_fresh, ?_, fun _ fh state h => ?_, fun id t h => ?_, ?_⟩
  · intro r hr
    cases hr
  · cases h
  · cases h
  · intro h
    cases h

section

variable (hi : s.Inv)
include hi

theorem inv_load (hok : s.sessionOk (.load id)) (h : s.step (.load id) = some s') : s'.Inv := by
  simp only [step] at h
  split at h
  · next op fh file ht =>
    simp only [sessionOk, EntryKept, ht] at hok
    -- the number loaded is the entry's, and the entry is the handle's own
    obtain ⟨state, hl, hp⟩ := Option.map_eq_some_iff.mp hok
    have hnum : s.isUp s.cur → s.issued s.cur (s.serverFh fh) = some file := by
      intro hu
      simp only [serverFh, hl]
      exact hp ▸ hi.entries hu fh state hl
    split at h
    · cases h
      refine hi.setTask id _ fun t' ht' => ?_
      cases ht'
      exact ⟨le_rfl, fun _ => hnum⟩
    · cases h
      refine hi.setTask id _ fun t' ht' => ?_
      cases ht'
      exact ⟨le_rfl, fun _ => hnum⟩
  · cases h

theorem inv_remove (h : s.step (.remove id) = some s') : s'.Inv := by
  simp only [step] at h
  split at h
  · next fh file num stamp ht =>
    cases h
    have hold := hi.tasks id _ ht
    have hi' := hi.setTask id (some (.loaded .release file num stamp)) fun t' ht' => by
      cases ht'
      exact hold
    refine ⟨hi'.bounded, hi'.sent, fun hu fh' state hl => ?_, hi'.tasks, hi'.sup⟩
    exact hi'.entries hu fh' state (lookup_of_erase hl).2
  · cases h

theorem inv_take (hok : s.sessionOk (.take id)) (h : s.step (.take id) = some s') : s'.Inv := by
  simp only [step] at h
  split at h
  · next op file num stamp ht =>
    simp only [sessionOk, UpToDate, ht] at hok
    cases h
    obtain ⟨hle, hnum⟩ := hi.tasks id _ ht
    refine hi.setTask id _ fun t' ht' => ?_
    cases ht'
    exact ⟨hle, hnum hok, hnum⟩
  · cases h

theorem inv_send {last : Bool} (h : s.step (.send id last) = some s') : s'.Inv := by
  simp only [step] at h
  split at h
  · next op file num stamp conn ht =>
    cases h
    obtain ⟨hle, hconn, hcur⟩ := hi.tasks id _ ht
    have hi' := hi.setTask id (if last then none else some (.loaded op file num stamp))
      fun t' ht' => by
        cases last
        · cases ht'
          exact ⟨hle, hcur⟩
        · cases ht'
    refine ⟨hi'.bounded, fun r hr => ?_, hi'.entries, hi'.tasks, hi'.sup⟩
    by_cases hu : s.isUp conn
    · simp only [if_pos hu] at hr
      rcases List.mem_cons.mp hr with rfl | hr
      · exact hconn hu
      · exact hi.sent r hr
    · simp only [if_neg hu] at hr
      exact hi.sent r hr
  · cases h

theorem inv_openAnswer {granted : Bool}
    (h : s.step (.openAnswer id granted) = some s') : s'.Inv := by
  simp only [step] at h
  split at h
  · next path flags fetch stamp conn ht =>
    obtain ⟨hle, hcur⟩ := hi.tasks id _ ht
    split at h
    · split at h
      · cases h
        have hnew := issued_issue s conn path
        refine (hi.issue conn path).setTask id _ fun t' ht' => ?_
        cases ht'
        cases fetch
        · exact ⟨hnew, hle, hcur⟩
        · refine ⟨hle, fun he _ => ?_⟩
          rw [hcur he] at hnew ⊢
          exact hnew
      · cases h
    · cases h
      exact hi.setTask id none fun t' ht' => by cases ht'
  · cases h

theorem inv_register (hok : s.sessionOk (.register id))
    (h : s.step (.register id) = some s') : s'.Inv := by
  simp only [step] at h
  split at h
  · next path flags num stamp conn ht =>
    simp only [sessionOk, UpToDate, ht] at hok
    cases h
    obtain ⟨hnum, -, hcur⟩ := hi.tasks id _ ht
    rw [hcur hok] at hnum
    have hi' := hi.setTask id none fun t' ht' => by cases ht'
    refine ⟨hi'.bounded, hi'.sent, fun hu fh state hl => ?_, hi'.tasks, hi'.sup⟩
    rcases lookup_of_insert hl with ⟨rfl, rfl⟩ | ⟨-, hl⟩
    · exact hnum
    · exact hi'.entries hu fh state hl
  · cases h

theorem inv_lose {conn : ℕ} (h : s.step (.lose conn) = some s') : s'.Inv := by
  obtain ⟨-, rfl⟩ := of_guard h
  have hsess : ∀ c, (update s.conns conn ⟨false, (s.conns conn).session⟩ c).session =
      (s.conns c).session := by
    intro c
    by_cases hc : c = conn
    · rw [hc, update_self]
    · rw [update_of_ne hc]
  have hg : Grows s
      { s with conns := update s.conns conn ⟨false, (s.conns conn).session⟩ } := by
    refine ⟨fun {c num path} hold => ?_, fun {c} hu => ?_⟩
    · simpa only [issued, hsess] using hold
    · by_cases hc : c = conn
      · simp only [isUp, hc, update_self] at hu
        cases hu
      · simpa only [isUp, update_of_ne hc] using hu
  refine ⟨fun c => ?_, sentOk_mono hg rfl hi.sent, fun hu fh state hl => ?_,
    fun id t ht => taskOk_mono hg rfl rfl (hi.tasks id t ht), fun hs hu => hi.sup hs (hg.down hu)⟩
  · rw [hsess]
    exact hi.bounded c
  · exact hg.issued (hi.entries (hg.down hu) fh state hl)

theorem inv_reopen {fh : ℕ} {granted replay : Bool}
    (h : s.step (.reopen fh granted replay) = some s') : s'.Inv := by
  simp only [step] at h
  split at h
  · next conn state hsup hl =>
    split at h
    · split at h
      · cases h
        have hi' := hi.issue conn state.path
        have hdown : ¬ (s.issue conn state.path).isUp s.cur := hi'.sup (by
          change s.sup.isSome = true
          rw [hsup]
          rfl)
        refine ⟨hi'.bounded, fun r hr => ?_, fun hu => absurd hu hdown, hi'.tasks,
          fun _ => hdown⟩
        cases replay
        · exact hi'.sent r hr
        · rcases List.mem_cons.mp hr with rfl | hr
          · exact issued_issue s conn state.path
          · exact hi'.sent r hr
      · cases h
    · cases h
      exact hi
  · cases h

theorem inv_swap (hok : s.sessionOk .swap) (h : s.step .swap = some s') : s'.Inv := by
  simp only [step] at h
  split at h
  · next conn hsup =>
    cases h
    refine ⟨hi.bounded, hi.sent, fun _ fh state hl => ?_, fun id t ht => ?_, fun hs => by cases hs⟩
    · exact hok conn hsup ⟨fh, state⟩ (AList.mem_lookup_iff.mp hl)
    · -- whatever was loaded before the swap is out of date from here on
      have hstale : ∀ {stamp}, stamp ≤ s.epoch → stamp ≠ s.epoch + 1 := fun h =>
        Nat.ne_of_lt (Nat.lt_succ_of_le h)
      have hold := hi.tasks id t ht
      cases t with
      | started op fh file => trivial
      | removing fh file num stamp =>
        exact ⟨Nat.le_succ_of_le hold.1, fun he => absurd he (hstale hold.1)⟩
      | loaded op file num stamp =>
        exact ⟨Nat.le_succ_of_le hold.1, fun he => absurd he (hstale hold.1)⟩
      | taken op file num stamp conn =>
        exact ⟨Nat.le_succ_of_le hold.1, hold.2.1, fun he => absurd he (hstale hold.1)⟩
      | opening path flags fetch stamp conn =>
        exact ⟨Nat.le_succ_of_le hold.1, fun he => absurd he (hstale hold.1)⟩
      | opened path flags num stamp conn =>
        exact ⟨hold.1, Nat.le_succ_of_le hold.2.1, fun he => absurd he (hstale hold.2.1)⟩
  · cases h

/-- **Every step that meets the condition keeps the invariant.** -/
theorem inv_step {l : ClientStep} (hok : s.sessionOk l) (h : s.step l = some s') : s'.Inv := by
  cases l with
  | start id op fh file =>
    obtain ⟨-, rfl⟩ := of_guard h
    have hi' := hi.setTask id (some (.started op fh file)) fun t' ht' => by
      cases ht'
      trivial
    exact ⟨hi'.bounded, hi'.sent, hi'.entries, hi'.tasks, hi'.sup⟩
  | load id => exact inv_load hi hok h
  | remove id => exact inv_remove hi h
  | take id => exact inv_take hi hok h
  | send id last => exact inv_send hi h
  | openTake id path flags fetch =>
    obtain ⟨-, rfl⟩ := of_guard h
    refine hi.setTask id _ fun t' ht' => ?_
    cases ht'
    exact ⟨le_rfl, fun _ => rfl⟩
  | openAnswer id granted => exact inv_openAnswer hi h
  | register id => exact inv_register hi hok h
  | lose conn => exact inv_lose hi h
  | dial =>
    obtain ⟨hd, rfl⟩ := of_guard h
    exact ⟨hi.bounded, hi.sent, hi.entries, hi.tasks, fun _ => hd.2⟩
  | abandon =>
    cases h
    exact ⟨hi.bounded, hi.sent, hi.entries, hi.tasks, fun hs => by cases hs⟩
  | reopen fh granted replay => exact inv_reopen hi h
  | swap => exact inv_swap hi hok h

end

/-! ## Whole runs -/

/-- **No request mixes two sessions** in a run whose every step meets `sessionOk`:
each number sent on a connection was issued by that connection's own session for the
operation's file. -/
theorem sentOk_of_reaches {s : Client} (h : Reaches step sessionOk init s) : s.SentOk :=
  (h.invariant Inv inv_init fun _ _ _ hi hok hs => inv_step hi hok hs).sent

/-- Open a file for reading. -/
def readFlags : OpenFlags := ⟨true, false, false, false, false⟩

/-- The mount opens `b`; the walker opens `a` in the background; the connection is
lost, and the supervisor opens `b` again on a new one and swaps it in. -/
def fetchAcrossReconnect : List ClientStep :=
  [.openTake 0 ⟨['b']⟩ readFlags false, .openAnswer 0 true, .register 0,
    .openTake 1 ⟨['a']⟩ readFlags true, .openAnswer 1 true,
    .lose 0, .dial, .reopen 1 true false, .swap]

theorem sentOk_read_after_reconnect :
    ∃ s : Client, s.sent = [⟨1, .read, 1, ⟨['b']⟩⟩] ∧ s.SentOk := by
  have hallowed : Allowed step sessionOk init
      (fetchAcrossReconnect ++ [.start 2 .read 1 ⟨['b']⟩, .load 2, .take 2, .send 2 true]) := by
    decide
  obtain ⟨s, hs, hsent⟩ := exists_reaches_of_exec _ Client.sent [⟨1, .read, 1, ⟨['b']⟩⟩]
    hallowed (by decide)
  exact ⟨s, hsent, sentOk_of_reaches hs⟩

/-- The walker goes on with the number it got from the lost session: on the new
connection it has been issued to nobody, and after one more open to another file,
whose bytes the walker then reads as those of `a`. -/
theorem fetch_reads_other_file :
    ∃ s, Reaches step (fun _ _ => True) init s ∧ ¬ s.SentOk := by
  obtain ⟨s, hs, hobs⟩ := exists_reaches_of_exec
    (fetchAcrossReconnect ++
      [.openTake 2 ⟨['c']⟩ readFlags false, .openAnswer 2 true, .register 2,
        .take 1, .send 1 false])
    (fun s => (s.sent, s.issued 1 2)) ([⟨1, .read, 2, ⟨['a']⟩⟩], some ⟨['c']⟩)
    (allowed_true step _ init) (by decide)
  rw [Prod.mk.injEq] at hobs
  refine ⟨s, hs, fun h => ?_⟩
  have hr := h ⟨1, .read, 2, ⟨['a']⟩⟩ (by rw [hobs.1]; exact List.mem_cons_self)
  rw [hobs.2] at hr
  revert hr
  decide

end Client
end AlloyFs
