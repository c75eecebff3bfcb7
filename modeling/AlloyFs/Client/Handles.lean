import AlloyFs.Lib.AList
import AlloyFs.Lib.Transition
import AlloyFs.Proto.Messages

/-!
# Handles of a mount across reconnects

A mount hands the server's own handle number to its caller and keeps, under that
number, an `OpenState` with the number the current server session knows the open
by.  When the connection is lost, the reconnect supervisor opens every entry again
in a new session and rewrites the stored numbers; the keys stay.

A session numbers its handles from one, so after a reconnect it can issue a number
that is still the key of an older handle, and `insert` then replaces that handle's
entry.  And a re-open that fails leaves the number of the old session behind.
`Mount.handleOk` is the condition on a step that rules out both; under it the mount
keeps `Mount.Identity`.

Here `open`, `create`, `release` and a whole pass of the supervisor are single
steps.
-/

namespace AlloyFs

open List

/-- What one server session knows of a client's handles. -/
structure Session where
  nextFh : ℕ
  opens : AList fun _ : ℕ => RelPath

variable {s : Session}

namespace Session

/-- A new session. -/
def fresh : Session := ⟨1, ∅⟩

/-- Open a path under the next number. -/
def insertHandle (s : Session) (path : RelPath) : Session :=
  ⟨s.nextFh + 1, s.opens.insert s.nextFh path⟩

/-- Close a handle; unknown numbers are ignored. -/
def release (s : Session) (fh : ℕ) : Session := { s with opens := s.opens.erase fh }

/-- Every number in use was issued. -/
def Bounded (s : Session) : Prop := ∀ n ∈ s.opens, n < s.nextFh

theorem bounded_fresh : fresh.Bounded := by
  intro n hn
  exact absurd hn (AList.notMem_empty n)

theorem Bounded.insertHandle (h : s.Bounded) (path : RelPath) : (s.insertHandle path).Bounded := by
  intro n hn
  rcases (AList.mem_insert s.opens).mp hn with hn | hn
  · exact hn ▸ Nat.lt_succ_self _
  · exact Nat.lt_succ_of_lt (h n hn)

theorem Bounded.release (h : s.Bounded) (fh : ℕ) : (s.release fh).Bounded := by
  intro n hn
  exact h n (AList.mem_erase.mp hn).2

theorem Bounded.nextFh_notMem (h : s.Bounded) : s.nextFh ∉ s.opens := by
  intro hn
  exact lt_irrefl _ (h _ hn)

end Session

/-- The mount's record of one open handle. -/
structure OpenState where
  path : RelPath
  flags : OpenFlags
  serverFh : ℕ
  lock : Option LockKind
deriving DecidableEq

/-- A mount and the session its connection belongs to.  `live` are the handles the
mount has returned and not yet been asked to release. -/
structure Mount where
  openFiles : AList fun _ : ℕ => OpenState
  session : Session
  live : List (ℕ × RelPath)

/-- One operation; the flags say whether the server carried it out. -/
inductive MountStep
  | openFile (path : RelPath) (flags : OpenFlags) (done : Bool)
  | create (path : RelPath) (flags : OpenFlags) (done : Bool)
  | release (fh : ℕ) (path : RelPath) (done : Bool)
  /-- a pass of the supervisor: the entries in the order they are visited, each with
  whether its re-open succeeds -/
  | reconnect (order : List (ℕ × Bool))

instance (e : ℕ × RelPath) (live : List (ℕ × RelPath)) : Decidable (e ∈ live) :=
  instDecidableMemOfLawfulBEq e live

namespace Mount

variable {s : Mount} {keys : ℕ → Prop}

def init : Mount := ⟨∅, .fresh, []⟩

/-- Keep what the server answered to an `Open` or a `Create`. -/
def opened (s : Mount) (path : RelPath) (flags : OpenFlags) : Mount where
  openFiles := s.openFiles.insert s.session.nextFh ⟨path, flags, s.session.nextFh, none⟩
  session := s.session.insertHandle path
  live := (s.session.nextFh, path) :: s.live

/-- The number to send for a handle: its entry's, or its own if it has none. -/
def serverFh (s : Mount) (fh : ℕ) : ℕ :=
  match s.openFiles.lookup fh with
  | some state => state.serverFh
  | none => fh

def releaseHandle (s : Mount) (fh : ℕ) (path : RelPath) (done : Bool) : Mount where
  openFiles := s.openFiles.erase fh
  session := if done then s.session.release (s.serverFh fh) else s.session
  live := s.live.erase (fh, path)

/-- Open one entry again in the new session; a failure leaves it as it is. -/
def reopen (s : Mount) (item : ℕ × Bool) : Mount :=
  match s.openFiles.lookup item.1 with
  | none => s
  | some state =>
    if item.2 then
      { s with
        openFiles := s.openFiles.insert item.1 { state with serverFh := s.session.nextFh }
        session := s.session.insertHandle state.path }
    else s

/-- A pass of the supervisor over the entries, in a new session. -/
def reconnect (s : Mount) (order : List (ℕ × Bool)) : Mount :=
  order.foldl reopen { s with session := .fresh }

def step (s : Mount) : MountStep → Option Mount
  | .openFile path flags done => some (if done then s.opened path flags else s)
  | .create path flags done => some (if done then s.opened path flags else s)
  | .release fh path done =>
    if (fh, path) ∈ s.live then some (s.releaseHandle fh path done) else none
  | .reconnect order =>
    if (order.map Prod.fst).Perm s.openFiles.keys then some (s.reconnect order) else none

/-- **Every handle returned and not yet released keeps its own entry, and the number
stored for it denotes, in the current session, an open of its path.** -/
structure Identity (s : Mount) : Prop where
  own : (s.live.map Prod.fst).Nodup
  denotes : ∀ h ∈ s.live, ∃ state, s.openFiles.lookup h.1 = some state ∧ state.path = h.2 ∧
    s.session.opens.lookup state.serverFh = some h.2

/-- The condition on a step, in the state before it: the number the session issues
next is not the key of an entry when it opens a file, and no re-open fails. -/
def handleOk (s : Mount) : MountStep → Prop
  | .openFile _ _ done => done = true → s.session.nextFh ∉ s.openFiles
  | .create _ _ done => done = true → s.session.nextFh ∉ s.openFiles
  | .release _ _ _ => True
  | .reconnect order => ∀ item ∈ order, item.2 = true

instance (s : Mount) : ∀ l, Decidable (s.handleOk l) := fun l => by
  unfold handleOk
  split <;> infer_instance

/-! ## Entries that denote opens -/

/-- The entries among `keys` hold different numbers, each an open of its path. -/
structure Sound (s : Mount) (keys : ℕ → Prop) : Prop where
  bounded : s.session.Bounded
  denotes : ∀ fh state, keys fh → s.openFiles.lookup fh = some state →
    s.session.opens.lookup state.serverFh = some state.path
  distinct : ∀ fh fh' state state', keys fh → keys fh' → s.openFiles.lookup fh = some state →
    s.openFiles.lookup fh' = some state' → state.serverFh = state'.serverFh → fh = fh'

/-- The live handles are the keys, and each entry has its handle's path. -/
structure Keyed (s : Mount) : Prop where
  own : (s.live.map Prod.fst).Nodup
  entry : ∀ h ∈ s.live, ∃ state, s.openFiles.lookup h.1 = some state ∧ state.path = h.2
  key : ∀ fh ∈ s.openFiles, fh ∈ s.live.map Prod.fst

/-- The invariant of a run. -/
structure Inv (s : Mount) : Prop where
  sound : s.Sound fun _ => True
  keyed : s.Keyed

theorem inv_init : Inv init := by
  have hno : ∀ fh state, init.openFiles.lookup fh ≠ some state := by
    intro fh state h
    cases h
  refine ⟨⟨Session.bounded_fresh, ?_, ?_⟩, ⟨nodup_nil, ?_, ?_⟩⟩
  · intro fh state _ h
    exact absurd h (hno fh state)
  · intro fh _ state _ _ _ h
    exact absurd h (hno fh state)
  · intro h hm
    cases hm
  · intro fh hm
    exact absurd hm (AList.notMem_empty fh)

theorem Inv.identity (hi : s.Inv) : s.Identity := by
  refine ⟨hi.keyed.own, fun h hm => ?_⟩
  obtain ⟨state, hl, hp⟩ := hi.keyed.entry h hm
  exact ⟨state, hl, hp, hp ▸ hi.sound.denotes h.1 state trivial hl⟩

theorem Sound.serverFh_ne (hs : s.Sound keys) {fh : ℕ}
    {state : OpenState} (hk : keys fh) (hl : s.openFiles.lookup fh = some state) :
    state.serverFh ≠ s.session.nextFh := by
  intro he
  have hd := hs.denotes fh state hk hl
  have hmem : state.serverFh ∈ s.session.opens :=
    mem_of_lookup hd
  exact hs.bounded.nextFh_notMem (he ▸ hmem)

/-- Store the next number under `fh`, for any path: the entry joins the sound ones. -/
theorem Sound.issue (hs : s.Sound keys) (fh : ℕ)
    (state : OpenState) (hnum : state.serverFh = s.session.nextFh) (live : List (ℕ × RelPath)) :
    Sound ⟨s.openFiles.insert fh state, s.session.insertHandle state.path, live⟩
      fun k => keys k ∨ k = fh := by
  -- entries other than `fh` keep their number, which is not the new one
  have hold : ∀ k st, k ≠ fh → (keys k ∨ k = fh) →
      (s.openFiles.insert fh state).lookup k = some st →
      keys k ∧ s.openFiles.lookup k = some st ∧ st.serverFh ≠ state.serverFh := by
    intro k st hne hk hl
    rw [AList.lookup_insert_ne hne] at hl
    have hk' := hk.resolve_right hne
    exact ⟨hk', hl, hnum ▸ hs.serverFh_ne hk' hl⟩
  have hnew : ∀ st, (s.openFiles.insert fh state).lookup fh = some st → st = state := by
    intro st hl
    rw [AList.lookup_insert, Option.some.injEq] at hl
    exact hl.symm
  refine ⟨hs.bounded.insertHandle _, fun k st hk hl => ?_, fun k k' st st' hk hk' hl hl' he => ?_⟩
  · by_cases hne : k = fh
    · subst hne
      rw [hnew st hl, hnum]
      exact AList.lookup_insert _
    · obtain ⟨hk', hl', hdiff⟩ := hold k st hne hk hl
      rw [hnum] at hdiff
      exact (AList.lookup_insert_ne hdiff).trans (hs.denotes k st hk' hl')
  · by_cases hne : k = fh <;> by_cases hne' : k' = fh
    · rw [hne, hne']
    · subst hne
      obtain ⟨-, -, hdiff⟩ := hold k' st' hne' hk' hl'
      exact absurd (he.symm.trans (by rw [hnew st hl])) hdiff
    · subst hne'
      obtain ⟨-, -, hdiff⟩ := hold k st hne hk hl
      exact absurd (he.trans (by rw [hnew st' hl'])) hdiff
    · obtain ⟨hk₁, hl₁, -⟩ := hold k st hne hk hl
      obtain ⟨hk₂, hl₂, -⟩ := hold k' st' hne' hk' hl'
      exact hs.distinct k k' st st' hk₁ hk₂ hl₁ hl₂ he

/-! ## Open, create, release -/

theorem inv_opened (hi : s.Inv) (path : RelPath) (flags : OpenFlags)
    (hnew : s.session.nextFh ∉ s.openFiles) : (s.opened path flags).Inv := by
  have hlive : s.session.nextFh ∉ s.live.map Prod.fst := by
    intro hm
    obtain ⟨h, hh, he⟩ := mem_map.mp hm
    obtain ⟨state, hl, -⟩ := hi.keyed.entry h hh
    exact hnew (he ▸ mem_of_lookup hl)
  refine ⟨?_, nodup_cons.mpr ⟨hlive, hi.keyed.own⟩, ?_, ?_⟩
  · have hs := hi.sound.issue s.session.nextFh ⟨path, flags, s.session.nextFh, none⟩ rfl
      (s.opened path flags).live
    exact ⟨hs.bounded, fun fh state _ => hs.denotes fh state (.inl trivial),
      fun fh fh' state state' _ _ =>
        hs.distinct fh fh' state state' (.inl trivial) (.inl trivial)⟩
  · intro h hm
    rcases mem_cons.mp hm with rfl | hm
    · exact ⟨_, AList.lookup_insert _, rfl⟩
    · obtain ⟨state, hl, hp⟩ := hi.keyed.entry h hm
      refine ⟨state, ?_, hp⟩
      refine (AList.lookup_insert_ne fun he => hlive ?_).trans hl
      exact he ▸ mem_map_of_mem hm
  · intro fh hm
    rcases (AList.mem_insert s.openFiles).mp hm with rfl | hm
    · exact mem_cons_self
    · exact mem_cons_of_mem _ (hi.keyed.key fh hm)

theorem inv_releaseHandle (hi : s.Inv) {fh : ℕ} {path : RelPath}
    (hlive : (fh, path) ∈ s.live) (done : Bool) : (s.releaseHandle fh path done).Inv := by
  obtain ⟨state, hl, -⟩ := hi.keyed.entry (fh, path) hlive
  have hnum : s.serverFh fh = state.serverFh := by simp only [serverFh, hl]
  -- an entry that is left is not the released one, and holds another number
  have hkept : ∀ k st, (s.openFiles.erase fh).lookup k = some st →
      k ≠ fh ∧ s.openFiles.lookup k = some st := fun _ _ => lookup_of_erase
  refine ⟨⟨?_, fun k st _ hk => ?_, fun k k' st st' _ _ hk hk' he => ?_⟩, ?_, ?_, ?_⟩
  · cases done
    · exact hi.sound.bounded
    · exact hi.sound.bounded.release _
  · obtain ⟨hne, hold⟩ := hkept k st hk
    have hd := hi.sound.denotes k st trivial hold
    cases done
    · exact hd
    · refine (AList.lookup_erase_ne fun he => hne ?_).trans hd
      exact hi.sound.distinct k fh st state trivial trivial hold hl (he.trans hnum)
  · exact hi.sound.distinct k k' st st' trivial trivial (hkept k st hk).2 (hkept k' st' hk').2 he
  · exact hi.keyed.own.sublist (erase_sublist.map Prod.fst)
  · intro h hm
    have hmem := mem_of_mem_erase hm
    obtain ⟨st, hst, hp⟩ := hi.keyed.entry h hmem
    refine ⟨st, (AList.lookup_erase_ne ?_).trans hst, hp⟩
    -- two live handles with one number would be one, and that one was erased
    intro he
    have hpair : h = (fh, path) :=
      inj_on_of_nodup_map hi.keyed.own hmem hlive he
    rw [hpair] at hm
    exact (hi.keyed.own.of_map _).not_mem_erase hm
  · intro k hm
    obtain ⟨hne, hk⟩ := AList.mem_erase.mp hm
    obtain ⟨h, hh, rfl⟩ := mem_map.mp (hi.keyed.key k hk)
    exact mem_map_of_mem ((mem_erase_of_ne fun he => hne (by rw [he])).mpr hh)

/-! ## A pass of the supervisor -/

/-- A re-open leaves the live handles and the keys alone, and each entry its path. -/
theorem keyed_reopen (hk : s.Keyed) (item : ℕ × Bool) : (s.reopen item).Keyed := by
  unfold reopen
  split
  · exact hk
  · next state hl =>
    split
    · have hmem : item.1 ∈ s.openFiles := mem_of_lookup hl
      refine ⟨hk.own, fun h hm => ?_, fun fh hm => ?_⟩
      · by_cases he : h.1 = item.1
        · obtain ⟨st, hst, hp⟩ := hk.entry h hm
          rw [he, hl, Option.some.injEq] at hst
          refine ⟨{ state with serverFh := s.session.nextFh }, ?_, by rw [← hp, ← hst]⟩
          rw [he]
          exact AList.lookup_insert _
        · obtain ⟨st, hst, hp⟩ := hk.entry h hm
          exact ⟨st, (AList.lookup_insert_ne he).trans hst, hp⟩
      · rcases (AList.mem_insert s.openFiles).mp hm with rfl | hm
        · exact hk.key _ hmem
        · exact hk.key fh hm
    · exact hk

theorem sound_reopen (hs : s.Sound keys) (fh : ℕ) :
    (s.reopen (fh, true)).Sound fun k => keys k ∨ k = fh := by
  unfold reopen
  split
  · next hl =>
    -- no entry under this key: there is nothing to say about it
    have hvac : ∀ k st, (keys k ∨ k = fh) → s.openFiles.lookup k = some st → keys k := by
      rintro k st (hk | rfl) hst
      · exact hk
      · rw [hl] at hst
        cases hst
    exact ⟨hs.bounded, fun k st hk hst => hs.denotes k st (hvac k st hk hst) hst,
      fun k k' st st' hk hk' hst hst' =>
        hs.distinct k k' st st' (hvac k st hk hst) (hvac k' st' hk' hst') hst hst'⟩
  · next state hl =>
    exact hs.issue fh { state with serverFh := s.session.nextFh } rfl s.live

theorem sound_pass (order : List (ℕ × Bool)) :
    ∀ {s : Mount} {keys : ℕ → Prop}, s.Sound keys → (∀ item ∈ order, item.2 = true) →
      (order.foldl reopen s).Sound fun k => keys k ∨ k ∈ order.map Prod.fst := by
  induction order with
  | nil =>
    intro s keys hs _
    simpa using hs
  | cons item order ih =>
    intro s keys hs hall
    rw [forall_mem_cons] at hall
    have hitem : item = (item.1, true) := by rw [← hall.1]
    have hone := sound_reopen hs item.1
    rw [← hitem] at hone
    have hrest := ih hone hall.2
    rw [foldl_cons]
    simpa only [map_cons, mem_cons, or_assoc] using hrest

theorem keyed_pass (order : List (ℕ × Bool)) :
    ∀ {s : Mount}, s.Keyed → (order.foldl reopen s).Keyed := by
  induction order with
  | nil => intro s hk; exact hk
  | cons item order ih => intro s hk; exact ih (keyed_reopen hk item)

theorem mem_openFiles_reopen (s : Mount) (item : ℕ × Bool) (fh : ℕ) :
    fh ∈ (s.reopen item).openFiles → fh ∈ s.openFiles := by
  unfold reopen
  split
  · exact id
  · next state hl =>
    split
    · intro hm
      rcases (AList.mem_insert s.openFiles).mp hm with rfl | hm
      · exact mem_of_lookup hl
      · exact hm
    · exact id

theorem mem_openFiles_pass (order : List (ℕ × Bool)) (fh : ℕ) :
    ∀ s : Mount, fh ∈ (order.foldl reopen s).openFiles → fh ∈ s.openFiles := by
  induction order with
  | nil => intro s hm; exact hm
  | cons item order ih => intro s hm; exact mem_openFiles_reopen s item fh (ih _ hm)

theorem inv_reconnect (hi : s.Inv) {order : List (ℕ × Bool)}
    (hperm : (order.map Prod.fst).Perm s.openFiles.keys) (hall : ∀ item ∈ order, item.2 = true) :
    (s.reconnect order).Inv := by
  have hstart : Sound { s with session := .fresh } fun _ => False :=
    ⟨Session.bounded_fresh, fun _ _ h => h.elim, fun _ _ _ _ h => h.elim⟩
  have hs := sound_pass order hstart hall
  have hvisited : ∀ fh state, (s.reconnect order).openFiles.lookup fh = some state →
      False ∨ fh ∈ order.map Prod.fst := by
    intro fh state hl
    have hmem : fh ∈ s.openFiles :=
      mem_openFiles_pass order fh { s with session := .fresh } (mem_of_lookup hl)
    exact .inr (hperm.mem_iff.mpr (AList.mem_keys.mp hmem))
  refine ⟨⟨hs.bounded, fun fh state _ hl => ?_, fun fh fh' state state' _ _ hl hl' => ?_⟩, ?_⟩
  · exact hs.denotes fh state (hvisited fh state hl) hl
  · exact hs.distinct fh fh' state state' (hvisited fh state hl) (hvisited fh' state' hl') hl hl'
  · exact keyed_pass order ⟨hi.keyed.own, hi.keyed.entry, hi.keyed.key⟩

/-! ## Whole runs -/

theorem inv_step {s' : Mount} {l : MountStep} (hi : s.Inv) (hok : s.handleOk l)
    (h : s.step l = some s') : s'.Inv := by
  cases l with
  | openFile path flags done =>
    cases h
    cases done
    · exact hi
    · exact inv_opened hi path flags (hok rfl)
  | create path flags done =>
    cases h
    cases done
    · exact hi
    · exact inv_opened hi path flags (hok rfl)
  | release fh path done =>
    obtain ⟨hlive, rfl⟩ := of_guard h
    exact inv_releaseHandle hi hlive done
  | reconnect order =>
    obtain ⟨hperm, rfl⟩ := of_guard h
    exact inv_reconnect hi hperm hok

theorem inv_of_reaches (h : Reaches step handleOk init s) : s.Inv :=
  h.invariant Inv inv_init fun _ _ _ hi hok hs => inv_step hi hok hs

theorem not_identity_opened (hi : s.Inv) (path : RelPath) (flags : OpenFlags)
    (hkey : s.session.nextFh ∈ s.openFiles) : ¬ (s.opened path flags).Identity := by
  intro h
  exact (nodup_cons.mp h.own).1 (hi.keyed.key _ hkey)

/-- **Handle identity.**  In every run in which each number the session issues for an
`open` or `create` is not the key of a live handle, and in which every re-open of a
reconnect succeeds, every live handle keeps its own entry and its stored number
denotes an open of its path.  And an `open` or `create` that is issued the key of a
live handle breaks this at once. -/
theorem identity_of_reaches {s : Mount} (hs : Reaches step handleOk init s) :
    s.Identity ∧ ∀ path flags, s.session.nextFh ∈ s.openFiles →
      ¬ (s.opened path flags).Identity :=
  ⟨(inv_of_reaches hs).identity,
    fun path flags => not_identity_opened (inv_of_reaches hs) path flags⟩

/-- Open two files, release the first, reconnect. -/
def releaseThenReconnect : List MountStep :=
  [.openFile ⟨['a']⟩ ⟨true, false, false, false, false⟩ true,
    .openFile ⟨['b']⟩ ⟨true, false, false, false, false⟩ true,
    .release 1 ⟨['a']⟩ true, .reconnect [(2, true)]]

theorem identity_releaseThenReconnect : ∃ s : Mount, s.live = [(2, ⟨['b']⟩)] ∧ s.Identity := by
  have hallowed : Allowed step handleOk init releaseThenReconnect := by decide
  obtain ⟨s, hs, hlive⟩ := exists_reaches_of_exec releaseThenReconnect Mount.live
    [(2, ⟨['b']⟩)] hallowed (by decide)
  exact ⟨s, hlive, (identity_of_reaches hs).1⟩

/-- The next open is issued number 2, the key of the handle that is still open, and
replaces its entry. -/
theorem open_takes_entry : ∃ s, Reaches step (fun _ _ => True) init s ∧ ¬ s.Identity := by
  obtain ⟨s, hs, hlive⟩ := exists_reaches_of_exec
    (releaseThenReconnect ++ [.openFile ⟨['c']⟩ ⟨true, false, false, false, false⟩ true])
    Mount.live [(2, ⟨['c']⟩), (2, ⟨['b']⟩)] (allowed_true step _ init) (by decide)
  refine ⟨s, hs, fun h => ?_⟩
  have hown := h.own
  rw [hlive] at hown
  revert hown
  decide

end Mount
end AlloyFs
