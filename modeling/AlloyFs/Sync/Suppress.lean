import AlloyFs.Lib.Transition
import AlloyFs.Sync.Engine

/-!
# Reports that are taken for echoes

Before the engine changes a path of the local tree it notes what the path will show.  A report of
the watcher that finds just that, within two seconds, is the engine's own doing and is dropped; any
other is pushed.  So a dropped report is right as long as the server shows what was noted.

This module follows one path through everything that can happen to it: the engine's own changes, the
user's, those of others on the server, and the reports.  A step stands for the calls of the engine
that do this to the path, also where they were made for a directory above it.  Nothing withdraws a
note when the path is pushed, and two of the engine's changes note something that it did not see on
the server: a removal, and a rename that brings along whatever the local source held.  `noteOk`
excludes these.
-/

namespace AlloyFs.Sync

/-- How the calls of one operation end. -/
structure Calls where
  /-- the requests are answered -/
  sent : Bool
  /-- the change of the disk is made -/
  disk : Bool
  /-- what an upload that fails leaves on the server; none if it succeeds -/
  left : Option (Option Stat)
  /-- the version that the server gives to what it was sent -/
  version : ℕ
deriving DecidableEq

/-- All calls succeed. -/
def Calls.fine : Calls := ⟨true, true, none, 1⟩

/-- What the watcher reports of a path. -/
inductive WatchReport
  | changed
  | removed
  | renamed
deriving DecidableEq

/-- Both sides of one path, what is recorded of it, and what the engine expects to see there. -/
structure OnePath where
  policy : ConflictPolicy
  now : ℕ
  here : Option Stat
  there : Option Stat
  base : Option SyncEntry
  expected : Option Suppress
  /-- others changed the server's copy since the expectation was recorded -/
  foreign : Bool

inductive OnePathStep
  | tick (ns : ℕ)
  /-- the user creates, changes or removes it, or the engine does and takes no note: as a conflict
  copy, or below a directory that a remote rename moves -/
  | user (st : Option Stat)
  /-- others do so on the server -/
  | others (st : Option Stat)
  /-- `Adopt` and `Forget` of a plan, or the baseline goes with that of a directory above -/
  | rebase (entry : Option SyncEntry)
  /-- `pull`, from `resolve_conflict` -/
  | pull (io : Calls)
  /-- `push` from `resolve_conflict`, or as a child in `push_new_dir_contents`, which for a
  directory is a `Mkdir` -/
  | push (io : Calls)
  /-- the rename of a directory above is pushed: the server has here what is moved along -/
  | pushedAbove (st : Option Stat) (entry : Option SyncEntry)
  /-- `pull_if_needed`, from a remote change or a plan -/
  | pullIfNeeded (io : Calls)
  /-- `delete_local` of the path, from a remote removal or a plan -/
  | deleteLocal (io : Calls)
  /-- a remote rename away from the path is applied, or `delete_local` removes a directory above,
  which notes every path below it -/
  | depart (io : Calls)
  /-- a remote rename onto the path is applied, with what the source is and its baseline -/
  | arrive (src : Option Stat) (entry : Option SyncEntry) (io : Calls)
  /-- the report of a local rename onto the path is pushed, with what the server has at the
  source -/
  | renamedOnto (src : Option Stat) (entry : Option SyncEntry) (io : Calls)
  /-- `push_local`, from the watcher or a plan -/
  | report (kind : WatchReport) (io : Calls)

variable {entry : Option SyncEntry}

namespace OnePath

/-! ## The engine's functions on one path -/

def expect (s : OnePath) (e : Expect) : OnePath :=
  { s with expected := some ⟨e, s.now⟩, foreign := false }

/-- The expectation is not older than it may be. -/
def live (s : OnePath) : Bool := s.expected.any fun e => decide (s.now - e.at_ ≤ SUPPRESS_TTL)

def isOwnEcho (s : OnePath) : Bool :=
  match s.expected with
  | none => false
  | some e =>
    if SUPPRESS_TTL < s.now - e.at_ then false else SyncEngine.asExpected e.expect s.here

/-- What `is_own_echo` leaves. -/
def purged (s : OnePath) : OnePath := if s.live then s else { s with expected := none }

def record (s : OnePath) (kind : EntryKind) (size mtimeNs version : ℕ) : OnePath :=
  { s with base := some ⟨kind, version, size, mtimeNs⟩ }

/-- The local path is a directory. -/
def isDir (st : Option Stat) : Bool := st.any fun l => decide (l.kind = .dir)

def pull (s : OnePath) (io : Calls) : OnePath :=
  match s.there with
  | some r =>
    if r.kind = .dir ∨ io.sent = false then s
    else
      let s := s.expect (.present r.size r.mtimeNs)
      if io.disk && !isDir s.here then
        { s with here := some ⟨.file, r.size, r.mtimeNs, 0⟩ }.record
          .file r.size r.mtimeNs r.version
      else s
  | none => s

def push (s : OnePath) (io : Calls) : OnePath :=
  match s.here with
  | some l =>
    if l.kind = .dir ∨ io.sent = false ∨ isDir s.there then s
    else
      match io.left with
      | some left => { s with there := left }
      | none =>
        { s with there := some ⟨.file, l.size, l.mtimeNs, io.version⟩ }.record
          .file l.size l.mtimeNs io.version
  | none => s

/-- A local directory is made on the server; what is there already counts as made. -/
def pushDir (s : OnePath) (io : Calls) : OnePath :=
  if io.sent then
    { s with there := some (s.there.getD ⟨.dir, 0, 0, io.version⟩) }.record .dir 0 0 0
  else s

def resolveConflict (s : OnePath) (l r : Stat) (io : Calls) : OnePath :=
  if localWins s.policy l r then s.push io else s.pull io

def pullFile (s : OnePath) (r : Stat) (io : Calls) : OnePath :=
  if s.base.any fun b => decide (b.size = r.size ∧ b.mtimeNs = r.mtimeNs) then s
  else
    match s.here with
    | some l =>
      if localDirty s.base l then
        if l.size = r.size ∧ l.mtimeNs = r.mtimeNs then s.record l.kind l.size l.mtimeNs r.version
        else s.resolveConflict l r io
      else s.pull io
    | none => s.pull io

def pullIfNeeded (s : OnePath) (io : Calls) : OnePath :=
  match s.there with
  | some r =>
    if io.sent = false then s
    else if r.kind = .dir then
      let s := s.expect .dir
      -- `create_dir_all` fails where a file is
      if io.disk && (isDir s.here || s.here.isNone) then
        { s with here := some ⟨.dir, 0, 0, 0⟩ }.record .dir 0 0 r.version
      else s
    else s.pullFile r io
  | none => s

def deleteLocal (s : OnePath) (io : Calls) : OnePath :=
  match s.here with
  | none => { s with base := none }
  | some l =>
    if editWins s.base l then s
    else
      let s := s.expect .absent
      if io.disk then { s with here := none, base := none } else s

/-- The source of a remote rename. -/
def depart (s : OnePath) (io : Calls) : OnePath :=
  match s.here with
  | none => s
  | some _ =>
    let s := s.expect .absent
    if io.disk then { s with here := none, base := none } else s

/-- What is expected of something that has been moved. -/
def arrived (l : Stat) : Expect :=
  match l.kind with
  | .dir => .dir
  | .file => .present l.size l.mtimeNs

/-- The target of a remote rename. -/
def arrive (s : OnePath) (src : Option Stat) (entry : Option SyncEntry) (io : Calls) : OnePath :=
  match src with
  | some l =>
    if io.disk then
      let s := { s with here := some l }.expect (arrived l)
      match entry with
      | some e => { s with base := some e }
      | none => s.pullIfNeeded io
    else s.pullIfNeeded io
  | none => s.pullIfNeeded io

/-- A file or a directory that the server is to get. -/
def pushNew (s : OnePath) (io : Calls) : OnePath :=
  if isDir s.here then s.pushDir io else s.push io

/-- The target of a local rename, which the server replays. -/
def renamedOnto (s : OnePath) (src : Option Stat) (entry : Option SyncEntry) (io : Calls) :
    OnePath :=
  if io.sent then
    match src with
    | some st =>
      let s := { s with there := some { st with version := io.version } }
      match entry, s.here with
      | some e, _ => { s with base := some e }
      | none, some l => s.record l.kind l.size l.mtimeNs 0
      | none, none => s
    | none => s.pushNew io
  else s

/-- The file of a report is pushed, unless the server's has changed since the baseline. -/
def pushFile (s : OnePath) (l : Stat) (io : Calls) : OnePath :=
  match s.there with
  | some r =>
    if remoteDirty s.base r then
      if l.size = r.size ∧ l.mtimeNs = r.mtimeNs then s.record l.kind l.size l.mtimeNs r.version
      else s.resolveConflict l r io
    else s.push io
  | none => s.push io

/-- The removal of a path is pushed, unless the server's copy has changed. -/
def pushRemoved (s : OnePath) (b : SyncEntry) (io : Calls) : OnePath :=
  match s.there with
  | none => { s with base := none }
  | some r =>
    if remoteDirty (some b) r = true ∧ r.kind ≠ .dir then s.pull io
    -- a directory may not be empty yet
    else if io.left.isSome then s
    else { s with there := none, base := none }

/-- **A report of the watcher.**  An echo of the engine's own change is dropped. -/
def pushLocal (s : OnePath) (kind : WatchReport) (io : Calls) : OnePath :=
  if s.isOwnEcho then s
  else
    let s := s.purged
    if io.sent = false then s
    else
      match kind, s.here, s.base with
      | .changed, none, _ => s
      | .changed, some l, _ => if l.kind = .dir then s.pushDir io else s.pushFile l io
      | .removed, _, none => s
      | .removed, _, some b => s.pushRemoved b io
      | .renamed, _, _ => { s with there := none, base := none }

def step (s : OnePath) : OnePathStep → Option OnePath
  | .tick ns => some { s with now := s.now + ns }
  | .user st => some { s with here := st }
  | .others st => some { s with there := st, foreign := true }
  | .rebase entry => some { s with base := entry }
  | .pull io => some (s.pull io)
  | .push io => some (s.pushNew io)
  | .pushedAbove st entry => some { s with there := st, base := entry }
  | .pullIfNeeded io => some (s.pullIfNeeded io)
  | .deleteLocal io => some (s.deleteLocal io)
  | .depart io => some (s.depart io)
  | .arrive src entry io => some (s.arrive src entry io)
  | .renamedOnto src entry io => some (s.renamedOnto src entry io)
  | .report kind io => some (s.pushLocal kind io)

/-! ## The property -/

/-- Both sides are absent, directories, or files of the same size and time. -/
def agrees : Option Stat → Option Stat → Bool
  | none, none => true
  | some l, some r =>
    decide (l.kind = r.kind ∧ (l.kind = .dir ∨ l.size = r.size ∧ l.mtimeNs = r.mtimeNs))
  | _, _ => false

/-- **A report that would be dropped now finds what the server has**, if others have left the
server's copy alone. -/
def Faithful (s : OnePath) : Prop :=
  s.isOwnEcho = true → s.foreign = false → agrees s.here s.there = true
deriving Decidable

/-- The local side was changed too, and wins. -/
def localWon (s : OnePath) : Bool :=
  match s.here, s.there with
  | some l, some r => localDirty s.base l && localWins s.policy l r
  | _, _ => false

/-- **The condition on a step**, in the state before it.  While an expectation is live nothing is
pushed; a removal that is applied finds the server without the path; and a rename brings along what
the server has. -/
def noteOk (s : OnePath) : OnePathStep → Prop
  | .tick _ | .user _ | .others _ | .rebase _ | .pull _ => True
  | .push _ | .pushedAbove _ _ | .renamedOnto _ _ _ => s.live = false
  | .report _ _ => s.isOwnEcho = true ∨ s.live = false
  | .pullIfNeeded _ => s.live = false ∨ s.localWon = false
  | .deleteLocal _ | .depart _ => s.there = none
  | .arrive src _ io =>
    if src.isSome && io.disk then agrees src s.there = true else s.live = false ∨ s.localWon = false

instance (s : OnePath) : ∀ l, Decidable (s.noteOk l) := fun l => by
  unfold noteOk
  split <;> infer_instance

/-! ## What every step keeps -/

/-- The server shows what is expected, if others have left its copy alone. -/
def Inv (s : OnePath) : Prop :=
  s.foreign = false → ∀ e ∈ s.expected, s.now - e.at_ ≤ SUPPRESS_TTL →
    SyncEngine.asExpected e.expect s.there = true

variable {s s' : OnePath} {l r : Stat} {e : Expect} {io : Calls}

theorem agrees_of_asExpected {here there : Option Stat} (h : SyncEngine.asExpected e here = true)
    (h' : SyncEngine.asExpected e there = true) : agrees here there = true := by
  cases e <;> cases here <;> cases there <;> simp_all [SyncEngine.asExpected, agrees]

theorem Inv.faithful (h : s.Inv) : s.Faithful := by
  intro hecho hforeign
  unfold isOwnEcho at hecho
  split at hecho
  · cases hecho
  · next e he =>
    split at hecho
    · cases hecho
    · next hage => exact agrees_of_asExpected hecho (h hforeign e he (by omega))

theorem Inv.of_view (h : s.Inv) (hexp : s'.expected = s.expected) (hnow : s'.now = s.now)
    (hthere : s'.there = s.there) (hforeign : s'.foreign = s.foreign) : s'.Inv := by
  unfold Inv
  rw [hexp, hnow, hthere, hforeign]
  exact h

theorem inv_expect (h : SyncEngine.asExpected e s.there = true) : (s.expect e).Inv := by
  intro _ e' he' _
  cases he'
  exact h

theorem inv_of_dead (hlive : s.live = false) (hexp : s'.expected = s.expected)
    (hnow : s'.now = s.now) : s'.Inv := by
  intro _ e he hage
  rw [hexp] at he
  rw [hnow] at hage
  rw [live, Option.mem_def.mp he] at hlive
  simp only [Option.any_some, decide_eq_false_iff_not] at hlive
  exact absurd hage hlive

theorem dead_purged (hlive : s.live = false) : s.purged.live = false := by
  rw [purged, if_neg (by simp [hlive])]
  rfl

theorem Inv.pull (h : s.Inv) : (s.pull io).Inv := by
  unfold OnePath.pull
  split
  · next r hr =>
    split
    · exact h
    · next hk =>
      have hfile : r.kind = .file := by
        cases hkind : r.kind <;> simp_all
      have he : (s.expect (.present r.size r.mtimeNs)).Inv :=
        inv_expect (by simp [SyncEngine.asExpected, hr, hfile])
      dsimp only
      split
      · exact he.of_view rfl rfl rfl rfl
      · exact he
  · exact h

theorem expected_push : (s.push io).expected = s.expected ∧ (s.push io).now = s.now := by
  unfold push
  split
  · split
    · exact ⟨rfl, rfl⟩
    · split <;> exact ⟨rfl, rfl⟩
  · exact ⟨rfl, rfl⟩

theorem inv_push (hlive : s.live = false) : (s.push io).Inv :=
  inv_of_dead hlive expected_push.1 expected_push.2

theorem inv_pushDir (hlive : s.live = false) : (s.pushDir io).Inv := by
  unfold pushDir
  split <;> exact inv_of_dead hlive rfl rfl

theorem Inv.resolveConflict (h : s.Inv) (hok : s.live = false ∨ localWins s.policy l r = false) :
    (s.resolveConflict l r io).Inv := by
  unfold OnePath.resolveConflict
  split
  · next hwins =>
    rw [hwins] at hok
    exact inv_push (by simpa using hok)
  · exact h.pull

theorem Inv.pullFile (h : s.Inv) (hr : s.there = some r)
    (hok : s.live = false ∨ s.localWon = false) : (s.pullFile r io).Inv := by
  unfold OnePath.pullFile
  split
  · exact h
  · split
    · next l hl =>
      split
      · next hdirty =>
        split
        · exact h.of_view rfl rfl rfl rfl
        · exact h.resolveConflict (by simpa [localWon, hl, hr, hdirty] using hok)
      · exact h.pull
    · exact h.pull

theorem Inv.pullIfNeeded_of (h : s.Inv)
    (hfile : ∀ r, s.there = some r → r.kind ≠ .dir → (s.pullFile r io).Inv) :
    (s.pullIfNeeded io).Inv := by
  unfold OnePath.pullIfNeeded
  split
  · next r hr =>
    split
    · exact h
    · split
      · next hdir =>
        have he : (s.expect .dir).Inv := inv_expect (by simp [SyncEngine.asExpected, hr, hdir])
        dsimp only
        split
        · exact he.of_view rfl rfl rfl rfl
        · exact he
      · next hkind => exact hfile r hr hkind
  · exact h

theorem Inv.pullIfNeeded (h : s.Inv) (hok : s.live = false ∨ s.localWon = false) :
    (s.pullIfNeeded io).Inv :=
  h.pullIfNeeded_of fun _ hr _ => h.pullFile hr hok

theorem Inv.gone (hthere : s.there = none) : (let t := s.expect .absent
    if io.disk then { t with here := none, base := none } else t).Inv := by
  have he : (s.expect .absent).Inv := inv_expect (by simp [SyncEngine.asExpected, hthere])
  split
  · exact he.of_view rfl rfl rfl rfl
  · exact he

theorem Inv.deleteLocal (h : s.Inv) (hthere : s.there = none) : (s.deleteLocal io).Inv := by
  unfold OnePath.deleteLocal
  split
  · exact h.of_view rfl rfl rfl rfl
  · split
    · exact h
    · exact Inv.gone hthere

theorem Inv.depart (h : s.Inv) (hthere : s.there = none) : (s.depart io).Inv := by
  unfold OnePath.depart
  split
  · exact h
  · exact Inv.gone hthere

theorem asExpected_arrived (h : agrees (some l) (some r) = true) :
    SyncEngine.asExpected (arrived l) (some r) = true := by
  simp only [agrees, decide_eq_true_eq] at h
  cases hkind : l.kind with
  | dir => simp [arrived, hkind, SyncEngine.asExpected, ← h.1]
  | file =>
    obtain ⟨hsize, htime⟩ := h.2.resolve_left (by simp [hkind])
    simp [arrived, hkind, SyncEngine.asExpected, ← h.1, hsize, htime]

theorem Inv.pullSame (h : s.Inv) (hl : s.here = some l) (hsame : agrees (some l) s.there = true) :
    (s.pullIfNeeded io).Inv := by
  refine h.pullIfNeeded_of fun r hr hkind => ?_
  rw [hr] at hsame
  simp only [agrees, decide_eq_true_eq] at hsame
  have hstat := hsame.2.resolve_left fun hdir => hkind (hsame.1 ▸ hdir)
  simp only [OnePath.pullFile, hl, if_pos hstat]
  split
  · exact h
  · split
    · exact h.of_view rfl rfl rfl rfl
    · exact h.pull

theorem Inv.arrive {src : Option Stat} (h : s.Inv)
    (hok : s.noteOk (.arrive src entry io)) : (s.arrive src entry io).Inv := by
  unfold noteOk at hok
  unfold OnePath.arrive
  split
  · next l =>
    split
    · next hdisk =>
      simp only [Option.isSome_some, hdisk, Bool.and_self, if_true] at hok
      have he : ({ s with here := some l }.expect (arrived l)).Inv := by
        refine inv_expect ?_
        cases hthere : s.there with
        | none => simp [hthere, agrees] at hok
        | some r => exact asExpected_arrived (hthere ▸ hok)
      split
      · exact he.of_view rfl rfl rfl rfl
      · exact he.pullSame rfl hok
    · next hdisk => exact h.pullIfNeeded (by simpa [hdisk] using hok)
  · exact h.pullIfNeeded (by simpa using hok)

theorem inv_pushNew (hlive : s.live = false) : (s.pushNew io).Inv := by
  unfold pushNew
  split
  · exact inv_pushDir hlive
  · exact inv_push hlive

theorem inv_renamedOnto {src : Option Stat} (hlive : s.live = false) :
    (s.renamedOnto src entry io).Inv := by
  unfold renamedOnto
  split
  · split
    · dsimp only
      split <;> exact inv_of_dead hlive rfl rfl
    · exact inv_pushNew hlive
  · exact inv_of_dead hlive rfl rfl

theorem inv_pushFile (hlive : s.live = false) : (s.pushFile l io).Inv := by
  have h : s.Inv := inv_of_dead hlive rfl rfl
  unfold pushFile
  split
  · split
    · split
      · exact h.of_view rfl rfl rfl rfl
      · exact h.resolveConflict (.inl hlive)
    · exact inv_push hlive
  · exact inv_push hlive

theorem inv_pushRemoved {b : SyncEntry} (hlive : s.live = false) : (s.pushRemoved b io).Inv := by
  have h : s.Inv := inv_of_dead hlive rfl rfl
  unfold pushRemoved
  split
  · exact h.of_view rfl rfl rfl rfl
  · split
    · exact h.pull
    · split
      · exact h
      · exact inv_of_dead hlive rfl rfl

theorem Inv.pushLocal {kind : WatchReport} (h : s.Inv)
    (hok : s.isOwnEcho = true ∨ s.live = false) : (s.pushLocal kind io).Inv := by
  unfold OnePath.pushLocal
  split
  · exact h
  · next hecho =>
    have hlive := dead_purged (hok.resolve_left hecho)
    have hdead : s.purged.Inv := inv_of_dead hlive rfl rfl
    dsimp only
    split
    · exact hdead
    · split
      · exact hdead
      · split
        · exact inv_pushDir hlive
        · exact inv_pushFile hlive
      · exact hdead
      · exact inv_pushRemoved hlive
      · exact inv_of_dead hlive rfl rfl

theorem Inv.step {l : OnePathStep} (h : s.Inv) (hok : s.noteOk l) (hs : s.step l = some s') :
    s'.Inv := by
  cases l <;> cases hs
  case tick ns =>
    intro hforeign e he hage
    exact h hforeign e he (by dsimp only at hage; omega)
  case user => exact h.of_view rfl rfl rfl rfl
  case others => exact fun hforeign => absurd hforeign (by simp)
  case rebase => exact h.of_view rfl rfl rfl rfl
  case pull => exact h.pull
  case push => exact inv_pushNew hok
  case pushedAbove => exact inv_of_dead hok rfl rfl
  case pullIfNeeded => exact h.pullIfNeeded hok
  case deleteLocal => exact h.deleteLocal hok
  case depart => exact h.depart hok
  case arrive => exact h.arrive hok
  case renamedOnto => exact inv_renamedOnto hok
  case report => exact h.pushLocal hok

/-- **Only echoes are dropped** in every run from a state without expectations in which nothing is
pushed while one is live, a removal that is applied finds the server without the path, and a rename
brings along what the server has. -/
theorem faithful_of_noteOk {s₀ : OnePath} (h₀ : s₀.expected = none)
    (hr : Reaches step noteOk s₀ s) :
    s.Faithful := by
  have hinv : s.Inv := by
    refine hr.invariant Inv ?_ fun _ _ _ h hok hs => h.step hok hs
    intro _ e he
    rw [h₀] at he
    cases he
  exact hinv.faithful

/-- A file that both sides have. -/
def synced : OnePath where
  policy := .newer
  now := 0
  here := some ⟨.file, 3, 5, 0⟩
  there := some ⟨.file, 3, 5, 1⟩
  base := some ⟨.file, 1, 3, 5⟩
  expected := none
  foreign := false

/-- Others write a new file, the engine takes it over, and the report of that is dropped. -/
theorem faithful_pulled : ∃ s, Reaches step noteOk synced s ∧
    (s.isOwnEcho = true ∧ s.here = some ⟨.file, 4, 9, 0⟩) ∧ s.Faithful := by
  obtain ⟨s, hr, hobs⟩ : ∃ s, Reaches step noteOk synced s ∧ _ :=
    exists_reaches_of_exec [.others (some ⟨.file, 4, 9, 2⟩), .pullIfNeeded .fine, .tick 1000000000]
      (fun s => (s.isOwnEcho, s.here)) (true, some ⟨.file, 4, 9, 0⟩) (by decide +kernel)
      (by decide +kernel)
  exact ⟨s, hr, by simpa using hobs, faithful_of_noteOk rfl hr⟩

/-- Others remove the file and the engine does so too.  The user makes it again, which is pushed,
and removes it within two seconds: that report is dropped, and the server keeps the file. -/
theorem not_faithful_recreated : ∃ s, Reaches step (fun _ _ => True) synced s ∧
    s.there = some ⟨.file, 1, 7, 1⟩ ∧ s.here = none ∧ ¬ s.Faithful :=
  exists_of_run [.others none, .deleteLocal .fine, .tick 500000000,
      .user (some ⟨.file, 1, 7, 0⟩), .report .changed .fine, .tick 500000000, .user none]
    (allowed_true _ _ _) (fun _ h => h) (by decide +kernel)

end OnePath

/-! ## The engine's own notes -/

/-- What the engine knows of one path, with what the server has there and the next reading of the
clock. -/
def SyncEngine.onePath {σ : Type} (s : SyncEngine σ) (rel : Text) (there : Option Stat) :
    OnePath where
  policy := s.policy
  now := s.env.instant s.ticks
  here := s.localStat rel
  there := there
  base := s.manifest.get rel
  expected := s.suppress.lookup rel
  foreign := false

/-- The engine drops a report exactly when it is an echo of the path's own note. -/
theorem SyncEngine.isOwnEcho_onePath {σ : Type} (s : SyncEngine σ) (rel : Text)
    (there : Option Stat) :
    ∃ s', SyncEngine.isOwnEcho rel s = .ok (s.onePath rel there).isOwnEcho s' := by
  have hrun : SyncEngine.isOwnEcho rel s = (match s.suppress.lookup rel with
      | none => (return false : EngineM σ Bool)
      | some entry => do
        let now ← instantNow
        if SUPPRESS_TTL < now - entry.at_ then
          modify fun s : SyncEngine σ => { s with suppress := s.suppress.erase rel }
          return false
        else return asExpected entry.expect (s.localStat rel)) s := rfl
  rw [hrun, OnePath.isOwnEcho]
  cases hl : s.suppress.lookup rel with
  | none =>
    rw [show (s.onePath rel there).expected = none from hl]
    exact ⟨_, rfl⟩
  | some e =>
    rw [show (s.onePath rel there).expected = some e from hl]
    dsimp only
    rw [Act.bind_of_ok (m := instantNow) (a := s.env.instant s.ticks)
      (t := { s with ticks := s.ticks + 1 }) rfl]
    by_cases hage : SUPPRESS_TTL < s.env.instant s.ticks - e.at_
    · rw [if_pos hage, if_pos (show SUPPRESS_TTL < (s.onePath rel there).now - e.at_ from hage)]
      exact ⟨_, rfl⟩
    · rw [if_neg hage, if_neg (show ¬ SUPPRESS_TTL < (s.onePath rel there).now - e.at_ from hage)]
      exact ⟨_, rfl⟩

end AlloyFs.Sync
