import AlloyFs.Agent.Confine
import AlloyFs.Agent.Versions

/-!
# Versioned writes that run at the same time

Every request runs in a task of its own.  A `Write` that carries an expected version looks at
the version of its path, writes to the file, and gives the path a new version; nothing keeps
other tasks out between these three steps.  `Ctx.write` is the three of them in a row
(`Ctx.write_eq`); here each is a step of its own, among the steps of other writes and
everything else the server does.

Of the writes that expect one version of one path at most one succeeds, as long as no write
passes its check while another one that expects the same is between its check and its new
version.  One that does succeeds as well.
-/

namespace AlloyFs

open Function

/-! ## The parts of a write -/

variable {x : Export}

namespace Ctx

open Act

/-- The checks of a write; the last one is on the version. -/
def writeCheck (x : Export) (fh : ℕ) (expectVersion : Option ℕ) : Handler OpenFile := do
  writableExport x
  let file ← handleOf fh
  ensure file.writable .badHandle
  let version ← versionOf file.path
  ensure (decide (expectVersion = none ∨ expectVersion = some version)) .conflict
  return file

def writeData (file : OpenFile) (offset : ℕ) (data : Bytes) : Handler Unit := do
  let c ← get
  modifyFile file.loc file.ino fun i =>
    { i with content := writeAt i.content offset data, mtime := c.fs.now }
  noteLocalWrite file.path

theorem write_eq (x : Export) (fh offset : ℕ) (data : Bytes) (expectVersion : Option ℕ) :
    write x fh offset data expectVersion = (do
      let file ← writeCheck x fh expectVersion
      writeData file offset data
      let newVersion ← bump file.path
      return .written data.length newVersion false) := by
  simp only [write, writeCheck, writeData, bind_assoc, pure_bind]

/-- What the checks of a write ask for, with the file they find. -/
def Accepts (x : Export) (c : Ctx) (fh : ℕ) (expectVersion : Option ℕ) (file : OpenFile) : Prop :=
  c.me.authed = true ∧ c.me.attached = true ∧ x.readOnly = false ∧
    c.me.handles.lookup fh = some file ∧ file.writable = true ∧
    (expectVersion = none ∨ expectVersion = some (c.books.versionOf file.path))
deriving Decidable

/-- The checks of a `Write` request: those of every request, then those of a write. -/
def requestCheck (x : Export) (fh : ℕ) (expectVersion : Option ℕ) : Handler OpenFile := do
  let c ← get
  ensure c.me.authed .authRequired
  writeCheck x fh expectVersion

theorem requestCheck_run {c : Ctx} (hauth : c.me.authed = true) (fh : ℕ)
    (expectVersion : Option ℕ) :
    requestCheck x fh expectVersion c = writeCheck x fh expectVersion c := by
  rw [requestCheck, get_bind,
    bind_of_ok ((ensure_eq_ok (u := ())).mpr ⟨hauth, rfl⟩)]

theorem requestCheck_eq_ok {c c' : Ctx} {fh : ℕ} {expectVersion : Option ℕ} {file : OpenFile} :
    requestCheck x fh expectVersion c = .ok file c' ↔
      Accepts x c fh expectVersion file ∧ c' = c := by
  constructor
  · intro h
    rw [requestCheck, get_bind] at h
    rw [bind_eq_ok] at h
    obtain ⟨_, _, hens, h⟩ := h
    obtain ⟨hauth, rfl⟩ := ensure_eq_ok.mp hens
    rw [writeCheck, bind_eq_ok] at h
    obtain ⟨_, _, hw, h⟩ := h
    obtain ⟨hatt, hro, rfl⟩ := writableExport_ok hw
    rw [bind_eq_ok] at h
    obtain ⟨f, _, hof, h⟩ := h
    obtain ⟨hfile, rfl⟩ := handleOf_eq_ok.mp hof
    rw [bind_eq_ok] at h
    obtain ⟨_, _, hens, h⟩ := h
    obtain ⟨hwr, rfl⟩ := ensure_eq_ok.mp hens
    rw [bind_eq_ok] at h
    obtain ⟨v, _, hv, h⟩ := h
    obtain ⟨rfl, rfl⟩ := pure_eq_ok.mp (show (pure _ : Handler ℕ) _ = _ from hv)
    rw [bind_eq_ok] at h
    obtain ⟨_, _, hens, h⟩ := h
    obtain ⟨hver, rfl⟩ := ensure_eq_ok.mp hens
    obtain ⟨rfl, rfl⟩ := pure_eq_ok.mp h
    exact ⟨⟨hauth, hatt, hro, hfile, hwr, of_decide_eq_true hver⟩, rfl⟩
  · rintro ⟨⟨hauth, hatt, hro, hfile, hwr, hver⟩, rfl⟩
    have hw : writableExport x c' = .ok () c' := by
      rw [writableExport_run, if_pos hatt, if_neg (by simp [hro])]
    rw [requestCheck_run hauth, writeCheck, bind_of_ok hw,
      bind_of_ok (handleOf_eq_ok.mpr ⟨hfile, rfl⟩),
      bind_of_ok ((ensure_eq_ok (u := ())).mpr ⟨hwr, rfl⟩),
      bind_of_ok (m := versionOf file.path) (a := c'.books.versionOf file.path) (t := c') rfl,
      bind_of_ok ((ensure_eq_ok (u := ())).mpr ⟨decide_eq_true hver, rfl⟩)]
    rfl

end Ctx

/-! ## Writes in flight -/

/-- How far the task of a `Write` has come.  After the check it holds on to the file, and of
its session it uses no more than the number. -/
inductive WritePhase
  | dispatched
  | checked (me : SessionInner) (file : OpenFile)
  | wrote (me : SessionInner) (file : OpenFile)
  /-- returned `Written` -/
  | written (file : OpenFile) (newVersion : ℕ)
  | failed (e : ErrorCode)

structure WriteCall where
  session : ℕ
  fh : ℕ
  offset : ℕ
  data : Bytes
  expectVersion : Option ℕ
  phase : WritePhase

namespace WriteCall

/-- The file of a write that passed its check. -/
def file? (call : WriteCall) : Option OpenFile :=
  match call.phase with
  | .checked _ file | .wrote _ file | .written file _ => some file
  | _ => none

/-- The write returned `Written`. -/
def isWritten (call : WriteCall) : Bool :=
  match call.phase with
  | .written _ _ => true
  | _ => false

/-- The path and the version on which a write passed its check. -/
def ticket (call : WriteCall) : Option (RelPath × ℕ) :=
  call.file?.bind fun file => call.expectVersion.map fun v => (file.path, v)

end WriteCall

/-- The server and its `Write` requests, those under way and those that have returned. -/
structure Writers where
  server : Server
  nextWrite : ℕ
  writes : ℕ → Option WriteCall

inductive WriteStep
  /-- anything but a `Write`; other requests are handled in one go -/
  | server (l : ServerStep)
  | publish (batch : List (RelPath × EventKind))
  | dispatch (session fh offset : ℕ) (data : Bytes) (expectVersion : Option ℕ)
  | check (id : ℕ)
  /-- the file is written, unless the disk fails -/
  | write (id : ℕ) (fault : Bool)
  | bump (id : ℕ)

/-- The step is a `Write` request in one go. -/
def ServerStep.isWrite : ServerStep → Bool
  | .request _ (.write _ _ _ _) => true
  | _ => false

namespace Writers

variable (x : Export)

def boot (fs : Fs) (space : Option (ℕ × ℕ × ℕ)) (clock : ℕ) : Writers :=
  ⟨.boot fs space clock, 0, fun _ => none⟩

/-- A write goes on to its next phase. -/
def proceed (w : Writers) (id : ℕ) (call : WriteCall) (phase : WritePhase) : Writers :=
  { w with writes := update w.writes id (some { call with phase := phase }) }

def withAgent (w : Writers) (agent : Agent) : Writers :=
  { w with server := { w.server with agent := agent } }

/-- The data of a write reaches its file. -/
def writeFile (w : Writers) (id : ℕ) (call : WriteCall) (me : SessionInner) (file : OpenFile) :
    Writers :=
  let c := Act.final (Ctx.writeData file call.offset call.data ⟨w.server.agent, me⟩)
  (w.withAgent c.toAgent).proceed id call (.wrote me file)

/-- Its path gets a new version, and the write returns. -/
def finish (w : Writers) (id : ℕ) (call : WriteCall) (me : SessionInner) (file : OpenFile) :
    Writers :=
  let c := Act.final (Ctx.bump file.path ⟨w.server.agent, me⟩)
  (w.withAgent c.toAgent).proceed id call (.written file c.vclock)

def step (w : Writers) : WriteStep → Option Writers
  | .server l =>
    if l.isWrite then none
    else (w.server.step x l).map fun s => { w with server := s }
  | .publish batch => some (w.withAgent (w.server.agent.publishBatch batch))
  | .dispatch session fh offset data expectVersion =>
    some { w with
      nextWrite := w.nextWrite + 1
      writes := update w.writes w.nextWrite
        (some ⟨session, fh, offset, data, expectVersion, .dispatched⟩) }
  | .check id =>
    match w.writes id with
    | some call =>
      match call.phase, w.server.sessions call.session with
      | .dispatched, some me =>
        match Ctx.requestCheck x call.fh call.expectVersion ⟨w.server.agent, me⟩ with
        | .ok file _ => some (w.proceed id call (.checked me file))
        | .error e _ => some (w.proceed id call (.failed e))
      -- the handles of a session that is gone are gone
      | .dispatched, none => some (w.proceed id call (.failed .badHandle))
      | _, _ => none
    | none => none
  | .write id fault =>
    match w.writes id with
    | some call =>
      match call.phase with
      | .checked me file =>
        if fault then some (w.proceed id call (.failed .io))
        else some (w.writeFile id call me file)
      | _ => none
    | none => none
  | .bump id =>
    match w.writes id with
    | some call =>
      match call.phase with
      | .wrote me file => some (w.finish id call me file)
      | _ => none
    | none => none

/-- **Of the writes that expect one version of one path, at most one has returned
`Written`.** -/
def OneWinner (w : Writers) : Prop :=
  ∀ id id' call call' path v, w.writes id = some call → w.writes id' = some call' →
    call.isWritten = true → call'.isWritten = true →
    call.ticket = some (path, v) → call'.ticket = some (path, v) → v ≠ 0 → id = id'

/-- A write that passed its check on this version of the path has yet to return. -/
def Pending (w : Writers) (path : RelPath) (v : ℕ) : Prop :=
  ∃ id < w.nextWrite, ∃ call ∈ w.writes id,
    call.ticket = some (path, v) ∧ call.isWritten = false

instance (w : Writers) (path : RelPath) (v : ℕ) : Decidable (w.Pending path v) :=
  inferInstanceAs (Decidable (∃ id < w.nextWrite, ∃ call ∈ w.writes id, _ ∧ _))

/-- The condition on the check of a write, in the state before it: if it passes on a version,
no other write that passed on the same version of the same path has yet to return. -/
def checkAlone (w : Writers) : WriteStep → Prop
  | .check id =>
    ∀ call ∈ w.writes id, ∀ me ∈ w.server.sessions call.session,
      ∀ file ∈ (me.handles.lookup call.fh : Option OpenFile), ∀ v ∈ call.expectVersion,
        Ctx.Accepts x ⟨w.server.agent, me⟩ call.fh call.expectVersion file → v ≠ 0 →
        ¬ w.Pending file.path v
  | _ => True

instance (w : Writers) : ∀ l, Decidable (w.checkAlone x l) := fun l => by
  unfold checkAlone
  split <;> infer_instance

end Writers

/-! ## What a step keeps -/

theorem Server.advance_step {s s' : Server} {l : ServerStep}
    (h : s.step x l = some s') : s.agent.books.Advance s'.agent.books := by
  have hfree : ∀ me, (s.forceRelease me).books = s.agent.books := by
    intro me
    rw [forceRelease]
    split <;> rfl
  cases l with
  | connect token =>
    cases h
    exact .refl _
  | request session req =>
    simp only [step] at h
    split at h
    · cases h
    · next me _ =>
      cases h
      exact Ctx.advance_handle x req ⟨s.agent, me⟩
  | expire session =>
    simp only [step] at h
    split at h
    · cases h
    · next me _ =>
      cases h
      exact (hfree me) ▸ .refl _
  | disconnect session =>
    simp only [step] at h
    split at h
    · cases h
    · next me _ =>
      cases h
      exact (hfree me) ▸ .refl _
  | tick now clock =>
    cases h
    exact .refl _

namespace Writers

/-- The versions of the export. -/
def books (w : Writers) : Books := w.server.agent.books

/-- What holds in every state of a run whose checks are alone. -/
structure Inv (w : Writers) : Prop where
  fresh : ∀ id call, w.writes id = some call → id < w.nextWrite
  bounded : ∀ q, w.books.versionOf q ≤ w.books.vclock
  /-- a version that was checked was given out -/
  old : ∀ id call path v, w.writes id = some call → call.ticket = some (path, v) → v ≠ 0 →
    v ≤ w.books.vclock
  /-- and is gone once its write has returned -/
  moved : ∀ id call path v, w.writes id = some call → call.ticket = some (path, v) → v ≠ 0 →
    call.isWritten = true → w.books.versionOf path ≠ v
  once : ∀ id id' call call' path v, w.writes id = some call → w.writes id' = some call' →
    call.ticket = some (path, v) → call'.ticket = some (path, v) → v ≠ 0 → id = id'

theorem inv_boot (fs : Fs) (space : Option (ℕ × ℕ × ℕ)) (clock : ℕ) :
    (boot fs space clock).Inv := by
  have hnone : ∀ id call, (boot fs space clock).writes id ≠ some call := fun _ _ h => by cases h
  refine ⟨fun id call h => ?_, fun q => ?_, fun id call _ _ h => ?_, fun id call _ _ h => ?_,
    fun id _ call _ _ _ h => ?_⟩
  · exact absurd h (hnone id call)
  · have hzero : (boot fs space clock).books.versionOf q = 0 := by
      rfl
    exact Nat.zero_le _
  · exact absurd h (hnone id call)
  · exact absurd h (hnone id call)
  · exact absurd h (hnone id call)

theorem Inv.oneWinner {w : Writers} (hi : w.Inv) : w.OneWinner :=
  fun id id' call call' path v h h' _ _ ht ht' hv => hi.once id id' call call' path v h h' ht ht' hv

section Steps

variable {x : Export} {w w' : Writers} {id : ℕ} {call : WriteCall}

theorem writes_proceed_self (phase : WritePhase) :
    (w.proceed id call phase).writes id = some { call with phase := phase } :=
  update_self ..

theorem writes_proceed_of_ne {id' : ℕ} (hne : id' ≠ id) (phase : WritePhase) :
    (w.proceed id call phase).writes id' = w.writes id' :=
  update_of_ne hne ..

theorem Inv.of_advance (hi : w.Inv) (hw : w'.writes = w.writes) (hn : w'.nextWrite = w.nextWrite)
    (hadv : w.books.Advance w'.books) : w'.Inv where
  fresh := by
    rw [hw, hn]
    exact hi.fresh
  bounded := hadv.bounded hi.bounded
  old := by
    rw [hw]
    exact fun id call path v h ht hv => (hi.old id call path v h ht hv).trans hadv.clock
  moved := by
    rw [hw]
    exact fun id call path v h ht hv hwr =>
      hadv.ne_of_ne hv (hi.old id call path v h ht hv) (hi.moved id call path v h ht hv hwr)
  once := by
    rw [hw]
    exact hi.once

theorem Inv.proceed (hi : w.Inv) (hcall : w.writes id = some call) (phase : WritePhase)
    (ht : ∀ path v, WriteCall.ticket { call with phase := phase } = some (path, v) → v ≠ 0 →
      v ≤ w.books.vclock ∧
      (∀ id' call', w.writes id' = some call' → call'.ticket = some (path, v) → id' = id) ∧
      (WriteCall.isWritten { call with phase := phase } = true → w.books.versionOf path ≠ v)) :
    (w.proceed id call phase).Inv := by
  -- a write of the next state is this one or one of before
  have hcases : ∀ id' call', (w.proceed id call phase).writes id' = some call' →
      (id' = id ∧ call' = { call with phase := phase }) ∨
      (id' ≠ id ∧ w.writes id' = some call') := by
    intro id' call' h
    by_cases hne : id' = id
    · subst hne
      rw [writes_proceed_self] at h
      exact .inl ⟨rfl, (Option.some.inj h).symm⟩
    · rw [writes_proceed_of_ne hne] at h
      exact .inr ⟨hne, h⟩
  refine ⟨fun id' call' h => ?_, hi.bounded, fun id' call' path v h htk hv => ?_,
    fun id' call' path v h htk hv hwr => ?_, fun id₁ id₂ call₁ call₂ path v h₁ h₂ ht₁ ht₂ hv => ?_⟩
  · rcases hcases id' call' h with ⟨rfl, -⟩ | ⟨-, h⟩
    · exact hi.fresh id' call hcall
    · exact hi.fresh id' call' h
  · rcases hcases id' call' h with ⟨rfl, rfl⟩ | ⟨-, h⟩
    · exact (ht path v htk hv).1
    · exact hi.old id' call' path v h htk hv
  · rcases hcases id' call' h with ⟨rfl, rfl⟩ | ⟨-, h⟩
    · exact (ht path v htk hv).2.2 hwr
    · exact hi.moved id' call' path v h htk hv hwr
  · rcases hcases id₁ call₁ h₁ with ⟨rfl, rfl⟩ | ⟨-, hw₁⟩
    · rcases hcases id₂ call₂ h₂ with ⟨rfl, rfl⟩ | ⟨-, h₂⟩
      · rfl
      · exact ((ht path v ht₁ hv).2.1 id₂ call₂ h₂ ht₂).symm
    · rcases hcases id₂ call₂ h₂ with ⟨rfl, rfl⟩ | ⟨-, h₂⟩
      · exact (ht path v ht₂ hv).2.1 id₁ call₁ hw₁ ht₁
      · exact hi.once id₁ id₂ call₁ call₂ path v hw₁ h₂ ht₁ ht₂ hv

theorem step_check (h : w.step x (.check id) = some w') :
    ∃ call, w.writes id = some call ∧ call.phase = .dispatched ∧
      ((∃ e, w' = w.proceed id call (.failed e)) ∨
        ∃ me file, w.server.sessions call.session = some me ∧
          Ctx.Accepts x ⟨w.server.agent, me⟩ call.fh call.expectVersion file ∧
          w' = w.proceed id call (.checked me file)) := by
  simp only [step] at h
  split at h
  · next call hcall =>
    refine ⟨call, hcall, ?_⟩
    split at h
    · next me hphase hme =>
      refine ⟨hphase, ?_⟩
      split at h
      · next file c' hcheck =>
        cases h
        exact .inr ⟨me, file, hme, (Ctx.requestCheck_eq_ok.mp hcheck).1, rfl⟩
      · next e c' _ =>
        cases h
        exact .inl ⟨e, rfl⟩
    · next hphase _ =>
      cases h
      exact ⟨hphase, .inl ⟨_, rfl⟩⟩
    · cases h
  · cases h

theorem inv_check (hi : w.Inv) (hok : w.checkAlone x (.check id))
    (h : w.step x (.check id) = some w') : w'.Inv := by
  obtain ⟨call, hcall, -, ⟨e, rfl⟩ | ⟨me, file, hme, hacc, rfl⟩⟩ := step_check h
  · exact hi.proceed hcall _ fun path v ht => by cases ht
  · refine hi.proceed hcall _ fun path v ht hv => ?_
    obtain ⟨v', hexp, heq⟩ := Option.map_eq_some_iff.mp
      (show call.expectVersion.map (fun v => (file.path, v)) = some (path, v) from ht)
    cases heq
    have hver : v = w.books.versionOf file.path := by
      rcases hacc.2.2.2.2.2 with hnone | hsome
      · rw [hnone] at hexp
        cases hexp
      · rw [hsome] at hexp
        exact (Option.some.inj hexp).symm
    refine ⟨hver ▸ hi.bounded file.path, fun id' call' h' ht' => ?_, nofun⟩
    -- another write on this version has returned, and the version is gone, or has not yet
    cases hwr : call'.isWritten with
    | true => exact absurd hver.symm (hi.moved id' call' _ v h' ht' hv hwr)
    | false =>
      exact absurd ⟨id', hi.fresh id' call' h', call', h', ht', hwr⟩
        (hok call hcall me hme file hacc.2.2.2.1 v hexp hacc hv)

theorem step_write {fault : Bool} (h : w.step x (.write id fault) = some w') :
    ∃ call me file, w.writes id = some call ∧ call.phase = .checked me file ∧
      (w' = w.proceed id call (.failed .io) ∨
        w' = w.writeFile id call me file) := by
  simp only [step] at h
  split at h
  · next call hcall =>
    split at h
    · next me file hphase =>
      refine ⟨call, me, file, hcall, hphase, ?_⟩
      split at h
      · exact .inl (Option.some.inj h).symm
      · exact .inr (Option.some.inj h).symm
    · cases h
  · cases h

theorem step_bump (h : w.step x (.bump id) = some w') :
    ∃ call me file, w.writes id = some call ∧ call.phase = .wrote me file ∧
      w' = w.finish id call me file := by
  simp only [step] at h
  split at h
  · next call hcall =>
    split at h
    · next me file hphase => exact ⟨call, me, file, hcall, hphase, (Option.some.inj h).symm⟩
    · cases h
  · cases h

theorem ticket_of_file {phase : WritePhase} {file : OpenFile} (hfile : call.file? = some file)
    (h : WriteCall.file? { call with phase := phase } = some file) :
    WriteCall.ticket { call with phase := phase } = call.ticket := by
  rw [WriteCall.ticket, WriteCall.ticket, hfile, h]

theorem inv_write (hi : w.Inv) {fault : Bool} (h : w.step x (.write id fault) = some w') :
    w'.Inv := by
  obtain ⟨call, me, file, hcall, hphase, rfl | rfl⟩ := step_write h
  · exact hi.proceed hcall _ fun path v ht => by cases ht
  · have hfile : call.file? = some file := by rw [WriteCall.file?, hphase]
    have hi' : (w.withAgent (Act.final (Ctx.writeData file call.offset call.data
        ⟨w.server.agent, me⟩)).toAgent).Inv := hi.of_advance rfl rfl (.refl _)
    refine hi'.proceed hcall _ fun path v ht hv => ?_
    rw [ticket_of_file hfile rfl] at ht
    exact ⟨hi.old id call path v hcall ht hv,
      fun id' call' h' ht' => hi.once id' id call' call path v h' hcall ht' ht hv, nofun⟩

theorem inv_bump (hi : w.Inv) (h : w.step x (.bump id) = some w') : w'.Inv := by
  obtain ⟨call, me, file, hcall, hphase, rfl⟩ := step_bump h
  have hfile : call.file? = some file := by rw [WriteCall.file?, hphase]
  have hi' : (w.withAgent (Act.final (Ctx.bump file.path ⟨w.server.agent, me⟩)).toAgent).Inv :=
    hi.of_advance rfl rfl (Books.advance_bump w.books file.path)
  refine hi'.proceed hcall _ fun path v ht hv => ?_
  rw [ticket_of_file hfile rfl] at ht
  refine ⟨hi'.old id call path v hcall ht hv,
    fun id' call' h' ht' => hi.once id' id call' call path v h' hcall ht' ht hv, fun _ => ?_⟩
  -- the path has a version that was not given out before
  have hle := hi.old id call path v hcall ht hv
  have hpath : path = file.path := by
    rw [WriteCall.ticket, hfile, Option.bind_some, Option.map_eq_some_iff] at ht
    obtain ⟨_, _, heq⟩ := ht
    cases heq
    rfl
  have hnew :
      (w.withAgent (Act.final (Ctx.bump file.path ⟨w.server.agent, me⟩)).toAgent).books.versionOf
      path = w.books.vclock + 1 := by
    rw [hpath]
    exact Books.versionOf_bump_self (b := w.books)
  omega

theorem inv_step (hi : w.Inv) {l : WriteStep} (hok : w.checkAlone x l) (h : w.step x l = some w') :
    w'.Inv := by
  cases l with
  | server l =>
    simp only [step] at h
    split at h
    · cases h
    · obtain ⟨s, hs, rfl⟩ := Option.map_eq_some_iff.mp h
      exact hi.of_advance rfl rfl (Server.advance_step hs)
  | publish batch =>
    cases h
    exact hi.of_advance rfl rfl (w.server.agent.advance_publishBatch batch)
  | dispatch session fh offset data expectVersion =>
    cases h
    have hcases : ∀ id' call', update w.writes w.nextWrite
        (some ⟨session, fh, offset, data, expectVersion, .dispatched⟩) id' = some call' →
        (id' = w.nextWrite ∧ call'.ticket = none) ∨ w.writes id' = some call' := by
      intro id' call' h
      by_cases hne : id' = w.nextWrite
      · rw [hne, update_self] at h
        cases h
        exact .inl ⟨hne, rfl⟩
      · rw [update_of_ne hne] at h
        exact .inr h
    have hticket : ∀ id' call' path v, update w.writes w.nextWrite
        (some ⟨session, fh, offset, data, expectVersion, .dispatched⟩) id' = some call' →
        call'.ticket = some (path, v) → w.writes id' = some call' := by
      intro id' call' path v h ht
      rcases hcases id' call' h with ⟨-, hnone⟩ | h
      · rw [hnone] at ht
        cases ht
      · exact h
    exact
      { fresh := fun id' call' h => by
          rcases hcases id' call' h with ⟨rfl, -⟩ | h
          · exact Nat.lt_succ_self _
          · exact Nat.lt_succ_of_lt (hi.fresh id' call' h)
        bounded := hi.bounded
        old := fun id' call' path v h ht => hi.old id' call' path v (hticket _ _ _ _ h ht) ht
        moved := fun id' call' path v h ht => hi.moved id' call' path v (hticket _ _ _ _ h ht) ht
        once := fun id₁ id₂ call₁ call₂ path v h₁ h₂ ht₁ ht₂ =>
          hi.once id₁ id₂ call₁ call₂ path v (hticket _ _ _ _ h₁ ht₁) (hticket _ _ _ _ h₂ ht₂)
            ht₁ ht₂ }
  | check id => exact inv_check hi hok h
  | write id fault => exact inv_write hi h
  | bump id => exact inv_bump hi h

/-! ## A check that is not alone -/

theorem exists_written (x : Export) {t : RelPath × ℕ} (hcall : w.writes id = some call)
    (ht : call.ticket = some t) (hwr : call.isWritten = false) :
    ∃ w', Reaches (step x) (fun _ _ => True) w w' ∧
      (∃ call', w'.writes id = some call' ∧ call'.isWritten = true ∧ call'.ticket = some t) ∧
      ∀ id', id' ≠ id → w'.writes id' = w.writes id' := by
  have hbump : ∀ (w : Writers) (call : WriteCall) me file, w.writes id = some call →
      call.phase = .wrote me file → call.ticket = some t →
      ∃ w', w.step x (.bump id) = some w' ∧
        (∃ call', w'.writes id = some call' ∧ call'.isWritten = true ∧ call'.ticket = some t) ∧
        ∀ id', id' ≠ id → w'.writes id' = w.writes id' := by
    intro w call me file hcall hphase ht
    have hfile : call.file? = some file := by rw [WriteCall.file?, hphase]
    have hs : w.step x (.bump id) = some (w.finish id call me file) := by
      simp only [step, hcall, hphase]
    refine ⟨_, hs, ⟨_, writes_proceed_self _, rfl, ?_⟩,
      fun id' hne => writes_proceed_of_ne hne _⟩
    rw [ticket_of_file hfile rfl]
    exact ht
  cases hphase : call.phase with
  | wrote me file =>
    obtain ⟨w', hs, hw', hother⟩ := hbump w call me file hcall hphase ht
    exact ⟨w', .tail .refl trivial hs, hw', hother⟩
  | checked me file =>
    have hfile : call.file? = some file := by rw [WriteCall.file?, hphase]
    have hs : w.step x (.write id false) = some (w.writeFile id call me file) := by
      simp only [step, hcall, hphase]
      rfl
    obtain ⟨w', hs', hw', hother⟩ := hbump (w.writeFile id call me file)
      { call with phase := .wrote me file } me file (writes_proceed_self _) rfl
      (by rw [ticket_of_file hfile rfl]; exact ht)
    refine ⟨w', .tail (.tail .refl trivial hs) trivial hs', hw', fun id' hne => ?_⟩
    rw [hother id' hne]
    exact writes_proceed_of_ne hne _
  | dispatched =>
    rw [WriteCall.ticket, WriteCall.file?, hphase] at ht
    cases ht
  | written file v =>
    rw [WriteCall.isWritten, hphase] at hwr
    cases hwr
  | failed e =>
    rw [WriteCall.ticket, WriteCall.file?, hphase] at ht
    cases ht

theorem two_winners {l : WriteStep} (hok : ¬ w.checkAlone x l) (h : w.step x l = some w') :
    ∃ w'', Reaches (step x) (fun _ _ => True) w' w'' ∧ ¬ w''.OneWinner := by
  cases l with
  | check id =>
    simp only [checkAlone, not_forall, not_not] at hok
    obtain ⟨call, hcall, me, hme, file, hfile, v, hv, hacc, hv0, id₂, -, call₂, hcall₂, ht₂,
        hwr₂⟩ :=
      hok
    obtain ⟨call', hcall', hphase, hcases⟩ := step_check h
    obtain rfl := Option.some.inj (hcall.symm.trans hcall')
    have hne : id₂ ≠ id := by
      rintro rfl
      obtain rfl := Option.some.inj (hcall.symm.trans hcall₂)
      rw [WriteCall.ticket, WriteCall.file?, hphase] at ht₂
      cases ht₂
    -- the check passes, so both writes are past it with the same ticket
    have hw' : w' = w.proceed id call (.checked me file) := by
      have hme' : w.server.sessions call.session = some me := hme
      have hs : w.step x (.check id) = some (w.proceed id call (.checked me file)) := by
        simp only [step, hcall', hphase, hme', Ctx.requestCheck_eq_ok.mpr ⟨hacc, rfl⟩]
      exact Option.some.inj (h.symm.trans hs)
    subst hw'
    have ht : WriteCall.ticket { call with phase := .checked me file } = some (file.path, v) := by
      exact Option.map_eq_some_iff.mpr ⟨v, hv, rfl⟩
    obtain ⟨w₁, hr₁, ⟨call₁, hcall₁, hwr₁, ht₁⟩, hother₁⟩ :=
      exists_written x (writes_proceed_self _) ht rfl
    have hcall₂' : w₁.writes id₂ = some call₂ := by
      rw [hother₁ id₂ hne]
      exact (writes_proceed_of_ne hne _).trans hcall₂
    obtain ⟨w₂, hr₂, ⟨call₃, hcall₃, hwr₃, ht₃⟩, hother₂⟩ := exists_written x hcall₂' ht₂ hwr₂
    refine ⟨w₂, hr₁.trans hr₂, fun hone => hne ?_⟩
    exact hone id₂ id call₃ call₁ file.path v hcall₃ (by rw [hother₂ id hne.symm, hcall₁]) hwr₃
      hwr₁ ht₃ ht₁ hv0
  | _ => exact absurd trivial hok

end Steps

/-- **At most one write wins, exactly in the runs whose checks are alone.**  In every state
that such a run reaches, of the writes that expect one version of one path at most one has
returned `Written`; and once such a run takes a check outside the condition, two of them can
return it. -/
theorem oneWinner_iff_checkAlone {x : Export} {fs : Fs} {space : Option (ℕ × ℕ × ℕ)} {clock : ℕ}
    {w : Writers} (hw : Reaches (step x) (checkAlone x) (boot fs space clock) w) :
    w.OneWinner ∧ ∀ l w', ¬ w.checkAlone x l → w.step x l = some w' →
      ∃ w'', Reaches (step x) (fun _ _ => True) w' w'' ∧ ¬ w''.OneWinner := by
  have hi : w.Inv := hw.invariant Inv (inv_boot fs space clock)
    fun _ _ _ hi hok hs => inv_step hi hok hs
  exact ⟨hi.oneWinner, fun l w' hok hs => two_winners hok hs⟩

/-- The file system of a server whose export is empty. -/
def emptyFs : Fs := (Agent.ofTree [([], .dir), ([['s', 'r', 'v']], .dir)] []).fs

/-- A client creates a file, another one opens it, and each sends a write on the version both
of them saw. -/
def twoWriters : List WriteStep :=
  [.server (.connect none), .server (.request 1 (.attach ['s', 'r', 'v'])),
    .server (.connect none), .server (.request 2 (.attach ['s', 'r', 'v'])),
    .server (.request 1 (.create ⟨['a']⟩ { write := true } 0o644)),
    .server (.request 2 (.openFile ⟨['a']⟩ { write := true })),
    .dispatch 1 1 0 [1] (some 1), .dispatch 2 1 0 [2] (some 1)]

/-- How the two writes stand. -/
def outcomes (w : Writers) : List (Option (Bool × Option (RelPath × ℕ))) :=
  [0, 1].map fun id => (w.writes id).map fun call => (call.isWritten, call.ticket)

/-- One after the other: the second one is refused. -/
theorem oneWinner_twoWriters :
    ∃ w : Writers, w.outcomes = [some (true, some (⟨['a']⟩, 1)), some (false, none)] ∧
      w.OneWinner := by
  have hallowed : Allowed (step .srv) (checkAlone .srv) (boot emptyFs none 0)
      (twoWriters ++ [.check 0, .write 0 false, .bump 0, .check 1]) := by decide +kernel
  obtain ⟨w, hw, hobs⟩ := exists_reaches_of_exec _ outcomes
    [some (true, some (⟨['a']⟩, 1)), some (false, none)] hallowed (by decide +kernel)
  exact ⟨w, hobs, (oneWinner_iff_checkAlone hw).1⟩

/-- Both pass their check before either of them makes a new version, and both succeed. -/
theorem two_writes_win :
    ∃ w, Reaches (step .srv) (fun _ _ => True) (boot emptyFs none 0) w ∧ ¬ w.OneWinner := by
  obtain ⟨w, hw, hobs⟩ := exists_reaches_of_exec
    (twoWriters ++ [.check 0, .check 1, .write 0 false, .bump 0, .write 1 false, .bump 1]) outcomes
    [some (true, some (⟨['a']⟩, 1)), some (true, some (⟨['a']⟩, 1))]
    (allowed_true (step .srv) _ (boot emptyFs none 0)) (by decide +kernel)
  simp only [outcomes, List.map_cons, List.map_nil, List.cons.injEq, Option.map_eq_some_iff,
    Prod.mk.injEq, and_true] at hobs
  obtain ⟨⟨call, hcall, hwr, ht⟩, call', hcall', hwr', ht'⟩ := hobs
  refine ⟨w, hw, fun hone => ?_⟩
  cases hone 0 1 call call' ⟨['a']⟩ 1 hcall hcall' hwr hwr' ht ht' (by decide)

/-! ## Versions are not reused -/

variable {x : Export} {w w' : Writers}

theorem advance_step {l : WriteStep} (h : w.step x l = some w') : w.books.Advance w'.books := by
  cases l with
  | server l =>
    simp only [step] at h
    split at h
    · cases h
    · obtain ⟨s, hs, rfl⟩ := Option.map_eq_some_iff.mp h
      exact Server.advance_step hs
  | publish batch =>
    cases h
    exact w.server.agent.advance_publishBatch batch
  | dispatch =>
    cases h
    exact .refl _
  | check id =>
    obtain ⟨call, -, -, ⟨e, rfl⟩ | ⟨me, file, -, -, rfl⟩⟩ := step_check h <;> exact .refl _
  | write id fault =>
    obtain ⟨call, me, file, -, -, rfl | rfl⟩ := step_write h <;> exact .refl _
  | bump id =>
    obtain ⟨call, me, file, -, -, rfl⟩ := step_bump h
    exact Books.advance_bump w.books file.path

/-- **A version that a path has lost never comes back**, however writes, other requests and the
watcher interleave: a path that shows a version at two moments has had it all the time between. -/
theorem version_of_between {fs : Fs} {space : Option (ℕ × ℕ × ℕ)} {clock v : ℕ} {w'' : Writers}
    (h : Reaches (step x) (fun _ _ => True) (boot fs space clock) w)
    (h' : Reaches (step x) (fun _ _ => True) w w')
    (h'' : Reaches (step x) (fun _ _ => True) w' w'') {q : RelPath} (hv : v ≠ 0)
    (hfirst : w.books.versionOf q = v) (hlast : w''.books.versionOf q = v) :
    w'.books.versionOf q = v := by
  have hadv {w w' : Writers} (h : Reaches (step x) (fun _ _ => True) w w') :
      w.books.Advance w'.books :=
    h.invariant (fun w' => w.books.Advance w'.books) (.refl _) fun _ _ _ ha _ hs =>
      ha.trans (advance_step hs)
  have hle : v ≤ w.books.vclock := hfirst ▸ (hadv h).bounded (inv_boot fs space clock).bounded q
  by_contra hne
  exact (hadv h'').ne_of_ne hv (hle.trans (hadv h').clock) hne hlast

theorem version_of_beside : ∃ w w' : Writers, w.books.versionOf ⟨['a']⟩ = 1 ∧
    w.books.versionOf ⟨['b']⟩ = 0 ∧ w'.books.versionOf ⟨['b']⟩ = 2 ∧
    w'.books.versionOf ⟨['a']⟩ = 1 := by
  let make : List WriteStep := [.server (.request 1 (.create ⟨['b']⟩ { write := true } 0o644))]
  let fill : List WriteStep := [.dispatch 1 2 0 [7] none, .check 2, .write 2 false, .bump 2]
  obtain ⟨w, hw, ⟨ha, hb⟩, hmake⟩ :
      ∃ w, Reaches (step .srv) (fun _ _ => True) (boot emptyFs none 0) w ∧
        (w.books.versionOf ⟨['a']⟩ = 1 ∧ w.books.versionOf ⟨['b']⟩ = 0) ∧
        (exec (step .srv) w make).any (fun w' => decide (w'.books.versionOf ⟨['b']⟩ = 2 ∧
          (exec (step .srv) w' fill).any (fun w'' => decide (w''.books.versionOf ⟨['a']⟩ = 1 ∧
            w''.books.versionOf ⟨['b']⟩ = 3)) = true)) = true :=
    exists_of_run twoWriters (allowed_true _ _ _) (fun _ h => h) (by decide +kernel)
  obtain ⟨w', hw', hb', hfill⟩ := exists_of_run make (allowed_true _ _ _) (fun _ h => h) hmake
  obtain ⟨w'', hw'', ha'', -⟩ := exists_of_run fill (allowed_true _ _ _) (fun _ h => h) hfill
  exact ⟨w, w', ha, hb, hb', version_of_between hw hw' hw'' (by decide) ha ha''⟩

end Writers
end AlloyFs
