import AlloyFs.Agent.Confine
import AlloyFs.Agent.Http
import AlloyFs.Agent.Versions

/-!
# An export that is read-only

Every handler that changes the tree starts at a gate that an export with `read_only` does not let
through — except `open`, which looks at its flags: whatever asks for writing, truncating or
appending is refused, and what is left of it changes nothing.  So it does not matter which handles
the sessions hold: the export's tree stays as it is, over the wire and over HTTP.
-/

namespace AlloyFs

/-- What a tree shows: its entries, what is in the files with their modes and times, and what is
reported of directories and links. -/
def Fs.visible (fs : Fs) : PathMap Name Node × (ℕ → Inode) × (Loc → Stat) :=
  (fs.tree, fs.inodes, fs.statOf)

namespace Act

variable {ε σ τ α β : Type}

theorem fixes_refused {view : σ → τ} {m : EStateM ε σ α} {f : α → EStateM ε σ β}
    (h : ∀ s, ∃ e, m s = .error e s) : Fixes view (m >>= f) := by
  intro t s hs
  obtain ⟨e, he⟩ := h s
  rw [bind_of_error he]
  exact hs

end Act

namespace Ctx

open Act

variable {x : Export} {c d : Ctx} {req : Request} {fs : Fs}

/-- What the tree of the server shows. -/
def shown (c : Ctx) := c.fs.visible

section

variable (hx : x.readOnly = true)
include hx

/-- Of the calls that change a tree only `open` gets past the gate, and only for reading. -/
theorem FsRan.visible (h : FsRan x c req fs) : fs.visible = c.fs.visible := by
  cases h with
  | @openFile path flags full r _ hro hres hopen =>
    have htrunc : flags.truncate = false := by
      by_contra htr
      cases hx.symm.trans (hro (by simp [htr]))
    rw [htrunc] at hopen
    obtain ⟨-, -, rfl⟩ := Fs.openFile_ok hopen
    cases r.2 <;> rfl
  | read | readLink => rfl
  | create hro | write hro | setattr hro | mkdir hro | unlink hro | rmdir hro | rename hro
  | link hro | symlink hro => cases hx.symm.trans hro

theorem Ran.visible {r : Option Response} (h : Ran x c req r d) : d.shown = c.shown := by
  cases h with
  | touched h | changed h | renamed h => exact h.visible hx
  | @opened _ flags _ _ _ _ _ _ hro hres hopen =>
    have hvis := (FsRan.openFile hro hres hopen).visible hx
    cases flags.truncate <;> exact hvis
  | created _ hro | written _ hro => cases hx.symm.trans hro
  | _ => rfl

theorem Failed.visible (h : Failed x c req d) : d.shown = c.shown := by
  cases h with
  | openFile h | setattr h => exact h.visible hx
  | link hro => cases hx.symm.trans hro
  | _ => rfl

/-- **No request changes the tree of an export that is read-only.** -/
theorem fixes_handle (req : Request) : Fixes shown (handle x req) := by
  rintro _ c rfl
  exact (ran_handle x req c).conseq (fun _ h => h) (fun _ _ h => h.visible hx)
    (fun _ h => h.visible hx) c rfl

end

end Ctx

namespace Http

open Act

variable {x : Export} {name : Text} {path : RelPath} {α : Type}

/-- What the tree of the server shows. -/
def shown (a : Agent) := a.fs.visible

theorem refused_writableExport (hx : x.readOnly = true) (name : Text) (a : Agent) :
    ∃ e, writableExport x name a = .error e a := by
  unfold writableExport exportNamed
  rw [hx]
  by_cases hname : name = x.name
  · exact ⟨.forbidden, by rw [bind_of_ok (by rw [ensure_run, if_pos (by simpa using hname)])]; rfl⟩
  · exact ⟨.notFound, by rw [bind_of_error (by rw [ensure_run, if_neg (by simpa using hname)])]⟩

theorem ok_of_mapError {ε ε' : Type} {g : ε → ε'} {r : Except ε α} {a : α}
    (h : r.mapError g = .ok a) : r = .ok a := by
  cases r with
  | error e => cases h
  | ok b => simpa [Except.mapError] using h

theorem inert_exportNamed (name : Text) : Inert (exportNamed x name) := inert_ensure _ _

theorem inert_resolve (path : RelPath) : Inert (resolve x path) :=
  inert_get.bind fun _ => inert_orFail _

theorem fixes_fileGet : Fixes shown (fileGet x name path) := by
  refine (inert_exportNamed name).fixes.bind fun _ => (inert_resolve path).fixes.bind fun full =>
    Fixes.bind (fun t => Triple.lens (fun opened a fs' h ha => ?_) fun _ ha => ha) fun opened => ?_
  · refine Eq.trans ?_ ha
    obtain ⟨-, -, rfl⟩ := Fs.openFile_ok (ok_of_mapError h)
    cases opened.2 <;> rfl
  · split
    · exact inert_get.fixes.bind fun _ => fixes_pure _
    · exact fixes_throw _

/-- **No HTTP call changes the tree of an export that is read-only.** -/
theorem fixes_serve (hx : x.readOnly = true) (token authorization : Option Text) (req : HttpCall) :
    Fixes shown (serve x token authorization req) := by
  refine (inert_ensure _ _).fixes.bind fun _ => ?_
  cases req with
  | status | exports => exact inert_get.fixes.bind fun _ => fixes_pure _
  | browse name path =>
    exact (inert_exportNamed name).fixes.bind fun _ => (inert_resolve path).fixes.bind fun _ =>
      inert_get.fixes.bind fun _ => (inert_ensure _ _).fixes.bind fun _ => fixes_pure _
  | fileGet name path => exact fixes_fileGet
  | filePost name path body =>
    exact (inert_ensure _ _).fixes.bind fun _ => fixes_refused (refused_writableExport hx name)
  | mkdirPost name path => exact fixes_refused (refused_writableExport hx name)
  | deletePost name path => exact fixes_refused (refused_writableExport hx name)
  | eventsSse name lastEventId => exact (inert_exportNamed name).fixes.bind fun _ => fixes_pure _

end Http

/-! ## Runs -/

/-- What reaches the export from outside: what sessions do, and HTTP calls with their
`Authorization` header. -/
inductive FrontStep
  | wire (l : ServerStep)
  | http (authorization : Option Text) (req : HttpCall)

namespace Server

/-- Both surfaces of the agent; `token` is the one configured for HTTP. -/
def serve (x : Export) (token : Option Text) (s : Server) : FrontStep → Option Server
  | .wire l => s.step x l
  | .http authorization req =>
    some { s with agent := Act.final (Http.serve x token authorization req s.agent) }

variable {x : Export} {token : Option Text} {s s' : Server}

theorem visible_step (hx : x.readOnly = true) {l : ServerStep} (h : s.step x l = some s') :
    s'.agent.fs.visible = s.agent.fs.visible := by
  cases l with
  | connect | tick =>
    simp only [step, Option.some.injEq] at h
    subst h
    rfl
  | request session req =>
    simp only [step] at h
    cases hme : s.sessions session with
    | none => simp [hme] at h
    | some me =>
      simp only [hme, Option.some.injEq] at h
      subst h
      exact Act.Triple.final (Ctx.fixes_handle hx req _) rfl
  | expire session | disconnect session =>
    simp only [step] at h
    cases hme : s.sessions session with
    | none => simp [hme] at h
    | some me =>
      simp only [hme, Option.some.injEq] at h
      subst h
      exact congrArg Fs.visible (fs_forceRelease s me)

theorem visible_serve (hx : x.readOnly = true) {l : FrontStep} (h : s.serve x token l = some s') :
    s'.agent.fs.visible = s.agent.fs.visible := by
  cases l with
  | wire l => exact visible_step hx h
  | http authorization req =>
    simp only [serve, Option.some.injEq] at h
    subst h
    exact Act.Triple.final (Http.fixes_serve hx token authorization req _) rfl

/-- **A read-only export is never changed.**  Whatever the sessions hold at the start, after every
sequence of requests and HTTP calls the tree is what it was. -/
theorem visible_of_readOnly (hx : x.readOnly = true) (s : Server) (ls : List FrontStep)
    (h : exec (serve x token) s ls = some s') : s'.agent.fs.visible = s.agent.fs.visible := by
  induction ls generalizing s with
  | nil =>
    simp only [exec_nil, Option.some.injEq] at h
    rw [h]
  | cons l ls ih =>
    rw [exec_cons, Option.bind_eq_some_iff] at h
    obtain ⟨t, ht, hrest⟩ := h
    rw [ih t hrest, visible_serve hx ht]

/-- A server with one file `f` in its export. -/
def oneFile : Server :=
  ⟨.ofTree [([], .dir), ([['s', 'r', 'v']], .dir), ([['s', 'r', 'v'], ['f']], .file 0)] [[1, 2, 3]],
    fun _ => none, 1⟩

/-- A session opens the file for reading, writes through the handle it got and tries to truncate the
file; then HTTP calls try to overwrite and to delete it. -/
def attempts : List FrontStep :=
  [.wire (.connect none), .wire (.request 1 (.attach ['s', 'r', 'v'])),
    .wire (.request 1 (.openFile ⟨['f']⟩ { read := true })),
    .wire (.request 1 (.write 1 0 [9] none)),
    .wire (.request 1 (.openFile ⟨['f']⟩ { truncate := true })),
    .http none (.filePost ['s', 'r', 'v'] ⟨['f']⟩ [9]),
    .http none (.deletePost ['s', 'r', 'v'] ⟨['f']⟩)]

theorem visible_attempts : ∃ s,
    exec (serve { Export.srv with readOnly := true } none) oneFile attempts = some s ∧
      ((s.sessions 1).map fun me => me.handles.keys) = some [1] ∧
      s.agent.fs.visible = oneFile.agent.fs.visible := by
  have hrun : exec (serve { Export.srv with readOnly := true } none) oneFile attempts = some _ :=
    rfl
  exact ⟨_, hrun, by decide, visible_of_readOnly rfl oneFile attempts hrun⟩

end Server

end AlloyFs
