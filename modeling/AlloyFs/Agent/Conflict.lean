import AlloyFs.Agent.Edits

/-!
# Writing over what one has not seen

A client learns a version when it opens or creates a file and each time it writes, and sends
it with its next write.  The write should succeed only if no other session has changed the
file since the version was reported.

The server compares the version of the handle's path.  A change that came by another path
leaves that version alone.  So the promise is kept as long as every change of a file comes by
the path of each writable handle of another session whose version is current; the first one
that does not leaves a handle that can overwrite it.
-/

namespace AlloyFs

open Function

/-- The handle and the version that an answer reports to a session. -/
def report : Request → Response → Option (ℕ × ℕ)
  | .openFile _ _, .opened fh attr => some (fh, attr.version)
  | .create _ _ _, .opened fh attr => some (fh, attr.version)
  | .write fh _ _ _, .written _ newVersion _ => some (fh, newVersion)
  | _, _ => none

/-- A server, and for the handles of each session the version last reported and whether
another session has changed the file since. -/
structure Tracked where
  server : Server
  reported : ℕ → ℕ → Option (ℕ × Bool)

namespace Tracked

variable (x : Export)

def boot (fs : Fs) (space : Option (ℕ × ℕ × ℕ)) (clock : ℕ) : Tracked :=
  ⟨.boot fs space clock, fun _ _ => none⟩

/-- The file behind a handle differs. -/
def changed (before after : Fs) (me : SessionInner) (fh : ℕ) : Bool :=
  match (me.handles.lookup fh : Option OpenFile) with
  | some f => decide (after.content f.ino ≠ before.content f.ino)
  | none => false

/-- What is known of a handle after a request of `session` has succeeded. -/
def note (t : Tracked) (session : ℕ) (req : Request) (r : Option Response) (fs : Fs) (s fh : ℕ) :
    Option (ℕ × Bool) :=
  if s = session then
    match r.bind (report req) with
    | some (fh', v) => if fh = fh' then some (v, false) else t.reported s fh
    | none => t.reported s fh
  else
    match t.server.sessions s with
    | some me =>
      if changed t.server.agent.fs fs me fh then
        (t.reported s fh).map fun known => (known.1, true)
      else t.reported s fh
    | none => t.reported s fh

def step (t : Tracked) (l : ServerStep) : Option Tracked :=
  match t.server.step x l with
  | none => none
  | some server =>
    match l with
    | .request session req =>
      match t.server.sessions session with
      | none => none
      | some me =>
        match Ctx.handle x req ⟨t.server.agent, me⟩ with
        | .ok r c => some ⟨server, t.note session req r c.fs⟩
        | .error _ _ => some ⟨server, t.reported⟩
    | _ => some ⟨server, t.reported⟩

/-- **A write on the version last reported succeeds only if no other session has changed the
file since.** -/
def Sound (t : Tracked) : Prop :=
  ∀ session me fh offset data v seen n newVersion conflict c', v ≠ 0 →
    t.server.sessions session = some me → t.reported session fh = some (v, seen) →
    Ctx.handle x (.write fh offset data (some v)) ⟨t.server.agent, me⟩ =
      .ok (some (.written n newVersion conflict)) c' → seen = false

/-- The versions of the export. -/
def books (t : Tracked) : Books := t.server.agent.books

/-- The change comes by the path of each writable handle that this session has on the file
and whose reported version is current. -/
def Agrees (t : Tracked) (s : ℕ) (me : SessionInner) (e : Edit) : Prop :=
  ∀ fh ∈ me.handles.keys, ∀ f ∈ (me.handles.lookup fh : Option OpenFile),
    ∀ known ∈ t.reported s fh, f.ino = e.ino ∧ f.writable = true ∧ known.1 ≠ 0 ∧
      t.books.versionOf f.path = known.1 → f.path = e.key
deriving Decidable

/-- The condition on a request, in the state before it: if it is going to change a file, the
change comes by the path that every other session knows the file under. -/
def keyOk (t : Tracked) : ServerStep → Prop
  | .request session req =>
    ∀ me ∈ t.server.sessions session, ∀ e ∈ Ctx.edit x ⟨t.server.agent, me⟩ req,
      e.content ≠ t.server.agent.fs.content e.ino →
      ∀ s < t.server.nextSession, s ≠ session → ∀ me' ∈ t.server.sessions s, t.Agrees s me' e
  | _ => True

instance (t : Tracked) : ∀ l, Decidable (t.keyOk x l) := fun l => by
  unfold keyOk
  split <;> infer_instance

end Tracked

/-! ## Reports -/

variable {r : Option Response}

namespace Ctx

open Act

section Report

variable {x : Export}

theorem report_le {req : Request} {c c' : Ctx} {fh v : ℕ}
    (hb : ∀ q, c.books.versionOf q ≤ c.books.vclock) (hrun : handle x req c = .ok r c')
    (hrep : r.bind (report req) = some (fh, v)) : v ≤ c'.books.vclock := by
  obtain ⟨r, rfl, hrep⟩ := Option.bind_eq_some_iff.mp hrep
  cases ran_of_ok hrun with
  | @opened path flags _ _ _ _ _ _ _ _ _ hattr =>
    cases hrep
    rw [hattr]
    cases flags.truncate with
    | true => exact le_rfl
    | false => exact hb path
  | created _ _ _ _ hattr =>
    cases hrep
    exact hattr.le
  | written =>
    cases hrep
    exact le_rfl
  | looked h => cases req <;> first | cases hrep | cases h
  | touched _ hreq => rcases hreq with ⟨_, _, _, rfl⟩ | ⟨_, rfl⟩ <;> cases hrep
  | changed _ _ hreq => cases req <;> first | cases hrep | cases hreq
  | _ => cases hrep

theorem accepts_of_handle {c c' : Ctx} {fh offset : ℕ} {data : Bytes} {expectVersion : Option ℕ}
    (h : handle x (.write fh offset data expectVersion) c = .ok r c') :
    ∃ file, Accepts x c fh expectVersion file := by
  cases ran_of_ok h with
  | @written _ _ _ _ file hon hro hfile hwrite hversion =>
    exact ⟨file, hon.1, hon.2, hro, hfile, hwrite, hversion⟩
  | looked hreq => cases hreq
  | touched _ hreq => simp at hreq
  | changed _ _ hreq => cases hreq

end Report
end Ctx

/-! ## What a request keeps -/

namespace Tracked

/-- What holds in every state of a run in which changes come by known paths. -/
structure Inv (t : Tracked) : Prop where
  sessions : ∀ id me, t.server.sessions id = some me → id < t.server.nextSession
  inodes : t.server.agent.fs.HasInodes
  handles : ∀ id me fh (f : OpenFile), t.server.sessions id = some me →
    me.handles.lookup fh = some f →
    f.ino < t.server.agent.fs.nextIno ∧ me.authed = true ∧ me.attached = true
  bounded : ∀ q, t.books.versionOf q ≤ t.books.vclock
  old : ∀ s fh v seen, t.reported s fh = some (v, seen) → v ≤ t.books.vclock
  /-- a version is gone once the file has changed -/
  stale : ∀ id me fh (f : OpenFile) v, t.server.sessions id = some me →
    me.handles.lookup fh = some f → f.writable = true → t.reported id fh = some (v, true) →
    v ≠ 0 → t.books.versionOf f.path ≠ v

section Steps

variable {x : Export} {t t' : Tracked} {session : ℕ} {req : Request}

theorem inv_boot {fs : Fs} (hfs : fs.HasInodes) (space : Option (ℕ × ℕ × ℕ)) (clock : ℕ) :
    (boot fs space clock).Inv := by
  have hnone : ∀ id me, (boot fs space clock).server.sessions id ≠ some me :=
    fun _ _ h => by cases h
  refine ⟨fun id me h => absurd h (hnone id me), hfs, fun id me _ _ h => absurd h (hnone id me),
    fun q => ?_, fun s fh v seen h => ?_, fun id me _ _ _ h => absurd h (hnone id me)⟩
  · have hzero : (boot fs space clock).books.versionOf q = 0 := by
      rfl
    exact Nat.zero_le _
  · cases h

theorem Inv.sound (hi : t.Inv) : t.Sound x := by
  intro session me fh offset data v seen n newVersion conflict c' hv hme hrep hrun
  obtain ⟨file, hacc⟩ := Ctx.accepts_of_handle hrun
  obtain ⟨-, -, -, hfile, hwr, hver⟩ := hacc
  cases seen with
  | false => rfl
  | true =>
    have hver' : v = t.books.versionOf file.path := Option.some.inj (hver.resolve_left (by simp))
    exact absurd hver'.symm (hi.stale session me fh file v hme hfile hwr hrep hv)

theorem Inv.of_idle (hi : t.Inv) {server : Server}
    (hs : ∀ id me, server.sessions id = some me → id < server.nextSession)
    (hfs : server.agent.fs.HasInodes) (hnext : server.agent.fs.nextIno = t.server.agent.fs.nextIno)
    (hbooks : server.agent.books = t.books)
    (hh : ∀ id me fh (f : OpenFile), server.sessions id = some me → me.handles.lookup fh = some f →
      ∃ me', t.server.sessions id = some me' ∧ me'.handles.lookup fh = some f ∧
        me.authed = me'.authed ∧ me.attached = me'.attached) :
    Inv ⟨server, t.reported⟩ := by
  refine ⟨hs, hfs, fun id me fh f hme hf => ?_, fun q => ?_, fun s fh v seen h => ?_,
    fun id me fh f v hme hf hwr hrep hv => ?_⟩
  · obtain ⟨me', hme', hf', hauth, hatt⟩ := hh id me fh f hme hf
    obtain ⟨hino, ha, hb⟩ := hi.handles id me' fh f hme' hf'
    exact ⟨hnext ▸ hino, hauth ▸ ha, hatt ▸ hb⟩
  · rw [show books ⟨server, t.reported⟩ = t.books from hbooks]
    exact hi.bounded q
  · rw [show books ⟨server, t.reported⟩ = t.books from hbooks]
    exact hi.old s fh v seen h
  · obtain ⟨me', hme', hf', -, -⟩ := hh id me fh f hme hf
    rw [show books ⟨server, t.reported⟩ = t.books from hbooks]
    exact hi.stale id me' fh f v hme' hf' hwr hrep hv

/-- The server after a request. -/
def after (t : Tracked) (session : ℕ) (c : Ctx) : Server :=
  { t.server with
    agent := c.toAgent
    sessions := update t.server.sessions session (some c.me) }

theorem sessions_after_self {c : Ctx} :
    (t.after session c).sessions session = some c.me := update_self ..

theorem sessions_after_of_ne {s : ℕ} {c : Ctx} (h : s ≠ session) :
    (t.after session c).sessions s = t.server.sessions s := update_of_ne h ..

theorem step_request (h : t.step x (.request session req) = some t') :
    ∃ me, t.server.sessions session = some me ∧
      ((∃ r c, Ctx.handle x req ⟨t.server.agent, me⟩ = .ok r c ∧
          t' = ⟨t.after session c, t.note session req r c.fs⟩) ∨
        ∃ e c, Ctx.handle x req ⟨t.server.agent, me⟩ = .error e c ∧
          t' = ⟨t.after session c, t.reported⟩) := by
  simp only [step, Server.step] at h
  cases hme : t.server.sessions session with
  | none =>
    rw [hme] at h
    cases h
  | some me =>
    refine ⟨me, rfl, ?_⟩
    simp only [hme] at h
    cases hrun : Ctx.handle x req ⟨t.server.agent, me⟩ with
    | ok r c =>
      simp only [hrun, Act.final] at h
      exact .inl ⟨r, c, rfl, (Option.some.inj h).symm⟩
    | error e c =>
      simp only [hrun, Act.final] at h
      exact .inr ⟨e, c, rfl, (Option.some.inj h).symm⟩

/-- The parts of the invariant that do not depend on what is tracked, after a request. -/
theorem Inv.request (hi : t.Inv) {me : SessionInner} {c : Ctx}
    {reported : ℕ → ℕ → Option (ℕ × Bool)}
    (hme : t.server.sessions session = some me)
    (hout : Ctx.Outcome x req ⟨t.server.agent, me⟩ r c) (hadv : t.books.Advance c.books)
    (hold : ∀ s fh v seen, reported s fh = some (v, seen) → v ≤ c.books.vclock)
    (hmine : ∀ fh v, reported session fh = some (v, true) →
      t.reported session fh = some (v, true) ∧
      (req.opens = true → ∀ attr, r ≠ some (.opened fh attr)))
    (hother : ∀ s me' fh (f : OpenFile) v, s ≠ session → t.server.sessions s = some me' →
      me'.handles.lookup fh = some f → f.writable = true → reported s fh = some (v, true) → v ≠ 0 →
      c.books.versionOf f.path ≠ v) :
    Inv ⟨t.after session c, reported⟩ := by
  -- a session after the request is the one that made it or as before
  have hcases : ∀ id me', (t.after session c).sessions id = some me' →
      (id = session ∧ me' = c.me) ∨ (id ≠ session ∧ t.server.sessions id = some me') := by
    intro id me' h
    by_cases heq : id = session
    · rw [heq, sessions_after_self] at h
      exact .inl ⟨heq, (Option.some.inj h).symm⟩
    · rw [sessions_after_of_ne heq] at h
      exact .inr ⟨heq, h⟩
  refine ⟨fun id me' h => ?_, hout.inodes hi.inodes, fun id me' fh f h hf => ?_,
    hadv.bounded hi.bounded, hold, fun id me' fh f v h hf hwr hrep hv => ?_⟩
  · rcases hcases id me' h with ⟨rfl, -⟩ | ⟨-, h⟩
    · exact hi.sessions id me hme
    · exact hi.sessions id me' h
  · rcases hcases id me' h with ⟨rfl, rfl⟩ | ⟨-, h⟩
    · rcases hout.handles fh f hf with hf | ⟨-, hino, hauth, hatt⟩
      · obtain ⟨hino, hauth, hatt⟩ := hi.handles id me fh f hme hf
        exact ⟨lt_of_lt_of_le hino hout.next, hout.authed hauth, hout.attached hatt⟩
      · exact ⟨hino hi.inodes, hauth, hatt⟩
    · obtain ⟨hino, hauth, hatt⟩ := hi.handles id me' fh f h hf
      exact ⟨lt_of_lt_of_le hino hout.next, hauth, hatt⟩
  · rcases hcases id me' h with ⟨rfl, rfl⟩ | ⟨hne, h⟩
    · obtain ⟨hrep', hno⟩ := hmine fh v hrep
      rcases hout.handles fh f hf with hf | ⟨⟨hopens, attr, hr⟩, -⟩
      · exact hadv.ne_of_ne hv (hi.old id fh v true hrep')
          (hi.stale id me fh f v hme hf hwr hrep' hv)
      · exact absurd hr (hno hopens attr)
    · exact hother id me' fh f v hne h hf hwr hrep hv

theorem note_cases {fs : Fs} {s fh v : ℕ}
    {seen : Bool} (h : t.note session req r fs s fh = some (v, seen)) :
    (s = session ∧ r.bind (report req) = some (fh, v) ∧ seen = false) ∨
      (s = session ∧ (∀ v', r.bind (report req) ≠ some (fh, v')) ∧
        t.reported s fh = some (v, seen)) ∨
      (s ≠ session ∧ ∃ seen', t.reported s fh = some (v, seen') ∧ (seen = true → seen' = true ∨
        ∃ me, t.server.sessions s = some me ∧
          changed t.server.agent.fs fs me fh = true)) := by
  rw [note] at h
  split at h
  · next hs =>
    split at h
    · next fh' v' hrep =>
      split at h
      · next heq =>
        cases h
        exact .inl ⟨hs, heq ▸ hrep, rfl⟩
      · next hne =>
        refine .inr (.inl ⟨hs, fun v'' hv'' => hne ?_, h⟩)
        rw [hrep] at hv''
        cases hv''
        rfl
    · next hrep =>
      refine .inr (.inl ⟨hs, fun v' hv' => ?_, h⟩)
      rw [hrep] at hv'
      cases hv'
  · next hs =>
    refine .inr (.inr ⟨hs, ?_⟩)
    split at h
    · next me hme =>
      split at h
      · next hch =>
        obtain ⟨known, hknown, heq⟩ := Option.map_eq_some_iff.mp h
        cases heq
        exact ⟨known.2, hknown, fun _ => .inr ⟨me, hme, hch⟩⟩
      · exact ⟨seen, h, fun hseen => .inl hseen⟩
    · exact ⟨seen, h, fun hseen => .inl hseen⟩

theorem changed_iff {fs fs' : Fs} {me : SessionInner} {fh : ℕ} :
    changed fs fs' me fh = true ↔
      ∃ f : OpenFile, me.handles.lookup fh = some f ∧ fs'.content f.ino ≠ fs.content f.ino := by
  rw [changed]
  split
  · next f hf =>
    rw [decide_eq_true_eq]
    constructor
    · intro h
      exact ⟨f, hf, h⟩
    · rintro ⟨f', hf', h⟩
      obtain rfl := Option.some.inj (hf.symm.trans hf')
      exact h
  · next hf =>
    constructor
    · intro h
      cases h
    · rintro ⟨f, hf', -⟩
      rw [hf] at hf'
      cases hf'

theorem inv_request (hi : t.Inv)
    (hok : t.keyOk x (.request session req)) (h : t.step x (.request session req) = some t') :
    t'.Inv := by
  obtain ⟨me, hme, ⟨r, c, hrun, rfl⟩ | ⟨e, c, hrun, rfl⟩⟩ := step_request h
  · have hout : Ctx.Outcome x req ⟨t.server.agent, me⟩ r c := by
      have := Ctx.outcome_handle x req ⟨t.server.agent, me⟩ _ rfl
      rwa [hrun] at this
    have hadv : t.books.Advance c.books := by
      have := Ctx.advance_handle x req ⟨t.server.agent, me⟩
      rwa [hrun] at this
    refine hi.request hme hout hadv (fun s fh v seen h => ?_) (fun fh v h => ?_)
      fun s me' fh f v hne hme' hf hwr h hv => ?_
    · rcases note_cases h with ⟨-, hrep, -⟩ | ⟨-, -, h⟩ | ⟨-, seen', h, -⟩
      · exact Ctx.report_le (c := ⟨t.server.agent, me⟩) hi.bounded hrun hrep
      · exact (hi.old s fh v seen h).trans hadv.clock
      · exact (hi.old s fh v seen' h).trans hadv.clock
    · rcases note_cases h with ⟨-, -, hseen⟩ | ⟨-, hno, h⟩ | ⟨hne, -⟩
      · cases hseen
      · refine ⟨h, fun hopens attr hr => hno attr.version ?_⟩
        rw [hr]
        cases req <;> first | rfl | cases hopens
      · exact absurd rfl hne
    · rcases note_cases h with ⟨hs, -⟩ | ⟨hs, -⟩ | ⟨-, seen', hrep, hcases⟩
      · exact absurd hs hne
      · exact absurd hs hne
      · rcases hcases rfl with rfl | ⟨me'', hme'', hch⟩
        · exact hadv.ne_of_ne hv (hi.old s fh v true hrep)
            (hi.stale s me' fh f v hme' hf hwr hrep hv)
        · -- the file has changed: by the path of this handle, whose version has moved
          obtain rfl := Option.some.inj (hme'.symm.trans hme'')
          obtain ⟨f', hf', hcontent⟩ := changed_iff.mp hch
          obtain rfl := Option.some.inj (hf.symm.trans hf')
          obtain ⟨key, hedit⟩ := hout.content f.ino (hi.handles s me' fh f hme' hf).1 hcontent
          by_cases hver : t.books.versionOf f.path = v
          · have hkey := hok me hme _ hedit hcontent s (hi.sessions s me' hme') hne me' hme' fh
              (AList.mem_keys.mp (AList.lookup_isSome.mp (by rw [hf]; rfl))) f hf _ hrep
              ⟨rfl, hwr, hv, hver⟩
            obtain ⟨-, r', c', hrun', -, hbooks⟩ := Ctx.handle_of_edit hedit
            rw [hrun] at hrun'
            cases hrun'
            have hle := hi.old s fh v seen' hrep
            rw [hbooks, hkey, Books.versionOf_bump_self]
            exact (Nat.lt_succ_of_le hle).ne'
          · exact hadv.ne_of_ne hv (hi.old s fh v seen' hrep) hver
  · have hout : Ctx.Outcome x req ⟨t.server.agent, me⟩ none c := by
      have := Ctx.outcome_handle x req ⟨t.server.agent, me⟩ _ rfl
      rwa [hrun] at this
    have hadv : t.books.Advance c.books := by
      have := Ctx.advance_handle x req ⟨t.server.agent, me⟩
      rwa [hrun] at this
    exact hi.request hme hout hadv (fun s fh v seen h => (hi.old s fh v seen h).trans hadv.clock)
      (fun fh v h => ⟨h, fun _ _ => nofun⟩) fun s me' fh f v hne hme' hf hwr h hv =>
        hadv.ne_of_ne hv (hi.old s fh v true h) (hi.stale s me' fh f v hme' hf hwr h hv)

theorem fs_forceRelease (me : SessionInner) :
    (t.server.forceRelease me).fs = t.server.agent.fs ∧
    (t.server.forceRelease me).books = t.books := by
  rw [Server.forceRelease]
  split <;> exact ⟨rfl, rfl⟩

theorem inv_step (hi : t.Inv) {l : ServerStep} (hok : t.keyOk x l) (h : t.step x l = some t') :
    t'.Inv := by
  cases l with
  | request session req => exact inv_request hi hok h
  | connect token =>
    cases h
    refine hi.of_idle (fun id me h => ?_) hi.inodes rfl rfl fun id me fh f h hf => ?_
    · by_cases heq : id = t.server.nextSession
      · rw [heq]
        exact Nat.lt_succ_self _
      · replace h : t.server.sessions id = some me := (update_of_ne heq ..).symm.trans h
        exact Nat.lt_succ_of_lt (hi.sessions id me h)
    · by_cases heq : id = t.server.nextSession
      · subst heq
        dsimp only at h
        rw [update_self] at h
        cases h
        cases hf
      · replace h : t.server.sessions id = some me := (update_of_ne heq ..).symm.trans h
        exact ⟨me, h, hf, rfl, rfl⟩
  | tick now clock =>
    cases h
    exact hi.of_idle hi.sessions hi.inodes rfl rfl fun id me fh f h hf => ⟨me, h, hf, rfl, rfl⟩
  | expire session =>
    simp only [step, Server.step] at h
    cases hme : t.server.sessions session with
    | none =>
      rw [hme] at h
      cases h
    | some me₀ =>
      simp only [hme] at h
      cases h
      obtain ⟨hfs, hbooks⟩ := fs_forceRelease (t := t) me₀
      refine hi.of_idle (fun id me h => ?_) (by rw [hfs]; exact hi.inodes) (by rw [hfs]) hbooks
        fun id me fh f h hf => ?_
      · by_cases heq : id = session
        · exact heq ▸ hi.sessions session me₀ hme
        · exact hi.sessions id me ((update_of_ne heq ..).symm.trans h)
      · by_cases heq : id = session
        · subst heq
          dsimp only at h
          rw [update_self] at h
          cases h
          cases hf
        · exact ⟨me, (update_of_ne heq ..).symm.trans h, hf, rfl, rfl⟩
  | disconnect session =>
    simp only [step, Server.step] at h
    cases hme : t.server.sessions session with
    | none =>
      rw [hme] at h
      cases h
    | some me₀ =>
      simp only [hme] at h
      cases h
      obtain ⟨hfs, hbooks⟩ := fs_forceRelease (t := t) me₀
      have hold : ∀ id me, update t.server.sessions session none id = some me →
          t.server.sessions id = some me := by
        intro id me h
        by_cases heq : id = session
        · rw [heq, update_self] at h
          cases h
        · rwa [update_of_ne heq] at h
      exact hi.of_idle (fun id me h => hi.sessions id me (hold id me h))
        (by rw [hfs]; exact hi.inodes) (by rw [hfs]) hbooks
        fun id me fh f h hf => ⟨me, hold id me h, hf, rfl, rfl⟩

/-! ## A change that comes by another path -/

theorem not_sound_of_not_keyOk (hi : t.Inv) {l : ServerStep} (hok : ¬ t.keyOk x l)
    (h : t.step x l = some t') : ¬ t'.Sound x := by
  cases l with
  | request session req =>
    simp only [keyOk, Agrees, not_forall] at hok
    obtain ⟨me, hme, e, he, hcontent, s, -, hne, me', hme', fh, -, f, hf, known, hknown,
      ⟨hino, hwr, hv, hver⟩, hkey⟩ := hok
    obtain ⟨hro, r, c, hrun, hnew, hbooks⟩ := Ctx.handle_of_edit he
    obtain ⟨me₁, hme₁, hcases⟩ := step_request h
    obtain rfl :=
      Option.some.inj ((show t.server.sessions session = some me from hme).symm.trans hme₁)
    obtain rfl : t' = ⟨t.after session c, t.note session req (some r) c.fs⟩ := by
      rcases hcases with ⟨r', c', hrun', rfl⟩ | ⟨_, _, hrun', -⟩
      · rw [hrun] at hrun'
        cases hrun'
        rfl
      · rw [hrun] at hrun'
        cases hrun'
    -- the other session's version is still current, and the file has changed
    have hch : changed t.server.agent.fs c.fs me' fh = true :=
      changed_iff.mpr ⟨f, hf, by rw [hino, hnew]; exact hcontent⟩
    have hrep : t.note session req (some r) c.fs s fh = some (known.1, true) := by
      have hme'' : t.server.sessions s = some me' := hme'
      rw [note, if_neg hne]
      simp only [hme'', hch, if_pos, show t.reported s fh = some known from hknown]
      rfl
    obtain ⟨-, hauth, hatt⟩ := hi.handles s me' fh f hme' hf
    have hacc : Ctx.Accepts x ⟨c.toAgent, me'⟩ fh (some known.1) f := by
      refine ⟨hauth, hatt, hro, hf, hwr, .inr ?_⟩
      rw [show (Agent.books c.toAgent) = _ from hbooks, Books.versionOf_bump_of_ne hkey]
      exact congrArg some hver.symm
    obtain ⟨v', c', hwrite, -⟩ := Ctx.write_of_accepts 0 [] hacc
    intro hsound
    have hme'' : (t.after session c).sessions s = some me' :=
      (sessions_after_of_ne hne).trans hme'
    cases hsound s me' fh 0 [] known.1 true _ _ _ c' hv hme'' hrep hwrite
  | _ => exact absurd trivial hok

end Steps

/-- **Writes on a reported version are sound, exactly in the runs whose changes come by known
paths.**  In every state that such a run reaches, a write on the version last reported for its
handle succeeds only if no other session has changed the file since; and a request outside
the condition leads to a state in which one succeeds although another session has. -/
theorem sound_iff_keyOk {x : Export} {fs : Fs} (hfs : fs.HasInodes) {space : Option (ℕ × ℕ × ℕ)}
    {clock : ℕ} {t : Tracked} (ht : Reaches (step x) (keyOk x) (boot fs space clock) t) :
    t.Sound x ∧ ∀ l t', ¬ t.keyOk x l → t.step x l = some t' → ¬ t'.Sound x := by
  have hi : t.Inv := ht.invariant Inv (inv_boot hfs space clock)
    fun _ _ _ hi hok hs => inv_step hi hok hs
  exact ⟨hi.sound, fun l t' hok hs => not_sound_of_not_keyOk hi hok hs⟩

theorem hasInodes_emptyFs : Writers.emptyFs.HasInodes := by
  intro l i h
  have := PathMap.mem_of_get h
  simp [Writers.emptyFs, Agent.ofTree] at this

/-- What a write of the first session on its first version would be answered. -/
def firstWrite (t : Tracked) : Option Response :=
  (t.server.sessions 1).bind fun me =>
    match Ctx.handle .srv (.write 1 0 [9] (some 1)) ⟨t.server.agent, me⟩ with
    | .ok r _ => r
    | .error _ _ => none

/-- Two clients are attached, and the first one has created a file. -/
def oneFile : List ServerStep :=
  [.connect none, .request 1 (.attach ['s', 'r', 'v']), .connect none,
    .request 2 (.attach ['s', 'r', 'v']), .request 1 (.create ⟨['a']⟩ { write := true } 0o644)]

/-- The second one writes to the file under its name, and the first one is refused. -/
theorem sound_sameName :
    ∃ t : Tracked, t.reported 1 1 = some (1, true) ∧ t.firstWrite = none ∧ t.Sound .srv := by
  have hallowed : Allowed (step .srv) (keyOk .srv) (boot Writers.emptyFs none 0) (oneFile ++
      [.request 2 (.openFile ⟨['a']⟩ { write := true }),
        .request 2 (.write 1 0 [7] (some 1))]) := by
    decide +kernel
  obtain ⟨t, ht, hobs⟩ := exists_reaches_of_exec _ (fun t => (t.reported 1 1, t.firstWrite))
    (some (1, true), none) hallowed (by decide +kernel)
  obtain ⟨hrep, hwrite⟩ := Prod.mk.inj hobs
  exact ⟨t, hrep, hwrite, (sound_iff_keyOk hasInodes_emptyFs ht).1⟩

/-- The second one gives the file another name and writes to it under that; the first one
overwrites this with the version it got when it created the file. -/
theorem write_over_hardlink :
    ∃ t, Reaches (step .srv) (fun _ _ => True) (boot Writers.emptyFs none 0) t ∧
    ¬ t.Sound .srv := by
  obtain ⟨t, ht, hobs⟩ := exists_reaches_of_exec (oneFile ++
      [.request 2 (.link ⟨['a']⟩ ⟨['b']⟩), .request 2 (.openFile ⟨['b']⟩ { write := true }),
        .request 2 (.write 1 0 [7] none)])
    (fun t => (t.reported 1 1, t.firstWrite)) (some (1, true), some (.written 1 4 false))
    (allowed_true (step .srv) _ (boot Writers.emptyFs none 0)) (by decide +kernel)
  obtain ⟨hrep, hwrite⟩ := Prod.mk.inj hobs
  refine ⟨t, ht, fun hsound => ?_⟩
  obtain ⟨me, hme, hanswer⟩ := Option.bind_eq_some_iff.mp hwrite
  split at hanswer
  · next r c hrun =>
    subst hanswer
    cases hsound 1 me 1 0 [9] 1 true _ _ _ c (by decide) hme hrep hrun
  · cases hanswer

end Tracked
end AlloyFs
