import AlloyFs.Lib.Transition
import AlloyFs.Agent.Effect

/-!
# Confinement over whole runs

Any number of sessions send requests, and the server handles them one at a time.  The
export is confined when no location touched so far lies outside its root.

A request touches what `resolve` or `resolveNew` returned, or an open file, and all of
these are inside — except that a `create` without `excl` opens whatever the last name
of its path leads to.  So a run is confined exactly when no such `create` names a link
that leads outside (`Server.confined_iff`).

Whether there is such a link is decided elsewhere.  `symlink` admits a target by the
path the link was asked for, not by the directory the link is put in, and `rename`
moves links to other depths.  A link is safe where it is when its target climbs only at
its start and no higher than the root; from safe links alone no path leads outside, and
a run whose `symlink` and `rename` requests leave every link safe is confined.
-/

namespace AlloyFs

open Function List

/-! ## Creating a file -/

namespace Ctx

open Act

variable {x : Export} {c : Ctx} {path : RelPath} {flags : OpenFlags} {mode : ℕ}

/-- The session may create files. -/
def MayCreate (x : Export) (me : SessionInner) : Prop :=
  me.authed = true ∧ me.attached = true ∧ x.readOnly = false

theorem handle_create (x : Export) (path : RelPath) (flags : OpenFlags) (mode : ℕ) :
    handle x (.create path flags mode) = (do
      let c ← get
      ensure c.me.authed .authRequired
      some <$> create x path flags mode) := rfl

theorem final_create_refused (h : ¬ MayCreate x c.me) :
    final (handle x (.create path flags mode) c) = c := by
  rw [handle_create, get_bind]
  cases hauth : c.me.authed with
  | false =>
    have hens : (ensure c.me.authed .authRequired : Handler Unit) c = .error .authRequired c := by
      rw [ensure_run, hauth]
      rfl
    rw [hauth] at hens
    rfl
  | true =>
    have hens : (ensure true .authRequired : Handler Unit) c = .ok () c := rfl
    rw [bind_of_ok hens, final_map, create]
    have hwr : ∃ e, writableExport x c = .error e c := by
      rw [writableExport_run]
      cases hatt : c.me.attached with
      | false => exact ⟨_, rfl⟩
      | true =>
        cases hro : x.readOnly with
        | false => exact absurd ⟨hauth, hatt, hro⟩ h
        | true => exact ⟨_, rfl⟩
    obtain ⟨e, hwr⟩ := hwr
    rw [bind_of_error hwr]
    rfl

theorem mem_touched_create (h : MayCreate x c.me) (hexcl : flags.excl = false) {full l : Loc}
    (hnew : x.resolveNew c.fs path = .ok full) (hl : c.fs.OpensAt full l) :
    l ∈ (final (handle x (.create path flags mode) c)).fs.touched := by
  obtain ⟨hauth, hatt, hro⟩ := h
  have hens : (ensure c.me.authed .authRequired : Handler Unit) c = .ok () c := by
    rw [ensure_run, hauth]
    rfl
  have hwr : writableExport x c = .ok () c := by
    rw [writableExport_run, hatt, hro]
    rfl
  have hres : resolveNew x path c = .ok full c := by
    rw [resolveNew_run, hnew]
  obtain ⟨ino, fs', hopen⟩ := Fs.openCreate_of_opensAt hl flags.truncate
  have hcall : call (fun fs => if flags.excl then fs.createNew full
      else fs.openCreate full flags.truncate) c = .ok (l, ino) { c with fs := fs' } := by
    rw [call, lens, hexcl]
    simp only [Bool.false_eq_true, if_false, hopen]
  rw [handle_create, get_bind, bind_of_ok hens, final_map, create,
    bind_of_ok hwr, bind_of_ok hres, bind_of_ok hcall]
  exact mem_cons_self

end Ctx

/-! ## Runs -/

/-- An export's state and the sessions attached to it. -/
structure Server where
  agent : Agent
  sessions : ℕ → Option SessionInner
  nextSession : ℕ

inductive ServerStep
  | connect (token : Option Text)
  | request (session : ℕ) (req : Request)
  /-- the lease ran out: locks and handles are freed -/
  | expire (session : ℕ)
  | disconnect (session : ℕ)
  | tick (now : SystemTime) (clock : ℕ)

namespace Server

/-- An agent that has just started: nothing is on record, and nobody is connected. -/
def boot (fs : Fs) (space : Option (ℕ × ℕ × ℕ)) (clock : ℕ) : Server where
  agent :=
    { fs := fs
      versions := ∅
      vclock := 0
      events := .new
      locks := .empty
      space := space
      clock := clock }
  sessions := fun _ => none
  nextSession := 1

/-- Free all locks and handles of a session. -/
def forceRelease (s : Server) (me : SessionInner) : Agent :=
  if me.attached then { s.agent with locks := s.agent.locks.releaseSession me.id } else s.agent

def step (x : Export) (s : Server) : ServerStep → Option Server
  | .connect token => some { s with
      sessions := update s.sessions s.nextSession (some (.withToken s.nextSession token))
      nextSession := s.nextSession + 1 }
  | .request session req =>
    match s.sessions session with
    | none => none
    | some me =>
      let c := Act.final (Ctx.handle x req ⟨s.agent, me⟩)
      some { s with
        agent := c.toAgent
        sessions := update s.sessions session (some c.me) }
  | .expire session =>
    match s.sessions session with
    | none => none
    | some me => some { s with
        agent := s.forceRelease me
        sessions := update s.sessions session (some { me with handles := ∅ }) }
  | .disconnect session =>
    match s.sessions session with
    | none => none
    | some me => some { s with
        agent := s.forceRelease me
        sessions := update s.sessions session none }
  | .tick now clock => some { s with
      agent := { s.agent with fs := { s.agent.fs with now := now }, clock := clock } }

/-- No location touched so far is outside the root. -/
def Confined (x : Export) (s : Server) : Prop := ∀ l ∈ s.agent.fs.touched, x.root <+: l

/-- Nothing has been touched, and nobody is connected. -/
structure Fresh (x : Export) (s : Server) : Prop where
  root : s.agent.fs.get x.root = some .dir
  touched : s.agent.fs.touched = []
  sessions : ∀ id, s.sessions id = none

/-- A `create` that does not insist on a new file names no link that leads outside. -/
def createInside (x : Export) (s : Server) : ServerStep → Prop
  | .request session (.create path flags _) =>
    flags.excl = false → ∀ me full l, s.sessions session = some me → Ctx.MayCreate x me →
      x.resolveNew s.agent.fs path = .ok full → s.agent.fs.OpensAt full l → x.root <+: l
  | _ => True

/-! ## What a step keeps -/

/-- What holds in every state of a confined run. -/
structure Inv (x : Export) (s : Server) : Prop where
  confined : s.Confined x
  handles : ∀ id me fh f, s.sessions id = some me → me.handles.lookup fh = some f →
    x.root <+: f.loc
  root : ∀ t, s.agent.fs.get x.root ≠ some (.symlink t)

variable {x : Export} {s s' : Server} {l : ServerStep} {req : Request} {id : ℕ} {me : SessionInner}

theorem inv_fresh (h : s.Fresh x) : s.Inv x where
  confined := fun l hl => by rw [h.touched] at hl; cases hl
  handles := fun id me fh f hme _ => by rw [h.sessions id] at hme; cases hme
  root := fun t ht => by rw [h.root] at ht; cases ht

theorem resolveNew_ne_root {fs : Fs} {path : RelPath} {full : Loc}
    (h : x.resolveNew fs path = .ok full) : ¬ full <+: x.root := by
  obtain ⟨parent, leaf, d, _, _, hd, rfl⟩ := Export.resolveNew_ok h
  intro hpre
  have h₁ := (Export.prefix_of_resolve hd).length_le
  have h₂ := hpre.length_le
  simp only [length_append, length_singleton] at h₂
  omega

theorem root_of_treeStep {fs fs' : Fs} (h : TreeStep x req fs fs'.tree)
    (hroot : ∀ t, fs.get x.root ≠ some (.symlink t)) (t : Text) :
    fs'.get x.root ≠ some (.symlink t) := by
  rw [Fs.get]
  generalize fs'.tree = tree at h
  cases h with
  | same => exact hroot t
  | made l hn =>
    by_cases heq : x.root = l
    · rw [heq, PathMap.get_put_self]
      exact fun h => hn t (Option.some.inj h)
    · rw [PathMap.get_put_of_ne _ _ heq]
      exact hroot t
  | linked hreq hnew hland =>
    have hne : x.root ≠ _ := fun heq => resolveNew_ne_root hnew (heq ▸ prefix_rfl)
    rw [PathMap.get_put_of_ne _ _ hne]
    exact hroot t
  | removed l =>
    by_cases heq : x.root = l
    · rw [heq, PathMap.get_del_self]
      simp
    · rw [PathMap.get_del_of_ne _ heq]
      exact hroot t
  | moved hreq hsrc hdst h₁ h₂ =>
    rw [PathMap.get_move _ h₁ h₂, if_neg (resolveNew_ne_root hdst)]
    split
    · simp
    · exact hroot t

/-- A step that handles no request: the tree and the touched locations stay, and no
handle appears. -/
structure Idle (s s' : Server) : Prop where
  tree : s'.agent.fs.tree = s.agent.fs.tree
  touched : s'.agent.fs.touched = s.agent.fs.touched
  handles : ∀ id me' fh f, s'.sessions id = some me' → me'.handles.lookup fh = some f →
    ∃ me, s.sessions id = some me ∧ me.handles.lookup fh = some f

theorem fs_forceRelease (s : Server) (me : SessionInner) : (s.forceRelease me).fs = s.agent.fs := by
  unfold forceRelease
  split <;> rfl

theorem idle_of_update {agent : Agent} {next : Option SessionInner} {n : ℕ}
    (hfs : agent.fs.tree = s.agent.fs.tree ∧ agent.fs.touched = s.agent.fs.touched)
    (hnext : ∀ me ∈ next, me.handles = ∅) :
    Idle s ⟨agent, update s.sessions id next, n⟩ := by
  refine ⟨hfs.1, hfs.2, fun id' me' fh f hme hf => ?_⟩
  by_cases heq : id' = id
  · subst heq
    simp only [update_self] at hme
    rw [hnext me' hme] at hf
    cases hf
  · simp only [update_of_ne heq] at hme
    exact ⟨me', hme, hf⟩

/-- **What a step does**: it handles a request of one session, with the effect a
request can have, or it is idle. -/
theorem step_effect (hroot : ∀ t, s.agent.fs.get x.root ≠ some (.symlink t))
    (h : s.step x l = some s') :
    (∃ id req me me', l = .request id req ∧ s.sessions id = some me ∧
      s'.sessions = update s.sessions id (some me') ∧
      Effect x req s.agent.fs me.handles s'.agent.fs me'.handles) ∨ Idle s s' := by
  cases l with
  | connect token =>
    cases h
    exact .inr (idle_of_update ⟨rfl, rfl⟩ (by rintro me ⟨⟩; rfl))
  | request session req =>
    rw [step] at h
    split at h
    · cases h
    · next me hme =>
      cases h
      exact .inl ⟨session, req, me, _, rfl, hme, rfl,
        Act.Triple.final (Ctx.handle_effect hroot req) (s := ⟨s.agent, me⟩) ⟨rfl, rfl⟩⟩
  | expire session =>
    rw [step] at h
    split at h
    · cases h
    · next me _ =>
      cases h
      refine .inr (idle_of_update ?_ (by rintro me ⟨⟩; rfl))
      rw [fs_forceRelease]
      exact ⟨rfl, rfl⟩
  | disconnect session =>
    rw [step] at h
    split at h
    · cases h
    · next me _ =>
      cases h
      refine .inr (idle_of_update ?_ (by rintro me ⟨⟩))
      rw [fs_forceRelease]
      exact ⟨rfl, rfl⟩
  | tick now clock =>
    cases h
    exact .inr ⟨rfl, rfl, fun id me fh f hme hf => ⟨me, hme, hf⟩⟩

theorem step_mono (hroot : ∀ t, s.agent.fs.get x.root ≠ some (.symlink t))
    (h : s.step x l = some s') :
    (∀ t, s'.agent.fs.get x.root ≠ some (.symlink t)) ∧
      ∀ q ∈ s.agent.fs.touched, q ∈ s'.agent.fs.touched := by
  rcases step_effect hroot h with ⟨id, req, me, me', _, _, _, heff⟩ | hidle
  · obtain ⟨ls, hls, _⟩ := heff.touched
    refine ⟨root_of_treeStep heff.tree hroot, fun q hq => ?_⟩
    rw [hls]
    exact mem_append_right ls hq
  · refine ⟨fun t => ?_, fun q hq => hidle.touched ▸ hq⟩
    rw [Fs.get, hidle.tree]
    exact hroot t

theorem inv_idle (hi : s.Inv x) (h : Idle s s') : s'.Inv x where
  confined := fun q hq => hi.confined q (h.touched ▸ hq)
  handles := fun id me' fh f hme hf => by
    obtain ⟨me, hme, hf⟩ := h.handles id me' fh f hme hf
    exact hi.handles id me fh f hme hf
  root := fun t => by
    rw [Fs.get, h.tree]
    exact hi.root t

theorem inv_effect (hi : s.Inv x) {me' : SessionInner} (hme : s.sessions id = some me)
    (hs' : s'.sessions = update s.sessions id (some me'))
    (heff : Effect x req s.agent.fs me.handles s'.agent.fs me'.handles)
    (hins : ∀ q, Touches x req s.agent.fs me.handles q → x.root <+: q) : s'.Inv x := by
  obtain ⟨ls, hls, hall⟩ := heff.touched
  have hconf : s'.Confined x := by
    intro q hq
    rw [hls, mem_append] at hq
    rcases hq with hq | hq
    · exact hins q (hall q hq)
    · exact hi.confined q hq
  refine ⟨hconf, fun id' me₁ fh f hme₁ hf => ?_, root_of_treeStep heff.tree hi.root⟩
  rw [hs'] at hme₁
  by_cases heq : id' = id
  · subst heq
    simp only [update_self, Option.some.injEq] at hme₁
    subst hme₁
    rcases heff.handles fh f hf with hold | hnew
    · exact hi.handles id' me fh f hme hold
    · exact hconf f.loc hnew
  · rw [update_of_ne heq] at hme₁
    exact hi.handles id' me₁ fh f hme₁ hf

theorem prefix_of_touches (hi : s.Inv x) (hme : s.sessions id = some me)
    (hok : ∀ path flags mode full q, req = .create path flags mode → flags.excl = false →
      x.resolveNew s.agent.fs path = .ok full → s.agent.fs.OpensAt full q → x.root <+: q)
    (q : Loc) (h : Touches x req s.agent.fs me.handles q) : x.root <+: q := by
  cases h with
  | resolved h => exact Export.prefix_of_resolve h
  | named h => exact Export.prefix_of_resolveNew h
  | handle h => exact hi.handles id me _ _ hme h
  | created hreq hexcl hnew hl => exact hok _ _ _ _ _ hreq hexcl hnew hl

theorem idle_of_refused {path : RelPath} {flags : OpenFlags} {mode : ℕ}
    (hme : s.sessions id = some me) (hno : ¬ Ctx.MayCreate x me)
    (h : s.step x (.request id (.create path flags mode)) = some s') : Idle s s' := by
  rw [step, hme] at h
  have hfinal : Act.final (Ctx.handle x (.create path flags mode) ⟨s.agent, me⟩) = ⟨s.agent, me⟩ :=
    Ctx.final_create_refused hno
  simp only [hfinal, Option.some.injEq] at h
  subst h
  refine ⟨rfl, rfl, fun id' me' fh f hme' hf => ?_⟩
  by_cases heq : id' = id
  · subst heq
    simp only [update_self, Option.some.injEq] at hme'
    exact ⟨me, hme, hme' ▸ hf⟩
  · simp only [update_of_ne heq] at hme'
    exact ⟨me', hme', hf⟩

/-- **The step lemma.** -/
theorem inv_step (hi : s.Inv x) (hok : s.createInside x l) (h : s.step x l = some s') :
    s'.Inv x := by
  rcases step_effect hi.root h with ⟨id, req, me, me', rfl, hme, hs', heff⟩ | hidle
  · by_cases hmay : Ctx.MayCreate x me
    · refine inv_effect hi hme hs' heff (prefix_of_touches hi hme ?_)
      rintro path flags mode full q rfl hexcl hnew hq
      exact hok hexcl me full q hme hmay hnew hq
    · cases req with
      | create path flags mode => exact inv_idle hi (idle_of_refused hme hmay h)
      | _ =>
        exact inv_effect hi hme hs' heff
          (prefix_of_touches hi hme fun _ _ _ _ _ hreq => nomatch hreq)
  · exact inv_idle hi hidle

theorem not_confined_of_not_createInside (hok : ¬ s.createInside x l) (h : s.step x l = some s') :
    ¬ s'.Confined x := by
  intro hconf
  apply hok
  cases l with
  | request id req =>
    cases req with
    | create path flags mode =>
      intro hexcl me full q hme hmay hnew hq
      rw [step, hme] at h
      cases h
      exact hconf q (Ctx.mem_touched_create (c := ⟨s.agent, me⟩) hmay hexcl hnew hq)
    | _ => trivial
  | _ => trivial

/-! ## Whole runs -/

theorem not_confined_exec (ls : List ServerStep) :
    ∀ {s s' : Server}, (∀ t, s.agent.fs.get x.root ≠ some (.symlink t)) → ¬ s.Confined x →
      exec (step x) s ls = some s' → ¬ s'.Confined x := by
  induction ls with
  | nil =>
    intro s s' _ hno h
    cases h
    exact hno
  | cons l ls ih =>
    intro s s' hroot hno h
    rw [exec_cons, Option.bind_eq_some_iff] at h
    obtain ⟨s₁, hs₁, hrest⟩ := h
    obtain ⟨hroot₁, hmono⟩ := step_mono hroot hs₁
    exact ih hroot₁ (fun hconf => hno fun q hq => hconf q (hmono q hq)) hrest

theorem confined_iff_of_inv (ls : List ServerStep) :
    ∀ {s s' : Server}, s.Inv x → exec (step x) s ls = some s' →
      (s'.Confined x ↔ Allowed (step x) (createInside x) s ls) := by
  induction ls with
  | nil =>
    intro s s' hi h
    cases h
    exact iff_of_true hi.confined trivial
  | cons l ls ih =>
    intro s s' hi h
    rw [exec_cons, Option.bind_eq_some_iff] at h
    obtain ⟨s₁, hs₁, hrest⟩ := h
    by_cases hok : s.createInside x l
    · rw [ih (inv_step hi hok hs₁) hrest]
      constructor
      · intro hall
        refine ⟨hok, fun s₂ hs₂ => ?_⟩
        obtain rfl : s₁ = s₂ := Option.some.inj (hs₁.symm.trans hs₂)
        exact hall
      · exact fun hall => hall.2 s₁ hs₁
    · refine iff_of_false ?_ fun hall => hok hall.1
      exact not_confined_exec ls (step_mono hi.root hs₁).1
        (not_confined_of_not_createInside hok hs₁) hrest

end Server

/-! ## Links that cannot lead outside -/

/-- Followed from `k` levels below the root, the components stay inside: they climb only
before the first name, and at most `k` times. -/
def SafeFrom : ℕ → List Name → Prop
  | _, [] => True
  | k, c :: cs =>
    if c = [] ∨ c = ['.'] then SafeFrom k cs
    else if c = ['.', '.'] then 0 < k ∧ SafeFrom (k - 1) cs
    else ['.', '.'] ∉ cs

instance SafeFrom.decidable : ∀ k cs, Decidable (SafeFrom k cs)
  | _, [] => inferInstanceAs (Decidable True)
  | k, c :: cs =>
    have := SafeFrom.decidable k cs
    have := SafeFrom.decidable (k - 1) cs
    inferInstanceAs (Decidable (if c = [] ∨ c = ['.'] then SafeFrom k cs
      else if c = ['.', '.'] then 0 < k ∧ SafeFrom (k - 1) cs
      else ['.', '.'] ∉ cs))

/-- Every link below the root is relative and safe where it is. -/
def LinksSafe (root : Loc) (fs : Fs) : Prop :=
  ∀ l t, root <+: l → fs.get l = some (.symlink t) →
    l ≠ root ∧ t.head? ≠ some '/' ∧ SafeFrom (l.length - 1 - root.length) (Fs.targetComps t)

section Safe

variable {root l : Loc} {fs : Fs} {k : ℕ} {c : Name} {cs rest : List Name}

theorem safeFrom_of_notMem (h : ['.', '.'] ∉ cs) : SafeFrom k cs := by
  induction cs with
  | nil => trivial
  | cons c cs ih =>
    rw [SafeFrom]
    have hcs : ['.', '.'] ∉ cs := fun hm => h (mem_cons_of_mem c hm)
    split
    · exact ih hcs
    · split
      · next hup => exact absurd (hup ▸ mem_cons_self) h
      · exact hcs

theorem safeFrom_append (h : SafeFrom k cs) (hrest : ['.', '.'] ∉ rest) :
    SafeFrom k (cs ++ rest) := by
  induction cs generalizing k with
  | nil => exact safeFrom_of_notMem hrest
  | cons c cs ih =>
    rw [cons_append, SafeFrom]
    rw [SafeFrom] at h
    by_cases h₁ : c = [] ∨ c = ['.']
    · rw [if_pos h₁] at h ⊢
      exact ih h
    rw [if_neg h₁] at h ⊢
    by_cases h₂ : c = ['.', '.']
    · rw [if_pos h₂] at h ⊢
      exact ⟨h.1, ih h.2⟩
    · rw [if_neg h₂] at h ⊢
      simp only [mem_append, not_or]
      exact ⟨h, hrest⟩

theorem safeFrom_name (hc : Fs.Ordinary c) (h : SafeFrom k (c :: cs)) : ['.', '.'] ∉ cs := by
  rwa [SafeFrom, if_neg (by simp [hc.1, hc.2.1]), if_neg hc.2.2] at h

theorem prefix_dropLast (h : root <+: l) (hlt : root.length < l.length) : root <+: l.dropLast := by
  obtain ⟨t, rfl⟩ := h
  have hne : t ≠ [] := by
    rintro rfl
    simp at hlt
  rw [dropLast_append_of_ne_nil hne]
  exact prefix_append root t.dropLast

/-- **Among safe links no path leads outside.** -/
theorem walk_inside (hsafe : LinksSafe root fs) : ∀ n at_ todo, root <+: at_ →
    SafeFrom (at_.length - root.length) todo →
    ∀ l, fs.walk n at_ todo = .found l ∨ fs.walk n at_ todo = .vacant l → root <+: l := by
  refine Fs.walk_induction (P := fun _ at_ todo w => root <+: at_ →
    SafeFrom (at_.length - root.length) todo → ∀ l, w = .found l ∨ w = .vacant l → root <+: l)
    ?_ ?_ ?_ ?_ ?_ ?_ ?_ ?_
  · intro n at_ todo e _ _ l h
    rcases h with h | h <;> cases h
  · intro n at_ _ hin _ l h
    rcases h with h | h <;> cases h
    exact hin
  · intro n at_ c rest _ hc ih hin hs
    rw [SafeFrom, if_pos hc] at hs
    exact ih hin hs
  · intro n at_ rest _ ih hin hs
    obtain ⟨hpos, hs⟩ := hs
    have hlen : at_.dropLast.length - root.length = at_.length - root.length - 1 := by
      rw [length_dropLast]
      omega
    exact ih (prefix_dropLast hin (by omega)) (hlen ▸ hs)
  · intro n at_ c _ _ _ hin _ l h
    rcases h with h | h <;> cases h
    exact hin.trans (prefix_append at_ [c])
  · intro n at_ c rest _ hc _ ih hin hs
    exact ih (hin.trans (prefix_append at_ [c])) (safeFrom_of_notMem (safeFrom_name hc hs))
  · intro n at_ c ino _ _ _ hin _ l h
    rcases h with h | h <;> cases h
    exact hin.trans (prefix_append at_ [c])
  · intro n at_ c rest t _ hc hget ih hin hs
    obtain ⟨_, hrel, hlink⟩ := hsafe (at_ ++ [c]) t (hin.trans (prefix_append at_ [c])) hget
    have hstart : Fs.targetStart at_ t = at_ := by rw [Fs.targetStart, if_neg hrel]
    rw [hstart] at ih ⊢
    have hdepth : (at_ ++ [c]).length - 1 - root.length = at_.length - root.length := by
      simp
    rw [hdepth] at hlink
    exact ih hin (safeFrom_append hlink (safeFrom_name hc hs))

theorem prefix_of_opensAt {full : Loc} (hsafe : LinksSafe root fs) (hin : root <+: full)
    (h : fs.OpensAt full l) : root <+: l := by
  have hleaf : fs.leaf true full = .vacant l ∨ fs.leaf true full = .found l := by
    rcases h with h | ⟨h, _⟩
    · exact .inl h
    · exact .inr h
  unfold Fs.leaf at hleaf
  split at hleaf
  · split at hleaf <;> rcases hleaf with h | h <;> cases h
    exact hin
  · next t hget =>
    obtain ⟨hne, hrel, hlink⟩ := hsafe full t hin hget
    have hstart : Fs.targetStart full.dropLast t = full.dropLast := by
      rw [Fs.targetStart, if_neg hrel]
    have hlt : root.length < full.length :=
      Nat.lt_of_le_of_ne hin.length_le fun heq => hne (hin.eq_of_length heq).symm
    have hdepth : full.dropLast.length - root.length = full.length - 1 - root.length := by
      rw [length_dropLast]
    rw [if_pos rfl, hstart] at hleaf
    exact walk_inside hsafe _ _ _ (prefix_dropLast hin hlt) (hdepth ▸ hlink) l hleaf.symm
  · rcases hleaf with h | h <;> cases h
    exact hin

theorem head_of_landsInside {link landing : RelPath} {target : Text}
    (h : symlinkLandsInside link target = some landing) : target.head? ≠ some '/' := by
  intro hhead
  cases target with
  | nil => cases hhead
  | cons a rest =>
    obtain rfl : a = '/' := Option.some.inj hhead
    cases h

end Safe

namespace Server

variable {x : Export} {s s' : Server} {l : ServerStep}

/-- A new link is safe where it is put, and a moved one where it is moved. -/
def linksStaySafe (x : Export) (s : Server) : ServerStep → Prop
  | .request _ (.symlink target link) =>
    ∀ full, x.resolveNew s.agent.fs link = .ok full →
      SafeFrom (full.length - 1 - x.root.length) (Fs.targetComps target)
  | .request _ (.rename src dst _) =>
    ∀ ls ld r t, x.resolve s.agent.fs src = .ok ls → x.resolveNew s.agent.fs dst = .ok ld →
      s.agent.fs.get (ls ++ r) = some (.symlink t) →
      SafeFrom ((ld ++ r).length - 1 - x.root.length) (Fs.targetComps t)
  | _ => True

theorem linksSafe_treeStep {id : ℕ} {req : Request} {fs' : Fs}
    (hsafe : LinksSafe x.root s.agent.fs) (hok : s.linksStaySafe x (.request id req))
    (h : TreeStep x req s.agent.fs fs'.tree) : LinksSafe x.root fs' := by
  intro q t hq hget
  rw [Fs.get] at hget
  generalize fs'.tree = tree at h hget
  cases h with
  | same => exact hsafe q t hq hget
  | made l hn =>
    by_cases heq : q = l
    · rw [heq, PathMap.get_put_self] at hget
      exact absurd (Option.some.inj hget) (hn t)
    · rw [PathMap.get_put_of_ne _ _ heq] at hget
      exact hsafe q t hq hget
  | @linked target link landing full hreq hnew hland =>
    by_cases heq : q = full
    · rw [heq, PathMap.get_put_self] at hget
      cases hget
      subst heq hreq
      exact ⟨fun h => resolveNew_ne_root hnew (h ▸ prefix_rfl), head_of_landsInside hland,
        hok q hnew⟩
    · rw [PathMap.get_put_of_ne _ _ heq] at hget
      exact hsafe q t hq hget
  | removed l =>
    by_cases heq : q = l
    · rw [heq, PathMap.get_del_self] at hget
      cases hget
    · rw [PathMap.get_del_of_ne _ heq] at hget
      exact hsafe q t hq hget
  | @moved src dst replace ls ld hreq hsrc hdst h₁ h₂ =>
    rw [PathMap.get_move _ h₁ h₂] at hget
    by_cases hld : ld <+: q
    · rw [if_pos hld] at hget
      obtain ⟨r, rfl⟩ := hld
      rw [drop_left] at hget
      have hls : x.root <+: ls ++ r :=
        (Export.prefix_of_resolve hsrc).trans (prefix_append ls r)
      subst hreq
      exact ⟨fun h => resolveNew_ne_root hdst (h ▸ prefix_append ld r),
        (hsafe (ls ++ r) t hls hget).2.1, hok ls ld r t hsrc hdst hget⟩
    · rw [if_neg hld] at hget
      split at hget
      · cases hget
      · exact hsafe q t hq hget

theorem linksSafe_step (hi : s.Inv x) (hsafe : LinksSafe x.root s.agent.fs)
    (hok : s.linksStaySafe x l) (h : s.step x l = some s') : LinksSafe x.root s'.agent.fs := by
  rcases step_effect hi.root h with ⟨id, req, me, me', rfl, _, _, heff⟩ | hidle
  · exact linksSafe_treeStep hsafe hok heff.tree
  · intro q t hq hget
    rw [Fs.get, hidle.tree] at hget
    exact hsafe q t hq hget

theorem createInside_of_linksSafe (hsafe : LinksSafe x.root s.agent.fs) : s.createInside x l := by
  cases l with
  | request id req =>
    cases req with
    | create path flags mode =>
      exact fun _ _ full q _ _ hnew hq =>
        prefix_of_opensAt hsafe (Export.prefix_of_resolveNew hnew) hq
    | _ => trivial
  | _ => trivial

theorem allowed_of_linksSafe (ls : List ServerStep) : ∀ {s : Server}, s.Inv x →
    LinksSafe x.root s.agent.fs → Allowed (step x) (linksStaySafe x) s ls →
    Allowed (step x) (createInside x) s ls := by
  induction ls with
  | nil => exact fun _ _ _ => trivial
  | cons l ls ih =>
    intro s hi hsafe hall
    have hok : s.createInside x l := createInside_of_linksSafe hsafe
    refine ⟨hok, fun s₁ hs₁ => ?_⟩
    exact ih (inv_step hi hok hs₁) (linksSafe_step hi hsafe hall.1 hs₁) (hall.2 s₁ hs₁)

/-- **Export confinement.**  A run is confined exactly when no `create` of it names a
link that leads outside; and it is confined when it starts with safe links and none of
its `symlink` and `rename` requests makes an unsafe one. -/
theorem confined_iff {s₀ : Server} (h₀ : s₀.Fresh x) {ls : List ServerStep}
    (h : exec (step x) s₀ ls = some s) :
    (s.Confined x ↔ Allowed (step x) (createInside x) s₀ ls) ∧
      (LinksSafe x.root s₀.agent.fs → Allowed (step x) (linksStaySafe x) s₀ ls → s.Confined x) := by
  have hiff := confined_iff_of_inv ls (inv_fresh h₀) h
  refine ⟨hiff, fun hsafe hall => ?_⟩
  exact hiff.mpr (allowed_of_linksSafe ls (inv_fresh h₀) hsafe hall)

/-- A server whose export is empty. -/
def emptyExport : Server :=
  ⟨.ofTree [([], .dir), ([['s', 'r', 'v']], .dir)] [], fun _ => none, 1⟩

theorem fresh_emptyExport : emptyExport.Fresh .srv := ⟨rfl, rfl, fun _ => rfl⟩

theorem no_links_emptyExport (l : Loc) (t : Text) :
    emptyExport.agent.fs.get l ≠ some (.symlink t) := by
  intro h
  have := PathMap.mem_of_get h
  simp [emptyExport, Agent.ofTree] at this

/-- A link that climbs no higher than the root, and a file created through it. -/
def createThroughLink : List ServerStep :=
  [.connect none, .request 1 (.attach ['s', 'r', 'v']), .request 1 (.mkdir ⟨['a']⟩ 0o755),
    .request 1 (.symlink ['.', '.', '/', 'f'] ⟨['a', '/', 's']⟩),
    .request 1 (.create ⟨['a', '/', 's']⟩ { write := true } 0o644)]

theorem confined_createThroughLink :
    ∃ s, exec (step .srv) emptyExport createThroughLink = some s ∧
      [['s', 'r', 'v'], ['f']] ∈ s.agent.fs.touched ∧ s.Confined .srv := by
  have hrun : exec (step .srv) emptyExport createThroughLink = some _ := rfl
  refine ⟨_, hrun, by decide, (confined_iff fresh_emptyExport hrun).2
    (fun l t _ h => absurd h (no_links_emptyExport l t)) ?_⟩
  refine ⟨trivial, fun s₁ h₁ => ⟨trivial, fun s₂ h₂ => ⟨trivial, fun s₃ h₃ =>
    ⟨fun full hfull => ?_, fun _ _ => ⟨trivial, fun _ _ => trivial⟩⟩⟩⟩⟩
  cases h₁
  cases h₂
  cases h₃
  obtain rfl : [['s', 'r', 'v'], ['a'], ['s']] = full :=
    Except.ok.inj (show Except.ok [['s', 'r', 'v'], ['a'], ['s']] = Except.ok full from hfull)
  decide

/-- A link made three levels down is moved up one level with the directory it is in, and
the file it leads to is created next to the export. -/
def createOutside : List ServerStep :=
  [.connect none, .request 1 (.attach ['s', 'r', 'v']), .request 1 (.mkdir ⟨['a']⟩ 0o755),
    .request 1 (.mkdir ⟨['a', '/', 'b']⟩ 0o755),
    .request 1 (.symlink ['.', '.', '/', '.', '.', '/', 'x'] ⟨['a', '/', 'b', '/', 's']⟩),
    .request 1 (.rename ⟨['a', '/', 'b']⟩ ⟨['b']⟩ false),
    .request 1 (.create ⟨['b', '/', 's']⟩ { write := true } 0o644)]

theorem create_leaves_export :
    emptyExport.Fresh .srv ∧ LinksInside emptyExport.agent.fs Export.srv.root ∧
      ∃ s, exec (step .srv) emptyExport createOutside = some s ∧
        s.agent.fs.get [['x']] = some (.file 0) ∧ [['x']] ∈ s.agent.fs.touched ∧
        ¬ s.Confined .srv := by
  refine ⟨fresh_emptyExport, fun l t l' _ h => absurd h (no_links_emptyExport l t), _, rfl,
    by decide, by decide, fun hconf => ?_⟩
  have hout := hconf [['x']] (by decide)
  revert hout
  decide

end Server
end AlloyFs
