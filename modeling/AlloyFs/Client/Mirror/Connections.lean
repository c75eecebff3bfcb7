import AlloyFs.Client.Mirror.Calls

/-!
# Connections keep the mirror right

A connection that is lost takes its session's handles and its calls with it; the supervisor then
dials again, and opens and locks each handle once more in the new session.  What it does for one
handle is `Supervised`: the other clients, and the handles it is not at, stay as they are.
-/

namespace AlloyFs

open Function Option List LockServer

variable {t t' : LockServer} {file : MirroredState} {call : HandleCall} {calls : List HandleCall}
  {kind : LockKind} {r : Replay}

namespace LockSystem

/-! ## Connections -/

section Connections

variable {s s' s₁ : LockSystem} {server : LockServer} {client : ℕ} {fh σ : ℕ} {path : RelPath}
  {pass : Pass} {rest : List ℕ} {ending : Ending}

/-- **Something happens on the server alone**, and to no handle in use. -/
theorem Inv.still (hi : s.Inv) (hl : s.server.Later server)
    (hspare : ∀ σ n, s.server.Spares server σ n) : Inv { s with server } :=
  hi.moves (.of_server hl s.calls) (fun _ _ _ _ _ hh _ => (hspare _ _).handles _ hh)
    (fun _ => .inl) hi.single
    (fun _ _ _ _ _ hset hf _ hb => .inr ⟨hset, hf, hb, fun _ => .inr (hspare _ _)⟩)
    fun _ _ _ hlink _ => .inr ⟨hlink, rfl, fun _ hc _ => .inl hc⟩

theorem abandon_claims {c : ℕ} (h : (abandon client call).claims c fh) : call.claims c fh := by
  rw [abandon] at h
  split at h
  · obtain ⟨-, -, -, h⟩ := h
    cases h
  · exact h

theorem abandon_of_ne (h : call.client ≠ client) : abandon client call = call := by
  rw [abandon, if_neg fun he => h he.1]

theorem abandon_phase (call : HandleCall) : (abandon client call).phase = call.phase := by
  rw [abandon]
  split <;> rfl

/-- **The connection is lost**: whoever waits for the server is told so. -/
theorem inv_lose (hi : s.Inv) (hserver : s'.server = s.server)
    (hlink : ∀ c, s'.link c = if c = client then .down else s.link c)
    (hfile : s'.file = s.file)
    (hcalls : s'.calls = s.calls.map (abandon client)) : s'.Inv := by
  have hsession : ∀ c σ, s'.session c = some σ → c ≠ client ∧ s.session c = some σ := by
    intro c σ h
    rw [LockSystem.session, hlink] at h
    split at h
    · cases h
    · next hne => exact ⟨hne, h⟩
  have hsettled : ∀ c fh σ, s'.Settled c fh σ → c ≠ client ∧ s.Settled c fh σ := by
    intro c fh σ h
    have hne := (hsession c σ h.session).1
    have hl : s'.link c = s.link c := by rw [hlink, if_neg hne]
    exact ⟨hne, (settled_congr hl fh σ).mp h⟩
  refine ⟨hserver ▸ hi.fresh, ?_, ?_, ?_, hfile ▸ hi.numbers, ?_, ?_, ?_, ?_, ?_⟩
  · intro c σ h
    rw [hserver]
    exact hi.bounded c σ (hsession c σ h).2
  · intro c c' σ h h'
    exact hi.apart c c' σ (hsession c σ h).2 (hsession c' σ h').2
  · rw [hserver, hfile]
    exact hi.issued
  · intro c fh file hf hs
    rw [hserver]
    exact hi.denotes c fh file (hfile ▸ hf) (hsession c _ hs).2
  · intro call' hc'
    rw [hcalls] at hc'
    obtain ⟨call, hc, rfl⟩ := mem_map.mp hc'
    have hok := hi.calls call hc
    -- the rest does not depend on the connection
    have hsent : ∀ σ ∈ call.phase.session, call.issuer = some σ ∧ σ < s'.server.nextSession ∧
        ∀ c, s'.session c = some σ → c = call.client := by
      intro σ hσ
      obtain ⟨h₁, h₂, h₃⟩ := hok.sent σ hσ
      exact ⟨h₁, hserver ▸ h₂, fun c h => h₃ c (hsession c σ h).2⟩
    rw [abandon]
    split
    · next h =>
      refine ⟨hsent, by simp, hserver ▸ hok.number, hfile ▸ hok.own, hfile ▸ hok.gone, ?_, ?_,
        hserver ▸ hok.task, ?_, ?_⟩
      · intro _ _ σ _ hs
        exact absurd h.1 (hsession _ _ hs).1
      · intro hnone
        dsimp only at hnone
        rw [hnone] at h
        cases h.2
      · rintro ⟨-, -, -, h⟩
        cases h
      · rintro ⟨-, -, -, h⟩
        cases h
    · next h =>
      have hother : ∀ σ ∈ call.phase.session, call.client ≠ client := fun σ hσ he =>
        h ⟨he, isSome_of_mem hσ⟩
      refine ⟨hsent, ?_, hserver ▸ hok.number, hfile ▸ hok.own, hfile ▸ hok.gone, ?_, hok.there,
        hserver ▸ hok.task, hfile ▸ hok.same, ?_⟩
      · intro hw σ hσ
        rw [hlink, if_neg (hother σ hσ)]
        exact hok.waits hw σ hσ
      · intro hw hop σ hσ hs
        rw [hserver]
        exact hok.abandoned hw hop σ hσ (hsession _ _ hs).2
      · rw [hserver, hfile]
        exact hok.path
  · rw [hcalls]
    refine List.Pairwise.map _ (fun a b hab c f ha hb => ?_) hi.single
    exact hab c f (abandon_claims ha) (abandon_claims hb)
  · intro c σ fh file kind hset hf hp hb
    obtain ⟨hne, hset⟩ := hsettled c fh σ hset
    rw [hfile] at hf
    rw [Backed, hserver]
    refine hi.backed c σ fh file kind hset hf hp ?_
    rw [hcalls] at hb
    rcases hb with ⟨call', hc', hcl, hb⟩ | ⟨hno, hb⟩
    · obtain ⟨call, hc, rfl⟩ := mem_map.mp hc'
      have hcl' := abandon_claims hcl
      have hsame : abandon client call = call := abandon_of_ne (by rw [hcl'.1]; exact hne)
      rw [hsame] at hb
      exact .inl ⟨call, hc, hcl', hb⟩
    · refine .inr ⟨fun call hc hcl => ?_, hb⟩
      have hsame : abandon client call = call := abandon_of_ne (by rw [hcl.1]; exact hne)
      exact hno call (mem_map.mpr ⟨call, hc, hsame⟩) hcl
  · intro c pass r hl hr
    rw [hlink] at hl
    split at hl
    · cases hl
    · obtain ⟨⟨file, hf, hrest⟩, hprepared⟩ := hi.replaying c pass r hl hr
      refine ⟨⟨file, by rwa [hfile], hrest⟩, fun call' hc' hcl => ?_⟩
      rw [hcalls] at hc'
      obtain ⟨call, hc, rfl⟩ := mem_map.mp hc'
      rw [abandon_phase]
      exact hprepared call hc (abandon_claims hcl)

theorem opened_server (h : t.step (.openFile σ path) = some t') :
    t'.nextFh σ = t.nextFh σ + 1 ∧ t'.handles σ (t.nextFh σ) = some path := by
  cases h
  exact ⟨update_self _ _ _, setHandle_self _ _ _⟩

theorem issued_of_opened (hi : s.Inv) (hsession : s.session client = some σ)
    (hserver : s.server.step (.openFile σ path) = some s'.server)
    (hnumber : file.serverFh = s.server.nextFh σ) (hissuer : file.issuer = σ)
    (hpath : file.path = path)
    (hfile : ∀ fh', fh' ≠ fh → s'.file client fh' = s.file client fh')
    (hfree : ∀ call ∈ s.calls, call.claims client fh → call.phase.session = none) :
    Issued s s' client fh file := by
  obtain ⟨hnext, hhandle⟩ := opened_server hserver
  subst hissuer hpath
  refine ⟨hsession, hnumber.ge, ?_, by rwa [hnumber], fun fh' file' hf' hi' hn' => ?_, hfree⟩
  · rw [hnext, hnumber]
    exact Nat.lt_succ_self _
  · by_contra hne
    rw [hfile fh' hne] at hf'
    have hlt := (hi.issued client fh' file' hf').1
    rw [hi', hn', hnumber] at hlt
    exact lt_irrefl _ hlt

/-- **`open` and `create`.** -/
theorem inv_openFile (hi : s.Inv) (flags : OpenFlags) (hup : s.link client = .up σ)
    (hfree : ∀ call ∈ s.calls, ¬ call.claims client (s.server.nextFh σ))
    (hserver : s.server.step (.openFile σ path) = some s'.server)
    (hlink : ∀ c, s'.link c = s.link c)
    (hfile : ∀ c fh, s'.file c fh = if c = client ∧ fh = s.server.nextFh σ then
      some
        { path, flags, serverFh := s.server.nextFh σ, lock := none, poisoned := false, issuer := σ }
      else s.file c fh)
    (hcalls : s'.calls = s.calls) : s'.Inv := by
  have hl : s.server.Later s'.server := later_step (by simp) hserver
  have hsession : s.session client = some σ := by rw [LockSystem.session, hup]; rfl
  have hspare : ∀ σ n, s.server.Spares s'.server σ n := fun σ n =>
    spares_step hi.fresh (by simp) id hserver
  have hm : Moves s s' := by
    refine ⟨hl, fun c σ h => (hlink c).trans h, fun c σ h => .inl ?_, fun c fh file hf => ?_⟩
    · rwa [LockSystem.session, hlink] at h
    · rw [hfile] at hf
      split at hf
      · next h =>
        obtain ⟨rfl, rfl⟩ := h
        cases hf
        refine .inr (issued_of_opened hi hsession hserver rfl rfl rfl (fun fh' hne => ?_) ?_)
        · rw [hfile, if_neg fun he => hne he.2]
        · exact fun call hc hcl => absurd hcl (hfree call hc)
      · exact .inl ⟨file, hf, rfl, rfl, rfl⟩
  refine hi.moves hm (fun _ _ file _ _ hh _ => (hspare _ _).handles _ hh)
    (fun c hc => .inl (hcalls ▸ hc)) (hcalls ▸ hi.single) ?_ ?_
  · intro c σ' fh file kind hset hf hp hb
    rw [settled_congr (hlink c)] at hset
    rw [hfile] at hf
    rw [hcalls] at hb
    split at hf
    · next h =>
      obtain ⟨rfl, rfl⟩ := h
      cases hf
      rcases hb with ⟨call, hc, hcl, -⟩ | ⟨-, hb⟩
      · exact absurd hcl (hfree call hc)
      · cases hb
    · exact .inr ⟨hset, hf, hb, fun _ => .inr (hspare _ _)⟩
  · intro c pass r hlink' hr
    rw [hlink] at hlink'
    refine .inr ⟨hlink', ?_, fun c hc _ => .inl (hcalls ▸ hc)⟩
    rw [hfile, if_neg]
    rintro ⟨rfl, -⟩
    rw [hup] at hlink'
    cases hlink'

/-- **A client's supervisor does something**: to one connection, and to the entry of the handle that
it visits, if any. -/
structure Supervised (s s' : LockSystem) (client : ℕ) (visited : Option ℕ) (new : MirrorLink) :
    Prop where
  later : s.server.Later s'.server
  link : ∀ c, s'.link c = if c = client then new else s.link c
  file : ∀ c fh, ¬ (c = client ∧ fh ∈ visited) → s'.file c fh = s.file c fh
  calls : s'.calls = s.calls

theorem supervised_setLink (client : ℕ) (visited : Option ℕ) (new : MirrorLink)
    (hl : s.server.Later server) :
    Supervised s { s.setLink client new with server } client visited new :=
  ⟨hl, fun c => link_setLink s client c new, fun c fh _ => file_setLink s client c fh new, rfl⟩

theorem supervised_poison (client fh : ℕ) (new : MirrorLink) (hl : s.server.Later server) :
    Supervised s { (s.poison client fh).setLink client new with server } client (some fh) new := by
  refine ⟨hl, fun c => ?_, fun c fh' hne => ?_, calls_poison s client fh⟩
  · exact (link_setLink _ client c _).trans (by rw [link_poison])
  · refine (file_setLink _ client c fh' _).trans ?_
    rw [file_poison, if_neg]
    exact fun he => hne (he.imp_right fun he => congrArg some he.symm)

theorem Supervised.link_self {visited : Option ℕ} {new : MirrorLink}
    (h : Supervised s s' client visited new) : s'.link client = new := by
  rw [h.link, if_pos rfl]

/-- A connection that is not in use, and all that is left to show when it changes. -/
theorem Inv.supervised (hi : s.Inv) {visited : Option ℕ} {new : MirrorLink}
    (h : Supervised s s' client visited new) (hdown : ∀ σ, s.link client ≠ .up σ)
    (hsession : ∀ σ ∈ new.session, s.session client = some σ ∨
      s.server.nextSession ≤ σ ∧ σ < s'.server.nextSession)
    (hentry : ∀ fh ∈ visited, ∀ file', s'.file client fh = some file' →
      (∃ file, s.file client fh = some file ∧ Kept file' file) ∨ Issued s s' client fh file')
    (hhandles : ∀ σ n path, s.server.handles σ n = some path →
      s'.server.Dead σ ∨ s'.server.handles σ n = some path)
    (hspare : ∀ c fh file, ¬ (c = client ∧ fh ∈ visited) → s.file c fh = some file →
      s.session c = some file.issuer → s.server.Spares s'.server file.issuer file.serverFh)
    (hsettled : ∀ σ fh file, fh ∉ visited → s.file client fh = some file →
      s'.Settled client fh σ → s.Settled client fh σ)
    (hbacked : ∀ σ, ∀ fh ∈ visited, ∀ file kind, s'.Settled client fh σ →
      s'.file client fh = some file → file.poisoned = false →
      Believes s.calls client fh file.lock kind → s'.Backed σ file kind)
    (hreplaying : ∀ pass r, new = .dialling pass → pass.replay = some r →
      s'.Replaying client pass r) : s'.Inv := by
  have hother : ∀ c, c ≠ client → s'.link c = s.link c := fun c hc => by rw [h.link, if_neg hc]
  have hothers : ∀ c σ, c ≠ client → s'.session c = some σ → s.session c = some σ := by
    intro c σ hc h
    rwa [LockSystem.session, hother c hc] at h
  have hm : Moves s s' := by
    refine ⟨h.later, fun c σ hup => ?_, fun c σ hs => ?_, fun c fh file' hf => ?_⟩
    · refine (hother c ?_).trans hup
      rintro rfl
      exact hdown σ hup
    · by_cases hc : c = client
      · subst hc
        rw [LockSystem.session, h.link, if_pos rfl] at hs
        rcases hsession σ hs with hσ | ⟨hle, hlt⟩
        · exact .inl hσ
        · refine .inr ⟨hle, hlt, fun c' hc' => ?_⟩
          by_contra hne
          exact absurd (hi.bounded c' σ (hothers c' σ hne hc')) (not_lt.mpr hle)
      · exact .inl (hothers c σ hc hs)
    · by_cases hc : c = client ∧ fh ∈ visited
      · obtain ⟨rfl, hc⟩ := hc
        exact hentry fh hc file' hf
      · exact .inl ⟨file', (h.file c fh hc).symm.trans hf, rfl, rfl, rfl⟩
  refine hi.moves hm (fun _ _ file _ _ hh _ => hhandles _ _ _ hh) (fun c hc => .inl (h.calls ▸ hc))
    (h.calls ▸ hi.single) ?_ ?_
  · intro c σ fh file kind hset hf hp hb
    rw [h.calls] at hb
    by_cases hc : c = client ∧ fh ∈ visited
    · obtain ⟨rfl, hc⟩ := hc
      exact .inl (hbacked σ fh hc file kind hset hf hp hb)
    · rw [h.file c fh hc] at hf
      have hset₀ : s.Settled c fh σ := by
        by_cases he : c = client
        · subst he
          exact hsettled σ fh file (fun hv => hc ⟨rfl, hv⟩) hf hset
        · exact (settled_congr (hother c he) fh σ).mp hset
      refine .inr ⟨hset₀, hf, hb, fun hissuer => .inr ?_⟩
      subst hissuer
      exact hspare c fh file hc hf hset₀.session
  · intro c pass r hl hr
    by_cases hc : c = client
    · subst hc
      rw [h.link, if_pos rfl] at hl
      exact .inl (hreplaying pass r hl hr)
    · rw [hother c hc] at hl
      exact .inr ⟨hl, h.file c _ fun he => hc he.1, fun c hc _ => .inl (h.calls ▸ hc)⟩

theorem inv_dial (hi : s.Inv) {order : List ℕ} (hdown : s.link client = .down)
    (horder : ∀ fh file, s.file client fh = some file → fh ∈ order)
    (hserver : s.server.step .connect = some server) :
    Inv { s.setLink client (.dialling ⟨s.server.nextSession, order, none⟩) with server } := by
  have hspare : ∀ σ n, s.server.Spares server σ n := fun σ n =>
    spares_step hi.fresh (by simp) id hserver
  have h := supervised_setLink client none (.dialling ⟨s.server.nextSession, order, none⟩)
    (later_step (by simp) hserver)
  refine hi.supervised h (by simp [hdown]) (fun σ hσ => .inr ?_) (by simp)
    (fun σ n path => (hspare σ n).handles path) (fun _ _ _ _ _ _ => hspare _ _)
    (fun σ fh file _ hf hset => ?_) (by simp) ?_
  · cases hσ
    rw [← some.inj hserver]
    exact ⟨le_rfl, Nat.lt_succ_self _⟩
  · rw [Settled, h.link_self] at hset
    exact absurd (horder fh file hf) hset.2.1
  · intro pass r h hr
    cases h
    cases hr

theorem inv_swap (hi : s.Inv) (hpass : s.link client = .dialling pass)
    (htodo : pass.todo = []) (hreplay : pass.replay = none) :
    Inv (s.setLink client (.up pass.session)) := by
  have h : Supervised s (s.setLink client (.up pass.session)) client none (.up pass.session) :=
    supervised_setLink client none (.up pass.session) (.refl s.server)
  refine hi.supervised h (by simp [hpass]) (fun σ hσ => .inl ?_) (by simp) (fun σ n path => .inr)
    (fun _ _ _ _ _ _ => .refl _ _ _) (fun σ fh file _ _ hset => ?_) (by simp) (by simp)
  · rw [LockSystem.session, hpass]
    exact hσ
  · rw [Settled, h.link_self] at hset
    rw [Settled, hpass]
    refine ⟨hset, by rw [htodo]; exact not_mem_nil, fun r hr => ?_⟩
    rw [hreplay] at hr
    cases hr

theorem lock_of_believes {lock : Option LockKind}
    (hprepared : ∀ call ∈ calls, call.claims client fh → call.phase = .prepared)
    (hb : Believes calls client fh lock kind) : lock = some kind := by
  rcases hb with ⟨call, hc, hcl, hb⟩ | ⟨-, hb⟩
  · rw [HandleCall.believes, hprepared call hc hcl] at hb
    exact hb
  · exact hb

theorem settled_before {pass' : Pass} {fh' : ℕ}
    (hpass : s.link client = .dialling pass) (hreplay : pass.replay = none)
    (htodo : pass.todo = fh :: rest) (hnew : s'.link client = .dialling pass')
    (hsession : pass'.session = pass.session) (hrest : pass'.todo = rest) (hne : fh' ≠ fh)
    (h : s'.Settled client fh' σ) : s.Settled client fh' σ := by
  rw [Settled, hnew] at h
  rw [Settled, hpass]
  refine ⟨hsession ▸ h.1, ?_, fun r hr => ?_⟩
  · rw [htodo, mem_cons]
    exact fun hm => hm.elim hne (hrest ▸ h.2.1)
  · rw [hreplay] at hr
    cases hr

theorem inv_visit_failed (hi : s.Inv)
    (hpass : s.link client = .dialling pass) (hreplay : pass.replay = none)
    (htodo : pass.todo = fh :: rest)
    (hprepared : ∀ call ∈ s.calls, call.claims client fh → call.phase = .prepared)
    (h : Supervised s s' client (some fh) (.dialling { pass with todo := rest }))
    (hspare : ∀ σ n, s.server.Spares s'.server σ n)
    (hvisited : ∀ file', s'.file client fh = some file' →
      (file'.poisoned = true ∨ file'.lock = none) ∧ ∃ file, s.file client fh = some file ∧
      Kept file' file) :
    s'.Inv := by
  refine hi.supervised h (by simp [hpass]) (fun σ hσ => .inl ?_) ?_
    (fun σ n path => (hspare σ n).handles path) (fun _ _ _ _ _ _ => hspare _ _)
    (fun σ fh' _ hne _ hset => ?_) ?_ ?_
  · rw [LockSystem.session, hpass]
    exact hσ
  · rintro _ ⟨⟩ file' hf
    exact .inl (hvisited file' hf).2
  · exact settled_before hpass hreplay htodo h.link_self rfl rfl (fun he => hne (he ▸ rfl)) hset
  · rintro σ _ ⟨⟩ file kind - hf hp hb
    rcases (hvisited file hf).1 with hpo | hlock
    · rw [hp] at hpo
      cases hpo
    · have h := lock_of_believes hprepared hb
      rw [hlock] at h
      cases h
  · intro pass' r h hr
    cases h
    rw [hreplay] at hr
    cases hr

/-- **A handle is opened again.** -/
theorem inv_visit_done (hi : s.Inv)
    (hpass : s.link client = .dialling pass) (hreplay : pass.replay = none)
    (htodo : pass.todo = fh :: rest)
    (hprepared : ∀ call ∈ s.calls, call.claims client fh → call.phase = .prepared)
    (hserver : s.server.step (.openFile pass.session file.path) = some s'.server)
    (h : Supervised s s' client (some fh) (.dialling ⟨pass.session, rest,
      file.lock.map fun kind => ⟨fh, s.server.nextFh pass.session, kind, 4⟩⟩))
    (hentry : s'.file client fh =
      some { file with serverFh := s.server.nextFh pass.session, issuer := pass.session }) :
      s'.Inv := by
  have hspare : ∀ σ n, s.server.Spares s'.server σ n := fun σ n =>
    spares_step hi.fresh (by simp) id hserver
  have hsession : s.session client = some pass.session := by rw [LockSystem.session, hpass]; rfl
  refine hi.supervised h (by simp [hpass]) (fun σ hσ => .inl (hsession.trans hσ)) ?_
    (fun σ n path => (hspare σ n).handles path) (fun _ _ _ _ _ _ => hspare _ _)
    (fun σ fh' _ hne _ hset => ?_) ?_ ?_
  · rintro _ ⟨⟩ file' hf
    rw [hentry] at hf
    cases hf
    refine .inr (issued_of_opened hi hsession hserver rfl rfl rfl (fun fh' hne => ?_) ?_)
    · exact h.file _ fh' fun he => hne (some.inj he.2).symm
    · exact fun call hc hcl => by rw [hprepared call hc hcl]; rfl
  · exact settled_before hpass hreplay htodo h.link_self rfl rfl (fun he => hne (he ▸ rfl)) hset
  · rintro σ _ ⟨⟩ file' kind hset hf - hb
    rw [hentry] at hf
    cases hf
    -- its lock is yet to be asked for
    have hkind : file.lock = some kind := lock_of_believes hprepared hb
    rw [Settled, h.link_self, hkind] at hset
    exact absurd rfl (hset.2.2 _ rfl)
  · intro pass' r he hr
    cases he
    obtain ⟨kind, hkind, rfl⟩ := map_eq_some_iff.mp hr
    exact ⟨⟨_, hentry, hkind, rfl, rfl⟩, h.calls ▸ hprepared⟩

theorem replayed_server {n : ℕ} (hh : t.handles σ n = some path)
    (h : exec LockServer.step t [.lockLookup σ n kind false, .lockAttempt t.nextTask] = some t') :
    t'.handles = t.handles ∧ (∀ σ' n', ¬ (σ' = σ ∧ n' = n) → t.Spares t' σ' n') ∧
      (compatible (dropHandle (t.locks.holders path) σ n) kind = true →
        (⟨σ, n, kind⟩ : Holder) ∈ t'.locks.holders path) := by
  simp only [exec, LockServer.step, hh, update_self, runnable, if_true,
    some.injEq] at h
  subst h
  refine ⟨rfl, fun σ' n' hne => ?_, fun hc => ?_⟩
  · have hspare : LockServer.Spares _ (runAttempt { t with
        nextTask := t.nextTask + 1
        tasks := update t.tasks t.nextTask (some ⟨path, σ, n, kind, false, .trying⟩) }
        t.nextTask ⟨path, σ, n, kind, false, .trying⟩) σ' n' :=
      spares_runAttempt fun h => hne ⟨h.1.symm, h.2.symm⟩
    exact ⟨hspare.handles, hspare.holders⟩
  · simp only [runAttempt]
    rw [LockTable.holders_attempt, if_pos rfl, if_pos hc]
    exact mem_append_right _ (mem_singleton_self _)

/-- **The supervisor asks for a lock.** -/
theorem inv_replay (hi : s.Inv) {replay' : Option Replay}
    (hpass : s.link client = .dialling pass) (hr : pass.replay = some r)
    (h : Supervised s s' client (some r.fh) (.dialling { pass with replay := replay' }))
    (hhandles : s'.server.handles = s.server.handles)
    (hspare : ∀ σ n, ¬ (σ = pass.session ∧ n = r.number) → s.server.Spares s'.server σ n)
    (hreplay : ∀ r' ∈ replay', r'.fh = r.fh ∧ r'.number = r.number ∧ r'.kind = r.kind)
    (hentry : ∀ file, s.file client r.fh = some file → ∃ file', s'.file client r.fh = some file' ∧
      Kept file' file ∧ file'.lock = file.lock ∧
      (replay' = none → file'.poisoned = true ∨ s'.Backed pass.session file' r.kind)) : s'.Inv := by
  have hsession : s.session client = some pass.session := by rw [LockSystem.session, hpass]; rfl
  obtain ⟨⟨file, hf, hlock, hissuer, hnumber⟩, hprepared⟩ := hi.replaying client pass r hpass hr
  obtain ⟨file', hf', hk, hlock', hdone⟩ := hentry file hf
  refine hi.supervised h (by simp [hpass]) (fun σ hσ => .inl (hsession.trans hσ)) ?_
    (fun σ n path hh => .inr (by rwa [hhandles])) (fun c fh file'' hne hf'' hs => ?_)
    (fun σ fh _ hne _ hset => ?_) ?_ ?_
  · rintro _ ⟨⟩ file'' hf''
    rw [hf'] at hf''
    cases hf''
    exact .inl ⟨file, hf, hk⟩
  · -- no other entry has the number
    refine hspare _ _ fun he => hne ?_
    rw [he.1] at hs
    obtain rfl := hi.apart _ _ _ hs hsession
    refine ⟨rfl, congrArg some ?_⟩
    exact hi.numbers c r.fh fh file file'' hf hf'' (hissuer.trans he.1.symm)
      (hnumber.trans he.2.symm)
  · rw [Settled, h.link_self] at hset
    rw [Settled, hpass]
    refine ⟨hset.1, hset.2.1, fun r' hr' he => hne ?_⟩
    rw [← he, some.inj (hr.symm.trans hr')]
    rfl
  · rintro σ _ ⟨⟩ file'' kind hset hf'' hp hb
    rw [Settled, h.link_self] at hset
    obtain ⟨rfl, -, hset⟩ := hset
    rw [hf'] at hf''
    cases hf''
    have hnone : replay' = none := by
      cases h : replay' with
      | none => rfl
      | some r' => exact absurd (hreplay r' h).1 (hset r' h)
    rcases hdone hnone with hpo | hback
    · rw [hp] at hpo
      cases hpo
    · have hkind := lock_of_believes hprepared hb
      rw [hlock', hlock] at hkind
      cases hkind
      exact hback
  · intro pass' r' he hr'
    cases he
    obtain ⟨h₁, h₂, h₃⟩ := hreplay r' hr'
    refine ⟨⟨file', h₁ ▸ hf', ?_, hk.1.trans hissuer, ?_⟩, h.calls ▸ h₁ ▸ hprepared⟩
    · rw [hlock', hlock, h₃]
    · rw [hk.2.1, hnumber, h₂]

theorem visited_eq {fh : ℕ} {rest : List ℕ} (h : s.visited client = some (pass, fh, rest)) :
    s.link client = .dialling pass ∧ pass.replay = none ∧ pass.todo = fh :: rest := by
  rw [visited] at h
  split at h
  · next pass hl =>
    split at h
    · next hr ht =>
      cases h
      exact ⟨hl, hr, ht⟩
    · cases h
  · cases h

theorem replayed_eq (h : s.replayed client = some (pass, r)) :
    s.link client = .dialling pass ∧ pass.replay = some r := by
  rw [replayed] at h
  split at h
  · next pass hl =>
    obtain ⟨r, hr, h⟩ := map_eq_some_iff.mp h
    cases h
    exact ⟨hl, hr⟩
  · cases h

theorem spares_maybe_open (hi : s.Inv) {σ : ℕ} {path : RelPath}
    (hserver : exec LockServer.step s.server
      (if ending = .unserved then [] else [.openFile σ path]) =
      some server) (σ' n : ℕ) : s.server.Spares server σ' n := by
  split at hserver
  · rw [← some.inj hserver]
    exact .refl _ σ' n
  · exact spares_step hi.fresh (by simp) id (exec_singleton hserver)

theorem inv_visit (hi : s.Inv) (hok : s.mirrorOk (.visit client ending))
    (hc : s.runVisit client ending = some s₁)
    (hserver : exec LockServer.step s.server (s.serverSteps (.visit client ending)) = some server) :
    Inv { s₁ with server } := by
  have hl : s.server.Later server := later_exec _ serverSteps_ne hserver
  cases hv : s.visited client with
  | none => simp [runVisit, hv] at hc
  | some v =>
    obtain ⟨pass, fh, rest⟩ := v
    obtain ⟨hpass, hreplay, htodo⟩ := visited_eq hv
    have hprepared := hok _ hv
    simp only [runVisit, hv] at hc
    simp only [serverSteps, hv] at hserver
    cases hf : s.file client fh with
    | none =>
      simp only [hf, some.injEq] at hc hserver
      subst hc
      refine inv_visit_failed hi hpass hreplay htodo hprepared (supervised_setLink client _ _ hl)
        (fun σ n => some.inj hserver ▸ .refl _ σ n) (fun file' h => ?_)
      cases hf.symm.trans ((file_setLink s client client fh _).symm.trans h)
    | some file =>
      simp only [hf] at hc hserver
      by_cases hdone : ending = .done
      · simp only [hdone, if_true, some.injEq] at hc
        subst hc
        rw [hdone, if_neg (by simp)] at hserver
        refine inv_visit_done hi hpass hreplay htodo hprepared (exec_singleton hserver)
          ⟨hl, fun c => ?_, fun c fh' hne => ?_, rfl⟩ ?_
        · exact (link_setLink _ client c _).trans (by rw [link_setFile])
        · refine (file_setLink _ client c fh' _).trans ((file_setFile s client c fh fh' _).trans ?_)
          exact if_neg fun he => hne (he.imp_right fun he => congrArg some he.symm)
        · refine (file_setLink _ client client fh _).trans
            ((file_setFile s client client fh fh _).trans ?_)
          exact if_pos ⟨rfl, rfl⟩
      · simp only [if_neg hdone, some.injEq] at hc
        have hspare := spares_maybe_open hi hserver
        cases hlock : file.lock with
        | none =>
          simp only [hlock, isSome_none, Bool.false_eq_true, if_false] at hc
          subst hc
          refine inv_visit_failed hi hpass hreplay htodo hprepared
              (supervised_setLink client _ _ hl)
            hspare (fun file' h => ?_)
          cases hf.symm.trans ((file_setLink s client client fh _).symm.trans h)
          exact ⟨.inr hlock, file, hf, rfl, rfl, rfl⟩
        | some kind =>
          simp only [hlock, isSome_some, if_true] at hc
          subst hc
          refine inv_visit_failed hi hpass hreplay htodo hprepared
              (supervised_poison client fh _ hl)
            hspare (fun file' h => ?_)
          replace h := (file_setLink _ client client fh _).symm.trans h
          rw [file_poison, if_pos ⟨rfl, rfl⟩, hf] at h
          cases h
          exact ⟨.inl rfl, file, hf, rfl, rfl, rfl⟩

theorem inv_replay_lost (hi : s.Inv)
    (hpass : s.link client = .dialling pass) (hr : pass.replay = some r)
    (hl : s.server.Later server) (hhandles : server.handles = s.server.handles)
    (hspare : ∀ σ n, ¬ (σ = pass.session ∧ n = r.number) → s.server.Spares server σ n) :
    Inv { (s.poison client r.fh).setLink client (.dialling { pass with replay := none }) with
      server } := by
  refine inv_replay hi hpass hr (supervised_poison client r.fh _ hl) hhandles hspare (by simp)
    (fun file hf => ⟨{ file with poisoned := true }, ?_, ⟨rfl, rfl, rfl⟩, rfl, fun _ => .inl rfl⟩)
  refine (file_setLink _ client client r.fh _).trans ?_
  rw [file_poison, if_pos ⟨rfl, rfl⟩, hf]
  rfl

theorem inv_runReplay (hi : s.Inv) (hc : s.runReplay client ending = some s₁)
    (hserver : exec LockServer.step s.server (s.serverSteps (.replay client ending)) =
      some server) :
    Inv { s₁ with server } := by
  have hl : s.server.Later server := later_exec _ serverSteps_ne hserver
  cases hv : s.replayed client with
  | none => simp [runReplay, hv] at hc
  | some v =>
    obtain ⟨pass, r⟩ := v
    obtain ⟨hpass, hr⟩ := replayed_eq hv
    simp only [runReplay, hv] at hc
    simp only [serverSteps, hv] at hserver
    cases hh : s.server.handles pass.session r.number with
    | none =>
      simp only [hh, isSome_none, Bool.false_eq_true, if_false, some.injEq]
        at hc hserver
      subst hc
      obtain rfl : s.server = server := by
        split at hserver
        · exact some.inj hserver
        · have h := exec_singleton hserver
          simp only [LockServer.step, hh, some.injEq] at h
          exact h
      exact inv_replay_lost hi hpass hr hl rfl fun σ n _ => .refl _ σ n
    | some path =>
      simp only [hh, isSome_some, if_true] at hc hserver
      by_cases hunserved : ending = .unserved
      · rw [if_pos hunserved] at hserver
        cases hserver
        have hne : ending ≠ .done := by simp [hunserved]
        simp only [ne_eq, hne, not_false_iff, if_true, some.injEq] at hc
        subst hc
        exact inv_replay_lost hi hpass hr hl rfl fun σ n _ => .refl _ σ n
      rw [if_neg hunserved] at hserver
      obtain ⟨hhandles, hspare, hgranted⟩ := replayed_server hh hserver
      by_cases hdone : ending ≠ .done
      · rw [if_pos hdone, some.injEq] at hc
        subst hc
        exact inv_replay_lost hi hpass hr hl hhandles hspare
      rw [if_neg hdone] at hc
      by_cases hg : s.grants pass.session r.number path r.kind = true
      · simp only [hg, if_true, some.injEq] at hc
        subst hc
        refine inv_replay hi hpass hr (supervised_setLink client _ _ hl) hhandles hspare (by simp)
          (fun file hf => ⟨file, ?_, ⟨rfl, rfl, rfl⟩, rfl, fun _ => .inr ?_⟩)
        · exact (file_setLink s client client r.fh _).trans hf
        · -- the handle is the one that the new session has opened for the entry
          obtain ⟨⟨file', hf', -, hissuer, hnumber⟩, -⟩ := hi.replaying client pass r hpass hr
          obtain rfl : file' = file := some.inj (hf'.symm.trans hf)
          have hsession : s.session client = some file'.issuer := by
            rw [LockSystem.session, hpass, hissuer]
            rfl
          rcases hi.denotes client r.fh file' hf hsession with hd | hd
          · exact .inl (hissuer ▸ hl.dead _ (hi.bounded _ _ hsession) hd)
          · rw [hissuer, hnumber, hh] at hd
            refine .inr ⟨hissuer, ?_⟩
            rw [hnumber, ← some.inj hd]
            exact hgranted hg
      simp only [hg, Bool.false_eq_true, if_false] at hc
      split at hc
      · simp only [some.injEq] at hc
        subst hc
        exact inv_replay_lost hi hpass hr hl hhandles hspare
      · simp only [some.injEq] at hc
        subst hc
        refine inv_replay hi hpass hr (supervised_setLink client _ _ hl) hhandles hspare
          (fun r' hr' => ?_) (fun file hf => ⟨file, ?_, ⟨rfl, rfl, rfl⟩, rfl, by simp⟩)
        · cases hr'
          exact ⟨rfl, rfl, rfl⟩
        · exact (file_setLink s client client r.fh _).trans hf

end Connections

end LockSystem

end AlloyFs
