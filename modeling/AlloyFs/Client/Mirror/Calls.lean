import AlloyFs.Client.Mirror.Invariant

/-!
# Calls keep the mirror right

What the server does for one call leaves the handles of the others alone: `Inv.advance`.  With it
each event of a call, from its request to its end, keeps the invariant.
-/

namespace AlloyFs

open Function Option List LockServer

variable {t t' : LockServer} {l : LockStep} {calls : List HandleCall} {file : MirroredState}

namespace LockSystem

/-! ## The server's part -/

section Server

variable {s s' : LockSystem} {e : LockEvent} {call call' : HandleCall}

theorem step_eq (h : s.step e = some s') : ∃ s₁ server, s.clientStep e = some s₁ ∧
    exec LockServer.step s.server (s.serverSteps e) = some server ∧ s' = { s₁ with server } := by
  rw [step] at h
  split at h
  · next s₁ server hc hserver =>
    cases h
    exact ⟨s₁, server, hc, hserver, rfl⟩
  · cases h

theorem later_exec (ls : List LockStep) (hls : ∀ l ∈ ls, ∀ session, l ≠ .freeHandles session false)
    (h : exec LockServer.step t ls = some t') : t.Later t' := by
  induction ls generalizing t with
  | nil =>
    cases h
    exact .refl _
  | cons l ls ih =>
    rw [exec_cons, bind_eq_some_iff] at h
    obtain ⟨t₁, ht₁, h⟩ := h
    exact (later_step (hls l mem_cons_self) ht₁).trans
      (ih (fun l hl => hls l (mem_cons_of_mem _ hl)) h)

theorem exec_singleton (h : exec LockServer.step t [l] = some t') : t.step l = some t' := by
  rw [exec_cons, bind_eq_some_iff] at h
  obtain ⟨t₁, ht₁, h⟩ := h
  cases h
  exact ht₁

theorem serverSteps_ne : ∀ l ∈ s.serverSteps e, ∀ session, l ≠ .freeHandles session false := by
  intro l hl session he
  subst he
  cases e <;> simp only [serverSteps] at hl <;> repeat' split at hl
  all_goals simp at hl

theorem CallOk.touch (hc : s.CallOk call) {σ client fh : ℕ}
    (hσ : σ ∈ call.phase.session) (hs : s.session client = some σ)
    (hf : s.file client fh = some file)
    (hissuer : file.issuer = σ) (hn : file.serverFh = call.number) :
    client = call.client ∧ fh = call.fh ∧ call.op ≠ .release := by
  obtain ⟨hi, -, ho⟩ := hc.sent σ hσ
  obtain rfl := ho client hs
  obtain rfl := hc.own σ hi fh file hf hissuer hn
  exact ⟨rfl, rfl, fun hop => hc.gone hop σ hi file hf hissuer hn⟩

end Server

/-! ## Calls -/

section Calls

variable {s s' : LockSystem} {server : LockServer} {call : HandleCall}
  {σ id : ℕ} {file : MirroredState} {kind : LockKind} {phase : CallPhase} {path : RelPath}
  {parked : Bool}

/-- **A call moves on.**  The server may do something for its handle, and leaves the others
alone. -/
theorem Inv.advance (hi : s.Inv) (hl : s.server.Later server) (hmem : call ∈ s.calls)
    (hok : CallOk { s.replaceCall call { call with phase } with server } { call with phase })
    (hprep : call.phase ≠ .prepared ∨ ∃ σ, s.link call.client = .up σ)
    (hhandles : ∀ client fh file, s.file client fh = some file →
      s.session client = some file.issuer →
      s.server.handles file.issuer file.serverFh = some file.path →
      server.Dead file.issuer ∨ server.handles file.issuer file.serverFh = some file.path)
    (hspare : ∀ client fh file, s.file client fh = some file → s.session client = some file.issuer →
      ¬ call.claims client fh → server.Dead file.issuer ∨
        s.server.Spares server file.issuer file.serverFh)
    (hown : ∀ σ file kind, call.claims call.client call.fh → s.Settled call.client call.fh σ →
      s.file call.client call.fh = some file → file.poisoned = false →
      HandleCall.believes { call with phase } file.lock = some kind →
      (∀ kind, call.believes file.lock = some kind → s.Backed σ file kind) →
      Backed { s with server } σ file kind) :
    Inv { s.replaceCall call { call with phase } with server } := by
  refine hi.moves (.of_server hl _)
      (fun client fh file hf hs hh _ => hhandles client fh file hf hs hh)
    ?_ (hi.single.replace hmem fun _ _ => id) ?_ ?_
  · intro c hc
    rcases mem_cons.mp hc with rfl | hc
    · exact .inr hok
    · exact .inl (mem_of_mem_erase hc)
  · intro client σ fh file kind hset hf hp hb
    by_cases hc : call.claims client fh
    · obtain ⟨rfl, rfl, -⟩ := id hc
      have hc' : HandleCall.claims { call with phase } call.client call.fh := hc
      have hb' := believes_cons (hi.single.not_claims hmem hc) hc' hb
      exact .inl (hown σ file kind hc hset hf hp hb' fun k hk =>
        hi.backed _ σ _ file k hset hf hp (believes_of_claims hmem hc hk))
    · have hc' : ¬ HandleCall.claims { call with phase } client fh := hc
      refine .inr ⟨hset, hf, believes_of_erase hc (believes_of_cons hc' hb), fun hissuer => ?_⟩
      subst hissuer
      exact hspare client fh file hf (Settled.session (s := s) hset) hc
  · intro client pass r hlink hr
    refine .inr ⟨hlink, rfl, fun c hc hcl => .inl ?_⟩
    rcases mem_cons.mp hc with rfl | hc
    · have hp := (hi.replaying client pass r hlink hr).calls call hmem hcl
      rcases hprep with hne | ⟨σ, hup⟩
      · exact absurd hp hne
      · have hclient : call.client = client := hcl.1
        rw [hclient] at hup
        cases hup.symm.trans hlink
    · exact mem_of_mem_erase hc

theorem CallOk.stay (h : s.CallOk call) (hσ : σ ∈ call.phase.session)
    (hphase : phase.session = some σ)
    (htask : ∀ σ path id parked, phase = .locking σ path id parked →
      id < s.server.nextTask ∧ ∀ task ∈ s.server.tasks id, task.session = σ ∧
      task.fh = call.number ∧
        task.path = path ∧ ∀ kind wait, call.op = .lock kind wait → task.kind = kind)
    (hpath : call.claims call.client call.fh →
      ∀ σ path id parked, phase = .locking σ path id parked →
      ∀ file, s.file call.client call.fh = some file → s.server.Dead σ ∨ file.path = path) :
    s.CallOk { call with phase } := by
  have hsame : ∀ σ' ∈ phase.session, σ' ∈ call.phase.session := by
    intro σ' h'
    rw [hphase] at h'
    cases h'
    exact hσ
  refine ⟨fun σ' h' => h.sent σ' (hsame σ' h'), fun hw σ' h' => h.waits hw σ' (hsame σ' h'),
      h.number,
    h.own, h.gone, fun hw hop σ' h' => h.abandoned hw hop σ' (hsame σ' h'), ?_, htask,
    fun hc σ' h' => h.same hc σ' (hsame σ' h'), hpath⟩
  intro hnone
  rw [hphase] at hnone
  cases hnone

theorem CallOk.outside (h : s.CallOk call) (hphase : phase.session = none)
    (hw : call.waiting = true) : s.CallOk { call with phase } := by
  have hno : ∀ σ, ¬ σ ∈ phase.session := by
    intro σ h'
    rw [hphase] at h'
    cases h'
  refine ⟨fun σ h' => absurd h' (hno σ), fun _ σ h' => absurd h' (hno σ), h.number, h.own, h.gone,
    fun _ _ σ h' => absurd h' (hno σ), fun _ => hw, ?_, fun _ σ h' => absurd h' (hno σ), ?_⟩
  · rintro σ path id parked rfl
    cases hphase
  · rintro - σ path id parked rfl
    cases hphase

theorem inv_send (hi : s.Inv) (hmem : call ∈ s.calls) (hp : call.phase = .prepared)
    (hlink : s.link call.client = .up σ) (hissuer : call.issuer = some σ)
    (hnumber : call.op ≠ .release → ∀ file ∈ s.file call.client call.fh,
      file.issuer = σ ∧ file.serverFh = call.number) :
    (s.replaceCall call { call with phase := .travelling σ }).Inv := by
  have hok := hi.calls call hmem
  have hw := hok.there (by rw [hp]; rfl)
  have hsession : s.session call.client = some σ := by rw [LockSystem.session, hlink]; rfl
  refine hi.advance (.refl _) hmem ?_ (.inr ⟨σ, hlink⟩) (fun _ _ _ _ _ hh => .inr hh)
    (fun _ _ _ _ _ _ => .inr (.refl _ _ _)) ?_
  · refine ⟨?_, ?_, hok.number, hok.own, hok.gone, ?_, fun _ => hw, by simp, ?_, by simp⟩
    · intro σ' h'
      cases h'
      exact ⟨hissuer, hi.bounded _ _ hsession, fun client hc => hi.apart _ _ _ hc hsession⟩
    · intro _ σ' h'
      cases h'
      exact hlink
    · intro hw'
      rw [hw] at hw'
      cases hw'
    · intro hc σ' h' file hf
      cases h'
      exact hnumber hc.2.2.1 file hf
  · intro σ' file kind _ _ _ _ hb hback
    refine hback kind ?_
    rw [HandleCall.believes, hp]
    exact hb

/-- The server works on a call: of the handles that clients have, it touches at most that one. -/
theorem Inv.spares_of_call (hi : s.Inv) (hmem : call ∈ s.calls)
    (hσ : σ ∈ call.phase.session) (hl : ∀ session, l ≠ .freeHandles session false)
    (htouch : ∀ session fh, s.server.touches session fh l → session = σ ∧ fh = call.number)
    (hserver : s.server.step l = some server) {client fh : ℕ}
    (hf : s.file client fh = some file) (hs : s.session client = some file.issuer)
    (ho : call.op = .release ∨ ¬ (client = call.client ∧ fh = call.fh)) :
    s.server.Spares server file.issuer file.serverFh := by
  refine spares_step hi.fresh hl (fun ht => ?_) hserver
  obtain ⟨hissuer, hn⟩ := htouch _ _ ht
  rw [hissuer] at hs
  obtain ⟨hc, hfh, hop⟩ := (hi.calls call hmem).touch hσ hs hf hissuer hn
  exact ho.elim hop fun hno => hno ⟨hc, hfh⟩

theorem believes_arrival {session : ℕ} {lock : Option LockKind} (hop : call.op ≠ .release) :
    HandleCall.believes { call with phase := s.arrival call session } lock = lock := by
  rw [HandleCall.believes, arrival]
  cases hc : call.op with
  | release => exact absurd hc hop
  | lock kind wait => cases s.server.handles session call.number <;> rfl
  | unlock => cases s.server.handles session call.number <;> rfl

theorem session_arrival (session : ℕ) : (s.arrival call session).session = some session := by
  rw [arrival]
  split <;> rfl

theorem arrival_locking {session : ℕ} (h : s.arrival call session = .locking σ path id parked) :
    ∃ kind wait, call.op = .lock kind wait ∧ σ = session ∧ id = s.server.nextTask ∧
      s.server.handles session call.number = some path := by
  rw [arrival] at h
  split at h <;> cases h
  next kind wait hop hh => exact ⟨kind, wait, hop, rfl, rfl, hh⟩

/-- **The server looks the handle up.** -/
theorem inv_arrive (hi : s.Inv) (hmem : call ∈ s.calls) (hp : call.phase = .travelling σ)
    (hserver : exec LockServer.step s.server (s.serverSteps (.arrive call)) = some server) :
    Inv { s.replaceCall call { call with phase := s.arrival call σ } with server } := by
  have hl : s.server.Later server := later_exec _ serverSteps_ne hserver
  have hσ : σ ∈ call.phase.session := by rw [hp]; rfl
  have hok := hi.calls call hmem
  -- only a release says anything about its handle
  have hspare : ∀ client fh file, s.file client fh = some file →
      s.session client = some file.issuer → s.server.Spares server file.issuer file.serverFh := by
    intro client fh file hf hs
    simp only [serverSteps, hp] at hserver
    cases hop : call.op with
    | lock kind wait =>
      rw [hop] at hserver
      exact spares_step hi.fresh (by simp) id (exec_singleton hserver)
    | unlock =>
      rw [hop] at hserver
      exact spares_step hi.fresh (by simp) id (exec_singleton hserver)
    | release =>
      rw [hop] at hserver
      have htouch : ∀ session fh, s.server.touches session fh (.releaseHandle σ call.number) →
          session = σ ∧ fh = call.number := fun _ _ h => ⟨h.1.symm, h.2.symm⟩
      exact hi.spares_of_call hmem hσ (by simp) htouch (exec_singleton hserver) hf hs (.inl hop)
  refine hi.advance hl hmem ?_ (.inl (by simp [hp])) ?_ ?_ ?_
  · refine (hok.moves (.of_server hl _) hmem).stay hσ (session_arrival σ) ?_ ?_
    · intro σ' path id parked h
      obtain ⟨kind, wait, hop, rfl, rfl, hh⟩ := arrival_locking h
      simp only [serverSteps, hp, hop] at hserver
      have hs := exec_singleton hserver
      simp only [LockServer.step, hh, some.injEq] at hs
      rw [← hs]
      refine ⟨Nat.lt_succ_self _, fun task ht => ?_⟩
      dsimp only at ht
      rw [update_self] at ht
      cases ht
      refine ⟨rfl, rfl, rfl, fun kind' wait' hop' => ?_⟩
      rw [hop] at hop'
      cases hop'
      rfl
    · intro hc σ' path id parked h file hf
      obtain ⟨-, -, -, rfl, -, hh⟩ := arrival_locking h
      obtain ⟨hissuer, hn⟩ := hok.same hc σ' hσ file hf
      have hsession : s.session call.client = some file.issuer := by
        rw [hissuer, LockSystem.session, hok.waits hc.2.2.2 σ' hσ]
        rfl
      rcases hi.denotes _ _ file hf hsession with hd | hd
      · exact .inl (hl.dead σ' (hok.sent σ' hσ).2.1 (hissuer ▸ hd))
      · rw [hissuer, hn, hh] at hd
        exact .inr (some.inj hd).symm
  · intro client fh file hf hs hh
    exact (hspare client fh file hf hs).handles _ hh
  · intro client fh file hf hs _
    exact .inr (hspare client fh file hf hs)
  · intro σ' file kind hc hset hf _ hb hback
    have hbefore : call.believes file.lock = some kind := by
      rw [HandleCall.believes, hp]
      exact (believes_arrival hc.2.2.1).symm.trans hb
    refine (hback kind hbefore).spares (hi.bounded _ _ hset.session) hl fun hissuer => .inr ?_
    subst hissuer
    exact hspare _ _ file hf hset.session

/-- A caller whose request the server works on, and who no longer waits, has a dead session. -/
theorem Inv.spares_of_serve (hi : s.Inv) (hmem : call ∈ s.calls)
    (hσ : σ ∈ call.phase.session) (hl : ∀ session, l ≠ .freeHandles session false)
    (htouch : ∀ session fh, s.server.touches session fh l → session = σ ∧ fh = call.number)
    (hserver : s.server.step l = some server) {client fh : ℕ}
    (hf : s.file client fh = some file) (hs : s.session client = some file.issuer)
    (hc : ¬ call.claims client fh) :
    server.Dead file.issuer ∨ s.server.Spares server file.issuer file.serverFh := by
  have hok := hi.calls call hmem
  by_cases ho : call.op = .release ∨ ¬ (client = call.client ∧ fh = call.fh)
  · exact .inr (hi.spares_of_call hmem hσ hl htouch hserver hf hs ho)
  obtain ⟨hop, rfl, rfl⟩ := by simpa only [not_or, not_not] using ho
  by_cases hissuer : file.issuer = σ
  · have hw : call.waiting = false := by
      cases hw : call.waiting with
      | false => rfl
      | true => exact absurd ⟨rfl, rfl, hop, hw⟩ hc
    have hd := hok.abandoned hw hop σ hσ (hissuer ▸ hs)
    exact .inl (hissuer ▸ (later_step hl hserver).dead σ (hok.sent σ hσ).2.1 hd)
  · refine .inr (spares_step hi.fresh hl (fun ht => ?_) hserver)
    exact hissuer (htouch _ _ ht).1

theorem touches_attempt (hok : s.CallOk call) (hp : call.phase = .locking σ path id parked) :
    ∀ session fh, s.server.touches session fh (.lockAttempt id) → session = σ ∧
    fh = call.number := by
  rintro session fh ⟨task, ht, hs, hf⟩
  obtain ⟨h₁, h₂, -⟩ := (hok.task σ path id parked hp).2 task ht
  exact ⟨hs.symm.trans h₁, hf.symm.trans h₂⟩

theorem attempt_of_call (hok : s.CallOk call)
    (hp : call.phase = .locking σ path id parked) {wait : Bool} (hop : call.op = .lock kind wait)
    (hserver : s.server.step (.lockAttempt id) = some server) :
    server.handles = s.server.handles ∧ ∀ q, server.locks.holders q =
      if q = path then
        if s.grants σ call.number path kind then
          dropHandle (s.server.locks.holders path) σ call.number ++ [⟨σ, call.number, kind⟩]
        else dropHandle (s.server.locks.holders path) σ call.number
      else s.server.locks.holders q := by
  simp only [LockServer.step] at hserver
  split at hserver
  · cases hserver
  · next task ht =>
    obtain ⟨h₁, h₂, h₃, h₄⟩ := (hok.task σ path id parked hp).2 task ht
    split at hserver
    · simp only [some.injEq] at hserver
      rw [← hserver]
      refine ⟨rfl, fun q => ?_⟩
      have hh : (s.server.runAttempt id task).locks =
          (s.server.locks.attempt path σ call.number kind task.wait id).2 := by
        rw [← h₁, ← h₂, ← h₃, ← h₄ kind wait hop]
        rfl
      rw [hh, LockTable.holders_attempt]
      rfl
    · cases hserver

section

variable (hi : s.Inv)
include hi

/-- **A pass of `lock`.**  If it is refused, the handle had nothing to lose. -/
theorem inv_attempt (hmem : call ∈ s.calls)
    (hp : call.phase = .locking σ path id parked) {wait : Bool} (hop : call.op = .lock kind wait)
    (hrefused : wait = false → s.grants σ call.number path kind = false →
      ∀ file ∈ s.file call.client call.fh, file.issuer = σ → file.lock = none)
    (hserver : s.server.step (.lockAttempt id) = some server)
    (hphase : phase = if s.grants σ call.number path kind then CallPhase.answered σ true
        else if wait then .locking σ path id true else .answered σ false) :
    Inv { s.replaceCall call { call with phase } with server } := by
  have hl : s.server.Later server := later_step (by simp) hserver
  have hσ : σ ∈ call.phase.session := by rw [hp]; rfl
  have hok := hi.calls call hmem
  have hok' : CallOk { s.replaceCall call { call with phase } with server } call :=
    hok.moves (.of_server hl _) hmem
  have htouch := touches_attempt hok hp
  obtain ⟨hhandles, hholders⟩ := attempt_of_call hok hp hop hserver
  refine hi.advance hl hmem ?_ (.inl (by simp [hp])) ?_ ?_ ?_
  · have hlocking : ∀ σ' path' id' parked', phase = .locking σ' path' id' parked' →
        σ' = σ ∧ path' = path ∧ id' = id := by
      intro σ' path' id' parked' h
      rw [hphase] at h
      split at h
      · cases h
      · split at h <;> cases h
        exact ⟨rfl, rfl, rfl⟩
    refine hok'.stay hσ ?_ ?_ ?_
    · rw [hphase]
      split
      · rfl
      · split <;> rfl
    · intro σ' path' id' parked' h
      obtain ⟨rfl, rfl, rfl⟩ := hlocking σ' path' id' parked' h
      exact hok'.task _ _ _ _ hp
    · intro hc σ' path' id' parked' h
      obtain ⟨rfl, rfl, rfl⟩ := hlocking σ' path' id' parked' h
      exact hok'.path hc _ _ _ _ hp
  · intro client fh file _ _ hh
    exact .inr (by rwa [hhandles])
  · intro client fh file hf hs hc
    exact hi.spares_of_serve hmem hσ (by simp) htouch hserver hf hs hc
  · intro σ' file kind' hc hset hf hpo hb _
    -- the client is in the session of the request
    obtain rfl : σ = σ' := by
      have hup := hok.waits hc.2.2.2 σ hσ
      simpa only [Settled, hup] using hset
    obtain ⟨hissuer, hn⟩ := hok.same hc σ hσ file hf
    rw [HandleCall.believes, hphase] at hb
    by_cases hg : s.grants σ call.number path kind = true
    · simp only [hg, if_true, hop, MirrorOp.mirror, some.injEq] at hb
      subst hb
      refine (hok'.path hc _ _ _ _ hp file hf).imp_right fun hpath => ?_
      refine ⟨hissuer, ?_⟩
      rw [hpath, hn, hholders, if_pos rfl, if_pos hg]
      exact mem_append_right _ (mem_singleton_self _)
    · rw [Bool.not_eq_true] at hg
      cases wait with
      | true =>
        simp only [hg, Bool.false_eq_true, if_false, if_true] at hb
        cases hb
      | false =>
        simp only [hg, Bool.false_eq_true, if_false] at hb
        rw [hrefused rfl hg file hf hissuer] at hb
        cases hb

/-- **`unlock` and the second half of `release`.** -/
theorem inv_let_go (hmem : call ∈ s.calls) (hσ : σ ∈ call.phase.session)
    (hne : call.phase ≠ .prepared) (hop : call.op.mirror = none)
    (hserver : s.server.step l = some server) (hl' : ∀ session, l ≠ .freeHandles session false)
    (htouch : ∀ session fh, s.server.touches session fh l → session = σ ∧ fh = call.number)
    (hhandles : server.handles = s.server.handles) :
    Inv { s.replaceCall call { call with phase := .answered σ true } with server } := by
  have hl : s.server.Later server := later_step hl' hserver
  refine hi.advance hl hmem
    (((hi.calls call hmem).moves (.of_server hl _) hmem).stay hσ rfl (by simp) (by simp)) (.inl hne)
    ?_ ?_ ?_
  · intro client fh file _ _ hh
    exact .inr (by rwa [hhandles])
  · intro client fh file hf hs hc
    exact hi.spares_of_serve hmem hσ hl' htouch hserver hf hs hc
  · intro σ' file kind _ _ _ _ hb _
    simp only [HandleCall.believes, hop] at hb
    cases hb

/-- **The caller gets the answer.** -/
theorem inv_deliver (hmem : call ∈ s.calls) {ok : Bool}
    (hp : call.phase = .answered σ ok) (hw : call.waiting = true) :
    (s.replaceCall call { call with phase := .received ok }).Inv := by
  refine hi.advance (.refl _) hmem
    (((hi.calls call hmem).moves (.of_server (.refl _) _) hmem).outside rfl hw)
    (.inl (by simp [hp])) (fun _ _ _ _ _ hh => .inr hh)
    (fun _ _ _ _ _ _ => .inr (.refl _ _ _)) ?_
  intro σ' file kind _ _ _ _ hb hback
  refine hback kind ?_
  rw [HandleCall.believes, hp]
  cases ok <;> exact hb

/-- **A call ends**, or its caller no longer waits. -/
theorem Inv.quit (hmem : call ∈ s.calls)
    (hcalls : calls = s.calls.erase call ∨ ∃ call', calls = call' :: s.calls.erase call ∧
      CallOk { s with calls } call' ∧ ∀ client fh, ¬ call'.claims client fh)
    (hown : ∀ σ file kind, call.claims call.client call.fh → s.Settled call.client call.fh σ →
      s.file call.client call.fh = some file → file.lock = some kind →
      (∀ kind, call.believes file.lock = some kind → s.Backed σ file kind) → s.Backed σ file kind) :
    Inv { s with calls } := by
  have hsub : ∀ c ∈ calls, c ∈ s.calls ∨ CallOk { s with calls } c ∧
      ∀ client fh, ¬ c.claims client fh := by
    intro c hc
    rcases hcalls with rfl | ⟨call', rfl, hnew⟩
    · exact .inl (mem_of_mem_erase hc)
    · rcases mem_cons.mp hc with rfl | hc
      · exact .inr hnew
      · exact .inl (mem_of_mem_erase hc)
  have hbelieves : ∀ {client fh lock kind}, Believes calls client fh lock kind →
      Believes (s.calls.erase call) client fh lock kind := by
    intro client fh lock kind hb
    rcases hcalls with rfl | ⟨call', rfl, -, hno⟩
    · exact hb
    · exact believes_of_cons (hno client fh) hb
  refine hi.moves (.of_server (.refl _) calls) (fun _ _ _ _ _ hh _ => .inr hh) ?_ ?_ ?_ ?_
  · exact fun c hc => (hsub c hc).imp_right And.left
  · rcases hcalls with rfl | ⟨call', rfl, -, hno⟩
    · exact hi.single.erase call
    · exact hi.single.replace hmem fun c f hc => absurd hc (hno c f)
  · intro client σ fh file kind hset hf hp hb
    by_cases hc : call.claims client fh
    · obtain ⟨rfl, rfl, -⟩ := id hc
      refine .inl (hown σ file kind hc hset hf (believes_erase hi.single hmem hc (hbelieves hb)) ?_)
      exact fun k hk => hi.backed _ σ _ file k hset hf hp (believes_of_claims hmem hc hk)
    · exact .inr ⟨hset, hf, believes_of_erase hc (hbelieves hb), fun _ => .inr (.refl _ _ _)⟩
  · intro client pass r hlink hr
    exact .inr ⟨hlink, rfl, fun c hc hcl => .inl ((hsub c hc).resolve_right fun h => h.2 _ _ hcl)⟩

theorem inv_endCall (hmem : call ∈ s.calls)
    (hb : ∀ file, s.file call.client call.fh = some file → call.claims call.client call.fh →
      call.believes file.lock = file.lock) : (s.endCall call).Inv :=
  hi.quit hmem (.inl rfl) fun _ file kind hc _ hf hlock hback =>
    hback kind ((hb file hf hc).trans hlock)

theorem inv_giveUp (hmem : call ∈ s.calls) (hw : call.waiting = true)
    (hsent : call.phase.session.isSome = true)
    (hok : call.op = .release ∨ ∀ σ ∈ call.phase.session, s.server.Dead σ) :
    (s.replaceCall call { call with waiting := false }).Inv := by
  have hc := hi.calls call hmem
  refine hi.quit hmem (.inr ⟨_, rfl, ?_, ?_⟩) ?_
  · refine ⟨hc.sent, by simp, hc.number, hc.own, hc.gone, ?_, ?_, hc.task, ?_, ?_⟩
    · exact fun _ hop σ hσ _ => (hok.resolve_left hop) σ hσ
    · intro hnone
      dsimp only at hnone
      rw [hnone] at hsent
      cases hsent
    · rintro ⟨-, -, -, h⟩
      cases h
    · rintro ⟨-, -, -, h⟩
      cases h
  · rintro client fh ⟨-, -, -, h⟩
    cases h
  · intro σ file kind hcl hset hf hlock _
    -- the caller waited in the session it was in, and that session is dead
    obtain ⟨σ', hσ'⟩ := isSome_iff_exists.mp hsent
    have hup := hc.waits hw σ' hσ'
    obtain rfl : σ' = σ := by simpa only [Settled, hup] using hset
    exact .inl ((hok.resolve_left hcl.2.2.1) σ' hσ')

/-- **The caller writes the mirror.** -/
theorem inv_finish (hmem : call ∈ s.calls) (hp : call.phase = .received true)
    (hop : call.op ≠ .release) (hf : s.file call.client call.fh = some file)
    (hs' : s' = (s.endCall call).setFile call.client call.fh { file with lock := call.op.mirror }) :
    s'.Inv := by
  have hok := hi.calls call hmem
  have hlink : ∀ c, s'.link c = s.link c := fun c => hs' ▸ link_setFile _ _ c _ _
  have hfile : ∀ c fh, s'.file c fh = if c = call.client ∧ fh = call.fh then
      some { file with lock := call.op.mirror } else s.file c fh :=
    fun c fh => hs' ▸ file_setFile _ _ c _ fh _
  have hserver : s'.server = s.server := hs' ▸ rfl
  have hcalls : s'.calls = s.calls.erase call := hs' ▸ rfl
  have hclaims : call.claims call.client call.fh := ⟨rfl, rfl, hop, hok.there (by rw [hp]; rfl)⟩
  -- every entry is as it was, but for this mirror
  have hkept : ∀ client fh file', s'.file client fh = some file' →
      ∃ old, s.file client fh = some old ∧ Kept file' old := by
    intro client fh file' hf'
    rw [hfile] at hf'
    split at hf'
    · next h =>
      cases hf'
      exact ⟨file, by rw [h.1, h.2, hf], rfl, rfl, rfl⟩
    · exact ⟨file', hf', rfl, rfl, rfl⟩
  have hm : Moves s s' := by
    refine ⟨hserver ▸ .refl s.server, fun client σ h => (hlink client).trans h,
      fun client σ h => .inl ?_, fun client fh file' hf' => .inl (hkept client fh file' hf')⟩
    rwa [LockSystem.session, hlink] at h
  refine hi.moves hm (fun client fh file' _ _ hh _ => .inr (hserver ▸ hh)) ?_ ?_ ?_ ?_
  · exact fun c hc => .inl (mem_of_mem_erase (hcalls ▸ hc))
  · rw [hcalls]
    exact hi.single.erase call
  · intro client σ fh file' kind hset hf' hpo hb
    rw [settled_congr (hlink client)] at hset
    rw [hfile] at hf'
    rw [hcalls] at hb
    split at hf'
    · next h =>
      obtain ⟨rfl, rfl⟩ := h
      cases hf'
      have hlock := believes_erase hi.single hmem hclaims hb
      rw [Backed, hserver]
      refine .inl (hi.backed _ σ _ file kind hset hf hpo (believes_of_claims hmem hclaims ?_))
      rw [HandleCall.believes, hp]
      exact hlock
    · next h =>
      refine .inr ⟨hset, hf', believes_of_erase (fun hc => h ⟨hc.1.symm, hc.2.1.symm⟩) hb,
        fun _ => ?_⟩
      exact .inr (hserver ▸ .refl s.server _ _)
  · intro client pass r hl hr
    rw [hlink] at hl
    refine .inr ⟨hl, ?_, fun c hc _ => .inl (mem_of_mem_erase (hcalls ▸ hc))⟩
    rw [hfile, if_neg]
    rintro ⟨rfl, hfh⟩
    have hp' := (hi.replaying _ pass r hl hr).calls call hmem (hfh ▸ hclaims)
    rw [hp] at hp'
    cases hp'

/-- **A call begins.** -/
theorem inv_call {clients : ℕ → LockClient}
    (hs' : s' = { s with clients, calls := call :: s.calls })
    (hnew : call.phase = .prepared) (hw : call.waiting = true)
    (hnumber : call.number = (s.file call.client call.fh).elim call.fh fun f => f.serverFh)
    (hissuer : call.issuer = (s.file call.client call.fh).map fun f => f.issuer)
    (hfree : call.op ≠ .release → ∀ c ∈ s.calls, ¬ c.claims call.client call.fh)
    (hvisit : call.op = .release → s.visiting call.client call.fh = false)
    (hlink : ∀ client, s'.link client = s.link client)
    (hfile : ∀ client fh, s'.file client fh =
      if call.op = .release ∧ client = call.client ∧ fh = call.fh then none else s.file client fh) :
    s'.Inv := by
  have hserver : s'.server = s.server := hs' ▸ rfl
  have hcalls : s'.calls = call :: s.calls := hs' ▸ rfl
  have hsub : ∀ client fh file, s'.file client fh = some file → s.file client fh = some file := by
    intro client fh file h
    rw [hfile] at h
    split at h
    · cases h
    · exact h
  have hm : Moves s s' := by
    refine ⟨hserver ▸ .refl s.server, fun client σ h => (hlink client).trans h,
      fun client σ h => .inl ?_, fun client fh file h => .inl ⟨file, hsub client fh file h, rfl,
        rfl, rfl⟩⟩
    rwa [LockSystem.session, hlink] at h
  -- the entry that the call has read
  have hread : ∀ σ ∈ call.issuer, ∃ file, s.file call.client call.fh = some file ∧
      file.issuer = σ ∧ call.number = file.serverFh := by
    intro σ hσ
    rw [hissuer] at hσ
    obtain ⟨file, hf, rfl⟩ := map_eq_some_iff.mp hσ
    exact ⟨file, hf, rfl, by rw [hnumber, hf]; rfl⟩
  have hno : ∀ σ, ¬ σ ∈ call.phase.session := by
    intro σ h
    rw [hnew] at h
    cases h
  have hok : s'.CallOk call := by
    refine ⟨fun σ h => absurd h (hno σ), fun _ σ h => absurd h (hno σ), ?_, ?_, ?_,
      fun _ _ σ h => absurd h (hno σ), fun _ => hw, ?_, fun _ σ h => absurd h (hno σ), ?_⟩
    · intro σ hσ
      obtain ⟨file, hf, rfl, hn⟩ := hread σ hσ
      rw [hn, hserver]
      exact (hi.issued _ _ file hf).1
    · intro σ hσ fh file' hf' hi' hn'
      obtain ⟨file, hf, rfl, hn⟩ := hread σ hσ
      exact hi.numbers _ _ _ file' file (hsub _ _ _ hf') hf hi' (hn'.trans hn)
    · intro hop σ _ file hf
      rw [hfile, if_pos ⟨hop, rfl, rfl⟩] at hf
      cases hf
    · rintro σ path id parked h
      rw [hnew] at h
      cases h
    · rintro - σ path id parked h
      rw [hnew] at h
      cases h
  refine hi.moves hm (fun client fh file _ _ hh _ => .inr (hserver ▸ hh)) ?_ ?_ ?_ ?_
  · intro c hc
    rw [hcalls] at hc
    rcases mem_cons.mp hc with rfl | hc
    · exact .inr hok
    · exact .inl hc
  · rw [hcalls]
    refine pairwise_cons.mpr ⟨fun c hc client fh hcl => ?_, hi.single⟩
    rw [← hcl.1, ← hcl.2.1]
    exact hfree hcl.2.2.1 c hc
  · intro client σ fh file kind hset hf hp hb
    rw [settled_congr (hlink client)] at hset
    rw [hcalls] at hb
    refine .inr ⟨hset, hsub _ _ _ hf, ?_, fun _ => .inr (hserver ▸ .refl s.server _ _)⟩
    by_cases hc : call.claims client fh
    · obtain ⟨rfl, rfl, hop, -⟩ := id hc
      have hlock := believes_cons (hfree hop) hc hb
      rw [HandleCall.believes, hnew] at hlock
      exact .inr ⟨hfree hop, hlock⟩
    · exact believes_of_cons hc hb
  · intro client pass r hl hr
    rw [hlink] at hl
    refine .inr ⟨hl, ?_, fun c hc _ => ?_⟩
    · rw [hfile, if_neg]
      rintro ⟨hop, rfl, hfh⟩
      have hv := hvisit hop
      simp [visiting, replayed, hl, hr, hfh] at hv
    · rw [hcalls] at hc
      rcases mem_cons.mp hc with rfl | hc
      · exact .inr hnew
      · exact .inl hc

end

end Calls

end LockSystem

end AlloyFs
