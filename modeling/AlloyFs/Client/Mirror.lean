import AlloyFs.Client.Mirror.Connections

/-!
# When the mirror of a client's locks is right

Every event keeps the invariant if `mirrorOk` holds of it, so that in every such run the server
holds what the mirrors say, and two clients that count on their locks share a file only if both
locks are shared.
-/

namespace AlloyFs

open Function Option List LockServer

variable {file : MirroredState} {kind : LockKind} {pass : Pass}

namespace LockSystem

/-! ## Whole runs -/

section Runs

variable {s s' s₁ : LockSystem} {server : LockServer} {client : ℕ} {ending : Ending}

theorem mem_keys_of_file {fh : ℕ} (h : s.file client fh = some file) :
    fh ∈ (s.clients client).files.keys :=
  mem_of_lookup h

theorem inv_beginCall (hi : s.Inv) {op : MirrorOp} {fh : ℕ} (hok : s.mirrorOk (.call client op fh))
    (hc : s.beginCall client op fh = some s₁) : Inv { s₁ with server := s.server } := by
  cases op with
  | lock kind wait =>
    simp only [beginCall] at hc
    split at hc
    · cases hc
      exact hi
    · cases hc
      refine inv_call hi rfl rfl rfl rfl rfl hok (by simp) (fun c => rfl) fun c fh' => ?_
      rw [if_neg fun h => by simp at h]
      rfl
  | unlock =>
    cases hc
    refine inv_call hi rfl rfl rfl rfl rfl hok (by simp) (fun c => rfl) fun c fh' => ?_
    rw [if_neg fun h => by simp at h]
    rfl
  | release =>
    obtain ⟨hv, rfl⟩ := of_guard_not hc
    refine inv_call hi rfl rfl rfl rfl rfl hok (fun _ => by simpa using hv)
      (fun c => link_eraseFile s client c fh) fun c fh' => ?_
    refine (file_eraseFile s client c fh fh').trans ?_
    simp only [true_and]

theorem inv_serve (hi : s.Inv) (hmem : call ∈ s.calls)
    (hok : s.mirrorOk (.serve call)) (hc : s.serveCall call = some s₁)
    (hserver : exec LockServer.step s.server (s.serverSteps (.serve call)) = some server) :
    Inv { s₁ with server } := by
  simp only [serveCall] at hc
  split at hc
  · next σ path id parked kind wait hp hop =>
    cases hc
    simp only [serverSteps, hp] at hserver
    refine inv_attempt hi hmem hp hop (fun hw => ?_) (exec_singleton hserver) rfl
    simpa only [mirrorOk, hp, hop, hw, serveOk] using hok
  · next σ path hp hop =>
    cases hc
    simp only [serverSteps, hp] at hserver
    have hs := exec_singleton hserver
    refine inv_let_go hi hmem (by rw [hp]; rfl) (by simp [hp]) (by rw [hop]; rfl) hs (by simp)
      (fun _ _ h => ⟨h.1.symm, h.2.symm⟩) ?_
    simp only [LockServer.step] at hs
    split at hs
    · rw [← some.inj hs]
    · cases hs
  · next σ path hp hop =>
    cases hc
    simp only [serverSteps, hp] at hserver
    have hs := exec_singleton hserver
    refine inv_let_go hi hmem (by rw [hp]; rfl) (by simp [hp]) (by rw [hop]; rfl) hs (by simp)
      (fun _ _ h => ⟨h.1.symm, h.2.symm⟩) ?_
    simp only [LockServer.step] at hs
    split at hs
    · rw [← some.inj hs]
    · cases hs
  · cases hc

/-- **Every event that meets the condition keeps the invariant.** -/
theorem inv_step (hi : s.Inv) {e : LockEvent} (hok : s.mirrorOk e) (h : s.step e = some s') :
    s'.Inv := by
  obtain ⟨s₁, server, hc, hserver, rfl⟩ := step_eq h
  have hl : s.server.Later server := later_exec _ serverSteps_ne hserver
  cases e with
  | dial client order attached =>
    have hs := exec_singleton hserver
    simp only [clientStep] at hc
    split at hc
    · next hcond =>
      split at hc
      · cases hc
        have horder : ∀ fh file, s.file client fh = some file → fh ∈ order := fun fh file hf =>
          hcond.2.mem_iff.mpr (mem_keys_of_file hf)
        exact inv_dial hi hcond.1 horder hs
      · cases hc
        exact hi.still hl fun σ n => spares_step hi.fresh (by simp) id hs
    · cases hc
  | visit client ending => exact inv_visit hi hok hc hserver
  | replay client ending => exact inv_runReplay hi hc hserver
  | swap client =>
    cases hserver
    simp only [clientStep] at hc
    split at hc
    · next pass hpass =>
      obtain ⟨hcond, rfl⟩ := of_guard hc
      exact inv_swap hi hpass hcond.1 hcond.2
    · cases hc
  | lose client =>
    cases hserver
    simp only [clientStep] at hc
    split at hc
    · cases hc
      exact inv_lose hi rfl (fun c => link_setLink s client c .down)
        (funext₂ fun c fh => file_setLink s client c fh .down) rfl
    · cases hc
  | openFile client path flags ending =>
    simp only [clientStep] at hc
    split at hc
    · next σ hup =>
      simp only [serverSteps, hup] at hserver
      split at hc
      · next hdone =>
        cases hc
        rw [hdone, if_neg (by simp)] at hserver
        refine inv_openFile hi flags hup (hok σ ?_) (exec_singleton hserver)
          (fun c => link_setFile s client c _ _) (fun c fh => file_setFile s client c _ fh _) rfl
        rw [LockSystem.session, hup]
        rfl
      · cases hc
        exact hi.still hl (spares_maybe_open hi hserver)
    · cases hc
  | call client op fh =>
    cases hserver
    exact inv_beginCall hi hok hc
  | send call =>
    cases hserver
    simp only [clientStep] at hc
    split at hc
    · next hmem =>
      simp only [sendCall] at hc
      split at hc
      · next σ hp hup =>
        cases hc
        simp only [mirrorOk, hup, sendOk] at hok
        obtain ⟨hissuer, hnumber⟩ := hok
        exact inv_send hi hmem hp hup hissuer hnumber
      · next hp _ =>
        cases hc
        refine inv_endCall hi hmem (fun file _ _ => ?_)
        rw [HandleCall.believes, hp]
      · cases hc
    · cases hc
  | arrive call =>
    simp only [clientStep] at hc
    split at hc
    · next hmem =>
      simp only [arriveCall] at hc
      split at hc
      · next σ hp =>
        cases hc
        exact inv_arrive hi hmem hp hserver
      · cases hc
    · cases hc
  | serve call =>
    simp only [clientStep] at hc
    split at hc
    · next hmem => exact inv_serve hi hmem hok hc hserver
    · cases hc
  | deliver call =>
    cases hserver
    simp only [clientStep] at hc
    split at hc
    · next hmem =>
      simp only [deliverCall] at hc
      split at hc
      · next σ ok hp =>
        split at hc
        · next hw =>
          cases hc
          exact inv_deliver hi hmem hp hw
        · next hw =>
          cases hc
          exact inv_endCall hi hmem (fun _ _ hcl => absurd hcl.2.2.2 hw)
      · cases hc
    · cases hc
  | finish call =>
    cases hserver
    simp only [clientStep] at hc
    split at hc
    · next hmem =>
      simp only [finishCall] at hc
      split at hc
      · next ok hp =>
        split at hc
        · next file hf =>
          split at hc
          · next hcond =>
            cases hc
            simp only [Bool.and_eq_true, decide_eq_true_eq] at hcond
            obtain ⟨rfl, hop⟩ := hcond
            exact inv_finish hi hmem hp hop hf rfl
          · next hcond =>
            cases hc
            refine inv_endCall hi hmem (fun _ _ hcl => ?_)
            simp only [Bool.and_eq_true, decide_eq_true_eq, not_and, not_not] at hcond
            rw [HandleCall.believes, hp]
            cases ok with
            | true => exact absurd (hcond rfl) hcl.2.2.1
            | false => rfl
        · next hf =>
          cases hc
          refine inv_endCall hi hmem (fun file hf' _ => ?_)
          rw [hf] at hf'
          cases hf'
      · cases hc
    · cases hc
  | giveUp call =>
    cases hserver
    obtain ⟨hcond, rfl⟩ := of_guard hc
    exact inv_giveUp hi hcond.1 hcond.2.1 hcond.2.2 hok
  | disconnect σ =>
    cases hc
    exact hi.still hl fun _ _ => spares_step hi.fresh (by simp) id
      (exec_singleton hserver)
  | forget σ =>
    cases hc
    exact hi.still hl fun _ _ => spares_step hi.fresh (by simp) id
      (exec_singleton hserver)

theorem Inv.mirrorSound (hi : s.Inv) (client : ℕ) : s.MirrorSound client := by
  intro σ hlive hidle fh file kind hf hp hlock
  have hset : s.Settled client fh σ := by
    rw [Settled, hlive.1]
  have hb : Believes s.calls client fh file.lock kind :=
    .inr ⟨fun call hc => hidle call hc fh, hlock⟩
  rcases hi.backed client σ fh file kind hset hf hp hb with hd | ⟨-, hm⟩
  · exact absurd hd hlive.2
  · exact hm

/-- **What a client believes to hold, the server holds for it**, in every run whose events meet the
condition: for any number of clients, in every state in which the connection lives and no lock
request of the client is under way. -/
theorem mirrorSound_of_mirrorOk (h : Reaches step mirrorOk init s) (client : ℕ) :
    s.MirrorSound client :=
  (h.invariant Inv inv_init fun _ _ _ hi hok hs => inv_step hi hok hs).mirrorSound client

theorem server_reaches {ok : LockSystem → LockEvent → Prop} (h : Reaches step ok init s) :
    Reaches LockServer.step (fun _ _ => True) .init s.server := by
  refine h.invariant (fun s => Reaches LockServer.step _ .init s.server) .refl ?_
  intro s e s' hr _ hs
  obtain ⟨s₁, server, -, hserver, rfl⟩ := step_eq hs
  exact reaches_of_exec hr _ (allowed_true _ _ _) hserver

/-- A client that is connected and asks for nothing counts on the lock in its handle's entry. -/
def CountsOn (s : LockSystem) (client fh : ℕ) (path : RelPath) (kind : LockKind) : Prop :=
  (∃ σ ∈ s.session client, s.link client = .up σ ∧ ¬ s.server.Dead σ) ∧
    (∀ call ∈ s.calls, ¬ call.claims client call.fh) ∧
    ∃ file ∈ s.file client fh, file.path = path ∧ file.poisoned = false ∧ file.lock = some kind
deriving Decidable

theorem Inv.holds (hi : s.Inv) {client fh : ℕ} {path : RelPath} {kind : LockKind}
    (h : s.CountsOn client fh path kind) : ∃ file, s.file client fh = some file ∧
      s.session client = some file.issuer ∧
      (⟨file.issuer, file.serverFh, kind⟩ : Holder) ∈ s.server.locks.holders path := by
  obtain ⟨⟨σ, hσ, hup, hlive⟩, hidle, file, hf, rfl, hp, hlock⟩ := h
  have hset : s.Settled client fh σ := by rw [Settled, hup]
  have hb : Believes s.calls client fh file.lock kind :=
    .inr ⟨fun call hc hcl => hidle call hc ⟨hcl.1, rfl, hcl.2.2⟩, hlock⟩
  rcases hi.backed client σ fh file kind hset hf hp hb with hd | ⟨rfl, hm⟩
  · exact absurd hd hlive
  · exact ⟨file, hf, hσ, hm⟩

/-- **Locks that are counted on exclude each other**: if two handles, of one client or of two, count
on locks on the same path, then both are shared. -/
theorem shared_of_countsOn (h : Reaches step mirrorOk init s) {client client' fh fh' : ℕ}
    {path : RelPath} {kind kind' : LockKind} (hne : (client, fh) ≠ (client', fh'))
    (hc : s.CountsOn client fh path kind) (hc' : s.CountsOn client' fh' path kind') :
    kind = .shared ∧ kind' = .shared := by
  have hi := h.invariant Inv inv_init fun _ _ _ hi hok hs => inv_step hi hok hs
  obtain ⟨file, hf, hσ, hm⟩ := hi.holds hc
  obtain ⟨file', hf', hσ', hm'⟩ := hi.holds hc'
  rcases ((locks_ok (server_reaches h)).holders path).1 with hall | ⟨x, hx, -⟩
  · exact ⟨hall _ hm, hall _ hm'⟩
  · -- one holder would be two handles of one session with the same number
    rw [hx, mem_singleton] at hm hm'
    obtain ⟨hissuer, hnumber, -⟩ := Holder.mk.inj (hm.trans hm'.symm)
    obtain rfl := hi.apart client client' _ hσ (hissuer ▸ hσ')
    exact absurd (congrArg _ (hi.numbers client fh fh' file file' hf hf' hissuer hnumber)) hne

end Runs

/-! ## Small runs -/

section Small

/-- What is seen of handle 1 of a client: the connection, the calls of everyone, the entry, and who
holds the path. -/
structure Glance where
  link : MirrorLink
  dead : Bool
  calls : List HandleCall
  file : Option MirroredState
  holders : List Holder
deriving DecidableEq

def glance (s : LockSystem) (client session : ℕ) : Glance where
  link := s.link client
  dead := decide (s.server.Dead session)
  calls := s.calls
  file := s.file client 1
  holders := s.server.locks.holders ⟨['a']⟩

/-- The entry of handle 1. -/
def entryOne (session : ℕ) (kind : LockKind) : MirroredState where
  path := ⟨['a']⟩
  flags := {}
  serverFh := 1
  lock := some kind
  poisoned := false
  issuer := session

/-- A client connects and opens the file, as handle 1. -/
def joins (client : ℕ) : List LockEvent :=
  [.dial client [] true, .swap client, .openFile client ⟨['a']⟩ {} .done]

/-- A call on handle 1 in the first session of a client. -/
def callOne (client : ℕ) (kind : LockKind) (phase : CallPhase) : HandleCall :=
  ⟨client, 1, .lock kind false, 1, some client, true, phase⟩

/-- A lock request from beginning to end. -/
def locks (client : ℕ) (kind : LockKind) (task : ℕ) (ok : Bool) : List LockEvent :=
  [.call client (.lock kind false) 1, .send (callOne client kind .prepared),
    .arrive (callOne client kind (.travelling client)),
    .serve (callOne client kind (.locking client ⟨['a']⟩ task false)),
    .deliver (callOne client kind (.answered client ok)),
    .finish (callOne client kind (.received ok))]

/-- A client takes a lock, loses its connection, and has the lock again in its next session. -/
theorem mirrorSound_reconnect : ∃ s : LockSystem, s.MirrorSound 1 ∧
    s.glance 1 2 = ⟨.up 2, false, [], some (entryOne 2 .exclusive), [⟨2, 1, .exclusive⟩]⟩ := by
  exact exists_of_run
    (joins 1 ++ locks 1 .exclusive 0 true ++ [.lose 1, .disconnect 1, .forget 1, .dial 1 [1] true,
      .visit 1 .done, .replay 1 .done, .swap 1])
    (by decide +kernel) (fun _ hs => mirrorSound_of_mirrorOk hs 1) (by decide +kernel)

theorem countsOn_both : ∃ (s : LockSystem) (kind kind' : LockKind), s.CountsOn 1 1 ⟨['a']⟩ kind ∧
    s.CountsOn 2 1 ⟨['a']⟩ kind' ∧ kind = .shared ∧ kind' = .shared := by
  obtain ⟨s, hs, h₁, h₂⟩ : ∃ s, Reaches step mirrorOk init s ∧ s.CountsOn 1 1 ⟨['a']⟩ .shared ∧
      s.CountsOn 2 1 ⟨['a']⟩ .shared :=
    exists_of_run (joins 1 ++ joins 2 ++ locks 1 .shared 0 true ++ locks 2 .shared 1 true)
      (by decide +kernel) (fun _ h => h) (by decide +kernel)
  exact ⟨s, _, _, h₁, h₂, shared_of_countsOn hs (by decide) h₁ h₂⟩

/-- Two clients share a lock, and one of them asks for more: it is refused, has lost what it had,
and does not know it. -/
theorem mirror_of_refused : ∃ s, Reaches step (fun _ _ => True) init s ∧
    s.glance 1 1 = ⟨.up 1, false, [], some (entryOne 1 .shared), [⟨2, 1, .shared⟩]⟩ ∧
    ¬ s.MirrorSound 1 := by
  have hrun : ∃ s, Reaches step (fun _ _ => True) init s ∧
      s.glance 1 1 = ⟨.up 1, false, [], some (entryOne 1 .shared), [⟨2, 1, .shared⟩]⟩ :=
    exists_reaches_of_exec
      (joins 1 ++ joins 2 ++ locks 1 .shared 0 true ++ locks 2 .shared 1 true ++
        locks 1 .exclusive 2 false)
      (glance · 1 1) _ (allowed_true step _ _) (by decide +kernel)
  obtain ⟨s, hs, hg⟩ := hrun
  refine ⟨s, hs, hg, fun hsound => ?_⟩
  simp only [glance, Glance.mk.injEq] at hg
  obtain ⟨hlink, hdead, hcalls, hf, hholders⟩ := hg
  have hidle : ∀ call ∈ s.calls, ∀ fh, ¬ call.claims 1 fh := by
    simp [hcalls]
  have hm : (⟨1, 1, .shared⟩ : Holder) ∈ s.server.locks.holders ⟨['a']⟩ :=
    hsound 1 ⟨hlink, of_decide_eq_false hdead⟩ hidle 1 _ .shared hf rfl rfl
  rw [hholders] at hm
  simp at hm

end Small

end LockSystem

end AlloyFs
