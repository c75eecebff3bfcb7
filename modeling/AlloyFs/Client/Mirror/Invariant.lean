import AlloyFs.Agent.LockManager
import AlloyFs.Client.LockSystem

/-!
# The invariant of the mirrored locks

While a call is under way, what the server holds for its handle is what the mirror says, or nothing,
or already what the mirror will say: `HandleCall.believes`.  The invariant of a run is that the
server holds what is believed in this sense, for every handle of the session that a client is in,
or has visited already in the session it is about to be in.  Everything else in the invariant says
whose session, handle and number is whose, so that one handle's requests leave the others alone.
-/

namespace AlloyFs

open Function Option List LockServer

/-- What the server holds for the handle of a call, given its mirror: a request that is parked has
let go of everything, and one that went well has had its effect. -/
def HandleCall.believes (call : HandleCall) (lock : Option LockKind) : Option LockKind :=
  match call.phase with
  | .locking _ _ _ true => none
  | .answered _ true => call.op.mirror
  | .received true => call.op.mirror
  | _ => lock

variable {file : MirroredState} {kind : LockKind}

namespace LockSystem

/-! ## Beliefs -/

/-- What a client takes a handle to hold, its calls considered. -/
def Believes (calls : List HandleCall) (client fh : ℕ) (lock : Option LockKind) (kind : LockKind) :
    Prop :=
  (∃ call ∈ calls, call.claims client fh ∧ call.believes lock = some kind) ∨
    (∀ call ∈ calls, ¬ call.claims client fh) ∧ lock = some kind

/-- No two calls claim one handle. -/
def Single (calls : List HandleCall) : Prop :=
  calls.Pairwise fun a b => ∀ client fh, a.claims client fh → ¬ b.claims client fh

section Beliefs

variable {calls : List HandleCall} {call call' : HandleCall} {client fh : ℕ}
  {lock : Option LockKind} {kind : LockKind}

theorem Single.cons_erase (h : Single calls) (hm : call ∈ calls) :
    Single (call :: calls.erase call) :=
  (List.Perm.pairwise_iff (fun hab c f hb ha => hab c f ha hb) (perm_cons_erase hm)).mp h

theorem Single.erase (h : Single calls) (call : HandleCall) : Single (calls.erase call) :=
  List.Pairwise.sublist erase_sublist h

theorem Single.replace (h : Single calls) (hm : call ∈ calls)
    (hc : ∀ c f, call'.claims c f → call.claims c f) : Single (call' :: calls.erase call) := by
  obtain ⟨hhead, htail⟩ := pairwise_cons.mp (h.cons_erase hm)
  exact pairwise_cons.mpr ⟨fun b hb c f hcl => hhead b hb c f (hc c f hcl), htail⟩

theorem Single.not_claims (h : Single calls) (hm : call ∈ calls) (hc : call.claims client fh) :
    ∀ b ∈ calls.erase call, ¬ b.claims client fh := fun b hb =>
  (pairwise_cons.mp (h.cons_erase hm)).1 b hb client fh hc

theorem believes_erase (hs : Single calls) (hm : call ∈ calls) (hc : call.claims client fh)
    (h : Believes (calls.erase call) client fh lock kind) : lock = some kind := by
  rcases h with ⟨b, hb, hcl, -⟩ | ⟨-, h⟩
  · exact absurd hcl (hs.not_claims hm hc b hb)
  · exact h

theorem believes_of_erase (hc : ¬ call.claims client fh)
    (h : Believes (calls.erase call) client fh lock kind) : Believes calls client fh lock kind := by
  rcases h with ⟨b, hb, h⟩ | ⟨hno, h⟩
  · exact .inl ⟨b, mem_of_mem_erase hb, h⟩
  · refine .inr ⟨fun b hb hcl => hno b ((mem_erase_of_ne ?_).mpr hb) hcl, h⟩
    rintro rfl
    exact hc hcl

theorem believes_cons (hno : ∀ b ∈ calls, ¬ b.claims client fh) (hc : call.claims client fh)
    (h : Believes (call :: calls) client fh lock kind) : call.believes lock = some kind := by
  rcases h with ⟨b, hb, hcl, h⟩ | ⟨hno', -⟩
  · rcases mem_cons.mp hb with rfl | hb
    · exact h
    · exact absurd hcl (hno b hb)
  · exact absurd hc (hno' call mem_cons_self)

theorem believes_of_cons (hc : ¬ call.claims client fh)
    (h : Believes (call :: calls) client fh lock kind) : Believes calls client fh lock kind := by
  rcases h with ⟨b, hb, hcl, h⟩ | ⟨hno, h⟩
  · rcases mem_cons.mp hb with rfl | hb
    · exact absurd hcl hc
    · exact .inl ⟨b, hb, hcl, h⟩
  · exact .inr ⟨fun b hb => hno b (mem_cons_of_mem _ hb), h⟩

theorem believes_of_claims (hm : call ∈ calls) (hc : call.claims client fh)
    (h : call.believes lock = some kind) : Believes calls client fh lock kind :=
  .inl ⟨call, hm, hc, h⟩

end Beliefs

/-! ## Clients -/

section Clients

variable (s : LockSystem) (client client' fh fh' : ℕ) (l : MirrorLink) (f : MirroredState)

theorem link_setLink :
    (s.setLink client l).link client' = if client' = client then l else s.link client' := by
  simp only [link, setLink, setClient]
  split
  · next h => rw [h, update_self]
  · next h => rw [update_of_ne h]

theorem setClient_kept {α : Type} {c : LockClient} (g : LockClient → α)
    (h : g c = g (s.clients client)) :
    g ((s.setClient client c).clients client') = g (s.clients client') := by
  simp only [setClient]
  by_cases hc : client' = client
  · rw [hc, update_self, h]
  · rw [update_of_ne hc]

theorem file_setLink : (s.setLink client l).file client' fh = s.file client' fh :=
  s.setClient_kept client client' (fun c => c.files.lookup fh) rfl

theorem link_setFile : (s.setFile client fh f).link client' = s.link client' :=
  s.setClient_kept client client' LockClient.link rfl

theorem link_eraseFile : (s.eraseFile client fh).link client' = s.link client' :=
  s.setClient_kept client client' LockClient.link rfl

theorem file_setClient {c : LockClient} {entry : Option MirroredState}
    (hself : c.files.lookup fh = entry)
    (hother : ∀ fh', fh' ≠ fh → c.files.lookup fh' = s.file client fh') :
    (s.setClient client c).file client' fh' =
      if client' = client ∧ fh' = fh then entry else s.file client' fh' := by
  simp only [file, setClient]
  by_cases h : client' = client
  · subst h
    rw [update_self]
    by_cases hf : fh' = fh
    · rw [if_pos ⟨rfl, hf⟩, hf, hself]
    · rw [if_neg fun he => hf he.2, hother fh' hf]
      rfl
  · rw [update_of_ne h, if_neg fun he => h he.1]

theorem file_setFile : (s.setFile client fh f).file client' fh' =
    if client' = client ∧ fh' = fh then some f else s.file client' fh' :=
  s.file_setClient client client' fh fh' (AList.lookup_insert _) fun _ => AList.lookup_insert_ne

theorem file_eraseFile : (s.eraseFile client fh).file client' fh' =
    if client' = client ∧ fh' = fh then none else s.file client' fh' :=
  s.file_setClient client client' fh fh' (AList.lookup_erase _ _) fun _ => AList.lookup_erase_ne

theorem link_poison : (s.poison client fh).link client' = s.link client' := by
  rw [poison]
  split
  · rfl
  · exact link_setFile s client client' fh _

theorem file_poison : (s.poison client fh).file client' fh' =
    if client' = client ∧ fh' = fh then (s.file client fh).map ({ · with poisoned := true })
    else s.file client' fh' := by
  rw [poison]
  cases hf : s.file client fh with
  | none =>
    dsimp only
    split
    · next h => rw [h.1, h.2, hf]; rfl
    · rfl
  | some file => exact file_setFile s client client' fh fh' _

theorem calls_poison : (s.poison client fh).calls = s.calls := by
  rw [poison]
  split <;> rfl

end Clients

/-! ## The invariant -/

/-- The lock of this handle is settled in this session. -/
def Settled (s : LockSystem) (client fh session : ℕ) : Prop :=
  match s.link client with
  | .up session' => session' = session
  | .down => False
  | .dialling pass => pass.session = session ∧ fh ∉ pass.todo ∧ ∀ r ∈ pass.replay, r.fh ≠ fh

/-- A call: whose session it is sent to, and which handle its number means. -/
structure CallOk (s : LockSystem) (call : HandleCall) : Prop where
  sent : ∀ σ ∈ call.phase.session, call.issuer = some σ ∧ σ < s.server.nextSession ∧
    ∀ client, s.session client = some σ → client = call.client
  waits : call.waiting = true → ∀ σ ∈ call.phase.session, s.link call.client = .up σ
  number : ∀ σ ∈ call.issuer, call.number < s.server.nextFh σ
  own : ∀ σ ∈ call.issuer, ∀ fh file, s.file call.client fh = some file → file.issuer = σ →
    file.serverFh = call.number → fh = call.fh
  /-- a handle that is released is no longer there -/
  gone : call.op = .release → ∀ σ ∈ call.issuer, ∀ file, s.file call.client call.fh = some file →
    file.issuer = σ → file.serverFh ≠ call.number
  abandoned : call.waiting = false → call.op ≠ .release → ∀ σ ∈ call.phase.session,
    s.session call.client = some σ → s.server.Dead σ
  there : call.phase.session = none → call.waiting = true
  task : ∀ σ path id parked, call.phase = .locking σ path id parked →
    id < s.server.nextTask ∧ ∀ task ∈ s.server.tasks id, task.session = σ ∧ task.fh = call.number ∧
      task.path = path ∧ ∀ kind wait, call.op = .lock kind wait → task.kind = kind
  /-- the handle of a caller that waits has the number that was sent -/
  same : call.claims call.client call.fh → ∀ σ ∈ call.phase.session,
    ∀ file, s.file call.client call.fh = some file → file.issuer = σ ∧ file.serverFh = call.number
  path : call.claims call.client call.fh → ∀ σ path id parked,
    call.phase = .locking σ path id parked →
    ∀ file, s.file call.client call.fh = some file → s.server.Dead σ ∨ file.path = path

/-- The server holds for a handle what is believed of it. -/
def Backed (s : LockSystem) (session : ℕ) (file : MirroredState) (kind : LockKind) : Prop :=
  s.server.Dead session ∨ file.issuer = session ∧
    (⟨session, file.serverFh, kind⟩ : Holder) ∈ s.server.locks.holders file.path

/-- The lock that a pass asks for is the mirror of the handle visited last. -/
structure Replaying (s : LockSystem) (client : ℕ) (pass : Pass) (r : Replay) : Prop where
  file : ∃ file, s.file client r.fh = some file ∧ file.lock = some r.kind ∧
    file.issuer = pass.session ∧ file.serverFh = r.number
  calls : ∀ call ∈ s.calls, call.claims client r.fh → call.phase = .prepared

/-- **The invariant of a run.** -/
structure Inv (s : LockSystem) : Prop where
  fresh : s.server.Fresh
  bounded : ∀ client σ, s.session client = some σ → σ < s.server.nextSession
  apart : ∀ client client' σ, s.session client = some σ → s.session client' = some σ →
    client = client'
  issued : ∀ client fh file, s.file client fh = some file →
    file.serverFh < s.server.nextFh file.issuer ∧ file.issuer < s.server.nextSession
  numbers : ∀ client fh fh' file file', s.file client fh = some file →
    s.file client fh' = some file' → file.issuer = file'.issuer → file.serverFh = file'.serverFh →
    fh = fh'
  denotes : ∀ client fh file, s.file client fh = some file → s.session client = some file.issuer →
    s.server.Dead file.issuer ∨ s.server.handles file.issuer file.serverFh = some file.path
  calls : ∀ call ∈ s.calls, s.CallOk call
  single : Single s.calls
  backed : ∀ client σ fh file kind, s.Settled client fh σ → s.file client fh = some file →
    file.poisoned = false → Believes s.calls client fh file.lock kind → s.Backed σ file kind
  replaying : ∀ client pass r, s.link client = .dialling pass → pass.replay = some r →
    s.Replaying client pass r

theorem Settled.session {s : LockSystem} {client fh σ : ℕ} (h : s.Settled client fh σ) :
    s.session client = some σ := by
  rw [Settled] at h
  rw [LockSystem.session]
  split at h
  · next hl => rw [hl, MirrorLink.session, h]
  · exact h.elim
  · next hl => rw [hl, MirrorLink.session, h.1]

theorem settled_congr {s s' : LockSystem} {client : ℕ} (h : s'.link client = s.link client)
    (fh σ : ℕ) :
    s'.Settled client fh σ ↔ s.Settled client fh σ := by
  rw [Settled, Settled, h]

theorem inv_init : Inv init := by
  have hno : ∀ client σ, init.session client ≠ some σ := by
    intro client σ h
    cases h
  have hfile : ∀ client fh file, init.file client fh ≠ some file := by
    intro client fh file h
    simp only [LockSystem.file, init, AList.lookup_empty] at h
    cases h
  refine ⟨?_, ?_, ?_, ?_, ?_, ?_, ?_, List.Pairwise.nil, ?_, ?_⟩
  · intro σ n h
    cases h
  · exact fun client σ h => absurd h (hno client σ)
  · exact fun client _ σ h => absurd h (hno client σ)
  · exact fun client fh file h => absurd h (hfile client fh file)
  · exact fun client fh _ file _ h => absurd h (hfile client fh file)
  · exact fun client fh file h => absurd h (hfile client fh file)
  · intro call h
    cases h
  · exact fun client σ fh file _ _ h => absurd h (hfile client fh file)
  · intro client pass r h
    cases h

/-! ## What an event can change -/

/-- The entry has the number it had. -/
def Kept (file' file : MirroredState) : Prop :=
  file'.issuer = file.issuer ∧ file'.serverFh = file.serverFh ∧ file'.path = file.path

/-- The entry has a number that the session of the client has just given. -/
structure Issued (s s' : LockSystem) (client fh : ℕ) (file : MirroredState) : Prop where
  session : s.session client = some file.issuer
  le : s.server.nextFh file.issuer ≤ file.serverFh
  lt : file.serverFh < s'.server.nextFh file.issuer
  denotes : s'.server.handles file.issuer file.serverFh = some file.path
  only : ∀ fh' file', s'.file client fh' = some file' → file'.issuer = file.issuer →
    file'.serverFh = file.serverFh → fh' = fh
  free : ∀ call ∈ s.calls, call.claims client fh → call.phase.session = none

/-- What every event but a loss of the connection does. -/
structure Moves (s s' : LockSystem) : Prop where
  later : s.server.Later s'.server
  up : ∀ client σ, s.link client = .up σ → s'.link client = .up σ
  session : ∀ client σ, s'.session client = some σ → s.session client = some σ ∨
    s.server.nextSession ≤ σ ∧ σ < s'.server.nextSession ∧
      ∀ client', s'.session client' = some σ → client' = client
  file : ∀ client fh file', s'.file client fh = some file' →
    (∃ file, s.file client fh = some file ∧ Kept file' file) ∨ Issued s s' client fh file'

section Moves

variable {s s' : LockSystem} {call : HandleCall}

theorem Moves.of_server {server : LockServer} (hl : s.server.Later server)
    (calls : List HandleCall) :
    Moves s { s with server, calls } :=
  ⟨hl, fun _ _ h => h, fun _ _ h => .inl h, fun _ _ file h => .inl ⟨file, h, rfl, rfl, rfl⟩⟩

/-- **A call that an event does not concern stays as it is.** -/
theorem CallOk.moves (hm : Moves s s') (hmem : call ∈ s.calls) (h : s.CallOk call) :
    s'.CallOk call := by
  have hsession : ∀ σ, σ < s.server.nextSession → ∀ client, s'.session client = some σ →
      s.session client = some σ := by
    intro σ hlt client hc
    refine (hm.session client σ hc).resolve_right fun hnew => ?_
    exact lt_irrefl _ (hlt.trans_le hnew.1)
  -- an entry with the number of the call is not a new one
  have hfile : ∀ σ ∈ call.issuer, ∀ fh file', s'.file call.client fh = some file' →
      file'.issuer = σ → file'.serverFh = call.number →
      ∃ file, s.file call.client fh = some file ∧ Kept file' file := by
    intro σ hσ fh file' hf hi hn
    refine (hm.file call.client fh file' hf).resolve_right fun hnew => ?_
    have hle := hnew.le
    have hlt := h.number σ hσ
    rw [hi, hn] at hle
    omega
  -- nor is that of a caller that waits for the server
  have hkept : call.claims call.client call.fh → ∀ σ ∈ call.phase.session, ∀ file',
      s'.file call.client call.fh = some file' →
      ∃ file, s.file call.client call.fh = some file ∧ Kept file' file := by
    intro hc σ hσ file' hf
    refine (hm.file _ _ file' hf).resolve_right fun hnew => ?_
    have hnone := hnew.free call hmem hc
    rw [hnone] at hσ
    cases hσ
  refine ⟨?_, ?_, ?_, ?_, ?_, ?_, h.there, ?_, ?_, ?_⟩
  · intro σ hσ
    obtain ⟨hi, hlt, ho⟩ := h.sent σ hσ
    exact ⟨hi, hlt.trans_le hm.later.nextSession,
      fun client hc => ho client (hsession σ hlt client hc)⟩
  · exact fun hw σ hσ => hm.up _ _ (h.waits hw σ hσ)
  · exact fun σ hσ => (h.number σ hσ).trans_le (hm.later.nextFh σ)
  · intro σ hσ fh file' hf hi hn
    obtain ⟨file, hf', hk⟩ := hfile σ hσ fh file' hf hi hn
    exact h.own σ hσ fh file hf' (hk.1 ▸ hi) (hk.2.1 ▸ hn)
  · intro hop σ hσ file' hf hi hn
    obtain ⟨file, hf', hk⟩ := hfile σ hσ _ file' hf hi hn
    exact h.gone hop σ hσ file hf' (hk.1 ▸ hi) (hk.2.1 ▸ hn)
  · intro hw hop σ hσ hc
    have hlt := (h.sent σ hσ).2.1
    exact hm.later.dead σ hlt (h.abandoned hw hop σ hσ (hsession σ hlt _ hc))
  · intro σ path id parked hp
    obtain ⟨hlt, ht⟩ := h.task σ path id parked hp
    refine ⟨hlt.trans_le hm.later.nextTask, fun task' ht' => ?_⟩
    obtain ⟨task, htask, h₁, h₂, h₃, h₄, -⟩ := hm.later.tasks id hlt task' ht'
    rw [h₁, h₂, h₃, h₄]
    exact ht task htask
  · intro hc σ hσ file' hf
    obtain ⟨file, hf', hk⟩ := hkept hc σ hσ file' hf
    rw [hk.1, hk.2.1]
    exact h.same hc σ hσ file hf'
  · intro hc σ path id parked hp file' hf
    have hσ : σ ∈ call.phase.session := by rw [hp]; rfl
    obtain ⟨file, hf', hk⟩ := hkept hc σ hσ file' hf
    rw [hk.2.2]
    exact (h.path hc σ path id parked hp file hf').imp_left (hm.later.dead σ (h.sent σ hσ).2.1)

theorem Backed.spares {σ : ℕ} (h : s.Backed σ file kind)
    (hlt : σ < s.server.nextSession) (hl : s.server.Later s'.server)
    (hspare : file.issuer = σ → s'.server.Dead σ ∨ s.server.Spares s'.server σ file.serverFh) :
    s'.Backed σ file kind := by
  rcases h with hd | ⟨hissuer, hm⟩
  · exact .inl (hl.dead σ hlt hd)
  · rcases hspare hissuer with hd | hspare
    · exact .inl hd
    · exact (hspare.holders _ _ hm).imp_right fun hm => ⟨hissuer, hm⟩

/-- What is left to show of the invariant after an event: that the handles of the entries are still
open, and all about calls and locks that is not as it was. -/
theorem Inv.moves (hi : s.Inv) (hm : Moves s s')
    (hhandles : ∀ client fh file, s.file client fh = some file →
      s.session client = some file.issuer →
      s.server.handles file.issuer file.serverFh = some file.path →
      (∃ file', s'.file client fh = some file' ∧ Kept file' file) →
      s'.server.Dead file.issuer ∨ s'.server.handles file.issuer file.serverFh = some file.path)
    (hcalls : ∀ call ∈ s'.calls, call ∈ s.calls ∨ s'.CallOk call) (hsingle : Single s'.calls)
    (hbacked : ∀ client σ fh file kind, s'.Settled client fh σ → s'.file client fh = some file →
      file.poisoned = false → Believes s'.calls client fh file.lock kind → s'.Backed σ file kind ∨
        s.Settled client fh σ ∧ s.file client fh = some file ∧
          Believes s.calls client fh file.lock kind ∧
          (file.issuer = σ → s'.server.Dead σ ∨ s.server.Spares s'.server σ file.serverFh))
    (hreplaying : ∀ client pass r, s'.link client = .dialling pass → pass.replay = some r →
      s'.Replaying client pass r ∨ s.link client = .dialling pass ∧
        s'.file client r.fh = s.file client r.fh ∧
        ∀ c ∈ s'.calls, c.claims client r.fh → c ∈ s.calls ∨ c.phase = .prepared) : s'.Inv := by
  refine ⟨hm.later.fresh hi.fresh, ?_, ?_, ?_, ?_, ?_, fun c hc => ?_, hsingle, ?_, ?_⟩
  · intro client σ h
    rcases hm.session client σ h with h | ⟨-, h, -⟩
    · exact (hi.bounded client σ h).trans_le hm.later.nextSession
    · exact h
  · intro client client' σ h h'
    rcases hm.session client σ h with ho | ⟨-, -, hnew⟩
    · rcases hm.session client' σ h' with ho' | ⟨-, -, hnew⟩
      · exact hi.apart client client' σ ho ho'
      · exact hnew client h
    · exact (hnew client' h').symm
  · intro client fh file' hf
    rcases hm.file client fh file' hf with ⟨file, hf', hk⟩ | hnew
    · obtain ⟨h₁, h₂⟩ := hi.issued client fh file hf'
      rw [hk.1, hk.2.1]
      exact ⟨h₁.trans_le (hm.later.nextFh _), h₂.trans_le hm.later.nextSession⟩
    · exact ⟨hnew.lt, (hi.bounded _ _ hnew.session).trans_le hm.later.nextSession⟩
  · intro client fh fh' file file' hf hf' hissuer hn
    rcases hm.file client fh file hf with ⟨old, hold, hk⟩ | hnew
    · rcases hm.file client fh' file' hf' with ⟨old', hold', hk'⟩ | hnew
      · refine hi.numbers client fh fh' old old' hold hold' ?_ ?_
        · rw [← hk.1, ← hk'.1, hissuer]
        · rw [← hk.2.1, ← hk'.2.1, hn]
      · exact hnew.only fh file hf hissuer hn
    · exact (hnew.only fh' file' hf' hissuer.symm hn.symm).symm
  · intro client fh file' hf hs
    rcases hm.file client fh file' hf with ⟨file, hf', hk⟩ | hnew
    · rw [hk.1, hk.2.1, hk.2.2]
      rw [hk.1] at hs
      rcases hm.session client _ hs with hs | ⟨hle, -⟩
      · rcases hi.denotes client fh file hf' hs with hd | hd
        · exact .inl (hm.later.dead _ (hi.bounded _ _ hs) hd)
        · exact hhandles client fh file hf' hs hd ⟨file', hf, hk⟩
      · exact absurd ((hi.issued client fh file hf').2.trans_le hle) (lt_irrefl _)
    · exact .inr hnew.denotes
  · exact (hcalls c hc).elim (fun hc => (hi.calls c hc).moves hm hc) id
  · intro client σ fh file kind hset hf hp hb
    refine (hbacked client σ fh file kind hset hf hp hb).elim id ?_
    rintro ⟨hset, hf, hb, hspare⟩
    exact (hi.backed client σ fh file kind hset hf hp hb).spares (hi.bounded _ _ hset.session)
      hm.later hspare
  · intro client pass r hl hr
    refine (hreplaying client pass r hl hr).elim id ?_
    rintro ⟨hl, hfile, hcalls⟩
    obtain ⟨⟨file, hf, hrest⟩, hprepared⟩ := hi.replaying client pass r hl hr
    refine ⟨⟨file, hfile.trans hf, hrest⟩, fun c hc hcl => ?_⟩
    exact (hcalls c hc hcl).elim (fun hc => hprepared c hc hcl) id

end Moves

end LockSystem

end AlloyFs
