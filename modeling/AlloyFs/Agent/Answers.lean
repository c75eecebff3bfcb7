import AlloyFs.Agent.Conflict

/-!
# What an answer tells a client

A client keeps two numbers from the answers of the agent: the handle a file was opened under,
and the version of the path it was opened by.  This module says what they are.  An open is
answered with the number the session gives out next and with the version its path has then; a
write is answered with the version it made; and a write is refused with `Conflict` only if it
expects another version than the path of its handle has.
-/

namespace AlloyFs

/-- The file is opened so that it can be written. -/
def OpenFlags.wantsWrite (flags : OpenFlags) : Bool := flags.write || flags.truncate || flags.append

namespace Ctx

open Act

/-- What a client depends on: the versions, and its session. -/
def clientView (c : Ctx) : Books × SessionInner := (c.books, c.me)

/-- From these versions and this session the computation returns as `R` says, or fails and
leaves both as they were. -/
def Answers {α : Type} (b : Books) (me : SessionInner) (m : Handler α)
    (R : α → Books → SessionInner → Prop) : Prop :=
  Triple (fun c => c.clientView = (b, me)) m (fun a c => R a c.books c.me)
    fun c => c.clientView = (b, me)

/-- What an answer to an open says: the number and the version it carries are those of the new
handle and of its path. -/
def Opened (me : SessionInner) (path : RelPath) (writable : Bool) (r : Response) (b : Books)
    (me' : SessionInner) : Prop :=
  ∃ attr file, r = .opened me.nextFh attr ∧ attr.version = b.versionOf path ∧
    file.path = path ∧ file.writable = writable ∧
    me' = { me with handles := me.handles.insert me.nextFh file, nextFh := me.nextFh + 1 }

/-! ## Whole requests -/

section Requests

variable (x : Export) (b : Books) (me : SessionInner)

theorem answers_of_ran {x : Export} {b : Books} {me : SessionInner} {req : Request}
    {R : Books → SessionInner → Option Response → Books → SessionInner → Prop}
    (h : ∀ c r d, Ran x c req r d → R c.books c.me r d.books d.me) :
    Answers b me (handle x req) (R b me) := by
  intro c hc
  obtain ⟨rfl, rfl⟩ := Prod.mk.inj hc
  refine (ran_handle x req c).conseq (fun _ h => h) (h c) (fun d hd => ?_) c rfl
  cases hd <;> exact hc

theorem answers_handle_openFile (path : RelPath) (flags : OpenFlags) :
    Answers b me (handle x (.openFile path flags)) fun r b' me' =>
      ∃ r', r = some r' ∧ b' = ((Request.openFile path flags).mark me.handles).apply b ∧
        Opened me path flags.wantsWrite r' b' me' := by
  apply answers_of_ran
  intro c r d h
  have hbooks := h.books
  cases h with
  | @opened _ _ attr _ l ino _ _ _ _ _ hattr =>
    refine ⟨_, rfl, hbooks, attr, ⟨ino, l, path, flags.wantsWrite⟩, rfl, ?_, rfl, rfl, ?_⟩
    · rw [hattr, hbooks, Request.mark]
      cases flags.truncate with
      | true => exact (@Books.versionOf_bump_self c.books path).symm
      | false => rfl
    · split <;> rfl
  | looked hreq | changed _ _ hreq => cases hreq
  | touched _ hreq => simp at hreq

theorem answers_handle_create (path : RelPath) (flags : OpenFlags) (mode : ℕ) :
    Answers b me (handle x (.create path flags mode)) fun r b' me' =>
      ∃ r', r = some r' ∧ b' = (Mark.bump path).apply b ∧ Opened me path true r' b' me' := by
  apply answers_of_ran
  intro c r d h
  have hbooks := h.books
  cases h with
  | created _ _ _ _ hattr =>
    refine ⟨_, rfl, hbooks, _, _, rfl, ?_, rfl, rfl, rfl⟩
    rw [hattr, hbooks]
    exact (@Books.versionOf_bump_self c.books path).symm
  | looked hreq | changed _ _ hreq => cases hreq
  | touched _ hreq => simp at hreq

theorem answers_handle_write (fh offset : ℕ) (data : Bytes) (expectVersion : Option ℕ) :
    Answers b me (handle x (.write fh offset data expectVersion)) fun r b' me' =>
      ∃ file, me.handles.lookup fh = some file ∧ file.writable = true ∧
        b' = (Mark.bump file.path).apply b ∧ me' = me ∧
        r = some (.written data.length (b'.versionOf file.path) false) := by
  apply answers_of_ran
  intro c r d h
  cases h with
  | @written _ _ _ _ file _ _ hfile hwrite =>
    refine ⟨file, hfile, hwrite, rfl, rfl, ?_⟩
    exact congrArg (fun v => some (Response.written data.length v false))
      (@Books.versionOf_bump_self c.books file.path).symm
  | looked hreq | changed _ _ hreq => cases hreq
  | touched _ hreq => simp at hreq

theorem answers_handle_setattr (path : RelPath) (size : Option ℕ) (mtime : Option SystemTime)
    (mode : Option ℕ) :
    Answers b me (handle x (.setattr path size mtime mode)) fun _ b' me' =>
      b' = (Mark.bump path).apply b ∧ me' = me := by
  apply answers_of_ran
  intro c r d h
  refine ⟨h.books, ?_⟩
  cases h with
  | changed => rfl
  | looked hreq => cases hreq
  | touched _ hreq => simp at hreq

theorem answers_handle_release (fh : ℕ) :
    Answers b me (handle x (.release fh)) fun _ b' me' =>
      b' = b ∧ me' = { me with handles := me.handles.erase fh } := by
  apply answers_of_ran
  intro c r d h
  refine ⟨h.books, ?_⟩
  cases h with
  | release => rfl
  | released hl =>
    have herase : c.me.handles.erase fh = c.me.handles :=
      AList.ext (List.kerase_of_notMem_keys (AList.lookup_eq_none.mp hl))
    rw [herase]
  | looked hreq | changed _ _ hreq => cases hreq
  | touched _ hreq => simp at hreq

theorem answers_handle_attach (name : Text) :
    Answers b me (handle x (.attach name)) fun _ b' me' =>
      b' = b ∧ me' = { me with attached := true } := by
  apply answers_of_ran
  intro c r d h
  cases h with
  | attach => exact ⟨rfl, rfl⟩
  | looked hreq | changed _ _ hreq => cases hreq
  | touched _ hreq => simp at hreq

end Requests

/-- **A write is refused with `Conflict`** only when it expects another version than the path of
its handle has. -/
theorem conflict_of_handle {x : Export} {c c' : Ctx} {fh offset : ℕ} {data : Bytes}
    {expectVersion : Option ℕ}
    (h : handle x (.write fh offset data expectVersion) c = .error .conflict c') :
    ∃ file v, c.me.handles.lookup fh = some file ∧ file.writable = true ∧
      expectVersion = some v ∧ v ≠ c.books.versionOf file.path := by
  have hrun : handle x (.write fh offset data expectVersion) c = (do
      let c ← get
      ensure c.me.authed .authRequired
      some <$> write x fh offset data expectVersion : Handler (Option Response)) c := rfl
  by_cases hauth : c.me.authed = true
  swap
  · rw [hrun, get_bind, bind_of_error (e := .authRequired) (t := c)
      (by rw [ensure_run, if_neg hauth])] at h
    cases h
  rw [hrun, handle_run hauth] at h
  have hmap : ∀ {e c₁}, write x fh offset data expectVersion c = .error e c₁ → e = .conflict := by
    intro e c₁ hw
    rw [show (some <$> write x fh offset data expectVersion : Handler _) c =
      .error e c₁ from bind_of_error hw] at h
    cases h
    rfl
  cases hgate : writableExport x c with
  | error e c₁ =>
    obtain rfl : e = .conflict := hmap (bind_of_error hgate)
    rw [writableExport_run] at hgate
    split at hgate
    · split at hgate <;> cases hgate
    · cases hgate
  | ok u c₁ =>
    obtain ⟨hatt, hro, rfl⟩ := writableExport_ok hgate
    cases hl : c₁.me.handles.lookup fh with
    | none =>
      have hof : handleOf fh c₁ = .error .badHandle c₁ := by
        rw [handleOf, get_bind, hl]
        rfl
      have := hmap ((bind_of_ok hgate).trans (bind_of_error hof))
      cases this
    | some file =>
      have hof : handleOf fh c₁ = .ok file c₁ := handleOf_eq_ok.mpr ⟨hl, rfl⟩
      by_cases hw : file.writable = true
      swap
      · have := hmap ((bind_of_ok hgate).trans ((bind_of_ok hof).trans
          (bind_of_error (e := .badHandle) (t := c₁) (by rw [ensure_run, if_neg hw]))))
        cases this
      by_cases hv : expectVersion = none ∨ expectVersion = some (c₁.books.versionOf file.path)
      · obtain ⟨_, _, hok, -⟩ := write_of_accepts offset data
          (⟨hauth, hatt, hro, hl, hw, hv⟩ : Accepts x c₁ fh expectVersion file)
        rw [hrun, handle_run hauth] at hok
        rw [hok] at h
        cases h
      · obtain ⟨hne, hv⟩ := not_or.mp hv
        obtain ⟨v, rfl⟩ := Option.ne_none_iff_exists'.mp hne
        exact ⟨file, v, rfl, hw, rfl, fun heq => hv (by rw [heq])⟩

end Ctx
end AlloyFs
