import AlloyFs.Agent.Edits
import AlloyFs.Agent.LockManager
import AlloyFs.Os.Entries

/-!
# Locks and the files they stand for

A lock is meant for the file behind a handle, but the table is keyed by the path the handle was
opened with.  A handle keeps that path for as long as it lives; a rename takes the file away from
the path, or puts another one there, and nobody changes the key.

As long as no rename touches the path of an open handle, every open handle's path names its file.
On an export without links a file has one name; so the handles of a file meet in one entry of the
table, and handles of different files do not meet.
-/

namespace AlloyFs

open Function List

/-! ## An export without links -/

namespace Fs

/-- Below the root there are no symbolic links, and every file has one name. -/
structure Plain (fs : Fs) (root : Loc) : Prop where
  sane : fs.Sane
  top : fs.get root = some .dir
  names : ∀ c ∈ root, Ordinary c
  noLinks : ∀ l, root <+: l → ∀ t, fs.get l ≠ some (.symlink t)
  oneName : ∀ l l' i, root <+: l → root <+: l' → fs.get l = some (.file i) →
    fs.get l' = some (.file i) → l = l'

variable {fs fs' : Fs} {root l : Loc}

section

variable (h : fs.Plain root)
include h

theorem Plain.of_tree (htree : fs'.tree = fs.tree)
    (hnext : fs'.nextIno = fs.nextIno) : fs'.Plain root := by
  refine ⟨h.sane.of_tree htree hnext, ?_, h.names, ?_, ?_⟩ <;> simp only [get_of_tree htree]
  · exact h.top
  · exact h.noLinks
  · exact h.oneName

section

variable (hl : root <+: l)
include hl

theorem Plain.noLinks_to : fs.NoLinks l := by
  intro q hq t hget
  rcases prefix_or_prefix_of_prefix hq hl with hroot | hroot
  · by_cases heq : q = root
    · rw [heq, h.top] at hget
      cases hget
    · rw [h.sane.dir_of_prefix h.top hroot heq] at hget
      cases hget
  · exact h.noLinks q hroot t hget

theorem Plain.newFile (hne : l ≠ root)
    (hparent : fs.get l.dropLast = some .dir) (hvac : fs.get l = none) :
    (fs.newFile l).Plain root := by
  have hget : ∀ q, (fs.newFile l).get q = if q = l then some (.file fs.nextIno) else fs.get q := by
    intro q
    by_cases hq : q = l
    · rw [if_pos hq, hq]
      exact PathMap.get_put_self ..
    · rw [if_neg hq]
      exact PathMap.get_put_of_ne _ _ hq
  have hnil : l ≠ [] := by
    rintro rfl
    exact hne (prefix_nil.mp hl).symm
  have hsplit : l.dropLast ++ [l.getLast hnil] = l := dropLast_append_getLast hnil
  -- no entry has the number of the new file
  have hold : ∀ q i, fs.get q = some (.file i) → i ≠ fs.nextIno := by
    intro q i hq
    exact Nat.ne_of_lt (h.sane.inos q i hq)
  refine ⟨?_, ?_, h.names, ?_, ?_⟩
  · refine h.sane.put hparent (by rwa [hsplit]) (Nat.le_succ _) ?_ (by rw [hsplit]; rfl) rfl
    rintro i ⟨⟩
    exact Nat.lt_succ_self _
  · rw [hget, if_neg (Ne.symm hne)]
    exact h.top
  · intro q hq t
    rw [hget]
    split
    · simp
    · exact h.noLinks q hq t
  · intro q q' i hq hq' hi hi'
    rw [hget] at hi hi'
    split at hi <;> split at hi'
    · rename_i heq heq'
      rw [heq, heq']
    · cases hi
      exact absurd rfl (hold q' _ hi')
    · cases hi'
      exact absurd rfl (hold q _ hi)
    · exact h.oneName q q' i hq hq' hi hi'

theorem Plain.openFile {write trunc : Bool} {r : Loc × Node}
    (hok : fs.openFile l write trunc = .ok (r, fs')) :
    fs.get l = some r.2 ∧ fs'.Plain root ∧ Grows fs fs' := by
  obtain ⟨hfound, hget, rfl⟩ := openFile_ok hok
  rw [leaf_true_found (h.noLinks l hl) hfound] at hget
  refine ⟨hget, ?_⟩
  cases r.2 <;> cases trunc <;> exact ⟨h.of_tree rfl rfl, Grows.of_tree rfl⟩

theorem Plain.openCreate (hne : l ≠ root) {trunc : Bool}
    {r : Loc × ℕ} (hok : fs.openCreate l trunc = .ok (r, fs')) :
    fs'.get l = some (.file r.2) ∧ fs'.Plain root := by
  rcases openCreate_ok hok with ⟨hv, rfl⟩ | ⟨hfound, hget, rfl⟩
  · have hself : r.1 = l := by
      rw [leaf] at hv
      split at hv
      · split at hv <;> cases hv
        rfl
      · next t ht => exact absurd ht (h.noLinks l hl t)
      · cases hv
    have hino : r.2 = fs.nextIno := by
      rw [Fs.openCreate, hv] at hok
      simp only [Except.ok.injEq, Prod.mk.injEq] at hok
      rw [← hok.1]
    obtain ⟨d, c, hsplit, hd, hvac⟩ := parent_of_leaf_vacant h.sane hv
    rw [hself] at hsplit hvac
    rw [hself, hino]
    refine ⟨PathMap.get_put_self .., ?_⟩
    have := h.newFile hl hne (by rw [hsplit, dropLast_concat]; exact hd) hvac
    exact this.of_tree rfl rfl
  · rw [leaf_true_found (h.noLinks l hl) hfound] at hget
    refine ⟨?_, h.of_tree ?_ ?_⟩
    · cases trunc <;> exact hget
    · cases trunc <;> rfl
    · cases trunc <;> rfl

theorem Plain.createNew (hne : l ≠ root) {r : Loc × ℕ}
    (hok : fs.createNew l = .ok (r, fs')) : fs'.get l = some (.file r.2) ∧ fs'.Plain root := by
  obtain ⟨d, c, hsplit, hd, hvac⟩ := parent_of_leaf_vacant h.sane (leaf_of_createNew hok)
  obtain ⟨rfl, rfl⟩ := createNew_ok hok
  refine ⟨PathMap.get_put_self .., ?_⟩
  have := h.newFile hl hne (by rw [hsplit, dropLast_concat]; exact hd) hvac
  exact this.of_tree rfl rfl

end

theorem Plain.moveEntry {src dst : Loc} (hsrc : root <+: src)
    (hdst : root <+: dst) (hne : src ≠ root) (hne' : dst ≠ root) (h₁ : ¬ src <+: dst)
    (h₂ : ¬ dst <+: src) (hs : (fs.moveEntry src dst).Sane) :
    (fs.moveEntry src dst).Plain root := by
  have hget := fs.get_moveEntry h₁ h₂
  have hroot : ∀ {q}, root <+: q → dst <+: q → root <+: src ++ q.drop dst.length :=
    fun _ _ => hsrc.trans (prefix_append _ _)
  have hback : ∀ {q}, dst <+: q → dst ++ q.drop dst.length = q := by
    rintro q ⟨t, rfl⟩
    simp
  refine ⟨hs, ?_, h.names, ?_, ?_⟩
  · rw [hget, if_neg, if_neg]
    · exact h.top
    · exact fun hpre => hne (List.IsPrefix.eq_of_length_le hpre hsrc.length_le)
    · exact fun hpre => hne' (List.IsPrefix.eq_of_length_le hpre hdst.length_le)
  · intro q hq t
    rw [hget]
    split
    · next hpre => exact h.noLinks _ (hroot hq hpre) t
    · split
      · simp
      · exact h.noLinks q hq t
  · intro q q' i hq hq' hi hi'
    rw [hget] at hi hi'
    split at hi <;> split at hi'
    · next hpre hpre' =>
      have := h.oneName _ _ i (hroot hq hpre) (hroot hq' hpre') hi hi'
      rw [← hback hpre, ← hback hpre', append_cancel_left this]
    · next hpre hpre' =>
      split at hi'
      · cases hi'
      · next hnot =>
        have := h.oneName _ _ i (hroot hq hpre) hq' hi hi'
        exact absurd (this ▸ prefix_append _ _) hnot
    · next hpre hpre' =>
      split at hi
      · cases hi
      · next hnot =>
        have := h.oneName _ _ i hq (hroot hq' hpre') hi hi'
        exact absurd (this ▸ prefix_append _ _) hnot
    · split at hi
      · cases hi
      · split at hi'
        · cases hi'
        · exact h.oneName q q' i hq hq' hi hi'

end

end Fs

theorem RelPath.ordinary_of_validate {p : RelPath} (hv : p.validate = true) :
    ∀ c ∈ p.pushed, Fs.Ordinary c := by
  intro c hc
  unfold RelPath.pushed at hc
  split at hc
  · cases hc
  · next hr => exact RelPath.mem_comps_of_validate hv (by simpa using hr) hc

section Resolve

variable {x : Export} {fs : Fs} {path : RelPath} {full : Loc}

theorem Fs.Plain.resolve (h : fs.Plain x.root) (hres : x.resolve fs path = .ok full) :
    path.validate = true ∧ full = x.root ++ path.pushed := by
  obtain ⟨hv, hcase⟩ := Export.resolve_ok hres
  refine ⟨hv, ?_⟩
  rcases hcase with ⟨hr, rfl⟩ | ⟨-, hcan, -⟩
  · simp [RelPath.pushed, hr]
  · refine Fs.canonicalize_eq ?_ (h.noLinks_to (prefix_append _ _)) hcan
    intro c hc
    rcases mem_append.mp hc with hc | hc
    · exact h.names c hc
    · exact RelPath.ordinary_of_validate hv c hc

theorem Fs.Plain.resolveNew (h : fs.Plain x.root) (hres : x.resolveNew fs path = .ok full) :
    path.validate = true ∧ full = x.root ++ path.pushed ∧ full ≠ x.root := by
  obtain ⟨parent, leaf, d, hv, hsplit, hd, rfl⟩ := Export.resolveNew_ok hres
  obtain ⟨-, rfl⟩ := h.resolve hd
  refine ⟨hv, by rw [RelPath.pushed_of_split hv hsplit, append_assoc], ?_⟩
  intro heq
  have := congrArg length heq
  simp at this

end Resolve

/-! ## What a request does -/

namespace Ctx

open Act

/-- A rename to another path, which replaces what is there or finds nothing there, moves what is at
or below its source, and replaces what is at its destination. -/
def Displaces (x : Export) (fs : Fs) (req : Request) (l : Loc) : Prop :=
  match req with
  | .rename src dst replace =>
    src ≠ dst ∧ (replace = true ∨ fs.exists_ (x.root ++ dst.pushed) = false) ∧
      (x.root ++ src.pushed <+: l ∨ x.root ++ dst.pushed <+: l)
  | _ => False

instance (x : Export) (fs : Fs) (req : Request) (l : Loc) : Decidable (Displaces x fs req l) := by
  unfold Displaces; split <;> infer_instance

/-- **What a request can do** to the entries, to the handles of its session and to the locks. -/
structure Served (x : Export) (req : Request) (c₀ c : Ctx) : Prop where
  plain : c₀.fs.Plain x.root → c.fs.Plain x.root
  entries : c₀.fs.Plain x.root → ∀ l i, x.root <+: l → ¬ Displaces x c₀.fs req l →
    c₀.fs.get l = some (.file i) → c.fs.get l = some (.file i)
  id : c.me.id = c₀.me.id
  nextFh : c₀.me.nextFh ≤ c.me.nextFh
  handles : c₀.fs.Plain x.root → ∀ fh (f : OpenFile), c.me.handles.lookup fh = some f →
    c₀.me.handles.lookup fh = some f ∨
      c₀.me.nextFh ≤ fh ∧ fh < c.me.nextFh ∧ c.fs.get (x.root ++ f.path.pushed) = some (.file f.ino)
  locks : c₀.locks.Ok → c.locks.Ok
  holders : ∀ p, ∀ h ∈ c.locks.holders p, h ∈ c₀.locks.holders p ∨
    h.session = c₀.me.id ∧ ∃ f, c₀.me.handles.lookup h.fh = some f ∧ f.path = p

section Served

variable {x : Export} {req : Request} {c₀ c : Ctx} {path : RelPath} {file : OpenFile}

theorem served_refl (c : Ctx) : Served x req c c :=
  ⟨fun h => h, fun _ _ _ _ _ h => h, rfl, le_rfl, fun _ _ _ h => .inl h, fun h => h,
    fun _ _ h => .inl h⟩

theorem served_of_fs (hme : c.me = c₀.me) (hlocks : c.locks = c₀.locks)
    (hplain : c₀.fs.Plain x.root → c.fs.Plain x.root)
    (hentries : c₀.fs.Plain x.root → ∀ l i, x.root <+: l → ¬ Displaces x c₀.fs req l →
      c₀.fs.get l = some (.file i) → c.fs.get l = some (.file i)) : Served x req c₀ c := by
  refine ⟨hplain, hentries, by rw [hme], by rw [hme], fun _ fh f hf => ?_, ?_, ?_⟩
  · rw [hme] at hf
    exact .inl hf
  · rw [hlocks]
    exact fun h => h
  · rw [hlocks]
    exact fun _ _ h => .inl h

theorem served_of_grows (hme : c.me = c₀.me) (hlocks : c.locks = c₀.locks)
    (h : c₀.fs.Plain x.root → c.fs.Plain x.root ∧ Fs.Grows c₀.fs c.fs) : Served x req c₀ c :=
  served_of_fs hme hlocks (fun hp => (h hp).1) fun hp l _ _ _ hl => (h hp).2 l _ hl

theorem served_opened (hme : c.me = c₀.me) (hlocks : c.locks = c₀.locks)
    (h : c₀.fs.Plain x.root → (c.fs.Plain x.root ∧ Fs.Grows c₀.fs c.fs) ∧
      c.fs.get (x.root ++ file.path.pushed) = some (.file file.ino)) :
    Served x req c₀ (c.opened file) := by
  have hs : Served x req c₀ c := served_of_grows hme hlocks fun hp => (h hp).1
  refine ⟨hs.plain, hs.entries, hs.id, ?_, fun hp fh f hf => ?_, hs.locks, hs.holders⟩
  · exact Nat.le_succ_of_le hs.nextFh
  · rcases lookup_of_insert hf with ⟨rfl, rfl⟩ | ⟨-, hf⟩
    · exact .inr ⟨by rw [hme], Nat.lt_succ_self _, (h hp).2⟩
    · exact (hs.handles hp fh f hf).imp_right fun hnew =>
        ⟨hnew.1, Nat.lt_succ_of_lt hnew.2.1, hnew.2.2⟩

theorem plain_openFile {write trunc : Bool} {full l : Loc} {n : Node} {fs : Fs}
    (hres : x.resolve c.fs path = .ok full)
    (hopen : c.fs.openFile full write trunc = .ok ((l, n), fs))
    (hp : c.fs.Plain x.root) :
    (fs.Plain x.root ∧ Fs.Grows c.fs fs) ∧ fs.get (x.root ++ path.pushed) = some n := by
  obtain ⟨-, rfl⟩ := hp.resolve hres
  obtain ⟨hget, hplain, hgrows⟩ := hp.openFile (prefix_append _ _) hopen
  exact ⟨⟨hplain, hgrows⟩, hgrows _ _ hget⟩

theorem plain_create {flags : OpenFlags} {full : Loc} {file : Loc × ℕ} {fs : Fs} (mode : ℕ)
    (hnew : x.resolveNew c.fs path = .ok full)
    (hcall : (if flags.excl then c.fs.createNew full else c.fs.openCreate full flags.truncate) =
      .ok (file, fs)) (hp : c.fs.Plain x.root) :
    (((fs.modify file.2 fun i => { i with mode := modeBits mode }).touch [file.1]).Plain x.root ∧
      Fs.Grows c.fs ((fs.modify file.2 fun i => { i with mode := modeBits mode }).touch [file.1])) ∧
      fs.get (x.root ++ path.pushed) = some (.file file.2) := by
  have hcreated : fs.Plain x.root ∧ Fs.Grows c.fs fs ∧
      fs.get (x.root ++ path.pushed) = some (.file file.2) := by
    obtain ⟨-, rfl, hne⟩ := hp.resolveNew hnew
    cases hexcl : flags.excl with
    | true =>
      rw [hexcl, if_pos rfl] at hcall
      obtain ⟨hget, hplain⟩ := hp.createNew (prefix_append _ _) hne hcall
      exact ⟨hplain, Fs.grows_createNew hcall, hget⟩
    | false =>
      rw [hexcl, if_neg (by simp)] at hcall
      obtain ⟨hget, hplain⟩ := hp.openCreate (prefix_append _ _) hne hcall
      exact ⟨hplain, hp.sane.grows_openCreate hcall, hget⟩
  obtain ⟨hplain, hgrows, hget⟩ := hcreated
  exact ⟨⟨hplain.of_tree rfl rfl, hgrows.trans (Fs.Grows.of_tree rfl)⟩, hget⟩

theorem renamed {src dst : RelPath} {replace : Bool} {fs fs' : Fs} {ls ld : Loc} {u : Unit}
    (hp : fs.Plain x.root) (hsrc : x.resolve fs src = .ok ls) (hdst : x.resolveNew fs dst = .ok ld)
    (hfree : replace = true ∨ fs.exists_ ld = false) (h : fs.rename ls ld = .ok (u, fs')) :
    fs'.Plain x.root ∧ ∀ l i, x.root <+: l → ¬ Displaces x fs (.rename src dst replace) l →
      fs.get l = some (.file i) → fs'.get l = some (.file i) := by
  obtain ⟨-, rfl⟩ := hp.resolve hsrc
  obtain ⟨-, rfl, hne⟩ := hp.resolveNew hdst
  have hsane := hp.sane.rename h
  rcases (Fs.rename_ok h).2 with ⟨-, rfl⟩ | ⟨h₁, h₂, -, rfl⟩
  · exact ⟨hp.of_tree rfl rfl, fun _ _ _ _ hl => hl⟩
  · have hne' : x.root ++ src.pushed ≠ x.root := by
      intro heq
      rw [heq] at h₁
      exact h₁ (prefix_append _ _)
    refine ⟨hp.moveEntry (prefix_append _ _) (prefix_append _ _) hne' hne h₁ h₂ hsane, ?_⟩
    intro l i _ hspared hl
    have hsd : src ≠ dst := by
      rintro rfl
      exact h₁ prefix_rfl
    have hout : ¬ (x.root ++ src.pushed <+: l ∨ x.root ++ dst.pushed <+: l) :=
      fun hor => hspared ⟨hsd, hfree, hor⟩
    rw [Fs.get_moveEntry _ h₁ h₂, if_neg fun hd => hout (.inr hd), if_neg fun hs => hout (.inl hs)]
    exact hl

theorem served_of_locks {locks : LockTable} (hok : c₀.locks.Ok → locks.Ok)
    (hholders : ∀ p, ∀ h ∈ locks.holders p, h ∈ c₀.locks.holders p ∨
      h.session = c₀.me.id ∧ ∃ f, c₀.me.handles.lookup h.fh = some f ∧ f.path = p) :
    Served x req c₀ { c₀ with locks := locks } :=
  ⟨fun h => h, fun _ _ _ _ _ h => h, rfl, le_rfl, fun _ _ _ h => .inl h, hok, hholders⟩

theorem served_attempt {fh : ℕ} (hfile : c₀.me.handles.lookup fh = some file)
    (kind : LockKind) (wait : Bool) : Served x req c₀ { c₀ with
      locks := (c₀.locks.attempt file.path c₀.me.id fh kind wait 0).2 } := by
  refine served_of_locks (fun hok => hok.attempt _ _ _) fun p h hh => ?_
  rcases LockTable.mem_holders_attempt hh with hold | ⟨rfl, rfl, -⟩
  · exact .inl hold
  · exact .inr ⟨rfl, file, hfile, rfl⟩

theorem served_release {fh : ℕ} {file : OpenFile} : Served x req c₀ { c₀ with
    me := { c₀.me with handles := c₀.me.handles.erase fh }
    locks := if c₀.me.attached then c₀.locks.unlock file.path c₀.me.id fh else c₀.locks } := by
  refine ⟨fun h => h, fun _ _ _ _ _ h => h, rfl, le_rfl,
    fun _ _ _ hf => .inl (lookup_of_erase hf).2, ?_, ?_⟩
  · intro hok
    split
    · exact hok.unlock
    · exact hok
  · intro p h hh
    split at hh
    · exact .inl (LockTable.mem_holders_unlock.mp hh).1
    · exact .inl hh

/-- The requests this module is about: those that make, use and end handles and locks, and that move
files. -/
def onFiles : Request → Bool
  | .attach _ | .auth _ | .openFile _ _ | .create _ _ _ | .rename _ _ _ | .lock _ _ _ | .unlock _
  | .release _ => true
  | _ => false

theorem Ran.served {r : Option Response} (hreq : onFiles req = true) (h : Ran x c₀ req r c) :
    Served x req c₀ c := by
  cases h with
  | looked | released => exact served_refl c₀
  | auth | attach =>
    exact ⟨fun h => h, fun _ _ _ _ _ h => h, rfl, le_rfl, fun _ _ _ h => .inl h, fun h => h,
      fun _ _ h => .inl h⟩
  | lock hfile => exact served_attempt hfile _ _
  | unlock hfile =>
    exact served_of_locks LockTable.Ok.unlock fun p h hh =>
      .inl (LockTable.mem_holders_unlock.mp hh).1
  | release hfile => exact served_release
  | @opened _ flags _ _ _ _ _ _ _ hres hopen =>
    have hplain := plain_openFile hres hopen
    cases flags.truncate <;> exact served_opened rfl rfl hplain
  | @created _ _ mode _ _ _ _ _ _ hnew hcall =>
    exact served_opened rfl rfl (plain_create mode hnew hcall)
  | renamed h =>
    cases h with
    | rename _ hsrc hdst hfree h =>
      exact served_of_fs rfl rfl (fun hp => (Ctx.renamed hp hsrc hdst hfree h).1)
        fun hp => (Ctx.renamed hp hsrc hdst hfree h).2
  | touched _ hother => rcases hother with ⟨_, _, _, rfl⟩ | ⟨_, rfl⟩ <;> cases hreq
  | changed _ _ hother => cases req <;> first | (cases hother; done) | cases hreq
  | written => cases hreq

theorem Failed.served (hreq : onFiles req = true) (h : Failed x c₀ req c) : Served x req c₀ c := by
  cases h with
  | still => exact served_refl c₀
  | lock hfile => exact served_attempt hfile _ _
  | openFile h =>
    cases h with
    | openFile _ hres hopen =>
      exact served_of_grows rfl rfl fun hp => (plain_openFile hres hopen hp).1
  | setattr | link => cases hreq

/-- **What these requests do.** -/
theorem served_handle (hreq : onFiles req = true) (c₀ : Ctx) :
    Served x req c₀ (final (handle x req c₀)) :=
  Triple.final (P := fun c => c = c₀) ((ran_handle x req c₀).conseq (fun _ h => h)
    (fun _ _ h => h.served hreq) fun _ h => h.served hreq) rfl

end Served

end Ctx

/-! ## The server, and lock calls that wait -/

/-- A lock call after its handle was looked up. -/
structure ParkedLock where
  path : RelPath
  session : ℕ
  fh : ℕ
  kind : LockKind
deriving DecidableEq

/-- The server, and the lock calls that wait. -/
structure FileLocks where
  server : Server
  waiting : List ParkedLock

inductive FileLockStep
  | server (l : ServerStep)
  /-- a lock call that waits runs its loop once more -/
  | retry (call : ParkedLock)

variable {next : Option SessionInner}

namespace FileLocks

variable (x : Export) {session fh : ℕ} {file : OpenFile} {me : SessionInner}

/-- What can happen: a request on handles, names or locks, or something that is not a request. -/
def concerned : ServerStep → Bool
  | .request _ req => Ctx.onFiles req
  | _ => true

/-- The lock call that is left waiting by a step. -/
def parked (s : Server) : ServerStep → List ParkedLock
  | .request session (.lock fh kind wait) =>
    match s.sessions session with
    | none => []
    | some me =>
      match Ctx.handle x (.lock fh kind wait) ⟨s.agent, me⟩, me.handles.lookup fh with
      | .ok none _, some file => [⟨file.path, me.id, fh, kind⟩]
      | _, _ => []
  | _ => []

/-- Another pass of the loop of `lock`. -/
def retry (s : FileLocks) (call : ParkedLock) : FileLocks :=
  let r := s.server.agent.locks.attempt call.path call.session call.fh call.kind true 0
  { server := { s.server with agent := { s.server.agent with locks := r.2 } }
    waiting := if r.1 = .granted then s.waiting.erase call else s.waiting }

def step (s : FileLocks) : FileLockStep → Option FileLocks
  | .server l =>
    if concerned l then
      (s.server.step x l).map fun server => ⟨server, s.waiting ++ parked x s.server l⟩
    else none
  | .retry call => if call ∈ s.waiting then some (s.retry call) else none

/-- An agent that has just started. -/
def boot (fs : Fs) : FileLocks := ⟨.boot fs none 0, []⟩

/-- The file that a session has open under this number. -/
def fileOf (s : FileLocks) (session fh : ℕ) : Option OpenFile :=
  (s.server.sessions session).bind fun me => me.handles.lookup fh

/-- The handle holds a lock. -/
def Holds (s : FileLocks) (session fh : ℕ) (kind : LockKind) : Prop :=
  ∃ path, (⟨session, fh, kind⟩ : Holder) ∈ s.server.agent.locks.holders path

/-- The handle can be in the way of one that was opened under this path: it holds a lock in the
entry of the path, or one of its calls waits there. -/
def InTheWay (s : FileLocks) (session fh : ℕ) (path : RelPath) : Prop :=
  (∃ h ∈ s.server.agent.locks.holders path, h.session = session ∧ h.fh = fh) ∨
    ∃ call ∈ s.waiting, call.path = path ∧ call.session = session ∧ call.fh = fh

/-- **Locks exclude on files, and only there.** -/
structure Separate (s : FileLocks) : Prop where
  excludes : ∀ session fh file session' fh' file' kind kind', (session, fh) ≠ (session', fh') →
    s.fileOf session fh = some file → s.fileOf session' fh' = some file' → file.ino = file'.ino →
    s.Holds session fh kind → s.Holds session' fh' kind' → kind = .shared ∧ kind' = .shared
  apart : ∀ session fh file session' fh' file', s.fileOf session fh = some file →
    s.fileOf session' fh' = some file' → s.InTheWay session fh file'.path → file.ino = file'.ino

/-- The paths under which handles are open. -/
def paths (s : FileLocks) : List RelPath :=
  (range s.server.nextSession).flatMap fun session =>
    match s.server.sessions session with
    | some me => me.handles.entries.map fun e => e.2.path
    | none => []

/-- **The condition.**  No rename displaces the path of an open handle. -/
def renameOk (s : FileLocks) : FileLockStep → Prop
  | .server (.request _ req) =>
    ∀ path ∈ s.paths, ¬ Ctx.Displaces x s.server.agent.fs req (x.root ++ path.pushed)
  | _ => True

instance (s : FileLocks) (l : FileLockStep) : Decidable (s.renameOk x l) := by
  unfold renameOk; split <;> infer_instance

/-- The number was given out, and if the handle is open, then under this path. -/
def Under (s : FileLocks) (session fh : ℕ) (path : RelPath) : Prop :=
  session < s.server.nextSession ∧ ∀ me, s.server.sessions session = some me →
    fh < me.nextFh ∧ ∀ file, me.handles.lookup fh = some file → file.path = path

/-- Every open handle's path names its file, and locks are under the paths of their handles. -/
structure Inv (s : FileLocks) : Prop where
  plain : s.server.agent.fs.Plain x.root
  locks : s.server.agent.locks.Ok
  ids : ∀ session me, s.server.sessions session = some me →
    me.id = session ∧ session < s.server.nextSession
  named : ∀ session me fh file, s.server.sessions session = some me →
    me.handles.lookup fh = some file →
      fh < me.nextFh ∧ s.server.agent.fs.get (x.root ++ file.path.pushed) = some (.file file.ino)
  holders : ∀ path, ∀ h ∈ s.server.agent.locks.holders path, s.Under h.session h.fh path
  waiting : ∀ call ∈ s.waiting, s.Under call.session call.fh call.path

variable {x} {s s' : FileLocks}

theorem fileOf_eq_some :
    s.fileOf session fh = some file ↔
      ∃ me, s.server.sessions session = some me ∧ me.handles.lookup fh = some file :=
  Option.bind_eq_some_iff

theorem Inv.get (hi : s.Inv x) (h : s.fileOf session fh = some file) :
    s.server.agent.fs.get (x.root ++ file.path.pushed) = some (.file file.ino) := by
  obtain ⟨me, hme, hfile⟩ := fileOf_eq_some.mp h
  exact (hi.named session me fh file hme hfile).2

theorem Under.path {path : RelPath}
    (h : s.Under session fh path) (hfile : s.fileOf session fh = some file) : file.path = path := by
  obtain ⟨me, hme, hfile⟩ := fileOf_eq_some.mp hfile
  exact (h.2 me hme).2 file hfile

theorem Inv.mem_paths (hi : s.Inv x)
    (h : s.fileOf session fh = some file) : file.path ∈ s.paths := by
  obtain ⟨me, hme, hfile⟩ := fileOf_eq_some.mp h
  refine mem_flatMap.mpr ⟨session, mem_range.mpr (hi.ids session me hme).2, ?_⟩
  rw [hme]
  exact mem_map.mpr ⟨⟨fh, file⟩, AList.mem_lookup_iff.mp hfile, rfl⟩

theorem Inv.path_eq (hi : s.Inv x) {session' fh' : ℕ} {file' : OpenFile}
    (h : s.fileOf session fh = some file) (h' : s.fileOf session' fh' = some file')
    (hino : file.ino = file'.ino) : file.path = file'.path := by
  have heq := hi.plain.oneName _ _ _ (prefix_append _ _) (prefix_append _ _) (hi.get h)
    (hino ▸ hi.get h')
  exact RelPath.pushed_injective (append_cancel_left heq)

theorem Inv.separate (hi : s.Inv x) : s.Separate where
  excludes := by
    rintro session fh file session' fh' file' kind kind' hne hfile hfile' hino ⟨p, hp⟩ ⟨p', hp'⟩
    have hpath := (hi.holders p _ hp).path hfile
    have hpath' := (hi.holders p' _ hp').path hfile'
    have heq : p = p' := by rw [← hpath, ← hpath', hi.path_eq hfile hfile' hino]
    subst heq
    rcases (hi.locks.holders p).1 with hshared | ⟨h, hone, -⟩
    · exact ⟨hshared _ hp, hshared _ hp'⟩
    · rw [hone, mem_singleton] at hp hp'
      have := congrArg Holder.handle (hp.trans hp'.symm)
      exact absurd this hne
  apart := by
    intro session fh file session' fh' file' hfile hfile' hway
    have hpath : file.path = file'.path := by
      rcases hway with ⟨h, hh, rfl, rfl⟩ | ⟨call, hcall, hp, rfl, rfl⟩
      · exact (hi.holders _ h hh).path hfile
      · exact ((hi.waiting call hcall).path hfile).trans hp
    have hget := hi.get hfile
    rw [hpath, hi.get hfile'] at hget
    simpa using hget.symm

/-- Sessions go on: handles may be added, under new numbers. -/
structure Onward (s s' : Server) : Prop where
  next : s.nextSession ≤ s'.nextSession
  sessions : ∀ session me', session < s.nextSession → s'.sessions session = some me' →
    ∃ me, s.sessions session = some me ∧ me.nextFh ≤ me'.nextFh ∧
      ∀ fh file, fh < me.nextFh → me'.handles.lookup fh = some file →
      me.handles.lookup fh = some file

theorem Under.mono {path : RelPath} (h : s.Under session fh path)
    (hon : Onward s.server s'.server) : s'.Under session fh path := by
  refine ⟨h.1.trans_le hon.next, fun me' hme' => ?_⟩
  obtain ⟨me, hme, hle, hfiles⟩ := hon.sessions session me' h.1 hme'
  obtain ⟨hlt, hpath⟩ := h.2 me hme
  exact ⟨hlt.trans_le hle, fun file hfile => hpath file (hfiles fh file hlt hfile)⟩

theorem onward_update {server : Server} {agent : Agent}
    (h : ∀ me' ∈ next, ∃ me, server.sessions session = some me ∧ me.nextFh ≤ me'.nextFh ∧
      ∀ fh file, fh < me.nextFh → me'.handles.lookup fh = some file →
        me.handles.lookup fh = some file) :
    Onward server { server with
      agent := agent, sessions := update server.sessions session next } := by
  refine ⟨le_rfl, fun session' me' _ hme' => ?_⟩
  by_cases heq : session' = session
  · subst heq
    simp only [update_self] at hme'
    exact h me' hme'
  · simp only [update_of_ne heq] at hme'
    exact ⟨me', hme', le_rfl, fun _ _ _ h => h⟩

/-- **A request is handled.** -/
theorem Inv.request (hi : s.Inv x) {req : Request} {c : Ctx}
    {more : List ParkedLock} (hme : s.server.sessions session = some me)
    (hserved : Ctx.Served x req ⟨s.server.agent, me⟩ c)
    (hok : ∀ path ∈ s.paths, ¬ Ctx.Displaces x s.server.agent.fs req (x.root ++ path.pushed))
    (hmore : ∀ call ∈ more, call.session = me.id ∧
      ∃ file, me.handles.lookup call.fh = some file ∧ file.path = call.path) :
    Inv x ⟨{ s.server with
      agent := c.toAgent, sessions := update s.server.sessions session (some c.me) },
      s.waiting ++ more⟩ := by
  obtain ⟨hid, hlt⟩ := hi.ids session me hme
  have hon : Onward s.server { s.server with
      agent := c.toAgent, sessions := update s.server.sessions session (some c.me) } := by
    refine onward_update ?_
    rintro _ ⟨⟩
    refine ⟨me, hme, hserved.nextFh, fun fh file hfh hfile => ?_⟩
    rcases hserved.handles hi.plain fh file hfile with hold | ⟨hge, -⟩
    · exact hold
    · exact absurd hfh (not_lt.mpr hge)
  -- a handle of this session keeps its number and its path
  have hunder : ∀ fh (file : OpenFile), me.handles.lookup fh = some file →
      s.Under session fh file.path := by
    intro fh file hfile
    refine ⟨hlt, fun me' hme' => ?_⟩
    rw [hme] at hme'
    cases hme'
    refine ⟨(hi.named session me fh file hme hfile).1, fun file' hfile' => ?_⟩
    rw [hfile] at hfile'
    cases hfile'
    rfl
  constructor
  · exact hserved.plain hi.plain
  · exact hserved.locks hi.locks
  · intro session' me' hme'
    by_cases heq : session' = session
    · subst heq
      simp only [update_self] at hme'
      cases hme'
      exact ⟨hserved.id.trans hid, hlt⟩
    · simp only [update_of_ne heq] at hme'
      exact hi.ids session' me' hme'
  · intro session' me' fh file hme' hfile
    have hkept : ∀ session fh file, s.fileOf session fh = some file →
        c.fs.get (x.root ++ file.path.pushed) = some (.file file.ino) := by
      intro session fh file hfile
      exact hserved.entries hi.plain _ _ (prefix_append _ _) (hok _ (hi.mem_paths hfile))
        (hi.get hfile)
    by_cases heq : session' = session
    · subst heq
      simp only [update_self] at hme'
      cases hme'
      rcases hserved.handles hi.plain fh file hfile with hold | ⟨-, hfh, hget⟩
      · have hfh := (hi.named session' me fh file hme hold).1
        exact ⟨hfh.trans_le hserved.nextFh,
          hkept session' fh file (fileOf_eq_some.mpr ⟨me, hme, hold⟩)⟩
      · exact ⟨hfh, hget⟩
    · simp only [update_of_ne heq] at hme'
      exact ⟨(hi.named session' me' fh file hme' hfile).1,
        hkept session' fh file (fileOf_eq_some.mpr ⟨me', hme', hfile⟩)⟩
  · intro path h hh
    rcases hserved.holders path h hh with hold | ⟨hsession, file, hfile, rfl⟩
    · exact (hi.holders path h hold).mono hon
    · rw [hsession, hid]
      exact (hunder h.fh file hfile).mono hon
  · intro call hcall
    rcases mem_append.mp hcall with hcall | hcall
    · exact (hi.waiting call hcall).mono hon
    · obtain ⟨hsession, file, hfile, hpath⟩ := hmore call hcall
      rw [hsession, hid, ← hpath]
      exact (hunder call.fh file hfile).mono hon

theorem Inv.idle (hi : s.Inv x) {server : Server} (hon : Onward s.server server)
    (htree : server.agent.fs.tree = s.server.agent.fs.tree)
    (hnext : server.agent.fs.nextIno = s.server.agent.fs.nextIno) (hlocks : server.agent.locks.Ok)
    (hids : ∀ session me, server.sessions session = some me →
      me.id = session ∧ session < server.nextSession)
    (hhandles : ∀ session me fh file, server.sessions session = some me →
      me.handles.lookup fh = some file → s.server.sessions session = some me)
    (hholders : ∀ path, ∀ h ∈ server.agent.locks.holders path,
      h ∈ s.server.agent.locks.holders path) : Inv x ⟨server, s.waiting⟩ where
  plain := hi.plain.of_tree htree hnext
  locks := hlocks
  ids := hids
  named session me fh file hme hfile := by
    rw [Fs.get_of_tree htree]
    exact hi.named session me fh file (hhandles session me fh file hme hfile) hfile
  holders path h hh := (hi.holders path h (hholders path h hh)).mono hon
  waiting call hcall := (hi.waiting call hcall).mono hon

theorem locks_forceRelease (h : s.server.agent.locks.Ok) (me : SessionInner) :
    (s.server.forceRelease me).locks.Ok ∧
      ∀ path, ∀ h ∈ (s.server.forceRelease me).locks.holders path,
        h ∈ s.server.agent.locks.holders path := by
  unfold Server.forceRelease
  split
  · exact ⟨h.releaseSession, fun _ _ hh => (LockTable.mem_holders_releaseSession.mp hh).1⟩
  · exact ⟨h, fun _ _ hh => hh⟩

theorem Inv.freed (hi : s.Inv x) (hme : s.server.sessions session = some me)
    (hnext : ∀ me' ∈ next, me' = { me with handles := ∅ }) :
    Inv x ⟨{ s.server with
      agent := s.server.forceRelease me
      sessions := update s.server.sessions session next }, s.waiting⟩ := by
  obtain ⟨hok, hholders⟩ := locks_forceRelease hi.locks me
  have hfs := Server.fs_forceRelease s.server me
  have hon : Onward s.server { s.server with
      agent := s.server.forceRelease me
      sessions := update s.server.sessions session next } := by
    refine onward_update fun me' hme' => ?_
    rw [hnext me' hme']
    exact ⟨me, hme, le_rfl, fun fh file _ hfile => by cases hfile⟩
  refine hi.idle hon (by simp only [hfs]) (by simp only [hfs]) hok ?_ ?_ hholders
  · intro session' me' hme'
    by_cases heq : session' = session
    · subst heq
      simp only [update_self] at hme'
      rw [hnext me' hme']
      exact hi.ids session' me hme
    · simp only [update_of_ne heq] at hme'
      exact hi.ids session' me' hme'
  · intro session' me' fh file hme' hfile
    by_cases heq : session' = session
    · subst heq
      simp only [update_self] at hme'
      rw [hnext me' hme'] at hfile
      cases hfile
    · simpa only [update_of_ne heq] using hme'

theorem Inv.connect (hi : s.Inv x) (token : Option Text) :
    Inv x ⟨{ s.server with
      sessions := update s.server.sessions s.server.nextSession
        (some (.withToken s.server.nextSession token))
      nextSession := s.server.nextSession + 1 }, s.waiting⟩ := by
  refine hi.idle ?_ rfl rfl hi.locks ?_ ?_ fun _ _ h => h
  · refine ⟨Nat.le_succ _, fun session me' hlt hme' => ?_⟩
    simp only [update_of_ne hlt.ne] at hme'
    exact ⟨me', hme', le_rfl, fun _ _ _ h => h⟩
  · intro session me hme
    by_cases heq : session = s.server.nextSession
    · subst heq
      simp only [update_self] at hme
      cases hme
      exact ⟨rfl, Nat.lt_succ_self _⟩
    · simp only [update_of_ne heq] at hme
      have := hi.ids session me hme
      exact ⟨this.1, Nat.lt_succ_of_lt this.2⟩
  · intro session me fh file hme hfile
    by_cases heq : session = s.server.nextSession
    · subst heq
      simp only [update_self] at hme
      cases hme
      cases hfile
    · simpa only [update_of_ne heq] using hme

theorem mem_parked {req : Request} {call : ParkedLock} (hme : s.server.sessions session = some me)
    (h : call ∈ parked x s.server (.request session req)) :
    call.session = me.id ∧ ∃ file, me.handles.lookup call.fh = some file ∧
    file.path = call.path := by
  cases req with
  | lock fh kind wait =>
    simp only [parked, hme] at h
    split at h
    · next file _ hfile =>
      rw [mem_singleton.mp h]
      exact ⟨rfl, file, hfile, rfl⟩
    · cases h
  | _ => cases h

theorem Inv.retry (hi : s.Inv x) {call : ParkedLock} (hcall : call ∈ s.waiting) :
    (s.retry call).Inv x := by
  have hunder := hi.waiting call hcall
  refine ⟨hi.plain, hi.locks.attempt _ _ _, hi.ids, hi.named, fun path h hh => ?_, fun c hc => ?_⟩
  · rcases LockTable.mem_holders_attempt hh with hold | ⟨rfl, rfl, -⟩
    · exact hi.holders path h hold
    · exact hunder
  · refine hi.waiting c ?_
    simp only [FileLocks.retry] at hc
    split at hc
    · exact mem_of_mem_erase hc
    · exact hc

/-- **What every step keeps**, when no rename displaces the path of an open handle. -/
theorem Inv.step (hi : s.Inv x) {l : FileLockStep} (hok : s.renameOk x l)
    (hs : s.step x l = some s') : s'.Inv x := by
  cases l with
  | retry call =>
    obtain ⟨hcall, rfl⟩ := of_guard hs
    exact hi.retry hcall
  | server l =>
    obtain ⟨hl, hs⟩ := Option.ite_none_right_eq_some.mp hs
    obtain ⟨server, hserver, rfl⟩ := Option.map_eq_some_iff.mp hs
    cases l with
    | connect token =>
      cases hserver
      simpa only [parked, append_nil] using hi.connect token
    | request session req =>
      rw [Server.step] at hserver
      split at hserver
      · cases hserver
      · next me hme =>
        cases hserver
        exact hi.request hme (Ctx.served_handle hl ⟨s.server.agent, me⟩) hok
          fun call hcall => mem_parked hme hcall
    | expire session =>
      rw [Server.step] at hserver
      split at hserver
      · cases hserver
      · next me hme =>
        cases hserver
        simpa only [parked, append_nil] using hi.freed hme (by rintro _ ⟨⟩; rfl)
    | disconnect session =>
      rw [Server.step] at hserver
      split at hserver
      · cases hserver
      · next me hme =>
        cases hserver
        simpa only [parked, append_nil] using hi.freed hme (by rintro _ ⟨⟩)
    | tick now clock =>
      cases hserver
      simp only [parked, append_nil]
      exact hi.idle ⟨le_rfl, fun _ me' _ h => ⟨me', h, le_rfl, fun _ _ _ h => h⟩⟩ rfl rfl hi.locks
        hi.ids (fun _ _ _ _ h _ => h) fun _ _ h => h

theorem inv_boot {fs : Fs} (h : fs.Plain x.root) : (boot fs).Inv x where
  plain := h
  locks := LockTable.ok_empty
  ids _ _ h := by cases h
  named _ _ _ _ h := by cases h
  holders _ h hh := by
    simp [boot, Server.boot, LockTable.empty, LockTable.holders, LockTable.entryOf] at hh
  waiting _ h := by cases h

/-- **Locks exclude on files, and only there**, in every run in which no rename displaces the path
of an open handle. -/
theorem separate_of_renameOk {fs : Fs} (hfs : fs.Plain x.root)
    (h : Reaches (step x) (renameOk x) (boot fs) s) : s.Separate :=
  (h.invariant (Inv x) (inv_boot hfs) fun _ _ _ hi hok hs => hi.step hok hs).separate

/-! ## Two handles of one file -/

/-- `/srv` with the files `a` and `c`. -/
def twoFiles : Fs :=
  (Agent.ofTree [([], .dir), ([['s', 'r', 'v']], .dir), ([['s', 'r', 'v'], ['a']], .file 0),
    ([['s', 'r', 'v'], ['c']], .file 1)] [[65], [67]]).fs

/-- A session connects and attaches. -/
def arrive (session : ℕ) : List FileLockStep :=
  [.server (.connect none), .server (.request session (.attach ['s', 'r', 'v']))]

/-- A session opens a file and asks for its lock. -/
def openAndLock (session : ℕ) (path : RelPath) (kind : LockKind) : List FileLockStep :=
  [.server (.request session (.openFile path {})), .server (.request session (.lock 1 kind true))]

/-- **The lock stays behind with the name.**  A file is locked and then renamed; under its new name
it is locked again. -/
theorem locked_twice :
    ∃ s, Reaches (step .srv) (fun _ _ => True) (boot twoFiles) s ∧
      (s.fileOf 1 1).map OpenFile.ino = some 0 ∧ (s.fileOf 2 1).map OpenFile.ino = some 0 ∧
      (⟨1, 1, .exclusive⟩ : Holder) ∈ s.server.agent.locks.holders ⟨['a']⟩ ∧
      (⟨2, 1, .exclusive⟩ : Holder) ∈ s.server.agent.locks.holders ⟨['b']⟩ ∧ ¬ s.Separate := by
  obtain ⟨s, hs, h₁, h₂, hheld₁, hheld₂⟩ : ∃ s, Reaches (step .srv) (fun _ _ => True)
      (boot twoFiles) s ∧ (s.fileOf 1 1).map OpenFile.ino = some 0 ∧
      (s.fileOf 2 1).map OpenFile.ino = some 0 ∧
      (⟨1, 1, .exclusive⟩ : Holder) ∈ s.server.agent.locks.holders ⟨['a']⟩ ∧
      (⟨2, 1, .exclusive⟩ : Holder) ∈ s.server.agent.locks.holders ⟨['b']⟩ :=
    exists_of_run (arrive 1 ++ arrive 2 ++ openAndLock 1 ⟨['a']⟩ .exclusive ++
      [.server (.request 2 (.rename ⟨['a']⟩ ⟨['b']⟩ false))] ++ openAndLock 2 ⟨['b']⟩ .exclusive)
      (allowed_true _ _ _) (fun _ h => h) (by decide +kernel)
  refine ⟨s, hs, h₁, h₂, hheld₁, hheld₂, fun hsep => ?_⟩
  obtain ⟨file₁, hfile₁, hino₁⟩ := Option.map_eq_some_iff.mp h₁
  obtain ⟨file₂, hfile₂, hino₂⟩ := Option.map_eq_some_iff.mp h₂
  have := hsep.excludes 1 1 file₁ 2 1 file₂ .exclusive .exclusive (by simp) hfile₁ hfile₂
    (hino₁.trans hino₂.symm) ⟨_, hheld₁⟩ ⟨_, hheld₂⟩
  cases this.1

theorem plain_twoFiles : twoFiles.Plain Export.srv.root := by
  have hmem : ∀ l n, twoFiles.get l = some n → (l, n) ∈ twoFiles.tree :=
    fun l n h => PathMap.mem_of_get h
  constructor
  · exact Fs.Sane.of_entries (by decide +kernel) (by decide +kernel) (by decide +kernel)
  · decide +kernel
  · decide +kernel
  · intro l _ t hl
    have := hmem l _ hl
    simp [twoFiles, Agent.ofTree] at this
  · intro l l' i _ _ hl hl'
    simp [twoFiles, Agent.ofTree] at *
    grind

/-- The lock of a file is passed on, while another file is renamed. -/
def passedOn : List FileLockStep :=
  arrive 1 ++ arrive 2 ++ openAndLock 1 ⟨['a']⟩ .exclusive ++ openAndLock 2 ⟨['a']⟩ .shared ++
    [.server (.request 1 (.rename ⟨['c']⟩ ⟨['d']⟩ false)), .server (.request 1 (.unlock 1)),
      .retry ⟨⟨['a']⟩, 2, 1, .shared⟩]

theorem separate_passedOn :
    ∃ s, Reaches (step .srv) (renameOk .srv) (boot twoFiles) s ∧
      (⟨2, 1, .shared⟩ : Holder) ∈ s.server.agent.locks.holders ⟨['a']⟩ ∧ s.Separate := by
  obtain ⟨s, hs, hheld⟩ : ∃ s, Reaches (step .srv) (renameOk .srv) (boot twoFiles) s ∧
      (⟨2, 1, .shared⟩ : Holder) ∈ s.server.agent.locks.holders ⟨['a']⟩ :=
    exists_of_run passedOn (by decide +kernel) (fun _ h => h) (by decide +kernel)
  exact ⟨s, hs, hheld, separate_of_renameOk plain_twoFiles hs⟩

end FileLocks

end AlloyFs
