import AlloyFs.Agent.Edits
import AlloyFs.Os.Lookups

/-!
# What a version says about a file

A client that sees a path with the version it knew takes it that the file has not changed, and
does not fetch it again.  The agent keeps the versions under the texts of the paths.  A request
moves the versions of the paths it was given, and those of no others, whatever else it changes:
renaming a directory moves everything below it away from its old paths and onto new ones.

`EntryStep` says which entries a request makes, removes or moves, and where.  A path whose
version stays leads to the file it led to before or to none, unless the request puts something
where the path looks, or changes the file behind it by another path.  `bookOk` is the condition
that no request does either to a path whose version is on record.
-/

namespace AlloyFs

/-! ## Entries -/

/-- Entries and inodes are the same ones. -/
def Fs.SameTree (fs fs' : Fs) : Prop := fs'.tree = fs.tree ∧ fs'.nextIno = fs.nextIno

theorem Fs.SameTree.refl (fs : Fs) : fs.SameTree fs := ⟨rfl, rfl⟩

theorem Fs.SameTree.trans {fs fs' fs'' : Fs} (h : fs.SameTree fs') (h' : fs'.SameTree fs'') :
    fs.SameTree fs'' :=
  ⟨h'.1.trans h.1, h'.2.trans h.2⟩

/-- **What a request does to the entries of the tree.** -/
inductive EntryStep (x : Export) (fs : Fs) : Request → Fs → Prop
  | same {req : Request} {fs' : Fs} (h : fs.SameTree fs') : EntryStep x fs req fs'
  | create {path : RelPath} {flags : OpenFlags} {mode : ℕ} {full l : Loc} {fs' : Fs}
      (hnew : x.resolveNew fs path = .ok full) (hleaf : fs.leaf true full = .vacant l)
      (htree : fs'.tree = fs.tree.put l (.file fs.nextIno)) (hnext : fs'.nextIno = fs.nextIno + 1) :
      EntryStep x fs (.create path flags mode) fs'
  | mkdir {path : RelPath} {mode : ℕ} {full : Loc} {fs' : Fs}
      (hnew : x.resolveNew fs path = .ok full) (hleaf : fs.leaf false full = .vacant full)
      (htree : fs'.tree = fs.tree.put full .dir) (hnext : fs'.nextIno = fs.nextIno) :
      EntryStep x fs (.mkdir path mode) fs'
  | link {target link : RelPath} {full l : Loc} {n : Node} {fs' : Fs}
      (hnew : x.resolveNew fs link = .ok full) (hleaf : fs.leaf false full = .vacant full)
      (hn : fs.get l = some n) (htree : fs'.tree = fs.tree.put full n)
      (hnext : fs'.nextIno = fs.nextIno) : EntryStep x fs (.link target link) fs'
  | symlink {target : Text} {link : RelPath} {full : Loc} {fs' : Fs}
      (hnew : x.resolveNew fs link = .ok full) (hleaf : fs.leaf false full = .vacant full)
      (htree : fs'.tree = fs.tree.put full (.symlink target)) (hnext : fs'.nextIno = fs.nextIno) :
      EntryStep x fs (.symlink target link) fs'
  | unlink {path : RelPath} {full : Loc} {fs' : Fs} (h : fs.removeFile full = .ok ((), fs')) :
      EntryStep x fs (.unlink path) fs'
  | rmdir {path : RelPath} {full : Loc} {fs' : Fs} (hres : x.resolve fs path = .ok full)
      (h : fs.removeDir full = .ok ((), fs')) : EntryStep x fs (.rmdir path) fs'
  | rename {src dst : RelPath} {replace : Bool} {ls ld : Loc} {fs' : Fs}
      (hdst : x.resolveNew fs dst = .ok ld) (h : fs.rename ls ld = .ok ((), fs')) :
      EntryStep x fs (.rename src dst replace) fs'

namespace Ctx

open Act

section Enters

variable {x : Export} {c d : Ctx} {fs fs' : Fs} {req : Request} {full l : Loc}

/-- From this file system the computation returns with the entries changed as the request says,
or fails and leaves them alone. -/
def Enters {α : Type} (x : Export) (fs : Fs) (req : Request) (m : Handler α) : Prop :=
  Triple (fun c => c.fs = fs) m (fun _ c => EntryStep x fs req c.fs) fun c => fs.SameTree c.fs

theorem sameTree_openFile {write trunc : Bool} {r : Loc × Node}
    (h : fs.openFile full write trunc = .ok (r, fs')) : fs.SameTree fs' := by
  obtain ⟨-, -, rfl⟩ := Fs.openFile_ok h
  cases r.2 with
  | file ino => cases trunc <;> exact ⟨rfl, rfl⟩
  | dir | symlink _ => exact ⟨rfl, rfl⟩

theorem Altered.sameTree {size : Option ℕ} (h : Altered full fs size fs') : fs.SameTree fs' := by
  induction h with
  | refl => exact .refl fs
  | opened _ hopen ih => exact ih.trans (sameTree_openFile hopen)
  | resized hopen => exact (sameTree_openFile hopen).trans ⟨rfl, rfl⟩
  | kept _ hopen _ ih => exact (ih.trans (sameTree_openFile hopen)).trans ⟨rfl, rfl⟩

theorem leaf_vacant_true (h : fs.leaf false full = .vacant l) : fs.leaf true full = .vacant l := by
  obtain ⟨rfl, hnone⟩ := Fs.leaf_vacant h
  rw [Fs.leaf, hnone] at h ⊢
  exact h

theorem leaf_of_hardLink {src dst : Loc} {u : Unit} (h : fs.hardLink src dst = .ok (u, fs')) :
    fs.leaf false dst = .vacant dst := by
  unfold Fs.hardLink at h
  split at h
  · split at h
    · cases h
    · split at h
      · next hmade => exact Fs.leaf_of_makeEntry hmade
      · cases h
    · cases h
  · cases h
  · cases h

theorem FsRan.entryStep (h : FsRan x c req fs) : EntryStep x c.fs req fs := by
  cases h with
  | openFile _ _ h => exact .same (sameTree_openFile h)
  | @create path flags mode full file fs' _ hnew hcall =>
    -- the file is new, or there was one
    cases hexcl : flags.excl with
    | true =>
      rw [hexcl, if_pos rfl] at hcall
      obtain ⟨-, rfl⟩ := Fs.createNew_ok hcall
      exact .create hnew (leaf_vacant_true (Fs.leaf_of_createNew hcall)) rfl rfl
    | false =>
      rw [hexcl, if_neg (by simp)] at hcall
      rcases Fs.openCreate_ok hcall with ⟨hleaf, rfl⟩ | ⟨-, -, rfl⟩
      · exact .create hnew hleaf rfl rfl
      · cases flags.truncate <;> exact .same ⟨rfl, rfl⟩
  | read | write | readLink => exact .same ⟨rfl, rfl⟩
  | setattr _ _ h => exact .same h.sameTree
  | mkdir _ hnew hcall =>
    have hleaf := Fs.leaf_of_makeEntry hcall
    obtain rfl := Fs.makeEntry_ok hcall
    exact .mkdir hnew hleaf rfl rfl
  | unlink _ _ h => exact .unlink h
  | rmdir _ hres h => exact .rmdir hres h
  | rename _ _ hdst _ h => exact .rename hdst h
  | link _ _ hdst hcall =>
    have hleaf := leaf_of_hardLink hcall
    obtain ⟨n, hn, rfl⟩ := Fs.hardLink_ok hcall
    exact .link hdst hleaf hn rfl rfl
  | symlink _ hnew _ hcall =>
    have hleaf := Fs.leaf_of_makeEntry hcall
    obtain rfl := Fs.makeEntry_ok hcall
    exact .symlink hnew hleaf rfl rfl

theorem Ran.entryStep {r : Option Response} (h : Ran x c req r d) : EntryStep x c.fs req d.fs := by
  cases h with
  | touched h | changed h | renamed h => exact h.entryStep
  | @opened _ flags _ _ _ _ _ _ hro hres hopen =>
    have hstep := (FsRan.openFile hro hres hopen).entryStep
    cases flags.truncate <;> exact hstep
  | @created path flags mode _ _ _ _ _ hro hnew hcall =>
    have h : FsRan x c (.create path flags mode) _ := .create hro hnew hcall
    exact h.entryStep
  | _ => exact .same (.refl _)

theorem Failed.sameTree (hroot : ∀ t, c.fs.get x.root ≠ some (.symlink t)) (h : Failed x c req d) :
    c.fs.SameTree d.fs := by
  cases h with
  | openFile h =>
    cases h with
    | openFile _ _ h => exact sameTree_openFile h
  | setattr h =>
    cases h with
    | setattr _ _ h => exact h.sameTree
  | link hro hsrc hdst hcall hmd =>
    -- a new name of what was resolved can be looked at
    obtain ⟨n, hn, hfs⟩ := Fs.hardLink_ok hcall
    obtain ⟨md, hok⟩ := metadata_of_put true (congrArg Fs.tree hfs) fun _ t ht =>
      not_link_of_resolve hroot hsrc t (ht ▸ hn)
    cases hok.symm.trans hmd
  | _ => exact .refl _

/-- **The entries after a request**: changed as the request says if it succeeded, and the same
if it failed. -/
theorem enters_handle (hroot : ∀ t, fs.get x.root ≠ some (.symlink t)) (req : Request) :
    Enters x fs req (handle x req) := by
  rintro c rfl
  exact (ran_handle x req c).conseq (fun _ h => h) (fun _ _ h => h.entryStep)
    (fun _ h => h.sameTree hroot) c rfl

end Enters
end Ctx

/-! ## What paths name -/

namespace Export

/-- The lookups that decide where a path of the export leads. -/
def looks (x : Export) (fs : Fs) (p : RelPath) : List (Loc × List Name) :=
  if p.isRoot then [(x.root, [])] else fs.looks MAXSYMLINKS [] (x.root ++ p.pushed)

/-- The regular file that a path names. -/
def names (x : Export) (fs : Fs) (p : RelPath) : Option ℕ :=
  match x.resolve fs p with
  | .ok full =>
    match fs.get full with
    | some (.file i) => some i
    | _ => none
  | .error _ => none

variable {x : Export} {fs fs' : Fs} {p : RelPath} {full : Loc} {i : ℕ}

theorem names_eq_some : x.names fs p = some i ↔
    ∃ full, x.resolve fs p = .ok full ∧ fs.get full = some (.file i) := by
  rw [names]
  constructor
  · intro h
    split at h
    · next full hres =>
      split at h
      · next j hget =>
        cases h
        exact ⟨full, hres, hget⟩
      · cases h
    · cases h
  · rintro ⟨full, hres, hget⟩
    simp only [hres, hget]

theorem resolve_of_canonicalize (h : x.resolve fs' p = .ok full)
    (hc : p.isRoot = false → fs.canonicalize (x.root ++ p.pushed) = .ok full) :
    x.resolve fs p = .ok full := by
  obtain ⟨hv, hends⟩ := resolve_ok h
  have hun : resolveUnchecked fs x.root p = resolveUnchecked fs' x.root p := by
    rcases hends with ⟨hr, -⟩ | ⟨hr, hc', -⟩
    · simp [resolveUnchecked, hr]
    · simp [resolveUnchecked, hr, hc', hc hr]
  rw [resolve] at h ⊢
  rwa [hun]

/-- **A path that names a file named it before**, if what it looks up was there before, has gone
away, or is blind. -/
theorem names_of_looks (hs : fs.Sane)
    (hlook : ∀ s ∈ x.looks fs p, fs'.get s.1 = fs.get s.1 ∨ fs'.get s.1 = none ∨ fs'.Blind s.1 s.2)
    (h : x.names fs' p = some i) : x.names fs p = some i := by
  obtain ⟨full, hres, hget⟩ := names_eq_some.mp h
  rw [names_eq_some]
  rcases (resolve_ok hres).2 with ⟨hr, rfl⟩ | ⟨hr, hcanon, -⟩
  · refine ⟨x.root, resolve_of_canonicalize hres fun hr' => ?_, ?_⟩
    · rw [hr] at hr'
      cases hr'
    · rw [looks, if_pos hr] at hlook
      rcases hlook _ (List.mem_singleton_self _) with heq | hnone | ⟨_, hne⟩ | ⟨hdir, _⟩
      · rw [← heq, hget]
      · rw [hget] at hnone
        cases hnone
      · exact absurd rfl hne
      · rw [hget] at hdir
        cases hdir
  · rw [looks, if_neg (by simp [hr])] at hlook
    obtain ⟨hwalk, hfile⟩ := Fs.found_of_looks hs hlook hs.top (Fs.walk_of_canonicalize hcanon) hget
    refine ⟨full, resolve_of_canonicalize hres fun _ => ?_, hfile⟩
    rw [Fs.canonicalize, hwalk]

/-- A request puts nothing where a path whose version it leaves alone looks, except what hides
no file from it. -/
def spares (x : Export) (fs : Fs) (p : RelPath) : Request → Prop
  | .create path _ _ => ∀ full ∈ (x.resolveNew fs path).toOption, ∀ s ∈ x.looks fs p,
      fs.leaf true full = .vacant s.1 → s.2 ≠ []
  | .mkdir path _ => ∀ full ∈ (x.resolveNew fs path).toOption, ∀ s ∈ x.looks fs p,
      s.1 = full → ['.', '.'] ∉ s.2
  | .link _ path | .symlink _ path => ∀ full ∈ (x.resolveNew fs path).toOption,
      ∀ s ∈ x.looks fs p, s.1 ≠ full
  | .rename _ path _ => ∀ full ∈ (x.resolveNew fs path).toOption,
      ∀ s ∈ x.looks fs p, ¬full <+: s.1
  | _ => True

instance decidableSpares (x : Export) (fs : Fs) (p : RelPath) :
    ∀ req, Decidable (x.spares fs p req)
  | .create .. => inferInstanceAs (Decidable (∀ _ ∈ _, ∀ _ ∈ _, _ → _))
  | .mkdir .. => inferInstanceAs (Decidable (∀ _ ∈ _, ∀ _ ∈ _, _ → _))
  | .link .. => inferInstanceAs (Decidable (∀ _ ∈ _, ∀ _ ∈ _, _))
  | .symlink .. => inferInstanceAs (Decidable (∀ _ ∈ _, ∀ _ ∈ _, _))
  | .rename .. => inferInstanceAs (Decidable (∀ _ ∈ _, ∀ _ ∈ _, _))
  | .auth .. | .attach .. | .getattr .. | .readdir .. | .openFile .. | .read .. | .write ..
  | .release .. | .setattr .. | .unlink .. | .rmdir .. | .readLink .. | .lock .. | .unlock ..
  | .flush .. | .statfs | .mountDefaults | .subscribe .. => inferInstanceAs (Decidable True)

/-- The root of the file system itself is not removed. -/
def keepsTop (x : Export) (fs : Fs) : Request → Prop
  | .rmdir path => (x.resolve fs path).toOption ≠ some []
  | _ => True

instance decidableKeepsTop (x : Export) (fs : Fs) :
    ∀ req, Decidable (x.keepsTop fs req) := fun req => by
  unfold keepsTop
  split <;> infer_instance

end Export

namespace EntryStep

variable {x : Export} {fs fs' : Fs} {req : Request} {p : RelPath} {i : ℕ}

/-- **A request that spares a path leaves it with the file it named, or with none.** -/
theorem names_of_spares (h : EntryStep x fs req fs') (hs : fs.Sane) (hp : x.spares fs p req)
    (hi : x.names fs' p = some i) : x.names fs p = some i := by
  refine Export.names_of_looks hs (fun s hlook => ?_) hi
  -- an entry appears at one vacant place
  have hput : ∀ {l : Loc} {n : Node}, fs'.tree = fs.tree.put l n →
      (s.1 = l → fs'.get s.1 = some n → fs'.Blind s.1 s.2) →
      fs'.get s.1 = fs.get s.1 ∨ fs'.get s.1 = none ∨ fs'.Blind s.1 s.2 := by
    intro l n htree hblind
    by_cases heq : s.1 = l
    · refine .inr (.inr (hblind heq ?_))
      rw [Fs.get, htree, heq, PathMap.get_put_self]
    · refine .inl ?_
      rw [Fs.get, htree, PathMap.get_put_of_ne _ _ heq]
      rfl
  cases h with
  | same hsame => exact .inl (Fs.get_of_tree hsame.1 _)
  | create hnew hleaf htree _ =>
    refine hput htree fun heq hget => .inl ⟨⟨_, hget⟩, ?_⟩
    exact hp _ (by rw [hnew]; rfl) s hlook (by rw [heq]; exact hleaf)
  | mkdir hnew hleaf htree _ =>
    refine hput htree fun heq hget => Fs.blind_of_empty hget (fun c => ?_) ?_
    · -- nothing lies below a place that was vacant
      have hvac := (Fs.leaf_vacant hleaf).2
      rw [heq, Fs.get, htree, PathMap.get_put_of_ne _ _ (by simp)]
      exact hs.get_below (by simp [hvac]) (List.prefix_append _ _) (by simp)
    · exact hp _ (by rw [hnew]; rfl) s hlook heq
  | link hnew _ _ htree _ =>
    exact hput htree fun heq _ => absurd heq (hp _ (by rw [hnew]; rfl) s hlook)
  | symlink hnew _ htree _ =>
    exact hput htree fun heq _ => absurd heq (hp _ (by rw [hnew]; rfl) s hlook)
  | unlink h =>
    obtain ⟨-, rfl⟩ := Fs.removeFile_ok h
    rw [Fs.get_removeEntry]
    split
    · exact .inr (.inl rfl)
    · exact .inl rfl
  | rmdir _ h =>
    obtain ⟨-, rfl⟩ := Fs.removeDir_ok h
    rw [Fs.get_removeEntry]
    split
    · exact .inr (.inl rfl)
    · exact .inl rfl
  | rename hdst h =>
    obtain ⟨-, ⟨-, rfl⟩ | ⟨h₁, h₂, -, rfl⟩⟩ := Fs.rename_ok h
    · exact .inl rfl
    · rw [Fs.get_moveEntry fs h₁ h₂, if_neg (hp _ (by rw [hdst]; rfl) s hlook)]
      split
      · exact .inr (.inl rfl)
      · exact .inl rfl

/-- A request keeps the file system sane, unless it removes the very root of it. -/
theorem sane (h : EntryStep x fs req fs') (hs : fs.Sane) (htop : x.keepsTop fs req) : fs'.Sane := by
  cases h with
  | same hsame => exact hs.of_tree hsame.1 hsame.2
  | create _ hleaf htree hnext =>
    obtain ⟨d, c, rfl, hd, hvac⟩ := Fs.parent_of_leaf_vacant hs hleaf
    refine hs.put hd hvac (Nat.le_succ _) (fun i hi => ?_) htree hnext
    cases hi
    exact Nat.lt_succ_self _
  | mkdir _ hleaf htree hnext =>
    obtain ⟨d, c, rfl, hd, hvac⟩ := Fs.parent_of_leaf_vacant hs hleaf
    exact hs.put hd hvac le_rfl (by nofun) htree hnext
  | link _ hleaf hn htree hnext =>
    obtain ⟨d, c, rfl, hd, hvac⟩ := Fs.parent_of_leaf_vacant hs hleaf
    refine hs.put hd hvac le_rfl (fun i hi => ?_) htree hnext
    exact hs.inos _ i (hi ▸ hn)
  | symlink _ hleaf htree hnext =>
    obtain ⟨d, c, rfl, hd, hvac⟩ := Fs.parent_of_leaf_vacant hs hleaf
    exact hs.put hd hvac le_rfl (by nofun) htree hnext
  | unlink h => exact hs.removeFile h
  | rmdir hres h =>
    refine hs.removeDir (fun heq => htop ?_) h
    rw [hres, heq]
    rfl
  | rename _ h => exact hs.rename h

end EntryStep

/-! ## Requests -/

namespace Ctx

open Act

variable {x : Export} {c : Ctx} {req : Request} {p : RelPath}

/-- **What a request changes comes with a new version**: it puts nothing where a path looks
whose version stays, and changes the content of no file that such a path names. -/
def BookOk (x : Export) (c : Ctx) (req : Request) : Prop :=
  x.keepsTop c.fs req ∧
  ∀ p ∈ c.versions.keys, p ∉ (req.mark c.me.handles).paths → x.spares c.fs p req ∧
    ∀ e ∈ edit x c req, e.content ≠ c.fs.content e.ino → x.names c.fs p ≠ some e.ino
deriving Decidable

theorem mem_keys_of_versionOf {b : Books} (h : b.versionOf p ≠ 0) : p ∈ b.versions.keys := by
  rw [← AList.mem_keys, ← AList.lookup_isSome]
  cases hl : b.versions.lookup p with
  | none =>
    rw [Books.versionOf, hl] at h
    exact absurd rfl h
  | some v => rfl

/-- A path that has kept its version through a request names what it named, with the same
content, or nothing. -/
theorem names_of_bookOk (hs : c.fs.Sane) (hroot : ∀ t, c.fs.get x.root ≠ some (.symlink t))
    (hok : BookOk x c req) {v : ℕ} (hv : v ≠ 0) (hle : v ≤ c.books.vclock)
    (hver : (final (handle x req c)).books.versionOf p = v) :
    c.books.versionOf p = v ∧ ∀ i, x.names (final (handle x req c)).fs p = some i →
      x.names c.fs p = some i ∧ (final (handle x req c)).fs.content i = c.fs.content i := by
  have hbooks := (handle_books x req : Marks c.books c.me.handles (handle x req) _) c rfl
  have henters := enters_handle hroot req c rfl
  have hout := outcome_handle x req c c rfl
  cases hrun : handle x req c with
  | ok r c' =>
    rw [hrun] at hbooks henters hout hver
    replace hver : c'.books.versionOf p = v := hver
    rw [show c'.books = _ from hbooks] at hver
    have hunmarked : p ∉ (req.mark c.me.handles).paths := fun hmem =>
      Mark.versionOf_apply_ne hmem hv hle hver
    rw [Mark.versionOf_apply_of_notMem hunmarked] at hver
    obtain ⟨hspares, hedit⟩ := hok.2 p (mem_keys_of_versionOf (hver ▸ hv)) hunmarked
    refine ⟨hver, fun i hi => ?_⟩
    have hnames : x.names c.fs p = some i :=
      (show EntryStep x c.fs req c'.fs from henters).names_of_spares hs hspares hi
    refine ⟨hnames, Classical.byContradiction fun hne => ?_⟩
    obtain ⟨full, -, hget⟩ := Export.names_eq_some.mp hnames
    obtain ⟨key, he⟩ := hout.content i (hs.inos _ _ hget) hne
    exact hedit _ he hne hnames
  | error e c' =>
    rw [hrun] at hbooks henters hout hver
    replace hver : c'.books.versionOf p = v := hver
    rw [show c'.books = _ from hbooks] at hver
    refine ⟨hver, fun i hi => ?_⟩
    have hsame : EntryStep x c.fs (.flush 0) c'.fs := .same henters
    have hnames : x.names c.fs p = some i := hsame.names_of_spares hs trivial hi
    refine ⟨hnames, Classical.byContradiction fun hne => ?_⟩
    obtain ⟨full, -, hget⟩ := Export.names_eq_some.mp hnames
    obtain ⟨key, he⟩ := hout.content i (hs.inos _ _ hget) hne
    -- a change of data is never an error
    obtain ⟨-, r, c'', hrun', -⟩ := handle_of_edit he
    rw [hrun] at hrun'
    cases hrun'

theorem sane_handle (hs : c.fs.Sane) (hroot : ∀ t, c.fs.get x.root ≠ some (.symlink t))
    (hok : BookOk x c req) : (final (handle x req c)).fs.Sane := by
  have henters := enters_handle hroot req c rfl
  cases hrun : handle x req c with
  | ok r c' =>
    rw [hrun] at henters
    exact EntryStep.sane henters hs hok.1
  | error e c' =>
    rw [hrun] at henters
    exact hs.of_tree henters.1 henters.2

end Ctx

/-! ## Runs -/

namespace Server

variable {x : Export} {s s' : Server} {l : ServerStep} {p : RelPath}

/-- The condition on a step, in the state before it. -/
def bookOk (x : Export) (s : Server) : ServerStep → Prop
  | .request session req => ∀ me ∈ s.sessions session, Ctx.BookOk x ⟨s.agent, me⟩ req
  | _ => True

instance decidableBookOk (x : Export) (s : Server) : ∀ l, Decidable (s.bookOk x l)
  | .request _ _ => inferInstanceAs (Decidable (∀ _ ∈ _, Ctx.BookOk _ _ _))
  | .connect _ | .expire _ | .disconnect _ | .tick _ _ => inferInstanceAs (Decidable True)

/-- What every state of such a run has. -/
structure Booked (x : Export) (s : Server) : Prop where
  sane : s.agent.fs.Sane
  root : ∀ t, s.agent.fs.get x.root ≠ some (.symlink t)
  bounded : ∀ q, s.agent.books.versionOf q ≤ s.agent.books.vclock

theorem booked_boot {fs : Fs} (hs : fs.Sane) (hroot : ∀ t, fs.get x.root ≠ some (.symlink t))
    (space : Option (ℕ × ℕ × ℕ)) (clock : ℕ) : (boot fs space clock).Booked x := by
  refine ⟨hs, hroot, fun q => ?_⟩
  exact Nat.zero_le _

/-- A step handles a request, or changes neither entries nor content nor versions. -/
theorem step_cases (h : s.step x l = some s') :
    (∃ session req me, l = .request session req ∧ s.sessions session = some me ∧
      s'.agent = (Act.final (Ctx.handle x req ⟨s.agent, me⟩)).toAgent) ∨
    s'.agent.books = s.agent.books ∧ s.agent.fs.SameTree s'.agent.fs ∧
      s'.agent.fs.inodes = s.agent.fs.inodes := by
  cases l with
  | connect token =>
    cases h
    exact .inr ⟨rfl, ⟨rfl, rfl⟩, rfl⟩
  | tick now clock =>
    cases h
    exact .inr ⟨rfl, ⟨rfl, rfl⟩, rfl⟩
  | request session req =>
    rw [step] at h
    split at h
    · cases h
    · next me hme =>
      cases h
      exact .inl ⟨session, req, me, rfl, hme, rfl⟩
  | expire session =>
    rw [step] at h
    split at h
    · cases h
    · cases h
      refine .inr ?_
      rw [forceRelease]
      split <;> exact ⟨rfl, ⟨rfl, rfl⟩, rfl⟩
  | disconnect session =>
    rw [step] at h
    split at h
    · cases h
    · cases h
      refine .inr ?_
      rw [forceRelease]
      split <;> exact ⟨rfl, ⟨rfl, rfl⟩, rfl⟩

theorem Booked.step (hb : s.Booked x) (hok : s.bookOk x l) (h : s.step x l = some s') :
    s'.Booked x := by
  rcases step_cases h with ⟨session, req, me, rfl, hme, hagent⟩ | ⟨hbooks, hsame, -⟩
  · have hok' : Ctx.BookOk x ⟨s.agent, me⟩ req := hok me hme
    constructor
    · rw [hagent]
      exact Ctx.sane_handle hb.sane hb.root hok'
    · rw [hagent]
      have heff := Act.Triple.final (Ctx.handle_effect hb.root req) (s := ⟨s.agent, me⟩) ⟨rfl, rfl⟩
      exact root_of_treeStep heff.tree hb.root
    · rw [hagent]
      exact (Ctx.advance_handle x req ⟨s.agent, me⟩).bounded hb.bounded
  · constructor
    · exact hb.sane.of_tree hsame.1 hsame.2
    · intro t
      rw [Fs.get_of_tree hsame.1]
      exact hb.root t
    · rw [hbooks]
      exact hb.bounded

/-- One step: a path that has kept its version names what it named, with the same content, or
nothing. -/
theorem names_step (hb : s.Booked x) (hok : s.bookOk x l) (h : s.step x l = some s') {v : ℕ}
    (hv : v ≠ 0) (hle : v ≤ s.agent.books.vclock) (hver : s'.agent.books.versionOf p = v) :
    s.agent.books.versionOf p = v ∧ ∀ i, x.names s'.agent.fs p = some i →
      x.names s.agent.fs p = some i ∧ s'.agent.fs.content i = s.agent.fs.content i := by
  rcases step_cases h with ⟨session, req, me, rfl, hme, hagent⟩ | ⟨hbooks, hsame, hinodes⟩
  · rw [hagent] at hver ⊢
    exact Ctx.names_of_bookOk (c := ⟨s.agent, me⟩) hb.sane hb.root (hok me hme) hv hle hver
  · refine ⟨hbooks ▸ hver, fun i hi => ⟨?_, by rw [Fs.content, Fs.content, hinodes]⟩⟩
    have hidle : EntryStep x s.agent.fs (.flush 0) s'.agent.fs := .same hsame
    exact hidle.names_of_spares hb.sane trivial hi

/-- **Equal versions mean equal content** in every run whose requests put nothing where a path
with a version on record looks, and change no file that such a path names, without moving that
version: if a path has one non-zero version at two moments of such a run and names a regular
file at both, the content is the same. -/
theorem content_of_version {fs : Fs} (hs : fs.Sane) (hroot : ∀ t, fs.get x.root ≠ some (.symlink t))
    {space : Option (ℕ × ℕ × ℕ)} {clock : ℕ}
    (h : Reaches (step x) (bookOk x) (boot fs space clock) s)
    (h' : Reaches (step x) (bookOk x) s s') {i i' : ℕ} (hv : s.agent.books.versionOf p ≠ 0)
    (heq : s'.agent.books.versionOf p = s.agent.books.versionOf p)
    (hi : x.names s.agent.fs p = some i) (hi' : x.names s'.agent.fs p = some i') :
    s'.agent.fs.content i' = s.agent.fs.content i := by
  have hb : s.Booked x := h.invariant (Booked x) (booked_boot hs hroot space clock)
    fun _ _ _ hb hok hs => hb.step hok hs
  -- along the run, while the version lasts the path names this file or none
  have hinv := h'.invariant (fun t => t.Booked x ∧
    s.agent.books.vclock ≤ t.agent.books.vclock ∧
    (t.agent.books.versionOf p = s.agent.books.versionOf p → ∀ j, x.names t.agent.fs p = some j →
      j = i ∧ t.agent.fs.content j = s.agent.fs.content i)) ?_ ?_
  · exact (hinv.2.2 heq i' hi').2
  · refine ⟨hb, le_rfl, fun _ j hj => ?_⟩
    rw [hi] at hj
    cases hj
    exact ⟨rfl, rfl⟩
  · rintro t l t' ⟨hbt, hclock, hkeep⟩ hok hstep
    refine ⟨hbt.step hok hstep, hclock.trans ?_, fun hver j hj => ?_⟩
    · rcases step_cases hstep with ⟨session, req, me, rfl, -, hagent⟩ | ⟨hbooks, -⟩
      · rw [hagent]
        exact (Ctx.advance_handle x req ⟨t.agent, me⟩).clock
      · rw [hbooks]
    · have hle : s.agent.books.versionOf p ≤ t.agent.books.vclock := (hb.bounded p).trans hclock
      obtain ⟨hold, hnames⟩ := names_step hbt hok hstep hv hle hver
      obtain ⟨hj', hcontent⟩ := hnames j hj
      obtain ⟨rfl, hsame⟩ := hkeep hold j hj'
      exact ⟨rfl, hcontent.trans hsame⟩

/-- A client makes the directory `d` with a file `x` in it. -/
def fileInDir : List ServerStep :=
  [.connect none, .request 1 (.attach "srv".toList), .request 1 (.mkdir ⟨"d".toList⟩ 0o755),
    .request 1 (.create ⟨"d/x".toList⟩ { write := true } 0o644), .request 1 (.write 1 0 [65] none)]

/-- It makes the directory `e` with a file `x` in it and renames it to `dst`. -/
def dirRenamed (dst : String) : List ServerStep :=
  [.request 1 (.mkdir ⟨"e".toList⟩ 0o755),
    .request 1 (.create ⟨"e/x".toList⟩ { write := true } 0o644), .request 1 (.write 2 0 [66] none),
    .request 1 (.rename ⟨"e".toList⟩ ⟨dst.toList⟩ true)]

theorem sane_emptyFs : Writers.emptyFs.Sane := .of_entries (by decide) (by decide) (by decide)

/-- The server after `fileInDir`. -/
def withFile : Server :=
  (exec (step .srv) (boot Writers.emptyFs none 0) fileInDir).getD (boot Writers.emptyFs none 0)

/-- Where nothing is on record a directory may be renamed to, and `d/x` keeps its version and
its content. -/
theorem content_of_version_fresh :
    ∃ s, exec (step .srv) withFile (dirRenamed "f") = some s ∧
      withFile.agent.books.versionOf ⟨"d/x".toList⟩ = 3 ∧
      s.agent.books.versionOf ⟨"d/x".toList⟩ = 3 ∧
      Export.srv.names s.agent.fs ⟨"d/x".toList⟩ = some 0 ∧
      s.agent.fs.content 0 = withFile.agent.fs.content 0 := by
  obtain ⟨s, hs⟩ : ∃ s, exec (step .srv) withFile (dirRenamed "f") = some s := ⟨_, rfl⟩
  have hr : Reaches (step .srv) (bookOk .srv) (boot Writers.emptyFs none 0) withFile :=
    reaches_of_exec .refl fileInDir (by decide +kernel) rfl
  have hr' : Reaches (step .srv) (bookOk .srv) withFile s :=
    reaches_of_exec .refl (dirRenamed "f") (by decide +kernel) hs
  have hv : withFile.agent.books.versionOf ⟨"d/x".toList⟩ = 3 := by decide +kernel
  have hv' : s.agent.books.versionOf ⟨"d/x".toList⟩ = 3 := by
    cases hs
    decide +kernel
  have hi : Export.srv.names s.agent.fs ⟨"d/x".toList⟩ = some 0 := by
    cases hs
    decide +kernel
  have hroot : ∀ t, Writers.emptyFs.get Export.srv.root ≠ some (.symlink t) := by
    intro t h
    cases h
  exact ⟨s, hs, hv, hv', hi, content_of_version sane_emptyFs hroot hr hr' (by rw [hv]; decide)
    (hv'.trans hv.symm) (by decide +kernel) hi⟩

/-- **Where a version is on record it may not**: `d` is renamed away and `e` takes its place, and
`d/x` has the version it had, with the content of another file. -/
theorem version_inherited :
    ∃ s, Reaches (step .srv) (fun _ _ => True) (boot Writers.emptyFs none 0) withFile ∧
      Reaches (step .srv) (fun _ _ => True) withFile s ∧
      withFile.agent.books.versionOf ⟨"d/x".toList⟩ = 3 ∧
      s.agent.books.versionOf ⟨"d/x".toList⟩ = 3 ∧
      Export.srv.names withFile.agent.fs ⟨"d/x".toList⟩ = some 0 ∧
      Export.srv.names s.agent.fs ⟨"d/x".toList⟩ = some 1 ∧
      withFile.agent.fs.content 0 = [65] ∧ s.agent.fs.content 1 = [66] := by
  obtain ⟨s, hs⟩ : ∃ s, exec (step .srv) withFile
      (.request 1 (.rename ⟨"d".toList⟩ ⟨"g".toList⟩ true) :: dirRenamed "d") = some s := ⟨_, rfl⟩
  refine ⟨s, reaches_of_exec .refl fileInDir (allowed_true _ _ _) rfl,
    reaches_of_exec .refl _ (allowed_true _ _ _) hs, ?_⟩
  cases hs
  decide +kernel

end Server
end AlloyFs
