import AlloyFs.Agent.WriteRace

/-!
# Which files a request changes, and under which version

A version belongs to the text of a path, the data to a file.  One file can be reached by
several texts: a second name, a link, a name it had before it was renamed and under which a
handle still knows it.  A change moves the version of the text it came by, and of no other.

`Ctx.edit` is the change of data a request will make in a given state, with the path whose
version it moves.  What `Ctx.handle` does to files that exist is exactly that
(`Ctx.content_handle`, `Ctx.handle_of_edit`).
-/

namespace AlloyFs

open Function

/-! ## Changes of data -/

/-- The request is answered with a handle. -/
def Request.opens : Request → Bool
  | .openFile _ _ | .create _ _ _ => true
  | _ => false

/-- New content for a file, and the path whose version moves. -/
structure Edit where
  key : RelPath
  ino : ℕ
  content : Bytes
deriving DecidableEq

namespace Fs

/-- The file that opening a path leads to. -/
def opensFile (fs : Fs) (full : Loc) : Option ℕ :=
  match fs.leaf true full with
  | .found l =>
    match fs.get l with
    | some (.file ino) => some ino
    | _ => none
  | _ => none

/-- Every file has its inode. -/
def HasInodes (fs : Fs) : Prop := ∀ l i, fs.get l = some (.file i) → i < fs.nextIno

/-- The content of an inode. -/
def content (fs : Fs) (ino : ℕ) : Bytes := (fs.inodes ino).content

variable {full : Loc} {ino : ℕ}

theorem opensFile_eq_some {fs : Fs} :
    fs.opensFile full = some ino ↔ ∃ l, fs.leaf true full = .found l ∧
    fs.get l = some (.file ino) := by
  rw [opensFile]
  constructor
  · intro h
    split at h
    · next l hl =>
      split at h
      · next i hget =>
        cases h
        exact ⟨l, hl, hget⟩
      · cases h
    · cases h
  · rintro ⟨l, hl, hget⟩
    simp only [hl, hget]

/-- What a call does that writes no data to a file that exists. -/
structure Kept (fs fs' : Fs) : Prop where
  next : fs.nextIno ≤ fs'.nextIno
  content : ∀ i, i < fs.nextIno → fs'.content i = fs.content i
  inodes : fs.HasInodes → fs'.HasInodes

variable {fs fs' fs'' : Fs}

theorem Kept.refl (fs : Fs) : Kept fs fs := ⟨le_rfl, fun _ _ => rfl, fun h => h⟩

theorem Kept.trans (h : Kept fs fs') (h' : Kept fs' fs'') : Kept fs fs'' where
  next := h.next.trans h'.next
  content := fun i hi => (h'.content i (lt_of_lt_of_le hi h.next)).trans (h.content i hi)
  inodes := fun hi => h'.inodes (h.inodes hi)

theorem Kept.of_get (hi : fs'.inodes = fs.inodes) (hn : fs'.nextIno = fs.nextIno)
    (hget : ∀ l i, fs'.get l = some (.file i) → ∃ l', fs.get l' = some (.file i)) :
    Kept fs fs' where
  next := hn.ge
  content := fun i _ => by rw [Fs.content, Fs.content, hi]
  inodes := fun h l i hl => by
    obtain ⟨l', hl'⟩ := hget l i hl
    rw [hn]
    exact h l' i hl'

theorem kept_touch (fs : Fs) (ls : List Loc) : Kept fs (fs.touch ls) :=
  .of_get rfl rfl fun l _ h => ⟨l, h⟩

theorem kept_modify (fs : Fs) (ino : ℕ) (f : Inode → Inode) (hf : ∀ i, (f i).content = i.content) :
    Kept fs (fs.modify ino f) where
  next := le_rfl
  content := fun i _ => by
    by_cases h : i = ino
    · rw [h, Fs.content, modify]
      dsimp only
      rw [update_self, hf]
      rfl
    · rw [Fs.content, modify]
      dsimp only
      rw [update_of_ne h]
      rfl
  inodes := fun h => h

theorem kept_put {l : Loc} {n : Node} (hn : ∀ i, n = .file i → ∃ l', fs.get l' = some (.file i)) :
    Kept fs { fs with tree := PathMap.put fs.tree l n } := by
  refine .of_get rfl rfl fun l' i h => ?_
  by_cases hl : l' = l
  · rw [hl, Fs.get, PathMap.get_put_self] at h
    exact hn i (Option.some.inj h)
  · rw [Fs.get, PathMap.get_put_of_ne _ _ hl] at h
    exact ⟨l', h⟩

theorem kept_newFile (fs : Fs) (l : Loc) : Kept fs (fs.newFile l) where
  next := Nat.le_succ _
  content := fun i hi => by
    rw [Fs.content, newFile]
    dsimp only
    rw [update_of_ne hi.ne]
    rfl
  inodes := fun h l' i hl' => by
    by_cases hl : l' = l
    · rw [hl, Fs.get, newFile, PathMap.get_put_self] at hl'
      cases hl'
      exact Nat.lt_succ_self _
    · rw [Fs.get, newFile, PathMap.get_put_of_ne _ _ hl] at hl'
      exact Nat.lt_succ_of_lt (h l' i hl')

theorem kept_makeEntry {n : Node} {u : Unit} (hn : ∀ i, n ≠ .file i)
    (h : fs.makeEntry full n = .ok (u, fs')) : Kept fs fs' := by
  rw [makeEntry_ok h]
  exact (kept_put fun i hi => absurd hi (hn i)).trans (kept_touch _ _)

theorem kept_removeEntry (fs : Fs) (l : Loc) : Kept fs (fs.removeEntry l) := by
  refine .of_get rfl rfl fun q i h => ⟨q, ?_⟩
  rw [get_removeEntry] at h
  split at h
  · cases h
  · exact h

theorem kept_rename {src dst : Loc} {u : Unit} (h : fs.rename src dst = .ok (u, fs')) :
    Kept fs fs' := by
  obtain ⟨_, ⟨_, rfl⟩ | ⟨h₁, h₂, _, rfl⟩⟩ := rename_ok h
  · exact kept_touch _ _
  · refine .of_get rfl rfl fun q i hq => ?_
    rw [get_moveEntry fs h₁ h₂] at hq
    split at hq
    · exact ⟨_, hq⟩
    · split at hq
      · cases hq
      · exact ⟨q, hq⟩

theorem kept_hardLink {src dst : Loc} {u : Unit} (h : fs.hardLink src dst = .ok (u, fs')) :
    Kept fs fs' := by
  obtain ⟨n, hn, rfl⟩ := hardLink_ok h
  exact (kept_put fun i hi => ⟨src, hi ▸ hn⟩).trans (kept_touch _ _)

theorem kept_openFile {write : Bool} {r : Loc × Node}
    (h : fs.openFile full write false = .ok (r, fs')) : Kept fs fs' := by
  obtain ⟨_, _, rfl⟩ := openFile_ok h
  cases r.2 <;> exact kept_touch _ _

theorem opensFile_of_tree (h : fs'.tree = fs.tree) (full : Loc) :
    fs'.opensFile full = fs.opensFile full := by
  rw [opensFile, opensFile, leaf_of_tree h]
  simp only [get_of_tree h]

theorem openFile_of_opensFile (h : fs.opensFile full = some ino)
    (write trunc : Bool) : ∃ l, fs.openFile full write trunc =
      .ok ((l, .file ino), (if trunc then fs.truncate ino else fs).touch [l]) := by
  obtain ⟨l, hl, hget⟩ := opensFile_eq_some.mp h
  refine ⟨l, ?_⟩
  simp only [openFile, hl, hget]

theorem openCreate_of_opensFile (h : fs.opensFile full = some ino)
    (trunc : Bool) : ∃ l, fs.openCreate full trunc =
      .ok ((l, ino), (if trunc then fs.truncate ino else fs).touch [l]) := by
  obtain ⟨l, hl, hget⟩ := opensFile_eq_some.mp h
  refine ⟨l, ?_⟩
  simp only [openCreate, hl, hget]

theorem metadata_of_opensFile (h : fs.opensFile full = some ino) :
    ∃ md, fs.metadata true full = .ok md := by
  obtain ⟨l, hl, hget⟩ := opensFile_eq_some.mp h
  simp only [metadata, hl, stat, hget]
  exact ⟨_, rfl⟩

theorem ino_of_openCreate {trunc : Bool} {r : Loc × ℕ}
    (h : fs.openCreate full trunc = .ok (r, fs')) :
    ∀ l, fs.leaf true full = .vacant l → r.2 = fs.nextIno := by
  intro l hl
  simp only [openCreate, hl] at h
  cases h
  rfl

end Fs

variable {flags : OpenFlags}

namespace Ctx

open Act

/-- The session may change files. -/
def mayWrite (x : Export) (me : SessionInner) : Bool := me.authed && me.attached && !x.readOnly

/-- The file an existing path leads to. -/
def leadsTo (x : Export) (fs : Fs) (path : RelPath) : Option ℕ :=
  match x.resolve fs path with
  | .ok full => fs.opensFile full
  | .error _ => none

/-- The file that is there under a path that may be new. -/
def leadsToNew (x : Export) (fs : Fs) (path : RelPath) : Option ℕ :=
  match x.resolveNew fs path with
  | .ok full => fs.opensFile full
  | .error _ => none

/-- **The change of data that a request will make.**  Four requests change data of a file that
exists: a write that is accepted, a new size, and opening or creating with truncation. -/
def edit (x : Export) (c : Ctx) : Request → Option Edit
  | .write fh offset data expectVersion =>
    match (c.me.handles.lookup fh : Option OpenFile) with
    | some file =>
      if Accepts x c fh expectVersion file then
        some ⟨file.path, file.ino, writeAt (c.fs.content file.ino) offset data⟩
      else none
    | none => none
  | .setattr path (some size) _ _ =>
    if mayWrite x c.me then
      (leadsTo x c.fs path).map fun ino => ⟨path, ino, setLen (c.fs.content ino) size⟩
    else none
  | .openFile path flags =>
    if flags.truncate && mayWrite x c.me then
      (leadsTo x c.fs path).map fun ino => ⟨path, ino, []⟩
    else none
  | .create path flags _ =>
    if flags.truncate && !flags.excl && mayWrite x c.me then
      (leadsToNew x c.fs path).map fun ino => ⟨path, ino, []⟩
    else none
  | _ => none

/-! ## What every request does to files and handles -/

/-- **What a request does to the files that exist and to its session**: data changes as `edit`
says, and a handle is one of before or the one in the answer `r`. -/
structure Outcome (x : Export) (req : Request) (c₀ : Ctx) (r : Option Response) (c : Ctx) :
    Prop where
  next : c₀.fs.nextIno ≤ c.fs.nextIno
  inodes : c₀.fs.HasInodes → c.fs.HasInodes
  content : ∀ i, i < c₀.fs.nextIno → c.fs.content i ≠ c₀.fs.content i →
    ∃ key, edit x c₀ req = some ⟨key, i, c.fs.content i⟩
  handles : ∀ fh (f : OpenFile), c.me.handles.lookup fh = some f →
    c₀.me.handles.lookup fh = some f ∨
      (req.opens = true ∧ ∃ attr, r = some (.opened fh attr)) ∧
        (c₀.fs.HasInodes → f.ino < c.fs.nextIno) ∧ c.me.authed = true ∧ c.me.attached = true
  authed : c₀.me.authed = true → c.me.authed = true
  attached : c₀.me.attached = true → c.me.attached = true

section Outcome

variable {x : Export} {req : Request} {c₀ c : Ctx} {r : Option Response} {path : RelPath}
  {fs fs' : Fs}
  {full : Loc}

theorem content_modify (fs : Fs) (ino : ℕ) (f : Inode → Inode) (i : ℕ) :
    (fs.modify ino f).content i =
      if i = ino then (f (fs.inodes ino)).content else fs.content i := by
  rw [Fs.content, Fs.modify]
  dsimp only
  by_cases h : i = ino
  · rw [h, update_self, if_pos rfl]
  · rw [update_of_ne h, if_neg h]
    rfl

theorem content_modify_self (fs : Fs) (ino : ℕ) (f : Inode → Inode) :
    (fs.modify ino f).content ino = (f (fs.inodes ino)).content :=
  (content_modify fs ino f ino).trans (if_pos rfl)

theorem content_truncate_self (fs : Fs) (ino : ℕ) : (fs.truncate ino).content ino = [] :=
  content_modify_self fs ino _

theorem leadsTo_eq (h : x.resolve fs path = .ok full) :
    leadsTo x fs path = fs.opensFile full := by
  rw [leadsTo, h]

theorem leadsToNew_eq (h : x.resolveNew fs path = .ok full) :
    leadsToNew x fs path = fs.opensFile full := by
  rw [leadsToNew, h]

/-- What the calls of a request do to the files that exist. -/
structure Edits (x : Export) (c : Ctx) (req : Request) (fs : Fs) : Prop where
  next : c.fs.nextIno ≤ fs.nextIno
  inodes : c.fs.HasInodes → fs.HasInodes
  content : ∀ i, i < c.fs.nextIno → fs.content i ≠ c.fs.content i →
    ∃ key, edit x c req = some ⟨key, i, fs.content i⟩

theorem edits_of_kept (h : c.fs.Kept fs) : Edits x c req fs :=
  ⟨h.next, h.inodes, fun i hi hne => absurd (h.content i hi) hne⟩

theorem edits_of_modify (key : RelPath) (ino : ℕ) (f : Inode → Inode)
    (hedit : edit x c req = some ⟨key, ino, (f (c.fs.inodes ino)).content⟩)
    (h : (c.fs.modify ino f).Kept fs) : Edits x c req fs := by
  refine ⟨h.next, h.inodes, fun i hi hne => ⟨key, ?_⟩⟩
  rw [h.content i hi, content_modify] at hne ⊢
  by_cases heq : i = ino
  · rw [if_pos heq, hedit, heq]
  · rw [if_neg heq] at hne
    exact absurd rfl hne

/-- The file behind a path has got a new size, if any, and no other data changes. -/
def Resized (fs : Fs) (full : Loc) : Option ℕ → Fs → Prop
  | none, fs' => fs.Kept fs'
  | some n, fs' => ∃ ino, fs.opensFile full = some ino ∧ (fs.modify ino fun i =>
      { i with content := setLen i.content n, mtime := fs.now }).Kept fs'

theorem Resized.trans {size : Option ℕ} {fs₁ fs₂ : Fs} (h : Resized fs full size fs₁)
    (hkept : fs₁.Kept fs₂) : Resized fs full size fs₂ := by
  cases size with
  | none => exact Fs.Kept.trans h hkept
  | some n =>
    obtain ⟨ino, hino, h⟩ := h
    exact ⟨ino, hino, h.trans hkept⟩

theorem Altered.isResized {size : Option ℕ} (h : Altered full fs size fs') :
    Resized fs full size fs' := by
  induction h with
  | refl => exact Fs.Kept.refl fs
  | opened _ hopen ih => exact ih.trans (Fs.kept_openFile hopen)
  | resized hopen =>
    obtain ⟨hleaf, hget, rfl⟩ := Fs.openFile_ok hopen
    exact ⟨_, Fs.opensFile_eq_some.mpr ⟨_, hleaf, hget⟩,
      (Fs.kept_touch _ _).trans (Fs.kept_touch _ _)⟩
  | @kept _ _ _ _ _ f _ hopen hf ih =>
    exact ih.trans (((Fs.kept_openFile hopen).trans (Fs.kept_modify _ _ f hf)).trans
      (Fs.kept_touch _ _))

theorem mayWrite_of_on (hon : c.On) (hro : x.readOnly = false) : mayWrite x c.me = true := by
  rw [mayWrite, hon.1, hon.2, hro]
  rfl

theorem edits_openFile {l : Loc} {n : Node} (hon : c.On)
    (hro : flags.write || flags.truncate || flags.append → x.readOnly = false)
    (hres : x.resolve c.fs path = .ok full)
    (hopen : c.fs.openFile full (flags.write || flags.truncate || flags.append) flags.truncate =
      .ok ((l, n), fs)) : Edits x c (.openFile path flags) fs := by
  cases htr : flags.truncate with
  | false =>
    rw [htr] at hopen
    exact edits_of_kept (Fs.kept_openFile hopen)
  | true =>
    obtain ⟨hleaf, hget, hfs⟩ := Fs.openFile_ok hopen
    cases n with
    | file ino =>
      rw [htr] at hfs
      have hmay := mayWrite_of_on hon (hro (by simp [htr]))
      have hino : c.fs.opensFile full = some ino := Fs.opensFile_eq_some.mpr ⟨_, hleaf, hget⟩
      refine edits_of_modify path ino (fun n => { n with content := [], mtime := c.fs.now }) ?_
        (hfs ▸ Fs.kept_touch _ _)
      rw [edit, htr, hmay, leadsTo_eq hres, hino]
      rfl
    | dir | symlink _ => exact edits_of_kept (hfs ▸ Fs.kept_touch _ _)

/-- Creating a file: where one is, it is opened, and emptied if that was asked for. -/
theorem edits_create (mode : ℕ) {file : Loc × ℕ} (hon : c.On)
    (hro : x.readOnly = false) (hnew : x.resolveNew c.fs path = .ok full)
    (hcall : (if flags.excl then c.fs.createNew full else c.fs.openCreate full flags.truncate) =
      .ok (file, fs)) :
    Edits x c (.create path flags mode)
      ((fs.modify file.2 fun i => { i with mode := modeBits mode }).touch [file.1]) ∧
        (c.fs.HasInodes → file.2 < fs.nextIno) := by
  have hmode :
      fs.Kept ((fs.modify file.2 fun i => { i with mode := modeBits mode }).touch [file.1]) :=
    (fs.kept_modify file.2 (fun i => { i with mode := modeBits mode }) fun _ => rfl).trans
      (Fs.kept_touch _ _)
  cases hexcl : flags.excl with
  | true =>
    rw [hexcl, if_pos rfl] at hcall
    obtain ⟨rfl, rfl⟩ := Fs.createNew_ok hcall
    exact ⟨edits_of_kept (((c.fs.kept_newFile full).trans (Fs.kept_touch _ _)).trans hmode),
      fun _ => Nat.lt_succ_self _⟩
  | false =>
    rw [hexcl, if_neg (by simp)] at hcall
    have hino := Fs.ino_of_openCreate hcall
    rcases Fs.openCreate_ok hcall with ⟨hl, rfl⟩ | ⟨hl, hget, rfl⟩
    · exact ⟨edits_of_kept (((c.fs.kept_newFile file.1).trans (Fs.kept_touch _ _)).trans hmode),
        fun _ => hino _ hl ▸ Nat.lt_succ_self _⟩
    · cases htr : flags.truncate with
      | false =>
        rw [htr] at hmode
        exact ⟨edits_of_kept ((Fs.kept_touch _ _).trans hmode), fun h => h _ _ hget⟩
      | true =>
        rw [htr] at hmode
        have hopens : c.fs.opensFile full = some file.2 := Fs.opensFile_eq_some.mpr ⟨_, hl, hget⟩
        refine ⟨edits_of_modify path file.2
            (fun n => { n with content := [], mtime := c.fs.now }) ?_
          ((Fs.kept_touch _ _).trans hmode), fun h => h _ _ hget⟩
        rw [edit, htr, hexcl, mayWrite_of_on hon hro, leadsToNew_eq hnew, hopens]
        rfl

theorem FsRan.edits (hon : c.On) (h : FsRan x c req fs) : Edits x c req fs := by
  cases h with
  | openFile hro hres h => exact edits_openFile hon hro hres h
  | create hro hnew h => exact (edits_create _ hon hro hnew h).1
  | @write fh offset data expectVersion file hro hfile hwrite hversion =>
    refine edits_of_modify file.path file.ino _ ?_ (Fs.kept_touch _ _)
    rw [edit]
    simp only [hfile]
    exact if_pos ⟨hon.1, hon.2, hro, hfile, hwrite, hversion⟩
  | @setattr path size mtime mode full fs o hro hres h ho =>
    have hsize := h.isResized
    cases o with
    | none => exact edits_of_kept hsize
    | some n =>
      obtain ⟨ino, hino, hkept⟩ := hsize
      obtain rfl : size = some n := by simpa [eq_comm] using ho
      refine edits_of_modify path ino _ ?_ hkept
      rw [edit, if_pos (mayWrite_of_on hon hro), leadsTo_eq hres, hino]
      rfl
  | mkdir _ _ h | symlink _ _ _ h => exact edits_of_kept (Fs.kept_makeEntry (by simp) h)
  | unlink _ _ h =>
    obtain ⟨_, rfl⟩ := Fs.removeFile_ok h
    exact edits_of_kept (c.fs.kept_removeEntry _)
  | rmdir _ _ h =>
    obtain ⟨_, rfl⟩ := Fs.removeDir_ok h
    exact edits_of_kept (c.fs.kept_removeEntry _)
  | rename _ _ _ _ h => exact edits_of_kept (Fs.kept_rename h)
  | link _ _ _ h => exact edits_of_kept (Fs.kept_hardLink h)
  | read | readLink => exact edits_of_kept (Fs.kept_touch _ _)

theorem Edits.outcome (h : Edits x c₀ req c.fs) (hme : c.me = c₀.me) : Outcome x req c₀ r c where
  next := h.next
  inodes := h.inodes
  content := h.content
  handles := fun _ _ hf => .inl (hme ▸ hf)
  authed := fun ha => hme ▸ ha
  attached := fun ha => hme ▸ ha

theorem Edits.opened (h : Edits x c₀ req c.fs) (hme : c.me = c₀.me) (hon : c₀.On) {file : OpenFile}
    (hino : c₀.fs.HasInodes → file.ino < c.fs.nextIno) (hreq : req.opens = true) (attr : Attr) :
    Outcome x req c₀ (some (.opened c₀.me.nextFh attr)) (c.opened file) := by
  have hauth : c.me.authed = c₀.me.authed := congrArg _ hme
  have hatt : c.me.attached = c₀.me.attached := congrArg _ hme
  refine ⟨h.next, h.inodes, h.content, fun fh f hf => ?_, hauth.trans, hatt.trans⟩
  replace hf : (c.me.handles.insert c.me.nextFh file).lookup fh = some f := hf
  rw [hme] at hf
  rcases lookup_of_insert hf with ⟨rfl, rfl⟩ | ⟨-, hf⟩
  · exact .inr ⟨⟨hreq, attr, rfl⟩, hino, hauth.trans hon.1, hatt.trans hon.2⟩
  · exact .inl hf

theorem Ran.outcome (h : Ran x c₀ req r c) : Outcome x req c₀ r c := by
  have hstay : Edits x c₀ req c₀.fs := edits_of_kept (.refl _)
  cases h with
  | looked | released => exact hstay.outcome rfl
  | lock | unlock =>
    refine Edits.outcome ?_ rfl
    exact hstay
  | auth =>
    exact ⟨hstay.next, hstay.inodes, hstay.content, fun _ _ h => .inl h, fun _ => rfl, fun h => h⟩
  | attach =>
    exact ⟨hstay.next, hstay.inodes, hstay.content, fun _ _ h => .inl h, fun h => h, fun _ => rfl⟩
  | @release fh _ _ hfile =>
    exact ⟨hstay.next, hstay.inodes, hstay.content, fun _ _ hf => .inl (lookup_of_erase hf).2,
      fun h => h, fun h => h⟩
  | touched h hreq =>
    refine Edits.outcome (edits_of_kept ?_) rfl
    rcases hreq with ⟨_, _, _, rfl⟩ | ⟨_, rfl⟩ <;> cases h <;> exact Fs.kept_touch _ _
  | @opened path flags attr full l ino fs hon hro hres hopen =>
    have hedits := edits_openFile hon hro hres hopen
    have hino : c₀.fs.HasInodes → ino < fs.nextIno := fun hino =>
      lt_of_lt_of_le (hino _ _ (Fs.openFile_ok hopen).2.1) hedits.next
    cases flags.truncate <;> refine Edits.opened ?_ ?_ hon ?_ ?_ attr
    all_goals first | exact hedits | exact hino | rfl
  | @created path flags mode attr full file fs hon hro hnew hcall =>
    obtain ⟨hedits, hino⟩ := edits_create mode hon hro hnew hcall
    refine Edits.opened ?_ ?_ hon ?_ ?_ attr
    all_goals first | exact hedits | exact hino | rfl
  | written hon hro hfile hwrite hversion =>
    exact Edits.outcome ((FsRan.write hro hfile hwrite hversion).edits hon) rfl
  | changed h hon | renamed h hon => exact Edits.outcome (h.edits hon) rfl

theorem Failed.outcome (h : Failed x c₀ req c) : Outcome x req c₀ none c := by
  have hstay : Edits x c₀ req c₀.fs := edits_of_kept (.refl _)
  cases h with
  | still => exact hstay.outcome rfl
  | lock =>
    refine Edits.outcome ?_ rfl
    exact hstay
  | openFile h hon | setattr h hon => exact Edits.outcome (h.edits hon) rfl
  | link _ _ _ h => exact Edits.outcome (edits_of_kept (Fs.kept_hardLink h)) rfl

/-- **Every request has such an outcome**, with its answer, or with none if it fails. -/
theorem outcome_handle (x : Export) (req : Request) (c₀ : Ctx) :
    Triple (fun c => c = c₀) (handle x req) (Outcome x req c₀) (Outcome x req c₀ none) :=
  (ran_handle x req c₀).conseq (fun _ h => h) (fun _ _ h => h.outcome) fun _ h => h.outcome

end Outcome

/-! ## A change of data is made -/

section Edit

variable {x : Export} {c : Ctx} {path : RelPath} {full : Loc} {ino : ℕ}

theorem call_of_ok {α : Type} {g : Fs → Fs.Call α} {a : α} {fs : Fs} (h : g c.fs = .ok (a, fs)) :
    call g c = .ok a { c with fs := fs } :=
  lens_eq_ok.mpr ⟨fs, h, rfl⟩

theorem handle_run (hauth : c.me.authed = true) (m : Handler (Option Response)) :
    (do let c ← get; ensure c.me.authed .authRequired; m : Handler (Option Response)) c = m c := by
  rw [get_bind,
    bind_of_ok ((ensure_eq_ok (u := ())).mpr ⟨hauth, rfl⟩)]

theorem mayWrite_iff {me : SessionInner} :
    mayWrite x me = true ↔ me.authed = true ∧ me.attached = true ∧ x.readOnly = false := by
  rw [mayWrite, Bool.and_eq_true, Bool.and_eq_true, Bool.not_eq_true', and_assoc]

theorem writableExport_of_mayWrite (h : mayWrite x c.me = true) :
    writableExport x c = .ok () c := by
  obtain ⟨-, hatt, hro⟩ := mayWrite_iff.mp h
  rw [writableExport_run, if_pos hatt, if_neg (by simp [hro])]

theorem exists_of_leadsTo (h : leadsTo x c.fs path = some ino) :
    ∃ full, resolve x path c = .ok full c ∧ c.fs.opensFile full = some ino := by
  rw [leadsTo] at h
  split at h
  · next full hres =>
    refine ⟨full, ?_, h⟩
    rw [resolve_run, hres]
  · cases h

theorem exists_of_leadsToNew (h : leadsToNew x c.fs path = some ino) :
    ∃ full, resolveNew x path c = .ok full c ∧ c.fs.opensFile full = some ino := by
  rw [leadsToNew] at h
  split at h
  · next full hres =>
    refine ⟨full, ?_, h⟩
    rw [resolveNew_run, hres]
  · cases h

/-- What changing a file through a path leaves of the state. -/
structure Changed (full : Loc) (ino : ℕ) (c c' : Ctx) : Prop where
  opens : c'.fs.opensFile full = some ino
  me : c'.me = c.me

theorem changeAt_run (h : c.fs.opensFile full = some ino) (f : Inode → Inode) :
    ∃ c', changeAt full f c = .ok () c' ∧ Changed full ino c c' ∧
      c'.fs.content ino = (f (c.fs.inodes ino)).content := by
  obtain ⟨l, hopen⟩ := Fs.openFile_of_opensFile h true false
  refine ⟨{ c with fs := ((c.fs.touch [l]).modify ino f).touch [l] }, ?_,
    ⟨?_, rfl⟩, ?_⟩
  · rw [changeAt, bind_of_ok (call_of_ok hopen)]
    rfl
  · have htree : (((c.fs.touch [l]).modify ino f).touch [l]).tree = c.fs.tree := rfl
    exact (Fs.opensFile_of_tree htree full).trans h
  · exact content_modify_self (c.fs.touch [l]) ino f

theorem onSome_changeAt_run {α : Type} (h : c.fs.opensFile full = some ino) (o : Option α)
    {g : α → Inode → Inode} (hg : ∀ a i, (g a i).content = i.content) :
    ∃ c', onSome o (fun a => changeAt full (g a)) c = .ok () c' ∧ Changed full ino c c' ∧
      c'.fs.content ino = c.fs.content ino := by
  cases o with
  | none => exact ⟨c, rfl, ⟨h, rfl⟩, rfl⟩
  | some a =>
    obtain ⟨c', hrun, hch, hcontent⟩ := changeAt_run h (g a)
    exact ⟨c', hrun, hch, hcontent.trans (hg a _)⟩

theorem setattr_of_leadsTo (size : ℕ) (mtime : Option SystemTime) (mode : Option ℕ)
    (hmay : mayWrite x c.me = true) (h : leadsTo x c.fs path = some ino) :
    ∃ r c', setattr x path (some size) mtime mode c = .ok r c' ∧
      c'.fs.content ino = setLen (c.fs.content ino) size := by
  obtain ⟨full, hres, hopens⟩ := exists_of_leadsTo h
  obtain ⟨c₁, hrun₁, hch₁, hcontent₁⟩ := changeAt_run hopens
    fun i => { i with content := setLen i.content size, mtime := c.fs.now }
  obtain ⟨c₂, hrun₂, hch₂, hcontent₂⟩ := onSome_changeAt_run hch₁.opens mtime
    (g := fun mtime i => { i with mtime := mtime }) fun _ _ => rfl
  obtain ⟨c₃, hrun₃, hch₃, hcontent₃⟩ := onSome_changeAt_run hch₂.opens mode
    (g := fun mode i => { i with mode := modeBits mode }) fun _ _ => rfl
  obtain ⟨md, hmd⟩ := Fs.metadata_of_opensFile hch₃.opens
  have hmeta : metadata true full c₃ = .ok md c₃ := by
    exact orFail_eq_ok.mpr ⟨hmd, rfl⟩
  have hrun : setattr x path (some size) mtime mode c = (do
      noteLocalWrite path
      let version ← bump path
      return .attr (attrFromMetadata md version) : Handler Response) c₃ := by
    rw [setattr, bind_of_ok (writableExport_of_mayWrite hmay), bind_of_ok hres,
      get_bind]
    exact (bind_of_ok hrun₁).trans ((bind_of_ok hrun₂).trans
      ((bind_of_ok hrun₃).trans (bind_of_ok hmeta)))
  exact ⟨_, _, hrun.trans rfl, hcontent₃.trans (hcontent₂.trans hcontent₁)⟩

theorem openFile_of_leadsTo (htr : flags.truncate = true)
    (hmay : mayWrite x c.me = true) (h : leadsTo x c.fs path = some ino) :
    ∃ r c', openFile x path flags c = .ok r c' ∧ c'.fs.content ino = [] := by
  obtain ⟨-, hatt, hro⟩ := mayWrite_iff.mp hmay
  obtain ⟨full, hres, hopens⟩ := exists_of_leadsTo h
  obtain ⟨l, hopen⟩ := Fs.openFile_of_opensFile hopens
    (flags.write || flags.truncate || flags.append) flags.truncate
  have hatt' : attachedExport c = .ok () c := by rw [attachedExport_run, if_pos hatt]
  have hens : (ensure (!((flags.write || flags.truncate || flags.append) && x.readOnly))
      ErrorCode.readOnly : Handler Unit) c = .ok () c :=
    ensure_eq_ok.mpr ⟨by rw [hro, Bool.and_false]; rfl, rfl⟩
  rw [htr] at hopen
  have hrun : openFile x path flags c = (do
      let md ← fileMetadata ino
      let version ← bump path
      let fh ← insertHandle ⟨ino, l, path, flags.write || flags.truncate || flags.append⟩
      return .opened fh (attrFromMetadata md version) : Handler Response)
      { c with fs := (c.fs.truncate ino).touch [l] } := by
    rw [openFile, bind_of_ok hatt', bind_of_ok hens, bind_of_ok hres, htr,
      bind_of_ok (call_of_ok hopen)]
    simp only [openedVersion, htr]
    rfl
  exact ⟨_, _, hrun.trans rfl, content_truncate_self c.fs ino⟩

theorem create_of_leadsToNew (mode : ℕ) (htr : flags.truncate = true)
    (hexcl : flags.excl = false) (hmay : mayWrite x c.me = true)
    (h : leadsToNew x c.fs path = some ino) :
    ∃ r c', create x path flags mode c = .ok r c' ∧ c'.fs.content ino = [] := by
  obtain ⟨full, hres, hopens⟩ := exists_of_leadsToNew h
  obtain ⟨l, hopen⟩ := Fs.openCreate_of_opensFile hopens flags.truncate
  rw [htr] at hopen
  have hrun : create x path flags mode c = (do
      modifyFile l ino fun i => { i with mode := modeBits mode }
      let md ← fileMetadata ino
      noteLocalWrite path
      let version ← bump path
      let fh ← insertHandle ⟨ino, l, path, true⟩
      return .opened fh (attrFromMetadata md version) : Handler Response)
      { c with fs := (c.fs.truncate ino).touch [l] } := by
    rw [create, bind_of_ok (writableExport_of_mayWrite hmay), bind_of_ok hres]
    simp only [hexcl, htr]
    rw [bind_of_ok (call_of_ok hopen)]
    rfl
  refine ⟨_, _, hrun.trans rfl, ?_⟩
  exact (content_modify_self ((c.fs.truncate ino).touch [l]) ino
    fun i => { i with mode := modeBits mode }).trans (content_truncate_self c.fs ino)

theorem write_of_accepts {fh : ℕ} (offset : ℕ) (data : Bytes) {expectVersion : Option ℕ}
    {file : OpenFile}
    (h : Accepts x c fh expectVersion file) :
    ∃ v c', handle x (.write fh offset data expectVersion) c =
        .ok (some (.written data.length v false)) c' ∧
      c'.fs.content file.ino = writeAt (c.fs.content file.ino) offset data := by
  have hcheck : writeCheck x fh expectVersion c = .ok file c :=
    (requestCheck_run h.1 fh expectVersion).symm.trans (requestCheck_eq_ok.mpr ⟨h, rfl⟩)
  have hrun : handle x (.write fh offset data expectVersion) c =
      (some <$> (do
        writeData file offset data
        let newVersion ← bump file.path
        return .written data.length newVersion false : Handler Response) : Handler _) c := by
    rw [show handle x (.write fh offset data expectVersion) = (do
      let c ← get
      ensure c.me.authed .authRequired
      some <$> write x fh offset data expectVersion) from rfl, handle_run h.1, write_eq]
    change EStateM.map some _ c = EStateM.map some _ c
    rw [EStateM.map, EStateM.map, bind_of_ok hcheck]
  exact ⟨_, _, hrun.trans rfl, content_modify_self c.fs file.ino fun i =>
    { i with content := writeAt i.content offset data, mtime := c.fs.now }⟩

theorem ok_of_handle {m : Handler Response} {r : Option Response} {c' : Ctx}
    (h : (do let c ← get; ensure c.me.authed .authRequired; some <$> m :
      Handler (Option Response)) c = .ok r c') :
    c.me.authed = true ∧ ∃ r', r = some r' ∧ m c = .ok r' c' := by
  rw [get_bind] at h
  rw [bind_eq_ok] at h
  obtain ⟨_, _, hens, h⟩ := h
  obtain ⟨hauth, rfl⟩ := ensure_eq_ok.mp hens
  obtain ⟨r', hm, hr⟩ := map_eq_ok.mp h
  exact ⟨hauth, r', hr, hm⟩

theorem handle_of_ok {m : Handler Response} {r : Response} {c' : Ctx} (hauth : c.me.authed = true)
    (h : m c = .ok r c') :
    (do let c ← get; ensure c.me.authed .authRequired; some <$> m : Handler (Option Response)) c =
      .ok (some r) c' := by
  rw [handle_run hauth, map_eq_ok]
  exact ⟨r, h, rfl⟩

/-- **The change of data is made**, and the version of its path moves. -/
theorem handle_of_edit {req : Request} {e : Edit} (h : edit x c req = some e) :
    x.readOnly = false ∧ ∃ r c', handle x req c = .ok (some r) c' ∧
      c'.fs.content e.ino = e.content ∧ c'.books = c.books.bump e.key := by
  -- the version is what `handle_books` says, once the request has returned
  have hbooks : ∀ {r c'}, handle x req c = .ok r c' →
      c'.books = (req.mark c.me.handles).apply c.books := by
    intro r c' hrun
    have := (handle_books x req : Marks c.books c.me.handles (handle x req) _) c rfl
    rw [hrun] at this
    exact this
  cases req with
  | write fh offset data expectVersion =>
    rw [edit] at h
    split at h
    · next file hfile =>
      obtain ⟨hacc, rfl⟩ := of_guard h
      obtain ⟨v, c', hrun, hcontent⟩ := write_of_accepts offset data hacc
      refine ⟨hacc.2.2.1, _, c', hrun, hcontent, (hbooks hrun).trans ?_⟩
      rw [Request.mark, show c.me.handles.lookup fh = some file from hfile]
      rfl
    · cases h
  | setattr path size mtime mode =>
    cases size with
    | none => cases h
    | some size =>
      rw [edit] at h
      split at h
      · next hmay =>
        obtain ⟨ino, hino, rfl⟩ := Option.map_eq_some_iff.mp h
        obtain ⟨r, c', hrun, hcontent⟩ := setattr_of_leadsTo size mtime mode hmay hino
        have hall := handle_of_ok (mayWrite_iff.mp hmay).1 hrun
        exact ⟨(mayWrite_iff.mp hmay).2.2, r, c', hall, hcontent, hbooks hall⟩
      · cases h
  | openFile path flags =>
    rw [edit] at h
    split at h
    · next hmay =>
      obtain ⟨htr, hmay⟩ := Bool.and_eq_true_iff.mp hmay
      obtain ⟨ino, hino, rfl⟩ := Option.map_eq_some_iff.mp h
      obtain ⟨r, c', hrun, hcontent⟩ := openFile_of_leadsTo htr hmay hino
      have hall := handle_of_ok (mayWrite_iff.mp hmay).1 hrun
      refine ⟨(mayWrite_iff.mp hmay).2.2, r, c', hall, hcontent, (hbooks hall).trans ?_⟩
      rw [Request.mark, if_pos htr]
      rfl
    · cases h
  | create path flags mode =>
    rw [edit] at h
    split at h
    · next hmay =>
      obtain ⟨hflags, hmay⟩ := Bool.and_eq_true_iff.mp hmay
      obtain ⟨htr, hexcl⟩ := Bool.and_eq_true_iff.mp hflags
      obtain ⟨ino, hino, rfl⟩ := Option.map_eq_some_iff.mp h
      obtain ⟨r, c', hrun, hcontent⟩ := create_of_leadsToNew mode htr
        (by simpa using hexcl) hmay hino
      have hall := handle_of_ok (mayWrite_iff.mp hmay).1 hrun
      exact ⟨(mayWrite_iff.mp hmay).2.2, r, c', hall, hcontent, hbooks hall⟩
    · cases h
  | _ => cases h

end Edit
end Ctx
end AlloyFs
