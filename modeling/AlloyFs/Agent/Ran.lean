import AlloyFs.Agent.Ops
import AlloyFs.Lib.AList

/-!
# How a request leaves the state

Every handler checks, resolves, makes a call or two and keeps the books.  This module goes through
the handlers once and says how each of them leaves the state, if it returns (`Ran`) and if it fails
(`Failed`); `FsRan` is the file system's part in it.  What a request can do to entries, contents,
versions, handles or locks is read off these by cases.
-/

namespace AlloyFs

/-- The request may be answered and change nothing. -/
def Request.looks : Request → Bool
  | .auth _ | .getattr _ | .readdir _ _ | .flush _ | .statfs | .mountDefaults | .subscribe _ => true
  | _ => false

/-- The path whose entry a request changes, for those that do no more than that. -/
def Request.changes : Request → Option RelPath
  | .setattr path _ _ _ | .mkdir path _ | .unlink path | .rmdir path => some path
  | .link _ path | .symlink _ path => some path
  | _ => none

variable {k : Loc → Handler Response} {d : Ctx} {full : Loc}

namespace Ctx

open Act

/-- The session has written to a path. -/
def noted (c : Ctx) (path : RelPath) : Ctx :=
  { c with events := c.events.noteLocalWrite c.clock path c.me.id }

/-- The session may use the export. -/
def On (c : Ctx) : Prop := c.me.authed = true ∧ c.me.attached = true

/-- A path has a new version. -/
def bumped (c : Ctx) (path : RelPath) : Ctx :=
  { c with vclock := c.vclock + 1, versions := c.versions.insert path (c.vclock + 1) }

/-- The session has a new handle. -/
def opened (c : Ctx) (file : OpenFile) : Ctx :=
  { c with me :=
    { c.me with handles := c.me.handles.insert c.me.nextFh file, nextFh := c.me.nextFh + 1 } }

/-- The file that opening a path leads to is changed: its size first, perhaps, and then nothing of
its data. -/
inductive Altered (full : Loc) (fs : Fs) : Option ℕ → Fs → Prop
  | refl : Altered full fs none fs
  | opened {size : Option ℕ} {fs₁ fs₂ : Fs} {r : Loc × Node} (h : Altered full fs size fs₁)
      (hopen : fs₁.openFile full true false = .ok (r, fs₂)) : Altered full fs size fs₂
  | resized {n : ℕ} {fs₁ : Fs} {l : Loc} {ino : ℕ}
      (hopen : fs.openFile full true false = .ok ((l, .file ino), fs₁)) :
      Altered full fs (some n) ((fs₁.modify ino fun i =>
        { i with content := setLen i.content n, mtime := fs.now }).touch [l])
  | kept {size : Option ℕ} {fs₁ fs₂ : Fs} {l : Loc} {ino : ℕ} {f : Inode → Inode}
      (h : Altered full fs size fs₁)
      (hopen : fs₁.openFile full true false = .ok ((l, .file ino), fs₂))
      (hf : ∀ i, (f i).content = i.content) : Altered full fs size ((fs₂.modify ino f).touch [l])

/-- **What the calls of a request leave of the file system.** -/
inductive FsRan (x : Export) (c : Ctx) : Request → Fs → Prop
  | openFile {path : RelPath} {flags : OpenFlags} {full : Loc} {r : Loc × Node} {fs : Fs}
      (hro : flags.write || flags.truncate || flags.append → x.readOnly = false)
      (hres : x.resolve c.fs path = .ok full)
      (h : c.fs.openFile full (flags.write || flags.truncate || flags.append) flags.truncate =
        .ok (r, fs)) : FsRan x c (.openFile path flags) fs
  | create {path : RelPath} {flags : OpenFlags} {mode : ℕ} {full : Loc} {file : Loc × ℕ} {fs : Fs}
      (hro : x.readOnly = false) (hnew : x.resolveNew c.fs path = .ok full)
      (h : (if flags.excl then c.fs.createNew full else c.fs.openCreate full flags.truncate) =
        .ok (file, fs)) :
      FsRan x c (.create path flags mode)
        ((fs.modify file.2 fun i => { i with mode := modeBits mode }).touch [file.1])
  | read {fh offset len : ℕ} {file : OpenFile} (hfile : c.me.handles.lookup fh = some file) :
      FsRan x c (.read fh offset len) (c.fs.touch [file.loc])
  | write {fh offset : ℕ} {data : Bytes} {expectVersion : Option ℕ} {file : OpenFile}
      (hro : x.readOnly = false) (hfile : c.me.handles.lookup fh = some file)
      (hwrite : file.writable = true)
      (hversion : expectVersion = none ∨
        expectVersion = some ((c.versions.lookup file.path).getD 0)) :
      FsRan x c (.write fh offset data expectVersion) ((c.fs.modify file.ino fun i => { i with
        content := writeAt i.content offset data, mtime := c.fs.now }).touch [file.loc])
  | setattr {path : RelPath} {size : Option ℕ} {mtime : Option SystemTime} {mode : Option ℕ}
      {full : Loc} {fs : Fs} {o : Option ℕ} (hro : x.readOnly = false)
      (hres : x.resolve c.fs path = .ok full) (h : Altered full c.fs o fs)
      (ho : o = none ∨ o = size) :
      FsRan x c (.setattr path size mtime mode) fs
  | mkdir {path : RelPath} {mode : ℕ} {full : Loc} {fs : Fs} (hro : x.readOnly = false)
      (hnew : x.resolveNew c.fs path = .ok full) (h : c.fs.createDir full = .ok ((), fs)) :
      FsRan x c (.mkdir path mode) fs
  | unlink {path : RelPath} {full : Loc} {fs : Fs} (hro : x.readOnly = false)
      (hres : x.resolve c.fs path = .ok full) (h : c.fs.removeFile full = .ok ((), fs)) :
      FsRan x c (.unlink path) fs
  | rmdir {path : RelPath} {full : Loc} {fs : Fs} (hro : x.readOnly = false)
      (hres : x.resolve c.fs path = .ok full) (h : c.fs.removeDir full = .ok ((), fs)) :
      FsRan x c (.rmdir path) fs
  | rename {src dst : RelPath} {replace : Bool} {ls ld : Loc} {fs : Fs} (hro : x.readOnly = false)
      (hsrc : x.resolve c.fs src = .ok ls) (hdst : x.resolveNew c.fs dst = .ok ld)
      (hfree : replace = true ∨ c.fs.exists_ ld = false) (h : c.fs.rename ls ld = .ok ((), fs)) :
      FsRan x c (.rename src dst replace) fs
  | link {target link : RelPath} {ls ld : Loc} {fs : Fs} (hro : x.readOnly = false)
      (hsrc : x.resolve c.fs target = .ok ls) (hdst : x.resolveNew c.fs link = .ok ld)
      (h : c.fs.hardLink ls ld = .ok ((), fs)) : FsRan x c (.link target link) fs
  | symlink {target : Text} {link landing : RelPath} {full : Loc} {fs : Fs}
      (hro : x.readOnly = false)
      (hnew : x.resolveNew c.fs link = .ok full)
      (hland : symlinkLandsInside link target = some landing)
      (h : c.fs.symlink target full = .ok ((), fs)) : FsRan x c (.symlink target link) fs
  | readLink {path : RelPath} {full : Loc} (hnew : x.resolveNew c.fs path = .ok full) :
      FsRan x c (.readLink path) (c.fs.touch [full])

/-- **How a request that is answered leaves the state.** -/
inductive Ran (x : Export) (c : Ctx) : Request → Option Response → Ctx → Prop
  | looked {req : Request} {r : Option Response} (h : req.looks = true) : Ran x c req r c
  | auth {token : Text} {r : Option Response} :
      Ran x c (.auth token) r { c with me := { c.me with authed := true } }
  | attach {name : Text} {r : Option Response} (hauth : c.me.authed = true) :
      Ran x c (.attach name) r { c with me := { c.me with attached := true } }
  | lock {fh : ℕ} {kind : LockKind} {wait : Bool} {r : Option Response} {file : OpenFile}
      (hfile : c.me.handles.lookup fh = some file) : Ran x c (.lock fh kind wait) r
        { c with locks := (c.locks.attempt file.path c.me.id fh kind wait 0).2 }
  | unlock {fh : ℕ} {r : Option Response} {file : OpenFile}
      (hfile : c.me.handles.lookup fh = some file) : Ran x c (.unlock fh) r
        { c with locks := c.locks.unlock file.path c.me.id fh }
  | release {fh : ℕ} {r : Option Response} {file : OpenFile}
      (hfile : c.me.handles.lookup fh = some file) : Ran x c (.release fh) r
        { c with
          me := { c.me with handles := c.me.handles.erase fh }
          locks := if c.me.attached then c.locks.unlock file.path c.me.id fh else c.locks }
  | released {fh : ℕ} {r : Option Response} (hfile : c.me.handles.lookup fh = none) :
      Ran x c (.release fh) r c
  | touched {req : Request} {r : Option Response} {fs : Fs} (h : FsRan x c req fs)
      (hreq : (∃ fh offset len, req = .read fh offset len) ∨ ∃ path, req = .readLink path) :
      Ran x c req r { c with fs := fs }
  | opened {path : RelPath} {flags : OpenFlags} {attr : Attr} {full l : Loc} {ino : ℕ} {fs : Fs}
      (hon : c.On) (hro : flags.write || flags.truncate || flags.append → x.readOnly = false)
      (hres : x.resolve c.fs path = .ok full)
      (hopen : c.fs.openFile full (flags.write || flags.truncate || flags.append) flags.truncate =
        .ok ((l, .file ino), fs))
      (hattr : attr.version =
        if flags.truncate then c.vclock + 1 else (c.versions.lookup path).getD 0) :
      Ran x c (.openFile path flags) (some (.opened c.me.nextFh attr))
        ((if flags.truncate then bumped { c with fs := fs } path else { c with fs := fs }).opened
          ⟨ino, l, path, flags.write || flags.truncate || flags.append⟩)
  | created {path : RelPath} {flags : OpenFlags} {mode : ℕ} {attr : Attr} {full : Loc}
      {file : Loc × ℕ} {fs : Fs} (hon : c.On) (hro : x.readOnly = false)
      (hnew : x.resolveNew c.fs path = .ok full)
      (hcall : (if flags.excl then c.fs.createNew full else c.fs.openCreate full flags.truncate) =
        .ok (file, fs)) (hattr : attr.version = c.vclock + 1) :
      Ran x c (.create path flags mode) (some (.opened c.me.nextFh attr))
        (((noted { c with fs :=
          (fs.modify file.2 fun i => { i with mode := modeBits mode }).touch [file.1] } path).bumped
          path).opened ⟨file.2, file.1, path, true⟩)
  | written {fh offset : ℕ} {data : Bytes} {expectVersion : Option ℕ} {file : OpenFile}
      (hon : c.On) (hro : x.readOnly = false) (hfile : c.me.handles.lookup fh = some file)
      (hwrite : file.writable = true)
      (hversion : expectVersion = none ∨
        expectVersion = some ((c.versions.lookup file.path).getD 0)) :
      Ran x c (.write fh offset data expectVersion)
      (some (.written data.length (c.vclock + 1) false))
        ((noted { c with fs := (c.fs.modify file.ino fun i => { i with
          content := writeAt i.content offset data, mtime := c.fs.now }).touch [file.loc] }
          file.path).bumped file.path)
  | changed {req : Request} {path : RelPath} {r : Option Response} {fs : Fs} (h : FsRan x c req fs)
      (hon : c.On) (hreq : req.changes = some path) :
      Ran x c req r ((noted { c with fs := fs } path).bumped path)
  | renamed {src dst : RelPath} {replace : Bool} {r : Option Response} {fs : Fs}
      (h : FsRan x c (.rename src dst replace) fs) (hon : c.On) :
      Ran x c (.rename src dst replace) r
        (bumped { (noted (noted { c with fs := fs } src) dst) with
          versions := c.versions.erase src } dst)

/-- **How a request that fails leaves the state.** -/
inductive Failed (x : Export) (c : Ctx) : Request → Ctx → Prop
  | still {req : Request} : Failed x c req c
  | lock {fh : ℕ} {kind : LockKind} {wait : Bool} {file : OpenFile}
      (hfile : c.me.handles.lookup fh = some file) : Failed x c (.lock fh kind wait)
        { c with locks := (c.locks.attempt file.path c.me.id fh kind wait 0).2 }
  | openFile {path : RelPath} {flags : OpenFlags} {fs : Fs}
      (h : FsRan x c (.openFile path flags) fs) (hon : c.On) :
      Failed x c (.openFile path flags) { c with fs := fs }
  | setattr {path : RelPath} {size : Option ℕ} {mtime : Option SystemTime} {mode : Option ℕ}
      {fs : Fs}
      (h : FsRan x c (.setattr path size mtime mode) fs) (hon : c.On) :
      Failed x c (.setattr path size mtime mode) { c with fs := fs }
  | link {target link : RelPath} {ls ld : Loc} {fs : Fs} {e : ErrorCode} (hro : x.readOnly = false)
      (hsrc : x.resolve c.fs target = .ok ls) (hdst : x.resolveNew c.fs link = .ok ld)
      (h : c.fs.hardLink ls ld = .ok ((), fs)) (hmd : fs.metadata true ld = .error e) :
      Failed x c (.link target link) { c with fs := fs }

/-! ## Parts of handlers that change nothing -/

section Inert

variable (x : Export) (path : RelPath)

theorem inert_attachedExport : Inert attachedExport := inert_get.bind fun _ => inert_ensure _ _

theorem inert_writableExport : Inert (writableExport x) :=
  inert_attachedExport.bind fun _ => inert_ensure _ _

theorem inert_resolve : Inert (resolve x path) := inert_get.bind fun _ => inert_orFail _

theorem inert_resolveNew : Inert (resolveNew x path) := inert_get.bind fun _ => inert_orFail _

theorem inert_handleOf (fh : ℕ) : Inert (handleOf fh) := inert_get.bind fun _ => inert_orFail _

theorem inert_versionOf : Inert (versionOf path) := inert_get.bind fun _ => inert_pure _

theorem inert_metadata (follow : Bool) (full : Loc) : Inert (metadata follow full) :=
  inert_get.bind fun _ => inert_orFail _

end Inert

theorem handleOf_eq_ok {c c' : Ctx} {fh : ℕ} {file : OpenFile} :
    handleOf fh c = .ok file c' ↔ c.me.handles.lookup fh = some file ∧ c' = c := by
  have hrun : handleOf fh c = (orFail ((c.me.handles.lookup fh).elim (.error .badHandle) .ok) :
      Handler OpenFile) c := rfl
  rw [hrun, orFail_eq_ok]
  cases c.me.handles.lookup fh <;> simp

theorem metadata_of_put {fs fs' : Fs} {n : Node} (follow : Bool)
    (htree : fs'.tree = fs.tree.put full n) (hn : follow = true → ∀ t, n ≠ .symlink t) :
    ∃ r, fs'.metadata follow full = .ok r := by
  have hget : fs'.get full = some n := by
    rw [Fs.get, htree, PathMap.get_put_self]
  have hleaf : fs'.leaf follow full = .found full := by
    cases n with
    | dir => rw [Fs.leaf, hget]
    | file i => rw [Fs.leaf, hget]
    | symlink t =>
      cases follow with
      | true => exact absurd rfl (hn rfl t)
      | false =>
        rw [Fs.leaf, hget]
        rfl
  cases n <;> simp [Fs.metadata, Fs.stat, hleaf, hget]

/-! ## One handler after the other -/

/-- The computation answers a request and leaves the state as `Ran` and `Failed` say. -/
def Runs (x : Export) (c : Ctx) (req : Request) (m : Handler Response) : Prop :=
  Triple (fun d => d = c) m (fun r => Ran x c req (some r)) (Failed x c req)

section Runs

variable {x : Export} {c : Ctx} {req : Request} {path : RelPath} {r : Option Response}

theorem runs_of_inert {m : Handler Response} (hm : Inert m) (hreq : req.looks = true) :
    Runs x c req m :=
  (hm fun d => d = c).conseq (fun _ h => h) (fun _ _ h => h ▸ .looked hreq) fun _ h => h ▸ .still

theorem runs_writable {k : Unit → Handler Response} (hauth : c.me.authed = true)
    (h : c.On → x.readOnly = false → Runs x c req (k ())) : Runs x c req (writableExport x >>= k) :=
  through_inert (inert_writableExport x) .still fun _ hw =>
    h ⟨hauth, (writableExport_ok hw).1⟩ (writableExport_ok hw).2.1

theorem runs_resolve (h : ∀ full, x.resolve c.fs path = .ok full → Runs x c req (k full)) :
    Runs x c req (resolve x path >>= k) :=
  through_inert (inert_resolve x path) .still fun full hres => h full (resolve_ok hres).1

theorem runs_resolveNew (h : ∀ full, x.resolveNew c.fs path = .ok full → Runs x c req (k full)) :
    Runs x c req (resolveNew x path >>= k) :=
  through_inert (inert_resolveNew x path) .still fun full hnew => h full (resolveNew_ok hnew).1

theorem runs_attr {fs : Fs} {follow : Bool} (h : FsRan x c req fs) (hon : c.On)
    (hreq : req.changes = some path)
    (hE : ∀ e, fs.metadata follow full = .error e → Failed x c req { c with fs := fs }) :
    Triple (fun d => d = { c with fs := fs })
      (do
        let md ← metadata follow full
        noteLocalWrite path
        let version ← bump path
        return Response.attr (attrFromMetadata md version))
      (fun r => Ran x c req (some r)) (Failed x c req) := by
  rintro _ rfl
  have hrun : metadata follow full { c with fs := fs } =
    (orFail (fs.metadata follow full) : Handler (FileKind × Stat)) { c with fs := fs } := rfl
  cases hmd : fs.metadata follow full with
  | ok md =>
    rw [hmd] at hrun
    rw [bind_of_ok hrun]
    exact .changed h hon hreq
  | error e =>
    rw [hmd] at hrun
    rw [bind_of_error hrun]
    exact hE e hmd

theorem runs_attach (hauth : c.me.authed = true) (name : Text) :
    Runs x c (.attach name) (attach x name) := by
  refine through_inert inert_get .still fun _ _ => ?_
  refine through_ensure .still fun _ => ?_
  refine through_inert (inert_metadata _ _) .still fun _ _ => ?_
  rintro _ rfl
  exact .attach hauth

theorem runs_openFile (hauth : c.me.authed = true) (flags : OpenFlags) :
    Runs x c (.openFile path flags) (openFile x path flags) := by
  refine through_inert inert_attachedExport .still fun _ hatt => ?_
  have hon : c.On := ⟨hauth, (attachedExport_ok hatt).1⟩
  refine through_ensure .still fun hro => ?_
  have hwants : flags.write || flags.truncate || flags.append → x.readOnly = false := fun hw => by
    simpa [hw] using hro
  refine runs_resolve fun full hres => ?_
  refine through_lens .still fun opened fs hopen => ?_
  have h : FsRan x c (.openFile path flags) fs := .openFile hwants hres hopen
  obtain ⟨l, n⟩ := opened
  cases n with
  | file ino =>
    have hran := fun attr => @Ran.opened x c path flags attr full l ino fs hon hwants hres hopen
    rw [openedVersion]
    rintro _ rfl
    cases htr : flags.truncate with
    | true =>
      rw [htr] at hran
      exact hran _ rfl
    | false =>
      rw [htr] at hran
      exact hran _ rfl
  | dir =>
    rintro _ rfl
    exact .openFile h hon
  | symlink t =>
    rintro _ rfl
    exact .openFile h hon

theorem runs_create (hauth : c.me.authed = true) (flags : OpenFlags) (mode : ℕ) :
    Runs x c (.create path flags mode) (create x path flags mode) := by
  refine runs_writable hauth fun hon hro => ?_
  refine runs_resolveNew fun full hnew => ?_
  refine through_lens .still fun file fs hcall => ?_
  rintro _ rfl
  exact .created hon hro hnew hcall rfl

theorem runs_read (fh offset len : ℕ) : Runs x c (.read fh offset len) (read fh offset len) := by
  refine through_ensure .still fun _ => ?_
  refine through_inert (inert_handleOf fh) .still fun file hfile => ?_
  rintro _ rfl
  exact .touched (.read (handleOf_eq_ok.mp hfile).1) (.inl ⟨_, _, _, rfl⟩)

theorem runs_write (hauth : c.me.authed = true) (fh offset : ℕ) (data : Bytes)
    (expectVersion : Option ℕ) :
    Runs x c (.write fh offset data expectVersion) (write x fh offset data expectVersion) := by
  refine runs_writable hauth fun hon hro => ?_
  refine through_inert (inert_handleOf fh) .still fun file hfile => ?_
  replace hfile := (handleOf_eq_ok.mp hfile).1
  refine through_ensure .still fun hwrite => ?_
  refine through_inert (inert_versionOf _) .still fun v hv => ?_
  cases hv
  refine through_ensure .still fun hversion => ?_
  rintro _ rfl
  exact .written hon hro hfile hwrite
    (by simpa using hversion)

/-- A part of `setattr` after which the file system is as the parts so far left it. -/
def Along (c : Ctx) (full : Loc) (size : Option ℕ) (d : Ctx) : Prop :=
  ∃ fs, d = { c with fs := fs } ∧ Altered full c.fs size fs

theorem along_changeAt {size : Option ℕ} {f : Inode → Inode}
    (hf : ∀ i, (f i).content = i.content) : Keeps (Along c full size) (changeAt full f) := by
  refine Triple.bind (Q := fun r d => ∃ fs fs', d = { c with fs := fs' } ∧
    Altered full c.fs size fs ∧ fs.openFile full true false = .ok (r, fs'))
    (Triple.lens (fun r d fs' hopen hd => ?_) fun _ h => h) fun r => ?_
  · obtain ⟨fs, rfl, h⟩ := hd
    exact ⟨fs, fs', rfl, h, hopen⟩
  · rintro _ ⟨fs, fs', rfl, h, hopen⟩
    obtain ⟨l, n⟩ := r
    cases n with
    | file ino => exact ⟨_, rfl, .kept h hopen hf⟩
    | dir => exact ⟨_, rfl, .opened h hopen⟩
    | symlink t => exact ⟨_, rfl, .opened h hopen⟩

theorem along_resize (c : Ctx) (full : Loc) (size : Option ℕ) :
    Triple (fun d => d = c) (onSome size fun size => changeAt full fun i =>
      { i with content := setLen i.content size, mtime := c.fs.now })
      (fun _ => Along c full size) (Along c full none) := by
  cases size with
  | none =>
    rintro _ rfl
    exact ⟨_, rfl, .refl⟩
  | some n =>
    refine through_lens ⟨_, rfl, .refl⟩ fun r fs hopen => ?_
    obtain ⟨l, node⟩ := r
    cases node with
    | file ino =>
      rintro _ rfl
      exact ⟨_, rfl, .resized hopen⟩
    | dir =>
      rintro _ rfl
      exact ⟨_, rfl, .opened .refl hopen⟩
    | symlink t =>
      rintro _ rfl
      exact ⟨_, rfl, .opened .refl hopen⟩

section

variable (hauth : c.me.authed = true)
include hauth

theorem runs_setattr (size : Option ℕ) (mtime : Option SystemTime) (mode : Option ℕ) :
    Runs x c (.setattr path size mtime mode) (setattr x path size mtime mode) := by
  refine runs_writable hauth fun hon hro => ?_
  refine runs_resolve fun full hres => ?_
  refine through_get ?_
  have hfail : ∀ o, o = none ∨ o = size → ∀ e, Along c full o e →
      Failed x c (.setattr path size mtime mode) e := by
    rintro o ho _ ⟨fs, rfl, h⟩
    exact .setattr (.setattr hro hres h ho) hon
  have hkeeps : ∀ {α : Type} (o : Option α) (f : α → Inode → Inode),
      (∀ a i, (f a i).content = i.content) →
      Triple (Along c full size) (onSome o fun a => changeAt full (f a))
        (fun _ => Along c full size) (Failed x c (.setattr path size mtime mode)) := fun o f hf =>
    (keeps_onSome fun a => along_changeAt (hf a)).conseq (fun _ h => h) (fun _ _ h => h)
      (hfail size (.inr rfl))
  refine Triple.bind ((along_resize c full size).conseq (fun _ h => h) (fun _ _ h => h)
    (hfail none (.inl rfl))) fun _ => ?_
  refine Triple.bind (hkeeps mtime (fun m i => { i with mtime := m }) fun _ _ => rfl) fun _ => ?_
  refine Triple.bind (hkeeps mode (fun m i => { i with mode := modeBits m }) fun _ _ => rfl)
    fun _ => ?_
  rintro _ ⟨fs, rfl, h⟩
  have hran : FsRan x c (.setattr path size mtime mode) fs :=
    .setattr hro hres h (.inr rfl)
  exact runs_attr hran hon rfl (fun _ _ => .setattr hran hon) _ rfl

theorem runs_mkdir (mode : ℕ) : Runs x c (.mkdir path mode) (mkdir x path) := by
  refine runs_writable hauth fun hon hro => ?_
  refine runs_resolveNew fun full hnew => ?_
  refine through_lens .still fun _ fs hcall => ?_
  refine runs_attr (.mkdir hro hnew hcall) hon rfl fun e he => ?_
  have htree := congrArg Fs.tree (Fs.makeEntry_ok hcall)
  obtain ⟨md, hmd⟩ := metadata_of_put true htree (by simp)
  cases hmd.symm.trans he

theorem runs_removeWith {remove : Fs → Loc → Fs.Call Unit}
    (hreq : req.changes = some path) (h : ∀ {full fs}, x.readOnly = false →
      x.resolve c.fs path = .ok full → remove c.fs full = .ok ((), fs) → FsRan x c req fs) :
    Runs x c req (removeWith x remove path) := by
  refine runs_writable hauth fun hon hro => ?_
  refine runs_resolve fun full hres => ?_
  refine through_lens .still fun _ fs hcall => ?_
  rintro _ rfl
  exact .changed (h hro hres hcall) hon hreq

theorem runs_rename (src dst : RelPath) (replace : Bool) :
    Runs x c (.rename src dst replace) (rename x src dst replace) := by
  refine runs_writable hauth fun hon hro => ?_
  refine runs_resolve fun ls hsrc => ?_
  refine runs_resolveNew fun ld hdst => ?_
  refine through_get ?_
  refine through_ensure .still fun hfree => ?_
  refine through_lens .still fun _ fs hcall => ?_
  rintro _ rfl
  exact .renamed (.rename hro hsrc hdst
    (by simpa using hfree) hcall) hon

theorem runs_link (target link : RelPath) :
    Runs x c (.link target link) (Ctx.link x target link) := by
  refine runs_writable hauth fun hon hro => ?_
  refine runs_resolve fun ls hsrc => ?_
  refine runs_resolveNew fun ld hdst => ?_
  refine through_lens .still fun _ fs hcall => ?_
  exact runs_attr (.link hro hsrc hdst hcall) hon rfl
    fun _ => .link hro hsrc hdst hcall

theorem runs_symlink (target : Text) (link : RelPath) :
    Runs x c (.symlink target link) (symlink x target link) := by
  refine runs_writable hauth fun hon hro => ?_
  refine runs_resolveNew fun full hnew => ?_
  refine through_inert (inert_orFail _) .still fun landing hland => ?_
  replace hland : symlinkLandsInside link target = some landing := by
    have h := (orFail_eq_ok.mp hland).1
    cases hl : symlinkLandsInside link target <;> rw [hl] at h <;> cases h
    rfl
  refine through_ensure .still fun _ => ?_
  refine through_lens .still fun _ fs hcall => ?_
  refine runs_attr (.symlink hro hnew hland hcall) hon rfl fun e he => ?_
  have htree := congrArg Fs.tree (Fs.makeEntry_ok hcall)
  obtain ⟨md, hmd⟩ := metadata_of_put false htree (by simp)
  cases hmd.symm.trans he

end

theorem runs_readlink : Runs x c (.readLink path) (readlink x path) := by
  refine through_inert inert_attachedExport .still fun _ _ => ?_
  refine runs_resolveNew fun full hnew => ?_
  refine through_inert (inert_metadata _ _) .still fun _ _ => ?_
  refine through_ensure .still fun _ => ?_
  refine through_lens .still fun _ fs hcall => ?_
  obtain rfl := Fs.readLink_ok hcall
  rintro _ rfl
  exact .touched (.readLink hnew) (.inr ⟨_, rfl⟩)

theorem runs_release (fh : ℕ) : Runs x c (.release fh) (release fh) := by
  refine through_get ?_
  split
  · next hfile =>
    rintro _ rfl
    exact .released hfile
  · next file hfile =>
    rintro _ rfl
    exact .release hfile

theorem runs_auth (token : Text) : Runs x c (.auth token) (auth token) := by
  refine through_get ?_
  split
  · rintro _ rfl
    exact .looked rfl
  · refine through_ensure .still fun _ => ?_
    rintro _ rfl
    exact .auth

theorem runs_unlock (fh : ℕ) : Runs x c (.unlock fh) (unlock fh) := by
  refine through_inert inert_attachedExport .still fun _ _ => ?_
  refine through_inert (inert_handleOf fh) .still fun file hfile => ?_
  rintro _ rfl
  exact .unlock (handleOf_eq_ok.mp hfile).1

theorem ran_lock (fh : ℕ) (kind : LockKind) (wait : Bool) :
    Triple (fun d => d = c) (lock fh kind wait) (Ran x c (.lock fh kind wait))
      (Failed x c (.lock fh kind wait)) := by
  refine through_inert inert_attachedExport .still fun _ _ => ?_
  refine through_inert (inert_handleOf fh) .still fun file hfile => ?_
  refine through_get ?_
  replace hfile := (handleOf_eq_ok.mp hfile).1
  refine through_modify ?_
  split
  · rintro _ rfl
    exact .lock hfile
  · rintro _ rfl
    exact .lock hfile
  · rintro _ rfl
    exact .lock hfile

/-- **How every request leaves the state.** -/
theorem ran_handle (x : Export) (req : Request) (c : Ctx) :
    Triple (fun d => d = c) (handle x req) (Ran x c req) (Failed x c req) := by
  -- nothing but the token is looked at before the session has shown it
  have hgate : ∀ m : Handler (Option Response),
      (c.me.authed = true → Triple (fun d => d = c) m (Ran x c req) (Failed x c req)) →
      Triple (fun d => d = c) (do let c ← get; ensure c.me.authed .authRequired; m) (Ran x c req)
        (Failed x c req) := fun m hm =>
    through_get (through_ensure .still hm)
  cases req with
  | auth token => exact Triple.map (runs_auth token)
  | subscribe since =>
    exact hgate _ fun _ => Triple.map (runs_of_inert (inert_attachedExport.bind fun _ =>
      inert_get.bind fun _ => (inert_orFail _).bind fun _ => inert_pure _) rfl)
  | lock fh kind wait => exact hgate _ fun _ => ran_lock fh kind wait
  | unlock fh => exact hgate _ fun _ => Triple.map (runs_unlock fh)
  | attach name => exact hgate _ fun h => Triple.map (runs_attach h name)
  | getattr path =>
    exact hgate _ fun _ => Triple.map (runs_of_inert (inert_attachedExport.bind fun _ =>
      (inert_resolve x path).bind fun _ => (inert_metadata _ _).bind fun _ =>
        (inert_versionOf path).bind fun _ => inert_pure _) rfl)
  | readdir path cursor =>
    exact hgate _ fun _ => Triple.map (runs_of_inert (inert_attachedExport.bind fun _ =>
      (inert_resolve x path).bind fun _ => inert_get.bind fun _ =>
        (inert_ensure _ _).bind fun _ => inert_pure _) rfl)
  | flush fh => exact hgate _ fun _ => Triple.map (runs_of_inert (inert_pure _) rfl)
  | statfs =>
    refine hgate _ fun _ => Triple.map (runs_of_inert (inert_get.bind fun d => ?_) rfl)
    split <;> exact inert_pure _
  | mountDefaults =>
    exact hgate _ fun _ => Triple.map (runs_of_inert (inert_attachedExport.bind fun _ =>
      inert_pure _) rfl)
  | openFile path flags => exact hgate _ fun h => Triple.map (runs_openFile h flags)
  | create path flags mode => exact hgate _ fun h => Triple.map (runs_create h flags mode)
  | read fh offset len => exact hgate _ fun _ => Triple.map (runs_read fh offset len)
  | write fh offset data v => exact hgate _ fun h => Triple.map (runs_write h fh offset data v)
  | release fh => exact hgate _ fun _ => Triple.map (runs_release fh)
  | setattr path size mtime mode =>
    exact hgate _ fun h => Triple.map (runs_setattr h size mtime mode)
  | mkdir path mode => exact hgate _ fun h => Triple.map (runs_mkdir h mode)
  | unlink path => exact hgate _ fun h => Triple.map (runs_removeWith h rfl .unlink)
  | rmdir path => exact hgate _ fun h => Triple.map (runs_removeWith h rfl .rmdir)
  | rename src dst replace => exact hgate _ fun h => Triple.map (runs_rename h src dst replace)
  | link target link => exact hgate _ fun h => Triple.map (runs_link h target link)
  | symlink target link => exact hgate _ fun h => Triple.map (runs_symlink h target link)
  | readLink path => exact hgate _ fun _ => Triple.map runs_readlink

theorem ran_of_ok (h : handle x req c = .ok r d) : Ran x c req r d := by
  have hran := ran_handle x req c c rfl
  rwa [h] at hran

/-- However a request ends, its calls are all that happens to the file system. -/
theorem fsRan_handle (x : Export) (req : Request) (c : Ctx) :
    (final (handle x req c)).fs = c.fs ∨ FsRan x c req (final (handle x req c)).fs := by
  refine Triple.final (P := fun d => d = c) (E := fun d => d.fs = c.fs ∨ FsRan x c req d.fs)
    ((ran_handle x req c).conseq (fun _ h => h) (fun r d h => ?_) fun d h => ?_) rfl
  · cases h with
    | touched h | changed h | renamed h => exact .inr h
    | @opened _ flags _ _ _ _ _ _ hro hres hopen =>
      have h := FsRan.openFile hro hres hopen
      cases flags.truncate <;> exact .inr h
    | created _ hro hnew hcall => exact .inr (.create hro hnew hcall)
    | written _ hro hfile hwrite hversion => exact .inr (.write hro hfile hwrite hversion)
    | _ => exact .inl rfl
  · cases h with
    | openFile h | setattr h => exact .inr h
    | link hro hsrc hdst h => exact .inr (.link hro hsrc hdst h)
    | _ => exact .inl rfl

/-! Requests that remove or move an entry. -/

theorem of_handle_unlink (h : handle x (.unlink path) c = .ok r d) :
    ∃ full, x.resolve c.fs path = .ok full ∧ c.fs.removeFile full = .ok ((), d.fs) := by
  cases ran_of_ok h with
  | changed hfs =>
    cases hfs with
    | unlink _ hres hcall => exact ⟨_, hres, hcall⟩
  | looked hreq => cases hreq
  | touched _ hreq => simp at hreq

theorem of_handle_rmdir (h : handle x (.rmdir path) c = .ok r d) :
    c.me.authed = true ∧ c.me.attached = true ∧
      ∃ full, x.resolve c.fs path = .ok full ∧ c.fs.removeDir full = .ok ((), d.fs) := by
  cases ran_of_ok h with
  | changed hfs hon =>
    cases hfs with
    | rmdir _ hres hcall => exact ⟨hon.1, hon.2, _, hres, hcall⟩
  | looked hreq => cases hreq
  | touched _ hreq => simp at hreq

theorem of_handle_rename {src dst : RelPath} {replace : Bool}
    (h : handle x (.rename src dst replace) c = .ok r d) :
    ∃ srcFull dstFull, x.resolve c.fs src = .ok srcFull ∧ x.resolveNew c.fs dst = .ok dstFull ∧
      c.fs.rename srcFull dstFull = .ok ((), d.fs) := by
  cases ran_of_ok h with
  | renamed hfs =>
    cases hfs with
    | rename _ hsrc hdst _ hcall => exact ⟨_, _, hsrc, hdst, hcall⟩
  | looked hreq | changed _ _ hreq => cases hreq
  | touched _ hreq => simp at hreq

end Runs
end Ctx
end AlloyFs
