import AlloyFs.Client.Overlay
import AlloyFs.Os.Passes
import Mathlib.Data.List.Dedup

/-!
# What a mount sees of an export, and how its requests change it

A directory of the export is listed and described as long as its path resolves to it.  Making files
and directories keeps every entry of the export, removing a file keeps the directories and links,
and no request leaves a file system that is none.
-/

namespace AlloyFs

open Act

/-! ## Resolving a place -/

namespace Export

variable {x : Export} {fs fs' : Fs} {p : Place} {full : Loc}

theorem shown_of_resolve {path : RelPath} (h : x.resolve fs path = .ok full) :
    x.exclude.isExcluded path = false := by
  rw [resolve] at h
  split at h
  · cases h
  · next hno => simpa using hno

theorem canonicalize_of_resolve (hs : fs.Sane) (hx : ∀ c ∈ x.root, Fs.Ordinary c)
    (h : x.resolve fs p.rel = .ok full) (hdir : fs.get full = some .dir) :
    fs.canonicalize (x.root ++ p.names) = .ok full := by
  obtain ⟨-, ⟨hr, rfl⟩ | ⟨-, hcan, -⟩⟩ := resolve_ok h
  · rw [Place.isRoot_rel, List.isEmpty_iff] at hr
    rw [hr, Place.names_nil, List.append_nil]
    exact hs.canonicalize_dir hx hdir
  · rwa [Place.pushed_rel] at hcan

theorem not_link_of_resolve (hne : p ≠ []) (h : x.resolve fs p.rel = .ok full) (t : Text) :
    fs.get full ≠ some (.symlink t) := by
  obtain ⟨-, ⟨hr, -⟩ | ⟨-, hcan, -⟩⟩ := resolve_ok h
  · rw [Place.isRoot_rel_of_ne hne] at hr
    cases hr
  · rcases Fs.get_of_walk_found (Fs.walk_of_canonicalize hcan) with hget | ⟨ino, hget⟩ <;>
      · rw [hget]
        simp

/-- **A directory that resolved still does** when all that its path passes stays. -/
theorem resolve_kept (hs : fs.Sane) (hx : ∀ c ∈ x.root, Fs.Ordinary c)
    (h : x.resolve fs p.rel = .ok full) (hdir : fs.get full = some .dir)
    (hkept : ∀ q node, fs.PassedBy (x.root ++ p.names) q → fs.get q = some node →
      fs'.get q = some node) :
    x.resolve fs' p.rel = .ok full ∧ fs'.get full = some .dir := by
  have hcan := canonicalize_of_resolve hs hx h hdir
  obtain ⟨hcan', hdir'⟩ := Fs.canonicalize_kept hcan hdir hkept
  refine ⟨?_, hdir'⟩
  rw [resolve, resolveUnchecked, Place.pushed_rel, hcan] at h
  rw [resolve, resolveUnchecked, Place.pushed_rel, hcan']
  exact h

theorem get_of_resolve_concat {n : FileName} {d : Loc} (hs : fs.Sane)
    (hx : ∀ c ∈ x.root, Fs.Ordinary c) (h : x.resolve fs p.rel = .ok d) (hd : fs.get d = some .dir)
    (hn : x.resolve fs (p ++ [n]).rel = .ok full) (hfull : fs.get full = some .dir) :
    fs.get (d ++ [n.1]) ≠ none := by
  have hcan := canonicalize_of_resolve hs hx h hd
  have hcan' := canonicalize_of_resolve hs hx hn hfull
  rw [Place.names_append, ← List.append_assoc] at hcan'
  obtain ⟨d', hd', hget⟩ := Fs.canonicalize_concat n.2.1 hcan'
  rw [hcan] at hd'
  cases hd'
  exact hget

end Export

/-! ## Looking at a directory of the server -/

namespace Ctx

variable {x : Export} {c c' : Ctx} {path : RelPath} {full : Loc}

/-- What the agent lists of a directory. -/
def listing (x : Export) (c : Ctx) (path : RelPath) (full : Loc) : List DirEntry :=
  (c.fs.children full).filterMap fun name =>
    let child := path.join name
    if x.exclude.isExcluded child then none
    else (c.fs.stat (full ++ [name])).map fun md =>
      DirEntry.mk name (attrFromMetadata md ((c.versions.lookup child).getD 0))

theorem metadata_of_dir {fs : Fs} (h : fs.get full = some .dir) :
    fs.metadata true full = .ok (.dir, fs.statOf full) := by
  have hleaf : fs.leaf true full = .found full := by
    rw [Fs.leaf, h]
  rw [Fs.metadata, hleaf]
  simp only [Fs.stat, h]

theorem handle_getattr (hauth : c.me.authed = true) (hatt : c.me.attached = true)
    (hres : x.resolve c.fs path = .ok full) (hdir : c.fs.get full = some .dir) :
    ∃ attr, handle x (.getattr path) c = .ok (some (.attr attr)) c ∧ attr.kind = .dir := by
  have hrun : getattr x path c = .ok (.attr (attrFromMetadata (.dir, c.fs.statOf full)
      ((c.versions.lookup path).getD 0))) c := by
    have hatt' : attachedExport c = .ok () c := by rw [attachedExport_run, if_pos hatt]
    have hres' : Ctx.resolve x path c = .ok full c := by rw [resolve_run, hres]
    have hmd : metadata true full c = .ok (.dir, c.fs.statOf full) c := by
      rw [metadata, get_bind, metadata_of_dir hdir]
      rfl
    rw [getattr, bind_of_ok hatt', bind_of_ok hres', bind_of_ok hmd]
    rfl
  exact ⟨_, handle_of_ok hauth hrun, rfl⟩

theorem handle_readdir (hauth : c.me.authed = true) (hatt : c.me.attached = true)
    (hres : x.resolve c.fs path = .ok full) (hdir : c.fs.get full = some .dir) (cursor : ℕ) :
    handle x (.readdir path cursor) c =
    .ok (some (readdirPage (listing x c path full) cursor)) c := by
  have hrun : readdir x path cursor c = .ok (readdirPage (listing x c path full) cursor) c := by
    have hatt' : attachedExport c = .ok () c := by rw [attachedExport_run, if_pos hatt]
    have hres' : Ctx.resolve x path c = .ok full c := by rw [resolve_run, hres]
    have hens : (ensure (c.fs.isDir full) .notADirectory : Handler Unit) c = .ok () c :=
      ensure_eq_ok.mpr ⟨by simp [Fs.isDir, hdir], rfl⟩
    rw [readdir, bind_of_ok hatt', bind_of_ok hres', get_bind,
      bind_of_ok hens]
    rfl
  exact handle_of_ok hauth hrun

theorem of_handle_readdir {cursor : ℕ} {r : Option Response}
    (h : handle x (.readdir path cursor) c = .ok r c') :
    c.me.authed = true ∧ c.me.attached = true ∧
      ∃ full, x.resolve c.fs path = .ok full ∧ c.fs.get full = some .dir := by
  obtain ⟨hauth, r', -, hrun⟩ := ok_of_handle h
  replace hrun : readdir x path cursor c = .ok r' c' := hrun
  rw [readdir, bind_eq_ok] at hrun
  obtain ⟨_, _, hatt, hrun⟩ := hrun
  obtain ⟨hatt, rfl⟩ := attachedExport_ok hatt
  rw [bind_eq_ok] at hrun
  obtain ⟨full, _, hres, hrun⟩ := hrun
  obtain ⟨hres, rfl⟩ := resolve_ok hres
  rw [get_bind] at hrun
  rw [bind_eq_ok] at hrun
  obtain ⟨_, _, hens, -⟩ := hrun
  obtain ⟨hdir, -⟩ := ensure_eq_ok.mp hens
  exact ⟨hauth, hatt, full, hres, by simpa [Fs.isDir] using hdir⟩

end Ctx

/-! ## Listings -/

namespace Fs

variable {fs : Fs} {l : Loc} {c : Name}

theorem mem_children : c ∈ fs.children l ↔ fs.get (l ++ [c]) ≠ none := by
  rw [children, List.mem_insertionSort, List.mem_dedup, List.mem_filterMap]
  constructor
  · rintro ⟨e, -, he⟩
    split at he
    · next h =>
      obtain ⟨hdrop, hne, hsome⟩ := h
      have : e.1 = l ++ [c] := by
        rw [← List.dropLast_append_getLast hne, hdrop]
        rw [List.getLast?_eq_some_getLast hne, Option.some.injEq] at he
        rw [he]
      rw [← this]
      exact Option.isSome_iff_ne_none.mp hsome
    · cases he
  · intro h
    obtain ⟨n, hn⟩ := Option.ne_none_iff_exists'.mp h
    refine ⟨(l ++ [c], n), PathMap.mem_of_get hn, ?_⟩
    rw [if_pos ⟨by simp, by simp, by simp [hn]⟩]
    simp

theorem length_children_le : (fs.children l).length ≤ fs.tree.length := by
  rw [children, List.length_insertionSort]
  exact (List.dedup_sublist _).length_le.trans (List.length_filterMap_le _ _)

theorem stat_eq_none : fs.stat l = none ↔ fs.get l = none := by
  rw [stat]
  rcases fs.get l with _ | _ | _ | _ <;> simp

theorem kind_of_stat {md : FileKind × Stat} (h : fs.stat l = some md) (hk : md.1 = .dir) :
    fs.get l = some .dir := by
  rw [stat] at h
  cases hget : fs.get l with
  | none =>
    rw [hget] at h
    cases h
  | some node =>
    rw [hget] at h
    cases node with
    | dir => rfl
    | file ino =>
      cases h
      cases hk
    | symlink t =>
      cases h
      cases hk

end Fs

/-! ## What requests do to the tree -/

namespace Ctx

variable {x : Export} {c c' : Ctx} {path : RelPath}

/-! ## The requests of a mount -/

theorem final_handle_create (hs : c.fs.Sane) (path : RelPath) (flags : OpenFlags) (mode : ℕ) :
    (final (handle x (.create path flags mode) c)).fs.Sane ∧
      Fs.Grows c.fs (final (handle x (.create path flags mode) c)).fs := by
  rcases fsRan_handle x (.create path flags mode) c with h | h
  · rw [h]
    exact ⟨hs, .refl _⟩
  · generalize (final (handle x (.create path flags mode) c)).fs = fs at h ⊢
    cases h with
    | @create _ _ _ _ file fs₁ _ _ hcall =>
      have hmade : fs₁.Sane ∧ Fs.Grows c.fs fs₁ := by
        split at hcall
        · exact ⟨hs.createNew hcall, Fs.grows_createNew hcall⟩
        · exact ⟨hs.openCreate hcall, hs.grows_openCreate hcall⟩
      exact ⟨hmade.1.of_tree rfl rfl, hmade.2.trans (.of_tree rfl)⟩

theorem final_handle_mkdir (hs : c.fs.Sane) (path : RelPath) (mode : ℕ) :
    (final (handle x (.mkdir path mode) c)).fs.Sane ∧
      Fs.Grows c.fs (final (handle x (.mkdir path mode) c)).fs := by
  rcases fsRan_handle x (.mkdir path mode) c with h | h
  · rw [h]
    exact ⟨hs, .refl _⟩
  · cases h with
    | mkdir _ _ hcall =>
      exact ⟨hs.makeEntry (fun _ => Node.noConfusion) hcall, Fs.grows_makeEntry hcall⟩

theorem final_handle_unlink (hs : c.fs.Sane) (path : RelPath) :
    (final (handle x (.unlink path) c)).fs.Sane := by
  rcases fsRan_handle x (.unlink path) c with h | h
  · rwa [h]
  · cases h with
    | unlink _ _ hcall => exact hs.removeFile hcall

theorem final_handle_rmdir (hs : c.fs.Sane) {p : Place} (hne : p ≠ []) :
    (final (handle x (.rmdir p.rel) c)).fs.Sane := by
  rcases fsRan_handle x (.rmdir p.rel) c with h | h
  · rwa [h]
  · cases h with
    | rmdir _ hres hcall =>
      refine hs.removeDir ?_ hcall
      rintro rfl
      obtain ⟨-, ⟨hr, -⟩ | ⟨-, hcan, -⟩⟩ := Export.resolve_ok hres
      · rw [Place.isRoot_rel_of_ne hne] at hr
        cases hr
      · obtain ⟨q, n, rfl⟩ := (List.eq_nil_or_concat' p).resolve_left hne
        rw [Place.pushed_rel, Place.names_append, ← List.append_assoc] at hcan
        obtain ⟨d, -, hget⟩ := Fs.canonicalize_concat n.2.1 hcan
        exact hget (Fs.empty_of_removeDir hcall List.nil_prefix (by simp))

theorem final_handle_rename (hs : c.fs.Sane) (src dst : RelPath) (replace : Bool) :
    (final (handle x (.rename src dst replace) c)).fs.Sane := by
  rcases fsRan_handle x (.rename src dst replace) c with h | h
  · rwa [h]
  · cases h with
    | rename _ _ _ _ hcall => exact hs.rename hcall

theorem session_of_handle {req : Request} {r : Option Response} (h : handle x req c = .ok r c') :
    (c.me.authed = true → c'.me.authed = true) ∧
    (c.me.attached = true → c'.me.attached = true) := by
  have := outcome_handle x req c c rfl
  rw [h] at this
  exact ⟨this.authed, this.attached⟩

end Ctx

end AlloyFs
