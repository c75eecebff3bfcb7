import AlloyFs.Agent.Ran

/-!
# Which entry a request acts on

A path names a directory entry: its last component, in the directory its parent leads
to.  `unlink`, `rmdir` and `rename` are asked to act on that entry.  What they do
instead is to follow the whole path first and act on what it leads to, which is the
entry named exactly when that entry is no symbolic link: behind a link, the file or
directory it points to is removed or moved and the link stays.

Two more requests succeed without acting on an entry they name.  The root path names
no entry, yet `rmdir` of it removes the root of an empty export.  And a rename between
two names of one file succeeds and does nothing.
-/

namespace AlloyFs

/-- The entry a path names: its resolved parent directory plus its last component. -/
def namedEntry (fs : Fs) (root : Loc) (path : RelPath) : Option Loc :=
  match path.split with
  | none => none
  | some (parent, leaf) =>
    match fs.canonicalize (root ++ parent.pushed) with
    | .ok d => some (d ++ [leaf])
    | .error _ => none

/-- Exactly the entry at `l` is gone. -/
def RemovedExactly (fs fs' : Fs) (l : Loc) : Prop :=
  fs.get l ≠ none ∧ (∀ q, fs'.get q = if q = l then none else fs.get q) ∧ fs'.inodes = fs.inodes

/-- Exactly the entry at `src`, with all that is below it, is now at `dst`, in place of
what was there. -/
def MovedExactly (fs fs' : Fs) (src dst : Loc) : Prop :=
  fs.get src ≠ none ∧
    (∀ q, fs'.get q =
      if src = dst then fs.get q
      else if dst <+: q then fs.get (src ++ q.drop dst.length)
      else if src <+: q then none else fs.get q) ∧
    fs'.inodes = fs.inodes

/-- The effect asked for: on the entry named, and on no other. -/
def ActsOnNamed (fs fs' : Fs) (root : Loc) : Request → Prop
  | .unlink path | .rmdir path =>
    ∃ l, namedEntry fs root path = some l ∧ RemovedExactly fs fs' l
  | .rename src dst _ =>
    ∃ ls ld, namedEntry fs root src = some ls ∧ namedEntry fs root dst = some ld ∧
      MovedExactly fs fs' ls ld
  | _ => True

/-- The path names an entry that is no link. -/
def NamesNoLink (fs : Fs) (root : Loc) (path : RelPath) : Prop :=
  ∃ l, namedEntry fs root path = some l ∧ ∀ t, fs.get l ≠ some (.symlink t)

/-- What the tree must look like before a request. -/
def ActsOk (fs : Fs) (root : Loc) : Request → Prop
  | .unlink path | .rmdir path => NamesNoLink fs root path
  | .rename src dst _ =>
    NamesNoLink fs root src ∧
      ∀ ls ld, namedEntry fs root src = some ls → namedEntry fs root dst = some ld →
        ¬ fs.TwoNames ls ld
  | _ => True

/-! ## Where a path leads, and what it names -/

section Named

variable {x : Export} {fs fs' : Fs} {path : RelPath} {full l : Loc}

theorem namedEntry_root (hr : path.isRoot = true) : namedEntry fs x.root path = none := by
  rw [namedEntry, RelPath.split, if_pos hr]

/-- A path that leads somewhere names an entry, and leads to that entry unless it is a
link; it never leads to a link. -/
theorem namedEntry_of_canonicalize (hv : path.validate = true) (hr : path.isRoot = false)
    (h : fs.canonicalize (x.root ++ path.pushed) = .ok full) :
    ∃ l, namedEntry fs x.root path = some l ∧
      ((∀ t, fs.get l ≠ some (.symlink t)) → full = l) ∧
      ∀ t, fs.get full ≠ some (.symlink t) := by
  obtain ⟨parent, leaf, hs⟩ : ∃ parent leaf, path.split = some (parent, leaf) := by
    rw [RelPath.split, if_neg (by simp [hr])]
    split <;> exact ⟨_, _, rfl⟩
  have hpushed := RelPath.pushed_of_split hv hs
  have hleaf : Fs.Ordinary leaf := by
    refine RelPath.mem_comps_of_validate hv hr ?_
    have : leaf ∈ path.pushed := by rw [hpushed]; simp
    rwa [RelPath.pushed, if_neg (by simp [hr])] at this
  have hwalk := Fs.walk_of_canonicalize h
  rw [hpushed, ← List.append_assoc] at hwalk
  obtain ⟨d, hd, hl⟩ := Fs.walk_concat hleaf hwalk
  refine ⟨d ++ [leaf], ?_, hl, ?_⟩
  · rw [namedEntry, hs]
    simp only [Fs.canonicalize, hd]
  · intro t ht
    rcases Fs.get_of_walk_found hwalk with hdir | ⟨ino, hfile⟩
    · rw [hdir] at ht
      cases ht
    · rw [hfile] at ht
      cases ht

theorem namedEntry_of_resolveNew (hroot : fs.canonicalize x.root = .ok x.root)
    (h : x.resolveNew fs path = .ok full) : namedEntry fs x.root path = some full := by
  obtain ⟨parent, leaf, d, _, hs, hd, rfl⟩ := Export.resolveNew_ok h
  have hparent : fs.canonicalize (x.root ++ parent.pushed) = .ok d := by
    rcases (Export.resolve_ok hd).2 with ⟨hr, rfl⟩ | ⟨_, hcanon, _⟩
    · rw [RelPath.pushed, if_pos hr, List.append_nil, hroot]
    · exact hcanon
  rw [namedEntry, hs]
  simp only [hparent]

/-- One entry was removed: it was the entry named exactly when that is no link. -/
theorem removedExactly_iff (hres : x.resolve fs path = .ok full) (hfull : fs.get full ≠ none) :
    (∃ l, namedEntry fs x.root path = some l ∧ RemovedExactly fs (fs.removeEntry full) l) ↔
      NamesNoLink fs x.root path := by
  obtain ⟨hv, ⟨hr, _⟩ | ⟨hr, hcanon, _⟩⟩ := Export.resolve_ok hres
  · -- the root path names nothing
    rw [NamesNoLink, namedEntry_root hr]
    simp
  obtain ⟨l, hl, hsame, hnolink⟩ := namedEntry_of_canonicalize hv hr hcanon
  constructor
  · intro ⟨l', hl', hrem⟩
    obtain rfl : l = l' := Option.some.inj (hl.symm.trans hl')
    refine ⟨l, hl, fun t ht => ?_⟩
    have hne : l ≠ full := fun heq => hnolink t (heq ▸ ht)
    have hgone := hrem.2.1 l
    rw [if_pos rfl, Fs.get_removeEntry, if_neg hne, ht] at hgone
    cases hgone
  · intro ⟨l', hl', hno⟩
    obtain rfl : l = l' := Option.some.inj (hl.symm.trans hl')
    obtain rfl := hsame hno
    exact ⟨full, hl, hfull, Fs.get_removeEntry fs full, rfl⟩

end Named

/-! ## Renaming -/

section Renaming

variable {x : Export} {fs fs' : Fs} {src dst : RelPath} {srcFull dstFull : Loc}

section

variable (h : fs.rename srcFull dstFull = .ok ((), fs'))
include h

/-- What the destination holds after a rename is what the source path led to. -/
theorem get_dst_of_rename : fs'.get dstFull = fs.get srcFull := by
  obtain ⟨_, ⟨hsame, rfl⟩ | ⟨h₁, h₂, _, rfl⟩⟩ := Fs.rename_ok h
  · rw [Fs.get_touch]
    rcases hsame with rfl | ⟨_, _, ino, hs, hd⟩
    · rfl
    · rw [hs, hd]
  · rw [Fs.get_moveEntry fs h₁ h₂, if_pos List.prefix_rfl, List.drop_length, List.append_nil]

/-- The entries were moved as asked, unless source and destination are two names of one
file. -/
theorem movedExactly_of_rename
    (htwo : ¬ fs.TwoNames srcFull dstFull) : MovedExactly fs fs' srcFull dstFull := by
  obtain ⟨hsrc, ⟨heq | ⟨_, htwo'⟩, rfl⟩ | ⟨h₁, h₂, _, rfl⟩⟩ := Fs.rename_ok h
  · refine ⟨hsrc, fun q => ?_, rfl⟩
    rw [if_pos heq, Fs.get_touch]
  · exact absurd htwo' htwo
  · refine ⟨hsrc, fun q => ?_, rfl⟩
    have hne : srcFull ≠ dstFull := fun heq => h₁ (heq ▸ List.prefix_rfl)
    rw [if_neg hne, Fs.get_moveEntry fs h₁ h₂]

theorem not_movedExactly_of_twoNames
    (htwo : fs.TwoNames srcFull dstFull) : ¬ MovedExactly fs fs' srcFull dstFull := by
  intro hmoved
  obtain ⟨hsrc, ⟨heq | ⟨hno, _⟩, rfl⟩ | ⟨_, _, hno, _⟩⟩ := Fs.rename_ok h
  · exact htwo.1 heq
  · have hgone := hmoved.2.1 srcFull
    rw [if_neg htwo.1, if_neg hno, if_pos List.prefix_rfl, Fs.get_touch] at hgone
    exact hsrc hgone
  · exact hno htwo

end

/-- A renamed entry was the entry named exactly when that is no link and not another
name of the file at the destination. -/
theorem movedExactly_iff (hroot : fs.canonicalize x.root = .ok x.root)
    (hsrc : x.resolve fs src = .ok srcFull) (hdst : x.resolveNew fs dst = .ok dstFull)
    (h : fs.rename srcFull dstFull = .ok ((), fs')) {replace : Bool} :
    ActsOnNamed fs fs' x.root (.rename src dst replace) ↔
      ActsOk fs x.root (.rename src dst replace) := by
  have hld := namedEntry_of_resolveNew hroot hdst
  rw [ActsOnNamed, ActsOk]
  obtain ⟨hv, ⟨hr, _⟩ | ⟨hr, hcanon, _⟩⟩ := Export.resolve_ok hsrc
  · rw [NamesNoLink, namedEntry_root hr]
    simp
  obtain ⟨l, hl, hsame, hnolink⟩ := namedEntry_of_canonicalize hv hr hcanon
  have hget := get_dst_of_rename h
  constructor
  · intro ⟨ls, ld, hls, hld', hmoved⟩
    obtain rfl : l = ls := Option.some.inj (hl.symm.trans hls)
    obtain rfl : dstFull = ld := Option.some.inj (hld.symm.trans hld')
    -- the destination would hold the link, but it holds what the link led to
    have hno : ∀ t, fs.get l ≠ some (.symlink t) := by
      intro t ht
      have hthere := hmoved.2.1 dstFull
      rw [hget, if_pos List.prefix_rfl, List.drop_length, List.append_nil, ht] at hthere
      by_cases heq : l = dstFull
      · rw [if_pos heq, ← heq, ht] at hthere
        exact hnolink t hthere
      · rw [if_neg heq] at hthere
        exact hnolink t hthere
    obtain rfl := hsame hno
    refine ⟨⟨srcFull, hl, hno⟩, fun ls ld hls' hld'' htwo => ?_⟩
    obtain rfl : srcFull = ls := Option.some.inj (hl.symm.trans hls')
    obtain rfl : dstFull = ld := Option.some.inj (hld.symm.trans hld'')
    exact not_movedExactly_of_twoNames h htwo hmoved
  · intro ⟨⟨l', hl', hno⟩, htwo⟩
    obtain rfl : l = l' := Option.some.inj (hl.symm.trans hl')
    obtain rfl := hsame hno
    exact ⟨srcFull, dstFull, hl, hld, movedExactly_of_rename h (htwo srcFull dstFull hl hld)⟩

end Renaming

namespace Ctx

open Act

variable {x : Export} {c c' : Ctx}

/-- The requests that remove or move entries. -/
def IsNamespaceOp : Request → Prop
  | .unlink _ | .rmdir _ | .rename _ _ _ => True
  | _ => False

/-- **Namespace operations act on the entry they name** exactly when that entry is no
symbolic link and a rename is not between two names of one file. -/
theorem actsOnNamed_iff (hroot : c.fs.canonicalize x.root = .ok x.root) {req : Request}
    {r : Option Response} (hreq : IsNamespaceOp req) (h : handle x req c = .ok r c') :
    ActsOnNamed c.fs c'.fs x.root req ↔ ActsOk c.fs x.root req := by
  cases req with
  | unlink path =>
    obtain ⟨full, hres, hrem⟩ := of_handle_unlink h
    obtain ⟨⟨hne, -⟩, heq⟩ := Fs.removeFile_ok hrem
    rw [heq]
    exact removedExactly_iff hres hne
  | rmdir path =>
    obtain ⟨-, -, full, hres, hrem⟩ := of_handle_rmdir h
    obtain ⟨⟨hdir, -⟩, heq⟩ := Fs.removeDir_ok hrem
    rw [heq]
    exact removedExactly_iff hres (by simp [hdir])
  | rename src dst replace =>
    obtain ⟨srcFull, dstFull, hsrc, hdst, hren⟩ := of_handle_rename h
    exact movedExactly_iff hroot hsrc hdst hren
  | _ => exact absurd hreq id

/-- `/srv` with a file `f` and a link `s` to it. -/
def linkToFile : Ctx where
  toAgent := .ofTree
    [([], .dir), ([['s', 'r', 'v']], .dir), ([['s', 'r', 'v'], ['f']], .file 0),
      ([['s', 'r', 'v'], ['s']], .symlink ['f'])] [[1, 2, 3]]
  me := .first

/-- Removing the file itself. -/
theorem actsOnNamed_unlink_file :
    ∃ c', handle .srv (.unlink ⟨['f']⟩) linkToFile = .ok (some .ok) c' ∧
      ActsOk linkToFile.fs Export.srv.root (.unlink ⟨['f']⟩) ∧
      ActsOnNamed linkToFile.fs c'.fs Export.srv.root (.unlink ⟨['f']⟩) := by
  have hok : ActsOk linkToFile.fs Export.srv.root (.unlink ⟨['f']⟩) :=
    ⟨[['s', 'r', 'v'], ['f']], by decide, fun t ht => by cases ht⟩
  have hreq : IsNamespaceOp (.unlink ⟨['f']⟩) := trivial
  exact ⟨_, rfl, hok, (actsOnNamed_iff rfl hreq rfl).mpr hok⟩

/-- Removing the link removes the file it points to, and the link stays. -/
theorem unlink_removes_target :
    LinksInside linkToFile.fs Export.srv.root ∧
      ∃ c', handle .srv (.unlink ⟨['s']⟩) linkToFile = .ok (some .ok) c' ∧
        namedEntry linkToFile.fs Export.srv.root ⟨['s']⟩ = some [['s', 'r', 'v'], ['s']] ∧
        c'.fs.get [['s', 'r', 'v'], ['s']] = some (.symlink ['f']) ∧
        linkToFile.fs.get [['s', 'r', 'v'], ['f']] = some (.file 0) ∧
        c'.fs.get [['s', 'r', 'v'], ['f']] = none ∧
        ¬ ActsOnNamed linkToFile.fs c'.fs Export.srv.root (.unlink ⟨['s']⟩) := by
  refine ⟨?_, _, rfl, by decide, by decide, by decide, by decide, ?_⟩
  · intro l t l' _ hlink hl'
    obtain ⟨rfl, rfl⟩ : l = [['s', 'r', 'v'], ['s']] ∧ t = ['f'] := by
      simpa [linkToFile, Agent.ofTree] using PathMap.mem_of_get hlink
    have hleaf : linkToFile.fs.leaf true [['s', 'r', 'v'], ['s']] =
        .found [['s', 'r', 'v'], ['f']] := by decide
    rw [hleaf] at hl'
    simp only [Walk.found.injEq, reduceCtorEq, or_false] at hl'
    subst hl'
    decide
  · intro ⟨l, hl, hrem⟩
    obtain rfl : [['s', 'r', 'v'], ['s']] = l := Option.some.inj (by rw [← hl]; decide)
    have hgone := hrem.2.1 [['s', 'r', 'v'], ['s']]
    revert hgone
    decide

end Ctx
end AlloyFs
