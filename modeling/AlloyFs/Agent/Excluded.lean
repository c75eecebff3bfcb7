import AlloyFs.Agent.Ops
import AlloyFs.Os.Beside

/-!
# Excludes and links

The agent checks the path of a request against the excludes, and `resolve` checks the location it
leads to once more.  The second check is left out if the user has no patterns, although the
built-in ones may still apply; and what `resolve_new` returns, a name in a directory that was
resolved, is not checked at all, nor is it followed.

So whether an exclude holds depends on the names a file can be reached by.  A path that leads
where it says, or above that, is covered by the check of its text, for every set that patterns
compile to; a path that leads elsewhere is covered only as far as the second check goes, and else
there is a set which it gets around.
-/

namespace AlloyFs

/-- The path of a location below a root. -/
def relOf (root l : Loc) : RelPath := ⟨['/'].intercalate (l.drop root.length)⟩

/-- Where a path whose directory is resolved ends; a call may follow a last link or not. -/
def Fs.Lands (fs : Fs) (full l : Loc) : Prop :=
  ∃ follow, fs.leaf follow full = .found l ∨ fs.leaf follow full = .vacant l

/-- **What `resolve` and `resolve_new` let through is not excluded**, wherever in the export it
really lies. -/
def Export.Respects (x : Export) (fs : Fs) (rel : RelPath) : Prop :=
  (∀ full, x.resolve fs rel = .ok full → x.exclude.isExcluded (relOf x.root full) = false) ∧
  ∀ full l, x.resolveNew fs rel = .ok full → fs.Lands full l → x.root <+: l →
    x.exclude.isExcluded (relOf x.root l) = false

/-- A name that is local to a machine, or something below one. -/
def RelPath.isLocal (p : RelPath) : Bool := (ExcludeSet.compileWithDefaults []).isExcluded p

/-- The checks are about the place that a path leads to.  It is the path itself, or above it; or the
second check sees it under its own name, and the built-in patterns do not tell it from the path.
With an entry that may be new, the second check sees the directory. -/
def Covered (fs : Fs) (root : Loc) (rel : RelPath) : Prop :=
  (∀ full, resolveUnchecked fs root rel = .ok full → (relOf root full).Above rel ∨
    '\\' ∉ (relOf root full).text ∧
      ((relOf root full).isLocal = true → rel.isLocal = true)) ∧
  ∀ parent leaf dir l, rel.validate = true → rel.split = some (parent, leaf) →
    resolveUnchecked fs root parent = .ok dir → fs.Lands (dir ++ [leaf]) l → root <+: l →
    (relOf root l).Above rel ∨ (relOf root l).Above (stripRoot root dir) ∧
      ((relOf root l).isLocal = true → rel.isLocal = true)

namespace Export

variable {x : Export} {fs : Fs} {root : Loc} {rel : RelPath} {full l : Loc}

/-! ## What has been checked -/

theorem of_resolve (h : x.resolve fs rel = .ok full) :
    x.exclude.isExcluded rel = false ∧ resolveUnchecked fs x.root rel = .ok full ∧
      (x.exclude.empty = false → x.exclude.isExcluded (stripRoot x.root full) = false) := by
  rw [resolve] at h
  split at h
  · cases h
  · next hrel =>
    split at h
    · cases h
    · next full' hfull =>
      split at h
      · cases h
      · next hcheck =>
        cases h
        refine ⟨by simpa using hrel, hfull, fun hempty => ?_⟩
        simpa using fun hex => hcheck ⟨hempty, hex⟩

theorem of_resolveNew (h : x.resolveNew fs rel = .ok full) :
    x.exclude.isExcluded rel = false ∧ rel.validate = true ∧ ∃ parent leaf dir,
      rel.split = some (parent, leaf) ∧ x.resolve fs parent = .ok dir ∧ full = dir ++ [leaf] := by
  rw [resolveNew] at h
  split at h
  · cases h
  · next hrel =>
    split at h
    · cases h
    · next hvalid =>
      split at h
      · cases h
      · next parent leaf hsplit =>
        split at h
        · cases h
        · next dir hdir =>
          cases h
          exact ⟨by simpa using hrel, by simpa using hvalid, parent, leaf, dir, hsplit, hdir, rfl⟩

theorem stripRoot_eq_relOf (h : '\\' ∉ (relOf root l).text) : stripRoot root l = relOf root l := by
  rw [stripRoot, relOf, RelPath.mk.injEq]
  refine (List.map_congr_left fun c hc => if_neg ?_).trans (List.map_id _)
  rintro rfl
  exact h hc

theorem backslash_notMem_stripRoot (root full : Loc) : '\\' ∉ (stripRoot root full).text := by
  intro h
  obtain ⟨c, -, hc⟩ := List.mem_map.mp h
  split at hc
  · cases hc
  · next hne => exact hne hc

theorem above_of_split {parent : RelPath} {leaf : Name} (hvalid : rel.validate = true)
    (hsplit : rel.split = some (parent, leaf)) : parent.Above rel := by
  rw [RelPath.Above, RelPath.pushed_of_split hvalid hsplit]
  exact List.prefix_append _ _

/-- What neither a pattern of the user nor a built-in one hides is not excluded. -/
theorem free_of_checks (hx : x.exclude.Built) (hrel : x.exclude.isExcluded rel = false)
    {p : RelPath} (huser : x.exclude.empty = false → x.exclude.isExcluded p = false)
    (hlocal : p.isLocal = true → rel.isLocal = true) : x.exclude.isExcluded p = false := by
  obtain ⟨patterns, hx⟩ := hx
  cases patterns with
  | cons t ts =>
    refine huser ?_
    rcases hx with hx | hx <;> rw [hx] <;> rfl
  | nil =>
    rcases hx with hx | hx
    · rw [hx, ExcludeSet.isExcluded_compile]
      rfl
    · rw [hx] at hrel ⊢
      by_contra hp
      exact Bool.false_ne_true (hrel.symm.trans (hlocal (by simpa [RelPath.isLocal] using hp)))

theorem respects_of_covered (hx : x.exclude.Built) (h : Covered fs x.root rel) :
    x.Respects fs rel := by
  constructor
  · intro full hfull
    obtain ⟨hrel, hunchecked, hcheck⟩ := of_resolve hfull
    rcases h.1 full hunchecked with habove | ⟨hslash, hlocal⟩
    · exact hx.above habove hrel
    · exact free_of_checks hx hrel (fun hempty => stripRoot_eq_relOf hslash ▸ hcheck hempty) hlocal
  · intro full l hfull hl hin
    obtain ⟨hrel, hvalid, parent, leaf, dir, hsplit, hdir, rfl⟩ := of_resolveNew hfull
    obtain ⟨hparent, hunchecked, hcheck⟩ := of_resolve hdir
    rcases h.2 parent leaf dir l hvalid hsplit hunchecked hl hin with habove | ⟨habove, hlocal⟩
    · exact hx.above habove hrel
    · exact free_of_checks hx hrel (fun hempty => hx.above habove (hcheck hempty)) hlocal

/-! ## A set that is got around -/

/-- An export with these excludes. -/
def excluding (root : Loc) (set : ExcludeSet) : Export :=
  ⟨[], root, false, set, ⟨[], [], none, none⟩⟩

theorem resolve_eq_ok {x : Export} (hrel : x.exclude.isExcluded rel = false)
    (hfull : resolveUnchecked fs x.root rel = .ok full)
    (hcheck : x.exclude.empty = false → x.exclude.isExcluded (stripRoot x.root full) = false) :
    x.resolve fs rel = .ok full := by
  have hno : ¬ (x.exclude.empty = false ∧ x.exclude.isExcluded (stripRoot x.root full) = true) :=
    fun h => Bool.false_ne_true ((hcheck h.1).symm.trans h.2)
  simp only [resolve, hrel, hfull, Bool.false_eq_true, if_false, if_neg hno]

theorem resolveNew_eq_ok {x : Export} {parent : RelPath} {leaf : Name} {dir : Loc}
    (hrel : x.exclude.isExcluded rel = false) (hvalid : rel.validate = true)
    (hsplit : rel.split = some (parent, leaf)) (hdir : x.resolve fs parent = .ok dir) :
    x.resolveNew fs rel = .ok (dir ++ [leaf]) := by
  simp [resolveNew, hrel, hvalid, hsplit, hdir]

/-- Where a path leads elsewhere, the set that conceals this place is got around, or the built-in
patterns are. -/
theorem covered_of_respects
    (h : ∀ x : Export, x.root = root → x.exclude.Built → x.Respects fs rel) :
    Covered fs root rel := by
  have hconceal := fun p => h (excluding root (.concealing p)) rfl ⟨_, .inl rfl⟩
  have hbuiltIn := h (excluding root (.compileWithDefaults [])) rfl ⟨_, .inr rfl⟩
  constructor
  · intro full hfull
    by_cases habove : (relOf root full).Above rel
    · exact .inl habove
    refine .inr ⟨fun hslash => ?_, fun hlocal => ?_⟩
    · -- the second check sees another name
      have hstrip : ¬ (relOf root full).Above (stripRoot root full) := fun hstrip =>
        backslash_notMem_stripRoot root full (hstrip.text.subset hslash)
      have hres := (hconceal (relOf root full)).1 full (resolve_eq_ok
        (ExcludeSet.concealing_apart habove) hfull fun _ => ExcludeSet.concealing_apart hstrip)
      exact Bool.false_ne_true (hres.symm.trans (ExcludeSet.concealing_self habove))
    · by_contra hrel
      have hfree : (ExcludeSet.compileWithDefaults []).isExcluded rel = false := by
        simpa [RelPath.isLocal] using hrel
      have hres := hbuiltIn.1 full (resolve_eq_ok hfree hfull fun h => by cases h)
      exact Bool.false_ne_true (hres.symm.trans hlocal)
  · intro parent leaf dir l hvalid hsplit hdir hl hin
    have hparent := above_of_split hvalid hsplit
    by_cases habove : (relOf root l).Above rel
    · exact .inl habove
    refine .inr ⟨?_, fun hlocal => ?_⟩
    · by_contra hstrip
      have hresolve := resolve_eq_ok (x := excluding root (.concealing (relOf root l)))
        (ExcludeSet.concealing_apart fun hp => habove (hp.trans hparent)) hdir
        fun _ => ExcludeSet.concealing_apart hstrip
      have hres := (hconceal (relOf root l)).2 _ l
        (resolveNew_eq_ok (ExcludeSet.concealing_apart habove) hvalid hsplit hresolve) hl hin
      exact Bool.false_ne_true (hres.symm.trans (ExcludeSet.concealing_self habove))
    · by_contra hrel
      have hfree : (ExcludeSet.compileWithDefaults []).isExcluded rel = false := by
        simpa [RelPath.isLocal] using hrel
      have hresolve := resolve_eq_ok (x := excluding root (.compileWithDefaults []))
        (ExcludeSet.Built.above ⟨_, .inr rfl⟩ hparent hfree) hdir fun h => by cases h
      have hres := hbuiltIn.2 _ l (resolveNew_eq_ok hfree hvalid hsplit hresolve) hl hin
      exact Bool.false_ne_true (hres.symm.trans hlocal)

/-! ## Excludes by where a path leads -/

theorem relOf_pushed (root : Loc) (rel : RelPath) : relOf root (root ++ rel.pushed) = rel := by
  obtain ⟨text⟩ := rel
  rw [relOf, List.drop_left, RelPath.mk.injEq]
  cases text with
  | nil => rfl
  | cons c cs => exact List.intercalate_splitOn '/'

theorem resolveUnchecked_of_noLinks (hroot : ∀ c ∈ root, Fs.Ordinary c)
    (hno : fs.NoLinks (root ++ rel.pushed)) (h : resolveUnchecked fs root rel = .ok full) :
    full = root ++ rel.pushed := by
  rw [resolveUnchecked] at h
  cases hvalid : rel.validate with
  | false =>
    rw [if_pos hvalid] at h
    cases h
  | true =>
    rw [if_neg (by simp [hvalid])] at h
    cases hr : rel.isRoot with
    | true =>
      rw [if_pos hr] at h
      cases h
      rw [RelPath.pushed, if_pos hr, List.append_nil]
    | false =>
      rw [if_neg (by simp [hr])] at h
      have hpushed : rel.pushed = rel.comps := if_neg (by simp [hr])
      have hord : ∀ c ∈ root ++ rel.pushed, Fs.Ordinary c := by
        intro c hc
        rcases List.mem_append.mp hc with hc | hc
        · exact hroot c hc
        · exact RelPath.mem_comps_of_validate hvalid hr (hpushed ▸ hc)
      split at h
      · cases h
      · next canon hcanon =>
        split at h
        · cases h
          exact Fs.canonicalize_eq hord hno hcanon
        · cases h

theorem covered_of_noLinks (hroot : ∀ c ∈ root, Fs.Ordinary c)
    (h : fs.NoLinks (root ++ rel.pushed)) : Covered fs root rel := by
  constructor
  · intro full hfull
    rw [resolveUnchecked_of_noLinks hroot h hfull, relOf_pushed]
    exact .inl List.prefix_rfl
  · intro parent leaf dir l hvalid hsplit hdir hl hin
    have hpushed : root ++ rel.pushed = root ++ parent.pushed ++ [leaf] := by
      rw [RelPath.pushed_of_split hvalid hsplit, List.append_assoc]
    have hno : fs.NoLinks (root ++ parent.pushed) := h.mono (hpushed ▸ List.prefix_append _ _)
    obtain rfl := resolveUnchecked_of_noLinks hroot hno hdir
    rw [← hpushed] at hl
    obtain ⟨follow, hl⟩ := hl
    have heq : l = root ++ rel.pushed := by
      have hlink : ∀ t, fs.get (root ++ rel.pushed) ≠ some (.symlink t) := h _ (List.prefix_refl _)
      rw [Fs.leaf] at hl
      split at hl
      · split at hl <;> simp_all
      · next t ht => exact absurd ht (hlink t)
      · simp_all
    rw [heq, relOf_pushed]
    exact .inl List.prefix_rfl

/-- **Excludes hold where a path really lands** for every set that patterns compile to if and only
if the checks are about the place that the path leads to.  With patterns of the user, what `resolve`
returns is not excluded, wherever the path leads, if there is no backslash in the names. -/
theorem respects_iff (fs : Fs) (root : Loc) (rel : RelPath) :
    ((∀ x : Export, x.root = root → x.exclude.Built → x.Respects fs rel) ↔ Covered fs root rel) ∧
    ∀ (x : Export) (full : Loc), x.exclude.empty = false → x.resolve fs rel = .ok full →
      '\\' ∉ (relOf x.root full).text → x.exclude.isExcluded (relOf x.root full) = false := by
  refine ⟨⟨covered_of_respects, ?_⟩, ?_⟩
  · rintro h x rfl hx
    exact respects_of_covered hx h
  · intro x full hempty hfull hslash
    rw [← stripRoot_eq_relOf hslash]
    exact (of_resolve hfull).2.2 hempty

/-! ## Three ways around -/

/-- `/srv` with the files `.DS_Store` and `secret`, the directory `q` with the file `x`, and links
to them: `a`, `b` and `p`. -/
def linkedTree : Agent :=
  .ofTree [([], .dir), (["srv".toList], .dir), (["srv".toList, ".DS_Store".toList], .file 0),
    (["srv".toList, "a".toList], .symlink ".DS_Store".toList),
    (["srv".toList, "secret".toList], .file 1),
    (["srv".toList, "b".toList], .symlink "secret".toList),
    (["srv".toList, "q".toList], .dir), (["srv".toList, "q".toList, "x".toList], .file 2),
    (["srv".toList, "p".toList], .symlink "q".toList)] [[1], [2], [3]]

/-- The export without patterns of the user. -/
def onlyBuiltIn : Export := { srv with exclude := .compileWithDefaults [] }

/-- The export without `secret` and without `q/x`. -/
def userPatterns : Export :=
  { srv with
    exclude := .compileWithDefaults
      [.name "secret", ⟨fun u => decide (u = ["q".toList, "x".toList]), false⟩] }

/-- **Excluded files are reached through another name.**  With the built-in patterns alone, `a`
resolves to `.DS_Store`.  With patterns of the user, `b` is created in the place of `secret`,
which it leads to, and `p/x` is a new entry at `q/x`. -/
theorem reached_through_links :
    (onlyBuiltIn.resolve linkedTree.fs ⟨"a".toList⟩ = .ok ["srv".toList, ".DS_Store".toList] ∧
      onlyBuiltIn.exclude.isExcluded ⟨".DS_Store".toList⟩ = true) ∧
    (userPatterns.resolveNew linkedTree.fs ⟨"b".toList⟩ = .ok ["srv".toList, "b".toList] ∧
      linkedTree.fs.leaf true ["srv".toList, "b".toList] = .found ["srv".toList, "secret".toList] ∧
      userPatterns.exclude.isExcluded ⟨"secret".toList⟩ = true) ∧
    userPatterns.resolveNew linkedTree.fs ⟨"p/x".toList⟩ =
        .ok ["srv".toList, "q".toList, "x".toList] ∧
      userPatterns.exclude.isExcluded ⟨"q/x".toList⟩ = true := by
  decide +kernel

/-- The path `secret` has no link on it, and for `p` there are patterns of the user. -/
theorem respects_secret :
    (onlyBuiltIn.Respects linkedTree.fs ⟨"secret".toList⟩ ∧
      onlyBuiltIn.resolve linkedTree.fs ⟨"secret".toList⟩ = .ok ["srv".toList, "secret".toList]) ∧
    userPatterns.resolve linkedTree.fs ⟨"p".toList⟩ = .ok ["srv".toList, "q".toList] ∧
      userPatterns.exclude.isExcluded (relOf userPatterns.root ["srv".toList, "q".toList]) =
      false := by
  have hres : userPatterns.resolve linkedTree.fs ⟨"p".toList⟩ = .ok ["srv".toList, "q".toList] := by
    decide +kernel
  have hcovered : Covered linkedTree.fs ["srv".toList] ⟨"secret".toList⟩ :=
    covered_of_noLinks (by decide) (by decide +kernel)
  refine ⟨⟨?_, by decide +kernel⟩, hres, ?_⟩
  · exact (respects_iff _ _ _).1.mpr hcovered onlyBuiltIn rfl ⟨_, .inr rfl⟩
  · exact (respects_iff _ ["srv".toList] _).2 userPatterns _ rfl hres (by decide +kernel)

end Export
end AlloyFs
