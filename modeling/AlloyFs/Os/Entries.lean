import AlloyFs.Os.Beside

/-!
# What calls do to the entries of a tree

Making files and directories leaves every entry that is there where it is.  Removing takes one
entry away.  And a rename takes its source along with all that is below it, puts it in place of
what was at its destination, and leaves the rest.
-/

namespace AlloyFs
namespace Fs

variable {fs fs' fs'' : Fs} {l src dst : Loc} {n : Node} {u : Unit}

/-- Every entry is still there. -/
def Grows (fs fs' : Fs) : Prop := ∀ l n, fs.get l = some n → fs'.get l = some n

theorem Grows.refl (fs : Fs) : Grows fs fs := fun _ _ h => h

theorem Grows.trans (h : Grows fs fs') (h' : Grows fs' fs'') : Grows fs fs'' :=
  fun l n hn => h' l n (h l n hn)

theorem Grows.of_tree (h : fs'.tree = fs.tree) : Grows fs fs' :=
  fun l _ hn => (get_of_tree h l).trans hn

theorem grows_put (hvac : fs.get l = none) (hfs : fs'.tree = PathMap.put fs.tree l n) :
    Grows fs fs' := by
  intro q m hm
  have hne : q ≠ l := by
    rintro rfl
    rw [hvac] at hm
    cases hm
  rw [get, hfs, PathMap.get_put_of_ne _ _ hne]
  exact hm

theorem grows_makeEntry (h : fs.makeEntry l n = .ok (u, fs')) :
    Grows fs fs' := by
  have hvac := (leaf_vacant (leaf_of_makeEntry h)).2
  obtain rfl := makeEntry_ok h
  exact grows_put hvac rfl

theorem grows_createNew {r : Loc × ℕ} (h : fs.createNew l = .ok (r, fs')) : Grows fs fs' := by
  have hvac := (leaf_vacant (leaf_of_createNew h)).2
  obtain ⟨-, rfl⟩ := createNew_ok h
  exact grows_put hvac rfl

theorem Sane.grows_openCreate (hs : fs.Sane) {trunc : Bool} {r : Loc × ℕ}
    (h : fs.openCreate l trunc = .ok (r, fs')) : Grows fs fs' := by
  rcases openCreate_ok h with ⟨hv, rfl⟩ | ⟨_, _, rfl⟩
  · obtain ⟨_, _, _, _, hvac⟩ := parent_of_leaf_vacant hs hv
    exact grows_put hvac rfl
  · exact Grows.of_tree (by cases trunc <;> rfl)

theorem grows_onPath {α : Type} {full : List Name} {f : Fs → Loc → Call α}
    (hf : ∀ l a fs', f fs l = .ok (a, fs') → Grows fs fs') {a : α}
    (h : onPath full f fs = .ok (a, fs')) : Grows fs fs' := by
  obtain ⟨l, -, h⟩ := onPath_ok h
  exact hf _ _ _ h

theorem grows_ensureDirs (dirs : List (List Name)) (h : fs.ensureDirs dirs = .ok (u, fs')) :
    Grows fs fs' := by
  refine ensureDirs_induction (P := Grows fs) dirs (fun fs₁ a fs₂ dir _ hg hok => ?_) fs fs' u
    (Grows.refl fs) h
  rcases ensureDir_ok hok with ⟨l, -, hmade⟩ | rfl
  · exact hg.trans (grows_makeEntry hmade)
  · exact hg

theorem old_of_makeEntry {m : Node} (h : fs.makeEntry src n = .ok (u, fs'))
    (hm : fs'.get l = some m) : fs.get l = some m ∨ m = n := by
  obtain rfl := makeEntry_ok h
  rw [get_touch, get] at hm
  by_cases heq : l = src
  · rw [heq, PathMap.get_put_self] at hm
    exact .inr (Option.some.inj hm).symm
  · rw [PathMap.get_put_of_ne _ _ heq] at hm
    exact .inl hm

theorem NoLinks.ensureDirs {dirs : List (List Name)} (hno : fs.NoLinks l)
    (h : fs.ensureDirs dirs = .ok (u, fs')) : fs'.NoLinks l := by
  refine ensureDirs_induction (P := fun fs => fs.NoLinks l) dirs (fun fs₁ a fs₂ dir _ hno hok => ?_)
    fs fs' u hno h
  rcases ensureDir_ok hok with ⟨l', -, hmade⟩ | rfl
  · intro q hq t ht
    rcases old_of_makeEntry hmade ht with hold | hnew
    · exact hno q hq t hold
    · cases hnew
  · exact hno

/-! ## Removing -/

theorem get_of_removeFile (h : fs.removeFile src = .ok (u, fs')) (hne : l ≠ src) :
    fs'.get l = fs.get l := by
  obtain ⟨_, rfl⟩ := removeFile_ok h
  rw [get_removeEntry, if_neg hne]

theorem get_of_removeDir (h : fs.removeDir src = .ok (u, fs')) (hne : l ≠ src) :
    fs'.get l = fs.get l := by
  obtain ⟨_, rfl⟩ := removeDir_ok h
  rw [get_removeEntry, if_neg hne]

theorem empty_of_removeDir (h : fs.removeDir src = .ok (u, fs')) (hq : src <+: l)
    (hne : l ≠ src) : fs.get l = none :=
  PathMap.get_of_not_below (removeDir_ok h).1.2 hq hne

/-! ## Renaming -/

theorem replaced_of_rename (h : fs.rename src dst = .ok (u, fs')) (hne : src ≠ dst)
    (hdir : fs.get dst = some .dir) :
    fs.get src = some .dir ∧ PathMap.below fs.tree dst = false := by
  rw [rename] at h
  split at h
  · next ls ld hls hld =>
    obtain ⟨rfl, _⟩ := leaf_found hls
    obtain ⟨rfl, _⟩ := leaf_found hld
    split at h
    · next n hn =>
      unfold renameTo at h
      rw [if_neg hne, hdir] at h
      split at h
      · cases h
      · split at h
        · cases h
        · simp only at h
          split at h
          · cases h
          · next hnd =>
            split at h
            · cases h
            · next hempty =>
              rw [hn, not_not.mp hnd]
              exact ⟨rfl, by simpa using hempty⟩
    · cases h
  · next ls ld hls hld =>
    obtain ⟨rfl, hnone⟩ := leaf_vacant hld
    rw [hdir] at hnone
    cases hnone
  · cases h
  · cases h
  · cases h

theorem Sane.below_of_rename (hs : fs.Sane) (h : fs.rename src dst = .ok (u, fs'))
    (hne : src ≠ dst) (hq : dst <+: l) (hl : l ≠ dst) : fs.get l = none := by
  by_cases hdir : fs.get dst = some .dir
  · exact PathMap.get_of_not_below (replaced_of_rename h hne hdir).2 hq hl
  · exact hs.get_below hdir hq hl

/-- **What is neither moved nor replaced stays.** -/
theorem Sane.get_of_rename (hs : fs.Sane) (h : fs.rename src dst = .ok (u, fs'))
    (hget : fs.get l = some n) (hsrc : ¬ src <+: l) (hdst : l ≠ dst) : fs'.get l = some n := by
  obtain ⟨_, ⟨_, rfl⟩ | ⟨h₁, h₂, _, rfl⟩⟩ := rename_ok h
  · exact hget
  · rw [get_moveEntry fs h₁ h₂, if_neg, if_neg hsrc, hget]
    intro hq
    have hne : src ≠ dst := fun heq => h₁ (heq ▸ List.prefix_rfl)
    rw [hs.below_of_rename h hne hq hdst] at hget
    cases hget

theorem Sane.dir_of_rename (hs : fs.Sane) (h : fs.rename src dst = .ok (u, fs'))
    (hget : fs.get l = some .dir) (hsrc : ¬ src <+: l) : fs'.get l = some .dir := by
  by_cases hl : l = dst
  · subst hl
    obtain ⟨_, ⟨_, rfl⟩ | ⟨h₁, h₂, _, rfl⟩⟩ := rename_ok h
    · exact hget
    · have hne : src ≠ l := fun heq => h₁ (heq ▸ List.prefix_rfl)
      rw [get_moveEntry fs h₁ h₂, if_pos List.prefix_rfl, List.drop_length, List.append_nil]
      exact (replaced_of_rename h hne hget).1
  · exact hs.get_of_rename h hget hsrc hl

/-- **What is moved is found below the destination.** -/
theorem Sane.moved_of_rename (hs : fs.Sane) (h : fs.rename src dst = .ok (u, fs'))
    {t : List Name} (hget : fs.get (src ++ t) = some n) : fs'.get (dst ++ t) = some n := by
  obtain ⟨_, ⟨hsame, rfl⟩ | ⟨h₁, h₂, _, rfl⟩⟩ := rename_ok h
  · rw [get_touch]
    rcases hsame with rfl | ⟨_, _, ino, hsrc, hdst⟩
    · exact hget
    · -- two names of one file, which has nothing below it
      have ht : t = [] := by
        by_contra hne
        rw [hs.get_below (by rw [hsrc]; simp) (List.prefix_append src t) (by simpa using hne)]
          at hget
        cases hget
      subst ht
      rw [List.append_nil] at hget ⊢
      rw [hdst, ← hget, hsrc]
  · rw [get_moveEntry fs h₁ h₂, if_pos (List.prefix_append dst t), List.drop_left]
    exact hget

end Fs
end AlloyFs
