import AlloyFs.Os.Disk

/-!
# The entries a path looks up

Following a path looks one name after the other up in its directory, and the names of a link's
target in between.  `looks` lists these lookups, each with the names that are still to follow
behind it.  They decide where the path leads, and whether it leads anywhere: an entry that is
made where no path looks changes nothing, and one that goes away can only take a path's file
away.
-/

namespace AlloyFs

namespace Fs

/-- The lookups on the way from a directory; `next` continues behind a link. -/
def looksIn (fs : Fs) (next : Loc → List Name → List (Loc × List Name)) :
    Loc → List Name → List (Loc × List Name)
  | _, [] => []
  | at_, c :: rest =>
    if c = [] ∨ c = ['.'] then looksIn fs next at_ rest
    else if c = ['.', '.'] then looksIn fs next at_.dropLast rest
    else
      (at_ ++ [c], rest) ::
        match fs.get (at_ ++ [c]) with
        | some .dir => looksIn fs next (at_ ++ [c]) rest
        | some (.symlink t) => next (targetStart at_ t) (targetComps t ++ rest)
        | _ => []

/-- The entries that are looked up from a directory, through at most `n` links, each with the
names still to follow. -/
def looks (fs : Fs) : ℕ → Loc → List Name → List (Loc × List Name)
  | 0 => looksIn fs fun _ _ => []
  | n + 1 => looksIn fs (looks fs n)

variable {fs fs' : Fs} {n : ℕ} {at_ l q : Loc} {c : Name} {rest todo : List Name}

theorem looks_skip (hc : c = [] ∨ c = ['.']) :
    fs.looks n at_ (c :: rest) = fs.looks n at_ rest := by
  cases n <;> rw [looks, looksIn, if_pos hc]

theorem looks_up : fs.looks n at_ (['.', '.'] :: rest) = fs.looks n at_.dropLast rest := by
  cases n <;> rw [looks, looksIn, if_neg (by decide), if_pos rfl]

theorem mem_looks_name (hc : Ordinary c) : (at_ ++ [c], rest) ∈ fs.looks n at_ (c :: rest) := by
  cases n <;> rw [looks, looksIn, if_neg (by simp [hc.1, hc.2.1]), if_neg hc.2.2] <;>
    exact List.mem_cons_self

theorem looks_down (hc : Ordinary c) (h : fs.get (at_ ++ [c]) = some .dir) {s : Loc × List Name}
    (hs : s ∈ fs.looks n (at_ ++ [c]) rest) : s ∈ fs.looks n at_ (c :: rest) := by
  cases n <;> rw [looks, looksIn, if_neg (by simp [hc.1, hc.2.1]), if_neg hc.2.2, h] <;>
    exact List.mem_cons_of_mem _ hs

theorem looks_link (hc : Ordinary c) {t : Text} (h : fs.get (at_ ++ [c]) = some (.symlink t))
    {s : Loc × List Name} (hs : s ∈ fs.looks n (targetStart at_ t) (targetComps t ++ rest)) :
    s ∈ fs.looks (n + 1) at_ (c :: rest) := by
  rw [looks, looksIn, if_neg (by simp [hc.1, hc.2.1]), if_neg hc.2.2, h]
  exact List.mem_cons_of_mem _ hs

/-- What is at a location leads the names behind it to no file: it is a file itself, and names
follow, or a directory from which they find none. -/
def Blind (fs : Fs) (l : Loc) (rest : List Name) : Prop :=
  (∃ i, fs.get l = some (.file i)) ∧ rest ≠ [] ∨
    fs.get l = some .dir ∧ ∀ n q i, fs.walk n l rest = .found q → fs.get q ≠ some (.file i)

theorem blind_of_empty (hdir : fs.get l = some .dir) (hempty : ∀ c, fs.get (l ++ [c]) = none)
    (hrest : ['.', '.'] ∉ rest) : fs.Blind l rest := by
  refine .inr ⟨hdir, fun n q i => ?_⟩
  have hd : fs.isDir l = true := by simp [isDir, hdir]
  induction rest with
  | nil =>
    rw [walk_nil hd]
    intro hq
    cases hq
    simp [hdir]
  | cons c rest ih =>
    have htail : ['.', '.'] ∉ rest := fun h => hrest (List.mem_cons_of_mem _ h)
    by_cases hskip : c = [] ∨ c = ['.']
    · rw [walk_skip hd hskip]
      exact ih htail
    · have hup : c ≠ ['.', '.'] := fun h => hrest (h ▸ List.mem_cons_self)
      rw [walk_name hd ⟨fun h => hskip (.inl h), fun h => hskip (.inr h), hup⟩, hempty]
      intro hq
      dsimp only at hq
      split at hq <;> cases hq

theorem Sane.dir_dropLast (hs : fs.Sane) (h : fs.get l = some .dir) :
    fs.get l.dropLast = some .dir := by
  rcases List.eq_nil_or_concat' l with rfl | ⟨d, c, rfl⟩
  · exact h
  · rw [List.dropLast_concat]
    exact hs.parent _ _ _ h

theorem Sane.dir_targetStart (hs : fs.Sane) (h : fs.get at_ = some .dir) (t : Text) :
    fs.get (targetStart at_ t) = some .dir := by
  rw [targetStart]
  split
  · exact hs.top
  · exact h

/-- **A path that leads to a file led there before**, if what it looks up was there before, has
gone away, or is blind. -/
theorem found_of_looks (hs : fs.Sane) {i : ℕ}
    (hlook : ∀ s ∈ fs.looks n at_ todo, fs'.get s.1 = fs.get s.1 ∨ fs'.get s.1 = none ∨
      fs'.Blind s.1 s.2)
    (hat : fs.get at_ = some .dir) (hw : fs'.walk n at_ todo = .found q)
    (hq : fs'.get q = some (.file i)) :
    fs.walk n at_ todo = .found q ∧ fs.get q = some (.file i) := by
  -- what is seen after a lookup was seen before, unless it is blind
  have hseen : ∀ {s : Loc × List Name} {nd : Node}, (fs'.get s.1 = fs.get s.1 ∨
      fs'.get s.1 = none ∨ fs'.Blind s.1 s.2) → fs'.get s.1 = some nd →
      fs.get s.1 = some nd ∨ fs'.Blind s.1 s.2 := by
    rintro s nd (h | h | h) hnd
    · exact .inl (h ▸ hnd)
    · rw [h] at hnd
      cases hnd
    · exact .inr h
  have hall : ∀ n at_ todo, fs.get at_ = some .dir →
      (∀ s ∈ fs.looks n at_ todo, fs'.get s.1 = fs.get s.1 ∨ fs'.get s.1 = none ∨
        fs'.Blind s.1 s.2) →
      fs'.walk n at_ todo = .found q → fs.walk n at_ todo = .found q ∧
      fs.get q = some (.file i) := by
    refine walk_induction (P := fun n at_ todo w => fs.get at_ = some .dir →
      (∀ s ∈ fs.looks n at_ todo, fs'.get s.1 = fs.get s.1 ∨ fs'.get s.1 = none ∨
        fs'.Blind s.1 s.2) →
      w = .found q → fs.walk n at_ todo = .found q ∧
      fs.get q = some (.file i)) ?_ ?_ ?_ ?_ ?_ ?_ ?_ ?_
    · intro n at_ todo e _ _ h
      cases h
    · intro n at_ hd _ _ h
      cases h
      rw [isDir, hq] at hd
      cases hd
    · intro n at_ c rest _ hc ih hat hlook h
      rw [looks_skip hc] at hlook
      rw [walk_skip (by simp [isDir, hat]) hc]
      exact ih hat hlook h
    · intro n at_ rest _ ih hat hlook h
      rw [looks_up] at hlook
      rw [walk_up (by simp [isDir, hat])]
      exact ih (hs.dir_dropLast hat) hlook h
    · intro n at_ c _ _ _ _ _ h
      cases h
    · intro n at_ c rest _ hc hnext ih hat hlook h
      rcases hseen (hlook _ (mem_looks_name hc)) hnext with hold | hblind
      · rw [walk_name (by simp [isDir, hat]) hc, hold]
        exact ih hold (fun s hs => hlook s (looks_down hc hold hs)) h
      · rcases hblind with ⟨⟨j, hj⟩, _⟩ | ⟨_, hnone⟩
        · rw [hnext] at hj
          cases hj
        · exact absurd hq (hnone n q i h)
    · intro n at_ c ino _ hc hfile hat hlook h
      cases h
      rcases hseen (hlook _ (mem_looks_name hc)) hfile with hold | hblind
      · rw [walk_name (by simp [isDir, hat]) hc, hold]
        rw [hfile] at hq
        exact ⟨rfl, hq⟩
      · rcases hblind with ⟨_, hne⟩ | ⟨hdir, _⟩
        · exact absurd rfl hne
        · rw [hfile] at hdir
          cases hdir
    · intro n at_ c rest t _ hc hlink ih hat hlook h
      rcases hseen (hlook _ (mem_looks_name hc)) hlink with hold | hblind
      · rw [walk_name (by simp [isDir, hat]) hc, hold]
        exact ih (hs.dir_targetStart hat t) (fun s hs => hlook s (looks_link hc hold hs)) h
      · rcases hblind with ⟨⟨j, hj⟩, _⟩ | ⟨hdir, _⟩
        · rw [hlink] at hj
          cases hj
        · rw [hlink] at hdir
          cases hdir
  exact hall n at_ todo hat hlook hw

end Fs
end AlloyFs
