import AlloyFs.Os.Beside

/-!
# What a path passes on its way

Following a path looks at one location after the other: the directories the names lead through,
the links it finds there, and the directories those links lead through.  A path leads where it did
as long as all of these stay, whatever else is added, removed or renamed.
-/

namespace AlloyFs

open List

namespace Fs

/-- **The location `q` is passed** when components are followed from a directory. -/
inductive Passes (fs : Fs) (q : Loc) : ℕ → Loc → List Name → Prop
  | here (n : ℕ) (todo : List Name) : Passes fs q n q todo
  | skip {n : ℕ} {at_ : Loc} {c : Name} {rest : List Name} (hc : c = [] ∨ c = ['.'])
      (h : Passes fs q n at_ rest) : Passes fs q n at_ (c :: rest)
  | up {n : ℕ} {at_ : Loc} {rest : List Name} (h : Passes fs q n at_.dropLast rest) :
      Passes fs q n at_ (['.', '.'] :: rest)
  | down {n : ℕ} {at_ : Loc} {c : Name} {rest : List Name} (hc : Ordinary c)
      (hget : fs.get (at_ ++ [c]) = some .dir) (h : Passes fs q n (at_ ++ [c]) rest) :
      Passes fs q n at_ (c :: rest)
  | atLink {n : ℕ} {at_ : Loc} {c : Name} {rest : List Name} {t : Text} (hc : Ordinary c)
      (hget : fs.get (at_ ++ [c]) = some (.symlink t)) (hq : q = at_ ++ [c]) :
      Passes fs q (n + 1) at_ (c :: rest)
  | behind {n : ℕ} {at_ : Loc} {c : Name} {rest : List Name} {t : Text} (hc : Ordinary c)
      (hget : fs.get (at_ ++ [c]) = some (.symlink t))
      (h : Passes fs q n (targetStart at_ t) (targetComps t ++ rest)) :
      Passes fs q (n + 1) at_ (c :: rest)

/-- The location is passed on the way along an absolute path. -/
def PassedBy (fs : Fs) (full : List Name) (q : Loc) : Prop := fs.Passes q MAXSYMLINKS [] full

variable {fs fs' : Fs} {l d q at_ : Loc} {n : ℕ} {c : Name} {todo : List Name}

theorem isDir_iff : fs.isDir l = true ↔ fs.get l = some .dir := by
  simp [isDir]

theorem Passes.node (hp : fs.Passes q n at_ todo) (hw : fs.walk n at_ todo = .found l) :
    fs.get q = some .dir ∨ ∃ t, fs.get q = some (.symlink t) := by
  have hstart : ∀ {n : ℕ} {at_ : Loc} {todo : List Name}, fs.walk n at_ todo = .found l →
      fs.isDir at_ = true := by
    intro n at_ todo hw
    by_contra hd
    rw [walk_eq] at hw
    cases todo with
    | nil =>
      rw [walkIn, if_neg hd] at hw
      cases hw
    | cons c rest =>
      rw [walkIn, if_pos (by simpa using hd)] at hw
      cases hw
  induction hp with
  | here n todo => exact .inl (isDir_iff.mp (hstart hw))
  | skip hc h ih => exact ih (by rwa [walk_skip (hstart hw) hc] at hw)
  | up h ih => exact ih (by rwa [walk_up (hstart hw)] at hw)
  | down hc hget h ih =>
    rw [walk_name (hstart hw) hc, hget] at hw
    exact ih hw
  | atLink hc hget hq =>
    rw [hq]
    exact .inr ⟨_, hget⟩
  | behind hc hget h ih =>
    rw [walk_name (hstart hw) hc, hget] at hw
    exact ih hw

/-- **What is passed stays, and the path leads where it did.** -/
theorem walk_kept (hw : fs.walk n at_ todo = .found l) (hl : fs.get l = some .dir)
    (hkept : ∀ q node, fs.Passes q n at_ todo → fs.get q = some node → fs'.get q = some node) :
    fs'.walk n at_ todo = .found l ∧ fs'.get l = some .dir := by
  have hall : ∀ n at_ todo, ∀ l, fs.walk n at_ todo = .found l → fs.get l = some .dir →
      (∀ q node, fs.Passes q n at_ todo → fs.get q = some node → fs'.get q = some node) →
      fs'.walk n at_ todo = .found l ∧ fs'.get l = some .dir := by
    refine walk_induction
      (P := fun n at_ todo w => ∀ l, w = .found l → fs.get l = some .dir →
        (∀ q node, fs.Passes q n at_ todo → fs.get q = some node → fs'.get q = some node) →
        fs'.walk n at_ todo = .found l ∧ fs'.get l = some .dir)
      ?_ ?_ ?_ ?_ ?_ ?_ ?_ ?_
    · intro n at_ todo e l h
      cases h
    · intro n at_ hd l h hl hkept
      cases h
      have hget := hkept at_ _ (.here n []) (isDir_iff.mp hd)
      exact ⟨walk_nil (isDir_iff.mpr hget), hget⟩
    · intro n at_ c rest hd hc ih l h hl hkept
      have hget := hkept at_ _ (.here n _) (isDir_iff.mp hd)
      rw [walk_skip (isDir_iff.mpr hget) hc]
      exact ih l h hl fun q node hq => hkept q node (.skip hc hq)
    · intro n at_ rest hd ih l h hl hkept
      have hget := hkept at_ _ (.here n _) (isDir_iff.mp hd)
      rw [walk_up (isDir_iff.mpr hget)]
      exact ih l h hl fun q node hq => hkept q node (.up hq)
    · intro n at_ c _ _ _ l h
      cases h
    · intro n at_ c rest hd hc hnext ih l h hl hkept
      have hget := hkept at_ _ (.here n _) (isDir_iff.mp hd)
      rw [walk_name (isDir_iff.mpr hget) hc, hkept _ _ (.down hc hnext (.here n rest)) hnext]
      exact ih l h hl fun q node hq => hkept q node (.down hc hnext hq)
    · intro n at_ c ino hd hc hfile l h hl
      cases h
      rw [hfile] at hl
      cases hl
    · intro n at_ c rest t hd hc hlink ih l h hl hkept
      have hget := hkept at_ _ (.here (n + 1) _) (isDir_iff.mp hd)
      rw [walk_name (isDir_iff.mpr hget) hc, hkept _ _ (.atLink hc hlink rfl) hlink]
      exact ih l h hl fun q node hq => hkept q node (.behind hc hlink hq)
  exact hall n at_ todo l hw hl hkept

theorem passes_end (hw : fs.walk n at_ todo = .found l) (hl : fs.get l = some .dir) :
    fs.Passes l n at_ todo := by
  have hall : ∀ n at_ todo, fs.walk n at_ todo = .found l → fs.Passes l n at_ todo := by
    refine walk_induction (P := fun n at_ todo w => w = .found l → fs.Passes l n at_ todo)
      ?_ ?_ ?_ ?_ ?_ ?_ ?_ ?_
    · intro n at_ todo e h
      cases h
    · intro n at_ _ h
      cases h
      exact .here n []
    · exact fun n at_ c rest _ hc ih h => .skip hc (ih h)
    · exact fun n at_ rest _ ih h => .up (ih h)
    · intro n at_ c _ _ _ h
      cases h
    · exact fun n at_ c rest _ hc hnext ih h => .down hc hnext (ih h)
    · intro n at_ c ino _ _ hfile h
      cases h
      rw [hfile] at hl
      cases hl
    · exact fun n at_ c rest t _ hc hlink ih h => .behind hc hlink (ih h)
  exact hall n at_ todo hw

theorem Passes.prefix_of_noLinks (hp : fs.Passes q n at_ todo) (hc : ∀ c ∈ todo, Ordinary c)
    (hno : fs.NoLinks (at_ ++ todo)) : q <+: at_ ++ todo := by
  induction hp with
  | here n todo => exact prefix_append q todo
  | skip hskip h ih =>
    have hord := hc _ mem_cons_self
    rcases hskip with rfl | rfl
    · exact absurd rfl hord.1
    · exact absurd rfl hord.2.1
  | up h ih => exact absurd rfl (hc _ mem_cons_self).2.2
  | @down n at_ c rest _ _ h ih =>
    have hsplit : at_ ++ c :: rest = (at_ ++ [c]) ++ rest := by simp
    rw [hsplit] at hno ⊢
    exact ih (fun c' hc' => hc c' (mem_cons_of_mem _ hc')) hno
  | @atLink n at_ c rest t _ hget hq =>
    have hsplit : at_ ++ c :: rest = (at_ ++ [c]) ++ rest := by simp
    exact absurd hget (hno _ (hsplit ▸ prefix_append _ _) t)
  | @behind n at_ c rest t _ hget h ih =>
    have hsplit : at_ ++ c :: rest = (at_ ++ [c]) ++ rest := by simp
    exact absurd hget (hno _ (hsplit ▸ prefix_append _ _) t)

theorem walk_concat_dir (hc : Ordinary c) (hd : fs.get (d ++ [c]) = some .dir)
    (hw : fs.walk n at_ todo = .found d) (hdir : fs.get d = some .dir) :
    fs.walk n at_ (todo ++ [c]) = .found (d ++ [c]) := by
  have hall : ∀ n at_ todo, fs.walk n at_ todo = .found d →
      fs.walk n at_ (todo ++ [c]) = .found (d ++ [c]) := by
    refine walk_induction
      (P := fun n at_ todo w => w = .found d → fs.walk n at_ (todo ++ [c]) = .found (d ++ [c]))
      ?_ ?_ ?_ ?_ ?_ ?_ ?_ ?_
    · intro n at_ todo e h
      cases h
    · intro n at_ hat h
      cases h
      rw [nil_append, walk_name hat hc, hd]
      exact walk_nil (isDir_iff.mpr hd)
    · intro n at_ a rest hat ha ih h
      rw [cons_append, walk_skip hat ha]
      exact ih h
    · intro n at_ rest hat ih h
      rw [cons_append, walk_up hat]
      exact ih h
    · intro n at_ a _ _ _ h
      cases h
    · intro n at_ a rest hat ha hnext ih h
      rw [cons_append, walk_name hat ha, hnext]
      exact ih h
    · intro n at_ a ino hat ha hfile h
      cases h
      rw [hfile] at hdir
      cases hdir
    · intro n at_ a rest t hat ha hlink ih h
      rw [cons_append, walk_name hat ha, hlink]
      have := ih h
      rwa [append_assoc] at this
  exact hall n at_ todo hw

/-! ## Absolute paths -/

variable {full : List Name}

theorem canonicalize_of_walk (h : fs.walk MAXSYMLINKS [] full = .found l) :
    fs.canonicalize full = .ok l := by
  rw [canonicalize, h]

theorem canonicalize_kept (h : fs.canonicalize full = .ok l) (hl : fs.get l = some .dir)
    (hkept : ∀ q node, fs.PassedBy full q → fs.get q = some node → fs'.get q = some node) :
    fs'.canonicalize full = .ok l ∧ fs'.get l = some .dir := by
  obtain ⟨hw, hget⟩ := walk_kept (walk_of_canonicalize h) hl hkept
  exact ⟨canonicalize_of_walk hw, hget⟩

theorem passedBy_end (h : fs.canonicalize full = .ok l) (hl : fs.get l = some .dir) :
    fs.PassedBy full l := passes_end (walk_of_canonicalize h) hl

theorem PassedBy.node (hp : fs.PassedBy full q) (h : fs.canonicalize full = .ok l) :
    fs.get q = some .dir ∨ ∃ t, fs.get q = some (.symlink t) :=
  Passes.node hp (walk_of_canonicalize h)

theorem canonicalize_concat (hc : Ordinary c) (h : fs.canonicalize (full ++ [c]) = .ok l) :
    ∃ d, fs.canonicalize full = .ok d ∧ fs.get (d ++ [c]) ≠ none := by
  have hw := walk_of_canonicalize h
  obtain ⟨d, hd, hlast⟩ := walk_concat hc hw
  refine ⟨d, canonicalize_of_walk hd, fun hnone => ?_⟩
  obtain rfl := hlast fun t ht => by
    rw [hnone] at ht
    cases ht
  rcases get_of_walk_found hw with hsome | ⟨ino, hsome⟩ <;>
    · rw [hnone] at hsome
      cases hsome

theorem Sane.canonicalize_append (hs : fs.Sane) (h : fs.canonicalize full = .ok d) (t : List Name) :
    (∀ c ∈ t, Ordinary c) → fs.get (d ++ t) = some .dir →
      fs.canonicalize (full ++ t) = .ok (d ++ t) := by
  induction t using reverseRecOn with
  | nil =>
    intro _ _
    rwa [append_nil, append_nil]
  | append_singleton t c ih =>
    intro hc hget
    rw [← append_assoc] at hget
    have hdir := hs.parent _ _ _ hget
    have hup := ih (fun c' hc' => hc c' (by simp [hc'])) hdir
    have := walk_concat_dir (hc c (by simp)) hget (walk_of_canonicalize hup) hdir
    rw [← append_assoc, ← append_assoc]
    exact canonicalize_of_walk this

theorem canonicalize_of_locate (hc : Ordinary c) (h : fs.locate (full ++ [c]) = .ok l) :
    ∃ d, fs.canonicalize full = .ok d ∧ l = d ++ [c] := by
  rw [locate, getLast?_concat] at h
  dsimp only at h
  rw [if_pos hc, dropLast_concat] at h
  split at h
  · next d hd =>
    cases h
    exact ⟨d, hd, rfl⟩
  · cases h

end Fs

end AlloyFs
