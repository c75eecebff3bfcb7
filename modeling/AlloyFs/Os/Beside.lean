import AlloyFs.Os.Disk

/-!
# Working beside other files

A program that writes new files under names of its own in a directory, and then puts one
of them in place of another file, changes no other file.  `Beside d dir T ov fs` is what
holds in between: `fs` came out of `d` by such work in `dir`, under the names `T`, and
only the files in `ov` were replaced.

No link may be on the way to the directory, or the names would lead elsewhere.
-/

namespace AlloyFs

open List
variable {i : ℕ}

namespace Fs

open Function

variable {d fs fs' : Fs} {dir l : Loc} {T : Name → Prop} {ov : Loc → Prop} {full : List Name}

/-- The file at a location. -/
def fileAt (fs : Fs) (l : Loc) : Option Inode :=
  match fs.get l with
  | some (.file ino) => some (fs.inodes ino)
  | _ => none

theorem contentAt_eq (fs : Fs) (l : Loc) : fs.contentAt l = (fs.fileAt l).map Inode.content := by
  rw [contentAt, fileAt]
  rcases fs.get l with _ | _ | _ | _ <;> rfl

theorem fileAt_of_get (h : fs.get l = some (.file i)) : fs.fileAt l = some (fs.inodes i) := by
  rw [fileAt, h]

theorem get_of_contentAt {c : Bytes} (h : fs.contentAt l = some c) :
    ∃ i, fs.get l = some (.file i) ∧ (fs.inodes i).content = c := by
  rw [contentAt] at h
  split at h
  · next i hi => exact ⟨i, hi, Option.some.inj h⟩
  · cases h

/-! ## Paths without links -/

/-- No link is at a location or on the way to it. -/
def NoLinks (fs : Fs) (l : Loc) : Prop := ∀ q, q <+: l → ∀ t, fs.get q ≠ some (.symlink t)

instance (fs : Fs) (l : Loc) : Decidable (fs.NoLinks l) :=
  decidable_of_iff (∀ q ∈ l.inits, (match fs.get q with
    | some (.symlink _) => false
    | _ => true) = true) (by
    simp only [mem_inits, NoLinks]
    refine forall₂_congr fun q _ => ?_
    rcases fs.get q with _ | _ | _ | _ <;> simp)

theorem NoLinks.mono {q : Loc} (h : fs.NoLinks l) (hq : q <+: l) : fs.NoLinks q :=
  fun q' hq' => h q' (hq'.trans hq)

theorem walk_eq_of_noLinks {n : ℕ} (xs : List Name) : ∀ at_ : Loc, (∀ c ∈ xs, Ordinary c) →
    fs.NoLinks (at_ ++ xs) → fs.walk n at_ xs = .found l → l = at_ ++ xs := by
  induction xs with
  | nil =>
    intro at_ _ _ h
    rw [walk_eq, walkIn] at h
    split at h
    · cases h
      rw [append_nil]
    · cases h
  | cons c xs ih =>
    intro at_ hc hno h
    by_cases hd : fs.isDir at_ = true
    · rw [walk_name hd (hc c mem_cons_self)] at h
      have hsplit : at_ ++ c :: xs = (at_ ++ [c]) ++ xs := by simp
      split at h
      · split at h <;> cases h
      · rw [hsplit]
        exact ih _ (fun c' hc' => hc c' (mem_cons_of_mem _ hc')) (hsplit ▸ hno) h
      · split at h
        · next hxs =>
          cases h
          rw [hxs]
        · cases h
      · next t hget =>
        exact absurd hget (hno _ (hsplit ▸ prefix_append _ _) t)
    · rw [walk_eq, walkIn, if_pos (by simpa using hd)] at h
      cases h

theorem canonicalize_eq (hc : ∀ c ∈ full, Ordinary c) (hno : fs.NoLinks full)
    (h : fs.canonicalize full = .ok l) : l = full := by
  simpa using walk_eq_of_noLinks full [] hc (by simpa using hno) (walk_of_canonicalize h)

theorem locate_eq (hc : ∀ c ∈ full, Ordinary c) (hno : fs.NoLinks full.dropLast)
    (h : fs.locate full = .ok l) : l = full := by
  rw [locate] at h
  split at h
  · next hnil =>
    cases h
    exact (getLast?_eq_none_iff.mp hnil).symm
  · next c hlast =>
    rw [if_pos (hc c (mem_of_getLast? hlast))] at h
    split at h
    · next l' hl' =>
      cases h
      rw [canonicalize_eq (fun c hc' => hc c (dropLast_subset full hc')) hno hl']
      obtain ⟨ys, rfl⟩ := getLast?_eq_some_iff.mp hlast
      rw [dropLast_concat]
    · cases h

theorem Sane.dir_of_prefix (h : fs.Sane) {n : Node} (hget : fs.get l = some n) {q : Loc}
    (hq : q <+: l) (hne : q ≠ l) : fs.get q = some .dir := by
  by_contra hnd
  rw [h.get_below hnd hq (Ne.symm hne)] at hget
  cases hget

theorem walk_found_of_dirs {n : ℕ} (xs : List Name) : ∀ at_ : Loc, (∀ c ∈ xs, Ordinary c) →
    (∀ q, q <+: xs → fs.get (at_ ++ q) = some .dir) → fs.walk n at_ xs = .found (at_ ++ xs) := by
  induction xs with
  | nil =>
    intro at_ _ hdir
    have hd : fs.isDir at_ = true := by simpa [isDir] using hdir [] nil_prefix
    rw [walk_nil hd, append_nil]
  | cons c xs ih =>
    intro at_ hc hdir
    have hd : fs.isDir at_ = true := by simpa [isDir] using hdir [] nil_prefix
    have hget : fs.get (at_ ++ [c]) = some .dir := hdir [c] (prefix_append [c] xs)
    rw [walk_name hd (hc c mem_cons_self), hget]
    rw [ih (at_ ++ [c]) (fun c' hc' => hc c' (mem_cons_of_mem _ hc')) fun q hq => ?_]
    · simp
    · have := hdir (c :: q) (by simpa using hq)
      simpa using this

theorem Sane.canonicalize_dir (h : fs.Sane) (hc : ∀ c ∈ dir, Ordinary c)
    (hget : fs.get dir = some .dir) : fs.canonicalize dir = .ok dir := by
  have hwalk : fs.walk MAXSYMLINKS [] dir = .found ([] ++ dir) := by
    refine walk_found_of_dirs dir [] hc fun q hq => ?_
    by_cases heq : q = dir
    · rw [heq]
      exact hget
    · exact h.dir_of_prefix hget hq heq
  rw [canonicalize, hwalk]
  rfl

theorem locate_concat {c : Name} (hc : Ordinary c)
    (hdir : fs.canonicalize full = .ok dir) : fs.locate (full ++ [c]) = .ok (dir ++ [c]) := by
  rw [locate, getLast?_concat]
  dsimp only
  rw [if_pos hc, dropLast_concat, hdir]

theorem Sane.locate_of_get (h : fs.Sane) (hc : ∀ c ∈ full, Ordinary c)
    (hne : full ≠ []) {n : Node} (hget : fs.get full = some n) : fs.locate full = .ok full := by
  obtain ⟨ys, c, rfl⟩ : ∃ ys c, full = ys ++ [c] :=
    ⟨_, _, (dropLast_append_getLast hne).symm⟩
  exact locate_concat (hc c (by simp))
    (h.canonicalize_dir (fun c hc' => hc c (by simp [hc'])) (h.parent _ _ _ hget))

/-! ## Other files stay as they were -/

/-- `fs` came out of `d` by work in `dir` under the names `T`; of the files of `d` only
those in `ov` may have been replaced. -/
structure Beside (d : Fs) (dir : Loc) (T : Name → Prop) (ov : Loc → Prop) (fs : Fs) : Prop where
  files : ∀ w i, d.get w = some (.file i) → ¬ ov w →
    fs.get w = some (.file i) ∧ fs.inodes i = d.inodes i
  next : d.nextIno ≤ fs.nextIno
  /-- the names were vacant, and hold at most new files -/
  vacant : ∀ c, T c → d.get (dir ++ [c]) = none
  temps : ∀ c, T c → fs.get (dir ++ [c]) = none ∨
    ∃ i, fs.get (dir ++ [c]) = some (.file i) ∧ d.nextIno ≤ i
  noLinks : fs.NoLinks dir

namespace Beside

theorem refl (ov : Loc → Prop) (hT : ∀ c, T c → d.get (dir ++ [c]) = none) (hno : d.NoLinks dir) :
    Beside d dir T ov d :=
  ⟨fun _ _ h _ => ⟨h, rfl⟩, le_rfl, hT, fun c hc => .inl (hT c hc), hno⟩

section

variable (h : Beside d dir T ov fs)
include h

theorem weaken {o : Loc → Prop} (hov : ∀ w, ov w → o w) : Beside d dir T o fs :=
  { h with files := fun w i hw hn => h.files w i hw fun ho => hn (hov w ho) }

theorem fileAt_eq {w : Loc} (hw : d.fileAt w ≠ none) (hov : ¬ ov w) : fs.fileAt w = d.fileAt w := by
  rw [fileAt] at hw
  split at hw
  · next i hi =>
    obtain ⟨hget, hino⟩ := h.files w i hi hov
    rw [fileAt_of_get hget, fileAt_of_get hi, hino]
  · exact absurd rfl hw

theorem ne_temp {w : Loc} (hw : d.get w = some (.file i))
    {c : Name} (hc : T c) : w ≠ dir ++ [c] := by
  rintro rfl
  rw [h.vacant c hc] at hw
  cases hw

theorem not_link {c : Name} (hc : T c) (t : Text) : fs.get (dir ++ [c]) ≠ some (.symlink t) := by
  rcases h.temps c hc with hnone | ⟨i, hfile, _⟩
  · rw [hnone]
    nofun
  · rw [hfile]
    nofun

theorem congr (htree : fs'.tree = fs.tree)
    (hinodes : fs'.inodes = fs.inodes) (hnext : fs'.nextIno = fs.nextIno) :
    Beside d dir T ov fs' := by
  have hget : ∀ q, fs'.get q = fs.get q := fun q => by rw [Fs.get, Fs.get, htree]
  refine ⟨fun w i hw ho => ?_, hnext ▸ h.next, h.vacant, fun c hc => ?_, fun q hq t => ?_⟩
  · rw [hget, hinodes]
    exact h.files w i hw ho
  · rw [hget]
    exact h.temps c hc
  · rw [hget]
    exact h.noLinks q hq t

theorem modify (hd : d.Sane) (hi : d.nextIno ≤ i)
    (f : Inode → Inode) : Beside d dir T ov (fs.modify i f) := by
  refine ⟨fun w j hw ho => ?_, h.next, h.vacant, h.temps, h.noLinks⟩
  obtain ⟨hget, hino⟩ := h.files w j hw ho
  refine ⟨hget, ?_⟩
  have hne : j ≠ i := (lt_of_lt_of_le (hd.inos w j hw) hi).ne
  exact (update_of_ne hne _ _).trans hino

/-- A new entry, a directory on the way or a new file under one of the names. -/
theorem put (hd : d.Sane) {q : Loc} {n : Node} (hv : fs.get q = none) (hlink : ∀ t, n ≠ .symlink t)
    (hT : ∀ c, T c → q = dir ++ [c] → ∃ i, n = .file i ∧ d.nextIno ≤ i)
    (htree : fs'.tree = PathMap.put fs.tree q n)
    (hinodes : ∀ i, i < fs.nextIno → fs'.inodes i = fs.inodes i)
    (hnext : fs.nextIno ≤ fs'.nextIno) : Beside d dir T ov fs' := by
  have hget : ∀ w, fs'.get w = if w = q then some n else fs.get w := by
    intro w
    rw [Fs.get, htree]
    by_cases hw : w = q
    · rw [if_pos hw, hw, PathMap.get_put_self]
    · rw [if_neg hw, PathMap.get_put_of_ne _ _ hw]
      rfl
  refine ⟨fun w i hw ho => ?_, h.next.trans hnext, h.vacant, fun c hc => ?_, fun w hw t => ?_⟩
  · obtain ⟨hold, hino⟩ := h.files w i hw ho
    have hne : w ≠ q := by
      rintro rfl
      rw [hv] at hold
      cases hold
    rw [hget, if_neg hne, hinodes i (lt_of_lt_of_le (hd.inos w i hw) h.next)]
    exact ⟨hold, hino⟩
  · rw [hget]
    by_cases hcq : dir ++ [c] = q
    · obtain ⟨i, rfl, hi⟩ := hT c hc hcq.symm
      rw [if_pos hcq]
      exact .inr ⟨i, rfl, hi⟩
    · rw [if_neg hcq]
      exact h.temps c hc
  · rw [hget]
    split
    · exact fun heq => hlink t (Option.some.inj heq)
    · exact h.noLinks w hw t

end

variable {u : Unit}

theorem createDirAll (h : Beside d dir T ov fs) (hd : d.Sane) (hdir : ∀ c ∈ dir, Ordinary c)
    (hok : (DiskCall.createDirAll dir).run fs = .ok (u, fs')) :
    Beside d dir T ov fs' := by
  refine ensureDirs_induction dir.inits (fun fs u fs' q hq h hok => ?_) fs fs' u h hok
  have hq := (mem_inits _ _).mp hq
  rcases ensureDir_ok hok with ⟨l, hl, hmade⟩ | rfl
  · obtain rfl := locate_eq (fun c hc => hdir c (hq.subset hc))
      (h.noLinks.mono (( dropLast_prefix q).trans hq)) hl
    have hnone := (leaf_vacant (leaf_of_makeEntry hmade)).2
    obtain rfl := makeEntry_ok hmade
    refine h.put (n := .dir) hd hnone (fun _ => by simp) (fun c _ heq => ?_) rfl
      (fun _ _ => rfl) le_rfl
    have hlen := hq.length_le
    rw [heq, length_append, length_singleton] at hlen
    exact absurd hlen (Nat.not_succ_le_self _)
  · exact h

variable {c : Name}

section

variable (h : Beside d dir T ov fs)
include h

theorem onPath_eq {α : Type} (hdir : ∀ c ∈ dir, Ordinary c)
    (hc : Ordinary c) {f : Fs → Loc → Call α} {r : α × Fs}
    (hok : onPath (dir ++ [c]) f fs = .ok r) : f fs (dir ++ [c]) = .ok r := by
  have hall : ∀ x ∈ dir ++ [c], Ordinary x := by
    intro x hx
    rcases mem_append.mp hx with hx | hx
    · exact hdir x hx
    · rw [mem_singleton.mp hx]
      exact hc
  obtain ⟨l, hl, hok⟩ := onPath_ok hok
  rw [locate_eq hall (by rw [dropLast_concat]; exact h.noLinks) hl] at hok
  exact hok

theorem leaf_vacant_eq (hc : T c) (hv : fs.leaf true (dir ++ [c]) = .vacant l) :
    l = dir ++ [c] ∧ fs.get (dir ++ [c]) = none := by
  rw [leaf] at hv
  split at hv
  · next hnone =>
    split at hv
    · cases hv
      exact ⟨rfl, hnone⟩
    · cases hv
    · cases hv
  · next t hlink => exact absurd hlink (h.not_link hc t)
  · cases hv

theorem newFile (hd : d.Sane) (hv : fs.get (dir ++ [c]) = none) :
    Beside d dir T ov (fs.newFile (dir ++ [c])) := by
  refine h.put (n := .file fs.nextIno) hd hv (fun _ => nofun) (fun _ _ _ => ⟨_, rfl, h.next⟩) rfl
    (fun i hi => ?_) (Nat.le_succ _)
  exact update_of_ne hi.ne _ _

theorem ino_of_leaf (hc : T c)
    (hf : fs.leaf true (dir ++ [c]) = .found l) (hget : fs.get l = some (.file i)) :
    d.nextIno ≤ i := by
  rw [leaf_true_found (h.not_link hc) hf] at hget
  rcases h.temps c hc with hnone | ⟨j, hj, hle⟩
  · rw [hnone] at hget
    cases hget
  · rw [hj] at hget
    cases hget
    exact hle

theorem openCreate (hd : d.Sane) (hc : T c) {r : Loc × ℕ}
    (hok : fs.openCreate (dir ++ [c]) true = .ok (r, fs')) :
    Beside d dir T ov fs' ∧ d.nextIno ≤ r.2 := by
  obtain ⟨l', ino⟩ := r
  rcases openCreate_ok hok with ⟨hv, rfl⟩ | ⟨hf, hget, rfl⟩
  · obtain ⟨rfl, hnone⟩ := h.leaf_vacant_eq hc hv
    rw [Fs.openCreate, hv] at hok
    cases hok
    exact ⟨(h.newFile hd hnone).congr rfl rfl rfl, h.next⟩
  · have hle := h.ino_of_leaf hc hf hget
    exact ⟨(h.modify hd hle fun i => { i with content := [], mtime := fs.now }).congr rfl rfl rfl,
      hle⟩

theorem write (hd : d.Sane) (hdir : ∀ c ∈ dir, Ordinary c) (hc : T c)
    (hord : Ordinary c) {data : Bytes}
    (hok : (DiskCall.write (dir ++ [c]) data).run fs = .ok (u, fs')) : Beside d dir T ov fs' := by
  have hok := h.onPath_eq (f := fun fs l => fs.overwrite l data) hdir hord hok
  rw [overwrite] at hok
  split at hok
  · next r fs₁ hopen =>
    cases hok
    obtain ⟨h₁, hle⟩ := h.openCreate hd hc hopen
    exact h₁.modify hd hle _
  · cases hok

theorem setModified (hd : d.Sane) (hdir : ∀ c ∈ dir, Ordinary c)
    (hc : T c) (hord : Ordinary c) {time : SystemTime}
    (hok : (DiskCall.setModified (dir ++ [c]) time).run fs = .ok (u, fs')) :
    Beside d dir T ov fs' := by
  have hok := h.onPath_eq (f := fun fs l => fs.stamp l time) hdir hord hok
  rw [stamp] at hok
  split at hok
  · next ino fs₁ hopen =>
    cases hok
    obtain ⟨hf, hget, rfl⟩ := openFile_ok hopen
    exact (h.modify hd (h.ino_of_leaf hc hf hget) fun i => { i with mtime := time }).congr
      rfl rfl rfl
  · cases hok
  · cases hok

theorem removeFile (hdir : ∀ c ∈ dir, Ordinary c) (hc : T c) (hord : Ordinary c)
    (hok : (DiskCall.removeFile (dir ++ [c])).run fs = .ok (u, fs')) : Beside d dir T ov fs' := by
  obtain ⟨_, rfl⟩ := removeFile_ok (h.onPath_eq hdir hord hok)
  refine ⟨fun w i hw ho => ?_, h.next, h.vacant, fun c' hc' => ?_, fun q hq t => ?_⟩
  · rw [get_removeEntry, if_neg (h.ne_temp hw hc)]
    exact h.files w i hw ho
  · rw [get_removeEntry]
    split
    · exact .inl rfl
    · exact h.temps c' hc'
  · rw [get_removeEntry]
    split
    · nofun
    · exact h.noLinks q hq t

theorem rename (hs : fs.Sane) (hdir : ∀ c ∈ dir, Ordinary c) (hc : T c)
    (hord : Ordinary c) {x : Name} (hx : Ordinary x)
    (hok : (DiskCall.rename (dir ++ [c]) (dir ++ [x])).run fs = .ok (u, fs')) :
    Beside d dir T (fun w => ov w ∨ w = dir ++ [x]) fs' := by
  have hok := h.onPath_eq (f := fun fs l => fs.rename (dir ++ [c]) l) hdir hx
    (h.onPath_eq (f := fun fs l => onPath (dir ++ [x]) (fun fs l' => fs.rename l l') fs) hdir
      hord hok)
  have hweak := h.weaken (o := fun w => ov w ∨ w = dir ++ [x]) fun _ => Or.inl
  obtain ⟨hsrc, ⟨_, rfl⟩ | ⟨h₁, h₂, _, rfl⟩⟩ := rename_ok hok
  · exact hweak.congr rfl rfl rfl
  obtain ⟨i, hi, hle⟩ := (h.temps c hc).resolve_left hsrc
  -- a file has gone there, so nothing is below the destination
  have hbelow : ∀ w, dir ++ [x] <+: w → w ≠ dir ++ [x] → fs.get w = none := by
    intro w hw hne
    refine hs.get_below (fun hxdir => ?_) hw hne
    have hleaf : fs.leaf false (dir ++ [x]) = .found (dir ++ [x]) := by rw [leaf, hxdir]
    have hleaf' : fs.leaf false (dir ++ [c]) = .found (dir ++ [c]) := by rw [leaf, hi]
    have hne' : dir ++ [c] ≠ dir ++ [x] := fun heq => h₁ (heq ▸ prefix_rfl)
    simp only [Fs.rename, hleaf, hleaf', hi, hxdir] at hok
    rw [renameTo, if_neg hne', if_neg h₁, if_neg h₂] at hok
    cases hok
  have hget := get_moveEntry fs h₁ h₂
  have hbelow' : ∀ w, dir ++ [c] <+: w → w ≠ dir ++ [c] → fs.get w = none :=
    fun w => hs.get_below (by simp [hi])
  refine ⟨fun w j hw ho => ?_, h.next, h.vacant, fun c' hc' => ?_, fun q hq t => ?_⟩
  · rw [not_or] at ho
    obtain ⟨hold, hino⟩ := h.files w j hw ho.1
    refine ⟨?_, hino⟩
    have hxw : ¬ dir ++ [x] <+: w := by
      intro hp
      rw [hbelow w hp ho.2] at hold
      cases hold
    have hcw : ¬ dir ++ [c] <+: w := by
      intro hp
      rw [hbelow' w hp (h.ne_temp hw hc)] at hold
      cases hold
    rw [hget, if_neg hxw, if_neg hcw]
    exact hold
  · rw [hget]
    by_cases hxc : dir ++ [x] <+: dir ++ [c']
    · have heq : dir ++ [x] = dir ++ [c'] := hxc.eq_of_length (by simp)
      rw [if_pos hxc, ← heq, drop_length, append_nil]
      exact .inr ⟨i, hi, hle⟩
    · rw [if_neg hxc]
      split
      · exact .inl rfl
      · exact h.temps c' hc'
  · have hshort : ∀ y : Name, ¬ dir ++ [y] <+: q := by
      intro y hy
      have hlen := hy.length_le.trans hq.length_le
      rw [length_append, length_singleton] at hlen
      exact Nat.not_succ_le_self _ hlen
    rw [hget, if_neg (hshort x), if_neg (hshort c)]
    exact h.noLinks q hq t

theorem copy (hd : d.Sane) (hdir : ∀ c ∈ dir, Ordinary c) (hc : T c)
    (hord : Ordinary c) {src : List Name}
    (hok : (DiskCall.copy src (dir ++ [c])).run fs = .ok (u, fs')) : Beside d dir T ov fs' := by
  simp only [DiskCall.copy] at hok
  split at hok
  · next l i fs₁ hopen =>
    have h₁ : Beside d dir T ov fs₁ := by
      obtain ⟨_, -, hopen⟩ := onPath_ok hopen
      obtain ⟨_, _, rfl⟩ := openFile_ok hopen
      exact h.congr rfl rfl rfl
    have hok := h₁.onPath_eq (f := fun fs l => fs.copyTo i l) hdir hord hok
    rw [copyTo] at hok
    split at hok
    · next r fs₂ hcreate =>
      cases hok
      obtain ⟨h₂, hle⟩ := h₁.openCreate hd hc hcreate
      exact h₂.modify hd hle _
    · cases hok
  · cases hok
  · cases hok

end

theorem of_vacant (hv : d.get l = none)
    (h : Beside d dir T (fun w => ov w ∨ w = l) fs) : Beside d dir T ov fs := by
  refine { h with files := fun w i hw ho => h.files w i hw ?_ }
  rintro (hov | rfl)
  · exact ho hov
  · rw [hv] at hw
    cases hw

end Beside

/-- **Copying to a vacant name.**  It goes through, changes nothing else, and the copy has
the content of the file. -/
theorem copy_run (h : fs.Sane) (hdir : ∀ c ∈ dir, Ordinary c) {c x : Name} (hc : Ordinary c)
    (hx : Ordinary x) (hget : fs.get (dir ++ [c]) = some (.file i))
    (hv : fs.get (dir ++ [x]) = none) :
    ∃ fs', (DiskCall.copy (dir ++ [c]) (dir ++ [x])).run fs = .ok ((), fs') ∧
      (∀ q, q ≠ dir ++ [x] → fs'.get q = fs.get q) ∧
      (∀ j, j < fs.nextIno → fs'.inodes j = fs.inodes j) ∧
      fs'.contentAt (dir ++ [x]) = some (fs.inodes i).content := by
  have hparent := h.parent _ _ _ hget
  have hcan := h.canonicalize_dir hdir hparent
  have hopen : onPath (dir ++ [c]) (fun fs l => fs.openFile l false false) fs =
      .ok ((dir ++ [c], .file i), fs.touch [dir ++ [c]]) := by
    rw [onPath, locate_concat hc hcan]
    simp only [openFile, leaf, hget]
    rfl
  set fs₁ := fs.touch [dir ++ [c]] with hfs₁
  have hcreate : fs₁.openCreate (dir ++ [x]) true =
      .ok ((dir ++ [x], fs.nextIno), (fs₁.newFile (dir ++ [x])).touch [dir ++ [x]]) := by
    have hleaf : fs₁.leaf true (dir ++ [x]) = .vacant (dir ++ [x]) := by
      rw [leaf, hfs₁, get_touch, hv]
      rw [get_touch, dropLast_concat, hparent]
    rw [openCreate, hleaf]
    rfl
  have hloc : fs₁.locate (dir ++ [x]) = .ok (dir ++ [x]) :=
    locate_concat hx ((h.of_tree rfl rfl : fs₁.Sane).canonicalize_dir hdir hparent)
  have hi := h.inos _ _ hget
  refine ⟨((fs₁.newFile (dir ++ [x])).touch [dir ++ [x]]).modify fs.nextIno fun n =>
    { n with content := (fs.inodes i).content, mtime := fs.now, mode := (fs.inodes i).mode },
    ?_, ?_, ?_, ?_⟩
  · have hsame : ((fs₁.newFile (dir ++ [x])).touch [dir ++ [x]]).inodes i = fs.inodes i :=
      update_of_ne hi.ne _ _
    simp only [DiskCall.copy, hopen]
    simp only [onPath, hloc, copyTo, hcreate, hsame]
    rfl
  · intro q hq
    exact PathMap.get_put_of_ne _ _ hq
  · intro j hj
    exact (update_of_ne hj.ne _ _).trans (update_of_ne hj.ne _ _)
  · have hnew : ((fs₁.newFile (dir ++ [x])).touch [dir ++ [x]]).get (dir ++ [x]) =
        some (.file fs.nextIno) := PathMap.get_put_self _ _ _
    rw [contentAt, get_modify, hnew]
    simp only [modify, update_self]

end Fs
end AlloyFs
