import AlloyFs.Os.Fs

/-!
# The file system under the client

The client names files by absolute paths, which may lead through links; `locate` follows
all of a path but its last name.  Over it, the calls of the standard library that the
sync engine and the overlay make.

A `Disk` is a file system with what every real one has: a root directory, every entry in
a directory, and no file without its inode.  A `DiskCall` is a call that keeps this.
-/

namespace AlloyFs

variable {full : List Name} {α : Type}

namespace Fs

variable {α : Type}

/-! ## Absolute paths -/

/-- The location a path names: all but its last name is followed. -/
def locate (fs : Fs) (full : List Name) : Except ErrorCode Loc :=
  match full.getLast? with
  | none => .ok []
  | some c =>
    if Ordinary c then
      match fs.canonicalize full.dropLast with
      | .ok dir => .ok (dir ++ [c])
      | .error e => .error e
    else fs.canonicalize full

/-- Make a call at the location a path names. -/
def onPath (full : List Name) (f : Fs → Loc → Call α) (fs : Fs) : Call α :=
  match fs.locate full with
  | .ok l => f fs l
  | .error e => .error e

/-- `symlink_metadata`. -/
def lstat (fs : Fs) (full : List Name) : Option (FileKind × Stat) :=
  match fs.locate full with
  | .ok l => fs.stat l
  | .error _ => none

/-- `Path::is_dir`: the path leads to a directory. -/
def leadsToDir (fs : Fs) (full : List Name) : Bool :=
  match fs.canonicalize full with
  | .ok l => fs.isDir l
  | .error _ => false

/-- `Path::exists`: the path leads somewhere. -/
def leadsSomewhere (fs : Fs) (full : List Name) : Bool :=
  match fs.canonicalize full with
  | .ok _ => true
  | .error _ => false

/-- `fs::read` and the times of the file, following a last link. -/
def readFile (fs : Fs) (full : List Name) : Except ErrorCode Inode :=
  match onPath full (fun fs l => fs.openFile l false false) fs with
  | .ok ((_, .file ino), _) => .ok (fs.inodes ino)
  | .ok _ => .error .isADirectory
  | .error e => .error e

/-- One step of `create_dir_all`: a directory that is there already is fine. -/
def ensureDir (fs : Fs) (full : List Name) : Call Unit :=
  match onPath full createDir fs with
  | .ok r => .ok r
  | .error e => if fs.leadsToDir full then .ok ((), fs) else .error e

/-- Make sure of one directory after the other. -/
def ensureDirs (fs : Fs) : List (List Name) → Call Unit
  | [] => .ok ((), fs)
  | dir :: dirs =>
    match fs.ensureDir dir with
    | .ok (_, fs') => fs'.ensureDirs dirs
    | .error e => .error e

theorem onPath_ok {f : Fs → Loc → Call α} {fs : Fs} {r : α × Fs}
    (h : onPath full f fs = .ok r) : ∃ l, fs.locate full = .ok l ∧ f fs l = .ok r := by
  rw [onPath] at h
  split at h
  · next l hl => exact ⟨l, hl, h⟩
  · cases h

theorem ensureDir_ok {fs fs' : Fs} {u : Unit} (h : fs.ensureDir full = .ok (u, fs')) :
    (∃ l, fs.locate full = .ok l ∧ fs.makeEntry l .dir = .ok (u, fs')) ∨ fs' = fs := by
  rw [ensureDir] at h
  split at h
  · next hr =>
    cases h
    exact .inl (onPath_ok hr)
  · split at h
    · cases h
      exact .inr rfl
    · cases h

theorem ensureDirs_induction {P : Fs → Prop} (dirs : List (List Name))
    (hstep : ∀ fs a fs', ∀ dir ∈ dirs, P fs → fs.ensureDir dir = .ok (a, fs') → P fs') :
    ∀ (fs fs' : Fs) (a : Unit), P fs → fs.ensureDirs dirs = .ok (a, fs') → P fs' := by
  induction dirs with
  | nil =>
    intro fs fs' a h hok
    cases hok
    exact h
  | cons dir dirs ih =>
    intro fs fs' a h hok
    rw [ensureDirs] at hok
    split at hok
    · next fs₁ hdir =>
      exact ih (fun fs a fs' d hd => hstep fs a fs' d (List.mem_cons_of_mem _ hd)) _ _ _
        (hstep _ _ _ dir List.mem_cons_self h hdir) hok
    · cases hok

/-- Remove an entry and everything below it. -/
def removeTree (fs : Fs) (l : Loc) : Fs :=
  { fs with tree := fs.tree.filter fun e => !decide (l <+: e.1) }.touch
    ((fs.tree.map Prod.fst).filter fun q => decide (l <+: q))

/-- `remove_dir_all` at a location; a link is removed, not followed. -/
def removeAll (fs : Fs) (l : Loc) : Call Unit :=
  match fs.get l with
  | some .dir => if l = [] then .error .io else .ok ((), fs.removeTree l)
  | some (.symlink _) => .ok ((), fs.removeEntry l)
  | some (.file _) => .error .notADirectory
  | none => .error .notFound

/-- Open for writing and replace the content. -/
def overwrite (fs : Fs) (l : Loc) (data : Bytes) : Call Unit :=
  match fs.openCreate l true with
  | .ok ((_, ino), fs') =>
    .ok ((), fs'.modify ino fun i => { i with content := data, mtime := fs'.now })
  | .error e => .error e

/-- Copy what the open file `i` holds; opening the target may have emptied it. -/
def copyTo (fs : Fs) (i : ℕ) (l : Loc) : Call Unit :=
  match fs.openCreate l true with
  | .ok ((_, ino), fs') =>
    let source := fs'.inodes i
    .ok ((), fs'.modify ino fun n =>
      { n with content := source.content, mtime := fs'.now, mode := source.mode })
  | .error e => .error e

/-- Change the time of a file. -/
def stamp (fs : Fs) (l : Loc) (t : SystemTime) : Call Unit :=
  match fs.openFile l true false with
  | .ok ((_, .file ino), fs') => .ok ((), fs'.modify ino fun i => { i with mtime := t })
  | .ok _ => .error .io
  | .error e => .error e

/-! ## What every file system has -/

/-- There is a root, every entry is in a directory, and every file has its inode. -/
structure Sane (fs : Fs) : Prop where
  top : fs.get [] = some .dir
  parent : ∀ l c n, fs.get (l ++ [c]) = some n → fs.get l = some .dir
  inos : ∀ l i, fs.get l = some (.file i) → i < fs.nextIno

section Sane

variable {fs fs' : Fs} {l src dst : Loc} {u : Unit}

theorem Sane.get_below (h : fs.Sane) (hl : fs.get l ≠ some .dir) {q : Loc} (hq : l <+: q)
    (hne : q ≠ l) : fs.get q = none := by
  obtain ⟨t, rfl⟩ := hq
  induction t using List.reverseRecOn with
  | nil => exact absurd (List.append_nil l) hne
  | append_singleton t c ih =>
    cases hget : fs.get (l ++ (t ++ [c])) with
    | none => rfl
    | some n =>
      rw [← List.append_assoc] at hget
      have hdir := h.parent _ _ _ hget
      by_cases ht : t = []
      · subst ht
        rw [List.append_nil] at hdir
        exact absurd hdir hl
      · rw [ih (by simpa using ht)] at hdir
        cases hdir

/-- The inode of an entry is in use. -/
def Node.below (n : Node) (k : ℕ) : Bool :=
  match n with
  | .file i => decide (i < k)
  | _ => true

theorem Sane.of_entries (htop : fs.get [] = some .dir)
    (hparent : ∀ e ∈ fs.tree, e.1 = [] ∨ fs.get e.1.dropLast = some .dir)
    (hinos : ∀ e ∈ fs.tree, Node.below e.2 fs.nextIno = true) : fs.Sane := by
  refine ⟨htop, fun l c n hn => ?_, fun l i hi => ?_⟩
  · have hdir := (hparent _ (PathMap.mem_of_get hn)).resolve_left (by simp)
    rwa [List.dropLast_concat] at hdir
  · simpa [Node.below] using hinos _ (PathMap.mem_of_get hi)

theorem Sane.put (h : fs.Sane) {d : Loc} {c : Name} (hd : fs.get d = some .dir)
    (hvac : fs.get (d ++ [c]) = none) {n : Node} {k : ℕ} (hk : fs.nextIno ≤ k)
    (hn : ∀ i, n = .file i → i < k) (hfs : fs'.tree = PathMap.put fs.tree (d ++ [c]) n)
    (hnext : fs'.nextIno = k) : fs'.Sane := by
  have hget : ∀ q, fs'.get q = if q = d ++ [c] then some n else fs.get q := by
    intro q
    rw [Fs.get, hfs]
    by_cases hq : q = d ++ [c]
    · rw [if_pos hq, hq, PathMap.get_put_self]
    · rw [if_neg hq, PathMap.get_put_of_ne _ _ hq]
      rfl
  refine ⟨?_, fun l c' n' hn' => ?_, fun l i hi => ?_⟩
  · rw [hget, if_neg (by simp)]
    exact h.top
  · rw [hget] at hn' ⊢
    -- the new entry has no children, and its parent is the directory
    have hpar : fs.get l = some .dir := by
      by_cases heq : l ++ [c'] = d ++ [c]
      · rw [(List.append_inj' heq rfl).1]
        exact hd
      · rw [if_neg heq] at hn'
        exact h.parent _ _ _ hn'
    rw [if_neg fun heq : l = d ++ [c] => by rw [heq, hvac] at hpar; cases hpar]
    exact hpar
  · rw [hget] at hi
    rw [hnext]
    by_cases hl : l = d ++ [c]
    · rw [if_pos hl] at hi
      exact hn i (Option.some.inj hi)
    · rw [if_neg hl] at hi
      exact lt_of_lt_of_le (h.inos _ _ hi) hk

theorem Sane.of_tree (h : fs.Sane) (htree : fs'.tree = fs.tree) (hnext : fs'.nextIno = fs.nextIno) :
    fs'.Sane := by
  have hget : ∀ q, fs'.get q = fs.get q := fun q => by rw [Fs.get, Fs.get, htree]
  refine ⟨by rw [hget, h.top], fun l c n hn => ?_, fun l i hi => ?_⟩
  · rw [hget] at hn ⊢
    exact h.parent _ _ _ hn
  · rw [hget] at hi
    rw [hnext]
    exact h.inos _ _ hi

theorem Sane.of_filter (h : fs.Sane) {keep : Loc → Prop} [DecidablePred keep]
    (hget : ∀ q, fs'.get q = if keep q then fs.get q else none) (htop : keep [])
    (hclosed : ∀ l c, keep (l ++ [c]) → fs.get (l ++ [c]) ≠ none → keep l)
    (hnext : fs'.nextIno = fs.nextIno) : fs'.Sane := by
  refine ⟨by rw [hget, if_pos htop, h.top], fun l c n hn => ?_, fun l i hi => ?_⟩
  · rw [hget] at hn ⊢
    by_cases hk : keep (l ++ [c])
    · rw [if_pos hk] at hn
      rw [if_pos (hclosed l c hk (by simp [hn]))]
      exact h.parent _ _ _ hn
    · rw [if_neg hk] at hn
      cases hn
  · rw [hget] at hi
    rw [hnext]
    split at hi
    · exact h.inos _ _ hi
    · cases hi

theorem Sane.removeEmpty (h : fs.Sane) (hl : l ≠ []) (hempty : ∀ c, fs.get (l ++ [c]) = none) :
    (fs.removeEntry l).Sane := by
  have hget : ∀ q, (fs.removeEntry l).get q = if q ≠ l then fs.get q else none := by
    intro q
    rw [get_removeEntry, ite_not]
  refine h.of_filter hget hl.symm (fun l' c _ hne heq => ?_) rfl
  subst heq
  exact hne (hempty c)

theorem Sane.removeEntry (h : fs.Sane) (hl : fs.get l ≠ some .dir) : (fs.removeEntry l).Sane := by
  refine h.removeEmpty ?_ fun c => h.get_below hl (List.prefix_append _ _) (by simp)
  rintro rfl
  exact hl h.top

theorem get_removeTree (fs : Fs) (l q : Loc) :
    (fs.removeTree l).get q = if l <+: q then none else fs.get q := by
  refine (PathMap.get_filter fs.tree (fun q => !decide (l <+: q)) q).trans ?_
  by_cases hq : l <+: q
  · rw [if_neg (by simp [hq]), if_pos hq]
  · rw [if_pos (by simp [hq]), if_neg hq]
    rfl

section

variable (h : fs.Sane)
include h

theorem Sane.removeTree (hl : l ≠ []) : (fs.removeTree l).Sane := by
  have hget : ∀ q, (fs.removeTree l).get q = if ¬ l <+: q then fs.get q else none := by
    intro q
    rw [get_removeTree]
    by_cases hq : l <+: q
    · rw [if_pos hq, if_neg (not_not_intro hq)]
    · rw [if_neg hq, if_pos hq]
  refine h.of_filter hget (by simpa using hl) (fun l' c hno _ hl' => ?_) rfl
  exact hno (hl'.trans (List.prefix_append _ _))

theorem Sane.moveEntry (h₁ : ¬ src <+: dst) (h₂ : ¬ dst <+: src)
    (hd : fs.get dst.dropLast = some .dir) : (fs.moveEntry src dst).Sane := by
  have hget := get_moveEntry fs h₁ h₂
  have hdst : dst ≠ [] := fun heq => h₂ (heq ▸ List.nil_prefix)
  have hsrc : src ≠ [] := fun heq => h₁ (heq ▸ List.nil_prefix)
  refine ⟨?_, fun l c n hn => ?_, fun l i hi => ?_⟩
  · rw [hget, if_neg (by simpa using hdst), if_neg (by simpa using hsrc), h.top]
  · rw [hget] at hn ⊢
    by_cases hlc : dst <+: l ++ [c]
    · rw [if_pos hlc] at hn
      rcases List.prefix_concat_iff.mp hlc with heq | hl
      · -- the moved entry itself, in its new directory
        have hl' : l = dst.dropLast := by rw [heq, List.dropLast_concat]
        have hlen : l.length < dst.length := by simp [heq]
        rw [if_neg fun hdl : dst <+: l => absurd hdl.length_le (not_le_of_gt hlen),
          if_neg fun hsl : src <+: l => h₁ (hsl.trans (heq ▸ List.prefix_append l [c])), hl']
        exact hd
      · rw [List.drop_append_of_le_length hl.length_le, ← List.append_assoc] at hn
        rw [if_pos hl]
        exact h.parent _ _ _ hn
    · rw [if_neg hlc] at hn
      by_cases hs : src <+: l ++ [c]
      · rw [if_pos hs] at hn
        cases hn
      · rw [if_neg hs] at hn
        rw [if_neg fun hl => hlc (hl.trans (List.prefix_append _ _)),
          if_neg fun hl => hs (hl.trans (List.prefix_append _ _))]
        exact h.parent _ _ _ hn
  · rw [hget] at hi
    split at hi
    · exact h.inos _ _ hi
    · split at hi
      · cases hi
      · exact h.inos _ _ hi

theorem parent_of_leaf_vacant {follow : Bool} {full : Loc} (hv : fs.leaf follow full = .vacant l) :
    ∃ d c, l = d ++ [c] ∧ fs.get d = some .dir ∧ fs.get l = none := by
  rw [leaf] at hv
  split at hv
  · next hnone =>
    have hne : full ≠ [] := by
      rintro rfl
      rw [h.top] at hnone
      cases hnone
    split at hv
    · next hdir =>
      cases hv
      exact ⟨_, _, (List.dropLast_append_getLast hne).symm, hdir, hnone⟩
    · cases hv
    · cases hv
  · split at hv
    · obtain ⟨hget, d, c, hl, hd⟩ := of_walk_vacant hv
      exact ⟨d, c, hl, hd, hget⟩
    · cases hv
  · cases hv

theorem Sane.makeEntry {n : Node} (hn : ∀ i, n ≠ .file i)
    (hok : fs.makeEntry l n = .ok (u, fs')) : fs'.Sane := by
  obtain ⟨d, c, rfl, hd, hvac⟩ := parent_of_leaf_vacant h (leaf_of_makeEntry hok)
  obtain rfl := makeEntry_ok hok
  exact h.put hd hvac le_rfl (fun i hi => absurd hi (hn i)) rfl rfl

theorem Sane.openCreate {trunc : Bool} {r : Loc × ℕ}
    (hok : fs.openCreate l trunc = .ok (r, fs')) : fs'.Sane := by
  rcases openCreate_ok hok with ⟨hv, rfl⟩ | ⟨_, _, rfl⟩
  · obtain ⟨d, c, hl, hd, hvac⟩ := parent_of_leaf_vacant h hv
    rw [hl] at hvac
    refine h.put hd hvac (Nat.le_succ _) (fun i hi => ?_) (by rw [← hl]; rfl) rfl
    cases hi
    exact Nat.lt_succ_self _
  · refine h.of_tree ?_ ?_ <;> cases trunc <;> rfl

theorem Sane.createNew {r : Loc × ℕ} (hok : fs.createNew l = .ok (r, fs')) : fs'.Sane := by
  obtain ⟨d, c, rfl, hd, hvac⟩ := parent_of_leaf_vacant h (leaf_of_createNew hok)
  obtain ⟨-, rfl⟩ := createNew_ok hok
  refine h.put hd hvac (Nat.le_succ _) (fun i hi => ?_) rfl rfl
  cases hi
  exact Nat.lt_succ_self _

theorem Sane.removeDir (hl : l ≠ []) (hok : fs.removeDir l = .ok (u, fs')) : fs'.Sane := by
  obtain ⟨⟨-, hempty⟩, rfl⟩ := removeDir_ok hok
  exact h.removeEmpty hl fun c =>
    PathMap.get_of_not_below hempty (List.prefix_append l [c]) (by simp)

theorem Sane.removeFile (hok : fs.removeFile l = .ok (u, fs')) : fs'.Sane := by
  obtain ⟨⟨-, hnd⟩, rfl⟩ := removeFile_ok hok
  exact h.removeEntry hnd

theorem Sane.rename (hok : fs.rename src dst = .ok (u, fs')) : fs'.Sane := by
  obtain ⟨_, ⟨_, rfl⟩ | ⟨h₁, h₂, _, rfl⟩⟩ := rename_ok hok
  · exact h.of_tree rfl rfl
  · refine h.moveEntry h₁ h₂ ?_
    have hne : dst ≠ [] := fun heq => h₂ (heq ▸ List.nil_prefix)
    rw [Fs.rename] at hok
    split at hok
    · next hld =>
      obtain ⟨rfl, hget⟩ := leaf_found hld
      obtain ⟨n, hn⟩ := Option.ne_none_iff_exists'.mp hget
      rw [← List.dropLast_append_getLast hne] at hn
      exact h.parent _ _ _ hn
    · next hld =>
      obtain ⟨d, c, rfl, hd, _⟩ := parent_of_leaf_vacant h hld
      obtain ⟨heq, _⟩ := leaf_vacant hld
      rw [← heq, List.dropLast_concat]
      exact hd
    · cases hok
    · cases hok
    · cases hok

theorem Sane.openFile {write : Bool} {r : Loc × Node}
    (hok : fs.openFile l write false = .ok (r, fs')) : fs'.Sane := by
  obtain ⟨_, _, rfl⟩ := openFile_ok hok
  cases r.2 <;> exact h.of_tree rfl rfl

theorem Sane.modify (ino : ℕ) (f : Inode → Inode) : (fs.modify ino f).Sane :=
  h.of_tree rfl rfl

end

end Sane

end Fs

/-- A file system as real ones are. -/
structure Disk where
  fs : Fs
  sane : fs.Sane

/-- A call that leaves the file system as real ones are. -/
structure DiskCall (α : Type) where
  run : Fs → Fs.Call α
  sane : ∀ fs a fs', fs.Sane → run fs = .ok (a, fs') → fs'.Sane

namespace DiskCall

open Fs

/-- Make the call. -/
def exec {α : Type} (c : DiskCall α) (d : Disk) : Except ErrorCode (α × Disk) :=
  match h : c.run d.fs with
  | .ok (a, fs) => .ok (a, ⟨fs, c.sane d.fs a fs d.sane h⟩)
  | .error e => .error e

theorem exec_ok {c : DiskCall α} {d d' : Disk} {a : α} (h : c.exec d = .ok (a, d')) :
    c.run d.fs = .ok (a, d'.fs) := by
  rw [exec] at h
  split at h
  · next a' fs hrun =>
    cases h
    exact hrun
  · cases h

theorem exec_error {c : DiskCall α} {d : Disk} {e : ErrorCode}
    (h : c.exec d = .error e) : c.run d.fs = .error e := by
  rw [exec] at h
  split at h
  · cases h
  · next hrun =>
    cases h
    exact hrun

theorem sane_onPath {f : Fs → Loc → Call α}
    (hf : ∀ fs l a fs', fs.Sane → f fs l = .ok (a, fs') → fs'.Sane) (fs : Fs) (a : α) (fs' : Fs)
    (h : fs.Sane) (hok : onPath full f fs = .ok (a, fs')) : fs'.Sane := by
  obtain ⟨l, -, hok⟩ := onPath_ok hok
  exact hf _ _ _ _ h hok

theorem sane_ensureDir (fs : Fs) (a : Unit) (fs' : Fs) (h : fs.Sane)
    (hok : fs.ensureDir full = .ok (a, fs')) : fs'.Sane := by
  rcases ensureDir_ok hok with ⟨l, -, hmade⟩ | rfl
  · exact h.makeEntry (fun _ => Node.noConfusion) hmade
  · exact h

/-- `create_dir_all`. -/
def createDirAll (full : List Name) : DiskCall Unit where
  run fs := fs.ensureDirs full.inits
  sane _ _ _ h hok :=
    ensureDirs_induction _ (fun _ _ _ _ _ h hok => sane_ensureDir _ _ _ h hok) _ _ _ h hok

/-- `remove_dir_all`. -/
def removeDirAll (full : List Name) : DiskCall Unit where
  run := onPath full removeAll
  sane := sane_onPath fun fs l a fs' h hok => by
    rw [removeAll] at hok
    split at hok
    · split at hok
      · cases hok
      · next hl =>
        cases hok
        exact h.removeTree hl
    · next hget =>
      cases hok
      exact h.removeEntry (by simp [hget])
    · cases hok
    · cases hok

/-- `fs::write`. -/
def write (full : List Name) (data : Bytes) : DiskCall Unit where
  run := onPath full fun fs l => fs.overwrite l data
  sane := sane_onPath fun fs l a fs' h hok => by
    rw [overwrite] at hok
    split at hok
    · next hopen =>
      cases hok
      exact (h.openCreate hopen).modify _ _
    · cases hok

/-- `fs::copy`. -/
def copy (src dst : List Name) : DiskCall Unit where
  run fs :=
    match onPath src (fun fs l => fs.openFile l false false) fs with
    | .ok ((_, .file i), fs') => onPath dst (fun fs l => fs.copyTo i l) fs'
    | .ok _ => .error .io
    | .error e => .error e
  sane fs a fs' h hok := by
    split at hok
    · next fs₁ hopen =>
      have h₁ := sane_onPath (fun _ _ _ _ h hok => h.openFile hok) _ _ _ h hopen
      refine sane_onPath (fun fs l a fs' h hok => ?_) _ _ _ h₁ hok
      rw [copyTo] at hok
      split at hok
      · next hcreate =>
        cases hok
        exact (h.openCreate hcreate).modify _ _
      · cases hok
    · cases hok
    · cases hok

/-- Open a file and `set_modified`. -/
def setModified (full : List Name) (t : SystemTime) : DiskCall Unit where
  run := onPath full fun fs l => fs.stamp l t
  sane := sane_onPath fun fs l a fs' h hok => by
    rw [stamp] at hok
    split at hok
    · next hopen =>
      cases hok
      exact (h.openFile hopen).modify _ _
    · cases hok
    · cases hok

/-- `remove_file`. -/
def removeFile (full : List Name) : DiskCall Unit where
  run := onPath full Fs.removeFile
  sane := sane_onPath fun _ _ _ _ h hok => h.removeFile hok

/-- `fs::rename`. -/
def rename (src dst : List Name) : DiskCall Unit where
  run := onPath src fun fs ls => onPath dst (fun fs ld => fs.rename ls ld) fs
  sane :=
    sane_onPath fun _ _ _ _ h hok => sane_onPath (fun _ _ _ _ h hok => h.rename hok) _ _ _ h hok

/-- `create_dir`. -/
def createDir (full : List Name) : DiskCall Unit where
  run := onPath full Fs.createDir
  sane := sane_onPath fun _ _ _ _ h hok => h.makeEntry (fun _ => Node.noConfusion) hok

/-- `remove_dir`; the root stays. -/
def removeDir (full : List Name) : DiskCall Unit where
  run := onPath full fun fs l => if l = [] then .error .io else fs.removeDir l
  sane := sane_onPath fun _ _ _ _ h hok => by
    split at hok
    · cases hok
    · next hl => exact h.removeDir hl hok

/-- Open for writing with `create_new`, or with `create` and `truncate`. -/
def createFile (full : List Name) (excl trunc : Bool) : DiskCall (Loc × ℕ) where
  run := onPath full fun fs l => if excl then fs.createNew l else fs.openCreate l trunc
  sane := sane_onPath fun _ _ _ _ h hok => by
    split at hok
    · exact h.createNew hok
    · exact h.openCreate hok

end DiskCall

end AlloyFs
