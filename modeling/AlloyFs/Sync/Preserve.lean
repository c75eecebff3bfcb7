import AlloyFs.Lib.Transition
import AlloyFs.Sync.Effects

/-!
# Deletes and edits

A local file that was edited since the baseline was taken, that is new or that is excluded
must survive whatever the other side deletes.  A delete looks only at the baseline of the
path it was asked to delete, so what lies below a directory goes with it.
-/

namespace AlloyFs.Sync

open List
variable {fs : Fs}

namespace SyncEngine

open Act

variable {σ : Type} {peer : Peer σ} {s s₀ s₁ : SyncEngine σ} {rel p : Text} {l : Loc} {c : Bytes}
  {at_ : Option Loc}

/-! ## What a delete removes -/

/-- The location that `deleteLocal` removes with everything below it. -/
def removalOf (s : SyncEngine σ) (rel : Text) : Option Loc :=
  match s.localStat rel with
  | none => none
  | some st =>
    if editWins (s.manifest.get rel) st || s.env.fault s.calls then none
    else
      match s.disk.fs.locate (s.full rel) with
      | .ok l => if l = [] then none else some l
      | .error _ => none

/-- A location and everything below it is gone; the rest is as it was. -/
structure Removed (s₁ : SyncEngine σ) (at_ : Option Loc) (k : Core) (r : σ) : Prop where
  root : k.root = s₁.root
  remote : r = s₁.remote
  inodes : k.disk.fs.inodes = s₁.disk.fs.inodes
  gone : ∀ l ∈ at_, ∀ q, l <+: q → k.disk.fs.get q = none
  rest : ∀ q, (∀ l ∈ at_, ¬ l <+: q) → k.disk.fs.get q = s₁.disk.fs.get q

theorem Removed.refl {k : Core} {r : σ} (hroot : k.root = s₁.root) (hdisk : k.disk = s₁.disk)
    (hremote : r = s₁.remote) : Removed s₁ none k r :=
  ⟨hroot, hremote, by rw [hdisk], nofun, fun _ _ => by rw [hdisk]⟩

theorem localStat_eq_some {st : Stat} (h : s.localStat rel = some st) :
    ∃ l n, s.disk.fs.locate (s.full rel) = .ok l ∧ s.disk.fs.get l = some n ∧
      (st.kind = .dir ↔ n = .dir) := by
  rw [localStat, Fs.lstat] at h
  cases hloc : s.disk.fs.locate (s.full rel) with
  | error e =>
    rw [hloc] at h
    cases h
  | ok l =>
    rw [hloc] at h
    refine ⟨l, ?_⟩
    cases hget : s.disk.fs.get l with
    | none =>
      simp only [Fs.stat, hget] at h
      cases h
    | some n =>
      refine ⟨n, rfl, rfl, ?_⟩
      cases n with
      | dir =>
        simp only [Fs.stat, hget, Option.some.injEq] at h
        simp [← h]
      | file i =>
        simp only [Fs.stat, hget, Option.some.injEq] at h
        simp [← h]
      | symlink t =>
        simp only [Fs.stat, hget, Option.some.injEq] at h
        simp [← h]

/-- What `remove_dir_all` and `remove_file` leave of a file system. -/
def Gone (fs : Fs) (l : Loc) (fs' : Fs) : Prop :=
  fs'.inodes = fs.inodes ∧ ∀ q, fs'.get q = if l <+: q then none else fs.get q

theorem gone_removeEntry (h : fs.Sane) (hl : fs.get l ≠ some .dir) :
    Gone fs l (fs.removeEntry l) := by
  refine ⟨rfl, fun q => ?_⟩
  rw [Fs.get_removeEntry]
  by_cases hq : q = l
  · rw [if_pos hq, if_pos (hq ▸ prefix_rfl)]
  · rw [if_neg hq]
    split
    · next hpre => exact h.get_below hl hpre hq
    · rfl

theorem removeDirAll_run {full : List Name} (hloc : fs.locate full = .ok l)
    (hget : fs.get l = some .dir) :
    (DiskCall.removeDirAll full).run fs =
      if l = [] then .error .io else .ok ((), fs.removeTree l) := by
  simp only [DiskCall.removeDirAll, Fs.onPath, hloc, Fs.removeAll, hget]

theorem removeFile_run {full : List Name} (hloc : fs.locate full = .ok l) {n : Node}
    (hget : fs.get l = some n) (hn : n ≠ .dir) :
    (DiskCall.removeFile full).run fs = .ok ((), fs.removeEntry l) := by
  simp only [DiskCall.removeFile, Fs.onPath, hloc, Fs.removeFile]
  cases n with
  | dir => exact absurd rfl hn
  | file i => simp only [Fs.leaf, hget]
  | symlink t => simp only [Fs.leaf, hget, Bool.false_eq_true, if_false]

/-- Both sides are as in a state given before. -/
abbrev Same (s₁ : SyncEngine σ) : SyncEngine σ → Prop :=
  OnBoth fun k r => k = s₁.core ∧ r = s₁.remote

theorem removed_onDisk {d : DiskCall Unit} {st : Stat} {fs' : Fs} (hst : s₁.localStat rel = some st)
    (hclean : editWins (s₁.manifest.get rel) st = false)
    (hloc : s₁.disk.fs.locate (s₁.full rel) = .ok l) (hgone : Gone s₁.disk.fs l fs')
    (hrun : d.run s₁.disk.fs = if l = [] then .error .io else .ok ((), fs')) :
    Triple (Same s₁) (onDisk d) (fun _ => OnBoth (Removed s₁ (removalOf s₁ rel)))
      (OnBoth (Removed s₁ (removalOf s₁ rel))) := by
  have hremoval : removalOf s₁ rel =
      if s₁.env.fault s₁.calls = true ∨ l = [] then none else some l := by
    simp only [removalOf, hst, hclean, hloc, Bool.false_or]
    by_cases hf : s₁.env.fault s₁.calls = true
    · simp only [hf, if_true, true_or]
    · simp only [hf, Bool.false_eq_true, if_false, false_or]
  refine triple_onDisk (fun s u disk hs hf hdisk => ?_) fun s hs hfail => ?_
  · have hs' : From s₁ s := hs.1
    rw [hs'.disk, hrun] at hdisk
    split at hdisk
    · cases hdisk
    · next hl =>
      cases hdisk
      rw [hs'.fault] at hf
      rw [hremoval, if_neg (by simp [hf, hl])]
      refine ⟨hs'.root, hs.2, hgone.1, fun l' hl' q hq => ?_, fun q hq => ?_⟩
      · cases hl'
        exact (hgone.2 q).trans (if_pos hq)
      · exact (hgone.2 q).trans (if_neg (hq l rfl))
  · have hs' : From s₁ s := hs.1
    have hnone : removalOf s₁ rel = none := by
      rw [hremoval]
      refine if_pos ?_
      by_contra hno
      rw [not_or, Bool.not_eq_true] at hno
      obtain ⟨e, he⟩ := hfail (hs'.fault.trans hno.1)
      rw [hs'.disk, hrun, if_neg hno.2] at he
      cases he
    rw [hnone]
    exact Removed.refl hs'.root hs'.disk hs.2

/-- **A delete removes what it names with everything below it**, unless the path itself was
edited. -/
theorem removed_deleteLocal (s₁ : SyncEngine σ) (rel : Text) : Triple (Same s₁) (deleteLocal rel)
    (fun _ => OnBoth (Removed s₁ (removalOf s₁ rel)))
    (OnBoth (Removed s₁ (removalOf s₁ rel))) := by
  refine Triple.bind (Q := fun s t => Same s₁ t ∧ From s₁ s) (Triple.get fun s hs => ⟨hs, hs.1⟩)
    fun s => Triple.of_fact fun hs => ?_
  rw [hs.localStat, hs.manifest, hs.full]
  cases hst : s₁.localStat rel with
  | none =>
    refine Triple.modify fun t ht => ?_
    rw [show removalOf s₁ rel = none by simp only [removalOf, hst]]
    exact Removed.refl (congrArg Core.root ht.1) (congrArg Core.disk ht.1) ht.2
  | some st =>
    dsimp only
    refine Triple.ite (fun hedit => ?_) fun hclean => ?_
    · refine Triple.pure fun t ht => ?_
      rw [show removalOf s₁ rel = none by simp [removalOf, hst, hedit]]
      exact Removed.refl (congrArg Core.root ht.1) (congrArg Core.disk ht.1) ht.2
    have hclean : editWins (s₁.manifest.get rel) st = false := by simpa using hclean
    obtain ⟨l, n, hloc, hget, hkind⟩ := localStat_eq_some hst
    have hrecord : ∀ f : SyncManifest → SyncManifest,
        Keeps (OnBoth (Removed s₁ (removalOf s₁ rel)))
          (modify fun s : SyncEngine σ => { s with manifest := f s.manifest } : EngineM σ Unit) :=
      fun f => keeps_modify fun t ht => ⟨ht.root, ht.remote, ht.inodes, ht.gone, ht.rest⟩
    refine Triple.ite (fun hdir => ?_) fun hfile => ?_
    · refine Triple.bind (triple_expectGone rel _) fun _ =>
        Triple.bind (triple_expect rel _) fun _ => ?_
      have hn : s₁.disk.fs.get l = some .dir := (hkind.mp hdir) ▸ hget
      have hgone : Gone s₁.disk.fs l (s₁.disk.fs.removeTree l) := ⟨rfl, Fs.get_removeTree _ l⟩
      exact Triple.bind (removed_onDisk hst hclean hloc hgone (removeDirAll_run hloc hn))
        fun _ => hrecord fun m => m.removeTree rel
    · refine Triple.bind (triple_expect rel _) fun _ => ?_
      have hn : n ≠ .dir := fun h => hfile (hkind.mpr h)
      have hl : l ≠ [] := by
        rintro rfl
        exact hn (Option.some.inj (hget.symm.trans s₁.disk.sane.top))
      have hnd : s₁.disk.fs.get l ≠ some .dir := fun h => hn (Option.some.inj (hget.symm.trans h))
      exact Triple.bind (removed_onDisk hst hclean hloc (gone_removeEntry s₁.disk.sane hnd)
        ((removeFile_run hloc hget hn).trans (if_neg hl).symm)) fun _ =>
          hrecord fun m => m.remove rel

/-! ## What must survive -/

/-- A regular file below the root that the baseline does not describe as it is, or that is
excluded. -/
def Unsynced (s : SyncEngine σ) (l : Loc) : Prop :=
  s.root <+: l ∧ s.disk.fs.contentAt l ≠ none ∧
    ∀ st ∈ statOfEntry s.disk.fs l,
      localDirty (s.manifest.get (stripRoot s.root l).text) st = true ∨
        s.exclude.isExcluded (stripRoot s.root l) = true
deriving Decidable

/-- Where a conflict copy of a file is. -/
def copyLoc (l : Loc) (secs : ℕ) : Loc :=
  l.dropLast ++ [l.getLast?.getD [] ++ conflictSuffix secs]

/-- The server has the content, at the path of the file or in a conflict copy. -/
def OnServer (peer : Peer σ) (s : SyncEngine σ) (l : Loc) (c : Bytes) : Prop :=
  peer.holds s.remote (stripRoot s.root l) c ∨
    ∃ secs, peer.holds s.remote ⟨conflictName (stripRoot s.root l).text secs⟩ c

/-- The content of a file is at its path or in a conflict copy, here or on the server. -/
def Survives (peer : Peer σ) (s : SyncEngine σ) (l : Loc) (c : Bytes) : Prop :=
  s.disk.fs.contentAt l = some c ∨ (∃ secs, s.disk.fs.contentAt (copyLoc l secs) = some c) ∨
    OnServer peer s l c

/-- Every file of `s` that must survive does so in `t`. -/
def AllSurvive (peer : Peer σ) (s t : SyncEngine σ) : Prop :=
  ∀ l c, Unsynced s l → s.disk.fs.contentAt l = some c → Survives peer t l c

theorem copyLoc_full (s : SyncEngine σ) (p : Text) (secs : ℕ) :
    copyLoc (s.full p) secs = s.full (conflictName p secs) := by
  obtain ⟨dir, x, hfull⟩ := exists_full_eq_concat s p
  rw [hfull, copyLoc, dropLast_concat, getLast?_concat, Option.getD_some]
  exact (full_conflictName hfull secs).symm

theorem full_injective (s : SyncEngine σ) : Function.Injective s.full := by
  intro p q h
  have hcomps : RelPath.comps ⟨p⟩ = RelPath.comps ⟨q⟩ := append_cancel_left h
  exact RelPath.mk.inj (RelPath.comps_injective hcomps)

theorem isConflictCopy_conflictName (p : Text) (secs : ℕ) :
    isConflictCopy (conflictName p secs) = true := by
  unfold isConflictCopy conflictName conflictSuffix
  exact decide_eq_true ⟨p, Nat.toDigits 10 secs, append_assoc _ _ _⟩

/-! ## What a reconcile keeps -/

/-- Nothing was at a path when the reconcile began, and the baseline did not know it. -/
def Fresh (s₀ : SyncEngine σ) (p : Text) : Prop :=
  s₀.disk.fs.get (s₀.full p) = none ∧ s₀.manifest.get p = none
deriving Decidable

/-- Every file that must survive is where it was, as it was, or in a conflict copy made
since. -/
def Held (s₀ : SyncEngine σ) (root : Loc) (disk : Disk) : Prop :=
  root = s₀.root ∧ ∀ l, Unsynced s₀ l → disk.fs.fileAt l = s₀.disk.fs.fileAt l ∨
    ∃ p secs, l = s₀.full p ∧ Fresh s₀ (conflictName p secs) ∧
      disk.fs.contentAt (s₀.full (conflictName p secs)) = s₀.disk.fs.contentAt l

/-- An action on a path may put a file in its place. -/
structure OverwriteOk (s₀ s : SyncEngine σ) (p : Text) : Prop where
  site : Site s p
  /-- a conflict copy would be new -/
  fresh : Fresh s₀ (s.keepName p)
  /-- the path is no conflict copy made by this reconcile -/
  notMade : isConflictCopy p = true →
    s.disk.fs.get (s.full p) = none ∨ s₀.disk.fs.get (s₀.full p) ≠ none
  /-- an edited file at the path can be copied aside, and the engine still knows it is edited -/
  edited : Unsynced s₀ (s₀.full p) → isConflictCopy p = false ∧
    s.env.fault s.calls = false ∧ s.manifest.get p = s₀.manifest.get p

/-- A delete of a path takes no other file away that must survive. -/
structure DeleteOk (s₀ s : SyncEngine σ) (p : Text) : Prop where
  plain : Plain s p
  known : s.manifest.get p = s₀.manifest.get p
  below : ∀ l ∈ s₀.disk.fs.tree.map Prod.fst, Unsynced s₀ l → s.full p <+: l → l = s.full p

/-- When an action of a reconcile that began in `s₀` takes nothing away. -/
def ActionOk (s₀ s : SyncEngine σ) : Action → Prop
  | .pull p | .push p | .conflict p _ _ => OverwriteOk s₀ s p
  | .deleteRemote p _ => OverwriteOk s₀ s p ∧ s.disk.fs.get (s.full p) = none
  | .deleteLocal p _ => DeleteOk s₀ s p
  | .adopt _ _ | .forget _ => True

instance (s₀ s : SyncEngine σ) (p : Text) : Decidable (OverwriteOk s₀ s p) :=
  decidable_of_iff (_ ∧ _ ∧ _ ∧ _)
    ⟨fun ⟨a, b, c, d⟩ => ⟨a, b, c, d⟩, fun ⟨a, b, c, d⟩ => ⟨a, b, c, d⟩⟩

instance (s₀ s : SyncEngine σ) (p : Text) : Decidable (DeleteOk s₀ s p) :=
  decidable_of_iff (_ ∧ _ ∧ _) ⟨fun ⟨a, b, c⟩ => ⟨a, b, c⟩, fun ⟨a, b, c⟩ => ⟨a, b, c⟩⟩

instance (s₀ s : SyncEngine σ) : (a : Action) → Decidable (ActionOk s₀ s a) := fun l => by
  unfold ActionOk
  split <;> infer_instance

theorem Held.survives (h : Held s₀ s.root s.disk) (hl : Unsynced s₀ l)
    (hc : s₀.disk.fs.contentAt l = some c) : Survives peer s l c := by
  rcases h.2 l hl with hsame | ⟨p, secs, rfl, _, hcopy⟩
  · left
    rw [Fs.contentAt_eq, hsame, ← Fs.contentAt_eq, hc]
  · right; left
    refine ⟨secs, ?_⟩
    rw [copyLoc_full, hcopy, hc]

theorem Unsynced.fileAt (h : Unsynced s₀ l) : s₀.disk.fs.fileAt l ≠ none := by
  intro hnone
  refine h.2.1 ?_
  rw [Fs.contentAt_eq, hnone]
  rfl

theorem statOfEntry_of_fileAt {n : Inode} (h : fs.fileAt l = some n) :
    statOfEntry fs l = some ⟨.file, n.content.length, mtimeNsOf n.mtime, 0⟩ := by
  rw [Fs.fileAt] at h
  split at h
  · next i hi =>
    cases h
    rw [statOfEntry, hi]
  · cases h

theorem localStat_of_fileAt (hp : Plain s p) {n : Inode}
    (h : s.disk.fs.fileAt (s.full p) = some n) :
    s.localStat p = some ⟨.file, n.content.length, mtimeNsOf n.mtime, 0⟩ := by
  rw [Fs.fileAt] at h
  split at h
  · next i hi =>
    cases h
    obtain ⟨dir, x, hfull⟩ := exists_full_eq_concat s p
    have hloc := s.disk.sane.locate_of_get (fun c hc => hp.ordinary hc) (by simp [hfull]) hi
    rw [localStat, Fs.lstat, hloc]
    simp only [Fs.stat, hi]
  · cases h

theorem Unsynced.dirty (hl : Unsynced s₀ (s₀.full p)) (hp : Plain s p) (hroot : s.root = s₀.root)
    (hsame : s.disk.fs.fileAt (s₀.full p) = s₀.disk.fs.fileAt (s₀.full p))
    (hseen : s₀.exclude.isExcluded ⟨p⟩ = false) :
    ∃ st, s.localStat p = some st ∧ st.kind = .file ∧ localDirty (s₀.manifest.get p) st = true := by
  obtain ⟨n, hn⟩ := Option.ne_none_iff_exists'.mp hl.fileAt
  have hfull : s.full p = s₀.full p := by rw [full, full, hroot]
  refine ⟨_, localStat_of_fileAt hp (hfull ▸ hsame.trans hn), rfl, ?_⟩
  have hstrip : stripRoot s₀.root (s₀.full p) = ⟨p⟩ := stripRoot_append s₀.root ⟨⟨p⟩, hp.valid⟩
  have hdirty := hl.2.2 _ (statOfEntry_of_fileAt hn)
  rw [hstrip, hseen] at hdirty
  exact hdirty.resolve_right (by simp)

theorem editWins_of_localDirty {b : SyncEntry} {st : Stat} (hkind : st.kind = .file)
    (h : localDirty (some b) st = true) : editWins (some b) st = true := by
  by_contra hno
  simp [editWins, hkind] at hno
  simp [localDirty, hkind, hno] at h

theorem Held.overwrite {root : Loc} {disk : Disk} (h : Held s₀ s.root s.disk)
    (hok : OverwriteOk s₀ s p) (hseen : s₀.exclude.isExcluded ⟨p⟩ = false)
    (hres : Result s p root disk) : Held s₀ root disk := by
  have hfull : ∀ q, s.full q = s₀.full q := fun q => by rw [full, full, h.1]
  refine ⟨hres.root_eq.trans h.1, fun l hl => ?_⟩
  rcases h.2 l hl with hsame | ⟨q, secs, rfl, hfresh, hcopy⟩
  · have hthere : s.disk.fs.fileAt l ≠ none := hsame ▸ hl.fileAt
    by_cases heq : l = s.full p
    · subst heq
      rw [hfull] at hl hsame hthere ⊢
      obtain ⟨horig, hfault, hbase⟩ := hok.edited hl
      obtain ⟨st, hst, _, hdirty⟩ := hl.dirty hok.site.toPlain h.1 hsame hseen
      have hfile : ∃ i, s.disk.fs.get (s.full p) = some (.file i) := by
        rw [Fs.fileAt] at hthere
        split at hthere
        · next i hi => exact ⟨i, hfull p ▸ hi⟩
        · exact absurd rfl hthere
      rcases hres.saved ⟨hfile, ⟨st, hst, hbase ▸ hdirty⟩, horig, hfault⟩ with hkept | hkept
      · rw [hfull] at hkept
        exact .inl (hkept.trans hsame)
      · rw [hfull, hfull] at hkept
        refine .inr ⟨p, _, rfl, hok.fresh, hkept.trans ?_⟩
        rw [Fs.contentAt_eq, hsame, ← Fs.contentAt_eq]
    · exact .inl ((hres.others l hthere heq).trans hsame)
  · refine .inr ⟨q, secs, rfl, hfresh, ?_⟩
    have hthere : s.disk.fs.fileAt (s₀.full (conflictName q secs)) ≠ none := by
      intro hnone
      rw [Fs.contentAt_eq, hnone] at hcopy
      exact hl.2.1 hcopy.symm
    -- the action is not on the copy itself
    have hne : s₀.full (conflictName q secs) ≠ s.full p := by
      rw [hfull]
      intro heq
      obtain rfl := full_injective s₀ heq
      rcases hok.notMade (isConflictCopy_conflictName q secs) with hnone | hsome
      · rw [hfull] at hnone
        rw [Fs.fileAt, hnone] at hthere
        exact hthere rfl
      · exact hsome hfresh.1
    rw [Fs.contentAt_eq, hres.others _ hthere hne, ← Fs.contentAt_eq, hcopy]

theorem Held.delete {k : Core} {r : σ} (h : Held s₀ s.root s.disk) (hok : DeleteOk s₀ s p)
    (hseen : s₀.exclude.isExcluded ⟨p⟩ = false) (hbase : s₀.manifest.get p ≠ none)
    (hres : Removed s (removalOf s p) k r) : Held s₀ k.root k.disk := by
  have hfull : ∀ q, s.full q = s₀.full q := fun q => by rw [full, full, h.1]
  have hat : ∀ w, removalOf s p = some w → w = s.full p := by
    intro w hw
    rw [removalOf] at hw
    split at hw
    · cases hw
    · split at hw
      · cases hw
      · split at hw
        · next l' hloc =>
          obtain ⟨-, rfl⟩ := of_guard_not hw
          exact Fs.locate_eq (fun c hc => hok.plain.ordinary hc)
            (hok.plain.noLinks.mono ( dropLast_prefix _)) hloc
        · cases hw
  have hkept : ∀ w, ¬ (removalOf s p = some (s.full p) ∧ s.full p <+: w) →
      k.disk.fs.fileAt w = s.disk.fs.fileAt w := by
    intro w hno
    have hget := hres.rest w fun w' hw' hpre => hno ⟨hat w' hw' ▸ hw', hat w' hw' ▸ hpre⟩
    rw [Fs.fileAt, Fs.fileAt, hget, hres.inodes]
  -- no file that must survive is below the path, except at the path itself
  have hbelow : ∀ l, Unsynced s₀ l → s.full p <+: l → l = s.full p := by
    intro l hl hpre
    obtain ⟨i, hi, _⟩ := Fs.get_of_contentAt (Option.ne_none_iff_exists'.mp hl.2.1).choose_spec
    exact hok.below l (mem_map_of_mem (PathMap.mem_of_get hi)) hl hpre
  refine ⟨hres.root.trans h.1, fun l hl => ?_⟩
  rcases h.2 l hl with hsame | ⟨q, secs, rfl, hfresh, hcopy⟩
  · refine .inl ((hkept l fun hgone => ?_).trans hsame)
    obtain ⟨hrem, hpre⟩ := hgone
    obtain rfl := hbelow l hl hpre
    rw [hfull] at hl hsame
    obtain ⟨st, hst, hkind, hdirty⟩ := hl.dirty hok.plain h.1 hsame hseen
    obtain ⟨b, hb⟩ := Option.ne_none_iff_exists'.mp hbase
    have hwins : editWins (s.manifest.get p) st = true := by
      rw [hok.known, hb]
      exact editWins_of_localDirty hkind (hb ▸ hdirty)
    rw [removalOf, hst] at hrem
    simp [hwins] at hrem
  · refine .inr ⟨q, secs, rfl, hfresh, ?_⟩
    have hw := hkept (s₀.full (conflictName q secs)) fun hgone => ?_
    · rw [Fs.contentAt_eq, hw, ← Fs.contentAt_eq, hcopy]
    · obtain ⟨-, hpre⟩ := hgone
      obtain ⟨dir, x, hq⟩ := exists_full_eq_concat s₀ q
      have hname : s₀.full (conflictName q secs) = dir ++ [x ++ conflictSuffix secs] :=
        full_conflictName hq secs
      rw [hname] at hpre
      rcases prefix_concat_iff.mp hpre with heq | hdir
      · -- the baseline did not know the copy
        rw [← hname, hfull] at heq
        obtain rfl := full_injective s₀ heq
        exact hbase hfresh.2
      · have hpq : s.full p <+: s₀.full q := hq ▸ hdir.trans (prefix_append _ _)
        have hlen := congrArg length (hbelow _ hl hpq)
        have hle := hdir.length_le
        rw [hq, length_append, length_singleton] at hlen
        omega

/-! ## A delete the server reports -/

/-- What an event that reports a delete removes. -/
def eventRemoval (s : SyncEngine σ) (path : RelPath) : Option Loc :=
  if s.exclude.isExcluded path || isInternal path.text then none else removalOf s path.text

/-- What is removed and must survive is somewhere else too. -/
def RemovalOk (peer : Peer σ) (s : SyncEngine σ) (path : RelPath) : Prop :=
  ∀ loc ∈ eventRemoval s path, ∀ l c, loc <+: l → Unsynced s l →
    s.disk.fs.contentAt l = some c →
    (∃ secs, ¬ loc <+: copyLoc l secs ∧ s.disk.fs.contentAt (copyLoc l secs) = some c) ∨
      OnServer peer s l c

theorem removed_applyRemote (peer : Peer σ) (s : SyncEngine σ) {ev : FsEvent}
    (hev : ev.kind = .removed) :
    Removed s (eventRemoval s ev.path) (final (applyRemote peer ev s)).core
      (final (applyRemote peer ev s)).remote := by
  have hrun : Triple (Same s) (applyRemote peer ev)
      (fun _ => OnBoth (Removed s (eventRemoval s ev.path)))
      (OnBoth (Removed s (eventRemoval s ev.path))) := by
    refine Triple.bind (Q := fun t u => Same s u ∧ From s t) (Triple.get fun t ht => ⟨ht, ht.1⟩)
      fun t => Triple.of_fact fun ht => ?_
    have hexclude : t.exclude = s.exclude := congrArg Core.exclude ht
    by_cases hx : (s.exclude.isExcluded ev.path || isInternal ev.path.text) = true
    · simp only [hexclude, eventRemoval, hx, if_true]
      exact Triple.pure fun u hu =>
        Removed.refl (congrArg Core.root hu.1) (congrArg Core.disk hu.1) hu.2
    · simp only [hexclude, eventRemoval, hx, hev, Bool.false_eq_true, if_false]
      exact removed_deleteLocal s _
  exact Triple.final hrun ⟨rfl, rfl⟩

section

variable (h : Removed s at_ s₁.core s₁.remote)
include h

theorem Removed.contentAt_gone {loc q : Loc}
    (hloc : loc ∈ at_) (hq : loc <+: q) : s₁.disk.fs.contentAt q = none := by
  have hget : s₁.disk.fs.get q = none := h.gone loc hloc q hq
  rw [Fs.contentAt, hget]

theorem Removed.contentAt_rest {q : Loc}
    (hq : ∀ loc ∈ at_, ¬ loc <+: q) : s₁.disk.fs.contentAt q = s.disk.fs.contentAt q := by
  have hget : s₁.disk.fs.get q = s.disk.fs.get q := h.rest q hq
  have hino : s₁.disk.fs.inodes = s.disk.fs.inodes := h.inodes
  rw [Fs.contentAt, Fs.contentAt, hget, hino]

theorem Removed.onServer : OnServer peer s₁ l c ↔ OnServer peer s l c := by
  have hroot : s₁.root = s.root := h.root
  have hremote : s₁.remote = s.remote := h.remote
  rw [OnServer, OnServer, hroot, hremote]

end

/-- **What a reported delete takes away**: exactly what it removes and is nowhere else. -/
theorem allSurvive_applyRemote_iff {ev : FsEvent} (hev : ev.kind = .removed) :
    AllSurvive peer s (final (applyRemote peer ev s)) ↔ RemovalOk peer s ev.path := by
  have hrem := removed_applyRemote peer s hev
  constructor
  · intro hall loc hloc l c hpre hl hc
    rcases hall l c hl hc with hsame | ⟨secs, hcopy⟩ | hserver
    · rw [hrem.contentAt_gone hloc hpre] at hsame
      cases hsame
    · by_cases hbelow : loc <+: copyLoc l secs
      · rw [hrem.contentAt_gone hloc hbelow] at hcopy
        cases hcopy
      · refine .inl ⟨secs, hbelow, ?_⟩
        rw [← hrem.contentAt_rest fun loc' hloc' => ?_]
        · exact hcopy
        · rw [Option.mem_unique hloc' hloc]
          exact hbelow
    · exact .inr (hrem.onServer.mp hserver)
  · intro hok l c hl hc
    by_cases hbelow : ∃ loc ∈ eventRemoval s ev.path, loc <+: l
    · obtain ⟨loc, hloc, hpre⟩ := hbelow
      rcases hok loc hloc l c hpre hl hc with ⟨secs, hno, hcopy⟩ | hserver
      · refine .inr (.inl ⟨secs, ?_⟩)
        rw [hrem.contentAt_rest fun loc' hloc' => ?_]
        · exact hcopy
        · rw [Option.mem_unique hloc' hloc]
          exact hno
      · exact .inr (.inr (hrem.onServer.mpr hserver))
    · refine .inl ?_
      rw [hrem.contentAt_rest fun loc hloc hpre => hbelow ⟨loc, hloc, hpre⟩]
      exact hc

/-! ## Whole reconciles -/

theorem listed_scanRemote {exclude : ExcludeSet} {dir : Text} {acc : Snapshot × List Text}
    (h : Listed exclude acc.1) (e : DirEntry) :
    Listed exclude (scanRemote exclude dir acc e).1 := by
  rw [scanRemote]
  generalize (if dir.isEmpty = true then e.name else dirPrefix dir ++ e.name) = path
  have hinsert : (exclude.isExcluded ⟨path⟩ || isInternal path) = false → ∀ st,
      Listed exclude (acc.1.insert path st) := by
    intro hx st path' hp
    rw [Bool.or_eq_false_iff] at hx
    rcases (AList.mem_insert _).mp hp with rfl | hp
    · exact hx
    · exact h path' hp
  split
  · exact h
  · next hx =>
    have hx := hinsert (by simpa using hx)
    split
    · exact hx _
    · exact hx _
    · exact h

theorem listed_remoteLoop (n : ℕ) : ∀ (pages : List (Text × ℕ)) (snap : Snapshot),
    Listed s₀.exclude snap → Triple (From s₀) (remoteLoop peer n pages snap)
      (fun snap' s => From s₀ s ∧ Listed s₀.exclude snap') (From s₀) := by
  have hfold : ∀ (dir : Text) (es : List DirEntry) (acc : Snapshot × List Text),
      Listed s₀.exclude acc.1 → Listed s₀.exclude (es.foldl (scanRemote s₀.exclude dir) acc).1 := by
    intro dir es
    induction es with
    | nil => exact fun _ h => h
    | cons e es ih => exact fun _ h => ih _ (listed_scanRemote h e)
  induction n with
  | zero =>
    rintro (_ | ⟨page, rest⟩) snap h
    · exact Triple.pure fun s hs => ⟨hs, h⟩
    · exact fun s hs => hs
  | succ n ih =>
    rintro (_ | ⟨⟨dir, cursor⟩, rest⟩) snap h
    · exact Triple.pure fun s hs => ⟨hs, h⟩
    · refine Triple.bind (Q := fun s t => From s₀ t ∧ From s₀ s) (Triple.get fun s hs => ⟨hs, hs⟩)
        fun s => Triple.of_fact fun hs => ?_
      have hexclude : s.exclude = s₀.exclude := congrArg Core.exclude hs
      refine Triple.bind (keeps_ask _) fun resp => ?_
      split
      · rw [hexclude]
        exact ih _ _ (hfold dir _ (snap, []) h)
      · exact fun s hs => hs

/-- What is known of a planned action. -/
def Planned (s₀ : SyncEngine σ) (a : Action) : Prop :=
  (s₀.exclude.isExcluded ⟨a.path⟩ = false ∨ a = .forget a.path) ∧
    ∀ p kind, a = .deleteLocal p kind → s₀.manifest.get p ≠ none

theorem planned_reconcilePlan (peer : Peer σ) (s₀ : SyncEngine σ) (fuel : ℕ) :
    Triple (From s₀) (reconcilePlan peer fuel)
    (fun acts s => From s₀ s ∧ ∀ a ∈ acts, Planned s₀ a) (From s₀) := by
  refine Triple.bind (listed_remoteLoop fuel _ _ fun _ hp => absurd hp (AList.notMem_empty _))
    fun there => Triple.of_fact fun hthere => ?_
  refine Triple.bind (Q := fun s t => From s₀ t ∧ From s₀ s) (Triple.get fun s hs => ⟨hs, hs⟩)
    fun s => Triple.of_fact fun hs => ?_
  have hexclude : s.exclude = s₀.exclude := congrArg Core.exclude hs
  refine Triple.bind (Q := fun here t => From s₀ t ∧ Listed s₀.exclude here)
    (Triple.orFail (fun here t hok ht => ⟨ht, ?_⟩) fun _ ht => ht) fun here =>
      Triple.of_fact fun hhere => Triple.pure fun t ht => ⟨ht, fun a ha => ?_⟩
  · cases hsnap : snapshotLocal s.disk.fs s.root s.exclude with
    | ok snap =>
      rw [hsnap] at hok
      cases hok
      exact hexclude ▸ listed_snapshotLocal hsnap
    | error e =>
      rw [hsnap] at hok
      cases hok
  · rw [hs.manifest] at ha
    have hplan : a ∈ plan s₀.manifest here there := by
      rcases mem_append.mp ha with h | h
      · exact (mem_filter.mp h).1
      · exact (mem_filter.mp (mem_reverse.mp h)).1
    refine ⟨listed_of_plan hhere hthere hplan, ?_⟩
    rintro p kind rfl
    obtain ⟨b, _, hb, _⟩ := deleteLocal_of_plan hplan
    rw [hb]
    nofun

theorem runAction_run (a : Action) (s : SyncEngine σ) :
    runAction peer a s = .ok () (final (perform peer a s)) := by
  have hrun : ∀ m : EngineM σ Unit, (do let _ ← attempt m) s = .ok () (final (m s)) := by
    intro m
    cases hm : m s with
    | ok u t =>
      have hatt : attempt m s = .ok (.ok u) t := by rw [attempt, hm]
      rw [bind_of_ok hatt]
      rfl
    | error e t =>
      have hatt : attempt m s = .ok (.error e) t := by rw [attempt, hm]
      rw [bind_of_ok hatt]
      rfl
  exact hrun _

/-- The step that running an action is. -/
def actStep (peer : Peer σ) (s : SyncEngine σ) (a : Action) : Option (SyncEngine σ) :=
  some (final (runAction peer a s))

/-- **One action keeps what must survive.** -/
theorem held_runAction (peer : Peer σ) {a : Action} (h : Held s₀ s.root s.disk) (ha : Planned s₀ a)
    (hok : ActionOk s₀ s a) :
    Held s₀ (final (runAction peer a s)).root (final (runAction peer a s)).disk := by
  rw [runAction_run, final]
  have hover : ∀ p, a.path = p → a ≠ .forget a.path → OverwriteOk s₀ s p →
      Preserves s p (perform peer a) → Held s₀ (final (perform peer a s)).root
        (final (perform peer a s)).disk := fun p hp hforget hok hm =>
    h.overwrite hok (hp ▸ ha.1.resolve_right hforget) (Triple.final hm rfl)
  have hquiet : (∀ R : Loc → Disk → Prop, Keeps (Local R) (perform peer a)) →
      Held s₀ (final (perform peer a s)).root (final (perform peer a s)).disk := fun hm =>
    Triple.final (hm (Held s₀)) h
  cases a with
  | pull p => exact hover p rfl nofun hok (preserves_pullIfNeeded hok.site)
  | push p =>
    refine hover p rfl nofun hok (Preserves.get_bind fun t _ => ?_)
    exact preserves_pushLocal_changed hok.site _
  | conflict p here there =>
    exact hover p rfl nofun hok (preserves_resolveConflict hok.site here there)
  | deleteRemote p kind =>
    exact hover p rfl nofun hok.1 (preserves_pushLocal_removed hok.1.site hok.2)
  | deleteLocal p kind =>
    have hres := Triple.final (removed_deleteLocal s p) ⟨rfl, rfl⟩
    exact h.delete hok (ha.1.resolve_right nofun) (ha.2 p kind rfl) hres
  | adopt p st => exact hquiet fun _ => keeps_record _ _ _ _ _
  | forget p => exact hquiet fun _ => keeps_modify fun _ hs => hs

/-- **A guarded run keeps what must survive.** -/
theorem held_runActions (acts : List Action) : ∀ s : SyncEngine σ, Held s₀ s.root s.disk →
    (∀ a ∈ acts, Planned s₀ a) → Allowed (actStep peer) (ActionOk s₀) s acts →
    Held s₀ (final (runActions peer acts s)).root (final (runActions peer acts s)).disk := by
  induction acts with
  | nil => exact fun s h _ _ => h
  | cons a acts ih =>
    intro s h hplanned hallowed
    have hstep := held_runAction peer h (hplanned a mem_cons_self) hallowed.1
    have hrest := ih (final (runAction peer a s)) hstep
      (fun b hb => hplanned b (mem_cons_of_mem _ hb)) (hallowed.2 _ rfl)
    rw [runAction_run] at hrest
    rw [runActions, bind_of_ok (runAction_run a s)]
    exact hrest

/-- **When deletes lose to edits.**  A delete that the server reports leaves every file that
must survive exactly if what it removes is clean or kept elsewhere.  A reconcile does so if
each of its actions, in the state it runs in, has vacant names to work under, can copy an
edited file aside, and deletes no directory with such a file below it.  The other side may
answer in any way or not at all, and any change to the disk may fail. -/
theorem edits_survive (peer : Peer σ) (s : SyncEngine σ) :
    (∀ ev : FsEvent, ev.kind = .removed →
      (AllSurvive peer s (final (applyRemote peer ev s)) ↔ RemovalOk peer s ev.path)) ∧
    ∀ fuel, (∀ acts s₁, reconcilePlan peer fuel s = .ok acts s₁ →
        Allowed (actStep peer) (ActionOk s) s₁ acts) →
      AllSurvive peer s (final (reconcile peer fuel s)) := by
  refine ⟨fun ev hev => allSurvive_applyRemote_iff hev, fun fuel hallowed => ?_⟩
  have hplan := planned_reconcilePlan peer s fuel s rfl
  have hheld : ∀ t : SyncEngine σ, From s t → Held s t.root t.disk := fun t ht =>
    ⟨ht.root, fun _ _ => .inl (by rw [ht.disk])⟩
  intro l c hl hc
  cases hrun : reconcilePlan peer fuel s with
  | ok acts s₁ =>
    rw [hrun] at hplan
    rw [reconcile, bind_of_ok hrun]
    exact (held_runActions acts s₁ (hheld s₁ hplan.1) hplan.2 (hallowed acts s₁ hrun)).survives
      hl hc
  | error e s₁ =>
    rw [hrun] at hplan
    rw [reconcile, bind_of_error hrun]
    exact (hheld s₁ hplan).survives hl hc

/-! ## Two engines -/

/-- An engine that has just started, on a tree below `h`, with an agent that exports `srv`. -/
def started (disk : Disk) (baseline : AList fun _ : Text => SyncEntry) (remote : Agent) :
    SyncEngine Ctx where
  root := [['h']]
  exclude := .none
  policy := .newer
  disk := disk
  remote := ⟨remote, .first⟩
  manifest := ⟨0, baseline⟩
  suppress := ∅
  queue := []
  stopped := false
  env := ⟨fun _ => false, fun _ => 0, fun _ => 100⟩
  calls := 0
  ticks := 0
  readings := 0

/-- Since the baseline `a` was edited here, and on the server `a` and `b` were deleted and
`c` is new. -/
def editedAndDeleted : SyncEngine Ctx :=
  let fs : Fs :=
    { tree := [([], .dir), ([['h']], .dir), ([['h'], ['a']], .file 0), ([['h'], ['b']], .file 1)]
      inodes := fun i => if i = 0 then ⟨[1, 2, 3, 4], 20, 0, 0o644⟩ else ⟨[5, 6], 10, 0, 0o644⟩
      nextIno := 2
      statOf := fun _ => ⟨4096, 0, 0, 0o755⟩
      now := 30
      touched := [] }
  started ⟨fs, .of_entries (by decide) (by decide) (by decide)⟩
    (AList.insert ['b'] ⟨.file, 5, 2, 10⟩ (AList.insert ['a'] ⟨.file, 4, 3, 10⟩ ∅))
    (.ofTree [([], .dir), ([['s', 'r', 'v']], .dir), ([['s', 'r', 'v'], ['c']], .file 0)] [[7]])

theorem edits_survive_editedAndDeleted :
    Unsynced editedAndDeleted [['h'], ['a']] ∧
      AllSurvive (.agent .srv) editedAndDeleted
        (final (applyRemote (.agent .srv) ⟨1, .removed, ⟨['b']⟩, none, none⟩ editedAndDeleted)) ∧
      AllSurvive (.agent .srv) editedAndDeleted
        (final (reconcile (.agent .srv) 10 editedAndDeleted)) := by
  have h := edits_survive (.agent .srv) editedAndDeleted
  refine ⟨by decide +kernel, (h.1 _ rfl).mpr fun loc hloc l c hpre hl hc => ?_,
    h.2 10 fun acts s₁ hplan => ?_⟩
  · have hb : eventRemoval editedAndDeleted ⟨['b']⟩ = some [['h'], ['b']] := by decide +kernel
    rw [hb] at hloc
    cases hloc
    obtain ⟨i, hi, _⟩ := Fs.get_of_contentAt hc
    have hmem := mem_map_of_mem (f := Prod.fst) (PathMap.mem_of_get hi)
    have hclean : ∀ q ∈ editedAndDeleted.disk.fs.tree.map Prod.fst,
        [['h'], ['b']] <+: q → ¬ Unsynced editedAndDeleted q := by decide +kernel
    exact absurd hl (hclean l hmem hpre)
  · have hguard : (match reconcilePlan (.agent .srv) 10 editedAndDeleted with
        | .ok acts s₁ => decide (acts ≠ [] ∧
            Allowed (actStep (.agent .srv)) (ActionOk editedAndDeleted) s₁ acts)
        | .error _ _ => false) = true := by decide +kernel
    rw [hplan] at hguard
    exact (of_decide_eq_true hguard).2

/-- The server has deleted the directory `d`, in which `d/f` was edited here. -/
def editedBelowDeleted : SyncEngine Ctx :=
  let fs : Fs :=
    { tree := [([], .dir), ([['h']], .dir), ([['h'], ['d']], .dir),
      ([['h'], ['d'], ['f']], .file 0)]
      inodes := fun _ => ⟨[1, 2, 3, 4], 20, 0, 0o644⟩
      nextIno := 1
      statOf := fun _ => ⟨4096, 0, 0, 0o755⟩
      now := 30
      touched := [] }
  started ⟨fs, .of_entries (by decide) (by decide) (by decide)⟩
    (AList.insert ['d', '/', 'f'] ⟨.file, 5, 3, 10⟩ (AList.insert ['d'] ⟨.dir, 4, 0, 0⟩ ∅))
    (.ofTree [([], .dir), ([['s', 'r', 'v']], .dir)] [])

/-- **A remote delete of a directory takes the edit below it**: the push fails for want of
the directory on the server, and then the local directory is removed. -/
theorem delete_takes_edit :
    Unsynced editedBelowDeleted [['h'], ['d'], ['f']] ∧
      editedBelowDeleted.disk.fs.contentAt [['h'], ['d'], ['f']] = some [1, 2, 3, 4] ∧
      ¬ Survives (.agent .srv) (final (reconcile (.agent .srv) 10 editedBelowDeleted))
        [['h'], ['d'], ['f']] [1, 2, 3, 4] ∧
      ¬ Survives (.agent .srv)
        (final (applyRemote (.agent .srv) ⟨1, .removed, ⟨['d']⟩, none, none⟩ editedBelowDeleted))
        [['h'], ['d'], ['f']] [1, 2, 3, 4] := by
  have hdirs : ∀ fs : Fs, (∀ e ∈ fs.tree, e.2 = .dir) → ∀ l c, fs.contentAt l ≠ some c := by
    intro fs hall l c hc
    obtain ⟨i, hi, _⟩ := Fs.get_of_contentAt hc
    cases hall _ (PathMap.mem_of_get hi)
  have hgone : ∀ t : SyncEngine Ctx, (∀ e ∈ t.disk.fs.tree, e.2 = .dir) →
      (∀ e ∈ t.remote.fs.tree, e.2 = .dir) → ∀ l c, ¬ Survives (.agent .srv) t l c := by
    rintro t hlocal hremote l c (hc | ⟨_, hc⟩ | ⟨_, _, hc⟩ | ⟨_, _, _, hc⟩)
    · exact hdirs _ hlocal _ _ hc
    · exact hdirs _ hlocal _ _ hc
    · exact hdirs _ hremote _ _ hc
    · exact hdirs _ hremote _ _ hc
  exact ⟨by decide +kernel, by decide +kernel,
    hgone _ (by decide +kernel) (by decide +kernel) _ _,
    hgone _ (by decide +kernel) (by decide +kernel) _ _⟩

end SyncEngine
end AlloyFs.Sync
