import AlloyFs.Os.Beside
import AlloyFs.Sync.Engine

/-!
# What the engine does to the disk

Requests, expectations and records leave the local tree alone; what changes it are the
calls on the disk.  Each operation on a path works in the path's own directory: it writes
under staging names and names of conflict copies, and puts a file in place of the path
itself.  `Fs.Beside` is the invariant, and every operation keeps it.
-/

namespace AlloyFs.Sync

open Act List

/-- The parts of the engine that neither requests nor expectations change. -/
structure Core where
  root : Loc
  exclude : ExcludeSet
  policy : ConflictPolicy
  disk : Disk
  manifest : SyncManifest
  env : Env
  calls : ℕ
  readings : ℕ

variable {keep : Text}

namespace SyncEngine

variable {σ : Type} {peer : Peer σ}

def core (s : SyncEngine σ) : Core :=
  ⟨s.root, s.exclude, s.policy, s.disk, s.manifest, s.env, s.calls, s.readings⟩

/-- A property of the core, and of the other side. -/
def OnBoth (R : Core → σ → Prop) (s : SyncEngine σ) : Prop := R s.core s.remote

/-- A property of the core. -/
def OnCore (R : Core → Prop) (s : SyncEngine σ) : Prop := R s.core

/-- A property of the local tree. -/
def Local (R : Loc → Disk → Prop) (s : SyncEngine σ) : Prop := R s.root s.disk

/-! ## What leaves the local tree alone -/

variable {E : SyncEngine σ → Prop}

section Quiet

variable {B : Core → σ → Prop} {C : Core → Prop} {R : Loc → Disk → Prop}

theorem keeps_instantNow : Keeps (OnBoth B) (instantNow : EngineM σ ℕ) := fun _ h => h

theorem triple_expect (rel : Text) (e : Expect) :
    Triple (OnBoth B) (expect rel e : EngineM σ Unit) (fun _ => OnBoth B) E :=
  Triple.bind (Q := fun _ => OnBoth B) (fun _ h => h) fun _ => Triple.modify fun _ h => h

theorem triple_expectGone (rel : Text) (children : List Text) :
    Triple (OnBoth B) (expectGone rel children : EngineM σ Unit) (fun _ => OnBoth B) E := by
  induction children with
  | nil => exact Triple.pure fun _ h => h
  | cons child rest ih => exact Triple.bind (triple_expect _ _) fun _ => ih

theorem keeps_isOwnEcho (rel : Text) : Keeps (OnBoth B) (isOwnEcho rel : EngineM σ Bool) := by
  refine Keeps.bind keeps_get fun s => ?_
  split
  · exact keeps_pure false
  · refine Keeps.bind keeps_instantNow fun now => keeps_ite ?_ (keeps_pure _)
    exact Keeps.bind (keeps_modify fun _ h => h) fun _ => keeps_pure false

theorem keeps_request (req : Request) : Keeps (OnCore C) (request peer req) := by
  intro s h
  rcases hans : peer.answer req s.remote with ⟨_ | reply, r⟩
  · simp only [request, hans]
    exact h
  · simp only [request, hans]
    exact h

theorem keeps_ask (req : Request) : Keeps (OnCore C) (ask peer req) :=
  Keeps.bind (keeps_request req) fun _ => keeps_orFail _

theorem keeps_fetchChunks (fh : ℕ) (cs : List (ℕ × ℕ)) :
    ∀ out, Keeps (OnCore C) (fetchChunks peer fh cs out) := by
  induction cs with
  | nil => exact fun out => keeps_pure out
  | cons c cs ih =>
    intro out
    refine Keeps.bind (keeps_ask _) fun resp => ?_
    split
    · exact ih _
    · exact keeps_throw _

theorem keeps_sendChunks (fh : ℕ) (data : Bytes) (cs : List (ℕ × ℕ)) :
    Keeps (OnCore C) (sendChunks peer fh data cs) := by
  induction cs with
  | nil => exact keeps_pure ()
  | cons c cs ih =>
    refine Keeps.bind (keeps_attempt (keeps_request _)) fun resp => ?_
    split
    · exact ih
    · exact keeps_throw _

theorem keeps_upload (rel : Text) : Keeps (OnCore C) (upload peer rel) := by
  refine Keeps.bind keeps_get fun s => Keeps.bind (keeps_orFail _) fun file => ?_
  refine Keeps.bind (keeps_ask _) fun resp => ?_
  split
  · refine Keeps.bind (keeps_attempt (keeps_sendChunks _ _ _)) fun result => ?_
    refine Keeps.bind (keeps_attempt (keeps_request _)) fun _ => ?_
    refine Keeps.bind (keeps_orFail _) fun _ => Keeps.bind (keeps_ask _) fun resp => ?_
    split
    · exact keeps_pure _
    · exact keeps_throw _
  · exact keeps_throw _

theorem keeps_record (rel : Text) (kind : EntryKind) (size mtimeNs version : ℕ) :
    Keeps (Local R) (record rel kind size mtimeNs version : EngineM σ Unit) :=
  keeps_modify fun _ h => h

theorem keeps_push (rel : Text) : Keeps (Local R) (push peer rel) := by
  refine Keeps.bind (keeps_upload (C := fun k => R k.root k.disk) rel) fun attr => ?_
  refine Keeps.bind keeps_get fun s => ?_
  split
  · exact keeps_record _ _ _ _ _
  · exact keeps_throw _

theorem keeps_pushKept (kept : Bool) (keep : Text) : Keeps (Local R) (pushKept peer kept keep) := by
  cases kept with
  | true => exact Keeps.bind (keeps_attempt (keeps_push keep)) fun _ => keeps_pure ()
  | false => exact keeps_pure ()

theorem keeps_mkdirRemote (rel : Text) : Keeps (Local R) (mkdirRemote peer rel) := by
  refine Keeps.bind (keeps_request (C := fun k => R k.root k.disk) _) fun reply => ?_
  split
  · exact keeps_record _ _ _ _ _
  · exact keeps_record _ _ _ _ _
  · exact keeps_throw _

theorem keeps_pushChildren (rel : Text) (snap : Snapshot) (children : List Text) :
    Keeps (Local R) (pushChildren peer rel snap children) := by
  induction children with
  | nil => exact keeps_pure ()
  | cons child rest ih =>
    refine Keeps.bind keeps_get fun s => Keeps.bind (keeps_onSome fun st => ?_) fun _ => ih
    exact Keeps.bind (keeps_attempt (keeps_ite (keeps_mkdirRemote _) (keeps_push _)))
      fun _ => keeps_pure ()

theorem keeps_pushNewDirContents (rel : Text) :
    Keeps (Local R) (pushNewDirContents peer rel) :=
  Keeps.bind keeps_get fun _ => keeps_pushChildren _ _ _

end Quiet

theorem triple_onDisk {α : Type} {c : DiskCall α} {P : SyncEngine σ → Prop}
    {Q : α → SyncEngine σ → Prop}
    (hok : ∀ s a disk, P s → s.env.fault s.calls = false → c.run s.disk.fs = .ok (a, disk.fs) →
      Q a { s with calls := s.calls + 1, disk := disk })
    (herr : ∀ s, P s → (s.env.fault s.calls = false → ∃ e, c.run s.disk.fs = .error e) →
      E { s with calls := s.calls + 1 }) : Triple P (onDisk c) Q E := by
  intro s hs
  rw [onDisk]
  by_cases hf : s.env.fault s.calls = true
  · rw [if_pos hf]
    exact herr s hs fun h => absurd hf (by simp [h])
  · rw [if_neg hf]
    cases hexec : c.exec s.disk with
    | ok r => exact hok s r.1 r.2 hs (by simpa using hf) (DiskCall.exec_ok hexec)
    | error e => exact herr s hs fun _ => ⟨e, DiskCall.exec_error hexec⟩

theorem keeps_onDisk {α : Type} {c : DiskCall α} {R : Loc → Disk → Prop}
    (h : ∀ root disk disk' a, R root disk → c.run disk.fs = .ok (a, disk'.fs) → R root disk') :
    Keeps (Local R) (onDisk c : EngineM σ α) :=
  triple_onDisk (fun s a disk hs _ hrun => h s.root s.disk disk a hs hrun) fun _ hs _ => hs

/-! ## Work in the directory of a path -/

section Work

variable {d : Fs} {r dir : Loc} {T : Name → Prop} {o : Loc → Prop} {x : Name} {rel : Text}

/-- The root is `r`, and the disk came out of `d` by work in `dir`. -/
def At (r : Loc) (d : Fs) (dir : Loc) (T : Name → Prop) (o : Loc → Prop) (root : Loc)
    (disk : Disk) : Prop :=
  root = r ∧ d.Beside dir T o disk.fs

theorem keeps_downloadTo (hd : d.Sane) (hdir : ∀ c ∈ dir, Fs.Ordinary c) {c : Name} (hc : T c)
    (hord : Fs.Ordinary c) (rel : Text) :
    Keeps (Local (At r d dir T o)) (downloadTo peer rel (dir ++ [c])) := by
  have hquiet : ∀ req, Keeps (Local (At r d dir T o)) (ask peer req) := fun req =>
    keeps_ask (C := fun k => At r d dir T o k.root k.disk) req
  refine Keeps.bind (hquiet _) fun resp => ?_
  split
  · refine Keeps.bind (keeps_attempt (Keeps.bind
      (keeps_fetchChunks (C := fun k => At r d dir T o k.root k.disk) _ _ _) fun out => ?_))
      fun result => ?_
    · exact keeps_onDisk fun root disk disk' u h hrun => ⟨h.1, h.2.write hd hdir hc hord hrun⟩
    · refine Keeps.bind (keeps_attempt
        (keeps_request (C := fun k => At r d dir T o k.root k.disk) _)) fun _ => ?_
      refine Keeps.bind (keeps_orFail _) fun _ => Keeps.bind ?_ fun _ => keeps_pure _
      exact keeps_onDisk fun root disk disk' u h hrun => ⟨h.1, h.2.setModified hd hdir hc hord hrun⟩
  · exact keeps_throw _

theorem stagingOf_concat (dir : Loc) (x : Name) :
    stagingOf (dir ++ [x]) = dir ++ [".ds-tmp-".toList ++ x] := by
  rw [stagingOf, dropLast_concat, getLast?_concat]
  rfl

theorem ordinary_staging (x : Name) : Fs.Ordinary (".ds-tmp-".toList ++ x) :=
  ⟨nofun, nofun, nofun⟩

theorem keeps_pull (hd : d.Sane) (hdir : ∀ c ∈ dir, Fs.Ordinary c)
    (hx : Fs.Ordinary x) (hT : T (".ds-tmp-".toList ++ x)) (hov : o (dir ++ [x]))
    (hfull : r ++ (RelPath.mk rel).comps = dir ++ [x]) :
    Keeps (Local (At r d dir T o)) (pull peer rel) := by
  refine Triple.bind (Q := fun s t => Local (At r d dir T o) t ∧ s.root = r)
    (Triple.get fun s hs => ⟨hs, hs.1⟩) fun s => Triple.of_fact fun hroot => ?_
  have hdst : s.full rel = dir ++ [x] := by rw [full, hroot, hfull]
  simp only [hdst, stagingOf_concat, dropLast_concat]
  have hord := ordinary_staging x
  refine Keeps.bind (keeps_onDisk fun root disk disk' u h hrun =>
    ⟨h.1, h.2.createDirAll hd hdir hrun⟩) fun _ => ?_
  refine Keeps.bind (keeps_ensure _ _) fun _ => ?_
  refine Keeps.bind (keeps_attempt (keeps_downloadTo hd hdir hT hord rel)) fun got => ?_
  split
  · refine Keeps.bind (keeps_attempt (keeps_onDisk fun root disk disk' u h hrun =>
      ⟨h.1, h.2.removeFile hdir hT hord hrun⟩)) fun _ => keeps_throw _
  · refine Triple.bind (triple_expect (B := fun k _ => At r d dir T o k.root k.disk) _ _)
      fun _ => ?_
    refine Keeps.bind (keeps_onDisk fun root disk disk' u h hrun => ⟨h.1, ?_⟩) fun _ =>
      keeps_record _ _ _ _ _
    refine (h.2.rename disk.sane hdir hT hord hx hrun).weaken fun w hw => ?_
    rcases hw with hw | rfl
    · exact hw
    · exact hov

theorem keeps_keepRemote (hd : d.Sane) (hdir : ∀ c ∈ dir, Fs.Ordinary c)
    (hx : Fs.Ordinary x) (hTx : T x) (hT : T (".ds-tmp-".toList ++ x))
    (hfull : r ++ (RelPath.mk keep).comps = dir ++ [x]) :
    Keeps (Local (At r d dir T o)) (keepRemote peer rel keep) := by
  refine Triple.bind (Q := fun s t => Local (At r d dir T o) t ∧ s.root = r)
    (Triple.get fun s hs => ⟨hs, hs.1⟩) fun s => Triple.of_fact fun hroot => ?_
  have hdst : s.full keep = dir ++ [x] := by rw [full, hroot, hfull]
  simp only [hdst, stagingOf_concat, dropLast_concat]
  have hord := ordinary_staging x
  refine Keeps.bind (keeps_attempt (keeps_onDisk fun root disk disk' u h hrun =>
    ⟨h.1, h.2.createDirAll hd hdir hrun⟩)) fun _ => ?_
  refine Keeps.bind (keeps_attempt (Keeps.bind (keeps_downloadTo hd hdir hT hord rel) fun _ =>
    keeps_onDisk fun root disk disk' u h hrun => ⟨h.1, ?_⟩)) fun kept => ?_
  · exact Fs.Beside.of_vacant (h.2.vacant x hTx) (h.2.rename disk.sane hdir hT hord hx hrun)
  · refine Keeps.bind (keeps_attempt (keeps_push rel)) fun res => ?_
    exact Keeps.bind (keeps_pushKept _ _) fun _ => keeps_orFail _

theorem keeps_keepLocal (hd : d.Sane) (hdir : ∀ c ∈ dir, Fs.Ordinary c) {k : Name}
    (hx : Fs.Ordinary x) (hk : Fs.Ordinary k) (hTk : T k) (hT : T (".ds-tmp-".toList ++ x))
    (hov : o (dir ++ [x])) (hfull : r ++ (RelPath.mk rel).comps = dir ++ [x])
    (hkeep : r ++ (RelPath.mk keep).comps = dir ++ [k]) :
    Keeps (Local (At r d dir T o)) (keepLocal peer rel keep) := by
  refine Triple.bind (Q := fun s t => Local (At r d dir T o) t ∧ s.root = r)
    (Triple.get fun s hs => ⟨hs, hs.1⟩) fun s => Triple.of_fact fun hroot => ?_
  have hdst : s.full keep = dir ++ [k] := by rw [full, hroot, hkeep]
  rw [hdst]
  refine Keeps.bind (keeps_attempt (keeps_onDisk fun root disk disk' u h hrun =>
    ⟨h.1, h.2.copy hd hdir hTk hk hrun⟩)) fun kept => ?_
  refine Keeps.bind (keeps_attempt (keeps_pull hd hdir hx hT hov hfull)) fun res => ?_
  exact Keeps.bind (keeps_pushKept _ _) fun _ => keeps_orFail _

/-- **The local copy is set aside before it is overwritten**: unless making the copy fails,
it has the content of the file at the end. -/
theorem saves_keepLocal (peer : Peer σ) (hdir : ∀ c ∈ dir, Fs.Ordinary c) {k : Name}
    (hx : Fs.Ordinary x)
    (hk : Fs.Ordinary k) (hkx : k ≠ x) (hks : k ≠ ".ds-tmp-".toList ++ x)
    (hfull : r ++ (RelPath.mk rel).comps = dir ++ [x])
    (hkeep : r ++ (RelPath.mk keep).comps = dir ++ [k]) (hd : d.Sane) {i : ℕ}
    (hget : d.get (dir ++ [x]) = some (.file i)) (hvk : d.get (dir ++ [k]) = none)
    (hvs : d.get (dir ++ [".ds-tmp-".toList ++ x]) = none) (hno : d.NoLinks dir) :
    Triple (fun s : SyncEngine σ => s.root = r ∧ s.disk.fs = d ∧ s.env.fault s.calls = false)
      (keepLocal peer rel keep)
      (fun _ => Local fun _ disk => disk.fs.contentAt (dir ++ [k]) = some (d.inodes i).content)
      (Local fun _ disk => disk.fs.contentAt (dir ++ [k]) = some (d.inodes i).content) := by
  obtain ⟨fs', hcopy, hother, _, hcontent⟩ := Fs.copy_run hd hdir hx hk hget hvk
  have hne : ∀ y, y ≠ k → dir ++ [y] ≠ dir ++ [k] := fun y hy heq =>
    hy (singleton_inj.mp (append_cancel_left heq))
  -- once it is made, the copy is one of the files that were there before
  have hcopied : fs'.Beside dir (Eq (".ds-tmp-".toList ++ x)) (Eq (dir ++ [x])) fs' := by
    refine Fs.Beside.refl _ (fun c hc => ?_) fun q hq t => ?_
    · rw [← hc, hother _ (hne _ hks.symm)]
      exact hvs
    · rw [hother q fun heq => absurd (heq ▸ hq).length_le (by simp)]
      exact hno q hq t
  have hend : ∀ root disk, At r fs' dir (Eq (".ds-tmp-".toList ++ x)) (Eq (dir ++ [x])) root disk →
      disk.fs.contentAt (dir ++ [k]) = some (d.inodes i).content := by
    intro root disk h
    obtain ⟨j, hj, _⟩ := Fs.get_of_contentAt hcontent
    rw [Fs.contentAt_eq, h.2.fileAt_eq (by rw [Fs.fileAt_of_get hj]; nofun) (hne x hkx.symm),
      ← Fs.contentAt_eq, hcontent]
  revert hcopied hend
  generalize hR : At r fs' dir (Eq (".ds-tmp-".toList ++ x)) (Eq (dir ++ [x])) = R
  intro hcopied hend
  refine Triple.conseq (Q := fun _ => Local R) (E := Local R) ?_ (fun _ h => h)
    (fun _ s h => hend _ _ h) fun s h => hend _ _ h
  refine Triple.bind (Q := fun s t => (t.root = r ∧ t.disk.fs = d ∧ t.env.fault t.calls = false) ∧
    s.root = r) (Triple.get fun s hs => ⟨hs, hs.1⟩) fun s => Triple.of_fact fun hroot => ?_
  simp only [full, hroot, hfull, hkeep]
  refine Triple.bind (Q := fun _ => Local R) ?_ fun kept => ?_
  · refine Triple.conseq (Triple.attempt (F := fun _ => False) (triple_onDisk
      (Q := fun _ => Local R) (E := fun _ => False) (fun t u disk ht _ hrun => ?_)
      fun t ht hfail => ?_)) (fun _ h => h)
      (fun res t h => match res, h with
        | .ok _, h => h) fun _ h => h.elim
    · rw [ht.2.1, hcopy] at hrun
      cases hrun
      rw [← hR]
      exact ⟨ht.1, hcopied⟩
    · obtain ⟨e, herr⟩ := hfail ht.2.2
      rw [ht.2.1, hcopy] at herr
      cases herr
  · have hs' : fs'.Sane := (DiskCall.copy _ _).sane d () fs' hd hcopy
    rw [← hR]
    refine Keeps.bind (keeps_attempt (keeps_pull hs' hdir hx rfl rfl hfull)) fun res => ?_
    exact Keeps.bind (keeps_pushKept _ _) fun _ => keeps_orFail _

end Work

/-! ## Names of conflict copies -/

theorem sep_notMem_conflictSuffix (secs : ℕ) : '/' ∉ conflictSuffix secs := by
  unfold conflictSuffix
  rw [mem_append, not_or]
  refine ⟨by decide, fun hmem => ?_⟩
  have hdigit : Char.isDigit '/' = true :=
    Nat.isDigit_of_mem_toDigits (by decide) (by decide) hmem
  exact absurd hdigit (by decide)

theorem length_conflictSuffix (secs : ℕ) : 15 ≤ (conflictSuffix secs).length := by
  unfold conflictSuffix
  rw [length_append]
  exact Nat.le_add_right 15 _

theorem full_conflictName {r dir : Loc} {x : Name} {rel : Text}
    (h : r ++ (RelPath.mk rel).comps = dir ++ [x]) (secs : ℕ) :
    r ++ (RelPath.mk (conflictName rel secs)).comps = dir ++ [x ++ conflictSuffix secs] := by
  obtain ⟨cs, y, hcs, hcopy⟩ := RelPath.comps_append rel (sep_notMem_conflictSuffix secs)
  rw [hcs, ← append_assoc] at h
  obtain ⟨hdir, hy⟩ := append_inj' h rfl
  rw [conflictName, hcopy, ← append_assoc, hdir, singleton_inj.mp hy]

theorem ordinary_copy (x : Name) (secs : ℕ) : Fs.Ordinary (x ++ conflictSuffix secs) := by
  have hlong : 15 ≤ (x ++ conflictSuffix secs).length := by
    rw [length_append]
    exact (length_conflictSuffix secs).trans (Nat.le_add_left _ _)
  refine ⟨?_, ?_, ?_⟩ <;> intro heq <;> rw [heq] at hlong <;> simp at hlong

theorem copy_ne (x : Name) (secs : ℕ) : x ++ conflictSuffix secs ≠ x := by
  intro heq
  have hlen := congrArg length heq
  have hsuffix := length_conflictSuffix secs
  rw [length_append] at hlen
  omega

theorem copy_ne_staging (x : Name) (secs : ℕ) :
    x ++ conflictSuffix secs ≠ ".ds-tmp-".toList ++ x := by
  intro heq
  have hlen := congrArg length heq
  have hsuffix := length_conflictSuffix secs
  have hmark : ".ds-tmp-".toList.length = 8 := rfl
  rw [length_append, length_append, hmark] at hlen
  omega

/-! ## Work on one path -/

section Path

variable {s₁ : SyncEngine σ} {rel : Text} {s : SyncEngine σ} {α : Type}

/-- The name under which the loser of a conflict on a path would be kept now. -/
def keepName (s : SyncEngine σ) (rel : Text) : Text := conflictName rel (s.env.wall s.readings)

/-- A path that leads where it says. -/
structure Plain (s : SyncEngine σ) (rel : Text) : Prop where
  valid : (RelPath.mk rel).validate = true ∧ (RelPath.mk rel).isRoot = false
  root : ∀ c ∈ s.root, Fs.Ordinary c
  noLinks : s.disk.fs.NoLinks (s.full rel)

/-- The names for the work on a path are vacant too. -/
structure Site (s : SyncEngine σ) (rel : Text) : Prop extends Plain s rel where
  staging : s.disk.fs.get (stagingOf (s.full rel)) = none
  keep : s.disk.fs.get (s.full (s.keepName rel)) = none
  keepStaging : s.disk.fs.get (stagingOf (s.full (s.keepName rel))) = none

instance (s : SyncEngine σ) (rel : Text) : Decidable (Plain s rel) :=
  decidable_of_iff (_ ∧ _ ∧ _) ⟨fun ⟨a, b, c⟩ => ⟨a, b, c⟩, fun ⟨a, b, c⟩ => ⟨a, b, c⟩⟩

instance (s : SyncEngine σ) (rel : Text) : Decidable (Site s rel) :=
  decidable_of_iff (_ ∧ _ ∧ _ ∧ _)
    ⟨fun ⟨a, b, c, d⟩ => ⟨a, b, c, d⟩, fun ⟨a, b, c, d⟩ => ⟨a, b, c, d⟩⟩

/-- A local file that differs from the baseline and is no conflict copy, and the next change
to the disk does not fail. -/
structure Keepable (s : SyncEngine σ) (rel : Text) : Prop where
  file : ∃ i, s.disk.fs.get (s.full rel) = some (.file i)
  dirty : ∃ st, s.localStat rel = some st ∧ localDirty (s.manifest.get rel) st = true
  original : isConflictCopy rel = false
  noFault : s.env.fault s.calls = false

/-- After work on a path every other file is as it was, and the file at the path itself is
as it was or has been kept. -/
structure Result (s₁ : SyncEngine σ) (rel : Text) (root : Loc) (disk : Disk) : Prop where
  root_eq : root = s₁.root
  others : ∀ w, s₁.disk.fs.fileAt w ≠ none → w ≠ s₁.full rel →
    disk.fs.fileAt w = s₁.disk.fs.fileAt w
  saved : Keepable s₁ rel → disk.fs.fileAt (s₁.full rel) = s₁.disk.fs.fileAt (s₁.full rel) ∨
    disk.fs.contentAt (s₁.full (s₁.keepName rel)) = s₁.disk.fs.contentAt (s₁.full rel)

/-- The same core as in a state given before. -/
abbrev From (s₁ : SyncEngine σ) : SyncEngine σ → Prop := OnCore (· = s₁.core)

section

variable (h : From s₁ s)
include h

theorem From.root : s.root = s₁.root := congrArg Core.root h

theorem From.disk : s.disk = s₁.disk := congrArg Core.disk h

theorem From.manifest : s.manifest = s₁.manifest :=
  congrArg Core.manifest h

theorem From.full : s.full rel = s₁.full rel := by
  rw [SyncEngine.full, SyncEngine.full, h.root]

theorem From.localStat : s.localStat rel = s₁.localStat rel := by
  rw [SyncEngine.localStat, SyncEngine.localStat, h.full, h.disk]

theorem From.fault : s.env.fault s.calls = s₁.env.fault s₁.calls := by
  rw [show s.env = s₁.env from congrArg Core.env h,
    show s.calls = s₁.calls from congrArg Core.calls h]

theorem From.wall : s.env.wall s.readings = s₁.env.wall s₁.readings := by
  rw [show s.env = s₁.env from congrArg Core.env h,
    show s.readings = s₁.readings from congrArg Core.readings h]

end

theorem Result.refl {root : Loc} {disk : Disk} (hroot : root = s₁.root) (hdisk : disk = s₁.disk) :
    Result s₁ rel root disk :=
  ⟨hroot, fun _ _ _ => by rw [hdisk], fun _ => .inl (by rw [hdisk])⟩

theorem result_of_from (h : From s₁ s) : Local (Result s₁ rel) s :=
  Result.refl h.root h.disk

/-- The names that work on `x` uses: staging names and a conflict copy. -/
def temps (x : Name) (secs : ℕ) (c : Name) : Prop :=
  c = ".ds-tmp-".toList ++ x ∨ c = x ++ conflictSuffix secs ∨
    c = ".ds-tmp-".toList ++ (x ++ conflictSuffix secs)

theorem Plain.ordinary (h : Plain s₁ rel) {c : Name} (hc : c ∈ s₁.full rel) : Fs.Ordinary c := by
  rcases mem_append.mp hc with hc | hc
  · exact h.root c hc
  · exact RelPath.mem_comps_of_validate h.valid.1 h.valid.2 hc

theorem exists_full_eq_concat (s : SyncEngine σ) (rel : Text) :
    ∃ dir x, s.full rel = dir ++ [x] := by
  have hne : s.full rel ≠ [] := fun h =>
    splitOn_ne_nil '/' rel (append_eq_nil_iff.mp h).2
  exact ⟨_, _, (dropLast_append_getLast hne).symm⟩

theorem Site.split (h : Site s₁ rel) : ∃ dir x, s₁.full rel = dir ++ [x] ∧
    s₁.full (s₁.keepName rel) = dir ++ [x ++ conflictSuffix (s₁.env.wall s₁.readings)] ∧
    (∀ c ∈ dir, Fs.Ordinary c) ∧ Fs.Ordinary x ∧ s₁.disk.fs.NoLinks (dir ++ [x]) ∧
    ∀ c, temps x (s₁.env.wall s₁.readings) c → s₁.disk.fs.get (dir ++ [c]) = none := by
  obtain ⟨dir, x, hfull⟩ := exists_full_eq_concat s₁ rel
  have hkeep : s₁.full (s₁.keepName rel) = _ := full_conflictName hfull _
  have hord : ∀ c ∈ dir ++ [x], Fs.Ordinary c := fun c hc => h.ordinary (hfull ▸ hc)
  refine ⟨dir, x, hfull, hkeep, fun c hc => hord c (mem_append_left _ hc),
    hord x (by simp), hfull ▸ h.noLinks, ?_⟩
  · rintro c (rfl | rfl | rfl)
    · rw [← stagingOf_concat, ← hfull]
      exact h.staging
    · rw [← hkeep]
      exact h.keep
    · rw [← stagingOf_concat, ← hkeep]
      exact h.keepStaging

/-- An operation on a path keeps every local file, as long as the one at the path is. -/
abbrev Preserves (s₁ : SyncEngine σ) (rel : Text) {α : Type} (m : EngineM σ α) : Prop :=
  Triple (From s₁) m (fun _ => Local (Result s₁ rel)) (Local (Result s₁ rel))

theorem Result.of_beside {dir : Loc} {T : Name → Prop} {root : Loc} {disk : Disk}
    (h : At s₁.root s₁.disk.fs dir T (Eq (s₁.full rel)) root disk)
    (hsaved : Keepable s₁ rel → disk.fs.fileAt (s₁.full rel) = s₁.disk.fs.fileAt (s₁.full rel) ∨
      disk.fs.contentAt (s₁.full (s₁.keepName rel)) = s₁.disk.fs.contentAt (s₁.full rel)) :
    Result s₁ rel root disk :=
  ⟨h.1, fun _ hw hne => h.2.fileAt_eq hw (Ne.symm hne), hsaved⟩

theorem preserves_of_keeps {m : EngineM σ α}
    (h : ∀ R : Loc → Disk → Prop, Keeps (Local R) m) : Preserves s₁ rel m :=
  (h fun root disk => root = s₁.root ∧ disk = s₁.disk).conseq (fun _ hs => ⟨hs.root, hs.disk⟩)
    (fun _ _ hs => Result.refl hs.1 hs.2) fun _ hs => Result.refl hs.1 hs.2

theorem preserves_pure (a : α) : Preserves s₁ rel (pure a : EngineM σ α) :=
  preserves_of_keeps fun _ => keeps_pure a

theorem preserves_throw (e : FsError) : Preserves s₁ rel (throw e : EngineM σ α) :=
  preserves_of_keeps fun _ => keeps_throw e

theorem Preserves.get_bind {f : SyncEngine σ → EngineM σ α}
    (h : ∀ s, From s₁ s → Preserves s₁ rel (f s)) : Preserves s₁ rel (get >>= f) :=
  Triple.bind (Q := fun s t => From s₁ t ∧ From s₁ s) (Triple.get fun _ hs => ⟨hs, hs⟩) fun s =>
    Triple.of_fact (h s)

theorem Preserves.request_bind {req : Request}
    {f : Except ErrorCode Response → EngineM σ α} (h : ∀ reply, Preserves s₁ rel (f reply)) :
    Preserves s₁ rel (request peer req >>= f) :=
  Triple.bind ((keeps_request req).conseq (fun _ hs => hs) (fun _ _ hs => hs)
    fun _ hs => result_of_from hs) h

theorem preserves_pull (h : Site s₁ rel) (hno : ¬ Keepable s₁ rel) :
    Preserves s₁ rel (pull peer rel) := by
  obtain ⟨dir, x, hfull, -, hdir, hx, hlinks, hT⟩ := h.split
  refine (keeps_pull (T := temps x (s₁.env.wall s₁.readings)) (o := Eq (s₁.full rel)) s₁.disk.sane
      hdir hx (.inl rfl)
    hfull hfull).conseq (fun s hs => ⟨hs.root, ?_⟩)
    (fun _ s hs => .of_beside hs fun hk => absurd hk hno)
    fun s hs => .of_beside hs fun hk => absurd hk hno
  rw [hs.disk]
  exact Fs.Beside.refl _ hT (hlinks.mono (prefix_append _ _))

/-- **A conflict keeps every local file**: the one in conflict stays or is copied. -/
theorem preserves_resolveConflict (h : Site s₁ rel) (here there : Stat) :
    Preserves s₁ rel (resolveConflict peer rel here there) := by
  refine Preserves.get_bind fun s _ => ?_
  by_cases hc : isConflictCopy rel = true
  · simp only [hc, if_true]
    refine Triple.ite (fun _ => preserves_of_keeps fun _ => keeps_push rel) fun _ => ?_
    exact preserves_pull h fun hk => absurd hc (by simp [hk.original])
  simp only [hc, Bool.false_eq_true, if_false]
  obtain ⟨dir, x, hfull, hkeep, hdir, hx, hlinks, hT⟩ := h.split
  have hstart : ∀ ov, s₁.disk.fs.Beside dir (temps x (s₁.env.wall s₁.readings)) ov s₁.disk.fs :=
    fun ov => Fs.Beside.refl ov hT (hlinks.mono (prefix_append _ _))
  have hcopy := ordinary_copy x (s₁.env.wall s₁.readings)
  refine Triple.bind (Q := fun n t => (t.root = s₁.root ∧ t.disk = s₁.disk ∧
    t.env.fault t.calls = s₁.env.fault s₁.calls) ∧ n = s₁.env.wall s₁.readings)
    (fun s hs => ⟨⟨hs.root, hs.disk, hs.fault⟩, hs.wall⟩) fun n => Triple.of_fact ?_
  rintro rfl
  refine Triple.ite (fun _ => ?_) fun _ => ?_
  · -- the server's copy is kept, the local file stays
    have hres : ∀ root disk, At s₁.root s₁.disk.fs dir (temps x (s₁.env.wall s₁.readings))
        (fun _ => False) root disk → Result s₁ rel root disk := by
      refine fun root disk hs => ⟨hs.1, fun w hw _ => hs.2.fileAt_eq hw id, fun hk => .inl ?_⟩
      obtain ⟨i, hi⟩ := hk.file
      exact hs.2.fileAt_eq (by rw [Fs.fileAt_of_get hi]; nofun) id
    refine (keeps_keepRemote (o := fun _ => False) s₁.disk.sane hdir hcopy (.inr (.inl rfl))
      (.inr (.inr rfl)) hkeep).conseq (fun s hs => ⟨hs.1, ?_⟩) (fun _ s hs => hres _ _ hs)
      fun s hs => hres _ _ hs
    rw [hs.2.1]
    exact hstart _
  · -- the local file is copied and then replaced
    have hframe : Keeps (Local (At s₁.root s₁.disk.fs dir (temps x (s₁.env.wall s₁.readings))
        (Eq (s₁.full rel)))) (keepLocal peer rel (s₁.keepName rel)) :=
      keeps_keepLocal s₁.disk.sane hdir hx hcopy (.inr (.inl rfl)) (.inl rfl) hfull hfull hkeep
    have hframe := hframe.conseq (A := fun t => t.root = s₁.root ∧ t.disk = s₁.disk ∧
        t.env.fault t.calls = s₁.env.fault s₁.calls)
      (fun s hs => ⟨hs.1, hs.2.1 ▸ hstart _⟩) (fun _ s hs => hs) fun s hs => hs
    by_cases hk : Keepable s₁ rel
    · obtain ⟨i, hi⟩ := hk.file
      have hsave := saves_keepLocal peer hdir hx hcopy (copy_ne x _) (copy_ne_staging x _)
        hfull hkeep s₁.disk.sane (hfull ▸ hi) (hT _ (.inr (.inl rfl))) (hT _ (.inl rfl))
        (hlinks.mono (prefix_append _ _))
      have hcontent : s₁.disk.fs.contentAt (s₁.full rel) = some (s₁.disk.fs.inodes i).content := by
        rw [Fs.contentAt, hi]
      refine (hframe.and (hsave.conseq (fun s hs => ⟨hs.1, hs.2.1 ▸ rfl, ?_⟩) (fun _ _ hs => hs)
        fun _ hs => hs)).conseq (fun _ hs => hs)
        (fun _ s hs => .of_beside hs.1 fun _ => .inr ?_)
        fun s hs => .of_beside hs.1 fun _ => .inr ?_
      · rw [hs.2.2]
        exact hk.noFault
      · rw [hkeep, hcontent]
        exact hs.2
      · rw [hkeep, hcontent]
        exact hs.2
    · exact hframe.conseq (fun _ hs => hs) (fun _ s hs => .of_beside hs fun h => absurd h hk)
        fun s hs => .of_beside hs fun h => absurd h hk

theorem preserves_record (p : Text) (kind : EntryKind) (size mtimeNs version : ℕ) :
    Preserves s₁ rel (record p kind size mtimeNs version) :=
  preserves_of_keeps fun _ => keeps_record _ _ _ _ _

theorem preserves_pullFile (h : Site s₁ rel) (there : Stat) :
    Preserves s₁ rel (pullFile peer rel there) := by
  refine Preserves.get_bind fun s hs => ?_
  refine Triple.ite (fun _ => preserves_pure ()) fun _ => ?_
  rw [hs.localStat, hs.manifest]
  cases hl : s₁.localStat rel with
  | none =>
    refine preserves_pull h fun hk => ?_
    obtain ⟨st, hst, _⟩ := hk.dirty
    rw [hl] at hst
    cases hst
  | some l =>
    dsimp only
    refine Triple.ite (fun _ => ?_) fun hclean => ?_
    · exact Triple.ite (fun _ => preserves_record _ _ _ _ _)
        fun _ => preserves_resolveConflict h l there
    · refine preserves_pull h fun hk => ?_
      obtain ⟨st, hst, hdirty⟩ := hk.dirty
      rw [hl] at hst
      cases hst
      exact hclean hdirty

theorem preserves_makeDir (h : Site s₁ rel) :
    Preserves s₁ rel (onDisk (.createDirAll (s₁.full rel)) : EngineM σ Unit) := by
  obtain ⟨dir, x, hfull, -, hdir, hx, hlinks, -⟩ := h.split
  have hord : ∀ c ∈ dir ++ [x], Fs.Ordinary c := by
    intro c hc
    rcases mem_append.mp hc with hc | hc
    · exact hdir c hc
    · rw [mem_singleton.mp hc]
      exact hx
  refine triple_onDisk (fun s u disk hs _ hrun => ?_) fun s hs _ => Result.refl hs.root hs.disk
  have hstart : s₁.disk.fs.Beside (dir ++ [x]) (fun _ => False) (fun _ => False) s₁.disk.fs :=
    Fs.Beside.refl _ (fun _ => False.elim) hlinks
  rw [hs.disk, hfull] at hrun
  have hend := hstart.createDirAll s₁.disk.sane hord hrun
  refine ⟨hs.root, fun w hw _ => hend.fileAt_eq hw id, fun hk => .inl ?_⟩
  obtain ⟨i, hi⟩ := hk.file
  exact hend.fileAt_eq (by rw [Fs.fileAt_of_get hi]; nofun) id

theorem Preserves.then {β : Type} {m : EngineM σ α} {f : α → EngineM σ β}
    (hm : Preserves s₁ rel m) (hf : ∀ a, Keeps (Local (Result s₁ rel)) (f a)) :
    Preserves s₁ rel (m >>= f) :=
  Triple.bind hm hf

theorem preserves_pullIfNeeded (h : Site s₁ rel) : Preserves s₁ rel (pullIfNeeded peer rel) := by
  refine Preserves.request_bind fun reply => ?_
  split
  · next attr =>
    refine Triple.ite (fun _ => ?_) fun _ => preserves_pullFile h _
    refine Triple.bind (triple_expect (B := fun k _ => k = s₁.core) rel .dir) fun _ => ?_
    refine Preserves.get_bind fun s hs => ?_
    rw [hs.full]
    exact (preserves_makeDir h).then fun _ => keeps_record _ _ _ _ _
  · exact preserves_throw _
  · exact preserves_pure ()
  · exact preserves_throw _

theorem preserves_pushFile (h : Site s₁ rel) (here : Stat) :
    Preserves s₁ rel (pushFile peer rel here) := by
  refine Preserves.request_bind fun reply => ?_
  split
  · refine Preserves.get_bind fun s hs => Triple.ite (fun _ => ?_) fun _ =>
      preserves_of_keeps fun _ => keeps_push rel
    exact Triple.ite (fun _ => preserves_record _ _ _ _ _)
      fun _ => preserves_resolveConflict h here _
  · exact preserves_of_keeps fun _ => keeps_push rel
  · exact preserves_throw _
  · exact preserves_throw _

theorem preserves_deleteOnServer (h : Site s₁ rel) (hno : s₁.disk.fs.get (s₁.full rel) = none)
    (b : SyncEntry) : Preserves s₁ rel (deleteOnServer peer rel b) := by
  have hforget : ∀ p, Preserves s₁ rel (forget p : EngineM σ Unit) := fun p =>
    preserves_of_keeps fun _ => keeps_modify fun _ hs => hs
  refine Preserves.request_bind fun reply => ?_
  split
  · exact hforget rel
  · refine Triple.ite (fun _ => preserves_pull h fun hk => ?_) fun _ => ?_
    · obtain ⟨i, hi⟩ := hk.file
      rw [hno] at hi
      cases hi
    · refine Preserves.request_bind fun reply => ?_
      split
      · exact preserves_of_keeps fun _ => keeps_modify fun _ hs => hs
      · exact preserves_of_keeps fun _ => keeps_modify fun _ hs => hs
      · exact preserves_pure ()
      · exact preserves_throw _
  · exact preserves_throw _
  · exact preserves_throw _

/-- Whether a change is the engine's own is found out without a change to the core. -/
theorem Preserves.echo_bind {f : Bool → EngineM σ Unit} (h : ∀ echo, Preserves s₁ rel (f echo)) :
    Preserves s₁ rel (isOwnEcho rel >>= f) :=
  Triple.bind ((keeps_isOwnEcho (B := fun k _ => k = s₁.core) rel).conseq (fun _ hs => hs)
    (fun _ _ hs => hs) fun _ hs => result_of_from hs) h

theorem preserves_pushLocal_changed (h : Site s₁ rel) (isDir : Bool) :
    Preserves s₁ rel (pushLocal peer rel (if isDir then .created else .modified)) := by
  refine Preserves.echo_bind fun echo => Triple.ite (fun _ => preserves_pure ()) fun _ => ?_
  refine Preserves.get_bind fun s hs => ?_
  have hpush : ∀ here : Stat, Preserves s₁ rel (if here.kind = .dir then do
      mkdirRemote peer rel
      pushNewDirContents peer rel
      else pushFile peer rel here) := by
    intro here
    refine Triple.ite (fun _ => preserves_of_keeps fun _ => ?_) fun _ => preserves_pushFile h _
    exact Keeps.bind (keeps_mkdirRemote rel) fun _ => keeps_pushNewDirContents rel
  cases isDir with
  | true =>
    simp only [if_true]
    split
    · exact preserves_pure ()
    · exact hpush _
  | false =>
    simp only [Bool.false_eq_true, if_false]
    split
    · exact preserves_pure ()
    · exact hpush _

theorem preserves_pushLocal_removed (h : Site s₁ rel)
    (hno : s₁.disk.fs.get (s₁.full rel) = none) :
    Preserves s₁ rel (pushLocal peer rel .removed) := by
  refine Preserves.echo_bind fun echo => Triple.ite (fun _ => preserves_pure ()) fun _ => ?_
  refine Preserves.get_bind fun s hs => ?_
  dsimp only
  split
  · exact preserves_pure ()
  · exact preserves_deleteOnServer h hno _

end Path

end SyncEngine

end AlloyFs.Sync
