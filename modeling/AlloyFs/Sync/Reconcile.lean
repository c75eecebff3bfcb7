import AlloyFs.Common.Coalesce
import AlloyFs.Os.Disk
import AlloyFs.Sync.Manifest

/-!
# Three-way reconciliation

Baseline, local tree and remote tree give a list of actions.  A side has changed if its
kind, size or time differ from the baseline; versions only ever prove that it has not.
-/

namespace AlloyFs.Sync

/-- One side's view of one path. -/
structure Stat where
  kind : EntryKind
  size : ℕ
  mtimeNs : ℕ
  /-- the server's version; 0 locally -/
  version : ℕ
deriving DecidableEq

abbrev Snapshot := AList fun _ : Text => Stat

/-- What is decided for one path. -/
inductive Action
  /-- download -/
  | pull (path : Text)
  /-- upload -/
  | push (path : Text)
  | deleteLocal (path : Text) (kind : EntryKind)
  | deleteRemote (path : Text) (kind : EntryKind)
  /-- both sides are the same already: only record it -/
  | adopt (path : Text) (stat : Stat)
  | conflict (path : Text) (here there : Stat)
  /-- gone on both sides -/
  | forget (path : Text)
deriving DecidableEq

/-- Deletes run last. -/
def Action.isDelete : Action → Bool
  | .deleteLocal _ _ | .deleteRemote _ _ => true
  | _ => false

def sameStat (kind : EntryKind) (size mtimeNs : ℕ) (s : Stat) : Bool :=
  decide (s.kind = kind) &&
    (decide (kind = .dir) || (decide (s.size = size) && decide (s.mtimeNs = mtimeNs)))

def localChanged : Option SyncEntry → Option Stat → Bool
  | some b, some l => !sameStat b.kind b.size b.mtimeNs l
  | some _, none => true
  | none, some _ => true
  | none, none => false

def remoteChanged : Option SyncEntry → Option Stat → Bool
  | some b, some r =>
    -- equal versions prove that nothing changed
    if b.remoteVersion ≠ 0 ∧ b.remoteVersion = r.version then false
    else !sameStat b.kind b.size b.mtimeNs r
  | some _, none => true
  | none, some _ => true
  | none, none => false

/-- The row of the decision table for one path. -/
def planPath (path : Text) (base : Option SyncEntry) (l r : Option Stat) : Option Action :=
  match l, r with
  | some here, some there =>
    if here.kind = .dir ∧ there.kind = .dir then
      if base.isNone then some (.adopt path there) else none
    else
      match localChanged base l, remoteChanged base r with
      | false, false => none
      | true, false => some (.push path)
      | false, true => some (.pull path)
      | true, true =>
        if here.kind = there.kind ∧ here.size = there.size ∧ here.mtimeNs = there.mtimeNs then
          some (.adopt path there)
        else some (.conflict path here there)
  | some here, none =>
    if base.isNone then some (.push path)
    -- an edit wins over a remote delete
    else if localChanged base l then some (.push path)
    else some (.deleteLocal path here.kind)
  | none, some there =>
    if base.isNone then some (.pull path)
    -- an edit wins over a local delete
    else if remoteChanged base r then some (.pull path)
    else some (.deleteRemote path there.kind)
  | none, none => some (.forget path)

/-- Every path of the baseline and the two snapshots, in order. -/
def planPaths (m : SyncManifest) (here there : Snapshot) : List Text :=
  (m.entries.keys ++ here.keys ++ there.keys).dedup.insertionSort textLe

def plan (m : SyncManifest) (here there : Snapshot) : List Action :=
  (planPaths m here there).filterMap fun path =>
    planPath path (m.get path) (here.lookup path) (there.lookup path)

/-- Staging files of downloads in flight: never synced, never watched. -/
def isInternal (path : Text) : Bool :=
  match (RelPath.mk path).comps.getLast? with
  | some name => decide (".ds-tmp-".toList <+: name)
  | none => false

/-! ## The local tree -/

/-- What is seen of one entry of the local tree. -/
def statOfEntry (fs : Fs) (l : Loc) : Option Stat :=
  match fs.get l with
  | some .dir => some ⟨.dir, 0, 0, 0⟩
  | some (.file ino) =>
    let i := fs.inodes ino
    some ⟨.file, i.content.length, mtimeNsOf i.mtime, 0⟩
  -- links are not synced
  | some (.symlink _) => none
  | none => none

/-- One entry of a directory: into the snapshot, and onto the stack if it is a directory
itself. -/
def scanEntry (fs : Fs) (root : Loc) (exclude : ExcludeSet) (acc : Snapshot × List Loc) (l : Loc) :
    Snapshot × List Loc :=
  match Coalescer.relOf root l with
  | none => acc
  | some rel =>
    if exclude.isExcluded rel || isInternal rel.text then acc
    else
      match statOfEntry fs l with
      | none => acc
      | some st =>
        (acc.1.insert rel.text st, if st.kind = .dir then l :: acc.2 else acc.2)

/-- Work off the stack of directories. -/
def snapshotLoop (fs : Fs) (root : Loc) (exclude : ExcludeSet) :
    ℕ → List Loc → Snapshot → Except ErrorCode Snapshot
  | _, [], snap => .ok snap
  | 0, _ :: _, _ => .error .io
  | n + 1, dir :: stack, snap =>
    if fs.isDir dir then
      let acc := ((fs.children dir).map fun name => dir ++ [name]).foldl
        (scanEntry fs root exclude) (snap, stack)
      snapshotLoop fs root exclude n acc.2 acc.1
    else .error .notADirectory

/-- Walk the local tree.  Every directory is entered once, so the number of entries
bounds the loop. -/
def snapshotLocal (fs : Fs) (root : Loc) (exclude : ExcludeSet) : Except ErrorCode Snapshot :=
  snapshotLoop fs root exclude (fs.tree.length + 1) [root] ∅

/-! ## What the plan says -/

/-- A path of a snapshot is neither excluded nor internal. -/
def Listed (exclude : ExcludeSet) (snap : Snapshot) : Prop :=
  ∀ path ∈ snap, exclude.isExcluded ⟨path⟩ = false ∧ isInternal path = false

variable {exclude : ExcludeSet} {m : SyncManifest} {here there : Snapshot} {root : Loc}

theorem listed_scanEntry {fs : Fs} {acc : Snapshot × List Loc}
    (h : Listed exclude acc.1) (l : Loc) : Listed exclude (scanEntry fs root exclude acc l).1 := by
  rw [scanEntry]
  split
  · exact h
  · next rel _ =>
    split
    · exact h
    · next hx =>
      rw [Bool.or_eq_true, not_or, Bool.not_eq_true, Bool.not_eq_true] at hx
      split
      · exact h
      · intro path hp
        rcases (AList.mem_insert _).mp hp with rfl | hp
        · exact hx
        · exact h path hp

theorem listed_snapshotLoop {fs : Fs} {snap : Snapshot} (n : ℕ) :
    ∀ (stack : List Loc) (acc : Snapshot), Listed exclude acc →
      snapshotLoop fs root exclude n stack acc = .ok snap → Listed exclude snap := by
  have hfold : ∀ (ls : List Loc) (acc : Snapshot × List Loc), Listed exclude acc.1 →
      Listed exclude (ls.foldl (scanEntry fs root exclude) acc).1 := by
    intro ls
    induction ls with
    | nil => exact fun _ h => h
    | cons l ls ih => exact fun _ h => ih _ (listed_scanEntry h l)
  induction n with
  | zero =>
    rintro (_ | ⟨dir, stack⟩) acc h hok
    · cases hok
      exact h
    · cases hok
  | succ n ih =>
    rintro (_ | ⟨dir, stack⟩) acc h hok
    · cases hok
      exact h
    · rw [snapshotLoop] at hok
      split at hok
      · exact ih _ _ (hfold _ (acc, stack) h) hok
      · cases hok

theorem listed_snapshotLocal {fs : Fs} {snap : Snapshot}
    (h : snapshotLocal fs root exclude = .ok snap) : Listed exclude snap :=
  listed_snapshotLoop _ _ _ (fun _ hp => absurd hp (AList.notMem_empty _)) h

/-- What an action is about. -/
def Action.path : Action → Text
  | .pull p | .push p | .deleteLocal p _ | .deleteRemote p _ | .adopt p _ | .conflict p _ _
  | .forget p => p

/-- The rows of the decision table: what is planned for a path, and when. -/
inductive Row (path : Text) (base : Option SyncEntry) :
    Option Stat → Option Stat → Option Action → Prop
  | newDirs {l r : Stat} : l.kind = .dir → r.kind = .dir → base = none →
      Row path base (some l) (some r) (some (.adopt path r))
  | dirs {l r : Stat} {b : SyncEntry} : l.kind = .dir → r.kind = .dir → base = some b →
      Row path base (some l) (some r) none
  | clean {l r : Stat} : ¬ (l.kind = .dir ∧ r.kind = .dir) → localChanged base (some l) = false →
      remoteChanged base (some r) = false → Row path base (some l) (some r) none
  | push {l r : Stat} : ¬ (l.kind = .dir ∧ r.kind = .dir) → localChanged base (some l) = true →
      remoteChanged base (some r) = false → Row path base (some l) (some r) (some (.push path))
  | pull {l r : Stat} : ¬ (l.kind = .dir ∧ r.kind = .dir) → localChanged base (some l) = false →
      remoteChanged base (some r) = true → Row path base (some l) (some r) (some (.pull path))
  | same {l r : Stat} : ¬ (l.kind = .dir ∧ r.kind = .dir) → localChanged base (some l) = true →
      remoteChanged base (some r) = true →
      l.kind = r.kind ∧ l.size = r.size ∧ l.mtimeNs = r.mtimeNs →
      Row path base (some l) (some r) (some (.adopt path r))
  | conflict {l r : Stat} : ¬ (l.kind = .dir ∧ r.kind = .dir) →
      localChanged base (some l) = true → remoteChanged base (some r) = true →
      ¬ (l.kind = r.kind ∧ l.size = r.size ∧ l.mtimeNs = r.mtimeNs) →
      Row path base (some l) (some r) (some (.conflict path l r))
  | pushNew {l : Stat} : localChanged base (some l) = true →
      Row path base (some l) none (some (.push path))
  | deleteLocal {l : Stat} : localChanged base (some l) = false →
      Row path base (some l) none (some (.deleteLocal path l.kind))
  | pullNew {r : Stat} : remoteChanged base (some r) = true →
      Row path base none (some r) (some (.pull path))
  | deleteRemote {r : Stat} : remoteChanged base (some r) = false →
      Row path base none (some r) (some (.deleteRemote path r.kind))
  | forget : Row path base none none (some (.forget path))

theorem row_planPath (path : Text) (base : Option SyncEntry) (l r : Option Stat) :
    Row path base l r (planPath path base l r) := by
  unfold planPath
  split
  · next here there =>
    by_cases hdirs : here.kind = .dir ∧ there.kind = .dir
    · rw [if_pos hdirs]
      cases base with
      | none => exact .newDirs hdirs.1 hdirs.2 rfl
      | some b => exact .dirs hdirs.1 hdirs.2 rfl
    · rw [if_neg hdirs]
      split
      · next hl hr => exact .clean hdirs hl hr
      · next hl hr => exact .push hdirs hl hr
      · next hl hr => exact .pull hdirs hl hr
      · next hl hr =>
        split
        · next hsame => exact .same hdirs hl hr hsame
        · next hsame => exact .conflict hdirs hl hr hsame
  · next here =>
    cases base with
    | none => exact .pushNew rfl
    | some b =>
      rw [if_neg (by simp)]
      split
      · next hl => exact .pushNew hl
      · next hl => exact .deleteLocal (by simpa using hl)
  · next there =>
    cases base with
    | none => exact .pullNew rfl
    | some b =>
      rw [if_neg (by simp)]
      split
      · next hr => exact .pullNew hr
      · next hr => exact .deleteRemote (by simpa using hr)
  · exact .forget

theorem row_of_plan {a : Action} (h : a ∈ plan m here there) :
    Row a.path (m.get a.path) (here.lookup a.path) (there.lookup a.path) (some a) := by
  obtain ⟨path, _, hrow⟩ := List.mem_filterMap.mp h
  have hspec := row_planPath path (m.get path) (here.lookup path) (there.lookup path)
  rw [hrow] at hspec
  have hpath : a.path = path := by
    generalize here.lookup path = l, there.lookup path = r at hspec
    cases hspec <;> rfl
  exact hpath ▸ hspec

theorem listed_of_plan {a : Action}
    (hhere : Listed exclude here) (hthere : Listed exclude there) (h : a ∈ plan m here there) :
    exclude.isExcluded ⟨a.path⟩ = false ∨ a = .forget a.path := by
  have hspec := row_of_plan h
  cases hl : here.lookup a.path with
  | some l => exact .inl (hhere _ (AList.lookup_isSome.mp (by rw [hl]; rfl))).1
  | none =>
    cases hr : there.lookup a.path with
    | some r => exact .inl (hthere _ (AList.lookup_isSome.mp (by rw [hr]; rfl))).1
    | none =>
      rw [hl, hr] at hspec
      cases a <;> cases hspec
      exact .inr rfl

/-- **A local delete is planned only for what the snapshot has as the baseline has it.** -/
theorem deleteLocal_of_plan {path : Text}
    {kind : EntryKind} (h : .deleteLocal path kind ∈ plan m here there) :
    ∃ b l, m.get path = some b ∧ here.lookup path = some l ∧
      sameStat b.kind b.size b.mtimeNs l = true := by
  have hspec := row_of_plan h
  dsimp only [Action.path] at hspec
  generalize hl : here.lookup path = l, there.lookup path = r at hspec
  cases hspec with
  | deleteLocal hclean =>
    cases hb : m.get path with
    | none =>
      rw [hb] at hclean
      cases hclean
    | some b =>
      rw [hb] at hclean
      exact ⟨b, _, rfl, rfl, by simpa [localChanged] using hclean⟩

end AlloyFs.Sync
