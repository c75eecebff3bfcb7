import AlloyFs.Common.Coalesce

/-!
# Windows without renames

Without renames each path has a history of its own: it is created, changed and removed, always in
an order that fits whether it exists.  One pending kind stands for the whole history of a path in a
window, and it says what an observer who only looks before and after would have to be told.
-/

namespace AlloyFs

open List

/-- What a raw event other than a rename reports of a path. -/
inductive FileChange
  | create | data | attr | remove
deriving DecidableEq

variable {before : Bool} {history : List FileChange}

namespace FileChange

def kind : FileChange → EventKind
  | create => .created
  | data => .modified
  | attr => .attrChanged
  | remove => .removed

def ofNotify : NotifyKind → Option FileChange
  | .create => some create
  | .modify => some data
  | .modifyMetadata => some attr
  | .remove => some remove
  | .modifyName _ | .other => none

/-- Does the path exist after one more change? -/
def after (present : Bool) : FileChange → Bool
  | create => true
  | remove => false
  | data | attr => present

def present (before : Bool) (history : List FileChange) : Bool := history.foldl after before

/-- A path is created only when it is absent, and changed or removed only when it is present. -/
def Consistent : Bool → List FileChange → Prop
  | _, [] => True
  | before, change :: history =>
    before = decide (change ≠ create) ∧ Consistent (change.after before) history

/-- What somebody has to be told who saw the path before, and sees it afterwards. -/
def observed (before : Bool) (history : List FileChange) : Option EventKind :=
  match before, present before history with
  | false, true => some .created
  | true, false => some .removed
  | false, false => none
  | true, true =>
    if data ∈ history ∨ create ∈ history then some .modified
    else if attr ∈ history then some .attrChanged
    else none

theorem present_append (before : Bool) (h h' : List FileChange) :
    present before (h ++ h') = present (present before h) h' :=
  foldl_append

theorem consistent_append {h h' : List FileChange} :
    Consistent before (h ++ h') ↔ Consistent before h ∧ Consistent (present before h) h' := by
  induction h generalizing before with
  | nil => simp [Consistent, present]
  | cons change h ih => simp [Consistent, ih, present, and_assoc]

theorem observed_append {change : FileChange}
    (h : present before history = decide (change ≠ create)) :
    observed before (history ++ [change]) = merge (observed before history) change.kind := by
  simp only [observed, present_append, h]
  cases change <;> cases before <;> simp [present, after, kind, merge]
  all_goals split_ifs <;> rfl

/-- **One pending kind stands for the history of the window.** -/
theorem foldl_merge (h : Consistent before history) :
    history.foldl (fun pending change => merge pending change.kind) none =
      observed before history := by
  induction history using reverseRecOn with
  | nil => cases before <;> rfl
  | append_singleton history change ih =>
    obtain ⟨hinit, hlast, -⟩ := consistent_append.mp h
    rw [foldl_append, ih hinit, observed_append hlast]
    rfl

end FileChange

/-- What raw events report of a path, one after the other. -/
def changesAt (root : List Name) (p : RelPath) (events : List NotifyEvent) : List FileChange :=
  events.flatMap fun event =>
    (FileChange.ofNotify event.kind).elim [] fun change =>
      (event.paths.filter fun abs => Coalescer.relOf root abs = some p).map fun _ => change

/-- The event is no rename, nor part of one. -/
def NotifyEvent.Plain (event : NotifyEvent) : Prop := ∀ mode, event.kind ≠ .modifyName mode

namespace Coalescer

/-- The batches of consecutive windows. -/
def batches (co : Coalescer) : List (List NotifyEvent) → List (List (RelPath × EventKind))
  | [] => []
  | window :: windows =>
    let batch := (window.foldl ingest co).takeBatch
    batch.1 :: batches batch.2 windows

variable {co : Coalescer} {p : RelPath} {event : NotifyEvent} {window : List NotifyEvent}
  {root : List Name} {exclude : ExcludeSet}

theorem ingest_plain (h : event.Plain) (co : Coalescer) :
    co.ingest event = (FileChange.ofNotify event.kind).elim co fun change =>
      co.pushAll event.paths change.kind := by
  obtain ⟨kind, paths⟩ := event
  cases kind with
  | modifyName mode => exact absurd rfl (h mode)
  | create | modifyMetadata | modify | remove | other => rfl

/-- A window without renames: what is pending at a path is its history, merged. -/
theorem foldl_ingest (h : ∀ event ∈ window, event.Plain) (co : Coalescer) :
    SameRenames co (window.foldl ingest co) ∧ ∀ p, (window.foldl ingest co).pending.lookup p =
      if co.exclude.isExcluded p then co.pending.lookup p
      else (changesAt co.root p window).foldl (fun pending change => merge pending change.kind)
        (co.pending.lookup p) := by
  induction window generalizing co with
  | nil => exact ⟨.refl co, by simp [changesAt]⟩
  | cons event window ih =>
    obtain ⟨hplain, hrest⟩ := forall_mem_cons.mp h
    obtain ⟨hs, hlookup⟩ := ih hrest (co.ingest event)
    rw [foldl_cons]
    have hone : SameRenames co (co.ingest event) := by
      rw [ingest_plain hplain]
      cases FileChange.ofNotify event.kind with
      | none => exact .refl co
      | some change => exact sameRenames_pushAll _ _ _
    refine ⟨hone.trans hs, fun p => ?_⟩
    rw [hlookup, hone.exclude, hone.root, ingest_plain hplain]
    simp only [changesAt, flatMap_cons, foldl_append]
    cases FileChange.ofNotify event.kind with
    | none => rfl
    | some change =>
      simp only [Option.elim_some, lookup_pushAll, foldl_map]
      split <;> rfl

theorem pairwise_sorted (pending : PendingMap) :
    (sorted pending).Pairwise fun a b => textLt a.1.text b.1.text := by
  have hsorted : (sorted pending).Pairwise fun a b => textLe a.1.text b.1.text := by
    apply pairwise_insertionSort
  refine hsorted.imp₂ (fun a b hle hne => textLt_of_le hle fun heq => hne ?_)
    (pairwise_map.mp (nodup_sorted pending))
  exact congrArg RelPath.mk heq

theorem mem_batch (h : ∀ event ∈ window, event.Plain)
    (hc : FileChange.Consistent before (changesAt root p window)) (kind : EventKind) :
    (p, kind) ∈ (window.foldl ingest (new root exclude)).takeBatch.1 ↔
      exclude.isExcluded p = false ∧
        FileChange.observed before (changesAt root p window) = some kind := by
  obtain ⟨hs, hlookup⟩ := foldl_ingest h (new root exclude)
  have hnone : (new root exclude).pending.lookup p = none := rfl
  rw [takeBatch, deduped, hs.renames]
  simp only [new, map_nil, nil_append, foldl_nil, mem_sorted]
  rw [← new, hlookup, hnone, ← FileChange.foldl_merge hc]
  cases hx : exclude.isExcluded p <;> simp [new, hx]

theorem batches_new (windows : List (List NotifyEvent))
    (h : ∀ window ∈ windows, ∀ event ∈ window, event.Plain) :
    (new root exclude).batches windows =
      windows.map fun window => (window.foldl ingest (new root exclude)).takeBatch.1 := by
  induction windows with
  | nil => rfl
  | cons window windows ih =>
    obtain ⟨hplain, hrest⟩ := forall_mem_cons.mp h
    have hs := (foldl_ingest hplain (new root exclude)).1
    have hnew : (window.foldl ingest (new root exclude)).takeBatch.2 = new root exclude := by
      simp only [takeBatch, hs.root, hs.exclude]
      rfl
    rw [batches, map_cons, hnew, ih hrest]

/-- **Coalescing without renames is exact.**  For every set of paths that exist, every history that
fits it and every way to cut it into windows: the batch of a window ascends strictly by its paths,
and has an event for exactly the paths that are not excluded and have changed observably, and of
the kind that was observed. -/
theorem batches_exact (root : List Name) (exclude : ExcludeSet) (before : RelPath → Bool)
    {windows : List (List NotifyEvent)}
    (hplain : ∀ window ∈ windows, ∀ event ∈ window, event.Plain)
    (hc : ∀ p, FileChange.Consistent (before p) (changesAt root p windows.flatten)) (i : ℕ)
    (hi : i < windows.length) :
    ∃ batch, ((new root exclude).batches windows)[i]? = some batch ∧
      batch.Pairwise (fun a b => textLt a.1.text b.1.text) ∧
      ∀ p kind, (p, kind) ∈ batch ↔ exclude.isExcluded p = false ∧
        FileChange.observed
          (FileChange.present (before p) (changesAt root p (windows.take i).flatten))
          (changesAt root p windows[i]) = some kind := by
  have hwindow := hplain _ (getElem_mem hi)
  refine ⟨_, by rw [batches_new windows hplain, getElem?_map, getElem?_eq_getElem hi]; rfl,
    ?_, fun p kind => mem_batch hwindow ?_ kind⟩
  · rw [takeBatch, deduped, (foldl_ingest hwindow _).1.renames]
    exact pairwise_sorted _
  · have hsplit : windows.flatten =
        (windows.take i).flatten ++ (windows[i] ++ (windows.drop (i + 1)).flatten) := by
      rw [← flatten_cons, ← flatten_append, ← drop_eq_getElem_cons hi,
        take_append_drop]
    have hp := hc p
    rw [hsplit] at hp
    simp only [changesAt, flatMap_append, FileChange.consistent_append] at hp
    exact hp.2.1

/-- A file is made and written in one window, and replaced in the next. -/
def replaced : List (List NotifyEvent) :=
  [[⟨.create, [[['a']]]⟩, ⟨.modify, [[['a']]]⟩], [⟨.remove, [[['a']]]⟩, ⟨.create, [[['a']]]⟩]]

theorem batches_replaced : ∃ batch, ((new [] .none).batches replaced)[1]? = some batch ∧
    (⟨['a']⟩, .modified) ∈ batch := by
  have hplain : ∀ window ∈ replaced, ∀ event ∈ window, event.Plain := by
    simp [replaced, NotifyEvent.Plain]
  have hc (p : RelPath) : FileChange.Consistent false (changesAt [] p replaced.flatten) := by
    by_cases hp : relOf [] [['a']] = some p <;>
      simp [replaced, changesAt, hp, FileChange.ofNotify, FileChange.Consistent, FileChange.after]
  obtain ⟨batch, hbatch, -, hmem⟩ := batches_exact [] .none (fun _ => false) hplain hc 1 (by decide)
  exact ⟨batch, hbatch, (hmem _ _).mpr (by decide)⟩

end Coalescer
end AlloyFs
