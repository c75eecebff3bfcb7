import AlloyFs.Lib.Transition
import AlloyFs.Common.Coalesce
import Mathlib.Logic.Function.Basic

/-!
# What an observer of a coalesced window ends with

Files are created, written, changed in their attributes, removed and renamed while one
window of a coalescer is open; a backend reports each operation as one to three raw
events.  An observer that held the visible tree at the start then applies the batch: a
rename moves its entry, a creation or modification makes it read the path again, an
attribute change its attributes, a removal drops it.

All renames come first in a batch.  So what the observer holds for a path is settled by
three things: what is pending there, where the renames alone have moved the entries it
held, and whether the path was an end of one of them.  `Sound` says how these must fit
together, and every operation that meets `windowOk` keeps it.
-/

namespace AlloyFs

open Function Coalescer List

/-- A file, as far as an observer sees it. -/
structure FileState (γ α : Type) where
  content : γ
  attr : α
deriving DecidableEq

/-- The files of a tree. -/
abbrev FileTree (γ α : Type) := RelPath → Option (FileState γ α)

/-- The ways backends report a rename: its halves, the pair, or all three in any
order. -/
inductive Report
  | srcDst
  | both
  | srcDstBoth | srcBothDst | dstSrcBoth | dstBothSrc | bothSrcDst | bothDstSrc
deriving DecidableEq

namespace Report

def modes : Report → List RenameMode
  | .srcDst => [.src, .dst]
  | .both => [.both]
  | .srcDstBoth => [.src, .dst, .both]
  | .srcBothDst => [.src, .both, .dst]
  | .dstSrcBoth => [.dst, .src, .both]
  | .dstBothSrc => [.dst, .both, .src]
  | .bothSrcDst => [.both, .src, .dst]
  | .bothDstSrc => [.both, .dst, .src]

/-- The target is reported before the pair. -/
def dstFirst : Report → Bool
  | .srcDstBoth | .dstSrcBoth | .dstBothSrc => true
  | _ => false

end Report

/-- One operation on the files of a tree. -/
inductive FileOp (γ α : Type)
  | create (p : WirePath) (f : FileState γ α)
  | write (p : WirePath) (f : FileState γ α)
  | chattr (p : WirePath) (attr : α)
  | remove (p : WirePath)
  /-- in place of what is at the target -/
  | rename (src dst : WirePath) (report : Report)

namespace FileOp

variable {γ α : Type}

/-- The tree afterwards; `none` if the operation fails. -/
def run (tree : FileTree γ α) : FileOp γ α → Option (FileTree γ α)
  | .create p f => if tree p.1 = none then some (update tree p.1 (some f)) else none
  | .write p f => if tree p.1 = none then none else some (update tree p.1 (some f))
  | .chattr p attr =>
    match tree p.1 with
    | none => none
    | some f => some (update tree p.1 (some { f with attr := attr }))
  | .remove p => if tree p.1 = none then none else some (update tree p.1 none)
  | .rename src dst _ =>
    match tree src.1 with
    | none => none
    | some f =>
      if src = dst then none
      else some (update (update tree dst.1 (some f)) src.1 none)

/-- One report of a rename. -/
def renameEvent (root : List Name) (src dst : WirePath) (mode : RenameMode) : NotifyEvent :=
  match mode with
  | .src => ⟨.modifyName .src, [root ++ src.1.comps]⟩
  | .dst => ⟨.modifyName .dst, [root ++ dst.1.comps]⟩
  | mode => ⟨.modifyName mode, [root ++ src.1.comps, root ++ dst.1.comps]⟩

/-- The raw events of an operation. -/
def events (root : List Name) : FileOp γ α → List NotifyEvent
  | .create p _ => [⟨.create, [root ++ p.1.comps]⟩]
  | .write p _ => [⟨.modify, [root ++ p.1.comps]⟩]
  | .chattr p _ => [⟨.modifyMetadata, [root ++ p.1.comps]⟩]
  | .remove p => [⟨.remove, [root ++ p.1.comps]⟩]
  | .rename src dst report => report.modes.map (renameEvent root src dst)

end FileOp

section Observer

variable {γ α : Type}

/-- An entry moves to another path, if there is one. -/
def moveEntry (obs : FileTree γ α) (r : RelPath × RelPath) : FileTree γ α :=
  match obs r.1 with
  | some f => update (update obs r.2 (some f)) r.1 none
  | none => obs

/-- What an observer holds for a path after a change to it; `now` is what it reads. -/
def settle (kind : EventKind) (held now : Option (FileState γ α)) : Option (FileState γ α) :=
  match kind with
  | .created | .modified => now
  | .attrChanged =>
    match held, now with
    | some h, some n => some { h with attr := n.attr }
    | _, _ => none
  | .removed => none
  | _ => held

/-- An observer applies one event of a batch. -/
def observe (now obs : FileTree γ α) (ev : RelPath × EventKind) : FileTree γ α :=
  match ev.2 with
  | .renamedFrom dst => moveEntry obs (ev.1, dst)
  | kind => update obs ev.1 (settle kind (obs ev.1) (now ev.1))

/-- What clients may see of a tree. -/
def visible (exclude : ExcludeSet) (tree : FileTree γ α) : FileTree γ α := fun p =>
  if exclude.isExcluded p then none else tree p

end Observer

/-- One window: what the observer held at its start, the tree now, and the coalescer. -/
structure Window (γ α : Type) where
  seen : FileTree γ α
  tree : FileTree γ α
  co : Coalescer

namespace Window

variable {γ α : Type}

def start (root : List Name) (exclude : ExcludeSet) (tree : FileTree γ α) : Window γ α :=
  ⟨visible exclude tree, tree, .new root exclude⟩

/-- An operation, and its raw events. -/
def step (w : Window γ α) (op : FileOp γ α) : Option (Window γ α) :=
  (op.run w.tree).map fun tree =>
    { w with tree := tree, co := (op.events w.co.root).foldl ingest w.co }

/-- What the observer ends with. -/
def observed (w : Window γ α) : FileTree γ α := w.co.takeBatch.1.foldl (observe w.tree) w.seen

/-- **The observer ends with exactly the visible tree.** -/
def Converges (w : Window γ α) : Prop := w.observed = visible w.co.exclude w.tree

/-- Where the paired renames alone have moved what the observer held. -/
def moved (w : Window γ α) : FileTree γ α := w.co.renames.foldl moveEntry w.seen

/-- What is pending for a path. -/
def pend (w : Window γ α) (p : RelPath) : Option EventKind := w.co.pending.lookup p

end Window

/-! ## What is settled for a path -/

variable {isSrc isDst : Prop}

section Sound

variable {γ α : Type}

/-- What is pending for a path fits what the renames left there (`m`), what is there
now (`t`), and whether the path is the source or the target of a paired rename. -/
def Sound (pend : Option EventKind) (m t : Option (FileState γ α)) (isSrc isDst : Prop) : Prop :=
  match pend with
  | none => m = t
  | some .created => ¬ isDst
  | some .modified => True
  | some .attrChanged => ∃ g f, m = some g ∧ t = some f ∧ g.content = f.content
  | some .removed => t = none ∧ (¬ isSrc ∨ m = none)
  | some _ => False

/-- What an observer holds for a path after at most one change to it. -/
def settled (k : Option EventKind) (held now : Option (FileState γ α)) : Option (FileState γ α) :=
  match k with
  | none => held
  | some k => settle k held now

theorem settle_of_sound {pend : Option EventKind} {m t : Option (FileState γ α)}
    (h : Sound pend m t isSrc isDst) {k : Option EventKind}
    (hk : k = pend ∨ k = none ∧ (pend = some .removed ∧ isSrc ∨ pend = some .created ∧ isDst)) :
    settled k m t = t := by
  rcases hk with rfl | ⟨rfl, ⟨rfl, hsrc⟩ | ⟨rfl, hdst⟩⟩
  · match k, h with
    | none, h => exact h
    | some .created, _ => rfl
    | some .modified, _ => rfl
    | some .attrChanged, ⟨g, f, hm, ht, hc⟩ =>
      rw [hm, ht]
      simp only [settled, settle, hc]
    | some .removed, h => exact h.1.symm
  · exact (h.2.resolve_left fun hno => hno hsrc).trans h.1.symm
  · exact absurd hdst h

/-! How a change moves on what is pending for a path -/

namespace Sound

variable {k : Option EventKind} {m t : Option (FileState γ α)} {f g : FileState γ α}
  {isSrc isDst : Prop}

theorem create (h : Sound k m none isSrc isDst) (hok : k = none → ¬ isDst) :
    Sound (merge k .created) m (some f) isSrc isDst :=
  match k, h, hok with
  | none, _, hok => hok rfl
  | some .created, h, _ => h
  | some .modified, _, _ => trivial
  | some .removed, _, _ => trivial
  | some .attrChanged, ⟨_, _, _, ht, _⟩, _ => nomatch ht

section

variable (h : Sound k m (some g) isSrc isDst)
include h

theorem write : Sound (merge k .modified) m (some f) isSrc isDst :=
  match k, h with
  | none, _ => trivial
  | some .created, h => h
  | some .modified, _ => trivial
  | some .attrChanged, _ => trivial

theorem chattr (attr : α) :
    Sound (merge k .attrChanged) m (some { g with attr := attr }) isSrc isDst :=
  match k, h with
  | none, h => ⟨g, _, h, rfl, rfl⟩
  | some .created, h => h
  | some .modified, _ => trivial
  | some .attrChanged, ⟨g', _, hm, rfl, hc⟩ => ⟨g', _, hm, rfl, hc⟩

theorem drop (hok : if k = some .created then m = none else ¬ isSrc ∨ m = none) :
    Sound (merge k .removed) m none isSrc isDst :=
  match k, h, hok with
  | none, _, hok => ⟨rfl, hok⟩
  | some .created, _, hok => hok
  | some .modified, _, hok => ⟨rfl, hok⟩
  | some .attrChanged, _, hok => ⟨rfl, hok⟩

theorem dropMany (hok : if k = some .created then m = none else ¬ isSrc ∨ m = none) (n : ℕ) :
    Sound ((fun k => merge k .removed)^[n + 1] k) m none isSrc isDst := by
  -- after the first report nothing is pending, or a removal
  have hgone : ¬ isSrc ∨ m = none := by
    split at hok
    · exact .inr hok
    · exact hok
  suffices hs : Sound ((fun k => merge k .removed)^[n + 1] k) m none isSrc isDst ∧
      (fun k => merge k .removed)^[n + 1] k ≠ some .created from hs.1
  induction n with
  | zero =>
    refine ⟨h.drop hok, ?_⟩
    match k, h with
    | none, _ | some .created, _ | some .modified, _ | some .attrChanged, _ => nofun
  | succ n ih =>
    rw [Function.iterate_succ_apply']
    generalize (fun k => merge k .removed)^[n + 1] k = k' at ih
    match k', ih with
    | none, _ | some .modified, _ | some .attrChanged, _ | some .removed, _ =>
      exact ⟨⟨rfl, hgone⟩, nofun⟩
    | some .created, ih => exact absurd rfl ih.2

end

theorem reread (h : Sound k m t isSrc isDst) (hk : k = some .created ∨ k = some .modified)
    (t' : Option (FileState γ α)) : Sound k m t' isSrc isDst := by
  rcases hk with rfl | rfl
  · exact h
  · trivial

theorem replace (h : Sound k m t isSrc isDst) (hattr : k ≠ some .attrChanged)
    (hok : isDst → k = some .modified ∨ k = some .removed) :
    Sound (merge k .created) m (some f) isSrc isDst :=
  match k, h, hattr, hok with
  | none, _, _, hok => fun hd => (hok hd).elim nofun nofun
  | some .created, h, _, _ => h
  | some .modified, _, _, _ => trivial
  | some .removed, _, _, _ => trivial
  | some .attrChanged, _, hattr, _ => absurd rfl hattr

theorem replaceMany (h : Sound k m t isSrc isDst) (hattr : k ≠ some .attrChanged)
    (hok : isDst → k = some .modified ∨ k = some .removed) (n : ℕ) :
    Sound ((fun k => merge k .created)^[n + 1] k) m (some f) isSrc isDst := by
  have hidem : ∀ k, merge (merge k .created) .created = merge k .created := by
    rintro (_ | k)
    · rfl
    · cases k <;> rfl
  have hone : (fun k => merge k .created)^[n + 1] k = merge k .created := by
    induction n with
    | zero => rfl
    | succ n ih => rw [Function.iterate_succ_apply', ih, hidem]
  rw [hone]
  exact h.replace hattr hok

end Sound

theorem foldl_observe (now : FileTree γ α) (items : List (RelPath × EventKind)) :
    ∀ obs : FileTree γ α, (items.map Prod.fst).Nodup →
      (∀ e ∈ items, ∀ dst, e.2 ≠ .renamedFrom dst) → ∀ p,
        (p ∉ items.map Prod.fst → items.foldl (observe now) obs p = obs p) ∧
        ∀ k, (p, k) ∈ items → items.foldl (observe now) obs p = settle k (obs p) (now p) := by
  induction items with
  | nil =>
    intro obs _ _ p
    exact ⟨fun _ => rfl, fun k h => absurd h not_mem_nil⟩
  | cons e items ih =>
    intro obs hnd hplain p
    rw [map_cons, nodup_cons] at hnd
    have hobs : observe now obs e = update obs e.1 (settle e.2 (obs e.1) (now e.1)) := by
      have hne := hplain e mem_cons_self
      rw [observe]
      split
      · next dst hk => exact absurd hk (hne dst)
      · rfl
    have hih := ih (observe now obs e) hnd.2 (fun e' he' => hplain e' (mem_cons_of_mem _ he')) p
    rw [foldl_cons]
    refine ⟨fun hp => ?_, fun k hk => ?_⟩
    · rw [map_cons, mem_cons, not_or] at hp
      rw [hih.1 hp.2, hobs, update_of_ne hp.1]
    · rcases mem_cons.mp hk with heq | hmem
      · subst heq
        rw [hih.1 hnd.1, hobs, update_self]
      · have hne : p ≠ e.1 := fun heq => hnd.1 (heq ▸ mem_map_of_mem (f := Prod.fst) hmem)
        rw [hih.2 k hmem, hobs, update_of_ne hne]

theorem foldl_observe_renames (now : FileTree γ α) (renames : List (RelPath × RelPath)) :
    ∀ obs : FileTree γ α,
      (renames.map fun r => (r.1, EventKind.renamedFrom r.2)).foldl (observe now) obs =
        renames.foldl moveEntry obs := by
  induction renames with
  | nil => exact fun _ => rfl
  | cons r renames ih => exact fun obs => ih (moveEntry obs r)

end Sound

variable {w : Window γ α} {k k' : Option EventKind}

namespace Window

variable {γ α : Type} {f t : RelPath} {g : FileState γ α} {report : Report}

/-- What holds between operations. -/
structure Inv (w : Window γ α) : Prop where
  srcs : ∀ p, p ∈ w.co.renamedFrom ↔ p ∈ w.co.renames.map Prod.fst
  dsts : ∀ p, p ∈ w.co.renamedTo ↔ p ∈ w.co.renames.map Prod.snd
  hidden : ∀ p, w.co.exclude.isExcluded p = true → w.pend p = none ∧ w.moved p = none
  sound : ∀ p, w.co.exclude.isExcluded p = false →
    Sound (w.pend p) (w.moved p) (w.tree p) (p ∈ w.co.renamedFrom) (p ∈ w.co.renamedTo)

theorem inv_start (root : List Name) (exclude : ExcludeSet) (tree : FileTree γ α) :
    (start root exclude tree).Inv where
  srcs := fun _ => Iff.rfl
  dsts := fun _ => Iff.rfl
  hidden := fun _ hp => ⟨rfl, if_pos hp⟩
  sound := fun _ hp => if_neg (ne_true_of_eq_false hp)

/-- What is drained for a path: what is pending, unless it is a half of a rename. -/
theorem Inv.lookup_deduped (hi : w.Inv) (p : RelPath) :
    w.co.deduped.lookup p = w.pend p ∨ w.co.deduped.lookup p = none ∧
      (w.pend p = some .removed ∧ p ∈ w.co.renamedFrom ∨
        w.pend p = some .created ∧ p ∈ w.co.renamedTo) := by
  rw [deduped, lookup_foldl_purge]
  by_cases h : (p ∈ w.co.renames.map Prod.fst ∧ w.co.pending.lookup p = some .removed) ∨
      (p ∈ w.co.renames.map Prod.snd ∧ w.co.pending.lookup p = some .created)
  · rw [if_pos h]
    refine .inr ⟨rfl, ?_⟩
    rcases h with ⟨hm, hk⟩ | ⟨hm, hk⟩
    · exact .inl ⟨hk, (hi.srcs p).mpr hm⟩
    · exact .inr ⟨hk, (hi.dsts p).mpr hm⟩
  · rw [if_neg h]
    exact .inl rfl

theorem Inv.plain (hi : w.Inv) {p : RelPath} {k : EventKind}
    (h : w.co.deduped.lookup p = some k) (dst : RelPath) : k ≠ .renamedFrom dst := by
  rintro rfl
  have hpend : w.pend p = some (.renamedFrom dst) := by
    rcases hi.lookup_deduped p with heq | ⟨hno, _⟩
    · exact heq ▸ h
    · rw [h] at hno
      cases hno
  cases hx : w.co.exclude.isExcluded p with
  | true =>
    rw [(hi.hidden p hx).1] at hpend
    cases hpend
  | false =>
    have hs := hi.sound p hx
    rw [hpend] at hs
    exact hs

/-- **Sound windows converge.** -/
theorem converges_of_inv (hi : w.Inv) : w.Converges := by
  funext p
  have hplain : ∀ e ∈ sorted w.co.deduped, ∀ dst, e.2 ≠ .renamedFrom dst :=
    fun e he => hi.plain (mem_sorted.mp he)
  have hitems := foldl_observe w.tree (sorted w.co.deduped) w.moved
    (nodup_sorted _) hplain p
  have hval : w.observed p = settled (w.co.deduped.lookup p) (w.moved p) (w.tree p) := by
    rw [observed, takeBatch, foldl_append, foldl_observe_renames]
    cases hk : w.co.deduped.lookup p with
    | none =>
      refine hitems.1 fun hmem => ?_
      obtain ⟨e, he, rfl⟩ := mem_map.mp hmem
      rw [mem_sorted.mp (show (e.1, e.2) ∈ _ from he)] at hk
      cases hk
    | some k => exact hitems.2 k (mem_sorted.mpr hk)
  rw [hval, visible]
  cases hx : w.co.exclude.isExcluded p with
  | true =>
    have hnone : w.co.deduped.lookup p = none := by
      rcases hi.lookup_deduped p with heq | ⟨hno, _⟩
      · rw [heq, (hi.hidden p hx).1]
      · exact hno
    rw [hnone, if_pos rfl]
    exact (hi.hidden p hx).2
  | false =>
    exact settle_of_sound (hi.sound p hx) (hi.lookup_deduped p)

/-! ## Operations that keep a window sound -/

/-- A visible path may go away: what was held for it is not left behind. -/
def dropOk (w : Window γ α) (p : RelPath) : Prop :=
  if w.pend p = some .created then w.moved p = none
  else p ∉ w.co.renamedFrom ∨ w.moved p = none
deriving Decidable

/-- A visible path may go away by a rename reported in halves. -/
def leaveOk (w : Window γ α) (f : RelPath) : Prop :=
  if f ∈ w.co.renamedFrom then w.pend f = some .created ∨ w.pend f = some .modified
  else w.pend f = some .created → w.moved f = none
deriving Decidable

/-- A visible path may be replaced by a rename reported in halves. -/
def arriveOk (w : Window γ α) (t : RelPath) : Prop :=
  if t ∈ w.co.renamedTo then w.pend t = some .modified else w.pend t ≠ some .attrChanged
deriving Decidable

/-- A visible path may be replaced by what comes out of the excluded ones. -/
def appearOk (w : Window γ α) (t : RelPath) : Prop :=
  w.pend t ≠ some .attrChanged ∧
    (t ∈ w.co.renamedTo → w.pend t = some .modified ∨ w.pend t = some .removed)
deriving Decidable

/-- A paired rename may be recorded: the target is not pending as removed, unless its own
half turns that into a modification first, and the source has nothing pending, unless the
target is read again anyway. -/
def pairOk (w : Window γ α) (f t : RelPath) (report : Report) : Prop :=
  (w.pend t = some .removed → report.dstFirst = true ∧ t ∉ w.co.renamedTo) ∧
    (w.pend f = none ∨ (w.pend f = some .created ∨ w.pend f = some .modified) ∧
      (w.pend t = some .modified ∨ w.pend t = some .removed))
deriving Decidable

/-- **The condition on one operation**, in the window before it. -/
def windowOk (w : Window γ α) : FileOp γ α → Prop
  | .create p _ =>
    w.co.exclude.isExcluded p.1 = false → w.pend p.1 = none → p.1 ∉ w.co.renamedTo
  | .write _ _ | .chattr _ _ => True
  | .remove p => w.co.exclude.isExcluded p.1 = false → w.dropOk p.1
  | .rename f t report =>
    match w.co.exclude.isExcluded f.1, w.co.exclude.isExcluded t.1 with
    | true, true => True
    | true, false => if report = .srcDst then w.arriveOk t.1 else w.appearOk t.1
    | false, true => if report = .srcDst then w.leaveOk f.1 else w.dropOk f.1
    | false, false =>
      if report = .srcDst then w.leaveOk f.1 ∧ w.arriveOk t.1 else w.pairOk f.1 t.1 report

variable {w : Window γ α} {tree : FileTree γ α} {co : Coalescer}

/-- A step that records no rename keeps the window sound, if it does so path by path. -/
theorem inv_of_cells (hi : w.Inv) (hco : Coalescer.SameRenames w.co co)
    (hhidden : ∀ p, w.co.exclude.isExcluded p = true → co.pending.lookup p = w.pend p)
    (hcell : ∀ p, w.co.exclude.isExcluded p = false →
      (co.pending.lookup p = w.pend p ∧ tree p = w.tree p) ∨
        Sound (co.pending.lookup p) (w.moved p) (tree p) (p ∈ w.co.renamedFrom)
          (p ∈ w.co.renamedTo)) :
    ({ w with tree := tree, co := co } : Window γ α).Inv := by
  have hmoved : ({ w with tree := tree, co := co } : Window γ α).moved = w.moved := by
    rw [moved, moved, hco.renames]
  refine ⟨fun p => ?_, fun p => ?_, fun p hp => ?_, fun p hp => ?_⟩
  · rw [hco.renames, hco.renamedFrom]
    exact hi.srcs p
  · rw [hco.renames, hco.renamedTo]
    exact hi.dsts p
  · rw [hco.exclude] at hp
    rw [hmoved]
    exact ⟨(hhidden p hp).trans (hi.hidden p hp).1, (hi.hidden p hp).2⟩
  · rw [hco.exclude] at hp
    rw [hmoved, hco.renamedFrom, hco.renamedTo, pend]
    rcases hcell p hp with ⟨hpend, htree⟩ | hsound
    · dsimp only
      rw [hpend, htree]
      exact hi.sound p hp
    · exact hsound

theorem inv_push (hi : w.Inv) (p : WirePath) (kind : EventKind) {v v' : Option (FileState γ α)}
    (hv : w.tree p.1 = v)
    (h : w.co.exclude.isExcluded p.1 = false →
      Sound (w.pend p.1) (w.moved p.1) v (p.1 ∈ w.co.renamedFrom) (p.1 ∈ w.co.renamedTo) →
      Sound (merge (w.pend p.1) kind) (w.moved p.1) v' (p.1 ∈ w.co.renamedFrom)
        (p.1 ∈ w.co.renamedTo)) :
    ({ w with
        tree := update w.tree p.1 v'
        co := w.co.pushAll [w.co.root ++ p.1.comps] kind } : Window γ α).Inv := by
  rw [pushAll_single]
  refine inv_of_cells hi (sameRenames_push _ _ _) (fun q hq => ?_) fun q hq => ?_
  · rw [lookup_push, if_neg]
    · rfl
    · rintro ⟨rfl, hp⟩
      rw [hq] at hp
      cases hp
  · rw [lookup_push]
    by_cases hqp : q = p.1
    · subst hqp
      rw [if_pos ⟨rfl, hq⟩, update_self]
      exact .inr (h hq (hv ▸ hi.sound p.1 hq))
    · rw [if_neg fun h => hqp h.1, update_of_ne hqp]
      exact .inl ⟨rfl, rfl⟩

/-- The tree after a rename. -/
def renamed (tree : FileTree γ α) (f t : RelPath) (g : FileState γ α) : FileTree γ α :=
  update (update tree t (some g)) f none

theorem renamed_src (tree : FileTree γ α) (f t : RelPath) (g : FileState γ α) :
    renamed tree f t g f = none := update_self ..

theorem renamed_dst (tree : FileTree γ α) (hne : f ≠ t) (g : FileState γ α) :
    renamed tree f t g t = some g := by
  rw [renamed, update_of_ne hne.symm, update_self]

theorem renamed_other (tree : FileTree γ α) {q : RelPath} (hf : q ≠ f) (ht : q ≠ t)
    (g : FileState γ α) : renamed tree f t g q = tree q := by
  rw [renamed, update_of_ne hf, update_of_ne ht]

/-- A rename that is not recorded as a pair keeps the window sound, if its two ends do. -/
theorem inv_of_ends (hi : w.Inv) (hne : f ≠ t) (hco : Coalescer.SameRenames w.co co)
    (hother : ∀ q, q ≠ f → q ≠ t → co.pending.lookup q = w.pend q)
    (hsrc : if w.co.exclude.isExcluded f then co.pending.lookup f = w.pend f
      else Sound (co.pending.lookup f) (w.moved f) none (f ∈ w.co.renamedFrom)
        (f ∈ w.co.renamedTo))
    (hdst : if w.co.exclude.isExcluded t then co.pending.lookup t = w.pend t
      else Sound (co.pending.lookup t) (w.moved t) (some g) (t ∈ w.co.renamedFrom)
        (t ∈ w.co.renamedTo)) :
    ({ w with tree := renamed w.tree f t g, co := co } : Window γ α).Inv := by
  refine inv_of_cells hi hco (fun q hq => ?_) fun q hq => ?_
  · by_cases hqf : q = f
    · subst hqf
      rwa [if_pos hq] at hsrc
    by_cases hqt : q = t
    · subst hqt
      rwa [if_pos hq] at hdst
    exact hother q hqf hqt
  · by_cases hqf : q = f
    · subst hqf
      rw [if_neg (by simp [hq])] at hsrc
      rw [renamed_src]
      exact .inr hsrc
    by_cases hqt : q = t
    · subst hqt
      rw [if_neg (by simp [hq])] at hdst
      rw [renamed_dst _ hne]
      exact .inr hdst
    exact .inl ⟨hother q hqf hqt, renamed_other _ hqf hqt g⟩

theorem sound_srcEvent
    (h : Sound (w.pend f) (w.moved f) (some g) (f ∈ w.co.renamedFrom) (f ∈ w.co.renamedTo))
    (hx : w.co.exclude.isExcluded f = false) (hok : w.leaveOk f) :
    Sound ((w.co.srcEvent f).pending.lookup f) (w.moved f) none (f ∈ w.co.renamedFrom)
      (f ∈ w.co.renamedTo) := by
  rw [leaveOk] at hok
  rw [lookup_srcEvent]
  by_cases hf : f ∈ w.co.renamedFrom
  · rw [if_pos hf] at hok
    rw [if_neg fun h => h.2.1 hf]
    exact h.reread hok none
  · rw [if_neg hf] at hok
    rw [if_pos ⟨rfl, hf, hx⟩]
    refine h.drop ?_
    split
    · next hk => exact hok hk
    · exact .inl hf

theorem sound_dstEvent {v : Option (FileState γ α)}
    (h : Sound (w.pend t) (w.moved t) v (t ∈ w.co.renamedFrom) (t ∈ w.co.renamedTo))
    (hx : w.co.exclude.isExcluded t = false) (hok : w.arriveOk t) :
    Sound ((w.co.dstEvent t).pending.lookup t) (w.moved t) (some g) (t ∈ w.co.renamedFrom)
      (t ∈ w.co.renamedTo) := by
  rw [arriveOk] at hok
  rw [lookup_dstEvent]
  by_cases ht : t ∈ w.co.renamedTo
  · rw [if_pos ht] at hok
    rw [if_neg fun h => h.2.1 ht]
    exact h.reread (.inr hok) (some g)
  · rw [if_neg ht] at hok
    rw [if_pos ⟨rfl, ht, hx⟩]
    exact h.replace hok fun hd => absurd hd ht

theorem inv_srcDst (hi : w.Inv) (hne : f ≠ t)
    (hg : w.tree f = some g) (hf : w.co.exclude.isExcluded f = false → w.leaveOk f)
    (ht : w.co.exclude.isExcluded t = false → w.arriveOk t) :
    ({ w with
        tree := renamed w.tree f t g
        co := (w.co.srcEvent f).dstEvent t } : Window γ α).Inv := by
  have hsame := sameRenames_srcEvent w.co f
  have hkeep : (w.co.srcEvent f).pending.lookup t = w.co.pending.lookup t := by
    rw [lookup_srcEvent, if_neg fun h => hne h.1.symm]
  have hdst : ((w.co.srcEvent f).dstEvent t).pending.lookup t =
      (w.co.dstEvent t).pending.lookup t := by
    rw [lookup_dstEvent, lookup_dstEvent, hsame.renamedTo, hsame.exclude,
      hkeep]
  have hsrc : ((w.co.srcEvent f).dstEvent t).pending.lookup f =
      (w.co.srcEvent f).pending.lookup f := by
    rw [lookup_dstEvent, if_neg fun h => hne h.1]
  refine inv_of_ends hi hne (hsame.trans (sameRenames_dstEvent _ t))
    (fun q hqf hqt => ?_) ?_ ?_
  · rw [lookup_dstEvent, if_neg fun h => hqt h.1, lookup_srcEvent,
      if_neg fun h => hqf h.1]
    rfl
  · rw [hsrc]
    cases hx : w.co.exclude.isExcluded f with
    | true =>
      rw [if_pos rfl, srcEvent_excluded hx]
      rfl
    | false =>
      exact sound_srcEvent (hg ▸ hi.sound f hx) hx (hf hx)
  · rw [hdst]
    cases hx : w.co.exclude.isExcluded t with
    | true =>
      rw [if_pos rfl, dstEvent_excluded hx]
      rfl
    | false =>
      exact sound_dstEvent (hi.sound t hx) hx (ht hx)

theorem inv_appear (hi : w.Inv) (hne : f ≠ t) (g : FileState γ α)
    (hf : w.co.exclude.isExcluded f = true) (ht : w.co.exclude.isExcluded t = false)
    (hok : w.appearOk t) {n : ℕ} (hn : 0 < n) (hp : Coalescer.Pushes t .created n w.co co) :
    ({ w with tree := renamed w.tree f t g, co := co } : Window γ α).Inv := by
  refine inv_of_ends hi hne hp.same (fun q _ hqt => hp.other q hqt) ?_ ?_
  · rw [if_pos hf]
    exact hp.other f hne
  · obtain ⟨n, rfl⟩ := Nat.exists_eq_add_one_of_ne_zero hn.ne'
    rw [if_neg (by simp [ht]), hp.atPath]
    exact (hi.sound t ht).replaceMany hok.1 hok.2 n

theorem inv_vanish (hi : w.Inv) (hne : f ≠ t)
    (hg : w.tree f = some g) (hf : w.co.exclude.isExcluded f = false)
    (ht : w.co.exclude.isExcluded t = true) (hok : w.dropOk f) {n : ℕ} (hn : 0 < n)
    (hp : Coalescer.Pushes f .removed n w.co co) :
    ({ w with tree := renamed w.tree f t g, co := co } : Window γ α).Inv := by
  refine inv_of_ends hi hne hp.same (fun q hqf _ => hp.other q hqf) ?_ ?_
  · obtain ⟨n, rfl⟩ := Nat.exists_eq_add_one_of_ne_zero hn.ne'
    rw [if_neg (by simp [hf]), hp.atPath]
    have hsound := hi.sound f hf
    rw [hg] at hsound
    exact hsound.dropMany hok n
  · rw [if_pos ht]
    exact hp.other t hne.symm

theorem moveEntry_src (obs : FileTree γ α) (f t : RelPath) : moveEntry obs (f, t) f = none := by
  cases h : obs f with
  | none => simp only [moveEntry, h]
  | some g => simp only [moveEntry, h, update_self]

theorem moveEntry_other (obs : FileTree γ α) {q : RelPath} (hf : q ≠ f) (ht : q ≠ t) :
    moveEntry obs (f, t) q = obs q := by
  cases h : obs f with
  | none => simp only [moveEntry, h]
  | some g => simp only [moveEntry, h, update_of_ne hf, update_of_ne ht]

theorem moveEntry_dst {obs : FileTree γ α} (hne : f ≠ t)
    (hg : obs f = some g) : moveEntry obs (f, t) t = some g := by
  simp only [moveEntry, hg, update_of_ne hne.symm, update_self]

theorem sound_pair_src {m t : Option (FileState γ α)} (h : Sound k m t isSrc isDst)
    (hk : k = none ∨ k = some .created ∨ k = some .modified)
    (hk' : k' = k ∨ k' = merge k .removed) :
    Sound (if k' = some .removed then none else k') (none : Option (FileState γ α)) none True
      isDst := by
  rcases hk' with rfl | rfl
  · rcases hk with rfl | rfl | rfl
    · exact rfl
    · exact h
    · exact trivial
  · rcases hk with rfl | rfl | rfl <;> exact rfl

/-- What is left pending at the target of a recorded pair: it is what moved there, or it is
read again. -/
theorem sound_pair_dst {m v : Option (FileState γ α)} (h : Sound k v m isSrc isDst)
    (hremoved : k = some .removed → k' = merge k .created)
    (hk' : k' = k ∨ k' = merge k .created) {held : Option (FileState γ α)}
    (hheld : held = some g ∨ k = some .modified ∨ k = some .removed) :
    Sound (if k' = some .created then none else k') held (some g) isSrc True := by
  match k, h with
  | none, _ =>
    have hg : held = some g := hheld.resolve_right (by simp)
    rcases hk' with rfl | rfl <;> exact hg
  | some .created, _ =>
    have hg : held = some g := hheld.resolve_right (by simp)
    rcases hk' with rfl | rfl <;> exact hg
  | some .modified, _ => rcases hk' with rfl | rfl <;> exact trivial
  | some .attrChanged, _ =>
    have hg : held = some g := hheld.resolve_right (by simp)
    rcases hk' with rfl | rfl <;> exact ⟨g, g, hg, rfl, rfl⟩
  | some .removed, _ =>
    rw [hremoved rfl]
    exact trivial

theorem inv_pair (hi : w.Inv) (hne : f ≠ t)
    (hg : w.tree f = some g) (hf : w.co.exclude.isExcluded f = false)
    (ht : w.co.exclude.isExcluded t = false) (hok : w.pairOk f t report)
    {pre : Coalescer} (hpre : Coalescer.Halves w.co pre f t report.dstFirst) :
    ({ w with tree := renamed w.tree f t g, co := pre.pair f t } : Window γ α).Inv := by
  obtain ⟨hremoved, hsrcdst⟩ := hok
  have hx := hpre.same.exclude
  rw [pair_of_visible (hx ▸ hf) (hx ▸ ht)]
  have hmoved : ∀ pending, ({ w with
      tree := renamed w.tree f t g
      co := { pre with
        pending := pending
        renames := pre.renames ++ [(f, t)]
        renamedFrom := f :: pre.renamedFrom
        renamedTo := t :: pre.renamedTo } } : Window γ α).moved = moveEntry w.moved (f, t) := by
    intro pending
    rw [moved, hpre.same.renames, foldl_append]
    rfl
  refine ⟨fun p => ?_, fun p => ?_, fun p hp => ?_, fun p hp => ?_⟩
  · rw [hpre.same.renames, hpre.same.renamedFrom, mem_cons, hi.srcs p]
    simp [or_comm]
  · rw [hpre.same.renames, hpre.same.renamedTo, mem_cons, hi.dsts p]
    simp [or_comm]
  · rw [hx] at hp
    have hpf : p ≠ f := by
      rintro rfl
      rw [hf] at hp
      cases hp
    have hpt : p ≠ t := by
      rintro rfl
      rw [ht] at hp
      cases hp
    rw [hmoved, moveEntry_other _ hpf hpt, pend, lookup_purge,
      if_neg fun h => h.elim (fun h => hpf h.1) fun h => hpt h.1, hpre.other p hpf hpt]
    exact hi.hidden p hp
  · rw [hx] at hp
    have hsound := hi.sound p hp
    rw [hmoved, pend, lookup_purge]
    rw [hpre.same.renamedFrom, hpre.same.renamedTo, mem_cons, mem_cons]
    by_cases hpf : p = f
    · subst hpf
      simp only [hne, true_and, false_and, or_false, true_or, false_or]
      rw [moveEntry_src, renamed_src]
      refine sound_pair_src hsound ?_ hpre.atSrc
      exact hsrcdst.imp id And.left
    by_cases hpt : p = t
    · subst hpt
      simp only [hpf, true_and, false_and, true_or, false_or]
      rw [renamed_dst _ hne]
      refine sound_pair_dst hsound (fun hk => ?_) hpre.atDst ?_
      · obtain ⟨hfirst, hto⟩ := hremoved hk
        exact hpre.reported hfirst hto ht
      · rcases hsrcdst with hk | ⟨_, hk⟩
        · have hsrc := hi.sound f hf
          rw [hk] at hsrc
          exact .inl (moveEntry_dst hne (hsrc.trans hg))
        · exact .inr hk
    · simp only [hpf, hpt, false_and, false_or, or_self, if_false]
      rw [moveEntry_other _ hpf hpt, renamed_other _ hpf hpt, hpre.other p hpf hpt]
      exact hsound

/-- A recorded pair: what was reported before it, and that what follows is not noticed. -/
theorem exists_halves (co : Coalescer) (hne : f ≠ t)
    (hf : co.exclude.isExcluded f = false) (ht : co.exclude.isExcluded t = false)
    (hr : report ≠ .srcDst) :
    ∃ pre, Coalescer.Halves co pre f t report.dstFirst ∧
      report.modes.foldl (react f t) co = pre.pair f t := by
  have h₀ := Coalescer.Halves.refl co f t
  have hsrc := h₀.addSrc hne rfl
  have hdst := h₀.addDst hne rfl
  have hxs := hsrc.same.exclude
  have hxd := hdst.same.exclude
  cases report with
  | srcDst => exact absurd rfl hr
  | both => exact ⟨co, h₀, rfl⟩
  | srcDstBoth =>
    refine ⟨_, hsrc.addDst hne ?_, rfl⟩
    rw [lookup_srcEvent, if_neg fun h => hne h.1.symm]
  | srcBothDst => exact ⟨_, hsrc, dstEvent_pair (hxs ▸ hf) (hxs ▸ ht)⟩
  | dstSrcBoth =>
    refine ⟨_, hdst.addSrc hne ?_, rfl⟩
    rw [lookup_dstEvent, if_neg fun h => hne h.1]
  | dstBothSrc => exact ⟨_, hdst, srcEvent_pair (hxd ▸ hf) (hxd ▸ ht)⟩
  | bothSrcDst =>
    refine ⟨co, h₀, ?_⟩
    show ((co.pair f t).srcEvent f).dstEvent t = _
    rw [srcEvent_pair hf ht, dstEvent_pair hf ht]
  | bothDstSrc =>
    refine ⟨co, h₀, ?_⟩
    show ((co.pair f t).dstEvent t).srcEvent f = _
    rw [dstEvent_pair hf ht, srcEvent_pair hf ht]

theorem foldl_renameEvent (f t : WirePath) (root : List Name) (report : Report)
    (hroot : co.root = root) :
    (report.modes.map (FileOp.renameEvent root f t)).foldl ingest co =
      report.modes.foldl (react f.1 t.1) co := by
  suffices hall : ∀ (modes : List RenameMode) (co : Coalescer), co.root = root →
      (∀ m ∈ modes, m = .src ∨ m = .dst ∨ m = .both) →
      (modes.map (FileOp.renameEvent root f t)).foldl ingest co =
        modes.foldl (react f.1 t.1) co by
    refine hall report.modes co hroot ?_
    cases report <;> decide
  intro modes
  induction modes with
  | nil => exact fun _ _ _ => rfl
  | cons mode modes ih =>
    intro co hco hmodes
    have hone : co.ingest (FileOp.renameEvent root f t mode) = co.react f.1 t.1 mode := by
      subst hco
      rcases hmodes mode mem_cons_self with rfl | rfl | rfl
      · exact ingest_src co f
      · exact ingest_dst co t
      · exact ingest_both co f t
    rw [map_cons, foldl_cons, foldl_cons, hone]
    exact ih _ ((root_react f.1 t.1 co mode).trans hco) fun m hm =>
      hmodes m (mem_cons_of_mem _ hm)

theorem both_mem_modes (hr : report ≠ .srcDst) : .both ∈ report.modes := by
  cases report with
  | srcDst => exact absurd rfl hr
  | _ => decide

theorem inv_unseen (hi : w.Inv) (hne : f ≠ t) (g : FileState γ α)
    (hf : w.co.exclude.isExcluded f = true) (ht : w.co.exclude.isExcluded t = true)
    (modes : List RenameMode) :
    ({ w with
        tree := renamed w.tree f t g
        co := modes.foldl (react f t) w.co } : Window γ α).Inv := by
  have hid : ∀ mode, w.co.react f t mode = w.co := by
    intro mode
    cases mode with
    | src => exact srcEvent_excluded hf
    | dst => exact dstEvent_excluded ht
    | both => rw [react, pair, hf, ht]
    | any | other => rfl
  rw [foldl_fixed' hid]
  refine inv_of_ends hi hne (.refl _) (fun _ _ _ => rfl) ?_ ?_
  · rw [if_pos hf]
    rfl
  · rw [if_pos ht]
    rfl

theorem inv_rename (hi : w.Inv) {f t : WirePath} (hne : f.1 ≠ t.1)
    (hg : w.tree f.1 = some g) (hok : w.windowOk (.rename f t report)) :
    ({ w with
        tree := renamed w.tree f.1 t.1 g
        co := report.modes.foldl (react f.1 t.1) w.co } : Window γ α).Inv := by
  simp only [windowOk] at hok
  by_cases hr : report = .srcDst
  · subst hr
    refine inv_srcDst hi hne hg (fun hf => ?_) fun ht => ?_
    · rw [hf] at hok
      cases ht : w.co.exclude.isExcluded t.1 with
      | true => exact (ht ▸ hok : _)
      | false => exact (ht ▸ hok : _ ∧ _).1
    · rw [ht] at hok
      cases hf : w.co.exclude.isExcluded f.1 with
      | true => exact (hf ▸ hok : _)
      | false => exact (hf ▸ hok : _ ∧ _).2
  have hboth := both_mem_modes hr
  cases hf : w.co.exclude.isExcluded f.1 with
  | true =>
    cases ht : w.co.exclude.isExcluded t.1 with
    | true => exact inv_unseen hi hne g hf ht report.modes
    | false =>
      rw [hf, ht] at hok
      obtain ⟨n, hp, hn⟩ := Coalescer.Pushes.foldl_react w.co.exclude
        (fun co hco => Coalescer.Pushes.react_appear (hco ▸ hf) (hco ▸ ht)) report.modes
        w.co rfl
      exact inv_appear hi hne g hf ht (by simpa [hr] using hok) (hn hboth) hp
  | false =>
    cases ht : w.co.exclude.isExcluded t.1 with
    | true =>
      rw [hf, ht] at hok
      obtain ⟨n, hp, hn⟩ := Coalescer.Pushes.foldl_react w.co.exclude
        (fun co hco => Coalescer.Pushes.react_vanish (hco ▸ hf) (hco ▸ ht)) report.modes
        w.co rfl
      exact inv_vanish hi hne hg hf ht (by simpa [hr] using hok) (hn hboth) hp
    | false =>
      rw [hf, ht] at hok
      obtain ⟨pre, hpre, hfold⟩ := exists_halves w.co hne hf ht hr
      rw [hfold]
      exact inv_pair hi hne hg hf ht (by simpa [hr] using hok) hpre

theorem inv_step {w' : Window γ α} {op : FileOp γ α} (hi : w.Inv) (hok : w.windowOk op)
    (hstep : w.step op = some w') : w'.Inv := by
  rw [step, Option.map_eq_some_iff] at hstep
  obtain ⟨tree, hrun, rfl⟩ := hstep
  cases op with
  | create p f =>
    rw [FileOp.run, Option.ite_none_right_eq_some, Option.some_inj] at hrun
    obtain ⟨hnone, rfl⟩ := hrun
    exact inv_push hi p .created hnone fun hx hs => hs.create (hok hx)
  | write p f =>
    rw [FileOp.run, Option.ite_none_left_eq_some, Option.some_inj] at hrun
    obtain ⟨hsome, rfl⟩ := hrun
    obtain ⟨g, hg⟩ := Option.ne_none_iff_exists'.mp hsome
    exact inv_push hi p .modified hg fun _ hs => hs.write
  | chattr p attr =>
    rw [FileOp.run] at hrun
    split at hrun
    · cases hrun
    · next g hg =>
      cases hrun
      exact inv_push hi p .attrChanged hg fun _ hs => hs.chattr attr
  | remove p =>
    rw [FileOp.run, Option.ite_none_left_eq_some, Option.some_inj] at hrun
    obtain ⟨hsome, rfl⟩ := hrun
    obtain ⟨g, hg⟩ := Option.ne_none_iff_exists'.mp hsome
    exact inv_push hi p .removed hg fun hx hs => hs.drop (hok hx)
  | rename f t report =>
    rw [FileOp.run] at hrun
    split at hrun
    · cases hrun
    · next g hg =>
      rw [Option.ite_none_left_eq_some, Option.some_inj] at hrun
      obtain ⟨hne, rfl⟩ := hrun
      rw [FileOp.events, foldl_renameEvent f t _ report rfl]
      exact inv_rename hi (fun h => hne (Subtype.ext h)) hg hok

/-- **Convergence.**  However many operations a window sees, if each meets the condition
then an observer that held the visible tree at its start and applies the batch ends with
exactly the visible tree. -/
theorem converges_of_reaches {root : List Name} {exclude : ExcludeSet} {tree : FileTree γ α}
    (h : Reaches step windowOk (start root exclude tree) w) : w.Converges :=
  converges_of_inv (h.invariant Inv (inv_start root exclude tree) fun _ _ _ hi hok hs =>
    inv_step hi hok hs)

instance decidableWindowOk (w : Window γ α) : ∀ op : FileOp γ α, Decidable (w.windowOk op)
  | .create _ _ => inferInstanceAs (Decidable (_ → _))
  | .write _ _ | .chattr _ _ => .isTrue trivial
  | .remove _ => inferInstanceAs (Decidable (_ → _))
  | .rename f t report => by
    simp only [windowOk]
    split <;> infer_instance

/-- The files `a`, `b` and `d` of a tree. -/
def threeFiles : FileTree ℕ ℕ := fun p =>
  if p.text = ['a'] ∨ p.text = ['b'] ∨ p.text = ['d'] then some ⟨0, 0⟩ else none

/-- Write `a`, rename `b` to `c`, remove `d`. -/
def writeRenameRemove : List (FileOp ℕ ℕ) :=
  [.write ⟨⟨['a']⟩, by decide⟩ ⟨1, 0⟩,
    .rename ⟨⟨['b']⟩, by decide⟩ ⟨⟨['c']⟩, by decide⟩ .srcDstBoth,
    .remove ⟨⟨['d']⟩, by decide⟩]

theorem converges_writeRenameRemove : ∃ w : Window ℕ ℕ,
    w.co.takeBatch.1 = [(⟨['b']⟩, .renamedFrom ⟨['c']⟩), (⟨['a']⟩, .modified),
      (⟨['d']⟩, .removed)] ∧ w.Converges := by
  have hallowed : Allowed step windowOk (start [] .none threeFiles) writeRenameRemove := by decide
  obtain ⟨w, hw, hbatch⟩ := exists_reaches_of_exec writeRenameRemove
    (fun w => w.co.takeBatch.1) _ hallowed rfl
  exact ⟨w, hbatch, converges_of_reaches hw⟩

/-- Save a file through a temporary one; the rename is reported by its halves and the
pair. -/
def atomicSave : List (FileOp ℕ ℕ) :=
  [.create ⟨⟨['t', 'm', 'p']⟩, by decide⟩ ⟨1, 0⟩,
    .rename ⟨⟨['t', 'm', 'p']⟩, by decide⟩ ⟨⟨['a']⟩, by decide⟩ .srcDstBoth]

/-- The first half cancels the creation of the temporary file, and the pair purges the
creation of its target.  What is left is a rename of a file the observer never held, and
the observer keeps the old content. -/
theorem atomicSave_keeps_old : ∃ w : Window ℕ ℕ,
    Reaches step (fun _ _ => True) (start [] .none threeFiles) w ∧ ¬ w.Converges := by
  have hallowed := allowed_true step atomicSave (start [] .none threeFiles)
  obtain ⟨w, hw, hobs⟩ := exists_reaches_of_exec atomicSave
    (fun w : Window ℕ ℕ => (w.observed ⟨['a']⟩, visible w.co.exclude w.tree ⟨['a']⟩))
    (some ⟨0, 0⟩, some ⟨1, 0⟩) hallowed (by decide)
  refine ⟨w, hw, fun hc => ?_⟩
  obtain ⟨hold, hnew⟩ := Prod.mk.inj hobs
  rw [hc, hnew] at hold
  cases hold

end Window
end AlloyFs
