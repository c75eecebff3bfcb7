import AlloyFs.Common.Exclude
import AlloyFs.Proto.Messages
import Mathlib.Data.List.AList
import Mathlib.Data.List.Sort

/-!
# Coalescing file system events

Real file systems storm.  A `Coalescer` collapses the raw events of one window into at
most one pending change per path, pairs the two ends of a rename, and degrades a rename
across the exclude boundary to its visible half.  `takeBatch` drains the window: first
the paired renames, then the pending changes by path.

Some backends report one rename three times — its source, its target, and both.  Once a
pair is known its halves are dropped when they arrive, and those that arrived before are
purged, when the pair arrives and once more when the window is drained.
-/

namespace AlloyFs

open List

/-- How much of a rename a raw event reports. -/
inductive RenameMode
  | any | dst | src | both | other
deriving DecidableEq

/-- The kinds of raw events, as far as they are told apart. -/
inductive NotifyKind
  | create
  | modifyName (mode : RenameMode)
  | modifyMetadata
  | modify
  | remove
  /-- accesses and what the backend cannot classify -/
  | other
deriving DecidableEq

/-- A raw event, with the locations it is about. -/
structure NotifyEvent where
  kind : NotifyKind
  paths : List (List Name)

/-- What is pending for a path after one more change; `none` when the two cancel. -/
def merge : Option EventKind → EventKind → Option EventKind
  | some .created, .modified => some .created
  | some .created, .attrChanged => some .created
  | some .created, .removed => none
  | some _, .removed => some .removed
  | some .removed, .created => some .modified
  | some .attrChanged, .modified => some .modified
  | some .modified, .attrChanged => some .modified
  | _, .renamedFrom dst => some (.renamedFrom dst)
  | _, .resyncRequired => some .resyncRequired
  | some old, _ => some old
  | none, ev => some ev

/-- The pending change of each path. -/
abbrev PendingMap := AList fun _ : RelPath => EventKind

/-- Drop the halves of a paired rename: a removal of its source, a creation of its
target. -/
def purge (pending : PendingMap) (pair : RelPath × RelPath) : PendingMap :=
  let pending := if pending.lookup pair.1 = some .removed then pending.erase pair.1 else pending
  if pending.lookup pair.2 = some .created then pending.erase pair.2 else pending

structure Coalescer where
  root : List Name
  exclude : ExcludeSet
  pending : PendingMap
  /-- source and target of each paired rename, in the order they arrived -/
  renames : List (RelPath × RelPath)
  renamedFrom : List RelPath
  renamedTo : List RelPath

namespace Coalescer

def new (root : List Name) (exclude : ExcludeSet) : Coalescer := ⟨root, exclude, ∅, [], [], []⟩

/-- The path of a location strictly below the root. -/
def relOf (root abs : List Name) : Option RelPath :=
  if root <+: abs ∧ abs ≠ root then some (stripRoot root abs) else none

def push (co : Coalescer) (path : RelPath) (kind : EventKind) : Coalescer :=
  if co.exclude.isExcluded path then co
  else
    match merge (co.pending.lookup path) kind with
    | some kind => { co with pending := co.pending.insert path kind }
    | none => { co with pending := co.pending.erase path }

/-- One change to each of the locations. -/
def pushAll (co : Coalescer) (paths : List (List Name)) (kind : EventKind) : Coalescer :=
  paths.foldl (fun co abs =>
    match relOf co.root abs with
    | some rel => co.push rel kind
    | none => co) co

/-- Both ends of a rename. -/
def pair (co : Coalescer) (src dst : RelPath) : Coalescer :=
  match co.exclude.isExcluded src, co.exclude.isExcluded dst with
  | true, true => co
  | true, false => co.push dst .created
  | false, true => co.push src .removed
  | false, false => { co with
      pending := purge co.pending (src, dst)
      renames := co.renames ++ [(src, dst)]
      renamedFrom := src :: co.renamedFrom
      renamedTo := dst :: co.renamedTo }

/-- Fold one raw event into the window. -/
def ingest (co : Coalescer) (event : NotifyEvent) : Coalescer :=
  match event.kind with
  | .create => co.pushAll event.paths .created
  | .modifyName mode =>
    match mode, event.paths with
    | .both, [src, dst] =>
      match relOf co.root src, relOf co.root dst with
      | some f, some t => co.pair f t
      | _, _ => co
    | .src, [src] =>
      match relOf co.root src with
      | some f => if f ∈ co.renamedFrom then co else co.push f .removed
      | none => co
    | .dst, [dst] =>
      match relOf co.root dst with
      | some t => if t ∈ co.renamedTo then co else co.push t .created
      | none => co
    | _, paths => co.pushAll paths .modified
  | .modifyMetadata => co.pushAll event.paths .attrChanged
  | .modify => co.pushAll event.paths .modified
  | .remove => co.pushAll event.paths .removed
  | .other => co

/-- What is still pending once the halves of the paired renames are dropped. -/
def deduped (co : Coalescer) : PendingMap := co.renames.foldl purge co.pending

/-- Pending changes in the order of their paths. -/
def sorted (pending : PendingMap) : List (RelPath × EventKind) :=
  (pending.entries.map fun e => (e.1, e.2)).insertionSort fun a b => textLe a.1.text b.1.text

/-- Drain the window. -/
def takeBatch (co : Coalescer) : List (RelPath × EventKind) × Coalescer :=
  (co.renames.map (fun r => (r.1, .renamedFrom r.2)) ++ sorted co.deduped,
    { co with pending := ∅, renames := [], renamedFrom := [], renamedTo := [] })

/-! ## What is pending -/

variable {co : Coalescer} {p q : RelPath} {kind : EventKind} {co' : Coalescer} {f t : RelPath}

theorem lookup_push (co : Coalescer) (p : RelPath) (kind : EventKind) (q : RelPath) :
    (co.push p kind).pending.lookup q =
      if q = p ∧ co.exclude.isExcluded p = false then merge (co.pending.lookup p) kind
      else co.pending.lookup q := by
  rw [push]
  by_cases hx : co.exclude.isExcluded p = true
  · rw [if_pos hx, if_neg (by simp [hx])]
  rw [if_neg hx]
  by_cases hq : q = p
  · subst hq
    rw [if_pos ⟨rfl, by simpa using hx⟩]
    split
    · next k hk => rw [AList.lookup_insert, hk]
    · next hk => rw [AList.lookup_erase, hk]
  · rw [if_neg fun h => hq h.1]
    split
    · exact AList.lookup_insert_ne hq
    · exact AList.lookup_erase_ne hq

theorem lookup_drop (pending : PendingMap) (p : RelPath) (kind : EventKind) (q : RelPath) :
    (if pending.lookup p = some kind then pending.erase p else pending).lookup q =
      if q = p ∧ pending.lookup q = some kind then none else pending.lookup q := by
  by_cases hp : pending.lookup p = some kind
  · rw [if_pos hp]
    by_cases hq : q = p
    · subst hq
      rw [AList.lookup_erase, if_pos ⟨rfl, hp⟩]
    · rw [AList.lookup_erase_ne hq, if_neg fun h => hq h.1]
  · rw [if_neg hp, if_neg fun h : q = p ∧ _ => hp (h.1 ▸ h.2)]

theorem lookup_purge (pending : PendingMap) (f t q : RelPath) :
    (purge pending (f, t)).lookup q =
      if (q = f ∧ pending.lookup q = some .removed) ∨ (q = t ∧ pending.lookup q = some .created)
      then none else pending.lookup q := by
  rw [purge, lookup_drop, lookup_drop]
  by_cases h₁ : q = f ∧ pending.lookup q = some .removed
  · rw [if_pos h₁, if_neg (by simp), if_pos (.inl h₁)]
  · rw [if_neg h₁]
    by_cases h₂ : q = t ∧ pending.lookup q = some .created
    · rw [if_pos h₂, if_pos (.inr h₂)]
    · rw [if_neg h₂, if_neg fun h => h.elim h₁ h₂]

theorem lookup_foldl_purge (renames : List (RelPath × RelPath)) :
    ∀ (pending : PendingMap) (q : RelPath), (renames.foldl purge pending).lookup q =
      if (q ∈ renames.map Prod.fst ∧ pending.lookup q = some .removed) ∨
        (q ∈ renames.map Prod.snd ∧ pending.lookup q = some .created)
      then none else pending.lookup q := by
  induction renames with
  | nil =>
    intro pending q
    rfl
  | cons r renames ih =>
    intro pending q
    rw [foldl_cons, ih, lookup_purge]
    by_cases h : (q = r.1 ∧ pending.lookup q = some .removed) ∨
        (q = r.2 ∧ pending.lookup q = some .created)
    · rw [if_pos h, if_neg (by simp)]
      refine (if_pos ?_).symm
      rcases h with ⟨rfl, h⟩ | ⟨rfl, h⟩
      · exact .inl ⟨by simp, h⟩
      · exact .inr ⟨by simp, h⟩
    · rw [if_neg h]
      refine if_congr ?_ rfl rfl
      simp only [map_cons, mem_cons]
      constructor
      · rintro (⟨hm, hk⟩ | ⟨hm, hk⟩)
        · exact .inl ⟨.inr hm, hk⟩
        · exact .inr ⟨.inr hm, hk⟩
      · rintro (⟨hm, hk⟩ | ⟨hm, hk⟩)
        · exact .inl ⟨hm.resolve_left fun heq => h (.inl ⟨heq, hk⟩), hk⟩
        · exact .inr ⟨hm.resolve_left fun heq => h (.inr ⟨heq, hk⟩), hk⟩

theorem relOf_append (root : List Name) (p : WirePath) :
    relOf root (root ++ p.1.comps) = some p.1 := by
  have hne : root ++ p.1.comps ≠ root := fun h =>
    p.1.comps_ne_nil (append_right_eq_self.mp h)
  rw [relOf, if_pos ⟨prefix_append root _, hne⟩, stripRoot_append]

theorem pushAll_single (co : Coalescer) (p : WirePath) (kind : EventKind) :
    co.pushAll [co.root ++ p.1.comps] kind = co.push p.1 kind := by
  rw [pushAll, foldl_cons, foldl_nil, relOf_append]

/-! ## The reports of one rename -/

/-- The source of a rename is reported on its own. -/
def srcEvent (co : Coalescer) (f : RelPath) : Coalescer :=
  if f ∈ co.renamedFrom then co else co.push f .removed

/-- The target of a rename is reported on its own. -/
def dstEvent (co : Coalescer) (t : RelPath) : Coalescer :=
  if t ∈ co.renamedTo then co else co.push t .created

theorem ingest_src (co : Coalescer) (f : WirePath) :
    co.ingest ⟨.modifyName .src, [co.root ++ f.1.comps]⟩ = co.srcEvent f.1 := by
  simp only [ingest, relOf_append, srcEvent]

theorem ingest_dst (co : Coalescer) (t : WirePath) :
    co.ingest ⟨.modifyName .dst, [co.root ++ t.1.comps]⟩ = co.dstEvent t.1 := by
  simp only [ingest, relOf_append, dstEvent]

theorem ingest_both (co : Coalescer) (f t : WirePath) :
    co.ingest ⟨.modifyName .both, [co.root ++ f.1.comps, co.root ++ t.1.comps]⟩ =
      co.pair f.1 t.1 := by
  simp only [ingest, relOf_append]

/-- The two windows differ only in what is pending. -/
structure SameRenames (co co' : Coalescer) : Prop where
  renames : co'.renames = co.renames
  renamedFrom : co'.renamedFrom = co.renamedFrom
  renamedTo : co'.renamedTo = co.renamedTo
  exclude : co'.exclude = co.exclude
  root : co'.root = co.root

theorem SameRenames.refl (co : Coalescer) : SameRenames co co := ⟨rfl, rfl, rfl, rfl, rfl⟩

theorem SameRenames.trans {co'' : Coalescer} (h : SameRenames co co')
    (h' : SameRenames co' co'') : SameRenames co co'' :=
  ⟨h'.renames.trans h.renames, h'.renamedFrom.trans h.renamedFrom, h'.renamedTo.trans h.renamedTo,
    h'.exclude.trans h.exclude, h'.root.trans h.root⟩

theorem sameRenames_push (co : Coalescer) (p : RelPath) (kind : EventKind) :
    SameRenames co (co.push p kind) := by
  rw [push]
  split
  · exact .refl co
  · split <;> exact ⟨rfl, rfl, rfl, rfl, rfl⟩

section Half

variable (c : Prop) [Decidable c] (co p kind)

theorem sameRenames_half : SameRenames co (if c then co else co.push p kind) := by
  split
  · exact .refl co
  · exact sameRenames_push co p kind

theorem lookup_half (q : RelPath) : (if c then co else co.push p kind).pending.lookup q =
    if q = p ∧ ¬ c ∧ co.exclude.isExcluded p = false then merge (co.pending.lookup p) kind
    else co.pending.lookup q := by
  by_cases hc : c
  · rw [if_pos hc, if_neg fun h => h.2.1 hc]
  · rw [if_neg hc, lookup_push]
    exact if_congr ⟨fun h => ⟨h.1, hc, h.2⟩, fun h => ⟨h.1, h.2.2⟩⟩ rfl rfl

end Half

theorem sameRenames_srcEvent (co : Coalescer) (f : RelPath) : SameRenames co (co.srcEvent f) :=
  sameRenames_half co f .removed _

theorem sameRenames_dstEvent (co : Coalescer) (t : RelPath) : SameRenames co (co.dstEvent t) :=
  sameRenames_half co t .created _

theorem lookup_srcEvent (co : Coalescer) (f q : RelPath) :
    (co.srcEvent f).pending.lookup q =
      if q = f ∧ f ∉ co.renamedFrom ∧ co.exclude.isExcluded f = false
      then merge (co.pending.lookup f) .removed else co.pending.lookup q :=
  lookup_half co f .removed _ q

theorem lookup_dstEvent (co : Coalescer) (t q : RelPath) :
    (co.dstEvent t).pending.lookup q =
      if q = t ∧ t ∉ co.renamedTo ∧ co.exclude.isExcluded t = false
      then merge (co.pending.lookup t) .created else co.pending.lookup q :=
  lookup_half co t .created _ q

theorem push_excluded (h : co.exclude.isExcluded p = true) (kind : EventKind) :
    co.push p kind = co := by
  rw [push, if_pos h]

theorem srcEvent_excluded (h : co.exclude.isExcluded f = true) :
    co.srcEvent f = co := by
  rw [srcEvent, push_excluded h, ite_self]

theorem dstEvent_excluded (h : co.exclude.isExcluded t = true) :
    co.dstEvent t = co := by
  rw [dstEvent, push_excluded h, ite_self]

section

variable (hf : co.exclude.isExcluded f = false) (ht : co.exclude.isExcluded t = false)
include hf ht

theorem pair_of_visible : co.pair f t = { co with
      pending := purge co.pending (f, t)
      renames := co.renames ++ [(f, t)]
      renamedFrom := f :: co.renamedFrom
      renamedTo := t :: co.renamedTo } := by
  rw [pair, hf, ht]

theorem srcEvent_pair : (co.pair f t).srcEvent f = co.pair f t := by
  rw [srcEvent, if_pos]
  rw [pair_of_visible hf ht]
  exact mem_cons_self

theorem dstEvent_pair : (co.pair f t).dstEvent t = co.pair f t := by
  rw [dstEvent, if_pos]
  rw [pair_of_visible hf ht]
  exact mem_cons_self

end

theorem root_pair (co : Coalescer) (f t : RelPath) : (co.pair f t).root = co.root := by
  rw [pair]
  split
  · rfl
  · exact (sameRenames_push co t .created).root
  · exact (sameRenames_push co f .removed).root
  · rfl

/-- One report of the rename of `f` to `t`. -/
def react (f t : RelPath) (co : Coalescer) : RenameMode → Coalescer
  | .src => co.srcEvent f
  | .dst => co.dstEvent t
  | .both => co.pair f t
  | _ => co

theorem root_react (f t : RelPath) (co : Coalescer) (mode : RenameMode) :
    (co.react f t mode).root = co.root := by
  cases mode with
  | src => exact (sameRenames_srcEvent co f).root
  | dst => exact (sameRenames_dstEvent co t).root
  | both => exact root_pair co f t
  | any | other => rfl

/-- `pre` is `co` with some of the halves of a rename reported, the target among them if
`dst` says so. -/
structure Halves (co pre : Coalescer) (f t : RelPath) (dst : Bool) : Prop where
  same : SameRenames co pre
  other : ∀ q, q ≠ f → q ≠ t → pre.pending.lookup q = co.pending.lookup q
  atSrc : pre.pending.lookup f = co.pending.lookup f ∨
    pre.pending.lookup f = merge (co.pending.lookup f) .removed
  atDst : pre.pending.lookup t = co.pending.lookup t ∨
    pre.pending.lookup t = merge (co.pending.lookup t) .created
  reported : dst = true → t ∉ co.renamedTo → co.exclude.isExcluded t = false →
    pre.pending.lookup t = merge (co.pending.lookup t) .created

namespace Halves

variable {pre : Coalescer} {f t : RelPath} {dst : Bool}

theorem refl (co : Coalescer) (f t : RelPath) : Halves co co f t false :=
  ⟨.refl co, fun _ _ _ => rfl, .inl rfl, .inl rfl, fun h => Bool.noConfusion h⟩

theorem addSrc (h : Halves co pre f t dst) (hne : f ≠ t)
    (hf : pre.pending.lookup f = co.pending.lookup f) :
    Halves co (pre.srcEvent f) f t dst := by
  have hother : ∀ q, q ≠ f → (pre.srcEvent f).pending.lookup q = pre.pending.lookup q := by
    intro q hq
    rw [lookup_srcEvent, if_neg fun h => hq h.1]
  refine ⟨h.same.trans (sameRenames_srcEvent pre f), fun q hqf hqt => ?_, ?_, ?_, ?_⟩
  · rw [hother q hqf, h.other q hqf hqt]
  · rw [lookup_srcEvent, hf]
    split
    · exact .inr rfl
    · exact .inl rfl
  · rw [hother t hne.symm]
    exact h.atDst
  · rw [hother t hne.symm]
    exact h.reported

theorem addDst (h : Halves co pre f t dst) (hne : f ≠ t)
    (ht : pre.pending.lookup t = co.pending.lookup t) :
    Halves co (pre.dstEvent t) f t true := by
  have hother : ∀ q, q ≠ t → (pre.dstEvent t).pending.lookup q = pre.pending.lookup q := by
    intro q hq
    rw [lookup_dstEvent, if_neg fun h => hq h.1]
  refine ⟨h.same.trans (sameRenames_dstEvent pre t), fun q hqf hqt => ?_, ?_, ?_,
    fun _ hto hx => ?_⟩
  · rw [hother q hqt, h.other q hqf hqt]
  · rw [hother f hne]
    exact h.atSrc
  · rw [lookup_dstEvent, ht]
    split
    · exact .inr rfl
    · exact .inl rfl
  · rw [lookup_dstEvent, ht, h.same.renamedTo, h.same.exclude, if_pos ⟨rfl, hto, hx⟩]

end Halves

/-- `co'` is `co` after `n` changes of one kind to one path. -/
structure Pushes (p : RelPath) (kind : EventKind) (n : ℕ) (co co' : Coalescer) : Prop where
  same : SameRenames co co'
  other : ∀ q, q ≠ p → co'.pending.lookup q = co.pending.lookup q
  atPath : co'.pending.lookup p = (fun k => merge k kind)^[n] (co.pending.lookup p)

namespace Pushes

variable {co' co'' : Coalescer} {m n : ℕ} {f t : RelPath}

theorem zero (co : Coalescer) (p : RelPath) (kind : EventKind) : Pushes p kind 0 co co :=
  ⟨.refl co, fun _ _ => rfl, rfl⟩

theorem one (hp : co.exclude.isExcluded p = false) (kind : EventKind) :
    Pushes p kind 1 co (co.push p kind) := by
  refine ⟨sameRenames_push co p kind, fun q hq => ?_, ?_⟩
  · rw [lookup_push, if_neg fun h => hq h.1]
  · rw [lookup_push, if_pos ⟨rfl, hp⟩, Function.iterate_one]

theorem trans (h : Pushes p kind n co co') (h' : Pushes p kind m co' co'') :
    Pushes p kind (m + n) co co'' := by
  refine ⟨h.same.trans h'.same, fun q hq => (h'.other q hq).trans (h.other q hq), ?_⟩
  rw [h'.atPath, h.atPath, Function.iterate_add_apply]

/-- A rename out of the excluded paths is a creation, however it is reported. -/
theorem react_appear (hf : co.exclude.isExcluded f = true) (ht : co.exclude.isExcluded t = false)
    (mode : RenameMode) :
    ∃ n, Pushes t .created n co (co.react f t mode) ∧ (mode = .both → 0 < n) := by
  cases mode with
  | both =>
    refine ⟨1, ?_, fun _ => Nat.one_pos⟩
    rw [react, pair, hf, ht]
    exact one ht .created
  | dst =>
    by_cases hto : t ∈ co.renamedTo
    · refine ⟨0, ?_, nofun⟩
      rw [react, dstEvent, if_pos hto]
      exact zero co t .created
    · refine ⟨1, ?_, nofun⟩
      rw [react, dstEvent, if_neg hto]
      exact one ht .created
  | src =>
    refine ⟨0, ?_, nofun⟩
    rw [react, srcEvent_excluded hf]
    exact zero co t .created
  | any | other => exact ⟨0, zero co t .created, nofun⟩

theorem react_vanish (hf : co.exclude.isExcluded f = false) (ht : co.exclude.isExcluded t = true)
    (mode : RenameMode) :
    ∃ n, Pushes f .removed n co (co.react f t mode) ∧ (mode = .both → 0 < n) := by
  cases mode with
  | both =>
    refine ⟨1, ?_, fun _ => Nat.one_pos⟩
    rw [react, pair, hf, ht]
    exact one hf .removed
  | src =>
    by_cases hfrom : f ∈ co.renamedFrom
    · refine ⟨0, ?_, nofun⟩
      rw [react, srcEvent, if_pos hfrom]
      exact zero co f .removed
    · refine ⟨1, ?_, nofun⟩
      rw [react, srcEvent, if_neg hfrom]
      exact one hf .removed
  | dst =>
    refine ⟨0, ?_, nofun⟩
    rw [react, dstEvent_excluded ht]
    exact zero co f .removed
  | any | other => exact ⟨0, zero co f .removed, nofun⟩

theorem foldl_react (exclude : ExcludeSet)
    (hreact : ∀ co : Coalescer, co.exclude = exclude → ∀ mode,
      ∃ n, Pushes p kind n co (co.react f t mode) ∧ (mode = .both → 0 < n))
    (modes : List RenameMode) : ∀ co : Coalescer, co.exclude = exclude →
      ∃ n, Pushes p kind n co (modes.foldl (react f t) co) ∧ (.both ∈ modes → 0 < n) := by
  induction modes with
  | nil => exact fun co _ => ⟨0, zero co p kind, fun h => absurd h not_mem_nil⟩
  | cons mode modes ih =>
    intro co hco
    obtain ⟨n, hn, hboth⟩ := hreact co hco mode
    obtain ⟨m, hm, hboth'⟩ := ih _ (hn.same.exclude.trans hco)
    refine ⟨m + n, hn.trans hm, fun hmem => ?_⟩
    rcases mem_cons.mp hmem with heq | hmem
    · exact Nat.add_pos_right m (hboth heq.symm)
    · exact Nat.add_pos_left (hboth' hmem) n

end Pushes

/-! ## What a window is about -/

/-- A raw event reports a change to a path. -/
def touches (root : List Name) (p : RelPath) (event : NotifyEvent) : Prop :=
  event.kind ≠ .other ∧ ∃ abs ∈ event.paths, relOf root abs = some p
deriving Decidable

/-- Draining the window will say something about the path. -/
def About (co : Coalescer) (p : RelPath) : Prop :=
  (co.pending.lookup p).isSome ∨ ∃ r ∈ co.renames, r.1 = p ∨ r.2 = p
deriving Decidable

/-- A raw event is folded into the window as the removal of a path. -/
def removes (co : Coalescer) (p : RelPath) (event : NotifyEvent) : Bool :=
  match event.kind, event.paths with
  | .remove, paths => paths.any fun abs => relOf co.root abs = some p
  | .modifyName .src, [src] => relOf co.root src = some p
  | .modifyName .both, [src, dst] =>
    relOf co.root src = some p && (relOf co.root dst).any co.exclude.isExcluded
  | _, _ => false

/-- A raw event about both ends of a rename, one of them outside the root. -/
def straddles (root : List Name) (event : NotifyEvent) : Bool :=
  match event.kind, event.paths with
  | .modifyName .both, [src, dst] => (relOf root src).isNone || (relOf root dst).isNone
  | _, _ => false

/-- The halves that are dropped on arrival belong to pairs of this window. -/
structure Paired (co : Coalescer) : Prop where
  froms : ∀ f ∈ co.renamedFrom, ∃ r ∈ co.renames, r.1 = f
  tos : ∀ t ∈ co.renamedTo, ∃ r ∈ co.renames, r.2 = t

theorem ingest_cases (co : Coalescer) (event : NotifyEvent) :
    (∃ kind, co.ingest event = co.pushAll event.paths kind ∧
      (kind = .removed → event.kind = .remove)) ∨
    (∃ src f, event = ⟨.modifyName .src, [src]⟩ ∧ relOf co.root src = some f ∧
      co.ingest event = co.srcEvent f) ∨
    (∃ dst t, event = ⟨.modifyName .dst, [dst]⟩ ∧ relOf co.root dst = some t ∧
      co.ingest event = co.dstEvent t) ∨
    (∃ src dst f t, event = ⟨.modifyName .both, [src, dst]⟩ ∧ relOf co.root src = some f ∧
      relOf co.root dst = some t ∧ co.ingest event = co.pair f t) ∨
    (co.ingest event = co ∧
      ((∀ p, ¬touches co.root p event) ∨ straddles co.root event = true)) := by
  obtain ⟨kind, paths⟩ := event
  cases kind with
  | create => exact .inl ⟨.created, rfl, nofun⟩
  | modifyMetadata => exact .inl ⟨.attrChanged, rfl, nofun⟩
  | modify => exact .inl ⟨.modified, rfl, nofun⟩
  | remove => exact .inl ⟨.removed, rfl, fun _ => rfl⟩
  | other => exact .inr (.inr (.inr (.inr ⟨rfl, .inl fun _ h => h.1 rfl⟩)))
  | modifyName mode =>
    match mode, paths with
    | .src, [src] =>
      cases hf : relOf co.root src with
      | none =>
        refine .inr (.inr (.inr (.inr ⟨by simp [ingest, hf], .inl ?_⟩)))
        simp [touches, hf]
      | some f => exact .inr (.inl ⟨src, f, rfl, hf, by simp [ingest, hf, srcEvent]⟩)
    | .dst, [dst] =>
      cases ht : relOf co.root dst with
      | none =>
        refine .inr (.inr (.inr (.inr ⟨by simp [ingest, ht], .inl ?_⟩)))
        simp [touches, ht]
      | some t => exact .inr (.inr (.inl ⟨dst, t, rfl, ht, by simp [ingest, ht, dstEvent]⟩))
    | .both, [src, dst] =>
      cases hf : relOf co.root src with
      | none =>
        refine .inr (.inr (.inr (.inr ⟨by simp [ingest, hf], .inr ?_⟩)))
        simp [straddles, hf]
      | some f =>
        cases ht : relOf co.root dst with
        | none =>
          refine .inr (.inr (.inr (.inr ⟨by simp [ingest, hf, ht], .inr ?_⟩)))
          simp [straddles, ht]
        | some t =>
          exact .inr (.inr (.inr (.inl
            ⟨src, dst, f, t, rfl, hf, ht, by simp [ingest, hf, ht]⟩)))
    | .any, _ | .other, _ => exact .inl ⟨.modified, rfl, nofun⟩
    | .src, [] | .dst, [] | .both, [] | .both, [_] => exact .inl ⟨.modified, rfl, nofun⟩
    | .src, _ :: _ :: _ | .dst, _ :: _ :: _ => exact .inl ⟨.modified, rfl, nofun⟩
    | .both, _ :: _ :: _ :: _ => exact .inl ⟨.modified, rfl, nofun⟩

theorem sameRenames_pushAll (kind : EventKind) (paths : List (List Name)) :
    ∀ co : Coalescer, SameRenames co (co.pushAll paths kind) := by
  induction paths with
  | nil => exact .refl
  | cons abs paths ih =>
    intro co
    rw [pushAll, foldl_cons]
    cases relOf co.root abs with
    | none => exact ih co
    | some rel => exact (sameRenames_push co rel kind).trans (ih _)

theorem isSome_merge {old : Option EventKind}
    (h : kind = .removed → old ≠ some .created) : (merge old kind).isSome = true := by
  unfold merge
  split <;> simp_all

theorem isSome_push (hp : co.exclude.isExcluded p = false)
    (hsafe : kind = .removed → co.pending.lookup p ≠ some .created)
    (h : (co.pending.lookup p).isSome = true ∨ q = p) :
    ((co.push q kind).pending.lookup p).isSome = true := by
  rw [lookup_push]
  split
  · next heq => rw [← heq.1]; exact isSome_merge hsafe
  · next hne =>
    refine h.resolve_right fun heq => ?_
    subst heq
    exact hne ⟨rfl, hp⟩

theorem lookup_pushAll (kind : EventKind) (paths : List (List Name)) (co : Coalescer)
    (p : RelPath) : (co.pushAll paths kind).pending.lookup p =
      if co.exclude.isExcluded p then co.pending.lookup p
      else (paths.filter fun abs => relOf co.root abs = some p).foldl
        (fun pending _ => merge pending kind) (co.pending.lookup p) := by
  induction paths generalizing co with
  | nil => simp [pushAll]
  | cons abs paths ih =>
    rw [pushAll, foldl_cons]
    cases hrel : relOf co.root abs with
    | none => simpa [pushAll, hrel] using ih co
    | some rel =>
      have hs := sameRenames_push co rel kind
      refine (ih (co.push rel kind)).trans ?_
      rw [hs.root, hs.exclude, lookup_push]
      by_cases heq : p = rel
      · subst heq
        cases co.exclude.isExcluded p <;> simp [hrel]
      · simp [hrel, heq, Ne.symm heq]

theorem lookup_pushAll_of_not (kind : EventKind) (paths : List (List Name)) (co : Coalescer)
    (h : ∀ abs ∈ paths, relOf co.root abs ≠ some p) :
    (co.pushAll paths kind).pending.lookup p = co.pending.lookup p := by
  rw [lookup_pushAll, filter_eq_nil_iff.mpr (by simpa using h), foldl_nil, ite_self]

theorem isSome_foldl_merge (paths : List (List Name)) :
    ∀ old : Option EventKind, (kind = .removed → old ≠ some .created) →
      (old.isSome = true ∨ paths ≠ []) →
      (paths.foldl (fun pending _ => merge pending kind) old).isSome = true := by
  induction paths with
  | nil => simp
  | cons abs paths ih =>
    intro old hsafe _
    refine ih _ (fun hk => ?_) (.inl (isSome_merge hsafe))
    cases old with
    | none => simp [hk, merge]
    | some k => cases k <;> simp_all [merge]

theorem isSome_pushAll (kind : EventKind) (paths : List (List Name)) (co : Coalescer)
    (hp : co.exclude.isExcluded p = false)
    (hsafe : kind = .removed → co.pending.lookup p ≠ some .created)
    (h : (co.pending.lookup p).isSome = true ∨ ∃ abs ∈ paths, relOf co.root abs = some p) :
    ((co.pushAll paths kind).pending.lookup p).isSome = true := by
  rw [lookup_pushAll, if_neg (by simp [hp])]
  exact isSome_foldl_merge _ _ hsafe (h.imp_right fun h => by simpa using h)

theorem About.of_same (hs : SameRenames co co') (h : co.About p)
    (hp : (co.pending.lookup p).isSome = true → (co'.pending.lookup p).isSome = true) :
    co'.About p :=
  h.imp hp fun hr => by rwa [hs.renames]

theorem About.push (hp : co.exclude.isExcluded p = false)
    (hsafe : q = p → kind = .removed → co.pending.lookup p ≠ some .created)
    (h : co.About p ∨ q = p) : (co.push q kind).About p := by
  by_cases heq : q = p
  · exact .inl (isSome_push hp (hsafe heq) (.inr heq))
  · refine (h.resolve_right heq).of_same (sameRenames_push co q kind) fun h => ?_
    rwa [lookup_push, if_neg fun h => heq h.1.symm]

theorem About.srcEvent (hpair : co.Paired) (hp : co.exclude.isExcluded p = false)
    (hsafe : q = p → co.pending.lookup p ≠ some .created) (h : co.About p ∨ q = p) :
    (co.srcEvent q).About p := by
  rw [Coalescer.srcEvent]
  split
  · next hmem =>
    refine h.elim id fun heq => .inr ?_
    obtain ⟨r, hr, hr1⟩ := hpair.froms q hmem
    exact ⟨r, hr, .inl (hr1.trans heq)⟩
  · exact .push hp (fun heq _ => hsafe heq) h

theorem About.dstEvent (hpair : co.Paired) (hp : co.exclude.isExcluded p = false)
    (h : co.About p ∨ q = p) : (co.dstEvent q).About p := by
  rw [Coalescer.dstEvent]
  split
  · next hmem =>
    refine h.elim id fun heq => .inr ?_
    obtain ⟨r, hr, hr2⟩ := hpair.tos q hmem
    exact ⟨r, hr, .inr (hr2.trans heq)⟩
  · exact .push hp (fun _ hk => nomatch hk) h

theorem About.pair (hp : co.exclude.isExcluded p = false)
    (hsafe : f = p → co.exclude.isExcluded t = true → co.pending.lookup p ≠ some .created)
    (h : co.About p ∨ f = p ∨ t = p) : (co.pair f t).About p := by
  rw [Coalescer.pair]
  split
  · next hf ht =>
    refine h.elim id fun hends => ?_
    rcases hends with rfl | rfl <;> simp_all
  · next hf ht =>
    refine .push hp (fun _ hk => nomatch hk) (h.imp_right fun hends => hends.resolve_left ?_)
    rintro rfl
    simp_all
  · next hf ht =>
    refine .push hp (fun heq _ => hsafe heq ht) (h.imp_right fun hends => hends.resolve_right ?_)
    rintro rfl
    simp_all
  · by_cases hends : f = p ∨ t = p
    · exact .inr ⟨(f, t), by simp, hends⟩
    · refine (h.resolve_right hends).imp (fun hpend => ?_) fun ⟨r, hr, hrp⟩ =>
        ⟨r, by simp [hr], hrp⟩
      rw [lookup_purge, if_neg]
      · exact hpend
      · rintro (⟨rfl, _⟩ | ⟨rfl, _⟩) <;> simp at hends

/-- **A window does not forget a path** unless a removal cancels a creation, and takes in every
path a raw event is about unless the event straddles the root. -/
theorem About.ingest {event : NotifyEvent} (hpair : co.Paired)
    (hp : co.exclude.isExcluded p = false)
    (hcancel : co.pending.lookup p = some .created → co.removes p event = false)
    (h : co.About p ∨ touches co.root p event ∧ straddles co.root event = false) :
    (co.ingest event).About p := by
  rcases ingest_cases co event with ⟨kind, heq, hkind⟩ | ⟨src, f, rfl, hf, heq⟩ |
    ⟨dst, t, rfl, ht, heq⟩ | ⟨src, dst, f, t, rfl, hf, ht, heq⟩ | ⟨heq, hnot⟩
  · rw [heq]
    have hs := sameRenames_pushAll kind event.paths co
    by_cases hmem : ∃ abs ∈ event.paths, relOf co.root abs = some p
    · refine .inl (isSome_pushAll kind event.paths co hp (fun hk hc => ?_) (.inr hmem))
      have hrem := hcancel hc
      simp only [removes, hkind hk, any_eq_false, decide_eq_true_eq] at hrem
      obtain ⟨abs, habs, hrel⟩ := hmem
      exact hrem abs habs hrel
    · refine (h.resolve_right fun ht => hmem ht.1.2).of_same hs fun h => ?_
      rwa [lookup_pushAll_of_not kind event.paths co fun abs habs hrel => hmem ⟨abs, habs, hrel⟩]
  · rw [heq]
    refine .srcEvent hpair hp (fun hfp hc => ?_) (h.imp_right fun ht => ?_)
    · simpa [removes, hf, hfp] using hcancel hc
    · simpa [touches, hf] using ht.1
  · rw [heq]
    refine .dstEvent hpair hp (h.imp_right fun htouch => ?_)
    simpa [touches, ht] using htouch.1
  · rw [heq]
    refine .pair hp (fun hfp hx hc => ?_) (h.imp_right fun htouch => ?_)
    · simpa [removes, hf, ht, hfp, hx] using hcancel hc
    · simpa [touches, hf, ht] using htouch.1
  · rw [heq]
    refine h.resolve_right fun ht => hnot.elim (fun hn => hn p ht.1) fun hn => ?_
    rw [ht.2] at hn
    cases hn

theorem Paired.of_same (hs : SameRenames co co') (h : co.Paired) :
    co'.Paired := by
  constructor
  · rw [hs.renamedFrom, hs.renames]
    exact h.froms
  · rw [hs.renamedTo, hs.renames]
    exact h.tos

theorem Paired.pair (h : co.Paired) (f t : RelPath) : (co.pair f t).Paired := by
  rw [Coalescer.pair]
  split
  · exact h
  · exact h.of_same (sameRenames_push ..)
  · exact h.of_same (sameRenames_push ..)
  · constructor
    · intro g hg
      rcases mem_cons.mp hg with rfl | hg
      · exact ⟨(g, t), by simp, rfl⟩
      · obtain ⟨r, hr, hr1⟩ := h.froms g hg
        exact ⟨r, by simp [hr], hr1⟩
    · intro g hg
      rcases mem_cons.mp hg with rfl | hg
      · exact ⟨(f, g), by simp, rfl⟩
      · obtain ⟨r, hr, hr2⟩ := h.tos g hg
        exact ⟨r, by simp [hr], hr2⟩

theorem Paired.ingest (h : co.Paired) (event : NotifyEvent) : (co.ingest event).Paired := by
  rcases ingest_cases co event with ⟨kind, heq, -⟩ | ⟨_, f, -, -, heq⟩ | ⟨_, t, -, -, heq⟩ |
    ⟨_, _, f, t, -, -, -, heq⟩ | ⟨heq, -⟩ <;> rw [heq]
  · exact h.of_same (sameRenames_pushAll kind event.paths co)
  · exact h.of_same (sameRenames_srcEvent co f)
  · exact h.of_same (sameRenames_dstEvent co t)
  · exact h.pair f t
  · exact h

theorem exclude_pair (co : Coalescer) (f t : RelPath) : (co.pair f t).exclude = co.exclude := by
  rw [pair]
  split
  · rfl
  · exact (sameRenames_push co t .created).exclude
  · exact (sameRenames_push co f .removed).exclude
  · rfl

theorem frame_ingest (co : Coalescer) (event : NotifyEvent) :
    (co.ingest event).root = co.root ∧ (co.ingest event).exclude = co.exclude := by
  rcases ingest_cases co event with ⟨kind, heq, -⟩ | ⟨_, f, -, -, heq⟩ | ⟨_, t, -, -, heq⟩ |
    ⟨_, _, f, t, -, -, -, heq⟩ | ⟨heq, -⟩ <;> rw [heq]
  · have hs := sameRenames_pushAll kind event.paths co
    exact ⟨hs.root, hs.exclude⟩
  · exact ⟨(sameRenames_srcEvent co f).root, (sameRenames_srcEvent co f).exclude⟩
  · exact ⟨(sameRenames_dstEvent co t).root, (sameRenames_dstEvent co t).exclude⟩
  · exact ⟨root_pair co f t, exclude_pair co f t⟩
  · exact ⟨rfl, rfl⟩

theorem mem_sorted {pending : PendingMap} {k : EventKind} :
    (p, k) ∈ sorted pending ↔ pending.lookup p = some k := by
  rw [sorted, (perm_insertionSort _ _).mem_iff, ← Option.mem_def, AList.mem_lookup_iff,
    mem_map]
  constructor
  · rintro ⟨⟨p', k'⟩, hmem, heq⟩
    cases heq
    exact hmem
  · exact fun hmem => ⟨⟨p, k⟩, hmem, rfl⟩

theorem nodup_sorted (pending : PendingMap) : ((sorted pending).map Prod.fst).Nodup := by
  have hperm := (perm_insertionSort (fun a b : RelPath × EventKind => textLe a.1.text b.1.text)
    (pending.entries.map fun e => (e.1, e.2))).map Prod.fst
  rw [sorted, hperm.nodup_iff, map_map]
  exact pending.nodupKeys

/-- Draining a window that is about a path says so: under the path itself, or as the target of
a rename of the window. -/
theorem About.takeBatch (h : co.About p) :
    ∃ item ∈ co.takeBatch.1, item.1 = p ∨
      item.2 = .renamedFrom p ∧ ∃ r ∈ co.renames, r.1 = item.1 ∧ r.2 = p := by
  by_cases hends : ∃ r ∈ co.renames, r.1 = p ∨ r.2 = p
  · obtain ⟨r, hr, hrp⟩ := hends
    refine ⟨(r.1, .renamedFrom r.2), ?_, hrp.imp id fun hr2 => ⟨by rw [hr2], r, hr, rfl, hr2⟩⟩
    exact mem_append_left _ (mem_map.mpr ⟨r, hr, rfl⟩)
  · obtain ⟨kind, hkind⟩ := Option.isSome_iff_exists.mp (h.resolve_right hends)
    have hded : co.deduped.lookup p = some kind := by
      rw [deduped, lookup_foldl_purge, if_neg, hkind]
      simp only [mem_map]
      rintro (⟨⟨r, hr, hrp⟩, _⟩ | ⟨⟨r, hr, hrp⟩, _⟩)
      · exact hends ⟨r, hr, .inl hrp⟩
      · exact hends ⟨r, hr, .inr hrp⟩
    exact ⟨(p, kind), mem_append_right _ (mem_sorted.mpr hded), .inl rfl⟩

end Coalescer
end AlloyFs
