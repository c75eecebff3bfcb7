import AlloyFs.Sync.Engine
import Mathlib.Data.List.Dedup

/-!
# What a plan leads to

Every action of a plan is about one path, so carrying the plan out is one change to each
path's cell: its baseline entry and what the two sides have there.  `settle` is that
change, and the plan as a whole is `settle` at every path.

A settled cell plans nothing, so a plan is carried out once.  The table is blind to the
paths around a path, though: a directory that one side has given up goes, also when the
other side has something new below it, and two directories are left with the baseline they
have, also when that is of a file.
-/

namespace AlloyFs.Sync

open List

variable {p : Text} {st : Stat} {base : Option SyncEntry}

/-- Baseline and both sides. -/
structure Sides where
  base : SyncManifest
  here : Snapshot
  there : Snapshot

/-- All that is known of one path. -/
@[ext] structure Cell where
  base : Option SyncEntry
  here : Option Stat
  there : Option Stat

/-- What the actions leave open: the version that the server gives to an upload, and which
side a conflict is decided for. -/
structure Choices where
  version : Text → ℕ
  keepLocal : Text → Bool

/-- The baseline entry that records a state. -/
def Stat.entry (s : Stat) : SyncEntry := ⟨s.kind, s.version, s.size, s.mtimeNs⟩

/-- Both sides have the state, and the baseline records it. -/
def Cell.agreed (s : Stat) : Cell := ⟨some s.entry, some s, some s⟩

/-- What an action does to the cell of its path. -/
def Cell.after (ch : Choices) (c : Cell) : Action → Cell
  | .pull _ => c.there.elim c agreed
  | .push p => c.here.elim c fun l => agreed { l with version := ch.version p }
  | .deleteLocal _ _ => { c with base := none, here := none }
  | .deleteRemote _ _ => { c with base := none, there := none }
  | .adopt _ s => { c with base := some s.entry }
  | .conflict p l r => agreed (if ch.keepLocal p then { l with version := ch.version p } else r)
  | .forget _ => { c with base := none }

/-- Change what a finite map has at a key. -/
def alter {ν : Type} (m : AList fun _ : Text => ν) (p : Text) : Option ν → AList fun _ : Text => ν
  | some v => m.insert p v
  | none => m.erase p

theorem lookup_alter {ν : Type} (m : AList fun _ : Text => ν) (p q : Text) (v : Option ν) :
    (alter m p v).lookup q = if q = p then v else m.lookup q := by
  by_cases h : q = p
  · subst h
    cases v <;> simp [alter]
  · cases v <;> simp [alter, h]

namespace Sides

variable (ch : Choices) (s : Sides)

def cell (p : Text) : Cell := ⟨s.base.get p, s.here.lookup p, s.there.lookup p⟩

def set (p : Text) (c : Cell) : Sides where
  base := { s.base with entries := alter s.base.entries p c.base }
  here := alter s.here p c.here
  there := alter s.there p c.there

def plan : List Action := Sync.plan s.base s.here s.there

/-- What an action is planned to do, to its own path alone: the `deleteLocal` that the engine
carries out removes what is below a directory too. -/
def apply (a : Action) : Sides := s.set a.path ((s.cell a.path).after ch a)

/-- Carry actions out, one path after the other. -/
def applyAll (actions : List Action) : Sides := actions.foldl (apply ch) s

/-- Carry the plan out. -/
def settled : Sides := s.applyAll ch s.plan

theorem cell_set (p q : Text) (c : Cell) : (s.set p c).cell q = if q = p then c else s.cell q := by
  by_cases h : q = p <;> simp [cell, set, SyncManifest.get, lookup_alter, h]

end Sides

/-- What the plan makes of a cell. -/
def settle (ch : Choices) (p : Text) (c : Cell) : Cell :=
  (planPath p c.base c.here c.there).elim c (c.after ch)

variable {a : Action} {c : Cell}

namespace Sides

variable (ch : Choices) (s : Sides)

theorem mem_planPaths (m : SyncManifest) (here there : Snapshot) (p : Text) :
    p ∈ planPaths m here there ↔ p ∈ m.entries ∨ p ∈ here ∨ p ∈ there := by
  simp [planPaths, AList.mem_keys]

theorem pairwise_planPaths (m : SyncManifest) (here there : Snapshot) :
    (planPaths m here there).Pairwise textLt := by
  have hle : (planPaths m here there).Pairwise textLe := pairwise_insertionSort _ _
  have hnodup : (planPaths m here there).Nodup :=
    (perm_insertionSort _ _).nodup_iff.mpr (nodup_dedup _)
  exact (hle.and hnodup).imp fun h => textLt_of_le h.1 h.2

theorem mem_plan : a ∈ s.plan ↔ ∃ p ∈ planPaths s.base s.here s.there,
      planPath p (s.cell p).base (s.cell p).here (s.cell p).there = some a :=
  mem_filterMap

theorem path_of_planPath (h : planPath p c.base c.here c.there = some a) : a.path = p := by
  have hrow := row_planPath p c.base c.here c.there
  rw [h] at hrow
  obtain ⟨base, l, r⟩ := c
  cases hrow <;> rfl

theorem pairwise_plan : s.plan.Pairwise fun a b => textLt a.path b.path := by
  refine pairwise_filterMap.mpr ((pairwise_planPaths _ _ _).imp ?_)
  intro p q hlt a ha b hb
  rw [path_of_planPath (c := s.cell p) ha, path_of_planPath (c := s.cell q) hb]
  exact hlt

theorem nodup_plan : (s.plan.map Action.path).Nodup := by
  refine pairwise_map.mpr (s.pairwise_plan.imp ?_)
  intro a b hlt heq
  exact textLt_irrefl _ (heq ▸ hlt)

theorem cell_applyAll (actions : List Action) :
    ∀ s : Sides, (actions.map Action.path).Nodup → ∀ q,
      (∀ a ∈ actions, a.path = q → (s.applyAll ch actions).cell q = (s.cell q).after ch a) ∧
      ((∀ a ∈ actions, a.path ≠ q) → (s.applyAll ch actions).cell q = s.cell q) := by
  induction actions with
  | nil =>
    intro s _ q
    refine ⟨?_, fun _ => rfl⟩
    intro a ha
    cases ha
  | cons b actions ih =>
    intro s hnodup q
    obtain ⟨hb, hrest⟩ := nodup_cons.mp hnodup
    obtain ⟨hhit, hmiss⟩ := ih (s.apply ch b) hrest q
    have hother : ∀ a ∈ actions, a.path ≠ b.path := by
      intro a ha heq
      exact hb (mem_map.mpr ⟨a, ha, heq⟩)
    refine ⟨?_, ?_⟩
    · intro a ha hq
      rcases mem_cons.mp ha with rfl | ha
      · refine (hmiss (hq ▸ hother)).trans ?_
        rw [apply, cell_set, if_pos hq.symm, hq]
      · refine (hhit a ha hq).trans ?_
        rw [apply, cell_set, if_neg fun h => hother a ha (hq.trans h)]
    · intro h
      refine (hmiss fun a ha => h a (mem_cons_of_mem _ ha)).trans ?_
      rw [apply, cell_set, if_neg fun hq => h b mem_cons_self hq.symm]

/-- **The actions of the plan settle every cell.** -/
theorem cell_settled (q : Text) : (s.settled ch).cell q = settle ch q (s.cell q) := by
  obtain ⟨hhit, hmiss⟩ := cell_applyAll ch s.plan s s.nodup_plan q
  by_cases hmem : q ∈ planPaths s.base s.here s.there
  · cases hrow : planPath q (s.cell q).base (s.cell q).here (s.cell q).there with
    | some a =>
      rw [settle, hrow]
      exact hhit a (s.mem_plan.mpr ⟨q, hmem, hrow⟩) (path_of_planPath hrow)
    | none =>
      rw [settle, hrow]
      refine hmiss fun a ha heq => ?_
      obtain ⟨p, _, hp⟩ := s.mem_plan.mp ha
      rw [← path_of_planPath hp, heq, hrow] at hp
      cases hp
  · -- nothing is known of the path, and nothing is planned
    have hempty : s.cell q = ⟨none, none, none⟩ := by
      rw [mem_planPaths, not_or, not_or] at hmem
      simp [cell, SyncManifest.get, AList.lookup_eq_none, hmem]
    rw [hempty]
    refine (hmiss fun a ha heq => hmem ?_).trans hempty
    obtain ⟨p, hp, hrow⟩ := s.mem_plan.mp ha
    rwa [← heq, path_of_planPath hrow]

end Sides

/-! ## One plan is enough -/

/-- A path strictly above another one. -/
def Ancestor (q p : Text) : Prop := q ≠ [] ∧ q ++ ['/'] <+: p
deriving Decidable

theorem Ancestor.lt {q : Text} (h : Ancestor q p) : textLt q p := by
  obtain ⟨-, rest, rfl⟩ := h
  rw [append_assoc]
  induction q with
  | nil => exact .nil
  | cons c q ih => exact .cons ih

theorem planPath_recorded {l r : Stat} (h : sameStat r.kind r.size r.mtimeNs l = true) :
    planPath p (some r.entry) (some l) (some r) = none := by
  have hl : localChanged (some r.entry) (some l) = false := by simp [localChanged, Stat.entry, h]
  have hr : remoteChanged (some r.entry) (some r) = false := by
    simp [remoteChanged, Stat.entry, sameStat]
  simp [planPath, hl, hr]

theorem planPath_agreed (p : Text) (s : Stat) :
    planPath p (Cell.agreed s).base (Cell.agreed s).here (Cell.agreed s).there = none :=
  planPath_recorded (by simp [sameStat])

theorem planPath_settle (ch : Choices) (p : Text) (c : Cell) :
    settle ch p c = ⟨none, none, none⟩ ∨
      planPath p (settle ch p c).base (settle ch p c).here (settle ch p c).there = none := by
  obtain ⟨base, l, r⟩ := c
  have hrow := row_planPath p base l r
  simp only [settle]
  generalize hplan : planPath p base l r = a at hrow
  cases hrow with
  | newDirs hl hr _ => exact .inr (planPath_recorded (by simp [sameStat, hl, hr]))
  | dirs _ _ _ => exact .inr hplan
  | clean _ _ _ => exact .inr hplan
  | push _ _ _ => exact .inr (planPath_agreed _ _)
  | pull _ _ _ => exact .inr (planPath_agreed _ _)
  | same _ _ _ h => exact .inr (planPath_recorded (by simp [sameStat, h]))
  | conflict _ _ _ _ => exact .inr (planPath_agreed _ _)
  | pushNew _ => exact .inr (planPath_agreed _ _)
  | deleteLocal _ => exact .inl rfl
  | pullNew _ => exact .inr (planPath_agreed _ _)
  | deleteRemote _ => exact .inl rfl
  | forget => exact .inl rfl

/-- **A plan has one action for a path, directories first, and once it is carried out there
is nothing left to plan.** -/
theorem Sides.plan_settled (ch : Choices) (s : Sides) :
    (s.plan.map Action.path).Nodup ∧
      (s.plan.Pairwise fun a b => textLt a.path b.path ∧ ¬ Ancestor b.path a.path) ∧
      (s.settled ch).plan = [] := by
  refine ⟨s.nodup_plan, s.pairwise_plan.imp ?_, ?_⟩
  · intro a b hlt
    exact ⟨hlt, fun h => textLt_asymm hlt h.lt⟩
  · refine filterMap_eq_nil_iff.mpr fun p hp => ?_
    have hcell := s.cell_settled ch p
    rcases planPath_settle ch p (s.cell p) with hgone | hnone
    · rw [hgone] at hcell
      obtain ⟨hb, hl, hr⟩ := Cell.mk.inj hcell
      rw [SyncManifest.get, AList.lookup_eq_none] at hb
      rw [AList.lookup_eq_none] at hl hr
      rw [mem_planPaths] at hp
      exact absurd hp (by simp [hb, hl, hr])
    · rw [← hcell] at hnone
      exact hnone

/-! ## The sides exchanged -/

/-- The same action seen from the other side. -/
def Action.mirror : Action → Action
  | .pull p => .push p
  | .push p => .pull p
  | .deleteLocal p kind => .deleteRemote p kind
  | .deleteRemote p kind => .deleteLocal p kind
  | .adopt p s => .adopt p s
  | .conflict p l r => .conflict p r l
  | .forget p => .forget p

/-- What is adopted is compared without its version. -/
def Action.unversioned : Action → Action
  | .adopt p s => .adopt p { s with version := 0 }
  | a => a

/-- Directories have neither a size nor a time, as the snapshots take them. -/
def PlainDirs (snap : Snapshot) : Prop :=
  ∀ p st, snap.lookup p = some st → st.kind = .dir → st.size = 0 ∧ st.mtimeNs = 0

/-- The entry is as the baseline has it: in its kind and, for a file, in size and time. -/
def AsRecorded (b : SyncEntry) (st : Stat) : Prop :=
  st.kind = b.kind ∧ (b.kind = .file → st.size = b.size ∧ st.mtimeNs = b.mtimeNs)

theorem asRecorded_of_sameStat {b : SyncEntry}
    (h : sameStat b.kind b.size b.mtimeNs st = true) : AsRecorded b st := by
  simp only [sameStat, Bool.and_eq_true, Bool.or_eq_true, decide_eq_true_eq] at h
  refine ⟨h.1, fun hfile => h.2.resolve_left ?_⟩
  simp [hfile]

theorem recorded_of_localChanged
    (h : localChanged base (some st) = false) : ∃ b, base = some b ∧ AsRecorded b st := by
  cases base with
  | none => cases h
  | some b => exact ⟨b, rfl, asRecorded_of_sameStat (by simpa [localChanged] using h)⟩

theorem recorded_of_remoteChanged (h : remoteChanged base (some st) = false) :
    ∃ b, base = some b ∧
      (AsRecorded b st ∨ (b.remoteVersion ≠ 0 ∧ b.remoteVersion = st.version)) := by
  cases base with
  | none => cases h
  | some b =>
    refine ⟨b, rfl, ?_⟩
    rw [remoteChanged] at h
    split at h
    · next hver => exact .inr hver
    · exact .inl (asRecorded_of_sameStat (by simpa using h))

theorem planPath_mirror {l r : Option Stat} (hver : ∀ b, base = some b → b.remoteVersion = 0)
    (hl : ∀ st, l = some st → st.kind = .dir → st.size = 0 ∧ st.mtimeNs = 0)
    (hr : ∀ st, r = some st → st.kind = .dir → st.size = 0 ∧ st.mtimeNs = 0) :
    (planPath p base r l).map Action.unversioned =
      (planPath p base l r).map fun a => a.mirror.unversioned := by
  -- without a version both sides are judged alike
  have hside : ∀ st, remoteChanged base st = localChanged base st := by
    intro st
    cases base with
    | none => cases st <;> rfl
    | some b => cases st <;> simp [remoteChanged, localChanged, hver b rfl]
  have hrow := row_planPath p base l r
  generalize planPath p base l r = a at hrow
  cases hrow with
  | newDirs hd hd' hb =>
    obtain ⟨hs, ht⟩ := hl _ rfl hd
    obtain ⟨hs', ht'⟩ := hr _ rfl hd'
    simp [planPath, hd, hd', hb, Action.mirror, Action.unversioned, hs, ht, hs', ht']
  | dirs hd hd' hb => simp [planPath, hd, hd', hb]
  | clean hd h h' | push hd h h' | pull hd h h' =>
    rw [and_comm] at hd
    rw [hside] at h'
    simp [planPath, hd, hside, h, h', Action.mirror, Action.unversioned]
  | same hd h h' hsame =>
    obtain ⟨hk, hs, ht⟩ := hsame
    rw [hk, and_self] at hd
    rw [hside] at h'
    simp [planPath, hd, hside, h, h', hk, hs, ht, Action.mirror, Action.unversioned]
  | @conflict st st' hd h h' hsame =>
    have hsame' : ¬ (st'.kind = st.kind ∧ st'.size = st.size ∧ st'.mtimeNs = st.mtimeNs) :=
      fun h => hsame ⟨h.1.symm, h.2.1.symm, h.2.2.symm⟩
    rw [and_comm] at hd
    rw [hside] at h'
    simp [planPath, hd, hside, h, h', hsame', Action.mirror, Action.unversioned]
  | pushNew h => cases base <;> simp [planPath, hside, h, Action.mirror, Action.unversioned]
  | deleteLocal h =>
    obtain ⟨b, rfl, -⟩ := recorded_of_localChanged h
    simp [planPath, hside, h, Action.mirror, Action.unversioned]
  | pullNew h =>
    rw [hside] at h
    cases base <;> simp [planPath, h, Action.mirror, Action.unversioned]
  | deleteRemote h =>
    obtain ⟨b, rfl, -⟩ := recorded_of_remoteChanged h
    rw [hside] at h
    simp [planPath, h, Action.mirror, Action.unversioned]
  | forget => rfl

theorem planPaths_comm (m : SyncManifest) (l r : Snapshot) :
    planPaths m r l = planPaths m l r := by
  have hnodup : ∀ l r, (planPaths m l r).Nodup := fun l r =>
    (perm_insertionSort _ _).nodup_iff.mpr (nodup_dedup _)
  have hperm : (planPaths m r l).Perm (planPaths m l r) := by
    refine (perm_ext_iff_of_nodup (hnodup _ _) (hnodup _ _)).mpr fun p => ?_
    rw [Sides.mem_planPaths, Sides.mem_planPaths, or_comm (b := p ∈ l)]
  exact hperm.eq_of_pairwise (fun a b _ _ h h' => absurd h' (textLt_asymm h))
    (Sides.pairwise_planPaths _ _ _) (Sides.pairwise_planPaths _ _ _)

theorem Row.localClean {r : Option Stat} (h : Row p base (some st) r (some a))
    (ha : a = .pull p ∨ ∃ kind, a = .deleteLocal p kind) :
    localChanged base (some st) = false := by
  rcases ha with rfl | ⟨kind, rfl⟩ <;> cases h <;> assumption

theorem Row.remoteClean {l : Option Stat} (h : Row p base l (some st) (some a))
    (ha : a = .push p ∨ ∃ kind, a = .deleteRemote p kind) :
    remoteChanged base (some st) = false := by
  rcases ha with rfl | ⟨kind, rfl⟩ <;> cases h <;> assumption

/-- **A plan treats both sides alike and overwrites or deletes only what is as recorded.** -/
theorem plan_mirror (m : SyncManifest) (l r : Snapshot) :
    ((∀ p b, m.get p = some b → b.remoteVersion = 0) → PlainDirs l → PlainDirs r →
      (plan m r l).map Action.unversioned =
        (plan m l r).map fun a => a.mirror.unversioned) ∧
    (∀ p st, l.lookup p = some st →
      (.pull p ∈ plan m l r ∨ ∃ kind, .deleteLocal p kind ∈ plan m l r) →
      ∃ b, m.get p = some b ∧ AsRecorded b st) ∧
    (∀ p st, r.lookup p = some st →
      (.push p ∈ plan m l r ∨ ∃ kind, .deleteRemote p kind ∈ plan m l r) →
      ∃ b, m.get p = some b ∧
        (AsRecorded b st ∨ (b.remoteVersion ≠ 0 ∧ b.remoteVersion = st.version))) := by
  refine ⟨?_, ?_, ?_⟩
  · intro hver hl hr
    rw [plan, plan, planPaths_comm, map_filterMap, map_filterMap]
    refine filterMap_congr fun p _ => ?_
    exact planPath_mirror (hver p) (hl p) (hr p)
  · intro p st hst hplan
    have hclean : localChanged (m.get p) (some st) = false := by
      rcases hplan with h | ⟨kind, h⟩ <;>
        exact (hst ▸ row_of_plan h).localClean (by simp [Action.path])
    exact recorded_of_localChanged hclean
  · intro p st hst hplan
    have hclean : remoteChanged (m.get p) (some st) = false := by
      rcases hplan with h | ⟨kind, h⟩ <;>
        exact (hst ▸ row_of_plan h).remoteClean (by simp [Action.path])
    exact recorded_of_remoteChanged hclean

theorem plan_mirror_edited :
    let file (size : ℕ) : Stat := ⟨.file, size, size, 0⟩
    let m : SyncManifest := ⟨0, (AList.singleton ['a'] (file 1).entry).insert ['b'] (file 2).entry⟩
    let l : Snapshot := (AList.singleton ['a'] (file 1)).insert ['b'] (file 3)
    let r : Snapshot := (AList.singleton ['a'] (file 4)).insert ['b'] (file 2)
    (plan m r l).map Action.unversioned = (plan m l r).map (fun a => a.mirror.unversioned) ∧
      (∃ b, m.get ['a'] = some b ∧ AsRecorded b (file 1)) ∧
      (∃ b, m.get ['b'] = some b ∧
        (AsRecorded b (file 2) ∨ (b.remoteVersion ≠ 0 ∧ b.remoteVersion = (file 2).version))) := by
  intro file m l r
  have hversion : ∀ p b, m.get p = some b → b.remoteVersion = 0 := by
    intro p b hb
    have hmem : (⟨p, b⟩ : Sigma fun _ : Text => SyncEntry) ∈ m.entries.entries :=
      AList.mem_lookup_iff.mp hb
    have hall : ∀ e ∈ m.entries.entries, e.2.remoteVersion = 0 := by decide +kernel
    exact hall _ hmem
  have hfiles : ∀ snap : Snapshot, (∀ e ∈ snap.entries, e.2.kind = .file) → PlainDirs snap := by
    intro snap hall p st hst hdir
    have hfile := hall _ (AList.mem_lookup_iff.mp hst)
    rw [hdir] at hfile
    cases hfile
  obtain ⟨hmirror, hhere, hthere⟩ := plan_mirror m l r
  exact ⟨hmirror hversion (hfiles l (by decide +kernel)) (hfiles r (by decide +kernel)),
    hhere ['a'] _ (by decide +kernel) (.inl (by decide +kernel)),
    hthere ['b'] _ (by decide +kernel) (.inl (by decide +kernel))⟩

/-! ## Directories and their baseline -/

/-- Both sides have a directory. -/
def Cell.BothDirs (c : Cell) : Prop :=
  ∃ l r, c.here = some l ∧ c.there = some r ∧ l.kind = .dir ∧ r.kind = .dir

/-- The baseline has a directory. -/
def Cell.Based (c : Cell) : Prop := ∃ b, c.base = some b ∧ b.kind = .dir

/-- Directories on both sides have a directory as their baseline. -/
def DirsBased (s : Sides) : Prop := ∀ p, (s.cell p).BothDirs → (s.cell p).Based

/-- A directory of both sides that goes on one of them, nothing else about it being
different, is to go on the other side as well, and not to come back. -/
def RemovalsFollow (s : Sides) : Prop :=
  ∀ p, (s.cell p).BothDirs → ∀ t : Sides,
    (t.cell p = { s.cell p with here := none } →
      .deleteRemote p .dir ∈ t.plan ∧ .push p ∉ t.plan ∧ .pull p ∉ t.plan) ∧
    (t.cell p = { s.cell p with there := none } →
      .deleteLocal p .dir ∈ t.plan ∧ .push p ∉ t.plan ∧ .pull p ∉ t.plan)

theorem settle_dirs {ch : Choices} {b : SyncEntry} (h : c.BothDirs)
    (hb : c.base = some b) : settle ch p c = c := by
  obtain ⟨l, r, hl, hr, hdl, hdr⟩ := h
  simp [settle, planPath, hl, hr, hb, hdl, hdr]

theorem based_agreed {s : Stat} (h : (Cell.agreed s).BothDirs) : (Cell.agreed s).Based := by
  obtain ⟨l, r, hl, -, hdir, -⟩ := h
  cases hl
  exact ⟨s.entry, rfl, hdir⟩

theorem based_settle {ch : Choices} (h : (settle ch p c).BothDirs)
    (hbase : ∀ b, c.BothDirs → c.base = some b → b.kind = .dir) : (settle ch p c).Based := by
  obtain ⟨base, l, r⟩ := c
  have hrow := row_planPath p base l r
  simp only [settle] at h ⊢
  generalize planPath p base l r = a at hrow h
  cases hrow with
  | newDirs _ hr _ => exact ⟨_, rfl, hr⟩
  | dirs hl hr hb => exact ⟨_, hb, hbase _ ⟨_, _, rfl, rfl, hl, hr⟩ hb⟩
  | clean hd _ _ =>
    obtain ⟨_, _, hl, hr, hdirs⟩ := h
    cases hl
    cases hr
    exact absurd hdirs hd
  | push _ _ _ => exact based_agreed h
  | pull _ _ _ => exact based_agreed h
  | same hd _ _ _ =>
    obtain ⟨_, _, hl, hr, hdirs⟩ := h
    cases hl
    cases hr
    exact absurd hdirs hd
  | conflict _ _ _ _ => exact based_agreed h
  | pushNew _ => exact based_agreed h
  | pullNew _ => exact based_agreed h
  | deleteLocal _ | deleteRemote _ | forget =>
    obtain ⟨_, _, hl, -⟩ := h
    cases hl

/-- What is planned for a path is in the plan, and nothing else about that path. -/
theorem Sides.mem_plan_iff {s : Sides} {a b : Action} (hpath : b.path = p)
    (h : planPath p (s.cell p).base (s.cell p).here (s.cell p).there = some a)
    (hmem : p ∈ planPaths s.base s.here s.there) : b ∈ s.plan ↔ b = a := by
  constructor
  · intro hb
    obtain ⟨q, _, hq⟩ := s.mem_plan.mp hb
    rw [← path_of_planPath hq, hpath, h] at hq
    exact (Option.some.inj hq).symm
  · rintro rfl
    exact s.mem_plan.mpr ⟨p, hmem, h⟩

theorem removalsFollow_of_dirsBased {s : Sides} (h : DirsBased s) : RemovalsFollow s := by
  intro p hdirs t
  obtain ⟨b, hb, hdir⟩ := h p hdirs
  obtain ⟨l, r, hl, hr, hdl, hdr⟩ := hdirs
  -- the path is known to the baseline, so the plan has a row for it
  have hmem : t.base.get p = some b → p ∈ planPaths t.base t.here t.there := by
    intro hget
    rw [Sides.mem_planPaths]
    exact .inl (AList.lookup_isSome.mp (by rw [← SyncManifest.get, hget]; rfl))
  constructor
  · intro ht
    dsimp only at ht
    rw [hb, hr] at ht
    obtain ⟨htb, -, -⟩ := Cell.mk.inj ht
    have hrow : planPath p (t.cell p).base (t.cell p).here (t.cell p).there =
        some (.deleteRemote p .dir) := by
      simp [ht, planPath, remoteChanged, sameStat, hdir, hdr]
    have hiff := fun b hpath => Sides.mem_plan_iff (b := b) hpath hrow (hmem htb)
    refine ⟨(hiff _ rfl).mpr rfl, ?_, ?_⟩
    · intro h
      cases (hiff _ rfl).mp h
    · intro h
      cases (hiff _ rfl).mp h
  · intro ht
    dsimp only at ht
    rw [hb, hl] at ht
    obtain ⟨htb, -, -⟩ := Cell.mk.inj ht
    have hrow : planPath p (t.cell p).base (t.cell p).here (t.cell p).there =
        some (.deleteLocal p .dir) := by
      simp [ht, planPath, localChanged, sameStat, hdir, hdl]
    have hiff := fun b hpath => Sides.mem_plan_iff (b := b) hpath hrow (hmem htb)
    refine ⟨(hiff _ rfl).mpr rfl, ?_, ?_⟩
    · intro h
      cases (hiff _ rfl).mp h
    · intro h
      cases (hiff _ rfl).mp h

/-- **After a plan the directories of both sides are recorded as such, and removals of them
carried over, exactly if none of them had a file as its baseline before.** -/
theorem dirsBased_settled_iff (ch : Choices) (s : Sides) :
    (DirsBased (s.settled ch) ∧ RemovalsFollow (s.settled ch)) ↔
      ∀ p b, (s.cell p).BothDirs → s.base.get p = some b → b.kind = .dir := by
  constructor
  · rintro ⟨hbased, -⟩ p b hdirs hb
    have hsame : (s.settled ch).cell p = s.cell p :=
      (s.cell_settled ch p).trans (settle_dirs hdirs hb)
    obtain ⟨b', hb', hdir⟩ := hbased p (hsame ▸ hdirs)
    rw [hsame] at hb'
    cases hb.symm.trans hb'
    exact hdir
  · intro h
    have hbased : DirsBased (s.settled ch) := by
      intro p hdirs
      rw [Sides.cell_settled] at hdirs ⊢
      exact based_settle hdirs fun b => h p b
    exact ⟨hbased, removalsFollow_of_dirsBased hbased⟩

/-- A synced file that both sides have replaced by a directory: nothing is planned, and once
the directory is removed locally it is planned to be pulled again. -/
theorem not_dirsBased_replaced :
    let dir : Stat := ⟨.dir, 0, 0, 0⟩
    let s : Sides := ⟨⟨0, AList.singleton ['a'] ⟨.file, 1, 3, 5⟩⟩, AList.singleton ['a'] dir,
      AList.singleton ['a'] { dir with version := 2 }⟩
    let after := s.settled ⟨fun _ => 0, fun _ => true⟩
    ¬ DirsBased after ∧ ({ after with here := after.here.erase ['a'] } : Sides).plan =
      [.pull ['a']] := by
  refine ⟨fun h => ?_, by decide +kernel⟩
  obtain ⟨b, hb, hdir⟩ := h ['a'] ⟨_, _, rfl, rfl, rfl, rfl⟩
  cases hb
  cases hdir

/-! ## The shape of the trees -/

/-- Everything is in a directory. -/
def IsTree (snap : Snapshot) : Prop :=
  ∀ p ∈ snap, ∀ q, Ancestor q p → ∃ st, snap.lookup q = some st ∧ st.kind = .dir

instance (snap : Snapshot) : Decidable (IsTree snap) :=
  decidable_of_iff (∀ p ∈ snap.keys, ∀ q ∈ p.inits, Ancestor q p →
    (snap.lookup q).map Stat.kind = some .dir) <| by
    constructor
    · intro h p hp q hq
      have hprefix : q <+: p := (prefix_append q ['/']).trans hq.2
      exact Option.map_eq_some_iff.mp (h p hp q ((mem_inits _ _).mpr hprefix) hq)
    · intro h p hp q _ hq
      exact Option.map_eq_some_iff.mpr (h p hp q hq)

/-- The same paths, of the same kinds. -/
def SameShape (a b : Snapshot) : Prop :=
  ∀ p, (a.lookup p).map Stat.kind = (b.lookup p).map Stat.kind

/-- The decisions for different paths go together: no version hides that the sides differ
in kind, and where one side has a change below a directory that the other side does not
have, that side's directory has changed too and is not given up in a conflict. -/
structure Fits (ch : Choices) (s : Sides) : Prop where
  kinds : ∀ p l r, s.here.lookup p = some l → s.there.lookup p = some r → l.kind ≠ r.kind →
    localChanged (s.base.get p) (some l) = true ∨ remoteChanged (s.base.get p) (some r) = true
  here : ∀ q p l, Ancestor q p → s.here.lookup p = some l →
    localChanged (s.base.get p) (some l) = true →
    (∀ r, s.there.lookup q = some r → r.kind ≠ .dir) →
    localChanged (s.base.get q) (s.here.lookup q) = true ∧
      (s.there.lookup q = none ∨ remoteChanged (s.base.get q) (s.there.lookup q) = false ∨
        ch.keepLocal q = true)
  there : ∀ q p r, Ancestor q p → s.there.lookup p = some r →
    remoteChanged (s.base.get p) (some r) = true →
    (∀ l, s.here.lookup q = some l → l.kind ≠ .dir) →
    remoteChanged (s.base.get q) (s.there.lookup q) = true ∧
      (s.here.lookup q = none ∨ localChanged (s.base.get q) (s.here.lookup q) = false ∨
        ch.keepLocal q = false)

section Cells

variable {ch : Choices} {p : Text} {base : Option SyncEntry} {l r : Option Stat} {st : Stat}

theorem bothDirs_agreed : (Cell.agreed st).BothDirs ↔ st.kind = .dir := by
  simp [Cell.agreed, Cell.BothDirs]

theorem bothDirs_settle (h : c.BothDirs) : (settle ch p c).BothDirs := by
  cases hb : c.base with
  | some b => rwa [settle_dirs h hb]
  | none =>
    obtain ⟨l, r, hl, hr, hdl, hdr⟩ := h
    exact ⟨l, r, by simp [settle, planPath, hl, hr, hb, hdl, hdr, Cell.after],
      by simp [settle, planPath, hl, hr, hb, hdl, hdr, Cell.after], hdl, hdr⟩

/-- A directory that the other side does not have stays if it has changed and wins. -/
theorem bothDirs_settle_here (hdir : st.kind = .dir)
    (hother : ∀ st', r = some st' → st'.kind ≠ .dir) :
    (settle ch p ⟨base, some st, r⟩).BothDirs ↔ localChanged base (some st) = true ∧
      (r = none ∨ remoteChanged base r = false ∨ ch.keepLocal p = true) := by
  have hrow := row_planPath p base (some st) r
  simp only [settle]
  generalize planPath p base (some st) r = a at hrow
  cases hrow with
  | newDirs _ hd _ | dirs _ hd _ => exact absurd hd (hother _ rfl)
  | clean hd h h' => simp [Cell.BothDirs, h, hother _ rfl]
  | push _ h h' => simp [Cell.after, bothDirs_agreed, hdir, h, h']
  | pull _ h h' => simp [Cell.after, bothDirs_agreed, hother _ rfl, h]
  | same _ _ _ hsame => exact absurd (hsame.1 ▸ hdir) (hother _ rfl)
  | conflict _ h h' _ =>
    cases hkeep : ch.keepLocal p <;>
      simp [Cell.after, bothDirs_agreed, hkeep, hdir, hother _ rfl, h, h']
  | pushNew h => simp [Cell.after, bothDirs_agreed, hdir, h]
  | deleteLocal h => simp [Cell.after, Cell.BothDirs, h]

theorem bothDirs_settle_there (hdir : st.kind = .dir)
    (hother : ∀ st', l = some st' → st'.kind ≠ .dir) :
    (settle ch p ⟨base, l, some st⟩).BothDirs ↔ remoteChanged base (some st) = true ∧
      (l = none ∨ localChanged base l = false ∨ ch.keepLocal p = false) := by
  have hrow := row_planPath p base l (some st)
  simp only [settle]
  generalize planPath p base l (some st) = a at hrow
  cases hrow with
  | newDirs hd _ _ | dirs hd _ _ => exact absurd hd (hother _ rfl)
  | clean hd h h' => simp [Cell.BothDirs, h', hother _ rfl]
  | push _ h h' => simp [Cell.after, bothDirs_agreed, hother _ rfl, h']
  | pull _ h h' => simp [Cell.after, bothDirs_agreed, hdir, h, h']
  | same _ _ _ hsame => exact absurd (hsame.1.trans hdir) (hother _ rfl)
  | conflict _ h h' _ =>
    cases hkeep : ch.keepLocal p <;>
      simp [Cell.after, bothDirs_agreed, hkeep, hdir, hother _ rfl, h, h']
  | pullNew h => simp [Cell.after, bothDirs_agreed, hdir, h]
  | deleteRemote h => simp [Cell.after, Cell.BothDirs, h]

theorem settle_here_only :
    ((settle ch p ⟨base, some st, none⟩).here.isSome ↔ localChanged base (some st) = true) ∧
      ((settle ch p ⟨base, some st, none⟩).there.isSome ↔ localChanged base (some st) = true) := by
  have hrow := row_planPath p base (some st) none
  simp only [settle]
  generalize planPath p base (some st) none = a at hrow
  cases hrow with
  | pushNew h => simp [Cell.after, Cell.agreed, h]
  | deleteLocal h => simp [Cell.after, h]

theorem settle_there_only :
    ((settle ch p ⟨base, none, some st⟩).here.isSome ↔ remoteChanged base (some st) = true) ∧
      ((settle ch p ⟨base, none, some st⟩).there.isSome ↔
        remoteChanged base (some st) = true) := by
  have hrow := row_planPath p base none (some st)
  simp only [settle]
  generalize planPath p base none (some st) = a at hrow
  cases hrow with
  | pullNew h => simp [Cell.after, Cell.agreed, h]
  | deleteRemote h => simp [Cell.after, h]

theorem settle_kind_iff :
    ((settle ch p ⟨base, l, r⟩).here.map Stat.kind =
      (settle ch p ⟨base, l, r⟩).there.map Stat.kind) ↔
      ∀ st st', l = some st → r = some st' → st.kind ≠ st'.kind →
        localChanged base (some st) = true ∨ remoteChanged base (some st') = true := by
  have hrow := row_planPath p base l r
  simp only [settle]
  generalize planPath p base l r = a at hrow
  cases hrow with
  | newDirs hl hr _ => simp [Cell.after, hl, hr]
  | dirs hl hr _ => simp [hl, hr]
  | clean _ h h' => simp [h, h']
  | same _ h _ hsame => simp [Cell.after, h, hsame.1]
  | push _ h _ | conflict _ h _ _ => simp [Cell.after, Cell.agreed, h]
  | pull _ _ h' => simp [Cell.after, Cell.agreed, h']
  | pushNew _ | deleteLocal _ | pullNew _ | deleteRemote _ | forget =>
    simp [Cell.after, Cell.agreed]

end Cells

/-- Both sides are trees, with the same paths and kinds. -/
def WellFormed (s : Sides) : Prop := SameShape s.here s.there ∧ IsTree s.here ∧ IsTree s.there

theorem IsTree.dir {snap : Snapshot} (h : IsTree snap) {q : Text}
    (hq : Ancestor q p) (hp : snap.lookup p = some st) :
    ∃ st, snap.lookup q = some st ∧ st.kind = .dir :=
  h p (AList.lookup_isSome.mp (by rw [hp]; rfl)) q hq

theorem IsTree.lookup_none {snap : Snapshot} (h : IsTree snap) {q : Text} (hq : Ancestor q p)
    (hdir : ∀ st, snap.lookup q = some st → st.kind ≠ .dir) : snap.lookup p = none := by
  cases hp : snap.lookup p with
  | none => rfl
  | some st =>
    obtain ⟨st', hst', hkind⟩ := h.dir hq hp
    exact absurd hkind (hdir _ hst')

section Shape

variable {ch : Choices} {s : Sides} {q p : Text}

theorem bothDirs_above_here (hl : IsTree s.here) (hq : Ancestor q p)
    (hp : s.here.lookup p = some st) (hother : ∀ r, s.there.lookup q = some r → r.kind ≠ .dir) :
    (settle ch q (s.cell q)).BothDirs ↔
      localChanged (s.base.get q) (s.here.lookup q) = true ∧
        (s.there.lookup q = none ∨ remoteChanged (s.base.get q) (s.there.lookup q) = false ∨
          ch.keepLocal q = true) := by
  obtain ⟨d, hd, hdir⟩ := hl.dir hq hp
  rw [Sides.cell, hd]
  exact bothDirs_settle_here hdir hother

theorem bothDirs_above_there (hr : IsTree s.there) (hq : Ancestor q p)
    (hp : s.there.lookup p = some st) (hother : ∀ l, s.here.lookup q = some l → l.kind ≠ .dir) :
    (settle ch q (s.cell q)).BothDirs ↔
      remoteChanged (s.base.get q) (s.there.lookup q) = true ∧
        (s.here.lookup q = none ∨ localChanged (s.base.get q) (s.here.lookup q) = false ∨
          ch.keepLocal q = false) := by
  obtain ⟨d, hd, hdir⟩ := hr.dir hq hp
  rw [Sides.cell, hd]
  exact bothDirs_settle_there hdir hother

/-- Where the decisions fit there are directories on both sides above all that stays. -/
theorem Fits.bothDirs (h : Fits ch s) (hl : IsTree s.here) (hr : IsTree s.there)
    (hq : Ancestor q p)
    (hstays : (settle ch p (s.cell p)).here.isSome ∨ (settle ch p (s.cell p)).there.isSome) :
    (settle ch q (s.cell q)).BothDirs := by
  by_cases hboth : (s.cell q).BothDirs
  · exact bothDirs_settle hboth
  cases hp : s.here.lookup p with
  | some st =>
    obtain ⟨d, hd, hdir⟩ := hl.dir hq hp
    have hother : ∀ r, s.there.lookup q = some r → r.kind ≠ .dir :=
      fun r hr' hkind => hboth ⟨d, r, hd, hr', hdir, hkind⟩
    rw [Sides.cell, hp, hr.lookup_none hq hother] at hstays
    have hchanged := hstays.elim settle_here_only.1.mp settle_here_only.2.mp
    exact (bothDirs_above_here hl hq hp hother).mpr (h.here q p st hq hp hchanged hother)
  | none =>
    cases hp' : s.there.lookup p with
    | some st =>
      obtain ⟨d, hd, hdir⟩ := hr.dir hq hp'
      have hother : ∀ l, s.here.lookup q = some l → l.kind ≠ .dir :=
        fun l hl' hkind => hboth ⟨l, d, hl', hd, hkind, hdir⟩
      rw [Sides.cell, hp, hp'] at hstays
      have hchanged := hstays.elim settle_there_only.1.mp settle_there_only.2.mp
      exact (bothDirs_above_there hr hq hp' hother).mpr (h.there q p st hq hp' hchanged hother)
    | none =>
      rw [Sides.cell, hp, hp'] at hstays
      rcases hstays with h | h <;> cases h

end Shape

/-- **Once a plan is carried out both sides are trees, with the same paths and kinds, exactly
if the decisions for different paths fit.** -/
theorem wellFormed_settled_iff (ch : Choices) (s : Sides) (hl : IsTree s.here)
    (hr : IsTree s.there) : WellFormed (s.settled ch) ↔ Fits ch s := by
  have hhere : ∀ p, (s.settled ch).here.lookup p = (settle ch p (s.cell p)).here :=
    fun p => congrArg Cell.here (s.cell_settled ch p)
  have hthere : ∀ p, (s.settled ch).there.lookup p = (settle ch p (s.cell p)).there :=
    fun p => congrArg Cell.there (s.cell_settled ch p)
  have hshape : SameShape (s.settled ch).here (s.settled ch).there ↔
      ∀ p l r, s.here.lookup p = some l → s.there.lookup p = some r → l.kind ≠ r.kind →
        localChanged (s.base.get p) (some l) = true ∨
          remoteChanged (s.base.get p) (some r) = true := by
    refine forall_congr' fun p => ?_
    rw [hhere, hthere]
    exact settle_kind_iff
  constructor
  · rintro ⟨hsame, htree, htree'⟩
    -- above what stays on both sides the trees have directories
    have habove : ∀ q p, Ancestor q p → (settle ch p (s.cell p)).here.isSome →
        (settle ch p (s.cell p)).there.isSome → (settle ch q (s.cell q)).BothDirs := by
      intro q p hq h h'
      rw [← hhere] at h
      rw [← hthere] at h'
      obtain ⟨l, hl, hdl⟩ := htree p (AList.lookup_isSome.mp h) q hq
      obtain ⟨r, hr, hdr⟩ := htree' p (AList.lookup_isSome.mp h') q hq
      exact ⟨l, r, hhere q ▸ hl, hthere q ▸ hr, hdl, hdr⟩
    refine ⟨hshape.mp hsame, ?_, ?_⟩
    · intro q p st hq hp hchanged hother
      refine (bothDirs_above_here hl hq hp hother).mp (habove q p hq ?_ ?_) <;>
        rw [Sides.cell, hp, hr.lookup_none hq hother]
      · exact settle_here_only.1.mpr hchanged
      · exact settle_here_only.2.mpr hchanged
    · intro q p st hq hp hchanged hother
      refine (bothDirs_above_there hr hq hp hother).mp (habove q p hq ?_ ?_) <;>
        rw [Sides.cell, hp, hl.lookup_none hq hother]
      · exact settle_there_only.1.mpr hchanged
      · exact settle_there_only.2.mpr hchanged
  · intro h
    refine ⟨hshape.mpr h.kinds, ?_, ?_⟩
    · intro p hp q hq
      have hstays : (settle ch p (s.cell p)).here.isSome := hhere p ▸ AList.lookup_isSome.mpr hp
      obtain ⟨l, r, hl', -, hdl, -⟩ := h.bothDirs hl hr hq (.inl hstays)
      exact ⟨l, (hhere q).trans hl', hdl⟩
    · intro p hp q hq
      have hstays : (settle ch p (s.cell p)).there.isSome := hthere p ▸ AList.lookup_isSome.mpr hp
      obtain ⟨l, r, -, hr', -, hdr⟩ := h.bothDirs hl hr hq (.inr hstays)
      exact ⟨r, (hthere q).trans hr', hdr⟩

/-- A new file below a directory that both sides have. -/
theorem wellFormed_settled_new :
    let dir : Stat := ⟨.dir, 0, 0, 0⟩
    let s : Sides := ⟨⟨0, AList.singleton ['d'] dir.entry⟩,
      (AList.singleton ['d'] dir).insert ['d', '/', 'n'] ⟨.file, 1, 5, 0⟩,
      AList.singleton ['d'] dir⟩
    let ch : Choices := ⟨fun _ => 7, fun _ => true⟩
    IsTree s.here ∧ IsTree s.there ∧ WellFormed (s.settled ch) ∧ Fits ch s := by
  intro dir s ch
  have hhere : IsTree s.here := by decide +kernel
  have hthere : IsTree s.there := by decide +kernel
  have hsame : (s.settled ch).here = (s.settled ch).there := AList.ext (by decide +kernel)
  have hwell : WellFormed (s.settled ch) :=
    ⟨fun p => by rw [hsame], by decide +kernel, by decide +kernel⟩
  exact ⟨hhere, hthere, hwell, (wellFormed_settled_iff ch s hhere hthere).mp hwell⟩

/-- The server has removed a synced directory, and below it there is a new local file: the
directory is deleted and the file is pushed. -/
theorem not_wellFormed_removed :
    let dir : Stat := ⟨.dir, 0, 0, 0⟩
    let s : Sides := ⟨⟨0, AList.singleton ['d'] dir.entry⟩,
      (AList.singleton ['d'] dir).insert ['d', '/', 'n'] ⟨.file, 1, 5, 0⟩, ∅⟩
    let after := s.settled ⟨fun _ => 7, fun _ => true⟩
    IsTree s.here ∧ IsTree s.there ∧ s.plan = [.deleteLocal ['d'] .dir, .push ['d', '/', 'n']] ∧
      ¬ IsTree after.here ∧ ¬ IsTree after.there := by
  decide +kernel

end AlloyFs.Sync
