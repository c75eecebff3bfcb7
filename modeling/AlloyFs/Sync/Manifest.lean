import AlloyFs.Lib.AList
import AlloyFs.Proto.Messages

/-!
# The sync baseline

What each path had — kind, size, time and version — when both sides last agreed.  It is
the third leg of the three-way comparison: with it, each side is compared with the last
agreed state.
-/

namespace AlloyFs.Sync

inductive EntryKind
  | file | dir
deriving DecidableEq

structure SyncEntry where
  kind : EntryKind
  /-- the server's version at the last sync; 0 if unknown -/
  remoteVersion : ℕ
  size : ℕ
  mtimeNs : ℕ
deriving DecidableEq

structure SyncManifest where
  /-- the highest remote event applied -/
  lastSeq : ℕ
  entries : AList fun _ : Text => SyncEntry

/-- Nanoseconds since the epoch; 0 before it. -/
def mtimeNsOf (t : SystemTime) : ℕ := t.toNat

/-- The text before everything below a path. -/
def dirPrefix (path : Text) : Text := path ++ ['/']

/-- What may follow a path in a path at or below it. -/
def Tail (s : Text) : Prop := s = [] ∨ ['/'] <+: s

namespace SyncManifest

/-- The baseline of a path. -/
def get (m : SyncManifest) (path : Text) : Option SyncEntry := m.entries.lookup path

def insert (m : SyncManifest) (path : Text) (e : SyncEntry) : SyncManifest :=
  { m with entries := m.entries.insert path e }

def remove (m : SyncManifest) (path : Text) : SyncManifest :=
  { m with entries := m.entries.erase path }

/-- Keep the entries whose path passes a test. -/
def retain (m : SyncManifest) (keep : Text → Bool) : SyncManifest :=
  { m with entries := ⟨m.entries.entries.filter fun e => keep e.1,
      m.entries.nodupKeys.sublist List.filter_sublist⟩ }

/-- Drop a path and everything below it. -/
def removeTree (m : SyncManifest) (path : Text) : SyncManifest :=
  m.retain fun p => decide (p ≠ path) && !decide (dirPrefix path <+: p)

/-- Move every entry at or below `src` to the same place at or below `dst`; says whether
there was any. -/
def renamePrefix (m : SyncManifest) (src dst : Text) : Bool × SyncManifest :=
  let moved := m.entries.entries.filterMap fun e =>
    if e.1 = src then some (dst, e.2)
    else if dirPrefix src <+: e.1 then some (dst ++ e.1.drop src.length, e.2)
    else none
  (!moved.isEmpty, moved.foldl (fun m e => m.insert e.1 e.2) (m.removeTree src))

/-! ## What a rename moves -/

variable (m : SyncManifest) (src dst : Text) {p s : Text} {v : SyncEntry}

theorem get_eq_some : m.get p = some v ↔ ⟨p, v⟩ ∈ m.entries.entries := AList.mem_lookup_iff

theorem atOrBelow_iff {q : Text} :
    (p = q ∨ dirPrefix q <+: p) ↔ ∃ s, Tail s ∧ p = q ++ s := by
  constructor
  · rintro (rfl | ⟨t, rfl⟩)
    · exact ⟨[], .inl rfl, by simp⟩
    · exact ⟨'/' :: t, .inr ⟨t, rfl⟩, by simp [dirPrefix]⟩
  · rintro ⟨s, rfl | ⟨t, rfl⟩, rfl⟩
    · simp
    · exact .inr ⟨t, by simp [dirPrefix]⟩

/-- What `renamePrefix` takes out, under its new paths. -/
def moved : List (Text × SyncEntry) :=
  m.entries.entries.filterMap fun e =>
    if e.1 = src then some (dst, e.2)
    else if dirPrefix src <+: e.1 then some (dst ++ e.1.drop src.length, e.2)
    else none

theorem mem_moved :
    (p, v) ∈ m.moved src dst ↔ ∃ s, Tail s ∧ p = dst ++ s ∧ m.get (src ++ s) = some v := by
  simp only [moved, List.mem_filterMap, get_eq_some]
  constructor
  · rintro ⟨⟨q, x⟩, hq, he⟩
    have hat : q = src ∨ dirPrefix src <+: q := by
      by_contra hno
      simp_all
    obtain ⟨s, hs, rfl⟩ := atOrBelow_iff.mp hat
    refine ⟨s, hs, ?_⟩
    split at he <;> simp_all
  · rintro ⟨s, hs, rfl, hp⟩
    have hat : src ++ s = src ∨ dirPrefix src <+: src ++ s := atOrBelow_iff.mpr ⟨s, hs, rfl⟩
    refine ⟨_, hp, ?_⟩
    by_cases h : s = [] <;> simp_all

theorem get_foldl_insert (l : List (Text × SyncEntry))
    (h : ∀ e ∈ l, ∀ x ∈ l, e.1 = x.1 → e = x) :
    (l.foldl (fun m e => m.insert e.1 e.2) m).get p = some v ↔
      (p, v) ∈ l ∨ (∀ x, (p, x) ∉ l) ∧ m.get p = some v := by
  induction l generalizing m with
  | nil => simp
  | cons e l ih =>
    have hput : (m.insert e.1 e.2).get p = if p = e.1 then some e.2 else m.get p :=
      lookup_insert_eq
    rw [List.foldl_cons, ih _ fun x hx y hy => h x (.tail _ hx) y (.tail _ hy), hput]
    grind

theorem get_removeTree : (m.removeTree src).get p = some v ↔
    (∀ s, Tail s → p ≠ src ++ s) ∧ m.get p = some v := by
  have hat := (atOrBelow_iff (p := p) (q := src)).not
  simp only [get_eq_some, removeTree, retain, List.mem_filter]
  grind

theorem get_renamePrefix : (m.renamePrefix src dst).2.get p = some v ↔
    (∃ s, Tail s ∧ p = dst ++ s ∧ m.get (src ++ s) = some v) ∨
      (∀ s, Tail s → p = dst ++ s → m.get (src ++ s) = none) ∧
        (∀ s, Tail s → p ≠ src ++ s) ∧ m.get p = some v := by
  have hfun : ∀ e ∈ m.moved src dst, ∀ x ∈ m.moved src dst, e.1 = x.1 → e = x := by
    rintro ⟨p, v⟩ he ⟨-, w⟩ hx rfl
    obtain ⟨s, -, hs, hv⟩ := (m.mem_moved src dst).mp he
    obtain ⟨t, -, ht, hw⟩ := (m.mem_moved src dst).mp hx
    obtain rfl := List.append_cancel_left (hs.symm.trans ht)
    rw [Option.some.inj (hv.symm.trans hw)]
  rw [← get_removeTree]
  refine (get_foldl_insert _ _ hfun).trans ?_
  simp only [mem_moved, not_exists, not_and, Option.eq_none_iff_forall_ne_some]
  grind

theorem lastSeq_renamePrefix : (m.renamePrefix src dst).2.lastSeq = m.lastSeq := by
  suffices h : ∀ (l : List (Text × SyncEntry)) (n : SyncManifest),
      (l.foldl (fun m e => m.insert e.1 e.2) n).lastSeq = n.lastSeq from h _ _
  intro l
  induction l with
  | nil => exact fun _ => rfl
  | cons e l ih => exact fun n => ih _

/-- **A rename moves exactly one subtree**, and the way back restores the manifest if nothing
was at or below the target. -/
theorem renamePrefix_moves_subtree :
    (∀ p v, (m.renamePrefix src dst).2.get p = some v ↔
      (∃ s, Tail s ∧ p = dst ++ s ∧ m.get (src ++ s) = some v) ∨
        (∀ s, Tail s → p = dst ++ s → m.get (src ++ s) = none) ∧
          (∀ s, Tail s → p ≠ src ++ s) ∧ m.get p = some v) ∧
    ((m.renamePrefix src dst).1 = true ↔ ∃ s v, Tail s ∧ m.get (src ++ s) = some v) ∧
    (m.renamePrefix src dst).2.lastSeq = m.lastSeq ∧
    ((∀ s, Tail s → m.get (dst ++ s) = none) →
      ∀ p, ((m.renamePrefix src dst).2.renamePrefix dst src).2.get p = m.get p) := by
  refine ⟨fun p v => m.get_renamePrefix src dst, ?_, m.lastSeq_renamePrefix src dst,
    fun hfree p => Option.ext fun v => ?_⟩
  · change (!(m.moved src dst).isEmpty) = true ↔ _
    simp only [Bool.not_eq_true', List.isEmpty_eq_false_iff_exists_mem, Prod.exists, mem_moved]
    constructor
    · rintro ⟨-, v, s, hs, -, hv⟩
      exact ⟨s, v, hs, hv⟩
    · rintro ⟨s, v, hs, hv⟩
      exact ⟨dst ++ s, v, s, hs, rfl, hv⟩
  · have hback : ∀ s, Tail s → (m.renamePrefix src dst).2.get (dst ++ s) = m.get (src ++ s) := by
      intro s hs
      ext w
      simp only [get_renamePrefix, List.append_cancel_left_eq, hfree s hs]
      grind
    have hm := m.get_renamePrefix src dst (p := p) (v := v)
    rw [get_renamePrefix]
    grind

end SyncManifest

end AlloyFs.Sync
