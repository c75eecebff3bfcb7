import AlloyFs.Lib.AList
import AlloyFs.Lib.Transition
import AlloyFs.Proto.Messages

/-!
# Inode numbers and the kernel's lookups

The wire protocol speaks of paths and the kernel of inode numbers.  The client keeps a table
between the two: a number is given out when a path is first seen, and dropped when the kernel
forgets it.  The kernel counts the lookups it was granted, the table does not.
-/

open Function

namespace AlloyFs

def ROOT_INO : ℕ := 1

/-- Inode numbers and paths, each looked up by the other. -/
structure InodeTable where
  byIno : AList fun _ : ℕ => RelPath
  byPath : RelPath → Option ℕ
  next : ℕ

namespace InodeTable

variable {t : InodeTable} {i j : ℕ} {p q : RelPath}

def pathOf (t : InodeTable) (ino : ℕ) : Option RelPath := t.byIno.lookup ino

def inoOf (t : InodeTable) (path : RelPath) : Option ℕ := t.byPath path

/-- Enter a number and a path in both maps. -/
def put (t : InodeTable) (ino : ℕ) (path : RelPath) : InodeTable :=
  { t with byPath := update t.byPath path (some ino), byIno := t.byIno.insert ino path }

/-- Take a number out, and whatever its path has. -/
def drop (t : InodeTable) (ino : ℕ) : InodeTable :=
  match t.pathOf ino with
  | some path => { t with byIno := t.byIno.erase ino, byPath := update t.byPath path none }
  | none => t

/-- The root is there from the start. -/
def new : InodeTable := put ⟨∅, fun _ => none, ROOT_INO + 1⟩ ROOT_INO ⟨[]⟩

/-- The number of a path, a new one if it has none. -/
def getOrAlloc (t : InodeTable) (path : RelPath) : InodeTable × ℕ :=
  match t.inoOf path with
  | some ino => (t, ino)
  | none => ({ t.put t.next path with next := t.next + 1 }, t.next)

def forget (t : InodeTable) (ino : ℕ) : InodeTable := if ino = ROOT_INO then t else t.drop ino

/-! ## The two maps after each operation -/

@[grind =] theorem pathOf_put : (t.put i p).pathOf j = if j = i then some p else t.pathOf j :=
  lookup_insert_eq

@[grind =] theorem inoOf_put : (t.put i p).inoOf q = if q = p then some i else t.inoOf q :=
  update_apply ..

@[grind =] theorem pathOf_drop : (t.drop i).pathOf j = if j = i then none else t.pathOf j := by
  cases h : t.pathOf i with
  | none => grind [drop]
  | some path =>
    simp only [drop, h]
    exact lookup_erase_eq

@[grind =] theorem inoOf_drop :
    (t.drop i).inoOf q = if t.pathOf i = some q then none else t.inoOf q := by
  cases h : t.pathOf i with
  | none => simp [drop, h]
  | some path => simp [drop, h, inoOf, update_apply, eq_comm]

@[simp, grind =] theorem next_put : (t.put i p).next = t.next := rfl

@[simp, grind =] theorem next_drop : (t.drop i).next = t.next := by
  unfold drop
  split <;> rfl

@[grind =] theorem getOrAlloc_eq : t.getOrAlloc p = match t.inoOf p with
    | some i => (t, i)
    | none => ({ t.put t.next p with next := t.next + 1 }, t.next) := rfl

@[grind =] theorem pathOf_next : pathOf { t with next := i } j = t.pathOf j := rfl

@[grind =] theorem inoOf_next : inoOf { t with next := i } p = t.inoOf p := rfl

/-- A path's number belongs to the path, and the numbers are below the counter. -/
structure Sound (t : InodeTable) : Prop where
  path : ∀ p i, t.inoOf p = some i → t.pathOf i = some p
  below : ∀ i p, t.pathOf i = some p → i < t.next

attribute [grind →] Sound.path Sound.below

theorem sound_new : new.Sound := by
  constructor <;> grind [new, pathOf, inoOf, AList.lookup_empty, next_put]

theorem Sound.drop (h : t.Sound) (i : ℕ) : (t.drop i).Sound := by
  constructor <;> grind

theorem Sound.getOrAlloc (h : t.Sound) (p : RelPath) : (t.getOrAlloc p).1.Sound := by
  constructor <;> grind

end InodeTable

/-! ## The kernel's lookups

Every reply that names a file grants the kernel one lookup on its number, and the kernel gives
them back with `forget`, some or all at a time.  Until it has given back all, it may use the
number. -/

/-- The table, the lookups granted and forgotten, and the numbers in replies under way. -/
structure FuseRun where
  table : InodeTable
  granted : ℕ → ℕ
  forgotten : ℕ → ℕ
  replies : List ℕ

inductive FuseStep
  /-- `lookup`, `create`, `mkdir`, `symlink` or `link` takes the number of a path for its reply. -/
  | entry (path : RelPath)
  /-- The kernel has the reply. -/
  | reply (ino : ℕ)
  | forget (ino nlookup : ℕ)

namespace FuseRun

open InodeTable

variable {s s' : FuseRun} {l : FuseStep}

def init : FuseRun := ⟨.new, fun _ => 0, fun _ => 0, []⟩

def step (s : FuseRun) : FuseStep → Option FuseRun
  | .entry path =>
    some { s with
      table := (s.table.getOrAlloc path).1
      replies := (s.table.getOrAlloc path).2 :: s.replies }
  | .reply ino =>
    if ino ∈ s.replies then
      some { s with
        granted := update s.granted ino (s.granted ino + 1)
        replies := s.replies.erase ino }
    else none
  -- the count the kernel sends is not used
  | .forget ino nlookup =>
    if s.forgotten ino + nlookup ≤ s.granted ino then
      some { s with
        table := s.table.forget ino
        forgotten := update s.forgotten ino (s.forgotten ino + nlookup) }
    else none

/-- What the kernel forgets, it forgets altogether, and no reply with the number is under way. -/
def forgetsAll (s : FuseRun) : FuseStep → Prop
  | .forget ino nlookup => ino = ROOT_INO ∨
      s.granted ino = s.forgotten ino + nlookup ∧ ino ∉ s.replies
  | _ => True

instance (s : FuseRun) : ∀ l, Decidable (s.forgetsAll l)
  | .forget _ _ => inferInstanceAs (Decidable (_ ∨ _ ∧ _))
  | .entry _ | .reply _ => inferInstanceAs (Decidable True)

/-- A number the kernel holds, or is about to, has a path. -/
structure Inv (s : FuseRun) : Prop where
  sound : s.table.Sound
  held : ∀ i, s.forgotten i < s.granted i ∨ i ∈ s.replies → (s.table.pathOf i).isSome

theorem Inv.step (h : s.Inv) (hok : s.forgetsAll l) (hs : s.step l = some s') : s'.Inv := by
  have hsound := h.sound
  cases l with
  | entry path =>
    cases hs
    refine ⟨hsound.getOrAlloc path, fun i hi => ?_⟩
    have := h.held i
    grind
  | reply ino =>
    obtain ⟨hmem, rfl⟩ := of_guard hs
    refine ⟨hsound, fun i hi => h.held i ?_⟩
    grind [update_apply, List.mem_of_mem_erase]
  | forget ino nlookup =>
    obtain ⟨hle, rfl⟩ := of_guard hs
    have hsound' := hsound.drop ino
    refine ⟨by grind [InodeTable.forget], fun i hi => ?_⟩
    have := h.held i
    grind [InodeTable.forget, forgetsAll, update_apply]

/-- **A number the kernel holds has a path** in every run in which the kernel forgets all its
lookups of a number at once, with no reply under way that grants another.  A `forget` that leaves
the kernel one takes the path away. -/
theorem held_inode_has_path (h : Reaches step forgetsAll init s) :
    (∀ i, s.forgotten i < s.granted i → (s.table.pathOf i).isSome) ∧
    ∀ ino nlookup s', s.step (.forget ino nlookup) = some s' →
      ((∀ i, s'.forgotten i < s'.granted i → (s'.table.pathOf i).isSome) ↔
        ino = ROOT_INO ∨ s.granted ino = s.forgotten ino + nlookup) := by
  have hi := h.invariant Inv ⟨sound_new, by simp [init]⟩ fun _ _ _ hi hok hs => hi.step hok hs
  refine ⟨fun i hheld => hi.held i (.inl hheld), fun ino nlookup s' hs => ?_⟩
  obtain ⟨hle, rfl⟩ := of_guard hs
  constructor
  · intro hall
    have := hall ino
    grind [InodeTable.forget, update_apply]
  · intro hall i hheld
    have := hi.held i
    grind [InodeTable.forget, update_apply]

theorem held_inode_has_path_again : ∃ s : FuseRun,
    (∀ i, s.forgotten i < s.granted i → (s.table.pathOf i).isSome) ∧
    s.granted 3 = 1 ∧ s.table.pathOf 2 = none :=
  exists_of_run [.entry ⟨['a']⟩, .reply 2, .forget 2 1, .entry ⟨['a']⟩, .reply 3]
    (by decide +kernel) (fun _ h => (held_inode_has_path h).1) (by decide +kernel)

/-- A file is looked up twice and the kernel forgets one of the two lookups. -/
theorem forget_drops_held_inode : ∃ s, Reaches step (fun _ _ => True) init s ∧
    s.granted 2 = 2 ∧ s.forgotten 2 = 1 ∧ s.table.pathOf 2 = none :=
  exists_of_run [.entry ⟨['a']⟩, .reply 2, .entry ⟨['a']⟩, .reply 2, .forget 2 1]
    (by decide +kernel) (fun _ h => h) (by decide +kernel)

end FuseRun
end AlloyFs
