import Mathlib.Data.List.Basic

/-!
# Byte-range locks of processes

The locks that processes have on the bytes of one file.  A process has at most one lock on a byte:
setting a lock on a range replaces what the process has there, and clearing a range cuts it out of
the locks of the process.  A lock remembers by what it was granted.
-/

namespace AlloyFs

/-- A range of bytes, both ends included. -/
structure ByteRange where
  first : ℕ
  last : ℕ
  le : first ≤ last
deriving DecidableEq

namespace ByteRange

def overlaps (r t : ByteRange) : Bool := decide (r.first ≤ t.last) && decide (t.first ≤ r.last)

/-- What is left of `r` without `t`: a part before it, and a part after it. -/
def cut (r t : ByteRange) : List ByteRange :=
  (if h : r.first < t.first then
    [⟨r.first, min r.last (t.first - 1), Nat.le_min.mpr ⟨r.le, Nat.le_sub_one_of_lt h⟩⟩] else []) ++
  (if h : t.last < r.last then
    [⟨max r.first (t.last + 1), r.last, Nat.max_le.mpr ⟨r.le, h⟩⟩] else [])

end ByteRange

/-- A lock of a process on a range; `via` says by what it was granted. -/
structure RangeLock (κ τ : Type) where
  owner : ℕ
  range : ByteRange
  kind : κ
  via : τ
deriving DecidableEq

namespace RangeLock

variable {κ τ : Type} {owner : ℕ} {r : ByteRange} {ls : List (RangeLock κ τ)} {l : RangeLock κ τ}

/-- Cut a range out of the locks of a process. -/
def clear (owner : ℕ) (r : ByteRange) (ls : List (RangeLock κ τ)) : List (RangeLock κ τ) :=
  ls.flatMap fun l => if l.owner = owner then (l.range.cut r).map ({ l with range := · }) else [l]

/-- Set a lock, in place of what the process has on the range. -/
def set (owner : ℕ) (r : ByteRange) (kind : κ) (via : τ) (ls : List (RangeLock κ τ)) :
    List (RangeLock κ τ) := clear owner r ls ++ [⟨owner, r, kind, via⟩]

/-- Drop all locks of a process. -/
def drop (owner : ℕ) (ls : List (RangeLock κ τ)) : List (RangeLock κ τ) :=
  ls.filter fun l => decide (l.owner ≠ owner)

/-- Another process has a lock in the range, and one of the two kinds excludes the other. -/
def conflicts (excludes : κ → κ → Bool) (owner : ℕ) (r : ByteRange) (kind : κ)
    (ls : List (RangeLock κ τ)) : Bool :=
  ls.any fun l => decide (l.owner ≠ owner) && l.range.overlaps r && excludes kind l.kind

theorem of_mem_clear (h : l ∈ clear owner r ls) :
    ∃ l' ∈ ls, l'.owner = l.owner ∧ l'.kind = l.kind ∧ l'.via = l.via := by
  obtain ⟨l', hl', hmem⟩ := List.mem_flatMap.mp h
  refine ⟨l', hl', ?_⟩
  split at hmem
  · obtain ⟨u, -, rfl⟩ := List.mem_map.mp hmem
    exact ⟨rfl, rfl, rfl⟩
  · rw [List.mem_singleton.mp hmem]
    exact ⟨rfl, rfl, rfl⟩

theorem mem_set {kind : κ} {via : τ} :
    l ∈ set owner r kind via ls ↔ l ∈ clear owner r ls ∨ l = ⟨owner, r, kind, via⟩ := by
  rw [set, List.mem_append, List.mem_singleton]

theorem mem_drop : l ∈ drop owner ls ↔ l ∈ ls ∧ l.owner ≠ owner := by
  rw [drop, List.mem_filter, decide_eq_true_iff]

end RangeLock

end AlloyFs
