import AlloyFs.Client.AutoCache
import Mathlib.Algebra.Group.Nat.Defs

/-!
# The chunk loop of the walker

`fetch_one` reads a file it caches in windows of eight requests.  Each asks for what is left of the
file, cut to 32 bits and then to one chunk, so that the loop moves on only as long as what is left
is no multiple of 2^32.
-/

namespace AlloyFs.Walker

def CHUNK_CONCURRENCY : ℕ := 8

/-- How much to ask for at `pos`.  The cast to `u32` comes before the minimum. -/
def want (size pos : ℕ) : ℕ := min ((size - pos) % 2 ^ 32) DATA_CHUNK

/-- At most `n` more requests of a window, and the position after them. -/
def batch (size : ℕ) : ℕ → ℕ → List (ℕ × ℕ) × ℕ
  | 0, pos => ([], pos)
  | n + 1, pos =>
    if size ≤ pos then ([], pos)
    else
      let rest := batch size n (pos + want size pos)
      ((pos, want size pos) :: rest.1, rest.2)

/-- The requests of the loop from `pos` on; none if `fuel` windows do not reach the end. -/
def chunkLoop (size : ℕ) : ℕ → ℕ → Option (List (ℕ × ℕ))
  | 0, pos => if size ≤ pos then some [] else none
  | fuel + 1, pos =>
    if size ≤ pos then some []
    else
      let window := batch size CHUNK_CONCURRENCY pos
      (chunkLoop size fuel window.2).map (window.1 ++ ·)

/-- The requests are non-empty, no larger than a chunk, and lead from `start` to `stop`. -/
def Tiles (start stop : ℕ) : List (ℕ × ℕ) → Prop
  | [] => start = stop
  | (offset, len) :: rest =>
    offset = start ∧ 0 < len ∧ len ≤ DATA_CHUNK ∧ Tiles (start + len) stop rest

variable {size pos start mid stop : ℕ}

theorem Tiles.append {xs ys : List (ℕ × ℕ)} (hx : Tiles start mid xs) (hy : Tiles mid stop ys) :
    Tiles start stop (xs ++ ys) := by
  induction xs generalizing start with
  | nil =>
    cases hx
    exact hy
  | cons request xs ih =>
    obtain ⟨hoffset, hpos, hle, hrest⟩ := hx
    exact ⟨hoffset, hpos, hle, ih hrest⟩

theorem le_batch (n : ℕ) : pos ≤ (batch size n pos).2 := by
  induction n generalizing pos with
  | zero => simp [batch]
  | succ n ih =>
    rw [batch]
    split
    · simp
    · exact (Nat.le_add_right _ _).trans ih

theorem batch_spec (hsize : size < 2 ^ 32) (n : ℕ) (hpos : pos ≤ size) :
    Tiles pos (batch size n pos).2 (batch size n pos).1 ∧ (batch size n pos).2 ≤ size ∧
      (0 < n → pos < size → pos < (batch size n pos).2) := by
  induction n generalizing pos with
  | zero => simp [batch, Tiles, hpos]
  | succ n ih =>
    rw [batch]
    split
    · next hend =>
      refine ⟨rfl, hpos, ?_⟩
      omega
    · next hlt =>
      have hwant : 0 < want size pos ∧ pos + want size pos ≤ size := by
        simp only [want, DATA_CHUNK]
        omega
      obtain ⟨htiles, hle, -⟩ := ih hwant.2
      refine ⟨⟨rfl, hwant.1, Nat.min_le_right _ _, htiles⟩, hle, ?_⟩
      intro _ _
      exact (Nat.lt_add_of_pos_right hwant.1).trans_le (le_batch n)

theorem chunkLoop_spec (hsize : size < 2 ^ 32) (fuel : ℕ) (hpos : pos ≤ size)
    (hfuel : size - pos ≤ fuel) :
    ∃ requests, chunkLoop size fuel pos = some requests ∧ Tiles pos size requests := by
  induction fuel generalizing pos with
  | zero =>
    obtain rfl : pos = size := by omega
    exact ⟨[], by simp [chunkLoop], rfl⟩
  | succ fuel ih =>
    by_cases hend : size ≤ pos
    · obtain rfl : pos = size := by omega
      exact ⟨[], by simp [chunkLoop], rfl⟩
    · obtain ⟨htiles, hle, hmoves⟩ := batch_spec hsize CHUNK_CONCURRENCY hpos
      have hlt := hmoves (by decide) (by omega)
      obtain ⟨requests, hrun, hrest⟩ := ih hle (by omega)
      refine ⟨_, ?_, htiles.append hrest⟩
      simp [chunkLoop, hend, hrun]

theorem batch_stuck (n : ℕ) (hpos : pos + 2 ^ 32 ≤ size) :
    (batch size n pos).2 + 2 ^ 32 ≤ size := by
  induction n generalizing pos with
  | zero => exact hpos
  | succ n ih =>
    rw [batch]
    split
    · exact hpos
    · refine ih ?_
      simp only [want]
      omega

theorem chunkLoop_stuck (fuel : ℕ) (hpos : pos + 2 ^ 32 ≤ size) :
    chunkLoop size fuel pos = none := by
  have hlt : ¬ size ≤ pos := by omega
  induction fuel generalizing pos with
  | zero => simp [chunkLoop, hlt]
  | succ fuel ih =>
    have hnext := batch_stuck CHUNK_CONCURRENCY hpos
    simp [chunkLoop, hlt, ih hnext (by omega)]

/-- **The loop ends, and covers the file chunk by chunk, if and only if the file is smaller than
4 GiB**, pinned or not. -/
theorem chunkLoop_ends_iff (size : ℕ) :
    (∃ fuel requests, chunkLoop size fuel 0 = some requests ∧ Tiles 0 size requests) ↔
      size < 2 ^ 32 := by
  constructor
  · rintro ⟨fuel, requests, hrun, -⟩
    by_contra hlarge
    rw [chunkLoop_stuck fuel (by omega)] at hrun
    cases hrun
  · intro hsize
    exact ⟨size, chunkLoop_spec hsize size (Nat.zero_le _) (by omega)⟩

/-- A pinned file of 4 GiB is wanted, and the first request asks for nothing, again and again. -/
theorem chunkLoop_pinned :
    AutoCache.wants ⟨2 ^ 20, 2 ^ 30, ⟨fun path => path == ['a'], false, none⟩⟩ ⟨['a']⟩
    (2 ^ 32) = true ∧
      (batch (2 ^ 32) CHUNK_CONCURRENCY 0).1 = List.replicate 8 (0, 0) ∧
      ¬ ∃ fuel, (chunkLoop (2 ^ 32) fuel 0).isSome = true := by
  refine ⟨by decide, by decide, ?_⟩
  rintro ⟨fuel, hrun⟩
  rw [chunkLoop_stuck fuel (by omega)] at hrun
  cases hrun

end AlloyFs.Walker
