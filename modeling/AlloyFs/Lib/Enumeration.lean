import Mathlib.Data.List.Sort
import Mathlib.Data.List.Nodup
import Mathlib.Order.Basic

/-!
# Reading a list by position while it changes

A list is read in chunks, and all that is kept between two chunks is a position.  The list may be
another one each time.  An element that is in it throughout is read exactly once if no change
carries it over the position: `due` counts how often it has been read, and once more if it is
still ahead.  Reading a chunk does not change that number, and a change of the list changes it
exactly when the element gets to the other side.

## Main definitions

* `Enumeration` — a position, and what has been read; `Enumeration.read` — read a chunk.
* `Enumeration.due` — how often an element will have been read if nothing moves any more.
* `idxOf_eq_countP` — in a sorted list the place of an element is the number of smaller ones.
-/

namespace AlloyFs

open List

universe u

variable {α : Type u}

section Place

variable [BEq α] [LawfulBEq α] {a : α} {l : List α}

/-- An element that is in a list once is in a beginning of it once or not at all. -/
theorem count_take_of_count_eq_one (h : l.count a = 1) (n : ℕ) :
    (l.take n).count a = if l.idxOf a < n then 1 else 0 := by
  have hmem : a ∈ l := count_pos_iff.mp (by omega)
  by_cases hlt : l.idxOf a < n
  · rw [if_pos hlt]
    have hin : a ∈ l.take n := by
      rw [mem_take_iff_getElem]
      have hlen := idxOf_lt_length_iff.mpr hmem
      exact ⟨l.idxOf a, by omega, getElem_idxOf hlen⟩
    have hle := (take_sublist n l).count_le a
    have hpos := count_pos_iff.mpr hin
    omega
  · rw [if_neg hlt, count_eq_zero]
    intro hin
    obtain ⟨i, hi, heq⟩ := mem_take_iff_getElem.mp hin
    apply hlt
    have hfirst : l.idxOf a ≤ i := by
      by_contra hgt
      have hne := not_of_lt_findIdx (show i < l.findIdx (· == a) from Nat.not_le.mp hgt)
      simp [heq] at hne
    omega

theorem idxOf_eq_countP {r : α → α → Prop} [DecidableRel r] [Std.Asymm r] (hl : l.Pairwise r)
    (h : a ∈ l) : l.idxOf a = l.countP (fun b => decide (r b a)) := by
  have hirrefl : ¬ r a a := fun hr => Std.Asymm.asymm a a hr hr
  induction l with
  | nil => cases h
  | cons b l ih =>
    rw [pairwise_cons] at hl
    rcases mem_cons.mp h with rfl | htail
    · have hnone : l.countP (fun c => decide (r c a)) = 0 := by
        rw [countP_eq_zero]
        intro c hc
        simpa using Std.Asymm.asymm a c (hl.1 c hc)
      simp [hnone, hirrefl]
    · have hr : r b a := hl.1 a htail
      have hne : b ≠ a := by
        rintro rfl
        exact hirrefl hr
      rw [idxOf_cons_ne _ hne, ih hl.2 htail, countP_cons_of_pos (by simpa using hr)]

end Place

/-- How far a list has been read. -/
structure Enumeration (α : Type u) where
  cursor : ℕ
  out : List α

namespace Enumeration

/-- Read the next elements, at most `n` of them. -/
def read (e : Enumeration α) (l : List α) (n : ℕ) : Enumeration α :=
  ⟨e.cursor + ((l.drop e.cursor).take n).length, e.out ++ (l.drop e.cursor).take n⟩

theorem length_le_of_chunk_eq_nil {e : Enumeration α} {l : List α} {n : ℕ} (hn : 0 < n)
    (h : (l.drop e.cursor).take n = []) :
    l.length ≤ e.cursor := by
  rcases take_eq_nil_iff.mp h with h0 | hnil
  · omega
  · exact drop_eq_nil_iff.mp hnil

variable [BEq α] [LawfulBEq α] {e : Enumeration α} {l l' : List α} {a : α}

/-- How often an element will have been read if nothing moves any more. -/
def due (e : Enumeration α) (l : List α) (a : α) : ℕ :=
  e.out.count a + if l.idxOf a < e.cursor then 0 else 1

theorem count_chunk (h : l.count a = 1) (c n : ℕ) :
    ((l.drop c).take n).count a + (if l.idxOf a < c then 1 else 0) =
      if l.idxOf a < c + n then 1 else 0 := by
  have hsplit : l.take (c + n) = l.take c ++ (l.drop c).take n := take_add
  have hcount := congrArg (count a) hsplit
  rw [count_append, count_take_of_count_eq_one h, count_take_of_count_eq_one h] at hcount
  omega

theorem due_read (h : l.count a = 1) (n : ℕ) : (e.read l n).due l a = e.due l a := by
  have hmem : l.idxOf a < l.length := idxOf_lt_length_iff.mpr (count_pos_iff.mp (by omega))
  have hchunk := count_chunk h e.cursor n
  have hlen : ((l.drop e.cursor).take n).length = min n (l.length - e.cursor) := by
    rw [length_take, length_drop]
  simp only [due, read, count_append, hlen]
  split_ifs at hchunk ⊢ <;> omega

omit [LawfulBEq α] in
/-- **A change of the list keeps what is due exactly if it leaves the element on its side.** -/
theorem due_eq_iff : e.due l' a = e.due l a ↔ (l.idxOf a < e.cursor ↔ l'.idxOf a < e.cursor) := by
  unfold due
  split_ifs <;> omega

theorem count_out_of_length_le (h : a ∈ l) (hend : l.length ≤ e.cursor) :
    e.out.count a = e.due l a := by
  have := idxOf_lt_length_iff.mpr h
  rw [due, if_pos (by omega), Nat.add_zero]

end Enumeration
end AlloyFs
