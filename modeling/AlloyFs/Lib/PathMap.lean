import Mathlib.Data.List.Infix
import Mathlib.Tactic.Common

/-!
# Finite trees keyed by paths

A tree of named entries, as a finite map from paths to values.  A path is the list
of the names on the way to the entry; everything whose path extends `p` lies below
`p`.  The map is a list of entries, searched from the front, so that trees can be
written down and evaluated; every fact about it is stated through `get`.

Besides the operations of a map there are the two a tree needs: whether anything
lies strictly below a path, and moving a subtree to another path.

## Main definitions

* `PathMap α ν` with `get`, `put`, `del`.
* `PathMap.below` — something lies strictly below a path.
* `PathMap.move` — a subtree moves to another path, replacing what is there.
* `PathMap.get_move` — where everything is afterwards.
-/

namespace AlloyFs

open List

/-- A finite map from paths to values. -/
abbrev PathMap (α ν : Type) := List (List α × ν)

namespace PathMap

variable {α ν : Type} [DecidableEq α] {p q : List α}

/-- The value at a path. -/
def get : PathMap α ν → List α → Option ν
  | [], _ => none
  | e :: m, p => if e.1 = p then some e.2 else get m p

/-- Set the value at a path. -/
def put (m : PathMap α ν) (p : List α) (v : ν) : PathMap α ν := (p, v) :: m

/-- Remove the value at a path. -/
def del (m : PathMap α ν) (p : List α) : PathMap α ν := m.filter fun e => decide (e.1 ≠ p)

/-- Something lies strictly below the path. -/
def below (m : PathMap α ν) (p : List α) : Bool :=
  m.any fun e => decide (p <+: e.1) && decide (e.1 ≠ p)

/-- Where a path ends up when the subtree at `src` moves to `dst`. -/
def rekey (src dst p : List α) : List α :=
  if src <+: p then dst ++ p.drop src.length else p

/-- Move the subtree at `src` to `dst`, in place of everything that was there. -/
def move (m : PathMap α ν) (src dst : List α) : PathMap α ν :=
  (m.filter fun e => !decide (dst <+: e.1)).map fun e => (rekey src dst e.1, e.2)

@[simp] theorem get_nil (p : List α) : get ([] : PathMap α ν) p = none := rfl

theorem get_cons (e : List α × ν) (m : PathMap α ν) (p : List α) :
    get (e :: m) p = if e.1 = p then some e.2 else get m p := rfl

theorem mem_of_get {m : PathMap α ν} {v : ν} (h : get m p = some v) : (p, v) ∈ m := by
  induction m with
  | nil => cases h
  | cons e m ih =>
    rw [get_cons] at h
    by_cases he : e.1 = p
    · rw [if_pos he] at h
      obtain rfl := Option.some.inj h
      exact he ▸ mem_cons_self
    · rw [if_neg he] at h
      exact mem_cons_of_mem _ (ih h)

section

variable (m : PathMap α ν)
include m

@[simp] theorem get_put_self (p : List α) (v : ν) : get (put m p v) p = some v := by
  rw [put, get_cons, if_pos rfl]

theorem get_put_of_ne (v : ν) (h : q ≠ p) : get (put m p v) q = get m q := by
  rw [put, get_cons, if_neg (Ne.symm h)]

theorem get_filter (f : List α → Bool) (p : List α) :
    get (m.filter fun e => f e.1) p = if f p then get m p else none := by
  induction m with
  | nil => simp
  | cons e m ih =>
    by_cases hf : f e.1 = true
    · rw [filter_cons_of_pos (by exact hf), get_cons, get_cons, ih]
      by_cases he : e.1 = p
      · rw [if_pos he, if_pos he, if_pos (he ▸ hf)]
      · rw [if_neg he, if_neg he]
    · rw [filter_cons_of_neg (by exact hf), ih, get_cons]
      by_cases he : e.1 = p
      · rw [if_neg (he ▸ hf), if_neg (he ▸ hf)]
      · rw [if_neg he]

@[simp] theorem get_del_self (p : List α) : get (del m p) p = none := by
  rw [del, get_filter m (fun q => decide (q ≠ p))]
  simp

theorem get_del_of_ne (h : q ≠ p) : get (del m p) q = get m q := by
  rw [del, get_filter m (fun q => decide (q ≠ p))]
  simp [h]

end

theorem get_of_not_below {m : PathMap α ν} (h : below m p = false)
    (hpq : p <+: q) (hne : q ≠ p) : get m q = none := by
  induction m with
  | nil => rfl
  | cons e m ih =>
    simp only [below, any_cons, Bool.or_eq_false_iff] at h
    rw [get_cons]
    by_cases he : e.1 = q
    · simp [he, hpq, hne] at h
    · rw [if_neg he]
      exact ih h.2

theorem get_map (m : PathMap α ν) (f : List α → List α) (h : ∀ e ∈ m, f e.1 = q ↔ e.1 = p) :
    get (m.map fun e => (f e.1, e.2)) q = get m p := by
  induction m with
  | nil => rfl
  | cons e m ih =>
    rw [map_cons, get_cons, get_cons, ih fun e' he' => h e' (mem_cons_of_mem _ he')]
    by_cases he : e.1 = p
    · rw [if_pos he, if_pos ((h e mem_cons_self).mpr he)]
    · rw [if_neg he, if_neg fun hf => he ((h e mem_cons_self).mp hf)]

theorem get_map_eq_none (m : PathMap α ν) (f : List α → List α)
    (h : ∀ e ∈ m, f e.1 ≠ q) : get (m.map fun e => (f e.1, e.2)) q = none := by
  induction m with
  | nil => rfl
  | cons e m ih =>
    rw [map_cons, get_cons, if_neg (h e mem_cons_self)]
    exact ih fun e' he' => h e' (mem_cons_of_mem _ he')

/-- **Where everything is after a move** between paths neither of which lies below
the other: at and below `dst` is what was at and below `src`, there is nothing at and
below `src`, and the rest is as it was. -/
theorem get_move (m : PathMap α ν) {src dst : List α} (h₁ : ¬ src <+: dst) (h₂ : ¬ dst <+: src)
    (p : List α) :
    get (move m src dst) p =
      if dst <+: p then get m (src ++ p.drop dst.length)
      else if src <+: p then none else get m p := by
  have hkeep : ∀ e ∈ m.filter fun e => !decide (dst <+: e.1), ¬ dst <+: e.1 := by
    intro e he
    simpa using (mem_filter.mp he).2
  unfold move
  by_cases hd : dst <+: p
  · obtain ⟨t, rfl⟩ := hd
    rw [if_pos (prefix_append dst t), drop_left]
    have hsrc : ¬ dst <+: src ++ t := fun h =>
      ( prefix_or_prefix_of_prefix h (prefix_append src t)).elim h₂ h₁
    have hfind := get_map (m.filter fun e => !decide (dst <+: e.1)) (rekey src dst)
      (p := src ++ t) (q := dst ++ t) (fun e he => by
        by_cases hs : src <+: e.1
        · obtain ⟨t', ht'⟩ := hs
          simp only [rekey, ← ht', prefix_append, if_true, drop_left,
            append_cancel_left_eq]
        · rw [rekey, if_neg hs]
          refine iff_of_false (fun hq => hkeep e he ?_) fun hq => hs ?_
          · rw [hq]
            exact prefix_append dst t
          · rw [hq]
            exact prefix_append src t)
    rw [hfind, get_filter m (fun q => !decide (dst <+: q))]
    simp [hsrc]
  · rw [if_neg hd]
    by_cases hs : src <+: p
    · rw [if_pos hs]
      refine get_map_eq_none _ _ fun e _ hq => ?_
      by_cases hse : src <+: e.1
      · rw [rekey, if_pos hse] at hq
        exact hd (hq ▸ prefix_append dst _)
      · rw [rekey, if_neg hse] at hq
        exact hse (hq ▸ hs)
    · rw [if_neg hs]
      have hfind := get_map (m.filter fun e => !decide (dst <+: e.1)) (rekey src dst)
        (p := p) (q := p) (fun e _ => by
          by_cases hse : src <+: e.1
          · rw [rekey, if_pos hse]
            refine iff_of_false (fun hq => hd ?_) fun hq => hs (hq ▸ hse)
            rw [← hq]
            exact prefix_append dst _
          · rw [rekey, if_neg hse])
      rw [hfind, get_filter m (fun q => !decide (dst <+: q))]
      simp [hd]

end PathMap
end AlloyFs
