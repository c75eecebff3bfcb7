import Mathlib.Data.List.Basic

/-!
# Numbered items in a line

A receiver that remembers only the highest number it has seen relies on the order of what comes:
when an item reaches it, whatever has a lower number and is owed to it must have come before.  An
item may also say that something is missing; what comes after such a gap need not be complete.

`Unbroken` says this of a line of items.  The items that count are marked; the others may be
anything.

## Main definitions

* `Unbroken` — no item that counts overtakes one that is owed.
* `unbroken_append` — a line is extended at its end.
* `unbroken_of_pairwise` — an ascending line that has all that is owed.
-/

namespace AlloyFs

universe u

variable {α : Type u} {num : α → ℕ} {gap owed done owed' done' : α → Prop} {line : List (Bool × α)}

/-- Every item that counts comes after all that is owed and has a lower number, or after a gap. -/
def Unbroken (num : α → ℕ) (gap owed : α → Prop) (done : α → Prop) : List (Bool × α) → Prop
  | [] => True
  | (counts, a) :: line =>
    gap a ∨ ((counts = true → ∀ b, owed b → num b ≤ num a → done b ∨ b = a) ∧
      Unbroken num gap owed (fun b => done b ∨ (counts = true ∧ b = a)) line)

theorem Unbroken.mono (h : Unbroken num gap owed done line)
    (howed : ∀ p ∈ line, p.1 = true → ∀ b, owed' b → num b ≤ num p.2 → owed b)
    (hdone : ∀ b, done b → done' b) : Unbroken num gap owed' done' line := by
  induction line generalizing done done' with
  | nil => trivial
  | cons p line ih =>
    obtain ⟨counts, a⟩ := p
    refine h.imp_right fun ⟨hhead, htail⟩ => ⟨fun hc b hb hle => ?_, ?_⟩
    · exact (hhead hc b (howed _ List.mem_cons_self hc b hb hle) hle).imp_left (hdone b)
    · exact ih htail (fun p hp => howed p (List.mem_cons_of_mem _ hp))
        fun b => Or.imp_left (hdone b)

theorem unbroken_of_done (h : ∀ p ∈ line, p.1 = true → ∀ b, owed b → num b ≤ num p.2 → done b) :
    Unbroken num gap owed done line := by
  induction line generalizing done with
  | nil => trivial
  | cons p line ih =>
    obtain ⟨counts, a⟩ := p
    refine .inr ⟨fun hc b hb hle => .inl (h _ List.mem_cons_self hc b hb hle), ih ?_⟩
    exact fun p hp hc b hb hle => .inl (h p (List.mem_cons_of_mem _ hp) hc b hb hle)

variable {more : List (Bool × α)}

theorem Unbroken.of_append
    (h : Unbroken num gap owed done (line ++ more)) : Unbroken num gap owed done line := by
  induction line generalizing done with
  | nil => trivial
  | cons p line ih => exact h.imp_right (And.imp_right ih)

/-- **A line that goes on**: what follows is a line of its own, after what is in the first, unless
there is a gap. -/
theorem unbroken_append (h : Unbroken num gap owed done line) (hmore : (∃ p ∈ line, gap p.2) ∨
      Unbroken num gap owed (fun b => done b ∨ (true, b) ∈ line) more) :
    Unbroken num gap owed done (line ++ more) := by
  induction line generalizing done with
  | nil =>
    rcases hmore with ⟨p, hp, -⟩ | hmore
    · cases hp
    · exact hmore.mono (fun _ _ _ _ hb _ => hb) fun b hb => hb.resolve_right nofun
  | cons p line ih =>
    obtain ⟨counts, a⟩ := p
    rw [List.cons_append]
    rcases h with hgap | ⟨hhead, htail⟩
    · exact .inl hgap
    rcases hmore with ⟨p, hp, hgap⟩ | hmore
    · rcases List.mem_cons.mp hp with rfl | hp
      · exact .inl hgap
      · exact .inr ⟨hhead, ih htail (.inl ⟨p, hp, hgap⟩)⟩
    · refine .inr ⟨hhead, ih htail (.inr (hmore.mono (fun _ _ _ _ hb _ => hb) ?_))⟩
      rintro b (hdone | hmem)
      · exact .inl (.inl hdone)
      · rcases List.mem_cons.mp hmem with heq | hmem
        · rw [Prod.mk.injEq] at heq
          exact .inl (.inr ⟨heq.1.symm, heq.2⟩)
        · exact .inr hmem

/-- **An ascending line** that has whatever is owed and not done. -/
theorem unbroken_of_pairwise {items : List α} (hasc : items.Pairwise fun a b => num a < num b)
    (h : ∀ a ∈ items, ∀ b, owed b → num b ≤ num a → done b ∨ b ∈ items) :
    Unbroken num gap owed done (items.map (true, ·)) := by
  induction items generalizing done with
  | nil => trivial
  | cons a items ih =>
    obtain ⟨hlt, hasc⟩ := List.pairwise_cons.mp hasc
    refine .inr ⟨fun _ b hb hle => ?_, ih hasc fun a' ha' b hb hle => ?_⟩
    · rcases h a List.mem_cons_self b hb hle with hdone | hmem
      · exact .inl hdone
      · rcases List.mem_cons.mp hmem with rfl | hmem
        · exact .inr rfl
        · exact absurd (hlt b hmem) (Nat.not_lt.mpr hle)
    · rcases h a' (List.mem_cons_of_mem _ ha') b hb hle with hdone | hmem
      · exact .inl (.inl hdone)
      · rcases List.mem_cons.mp hmem with rfl | hmem
        · exact .inl (.inr ⟨rfl, rfl⟩)
        · exact .inr hmem

theorem unbroken_of_not_counts (h : ∀ p ∈ line, p.1 = false) :
    Unbroken num gap owed done line :=
  unbroken_of_done fun p hp hc => by rw [h p hp] at hc; cases hc

end AlloyFs
