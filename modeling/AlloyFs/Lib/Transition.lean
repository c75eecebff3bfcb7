import Mathlib.Logic.Relation

/-!
# Runs of a labelled step function

A component whose parties interleave is given by one partial step function: the
label says which party moves and how the environment answers, and `none` means
that the move is not enabled.  This module supplies the two notions every such
component is judged by — the states a guarded run can reach, and the rule that
turns a step lemma into a run lemma — together with an executable run, so that a
concrete schedule can be evaluated.

## Main definitions

* `Reaches step ok s₀ s` — some run from `s₀` whose every step met `ok` in the
  state before it ends in `s`.
* `exec step s ls` — run the labels `ls` in order; `Allowed` says that every step
  of the schedule meets the guard.
* `Reaches.invariant` — a property that holds at the start and survives every
  guarded step holds in every state reached.
-/

namespace AlloyFs

universe u v

variable {σ : Type u} {ℓ : Type v} {step : σ → ℓ → Option σ} {ok : σ → ℓ → Prop} {s₀ s : σ}

/-- The states a run from `s₀` reaches when every step satisfies the guard `ok`
in the state it is taken in.  An unguarded run is the case `fun _ _ => True`. -/
inductive Reaches (step : σ → ℓ → Option σ) (ok : σ → ℓ → Prop) (s₀ : σ) : σ → Prop
  | refl : Reaches step ok s₀ s₀
  | tail {s s' : σ} {l : ℓ} :
      Reaches step ok s₀ s → ok s l → step s l = some s' → Reaches step ok s₀ s'

/-- **The invariant rule.**  What holds at the start and is kept by every guarded
step holds in every state a guarded run reaches. -/
theorem Reaches.invariant (P : σ → Prop) (h₀ : P s₀)
    (hstep : ∀ s l s', P s → ok s l → step s l = some s' → P s')
    (h : Reaches step ok s₀ s) : P s := by
  induction h with
  | refl => exact h₀
  | tail _ hok hs ih => exact hstep _ _ _ ih hok hs

variable {s' : σ}

theorem Reaches.trans
    (h : Reaches step ok s₀ s) (h' : Reaches step ok s s') : Reaches step ok s₀ s' := by
  induction h' with
  | refl => exact h
  | tail _ hok hs ih => exact ih.tail hok hs

/-- **Simulation with stuttering.**  If every step is a step of a smaller component or leaves
it alone, then what a run does to that component is a run of it. -/
theorem Reaches.simulate {τ : Type*} {ℓ' : Type*}
    {step' : τ → ℓ' → Option τ} {t₀ : τ} (f : σ → τ) (h₀ : f s₀ = t₀)
    (hstep : ∀ s l s', step s l = some s' → f s' = f s ∨ ∃ l', step' (f s) l' = some (f s'))
    (h : Reaches step (fun _ _ => True) s₀ s) : Reaches step' (fun _ _ => True) t₀ (f s) := by
  induction h with
  | refl => rw [h₀]; exact .refl
  | tail _ _ hs ih =>
    rcases hstep _ _ _ hs with heq | ⟨l', hl'⟩
    · rw [heq]
      exact ih
    · exact ih.tail trivial hl'

theorem of_guard {p : Prop} [Decidable p] (h : (if p then some s else none) = some s') :
    p ∧ s = s' := by
  simpa using h

theorem of_guard_not {p : Prop} [Decidable p]
    (h : (if p then none else some s) = some s') : ¬ p ∧ s = s' := by
  simpa using h

/-- Run the labels in order; `none` as soon as one of them is not enabled. -/
def exec (step : σ → ℓ → Option σ) : σ → List ℓ → Option σ
  | s, [] => some s
  | s, l :: ls =>
    match step s l with
    | none => none
    | some s' => exec step s' ls

@[simp] theorem exec_nil (step : σ → ℓ → Option σ) (s : σ) : exec step s [] = some s := rfl

@[simp] theorem exec_cons (step : σ → ℓ → Option σ) (s : σ) (l : ℓ) (ls : List ℓ) :
    exec step s (l :: ls) = (step s l).bind fun s' => exec step s' ls := by
  simp only [exec]
  cases step s l <;> rfl

theorem exec_append (step : σ → ℓ → Option σ) (ls ls' : List ℓ) :
    ∀ s, exec step s (ls ++ ls') = (exec step s ls).bind fun s' => exec step s' ls' := by
  induction ls with
  | nil => intro s; rfl
  | cons l ls ih =>
    intro s
    simp only [List.cons_append, exec_cons, Option.bind_assoc, ih]

/-- Every step of the schedule meets the guard in the state it is taken in. -/
def Allowed (step : σ → ℓ → Option σ) (ok : σ → ℓ → Prop) : σ → List ℓ → Prop
  | _, [] => True
  | s, l :: ls => ok s l ∧ ∀ s' ∈ step s l, Allowed step ok s' ls

instance Allowed.decidable (step : σ → ℓ → Option σ) (ok : σ → ℓ → Prop)
    [∀ s l, Decidable (ok s l)] : ∀ s ls, Decidable (Allowed step ok s ls)
  | _, [] => inferInstanceAs (Decidable True)
  | s, l :: ls =>
    have : ∀ s', Decidable (Allowed step ok s' ls) := fun s' => decidable step ok s' ls
    inferInstanceAs (Decidable (ok s l ∧ ∀ s' ∈ step s l, Allowed step ok s' ls))

/-- A schedule that is allowed throughout ends in a state that a guarded run
reaches. -/
theorem reaches_of_exec (h₀ : Reaches step ok s₀ s) :
    ∀ ls, Allowed step ok s ls → exec step s ls = some s' → Reaches step ok s₀ s' := by
  intro ls
  induction ls generalizing s with
  | nil =>
    intro _ h
    simp only [exec_nil, Option.some.injEq] at h
    exact h ▸ h₀
  | cons l ls ih =>
    intro ha h
    rw [exec_cons, Option.bind_eq_some_iff] at h
    obtain ⟨t, ht, hrest⟩ := h
    exact ih (.tail h₀ ha.1 ht) (ha.2 t ht) hrest

theorem allowed_true (step : σ → ℓ → Option σ) (ls : List ℓ) :
    ∀ s, Allowed step (fun _ _ => True) s ls := by
  induction ls with
  | nil => intro s; trivial
  | cons l ls ih => intro s; exact ⟨trivial, fun s' _ => ih s'⟩

theorem exists_reaches_of_exec
    {α : Type} (ls : List ℓ) (obs : σ → α) (a : α) (ha : Allowed step ok s₀ ls)
    (h : (exec step s₀ ls).map obs = some a) :
    ∃ s, Reaches step ok s₀ s ∧ obs s = a := by
  obtain ⟨s, hs, hobs⟩ := Option.map_eq_some_iff.mp h
  exact ⟨s, reaches_of_exec .refl ls ha hs, hobs⟩

/-- A state reached by a schedule, described by a property that can be decided, and whatever holds
in every state reached. -/
theorem exists_of_run {P Q : σ → Prop} [DecidablePred P] (ls : List ℓ) (ha : Allowed step ok s₀ ls)
    (hQ : ∀ s, Reaches step ok s₀ s → Q s)
    (h : (exec step s₀ ls).any (fun s => decide (P s)) = true) : ∃ s, Q s ∧ P s := by
  cases hs : exec step s₀ ls with
  | none => simp [hs] at h
  | some s => exact ⟨s, hQ s (reaches_of_exec .refl ls ha hs), by simpa [hs] using h⟩

end AlloyFs
