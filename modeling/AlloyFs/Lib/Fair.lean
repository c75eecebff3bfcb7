import AlloyFs.Lib.Transition
import Mathlib.Order.Nat

/-!
# Fair runs

An infinite run of a labelled step function takes one step at each moment, or none.  It is fair to a
task, given by its labels, if the task does not stay enabled for ever without being run.

Progress is proved with two rules.  `Run.Fair.leads` is for one step of a task: what holds until the
task runs, keeps it enabled, and is turned into the goal by it.  `Run.Fair.drains` is for as many
steps as a number that the task lowers.

## Main definitions

* `Run`, `Run.Meets`, `Run.Fair`.
* `Run.Fair.leads`, `Run.Fair.drains` — the rules.
* `Run.prepend` — a run with a finite run before it.
-/

namespace AlloyFs

universe u v

variable {σ : Type u} {ℓ : Type v} {step : σ → ℓ → Option σ}

/-- One moment of a run. -/
def Moment (step : σ → ℓ → Option σ) (s : σ) (l : Option ℓ) (s' : σ) : Prop :=
  match l with
  | none => s' = s
  | some l => step s l = some s'

/-- An infinite run. -/
structure Run (step : σ → ℓ → Option σ) where
  state : ℕ → σ
  label : ℕ → Option ℓ
  next : ∀ n, Moment step (state n) (label n) (state (n + 1))

variable {n : ℕ}

namespace Run

variable (ρ : Run step) {P : ℕ → Prop} {task : ℓ → Prop}

/-- Every step of the run meets the guard. -/
def Meets (ok : σ → ℓ → Prop) : Prop := ∀ n, ∀ l ∈ ρ.label n, ok (ρ.state n) l

/-- Some step of the task can be taken. -/
def Enabled (step : σ → ℓ → Option σ) (task : ℓ → Prop) (s : σ) : Prop :=
  ∃ l, task l ∧ (step s l).isSome = true

/-- The run is weakly fair to a task. -/
def Fair (task : ℓ → Prop) : Prop :=
  ∀ n, (∀ m, n ≤ m → Enabled step task (ρ.state m)) → ∃ m, n ≤ m ∧ ∃ l ∈ ρ.label m, task l

theorem next_cases (n : ℕ) : ρ.label n = none ∧ ρ.state (n + 1) = ρ.state n ∨
    ∃ l, ρ.label n = some l ∧ step (ρ.state n) l = some (ρ.state (n + 1)) := by
  have hn := ρ.next n
  cases hl : ρ.label n with
  | none =>
    rw [hl] at hn
    exact .inl ⟨rfl, hn⟩
  | some l =>
    rw [hl] at hn
    exact .inr ⟨l, rfl, hn⟩

variable {ρ}

theorem always_of_step (h : P n) (hstep : ∀ m, n ≤ m → P m → P (m + 1)) : ∀ m, n ≤ m → P m := by
  intro m hm
  induction m, hm using Nat.le_induction with
  | base => exact h
  | succ m hm ih => exact hstep m hm ih

theorem reaches {ok : σ → ℓ → Prop} (h : ρ.Meets ok) (n : ℕ) :
    Reaches step ok (ρ.state 0) (ρ.state n) := by
  induction n with
  | zero => exact .refl
  | succ n ih =>
    rcases ρ.next_cases n with ⟨-, hn⟩ | ⟨l, hl, hn⟩
    · exact hn ▸ ih
    · exact ih.tail (h n l hl) hn

/-- **One step of a task.**  Until the goal is reached `P` holds, and while it holds the task can
run, and does not without reaching the goal. -/
theorem Fair.leads (hf : ρ.Fair task) {Q : ℕ → Prop} (h : P n)
    (henabled : ∀ m, n ≤ m → P m → Enabled step task (ρ.state m))
    (hturn : ∀ m, n ≤ m → P m → P (m + 1) ∧ (∀ l ∈ ρ.label m, ¬ task l) ∨ Q (m + 1)) :
    ∃ m, n ≤ m ∧ Q m := by
  by_contra hno
  have hstay (m : ℕ) (hm : n ≤ m) (hp : P m) : P (m + 1) ∧ ∀ l ∈ ρ.label m, ¬ task l :=
    (hturn m hm hp).resolve_right fun hq => hno ⟨m + 1, hm.trans (Nat.le_succ m), hq⟩
  have hP : ∀ m, n ≤ m → P m := always_of_step h fun m hm hp => (hstay m hm hp).1
  obtain ⟨m, hm, l, hl, ht⟩ := hf n fun m hm => henabled m hm (hP m hm)
  exact (hstay m hm (hP m hm)).2 l hl ht

/-- **Several steps of a task.**  As long as the goal is not reached, a number does not grow, and
the task lowers it while it is not zero. -/
theorem Fair.drains (hf : ρ.Fair task) {Q : ℕ → Prop} (rank : ℕ → ℕ)
    (h : P n) (henabled : ∀ m, n ≤ m → P m → 0 < rank m → Enabled step task (ρ.state m))
    (hturn : ∀ m, n ≤ m → P m → P (m + 1) ∧ (rank (m + 1) < rank m ∨
      rank (m + 1) = rank m ∧ ∀ l ∈ ρ.label m, ¬ task l) ∨ Q (m + 1)) :
    ∃ m, n ≤ m ∧ (Q m ∨ P m ∧ rank m = 0) := by
  induction hr : rank n using Nat.strong_induction_on generalizing n with
  | _ r ih =>
    subst hr
    by_cases hzero : rank n = 0
    · exact ⟨n, le_rfl, .inr ⟨h, hzero⟩⟩
    obtain ⟨m, hm, hq | ⟨hp, hlt⟩⟩ : ∃ m, n ≤ m ∧ (Q m ∨ P m ∧ rank m < rank n) := by
      refine hf.leads (P := fun m => P m ∧ rank m = rank n) ⟨h, rfl⟩ ?_ ?_
      · rintro m hm ⟨hp, hr⟩
        exact henabled m hm hp (by omega)
      · rintro m hm ⟨hp, hr⟩
        rcases hturn m hm hp with ⟨hp', hlt | ⟨heq, hno⟩⟩ | hq
        · exact .inr (.inr ⟨hp', by omega⟩)
        · exact .inl ⟨⟨hp', by omega⟩, hno⟩
        · exact .inr (.inl hq)
    · exact ⟨m, hm, .inl hq⟩
    · obtain ⟨m', hm', hgoal⟩ := ih (rank m) hlt hp
        (fun k hk => henabled k (hm.trans hk)) (fun k hk => hturn k (hm.trans hk)) rfl
      exact ⟨m', hm.trans hm', hgoal⟩

/-! ## A run at rest -/

/-- The run that rests for ever. -/
def still (s : σ) : Run step := ⟨fun _ => s, fun _ => none, fun _ => rfl⟩

/-- One step before a run. -/
def cons (s : σ) (l : ℓ) (ρ : Run step) (h : step s l = some (ρ.state 0)) : Run step where
  state := fun n => match n with
    | 0 => s
    | n + 1 => ρ.state n
  label := fun n => match n with
    | 0 => some l
    | n + 1 => ρ.label n
  next := fun n => match n with
    | 0 => h
    | n + 1 => ρ.next n

/-- **A run with a finite run before it.** -/
theorem prepend (ρ : Run step) (ls : List ℓ) {s : σ} (h : exec step s ls = some (ρ.state 0)) :
    ∃ ρ' : Run step, (∀ n, ρ'.state (ls.length + n) = ρ.state n) ∧
      (∀ n, ρ'.label (ls.length + n) = ρ.label n) ∧ (∀ n l, ls[n]? = some l → ρ'.label n = some l) ∧
      (∀ n, n ≤ ls.length → exec step s (ls.take n) = some (ρ'.state n)) ∧
      ∀ ok, Allowed step ok s ls → ρ.Meets ok → ρ'.Meets ok := by
  induction ls generalizing s with
  | nil =>
    refine ⟨ρ, fun n => ?_, fun n => ?_, nofun, fun n hn => ?_, fun _ _ => id⟩
    · rw [List.length_nil, Nat.zero_add]
    · rw [List.length_nil, Nat.zero_add]
    · rw [Nat.le_zero.mp hn]
      exact h
  | cons l ls ih =>
    rw [exec_cons, Option.bind_eq_some_iff] at h
    obtain ⟨t, ht, h⟩ := h
    obtain ⟨ρ', hstate, hlabel, hfirst, htake, hmeets⟩ := ih h
    have h₀ : ρ'.state 0 = t := (Option.some.inj (htake 0 (Nat.zero_le _))).symm
    refine ⟨cons s l ρ' (h₀ ▸ ht), fun n => ?_, fun n => ?_, fun n l' hl => ?_, fun n hn => ?_,
      fun ok hok hρ => ?_⟩
    · rw [List.length_cons, Nat.add_right_comm]
      exact hstate n
    · rw [List.length_cons, Nat.add_right_comm]
      exact hlabel n
    · cases n with
      | zero => exact hl
      | succ n => exact hfirst n l' hl
    · cases n with
      | zero => rfl
      | succ n =>
        have htail := htake n (Nat.le_of_succ_le_succ hn)
        change exec step s ((l :: ls).take (n + 1)) = some (ρ'.state n)
        rwa [List.take_succ_cons, exec_cons, ht]
    · intro n l' hl
      cases n with
      | zero =>
        cases hl
        exact hok.1
      | succ n => exact hmeets ok (hok.2 t ht) hρ n l' hl

/-- What holds in the finite run from some moment on, and in the run after it. -/
theorem always_prepend {ρ' : Run step} {ls : List ℓ} {s : σ} {P : σ → Prop}
    (hstate : ∀ m, ρ'.state (ls.length + m) = ρ.state m)
    (htake : ∀ m, m ≤ ls.length → exec step s (ls.take m) = some (ρ'.state m))
    (hfirst : ∀ m, n ≤ m → m < ls.length → ∀ t ∈ exec step s (ls.take m), P t)
    (h : ∀ m, P (ρ.state m)) (m : ℕ) (hm : n ≤ m) : P (ρ'.state m) := by
  rcases Nat.lt_or_ge m ls.length with hlt | hge
  · exact hfirst m hm hlt _ (htake m (Nat.le_of_lt hlt))
  · obtain ⟨i, rfl⟩ := Nat.exists_eq_add_of_le hge
    rw [hstate]
    exact h i

theorem Fair.prepend {ρ' : Run step} {k : ℕ} (hf : ρ.Fair task)
    (hstate : ∀ n, ρ'.state (k + n) = ρ.state n) (hlabel : ∀ n, ρ'.label (k + n) = ρ.label n) :
    ρ'.Fair task := by
  intro n henabled
  obtain ⟨m, hm, l, hl, ht⟩ := hf n fun m hm => hstate m ▸ henabled (k + m) (by omega)
  exact ⟨k + m, by omega, l, by rwa [hlabel], ht⟩

end Run

end AlloyFs
