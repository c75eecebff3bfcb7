import Mathlib.Tactic.Common

/-!
# Computations that change a state and may fail

A request handler reads and changes a state and may stop with an error, which keeps
what was done before it.  That is `EStateM` of the standard library; this module adds
the two ways to reason about it.

`bind_eq_ok` and its companions read a successful run backwards: what was returned by
each part, and in which state.  `Triple P m Q E` goes forwards: from a state in `P`
the computation ends in `Q` with its value or fails in `E`.

## Main definitions

* `Act.orFail`, `Act.ensure`, `Act.onSome`, `Act.lens`, `Act.attempt` — what handlers are
  made of.
* `Act.final` — the state at the end, whichever it is.
* `Act.Triple` with `Triple.bind`, `Triple.orFail`, `Triple.conseq`; `Act.Keeps`.
* `Act.Inert`, `Act.Fixes` — nothing changes, or nothing that a view shows.
-/

namespace AlloyFs
namespace Act

variable {ε σ τ α β : Type} {a : α} {g : α → β} {F : σ → Prop}

/-- Return the value or fail with the error: the `?` operator. -/
def orFail (r : Except ε α) : EStateM ε σ α :=
  match r with
  | .ok a => pure a
  | .error e => throw e

/-- Fail unless the condition holds. -/
def ensure (b : Bool) (e : ε) : EStateM ε σ Unit := if b then pure () else throw e

/-- Act on a value if there is one. -/
def onSome (o : Option α) (f : α → EStateM ε σ Unit) : EStateM ε σ Unit :=
  match o with
  | some a => f a
  | none => pure ()

/-- Run a function that may fail on a part of the state. -/
def lens (view : σ → τ) (put : σ → τ → σ) (f : τ → Except ε (α × τ)) : EStateM ε σ α := fun s =>
  match f (view s) with
  | .ok (a, t) => .ok a (put s t)
  | .error e => .error e s

/-- Go on with how a computation ended. -/
def attempt (m : EStateM ε σ α) : EStateM ε σ (Except ε α) := fun s =>
  match m s with
  | .ok a s' => .ok (.ok a) s'
  | .error e s' => .ok (.error e) s'

/-- The state a computation ends in. -/
def final : EStateM.Result ε σ α → σ
  | .ok _ s => s
  | .error _ s => s

variable {m : EStateM ε σ α} {f : α → EStateM ε σ β} {s t : σ}

/-! ## Running a computation -/

theorem bind_of_ok (h : m s = .ok a t) : (m >>= f) s = f a t := by
  change EStateM.bind m f s = _
  rw [EStateM.bind.eq_def, h]

theorem bind_of_error {e : ε} (h : m s = .error e t) : (m >>= f) s = .error e t := by
  change EStateM.bind m f s = _
  rw [EStateM.bind.eq_def, h]

theorem get_bind (f : σ → EStateM ε σ β) (s : σ) : (get >>= f) s = f s s := rfl

theorem ensure_run (b : Bool) (e : ε) (s : σ) :
    (ensure b e : EStateM ε σ Unit) s = if b then .ok () s else .error e s := by
  cases b <;> rfl

theorem final_map : final ((g <$> m) s) = final (m s) := by
  change final (EStateM.map g m s) = _
  rw [EStateM.map.eq_def]
  cases m s <;> rfl

/-! ## Reading a successful run backwards -/

theorem bind_eq_ok {b : β} :
    (m >>= f) s = .ok b t ↔ ∃ a s', m s = .ok a s' ∧ f a s' = .ok b t := by
  change EStateM.bind m f s = _ ↔ _
  rw [EStateM.bind.eq_def]
  cases h : m s with
  | ok a s' =>
    constructor
    · intro hf
      exact ⟨a, s', rfl, hf⟩
    · rintro ⟨a', s'', heq, hf⟩
      cases heq
      exact hf
  | error e s' =>
    constructor
    · intro hf
      cases hf
    · rintro ⟨_, _, heq, _⟩
      cases heq

theorem pure_eq_ok {b : α} : (pure a : EStateM ε σ α) s = .ok b t ↔ b = a ∧ t = s := by
  change EStateM.Result.ok a s = _ ↔ _
  constructor
  · intro h
    cases h
    exact ⟨rfl, rfl⟩
  · rintro ⟨rfl, rfl⟩
    rfl

theorem map_eq_ok {b : β} :
    (g <$> m) s = .ok b t ↔ ∃ a, m s = .ok a t ∧ b = g a := by
  change (m >>= fun a => pure (g a)) s = _ ↔ _
  rw [bind_eq_ok]
  constructor
  · rintro ⟨a, s', hm, hp⟩
    obtain ⟨hb, ht⟩ := pure_eq_ok.mp hp
    exact ⟨a, ht ▸ hm, hb⟩
  · rintro ⟨a, hm, hb⟩
    exact ⟨a, t, hm, pure_eq_ok.mpr ⟨hb, rfl⟩⟩

theorem orFail_eq_ok {r : Except ε α} :
    (orFail r : EStateM ε σ α) s = .ok a t ↔ r = .ok a ∧ t = s := by
  cases r with
  | ok b =>
    rw [orFail, pure_eq_ok, Except.ok.injEq]
    exact and_congr_left fun _ => eq_comm
  | error e =>
    constructor
    · intro h
      cases h
    · rintro ⟨h, _⟩
      cases h

theorem ensure_eq_ok {b : Bool} {e : ε} {u : Unit} :
    (ensure b e : EStateM ε σ Unit) s = .ok u t ↔ b = true ∧ t = s := by
  cases b with
  | true => rw [ensure, if_pos rfl, pure_eq_ok]; simp
  | false =>
    constructor
    · intro h
      cases h
    · rintro ⟨h, _⟩
      cases h

variable {put : σ → τ → σ} {view : σ → τ}

theorem lens_eq_ok {f : τ → Except ε (α × τ)} :
    lens view put f s = .ok a t ↔ ∃ u, f (view s) = .ok (a, u) ∧ t = put s u := by
  rw [lens]
  split
  · next b u hf =>
    rw [hf]
    constructor
    · intro h
      cases h
      exact ⟨u, rfl, rfl⟩
    · rintro ⟨u', h, rfl⟩
      cases h
      rfl
  · next e hf =>
    rw [hf]
    constructor
    · intro h
      cases h
    · rintro ⟨u', h, _⟩
      cases h

/-! ## Triples -/

/-- From `P` the computation returns in `Q` or fails in `E`. -/
def Triple (P : σ → Prop) (m : EStateM ε σ α) (Q : α → σ → Prop) (E : σ → Prop) : Prop :=
  ∀ s, P s → match m s with
    | .ok a t => Q a t
    | .error _ t => E t

variable {P : σ → Prop} {Q Q' : α → σ → Prop} {E : σ → Prop} {R : β → σ → Prop}

theorem Triple.bind (hm : Triple P m Q E) (hf : ∀ a, Triple (Q a) (f a) R E) :
    Triple P (m >>= f) R E := by
  intro s hs
  have h := hm s hs
  change match EStateM.bind m f s with
    | .ok a t => R a t
    | .error _ t => E t
  rw [EStateM.bind.eq_def]
  cases hms : m s with
  | ok a s' =>
    rw [hms] at h
    exact hf a s' h
  | error e s' =>
    rw [hms] at h
    exact h

theorem Triple.pure (h : ∀ s, P s → Q a s) : Triple (ε := ε) P (Pure.pure a) Q E := h

theorem Triple.get {Q : σ → σ → Prop} (h : ∀ s, P s → Q s s) : Triple (ε := ε) P get Q E := h

theorem Triple.modify {g : σ → σ} {Q : PUnit → σ → Prop} (h : ∀ s, P s → Q ⟨⟩ (g s)) :
    Triple (ε := ε) P (modify g) Q E := h

theorem Triple.orFail {r : Except ε α} (hok : ∀ a s, r = .ok a → P s → Q a s)
    (herr : ∀ s, P s → E s) : Triple P (orFail r) Q E := by
  intro s hs
  cases r with
  | ok a => exact hok a s rfl hs
  | error e => exact herr s hs

theorem Triple.ensure {b : Bool} {e : ε} {Q : Unit → σ → Prop} (hok : ∀ s, b = true → P s → Q () s)
    (herr : ∀ s, P s → E s) : Triple P (ensure b e) Q E := by
  intro s hs
  cases b with
  | true => exact hok s rfl hs
  | false => exact herr s hs

theorem Triple.lens {f : τ → Except ε (α × τ)}
    (hok : ∀ a s u, f (view s) = .ok (a, u) → P s → Q a (put s u)) (herr : ∀ s, P s → E s) :
    Triple P (lens view put f) Q E := by
  intro s hs
  rw [Act.lens]
  cases hf : f (view s) with
  | ok p => exact hok p.1 s p.2 hf hs
  | error e => exact herr s hs

theorem Triple.onSome {o : Option α} {g : α → EStateM ε σ Unit} {Q : Unit → σ → Prop}
    (hsome : ∀ a, Triple P (g a) Q E) (hnone : ∀ s, P s → Q () s) : Triple P (onSome o g) Q E := by
  cases o with
  | some a => exact hsome a
  | none => exact Triple.pure hnone

theorem Triple.map (h : Triple P m (fun a => R (g a)) E) : Triple P (g <$> m) R E :=
  Triple.bind h fun _ => Triple.pure fun _ hs => hs

theorem Triple.attempt {F : σ → Prop} (h : Triple P m Q E) :
    Triple P (attempt m) (fun r s => match r with
      | .ok a => Q a s
      | .error _ => E s) F := by
  intro s hs
  have hm := h s hs
  rw [Act.attempt]
  cases hms : m s with
  | ok a t =>
    rw [hms] at hm
    exact hm
  | error e t =>
    rw [hms] at hm
    exact hm

theorem Triple.ite {c : Prop} [Decidable c] {m' : EStateM ε σ α} (hpos : c → Triple P m Q E)
    (hneg : ¬ c → Triple P m' Q E) : Triple P (if c then m else m') Q E := by
  split
  · next h => exact hpos h
  · next h => exact hneg h

theorem Triple.conseq {A : σ → Prop} (h : Triple P m Q E) (hP : ∀ s, A s → P s)
    (hQ : ∀ a s, Q a s → Q' a s) (hE : ∀ s, E s → F s) : Triple A m Q' F := by
  intro s hs
  have := h s (hP s hs)
  cases hm : m s with
  | ok a t =>
    rw [hm] at this
    exact hQ a t this
  | error e t =>
    rw [hm] at this
    exact hE t this

theorem Triple.and (h : Triple P m Q E) (h' : Triple P m Q' F) :
    Triple P m (fun a s => Q a s ∧ Q' a s) fun s => E s ∧ F s := by
  intro s hs
  have h₁ := h s hs
  have h₂ := h' s hs
  cases hm : m s with
  | ok a t =>
    rw [hm] at h₁ h₂
    exact ⟨h₁, h₂⟩
  | error e t =>
    rw [hm] at h₁ h₂
    exact ⟨h₁, h₂⟩

theorem Triple.of_fact {φ : Prop} (h : φ → Triple P m Q E) : Triple (fun s => P s ∧ φ) m Q E :=
  fun s hs => h hs.2 s hs.1

/-- What holds of the state on return and on failure holds of the final state. -/
theorem Triple.final (h : Triple P m (fun _ => E) E) (hs : P s) : E (Act.final (m s)) := by
  have := h s hs
  cases hm : m s with
  | ok a t =>
    rw [hm] at this
    exact this
  | error e t =>
    rw [hm] at this
    exact this

/-! ## Keeping a property -/

/-- The computation keeps `P`, whether it returns or fails. -/
def Keeps (P : σ → Prop) (m : EStateM ε σ α) : Prop := Triple P m (fun _ => P) P

theorem Keeps.bind (hm : Keeps P m) (hf : ∀ a, Keeps P (f a)) : Keeps P (m >>= f) :=
  Triple.bind hm hf

theorem keeps_pure (a : α) : Keeps (ε := ε) P (pure a) := Triple.pure fun _ h => h

theorem keeps_throw (e : ε) : Keeps P (throw e : EStateM ε σ α) := fun _ h => h

theorem keeps_get : Keeps P (get : EStateM ε σ σ) := Triple.get fun _ h => h

theorem keeps_modify {g : σ → σ} (h : ∀ s, P s → P (g s)) : Keeps (ε := ε) P (modify g) :=
  Triple.modify h

theorem keeps_orFail (r : Except ε α) : Keeps P (orFail r) :=
  Triple.orFail (fun _ _ _ h => h) fun _ h => h

theorem keeps_attempt (hm : Keeps P m) : Keeps P (attempt m) :=
  (Triple.attempt hm).conseq (fun _ h => h)
    (fun r _ h => match r, h with
      | .ok _, h => h
      | .error _, h => h) fun _ h => h

theorem keeps_ite {c : Prop} [Decidable c] {m' : EStateM ε σ α} (hm : Keeps P m)
    (hm' : Keeps P m') : Keeps P (if c then m else m') :=
  Triple.ite (fun _ => hm) fun _ => hm'

theorem keeps_onSome {o : Option α} {g : α → EStateM ε σ Unit} (h : ∀ a, Keeps P (g a)) :
    Keeps P (onSome o g) :=
  Triple.onSome h fun _ h => h

theorem keeps_ensure (b : Bool) (e : ε) : Keeps P (ensure b e) :=
  Triple.ensure (fun _ _ h => h) fun _ h => h

/-! ## Changing nothing, or nothing that is looked at -/

/-- The computation leaves the state as it is. -/
def Inert (m : EStateM ε σ α) : Prop := ∀ P : σ → Prop, Keeps P m

theorem Inert.bind (hm : Inert m) (hf : ∀ a, Inert (f a)) : Inert (m >>= f) :=
  fun P => (hm P).bind fun a => hf a P

theorem inert_pure (a : α) : Inert (pure a : EStateM ε σ α) := fun _ => keeps_pure a

theorem inert_get : Inert (get : EStateM ε σ σ) := fun _ => keeps_get

theorem inert_orFail (r : Except ε α) : Inert (orFail r : EStateM ε σ α) := fun _ => keeps_orFail r

theorem inert_ensure (b : Bool) (e : ε) : Inert (ensure b e : EStateM ε σ Unit) :=
  fun _ => keeps_ensure b e

/-! Going through a computation from one state: what a part that returns did is known. -/

section Through

theorem through_inert (hm : Inert m) (hE : E s)
    (hf : ∀ a, m s = .ok a s → Triple (fun t => t = s) (f a) R E) :
    Triple (fun t => t = s) (m >>= f) R E := by
  refine Triple.bind (Q := fun a t => t = s ∧ m s = .ok a s) ?_ fun a => Triple.of_fact (hf a)
  intro t ht
  rw [ht]
  have hstay := hm (fun t => t = s) s rfl
  cases h : m s with
  | ok a t =>
    rw [h] at hstay
    exact ⟨hstay, by rw [hstay]⟩
  | error e t =>
    rw [h] at hstay
    exact hstay ▸ hE

theorem through_get {f : σ → EStateM ε σ β} (hf : Triple (fun t => t = s) (f s) R E) :
    Triple (fun t => t = s) (get >>= f) R E := by
  rintro _ rfl
  exact hf _ rfl

theorem through_ensure {b : Bool} {e : ε} {f : Unit → EStateM ε σ β} (hE : E s)
    (hf : b = true → Triple (fun t => t = s) (f ()) R E) :
    Triple (fun t => t = s) (ensure b e >>= f) R E :=
  through_inert (inert_ensure b e) hE fun _ h => hf (ensure_eq_ok.mp h).1

theorem through_modify {g : σ → σ} {f : PUnit → EStateM ε σ β}
    (hf : Triple (fun t => t = g s) (f ⟨⟩) R E) :
    Triple (fun t => t = s) (modify g >>= f) R E :=
  Triple.bind (Q := fun _ t => t = g s) (Triple.modify fun _ h => h ▸ rfl) fun _ => hf

theorem through_lens {g : τ → Except ε (α × τ)} (hE : E s)
    (hf : ∀ a u, g (view s) = .ok (a, u) → Triple (fun t => t = put s u) (f a) R E) :
    Triple (fun t => t = s) (lens view put g >>= f) R E := by
  refine Triple.bind (Q := fun a t => ∃ u, g (view s) = .ok (a, u) ∧ t = put s u)
    (Triple.lens (fun a t u hg ht => ⟨u, ht ▸ hg, ht ▸ rfl⟩) fun t ht => ht ▸ hE) fun a => ?_
  rintro _ ⟨u, hg, rfl⟩
  exact hf a u hg _ rfl

end Through

/-- The computation leaves what `view` shows as it is. -/
def Fixes (view : σ → τ) (m : EStateM ε σ α) : Prop := ∀ t, Keeps (fun s => view s = t) m

section Fixes

variable {view : σ → τ}

theorem Inert.fixes (hm : Inert m) : Fixes view m := fun _ => hm _

theorem Fixes.bind (hm : Fixes view m) (hf : ∀ a, Fixes view (f a)) : Fixes view (m >>= f) :=
  fun t => (hm t).bind fun a => hf a t

theorem fixes_pure (a : α) : Fixes view (pure a : EStateM ε σ α) := fun _ => keeps_pure a

theorem fixes_throw (e : ε) : Fixes view (throw e : EStateM ε σ α) := fun _ => keeps_throw e

end Fixes

end Act
end AlloyFs
