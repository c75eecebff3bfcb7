import AlloyFs.Common.Coalesce
import AlloyFs.Lib.Transition

/-!
# How long the watcher holds changes back

`coalesce_loop` with a clock.  A change waits until the export has been quiet for the debounce time,
or until an event finds the window full or old.  What counts as the age of the window is the age of
its youngest pending path, and a paired rename has no age at all: a stream that keeps bringing new
paths holds everything back for as long as it lasts.
-/

namespace AlloyFs

def BATCH_MAX : ℕ := 512

/-- In milliseconds, like all times here. -/
def MAX_LATENCY : ℕ := 1000

namespace Coalescer

def isEmpty (co : Coalescer) : Bool := co.pending.keys.isEmpty && co.renames.isEmpty

def len (co : Coalescer) : ℕ := co.pending.keys.length + co.renames.length

/-- The event is no rename, is about pending paths only, and takes no creation back. -/
def Revisits (co : Coalescer) (event : NotifyEvent) : Prop :=
  event.kind ∈ [.create, .modifyMetadata, .modify, .remove] ∧
    ∀ abs ∈ event.paths, ∀ p ∈ relOf co.root abs, co.exclude.isExcluded p = false →
      (co.pending.lookup p).isSome ∧ (event.kind = .remove → co.pending.lookup p ≠ some .created)
deriving Decidable

/-- The event makes an entry for the path, if it leaves one.  It drops one that is there only when
it takes a creation back, and makes another when it lists the path again. -/
def Enters (co : Coalescer) (event : NotifyEvent) (p : RelPath) : Prop :=
  co.pending.lookup p = none ∨
    event.kind = .remove ∧ touches co.root p event ∧ co.exclude.isExcluded p = false ∧
      co.pending.lookup p = some .created
deriving Decidable

theorem Revisits.isSome_lookup {co : Coalescer} {event : NotifyEvent} (h : co.Revisits event)
    (p : RelPath) :
    ((co.ingest event).pending.lookup p).isSome = (co.pending.lookup p).isSome := by
  obtain ⟨kind, heq, hkind⟩ : ∃ kind, co.ingest event = co.pushAll event.paths kind ∧
      (kind = .removed → event.kind = .remove) := by
    obtain ⟨kind, paths⟩ := event
    rcases List.mem_cons.mp h.1 with rfl | hk
    · exact ⟨.created, rfl, nofun⟩
    · simp only [List.mem_cons, List.not_mem_nil, or_false] at hk
      rcases hk with rfl | rfl | rfl
      · exact ⟨.attrChanged, rfl, nofun⟩
      · exact ⟨.modified, rfl, nofun⟩
      · exact ⟨.removed, rfl, fun _ => rfl⟩
  rw [heq]
  by_cases ht : ∃ abs ∈ event.paths, relOf co.root abs = some p
  · cases hx : co.exclude.isExcluded p with
    | true => rw [lookup_pushAll, if_pos hx]
    | false =>
      obtain ⟨abs, habs, hp⟩ := ht
      obtain ⟨hsome, hsafe⟩ := h.2 abs habs p hp hx
      rw [hsome, isSome_pushAll kind _ co hx (fun hk => hsafe (hkind hk)) (.inl hsome)]
  · rw [lookup_pushAll_of_not kind _ co fun abs habs hp => ht ⟨abs, habs, hp⟩]

end Coalescer

/-- The coalescer with its times. -/
structure Pacer where
  co : Coalescer
  /-- `first_seen` of each pending path -/
  seen : RelPath → ℕ
  /-- when the paired renames were seen, which the source does not keep -/
  renamed : List ℕ
  /-- when the loop went round last -/
  now : ℕ

inductive PaceStep
  | event (t : ℕ) (event : NotifyEvent)
  /-- the timer has run out -/
  | quiet (t : ℕ)

namespace Pacer

def init (root : List Name) (exclude : ExcludeSet) : Pacer := ⟨.new root exclude, fun _ => 0, [], 0⟩

/-- Since when each change is held back. -/
def times (s : Pacer) : List ℕ := s.co.pending.keys.map s.seen ++ s.renamed

/-- The source takes the least of the ages. -/
def oldestAge (s : Pacer) : Option ℕ := (s.co.pending.keys.map fun p => s.now - s.seen p).min?

def ingest (s : Pacer) (t : ℕ) (event : NotifyEvent) : Pacer :=
  let co := s.co.ingest event
  { co
    seen := fun p => if s.co.Enters event p then t else s.seen p
    renamed := s.renamed ++ List.replicate (co.renames.length - s.co.renames.length) t
    now := t }

def flush (s : Pacer) : Pacer := { s with co := s.co.takeBatch.2, renamed := [] }

/-- One round of the loop, `debounce` being the time that the export has to be quiet. -/
def step (debounce : ℕ) (s : Pacer) : PaceStep → Option Pacer
  | .event t event =>
    if s.now ≤ t then
      let s := s.ingest t event
      some (if BATCH_MAX ≤ s.co.len ∨ s.oldestAge.any (MAX_LATENCY ≤ ·) then s.flush else s)
    else none
  | .quiet t =>
    if s.now + (if s.co.isEmpty then 3600000 else debounce) ≤ t then some { s.flush with now := t }
    else none

/-- Nothing is held back that was first seen more than `MAX_LATENCY` ago. -/
def Prompt (s : Pacer) : Prop := ∀ since ∈ s.times, s.now ≤ since + MAX_LATENCY
deriving Decidable

/-- The event finds nothing overdue, or it fills the window; or nothing is pending that is younger
than `MAX_LATENCY`, and the event changes nothing about that. -/
def timely (s : Pacer) : PaceStep → Prop
  | .event t event => (∀ since ∈ s.times, t ≤ since + MAX_LATENCY) ∨
      BATCH_MAX ≤ (s.co.ingest event).len ∨ s.co.pending.keys ≠ [] ∧
      (∀ p ∈ s.co.pending.keys, s.seen p + MAX_LATENCY ≤ t) ∧
        s.co.Revisits event
  | .quiet _ => True

instance (s : Pacer) : DecidablePred s.timely
  | .event _ _ => inferInstanceAs (Decidable (_ ∨ _))
  | .quiet _ => inferInstanceAs (Decidable True)

/-! ## What is held back -/

variable {s : Pacer} {t since : ℕ} {event : NotifyEvent} {p : RelPath}

theorem prompt_flush (s : Pacer) (t : ℕ) : Prompt { s.flush with now := t } := by
  intro since h
  simp [times, flush, Coalescer.takeBatch, AList.keys_empty] at h

theorem mem_times_ingest (h : since ∈ (s.ingest t event).times) : since = t ∨ since ∈ s.times := by
  simp only [times, ingest, List.mem_append, List.mem_map] at h ⊢
  rcases h with ⟨p, -, rfl⟩ | h | h
  · split
    · exact .inl rfl
    · next hold =>
      refine .inr (.inl ⟨p, ?_, rfl⟩)
      rw [← AList.mem_keys, ← AList.lookup_isSome]
      exact Option.isSome_iff_ne_none.mpr fun hnone => hold (.inl hnone)
  · exact .inr (.inr h)
  · exact .inl (List.eq_of_mem_replicate h)

/-- A window that has been there for `MAX_LATENCY`, and stays as it is, counts as old. -/
theorem oldestAge_ingest (hne : s.co.pending.keys ≠ [])
    (hold : ∀ p ∈ s.co.pending.keys, s.seen p + MAX_LATENCY ≤ t) (h : s.co.Revisits event) :
    (s.ingest t event).oldestAge.any (MAX_LATENCY ≤ ·) = true := by
  have hkeys : ∀ p, p ∈ (s.ingest t event).co.pending.keys ↔ p ∈ s.co.pending.keys := by
    intro p
    rw [← AList.mem_keys, ← AList.mem_keys, ← AList.lookup_isSome, ← AList.lookup_isSome]
    exact Bool.coe_iff_coe.mpr (h.isSome_lookup p)
  cases hage : (s.ingest t event).oldestAge with
  | none =>
    rw [oldestAge, List.min?_eq_none_iff, List.map_eq_nil_iff] at hage
    obtain ⟨p, hp⟩ := List.exists_mem_of_ne_nil _ hne
    rw [← hkeys, hage] at hp
    cases hp
  | some age =>
    obtain ⟨p, hp, rfl⟩ := List.mem_map.mp (List.min?_mem hage)
    have hp' := (hkeys p).mp hp
    have hseen : (s.ingest t event).seen p = s.seen p := by
      refine if_neg ?_
      rintro (hnone | ⟨hk, ⟨-, abs, habs, hrel⟩, hx, hcreated⟩)
      · simp [← AList.mem_keys, ← AList.lookup_isSome, hnone] at hp'
      · exact (h.2 abs habs p hrel hx).2 hk hcreated
    have := hold p hp'
    rw [Option.any_some, decide_eq_true_eq, hseen]
    exact Nat.le_sub_of_add_le' this

theorem prompt_step {debounce : ℕ} {l : PaceStep} {s' : Pacer} (hok : s.timely l)
    (h : s.step debounce l = some s') : s'.Prompt := by
  cases l with
  | quiet t =>
    obtain ⟨-, h⟩ := Option.ite_none_right_eq_some.mp h
    rw [← Option.some.inj h]
    exact prompt_flush s t
  | event t event =>
    obtain ⟨-, h⟩ := Option.ite_none_right_eq_some.mp h
    rw [← Option.some.inj h]
    rcases hok with hfresh | hfull | ⟨hne, hold, hrevisits⟩
    · split
      · exact prompt_flush _ t
      · intro since hmem
        rcases mem_times_ingest hmem with rfl | hmem
        · exact Nat.le_add_right _ _
        · exact hfresh since hmem
    · rw [if_pos (.inl hfull)]
      exact prompt_flush _ t
    · rw [if_pos (.inr (oldestAge_ingest hne hold hrevisits))]
      exact prompt_flush _ t

/-- The stream comes in bursts that the timer ends: no event is more than `MAX_LATENCY` after the
first since the export was quiet, which came at `first`. -/
def Brief : Option ℕ → List PaceStep → Prop
  | _, [] => True
  | _, .quiet _ :: ls => Brief none ls
  | first, .event t _ :: ls => (∀ t₀ ∈ first, t ≤ t₀ + MAX_LATENCY) ∧ Brief (some (first.getD t)) ls

instance Brief.decidable : ∀ first ls, Decidable (Brief first ls)
  | _, [] => inferInstanceAs (Decidable True)
  | _, .quiet _ :: ls => decidable none ls
  | first, .event t _ :: ls =>
    have := decidable (some (first.getD t)) ls
    inferInstanceAs (Decidable (_ ∧ _))

/-- A burst finds nothing overdue: nothing is held back that is older than its first event. -/
theorem allowed_of_brief {debounce : ℕ} (ls : List PaceStep) : ∀ (s : Pacer) (first : Option ℕ),
    (∀ since ∈ s.times, ∃ t₀ ∈ first, t₀ ≤ since) → (∀ t₀ ∈ first, t₀ ≤ s.now) → Brief first ls →
      Allowed (step debounce) timely s ls := by
  induction ls with
  | nil => exact fun _ _ _ _ _ => trivial
  | cons l ls ih =>
    intro s first hheld hnow hbrief
    cases l with
    | quiet t =>
      refine ⟨trivial, fun s' hs' => ?_⟩
      obtain ⟨-, h⟩ := Option.ite_none_right_eq_some.mp hs'
      rw [← Option.some.inj h]
      refine ih _ none (fun since hmem => ?_) (fun _ h => by cases h) hbrief
      simp [times, flush, Coalescer.takeBatch, AList.keys_empty] at hmem
    | event t event =>
      obtain ⟨hnear, hbrief⟩ := hbrief
      refine ⟨.inl fun since hmem => ?_, fun s' hs' => ?_⟩
      · obtain ⟨t₀, hfirst, hle⟩ := hheld since hmem
        exact (hnear t₀ hfirst).trans (Nat.add_le_add_right hle _)
      · obtain ⟨hle, h⟩ := Option.ite_none_right_eq_some.mp hs'
        have hfirst : first.getD t ≤ t := by
          cases first with
          | none => exact le_rfl
          | some t₀ => exact (hnow t₀ rfl).trans hle
        have htimes : ∀ since ∈ (s.ingest t event).times, first.getD t ≤ since := by
          intro since hmem
          rcases mem_times_ingest hmem with rfl | hmem
          · exact hfirst
          · obtain ⟨t₀, rfl, hle⟩ := hheld since hmem
            exact hle
        refine ih s' _ (fun since hmem => ⟨_, rfl, ?_⟩) (fun t₀ h₀ => ?_) hbrief
        · rw [← Option.some.inj h] at hmem
          split at hmem
          · simp [times, flush, Coalescer.takeBatch, AList.keys_empty] at hmem
          · exact htimes since hmem
        · cases h₀
          rw [← Option.some.inj h]
          split <;> exact hfirst

/-- **Nothing is held back for longer than `MAX_LATENCY`**, in every run whose events find nothing
overdue or leave a window that is full or counts as old; and so for every stream in brief bursts. -/
theorem prompt_of_timely {debounce : ℕ} {root : List Name} {exclude : ExcludeSet} :
    (∀ s, Reaches (step debounce) timely (init root exclude) s → s.Prompt) ∧
      ∀ ls s, Brief none ls → exec (step debounce) (init root exclude) ls = some s → s.Prompt := by
  have hall : ∀ s, Reaches (step debounce) timely (init root exclude) s → s.Prompt := fun s h =>
    h.invariant Prompt (fun since hmem => by cases hmem) fun _ _ _ _ hok hs => prompt_step hok hs
  refine ⟨hall, fun ls s hbrief hexec => hall s (reaches_of_exec .refl ls ?_ hexec)⟩
  exact allowed_of_brief ls _ none (fun since hmem => by cases hmem) (fun _ h => by cases h) hbrief

/-- Something happens every `gap` milliseconds, `n` times. -/
def stream (gap n : ℕ) (event : Char → NotifyEvent) : List PaceStep :=
  (List.range n).map fun i => .event (gap * i) (event (Char.ofNat ('a'.toNat + i)))

/-- New files come in two bursts, with a quiet time between them. -/
def twoBursts : List PaceStep :=
  [.event 0 ⟨.create, [[['a']]]⟩, .event 900 ⟨.create, [[['b']]]⟩, .quiet 1150,
    .event 1300 ⟨.create, [[['c']]]⟩]

/-- One file is written over and over: after more than a second it is published. -/
theorem prompt_rewritten : (∃ s, Reaches (step 250) timely (init [] .none) s ∧ s.Prompt ∧
    (s.now, s.times) = (1200, [])) ∧
    ∃ s, exec (step 250) (init [] .none) twoBursts = some s ∧ s.Prompt := by
  obtain ⟨s, hs, hobs⟩ : ∃ s, Reaches (step 250) timely (init [] .none) s ∧
      (s.now, s.times) = (1200, []) :=
    exists_of_run (stream 240 6 fun _ => ⟨.modify, [[['f']]]⟩) (by decide +kernel) (fun _ h => h)
      (by decide +kernel)
  obtain ⟨s', hs'⟩ : ∃ s, exec (step 250) (init [] .none) twoBursts = some s := ⟨_, rfl⟩
  exact ⟨⟨s, hs, prompt_of_timely.1 s hs, hobs⟩, s', hs',
    prompt_of_timely.2 twoBursts s' (by decide) hs'⟩

/-- **What goes wrong.**  A new file every 200 milliseconds, with a debounce time of 250: after 1.2
seconds the first is still held back.  And the same with files that are renamed. -/
theorem not_prompt_stream :
    (∃ s, Reaches (step 250) (fun _ _ => True) (init [] .none) s ∧
      (s.now, s.times) = (1200, [1200, 1000, 800, 600, 400, 200, 0]) ∧ ¬ s.Prompt) ∧
    ∃ s, Reaches (step 250) (fun _ _ => True) (init [] .none) s ∧
      (s.now, s.times) = (1200, [0, 200, 400, 600, 800, 1000, 1200]) ∧ ¬ s.Prompt := by
  constructor
  · exact exists_of_run (stream 200 7 fun c => ⟨.create, [[[c]]]⟩) (allowed_true _ _ _)
      (fun _ h => h) (by decide +kernel)
  · exact exists_of_run (stream 200 7 fun c => ⟨.modifyName .both, [[[c]], [[c, 'x']]]⟩)
      (allowed_true _ _ _) (fun _ h => h) (by decide +kernel)

end Pacer
end AlloyFs
