import AlloyFs.Kernel.Conn
import Mathlib.Data.List.Nodup

/-!
# Every request of the kernel module is resolved once

The queue's reference of a request has one owner at a time: a list, or the task that has taken the
request off it.  This module carries that owner through every run.  From the owner follows
everything else: how many references there are, whether the request is freed, whether it was
completed.

An abort that walks its list is the only one that may surprise the others.  As long as nobody takes
away the request it works on or the one its saved pointer leads to, what it sees is the list itself.
-/

namespace AlloyFs.Kernel

open Function List

/-! ## The invariant -/

/-- Whether the request was completed by the one who holds it. -/
def Holder.completed : Holder → Bool
  | .abort _ c | .writer _ c => c
  | _ => false

/-- The lists among the owners. -/
def Holder.isList : Holder → Bool
  | .pending | .processing | .dead _ => true
  | _ => false

variable {g : Holder}

theorem Holder.completed_of_isList (h : g.isList = true) : g.completed = false := by
  cases g <;> simp_all [Holder.isList, Holder.completed]

/-- The caller's own reference. -/
def Caller.refs : Caller → ℕ
  | .absent | .returned _ => 0
  | _ => 1

/-- A request with the owner of the queue's reference and the number of reads that have one. -/
structure ReqOk (q : Req) (o : Option Holder) (n : ℕ) : Prop where
  refs : q.refs = q.caller.refs + o.isSome.toNat + n
  freed : q.freed = true ↔ q.refs = 0 ∧ q.caller ≠ .absent
  drops : q.drops + o.isSome.toNat = if q.unique = 0 then 0 else 1
  unmade : q.caller = .absent → n = 0 ∧ q.unique = 0
  unqueued : q.caller = .made → q.unique = 0 ∧ q.completions = 0
  held : ∀ h, o = some h → q.completions = h.completed.toNat
  woken : q.caller = .waiting → o = none → q.completions = 1
  once : q.completions ≤ 1

namespace ReqOk

variable {q : Req} {o : Option Holder} {n : ℕ} {g : Holder}

theorem alive (h : ReqOk q o n) (hr : 0 < q.refs) : q.freed = false := by
  by_contra hf
  have := (h.freed.mp (by simpa using hf)).1
  omega

theorem unowned (h : ReqOk q o n) (hu : q.unique = 0) : o = none := by
  have hdrops := h.drops
  rw [if_pos hu] at hdrops
  cases o with
  | none => rfl
  | some g => simp at hdrops

theorem returned (h : ReqOk q o n) (hc : q.caller.refs = 1) (ret : ℤ) :
    ReqOk { q.put with caller := .returned ret } o n := by
  have hrefs := h.refs
  have hf := h.alive (by omega)
  exact { h with
    refs := by simp only [Req.put, Caller.refs]; omega
    freed := by simp only [Req.put, hf]; simp; omega
    unmade := by simp
    unqueued := by simp
    woken := by simp }

theorem putQueue (h : ReqOk q (some g) n) (hmade : q.caller ≠ .absent)
    (hc : q.caller = .waiting → g.completed = true) : ReqOk q.putQueue none n := by
  have hrefs := h.refs
  have hdrops := h.drops
  have hheld := h.held g rfl
  simp only [Option.isSome_some, Bool.toNat_true] at hrefs hdrops
  have hf := h.alive (by omega)
  exact { h with
    refs := by simp only [Req.putQueue, Req.put, Option.isSome_none, Bool.toNat_false]; omega
    freed := by simp only [Req.putQueue, Req.put, hf]; simp [hmade]; omega
    held := by simp
    woken := fun hw _ => by rw [hc hw] at hheld; simpa [Req.putQueue, Req.put] using hheld }

theorem complete {g' : Holder} {q' : Req} (h : ReqOk q (some g) n) (hg : g.completed = false)
    (hg' : g'.completed = true) (hmade : q.caller ≠ .made)
    (hq : q' =
      { q with error := q'.error, outLen := q'.outLen, completions := q.completions + 1 }) :
    ReqOk q' (some g') n := by
  have hheld := h.held g rfl
  rw [hg] at hheld
  rw [hq]
  exact { h with
    unqueued := fun hc => absurd hc hmade
    held := by simp [hheld, hg']
    woken := by simp
    once := by simp [hheld] }

theorem pass {k : Holder} (h : ReqOk q (some g) n) (hg : g.completed = k.completed) :
    ReqOk q (some k) n :=
  { h with
    held := fun x hx => by rw [h.held g rfl, hg, Option.some.inj hx]
    woken := by simp }

theorem goesOn {c : Caller} (h : ReqOk q o n) (hc : q.caller.refs = 1) (hc' : c.refs = 1)
    (hmade : c ≠ .made) (hwait : c ≠ .waiting) : ReqOk { q with caller := c } o n := by
  have hrefs := h.refs
  have hf := h.alive (by omega)
  exact { h with
    refs := by rw [h.refs, hc, hc']
    freed := by simp only [hf]; simp; omega
    unmade := by rintro rfl; cases hc'
    unqueued := fun ha => absurd ha hmade
    woken := fun ha => absurd ha hwait }

theorem enqueue {u : ℕ} (h : ReqOk q o n) (hc : q.caller = .made) (hu : u ≠ 0) :
    ReqOk { q with unique := u, refs := q.refs + 1, caller := .waiting } (some .pending) n := by
  obtain ⟨hu0, hc0⟩ := h.unqueued hc
  have hrefs := h.refs
  have hdrops := h.drops
  rw [if_pos hu0] at hdrops
  rw [hc] at hrefs
  simp only [Caller.refs] at hrefs
  have hf := h.alive (by omega)
  exact
    { refs := by simp only [Caller.refs, Option.isSome_some, Bool.toNat_true]; omega
      freed := by simp [hf]
      drops := by simp only [hu, if_false, Option.isSome_some, Bool.toNat_true]; omega
      unmade := by simp
      unqueued := by simp
      held := by simp [hc0, Holder.completed]
      woken := by simp
      once := by simp [hc0] }

theorem read (h : ReqOk q (some g) n) (hc : q.caller ≠ .absent) :
    ReqOk { q with refs := q.refs + 1 } (some g) (n + 1) := by
  have hrefs := h.refs
  simp only [Option.isSome_some, Bool.toNat_true] at hrefs
  have hf := h.alive (by omega)
  exact { h with
    refs := by simp only [Option.isSome_some, Bool.toNat_true]; omega
    freed := by simp [hf]
    unmade := fun ha => absurd ha hc }

theorem readPut (h : ReqOk q o (n + 1)) : ReqOk q.put o n := by
  have hrefs := h.refs
  have hf := h.alive (by omega)
  have hc : q.caller ≠ .absent := fun ha => absurd (h.unmade ha).1 (by omega)
  exact { h with
    refs := by simp only [Req.put]; omega
    freed := by simp only [Req.put, hf]; simp [hc]; omega
    unmade := fun ha => absurd ha hc }

end ReqOk

/-- The walk of an abort along its list. -/
def Abort.Walks (k : ℕ) (t : Abort) : Prop :=
  match t.stage with
  | .spliced => True
  | .current pos next => ∃ rest, t.dead = pos :: rest ∧ next = firstNode (.dead k) rest
  | .unlinked _ next | .failed _ next | .dropped next => next = firstNode (.dead k) t.dead
  | .returned => t.dead = []

variable {f : Req → Req} {i : ℕ}

namespace Conn

/-- What does not depend on who owns what. -/
structure Shape (s : Conn) : Prop where
  pending : s.pending.Nodup
  processing : s.processing.Nodup
  dead : ∀ k, (s.aborts k).dead.Nodup
  walk : ∀ k, (s.aborts k).Walks k
  cut : s.connected = false → s.pending = [] ∧ s.processing = []
  aborted : ∀ k < s.nAborts, s.connected = false
  unbegun : ∀ k, s.nAborts ≤ k → s.aborts k = ⟨[], .returned⟩
  unwritten : ∀ w, s.nWrites ≤ w → s.writes w = .done
  unmade : ∀ r, s.made ≤ r → (s.reqs r).caller = .absent
  alive : s.bad = false

/-- How many reads have a reference to the request. -/
def readers (s : Conn) (r : ℕ) : ℕ := s.reads.countP (Read.on r)

/-- **The invariant**, with the owner of each request. -/
structure Sound (s : Conn) (owner : ℕ → Option Holder) : Prop where
  shape : s.Shape
  owns : ∀ h r, s.holds h r ↔ owner r = some h
  req : ∀ r, ReqOk (s.reqs r) (owner r) (s.readers r)

variable {s s' : Conn} {owner : ℕ → Option Holder} {r : ℕ}

theorem sound_init : init.Sound fun _ => none where
  shape :=
    { pending := nodup_nil
      processing := nodup_nil
      dead := fun _ => nodup_nil
      walk := fun _ => rfl
      cut := fun h => absurd h (by simp [init])
      aborted := fun k h => absurd h (Nat.not_lt_zero k)
      unbegun := fun _ _ => rfl
      unwritten := fun _ _ => rfl
      unmade := fun _ _ => rfl
      alive := rfl }
  owns := by
    intro h r
    cases h <;> simp [holds, init, Stage.hand, Write.hand, Req.blank]
  req := by
    intro r
    constructor <;> simp [init, Req.blank, Caller.refs, readers]

theorem Sound.resolved (h : s.Sound owner) : s.Resolved where
  once := by
    intro r hr
    have hd := (h.req r).drops
    rw [if_neg hr] at hd
    cases ho : owner r with
    | none =>
      refine Or.inl ⟨by simpa [ho] using hd, fun g hg => ?_⟩
      rw [h.owns, ho] at hg
      cases hg
    | some g =>
      refine Or.inr ⟨by simpa [ho] using hd, g, (h.owns g r).mpr ho⟩
  alive := h.shape.alive
  completed := fun r => (h.req r).once
  woken := by
    intro k hk _ r hw hc
    obtain ⟨hp, hq⟩ := h.shape.cut (h.shape.aborted k hk)
    -- the owner has not completed the request, so it is a task that is going to
    cases ho : owner r with
    | none => exact absurd ((h.req r).woken hw ho) (by omega)
    | some g =>
      have hheld := (h.req r).held g ho
      have hg := (h.owns g r).mpr ho
      cases g with
      | pending => simp [holds, hp] at hg
      | processing => simp [holds, hq] at hg
      | dead j =>
        refine Or.inr ⟨j, fun hret => ?_, Or.inl hg⟩
        have hwalk := h.shape.walk j
        simp only [Abort.Walks, hret] at hwalk
        simp [holds, hwalk] at hg
      | abort j c =>
        obtain rfl : c = false := by
          cases c with
          | false => rfl
          | true => simp [Holder.completed, hc] at hheld
        refine Or.inr ⟨j, fun hret => ?_, Or.inr hg⟩
        simp [holds, hret, Stage.hand] at hg
      | writer w c =>
        obtain rfl : c = false := by
          cases c with
          | false => rfl
          | true => simp [Holder.completed, hc] at hheld
        refine Or.inl ⟨w, ?_⟩
        simp only [holds, Write.hand] at hg
        cases hwr : s.writes w <;> simp_all
      | caller => simp [holds, hw] at hg

/-! ## Requests that are alive -/

theorem Sound.freed_of_refs (h : s.Sound owner) (hr : 0 < (s.reqs r).refs) :
    (s.reqs r).freed = false := by
  by_contra hf
  have := ((h.req r).freed.mp (by simpa using hf)).1
  omega

theorem Sound.freed_of_caller (h : s.Sound owner) (hc : (s.reqs r).caller.refs = 1) :
    (s.reqs r).freed = false := by
  apply h.freed_of_refs
  have := (h.req r).refs
  omega

theorem readers_pos {t : Read} (hi : s.reads[i]? = some t) (ht : t.on r = true) : 0 < s.readers r :=
  countP_pos_iff.mpr ⟨t, mem_of_getElem? hi, ht⟩

theorem Sound.freed_of_reader (h : s.Sound owner) (hr : 0 < s.readers r) :
    (s.reqs r).freed = false := by
  apply h.freed_of_refs
  have := (h.req r).refs
  omega

theorem Sound.lt_made (h : s.Sound owner) (hc : (s.reqs r).caller ≠ .absent) : r < s.made := by
  by_contra hr
  exact hc (h.shape.unmade r (by omega))

theorem Sound.caller_of_refs (h : s.Sound owner) (hr : 0 < (s.reqs r).refs) :
    (s.reqs r).caller ≠ .absent := by
  intro hc
  obtain ⟨hn, hu⟩ := (h.req r).unmade hc
  have hrefs := (h.req r).refs
  have hdrops := (h.req r).drops
  rw [if_pos hu] at hdrops
  rw [hc] at hrefs
  simp only [Caller.refs] at hrefs
  omega

/-- What is known of a request that has an owner. -/
structure Owned (s : Conn) (r : ℕ) (g : Holder) : Prop where
  alive : (s.reqs r).freed = false
  caller : (s.reqs r).caller ≠ .absent
  made : r < s.made
  req : ReqOk (s.reqs r) (some g) (s.readers r)

theorem Sound.owned (h : s.Sound owner) (hg : s.holds g r) : s.Owned r g := by
  have hreq := h.req r
  rw [(h.owns g r).mp hg] at hreq
  have hrefs := hreq.refs
  simp only [Option.isSome_some, Bool.toNat_true] at hrefs
  have hcaller := h.caller_of_refs (r := r) (by omega)
  exact ⟨h.freed_of_refs (by omega), hcaller, h.lt_made hcaller, hreq⟩

theorem use_of_alive (hf : (s.reqs r).freed = false) : s.use r = s := by
  simp [use, hf]

theorem modifyReq_of_alive (hf : (s.reqs r).freed = false) (f : Req → Req) :
    s.modifyReq r f = { s with reqs := update s.reqs r (f (s.reqs r)) } := by
  rw [modifyReq, use_of_alive hf]

theorem Sound.not_holds (h : s.Sound owner) (ho : owner r = none) (g : Holder) : ¬ s.holds g r := by
  rw [h.owns, ho]
  simp

theorem Sound.holds_iff (h : s.Sound owner) (hg : s.holds g r) (g' : Holder) :
    s.holds g' r ↔ g = g' := by
  rw [h.owns, (h.owns g r).mp hg, Option.some.injEq]

/-! ## Changing one request -/

theorem Sound.next (h : s.Sound owner) (o : Option Holder) (hshape : s'.Shape)
    (hother : ∀ g x, x ≠ r → (s'.holds g x ↔ s.holds g x))
    (hself : ∀ g, s'.holds g r ↔ o = some g)
    (hreq : ReqOk (s'.reqs r) o (s'.readers r))
    (hframe : ∀ x, x ≠ r → s'.reqs x = s.reqs x ∧ s'.readers x = s.readers x) :
    s'.Sound (update owner r o) where
  shape := hshape
  owns := by
    intro g x
    by_cases hx : x = r
    · subst hx
      rw [update_self]
      exact hself g
    · rw [update_of_ne hx, hother g x hx, h.owns]
  req := by
    intro x
    by_cases hx : x = r
    · subst hx
      rw [update_self]
      exact hreq
    · rw [update_of_ne hx, (hframe x hx).1, (hframe x hx).2]
      exact h.req x

theorem Shape.modifyReq (h : s.Shape) (hf : (s.reqs r).freed = false) (hr : r < s.made)
    (f : Req → Req) : (s.modifyReq r f).Shape := by
  rw [modifyReq_of_alive hf]
  exact { h with
    unmade := fun x hx => by
      dsimp only at hx ⊢
      rw [update_of_ne (by omega)]
      exact h.unmade x hx }

/-- Who holds what does not change with the record of a request, except for the caller. -/
theorem holds_modifyReq (f : Req → Req) (g : Holder) (x : ℕ) :
    (s.modifyReq r f).holds g x ↔
      if g = .caller ∧ x = r then (f (s.reqs r)).caller = .reclaimed else s.holds g x := by
  cases g with
  | caller =>
    by_cases hx : x = r
    · subst hx
      simp [holds, Conn.modifyReq]
    · simp [holds, Conn.modifyReq, hx]
  | _ => simp [holds, Conn.modifyReq, use]

theorem holds_modified (hf : (f (s.reqs r)).caller = (s.reqs r).caller) (g : Holder)
    (x : ℕ) : (s.modifyReq r f).holds g x ↔ s.holds g x := by
  rw [holds_modifyReq]
  split
  · next hgx =>
    obtain ⟨rfl, rfl⟩ := hgx
    rw [hf]
    rfl
  · rfl

section

variable (h : s.Sound owner)
include h

/-- The rule for a step of a task, a write or an abort, that has the request in its hands, or takes
it there from its list; it may hold nothing afterwards. -/
theorem Sound.inHand {u : Conn} {t : Bool → Holder}
    {hand : Option (ℕ × Bool)} (hinj : ∀ c c', t c = t c' ↔ c = c')
    (hother : ∀ g x, x ≠ r → (u.holds g x ↔ s.holds g x))
    (hself : ∀ g, (∀ c, g ≠ t c) → ¬ u.holds g r) (hfree : ∀ c x, x ≠ r → ¬ s.holds (t c) x)
    (htask : ∀ c x, s'.holds (t c) x ↔ hand = some (x, c))
    (hrest : ∀ g x, (∀ c, g ≠ t c) → (s'.holds g x ↔ u.holds g x))
    (hhand : ∀ p ∈ hand, p.1 = r) (hshape : s'.Shape)
    (hreq : ReqOk (s'.reqs r) (hand.map fun p => t p.2) (s'.readers r))
    (hframe : ∀ x, x ≠ r → s'.reqs x = s.reqs x ∧ s'.readers x = s.readers x) :
    ∃ owner', s'.Sound owner' := by
  refine ⟨_, h.next (hand.map fun p => t p.2) hshape (fun g x hx => ?_) (fun g => ?_) hreq hframe⟩
  · by_cases hg : ∃ c, g = t c
    · obtain ⟨c, rfl⟩ := hg
      exact iff_of_false (fun hx' => hx (hhand _ ((htask c x).mp hx'))) (hfree c x hx)
    · rw [hrest g x (not_exists.mp hg), hother g x hx]
  · by_cases hg : ∃ c, g = t c
    · obtain ⟨c, rfl⟩ := hg
      rw [htask]
      cases hand with
      | none => simp
      | some p =>
        obtain ⟨x, c'⟩ := p
        obtain rfl : x = r := hhand _ rfl
        simp [hinj c' c]
    · refine iff_of_false ((hrest g r (not_exists.mp hg)).not.mpr (hself g (not_exists.mp hg))) ?_
      intro heq
      obtain ⟨p, -, rfl⟩ := Option.map_eq_some_iff.mp heq
      exact hg ⟨p.2, rfl⟩

theorem Sound.modify (hc : (s.reqs r).caller.refs = 1)
    (hreq : ReqOk (f (s.reqs r)) (owner r) (s.readers r))
    (hre : (s.reqs r).caller ≠ .reclaimed) (hre' : (f (s.reqs r)).caller ≠ .reclaimed) :
    (s.modifyReq r f).Sound owner := by
  have hf := h.freed_of_caller hc
  have hmade := h.lt_made (r := r) (by intro ha; simp [ha, Caller.refs] at hc)
  have hholds : ∀ g x, (s.modifyReq r f).holds g x ↔ s.holds g x := by
    intro g x
    rw [holds_modifyReq]
    split
    · next hgx =>
      obtain ⟨rfl, rfl⟩ := hgx
      exact iff_of_false hre' hre
    · exact Iff.rfl
  rw [← update_eq_self r owner]
  refine h.next (owner r) (h.shape.modifyReq hf hmade f) (fun g x _ => hholds g x)
    (fun g => (hholds g r).trans (h.owns g r)) ?_ fun x hx => ?_
  · simpa [Conn.modifyReq, readers, use] using hreq
  · exact ⟨update_of_ne hx _ _, rfl⟩

/-! ### The caller -/

theorem Sound.call (outMax : ℕ) : ∃ owner', Sound { s with
      reqs := update s.reqs s.made
        { Req.blank with refs := 1, outMax := outMax, caller := .made }
      made := s.made + 1 } owner' := by
  have hc := h.shape.unmade s.made (Nat.le_refl _)
  obtain ⟨hn, hu⟩ := (h.req s.made).unmade hc
  have ho := (h.req s.made).unowned hu
  refine ⟨_, h.next (r := s.made) none ?_ (fun g x hx => ?_) (fun g => ?_) ?_ fun x hx => ?_⟩
  · exact { h.shape with
      unmade := fun x hx => by
        dsimp only at hx ⊢
        rw [update_of_ne (by omega)]
        exact h.shape.unmade x (by omega) }
  · cases g <;> simp [holds, hx]
  · have := h.not_holds ho g
    cases g <;> simp_all [holds]
  · constructor <;> simp_all [Req.blank, Caller.refs, readers]
  · exact ⟨update_of_ne hx _ _, rfl⟩

theorem Sound.enqueue (hc : (s.reqs r).caller = .made) (hcon : s.connected = true) :
    ∃ owner', Sound { s.modifyReq r fun q =>
        { q with unique := s.nextUnique + 1, refs := q.refs + 1, caller := .waiting } with
      nextUnique := s.nextUnique + 1
      pending := s.pending ++ [r] } owner' := by
  have hf := h.freed_of_caller (r := r) (by rw [hc]; rfl)
  have hmade := h.lt_made (r := r) (by rw [hc]; simp)
  have ho := (h.req r).unowned ((h.req r).unqueued hc).1
  have hnot := h.not_holds ho
  have hr : r ∉ s.pending := hnot .pending
  have hshape := h.shape.modifyReq hf hmade fun q =>
    { q with unique := s.nextUnique + 1, refs := q.refs + 1, caller := .waiting }
  refine ⟨_, h.next (r := r) (some .pending) ?_ (fun g x hx => ?_) (fun g => ?_) ?_ fun x hx => ?_⟩
  · exact { hshape with
      pending := nodup_append.mpr ⟨h.shape.pending, nodup_singleton r, by
        intro a ha b hb hab
        rw [mem_singleton.mp hb] at hab
        exact hr (hab ▸ ha)⟩
      cut := fun hcut => absurd hcut (by simp [Conn.modifyReq, use, hcon]) }
  · cases g with
    | pending => simp [holds, hx]
    | _ => simp [holds, Conn.modifyReq, use, hx]
  · have := hnot g
    cases g with
    | pending => simp [holds]
    | caller => simp [holds, Conn.modifyReq]
    | _ => simpa [holds, Conn.modifyReq, use] using this
  · have := (h.req r).enqueue (u := s.nextUnique + 1) hc (by omega)
    simpa [Conn.modifyReq, readers, use] using this
  · exact ⟨update_of_ne hx _ _, rfl⟩

theorem Sound.returned (hc : (s.reqs r).caller.refs = 1)
    (hre : (s.reqs r).caller ≠ .reclaimed) (ret : Req → ℤ) :
    (s.modifyReq r fun q => { q.put with caller := .returned (ret q) }).Sound owner :=
  h.modify hc ((h.req r).returned hc _) hre (by simp)

theorem Sound.goesOn {c : Caller} (hc : (s.reqs r).caller.refs = 1)
    (hre : (s.reqs r).caller ≠ .reclaimed) (hc' : c.refs = 1) (hmade : c ≠ .made)
    (hwait : c ≠ .waiting) (hre' : c ≠ .reclaimed) :
    (s.modifyReq r fun q => { q with caller := c }).Sound owner :=
  h.modify hc ((h.req r).goesOn hc hc' hmade hwait) hre hre'

theorem Sound.dropQueue (hc : (s.reqs r).caller = .reclaimed) :
    ∃ owner', Sound (s.modifyReq r fun q => { q.putQueue with caller := .leaving }) owner' := by
  have hheld : s.holds .caller r := hc
  obtain ⟨hf, -, hmade, hreq⟩ := h.owned hheld
  refine ⟨_, h.next (r := r) none (h.shape.modifyReq hf hmade _) (fun g x hx => ?_) (fun g => ?_) ?_
    fun x hx => ?_⟩
  · rw [holds_modifyReq]
    simp [hx]
  · rw [holds_modifyReq]
    split
    · simp
    · next hg =>
      rw [h.holds_iff hheld]
      simp only [reduceCtorEq, iff_false]
      intro heq
      exact hg ⟨heq.symm, rfl⟩
  · have hput := (hreq.putQueue (by rw [hc]; simp) (by rw [hc]; simp)).goesOn (c := .leaving)
      (by simp [Req.putQueue, Req.put, hc, Caller.refs]) rfl (by simp) (by simp)
    simpa [Conn.modifyReq, readers, use] using hput
  · exact ⟨update_of_ne hx _ _, rfl⟩

end

/-! ### Lists -/

theorem Shape.deadList_isSome (h : s.Shape) : (s.deadList r).isSome = true ↔
    ∃ k, r ∈ (s.aborts k).dead := by
  unfold deadList
  rw [find?_isSome]
  simp only [mem_range, decide_eq_true_eq]
  constructor
  · rintro ⟨k, -, hk⟩
    exact ⟨k, hk⟩
  · rintro ⟨k, hk⟩
    refine ⟨k, ?_, hk⟩
    by_contra hlt
    rw [h.unbegun k (by omega)] at hk
    simp at hk

theorem Shape.linked_iff (h : s.Shape) : s.linked r = true ↔
    s.holds .pending r ∨ s.holds .processing r ∨ ∃ k, s.holds (.dead k) r := by
  unfold linked
  simp only [Bool.or_eq_true, decide_eq_true_eq, h.deadList_isSome, holds, or_assoc]

theorem listDelInit_of_alive (hf : (s.reqs r).freed = false) :
    s.listDelInit r = { s with
      pending := s.pending.erase r
      processing := s.processing.erase r
      aborts := fun k => { s.aborts k with dead := (s.aborts k).dead.erase r } } := by
  rw [listDelInit, use_of_alive hf]

theorem Shape.holds_listDelInit (h : s.Shape) (g : Holder) (x : ℕ) :
    (s.listDelInit r).holds g x ↔ s.holds g x ∧ (g.isList = true → x ≠ r) := by
  cases g with
  | pending => simp [holds, listDelInit, use, Holder.isList, h.pending.mem_erase_iff, and_comm]
  | processing =>
    simp [holds, listDelInit, use, Holder.isList, h.processing.mem_erase_iff, and_comm]
  | dead k => simp [holds, listDelInit, use, Holder.isList, (h.dead k).mem_erase_iff, and_comm]
  | _ => simp [holds, listDelInit, use, Holder.isList]

theorem Shape.listDelInit (h : s.Shape) (hf : (s.reqs r).freed = false)
    (hwalk : ∀ k, Abort.Walks k ⟨(s.aborts k).dead.erase r, (s.aborts k).stage⟩) :
    (s.listDelInit r).Shape := by
  rw [listDelInit_of_alive hf]
  exact { h with
    pending := h.pending.erase r
    processing := h.processing.erase r
    dead := fun k => (h.dead k).erase r
    walk := hwalk
    cut := fun hc => by simp [h.cut hc]
    unbegun := fun k hk => by simp [h.unbegun k hk] }

end Conn

theorem Abort.Walks.erase {k r : ℕ} {t : Abort} (h : t.Walks k) (hr : t.stage.eyes r = false) :
    Abort.Walks k ⟨t.dead.erase r, t.stage⟩ := by
  have hfirst : ∀ l : List ℕ, firstNode (.dead k) l ≠ .req r →
      firstNode (.dead k) (l.erase r) = firstNode (.dead k) l := by
    intro l hl
    cases l with
    | nil => rfl
    | cons x l =>
      have hx : x ≠ r := fun hx => hl (by rw [hx]; rfl)
      rw [erase_cons_tail (by simpa using hx)]
      rfl
  unfold Abort.Walks at h ⊢
  cases hs : t.stage with
  | spliced => trivial
  | current pos next =>
    simp only [hs, Stage.eyes, decide_eq_false_iff_not, not_or] at h hr
    obtain ⟨rest, hdead, rfl⟩ := h
    exact ⟨rest.erase r, by
      rw [hdead, erase_cons_tail (by simpa using hr.1)], (hfirst rest hr.2).symm⟩
  | unlinked pos next | failed pos next | dropped next =>
    simp only [hs, Stage.eyes, decide_eq_false_iff_not] at h hr
    subst h
    exact (hfirst _ hr).symm
  | returned =>
    simp only [hs] at h
    simp [h]

theorem Abort.walks_erase_of_not_mem {k r : ℕ} {t : Abort} (h : t.Walks k) (hr : r ∉ t.dead) :
    Abort.Walks k ⟨t.dead.erase r, t.stage⟩ := by
  rw [erase_of_not_mem hr]
  exact h

namespace Conn

variable {s s' : Conn} {owner : ℕ → Option Holder} {r : ℕ} {k : ℕ} {stage : Stage}

theorem Sound.exists_list (h : s.Sound owner) (hl : s.linked r = true) :
    ∃ g, g.isList = true ∧ s.holds g r := by
  rcases h.shape.linked_iff.mp hl with hg | hg | ⟨k, hg⟩
  · exact ⟨_, rfl, hg⟩
  · exact ⟨_, rfl, hg⟩
  · exact ⟨_, rfl, hg⟩

/-- Taking a request off its list leaves it without an owner, for the moment. -/
theorem Sound.holds_unlinked (h : s.Sound owner) (hlist : g.isList = true)
    (hg : s.holds g r) (g' : Holder) : ¬ (s.listDelInit r).holds g' r := by
  rw [h.shape.holds_listDelInit, h.holds_iff hg]
  rintro ⟨rfl, hne⟩
  exact hne hlist rfl

theorem Sound.holds_others (h : s.Sound owner) (g : Holder) {x : ℕ} (hx : x ≠ r) :
    (s.listDelInit r).holds g x ↔ s.holds g x := by
  rw [h.shape.holds_listDelInit]
  simp [hx]

theorem Sound.reclaim (h : s.Sound owner) (hc : (s.reqs r).caller = .killed)
    (hl : s.linked r = true) (hok : ∀ k < s.nAborts, (s.aborts k).stage.eyes r = false) :
    ∃ owner', Sound ((s.listDelInit r).modifyReq r fun q => { q with caller := .reclaimed })
      owner' := by
  obtain ⟨g, hlist, hg⟩ := h.exists_list hl
  have hnot := h.holds_unlinked hlist hg
  obtain ⟨hf, -, hmade, hreq⟩ := h.owned hg
  have heyes : ∀ k, (s.aborts k).stage.eyes r = false := by
    intro k
    by_cases hk : k < s.nAborts
    · exact hok k hk
    · rw [h.shape.unbegun k (by omega)]
      rfl
  have hshape : (s.listDelInit r).Shape :=
    h.shape.listDelInit hf fun k => (h.shape.walk k).erase (heyes k)
  refine ⟨_, h.next (r := r) (some .caller) (hshape.modifyReq hf hmade _) (fun g' x hx => ?_)
    (fun g' => ?_) ?_ fun x hx => ?_⟩
  · rw [holds_modifyReq, if_neg (by simp [hx]), h.holds_others g' hx]
  · rw [holds_modifyReq]
    split
    · next hgx => simp [hgx.1]
    · next hgx =>
      refine iff_of_false (hnot g') fun heq => hgx ⟨(Option.some.inj heq).symm, rfl⟩
  · have hpass := (hreq.pass (k := .caller) (Holder.completed_of_isList hlist)).goesOn
      (c := .reclaimed) (by rw [hc]; rfl) rfl (by simp) (by simp)
    simpa [Conn.modifyReq, Conn.listDelInit, readers, use] using hpass
  · exact ⟨update_of_ne hx _ _, rfl⟩

/-! ### Reads -/

theorem readers_set {t u : Read} (hi : s.reads[i]? = some t) (x : ℕ) :
    (s.setRead i u).readers x + (t.on x).toNat = s.readers x + (u.on x).toNat := by
  obtain ⟨hlt, hget⟩ := List.getElem?_eq_some_iff.mp hi
  have hpos : t.on x = true → 0 < s.readers x := readers_pos hi
  unfold readers at hpos ⊢
  rw [setRead, countP_set hlt, hget]
  cases ht : t.on x with
  | false => cases u.on x <;> simp
  | true =>
    have := hpos ht
    cases u.on x <;> simp only [if_true, Bool.false_eq_true, if_false, Bool.toNat_true,
      Bool.toNat_false] <;> omega

section

variable (h : s.Sound owner)
include h

theorem Sound.setRead {t t' : Read} (hi : s.reads[i]? = some t)
    (ht : ∀ x, t'.on x = t.on x) : (s.setRead i t').Sound owner where
  shape := { h.shape with }
  owns := by
    intro g x
    rw [← h.owns]
    cases g <;> rfl
  req := by
    intro x
    have hcount := readers_set (u := t') hi x
    rw [ht x] at hcount
    have heq : (s.setRead i t').readers x = s.readers x := by omega
    rw [heq]
    exact h.req x

theorem Sound.read {rest : List ℕ} (hcon : s.connected = true) (hp : s.pending = r :: rest) :
    ∃ owner', Sound { s.modifyReq r fun q => { q with refs := q.refs + 1 } with
      pending := rest
      processing := s.processing ++ [r]
      reads := s.reads ++ [.copying r] } owner' := by
  have hg : s.holds .pending r := by simp [holds, hp]
  obtain ⟨hf, hcaller, hmade, hreq⟩ := h.owned hg
  have hnd := h.shape.pending
  rw [hp, nodup_cons] at hnd
  have hq : r ∉ s.processing := by
    intro hq
    have := (h.holds_iff hg .processing).mp hq
    cases this
  have hshape := h.shape.modifyReq hf hmade fun q => { q with refs := q.refs + 1 }
  refine ⟨_, h.next (r := r) (some .processing) ?_ (fun g x hx => ?_) (fun g => ?_) ?_
    fun x hx => ?_⟩
  · exact { hshape with
      pending := hnd.2
      processing := nodup_append.mpr ⟨h.shape.processing, nodup_singleton r, by
        intro a ha b hb hab
        rw [mem_singleton.mp hb] at hab
        exact hq (hab ▸ ha)⟩
      cut := fun hcut => absurd hcut (by simp [Conn.modifyReq, use, hcon]) }
  · cases g with
    | pending => simp [holds, hp, hx]
    | processing => simp [holds, hx]
    | _ => simp [holds, Conn.modifyReq, use, hx]
  · have hiff := h.holds_iff hg g
    cases g with
    | pending => simpa [holds] using hnd.1
    | processing => simp [holds]
    | caller => simpa [holds, Conn.modifyReq] using hiff
    | _ => simpa [holds, Conn.modifyReq, use] using hiff
  · have hread := (hreq.pass (k := .processing) rfl).read hcaller
    simpa [Conn.modifyReq, readers, use, Read.on] using hread
  · refine ⟨update_of_ne hx _ _, ?_⟩
    simp [readers, Read.on, Ne.symm hx]

theorem Sound.requeue (hi : s.reads[i]? = some (.failed r))
    (hl : s.linked r = true) (hok : ∀ k, r ∉ (s.aborts k).dead) :
    ∃ owner', Sound { (s.listDelInit r).setRead i (.leaving r) with
      pending := r :: s.pending.erase r } owner' := by
  obtain ⟨g, hlist, hg⟩ := h.exists_list hl
  have hnot := h.holds_unlinked hlist hg
  obtain ⟨hf, -, -, hreq⟩ := h.owned hg
  have hshape : (s.listDelInit r).Shape :=
    h.shape.listDelInit hf fun k => Abort.walks_erase_of_not_mem (h.shape.walk k) (hok k)
  have hcount : ∀ x, ((s.listDelInit r).setRead i (.leaving r)).readers x = s.readers x := by
    intro x
    have := readers_set (s := s.listDelInit r) (u := .leaving r) hi x
    simp only [Read.on, Nat.add_right_cancel_iff] at this
    exact this
  have hcut : s.connected = false → False := by
    intro hcut
    obtain ⟨hp, hq⟩ := h.shape.cut hcut
    rcases h.shape.linked_iff.mp hl with hg | hg | ⟨k, hg⟩
    · simp [holds, hp] at hg
    · simp [holds, hq] at hg
    · exact hok k hg
  refine ⟨_, h.next (r := r) (some .pending) ?_ (fun g' x hx => ?_) (fun g' => ?_) ?_
    fun x hx => ?_⟩
  · exact { hshape with
      pending := nodup_cons.mpr ⟨h.shape.pending.not_mem_erase, h.shape.pending.erase r⟩
      cut := fun hc => (hcut hc).elim }
  · rw [← h.holds_others g' hx]
    cases g' with
    | pending => simp [holds, Conn.listDelInit, hx]
    | _ => rfl
  · have := hnot g'
    cases g' with
    | pending => simp [holds]
    | _ => simpa [holds, Conn.setRead] using this
  · have hpass := hreq.pass (k := .pending) (Holder.completed_of_isList hlist)
    rw [← hcount r] at hpass
    exact hpass
  · exact ⟨rfl, hcount x⟩

theorem Sound.readPut (hi : s.reads[i]? = some (.leaving r)) :
    ((s.modifyReq r Req.put).setRead i .done).Sound owner := by
  have hpos : 0 < s.readers r := readers_pos hi (by simp [Read.on])
  have hf := h.freed_of_reader hpos
  have hmade : r < s.made := by
    apply h.lt_made
    intro ha
    have := ((h.req r).unmade ha).1
    omega
  have hcount : ∀ x, ((s.modifyReq r Req.put).setRead i .done).readers x +
      (decide (r = x)).toNat = s.readers x := by
    intro x
    exact readers_set (s := s.modifyReq r Req.put) (u := .done) hi x
  have hshape := h.shape.modifyReq hf hmade Req.put
  rw [← update_eq_self r owner]
  refine h.next (owner r) ?_ (fun g x hx => ?_) (fun g => ?_) ?_ fun x hx => ?_
  · exact { hshape with }
  · rw [← holds_modified (s := s) (f := Req.put) rfl g x]
    cases g <;> rfl
  · rw [← h.owns, ← holds_modified (s := s) (f := Req.put) rfl g r]
    cases g <;> rfl
  · have hn := hcount r
    simp only [decide_true, Bool.toNat_true] at hn
    have hreq := h.req r
    rw [← hn] at hreq
    have hput := hreq.readPut
    simpa [Conn.modifyReq, Conn.setRead] using hput
  · refine ⟨update_of_ne hx _ _, ?_⟩
    simpa [Ne.symm hx] using hcount x

/-! ### Writes -/

theorem Sound.look : { s with bad := s.bad || s.processing.any fun r => (s.reqs r).freed } = s := by
  have hnone : (s.processing.any fun r => (s.reqs r).freed) = false := by
    rw [any_eq_false]
    intro r hr
    have hg : s.holds .processing r := hr
    simp [(h.owned hg).alive]
  rw [hnone, Bool.or_false]

end

theorem holds_setWrite (w : ℕ) (t : Write) :
    (∀ c x, (s.setWrite w t).holds (.writer w c) x ↔ t.hand = some (x, c)) ∧
      ∀ g x, (∀ c, g ≠ .writer w c) → ((s.setWrite w t).holds g x ↔ s.holds g x) := by
  refine ⟨fun c x => by simp [holds, setWrite], fun g x hg => ?_⟩
  cases g with
  | writer v c =>
    have hv : v ≠ w := fun hv => hg c (by rw [hv])
    simp [holds, setWrite, hv]
  | _ => rfl

theorem Sound.find (h : s.Sound owner) (hr : r ∈ s.processing) :
    ∃ owner', Sound { (s.listDelInit r).setWrite s.nWrites (.holding r) with
      nWrites := s.nWrites + 1 } owner' := by
  have hg : s.holds .processing r := hr
  obtain ⟨hf, -, -, hreq⟩ := h.owned hg
  have hdead : ∀ k, r ∉ (s.aborts k).dead := by
    intro k hk
    have := (h.holds_iff hg (.dead k)).mp hk
    cases this
  have hshape : (s.listDelInit r).Shape :=
    h.shape.listDelInit hf fun k => Abort.walks_erase_of_not_mem (h.shape.walk k) (hdead k)
  have hdone := h.shape.unwritten s.nWrites (Nat.le_refl _)
  obtain ⟨htask, hrest⟩ := holds_setWrite (s := s.listDelInit r) s.nWrites (.holding r)
  refine h.inHand (u := s.listDelInit r) (t := .writer s.nWrites) (by simp)
    (fun g x hx => h.holds_others g hx) (fun g _ => h.holds_unlinked rfl hg g) ?_ htask hrest
    (by simp [Write.hand]) ?_ (hreq.pass rfl) fun x hx => ⟨rfl, rfl⟩
  · simp [holds, hdone, Write.hand]
  · exact { hshape with
      unwritten := fun w hw => by
        simp only [setWrite] at hw ⊢
        rw [update_of_ne (by omega)]
        exact h.shape.unwritten w (by omega) }

theorem Shape.setWrite (h : s.Shape) {w : ℕ} (hw : s.writes w ≠ .done) (t : Write) :
    (s.setWrite w t).Shape :=
  { h with
    unwritten := fun v hv => by
      have hne : v ≠ w := fun heq => hw (h.unwritten w (heq ▸ hv))
      simp only [Conn.setWrite]
      rw [update_of_ne hne]
      exact h.unwritten v hv }

theorem Sound.write (h : s.Sound owner) {w : ℕ} {c : Bool} {t : Write}
    (hw : (s.writes w).hand = some (r, c)) (ht : ∀ p ∈ t.hand, p.1 = r)
    (hcaller : (f (s.reqs r)).caller = (s.reqs r).caller)
    (hreq : ReqOk (s.reqs r) (some (.writer w c)) (s.readers r) →
      ReqOk (f (s.reqs r)) (t.hand.map fun p => .writer w p.2) (s.readers r)) :
    ∃ owner', ((s.modifyReq r f).setWrite w t).Sound owner' := by
  have hg : s.holds (.writer w c) r := hw
  obtain ⟨hf, -, hmade, hok⟩ := h.owned hg
  have hnd : (s.modifyReq r f).writes w ≠ .done := by
    intro hd
    have : s.writes w = .done := hd
    rw [this] at hw
    cases hw
  obtain ⟨htask, hrest⟩ := holds_setWrite (s := s.modifyReq r f) w t
  refine h.inHand (u := s.modifyReq r f) (t := .writer w) (by simp)
    (fun g x _ => holds_modified hcaller g x) (fun g hne => ?_) (fun c' x hx hx' => ?_) htask hrest
    ht ((h.shape.modifyReq hf hmade f).setWrite hnd t) ?_
    fun x hx => ⟨update_of_ne hx _ _, rfl⟩
  · rw [holds_modified hcaller, h.holds_iff hg]
    exact fun heq => hne c heq.symm
  · cases hw.symm.trans hx'
    exact hx rfl
  · simpa [Conn.modifyReq, Conn.setWrite, readers, use] using hreq hok

/-! ### Aborts -/

theorem Shape.setStage (h : s.Shape) (hk : (s.aborts k).stage ≠ .returned)
    (hw : Abort.Walks k ⟨(s.aborts k).dead, stage⟩) : (s.setStage k stage).Shape :=
  { h with
    dead := fun j => by
      by_cases hj : j = k
      · subst hj
        simpa [Conn.setStage] using h.dead j
      · simpa [Conn.setStage, hj] using h.dead j
    walk := fun j => by
      by_cases hj : j = k
      · subst hj
        simpa [Conn.setStage] using hw
      · simpa [Conn.setStage, hj] using h.walk j
    unbegun := fun j hj => by
      have hne : j ≠ k := fun heq => hk (by rw [h.unbegun k (heq ▸ hj)])
      simpa [Conn.setStage, hne] using h.unbegun j hj }

theorem holds_setStage (k : ℕ) (stage : Stage) :
    (∀ c x, (s.setStage k stage).holds (.abort k c) x ↔ stage.hand = some (x, c)) ∧
      ∀ g x, (∀ c, g ≠ .abort k c) → ((s.setStage k stage).holds g x ↔ s.holds g x) := by
  refine ⟨fun c x => by simp [holds, Conn.setStage], fun g x hg => ?_⟩
  cases g with
  | abort j c =>
    have hj : j ≠ k := fun hj => hg c (by rw [hj])
    simp [holds, Conn.setStage, hj]
  | dead j =>
    by_cases hj : j = k
    · subst hj
      simp [holds, Conn.setStage]
    · simp [holds, Conn.setStage, hj]
  | _ => rfl

section

variable (h : s.Sound owner)
include h

theorem Sound.setStage
    (hk : (s.aborts k).stage ≠ .returned) (hw : Abort.Walks k ⟨(s.aborts k).dead, stage⟩)
    (hhand : stage.hand = (s.aborts k).stage.hand) : (s.setStage k stage).Sound owner where
  shape := h.shape.setStage hk hw
  owns := by
    intro g x
    rw [← h.owns]
    by_cases hg : ∃ c, g = .abort k c
    · obtain ⟨c, rfl⟩ := hg
      rw [(holds_setStage k stage).1, hhand]
      rfl
    · exact (holds_setStage k stage).2 g x (not_exists.mp hg)
  req := h.req

theorem Sound.abortHand {c : Bool} (hk : (s.aborts k).stage.hand = some (r, c))
    (hw : Abort.Walks k ⟨(s.aborts k).dead, stage⟩) (ht : ∀ p ∈ stage.hand, p.1 = r)
    (hcaller : (f (s.reqs r)).caller = (s.reqs r).caller)
    (hreq : ReqOk (s.reqs r) (some (.abort k c)) (s.readers r) →
      ReqOk (f (s.reqs r)) (stage.hand.map fun p => .abort k p.2) (s.readers r)) :
    ∃ owner', ((s.modifyReq r f).setStage k stage).Sound owner' := by
  have hg : s.holds (.abort k c) r := hk
  obtain ⟨hf, -, hmade, hok⟩ := h.owned hg
  have hnr : (s.aborts k).stage ≠ .returned := by
    intro hd
    rw [hd] at hk
    cases hk
  obtain ⟨htask, hrest⟩ := holds_setStage (s := s.modifyReq r f) k stage
  refine h.inHand (u := s.modifyReq r f) (t := .abort k) (by simp)
    (fun g x _ => holds_modified hcaller g x) (fun g hne => ?_) (fun c' x hx hx' => ?_) htask hrest
    ht ((h.shape.modifyReq hf hmade f).setStage hnr hw) ?_
    fun x hx => ⟨update_of_ne hx _ _, rfl⟩
  · rw [holds_modified hcaller, h.holds_iff hg]
    exact fun heq => hne c heq.symm
  · cases hk.symm.trans hx'
    exact hx rfl
  · simpa [Conn.modifyReq, Conn.setStage, readers, use] using hreq hok

theorem Sound.nextNode_head {rest : List ℕ}
    (hd : (s.aborts k).dead = r :: rest) : s.nextNode r = firstNode (.dead k) rest := by
  have hg : s.holds (.dead k) r := by simp [holds, hd]
  have hp : r ∉ s.pending := by
    intro hp
    have := (h.holds_iff hg .pending).mp hp
    cases this
  have hq : r ∉ s.processing := by
    intro hq
    have := (h.holds_iff hg .processing).mp hq
    cases this
  obtain ⟨j, hj⟩ := Option.isSome_iff_exists.mp (h.shape.deadList_isSome.mpr ⟨k, hg⟩)
  have hmem : s.holds (.dead j) r := by
    have := find?_some hj
    simpa [holds] using this
  have hjk : k = j := by
    have := (h.holds_iff hg (.dead j)).mp hmem
    simpa using this
  subst hjk
  simp [nextNode, hp, hq, hj, nodeAfter, hd]

theorem Sound.goTo (hk : (s.aborts k).stage ≠ .returned) (hhand : (s.aborts k).stage.hand = none) :
    (s.goTo k (firstNode (.dead k) (s.aborts k).dead)).Sound owner := by
  cases hd : (s.aborts k).dead with
  | nil =>
    have heq : s.goTo k (firstNode (.dead k) []) = s.setStage k .returned := by
      simp [Conn.goTo, firstNode, Conn.setStage]
    rw [heq]
    exact h.setStage hk hd hhand.symm
  | cons r rest =>
    have hg : s.holds (.dead k) r := by simp [holds, hd]
    have hf := (h.owned hg).alive
    simp only [Conn.goTo, firstNode, use_of_alive hf, h.nextNode_head hd]
    exact h.setStage hk ⟨rest, hd, rfl⟩ hhand.symm

theorem Sound.unlink {next : Node} (hk : (s.aborts k).stage = .current r next) :
    ∃ owner', ((s.listDelInit r).setStage k (.unlinked r next)).Sound owner' := by
  have hwalk := h.shape.walk k
  simp only [Abort.Walks, hk] at hwalk
  obtain ⟨rest, hd, hnext⟩ := hwalk
  have hg : s.holds (.dead k) r := by simp [holds, hd]
  obtain ⟨hf, -, -, hreq⟩ := h.owned hg
  have herase : (s.aborts k).dead.erase r = rest := by rw [hd, erase_cons_head]
  have hdead : ∀ j, j ≠ k → r ∉ (s.aborts j).dead := by
    intro j hj hr
    have := (h.holds_iff hg (.dead j)).mp hr
    simp only [Holder.dead.injEq] at this
    exact hj this.symm
  obtain ⟨htask, hrest⟩ := holds_setStage (s := s.listDelInit r) k (.unlinked r next)
  refine h.inHand (u := s.listDelInit r) (t := .abort k) (by simp)
    (fun g x hx => h.holds_others g hx)
    (fun g _ => h.holds_unlinked rfl hg g) ?_ htask hrest (by simp [Stage.hand]) ?_ (hreq.pass rfl)
    fun x hx => ⟨rfl, rfl⟩
  · simp [holds, hk, Stage.hand]
  · rw [listDelInit_of_alive hf]
    exact { h.shape with
      pending := h.shape.pending.erase r
      processing := h.shape.processing.erase r
      dead := fun j => by
        by_cases hj : j = k
        · subst hj
          simpa [Conn.setStage] using (h.shape.dead j).erase r
        · simpa [Conn.setStage, hj] using (h.shape.dead j).erase r
      walk := fun j => by
        by_cases hj : j = k
        · subst hj
          simpa [Conn.setStage, Abort.Walks, herase] using hnext
        · simpa [Conn.setStage, hj] using
            Abort.walks_erase_of_not_mem (h.shape.walk j) (hdead j hj)
      cut := fun hc => by simp [Conn.setStage, h.shape.cut hc]
      unbegun := fun j hj => by
        have hne : j ≠ k := fun heq => by
          rw [h.shape.unbegun k (heq ▸ hj)] at hk
          cases hk
        simp [Conn.setStage, hne, h.shape.unbegun j hj] }

/-- Both lists pass to a new abort. -/
def spliced (n : ℕ) : Option Holder → Option Holder
  | some .pending | some .processing => some (.dead n)
  | o => o

theorem Sound.abort : Sound { s with
      connected := false
      pending := []
      processing := []
      aborts := update s.aborts s.nAborts ⟨s.processing ++ s.pending, .spliced⟩
      nAborts := s.nAborts + 1 } fun r => spliced s.nAborts (owner r) := by
  have hnew := h.shape.unbegun s.nAborts (Nat.le_refl _)
  have hdisj : ∀ a ∈ s.processing, ∀ b ∈ s.pending, a ≠ b := by
    rintro a ha _ hb rfl
    have hg : s.holds .processing a := ha
    have := (h.holds_iff hg .pending).mp hb
    cases this
  constructor
  · exact { h.shape with
      pending := nodup_nil
      processing := nodup_nil
      dead := fun k => by
        by_cases hk : k = s.nAborts
        · subst hk
          simpa using nodup_append.mpr ⟨h.shape.processing, h.shape.pending, hdisj⟩
        · simpa [hk] using h.shape.dead k
      walk := fun k => by
        by_cases hk : k = s.nAborts
        · subst hk
          simp [Abort.Walks]
        · simpa [hk] using h.shape.walk k
      cut := fun _ => ⟨rfl, rfl⟩
      aborted := fun _ _ => rfl
      unbegun := fun k hk => by
        dsimp only at hk ⊢
        rw [update_of_ne (by omega)]
        exact h.shape.unbegun k (by omega) }
  · intro g x
    have hold : ∀ g, owner x = some g ↔ s.holds g x := fun g => (h.owns g x).symm
    have hlists : spliced s.nAborts (owner x) = some g ↔
        (g = .dead s.nAborts ∧ (s.holds .processing x ∨ s.holds .pending x)) ∨
          (g ≠ .pending ∧ g ≠ .processing ∧ s.holds g x) := by
      rw [← hold, ← hold, ← hold]
      cases ho : owner x with
      | none => simp [spliced]
      | some g' => cases g' <;> simp [spliced, eq_comm] <;> grind
    rw [hlists]
    cases g with
    | pending | processing => simp [holds]
    | dead k =>
      by_cases hk : k = s.nAborts
      · subst hk
        simp [holds, hnew]
      · simp [holds, hk]
    | abort k c =>
      by_cases hk : k = s.nAborts
      · subst hk
        simp [holds, hnew, Stage.hand]
      · simp [holds, hk]
    | _ => simp [holds]
  · intro x
    have hreq := h.req x
    cases ho : owner x with
    | none =>
      rw [ho] at hreq
      exact hreq
    | some g =>
      rw [ho] at hreq
      cases g with
      | pending | processing => exact hreq.pass rfl
      | _ => exact hreq

/-! ## Runs -/

/-- **One step.** -/
theorem Sound.step {l : Step} (hok : s.apart l) (hs : s.step l = some s') :
    ∃ owner', s'.Sound owner' := by
  cases l with
  | call outMax =>
    rw [← Option.some.inj hs]
    exact h.call outMax
  | enqueue r =>
    obtain ⟨hc, hs⟩ := Option.ite_none_right_eq_some.mp hs
    split at hs
    · next hcon =>
      rw [← Option.some.inj hs]
      exact h.enqueue hc hcon
    · rw [← Option.some.inj hs]
      exact ⟨owner, h.returned (by rw [hc]; rfl) (by rw [hc]; simp) fun _ => -ECONNABORTED⟩
  | wake r =>
    obtain ⟨⟨hc, -⟩, rfl⟩ := of_guard hs
    exact ⟨owner, h.returned (by rw [hc]; rfl) (by rw [hc]; simp) _⟩
  | kill r =>
    obtain ⟨⟨hc, -⟩, rfl⟩ := of_guard hs
    exact ⟨owner, h.goesOn (by rw [hc]; rfl) (by rw [hc]; simp) rfl (by simp) (by simp) (by simp)⟩
  | reclaim r =>
    obtain ⟨hc, hs⟩ := Option.ite_none_right_eq_some.mp hs
    split at hs
    · next hl =>
      rw [← Option.some.inj hs]
      exact h.reclaim hc hl hok
    · rw [← Option.some.inj hs]
      exact ⟨owner,
        h.goesOn (by rw [hc]; rfl) (by rw [hc]; simp) rfl (by simp) (by simp) (by simp)⟩
  | dropQueue r =>
    obtain ⟨hc, rfl⟩ := of_guard hs
    exact h.dropQueue hc
  | leave r =>
    obtain ⟨hc, rfl⟩ := of_guard hs
    exact ⟨owner, h.returned (by rw [hc]; rfl) (by rw [hc]; simp) fun _ => -EINTR⟩
  | read =>
    simp only [Conn.step] at hs
    split at hs
    · next r rest hcon hp =>
      rw [← Option.some.inj hs]
      exact h.read hcon hp
    · cases hs
  | copied i ok =>
    simp only [Conn.step] at hs
    split at hs
    · next r hi =>
      have hf := h.freed_of_reader (r := r) (readers_pos hi (by simp [Read.on]))
      rw [← Option.some.inj hs, use_of_alive hf]
      exact ⟨owner, h.setRead hi fun x => by cases ok <;> rfl⟩
    · cases hs
  | requeue i =>
    simp only [Conn.step] at hs
    split at hs
    · next r hi =>
      have hf := h.freed_of_reader (r := r) (readers_pos hi (by simp [Read.on]))
      split at hs
      · next hl =>
        rw [← Option.some.inj hs]
        refine h.requeue hi hl fun k hk => ?_
        by_cases hlt : k < s.nAborts
        · have := hok _ (Option.mem_def.mpr hi) k hlt r hk
          simp [Read.on] at this
        · rw [h.shape.unbegun k (by omega)] at hk
          simp at hk
      · rw [← Option.some.inj hs, use_of_alive hf]
        exact ⟨owner, h.setRead hi fun x => rfl⟩
    · cases hs
  | readPut i =>
    simp only [Conn.step] at hs
    split at hs
    · next r hi =>
      rw [← Option.some.inj hs]
      exact ⟨owner, h.readPut hi⟩
    · cases hs
  | find unique =>
    simp only [Conn.step, h.look] at hs
    split at hs
    · next r hr =>
      rw [← Option.some.inj hs]
      exact h.find (mem_of_find?_eq_some hr)
    · rw [← Option.some.inj hs]
      exact ⟨owner, h⟩
  | answer w error payload faulty =>
    simp only [Conn.step] at hs
    split at hs
    · next r hw =>
      rw [← Option.some.inj hs]
      have hmade : (s.reqs r).caller ≠ .made := by
        intro hc
        have hnone := (h.req r).unowned ((h.req r).unqueued hc).1
        exact h.not_holds hnone (.writer w false) (by simp [holds, hw, Write.hand])
      refine h.write (c := false) (by rw [hw]; rfl) (by simp [Write.hand]) ?_ fun hreq => ?_
      · split <;> rfl
      · refine hreq.complete rfl rfl hmade ?_
        split <;> rfl
    · cases hs
  | writePut w =>
    simp only [Conn.step] at hs
    split at hs
    · next r hw =>
      rw [← Option.some.inj hs]
      have hg : s.holds (.writer w true) r := by simp [holds, hw, Write.hand]
      exact h.write (c := true) (by rw [hw]; rfl) (by simp [Write.hand]) rfl fun hreq =>
        hreq.putQueue (h.owned hg).caller fun _ => rfl
    · cases hs
  | abort =>
    rw [← Option.some.inj hs]
    exact ⟨_, h.abort⟩
  | first k =>
    simp only [Conn.step] at hs
    split at hs
    · next hk =>
      rw [← Option.some.inj hs]
      exact ⟨owner, h.goTo (by rw [hk]; simp) (by rw [hk]; rfl)⟩
    · cases hs
  | unlink k =>
    simp only [Conn.step] at hs
    split at hs
    · next pos next hk =>
      rw [← Option.some.inj hs]
      exact h.unlink hk
    · cases hs
  | fail k =>
    simp only [Conn.step] at hs
    split at hs
    · next pos next hk =>
      rw [← Option.some.inj hs]
      have hg : s.holds (.abort k false) pos := by simp [holds, hk, Stage.hand]
      have hwalk := h.shape.walk k
      simp only [Abort.Walks, hk] at hwalk
      have hmade : (s.reqs pos).caller ≠ .made := by
        intro hc
        exact h.not_holds ((h.req pos).unowned ((h.req pos).unqueued hc).1) _ hg
      exact h.abortHand (c := false) (by rw [hk]; rfl) hwalk (by simp [Stage.hand]) rfl fun hreq =>
        hreq.complete rfl rfl hmade rfl
    · cases hs
  | abortPut k =>
    simp only [Conn.step] at hs
    split at hs
    · next pos next hk =>
      rw [← Option.some.inj hs]
      have hg : s.holds (.abort k true) pos := by simp [holds, hk, Stage.hand]
      have hwalk := h.shape.walk k
      simp only [Abort.Walks, hk] at hwalk
      exact h.abortHand (c := true) (by rw [hk]; rfl) hwalk (by simp [Stage.hand]) rfl fun hreq =>
        hreq.putQueue (h.owned hg).caller fun _ => rfl
    · cases hs
  | advance k =>
    simp only [Conn.step] at hs
    split at hs
    · next next hk =>
      have hwalk := h.shape.walk k
      simp only [Abort.Walks, hk] at hwalk
      rw [← Option.some.inj hs, hwalk]
      exact ⟨owner, h.goTo (by rw [hk]; simp) (by rw [hk]; rfl)⟩
    · cases hs

end

/-- **Every request is resolved once**, in every run in which nobody takes away what an abort has
its eyes on. -/
theorem resolved_of_apart (h : Reaches Conn.step apart init s) : s.Resolved := by
  obtain ⟨owner, hsound⟩ : ∃ owner, s.Sound owner := by
    refine h.invariant (fun s => ∃ owner, s.Sound owner) ⟨fun _ => none, sound_init⟩ ?_
    rintro s l s' ⟨owner, hi⟩ hok hs
    exact hi.step hok hs
  exact hsound.resolved

/-- Two requests are queued, one is read and answered, and the other is reclaimed by its caller
after an abort has taken it over but before its loop has begun. -/
theorem resolved_afterAbort : ∃ s, Reaches Conn.step apart init s ∧ s.Resolved ∧
    ((s.reqs 0).caller, (s.reqs 1).caller, (s.reqs 0).drops, (s.reqs 1).drops) =
      (.returned 8, .returned (-EINTR), 1, 1) := by
  obtain ⟨s, hs, hobs⟩ : ∃ s, Reaches Conn.step apart init s ∧ _ :=
    exists_reaches_of_exec
      [.call 8, .call 0, .enqueue 0, .enqueue 1, .read, .copied 0 true, .readPut 0, .find 1,
        .answer 0 0 9 false, .kill 1, .abort, .writePut 0, .reclaim 1, .first 0, .dropQueue 1,
        .wake 0,
        .leave 1]
      (fun s => ((s.reqs 0).caller, (s.reqs 1).caller, (s.reqs 0).drops, (s.reqs 1).drops))
      (.returned 8, .returned (-EINTR), 1, 1) (by decide +kernel) (by decide +kernel)
  exact ⟨s, hs, resolved_of_apart hs, hobs⟩

/-- **What goes wrong.**  An abort has two requests on its list.  While it works on the first, the
caller of the second is killed, finds its request linked, takes it off and frees it: the saved
pointer leads to memory that is gone.  And a read whose copy has failed puts a request that an abort
has taken over back on `pending`: the abort returns, and its caller waits for nobody. -/
theorem not_resolved_walk :
    (∃ s, Reaches Conn.step (fun _ _ => True) init s ∧ s.bad = true) ∧
      ∃ s, Reaches Conn.step (fun _ _ => True) init s ∧ (s.aborts 0).stage = .returned ∧
        (s.reqs 0).caller = .waiting ∧ (s.reqs 0).completions = 0 ∧ s.pending = [0] ∧
        ¬ s.Resolved := by
  constructor
  · exact exists_of_run
      [.call 0, .call 0, .enqueue 0, .enqueue 1, .abort, .first 0, .kill 1, .reclaim 1,
        .dropQueue 1,
        .leave 1, .unlink 0, .fail 0, .abortPut 0, .advance 0]
      (allowed_true _ _ _) (fun _ h => h) (by decide +kernel)
  · have hrun : exec Conn.step init
        [.call 0, .enqueue 0, .read, .copied 0 false, .abort, .requeue 0, .first 0] = some _ := rfl
    refine ⟨_, reaches_of_exec .refl _ (allowed_true _ _ _) hrun, rfl, rfl, rfl, rfl, fun h => ?_⟩
    rcases h.woken 0 Nat.one_pos rfl 0 rfl rfl with ⟨w, hw⟩ | ⟨k, hk, -⟩
    · cases hw
    · -- there was one abort only, and it has returned
      cases k with
      | zero => exact hk rfl
      | succ k => exact hk rfl

end Conn

end AlloyFs.Kernel
