import Mathlib.Order.Nat

/-!
# A broadcast channel

Every receiver of a broadcast channel gets every value that is sent after it was made, in order.
The channel keeps the last `cap` values.  A receiver that is further behind is told so, once, and
goes on with the oldest value that is kept.

The channel is modelled by all that was ever sent; a receiver is a position in it.  What a receiver
is told accounts for every position that it passes (`Recv.covers_of_recv`).

## Main definitions

* `Broadcast`, `Broadcast.send`, `Broadcast.recv`.
* `Recv` — what a receiver is told.
-/

namespace AlloyFs

universe u

variable {α : Type u}

/-- A channel with all the values that were sent on it. -/
structure Broadcast (α : Type u) where
  cap : ℕ
  sent : List α

/-- What a receiver is told. -/
inductive Recv (α : Type u)
  | value (pos : ℕ) (a : α)
  /-- the values from `start` up to `stop` are no longer kept -/
  | lagged (start stop : ℕ)

/-- The position is accounted for: its value was handed out, or was among those that were missed. -/
def Recv.covers (r : Recv α) (pos : ℕ) : Prop :=
  match r with
  | .value p _ => p = pos
  | .lagged start stop => start ≤ pos ∧ pos < stop

namespace Broadcast

variable {pos : ℕ} {c : Broadcast α}

/-- Where a new receiver starts. -/
def tail (c : Broadcast α) : ℕ := c.sent.length

/-- The first position whose value is kept. -/
def oldest (c : Broadcast α) : ℕ := c.tail - c.cap

def send (c : Broadcast α) (a : α) : Broadcast α := { c with sent := c.sent ++ [a] }

/-- What the receiver at a position gets, and where it is then; `none` while it has to wait. -/
def recv (c : Broadcast α) (pos : ℕ) : Option (Recv α × ℕ) :=
  if pos < c.oldest then some (.lagged pos c.oldest, c.oldest)
  else match c.sent[pos]? with
    | some a => some (.value pos a, pos + 1)
    | none => none

theorem sent_send_of_lt (c : Broadcast α) (a : α) {b : α} (h : c.sent[pos]? = some b) :
    (c.send a).sent[pos]? = some b := by
  obtain ⟨hlt, -⟩ := List.getElem?_eq_some_iff.mp h
  rw [send, List.getElem?_append_left hlt, h]

theorem sent_send_tail (c : Broadcast α) (a : α) : (c.send a).sent[c.tail]? = some a := by
  rw [send, tail, List.getElem?_append_right (Nat.le_refl _), Nat.sub_self]
  rfl

theorem tail_send (c : Broadcast α) (a : α) : (c.send a).tail = c.tail + 1 := by
  rw [tail, send, List.length_append]
  rfl

theorem lt_of_recv {pos' : ℕ} {r : Recv α} (h : c.recv pos = some (r, pos')) :
    pos < pos' ∧ pos' ≤ c.tail := by
  rw [recv] at h
  split at h
  · rename_i hlt
    cases h
    exact ⟨hlt, Nat.sub_le _ _⟩
  · split at h
    · rename_i a ha
      cases h
      obtain ⟨hlt, -⟩ := List.getElem?_eq_some_iff.mp ha
      exact ⟨Nat.lt_succ_self pos, hlt⟩
    · cases h

/-- **Every position that a receiver passes is accounted for.** -/
theorem covers_of_recv {pos' q : ℕ} {r : Recv α}
    (h : c.recv pos = some (r, pos')) (hle : pos ≤ q) (hlt : q < pos') : r.covers q := by
  rw [recv] at h
  split at h
  · cases h
    exact ⟨hle, hlt⟩
  · split at h
    · cases h
      exact Nat.le_antisymm hle (Nat.le_of_lt_succ hlt)
    · cases h

theorem value_of_recv {pos' p : ℕ} {a : α}
    (h : c.recv pos = some (.value p a, pos')) : c.sent[p]? = some a := by
  rw [recv] at h
  split at h
  · cases h
  · split at h
    · rename_i a' ha
      cases h
      exact ha
    · cases h

end Broadcast

end AlloyFs
