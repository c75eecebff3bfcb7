import AlloyFs.Lib.AList
import AlloyFs.Proto.Messages

/-!
# Blocks of a file, ahead of the reader

A read is served from whole blocks of `DATA_CHUNK` bytes: blocks that were read a moment ago are
retained, and while the reads are sequential the next blocks are fetched before they are asked for.
-/

namespace AlloyFs

open List

/-- How many blocks are kept in flight ahead of a sequential reader. -/
def WINDOW_BLOCKS : ℕ := 32

/-- Consecutive reads before blocks are fetched ahead. -/
def MIN_STREAK : ℕ := 2

/-- Blocks kept for reads of parts of them. -/
def RETAIN_BLOCKS : ℕ := 4

/-- A fetch of a block: under way, or ended, with the bytes if it went well. -/
inductive Fetch
  | pending
  | done (data : Option Bytes)
deriving DecidableEq

/-- The bytes of a block in a list of blocks. -/
def pick (blocks : List (ℕ × Bytes)) (b : ℕ) : Option Bytes :=
  (blocks.find? fun e => e.1 == b).map Prod.snd

theorem mem_of_pick {blocks : List (ℕ × Bytes)} {b : ℕ} {data : Bytes}
    (h : pick blocks b = some data) : (b, data) ∈ blocks := by
  obtain ⟨⟨b', data'⟩, hfind, rfl⟩ := Option.map_eq_some_iff.mp h
  have heq : b' = b := by simpa using find?_some hfind
  exact heq ▸ mem_of_find?_eq_some hfind

structure ReadAhead where
  window : AList fun _ : ℕ => Fetch
  recent : List (ℕ × Bytes)
  expectedNext : ℕ
  streak : ℕ

namespace ReadAhead

def new : ReadAhead := ⟨∅, [], 0, 0⟩

def blockOf (offset : ℕ) : ℕ := offset / DATA_CHUNK

/-- Drop everything in flight and everything retained. -/
def clear (r : ReadAhead) : ReadAhead := { r with window := ∅, recent := [] }

/-- Record the position of a read; are the reads sequential enough to fetch ahead?  A read near
the expected place counts as one in another order, and only a far one starts anew. -/
def observe (r : ReadAhead) (offset size : ℕ) : Bool × ReadAhead :=
  if offset = r.expectedNext then
    let r := { r with streak := r.streak + 1, expectedNext := offset + size }
    (decide (MIN_STREAK ≤ r.streak), r)
  else if blockOf r.expectedNext - WINDOW_BLOCKS ≤ blockOf offset ∧
      blockOf offset ≤ blockOf r.expectedNext + WINDOW_BLOCKS then
    let r := { r with streak := r.streak + 1, expectedNext := max r.expectedNext (offset + size) }
    (decide (MIN_STREAK ≤ r.streak), r)
  else
    (false, { r with
      streak := if offset = 0 then 1 else 0
      expectedNext := offset + size }.clear)

/-- The blocks that follow and are not in flight. -/
def missing (r : ReadAhead) (first : ℕ) : List ℕ :=
  (range' first WINDOW_BLOCKS).filter fun b => (r.window.lookup b).isNone

def put (r : ReadAhead) (b : ℕ) (f : Fetch) : ReadAhead := { r with window := r.window.insert b f }

/-- Take a fetch out of the window. -/
def take (r : ReadAhead) (b : ℕ) : Option Fetch × ReadAhead :=
  (r.window.lookup b, { r with window := r.window.erase b })

def retained (r : ReadAhead) (b : ℕ) : Option Bytes := pick r.recent b

/-- Remember a block, in the place of its older copy or of the oldest block. -/
def retain (r : ReadAhead) (b : ℕ) (data : Bytes) : ReadAhead :=
  if r.recent.any fun e => e.1 == b then
    { r with recent := r.recent.map fun e => if e.1 = b then (b, data) else e }
  else
    { r with recent := (if r.recent.length = RETAIN_BLOCKS then r.recent.tail else r.recent) ++
        [(b, data)] }

/-- The blocks there are bytes of, in the window or retained. -/
def Holds (r : ReadAhead) (b : ℕ) (data : Bytes) : Prop :=
  r.window.lookup b = some (.done (some data)) ∨ (b, data) ∈ r.recent

variable {r : ReadAhead} {b b' : ℕ} {data data' : Bytes}

theorem not_holds_new : ¬ new.Holds b data := by
  simp [Holds, new]

theorem not_holds_clear : ¬ r.clear.Holds b data := by
  simp [Holds, clear]

theorem Holds.of_observe {offset size : ℕ} (h : (r.observe offset size).2.Holds b data) :
    r.Holds b data := by
  unfold observe at h
  split at h
  · exact h
  · split at h
    · exact h
    · exact absurd h not_holds_clear

theorem Holds.of_put {f : Fetch} (h : (r.put b' f).Holds b data) :
    r.Holds b data ∨ b = b' ∧ f = .done (some data) := by
  rcases h with h | h
  · rcases lookup_of_insert h with ⟨rfl, hf⟩ | ⟨-, h⟩
    · exact .inr ⟨rfl, hf.symm⟩
    · exact .inl (.inl h)
  · exact .inl (.inr h)

theorem Holds.of_take (h : (r.take b').2.Holds b data) : r.Holds b data :=
  h.imp_left fun h => (lookup_of_erase h).2

theorem holds_of_retained (h : r.retained b = some data) : r.Holds b data :=
  .inr (mem_of_pick h)

theorem Holds.of_retain (h : (r.retain b' data').Holds b data) :
    r.Holds b data ∨ b = b' ∧ data = data' := by
  rcases h with h | h
  · left; left
    rw [retain] at h
    split at h <;> exact h
  · rw [retain] at h
    split at h
    · obtain ⟨e, he, heq⟩ := mem_map.mp h
      split at heq
      · cases heq
        exact .inr ⟨rfl, rfl⟩
      · exact .inl (.inr (heq ▸ he))
    · rcases mem_append.mp h with h | h
      · left; right
        split at h
        · exact mem_of_mem_tail h
        · exact h
      · cases mem_singleton.mp h
        exact .inr ⟨rfl, rfl⟩

end ReadAhead

/-! ## Putting a read together -/

/-- A block of a content; the last one is short. -/
def block (content : Bytes) (b : ℕ) : Bytes := (content.drop (b * DATA_CHUNK)).take DATA_CHUNK

/-- The bytes of consecutive blocks; a short one is the end of the file. -/
def gather (ready : ℕ → Option Bytes) : List ℕ → Option Bytes
  | [] => some []
  | b :: bs =>
    match ready b with
    | none => none
    | some data =>
      if data.length < DATA_CHUNK then some data else (gather ready bs).map (data ++ ·)

/-- The blocks a read touches. -/
def blocksOf (offset size : ℕ) : List ℕ :=
  range' (ReadAhead.blockOf offset)
    (ReadAhead.blockOf (offset + max size 1 - 1) + 1 - ReadAhead.blockOf offset)

/-- The part of the assembled bytes that was asked for. -/
def cut (offset size : ℕ) (assembled : Bytes) : Bytes :=
  (assembled.drop (offset - ReadAhead.blockOf offset * DATA_CHUNK)).take size

/-- What a read returns that has these blocks. -/
def answer (ready : ℕ → Option Bytes) (offset size : ℕ) : Option Bytes :=
  (gather ready (blocksOf offset size)).map (cut offset size)

theorem gather_block (content : Bytes) (n : ℕ) : ∀ first,
    gather (fun b => some (block content b)) (range' first n) =
      some ((content.drop (first * DATA_CHUNK)).take (n * DATA_CHUNK)) := by
  induction n with
  | zero =>
    intro first
    rfl
  | succ n ih =>
    intro first
    have hnext : content.drop ((first + 1) * DATA_CHUNK) =
        (content.drop (first * DATA_CHUNK)).drop DATA_CHUNK := by
      rw [drop_drop, Nat.succ_mul]
    rw [range'_succ, gather, ih, hnext]
    simp only [block, length_take]
    split
    · next hshort =>
      -- the file ends in this block
      have hlen : (content.drop (first * DATA_CHUNK)).length ≤ DATA_CHUNK := by omega
      rw [take_of_length_le hlen, take_of_length_le]
      exact Nat.le_trans hlen (Nat.le_mul_of_pos_left _ (Nat.succ_pos n))
    · rw [Option.map_some, ← take_add, Nat.succ_mul, Nat.add_comm]

/-- **The blocks of one content give its bytes.** -/
theorem answer_of_content (content : Bytes) (offset size : ℕ) :
    answer (fun b => some (block content b)) offset size =
    some ((content.drop offset).take size) := by
  have hpos : 0 < DATA_CHUNK := by decide
  have hfirst : ReadAhead.blockOf offset * DATA_CHUNK ≤ offset := Nat.div_mul_le_self _ _
  have hlast : offset + size ≤ (ReadAhead.blockOf (offset + max size 1 - 1) + 1) * DATA_CHUNK := by
    have := Nat.lt_div_mul_add (a := offset + max size 1 - 1) hpos
    rw [ReadAhead.blockOf, Nat.succ_mul]
    omega
  rw [answer, blocksOf, gather_block, Option.map_some, cut, drop_take, drop_drop,
    Nat.add_sub_cancel' hfirst, take_take, Nat.sub_mul]
  congr 2
  omega

theorem gather_getD {ready : ℕ → Option Bytes} {d : ℕ → Bytes} {out : Bytes} :
    ∀ {bs : List ℕ}, gather ready bs = some out →
      gather (fun b => some ((ready b).getD (d b))) bs = some out := by
  intro bs
  induction bs generalizing out with
  | nil => exact id
  | cons b bs ih =>
    intro h
    rw [gather] at h ⊢
    cases hb : ready b with
    | none =>
      rw [hb] at h
      cases h
    | some data =>
      rw [hb] at h
      simp only [Option.getD_some] at h ⊢
      split at h
      · next hshort => rw [if_pos hshort, h]
      · next hshort =>
        obtain ⟨rest, hrest, rfl⟩ := Option.map_eq_some_iff.mp h
        rw [if_neg hshort, ih hrest]
        rfl

end AlloyFs
