import Mathlib.Algebra.Group.Nat.Defs
import Mathlib.Data.List.Basic
import Mathlib.Data.List.DropRight
import Mathlib.Data.Nat.Notation
import Mathlib.Tactic.Common

/-!
# Self-delimiting byte codecs

A `Codec α` writes values of `α` as bytes and reads them back from the front of a
longer input.  Its law is a field: reading what was written returns the value and
leaves exactly the bytes that followed it, so codecs compose without lookahead.

Writing may be refused: `dom` says for which values it is not.  The law is only
claimed there, and each combinator's `dom` is computed from its parts.

Two elementary formats are developed alongside: the base-128 variable-length
natural, and the four-byte little-endian word, which wraps modulo `2 ^ 32`.

## Main definitions

* `Codec` — a writer, a reader and the law that ties them.
* `varint`, `u32ToLe`, `u32OfLe` — numbers.
* `Codec.pair`, `Codec.map`, `Codec.option`, `Codec.list`, `Codec.bytes`,
  `Codec.text`, `Codec.enum` — combinators.
* `squeeze`, `expand` — a minimal compressor, for runs at the end of the input.
-/

namespace AlloyFs

open List

/-! ## Numbers -/

/-- A natural number in base 128, least significant digit first; every digit but
the last carries the continuation bit. -/
def varintBytes (n : ℕ) : List UInt8 :=
  if n < 128 then [UInt8.ofNat n]
  else UInt8.ofNat (n % 128 + 128) :: varintBytes (n / 128)
  decreasing_by omega

theorem varintBytes_small {n : ℕ} (h : n < 128) : varintBytes n = [UInt8.ofNat n] := by
  rw [varintBytes, if_pos h]

theorem length_varintBytes_le {k n : ℕ} (h : n < 128 ^ (k + 1)) :
    (varintBytes n).length ≤ k + 1 := by
  induction k generalizing n with
  | zero => rw [varintBytes_small (by omega), length_singleton]
  | succ k ih =>
    rw [varintBytes]
    split
    · simp
    · have hdiv : n / 128 < 128 ^ (k + 1) := by
        rw [Nat.div_lt_iff_lt_mul (by decide), ← Nat.pow_succ]
        exact h
      exact Nat.succ_le_succ (ih hdiv)

/-- Read one base-128 number, of any length, from the front of the input. -/
def varintTake : List UInt8 → Option (ℕ × List UInt8)
  | [] => none
  | b :: bs =>
    if b.toNat < 128 then some (b.toNat, bs)
    else match varintTake bs with
      | none => none
      | some (n, rest) => some (b.toNat - 128 + 128 * n, rest)

theorem varintTake_varintBytes (n : ℕ) (rest : List UInt8) :
    varintTake (varintBytes n ++ rest) = some (n, rest) := by
  induction n using Nat.strongRecOn with
  | _ n ih =>
    rw [varintBytes]
    by_cases h : n < 128
    · have hn : (UInt8.ofNat n).toNat = n := by
        rw [UInt8.toNat_ofNat']; omega
      simp [h, varintTake, hn]
    · have hd : (UInt8.ofNat (n % 128 + 128)).toNat = n % 128 + 128 := by
        rw [UInt8.toNat_ofNat']; omega
      have hge : ¬ n % 128 + 128 < 128 := by omega
      have hdm : n % 128 + 128 - 128 + 128 * (n / 128) = n := by omega
      simp only [h, if_false, cons_append, varintTake, hd, hge,
        ih (n / 128) (by omega), hdm]

/-- Read a number of `w` bits.  One that is larger, or written with more digits than such a number
can have, is refused. -/
def uintTake (w : ℕ) (bs : List UInt8) : Option (ℕ × List UInt8) :=
  (varintTake bs).filter fun p => p.1 < 2 ^ w && bs.length ≤ p.2.length + (w / 7 + 1)

/-- Read a count of 64 bits, with that limit on its digits.  A larger one is left to whoever then
looks for so many values. -/
def countTake (bs : List UInt8) : Option (ℕ × List UInt8) :=
  (varintTake bs).filter fun p => 2 ^ 64 ≤ p.1 || bs.length ≤ p.2.length + 10

theorem length_varintBytes_le_of_lt_two_pow {w n : ℕ} (h : n < 2 ^ w) :
    (varintBytes n).length ≤ w / 7 + 1 := by
  refine length_varintBytes_le (h.trans_le ?_)
  rw [show 128 = 2 ^ 7 from rfl, ← Nat.pow_mul]
  exact Nat.pow_le_pow_right (by decide) (by omega)

theorem uintTake_varintBytes {w n : ℕ} (h : n < 2 ^ w) (rest : List UInt8) :
    uintTake w (varintBytes n ++ rest) = some (n, rest) := by
  have hlen := length_varintBytes_le_of_lt_two_pow h
  simp only [uintTake, varintTake_varintBytes, Option.filter_some, length_append, h]
  rw [if_pos (by simp; omega)]

theorem countTake_varintBytes (n : ℕ) (rest : List UInt8) :
    countTake (varintBytes n ++ rest) = some (n, rest) := by
  simp only [countTake, varintTake_varintBytes, Option.filter_some, length_append]
  refine if_pos ?_
  by_cases h : n < 2 ^ 64
  · have hlen := length_varintBytes_le_of_lt_two_pow h
    simp only [Bool.or_eq_true, decide_eq_true_eq]
    omega
  · simp only [not_lt.mp h, decide_true, Bool.true_or]

/-- Four little-endian bytes: the value modulo `2 ^ 32`. -/
def u32ToLe (n : ℕ) : List UInt8 :=
  [UInt8.ofNat n, UInt8.ofNat (n / 2 ^ 8), UInt8.ofNat (n / 2 ^ 16), UInt8.ofNat (n / 2 ^ 24)]

/-- The little-endian word at the front of the input; zero when it is too short. -/
def u32OfLe : List UInt8 → ℕ
  | b₀ :: b₁ :: b₂ :: b₃ :: _ =>
    b₀.toNat + 2 ^ 8 * b₁.toNat + 2 ^ 16 * b₂.toNat + 2 ^ 24 * b₃.toNat
  | _ => 0

@[simp] theorem length_u32ToLe (n : ℕ) : (u32ToLe n).length = 4 := rfl

theorem u32OfLe_u32ToLe (n : ℕ) (rest : List UInt8) :
    u32OfLe (u32ToLe n ++ rest) = n % 2 ^ 32 := by
  simp only [u32ToLe, u32OfLe, cons_append, UInt8.toNat_ofNat']
  omega

theorem u32OfLe_append {a : List UInt8} (h : 4 ≤ a.length) (b : List UInt8) :
    u32OfLe (a ++ b) = u32OfLe a := by
  match a, h with
  | _ :: _ :: _ :: _ :: _, _ => rfl

/-! ## Codecs -/

/-- A writer and a reader that consumes exactly what the writer produced. -/
structure Codec (α : Type) where
  /-- The values the writer accepts. -/
  dom : α → Bool
  /-- The bytes of a value; meaningful on `dom`. -/
  put : α → List UInt8
  /-- Read one value from the front of the input and return what follows it. -/
  take : List UInt8 → Option (α × List UInt8)
  /-- Reading back what was written. -/
  take_put : ∀ a, dom a = true → ∀ rest, take (put a ++ rest) = some (a, rest)

namespace Codec

variable {α β : Type}

/-- Base-128 numbers of `w` bits. -/
def varint (w : ℕ) : Codec ℕ where
  dom n := n < 2 ^ w
  put := varintBytes
  take := uintTake w
  take_put _ h rest := uintTake_varintBytes (of_decide_eq_true h) rest

/-- One value after the other. -/
def pair (c : Codec α) (d : Codec β) : Codec (α × β) where
  dom p := c.dom p.1 && d.dom p.2
  put p := c.put p.1 ++ d.put p.2
  take bs :=
    match c.take bs with
    | none => none
    | some (a, rest) =>
      match d.take rest with
      | none => none
      | some (b, rest') => some ((a, b), rest')
  take_put := by
    rintro ⟨a, b⟩ h rest
    simp only [Bool.and_eq_true] at h
    simp only [append_assoc, c.take_put a h.1, d.take_put b h.2]

/-- Carry a codec along a representation `rep` with a left inverse `abs`, for the
values `p` admits. -/
def map (c : Codec α) (abs : α → β) (rep : β → α) (p : β → Bool)
    (h : ∀ b, p b = true → abs (rep b) = b) : Codec β where
  dom b := p b && c.dom (rep b)
  put b := c.put (rep b)
  take bs :=
    match c.take bs with
    | none => none
    | some (a, rest) => some (abs a, rest)
  take_put := by
    intro b hb rest
    simp only [Bool.and_eq_true] at hb
    simp only [c.take_put (rep b) hb.2, h b hb.1]

/-- A finite enumeration, by its tag of `w` bits. -/
def enum (w : ℕ) (tag : α → ℕ) (ofTag : ℕ → Option α)
    (h : ∀ a, tag a < 2 ^ w ∧ ofTag (tag a) = some a) : Codec α where
  dom _ := true
  put a := varintBytes (tag a)
  take bs :=
    match uintTake w bs with
    | none => none
    | some (n, rest) => (ofTag n).map fun a => (a, rest)
  take_put := by
    intro a _ rest
    simp [uintTake_varintBytes (h a).1, (h a).2]

/-- Absence or presence, one tag byte. -/
def option (c : Codec α) : Codec (Option α) where
  dom
    | none => true
    | some a => c.dom a
  put
    | none => [0]
    | some a => 1 :: c.put a
  take
    | 0 :: rest => some (none, rest)
    | 1 :: bs =>
      match c.take bs with
      | none => none
      | some (a, rest) => some (some a, rest)
    | _ => none
  take_put := by
    rintro (_ | a) h rest
    · rfl
    · simp only [cons_append, c.take_put a h]

/-- Read a given number of values. -/
def takeN (c : Codec α) : ℕ → List UInt8 → Option (List α × List UInt8)
  | 0, bs => some ([], bs)
  | n + 1, bs =>
    match c.take bs with
    | none => none
    | some (a, rest) =>
      match takeN c n rest with
      | none => none
      | some (as, rest') => some (a :: as, rest')

theorem takeN_flatMap (c : Codec α) (as : List α) (h : as.all c.dom = true)
    (rest : List UInt8) :
    c.takeN as.length (as.flatMap c.put ++ rest) = some (as, rest) := by
  induction as with
  | nil => rfl
  | cons a as ih =>
    simp only [all_cons, Bool.and_eq_true] at h
    simp only [length_cons, takeN, flatMap_cons, append_assoc,
      c.take_put a h.1, ih h.2]

/-- A sequence: its length, then its elements. -/
def list (c : Codec α) : Codec (List α) where
  dom as := as.all c.dom
  put as := varintBytes as.length ++ as.flatMap c.put
  take bs :=
    match countTake bs with
    | none => none
    | some (n, rest) => c.takeN n rest
  take_put := by
    intro as h rest
    simp only [append_assoc, countTake_varintBytes]
    exact takeN_flatMap c as h rest

/-- Raw bytes behind their length. -/
def bytes : Codec (List UInt8) where
  dom _ := true
  put bs := varintBytes bs.length ++ bs
  take bs :=
    match countTake bs with
    | none => none
    | some (n, rest) => if n ≤ rest.length then some (rest.take n, rest.drop n) else none
  take_put := by
    intro bs _ rest
    simp [countTake_varintBytes]

/-- UTF-8 text behind its length in bytes. -/
def text : Codec (List Char) where
  dom _ := true
  put s := bytes.put (s.flatMap String.utf8EncodeChar)
  take bs :=
    match bytes.take bs with
    | none => none
    | some (raw, rest) => raw.toByteArray.utf8Decode?.map fun s => (s.toList, rest)
  take_put := by
    intro s _ rest
    have hdec : (s.flatMap String.utf8EncodeChar).toByteArray.utf8Decode? = some s.toArray :=
      utf8Decode?_utf8Encode
    simp only [bytes.take_put _ rfl, hdec, Option.map_some]

/-! ### What is accepted -/

section Dom

variable {c : Codec α} {d : Codec β}

@[simp] theorem dom_varint {w n : ℕ} : (varint w).dom n = true ↔ n < 2 ^ w := decide_eq_true_iff

@[simp] theorem dom_pair {p : α × β} :
    (c.pair d).dom p = true ↔ c.dom p.1 = true ∧ d.dom p.2 = true := Bool.and_eq_true_iff

@[simp] theorem dom_map {abs : α → β} {rep : β → α} {p : β → Bool}
    {h : ∀ b, p b = true → abs (rep b) = b} {b : β} :
    (c.map abs rep p h).dom b = true ↔ p b = true ∧ c.dom (rep b) = true := Bool.and_eq_true_iff

@[simp] theorem dom_enum {w : ℕ} {tag : α → ℕ} {ofTag : ℕ → Option α}
    {h : ∀ a, tag a < 2 ^ w ∧ ofTag (tag a) = some a} {a : α} :
    (enum w tag ofTag h).dom a = true := rfl

@[simp] theorem dom_option {o : Option α} :
    c.option.dom o = true ↔ ∀ a ∈ o, c.dom a = true := by
  cases o <;> simp [option]

@[simp] theorem dom_list {as : List α} :
    c.list.dom as = true ↔ ∀ a ∈ as, c.dom a = true := all_eq_true

@[simp] theorem dom_bytes {bs : List UInt8} : bytes.dom bs = true := rfl

@[simp] theorem dom_text {s : List Char} : text.dom s = true := rfl

end Dom

end Codec

/-! ## Squeezing a trailing run -/

/-- Replace the run at the end of the input by its length and its byte. -/
def squeeze (bs : List UInt8) : List UInt8 :=
  match bs.getLast? with
  | none => []
  | some b => varintBytes (bs.rtakeWhile (· == b)).length ++ b :: bs.rdropWhile (· == b)

/-- Write the run out again. -/
def expand (bs : List UInt8) : List UInt8 :=
  match varintTake bs with
  | some (n, b :: front) => front ++ replicate n b
  | _ => []

theorem rtakeWhile_beq_eq_replicate (bs : List UInt8) (b : UInt8) :
    bs.rtakeWhile (· == b) = replicate (bs.rtakeWhile (· == b)).length b := by
  refine eq_replicate_iff.mpr ⟨rfl, fun x hx => ?_⟩
  simpa using mem_rtakeWhile_imp hx

theorem expand_squeeze (bs : List UInt8) : expand (squeeze bs) = bs := by
  unfold squeeze
  split
  · next h => rw [getLast?_eq_none_iff.mp h]; rfl
  · next b _ =>
    simp only [expand, varintTake_varintBytes]
    rw [← rtakeWhile_beq_eq_replicate, rdropWhile_append_rtakeWhile]

theorem squeeze_run (front : List UInt8) (c b : UInt8) (n : ℕ) (h : c ≠ b) :
    squeeze (front ++ [c] ++ replicate (n + 1) b) =
      varintBytes (n + 1) ++ b :: (front ++ [c]) := by
  have hdrop : ∀ k, (front ++ [c] ++ replicate k b).rdropWhile (· == b) = front ++ [c] := by
    intro k
    induction k with
    | zero => rw [replicate_zero, append_nil, rdropWhile_concat_neg _ _ _ (by simpa)]
    | succ k ih =>
      rw [replicate_succ', ← append_assoc,
        rdropWhile_concat_pos _ _ _ (by simp), ih]
  have hlast : (front ++ [c] ++ replicate (n + 1) b).getLast? = some b := by
    rw [replicate_succ', ← append_assoc, getLast?_concat]
  have htake : ((front ++ [c] ++ replicate (n + 1) b).rtakeWhile (· == b)).length = n + 1 := by
    have hall := congrArg length (rdropWhile_append_rtakeWhile (p := (· == b))
      (l := front ++ [c] ++ replicate (n + 1) b))
    simp only [length_append, hdrop, length_replicate] at hall
    omega
  simp only [squeeze, hlast, htake, hdrop]

end AlloyFs
