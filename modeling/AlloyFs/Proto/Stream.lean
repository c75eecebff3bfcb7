import AlloyFs.Proto.Frame
import AlloyFs.Proto.Postcard

/-!
# A stream of frames

The reader of a connection owns one buffer.  Each chunk that arrives is appended,
and the decoder is called until it waits for more bytes or fails; after a failure
nothing more is read.  `Wire.readChunks` records every call of the decoder, so that
a property of the stream is a property of that record.

A run of the reader is judged by `StreamCorrect`: the frames sent come out in
order, each for exactly its own bytes, the decoder waits exactly when no whole
frame is buffered, and no call fails.
-/

namespace AlloyFs

open List

/-! ## Buffers that hold a whole unit -/

/-- The buffered bytes begin with a length word and as many bytes as it says. -/
def HoldsUnit (bytes : Bytes) : Prop :=
  ∃ payload rest : Bytes,
    payload.length < 2 ^ 32 ∧ bytes = u32ToLe payload.length ++ payload ++ rest

theorem u32ToLe_u32OfLe {bytes : Bytes} (h : 4 ≤ bytes.length) :
    u32ToLe (u32OfLe bytes) = bytes.take 4 := by
  match bytes, h with
  | b₀ :: b₁ :: b₂ :: b₃ :: _, _ =>
    have := b₀.toNat_lt
    have := b₁.toNat_lt
    have := b₂.toNat_lt
    have := b₃.toNat_lt
    simp only [u32OfLe, u32ToLe, take_succ_cons, take_zero, cons.injEq,
      ← UInt8.toNat_inj, UInt8.toNat_ofNat', and_true]
    omega

theorem u32OfLe_lt (bytes : Bytes) : u32OfLe bytes < 2 ^ 32 := by
  unfold u32OfLe
  split
  · next b₀ b₁ b₂ b₃ _ =>
    have := b₀.toNat_lt
    have := b₁.toNat_lt
    have := b₂.toNat_lt
    have := b₃.toNat_lt
    omega
  · decide

theorem holdsUnit_iff (bytes : Bytes) :
    HoldsUnit bytes ↔
      LEN_PREFIX ≤ bytes.length ∧ LEN_PREFIX + u32OfLe bytes ≤ bytes.length := by
  constructor
  · rintro ⟨payload, rest, hlt, rfl⟩
    rw [append_assoc, u32OfLe_u32ToLe, Nat.mod_eq_of_lt hlt]
    simp [LEN_PREFIX]
  · rintro ⟨h₁, h₂⟩
    have hword : u32ToLe (u32OfLe bytes) = bytes.take 4 := u32ToLe_u32OfLe h₁
    have hlen : ((bytes.drop LEN_PREFIX).take (u32OfLe bytes)).length = u32OfLe bytes := by
      rw [length_take, length_drop]
      omega
    refine ⟨(bytes.drop LEN_PREFIX).take (u32OfLe bytes),
      (bytes.drop LEN_PREFIX).drop (u32OfLe bytes), ?_, ?_⟩
    · rw [hlen]
      exact u32OfLe_lt bytes
    · rw [hlen, hword, append_assoc, take_append_drop]
      exact (take_append_drop 4 bytes).symm

/-! ## The reader -/

/-- One call of the decoder: the buffer it found, what it returned, the buffer it
left. -/
structure Call where
  before : BytesMut
  result : Except ProtoError (Option Frame)
  after : BytesMut

namespace Call

/-- The bytes the call removed from the front of the buffer. -/
def consumed (c : Call) : Bytes :=
  c.before.bytes.take (c.before.bytes.length - c.after.bytes.length)

/-- The frame the call returned, with the bytes it consumed for it. -/
def delivered (c : Call) : Option (Frame × Bytes) :=
  match c.result with
  | .ok (some frame) => some (frame, c.consumed)
  | _ => none

/-- The call reported an error. -/
def failed (c : Call) : Bool :=
  match c.result with
  | .ok _ => false
  | .error _ => true

end Call

namespace Wire

variable (w : Wire)

/-- Call the decoder on a buffer. -/
def call (src : BytesMut) : Call := ⟨src, (w.decode src).1, (w.decode src).2⟩

/-- Call the decoder until it returns no frame.  Every frame takes at least its
length word out of the buffer, so one call more than there are bytes is enough. -/
def drain : ℕ → BytesMut → List Call × BytesMut
  | 0, src => ([], src)
  | fuel + 1, src =>
    match (w.decode src).1 with
    | .ok (some _) =>
      let rest := drain fuel (w.decode src).2
      (w.call src :: rest.1, rest.2)
    | _ => ([w.call src], (w.decode src).2)

/-- Append each chunk and drain the buffer; stop for good at the first error. -/
def readChunks : BytesMut → List Bytes → List Call
  | _, [] => []
  | src, chunk :: chunks =>
    let r := w.drain ((src.extend chunk).bytes.length + 1) (src.extend chunk)
    if r.1.any Call.failed then r.1 else r.1 ++ readChunks r.2 chunks

/-- A frame that is no wrapper, and the bytes a successful `encode` made of it. -/
structure Sent where
  frame : Frame
  compress : Bool
  bytes : Bytes
  plain : frame.isCompressed = false
  encoded : w.encode compress frame [] = .ok bytes

end Wire

/-- **The stream was read back faithfully.** -/
structure StreamCorrect {w : Wire} (sent : List w.Sent) (calls : List Call) : Prop where
  /-- Exactly the frames sent, in order, each for exactly its own bytes. -/
  frames : calls.filterMap Call.delivered = sent.map fun s => (s.frame, s.bytes)
  /-- What a frame was returned for came off the front of the buffer. -/
  consumes : ∀ c ∈ calls, c.delivered.isSome = true →
    c.consumed ++ c.after.bytes = c.before.bytes
  /-- The decoder waits exactly when no whole frame is buffered. -/
  waits : ∀ c ∈ calls, c.result = .ok none ↔ ¬ HoldsUnit c.before.bytes
  /-- No call fails. -/
  noError : ∀ c ∈ calls, c.failed = false

variable {src : BytesMut} {rest : Bytes}

namespace Wire

variable {w : Wire}

/-! ## Units on the wire -/

theorem Sent.bytes_eq (s : w.Sent) :
    ∃ payload, w.wirePayload s.compress s.frame = some payload ∧
      payload.length ≤ MAX_FRAME_LEN ∧ s.bytes = u32ToLe payload.length ++ payload := by
  obtain ⟨payload, hp, hlen, hb⟩ := encode_eq_ok s.encoded
  exact ⟨payload, hp, hlen, hb⟩

theorem Sent.four_le_length (s : w.Sent) : 4 ≤ s.bytes.length := by
  obtain ⟨payload, -, -, hb⟩ := s.bytes_eq
  rw [hb, length_append, length_u32ToLe]
  omega

theorem Sent.holdsUnit (s : w.Sent) (rest : Bytes) : HoldsUnit (s.bytes ++ rest) := by
  obtain ⟨payload, -, hlen, hb⟩ := s.bytes_eq
  refine ⟨payload, rest, ?_, by rw [hb]⟩
  unfold MAX_FRAME_LEN at hlen
  omega

theorem decode_sent (hw : w.Lawful) (s : w.Sent) (hsrc : src.bytes = s.bytes ++ rest) :
    (w.Readable s.compress s.frame →
        (w.decode src).1 = .ok (some s.frame) ∧ (w.decode src).2.bytes = rest) ∧
      (¬ w.Readable s.compress s.frame → ∃ e, (w.decode src).1 = .error e) := by
  obtain ⟨payload, hp, hlen, hb⟩ := s.bytes_eq
  rw [hb] at hsrc
  obtain ⟨hres, hrest⟩ := decode_unit (w := w) hsrc hlen
  obtain ⟨hok, herr⟩ := unwrapPayload_wirePayload hw hp s.plain
  refine ⟨fun hr => ⟨?_, hrest⟩, fun hr => ?_⟩
  · rw [hres, hok hr]
    rfl
  · obtain ⟨e, he⟩ := herr hr
    exact ⟨e, by rw [hres, he]; rfl⟩

theorem decode_partial (s : w.Sent) {missing : Bytes}
    (hne : missing ≠ []) (hsrc : src.bytes ++ missing = s.bytes) :
    (w.decode src).1 = .ok none ∧ ¬ HoldsUnit src.bytes := by
  obtain ⟨payload, -, hlen, hb⟩ := s.bytes_eq
  have hmiss : 0 < missing.length := length_pos_of_ne_nil hne
  have htotal : src.bytes.length + missing.length = LEN_PREFIX + payload.length := by
    rw [← length_append, hsrc, hb]
    simp [LEN_PREFIX]
  have hword : LEN_PREFIX ≤ src.bytes.length → u32OfLe src.bytes = payload.length := by
    intro h
    rw [← u32OfLe_append h missing, hsrc, hb, u32OfLe_u32ToLe, Nat.mod_eq_of_lt]
    unfold MAX_FRAME_LEN at hlen
    omega
  rw [decode_eq_none, holdsUnit_iff]
  by_cases h : src.bytes.length < LEN_PREFIX
  · exact ⟨.inl h, by omega⟩
  · exact ⟨.inr (by omega), by omega⟩

end Wire

/-! ## Assembling runs of the reader -/

namespace StreamCorrect

variable {w : Wire}

theorem append {s₁ s₂ : List w.Sent} {c₁ c₂ : List Call} (h₁ : StreamCorrect s₁ c₁)
    (h₂ : StreamCorrect s₂ c₂) : StreamCorrect (s₁ ++ s₂) (c₁ ++ c₂) where
  frames := by rw [filterMap_append, h₁.frames, h₂.frames, map_append]
  consumes c hc := (mem_append.mp hc).elim (h₁.consumes c) (h₂.consumes c)
  waits c hc := (mem_append.mp hc).elim (h₁.waits c) (h₂.waits c)
  noError c hc := (mem_append.mp hc).elim (h₁.noError c) (h₂.noError c)

theorem wait (hres : (w.decode src).1 = .ok none)
    (hno : ¬ HoldsUnit src.bytes) : StreamCorrect ([] : List w.Sent) [w.call src] where
  frames := by simp [Wire.call, Call.delivered, hres]
  consumes := by simp [Wire.call, Call.delivered, hres]
  waits := by simp [Wire.call, hres, hno]
  noError := by simp [Wire.call, Call.failed, hres]

theorem deliver (s : w.Sent) (hsrc : src.bytes = s.bytes ++ rest)
    (hres : (w.decode src).1 = .ok (some s.frame)) (hrest : (w.decode src).2.bytes = rest) :
    StreamCorrect [s] [w.call src] := by
  have hcons : (w.call src).consumed = s.bytes := by
    simp [Call.consumed, Wire.call, hrest, hsrc]
  refine ⟨?_, ?_, ?_, ?_⟩
  · simp [Call.delivered, show (w.call src).result = .ok (some s.frame) from hres, hcons]
  · intro c hc _
    rw [mem_singleton.mp hc, hcons]
    exact (congrArg _ hrest).trans hsrc.symm
  · intro c hc
    rw [mem_singleton.mp hc]
    have hunit : HoldsUnit src.bytes := hsrc ▸ s.holdsUnit rest
    simp [Wire.call, hres, hunit]
  · simp [Call.failed, Wire.call, hres]

end StreamCorrect

namespace Wire

variable {w : Wire} {sent : List w.Sent} {later : Bytes}

/-- The concatenated bytes of the frames sent. -/
def wireBytes (sent : List w.Sent) : Bytes := (sent.map Sent.bytes).flatten

@[simp] theorem wireBytes_cons (s : w.Sent) (sent : List w.Sent) :
    wireBytes (s :: sent) = s.bytes ++ wireBytes sent := rfl

/-- A buffer that begins a stream holds its first frame whole, or lacks a part of it. -/
theorem begins_cases {s : w.Sent} {bytes : Bytes} (h : bytes ++ later = wireBytes (s :: sent)) :
    (∃ rest, bytes = s.bytes ++ rest ∧ rest ++ later = wireBytes sent) ∨
      ∃ missing, missing ≠ [] ∧ bytes ++ missing = s.bytes := by
  rw [wireBytes_cons] at h
  rcases append_eq_append_iff.mp h with ⟨missing, hm, hl⟩ | ⟨rest, hr, hl⟩
  · by_cases hne : missing = []
    · subst hne
      refine .inl ⟨[], ?_, ?_⟩
      · rw [append_nil, hm, append_nil]
      · rw [hl, nil_append, nil_append]
    · exact .inr ⟨missing, hne, hm.symm⟩
  · exact .inl ⟨rest, hr, hl.symm⟩

/-- Draining the beginning of a stream took whole readable frames off its front
and left no whole unit. -/
def Drained (sent : List w.Sent) (later : Bytes) (r : List Call × BytesMut) : Prop :=
  ∃ done rest, sent = done ++ rest ∧ (∀ s ∈ done, w.Readable s.compress s.frame) ∧
    StreamCorrect done r.1 ∧ r.2.bytes ++ later = wireBytes rest ∧ ¬ HoldsUnit r.2.bytes

/-- A call failed, and the stream has a frame the decoder does not accept. -/
def Refused (sent : List w.Sent) (calls : List Call) : Prop :=
  calls.any Call.failed = true ∧ ∃ s ∈ sent, ¬ w.Readable s.compress s.frame

theorem drained_wait {fuel : ℕ}
    (hsrc : src.bytes ++ later = wireBytes sent) (hres : (w.decode src).1 = .ok none)
    (hno : ¬ HoldsUnit src.bytes) : Drained sent later (w.drain (fuel + 1) src) := by
  refine ⟨[], sent, rfl, by simp, ?_⟩
  simp only [drain, hres, decode_bytes_of_none hres]
  exact ⟨.wait hres hno, hsrc, hno⟩

theorem drained_deliver {s : w.Sent}
    {fuel : ℕ} (hsrc : src.bytes = s.bytes ++ rest) (hr : w.Readable s.compress s.frame)
    (hres : (w.decode src).1 = .ok (some s.frame)) (hrest : (w.decode src).2.bytes = rest)
    (h : Drained sent later (w.drain fuel (w.decode src).2)) :
    Drained (s :: sent) later (w.drain (fuel + 1) src) := by
  obtain ⟨done, left, hsent, hread, hcalls, hbytes, hno⟩ := h
  refine ⟨s :: done, left, by rw [hsent, cons_append], ?_, ?_⟩
  · exact forall_mem_cons.mpr ⟨hr, hread⟩
  · simp only [drain, hres]
    exact ⟨(StreamCorrect.deliver s hsrc hres hrest).append hcalls, hbytes, hno⟩

theorem drain_spec (hw : w.Lawful) (later : Bytes) (fuel : ℕ) :
    ∀ (src : BytesMut) (sent : List w.Sent), src.bytes.length < fuel →
      src.bytes ++ later = wireBytes sent →
      Drained sent later (w.drain fuel src) ∨ Refused sent (w.drain fuel src).1 := by
  induction fuel with
  | zero => intro src sent hfuel; omega
  | succ fuel ih =>
    intro src sent hfuel hsrc
    cases sent with
    | nil =>
      have hnil : src.bytes = [] := (append_eq_nil_iff.mp hsrc).1
      have hshort : src.bytes.length < LEN_PREFIX := by rw [hnil]; decide
      refine .inl (drained_wait hsrc (decode_eq_none.mpr (.inl hshort)) ?_)
      rw [holdsUnit_iff]
      omega
    | cons s sent =>
      rcases begins_cases hsrc with ⟨rest, hs, hlater⟩ | ⟨missing, hne, hm⟩
      · by_cases hr : w.Readable s.compress s.frame
        · obtain ⟨hres, hrest⟩ := (decode_sent hw s hs).1 hr
          have hfuel' : (w.decode src).2.bytes.length < fuel := by
            have := s.four_le_length
            rw [hs, length_append] at hfuel
            rw [hrest]
            omega
          rcases ih _ sent hfuel' (hrest ▸ hlater) with h | ⟨hfail, t, ht, hbad⟩
          · exact .inl (drained_deliver hs hr hres hrest h)
          · refine .inr ⟨?_, t, mem_cons_of_mem s ht, hbad⟩
            simp only [drain, hres, any_cons, hfail, Bool.or_true]
        · obtain ⟨e, he⟩ := (decode_sent hw s hs).2 hr
          refine .inr ⟨?_, s, mem_cons_self, hr⟩
          simp [drain, he, call, Call.failed]
      · obtain ⟨hres, hno⟩ := decode_partial s hne hm
        exact .inl (drained_wait hsrc hres hno)

theorem readChunks_spec (hw : w.Lawful) (chunks : List Bytes) :
    ∀ (src : BytesMut) (sent : List w.Sent), ¬ HoldsUnit src.bytes →
      src.bytes ++ chunks.flatten = wireBytes sent →
      ((∀ s ∈ sent, w.Readable s.compress s.frame) ∧
          StreamCorrect sent (w.readChunks src chunks)) ∨
        Refused sent (w.readChunks src chunks) := by
  induction chunks with
  | nil =>
    intro src sent hno hsrc
    cases sent with
    | nil =>
      refine .inl ⟨by simp, rfl, ?_, ?_, ?_⟩ <;> simp [readChunks]
    | cons s sent =>
      -- a frame not yet delivered would stand whole in the buffer
      rw [flatten_nil, append_nil, wireBytes_cons] at hsrc
      exact absurd (hsrc ▸ s.holdsUnit _) hno
  | cons chunk chunks ih =>
    intro src sent _ hsrc
    rw [flatten_cons, ← append_assoc] at hsrc
    simp only [readChunks]
    rcases drain_spec hw chunks.flatten _ (src.extend chunk) sent (Nat.lt_succ_self _) hsrc with
      ⟨done, rest, rfl, hread, hcalls, hbytes, hno⟩ | ⟨hfail, hbad⟩
    · rw [if_neg (by simpa using hcalls.noError)]
      rcases ih _ rest hno hbytes with ⟨hread', hcalls'⟩ | ⟨hfail, t, ht, hbad⟩
      · exact .inl ⟨forall_mem_append.mpr ⟨hread, hread'⟩, hcalls.append hcalls'⟩
      · refine .inr ⟨?_, t, mem_append_right _ ht, hbad⟩
        rw [any_append, hfail, Bool.or_true]
    · rw [if_pos hfail]
      exact .inr ⟨hfail, hbad⟩

theorem readChunks_empty (hw : w.Lawful) {chunks : List Bytes}
    (hcut : chunks.flatten = wireBytes sent) :
    ((∀ s ∈ sent, w.Readable s.compress s.frame) ∧
        StreamCorrect sent (w.readChunks .empty chunks)) ∨
      Refused sent (w.readChunks .empty chunks) := by
  refine readChunks_spec hw chunks .empty sent ?_ hcut
  rw [holdsUnit_iff]
  decide

theorem StreamCorrect.none_refused {calls : List Call}
    (h : StreamCorrect sent calls) : ¬ Refused sent calls := by
  rintro ⟨hfail, -⟩
  obtain ⟨c, hc, hf⟩ := any_eq_true.mp hfail
  rw [h.noError c hc] at hf
  cases hf

/-- **A stream is read back faithfully exactly when every frame that travels
wrapped has a plain length within the bound.**  For all frames, all choices of the
compression flag and all ways of cutting the stream into chunks. -/
theorem streamCorrect_iff (hw : w.Lawful) (sent : List w.Sent) (chunks : List Bytes)
    (hcut : chunks.flatten = wireBytes sent) :
    StreamCorrect sent (w.readChunks .empty chunks) ↔
      ∀ s ∈ sent, w.Readable s.compress s.frame := by
  rcases readChunks_empty hw hcut with ⟨hread, hcalls⟩ | hrefused
  · exact iff_of_true hcalls hread
  · obtain ⟨-, s, hs, hbad⟩ := id hrefused
    exact iff_of_false (fun h => StreamCorrect.none_refused h hrefused) fun h => hbad (h s hs)

end Wire

/-! ## Any bytes at all -/

/-- The call came back with a frame or an error. -/
def Call.returned (c : Call) : Bool :=
  match c.result with
  | .ok none => false
  | _ => true

namespace Wire

variable (w : Wire) (src : BytesMut)

variable {w src}

variable (w) in
/-- The wires differ at most in what they inflate when more than the bound is claimed. -/
def AgreesWithin (w' : Wire) : Prop :=
  w'.fromBytes = w.fromBytes ∧ ∀ data, data.length < 4 ∨ u32OfLe data ≤ MAX_FRAME_LEN →
    w'.decompressSizePrepended data = w.decompressSizePrepended data

theorem AgreesWithin.unwrapPayload {w' : Wire} (h : w.AgreesWithin w') (payload : Bytes) :
    w'.unwrapPayload payload = w.unwrapPayload payload := by
  unfold Wire.unwrapPayload
  rw [h.1]
  split
  · rfl
  · next data _ =>
    split
    · rfl
    · rw [h.2 data (by omega)]
  · rfl

/-- **When compressing is no worse.**  Of a frame that is sent without compression, the encoder
makes no more bytes with it exactly if it does not wrap — the frame is a wrapper itself or too
short, or the compressor saves nothing — or the compressor saves the three bytes of a wrapper, four
from 16384 bytes on.  Otherwise it makes at most three bytes more. -/
theorem compress_never_worse_iff (hs : w.SizesWrapper) {f : Frame} {plain dst out : Bytes}
    (hplain : w.toStdvec f = some plain) (hoff : w.encode false f dst = .ok out) {n : ℕ}
    (hn : (w.compressPrependSize plain).length = n) :
    ((∃ out', w.encode true f dst = .ok out' ∧ out'.length ≤ out.length) ↔
        f.isCompressed = true ∨ plain.length < COMPRESS_MIN ∨ plain.length ≤ n ∨
          n + (if n < 16384 then 3 else 4) ≤ plain.length) ∧
      ∀ out', w.encode true f dst = .ok out' → out'.length ≤ out.length + 3 := by
  have hoffp : w.wirePayload false f = some plain := by simp [wirePayload, hplain, wraps]
  obtain ⟨_, hp, hlen, rfl⟩ := encode_eq_ok hoff
  cases hp.symm.trans hoffp
  obtain ⟨payload, hpay, hmore, hlength⟩ := exists_wirePayload hs hplain hlen true
  have hcond : payload.length ≤ plain.length ↔ f.isCompressed = true ∨
      plain.length < COMPRESS_MIN ∨ plain.length ≤ n ∨
        n + (if n < 16384 then 3 else 4) ≤ plain.length := by
    by_cases hwrap : w.wraps true f plain = true
    · obtain ⟨hmin, hf, hless⟩ := wraps_iff.mp hwrap
      have hcost := wrapperLen_eq (hless.le.trans hlen)
      rw [if_pos hwrap] at hlength
      simp only [hf, Bool.false_eq_true, false_or]
      unfold COMPRESS_MIN at *
      grind
    · rw [if_neg hwrap] at hlength
      rw [wraps_iff] at hwrap
      grind
  refine ⟨Iff.trans ?_ hcond, fun out' h => ?_⟩
  · simp only [encode, hpay]
    constructor
    · rintro ⟨out', h, hle⟩
      split at h
      · cases h
      · cases h
        simpa using hle
    · intro hle
      rw [if_neg (by omega)]
      exact ⟨_, rfl, by simpa using hle⟩
  · obtain ⟨p, hp', -, rfl⟩ := encode_eq_ok h
    cases hp'.symm.trans hpay
    simp only [length_append, length_u32ToLe]
    omega

end Wire

/-! ## A concrete wire -/

namespace Postcard

/-- The frame codec over the serialiser of this development and a compressor that
squeezes runs. -/
def wire : Wire where
  toStdvec f := if frame.dom f then some (frame.put f) else none
  fromBytes bs := (frame.take bs).map Prod.fst
  compressPrependSize bs := u32ToLe bs.length ++ squeeze bs
  decompressSizePrepended bs := .ok (expand (bs.drop 4))

theorem toStdvec_wire {f : Frame} (h : ¬ f.preEpoch ∧ f.InRange) :
    wire.toStdvec f = some (frame.put f) :=
  if_pos ((dom_frame f).mpr h)

theorem wire_lawful : wire.Lawful where
  fromBytes_toStdvec := by
    intro f bs h
    simp only [wire, Option.ite_none_right_eq_some, Option.some.injEq] at h
    obtain ⟨hdom, rfl⟩ := h
    have hread := frame.take_put f hdom []
    rw [append_nil] at hread
    simp only [wire, hread, Option.map_some]
  decompress_compress := by
    intro bs
    simp only [wire]
    rw [drop_left' (length_u32ToLe _), expand_squeeze]
  claimed_compress := fun bs => ⟨squeeze bs, rfl⟩

theorem wire_refusesPreEpoch : wire.RefusesPreEpoch := by
  intro f hrange
  have h := dom_frame f
  simp only [wire, ite_eq_right_iff, reduceCtorEq, imp_false]
  rw [h, and_iff_left hrange, not_not]

theorem admitted_compressed (bs : Bytes) :
    ¬ (Frame.compressed bs).preEpoch ∧ (Frame.compressed bs).InRange := by
  simp [Frame.preEpoch, Frame.times, Frame.InRange, Frame.numbers]

theorem wire_sizesWrapper : wire.SizesWrapper := by
  intro bs
  refine ⟨_, toStdvec_wire (admitted_compressed bs), ?_⟩
  simp [frame, tagged, Codec.bytes, wrapperLen, varintBytes_small (show 7 < 128 by decide)]
  omega

/-- The serialised form of the answer to a read: the variant tags, the length, the data. -/
theorem put_data (bs : Bytes) : frame.put (.response 7 (.ok (.data bs))) =
    [3, 7, 0, 4] ++ varintBytes bs.length ++ bs := by
  have h₃ : varintBytes 3 = [3] := varintBytes_small (by decide)
  have h₇ : varintBytes 7 = [7] := varintBytes_small (by decide)
  have h₀ : varintBytes 0 = [0] := varintBytes_small (by decide)
  have h₄ : varintBytes 4 = [4] := varintBytes_small (by decide)
  simp only [frame, tagged, Codec.pair, outcome, response, Codec.bytes, Codec.varint, h₃, h₇, h₀,
    h₄, cons_append, nil_append]

theorem admitted_data (bs : Bytes) : ¬ (Frame.response 7 (.ok (.data bs))).preEpoch ∧
    (Frame.response 7 (.ok (.data bs))).InRange := by
  simp [Frame.preEpoch, Frame.times, Response.times, Frame.InRange, Frame.numbers,
    Response.numbers]

/-- A read answered with `n` equal bytes. -/
def dataRun (n : ℕ) : Frame := .response 7 (.ok (.data (replicate n 0x42)))

/-- What the compressor makes of it. -/
def squeezedRun (n : ℕ) : Bytes :=
  u32ToLe (4 + (varintBytes n).length + n) ++
  (varintBytes n ++ 0x42 :: ([3, 7, 0, 4] ++ varintBytes n))

section Run

variable {n : ℕ} {digits : Bytes} {d : UInt8} (hv : varintBytes (n + 1) = digits ++ [d])
  (hd : d ≠ 0x42) (hn : 600 ≤ n + 1) (hdigits : digits.length ≤ 2)
include hv hd

theorem compress_run :
    wire.compressPrependSize (frame.put (dataRun (n + 1))) = squeezedRun (n + 1) := by
  change u32ToLe (frame.put (dataRun (n + 1))).length ++ squeeze (frame.put (dataRun (n + 1))) = _
  have hput : frame.put (dataRun (n + 1)) =
      ([3, 7, 0, 4] ++ digits) ++ [d] ++ replicate (n + 1) 0x42 := by
    rw [dataRun, put_data, length_replicate, hv]
    simp
  have hlen :
      (frame.put (dataRun (n + 1))).length = 4 + (varintBytes (n + 1)).length + (n + 1) := by
    simp [hput, hv]
    omega
  rw [hlen, hput, squeeze_run _ _ _ n hd, squeezedRun, hv]
  simp

include hn hdigits

theorem wraps_run : wire.wraps true (dataRun (n + 1)) (frame.put (dataRun (n + 1))) = true := by
  have hlen := congrArg length hv
  rw [length_append, length_singleton] at hlen
  rw [Wire.wraps_iff, compress_run hv hd]
  refine ⟨?_, rfl, ?_⟩
  · simp [dataRun, put_data, COMPRESS_MIN]
    omega
  · simp [dataRun, put_data, squeezedRun]
    omega

theorem encode_run {bytes : Bytes}
    (hbytes : bytes = 7 :: UInt8.ofNat (squeezedRun (n + 1)).length ::
    squeezedRun (n + 1)) :
    wire.encode true (dataRun (n + 1)) [] = .ok (u32ToLe bytes.length ++ bytes) := by
  have hlen := congrArg length hv
  rw [length_append, length_singleton] at hlen
  have hshort : (squeezedRun (n + 1)).length ≤ 15 := by
    simp [squeezedRun]
    omega
  have houter : wire.toStdvec (.compressed (squeezedRun (n + 1))) = some bytes := by
    have h₇ : varintBytes 7 = [7] := varintBytes_small (by decide)
    have hk := varintBytes_small (n := (squeezedRun (n + 1)).length) (by omega)
    rw [toStdvec_wire (admitted_compressed _), hbytes]
    simp only [frame, tagged, Codec.bytes, h₇, hk, cons_append, nil_append]
  refine Wire.encode_wrapped (toStdvec_wire (admitted_data _)) (wraps_run hv hd hn hdigits)
    (compress_run hv hd ▸ houter) ?_
  rw [hbytes, length_cons, length_cons, MAX_FRAME_LEN]
  omega

end Run

theorem varintBytes_mebibyte : varintBytes 1048576 = [0x80, 0x80] ++ [0x40] := by
  rw [varintBytes, varintBytes, varintBytes]
  rfl

theorem varintBytes_600 : varintBytes 600 = [0xD8] ++ [0x04] := by
  rw [varintBytes, varintBytes]
  rfl

/-- A mebibyte of one byte value, as the answer to a read. -/
def mebibyte : Frame := .response 7 (.ok (.data (replicate 1048576 0x42)))

/-- The wrapper the encoder makes of it. -/
def mebibyteSqueezed : Bytes :=
  u32ToLe 1048583 ++ ([0x80, 0x80, 0x40] ++ 0x42 :: ([3, 7, 0, 4, 0x80, 0x80] ++ [0x40]))

/-- It is sent as a wrapper of a few bytes. -/
def mebibyteSent : wire.Sent where
  frame := mebibyte
  compress := true
  bytes := u32ToLe (7 :: 15 :: mebibyteSqueezed).length ++ 7 :: 15 :: mebibyteSqueezed
  plain := rfl
  encoded := encode_run varintBytes_mebibyte (by decide) (by decide) (by decide) (by
    rw [squeezedRun, varintBytes_mebibyte]
    rfl)

/-- The encoder accepts a mebibyte that compresses well; the decoder refuses it. -/
theorem stream_loses_mebibyte :
    ¬ StreamCorrect [mebibyteSent] (wire.readChunks .empty [mebibyteSent.bytes]) := by
  intro h
  have hcut : [mebibyteSent.bytes].flatten = Wire.wireBytes [mebibyteSent] := rfl
  have hr := ((Wire.readChunks_empty wire_lawful hcut).resolve_right
    (Wire.StreamCorrect.none_refused h)).1 mebibyteSent mem_cons_self
  have hle : (frame.put mebibyte).length % 2 ^ 32 ≤ MAX_FRAME_LEN :=
    hr _ (toStdvec_wire (admitted_data _))
      (wraps_run varintBytes_mebibyte (by decide) (by decide) (by decide))
  have hlen : (frame.put mebibyte).length = 1048583 := by
    rw [mebibyte, put_data, length_append, length_append, length_replicate, varintBytes_mebibyte]
    simp only [length_append, length_cons, length_nil, Nat.zero_add, Nat.reduceAdd]
  rw [hlen] at hle
  revert hle
  decide

def pingSent : wire.Sent where
  frame := .ping 9
  compress := true
  bytes := [2, 0, 0, 0, 5, 9]
  plain := rfl
  encoded := by
    have h₅ : varintBytes 5 = [5] := varintBytes_small (by decide)
    have h₉ : varintBytes 9 = [9] := varintBytes_small (by decide)
    have hp : wire.toStdvec (.ping 9) = some [5, 9] := by
      rw [toStdvec_wire (by decide)]
      simp only [frame, tagged, Codec.varint, h₅, h₉, cons_append, nil_append]
    simp only [Wire.encode, Wire.wirePayload, hp]
    rfl

/-- 606 bytes in a wrapper of fifteen. -/
def runSent : wire.Sent where
  frame := dataRun 600
  compress := true
  bytes := [15, 0, 0, 0, 7, 13, 0x5E, 0x02, 0, 0, 0xD8, 0x04, 0x42, 3, 7, 0, 4, 0xD8, 0x04]
  plain := rfl
  encoded := by
    refine encode_run varintBytes_600 (by decide) (by decide) (by decide)
      (show [7, 13, 0x5E, 0x02, 0, 0, 0xD8, 0x04, 0x42, 3, 7, 0, 4, 0xD8, 0x04] = _ from ?_)
    rw [squeezedRun, varintBytes_600]
    rfl

theorem length_put_run_600 : (frame.put (dataRun 600)).length = 606 := by
  rw [dataRun, put_data, length_append, length_append, length_replicate, varintBytes_600]
  rfl

theorem readable_run : ∀ s ∈ [pingSent, runSent, pingSent], wire.Readable s.compress s.frame := by
  have hping : wire.Readable true (.ping 9) := by
    intro payload hp hwrap
    rw [toStdvec_wire (by decide), Option.some.injEq] at hp
    subst hp
    have hlong : COMPRESS_MIN ≤ _ := (Wire.wraps_iff.mp hwrap).1
    simp [frame, tagged, Codec.varint, varintBytes_small (show 5 < 128 by decide),
      varintBytes_small (show 9 < 128 by decide), COMPRESS_MIN] at hlong
  have hrun : wire.Readable true (dataRun 600) := by
    intro payload hp _
    cases hp.symm.trans (toStdvec_wire (admitted_data _))
    rw [length_put_run_600]
    decide
  simp only [forall_mem_cons, not_mem_nil, false_imp_iff, implies_true, and_true]
  exact ⟨hping, hrun, hping⟩

/-- Three frames, the second of them wrapped, cut inside a length word and inside the wrapper. -/
theorem streamCorrect_ping_run :
    StreamCorrect [pingSent, runSent, pingSent]
      (wire.readChunks .empty [[2, 0], [0, 0, 5, 9, 15, 0], [0, 0, 7, 13, 0x5E, 0x02, 0, 0, 0xD8],
        [0x04, 0x42, 3, 7, 0, 4, 0xD8, 0x04, 2, 0, 0, 0, 5, 9]]) := by
  refine (Wire.streamCorrect_iff wire_lawful [pingSent, runSent, pingSent] _ ?_).mpr readable_run
  rfl

theorem compress_never_worse_run : ∃ out', wire.encode true (dataRun 600) [] = .ok out' ∧
    out'.length ≤ (u32ToLe 606 ++ frame.put (dataRun 600)).length ∧ out' = runSent.bytes := by
  have hplain : wire.toStdvec (dataRun 600) = some (frame.put (dataRun 600)) :=
    toStdvec_wire (admitted_data _)
  have hoff :
      wire.encode false (dataRun 600) [] = .ok (u32ToLe 606 ++ frame.put (dataRun 600)) := by
    simp [Wire.encode, Wire.wirePayload, hplain, Wire.wraps, length_put_run_600, MAX_FRAME_LEN]
  have hn : (wire.compressPrependSize (frame.put (dataRun 600))).length = 13 := by
    rw [compress_run varintBytes_600 (by decide), squeezedRun, varintBytes_600]
    rfl
  obtain ⟨out', h, hle⟩ := (Wire.compress_never_worse_iff wire_sizesWrapper hplain hoff hn).1.mpr
    (.inr (.inr (.inr (by rw [length_put_run_600]; decide))))
  exact ⟨out', h, hle, Except.ok.inj (h.symm.trans runSent.encoded)⟩

/-- A read answered with bytes that hardly repeat: a run of twelve, then the triangular numbers,
then a run of seven.  The compressor saves one byte of 526, as one that finds only the run of twelve
does, and the wrapper costs three. -/
theorem compress_makes_longer : wire.Lawful ∧ wire.SizesWrapper ∧ ∃ f out out',
    f = .response 7 (.ok (.data (replicate 12 1 ++
      (range 500).map (fun i => UInt8.ofNat (i * (i + 1) / 2)) ++ [0] ++ replicate 7 2))) ∧
    wire.encode false f [] = .ok out ∧ wire.encode true f [] = .ok out' ∧
      out.length = 530 ∧ out'.length = 532 := by
  obtain ⟨front, hdef, hfront⟩ : ∃ front : Bytes, replicate 12 1 ++
      (range 500).map (fun i => UInt8.ofNat (i * (i + 1) / 2)) = front ∧ front.length = 512 :=
    ⟨_, rfl, by simp⟩
  rw [hdef]
  obtain ⟨f, hf⟩ : ∃ f, f = Frame.response 7 (.ok (.data (front ++ [0] ++ .replicate 7 2))) :=
    ⟨_, rfl⟩
  have hs : wire.toStdvec f = some (frame.put f) := toStdvec_wire (hf ▸ admitted_data _)
  have hvarint : (varintBytes 520).length = 2 := by
    rw [varintBytes, if_neg (by decide), varintBytes_small (by decide)]
    rfl
  have hput : frame.put f = [3, 7, 0, 4] ++ varintBytes 520 ++ front ++ [0] ++ .replicate 7 2 := by
    rw [hf, put_data]
    simp [hfront]
  have hlen : (frame.put f).length = 526 := by simp [hput, hvarint, hfront]
  have hsq : (wire.compressPrependSize (frame.put f)).length = 525 := by
    change (u32ToLe _ ++ squeeze _).length = _
    rw [hput, squeeze_run _ _ _ 6 (by decide)]
    simp [hvarint, hfront, varintBytes_small (show 7 < 128 by decide)]
  obtain ⟨outer, ho, hn⟩ := wire_sizesWrapper (wire.compressPrependSize (frame.put f))
  have hwrap : wire.wraps true f (frame.put f) = true := by
    rw [Wire.wraps_iff, hlen, hsq]
    exact ⟨by decide, by rw [hf]; rfl, by decide⟩
  rw [hsq, wrapperLen_eq (by decide)] at hn
  change outer.length = 528 at hn
  refine ⟨wire_lawful, wire_sizesWrapper, f, u32ToLe 526 ++ frame.put f, _, hf, ?_,
    Wire.encode_wrapped hs hwrap ho (by rw [hn]; decide), ?_, ?_⟩
  · simp [Wire.encode, Wire.wirePayload, hs, Wire.wraps, hlen, MAX_FRAME_LEN]
  · simp [hlen]
  · simp [hn]

end Postcard
end AlloyFs
