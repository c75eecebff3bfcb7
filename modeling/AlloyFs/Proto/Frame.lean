import AlloyFs.Lib.Codec
import AlloyFs.Proto.Messages

/-!
# The frame codec

A frame travels as a four-byte little-endian payload length followed by the
payload.  The payload is the serialised frame, or, when the sender compresses and
that made it smaller, the serialised `Compressed` wrapper around the squeezed
bytes.  The encoder bounds the payload it puts on the wire; the decoder bounds
that length and, separately, the inflated length a wrapper claims.

The serialiser and the compressor are parameters: a `Wire` supplies the four
functions the codec calls, and `Wire.Lawful` collects what is assumed of them.
-/

namespace AlloyFs

/-- Bound on one payload. -/
def MAX_FRAME_LEN : ℕ := 1024 * 1024

/-- Payloads shorter than this are never compressed. -/
def COMPRESS_MIN : ℕ := 512

/-- The length word. -/
def LEN_PREFIX : ℕ := 4

/-- Errors of the codec itself; each is fatal to its connection. -/
inductive ProtoError
  | frameTooLarge (len : ℕ)
  | malformed
  | compression (msg : Text)
deriving DecidableEq

/-- A growable buffer: its readable bytes, and the largest total length it was
ever asked to make room for. -/
structure BytesMut where
  bytes : Bytes
  asked : ℕ
deriving DecidableEq

namespace BytesMut

/-- An empty buffer. -/
def empty : BytesMut := ⟨[], 0⟩

/-- Ask for room for `additional` more bytes. -/
def reserve (b : BytesMut) (additional : ℕ) : BytesMut :=
  { b with asked := max b.asked (b.bytes.length + additional) }

/-- Append received bytes. -/
def extend (b : BytesMut) (chunk : Bytes) : BytesMut := { b with bytes := b.bytes ++ chunk }

@[simp] theorem reserve_bytes (b : BytesMut) (n : ℕ) : (b.reserve n).bytes = b.bytes := rfl

end BytesMut

/-- The serialiser and the compressor the codec is built on. -/
structure Wire where
  /-- Serialise a frame; `none` when the serialiser refuses. -/
  toStdvec : Frame → Option Bytes
  /-- Read a frame back. -/
  fromBytes : Bytes → Option Frame
  /-- Compress, with the plain length in front. -/
  compressPrependSize : Bytes → Bytes
  /-- Undo it. -/
  decompressSizePrepended : Bytes → Except Text Bytes

/-- What is assumed of the serialiser and the compressor. -/
structure Wire.Lawful (w : Wire) : Prop where
  /-- Reading inverts serialising. -/
  fromBytes_toStdvec : ∀ {f bs}, w.toStdvec f = some bs → w.fromBytes bs = some f
  /-- Decompressing inverts compressing. -/
  decompress_compress : ∀ bs, w.decompressSizePrepended (w.compressPrependSize bs) = .ok bs
  /-- The compressed form starts with the plain length as a little-endian word. -/
  claimed_compress : ∀ bs, ∃ block, w.compressPrependSize bs = u32ToLe bs.length ++ block

/-- The serialiser refuses exactly the frames with a time before the epoch. -/
def Wire.RefusesPreEpoch (w : Wire) : Prop :=
  ∀ f, f.InRange → (w.toStdvec f = none ↔ f.preEpoch)

/-- The length of the wrapper around `n` compressed bytes: tag, length, bytes. -/
def wrapperLen (n : ℕ) : ℕ := 1 + (varintBytes n).length + n

/-- Any bytes can be wrapped, at that length. -/
def Wire.SizesWrapper (w : Wire) : Prop :=
  ∀ bs, ∃ outer, w.toStdvec (.compressed bs) = some outer ∧ outer.length = wrapperLen bs.length

theorem wrapperLen_eq {n : ℕ} (h : n ≤ MAX_FRAME_LEN) :
    wrapperLen n = n + if n < 128 then 2 else if n < 16384 then 3 else 4 := by
  have hlen : ∀ m, (varintBytes m).length =
      if m < 128 then 1 else (varintBytes (m / 128)).length + 1 := by
    intro m
    rw [varintBytes]
    split <;> rfl
  have hthird : n / 128 / 128 < 128 := by
    unfold MAX_FRAME_LEN at h
    omega
  rw [wrapperLen, hlen, hlen, hlen, if_pos hthird]
  grind

namespace Wire

variable (w : Wire) {compress : Bool} {frame : Frame} {payload : Bytes} {src : BytesMut}

/-! ## Encoding -/

/-- The encoder wraps the serialised frame `payload`: compression is on, the
payload is worth it, the frame is not a wrapper itself, and it got smaller. -/
def wraps (compress : Bool) (frame : Frame) (payload : Bytes) : Bool :=
  compress && decide (COMPRESS_MIN ≤ payload.length) && !frame.isCompressed &&
    decide ((w.compressPrependSize payload).length < payload.length)

/-- The payload the encoder settles on, before its length is checked. -/
def wirePayload (compress : Bool) (frame : Frame) : Option Bytes :=
  match w.toStdvec frame with
  | none => none
  | some payload =>
    if w.wraps compress frame payload then
      w.toStdvec (.compressed (w.compressPrependSize payload))
    else some payload

/-- Append the frame to `dst`; on an error `dst` stays as it was. -/
def encode (compress : Bool) (frame : Frame) (dst : Bytes) : Except ProtoError Bytes :=
  match w.wirePayload compress frame with
  | none => .error .malformed
  | some payload =>
    if MAX_FRAME_LEN < payload.length then .error (.frameTooLarge payload.length)
    else .ok (dst ++ u32ToLe payload.length ++ payload)

/-! ## Decoding -/

/-- Read the frame out of one payload, inflating a wrapper once. -/
def unwrapPayload (payload : Bytes) : Except ProtoError Frame :=
  match w.fromBytes payload with
  | none => .error .malformed
  | some (.compressed data) =>
    -- the claimed size is checked before anything is inflated
    if 4 ≤ data.length ∧ MAX_FRAME_LEN < u32OfLe data then
      .error (.frameTooLarge (u32OfLe data))
    else
      match w.decompressSizePrepended data with
      | .error msg => .error (.compression msg)
      | .ok inner =>
        match w.fromBytes inner with
        | none => .error .malformed
        | some (.compressed _) => .error (.compression "nested Compressed frame".toList)
        | some frame => .ok frame
  | some frame => .ok frame

/-- One call of the decoder: its result and the buffer it leaves. -/
def decode (src : BytesMut) : Except ProtoError (Option Frame) × BytesMut :=
  if src.bytes.length < LEN_PREFIX then (.ok none, src)
  else if MAX_FRAME_LEN < u32OfLe src.bytes then
    (.error (.frameTooLarge (u32OfLe src.bytes)), src)
  else if src.bytes.length < LEN_PREFIX + u32OfLe src.bytes then
    (.ok none, src.reserve (LEN_PREFIX + u32OfLe src.bytes - src.bytes.length))
  else
    ((w.unwrapPayload ((src.bytes.drop LEN_PREFIX).take (u32OfLe src.bytes))).map some,
      { src with bytes := src.bytes.drop (LEN_PREFIX + u32OfLe src.bytes) })

/-! ## One frame through both directions -/

variable {w}

theorem encode_eq_ok {dst out : Bytes} (h : w.encode compress frame dst = .ok out) :
    ∃ payload, w.wirePayload compress frame = some payload ∧
      payload.length ≤ MAX_FRAME_LEN ∧ out = dst ++ u32ToLe payload.length ++ payload := by
  unfold encode at h
  cases hp : w.wirePayload compress frame with
  | none => simp [hp] at h
  | some payload =>
    simp only [hp] at h
    split at h
    · cases h
    · cases h
      exact ⟨payload, rfl, by omega, rfl⟩

theorem encode_ok_iff :
    (∃ out, w.encode compress frame [] = .ok out) ↔
      ∃ payload, w.wirePayload compress frame = some payload ∧
        payload.length ≤ MAX_FRAME_LEN := by
  constructor
  · rintro ⟨out, h⟩
    obtain ⟨payload, hp, hlen, -⟩ := encode_eq_ok h
    exact ⟨payload, hp, hlen⟩
  · rintro ⟨payload, hp, hlen⟩
    refine ⟨[] ++ u32ToLe payload.length ++ payload, ?_⟩
    simp only [encode, hp]
    rw [if_neg (by omega)]

theorem wraps_iff {plain : Bytes} : w.wraps true frame plain = true ↔
    COMPRESS_MIN ≤ plain.length ∧ frame.isCompressed = false ∧
      (w.compressPrependSize plain).length < plain.length := by
  simp [wraps, and_assoc]

/-- The payload is the plain form or, where the encoder wraps, at most three bytes longer. -/
theorem exists_wirePayload (hs : w.SizesWrapper) {plain : Bytes}
    (hplain : w.toStdvec frame = some plain) (hlen : plain.length ≤ MAX_FRAME_LEN)
    (compress : Bool) : ∃ payload, w.wirePayload compress frame = some payload ∧
      payload.length ≤ plain.length + 3 ∧
      payload.length = if w.wraps compress frame plain then
        wrapperLen (w.compressPrependSize plain).length else plain.length := by
  unfold wirePayload
  simp only [hplain]
  split
  · next hwrap =>
    obtain ⟨outer, houter, hn⟩ := hs (w.compressPrependSize plain)
    have hless : (w.compressPrependSize plain).length < plain.length := by
      cases compress with
      | true => exact (wraps_iff.mp hwrap).2.2
      | false => cases hwrap
    have hcost := wrapperLen_eq (hless.le.trans hlen)
    refine ⟨outer, houter, ?_, hn⟩
    grind
  · exact ⟨plain, rfl, Nat.le_add_right _ _, rfl⟩

theorem encode_wrapped {plain outer : Bytes}
    (hplain : w.toStdvec frame = some plain) (hwrap : w.wraps compress frame plain = true)
    (houter : w.toStdvec (.compressed (w.compressPrependSize plain)) = some outer)
    (hlen : outer.length ≤ MAX_FRAME_LEN) :
    w.encode compress frame [] = .ok (u32ToLe outer.length ++ outer) := by
  simp only [encode, wirePayload, hplain, hwrap, houter, if_true]
  rw [if_neg (by omega), List.nil_append]

/-- The decoder accepts what the encoder made of this frame: it was sent plain,
or the plain length its wrapper claims is within the bound.  The claim is a
32-bit word, so the length counts modulo `2 ^ 32`. -/
def Readable (w : Wire) (compress : Bool) (frame : Frame) : Prop :=
  ∀ payload, w.toStdvec frame = some payload → w.wraps compress frame payload = true →
    payload.length % 2 ^ 32 ≤ MAX_FRAME_LEN

theorem unwrapPayload_plain
    (h : w.fromBytes payload = some frame) (hf : frame.isCompressed = false) :
    w.unwrapPayload payload = .ok frame := by
  unfold unwrapPayload
  rw [h]
  cases frame <;> first | rfl | cases hf

theorem unwrapPayload_wrapped (hw : w.Lawful) {plain outer : Bytes}
    (hplain : w.toStdvec frame = some plain) (hf : frame.isCompressed = false)
    (houter : w.toStdvec (.compressed (w.compressPrependSize plain)) = some outer) :
    w.unwrapPayload outer =
      if MAX_FRAME_LEN < plain.length % 2 ^ 32 then
        .error (.frameTooLarge (plain.length % 2 ^ 32))
      else .ok frame := by
  obtain ⟨block, hblock⟩ := hw.claimed_compress plain
  have hclaim : u32OfLe (w.compressPrependSize plain) = plain.length % 2 ^ 32 := by
    rw [hblock, u32OfLe_u32ToLe]
  have hlen : 4 ≤ (w.compressPrependSize plain).length := by
    rw [hblock, List.length_append, length_u32ToLe]
    omega
  unfold unwrapPayload
  rw [hw.fromBytes_toStdvec houter]
  simp only [hlen, hclaim, true_and, hw.decompress_compress, hw.fromBytes_toStdvec hplain]
  split
  · rfl
  · cases frame <;> first | rfl | cases hf

/-- The payload on the wire reads back as the frame exactly when it is readable. -/
theorem unwrapPayload_wirePayload (hw : w.Lawful) (hp : w.wirePayload compress frame = some payload)
    (hf : frame.isCompressed = false) :
    (w.Readable compress frame → w.unwrapPayload payload = .ok frame) ∧
      (¬ w.Readable compress frame → ∃ e, w.unwrapPayload payload = .error e) := by
  unfold wirePayload at hp
  cases hs : w.toStdvec frame with
  | none => simp [hs] at hp
  | some plain =>
    simp only [hs] at hp
    by_cases hwrap : w.wraps compress frame plain = true
    · rw [if_pos hwrap] at hp
      rw [unwrapPayload_wrapped hw hs hf hp]
      refine ⟨fun hr => ?_, fun hr => ?_⟩
      · have hle : plain.length % 2 ^ 32 ≤ MAX_FRAME_LEN := hr plain hs hwrap
        rw [if_neg (by omega)]
      · have hgt : MAX_FRAME_LEN < plain.length % 2 ^ 32 := by
          refine Nat.lt_of_not_le fun hle => hr fun p hp' _ => ?_
          rw [hs, Option.some.injEq] at hp'
          exact hp' ▸ hle
        exact ⟨_, if_pos hgt⟩
    · rw [if_neg hwrap, Option.some.injEq] at hp
      subst hp
      refine ⟨fun _ => unwrapPayload_plain (hw.fromBytes_toStdvec hs) hf, fun hr => ?_⟩
      refine absurd (fun p hp' hwrap' => ?_) hr
      rw [hs, Option.some.injEq] at hp'
      exact absurd (hp' ▸ hwrap') hwrap

/-- The decoder waits when fewer bytes than a length word are buffered, or fewer
than the length word promises. -/
theorem decode_eq_none :
    (w.decode src).1 = .ok none ↔
      src.bytes.length < LEN_PREFIX ∨
        (u32OfLe src.bytes ≤ MAX_FRAME_LEN ∧
          src.bytes.length < LEN_PREFIX + u32OfLe src.bytes) := by
  unfold decode
  by_cases h₁ : src.bytes.length < LEN_PREFIX
  · simp [h₁]
  · by_cases h₂ : MAX_FRAME_LEN < u32OfLe src.bytes
    · have hlong : ¬ u32OfLe src.bytes ≤ MAX_FRAME_LEN := Nat.not_le.mpr h₂
      simp [h₁, h₂, hlong]
    · by_cases h₃ : src.bytes.length < LEN_PREFIX + u32OfLe src.bytes
      · have hshort : u32OfLe src.bytes ≤ MAX_FRAME_LEN := not_lt.mp h₂
        simp [h₁, h₂, h₃, hshort]
      · simp only [h₁, h₂, h₃, if_false, false_or, and_false, iff_false]
        cases w.unwrapPayload _ <;> simp [Except.map]

theorem decode_bytes_of_none (h : (w.decode src).1 = .ok none) :
    (w.decode src).2.bytes = src.bytes := by
  rw [decode_eq_none] at h
  unfold decode
  rcases h with h | ⟨h₁, h₂⟩
  · rw [if_pos h]
  · by_cases h₀ : src.bytes.length < LEN_PREFIX
    · rw [if_pos h₀]
    · rw [if_neg h₀, if_neg (not_lt.mpr h₁), if_pos h₂, BytesMut.reserve_bytes]

/-- **One unit.**  On a buffer that starts with a length-prefixed payload within
the bound, the decoder consumes exactly that unit and returns what the payload
reads back as. -/
theorem decode_unit {rest : Bytes} (hsrc : src.bytes = u32ToLe payload.length ++ payload ++ rest)
    (hlen : payload.length ≤ MAX_FRAME_LEN) :
    (w.decode src).1 = (w.unwrapPayload payload).map some ∧
      (w.decode src).2.bytes = rest := by
  have hsmall : payload.length < 2 ^ 32 := by unfold MAX_FRAME_LEN at hlen; omega
  have hu : u32OfLe src.bytes = payload.length := by
    rw [hsrc, List.append_assoc, u32OfLe_u32ToLe, Nat.mod_eq_of_lt hsmall]
  have htotal : src.bytes.length = LEN_PREFIX + payload.length + rest.length := by
    simp [hsrc, LEN_PREFIX]
    omega
  have hdrop : src.bytes.drop LEN_PREFIX = payload ++ rest := by
    rw [hsrc, List.append_assoc]
    rfl
  unfold decode
  rw [if_neg (by omega), hu, if_neg (by omega), if_neg (by omega)]
  refine ⟨?_, ?_⟩
  · rw [hdrop, List.take_left]
  · rw [← List.drop_drop, hdrop, List.drop_left]

end Wire
end AlloyFs
