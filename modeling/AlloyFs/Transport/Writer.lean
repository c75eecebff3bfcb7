import AlloyFs.Agent.Frames
import AlloyFs.Proto.Stream

/-!
# The writer task of a connection

Everything the agent sends on a connection goes through one queue and one task,
which encodes the frames in turn.  An encoding error ends the task: the frame at
fault and everything queued behind it is lost, while the connection stays up.  On
the other side a decoding error ends the reader, and the connection with it.

`AllDelivered` says that neither happens.  It comes down to a condition on each
frame alone: no time before the epoch, and a serialised form within the bound.
The producers keep to that bound as long as names and paths are short.
-/

namespace AlloyFs.Wire

open Postcard

variable (w : Wire) {compress : Bool}

/-- Encode the queue in order; stop at the first frame the encoder refuses. -/
def writerTask (compress : Bool) : List Frame → List Bytes
  | [] => []
  | frame :: queue =>
    match w.encode compress frame [] with
    | .ok unit => unit :: writerTask compress queue
    | .error _ => []

/-- The writer task gets through the queue, and however the bytes are cut into
chunks the client reads exactly the queue and never fails. -/
structure AllDelivered (compress : Bool) (queue : List Frame) : Prop where
  written : (w.writerTask compress queue).length = queue.length
  read : ∀ chunks : List Bytes, chunks.flatten = (w.writerTask compress queue).flatten →
    ((w.readChunks .empty chunks).filterMap Call.delivered).map Prod.fst = queue ∧
      ∀ c ∈ w.readChunks .empty chunks, c.failed = false

/-- The serialiser makes of a frame of the agent as many bytes as its contents say, and of a wrapper
what it costs. -/
structure Sized : Prop where
  agent : ∀ {f plain}, AgentFrame f → w.toStdvec f = some plain → plain.length = f.wireLen
  wrapper : w.SizesWrapper

variable {w}

theorem length_writerTask (compress : Bool) (queue : List Frame) :
    (w.writerTask compress queue).length = queue.length ↔
      ∀ f ∈ queue, ∃ unit, w.encode compress f [] = .ok unit := by
  induction queue with
  | nil => simp [writerTask]
  | cons f queue ih =>
    rw [List.forall_mem_cons, ← ih]
    simp only [writerTask]
    cases w.encode compress f [] with
    | ok unit => simp
    | error e => simp

theorem exists_sent {queue : List Frame} (hplain : ∀ f ∈ queue, f.isCompressed = false)
    (henc : ∀ f ∈ queue, ∃ unit, w.encode compress f [] = .ok unit) :
    ∃ sent : List w.Sent, sent.map Sent.frame = queue ∧
      wireBytes sent = (w.writerTask compress queue).flatten ∧
      ∀ s ∈ sent, s.compress = compress := by
  induction queue with
  | nil => exact ⟨[], rfl, rfl, by simp⟩
  | cons f queue ih =>
    rw [List.forall_mem_cons] at hplain henc
    obtain ⟨sent, hframes, hbytes, hflag⟩ := ih hplain.2 henc.2
    obtain ⟨unit, hunit⟩ := henc.1
    refine ⟨⟨f, compress, unit, hplain.1, hunit⟩ :: sent, ?_, ?_, ?_⟩
    · rw [List.map_cons, hframes]
    · simp only [wireBytes_cons, hbytes, writerTask, hunit, List.flatten_cons]
    · exact List.forall_mem_cons.mpr ⟨rfl, hflag⟩

/-- A stream of frames sent with one flag is delivered exactly when each is
readable. -/
theorem read_sent_iff (hw : w.Lawful) {sent : List w.Sent}
    (hflag : ∀ s ∈ sent, s.compress = compress) {chunks : List Bytes}
    (hcut : chunks.flatten = wireBytes sent) :
    (((w.readChunks .empty chunks).filterMap Call.delivered).map Prod.fst = sent.map Sent.frame ∧
        ∀ c ∈ w.readChunks .empty chunks, c.failed = false) ↔
      ∀ f ∈ sent.map Sent.frame, w.Readable compress f := by
  have hall : (∀ f ∈ sent.map Sent.frame, w.Readable compress f) ↔
      ∀ s ∈ sent, w.Readable s.compress s.frame := by
    rw [List.forall_mem_map]
    exact forall₂_congr fun s hs => by rw [hflag s hs]
  rw [hall]
  rcases readChunks_empty hw hcut with ⟨hread, hcalls⟩ | ⟨hfail, s, hs, hbad⟩
  · refine iff_of_true ⟨?_, hcalls.noError⟩ hread
    rw [hcalls.frames, List.map_map]
    rfl
  · refine iff_of_false ?_ fun h => hbad (h s hs)
    rintro ⟨-, hok⟩
    obtain ⟨c, hc, hf⟩ := List.any_eq_true.mp hfail
    rw [hok c hc] at hf
    cases hf

theorem allDelivered_iff_forall (hw : w.Lawful) {queue : List Frame}
    (hplain : ∀ f ∈ queue, f.isCompressed = false) :
    w.AllDelivered compress queue ↔
      ∀ f ∈ queue, (∃ unit, w.encode compress f [] = .ok unit) ∧ w.Readable compress f := by
  constructor
  · rintro ⟨hwritten, hread⟩
    have henc := (length_writerTask compress queue).mp hwritten
    obtain ⟨sent, rfl, hbytes, hflag⟩ := exists_sent hplain henc
    have hreadable := (read_sent_iff hw hflag (by simpa using hbytes.symm)).mp
      (hread [(w.writerTask compress (sent.map Sent.frame)).flatten] (by simp))
    exact fun f hf => ⟨henc f hf, hreadable f hf⟩
  · intro hall
    have henc := fun f hf => (hall f hf).1
    refine ⟨(length_writerTask compress queue).mpr henc, fun chunks hcut => ?_⟩
    obtain ⟨sent, rfl, hbytes, hflag⟩ := exists_sent hplain henc
    exact (read_sent_iff hw hflag (hcut.trans hbytes.symm)).mpr fun f hf => (hall f hf).2

section Sized

variable (hs : w.Sized) {f : Frame} (hf : AgentFrame f)
include hs hf

theorem goes_of_room (hr : w.RefusesPreEpoch) (hrange : f.InRange) (hepoch : ¬ f.preEpoch)
    (hlen : f.wireLen + (if compress then 3 else 0) ≤ MAX_FRAME_LEN) :
    (∃ unit, w.encode compress f [] = .ok unit) ∧ w.Readable compress f := by
  obtain ⟨plain, hplain⟩ := Option.ne_none_iff_exists'.mp (mt (hr f hrange).mp hepoch)
  have hsize := hs.agent hf hplain
  obtain ⟨payload, hpay, hmore, hlength⟩ :=
    exists_wirePayload hs.wrapper hplain (by omega) compress
  refine ⟨encode_ok_iff.mpr ⟨payload, hpay, ?_⟩, fun p hp _ => ?_⟩
  · cases compress with
    | true => exact hmore.trans (hsize ▸ hlen)
    | false => exact hlength.le.trans (hsize ▸ hlen)
  · cases hp.symm.trans hplain
    exact (Nat.mod_le _ _).trans (by omega)

/-- A frame over the bound does not, wrapped or not, and one before the epoch does not either. -/
theorem within_of_goes (hr : w.RefusesPreEpoch) (hrange : f.InRange)
    (hlen : f.wireLen < 2 ^ 32 ∨ compress = false)
    (henc : ∃ unit, w.encode compress f [] = .ok unit) (hread : w.Readable compress f) :
    ¬ f.preEpoch ∧ f.wireLen ≤ MAX_FRAME_LEN := by
  obtain ⟨payload, hpay, hle⟩ := encode_ok_iff.mp henc
  unfold wirePayload at hpay
  cases hplain : w.toStdvec f with
  | none => simp [hplain] at hpay
  | some plain =>
    have hsize := hs.agent hf hplain
    refine ⟨fun hepoch => ?_, ?_⟩
    · rw [(hr f hrange).mpr hepoch] at hplain
      cases hplain
    · simp only [hplain] at hpay
      split at hpay
      · next hwrap =>
        have hshort : f.wireLen < 2 ^ 32 := hlen.resolve_right (by rintro rfl; cases hwrap)
        have hclaim := hread plain hplain hwrap
        rwa [hsize, Nat.mod_eq_of_lt hshort] at hclaim
      · cases hpay
        exact hsize ▸ hle

end Sized

/-- **What the agent sends arrives whole.**  A queue of its frames with no time before the epoch is
delivered when names and paths are short; and in general exactly when every serialised form is
within the bound.  With compression on that leaves out the lengths whose wrapper may just exceed
the bound, and those the length word of the compressor does not hold. -/
theorem allDelivered_iff (hw : w.Lawful) (hr : w.RefusesPreEpoch) (hs : w.Sized) (compress : Bool)
    (queue : List Frame) (hagent : ∀ f ∈ queue, AgentFrame f) (hrange : ∀ f ∈ queue, f.InRange) :
    ((∀ f ∈ queue, ¬ f.preEpoch ∧ f.Short) → w.AllDelivered compress queue) ∧
      ((compress = true → ∀ f ∈ queue, f.wireLen + 3 ≤ MAX_FRAME_LEN ∨
          MAX_FRAME_LEN < f.wireLen ∧ f.wireLen < 2 ^ 32) →
        (w.AllDelivered compress queue ↔
          ∀ f ∈ queue, ¬ f.preEpoch ∧ f.wireLen ≤ MAX_FRAME_LEN)) := by
  rw [allDelivered_iff_forall hw fun f hf => (hagent f hf).isCompressed]
  refine ⟨fun hshort f hf => ?_, fun hroom => forall₂_congr fun f hf => ?_⟩
  · have := (hagent f hf).wireLen_le (hrange f hf) (hshort f hf).2
    exact goes_of_room hs (hagent f hf) hr (hrange f hf) (hshort f hf).1 (by split <;> omega)
  · refine ⟨fun h => within_of_goes hs (hagent f hf) hr (hrange f hf) ?_ h.1 h.2, fun h => ?_⟩
    · cases compress with
      | true => exact .inl (by have := hroom rfl f hf; unfold MAX_FRAME_LEN at this; omega)
      | false => exact .inr rfl
    · refine goes_of_room hs (hagent f hf) hr (hrange f hf) h.1 ?_
      cases compress with
      | true => exact (hroom rfl f hf).resolve_right fun hover => absurd h.2 (not_le.mpr hover.1)
      | false => exact h.2

/-- The answer to a `getattr` of a file last written just before the epoch. -/
def oldFileAttr : Frame := .response 1 (.ok (.attr ⟨.file, 0, -1, 0, 420, 1⟩))

theorem agentFrame_oldFileAttr : AgentFrame oldFileAttr :=
  .answer 1 _ (by simp) (by simp)

/-- The answer ends the writer task, and the answer queued behind it is lost too,
with compression on or off. -/
theorem oldFileAttr_stops_writer :
    (∀ f ∈ [oldFileAttr, .pong 9], AgentFrame f) ∧
      ¬ wire.AllDelivered false [oldFileAttr, .pong 9] ∧
      ¬ wire.AllDelivered true [oldFileAttr, .pong 9] := by
  have hnone : wire.toStdvec oldFileAttr = none :=
    (wire_refusesPreEpoch oldFileAttr (by decide)).mpr ⟨-1, by decide, by decide⟩
  have hstop : ∀ compress, wire.writerTask compress [oldFileAttr, .pong 9] = [] := by
    intro compress
    simp only [writerTask, encode, wirePayload, hnone]
  refine ⟨?_, fun h => ?_, fun h => ?_⟩
  · simp only [List.forall_mem_cons]
    exact ⟨agentFrame_oldFileAttr, .pong 9, by simp⟩
  · exact absurd h.written (by rw [hstop]; decide)
  · exact absurd h.written (by rw [hstop]; decide)

/-! ## A queue that is delivered -/

section Lengths

open Codec

theorem length_tagged {n : ℕ} (h : n < 128) (fields : Bytes) :
    (tagged n fields).length = 1 + fields.length := by
  rw [tagged, varintBytes_small h, List.length_append, List.length_singleton]

theorem length_varint (w n : ℕ) : ((varint w).put n).length = varintLen n := rfl

theorem length_bytes (bs : Bytes) : (bytes.put bs).length = countedLen bs.length :=
  List.length_append

theorem length_text (s : Text) : (text.put s).length = countedLen (textLen s) := by
  have hlen : (s.flatMap String.utf8EncodeChar).length = textLen s := by
    simp [textLen, List.length_flatMap]
  rw [← hlen]
  exact length_bytes _

theorem length_option (w : ℕ) (n : Option ℕ) : ((varint w).option.put n).length = optionLen n := by
  cases n with
  | none => rfl
  | some n => simp [Codec.option, optionLen, varint, varintLen, Nat.add_comm]

theorem length_list {α : Type} (c : Codec α) (as : List α) :
    (c.list.put as).length = listLen (fun a => (c.put a).length) as := by
  simp [Codec.list, listLen, varintLen, List.length_flatMap]

theorem length_attr (a : Attr) : (attr.put a).length = a.wireLen := by
  have hkind : (fileKind.put a.kind).length = 1 := by
    cases a.kind <;> exact congrArg List.length (varintBytes_small (by decide))
  simp only [attr, Codec.map, pair, List.length_append, hkind, systemTime, length_varint,
    Attr.wireLen, timeLen]
  omega

theorem length_dirEntry (e : DirEntry) : (dirEntry.put e).length = e.wireLen := by
  simp only [dirEntry, Codec.map, pair, List.length_append, length_text, length_attr,
    DirEntry.wireLen]

theorem length_fsEvent (e : FsEvent) : (fsEvent.put e).length = e.wireLen := by
  have hpath : ∀ p : RelPath, (relPath.put p).length = countedLen (textLen p.text) :=
    fun p => length_text p.text
  simp only [fsEvent, Codec.map, pair, List.length_append, length_option, hpath, FsEvent.wireLen,
    eventKind]
  cases e.kind <;> rw [length_tagged (by decide)] <;>
    simp only [unit, List.length_nil, hpath, length_varint] <;> omega

theorem length_response (r : Response) : (response.put r).length = r.wireLen := by
  have hbool : ∀ b, (bool.put b).length = 1 := by
    intro b
    cases b <;> exact congrArg List.length (varintBytes_small (by decide))
  have hdirs : ∀ es, (dirEntry.list.put es).length = listLen DirEntry.wireLen es :=
    fun es => (length_list _ es).trans (congrArg (listLen · es) (funext length_dirEntry))
  have htexts : ∀ ts : List Text, (text.list.put ts).length =
      listLen (fun t => countedLen (textLen t)) ts :=
    fun ts => (length_list _ ts).trans (congrArg (listLen · ts) (funext length_text))
  cases r <;> simp only [response] <;> rw [length_tagged (by decide)] <;>
    simp only [pair, List.length_append, length_attr, hdirs, htexts, length_option, length_text,
      length_bytes, hbool, unit, List.length_nil, length_varint, Response.wireLen] <;>
      omega

end Lengths

theorem wire_sized : wire.Sized := by
  refine ⟨fun {f plain} hf hplain => ?_, wire_sizesWrapper⟩
  have hput : plain = frame.put f := by
    simp only [wire, Option.ite_none_right_eq_some, Option.some.injEq] at hplain
    exact hplain.2.symm
  have herror : ∀ e, (errorCode.put e).length = 1 := by
    intro e
    cases e <;> exact congrArg List.length (varintBytes_small (by decide))
  have hbody : ∀ r, (outcome.put (.ok r)).length = 1 + r.wireLen := by
    intro r
    rw [← length_response]
    exact length_tagged (by decide) _
  have hevents : (fun e => (fsEvent.put e).length) = FsEvent.wireLen := funext length_fsEvent
  have hfail : ∀ e, (outcome.put (.error e)).length = 2 := fun e =>
    (length_tagged (by decide) _).trans (congrArg (1 + ·) (herror e))
  subst hput
  cases hf <;> simp only [frame] <;> rw [length_tagged (by decide)] <;>
    simp only [Codec.pair, List.length_append, hbody, hfail, length_list, hevents, length_varint,
      Frame.wireLen] <;> omega

/-- A read answered with 600 equal bytes, which is wrapped; what a subscriber missed, a rename among
it; the answer to a ping. -/
def mixedQueue : List Frame :=
  [dataRun 600, .events [⟨2, .created, ⟨"a".toList⟩, none, none⟩,
    ⟨3, .renamedFrom ⟨"c".toList⟩, ⟨"b".toList⟩, none, none⟩], .pong 9]

theorem agentFrame_mixedQueue : ∀ f ∈ mixedQueue, AgentFrame f := by
  have hdata : (List.replicate 600 (0x42 : UInt8)).length ≤ DATA_CHUNK := by
    rw [List.length_replicate]
    decide
  simp only [mixedQueue, List.forall_mem_cons, List.not_mem_nil, false_imp_iff, implies_true,
    and_true]
  refine ⟨.data 7 _ hdata, ?_, .pong 9⟩
  exact .catchup [.batch 0 [(⟨"b".toList⟩, .modified)], .batch 5 [(⟨"a".toList⟩, .created),
    (⟨"b".toList⟩, .renamedFrom ⟨"c".toList⟩)]] (some 1) 4 _ rfl

theorem allDelivered_mixedQueue : wire.AllDelivered true mixedQueue ∧
    wire.wraps true (dataRun 600) (frame.put (dataRun 600)) = true := by
  refine ⟨(allDelivered_iff wire_lawful wire_refusesPreEpoch wire_sized true mixedQueue
    agentFrame_mixedQueue ?_).1 ?_, wraps_run varintBytes_600 (by decide) (by decide) (by decide)⟩
  all_goals simp only [mixedQueue, List.forall_mem_cons, List.not_mem_nil, false_imp_iff,
    implies_true, and_true, dataRun, Frame.Short, Response.Short]
  · exact ⟨(admitted_data _).2, by decide, by decide⟩
  · exact ⟨(admitted_data _).1, by decide, by decide⟩

end AlloyFs.Wire
