import AlloyFs.Lib.Codec
import AlloyFs.Proto.Messages

/-!
# The postcard image of a frame

`postcard` serialises a frame field by field: variant indices and integers as
base-128 numbers, sequences and text behind their length, `Option` and `Result`
behind one tag byte.  A `SystemTime` is two numbers, seconds and nanoseconds since
the Unix epoch, and a time before the epoch is refused — the only refusal there is for
numbers within their types.  A number that is too large or too long for its type is not read.

The codec (`AlloyFs.Proto.Frame`) is stated over an arbitrary serialiser with that
contract; this module is the instance that shows the contract can be met.
-/

namespace AlloyFs.Postcard

open Codec

abbrev u16 : Codec ℕ := varint 16

abbrev u32 : Codec ℕ := varint 32

abbrev u64 : Codec ℕ := varint 64

/-- One byte, zero or one. -/
def bool : Codec Bool :=
  enum 1 (fun b => if b then 1 else 0) (fun n => if n = 0 then some false else
    if n = 1 then some true else none) (by rintro (_ | _) <;> exact ⟨by decide, rfl⟩)

def relPath : Codec RelPath :=
  text.map RelPath.mk RelPath.text (fun _ => true) (fun _ _ => rfl)

/-- Seconds and nanoseconds since the epoch; refused before it. -/
def systemTime : Codec SystemTime :=
  (u64.pair u32).map (fun p => ((p.1 * 10 ^ 9 + p.2 : ℕ) : ℤ))
    (fun t => (t.toNat / 10 ^ 9, t.toNat % 10 ^ 9)) (fun t => decide (0 ≤ t)) (by
      intro t ht
      have h : 0 ≤ t := by simpa using ht
      have hdm : t.toNat / 10 ^ 9 * 10 ^ 9 + t.toNat % 10 ^ 9 = t.toNat := by omega
      simp only [hdm, Int.toNat_of_nonneg h])

def errorCode : Codec ErrorCode :=
  enum 32 (fun
    | .notFound => 0 | .permissionDenied => 1 | .alreadyExists => 2 | .notADirectory => 3
    | .isADirectory => 4 | .notEmpty => 5 | .invalidPath => 6 | .badHandle => 7
    | .readOnly => 8 | .noSuchExport => 9 | .wouldBlock => 10 | .conflict => 11
    | .versionMismatch => 12 | .notAttached => 13 | .tooOld => 14 | .io => 15
    | .crossDevice => 16 | .authRequired => 17)
    (fun
    | 0 => some .notFound | 1 => some .permissionDenied | 2 => some .alreadyExists
    | 3 => some .notADirectory | 4 => some .isADirectory | 5 => some .notEmpty
    | 6 => some .invalidPath | 7 => some .badHandle | 8 => some .readOnly
    | 9 => some .noSuchExport | 10 => some .wouldBlock | 11 => some .conflict
    | 12 => some .versionMismatch | 13 => some .notAttached | 14 => some .tooOld
    | 15 => some .io | 16 => some .crossDevice | 17 => some .authRequired
    | _ => none) (by intro e; cases e <;> exact ⟨by decide, rfl⟩)

def fileKind : Codec FileKind :=
  enum 32 (fun | .file => 0 | .dir => 1 | .symlink => 2)
    (fun | 0 => some .file | 1 => some .dir | 2 => some .symlink | _ => none)
    (by intro k; cases k <;> exact ⟨by decide, rfl⟩)

def lockKind : Codec LockKind :=
  enum 32 (fun | .shared => 0 | .exclusive => 1)
    (fun | 0 => some .shared | 1 => some .exclusive | _ => none)
    (by intro k; cases k <;> exact ⟨by decide, rfl⟩)

def attr : Codec Attr :=
  (fileKind.pair (u64.pair (systemTime.pair (systemTime.pair (u32.pair u64))))).map
    (fun p => ⟨p.1, p.2.1, p.2.2.1, p.2.2.2.1, p.2.2.2.2.1, p.2.2.2.2.2⟩)
    (fun a => (a.kind, a.size, a.mtime, a.ctime, a.mode, a.version))
    (fun _ => true) (fun _ _ => rfl)

def dirEntry : Codec DirEntry :=
  (text.pair attr).map (fun p => ⟨p.1, p.2⟩) (fun e => (e.name, e.attr))
    (fun _ => true) (fun _ _ => rfl)

def openFlags : Codec OpenFlags :=
  (bool.pair (bool.pair (bool.pair (bool.pair bool)))).map
    (fun p => ⟨p.1, p.2.1, p.2.2.1, p.2.2.2.1, p.2.2.2.2⟩)
    (fun f => (f.read, f.write, f.truncate, f.append, f.excl))
    (fun _ => true) (fun _ _ => rfl)

/-- A variant index followed by the fields of that variant. -/
def tagged (n : ℕ) (fields : Bytes) : Bytes := varintBytes n ++ fields

/-- Read a variant index and continue with the fields. -/
def takeTagged {β : Type} (read : ℕ → Bytes → Option (β × Bytes)) (bs : Bytes) :
    Option (β × Bytes) :=
  match uintTake 32 bs with
  | none => none
  | some (n, rest) => read n rest

@[simp] theorem takeTagged_tagged {β : Type} (read : ℕ → Bytes → Option (β × Bytes))
    {n : ℕ} (h : n < 2 ^ 32) (fields rest : Bytes) :
    takeTagged read (tagged n fields ++ rest) = read n (fields ++ rest) := by
  simp [takeTagged, tagged, uintTake_varintBytes h]

/-- Read the fields `c` and build the variant. -/
def fieldsOf {α β : Type} (c : Codec α) (make : α → β) (bs : Bytes) : Option (β × Bytes) :=
  match c.take bs with
  | none => none
  | some (a, rest) => some (make a, rest)

@[simp] theorem fieldsOf_put {α β : Type} (c : Codec α) (make : α → β) (a : α)
    (h : c.dom a = true) (rest : Bytes) :
    fieldsOf c make (c.put a ++ rest) = some (make a, rest) := by
  simp [fieldsOf, c.take_put a h]

/-- No fields at all. -/
def unit : Codec Unit where
  dom _ := true
  put _ := []
  take bs := some ((), bs)
  take_put := by intro _ _ _; rfl

def eventKind : Codec EventKind where
  dom _ := true
  put
    | .created => tagged 0 (unit.put ())
    | .modified => tagged 1 (unit.put ())
    | .attrChanged => tagged 2 (unit.put ())
    | .removed => tagged 3 (unit.put ())
    | .renamedFrom dst => tagged 4 (relPath.put dst)
    | .resyncRequired => tagged 5 (unit.put ())
  take := takeTagged fun
    | 0 => fieldsOf unit fun _ => .created
    | 1 => fieldsOf unit fun _ => .modified
    | 2 => fieldsOf unit fun _ => .attrChanged
    | 3 => fieldsOf unit fun _ => .removed
    | 4 => fieldsOf relPath .renamedFrom
    | 5 => fieldsOf unit fun _ => .resyncRequired
    | _ => fun _ => none
  take_put := by
    intro k _ rest
    cases k <;> simp only [takeTagged_tagged, Nat.reducePow, Nat.reduceLT] <;>
      exact fieldsOf_put _ _ _ rfl rest

def fsEvent : Codec FsEvent :=
  (u64.pair (eventKind.pair (relPath.pair (u64.option.pair u64.option)))).map
    (fun p => ⟨p.1, p.2.1, p.2.2.1, p.2.2.2.1, p.2.2.2.2⟩)
    (fun e => (e.seq, e.kind, e.path, e.newVersion, e.origin))
    (fun _ => true) (fun _ _ => rfl)

/-- The bytes of a request: its variant index and its fields. -/
def putRequest : Request → Bytes
  | .attach e => tagged 0 (text.put e)
  | .getattr p => tagged 1 (relPath.put p)
  | .readdir p c => tagged 2 ((relPath.pair u64).put (p, c))
  | .openFile p f => tagged 3 ((relPath.pair openFlags).put (p, f))
  | .create p f m => tagged 4 ((relPath.pair (openFlags.pair u32)).put (p, f, m))
  | .read fh off len => tagged 5 ((u64.pair (u64.pair u32)).put (fh, off, len))
  | .write fh off d v =>
    tagged 6 ((u64.pair (u64.pair (bytes.pair u64.option))).put (fh, off, d, v))
  | .flush fh => tagged 7 (u64.put fh)
  | .release fh => tagged 8 (u64.put fh)
  | .setattr p s t m =>
    tagged 9 ((relPath.pair (u64.option.pair (systemTime.option.pair u32.option))).put
      (p, s, t, m))
  | .mkdir p m => tagged 10 ((relPath.pair u32).put (p, m))
  | .unlink p => tagged 11 (relPath.put p)
  | .rmdir p => tagged 12 (relPath.put p)
  | .rename s d r => tagged 13 ((relPath.pair (relPath.pair bool)).put (s, d, r))
  | .lock fh k w => tagged 14 ((u64.pair (lockKind.pair bool)).put (fh, k, w))
  | .unlock fh => tagged 15 (u64.put fh)
  | .subscribe s => tagged 16 (u64.option.put s)
  | .statfs => tagged 17 (unit.put ())
  | .link t l => tagged 18 ((relPath.pair relPath).put (t, l))
  | .mountDefaults => tagged 19 (unit.put ())
  | .auth t => tagged 20 (text.put t)
  | .symlink t l => tagged 21 ((text.pair relPath).put (t, l))
  | .readLink p => tagged 22 (relPath.put p)

/-- The fields of the request variant with a given index. -/
def requestVariant : ℕ → Bytes → Option (Request × Bytes)
  | 0 => fieldsOf text .attach
  | 1 => fieldsOf relPath .getattr
  | 2 => fieldsOf (relPath.pair u64) fun x => .readdir x.1 x.2
  | 3 => fieldsOf (relPath.pair openFlags) fun x => .openFile x.1 x.2
  | 4 => fieldsOf (relPath.pair (openFlags.pair u32)) fun x => .create x.1 x.2.1 x.2.2
  | 5 => fieldsOf (u64.pair (u64.pair u32)) fun x => .read x.1 x.2.1 x.2.2
  | 6 => fieldsOf (u64.pair (u64.pair (bytes.pair u64.option)))
      fun x => .write x.1 x.2.1 x.2.2.1 x.2.2.2
  | 7 => fieldsOf u64 .flush
  | 8 => fieldsOf u64 .release
  | 9 => fieldsOf (relPath.pair (u64.option.pair (systemTime.option.pair u32.option)))
      fun x => .setattr x.1 x.2.1 x.2.2.1 x.2.2.2
  | 10 => fieldsOf (relPath.pair u32) fun x => .mkdir x.1 x.2
  | 11 => fieldsOf relPath .unlink
  | 12 => fieldsOf relPath .rmdir
  | 13 => fieldsOf (relPath.pair (relPath.pair bool)) fun x => .rename x.1 x.2.1 x.2.2
  | 14 => fieldsOf (u64.pair (lockKind.pair bool)) fun x => .lock x.1 x.2.1 x.2.2
  | 15 => fieldsOf u64 .unlock
  | 16 => fieldsOf u64.option .subscribe
  | 17 => fieldsOf unit fun _ => .statfs
  | 18 => fieldsOf (relPath.pair relPath) fun x => .link x.1 x.2
  | 19 => fieldsOf unit fun _ => .mountDefaults
  | 20 => fieldsOf text .auth
  | 21 => fieldsOf (text.pair relPath) fun x => .symlink x.1 x.2
  | 22 => fieldsOf relPath .readLink
  | _ => fun _ => none

@[simp] theorem dom_relPath {p : RelPath} : relPath.dom p = true := rfl

@[simp] theorem dom_openFlags {f : OpenFlags} : openFlags.dom f = true := rfl

@[simp] theorem dom_systemTime {t : SystemTime} :
    systemTime.dom t = true ↔ 0 ≤ t ∧ t.toNat / 10 ^ 9 < 2 ^ 64 := by
  have hnanos : t.toNat % 10 ^ 9 < 2 ^ 32 := by omega
  simp only [systemTime, dom_map, dom_pair, dom_varint, decide_eq_true_eq, hnanos, and_true]

/-- No time is before the epoch, and the numbers are within their types. -/
def admits (times : List SystemTime) (numbers : List (ℕ × ℕ)) : Bool :=
  (∀ t ∈ times, 0 ≤ t) ∧ ∀ p ∈ numbers, p.1 < 2 ^ p.2

theorem admits_iff {times : List SystemTime} {numbers : List (ℕ × ℕ)} :
    admits times numbers = true ↔ (∀ t ∈ times, 0 ≤ t) ∧ ∀ p ∈ numbers, p.1 < 2 ^ p.2 :=
  decide_eq_true_iff

theorem takeTagged_putRequest (r : Request) (h : admits r.times r.numbers = true)
    (rest : Bytes) : takeTagged requestVariant (putRequest r ++ rest) = some (r, rest) := by
  rw [admits_iff] at h
  cases r
  case setattr p s t m =>
    refine (takeTagged_tagged _ (by decide) _ _).trans (fieldsOf_put _ _ _ ?_ rest)
    cases s <;> cases t <;> cases m <;> simp_all [Request.times, Request.numbers]
  case statfs => exact takeTagged_tagged _ (n := 17) (by decide) [] rest
  case mountDefaults => exact takeTagged_tagged _ (n := 19) (by decide) [] rest
  all_goals
    refine (takeTagged_tagged _ (by decide) _ _).trans (fieldsOf_put _ _ _ ?_ rest)
    simp_all [Request.times, Request.numbers, bool, lockKind]

/-- A request is accepted unless it carries a time before the epoch or a number out of range. -/
def request : Codec Request where
  dom r := admits r.times r.numbers
  put := putRequest
  take := takeTagged requestVariant
  take_put := takeTagged_putRequest

theorem dom_attr {a : Attr} : attr.dom a = true ↔ admits a.times a.numbers = true := by
  simp only [attr, fileKind, dom_map, dom_pair, dom_enum, dom_varint, dom_systemTime,
    admits_iff, Attr.times, Attr.numbers, List.forall_mem_cons, List.not_mem_nil]
  tauto

theorem dom_dirEntry {e : DirEntry} : dirEntry.dom e = true ↔ attr.dom e.attr = true := by
  simp [dirEntry]

/-- A response is accepted like a request. -/
def response : Codec Response where
  dom r := admits r.times r.numbers
  put
    | .attachOk i a => tagged 0 ((u32.pair attr).put (i, a))
    | .attr a => tagged 1 (attr.put a)
    | .dir es c => tagged 2 ((dirEntry.list.pair u64.option).put (es, c))
    | .opened fh a => tagged 3 ((u64.pair attr).put (fh, a))
    | .data d => tagged 4 (bytes.put d)
    | .written n v c => tagged 5 ((u32.pair (u64.pair bool)).put (n, v, c))
    | .statfs b n f => tagged 6 ((u32.pair (u64.pair u64)).put (b, n, f))
    | .subscribed s => tagged 7 (u64.put s)
    | .ok => tagged 8 (unit.put ())
    | .mountDefaults e p m b =>
      tagged 9 ((text.list.pair (text.list.pair (u64.option.pair u64.option))).put
        (e, p, m, b))
    | .target t => tagged 10 (text.put t)
  take := takeTagged fun
    | 0 => fieldsOf (u32.pair attr) fun x => .attachOk x.1 x.2
    | 1 => fieldsOf attr .attr
    | 2 => fieldsOf (dirEntry.list.pair u64.option) fun x => .dir x.1 x.2
    | 3 => fieldsOf (u64.pair attr) fun x => .opened x.1 x.2
    | 4 => fieldsOf bytes .data
    | 5 => fieldsOf (u32.pair (u64.pair bool)) fun x => .written x.1 x.2.1 x.2.2
    | 6 => fieldsOf (u32.pair (u64.pair u64)) fun x => .statfs x.1 x.2.1 x.2.2
    | 7 => fieldsOf u64 .subscribed
    | 8 => fieldsOf unit fun _ => .ok
    | 9 => fieldsOf (text.list.pair (text.list.pair (u64.option.pair u64.option)))
        fun x => .mountDefaults x.1 x.2.1 x.2.2.1 x.2.2.2
    | 10 => fieldsOf text .target
    | _ => fun _ => none
  take_put := by
    intro r h rest
    rw [admits_iff] at h
    cases r <;> simp only [takeTagged_tagged, Nat.reducePow, Nat.reduceLT] <;>
      refine fieldsOf_put _ _ _ ?_ rest
    case dir es c =>
      simp only [Response.times, Response.numbers, List.forall_mem_append,
        List.forall_mem_flatMap] at h
      refine dom_pair.mpr ⟨dom_list.mpr fun e he => ?_, ?_⟩
      · exact dom_dirEntry.mpr (dom_attr.mpr (admits_iff.mpr ⟨h.1 e he, h.2.1 e he⟩))
      · simpa using h.2.2
    all_goals
      simp_all [Response.times, Response.numbers, dom_attr, admits_iff, bool, unit, or_imp,
        forall_and]

/-- The outcome of a request: tag zero for a response, one for an error. -/
def outcome : Codec (Except ErrorCode Response) where
  dom
    | .ok r => response.dom r
    | .error _ => true
  put
    | .ok r => tagged 0 (response.put r)
    | .error e => tagged 1 (errorCode.put e)
  take := takeTagged fun
    | 0 => fieldsOf response .ok
    | 1 => fieldsOf errorCode .error
    | _ => fun _ => none
  take_put := by
    rintro (e | r) h rest <;> simp only [takeTagged_tagged, Nat.reducePow, Nat.reduceLT]
    · exact fieldsOf_put _ _ _ rfl rest
    · exact fieldsOf_put _ _ _ h rest

/-- A frame is accepted unless it carries a time before the epoch or a number out of range. -/
def frame : Codec Frame where
  dom f := admits f.times f.numbers
  put
    | .hello a b c => tagged 0 ((u16.pair (u16.pair text)).put (a, b, c))
    | .helloAck p s => tagged 1 ((u16.pair text).put (p, s))
    | .request i b => tagged 2 ((u64.pair request).put (i, b))
    | .response i b => tagged 3 ((u64.pair outcome).put (i, b))
    | .events b => tagged 4 (fsEvent.list.put b)
    | .ping n => tagged 5 (u64.put n)
    | .pong n => tagged 6 (u64.put n)
    | .compressed d => tagged 7 (bytes.put d)
  take := takeTagged fun
    | 0 => fieldsOf (u16.pair (u16.pair text)) fun x => .hello x.1 x.2.1 x.2.2
    | 1 => fieldsOf (u16.pair text) fun x => .helloAck x.1 x.2
    | 2 => fieldsOf (u64.pair request) fun x => .request x.1 x.2
    | 3 => fieldsOf (u64.pair outcome) fun x => .response x.1 x.2
    | 4 => fieldsOf fsEvent.list .events
    | 5 => fieldsOf u64 .ping
    | 6 => fieldsOf u64 .pong
    | 7 => fieldsOf bytes .compressed
    | _ => fun _ => none
  take_put := by
    intro f h rest
    rw [admits_iff] at h
    cases f <;> simp only [takeTagged_tagged, Nat.reducePow, Nat.reduceLT] <;>
      refine fieldsOf_put _ _ _ ?_ rest
    case response i b => cases b <;> simp_all [Frame.times, Frame.numbers, outcome, response,
        admits_iff]
    case events b =>
      simp only [Frame.numbers, List.forall_mem_flatMap] at h
      refine dom_list.mpr fun e he => ?_
      simpa [FsEvent.numbers, fsEvent, eventKind, or_imp, forall_and] using h.2 e he
    all_goals simp_all [Frame.times, Frame.numbers, request, admits_iff]

theorem dom_frame (f : Frame) : frame.dom f = true ↔ ¬ f.preEpoch ∧ f.InRange := by
  simp [frame, admits_iff, Frame.preEpoch, Frame.InRange]

end AlloyFs.Postcard
