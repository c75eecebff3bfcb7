import AlloyFs.Agent.Pacing
import AlloyFs.Agent.Subscribers
import AlloyFs.Proto.Frame
import Mathlib.Algebra.Order.BigOperators.Group.List
import Mathlib.Algebra.Order.Ring.Nat

/-!
# The frames of the agent, and how long they are

Three producers put a variable amount of data into one frame: a page of a listing, the catch-up of
a subscriber, and a live batch of the coalescer.  Each is bounded by a count — the entries of a
page, the events of the ring, the changes of a window — and none by bytes.  So a frame stays below
the bound of the codec as long as the names and paths in it are short, and how short follows from
the counts.
-/

namespace AlloyFs

open List

/-! ## Counts -/

namespace Coalescer

variable (co : Coalescer) (kind : EventKind)

theorem length_keys_purge (pending : PendingMap) (r : RelPath × RelPath) :
    (purge pending r).keys.length ≤ pending.keys.length := by
  have hdrop : ∀ (m : PendingMap) (p : RelPath) (k : EventKind),
      (if m.lookup p = some k then m.erase p else m).keys.length ≤ m.keys.length := by
    intro m p k
    split
    · rw [AList.keys_erase]
      exact length_erase_le
    · exact le_rfl
  exact (hdrop _ _ _).trans (hdrop _ _ _)

theorem length_takeBatch_le : co.takeBatch.1.length ≤ co.len := by
  have hfold : ∀ (rs : List (RelPath × RelPath)) (m : PendingMap),
      (rs.foldl purge m).keys.length ≤ m.keys.length := by
    intro rs
    induction rs with
    | nil => exact fun _ => le_rfl
    | cons r rs ih => exact fun m => (ih _).trans (length_keys_purge m r)
  have h := hfold co.renames co.pending
  simp only [AList.keys, keys, length_map] at h
  simp only [takeBatch, len, sorted, length_append, length_map, length_insertionSort, deduped,
    AList.keys, keys]
  omega

theorem len_push_le (path : RelPath) : (co.push path kind).len ≤ co.len + 1 := by
  have := length_erase_le (a := path) (l := co.pending.keys)
  rw [push]
  split
  · omega
  · split
    · simp only [len, AList.keys_insert, length_cons]
      omega
    · simp only [len, AList.keys_erase]
      omega

theorem len_pushAll_le (paths : List (List Name)) :
    (co.pushAll paths kind).len ≤ co.len + paths.length := by
  rw [pushAll]
  induction paths generalizing co with
  | nil => exact le_rfl
  | cons abs paths ih =>
    rw [foldl_cons, length_cons]
    refine (ih _).trans ?_
    split
    · have := co.len_push_le kind
      grind
    · omega

/-- An event makes at most one entry for each of its paths. -/
theorem len_ingest_le (event : NotifyEvent) :
    (co.ingest event).len ≤ co.len + event.paths.length := by
  obtain ⟨kind, paths⟩ := event
  have hall := fun kind => co.len_pushAll_le kind paths
  have hone := fun kind path => co.len_push_le kind path
  cases kind with
  | modifyName mode =>
    simp only [ingest]
    split
    · split
      · next f t _ _ =>
        have := length_keys_purge co.pending (f, t)
        rw [pair]
        split
        · simp
        · exact (hone _ _).trans (by simp)
        · exact (hone _ _).trans (by simp)
        · simp only [len, length_append, length_cons, length_nil]
          omega
      · simp
    · split
      · split
        · simp
        · exact hone _ _
      · simp
    · split
      · split
        · simp
        · exact hone _ _
      · simp
    · exact hall _
  | other => exact Nat.le_add_right _ _
  | _ => exact hall _

end Coalescer

namespace EventHub

theorem exists_logs_after (inputs : List Input) :
    ∃ history, (after inputs).Logs history ∧ (after inputs).logCap = EVENT_LOG_CAP := by
  have hstep : ∀ (hub : EventHub) (i : Input), (∃ history, hub.Logs history ∧
      hub.logCap = EVENT_LOG_CAP) → ∃ history, (hub.apply i).Logs history ∧
        (hub.apply i).logCap = EVENT_LOG_CAP := by
    rintro hub (⟨now, path, session⟩ | ⟨now, raw⟩) ⟨history, hlogs, hcap⟩
    · exact ⟨history, ⟨hlogs.pos, hlogs.seq, hlogs.seqs, hlogs.log⟩, hcap⟩
    · exact ⟨_, hlogs.publish now raw, (logCap_publish now raw hub).trans hcap⟩
  exact foldlRecOn inputs apply ⟨[], logs_withCapacity (by decide), rfl⟩
    fun hub h i _ => hstep hub i h

/-- A catch-up batch has at most `EVENT_LOG_CAP` events. -/
theorem length_catchup_le {inputs : List Input} {since : Option ℕ} {batch : List FsEvent}
    (h : (after inputs).subscribe since = .ok batch) : batch.length ≤ EVENT_LOG_CAP := by
  obtain ⟨history, hlogs, hcap⟩ := exists_logs_after inputs
  have hlen : (after inputs).log.length ≤ EVENT_LOG_CAP := hcap ▸ hlogs.ring.1
  unfold subscribe at h
  split at h
  · cases h
    exact Nat.zero_le _
  · split at h
    · split at h
      · cases h
      · cases h
        exact (length_filter_le _ _).trans hlen
    · cases h
      exact Nat.zero_le _

theorem length_publish (now : ℕ) (raw : List (RelPath × EventKind)) :
    ∀ hub : EventHub, (hub.publish now raw).2.length = raw.length := by
  induction raw with
  | nil => exact fun _ => rfl
  | cons item raw ih => exact fun hub => congrArg (· + 1) (ih _)

end EventHub

/-- **The frames the agent can put on a connection.**  An answer other than a page of a listing or
the data of a read carries values of bounded shape; the times of its attributes are whatever the
file system reports.  A live batch is what the window holds when one more event fills it or the
timer has run out; a raw event lists at most the two ends of a rename. -/
inductive AgentFrame : Frame → Prop
  | pong (nonce : ℕ) : AgentFrame (.pong nonce)
  | failure (id : ℕ) (e : ErrorCode) : AgentFrame (.response id (.error e))
  | answer (id : ℕ) (r : Response) (hdir : ∀ es c, r ≠ .dir es c) (hdata : ∀ d, r ≠ .data d) :
      AgentFrame (.response id (.ok r))
  | page (id : ℕ) (entries : List DirEntry) (cursor : ℕ) :
      AgentFrame (.response id (.ok (readdirPage entries cursor)))
  | data (id : ℕ) (bytes : Bytes) (h : bytes.length ≤ DATA_CHUNK) :
      AgentFrame (.response id (.ok (.data bytes)))
  | catchup (inputs : List EventHub.Input) (since : Option ℕ) (session : ℕ)
      (batch : List FsEvent) (h : (EventHub.after inputs).subscribe since = .ok batch) :
      AgentFrame (.events (strip session batch))
  | live (inputs : List EventHub.Input) (now session : ℕ) (co : Coalescer) (event : NotifyEvent)
      (hfull : co.len < BATCH_MAX) (hpaths : event.paths.length ≤ 2) :
      AgentFrame (.events (strip session
        ((EventHub.after inputs).publish now (co.ingest event).takeBatch.1).2))
  | lagged : AgentFrame (.events resync)

namespace AgentFrame

variable {f : Frame} {batch : List FsEvent}

/-- The agent never builds a wrapper; only the codec does. -/
theorem isCompressed (h : AgentFrame f) : f.isCompressed = false := by cases h <;> rfl

theorem length_events_le (h : AgentFrame (.events batch)) : batch.length ≤ EVENT_LOG_CAP := by
  cases h with
  | catchup inputs since session batch h =>
    exact (length_filter_le _ _).trans (EventHub.length_catchup_le h)
  | live inputs now session co event hfull hpaths =>
    refine (length_filter_le _ _).trans ?_
    rw [EventHub.length_publish]
    have := (co.ingest event).length_takeBatch_le
    have := co.len_ingest_le event
    unfold BATCH_MAX at hfull
    unfold EVENT_LOG_CAP
    omega
  | lagged => decide

end AgentFrame

/-! ## Lengths -/

/-- The bytes of a number in base 128. -/
def varintLen (n : ℕ) : ℕ := (varintBytes n).length

/-- So many bytes behind their number. -/
def countedLen (n : ℕ) : ℕ := varintLen n + n

/-- The bytes of a text in UTF-8. -/
def textLen (t : Text) : ℕ := (t.map Char.utf8Size).sum

/-- Absence or presence, one byte. -/
def optionLen (n : Option ℕ) : ℕ := 1 + (n.map varintLen).getD 0

/-- A number and the values it counts. -/
def listLen {α : Type} (len : α → ℕ) (as : List α) : ℕ := varintLen as.length + (as.map len).sum

/-- Seconds and nanoseconds. -/
def timeLen (t : SystemTime) : ℕ := varintLen (t.toNat / 10 ^ 9) + varintLen (t.toNat % 10 ^ 9)

def Attr.wireLen (a : Attr) : ℕ :=
  1 + varintLen a.size + timeLen a.mtime + timeLen a.ctime + varintLen a.mode + varintLen a.version

def DirEntry.wireLen (e : DirEntry) : ℕ := countedLen (textLen e.name) + e.attr.wireLen

/-- The bytes of the path of an event, and of the target of a rename. -/
def FsEvent.pathLen (e : FsEvent) : ℕ :=
  textLen e.path.text +
    match e.kind with
    | .renamedFrom dst => textLen dst.text
    | _ => 0

def FsEvent.wireLen (e : FsEvent) : ℕ :=
  varintLen e.seq + 1 +
    (match e.kind with
      | .renamedFrom dst => countedLen (textLen dst.text)
      | _ => 0) +
    countedLen (textLen e.path.text) + optionLen e.newVersion + optionLen e.origin

def Response.wireLen : Response → ℕ
  | .attachOk i a => 1 + varintLen i + a.wireLen
  | .attr a => 1 + a.wireLen
  | .dir es c => 1 + listLen DirEntry.wireLen es + optionLen c
  | .opened fh a => 1 + varintLen fh + a.wireLen
  | .data d => 1 + countedLen d.length
  | .written n v _ => 1 + varintLen n + varintLen v + 1
  | .statfs b n f => 1 + varintLen b + varintLen n + varintLen f
  | .subscribed s => 1 + varintLen s
  | .ok => 1
  | .mountDefaults e p m b =>
    1 + listLen (fun t => countedLen (textLen t)) e + listLen (fun t => countedLen (textLen t)) p +
      optionLen m + optionLen b
  | .target t => 1 + countedLen (textLen t)

/-- The length of the serialised form, for the frames of the agent. -/
def Frame.wireLen : Frame → ℕ
  | .response id (.ok r) => 2 + varintLen id + r.wireLen
  | .response id (.error _) => 3 + varintLen id
  | .events batch => 1 + listLen FsEvent.wireLen batch
  | .pong n => 1 + varintLen n
  | _ => 0

/-! ## Short frames -/

/-- An answer of this kind is short; only configured patterns and the target of a link make one of
the other answers long. -/
def Response.Short : Response → Prop
  | .dir es _ => ∀ e ∈ es, textLen e.name ≤ 255
  | .data _ => True
  | r => r.wireLen ≤ 2 ^ 19

/-- **The names and paths in the frame are short**: a name has at most 255 bytes, a path 90, or
2000 in a batch that is no longer than a live one. -/
def Frame.Short : Frame → Prop
  | .response _ (.ok r) => r.Short
  | .events batch =>
    ∀ e ∈ batch, e.pathLen ≤ if batch.length ≤ BATCH_MAX + 1 then 2000 else 90
  | _ => True

theorem varintLen_le {n k : ℕ} (h : n < 128 ^ (k + 1)) : varintLen n ≤ k + 1 :=
  length_varintBytes_le h

theorem varintLen_u64 {n : ℕ} (h : n < 2 ^ 64) : varintLen n ≤ 10 := varintLen_le (by omega)

theorem optionLen_le {n : Option ℕ} (h : ∀ m ∈ n, m < 2 ^ 64) : optionLen n ≤ 11 := by
  cases n with
  | none => decide
  | some m =>
    have := varintLen_u64 (h m rfl)
    simp only [optionLen, Option.map_some, Option.getD_some]
    omega

theorem countedLen_le {n : ℕ} (h : n < 2 ^ 21) : countedLen n ≤ n + 3 := by
  have := varintLen_le (k := 2) (n := n) (by omega)
  unfold countedLen
  omega

theorem timeLen_le {t : SystemTime} (h : t.toNat / 10 ^ 9 < 2 ^ 64) : timeLen t ≤ 15 := by
  have hsecs := varintLen_u64 h
  have hnanos := varintLen_le (k := 4) (n := t.toNat % 10 ^ 9) (by omega)
  unfold timeLen
  omega

theorem Attr.wireLen_le {a : Attr} (h : ∀ p ∈ a.numbers, p.1 < 2 ^ p.2) : a.wireLen ≤ 56 := by
  simp only [Attr.numbers, forall_mem_cons, not_mem_nil] at h
  obtain ⟨hsize, hmtime, hctime, hmode, hversion, -⟩ := h
  have := varintLen_u64 hsize
  have := timeLen_le hmtime
  have := timeLen_le hctime
  have := varintLen_le (k := 4) (n := a.mode) (by omega)
  have := varintLen_u64 hversion
  unfold wireLen
  omega

theorem DirEntry.wireLen_le {e : DirEntry} (hname : textLen e.name ≤ 255)
    (h : ∀ p ∈ e.attr.numbers, p.1 < 2 ^ p.2) : e.wireLen ≤ 314 := by
  have := countedLen_le (n := textLen e.name) (by omega)
  have := Attr.wireLen_le h
  unfold wireLen
  omega

theorem FsEvent.wireLen_le {e : FsEvent} (h : ∀ p ∈ e.numbers, p.1 < 2 ^ p.2)
    (hpath : e.pathLen ≤ 2000) :
    e.wireLen ≤ e.pathLen + 39 ∧ (e.pathLen ≤ 90 → e.wireLen ≤ e.pathLen + 35) := by
  simp only [FsEvent.numbers, forall_mem_cons, forall_mem_append, forall_mem_map,
    Option.mem_toList] at h
  obtain ⟨hseq, hver, horig⟩ := h
  have hsmall : ∀ n, n ≤ 90 → varintLen n ≤ 1 := fun n hn => varintLen_le (k := 0) (by omega)
  have := varintLen_u64 hseq
  have := optionLen_le hver
  have := optionLen_le horig
  unfold wireLen pathLen at *
  split at hpath
  · next dst _ =>
    have := countedLen_le (n := textLen dst.text) (by omega)
    have := countedLen_le (n := textLen e.path.text) (by omega)
    refine ⟨by omega, fun hle => ?_⟩
    have := hsmall (textLen dst.text) (by omega)
    have := hsmall (textLen e.path.text) (by omega)
    unfold countedLen
    omega
  · have := countedLen_le (n := textLen e.path.text) (by omega)
    refine ⟨by omega, fun hle => ?_⟩
    have := hsmall (textLen e.path.text) (by omega)
    unfold countedLen
    omega

theorem listLen_le {α : Type} {len : α → ℕ} {as : List α} {n m : ℕ} (hlen : as.length ≤ n)
    (hn : n < 2 ^ 21) (h : ∀ a ∈ as, len a ≤ m) : listLen len as ≤ 3 + n * m := by
  have hsum : (as.map len).sum ≤ (as.map len).length • m :=
    sum_le_card_nsmul _ m (forall_mem_map.mpr h)
  have hmul := Nat.mul_le_mul_right m hlen
  have := varintLen_le (k := 2) (n := as.length) (by omega)
  rw [length_map, Nat.nsmul_eq_mul] at hsum
  unfold listLen
  omega

namespace AgentFrame

variable {batch : List FsEvent}

theorem events_le (h : AgentFrame (.events batch)) (hr : (Frame.events batch).InRange)
    (hs : (Frame.events batch).Short) :
    (Frame.events batch).wireLen + 3 ≤ MAX_FRAME_LEN := by
  have hcount := h.length_events_le
  simp only [Frame.InRange, Frame.numbers, forall_mem_flatMap] at hr
  simp only [Frame.wireLen, MAX_FRAME_LEN]
  by_cases hb : batch.length ≤ BATCH_MAX + 1
  · simp only [Frame.Short, hb, if_true] at hs
    have := listLen_le hb (by decide) fun e he =>
      ((FsEvent.wireLen_le (hr e he) (hs e he)).1.trans (Nat.add_le_add_right (hs e he) 39))
    unfold BATCH_MAX at this
    omega
  · simp only [Frame.Short, hb, if_false] at hs
    have := listLen_le hcount (by decide) fun e he =>
      ((FsEvent.wireLen_le (hr e he) ((hs e he).trans (by decide))).2 (hs e he)).trans
        (Nat.add_le_add_right (hs e he) 35)
    unfold EVENT_LOG_CAP at this
    omega

/-- **A short frame of the agent is within the bound**, and so is any wrapper around it. -/
theorem wireLen_le {f : Frame} (h : AgentFrame f) (hr : f.InRange) (hs : f.Short) :
    f.wireLen + 3 ≤ MAX_FRAME_LEN := by
  cases h with
  | pong nonce =>
    have := varintLen_u64 (n := nonce) (hr _ mem_cons_self)
    simp only [Frame.wireLen, MAX_FRAME_LEN]
    omega
  | failure id e =>
    have := varintLen_u64 (n := id) (hr _ mem_cons_self)
    simp only [Frame.wireLen, MAX_FRAME_LEN]
    omega
  | answer id r hdir hdata =>
    have := varintLen_u64 (n := id) (hr _ mem_cons_self)
    have hlen : r.wireLen ≤ 2 ^ 19 := by
      cases r with
      | dir es c => exact absurd rfl (hdir es c)
      | data d => exact absurd rfl (hdata d)
      | _ => exact hs
    simp only [Frame.wireLen, MAX_FRAME_LEN]
    omega
  | page id entries cursor =>
    simp only [Frame.InRange, Frame.numbers, readdirPage, Response.numbers, forall_mem_cons,
      forall_mem_append, forall_mem_flatMap, forall_mem_map, Option.mem_toList] at hr
    obtain ⟨hid, hattrs, hnext⟩ := hr
    have := varintLen_u64 hid
    have := optionLen_le hnext
    have hentry : ∀ e ∈ (entries.drop cursor).take READDIR_PAGE, e.wireLen ≤ 314 :=
      fun e he => DirEntry.wireLen_le (hs e he) (hattrs e he)
    have := listLen_le (length_take_le _ _) (by decide) hentry
    have hpage : 1024 * 314 + 40 ≤ MAX_FRAME_LEN := by decide
    simp only [Frame.wireLen, readdirPage, Response.wireLen]
    change _ ≤ 3 + 1024 * 314 at this
    omega
  | data id bytes hdata =>
    have := varintLen_u64 (n := id) (hr _ mem_cons_self)
    have := countedLen_le (n := bytes.length) (lt_of_le_of_lt hdata (by decide))
    unfold DATA_CHUNK at hdata
    simp only [Frame.wireLen, Response.wireLen, MAX_FRAME_LEN]
    omega
  | catchup inputs since session batch h => exact events_le (.catchup _ _ _ _ h) hr hs
  | live inputs now session co event hfull hpaths =>
    exact events_le (.live _ _ _ _ _ hfull hpaths) hr hs
  | lagged => exact events_le .lagged hr hs

end AgentFrame

end AlloyFs
