import AlloyFs.Agent.Ops
import AlloyFs.Lib.Transition
import AlloyFs.Sync.Reconcile

/-!
# Transfers of a file that changes meanwhile

`download_to` opens the server's file, reads it in chunks with up to eight requests in flight, and
appends the answers in order; nobody compares the length of an answer with what was asked for.
`push` reads the data of the local file, then its time, uploads both, and looks at the file once
more for the record.  The file may change between any two steps of the transfer.
-/

namespace AlloyFs.Sync

open Function List

/-- A file as one side has it. -/
structure FileCopy where
  content : Bytes
  mtimeNs : ℕ
deriving DecidableEq

/-! ## Downloads -/

inductive PullPhase
  | start
  | fetching (attr : Stat)
  /-- `download_to` has returned the attributes -/
  | staged (attr : Stat)
  | done (attr : Stat)
  | failed
deriving DecidableEq

/-- The server's file, the pull, and the local file. -/
structure PullRun where
  there : FileCopy
  version : ℕ
  /-- what the server has had in the file -/
  past : List Bytes
  phase : PullPhase
  /-- the answers for the chunks -/
  answers : ℕ → Option Bytes
  /-- so many answers were taken, and appended -/
  taken : ℕ
  out : Bytes
  staging : Option FileCopy
  here : Option FileCopy
  entry : Option SyncEntry

inductive PullStep
  /-- somebody writes, truncates or extends the file -/
  | change (file : FileCopy) (version : ℕ)
  | openFile
  | read (chunk : ℕ)
  | take
  | stage
  | place
  | fail

variable {data : Bytes}

namespace PullRun

variable {s s' : PullRun} {base : Option SyncEntry} {attr : Stat}

def init (file : FileCopy) (version : ℕ) (base : Option SyncEntry) : PullRun :=
  ⟨file, version, [file.content], .start, fun _ => none, 0, [], none, none, base⟩

/-- How much is asked for in a chunk. -/
def chunkLen (size chunk : ℕ) : ℕ := min (size - chunk * DATA_CHUNK) DATA_CHUNK

def step (s : PullRun) : PullStep → Option PullRun
  | .change file version =>
    some { s with there := file, version := version, past := file.content :: s.past }
  | .openFile =>
    match s.phase with
    | .start =>
      let attr := ⟨.file, s.there.content.length, s.there.mtimeNs, s.version⟩
      some { s with phase := .fetching attr }
    | _ => none
  | .read chunk =>
    match s.phase with
    | .fetching attr =>
      if chunk * DATA_CHUNK < attr.size ∧ chunk < s.taken + 8 ∧ s.answers chunk = none then
        let data := (s.there.content.drop (chunk * DATA_CHUNK)).take (chunkLen attr.size chunk)
        some { s with answers := update s.answers chunk (some data) }
      else none
    | _ => none
  | .take =>
    match s.phase, s.answers s.taken with
    | .fetching _, some data => some { s with taken := s.taken + 1, out := s.out ++ data }
    | _, _ => none
  | .stage =>
    match s.phase with
    | .fetching attr =>
      if attr.size ≤ s.taken * DATA_CHUNK then
        some { s with staging := some ⟨s.out, attr.mtimeNs⟩, phase := .staged attr }
      else none
    | _ => none
  | .place =>
    match s.phase with
    | .staged attr =>
      some { s with
        staging := none
        here := s.staging
        entry := some ⟨.file, attr.version, attr.size, attr.mtimeNs⟩
        phase := .done attr }
    | _ => none
  | .fail =>
    match s.phase with
    | .start | .fetching _ => some { s with staging := none, phase := .failed }
    | .staged _ => some { s with phase := .failed }
    | _ => none

/-- The bytes from this offset on are bytes that the server had there. -/
def Had (s : PullRun) (offset : ℕ) (data : Bytes) : Prop :=
  ∀ i < data.length, ∃ old ∈ s.past, old[offset + i]? = data[i]?

/-- The file has the size that was promised, and only bytes that the server had in their places. -/
def Whole (s : PullRun) (attr : Stat) (file : FileCopy) : Prop :=
  file.content.length = attr.size ∧ s.Had 0 file.content

/-- **A download is one consistent file**, and recorded as what it is; else nothing is recorded. -/
structure Consistent (base : Option SyncEntry) (s : PullRun) : Prop where
  staged : ∀ attr, s.phase = .staged attr → ∃ file, s.staging = some file ∧ s.Whole attr file ∧
    file.mtimeNs = attr.mtimeNs
  placed : ∀ attr, s.phase = .done attr → ∃ file, s.here = some file ∧ s.Whole attr file ∧
    s.entry = some ⟨.file, attr.version, file.content.length, file.mtimeNs⟩
  otherwise : (∀ attr, s.phase ≠ .done attr) → s.entry = base

/-- The condition: when a chunk is read, the file reaches as far as the chunk. -/
def longEnough (s : PullRun) (l : PullStep) : Prop :=
  match s.phase, l with
  | .fetching attr, .read chunk =>
    chunk * DATA_CHUNK + chunkLen attr.size chunk ≤ s.there.content.length
  | _, _ => True

instance : DecidableRel longEnough := fun s l => by
  unfold longEnough
  split <;> infer_instance

theorem Had.append {offset : ℕ} {xs ys : Bytes} (hx : s.Had offset xs)
    (hy : s.Had (offset + xs.length) ys) : s.Had offset (xs ++ ys) := by
  intro i hi
  rcases Nat.lt_or_ge i xs.length with hlt | hge
  · rw [getElem?_append_left hlt]
    exact hx i hlt
  · obtain ⟨c, hc, heq⟩ := hy (i - xs.length) (by rw [length_append] at hi; omega)
    refine ⟨c, hc, ?_⟩
    rw [getElem?_append_right hge, ← heq]
    congr 1
    omega

theorem had_read (h : s.there.content ∈ s.past) (offset count : ℕ) :
    s.Had offset ((s.there.content.drop offset).take count) := by
  intro i hi
  refine ⟨_, h, ?_⟩
  rw [length_take] at hi
  rw [getElem?_take_of_lt (by omega), getElem?_drop]

theorem Had.change {offset : ℕ} (h : s.Had offset data) (file : FileCopy) (version : ℕ) :
    Had { s with there := file, version := version, past := file.content :: s.past } offset data :=
  fun i hi => by
    obtain ⟨c, hc, heq⟩ := h i hi
    exact ⟨c, mem_cons_of_mem _ hc, heq⟩

/-- What was taken and what is on its way. -/
structure Fetching (s : PullRun) (attr : Stat) : Prop where
  answers : ∀ i data, s.answers i = some data → i * DATA_CHUNK < attr.size ∧
    data.length = chunkLen attr.size i ∧ s.Had (i * DATA_CHUNK) data
  length : s.out.length = min (s.taken * DATA_CHUNK) attr.size
  out : s.Had 0 s.out

/-- What holds in every state. -/
structure Sound (base : Option SyncEntry) (s : PullRun) : Prop extends s.Consistent base where
  current : s.there.content ∈ s.past
  start : s.phase = .start → s.answers = (fun _ => none) ∧ s.taken = 0 ∧ s.out = []
  fetching : ∀ attr, s.phase = .fetching attr → s.Fetching attr

theorem Fetching.read (h : s.Fetching attr) (hmem : s.there.content ∈ s.past) {chunk : ℕ}
    (hlt : chunk * DATA_CHUNK < attr.size)
    (hlen : chunk * DATA_CHUNK + chunkLen attr.size chunk ≤ s.there.content.length) :
    let data := (s.there.content.drop (chunk * DATA_CHUNK)).take (chunkLen attr.size chunk)
    Fetching { s with answers := update s.answers chunk (some data) } attr := by
  intro data
  refine ⟨fun i d hd => ?_, h.length, h.out⟩
  dsimp only at hd
  by_cases hi : i = chunk
  · subst hi
    rw [update_self] at hd
    rw [← Option.some.inj hd]
    refine ⟨hlt, ?_, had_read hmem _ _⟩
    rw [length_take, length_drop]
    omega
  · rw [update_of_ne hi] at hd
    exact h.answers i d hd

theorem Fetching.take (h : s.Fetching attr) (hdata : s.answers s.taken = some data) :
    Fetching { s with taken := s.taken + 1, out := s.out ++ data } attr := by
  obtain ⟨hlt, hlen, hhad⟩ := h.answers _ data hdata
  have hout := h.length
  rw [chunkLen] at hlen
  refine ⟨h.answers, ?_, Had.append (s := s) h.out ?_⟩
  · dsimp only
    rw [length_append, hout, hlen, Nat.succ_mul]
    omega
  · have : 0 + s.out.length = s.taken * DATA_CHUNK := by omega
    rw [this]
    exact hhad

theorem Sound.change (h : s.Sound base) (file : FileCopy) (version : ℕ) :
    Sound base { s with there := file, version := version, past := file.content :: s.past } := by
  have hwhole {attr f} (hw : s.Whole attr f) :
      Whole { s with there := file, version := version, past := file.content :: s.past } attr f :=
    ⟨hw.1, hw.2.change file version⟩
  refine { h with
    current := mem_cons_self
    staged := fun attr hp => ?_
    placed := fun attr hp => ?_
    fetching := fun attr hp => ?_ }
  · obtain ⟨f, hf, hw, htime⟩ := h.staged attr hp
    exact ⟨f, hf, hwhole hw, htime⟩
  · obtain ⟨f, hf, hw, hentry⟩ := h.placed attr hp
    exact ⟨f, hf, hwhole hw, hentry⟩
  · have hf := h.fetching attr hp
    refine ⟨fun i data hdata => ?_, hf.length, hf.out.change file version⟩
    obtain ⟨hlt, hlen, hhad⟩ := hf.answers i data hdata
    exact ⟨hlt, hlen, hhad.change file version⟩

theorem Sound.step {l : PullStep} (h : s.Sound base) (hok : s.longEnough l)
    (hs : s.step l = some s') : s'.Sound base := by
  cases l with
  | change file version =>
    cases hs
    exact h.change file version
  | openFile =>
    dsimp only [PullRun.step] at hs
    split at hs
    · next hp =>
      obtain ⟨hanswers, htaken, hout⟩ := h.start hp
      cases hs
      refine ⟨⟨by simp, by simp, fun _ => h.otherwise (by simp [hp])⟩, h.current, by simp, ?_⟩
      exact fun attr _ => ⟨by simp [hanswers], by simp [htaken, hout], by simp [Had, hout]⟩
    · cases hs
  | read chunk =>
    dsimp only [PullRun.step] at hs
    split at hs
    · next attr hp =>
      obtain ⟨⟨hlt, -, -⟩, rfl⟩ := of_guard hs
      refine { h with fetching := fun attr' hp' => ?_, start := by simp [hp] }
      obtain rfl : attr = attr' := PullPhase.fetching.inj (hp.symm.trans hp')
      exact (h.fetching attr hp).read h.current hlt (by simpa [longEnough, hp] using hok)
    · cases hs
  | take =>
    dsimp only [PullRun.step] at hs
    split at hs
    · next attr data hp hdata =>
      cases hs
      exact { h with
        fetching := fun attr hp => (h.fetching attr hp).take hdata, start := by simp [hp] }
    · cases hs
  | stage =>
    dsimp only [PullRun.step] at hs
    split at hs
    · next attr hp =>
      obtain ⟨hsize, rfl⟩ := of_guard hs
      have hf := h.fetching attr hp
      refine ⟨⟨fun attr' hp' => ?_, by simp, fun _ => h.otherwise (by simp [hp])⟩,
        h.current, by simp, by simp⟩
      cases hp'
      exact ⟨_, rfl, ⟨by rw [hf.length]; omega, hf.out⟩, rfl⟩
    · cases hs
  | place =>
    dsimp only [PullRun.step] at hs
    split at hs
    · next attr hp =>
      obtain ⟨file, hstaging, hwhole, htime⟩ := h.staged attr hp
      cases hs
      refine ⟨⟨by simp, fun attr' hp' => ?_, by simp⟩, h.current, by simp, by simp⟩
      cases hp'
      exact ⟨file, hstaging, hwhole, by rw [hwhole.1, htime]⟩
    · cases hs
  | fail =>
    have hfailed (staging) (hp : ∀ attr, s.phase ≠ .done attr) :
        Sound base { s with staging := staging, phase := .failed } :=
      ⟨⟨by simp, by simp, fun _ => h.otherwise hp⟩, h.current, by simp, by simp⟩
    dsimp only [PullRun.step] at hs
    split at hs <;> cases hs <;> exact hfailed _ (by simp [*])

/-- **A pull is one consistent download** in every run in which the file stays as long as each chunk
asked for, whatever else is written to it meanwhile. -/
theorem consistent_of_reaches {file : FileCopy} {version : ℕ}
    (hr : Reaches step longEnough (init file version base) s) : s.Consistent base := by
  refine (hr.invariant (Sound base) ?_ fun _ _ _ h hok hs => h.step hok hs).toConsistent
  exact ⟨⟨by simp [init], by simp [init], fun _ => rfl⟩, mem_cons_self, fun _ => ⟨rfl, rfl, rfl⟩,
    by simp [init]⟩

theorem exists_written {a b : Bytes} (ha : a.length = DATA_CHUNK) (hb : b.length = DATA_CHUNK) :
    ∃ s, Reaches step longEnough (init ⟨a ++ [2], 7⟩ 1 none) s ∧
      s.phase = .done ⟨.file, DATA_CHUNK + 1, 7, 1⟩ ∧ s.here = some ⟨a ++ [9], 7⟩ := by
  have hlen : (a ++ [2]).length = DATA_CHUNK + 1 := by rw [length_append, ha]; rfl
  have hlen' : (b ++ [9, 9]).length = DATA_CHUNK + 2 := by rw [length_append, hb]; rfl
  have hfirst : chunkLen (DATA_CHUNK + 1) 0 = DATA_CHUNK := by decide
  have hsecond : chunkLen (DATA_CHUNK + 1) 1 = 1 := by decide
  have hroom : DATA_CHUNK + 1 ≤ 2 * DATA_CHUNK := by decide
  refine exists_of_run [.openFile, .read 0, .change ⟨b ++ [9, 9], 8⟩ 2, .read 1, .take,
      .take, .stage,
    .place] ?_ (fun _ h => h) ?_
  · simp [Allowed, step, init, longEnough, hlen, hlen', hfirst, hsecond, -length_append]
  · simp [exec_cons, exec_nil, step, init, hlen, hfirst, hsecond, hroom, take_left' ha,
      drop_left' hb, -length_append]

/-- A file of two chunks is written over, and gets longer, between the reads of the chunks. -/
theorem consistent_written : ∃ s, Reaches step longEnough
      (init ⟨replicate DATA_CHUNK 1 ++ [2], 7⟩ 1 none) s ∧
    (s.phase = .done ⟨.file, DATA_CHUNK + 1, 7, 1⟩ ∧
      s.here = some ⟨replicate DATA_CHUNK 1 ++ [9], 7⟩) ∧ s.Consistent none := by
  obtain ⟨s, hs, hobs⟩ :=
    exists_written (a := replicate DATA_CHUNK 1) (b := replicate DATA_CHUNK 8) length_replicate
      length_replicate
  exact ⟨s, hs, hobs, consistent_of_reaches hs⟩

/-- **What goes wrong.**  The file is cut after it was opened: the record has a size that the file
does not have. -/
theorem not_consistent_cut : ∃ s, Reaches step (fun _ _ => True) (init ⟨[1, 2, 3], 7⟩ 1 none) s ∧
    (s.phase = .done ⟨.file, 3, 7, 1⟩ ∧ s.here = some ⟨[1], 7⟩ ∧ s.entry = some ⟨.file, 1, 3, 7⟩) ∧
    ¬ s.Consistent none := by
  obtain ⟨s, hs, hp, hhere, hentry⟩ : ∃ s,
      Reaches step (fun _ _ => True) (init ⟨[1, 2, 3], 7⟩ 1 none) s ∧
      s.phase = .done ⟨.file, 3, 7, 1⟩ ∧ s.here = some ⟨[1], 7⟩ ∧ s.entry = some ⟨.file, 1, 3, 7⟩ :=
    exists_of_run [.openFile, .change ⟨[1], 8⟩ 2, .read 0, .take, .stage, .place]
      (allowed_true _ _ _) (fun _ h => h) (by decide +kernel)
  refine ⟨s, hs, ⟨hp, hhere, hentry⟩, fun h => ?_⟩
  obtain ⟨file, hfile, hwhole, -⟩ := h.placed _ hp
  cases hhere.symm.trans hfile
  cases hwhole.1

end PullRun

/-! ## Uploads -/

inductive PushPhase
  | start
  | read (data : Bytes)
  | timed (data : Bytes) (mtimeNs : ℕ)
  /-- so many chunks were written -/
  | writing (data : Bytes) (mtimeNs chunks : ℕ)
  /-- `upload` has returned the attributes -/
  | sent (version : ℕ)
  | done
  | failed
deriving DecidableEq

/-- The local file, the push, and the server's file. -/
structure PushRun where
  here : Option FileCopy
  /-- what the local file has been -/
  past : List FileCopy
  there : Option FileCopy
  entry : Option SyncEntry
  phase : PushPhase

inductive PushStep
  /-- somebody writes the file, or removes it -/
  | edit (file : Option FileCopy)
  | read
  | time
  /-- the server's clock goes on with what is written there -/
  | create (now : ℕ)
  | write (now : ℕ)
  | setMtime (version : ℕ)
  | record
  | fail

namespace PushRun

variable {s s' : PushRun}

def init (here there : Option FileCopy) (base : Option SyncEntry) : PushRun :=
  ⟨here, here.toList, there, base, .start⟩

def step (s : PushRun) : PushStep → Option PushRun
  | .edit file =>
    -- each edit gives the file a new time
    if ∀ f ∈ file, ∀ old ∈ s.past, f.mtimeNs ≠ old.mtimeNs then
      some { s with here := file, past := file.toList ++ s.past }
    else none
  | .read =>
    match s.phase, s.here with
    | .start, some f => some { s with phase := .read f.content }
    | .start, none => some { s with phase := .failed }
    | _, _ => none
  | .time =>
    match s.phase, s.here with
    | .read data, some f => some { s with phase := .timed data f.mtimeNs }
    | .read _, none => some { s with phase := .failed }
    | _, _ => none
  | .create now =>
    match s.phase with
    | .timed data mtimeNs =>
      some { s with there := some ⟨[], now⟩, phase := .writing data mtimeNs 0 }
    | _ => none
  | .write now =>
    match s.phase, s.there with
    | .writing data mtimeNs k, some t =>
      let chunk := (data.drop (k * DATA_CHUNK)).take DATA_CHUNK
      if k * DATA_CHUNK < data.length then
        some { s with
          there := some ⟨writeAt t.content (k * DATA_CHUNK) chunk, now⟩
          phase := .writing data mtimeNs (k + 1) }
      else none
    | _, _ => none
  | .setMtime version =>
    match s.phase, s.there with
    | .writing data mtimeNs k, some t =>
      if data.length ≤ k * DATA_CHUNK then
        some { s with there := some { t with mtimeNs }, phase := .sent version }
      else none
    | _, _ => none
  | .record =>
    match s.phase, s.here with
    | .sent version, some f =>
      some { s with entry := some ⟨.file, version, f.content.length, f.mtimeNs⟩, phase := .done }
    | .sent _, none => some { s with phase := .failed }
    | _, _ => none
  | .fail => if s.phase ≠ .done then some { s with phase := .failed } else none

/-- **The record is that of what was uploaded**, and whatever else the local file is now is pushed
by the next plan. -/
def Recorded (s : PushRun) : Prop :=
  s.phase = .done → ∃ t ∈ s.past, ∃ v, s.there = some t ∧
    s.entry = some ⟨.file, v, t.content.length, t.mtimeNs⟩ ∧
    ∀ f ∈ s.here, f ≠ t → ∀ path, planPath path s.entry
      (some ⟨.file, f.content.length, f.mtimeNs, 0⟩)
      (some ⟨.file, t.content.length, t.mtimeNs, v⟩) = some (.push path)

/-- The condition: before its time is taken the file keeps the content that was read, and then it
stays as it is until it was recorded, or goes away. -/
def undisturbed (s : PushRun) : PushStep → Prop
  | .edit file =>
    match s.phase with
    | .read data => ∀ f ∈ file, f.content = data
    | .timed _ _ | .writing _ _ _ | .sent _ => file = none
    | _ => True
  | _ => True

/-- What the phase says about the two files. -/
def PhaseOk (s : PushRun) : Prop :=
  match s.phase with
  | .read data => ∀ f ∈ s.here, f.content = data
  | .timed data mtimeNs => ⟨data, mtimeNs⟩ ∈ s.past ∧ ∀ f ∈ s.here, f = ⟨data, mtimeNs⟩
  | .writing data mtimeNs k => ⟨data, mtimeNs⟩ ∈ s.past ∧ (∀ f ∈ s.here, f = ⟨data, mtimeNs⟩) ∧
      ∃ now, s.there = some ⟨data.take (k * DATA_CHUNK), now⟩
  | .sent _ => ∃ t ∈ s.past, s.there = some t ∧ ∀ f ∈ s.here, f = t
  | .done => ∃ t ∈ s.past, s.there = some t ∧
      ∃ v, s.entry = some ⟨.file, v, t.content.length, t.mtimeNs⟩
  | _ => True

/-- What holds in every state. -/
structure Sound (s : PushRun) : Prop where
  current : ∀ f ∈ s.here, f ∈ s.past
  fresh : ∀ f ∈ s.past, ∀ g ∈ s.past, f.mtimeNs = g.mtimeNs → f = g
  phase : s.PhaseOk

theorem writeAt_take {k : ℕ} (h : k * DATA_CHUNK < data.length) :
    writeAt (data.take (k * DATA_CHUNK)) (k * DATA_CHUNK)
      ((data.drop (k * DATA_CHUNK)).take DATA_CHUNK) = data.take ((k + 1) * DATA_CHUNK) := by
  have hlen : (data.take (k * DATA_CHUNK)).length = k * DATA_CHUNK := by
    rw [length_take]
    omega
  have hne : (data.drop (k * DATA_CHUNK)).take DATA_CHUNK ≠ [] := by
    rw [← length_pos_iff, length_take, length_drop]
    have : 0 < DATA_CHUNK := by decide
    omega
  have hrest (n : ℕ) : (data.take (k * DATA_CHUNK)).drop (k * DATA_CHUNK + n) = [] :=
    drop_eq_nil_of_le (by omega)
  rw [writeAt, if_neg hne, hlen, Nat.sub_self, replicate_zero, append_nil, take_take,
    Nat.min_self, hrest, append_nil, Nat.succ_mul, take_add]

theorem Sound.edit {file : Option FileCopy} (h : s.Sound) (hok : s.undisturbed (.edit file))
    (hnew : ∀ f ∈ file, ∀ old ∈ s.past, f.mtimeNs ≠ old.mtimeNs) :
    Sound { s with here := file, past := file.toList ++ s.past } := by
  have hmem : ∀ f ∈ s.past, f ∈ file.toList ++ s.past := fun _ => mem_append_right _
  have hphase := h.phase
  refine ⟨fun f hf => mem_append_left _ (Option.mem_toList.mpr hf), ?_, ?_⟩
  · intro f hf g hg heq
    rw [mem_append, Option.mem_toList] at hf hg
    rcases hf with hf | hf <;> rcases hg with hg | hg
    · exact Option.mem_unique hf hg
    · exact absurd heq (hnew f hf g hg)
    · exact absurd heq.symm (hnew g hg f hf)
    · exact h.fresh f hf g hg heq
  · unfold PhaseOk undisturbed at *
    cases hp : s.phase with
    | start | failed => trivial
    | read data => simpa only [hp] using hok
    | timed data mtimeNs =>
      simp only [hp] at hok hphase ⊢
      subst hok
      exact ⟨hphase.1, by simp⟩
    | writing data mtimeNs k =>
      simp only [hp] at hok hphase ⊢
      subst hok
      exact ⟨hphase.1, by simp, hphase.2.2⟩
    | sent v =>
      simp only [hp] at hok hphase ⊢
      subst hok
      obtain ⟨t, ht, hthere, -⟩ := hphase
      exact ⟨t, ht, hthere, by simp⟩
    | done =>
      simp only [hp] at hphase ⊢
      obtain ⟨t, ht, hrest⟩ := hphase
      exact ⟨t, hmem t ht, hrest⟩

theorem Sound.step {l : PushStep} (h : s.Sound) (hok : s.undisturbed l) (hs : s.step l = some s') :
    s'.Sound := by
  have hphase := h.phase
  have hfailed : Sound { s with phase := .failed } := { h with phase := trivial }
  unfold PhaseOk at hphase
  cases l with
  | edit file =>
    obtain ⟨hnew, rfl⟩ := of_guard hs
    exact h.edit hok hnew
  | read =>
    dsimp only [PushRun.step] at hs
    split at hs
    · next f hp hf =>
      cases hs
      exact { h with phase := fun g hg => by rw [Option.mem_unique hg hf] }
    · cases hs
      exact hfailed
    · cases hs
  | time =>
    dsimp only [PushRun.step] at hs
    split at hs
    · next data f hp hf =>
      cases hs
      simp only [hp] at hphase
      obtain rfl := hphase f hf
      exact { h with phase := ⟨h.current f hf, fun g hg => Option.mem_unique hg hf⟩ }
    · cases hs
      exact hfailed
    · cases hs
  | create now =>
    dsimp only [PushRun.step] at hs
    split at hs
    · next data mtimeNs hp =>
      cases hs
      simp only [hp] at hphase
      exact { h with phase := ⟨hphase.1, hphase.2, now, by simp⟩ }
    · cases hs
  | write now =>
    dsimp only [PushRun.step] at hs
    split at hs
    · next data mtimeNs k t hp ht =>
      obtain ⟨hlt, rfl⟩ := of_guard hs
      simp only [hp] at hphase
      obtain ⟨hmem, hhere, before, hthere⟩ := hphase
      cases ht.symm.trans hthere
      exact { h with phase := ⟨hmem, hhere, now, by rw [writeAt_take hlt]⟩ }
    · cases hs
  | setMtime version =>
    dsimp only [PushRun.step] at hs
    split at hs
    · next data mtimeNs k t hp ht =>
      obtain ⟨hle, rfl⟩ := of_guard hs
      simp only [hp] at hphase
      obtain ⟨hmem, hhere, before, hthere⟩ := hphase
      cases ht.symm.trans hthere
      exact { h with phase := ⟨_, hmem, by rw [take_of_length_le hle], hhere⟩ }
    · cases hs
  | record =>
    dsimp only [PushRun.step] at hs
    split at hs
    · next version f hp hf =>
      cases hs
      simp only [hp] at hphase
      obtain ⟨t, ht, hthere, hhere⟩ := hphase
      obtain rfl := hhere f hf
      exact { h with phase := ⟨f, ht, hthere, version, rfl⟩ }
    · cases hs
      exact hfailed
    · cases hs
  | fail =>
    obtain ⟨-, rfl⟩ := of_guard hs
    exact hfailed

/-- What a time tells apart is a change for the plan, and the server's file is none. -/
theorem planPath_edited {f t : FileCopy} {v : ℕ} (hne : f.mtimeNs ≠ t.mtimeNs) (path : Text) :
    planPath path (some ⟨.file, v, t.content.length, t.mtimeNs⟩)
      (some ⟨.file, f.content.length, f.mtimeNs, 0⟩)
      (some ⟨.file, t.content.length, t.mtimeNs, v⟩) = some (.push path) := by
  simp [planPath, localChanged, remoteChanged, sameStat, hne]

/-- **A push records what it uploaded** in every run in which the file is left alone from its
reading to its record. -/
theorem recorded_of_reaches {here there : Option FileCopy} {base : Option SyncEntry}
    (hr : Reaches step undisturbed (init here there base) s) : s.Recorded := by
  intro hp
  have h : s.Sound := by
    refine hr.invariant Sound ⟨fun _ => Option.mem_toList.mpr, ?_, ?_⟩
      fun _ _ _ h hok hs => h.step hok hs
    · intro f hf g hg _
      exact Option.mem_unique (Option.mem_toList.mp hf) (Option.mem_toList.mp hg)
    · trivial
  have hphase := h.phase
  simp only [PhaseOk, hp] at hphase
  obtain ⟨t, ht, hthere, v, hentry⟩ := hphase
  refine ⟨t, ht, v, hthere, hentry, fun f hf hne path => ?_⟩
  rw [hentry]
  exact planPath_edited (fun heq => hne (h.fresh f (h.current f hf) t ht heq)) path

/-- The file is written again after it was recorded. -/
theorem recorded_edited : ∃ s, Reaches step undisturbed (init (some ⟨[1], 7⟩) none none) s ∧
    (s.phase = .done ∧ s.here = some ⟨[2], 8⟩) ∧ s.Recorded := by
  obtain ⟨s, hs, hobs⟩ : ∃ s, Reaches step undisturbed (init (some ⟨[1], 7⟩) none none) s ∧
      s.phase = .done ∧ s.here = some ⟨[2], 8⟩ := by
    refine exists_of_run [.read, .time, .create 3, .write 4, .setMtime 2, .record,
      .edit (some ⟨[2], 8⟩)] ?_ (fun _ h => h) (by decide +kernel)
    simp [Allowed, step, undisturbed, init]
  exact ⟨s, hs, hobs, recorded_of_reaches hs⟩

/-- **What goes wrong.**  The file is written again after its data was read: the server has the old
bytes, the record is that of the new ones, and no plan ever pushes them. -/
theorem not_recorded_edit :
    ∃ s, Reaches step (fun _ _ => True) (init (some ⟨[1], 7⟩) none none) s ∧
      (s.phase = .done ∧ s.here = some ⟨[2], 8⟩ ∧ s.there = some ⟨[1], 8⟩ ∧
        s.entry = some ⟨.file, 2, 1, 8⟩ ∧
        planPath [] s.entry (some ⟨.file, 1, 8, 0⟩) (some ⟨.file, 1, 8, 2⟩) = none) ∧
      ¬ s.Recorded := by
  obtain ⟨s, hs, hobs⟩ : ∃ s, Reaches step (fun _ _ => True) (init (some ⟨[1], 7⟩) none none) s ∧
      (s.phase = .done ∧ s.here = some ⟨[2], 8⟩ ∧ s.there = some ⟨[1], 8⟩ ∧
        s.entry = some ⟨.file, 2, 1, 8⟩ ∧
        planPath [] s.entry (some ⟨.file, 1, 8, 0⟩) (some ⟨.file, 1, 8, 2⟩) = none) :=
    exists_of_run [.read, .edit (some ⟨[2], 8⟩), .time, .create 3, .write 4, .setMtime 2, .record]
      (allowed_true _ _ _) (fun _ h => h) (by decide +kernel)
  refine ⟨s, hs, hobs, fun h => ?_⟩
  obtain ⟨hp, hhere, hthere, hentry, hplan⟩ := hobs
  obtain ⟨t, -, v, ht, he, hpush⟩ := h hp
  cases hthere.symm.trans ht
  cases hentry.symm.trans he
  cases hplan.symm.trans (hpush ⟨[2], 8⟩ hhere (by decide) [])

end PushRun

end AlloyFs.Sync
