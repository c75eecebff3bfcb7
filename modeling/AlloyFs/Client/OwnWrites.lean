import AlloyFs.Client.ReadFlow

/-!
# A mount reads what it has written

When a write or a truncation has returned, a read that starts then should get it, through any
handle on the file.  A write marks its path: it takes the flag of the blob from every handle that
is open under the path, drops the blocks of the handle, and drops the blob.  That is enough if
every handle on the file is found under the path, and if no read on the handle has older blocks in
hand, which it would put back.
-/

namespace AlloyFs

open Function

/-- The handle whose retained blocks a step of `mark_path_written` drops. -/
def MarkStep.dropped : MarkStep → Option ℕ
  | .recent fh => some fh
  | _ => none

namespace ReadPath

/-! ## The condition -/

/-- Apart from its retained blocks, the handle and its reads have nothing older than `v`. -/
def CaughtUp (s : ReadPath) (fh f v : ℕ) : Prop :=
  (∀ h ∈ s.handles.lookup fh, ∀ e ∈ h.ra.window.entries, ∀ data ∈ e.2.bytes,
    s.files.Shows f v e.1 data) ∧
  ∀ e ∈ s.reads.entries, e.2.fh = fh → ∀ p ∈ e.2.pieces, s.files.Shows f v p.1 p.2
deriving Decidable

/-- Nothing comes between a write and the places that reads are served from. -/
def Undisturbed (s : ReadPath) : PathStep → Prop
  -- the handle of the write is still there, and all handles on the file are open under the path
  -- that is marked
  | .written w _ =>
    ∀ call ∈ s.writes.lookup w, (∀ fh ∈ call.through, (s.handles.lookup fh).isSome) ∧
      ∀ e ∈ s.handles.entries, e.2.file = call.file → e.2.path = call.path
  -- no read on the handle has an older block in hand, or has put one in the window
  | .mark w =>
    ∀ call ∈ s.writes.lookup w, ∀ fh ∈ (call.todo.bind List.head?).bind MarkStep.dropped,
      ∀ h ∈ s.handles.lookup fh, h.file = call.file → s.CaughtUp fh call.file call.version
  -- a blob that is found fresh is the file's content
  | .install o _ =>
    ∀ call ∈ s.opens.lookup o, (s.cache.freshFor call.path call.attr).1 = true →
      ∀ data ∈ s.cache.blobs call.path, data = s.files.current call.file
  -- what is fetched for a handle that reads the blob is its file's content
  | .place k =>
    ∀ e ∈ s.fetches.lookup k, ∀ h ∈ s.handles.entries, h.2.cacheOk = true →
      h.2.path = e.path → e.data = s.files.current h.2.file
  -- no blob is moved to the path of a handle that reads the blob
  | l => ∀ h ∈ s.handles.entries, h.2.cacheOk = true → s.renamesOnto h.2.path l = false

instance (s : ReadPath) (l : PathStep) : Decidable (s.Undisturbed l) := by
  unfold Undisturbed
  split <;> infer_instance

/-! ## What the handles hold -/

variable {cfg : CacheConfig} {s s' : ReadPath} {l : PathStep} {lo blo : ℕ → ℕ} {fh : ℕ}

/-- For each handle, what it holds is not older than the content `lo`, and the blob it may read not
older than the content `blo`; every read is put together from contents that are not older than what
had been written when it started. -/
structure Sound (s : ReadPath) (lo blo : ℕ → ℕ) : Prop where
  wf : s.Wf
  held : ∀ fh h, s.handles.lookup fh = some h → s.HeldAt fh h.file (lo fh)
  bound : ∀ fh h, s.handles.lookup fh = some h →
    lo fh ≤ s.files.latest h.file ∧ blo fh ≤ s.files.latest h.file
  blob : ∀ fh h, s.handles.lookup fh = some h → h.cacheOk = true →
    ∀ data, s.cache.blobs h.path = some data →
      ∃ n, n ≤ s.files.latest h.file ∧ blo fh ≤ n ∧ data = s.files.content h.file n
  since : ∀ c call, s.reads.lookup c = some call → call.isDone = false → call.since ≤ lo call.fh
  out : ∀ c call, s.reads.lookup c = some call → ∀ out, call.phase.out = some out →
    s.files.Answers call.file call.since call.offset call.size out

/-- What a write that has returned has left is not newer than what the handles may serve. -/
def Floor (s : ReadPath) (lo blo : ℕ → ℕ) : Prop :=
  ∀ fh h, s.handles.lookup fh = some h → s.returned h.file ≤ lo fh ∧ s.returned h.file ≤ blo fh

/-- What a handle that is installed is allowed to start with. -/
def Opens (s : ReadPath) (lo blo : ℕ → ℕ) (l : PathStep) : Prop :=
  ∀ o fh call, l = .install o fh → s.opens.lookup o = some call →
    lo fh ≤ s.files.latest call.file ∧ blo fh ≤ s.files.latest call.file

theorem not_renamesOnto (hok : s.Undisturbed l) {h : ReadHandle}
    (hh : s.handles.lookup fh = some h) (hc : h.cacheOk = true) :
    s.renamesOnto h.path l = false := by
  have hmem : (⟨fh, h⟩ : Sigma fun _ : ℕ => ReadHandle) ∈ s.handles.entries :=
    AList.mem_lookup_iff.mp hh
  cases l with
  | renamed r moves => exact hok _ hmem hc
  | event kind path moves => exact hok _ hmem hc
  | _ => rfl

theorem Sound.blob_step (hi : s.Sound lo blo) (hok : s.Undisturbed l) (hopen : s.Opens lo blo l)
    (hs : s.step cfg l = some s') {h' : ReadHandle}
    (hh' : s'.handles.lookup fh = some h') (hc' : h'.cacheOk = true) {data : Bytes}
    (hb : s'.cache.blobs h'.path = some data) :
    ∃ n, n ≤ s'.files.latest h'.file ∧ blo fh ≤ n ∧ data = s'.files.content h'.file n := by
  have hext := extends_of_step hs
  -- it is enough to find the content before the step
  suffices hbefore : ∃ n, n ≤ s.files.latest h'.file ∧ blo fh ≤ n ∧
      data = s.files.content h'.file n by
    obtain ⟨n, hn, hlo, rfl⟩ := hbefore
    exact ⟨n, hn.trans (hext.latest _), hlo, (hext.content _ n hn).symm⟩
  rcases handles_of_step hs hh' with ⟨h, hh, hgrow⟩ | ⟨o, call, rfl, ho, hnone, rfl⟩
  · have hc := hgrow.cacheOk hc'
    rw [hgrow.path] at hb
    rw [hgrow.file]
    rcases blobs_of_step hs hb with hb | hren | ⟨k, e, rfl, he, hpath, rfl, _⟩
    · exact hi.blob fh h hh hc data hb
    · rw [not_renamesOnto hok hh hc] at hren
      cases hren
    · exact ⟨_, le_rfl, (hi.bound fh h hh).2,
        hok e he _ (AList.mem_lookup_iff.mp hh) hc hpath.symm⟩
  · rcases blobs_of_step hs hb with hb | hren | ⟨k, e, heq, _⟩
    · exact ⟨_, le_rfl, (hopen o fh call rfl ho).2, hok call ho hc' data hb⟩
    · cases hren
    · cases heq

theorem Sound.out_step (hi : s.Sound lo blo) (hfloor : s.Floor lo blo)
    (hs : s.step cfg l = some s') {c : ℕ} {call' : ReadCall}
    (hc' : s'.reads.lookup c = some call') {out : Bytes} (hout : call'.phase.out = some out) :
    s'.files.Answers call'.file call'.since call'.offset call'.size out := by
  apply Files.Answers.mono _ (extends_of_step hs)
  rcases reads_of_step hs hc' with ⟨call, hc, hgo⟩ | ⟨fh, offset, size, h, _, _, hh, hbegin⟩
  · rw [hgo.continues.file, hgo.continues.since, hgo.continues.offset, hgo.continues.size]
    rcases hgo.out out hout with hout | ⟨hun, ready, hready, hout⟩
    · exact hi.out c call hc out hout
    · -- the blocks it is put together from are the handle's or the read's own
      obtain ⟨h, hh, hfile⟩ := hi.wf c call hc hun
      apply Files.Answers.of_le _ (hi.since c call hc hun)
      apply Files.answers_of_pick (hfile ▸ (hi.bound call.fh h hh).1) _ hout
      intro b data hb
      exact hfile ▸ hi.held call.fh h hh b data (hready b data hb)
  · rw [hbegin.file, hbegin.since, hbegin.offset, hbegin.size]
    obtain ⟨hok, hread⟩ := hbegin.out out hout
    obtain ⟨data, hdata, rfl⟩ := Option.map_eq_some_iff.mp hread
    obtain ⟨n, hn, hlo, rfl⟩ := hi.blob fh h hh hok data hdata
    exact Files.answers_of_content hn (le_trans (hfloor fh h hh).2 hlo)

/-- **The steps keep what is held**, for the same bounds. -/
theorem Sound.step (hi : s.Sound lo blo) (hfloor : s.Floor lo blo) (hok : s.Undisturbed l)
    (hopen : s.Opens lo blo l) (hs : s.step cfg l = some s') : s'.Sound lo blo := by
  have hext := extends_of_step hs
  refine ⟨hi.wf.step hs, ?_, ?_, fun fh h' hh' hc' data => hi.blob_step hok hopen hs hh' hc', ?_,
    fun c call' hc' out => hi.out_step hfloor hs hc'⟩
  · intro fh h' hh'
    rcases handles_of_step hs hh' with ⟨h, hh, hgrow⟩ | ⟨o, call, rfl, ho, hnone, rfl⟩
    · rw [hgrow.file]
      exact (hi.held fh h hh).step hi.wf hh rfl (hi.bound fh h hh).1 hs
    · exact heldAt_of_install hi.wf hnone hs
  · intro fh h' hh'
    rcases handles_of_step hs hh' with ⟨h, hh, hgrow⟩ | ⟨o, call, rfl, ho, hnone, rfl⟩
    · rw [hgrow.file]
      have hle := hext.latest h.file
      exact ⟨le_trans (hi.bound fh h hh).1 hle, le_trans (hi.bound fh h hh).2 hle⟩
    · have hle := hext.latest call.file
      have hb := hopen o fh call rfl ho
      exact ⟨hb.1.trans hle, hb.2.trans hle⟩
  · intro c call' hc' hun
    rcases reads_of_step hs hc' with ⟨call, hc, hgo⟩ | ⟨fh, offset, size, h, _, _, hh, hbegin⟩
    · rw [hgo.continues.since, hgo.continues.fh]
      exact hi.since c call hc (hgo.undone hun)
    · rw [hbegin.since, hbegin.fh]
      exact (hfloor fh h hh).1

theorem Sound.raise {lo' blo' : ℕ → ℕ} (hi : s.Sound lo blo) (hle : ∀ fh h,
      s.handles.lookup fh = some h → lo fh ≤ lo' fh)
    (hheld : ∀ fh h, s.handles.lookup fh = some h →
      lo' fh = lo fh ∨ lo' fh ≤ s.files.latest h.file ∧ s.HeldAt fh h.file (lo' fh))
    (hblob : ∀ fh h, s.handles.lookup fh = some h →
      blo' fh = blo fh ∨ blo' fh ≤ s.files.latest h.file ∧ h.cacheOk = false) :
    s.Sound lo' blo' := by
  refine ⟨hi.wf, ?_, ?_, ?_, ?_, hi.out⟩
  · intro fh h hh
    rcases hheld fh h hh with heq | ⟨_, hnew⟩
    · rw [heq]
      exact hi.held fh h hh
    · exact hnew
  · intro fh h hh
    have hb := hi.bound fh h hh
    constructor
    · rcases hheld fh h hh with heq | ⟨hnew, _⟩
      · exact heq ▸ hb.1
      · exact hnew
    · rcases hblob fh h hh with heq | ⟨hnew, _⟩
      · exact heq ▸ hb.2
      · exact hnew
  · intro fh h hh hc data hdata
    rcases hblob fh h hh with heq | ⟨_, hno⟩
    · rw [heq]
      exact hi.blob fh h hh hc data hdata
    · rw [hno] at hc
      cases hc
  · intro c call hc hun
    obtain ⟨h, hh, _⟩ := hi.wf c call hc hun
    exact (hi.since c call hc hun).trans (hle call.fh h hh)

/-! ## What the writes have marked -/

/-- All that a write has to mark. -/
def toMark (order : List ℕ) : List MarkStep :=
  order.flatMap (fun fh => [.flag fh, .window fh, .recent fh]) ++ [.blob]

/-- **What a step does to a write.** -/
theorem writes_of_step (hs : s.step cfg l = some s') {w : ℕ} {call' : MarkedWrite}
    (hw : s'.writes.lookup w = some call') :
    s.writes.lookup w = some call' ∨
      (call'.todo = none ∧ call'.version ≤ s'.files.latest call'.file) ∨
      (∃ order call todo, l = .written w order ∧ s.writes.lookup w = some call ∧
        call' = { call with todo := some todo } ∧
        (todo = toMark order ∧ order.Perm (s.openAt call.path) ∨
          ∃ fh ∈ call.through, s.handles.lookup fh = none)) ∨
      ∃ call m rest, l = .mark w ∧ s.writes.lookup w = some call ∧ call.todo = some (m :: rest) ∧
        call' = { call with todo := some rest } := by
  cases steps_of_step hs with
  | write _ | chunk _ | truncate _ =>
    rcases lookup_of_insert hw with ⟨rfl, rfl⟩ | ⟨_, hold⟩
    · exact .inr (.inl ⟨rfl, le_rfl⟩)
    · exact .inl hold
  | written hcall hperm =>
    rcases lookup_of_insert hw with ⟨rfl, rfl⟩ | ⟨_, hold⟩
    · exact .inr (.inr (.inl ⟨_, _, _, rfl, hcall, rfl, .inl ⟨rfl, hperm⟩⟩))
    · exact .inl hold
  | unmarked hcall hnone =>
    rcases lookup_of_insert hw with ⟨rfl, rfl⟩ | ⟨_, hold⟩
    · exact .inr (.inr (.inl ⟨_, _, _, rfl, hcall, rfl, .inr ⟨_, rfl, hnone⟩⟩))
    · exact .inl hold
  | flag hcall | window hcall | recent hcall | invalidate hcall =>
    rcases lookup_of_insert hw with ⟨rfl, rfl⟩ | ⟨_, hold⟩
    · exact .inr (.inr (.inr ⟨_, _, _, rfl, hcall, rfl, rfl⟩))
    · exact .inl hold
  | returns _ | fails => exact .inl (lookup_of_erase hw).2
  | _ => exact .inl hw

theorem returned_of_step (hs : s.step cfg l = some s') (f : ℕ) :
    s'.returned f = s.returned f ∨
      ∃ w call, l = .returns w ∧ s.writes.lookup w = some call ∧ call.file = f ∧
        call.todo = some [] ∧ s'.returned f = max (s.returned f) call.version := by
  cases steps_of_step hs with
  | @returns w f' v o path hcall =>
    by_cases hf : f = f'
    · subst hf
      exact .inr ⟨w, _, rfl, hcall, rfl, rfl, update_self ..⟩
    · exact .inl (update_of_ne hf ..)
  | _ => exact .inl rfl

/-- The invariant: what the handles hold is as new as the bounds say, and these are as new as what
has been written, or the write has still to mark the handle. -/
structure Inv (s : ReadPath) (lo blo : ℕ → ℕ) : Prop where
  sound : s.Sound lo blo
  floor : s.Floor lo blo
  latest : ∀ f, s.returned f ≤ s.files.latest f
  version : ∀ w call, s.writes.lookup w = some call → call.version ≤ s.files.latest call.file
  marking : ∀ w call rest, s.writes.lookup w = some call → call.todo = some rest →
    ∀ fh h, s.handles.lookup fh = some h → h.file = call.file →
      (.recent fh ∉ rest → call.version ≤ lo fh) ∧ (.flag fh ∉ rest → call.version ≤ blo fh)

theorem mem_toMark {order : List ℕ} (h : fh ∈ order) :
    .recent fh ∈ toMark order ∧ .flag fh ∈ toMark order := by
  constructor
  · exact List.mem_append_left _ (List.mem_flatMap.mpr ⟨fh, h, by simp⟩)
  · exact List.mem_append_left _ (List.mem_flatMap.mpr ⟨fh, h, by simp⟩)

theorem mem_openAt {path : RelPath} {h : ReadHandle} (hh : s.handles.lookup fh = some h)
    (hp : h.path = path) : fh ∈ s.openAt path := by
  apply List.mem_map.mpr
  exact ⟨⟨fh, h⟩, List.mem_filter.mpr ⟨AList.mem_lookup_iff.mp hh, by simp [hp]⟩, rfl⟩

/-- The invariant after a step, for bounds that may be higher: they are at least as high as they
were, and as high as what the step has marked and opened asks for. -/
theorem Inv.of_sound {lo' blo' : ℕ → ℕ} (hi : s.Inv lo blo) (hok : s.Undisturbed l)
    (hs : s.step cfg l = some s') (hsound : s'.Sound lo' blo')
    (hle : ∀ fh h, s.handles.lookup fh = some h → lo fh ≤ lo' fh ∧ blo fh ≤ blo' fh)
    (hnew : ∀ o fh call, l = .install o fh → s.opens.lookup o = some call →
      s.files.latest call.file ≤ lo' fh ∧ s.files.latest call.file ≤ blo' fh)
    (hmark : ∀ w call m rest, l = .mark w → s.writes.lookup w = some call →
      call.todo = some (m :: rest) → ∀ fh h, s.handles.lookup fh = some h → h.file = call.file →
        (m = .recent fh → call.version ≤ lo' fh) ∧ (m = .flag fh → call.version ≤ blo' fh)) :
    s'.Inv lo' blo' := by
  have hext := extends_of_step hs
  refine ⟨hsound, ?_, ?_, ?_, ?_⟩
  · intro fh h' hh'
    rcases handles_of_step hs hh' with ⟨h, hh, hgrow⟩ | ⟨o, call, rfl, ho, hnone, rfl⟩
    · rw [hgrow.file]
      have hf := hi.floor fh h hh
      have hl := hle fh h hh
      rcases returned_of_step hs h.file with heq | ⟨w, call, _, hw, hfile, hrest, heq⟩
      · omega
      · have hm := hi.marking w call [] hw hrest fh h hh hfile.symm
        have hrecent := hm.1 List.not_mem_nil
        have hflag := hm.2 List.not_mem_nil
        omega
    · have hn := hnew o fh call rfl ho
      have hl := hi.latest call.file
      rcases returned_of_step hs call.file with heq | ⟨w, _, hreturns, _⟩
      · simp only
        omega
      · cases hreturns
  · intro f
    have hl := hi.latest f
    have he := hext.latest f
    rcases returned_of_step hs f with heq | ⟨w, call, _, hw, rfl, _, heq⟩
    · omega
    · have hv := hi.version w call hw
      omega
  · intro w call' hw'
    rcases writes_of_step hs hw' with hw | ⟨_, hle⟩ | ⟨_, call, _, _, hw, rfl, _⟩ |
      ⟨call, _, _, _, hw, _, rfl⟩
    · exact (hi.version w _ hw).trans (hext.latest _)
    · exact hle
    · exact (hi.version w call hw).trans (hext.latest _)
    · exact (hi.version w call hw).trans (hext.latest _)
  · intro w call' rest hw' hrest fh h' hh' hfile
    rcases handles_of_step hs hh' with ⟨h, hh, hgrow⟩ | ⟨o, call, rfl, ho, hnone, rfl⟩
    · rw [hgrow.file] at hfile
      have hl := hle fh h hh
      rcases writes_of_step hs hw' with hw | ⟨hnone, _⟩ |
        ⟨order, call, _, rfl, hw, rfl, ⟨rfl, hperm⟩ | ⟨fh', hthrough, hgone⟩⟩ |
        ⟨call, m, rest', rfl, hw, htodo, rfl⟩
      · have hm := hi.marking w call' rest hw hrest fh h hh hfile
        exact ⟨fun hno => (hm.1 hno).trans hl.1, fun hno => (hm.2 hno).trans hl.2⟩
      · rw [hnone] at hrest
        cases hrest
      · -- the handle is open under the path, so it is going to be marked
        cases hrest
        have hpath := (hok _ hw).2 _ (AList.mem_lookup_iff.mp hh) hfile
        have hmem := mem_toMark (hperm.mem_iff.mpr (mem_openAt hh hpath))
        exact ⟨fun hno => absurd hmem.1 hno, fun hno => absurd hmem.2 hno⟩
      · have hopen := (hok _ hw).1 fh' hthrough
        rw [hgone] at hopen
        cases hopen
      · cases hrest
        have hm := hi.marking w call _ hw htodo fh h hh hfile
        have hthis := hmark w call m rest rfl hw htodo fh h hh hfile
        constructor
        · intro hno
          by_cases hmrec : m = .recent fh
          · exact hthis.1 hmrec
          · refine (hm.1 fun hmem => ?_).trans hl.1
            rcases List.mem_cons.mp hmem with heq | hmem
            · exact hmrec heq.symm
            · exact hno hmem
        · intro hno
          by_cases hmflag : m = .flag fh
          · exact hthis.2 hmflag
          · refine (hm.2 fun hmem => ?_).trans hl.2
            rcases List.mem_cons.mp hmem with heq | hmem
            · exact hmflag heq.symm
            · exact hno hmem
    · -- a handle that has just been opened starts with the content of now
      have hn := hnew o fh call rfl ho
      have hwrite : s.writes.lookup w = some call' := by
        rcases writes_of_step hs hw' with hw | ⟨hnone, _⟩ | ⟨_, _, _, heq, _⟩ | ⟨_, _, _, heq, _⟩
        · exact hw
        · rw [hnone] at hrest
          cases hrest
        · cases heq
        · cases heq
      have hv := hi.version w call' hwrite
      rw [← hfile] at hv
      exact ⟨fun _ => hv.trans hn.1, fun _ => hv.trans hn.2⟩

theorem HeldAt.max {f v v' : ℕ} (h : s.HeldAt fh f v) (h' : s.HeldAt fh f v') :
    s.HeldAt fh f (max v v') := by
  rcases Nat.le_total v v' with hle | hle
  · rwa [Nat.max_eq_right hle]
  · rwa [Nat.max_eq_left hle]

theorem heldAt_of_recent {w f v : ℕ} {o : Option ℕ} {path : RelPath} {rest : List MarkStep}
    (hup : s.CaughtUp fh f v)
    (hw : s.writes.lookup w = some ⟨o, path, f, v, some (.recent fh :: rest)⟩)
    (hs : s.step cfg (.mark w) = some s') : s'.HeldAt fh f v := by
  simp only [step, hw] at hs
  cases hs
  intro b data hb
  rcases hb with ⟨h', hh', hb⟩ | ⟨c, call, hc, hfh, hb⟩
  · rcases lookup_of_onHandle hh' with ⟨h, hh, _, rfl⟩ | ⟨hne, _⟩
    · rcases hb with hb | hb
      · exact hup.1 h hh ⟨b, _⟩ (AList.mem_lookup_iff.mp hb) data rfl
      · cases hb
    · exact absurd rfl hne
  · exact hup.2 ⟨c, call⟩ (AList.mem_lookup_iff.mp hc) hfh (b, data) hb

theorem Inv.step_mark {w : ℕ} (hi : s.Inv lo blo) (hok : s.Undisturbed (.mark w))
    (hs : s.step cfg (.mark w) = some s') : ∃ lo' blo', s'.Inv lo' blo' := by
  classical
  have hsound := hi.sound.step hi.floor hok (fun _ _ _ heq => by cases heq) hs
  have hext := extends_of_step hs
  obtain ⟨o, path, f, v, m, rest, hw⟩ : ∃ o path f v m rest,
      s.writes.lookup w = some ⟨o, path, f, v, some (m :: rest)⟩ := by
    simp only [step] at hs
    split at hs
    · next o path f v m rest hw => exact ⟨o, path, f, v, m, rest, hw⟩
    · cases hs
  have hv : v ≤ s'.files.latest f := (hi.version w _ hw).trans (hext.latest f)
  -- the bounds of a handle on the file are raised when it is marked
  let raised (mark : ℕ → MarkStep) (b : ℕ → ℕ) (fh : ℕ) : ℕ :=
    if m = mark fh ∧ ∃ h, s.handles.lookup fh = some h ∧ h.file = f then max (b fh) v else b fh
  have hge (mark b fh) : b fh ≤ raised mark b fh := by
    simp only [raised]
    split
    · exact Nat.le_max_left _ _
    · exact le_rfl
  have hcases (mark b) {fh h'} (hh' : s'.handles.lookup fh = some h') : raised mark b fh = b fh ∨
      raised mark b fh = max (b fh) v ∧ m = mark fh ∧ h'.file = f ∧
        ∃ h, s.handles.lookup fh = some h ∧ h.file = f := by
    simp only [raised]
    split
    · next hm =>
      obtain ⟨hm, h, hh, hfile⟩ := hm
      refine .inr ⟨rfl, hm, ?_, h, hh, hfile⟩
      rcases handles_of_step hs hh' with ⟨h₀, hh₀, hgrow⟩ | ⟨_, _, heq, _⟩
      · rw [hgrow.file, ← hfile, Option.some.inj (hh₀.symm.trans hh)]
      · cases heq
    · exact .inl rfl
  refine ⟨raised .recent lo, raised .flag blo, hi.of_sound hok hs
    (hsound.raise (fun _ _ _ => hge _ _ _) (fun fh h' hh' => ?_) fun fh h' hh' => ?_)
    (fun _ _ _ => ⟨hge _ _ _, hge _ _ _⟩) (fun _ _ _ heq => by cases heq) ?_⟩
  · rcases hcases .recent lo hh' with heq | ⟨heq, rfl, hfile', h, hh, hfile⟩
    · exact .inl heq
    · have hold := hsound.held fh h' hh'
      have hbound := (hsound.bound fh h' hh').1
      rw [hfile'] at hold hbound
      rw [heq, hfile']
      exact .inr ⟨Nat.max_le.mpr ⟨hbound, hv⟩,
        hold.max (heldAt_of_recent (hok _ hw fh rfl h hh hfile) hw hs)⟩
  · rcases hcases .flag blo hh' with heq | ⟨heq, rfl, hfile', -⟩
    · exact .inl heq
    · have hbound := (hsound.bound fh h' hh').2
      rw [hfile'] at hbound
      rw [heq, hfile']
      refine .inr ⟨Nat.max_le.mpr ⟨hbound, hv⟩, ?_⟩
      simp only [step, hw] at hs
      cases hs
      rcases lookup_of_onHandle hh' with ⟨h₀, _, _, rfl⟩ | ⟨hne, _⟩
      · rfl
      · exact absurd rfl hne
  · rintro w' call' m' rest' ⟨⟩ hw' htodo fh h hh hfile
    cases hw.symm.trans hw'
    cases htodo
    have hon : ∃ h, s.handles.lookup fh = some h ∧ h.file = f := ⟨h, hh, hfile⟩
    constructor <;> intro hm <;> simp only [raised, if_pos (And.intro hm hon)] <;>
      exact Nat.le_max_right _ _

theorem Inv.step_install {o : ℕ} (hi : s.Inv lo blo) (hok : s.Undisturbed (.install o fh))
    (hs : s.step cfg (.install o fh) = some s') : ∃ lo' blo', s'.Inv lo' blo' := by
  obtain ⟨call, ho, hnone⟩ : ∃ call, s.opens.lookup o = some call ∧ s.handles.lookup fh = none := by
    simp only [step] at hs
    split at hs
    · next call ho hnone => exact ⟨call, ho, hnone⟩
    · cases hs
  have hne : ∀ fh' h, s.handles.lookup fh' = some h → fh' ≠ fh := by
    intro fh' h hh heq
    rw [heq, hnone] at hh
    cases hh
  -- the number is not in use, so its bounds are free
  have hsame : ∀ fh' h, s.handles.lookup fh' = some h →
      update lo fh (s.files.latest call.file) fh' = lo fh' ∧
      update blo fh (s.files.latest call.file) fh' = blo fh' :=
    fun fh' h hh => ⟨update_of_ne (hne fh' h hh) .., update_of_ne (hne fh' h hh) ..⟩
  have hsound : s.Sound (update lo fh (s.files.latest call.file))
      (update blo fh (s.files.latest call.file)) :=
    hi.sound.raise (fun fh' h hh => (hsame fh' h hh).1 ▸ le_rfl)
      (fun fh' h hh => .inl (hsame fh' h hh).1) fun fh' h hh => .inl (hsame fh' h hh).2
  have hfloor : s.Floor (update lo fh (s.files.latest call.file))
      (update blo fh (s.files.latest call.file)) := by
    intro fh' h hh
    rw [(hsame fh' h hh).1, (hsame fh' h hh).2]
    exact hi.floor fh' h hh
  have hnew : ∀ o' fh' call', PathStep.install o fh = .install o' fh' →
      s.opens.lookup o' = some call' →
      update lo fh (s.files.latest call.file) fh' = s.files.latest call'.file ∧
      update blo fh (s.files.latest call.file) fh' = s.files.latest call'.file := by
    intro o' fh' call' heq ho'
    cases heq
    cases ho.symm.trans ho'
    exact ⟨update_self .., update_self ..⟩
  refine ⟨_, _, hi.of_sound hok hs (hsound.step hfloor hok ?_ hs) ?_ ?_
    fun _ _ _ _ heq => by cases heq⟩
  · intro o' fh' call' heq ho'
    have hn := hnew o' fh' call' heq ho'
    exact ⟨hn.1 ▸ le_rfl, hn.2 ▸ le_rfl⟩
  · intro fh' h hh
    have hsm := hsame fh' h hh
    exact ⟨hsm.1 ▸ le_rfl, hsm.2 ▸ le_rfl⟩
  · intro o' fh' call' heq ho'
    have hn := hnew o' fh' call' heq ho'
    exact ⟨hn.1 ▸ le_rfl, hn.2 ▸ le_rfl⟩

theorem Inv.step_other (hi : s.Inv lo blo) (hok : s.Undisturbed l) (hs : s.step cfg l = some s')
    (hinstall : ∀ o fh, l ≠ .install o fh) (hmark : ∀ w, l ≠ .mark w) : s'.Inv lo blo :=
  hi.of_sound hok hs
    (hi.sound.step hi.floor hok (fun o fh _ heq => absurd heq (hinstall o fh)) hs)
    (fun _ _ _ => ⟨le_rfl, le_rfl⟩) (fun o fh _ heq => absurd heq (hinstall o fh))
    fun w _ _ _ heq => absurd heq (hmark w)

theorem Inv.step (hi : s.Inv lo blo) (hok : s.Undisturbed l) (hs : s.step cfg l = some s') :
    ∃ lo' blo', s'.Inv lo' blo' := by
  cases l with
  | mark w => exact hi.step_mark hok hs
  | install o fh => exact hi.step_install hok hs
  | _ => exact ⟨lo, blo, hi.step_other hok hs nofun nofun⟩

theorem inv_start (files : Files) (cache : AutoCache) :
    (start files cache).Inv (fun _ => 0) fun _ => 0 := by
  refine ⟨⟨nofun, nofun, nofun, nofun, nofun, nofun⟩, nofun, fun _ => Nat.zero_le _, nofun, nofun⟩

/-- **A mount reads its own writes**, if no step comes in between: whatever a read returns is put
together from contents of the file that have every write that had returned when the read started,
whichever handle it reads through. -/
theorem reads_own_writes (cfg : CacheConfig) (files : Files) (cache : AutoCache) {s : ReadPath}
    (hrun : Reaches (fun s => s.step cfg) (fun s l => s.Undisturbed l) (start files cache) s)
    {c : ℕ} {call : ReadCall} (hc : s.reads.lookup c = some call) {out : Bytes}
    (hout : call.phase = .done (.ok out)) :
    s.files.Answers call.file call.since call.offset call.size out := by
  have hinv : ∃ lo blo, s.Inv lo blo :=
    hrun.invariant (fun s => ∃ lo blo, s.Inv lo blo) ⟨_, _, inv_start files cache⟩
      fun _ _ _ ⟨_, _, hi⟩ hok hs => hi.step hok hs
  obtain ⟨lo, blo, hi⟩ := hinv
  exact hi.sound.out c call hc out (by rw [hout]; rfl)

/-! ## A file that is read, written and read again -/

/-- Another byte is written in the place of the first, and the path is marked. -/
def rewrite : List PathStep :=
  [.write 0 1, .chunk 0 0 [66], .written 0 [1], .mark 0, .mark 0, .mark 0, .mark 0, .returns 0]

/-- **A read under way puts back what the write has dropped.**  The first read has its block when
the write begins, and retains it when the write has returned.  The second read starts after that,
finds the block, and does not get the write. -/
theorem old_block_retained :
    ∃ s call, Reaches (fun s => s.step noCache) (fun _ _ => True) (start oneFile .empty) s ∧
      s.reads.lookup 1 = some call ∧ call.since = 1 ∧ call.phase = .done (.ok [65]) ∧
      ¬ s.files.Answers call.file call.since call.offset call.size [65] := by
  have hrun : (exec (fun s => s.step noCache) (start oneFile .empty)
      (firstRead ++ rewrite ++ firstEnd ++ secondRead ++ secondEnd)).map (seen 1) =
        some (some ⟨true, some [65], 0, 1, 0, 1, 1, [66]⟩) := by
    decide +kernel
  obtain ⟨s, hreach, hobs⟩ := exists_reaches_of_exec _ (seen 1) _ (allowed_true _ _ _) hrun
  obtain ⟨call, hc, hphase, hv⟩ := of_seen hobs rfl rfl
  simp only [ReadSeen.mk.injEq, true_and] at hv
  obtain ⟨hfile, hsince, hoffset, hsize, hlatest, hcurrent⟩ := hv
  refine ⟨s, call, hreach, hc, hsince.symm, hphase, fun hans => ?_⟩
  rw [← hsince, hlatest] at hans
  have heq := hans.eq_current
  rw [← hcurrent, ← hoffset, ← hsize] at heq
  exact absurd heq (by decide)

/-- The first read ends before the write begins: the second gets it. -/
theorem reads_own_writes_in_turn :
    ∃ s call, Reaches (fun s => s.step noCache) (fun s l => s.Undisturbed l)
        (start oneFile .empty) s ∧
      s.reads.lookup 1 = some call ∧ call.since = 1 ∧ call.phase = .done (.ok [66]) ∧
      s.files.Answers call.file call.since call.offset call.size [66] := by
  obtain ⟨s, hreach, hobs⟩ : ∃ s, Reaches (fun s => s.step noCache) (fun s l => s.Undisturbed l)
      (start oneFile .empty) s ∧ _ :=
    exists_reaches_of_exec
      (firstRead ++ firstEnd ++ rewrite ++ secondRead ++ .answerCall 1 0 true :: secondEnd) (seen 1)
      (some ⟨true, some [66], 0, 1, 0, 1, 1, [66]⟩) (by decide +kernel) (by decide +kernel)
  obtain ⟨call, hc, hphase, hv⟩ := of_seen hobs rfl rfl
  simp only [ReadSeen.mk.injEq, true_and] at hv
  exact ⟨s, call, hreach, hc, hv.2.1.symm, hphase,
    reads_own_writes noCache oneFile .empty hreach hc hphase⟩

end ReadPath
end AlloyFs
