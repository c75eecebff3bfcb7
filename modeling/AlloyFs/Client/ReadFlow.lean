import AlloyFs.Client.ReadPath

/-!
# Where the bytes of a read come from

Bytes get into a mount by an answer of the server, and go from one place to the other: from the
window into the hands of a read, from there among the retained blocks, from these into the hands
of another read.  So whatever can be said of all bytes a handle and its reads hold stays true when
the reads go on, as long as it is true of what the server has to say.
-/

namespace AlloyFs

open Function ReadCall ReadPhase

/-! ## The contents of a file -/

variable {ready : List (ℕ × Bytes)}

namespace Files

/-- The contents so far are still known. -/
structure Extends (fs fs' : Files) : Prop where
  latest : ∀ f, fs.latest f ≤ fs'.latest f
  content : ∀ f n, n ≤ fs.latest f → fs'.content f n = fs.content f n

theorem Extends.refl (fs : Files) : fs.Extends fs := ⟨fun _ => le_rfl, fun _ _ _ => rfl⟩

theorem extends_change (fs : Files) (f : ℕ) (data : Bytes) : fs.Extends (fs.change f data) := by
  constructor
  · intro g
    by_cases hg : g = f
    · subst hg
      simp [change]
    · simp [change, hg]
  · intro g n hn
    by_cases hg : g = f
    · subst hg
      have hne : n ≠ fs.latest g + 1 := by omega
      simp [change, hne]
    · simp [change, hg]

theorem extends_rename (fs : Files) (src dst : RelPath) : fs.Extends (fs.rename src dst) :=
  ⟨fun _ => le_rfl, fun _ _ _ => rfl⟩

/-- The bytes are a block of a content of the file that is not older than `v`. -/
def Shows (fs : Files) (f v b : ℕ) (data : Bytes) : Prop :=
  ∃ n, n ≤ fs.latest f ∧ v ≤ n ∧ data = block (fs.content f n) b
deriving Decidable

/-- The bytes are put together from blocks that are not older than `v`. -/
def Answers (fs : Files) (f v offset size : ℕ) (out : Bytes) : Prop :=
  ∃ n : ℕ → ℕ, (∀ b, n b ≤ fs.latest f ∧ v ≤ n b) ∧
    answer (fun b => some (block (fs.content f (n b)) b)) offset size = some out

variable {fs fs' : Files} {f v v' b offset size : ℕ} {data out : Bytes}

theorem Shows.mono (h : fs.Shows f v b data) (he : fs.Extends fs') : fs'.Shows f v b data := by
  obtain ⟨n, hn, hv, rfl⟩ := h
  exact ⟨n, hn.trans (he.latest f), hv, by rw [he.content f n hn]⟩

theorem shows_current (hv : v ≤ fs.latest f) : fs.Shows f v b (block (fs.current f) b) :=
  ⟨fs.latest f, le_rfl, hv, rfl⟩

theorem Answers.mono (h : fs.Answers f v offset size out) (he : fs.Extends fs') :
    fs'.Answers f v offset size out := by
  obtain ⟨n, hn, hout⟩ := h
  refine ⟨n, fun b => ⟨le_trans (hn b).1 (he.latest f), (hn b).2⟩, ?_⟩
  simpa only [he.content f _ (hn _).1] using hout

theorem Answers.of_le (h : fs.Answers f v offset size out) (hle : v' ≤ v) :
    fs.Answers f v' offset size out := by
  obtain ⟨n, hn, hout⟩ := h
  exact ⟨n, fun b => ⟨(hn b).1, hle.trans (hn b).2⟩, hout⟩

theorem answers_of_content {n : ℕ} (hn : n ≤ fs.latest f) (hv : v ≤ n) :
    fs.Answers f v offset size (((fs.content f n).drop offset).take size) :=
  ⟨fun _ => n, fun _ => ⟨hn, hv⟩, answer_of_content _ offset size⟩

theorem answers_of_pick (hv : v ≤ fs.latest f)
    (hready : ∀ b data, (b, data) ∈ ready → fs.Shows f v b data)
    (hout : answer (pick ready) offset size = some out) : fs.Answers f v offset size out := by
  have hex : ∀ b, ∃ n, n ≤ fs.latest f ∧ v ≤ n ∧
      (pick ready b).getD (block (fs.current f) b) = block (fs.content f n) b := by
    intro b
    cases hb : pick ready b with
    | none =>
      refine ⟨fs.latest f, le_rfl, hv, ?_⟩
      rw [Option.getD_none, Files.current]
    | some data => exact hready b data (mem_of_pick hb)
  choose n hle hge heq using hex
  refine ⟨n, fun b => ⟨hle b, hge b⟩, ?_⟩
  obtain ⟨assembled, hgather, rfl⟩ := Option.map_eq_some_iff.mp hout
  have := gather_getD (d := fun b => block (fs.current f) b) hgather
  simp only [heq] at this
  rw [answer, this, Option.map_some]

theorem Answers.eq_current (h : fs.Answers f (fs.latest f) offset size out) :
    out = ((fs.current f).drop offset).take size := by
  obtain ⟨n, hn, hout⟩ := h
  have hcur : ∀ b, n b = fs.latest f := fun b => Nat.le_antisymm (hn b).1 (hn b).2
  simp only [hcur] at hout
  exact Option.some.inj (hout.symm.trans (answer_of_content _ offset size))

end Files

/-! ## The blocks of a read -/

/-- The blocks that belong to where a read is. -/
def ReadPhase.blocks : ReadPhase → List (ℕ × Bytes)
  | .topUp (b :: _) (some f) => (fetched (b, f)).toList
  | .look (b :: _) (some f) _ => (fetched (b, f)).toList
  | .fetch need => need.filterMap fetched
  | .retain todo _ => todo
  | _ => []

/-- What the read is going to return or has returned. -/
def ReadPhase.out : ReadPhase → Option Bytes
  | .retain _ out => some out
  | .done (.ok out) => some out
  | _ => none

variable {data : Bytes}

@[simp] theorem mem_fetched {b b' : ℕ} {f : Fetch} :
    fetched (b', f) = some (b, data) ↔ b' = b ∧ f = .done (some data) := by
  cases f with
  | pending => simp [fetched, Fetch.bytes]
  | done data' => cases data' <;> simp [fetched, Fetch.bytes]

namespace ReadCall

/-- The blocks a read has in hand. -/
def pieces (call : ReadCall) : List (ℕ × Bytes) :=
  match call.phase with
  | .done _ => []
  | phase => call.ready ++ phase.blocks

theorem pieces_of_isDone {call : ReadCall} (h : call.isDone = true) : call.pieces = [] := by
  cases hp : call.phase with
  | done r => simp only [pieces, hp]
  | _ => simp [isDone, hp] at h

theorem pieces_topUp {call : ReadCall} {missing : List ℕ} (h : call.phase = .topUp missing none)
    (hready : call.ready = []) : call.pieces = [] := by
  simp [pieces, h, hready, blocks]

/-- The same read, further on. -/
structure Continues (call call' : ReadCall) : Prop where
  fh : call'.fh = call.fh
  file : call'.file = call.file
  offset : call'.offset = call.offset
  size : call'.size = call.size
  since : call'.since = call.since

theorem Continues.refl (call : ReadCall) : call.Continues call := ⟨rfl, rfl, rfl, rfl, rfl⟩

/-- What one step of a read does to the blocks it has in hand and to those of its handle. -/
structure Advances (call : ReadCall) (h : ReadHandle) (call' : ReadCall) (h' : ReadHandle) :
    Prop where
  continues : call.Continues call'
  path : h'.path = h.path
  file : h'.file = h.file
  cacheOk : h'.cacheOk = h.cacheOk
  undone : call.isDone = false
  pieces : ∀ b data, (b, data) ∈ call'.pieces → (b, data) ∈ call.pieces ∨ h.ra.Holds b data
  holds : ∀ b data, h'.ra.Holds b data → (b, data) ∈ call.pieces ∨ h.ra.Holds b data
  out : ∀ out, call'.phase.out = some out → call.phase.out = some out ∨
    ∃ ready, (∀ e ∈ ready, e ∈ call.pieces) ∧ answer (pick ready) call.offset call.size = some out

variable {call call' : ReadCall} {h h' : ReadHandle}

theorem advances_to {phase : ReadPhase} {ra : ReadAhead} (hundone : call.isDone = false)
    (hpieces : ∀ b data,
      (b, data) ∈ ({ call with phase := phase, ready := ready } : ReadCall).pieces →
      (b, data) ∈ call.pieces ∨ h.ra.Holds b data)
    (hholds : ∀ b data, ra.Holds b data → (b, data) ∈ call.pieces ∨ h.ra.Holds b data)
    (hout : ∀ out, phase.out = some out → call.phase.out = some out ∨
      ∃ ready, (∀ e ∈ ready, e ∈ call.pieces) ∧
        answer (pick ready) call.offset call.size = some out) :
    call.Advances h { call with phase := phase, ready := ready } { h with ra := ra } :=
  ⟨⟨rfl, rfl, rfl, rfl, rfl⟩, rfl, rfl, rfl, hundone, hpieces, hholds, hout⟩

theorem advances_quiet {phase : ReadPhase} (hundone : call.isDone = false) (hout : phase.out = none)
    (hpieces : ∀ b data,
      (b, data) ∈ ({ call with phase := phase, ready := ready } : ReadCall).pieces →
      (b, data) ∈ call.pieces ∨ h.ra.Holds b data) :
    call.Advances h { call with phase := phase, ready := ready } h :=
  advances_to hundone hpieces (fun _ _ hh => .inr hh) (by simp [hout])

theorem advances_spawn (hs : call.advance h .spawn = some (call', h')) :
    call.Advances h call' h' := by
  simp only [advance] at hs
  split at hs
  · next b bs hp =>
    cases hs
    refine advances_quiet (by simp [isDone, hp]) rfl fun b data hmem => ?_
    simp only [pieces, hp] at hmem ⊢
    exact .inl hmem
  · cases hs

theorem advances_put (hs : call.advance h .put = some (call', h')) :
    call.Advances h call' h' := by
  simp only [advance] at hs
  split at hs
  · next b bs f hp =>
    cases hs
    apply advances_to
    · simp [isDone, hp]
    · intro b data hmem
      simp [pieces, hp, blocks] at hmem ⊢
      exact .inl (.inl hmem)
    · intro b' data hmem
      rcases hmem.of_put with hmem | ⟨rfl, rfl⟩
      · exact .inr hmem
      · left
        simp [pieces, hp, blocks]
    · simp [out]
  · cases hs

theorem advances_next (hs : call.advance h .next = some (call', h')) :
    call.Advances h call' h' := by
  simp only [advance] at hs
  split at hs
  · next hp =>
    cases hs
    refine advances_quiet (by simp [isDone, hp]) rfl fun b data hmem => ?_
    simp [pieces, hp, blocks] at hmem ⊢
    exact .inl hmem
  · next b bs need hp =>
    split at hs
    · next data hret =>
      -- a retained block
      cases hs
      refine advances_quiet (by simp [isDone, hp]) rfl fun b' data' hmem => ?_
      simp [pieces, hp, blocks] at hmem ⊢
      rcases hmem with ⟨rfl, rfl⟩ | hmem
      · exact .inr (ReadAhead.holds_of_retained hret)
      · exact .inl hmem
    · split at hs
      · next f ra htake =>
        -- a fetch from the window
        cases hs
        have hra : ra = (h.ra.take b).2 := by rw [htake]
        have hf : h.ra.window.lookup b = some f := by
          have := congrArg Prod.fst htake
          exact this
        apply advances_to
        · simp [isDone, hp]
        · intro b' data' hmem
          simp [pieces, hp, blocks] at hmem ⊢
          rcases hmem with hmem | ⟨rfl, rfl⟩
          · exact .inl hmem
          · exact .inr (.inl hf)
        · intro b' data' hmem
          exact .inr (ReadAhead.Holds.of_take (hra ▸ hmem))
        · simp [out]
      · cases hs
        refine advances_quiet (by simp [isDone, hp]) rfl fun b' data' hmem => ?_
        simp [pieces, hp, blocks] at hmem ⊢
        exact .inl hmem
  · next b bs data need hp =>
    cases hs
    refine advances_quiet (by simp [isDone, hp]) rfl fun b' data' hmem => ?_
    simp [pieces, hp, blocks] at hmem ⊢
    rcases hmem with ⟨rfl, rfl⟩ | hmem
    · exact .inl (.inr ⟨rfl, rfl⟩)
    · exact .inl (.inl hmem)
  · next b bs need hp =>
    cases hs
    refine advances_quiet (by simp [isDone, hp]) rfl fun b' data' hmem => ?_
    simp [pieces, hp, blocks] at hmem ⊢
    exact .inl hmem
  · next need hp =>
    cases hs
    refine advances_quiet (by simp [isDone, hp]) rfl fun b' data' hmem => ?_
    simp [pieces, hp, blocks, List.filterMap_map] at hmem ⊢
    exact .inl hmem
  · cases hs

theorem advances_assemble (hs : call.advance h .assemble = some (call', h')) :
    call.Advances h call' h' := by
  simp only [advance] at hs
  split at hs
  · next need hp =>
    have hpieces : call.pieces = call.ready ++ need.filterMap fetched := by
      simp [pieces, hp, blocks]
    have hundone : call.isDone = false := by simp [isDone, hp]
    split at hs
    · split at hs
      · cases hs
        exact advances_quiet hundone rfl (by simp [pieces])
      · split at hs
        · next out hout =>
          cases hs
          apply advances_to hundone
          · intro b data hmem
            rw [hpieces]
            exact .inl (by simpa [pieces, blocks] using hmem)
          · exact fun _ _ hh => .inr hh
          · intro out' heq
            cases heq
            exact .inr ⟨_, fun e he => hpieces ▸ he, hout⟩
        · cases hs
          exact advances_quiet hundone rfl (by simp [pieces])
    · cases hs
  · cases hs

theorem advances_retain {b : ℕ} (hs : call.advance h (.retain b) = some (call', h')) :
    call.Advances h call' h' := by
  simp only [advance] at hs
  split at hs
  · next todo out hp =>
    split at hs
    · next data hpick =>
      cases hs
      have hmem : (b, data) ∈ call.pieces := by
        simp [pieces, hp, blocks, mem_of_pick hpick]
      apply advances_to
      · simp [isDone, hp]
      · intro b' data' hmem'
        simp [pieces, hp, blocks] at hmem' ⊢
        rcases hmem' with hmem' | ⟨hmem', _⟩
        · exact .inl (.inl hmem')
        · exact .inl (.inr hmem')
      · intro b' data' hmem'
        rcases hmem'.of_retain with hmem' | ⟨rfl, rfl⟩
        · exact .inr hmem'
        · exact .inl hmem
      · intro out' heq
        rw [hp]
        exact .inl heq
    · cases hs
  · cases hs

theorem advances_finish (hs : call.advance h .finish = some (call', h')) :
    call.Advances h call' h' := by
  simp only [advance] at hs
  split at hs
  · next out hp =>
    cases hs
    apply advances_to
    · simp [isDone, hp]
    · simp [pieces]
    · exact fun _ _ hh => .inr hh
    · intro out' heq
      rw [hp]
      exact .inl heq
  · cases hs

theorem advances_of_advance {l : ReadStep} (hs : call.advance h l = some (call', h')) :
    call.Advances h call' h' := by
  cases l with
  | spawn => exact advances_spawn hs
  | put => exact advances_put hs
  | next => exact advances_next hs
  | assemble => exact advances_assemble hs
  | retain b => exact advances_retain hs
  | finish => exact advances_finish hs

theorem of_answered {b : ℕ} {data : Option Bytes} (hs : call.answered b data = some call') :
    call.Continues call' ∧ call'.phase.out = call.phase.out ∧ call'.isDone = call.isDone ∧
      ∀ b' data', (b', data') ∈ call'.pieces →
        (b', data') ∈ call.pieces ∨ b' = b ∧ data = some data' := by
  unfold answered at hs
  split at hs
  · next b₀ bs hp =>
    obtain ⟨rfl, rfl⟩ := of_guard hs
    refine ⟨⟨rfl, rfl, rfl, rfl, rfl⟩, by simp [hp, out], by simp [isDone, hp], ?_⟩
    intro b' data' hmem
    simp [pieces, hp, blocks] at hmem ⊢
    rcases hmem with hmem | ⟨rfl, rfl⟩
    · exact .inl hmem
    · exact .inr ⟨rfl, rfl⟩
  · next b₀ bs need hp =>
    obtain ⟨rfl, rfl⟩ := of_guard hs
    refine ⟨⟨rfl, rfl, rfl, rfl, rfl⟩, by simp [hp, out], by simp [isDone, hp], ?_⟩
    intro b' data' hmem
    simp [pieces, hp, blocks] at hmem ⊢
    rcases hmem with hmem | ⟨rfl, rfl⟩
    · exact .inl hmem
    · exact .inr ⟨rfl, rfl⟩
  · next need hp =>
    cases hs
    refine ⟨⟨rfl, rfl, rfl, rfl, rfl⟩, by simp [hp, out], by simp [isDone, hp], ?_⟩
    intro b' data' hmem
    simp only [pieces, hp, blocks, List.mem_append, List.mem_filterMap,
      List.mem_map] at hmem ⊢
    rcases hmem with hmem | ⟨e, ⟨e₀, he₀, rfl⟩, hfe⟩
    · exact .inl (.inl hmem)
    · split at hfe
      · rw [mem_fetched] at hfe
        exact .inr ⟨hfe.1.symm, Fetch.done.inj hfe.2⟩
      · exact .inl (.inr ⟨e₀, he₀, hfe⟩)
  · cases hs

end ReadCall
/-! ## The steps of the mount -/

variable {g : ReadHandle → ReadHandle} {c : ℕ}

namespace ReadPath

variable {cfg : CacheConfig} {s s' : ReadPath} {l : PathStep}
  {fh : ℕ} {h' h : ReadHandle} {call : ReadCall}

theorem lookup_of_onHandle {fh' : ℕ} (hh : (s.onHandle fh g).lookup fh' = some h') :
    (∃ h, s.handles.lookup fh' = some h ∧ fh' = fh ∧ h' = g h) ∨
      fh' ≠ fh ∧ s.handles.lookup fh' = some h' := by
  unfold onHandle at hh
  split at hh
  · next h hlook =>
    rcases lookup_of_insert hh with ⟨rfl, rfl⟩ | hh
    · exact .inl ⟨h, hlook, rfl, rfl⟩
    · exact .inr hh
  · next hlook =>
    by_cases heq : fh' = fh
    · subst heq
      rw [hlook] at hh
      cases hh
    · exact .inr ⟨heq, hh⟩

/-- What the steps do. -/
inductive Steps (cfg : CacheConfig) (s : ReadPath) : PathStep → ReadPath → Prop
  | blob {c fh offset size : ℕ} {h : ReadHandle} {out : Bytes} :
      s.handles.lookup fh = some h → s.reads.lookup c = none → h.cacheOk = true →
      s.cache.read h.path offset size = some out →
      Steps cfg s (.read c fh offset size) { s with
        reads := s.reads.insert c
          ⟨fh, h.file, offset, size, .done (.ok out), [], s.returned h.file⟩ }
  | blocks {c fh offset size : ℕ} {h : ReadHandle} :
      s.handles.lookup fh = some h → s.reads.lookup c = none →
      Steps cfg s (.read c fh offset size)
        (s.readBlocks c fh offset size { h with cacheOk := false })
  | advance {c : ℕ} {l : ReadStep} {call call' : ReadCall} {h h' : ReadHandle} :
      s.reads.lookup c = some call → s.handles.lookup call.fh = some h →
      call.advance h l = some (call', h') →
      Steps cfg s (.advance c l)
        { s with reads := s.reads.insert c call', handles := s.handles.insert call.fh h' }
  | answerWindow {fh b : ℕ} {ok : Bool} {h : ReadHandle} : s.handles.lookup fh = some h →
      Steps cfg s (.answerWindow fh b ok) { s with
        handles := s.handles.insert fh
          { h with ra := h.ra.put b (.done (s.served h.file b ok)) } }
  | answerCall {c b : ℕ} {ok : Bool} {call call' : ReadCall} : s.reads.lookup c = some call →
      call.answered b (s.served call.file b ok) = some call' →
      Steps cfg s (.answerCall c b ok) { s with reads := s.reads.insert c call' }
  | write {w fh : ℕ} {h : ReadHandle} : s.handles.lookup fh = some h →
      Steps cfg s (.write w fh) { s with
        writes := s.writes.insert w ⟨some fh, h.path, h.file, s.files.latest h.file, none⟩ }
  | chunk {w offset f v : ℕ} {o : Option ℕ} {data content : Bytes} {path : RelPath} :
      s.writes.lookup w = some ⟨o, path, f, v, none⟩ →
      Steps cfg s (.chunk w offset data) { s with
        files := s.files.change f content
        writes := s.writes.insert w ⟨o, path, f, (s.files.change f content).latest f, none⟩ }
  | truncate {w size f : ℕ} {content : Bytes} {path : RelPath} : s.files.tree path = some f →
      Steps cfg s (.truncate w path size) { s with
        files := s.files.change f content
        writes := s.writes.insert w ⟨none, path, f, (s.files.change f content).latest f, none⟩ }
  | unmarked {w f v fh : ℕ} {order : List ℕ} {path : RelPath} :
      s.writes.lookup w = some ⟨some fh, path, f, v, none⟩ → s.handles.lookup fh = none →
      Steps cfg s (.written w order) { s with
        writes := s.writes.insert w ⟨some fh, path, f, v, some []⟩ }
  | written {w f v : ℕ} {o : Option ℕ} {order : List ℕ} {path : RelPath} :
      s.writes.lookup w = some ⟨o, path, f, v, none⟩ → order.Perm (s.openAt path) →
      Steps cfg s (.written w order) { s with
        writes := s.writes.insert w ⟨o, path, f, v,
          some (order.flatMap (fun fh => [.flag fh, .window fh, .recent fh]) ++ [.blob])⟩ }
  | flag {w f v fh : ℕ} {o : Option ℕ} {path : RelPath} {todo : List MarkStep} :
      s.writes.lookup w = some ⟨o, path, f, v, some (.flag fh :: todo)⟩ →
      Steps cfg s (.mark w) { s with
        handles := s.onHandle fh fun h => { h with cacheOk := false }
        writes := s.writes.insert w ⟨o, path, f, v, some todo⟩ }
  | window {w f v fh : ℕ} {o : Option ℕ} {path : RelPath} {todo : List MarkStep} :
      s.writes.lookup w = some ⟨o, path, f, v, some (.window fh :: todo)⟩ →
      Steps cfg s (.mark w) { s with
        handles := s.onHandle fh fun h => { h with ra := { h.ra with window := ∅ } }
        writes := s.writes.insert w ⟨o, path, f, v, some todo⟩ }
  | recent {w f v fh : ℕ} {o : Option ℕ} {path : RelPath} {todo : List MarkStep} :
      s.writes.lookup w = some ⟨o, path, f, v, some (.recent fh :: todo)⟩ →
      Steps cfg s (.mark w) { s with
        handles := s.onHandle fh fun h => { h with ra := { h.ra with recent := [] } }
        writes := s.writes.insert w ⟨o, path, f, v, some todo⟩ }
  | invalidate {w f v : ℕ} {o : Option ℕ} {path : RelPath} {todo : List MarkStep} :
      s.writes.lookup w = some ⟨o, path, f, v, some (.blob :: todo)⟩ →
      Steps cfg s (.mark w) { s with
        cache := s.cache.invalidate path, writes := s.writes.insert w ⟨o, path, f, v, some todo⟩ }
  | returns {w f v : ℕ} {o : Option ℕ} {path : RelPath} :
      s.writes.lookup w = some ⟨o, path, f, v, some []⟩ →
      Steps cfg s (.returns w) { s with
        writes := s.writes.erase w
        returned := update s.returned f (max (s.returned f) v) }
  | fails {w : ℕ} : Steps cfg s (.fails w) { s with writes := s.writes.erase w }
  | rename {r : ℕ} {src dst : RelPath} :
      Steps cfg s (.rename r src dst) { s with
        files := s.files.rename src dst, renames := s.renames.insert r (src, dst) }
  | renamed {r : ℕ} {moves : RelPath → Bool} {src dst : RelPath} :
      s.renames.lookup r = some (src, dst) →
      Steps cfg s (.renamed r moves)
        { s with cache := s.cache.rename moves src dst, renames := s.renames.erase r }
  | ask {o f version : ℕ} {path : RelPath} {mtime : SystemTime} : s.files.tree path = some f →
      Steps cfg s (.ask o path mtime version)
        { s with opens := s.opens.insert o ⟨path, f, s.files.attr f mtime version⟩ }
  | install {o fh : ℕ} {call : OpenCall} : s.opens.lookup o = some call →
      s.handles.lookup fh = none →
      Steps cfg s (.install o fh) { s with
        cache := (s.cache.freshFor call.path call.attr).2
        opens := s.opens.erase o
        handles := s.handles.insert fh
          ⟨call.path, call.file, (s.cache.freshFor call.path call.attr).1, .new⟩ }
  | release {fh : ℕ} :
      ¬ (s.reads.entries.any fun e => decide (e.2.fh = fh) && !e.2.isDone) = true →
      Steps cfg s (.release fh) { s with handles := s.handles.erase fh }
  | event {kind : EventKind} {path : RelPath} {moves : RelPath → Bool} :
      Steps cfg s (.event kind path moves) { s with cache := s.onEvent kind path moves }
  | fetch {k f version : ℕ} {path : RelPath} {mtime : SystemTime} : s.files.tree path = some f →
      Steps cfg s (.fetch k path mtime version) { s with
        fetches := s.fetches.insert k ⟨path, f, s.files.attr f mtime version,
          List.replicate (chunksOf (s.files.current f).length) none, false⟩ }
  | unwanted {k version : ℕ} {path : RelPath} {mtime : SystemTime} :
      Steps cfg s (.fetch k path mtime version) s
  | fetchChunk {k i : ℕ} {e : CacheFetch} : s.fetches.lookup k = some e →
      Steps cfg s (.fetchChunk k i) { s with
        fetches := s.fetches.insert k { e with
          parts := e.parts.set i (some (chunkOf (s.files.current e.file) e.attr.size i)) } }
  | place {k : ℕ} {e : CacheFetch} : s.fetches.lookup k = some e →
      e.parts.all Option.isSome = true → e.data.length = e.attr.size →
      Steps cfg s (.place k) { s with
        cache := { s.cache with blobs := update s.cache.blobs e.path (some e.data) }
        fetches := s.fetches.insert k { e with placed := true } }
  | commit {k : ℕ} {e : CacheFetch} {pinned : Bool} : s.fetches.lookup k = some e →
      Steps cfg s (.commit k pinned)
        { s with cache := s.cache.commit cfg e.path e.attr pinned, fetches := s.fetches.erase k }
  | dropFetch {k : ℕ} : Steps cfg s (.dropFetch k) { s with fetches := s.fetches.erase k }
  | change {f : ℕ} {data : Bytes} :
      Steps cfg s (.change f data) { s with files := s.files.change f data }

/-- **Every step is one of them.** -/
theorem steps_of_step (hs : s.step cfg l = some s') : Steps cfg s l s' := by
  cases l with
  | read c fh offset size =>
    rw [step] at hs
    split at hs
    · next h hh hnone =>
      cases hs
      unfold startRead
      split
      · next hok =>
        split
        · next out hread => exact .blob hh hnone hok hread
        · exact .blocks hh hnone
      · next hok =>
        have heq : h = { h with cacheOk := false } := by
          rw [← Bool.not_eq_true _ |>.mp hok]
        rw [heq]
        exact .blocks hh hnone
    · cases hs
  | advance c l =>
    rw [step] at hs
    split at hs
    · cases hs
    · next call hc =>
      split at hs
      · cases hs
      · next h hh =>
        obtain ⟨n, hadv, rfl⟩ := Option.map_eq_some_iff.mp hs
        exact .advance hc hh hadv
  | answerCall c b ok =>
    rw [step] at hs
    split at hs
    · cases hs
    · next call hc =>
      obtain ⟨call', hans, rfl⟩ := Option.map_eq_some_iff.mp hs
      exact .answerCall hc hans
  | mark w =>
    rw [step] at hs
    split at hs
    · next path f v m todo hw =>
      cases hs
      cases m with
      | flag fh => exact .flag hw
      | window fh => exact .window hw
      | recent fh => exact .recent hw
      | blob => exact .invalidate hw
    · cases hs
  | place k =>
    rw [step] at hs
    split at hs
    · next e he =>
      obtain ⟨hok, rfl⟩ := of_guard hs
      simp only [Bool.and_eq_true, decide_eq_true_eq] at hok
      exact .place he hok.1.2 hok.2
    · cases hs
  | release fh =>
    obtain ⟨hfree, rfl⟩ := of_guard_not hs
    exact .release hfree
  | answerWindow fh b ok =>
    rw [step] at hs
    split at hs
    · cases hs
    · next h hh =>
      obtain ⟨-, rfl⟩ := of_guard hs
      exact .answerWindow hh
  | write w fh =>
    rw [step] at hs
    split at hs
    · next h hh _ =>
      cases hs
      exact .write hh
    · cases hs
  | chunk w offset data =>
    rw [step] at hs
    split at hs
    · next path f v hw =>
      cases hs
      exact .chunk hw
    · cases hs
  | truncate w path size =>
    rw [step] at hs
    split at hs
    · next f hf _ =>
      cases hs
      exact .truncate hf
    · cases hs
  | returns w =>
    rw [step] at hs
    split at hs
    · next path f v hw =>
      cases hs
      exact .returns hw
    · cases hs
  | fails w =>
    rw [step] at hs
    split at hs
    · cases hs
      exact .fails
    · cases hs
  | rename r src dst =>
    rw [step] at hs
    split at hs
    · cases hs
      exact .rename
    · cases hs
  | renamed r moves =>
    rw [step] at hs
    split at hs
    · next src dst hr =>
      cases hs
      exact .renamed hr
    · cases hs
  | ask o path mtime version =>
    rw [step] at hs
    split at hs
    · next f hf _ =>
      cases hs
      exact .ask hf
    · cases hs
  | install o fh =>
    rw [step] at hs
    split at hs
    · next call ho hnone =>
      cases hs
      exact .install ho hnone
    · cases hs
  | commit k pinned =>
    rw [step] at hs
    split at hs
    · next path f attr parts hk =>
      cases hs
      exact Steps.commit (e := ⟨path, f, attr, parts, true⟩) hk
    · cases hs
  | written w order =>
    rw [step] at hs
    split at hs
    · next o path f v hw =>
      split at hs
      · next hgone =>
        cases hs
        cases o with
        | none => cases hgone
        | some fh => exact .unmarked hw (Option.isNone_iff_eq_none.mp hgone)
      · obtain ⟨hperm, rfl⟩ := of_guard hs
        exact .written hw hperm
    · cases hs
  | fetch k path mtime version =>
    rw [step] at hs
    split at hs
    · next f hf _ =>
      dsimp only at hs
      split at hs
      · cases hs
        exact .fetch hf
      · cases hs
        exact .unwanted
    · cases hs
  | fetchChunk k i =>
    rw [step] at hs
    split at hs
    · next e he =>
      obtain ⟨-, rfl⟩ := of_guard hs
      exact .fetchChunk he
    · cases hs
  | event kind path moves =>
    cases hs
    exact .event
  | dropFetch k =>
    cases hs
    exact .dropFetch
  | change f data =>
    cases hs
    exact .change

/-- **The server forgets nothing.** -/
theorem extends_of_step (hs : s.step cfg l = some s') : s.files.Extends s'.files := by
  cases steps_of_step hs with
  | chunk _ => exact Files.extends_change _ _ _
  | truncate _ => exact Files.extends_change _ _ _
  | rename => exact Files.extends_rename _ _ _
  | change => exact Files.extends_change _ _ _
  | _ => exact .refl _

/-- The blocks a handle and the reads on it hold. -/
def Has (s : ReadPath) (fh b : ℕ) (data : Bytes) : Prop :=
  (∃ h, s.handles.lookup fh = some h ∧ h.ra.Holds b data) ∨
    ∃ c call, s.reads.lookup c = some call ∧ call.fh = fh ∧ (b, data) ∈ call.pieces

/-- The handle after a step holds what it or its reads held, or what the server answers. -/
structure Grows (s : ReadPath) (fh : ℕ) (h h' : ReadHandle) : Prop where
  path : h'.path = h.path
  file : h'.file = h.file
  cacheOk : h'.cacheOk = true → h.cacheOk = true
  holds : ∀ b data, h'.ra.Holds b data →
    s.Has fh b data ∨ data = block (s.files.current h.file) b

theorem Grows.of_holds (hh : s.handles.lookup fh = some h)
    (hpath : h'.path = h.path) (hfile : h'.file = h.file)
    (hok : h'.cacheOk = true → h.cacheOk = true)
    (hholds : ∀ b data, h'.ra.Holds b data → h.ra.Holds b data) : s.Grows fh h h' :=
  ⟨hpath, hfile, hok, fun b data hb => .inl (.inl ⟨h, hh, hholds b data hb⟩)⟩

theorem Grows.refl (hh : s.handles.lookup fh = some h) :
    s.Grows fh h h :=
  .of_holds hh rfl rfl id fun _ _ => id

theorem Grows.of_insert {fh' : ℕ} {h₁ : ReadHandle}
    (hlook : (s.handles.insert fh h₁).lookup fh' = some h') (hh : s.handles.lookup fh = some h)
    (hgrow : s.Grows fh h h₁) :
    ∃ h, s.handles.lookup fh' = some h ∧ s.Grows fh' h h' := by
  rcases lookup_of_insert hlook with ⟨rfl, rfl⟩ | ⟨_, hold⟩
  · exact ⟨h, hh, hgrow⟩
  · exact ⟨h', hold, .refl hold⟩

theorem Grows.of_onHandle {fh' : ℕ} (hlook : (s.onHandle fh g).lookup fh' = some h')
    (hgrow : ∀ h, s.handles.lookup fh = some h → s.Grows fh h (g h)) :
    ∃ h, s.handles.lookup fh' = some h ∧ s.Grows fh' h h' := by
  rcases lookup_of_onHandle hlook with ⟨h, hh, rfl, rfl⟩ | ⟨_, hold⟩
  · exact ⟨h, hh, hgrow h hh⟩
  · exact ⟨h', hold, .refl hold⟩

theorem eq_block_of_served {f b : ℕ} {ok : Bool}
    (h : s.served f b ok = some data) : data = block (s.files.current f) b := by
  unfold served at h
  split at h
  · exact (Option.some.inj h).symm
  · cases h

/-- **What a step does to a handle.**  It is a handle that was there and holds what came from
somewhere, or one that has just been opened. -/
theorem handles_of_step (hs : s.step cfg l = some s') (hh : s'.handles.lookup fh = some h') :
    (∃ h, s.handles.lookup fh = some h ∧ s.Grows fh h h') ∨
      ∃ o call, l = .install o fh ∧ s.opens.lookup o = some call ∧ s.handles.lookup fh = none ∧
        h' = ⟨call.path, call.file, (s.cache.freshFor call.path call.attr).1, .new⟩ := by
  cases steps_of_step hs with
  | blocks hlook _ =>
    exact .inl (Grows.of_insert hh hlook
      (.of_holds hlook rfl rfl nofun fun _ _ hb => hb.of_observe))
  | @advance c l call call' h h₁ hcall hlook hadv =>
    have hspec := advances_of_advance hadv
    refine .inl (Grows.of_insert hh hlook
      ⟨hspec.path, hspec.file, fun hok => hspec.cacheOk ▸ hok, ?_⟩)
    intro b data hb
    rcases hspec.holds b data hb with hb | hb
    · exact .inl (.inr ⟨c, call, hcall, rfl, hb⟩)
    · exact .inl (.inl ⟨h, hlook, hb⟩)
  | @answerWindow fh' b ok h hlook =>
    refine .inl (Grows.of_insert hh hlook ⟨rfl, rfl, id, ?_⟩)
    intro b' data hb
    rcases hb.of_put with hb | ⟨rfl, hb⟩
    · exact .inl (.inl ⟨h, hlook, hb⟩)
    · exact .inr (eq_block_of_served (Fetch.done.inj hb))
  | flag _ =>
    exact .inl (Grows.of_onHandle hh fun h hlook =>
      .of_holds hlook rfl rfl nofun fun _ _ => id)
  | window _ =>
    refine .inl (Grows.of_onHandle hh fun h hlook => .of_holds hlook rfl rfl id ?_)
    rintro b data (hb | hb)
    · cases hb
    · exact .inr hb
  | recent _ =>
    refine .inl (Grows.of_onHandle hh fun h hlook => .of_holds hlook rfl rfl id ?_)
    rintro b data (hb | hb)
    · exact .inl hb
    · cases hb
  | @install o fh' call hcall hnone =>
    rcases lookup_of_insert hh with ⟨rfl, rfl⟩ | ⟨_, hold⟩
    · exact .inr ⟨o, call, rfl, hcall, hnone, rfl⟩
    · exact .inl ⟨h', hold, .refl hold⟩
  | release _ =>
    have hold := (lookup_of_erase hh).2
    exact .inl ⟨h', hold, .refl hold⟩
  | _ => exact .inl ⟨h', hh, .refl hh⟩

/-- The read after a step has what it or its handle held, or what the server answers. -/
structure GoesOn (s : ReadPath) (call call' : ReadCall) : Prop where
  continues : call.Continues call'
  undone : call'.isDone = false → call.isDone = false
  pieces : ∀ b data, (b, data) ∈ call'.pieces →
    s.Has call.fh b data ∨ call.isDone = false ∧ data = block (s.files.current call.file) b
  out : ∀ out, call'.phase.out = some out → call.phase.out = some out ∨
    call.isDone = false ∧ ∃ ready, (∀ b data, (b, data) ∈ ready → s.Has call.fh b data) ∧
      answer (pick ready) call.offset call.size = some out

theorem GoesOn.refl (hc : s.reads.lookup c = some call) : s.GoesOn call call :=
  ⟨.refl _, id, fun _ _ hb => .inl (.inr ⟨c, call, hc, rfl, hb⟩), fun _ => .inl⟩

theorem GoesOn.of_advances {call' : ReadCall}
    (hc : s.reads.lookup c = some call) (hh : s.handles.lookup call.fh = some h)
    (hadv : call.Advances h call' h') : s.GoesOn call call' := by
  have hpieces : ∀ b data, (b, data) ∈ call.pieces → s.Has call.fh b data :=
    fun b data hb => .inr ⟨c, call, hc, rfl, hb⟩
  refine ⟨hadv.continues, fun _ => hadv.undone, ?_, ?_⟩
  · intro b data hb
    rcases hadv.pieces b data hb with hb | hb
    · exact .inl (hpieces b data hb)
    · exact .inl (.inl ⟨h, hh, hb⟩)
  · intro out hout
    rcases hadv.out out hout with hout | ⟨ready, hready, hout⟩
    · exact .inl hout
    · exact .inr ⟨hadv.undone, ready, fun b data hb => hpieces b data (hready _ hb), hout⟩

/-- A read that has just begun: it has nothing, unless the blob has served it. -/
structure Begins (s : ReadPath) (fh o n : ℕ) (h : ReadHandle) (call : ReadCall) : Prop where
  fh : call.fh = fh
  file : call.file = h.file
  offset : call.offset = o
  size : call.size = n
  since : call.since = s.returned h.file
  pieces : call.pieces = []
  out : ∀ out, call.phase.out = some out → h.cacheOk = true ∧ s.cache.read h.path o n = some out

/-- **What a step does to a read.** -/
theorem reads_of_step (hs : s.step cfg l = some s') {call' : ReadCall}
    (hc : s'.reads.lookup c = some call') :
    (∃ call, s.reads.lookup c = some call ∧ s.GoesOn call call') ∨
      ∃ fh offset size h, l = .read c fh offset size ∧ s.reads.lookup c = none ∧
        s.handles.lookup fh = some h ∧ s.Begins fh offset size h call' := by
  cases steps_of_step hs with
  | @blob c' fh offset size h out hlook hnone hok hread =>
    rcases lookup_of_insert hc with ⟨rfl, rfl⟩ | ⟨_, hold⟩
    · refine .inr ⟨fh, offset, size, h, rfl, hnone, hlook, rfl, rfl, rfl, rfl, rfl, rfl, ?_⟩
      intro out' heq
      cases heq
      exact ⟨hok, hread⟩
    · exact .inl ⟨call', hold, .refl hold⟩
  | @blocks c' fh offset size h hlook hnone =>
    rcases lookup_of_insert hc with ⟨rfl, rfl⟩ | ⟨_, hold⟩
    · exact .inr ⟨fh, offset, size, h, rfl, hnone, hlook, rfl, rfl, rfl, rfl, rfl,
        pieces_topUp rfl rfl, nofun⟩
    · exact .inl ⟨call', hold, .refl hold⟩
  | @advance c' l call call₁ h h₁ hcall hlook hadv =>
    rcases lookup_of_insert hc with ⟨rfl, rfl⟩ | ⟨_, hold⟩
    · exact .inl ⟨call, hcall, .of_advances hcall hlook (advances_of_advance hadv)⟩
    · exact .inl ⟨call', hold, .refl hold⟩
  | @answerCall c' b ok call call₁ hcall hans =>
    rcases lookup_of_insert hc with ⟨rfl, rfl⟩ | ⟨_, hold⟩
    · obtain ⟨hcont, hout, hdone, hpieces⟩ := of_answered hans
      refine .inl ⟨call, hcall, hcont, fun hu => hdone ▸ hu, ?_, fun _ ho => .inl (hout ▸ ho)⟩
      intro b' data hb
      rcases hpieces b' data hb with hb' | ⟨rfl, hdata⟩
      · exact .inl (.inr ⟨c, call, hcall, rfl, hb'⟩)
      · refine .inr ⟨?_, eq_block_of_served hdata⟩
        rw [← hdone]
        by_contra hd
        rw [pieces_of_isDone (by simpa using hd)] at hb
        cases hb
    · exact .inl ⟨call', hold, .refl hold⟩
  | _ => exact .inl ⟨call', hc, .refl hc⟩

/-- A handle stays open until it is released, and it is not released under a read. -/
theorem handle_stays (hs : s.step cfg l = some s') (hh : s.handles.lookup fh = some h) :
    (∃ h', s'.handles.lookup fh = some h') ∨
      ∀ c call, s'.reads.lookup c = some call → call.fh = fh → call.isDone = true := by
  have hinsert : ∀ (m : AList fun _ : ℕ => ReadHandle) (fh' : ℕ) (h₁ : ReadHandle),
      (∃ h', m.lookup fh = some h') → ∃ h', (m.insert fh' h₁).lookup fh = some h' := by
    intro m fh' h₁ hm
    by_cases heq : fh = fh'
    · exact ⟨h₁, heq ▸ AList.lookup_insert m⟩
    · rwa [AList.lookup_insert_ne heq]
  have honHandle : ∀ fh' g, ∃ h', (s.onHandle fh' g).lookup fh = some h' := by
    intro fh' g
    unfold onHandle
    split
    · exact hinsert _ _ _ ⟨h, hh⟩
    · exact ⟨h, hh⟩
  cases steps_of_step hs with
  | blocks _ _ => exact .inl (hinsert _ _ _ ⟨h, hh⟩)
  | advance _ _ _ => exact .inl (hinsert _ _ _ ⟨h, hh⟩)
  | answerWindow _ => exact .inl (hinsert _ _ _ ⟨h, hh⟩)
  | flag _ => exact .inl (honHandle _ _)
  | window _ => exact .inl (honHandle _ _)
  | recent _ => exact .inl (honHandle _ _)
  | install _ _ => exact .inl (hinsert _ _ _ ⟨h, hh⟩)
  | @release fh' hfree =>
    by_cases heq : fh = fh'
    · subst heq
      right
      intro c call hc hfh
      by_contra hun
      apply hfree
      rw [List.any_eq_true]
      exact ⟨⟨c, call⟩, AList.mem_lookup_iff.mp hc, by simp [hfh, hun]⟩
    · exact .inl ⟨h, by rw [AList.lookup_erase_ne heq, hh]⟩
  | _ => exact .inl ⟨h, hh⟩

/-- Does the step have the cache follow a rename onto the path, or onto a directory above it? -/
def renamesOnto (s : ReadPath) (path : RelPath) : PathStep → Bool
  | .renamed r _ =>
    match s.renames.lookup r with
    | some (src, dst) => (AutoCache.movedTo dst src path).isSome
    | none => false
  | .event (.renamedFrom dst) src _ => (AutoCache.movedTo dst src path).isSome
  | _ => false

/-- **What a step does to a blob.**  It is the one that was there, or it was fetched, or a rename
has brought it. -/
theorem blobs_of_step (hs : s.step cfg l = some s') {path : RelPath}
    (hb : s'.cache.blobs path = some data) :
    s.cache.blobs path = some data ∨ s.renamesOnto path l = true ∨
      ∃ k e, l = .place k ∧ s.fetches.lookup k = some e ∧ e.path = path ∧ e.data = data ∧
        e.data.length = e.attr.size ∧ e.parts.all Option.isSome = true := by
  cases steps_of_step hs with
  | invalidate _ => exact .inl (AutoCache.blobs_of_invalidate hb)
  | renamed hr =>
    rcases AutoCache.blobs_of_rename hb with hb | hmoved
    · exact .inl hb
    · right; left
      simp only [renamesOnto, hr, hmoved]
  | install _ _ =>
    rw [AutoCache.blobs_freshFor] at hb
    exact .inl hb
  | @event kind path' moves =>
    cases kind with
    | renamedFrom dst => exact (AutoCache.blobs_of_rename hb).imp_right .inl
    | resyncRequired => exact .inl hb
    | _ => exact .inl (AutoCache.blobs_of_invalidate hb)
  | @place k e he hall hsize =>
    by_cases hpath : path = e.path
    · subst hpath
      simp only [update_self] at hb
      exact .inr (.inr ⟨k, e, rfl, he, rfl, Option.some.inj hb, hsize, hall⟩)
    · simp only [update_of_ne hpath] at hb
      exact .inl hb
  | commit _ => exact .inl (AutoCache.blobs_of_commit hb)
  | _ => exact .inl hb

/-! ## What a handle holds -/

/-- A read under way is on a handle that is open, on its file. -/
def Wf (s : ReadPath) : Prop :=
  ∀ c call, s.reads.lookup c = some call → call.isDone = false →
    ∃ h, s.handles.lookup call.fh = some h ∧ h.file = call.file

theorem Wf.step (hwf : s.Wf) (hs : s.step cfg l = some s') : s'.Wf := by
  intro c call' hc' hun'
  obtain ⟨fh, file, h, hfh, hfile, hh, hf⟩ : ∃ fh file h, call'.fh = fh ∧ call'.file = file ∧
      s.handles.lookup fh = some h ∧ h.file = file := by
    rcases reads_of_step hs hc' with ⟨call, hc, hgo⟩ | ⟨fh, offset, size, h, _, _, hh, hb⟩
    · obtain ⟨h, hh, hf⟩ := hwf c call hc (hgo.undone hun')
      exact ⟨_, _, h, hgo.continues.fh, hgo.continues.file, hh, hf⟩
    · exact ⟨_, _, h, hb.fh, hb.file, hh, rfl⟩
  subst hfh hfile
  rcases handle_stays hs hh with ⟨h', hh'⟩ | hdone
  · refine ⟨h', hh', ?_⟩
    rcases handles_of_step hs hh' with ⟨h₀, hh₀, hgrow⟩ | ⟨o, open', _, _, hnone, _⟩
    · rw [hgrow.file, ← hf]
      rw [hh] at hh₀
      rw [Option.some.inj hh₀]
    · rw [hh] at hnone
      cases hnone
  · rw [hdone c call' hc' rfl] at hun'
    cases hun'

/-- All that a handle and its reads hold is of a file, and not older than a given content. -/
def HeldAt (s : ReadPath) (fh f v : ℕ) : Prop :=
    ∀ b data, s.Has fh b data → s.files.Shows f v b data

/-- **What a handle holds stays as new as it is**, whatever is done. -/
theorem HeldAt.step {f v : ℕ} (hheld : s.HeldAt fh f v) (hwf : s.Wf)
    (hh : s.handles.lookup fh = some h) (hf : h.file = f) (hv : v ≤ s.files.latest f)
    (hs : s.step cfg l = some s') : s'.HeldAt fh f v := by
  have hext := extends_of_step hs
  intro b data hb
  rcases hb with ⟨h', hh', hb⟩ | ⟨c, call', hc', hfh, hb⟩
  · rcases handles_of_step hs hh' with ⟨h₀, hh₀, hgrow⟩ | ⟨o, open', _, _, hnone, _⟩
    · have heq : h₀ = h := Option.some.inj (hh₀.symm.trans hh)
      subst heq
      rcases hgrow.holds b data hb with hb | rfl
      · exact (hheld b data hb).mono hext
      · exact (Files.shows_current (hf ▸ hv)).mono hext |> (hf ▸ ·)
    · rw [hh] at hnone
      cases hnone
  · rcases reads_of_step hs hc' with ⟨call, hc, hgo⟩ | ⟨fh, offset, size, h, _, _, hh, hbegin⟩
    · have hfh' : call.fh = fh := hgo.continues.fh ▸ hfh
      rcases hgo.pieces b data hb with hb | ⟨hun, rfl⟩
      · exact (hheld b data (hfh' ▸ hb)).mono hext
      · obtain ⟨h₀, hh₀, hfile⟩ := hwf c call hc hun
        rw [hfh', hh] at hh₀
        rw [← hfile, ← Option.some.inj hh₀, hf]
        exact (Files.shows_current hv).mono hext
    · rw [hbegin.pieces] at hb
      cases hb

theorem heldAt_of_install {o f v : ℕ} (hwf : s.Wf) (hnone : s.handles.lookup fh = none)
    (hs : s.step cfg (.install o fh) = some s') : s'.HeldAt fh f v := by
  intro b data hb
  exfalso
  rcases hb with ⟨h', hh', hb⟩ | ⟨c, call', hc', hfh, hb⟩
  · rcases handles_of_step hs hh' with ⟨h₀, hh₀, _⟩ | ⟨o, open', _, _, _, rfl⟩
    · rw [hnone] at hh₀
      cases hh₀
    · exact ReadAhead.not_holds_new hb
  · rcases reads_of_step hs hc' with ⟨call, hc, hgo⟩ | ⟨fh', offset, size, h, heq, _, _, _⟩
    · have hun : call.isDone = false := by
        by_contra hd
        have hd' : call'.isDone = true := by
          by_contra hd'
          exact hd (hgo.undone (by simpa using hd'))
        rw [pieces_of_isDone hd'] at hb
        cases hb
      obtain ⟨h, hh, _⟩ := hwf c call hc hun
      rw [← hgo.continues.fh, hfh, hnone] at hh
      cases hh
    · cases heq

theorem heldAt_iff {f v : ℕ} : s.HeldAt fh f v ↔
    (∀ h ∈ s.handles.lookup fh, (∀ e ∈ h.ra.window.entries, ∀ data ∈ e.2.bytes,
      s.files.Shows f v e.1 data) ∧ ∀ e ∈ h.ra.recent, s.files.Shows f v e.1 e.2) ∧
    ∀ e ∈ s.reads.entries, e.2.fh = fh → ∀ q ∈ e.2.pieces, s.files.Shows f v q.1 q.2 := by
  constructor
  · intro hheld
    refine ⟨fun h hh => ⟨?_, ?_⟩, ?_⟩
    · intro e he data hdata
      have hdone : e.2 = .done (some data) := by
        cases hf : e.2 with
        | pending =>
          rw [hf] at hdata
          cases hdata
        | done d =>
          rw [hf] at hdata
          cases hdata
          rfl
      exact hheld e.1 data (.inl ⟨h, hh, .inl (hdone ▸ AList.mem_lookup_iff.mpr he)⟩)
    · intro e he
      exact hheld e.1 e.2 (.inl ⟨h, hh, .inr he⟩)
    · intro e he hfh q hq
      exact hheld q.1 q.2 (.inr ⟨e.1, e.2, AList.mem_lookup_iff.mpr he, hfh, hq⟩)
  · rintro ⟨hhandle, hreads⟩ b data (⟨h, hh, hb | hb⟩ | ⟨c, call, hc, hfh, hb⟩)
    · exact (hhandle h hh).1 ⟨b, _⟩ (AList.mem_lookup_iff.mp hb) data rfl
    · exact (hhandle h hh).2 (b, data) hb
    · exact hreads ⟨c, call⟩ (AList.mem_lookup_iff.mp hc) hfh (b, data) hb

instance (s : ReadPath) (fh f v : ℕ) : Decidable (s.HeldAt fh f v) := decidable_of_iff' _ heldAt_iff

/-! ## A file that is read twice -/

/-- A mount with nothing open. -/
def start (files : Files) (cache : AutoCache) : ReadPath :=
  ⟨files, ∅, cache, ∅, ∅, ∅, ∅, ∅, fun _ => 0⟩

theorem phase_of_isDone {out : Bytes} (hdone : call.isDone = true)
    (hout : call.phase.out = some out) : call.phase = .done (.ok out) := by
  unfold isDone at hdone
  split at hdone
  · next r heq =>
    rw [heq] at hout ⊢
    cases r with
    | error e => cases hout
    | ok out' =>
      cases hout
      rfl
  · cases hdone

/-- One file, `a`, with one byte. -/
def oneFile : Files where
  latest := fun _ => 0
  content := fun _ _ => [65]
  tree := fun p => if p = ⟨['a']⟩ then some 0 else none

def noCache : CacheConfig := ⟨0, 0, .none⟩

/-- The first read of the byte, up to where it has the block. -/
def firstRead : List PathStep :=
  [.ask 0 ⟨['a']⟩ 7 1, .install 0 1, .read 0 1 0 1, .advance 0 .next, .advance 0 .next,
    .advance 0 .next, .answerCall 0 0 true, .advance 0 .assemble]

/-- Its end, where it retains the block. -/
def firstEnd : List PathStep := [.advance 0 (.retain 0), .advance 0 .finish]

/-- The second read fetches a window ahead, since it is the second in the same place. -/
def secondRead : List PathStep :=
  .read 1 1 0 1 :: (List.replicate WINDOW_BLOCKS [.advance 1 .spawn, .advance 1 .put]).flatten ++
    [.advance 1 .next, .advance 1 .next, .advance 1 .next]

def secondEnd : List PathStep :=
  [.advance 1 .assemble, .advance 1 (.retain 0), .advance 1 .finish]

/-- What can be seen of a read, and of its file. -/
structure ReadSeen where
  done : Bool
  out : Option Bytes
  file : ℕ
  since : ℕ
  offset : ℕ
  size : ℕ
  latest : ℕ
  current : Bytes
deriving DecidableEq

def seen (c : ℕ) (s : ReadPath) : Option ReadSeen :=
  (s.reads.lookup c).map fun call =>
    ⟨call.isDone, call.phase.out, call.file, call.since, call.offset, call.size,
      s.files.latest call.file, s.files.current call.file⟩

theorem of_seen {v : ReadSeen} {out : Bytes} (h : s.seen c = some v)
    (hdone : v.done = true) (hout : v.out = some out) :
    ∃ call, s.reads.lookup c = some call ∧ call.phase = .done (.ok out) ∧
      v = ⟨true, some out, call.file, call.since, call.offset, call.size,
        s.files.latest call.file, s.files.current call.file⟩ := by
  obtain ⟨call, hc, rfl⟩ := Option.map_eq_some_iff.mp h
  exact ⟨call, hc, phase_of_isDone hdone hout, by simp_all⟩

end ReadPath
end AlloyFs
