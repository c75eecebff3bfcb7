import AlloyFs.Client.ReadFlow

/-!
# Reads after an event

An event that says that a file was changed makes the mount drop the blob of the path, and the
attributes; backends are told that they may look at the file again.  What the handles hold is not
dropped.  So the reads that follow return the bytes of the server if nothing the handles hold is
older than the change, and some of them do not if it is.
-/

namespace AlloyFs

open List

/-! ## A file in chunks -/

theorem flatten_chunkOf (content : Bytes) (n : ℕ) :
    ((range n).map (chunkOf content content.length)).flatten = content.take (n * DATA_CHUNK) := by
  induction n with
  | zero => simp
  | succ n ih =>
    have hchunk : chunkOf content content.length n =
        (content.drop (n * DATA_CHUNK)).take DATA_CHUNK := by
      rw [chunkOf, ← length_drop, Nat.min_comm, ← take_take, take_length]
    rw [range_succ, map_append, flatten_append, ih, map_singleton,
      flatten_singleton, hchunk, ← take_add, Nat.succ_mul]

theorem le_chunksOf (size : ℕ) : size ≤ chunksOf size * DATA_CHUNK := by
  have hpos : 0 < DATA_CHUNK := by decide
  have := Nat.lt_div_mul_add (a := size + DATA_CHUNK - 1) hpos
  unfold chunksOf
  omega

variable {content : Bytes} {e : CacheFetch}

namespace CacheFetch

/-- All chunks that have come are of this content. -/
structure IsOf (e : CacheFetch) (content : Bytes) : Prop where
  size : e.attr.size = content.length
  length : e.parts.length = chunksOf content.length
  parts : ∀ i data, e.parts[i]? = some (some data) → data = chunkOf content content.length i

theorem IsOf.data_eq (h : e.IsOf content)
    (hall : e.parts.all Option.isSome = true) : e.data = content := by
  have hparts : e.parts = ((range (chunksOf content.length)).map
      (chunkOf content content.length)).map some := by
    apply ext_getElem?
    intro i
    by_cases hi : i < chunksOf content.length
    · have hi' : i < e.parts.length := h.length ▸ hi
      obtain ⟨data, hdata⟩ := Option.isSome_iff_exists.mp
        (all_eq_true.mp hall _ (getElem_mem hi'))
      have heq : e.parts[i]? = some (some data) := by rw [getElem?_eq_getElem hi', hdata]
      rw [heq, h.parts i data heq]
      simp [hi]
    · have hi' : e.parts.length ≤ i := by rw [h.length]; omega
      rw [getElem?_eq_none hi']
      simp [hi]
  rw [data, hparts, filterMap_map, Function.id_comp, filterMap_some, flatten_chunkOf,
    take_of_length_le (le_chunksOf _)]

end CacheFetch

namespace ReadPath

variable {cfg : CacheConfig} {s s' : ReadPath} {l : PathStep} {p : RelPath} {f : ℕ}

/-! ## The conditions -/

/-- What the mount holds of the file `f`, under the path `p`, is what the server has.  A blob with
an entry is left out. -/
structure UpToDate (s : ReadPath) (p : RelPath) (f : ℕ) : Prop where
  tree : s.files.tree p = some f
  /-- the blocks in the window, the retained ones and those of reads under way -/
  held : ∀ fh h, s.handles.lookup fh = some h → h.path = p → h.file = f →
    s.HeldAt fh f (s.files.latest f)
  /-- a blob that the cache does not know of -/
  blob : s.cache.known p = false → ∀ data, s.cache.blobs p = some data → data = s.files.current f
  /-- a file that is being fetched for the cache -/
  fetches : ∀ k e, s.fetches.lookup k = some e → e.path = p → e.file = f ∧
    e.IsOf (s.files.current f)
  /-- a rename that the cache has still to follow -/
  renames : ∀ r m, s.renames.lookup r = some m → (AutoCache.movedTo m.2 m.1 p).isSome = false

/-- The file is not changed, and neither it nor another file gets or loses the path. -/
def Unchanged (p : RelPath) (f : ℕ) (s : ReadPath) : PathStep → Prop
  | .chunk w _ _ => ∀ call ∈ s.writes.lookup w, call.file ≠ f
  | .truncate _ path _ => s.files.tree path ≠ some f
  | .change g _ => g ≠ f
  | .rename _ src dst =>
    (AutoCache.movedTo src dst p).isSome = false ∧ (AutoCache.movedTo dst src p).isSome = false
  | .event (.renamedFrom dst) src _ => (AutoCache.movedTo dst src p).isSome = false
  | _ => True

instance (p : RelPath) (f : ℕ) (s : ReadPath) (l : PathStep) : Decidable (Unchanged p f s l) := by
  unfold Unchanged
  split <;> infer_instance

/-! ## The invariant -/

/-- What the mount holds of the file is what the server has. -/
structure Fresh (p : RelPath) (f : ℕ) (s : ReadPath) : Prop where
  wf : s.Wf
  tree : s.files.tree p = some f
  held : ∀ fh h, s.handles.lookup fh = some h → h.path = p → h.file = f →
    s.HeldAt fh f (s.files.latest f)
  blob : ∀ data, s.cache.blobs p = some data → data = s.files.current f
  fetches : ∀ k e, s.fetches.lookup k = some e → e.path = p → e.file = f ∧
    e.IsOf (s.files.current f)
  renames : ∀ r m, s.renames.lookup r = some m → (AutoCache.movedTo m.2 m.1 p).isSome = false

/-- **The event leaves nothing stale**, if what the handles hold is not. -/
theorem UpToDate.fresh (hwf : s.Wf) (h : s.UpToDate p f) {kind : EventKind}
    {moves : RelPath → Bool} (hkind : kind = .modified ∨ kind = .attrChanged ∨ kind = .created)
    (hs : s.step cfg (.event kind p moves) = some s') : s'.Fresh p f := by
  have hcache : s.onEvent kind p moves = s.cache.invalidate p := by
    rcases hkind with rfl | rfl | rfl <;> rfl
  cases hs
  refine ⟨hwf, h.tree, h.held, ?_, h.fetches, h.renames⟩
  intro data hb
  rw [hcache] at hb
  cases hknown : s.cache.known p with
  | true =>
    rw [AutoCache.blobs_invalidate_self hknown] at hb
    cases hb
  | false => exact h.blob hknown data (AutoCache.blobs_of_invalidate hb)

theorem Unchanged.files (hok : Unchanged p f s l) (hs : s.step cfg l = some s') :
    s'.files.latest f = s.files.latest f ∧ s'.files.content f = s.files.content f ∧
      s'.files.tree p = s.files.tree p := by
  have hchange : ∀ g data, g ≠ f → (s.files.change g data).latest f = s.files.latest f ∧
      (s.files.change g data).content f = s.files.content f ∧
      (s.files.change g data).tree p = s.files.tree p := by
    intro g data hg
    simp [Files.change, hg.symm]
  cases steps_of_step hs with
  | chunk hw => exact hchange _ _ (hok _ hw)
  | truncate hg => exact hchange _ _ fun heq => hok (heq ▸ hg)
  | @rename r src dst =>
    refine ⟨rfl, rfl, ?_⟩
    have hto : AutoCache.movedTo dst src p = none := by simpa using hok.2
    simp [Files.rename, hto, hok.1]
  | change => exact hchange _ _ hok
  | _ => exact ⟨rfl, rfl, rfl⟩

theorem Unchanged.current (hok : Unchanged p f s l) (hs : s.step cfg l = some s') :
    s'.files.current f = s.files.current f := by
  obtain ⟨hlatest, hcontent, -⟩ := hok.files hs
  rw [Files.current, Files.current, hlatest, hcontent]

theorem isOf_new (hsize : e.attr.size = content.length)
    (hparts : e.parts = replicate (chunksOf e.attr.size) none) : e.IsOf content := by
  refine ⟨hsize, by simp [hparts, hsize], ?_⟩
  intro i data hi
  simp [hparts, getElem?_replicate] at hi

theorem CacheFetch.IsOf.set (h : e.IsOf content) (i : ℕ) :
    ({ e with parts := e.parts.set i (some (chunkOf content e.attr.size i)) } :
      CacheFetch).IsOf content := by
  refine ⟨h.size, by simp [h.length], ?_⟩
  intro j data hj
  simp only [getElem?_set] at hj
  split at hj
  · next heq =>
    subst heq
    split at hj
    · cases hj
      rw [h.size]
    · cases hj
  · exact h.parts j data hj

/-- **What a step does to a fetch.** -/
theorem fetches_of_step (hs : s.step cfg l = some s') {k : ℕ} {e' : CacheFetch}
    (hk : s'.fetches.lookup k = some e') :
    (∃ e, s.fetches.lookup k = some e ∧ e'.path = e.path ∧ e'.file = e.file ∧ e'.attr = e.attr ∧
        (e'.parts = e.parts ∨ ∃ i, e'.parts =
          e.parts.set i (some (chunkOf (s.files.current e.file) e.attr.size i)))) ∨
      (s.files.tree e'.path = some e'.file ∧ e'.attr.size = (s.files.current e'.file).length ∧
        e'.parts = replicate (chunksOf e'.attr.size) none) := by
  cases steps_of_step hs with
  | fetch hg =>
    rcases lookup_of_insert hk with ⟨rfl, rfl⟩ | ⟨_, hold⟩
    · exact .inr ⟨hg, rfl, rfl⟩
    · exact .inl ⟨e', hold, rfl, rfl, rfl, .inl rfl⟩
  | @fetchChunk k' i e he =>
    rcases lookup_of_insert hk with ⟨rfl, rfl⟩ | ⟨_, hold⟩
    · exact .inl ⟨e, he, rfl, rfl, rfl, .inr ⟨i, rfl⟩⟩
    · exact .inl ⟨e', hold, rfl, rfl, rfl, .inl rfl⟩
  | @place k' e he _ _ =>
    rcases lookup_of_insert hk with ⟨rfl, rfl⟩ | ⟨_, hold⟩
    · exact .inl ⟨e, he, rfl, rfl, rfl, .inl rfl⟩
    · exact .inl ⟨e', hold, rfl, rfl, rfl, .inl rfl⟩
  | commit _ | dropFetch =>
    exact .inl ⟨e', (lookup_of_erase hk).2, rfl, rfl, rfl, .inl rfl⟩
  | _ => exact .inl ⟨e', hk, rfl, rfl, rfl, .inl rfl⟩

theorem renames_of_step (hs : s.step cfg l = some s') {r : ℕ} {m : RelPath × RelPath}
    (hr : s'.renames.lookup r = some m) :
    s.renames.lookup r = some m ∨ l = .rename r m.1 m.2 := by
  cases steps_of_step hs with
  | rename =>
    rcases lookup_of_insert hr with ⟨rfl, rfl⟩ | ⟨_, hold⟩
    · exact .inr rfl
    · exact .inl hold
  | renamed _ => exact .inl (lookup_of_erase hr).2
  | _ => exact .inl hr

theorem Fresh.not_renamesOnto (h : s.Fresh p f) (hok : Unchanged p f s l) :
    s.renamesOnto p l = false := by
  cases l with
  | renamed r moves =>
    simp only [renamesOnto]
    split
    · next src dst hr => exact h.renames r (src, dst) hr
    · rfl
  | event kind path moves =>
    cases kind with
    | renamedFrom dst => exact hok
    | _ => rfl
  | _ => rfl

/-- **The file stays fresh** while it is not changed. -/
theorem Fresh.step (h : s.Fresh p f) (hok : Unchanged p f s l) (hs : s.step cfg l = some s') :
    s'.Fresh p f := by
  obtain ⟨hlatest, hcontent, htree⟩ := hok.files hs
  have hcur := hok.current hs
  refine ⟨h.wf.step hs, htree.trans h.tree, ?_, ?_, ?_, ?_⟩
  · intro fh hd' hh' hp hf
    rw [hlatest]
    rcases handles_of_step hs hh' with ⟨hd, hh, hgrow⟩ | ⟨o, call, rfl, ho, hnone, rfl⟩
    · have hf₀ := hgrow.file.symm.trans hf
      exact (h.held fh hd hh (hgrow.path.symm.trans hp) hf₀).step h.wf hh hf₀ le_rfl hs
    · exact heldAt_of_install h.wf hnone hs
  · intro data hb
    rw [hcur]
    rcases blobs_of_step hs hb with hb | hren | ⟨k, e, rfl, he, hpath, rfl, _, hall⟩
    · exact h.blob data hb
    · rw [h.not_renamesOnto hok] at hren
      cases hren
    · exact (h.fetches k e he hpath).2.data_eq hall
  · intro k e' hk hpath
    rw [hcur]
    rcases fetches_of_step hs hk with ⟨e, he, hp, hf, hattr, hparts⟩ | ⟨hto, hsize, hparts⟩
    · obtain ⟨hfile, hof⟩ := h.fetches k e he (hp.symm.trans hpath)
      refine ⟨hf.trans hfile, ?_⟩
      rcases hparts with hparts | ⟨i, hparts⟩
      · exact ⟨hattr ▸ hof.size, hparts ▸ hof.length, hparts ▸ hof.parts⟩
      · rw [hfile] at hparts
        have hset := CacheFetch.IsOf.set hof i
        exact ⟨hattr ▸ hset.size, hparts ▸ hset.length, hparts ▸ hset.parts⟩
    · have hfile : e'.file = f := by
        rw [hpath, h.tree] at hto
        exact (Option.some.inj hto).symm
      rw [hfile] at hsize
      exact ⟨hfile, isOf_new hsize hparts⟩
  · intro r m hr
    rcases renames_of_step hs hr with hr | rfl
    · exact h.renames r m hr
    · exact hok.2

/-! ## A read -/

/-- A read that began when the file was fresh: it returns what the server has. -/
structure FreshRead (p : RelPath) (f c fh offset size : ℕ) (s : ReadPath) : Prop where
  fresh : s.Fresh p f
  call : ∃ call, s.reads.lookup c = some call ∧ call.fh = fh ∧ call.file = f ∧
    call.offset = offset ∧ call.size = size ∧
    (call.isDone = false → ∃ h, s.handles.lookup fh = some h ∧ h.path = p ∧ h.file = f) ∧
    ∀ out, call.phase.out = some out → s.files.Answers f (s.files.latest f) offset size out

theorem read_stays (hs : s.step cfg l = some s') {c : ℕ} {call : ReadCall}
    (hc : s.reads.lookup c = some call) : ∃ call', s'.reads.lookup c = some call' := by
  have hinsert : ∀ c' call', ∃ call'', (s.reads.insert c' call').lookup c = some call'' := by
    intro c' call'
    by_cases heq : c = c'
    · exact ⟨call', heq ▸ AList.lookup_insert _⟩
    · exact ⟨call, by rw [AList.lookup_insert_ne heq, hc]⟩
  cases steps_of_step hs with
  | blob _ _ _ _ => exact hinsert _ _
  | blocks _ _ => exact hinsert _ _
  | advance _ _ _ => exact hinsert _ _
  | answerCall _ _ => exact hinsert _ _
  | _ => exact ⟨call, hc⟩

theorem Fresh.begin {c fh offset size : ℕ} {h : ReadHandle} (hfresh : s.Fresh p f)
    (hh : s.handles.lookup fh = some h) (hp : h.path = p) (hf : h.file = f)
    (hs : s.step cfg (.read c fh offset size) = some s') :
    FreshRead p f c fh offset size s' := by
  have hok : Unchanged p f s (.read c fh offset size) := trivial
  obtain ⟨hlatest, hcontent, -⟩ := hok.files hs
  refine ⟨hfresh.step hok hs, ?_⟩
  have hnone : s.reads.lookup c = none := by
    simp only [ReadPath.step] at hs
    split at hs
    · next hnone => exact hnone
    · cases hs
  obtain ⟨call, hc⟩ : ∃ call, s'.reads.lookup c = some call := by
    simp only [ReadPath.step, hh, hnone] at hs
    cases hs
    unfold startRead
    split
    · split <;> exact ⟨_, AList.lookup_insert _⟩
    · exact ⟨_, AList.lookup_insert _⟩
  rcases reads_of_step hs hc with ⟨call₀, hc₀, _⟩ | ⟨fh', offset', size', h', heq, _, hh', hb⟩
  · rw [hnone] at hc₀
    cases hc₀
  · cases heq
    cases hh.symm.trans hh'
    refine ⟨call, hc, hb.fh, hb.file.trans hf, hb.offset, hb.size, fun _ => ?_, ?_⟩
    · rcases handle_stays hs hh with ⟨h₁, hh₁⟩ | hdone
      · rcases handles_of_step hs hh₁ with ⟨h₀, hh₀, hgrow⟩ | ⟨_, _, heq, _⟩
        · cases hh.symm.trans hh₀
          exact ⟨h₁, hh₁, hgrow.path.trans hp, hgrow.file.trans hf⟩
        · cases heq
      · have := hdone c call hc hb.fh
        simp_all
    · intro out hout
      obtain ⟨_, hread⟩ := hb.out out hout
      obtain ⟨data, hdata, rfl⟩ := Option.map_eq_some_iff.mp hread
      rw [hp] at hdata
      rw [hfresh.blob data hdata, Files.current, ← hlatest, ← hcontent]
      exact Files.answers_of_content le_rfl le_rfl

theorem FreshRead.step {c fh offset size : ℕ} (h : FreshRead p f c fh offset size s)
    (hok : Unchanged p f s l) (hs : s.step cfg l = some s') :
    FreshRead p f c fh offset size s' := by
  obtain ⟨hlatest, -, -⟩ := hok.files hs
  refine ⟨h.fresh.step hok hs, ?_⟩
  obtain ⟨call, hc, hfh, hfile, hoffset, hsize, hopen, hout⟩ := h.call
  obtain ⟨call', hc'⟩ := read_stays hs hc
  rcases reads_of_step hs hc' with ⟨call₀, hc₀, hgo⟩ | ⟨_, _, _, _, _, hnone, _⟩
  · cases hc.symm.trans hc₀
    refine ⟨call', hc', hgo.continues.fh.trans hfh, hgo.continues.file.trans hfile,
      hgo.continues.offset.trans hoffset, hgo.continues.size.trans hsize, ?_, ?_⟩
    · intro hun'
      obtain ⟨hd, hh, hp, hf⟩ := hopen (hgo.undone hun')
      rcases handle_stays hs hh with ⟨hd', hh'⟩ | hdone
      · rcases handles_of_step hs hh' with ⟨hd₀, hh₀, hgrow⟩ | ⟨_, _, _, _, hnone, _⟩
        · cases hh.symm.trans hh₀
          exact ⟨hd', hh', hgrow.path.trans hp, hgrow.file.trans hf⟩
        · rw [hh] at hnone
          cases hnone
      · have hdone' := hdone c call' hc' (hgo.continues.fh.trans hfh)
        rw [hun'] at hdone'
        cases hdone'
    · intro out hout'
      rw [hlatest]
      apply Files.Answers.mono _ (extends_of_step hs)
      rcases hgo.out out hout' with hold | ⟨hun, ready, hready, hans⟩
      · exact hout out hold
      · -- its blocks are from the handle, which holds nothing else
        obtain ⟨hd, hh, hp, hf⟩ := hopen hun
        rw [hoffset, hsize] at hans
        apply Files.answers_of_pick le_rfl _ hans
        intro b data hb
        exact h.fresh.held fh hd hh hp hf b data (hfh ▸ hready b data hb)
  · rw [hc] at hnone
    cases hnone

/-- **After an event, reads are fresh**, if what the handles held when it came was not stale: a read
that starts after the event, on a handle that is open on the path, returns the bytes of the server,
as long as the file is not changed. -/
theorem fresh_after_event (cfg : CacheConfig) {s s₁ t t₁ u : ReadPath} {p : RelPath}
    {f fh c offset size : ℕ} {kind : EventKind} {moves : RelPath → Bool} {h : ReadHandle}
    {call : ReadCall} {out : Bytes} (hwf : s.Wf) (hup : s.UpToDate p f)
    (hkind : kind = .modified ∨ kind = .attrChanged ∨ kind = .created)
    (hev : s.step cfg (.event kind p moves) = some s₁)
    (hrun : Reaches (fun s => s.step cfg) (Unchanged p f) s₁ t)
    (hh : t.handles.lookup fh = some h) (hp : h.path = p) (hf : h.file = f)
    (hread : t.step cfg (.read c fh offset size) = some t₁)
    (hrun' : Reaches (fun s => s.step cfg) (Unchanged p f) t₁ u)
    (hc : u.reads.lookup c = some call) (hout : call.phase = .done (.ok out)) :
    out = ((u.files.current f).drop offset).take size := by
  have ht : t.Fresh p f :=
    hrun.invariant (Fresh p f) (hup.fresh hwf hkind hev) fun _ _ _ hi hok hs => hi.step hok hs
  have hu : FreshRead p f c fh offset size u :=
    hrun'.invariant (FreshRead p f c fh offset size) (ht.begin hh hp hf hread)
      fun _ _ _ hi hok hs => hi.step hok hs
  obtain ⟨call', hc', -, -, -, -, -, hans⟩ := hu.call
  cases hc.symm.trans hc'
  exact (hans out (by rw [hout]; rfl)).eq_current

/-! ## A block that is retained -/

/-- **A retained block outlives the event.**  The file is read, somebody else changes it, the event
comes, and the next read finds the block that was retained. -/
theorem stale_after_event :
    ∃ s₁ u call, exec (fun s => s.step noCache) (start oneFile .empty) (firstRead ++ firstEnd ++
        [.change 0 [66], .event .modified ⟨['a']⟩ fun _ => true]) = some s₁ ∧
      Reaches (fun s => s.step noCache) (Unchanged ⟨['a']⟩ 0) s₁ u ∧
      u.reads.lookup 1 = some call ∧ call.phase = .done (.ok [65]) ∧
      ((u.files.current 0).drop call.offset).take call.size = [66] := by
  obtain ⟨s₁, hs₁⟩ : ∃ s₁, exec (fun s => s.step noCache) (start oneFile .empty)
      (firstRead ++ firstEnd ++ [.change 0 [66], .event .modified ⟨['a']⟩ fun _ => true]) =
        some s₁ := ⟨_, rfl⟩
  have hrun : (exec (fun s => s.step noCache) s₁ (secondRead ++ secondEnd)).map (seen 1) =
      some (some ⟨true, some [65], 0, 0, 0, 1, 1, [66]⟩) := by
    cases hs₁
    decide +kernel
  have hok : Allowed (fun s => s.step noCache) (Unchanged ⟨['a']⟩ 0) s₁
      (secondRead ++ secondEnd) := by
    cases hs₁
    decide +kernel
  obtain ⟨u, hreach, hobs⟩ := exists_reaches_of_exec _ (seen 1) _ hok hrun
  obtain ⟨call, hc, hphase, hv⟩ := of_seen hobs rfl rfl
  simp only [ReadSeen.mk.injEq, true_and] at hv
  obtain ⟨hfile, -, hoffset, hsize, -, hcurrent⟩ := hv
  refine ⟨s₁, u, call, hs₁, hreach, hc, hphase, ?_⟩
  rw [← hfile] at hcurrent
  rw [← hcurrent, ← hoffset, ← hsize]
  rfl

/-- The attributes were changed, and the block that is retained is still the file's. -/
theorem fresh_after_attrChanged :
    ∃ s s₁ u call, exec (fun s => s.step noCache) (start oneFile .empty) (firstRead ++ firstEnd) =
        some s ∧
      s.step noCache (.event .attrChanged ⟨['a']⟩ fun _ => true) = some s₁ ∧
      exec (fun s => s.step noCache) s₁ (secondRead ++ secondEnd) = some u ∧
      u.reads.lookup 1 = some call ∧
      call.phase = .done (.ok (((u.files.current 0).drop 0).take 1)) := by
  obtain ⟨s, hs⟩ : ∃ s, exec (fun s => s.step noCache) (start oneFile .empty)
      (firstRead ++ firstEnd) = some s := ⟨_, rfl⟩
  obtain ⟨s₁, hs₁⟩ : ∃ s₁, s.step noCache (.event .attrChanged ⟨['a']⟩ fun _ => true) = some s₁ :=
    ⟨_, rfl⟩
  obtain ⟨t₁, ht₁, h, hh, hpath, hfile⟩ : ∃ t₁, s₁.step noCache (.read 1 1 0 1) = some t₁ ∧
      ∃ h, s₁.handles.lookup 1 = some h ∧ h.path = ⟨['a']⟩ ∧ h.file = 0 := by
    cases hs
    cases hs₁
    exact ⟨_, rfl, _, rfl, rfl, rfl⟩
  obtain ⟨hrun, hok⟩ :
      (exec (fun s => s.step noCache) t₁ (secondRead.tail ++ secondEnd)).map (seen 1) =
        some (some ⟨true, some [65], 0, 0, 0, 1, 0, [65]⟩) ∧
      Allowed (fun s => s.step noCache) (Unchanged ⟨['a']⟩ 0) t₁
      (secondRead.tail ++ secondEnd) := by
    cases hs
    cases hs₁
    cases ht₁
    decide +kernel
  obtain ⟨u, hu, hobs⟩ := Option.map_eq_some_iff.mp hrun
  obtain ⟨call, hc, hphase, -⟩ := of_seen hobs rfl rfl
  obtain ⟨hheld, hdone⟩ : (∀ e ∈ s.handles.entries, s.HeldAt e.1 0 (s.files.latest 0)) ∧
      ∀ e ∈ s.reads.entries, e.2.isDone = true := by
    cases hs
    decide +kernel
  have hup : s.UpToDate ⟨['a']⟩ 0 := by
    cases hs
    exact ⟨rfl, fun fh h hh _ _ => hheld _ (AList.mem_lookup_iff.mp hh), nofun, nofun, nofun⟩
  have hwf : s.Wf := by
    intro c call hc hun
    rw [hdone ⟨c, call⟩ (AList.mem_lookup_iff.mp hc)] at hun
    cases hun
  have hall : exec (fun s => s.step noCache) s₁ (secondRead ++ secondEnd) = some u := by
    rw [← hu]
    exact congrArg (fun o => Option.bind o fun s' => exec (fun s => s.step noCache) s'
      (secondRead.tail ++ secondEnd)) ht₁ |> (exec_cons _ _ _ _).trans
  have hout := fresh_after_event noCache hwf hup (.inr (.inl rfl)) hs₁ .refl hh hpath hfile ht₁
    (reaches_of_exec .refl _ hok hu) hc hphase
  rw [hout] at hphase
  exact ⟨s, s₁, u, call, hs, hs₁, hall, hc, hphase⟩

end ReadPath
end AlloyFs
