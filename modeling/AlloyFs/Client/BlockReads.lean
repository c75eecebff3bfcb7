import AlloyFs.Client.ReadFlow

/-!
# Reads that are put together from blocks

While the server's file stays as it is, whatever a handle holds of it is its content: blocks that
are retained, fetched ahead, failed and fetched again.  A read then gives the bytes that were asked
for, up to the end of the file.
-/

namespace AlloyFs

/-! ## Without blocks -/

/-- The requests of a direct read of the bytes from `pos` to `stop`. -/
def directChunks (pos stop : ℕ) : List (ℕ × ℕ) :=
  if pos < stop then
    let want := min (stop - pos) DATA_CHUNK
    (pos, want) :: directChunks (pos + want) stop
  else []
termination_by stop - pos
decreasing_by
  have : 0 < DATA_CHUNK := by decide
  omega

/-- The answers to the requests, in order, up to a short one; `ok` says which requests the server
answers with data. -/
def directLoop (content : Bytes) (ok : ℕ → Bool) : List (ℕ × ℕ) → Option Bytes
  | [] => some []
  | (pos, want) :: rest =>
    if ok pos then
      let chunk := (content.drop pos).take want
      if chunk.length < want then some chunk else (directLoop content ok rest).map (chunk ++ ·)
    else none

def readBlocksDirect (content : Bytes) (ok : ℕ → Bool) (offset size : ℕ) : Option Bytes :=
  directLoop content ok (directChunks offset (offset + size))

theorem directLoop_directChunks (content : Bytes) (ok : ℕ → Bool) (pos stop : ℕ) :
    directLoop content ok (directChunks pos stop) = some ((content.drop pos).take (stop - pos)) ∨
      directLoop content ok (directChunks pos stop) = none ∧ ∃ p, ok p = false := by
  fun_induction directChunks pos stop with
  | case1 pos hlt want ih =>
    have hwant : want ≤ stop - pos := Nat.min_le_left _ _
    cases hok : ok pos with
    | false => exact .inr ⟨by simp [directLoop, hok], pos, hok⟩
    | true =>
      simp only [directLoop, hok, if_true, List.length_take]
      split
      · -- the file ends in this chunk
        rw [List.take_of_length_le (by omega), List.take_of_length_le (by omega)]
        exact .inl rfl
      · refine ih.imp (fun ih => ?_) fun ih => ⟨by rw [ih.1]; rfl, ih.2⟩
        rw [ih, Option.map_some, ← List.drop_drop, ← List.take_add]
        congr 2
        omega
  | case2 pos hge =>
    left
    simp [directLoop, Nat.sub_eq_zero_of_le (Nat.le_of_not_lt hge)]

namespace ReadPath

variable {cfg : CacheConfig} {s s' : ReadPath} {l : PathStep} {f : ℕ}

/-! ## From blocks -/

/-- The step leaves the bytes of the file, and does not read them from the blob. -/
def SameBytes (f : ℕ) (s : ReadPath) : PathStep → Prop
  | .chunk w _ _ => ∀ call ∈ s.writes.lookup w, call.file ≠ f
  | .truncate _ path _ => s.files.tree path ≠ some f
  | .change g _ => g ≠ f
  | .read _ fh _ _ => ∀ h ∈ s.handles.lookup fh, h.file = f → h.cacheOk = false
  | _ => True

instance (f : ℕ) (s : ReadPath) (l : PathStep) : Decidable (SameBytes f s l) :=
  decidable_of_iff ((match l with
    | .chunk w _ _ => (s.writes.lookup w).all (·.file != f)
    | .truncate _ path _ => s.files.tree path != some f
    | .change g _ => g != f
    | .read _ fh _ _ => (s.handles.lookup fh).all fun h => h.file != f || !h.cacheOk
    | _ => true) = true) (by cases l <;> simp [SameBytes, Option.all_eq_true, imp_iff_not_or])

/-- What is held of the file is its content, and so is what the reads return. -/
structure Steady (f : ℕ) (s : ReadPath) : Prop where
  wf : s.Wf
  held : ∀ fh h, s.handles.lookup fh = some h → h.file = f → s.HeldAt fh f (s.files.latest f)
  out : ∀ c call, s.reads.lookup c = some call → call.file = f →
    ∀ out, call.phase.out = some out →
      s.files.Answers f (s.files.latest f) call.offset call.size out

theorem SameBytes.latest (hok : SameBytes f s l) (hs : s.step cfg l = some s') :
    s'.files.latest f = s.files.latest f := by
  cases steps_of_step hs with
  | chunk hw => simp [Files.change, (hok _ hw).symm]
  | truncate hg => simp [Files.change, show f ≠ _ from fun heq => hok (heq ▸ hg)]
  | change => simp [Files.change, Ne.symm hok]
  | _ => rfl

theorem Steady.step (h : s.Steady f) (hok : SameBytes f s l) (hs : s.step cfg l = some s') :
    s'.Steady f := by
  have hlatest := hok.latest hs
  refine ⟨h.wf.step hs, ?_, ?_⟩
  · intro fh hd' hh' hf
    rw [hlatest]
    rcases handles_of_step hs hh' with ⟨hd, hh, hgrow⟩ | ⟨o, call, rfl, ho, hnone, rfl⟩
    · have hf₀ := hgrow.file.symm.trans hf
      exact (h.held fh hd hh hf₀).step h.wf hh hf₀ le_rfl hs
    · exact heldAt_of_install h.wf hnone hs
  · intro c call' hc' hf out hout
    rw [hlatest]
    apply Files.Answers.mono _ (extends_of_step hs)
    rcases reads_of_step hs hc' with ⟨call, hc, hgo⟩ | ⟨fh, offset, size, hd, rfl, _, hh, hb⟩
    · have hf₀ := hgo.continues.file.symm.trans hf
      rw [hgo.continues.offset, hgo.continues.size]
      rcases hgo.out out hout with hold | ⟨hun, ready, hready, hans⟩
      · exact h.out c call hc hf₀ out hold
      · obtain ⟨hd, hh, hfile⟩ := h.wf c call hc hun
        refine Files.answers_of_pick le_rfl (fun b data hb => ?_) hans
        exact h.held call.fh hd hh (hfile.trans hf₀) b data (hready b data hb)
    · -- without the flag, a read starts with nothing
      have hflag := (hb.out out hout).1
      rw [hok hd hh (hb.file.symm.trans hf)] at hflag
      cases hflag

theorem steady_start (files : Files) (cache : AutoCache) (f : ℕ) : (start files cache).Steady f :=
  ⟨nofun, nofun, nofun⟩

/-- **Reads from blocks are right.**  In every run that leaves the file as it is, a read of it that
succeeds has returned the bytes from its offset on, as many as were asked for and there are; and so
does a direct read, unless a request fails. -/
theorem block_reads_right (cfg : CacheConfig) (files : Files) (cache : AutoCache) (f : ℕ)
    {s : ReadPath} (hrun : Reaches (fun s => s.step cfg) (SameBytes f) (start files cache) s) :
    (∀ c call out, s.reads.lookup c = some call → call.file = f → call.phase = .done (.ok out) →
      out = ((s.files.current f).drop call.offset).take call.size) ∧
    ∀ ok offset size, readBlocksDirect (s.files.current f) ok offset size =
        some (((s.files.current f).drop offset).take size) ∨
      readBlocksDirect (s.files.current f) ok offset size = none ∧ ∃ p, ok p = false := by
  have hsteady : s.Steady f :=
    hrun.invariant (Steady f) (steady_start files cache f) fun _ _ _ hi hok hs => hi.step hok hs
  constructor
  · intro c call out hc hf hout
    exact (hsteady.out c call hc hf out (by rw [hout]; rfl)).eq_current
  · intro ok offset size
    have hdirect := directLoop_directChunks (s.files.current f) ok offset (offset + size)
    rwa [Nat.add_sub_cancel_left] at hdirect

/-- The second read is served from the block that the first has retained. -/
theorem block_reads_right_twice : ∃ s : ReadPath,
    (∀ call out, s.reads.lookup 1 = some call → call.file = 0 → call.phase = .done (.ok out) →
      out = ((s.files.current 0).drop call.offset).take call.size) ∧
    s.seen 1 = some ⟨true, some [65], 0, 0, 0, 1, 0, [65]⟩ :=
  exists_of_run (firstRead ++ firstEnd ++ secondRead ++ secondEnd) (by decide +kernel)
    (fun _ hrun => (block_reads_right noCache oneFile .empty 0 hrun).1 1) (by decide +kernel)

end ReadPath
end AlloyFs
