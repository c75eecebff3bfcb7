import AlloyFs.Client.AutoCache
import AlloyFs.Lib.Transition

/-!
# Local copies after a gap in the events

A reconnect, a request to resync and a lagged stream leave a gap: files may have changed and no
event told so.  The entries of the cache are marked unverified then, at least for the first two,
and an entry is verified again when an attribute of the server fits it.

But a read does not look at the entry.  Whether it may be served from the blob is decided when
its handle is opened, and kept in a flag of the handle, and no gap resets this flag.
-/

namespace AlloyFs

open Function

/-- What a read looks at of an open handle, and how many gaps there had been when it was opened. -/
structure FlaggedHandle where
  path : RelPath
  cacheOk : Bool
  opened : ℕ

/-- An attribute the server gave, with the number of gaps before that. -/
structure Obtained where
  path : RelPath
  attr : Attr
  since : ℕ

/-- A read that was served from a blob. -/
structure Serving where
  fh : ℕ
  path : RelPath
  /-- the handle was open when the last gap came -/
  old : Bool
  /-- the entry has been compared since, with an attribute obtained since -/
  checked : Bool
deriving DecidableEq

structure CachedMount where
  cache : AutoCache
  handles : ℕ → Option FlaggedHandle
  /-- opens that the server has answered -/
  opens : ℕ → Option Obtained
  /-- fetches that the server has answered; the blob of some is in place -/
  fetches : ℕ → Option Obtained
  /-- how many gaps there have been -/
  gaps : ℕ
  /-- the entries compared since the last gap with an attribute obtained since -/
  checked : RelPath → Bool
  served : List Serving

inductive CachedStep
  /-- the server answers an open; the call goes on -/
  | ask (id : ℕ) (path : RelPath) (attr : Attr)
  | install (id fh : ℕ)
  | create (fh : ℕ) (path : RelPath)
  | release (fh : ℕ)
  | read (fh offset size : ℕ)
  /-- `mark_path_written`, after a write or a truncation -/
  | markPathWritten (path : RelPath)
  | remove (path : RelPath)
  | rename (src dst : RelPath) (moves : RelPath → Bool)
  /-- the fetcher opens a file, has read all of it and puts it in place, and records it -/
  | fetch (id : ℕ) (path : RelPath) (attr : Attr)
  | place (id : ℕ) (data : Bytes)
  | commit (id : ℕ) (pinned : Bool)
  /-- the pump handles an event -/
  | event (kind : EventKind) (path : RelPath) (moves : RelPath → Bool)
  | lagged
  /-- the supervisor has swapped in a new connection -/
  | reconnected

/-- The steps that are a gap. -/
def CachedStep.isGap : CachedStep → Bool
  | .lagged | .reconnected | .event .resyncRequired _ _ => true
  | _ => false

namespace CachedMount

def init (cache : AutoCache) : CachedMount :=
  ⟨cache, fun _ => none, fun _ => none, fun _ => none, 0, fun _ => false, []⟩

/-- A gap, seen from outside: nothing has been compared since. -/
def gap (s : CachedMount) (cache : AutoCache) : CachedMount :=
  { s with cache := cache, gaps := s.gaps + 1, checked := fun _ => false }

/-- An entry was compared with an attribute. -/
def compared (s : CachedMount) (o : Obtained) : CachedMount :=
  if o.since = s.gaps ∧ s.cache.known o.path = true then
    { s with checked := update s.checked o.path true }
  else s

/-- Which entries have been compared, after entries have moved. -/
def movedChecks (checked : RelPath → Bool) (cache : AutoCache) (src dst : RelPath) :
    RelPath → Bool :=
  (cache.listed.filterMap fun e => (AutoCache.movedTo src dst e.1).map fun new => (e.1, new)).foldl
    (fun checked m => update (update checked m.1 false) m.2 (checked m.1)) checked

def renamed (s : CachedMount) (src dst : RelPath) (moves : RelPath → Bool) : CachedMount :=
  { s with
    cache := s.cache.rename moves src dst
    checked := movedChecks s.checked s.cache src dst }

/-- What `RemoteFs::read` does with the cache. -/
def readCached (s : CachedMount) (fh offset size : ℕ) (h : FlaggedHandle) : CachedMount :=
  if h.cacheOk then
    match s.cache.read h.path offset size with
    | some _ =>
      { s with served := ⟨fh, h.path, decide (h.opened < s.gaps),
          s.cache.known h.path && s.checked h.path⟩ :: s.served }
    -- the blob vanished: on to the network
    | none => { s with handles := update s.handles fh (some { h with cacheOk := false }) }
  else s

def onEvent (s : CachedMount) (kind : EventKind) (path : RelPath) (moves : RelPath → Bool) :
    CachedMount :=
  match kind with
  | .modified | .attrChanged | .created => { s with cache := s.cache.invalidate path }
  | .removed => { s with cache := s.cache.invalidate path }
  | .renamedFrom dst => s.renamed path dst moves
  | .resyncRequired => s.gap s.cache.markAllUnverified

def step (cfg : CacheConfig) (s : CachedMount) : CachedStep → Option CachedMount
  | .ask id path attr => some { s with opens := update s.opens id (some ⟨path, attr, s.gaps⟩) }
  | .install id fh =>
    match s.opens id, s.handles fh with
    | some o, none =>
      let (fresh, cache) := s.cache.freshFor o.path o.attr
      let s := s.compared o
      some { s with
        cache := cache
        opens := update s.opens id none
        handles := update s.handles fh (some ⟨o.path, fresh, s.gaps⟩) }
    | _, _ => none
  | .create fh path =>
    match s.handles fh with
    | none => some { s with handles := update s.handles fh (some ⟨path, false, s.gaps⟩) }
    | some _ => none
  | .release fh => some { s with handles := update s.handles fh none }
  | .read fh offset size => (s.handles fh).map (s.readCached fh offset size)
  | .markPathWritten path =>
    some { s with
      cache := s.cache.invalidate path
      handles := fun fh => (s.handles fh).map fun h =>
        if h.path = path then { h with cacheOk := false } else h }
  | .remove path => some { s with cache := s.cache.invalidate path }
  | .rename src dst moves => some (s.renamed src dst moves)
  | .fetch id path attr =>
    let s := s.compared ⟨path, attr, s.gaps⟩
    if AutoCache.wants cfg path attr.size && s.cache.needsFetch path attr then
      some { s with fetches := update s.fetches id (some ⟨path, attr, s.gaps⟩) }
    else some s
  | .place id data =>
    (s.fetches id).map fun o =>
      { s with cache := { s.cache with blobs := update s.cache.blobs o.path (some data) } }
  | .commit id pinned =>
    (s.fetches id).map fun o =>
      { s with
        cache := s.cache.commit cfg o.path o.attr pinned
        fetches := update s.fetches id none
        -- the entry is the attribute it was fetched for
        checked := update s.checked o.path (decide (o.since = s.gaps)) }
  | .event kind path moves => some (s.onEvent kind path moves)
  -- only the attribute cache is flushed
  | .lagged => some (s.gap s.cache)
  | .reconnected => some (s.gap s.cache.markAllUnverified)

/-- **Nothing cached is trusted across a gap.** -/
def Distrusts (s : CachedMount) : Prop := ∀ r ∈ s.served, r.old = true → r.checked = true

/-- The condition: when a gap comes, no open handle is to be served from a blob. -/
def flagsDown (s : CachedMount) (l : CachedStep) : Prop :=
  l.isGap = true → ∀ fh, ∀ h ∈ s.handles fh, h.cacheOk = false

/-! ## Runs -/

variable {cfg : CacheConfig} {s s' : CachedMount} {l : CachedStep}

/-- What a step that is no gap does: a handle is new, or it is one that was there and its flag is
not raised; and a read that is served from a blob has its flag set. -/
structure Carries (s s' : CachedMount) : Prop where
  gaps : s'.gaps = s.gaps
  handles : ∀ fh, ∀ h' ∈ s'.handles fh, h'.opened = s.gaps ∨ ∃ h ∈ s.handles fh,
    h'.opened = h.opened ∧ (h.cacheOk = false → h'.cacheOk = false)
  served : ∀ r ∈ s'.served, r ∈ s.served ∨
    ∃ h ∈ s.handles r.fh, h.cacheOk = true ∧ r.old = decide (h.opened < s.gaps)

theorem Carries.of_eq (hgaps : s'.gaps = s.gaps) (hserved : s'.served = s.served)
    (hh : s'.handles = s.handles) : s.Carries s' where
  gaps := hgaps
  handles _ h hmem := .inr ⟨h, hh ▸ hmem, rfl, fun hflag => hflag⟩
  served _ hr := .inl (hserved ▸ hr)

theorem Carries.of_update {fh : ℕ} {next : Option FlaggedHandle} (hgaps : s'.gaps = s.gaps)
    (hserved : s'.served = s.served) (hh : s'.handles = update s.handles fh next)
    (hnext : ∀ h' ∈ next, h'.opened = s.gaps ∨ ∃ h ∈ s.handles fh,
      h'.opened = h.opened ∧ (h.cacheOk = false → h'.cacheOk = false)) : s.Carries s' where
  gaps := hgaps
  handles fh' h' hmem := by
    rw [hh] at hmem
    by_cases heq : fh' = fh
    · subst heq
      rw [update_self] at hmem
      exact hnext h' hmem
    · rw [update_of_ne heq] at hmem
      exact .inr ⟨h', hmem, rfl, fun hflag => hflag⟩
  served r hr := .inl (hserved ▸ hr)

theorem compared_eq (s : CachedMount) (o : Obtained) :
    (s.compared o).gaps = s.gaps ∧ (s.compared o).served = s.served ∧
      (s.compared o).handles = s.handles := by
  rw [compared]
  split <;> exact ⟨rfl, rfl, rfl⟩

theorem carries_readCached {fh : ℕ} {h : FlaggedHandle} (hh : s.handles fh = some h)
    (offset size : ℕ) : s.Carries (s.readCached fh offset size h) := by
  rw [readCached]
  split
  · next hflag =>
    split
    · refine ⟨rfl, (Carries.of_eq rfl rfl rfl).handles, fun r hr => ?_⟩
      rcases List.mem_cons.mp hr with rfl | hr
      · exact .inr ⟨h, hh, hflag, rfl⟩
      · exact .inl hr
    · refine .of_update rfl rfl rfl fun h' hh' => ?_
      cases hh'
      exact .inr ⟨h, hh, rfl, fun _ => rfl⟩
  · exact .of_eq rfl rfl rfl

/-- **What a step does to the flags.**  A gap does nothing to them, nor to the blobs. -/
theorem step_cases (h : s.step cfg l = some s') :
    (l.isGap = true ∧ ∃ cache, s' = s.gap cache ∧ cache.blobs = s.cache.blobs) ∨
      (l.isGap = false ∧ s.Carries s') := by
  cases l with
  | ask call path attr =>
    cases h
    exact .inr ⟨rfl, .of_eq rfl rfl rfl⟩
  | install call fh =>
    simp only [step] at h
    split at h
    · next o _ _ =>
      obtain ⟨hgaps, hserved, hhandles⟩ := compared_eq s o
      cases h
      have hset (next : Option FlaggedHandle) : update (s.compared o).handles fh next =
          update s.handles fh next := by rw [hhandles]
      refine .inr ⟨rfl, .of_update hgaps hserved (hset _) fun h' hh' => ?_⟩
      cases hh'
      exact .inl hgaps
    · cases h
  | create fh path =>
    simp only [step] at h
    split at h
    · cases h
      refine .inr ⟨rfl, .of_update rfl rfl rfl fun h' hh' => ?_⟩
      cases hh'
      exact .inl rfl
    · cases h
  | release fh =>
    cases h
    exact .inr ⟨rfl, .of_update rfl rfl rfl nofun⟩
  | read fh offset size =>
    obtain ⟨h', hh', rfl⟩ := Option.map_eq_some_iff.mp h
    exact .inr ⟨rfl, carries_readCached hh' offset size⟩
  | markPathWritten path =>
    cases h
    refine .inr ⟨rfl, rfl, fun fh h' hh' => ?_, fun r hr => .inl hr⟩
    obtain ⟨h, hh, rfl⟩ := Option.map_eq_some_iff.mp hh'
    refine .inr ⟨h, hh, ?_, fun hflag => ?_⟩
    · split <;> rfl
    · split
      · rfl
      · exact hflag
  | remove path =>
    cases h
    exact .inr ⟨rfl, .of_eq rfl rfl rfl⟩
  | rename src dst moves =>
    cases h
    exact .inr ⟨rfl, .of_eq rfl rfl rfl⟩
  | fetch call path attr =>
    obtain ⟨hgaps, hserved, hhandles⟩ := compared_eq s ⟨path, attr, s.gaps⟩
    simp only [step] at h
    split at h <;> cases h <;> exact .inr ⟨rfl, .of_eq hgaps hserved hhandles⟩
  | place call data =>
    obtain ⟨o, -, rfl⟩ := Option.map_eq_some_iff.mp h
    exact .inr ⟨rfl, .of_eq rfl rfl rfl⟩
  | commit call pinned =>
    obtain ⟨o, -, rfl⟩ := Option.map_eq_some_iff.mp h
    exact .inr ⟨rfl, .of_eq rfl rfl rfl⟩
  | event kind path moves =>
    cases h
    cases kind with
    | resyncRequired => exact .inl ⟨rfl, _, rfl, rfl⟩
    | _ => exact .inr ⟨rfl, .of_eq rfl rfl rfl⟩
  | lagged =>
    cases h
    exact .inl ⟨rfl, _, rfl, rfl⟩
  | reconnected =>
    cases h
    exact .inl ⟨rfl, _, rfl, rfl⟩

/-- No handle is from the future. -/
def Dated (s : CachedMount) : Prop := ∀ fh, ∀ h ∈ s.handles fh, h.opened ≤ s.gaps

theorem dated_init (cache : AutoCache) : (init cache).Dated :=
  fun _ h hh => absurd hh (Option.not_mem_none h)

theorem Dated.step (hd : s.Dated) (h : s.step cfg l = some s') : s'.Dated := by
  intro fh h' hh'
  rcases step_cases h with ⟨-, cache, rfl, -⟩ | ⟨-, hc⟩
  · exact (hd fh h' hh').trans (Nat.le_succ _)
  · rw [hc.gaps]
    rcases hc.handles fh h' hh' with heq | ⟨h, hh, heq, -⟩
    · exact heq.le
    · exact heq ▸ hd fh h hh

/-- A handle from before the last gap has its flag down, and no such handle was served unchecked. -/
def Inv (s : CachedMount) : Prop :=
  (∀ fh, ∀ h ∈ s.handles fh, h.opened < s.gaps → h.cacheOk = false) ∧ s.Distrusts

theorem inv_init (cache : AutoCache) : (init cache).Inv :=
  ⟨fun _ h hh => absurd hh (Option.not_mem_none h), fun _ hr => absurd hr List.not_mem_nil⟩

theorem Inv.step (hi : s.Inv) (hok : s.flagsDown l) (h : s.step cfg l = some s') : s'.Inv := by
  rcases step_cases h with ⟨hgap, cache, rfl, -⟩ | ⟨-, hc⟩
  · exact ⟨fun fh h hh _ => hok hgap fh h hh, hi.2⟩
  · constructor
    · intro fh h' hh' hlt
      rw [hc.gaps] at hlt
      rcases hc.handles fh h' hh' with heq | ⟨h, hh, heq, hflag⟩
      · exact absurd hlt heq.not_lt
      · exact hflag (hi.1 fh h hh (heq ▸ hlt))
    · intro r hr hold
      rcases hc.served r hr with hr | ⟨h, hh, hflag, hdate⟩
      · exact hi.2 r hr hold
      · -- a flag that is set belongs to a handle from after the gap
        rw [hdate, decide_eq_true_eq] at hold
        rw [hi.1 _ h hh hold] at hflag
        cases hflag

/-- **No blob is trusted across a gap** in any run in which no flag is set when a gap comes.  A
flag that is set when one comes, with its blob in place, makes the next read break the rule. -/
theorem distrusts_of_flagsDown (cfg : CacheConfig) (cache : AutoCache) :
    (∀ s, Reaches (step cfg) flagsDown (init cache) s → s.Distrusts) ∧
    ∀ s l s' fh h, Reaches (step cfg) (fun _ _ => True) (init cache) s → l.isGap = true →
      s.step cfg l = some s' → s.handles fh = some h → h.cacheOk = true →
      (s.cache.blobs h.path).isSome = true →
      ∃ s'', s'.step cfg (.read fh 0 1) = some s'' ∧ ¬ s''.Distrusts := by
  constructor
  · intro s hreach
    exact (hreach.invariant Inv (inv_init cache) fun _ _ _ hi hok hs => hi.step hok hs).2
  · intro s l s' fh h hreach hgap hstep hfh hflag hblob
    have hdated : s.Dated :=
      hreach.invariant Dated (dated_init cache) fun _ _ _ hd _ hs => hd.step hs
    obtain ⟨-, cache', rfl, hblobs⟩ := (step_cases hstep).resolve_right fun hno => by
      rw [hgap] at hno
      exact Bool.noConfusion hno.1
    obtain ⟨data, hdata⟩ := Option.isSome_iff_exists.mp hblob
    have hread : cache'.read h.path 0 1 = some ((data.drop 0).take 1) := by
      rw [AutoCache.read, hblobs, hdata]
      rfl
    refine ⟨(s.gap cache').readCached fh 0 1 h, ?_, ?_⟩
    · rw [step, gap, hfh]
      rfl
    · intro hall
      have hlt : h.opened < (s.gap cache').gaps :=
        Nat.lt_succ_of_le (hdated fh h hfh)
      rw [readCached, if_pos hflag] at hall
      simp only [gap, hread] at hall
      have := hall _ List.mem_cons_self (decide_eq_true hlt)
      simp at this

/-! ## A file that is cached -/

/-- The attribute of a file of one byte. -/
def oneByte : Attr := ⟨.file, 1, 7, 7, 0o644, 0⟩

/-- A cache with a copy of the file `a`. -/
def cachedFile : AutoCache where
  entries := AList.insert ⟨['a']⟩ ⟨0, 1, 7, false, 1, true⟩ ∅
  totalBytes := 1
  tick := 2
  blobs := fun p => if p = ⟨['a']⟩ then some [65] else none

def smallCache : CacheConfig := ⟨1024, 10000, .none⟩

/-- The file is opened, the gap comes, and the file is read: from the blob, and nothing was asked
of the server since. -/
def TrustedAcross (l : CachedStep) : Prop :=
  ∃ s, exec (step smallCache) (init cachedFile)
      [.ask 0 ⟨['a']⟩ oneByte, .install 0 1, l, .read 1 0 1] = some s ∧
    s.served = [⟨1, ⟨['a']⟩, true, false⟩] ∧ ¬ s.Distrusts

theorem trustedAcross_of_served (hs : exec (step smallCache) (init cachedFile)
      [.ask 0 ⟨['a']⟩ oneByte, .install 0 1, l, .read 1 0 1] = some s)
    (hserved : s.served = [⟨1, ⟨['a']⟩, true, false⟩]) : TrustedAcross l := by
  refine ⟨s, hs, hserved, fun hall => ?_⟩
  have := hall _ (hserved ▸ List.mem_cons_self) rfl
  cases this

/-- **A blob is trusted across a gap**, whichever of the three it is. -/
theorem trusted_across_gap :
    TrustedAcross .reconnected ∧ TrustedAcross (.event .resyncRequired ⟨[]⟩ fun _ => true) ∧
      TrustedAcross .lagged :=
  ⟨trustedAcross_of_served rfl (by decide +kernel),
    trustedAcross_of_served rfl (by decide +kernel),
    trustedAcross_of_served rfl (by decide +kernel)⟩

/-- The file `b` has no copy, and the handle on it has its flag down when the gap comes. -/
def uncachedOpen : List CachedStep := [.ask 0 ⟨['b']⟩ oneByte, .install 0 1]

/-- The gap comes, the file is read from the server, and the file `a` is opened and read from its
copy. -/
def reopenAfterGap : List CachedStep :=
  [.reconnected, .read 1 0 1, .ask 1 ⟨['a']⟩ oneByte, .install 1 2, .read 2 0 1]

theorem distrusts_reopened :
    ∃ s, exec (step smallCache) (init cachedFile) (uncachedOpen ++ reopenAfterGap) = some s ∧
      s.served = [⟨2, ⟨['a']⟩, false, true⟩] ∧ s.Distrusts := by
  obtain ⟨s, hs⟩ : ∃ s, exec (step smallCache) (init cachedFile) uncachedOpen = some s := ⟨_, rfl⟩
  obtain ⟨t, ht, hserved⟩ : ∃ t, exec (step smallCache) s reopenAfterGap = some t ∧
      t.served = [⟨2, ⟨['a']⟩, false, true⟩] := by
    cases hs
    exact ⟨_, rfl, by decide +kernel⟩
  have hall :
      exec (step smallCache) (init cachedFile) (uncachedOpen ++ reopenAfterGap) = some t := by
    rw [exec_append, hs, Option.bind_some, ht]
  refine ⟨t, hall, hserved, (distrusts_of_flagsDown smallCache cachedFile).1 t ?_⟩
  have hno : ∀ (ls : List CachedStep) (s : CachedMount), (∀ l ∈ ls, l.isGap = false) →
      Allowed (step smallCache) flagsDown s ls := by
    intro ls
    induction ls with
    | nil => exact fun _ _ => trivial
    | cons l ls ih =>
      refine fun s h => ⟨fun hgap => ?_, fun s' _ => ih s' fun l' hl' => h l' (.tail l hl')⟩
      rw [h l (.head ls)] at hgap
      cases hgap
  refine reaches_of_exec (reaches_of_exec .refl uncachedOpen (hno _ _ (by decide)) hs) _ ?_ ht
  refine ⟨fun _ fh h hh => ?_, fun s' _ => hno _ s' (by decide)⟩
  have hhandles : s.handles = update (fun _ => none) 1 (some ⟨⟨['b']⟩, false, 0⟩) := by
    cases hs
    rfl
  rw [hhandles] at hh
  by_cases heq : fh = 1
  · subst heq
    cases hh
    rfl
  · rw [update_of_ne heq] at hh
    cases hh

end CachedMount
end AlloyFs
