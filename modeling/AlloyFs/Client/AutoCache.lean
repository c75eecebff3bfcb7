import AlloyFs.Common.Exclude
import AlloyFs.Proto.Messages
import Mathlib.Data.List.AList
import Mathlib.Data.List.Sort

/-!
# The local copies of remote files

A mount keeps whole copies of small or pinned files on the local disk.  The entry of a copy, its
blob, says which attributes the file had when it was fetched, and a blob may serve a file whose
attributes are still these.
-/

namespace AlloyFs

open Function

/-- Nanoseconds since the epoch, zero before it. -/
def mtimeNs (t : SystemTime) : ℕ := t.toNat

structure CacheEntry where
  version : ℕ
  size : ℕ
  mtimeNs : ℕ
  pinned : Bool
  lastUsed : ℕ
  /-- cleared when the events may have a gap -/
  verified : Bool
deriving DecidableEq

/-- Size and time have to be the same, and the version if both sides know one. -/
def CacheEntry.isFresh (e : CacheEntry) (attr : Attr) : Bool :=
  decide (attr.size = e.size ∧ AlloyFs.mtimeNs attr.mtime = e.mtimeNs ∧
    (attr.version = e.version ∨ attr.version = 0 ∨ e.version = 0))

structure CacheConfig where
  maxFileSize : ℕ
  budget : ℕ
  /-- pins are matched as excludes are -/
  pins : ExcludeSet

/-- The entries, and the files below the directory of the cache. -/
structure AutoCache where
  entries : AList fun _ : RelPath => CacheEntry
  totalBytes : ℕ
  tick : ℕ
  blobs : RelPath → Option Bytes

variable {moves : RelPath → Bool}

namespace AutoCache

def empty : AutoCache := ⟨∅, 0, 1, fun _ => none⟩

def removeBlob (c : AutoCache) (path : RelPath) : AutoCache :=
  { c with blobs := update c.blobs path none }

/-- Is this file to be cached at all? -/
def wants (cfg : CacheConfig) (path : RelPath) (size : ℕ) : Bool :=
  cfg.pins.isExcluded path || (decide (0 < cfg.maxFileSize) && decide (size ≤ cfg.maxFileSize))

/-- May the blob serve reads, given an attribute of the server?  An entry that fits is verified. -/
def freshFor (c : AutoCache) (path : RelPath) (attr : Attr) : Bool × AutoCache :=
  let c := { c with tick := c.tick + 1 }
  match c.entries.lookup path with
  | none => (false, c)
  | some e =>
    if e.isFresh attr then
      (true,
        { c with entries := c.entries.insert path { e with lastUsed := c.tick, verified := true } })
    else (false, c)

/-- Read from the blob; none if it is not there. -/
def read (c : AutoCache) (path : RelPath) (offset len : ℕ) : Option Bytes :=
  (c.blobs path).map fun data => (data.drop offset).take len

def known (c : AutoCache) (path : RelPath) : Bool := (c.entries.lookup path).isSome

def needsFetch (c : AutoCache) (path : RelPath) (attr : Attr) : Bool :=
  match c.entries.lookup path with
  | some e => !e.isFresh attr
  | none => true

/-- Forget a file, entry and blob. -/
def invalidate (c : AutoCache) (path : RelPath) : AutoCache :=
  match c.entries.lookup path with
  | none => c
  | some e =>
    { c with
      entries := c.entries.erase path
      totalBytes := c.totalBytes - e.size }.removeBlob path

/-- The entries in the order of their paths. -/
def listed (c : AutoCache) : List (RelPath × CacheEntry) :=
  (c.entries.entries.map fun e => (e.1, e.2)).insertionSort fun a b => textLe a.1.text b.1.text

/-- Drop entries in the given order until `size` more bytes fit in the budget. -/
def evict (budget size : ℕ) : List (RelPath × CacheEntry) → AutoCache → AutoCache
  | [], c => c
  | (path, e) :: victims, c =>
    if c.totalBytes + size ≤ budget then c
    else
      evict budget size victims
        ({ c with
          entries := c.entries.erase path
          totalBytes := c.totalBytes - e.size }.removeBlob path)

/-- What may be dropped, least recently used first. -/
def victims (c : AutoCache) : List (RelPath × CacheEntry) :=
  (c.listed.filter fun e => !e.2.pinned).insertionSort fun a b => a.2.lastUsed ≤ b.2.lastUsed

/-- Record a file whose blob is in place. -/
def commit (cfg : CacheConfig) (c : AutoCache) (path : RelPath) (attr : Attr) (pinned : Bool) :
    AutoCache :=
  let c := { c with tick := c.tick + 1 }
  let c :=
    match c.entries.lookup path with
    | some old => { c with entries := c.entries.erase path, totalBytes := c.totalBytes - old.size }
    | none => c
  let c :=
    if cfg.budget < c.totalBytes + attr.size then evict cfg.budget attr.size c.victims c else c
  if !pinned && decide (cfg.budget < c.totalBytes + attr.size) &&
      decide (cfg.budget < attr.size) then
    -- larger than the whole budget
    c.removeBlob path
  else
    { c with
      totalBytes := c.totalBytes + attr.size
      entries := c.entries.insert path
        ⟨attr.version, attr.size, AlloyFs.mtimeNs attr.mtime, pinned, c.tick, true⟩ }

/-- Where a path is after a rename of it or of a directory above it. -/
def movedTo (src dst path : RelPath) : Option RelPath :=
  if path = src then some dst
  else if src.text ++ ['/'] <+: path.text then some ⟨dst.text ++ path.text.drop src.text.length⟩
  else none

/-- Move one entry with its blob; the blob may fail to move. -/
def moveEntry (moves : RelPath → Bool) (c : AutoCache) (old new : RelPath) : AutoCache :=
  match c.entries.lookup old with
  | none => c
  | some e =>
    let c' := { c with entries := c.entries.erase old }
    if moves old && (c.blobs old).isSome then
      { c' with
        entries := c'.entries.insert new e
        blobs := update (update c.blobs old none) new (c.blobs old) }
    else { c' with totalBytes := c.totalBytes - e.size }.removeBlob old

/-- A rename moves the entries at and below the path. -/
def rename (moves : RelPath → Bool) (c : AutoCache) (src dst : RelPath) : AutoCache :=
  (c.listed.filterMap fun e => (movedTo src dst e.1).map fun new => (e.1, new)).foldl
    (fun c m => c.moveEntry moves m.1 m.2) c

/-- Keep the blobs, to be checked when they are opened next. -/
def markAllUnverified (c : AutoCache) : AutoCache :=
  { c with entries := (c.listed.map fun e => (⟨e.1, { e.2 with verified := false }⟩ :
      Sigma fun _ : RelPath => CacheEntry)).toAList }

/-! ## The blobs

Only a rename puts a blob at another path; everything else leaves the blobs alone or drops some. -/

variable {c : AutoCache} {p q : RelPath} {data : Bytes}

theorem blobs_of_removeBlob (h : (c.removeBlob p).blobs q = some data) :
    q ≠ p ∧ c.blobs q = some data := by
  by_cases hq : q = p
  · subst hq
    simp [removeBlob] at h
  · simp only [removeBlob, update_of_ne hq] at h
    exact ⟨hq, h⟩

theorem blobs_of_invalidate (h : (c.invalidate p).blobs q = some data) : c.blobs q = some data := by
  unfold invalidate at h
  split at h
  · exact h
  · exact (blobs_of_removeBlob h).2

theorem blobs_invalidate_self (h : c.known p = true) : (c.invalidate p).blobs p = none := by
  obtain ⟨e, he⟩ := Option.isSome_iff_exists.mp h
  simp [invalidate, he, removeBlob]

theorem blobs_freshFor (c : AutoCache) (p : RelPath) (attr : Attr) :
    (c.freshFor p attr).2.blobs = c.blobs := by
  simp only [freshFor]
  split
  · rfl
  · split <;> rfl

theorem blobs_of_evict {budget size : ℕ} :
    ∀ {victims : List (RelPath × CacheEntry)} {c : AutoCache},
      (evict budget size victims c).blobs q = some data → c.blobs q = some data := by
  intro victims
  induction victims with
  | nil => exact id
  | cons v victims ih =>
    intro c h
    rw [evict] at h
    split at h
    · exact h
    · exact (blobs_of_removeBlob (ih h)).2

theorem blobs_of_commit {cfg : CacheConfig} {attr : Attr} {pinned : Bool}
    (h : (c.commit cfg p attr pinned).blobs q = some data) : c.blobs q = some data := by
  have hroom : ∀ c' : AutoCache,
      (if cfg.budget < c'.totalBytes + attr.size then evict cfg.budget attr.size c'.victims c'
        else c').blobs q = some data → c'.blobs q = some data := by
    intro c' h'
    split at h'
    · exact blobs_of_evict h'
    · exact h'
  have hkept :
      ∀ (c' : AutoCache) (b : Bool) (total : ℕ) (entries : AList fun _ : RelPath => CacheEntry),
      (if b then c'.removeBlob p else { c' with totalBytes := total, entries := entries }).blobs q =
        some data → c'.blobs q = some data := by
    intro c' b total entries h'
    split at h'
    · exact (blobs_of_removeBlob h').2
    · exact h'
  have hold : ∀ c' : AutoCache,
      (match c'.entries.lookup p with
        | some old =>
          { c' with entries := c'.entries.erase p, totalBytes := c'.totalBytes - old.size }
        | none => c').blobs = c'.blobs := by
    intro c'
    split <;> rfl
  have := hroom _ (hkept _ _ _ _ h)
  rwa [hold] at this

theorem movedTo_isSome_of_movedTo {src dst : RelPath} (h : movedTo src dst p = some q) :
    (movedTo dst src q).isSome = true := by
  unfold movedTo at h
  split at h
  · cases h
    simp [movedTo]
  · split at h
    · next hbelow =>
      cases h
      obtain ⟨rest, hrest⟩ := hbelow
      have hq : dst.text ++ ['/'] <+: dst.text ++ p.text.drop src.text.length := by
        rw [← hrest, List.append_assoc, List.drop_left, List.singleton_append]
        exact List.prefix_append_right_inj _ |>.mpr ⟨rest, rfl⟩
      simp [movedTo, hq]
      split <;> rfl
    · cases h

theorem blobs_of_moveEntry {old new : RelPath}
    (h : (c.moveEntry moves old new).blobs q = some data) :
    c.blobs q = some data ∨ q = new := by
  unfold moveEntry at h
  split at h
  · exact .inl h
  · split at h
    · by_cases hq : q = new
      · exact .inr hq
      · simp only [update_of_ne hq] at h
        left
        by_cases hq' : q = old
        · subst hq'
          simp at h
        · rwa [update_of_ne hq'] at h
    · exact .inl (blobs_of_removeBlob h).2

/-- **A rename puts blobs nowhere but at and below its target.** -/
theorem blobs_of_rename {src dst : RelPath} (h : (c.rename moves src dst).blobs q = some data) :
    c.blobs q = some data ∨ (movedTo dst src q).isSome = true := by
  have hfold : ∀ (ms : List (RelPath × RelPath)) (c : AutoCache),
      (∀ m ∈ ms, (movedTo dst src m.2).isSome = true) →
      (ms.foldl (fun c m => c.moveEntry moves m.1 m.2) c).blobs q = some data →
      c.blobs q = some data ∨ (movedTo dst src q).isSome = true := by
    intro ms
    induction ms with
    | nil => exact fun c _ h => .inl h
    | cons m ms ih =>
      intro c hms h
      rcases ih _ (fun m' hm' => hms m' (List.mem_cons_of_mem _ hm')) h with h | h
      · rcases blobs_of_moveEntry h with h | rfl
        · exact .inl h
        · exact .inr (hms m List.mem_cons_self)
      · exact .inr h
  apply hfold _ c _ h
  intro m hm
  obtain ⟨e, _, he⟩ := List.mem_filterMap.mp hm
  obtain ⟨new, hnew, rfl⟩ := Option.map_eq_some_iff.mp he
  exact movedTo_isSome_of_movedTo hnew

end AutoCache
end AlloyFs
