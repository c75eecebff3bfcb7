import AlloyFs.Agent.Ran

/-!
# Versions

The agent numbers the changes it knows of.  A path has the number of its last change, and
`0` if none is on record; a client that sends the number it saw last is refused when there
has been another change since.

The numbers are kept beside the file system, under the text of a path, and a request moves
them in one place only: at its end, if it succeeds.  `Request.mark` says which of them, and
`Ctx.handle_books` that every request does just that.  The watcher moves them too, when the
coalescer hands over a batch.

Since every number is new when it is given out, a number that a path has lost never comes
back to it (`Books.Advance`).
-/

namespace AlloyFs

/-- The versions of an export's paths, and the last one given out. -/
structure Books where
  versions : AList fun _ : RelPath => ℕ
  vclock : ℕ

namespace Books

def versionOf (b : Books) (path : RelPath) : ℕ := (b.versions.lookup path).getD 0

def bump (b : Books) (path : RelPath) : Books :=
  ⟨b.versions.insert path (b.vclock + 1), b.vclock + 1⟩

def renameVersion (b : Books) (src dst : RelPath) : Books :=
  bump ⟨b.versions.erase src, b.vclock⟩ dst

variable {b : Books} {path q : RelPath}

@[simp] theorem vclock_bump : (b.bump path).vclock = b.vclock + 1 := rfl

@[simp] theorem versionOf_bump_self : (b.bump path).versionOf path = b.vclock + 1 := by
  rw [versionOf, bump, AList.lookup_insert]
  rfl

theorem versionOf_bump_of_ne (h : q ≠ path) : (b.bump path).versionOf q = b.versionOf q := by
  rw [versionOf, bump, AList.lookup_insert_ne h]
  rfl

theorem versionOf_erase (src : RelPath) :
    versionOf ⟨b.versions.erase src, b.vclock⟩ q = if q = src then 0 else b.versionOf q := by
  split
  · next h =>
    rw [versionOf, h, AList.lookup_erase]
    rfl
  · next h =>
    rw [versionOf, AList.lookup_erase_ne h]
    rfl

/-! ## Numbers move forward -/

/-- Every path keeps its number, loses it, or gets one that was not given out before; and
no number is ahead of the clock. -/
structure Advance (b b' : Books) : Prop where
  clock : b.vclock ≤ b'.vclock
  version : ∀ q, b'.versionOf q = b.versionOf q ∨ b'.versionOf q = 0 ∨ b.vclock < b'.versionOf q
  bounded : (∀ q, b.versionOf q ≤ b.vclock) → ∀ q, b'.versionOf q ≤ b'.vclock

theorem Advance.refl (b : Books) : Advance b b := ⟨le_rfl, fun _ => .inl rfl, fun h => h⟩

theorem Advance.trans {b' b'' : Books} (h : Advance b b') (h' : Advance b' b'') :
    Advance b b'' where
  clock := h.clock.trans h'.clock
  version := fun q => by
    rcases h'.version q with hsame | hzero | hnew
    · rw [hsame]
      exact h.version q
    · exact .inr (.inl hzero)
    · exact .inr (.inr (lt_of_le_of_lt h.clock hnew))
  bounded := fun hb => h'.bounded (h.bounded hb)

theorem advance_bump (b : Books) (path : RelPath) : Advance b (b.bump path) where
  clock := Nat.le_succ _
  version := fun q => by
    by_cases h : q = path
    · rw [h, versionOf_bump_self]
      exact .inr (.inr (Nat.lt_succ_self _))
    · exact .inl (versionOf_bump_of_ne h)
  bounded := fun hb q => by
    by_cases h : q = path
    · rw [h, versionOf_bump_self, vclock_bump]
    · rw [versionOf_bump_of_ne h, vclock_bump]
      exact (hb q).trans (Nat.le_succ _)

theorem advance_renameVersion (b : Books) (src dst : RelPath) :
    Advance b (b.renameVersion src dst) := by
  have herase : Advance b ⟨b.versions.erase src, b.vclock⟩ := by
    refine ⟨le_rfl, fun q => ?_, fun hb q => ?_⟩
    · rw [versionOf_erase]
      split
      · exact .inr (.inl rfl)
      · exact .inl rfl
    · rw [versionOf_erase]
      split
      · exact Nat.zero_le _
      · exact hb q
  exact herase.trans (advance_bump _ dst)

theorem Advance.ne_of_ne {b' : Books} (h : Advance b b') {v : ℕ} (hv : v ≠ 0) (hle : v ≤ b.vclock)
    (hne : b.versionOf q ≠ v) : b'.versionOf q ≠ v := by
  rcases h.version q with hsame | hzero | hnew
  · rwa [hsame]
  · rw [hzero]
    exact hv.symm
  · omega

end Books

/-! ## What a request does to the versions -/

/-- Which versions a request moves when it succeeds. -/
inductive Mark
  | none
  | bump (path : RelPath)
  | rename (src dst : RelPath)
deriving DecidableEq

variable {q : RelPath}

namespace Mark

def apply : Mark → Books → Books
  | .none, b => b
  | .bump path, b => b.bump path
  | .rename src dst, b => b.renameVersion src dst

theorem advance_apply (m : Mark) (b : Books) : b.Advance (m.apply b) := by
  cases m with
  | none => exact .refl b
  | bump path => exact Books.advance_bump b path
  | rename src dst => exact Books.advance_renameVersion b src dst

/-- The paths whose versions move. -/
def paths : Mark → List RelPath
  | .none => []
  | .bump path => [path]
  | .rename src dst => [src, dst]

theorem versionOf_apply_of_notMem {m : Mark} (h : q ∉ m.paths) (b : Books) :
    (m.apply b).versionOf q = b.versionOf q := by
  cases m with
  | none => rfl
  | bump path => exact Books.versionOf_bump_of_ne fun he => h (he ▸ List.mem_singleton_self _)
  | rename src dst =>
    have hsrc : q ≠ src := fun he => h (he ▸ List.mem_cons_self)
    have hdst : q ≠ dst := fun he => h (he ▸ List.mem_cons_of_mem _ (List.mem_singleton_self _))
    refine (Books.versionOf_bump_of_ne hdst).trans ?_
    rw [Books.versionOf_erase, if_neg hsrc]

theorem versionOf_apply_ne {m : Mark} (h : q ∈ m.paths) {b : Books} {v : ℕ}
    (hv : v ≠ 0) (hle : v ≤ b.vclock) : (m.apply b).versionOf q ≠ v := by
  have hbump : ∀ b : Books, v ≤ b.vclock → (b.bump q).versionOf q ≠ v := by
    intro b hle
    rw [Books.versionOf_bump_self]
    omega
  cases m with
  | none => cases h
  | bump path =>
    obtain rfl := List.mem_singleton.mp h
    exact hbump b hle
  | rename src dst =>
    by_cases hdst : q = dst
    · subst hdst
      exact hbump ⟨b.versions.erase src, b.vclock⟩ hle
    · obtain rfl : q = src := by simpa [paths, hdst] using h
      have hlost : (Mark.apply (.rename q dst) b).versionOf q = 0 := by
        refine (Books.versionOf_bump_of_ne hdst).trans ?_
        rw [Books.versionOf_erase, if_pos rfl]
      rw [hlost]
      exact hv.symm

end Mark

/-- The versions a request moves when it succeeds; a write moves that of the path its handle
was opened under. -/
def Request.mark (hs : AList fun _ : ℕ => OpenFile) : Request → Mark
  | .openFile path flags => if flags.truncate then .bump path else .none
  | .create path _ _ | .setattr path _ _ _ | .mkdir path _ | .unlink path | .rmdir path =>
    .bump path
  | .link _ path | .symlink _ path => .bump path
  | .rename src dst _ => .rename src dst
  | .write fh _ _ _ => (hs.lookup fh).elim .none fun file => .bump file.path
  | _ => .none

def Agent.books (a : Agent) : Books := ⟨a.versions, a.vclock⟩

namespace Ctx

open Act

/-! ## What each handler does to the versions -/

/-- What the versions of a request depend on. -/
def bookView (c : Ctx) : Books × (AList fun _ : ℕ => OpenFile) := (c.books, c.me.handles)

/-- From these versions and handles the computation returns with the versions `b'`, or fails
and leaves them as they were. -/
def Marks {α : Type} (b : Books) (hs : AList fun _ : ℕ => OpenFile) (m : Handler α) (b' : Books) :
    Prop :=
  Triple (fun c => c.bookView = (b, hs)) m (fun _ c => c.books = b') fun c => c.books = b

section Marks

variable {x : Export} {req : Request} {c d : Ctx}

theorem Ran.books {r : Option Response} (h : Ran x c req r d) :
    d.books = (req.mark c.me.handles).apply c.books := by
  cases h with
  | looked h => cases req <;> first | rfl | cases h
  | touched h hreq => rcases hreq with ⟨_, _, _, rfl⟩ | ⟨_, rfl⟩ <;> rfl
  | @opened path flags =>
    rw [Request.mark]
    cases flags.truncate <;> rfl
  | written hon hro hfile =>
    rw [Request.mark, hfile]
    rfl
  | changed h hon hreq => cases req <;> cases hreq <;> rfl
  | _ => rfl

theorem Failed.books (h : Failed x c req d) : d.books = c.books := by
  cases h <;> rfl

/-- **The versions after a request**: those it marks have moved if it succeeded, and none if
it failed. -/
theorem handle_books {b : Books} {hs : AList fun _ : ℕ => OpenFile} (x : Export) (req : Request) :
    Marks b hs (handle x req) ((req.mark hs).apply b) := by
  intro c hc
  obtain ⟨rfl, rfl⟩ := Prod.mk.inj hc
  exact (ran_handle x req c).conseq (fun _ h => h) (fun _ _ h => h.books) (fun _ h => h.books) c rfl

end Marks

theorem advance_handle (x : Export) (req : Request) (c : Ctx) :
    c.books.Advance (final (handle x req c)).books := by
  have h := (handle_books x req : Marks c.books c.me.handles (handle x req) _) c rfl
  cases hrun : handle x req c with
  | ok r c' =>
    rw [hrun] at h
    exact h ▸ Mark.advance_apply _ _
  | error e c' =>
    rw [hrun] at h
    exact h ▸ .refl _

end Ctx

/-! ## The watcher -/

variable {batch : List (RelPath × EventKind)}

namespace Agent

/-- What one event of a batch does to the versions. -/
def markOf (item : RelPath × EventKind) : Mark :=
  match item.2 with
  | .renamedFrom dst => .rename item.1 dst
  | .removed => .none
  | _ => .bump item.1

/-- A batch of the coalescer: the versions first, then the subscribers. -/
def publishBatch (a : Agent) (batch : List (RelPath × EventKind)) : Agent :=
  if batch = [] then a
  else
    let b := batch.foldl (fun b item => (markOf item).apply b) a.books
    { a with
      versions := b.versions
      vclock := b.vclock
      events := (a.events.publish a.clock batch).1 }

theorem books_publishBatch (a : Agent) (batch : List (RelPath × EventKind)) :
    (a.publishBatch batch).books = batch.foldl (fun b item => (markOf item).apply b) a.books := by
  rw [publishBatch]
  split
  · next h => rw [h]; rfl
  · rfl

theorem advance_foldl_markOf (batch : List (RelPath × EventKind)) : ∀ b : Books,
    b.Advance (batch.foldl (fun b item => (markOf item).apply b) b) := by
  induction batch with
  | nil => exact .refl
  | cons item batch ih => exact fun b => (Mark.advance_apply (markOf item) b).trans (ih _)

theorem advance_publishBatch (a : Agent) (batch : List (RelPath × EventKind)) :
    a.books.Advance (a.publishBatch batch).books := by
  rw [books_publishBatch]
  exact advance_foldl_markOf batch a.books

theorem versionOf_publishBatch_of_notMem (a : Agent) (h : ∀ item ∈ batch, q ∉ (markOf item).paths) :
    (a.publishBatch batch).books.versionOf q = a.books.versionOf q := by
  rw [books_publishBatch]
  suffices ∀ b : Books, (batch.foldl (fun b item => (markOf item).apply b) b).versionOf q =
    b.versionOf q from this _
  induction batch with
  | nil => exact fun _ => rfl
  | cons item batch ih =>
    intro b
    rw [List.forall_mem_cons] at h
    exact (ih h.2 _).trans (Mark.versionOf_apply_of_notMem h.1 b)

end Agent
end AlloyFs
