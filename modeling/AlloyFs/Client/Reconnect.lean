import AlloyFs.Agent.Edits
import AlloyFs.Client.Handles

/-!
# What reconnecting does to the server

When the connection of a mount dies, its supervisor dials a new one, attaches again,
opens every live handle again with the flags it was first opened with, and takes its
lock again.  This module runs those requests against the agent's handlers and follows
the content of the files.

Attaching and locking change no file.  Opening changes one when the flags ask for
truncation: the intent of the first `open` or `create` is carried out a second time, on
whatever was written since.  So the files stay as they are exactly when no handle that
is opened again has the truncate flag and leads to a file that is not empty.
-/

namespace AlloyFs

/-- The server sees the request of the supervisor for a handle, or the connection is
lost first. -/
structure Reopen where
  state : OpenState
  reached : Bool

namespace Reconnect

open Ctx

/-- Take a lock again; a lock that is still held by the old session is tried a few
times. -/
def replayLock (x : Export) (fh : ℕ) (kind : LockKind) : ℕ → Ctx → Bool × Ctx
  | 0, c => (false, c)
  | n + 1, c =>
    match handle x (.lock fh kind false) c with
    | .ok (some .ok) c' => (true, c')
    | .error .wouldBlock c' => replayLock x fh kind n c'
    | .ok _ c' => (false, c')
    | .error _ c' => (false, c')

/-- Open one handle again and take its lock again; the answer is the number the handle
has in the new session, and whether a lock was lost. -/
def reopen (x : Export) (item : Reopen) (c : Ctx) : Option ℕ × Bool × Ctx :=
  if item.reached = false then (none, item.state.lock.isSome, c)
  else
    match handle x (.openFile item.state.path item.state.flags) c with
    | .ok (some (.opened fh _)) c' =>
      match item.state.lock with
      | some kind =>
        let replayed := replayLock x fh kind 4 c'
        (some fh, !replayed.1, replayed.2)
      | none => (some fh, false, c')
    | .ok _ c' => (none, item.state.lock.isSome, c')
    | .error _ c' => (none, item.state.lock.isSome, c')

/-- The handles, in the order they are visited. -/
def reopenAll (x : Export) : List Reopen → Ctx → Ctx
  | [], c => c
  | item :: items, c => reopenAll x items (reopen x item c).2.2

/-- One pass of the supervisor on a new session. -/
def supervise (x : Export) (exportName : Text) (items : List Reopen) (c : Ctx) : Ctx :=
  match handle x (.attach exportName) c with
  | .ok _ c' => reopenAll x items c'
  | .error _ c' => c'

end Reconnect

/-- Opening the path with these flags empties the file `ino`. -/
def Truncates (x : Export) (fs : Fs) (path : RelPath) (flags : OpenFlags) (ino : ℕ) : Prop :=
  flags.truncate = true ∧ x.readOnly = false ∧
    ∃ full l, x.resolve fs path = .ok full ∧ fs.leaf true full = .found l ∧
      fs.get l = some (.file ino)

/-- Every file has the content it had. -/
def SameContent (fs fs' : Fs) : Prop := ∀ l, fs'.contentAt l = fs.contentAt l

theorem truncates_of_tree {fs fs' : Fs} (h : fs'.tree = fs.tree) (x : Export) (path : RelPath)
    (flags : OpenFlags) (ino : ℕ) :
    Truncates x fs' path flags ino ↔ Truncates x fs path flags ino := by
  simp only [Truncates, Export.resolve_of_tree h, Fs.leaf_of_tree h, Fs.get_of_tree h]

/-! ## The requests of the supervisor -/

namespace Reconnect

open Act Ctx

/-- The session is attached and may send requests, and the file system is this. -/
def Ready (fs : Fs) (c : Ctx) : Prop := c.fs = fs ∧ c.me.attached = true ∧ c.me.authed = true

/-- `fs'` has the entries of `fs`; the files in `S` are empty and the others have their
content. -/
structure Emptied (S : ℕ → Prop) (fs fs' : Fs) : Prop where
  tree : fs'.tree = fs.tree
  empty : ∀ i, S i → (fs'.inodes i).content = []
  same : ∀ i, ¬ S i → (fs'.inodes i).content = (fs.inodes i).content

variable {x : Export} {fs fs' : Fs} {c : Ctx} {path : RelPath} {flags : OpenFlags} {S : ℕ → Prop}

theorem Emptied.none (h : ∀ i, ¬ S i) : Emptied S fs fs :=
  ⟨rfl, fun i hi => absurd hi (h i), fun _ _ => rfl⟩

theorem Emptied.trans {T : ℕ → Prop} {fs'' : Fs} (h : Emptied S fs fs') (h' : Emptied T fs' fs'') :
    Emptied (fun i => S i ∨ T i) fs fs'' := by
  refine ⟨h'.tree.trans h.tree, fun i hi => ?_, fun i hi => ?_⟩
  · by_cases hT : T i
    · exact h'.empty i hT
    · rw [h'.same i hT]
      exact h.empty i (hi.resolve_right hT)
  · rw [h'.same i fun hT => hi (.inr hT), h.same i fun hS => hi (.inl hS)]

theorem ready_lock (fh : ℕ) (kind : LockKind) (wait : Bool) :
    Keeps (Ready fs) (handle x (.lock fh kind wait)) := by
  intro c hc
  refine (ran_handle x (.lock fh kind wait) c).conseq (fun _ h => h) (fun r d h => ?_)
      (fun d h => ?_)
    c rfl
  · cases h with
    | lock => exact hc
    | looked hreq | changed _ _ hreq => cases hreq
    | touched _ hreq => simp at hreq
  · cases h <;> exact hc

theorem ready_replayLock (fh : ℕ) (kind : LockKind) (n : ℕ) :
    ∀ {c : Ctx}, Ready fs c → Ready fs (replayLock x fh kind n c).2 := by
  induction n with
  | zero => exact fun h => h
  | succ n ih =>
    intro c hc
    have h := ready_lock (x := x) fh kind false c hc
    rw [replayLock]
    split
    · next heq => rw [heq] at h; exact h
    · next heq => rw [heq] at h; exact ih h
    · next heq => rw [heq] at h; exact h
    · next heq => rw [heq] at h; exact h

theorem emptied_call {full : Loc} {write trunc : Bool} {r : Loc × Node}
    (h : fs.openFile full write trunc = .ok (r, fs')) :
    Emptied (fun i => trunc = true ∧ r.2 = .file i) fs fs' := by
  obtain ⟨_, _, rfl⟩ := Fs.openFile_ok h
  cases hr : r.2 with
  | file ino =>
    cases trunc with
    | true =>
      refine ⟨rfl, fun i hi => ?_, fun i hi => ?_⟩
      · obtain rfl : ino = i := by simpa using hi
        simp [Fs.truncate, Fs.modify, Fs.touch]
      · have hne : i ≠ ino := fun heq => hi ⟨rfl, by rw [heq]⟩
        simp [Fs.truncate, Fs.modify, Fs.touch, hne]
    | false => exact ⟨rfl, fun i hi => absurd hi.1 (by simp), fun _ _ => rfl⟩
  | dir => exact ⟨rfl, fun i hi => absurd hi.2 (by simp), fun _ _ => rfl⟩
  | symlink t => exact ⟨rfl, fun i hi => absurd hi.2 (by simp), fun _ _ => rfl⟩

theorem leadsTo_of_truncates {ino : ℕ} (h : Truncates x fs path flags ino) :
    leadsTo x fs path = some ino := by
  obtain ⟨-, -, full, l, hres, hl, hget⟩ := h
  rw [leadsTo_eq hres]
  exact Fs.opensFile_eq_some.mpr ⟨l, hl, hget⟩

/-- **An `open` empties the file it truncates** and changes no other. -/
theorem emptied_openFile (x : Export) (path : RelPath) (flags : OpenFlags) (hc : Ready fs c) :
    Ready (final (handle x (.openFile path flags) c)).fs
    (final (handle x (.openFile path flags) c)) ∧
      Emptied (Truncates x fs path flags) fs (final (handle x (.openFile path flags) c)).fs := by
  obtain ⟨rfl, hatt, hauth⟩ := hc
  -- what the call empties is what the path leads to
  have hcall :
      ∀ {full r fs'}, (flags.write || flags.truncate || flags.append → x.readOnly = false) →
      x.resolve c.fs path = .ok full →
      c.fs.openFile full (flags.write || flags.truncate || flags.append) flags.truncate =
        .ok (r, fs') → Emptied (Truncates x c.fs path flags) c.fs fs' := by
    intro full r fs' hro hres hopen
    obtain ⟨hl, hget, -⟩ := Fs.openFile_ok hopen
    have hiff : ∀ i, flags.truncate = true ∧ r.2 = .file i ↔ Truncates x c.fs path flags i := by
      intro i
      constructor
      · rintro ⟨ht, hi⟩
        exact ⟨ht, hro (by simp [ht]), full, r.1, hres, hl, hi ▸ hget⟩
      · rintro ⟨ht, _, full', l, hres', hl', hget'⟩
        obtain rfl : full = full' := Except.ok.inj (hres.symm.trans hres')
        obtain rfl : r.1 = l := Walk.found.inj (hl.symm.trans hl')
        exact ⟨ht, Option.some.inj (hget.symm.trans hget')⟩
    have h := emptied_call hopen
    exact ⟨h.tree, fun i hi => h.empty i ((hiff i).mpr hi),
      fun i hi => h.same i fun hi' => hi ((hiff i).mp hi')⟩
  have hran := ran_handle x (.openFile path flags) c c rfl
  cases hrun : handle x (.openFile path flags) c with
  | ok r d =>
    rw [hrun] at hran
    cases hran with
    | opened _ hro hres hopen =>
      have hempt := hcall hro hres hopen
      cases flags.truncate <;> exact ⟨⟨rfl, hatt, hauth⟩, hempt⟩
    | looked hreq | changed _ _ hreq => cases hreq
    | touched _ hreq => simp at hreq
  | error e d =>
    rw [hrun] at hran
    cases hran with
    | still =>
      -- what is truncated would have been opened
      refine ⟨⟨rfl, hatt, hauth⟩, Emptied.none fun i hi => ?_⟩
      obtain ⟨r, d, hok, -⟩ := openFile_of_leadsTo hi.1 (mayWrite_iff.mpr ⟨hauth, hatt, hi.2.1⟩)
        (leadsTo_of_truncates hi)
      cases hrun.symm.trans (handle_of_ok hauth hok)
    | openFile h =>
      cases h with
      | openFile hro hres hopen => exact ⟨⟨rfl, hatt, hauth⟩, hcall hro hres hopen⟩

/-! ## A whole pass -/

/-- What opening one handle again empties. -/
def ReopenTruncates (x : Export) (fs : Fs) (item : Reopen) (ino : ℕ) : Prop :=
  item.reached = true ∧ Truncates x fs item.state.path item.state.flags ino

theorem emptied_reopen (hc : Ready fs c) (item : Reopen) :
    ∃ fs', Ready fs' (reopen x item c).2.2 ∧ Emptied (ReopenTruncates x fs item) fs fs' := by
  by_cases hreach : item.reached = false
  · refine ⟨fs, ?_, Emptied.none fun i hi => ?_⟩
    · rw [reopen, if_pos hreach]
      exact hc
    · have hi₁ := hi.1
      rw [hreach] at hi₁
      cases hi₁
  have hopen := emptied_openFile x item.state.path item.state.flags hc
  have hsame : Emptied (ReopenTruncates x fs item) fs
      (final (handle x (.openFile item.state.path item.state.flags) c)).fs :=
    ⟨hopen.2.tree, fun i hi => hopen.2.empty i hi.2,
      fun i hi => hopen.2.same i fun ht => hi ⟨by simpa using hreach, ht⟩⟩
  refine ⟨_, ?_, hsame⟩
  rw [reopen, if_neg hreach]
  cases hrun : handle x (.openFile item.state.path item.state.flags) c with
  | error e c' =>
    rw [hrun] at hopen
    exact hopen.1
  | ok r c' =>
    rw [hrun] at hopen
    have hready : Ready c'.fs c' := hopen.1
    split
    · next fh attr c'' heq =>
      cases heq
      split
      · exact ready_replayLock fh _ 4 hready
      · exact hready
    · next heq =>
      cases heq
      exact hready
    · next heq => cases heq

/-- **A pass empties the files its handles truncate** and changes no other. -/
theorem emptied_reopenAll (items : List Reopen) : ∀ {fs : Fs} {c : Ctx}, Ready fs c →
    ∃ fs', Ready fs' (reopenAll x items c) ∧
      Emptied (fun i => ∃ item ∈ items, ReopenTruncates x fs item i) fs fs' := by
  induction items with
  | nil =>
    intro fs c hc
    exact ⟨fs, hc, Emptied.none fun i ⟨_, h, _⟩ => absurd h List.not_mem_nil⟩
  | cons item items ih =>
    intro fs c hc
    obtain ⟨fs₁, hready₁, hempt₁⟩ := emptied_reopen (x := x) hc item
    obtain ⟨fs₂, hready₂, hempt₂⟩ := ih hready₁
    have h := hempt₁.trans hempt₂
    have hiff : ∀ i, (ReopenTruncates x fs item i ∨ ∃ it ∈ items, ReopenTruncates x fs₁ it i) ↔
        ∃ it ∈ item :: items, ReopenTruncates x fs it i := by
      intro i
      simp only [ReopenTruncates, truncates_of_tree hempt₁.tree, List.mem_cons, exists_eq_or_imp]
    exact ⟨fs₂, hready₂, h.tree, fun i hi => h.empty i ((hiff i).mpr hi),
      fun i hi => h.same i fun hi' => hi ((hiff i).mp hi')⟩

theorem contentAt_of_emptied (h : Emptied S fs fs') :
    SameContent fs fs' ↔ ∀ l i, fs.get l = some (.file i) → S i → (fs.inodes i).content = [] := by
  constructor
  · intro hsame l i hget hi
    have hl := hsame l
    rw [Fs.contentAt, Fs.contentAt, Fs.get_of_tree h.tree, hget] at hl
    simpa [h.empty i hi] using hl.symm
  · intro hempty l
    rw [Fs.contentAt, Fs.contentAt, Fs.get_of_tree h.tree]
    cases hget : fs.get l with
    | none => rfl
    | some node =>
      cases node with
      | dir => rfl
      | symlink t => rfl
      | file i =>
        by_cases hi : S i
        · simp only [h.empty i hi, hempty l i hget hi]
        · simp only [h.same i hi]

theorem ready_attach {r : Option Response} {c' : Ctx} {name : Text}
    (h : handle x (.attach name) c = .ok r c') : Ready c.fs c' := by
  cases ran_of_ok h with
  | attach hauth => exact ⟨rfl, rfl, hauth⟩
  | looked hreq | changed _ _ hreq => cases hreq
  | touched _ hreq => simp at hreq

theorem fs_attach_failed {e : ErrorCode} {c' : Ctx} {name : Text}
    (h : handle x (.attach name) c = .error e c') : c'.fs = c.fs := by
  have hfailed := ran_handle x (.attach name) c c rfl
  rw [h] at hfailed
  cases hfailed
  rfl

/-- **Reconnecting is not a mutation** exactly when no handle that is opened again, on a
session that could attach, has the truncate flag and leads to a file with content. -/
theorem unchanged_iff (x : Export) (c : Ctx) (exportName : Text) (items : List Reopen) :
    SameContent c.fs (supervise x exportName items c).fs ↔
      ((∃ r c', handle x (.attach exportName) c = .ok r c') →
        ∀ item ∈ items, item.reached = true → ∀ ino,
          Truncates x c.fs item.state.path item.state.flags ino →
          (c.fs.inodes ino).content = []) := by
  rw [supervise]
  cases hatt : handle x (.attach exportName) c with
  | error e c' =>
    refine iff_of_true (fun l => ?_) fun ⟨_, _, h⟩ => nomatch h
    simp only [fs_attach_failed hatt]
  | ok r c' =>
    obtain ⟨fs', hready, hempt⟩ := emptied_reopenAll (x := x) items (ready_attach hatt)
    rw [hready.1, contentAt_of_emptied hempt]
    constructor
    · intro h _ item hitem hreach ino ht
      obtain ⟨_, _, full, l, _, _, hget⟩ := id ht
      exact h l ino hget ⟨item, hitem, hreach, ht⟩
    · intro h l ino hget ⟨item, hitem, hreach, ht⟩
      exact h ⟨r, c', rfl⟩ item hitem hreach ino ht

/-- A file opened as `File::create` does, on an export that has nothing else. -/
def createFlags : OpenFlags := { read := true, write := true, truncate := true }

/-- The server after a session created `f` and wrote two bytes through its handle, and
after its connection was lost; a new session has connected. -/
def writtenThenLost : Ctx :=
  let c : Ctx := ⟨.ofTree [([], .dir), ([['s', 'r', 'v']], .dir)] [], .first⟩
  let c := final (handle .srv (.create ⟨['f']⟩ createFlags 0o644) c)
  let c := final (handle .srv (.write 1 0 [104, 105] none) c)
  { c with me := .withToken 2 none }

/-- Reconnecting empties the file the handle was created with. -/
theorem reconnect_empties_file :
    writtenThenLost.fs.contentAt [['s', 'r', 'v'], ['f']] = some [104, 105] ∧
      (supervise .srv ['s', 'r', 'v'] [⟨⟨⟨['f']⟩, createFlags, 1, none⟩, true⟩]
        writtenThenLost).fs.contentAt [['s', 'r', 'v'], ['f']] = some [] ∧
      ¬ SameContent writtenThenLost.fs
        (supervise .srv ['s', 'r', 'v'] [⟨⟨⟨['f']⟩, createFlags, 1, none⟩, true⟩]
          writtenThenLost).fs := by
  refine ⟨by decide, by decide, fun h => ?_⟩
  have hf := h [['s', 'r', 'v'], ['f']]
  revert hf
  decide

end Reconnect
end AlloyFs
