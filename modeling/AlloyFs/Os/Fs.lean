import AlloyFs.Lib.PathMap
import AlloyFs.Proto.Messages
import Mathlib.Data.List.Sort
import Mathlib.Logic.Function.Basic

/-!
# The file system under the agent

A tree of directory entries over inodes, and the system calls the standard library
makes on it.  A location is the list of names from the file system's own root to an
entry; it is physical, with no link on the way.  Files are inodes, so that one file
can have several names.

`walk` follows a path the way the kernel does: component by component from a
directory, with `.` and `..`, and with each symbolic link replaced by its target, up
to `MAXSYMLINKS` of them.  The other calls are given a path whose parent has been
resolved already; they differ in whether they follow its last component.

Each call records the locations it opened, created, modified, removed or linked in
`touched`.  Calls fail only for reasons that lie in the tree.
-/

namespace AlloyFs

/-- A physical location. -/
abbrev Loc := List Name

/-- A directory entry. -/
inductive Node
  | dir
  | file (ino : ℕ)
  | symlink (target : Text)
deriving DecidableEq

/-- Times and mode of an entry. -/
structure Stat where
  size : ℕ
  mtime : SystemTime
  ctime : SystemTime
  mode : ℕ
deriving DecidableEq

/-- The content of a file, with its times and mode. -/
structure Inode where
  content : Bytes
  mtime : SystemTime
  ctime : SystemTime
  mode : ℕ
deriving DecidableEq

structure Fs where
  tree : PathMap Name Node
  inodes : ℕ → Inode
  nextIno : ℕ
  /-- what is reported of a directory or a link -/
  statOf : Loc → Stat
  now : SystemTime
  touched : List Loc

/-- How many links one path may lead through. -/
def MAXSYMLINKS : ℕ := 40

/-- Where following a path ends. -/
inductive Walk
  | found (loc : Loc)
  /-- the directory is there, its entry is not -/
  | vacant (loc : Loc)
  | error (e : ErrorCode)
deriving DecidableEq

variable {r : Loc × ℕ}

namespace Fs

def get (fs : Fs) (l : Loc) : Option Node := PathMap.get fs.tree l

def isDir (fs : Fs) (l : Loc) : Bool := decide (fs.get l = some .dir)

/-- The components of a link target. -/
def targetComps (t : Text) : List Name := t.splitOn '/'

/-- Where a link in directory `at_` starts from. -/
def targetStart (at_ : Loc) (t : Text) : Loc := if t.head? = some '/' then [] else at_

/-- Follow components from a directory; `next` continues behind a link. -/
def walkIn (fs : Fs) (next : Loc → List Name → Walk) : Loc → List Name → Walk
  | at_, [] => if fs.isDir at_ then .found at_ else .error .notADirectory
  | at_, c :: rest =>
    if fs.isDir at_ = false then .error .notADirectory
    else if c = [] ∨ c = ['.'] then walkIn fs next at_ rest
    else if c = ['.', '.'] then walkIn fs next at_.dropLast rest
    else
      match fs.get (at_ ++ [c]) with
      | none => if rest = [] then .vacant (at_ ++ [c]) else .error .notFound
      | some .dir => walkIn fs next (at_ ++ [c]) rest
      | some (.file _) => if rest = [] then .found (at_ ++ [c]) else .error .notADirectory
      | some (.symlink t) => next (targetStart at_ t) (targetComps t ++ rest)

/-- Follow components from a directory, through at most `n` links. -/
def walk (fs : Fs) : ℕ → Loc → List Name → Walk
  | 0 => walkIn fs fun _ _ => .error .io
  | n + 1 => walkIn fs (walk fs n)

/-- `canonicalize`: the location an absolute path leads to. -/
def canonicalize (fs : Fs) (full : List Name) : Except ErrorCode Loc :=
  match fs.walk MAXSYMLINKS [] full with
  | .found l => .ok l
  | .vacant _ => .error .notFound
  | .error e => .error e

/-- Look up the last component of a path whose parent is resolved, and follow it if
it is a link and `follow` says so. -/
def leaf (fs : Fs) (follow : Bool) (full : Loc) : Walk :=
  match fs.get full with
  | none =>
    match fs.get full.dropLast with
    | some .dir => .vacant full
    | some _ => .error .notADirectory
    | none => .error .notFound
  | some (.symlink t) =>
    if follow then
      fs.walk (MAXSYMLINKS - 1) (targetStart full.dropLast t) (targetComps t)
    else .found full
  | some _ => .found full

/-! ## Calls -/

/-- How a call ends: with a value and the file system afterwards, or with an error. -/
abbrev Call (α : Type) := Except ErrorCode (α × Fs)

def touch (fs : Fs) (ls : List Loc) : Fs := { fs with touched := ls ++ fs.touched }

/-- Change the inode of an open file. -/
def modify (fs : Fs) (ino : ℕ) (f : Inode → Inode) : Fs :=
  { fs with inodes := Function.update fs.inodes ino (f (fs.inodes ino)) }

def truncate (fs : Fs) (ino : ℕ) : Fs :=
  fs.modify ino fun i => { i with content := [], mtime := fs.now }

/-- A new empty file at a vacant location. -/
def newFile (fs : Fs) (l : Loc) : Fs :=
  { fs with
    tree := PathMap.put fs.tree l (.file fs.nextIno)
    inodes := Function.update fs.inodes fs.nextIno ⟨[], fs.now, fs.now, 0o644⟩
    nextIno := fs.nextIno + 1 }

/-- Open what is there, following a last link. -/
def openFile (fs : Fs) (full : Loc) (write trunc : Bool) : Call (Loc × Node) :=
  match fs.leaf true full with
  | .found l =>
    match fs.get l with
    | some (.file ino) =>
      .ok ((l, .file ino), (if trunc then fs.truncate ino else fs).touch [l])
    | some n => if write then .error .isADirectory else .ok ((l, n), fs.touch [l])
    | none => .error .notFound
  | .vacant _ => .error .notFound
  | .error e => .error e

/-- Open for writing, following a last link; create the file if nothing is there. -/
def openCreate (fs : Fs) (full : Loc) (trunc : Bool) : Call (Loc × ℕ) :=
  match fs.leaf true full with
  | .found l =>
    match fs.get l with
    | some (.file ino) => .ok ((l, ino), (if trunc then fs.truncate ino else fs).touch [l])
    | _ => .error .isADirectory
  | .vacant l => .ok ((l, fs.nextIno), (fs.newFile l).touch [l])
  | .error e => .error e

/-- Create a file where nothing is, not even a link. -/
def createNew (fs : Fs) (full : Loc) : Call (Loc × ℕ) :=
  match fs.leaf false full with
  | .found _ => .error .alreadyExists
  | .vacant l => .ok ((l, fs.nextIno), (fs.newFile l).touch [l])
  | .error e => .error e

/-- Make an entry where nothing is. -/
def makeEntry (fs : Fs) (full : Loc) (n : Node) : Call Unit :=
  match fs.leaf false full with
  | .found _ => .error .alreadyExists
  | .vacant l => .ok ((), { fs with tree := PathMap.put fs.tree l n }.touch [l])
  | .error e => .error e

def createDir (fs : Fs) (full : Loc) : Call Unit := fs.makeEntry full .dir

def symlink (fs : Fs) (target : Text) (full : Loc) : Call Unit :=
  fs.makeEntry full (.symlink target)

def removeEntry (fs : Fs) (l : Loc) : Fs :=
  { fs with tree := PathMap.del fs.tree l }.touch [l]

def removeFile (fs : Fs) (full : Loc) : Call Unit :=
  match fs.leaf false full with
  | .found l =>
    match fs.get l with
    | some .dir => .error .isADirectory
    | _ => .ok ((), fs.removeEntry l)
  | .vacant _ => .error .notFound
  | .error e => .error e

def removeDir (fs : Fs) (full : Loc) : Call Unit :=
  match fs.leaf false full with
  | .found l =>
    match fs.get l with
    | some .dir => if PathMap.below fs.tree l then .error .notEmpty else .ok ((), fs.removeEntry l)
    | _ => .error .notADirectory
  | .vacant _ => .error .notFound
  | .error e => .error e

def moveEntry (fs : Fs) (src dst : Loc) : Fs :=
  { fs with tree := PathMap.move fs.tree src dst }.touch [src, dst]

/-- Two entries are names of one file. -/
def sameFile : Node → Node → Bool
  | .file i, .file j => decide (i = j)
  | _, _ => false

/-- Rename the entry `n` at `src`, in whose destination's directory there is `old`. -/
def renameTo (fs : Fs) (src dst : Loc) (n : Node) (old : Option Node) : Call Unit :=
  if src = dst then .ok ((), fs.touch [src, dst])
  -- a directory goes neither into itself nor over one it is in
  else if src <+: dst then .error .io
  else if dst <+: src then .error .notEmpty
  else
    match old with
    | none => .ok ((), fs.moveEntry src dst)
    | some .dir =>
      if n ≠ .dir then .error .isADirectory
      else if PathMap.below fs.tree dst then .error .notEmpty
      else .ok ((), fs.moveEntry src dst)
    | some old =>
      if n = .dir then .error .notADirectory
      -- two names of one file: nothing happens, and both stay
      else if sameFile n old then .ok ((), fs.touch [src, dst])
      else .ok ((), fs.moveEntry src dst)

def rename (fs : Fs) (src dst : Loc) : Call Unit :=
  match fs.leaf false src, fs.leaf false dst with
  | .found ls, .found ld =>
    match fs.get ls with
    | some n => fs.renameTo ls ld n (fs.get ld)
    | none => .error .notFound
  | .found ls, .vacant ld =>
    match fs.get ls with
    | some n => fs.renameTo ls ld n none
    | none => .error .notFound
  | .found _, .error e => .error e
  | .vacant _, _ => .error .notFound
  | .error e, _ => .error e

/-- Another name for a file. -/
def hardLink (fs : Fs) (src dst : Loc) : Call Unit :=
  match fs.leaf false src with
  | .found ls =>
    match fs.get ls with
    | some .dir => .error .permissionDenied
    | some n =>
      match fs.makeEntry dst n with
      | .ok (_, fs') => .ok ((), fs'.touch [ls])
      | .error e => .error e
    | none => .error .notFound
  | .vacant _ => .error .notFound
  | .error e => .error e

def readLink (fs : Fs) (full : Loc) : Call Text :=
  match fs.leaf false full with
  | .found l =>
    match fs.get l with
    | some (.symlink t) => .ok (t, fs.touch [l])
    | _ => .error .io
  | .vacant _ => .error .notFound
  | .error e => .error e

/-- The names in a directory, in the order of the listing. -/
def children (fs : Fs) (l : Loc) : List Name :=
  let names := fs.tree.filterMap fun e =>
    if e.1.dropLast = l ∧ e.1 ≠ [] ∧ (fs.get e.1).isSome then e.1.getLast? else none
  names.dedup.insertionSort textLe

/-- `Path::exists`: the path leads somewhere. -/
def exists_ (fs : Fs) (full : Loc) : Bool :=
  match fs.leaf true full with
  | .found _ => true
  | _ => false

/-- What is reported of an entry. -/
def stat (fs : Fs) (l : Loc) : Option (FileKind × Stat) :=
  match fs.get l with
  | some (.file ino) =>
    let i := fs.inodes ino
    some (.file, ⟨i.content.length, i.mtime, i.ctime, i.mode⟩)
  | some .dir => some (.dir, fs.statOf l)
  | some (.symlink _) => some (.symlink, fs.statOf l)
  | none => none

/-- `metadata` follows a last link, `symlink_metadata` does not. -/
def metadata (fs : Fs) (follow : Bool) (full : Loc) : Except ErrorCode (FileKind × Stat) :=
  match fs.leaf follow full with
  | .found l =>
    match fs.stat l with
    | some r => .ok r
    | none => .error .notFound
  | .vacant _ => .error .notFound
  | .error e => .error e

/-- The content of the file at a location. -/
def contentAt (fs : Fs) (l : Loc) : Option Bytes :=
  match fs.get l with
  | some (.file ino) => some (fs.inodes ino).content
  | _ => none

@[simp] theorem get_touch (fs : Fs) (ls : List Loc) (l : Loc) : (fs.touch ls).get l = fs.get l :=
  rfl

@[simp] theorem get_modify (fs : Fs) (ino : ℕ) (f : Inode → Inode) (l : Loc) :
    (fs.modify ino f).get l = fs.get l := rfl

/-! ## Following paths -/

/-- A name that is looked up in its directory. -/
def Ordinary (c : Name) : Prop := c ≠ [] ∧ c ≠ ['.'] ∧ c ≠ ['.', '.']
deriving Decidable

section Walk

variable {fs : Fs} {n : ℕ} {at_ : Loc} {c : Name} {rest : List Name}

/-- Continue behind a link with one link less to go. -/
def behindLink (fs : Fs) : ℕ → Loc → List Name → Walk
  | 0 => fun _ _ => .error .io
  | n + 1 => fs.walk n

theorem walk_eq (fs : Fs) (n : ℕ) : fs.walk n = fs.walkIn (fs.behindLink n) := by
  cases n <;> rfl

section

variable (hd : fs.isDir at_ = true)
include hd

theorem walk_nil : fs.walk n at_ [] = .found at_ := by
  rw [walk_eq, walkIn, if_pos hd]

theorem walk_skip (hc : c = [] ∨ c = ['.']) : fs.walk n at_ (c :: rest) = fs.walk n at_ rest := by
  rw [walk_eq, walkIn, if_neg (by simp [hd]), if_pos hc]

theorem walk_up : fs.walk n at_ (['.', '.'] :: rest) = fs.walk n at_.dropLast rest := by
  rw [walk_eq, walkIn, if_neg (by simp [hd]), if_neg (by decide), if_pos rfl]

theorem walk_name (hc : Ordinary c) : fs.walk n at_ (c :: rest) =
      match fs.get (at_ ++ [c]) with
      | none => if rest = [] then .vacant (at_ ++ [c]) else .error .notFound
      | some .dir => fs.walk n (at_ ++ [c]) rest
      | some (.file _) => if rest = [] then .found (at_ ++ [c]) else .error .notADirectory
      | some (.symlink t) => fs.behindLink n (targetStart at_ t) (targetComps t ++ rest) := by
  rw [walk_eq, walkIn, if_neg (by simp [hd]), if_neg (by simp [hc.1, hc.2.1]), if_neg hc.2.2]

end

/-- **Induction along a walk.**  One case per kind of component. -/
theorem walk_induction {P : ℕ → Loc → List Name → Walk → Prop}
    (failed : ∀ n at_ todo e, P n at_ todo (.error e))
    (stop : ∀ n at_, fs.isDir at_ = true → P n at_ [] (.found at_))
    (skip : ∀ n at_ c rest, fs.isDir at_ = true → (c = [] ∨ c = ['.']) →
      P n at_ rest (fs.walk n at_ rest) → P n at_ (c :: rest) (fs.walk n at_ rest))
    (up : ∀ n at_ rest, fs.isDir at_ = true → P n at_.dropLast rest (fs.walk n at_.dropLast rest) →
      P n at_ (['.', '.'] :: rest) (fs.walk n at_.dropLast rest))
    (vacant : ∀ n at_ c, fs.isDir at_ = true → Ordinary c → fs.get (at_ ++ [c]) = none →
      P n at_ [c] (.vacant (at_ ++ [c])))
    (down : ∀ n at_ c rest, fs.isDir at_ = true → Ordinary c →
      fs.get (at_ ++ [c]) = some .dir → P n (at_ ++ [c]) rest (fs.walk n (at_ ++ [c]) rest) →
      P n at_ (c :: rest) (fs.walk n (at_ ++ [c]) rest))
    (file : ∀ n at_ c ino, fs.isDir at_ = true → Ordinary c →
      fs.get (at_ ++ [c]) = some (.file ino) → P n at_ [c] (.found (at_ ++ [c])))
    (link : ∀ n at_ c rest t, fs.isDir at_ = true → Ordinary c →
      fs.get (at_ ++ [c]) = some (.symlink t) →
      P n (targetStart at_ t) (targetComps t ++ rest)
        (fs.walk n (targetStart at_ t) (targetComps t ++ rest)) →
      P (n + 1) at_ (c :: rest) (fs.walk n (targetStart at_ t) (targetComps t ++ rest))) :
    ∀ n at_ todo, P n at_ todo (fs.walk n at_ todo) := by
  -- components are consumed one by one; what lies behind a link is a shorter walk
  have inner : ∀ n, (∀ at_ c rest t, fs.isDir at_ = true → Ordinary c →
      fs.get (at_ ++ [c]) = some (.symlink t) →
      P n at_ (c :: rest) (fs.behindLink n (targetStart at_ t) (targetComps t ++ rest))) →
      ∀ todo at_, P n at_ todo (fs.walk n at_ todo) := by
    intro n hlink todo
    induction todo with
    | nil =>
      intro at_
      by_cases hd : fs.isDir at_ = true
      · rw [walk_nil hd]
        exact stop n at_ hd
      · rw [walk_eq, walkIn, if_neg hd]
        exact failed n at_ [] _
    | cons c rest ih =>
      intro at_
      by_cases hd : fs.isDir at_ = true
      · by_cases hskip : c = [] ∨ c = ['.']
        · rw [walk_skip hd hskip]
          exact skip n at_ c rest hd hskip (ih at_)
        · by_cases hup : c = ['.', '.']
          · subst hup
            rw [walk_up hd]
            exact up n at_ rest hd (ih _)
          · have hc : Ordinary c := ⟨fun h => hskip (.inl h), fun h => hskip (.inr h), hup⟩
            rw [walk_name hd hc]
            rcases hget : fs.get (at_ ++ [c]) with _ | _ | ino | t
            · by_cases hr : rest = []
              · subst hr
                exact vacant n at_ c hd hc hget
              · simp only [if_neg hr]
                exact failed n at_ _ _
            · exact down n at_ c rest hd hc hget (ih _)
            · by_cases hr : rest = []
              · subst hr
                exact file n at_ c ino hd hc hget
              · simp only [if_neg hr]
                exact failed n at_ _ _
            · exact hlink at_ c rest t hd hc hget
      · rw [walk_eq, walkIn, if_pos (by simpa using hd)]
        exact failed n at_ _ _
  intro n
  induction n with
  | zero => exact fun at_ todo => inner 0 (fun at_ c rest _ _ _ _ => failed 0 at_ _ _) todo at_
  | succ n ih =>
    exact fun at_ todo => inner (n + 1)
      (fun at_ c rest t hd hc hget => link n at_ c rest t hd hc hget (ih _ _)) todo at_

/-- Where a walk may end: what is found is a directory or a file, never a link, and what is
missing is missing in a directory. -/
def EndsWell (fs : Fs) : Walk → Prop
  | .found l => fs.get l = some .dir ∨ ∃ ino, fs.get l = some (.file ino)
  | .vacant l => fs.get l = none ∧ ∃ d c, l = d ++ [c] ∧ fs.get d = some .dir
  | .error _ => True

theorem endsWell_walk (fs : Fs) : ∀ n at_ todo, fs.EndsWell (fs.walk n at_ todo) := by
  refine walk_induction (P := fun _ _ _ w => fs.EndsWell w) ?_ ?_ ?_ ?_ ?_ ?_ ?_ ?_
  · exact fun n at_ todo e => trivial
  · exact fun n at_ hd => .inl (by simpa [isDir] using hd)
  · exact fun n at_ c rest _ _ ih => ih
  · exact fun n at_ rest _ ih => ih
  · exact fun n at_ c hd _ hget => ⟨hget, at_, c, rfl, by simpa [isDir] using hd⟩
  · exact fun n at_ c rest _ _ _ ih => ih
  · exact fun n at_ c ino _ _ hget => .inr ⟨ino, hget⟩
  · exact fun n at_ c rest t _ _ _ ih => ih

theorem get_of_walk_found {l : Loc} {todo : List Name} (h : fs.walk n at_ todo = .found l) :
    fs.get l = some .dir ∨ ∃ ino, fs.get l = some (.file ino) := by
  have hend := fs.endsWell_walk n at_ todo
  rwa [h] at hend

theorem of_walk_vacant {l : Loc} {todo : List Name} (h : fs.walk n at_ todo = .vacant l) :
    fs.get l = none ∧ ∃ d c, l = d ++ [c] ∧ fs.get d = some .dir := by
  have hend := fs.endsWell_walk n at_ todo
  rwa [h] at hend

/-- **A path with one more name.**  It leads on from the directory the path leads to,
and unless that name is a link, to the entry of that name there. -/
theorem walk_concat {l : Loc} {xs : List Name} (hc : Ordinary c)
    (h : fs.walk n at_ (xs ++ [c]) = .found l) :
    ∃ d, fs.walk n at_ xs = .found d ∧
      ((∀ t, fs.get (d ++ [c]) ≠ some (.symlink t)) → l = d ++ [c]) := by
  have hall : ∀ n at_ todo, ∀ xs l, todo = xs ++ [c] → fs.walk n at_ todo = .found l →
      ∃ d, fs.walk n at_ xs = .found d ∧
        ((∀ t, fs.get (d ++ [c]) ≠ some (.symlink t)) → l = d ++ [c]) := by
    refine walk_induction
      (P := fun n at_ todo w => ∀ xs l, todo = xs ++ [c] → w = .found l →
        ∃ d, fs.walk n at_ xs = .found d ∧
          ((∀ t, fs.get (d ++ [c]) ≠ some (.symlink t)) → l = d ++ [c]))
      ?_ ?_ ?_ ?_ ?_ ?_ ?_ ?_
    · intro n at_ todo e xs l _ h
      cases h
    · intro n at_ _ xs l hxs _
      simp at hxs
    · intro n at_ a rest hd ha ih xs l hxs hw
      rcases xs with _ | ⟨x, xs⟩
      · cases hxs
        exact absurd ha (by simp [hc.1, hc.2.1])
      · cases hxs
        obtain ⟨d, hwalk, hl⟩ := ih xs l rfl hw
        exact ⟨d, by rw [walk_skip hd ha, hwalk], hl⟩
    · intro n at_ rest hd ih xs l hxs hw
      rcases xs with _ | ⟨x, xs⟩
      · cases hxs
        exact absurd rfl hc.2.2
      · cases hxs
        obtain ⟨d, hwalk, hl⟩ := ih xs l rfl hw
        exact ⟨d, by rw [walk_up hd, hwalk], hl⟩
    · intro n at_ a _ _ _ xs l _ h
      cases h
    · intro n at_ a rest hd ha hget ih xs l hxs hw
      rcases xs with _ | ⟨x, xs⟩
      · cases hxs
        rw [walk_nil (by rw [isDir, hget]; rfl)] at hw
        cases hw
        exact ⟨at_, walk_nil hd, fun _ => rfl⟩
      · cases hxs
        obtain ⟨d, hwalk, hl⟩ := ih xs l rfl hw
        exact ⟨d, by rw [walk_name hd ha, hget]; exact hwalk, hl⟩
    · intro n at_ a ino hd ha hget xs l hxs hw
      cases hw
      rcases xs with _ | ⟨x, xs⟩
      · cases hxs
        exact ⟨at_, walk_nil hd, fun _ => rfl⟩
      · simp at hxs
    · intro n at_ a rest t hd ha hget ih xs l hxs hw
      rcases xs with _ | ⟨x, xs⟩
      · cases hxs
        exact ⟨at_, walk_nil hd, fun hno => absurd hget (hno t)⟩
      · cases hxs
        obtain ⟨d, hwalk, hl⟩ := ih (targetComps t ++ xs) l (by simp) hw
        exact ⟨d, by rw [walk_name hd ha, hget]; exact hwalk, hl⟩
  exact hall n at_ _ xs l rfl h

end Walk

/-! ## What a successful call did -/

variable {fs fs' : Fs} {full l src dst : Loc} {u : Unit}

theorem walk_of_canonicalize {comps : List Name} (h : fs.canonicalize comps = .ok l) :
    fs.walk MAXSYMLINKS [] comps = .found l := by
  unfold canonicalize at h
  split at h
  · next l' hw =>
    cases h
    exact hw
  · cases h
  · cases h

theorem leaf_found (h : fs.leaf false full = .found l) : l = full ∧ fs.get full ≠ none := by
  unfold leaf at h
  cases hget : fs.get full with
  | none =>
    rw [hget] at h
    rcases hp : fs.get full.dropLast with _ | _ | _ | _ <;> rw [hp] at h <;> cases h
  | some node =>
    rw [hget] at h
    cases node <;> cases h <;> exact ⟨rfl, by simp⟩

theorem leaf_vacant (h : fs.leaf false full = .vacant l) : l = full ∧ fs.get full = none := by
  unfold leaf at h
  cases hget : fs.get full with
  | none =>
    rw [hget] at h
    rcases hp : fs.get full.dropLast with _ | _ | _ | _ <;> rw [hp] at h <;> cases h
    exact ⟨rfl, rfl⟩
  | some node =>
    rw [hget] at h
    cases node <;> cases h

theorem removeFile_ok (h : fs.removeFile full = .ok (u, fs')) :
    (fs.get full ≠ none ∧ fs.get full ≠ some .dir) ∧ fs' = fs.removeEntry full := by
  unfold removeFile at h
  split at h
  · next l hl =>
    obtain ⟨rfl, hne⟩ := leaf_found hl
    split at h
    · cases h
    · next hdir =>
      cases h
      exact ⟨⟨hne, hdir⟩, rfl⟩
  · cases h
  · cases h

theorem removeDir_ok (h : fs.removeDir full = .ok (u, fs')) :
    (fs.get full = some .dir ∧ PathMap.below fs.tree full = false) ∧
      fs' = fs.removeEntry full := by
  unfold removeDir at h
  split at h
  · next l hl =>
    obtain ⟨rfl, _⟩ := leaf_found hl
    split at h
    · next hdir =>
      split at h
      · cases h
      · next hempty =>
        cases h
        exact ⟨⟨hdir, by simpa using hempty⟩, rfl⟩
    · cases h
  · cases h
  · cases h

/-- The source and the destination are two names of one file. -/
def TwoNames (fs : Fs) (src dst : Loc) : Prop :=
  src ≠ dst ∧ ∃ ino, fs.get src = some (.file ino) ∧ fs.get dst = some (.file ino)

theorem sameFile_iff {a b : Node} : sameFile a b = true ↔ ∃ ino, a = .file ino ∧ b = .file ino := by
  cases a <;> cases b <;> simp [sameFile, eq_comm]

theorem not_twoNames (h : ∀ i, fs.get dst ≠ some (.file i)) : ¬ fs.TwoNames src dst := by
  rintro ⟨_, i, _, hd⟩
  exact h i hd

theorem renameTo_ok {n : Node} (hsrc : fs.get src = some n)
    (h : fs.renameTo src dst n (fs.get dst) = .ok (u, fs')) :
    (src = dst ∨ ¬ dst <+: src ∧ fs.TwoNames src dst) ∧ fs' = fs.touch [src, dst] ∨
      ¬ src <+: dst ∧ ¬ dst <+: src ∧ ¬ fs.TwoNames src dst ∧ fs' = fs.moveEntry src dst := by
  unfold renameTo at h
  by_cases heq : src = dst
  · rw [if_pos heq] at h
    cases h
    exact .inl ⟨.inl heq, rfl⟩
  rw [if_neg heq] at h
  by_cases h₁ : src <+: dst
  · rw [if_pos h₁] at h
    cases h
  rw [if_neg h₁] at h
  by_cases h₂ : dst <+: src
  · rw [if_pos h₂] at h
    cases h
  rw [if_neg h₂] at h
  rcases hdst : fs.get dst with _ | _ | ino | t <;> rw [hdst] at h
  · cases h
    exact .inr ⟨h₁, h₂, not_twoNames (by simp [hdst]), rfl⟩
  · simp only at h
    split at h
    · cases h
    · split at h
      · cases h
      · cases h
        exact .inr ⟨h₁, h₂, not_twoNames (by simp [hdst]), rfl⟩
  all_goals
    simp only at h
    split at h
    · cases h
    · split at h
      · next hsame =>
        cases h
        obtain ⟨i, rfl, hi⟩ := sameFile_iff.mp hsame
        exact .inl ⟨.inr ⟨h₂, heq, i, hsrc, by rw [hdst, hi]⟩, rfl⟩
      · next hsame =>
        cases h
        refine .inr ⟨h₁, h₂, ?_, rfl⟩
        rintro ⟨_, i, hs, hd⟩
        rw [hsrc] at hs
        rw [hdst] at hd
        cases hs
        exact hsame (sameFile_iff.mpr ⟨i, rfl, Option.some.inj hd⟩)

/-- **What a rename does.**  It leaves the tree as it is when both paths name one
entry or one file, and moves the entry otherwise. -/
theorem rename_ok (h : fs.rename src dst = .ok (u, fs')) :
    fs.get src ≠ none ∧
      ((src = dst ∨ ¬ dst <+: src ∧ fs.TwoNames src dst) ∧ fs' = fs.touch [src, dst] ∨
        ¬ src <+: dst ∧ ¬ dst <+: src ∧ ¬ fs.TwoNames src dst ∧ fs' = fs.moveEntry src dst) := by
  unfold rename at h
  split at h
  · next ls ld hls hld =>
    obtain ⟨rfl, hne⟩ := leaf_found hls
    obtain ⟨rfl, _⟩ := leaf_found hld
    cases hsrc : fs.get ls with
    | none => exact absurd hsrc hne
    | some n =>
      rw [hsrc] at h
      exact ⟨by simp, renameTo_ok hsrc h⟩
  · next ls ld hls hld =>
    obtain ⟨rfl, hne⟩ := leaf_found hls
    obtain ⟨rfl, hnone⟩ := leaf_vacant hld
    cases hsrc : fs.get ls with
    | none => exact absurd hsrc hne
    | some n =>
      rw [hsrc, ← hnone] at h
      exact ⟨by simp, renameTo_ok hsrc h⟩
  · cases h
  · cases h
  · cases h

/-- Opening `full` for creation ends at the file or the vacant place `l`. -/
def OpensAt (fs : Fs) (full l : Loc) : Prop :=
  fs.leaf true full = .vacant l ∨
    fs.leaf true full = .found l ∧ ∃ ino, fs.get l = some (.file ino)

theorem openFile_ok {write trunc : Bool} {r : Loc × Node}
    (h : fs.openFile full write trunc = .ok (r, fs')) :
    fs.leaf true full = .found r.1 ∧ fs.get r.1 = some r.2 ∧
      fs' = (match r.2 with
        | .file ino => if trunc then fs.truncate ino else fs
        | _ => fs).touch [r.1] := by
  unfold openFile at h
  split at h
  · next l hl =>
    split at h
    · next ino hget =>
      cases h
      exact ⟨hl, hget, rfl⟩
    · next n hn hget =>
      split at h
      · cases h
      · cases h
        refine ⟨hl, hget, ?_⟩
        cases n with
        | file ino => exact absurd rfl (hn ino)
        | dir => rfl
        | symlink t => rfl
    · cases h
  · cases h
  · cases h

theorem openCreate_ok {trunc : Bool} (h : fs.openCreate full trunc = .ok (r, fs')) :
    fs.leaf true full = .vacant r.1 ∧ fs' = (fs.newFile r.1).touch [r.1] ∨
      fs.leaf true full = .found r.1 ∧ fs.get r.1 = some (.file r.2) ∧
        fs' = (if trunc then fs.truncate r.2 else fs).touch [r.1] := by
  unfold openCreate at h
  split at h
  · next l hl =>
    split at h
    · next ino hget =>
      cases h
      exact .inr ⟨hl, hget, rfl⟩
    · cases h
  · next l hl =>
    cases h
    exact .inl ⟨hl, rfl⟩
  · cases h

theorem openCreate_of_opensAt (h : fs.OpensAt full l) (trunc : Bool) :
    ∃ ino fs', fs.openCreate full trunc = .ok ((l, ino), fs') := by
  rcases h with hv | ⟨hf, ino, hget⟩
  · exact ⟨_, _, by rw [openCreate, hv]⟩
  · exact ⟨ino, _, by rw [openCreate, hf]; simp only [hget]; rfl⟩

theorem leaf_of_createNew (h : fs.createNew full = .ok (r, fs')) :
    fs.leaf false full = .vacant full := by
  unfold createNew at h
  split at h
  · cases h
  · next l hl =>
    obtain ⟨rfl, -⟩ := leaf_vacant hl
    exact hl
  · cases h

theorem createNew_ok (h : fs.createNew full = .ok (r, fs')) :
    r = (full, fs.nextIno) ∧ fs' = (fs.newFile full).touch [full] := by
  simp only [createNew, leaf_of_createNew h] at h
  cases h
  exact ⟨rfl, rfl⟩

theorem leaf_of_makeEntry {n : Node} (h : fs.makeEntry full n = .ok (u, fs')) :
    fs.leaf false full = .vacant full := by
  unfold makeEntry at h
  split at h
  · cases h
  · next l hl =>
    obtain ⟨rfl, -⟩ := leaf_vacant hl
    exact hl
  · cases h

theorem makeEntry_ok {n : Node} (h : fs.makeEntry full n = .ok (u, fs')) :
    fs' = { fs with tree := PathMap.put fs.tree full n }.touch [full] := by
  simp only [makeEntry, leaf_of_makeEntry h] at h
  cases h
  rfl

theorem hardLink_ok (h : fs.hardLink src dst = .ok (u, fs')) :
    ∃ n, fs.get src = some n ∧
      fs' = { fs with tree := PathMap.put fs.tree dst n }.touch [src, dst] := by
  unfold hardLink at h
  split at h
  · next ls hl =>
    obtain ⟨rfl, _⟩ := leaf_found hl
    split at h
    · cases h
    · next n _ hget =>
      split at h
      · next fs₁ hmade =>
        obtain rfl := makeEntry_ok hmade
        cases h
        exact ⟨n, hget, rfl⟩
      · cases h
    · cases h
  · cases h
  · cases h

theorem readLink_ok {t : Text} (h : fs.readLink full = .ok (t, fs')) : fs' = fs.touch [full] := by
  unfold readLink at h
  split at h
  · next l hl =>
    obtain ⟨rfl, _⟩ := leaf_found hl
    split at h
    · cases h
      rfl
    · cases h
  · cases h
  · cases h

theorem leaf_true_found (hno : ∀ t, fs.get full ≠ some (.symlink t))
    (h : fs.leaf true full = .found l) : l = full := by
  unfold leaf at h
  split at h
  · split at h <;> cases h
  · next t hget => exact absurd hget (hno t)
  · cases h
    rfl

theorem get_removeEntry (fs : Fs) (l q : Loc) :
    (fs.removeEntry l).get q = if q = l then none else fs.get q := by
  by_cases h : q = l
  · subst h
    rw [if_pos rfl]
    exact PathMap.get_del_self fs.tree q
  · rw [if_neg h]
    exact PathMap.get_del_of_ne fs.tree h

theorem get_moveEntry (fs : Fs) (h₁ : ¬ src <+: dst) (h₂ : ¬ dst <+: src) (q : Loc) :
    (fs.moveEntry src dst).get q =
      if dst <+: q then fs.get (src ++ q.drop dst.length)
      else if src <+: q then none else fs.get q :=
  PathMap.get_move fs.tree h₁ h₂ q

/-! ## What depends on the tree alone -/

section Tree

variable (h : fs'.tree = fs.tree)

include h

theorem get_of_tree (l : Loc) : fs'.get l = fs.get l := by
  rw [get, get, h]

theorem walk_of_tree (n : ℕ) : fs'.walk n = fs.walk n := by
  have hin : ∀ next todo at_, fs'.walkIn next at_ todo = fs.walkIn next at_ todo := by
    intro next todo
    induction todo with
    | nil =>
      intro at_
      rw [walkIn, walkIn, isDir, isDir, get_of_tree h]
    | cons c rest ih =>
      intro at_
      rw [walkIn, walkIn, isDir, isDir, get_of_tree h, get_of_tree h]
      simp only [ih]
  induction n with
  | zero =>
    funext at_ todo
    exact hin _ todo at_
  | succ n ih =>
    funext at_ todo
    rw [walk, walk, ih]
    exact hin _ todo at_

theorem leaf_of_tree (follow : Bool) (full : Loc) : fs'.leaf follow full = fs.leaf follow full := by
  rw [leaf, leaf, get_of_tree h, get_of_tree h, walk_of_tree h]

end Tree

end Fs
end AlloyFs
