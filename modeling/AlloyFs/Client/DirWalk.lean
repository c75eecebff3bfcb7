import AlloyFs.Client.Seen
import AlloyFs.Lib.Enumeration

/-!
# Reading a directory page by page

A directory is read in pages, and two loops are nested.  The client asks the server for one page
after the other, and the server cuts each from the listing as it is at that moment, from the
place the last page ended at.  The kernel asks the mount for one reply after the other, and the
mount makes a whole listing for each of them and cuts it at the place the last reply ended at.

Both cursors are places in a list that is made again each time.  So an entry that stays is read
exactly once as long as no change carries it over a cursor, and is left out or read twice if
one does: removing a name that sorts before it moves it one place down, adding one moves it up.
-/

namespace AlloyFs

open List

/-! ## The names the server lists -/

namespace Fs

theorem nodup_children (fs : Fs) (l : Loc) : (fs.children l).Nodup := by
  rw [children, (perm_insertionSort _ _).nodup_iff]
  exact nodup_dedup _

theorem pairwise_children (fs : Fs) (l : Loc) : (fs.children l).Pairwise textLt := by
  have hsorted : (fs.children l).Pairwise textLe := by
    simp only [children]
    apply pairwise_insertionSort
  refine hsorted.imp₂ (fun a b hle hne => ?_) (fs.nodup_children l)
  exact textLt_of_le hle hne

end Fs

namespace Ctx

variable {x : Export} {c : Ctx} {path : RelPath} {full : Loc}

theorem names_listing : (listing x c path full).map DirEntry.name =
    (c.fs.children full).filter fun n => !x.exclude.isExcluded (path.join n) := by
  rw [listing, ← filterMap_eq_filter, map_filterMap]
  refine filterMap_congr fun name hname => ?_
  obtain ⟨md, hmd⟩ :=
    Option.ne_none_iff_exists'.mp (mt Fs.stat_eq_none.mp (Fs.mem_children.mp hname))
  cases hex : x.exclude.isExcluded (path.join name) <;> simp [hex, hmd, Option.guard]

/-- The names the server lists of a directory; none if it is not there. -/
def names (x : Export) (c : Ctx) (path : RelPath) : List Name :=
  match x.resolve c.fs path with
  | .error _ => []
  | .ok full => if c.fs.isDir full then (listing x c path full).map DirEntry.name else []

theorem pairwise_names : (names x c path).Pairwise textLt := by
  rw [names]
  split
  · exact .nil
  · split
    · rw [names_listing]
      exact (c.fs.pairwise_children _).filter _
    · exact .nil

theorem nodup_names (x : Export) (c : Ctx) (path : RelPath) : (names x c path).Nodup := by
  apply List.Pairwise.imp _ pairwise_names
  rintro a b hlt rfl
  exact textLt_irrefl a hlt

theorem count_names {n : Name} (h : n ∈ names x c path) : (names x c path).count n = 1 :=
  count_eq_one_of_mem (nodup_names x c path) h

/-- How many names are listed before a name. -/
def before (x : Export) (c : Ctx) (path : RelPath) (n : Name) : ℕ :=
  (names x c path).countP fun m => decide (m < n)

theorem idxOf_names {n : Name} (h : n ∈ names x c path) :
    (names x c path).idxOf n = before x c path n := idxOf_eq_countP pairwise_names h

end Ctx

/-! ## The pages of the server -/

/-- A listing that is being read from the server: the cursor of the next page, none behind the
last one, and the entries so far. -/
structure PageLoop where
  cursor : Option ℕ
  out : List DirEntry

namespace PageLoop

def start : PageLoop := ⟨some 0, []⟩

/-- Ask for the next page. -/
def next (x : Export) (dir : RelPath) (c : Ctx) (p : PageLoop) : Option PageLoop :=
  match p.cursor with
  | none => none
  | some cursor =>
    match Ctx.handle x (.readdir dir cursor) c with
    | .ok (some (.dir entries next)) _ => some ⟨next, p.out ++ entries⟩
    | _ => none

/-- The names read so far. -/
def names (p : PageLoop) : List Name := p.out.map DirEntry.name

/-- How often a name will have been read if nothing moves any more. -/
def due (x : Export) (dir : RelPath) (c : Ctx) (n : Name) (p : PageLoop) : ℕ :=
  match p.cursor with
  | none => p.names.count n
  | some cursor => Enumeration.due ⟨cursor, p.names⟩ (Ctx.names x c dir) n

variable {x : Export} {dir : RelPath} {c c' : Ctx} {n : Name} {p p' : PageLoop}

/-- A page is the next chunk of the names listed, and behind the last page there are none. -/
theorem next_cases (h : p.next x dir c = some p') : ∃ cursor, p.cursor = some cursor ∧
    let e := Enumeration.read ⟨cursor, p.names⟩ (Ctx.names x c dir) READDIR_PAGE
    p'.names = e.out ∧ (p'.cursor = some e.cursor ∧ e.cursor < (Ctx.names x c dir).length ∨
      p'.cursor = none ∧ (Ctx.names x c dir).length ≤ e.cursor) := by
  unfold next at h
  cases hcur : p.cursor with
  | none =>
    rw [hcur] at h
    cases h
  | some cursor =>
    simp only [hcur] at h
    refine ⟨cursor, rfl, ?_⟩
    cases hrun : Ctx.handle x (.readdir dir cursor) c with
    | error e c' =>
      rw [hrun] at h
      cases h
    | ok r c' =>
      obtain ⟨hauth, hatt, full, hres, hdir⟩ := Ctx.of_handle_readdir hrun
      have hnames : Ctx.names x c dir = (Ctx.listing x c dir full).map DirEntry.name := by
        rw [Ctx.names, hres]
        exact if_pos (Fs.isDir_iff.mpr hdir)
      rw [Ctx.handle_readdir hauth hatt hres hdir cursor, readdirPage] at h
      cases h
      simp only [names, Enumeration.read, hnames, map_append, ← map_drop,
        ← map_take, length_map, true_and]
      split
      · next hmore => exact .inl ⟨rfl, hmore⟩
      · exact .inr ⟨rfl, by omega⟩

theorem due_next (hn : n ∈ Ctx.names x c dir) (h : p.next x dir c = some p') :
    p'.due x dir c n = p.due x dir c n := by
  obtain ⟨cursor, hcur, hnames, hcur'⟩ := next_cases h
  have hread := Enumeration.due_read (e := ⟨cursor, p.names⟩) (Ctx.count_names hn) READDIR_PAGE
  simp only [due, hcur, ← hread]
  rcases hcur' with ⟨hmore, -⟩ | ⟨hlast, hend⟩
  · rw [hmore, hnames]
  · rw [hlast, hnames]
    exact Enumeration.count_out_of_length_le hn hend

/-- The entry is before the cursor now if and only if it was. -/
def keepsSide (x : Export) (dir : RelPath) (n : Name) (c c' : Ctx) (p : PageLoop) : Prop :=
  ∀ cursor ∈ p.cursor, (Ctx.before x c dir n < cursor ↔ Ctx.before x c' dir n < cursor)
deriving Decidable

/-- A change on the server keeps what is due if it leaves the entry on its side. -/
theorem due_of_keepsSide (hn : n ∈ Ctx.names x c dir) (hn' : n ∈ Ctx.names x c' dir)
    (h : p.keepsSide x dir n c c') : p.due x dir c' n = p.due x dir c n := by
  cases hcur : p.cursor with
  | none => simp only [due, hcur]
  | some cursor =>
    simp only [due, hcur]
    rw [Enumeration.due_eq_iff, Ctx.idxOf_names hn, Ctx.idxOf_names hn']
    exact h cursor hcur

theorem due_start : start.due x dir c n = 1 := rfl

end PageLoop

/-! ## The loop over the pages -/

/-- A listing is read from a server that changes. -/
structure PageWalk where
  ctx : Ctx
  loop : PageLoop

inductive PageStep
  /-- others change the directory, or anything else on the server -/
  | change (ctx : Ctx)
  /-- the next page is asked for -/
  | page

namespace PageWalk

variable (x : Export) (dir : RelPath)

def init (c : Ctx) : PageWalk := ⟨c, .start⟩

def step (s : PageWalk) : PageStep → Option PageWalk
  | .change c => some { s with ctx := c }
  | .page => (s.loop.next x dir s.ctx).map fun p => { s with loop := p }

/-- The condition on a change: the entry is still listed, and on the same side of the cursor. -/
def keepsPlace (n : Name) (s : PageWalk) : PageStep → Prop
  | .change c => n ∈ Ctx.names x c dir ∧ s.loop.keepsSide x dir n s.ctx c
  | .page => True

instance (n : Name) (s : PageWalk) : (l : PageStep) → Decidable (keepsPlace x dir n s l)
  | .change _ => inferInstanceAs (Decidable (_ ∧ _))
  | .page => inferInstanceAs (Decidable True)

/-- **An entry that stays is due once** in every state of a run that does not carry it over the
cursor. -/
theorem due_of_reaches {x : Export} {dir : RelPath} {n : Name} {c : Ctx} {s : PageWalk}
    (hn : n ∈ Ctx.names x c dir) (h : Reaches (step x dir) (keepsPlace x dir n) (init c) s) :
    n ∈ Ctx.names x s.ctx dir ∧ s.loop.due x dir s.ctx n = 1 := by
  refine h.invariant (fun s => n ∈ Ctx.names x s.ctx dir ∧ s.loop.due x dir s.ctx n = 1)
    ⟨hn, PageLoop.due_start⟩ ?_
  rintro s l s' ⟨hin, hdue⟩ hok hstep
  cases l with
  | change c' =>
    cases hstep
    exact ⟨hok.1, (PageLoop.due_of_keepsSide hin hok.1 hok.2).trans hdue⟩
  | page =>
    obtain ⟨p, hp, rfl⟩ := Option.map_eq_some_iff.mp hstep
    exact ⟨hin, (PageLoop.due_next hin hp).trans hdue⟩

end PageWalk

/-! ## The loop over the replies -/

/-- What is fixed about a mount: the export, and the patterns and the place of its overlay if it
has one. -/
structure DirConfig where
  x : Export
  overlay : Option (List Pattern × Loc)

namespace DirConfig

variable (cfg : DirConfig)

/-- Is this path routed to the local overlay? -/
def isOverlay (path : RelPath) : Bool :=
  cfg.overlay.any fun o => (OverlayConfig.mk cfg.x o.1 o.2).isOverlay path

/-- The entries of a directory on the local disk. -/
def readdirChildren (w : OverlayMount) (dir : RelPath) : List (Name × Attr) :=
  match cfg.overlay with
  | none => []
  | some o => w.readdirChildren ⟨cfg.x, o.1, o.2⟩ dir

/-- The names `RemoteFs::readdir` returns: those the server listed that are not shadowed, and the
overlay entries. -/
def merged (dir : RelPath) (server locals : List Name) : List Name :=
  if cfg.isOverlay dir then locals
  else
    server.filter (fun n => !cfg.isOverlay (dir.join n)) ++
      locals.filter fun n => cfg.isOverlay (dir.join n)

/-- The names that are in a directory of the mount at one moment. -/
def names (w : OverlayMount) (dir : RelPath) : List Name :=
  cfg.merged dir (Ctx.names cfg.x w.ctx dir) ((cfg.readdirChildren w dir).map Prod.fst)

variable {cfg} {w : OverlayMount} {dir : RelPath} {n : Name} {server locals : List Name}

theorem nodup_readdirChildren : ((cfg.readdirChildren w dir).map Prod.fst).Nodup := by
  have hchildren (l : Loc) : ((w.disk.fs.children l).filterMap fun name =>
      (w.disk.fs.stat (l ++ [name])).map fun md => (name, attrFromMetadata md 0)).map Prod.fst =
      w.disk.fs.children l := by
    rw [map_filterMap]
    refine (filterMap_congr fun name hname => ?_).trans filterMap_some
    obtain ⟨md, hmd⟩ :=
      Option.ne_none_iff_exists'.mp (mt Fs.stat_eq_none.mp (Fs.mem_children.mp hname))
    simp [hmd]
  rw [readdirChildren]
  split
  · exact .nil
  · rw [OverlayMount.readdirChildren]
    split
    · exact .nil
    · split
      · rw [hchildren]
        exact Fs.nodup_children _ _
      · exact .nil

/-- A name that is in the directory is in what is returned once, if the listing of the server has
it once. -/
theorem count_merged (hn : n ∈ cfg.names w dir)
    (hserver : n ∈ Ctx.names cfg.x w.ctx dir → cfg.isOverlay dir = false →
      cfg.isOverlay (dir.join n) = false → server.count n = 1)
    (hlocals : locals.Perm ((cfg.readdirChildren w dir).map Prod.fst)) :
    (cfg.merged dir server locals).count n = 1 := by
  have honce : n ∈ (cfg.readdirChildren w dir).map Prod.fst → locals.count n = 1 := by
    intro hmem
    rw [hlocals.count_eq]
    exact count_eq_one_of_mem nodup_readdirChildren hmem
  rw [names, merged] at hn
  rw [merged]
  cases hdir : cfg.isOverlay dir with
  | true =>
    rw [hdir, if_pos rfl] at hn
    rw [if_pos rfl]
    exact honce hn
  | false =>
    rw [hdir, if_neg Bool.false_ne_true, mem_append, mem_filter, mem_filter] at hn
    rw [if_neg Bool.false_ne_true, count_append]
    cases hname : cfg.isOverlay (dir.join n) with
    | true =>
      have hnone : (server.filter fun m => !cfg.isOverlay (dir.join m)).count n = 0 :=
        count_eq_zero.mpr (by simp [hname])
      rw [hnone, Nat.zero_add, count_filter (by simpa using hname)]
      exact honce (by simpa [hname] using hn)
    | false =>
      have hnone : (locals.filter fun m => cfg.isOverlay (dir.join m)).count n = 0 :=
        count_eq_zero.mpr (by simp [hname])
      rw [hnone, Nat.add_zero, count_filter (by simp [hname])]
      exact hserver (by simpa [hname] using hn) hdir hname

end DirConfig

/-- A directory of a mount is read by the kernel. -/
structure DirWalk where
  world : OverlayMount
  /-- the listing that is being made for a request of the kernel -/
  reading : Option PageLoop
  /-- the place the next request asks for -/
  offset : ℕ
  /-- the names in the replies so far -/
  given : List Name
  finished : Bool
  /-- the listing the last reply was cut from; no longer there, and only spoken about -/
  last : List Name

inductive WalkStep
  /-- others change the server, or the overlay is changed -/
  | change (world : OverlayMount)
  /-- the kernel asks for the entries from its offset on -/
  | ask
  /-- the next page is asked for -/
  | page
  /-- the listing is complete and a reply is made of it; the buffer has room for `room` entries,
  and the local directory is listed in the order the operating system likes -/
  | reply (room : ℕ) (locals : List Name)

namespace DirWalk

variable (cfg : DirConfig) (dir : RelPath)

def init (w : OverlayMount) : DirWalk := ⟨w, none, 0, [], false, []⟩

/-- The list a reply is cut from. -/
def all (p : PageLoop) (locals : List Name) : List Name :=
  ['.'] :: ['.', '.'] :: cfg.merged dir p.names locals

/-- What the kernel does with a reply: it asks for the place behind it, and an empty one is the
end. -/
def replied (s : DirWalk) (all : List Name) (room : ℕ) : DirWalk :=
  let entries := (all.drop s.offset).take room
  { s with
    reading := none
    offset := s.offset + entries.length
    given := s.given ++ entries
    finished := entries.isEmpty
    last := all }

def step (s : DirWalk) : WalkStep → Option DirWalk
  | .change w => some { s with world := w }
  | .ask =>
    if s.finished || s.reading.isSome then none
    -- the listing of an overlay directory needs no page
    else some { s with reading := some (if cfg.isOverlay dir then ⟨none, []⟩ else .start) }
  | .page =>
    match s.reading with
    | none => none
    | some p => (p.next cfg.x dir s.world.ctx).map fun p => { s with reading := some p }
  | .reply room locals =>
    match s.reading with
    | none => none
    | some p =>
      if p.cursor = none ∧ 0 < room ∧
          locals.Perm ((cfg.readdirChildren s.world dir).map Prod.fst) then
        some (s.replied (all cfg dir p locals) room)
      else none

/-- The entry comes from the server. -/
def served (n : Name) : Prop := cfg.isOverlay dir = false ∧ cfg.isOverlay (dir.join n) = false
deriving Decidable

/-- The condition: after a change the entry is still there, and on the same side of the cursor of
the pages; and in the listing a reply is cut from it is on the side of the offset that it was on
in the listing before. -/
def keepsPlace (n : Name) (s : DirWalk) : WalkStep → Prop
  | .change w => n ∈ cfg.names w dir ∧
      (served cfg dir n → ∀ p ∈ s.reading, p.keepsSide cfg.x dir n s.world.ctx w.ctx)
  | .reply _ locals => ∀ p ∈ s.reading,
      (s.last.idxOf n < s.offset ↔ (all cfg dir p locals).idxOf n < s.offset)
  | .ask | .page => True

instance (n : Name) (s : DirWalk) : (l : WalkStep) → Decidable (keepsPlace cfg dir n s l)
  | .change _ => inferInstanceAs (Decidable (_ ∧ (_ → ∀ p ∈ s.reading, _)))
  | .reply .. => inferInstanceAs (Decidable (∀ p ∈ s.reading, _))
  | .ask | .page => inferInstanceAs (Decidable True)

/-- The entry is there, it is due once in the listing that is being made, and once in the
replies. -/
structure Inv (n : Name) (s : DirWalk) : Prop where
  here : n ∈ cfg.names s.world dir
  pages : served cfg dir n → ∀ p ∈ s.reading, p.due cfg.x dir s.world.ctx n = 1
  running : s.reading.isSome → s.finished = false
  replies : if s.finished then s.given.count n = 1
    else Enumeration.due ⟨s.offset, s.given⟩ s.last n = 1

variable {cfg} {dir} {n : Name} {s s' : DirWalk} {l : WalkStep}

theorem mem_names_of_served (hn : n ∈ cfg.names s.world dir) (h : served cfg dir n) :
    n ∈ Ctx.names cfg.x s.world.ctx dir := by
  obtain ⟨hdir, hname⟩ := h
  rw [DirConfig.names, DirConfig.merged, hdir, if_neg Bool.false_ne_true, mem_append,
    mem_filter, mem_filter] at hn
  simpa [hname] using hn

theorem inv_replied {p : PageLoop} {locals : List Name} {room : ℕ}
    (hdots : n ≠ ['.'] ∧ n ≠ ['.', '.']) (hi : s.Inv cfg dir n) (hp : s.reading = some p)
    (hdone : p.cursor = none) (hroom : 0 < room)
    (hlocals : locals.Perm ((cfg.readdirChildren s.world dir).map Prod.fst))
    (hok : s.last.idxOf n < s.offset ↔ (all cfg dir p locals).idxOf n < s.offset) :
    (s.replied (all cfg dir p locals) room).Inv cfg dir n := by
  have honce : (all cfg dir p locals).count n = 1 := by
    rw [all, count_cons_of_ne hdots.1.symm, count_cons_of_ne hdots.2.symm]
    refine DirConfig.count_merged hi.here (fun _ hdir hname => ?_) hlocals
    have hdue := hi.pages ⟨hdir, hname⟩ p hp
    simpa only [PageLoop.due, hdone] using hdue
  have hdue : Enumeration.due ⟨s.offset, s.given⟩ (all cfg dir p locals) n = 1 := by
    have hreplies := hi.replies
    rw [hi.running (by rw [hp]; rfl), if_neg Bool.false_ne_true] at hreplies
    rw [← hreplies, Enumeration.due_eq_iff]
    exact hok
  have hread := (Enumeration.due_read (e := ⟨s.offset, s.given⟩) honce room).trans hdue
  refine ⟨hi.here, fun _ p' hp' => absurd hp' (Option.not_mem_none p'), nofun, ?_⟩
  cases hempty : (((all cfg dir p locals).drop s.offset).take room).isEmpty with
  | false =>
    simpa only [replied, hempty, Bool.false_eq_true, if_false, Enumeration.read] using hread
  | true =>
    have hnil := isEmpty_iff.mp hempty
    have hend := Enumeration.length_le_of_chunk_eq_nil (e := ⟨s.offset, s.given⟩) hroom hnil
    have hmem : n ∈ all cfg dir p locals := count_pos_iff.mp (by omega)
    simp only [replied, hnil, append_nil, isEmpty_nil, if_true]
    exact (Enumeration.count_out_of_length_le hmem hend).trans hdue

theorem Inv.step (hdots : n ≠ ['.'] ∧ n ≠ ['.', '.']) (hi : s.Inv cfg dir n)
    (hok : s.keepsPlace cfg dir n l) (h : s.step cfg dir l = some s') : s'.Inv cfg dir n := by
  cases l with
  | change w =>
    cases h
    refine ⟨hok.1, fun hserved p hp => ?_, hi.running, hi.replies⟩
    rw [← hi.pages hserved p hp]
    exact PageLoop.due_of_keepsSide (mem_names_of_served hi.here hserved)
      (mem_names_of_served (s := { s with world := w }) hok.1 hserved) (hok.2 hserved p hp)
  | ask =>
    obtain ⟨hidle, hs'⟩ := Option.ite_none_left_eq_some.mp h
    simp only [Bool.or_eq_true, not_or, Bool.not_eq_true] at hidle
    cases hs'
    refine ⟨hi.here, fun hserved p hp => ?_, fun _ => hidle.1, hi.replies⟩
    obtain rfl := Option.some.inj hp
    rw [if_neg (by simp [hserved.1])]
    exact PageLoop.due_start
  | page =>
    simp only [DirWalk.step] at h
    cases hp : s.reading with
    | none =>
      rw [hp] at h
      cases h
    | some p =>
      rw [hp] at h
      obtain ⟨p', hnext, rfl⟩ := Option.map_eq_some_iff.mp h
      refine ⟨hi.here, fun hserved q hq => ?_, fun _ => hi.running (by rw [hp]; rfl), hi.replies⟩
      obtain rfl := Option.some.inj hq
      exact (PageLoop.due_next (mem_names_of_served hi.here hserved) hnext).trans
        (hi.pages hserved p hp)
  | reply room locals =>
    simp only [DirWalk.step] at h
    cases hp : s.reading with
    | none =>
      rw [hp] at h
      cases h
    | some p =>
      rw [hp] at h
      obtain ⟨⟨hdone, hroom, hlocals⟩, rfl⟩ := of_guard h
      exact inv_replied hdots hi hp hdone hroom hlocals (hok p hp)

theorem inv_init {w : OverlayMount} (hn : n ∈ cfg.names w dir) : (init w).Inv cfg dir n :=
  ⟨hn, fun _ p hp => absurd hp (Option.not_mem_none p), nofun, rfl⟩

end DirWalk

/-- **An entry that stays is read exactly once** if no change carries it over a cursor: it is in
the pages of a listing once, and in the replies to the kernel once. -/
theorem DirConfig.read_once (cfg : DirConfig) (dir : RelPath) (n : FileName) :
    (∀ c s, n.1 ∈ Ctx.names cfg.x c dir →
      Reaches (PageWalk.step cfg.x dir) (PageWalk.keepsPlace cfg.x dir n.1) (.init c) s →
      s.loop.cursor = none → s.loop.names.count n.1 = 1) ∧
    ∀ w s, n.1 ∈ cfg.names w dir →
      Reaches (DirWalk.step cfg dir) (DirWalk.keepsPlace cfg dir n.1) (.init w) s →
      s.finished = true → s.given.count n.1 = 1 := by
  constructor
  · intro c s hn hreach hdone
    have hdue := (PageWalk.due_of_reaches hn hreach).2
    simpa only [PageLoop.due, hdone] using hdue
  · intro w s hn hreach hdone
    have hinv := hreach.invariant (DirWalk.Inv cfg dir n.1) (DirWalk.inv_init hn)
      fun _ _ _ hi hok hstep => hi.step ⟨n.2.1.2.1, n.2.1.2.2⟩ hok hstep
    simpa only [hdone, if_true] using hinv.replies

/-! ## A directory with many entries -/

/-- A server whose export has the given entries. -/
def fullDir (ns : List Name) : Ctx :=
  { Agent.ofTree (([], .dir) :: ([['s', 'r', 'v']], .dir) ::
      ns.map fun n => ([['s', 'r', 'v'], n], .dir)) [] with me := .first }

theorem get_fullDir (ns : List Name) (n : Name) :
    (fullDir ns).fs.get ([['s', 'r', 'v']] ++ [n]) ≠ none ↔ n ∈ ns := by
  have hskip : (fullDir ns).fs.get ([['s', 'r', 'v']] ++ [n]) =
      PathMap.get (ns.map fun n => ([['s', 'r', 'v'], n], Node.dir)) [['s', 'r', 'v'], n] := rfl
  rw [hskip]
  clear hskip
  induction ns with
  | nil => simp
  | cons m ns ih =>
    rw [map_cons, PathMap.get_cons]
    by_cases hm : m = n
    · simp [hm]
    · rw [if_neg (by simpa using hm), mem_cons]
      exact ih.trans (or_iff_right (Ne.symm hm)).symm

variable {ns : List Name}

theorem names_fullDir (h : ns.Pairwise textLt) :
    Ctx.names .srv (fullDir ns) ⟨[]⟩ = ns := by
  have hchildren : (fullDir ns).fs.children [['s', 'r', 'v']] = ns := by
    have hnodup : ns.Nodup := by
      apply List.Pairwise.imp _ h
      rintro a b hlt rfl
      exact textLt_irrefl a hlt
    have hperm : ((fullDir ns).fs.children [['s', 'r', 'v']]).Perm ns := by
      rw [perm_ext_iff_of_nodup (Fs.nodup_children _ _) hnodup]
      intro n
      rw [Fs.mem_children, get_fullDir]
    refine hperm.eq_of_pairwise (fun a b _ _ hab hba => ?_) (Fs.pairwise_children _ _) h
    exact absurd hba (textLt_asymm hab)
  have hnames : Ctx.names .srv (fullDir ns) ⟨[]⟩ =
      (Ctx.listing .srv (fullDir ns) ⟨[]⟩ [['s', 'r', 'v']]).map DirEntry.name := rfl
  rw [hnames, Ctx.names_listing, hchildren]
  refine filter_eq_self.mpr fun n _ => ?_
  simp [ExcludeSet.isExcluded, Export.srv, ExcludeSet.none]

/-- The four digits of a number. -/
def numbered (i : ℕ) : Name := [i / 1000, i / 100 % 10, i / 10 % 10, i % 10].map Nat.digitChar

/-- The names from one number on. -/
def numbers (start count : ℕ) : List Name := (range' start count).map numbered

theorem numbers_append (start m n : ℕ) :
    numbers start m ++ numbers (start + m) n = numbers start (m + n) := by
  rw [numbers, numbers, numbers, ← map_append, range'_append_1]

theorem pairwise_numbers {start count : ℕ} (h : start + count ≤ 1025) :
    (numbers start count).Pairwise textLt := by
  have hall : (numbers 0 1025).Pairwise textLt := by
    rw [← isChain_iff_pairwise]
    decide +kernel
  have hpart : numbers 0 1025 =
      numbers 0 start ++ (numbers (0 + start) count ++ numbers (0 + start + count)
        (1025 - start - count)) := by
    rw [numbers_append, numbers_append]
    congr 1
    omega
  rw [hpart, Nat.zero_add] at hall
  exact (pairwise_append.mp (pairwise_append.mp hall).2.1).1

theorem next_fullDir (ns : List Name) {p : PageLoop} {cursor : ℕ} (h : p.cursor = some cursor) :
    ∃ p', p.next .srv ⟨[]⟩ (fullDir ns) = some p' := by
  have hres : Export.srv.resolve (fullDir ns).fs ⟨[]⟩ = .ok [['s', 'r', 'v']] := rfl
  have hpage := Ctx.handle_readdir (c := fullDir ns) rfl rfl hres rfl cursor
  unfold PageLoop.next
  simp only [h, hpage, readdirPage]
  exact ⟨_, rfl⟩

theorem next_start_fullDir (hns : ns.Pairwise textLt) (hlen : ns.length ≤ READDIR_PAGE) :
    ∃ p, PageLoop.start.next .srv ⟨[]⟩ (fullDir ns) = some p ∧ p.cursor = none ∧ p.names = ns := by
  obtain ⟨p, hp⟩ := next_fullDir ns (p := .start) rfl
  obtain ⟨cursor, hcur, hnames, hnext⟩ := PageLoop.next_cases hp
  cases hcur
  rw [names_fullDir hns] at hnames hnext
  simp only [Enumeration.read, drop_zero, take_of_length_le hlen] at hnames hnext
  refine ⟨p, hp, ?_, hnames⟩
  rcases hnext with ⟨-, hlt⟩ | ⟨hnone, -⟩
  · omega
  · exact hnone

/-- A mount without an overlay. -/
def plainMount (ns : List Name) : OverlayMount where
  ctx := fullDir ns
  disk :=
    { fs := (Agent.ofTree [([], .dir)] []).fs
      sane := .of_entries (by decide) (by decide) (by decide) }

def plainConfig : DirConfig := ⟨.srv, none⟩

theorem names_plainMount (h : ns.Pairwise textLt) :
    plainConfig.names (plainMount ns) ⟨[]⟩ = ns := by
  have hnames : plainConfig.names (plainMount ns) ⟨[]⟩ =
      (Ctx.names .srv (fullDir ns) ⟨[]⟩).filter (fun _ => true) ++ [] := rfl
  rw [hnames, names_fullDir h, append_nil, filter_true]

theorem exec_round {s : DirWalk} {room : ℕ} (hns : ns.Pairwise textLt)
    (hlen : ns.length ≤ READDIR_PAGE) (hroom : 0 < room) (hw : s.world = plainMount ns)
    (hidle : s.reading = none) (hrunning : s.finished = false) :
    exec (DirWalk.step plainConfig ⟨[]⟩) s [.ask, .page, .reply room []] =
      some (s.replied (['.'] :: ['.', '.'] :: ns) room) := by
  obtain ⟨p, hp, hdone, hnames⟩ := next_start_fullDir hns hlen
  have hask : s.step plainConfig ⟨[]⟩ .ask = some { s with reading := some .start } := by
    simp only [DirWalk.step, hidle, hrunning]
    rfl
  have hpage : DirWalk.step plainConfig ⟨[]⟩ { s with reading := some .start } .page =
      some { s with reading := some p } := by
    have hnext : PageLoop.start.next plainConfig.x ⟨[]⟩ s.world.ctx = some p := by
      rw [hw]
      exact hp
    simp only [DirWalk.step, hnext, Option.map_some]
  have hreply : DirWalk.step plainConfig ⟨[]⟩ { s with reading := some p } (.reply room []) =
      some (s.replied (['.'] :: ['.', '.'] :: ns) room) := by
    have hall : DirWalk.all plainConfig ⟨[]⟩ p [] = ['.'] :: ['.', '.'] :: ns := by
      have hmerged : plainConfig.merged ⟨[]⟩ p.names [] = p.names.filter (fun _ => true) ++ [] :=
        rfl
      rw [DirWalk.all, hmerged, hnames, append_nil, filter_true]
    simp only [DirWalk.step, hall]
    exact if_pos ⟨hdone, hroom, .refl _⟩
  simp only [exec_cons, hask, hpage, hreply, Option.bind_some, exec_nil]

theorem length_numbers (start count : ℕ) : (numbers start count).length = count := by
  simp [numbers]

theorem first_page : ∃ p, PageLoop.start.next .srv ⟨[]⟩ (fullDir (numbers 0 1025)) = some p ∧
    p.cursor = some 1024 ∧ p.names = numbers 0 1024 := by
  obtain ⟨p, hp⟩ := next_fullDir (numbers 0 1025) (p := .start) rfl
  obtain ⟨cursor, hcur, hnames, hnext⟩ := PageLoop.next_cases hp
  cases hcur
  rw [names_fullDir (pairwise_numbers (by omega))] at hnames hnext
  have hfirst : (numbers 0 1025).take READDIR_PAGE = numbers 0 1024 := by
    rw [← numbers_append 0 1024 1]
    exact take_left' (length_numbers 0 1024)
  simp only [Enumeration.read, drop_zero, hfirst, length_numbers] at hnames hnext
  refine ⟨p, hp, ?_, hnames⟩
  rcases hnext with ⟨hsome, -⟩ | ⟨-, hle⟩
  · exact hsome
  · omega

/-- The directory gets smaller after the first page, and the second page is empty. -/
theorem exec_pages (hns : ns.Pairwise textLt) (hlen : ns.length ≤ 1024) :
    ∃ s, exec (PageWalk.step .srv ⟨[]⟩) (.init (fullDir (numbers 0 1025)))
      [.page, .change (fullDir ns), .page] = some s ∧
      s.loop.cursor = none ∧ s.loop.names = numbers 0 1024 := by
  obtain ⟨p, hp, hmore, hnames⟩ := first_page
  obtain ⟨q, hq⟩ := next_fullDir ns hmore
  obtain ⟨cursor, hcur, hnames', hnext'⟩ := PageLoop.next_cases hq
  rw [hmore] at hcur
  cases hcur
  rw [names_fullDir hns] at hnames' hnext'
  simp only [Enumeration.read, drop_eq_nil_of_le hlen, take_nil, length_nil, append_nil,
    hnames] at hnames' hnext'
  refine ⟨⟨fullDir ns, q⟩, ?_, ?_, hnames'⟩
  · simp only [exec_cons, PageWalk.step, PageWalk.init, hp, hq, Option.map_some, Option.bind_some,
      exec_nil]
  · rcases hnext' with ⟨-, hlt⟩ | ⟨hnone, -⟩
    · omega
    · exact hnone

/-- A reply of 128 names of a directory with 200 entries. -/
def firstReply : DirWalk :=
  (DirWalk.init (plainMount (numbers 0 200))).replied (['.'] :: ['.', '.'] :: numbers 0 200) 128

/-- Then the first entry is removed, and the next reply is made. -/
def secondReply : DirWalk :=
  { firstReply with world := plainMount (numbers 1 199) }.replied
    (['.'] :: ['.', '.'] :: numbers 1 199) 128

/-- The third reply is empty. -/
def thirdReply : DirWalk := secondReply.replied (['.'] :: ['.', '.'] :: numbers 1 199) 128

theorem exec_replies : exec (DirWalk.step plainConfig ⟨[]⟩) (.init (plainMount (numbers 0 200)))
    [.ask, .page, .reply 128 [], .change (plainMount (numbers 1 199)),
      .ask, .page, .reply 128 [], .ask, .page, .reply 128 []] = some thirdReply := by
  have hbefore : (numbers 0 200).Pairwise textLt := pairwise_numbers (by omega)
  have hafter : (numbers 1 199).Pairwise textLt := pairwise_numbers (by omega)
  have h₁ : exec (DirWalk.step plainConfig ⟨[]⟩) (.init (plainMount (numbers 0 200)))
      [.ask, .page, .reply 128 []] = some firstReply :=
    exec_round hbefore (by decide +kernel) (by omega) rfl rfl rfl
  have h₂ : exec (DirWalk.step plainConfig ⟨[]⟩)
      { firstReply with world := plainMount (numbers 1 199) }
      [.ask, .page, .reply 128 []] = some secondReply :=
    exec_round hafter (by decide +kernel) (by omega) rfl rfl (by decide +kernel)
  have h₃ : exec (DirWalk.step plainConfig ⟨[]⟩) secondReply [.ask, .page, .reply 128 []] =
      some thirdReply :=
    exec_round hafter (by decide +kernel) (by omega) rfl rfl (by decide +kernel)
  have hparts : ([.ask, .page, .reply 128 [], .change (plainMount (numbers 1 199)),
      .ask, .page, .reply 128 [], .ask, .page, .reply 128 []] : List WalkStep) =
      [.ask, .page, .reply 128 []] ++ (.change (plainMount (numbers 1 199)) ::
        ([.ask, .page, .reply 128 []] ++ [.ask, .page, .reply 128 []])) := rfl
  rw [hparts, exec_append, h₁, Option.bind_some, exec_cons, DirWalk.step, Option.bind_some,
    exec_append, h₂, Option.bind_some, h₃]

/-- **An entry is left out.**  In a directory of 1025 entries the first is removed after the first
page, and the last one, which is there all the time, is on neither page.  And in a directory of
200 entries the first is removed after a reply with 128 entries, and the one that was next is in
none of the replies. -/
theorem DirConfig.entry_skipped :
    (numbered 1024 ∈ Ctx.names .srv (fullDir (numbers 0 1025)) ⟨[]⟩ ∧
      numbered 1024 ∈ Ctx.names .srv (fullDir (numbers 1 1024)) ⟨[]⟩ ∧
      ∃ s, exec (PageWalk.step .srv ⟨[]⟩) (.init (fullDir (numbers 0 1025)))
          [.page, .change (fullDir (numbers 1 1024)), .page] = some s ∧
        s.loop.cursor = none ∧ numbered 1024 ∉ s.loop.names) ∧
    numbered 126 ∈ plainConfig.names (plainMount (numbers 0 200)) ⟨[]⟩ ∧
      numbered 126 ∈ plainConfig.names (plainMount (numbers 1 199)) ⟨[]⟩ ∧
      ∃ s, exec (DirWalk.step plainConfig ⟨[]⟩) (.init (plainMount (numbers 0 200)))
          [.ask, .page, .reply 128 [], .change (plainMount (numbers 1 199)),
            .ask, .page, .reply 128 [], .ask, .page, .reply 128 []] = some s ∧
        s.finished = true ∧ numbered 126 ∉ s.given := by
  have hin {start count i : ℕ} (hi : start ≤ i ∧ i < start + count) :
      numbered i ∈ numbers start count :=
    mem_map.mpr ⟨i, mem_range'_1.mpr hi, rfl⟩
  rw [names_fullDir (pairwise_numbers (by omega)), names_fullDir (pairwise_numbers (by omega)),
    names_plainMount (pairwise_numbers (by omega)), names_plainMount (pairwise_numbers (by omega))]
  have hafter : (numbers 1 1024).Pairwise textLt := pairwise_numbers (by omega)
  obtain ⟨s, hs, hdone, hnames⟩ := exec_pages hafter (length_numbers _ _).le
  refine ⟨⟨hin (by omega), hin (by omega), s, hs, hdone, ?_⟩,
    hin (by omega), hin (by omega), thirdReply, exec_replies, ?_, ?_⟩
  · rw [hnames]
    decide +kernel
  · decide +kernel
  · decide +kernel

/-- An entry that sorts behind it may go at any time, between two pages as between two replies. -/
theorem DirConfig.read_once_when_next_removed :
    (∃ s, exec (PageWalk.step .srv ⟨[]⟩) (.init (fullDir (numbers 0 1025)))
        [.page, .change (fullDir (numbers 0 1024)), .page] = some s ∧
      s.loop.names.count (numbered 1023) = 1) ∧
    ∃ s, exec (DirWalk.step plainConfig ⟨[]⟩) (.init (plainMount [['a'], ['b']]))
        [.ask, .page, .reply 3 [], .change (plainMount [['a']]), .ask, .page, .reply 3 []] =
        some s ∧
      s.given.count ['a'] = 1 := by
  have hbefore : (numbers 0 1025).Pairwise textLt := pairwise_numbers (by omega)
  have hafter : (numbers 0 1024).Pairwise textLt := pairwise_numbers (by omega)
  obtain ⟨s, hs, hdone, -⟩ := exec_pages hafter (length_numbers _ _).le
  obtain ⟨t, ht⟩ : ∃ t, exec (DirWalk.step plainConfig ⟨[]⟩) (.init (plainMount [['a'], ['b']]))
      [.ask, .page, .reply 3 [], .change (plainMount [['a']]), .ask, .page, .reply 3 []] = some t :=
    ⟨_, rfl⟩
  have hallowed : Allowed (PageWalk.step .srv ⟨[]⟩) (PageWalk.keepsPlace .srv ⟨[]⟩ (numbered 1023))
      (.init (fullDir (numbers 0 1025))) [.page, .change (fullDir (numbers 0 1024)), .page] := by
    refine ⟨trivial,
      fun s' hs' => ⟨⟨?_, fun cursor hcur => ?_⟩, fun _ _ => ⟨trivial, fun _ _ => trivial⟩⟩⟩
    · rw [names_fullDir hafter]
      decide +kernel
    · obtain ⟨p, hp, hmore, -⟩ := first_page
      simp only [PageWalk.step, PageWalk.init, hp, Option.map_some, Option.mem_some_iff] at hs'
      subst hs'
      rw [hmore, Option.mem_some_iff] at hcur
      subst hcur
      rw [Ctx.before, Ctx.before, names_fullDir hbefore, names_fullDir hafter]
      decide +kernel
  have ht' := reaches_of_exec .refl _
    (show Allowed _ (DirWalk.keepsPlace plainConfig ⟨[]⟩ ['a']) _ _ by decide +kernel) ht
  refine ⟨⟨s, hs, (read_once plainConfig ⟨[]⟩ ⟨numbered 1023, by decide⟩).1 _ s ?_
    (reaches_of_exec .refl _ hallowed hs) hdone⟩,
    t, ht, (read_once plainConfig ⟨[]⟩ ⟨['a'], by decide⟩).2 _ t (by decide +kernel) ht' ?_⟩
  · rw [show plainConfig.x = .srv from rfl, names_fullDir hbefore]
    decide +kernel
  · cases ht
    decide +kernel

end AlloyFs
