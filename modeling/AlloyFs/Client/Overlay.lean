import AlloyFs.Agent.Edits
import AlloyFs.Os.Entries

/-!
# A mount with an overlay

Paths that match the exclude patterns of a mount are kept on the local disk, in its overlay; all
others are on the server.  The two are shown as one tree: a name is looked up on the side its
path belongs to, and a directory of the server is listed with the overlay entries in it.

Every call is sent to one side, and which one is decided by the paths it names.  But a directory
of the server can have overlay entries below it, which are not on the server.  Renaming it moves
the server's part alone, and removing it succeeds when the server's part is empty.
-/

namespace AlloyFs

open List

/-! ## Places -/

/-- A name that can be asked for. -/
abbrev FileName := { n : Name // Fs.Ordinary n ∧ '/' ∉ n }

/-- A path, name by name. -/
abbrev Place := List FileName

namespace Place

def names (p : Place) : List Name := p.map Subtype.val

/-- The text of a path. -/
def rel (p : Place) : RelPath := ⟨['/'].intercalate p.names⟩

variable {p q : Place} {n : FileName}

@[simp] theorem names_nil : names [] = [] := rfl

@[simp] theorem names_append (p q : Place) : names (p ++ q) = p.names ++ q.names := map_append

theorem names_prefix (h : q <+: p) : q.names <+: p.names := List.IsPrefix.map Subtype.val h

theorem names_injective : Function.Injective names := map_injective_iff.mpr Subtype.val_injective

theorem ordinary_of_mem_names {c : Name} (h : c ∈ p.names) : Fs.Ordinary c := by
  obtain ⟨n, _, rfl⟩ := mem_map.mp h
  exact n.2.1

theorem comps_rel (h : p ≠ []) : p.rel.comps = p.names := by
  refine splitOn_intercalate '/' (fun c hc => ?_) fun hnil => h (map_eq_nil_iff.mp hnil)
  obtain ⟨n, _, rfl⟩ := mem_map.mp hc
  exact n.2.2

theorem text_rel_ne_nil (h : p ≠ []) : p.rel.text ≠ [] := by
  intro hnil
  have hcomps := comps_rel h
  rw [RelPath.comps, hnil] at hcomps
  cases p with
  | nil => exact h rfl
  | cons n p =>
    have hn : n.1 = [] := (cons.inj hcomps).1.symm
    exact n.2.1.1 hn

theorem isRoot_rel (p : Place) : p.rel.isRoot = p.isEmpty := by
  cases p with
  | nil => rfl
  | cons n p => simpa [RelPath.isRoot] using text_rel_ne_nil (cons_ne_nil n p)

theorem isRoot_rel_of_ne (h : p ≠ []) : p.rel.isRoot = false := by
  rw [isRoot_rel]
  simpa using h

theorem pushed_rel (p : Place) : p.rel.pushed = p.names := by
  cases p with
  | nil => rfl
  | cons n p =>
    rw [RelPath.pushed, if_neg (by rw [isRoot_rel]; simp), comps_rel (cons_ne_nil n p)]

theorem intercalate_concat (c : Name) : ∀ {l : List Name}, l ≠ [] →
    ['/'].intercalate (l ++ [c]) = ['/'].intercalate l ++ '/' :: c := by
  intro l
  induction l with
  | nil => exact fun h => absurd rfl h
  | cons a l ih =>
    cases l with
    | nil => simp [intercalate]
    | cons b l =>
      have h := ih (cons_ne_nil b l)
      simp only [intercalate, cons_append, intersperse, flatten_cons] at h ⊢
      rw [h]
      simp

theorem rel_concat (p : Place) (n : FileName) : (p ++ [n]).rel = p.rel.join n.1 := by
  cases p with
  | nil =>
    have hroot : (rel []).text.isEmpty = true := rfl
    rw [RelPath.join, if_pos hroot]
    simp [rel, names, intercalate]
  | cons m p =>
    have hne := text_rel_ne_nil (cons_ne_nil m p)
    rw [RelPath.join, if_neg (by simpa using hne), rel, names_append]
    exact congrArg RelPath.mk (intercalate_concat n.1 (cons_ne_nil _ _))

end Place

/-- What a list of patterns excludes: everything below an excluded path, and never the root. -/
theorem ExcludeSet.isExcluded_append {patterns : List Pattern} {p : Place} (q : Place)
    (h : (compileWithDefaults patterns).isExcluded p.rel = true) :
    (compileWithDefaults patterns).isExcluded (p ++ q).rel = true := by
  by_contra hno
  have habove : p.rel.Above (p ++ q).rel := by
    rw [RelPath.Above, Place.pushed_rel, Place.pushed_rel, Place.names_append]
    exact prefix_append _ _
  have hfree := Built.above ⟨patterns, .inr rfl⟩ habove (by simpa using hno)
  exact Bool.false_ne_true (hfree.symm.trans h)

/-! ## The two sides -/

/-- What is fixed about a mount: the export, the exclude patterns, and where the overlay is. -/
structure OverlayConfig where
  x : Export
  patterns : List Pattern
  root : Loc

/-- A mount with an overlay: the agent with the session of the mount, and the local disk. -/
structure OverlayMount where
  ctx : Ctx
  disk : Disk

/-- A call of the mount changes one of the sides, or fails. -/
abbrev MountOp (α : Type) := EStateM ErrorCode OverlayMount α

namespace OverlayConfig

variable (cfg : OverlayConfig)

/-- Is this path routed to the local overlay? -/
def isOverlay (path : RelPath) : Bool :=
  (ExcludeSet.compileWithDefaults cfg.patterns).isExcluded path

/-- Where a path is in the overlay. -/
def abs (path : RelPath) : List Name := cfg.root ++ path.comps.filter fun c => decide (c ≠ [])

theorem abs_rel (p : Place) : cfg.abs p.rel = cfg.root ++ p.names := by
  cases p with
  | nil => rfl
  | cons n p =>
    rw [abs, Place.comps_rel (cons_ne_nil n p), filter_eq_self.mpr]
    intro c hc
    simpa using (Place.ordinary_of_mem_names hc).1

end OverlayConfig

namespace OverlayMount

open Act

variable (cfg : OverlayConfig) (s : OverlayMount)

/-! ## Looking -/

/-- `Overlay::getattr`. -/
def overlayGetattr (path : RelPath) : Except ErrorCode Attr :=
  match s.disk.fs.locate (cfg.abs path) with
  | .error e => .error e
  | .ok l =>
    match s.disk.fs.stat l with
    | some md => .ok (attrFromMetadata md 0)
    | none => .error .notFound

/-- The children of a directory on the local disk; none if it is not there. -/
def readdirChildren (dir : RelPath) : List (Name × Attr) :=
  match s.disk.fs.canonicalize (cfg.abs dir) with
  | .error _ => []
  | .ok l =>
    if s.disk.fs.isDir l then
      (s.disk.fs.children l).filterMap fun name =>
        (s.disk.fs.stat (l ++ [name])).map fun md => (name, attrFromMetadata md 0)
    else []

/-- A request that only looks. -/
def query (req : Request) : Except ErrorCode Response :=
  match Ctx.handle cfg.x req s.ctx with
  | .ok (some r) _ => .ok r
  | .ok none _ => .error .io
  | .error e _ => .error e

/-- Look a name up in a directory. -/
def lookup (dir : RelPath) (name : Name) : Except ErrorCode Attr :=
  let path := dir.join name
  if cfg.isOverlay path then s.overlayGetattr cfg path
  else
    match s.query cfg (.getattr path) with
    | .ok (.attr attr) => .ok attr
    | .ok _ => .error .io
    | .error e => .error e

/-- The pages of a listing, one after the other. -/
def readdirPages (dir : RelPath) : ℕ → ℕ → Except ErrorCode (List DirEntry)
  | 0, _ => .error .io
  | fuel + 1, cursor =>
    match s.query cfg (.readdir dir cursor) with
    | .ok (.dir entries none) => .ok entries
    | .ok (.dir entries (some next)) =>
      match readdirPages dir fuel next with
      | .ok rest => .ok (entries ++ rest)
      | .error e => .error e
    | .ok _ => .error .io
    | .error e => .error e

/-- A whole listing: the entries of the server minus the shadowed names, plus the overlay
entries of the directory.  No listing has more pages than the server has entries. -/
def readdir (dir : RelPath) : Except ErrorCode (List (Name × Attr)) :=
  if cfg.isOverlay dir then .ok (s.readdirChildren cfg dir)
  else
    match s.readdirPages cfg dir (s.ctx.fs.tree.length + 1) 0 with
    | .error e => .error e
    | .ok entries =>
      .ok ((entries.filter fun e => !cfg.isOverlay (dir.join e.name)).map
        (fun e => (e.name, e.attr)) ++
        (s.readdirChildren cfg dir).filter fun c => cfg.isOverlay (dir.join c.1))

/-! ## Changing -/

/-- Send a request to the server. -/
def ask (req : Request) : MountOp Response := fun s =>
  match Ctx.handle cfg.x req s.ctx with
  | .ok (some r) c => .ok r { s with ctx := c }
  | .ok none c => .error .io { s with ctx := c }
  | .error e c => .error e { s with ctx := c }

/-- Make a call on the local disk. -/
def onDisk {α : Type} (call : DiskCall α) : MountOp α :=
  lens (fun s => s.disk) (fun s d => { s with disk := d }) call.exec

/-- `Overlay::create`: the first write into a fresh excluded subtree makes its directories. -/
def overlayCreate (path : RelPath) (flags : OpenFlags) : MountOp Unit := do
  onDisk (.createDirAll (cfg.abs path).dropLast)
  let _ ← onDisk (.createFile (cfg.abs path) flags.excl flags.truncate)
  return ()

def overlayMkdir (path : RelPath) : MountOp Unit := do
  onDisk (.createDirAll (cfg.abs path).dropLast)
  onDisk (.createDir (cfg.abs path))

def overlayRename (src dst : RelPath) (replace : Bool) : MountOp Unit := do
  let s ← get
  ensure (replace || !s.disk.fs.leadsSomewhere (cfg.abs dst)) .alreadyExists
  onDisk (.createDirAll (cfg.abs dst).dropLast)
  onDisk (.rename (cfg.abs src) (cfg.abs dst))

end OverlayMount

/-- The calls that change the tree; a parent is given by the path its inode has. -/
inductive TreeCall
  | create (parent : Place) (name : FileName) (flags : OpenFlags) (mode : ℕ)
  | mkdir (parent : Place) (name : FileName) (mode : ℕ)
  | unlink (parent : Place) (name : FileName)
  | rmdir (parent : Place) (name : FileName)
  | rename (parent : Place) (name : FileName) (newparent : Place) (newname : FileName)
      (replace : Bool)

namespace OverlayMount

open Act

variable (cfg : OverlayConfig)

def create (parent : RelPath) (name : Name) (flags : OpenFlags) (mode : ℕ) : MountOp Unit :=
  let path := parent.join name
  if cfg.isOverlay path then overlayCreate cfg path flags
  else do
    let r ← ask cfg (.create path flags mode)
    match r with
    | .opened _ _ => return ()
    | _ => throw .io

def mkdir (parent : RelPath) (name : Name) (mode : ℕ) : MountOp Unit :=
  let path := parent.join name
  if cfg.isOverlay path then overlayMkdir cfg path
  else do
    let r ← ask cfg (.mkdir path mode)
    match r with
    | .attr _ => return ()
    | _ => throw .io

def remove (parent : RelPath) (name : Name) (dir : Bool) : MountOp Unit :=
  let path := parent.join name
  if cfg.isOverlay path then
    if dir then onDisk (.removeDir (cfg.abs path)) else onDisk (.removeFile (cfg.abs path))
  else do
    let r ← ask cfg (if dir then .rmdir path else .unlink path)
    match r with
    | .ok => return ()
    | _ => throw .io

/-- Both ends on one side, or `CrossDevice`. -/
def rename (parent : RelPath) (name : Name) (newparent : RelPath) (newname : Name)
    (replace : Bool) :
    MountOp Unit :=
  let src := parent.join name
  let dst := newparent.join newname
  match cfg.isOverlay src, cfg.isOverlay dst with
  | true, true => overlayRename cfg src dst replace
  | false, false => do
    let r ← ask cfg (.rename src dst replace)
    match r with
    | .ok => return ()
    | _ => throw .io
  | _, _ => throw .crossDevice

def run : TreeCall → MountOp Unit
  | .create parent name flags mode => create cfg parent.rel name.1 flags mode
  | .mkdir parent name mode => mkdir cfg parent.rel name.1 mode
  | .unlink parent name => remove cfg parent.rel name.1 false
  | .rmdir parent name => remove cfg parent.rel name.1 true
  | .rename parent name newparent newname replace =>
    rename cfg parent.rel name.1 newparent.rel newname.1 replace

/-- A call is made, and ends well or not. -/
def step (s : OverlayMount) (call : TreeCall) : Option OverlayMount := some (final (run cfg call s))

/-! ## One tree -/

/-- **The place can be reached**: each name on the way is found and listed in the directory before
it. -/
def Reachable (s : OverlayMount) (p : Place) : Prop :=
  ∀ (q : Place) (n : FileName), q ++ [n] <+: p →
    (∃ attr, s.lookup cfg q.rel n.1 = .ok attr ∧ (q ++ [n] ≠ p → attr.kind = .dir)) ∧
      ∃ l, s.readdir cfg q.rel = .ok l ∧ n.1 ∈ l.map Prod.fst

/-- There is an overlay entry here, and it can be reached. -/
def OverlayEntry (s : OverlayMount) (p : Place) : Prop :=
  cfg.isOverlay p.rel = true ∧ s.Reachable cfg p

/-- What the overlay has at a place. -/
def nodeAt (s : OverlayMount) (p : Place) : Option Node :=
  match s.disk.fs.locate (cfg.abs p.rel) with
  | .ok l => s.disk.fs.get l
  | .error _ => none

end OverlayMount

namespace TreeCall

/-- Where a call moves a place. -/
def image : TreeCall → Place → Place
  | .rename parent name newparent newname _, p =>
    if parent ++ [name] <+: p then newparent ++ [newname] ++ p.drop (parent.length + 1) else p
  | _, p => p

/-- The call asks for what is at the place to go. -/
def Removes : TreeCall → Place → Prop
  | .unlink parent name, p => p = parent ++ [name]
  | .rmdir parent name, p => p = parent ++ [name]
  | .rename _ _ newparent newname _, p => p = newparent ++ [newname]
  | _, _ => False

end TreeCall

/-- **What is asked of a call**: every overlay entry is where the call implies, unless the call
named it to go. -/
def OverlayMount.Preserved (cfg : OverlayConfig) (s : OverlayMount) (call : TreeCall)
    (s' : OverlayMount) : Prop :=
  ∀ p, s.OverlayEntry cfg p → ¬ call.Removes p →
    s'.OverlayEntry cfg (call.image p) ∧ s'.nodeAt cfg (call.image p) = s.nodeAt cfg p

end AlloyFs
