import AlloyFs.Agent.Ran

/-!
# What one request can do to the file system

Of all that a handler does only the calls change the tree or touch a location, and only `open` and
`create` give out a handle.  `Effect` says which locations a request may touch, how the tree may
change, and where its handles come from.  Everything about locations that is to hold over whole runs
is derived from `handle_effect`.

All locations a request touches come from `resolve`, from `resolveNew` or from a handle
— with one exception: a `create` without `excl` follows the last name of its path, and
nothing checks where that leads.
-/

namespace AlloyFs

/-- The file handles of a session. -/
abbrev Handles := AList fun _ : ℕ => OpenFile

/-- The locations a request may touch. -/
inductive Touches (x : Export) (req : Request) (fs : Fs) (hs : Handles) : Loc → Prop
  | resolved {path : RelPath} {full : Loc} (h : x.resolve fs path = .ok full) :
      Touches x req fs hs full
  | named {path : RelPath} {full : Loc} (h : x.resolveNew fs path = .ok full) :
      Touches x req fs hs full
  | handle {fh : ℕ} {f : OpenFile} (h : hs.lookup fh = some f) : Touches x req fs hs f.loc
  | created {path : RelPath} {flags : OpenFlags} {mode : ℕ} {full l : Loc}
      (hreq : req = .create path flags mode) (hexcl : flags.excl = false)
      (h : x.resolveNew fs path = .ok full) (hl : fs.OpensAt full l) : Touches x req fs hs l

/-- How a request may change the tree. -/
inductive TreeStep (x : Export) (req : Request) (fs : Fs) : PathMap Name Node → Prop
  | same : TreeStep x req fs fs.tree
  | made (l : Loc) {n : Node} (hn : ∀ t, n ≠ .symlink t) : TreeStep x req fs (fs.tree.put l n)
  | linked {target : Text} {link landing : RelPath} {full : Loc}
      (hreq : req = .symlink target link) (h : x.resolveNew fs link = .ok full)
      (hland : symlinkLandsInside link target = some landing) :
      TreeStep x req fs (fs.tree.put full (.symlink target))
  | removed (l : Loc) : TreeStep x req fs (fs.tree.del l)
  | moved {src dst : RelPath} {replace : Bool} {ls ld : Loc} (hreq : req = .rename src dst replace)
      (hsrc : x.resolve fs src = .ok ls) (hdst : x.resolveNew fs dst = .ok ld)
      (h₁ : ¬ ls <+: ld) (h₂ : ¬ ld <+: ls) : TreeStep x req fs (fs.tree.move ls ld)

/-- **What a request can do**, from a file system and the handles of its session to
those afterwards. -/
structure Effect (x : Export) (req : Request) (fs : Fs) (hs : Handles) (fs' : Fs)
    (hs' : Handles) : Prop where
  tree : TreeStep x req fs fs'.tree
  touched : ∃ ls, fs'.touched = ls ++ fs.touched ∧ ∀ l ∈ ls, Touches x req fs hs l
  handles : ∀ fh f, hs'.lookup fh = some f → hs.lookup fh = some f ∨ f.loc ∈ fs'.touched

namespace Ctx

open Act

/-! ## Reasoning about handlers -/

/-- The file system and the handles are these. -/
def At (fs : Fs) (hs : Handles) (c : Ctx) : Prop :=
  c.fs = fs ∧ c.me.handles = hs

/-- Wherever the computation stops, `E` holds of the file system and the handles. -/
def Ends {α : Type} (fs : Fs) (hs : Handles) (m : Handler α) (E : Fs → Handles → Prop) : Prop :=
  Triple (At fs hs) m (fun _ c => E c.fs c.me.handles) (fun c => E c.fs c.me.handles)

/-! ## The effect of each request -/

section Effects

variable {x : Export} {req : Request} {c d : Ctx} {fs fs' : Fs} {hs : Handles} {path : RelPath}
  {full : Loc}

theorem effect_of (htree : TreeStep x req fs fs'.tree) (ls : List Loc)
    (htouched : fs'.touched = ls ++ fs.touched) (h : ∀ l ∈ ls, Touches x req fs hs l) :
    Effect x req fs hs fs' hs :=
  ⟨htree, ⟨ls, htouched, h⟩, fun _ _ h => .inl h⟩

theorem effect_refl : Effect x req fs hs fs hs :=
  effect_of .same [] rfl fun _ h => absurd h List.not_mem_nil

theorem effect_insertHandle (h : Effect x req fs hs fs' hs) {file : OpenFile}
    (hloc : file.loc ∈ fs'.touched) (fh : ℕ) : Effect x req fs hs fs' (hs.insert fh file) := by
  refine ⟨h.tree, h.touched, fun fh' f hf => ?_⟩
  rcases lookup_of_insert hf with ⟨-, rfl⟩ | ⟨-, hf⟩
  · exact .inr hloc
  · exact h.handles fh' f hf

theorem not_link_of_resolve (hroot : ∀ t, fs.get x.root ≠ some (.symlink t))
    (h : x.resolve fs path = .ok full) (t : Text) : fs.get full ≠ some (.symlink t) := by
  intro ht
  rcases (Export.resolve_ok h).2 with ⟨_, rfl⟩ | ⟨_, hcanon, _⟩
  · exact hroot t ht
  · rcases Fs.get_of_walk_found (Fs.walk_of_canonicalize hcanon) with hdir | ⟨ino, hfile⟩
    · rw [hdir] at ht
      cases ht
    · rw [hfile] at ht
      cases ht

theorem tree_openFile {write trunc : Bool} {r : Loc × Node}
    (h : fs.openFile full write trunc = .ok (r, fs')) :
    fs'.tree = fs.tree ∧ fs'.touched = r.1 :: fs.touched := by
  obtain ⟨_, _, rfl⟩ := Fs.openFile_ok h
  cases r.2 with
  | file ino => cases trunc <;> exact ⟨rfl, rfl⟩
  | _ => exact ⟨rfl, rfl⟩

/-- Only the location that was opened is touched, and no entry changes. -/
def TouchedAt (fs : Fs) (full : Loc) (fs' : Fs) : Prop :=
  fs'.tree = fs.tree ∧ ∃ ls, fs'.touched = ls ++ fs.touched ∧ ∀ l ∈ ls, l = full

theorem TouchedAt.touch {fs₁ fs₂ : Fs} (h : TouchedAt fs full fs₁) (htree : fs₂.tree = fs₁.tree)
    (htouched : fs₂.touched = full :: fs₁.touched) : TouchedAt fs full fs₂ := by
  obtain ⟨hsame, ls, hls, hall⟩ := h
  refine ⟨htree.trans hsame, full :: ls, by rw [htouched, hls]; rfl, fun l hl => ?_⟩
  rcases List.mem_cons.mp hl with rfl | hl
  · rfl
  · exact hall l hl

theorem TouchedAt.openFile {fs₁ fs₂ : Fs} {write trunc : Bool} {r : Loc × Node}
    (hno : ∀ t, fs.get full ≠ some (.symlink t)) (h : TouchedAt fs full fs₁)
    (hopen : fs₁.openFile full write trunc = .ok (r, fs₂)) :
    TouchedAt fs full fs₂ ∧ r.1 = full := by
  obtain ⟨htree, htouched⟩ := tree_openFile hopen
  have hloc : r.1 = full := by
    refine Fs.leaf_true_found (fun t => ?_) (Fs.openFile_ok hopen).1
    rw [Fs.get, h.1]
    exact hno t
  rw [hloc] at htouched
  exact ⟨h.touch htree htouched, hloc⟩

theorem touchedAt_refl (fs : Fs) (full : Loc) : TouchedAt fs full fs :=
  ⟨rfl, [], rfl, fun _ h => absurd h List.not_mem_nil⟩

theorem Altered.touchedAt (hno : ∀ t, fs.get full ≠ some (.symlink t)) {size : Option ℕ}
    (h : Altered full fs size fs') : TouchedAt fs full fs' := by
  induction h with
  | refl => exact touchedAt_refl fs full
  | opened _ hopen ih => exact (ih.openFile hno hopen).1
  | resized hopen =>
    obtain ⟨h, hloc⟩ := (touchedAt_refl fs full).openFile hno hopen
    exact h.touch rfl (by rw [← hloc]; rfl)
  | kept _ hopen _ ih =>
    obtain ⟨h, hloc⟩ := ih.openFile hno hopen
    exact h.touch rfl (by rw [← hloc]; rfl)

section

variable (hroot : ∀ t, c.fs.get x.root ≠ some (.symlink t))
include hroot

theorem FsRan.effect (h : FsRan x c req fs) : Effect x req c.fs c.me.handles fs c.me.handles := by
  have hat : ∀ {path full}, x.resolve c.fs path = .ok full → TouchedAt c.fs full fs →
      Effect x req c.fs c.me.handles fs c.me.handles := by
    rintro path full hres ⟨htree, ls, hls, hall⟩
    exact effect_of (htree ▸ .same) ls hls fun l hl => hall l hl ▸ .resolved hres
  cases h with
  | openFile _ hres hopen =>
    exact hat hres ((touchedAt_refl _ _).openFile (not_link_of_resolve hroot hres) hopen).1
  | @create path flags mode full file fs' _ hnew hcall =>
    -- where the file was opened, and what that did to the tree
    have hcreate : Touches x (.create path flags mode) c.fs c.me.handles file.1 ∧
        TreeStep x (.create path flags mode) c.fs fs'.tree ∧
        fs'.touched = file.1 :: c.fs.touched := by
      cases hexcl : flags.excl with
      | true =>
        rw [hexcl, if_pos rfl] at hcall
        obtain ⟨rfl, rfl⟩ := Fs.createNew_ok hcall
        exact ⟨.named hnew, .made full (by simp), rfl⟩
      | false =>
        rw [hexcl, if_neg (by simp)] at hcall
        rcases Fs.openCreate_ok hcall with ⟨hl, rfl⟩ | ⟨hl, hget, rfl⟩
        · exact ⟨.created rfl hexcl hnew (.inl hl), .made file.1 (by simp), rfl⟩
        · refine ⟨.created rfl hexcl hnew (.inr ⟨hl, file.2, hget⟩), ?_, ?_⟩
          · cases flags.truncate <;> exact .same
          · cases flags.truncate <;> rfl
    obtain ⟨hl, htree, htouched⟩ := hcreate
    refine effect_of htree [file.1, file.1] ?_ (by simpa using hl)
    exact congrArg (file.1 :: ·) htouched
  | read hfile => exact effect_of .same [_] rfl (List.forall_mem_singleton.mpr (.handle hfile))
  | write _ hfile =>
    exact effect_of .same [_] rfl (List.forall_mem_singleton.mpr (.handle hfile))
  | setattr _ hres h => exact hat hres (h.touchedAt (not_link_of_resolve hroot hres))
  | @mkdir _ _ full _ _ hnew hcall =>
    obtain rfl := Fs.makeEntry_ok hcall
    exact effect_of (.made full (by simp)) [full] rfl
      (List.forall_mem_singleton.mpr (.named hnew))
  | @unlink _ full _ _ hres hcall =>
    obtain ⟨_, rfl⟩ := Fs.removeFile_ok hcall
    exact effect_of (.removed full) [full] rfl
      (List.forall_mem_singleton.mpr (.resolved hres))
  | @rmdir _ full _ _ hres hcall =>
    obtain ⟨_, rfl⟩ := Fs.removeDir_ok hcall
    exact effect_of (.removed full) [full] rfl
      (List.forall_mem_singleton.mpr (.resolved hres))
  | @rename src dst replace ls ld _ _ hsrc hdst _ hcall =>
    have hls : ∀ l ∈ [ls, ld], Touches x (.rename src dst replace) c.fs c.me.handles l :=
      List.forall_mem_cons.mpr ⟨.resolved hsrc, List.forall_mem_singleton.mpr (.named hdst)⟩
    obtain ⟨_, ⟨_, rfl⟩ | ⟨h₁, h₂, _, rfl⟩⟩ := Fs.rename_ok hcall
    · exact effect_of .same [ls, ld] rfl hls
    · exact effect_of (.moved rfl hsrc hdst h₁ h₂) [ls, ld] rfl hls
  | @link _ _ ls ld _ _ hsrc hdst hcall =>
    obtain ⟨n, hn, rfl⟩ := Fs.hardLink_ok hcall
    refine effect_of (.made ld fun t ht => not_link_of_resolve hroot hsrc t (ht ▸ hn)) [ls, ld]
      rfl (List.forall_mem_cons.mpr ⟨.resolved hsrc, List.forall_mem_singleton.mpr (.named hdst)⟩)
  | @symlink _ _ _ full _ _ hnew hland hcall =>
    obtain rfl := Fs.makeEntry_ok hcall
    exact effect_of (.linked rfl hnew hland) [full] rfl
      (List.forall_mem_singleton.mpr (.named hnew))
  | readLink hnew =>
    exact effect_of .same [_] rfl (List.forall_mem_singleton.mpr (.named hnew))

theorem Ran.effect {r : Option Response}
    (h : Ran x c req r d) : Effect x req c.fs c.me.handles d.fs d.me.handles := by
  cases h with
  | touched h | changed h | renamed h => exact h.effect hroot
  | @opened _ flags _ _ l _ fs _ hro hres hopen =>
    have heff := (FsRan.openFile hro hres hopen).effect hroot
    have hmem : l ∈ fs.touched := (tree_openFile hopen).2 ▸ List.mem_cons_self
    cases flags.truncate <;> exact effect_insertHandle heff hmem _
  | @created path flags mode _ _ _ _ _ hro hnew hcall =>
    have h : FsRan x c (.create path flags mode) _ := .create hro hnew hcall
    exact effect_insertHandle (h.effect hroot) List.mem_cons_self _
  | written _ hro hfile hwrite hversion =>
    exact (FsRan.write hro hfile hwrite hversion).effect hroot
  | @release fh _ _ hfile =>
    exact ⟨.same, effect_refl.touched, fun _ _ hf => .inl (lookup_of_erase hf).2⟩
  | _ => exact effect_refl

theorem Failed.effect (h : Failed x c req d) :
    Effect x req c.fs c.me.handles d.fs d.me.handles := by
  cases h with
  | openFile h | setattr h => exact h.effect hroot
  | link hro hsrc hdst h => exact (FsRan.link hro hsrc hdst h).effect hroot
  | _ => exact effect_refl

end

/-- **Every request has such an effect**, whether it succeeds or fails. -/
theorem handle_effect (hroot : ∀ t, fs.get x.root ≠ some (.symlink t)) (req : Request) :
    Ends fs hs (handle x req) (Effect x req fs hs) := by
  rintro c ⟨rfl, rfl⟩
  exact (ran_handle x req c).conseq (fun _ h => h) (fun _ _ h => h.effect hroot)
    (fun _ h => h.effect hroot) c rfl

end Effects
end Ctx
end AlloyFs
