import AlloyFs.Client.Seen

/-!
# Whether a mount with an overlay is one tree

An overlay entry is reached through directories of the server, down to the first name that is
excluded, and from there on through the local disk.  So it stays where it is as long as those
directories of the server stay, and it moves with them only if both sides move.

This module says when the calls of a mount keep every overlay entry that could be reached, and
when `rmdir` has looked at all there is.
-/

namespace AlloyFs

open Act Place List OverlayConfig

variable {d : Loc} {node : Node}

namespace OverlayMount

variable {cfg : OverlayConfig} {s s' : OverlayMount} {k : Place}

theorem query_of_handle {req : Request} {r : Response} {c : Ctx}
    (h : Ctx.handle cfg.x req s.ctx = .ok (some r) c) : s.query cfg req = .ok r := by
  rw [query, h]

/-- **The pages are the whole listing**, from any entry on. -/
theorem readdirPages_eq {dir : RelPath} {entries : List DirEntry}
    (h : ∀ cursor, s.query cfg (.readdir dir cursor) = .ok (readdirPage entries cursor)) :
    ∀ fuel cursor, entries.length - cursor ≤ fuel →
      s.readdirPages cfg dir (fuel + 1) cursor = .ok (entries.drop cursor) := by
  intro fuel
  induction fuel with
  | zero =>
    intro cursor hfuel
    have hend : entries.drop cursor = [] := drop_eq_nil_of_le (by omega)
    have hlast : ¬ cursor + ([] : List DirEntry).length < entries.length := by
      rw [length_nil]
      omega
    rw [readdirPages, h, readdirPage, hend, take_nil]
    simp only [if_neg hlast]
  | succ fuel ih =>
    intro cursor hfuel
    have hpage : READDIR_PAGE = 1024 := rfl
    have hlen : ((entries.drop cursor).take READDIR_PAGE).length =
        min READDIR_PAGE (entries.length - cursor) := by
      rw [length_take, length_drop]
    rw [readdirPages, h, readdirPage]
    by_cases hmore : cursor + ((entries.drop cursor).take READDIR_PAGE).length < entries.length
    · have hrest := ih (cursor + ((entries.drop cursor).take READDIR_PAGE).length) (by omega)
      simp only [if_pos hmore, hrest]
      have hfull : ((entries.drop cursor).take READDIR_PAGE).length = READDIR_PAGE := by omega
      rw [hfull, ← drop_drop, take_append_drop]
    · simp only [if_neg hmore]
      rw [take_of_length_le]
      rw [length_drop]
      omega

theorem readdir_eq {full : Loc} (hk : cfg.isOverlay k.rel = false)
    (hauth : s.ctx.me.authed = true) (hatt : s.ctx.me.attached = true)
    (hres : cfg.x.resolve s.ctx.fs k.rel = .ok full) (hdir : s.ctx.fs.get full = some .dir) :
    s.readdir cfg k.rel = .ok
      (((Ctx.listing cfg.x s.ctx k.rel full).filter fun e =>
          !cfg.isOverlay (k.rel.join e.name)).map (fun e => (e.name, e.attr)) ++
        (s.readdirChildren cfg k.rel).filter fun c => cfg.isOverlay (k.rel.join c.1)) := by
  have hpages : s.readdirPages cfg k.rel (s.ctx.fs.tree.length + 1) 0 =
      .ok (Ctx.listing cfg.x s.ctx k.rel full) := by
    have hlen : (Ctx.listing cfg.x s.ctx k.rel full).length ≤ s.ctx.fs.tree.length :=
      (length_filterMap_le _ _).trans Fs.length_children_le
    have := readdirPages_eq (fun cursor => query_of_handle
      (Ctx.handle_readdir hauth hatt hres hdir cursor)) s.ctx.fs.tree.length 0 (by omega)
    rwa [drop_zero] at this
  rw [readdir, hk, if_neg Bool.false_ne_true, hpages]

theorem of_readdir {l : List (Name × Attr)} (hk : cfg.isOverlay k.rel = false)
    (h : s.readdir cfg k.rel = .ok l) :
    s.ctx.me.authed = true ∧ s.ctx.me.attached = true ∧
      ∃ full, cfg.x.resolve s.ctx.fs k.rel = .ok full ∧ s.ctx.fs.get full = some .dir := by
  have hquery : ∃ r, s.query cfg (.readdir k.rel 0) = .ok r := by
    rw [readdir, hk, if_neg Bool.false_ne_true, readdirPages] at h
    cases hq : s.query cfg (.readdir k.rel 0) with
    | ok r => exact ⟨r, rfl⟩
    | error e =>
      rw [hq] at h
      cases h
  obtain ⟨r, hr⟩ := hquery
  rw [query] at hr
  split at hr
  · next r' c' hrun => exact Ctx.of_handle_readdir hrun
  · cases hr
  · cases hr

/-! ## The local side -/

theorem mem_readdirChildren {c : Name} (hcan : s.disk.fs.canonicalize (cfg.root ++ k.names) = .ok d)
    (hdir : s.disk.fs.get d = some .dir) :
    c ∈ (s.readdirChildren cfg k.rel).map Prod.fst ↔ s.disk.fs.get (d ++ [c]) ≠ none := by
  rw [readdirChildren, cfg.abs_rel, hcan]
  simp only [Fs.isDir_iff.mpr hdir, if_true]
  rw [mem_map]
  constructor
  · rintro ⟨⟨c', attr⟩, hmem, rfl⟩
    obtain ⟨name, hname, hsome⟩ := mem_filterMap.mp hmem
    obtain ⟨md, -, heq⟩ := Option.map_eq_some_iff.mp hsome
    cases heq
    exact Fs.mem_children.mp hname
  · intro hget
    obtain ⟨md, hmd⟩ := Option.ne_none_iff_exists'.mp (mt Fs.stat_eq_none.mp hget)
    refine ⟨(c, attrFromMetadata md 0), mem_filterMap.mpr ⟨c, Fs.mem_children.mpr hget, ?_⟩, rfl⟩
    rw [hmd]
    rfl

theorem dir_of_mem_readdirChildren {c : Name × Attr} (h : c ∈ s.readdirChildren cfg k.rel) :
    ∃ d, s.disk.fs.canonicalize (cfg.root ++ k.names) = .ok d ∧ s.disk.fs.get d = some .dir := by
  rw [readdirChildren, cfg.abs_rel] at h
  split at h
  · cases h
  · next d hd =>
    split at h
    · next hdir => exact ⟨d, hd, Fs.isDir_iff.mp hdir⟩
    · cases h

theorem overlayGetattr_concat {n : FileName}
    (hcan : s.disk.fs.canonicalize (cfg.root ++ k.names) = .ok d)
    (hget : s.disk.fs.get (d ++ [n.1]) = some node) :
    ∃ attr, s.overlayGetattr cfg (k ++ [n]).rel = .ok attr ∧ (node = .dir → attr.kind = .dir) := by
  have hloc : s.disk.fs.locate (cfg.root ++ k.names ++ [n.1]) = .ok (d ++ [n.1]) :=
    Fs.locate_concat n.2.1 hcan
  obtain ⟨md, hmd⟩ := Option.ne_none_iff_exists'.mp
    (mt Fs.stat_eq_none.mp (Option.ne_none_iff_exists'.mpr ⟨node, hget⟩))
  refine ⟨attrFromMetadata md 0, ?_, ?_⟩
  · rw [overlayGetattr, cfg.abs_rel, names_append, ← append_assoc]
    simp only [names, map_cons, map_nil] at hloc ⊢
    rw [hloc]
    simp only [hmd]
  · rintro rfl
    rw [Fs.stat, hget] at hmd
    cases hmd
    rfl

theorem of_overlayGetattr {n : FileName} {attr : Attr}
    (h : s.overlayGetattr cfg (k ++ [n]).rel = .ok attr) :
    ∃ d node, s.disk.fs.canonicalize (cfg.root ++ k.names) = .ok d ∧
      s.disk.fs.get (d ++ [n.1]) = some node ∧ (attr.kind = .dir → node = .dir) := by
  rw [overlayGetattr, cfg.abs_rel, names_append, ← append_assoc] at h
  split at h
  · cases h
  · next l hl =>
    obtain ⟨d, hd, rfl⟩ := Fs.canonicalize_of_locate n.2.1 hl
    split at h
    · next md hmd =>
      cases h
      obtain ⟨node, hnode⟩ := Option.ne_none_iff_exists'.mp
        (mt Fs.stat_eq_none.mpr (Option.ne_none_iff_exists'.mpr ⟨md, hmd⟩))
      refine ⟨d, node, hd, hnode, fun hk => ?_⟩
      have hdir := Fs.kind_of_stat hmd hk
      rw [hdir] at hnode
      exact (Option.some.inj hnode).symm
    · cases h

/-! ## Where the parts of an overlay entry are -/

end OverlayMount

namespace OverlayConfig

variable {cfg : OverlayConfig} {p q : Place}

theorem isOverlay_append (q : Place) (h : cfg.isOverlay p.rel = true) :
    cfg.isOverlay (p ++ q).rel = true := ExcludeSet.isExcluded_append q h

theorem isOverlay_prefix (hq : q <+: p) (h : cfg.isOverlay p.rel = false) :
    cfg.isOverlay q.rel = false := by
  obtain ⟨r, rfl⟩ := hq
  by_contra hne
  rw [isOverlay_append r (by simpa using hne)] at h
  cases h

theorem ordinary_of_mem {c : Name} (hroot : ∀ c ∈ cfg.root, Fs.Ordinary c)
    (hc : c ∈ cfg.root ++ p.names) : Fs.Ordinary c :=
  (mem_append.mp hc).elim (hroot c) ordinary_of_mem_names

theorem split : ∀ {p : Place}, cfg.isOverlay p.rel = true →
    ∃ (q : Place) (n : FileName) (r : Place),
    p = q ++ n :: r ∧ cfg.isOverlay q.rel = false ∧ cfg.isOverlay (q ++ [n]).rel = true := by
  intro p
  induction p using reverseRecOn with
  | nil =>
    intro h
    cases h
  | append_singleton p m ih =>
    intro h
    by_cases hp : cfg.isOverlay (rel p) = true
    · obtain ⟨q, n, r, rfl, hq, hn⟩ := ih hp
      exact ⟨q, n, r ++ [m], by simp, hq, hn⟩
    · exact ⟨p, m, [], rfl, by simpa using hp, h⟩

end OverlayConfig

variable {p : Place} {r : Option Response} {k : Place} {f : Response → MountOp Unit} {m : FileName}

namespace OverlayMount

variable {cfg : OverlayConfig} {s s' : OverlayMount} {n : FileName} {req : Request}

/-- The directories of the server on the way to a place are there. -/
def Way (cfg : OverlayConfig) (s : OverlayMount) (p : Place) : Prop :=
  ∀ k : Place, k <+: p → cfg.isOverlay k.rel = false →
    ∃ full, cfg.x.resolve s.ctx.fs k.rel = .ok full ∧ s.ctx.fs.get full = some .dir

/-- **Where an overlay entry is**: below the directory `q` of the server, whose counterpart in the
overlay is at `d`, and there under the names `n :: r`. -/
structure Present (cfg : OverlayConfig) (s : OverlayMount) (q : Place) (n : FileName) (r : Place)
    (d : Loc) (node : Node) : Prop where
  above : cfg.isOverlay q.rel = false
  first : cfg.isOverlay (q ++ [n]).rel = true
  authed : s.ctx.me.authed = true
  attached : s.ctx.me.attached = true
  way : s.Way cfg q
  dir : s.disk.fs.canonicalize (cfg.root ++ q.names) = .ok d
  isDir : s.disk.fs.get d = some .dir
  node : s.disk.fs.get (d ++ names (n :: r)) = some node

theorem lookup_overlay (h : cfg.isOverlay (k ++ [n]).rel = true) :
    s.lookup cfg k.rel n.1 = s.overlayGetattr cfg (k ++ [n]).rel := by
  rw [lookup, ← rel_concat, if_pos h]

theorem canonicalize_names {q t : Place} (hd : s.disk.fs.canonicalize (cfg.root ++ q.names) = .ok d)
    (hdir : s.disk.fs.get (d ++ t.names) = some .dir) :
    s.disk.fs.canonicalize (cfg.root ++ (q ++ t).names) = .ok (d ++ t.names) := by
  rw [names_append, ← append_assoc]
  exact s.disk.sane.canonicalize_append hd t.names (fun _ => ordinary_of_mem_names) hdir

/-- The overlay part of a place that can be reached, down to any of its names. -/
theorem node_of_reachable {p q : Place} (h : s.Reachable cfg p)
    (hn : cfg.isOverlay (q ++ [n]).rel = true)
    (hd : s.disk.fs.canonicalize (cfg.root ++ q.names) = .ok d) (r : Place) :
    q ++ n :: r <+: p → ∃ node, s.disk.fs.get (d ++ names (n :: r)) = some node ∧
      (q ++ n :: r ≠ p → node = .dir) := by
  -- what one lookup says, given where its directory is
  have hlook : ∀ (k : Place) (m : FileName) (dir : Loc), k ++ [m] <+: p →
      cfg.isOverlay (k ++ [m]).rel = true →
      s.disk.fs.canonicalize (cfg.root ++ k.names) = .ok dir →
      ∃ node, s.disk.fs.get (dir ++ [m.1]) = some node ∧ (k ++ [m] ≠ p → node = .dir) := by
    intro k m dir hk hover hdir
    obtain ⟨⟨attr, hattr, hkind⟩, -⟩ := h k m hk
    rw [lookup_overlay hover] at hattr
    obtain ⟨d', node, hd', hnode, hdirkind⟩ := of_overlayGetattr hattr
    rw [hdir] at hd'
    cases hd'
    exact ⟨node, hnode, fun hne => hdirkind (hkind hne)⟩
  induction r using reverseRecOn with
  | nil => exact fun hp => hlook q n d hp hn hd
  | append_singleton r m ih =>
    intro hp
    have hsplit : q ++ n :: (r ++ [m]) = (q ++ n :: r) ++ [m] := by simp
    rw [hsplit] at hp ⊢
    have hne : q ++ n :: r ≠ p := by
      rintro rfl
      have hlen := hp.length_le
      rw [length_append, length_singleton] at hlen
      omega
    obtain ⟨node, hnode, hdirkind⟩ := ih ((prefix_append _ _).trans hp)
    cases hdirkind hne
    have hcan := canonicalize_names hd hnode
    have hover : cfg.isOverlay ((q ++ n :: r) ++ [m]).rel = true := by
      have := isOverlay_append (r ++ [m]) hn
      simpa using this
    obtain ⟨node, hnode, hkind⟩ := hlook (q ++ n :: r) m _ hp hover hcan
    refine ⟨node, ?_, hkind⟩
    rw [← cons_append, names_append, ← append_assoc]
    exact hnode

theorem way_of_reachable {q : Place} {r : Place} (hq : cfg.isOverlay q.rel = false)
    (h : s.Reachable cfg (q ++ n :: r)) :
    s.ctx.me.authed = true ∧ s.ctx.me.attached = true ∧ s.Way cfg q := by
  -- every directory on the way is listed, for the sake of the next name
  have hlist : ∀ k : Place, k <+: q → ∃ l, s.readdir cfg k.rel = .ok l := by
    rintro k ⟨t, rfl⟩
    have hnext : ∃ m t', t ++ n :: r = m :: t' := by
      cases t with
      | nil => exact ⟨n, r, rfl⟩
      | cons m t => exact ⟨m, t ++ n :: r, rfl⟩
    obtain ⟨m, t', ht⟩ := hnext
    obtain ⟨-, l, hl, -⟩ := h k m ⟨t', by simp [ht]⟩
    exact ⟨l, hl⟩
  obtain ⟨l, hl⟩ := hlist [] nil_prefix
  obtain ⟨hauth, hatt, -⟩ := of_readdir ( isOverlay_prefix nil_prefix hq) hl
  refine ⟨hauth, hatt, fun k hk hover => ?_⟩
  obtain ⟨l, hl⟩ := hlist k hk
  exact (of_readdir hover hl).2.2

/-- **What can be reached has both its parts.** -/
theorem present_of_overlayEntry (h : s.OverlayEntry cfg p) :
    ∃ q n r d node, p = q ++ n :: r ∧ s.Present cfg q n r d node := by
  obtain ⟨hover, hreach⟩ := h
  obtain ⟨q, n, r, rfl, hq, hn⟩ := OverlayConfig.split hover
  obtain ⟨hauth, hatt, hway⟩ := way_of_reachable hq hreach
  obtain ⟨-, l, hl, hmem⟩ := hreach q n (by simp)
  obtain ⟨-, -, full, hres, hdir⟩ := of_readdir hq hl
  rw [readdir_eq hq hauth hatt hres hdir] at hl
  cases hl
  -- the first excluded name is listed from the local side
  have hchild : ∃ c ∈ s.readdirChildren cfg q.rel, c.1 = n.1 := by
    obtain ⟨c, hc, heq⟩ := mem_map.mp hmem
    rw [rel_concat] at hn
    rcases mem_append.mp hc with hc | hc
    · obtain ⟨e, he, rfl⟩ := mem_map.mp hc
      have hno := (mem_filter.mp he).2
      simp only at heq
      rw [heq, hn] at hno
      cases hno
    · exact ⟨c, (mem_filter.mp hc).1, heq⟩
  obtain ⟨c, hc, -⟩ := hchild
  obtain ⟨d, hd, hdd⟩ := dir_of_mem_readdirChildren hc
  obtain ⟨node, hnode, -⟩ := node_of_reachable hreach hn hd r prefix_rfl
  exact ⟨q, n, r, d, node, rfl, hq, hn, hauth, hatt, hway, hd, hdd, hnode⟩

namespace Present

variable {q : Place} {n : FileName} {r : Place} {d : Loc} {node : Node}

section

variable (h : s.Present cfg q n r d node)
include h

theorem isOverlay : cfg.isOverlay (q ++ n :: r).rel = true := by
  have := isOverlay_append r h.first
  rwa [append_assoc, singleton_append] at this

theorem reach_server (hs : s.ctx.fs.Sane)
    (hx : ∀ c ∈ cfg.x.root, Fs.Ordinary c) (hk : k ++ [m] <+: q) :
    (∃ attr, s.lookup cfg k.rel m.1 = .ok attr ∧ attr.kind = .dir) ∧
      ∃ l, s.readdir cfg k.rel = .ok l ∧ m.1 ∈ l.map Prod.fst := by
  have hover := isOverlay_prefix hk h.above
  have hover' := isOverlay_prefix (prefix_append k [m]) hover
  obtain ⟨full, hres, hdir⟩ := h.way _ hk hover
  obtain ⟨up, hup, hupdir⟩ := h.way k ((prefix_append k [m]).trans hk) hover'
  have hget := Export.get_of_resolve_concat hs hx hup hupdir hres hdir
  have hshown := Export.shown_of_resolve hres
  rw [rel_concat] at hover hres hshown
  constructor
  · obtain ⟨attr, hrun, hkind⟩ := Ctx.handle_getattr h.authed h.attached hres hdir
    refine ⟨attr, ?_, hkind⟩
    rw [lookup, hover, if_neg Bool.false_ne_true, query_of_handle hrun]
  · refine ⟨_, readdir_eq hover' h.authed h.attached hup hupdir, ?_⟩
    obtain ⟨md, hmd⟩ := Option.ne_none_iff_exists'.mp (mt Fs.stat_eq_none.mp hget)
    refine mem_map.mpr ⟨(m.1, attrFromMetadata md
      ((s.ctx.versions.lookup (k.rel.join m.1)).getD 0)), mem_append_left _ ?_, rfl⟩
    refine mem_map.mpr ⟨⟨m.1, _⟩, mem_filter.mpr ⟨?_, by rw [hover]; rfl⟩, rfl⟩
    refine mem_filterMap.mpr ⟨m.1, Fs.mem_children.mpr hget, ?_⟩
    simp only [hshown, Bool.false_eq_true, if_false, hmd, Option.map_some]
    rfl

/-- One name on the local part of the way: `n :: t` is where it is looked up. -/
theorem reach_local {t : Place} (ht : n :: t ++ [m] <+: n :: r) :
    (∃ attr, s.lookup cfg (q ++ n :: t).rel m.1 = .ok attr ∧
      (n :: t ++ [m] ≠ n :: r → attr.kind = .dir)) ∧
      ∃ l, s.readdir cfg (q ++ n :: t).rel = .ok l ∧ m.1 ∈ l.map Prod.fst := by
  have hsane := s.disk.sane
  have hnames : d ++ names (n :: t ++ [m]) <+: d ++ names (n :: r) :=
    (prefix_append_right_inj d).mpr ( names_prefix ht)
  obtain ⟨node', hnode', hkind⟩ : ∃ node', s.disk.fs.get (d ++ names (n :: t ++ [m])) = some node' ∧
      (n :: t ++ [m] ≠ n :: r → node' = .dir) := by
    by_cases heq : n :: t ++ [m] = n :: r
    · rw [heq]
      exact ⟨node, h.node, fun hne => absurd rfl hne⟩
    · refine ⟨.dir, hsane.dir_of_prefix h.node hnames fun hsame => heq ?_, fun _ => rfl⟩
      exact names_injective (append_cancel_left hsame)
  rw [names_append, ← append_assoc] at hnode'
  have hdir := hsane.parent _ _ _ hnode'
  have hcan := canonicalize_names h.dir hdir
  have hover : cfg.isOverlay (q ++ n :: t).rel = true := by
    have := isOverlay_append t h.first
    rwa [append_assoc, singleton_append] at this
  constructor
  · obtain ⟨attr, hattr, hdk⟩ := overlayGetattr_concat hcan hnode'
    rw [lookup_overlay (isOverlay_append [m] hover)]
    exact ⟨attr, hattr, fun hne => hdk (hkind hne)⟩
  · refine ⟨_, by rw [readdir, if_pos hover], ?_⟩
    rw [mem_readdirChildren hcan hdir]
    exact Option.ne_none_iff_exists'.mpr ⟨node', hnode'⟩

/-- The first excluded name: the server lists the directory, the overlay has the entry. -/
theorem reach_first : (∃ attr, s.lookup cfg q.rel n.1 = .ok attr ∧ (r ≠ [] → attr.kind = .dir)) ∧
      ∃ l, s.readdir cfg q.rel = .ok l ∧ n.1 ∈ l.map Prod.fst := by
  obtain ⟨node', hnode', hkind⟩ : ∃ node', s.disk.fs.get (d ++ [n.1]) = some node' ∧
      (r ≠ [] → node' = .dir) := by
    have hnode := h.node
    cases r with
    | nil => exact ⟨node, hnode, fun hne => absurd rfl hne⟩
    | cons m r =>
      refine ⟨.dir, s.disk.sane.dir_of_prefix hnode ?_ ?_, fun _ => rfl⟩
      · exact (prefix_append_right_inj d).mpr ⟨names (m :: r), rfl⟩
      · intro heq
        have := append_cancel_left heq
        simp [names] at this
  obtain ⟨full, hres, hdir⟩ := h.way q prefix_rfl h.above
  constructor
  · obtain ⟨attr, hattr, hdk⟩ := overlayGetattr_concat h.dir hnode'
    rw [lookup_overlay h.first]
    exact ⟨attr, hattr, fun hne => hdk (hkind hne)⟩
  · refine ⟨_, readdir_eq h.above h.authed h.attached hres hdir, ?_⟩
    obtain ⟨c, hc, heq⟩ := mem_map.mp
      ((mem_readdirChildren h.dir h.isDir).mpr (Option.ne_none_iff_exists'.mpr ⟨node', hnode'⟩))
    refine mem_map.mpr ⟨c, mem_append_right _ (mem_filter.mpr ⟨hc, ?_⟩), heq⟩
    rw [heq, ← rel_concat]
    exact h.first

/-- **What has both its parts can be reached.** -/
theorem overlayEntry (hs : s.ctx.fs.Sane)
    (hx : ∀ c ∈ cfg.x.root, Fs.Ordinary c) : s.OverlayEntry cfg (q ++ n :: r) := by
  refine ⟨h.isOverlay, fun k m hk => ?_⟩
  rcases prefix_or_prefix_of_prefix hk (prefix_append q (n :: r)) with hkq | hqk
  · obtain ⟨⟨attr, hattr, hkind⟩, hl⟩ := h.reach_server hs hx hkq
    exact ⟨⟨attr, hattr, fun _ => hkind⟩, hl⟩
  · obtain ⟨t, ht⟩ := hqk
    rw [← ht, prefix_append_right_inj] at hk
    rcases eq_nil_or_concat' t with rfl | ⟨t, m', rfl⟩
    · rw [append_nil] at ht
      obtain ⟨⟨attr, hattr, hkind⟩, hl⟩ := h.reach_server hs hx ⟨[], by rw [append_nil, ht]⟩
      exact ⟨⟨attr, hattr, fun _ => hkind⟩, hl⟩
    · rw [← append_assoc] at ht
      obtain ⟨rfl, hm⟩ := append_inj' ht rfl
      cases hm
      cases t with
      | nil =>
        rw [nil_append, cons_prefix_cons] at hk
        obtain ⟨rfl, -⟩ := hk
        rw [append_nil]
        obtain ⟨⟨attr, hattr, hkind⟩, hl⟩ := h.reach_first
        refine ⟨⟨attr, hattr, fun hne => hkind fun hr => hne ?_⟩, hl⟩
        rw [hr]
      | cons a t =>
        obtain ⟨rfl, -⟩ := cons_prefix_cons.mp hk
        obtain ⟨⟨attr, hattr, hkind⟩, hl⟩ := h.reach_local hk
        refine ⟨⟨attr, hattr, fun hne => hkind fun heq => hne ?_⟩, hl⟩
        rw [append_assoc, heq]

theorem nodeAt_eq : s.nodeAt cfg (q ++ n :: r) = some node := by
  obtain ⟨t, m, ht⟩ : ∃ t m, n :: r = t ++ [m] :=
    (eq_nil_or_concat' (n :: r)).resolve_left (cons_ne_nil n r)
  have hnode := h.node
  rw [ht, names_append, ← append_assoc] at hnode
  have hloc := Fs.locate_concat m.2.1
    (canonicalize_names h.dir (s.disk.sane.parent _ _ _ hnode))
  rw [nodeAt, cfg.abs_rel, ht, ← append_assoc, names_append, ← append_assoc]
  simp only [names, map_cons, map_nil] at hloc hnode ⊢
  rw [hloc]
  exact hnode

theorem of_server (hdisk : s'.disk = s.disk)
    (hauth : s'.ctx.me.authed = true) (hatt : s'.ctx.me.attached = true) (hway : s'.Way cfg q) :
    s'.Present cfg q n r d node :=
  ⟨h.above, h.first, hauth, hatt, hway, hdisk ▸ h.dir, hdisk ▸ h.isDir, hdisk ▸ h.node⟩

theorem of_grows (hctx : s'.ctx = s.ctx)
    (hgrows : Fs.Grows s.disk.fs s'.disk.fs) : s'.Present cfg q n r d node := by
  obtain ⟨hdir, hisDir⟩ := Fs.canonicalize_kept h.dir h.isDir fun l node _ => hgrows l node
  exact ⟨h.above, h.first, hctx ▸ h.authed, hctx ▸ h.attached, by rw [Way, hctx]; exact h.way, hdir,
    hisDir, hgrows _ _ h.node⟩

theorem get_of_noLinks (hroot : ∀ c ∈ cfg.root, Fs.Ordinary c)
    (hno : s.disk.fs.NoLinks (cfg.root ++ q.names)) :
    s.disk.fs.get (cfg.root ++ names (q ++ n :: r)) = some node := by
  have hd : d = cfg.root ++ q.names :=
    Fs.canonicalize_eq (fun _ => ordinary_of_mem hroot) hno h.dir
  have hnode := h.node
  rwa [hd, append_assoc, ← names_append] at hnode

end

end Present

theorem present_of_get {q : Place} {r : Place}
    (hroot : ∀ c ∈ cfg.root, Fs.Ordinary c) (hq : cfg.isOverlay q.rel = false)
    (hn : cfg.isOverlay (q ++ [n]).rel = true) (hauth : s.ctx.me.authed = true)
    (hatt : s.ctx.me.attached = true) (hway : s.Way cfg q)
    (hget : s.disk.fs.get (cfg.root ++ names (q ++ n :: r)) = some node) :
    s.Present cfg q n r (cfg.root ++ q.names) node := by
  have hdir : s.disk.fs.get (cfg.root ++ q.names) = some .dir := by
    refine s.disk.sane.dir_of_prefix hget ?_ ?_
    · rw [names_append]
      exact (prefix_append_right_inj _).mpr (prefix_append _ _)
    · intro heq
      have := append_cancel_left heq
      rw [names_append, self_eq_append_right] at this
      cases this
  refine ⟨hq, hn, hauth, hatt, hway,
    s.disk.sane.canonicalize_dir (fun _ => ordinary_of_mem hroot) hdir, hdir, ?_⟩
  rwa [append_assoc, ← names_append]

/-! ## The condition -/

/-- A location of the server that is passed on the way to a place. -/
def OnWay (cfg : OverlayConfig) (s : OverlayMount) (p : Place) (l : Loc) : Prop :=
  ∃ k : Place, k <+: p ∧ cfg.isOverlay k.rel = false ∧
    s.ctx.fs.PassedBy (cfg.x.root ++ k.names) l

/-- The local disk has no links on the way to a directory, or to an overlay entry. -/
def Direct (cfg : OverlayConfig) (s : OverlayMount) (dir : Place) : Prop :=
  s.disk.fs.NoLinks (cfg.root ++ dir.names) ∧
    ∀ p, s.OverlayEntry cfg p → s.disk.fs.NoLinks (cfg.root ++ names p.dropLast)

/-- **When a call keeps the two sides together.**  What it removes or moves on the server is not on
the way to an overlay entry; a directory that it removes there has no overlay entries; and on the
local disk no link leads from one place to another. -/
def keepsTogether (cfg : OverlayConfig) (s : OverlayMount) : TreeCall → Prop
  | .create _ _ _ _ => True
  | .mkdir _ _ _ => True
  | .unlink parent name => cfg.isOverlay (parent ++ [name]).rel = true → s.Direct cfg parent
  | .rmdir parent name =>
    (cfg.isOverlay (parent ++ [name]).rel = true → s.Direct cfg parent) ∧
    (cfg.isOverlay (parent ++ [name]).rel = false →
      (∀ c ∈ s.readdirChildren cfg (parent ++ [name]).rel,
        cfg.isOverlay ((parent ++ [name]).rel.join c.1) = false) ∧
      ∀ full, cfg.x.resolve s.ctx.fs (parent ++ [name]).rel = .ok full →
        ∀ p, s.OverlayEntry cfg p → ¬ s.OnWay cfg p full)
  | .rename parent name newparent newname _ =>
    (cfg.isOverlay (parent ++ [name]).rel = true →
      s.Direct cfg parent ∧ s.Direct cfg newparent ∧ s.Way cfg newparent) ∧
    (cfg.isOverlay (parent ++ [name]).rel = false →
      ∀ src dst, cfg.x.resolve s.ctx.fs (parent ++ [name]).rel = .ok src →
        cfg.x.resolveNew s.ctx.fs (newparent ++ [newname]).rel = .ok dst →
        ∀ p, s.OverlayEntry cfg p → ∀ l, s.OnWay cfg p l →
          ¬ src <+: l ∧ (l = dst → s.ctx.fs.get dst = some .dir))

/-! ## What each side keeps -/

section Steps

variable {p : Place} (hx : ∀ c ∈ cfg.x.root, Fs.Ordinary c)

include hx

theorem entry_of_server (hs : s.ctx.fs.Sane) (hs' : s'.ctx.fs.Sane) (hdisk : s'.disk = s.disk)
    (hauth : s.ctx.me.authed = true → s'.ctx.me.authed = true)
    (hatt : s.ctx.me.attached = true → s'.ctx.me.attached = true) (hp : s.OverlayEntry cfg p)
    (hkept : ∀ l node, s.OnWay cfg p l → s.ctx.fs.get l = some node →
      s'.ctx.fs.get l = some node) :
    s'.OverlayEntry cfg p ∧ s'.nodeAt cfg p = s.nodeAt cfg p := by
  obtain ⟨q, n, r, d, node, rfl, h⟩ := present_of_overlayEntry hp
  have hway : s'.Way cfg q := by
    intro k hk hover
    obtain ⟨full, hres, hdir⟩ := h.way k hk hover
    have hkp : k <+: q ++ n :: r := hk.trans (prefix_append _ _)
    exact ⟨full, Export.resolve_kept hs hx hres hdir fun l node hl =>
      hkept l node ⟨k, hkp, hover, hl⟩⟩
  have h' := h.of_server hdisk (hauth h.authed) (hatt h.attached) hway
  exact ⟨h'.overlayEntry hs' hx, by rw [h'.nodeAt_eq, h.nodeAt_eq]⟩

theorem entry_of_grows (hs : s.ctx.fs.Sane) (hctx : s'.ctx = s.ctx)
    (hgrows : Fs.Grows s.disk.fs s'.disk.fs) (hp : s.OverlayEntry cfg p) :
    s'.OverlayEntry cfg p ∧ s'.nodeAt cfg p = s.nodeAt cfg p := by
  obtain ⟨q, n, r, d, node, rfl, h⟩ := present_of_overlayEntry hp
  have h' := h.of_grows hctx hgrows
  exact ⟨h'.overlayEntry (hctx ▸ hs) hx, by rw [h'.nodeAt_eq, h.nodeAt_eq]⟩

omit hx in
theorem get_of_direct {dir : Place} (hroot : ∀ c ∈ cfg.root, Fs.Ordinary c)
    (hdirect : s.Direct cfg dir) (hp : s.OverlayEntry cfg p) :
    ∃ node, s.disk.fs.get (cfg.root ++ p.names) = some node ∧ s.nodeAt cfg p = some node := by
  obtain ⟨q, n, r, d, node, rfl, h⟩ := present_of_overlayEntry hp
  refine ⟨node, h.get_of_noLinks hroot ((hdirect.2 _ hp).mono ?_), h.nodeAt_eq⟩
  refine (prefix_append_right_inj _).mpr ( names_prefix ?_)
  rw [dropLast_append_of_ne_nil (cons_ne_nil n r)]
  exact prefix_append _ _

theorem entry_of_get (hs : s.ctx.fs.Sane) (hroot : ∀ c ∈ cfg.root, Fs.Ordinary c)
    (hauth : s.ctx.me.authed = true) (hatt : s.ctx.me.attached = true)
    (hover : cfg.isOverlay p.rel = true) (hway : s.Way cfg p)
    (hget : s.disk.fs.get (cfg.root ++ p.names) = some node) :
    s.OverlayEntry cfg p ∧ s.nodeAt cfg p = some node := by
  obtain ⟨q, n, r, rfl, hq, hn⟩ := OverlayConfig.split hover
  have h := present_of_get hroot hq hn hauth hatt
    (fun k hk => hway k (hk.trans (prefix_append _ _))) hget
  exact ⟨h.overlayEntry hs hx, h.nodeAt_eq⟩

omit hx in
theorem Way.append {q : Place} (h : s.Way cfg q)
    (hn : cfg.isOverlay (q ++ [n]).rel = true) (r : Place) : s.Way cfg (q ++ [n] ++ r) := by
  intro k hk hover
  rcases prefix_or_prefix_of_prefix hk (prefix_append (q ++ [n]) r) with hkq | hqk
  · rcases prefix_concat_iff.mp hkq with rfl | hkq
    · rw [hn] at hover
      cases hover
    · exact h k hkq hover
  · obtain ⟨t, rfl⟩ := hqk
    rw [isOverlay_append t hn] at hover
    cases hover

omit hx in
theorem way_of_overlayEntry (hp : s.OverlayEntry cfg p) :
    s.ctx.me.authed = true ∧ s.ctx.me.attached = true ∧ s.Way cfg p := by
  obtain ⟨q, n, r, d, node, rfl, h⟩ := present_of_overlayEntry hp
  have hway := h.way.append h.first r
  rw [append_assoc, singleton_append] at hway
  exact ⟨h.authed, h.attached, hway⟩

theorem node_of_onWay (hs : s.ctx.fs.Sane) (hp : s.OverlayEntry cfg p) {l : Loc}
    (hl : s.OnWay cfg p l) :
    s.ctx.fs.get l = some .dir ∨ ∃ t, s.ctx.fs.get l = some (.symlink t) := by
  obtain ⟨k, hk, hover, hpassed⟩ := hl
  obtain ⟨full, hres, hdir⟩ := (way_of_overlayEntry hp).2.2 k hk hover
  exact hpassed.node (Export.canonicalize_of_resolve hs hx hres hdir)

end Steps

/-! ## The calls -/

theorem ask_eq_ok {r : Response} (h : ask cfg req s = .ok r s') :
    ∃ c, Ctx.handle cfg.x req s.ctx = .ok (some r) c ∧ s' = { s with ctx := c } := by
  rw [ask] at h
  split at h
  · next r' c hrun =>
    cases h
    exact ⟨c, hrun, rfl⟩
  · cases h
  · cases h

theorem final_asked (hf : ∀ r t, final (f r t) = t) : final ((ask cfg req >>= f) s) =
      { s with ctx := final (Ctx.handle cfg.x req s.ctx) } := by
  cases hrun : Ctx.handle cfg.x req s.ctx with
  | ok r c =>
    cases r with
    | none =>
      have : ask cfg req s = .error .io { s with ctx := c } := by rw [ask, hrun]
      rw [bind_of_error this]
      rfl
    | some r =>
      have : ask cfg req s = .ok r { s with ctx := c } := by rw [ask, hrun]
      rw [bind_of_ok this, hf]
      rfl
  | error e c =>
    have : ask cfg req s = .error e { s with ctx := c } := by rw [ask, hrun]
    rw [bind_of_error this]
    rfl

theorem of_asked (hf : ∀ r t, final (f r t) = t) (h : (ask cfg req >>= f) s = .ok () s') :
    ∃ r, Ctx.handle cfg.x req s.ctx = .ok (some r) s'.ctx ∧ s'.disk = s.disk := by
  rw [bind_eq_ok] at h
  obtain ⟨r, t, hask, hr⟩ := h
  obtain ⟨c, hc, rfl⟩ := ask_eq_ok hask
  have hend := hf r { s with ctx := c }
  rw [hr] at hend
  cases hend
  exact ⟨r, hc, rfl⟩

theorem onDisk_eq_ok {α : Type} {call : DiskCall α} {a : α} (h : onDisk call s = .ok a s') :
    call.run s.disk.fs = .ok (a, s'.disk.fs) ∧ s'.ctx = s.ctx := by
  obtain ⟨d, hd, rfl⟩ := lens_eq_ok.mp h
  exact ⟨DiskCall.exec_ok hd, rfl⟩

theorem ctx_onDisk {α : Type} (call : DiskCall α) :
    Fixes (fun s : OverlayMount => s.ctx) (onDisk call) :=
  fun _ => Triple.lens (fun _ _ _ _ h => h) fun _ h => h

section Calls

variable {parent newparent : Place} {name newname : FileName} {replace : Bool}

theorem loc_ne {p q : Place} (h : p ≠ q) : cfg.root ++ p.names ≠ cfg.root ++ q.names :=
  fun heq => h (names_injective (append_cancel_left heq))

variable (hx : ∀ c ∈ cfg.x.root, Fs.Ordinary c) (hs : s.ctx.fs.Sane)

section

include hx hs

theorem entry_of_handle (hp : s.OverlayEntry cfg p)
    (hrun : Ctx.handle cfg.x req s.ctx = .ok r s'.ctx) (hdisk : s'.disk = s.disk)
    (hs' : (final (Ctx.handle cfg.x req s.ctx)).fs.Sane)
    (hkept : ∀ l node, s.OnWay cfg p l → s.ctx.fs.get l = some node →
      s'.ctx.fs.get l = some node) :
    s'.OverlayEntry cfg p ∧ s'.nodeAt cfg p = s.nodeAt cfg p := by
  rw [hrun] at hs'
  obtain ⟨hauth, hatt⟩ := Ctx.session_of_handle hrun
  exact entry_of_server hx hs hs' hdisk hauth hatt hp hkept

theorem entry_of_making (hp : s.OverlayEntry cfg p)
    (hrun : Ctx.handle cfg.x req s.ctx = .ok r s'.ctx) (hdisk : s'.disk = s.disk)
    (hend : (final (Ctx.handle cfg.x req s.ctx)).fs.Sane ∧
      Fs.Grows s.ctx.fs (final (Ctx.handle cfg.x req s.ctx)).fs) :
    s'.OverlayEntry cfg p ∧ s'.nodeAt cfg p = s.nodeAt cfg p := by
  refine entry_of_handle hx hs hp hrun hdisk hend.1 fun l node _ => ?_
  rw [hrun] at hend
  exact hend.2 l node

theorem preserved_create {flags : OpenFlags} {mode : ℕ}
    (h : run cfg (.create parent name flags mode) s = .ok () s') :
    s.Preserved cfg (.create parent name flags mode) s' := by
  intro p hp _
  change create cfg parent.rel name.1 flags mode s = .ok () s' at h
  rw [create] at h
  split at h
  · rw [overlayCreate, bind_eq_ok] at h
    obtain ⟨_, s₁, hdirs, h⟩ := h
    rw [bind_eq_ok] at h
    obtain ⟨_, s₂, hfile, h⟩ := h
    obtain ⟨-, rfl⟩ := pure_eq_ok.mp h
    obtain ⟨hdirs, hctx₁⟩ := onDisk_eq_ok hdirs
    obtain ⟨hfile, hctx₂⟩ := onDisk_eq_ok hfile
    have hgrows : Fs.Grows s₁.disk.fs s'.disk.fs := by
      refine Fs.grows_onPath (f := fun fs l => if flags.excl then fs.createNew l
        else fs.openCreate l flags.truncate) (fun l r fs' hr => ?_) hfile
      split at hr
      · exact Fs.grows_createNew hr
      · exact s₁.disk.sane.grows_openCreate hr
    exact entry_of_grows hx hs (hctx₂.trans hctx₁) ((Fs.grows_ensureDirs _ hdirs).trans hgrows) hp
  · obtain ⟨r, hrun, hdisk⟩ := of_asked (fun r t => by split <;> rfl) h
    exact entry_of_making hx hs hp hrun hdisk (Ctx.final_handle_create hs _ flags mode)

theorem preserved_mkdir {mode : ℕ} (h : run cfg (.mkdir parent name mode) s = .ok () s') :
    s.Preserved cfg (.mkdir parent name mode) s' := by
  intro p hp _
  change mkdir cfg parent.rel name.1 mode s = .ok () s' at h
  rw [mkdir] at h
  split at h
  · rw [overlayMkdir, bind_eq_ok] at h
    obtain ⟨_, s₁, hdirs, h⟩ := h
    obtain ⟨hdirs, hctx₁⟩ := onDisk_eq_ok hdirs
    obtain ⟨hdir, hctx₂⟩ := onDisk_eq_ok h
    have hgrows : Fs.Grows s₁.disk.fs s'.disk.fs :=
      Fs.grows_onPath (fun l r fs' hr => Fs.grows_makeEntry hr) hdir
    exact entry_of_grows hx hs (hctx₂.trans hctx₁) ((Fs.grows_ensureDirs _ hdirs).trans hgrows) hp
  · obtain ⟨r, hrun, hdisk⟩ := of_asked (fun r t => by split <;> rfl) h
    exact entry_of_making hx hs hp hrun hdisk (Ctx.final_handle_mkdir hs _ mode)

end

variable (hroot : ∀ c ∈ cfg.root, Fs.Ordinary c)

section

include hroot

theorem locate_of_direct {fs : Fs} {l : Loc}
    (hno : fs.NoLinks (cfg.root ++ parent.names))
    (h : fs.locate (cfg.abs (parent.rel.join name.1)) = .ok l) :
    l = cfg.root ++ (parent ++ [name]).names := by
  rw [← rel_concat, cfg.abs_rel] at h
  refine Fs.locate_eq (fun _ => ordinary_of_mem hroot) ?_ h
  rw [names_append, ← append_assoc, names, names, map_singleton,
    dropLast_concat]
  exact hno

include hx hs

theorem entry_of_removed (hdirect : s.Direct cfg parent) (hctx : s'.ctx = s.ctx)
    {remove : Fs → Loc → Fs.Call Unit}
    (hremove : ∀ fs l fs', remove fs l = .ok ((), fs') → ∀ l', l' ≠ l → fs'.get l' = fs.get l')
    (h : Fs.onPath (cfg.abs (parent.rel.join name.1)) remove s.disk.fs = .ok ((), s'.disk.fs))
    (hp : s.OverlayEntry cfg p) (hne : p ≠ parent ++ [name]) :
    s'.OverlayEntry cfg p ∧ s'.nodeAt cfg p = s.nodeAt cfg p := by
  obtain ⟨node, hget, hnode⟩ := get_of_direct hroot hdirect hp
  obtain ⟨hauth, hatt, hway⟩ := way_of_overlayEntry hp
  obtain ⟨l, hl, h⟩ := Fs.onPath_ok h
  rw [locate_of_direct hroot hdirect.1 hl] at h
  rw [hnode]
  refine entry_of_get hx (hctx ▸ hs) hroot (hctx ▸ hauth) (hctx ▸ hatt) hp.1
    (by rw [Way, hctx]; exact hway) ?_
  rw [hremove _ _ _ h _ (loc_ne hne), hget]

theorem preserved_unlink (hok : s.keepsTogether cfg (.unlink parent name))
    (h : run cfg (.unlink parent name) s = .ok () s') :
    s.Preserved cfg (.unlink parent name) s' := by
  intro p hp hgone
  change remove cfg parent.rel name.1 false s = .ok () s' at h
  rw [remove] at h
  split at h
  · next hover =>
    rw [if_neg Bool.false_ne_true] at h
    obtain ⟨hrun, hctx⟩ := onDisk_eq_ok h
    rw [← rel_concat] at hover
    exact entry_of_removed hx hs hroot (hok hover) hctx
      (fun _ _ _ hr _ hne => Fs.get_of_removeFile hr hne) hrun hp hgone
  · rw [if_neg Bool.false_ne_true] at h
    obtain ⟨r, hrun, hdisk⟩ := of_asked (fun r t => by split <;> rfl) h
    obtain ⟨full, hres, hremove⟩ := Ctx.of_handle_unlink hrun
    refine entry_of_handle hx hs hp hrun hdisk (Ctx.final_handle_unlink hs _)
      fun l node hl hget => ?_
    -- what is on the way is a directory or a link, and what was removed is neither
    have hne : l ≠ full := by
      rintro rfl
      rcases node_of_onWay hx hs hp hl with hdir | ⟨t, hlink⟩
      · exact (Fs.removeFile_ok hremove).1.2 hdir
      · rw [← rel_concat] at hres
        exact Export.not_link_of_resolve (by simp) hres t hlink
    rw [Fs.get_of_removeFile hremove hne, hget]

theorem preserved_rmdir (hok : s.keepsTogether cfg (.rmdir parent name))
    (h : run cfg (.rmdir parent name) s = .ok () s') :
    s.Preserved cfg (.rmdir parent name) s' := by
  intro p hp hgone
  change remove cfg parent.rel name.1 true s = .ok () s' at h
  rw [remove] at h
  split at h
  · next hover =>
    rw [if_pos rfl] at h
    obtain ⟨hrun, hctx⟩ := onDisk_eq_ok h
    replace hrun : Fs.onPath (cfg.abs (parent.rel.join name.1))
      (fun fs l => if l = [] then .error .io else fs.removeDir l) s.disk.fs =
        .ok ((), s'.disk.fs) := hrun
    rw [← rel_concat] at hover
    refine entry_of_removed hx hs hroot (hok.1 hover) hctx (fun fs l fs' hr l' hne => ?_) hrun hp
      hgone
    split at hr
    · cases hr
    · exact Fs.get_of_removeDir hr hne
  · next hover =>
    rw [if_pos rfl] at h
    obtain ⟨r, hrun, hdisk⟩ := of_asked (fun r t => by split <;> rfl) h
    rw [← rel_concat] at hover hrun
    obtain ⟨-, -, full, hres, hremove⟩ := Ctx.of_handle_rmdir hrun
    refine entry_of_handle hx hs hp hrun hdisk (Ctx.final_handle_rmdir hs
      (append_ne_nil_of_right_ne_nil parent (cons_ne_nil name []))) fun l node hl hget => ?_
    have hne : l ≠ full := by
      rintro rfl
      exact (hok.2 (by simpa using hover)).2 l hres p hp hl
    rw [Fs.get_of_removeDir hremove hne, hget]

end

/-- A directory of the server that is removed: it is listed by the server as empty. -/
theorem empty_of_removed {full : Loc} {fs' : Fs}
    (hrem : s.ctx.fs.removeDir full = .ok ((), fs')) : Ctx.listing cfg.x s.ctx k.rel full = [] := by
  have hnone : s.ctx.fs.children full = [] := by
    refine eq_nil_iff_forall_not_mem.mpr fun c hc => Fs.mem_children.mp hc ?_
    exact Fs.empty_of_removeDir hrem (prefix_append _ _) (by simp)
  rw [Ctx.listing, hnone, filterMap_nil]

theorem readdirChildren_of_removeDir {d : Disk}
    (h : (DiskCall.removeDir (cfg.abs (parent ++ [name]).rel)).run s.disk.fs = .ok ((), d.fs)) :
    s.readdirChildren cfg (parent ++ [name]).rel = [] := by
  replace h : Fs.onPath (cfg.abs (parent ++ [name]).rel)
    (fun fs l => if l = [] then .error .io else fs.removeDir l) s.disk.fs = .ok ((), d.fs) := h
  rw [Fs.onPath, cfg.abs_rel, names_append, ← append_assoc] at h
  split at h
  · next l hl =>
    obtain ⟨dir, hdir, rfl⟩ := Fs.canonicalize_of_locate name.2.1 hl
    rw [if_neg (by simp)] at h
    have hcan := s.disk.sane.canonicalize_append hdir [name.1]
      (fun c hc => mem_singleton.mp hc ▸ name.2.1) (Fs.removeDir_ok h).1.1
    have hmem := fun c => mem_readdirChildren (k := parent ++ [name]) (c := c)
      (by rw [names_append, ← append_assoc]; exact hcan) (Fs.removeDir_ok h).1.1
    refine eq_nil_iff_forall_not_mem.mpr fun c hc => ?_
    exact (hmem c.1).mp (mem_map_of_mem hc)
      (Fs.empty_of_removeDir h (prefix_append _ _) (by simp))
  · cases h

/-- **A directory that was removed had an empty listing.** -/
theorem readdir_of_rmdir (hok : s.keepsTogether cfg (.rmdir parent name))
    (h : run cfg (.rmdir parent name) s = .ok () s') :
    s.readdir cfg (parent ++ [name]).rel = .ok [] := by
  change remove cfg parent.rel name.1 true s = .ok () s' at h
  rw [remove] at h
  split at h
  · next hover =>
    rw [if_pos rfl] at h
    obtain ⟨hrun, -⟩ := onDisk_eq_ok h
    rw [← rel_concat] at hover hrun
    rw [readdir, if_pos hover, readdirChildren_of_removeDir hrun]
  · next hover =>
    rw [if_pos rfl] at h
    obtain ⟨r, hrun, -⟩ := of_asked (fun r t => by split <;> rfl) h
    rw [← rel_concat] at hover hrun
    obtain ⟨hauth, hatt, full, hres, hremove⟩ := Ctx.of_handle_rmdir hrun
    have hover' : cfg.isOverlay (parent ++ [name]).rel = false := by simpa using hover
    have hdir : s.ctx.fs.get full = some .dir := (Fs.removeDir_ok hremove).1.1
    rw [readdir_eq hover' hauth hatt hres hdir, empty_of_removed hremove]
    have hnone : ((s.readdirChildren cfg (parent ++ [name]).rel).filter fun c =>
        cfg.isOverlay ((parent ++ [name]).rel.join c.1)) = [] :=
      filter_eq_nil_iff.mpr fun c hc => by simpa using (hok.2 hover').1 c hc
    rw [hnone]
    rfl

/-! ## Renaming -/

section

include hx hs

theorem preserved_rename_server
    (hover : cfg.isOverlay (parent ++ [name]).rel = false)
    (hok : s.keepsTogether cfg (.rename parent name newparent newname replace))
    (hrun : Ctx.handle cfg.x (.rename (parent ++ [name]).rel (newparent ++ [newname]).rel replace)
      s.ctx = .ok r s'.ctx) (hdisk : s'.disk = s.disk) :
    s.Preserved cfg (.rename parent name newparent newname replace) s' := by
  intro p hp _
  obtain ⟨src, dst, hsrc, hdst, hren⟩ := Ctx.of_handle_rename hrun
  have haway := hok.2 hover src dst hsrc hdst p hp
  -- the entry is not below what was moved, or that would be on the way to it
  have himage : TreeCall.image (.rename parent name newparent newname replace) p = p := by
    refine if_neg fun hpre => ?_
    obtain ⟨full, hres, hdir⟩ := (way_of_overlayEntry hp).2.2 _ hpre hover
    rw [hsrc] at hres
    cases hres
    refine (haway src ⟨_, hpre, hover, ?_⟩).1 prefix_rfl
    exact Fs.passedBy_end (Export.canonicalize_of_resolve hs hx hsrc hdir) hdir
  rw [himage]
  refine entry_of_handle hx hs hp hrun hdisk (Ctx.final_handle_rename hs _ _ _)
    fun l node hl hget => ?_
  obtain ⟨hsrcl, hdstl⟩ := haway l hl
  by_cases hld : l = dst
  · have hdir := hdstl hld
    rw [← hld] at hdir
    rw [hdir] at hget
    cases hget
    exact hs.dir_of_rename hren hdir hsrcl
  · exact hs.get_of_rename hren hget hsrcl hld

omit hx hs in
theorem of_overlayRename {src dst : RelPath} (h : overlayRename cfg src dst replace s = .ok () s') :
    s'.ctx = s.ctx ∧ ∃ (d : Disk) (ls ld : Loc), Fs.Grows s.disk.fs d.fs ∧
      (∀ l, s.disk.fs.NoLinks l → d.fs.NoLinks l) ∧ d.fs.locate (cfg.abs src) = .ok ls ∧
      d.fs.locate (cfg.abs dst) = .ok ld ∧ d.fs.rename ls ld = .ok ((), s'.disk.fs) := by
  rw [overlayRename, get_bind] at h
  rw [bind_eq_ok] at h
  obtain ⟨_, _, hens, h⟩ := h
  obtain ⟨-, rfl⟩ := ensure_eq_ok.mp hens
  rw [bind_eq_ok] at h
  obtain ⟨_, s₁, hdirs, hren⟩ := h
  obtain ⟨hdirs, hctx₁⟩ := onDisk_eq_ok hdirs
  obtain ⟨hren, hctx₂⟩ := onDisk_eq_ok hren
  simp only [DiskCall.rename] at hren
  obtain ⟨ls, hls, hren⟩ := Fs.onPath_ok hren
  obtain ⟨ld, hld, hren⟩ := Fs.onPath_ok hren
  exact ⟨hctx₂.trans hctx₁, s₁.disk, ls, ld, Fs.grows_ensureDirs _ hdirs,
    fun l hl => hl.ensureDirs hdirs, hls, hld, hren⟩

include hroot

theorem preserved_rename_overlay (hover : cfg.isOverlay (parent ++ [name]).rel = true)
    (hover' : cfg.isOverlay (newparent ++ [newname]).rel = true)
    (hok : s.keepsTogether cfg (.rename parent name newparent newname replace))
    (h : overlayRename cfg (parent.rel.join name.1) (newparent.rel.join newname.1) replace s =
      .ok () s') :
    s.Preserved cfg (.rename parent name newparent newname replace) s' := by
  intro p hp hgone
  obtain ⟨hsrc, hdst, hway⟩ := hok.1 hover
  obtain ⟨hctx, d, ls, ld, hgrows, hlinks, hls, hld, hren⟩ := of_overlayRename h
  obtain rfl := locate_of_direct hroot (hlinks _ hsrc.1) hls
  obtain rfl := locate_of_direct hroot (hlinks _ hdst.1) hld
  obtain ⟨node, hget, hnode⟩ := get_of_direct hroot hsrc hp
  obtain ⟨hauth, hatt, hwayp⟩ := way_of_overlayEntry hp
  have hget₁ := hgrows _ _ hget
  rw [hnode]
  by_cases hpre : parent ++ [name] <+: p
  · obtain ⟨t, rfl⟩ := hpre
    have himage : TreeCall.image (.rename parent name newparent newname replace)
        (parent ++ [name] ++ t) = newparent ++ [newname] ++ t := by
      refine (if_pos (prefix_append _ _)).trans ?_
      rw [drop_left' (by simp)]
    rw [himage]
    refine entry_of_get hx (hctx ▸ hs) hroot (hctx ▸ hauth) (hctx ▸ hatt)
      (isOverlay_append t hover') ?_ ?_
    · rw [Way, hctx]
      exact hway.append hover' t
    · rw [names_append, ← append_assoc] at hget₁ ⊢
      exact d.sane.moved_of_rename hren hget₁
  · have himage : TreeCall.image (.rename parent name newparent newname replace) p = p :=
      if_neg hpre
    rw [himage]
    refine entry_of_get hx (hctx ▸ hs) hroot (hctx ▸ hauth) (hctx ▸ hatt) hp.1
      (by rw [Way, hctx]; exact hwayp) ?_
    refine d.sane.get_of_rename hren hget₁ (fun hsub => hpre ?_) (loc_ne hgone)
    rw [prefix_append_right_inj] at hsub
    exact (prefix_map_iff_of_injective Subtype.val_injective).mp hsub

theorem preserved_rename
    (hok : s.keepsTogether cfg (.rename parent name newparent newname replace))
    (h : run cfg (.rename parent name newparent newname replace) s = .ok () s') :
    s.Preserved cfg (.rename parent name newparent newname replace) s' := by
  change rename cfg parent.rel name.1 newparent.rel newname.1 replace s = .ok () s' at h
  rw [rename] at h
  cases hsrc : cfg.isOverlay (parent.rel.join name.1) with
  | true =>
    cases hdst : cfg.isOverlay (newparent.rel.join newname.1) with
    | true =>
      rw [hsrc, hdst] at h
      rw [← rel_concat] at hsrc hdst
      exact preserved_rename_overlay hx hs hroot hsrc hdst hok h
    | false =>
      rw [hsrc, hdst] at h
      cases h
  | false =>
    cases hdst : cfg.isOverlay (newparent.rel.join newname.1) with
    | true =>
      rw [hsrc, hdst] at h
      cases h
    | false =>
      rw [hsrc, hdst] at h
      obtain ⟨r, hrun, hdisk⟩ := of_asked (fun r t => by split <;> rfl) h
      rw [← rel_concat] at hsrc
      rw [← rel_concat, ← rel_concat] at hrun
      exact preserved_rename_server hx hs hsrc hok hrun hdisk

end

end Calls

/-! ## Whole runs -/

theorem sane_run (hs : s.ctx.fs.Sane) (call : TreeCall) : (final (run cfg call s)).ctx.fs.Sane := by
  have hlocal : ∀ {m : MountOp Unit}, Fixes (fun s : OverlayMount => s.ctx) m →
      (final (m s)).ctx.fs.Sane := fun {m} hm => by
    have : (final (m s)).ctx = s.ctx := Triple.final (hm s.ctx) rfl
    rw [this]
    exact hs
  have hdirs : ∀ path, Fixes (fun s : OverlayMount => s.ctx) (onDisk (.createDirAll path)) :=
    fun path => ctx_onDisk _
  cases call with
  | create parent name flags mode =>
    change (final (create cfg parent.rel name.1 flags mode s)).ctx.fs.Sane
    rw [create]
    split
    · exact hlocal ((hdirs _).bind fun _ => (ctx_onDisk _).bind fun _ => fixes_pure _)
    · rw [final_asked fun r t => by split <;> rfl]
      exact (Ctx.final_handle_create hs _ _ _).1
  | mkdir parent name mode =>
    change (final (mkdir cfg parent.rel name.1 mode s)).ctx.fs.Sane
    rw [mkdir]
    split
    · exact hlocal ((hdirs _).bind fun _ => ctx_onDisk _)
    · rw [final_asked fun r t => by split <;> rfl]
      exact (Ctx.final_handle_mkdir hs _ _).1
  | unlink parent name =>
    change (final (remove cfg parent.rel name.1 false s)).ctx.fs.Sane
    rw [remove]
    split
    · exact hlocal (ctx_onDisk _)
    · rw [final_asked fun r t => by split <;> rfl]
      exact Ctx.final_handle_unlink hs _
  | rmdir parent name =>
    change (final (remove cfg parent.rel name.1 true s)).ctx.fs.Sane
    rw [remove]
    split
    · exact hlocal (ctx_onDisk _)
    · rw [final_asked fun r t => by split <;> rfl, ← rel_concat]
      exact Ctx.final_handle_rmdir hs (append_ne_nil_of_right_ne_nil parent
        (cons_ne_nil name []))
  | rename parent name newparent newname replace =>
    change (final (rename cfg parent.rel name.1 newparent.rel newname.1 replace s)).ctx.fs.Sane
    rw [rename]
    cases cfg.isOverlay (parent.rel.join name.1) with
    | true =>
      cases cfg.isOverlay (newparent.rel.join newname.1) with
      | true =>
        exact hlocal (Fixes.bind inert_get.fixes fun _ => Fixes.bind (inert_ensure _ _).fixes
          fun _ => (hdirs _).bind fun _ => ctx_onDisk _)
      | false => exact hs
    | false =>
      cases cfg.isOverlay (newparent.rel.join newname.1) with
      | true => exact hs
      | false =>
        dsimp only
        rw [final_asked fun r t => by split <;> rfl]
        exact Ctx.final_handle_rename hs _ _ _

theorem sane_of_reaches {s₀ : OverlayMount} (hs : s₀.ctx.fs.Sane)
    (h : Reaches (step cfg) (fun _ _ => True) s₀ s) : s.ctx.fs.Sane := by
  refine h.invariant (fun s => s.ctx.fs.Sane) hs fun s call s' hs _ hstep => ?_
  cases hstep
  exact sane_run hs call

/-- **One tree.**  In every run, a call that succeeds and meets the condition keeps every overlay
entry that could be reached, at the place the call implies, and what `rmdir` removes was listed as
empty. -/
theorem preserved_of_keepsTogether {s₀ : OverlayMount} {call : TreeCall}
    (hx : ∀ c ∈ cfg.x.root, Fs.Ordinary c) (hroot : ∀ c ∈ cfg.root, Fs.Ordinary c)
    (hs : s₀.ctx.fs.Sane) (hreach : Reaches (step cfg) (fun _ _ => True) s₀ s)
    (hok : s.keepsTogether cfg call) (hrun : run cfg call s = .ok () s') :
    s.Preserved cfg call s' ∧ ∀ parent name, call = .rmdir parent name →
      s.readdir cfg (parent ++ [name]).rel = .ok [] := by
  have hs := sane_of_reaches hs hreach
  cases call with
  | create parent name flags mode => exact ⟨preserved_create hx hs hrun, nofun⟩
  | mkdir parent name mode => exact ⟨preserved_mkdir hx hs hrun, nofun⟩
  | unlink parent name => exact ⟨preserved_unlink hx hs hroot hok hrun, nofun⟩
  | rmdir parent name =>
    refine ⟨preserved_rmdir hx hs hroot hok hrun, fun parent' name' heq => ?_⟩
    cases heq
    exact readdir_of_rmdir hok hrun
  | rename parent name newparent newname replace =>
    exact ⟨preserved_rename hx hs hroot hok hrun, nofun⟩

/-! ## A small mount -/

/-- A mount of `/srv` that keeps `node_modules` in `/ov`. -/
def smallConfig : OverlayConfig := ⟨.srv, [.name "node_modules"], [['o', 'v']]⟩

def nodeModules : FileName := ⟨"node_modules".toList, by decide⟩

def fileX : FileName := ⟨['x'], by decide⟩

def dirD : FileName := ⟨['d'], by decide⟩

def dirE : FileName := ⟨['e'], by decide⟩

/-- A server with the directory `d`. -/
def serverD : Ctx :=
  { Agent.ofTree [([], .dir), ([['s', 'r', 'v']], .dir), ([['s', 'r', 'v'], ['d']], .dir)] [] with
    me := .first }

theorem sane_serverD : serverD.fs.Sane := .of_entries (by decide) (by decide) (by decide)

/-- An overlay with `node_modules/x` at the top. -/
def topMount : OverlayMount where
  ctx := serverD
  disk :=
    { fs := (Agent.ofTree [([], .dir), ([['o', 'v']], .dir),
        ([['o', 'v'], nodeModules.1], .dir), ([['o', 'v'], nodeModules.1, ['x']], .file 0)]
        [[1]]).fs
      sane := .of_entries (by decide) (by decide) (by decide) }

/-- An overlay with `node_modules/x` in `d`. -/
def nestedMount : OverlayMount where
  ctx := serverD
  disk :=
    { fs := (Agent.ofTree [([], .dir), ([['o', 'v']], .dir), ([['o', 'v'], ['d']], .dir),
        ([['o', 'v'], ['d'], nodeModules.1], .dir),
        ([['o', 'v'], ['d'], nodeModules.1, ['x']], .file 0)] [[1]]).fs
      sane := .of_entries (by decide) (by decide) (by decide) }

theorem present_topMount :
    topMount.Present smallConfig [] nodeModules [fileX] [['o', 'v']] (.file 0) where
  above := rfl
  first := by decide +kernel
  authed := rfl
  attached := rfl
  way k hk _ := by
    rw [prefix_nil.mp hk]
    exact ⟨[['s', 'r', 'v']], by decide +kernel, by decide⟩
  dir := by decide +kernel
  isDir := by decide
  node := by decide

theorem present_nestedMount :
    nestedMount.Present smallConfig [dirD] nodeModules [fileX] [['o', 'v'], ['d']] (.file 0) where
  above := by decide +kernel
  first := by decide +kernel
  authed := rfl
  attached := rfl
  way k hk _ := by
    have hk : k <+: [] ++ [dirD] := hk
    rcases prefix_concat_iff.mp hk with rfl | hk
    · exact ⟨[['s', 'r', 'v'], ['d']], by decide +kernel, by decide⟩
    · rw [prefix_nil.mp hk]
      exact ⟨[['s', 'r', 'v']], by decide +kernel, by decide⟩
  dir := by decide +kernel
  isDir := by decide
  node := by decide

/-- A call succeeds. -/
def succeeds (cfg : OverlayConfig) (s : OverlayMount) (call : TreeCall) : Bool :=
  match run cfg call s with
  | .ok _ _ => true
  | .error _ _ => false

theorem ok_of_succeeds {call : TreeCall} (h : s.succeeds cfg call = true) :
    run cfg call s = .ok () (final (run cfg call s)) := by
  rw [succeeds] at h
  split at h
  · next hrun =>
    rw [hrun]
    rfl
  · cases h

theorem onWay_topMount (hp : topMount.OverlayEntry smallConfig p) {l : Loc}
    (hl : topMount.OnWay smallConfig p l) : l <+: [['s', 'r', 'v']] := by
  obtain ⟨k, hk, hover, hpassed⟩ := hl
  have hlinks : ∀ q, topMount.disk.fs.NoLinks q := by
    intro q q' _ t ht
    simpa [topMount, Agent.ofTree] using PathMap.mem_of_get ht
  -- all there is on the disk is below `node_modules`
  have hfirst : p.names.head? = some nodeModules.1 := by
    obtain ⟨q, n, r, d, node, rfl, h⟩ := present_of_overlayEntry hp
    have hmem := PathMap.mem_of_get (h.get_of_noLinks (by decide) (hlinks _))
    have hne : names (q ++ n :: r) ≠ [] := by simp [names]
    generalize names (q ++ n :: r) = names at hmem hne ⊢
    simp only [topMount, Agent.ofTree, smallConfig, mem_cons, not_mem_nil, or_false,
      Prod.mk.injEq, cons_append, nil_append, cons.injEq, true_and] at hmem
    rcases hmem with ⟨hnil, -⟩ | ⟨hnil, -⟩ | ⟨hnm, -⟩ | ⟨hnm, -⟩
    · cases hnil
    · exact absurd hnil hne
    · rw [hnm, head?_cons]
    · rw [hnm, head?_cons]
  have hroot : k = [] := by
    obtain ⟨t, rfl⟩ := hk
    cases k with
    | nil => rfl
    | cons m k =>
      have hm : m = nodeModules := Subtype.ext (Option.some.inj hfirst)
      have hfirst : smallConfig.isOverlay (rel [nodeModules]) = true := by decide +kernel
      have := isOverlay_append k hfirst
      rw [singleton_append, ← hm, hover] at this
      cases this
  rw [hroot] at hpassed
  exact Fs.Passes.prefix_of_noLinks hpassed (by decide) (by decide)

/-- Renaming `d` leaves `node_modules/x` where it is. -/
theorem preserved_beside :
    ∃ s', run smallConfig (.rename [] dirD [] dirE false) topMount = .ok () s' ∧
      topMount.OverlayEntry smallConfig [nodeModules, fileX] ∧
      s'.OverlayEntry smallConfig [nodeModules, fileX] := by
  have hp := present_topMount.overlayEntry sane_serverD (by decide)
  have hrun : run smallConfig (.rename [] dirD [] dirE false) topMount = .ok () _ :=
    ok_of_succeeds (by decide +kernel)
  have hok : topMount.keepsTogether smallConfig (.rename [] dirD [] dirE false) := by
    refine ⟨fun hover => absurd hover (by decide +kernel), fun _ src dst hsrc hdst p hp l hl => ?_⟩
    have hpre := onWay_topMount hp hl
    have hsrc' : smallConfig.x.resolve topMount.ctx.fs (rel [dirD]) =
      .ok [['s', 'r', 'v'], ['d']] := by decide +kernel
    have hdst' : smallConfig.x.resolveNew topMount.ctx.fs (rel [dirE]) =
      .ok [['s', 'r', 'v'], ['e']] := by decide +kernel
    cases hsrc.symm.trans hsrc'
    cases hdst.symm.trans hdst'
    refine ⟨fun hsub => absurd (hsub.trans hpre) (by decide), ?_⟩
    rintro rfl
    exact absurd hpre (by decide)
  have h := (preserved_of_keepsTogether (by decide) (by decide) sane_serverD .refl hok hrun).1
  have hstays : [nodeModules, fileX] ≠ [] ++ [dirE] := by decide
  exact ⟨_, hrun, hp, (h _ hp hstays).1⟩

theorem not_reachable_of_lookup {t : Place}
    (h : s.lookup cfg k.rel m.1 = .error .notFound) : ¬ s.Reachable cfg (k ++ [m] ++ t) := by
  intro hreach
  obtain ⟨⟨attr, hattr, -⟩, -⟩ := hreach k m (prefix_append _ _)
  rw [h] at hattr
  cases hattr

/-- Renaming `d` leaves `d/node_modules/x` behind, where nothing leads any more; and `d` can be
removed with it in its listing. -/
theorem entry_left_behind :
    nestedMount.ctx.fs.Sane ∧
      nestedMount.OverlayEntry smallConfig [dirD, nodeModules, fileX] ∧
      (∃ s', run smallConfig (.rename [] dirD [] dirE false) nestedMount = .ok () s' ∧
        ¬ s'.Reachable smallConfig [dirE, nodeModules, fileX] ∧
        ¬ s'.Reachable smallConfig [dirD, nodeModules, fileX]) ∧
      ∃ s', run smallConfig (.rmdir [] dirD) nestedMount = .ok () s' ∧
        nestedMount.readdir smallConfig (rel [dirD]) ≠ .ok [] ∧
        ¬ s'.Reachable smallConfig [dirD, nodeModules, fileX] := by
  refine ⟨sane_serverD, present_nestedMount.overlayEntry sane_serverD (by decide), ?_, ?_⟩
  · refine ⟨_, ok_of_succeeds (by decide +kernel), ?_, ?_⟩
    · exact not_reachable_of_lookup (k := [dirE]) (m := nodeModules) (by decide +kernel)
    · exact not_reachable_of_lookup (k := []) (m := dirD) (by decide +kernel)
  · refine ⟨_, ok_of_succeeds (by decide +kernel), by decide +kernel, ?_⟩
    exact not_reachable_of_lookup (k := []) (m := dirD) (by decide +kernel)

end OverlayMount

end AlloyFs
