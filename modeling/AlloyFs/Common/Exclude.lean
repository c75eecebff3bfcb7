import AlloyFs.Proto.Path
import Mathlib.Data.List.Infix

/-!
# Excluded paths, and paths below a root

Both ends of the wire agree on what is excluded, and both turn a location below a root
into the path the other end knows it by.
-/

namespace AlloyFs

/-- Compiled exclude patterns; the two matchers are compiled glob sets. -/
structure ExcludeSet where
  set : Text → Bool
  /-- no pattern was configured -/
  empty : Bool
  artifacts : Option (Text → Bool)

namespace ExcludeSet

/-- The root is never excluded. -/
def isExcluded (x : ExcludeSet) (path : RelPath) : Bool :=
  if path.isRoot then false
  else if x.artifacts.elim false (· path.text) then true
  else if x.empty then false
  else x.set path.text

/-- No patterns at all. -/
def none : ExcludeSet := ⟨fun _ => false, true, Option.none⟩

end ExcludeSet

/-! ## Lists of patterns -/

/-- An exclude pattern: which paths its glob matches, component by component, and whether it is
a bare name. -/
structure Pattern where
  glob : List Name → Bool
  bare : Bool

namespace Pattern

/-- The variants `p` and `p/**` of a pattern, and for a bare name `**/p` and `**/p/**`: the glob
matches the path or something above it, and a bare name may start at any component. -/
def hits (p : Pattern) (comps : List Name) : Bool :=
  (if p.bare then comps.tails else [comps]).any fun t =>
    t.inits.any fun u => decide (u ≠ []) && p.glob u

/-- A single name, in any case. -/
def name (text : String) : Pattern where
  glob := fun u => decide (u.map (·.map Char.toLower) = [text.toList.map Char.toLower])
  bare := true

/-- A single name that starts like this, in any case. -/
def start (text : String) : Pattern where
  glob := fun u => match u with
    | [c] => (text.toList.map Char.toLower).isPrefixOf (c.map Char.toLower)
    | _ => false
  bare := true

theorem hits_append (p : Pattern) (comps rest : List Name) (h : p.hits comps = true) :
    p.hits (comps ++ rest) = true := by
  rw [hits, List.any_eq_true] at h ⊢
  obtain ⟨t, ht, hu⟩ := h
  rw [List.any_eq_true] at hu
  obtain ⟨u, hu, hglob⟩ := hu
  have hany : (t ++ rest).inits.any (fun u => decide (u ≠ []) && p.glob u) = true :=
    List.any_eq_true.mpr ⟨u, by
      rw [List.mem_inits] at hu ⊢
      exact hu.trans (List.prefix_append t rest), hglob⟩
  refine ⟨t ++ rest, ?_, hany⟩
  cases hb : p.bare with
  | true =>
    rw [hb, if_pos rfl, List.mem_tails] at ht
    obtain ⟨v, rfl⟩ := ht
    rw [if_pos rfl, List.mem_tails, List.append_assoc]
    exact List.suffix_append v _
  | false =>
    rw [hb] at ht
    rw [List.mem_singleton.mp ht]
    exact List.mem_singleton_self _

end Pattern

namespace ExcludeSet

def compile (patterns : List Pattern) : ExcludeSet where
  set := fun text => patterns.any fun p => p.hits (RelPath.mk text).comps
  empty := patterns.isEmpty
  artifacts := Option.none

/-- The names each machine scatters about, without regard to case. -/
def localArtifacts : List Pattern :=
  ["System Volume Information", "$RECYCLE.BIN", "RECYCLER", "Thumbs.db", "ehthumbs.db",
    "desktop.ini", ".DS_Store", ".Spotlight-V100", ".Trashes", ".fseventsd", ".TemporaryItems",
    ".DocumentRevisions-V100", ".AppleDouble", "lost+found"].map .name ++ [.start ".Trash-"]

/-- The patterns of the user, and the names that are local to a machine by default. -/
def compileWithDefaults (patterns : List Pattern) : ExcludeSet :=
  { compile patterns with artifacts := some (compile localArtifacts).set }

/-- The sets that there are. -/
def Built (x : ExcludeSet) : Prop := ∃ patterns, x = compile patterns ∨
    x = compileWithDefaults patterns

end ExcludeSet

/-! ## What is below an excluded path -/

/-- The path is the other one, or above it. -/
def RelPath.Above (p q : RelPath) : Prop := p.pushed <+: q.pushed

theorem intercalate_prefix (xs ys : List Name) :
    ['/'].intercalate xs <+: ['/'].intercalate (xs ++ ys) := by
  induction xs with
  | nil => exact List.nil_prefix
  | cons a xs ih =>
    cases xs with
    | nil => cases ys <;> simp [List.intercalate]
    | cons b xs =>
      simp only [List.intercalate, List.cons_append, List.intersperse, List.flatten_cons] at ih ⊢
      exact (List.prefix_append_right_inj a).mpr ((List.prefix_append_right_inj ['/']).mpr ih)

theorem RelPath.Above.text {p q : RelPath} (h : p.Above q) : p.text <+: q.text := by
  have htext : ∀ r : RelPath, ['/'].intercalate r.pushed = r.text := by
    intro r
    rw [pushed]
    split
    · next hr => exact (List.isEmpty_iff.mp hr).symm
    · exact List.intercalate_splitOn '/'
  obtain ⟨rest, hrest⟩ := h
  rw [← htext p, ← htext q, ← hrest]
  exact intercalate_prefix _ _

namespace ExcludeSet

variable {patterns : List Pattern} {p q : RelPath}

theorem isExcluded_compile :
    (compile patterns).isExcluded p = patterns.any fun t => t.hits p.pushed := by
  have hnil : ∀ t : Pattern, t.hits [] = false := by
    rintro ⟨glob, _ | _⟩ <;> rfl
  have hrun : (compile patterns).isExcluded p = if p.isRoot then false
      else if patterns.isEmpty then false else patterns.any fun t => t.hits p.comps := rfl
  rw [hrun, RelPath.pushed]
  cases p.isRoot with
  | true => simp [hnil]
  | false => cases patterns <;> simp

theorem isExcluded_compileWithDefaults : (compileWithDefaults patterns).isExcluded p =
    ((patterns ++ localArtifacts).any fun t => t.hits p.pushed) := by
  rw [← isExcluded_compile]
  have hrun : (compileWithDefaults patterns).isExcluded p = if p.isRoot then false
      else if localArtifacts.any fun t => t.hits p.comps then true
      else if patterns.isEmpty then false else patterns.any fun t => t.hits p.comps := rfl
  have hall : (compile (patterns ++ localArtifacts)).isExcluded p = if p.isRoot then false
      else if (patterns ++ localArtifacts).isEmpty then false
      else (patterns ++ localArtifacts).any fun t => t.hits p.comps := rfl
  rw [hrun, hall, List.any_append]
  cases p.isRoot with
  | true => rfl
  | false =>
    cases localArtifacts.any fun t => t.hits p.comps <;> cases patterns <;> simp [localArtifacts]

theorem Built.above {x : ExcludeSet} (hx : x.Built) (h : p.Above q) (hq : x.isExcluded q = false) :
    x.isExcluded p = false := by
  obtain ⟨rest, hrest⟩ := h
  have hmono : ∀ ts : List Pattern, (ts.any fun t => t.hits q.pushed) = false →
      (ts.any fun t => t.hits p.pushed) = false := by
    intro ts hts
    rw [List.any_eq_false] at hts ⊢
    exact fun t ht hit => hts t ht (hrest ▸ t.hits_append _ rest hit)
  obtain ⟨patterns, rfl | rfl⟩ := hx
  · rw [isExcluded_compile] at hq ⊢
    exact hmono _ hq
  · rw [isExcluded_compileWithDefaults] at hq ⊢
    exact hmono _ hq

/-- The set that hides one path, and what is below it. -/
def concealing (p : RelPath) : ExcludeSet := compile [⟨fun u => decide (u = p.pushed), false⟩]

theorem isExcluded_concealing : (concealing p).isExcluded q = true ↔
    p.isRoot = false ∧ p.Above q := by
  rw [concealing, isExcluded_compile]
  have hne : p.pushed ≠ [] ↔ p.isRoot = false := by
    rw [RelPath.pushed]
    cases p.isRoot <;> simp [p.comps_ne_nil]
  simp [Pattern.hits, ← hne, RelPath.Above, and_comm]

theorem concealing_apart (h : ¬ p.Above q) : (concealing p).isExcluded q = false := by
  by_contra hex
  exact h (isExcluded_concealing.mp (by simpa using hex)).2

/-- It hides that path itself, unless this is the root, which is above every path. -/
theorem concealing_self (h : ¬ p.Above q) : (concealing p).isExcluded p = true := by
  refine isExcluded_concealing.mpr ⟨?_, List.prefix_rfl⟩
  by_contra hroot
  refine h ?_
  rw [RelPath.Above, RelPath.pushed, if_pos (by simpa using hroot)]
  exact List.nil_prefix

end ExcludeSet

/-- A location as a path relative to the root above it. -/
def stripRoot (root full : List Name) : RelPath :=
  ⟨(['/'].intercalate (full.drop root.length)).map fun c => if c = '\\' then '/' else c⟩

/-- A path that passed `validate` and is not the root. -/
abbrev WirePath := { p : RelPath // p.validate = true ∧ p.isRoot = false }

theorem stripRoot_append (root : List Name) (p : WirePath) :
    stripRoot root (root ++ p.1.comps) = p.1 := by
  obtain ⟨⟨text⟩, hv, _⟩ := p
  have htext : ['/'].intercalate (text.splitOn '/') = text := List.intercalate_splitOn '/'
  simp only [stripRoot, List.drop_left, RelPath.comps, htext, RelPath.mk.injEq]
  have hno : ∀ c ∈ text, (if c = '\\' then '/' else c) = c := by
    intro c hc
    refine if_neg fun heq => ?_
    simp only [RelPath.validate, Bool.and_eq_true, Bool.not_eq_true', Bool.or_eq_false_iff] at hv
    have hbs := hv.1.2
    rw [heq] at hc
    simp [hc] at hbs
  exact (List.map_congr_left hno).trans (List.map_id text)

end AlloyFs
