import Mathlib.Data.List.Basic
import Mathlib.Tactic.Common

/-!
# Export-relative paths

`RelPath` is the wire form of a path: UTF-8 text, `/`-separated, no leading `/`,
no `.` or `..` component.  The text is kept as the client sent it, because every
rule about it — `validate`, `split`, the exclude patterns — is a rule about the
characters; the server enforces them, since clients are untrusted.

A component is a list of characters as well, so the operating system's view of a
path is obtained by cutting at `/` exactly as `str::split` does.
-/

namespace AlloyFs

/-- Text, character by character. -/
abbrev Text := List Char

/-- One component of a path: the text between two separators. -/
abbrev Name := List Char

/-- `str::cmp`: texts are ordered character by character. -/
def textLt (a b : Text) : Prop := List.lt a b
deriving Decidable

def textLe (a b : Text) : Prop := List.le a b
deriving Decidable

theorem textLt_irrefl (a : Text) : ¬ textLt a a := List.lt_irrefl a

theorem textLt_asymm {a b : Text} (h : textLt a b) : ¬ textLt b a := List.lt_asymm h

theorem textLt_of_le {a b : Text} (h : textLe a b) (hne : a ≠ b) : textLt a b :=
  (List.le_iff_lt_or_eq.mp h).resolve_right hne

instance : Trans textLt textLt textLt := ⟨List.lt_trans⟩

instance : Std.Total textLe := ⟨List.le_total⟩

instance : IsTrans Text textLe := ⟨fun _ _ _ => List.le_trans⟩

/-- A path relative to an export root, as it travels on the wire. -/
structure RelPath where
  text : Text
  deriving DecidableEq, Repr

namespace RelPath

/-- `str::split('/')`: the empty text has one empty component. -/
def comps (p : RelPath) : List Name := p.text.splitOn '/'

/-- The server's check on a path received from a client. -/
def validate (p : RelPath) : Bool :=
  !(p.text.head? == some '/' || p.text.contains '\\') &&
    !p.comps.any (fun c =>
      (c.isEmpty && !p.text.isEmpty) || c == ['.'] || c == ['.', '.'])

/-- The export root itself. -/
def isRoot (p : RelPath) : Bool := p.text.isEmpty

/-- A child of a directory. -/
def join (p : RelPath) (name : Name) : RelPath :=
  if p.text.isEmpty then ⟨name⟩ else ⟨p.text ++ '/' :: name⟩

/-- `str::rsplit_once('/')`: cut at the last separator, if there is one. -/
def rsplitOnce (s : Text) : Option (Text × Text) :=
  match s.splitOn '/' with
  | [] | [_] => none
  | c :: d :: cs =>
    some (['/'].intercalate (c :: d :: cs).dropLast, (c :: d :: cs).getLast (by simp))

/-- Parent and file name; the root has neither. -/
def split (p : RelPath) : Option (RelPath × Name) :=
  if p.isRoot then none
  else match rsplitOnce p.text with
    | some (parent, name) => some (⟨parent⟩, name)
    | none => some (⟨[]⟩, p.text)

/-- The components a resolver pushes onto the root it starts from: none for the
root path, whose text is never cut. -/
def pushed (p : RelPath) : List Name := if p.isRoot then [] else p.comps

theorem comps_ne_nil (p : RelPath) : p.comps ≠ [] := List.splitOn_ne_nil '/' p.text

theorem sep_notMem_of_mem_splitOn (s : Text) : ∀ c ∈ s.splitOn '/', '/' ∉ c := by
  induction s with
  | nil => simp
  | cons a s ih =>
    intro c hc
    rw [List.splitOn_cons_eq_if_modifyHead] at hc
    by_cases ha : a = '/'
    · simp only [ha, beq_self_eq_true, if_true, List.mem_cons] at hc
      rcases hc with rfl | hc
      · simp
      · exact ih c hc
    · simp only [beq_iff_eq, ha, if_false] at hc
      cases hs : s.splitOn '/' with
      | nil => exact absurd hs (List.splitOn_ne_nil _ _)
      | cons d ds =>
        rw [hs] at hc ih
        simp only [List.modifyHead_cons, List.mem_cons] at hc
        rcases hc with rfl | hc
        · simp only [List.mem_cons, not_or]
          exact ⟨fun h => ha h.symm, ih d (by simp)⟩
        · exact ih c (by simp [hc])

theorem splitOn_of_notMem {s : Text} (h : '/' ∉ s) : s.splitOn '/' = [s] := by
  induction s with
  | nil => rfl
  | cons a s ih =>
    rw [List.mem_cons, not_or] at h
    rw [List.splitOn_cons_eq_if_modifyHead, ih h.2]
    simp [Ne.symm h.1]

theorem comps_append (s : Text) {ys : Text} (h : '/' ∉ ys) :
    ∃ cs x, (RelPath.mk s).comps = cs ++ [x] ∧ (RelPath.mk (s ++ ys)).comps = cs ++ [x ++ ys] := by
  simp only [comps]
  induction s with
  | nil => exact ⟨[], [], rfl, splitOn_of_notMem h⟩
  | cons a s ih =>
    obtain ⟨cs, x, hs, hys⟩ := ih
    rw [List.cons_append, List.splitOn_cons_eq_if_modifyHead, List.splitOn_cons_eq_if_modifyHead,
      hs, hys]
    by_cases ha : a = '/'
    · exact ⟨[] :: cs, x, by simp [ha], by simp [ha]⟩
    · cases cs with
      | nil => exact ⟨[], a :: x, by simp [ha], by simp [ha]⟩
      | cons c cs => exact ⟨(a :: c) :: cs, x, by simp [ha], by simp [ha]⟩

theorem comps_injective : Function.Injective comps := by
  rintro ⟨s⟩ ⟨t⟩ h
  have hs : ['/'].intercalate (s.splitOn '/') = s := List.intercalate_splitOn '/'
  have ht : ['/'].intercalate (t.splitOn '/') = t := List.intercalate_splitOn '/'
  rw [comps, comps] at h
  rw [← hs, ← ht, h]

theorem pushed_injective : Function.Injective pushed := by
  intro p q h
  unfold pushed at h
  split at h <;> split at h
  · rename_i hp hq
    have hp : p.text = [] := by simpa [isRoot] using hp
    have hq : q.text = [] := by simpa [isRoot] using hq
    cases p
    cases q
    simp_all
  · exact absurd h.symm q.comps_ne_nil
  · exact absurd h p.comps_ne_nil
  · exact comps_injective h

theorem mem_comps_of_validate {p : RelPath} (hv : p.validate = true) (hr : p.isRoot = false)
    {c : Name} (hc : c ∈ p.comps) : c ≠ [] ∧ c ≠ ['.'] ∧ c ≠ ['.', '.'] := by
  simp only [validate, Bool.and_eq_true, Bool.not_eq_true', List.any_eq_false] at hv
  have h := hv.2 c hc
  have hne : p.text ≠ [] := by simpa [isRoot] using hr
  refine ⟨?_, ?_, ?_⟩ <;> rintro rfl <;> simp [hne] at h

/-- Splitting off the file name of a valid path splits off its last component. -/
theorem pushed_of_split {p q : RelPath} {n : Name} (hv : p.validate = true)
    (h : p.split = some (q, n)) : p.pushed = q.pushed ++ [n] := by
  by_cases hr : p.isRoot = true
  · simp [split, hr] at h
  have hr' : p.isRoot = false := by simpa using hr
  have hall : ∀ c ∈ p.comps, c ≠ [] := fun c hc => (mem_comps_of_validate hv hr' hc).1
  have hsep : ∀ c ∈ p.comps, '/' ∉ c := sep_notMem_of_mem_splitOn p.text
  simp only [split, hr', Bool.false_eq_true, if_false, rsplitOnce] at h
  simp only [pushed, hr', Bool.false_eq_true, if_false]
  have hcomps : p.comps = p.text.splitOn '/' := rfl
  rw [hcomps] at hall hsep ⊢
  have htext : ['/'].intercalate (p.text.splitOn '/') = p.text := List.intercalate_splitOn '/'
  rcases hcs : p.text.splitOn '/' with _ | ⟨c, _ | ⟨d, cs⟩⟩
  · exact absurd hcs (List.splitOn_ne_nil _ _)
  · -- one component: the parent is the root and the name is the whole text
    rw [hcs] at h htext
    obtain ⟨rfl, rfl⟩ := h
    simp only [isRoot, List.isEmpty_nil, if_true, List.nil_append]
    rw [← htext]
    simp
  · rw [hcs] at h hall hsep
    obtain ⟨rfl, rfl⟩ := h
    have hne : c ≠ [] := hall c (by simp)
    have hsplit : (['/'].intercalate (c :: d :: cs).dropLast).splitOn '/' =
        (c :: d :: cs).dropLast := by
      refine List.splitOn_intercalate '/' (fun l hl => ?_) (by simp)
      exact hsep l (List.dropLast_subset _ hl)
    have hroot : (RelPath.mk (['/'].intercalate (c :: d :: cs).dropLast)).isRoot = false := by
      cases c with
      | nil => exact absurd rfl hne
      | cons a c =>
        cases cs <;> simp [isRoot, List.intercalate]
    simp only [hroot, Bool.false_eq_true, if_false, comps, hsplit]
    exact (List.dropLast_concat_getLast (by simp)).symm

end RelPath
end AlloyFs
