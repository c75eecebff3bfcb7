import Mathlib.Data.List.AList

/-!
# Lookups in association lists

What a lookup that succeeds after a change says of the list before it.
-/

namespace AlloyFs

variable {κ ν : Type} [DecidableEq κ] {m : AList fun _ : κ => ν} {k k' : κ} {v x : ν}

theorem mem_of_lookup (h : m.lookup k = some v) : k ∈ m :=
  AList.lookup_isSome.mp (Option.isSome_of_eq_some h)

theorem lookup_insert_eq : (m.insert k v).lookup k' = if k' = k then some v else m.lookup k' := by
  by_cases hk : k' = k
  · subst hk
    simp
  · simp [hk, AList.lookup_insert_ne]

theorem lookup_erase_eq : (m.erase k).lookup k' = if k' = k then none else m.lookup k' := by
  by_cases hk : k' = k
  · subst hk
    simp
  · simp [hk, AList.lookup_erase_ne]

theorem lookup_of_insert (h : (m.insert k v).lookup k' = some x) :
    k' = k ∧ x = v ∨ k' ≠ k ∧ m.lookup k' = some x := by
  rw [lookup_insert_eq] at h
  split at h <;> simp_all

theorem lookup_of_erase (h : (m.erase k).lookup k' = some x) : k' ≠ k ∧ m.lookup k' = some x := by
  rw [lookup_erase_eq] at h
  split at h <;> simp_all

end AlloyFs
