import Mathlib.Data.Fintype.Card
import Mathlib.Algebra.Order.BigOperators.Group.Finset

/-!
# Counting members by their state

How many members of a finite family are in a state of some kind.
-/

namespace Framework

open Finset

variable {ι β : Type*} [Fintype ι] [DecidableEq ι] {f : ι → β} {i : ι} {b : β}

def population (P : β → Bool) (f : ι → β) : Nat := ∑ i, (P (f i)).toNat

variable {P : β → Bool}

omit [DecidableEq ι] in
theorem population_le (P : β → Bool) (f : ι → β) : population P f ≤ Fintype.card ι := by
  have hone : ∀ i ∈ univ, (P (f i)).toNat ≤ 1 := fun i _ => Bool.toNat_le _
  simpa [population] using Finset.sum_le_sum hone

omit [DecidableEq ι] in
theorem population_const (h : P b = false) : population P (fun _ : ι => b) = 0 := by
  simp [population,h]

theorem population_update (P : β → Bool) (f : ι → β) (i : ι) (b : β) :
    population P (Function.update f i b)+(P (f i)).toNat = population P f+(P b).toNat := by
  have hold := add_sum_erase univ (fun j => (P (f j)).toNat) (mem_univ i)
  have hnew := add_sum_erase univ (fun j => (P (Function.update f i b j)).toNat)
    (mem_univ i)
  have hrest : ∑ j ∈ univ.erase i, (P (Function.update f i b j)).toNat =
      ∑ j ∈ univ.erase i, (P (f j)).toNat := by
    apply sum_congr rfl
    intro j hj
    rw [Function.update_of_ne (ne_of_mem_erase hj)]
  simp only [Function.update_self] at hnew
  unfold population
  omega

end Framework
