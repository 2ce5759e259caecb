import Mathlib.Algebra.GroupWithZero.Nat
import Mathlib.Data.List.Nodup
import Mathlib.Logic.Function.Basic

/-!
# Families of lists

`Scattered` says that a symmetric relation holds between any two elements of the family, in the same
list or in different ones.
-/

namespace Framework

variable {ι α : Type} [DecidableEq ι]

namespace ListFamily

def push (L : ι → List α) (k : ι) (x : α) : ι → List α := Function.update L k (x :: L k)

def erase [DecidableEq α] (L : ι → List α) (k : ι) (x : α) : ι → List α :=
  Function.update L k ((L k).erase x)

variable {L : ι → List α} {j k : ι} {x y : α}

@[simp] theorem push_same : push L k x k = x::L k := by simp [push]

@[simp] theorem push_other (h : j ≠ k) : push L k x j = L j := by simp [push,h]

theorem mem_push : y ∈ push L k x j ↔ (j = k ∧ y = x) ∨ y ∈ L j := by
  by_cases h : j = k
  · subst j
    simp
  · simp [h]

section

variable [DecidableEq α]

@[simp] theorem erase_same : erase L k x k = (L k).erase x := by simp [erase]

@[simp] theorem erase_other (h : j ≠ k) : erase L k x j = L j := by simp [erase,h]

theorem mem_of_mem_erase (h : y ∈ erase L k x j) : y ∈ L j := by
  by_cases hj : j = k
  · subst j
    rw [erase_same] at h
    exact List.mem_of_mem_erase h
  · rwa [erase_other hj] at h

theorem erase_of_not_mem (h : x ∉ L k) : erase L k x = L := by
  funext j
  by_cases hj : j = k
  · subst j
    rw [erase_same,List.erase_of_not_mem h]
  · rw [erase_other hj]

end

/-- The elements of the lists at the keys `ks`, each counted with the weight of its list. -/
def total (weight : ι → Nat) (ks : List ι) (L : ι → List α) : Nat :=
  (ks.map fun k => (L k).length * weight k).sum

variable {weight : ι → Nat} {ks : List ι}

omit [DecidableEq ι] in
theorem total_congr {L' : ι → List α} (h : ∀ j ∈ ks, (L j).length = (L' j).length) :
    total weight ks L = total weight ks L' := by
  unfold total
  congr 1
  apply List.map_congr_left
  intro j hj
  rw [h j hj]

theorem total_push (hk : k ∈ ks) (hnd : ks.Nodup) :
    total weight ks (push L k x) = total weight ks L+weight k := by
  induction ks with
  | nil => simp at hk
  | cons i ks ih =>
    obtain ⟨hi,hks⟩ := List.nodup_cons.mp hnd
    by_cases hki : k = i
    · subst i
      have hrest : total weight ks (push L k x) = total weight ks L := by
        apply total_congr
        intro j hj
        rw [push_other (ne_of_mem_of_not_mem hj hi)]
      simp only [total,List.map_cons,List.sum_cons,push_same,List.length_cons,Nat.succ_mul]
        at hrest ⊢
      omega
    · have hmem : k ∈ ks := (List.mem_cons.mp hk).resolve_left hki
      have hrest := ih hmem hks
      simp only [total,List.map_cons,List.sum_cons,push_other (Ne.symm hki)] at hrest ⊢
      omega

theorem total_erase [DecidableEq α] (hk : k ∈ ks) (hnd : ks.Nodup) (hx : x ∈ L k) :
    total weight ks (erase L k x)+weight k = total weight ks L := by
  rw [← total_push (x := x) hk hnd]
  apply total_congr
  intro j _
  by_cases hj : j = k
  · subst j
    have hpos := List.length_pos_of_mem hx
    rw [push_same,erase_same,List.length_cons,List.length_erase_of_mem hx]
    omega
  · rw [push_other hj,erase_other hj]

end ListFamily

open ListFamily List

structure Scattered (R : ι → α → ι → α → Prop) (L : ι → List α) : Prop where
  within : ∀ k, (L k).Pairwise (fun x y => R k x k y)
  across : ∀ j k, j ≠ k → ∀ x ∈ L j, ∀ y ∈ L k, R j x k y

namespace Scattered

variable {R S : ι → α → ι → α → Prop} {L : ι → List α} {k : ι} {x : α}

omit [DecidableEq ι] in
theorem imp (h : Scattered R L) (hRS : ∀ j x k y, x ∈ L j → y ∈ L k → R j x k y → S j x k y) :
    Scattered S L where
  within k := (h.within k).imp_of_mem fun hx hy => hRS k _ k _ hx hy
  across j k hjk x hx y hy := hRS j x k y hx hy (h.across j k hjk x hx y hy)

theorem push (h : Scattered R L) (hsymm : ∀ j x k y, R j x k y → R k y j x)
    (hx : ∀ j, ∀ y ∈ L j, R k x j y) : Scattered R (ListFamily.push L k x) where
  within j := by
    by_cases hj : j = k
    · subst j
      rw [push_same]
      exact pairwise_cons.mpr ⟨fun y hy => hx _ y hy,h.within _⟩
    · rw [push_other hj]
      exact h.within j
  across i j hij y hy z hz := by
    rcases mem_push.mp hy with ⟨rfl,rfl⟩ | hy'
    · rcases mem_push.mp hz with ⟨rfl,_⟩ | hz'
      · exact absurd rfl hij
      · exact hx j z hz'
    · rcases mem_push.mp hz with ⟨rfl,rfl⟩ | hz'
      · exact hsymm _ _ _ _ (hx i y hy')
      · exact h.across i j hij y hy' z hz'

variable [DecidableEq α]

theorem erase (h : Scattered R L) : Scattered R (ListFamily.erase L k x) where
  within j := by
    by_cases hj : j = k
    · subst j
      rw [erase_same]
      exact (h.within _).sublist erase_sublist
    · rw [erase_other hj]
      exact h.within j
  across i j hij y hy z hz :=
    h.across i j hij y (mem_of_mem_erase hy) z (mem_of_mem_erase hz)

theorem of_mem_erase (h : Scattered R L) (hsymm : ∀ j x k y, R j x k y → R k y j x)
    (hx : x ∈ L k) {j : ι} {y : α} (hy : y ∈ ListFamily.erase L k x j) : R k x j y := by
  by_cases hj : j = k
  · subst j
    rw [erase_same] at hy
    have hperm := perm_cons_erase hx
    have hpair := (hperm.pairwise_iff (fun {a b} => hsymm _ a _ b)).mp (h.within _)
    exact (pairwise_cons.mp hpair).1 y hy
  · exact h.across k j (Ne.symm hj) x hx y (mem_of_mem_erase hy)

end Scattered

end Framework
