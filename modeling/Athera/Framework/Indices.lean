import Mathlib.Data.List.Basic
import Mathlib.Order.Bounds.Basic

/-!
# Searching and counting indices

The first index of an interval that satisfies a predicate, and the number of indices below a bound
that do.
-/

namespace Framework

open List

section

variable {p q : Nat → Bool} {a b c i : Nat}

def firstIn (p : Nat → Bool) (a b : Nat) : Option Nat := (List.range' a (b - a)).find? p

theorem firstIn_eq_some : firstIn p a b = some i ↔
    p i = true ∧ a ≤ i ∧ i < b ∧ ∀ j, a ≤ j → j < i → p j = false := by
  rw [firstIn,find?_range'_eq_some]
  simp only [mem_range'_1,Bool.not_eq_true']
  constructor
  · rintro ⟨hp,⟨hle,hlt⟩,hno⟩
    exact ⟨hp,hle,by omega,hno⟩
  · rintro ⟨hp,hle,hlt,hno⟩
    exact ⟨hp,⟨hle,by omega⟩,hno⟩

theorem firstIn_eq_none : firstIn p a b = none ↔ ∀ j, a ≤ j → j < b → p j = false := by
  rw [firstIn,find?_range'_eq_none]
  simp only [Bool.not_eq_true']
  constructor
  · intro h j hle hlt
    exact h j hle (by omega)
  · intro h j hle hlt
    exact h j hle (by omega)

theorem firstIn_eq_some_iff_isLeast :
    firstIn p a b = some i ↔ IsLeast {i | a ≤ i ∧ i < b ∧ p i = true} i := by
  rw [firstIn_eq_some]
  constructor
  · intro ⟨hp,hle,hlt,hno⟩
    refine ⟨⟨hle,hlt,hp⟩,fun j hj => ?_⟩
    by_contra hji
    have hpj := hj.2.2
    rw [hno j hj.1 (by omega)] at hpj
    exact Bool.false_ne_true hpj
  · intro ⟨⟨hle,hlt,hp⟩,hleast⟩
    refine ⟨hp,hle,hlt,fun j hj hji => ?_⟩
    by_contra hno
    have hij := hleast ⟨hj,by omega,Bool.eq_true_of_not_eq_false hno⟩
    omega

theorem firstIn_congr (h : ∀ j, a ≤ j → j < b → p j = q j) : firstIn p a b = firstIn q a b := by
  cases hq : firstIn q a b with
  | none =>
    rw [firstIn_eq_none] at hq ⊢
    intro j hle hlt
    rw [h j hle hlt]
    exact hq j hle hlt
  | some i =>
    rw [firstIn_eq_some] at hq ⊢
    obtain ⟨hi,hle,hlt,hno⟩ := hq
    refine ⟨(h i hle hlt).trans hi,hle,hlt,fun j hj hji => ?_⟩
    rw [h j hj (by omega)]
    exact hno j hj hji

theorem firstIn_empty (h : b ≤ a) : firstIn p a b = none := by
  rw [firstIn_eq_none]
  omega

theorem firstIn_append (hab : a ≤ b) (hbc : b ≤ c) :
    firstIn p a c = (firstIn p a b).or (firstIn p b c) := by
  have hlen : c-a = (b-a)+(c-b) := by omega
  have hmid : a+1*(b-a) = b := by omega
  rw [firstIn,firstIn,firstIn,hlen,← range'_append,hmid,find?_append]

theorem firstIn_shift (n : Nat) :
    firstIn p (n+a) (n+b) = (firstIn (fun i => p (n+i)) a b).map (n + ·) := by
  have hlen : n+b-(n+a) = b-a := by omega
  rw [firstIn,hlen,← map_add_range',find?_map]
  rfl

end

variable {p q : Nat → Bool} {n i : Nat}

def countBelow (p : Nat → Bool) (n : Nat) : Nat := (List.range n).countP p

theorem countBelow_congr (h : ∀ j < n, p j = q j) : countBelow p n = countBelow q n := by
  apply countP_congr
  intro j hj
  rw [h j (mem_range.mp hj)]

theorem countBelow_le (p : Nat → Bool) (n : Nat) : countBelow p n ≤ n := by
  have h := countP_le_length (p := p) (l := List.range n)
  rwa [length_range] at h

theorem countBelow_succ (p : Nat → Bool) (n : Nat) :
    countBelow p (n+1) = countBelow p n+if p n then 1 else 0 := by
  rw [countBelow,countBelow,range_succ,countP_append,countP_singleton]

theorem countBelow_add (p : Nat → Bool) (m n : Nat) :
    countBelow p (m+n) = countBelow p m+countBelow (fun i => p (m+i)) n := by
  induction n with
  | zero => rfl
  | succ n ih => rw [← Nat.add_assoc,countBelow_succ,ih,countBelow_succ,Nat.add_assoc]

theorem countBelow_eq_zero : countBelow p n = 0 ↔ ∀ j < n, p j = false := by
  rw [countBelow,countP_eq_zero]
  simp only [mem_range,Bool.not_eq_true]

theorem countBelow_eq_all : countBelow p n = n ↔ ∀ j < n, p j = true := by
  have h := countP_eq_length (p := p) (l := List.range n)
  rw [length_range] at h
  rw [countBelow,h]
  simp only [mem_range]

theorem countBelow_insert (hi : i < n) (hold : p i = false) (hnew : q i = true)
    (hsame : ∀ j, j ≠ i → q j = p j) : countBelow q n = countBelow p n+1 := by
  induction n with
  | zero => exact absurd hi (Nat.not_lt_zero i)
  | succ n ih =>
    rw [countBelow_succ,countBelow_succ]
    by_cases h : i = n
    · subst h
      have hrest : countBelow q i = countBelow p i := by
        apply countBelow_congr
        intro j hj
        exact hsame j (by omega)
      rw [hrest,hold,hnew]
      rfl
    · rw [hsame n (Ne.symm h)]
      omega

theorem countBelow_insertRange {a len : Nat} (hn : a+len ≤ n)
    (hold : ∀ j, a ≤ j → j < a+len → p j = false)
    (hnew : ∀ j, a ≤ j → j < a+len → q j = true)
    (hsame : ∀ j, j < a ∨ a+len ≤ j → q j = p j) : countBelow q n = countBelow p n+len := by
  obtain ⟨k,rfl⟩ := Nat.exists_eq_add_of_le hn
  have hlow : countBelow q a = countBelow p a := by
    apply countBelow_congr
    intro j hj
    exact hsame j (.inl hj)
  have hmid : countBelow (fun i => q (a+i)) len = len := by
    rw [countBelow_eq_all]
    intro j hj
    exact hnew _ (by omega) (by omega)
  have hmid' : countBelow (fun i => p (a+i)) len = 0 := by
    rw [countBelow_eq_zero]
    intro j hj
    exact hold _ (by omega) (by omega)
  have hhigh : countBelow (fun i => q (a+len+i)) k = countBelow (fun i => p (a+len+i)) k := by
    apply countBelow_congr
    intro j hj
    exact hsame _ (.inr (by omega))
  rw [countBelow_add,countBelow_add,countBelow_add p,countBelow_add p]
  omega

end Framework
