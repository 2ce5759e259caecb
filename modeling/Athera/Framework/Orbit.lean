import Mathlib.Data.Set.Finite.Range
import Mathlib.Data.Set.Finite.Lemmas
import Mathlib.Order.Interval.Set.Infinite

/-!
# Following a partial function

The points that a partial function reaches from a start, one after the other.
-/

namespace Framework

variable {α : Type*} (next : α → Option α)

def orbit (a : α) : Nat → Option α
  | 0 => some a
  | n + 1 => (orbit a n).bind next

def Stops (a : α) : Prop := ∃ n, orbit next a n = none

def Simple (a : α) : Prop := ∀ i j x, orbit next a i = some x → orbit next a j = some x → i = j

variable {next} {a b : α} {n k : Nat}

theorem orbit_succ (a : α) (n : Nat) : orbit next a (n+1) = (next a).bind fun b => orbit next b n := by
  induction n with
  | zero =>
    rw [orbit,orbit,Option.bind_some]
    cases next a <;> rfl
  | succ n ih =>
    rw [orbit,ih]
    cases next a <;> rfl

theorem orbit_add (h : orbit next a n = some b) (k : Nat) : orbit next a (n+k) = orbit next b k := by
  induction k with
  | zero => exact h
  | succ k ih =>
    rw [Nat.add_succ,orbit,ih]
    rfl

theorem orbit_eq_none_of_le (h : orbit next a n = none) (hle : n ≤ k) : orbit next a k = none := by
  induction k, hle using Nat.le_induction with
  | base => exact h
  | succ k _ ih =>
    rw [orbit,ih]
    rfl

theorem not_stops_of_loop (hk : 0 < k) (h : orbit next a k = some a) : ¬ Stops next a := by
  have hloop : ∀ m, orbit next a (m*k) = some a := by
    intro m
    induction m with
    | zero =>
      rw [Nat.zero_mul]
      rfl
    | succ m ih => rw [Nat.succ_mul,orbit_add ih,h]
  intro ⟨n,hn⟩
  have hnone := orbit_eq_none_of_le hn (Nat.le_mul_of_pos_right n hk)
  rw [hloop] at hnone
  cases hnone

theorem Stops.simple (h : Stops next a) : Simple next a := by
  have hlt : ∀ i j x, orbit next a i = some x → orbit next a j = some x → ¬ i < j := by
    intro i j x hi hj hij
    have hloop : orbit next x (j-i) = some x := by
      rw [← orbit_add hi,Nat.add_sub_cancel' hij.le]
      exact hj
    apply not_stops_of_loop (Nat.sub_pos_of_lt hij) hloop
    obtain ⟨n,hn⟩ := h
    refine ⟨n,?_⟩
    rw [← orbit_add hi]
    exact orbit_eq_none_of_le hn (Nat.le_add_left n i)
  intro i j x hi hj
  exact Nat.le_antisymm (not_lt.mp (hlt j i x hj hi)) (not_lt.mp (hlt i j x hi hj))

theorem stops_iff_simple {S : Set α} (hS : S.Finite) (hnext : ∀ x y, next x = some y → y ∈ S ∨ y = x) :
    Stops next a ↔ Simple next a := by
  refine ⟨Stops.simple,fun hsimple => ?_⟩
  by_contra hgoes
  have hsome : ∀ n, ∃ x, orbit next a n = some x := by
    intro n
    cases hn : orbit next a n with
    | none => exact absurd ⟨n,hn⟩ hgoes
    | some x => exact ⟨x,rfl⟩
  choose f hf using hsome
  -- all points after the first lie in the finite set, and no two of them are equal
  have hin : ∀ n, f (n+1) ∈ S := by
    intro n
    have hstep : next (f n) = some (f (n+1)) := by
      have hn := hf (n+1)
      rwa [orbit,hf n] at hn
    rcases hnext _ _ hstep with hin | heq
    · exact hin
    · have hsame := hsimple (n+1) n (f n) (heq ▸ hf (n+1)) (hf n)
      exact absurd hsame (Nat.succ_ne_self n)
  have hinj : Function.Injective fun n => f (n+1) := by
    intro i j hij
    have hij' : f (i+1) = f (j+1) := hij
    have hsame := hsimple (i+1) (j+1) (f (i+1)) (hf _) (hij' ▸ hf _)
    exact Nat.succ_injective hsame
  have hsub : Set.range (fun n => f (n+1)) ⊆ S := by
    rintro _ ⟨n,rfl⟩
    exact hin n
  exact Set.infinite_range_of_injective hinj (hS.subset hsub)

end Framework
