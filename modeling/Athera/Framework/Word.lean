import Mathlib.Data.Nat.Bitwise
import Mathlib.Tactic.Ring

/-!
# 64-bit machine words

Words are naturals below `2 ^ 64`. Addition wraps, and masking off the low bits of a word is
rounding it down to a multiple of a power of two.
-/

namespace Framework

def wordRange : Nat := 2 ^ 64

/-- The value of a 64-bit register after an operation whose exact result is `n`. -/
def wrap (n : Nat) : Nat := n % wordRange

theorem wrap_lt (n : Nat) : wrap n < wordRange := Nat.mod_lt _ (by decide)

theorem wrap_of_lt {n : Nat} (h : n < wordRange) : wrap n = n := Nat.mod_eq_of_lt h

theorem wrap_sub {a b : Nat} (hle : b ≤ a) (ha : a < wordRange) : wrap (a+wordRange-b) = a-b := by
  rw [wrap]
  rw [Nat.sub_add_comm hle,Nat.add_mod_right]
  exact Nat.mod_eq_of_lt (by omega)

/-- Checked addition: `none` when the exact sum does not fit in a word. -/
def checkedAdd (a b : Nat) : Option Nat := if a + b < wordRange then some (a + b) else none

theorem checkedAdd_eq_some {a b c : Nat} : checkedAdd a b = some c ↔ c = a+b ∧ a+b < wordRange := by
  unfold checkedAdd
  split
  · rename_i h
    simp only [Option.some.injEq,h,and_true,eq_comm]
  · rename_i h
    simp [h]

def withBit (n i : Nat) (b : Bool) : Nat := if n.testBit i = b then n else n ^^^ 2 ^ i

theorem testBit_withBit (n i j : Nat) (b : Bool) :
    (withBit n i b).testBit j = if i = j then b else n.testBit j := by
  unfold withBit
  split
  next h =>
    split
    next he => rw [← he,h]
    next => rfl
  next h =>
    split
    next he =>
      subst he
      cases b <;> simpa using h
    next he => simp [he]

theorem land_high_bits {n x k : Nat} (hx : x < 2^n) (hk : k ≤ n) : x &&& (2^n-2^k) = x/2^k*2^k := by
  apply Nat.eq_of_testBit_eq
  intro i
  have hlow : 2^k-1 < 2^n := by
    have h := Nat.pow_le_pow_right (n := 2) (by decide) hk
    omega
  have hmask : 2^n-2^k = 2^n-((2^k-1)+1) := by
    have hpos := Nat.two_pow_pos k
    omega
  rw [hmask,Nat.testBit_and,Nat.testBit_two_pow_sub_succ hlow,
    Nat.testBit_mul_two_pow,Nat.testBit_div_two_pow]
  by_cases hik : k ≤ i
  · by_cases hin : i < n
    · simp [hik,hin]
    · have hzero : x.testBit i = false :=
        Nat.testBit_lt_two_pow (lt_of_lt_of_le hx (Nat.pow_le_pow_right (by decide) (by omega)))
      simp [hik,hzero]
  · simp [hik]
    omega

end Framework
