import Athera.Framework.Word

/-!
# Rounding words up to powers of two

`saturating_add` and `checked_next_power_of_two` on 64-bit words.
-/

namespace Framework

def saturatingAdd (a b : Nat) : Nat := min (a + b) (wordRange - 1)

/-- The least power of two that is not below; one for zero. -/
def nextPowerOfTwo (n : Nat) : Nat := if n ≤ 1 then 1 else 2 ^ (Nat.log2 (n - 1) + 1)

def checkedNextPowerOfTwo (n : Nat) : Option Nat :=
  if nextPowerOfTwo n < wordRange then some (nextPowerOfTwo n) else none

variable {n p : Nat}

theorem nextPowerOfTwo_eq_pow (n : Nat) : ∃ k, nextPowerOfTwo n = 2^k := by
  unfold nextPowerOfTwo
  split
  · exact ⟨0,rfl⟩
  · exact ⟨_,rfl⟩

theorem le_nextPowerOfTwo (n : Nat) : n ≤ nextPowerOfTwo n := by
  unfold nextPowerOfTwo
  split
  next h => exact h
  next h =>
    have hlt : n-1 < 2^(Nat.log2 (n-1)+1) := (Nat.log2_lt (by omega)).mp (Nat.lt_succ_self _)
    omega

theorem nextPowerOfTwo_half_lt (h : 0 < n) : nextPowerOfTwo n/2 < n := by
  unfold nextPowerOfTwo
  split
  · omega
  next h1 =>
    have hle : 2^Nat.log2 (n-1) ≤ n-1 := Nat.log2_self_le (by omega)
    omega

theorem checkedNextPowerOfTwo_eq_some :
    checkedNextPowerOfTwo n = some p ↔ p = nextPowerOfTwo n ∧ p < wordRange := by
  unfold checkedNextPowerOfTwo
  split
  next h =>
    rw [Option.some.injEq]
    constructor
    · intro he
      exact ⟨he.symm,he ▸ h⟩
    · intro he
      exact he.1.symm
  next h =>
    constructor
    · intro he
      cases he
    · intro he
      exact absurd (he.1 ▸ he.2) h

theorem saturatingAdd_of_checked {a b : Nat}
    (h : checkedNextPowerOfTwo (saturatingAdd a b) = some p) : saturatingAdd a b = a+b := by
  obtain ⟨rfl,hlt⟩ := checkedNextPowerOfTwo_eq_some.mp h
  have hle := le_nextPowerOfTwo (saturatingAdd a b)
  by_contra hne
  have hmax : saturatingAdd a b = wordRange-1 := by
    unfold saturatingAdd at hne ⊢
    omega
  obtain ⟨k,hk⟩ := nextPowerOfTwo_eq_pow (saturatingAdd a b)
  rw [hk] at hlt hle
  have hk64 : k < 64 := (Nat.pow_lt_pow_iff_right (by decide)).mp hlt
  have hpow : 2^k ≤ 2^63 := Nat.pow_le_pow_right (by decide) (by omega)
  have hrange : wordRange = 2*2^63 := by decide
  omega

theorem pow_le_half {k m : Nat} (h : 2^k < 2^m) : 2^k ≤ 2^m/2 := by
  have hkm : k < m := (Nat.pow_lt_pow_iff_right (by decide)).mp h
  have hsucc : 2^(k+1) ≤ 2^m := Nat.pow_le_pow_right (by decide) hkm
  omega

end Framework
