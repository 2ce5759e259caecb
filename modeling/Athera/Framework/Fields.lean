import Mathlib.Data.Nat.Bitwise

/-!
# Fields of machine words

A field of a word is given by its lowest and its highest bit; what does not fit into it is cut off.
-/

namespace Framework

open BitVec

variable {w : Nat} {x v : BitVec w} {lo hi i j : Nat}

def lowBits (w n : Nat) : BitVec w := (1#w <<< n) - 1#w

def fieldMask (w lo hi : Nat) : BitVec w := lowBits w (hi - lo + 1) <<< lo

def getField (x : BitVec w) (lo hi : Nat) : BitVec w := (x &&& fieldMask w lo hi) >>> lo

def setField (x : BitVec w) (lo hi : Nat) (v : BitVec w) : BitVec w :=
  (x &&& ~~~fieldMask w lo hi) ||| ((v &&& lowBits w (hi - lo + 1)) <<< lo)

def getFlag (x : BitVec w) (i : Nat) : Bool := x &&& (1#w <<< i) != 0#w

def setFlag (x : BitVec w) (i : Nat) (b : Bool) : BitVec w :=
  (x &&& ~~~(1#w <<< i)) ||| ((if b then 1#w else 0#w) <<< i)

theorem getLsbD_one_shift (w i j : Nat) : (1#w <<< i).getLsbD j = (decide (j = i) && decide (j < w)) := by
  by_cases hji : j = i
  · simp [hji]
    omega
  · have hne : j < i ∨ j-i ≠ 0 := by omega
    rcases hne with hne | hne
    · simp [hji,hne]
    · simp [hji,hne]

theorem toNat_lowBits {n : Nat} (h : n ≤ w) : (lowBits w n).toNat = 2^n-1 := by
  have hpos : 0 < 2^n := Nat.two_pow_pos n
  rcases Nat.lt_or_ge n w with hlt | hge
  · have hpow : 2^n < 2^w := Nat.pow_lt_pow_right (by decide) hlt
    have hone : (1#w).toNat = 1 := toNat_one (by omega)
    have hshift : (1#w <<< n).toNat = 2^n := by
      rw [toNat_shiftLeft,hone,Nat.one_shiftLeft,Nat.mod_eq_of_lt hpow]
    rw [lowBits,toNat_sub,hshift,hone]
    rw [show 2^w-1+2^n = 2^n-1+2^w by omega,Nat.add_mod_right]
    exact Nat.mod_eq_of_lt (by omega)
  · obtain rfl : n = w := by omega
    have hshift : 1#n <<< n = 0#n := by
      simp
    rw [lowBits,hshift,BitVec.zero_sub,neg_one_eq_allOnes]
    exact toNat_allOnes

theorem getLsbD_lowBits {n : Nat} (h : n ≤ w) : (lowBits w n).getLsbD i = decide (i < n) := by
  rw [getLsbD,toNat_lowBits h,Nat.testBit_two_pow_sub_one]

theorem getLsbD_fieldMask (hhi : hi < w) (hlo : lo ≤ hi) :
    (fieldMask w lo hi).getLsbD i = decide (lo ≤ i ∧ i ≤ hi) := by
  rw [fieldMask,getLsbD_shiftLeft,getLsbD_lowBits (by omega)]
  by_cases hi' : lo ≤ i ∧ i ≤ hi
  · simp [hi']
    omega
  · simp only [hi']
    simp
    omega

theorem getLsbD_getField (hhi : hi < w) (hlo : lo ≤ hi) :
    (getField x lo hi).getLsbD i = (decide (i ≤ hi-lo) && x.getLsbD (lo+i)) := by
  rw [getField,getLsbD_ushiftRight,getLsbD_and,getLsbD_fieldMask hhi hlo,Bool.and_comm]
  congr 1
  rw [decide_eq_decide]
  omega

theorem getLsbD_setField (hhi : hi < w) (hlo : lo ≤ hi) :
    (setField x lo hi v).getLsbD i = if lo ≤ i ∧ i ≤ hi then v.getLsbD (i-lo) else x.getLsbD i := by
  rw [setField,getLsbD_or,getLsbD_and,getLsbD_not,getLsbD_fieldMask hhi hlo,
    getLsbD_shiftLeft,getLsbD_and,getLsbD_lowBits (by omega)]
  by_cases hin : lo ≤ i ∧ i ≤ hi
  · have hlow : ¬ i < lo := by omega
    have hlt : i < w := by omega
    have hinside : i-lo < hi-lo+1 := by omega
    simp [hin,hlow,hlt,hinside]
  · by_cases hlt : i < w
    · have hcut : i < lo ∨ ¬ i-lo < hi-lo+1 := by omega
      rcases hcut with hcut | hcut
      · simp [hin,hlt,hcut]
      · simp [hin,hlt,hcut]
    · simp [hlt,getLsbD_of_ge x i (by omega)]
      intro hge hle
      exact absurd ⟨hge,hle⟩ hin

theorem getFlag_eq (hi : i < w) : getFlag x i = x.getLsbD i := by
  have hand : x &&& (1#w <<< i) = if x.getLsbD i then 1#w <<< i else 0#w := by
    apply eq_of_getLsbD_eq
    intro j hj
    rw [getLsbD_and,getLsbD_one_shift]
    by_cases hji : j = i
    · subst hji
      cases x.getLsbD j
      · simp
      · simp only [if_true,getLsbD_one_shift,Bool.true_and]
    · cases x.getLsbD i
      · simp [hji]
      · simp only [if_true,getLsbD_one_shift,hji,decide_false,Bool.false_and,Bool.and_false]
  have hne : (1#w <<< i) ≠ 0#w := by
    intro he
    have hbit := congrArg (fun y => getLsbD y i) he
    simp only [getLsbD_one_shift,hi,getLsbD_zero] at hbit
    cases hbit
  rw [getFlag,hand]
  cases x.getLsbD i
  · simp
  · simpa using hne

theorem getLsbD_setFlag {b : Bool} (hi : i < w) :
    (setFlag x i b).getLsbD j = if j = i then b else x.getLsbD j := by
  have hbit : ((if b then 1#w else 0#w) <<< i).getLsbD j = (decide (j = i) && b) := by
    cases b
    · simp
    · simp only [if_true,getLsbD_one_shift]
      by_cases hj : j = i
      · simp [hj,hi]
      · simp [hj]
  rw [setFlag,getLsbD_or,getLsbD_and,getLsbD_not,getLsbD_one_shift,hbit]
  by_cases hj : j = i
  · subst hj
    simp [hi]
  · by_cases hlt : j < w
    · simp [hj,hlt]
    · simp [hj,getLsbD_of_ge x j (by omega)]

section

variable {lo' hi' : Nat} {b : Bool}

theorem getField_setField (hhi : hi < w) (hlo : lo ≤ hi) :
    getField (setField x lo hi v) lo hi = v &&& lowBits w (hi-lo+1) := by
  apply eq_of_getLsbD_eq
  intro i hi'
  rw [getLsbD_getField hhi hlo,getLsbD_setField hhi hlo,getLsbD_and,getLsbD_lowBits (by omega)]
  by_cases hin : i ≤ hi-lo
  · have hlt : i < hi-lo+1 := by omega
    have hpos : lo ≤ lo+i ∧ lo+i ≤ hi := by omega
    simp [hin,hlt,hpos]
  · have hlt : ¬ i < hi-lo+1 := by omega
    simp [hin,hlt]

theorem getFlag_setField_of_apart (hhi : hi < w) (hlo : lo ≤ hi) (hi' : i < w) (hapart : i < lo ∨ hi < i) :
    getFlag (setField x lo hi v) i = getFlag x i := by
  rw [getFlag_eq hi',getFlag_eq hi',getLsbD_setField hhi hlo,if_neg (by omega)]

theorem getFlag_setFlag (hi : i < w) (hj : j < w) :
    getFlag (setFlag x i b) j = if j = i then b else getFlag x j := by
  rw [getFlag_eq hj,getFlag_eq hj,getLsbD_setFlag hi]

theorem getField_setFlag_of_apart (hhi : hi < w) (hlo : lo ≤ hi) (hj : j < w) (hapart : j < lo ∨ hi < j) :
    getField (setFlag x j b) lo hi = getField x lo hi := by
  apply eq_of_getLsbD_eq
  intro i _
  rw [getLsbD_getField hhi hlo,getLsbD_getField hhi hlo,getLsbD_setFlag hj]
  by_cases hin : i ≤ hi-lo
  · rw [if_neg (by omega)]
  · simp [hin]

theorem toNat_getField (hhi : hi < w) (hlo : lo ≤ hi) :
    (getField x lo hi).toNat = x.toNat/2^lo%2^(hi-lo+1) := by
  apply Nat.eq_of_testBit_eq
  intro i
  change (getField x lo hi).getLsbD i = _
  rw [getLsbD_getField hhi hlo,Nat.testBit_mod_two_pow,Nat.testBit_div_two_pow]
  rw [Nat.add_comm i lo]
  congr 1
  rw [decide_eq_decide]
  exact Nat.lt_succ_iff.symm

theorem toNat_setField_zero (hhi : hi < w) (hlo : lo ≤ hi) :
    (setField 0#w lo hi v).toNat = v.toNat%2^(hi-lo+1)*2^lo := by
  apply Nat.eq_of_testBit_eq
  intro i
  change (setField 0#w lo hi v).getLsbD i = _
  rw [getLsbD_setField hhi hlo,Nat.testBit_mul_two_pow,Nat.testBit_mod_two_pow]
  change _ = (decide (lo ≤ i) && (decide (i-lo < hi-lo+1) && v.getLsbD (i-lo)))
  by_cases hin : lo ≤ i ∧ i ≤ hi
  · have hlt : i-lo < hi-lo+1 := by omega
    simp [hin,hlt]
  · have hout : ¬ lo ≤ i ∨ ¬ i-lo < hi-lo+1 := by omega
    rcases hout with hout | hout
    · simp [hout]
    · simp [hin,hout]

theorem getLsbD_of_getField_eq {y : BitVec w} (hhi : hi < w) (h : getField x lo hi = getField y lo hi)
    (hlo : lo ≤ i) (hi' : i ≤ hi) : x.getLsbD i = y.getLsbD i := by
  have hbit := congrArg (fun z => getLsbD z (i-lo)) h
  have hin : i-lo ≤ hi-lo := by omega
  simp only [getLsbD_getField hhi (hlo.trans hi'),hin] at hbit
  rw [Nat.add_sub_cancel' hlo] at hbit
  exact hbit

end

theorem and_lowBits_succ {n : Nat} (hn : n < w) :
    x &&& lowBits w (n+1) = (x &&& lowBits w n) ^^^ (bif x.getLsbD n then 1#w <<< n else 0#w) := by
  have hbit : ∀ i, (bif x.getLsbD n then 1#w <<< n else 0#w).getLsbD i =
      (decide (i = n) && x.getLsbD n) := by
    intro i
    cases x.getLsbD n
    · simp
    · simp only [cond_true,getLsbD_one_shift]
      by_cases hi : i = n
      · simp [hi,hn]
      · simp [hi]
  apply eq_of_getLsbD_eq
  intro i _
  rw [getLsbD_xor,getLsbD_and,getLsbD_and,hbit,getLsbD_lowBits (by omega),
    getLsbD_lowBits (by omega)]
  by_cases hi : i = n
  · subst hi
    simp
  · have hiff : i < n+1 ↔ i < n := by omega
    simp [hi,hiff]

theorem bits_induction {P : BitVec w → Prop} (hzero : P 0#w) (hxor : ∀ x y, P x → P y → P (x ^^^ y))
    (hbit : ∀ i < w, P (1#w <<< i)) (x : BitVec w) : P x := by
  have hlow : ∀ n ≤ w, P (x &&& lowBits w n) := by
    intro n
    induction n with
    | zero =>
      intro _
      have hnone : lowBits w 0 = 0#w := by
        apply eq_of_getLsbD_eq
        simp [getLsbD_lowBits]
      rw [hnone,and_zero]
      exact hzero
    | succ n ih =>
      intro hn
      rw [and_lowBits_succ (by omega)]
      apply hxor _ _ (ih (by omega))
      cases x.getLsbD n
      · exact hzero
      · exact hbit n (by omega)
  have hall : lowBits w w = allOnes w := by
    apply eq_of_getLsbD_eq
    simp [getLsbD_lowBits]
  have hx := hlow w (Nat.le_refl w)
  rwa [hall,and_allOnes] at hx

end Framework
