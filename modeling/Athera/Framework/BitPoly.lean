import Mathlib.Algebra.Ring.Commute
import Mathlib.Data.Nat.Bitwise
import Mathlib.Tactic.Abel

/-!
# Polynomials over two elements

The bits of a number are the coefficients of a polynomial over the field with two elements,
evaluated at an element of a ring.
-/

namespace Framework

namespace BitPoly

variable {R : Type*} [Ring R]

def evalUpTo (x : R) : Nat → Nat → R
  | 0, _ => 0
  | n + 1, p => (bif p.testBit 0 then 1 else 0) + x * evalUpTo x n (p / 2)

/-- The value of the polynomial; a number has fewer bits than its value. -/
def eval (x : R) (p : Nat) : R := evalUpTo x p p

section

variable {x : R} {n m p : Nat}

theorem evalUpTo_zero (x : R) (n : Nat) : evalUpTo x n 0 = 0 := by
  induction n with
  | zero => rfl
  | succ n ih => simp [evalUpTo,ih]

theorem div_two_lt_two_pow (h : p < 2^(n+1)) : p/2 < 2^n := by
  omega

theorem evalUpTo_succ (h : p < 2^n) : evalUpTo x (n+1) p = evalUpTo x n p := by
  induction n generalizing p with
  | zero =>
    obtain rfl : p = 0 := by simpa using h
    rw [evalUpTo_zero,evalUpTo_zero]
  | succ n ih =>
    rw [evalUpTo,ih (div_two_lt_two_pow h)]
    rfl

theorem evalUpTo_of_le (h : p < 2^n) (hnm : n ≤ m) : evalUpTo x m p = evalUpTo x n p := by
  induction m, hnm using Nat.le_induction with
  | base => rfl
  | succ m hle ih =>
    have hp : p < 2^m := Nat.lt_of_lt_of_le h (Nat.pow_le_pow_right (by decide) hle)
    rw [evalUpTo_succ hp,ih]

theorem evalUpTo_eq_eval (h : p < 2^n) : evalUpTo x n p = eval x p := by
  rcases Nat.le_total n p with hle | hle
  · exact (evalUpTo_of_le h hle).symm
  · exact evalUpTo_of_le Nat.lt_two_pow_self hle

theorem eval_zero (x : R) : eval x 0 = 0 := rfl

theorem eval_two_mul (x : R) (p : Nat) : eval x (2*p) = x*eval x p := by
  have hp : p < 2^p := Nat.lt_two_pow_self
  have h2p : 2*p < 2^(p+1) := by
    omega
  rw [← evalUpTo_eq_eval h2p,evalUpTo]
  simp [eval]

theorem eval_two (x : R) : eval x 2 = x := by
  simp [eval,evalUpTo]

theorem commute_evalUpTo (x : R) (n p : Nat) : Commute x (evalUpTo x n p) := by
  induction n generalizing p with
  | zero => exact Commute.zero_right x
  | succ n ih =>
    refine Commute.add_right ?_ ((Commute.refl x).mul_right (ih _))
    cases p.testBit 0
    · exact Commute.zero_right x
    · exact Commute.one_right x

end

section

variable (htwo : ∀ r : R, r + r = 0) {x : R}
include htwo

theorem bit_xor (a b : Bool) :
    (bif a ^^ b then 1 else 0 : R) = (bif a then 1 else 0)+(bif b then 1 else 0) := by
  cases a with
  | false => cases b <;> simp
  | true =>
    cases b with
    | false => simp
    | true => exact (htwo 1).symm

theorem evalUpTo_xor (n p q : Nat) : evalUpTo x n (p ^^^ q) = evalUpTo x n p+evalUpTo x n q := by
  induction n generalizing p q with
  | zero => simp [evalUpTo]
  | succ n ih =>
    have hhalf : (p ^^^ q)/2 = p/2 ^^^ q/2 := Nat.xor_div_two
    simp only [evalUpTo,Nat.testBit_xor,hhalf,ih,mul_add,bit_xor htwo]
    abel

theorem eval_xor (p q : Nat) : eval x (p ^^^ q) = eval x p+eval x q := by
  have hp : p < 2^(p+q) := Nat.lt_of_lt_of_le Nat.lt_two_pow_self
    (Nat.pow_le_pow_right (by decide) (Nat.le_add_right p q))
  have hq : q < 2^(p+q) := Nat.lt_of_lt_of_le Nat.lt_two_pow_self
    (Nat.pow_le_pow_right (by decide) (Nat.le_add_left q p))
  rw [← evalUpTo_eq_eval (Nat.xor_lt_two_pow hp hq),evalUpTo_xor htwo,evalUpTo_eq_eval hp,
    evalUpTo_eq_eval hq]

end

/-- The product with the variable, reduced where the coefficient `d` goes over the degree. -/
def mulX (m d p : Nat) : Nat := 2 * p ^^^ m * (p >>> d % 2)

/-- The product with the lowest `n` coefficients of a second factor. -/
def mulUpTo (m d p : Nat) : Nat → Nat → Nat
  | 0, _ => 0
  | n + 1, q => mulX m d (mulUpTo m d p n (q / 2)) ^^^ p * (q % 2)

def mulMod (m d p q : Nat) : Nat := mulUpTo m d p (q.log2 + 1) q

def squares (m d : Nat) : Nat → Nat → Nat
  | 0, p => p
  | k + 1, p => squares m d k (mulMod m d p p)

variable (htwo : ∀ r : R, r + r = 0) {x : R} {m d : Nat} (hm : eval x m = 0)
include htwo hm

theorem eval_mulX (p : Nat) : eval x (mulX m d p) = x*eval x p := by
  rw [mulX,eval_xor htwo,eval_two_mul]
  rcases Nat.mod_two_eq_zero_or_one (p >>> d) with hd | hd
  · simp [hd,eval_zero]
  · simp [hd,hm]

theorem eval_mulUpTo (p n q : Nat) : eval x (mulUpTo m d p n q) = evalUpTo x n q*eval x p := by
  induction n generalizing q with
  | zero => simp [mulUpTo,evalUpTo,eval_zero]
  | succ n ih =>
    rw [mulUpTo,eval_xor htwo,eval_mulX htwo hm,ih,evalUpTo,add_mul,mul_assoc,add_comm]
    rcases Nat.mod_two_eq_zero_or_one q with hq | hq
    · simp [hq,eval_zero]
    · simp [hq]

theorem eval_mulMod (p q : Nat) : eval x (mulMod m d p q) = eval x q*eval x p := by
  rw [mulMod,eval_mulUpTo htwo hm,evalUpTo_eq_eval Nat.lt_log2_self]

theorem eval_squares (k p : Nat) : eval x (squares m d k p) = eval x p^2^k := by
  induction k generalizing p with
  | zero => simp [squares]
  | succ k ih =>
    rw [squares,ih,eval_mulMod htwo hm,← pow_two,← pow_mul,Nat.pow_succ,Nat.mul_comm]

end BitPoly

end Framework
