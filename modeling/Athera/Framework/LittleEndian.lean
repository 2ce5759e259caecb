import Mathlib.Data.List.Basic
import Mathlib.Tactic.Ring
import Mathlib.Tactic.NormNum

/-!
# Numbers as bytes

A number is written as a fixed count of bytes, least significant first.
-/

namespace Framework

open List

def leNat : List UInt8 → Nat
  | [] => 0
  | b :: bs => b.toNat + 256 * leNat bs

def leBytes : Nat → Nat → List UInt8
  | 0, _ => []
  | n + 1, w => UInt8.ofNat w :: leBytes n (w / 256)

def leUnits (k : Nat) : Nat → List UInt8 → List Nat
  | 0, _ => []
  | n + 1, bs => leNat (bs.take k) :: leUnits k n (bs.drop k)

@[simp] theorem length_leBytes (n w : Nat) : (leBytes n w).length = n := by
  induction n generalizing w with
  | zero => rfl
  | succ n ih => simp [leBytes,ih]

@[simp] theorem length_leUnits (k n : Nat) (bs : List UInt8) : (leUnits k n bs).length = n := by
  induction n generalizing bs with
  | zero => rfl
  | succ n ih => simp [leUnits,ih]

theorem leNat_leBytes (n w : Nat) : leNat (leBytes n w) = w%256^n := by
  induction n generalizing w with
  | zero => simp [leNat,leBytes,Nat.mod_one]
  | succ n ih =>
    have hbyte : (UInt8.ofNat w).toNat = w%256 := UInt8.toNat_ofNat'
    rw [leBytes,leNat,ih,hbyte,Nat.pow_succ,Nat.mul_comm (256^n) 256,Nat.mod_mul]

@[simp] theorem length_flatMap_leBytes (k : Nat) (ws : List Nat) :
    (ws.flatMap (leBytes k)).length = ws.length*k := by
  simp [length_flatMap]

theorem leUnits_flatMap {k : Nat} {ws : List Nat} (h : ∀ w ∈ ws, w < 256^k) :
    leUnits k ws.length (ws.flatMap (leBytes k)) = ws := by
  induction ws with
  | nil => rfl
  | cons w ws ih =>
    have hw : w < 256^k := h w mem_cons_self
    have hws : ∀ x ∈ ws, x < 256^k := fun x hx => h x (mem_cons_of_mem w hx)
    rw [length_cons,flatMap_cons,leUnits,take_left' (length_leBytes k w),
      drop_left' (length_leBytes k w),ih hws,leNat_leBytes,Nat.mod_eq_of_lt hw]

end Framework
