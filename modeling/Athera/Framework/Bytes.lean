import Athera.Framework.Memory

/-!
# Runs of bytes in a memory

The bytes of a block as a list, and buffers that are overwritten in one place.
-/

namespace Framework

open List

/-- `copy_from_slice` at the place `i`. -/
def patch (l : List UInt8) (i : Nat) (bytes : List UInt8) : List UInt8 :=
  l.take i ++ bytes ++ l.drop (i + bytes.length)

theorem length_patch {l bytes : List UInt8} {i : Nat} (h : i+bytes.length ≤ l.length) :
    (patch l i bytes).length = l.length := by
  simp only [patch,length_append,length_take,length_drop]
  omega

theorem take_patch {l bytes : List UInt8} {i : Nat} (h : i+bytes.length ≤ l.length) :
    (patch l i bytes).take (i+bytes.length) = l.take i++bytes := by
  apply take_left'
  simp only [length_append,length_take]
  omega

theorem getElem?_patch {l bytes : List UInt8} {i j : Nat} (h : i+bytes.length ≤ l.length) :
    (patch l i bytes)[j]? = if i ≤ j ∧ j < i+bytes.length then bytes[j-i]? else l[j]? := by
  have hlen : (l.take i).length = i := by
    rw [length_take]
    omega
  rw [patch]
  by_cases hj : j < i
  · rw [if_neg (by omega),append_assoc,getElem?_append_left (by omega),getElem?_take_of_lt hj]
  · by_cases hin : j < i+bytes.length
    · rw [if_pos (by omega),getElem?_append_left (by rw [length_append]; omega),
        getElem?_append_right (by omega),hlen]
    · rw [if_neg (by omega),getElem?_append_right (by rw [length_append]; omega),
        length_append,getElem?_drop]
      congr 1
      omega

namespace Memory

def slice (m : Memory) (a n : Nat) : List UInt8 := (List.range n).map fun i => m (a + i)

variable {m m' : Memory} {a b n k : Nat} {bytes : List UInt8}

@[simp] theorem length_slice (m : Memory) (a n : Nat) : (m.slice a n).length = n := by
  simp [slice]

@[simp] theorem slice_zero (m : Memory) (a : Nat) : m.slice a 0 = [] := rfl

theorem getElem?_slice {i : Nat} (h : i < n) : (m.slice a n)[i]? = some (m (a+i)) := by
  simp [slice,h]

theorem slice_add (m : Memory) (a n k : Nat) : m.slice a (n+k) = m.slice a n++m.slice (a+n) k := by
  simp only [slice,range_add,map_append,map_map]
  congr 1
  apply map_congr_left
  intro i _
  simp only [Function.comp_apply,Nat.add_assoc]

theorem slice_congr (h : ∀ i < n, m' (a+i) = m (a+i)) : m'.slice a n = m.slice a n := by
  apply map_congr_left
  intro i hi
  exact h i (mem_range.mp hi)

theorem drop_slice (h : k ≤ n) : (m.slice a n).drop k = m.slice (a+k) (n-k) := by
  have hcut := slice_add m a k (n-k)
  rw [Nat.add_sub_cancel' h] at hcut
  rw [hcut]
  exact drop_left' (length_slice m a k)

theorem take_slice (h : k ≤ n) : (m.slice a n).take k = m.slice a k := by
  have hcut := slice_add m a k (n-k)
  rw [Nat.add_sub_cancel' h] at hcut
  rw [hcut]
  exact take_left' (length_slice m a k)

theorem store_apply (m : Memory) (a : Nat) (bytes : List UInt8) (x : Nat) :
    m.store a bytes x = if a ≤ x ∧ x < a+bytes.length then bytes.getD (x-a) 0 else m x := by
  simp only [store,Block.mem_iff]

@[simp] theorem store_nil (m : Memory) (a : Nat) : m.store a [] = m := by
  funext x
  rw [store_apply,length_nil,if_neg (by omega)]

theorem store_append (m : Memory) (a : Nat) (bytes bytes' : List UInt8) :
    m.store a (bytes++bytes') = (m.store a bytes).store (a+bytes.length) bytes' := by
  funext x
  rw [store_apply,store_apply,store_apply,length_append]
  by_cases hfirst : a ≤ x ∧ x < a+bytes.length
  · rw [if_pos (by omega),if_neg (by omega),if_pos hfirst]
    simp only [getD_eq_getElem?_getD]
    rw [getElem?_append_left (by omega)]
  · by_cases hsecond : a+bytes.length ≤ x ∧ x < a+bytes.length+bytes'.length
    · rw [if_pos (by omega),if_pos hsecond]
      simp only [getD_eq_getElem?_getD]
      rw [getElem?_append_right (by omega),Nat.sub_sub]
    · rw [if_neg (by omega),if_neg hsecond,if_neg hfirst]

theorem slice_store_self (m : Memory) (a : Nat) (bytes : List UInt8) :
    (m.store a bytes).slice a bytes.length = bytes := by
  apply ext_getElem?
  intro i
  by_cases hi : i < bytes.length
  · rw [getElem?_slice hi,store_apply]
    simp [hi]
  · rw [getElem?_eq_none (by simpa using hi),getElem?_eq_none (by omega)]

theorem slice_store_apart (h : a+bytes.length ≤ b ∨ b+n ≤ a) :
    (m.store a bytes).slice b n = m.slice b n := by
  apply slice_congr
  intro i hi
  rw [store_apply,if_neg (by omega)]

theorem store_patch_slice (h : k+bytes.length ≤ n) :
    m.store a (patch (m.slice a n) k bytes) = m.store (a+k) bytes := by
  have hfit : k+bytes.length ≤ (m.slice a n).length := by rw [length_slice]; exact h
  funext x
  rw [store_apply,store_apply,length_patch hfit,length_slice]
  by_cases hin : a ≤ x ∧ x < a+n
  · rw [if_pos hin,getD_eq_getElem?_getD,getElem?_patch hfit,getElem?_slice (by omega),
      Nat.add_sub_cancel' hin.1,getD_eq_getElem?_getD]
    by_cases hk : a+k ≤ x ∧ x < a+k+bytes.length
    · rw [if_pos (by omega),if_pos hk,Nat.sub_sub]
    · rw [if_neg (by omega),if_neg hk]
      rfl
  · rw [if_neg hin,if_neg (by omega)]

end Memory

end Framework
