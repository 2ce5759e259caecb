import Mathlib.Data.List.Basic
import Mathlib.Tactic.Ring

/-!
# Lists cut into pieces

A list is cut from its head into pieces of one length. The elements that do not fill a piece are
left out.
-/

namespace Framework

open List

variable {α : Type*} {k n t : Nat} {l a b : List α}

def pieces (k : Nat) : Nat → List α → List (List α)
  | 0, _ => []
  | n + 1, l => l.take k :: pieces k n (l.drop k)

def slots (k : Nat) (l : List α) : List (List α) := pieces k (l.length / k) l

@[simp] theorem length_pieces (k n : Nat) (l : List α) : (pieces k n l).length = n := by
  induction n generalizing l with
  | zero => rfl
  | succ n ih => simp [pieces,ih]

theorem pieces_add (k n n' : Nat) (l : List α) :
    pieces k (n+n') l = pieces k n l++pieces k n' (l.drop (n*k)) := by
  induction n generalizing l with
  | zero => simp [pieces]
  | succ n ih =>
    have hdrop : k+n*k = (n+1)*k := by ring
    rw [Nat.add_right_comm,pieces,ih,drop_drop,hdrop]
    rfl

theorem pieces_append (h : n*k ≤ a.length) : pieces k n (a++b) = pieces k n a := by
  induction n generalizing a with
  | zero => rfl
  | succ n ih =>
    have hk : k ≤ a.length := (Nat.le_mul_of_pos_left k (Nat.succ_pos n)).trans h
    have hrest : n*k ≤ (a.drop k).length := by
      rw [length_drop]
      rw [Nat.succ_mul] at h
      omega
    rw [pieces,pieces,take_append_of_le_length hk,drop_append_of_le_length hk,ih hrest]

@[simp] theorem slots_nil (k : Nat) : slots k ([] : List α) = [] := by
  simp [slots,pieces]

theorem length_slots (k : Nat) (l : List α) : (slots k l).length = l.length/k := length_pieces ..

theorem slots_append (hk : 0 < k) (h : k ∣ a.length) : slots k (a++b) = slots k a++slots k b := by
  have hmul : a.length/k*k = a.length := Nat.div_mul_cancel h
  have hdiv : (a.length+b.length)/k = a.length/k+b.length/k := by
    conv_lhs => rw [← hmul,Nat.add_comm,Nat.add_mul_div_right _ _ hk,Nat.add_comm]
  rw [slots,length_append,hdiv,pieces_add,pieces_append hmul.le,hmul,drop_left]
  rfl

theorem getElem?_pieces {i : Nat} (h : i < n) :
    (pieces k n l)[i]? = some ((l.drop (i*k)).take k) := by
  induction n generalizing l i with
  | zero => omega
  | succ n ih =>
    cases i with
    | zero => simp [pieces]
    | succ i =>
      have hdrop : k+i*k = (i+1)*k := by ring
      rw [pieces,getElem?_cons_succ,ih (by omega),drop_drop,hdrop]

/-- All elements in pieces, of which the last may be shorter. -/
def chunks (k : Nat) (l : List α) : List (List α) := pieces k ((l.length + k - 1) / k) l

@[simp] theorem chunks_nil (hk : 0 < k) : chunks k ([] : List α) = [] := by
  have hdiv : (k-1)/k = 0 := Nat.div_eq_of_lt (by omega)
  rw [chunks,length_nil,Nat.zero_add,hdiv,pieces]

theorem chunks_of_ne_nil (hk : 0 < k) (h : l ≠ []) :
    chunks k l = l.take k::chunks k (l.drop k) := by
  have hpos : 0 < l.length := length_pos_iff.mpr h
  have hcount : (l.length+k-1)/k = ((l.drop k).length+k-1)/k+1 := by
    rw [length_drop]
    by_cases hle : l.length ≤ k
    · have hfirst : (l.length+k-1)/k = 1 := Nat.div_eq_of_lt_le (by omega) (by omega)
      have hlast : (l.length-k+k-1)/k = 0 := Nat.div_eq_of_lt (by omega)
      rw [hfirst,hlast]
    · have hsub : l.length+k-1 = l.length-k+k-1+k := by omega
      rw [hsub,Nat.add_div_right _ hk]
  rw [chunks,hcount]
  rfl

theorem length_chunks (k : Nat) (l : List α) : (chunks k l).length = (l.length+k-1)/k :=
  length_pieces ..

theorem flatten_chunks (hk : 0 < k) (l : List α) : (chunks k l).flatten = l := by
  induction hn : l.length using Nat.strong_induction_on generalizing l with
  | _ n ih =>
    by_cases h : l = []
    · rw [h,chunks_nil hk,flatten_nil]
    · have hpos : 0 < l.length := length_pos_iff.mpr h
      have hrest := ih (l.drop k).length (by rw [length_drop]; omega) (l.drop k) rfl
      rw [chunks_of_ne_nil hk h,flatten_cons,hrest,take_append_drop]

theorem length_le_of_mem_chunks {p : List α} (h : p ∈ chunks k l) : p.length ≤ k := by
  rw [chunks] at h
  obtain ⟨i,hi,rfl⟩ := getElem_of_mem h
  rw [length_pieces] at hi
  have hget := getElem?_pieces (k := k) (l := l) hi
  rw [getElem?_eq_getElem (by rwa [length_pieces]),Option.some.injEq] at hget
  rw [hget]
  exact length_take_le _ _

theorem mem_of_mem_chunks (hk : 0 < k) {p : List α} {x : α} (h : p ∈ chunks k l) (hx : x ∈ p) :
    x ∈ l := by
  rw [← flatten_chunks hk l]
  exact mem_flatten.mpr ⟨p,h,hx⟩

end Framework
