import Mathlib.Data.List.Pairwise
import Mathlib.Order.Lattice

/-!
# Ordered association lists

The entries of a map in strictly ascending order of their keys, over any linear order.
-/

namespace Framework

open List

namespace Assoc

variable {κ β : Type*} [LinearOrder κ]

def Sorted (es : List (κ × β)) : Prop := es.Pairwise fun a b => a.1 < b.1

def find (k : κ) : List (κ × β) → Option β
  | [] => none
  | e :: es => if e.1 = k then some e.2 else find k es

def put (k : κ) (v : β) : List (κ × β) → List (κ × β)
  | [] => [(k, v)]
  | e :: es =>
    if k < e.1 then (k, v) :: e :: es
    else if k = e.1 then (k, v) :: es
    else e :: put k v es

def erase (k : κ) (es : List (κ × β)) : List (κ × β) := es.filter fun e => e.1 ≠ k

variable {es es' : List (κ × β)} {k k' : κ} {v : β}

theorem mem_of_find (h : find k es = some v) : (k, v) ∈ es := by
  induction es with
  | nil => exact absurd h (by simp [find])
  | cons e es ih =>
    rw [find] at h
    split at h
    next he =>
      rw [← he,← Option.some.inj h]
      exact mem_cons_self
    next => exact mem_cons_of_mem _ (ih h)

theorem Sorted.find_of_mem (hs : Sorted es) (h : (k, v) ∈ es) : find k es = some v := by
  induction es with
  | nil => exact absurd h not_mem_nil
  | cons e es ih =>
    obtain ⟨hhead,htail⟩ := pairwise_cons.mp hs
    rw [find]
    rcases mem_cons.mp h with rfl | h
    · rw [if_pos rfl]
    · rw [if_neg (ne_of_lt (hhead _ h))]
      exact ih htail h

theorem mem_put {e : κ × β} (h : e ∈ put k v es) : e = (k, v) ∨ e ∈ es := by
  induction es with
  | nil => exact .inl (mem_singleton.mp h)
  | cons e' es ih =>
    rw [put] at h
    split at h
    · exact mem_cons.mp h
    · split at h
      · exact (mem_cons.mp h).imp_right (mem_cons_of_mem _)
      · rcases mem_cons.mp h with rfl | h
        · exact .inr mem_cons_self
        · exact (ih h).imp_right (mem_cons_of_mem _)

theorem mem_put_self (k : κ) (v : β) (es : List (κ × β)) : (k, v) ∈ put k v es := by
  induction es with
  | nil => exact mem_singleton_self _
  | cons e es ih =>
    rw [put]
    split
    · exact mem_cons_self
    · split
      · exact mem_cons_self
      · exact mem_cons_of_mem _ ih

theorem Sorted.put (hs : Sorted es) (k : κ) (v : β) : Sorted (put k v es) := by
  induction es with
  | nil => exact pairwise_singleton _ _
  | cons e es ih =>
    obtain ⟨hhead,htail⟩ := pairwise_cons.mp hs
    rw [Assoc.put]
    split
    next hlt =>
      refine pairwise_cons.mpr ⟨fun e' he' => ?_,hs⟩
      rcases mem_cons.mp he' with rfl | he'
      · exact hlt
      · exact lt_trans hlt (hhead e' he')
    next hge =>
      split
      next heq =>
        subst heq
        exact pairwise_cons.mpr ⟨hhead,htail⟩
      next hne =>
        refine pairwise_cons.mpr ⟨fun e' he' => ?_,ih htail⟩
        rcases mem_put he' with rfl | he'
        · exact lt_of_le_of_ne (not_lt.mp hge) (Ne.symm hne)
        · exact hhead e' he'

theorem Sorted.erase (hs : Sorted es) (k : κ) : Sorted (erase k es) := List.Pairwise.filter _ hs

theorem find_put : find k' (put k v es) = if k' = k then some v else find k' es := by
  induction es with
  | nil =>
    by_cases h : k' = k
    · simp [put,find,h]
    · simp [put,find,h,Ne.symm h]
  | cons e es ih =>
    rw [put]
    split
    · rw [find]
      by_cases h : k' = k
      · rw [if_pos h.symm,if_pos h]
      · rw [if_neg (Ne.symm h),if_neg h]
    · split
      next heq =>
        rw [find,find,← heq]
        by_cases h : k' = k
        · rw [if_pos h.symm,if_pos h]
        · rw [if_neg (Ne.symm h),if_neg h]
          exact (if_neg (Ne.symm h)).symm
      next hne =>
        rw [find,find,ih]
        by_cases h : e.1 = k'
        · have hk : k' ≠ k := fun hk => hne (hk.symm.trans h.symm)
          rw [if_pos h,if_pos h,if_neg hk]
        · rw [if_neg h,if_neg h]

theorem find_erase : find k' (erase k es) = if k' = k then none else find k' es := by
  induction es with
  | nil =>
    by_cases h : k' = k
    · rw [if_pos h]
      rfl
    · rw [if_neg h]
      rfl
  | cons e es ih =>
    rw [erase,filter_cons]
    by_cases he : e.1 = k
    · rw [if_neg (by simp [he]),← erase,ih,find]
      by_cases h : k' = k
      · rw [if_pos h,if_pos h]
      · rw [if_neg h,if_neg h,if_neg (fun heq => h (heq.symm.trans he))]
    · rw [if_pos (by simp [he]),← erase,find,find,ih]
      by_cases h : e.1 = k'
      · rw [if_pos h,if_pos h,if_neg (fun hk => he (h.trans hk))]
      · rw [if_neg h,if_neg h]

theorem Sorted.ext (hs : Sorted es) (hs' : Sorted es') (h : ∀ k, find k es = find k es') : es = es' := by
  have hmem : ∀ e, e ∈ es ↔ e ∈ es' := by
    intro e
    constructor
    · intro he
      have hfind := hs.find_of_mem he
      rw [h] at hfind
      exact mem_of_find hfind
    · intro he
      have hfind := hs'.find_of_mem he
      rw [← h] at hfind
      exact mem_of_find hfind
  have hperm : es.Perm es' := by
    rw [perm_ext_iff_of_nodup]
    · exact hmem
    · exact List.Pairwise.imp (fun hlt heq => ne_of_lt hlt (congrArg Prod.fst heq)) hs
    · exact List.Pairwise.imp (fun hlt heq => ne_of_lt hlt (congrArg Prod.fst heq)) hs'
  exact hperm.eq_of_pairwise (fun a b _ _ hab hba => absurd hab (lt_asymm hba)) hs hs'

end Assoc

end Framework
