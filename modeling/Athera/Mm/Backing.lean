import Mathlib.Tactic.IntervalCases
import Athera.Mm.Frame

/-!
# How many bytes back a request

`alloc_frames` collects blocks of the largest order and one last block, whose size is a power of
two.
-/

namespace Athera

open Framework

theorem blockSize_pos (n : Nat) : 0 < blockSize n := orderSize_pos _

theorem sizeToOrder_lt (n : Nat) : sizeToOrder n < buddyMaxOrder := by
  unfold sizeToOrder
  simp only
  split
  · decide
  · simp only [buddyMaxOrder]
    omega

variable {n : Nat}

theorem blockSize_of_le (hpos : 0 < n) (h : n ≤ topSize) : n ≤ blockSize n := by
  have hlt : n < wordRange := lt_of_le_of_lt h (by decide)
  have htop : topSize = 2^22 := orderSize_eq _
  have hlog : ilog2Ceil n ≤ 22 := (ilog2Ceil_le_iff hpos hlt).mpr (htop ▸ h)
  unfold blockSize sizeToOrder
  simp only [pageSizeLog2_eq]
  by_cases hsmall : ilog2Ceil n ≤ 12
  · rw [if_pos hsmall]
    exact (ilog2Ceil_le_iff hpos hlt).mp hsmall
  · have hmin : min (ilog2Ceil n-12) (buddyMaxOrder-1) = ilog2Ceil n-12 := by
      simp only [buddyMaxOrder]
      omega
    rw [if_neg hsmall,hmin,orderSize_eq,Nat.sub_add_cancel (by omega)]
    exact (ilog2Ceil_le_iff hpos hlt).mp (le_refl _)

theorem blockSize_of_gt (hlt : n < wordRange) (h : topSize < n) : blockSize n = topSize := by
  have htop : topSize = 2^22 := orderSize_eq _
  have hlog : ¬ ilog2Ceil n ≤ 22 := by
    rw [ilog2Ceil_le_iff (by omega) hlt]
    omega
  have hmin : min (ilog2Ceil n-12) (buddyMaxOrder-1) = buddyMaxOrder-1 := by
    simp only [buddyMaxOrder]
    omega
  unfold blockSize sizeToOrder
  simp only [pageSizeLog2_eq]
  rw [if_neg (by omega),hmin]
  rfl

theorem le_sum_segmentSizes {fuel : Nat} (hf : n ≤ fuel) (hlt : n < wordRange) :
    n ≤ (segmentSizes fuel n).sum := by
  induction fuel generalizing n with
  | zero => omega
  | succ fuel ih =>
    rw [segmentSizes]
    by_cases h0 : n = 0
    · omega
    · rw [if_neg h0,List.sum_cons]
      have hpos := blockSize_pos n
      have hrest := ih (n := n-blockSize n) (by omega) (by omega)
      omega

theorem le_backing (hlt : n < wordRange) : n ≤ backing n :=
  le_sum_segmentSizes (le_refl n) hlt

variable {k : Nat}

theorem sizeToOrder_orderSize (hk : k < buddyMaxOrder) : sizeToOrder (orderSize k) = k := by
  simp only [buddyMaxOrder] at hk
  interval_cases k <;> decide

theorem blockSize_orderSize (hk : k < buddyMaxOrder) : blockSize (orderSize k) = orderSize k := by
  rw [blockSize,sizeToOrder_orderSize hk]

theorem sizeToOrder_le_iff (hpos : 0 < n) (hlt : n < wordRange)
    (hk : k < buddyMaxOrder-1) : sizeToOrder n ≤ k ↔ n ≤ orderSize k := by
  rw [orderSize_eq,← ilog2Ceil_le_iff hpos hlt]
  unfold sizeToOrder
  simp only [pageSizeLog2_eq] at hk ⊢
  split <;> omega

theorem blockSize_ceil (hpos : 0 < n) (hlt : n+pageSize ≤ wordRange) :
    blockSize ((n+(pageSize-1))/pageSize*pageSize) = blockSize n := by
  have hsame : ∀ k < buddyMaxOrder-1,
      sizeToOrder ((n+(pageSize-1))/pageSize*pageSize) ≤ k ↔ sizeToOrder n ≤ k := by
    intro k hk
    have hdvd : pageSize ∣ orderSize k := orderSize_dvd (Nat.zero_le k)
    rw [sizeToOrder_le_iff _ _ hk,sizeToOrder_le_iff hpos _ hk]
    all_goals simp only [pageSize] at *
    all_goals omega
  have h1 := sizeToOrder_lt n
  have h2 := sizeToOrder_lt ((n+(pageSize-1))/pageSize*pageSize)
  rw [blockSize]
  congr 1
  rcases Nat.lt_trichotomy (sizeToOrder n)
    (sizeToOrder ((n+(pageSize-1))/pageSize*pageSize)) with h | h | h
  · have := (hsame (sizeToOrder n) (by omega)).mpr (le_refl _)
    omega
  · exact h.symm
  · have := (hsame _ (by omega)).mp (le_refl _)
    omega

theorem sum_segmentSizes_eq {fuel : Nat} (hf : n ≤ fuel) (hlt : n < wordRange) :
    (segmentSizes fuel n).sum =
      n/topSize*topSize+if n%topSize = 0 then 0 else blockSize (n%topSize) := by
  have htop : 0 < topSize := orderSize_pos _
  induction fuel generalizing n with
  | zero =>
    obtain rfl : n = 0 := by omega
    simp [segmentSizes]
  | succ fuel ih =>
    rw [segmentSizes]
    by_cases h0 : n = 0
    · subst n
      simp
    · have hpos := blockSize_pos n
      rw [if_neg h0,List.sum_cons,ih (by omega) (by omega)]
      by_cases hsmall : n < topSize
      · have hle := blockSize_of_le (by omega) (le_of_lt hsmall)
        rw [Nat.sub_eq_zero_of_le hle,Nat.div_eq_of_lt hsmall,Nat.mod_eq_of_lt hsmall,if_neg h0]
        simp
      · have hblock : blockSize n = topSize := by
          rcases Nat.lt_or_ge topSize n with hgt | hle
          · exact blockSize_of_gt hlt hgt
          · rw [show n = topSize by omega]
            exact blockSize_orderSize (by decide)
        have hdiv := Nat.div_eq_sub_div htop (Nat.le_of_not_lt hsmall)
        have hmod := Nat.mod_eq_sub_mod (Nat.le_of_not_lt hsmall)
        rw [hblock,hdiv,← hmod,Nat.add_mul]
        omega

/-- The blocks behind a request: as many of the largest order as fit, and one for the rest. -/
theorem backing_eq (hlt : n < wordRange) :
    backing n = n/topSize*topSize+if n%topSize = 0 then 0 else blockSize (n%topSize) :=
  sum_segmentSizes_eq (le_refl n) hlt

/-- Blocks of the largest order, and at most one smaller block. -/
def WholeBlocks (n : Nat) : Prop :=
  n % topSize = 0 ∨ ∃ k < buddyMaxOrder, n % topSize = orderSize k

instance (n : Nat) : Decidable (WholeBlocks n) :=
  inferInstanceAs (Decidable (n % topSize = 0 ∨ ∃ k < buddyMaxOrder, n % topSize = orderSize k))

/-- Exactly the sizes made of whole blocks get no bytes on top. -/
theorem backing_eq_iff (hlt : n < wordRange) : backing n = n ↔ WholeBlocks n := by
  have hdm := Nat.div_add_mod' n topSize
  rw [backing_eq hlt,WholeBlocks]
  by_cases h0 : n%topSize = 0
  · simp only [h0,if_true,true_or,iff_true]
    omega
  · rw [if_neg h0]
    constructor
    · intro h
      right
      have hr : n%topSize = blockSize (n%topSize) := by omega
      exact ⟨_,sizeToOrder_lt _,hr⟩
    · rintro (h | ⟨k,hk,h⟩)
      · exact absurd h h0
      · rw [h,blockSize_orderSize hk]
        omega

theorem backing_ceil (hlt : n+pageSize ≤ wordRange) :
    backing ((n+(pageSize-1))/pageSize*pageSize) = backing n := by
  have htop : topSize = 4194304 := by decide
  have hlast : blockSize 4194304 = 4194304 := htop ▸ blockSize_orderSize (by decide)
  have hblock := fun hpos hle => blockSize_ceil (n := n%topSize) hpos hle
  simp only [htop,pageSize,wordRange] at hlt hblock ⊢
  rw [backing_eq (by simp only [wordRange]; omega),backing_eq (by simp only [wordRange]; omega),htop]
  by_cases h0 : n%4194304 = 0
  · have hceil : (n+(4096-1))/4096*4096 = n := by omega
    rw [hceil]
  · have hsame := hblock (by omega) (by omega)
    by_cases hfull : (n%4194304+(4096-1))/4096*4096 = 4194304
    · have hq : (n+(4096-1))/4096*4096/4194304 = n/4194304+1 := by omega
      have hr : (n+(4096-1))/4096*4096%4194304 = 0 := by omega
      rw [hfull,hlast] at hsame
      rw [hq,if_pos hr,if_neg h0,← hsame,Nat.add_mul]
    · have hq : (n+(4096-1))/4096*4096/4194304 = n/4194304 := by omega
      have hr : (n+(4096-1))/4096*4096%4194304 = (n%4194304+(4096-1))/4096*4096 := by omega
      rw [hq,hr,hsame,if_neg h0,if_neg (by omega)]

theorem backing_of_le_pageSize (hpos : 0 < n) (h : n ≤ pageSize) : backing n = pageSize := by
  have hceil : (n+(pageSize-1))/pageSize*pageSize = pageSize := by
    simp only [pageSize] at h ⊢
    omega
  have hpage := (backing_eq_iff (n := pageSize) (by decide)).mpr (by decide)
  have hbound : n+pageSize ≤ wordRange := by
    simp only [pageSize,wordRange] at h ⊢
    omega
  rw [← backing_ceil hbound,hceil]
  exact hpage

end Athera
