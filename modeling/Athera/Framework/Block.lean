import Mathlib.Data.Nat.Bitwise
import Mathlib.Order.Interval.Finset.Nat
import Mathlib.Data.Nat.Log
import Mathlib.Data.List.Pairwise
import Mathlib.Data.Set.Insert
import Mathlib.Tactic.Ring

/-!
# Blocks of addresses

A block is a start and a length: the halves of a power-of-two block, and what exclusive-or with the
size does to the start of an aligned block.
-/

namespace Framework

open List

/-- The addresses `start, ..., start + size - 1`. -/
structure Block where
  start : Nat
  size : Nat
deriving DecidableEq, Repr

variable {a : Nat} {b c : Block}

namespace Block

def stop (b : Block) : Nat := b.start + b.size

instance : Membership Nat Block where
  mem b a := b.start ≤ a ∧ a < b.stop

instance (a : Nat) (b : Block) : Decidable (a ∈ b) :=
  inferInstanceAs (Decidable (b.start ≤ a ∧ a < b.stop))

@[simp] theorem mem_iff : a ∈ b ↔ b.start ≤ a ∧ a < b.start+b.size :=
  Iff.rfl

def Apart (b c : Block) : Prop := b.stop ≤ c.start ∨ c.stop ≤ b.start

instance (b c : Block) : Decidable (Apart b c) :=
  inferInstanceAs (Decidable (b.stop ≤ c.start ∨ c.stop ≤ b.start))

/-- Every address of `b` is an address of the half-open range from `lo` to `hi`. -/
def Within (b : Block) (lo hi : Nat) : Prop := lo ≤ b.start ∧ b.stop ≤ hi

theorem Apart.symm (h : b.Apart c) : c.Apart b := Or.symm h

theorem Apart.not_mem (h : b.Apart c) (ha : a ∈ b) : a ∉ c := by
  intro hc
  simp only [mem_iff] at ha hc
  simp only [Apart,stop] at h
  omega

theorem apart_of_no_common (hb : 0 < b.size) (hc : 0 < c.size)
    (h : ∀ a, a ∈ b → a ∉ c) : b.Apart c := by
  by_contra hn
  simp only [Apart,stop] at hn
  refine h (max b.start c.start) ?_ ?_ <;> simp only [mem_iff] <;> omega

theorem not_apart_self (hb : 0 < b.size) : ¬ b.Apart b := by
  simp only [Apart,stop]
  omega

theorem Apart.ne (h : b.Apart c) (hb : 0 < b.size) : b ≠ c := by
  rintro rfl
  exact not_apart_self hb h

theorem Apart.mono {b' : Block} (h : b.Apart c) (hs : b.start ≤ b'.start)
    (he : b'.stop ≤ b.stop) : b'.Apart c := by
  simp only [Apart] at h he ⊢
  omega

end Block

theorem Block.Apart.join {d : Block} (hb : b.Apart d) (hc : c.Apart d)
    (hadj : b.stop = c.start) (hds : 0 < d.size) : (Block.mk b.start (b.size+c.size)).Apart d := by
  simp only [Block.Apart,Block.stop] at hb hc hadj ⊢
  omega

variable {n : Nat}

theorem Block.sum_size_le {bs : List Block} (hap : bs.Pairwise Block.Apart)
    (hn : ∀ b ∈ bs, b.stop ≤ n) : (bs.map Block.size).sum ≤ n := by
  have hcard : (bs.map Block.size).sum ≤
      ((Finset.range n).filter fun a => ∃ b ∈ bs, a ∈ b).card := by
    induction bs with
    | nil => simp
    | cons b bs ih =>
      obtain ⟨hb,hbs⟩ := pairwise_cons.mp hap
      have hrest := ih hbs fun c hc => hn c (mem_cons_of_mem _ hc)
      have hstop : b.stop ≤ n := hn b mem_cons_self
      have hdisj : Disjoint (Finset.Ico b.start b.stop)
          ((Finset.range n).filter fun a => ∃ c ∈ bs, a ∈ c) := by
        rw [Finset.disjoint_left]
        intro a ha hc
        obtain ⟨_,c,hc,hac⟩ := Finset.mem_filter.mp hc
        exact (hb c hc).not_mem (Finset.mem_Ico.mp ha) hac
      have hsub : Finset.Ico b.start b.stop ∪ ((Finset.range n).filter fun a => ∃ c ∈ bs, a ∈ c) ⊆
          (Finset.range n).filter fun a => ∃ c ∈ b::bs, a ∈ c := by
        intro a ha
        rw [Finset.mem_filter,Finset.mem_range]
        rcases Finset.mem_union.mp ha with ha | ha
        · obtain ⟨hlo,hhi⟩ := Finset.mem_Ico.mp ha
          exact ⟨lt_of_lt_of_le hhi hstop,b,mem_cons_self,hlo,hhi⟩
        · obtain ⟨hlt,c,hc,hac⟩ := Finset.mem_filter.mp ha
          exact ⟨Finset.mem_range.mp hlt,c,mem_cons_of_mem _ hc,hac⟩
      have hle := Finset.card_le_card hsub
      rw [Finset.card_union_of_disjoint hdisj,Nat.card_Ico] at hle
      rw [map_cons,sum_cons]
      simp only [Block.stop] at hle
      omega
  exact le_trans hcard (le_trans (Finset.card_filter_le _ _) (by simp))

section

/-! ## Power-of-two blocks -/

variable {p : Nat}

theorem dvd_of_dvd_two_mul (h : 2*n ∣ p) : n ∣ p :=
  Dvd.dvd.trans (Dvd.intro_left 2 rfl) h

theorem add_le_of_dvd {b : Nat} (ha : n ∣ a) (hb : n ∣ b) (h : a < b) : a+n ≤ b := by
  obtain ⟨i,rfl⟩ := ha
  obtain ⟨j,rfl⟩ := hb
  have hij : i+1 ≤ j := Nat.lt_of_mul_lt_mul_left h
  calc n*i+n = n*(i+1) := (Nat.mul_succ n i).symm
    _ ≤ n*j := Nat.mul_le_mul_left n hij

theorem mod_two_mul_of_dvd (h : n ∣ p) : p%(2*n) = 0 ∨ p%(2*n) = n := by
  obtain ⟨q,rfl⟩ := h
  rw [Nat.mul_comm 2 n,Nat.mul_mod_mul_left]
  rcases Nat.mod_two_eq_zero_or_one q with hq | hq <;> simp [hq]

private theorem xor_one (q : Nat) : q ^^^ 1 = if q%2 = 0 then q+1 else q-1 := by
  have hdiv : (q ^^^ 1)/2 = q/2 := by simp [Nat.xor_div_two]
  have hmod : (q ^^^ 1)%2 = (q+1)%2 := Nat.xor_mod_two_eq
  split <;> omega

variable {k : Nat}

theorem xor_two_pow_of_dvd (h : 2^k ∣ p) : p ^^^ 2^k = if p%(2*2^k) = 0 then p+2^k else p-2^k := by
  obtain ⟨q,rfl⟩ := h
  have hshift : 2^k*q ^^^ 2^k = 2^k*(q ^^^ 1) := by
    have hs := Nat.shiftLeft_xor_distrib (a := q) (b := 1) (i := k)
    simpa only [Nat.shiftLeft_eq,Nat.mul_comm _ (2^k),Nat.mul_one] using hs.symm
  rw [hshift,xor_one,Nat.mul_comm 2 (2^k),Nat.mul_mod_mul_left]
  by_cases hq : q%2 = 0
  · simp [hq,Nat.mul_add]
  · rw [if_neg hq,if_neg (by simpa [Nat.mul_eq_zero] using hq),Nat.mul_sub,Nat.mul_one]

theorem min_xor_two_pow (h : 2^k ∣ p) : min p (p ^^^ 2^k) = p/(2*2^k)*(2*2^k) := by
  have hdm := Nat.div_add_mod p (2*2^k)
  rw [Nat.mul_comm] at hdm
  rw [xor_two_pow_of_dvd h]
  rcases mod_two_mul_of_dvd h with h0 | h0
  · rw [if_pos h0]
    omega
  · rw [if_neg (by omega)]
    omega

theorem xor_two_pow_adjacent (h : 2^k ∣ p) : p ^^^ 2^k = p+2^k ∨ p = (p ^^^ 2^k)+2^k := by
  have hle := Nat.mod_le p (2*2^k)
  rw [xor_two_pow_of_dvd h]
  rcases mod_two_mul_of_dvd h with h0 | h0
  · exact Or.inl (if_pos h0)
  · rw [if_neg (by omega)]
    omega

end

def CoveredBy (bs : List Block) (a : Nat) : Prop := ∃ b ∈ bs, a ∈ b

instance (bs : List Block) (a : Nat) : Decidable (CoveredBy bs a) :=
  inferInstanceAs (Decidable (∃ b ∈ bs, a ∈ b))

/-- The first address is held by a block, and wherever a block ends between `lo` and `hi` the next address
by another one. -/
def Continued (bs : List Block) (lo hi : Nat) : Prop :=
  lo < hi → CoveredBy bs lo ∧ ∀ b ∈ bs, lo < b.stop → b.stop < hi → CoveredBy bs b.stop

theorem covered_range_iff {bs : List Block} {lo hi : Nat} :
    (∀ a, lo ≤ a → a < hi → CoveredBy bs a) ↔ Continued bs lo hi := by
  constructor
  · intro hall hlt
    exact ⟨hall lo le_rfl hlt,fun b _ hlo hhi => hall b.stop (le_of_lt hlo) hhi⟩
  · intro hcont a
    induction a with
    | zero =>
      intro hlo hhi
      obtain rfl := Nat.le_zero.mp hlo
      exact (hcont hhi).1
    | succ a ih =>
      intro hlo hhi
      have hcont := hcont (by omega)
      rcases Nat.lt_or_ge a lo with ha | ha
      · obtain rfl : lo = a+1 := by omega
        exact hcont.1
      · obtain ⟨b,hb,hmem⟩ := ih ha (by omega)
        rcases Nat.lt_or_ge (a+1) b.stop with hin | hend
        · exact ⟨b,hb,by simp only [Block.mem_iff] at hmem; omega,hin⟩
        · have hstop : b.stop = a+1 := by
            have hlt : a < b.stop := hmem.2
            omega
          rw [← hstop]
          exact hcont.2 b hb (by omega) (by omega)

end Framework
