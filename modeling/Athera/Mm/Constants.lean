import Athera.Framework.Word

/-!
# Memory layout constants

The values of `constants/memory.rs` under the shipped `config.toml`. The kernel is built with
wrapping arithmetic.
-/

namespace Athera

open Framework

def pageSize : Nat := 4096

/-- `ilog2_ceil`; the subtraction wraps at zero. -/
def ilog2Ceil (size : Nat) : Nat :=
  if size = 1 then 0 else Nat.log2 (wrap (size + (wordRange - 1))) + 1

/-- `align`: round `addr` up to a multiple of the power of two `align`. -/
def align (addr align : Nat) : Nat := wrap (addr + align - 1) &&& (wordRange - align)

def buddyMaxOrder : Nat := 11
def pageSizeLog2 : Nat := ilog2Ceil pageSize
def slubMaxOrder : Nat := 12
def slubMinOrder : Nat := 4
def cachesMax : Nat := slubMaxOrder - slubMinOrder
def slubMinObjects : Nat := 4
def slubMaxPageSize : Nat := 1 <<< 20
def userStackSize : Nat := pageSize * 8
def userStackTop : Nat := 0x1_0000_0000
def userStackLowerBound : Nat := userStackTop - userStackSize

theorem pageSizeLog2_eq : pageSizeLog2 = 12 := by decide

theorem ilog2Ceil_of_one_lt {size : Nat} (h : 1 < size) (hlt : size < wordRange) :
    ilog2Ceil size = Nat.log2 (size-1)+1 := by
  have hw : wrap (size+(wordRange-1)) = size-1 := by
    have he : size+(wordRange-1) = (size-1)+wordRange := by omega
    rw [wrap,he,Nat.add_mod_right]
    exact Nat.mod_eq_of_lt (by omega)
  rw [ilog2Ceil,if_neg (by omega),hw]

theorem ilog2Ceil_le_iff {size k : Nat} (h : 0 < size) (hlt : size < wordRange) :
    ilog2Ceil size ≤ k ↔ size ≤ 2^k := by
  rcases Nat.lt_or_ge 1 size with h1 | h1
  · rw [ilog2Ceil_of_one_lt h1 hlt,Nat.succ_le_iff,Nat.log2_lt (by omega)]
    omega
  · have hs : size = 1 := by omega
    subst size
    simp [ilog2Ceil,Nat.one_le_two_pow]

theorem align_eq {addr k : Nat} (hk : k ≤ 64) (h : addr+2^k-1 < wordRange) :
    align addr (2^k) = (addr+2^k-1)/2^k*2^k := by
  rw [align,wrap_of_lt h]
  exact land_high_bits h hk

theorem dvd_align {addr k : Nat} (hk : k ≤ 64) : 2^k ∣ align addr (2^k) := by
  have hw : wrap (addr+2^k-1) < 2^64 := wrap_lt _
  have h := land_high_bits hw hk
  rw [align,show wordRange = 2^64 from rfl,h]
  exact Dvd.intro_left _ rfl

theorem le_align {addr k : Nat} (hk : k ≤ 64) (h : addr+2^k-1 < wordRange) :
    addr ≤ align addr (2^k) := by
  have hdm := Nat.div_add_mod (addr+2^k-1) (2^k)
  rw [align_eq hk h,Nat.mul_comm]
  omega

end Athera
