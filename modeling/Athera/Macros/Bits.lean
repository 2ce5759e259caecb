import Athera.Framework.Fields

/-!
# Generated bit fields

The accessors that `bits!` generates for a word of any width.
-/

namespace Athera.Bits

open Framework BitVec

variable {w : Nat}

/-- The field `from => to`. -/
structure Field (w : Nat) where
  lo : Nat
  hi : Nat
  le : lo ≤ hi
  lt : hi < w

namespace Field

def get (f : Field w) (r : BitVec w) : BitVec w := getField r f.lo f.hi

def set (f : Field w) (r v : BitVec w) : BitVec w := setField r f.lo f.hi v

/-- The setter of the builder. -/
def bset (f : Field w) (r v : BitVec w) : BitVec w := setField r f.lo f.hi v

def Disjoint (f g : Field w) : Prop := f.hi < g.lo ∨ g.hi < f.lo

def Within (g f : Field w) : Prop := f.lo ≤ g.lo ∧ g.hi ≤ f.hi

variable (f g : Field w) (r v u : BitVec w)

theorem getLsbD_get (i : Nat) :
    (f.get r).getLsbD i = (decide (i ≤ f.hi-f.lo) && r.getLsbD (f.lo+i)) :=
  getLsbD_getField f.lt f.le

theorem getLsbD_set (i : Nat) : (f.set r v).getLsbD i =
    if f.lo ≤ i ∧ i ≤ f.hi then v.getLsbD (i-f.lo) else r.getLsbD i :=
  getLsbD_setField f.lt f.le

theorem toNat_get_set : (f.get (f.set r v)).toNat = v.toNat%2^(f.hi-f.lo+1) := by
  have hle := f.le
  have hlt := f.lt
  rw [get,set,getField_setField hlt hle,toNat_and,toNat_lowBits (by omega),
    Nat.and_two_pow_sub_one_eq_mod]

theorem set_get : f.set r (f.get r) = r := by
  apply eq_of_getLsbD_eq
  intro i _
  rw [getLsbD_set,getLsbD_get]
  split
  next hin => simp [show i-f.lo ≤ f.hi-f.lo by omega,show f.lo+(i-f.lo) = i by omega]
  next => rfl

theorem set_set : f.set (f.set r v) u = f.set r u := by
  apply eq_of_getLsbD_eq
  intro i _
  simp only [getLsbD_set]
  split <;> rfl

variable {f g}

theorem Disjoint.set_comm (h : f.Disjoint g) : f.set (g.set r u) v = g.set (f.set r v) u := by
  apply eq_of_getLsbD_eq
  intro i _
  simp only [getLsbD_set]
  rcases h with h | h <;> split_ifs <;> first | rfl | omega

theorem Disjoint.get_set (h : f.Disjoint g) : g.get (f.set r v) = g.get r := by
  apply eq_of_getLsbD_eq
  intro i _
  have hle := g.le
  rw [getLsbD_get,getLsbD_get,getLsbD_set]
  by_cases hin : i ≤ g.hi-g.lo
  · rw [if_neg (by rcases h with h | h <;> omega)]
  · simp [hin]

theorem Within.get_eq (h : g.Within f) : g.get r = getField (f.get r) (g.lo-f.lo) (g.hi-f.lo) := by
  obtain ⟨hlo,hhi⟩ := h
  have hle := g.le
  have hlt := g.lt
  apply eq_of_getLsbD_eq
  intro i _
  rw [getLsbD_get,getLsbD_getField (by omega) (by omega),getLsbD_get,
    show f.lo+(g.lo-f.lo+i) = g.lo+i by omega, show g.hi-f.lo-(g.lo-f.lo) = g.hi-g.lo by omega]
  by_cases hin : i ≤ g.hi-g.lo
  · simp [show g.lo-f.lo+i ≤ f.hi-f.lo by omega]
  · simp [hin]

end Field

def bit (i : Nat) (h : i < w) : Field w := ⟨i,i,le_rfl,h⟩

theorem lowBits_one (h : 0 < w) : lowBits w 1 = 1#w := by
  apply eq_of_toNat_eq
  rw [toNat_lowBits h,toNat_one h]
  rfl

theorem setFlag_eq (r : BitVec w) {i : Nat} (h : i < w) (b : Bool) :
    setFlag r i b = (bit i h).set r (if b then 1#w else 0#w) := by
  rw [Field.set,bit,setField,fieldMask,Nat.sub_self,lowBits_one (by omega),setFlag]
  cases b <;> simp

theorem getFlag_eq_get (r : BitVec w) {i : Nat} (h : i < w) :
    getFlag r i = ((bit i h).get r).getLsbD 0 := by
  rw [getFlag_eq h,Field.getLsbD_get]
  simp [bit]

/-- What is set is read back, up to the width of the field; disjoint fields are independent; a field
inside another reads a slice of it; a single bit is the field of this bit. -/
theorem bits_lens_laws (f : Field w) (r v u : BitVec w) :
    (f.get (f.set r v)).toNat = v.toNat % 2 ^ (f.hi - f.lo + 1) ∧
    f.set r (f.get r) = r ∧ f.set (f.set r v) u = f.set r u ∧ f.bset r v = f.set r v ∧
    (∀ g : Field w, f.Disjoint g →
      f.set (g.set r u) v = g.set (f.set r v) u ∧ g.get (f.set r v) = g.get r) ∧
    (∀ g : Field w, g.Within f → g.get r = getField (f.get r) (g.lo - f.lo) (g.hi - f.lo)) ∧
    ∀ i (h : i < w), getFlag r i = ((bit i h).get r).getLsbD 0 ∧
      ∀ b, setFlag r i b = (bit i h).set r (if b then 1#w else 0#w) :=
  ⟨f.toNat_get_set r v,f.set_get r,f.set_set r v u,rfl,
    fun _ hg => ⟨hg.set_comm r v u,hg.get_set r v⟩,fun _ hg => hg.get_eq r,
    fun _ h => ⟨getFlag_eq_get r h,setFlag_eq r h⟩⟩

def pageOffset : Field 64 := ⟨0,11,by decide,by decide⟩

def vpn0 : Field 64 := ⟨12,20,by decide,by decide⟩

def vpn : Field 64 := ⟨12,38,by decide,by decide⟩

theorem bits_lens_laws_vpn :
    (vpn.get (vpn.set 0x8000_0abc#64 0xf800_0001#64)).toNat = 1 ∧
      pageOffset.get (vpn.set 0x8000_0abc#64 0xf800_0001#64) = pageOffset.get 0x8000_0abc#64 ∧
      vpn0.get 0x8000_0abc#64 = getField (vpn.get 0x8000_0abc#64) 0 8 :=
  have h := bits_lens_laws vpn 0x8000_0abc#64 0xf800_0001#64 0#64
  ⟨h.1,(h.2.2.2.2.1 pageOffset (.inr (by decide))).2,h.2.2.2.2.2.1 vpn0 ⟨by decide,by decide⟩⟩

end Athera.Bits
