import Athera.Framework.Block

/-!
# Byte memory

A memory maps every address to a byte. Words are eight bytes, least significant first.
-/

namespace Framework

open Block

abbrev Memory := Nat → UInt8

namespace Memory

/-- Little-endian value of the `n` bytes from `a`. -/
def readBytes (m : Memory) (a : Nat) : Nat → Nat
  | 0 => 0
  | n + 1 => (m a).toNat + 256 * readBytes m (a + 1) n

def wordSize : Nat := 8

def readWord (m : Memory) (a : Nat) : Nat := m.readBytes a wordSize

def writeWord (m : Memory) (a w : Nat) : Memory := fun x =>
  if x ∈ mk a wordSize then UInt8.ofNat (w / 256 ^ (x - a)) else m x

/-- `ptr::write_bytes`: every byte of the block becomes `v`. -/
def fill (m : Memory) (a : Nat) (v : UInt8) (n : Nat) : Memory := fun x =>
  if x ∈ mk a n then v else m x

/-- `ptr::copy`: the destination block receives the bytes the source block held before. -/
def copy (m : Memory) (src dst n : Nat) : Memory := fun x =>
  if x ∈ mk dst n then m (src + (x - dst)) else m x

/-- The bytes are written one after the other. -/
def store (m : Memory) (a : Nat) (bytes : List UInt8) : Memory := fun x =>
  if x ∈ mk a bytes.length then bytes.getD (x - a) 0 else m x

def AgreeOn (P : Nat → Prop) (m m' : Memory) : Prop := ∀ a, P a → m' a = m a

theorem AgreeOn.refl (P : Nat → Prop) (m : Memory) : AgreeOn P m m := fun _ _ => rfl

variable {m m' : Memory}

theorem AgreeOn.trans {P : Nat → Prop} {m'' : Memory} (h : AgreeOn P m m')
    (h' : AgreeOn P m' m'') : AgreeOn P m m'' := fun a ha => (h' a ha).trans (h a ha)

theorem AgreeOn.mono {P Q : Nat → Prop} (h : AgreeOn P m m')
    (hpq : ∀ a, Q a → P a) : AgreeOn Q m m' := fun a ha => h a (hpq a ha)

theorem readBytes_congr {a n : Nat} (h : ∀ i < n, m' (a+i) = m (a+i)) :
    m'.readBytes a n = m.readBytes a n := by
  induction n generalizing a with
  | zero => rfl
  | succ n ih =>
    have htail : m'.readBytes (a+1) n = m.readBytes (a+1) n := by
      apply ih
      intro i hi
      have hs := h (i+1) (by omega)
      simpa only [Nat.add_assoc,Nat.add_comm 1 i] using hs
    have h0 : m' a = m a := h 0 (by omega)
    simp only [readBytes,htail,h0]

theorem readBytes_lt (m : Memory) (a n : Nat) : m.readBytes a n < 256^n := by
  induction n generalizing a with
  | zero => simp [readBytes]
  | succ n ih =>
    have hb : (m a).toNat < 256 := (m a).toNat_lt
    have ht := ih (a+1)
    simp only [readBytes]
    omega

theorem readBytes_digits {a n w : Nat}
    (h : ∀ i < n, m (a+i) = UInt8.ofNat (w/256^i)) : m.readBytes a n = w%256^n := by
  induction n generalizing a w with
  | zero => simp [readBytes,Nat.mod_one]
  | succ n ih =>
    have htail : m.readBytes (a+1) n = (w/256)%256^n := by
      apply ih
      intro i hi
      have hs := h (i+1) (by omega)
      rw [Nat.pow_succ,Nat.mul_comm,← Nat.div_div_eq_div_mul] at hs
      simpa only [Nat.add_assoc,Nat.add_comm 1 i] using hs
    have h0 : m a = UInt8.ofNat w := by simpa using h 0 (by omega)
    have hbyte : (UInt8.ofNat w).toNat = w%256 := UInt8.toNat_ofNat'
    rw [readBytes,htail,h0,hbyte,Nat.pow_succ,Nat.mul_comm (256^n) 256,Nat.mod_mul]

private theorem word_range : (256 : Nat)^8 = 2^64 := by norm_num

theorem readWord_lt (m : Memory) (a : Nat) : m.readWord a < 2^64 := by
  have h := readBytes_lt m a wordSize
  simpa only [readWord,wordSize,word_range] using h

theorem readWord_writeWord_self (m : Memory) (a w : Nat) :
    (m.writeWord a w).readWord a = w%2^64 := by
  have h : (m.writeWord a w).readBytes a wordSize = w%256^wordSize := by
    apply readBytes_digits
    intro i hi
    simp [writeWord,hi]
  simpa only [readWord,wordSize,word_range] using h

theorem readWord_congr {a : Nat} (h : AgreeOn (· ∈ mk a wordSize) m m') :
    m'.readWord a = m.readWord a := by
  apply readBytes_congr
  intro i hi
  exact h (a+i) (by simp only [mem_iff]; omega)

variable {x : Nat}

section

variable (m : Memory)

theorem writeWord_outside (a w : Nat) (h : x ∉ mk a wordSize) : m.writeWord a w x = m x := by
  simp only [writeWord,if_neg h]

theorem readWord_writeWord_of_apart {a b : Nat} (w : Nat)
    (h : (mk a wordSize).Apart (mk b wordSize)) :
    (m.writeWord a w).readWord b = m.readWord b :=
  readWord_congr fun _ hx => writeWord_outside m a w (h.symm.not_mem hx)

@[simp] theorem fill_inside (a : Nat) (v : UInt8) (n : Nat)
    (h : x ∈ mk a n) : m.fill a v n x = v := by
  simp only [fill,if_pos h]

@[simp] theorem fill_outside (a : Nat) (v : UInt8) (n : Nat)
    (h : x ∉ mk a n) : m.fill a v n x = m x := by
  simp only [fill,if_neg h]

theorem copy_inside (src dst n : Nat) {i : Nat} (h : i < n) :
    m.copy src dst n (dst+i) = m (src+i) := by
  have hmem : dst+i ∈ mk dst n := by simp only [mem_iff]; omega
  simp only [copy,if_pos hmem,Nat.add_sub_cancel_left]

@[simp] theorem copy_outside (src dst n : Nat) (h : x ∉ mk dst n) : m.copy src dst n x = m x := by
  simp only [copy,if_neg h]

theorem store_outside (a : Nat) (bytes : List UInt8)
    (h : x ∉ mk a bytes.length) : m.store a bytes x = m x := by
  simp only [store,if_neg h]

end

end Memory

end Framework
