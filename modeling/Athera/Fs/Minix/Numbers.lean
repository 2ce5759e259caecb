import Athera.Fs.Minix.Volume

/-!
# Allocated numbers

The maps on the disk are longer than the number of usable bits: the search goes on to the same place
in the last word of the map.
-/

namespace Athera.Minix

open Framework

section

variable {words : List BitWord} {bits : Nat}

/-- The allocation answers with a valid number whose bit was clear and sets that bit only, and it
answers with nothing exactly when no valid number is free. -/
def AllocExact (words words' : List BitWord) (valid : UInt16 → Prop) (bit : UInt16 → Nat)
    (r : Option UInt16) : Prop :=
  (∀ x, r = some x → valid x ∧ bitAt words (bit x) = false ∧
    ∀ i, bitAt words' i = (decide (i = bit x) || bitAt words i)) ∧
  (r = none ↔ ∀ x, valid x → bitAt words (bit x) = true)

/-- The search cannot end behind the usable bits: there are none to begin with, or one of them is
clear, or the bits behind them that the search reaches are all set. -/
def SearchEnds (words : List BitWord) (bits : Nat) : Prop :=
  bits ≤ 1 ∨ (∃ i, 1 ≤ i ∧ i < bits ∧ bitAt words i = false) ∨
    ∀ i, bits ≤ i → i < scanLimit words.length bits → bitAt words i = true

/-- The valid numbers stand for the bits from 1 to the capacity. -/
structure Numbering (bits : Nat) (valid : UInt16 → Prop) (bit : UInt16 → Nat)
    (number : Nat → UInt16) : Prop where
  bit_mem : ∀ x, valid x → 1 ≤ bit x ∧ bit x < bits
  number_valid : ∀ i, 1 ≤ i → i < bits → valid (number i)
  bit_number : ∀ i, 1 ≤ i → i < bits → bit (number i) = i

variable {valid : UInt16 → Prop} {bit : UInt16 → Nat} {number : Nat → UInt16}

section

variable (hn : Numbering bits valid bit number)
include hn

theorem allocExact_none :
    AllocExact words words valid bit none ↔ ∀ i, 1 ≤ i → i < bits → bitAt words i = true := by
  constructor
  · intro h i hle hlt
    have hset := h.2.mp rfl (number i) (hn.number_valid i hle hlt)
    rwa [hn.bit_number i hle hlt] at hset
  · intro h
    constructor
    · intro x hx
      cases hx
    · constructor
      · intro _ x hx
        have hmem := hn.bit_mem x hx
        exact h _ hmem.1 hmem.2
      · intro _
        rfl

theorem allocExact_some {i : Nat} (hle : 1 ≤ i)
    (hlt : i < bits) (hfits : bits ≤ words.length*wordBits) (hclear : bitAt words i = false) :
    AllocExact words (setBit words i) valid bit (some (number i)) := by
  constructor
  · intro x hx
    cases hx
    rw [hn.bit_number i hle hlt]
    have hin : i < words.length*wordBits := hlt.trans_le hfits
    exact ⟨hn.number_valid i hle hlt,hclear,fun j => bitAt_setBit hin⟩
  · constructor
    · intro h
      cases h
    · intro h
      have hset := h (number i) (hn.number_valid i hle hlt)
      rw [hn.bit_number i hle hlt,hclear] at hset
      cases hset

/-- The allocation is exact if and only if the search cannot end behind the usable bits. -/
theorem allocExact_iff (hfits : bits ≤ words.length*wordBits) :
    AllocExact words ((BitMapView.mk words bits hfits).allocFrom 1).2.words valid bit
      (((BitMapView.mk words bits hfits).allocFrom 1).1.map number) ↔ SearchEnds words bits := by
  have hlimit := le_scanLimit_bits hfits
  rw [BitMapView.allocFrom,BitMapView.findFreeFrom,scanWords_spec hfits]
  by_cases hone : bits ≤ 1
  · rw [if_pos hone,Option.map_none,allocExact_none hn]
    constructor
    · intro _
      exact .inl hone
    · omega
  · rw [if_neg hone]
    cases hfind : firstIn (fun i => bitAt words i != true) 1 (scanLimit words.length bits) with
    | none =>
      rw [firstIn_eq_none] at hfind
      have hset : ∀ i, 1 ≤ i → i < scanLimit words.length bits → bitAt words i = true := by
        intro i hle hlt
        simpa using hfind i hle hlt
      rw [Option.map_none,allocExact_none hn]
      constructor
      · intro _
        exact .inr (.inr fun i hle hlt => hset i (by omega) hlt)
      · intro _ i hle hlt
        exact hset i hle (hlt.trans_le hlimit)
    | some i =>
      rw [firstIn_eq_some] at hfind
      obtain ⟨hclear,hle,hlt,hbefore⟩ := hfind
      have hclear : bitAt words i = false := by simpa using hclear
      have hbefore : ∀ j, 1 ≤ j → j < i → bitAt words j = true := by
        intro j hj hji
        simpa using hbefore j hj hji
      by_cases hin : i < bits
      · constructor
        · intro _
          exact .inr (.inl ⟨i,hle,hin,hclear⟩)
        · intro _
          exact allocExact_some hn hle hin hfits hclear
      · constructor
        · intro h
          -- a valid number has its bit before the place where the search ended
          have hx := h.1 (number i) rfl
          have hmem := hn.bit_mem _ hx.1
          rw [hbefore _ hmem.1 (by omega)] at hx
          cases hx.2.1
        · intro h
          rcases h with h | ⟨j,hj,hjb,hjc⟩ | h
          · exact absurd h hone
          · rw [hbefore j hj (by omega)] at hjc
            cases hjc
          · rw [h i (by omega) hlt] at hclear
            cases hclear

end

end

variable {sb : SuperBlock} {m : Memory}

theorem eight_dvd_wrap {n : Nat} (h : 8 ∣ n) : 8 ∣ wrap n := by
  exact (Nat.dvd_mod_iff (by decide)).mpr h

theorem eight_dvd_zoneSize (sb : SuperBlock) : 8 ∣ sb.zoneSize := by
  apply eight_dvd_wrap
  exact Dvd.dvd.mul_right (by decide) _

theorem withBitmap_words {α : Type} {a n bits : Nat} (hn : 8 ∣ n)
    (hbits : bits ≤ (mapWords m a n).length*wordBits) {f : BitMapView → α × BitMapView}
    (hlen : (f ⟨mapWords m a n,bits,hbits⟩).2.words.length = (mapWords m a n).length) :
    (withBitmap a n bits f m).1 = (f ⟨mapWords m a n,bits,hbits⟩).1 ∧
      mapWords (withBitmap a n bits f m).2 a n = (f ⟨mapWords m a n,bits,hbits⟩).2.words := by
  rw [withBitmap_eq hbits]
  constructor
  · rfl
  · apply mapWords_store
    rw [hlen,length_mapWords]
    omega

theorem length_allocFrom (v : BitMapView) (start : Nat) :
    (v.allocFrom start).2.words.length = v.words.length := by
  rw [BitMapView.allocFrom]
  cases v.findFreeFrom start with
  | none => rfl
  | some i => exact length_setBit

theorem zone_numbering (h : sb.firstDataZone.toNat ≤ sb.nzones.toNat) :
    Numbering (zmapBits sb) sb.IsData sb.zoneBit
      fun bit => UInt16.ofNat (bit+sb.firstDataZone.toNat-1) := by
  have hn : sb.nzones.toNat < 2^16 := sb.nzones.toNat_lt
  have hbits : zmapBits sb = sb.nzones.toNat-sb.firstDataZone.toNat+1 := by
    rw [zmapBits,wrap]
    simp only [wordRange]
    omega
  have hnat : ∀ i, 1 ≤ i → i < zmapBits sb →
      (UInt16.ofNat (i+sb.firstDataZone.toNat-1)).toNat = i+sb.firstDataZone.toNat-1 := by
    intro i hle hlt
    exact Nat.mod_eq_of_lt (by omega)
  constructor
  · intro z hz
    have hle := hz.1
    have hlt := hz.2
    rw [SuperBlock.zoneBit]
    omega
  · intro i hle hlt
    rw [SuperBlock.IsData,hnat i hle hlt]
    omega
  · intro i hle hlt
    rw [SuperBlock.zoneBit,hnat i hle hlt]
    omega

theorem inode_numbering : Numbering (imapBits sb) sb.IsInode UInt16.toNat UInt16.ofNat := by
  have hn : sb.ninodes.toNat < 2^16 := sb.ninodes.toNat_lt
  have hnat : ∀ i, 1 ≤ i → i < imapBits sb → (UInt16.ofNat i).toNat = i := by
    intro i hle hlt
    rw [imapBits] at hlt
    exact Nat.mod_eq_of_lt (by omega)
  constructor
  · intro ino hi
    exact ⟨hi.1,Nat.lt_succ_of_le hi.2⟩
  · intro i hle hlt
    rw [SuperBlock.IsInode,hnat i hle hlt]
    exact ⟨hle,Nat.le_of_lt_succ hlt⟩
  · exact hnat

/-- Both maps hold the bits they need, and an allocation in either is exact if and only if its
search cannot end behind the usable bits. -/
theorem allocated_numbers_valid (sb : SuperBlock) (m : Memory)
    (hordered : sb.firstDataZone ≤ sb.nzones)
    (himap : sb.ninodes.toNat + 1 ≤ imapBytes sb * 8)
    (hzmap : sb.nzones.toNat - sb.firstDataZone.toNat + 1 ≤ zmapBytes sb * 8) :
    (AllocExact (mapWords m (zmapOffset sb) (zmapBytes sb))
        (mapWords (allocZone sb m).2 (zmapOffset sb) (zmapBytes sb)) sb.IsData sb.zoneBit
        (allocZone sb m).1 ↔
      SearchEnds (mapWords m (zmapOffset sb) (zmapBytes sb)) (zmapBits sb)) ∧
    (AllocExact (mapWords m (imapOffset sb) (imapBytes sb))
        (mapWords (allocInode sb m).2 (imapOffset sb) (imapBytes sb)) sb.IsInode UInt16.toNat
        (allocInode sb m).1 ↔
      SearchEnds (mapWords m (imapOffset sb) (imapBytes sb)) (imapBits sb)) := by
  have hle : sb.firstDataZone.toNat ≤ sb.nzones.toNat := UInt16.le_iff_toNat_le.mp hordered
  have hzeight : 8 ∣ zmapBytes sb := eight_dvd_wrap (Dvd.dvd.mul_left (eight_dvd_zoneSize sb) _)
  have hieight : 8 ∣ imapBytes sb := eight_dvd_wrap (Dvd.dvd.mul_left (eight_dvd_zoneSize sb) _)
  have hzfits : zmapBits sb ≤
      (mapWords m (zmapOffset sb) (zmapBytes sb)).length * wordBits := by
    rw [length_mapWords,zmapBits,wrap]
    simp only [wordRange,wordBits]
    omega
  have hifits : imapBits sb ≤
      (mapWords m (imapOffset sb) (imapBytes sb)).length * wordBits := by
    rw [length_mapWords,imapBits]
    simp only [wordBits]
    omega
  constructor
  · have hwords := withBitmap_words hzeight hzfits
      (f := fun map => ((map.allocFrom 1).1.map fun bit =>
        UInt16.ofNat (bit + sb.firstDataZone.toNat - 1), (map.allocFrom 1).2))
      (length_allocFrom _ 1)
    rw [allocZone,hwords.1,hwords.2]
    exact allocExact_iff (zone_numbering hle) hzfits
  · have hwords := withBitmap_words hieight hifits
      (f := fun map => ((map.allocFrom 1).1.map UInt16.ofNat, (map.allocFrom 1).2))
      (length_allocFrom _ 1)
    rw [allocInode,hwords.1,hwords.2]
    exact allocExact_iff inode_numbering hifits

/-- A disk with 63 data zones, all in use, whose map has clear bits behind them. -/
def fullDisk : SuperBlock where
  ninodes := 32
  nzones := 68
  imapBlocks := 1
  zmapBlocks := 1
  firstDataZone := 5
  logZoneSize := 0
  maxSize := 0
  magic := magicV30
  state := 1

/-- The first 64 bits of the zone map are set. -/
def fullMap : Memory := fun a => if 3072 ≤ a ∧ a < 3080 then 255 else 0

theorem allocated_number_invalid : fullDisk.firstDataZone ≤ fullDisk.nzones ∧
    fullDisk.ninodes.toNat + 1 ≤ imapBytes fullDisk * 8 ∧
    fullDisk.nzones.toNat - fullDisk.firstDataZone.toNat + 1 ≤ zmapBytes fullDisk * 8 ∧
    (allocZone fullDisk fullMap).1 = some fullDisk.nzones ∧
    ¬ fullDisk.IsData fullDisk.nzones := by
  decide +kernel

/-- The same disk, with every bit of both maps set. -/
theorem allocated_numbers_valid_full :
    (AllocExact (mapWords (fun _ => 255) (zmapOffset fullDisk) (zmapBytes fullDisk))
        (mapWords (allocZone fullDisk fun _ => 255).2 (zmapOffset fullDisk) (zmapBytes fullDisk))
        fullDisk.IsData fullDisk.zoneBit (allocZone fullDisk fun _ => 255).1 ↔
      SearchEnds (mapWords (fun _ => 255) (zmapOffset fullDisk) (zmapBytes fullDisk))
        (zmapBits fullDisk)) ∧
    (AllocExact (mapWords (fun _ => 255) (imapOffset fullDisk) (imapBytes fullDisk))
        (mapWords (allocInode fullDisk fun _ => 255).2 (imapOffset fullDisk) (imapBytes fullDisk))
        fullDisk.IsInode UInt16.toNat (allocInode fullDisk fun _ => 255).1 ↔
      SearchEnds (mapWords (fun _ => 255) (imapOffset fullDisk) (imapBytes fullDisk))
        (imapBits fullDisk)) :=
  allocated_numbers_valid fullDisk (fun _ => 255) (by decide) (by decide) (by decide)

end Athera.Minix
