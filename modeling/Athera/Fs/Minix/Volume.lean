import Athera.Fs.Minix.Disk
import Mathlib.Logic.Function.Basic
import Mathlib.Tactic.Linarith
import Mathlib.Tactic.Simps.Basic

/-!
# The volume on a disk

A volume is what the bytes of a disk stand for: an inode for every inode number, the contents of
every data zone and the bits of the two maps.
-/

namespace Athera.Minix

open Framework List Function Memory SuperBlock DiskInode

variable {ino : UInt16}

section

/-- The layout that the file system checker accepts: the maps and the inode table lie before the
first data zone, and the maps are long enough. -/
structure Geometry (sb : SuperBlock) : Prop where
  magic : sb.magic = magicV14 ∨ sb.magic = magicV30
  fits : sb.nzones.toNat * (1024 * 2 ^ sb.logZoneSize.toNat) ≤ 2 ^ 32
  table : (2 + sb.imapBlocks.toNat + sb.zmapBlocks.toNat) * sb.zoneSize +
    sb.ninodes.toNat * DiskInode.diskSize ≤ sb.firstDataZone.toNat * sb.zoneSize
  ordered : sb.firstDataZone.toNat ≤ sb.nzones.toNat
  imap : sb.ninodes.toNat + 1 ≤ sb.imapBlocks.toNat * sb.zoneSize * 8
  zmap : sb.nzones.toNat - sb.firstDataZone.toNat + 1 ≤ sb.zmapBlocks.toNat * sb.zoneSize * 8

namespace SuperBlock

def IsData (sb : SuperBlock) (zone : UInt16) : Prop :=
  sb.firstDataZone.toNat ≤ zone.toNat ∧ zone.toNat < sb.nzones.toNat

instance (sb : SuperBlock) (zone : UInt16) : Decidable (sb.IsData zone) := instDecidableAnd

def IsInode (sb : SuperBlock) (ino : UInt16) : Prop := 1 ≤ ino.toNat ∧ ino.toNat ≤ sb.ninodes.toNat

instance (sb : SuperBlock) (ino : UInt16) : Decidable (sb.IsInode ino) := instDecidableAnd

def zoneBit (sb : SuperBlock) (zone : UInt16) : Nat := zone.toNat - sb.firstDataZone.toNat + 1

def zoneCount (sb : SuperBlock) : Nat := sb.nzones.toNat - sb.firstDataZone.toNat

end SuperBlock

variable {sb : SuperBlock}

theorem tableBlocks_toNat (h : 2+sb.imapBlocks.toNat+sb.zmapBlocks.toNat < 2^16) :
    (2+sb.imapBlocks+sb.zmapBlocks).toNat = 2+sb.imapBlocks.toNat+sb.zmapBlocks.toNat := by
  rw [UInt16.toNat_add,UInt16.toNat_add]
  simp only [UInt16.reduceToNat]
  omega

namespace Geometry

section

variable (g : Geometry sb) {z : UInt16}
include g

theorem zoneSize_pos : 0 < sb.zoneSize := by
  apply Nat.pos_of_ne_zero
  intro h
  have hmap := g.imap
  rw [h] at hmap
  omega

theorem two_le_first : 2+sb.imapBlocks.toNat+sb.zmapBlocks.toNat ≤ sb.firstDataZone.toNat :=
  Nat.le_of_mul_le_mul_right ((Nat.le_add_right _ _).trans g.table) g.zoneSize_pos

theorem log_lt : sb.logZoneSize.toNat < 22 := by
  by_contra hge
  have hpow : 2^22 ≤ 2^sb.logZoneSize.toNat := Nat.pow_le_pow_right (by norm_num) (by omega)
  have hzones : 2 ≤ sb.nzones.toNat := by
    have h := g.two_le_first
    have ho := g.ordered
    omega
  have hmul : 2*(1024*2^22) ≤ sb.nzones.toNat*(1024*2^sb.logZoneSize.toNat) :=
    Nat.mul_le_mul hzones (Nat.mul_le_mul_left _ hpow)
  have hfits := g.fits
  omega

theorem zoneSize_eq : sb.zoneSize = 1024*2^sb.logZoneSize.toNat := by
  have hlog := g.log_lt
  have hpow : 2^sb.logZoneSize.toNat < 2^22 := Nat.pow_lt_pow_right (by norm_num) hlog
  rw [zoneSize,Nat.mod_eq_of_lt (by omega),wrap_of_lt]
  simp only [wordRange]
  omega

theorem zones_le : sb.nzones.toNat*sb.zoneSize ≤ 2^32 := by
  rw [g.zoneSize_eq]
  exact g.fits

theorem zone_dvd : 1024 ∣ sb.zoneSize := ⟨_,g.zoneSize_eq⟩

theorem first_le : sb.firstDataZone.toNat*sb.zoneSize ≤ 2^32 :=
  (Nat.mul_le_mul_right _ g.ordered).trans g.zones_le

private theorem wrap_meta {n : Nat} (h : n ≤ sb.firstDataZone.toNat) :
    wrap (n*sb.zoneSize) = n*sb.zoneSize := by
  apply wrap_of_lt
  have hle := (Nat.mul_le_mul_right sb.zoneSize h).trans g.first_le
  simp only [wordRange]
  omega

theorem imapOffset_eq : imapOffset sb = 2*sb.zoneSize := by
  have h := g.two_le_first
  exact g.wrap_meta (by omega)

theorem imapBytes_eq : imapBytes sb = sb.imapBlocks.toNat*sb.zoneSize := by
  have h := g.two_le_first
  exact g.wrap_meta (by omega)

theorem zmapOffset_eq : zmapOffset sb = (2+sb.imapBlocks.toNat)*sb.zoneSize := by
  have h := g.two_le_first
  exact g.wrap_meta (by omega)

theorem zmapBytes_eq : zmapBytes sb = sb.zmapBlocks.toNat*sb.zoneSize := by
  have h := g.two_le_first
  exact g.wrap_meta (by omega)

theorem zmapBits_eq : zmapBits sb = sb.zoneCount+1 := by
  have h := g.ordered
  have hn : sb.nzones.toNat < 2^16 := sb.nzones.toNat_lt
  rw [zmapBits,wrap,zoneCount]
  simp only [wordRange]
  omega

theorem tableOffset_eq : sb.inodeTableOffset =
    (2+sb.imapBlocks.toNat+sb.zmapBlocks.toNat)*sb.zoneSize := by
  have h := g.two_le_first
  have hf : sb.firstDataZone.toNat < 2^16 := sb.firstDataZone.toNat_lt
  rw [inodeTableOffset,tableBlocks_toNat (by omega)]
  exact g.wrap_meta h

theorem imap_end : imapOffset sb+imapBytes sb = zmapOffset sb := by
  rw [g.imapOffset_eq,g.imapBytes_eq,g.zmapOffset_eq]
  ring

theorem zmap_end : zmapOffset sb+zmapBytes sb = sb.inodeTableOffset := by
  rw [g.zmapOffset_eq,g.zmapBytes_eq,g.tableOffset_eq]
  ring

theorem table_end : sb.inodeTableOffset+sb.ninodes.toNat*DiskInode.diskSize ≤
    sb.firstDataZone.toNat*sb.zoneSize := by
  rw [g.tableOffset_eq]
  exact g.table

theorem inodeOffset_eq (h : sb.IsInode ino) :
    inodeOffset sb ino = sb.inodeTableOffset+(ino.toNat-1)*DiskInode.diskSize := by
  have hle : (1 : UInt16) ≤ ino := UInt16.le_iff_toNat_le.mpr h.1
  have hsub : (ino-1).toNat = ino.toNat-1 := UInt16.toNat_sub_of_le _ _ hle
  have hmul : (ino.toNat-1)*diskSize ≤ sb.ninodes.toNat*diskSize :=
    Nat.mul_le_mul_right _ ((Nat.sub_le _ _).trans h.2)
  have hend := g.table_end
  have hfirst := g.first_le
  rw [inodeOffset,hsub,wrap_of_lt]
  simp only [wordRange]
  omega

theorem inodeOffset_mem (h : sb.IsInode ino) :
    sb.inodeTableOffset ≤ inodeOffset sb ino ∧ inodeOffset sb ino+DiskInode.diskSize ≤
      sb.inodeTableOffset+sb.ninodes.toNat*DiskInode.diskSize := by
  have hi := h.1
  have hn := h.2
  rw [g.inodeOffset_eq h]
  simp only [diskSize]
  omega

theorem inodeOffset_apart {i j : UInt16} (hi : sb.IsInode i) (hj : sb.IsInode j)
    (h : i ≠ j) : inodeOffset sb i+DiskInode.diskSize ≤ inodeOffset sb j ∨
      inodeOffset sb j+DiskInode.diskSize ≤ inodeOffset sb i := by
  have hne : i.toNat ≠ j.toNat := fun he => h (UInt16.toNat_inj.mp he)
  have hi' := hi.1
  have hj' := hj.1
  rw [g.inodeOffset_eq hi,g.inodeOffset_eq hj]
  simp only [diskSize]
  omega

theorem zoneOffset_eq (h : sb.IsData z) : zoneOffset sb z = z.toNat*sb.zoneSize := by
  apply wrap_of_lt
  have hle := (Nat.mul_le_mul_right sb.zoneSize h.2.le).trans g.zones_le
  simp only [wordRange]
  omega

theorem first_le_zoneOffset (h : sb.IsData z) :
    sb.firstDataZone.toNat*sb.zoneSize ≤ zoneOffset sb z := by
  rw [g.zoneOffset_eq h]
  exact Nat.mul_le_mul_right _ h.1

theorem zoneOffset_apart {z' : UInt16} (h : sb.IsData z) (h' : sb.IsData z')
    (hne : z ≠ z') : zoneOffset sb z+sb.zoneSize ≤ zoneOffset sb z' ∨
      zoneOffset sb z' + sb.zoneSize ≤ zoneOffset sb z := by
  have hnat : z.toNat ≠ z'.toNat := fun he => hne (UInt16.toNat_inj.mp he)
  rw [g.zoneOffset_eq h,g.zoneOffset_eq h',← Nat.succ_mul,← Nat.succ_mul]
  cases Nat.lt_or_gt_of_ne hnat with
  | inl hlt => exact .inl (Nat.mul_le_mul_right _ hlt)
  | inr hgt => exact .inr (Nat.mul_le_mul_right _ hgt)

theorem imap_words (m : Memory) :
    (mapWords m (imapOffset sb) (imapBytes sb)).length*8 = imapBytes sb := by
  obtain ⟨k,hk⟩ := g.zone_dvd
  rw [length_mapWords,g.imapBytes_eq,hk,Nat.mul_left_comm]
  omega

theorem zmap_words (m : Memory) :
    (mapWords m (zmapOffset sb) (zmapBytes sb)).length*8 = zmapBytes sb := by
  obtain ⟨k,hk⟩ := g.zone_dvd
  rw [length_mapWords,g.zmapBytes_eq,hk,Nat.mul_left_comm]
  omega

theorem imapBits_le (m : Memory) :
    imapBits sb ≤ (mapWords m (imapOffset sb) (imapBytes sb)).length*wordBits := by
  have h := g.imap_words m
  have hmap := g.imap
  rw [← g.imapBytes_eq] at hmap
  rw [imapBits]
  simp only [wordBits]
  omega

theorem zmapBits_le (m : Memory) :
    zmapBits sb ≤ (mapWords m (zmapOffset sb) (zmapBytes sb)).length*wordBits := by
  have h := g.zmap_words m
  have hmap := g.zmap
  rw [← g.zmapBytes_eq] at hmap
  rw [g.zmapBits_eq,zoneCount]
  simp only [wordBits]
  omega

theorem zero_not_data : ¬ sb.IsData 0 := by
  intro h
  have hfirst := g.two_le_first
  have hle := h.1
  rw [UInt16.toNat_zero] at hle
  omega

end

theorem zoneBit_inj (_ : Geometry sb) {z' : UInt16} (h : sb.IsData z) (h' : sb.IsData z')
    (he : sb.zoneBit z = sb.zoneBit z') : z = z' := by
  have hle := h.1
  have hle' := h'.1
  simp only [zoneBit] at he
  apply UInt16.toNat_inj.mp
  omega

theorem zoneBit_lt (g : Geometry sb) (h : sb.IsData z) :
    1 ≤ sb.zoneBit z ∧ sb.zoneBit z < zmapBits sb := by
  have hle := h.1
  have hlt := h.2
  rw [g.zmapBits_eq]
  simp only [zoneBit,zoneCount]
  omega

end Geometry

end

section

@[ext] structure Volume where
  inode : UInt16 → DiskInode
  zone : UInt16 → List UInt8
  imap : Nat → Bool
  zmap : Nat → Bool

/-- What a disk stands for. Numbers that name no inode or no data zone stand for nothing. -/
def view (sb : SuperBlock) (m : Memory) : Volume where
  inode ino := if sb.IsInode ino then readInode sb m ino else .zero
  zone z := if sb.IsData z then readZone sb m z else []
  imap := bitAt (mapWords m (imapOffset sb) (imapBytes sb))
  zmap := bitAt (mapWords m (zmapOffset sb) (zmapBytes sb))

namespace Volume

def Allocated (sb : SuperBlock) (v : Volume) (ino : UInt16) : Prop :=
  sb.IsInode ino ∧ v.imap ino.toNat = true

instance (sb : SuperBlock) (v : Volume) (ino : UInt16) : Decidable (v.Allocated sb ino) :=
  instDecidableAnd

def InUse (sb : SuperBlock) (v : Volume) (z : UInt16) : Prop :=
  sb.IsData z ∧ v.zmap (sb.zoneBit z) = true

instance (sb : SuperBlock) (v : Volume) (z : UInt16) : Decidable (v.InUse sb z) := instDecidableAnd

/-- The bits beyond the usable range are set, in the words that are on the disk. -/
structure Padded (sb : SuperBlock) (v : Volume) : Prop where
  imap : ∀ i, imapBits sb ≤ i → i < imapBytes sb * 8 → v.imap i = true
  zmap : ∀ i, zmapBits sb ≤ i → i < zmapBytes sb * 8 → v.zmap i = true

@[simps -fullyApplied] def setInode (v : Volume) (ino : UInt16) (inode : DiskInode) : Volume :=
  { v with inode := Function.update v.inode ino inode }

@[simps -fullyApplied] def setZone (v : Volume) (z : UInt16) (bytes : List UInt8) : Volume :=
  { v with zone := Function.update v.zone z bytes }

def setImap (v : Volume) (bits : Nat → Bool) : Volume := { v with imap := bits }

def setZmap (v : Volume) (bits : Nat → Bool) : Volume := { v with zmap := bits }

@[simps! -fullyApplied] def markInode (v : Volume) (ino : UInt16) (b : Bool) : Volume :=
  v.setImap (Function.update v.imap ino.toNat b)

@[simps! -fullyApplied] def markZone (sb : SuperBlock) (v : Volume) (z : UInt16) (b : Bool) : Volume :=
  v.setZmap (Function.update v.zmap (sb.zoneBit z) b)

def freeZones (sb : SuperBlock) (v : Volume) : Nat :=
  countBelow (fun i => !v.zmap (i + 1)) sb.zoneCount

end Volume

variable {sb : SuperBlock} {m m' : Memory}

theorem view_inode (h : sb.IsInode ino) : (view sb m).inode ino = readInode sb m ino := if_pos h

theorem view_zone (h : sb.IsData z) : (view sb m).zone z = readZone sb m z := if_pos h

theorem view_imap : (view sb m).imap = bitAt (mapWords m (imapOffset sb) (imapBytes sb)) := rfl

theorem view_zmap : (view sb m).zmap = bitAt (mapWords m (zmapOffset sb) (zmapBytes sb)) := rfl

theorem length_view_zone (h : sb.IsData z) : ((view sb m).zone z).length = sb.zoneSize := by
  rw [view_zone h,readZone,readZoneInto,length_slice]

theorem view_inode_congr (g : Geometry sb) (h : ∀ a, sb.inodeTableOffset ≤ a →
    a < sb.inodeTableOffset+sb.ninodes.toNat*DiskInode.diskSize → m' a = m a) :
    (view sb m').inode = (view sb m).inode := by
  funext ino
  simp only [view]
  by_cases hi : sb.IsInode ino
  · rw [if_pos hi,if_pos hi,readInode,readInode,slice_congr]
    intro i hlt
    have hmem := g.inodeOffset_mem hi
    apply h <;> omega
  · rw [if_neg hi,if_neg hi]

theorem view_zone_congr (g : Geometry sb)
    (h : ∀ a, sb.firstDataZone.toNat*sb.zoneSize ≤ a → m' a = m a) :
    (view sb m').zone = (view sb m).zone := by
  funext z
  simp only [view]
  by_cases hz : sb.IsData z
  · rw [if_pos hz,if_pos hz,readZone,readZone,readZoneInto,readZoneInto,slice_congr]
    intro i _
    exact h _ ((g.first_le_zoneOffset hz).trans (Nat.le_add_right _ _))
  · rw [if_neg hz,if_neg hz]

theorem view_imap_congr (g : Geometry sb)
    (h : ∀ a, imapOffset sb ≤ a → a < zmapOffset sb → m' a = m a) :
    (view sb m').imap = (view sb m).imap := by
  simp only [view]
  rw [mapWords_congr]
  intro i hi
  have hend := g.imap_end
  apply h <;> omega

theorem view_zmap_congr (g : Geometry sb)
    (h : ∀ a, zmapOffset sb ≤ a → a < sb.inodeTableOffset → m' a = m a) :
    (view sb m').zmap = (view sb m).zmap := by
  simp only [view]
  rw [mapWords_congr]
  intro i hi
  have hend := g.zmap_end
  apply h <;> omega

end

variable {words : List BitWord}

section

variable {sb : SuperBlock} {m : Memory}

section

variable (g : Geometry sb)
include g

theorem view_writeInode (h : sb.IsInode ino) (inode : DiskInode) :
    view sb (writeInode sb ino inode m) = (view sb m).setInode ino inode := by
  have hmem := g.inodeOffset_mem h
  have hend := g.table_end
  have hzmap := g.zmap_end
  have hout : ∀ a, a < sb.inodeTableOffset ∨ sb.inodeTableOffset+sb.ninodes.toNat*diskSize ≤ a →
      writeInode sb ino inode m a = m a := by
    intro a ha
    rw [writeInode,store_apply,length_encode,if_neg (by omega)]
  apply Volume.ext
  · funext j
    simp only [Volume.setInode]
    by_cases hj : sb.IsInode j
    · rw [view_inode hj,readInode]
      by_cases hji : j = ino
      · subst hji
        have hself := slice_store_self m (inodeOffset sb j) inode.encode
        rw [length_encode] at hself
        rw [update_self,writeInode,hself,decode_encode]
      · rw [update_of_ne hji,view_inode hj,readInode,writeInode,slice_store_apart]
        rw [length_encode]
        exact g.inodeOffset_apart h hj (Ne.symm hji)
    · have hne : j ≠ ino := fun he => hj (he ▸ h)
      rw [update_of_ne hne]
      simp only [view,if_neg hj]
  · exact view_zone_congr g fun a ha => hout a (.inr (hend.trans ha))
  · exact view_imap_congr g fun a _ ha => hout a (.inl (by omega))
  · exact view_zmap_congr g fun a _ ha => hout a (.inl ha)

theorem view_storeZone (h : sb.IsData z) {k : Nat}
    {bytes : List UInt8} (hk : k+bytes.length ≤ sb.zoneSize) :
    view sb (m.store (zoneOffset sb z+k) bytes) =
      (view sb m).setZone z (patch ((view sb m).zone z) k bytes) := by
  have hfirst := g.first_le_zoneOffset h
  have hend := g.table_end
  have hzmap := g.zmap_end
  have hout : ∀ a, a < sb.firstDataZone.toNat*sb.zoneSize →
      m.store (zoneOffset sb z+k) bytes a = m a := by
    intro a ha
    rw [store_apply,if_neg (by omega)]
  apply Volume.ext
  · exact view_inode_congr g fun a _ ha => hout a (by omega)
  · funext y
    simp only [Volume.setZone]
    by_cases hy : sb.IsData y
    · by_cases hyz : y = z
      · subst hyz
        rw [update_self,view_zone hy,view_zone hy,← store_patch_slice hk]
        have hlen : (patch (m.slice (zoneOffset sb y) sb.zoneSize) k bytes).length = sb.zoneSize := by
          rw [length_patch (by rwa [length_slice]),length_slice]
        have hself := slice_store_self m (zoneOffset sb y)
          (patch (m.slice (zoneOffset sb y) sb.zoneSize) k bytes)
        rwa [hlen] at hself
      · have hapart := g.zoneOffset_apart h hy (Ne.symm hyz)
        rw [update_of_ne hyz,view_zone hy,view_zone hy]
        exact slice_store_apart (by omega)
    · have hne : y ≠ z := fun he => hy (he ▸ h)
      rw [update_of_ne hne]
      simp only [view,if_neg hy]
  · exact view_imap_congr g fun a _ ha => hout a (by omega)
  · exact view_zmap_congr g fun a _ ha => hout a (by omega)

theorem view_writeZone (h : sb.IsData z) {bytes : List UInt8} (hlen : bytes.length = sb.zoneSize) :
    view sb (writeZone sb z bytes m) = (view sb m).setZone z bytes := by
  have hstore := @view_storeZone sb m g z h 0 bytes (by omega)
  have hall : patch ((view sb m).zone z) 0 bytes = bytes := by
    have hzone := @length_view_zone sb m z h
    rw [patch,take_zero,nil_append,drop_eq_nil_of_le (by omega),append_nil]
  rw [hall] at hstore
  exact hstore

theorem view_storeImap (h : words.length = (mapWords m (imapOffset sb) (imapBytes sb)).length) :
    view sb (m.store (imapOffset sb) (wordBytes words)) = (view sb m).setImap (bitAt words) := by
  have hwords : words.length*8 = imapBytes sb := by rw [h,g.imap_words]
  have himap := g.imap_end
  have hzmap := g.zmap_end
  have hend := g.table_end
  have hout : ∀ a, zmapOffset sb ≤ a → m.store (imapOffset sb) (wordBytes words) a = m a := by
    intro a ha
    rw [store_apply,length_wordBytes,if_neg (by omega)]
  apply Volume.ext
  · exact view_inode_congr g fun a ha _ => hout a (by omega)
  · exact view_zone_congr g fun a ha => hout a (by omega)
  · rw [view_imap,mapWords_store hwords,Volume.setImap]
  · exact view_zmap_congr g fun a ha _ => hout a ha

theorem view_storeZmap (h : words.length = (mapWords m (zmapOffset sb) (zmapBytes sb)).length) :
    view sb (m.store (zmapOffset sb) (wordBytes words)) = (view sb m).setZmap (bitAt words) := by
  have hwords : words.length*8 = zmapBytes sb := by rw [h,g.zmap_words]
  have hzmap := g.zmap_end
  have hend := g.table_end
  have hout : ∀ a, a < zmapOffset sb ∨ sb.inodeTableOffset ≤ a →
      m.store (zmapOffset sb) (wordBytes words) a = m a := by
    intro a ha
    rw [store_apply,length_wordBytes,if_neg (by omega)]
  apply Volume.ext
  · exact view_inode_congr g fun a ha _ => hout a (.inr ha)
  · exact view_zone_congr g fun a ha => hout a (.inr (by omega))
  · exact view_imap_congr g fun a _ ha => hout a (.inl ha)
  · rw [view_zmap,mapWords_store hwords,Volume.setZmap]

end

end

variable {sb : SuperBlock} {m m' : Memory}

variable {i : Nat}

private theorem bitAt_setBit_update
    (h : i < words.length*wordBits) : bitAt (setBit words i) = Function.update (bitAt words) i true := by
  funext j
  rw [bitAt_setBit h]
  by_cases hj : j = i
  · simp [hj]
  · simp [hj]

private theorem bitAt_clearBit_update
    (h : i < words.length*wordBits) : bitAt (clearBit words i) = Function.update (bitAt words) i false := by
  funext j
  rw [bitAt_clearBit h]
  by_cases hj : j = i
  · simp [hj]
  · simp [hj]

section

variable (g : Geometry sb)
include g

theorem Volume.freeZones_eq_zero {v : Volume} :
    v.freeZones sb = 0 ↔ ∀ i, 1 ≤ i → i < zmapBits sb → v.zmap i = true := by
  rw [Volume.freeZones,countBelow_eq_zero,g.zmapBits_eq]
  constructor
  · intro h i hle hlt
    have hi := h (i-1) (by omega)
    rw [Nat.sub_add_cancel hle] at hi
    simpa using hi
  · intro h j hj
    rw [h (j+1) (by omega) (by omega)]
    rfl

theorem Volume.freeZones_markZone {v : Volume} (hz : sb.IsData z)
    (hfree : v.zmap (sb.zoneBit z) = false) :
    (v.markZone sb z true).freeZones sb+1 = v.freeZones sb := by
  have hbit := g.zoneBit_lt hz
  rw [g.zmapBits_eq] at hbit
  have hsub : sb.zoneBit z-1+1 = sb.zoneBit z := Nat.sub_add_cancel hbit.1
  symm
  apply countBelow_insert (i := sb.zoneBit z-1) (by omega)
  · simp [hsub]
  · simp [hsub,hfree]
  · intro j hj
    have hne : j+1 ≠ sb.zoneBit z := by omega
    simp [hne]

section

variable (hp : (view sb m).Padded sb)
include hp

private theorem zmap_padded : ∀ i, zmapBits sb ≤ i →
    i < (mapWords m (zmapOffset sb) (zmapBytes sb)).length*wordBits →
    bitAt (mapWords m (zmapOffset sb) (zmapBytes sb)) i = true := by
  intro i hle hlt
  have hwords := g.zmap_words m
  apply hp.zmap i hle
  simp only [wordBits] at hlt
  omega

private theorem imap_padded : ∀ i, imapBits sb ≤ i →
    i < (mapWords m (imapOffset sb) (imapBytes sb)).length*wordBits →
    bitAt (mapWords m (imapOffset sb) (imapBytes sb)) i = true := by
  intro i hle hlt
  have hwords := g.imap_words m
  apply hp.imap i hle
  simp only [wordBits] at hlt
  omega

theorem allocZone_some
    (h : allocZone sb m = (some z, m')) : sb.IsData z ∧ (view sb m).zmap (sb.zoneBit z) = false ∧
      view sb m' = (view sb m).markZone sb z true := by
  rcases withBitmap_alloc_cases (g.zmapBits_le m) (zmap_padded g hp) _ h with
    ⟨hr,_⟩ | ⟨i,hr,hi,hfree,rfl⟩
  · cases hr
  · have hn := sb.nzones.toNat_lt
    have hcount := g.zmapBits_eq
    simp only [zoneCount] at hcount
    have hz : z.toNat = i+sb.firstDataZone.toNat-1 := by
      rw [Option.some.inj hr]
      exact Nat.mod_eq_of_lt (by omega)
    have hbit : sb.zoneBit z = i := by
      simp only [zoneBit]
      omega
    refine ⟨⟨by omega,by omega⟩,hbit.symm ▸ hfree,?_⟩
    rw [view_storeZmap g length_setBit,bitAt_setBit_update (hi.2.trans_le (g.zmapBits_le m)),
      Volume.markZone,hbit,view_zmap]

theorem allocZone_none
    (h : allocZone sb m = (none, m')) : (view sb m).freeZones sb = 0 ∧ view sb m' = view sb m := by
  rcases withBitmap_alloc_cases (g.zmapBits_le m) (zmap_padded g hp) _ h with
    ⟨_,hfull,rfl⟩ | ⟨i,hr,_⟩
  · refine ⟨(Volume.freeZones_eq_zero g).mpr hfull,?_⟩
    rw [view_storeZmap g rfl]
    rfl
  · cases hr

end

theorem view_freeZone (hz : sb.IsData z) :
    view sb (freeZone sb z m) = (view sb m).markZone sb z false := by
  have hlt := g.zoneBit_lt hz
  have hin : ¬ (z < sb.firstDataZone ∨ sb.nzones ≤ z) := by
    rw [UInt16.lt_iff_toNat_lt,UInt16.le_iff_toNat_le]
    have hle := hz.1
    have hlt := hz.2
    omega
  rw [zoneBit] at hlt
  rw [freeZone,if_neg hin,withBitmap_clear (g.zmapBits_le m) hlt.2,view_storeZmap g length_clearBit,
    bitAt_clearBit_update (hlt.2.trans_le (g.zmapBits_le m)),Volume.markZone,view_zmap,zoneBit]

theorem allocInode_some (hp : (view sb m).Padded sb)
    (h : allocInode sb m = (some ino, m')) : sb.IsInode ino ∧ (view sb m).imap ino.toNat = false ∧
      view sb m' = (view sb m).markInode ino true := by
  rcases withBitmap_alloc_cases (g.imapBits_le m) (imap_padded g hp) _ h with
    ⟨hr,_⟩ | ⟨i,hr,hi,hfree,rfl⟩
  · cases hr
  · have hn : sb.ninodes.toNat < 2^16 := sb.ninodes.toNat_lt
    have hbits : imapBits sb = sb.ninodes.toNat+1 := rfl
    have hino : ino.toNat = i := by
      rw [Option.some.inj hr]
      exact Nat.mod_eq_of_lt (by omega)
    refine ⟨⟨by omega,by omega⟩,hino.symm ▸ hfree,?_⟩
    rw [view_storeImap g length_setBit,bitAt_setBit_update (hi.2.trans_le (g.imapBits_le m)),
      Volume.markInode,hino,view_imap]

theorem allocInode_none (hp : (view sb m).Padded sb) (h : allocInode sb m = (none, m')) :
    (∀ ino, sb.IsInode ino → (view sb m).imap ino.toNat = true) ∧ view sb m' = view sb m := by
  rcases withBitmap_alloc_cases (g.imapBits_le m) (imap_padded g hp) _ h with
    ⟨_,hfull,rfl⟩ | ⟨i,hr,_⟩
  · refine ⟨fun ino hino => hfull ino.toNat hino.1 (Nat.lt_succ_of_le hino.2),?_⟩
    rw [view_storeImap g rfl]
    rfl
  · cases hr

theorem view_freeInode (h : sb.IsInode ino) :
    view sb (freeInode sb ino m) = (view sb m).markInode ino false := by
  have hlt : ino.toNat < imapBits sb := Nat.lt_succ_of_le h.2
  have hin : ¬ (ino = 0 ∨ sb.ninodes < ino) := by
    rw [UInt16.lt_iff_toNat_lt,← UInt16.toNat_inj,UInt16.toNat_zero]
    have hle := h.1
    have hge := h.2
    omega
  rw [freeInode,if_neg hin,withBitmap_clear (g.imapBits_le m) hlt,view_storeImap g length_clearBit,
    bitAt_clearBit_update (hlt.trans_le (g.imapBits_le m)),Volume.markInode,view_imap]

end

theorem bitAt_of_ones {k n : Nat}
    (h : words.drop k = List.replicate n (BitVec.allOnes 64)) (hle : k*wordBits ≤ i)
    (hlt : i < (k+n)*wordBits) : bitAt words i = true := by
  have hge : k ≤ i/wordBits := (Nat.le_div_iff_mul_le (by decide)).mpr hle
  have hdiv : i/wordBits < k+n := (Nat.div_lt_iff_lt_mul (by decide)).mpr hlt
  have hmod : i%wordBits < wordBits := Nat.mod_lt _ (by decide)
  have hget : words[i/wordBits]? = some (BitVec.allOnes 64) := by
    have hdrop := @List.getElem?_drop _ words k (i/wordBits-k)
    rw [h,getElem?_replicate,if_pos (by omega),Nat.add_sub_cancel' hge] at hdrop
    exact hdrop.symm
  rw [bitAt,getD_eq_getElem?_getD,hget,Option.getD_some,BitVec.getLsbD_allOnes]
  exact decide_eq_true hmod

/-- From some word on all bits are set, and the bits behind the usable ones are set before it. -/
theorem Volume.Padded.of_ones (k n k' n' : Nat)
    (hi : (mapWords m (imapOffset sb) (imapBytes sb)).drop k = List.replicate n (BitVec.allOnes 64))
    (hz : (mapWords m (zmapOffset sb) (zmapBytes sb)).drop k' =
      List.replicate n' (BitVec.allOnes 64))
    (hin : imapBytes sb*8 ≤ (k+n)*wordBits) (hzn : zmapBytes sb*8 ≤ (k' + n')*wordBits)
    (hik : ∀ i < k*wordBits, imapBits sb ≤ i → (view sb m).imap i = true)
    (hzk : ∀ i < k' * wordBits, zmapBits sb ≤ i → (view sb m).zmap i = true) :
    (view sb m).Padded sb where
  imap i hle hlt := by
    by_cases hbefore : i < k*wordBits
    · exact hik i hbefore hle
    · exact bitAt_of_ones hi (by omega) (by omega)
  zmap i hle hlt := by
    by_cases hbefore : i < k' * wordBits
    · exact hzk i hbefore hle
    · exact bitAt_of_ones hz (by omega) (by omega)

theorem Volume.Padded.markInode {v : Volume} (h : v.Padded sb)
    (hi : sb.IsInode ino) (b : Bool) : (v.markInode ino b).Padded sb where
  imap i hle hlt := by
    have hne : i ≠ ino.toNat := by
      have hbit := hi.2
      rw [imapBits] at hle
      omega
    simp only [Volume.markInode,Volume.setImap,update_of_ne hne]
    exact h.imap i hle hlt
  zmap := h.zmap

end Athera.Minix
