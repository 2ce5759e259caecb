import Athera.Framework.Checked
import Athera.Fs.Minix.Volume

/-!
# Superblocks that break the driver

The disk operations with every overflow detected: a shift by 64 or more, a result that does not fit
in its type, and a buffer larger than any allocation give no result.
-/

namespace Athera.Minix.Checked

open Framework Option

variable (sb : SuperBlock)

/-- `isize::MAX`: a larger buffer is refused with a panic. -/
def maxBuffer : Nat := 2 ^ 63 - 1

/-- `1024 << log_zone_size` with the distance and the lost bits checked. -/
def zoneSize : Option Nat :=
  if sb.logZoneSize.toNat < 64 then checkedMul 1024 (2 ^ sb.logZoneSize.toNat) else none

/-- `2 + imap_blocks + zmap_blocks` in 16 bits. -/
def tableBlocks : Option Nat :=
  let blocks := 2 + sb.imapBlocks.toNat + sb.zmapBlocks.toNat
  if blocks < 2 ^ 16 then some blocks else none

def inodeTableOffset : Option Nat := do
  let blocks ← tableBlocks sb
  let size ← zoneSize sb
  checkedMul blocks size

def inodeOffset (ino : UInt16) : Option Nat := do
  let index ← checkedSub ino.toNat 1
  let offset ← checkedMul index DiskInode.diskSize
  let table ← inodeTableOffset sb
  checkedAdd table offset

def readInode (m : Memory) (ino : UInt16) : Option DiskInode := do
  let offset ← inodeOffset sb ino
  pure (.decode (m.slice offset DiskInode.diskSize))

def writeInode (ino : UInt16) (inode : DiskInode) (m : Memory) : Option Memory := do
  let offset ← inodeOffset sb ino
  pure (m.store offset inode.encode)

def readZoneTable (m : Memory) (zone : UInt16) : Option (List UInt16) := do
  let size ← zoneSize sb
  guard (size ≤ maxBuffer)
  let offset ← checkedMul zone.toNat size
  pure (u16Table (m.slice offset size))

def zoneTable (m : Memory) (zone : UInt16) : Option (List UInt16) :=
  if zone = 0 then some [] else (readZoneTable sb m zone).map (List.takeWhile (· != 0))

def dataZones (m : Memory) (inode : DiskInode) : Option (List UInt16) :=
  let direct := inode.direct.takeWhile (· != 0)
  if direct.length < directZones then some direct
  else do
    let single ← zoneTable sb m inode.single
    let tables ← zoneTable sb m inode.double
    let rest ← tables.mapM (zoneTable sb m)
    pure (direct ++ single ++ rest.flatten)

def withBitmap {α : Type} (mapOffset mapBytes bits : Nat) (f : BitMapView → α × BitMapView)
    (m : Memory) : Option (α × Memory) := do
  guard (mapBytes / 8 * 8 ≤ maxBuffer)
  let capacity ← checkedMul (mapBytes / 8) wordBits
  let map ← BitMapView.newWithCapacity (mapWords m mapOffset mapBytes) (min bits capacity)
  pure ((f map).1, m.store mapOffset (wordBytes (f map).2.words))

def allocInode (m : Memory) : Option (Option UInt16 × Memory) := do
  let size ← zoneSize sb
  let bytes ← checkedMul sb.imapBlocks.toNat size
  let offset ← checkedMul 2 size
  let bits ← checkedAdd sb.ninodes.toNat 1
  withBitmap offset bytes bits
    (fun map => ((map.allocFrom 1).1.map UInt16.ofNat, (map.allocFrom 1).2)) m

def freeInode (ino : UInt16) (m : Memory) : Option Memory :=
  if ino = 0 ∨ sb.ninodes < ino then some m
  else do
    let size ← zoneSize sb
    let bytes ← checkedMul sb.imapBlocks.toNat size
    let offset ← checkedMul 2 size
    let bits ← checkedAdd sb.ninodes.toNat 1
    let r ← withBitmap offset bytes bits (fun map => map.clear ino.toNat) m
    pure r.2

def zmapOffset : Option Nat := do
  let size ← zoneSize sb
  let blocks ← checkedAdd 2 sb.imapBlocks.toNat
  checkedMul blocks size

def zmapBytes : Option Nat := do
  let size ← zoneSize sb
  checkedMul sb.zmapBlocks.toNat size

/-- `nzones - first_data_zone + 1`. -/
def zmapBits : Option Nat := do
  let zones ← checkedSub sb.nzones.toNat sb.firstDataZone.toNat
  checkedAdd zones 1

def allocZone (m : Memory) : Option (Option UInt16 × Memory) := do
  let offset ← zmapOffset sb
  let bytes ← zmapBytes sb
  let bits ← zmapBits sb
  withBitmap offset bytes bits
    (fun map => ((map.allocFrom 1).1.map fun bit =>
      UInt16.ofNat (bit + sb.firstDataZone.toNat - 1), (map.allocFrom 1).2)) m

def freeZone (zone : UInt16) (m : Memory) : Option Memory :=
  if zone < sb.firstDataZone ∨ sb.nzones ≤ zone then some m
  else do
    let offset ← zmapOffset sb
    let bytes ← zmapBytes sb
    let bits ← zmapBits sb
    let index ← checkedSub zone.toNat sb.firstDataZone.toNat
    let r ← withBitmap offset bytes bits (fun map => map.clear (index + 1)) m
    pure r.2

/-- The zone size that the superblock describes. -/
def trueZoneSize : Nat := 1024 * 2 ^ sb.logZoneSize.toNat

/-- Every operation computes its sizes, offsets and counts exactly, and the inode table starts
right after the two maps. -/
structure Safe : Prop where
  zoneSize : zoneSize sb = some (trueZoneSize sb)
  table : inodeTableOffset sb =
    some ((2 + sb.imapBlocks.toNat + sb.zmapBlocks.toNat) * trueZoneSize sb)
  readInode : ∀ m ino, sb.IsInode ino → readInode sb m ino = some (Minix.readInode sb m ino)
  writeInode : ∀ m ino inode, sb.IsInode ino →
    writeInode sb ino inode m = some (Minix.writeInode sb ino inode m)
  dataZones : ∀ m inode, dataZones sb m inode = some (Minix.dataZones sb m inode)
  allocInode : ∀ m, allocInode sb m = some (Minix.allocInode sb m)
  freeInode : ∀ m ino, sb.IsInode ino → freeInode sb ino m = some (Minix.freeInode sb ino m)
  allocZone : ∀ m, allocZone sb m = some (Minix.allocZone sb m)
  freeZone : ∀ m zone, freeZone sb zone m = some (Minix.freeZone sb zone m)

/-- The relations between the fields that nothing checks. -/
structure Sane : Prop where
  log : sb.logZoneSize.toNat ≤ 38
  blocks : 2 + sb.imapBlocks.toNat + sb.zmapBlocks.toNat < 2 ^ 16
  imap : sb.imapBlocks.toNat * trueZoneSize sb * 8 < wordRange
  zmap : sb.zmapBlocks.toNat * trueZoneSize sb * 8 < wordRange
  ordered : sb.firstDataZone.toNat ≤ sb.nzones.toNat

variable {sb}

namespace Sane

variable (h : Sane sb)

include h

theorem size_le : trueZoneSize sb ≤ 2^48 := by
  have hpow : 2^sb.logZoneSize.toNat ≤ 2^38 := Nat.pow_le_pow_right (by decide) h.log
  rw [trueZoneSize]
  omega

theorem mul_lt {n : Nat} (hn : n < 2^16) : n*trueZoneSize sb < wordRange := by
  have hmul : n*trueZoneSize sb ≤ (2^16-1)*2^48 :=
    Nat.mul_le_mul (Nat.le_sub_one_of_lt hn) h.size_le
  simp only [wordRange]
  omega

theorem modelSize : sb.zoneSize = trueZoneSize sb := by
  have hlt := h.size_le
  have hlog := h.log
  rw [SuperBlock.zoneSize,Nat.mod_eq_of_lt (by omega),← trueZoneSize,wrap_of_lt]
  simp only [wordRange]
  omega

theorem zoneSize_eq : zoneSize sb = some sb.zoneSize := by
  have hlt := h.size_le
  have hlog := h.log
  rw [h.modelSize,zoneSize,if_pos (by omega),checkedMul_of_lt,trueZoneSize]
  rw [trueZoneSize] at hlt
  simp only [wordRange]
  omega

theorem checkedMul_eq {n : Nat} (hn : n < 2^16) :
    checkedMul n sb.zoneSize = some (n*sb.zoneSize) := by
  apply checkedMul_of_lt
  rw [h.modelSize]
  exact h.mul_lt hn

theorem wrap_eq {n : Nat} (hn : n < 2^16) : wrap (n*sb.zoneSize) = n*sb.zoneSize := by
  apply wrap_of_lt
  rw [h.modelSize]
  exact h.mul_lt hn

theorem modelTable : sb.inodeTableOffset =
    (2+sb.imapBlocks.toNat+sb.zmapBlocks.toNat)*sb.zoneSize := by
  rw [SuperBlock.inodeTableOffset,tableBlocks_toNat h.blocks]
  exact h.wrap_eq h.blocks

theorem inodeTableOffset_eq : inodeTableOffset sb = some sb.inodeTableOffset := by
  rw [h.modelTable,inodeTableOffset,tableBlocks,h.zoneSize_eq]
  simp only [if_pos h.blocks,bind_eq_bind]
  exact h.checkedMul_eq h.blocks

theorem inodeOffset_eq {ino : UInt16} (hi : sb.IsInode ino) :
    inodeOffset sb ino = some (Minix.inodeOffset sb ino) := by
  have hle : (1 : UInt16) ≤ ino := UInt16.le_iff_toNat_le.mpr hi.1
  have hsub : (ino-1).toNat = ino.toNat-1 := UInt16.toNat_sub_of_le _ _ hle
  have hlt : ino.toNat < 2^16 := ino.toNat_lt
  have hsize := h.size_le
  have htable : sb.inodeTableOffset ≤ (2^16-1)*2^48 := by
    rw [h.modelTable,h.modelSize]
    exact Nat.mul_le_mul (Nat.le_sub_one_of_lt h.blocks) hsize
  rw [inodeOffset,checkedSub_of_le hi.1,h.inodeTableOffset_eq,Minix.inodeOffset,hsub]
  simp only [bind_eq_bind,bind_some,DiskInode.diskSize]
  rw [checkedMul_of_lt (by simp only [wordRange]; omega),bind_some,
    checkedAdd_of_lt (by simp only [wordRange]; omega),wrap_of_lt (by simp only [wordRange]; omega)]

theorem zoneTable_eq (m : Memory) (zone : UInt16) :
    zoneTable sb m zone = some (Minix.zoneTable sb m zone) := by
  have hsize := h.size_le
  have hmax : sb.zoneSize ≤ maxBuffer := by
    rw [h.modelSize,maxBuffer]
    omega
  have hzone : zone.toNat < 2^16 := zone.toNat_lt
  rw [zoneTable,Minix.zoneTable]
  split
  · rfl
  · rw [readZoneTable,h.zoneSize_eq]
    simp only [bind_eq_bind,bind_some,hmax,h.checkedMul_eq hzone]
    rw [Minix.readZoneTable,readZone,readZoneInto,zoneOffset,h.wrap_eq hzone]
    rfl

theorem dataZones_eq (m : Memory) (inode : DiskInode) :
    dataZones sb m inode = some (Minix.dataZones sb m inode) := by
  rw [dataZones,Minix.dataZones]
  simp only [h.zoneTable_eq,bind_eq_bind,bind_some]
  split
  · rfl
  · rw [mapM_of_some (fun zone _ => h.zoneTable_eq m zone)]
    rfl

/-- The buffer of a map is allocated, and its capacity in bits fits in a word. -/
theorem withBitmap_eq {α : Type} {blocks : Nat} (hblocks : blocks*trueZoneSize sb*8 < wordRange)
    (mapOffset bits : Nat) (f : BitMapView → α × BitMapView) (m : Memory) :
    withBitmap mapOffset (blocks*sb.zoneSize) bits f m =
      some (Minix.withBitmap mapOffset (blocks*sb.zoneSize) bits f m) := by
  rw [← h.modelSize] at hblocks
  generalize blocks*sb.zoneSize = bytes at hblocks ⊢
  have hlen := length_mapWords m mapOffset bytes
  have hguard : bytes/8*8 ≤ maxBuffer := by
    simp only [wordRange] at hblocks
    rw [maxBuffer]
    omega
  have hcap : checkedMul (bytes/8) wordBits =
      some ((mapWords m mapOffset bytes).length*wordBits) := by
    rw [hlen]
    apply checkedMul_of_lt
    simp only [wordBits] at *
    omega
  rw [withBitmap,hcap]
  simp only [bind_eq_bind,bind_some,hguard,BitMapView.newWithCapacity,
    dif_pos (Nat.min_le_right bits ((mapWords m mapOffset bytes).length*wordBits))]
  rfl

theorem allocInode_eq (m : Memory) : allocInode sb m = some (Minix.allocInode sb m) := by
  have hi : sb.imapBlocks.toNat < 2^16 := sb.imapBlocks.toNat_lt
  have hn : sb.ninodes.toNat < 2^16 := sb.ninodes.toNat_lt
  rw [allocInode,h.zoneSize_eq,checkedAdd_of_lt (by simp only [wordRange]; omega)]
  simp only [bind_eq_bind,bind_some,h.checkedMul_eq hi,
    h.checkedMul_eq (show 2 < 2^16 by decide),h.withBitmap_eq h.imap]
  rw [Minix.allocInode,imapOffset,imapBytes,imapBits,h.wrap_eq hi,
    h.wrap_eq (show 2 < 2^16 by decide)]

theorem freeInode_eq (m : Memory) (ino : UInt16) :
    freeInode sb ino m = some (Minix.freeInode sb ino m) := by
  have hi : sb.imapBlocks.toNat < 2^16 := sb.imapBlocks.toNat_lt
  have hn : sb.ninodes.toNat < 2^16 := sb.ninodes.toNat_lt
  rw [freeInode,Minix.freeInode]
  split
  · rfl
  · rw [h.zoneSize_eq,checkedAdd_of_lt (by simp only [wordRange]; omega)]
    simp only [bind_eq_bind,bind_some,h.checkedMul_eq hi,
      h.checkedMul_eq (show 2 < 2^16 by decide),h.withBitmap_eq h.imap]
    rw [imapOffset,imapBytes,h.wrap_eq hi,h.wrap_eq (show 2 < 2^16 by decide)]
    rfl

theorem zmapOffset_eq : zmapOffset sb = some (Minix.zmapOffset sb) := by
  have hb := h.blocks
  rw [zmapOffset,h.zoneSize_eq,checkedAdd_of_lt (by simp only [wordRange]; omega)]
  simp only [bind_eq_bind,bind_some]
  rw [h.checkedMul_eq (by omega),Minix.zmapOffset,h.wrap_eq (by omega)]

theorem zmapBytes_eq : zmapBytes sb = some (sb.zmapBlocks.toNat*sb.zoneSize) := by
  rw [zmapBytes,h.zoneSize_eq]
  exact h.checkedMul_eq sb.zmapBlocks.toNat_lt

theorem modelZmapBytes : Minix.zmapBytes sb = sb.zmapBlocks.toNat*sb.zoneSize :=
  h.wrap_eq sb.zmapBlocks.toNat_lt

theorem zmapBits_eq : zmapBits sb = some (Minix.zmapBits sb) := by
  have ho := h.ordered
  have hn : sb.nzones.toNat < 2^16 := sb.nzones.toNat_lt
  have hmodel : Minix.zmapBits sb = sb.nzones.toNat-sb.firstDataZone.toNat+1 := by
    rw [Minix.zmapBits,wrap]
    simp only [wordRange]
    omega
  rw [zmapBits,checkedSub_of_le ho,hmodel]
  exact checkedAdd_of_lt (by simp only [wordRange]; omega)

theorem allocZone_eq (m : Memory) : allocZone sb m = some (Minix.allocZone sb m) := by
  rw [allocZone,h.zmapOffset_eq,h.zmapBytes_eq,h.zmapBits_eq]
  simp only [bind_eq_bind,bind_some,h.withBitmap_eq h.zmap]
  rw [Minix.allocZone,h.modelZmapBytes]

theorem freeZone_eq (m : Memory) (zone : UInt16) :
    freeZone sb zone m = some (Minix.freeZone sb zone m) := by
  rw [freeZone,Minix.freeZone]
  split
  · rfl
  next hin =>
    rw [UInt16.lt_iff_toNat_lt] at hin
    rw [h.zmapOffset_eq,h.zmapBytes_eq,h.zmapBits_eq,checkedSub_of_le (by omega)]
    simp only [bind_eq_bind,bind_some,h.withBitmap_eq h.zmap]
    rw [h.modelZmapBytes]
    rfl

theorem safe : Safe sb where
  zoneSize := by rw [← h.modelSize]; exact h.zoneSize_eq
  table := by rw [h.inodeTableOffset_eq,h.modelTable,h.modelSize]
  readInode m ino hi := by
    rw [readInode,h.inodeOffset_eq hi]
    rfl
  writeInode m ino inode hi := by
    rw [writeInode,h.inodeOffset_eq hi]
    rfl
  dataZones := h.dataZones_eq
  allocInode := h.allocInode_eq
  freeInode m ino _ := h.freeInode_eq m ino
  allocZone := h.allocZone_eq
  freeZone := h.freeZone_eq

end Sane

/-- An inode that refers to the last zone everywhere. -/
def lastZones : DiskInode := { DiskInode.zero with zone := Vector.replicate 9 65535 }

theorem withBitmap_capacity {α : Type} {mapOffset mapBytes bits : Nat}
    {f : BitMapView → α × BitMapView} {m : Memory} {r : α × Memory}
    (h : withBitmap mapOffset mapBytes bits f m = some r) : mapBytes/8*wordBits < wordRange := by
  by_contra hover
  have hnone : checkedMul (mapBytes/8) wordBits = none := if_neg hover
  rw [withBitmap,hnone] at h
  by_cases hguard : mapBytes/8*8 ≤ maxBuffer
  · simp [hguard] at h
  · simp [hguard] at h

theorem eight_dvd_true : 8 ∣ trueZoneSize sb := Dvd.dvd.mul_right (by decide) _

theorem map_of_capacity {blocks : Nat} (h : blocks*trueZoneSize sb/8*wordBits < wordRange) :
    blocks*trueZoneSize sb*8 < wordRange := by
  have hdvd : 8 ∣ blocks*trueZoneSize sb := Dvd.dvd.mul_left eight_dvd_true blocks
  simp only [wordBits] at h
  omega

theorem Safe.log (h : Safe sb) : sb.logZoneSize.toNat ≤ 38 := by
  by_contra hlog
  have hpow : 2^39 ≤ 2^sb.logZoneSize.toNat := Nat.pow_le_pow_right (by decide) (by omega)
  have hover : ¬ (65535 : UInt16).toNat*trueZoneSize sb < wordRange := by
    rw [trueZoneSize]
    simp only [wordRange,UInt16.reduceToNat]
    omega
  have hnone : zoneTable sb (fun _ => 0) 65535 = none := by
    rw [zoneTable,readZoneTable,h.zoneSize]
    simp only [bind_eq_bind,bind_some,checkedMul,if_neg hover]
    by_cases hguard : trueZoneSize sb ≤ maxBuffer
    · simp [hguard]
    · simp [hguard]
  have hzones := h.dataZones (fun _ => 0) lastZones
  have hdirect : ¬ (lastZones.direct.takeWhile (· != 0)).length < directZones := by decide
  have hsingle : lastZones.single = 65535 := by decide
  rw [Checked.dataZones] at hzones
  simp only [hsingle,hnone] at hzones
  cases hzones

theorem Safe.sane (h : Safe sb) : Sane sb where
  log := h.log
  blocks := by
    by_contra hover
    have htable := h.table
    rw [inodeTableOffset,tableBlocks] at htable
    simp only [if_neg hover] at htable
    cases htable
  imap := by
    have halloc := h.allocInode fun _ => 0
    rw [Checked.allocInode,h.zoneSize] at halloc
    simp only [bind_eq_bind,bind_some] at halloc
    obtain ⟨bytes,hbytes,halloc⟩ := bind_eq_some_iff.mp halloc
    obtain ⟨offset,_,halloc⟩ := bind_eq_some_iff.mp halloc
    obtain ⟨bits,_,halloc⟩ := bind_eq_some_iff.mp halloc
    rw [(checkedMul_eq_some.mp hbytes).2] at halloc
    exact map_of_capacity (withBitmap_capacity halloc)
  zmap := by
    have halloc := h.allocZone fun _ => 0
    obtain ⟨offset,_,halloc⟩ := bind_eq_some_iff.mp halloc
    obtain ⟨bytes,hbytes,halloc⟩ := bind_eq_some_iff.mp halloc
    obtain ⟨bits,_,halloc⟩ := bind_eq_some_iff.mp halloc
    rw [zmapBytes,h.zoneSize] at hbytes
    rw [(checkedMul_eq_some.mp hbytes).2] at halloc
    exact map_of_capacity (withBitmap_capacity halloc)
  ordered := by
    have halloc := h.allocZone fun _ => 0
    obtain ⟨offset,_,halloc⟩ := bind_eq_some_iff.mp halloc
    obtain ⟨bytes,_,halloc⟩ := bind_eq_some_iff.mp halloc
    obtain ⟨bits,hbits,_⟩ := bind_eq_some_iff.mp halloc
    obtain ⟨zones,hzones,_⟩ := bind_eq_some_iff.mp hbits
    by_contra hlt
    rw [checkedSub,if_neg hlt] at hzones
    cases hzones

/-- The operations are safe on exactly the superblocks whose fields are in order. -/
theorem superblock_safe_iff (sb : SuperBlock) : Safe sb ↔ Sane sb := ⟨Safe.sane,Sane.safe⟩

/-- A disk whose superblock has the magic number, and 64 in the field `log_zone_size`. -/
def hostileDisk : Memory := fun a =>
  if a = superblockOffset + 10 then 64
  else if a = superblockOffset + 16 then 0x7F
  else if a = superblockOffset + 17 then 0x13
  else 0

theorem superblock_overflows : ∃ sb, fromDevice hostileDisk = some sb ∧ zoneSize sb = none := by
  refine ⟨SuperBlock.decode (hostileDisk.slice superblockOffset SuperBlock.size),?_,?_⟩
  · decide
  · decide

end Athera.Minix.Checked
