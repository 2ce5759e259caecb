import Athera.Bitmap.View
import Athera.Fs.Minix.Types

/-!
# The disk of a MINIX file system

`fs/minix.rs`. The device is a memory that never fails. Offsets are computed in 64 bits.
-/

namespace Athera.Minix

open Framework

/-- A device without the magic number holds no file system. -/
def fromDevice (m : Memory) : Option SuperBlock :=
  let superblock := SuperBlock.decode (m.slice superblockOffset SuperBlock.size)
  if superblock.magic = magicV14 ∨ superblock.magic = magicV30 then some superblock else none

variable (sb : SuperBlock) {m : Memory}

def inodeOffset (ino : UInt16) : Nat :=
  wrap (sb.inodeTableOffset + (ino - 1).toNat * DiskInode.diskSize)

def readInode (m : Memory) (ino : UInt16) : DiskInode :=
  .decode (m.slice (inodeOffset sb ino) DiskInode.diskSize)

def writeInode (ino : UInt16) (inode : DiskInode) (m : Memory) : Memory :=
  m.store (inodeOffset sb ino) inode.encode

def zoneOffset (zone : UInt16) : Nat := wrap (zone.toNat * sb.zoneSize)

def readZoneInto (m : Memory) (zone : UInt16) (len : Nat) : List UInt8 :=
  m.slice (zoneOffset sb zone) len

def readZone (m : Memory) (zone : UInt16) : List UInt8 := readZoneInto sb m zone sb.zoneSize

def writeZone (zone : UInt16) (data : List UInt8) (m : Memory) : Memory :=
  m.store (zoneOffset sb zone) data

def readZoneTable (m : Memory) (zone : UInt16) : List UInt16 := u16Table (readZone sb m zone)

/-- A missing table is empty, and a table ends at its first zero. -/
def zoneTable (m : Memory) (zone : UInt16) : List UInt16 :=
  if zone = 0 then [] else (readZoneTable sb m zone).takeWhile (· != 0)

def writeZoneTable (zone : UInt16) (table : List UInt16) (m : Memory) : Memory :=
  m.store (zoneOffset sb zone) (u16Bytes table)

/-- The zones that an inode refers to, up to the first zero. -/
def dataZones (m : Memory) (inode : DiskInode) : List UInt16 :=
  let direct := inode.direct.takeWhile (· != 0)
  if direct.length < directZones then direct
  else direct ++ zoneTable sb m inode.single ++
    (zoneTable sb m inode.double).flatMap (zoneTable sb m)

def data (m : Memory) (inode : DiskInode) : List UInt8 :=
  if inode.size = 0 then []
  else ((dataZones sb m inode).flatMap (readZone sb m)).take inode.size.toNat

def mapWords (m : Memory) (mapOffset mapBytes : Nat) : List BitWord :=
  (leUnits 8 (mapBytes / 8) (m.slice mapOffset mapBytes)).map (BitVec.ofNat 64)

def wordBytes (words : List BitWord) : List UInt8 := (words.map BitVec.toNat).flatMap (leBytes 8)

def withBitmap {α : Type} (mapOffset mapBytes bits : Nat) (f : BitMapView → α × BitMapView)
    (m : Memory) : α × Memory :=
  let words := mapWords m mapOffset mapBytes
  let r := f ⟨words,min bits (words.length * wordBits),Nat.min_le_right _ _⟩
  (r.1, m.store mapOffset (wordBytes r.2.words))

def imapOffset : Nat := wrap (2 * sb.zoneSize)

def imapBytes : Nat := wrap (sb.imapBlocks.toNat * sb.zoneSize)

def imapBits : Nat := sb.ninodes.toNat + 1

def zmapOffset : Nat := wrap ((2 + sb.imapBlocks.toNat) * sb.zoneSize)

def zmapBytes : Nat := wrap (sb.zmapBlocks.toNat * sb.zoneSize)

def zmapBits : Nat := wrap (sb.nzones.toNat + wordRange - sb.firstDataZone.toNat + 1)

/-- Bit `i` of the map stands for inode `i`. -/
def allocInode (m : Memory) : Option UInt16 × Memory :=
  withBitmap (imapOffset sb) (imapBytes sb) (imapBits sb)
    (fun map => ((map.allocFrom 1).1.map UInt16.ofNat, (map.allocFrom 1).2)) m

def freeInode (ino : UInt16) (m : Memory) : Memory :=
  if ino = 0 ∨ sb.ninodes < ino then m
  else (withBitmap (imapOffset sb) (imapBytes sb) (imapBits sb) (fun map => map.clear ino.toNat) m).2

/-- Bit `i` of the map stands for zone `first_data_zone - 1 + i`. -/
def allocZone (m : Memory) : Option UInt16 × Memory :=
  withBitmap (zmapOffset sb) (zmapBytes sb) (zmapBits sb)
    (fun map => ((map.allocFrom 1).1.map fun bit =>
      UInt16.ofNat (bit + sb.firstDataZone.toNat - 1), (map.allocFrom 1).2)) m

def freeZone (zone : UInt16) (m : Memory) : Memory :=
  if zone < sb.firstDataZone ∨ sb.nzones ≤ zone then m
  else (withBitmap (zmapOffset sb) (zmapBytes sb) (zmapBits sb)
    (fun map => map.clear (zone.toNat - sb.firstDataZone.toNat + 1)) m).2

theorem length_mapWords (m : Memory) (a n : Nat) : (mapWords m a n).length = n/8 := by
  simp [mapWords]

theorem length_wordBytes (words : List BitWord) : (wordBytes words).length = words.length*8 := by
  rw [wordBytes,length_flatMap_leBytes,List.length_map]

theorem mapWords_store {a n : Nat} {words : List BitWord} (h : words.length*8 = n) :
    mapWords (m.store a (wordBytes words)) a n = words := by
  have hlt : ∀ w ∈ words.map BitVec.toNat, w < 256^8 := by
    intro w hw
    obtain ⟨x,_,rfl⟩ := List.mem_map.mp hw
    exact x.isLt
  have hlen : (wordBytes words).length = n := by rw [length_wordBytes,h]
  have hcount : n/8 = (words.map BitVec.toNat).length := by
    rw [List.length_map]
    omega
  have hslice := Memory.slice_store_self m a (wordBytes words)
  rw [hlen] at hslice
  rw [mapWords,hslice,hcount,wordBytes,leUnits_flatMap hlt]
  simp [Function.comp_def]

theorem mapWords_congr {m' : Memory} {a n : Nat} (h : ∀ i < n, m' (a+i) = m (a+i)) :
    mapWords m' a n = mapWords m a n := by
  rw [mapWords,mapWords,Memory.slice_congr h]

variable {words : List BitWord} {bits : Nat}

theorem le_scanLimit_bits (hfits : bits ≤ words.length*wordBits) :
    bits ≤ scanLimit words.length bits := by
  rw [scanLimit]
  by_cases hmod : bits%wordBits = 0
  · rw [if_pos hmod]
    exact hfits
  · rw [if_neg hmod]
    simp only [wordBits] at *
    omega

theorem scanLimit_le (hfits : bits ≤ words.length*wordBits) :
    scanLimit words.length bits ≤ words.length*wordBits := by
  rw [scanLimit]
  by_cases hmod : bits%wordBits = 0
  · rw [if_pos hmod]
  · rw [if_neg hmod]
    simp only [wordBits] at *
    omega

theorem scanWords_padded (hbits : bits ≤ words.length*wordBits)
    (hpad : ∀ i, bits ≤ i → i < words.length*wordBits → bitAt words i = true) (start : Nat) :
    scanWords words bits start true = firstIn (fun i => !bitAt words i) start bits := by
  rw [scanWords_spec hbits]
  by_cases hstart : bits ≤ start
  · rw [if_pos hstart,firstIn_empty hstart]
  · have hlimit := scanLimit_le hbits
    have hrest : firstIn (fun i => !bitAt words i) bits (scanLimit words.length bits) = none := by
      rw [firstIn_eq_none]
      intro j hj hlt
      rw [hpad j hj (hlt.trans_le hlimit)]
      rfl
    simp only [Bool.bne_true]
    rw [if_neg hstart,firstIn_append (by omega) (le_scanLimit_bits hbits),hrest,Option.or_none]

theorem withBitmap_eq {α : Type} {a n : Nat} (hbits : bits ≤ (mapWords m a n).length*wordBits)
    (f : BitMapView → α × BitMapView) : withBitmap a n bits f m =
      ((f ⟨mapWords m a n,bits,hbits⟩).1,
        m.store a (wordBytes (f ⟨mapWords m a n,bits,hbits⟩).2.words)) := by
  have hview : BitMapView.mk (mapWords m a n) (min bits ((mapWords m a n).length*wordBits))
      (Nat.min_le_right _ _) = ⟨mapWords m a n,bits,hbits⟩ := by
    congr 1
    exact Nat.min_eq_left hbits
  rw [withBitmap,hview]

section

variable {m : Memory} {a n : Nat} (hbits : bits ≤ (mapWords m a n).length * wordBits)
  (hpad : ∀ i, bits ≤ i → i < (mapWords m a n).length * wordBits → bitAt (mapWords m a n) i = true)
  (number : Nat → UInt16)

include hbits hpad

theorem withBitmap_alloc_cases {r : Option UInt16} {m' : Memory}
    (h : withBitmap a n bits (fun map => ((map.allocFrom 1).1.map number, (map.allocFrom 1).2)) m = (r, m')) :
    (r = none ∧ (∀ i, 1 ≤ i → i < bits → bitAt (mapWords m a n) i = true) ∧
      m' = m.store a (wordBytes (mapWords m a n))) ∨
    ∃ i, r = some (number i) ∧ (1 ≤ i ∧ i < bits) ∧ bitAt (mapWords m a n) i = false ∧
      m' = m.store a (wordBytes (setBit (mapWords m a n) i)) := by
  rw [withBitmap_eq hbits] at h
  simp only [BitMapView.allocFrom,BitMapView.findFreeFrom,scanWords_padded hbits hpad] at h
  cases hfind : firstIn (fun i => !bitAt (mapWords m a n) i) 1 bits with
  | none =>
    rw [hfind] at h
    cases h
    exact .inl ⟨rfl,by simpa using firstIn_eq_none.mp hfind,rfl⟩
  | some i =>
    rw [hfind] at h
    cases h
    have hi := firstIn_eq_some.mp hfind
    exact .inr ⟨i,rfl,⟨hi.2.1,hi.2.2.1⟩,by simpa using hi.1,rfl⟩

end

theorem withBitmap_clear {a n i : Nat} (hbits : bits ≤ (mapWords m a n).length*wordBits)
    (hi : i < bits) : (withBitmap a n bits (fun map => map.clear i) m).2 =
      m.store a (wordBytes (clearBit (mapWords m a n) i)) := by
  rw [withBitmap_eq hbits]
  simp [BitMapView.clear,BitMapView.contains,hi,BitMapView.clearAt]

end Athera.Minix
