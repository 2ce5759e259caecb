import Athera.Framework.Bytes
import Athera.Framework.LittleEndian
import Athera.Framework.Word

/-!
# Disk structures of MINIX V1

`fs/minix/types.rs`. Structures are stored field after field, each number least significant byte
first.
-/

namespace Athera.Minix

open Framework

def superblockOffset : Nat := 1024

/-- `MINIX_DIRECT_ZONES`. -/
def directZones : Nat := 7

def maxSymlinkHops : Nat := 40

def pathSeparator : UInt8 := 47

/-- `MinixFsMagic::V1_14` and `MinixFsMagic::V1_30`. -/
def magicV14 : UInt16 := 0x137F

def magicV30 : UInt16 := 0x138F

/-- The numbers of two bytes from a table of bytes. -/
def u16Table (bytes : List UInt8) : List UInt16 :=
  (leUnits 2 (bytes.length / 2) bytes).map UInt16.ofNat

def u16Bytes (table : List UInt16) : List UInt8 := (table.map UInt16.toNat).flatMap (leBytes 2)

/-- `u16::from_le_bytes` at a place of a buffer. -/
def u16At (bytes : List UInt8) (i : Nat) : UInt16 := UInt16.ofNat (leNat ((bytes.drop i).take 2))

def u32At (bytes : List UInt8) (i : Nat) : UInt32 := UInt32.ofNat (leNat ((bytes.drop i).take 4))

structure SuperBlock where
  ninodes : UInt16
  nzones : UInt16
  imapBlocks : UInt16
  zmapBlocks : UInt16
  firstDataZone : UInt16
  logZoneSize : UInt16
  maxSize : UInt32
  magic : UInt16
  state : UInt16
deriving DecidableEq, Repr

namespace SuperBlock

/-- `size_of::<DiskSuperBlock>()`. -/
def size : Nat := 20

def decode (bytes : List UInt8) : SuperBlock where
  ninodes := u16At bytes 0
  nzones := u16At bytes 2
  imapBlocks := u16At bytes 4
  zmapBlocks := u16At bytes 6
  firstDataZone := u16At bytes 8
  logZoneSize := u16At bytes 10
  maxSize := u32At bytes 12
  magic := u16At bytes 16
  state := u16At bytes 18

/-- The shift takes its distance modulo the width of the word. -/
def zoneSize (sb : SuperBlock) : Nat := wrap (1024 * 2 ^ (sb.logZoneSize.toNat % 64))

/-- The three numbers are added in 16 bits. -/
def inodeTableOffset (sb : SuperBlock) : Nat :=
  wrap ((2 + sb.imapBlocks + sb.zmapBlocks).toNat * sb.zoneSize)

end SuperBlock

inductive FileType where
  | fifo
  | chr
  | dir
  | blk
  | reg
  | lnk
  | sock
  | other (code : UInt16)
deriving DecidableEq, Repr

/-- `Mode::file_type`: bits 12 to 15. -/
def FileType.ofMode (mode : UInt16) : FileType :=
  let code := mode >>> 12
  if code = 0o1 then .fifo
  else if code = 0o2 then .chr
  else if code = 0o4 then .dir
  else if code = 0o6 then .blk
  else if code = 0o10 then .reg
  else if code = 0o12 then .lnk
  else if code = 0o14 then .sock
  else .other code

structure DiskInode where
  mode : UInt16
  uid : UInt16
  size : UInt32
  mtime : UInt32
  gid : UInt8
  nlinks : UInt8
  zone : Vector UInt16 9
deriving DecidableEq, Repr

namespace DiskInode

/-- `size_of::<DiskInode>()`. -/
def diskSize : Nat := 32

section

variable (inode : DiskInode)

def encode : List UInt8 :=
  leBytes 2 inode.mode.toNat ++ leBytes 2 inode.uid.toNat ++ leBytes 4 inode.size.toNat ++
    leBytes 4 inode.mtime.toNat ++ [inode.gid,inode.nlinks] ++ u16Bytes inode.zone.toList

def decode (bytes : List UInt8) : DiskInode where
  mode := u16At bytes 0
  uid := u16At bytes 2
  size := u32At bytes 4
  mtime := u32At bytes 8
  gid := bytes.getD 12 0
  nlinks := bytes.getD 13 0
  zone := Vector.ofFn fun i => (u16Table (bytes.drop 14)).getD i 0

def fileType : FileType := .ofMode inode.mode

/-- An inode whose fields are all zero. -/
def zero : DiskInode where
  mode := 0
  uid := 0
  size := 0
  mtime := 0
  gid := 0
  nlinks := 0
  zone := Vector.replicate 9 0

instance : Inhabited DiskInode := ⟨zero⟩

def direct : List UInt16 := inode.zone.toList.take directZones

def single : UInt16 := inode.zone[7]

def double : UInt16 := inode.zone[8]

def setDirect (zones : List UInt16) : DiskInode :=
  { inode with zone := Vector.ofFn fun i => if i.val < directZones then zones.getD i 0
      else inode.zone[i] }

def setSingle (z : UInt16) : DiskInode :=
  { inode with zone := inode.zone.set 7 z }

def setDouble (z : UInt16) : DiskInode :=
  { inode with zone := inode.zone.set 8 z }

end

end DiskInode

open List

/-- A test of the list, not of all of `UInt16`. -/
instance decidableZones (p : UInt16 → Prop) [DecidablePred p] (l : List UInt16) :
    Decidable (∀ z ∈ l, p z) := decidableBAll p l

theorem length_u16Table (bytes : List UInt8) : (u16Table bytes).length = bytes.length/2 := by
  simp [u16Table]

theorem length_u16Bytes (table : List UInt16) : (u16Bytes table).length = 2*table.length := by
  rw [u16Bytes,length_flatMap_leBytes,length_map,Nat.mul_comm]

theorem u16Table_u16Bytes (table : List UInt16) : u16Table (u16Bytes table) = table := by
  have hlt : ∀ w ∈ table.map UInt16.toNat, w < 256^2 := by
    intro w hw
    obtain ⟨z,_,rfl⟩ := mem_map.mp hw
    exact z.toNat_lt
  have hlen : (u16Bytes table).length/2 = (table.map UInt16.toNat).length := by
    rw [length_u16Bytes,length_map]
    omega
  rw [u16Table,hlen,u16Bytes,leUnits_flatMap hlt]
  simp [Function.comp_def]

theorem u16At_append {a b : List UInt8} {n : Nat} (h : a.length = n) (i : Nat) :
    u16At (a++b) (n+i) = u16At b i := by
  rw [u16At,u16At,← drop_drop,drop_left' h]

theorem u16At_leBytes (w : UInt16) (rest : List UInt8) : u16At (leBytes 2 w.toNat++rest) 0 = w := by
  have hlt : w.toNat < 256^2 := w.toNat_lt
  rw [u16At,drop_zero,take_left' (length_leBytes 2 w.toNat),leNat_leBytes,
    Nat.mod_eq_of_lt hlt,UInt16.ofNat_toNat]

theorem u32At_leBytes (w : UInt32) (rest : List UInt8) : u32At (leBytes 4 w.toNat++rest) 0 = w := by
  have hlt : w.toNat < 256^4 := w.toNat_lt
  rw [u32At,drop_zero,take_left' (length_leBytes 4 w.toNat),leNat_leBytes,
    Nat.mod_eq_of_lt hlt,UInt32.ofNat_toNat]

namespace DiskInode

theorem length_encode (inode : DiskInode) : inode.encode.length = diskSize := by
  simp [encode,length_u16Bytes,diskSize]

theorem decode_encode (inode : DiskInode) : decode inode.encode = inode := by
  have hzones : inode.encode.drop 14 = u16Bytes inode.zone.toList := by
    rw [encode]
    apply drop_left'
    simp
  have hmode : u16At inode.encode 0 = inode.mode := by
    simp only [encode]
    exact u16At_leBytes ..
  have huid : u16At inode.encode 2 = inode.uid := by
    simp only [encode,append_assoc]
    rw [u16At_append (length_leBytes ..) 0]
    exact u16At_leBytes ..
  have hsize : u32At inode.encode 4 = inode.size := by
    exact u32At_leBytes ..
  have hmtime : u32At inode.encode 8 = inode.mtime := by
    exact u32At_leBytes ..
  have hgid : inode.encode.getD 12 0 = inode.gid := by
    rfl
  have hnlinks : inode.encode.getD 13 0 = inode.nlinks := by
    rfl
  have hzone : (Vector.ofFn fun i : Fin 9 => (u16Table (inode.encode.drop 14)).getD i 0) =
      inode.zone := by
    rw [hzones,u16Table_u16Bytes]
    simp
  rw [decode,hmode,huid,hsize,hmtime,hgid,hnlinks,hzone]

end DiskInode

end Athera.Minix
