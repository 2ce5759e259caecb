import Athera.Fs.Minix.FileData

/-!
# Changing directories

`fs/minix/write.rs`. The device never fails, so only the answers are left of the results. Names and
link targets are the bytes of strings.
-/

namespace Athera.Minix

open Framework

section

variable (sb : SuperBlock)

def maxName : Nat := if sb.magic = magicV30 then 30 else 14

def validName (name : List UInt8) : Bool :=
  decide (name ≠ []) && decide (name.length ≤ maxName sb) && decide (pathSeparator ∉ name)

def slotIno (slot : List UInt8) : UInt16 := u16At slot 0

def carries (name slot : List UInt8) : Bool :=
  decide (slotIno slot ≠ 0) && decide (slotName (slot.drop 2) = name)

def zoneSlots (m : Memory) (zone : UInt16) : List (List UInt8) :=
  slots (entrySize sb) (readZone sb m zone)

/-- The bytes of `write_dir_slot`: the name is padded with zeros. -/
def dirSlot (ino : UInt16) (name : List UInt8) : List UInt8 :=
  (u16Bytes [ino] ++ name ++ List.replicate (30 - name.length) 0).take (entrySize sb)

def putSlot (block : List UInt8) (index : Nat) (slot : List UInt8) : List UInt8 :=
  patch block (index * entrySize sb) slot

end

section

variable (sb : SuperBlock)

def findDirEntryIno (dirIno : UInt16) (name : List UInt8) (m : Memory) : Option UInt16 :=
  (((dataZones sb m (readInode sb m dirIno)).flatMap (zoneSlots sb m)).find? (carries name)).map slotIno

def removeIn (name : List UInt8) : List UInt16 → Memory → Bool × Memory
  | [], m => (false, m)
  | zone :: zones, m =>
    match (zoneSlots sb m zone).findIdx? (carries name) with
    | none => removeIn name zones m
    | some i => (true, writeZone sb zone
        (putSlot sb (readZone sb m zone) i (List.replicate (entrySize sb) 0)) m)

def removeDirEntry (dirIno : UInt16) (name : List UInt8) (m : Memory) : Bool × Memory :=
  removeIn sb name (dataZones sb m (readInode sb m dirIno)) m

/-- The slot is written, and the size of the directory covers it afterwards. -/
def placeEntry (dirIno : UInt16) (dir : DiskInode) (slot : List UInt8) (zone : UInt16)
    (blockIndex i : Nat) (m : Memory) : Memory :=
  let m := writeZone sb zone (putSlot sb (readZone sb m zone) i slot) m
  let last := blockIndex * sb.zoneSize + i * entrySize sb + entrySize sb
  if dir.size.toNat < last then writeInode sb dirIno { dir with size := UInt32.ofNat last } m else m

def freeSlot (m : Memory) (zone : UInt16) : Option Nat :=
  (zoneSlots sb m zone).findIdx? fun slot => decide (slotIno slot = 0)

/-- The zones that the directory has, from the given one on. -/
def addIn (dirIno : UInt16) (dir : DiskInode) (slot : List UInt8) : List UInt16 → Nat → Memory →
    Option Memory
  | [], _, _ => none
  | zone :: zones, blockIndex, m =>
    match freeSlot sb m zone with
    | some i => some (placeEntry sb dirIno dir slot zone blockIndex i m)
    | none => addIn dirIno dir slot zones (blockIndex + 1) m

/-- The directory gets one zone after the other until one has a free slot. The new zones are not
cleared. On a full disk the function returns without an entry and without an error. -/
def growDir (dirIno : UInt16) (slot : List UInt8) : Nat → DiskInode → List UInt16 → Memory → Memory
  | 0, _, _, m => m
  | fuel + 1, dir, zones, m =>
    match allocZone sb m with
    | (none, m) => m
    | (some zone, m) =>
      let (dir, m) := writeFileZones sb dir (zones ++ [zone]) m
      match freeSlot sb m zone with
      | some i => placeEntry sb dirIno dir slot zone zones.length i m
      | none => growDir dirIno slot fuel dir (zones ++ [zone]) m

/-- Each turn of the loop takes a zone of the disk, so 65536 turns are enough. -/
def addDirEntryAt (dirIno : UInt16) (name : List UInt8) (newIno : UInt16) (m : Memory) : Memory :=
  let dir := readInode sb m dirIno
  let zones := dataZones sb m dir
  let slot := dirSlot sb newIno name
  match addIn sb dirIno dir slot zones 0 m with
  | some m => m
  | none => growDir sb dirIno slot 65536 dir zones m

end

section

variable (sb : SuperBlock)

def regMode : UInt16 := (0o10 : UInt16) <<< (12 : UInt16) ||| 0o644

def lnkMode : UInt16 := (0o12 : UInt16) <<< (12 : UInt16) ||| 0o777

def dirMode : UInt16 := (0o4 : UInt16) <<< (12 : UInt16) ||| 0o755

def emptyInode (mode : UInt16) : DiskInode := { DiskInode.zero with mode := mode, nlinks := 1 }

def allocEmptyInode (mode : UInt16) (m : Memory) : Option UInt16 × Memory :=
  match allocInode sb m with
  | (none, m) => (none, m)
  | (some ino, m) => (some ino, writeInode sb ino (emptyInode mode) m)

def freeZones (zones : List UInt16) (m : Memory) : Memory :=
  zones.foldl (fun m zone => freeZone sb zone m) m

/-- The zones are found again through the inode on the disk. -/
def freeInodeBlocksAt (ino : UInt16) (m : Memory) : Memory :=
  let inode := readInode sb m ino
  let m := freeZones sb (dataZones sb m inode) m
  let m := if inode.single ≠ 0 then freeZone sb inode.single m else m
  let m := if inode.double ≠ 0 then
      freeZone sb inode.double (freeZones sb (zoneTable sb m inode.double) m)
    else m
  freeInode sb ino (writeInode sb ino DiskInode.zero m)

end

variable (sb : SuperBlock)

def createFile (dirIno : UInt16) (name : List UInt8) (m : Memory) : Option UInt16 × Memory :=
  if !validName sb name then (none, m)
  else match allocEmptyInode sb regMode m with
    | (none, m) => (none, m)
    | (some ino, m) => (some ino, addDirEntryAt sb dirIno name ino m)

/-- `u8::saturating_sub(1)`. -/
def oneLess (n : UInt8) : UInt8 := if n = 0 then 0 else n - 1

def unlink (dirIno : UInt16) (name : List UInt8) (m : Memory) : Bool × Memory :=
  if !validName sb name then (false, m)
  else match findDirEntryIno sb dirIno name m with
    | none => (false, m)
    | some ino =>
      let inode := readInode sb m ino
      if inode.fileType = .dir then (false, m)
      else match removeDirEntry sb dirIno name m with
        | (false, m) => (false, m)
        | (true, m) =>
          if oneLess inode.nlinks = 0 then (true, freeInodeBlocksAt sb ino m)
          else (true, writeInode sb ino { inode with nlinks := oneLess inode.nlinks } m)

/-- The target is written like the data of a file; if not all of it fits, the inode and the zones that it
refers to are freed. -/
def symlink (dirIno : UInt16) (name target : List UInt8) (m : Memory) : Option UInt16 × Memory :=
  if !validName sb name || target.isEmpty then (none, m)
  else match allocEmptyInode sb lnkMode m with
    | (none, m) => (none, m)
    | (some ino, m) =>
      let r := File.writeAt sb ⟨ino,readInode sb m ino,[]⟩ target 0 m
      if r.1 ≠ target.length then (none, freeInodeBlocksAt sb ino r.2.2)
      else (some ino, addDirEntryAt sb dirIno name ino r.2.2)

/-- `u8::saturating_add(1)`. -/
def oneMore (n : UInt8) : UInt8 := if n = 255 then 255 else n + 1

def createDir (dirIno : UInt16) (name : List UInt8) (m : Memory) : Option UInt16 × Memory :=
  if !validName sb name then (none, m)
  else match allocEmptyInode sb dirMode m with
    | (none, m) => (none, m)
    | (some ino, m) =>
      match allocZone sb m with
      | (none, m) => (none, freeInode sb ino m)
      | (some zone, m) =>
        let block := putSlot sb (putSlot sb (List.replicate sb.zoneSize 0) 0 (dirSlot sb ino [46])) 1
          (dirSlot sb dirIno [46,46])
        let m := writeZone sb zone block m
        let inode := readInode sb m ino
        let inode := { inode with
          nlinks := 2
          zone := inode.zone.set 0 zone
          size := UInt32.ofNat (2 * entrySize sb) }
        let m := addDirEntryAt sb dirIno name ino (writeInode sb ino inode m)
        let parent := readInode sb m dirIno
        (some ino, writeInode sb dirIno { parent with nlinks := oneMore parent.nlinks } m)

end Athera.Minix
