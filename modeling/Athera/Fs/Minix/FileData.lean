import Athera.Fs.Minix.Resolve
import Athera.Fs.Minix.Zones

/-!
# File data

A write takes the zones that are missing, writes the list of zones and the index tables, then the
bytes zone by zone, and at last the inode if the file got longer.
-/

namespace Athera.Minix

open Framework List

section

variable (sb : SuperBlock)

/-- The loop of `read_at`. Each turn reads at least one byte, so the length of the buffer is enough
fuel. -/
def readChunks (zones : List UInt16) (size : Nat) (m : Memory) : Nat → Nat → Nat → List UInt8
  | 0, _, _ => []
  | fuel + 1, len, pos =>
    if pos < size ∧ 0 < len then
      match zones[pos / sb.zoneSize]? with
      | none => []
      | some zone =>
        let n := min (min (sb.zoneSize - pos % sb.zoneSize) (size - pos)) len
        m.slice (zoneOffset sb zone + pos % sb.zoneSize) n ++
          readChunks zones size m fuel (len - n) (pos + n)
    else []

section

variable (file : File)

/-- The bytes that `read_at` puts into a buffer of `len` bytes. -/
def File.readAt (len offset : Nat) (m : Memory) : List UInt8 :=
  readChunks sb file.zones file.inode.size.toNat m len len offset

def growZones : Nat → List UInt16 → Memory → List UInt16 × Memory
  | 0, zones, m => (zones, m)
  | n + 1, zones, m =>
    match allocZone sb m with
    | (none, m) => (zones, m)
    | (some zone, m) => growZones n (zones ++ [zone]) m

def writeChunks (zones : List UInt16) : Nat → List UInt8 → Nat → Memory → Nat × Memory
  | 0, _, _, m => (0, m)
  | fuel + 1, buf, pos, m =>
    if buf = [] then (0, m)
    else match zones[pos / sb.zoneSize]? with
      | none => (0, m)
      | some zone =>
        let n := min (sb.zoneSize - pos % sb.zoneSize) buf.length
        let r := writeChunks zones fuel (buf.drop n) (pos + n)
          (m.store (zoneOffset sb zone + pos % sb.zoneSize) (buf.take n))
        (n + r.1, r.2)

section

variable (buf : List UInt8)

def File.needZones (offset : Nat) : Nat :=
  (min offset file.inode.size.toNat + buf.length + sb.zoneSize - 1) / sb.zoneSize

def File.grow (offset : Nat) (m : Memory) : List UInt16 × Memory :=
  growZones sb (file.needZones sb buf offset - file.zones.length) file.zones m

/-- The list of zones and the index tables, with the flag of `storeZones`. -/
def File.sync (need : Nat) (zones : List UInt16) (m : Memory) :
    Bool × DiskInode × Memory :=
  if file.zones.length < need then storeZones sb file.inode zones m else (true, file.inode, m)

/-- The inode is written if the file got longer. -/
def File.extend (inode : DiskInode) (zones : List UInt16) (size : Nat) (m : Memory) :
    File × Memory :=
  if inode.size.toNat < size then
    let inode := { inode with size := UInt32.ofNat size }
    (⟨file.ino,inode,zones⟩, writeInode sb file.ino inode m)
  else (⟨file.ino,inode,zones⟩, m)

/-- Buffers are shorter than the address space, so that no sum of an offset and a length overflows. -/
def File.writeAt (offset : Nat) (m : Memory) : Nat × File × Memory :=
  if buf = [] then (0, file, m)
  else
    let size := file.inode.size.toNat
    let grown := file.grow sb buf offset m
    let synced := file.sync sb (file.needZones sb buf offset) grown.1 grown.2
    let written := writeChunks sb grown.1 buf.length buf (min offset size) synced.2.2
    (written.1, file.extend sb synced.2.1 grown.1 (max size (min offset size + written.1)) written.2)

/-- Every index table of the write finds its zone. -/
def File.syncs (offset : Nat) (m : Memory) : Bool :=
  let grown := file.grow sb buf offset m
  (file.sync sb (file.needZones sb buf offset) grown.1 grown.2).1

/-- Every allocation of the write finds a zone. -/
def File.allocates (offset : Nat) (m : Memory) : Bool :=
  buf.isEmpty || (decide (file.needZones sb buf offset ≤ (file.grow sb buf offset m).1.length) &&
    file.syncs sb buf offset m)

end

end

end

variable {sb : SuperBlock} {m : Memory} {zones : List UInt16}

/-- The loop takes as many zones as it should, or all that are free. -/
theorem growZones_spec (g : Geometry sb) (n : Nat) : ∀ (zones : List UInt16) (m : Memory),
    (view sb m).Padded sb → ∃ taken, (growZones sb n zones m).1 = zones++taken ∧
      Grown sb (view sb m) (view sb (growZones sb n zones m).2) [] taken ∧
      taken.length = min n ((view sb m).freeZones sb) := by
  induction n with
  | zero =>
    intro zones m _
    exact ⟨[],(append_nil zones).symm,Grown.refl ..,by simp⟩
  | succ n ih =>
    intro zones m hp
    rw [growZones]
    rcases halloc : allocZone sb m with ⟨_ | z,m₁⟩
    · obtain ⟨hfree,hview⟩ := allocZone_none g hp halloc
      simp only [hview]
      exact ⟨[],(append_nil zones).symm,Grown.refl ..,by simp [hfree]⟩
    · obtain ⟨hz,hclear,hview⟩ := allocZone_some g hp halloc
      have htake := Grown.take g hz hclear
      rw [← hview] at htake
      obtain ⟨taken,hzones,hgrown,hcount⟩ := ih (zones ++ [z]) m₁ (htake.padded hp)
      refine ⟨z::taken,?_,htake.trans hgrown,?_⟩
      · simp only [hzones,append_assoc,singleton_append]
      · have hone := htake.count
        rw [length_singleton] at hone
        rw [length_cons]
        omega

theorem writeChunks_spec (g : Geometry sb) (hdata : ∀ z ∈ zones, sb.IsData z) (fuel : Nat) :
    ∀ (buf : List UInt8) (pos : Nat) (m : Memory), buf.length ≤ fuel →
    let r := writeChunks sb zones fuel buf pos m
    r.1 = min buf.length (zones.length*sb.zoneSize-pos) ∧
      Grown sb (view sb m) (view sb r.2) zones [] := by
  have hzero : ∀ m : Memory, Grown sb (view sb m) (view sb m) zones [] :=
    fun m => (Grown.refl ..).mono (by simp)
  induction fuel with
  | zero =>
    intro buf pos m hfuel
    have hnil : buf = [] := length_eq_zero_iff.mp (Nat.le_zero.mp hfuel)
    rw [hnil]
    exact ⟨by simp [writeChunks],hzero m⟩
  | succ fuel ih =>
    intro buf pos m hfuel
    by_cases hbuf : buf = []
    · rw [hbuf]
      simp only [writeChunks]
      exact ⟨by simp,hzero m⟩
    · rw [writeChunks,if_neg hbuf]
      cases hi : zones[pos/sb.zoneSize]? with
      | none =>
        have hend : zones.length*sb.zoneSize ≤ pos :=
          (Nat.le_div_iff_mul_le g.zoneSize_pos).mp (List.getElem?_eq_none_iff.mp hi)
        exact ⟨by simp only; omega,hzero m⟩
      | some z =>
        have hmod := Nat.mod_lt pos g.zoneSize_pos
        have hin : pos/sb.zoneSize < zones.length := (List.getElem?_eq_some_iff.mp hi).1
        have hroom : pos+(sb.zoneSize-pos%sb.zoneSize) ≤ zones.length*sb.zoneSize := by
          have hsucc := Nat.mul_le_mul_right sb.zoneSize hin
          have hdiv := Nat.div_add_mod' pos sb.zoneSize
          rw [Nat.succ_mul] at hsucc
          omega
        generalize hn : min (sb.zoneSize-pos%sb.zoneSize) buf.length = n
        have htake : (buf.take n).length = n := by
          rw [length_take]
          omega
        have hz := mem_of_getElem? hi
        have hgrown : Grown sb (view sb m)
            (view sb (m.store (zoneOffset sb z+pos%sb.zoneSize) (buf.take n))) zones [] := by
          rw [view_storeZone g (hdata z hz) (by omega)]
          exact (Grown.write ..).mono fun y hy => .inl (mem_singleton.mp hy ▸ hz)
        obtain ⟨hdone,hgrown'⟩ := ih (buf.drop n) (pos+n)
          (m.store (zoneOffset sb z+pos%sb.zoneSize) (buf.take n))
          (by rw [length_drop]; omega)
        dsimp only
        rw [length_drop] at hdone
        exact ⟨by omega,(hgrown.trans hgrown').mono (by simp)⟩

theorem drop_zones {i : Nat} {z : UInt16} (hi : zones[i]? = some z) :
    ∃ rest, (zones.flatMap (readZone sb m)).drop (i*sb.zoneSize) = readZone sb m z++rest := by
  induction zones generalizing i with
  | nil => simp at hi
  | cons y zones ih =>
    cases i with
    | zero =>
      obtain rfl : y = z := by simpa using hi
      rw [Nat.zero_mul,drop_zero,flatMap_cons]
      exact ⟨_,rfl⟩
    | succ i =>
      obtain ⟨rest,hrest⟩ := ih (by simpa using hi)
      rw [flatMap_cons,Nat.succ_mul,Nat.add_comm,← drop_drop,drop_left' (length_readZone ..)]
      exact ⟨rest,hrest⟩

theorem slice_zone {z : UInt16} {pos n : Nat} (hi : zones[pos/sb.zoneSize]? = some z)
    (hn : pos%sb.zoneSize+n ≤ sb.zoneSize) : m.slice (zoneOffset sb z+pos%sb.zoneSize) n =
      ((zones.flatMap (readZone sb m)).drop pos).take n := by
  obtain ⟨rest,hrest⟩ := @drop_zones sb m zones _ z hi
  have hlen := @length_readZone sb m z
  rw [← Nat.div_add_mod' pos sb.zoneSize,← drop_drop,hrest,Nat.div_add_mod',
    drop_append_of_le_length (by omega),take_append_of_le_length (by rw [length_drop]; omega),readZone,
    readZoneInto,Memory.drop_slice (by omega),Memory.take_slice (by omega)]

/-- A file reads as the bytes of its zones, one after the other, up to its size. -/
theorem read_at_exact (hz : 0 < sb.zoneSize) (file : File) (len offset : Nat) (m : Memory) :
    file.readAt sb len offset m = (((file.zones.flatMap (readZone sb m)).take
      file.inode.size.toNat).drop offset).take len := by
  rw [File.readAt]
  generalize file.zones = zones
  generalize file.inode.size.toNat = size
  have hlen : (zones.flatMap (readZone sb m)).length = zones.length*sb.zoneSize := by
    simp [length_flatMap,length_readZone]
  -- the fuel is the number of bytes that are still missing
  suffices ∀ fuel len pos, len ≤ fuel → readChunks sb zones size m fuel len pos =
      (((zones.flatMap (readZone sb m)).take size).drop pos).take len from this len len offset le_rfl
  intro fuel
  induction fuel with
  | zero =>
    intro len pos hfuel
    rw [Nat.le_zero.mp hfuel,take_zero,readChunks]
  | succ fuel ih =>
    intro len pos hfuel
    rw [readChunks]
    split
    next hgo =>
      cases hi : zones[pos/sb.zoneSize]? with
      | none =>
        have hend := (Nat.le_div_iff_mul_le hz).mp (getElem?_eq_none_iff.mp hi)
        rw [drop_eq_nil_of_le (by rw [length_take]; omega),take_nil]
      | some z =>
        have hmod := Nat.mod_lt pos hz
        generalize hn : min (min (sb.zoneSize-pos%sb.zoneSize) (size-pos)) len = n
        have hsame : ((zones.flatMap (readZone sb m)).drop pos).take n =
            (((zones.flatMap (readZone sb m)).take size).drop pos).take n := by
          rw [drop_take,take_take,Nat.min_eq_left (by omega)]
        dsimp only
        rw [ih _ _ (by omega),slice_zone hi (by omega),hsame,← drop_drop,← take_add,
          Nat.add_sub_cancel' (by omega)]
    next hgo =>
      by_cases hpos : pos < size
      · rw [show len = 0 by omega,take_zero]
      · rw [drop_eq_nil_of_le (by rw [length_take]; omega),take_nil]

/-- From the first zone into the second, up to the size of the file. -/
theorem read_at_exact_across : 0 < shortNames.zoneSize ∧
    File.readAt shortNames ⟨1,{ DiskInode.zero with size := 1027 },[7,5]⟩ 8 1022
      (fun a => UInt8.ofNat (a / 1024)) = [7,7,5,5,5] :=
  ⟨by decide,(read_at_exact (by decide) _ 8 1022 _).trans (by decide +kernel)⟩

end Athera.Minix
