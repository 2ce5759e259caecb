import Athera.Fs.Minix.Clean

/-!
# Slots of a directory

The search for a name, the search for a free slot and the removal.
-/

namespace Athera.Minix

open Framework List

section

variable {k i : Nat} {l p : List UInt8}

theorem slots_one (hp : p.length = k) (hk : 0 < k) : slots k p = [p] := by
  rw [slots,hp,Nat.div_self hk,pieces,pieces,← hp,take_length]

theorem slots_patch (hp : p.length = k) (hi : i < l.length/k) :
    slots k (patch l (i*k) p) = (slots k l).set i p := by
  have hk : 0 < k := by
    by_contra hzero
    rw [Nat.eq_zero_of_not_pos hzero] at hi
    omega
  have hmul : (i+1)*k ≤ l.length :=
    (Nat.mul_le_mul_right k hi).trans (Nat.div_mul_le_self l.length k)
  rw [Nat.succ_mul] at hmul
  have ha : (l.take (i*k)).length = i*k := by
    rw [length_take]
    omega
  have hb : ((l.drop (i*k)).take k).length = k := by
    rw [length_take,length_drop]
    omega
  have hl : l.take (i*k)++((l.drop (i*k)).take k++l.drop (i*k+k)) = l := by
    rw [← drop_drop,take_append_drop,take_append_drop]
  have hdvd : k ∣ (l.take (i*k)).length := by
    rw [ha]
    exact Nat.dvd_mul_left k i
  have hcount : (slots k (l.take (i*k))).length = i := by
    rw [length_slots,ha,Nat.mul_div_cancel _ hk]
  have hafter : slots k (patch l (i*k) p) =
      slots k (l.take (i*k))++([p] ++ slots k (l.drop (i*k+k))) := by
    rw [patch,hp,append_assoc,slots_append hk hdvd,slots_append hk (by rw [hp]),slots_one hp hk]
  have hbefore : slots k l = slots k (l.take (i*k)) ++
      ([(l.drop (i*k)).take k] ++ slots k (l.drop (i*k+k))) := by
    conv_lhs => rw [← hl]
    rw [slots_append hk hdvd,slots_append hk (by rw [hb]),slots_one hb hk]
  rw [hafter,hbefore,set_append_right _ _ (by omega),hcount,Nat.sub_self]
  rfl

end

section

variable {sb : SuperBlock} {ino : UInt16} {name : List UInt8}

theorem entrySize_eq (sb : SuperBlock) : entrySize sb = maxName sb+2 := by
  rw [entrySize,maxName]
  split
  next => rfl
  next => rfl

theorem maxName_le (sb : SuperBlock) : maxName sb ≤ 30 := by
  rw [maxName]
  split
  next => exact le_rfl
  next => decide

theorem validName_iff : validName sb name = true ↔
    name ≠ [] ∧ name.length ≤ maxName sb ∧ pathSeparator ∉ name := by
  simp [validName,and_assoc]

section

variable (h : name.length ≤ maxName sb)
include h

theorem dirSlot_eq : dirSlot sb ino name =
    leBytes 2 ino.toNat++(name++List.replicate (maxName sb-name.length) 0) := by
  have hmax := maxName_le sb
  have hbytes : u16Bytes [ino] = leBytes 2 ino.toNat := by simp [u16Bytes]
  have htake : (leBytes 2 ino.toNat).length = 2 := length_leBytes ..
  rw [dirSlot,entrySize_eq,hbytes,append_assoc,take_append,
    take_of_length_le (by omega),htake,Nat.add_sub_cancel,take_append,
    take_of_length_le h,take_replicate,Nat.min_eq_left (by omega)]

theorem length_dirSlot : (dirSlot sb ino name).length = entrySize sb := by
  rw [dirSlot_eq h,length_append,length_leBytes,length_append,length_replicate,entrySize_eq]
  omega

theorem slotIno_dirSlot : slotIno (dirSlot sb ino name) = ino := by
  rw [slotIno,dirSlot_eq h,u16At_leBytes]

end

theorem takeWhile_padded (name : List UInt8) (k : Nat) :
    (name++List.replicate k 0).takeWhile (· != 0) = name.takeWhile (· != 0) := by
  induction name with
  | nil =>
    cases k with
    | zero => rfl
    | succ k => simp [replicate_succ]
  | cons b name ih =>
    by_cases hb : b = 0
    · simp [hb]
    · simp [hb,ih]

theorem takeWhile_eq_self_iff {name : List UInt8} : name.takeWhile (· != 0) = name ↔ (0 : UInt8) ∉ name := by
  rw [List.takeWhile_eq_self_iff]
  constructor
  · intro h hin
    exact absurd (h 0 hin) (by decide)
  · intro h b hb
    have hne : b ≠ 0 := fun he => h (he ▸ hb)
    simpa using hne

theorem carries_dirSlot (hvalid : utf8Valid name = true) (hname : validName sb name = true)
    (hino : ino ≠ 0) : carries name (dirSlot sb ino name) = true ↔ (0 : UInt8) ∉ name := by
  obtain ⟨hne,hlen,_⟩ := validName_iff.mp hname
  have hdrop : (dirSlot sb ino name).drop 2 = name++List.replicate (maxName sb-name.length) 0 := by
    rw [dirSlot_eq hlen]
    exact drop_left' (length_leBytes ..)
  rw [carries,slotIno_dirSlot hlen,hdrop,slotName,takeWhile_padded,Bool.and_eq_true,decide_eq_true_eq,
    decide_eq_true_eq,← takeWhile_eq_self_iff]
  constructor
  · intro h
    have hsame := h.2
    split at hsame
    next => exact hsame
    next => exact absurd hsame.symm hne
  · intro h
    refine ⟨hino,?_⟩
    rw [h,if_pos hvalid]

end

variable {sb : SuperBlock} {m m' : Memory} {dirIno z : UInt16} {dir : DiskInode} {zones : List UInt16}
  {name slot : List UInt8}

theorem findDirEntryIno_eq_none (hzones : dataZones sb m (readInode sb m dirIno) = zones) :
    findDirEntryIno sb dirIno name m = none ↔
      ∀ z ∈ zones, ∀ s ∈ zoneSlots sb m z, carries name s = false := by
  rw [findDirEntryIno,hzones,Option.map_eq_none_iff,find?_eq_none]
  simp only [mem_flatMap,Bool.not_eq_true]
  constructor
  · intro h z hz s hs
    exact h s ⟨z,hz,hs⟩
  · intro h s hs
    obtain ⟨z,hz,hs⟩ := hs
    exact h z hz s hs

theorem findDirEntryIno_eq_some {ino : UInt16}
    (hzones : dataZones sb m (readInode sb m dirIno) = zones)
    (honly : ∀ z ∈ zones, ∀ s ∈ zoneSlots sb m z, carries name s = true → slotIno s = ino)
    (hsome : ∃ z ∈ zones, ∃ s ∈ zoneSlots sb m z, carries name s = true) :
    findDirEntryIno sb dirIno name m = some ino := by
  obtain ⟨z,hz,s,hs,hcarries⟩ := hsome
  cases hfind : findDirEntryIno sb dirIno name m with
  | none =>
    have hnone := (findDirEntryIno_eq_none hzones).mp hfind z hz s hs
    rw [hcarries] at hnone
    cases hnone
  | some x =>
    rw [findDirEntryIno,hzones] at hfind
    obtain ⟨t,ht,rfl⟩ := Option.map_eq_some_iff.mp hfind
    obtain ⟨y,hy,hty⟩ := mem_flatMap.mp (mem_of_find?_eq_some ht)
    rw [honly y hy t hty (find?_some ht)]

theorem removeIn_true (hsome : ∃ z ∈ zones, ∃ s ∈ zoneSlots sb m z, carries name s = true) :
    ∃ z ∈ zones, ∃ i < (zoneSlots sb m z).length, removeIn sb name zones m =
      (true, writeZone sb z (putSlot sb (readZone sb m z) i (List.replicate (entrySize sb) 0)) m) := by
  induction zones with
  | nil =>
    obtain ⟨z,hz,_⟩ := hsome
    cases hz
  | cons z zones ih =>
    rw [removeIn]
    cases hfind : (zoneSlots sb m z).findIdx? (carries name) with
    | some i =>
      have hlt := (findIdx?_eq_some_iff_getElem.mp hfind).1
      exact ⟨z,mem_cons_self,i,hlt,rfl⟩
    | none =>
      rw [findIdx?_eq_none_iff] at hfind
      obtain ⟨y,hy,s,hs,hcarries⟩ := hsome
      have hin : y ∈ zones := by
        cases mem_cons.mp hy with
        | inl he =>
          rw [he] at hs
          rw [hfind s hs] at hcarries
          cases hcarries
        | inr hin => exact hin
      obtain ⟨x,hx,i,hi,heq⟩ := ih ⟨y,hin,s,hs,hcarries⟩
      exact ⟨x,mem_cons_of_mem z hx,i,hi,heq⟩

theorem freeSlot_lt {i : Nat} (h : freeSlot sb m z = some i) : i < (zoneSlots sb m z).length :=
  (findIdx?_eq_some_iff_getElem.mp h).1

theorem addIn_some (hfree : ∃ z ∈ zones, freeSlot sb m z ≠ none) : ∀ k, ∃ z ∈ zones, ∃ j i,
    freeSlot sb m z = some i ∧
      addIn sb dirIno dir slot zones k m = some (placeEntry sb dirIno dir slot z j i m) := by
  induction zones with
  | nil =>
    obtain ⟨z,hz,_⟩ := hfree
    cases hz
  | cons z zones ih =>
    intro k
    rw [addIn]
    cases hfind : freeSlot sb m z with
    | some i => exact ⟨z,mem_cons_self,k,i,hfind,rfl⟩
    | none =>
      obtain ⟨y,hy,hfree⟩ := hfree
      have hin : y ∈ zones := by
        cases mem_cons.mp hy with
        | inl he =>
          rw [he] at hfree
          exact absurd hfind hfree
        | inr hin => exact hin
      obtain ⟨x,hx,j,i,hi,heq⟩ := ih ⟨y,hin,hfree⟩ (k+1)
      exact ⟨x,mem_cons_of_mem z hx,j,i,hi,heq⟩

theorem length_zoneSlots (sb : SuperBlock) (m : Memory) (z : UInt16) :
    (zoneSlots sb m z).length = sb.zoneSize/entrySize sb := by
  rw [zoneSlots,length_slots,readZone,readZoneInto,Memory.length_slice]

theorem slot_fits {i : Nat} (hi : i < (zoneSlots sb m z).length) :
    i*entrySize sb+entrySize sb ≤ sb.zoneSize := by
  rw [length_zoneSlots] at hi
  have hmul := (Nat.mul_le_mul_right (entrySize sb) hi).trans
    (Nat.div_mul_le_self sb.zoneSize (entrySize sb))
  rwa [Nat.succ_mul] at hmul

theorem length_putSlot {i : Nat} (hi : i < (zoneSlots sb m z).length)
    (hslot : slot.length = entrySize sb) :
    (putSlot sb (readZone sb m z) i slot).length = sb.zoneSize := by
  have hfit := slot_fits hi
  have hlen : (readZone sb m z).length = sb.zoneSize := Memory.length_slice ..
  rw [putSlot,length_patch (by omega),hlen]

theorem view_placeEntry (g : Geometry sb) (hz : sb.IsData z) (hdir : sb.IsInode dirIno)
    (hread : (view sb m).inode dirIno = dir) (hslot : slot.length = entrySize sb) {i j : Nat}
    (hi : i < (zoneSlots sb m z).length) : ∃ size, view sb (placeEntry sb dirIno dir slot z j i m) =
      ((view sb m).setZone z (putSlot sb (readZone sb m z) i slot)).setInode dirIno
        { dir with size := size } := by
  have hzone := @view_writeZone sb m g z hz _ (length_putSlot hi hslot)
  rw [placeEntry]
  split
  next =>
    rw [view_writeInode g hdir,hzone]
    exact ⟨_,rfl⟩
  next =>
    have hsame : ((view sb m).setZone z (putSlot sb (readZone sb m z) i slot)).inode dirIno = dir := hread
    exact ⟨dir.size,hzone.trans (setInode_self hsame).symm⟩

theorem zoneSlots_congr (hz : sb.IsData z) (hzone : (view sb m').zone z = (view sb m).zone z) :
    zoneSlots sb m' z = zoneSlots sb m z := by
  rw [view_zone hz,view_zone hz] at hzone
  rw [zoneSlots,zoneSlots,hzone]

end Athera.Minix
