import Athera.Fs.Minix.DenseFile
import Athera.Fs.Minix.Write

/-!
# Clean images

The zones that the allocated inodes refer to are in use, and each is referred to once. Holes are
allowed. `free_inode_blocks_at` finds the zones through the inode on the disk.
-/

namespace Athera.Minix

open Framework List

section

variable {sb : SuperBlock} {m m' : Memory} {v : Volume} {inode : DiskInode}

def DiskInode.HasZones (inode : DiskInode) : Prop :=
  inode.fileType = .reg ∨ inode.fileType = .dir ∨ inode.fileType = .lnk

def dataRefs (sb : SuperBlock) (v : Volume) (inode : DiskInode) : List UInt16 :=
  entries inode.direct ++ ((entries [inode.single]).flatMap (fun z => entries (v.table z)) ++
    (entries (doubleEntries sb v inode)).flatMap fun z => entries (v.table z))

def refs (sb : SuperBlock) (v : Volume) (inode : DiskInode) : List UInt16 :=
  dataRefs sb v inode ++ indexTables sb v inode

variable {z : UInt16}

theorem single_mem_tables (h : inode.single ≠ 0) : inode.single ∈ indexTables sb v inode := by
  rw [indexTables,entries_singleton h]
  exact mem_append_left _ mem_cons_self

theorem double_mem_tables (h : inode.double ≠ 0) : inode.double ∈ indexTables sb v inode := by
  rw [indexTables,entries_singleton h]
  exact mem_append_right _ (mem_append_left _ mem_cons_self)

theorem table_mem_tables (h : z ∈ entries (doubleEntries sb v inode)) :
    z ∈ indexTables sb v inode :=
  mem_append_right _ (mem_append_right _ h)

theorem mem_zoneTable_double (hdata : ∀ z ∈ indexTables sb (view sb m) inode, sb.IsData z)
    (h : z ∈ zoneTable sb m inode.double) : z ∈ entries (doubleEntries sb (view sb m) inode) := by
  by_cases hz : inode.double = 0
  · rw [hz] at h
    cases h
  · rw [zoneTable_eq (hdata _ (double_mem_tables hz)) hz] at h
    rw [doubleEntries,if_neg hz]
    exact mem_entries_of_takeWhile h

theorem mem_zoneTable {t : UInt16} (ht : sb.IsData t) (h : z ∈ zoneTable sb m t) :
    z ∈ entries ((view sb m).table t) := by
  by_cases hz : t = 0
  · rw [hz] at h
    cases h
  · rw [zoneTable_eq ht hz] at h
    exact mem_entries_of_takeWhile h

theorem mem_dataRefs (hdata : ∀ z ∈ indexTables sb (view sb m) inode, sb.IsData z)
    (h : z ∈ dataZones sb m inode) : z ∈ dataRefs sb (view sb m) inode := by
  have hparts : z ∈ inode.direct.takeWhile (· != 0) ∨ z ∈ zoneTable sb m inode.single ∨
      z ∈ (zoneTable sb m inode.double).flatMap (zoneTable sb m) := by
    rw [dataZones] at h
    split at h
    next => exact .inl h
    next =>
      rw [append_assoc,mem_append,mem_append] at h
      exact h
  rw [dataRefs,mem_append,mem_append]
  rcases hparts with hd | hs | ht
  · exact .inl (mem_entries_of_takeWhile hd)
  · by_cases hz : inode.single = 0
    · rw [hz] at hs
      cases hs
    · refine .inr (.inl (mem_flatMap.mpr ⟨inode.single,?_,?_⟩))
      · rw [entries_singleton hz]
        exact mem_cons_self
      · exact mem_zoneTable (hdata _ (single_mem_tables hz)) hs
  · obtain ⟨t,htable,hz⟩ := mem_flatMap.mp ht
    have hin := mem_zoneTable_double hdata htable
    exact .inr (.inr (mem_flatMap.mpr ⟨t,hin,mem_zoneTable (hdata t (table_mem_tables hin)) hz⟩))

def SameTables (sb : SuperBlock) (v v' : Volume) (inode : DiskInode) : Prop :=
  ∀ z ∈ indexTables sb v inode, sb.IsData z ∧ v'.zone z = v.zone z

theorem SameTables.zoneTable_eq (h : SameTables sb (view sb m) (view sb m') inode)
    (hz : z ≠ 0 → z ∈ indexTables sb (view sb m) inode) : zoneTable sb m' z = zoneTable sb m z := by
  by_cases hzero : z = 0
  · rw [hzero,zoneTable_zero,zoneTable_zero]
  · obtain ⟨hdata,hsame⟩ := h z (hz hzero)
    rw [Minix.zoneTable_eq hdata hzero,Minix.zoneTable_eq hdata hzero,Volume.table,Volume.table,hsame]

theorem SameTables.dataZones_eq (h : SameTables sb (view sb m) (view sb m') inode) :
    dataZones sb m' inode = dataZones sb m inode := by
  have hrest : (zoneTable sb m inode.double).flatMap (zoneTable sb m') =
      (zoneTable sb m inode.double).flatMap (zoneTable sb m) := by
    rw [flatMap_def]
    congr 1
    apply map_congr_left
    intro t ht
    apply h.zoneTable_eq
    intro _
    exact table_mem_tables (mem_zoneTable_double (fun z hz => (h z hz).1) ht)
  rw [dataZones,dataZones,h.zoneTable_eq single_mem_tables,h.zoneTable_eq double_mem_tables,hrest]

theorem data_eq (h : ∀ z ∈ refs sb (view sb m) inode,
    sb.IsData z ∧ (view sb m').zone z = (view sb m).zone z) :
    data sb m' inode = data sb m inode := by
  have htables : SameTables sb (view sb m) (view sb m') inode :=
    fun z hz => h z (mem_append_right _ hz)
  have hbytes : (dataZones sb m inode).flatMap (readZone sb m') =
      (dataZones sb m inode).flatMap (readZone sb m) := by
    rw [flatMap_def]
    congr 1
    apply map_congr_left
    intro z hz
    have hin := mem_dataRefs (fun y hy => (htables y hy).1) hz
    obtain ⟨hdata,hsame⟩ := h z (mem_append_left _ hin)
    rw [← view_zone hdata,← view_zone hdata,hsame]
  rw [data,data,htables.dataZones_eq,hbytes]

end

/-- The zones that the inodes refer to are in use, and each is referred to once. -/
structure Clean (sb : SuperBlock) (v : Volume) : Prop where
  padded : v.Padded sb
  inUse : ∀ ino, v.Allocated sb ino → (v.inode ino).HasZones →
    ∀ z ∈ refs sb v (v.inode ino), v.InUse sb z
  nodup : ∀ ino, v.Allocated sb ino → (v.inode ino).HasZones → (refs sb v (v.inode ino)).Nodup
  apart : ∀ i j, v.Allocated sb i → v.Allocated sb j → (v.inode i).HasZones → (v.inode j).HasZones →
    i ≠ j → ∀ z ∈ refs sb v (v.inode i), z ∉ refs sb v (v.inode j)

/-- The bitmaps are the same, and so are the inodes and the contents of all files and directories. -/
def Untouched (sb : SuperBlock) (m m' : Memory) : Prop :=
  (view sb m').imap = (view sb m).imap ∧ (view sb m').zmap = (view sb m).zmap ∧
  ∀ ino, (view sb m).Allocated sb ino → readInode sb m' ino = readInode sb m ino ∧
    ((readInode sb m ino).HasZones →
      data sb m' (readInode sb m ino) = data sb m (readInode sb m ino))

variable {sb : SuperBlock} {m m' : Memory}

/-- It is enough that the inodes that are allocated and the zones that are in use stay. -/
theorem Clean.untouched (h : Clean sb (view sb m)) (himap : (view sb m').imap = (view sb m).imap)
    (hzmap : (view sb m').zmap = (view sb m).zmap)
    (hinode : ∀ ino, (view sb m).Allocated sb ino → (view sb m').inode ino = (view sb m).inode ino)
    (hzone : ∀ z, (view sb m).InUse sb z → (view sb m').zone z = (view sb m).zone z) :
    Untouched sb m m' := by
  refine ⟨himap,hzmap,?_⟩
  intro ino halloc
  have hread := hinode ino halloc
  rw [view_inode halloc.1,view_inode halloc.1] at hread
  refine ⟨hread,?_⟩
  intro hhas
  apply data_eq
  intro z hz
  rw [← view_inode halloc.1] at hhas hz
  have huse := h.inUse ino halloc hhas z hz
  exact ⟨huse.1,hzone z huse⟩

section

variable {sb : SuperBlock} {m : Memory} {v : Volume} {zones zones' : List UInt16}

def Volume.release (sb : SuperBlock) (v : Volume) (zones : List UInt16) : Volume :=
  v.setZmap fun i => v.zmap i && !decide (i ∈ zones.map sb.zoneBit)

@[simp] theorem release_inode : (v.release sb zones).inode = v.inode := rfl

@[simp] theorem release_zone : (v.release sb zones).zone = v.zone := rfl

@[simp] theorem release_imap : (v.release sb zones).imap = v.imap := rfl

@[simp] theorem release_zmap : (v.release sb zones).zmap =
    fun i => v.zmap i && !decide (i ∈ zones.map sb.zoneBit) := rfl

theorem release_nil : v.release sb [] = v := by
  apply Volume.ext
  · rfl
  · rfl
  · rfl
  · simp

theorem release_cons (z : UInt16) :
    (v.markZone sb z false).release sb zones = v.release sb (z::zones) := by
  apply Volume.ext
  · rfl
  · rfl
  · rfl
  · funext i
    by_cases hi : i = sb.zoneBit z
    · simp [hi]
    · simp [hi]

theorem release_append : (v.release sb zones).release sb zones' = v.release sb (zones++zones') := by
  apply Volume.ext
  · rfl
  · rfl
  · rfl
  · simp [Bool.and_assoc]

theorem release_congr (h : ∀ z, z ∈ zones ↔ z ∈ zones') : v.release sb zones = v.release sb zones' := by
  have hsame : ∀ i, i ∈ zones.map sb.zoneBit ↔ i ∈ zones'.map sb.zoneBit := by
    intro i
    simp only [mem_map,h]
  apply Volume.ext
  · rfl
  · rfl
  · rfl
  · simp only [release_zmap,hsame]

theorem view_freeZones (g : Geometry sb) (h : ∀ z ∈ zones, sb.IsData z) :
    view sb (freeZones sb zones m) = (view sb m).release sb zones := by
  induction zones generalizing m with
  | nil => rw [release_nil]; rfl
  | cons z zones ih =>
    have hstep := ih (m := freeZone sb z m) fun y hy => h y (mem_cons_of_mem z hy)
    rw [view_freeZone g (h z mem_cons_self),release_cons] at hstep
    exact hstep

end

variable {sb : SuperBlock} {m : Memory} {v : Volume} {inode : DiskInode} {zones : List UInt16}

theorem freeZones_entries (z : UInt16) :
    (if z ≠ 0 then freeZone sb z m else m) = freeZones sb (entries [z]) m := by
  by_cases hz : z = 0
  · rw [hz]
    rfl
  · rw [if_pos hz,entries_singleton hz]
    rfl

theorem Dense.entries_single (h : Dense sb v inode zones) :
    entries [inode.single] = singleUsed inode zones := by
  have hsingle := h.single
  rw [SingleHolds] at hsingle
  rw [singleUsed]
  split
  next hfew =>
    rw [if_pos hfew] at hsingle
    rw [hsingle]
    rfl
  next => rfl

theorem Dense.double_tables (h : Dense sb (view sb m) inode zones) (g : Geometry sb) :
    (inode.double = 0 ∧ doubleUsed sb (view sb m) inode zones = []) ∨
    (inode.double ≠ 0 ∧ sb.IsData inode.double ∧
      doubleUsed sb (view sb m) inode zones = inode.double::zoneTable sb m inode.double) := by
  obtain ⟨k,hdouble⟩ := h.double
  rw [DoubleHolds] at hdouble
  rw [doubleUsed]
  by_cases hfew : zones.length ≤ directZones+perTable sb
  · rw [if_pos hfew] at hdouble ⊢
    exact .inl ⟨hdouble,rfl⟩
  · rw [if_neg hfew] at hdouble ⊢
    obtain ⟨huse,tables,htable,hholds,htables⟩ := hdouble
    have hne := g.ne_zero huse.1
    have hcount : tables.length = (groups sb zones).length := hholds.length_eq
    have hall : ∀ z ∈ tables, (z != 0) = true := by
      intro z hz
      simpa using g.ne_zero (htables z hz).1
    refine .inr ⟨hne,huse.1,?_⟩
    rw [zoneTable_eq huse.1 hne,doubleEntries,if_neg hne,htable,← hcount,take_left,
      entries_of_inUse g htables,entries_singleton hne,takeWhile_append_of_pos hall,takeWhile_zeros,
      append_nil]
    rfl

theorem zoneTable_of_release {m' : Memory} {l : List UInt16} {z : UInt16} (hz : sb.IsData z)
    (hview : view sb m' = (view sb m).release sb l) : zoneTable sb m' z = zoneTable sb m z := by
  by_cases hzero : z = 0
  · rw [hzero,zoneTable_zero,zoneTable_zero]
  · rw [zoneTable_eq hz hzero,zoneTable_eq hz hzero,hview]
    rfl

theorem Dense.free_double (h : Dense sb (view sb m) inode zones) (g : Geometry sb) {m' : Memory}
    {l : List UInt16} (hview : view sb m' = (view sb m).release sb l)
    (hdata : ∀ z ∈ doubleUsed sb (view sb m) inode zones, sb.IsData z) :
    view sb (if inode.double ≠ 0 then
        freeZone sb inode.double (freeZones sb (zoneTable sb m' inode.double) m') else m') =
      (view sb m').release sb (doubleUsed sb (view sb m) inode zones) := by
  cases h.double_tables g with
  | inl hnone => rw [if_neg (not_not_intro hnone.1),hnone.2,release_nil]
  | inr hsome =>
    obtain ⟨hne,hdouble,hused⟩ := hsome
    have hlast : freeZone sb inode.double (freeZones sb (zoneTable sb m' inode.double) m') =
        freeZones sb (zoneTable sb m inode.double ++ [inode.double]) m' := by
      rw [zoneTable_of_release hdouble hview,freeZones,freeZones,foldl_append]
      rfl
    have hsame : ∀ z, z ∈ zoneTable sb m inode.double ++ [inode.double] ↔
        z ∈ doubleUsed sb (view sb m) inode zones := by
      intro z
      rw [hused,mem_append,mem_singleton,mem_cons,or_comm]
    rw [if_pos hne,hlast,view_freeZones g (fun z hz => hdata z ((hsame z).mp hz)),release_congr hsame]

theorem view_freeInodeBlocksAt (g : Geometry sb) {ino : UInt16} (hino : sb.IsInode ino)
    (hread : (view sb m).inode ino = inode) (h : Dense sb (view sb m) inode zones)
    (hdata : ∀ z ∈ held sb (view sb m) inode zones, sb.IsData z) :
    view sb (freeInodeBlocksAt sb ino m) =
      (((view sb m).release sb (held sb (view sb m) inode zones)).setInode ino .zero).markInode ino
        false := by
  have hinode : readInode sb m ino = inode := by rw [← hread,view_inode hino]
  have hdouble : ∀ z ∈ doubleUsed sb (view sb m) inode zones, sb.IsData z :=
    fun z hz => hdata z (mem_append_right _ (mem_append_right _ hz))
  have hfirst := @view_freeZones sb m zones g fun z hz => hdata z (mem_append_left _ hz)
  have hsecond := @view_freeZones sb (freeZones sb zones m) (entries [inode.single]) g (by
    rw [h.entries_single]
    exact fun z hz => hdata z (mem_append_right _ (mem_append_left _ hz)))
  rw [hfirst,release_append] at hsecond
  have hthird := h.free_double g hsecond hdouble
  rw [hsecond,release_append,append_assoc] at hthird
  rw [freeInodeBlocksAt,hinode,h.dataZones_eq g]
  rw [view_freeInode g hino,view_writeInode g hino,freeZones_entries,hthird,h.entries_single,
    held,usedTables]

end Athera.Minix
