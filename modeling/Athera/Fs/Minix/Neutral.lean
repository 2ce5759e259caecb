import Athera.Fs.Minix.Creation
import Athera.Fs.Minix.Slots

/-!
# Creating and deleting a file

A file is created in a free slot, written to, and removed by its name. A slot keeps only the bytes
of a name before a zero byte.
-/

namespace Athera.Minix

open Framework List Function Volume DiskInode

section

/-- A call of `write_at`, perhaps after opening the file again. -/
structure WriteCall where
  reopen : Bool
  buf : List UInt8
  offset : Nat

variable (sb : SuperBlock)

def File.handle (file : File) (call : WriteCall) (m : Memory) : File :=
  if call.reopen then fileAt sb m file.ino else file

def writeAll : File → List WriteCall → Memory → File × Memory
  | file, [], m => (file, m)
  | file, call :: calls, m =>
    let r := (file.handle sb call m).writeAt sb call.buf call.offset m
    writeAll r.2.1 calls r.2.2

/-- No allocation of the calls fails. -/
def allocatesAll : File → List WriteCall → Memory → Bool
  | _, [], _ => true
  | file, call :: calls, m =>
    let r := (file.handle sb call m).writeAt sb call.buf call.offset m
    (file.handle sb call m).allocates sb call.buf call.offset m && allocatesAll r.2.1 calls r.2.2

end

section

variable {sb : SuperBlock} {m : Memory} {v w : Volume} {file : File} {taken : List UInt16}

/-- A file that was new in `v` and holds exactly the zones that were taken since. -/
structure NewFile (sb : SuperBlock) (v w : Volume) (file : File) (taken : List UInt16) : Prop where
  padded : w.Padded sb
  opened : OpenFile sb w file
  grown : Grown sb (v.setInode file.ino file.inode) w [] taken
  perm : (held sb w file.inode file.zones).Perm taken
  mode : file.inode.mode = regMode
  nlinks : file.inode.nlinks = 1

theorem setInode_setInode (v : Volume) (ino : UInt16) (x y : DiskInode) :
    (v.setInode ino x).setInode ino y = v.setInode ino y := by
  simp only [setInode,update_idem]

theorem NewFile.write {buf : List UInt8} {offset : Nat} (h : NewFile sb v (view sb m) file taken)
    (g : Geometry sb) (hok : file.allocates sb buf offset m = true) :
    ∃ taken', NewFile sb v (view sb (file.writeAt sb buf offset m).2.2)
        (file.writeAt sb buf offset m).2.1 taken' ∧
      (file.writeAt sb buf offset m).2.1.ino = file.ino := by
  obtain ⟨taken',hw⟩ := h.opened.writeAt g h.padded fun hbuf => by
    have hempty : buf.isEmpty = false := by simpa using hbuf
    rw [File.allocates,hempty,Bool.false_or,Bool.and_eq_true] at hok
    exact hok.2
  generalize file.writeAt sb buf offset m = r at hw ⊢
  have hpadded : ((view sb m).setInode file.ino r.2.1.inode).Padded sb := ⟨h.padded.imap,h.padded.zmap⟩
  have hbase := h.grown.setInode file.ino r.2.1.inode
  rw [setInode_setInode] at hbase
  have hother := hw.other
  refine ⟨taken++taken',⟨hw.grown.padded hpadded,hw.opened,?_,?_,?_,?_⟩,hw.ino⟩
  · rw [hw.ino]
    refine (hbase.trans hw.grown).mono ?_
    intro z hz
    exact .inr (mem_append_left _ (h.perm.subset hz))
  · exact hw.perm.trans (h.perm.append_right taken')
  · rw [hother]
    exact h.mode
  · rw [hother]
    exact h.nlinks

theorem NewFile.handle_eq (h : NewFile sb v (view sb m) file taken) (g : Geometry sb)
    (call : WriteCall) : file.handle sb call m = file := by
  rw [File.handle]
  split
  next => exact h.opened.fileAt_eq g
  next => rfl

theorem NewFile.writeAll (g : Geometry sb) (calls : List WriteCall) : ∀ {m file taken},
    NewFile sb v (view sb m) file taken → allocatesAll sb file calls m = true →
    ∃ taken', NewFile sb v (view sb (writeAll sb file calls m).2) (writeAll sb file calls m).1 taken' ∧
      (writeAll sb file calls m).1.ino = file.ino := by
  induction calls with
  | nil =>
    intro m file taken h _
    exact ⟨taken,h,rfl⟩
  | cons call calls ih =>
    intro m file taken h hok
    rw [allocatesAll,h.handle_eq g call,Bool.and_eq_true] at hok
    obtain ⟨taken₁,h₁,hino₁⟩ := h.write g hok.1
    obtain ⟨taken₂,h₂,hino₂⟩ := ih h₁ hok.2
    rw [Minix.writeAll,h.handle_eq g call]
    exact ⟨taken₂,h₂,hino₂.trans hino₁⟩

end

section

variable {sb : SuperBlock} {m m' : Memory} {dirIno ino z : UInt16} {name : List UInt8}

structure IsDir (sb : SuperBlock) (v : Volume) (dirIno : UInt16) : Prop where
  allocated : v.Allocated sb dirIno
  type : (v.inode dirIno).fileType = .dir

def dirZones (sb : SuperBlock) (m : Memory) (dirIno : UInt16) : List UInt16 :=
  dataZones sb m (readInode sb m dirIno)

section

variable (h : IsDir sb (view sb m) dirIno) (hc : Clean sb (view sb m))
include h hc

theorem IsDir.tables_inUse :
    ∀ t ∈ indexTables sb (view sb m) ((view sb m).inode dirIno), (view sb m).InUse sb t :=
  fun t ht => hc.inUse dirIno h.allocated (.inr (.inl h.type)) t (mem_append_right _ ht)

theorem IsDir.zone (hz : z ∈ dirZones sb m dirIno) : (view sb m).InUse sb z ∧
      z ∉ indexTables sb (view sb m) ((view sb m).inode dirIno) := by
  rw [dirZones,← view_inode h.allocated.1] at hz
  have hin := mem_dataRefs (fun t ht => (h.tables_inUse hc t ht).1) hz
  have hhas : ((view sb m).inode dirIno).HasZones := .inr (.inl h.type)
  refine ⟨hc.inUse dirIno h.allocated hhas z (mem_append_left _ hin),?_⟩
  intro ht
  exact (nodup_append.mp (hc.nodup dirIno h.allocated hhas)).2.2 z hin z ht rfl

theorem IsDir.dirZones_eq
    (hinode : ((view sb m').inode dirIno).zone = ((view sb m).inode dirIno).zone)
    (hzone : ∀ t ∈ indexTables sb (view sb m) ((view sb m).inode dirIno),
      (view sb m').zone t = (view sb m).zone t) : dirZones sb m' dirIno = dirZones sb m dirIno := by
  have htables : SameTables sb (view sb m) (view sb m') ((view sb m).inode dirIno) :=
    fun t ht => ⟨(h.tables_inUse hc t ht).1,hzone t ht⟩
  have hsame : dataZones sb m' ((view sb m').inode dirIno) =
      dataZones sb m' ((view sb m).inode dirIno) := by
    rw [dataZones,dataZones,direct,direct,single,single,double,double,hinode]
  rw [dirZones,dirZones,← view_inode h.allocated.1,← view_inode h.allocated.1,hsame,
    htables.dataZones_eq]

end

/-- A new inode `ino`, and an entry for it in the slot `i` of zone `z`. -/
structure Entered (sb : SuperBlock) (m m' : Memory) (dirIno ino : UInt16) (name : List UInt8)
    (z : UInt16) (i : Nat) : Prop where
  valid : sb.IsInode ino
  clear : (view sb m).imap ino.toNat = false
  zone : z ∈ dirZones sb m dirIno
  index : i < (zoneSlots sb m z).length
  after : ∃ size, view sb m' = (((view sb m).newInode ino regMode).setZone z
    (putSlot sb (readZone sb m z) i (dirSlot sb ino name))).setInode dirIno
      { (view sb m).inode dirIno with size := size }

theorem createFile_entered (h : IsDir sb (view sb m) dirIno) (g : Geometry sb)
    (hc : Clean sb (view sb m)) (hname : validName sb name = true)
    (hfree : ∃ z ∈ dirZones sb m dirIno, freeSlot sb m z ≠ none)
    (hcreate : createFile sb dirIno name m = (some ino, m')) :
    ∃ z i, Entered sb m m' dirIno ino name z i := by
  rw [createFile,hname,Bool.not_true,if_neg Bool.false_ne_true] at hcreate
  rcases halloc : allocEmptyInode sb regMode m with ⟨_ | x,m₁⟩
  · rw [halloc] at hcreate
    cases hcreate
  · rw [halloc] at hcreate
    simp only [Prod.mk.injEq,Option.some.injEq] at hcreate
    obtain ⟨rfl,rfl⟩ := hcreate
    obtain ⟨hino,hclear,hview⟩ := allocEmptyInode_some g hc.padded halloc
    have hinode : (view sb m₁).inode dirIno = (view sb m).inode dirIno := by
      rw [hview]
      exact (newInode_inode h.allocated hclear).2
    have hsame : ∀ z, (view sb m₁).zone z = (view sb m).zone z := by
      intro z
      rw [hview]
      rfl
    have hzones : dirZones sb m₁ dirIno = dirZones sb m dirIno :=
      h.dirZones_eq hc (by rw [hinode]) fun t _ => hsame t
    have hslots : ∀ z ∈ dirZones sb m dirIno, zoneSlots sb m₁ z = zoneSlots sb m z :=
      fun z hz => zoneSlots_congr (h.zone hc hz).1.1 (hsame z)
    have hfree₁ : ∃ z ∈ dirZones sb m dirIno, freeSlot sb m₁ z ≠ none := by
      obtain ⟨z,hz,hslot⟩ := hfree
      refine ⟨z,hz,?_⟩
      rwa [freeSlot,hslots z hz]
    obtain ⟨z,hz,j,i,hi,hadd⟩ := @addIn_some sb m₁ dirIno (readInode sb m₁ dirIno) _
      (dirSlot sb x name) hfree₁ 0
    have hlen := (validName_iff.mp hname).2.1
    have hdata := (h.zone hc hz).1.1
    have hread : readZone sb m₁ z = readZone sb m z := by
      rw [← view_zone hdata,← view_zone hdata,hsame]
    have hindex := freeSlot_lt hi
    obtain ⟨size,hplace⟩ := @view_placeEntry sb m₁ dirIno z (readInode sb m₁ dirIno)
      (dirSlot sb x name) g hdata h.allocated.1 (view_inode h.allocated.1) (length_dirSlot hlen) i j hindex
    refine ⟨z,i,hino,hclear,hz,hslots z hz ▸ hindex,size,?_⟩
    rw [← hzones,dirZones] at hadd
    rw [addDirEntryAt,hadd]
    rw [hplace,hread,hview,← view_inode h.allocated.1,hinode]

variable {i : Nat} {x : DiskInode} {taken : List UInt16} {m₂ : Memory}

section

variable (he : Entered sb m m' dirIno ino name z i) (h : IsDir sb (view sb m) dirIno) {y : UInt16}
include he h

theorem Entered.dir_ne : dirIno ≠ ino := (@newInode_inode sb _ ino 0 dirIno h.allocated he.clear).1

theorem Entered.facts : (view sb m').imap = ((view sb m).newInode ino regMode).imap ∧
    (view sb m').zmap = (view sb m).zmap ∧ (view sb m').inode ino = emptyInode regMode ∧
    ((view sb m').inode dirIno).zone = ((view sb m).inode dirIno).zone ∧
    (view sb m').zone = Function.update (view sb m).zone z
      (putSlot sb (readZone sb m z) i (dirSlot sb ino name)) := by
  obtain ⟨size,hview⟩ := he.after
  have hne := he.dir_ne h
  rw [hview]
  refine ⟨rfl,rfl,?_,?_,rfl⟩
  · rw [setInode_inode,update_of_ne hne.symm]
    exact update_self ..
  · rw [setInode_inode,update_self]

theorem Entered.newFile
    (hc : Clean sb (view sb m)) : NewFile sb (view sb m') (view sb m') (newFile ino regMode) [] := by
  obtain ⟨himap,hzmap,hinode,_,_⟩ := he.facts h
  have hnew := @newInode_padded sb _ ino regMode hc.padded he.valid
  have hopen := @newFile_open sb (view sb m') ino regMode he.valid
  refine ⟨⟨?_,?_⟩,⟨?_,he.valid,hinode,?_,?_,Nat.zero_le _⟩,?_,?_,rfl,rfl⟩
  · rw [himap]
    exact hnew.imap
  · rw [hzmap]
    exact hc.padded.zmap
  · have hzone : (view sb m').zone = ((view sb m').newInode ino regMode).zone := rfl
    have hmap : (view sb m').zmap = ((view sb m').newInode ino regMode).zmap := rfl
    exact (hopen.dense.of_same hzone hmap rfl).1
  · simp [Minix.newFile,newFile_held]
  · simp [Minix.newFile,newFile_held]
  · have hself : (view sb m').setInode (Minix.newFile ino regMode).ino
        (Minix.newFile ino regMode).inode = view sb m' := setInode_self hinode
    rw [hself]
    exact Grown.refl ..
  · rw [Minix.newFile,newFile_held]

theorem Entered.zone_later (hg : Grown sb ((view sb m').setInode ino x) (view sb m₂) [] taken)
    (hy : (view sb m).InUse sb y) : y ∉ taken ∧ (view sb m₂).zone y = Function.update (view sb m).zone z
      (putSlot sb (readZone sb m z) i (dirSlot sb ino name)) y := by
  obtain ⟨_,hzmap,_,_,hzone⟩ := he.facts h
  have hnot : y ∉ taken := by
    apply hg.not_taken
    refine ⟨hy.1,?_⟩
    rw [setInode_zmap,hzmap]
    exact hy.2
  rw [hg.zone y (by simp) hnot,setInode_zone,hzone]
  exact ⟨hnot,rfl⟩

theorem Entered.dirZones_later (hc : Clean sb (view sb m))
    (hg : Grown sb ((view sb m').setInode ino x) (view sb m₂) [] taken) :
    dirZones sb m₂ dirIno = dirZones sb m dirIno := by
  apply h.dirZones_eq hc
  · rw [hg.inode,setInode_inode,update_of_ne (he.dir_ne h)]
    exact (he.facts h).2.2.2.1
  · intro t ht
    have hne : t ≠ z := fun hz => (h.zone hc he.zone).2 (hz ▸ ht)
    rw [(he.zone_later h hg (h.tables_inUse hc t ht)).2,update_of_ne hne]

theorem Entered.slots_later (hc : Clean sb (view sb m)) (hlen : name.length ≤ maxName sb)
    (hg : Grown sb ((view sb m').setInode ino x) (view sb m₂) [] taken)
    (hy : y ∈ dirZones sb m dirIno) :
    zoneSlots sb m₂ y = if y = z then (zoneSlots sb m z).set i (dirSlot sb ino name)
      else zoneSlots sb m y := by
  have huse := (h.zone hc hy).1
  have hzone := (he.zone_later h hg huse).2
  split
  next hyz =>
    rw [hyz] at huse hzone ⊢
    rw [update_self] at hzone
    have hindex := he.index
    rw [view_zone huse.1] at hzone
    rw [zoneSlots,length_slots] at hindex
    rw [zoneSlots,hzone,putSlot,slots_patch (length_dirSlot hlen) hindex,zoneSlots]
  next hyz =>
    rw [update_of_ne hyz] at hzone
    exact zoneSlots_congr huse.1 hzone

end

end

variable {sb : SuperBlock} {m m' m₂ : Memory} {dirIno ino z : UInt16} {name : List UInt8} {i : Nat}
  {file : File} {taken : List UInt16}

section

variable (he : Entered sb m m' dirIno ino name z i)
include he

theorem Entered.carries_later
    (h : IsDir sb (view sb m) dirIno) (hc : Clean sb (view sb m)) (hlen : name.length ≤ maxName sb)
    (habsent : findDirEntryIno sb dirIno name m = none) {x : DiskInode}
    (hg : Grown sb ((view sb m').setInode ino x) (view sb m₂) [] taken) :
    (∀ y ∈ dirZones sb m dirIno, ∀ s ∈ zoneSlots sb m₂ y, carries name s = true →
      s = dirSlot sb ino name) ∧ dirSlot sb ino name ∈ zoneSlots sb m₂ z := by
  have hnone := (@findDirEntryIno_eq_none sb m dirIno (dirZones sb m dirIno) name rfl).mp habsent
  constructor
  · intro y hy s hs hcarries
    rw [he.slots_later h hc hlen hg hy] at hs
    split at hs
    next =>
      cases mem_or_eq_of_mem_set hs with
      | inl hin =>
        rw [hnone z he.zone s hin] at hcarries
        cases hcarries
      | inr heq => exact heq
    next =>
      rw [hnone y hy s hs] at hcarries
      cases hcarries
  · rw [he.slots_later h hc hlen hg he.zone,if_pos rfl]
    exact mem_set he.index ..

theorem Entered.ino_ne : ino ≠ 0 := by
  intro hzero
  have hle := he.valid.1
  rw [hzero] at hle
  cases hle

section

variable (h : IsDir sb (view sb m) dirIno) (hc : Clean sb (view sb m)) (hname : validName sb name = true)
include h hc hname

theorem Entered.lost (hvalid : utf8Valid name = true)
    (habsent : findDirEntryIno sb dirIno name m = none) (hzero : (0 : UInt8) ∈ name) {x : DiskInode}
    (hg : Grown sb ((view sb m').setInode ino x) (view sb m₂) [] taken) :
    unlink sb dirIno name m₂ = (false, m₂) := by
  have hlen := (validName_iff.mp hname).2.1
  obtain ⟨honly,_⟩ := he.carries_later h hc hlen habsent hg
  have hnone : findDirEntryIno sb dirIno name m₂ = none := by
    rw [findDirEntryIno_eq_none (he.dirZones_later h hc hg)]
    intro y hy s hs
    by_contra hcarries
    rw [Bool.not_eq_false] at hcarries
    have heq := honly y hy s hs hcarries
    rw [heq,carries_dirSlot hvalid hname he.ino_ne] at hcarries
    exact hcarries hzero
  rw [unlink,hname,Bool.not_true,if_neg Bool.false_ne_true,hnone]

theorem Entered.removed (hvalid : utf8Valid name = true)
    (habsent : findDirEntryIno sb dirIno name m = none) (hzero : (0 : UInt8) ∉ name)
    (hf : NewFile sb (view sb m') (view sb m₂) file taken) (hino : file.ino = ino) :
    ∃ y ∈ dirZones sb m dirIno, ∃ k < (zoneSlots sb m₂ y).length,
      unlink sb dirIno name m₂ = (true, freeInodeBlocksAt sb ino (writeZone sb y
        (putSlot sb (readZone sb m₂ y) k (List.replicate (entrySize sb) 0)) m₂)) := by
  have hlen := (validName_iff.mp hname).2.1
  have hg := hf.grown
  rw [hino] at hg
  obtain ⟨honly,hin⟩ := he.carries_later h hc hlen habsent hg
  have hzones := he.dirZones_later h hc hg
  have hsome : ∃ y ∈ dirZones sb m dirIno, ∃ s ∈ zoneSlots sb m₂ y, carries name s = true :=
    ⟨z,he.zone,_,hin,(carries_dirSlot hvalid hname he.ino_ne).mpr hzero⟩
  have hfind : findDirEntryIno sb dirIno name m₂ = some ino := by
    apply findDirEntryIno_eq_some hzones _ hsome
    intro y hy s hs hcarries
    rw [honly y hy s hs hcarries,slotIno_dirSlot hlen]
  obtain ⟨y,hy,k,hk,hremove⟩ := removeIn_true hsome
  have hread : readInode sb m₂ ino = file.inode := by
    rw [← hf.opened.disk,hino,view_inode he.valid]
  have htype : file.inode.fileType ≠ .dir := by
    rw [fileType,hf.mode]
    decide
  refine ⟨y,hy,k,hk,?_⟩
  rw [unlink,hname,Bool.not_true,if_neg Bool.false_ne_true,hfind]
  dsimp only
  rw [hread,if_neg htype,removeDirEntry,← dirZones,hzones,hremove]
  dsimp only
  rw [hf.nlinks,if_pos (by decide)]

end

end

theorem NewFile.free_maps (hf : NewFile sb (view sb m') (view sb m₂) file taken) (g : Geometry sb)
    {block : List UInt8} (hlen : block.length = sb.zoneSize) (hy : sb.IsData y)
    (hnot : y ∉ taken) : (view sb (freeInodeBlocksAt sb file.ino (writeZone sb y block m₂))).imap =
        Function.update (view sb m').imap file.ino.toNat false ∧
      (view sb (freeInodeBlocksAt sb file.ino (writeZone sb y block m₂))).zmap = (view sb m').zmap := by
  have hview := @view_writeZone sb m₂ g y hy block hlen
  have hwrite := Grown.write sb (view sb m₂) y block
  rw [← hview] at hwrite
  obtain ⟨hdense,hused⟩ := hf.opened.dense.grown g hwrite (by
    intro t ht hin
    rw [mem_singleton] at hin
    exact hnot (hin ▸ hf.perm.subset (mem_append_right _ ht)))
  have hheld : held sb (view sb (writeZone sb y block m₂)) file.inode file.zones =
      held sb (view sb m₂) file.inode file.zones := by rw [held,held,hused]
  have hinode : (view sb (writeZone sb y block m₂)).inode file.ino = file.inode := by
    rw [hwrite.inode]
    exact hf.opened.disk
  have hfree := view_freeInodeBlocksAt g hf.opened.valid hinode hdense (by
    rw [hheld]
    exact fun t ht => (hf.opened.inUse t ht).1)
  rw [hfree,hheld,hview]
  constructor
  · rw [markInode_imap,setInode_imap,release_imap,setZone_imap,hf.grown.imap]
    rfl
  · exact hf.grown.release_zmap fun t => hf.perm.mem_iff

def MapsKept (sb : SuperBlock) (m m' : Memory) : Prop :=
  (view sb m').imap = (view sb m).imap ∧ (view sb m').zmap = (view sb m).zmap

section

variable (he : Entered sb m m' dirIno ino name z i) (h : IsDir sb (view sb m) dirIno)
include he h

theorem Entered.kept
    (g : Geometry sb) (hc : Clean sb (view sb m)) (hname : validName sb name = true)
    (hvalid : utf8Valid name = true) (habsent : findDirEntryIno sb dirIno name m = none)
    (hzero : (0 : UInt8) ∉ name) (hf : NewFile sb (view sb m') (view sb m₂) file taken)
    (hino : file.ino = ino) : MapsKept sb m (unlink sb dirIno name m₂).2 := by
  obtain ⟨y,hy,k,hk,hunlink⟩ := he.removed h hc hname hvalid habsent hzero hf hino
  have huse := (h.zone hc hy).1
  have hg := hf.grown
  rw [hino] at hg
  obtain ⟨himap,hzmap,_,_,_⟩ := he.facts h
  obtain ⟨hfinal,hfinal'⟩ := hf.free_maps g (length_putSlot hk length_replicate) huse.1
    (he.zone_later h hg huse).1
  rw [hino] at hfinal hfinal'
  rw [hunlink]
  refine ⟨?_,hfinal'.trans hzmap⟩
  rw [hfinal,himap]
  exact newInode_imap he.clear

theorem Entered.not_kept
    (hc : Clean sb (view sb m)) (hname : validName sb name = true) (hvalid : utf8Valid name = true)
    (habsent : findDirEntryIno sb dirIno name m = none) (hzero : (0 : UInt8) ∈ name)
    (hf : NewFile sb (view sb m') (view sb m₂) file taken) (hino : file.ino = ino) :
    ¬ MapsKept sb m (unlink sb dirIno name m₂).2 := by
  have hg := hf.grown
  rw [hino] at hg
  rw [he.lost h hc hname hvalid habsent hzero hg]
  intro hkept
  have hbit := congrFun hkept.1 ino.toNat
  rw [hg.imap,setInode_imap,(he.facts h).1,he.clear] at hbit
  simp [newInode] at hbit

theorem Entered.written (g : Geometry sb) (hc : Clean sb (view sb m)) {calls : List WriteCall}
    (hok : allocatesAll sb (fileAt sb m' ino) calls m' = true) :
    ∃ taken, NewFile sb (view sb m') (view sb (writeAll sb (fileAt sb m' ino) calls m').2)
        (writeAll sb (fileAt sb m' ino) calls m').1 taken ∧
      (writeAll sb (fileAt sb m' ino) calls m').1.ino = ino := by
  have hnew := he.newFile h hc
  have hfile : fileAt sb m' ino = Minix.newFile ino regMode := hnew.opened.fileAt_eq g
  rw [hfile] at hok ⊢
  exact hnew.writeAll g calls hok

end

/-- A file that is created in a free slot, written to and removed leaves both bitmaps as they were, for
names without a zero byte. -/
theorem create_delete_neutral (g : Geometry sb) (hc : Clean sb (view sb m))
    (h : IsDir sb (view sb m) dirIno) (hname : validName sb name = true)
    (hvalid : utf8Valid name = true) (habsent : findDirEntryIno sb dirIno name m = none)
    (hfree : ∃ z ∈ dirZones sb m dirIno, freeSlot sb m z ≠ none)
    (hcreate : createFile sb dirIno name m = (some ino, m')) (calls : List WriteCall)
    (hok : allocatesAll sb (fileAt sb m' ino) calls m' = true) :
    MapsKept sb m (unlink sb dirIno name (writeAll sb (fileAt sb m' ino) calls m').2).2 ↔
      (0 : UInt8) ∉ name := by
  obtain ⟨z,i,he⟩ := createFile_entered h g hc hname hfree hcreate
  obtain ⟨taken,hf,hino⟩ := he.written h g hc hok
  constructor
  · intro hkept hzero
    exact he.not_kept h hc hname hvalid habsent hzero hf hino hkept
  · intro hzero
    exact he.kept h g hc hname hvalid habsent hzero hf hino

theorem pair_eq {α β : Type} {p : α × β} {a : α} (h : p.1 = a) : p = (a, p.2) := by
  rw [← h]

theorem newImage_root : IsDir shortNames (view shortNames newImage) 1 :=
  ⟨by decide +kernel,by decide +kernel⟩

theorem newImage_free : ∃ z ∈ dirZones shortNames newImage 1, freeSlot shortNames newImage z ≠ none := by
  refine ⟨5,?_,by decide +kernel⟩
  exact mem_cons_self

/-- The file named `a`, zero, `b` is created as inode 2 and stays. -/
theorem file_with_zero_in_name_stays :
    validName shortNames [97,0,98] = true ∧ utf8Valid [97,0,98] = true ∧
    findDirEntryIno shortNames 1 [97,0,98] newImage = none ∧
    (createFile shortNames 1 [97,0,98] newImage).1 = some 2 ∧
    ¬ MapsKept shortNames newImage
      (unlink shortNames 1 [97,0,98] (createFile shortNames 1 [97,0,98] newImage).2).2 := by
  have hname : validName shortNames [97,0,98] = true := by decide
  have hvalid : utf8Valid [97,0,98] = true := by decide
  have habsent : findDirEntryIno shortNames 1 [97,0,98] newImage = none := by decide +kernel
  have hcreate : (createFile shortNames 1 [97,0,98] newImage).1 = some 2 := by decide +kernel
  obtain ⟨z,i,he⟩ := createFile_entered newImage_root newImage_geometry newImage_clean hname newImage_free
    (pair_eq hcreate)
  exact ⟨hname,hvalid,habsent,hcreate,he.not_kept newImage_root newImage_clean hname hvalid habsent
    (by decide) (he.newFile newImage_root newImage_clean) rfl⟩

/-- The file `a` of two bytes. -/
theorem create_delete_neutral_new :
    allocatesAll shortNames (fileAt shortNames (createFile shortNames 1 [97] newImage).2 2)
      [⟨true,[104,105],0⟩] (createFile shortNames 1 [97] newImage).2 = true ∧
    MapsKept shortNames newImage (unlink shortNames 1 [97]
      (writeAll shortNames (fileAt shortNames (createFile shortNames 1 [97] newImage).2 2)
        [⟨true,[104,105],0⟩] (createFile shortNames 1 [97] newImage).2).2).2 := by
  have hcreate : (createFile shortNames 1 [97] newImage).1 = some 2 := by decide +kernel
  have hok : allocatesAll shortNames (fileAt shortNames (createFile shortNames 1 [97] newImage).2 2)
      [⟨true,[104,105],0⟩] (createFile shortNames 1 [97] newImage).2 = true := by decide +kernel
  exact ⟨hok,(create_delete_neutral newImage_geometry newImage_clean newImage_root (by decide)
    (by decide) (by decide +kernel) newImage_free (pair_eq hcreate) _ hok).mpr (by decide)⟩

end Athera.Minix
