import Athera.Fs.Minix.Clean

/-!
# Creations that fail

A creation that answers with no inode leaves no trace, with one exception: a link target that needs
more zones than are free, of which there are more than seven.
-/

namespace Athera.Minix

open Framework List Function Volume DiskInode

inductive Creation where
  | file (dirIno : UInt16) (name : List UInt8)
  | dir (dirIno : UInt16) (name : List UInt8)
  | symlink (dirIno : UInt16) (name target : List UInt8)

def Creation.run (sb : SuperBlock) : Creation → Memory → Option UInt16 × Memory
  | .file dirIno name => createFile sb dirIno name
  | .dir dirIno name => createDir sb dirIno name
  | .symlink dirIno name target => Minix.symlink sb dirIno name target

def LeavesNoTrace (sb : SuperBlock) (m : Memory) (c : Creation) : Prop :=
  (c.run sb m).1 = none → Untouched sb m (c.run sb m).2

/-- A link target, if it comes to be written, fits into the free zones or finds at most seven. -/
def Creation.Fits (sb : SuperBlock) (v : Volume) : Creation → Prop
  | .symlink _ name target => validName sb name = true →
      (∃ ino, sb.IsInode ino ∧ v.imap ino.toNat = false) →
      v.freeZones sb ≤ directZones ∨ target.length ≤ v.freeZones sb * sb.zoneSize
  | _ => True

section

variable {sb : SuperBlock} {m m' : Memory} {v : Volume} {ino : UInt16} {mode : UInt16}

def Volume.newInode (v : Volume) (ino mode : UInt16) : Volume :=
  (v.markInode ino true).setInode ino (emptyInode mode)

theorem allocEmptyInode_none (g : Geometry sb) (hp : (view sb m).Padded sb)
    (h : allocEmptyInode sb mode m = (none, m')) :
    (∀ ino, sb.IsInode ino → (view sb m).imap ino.toNat = true) ∧ view sb m' = view sb m := by
  rw [allocEmptyInode] at h
  rcases halloc : allocInode sb m with ⟨_ | x,m₁⟩
  · rw [halloc] at h
    cases h
    exact allocInode_none g hp halloc
  · rw [halloc] at h
    cases h

theorem allocEmptyInode_some (g : Geometry sb) (hp : (view sb m).Padded sb)
    (h : allocEmptyInode sb mode m = (some ino, m')) :
    sb.IsInode ino ∧ (view sb m).imap ino.toNat = false ∧
      view sb m' = (view sb m).newInode ino mode := by
  rw [allocEmptyInode] at h
  rcases halloc : allocInode sb m with ⟨_ | x,m₁⟩
  · rw [halloc] at h
    cases h
  · rw [halloc] at h
    cases h
    obtain ⟨hino,hclear,hview⟩ := allocInode_some g hp halloc
    exact ⟨hino,hclear,by rw [view_writeInode g hino,hview,newInode]⟩

theorem newInode_padded (hp : v.Padded sb) (hino : sb.IsInode ino) :
    (v.newInode ino mode).Padded sb where
  imap := (hp.markInode hino true).imap
  zmap := hp.zmap

theorem newInode_freeZones : (v.newInode ino mode).freeZones sb = v.freeZones sb := rfl

def newFile (ino mode : UInt16) : File := ⟨ino,emptyInode mode,[]⟩

@[simp] theorem emptyInode_single : (emptyInode mode).single = 0 := rfl

@[simp] theorem emptyInode_double : (emptyInode mode).double = 0 := rfl

theorem newFile_direct : (emptyInode mode).direct = resize directZones [] := by
  rfl

theorem newFile_held : held sb v (emptyInode mode) [] = [] := by
  simp [held,usedTables,singleUsed,doubleUsed]

theorem newFile_open (hino : sb.IsInode ino) :
    OpenFile sb (v.newInode ino mode) (newFile ino mode) where
  dense := by
    refine ⟨by simp [newFile],newFile_direct,?_,0,?_⟩
    · simp [SingleHolds,newFile]
    · simp [DoubleHolds,newFile]
  valid := hino
  disk := update_self ..
  inUse := by simp [newFile,newFile_held]
  nodup := by simp [newFile,newFile_held]
  sized := Nat.zero_le _

theorem readInode_newFile (hino : sb.IsInode ino) (hview : view sb m' = v.newInode ino mode) :
    readInode sb m' ino = emptyInode mode := by
  rw [← view_inode hino,hview]
  exact update_self ..

theorem newInode_imap (hclear : v.imap ino.toNat = false) :
    Function.update (v.newInode ino mode).imap ino.toNat false = v.imap := by
  rw [newInode,setInode_imap,markInode_imap,update_idem,← hclear,update_eq_self]

theorem newInode_inode {j : UInt16} (hj : v.Allocated sb j) (hclear : v.imap ino.toNat = false) :
    j ≠ ino ∧ (v.newInode ino mode).inode j = v.inode j := by
  have hne : j ≠ ino := by
    intro he
    rw [he] at hj
    rw [hj.2] at hclear
    cases hclear
  exact ⟨hne,update_of_ne hne ..⟩

end

section

variable {sb : SuperBlock} {v w : Volume} {ino mode : UInt16} {inode : DiskInode}
  {taken freed : List UInt16}

theorem Grown.release_zmap (h : Grown sb v w [] taken) (hfreed : ∀ z, z ∈ freed ↔ z ∈ taken) :
    (w.release sb freed).zmap = v.zmap := by
  rw [release_congr hfreed]
  funext i
  rw [Minix.release_zmap]
  dsimp only
  rw [h.zmap]
  by_cases hi : i ∈ taken.map sb.zoneBit
  · obtain ⟨z,hz,rfl⟩ := mem_map.mp hi
    rw [(h.fresh z hz).2]
    simp [hi]
  · simp [hi]

theorem Grown.release_zmap_ne (g : Geometry sb) (h : Grown sb v w [] taken) {z : UInt16}
    (hz : z ∈ taken) (hnot : z ∉ freed) (hfreed : ∀ y ∈ freed, y ∈ taken) :
    (w.release sb freed).zmap ≠ v.zmap := by
  intro heq
  have hbit := congrFun heq (sb.zoneBit z)
  have hout : sb.zoneBit z ∉ freed.map sb.zoneBit := by
    intro hin
    obtain ⟨y,hy,hsame⟩ := mem_map.mp hin
    have hyz := g.zoneBit_inj (h.fresh y (hfreed y hy)).1 (h.fresh z hz).1 hsame
    exact hnot (hyz ▸ hy)
  rw [Minix.release_zmap] at hbit
  dsimp only at hbit
  rw [(h.taken_inUse hz).2,(h.fresh z hz).2] at hbit
  simp [hout] at hbit

/-- A new inode after a write, with the zones that were taken for it. -/
structure Started (sb : SuperBlock) (v w : Volume) (ino : UInt16) (inode : DiskInode)
    (zones taken : List UInt16) : Prop where
  grown : Grown sb (v.setInode ino inode) w [] taken
  dense : Dense sb w inode zones
  held : ∀ z ∈ held sb w inode zones, z ∈ taken

variable {m m' : Memory} {zones : List UInt16}

theorem Started.view_free (h : Started sb v (view sb m) ino inode zones taken) (g : Geometry sb)
    (hino : sb.IsInode ino) : view sb (freeInodeBlocksAt sb ino m) =
      (((view sb m).release sb (Minix.held sb (view sb m) inode zones)).setInode ino .zero).markInode ino
        false := by
  apply view_freeInodeBlocksAt g hino _ h.dense
  · intro z hz
    exact (h.grown.fresh z (h.held z hz)).1
  · rw [h.grown.inode]
    exact update_self ..

section

variable (h : Started sb ((view sb m).newInode ino mode) (view sb m') ino inode zones taken) (g : Geometry sb)
include h g

theorem Started.untouched (hc : Clean sb (view sb m)) (hino : sb.IsInode ino)
    (hclear : (view sb m).imap ino.toNat = false)
    (hall : ∀ z ∈ taken, z ∈ Minix.held sb (view sb m') inode zones) :
    Untouched sb m (freeInodeBlocksAt sb ino m') := by
  have hview := h.view_free g hino
  apply hc.untouched
  · rw [hview,markInode_imap,setInode_imap,release_imap,h.grown.imap]
    exact @newInode_imap _ ino mode hclear
  · rw [hview]
    exact h.grown.release_zmap fun z => ⟨h.held z,hall z⟩
  · intro j hj
    obtain ⟨hne,hsame⟩ := @newInode_inode sb _ ino mode j hj hclear
    rw [hview,markInode_inode,setInode_inode,update_of_ne hne,release_inode,
      h.grown.inode,setInode_inode,update_of_ne hne,hsame]
  · intro z hz
    have hnot : z ∉ taken := h.grown.not_taken hz
    rw [hview,markInode_zone,setInode_zone,release_zone,h.grown.zone z (by simp) hnot]
    rfl

theorem Started.not_untouched (hino : sb.IsInode ino) {z : UInt16} (hz : z ∈ taken)
    (hnot : z ∉ Minix.held sb (view sb m') inode zones) :
    ¬ Untouched sb m (freeInodeBlocksAt sb ino m') := by
  intro hun
  have hzmap := hun.2.1
  rw [h.view_free g hino] at hzmap
  exact h.grown.release_zmap_ne g hz hnot h.held hzmap

end

end

section

variable {sb : SuperBlock} {m : Memory} {v : Volume} {ino mode : UInt16} {buf : List UInt8}

theorem OpenFile.writeAt_count {file : File} {offset : Nat} (h : OpenFile sb (view sb m) file)
    (g : Geometry sb) (hp : (view sb m).Padded sb) :
    (file.writeAt sb buf offset m).1 = min buf.length
      ((file.grow sb buf offset m).1.length*sb.zoneSize-min offset file.inode.size.toNat) := by
  by_cases hbuf : buf = []
  · rw [File.writeAt,hbuf]
    simp
  · obtain ⟨taken,hzones,hgrown,_⟩ := growZones_spec g
      (file.needZones sb buf offset-file.zones.length) file.zones m hp
    have hall := hgrown.inUse_append fun z hz => h.inUse z (mem_append_left _ hz)
    rw [← hzones] at hall
    rw [File.writeAt,if_neg hbuf]
    exact (writeChunks_spec g (fun z hz => (hall z hz).1) _ _ _ _ le_rfl).1

theorem newFile_grow (g : Geometry sb) (hp : (view sb m).Padded sb) :
    ∃ taken, ((newFile ino mode).grow sb buf 0 m).1 = taken ∧
      Grown sb (view sb m) (view sb ((newFile ino mode).grow sb buf 0 m).2) [] taken ∧
      taken.length = min ((newFile ino mode).needZones sb buf 0) ((view sb m).freeZones sb) := by
  obtain ⟨taken,hzones,hgrown,hcount⟩ := growZones_spec g
    ((newFile ino mode).needZones sb buf 0-(newFile ino mode).zones.length)
    (newFile ino mode).zones m hp
  exact ⟨taken,hzones,hgrown,hcount⟩

theorem needZones_le_iff (g : Geometry sb) {k : Nat} :
    (newFile ino mode).needZones sb buf 0 ≤ k ↔ buf.length ≤ k*sb.zoneSize := by
  constructor
  · intro h
    have hmul := @needZones_mul sb (newFile ino mode) buf 0 g
    have hle := Nat.mul_le_mul_right sb.zoneSize h
    omega
  · intro h
    exact needZones_le g (by omega)

theorem storeZones_few {inode : DiskInode} {zones : List UInt16} (h : zones.length ≤ directZones) :
    (storeZones sb inode zones m).1 = true := by
  rw [storeZones,writeSingle,if_pos h]
  dsimp only
  rw [writeDouble,if_pos (by omega)]

theorem newFile_few (g : Geometry sb) (hino : sb.IsInode ino) (hp : (view sb m).Padded sb)
    (hview : view sb m = v.newInode ino mode) (hfew : (view sb m).freeZones sb ≤ directZones) :
    ∃ inode zones taken, Started sb (v.newInode ino mode)
        (view sb ((newFile ino mode).writeAt sb buf 0 m).2.2) ino inode zones taken ∧
      ∀ z ∈ taken, z ∈ held sb (view sb ((newFile ino mode).writeAt sb buf 0 m).2.2) inode zones := by
  have hopen : OpenFile sb (view sb m) (newFile ino mode) := hview ▸ newFile_open hino
  obtain ⟨taken,hzones,_,hcount⟩ := @newFile_grow sb m ino mode buf g hp
  have hsync : (newFile ino mode).syncs sb buf 0 m = true := by
    rw [File.syncs,File.sync]
    split
    next =>
      apply storeZones_few
      rw [hzones]
      omega
    next => rfl
  obtain ⟨taken,hw⟩ := hopen.writeAt g hp fun _ => hsync
  generalize (newFile ino mode).writeAt sb buf 0 m = r at hw ⊢
  have hgrown := hw.grown
  have hperm := hw.perm
  rw [hview] at hgrown
  exact ⟨r.2.1.inode,r.2.1.zones,taken,⟨hgrown,hw.opened.dense,fun z hz => hperm.subset hz⟩,
    fun z hz => hperm.symm.subset hz⟩

theorem storeZones_short (g : Geometry sb) (hp : (view sb m).Padded sb) {inode : DiskInode}
    {zones : List UInt16} (hmany : directZones < zones.length) (hsingle : inode.single = 0)
    (hfree : (view sb m).freeZones sb = 0) :
    ∃ m', storeZones sb inode zones m = (false, inode.setDirect zones, m') ∧
      view sb m' = view sb m := by
  rw [storeZones,writeSingle,if_neg (by omega)]
  rw [if_pos (by rw [setDirect_single,hsingle])]
  rcases halloc : allocZone sb m with ⟨_ | z,m₁⟩
  · exact ⟨m₁,rfl,(allocZone_none g hp halloc).2⟩
  · obtain ⟨hz,hclear,_⟩ := allocZone_some g hp halloc
    have hcount := (Grown.take g hz hclear).count
    rw [length_singleton] at hcount
    omega

theorem dense_direct {inode : DiskInode} {zones : List UInt16} (hnz : ∀ z ∈ zones, z ≠ 0)
    (hmany : directZones ≤ zones.length) (hdirect : inode.direct = resize directZones zones)
    (hsingle : inode.single = 0) (hdouble : inode.double = 0) :
    Dense sb v inode (zones.take directZones) ∧
      held sb v inode (zones.take directZones) = zones.take directZones := by
  have hlen : (zones.take directZones).length ≤ directZones := length_take_le _ _
  have hlen' : (zones.take directZones).length ≤ directZones+perTable sb := by omega
  refine ⟨⟨fun z hz => hnz z (mem_of_mem_take hz),?_,?_,0,?_⟩,?_⟩
  · rw [resize_take hmany,hdirect]
  · rw [SingleHolds,if_pos hlen,hsingle]
  · rw [DoubleHolds,if_pos hlen',hdouble]
  · rw [held,usedTables,singleUsed,doubleUsed,if_pos hlen,if_pos hlen',append_nil,append_nil]

/-- With more than seven free zones, but fewer than needed, the data takes them all, and none is left for
the table. -/
theorem newFile_short (g : Geometry sb) (hino : sb.IsInode ino) (hp : (view sb m).Padded sb)
    (hview : view sb m = v.newInode ino mode) (hmany : directZones < (view sb m).freeZones sb)
    (hlong : (view sb m).freeZones sb*sb.zoneSize < buf.length) :
    ∃ inode zones, Started sb (v.newInode ino mode)
        (view sb ((newFile ino mode).writeAt sb buf 0 m).2.2) ino inode (zones.take directZones) zones ∧
      held sb (view sb ((newFile ino mode).writeAt sb buf 0 m).2.2) inode (zones.take directZones) =
        zones.take directZones ∧ directZones < zones.length ∧ zones.Nodup := by
  have hpos := g.zoneSize_pos
  have hbuf : buf ≠ [] := by
    intro hnil
    rw [hnil] at hlong
    cases hlong
  have hneed : (view sb m).freeZones sb < (newFile ino mode).needZones sb buf 0 := by
    by_contra hle
    have hfit := (needZones_le_iff g).mp (Nat.le_of_not_lt hle)
    omega
  obtain ⟨zones,hzones,hgrown,hcount⟩ := @newFile_grow sb m ino mode buf g hp
  rcases hgrow : (newFile ino mode).grow sb buf 0 m with ⟨zones',m₁⟩
  rw [hgrow] at hzones hgrown
  dsimp only at hzones hgrown
  subst hzones
  have hleft : (view sb m₁).freeZones sb = 0 := by
    have hsum := hgrown.count
    omega
  obtain ⟨m₂,hstore,hview₂⟩ := @storeZones_short sb m₁ g (hgrown.padded hp) (emptyInode mode) zones'
    (by omega) rfl hleft
  have hdata : ∀ z ∈ zones', sb.IsData z := fun z hz => (hgrown.fresh z hz).1
  obtain ⟨hdone,hgrown₃⟩ := writeChunks_spec g hdata buf.length buf 0 m₂ le_rfl
  have hsync : (newFile ino mode).sync sb ((newFile ino mode).needZones sb buf 0) zones' m₁ =
      (false, (emptyInode mode).setDirect zones', m₂) := by
    rw [File.sync,if_pos]
    · exact hstore
    · exact (Nat.zero_le _).trans_lt hneed
  have hfilled : 0 < (writeChunks sb zones' buf.length buf 0 m₂).1 := by
    have hroom : 0 < zones'.length*sb.zoneSize := Nat.mul_pos (by omega) hpos
    omega
  have hgrown' := hgrown.trans (hview₂ ▸ hgrown₃)
  rw [append_nil,hview] at hgrown'
  rw [File.writeAt,if_neg hbuf,hgrow]
  dsimp only
  rw [hsync]
  dsimp only
  rw [Nat.zero_min,File.extend,if_pos (by
    change 0 < max 0 (0+_)
    omega)]
  have hwritten : ∀ inode m, view sb (writeInode sb (newFile ino mode).ino inode m) =
      (view sb m).setInode ino inode := fun inode m => view_writeInode g hino inode
  rw [hwritten]
  generalize hinode : mk _ _ _ _ _ _ _ = inode
  have hzone : inode.zone = ((emptyInode mode).setDirect zones').zone := by rw [← hinode]
  obtain ⟨hdense,hheld⟩ := @dense_direct sb
    ((view sb (writeChunks sb zones' buf.length buf 0 m₂).2).setInode ino inode) inode zones'
    (fun z hz => g.ne_zero (hdata z hz)) (by omega)
    (by rw [direct,hzone,← direct,setDirect_direct])
    (by rw [single,hzone]; rfl)
    (by rw [double,hzone]; rfl)
  refine ⟨inode,zones',⟨(hgrown'.setInode ino inode).mono ?_,hdense,?_⟩,hheld,by omega,hgrown.nodup⟩
  · intro z hz
    exact .inr hz
  · rw [hheld]
    exact fun z hz => mem_of_mem_take hz

end

variable {sb : SuperBlock} {m : Memory} {dirIno : UInt16} {name target : List UInt8}

theorem Clean.untouched_of_view {m' : Memory} (hc : Clean sb (view sb m)) (h : view sb m' = view sb m) :
    Untouched sb m m' := by
  apply hc.untouched
  · rw [h]
  · rw [h]
  · intro j _
    rw [h]
  · intro z _
    rw [h]

section

variable (g : Geometry sb)
include g

theorem createFile_noTrace (hc : Clean sb (view sb m)) :
    LeavesNoTrace sb m (.file dirIno name) := by
  intro hnone
  rw [Creation.run,createFile] at hnone ⊢
  by_cases hname : validName sb name = true
  · rw [hname] at hnone ⊢
    rcases halloc : allocEmptyInode sb regMode m with ⟨_ | ino,m₁⟩
    · exact hc.untouched_of_view (allocEmptyInode_none g hc.padded halloc).2
    · rw [halloc] at hnone
      cases hnone
  · rw [Bool.not_eq_true] at hname
    rw [hname]
    exact hc.untouched_of_view rfl

theorem createDir_noTrace (hc : Clean sb (view sb m)) : LeavesNoTrace sb m (.dir dirIno name) := by
  intro hnone
  rw [Creation.run,createDir] at hnone ⊢
  by_cases hname : validName sb name = true
  · rw [hname,Bool.not_true,if_neg Bool.false_ne_true] at hnone ⊢
    rcases halloc : allocEmptyInode sb dirMode m with ⟨_ | ino,m₁⟩
    · exact hc.untouched_of_view (allocEmptyInode_none g hc.padded halloc).2
    · obtain ⟨hino,hclear,hview⟩ := allocEmptyInode_some g hc.padded halloc
      rw [halloc] at hnone
      dsimp only at hnone ⊢
      rcases hzone : allocZone sb m₁ with ⟨_ | z,m₂⟩
      · have hview₂ := (allocZone_none g (hview ▸ newInode_padded hc.padded hino) hzone).2
        have hfinal : view sb (freeInode sb ino m₂) =
            ((view sb m).newInode ino dirMode).markInode ino false := by
          rw [view_freeInode g hino,hview₂,hview]
        apply hc.untouched
        · rw [hfinal]
          exact newInode_imap hclear
        · rw [hfinal]
          rfl
        · intro j hj
          rw [hfinal]
          exact (newInode_inode hj hclear).2
        · intro z _
          rw [hfinal]
          rfl
      · rw [hzone] at hnone
        cases hnone
  · rw [Bool.not_eq_true] at hname
    rw [hname]
    exact hc.untouched_of_view rfl

theorem symlink_eq (hp : (view sb m).Padded sb) (hname : validName sb name = true)
    (htarget : target ≠ []) {ino : UInt16} {m₁ : Memory}
    (halloc : allocEmptyInode sb lnkMode m = (some ino, m₁)) : symlink sb dirIno name target m =
      if ((newFile ino lnkMode).writeAt sb target 0 m₁).1 ≠ target.length then
        (none, freeInodeBlocksAt sb ino ((newFile ino lnkMode).writeAt sb target 0 m₁).2.2)
      else (some ino, addDirEntryAt sb dirIno name ino
        ((newFile ino lnkMode).writeAt sb target 0 m₁).2.2) := by
  obtain ⟨hino,_,hview⟩ := allocEmptyInode_some g hp halloc
  have hempty : target.isEmpty = false := by simpa using htarget
  rw [symlink,hname,hempty,halloc]
  dsimp only
  rw [readInode_newFile hino hview]
  rfl

theorem newFile_count {v : Volume} {ino mode : UInt16} (hino : sb.IsInode ino)
    (hp : (view sb m).Padded sb) (hview : view sb m = v.newInode ino mode) :
    ((newFile ino mode).writeAt sb target 0 m).1 = target.length ↔
      target.length ≤ (view sb m).freeZones sb*sb.zoneSize := by
  have hopen : OpenFile sb (view sb m) (newFile ino mode) := hview ▸ newFile_open hino
  obtain ⟨taken,hzones,_,hcount⟩ := @newFile_grow sb m ino mode target g hp
  rw [hopen.writeAt_count g hp,hzones,Nat.zero_min,Nat.sub_zero]
  by_cases hfit : (newFile ino mode).needZones sb target 0 ≤ (view sb m).freeZones sb
  · have hmul := @needZones_mul sb (newFile ino mode) target 0 g
    rw [Nat.zero_min,Nat.zero_add] at hmul
    rw [Nat.min_eq_left hfit] at hcount
    rw [hcount,Nat.min_eq_left hmul]
    exact ⟨fun _ => (needZones_le_iff g).mp hfit,fun _ => rfl⟩
  · rw [Nat.min_eq_right (by omega)] at hcount
    rw [hcount]
    omega

theorem symlink_noTrace (hc : Clean sb (view sb m))
    (hfits : (Creation.symlink dirIno name target).Fits sb (view sb m)) :
    LeavesNoTrace sb m (.symlink dirIno name target) := by
  intro hnone
  rw [Creation.run] at hnone ⊢
  by_cases hname : validName sb name = true
  · by_cases htarget : target = []
    · rw [symlink,htarget,hname]
      exact hc.untouched_of_view rfl
    · rcases halloc : allocEmptyInode sb lnkMode m with ⟨_ | ino,m₁⟩
      · have hempty : target.isEmpty = false := by simpa using htarget
        rw [symlink,hname,hempty,halloc]
        exact hc.untouched_of_view (allocEmptyInode_none g hc.padded halloc).2
      · obtain ⟨hino,hclear,hview⟩ := allocEmptyInode_some g hc.padded halloc
        have hp₁ : (view sb m₁).Padded sb := hview ▸ newInode_padded hc.padded hino
        have hfree : (view sb m₁).freeZones sb = (view sb m).freeZones sb := by
          rw [hview,newInode_freeZones]
        rw [symlink_eq g hc.padded hname htarget halloc] at hnone ⊢
        by_cases hall : ((newFile ino lnkMode).writeAt sb target 0 m₁).1 = target.length
        · rw [if_neg (not_not_intro hall)] at hnone
          cases hnone
        · rw [if_pos hall]
          cases hfits hname ⟨ino,hino,hclear⟩ with
          | inl hfew =>
            obtain ⟨inode,zones,taken,hs,htaken⟩ := @newFile_few sb m₁ (view sb m) ino lnkMode target g hino
              hp₁ hview (by rwa [hfree])
            exact hs.untouched g hc hino hclear htaken
          | inr hle =>
            rw [newFile_count g hino hp₁ hview,hfree] at hall
            exact absurd hle hall
  · rw [Bool.not_eq_true] at hname
    rw [symlink,hname]
    exact hc.untouched_of_view rfl

theorem symlink_leaks (hp : (view sb m).Padded sb) (hname : validName sb name = true)
    (hino : ∃ ino, sb.IsInode ino ∧ (view sb m).imap ino.toNat = false)
    (hmany : directZones < (view sb m).freeZones sb)
    (hlong : (view sb m).freeZones sb*sb.zoneSize < target.length) :
    ¬ LeavesNoTrace sb m (.symlink dirIno name target) := by
  have htarget : target ≠ [] := by
    intro hnil
    rw [hnil] at hlong
    cases hlong
  rcases halloc : allocEmptyInode sb lnkMode m with ⟨_ | ino,m₁⟩
  · obtain ⟨ino,hvalid,hclear⟩ := hino
    have hset := (allocEmptyInode_none g hp halloc).1 ino hvalid
    rw [hclear] at hset
    cases hset
  · obtain ⟨hino,_,hview⟩ := allocEmptyInode_some g hp halloc
    have hp₁ : (view sb m₁).Padded sb := hview ▸ newInode_padded hp hino
    have hfree : (view sb m₁).freeZones sb = (view sb m).freeZones sb := by
      rw [hview,newInode_freeZones]
    have hshort : ((newFile ino lnkMode).writeAt sb target 0 m₁).1 ≠ target.length := by
      intro hall
      rw [newFile_count g hino hp₁ hview,hfree] at hall
      omega
    obtain ⟨inode,zones,hs,hheld,hlen,hnodup⟩ := @newFile_short sb m₁ (view sb m) ino lnkMode target g hino
      hp₁ hview (by rwa [hfree]) (by rwa [hfree])
    rw [LeavesNoTrace,Creation.run,symlink_eq g hp hname htarget halloc,if_pos hshort]
    intro htrace
    have hget := getElem_mem hlen
    refine hs.not_untouched g hino hget ?_ (htrace rfl)
    rw [hheld]
    intro hin
    obtain ⟨i,hi,hsame⟩ := getElem_of_mem hin
    rw [length_take] at hi
    rw [getElem_take,hnodup.getElem_inj_iff] at hsame
    omega

end

/-- Failed creations leave no trace, except for a link target that finds more than seven zones and still
does not fit. -/
theorem failed_creation_no_trace (g : Geometry sb) (hc : Clean sb (view sb m)) (c : Creation) :
    LeavesNoTrace sb m c ↔ c.Fits sb (view sb m) := by
  cases c with
  | file dirIno name => exact ⟨fun _ => trivial,fun _ => createFile_noTrace g hc⟩
  | dir dirIno name => exact ⟨fun _ => trivial,fun _ => createDir_noTrace g hc⟩
  | symlink dirIno name target =>
    refine ⟨?_,symlink_noTrace g hc⟩
    intro htrace hname hino
    by_contra hbad
    rw [not_or,Nat.not_le,Nat.not_le] at hbad
    exact symlink_leaks g hc.padded hname hino hbad.1 hbad.2 htrace

/-- The root directory of a new file system. -/
def rootInode : DiskInode :=
  { DiskInode.zero with mode := dirMode, size := 32, nlinks := 2, zone := #v[5,0,0,0,0,0,0,0,0] }

/-- A new file system: inode 1 and zone 5 are in use. -/
def newImage : Memory := fun a =>
  if a = 2048 ∨ a = 3072 then 3
  else if a = 2052 then 254
  else if 2053 ≤ a ∧ a < 3072 ∨ 3080 ≤ a ∧ a < 4096 then 255
  else if 4096 ≤ a ∧ a < 4128 then rootInode.encode.getD (a - 4096) 0
  else if 5120 ≤ a ∧ a < 5152 then
    (dirSlot shortNames 1 [46] ++ dirSlot shortNames 1 [46,46]).getD (a - 5120) 0
  else 0

theorem newImage_geometry : Geometry shortNames := by
  constructor <;> decide

theorem newImage_padded : (view shortNames newImage).Padded shortNames :=
  .of_ones 1 127 1 127 (by decide +kernel) (by decide +kernel) (by decide +kernel) (by decide +kernel)
    (by decide +kernel) (by decide +kernel)

theorem clean_of_root (hp : (view shortNames m).Padded shortNames)
    (hall : ∀ n < 33, 1 ≤ n → (view shortNames m).imap n = true → n = 1)
    (hrefs : refs shortNames (view shortNames m) ((view shortNames m).inode 1) = [5])
    (huse : (view shortNames m).InUse shortNames 5) : Clean shortNames (view shortNames m) := by
  have hroot : ∀ ino, (view shortNames m).Allocated shortNames ino → ino = 1 := by
    rintro ino ⟨⟨hle,hge⟩,hbit⟩
    exact UInt16.toNat_inj.mp (hall ino.toNat (Nat.lt_succ_of_le hge) hle hbit)
  refine ⟨hp,fun ino h _ => ?_,fun ino h _ => ?_,fun i j hi hj _ _ hne => ?_⟩
  · rw [hroot ino h,hrefs]
    simpa using huse
  · rw [hroot ino h,hrefs]
    simp
  · rw [hroot i hi,hroot j hj] at hne
    exact absurd rfl hne

theorem newImage_clean : Clean shortNames (view shortNames newImage) :=
  clean_of_root newImage_padded (by decide +kernel) (by decide +kernel) (by decide +kernel)

/-- A target that is one byte longer than the 62 free zones. -/
theorem failed_symlink_leaves_trace : Clean shortNames (view shortNames newImage) ∧
    ¬ LeavesNoTrace shortNames newImage (.symlink 1 [97] (List.replicate 63489 98)) := by
  have hfree : (view shortNames newImage).freeZones shortNames = 62 := by decide +kernel
  refine ⟨newImage_clean,symlink_leaks newImage_geometry newImage_padded (by decide)
    ⟨2,by decide,by decide +kernel⟩ ?_ ?_⟩
  · rw [hfree]
    decide
  · rw [hfree,length_replicate]
    decide

/-- All zones are in use. -/
def fullImage : Memory := fun a => if 3072 ≤ a ∧ a < 3080 then 255 else newImage a

theorem fullImage_clean : Clean shortNames (view shortNames fullImage) :=
  clean_of_root (.of_ones 1 127 0 128 (by decide +kernel) (by decide +kernel) (by decide +kernel)
    (by decide +kernel) (by decide +kernel) (by decide +kernel)) (by decide +kernel)
    (by decide +kernel) (by decide +kernel)

/-- The new directory gets an inode but no zone. -/
theorem failed_creation_no_trace_full : (createDir shortNames 1 [97] fullImage).1 = none ∧
    Untouched shortNames fullImage (createDir shortNames 1 [97] fullImage).2 := by
  have hnone : (createDir shortNames 1 [97] fullImage).1 = none := by decide +kernel
  exact ⟨hnone,(failed_creation_no_trace newImage_geometry fullImage_clean (.dir 1 [97])).mpr
    trivial hnone⟩

end Athera.Minix
