import Athera.Fs.Minix.FileData

/-!
# Files without holes

A file whose zones are all there and whose index tables lead to them and to nothing else.
-/

namespace Athera.Minix

open Framework List DiskInode

section

variable {sb : SuperBlock} {m : Memory} {v v' : Volume} {inode inode' : DiskInode}
  {zones zones' written taken : List UInt16}

/-- The inode and its tables hold the zones of the list and nothing behind them. -/
structure Dense (sb : SuperBlock) (v : Volume) (inode : DiskInode) (zones : List UInt16) : Prop where
  nonzero : ∀ z ∈ zones, z ≠ 0
  direct : inode.direct = resize directZones zones
  single : SingleHolds sb v inode zones
  double : ∃ k, DoubleHolds sb v inode zones (replicate k 0)

def held (sb : SuperBlock) (v : Volume) (inode : DiskInode) (zones : List UInt16) : List UInt16 :=
  zones ++ usedTables sb v inode zones

theorem takeWhile_zeros (k : Nat) : (replicate k (0 : UInt16)).takeWhile (· != 0) = [] := by
  cases k with
  | zero => rfl
  | succ k => simp [replicate_succ]

theorem Dense.dataZones_eq (h : Dense sb (view sb m) inode zones) (g : Geometry sb) :
    dataZones sb m inode = zones := by
  obtain ⟨k,hk⟩ := h.double
  rw [Minix.dataZones_eq g h.direct h.single hk h.nonzero,zonesBehind,takeWhile_zeros,flatMap_nil,
    ite_self,append_nil]

theorem entries_zeros (k : Nat) : entries (replicate k 0) = [] := by
  simp [entries]

theorem length_groups_mono (sb : SuperBlock) (h : zones.length ≤ zones'.length) :
    (groups sb zones).length ≤ (groups sb zones').length := by
  rw [groups,groups,length_chunks,length_chunks,length_drop,length_drop]
  exact Nat.div_le_div_right (by omega)

theorem entries_of_inUse (g : Geometry sb) {tables : List UInt16} (h : ∀ z ∈ tables, v.InUse sb z) :
    entries tables = tables := by
  rw [entries,filter_eq_self]
  intro z hz
  simpa using g.ne_zero (h z hz).1

theorem Dense.singleUsed_eq (h : Dense sb v inode zones) (hle : zones.length ≤ zones'.length) :
    singleUsed inode zones' = singleUsed inode zones := by
  have hsingle := h.single
  rw [SingleHolds] at hsingle
  rw [singleUsed,singleUsed]
  by_cases hfew : zones.length ≤ directZones
  · rw [if_pos hfew] at hsingle ⊢
    rw [hsingle]
    split
    next => rfl
    next => rfl
  · rw [if_neg hfew,if_neg (by omega)]

theorem Dense.doubleUsed_eq (h : Dense sb v inode zones) (g : Geometry sb)
    (hle : zones.length ≤ zones'.length) :
    doubleUsed sb v inode zones' = doubleUsed sb v inode zones := by
  obtain ⟨k,hdouble⟩ := h.double
  rw [DoubleHolds] at hdouble
  rw [doubleUsed,doubleUsed]
  by_cases hfew : zones.length ≤ directZones+perTable sb
  · rw [if_pos hfew] at hdouble ⊢
    rw [doubleEntries,if_pos hdouble,take_replicate,entries_zeros,hdouble]
    split
    next => rfl
    next => rfl
  · rw [if_neg hfew] at hdouble ⊢
    obtain ⟨huse,tables,htable,hholds,_⟩ := hdouble
    have hcount : tables.length = (groups sb zones).length := hholds.length_eq
    have hmono := length_groups_mono sb hle
    have hentries : ∀ n, tables.length ≤ n → entries ((tables++replicate k 0).take n) =
        entries tables := by
      intro n hn
      rw [take_append,take_of_length_le hn,take_replicate,entries,filter_append]
      exact (congrArg _ (entries_zeros _)).trans (append_nil _)
    rw [if_neg (by omega),doubleEntries,if_neg (g.ne_zero huse.1),htable,hentries _ (by omega),
      hentries _ (by omega)]

theorem Dense.usedTables_eq (h : Dense sb v inode zones) (g : Geometry sb)
    (hle : zones.length ≤ zones'.length) :
    usedTables sb v inode zones' = usedTables sb v inode zones := by
  rw [usedTables,usedTables,h.singleUsed_eq hle,h.doubleUsed_eq g hle]

theorem SingleHolds.grown (h : SingleHolds sb v inode zones) (g : Geometry sb)
    (hg : Grown sb v v' written taken) (hw : ∀ z ∈ singleUsed inode zones, z ∉ written) :
    SingleHolds sb v' inode zones := by
  rw [SingleHolds] at h ⊢
  by_cases hfew : zones.length ≤ directZones
  · rw [if_pos hfew] at h ⊢
    exact h
  · rw [if_neg hfew] at h ⊢
    have hnot : inode.single ∉ written := by
      apply hw
      rw [singleUsed,if_neg hfew,entries_singleton (g.ne_zero h.1.1)]
      exact mem_cons_self
    rw [hg.table hnot h.1]
    exact ⟨hg.inUse h.1,h.2⟩

theorem DoubleHolds.grown {k : Nat} (h : DoubleHolds sb v inode zones (replicate k 0))
    (g : Geometry sb) (hg : Grown sb v v' written taken)
    (hw : ∀ z ∈ doubleUsed sb v inode zones, z ∉ written) :
    DoubleHolds sb v' inode zones (replicate k 0) ∧
      doubleUsed sb v' inode zones = doubleUsed sb v inode zones := by
  rw [DoubleHolds] at h ⊢
  rw [doubleUsed] at hw
  rw [doubleUsed,doubleUsed]
  by_cases hfew : zones.length ≤ directZones+perTable sb
  · rw [if_pos hfew] at h ⊢
    rw [if_pos hfew,if_pos hfew]
    exact ⟨h,rfl⟩
  · rw [if_neg hfew] at h hw ⊢
    obtain ⟨huse,tables,htable,hholds,htables⟩ := h
    have hne := g.ne_zero huse.1
    have hcount : tables.length = (groups sb zones).length := hholds.length_eq
    rw [doubleEntries,if_neg hne,htable,← hcount,take_left,entries_of_inUse g htables,
      entries_singleton hne] at hw
    have hkeep := hg.table (hw _ (mem_append_left _ mem_cons_self)) huse
    rw [doubleEntries,doubleEntries,if_neg hne,if_neg hne,hkeep]
    refine ⟨⟨hg.inUse huse,tables,htable,?_,fun z hz => hg.inUse (htables z hz)⟩,rfl⟩
    exact hholds.grown hg htables fun z hz => hw z (mem_append_right _ hz)

theorem Dense.grown (h : Dense sb v inode zones) (g : Geometry sb) (hg : Grown sb v v' written taken)
    (hw : ∀ z ∈ usedTables sb v inode zones, z ∉ written) :
    Dense sb v' inode zones ∧ usedTables sb v' inode zones = usedTables sb v inode zones := by
  obtain ⟨k,hk⟩ := h.double
  obtain ⟨hdouble,hused⟩ := hk.grown g hg fun z hz => hw z (mem_append_right _ hz)
  have hsingle := h.single.grown g hg fun z hz => hw z (mem_append_left _ hz)
  refine ⟨⟨h.nonzero,h.direct,hsingle,k,hdouble⟩,?_⟩
  rw [usedTables,usedTables,hused]

theorem Dense.of_same (h : Dense sb v inode zones) (hzone : v'.zone = v.zone)
    (hzmap : v'.zmap = v.zmap) (hi : inode'.zone = inode.zone) :
    Dense sb v' inode' zones ∧ held sb v' inode' zones = held sb v inode zones := by
  have htable : v'.table = v.table := by
    funext z
    rw [Volume.table,Volume.table,hzone]
  have huse : v'.InUse sb = v.InUse sb := by
    funext z
    rw [Volume.InUse,Volume.InUse,hzmap]
  have hdirect : inode'.direct = inode.direct := by rw [DiskInode.direct,DiskInode.direct,hi]
  have hsingle : inode'.single = inode.single := by rw [DiskInode.single,DiskInode.single,hi]
  have hdouble : inode'.double = inode.double := by rw [DiskInode.double,DiskInode.double,hi]
  constructor
  · refine ⟨h.nonzero,hdirect.trans h.direct,?_,?_⟩
    · rw [SingleHolds,hsingle,htable,huse]
      exact h.single
    · obtain ⟨k,hk⟩ := h.double
      refine ⟨k,?_⟩
      simp only [DoubleHolds,hdouble,htable,huse,Holds]
      exact hk
  · simp only [held,usedTables,singleUsed,doubleUsed,doubleEntries,hsingle,hdouble,htable]

theorem drop_doubleEntries (h : Dense sb v inode zones) (g : Geometry sb)
    (hle : zones.length ≤ zones'.length) :
    ∃ k, (doubleEntries sb v inode).drop (groups sb zones').length = replicate k 0 := by
  obtain ⟨k,hdouble⟩ := h.double
  rw [DoubleHolds] at hdouble
  by_cases hfew : zones.length ≤ directZones+perTable sb
  · rw [if_pos hfew] at hdouble
    rw [doubleEntries,if_pos hdouble,drop_replicate]
    exact ⟨_,rfl⟩
  · rw [if_neg hfew] at hdouble
    obtain ⟨huse,tables,htable,hholds,_⟩ := hdouble
    have hcount : tables.length = (groups sb zones).length := hholds.length_eq
    have hmono := length_groups_mono sb hle
    rw [doubleEntries,if_neg (g.ne_zero huse.1),htable,drop_append,
      drop_eq_nil_of_le (by omega),drop_replicate]
    exact ⟨_,rfl⟩

theorem DiskInode.zone_ext (hdirect : inode'.direct = inode.direct)
    (hsingle : inode'.single = inode.single) (hdouble : inode'.double = inode.double) :
    inode'.zone = inode.zone := by
  apply Vector.ext
  intro i hi
  by_cases hlt : i < directZones
  · have hget := congrArg (·[i]?) hdirect
    simp only [getElem?_direct,if_pos hlt,Vector.getElem?_eq_getElem hi,Option.some.injEq] at hget
    exact hget
  · rw [directZones] at hlt
    obtain rfl | rfl : i = 7 ∨ i = 8 := by omega
    · exact hsingle
    · exact hdouble

theorem DiskInode.setDirect_self (h : inode.direct = resize directZones zones) :
    inode.setDirect zones = inode := by
  have hzone : (inode.setDirect zones).zone = inode.zone := by
    apply zone_ext
    · rw [setDirect_direct,h]
    · rw [setDirect_single]
    · rw [setDirect_double]
  have hother : inode.setDirect zones = { inode with zone := (inode.setDirect zones).zone } := rfl
  rw [hother,hzone]

theorem DiskInode.setSingle_self : inode.setSingle inode.single = inode := by
  simp [setSingle,single]

theorem DiskInode.setDouble_self : inode.setDouble inode.double = inode := by
  simp [setDouble,double]

theorem Dense.store_same (h : Dense sb v inode zones) (g : Geometry sb) (m : Memory) :
    (storeZones sb inode zones m).2.1 = inode := by
  have hsingle := h.single
  obtain ⟨k,hdouble⟩ := h.double
  have hfirst : (writeSingle sb inode zones m).2.1 = inode := by
    rw [SingleHolds] at hsingle
    by_cases hfew : zones.length ≤ directZones
    · rw [if_pos hfew] at hsingle
      rw [writeSingle,if_pos hfew,← hsingle,setSingle_self]
    · rw [if_neg hfew] at hsingle
      rw [writeSingle,if_neg hfew]
      rw [if_neg (g.ne_zero hsingle.1.1)]
  have hsecond : ∀ m, (writeDouble sb inode zones m).2.1 = inode := by
    intro m
    rw [DoubleHolds] at hdouble
    by_cases hfew : zones.length ≤ directZones+perTable sb
    · rw [if_pos hfew] at hdouble
      rw [writeDouble,if_pos hfew,← hdouble,setDouble_self]
    · rw [if_neg hfew] at hdouble
      rw [writeDouble,if_neg hfew,openDouble,if_neg (g.ne_zero hdouble.1.1)]
      dsimp only
      split
      next => rfl
      next => rfl
  rw [storeZones,setDirect_self h.direct]
  rcases hr : writeSingle sb inode zones m with ⟨_ | _,inode₁,m₁⟩
  · rw [hr] at hfirst
    exact hfirst
  · rw [hr] at hfirst
    dsimp only at hfirst ⊢
    rw [hfirst]
    exact hsecond m₁

theorem Dense.store (h : Dense sb (view sb m) inode zones) (g : Geometry sb)
    (hp : (view sb m).Padded sb) (huse : ∀ z ∈ usedTables sb (view sb m) inode zones,
      (view sb m).InUse sb z) (hnodup : (usedTables sb (view sb m) inode zones).Nodup)
    (hle : zones.length ≤ zones'.length) (hnz : ∀ z ∈ zones', z ≠ 0)
    (hlen : zones'.length ≤ directZones+perTable sb+perTable sb*perTable sb)
    (hdone : (storeZones sb inode zones' m).1 = true) :
    ∃ taken, Grown sb (view sb m) (view sb (storeZones sb inode zones' m).2.2)
        (usedTables sb (view sb m) inode zones) taken ∧
      Dense sb (view sb (storeZones sb inode zones' m).2.2) (storeZones sb inode zones' m).2.1 zones' ∧
      (usedTables sb (view sb (storeZones sb inode zones' m).2.2)
        (storeZones sb inode zones' m).2.1 zones').Perm
          (usedTables sb (view sb m) inode zones++taken) ∧ (storeZones sb inode zones' m).2.1 =
        { inode with zone := (storeZones sb inode zones' m).2.1.zone } := by
  have hused := h.usedTables_eq g hle
  obtain ⟨taken,hw⟩ := storeZones_spec g hp hlen (hused ▸ huse) (hused ▸ hnodup)
  obtain ⟨hsingle,hdouble,hperm⟩ := hw.full hdone
  obtain ⟨k,hk⟩ := drop_doubleEntries h g hle
  have hgrown := hw.grown
  rw [hused] at hperm hgrown
  rw [hk] at hdouble
  exact ⟨taken,hgrown,⟨hnz,hw.direct,hsingle,k,hdouble⟩,hperm,hw.other⟩

end

section

variable {sb : SuperBlock} {zones : List UInt16}

theorem length_le_zoneCount (h : ∀ z ∈ zones, sb.IsData z) (hnodup : zones.Nodup) :
    zones.length ≤ sb.zoneCount := by
  have hmap : (zones.map UInt16.toNat).Nodup := hnodup.map fun _ _ => UInt16.toNat_inj.mp
  have hsub : zones.map UInt16.toNat ⊆ range' sb.firstDataZone.toNat sb.zoneCount := by
    intro n hn
    obtain ⟨z,hz,rfl⟩ := mem_map.mp hn
    obtain ⟨hle,hlt⟩ := h z hz
    rw [mem_range'_1,SuperBlock.zoneCount]
    omega
  have hle := (hmap.subperm hsub).length_le
  rwa [length_map,length_range'] at hle

theorem length_le_capacity (g : Geometry sb) (h : ∀ z ∈ zones, sb.IsData z) (hnodup : zones.Nodup) :
    zones.length ≤ directZones+perTable sb+perTable sb*perTable sb := by
  have hle := length_le_zoneCount h hnodup
  have hzones := sb.nzones.toNat_lt
  have hper := g.perTable_ge
  have hsquare : 512*512 ≤ perTable sb*perTable sb := Nat.mul_le_mul hper hper
  rw [SuperBlock.zoneCount] at hle
  omega

theorem length_mul_lt (g : Geometry sb) (h : ∀ z ∈ zones, sb.IsData z) (hnodup : zones.Nodup) :
    zones.length*sb.zoneSize < 2^32 := by
  have hle := length_le_zoneCount h hnodup
  have hfirst := g.two_le_first
  have hord := g.ordered
  have hzones := g.zones_le
  have hpos := g.zoneSize_pos
  rw [SuperBlock.zoneCount] at hle
  calc zones.length*sb.zoneSize < sb.nzones.toNat*sb.zoneSize :=
        Nat.mul_lt_mul_of_pos_right (by omega) hpos
    _ ≤ 2^32 := hzones

end

section

variable {sb : SuperBlock} {v v' : Volume} {written taken l : List UInt16}

section

variable (h : Grown sb v v' written taken)
include h

theorem Grown.setInode (ino : UInt16) (inode : DiskInode) :
    Grown sb (v.setInode ino inode) (v'.setInode ino inode) written taken where
  inode := by rw [Volume.setInode_inode,Volume.setInode_inode,h.inode]
  imap := h.imap
  fresh := h.fresh
  nodup := h.nodup
  zmap := h.zmap
  count := h.count
  zone := h.zone

theorem Grown.nodup_append (huse : ∀ z ∈ l, v.InUse sb z) (hl : l.Nodup) : (l++taken).Nodup := by
  rw [List.nodup_append]
  refine ⟨hl,h.nodup,?_⟩
  intro z hz y hy he
  exact h.not_taken (huse z hz) (he ▸ hy)

theorem Grown.inUse_append (huse : ∀ z ∈ l, v.InUse sb z) : ∀ z ∈ l++taken, v'.InUse sb z := by
  intro z hz
  cases mem_append.mp hz with
  | inl hz => exact h.inUse (huse z hz)
  | inr hz => exact h.taken_inUse hz

theorem Grown.of_perm {l' : List UInt16} (huse : ∀ z ∈ l, v.InUse sb z) (hl : l.Nodup)
    (hp : l'.Perm (l++taken)) : (∀ z ∈ l', v'.InUse sb z) ∧ l'.Nodup :=
  ⟨fun z hz => h.inUse_append huse z (hp.subset hz),hp.nodup_iff.mpr (h.nodup_append huse hl)⟩

end

end

variable {sb : SuperBlock} {m : Memory} {file : File} {buf : List UInt8} {offset : Nat} {v : Volume}

/-- A file without holes that is open: the inode is the one on the disk, and the zones of the file are
in use, each once. -/
structure OpenFile (sb : SuperBlock) (v : Volume) (file : File) : Prop where
  dense : Dense sb v file.inode file.zones
  valid : sb.IsInode file.ino
  disk : v.inode file.ino = file.inode
  inUse : ∀ z ∈ held sb v file.inode file.zones, v.InUse sb z
  nodup : (held sb v file.inode file.zones).Nodup
  sized : file.inode.size.toNat ≤ file.zones.length * sb.zoneSize

theorem OpenFile.fileAt_eq (h : OpenFile sb (view sb m) file) (g : Geometry sb) :
    fileAt sb m file.ino = file := by
  have hread : readInode sb m file.ino = file.inode := by rw [← h.disk,view_inode h.valid]
  rw [fileAt,hread,h.dense.dataZones_eq g]

/-- The state after the zones are allocated and the tables are written. -/
structure Synced (sb : SuperBlock) (v v' : Volume) (file : File) (inode : DiskInode)
    (zones taken : List UInt16) : Prop where
  grown : Grown sb v v' (usedTables sb v file.inode file.zones) taken
  dense : Dense sb v' inode zones
  perm : (held sb v' inode zones).Perm (held sb v file.inode file.zones ++ taken)
  other : inode = { file.inode with zone := inode.zone }
  start : ∃ more, zones = file.zones ++ more

theorem OpenFile.sync (h : OpenFile sb (view sb m) file) (g : Geometry sb)
    (hp : (view sb m).Padded sb) {need : Nat} {m₁ m₂ : Memory} {zones : List UInt16} {inode : DiskInode}
    (hgrow : growZones sb (need-file.zones.length) file.zones m = (zones, m₁))
    (hsync : file.sync sb need zones m₁ = (true, inode, m₂)) :
    ∃ taken, Synced sb (view sb m) (view sb m₂) file inode zones taken := by
  by_cases hlt : file.zones.length < need
  · obtain ⟨taken₁,hzones,hgrown₁,_⟩ := growZones_spec g (need-file.zones.length) file.zones m hp
    rw [hgrow] at hzones hgrown₁
    dsimp only at hzones hgrown₁
    rw [File.sync,if_pos hlt] at hsync
    obtain ⟨hdense₁,hused₁⟩ := h.dense.grown g hgrown₁ (by simp)
    have htables : ∀ z ∈ usedTables sb (view sb m) file.inode file.zones, (view sb m).InUse sb z :=
      fun z hz => h.inUse z (mem_append_right _ hz)
    have hall : ∀ z ∈ zones, (view sb m₁).InUse sb z := by
      rw [hzones]
      exact hgrown₁.inUse_append fun z hz => h.inUse z (mem_append_left _ hz)
    have hnodup : zones.Nodup := by
      rw [hzones]
      exact hgrown₁.nodup_append (fun z hz => h.inUse z (mem_append_left _ hz))
        (nodup_append.mp h.nodup).1
    have hdone : (storeZones sb file.inode zones m₁).1 = true := by rw [hsync]
    have hle : file.zones.length ≤ zones.length := by
      rw [hzones,length_append]
      omega
    obtain ⟨taken₂,hgrown₂,hdense₂,hperm,hother⟩ := hdense₁.store g (hgrown₁.padded hp)
      (fun z hz => hgrown₁.inUse (htables z (hused₁ ▸ hz)))
      (hused₁ ▸ (nodup_append.mp h.nodup).2.1) hle
      (fun z hz => g.ne_zero (hall z hz).1)
      (length_le_capacity g (fun z hz => (hall z hz).1) hnodup) hdone
    rw [hsync] at hgrown₂ hdense₂ hperm hother
    rw [hused₁] at hgrown₂ hperm
    refine ⟨taken₁++taken₂,hgrown₁.trans hgrown₂,hdense₂,?_,hother,taken₁,hzones⟩
    rw [hzones] at hperm
    rw [held,hzones]
    exact (hperm.append_left _).trans (perm_interleave ..)
  · rw [Nat.sub_eq_zero_of_le (by omega)] at hgrow
    rw [File.sync,if_neg hlt] at hsync
    obtain ⟨rfl,rfl⟩ := hgrow
    obtain ⟨rfl,rfl⟩ := hsync
    refine ⟨[],(Grown.refl ..).mono (by simp),h.dense,?_,rfl,[],(append_nil _).symm⟩
    rw [append_nil]

/-- The state after the bytes are written. -/
structure Filled (sb : SuperBlock) (v v' : Volume) (file : File) (inode : DiskInode)
    (zones taken : List UInt16) : Prop where
  grown : Grown sb v v' (held sb v file.inode file.zones) taken
  dense : Dense sb v' inode zones
  perm : (held sb v' inode zones).Perm (held sb v file.inode file.zones ++ taken)

theorem Synced.fill {m₂ : Memory} {inode : DiskInode} {zones taken : List UInt16}
    (hs : Synced sb v (view sb m₂) file inode zones taken) (h : OpenFile sb v file) (g : Geometry sb)
    (pos : Nat) : let r := writeChunks sb zones buf.length buf pos m₂
    r.1 = min buf.length (zones.length*sb.zoneSize-pos) ∧
      Filled sb v (view sb r.2) file inode zones taken := by
  obtain ⟨huse,hnodup⟩ := hs.grown.of_perm h.inUse h.nodup hs.perm
  have hdata : ∀ z ∈ zones, sb.IsData z := fun z hz => (huse z (mem_append_left _ hz)).1
  have hsplit := nodup_append.mp hnodup
  obtain ⟨hdone,hgrown⟩ := writeChunks_spec g hdata buf.length buf pos m₂ le_rfl
  obtain ⟨hdense,hused⟩ := hs.dense.grown g hgrown
    (fun z hz hin => hsplit.2.2 z hin z hz rfl)
  have hheld : held sb (view sb (writeChunks sb zones buf.length buf pos m₂).2) inode zones =
      held sb (view sb m₂) inode zones := by rw [held,held,hused]
  have hall := hs.grown.trans hgrown
  rw [append_nil] at hall
  refine ⟨hdone,hall.mono ?_,hdense,hheld ▸ hs.perm⟩
  intro z hz
  cases mem_append.mp hz with
  | inl hz => exact .inl (mem_append_right _ hz)
  | inr hz => exact mem_append.mp (hs.perm.subset (mem_append_left _ hz))

/-- What a write does when its tables find their zones. -/
structure WriteDone (sb : SuperBlock) (v v' : Volume) (file file' : File) (taken : List UInt16) :
    Prop where
  opened : OpenFile sb v' file'
  ino : file'.ino = file.ino
  grown : Grown sb (v.setInode file.ino file'.inode) v' (held sb v file.inode file.zones) taken
  perm : (held sb v' file'.inode file'.zones).Perm (held sb v file.inode file.zones ++ taken)
  other : file'.inode = { file.inode with size := file'.inode.size, zone := file'.inode.zone }

theorem setInode_self {ino : UInt16} {inode : DiskInode} (h : v.inode ino = inode) :
    v.setInode ino inode = v := by
  rw [Volume.setInode,← h,Function.update_eq_self]

theorem OpenFile.write_nil (h : OpenFile sb v file) : WriteDone sb v v file file [] := by
  refine ⟨h,rfl,?_,?_,rfl⟩
  · rw [setInode_self h.disk]
    exact (Grown.refl ..).mono (by simp)
  · rw [append_nil]

theorem needZones_mul (g : Geometry sb) :
    min offset file.inode.size.toNat+buf.length ≤ file.needZones sb buf offset*sb.zoneSize := by
  have hpos := g.zoneSize_pos
  rw [File.needZones]
  generalize min offset file.inode.size.toNat+buf.length = n
  have hdiv := Nat.div_add_mod' (n+sb.zoneSize-1) sb.zoneSize
  have hmod := Nat.mod_lt (n+sb.zoneSize-1) hpos
  omega

theorem needZones_le (g : Geometry sb) {k : Nat}
    (h : min offset file.inode.size.toNat+buf.length ≤ k*sb.zoneSize) :
    file.needZones sb buf offset ≤ k := by
  have hpos := g.zoneSize_pos
  apply Nat.le_of_lt_succ
  apply (Nat.div_lt_iff_lt_mul hpos).mpr
  rw [Nat.succ_mul]
  omega

/-- A file that does not get longer keeps its inode: if zones were missing, none were free. -/
theorem OpenFile.sync_of_not_longer (h : OpenFile sb (view sb m) file) (g : Geometry sb)
    (hp : (view sb m).Padded sb) {m₁ m₂ : Memory} {zones : List UInt16} {inode : DiskInode} {done : Bool}
    (hgrow : file.grow sb buf offset m = (zones, m₁))
    (hend : min offset file.inode.size.toNat+min buf.length (zones.length*sb.zoneSize -
      min offset file.inode.size.toNat) ≤ file.inode.size.toNat)
    (hsync : file.sync sb (file.needZones sb buf offset) zones m₁ = (done, inode, m₂)) :
    inode = file.inode := by
  obtain ⟨taken,hzones,hgrown,_⟩ := growZones_spec g
    (file.needZones sb buf offset-file.zones.length) file.zones m hp
  rw [File.grow] at hgrow
  rw [hgrow] at hzones hgrown
  dsimp only at hzones hgrown
  rw [File.sync] at hsync
  by_cases hlt : file.zones.length < file.needZones sb buf offset
  · rw [if_pos hlt] at hsync
    have hlong : file.zones.length*sb.zoneSize < min offset file.inode.size.toNat+buf.length := by
      by_contra hshort
      have hneed := @needZones_le sb file buf offset g file.zones.length (by omega)
      omega
    have hsized := h.sized
    have hnone : taken = [] := by
      by_contra hsome
      have hpos : 0 < taken.length := length_pos_iff.mpr hsome
      have hmul : (file.zones.length+1)*sb.zoneSize ≤ zones.length*sb.zoneSize := by
        apply Nat.mul_le_mul_right
        rw [hzones,length_append]
        omega
      have hz := g.zoneSize_pos
      rw [Nat.succ_mul] at hmul
      omega
    rw [hnone,append_nil] at hzones
    have hsame := (h.dense.grown g hgrown (by simp)).1.store_same g m₁
    rw [← hzones,hsync] at hsame
    exact hsame
  · rw [if_neg hlt] at hsync
    simp only [Prod.mk.injEq] at hsync
    exact hsync.2.1.symm

theorem Filled.extend {m₃ : Memory} {inode : DiskInode} {zones taken : List UInt16}
    (hf : Filled sb (view sb m) (view sb m₃) file inode zones taken)
    (h : OpenFile sb (view sb m) file) (g : Geometry sb) (stop : Nat)
    (hother : inode = { file.inode with zone := inode.zone })
    (hkeep : stop ≤ file.inode.size.toNat → inode = file.inode)
    (hmore : file.zones.length ≤ zones.length) (hfit : stop ≤ zones.length*sb.zoneSize) :
    let r := file.extend sb inode zones (max file.inode.size.toNat stop) m₃
    WriteDone sb (view sb m) (view sb r.2) file r.1 taken := by
  obtain ⟨huse,hnodup⟩ := hf.grown.of_perm h.inUse h.nodup hf.perm
  have hsize : inode.size = file.inode.size := by rw [hother]
  have hroom : file.inode.size.toNat ≤ zones.length*sb.zoneSize :=
    h.sized.trans (Nat.mul_le_mul_right _ hmore)
  rw [File.extend,hsize]
  by_cases hlonger : file.inode.size.toNat < max file.inode.size.toNat stop
  · have hlt := length_mul_lt g (fun z hz => (huse z (mem_append_left _ hz)).1)
      (nodup_append.mp hnodup).1
    have hnat : (UInt32.ofNat (max file.inode.size.toNat stop)).toNat =
        max file.inode.size.toNat stop := UInt32.toNat_ofNat_of_lt (by
          change _ < 2^32
          omega)
    rw [if_pos hlonger]
    dsimp only
    rw [view_writeInode g h.valid]
    have hsame : ∀ x : DiskInode, x.zone = inode.zone →
        Dense sb ((view sb m₃).setInode file.ino x) x zones ∧
        held sb ((view sb m₃).setInode file.ino x) x zones = held sb (view sb m₃) inode zones :=
      fun x hx => hf.dense.of_same rfl rfl hx
    obtain ⟨hdense,hheld⟩ := hsame
      { inode with size := UInt32.ofNat (max file.inode.size.toNat stop) } rfl
    refine ⟨⟨hdense,h.valid,?_,hheld ▸ huse,hheld ▸ hnodup,?_⟩,rfl,hf.grown.setInode _ _,
      hheld ▸ hf.perm,?_⟩
    · rw [Volume.setInode_inode,Function.update_self]
    · dsimp only
      omega
    · rw [hother]
  · have hinode := hkeep (by omega)
    rw [if_neg hlonger]
    have hdisk : (view sb m₃).inode file.ino = inode := by rw [hf.grown.inode,h.disk,hinode]
    refine ⟨⟨hf.dense,h.valid,hdisk,huse,hnodup,by rwa [hsize]⟩,rfl,?_,hf.perm,?_⟩
    · rw [setInode_self (h.disk.trans hinode.symm)]
      exact hf.grown
    · rw [hinode]

theorem OpenFile.writeAt (h : OpenFile sb (view sb m) file) (g : Geometry sb)
    (hp : (view sb m).Padded sb) (hok : buf ≠ [] → file.syncs sb buf offset m = true) :
    ∃ taken, WriteDone sb (view sb m) (view sb (file.writeAt sb buf offset m).2.2) file
      (file.writeAt sb buf offset m).2.1 taken := by
  by_cases hbuf : buf = []
  · rw [File.writeAt,if_pos hbuf]
    exact ⟨[],h.write_nil⟩
  · have hok := hok hbuf
    rw [File.syncs] at hok
    rw [File.writeAt,if_neg hbuf]
    rcases hgrow : file.grow sb buf offset m with ⟨zones,m₁⟩
    rcases hsync : file.sync sb (file.needZones sb buf offset) zones m₁ with ⟨done,inode,m₂⟩
    rw [hgrow] at hok
    rw [hsync] at hok
    dsimp only at hok
    rw [hok] at hsync
    obtain ⟨taken,hs⟩ := h.sync g hp hgrow hsync
    obtain ⟨hdone,hf⟩ := @Synced.fill sb file buf _ m₂ inode zones taken hs h g
      (min offset file.inode.size.toNat)
    have hmore : file.zones.length ≤ zones.length := by
      obtain ⟨more,hmore⟩ := hs.start
      rw [hmore,length_append]
      omega
    have hroom := h.sized.trans (Nat.mul_le_mul_right sb.zoneSize hmore)
    have hext := hf.extend h g (min offset file.inode.size.toNat +
      (writeChunks sb zones buf.length buf (min offset file.inode.size.toNat) m₂).1) hs.other
      (fun hend => h.sync_of_not_longer g hp hgrow (by rwa [hdone] at hend) hsync) hmore
      (by rw [hdone]; omega)
    dsimp only
    rw [hsync]
    exact ⟨taken,hext⟩

end Athera.Minix
