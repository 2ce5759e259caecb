import Mathlib.Data.List.TakeWhile
import Athera.Fs.Minix.Tables

/-!
# Zone lists on the disk

`write_file_zones` cuts the zones of a file into seven direct ones, one table and a table of tables,
and `data_zones` reads them back up to the first zero at each level.
-/

namespace Athera.Minix

open Framework List DiskInode Grown

section

variable (sb : SuperBlock)

section

variable (inode : DiskInode)

/-- The single indirect table. The answer is `false` when there is no zone for it. -/
def writeSingle (zones : List UInt16) (m : Memory) : Bool × DiskInode × Memory :=
  if zones.length ≤ directZones then (true, inode.setSingle 0, m)
  else
    let table := resize (perTable sb) ((zones.drop directZones).take (perTable sb))
    if inode.single = 0 then
      match allocZone sb m with
      | (none, m) => (false, inode, m)
      | (some ind, m) => (true, inode.setSingle ind, writeZoneTable sb ind table m)
    else (true, inode, writeZoneTable sb inode.single table m)

/-- The loop over the groups and the entries of the double indirect table. It ends with the entries
after the last group, and without an answer when there is no zone for a table. -/
def writeGroups : List (List UInt16) → List UInt16 → Memory → Option (List UInt16) × Memory
  | [], dbl, m => (some dbl, m)
  | _ :: _, [], m => (some [], m)
  | group :: groups, ind :: dbl, m =>
    if ind ≠ 0 then
      let r := writeGroups groups dbl (writeZoneTable sb ind (resize (perTable sb) group) m)
      (r.1.map (ind :: ·), r.2)
    else
      match allocZone sb m with
      | (none, m) => (none, m)
      | (some ind, m) =>
        let r := writeGroups groups dbl (writeZoneTable sb ind (resize (perTable sb) group) m)
        (r.1.map (ind :: ·), r.2)

/-- A new double indirect table is cleared before it is used. -/
def openDouble (m : Memory) : Option DiskInode × Memory :=
  if inode.double = 0 then
    match allocZone sb m with
    | (none, m) => (none, m)
    | (some ind, m) =>
      (some (inode.setDouble ind), writeZoneTable sb ind (List.replicate (perTable sb) 0) m)
  else (some inode, m)

def writeDouble (zones : List UInt16) (m : Memory) : Bool × DiskInode × Memory :=
  if zones.length ≤ directZones + perTable sb then (true, inode.setDouble 0, m)
  else
    match openDouble sb inode m with
    | (none, m) => (false, inode, m)
    | (some inode, m) =>
      let groups := chunks (perTable sb) (zones.drop (directZones + perTable sb))
      match writeGroups sb groups (readZoneTable sb m inode.double) m with
      | (none, m) => (false, inode, m)
      | (some dbl, m) => (true, inode, writeZoneTable sb inode.double dbl m)

/-- The source's function together with whether every allocation found a zone, which its callers are
not told. -/
def storeZones (zones : List UInt16) (m : Memory) : Bool × DiskInode × Memory :=
  match writeSingle sb (inode.setDirect zones) zones m with
  | (false, inode, m) => (false, inode, m)
  | (true, inode, m) => writeDouble sb inode zones m

def writeFileZones (zones : List UInt16) (m : Memory) : DiskInode × Memory :=
  (storeZones sb inode zones m).2

end

end

section

variable (inode : DiskInode) (zones : List UInt16) (z : UInt16)

@[simp] theorem setDirect_single : (inode.setDirect zones).single = inode.single := by
  simp [setDirect,single,directZones]

@[simp] theorem setDirect_double : (inode.setDirect zones).double = inode.double := by
  simp [setDirect,double,directZones]

@[simp] theorem setSingle_single : (inode.setSingle z).single = z := by
  simp [setSingle,single]

@[simp] theorem setSingle_double : (inode.setSingle z).double = inode.double := by
  simp [setSingle,double]

@[simp] theorem setDouble_single : (inode.setDouble z).single = inode.single := by
  simp [setDouble,single]

@[simp] theorem setDouble_double : (inode.setDouble z).double = z := by
  simp [setDouble,double]

theorem getElem?_direct (i : Nat) : inode.direct[i]? = if i < directZones then inode.zone[i]? else none := by
  rw [direct,getElem?_take]
  simp

@[simp] theorem setSingle_direct : (inode.setSingle z).direct = inode.direct := by
  apply ext_getElem?
  intro i
  rw [getElem?_direct,getElem?_direct]
  split
  next h =>
    have hne : 7 ≠ i := by
      rw [directZones] at h
      omega
    simp [setSingle,hne]
  next => rfl

@[simp] theorem setDouble_direct : (inode.setDouble z).direct = inode.direct := by
  apply ext_getElem?
  intro i
  rw [getElem?_direct,getElem?_direct]
  split
  next h =>
    have hne : 8 ≠ i := by
      rw [directZones] at h
      omega
    simp [setDouble,hne]
  next => rfl

@[simp] theorem setDirect_direct : (inode.setDirect zones).direct = resize directZones zones := by
  apply ext_getElem?
  intro i
  rw [getElem?_direct,resize]
  by_cases h : i < directZones
  · have h9 : i < 9 := by
      rw [directZones] at h
      omega
    rw [if_pos h]
    by_cases hz : i < zones.length
    · rw [getElem?_append_left (by rw [length_take]; omega)]
      simp [setDirect,h,h9,hz]
    · rw [getElem?_append_right (by rw [length_take]; omega),getElem?_replicate,
        if_pos (by rw [length_take]; omega)]
      simp [setDirect,h,h9,hz]
  · rw [if_neg h,getElem?_eq_none]
    rw [length_append,length_take,length_replicate]
    omega

end

variable {v₁ : Volume} {taken' : List UInt16}

section

variable {sb : SuperBlock} {z : UInt16}

/-- The entries of a table that are in use. -/
def entries (table : List UInt16) : List UInt16 := table.filter (· != 0)

def Holds (sb : SuperBlock) (v : Volume) (tables : List UInt16) (groups : List (List UInt16)) : Prop :=
  List.Forall₂ (fun z group => v.table z = resize (perTable sb) group) tables groups

theorem Holds.grown {v v' : Volume} {written taken tables : List UInt16}
    {groups : List (List UInt16)} (h : Holds sb v tables groups) (hg : Grown sb v v' written taken)
    (huse : ∀ z ∈ tables, v.InUse sb z) (hw : ∀ z ∈ tables, z ∉ written) :
    Holds sb v' tables groups := by
  induction h with
  | nil => exact .nil
  | cons hz _ ih =>
    refine .cons ?_ (ih (fun z hz => huse z (mem_cons_of_mem _ hz))
      (fun z hz => hw z (mem_cons_of_mem _ hz)))
    rw [hg.table (hw _ mem_cons_self) (huse _ mem_cons_self),hz]

theorem mem_entries_of_takeWhile {table : List UInt16}
    (h : z ∈ table.takeWhile (· != 0)) : z ∈ entries table := by
  rw [entries,mem_filter]
  exact ⟨(List.takeWhile_prefix _).subset h,by simpa using mem_takeWhile_imp h⟩

theorem entries_append (table table' : List UInt16) :
    entries (table++table') = entries table++entries table' := filter_append ..

theorem entries_singleton (hz : z ≠ 0) : entries [z] = [z] := by
  simp [entries,hz]

/-- The table that the entry `z` names, or a new one `z'` if it names none, holds `table`. -/
structure TablePut (sb : SuperBlock) (v v' : Volume) (z z' : UInt16) (table taken : List UInt16) :
    Prop where
  grown : Grown sb v v' (entries [z]) taken
  inUse : v'.InUse sb z'
  table : v'.table z' = table
  perm : [z'].Perm (entries [z] ++ taken)

theorem TablePut.write (g : Geometry sb) {m : Memory} (hz : z ≠ 0)
    (huse : (view sb m).InUse sb z) {table : List UInt16} (hlen : table.length = perTable sb) :
    TablePut sb (view sb m) (view sb (writeZoneTable sb z table m)) z z table [] := by
  obtain ⟨hg,htable⟩ := @writeTable sb m z g huse.1 table hlen
  constructor
  · rw [entries_singleton hz]
    exact hg
  · exact hg.inUse huse
  · exact htable
  · rw [entries_singleton hz]
    exact .refl _

theorem TablePut.alloc (g : Geometry sb) {m m' : Memory} (hp : (view sb m).Padded sb)
    (h : allocZone sb m = (some z, m')) {table : List UInt16} (hlen : table.length = perTable sb) :
    TablePut sb (view sb m) (view sb (writeZoneTable sb z table m')) 0 z table [z] := by
  obtain ⟨hz,hfree,hview⟩ := allocZone_some g hp h
  obtain ⟨hwrite,htable⟩ := @writeTable sb m' z g hz table hlen
  have htake := take g hz hfree
  rw [← hview] at htake
  have hg : Grown sb (view sb m) (view sb (writeZoneTable sb z table m')) [] [z] :=
    (htake.trans hwrite).mono fun y hy => .inr hy
  exact ⟨hg,hg.taken_inUse mem_cons_self,htable,.refl _⟩

theorem TablePut.not_mem {v v' : Volume} {z' : UInt16} {table taken l : List UInt16}
    (h : TablePut sb v v' z z' table taken) (huse : ∀ y ∈ l, v.InUse sb y)
    (hz : ∀ y ∈ entries [z], y ∉ l) : z' ∉ l := by
  intro hin
  cases mem_append.mp (h.perm.subset mem_cons_self) with
  | inl he => exact hz z' he hin
  | inr ht => exact h.grown.not_taken (huse z' hin) ht

/-- What the loop over the groups does, whether or not it finds enough free zones. -/
structure GroupsWritten (sb : SuperBlock) (v v' : Volume) (groups : List (List UInt16))
    (dbl : List UInt16) (r : Option (List UInt16)) (taken : List UInt16) : Prop where
  grown : Grown sb v v' (entries (dbl.take groups.length)) taken
  full : ∀ dbl', r = some dbl' → ∃ tables, dbl' = tables ++ dbl.drop groups.length ∧
    Holds sb v' tables groups ∧ tables.Perm (entries (dbl.take groups.length) ++ taken)

theorem perm_interleave (a b c d : List UInt16) : ((a++b)++(c++d)).Perm ((a++c)++(b++d)) := by
  rw [perm_iff_count]
  simp only [count_append]
  omega

theorem GroupsWritten.cons {v v' : Volume} {group : List UInt16} {groups : List (List UInt16)}
    {z' : UInt16} {dbl taken : List UInt16} {r : Option (List UInt16)}
    (hnew : z' ∉ entries (dbl.take groups.length))
    (hput : TablePut sb v v₁ z z' (resize (perTable sb) group) taken)
    (h : GroupsWritten sb v₁ v' groups dbl r taken') :
    GroupsWritten sb v v' (group::groups) (z::dbl) (r.map (z' :: ·)) (taken++taken') := by
  have hentries : entries ((z::dbl).take (group::groups).length) =
      entries [z] ++ entries (dbl.take groups.length) := by
    rw [length_cons,take_succ_cons,← entries_append,singleton_append]
  constructor
  · rw [hentries]
    exact hput.grown.trans h.grown
  · intro dbl' hr
    obtain ⟨rest,hrest,rfl⟩ := Option.map_eq_some_iff.mp hr
    obtain ⟨tables,htables,hholds,hperm⟩ := h.full rest hrest
    refine ⟨z' :: tables,?_,.cons ?_ hholds,?_⟩
    · rw [htables,length_cons,drop_succ_cons,cons_append]
    · rw [h.grown.table hnew hput.inUse,hput.table]
    · rw [hentries]
      exact (hput.perm.append hperm).trans (perm_interleave ..)

theorem writeGroups_spec (g : Geometry sb) (groups : List (List UInt16)) : ∀ (dbl : List UInt16)
    (m : Memory), (view sb m).Padded sb → groups.length ≤ dbl.length →
    (∀ z ∈ entries (dbl.take groups.length), (view sb m).InUse sb z) →
    (entries (dbl.take groups.length)).Nodup →
    ∃ taken, GroupsWritten sb (view sb m) (view sb (writeGroups sb groups dbl m).2) groups dbl
      (writeGroups sb groups dbl m).1 taken := by
  induction groups with
  | nil =>
    intro dbl m _ _ _ _
    refine ⟨[],refl sb _,?_⟩
    intro dbl' h
    cases h
    exact ⟨[],rfl,.nil,.refl []⟩
  | cons group groups ih =>
    intro dbl m hp hlen huse hnodup
    cases dbl with
    | nil => cases hlen
    | cons z dbl =>
      have hsize : (resize (perTable sb) group).length = perTable sb := length_resize ..
      rw [length_cons,take_succ_cons,← singleton_append,entries_append] at huse hnodup
      have hrest : ∀ y ∈ entries (dbl.take groups.length), (view sb m).InUse sb y :=
        fun y hy => huse y (mem_append_right _ hy)
      have hnot : ∀ y ∈ entries [z], y ∉ entries (dbl.take groups.length) := fun y hy hin =>
        (nodup_append.mp hnodup).2.2 y hy y hin rfl
      have hnext : ∀ {z' m₁ taken}, TablePut sb (view sb m) (view sb m₁) z z'
          (resize (perTable sb) group) taken →
          ∃ taken', GroupsWritten sb (view sb m) (view sb (writeGroups sb groups dbl m₁).2)
            (group::groups) (z::dbl) ((writeGroups sb groups dbl m₁).1.map (z' :: ·)) taken' := by
        intro z' m₁ taken hput
        obtain ⟨taken',h⟩ := ih dbl m₁ (hput.grown.padded hp) (Nat.le_of_succ_le_succ hlen)
          (fun y hy => hput.grown.inUse (hrest y hy)) (nodup_append.mp hnodup).2.1
        exact ⟨_,h.cons (hput.not_mem hrest hnot) hput⟩
      by_cases hz : z = 0
      · rw [hz] at hnext ⊢
        rw [writeGroups,if_neg (by simp)]
        rcases halloc : allocZone sb m with ⟨_ | a,m₁⟩
        · obtain ⟨_,hview⟩ := allocZone_none g hp halloc
          simp only [hview]
          exact ⟨[],(refl sb _).mono (by simp),fun dbl' h => by cases h⟩
        · exact hnext (.alloc g hp halloc hsize)
      · rw [writeGroups,if_pos hz]
        exact hnext (.write g hz (huse z (by simp [entries_singleton hz])) hsize)

end

section

variable {sb : SuperBlock} {m : Memory} {v v' : Volume} {inode inode' : DiskInode}
  {zones taken : List UInt16} {done : Bool}

/-- The zones of a list that the double indirect table leads to. -/
def groups (sb : SuperBlock) (zones : List UInt16) : List (List UInt16) :=
  chunks (perTable sb) (zones.drop (directZones + perTable sb))

theorem length_groups_le (g : Geometry sb) (hlen : zones.length ≤
    directZones+perTable sb+perTable sb*perTable sb) : (groups sb zones).length ≤ perTable sb := by
  have hper := g.perTable_ge
  rw [groups,length_chunks,length_drop]
  apply Nat.le_of_lt_succ
  apply (Nat.div_lt_iff_lt_mul (by omega)).mpr
  rw [Nat.succ_mul]
  omega

def singleUsed (inode : DiskInode) (zones : List UInt16) : List UInt16 :=
  if zones.length ≤ directZones then [] else entries [inode.single]

def SingleHolds (sb : SuperBlock) (v : Volume) (inode : DiskInode) (zones : List UInt16) : Prop :=
  if zones.length ≤ directZones then inode.single = 0
  else v.InUse sb inode.single ∧
    v.table inode.single = resize (perTable sb) ((zones.drop directZones).take (perTable sb))

structure SingleWritten (sb : SuperBlock) (v v' : Volume) (inode inode' : DiskInode)
    (zones : List UInt16) (done : Bool) (taken : List UInt16) : Prop where
  grown : Grown sb v v' (singleUsed inode zones) taken
  direct : inode'.direct = inode.direct
  double : inode'.double = inode.double
  other : inode' = { inode with zone := inode'.zone }
  full : done = true → SingleHolds sb v' inode' zones ∧
    (singleUsed inode' zones).Perm (singleUsed inode zones ++ taken)

theorem TablePut.single (g : Geometry sb) (hmany : ¬ zones.length ≤ directZones) {z' : UInt16}
    (hz : inode.single = z) (hz' : inode'.single = z') (h : TablePut sb v v' z z'
      (resize (perTable sb) ((zones.drop directZones).take (perTable sb))) taken) :
    Grown sb v v' (singleUsed inode zones) taken ∧ (done = true → SingleHolds sb v' inode' zones ∧
      (singleUsed inode' zones).Perm (singleUsed inode zones++taken)) := by
  simp only [singleUsed,SingleHolds,if_neg hmany,hz,hz']
  refine ⟨h.grown,fun _ => ⟨⟨h.inUse,h.table⟩,?_⟩⟩
  rw [entries_singleton (g.ne_zero h.inUse.1)]
  exact h.perm

theorem writeSingle_spec (g : Geometry sb) (hp : (view sb m).Padded sb)
    (huse : ∀ z ∈ singleUsed inode zones, (view sb m).InUse sb z) :
    ∃ taken, SingleWritten sb (view sb m) (view sb (writeSingle sb inode zones m).2.2) inode
      (writeSingle sb inode zones m).2.1 zones (writeSingle sb inode zones m).1 taken := by
  have hsize : (resize (perTable sb) ((zones.drop directZones).take (perTable sb))).length =
    perTable sb := length_resize ..
  by_cases hfew : zones.length ≤ directZones
  · rw [writeSingle,if_pos hfew]
    refine ⟨[],?_,by simp,by simp,rfl,?_⟩
    · rw [singleUsed,if_pos hfew]
      exact refl ..
    · simp [SingleHolds,singleUsed,hfew]
  · rw [writeSingle,if_neg hfew]
    by_cases hz : inode.single = 0
    · simp only [if_pos hz]
      rcases halloc : allocZone sb m with ⟨_ | a,m₁⟩
      · obtain ⟨_,hview⟩ := allocZone_none g hp halloc
        simp only [hview]
        exact ⟨[],(refl sb _).mono (by simp),rfl,rfl,rfl,by simp⟩
      · obtain ⟨hgrown,hfull⟩ := (TablePut.alloc g hp halloc hsize).single g hfew hz
          (setSingle_single inode a)
        exact ⟨_,hgrown,by simp,by simp,rfl,hfull⟩
    · simp only [if_neg hz]
      have hused : singleUsed inode zones = [inode.single] := by
        rw [singleUsed,if_neg hfew,entries_singleton hz]
      obtain ⟨hgrown,hfull⟩ :=
        (TablePut.write g hz (huse _ (by simp [hused])) hsize).single g hfew rfl rfl
      exact ⟨_,hgrown,rfl,rfl,rfl,hfull⟩

/-- The entries of the double indirect table; a missing table counts as a cleared one. -/
def doubleEntries (sb : SuperBlock) (v : Volume) (inode : DiskInode) : List UInt16 :=
  if inode.double = 0 then List.replicate (perTable sb) 0 else v.table inode.double

def doubleUsed (sb : SuperBlock) (v : Volume) (inode : DiskInode) (zones : List UInt16) : List UInt16 :=
  if zones.length ≤ directZones + perTable sb then []
  else entries [inode.double] ++ entries ((doubleEntries sb v inode).take (groups sb zones).length)

/-- The double indirect table leads to the zones of the list, and further entries follow. -/
def DoubleHolds (sb : SuperBlock) (v : Volume) (inode : DiskInode) (zones rest : List UInt16) : Prop :=
  if zones.length ≤ directZones + perTable sb then inode.double = 0
  else v.InUse sb inode.double ∧ ∃ tables, v.table inode.double = tables ++ rest ∧
    Holds sb v tables (groups sb zones) ∧ ∀ z ∈ tables, v.InUse sb z

structure DoubleOpened (sb : SuperBlock) (v v' : Volume) (inode inode' : DiskInode)
    (taken : List UInt16) : Prop where
  put : TablePut sb v v' inode.double inode'.double (doubleEntries sb v inode) taken
  direct : inode'.direct = inode.direct
  single : inode'.single = inode.single
  other : inode' = { inode with zone := inode'.zone }

theorem openDouble_spec (g : Geometry sb) (hp : (view sb m).Padded sb)
    (huse : ∀ z ∈ entries [inode.double], (view sb m).InUse sb z) :
    (∃ m', openDouble sb inode m = (none, m') ∧ view sb m' = view sb m) ∨
    ∃ inode' m' taken, openDouble sb inode m = (some inode', m') ∧
      DoubleOpened sb (view sb m) (view sb m') inode inode' taken := by
  by_cases hz : inode.double = 0
  · rw [openDouble,if_pos hz]
    rcases halloc : allocZone sb m with ⟨_ | a,m₁⟩
    · obtain ⟨_,hview⟩ := allocZone_none g hp halloc
      exact .inl ⟨m₁,rfl,hview⟩
    · have hput := TablePut.alloc g hp halloc (length_replicate (a := 0))
      refine .inr ⟨_,_,[a],rfl,?_,by simp,by simp,rfl⟩
      rw [setDouble_double,hz,doubleEntries,if_pos hz]
      exact hput
  · rw [openDouble,if_neg hz]
    refine .inr ⟨_,_,[],rfl,⟨(refl ..).mono (by simp),?_,?_,?_⟩,rfl,rfl,rfl⟩
    · exact huse _ (by simp [entries_singleton hz])
    · rw [doubleEntries,if_neg hz]
    · rw [entries_singleton hz]
      exact .refl _

theorem length_doubleEntries (huse : ∀ z ∈ entries [inode.double], (view sb m).InUse sb z) :
    (doubleEntries sb (view sb m) inode).length = perTable sb := by
  by_cases hz : inode.double = 0
  · rw [doubleEntries,if_pos hz,length_replicate]
  · rw [doubleEntries,if_neg hz,length_table (huse _ (by simp [entries_singleton hz])).1]

structure DoubleWritten (sb : SuperBlock) (v v' : Volume) (inode inode' : DiskInode)
    (zones : List UInt16) (done : Bool) (taken : List UInt16) : Prop where
  grown : Grown sb v v' (doubleUsed sb v inode zones) taken
  direct : inode'.direct = inode.direct
  single : inode'.single = inode.single
  other : inode' = { inode with zone := inode'.zone }
  full : done = true →
    DoubleHolds sb v' inode' zones ((doubleEntries sb v inode).drop (groups sb zones).length) ∧
      (doubleUsed sb v' inode' zones).Perm (doubleUsed sb v inode zones ++ taken)

theorem DoubleOpened.write (g : Geometry sb) {v : Volume} {dbl taken₁ taken₂ : List UInt16}
    {m₁ m₂ : Memory} (hmany : ¬ zones.length ≤ directZones+perTable sb)
    (hfit : (groups sb zones).length ≤ (doubleEntries sb v inode).length)
    (hsize : (doubleEntries sb v inode).length = perTable sb)
    (huse : ∀ z ∈ doubleUsed sb v inode zones, v.InUse sb z)
    (hnodup : (doubleUsed sb v inode zones).Nodup)
    (ho : DoubleOpened sb v (view sb m₁) inode inode' taken₁)
    (hw : GroupsWritten sb (view sb m₁) (view sb m₂) (groups sb zones) (doubleEntries sb v inode)
      (some dbl) taken₂) :
    DoubleWritten sb v (view sb (writeZoneTable sb inode'.double dbl m₂)) inode inode' zones true
      (taken₁++taken₂) := by
  rw [doubleUsed,if_neg hmany] at huse hnodup
  obtain ⟨tables,hdbl,hholds,hperm⟩ := hw.full dbl rfl
  have hcount : tables.length = (groups sb zones).length := hholds.length_eq
  have hlen : dbl.length = perTable sb := by
    rw [hdbl,length_append,length_drop]
    omega
  have hinUse := hw.grown.inUse ho.put.inUse
  obtain ⟨hg,htable⟩ := @writeTable sb m₂ _ g hinUse.1 _ hlen
  -- The double indirect table is none of the tables it leads to.
  have hnot : inode'.double ∉ tables := by
    intro hin
    cases mem_append.mp (hperm.subset hin) with
    | inr ht => exact hw.grown.not_taken ho.put.inUse ht
    | inl he =>
      refine ho.put.not_mem (fun y hy => huse y (mem_append_right _ hy)) ?_ he
      exact fun y hy hin => (nodup_append.mp hnodup).2.2 y hy y hin rfl
  have htables : ∀ z ∈ tables, (view sb m₂).InUse sb z := by
    intro z hz
    cases mem_append.mp (hperm.subset hz) with
    | inl he => exact hw.grown.inUse (ho.put.grown.inUse (huse z (mem_append_right _ he)))
    | inr ht => exact hw.grown.taken_inUse ht
  have hne : inode'.double ≠ 0 := g.ne_zero hinUse.1
  have hentries : entries tables = tables := by
    rw [entries,filter_eq_self]
    intro z hz
    simpa using g.ne_zero (htables z hz).1
  refine ⟨?_,ho.direct,ho.single,ho.other,?_⟩
  · have hall := (ho.put.grown.trans hw.grown).trans hg
    rw [append_nil] at hall
    refine hall.mono ?_
    intro z hz
    rw [doubleUsed,if_neg hmany]
    cases mem_append.mp hz with
    | inl he => exact .inl he
    | inr hd =>
      cases mem_append.mp (ho.put.perm.subset hd) with
      | inl he => exact .inl (mem_append_left _ he)
      | inr ht => exact .inr (mem_append_left _ ht)
  · intro _
    constructor
    · rw [DoubleHolds,if_neg hmany]
      refine ⟨hg.inUse hinUse,tables,htable.trans hdbl,?_,fun z hz => hg.inUse (htables z hz)⟩
      apply hholds.grown hg htables
      intro z hz hin
      rw [mem_singleton] at hin
      exact hnot (hin ▸ hz)
    · rw [doubleUsed,if_neg hmany,doubleUsed,if_neg hmany,doubleEntries,if_neg hne,htable,hdbl,← hcount,
        take_left,hentries,entries_singleton hne,hcount]
      exact (ho.put.perm.append hperm).trans (perm_interleave ..)

theorem writeDouble_spec (g : Geometry sb) (hp : (view sb m).Padded sb)
    (hlen : zones.length ≤ directZones+perTable sb+perTable sb*perTable sb)
    (huse : ∀ z ∈ doubleUsed sb (view sb m) inode zones, (view sb m).InUse sb z)
    (hnodup : (doubleUsed sb (view sb m) inode zones).Nodup) :
    ∃ taken, DoubleWritten sb (view sb m) (view sb (writeDouble sb inode zones m).2.2) inode
      (writeDouble sb inode zones m).2.1 zones (writeDouble sb inode zones m).1 taken := by
  by_cases hfew : zones.length ≤ directZones+perTable sb
  · rw [writeDouble,if_pos hfew]
    refine ⟨[],?_,by simp,by simp,rfl,?_⟩
    · rw [doubleUsed,if_pos hfew]
      exact refl ..
    · simp [DoubleHolds,doubleUsed,hfew]
  · have hused : doubleUsed sb (view sb m) inode zones = entries [inode.double] ++
        entries ((doubleEntries sb (view sb m) inode).take (groups sb zones).length) := if_neg hfew
    have hdouble : ∀ z ∈ entries [inode.double], (view sb m).InUse sb z := by
      intro z hz
      apply huse
      rw [hused]
      exact mem_append_left _ hz
    have hsize := length_doubleEntries hdouble
    have hfit : (groups sb zones).length ≤ (doubleEntries sb (view sb m) inode).length := by
      rw [hsize]
      exact length_groups_le g hlen
    rw [writeDouble,if_neg hfew]
    cases openDouble_spec g hp hdouble with
    | inl h =>
      obtain ⟨m₁,heq,hview⟩ := h
      simp only [heq,hview]
      exact ⟨[],(refl sb _).mono (by simp),rfl,rfl,rfl,by simp⟩
    | inr h =>
      obtain ⟨inode₁,m₁,taken₁,heq,ho⟩ := h
      have hread : readZoneTable sb m₁ inode₁.double = doubleEntries sb (view sb m) inode := by
        rw [readZoneTable_eq ho.put.inUse.1,ho.put.table]
      obtain ⟨taken₂,hw⟩ := writeGroups_spec g (groups sb zones) (doubleEntries sb (view sb m) inode)
        m₁ (ho.put.grown.padded hp) hfit
        (fun z hz => ho.put.grown.inUse (huse z (hused ▸ mem_append_right _ hz)))
        (nodup_append.mp (hused ▸ hnodup)).2.1
      refine ⟨taken₁++taken₂,?_⟩
      rw [groups] at hw
      simp only [heq,hread]
      rcases hr : writeGroups sb (chunks (perTable sb) (zones.drop (directZones+perTable sb)))
        (doubleEntries sb (view sb m) inode) m₁ with ⟨_ | dbl,m₂⟩
      · rw [hr] at hw
        refine ⟨?_,ho.direct,ho.single,ho.other,by simp⟩
        rw [hused]
        exact ho.put.grown.trans hw.grown
      · rw [hr] at hw
        exact ho.write g hfew hfit hsize huse hnodup hw

def usedTables (sb : SuperBlock) (v : Volume) (inode : DiskInode) (zones : List UInt16) : List UInt16 :=
  singleUsed inode zones ++ doubleUsed sb v inode zones

structure ZonesWritten (sb : SuperBlock) (v v' : Volume) (inode inode' : DiskInode)
    (zones : List UInt16) (done : Bool) (taken : List UInt16) : Prop where
  grown : Grown sb v v' (usedTables sb v inode zones) taken
  direct : inode'.direct = resize directZones zones
  other : inode' = { inode with zone := inode'.zone }
  full : done = true → SingleHolds sb v' inode' zones ∧
    DoubleHolds sb v' inode' zones ((doubleEntries sb v inode).drop (groups sb zones).length) ∧
    (usedTables sb v' inode' zones).Perm (usedTables sb v inode zones ++ taken)

theorem doubleUsed_congr (hdouble : inode'.double = inode.double)
    (htable : inode.double ≠ 0 → v'.table inode.double = v.table inode.double) :
    doubleEntries sb v' inode' = doubleEntries sb v inode ∧
      doubleUsed sb v' inode' zones = doubleUsed sb v inode zones := by
  have hentries : doubleEntries sb v' inode' = doubleEntries sb v inode := by
    rw [doubleEntries,doubleEntries,hdouble]
    split
    next => rfl
    next hz => exact htable hz
  rw [doubleUsed,hentries,hdouble]
  exact ⟨rfl,rfl⟩

theorem mem_doubleUsed_double (hz : inode.double ≠ 0)
    (hmany : ¬ zones.length ≤ directZones+perTable sb) :
    inode.double ∈ doubleUsed sb v inode zones := by
  rw [doubleUsed,if_neg hmany,entries_singleton hz]
  exact mem_append_left _ mem_cons_self

theorem SingleWritten.keep (hs : SingleWritten sb v v₁ inode inode' zones true taken)
    {written : List UInt16} (hg : Grown sb v₁ v' written taken') (g : Geometry sb)
    (hwritten : ∀ z ∈ written, v.InUse sb z ∧ z ∉ singleUsed inode zones) :
    SingleHolds sb v' inode' zones := by
  obtain ⟨hholds,hperm⟩ := hs.full rfl
  by_cases hfew : zones.length ≤ directZones
  · rw [SingleHolds,if_pos hfew] at hholds ⊢
    exact hholds
  · rw [SingleHolds,if_neg hfew] at hholds ⊢
    have hfrom : inode'.single ∈ singleUsed inode zones++taken := by
      apply hperm.subset
      rw [singleUsed,if_neg hfew,entries_singleton (g.ne_zero hholds.1.1)]
      exact mem_cons_self
    have hnot : inode'.single ∉ written := by
      intro hw
      cases mem_append.mp hfrom with
      | inl hin => exact (hwritten _ hw).2 hin
      | inr ht => exact hs.grown.not_taken (hwritten _ hw).1 ht
    rw [hg.table hnot hholds.1]
    exact ⟨hg.inUse hholds.1,hholds.2⟩

theorem SingleWritten.thenDouble {inode₁ inode₂ : DiskInode}
    (g : Geometry sb) (huse : ∀ z ∈ usedTables sb v inode zones, v.InUse sb z)
    (hnodup : (usedTables sb v inode zones).Nodup)
    (hs : SingleWritten sb v v₁ (inode.setDirect zones) inode₁ zones true taken)
    (hsame : zones.length ≤ directZones+perTable sb ∨
      doubleEntries sb v₁ inode₁ = doubleEntries sb v inode)
    (hused : doubleUsed sb v₁ inode₁ zones = doubleUsed sb v inode zones)
    (hd : DoubleWritten sb v₁ v' inode₁ inode₂ zones done taken') :
    ZonesWritten sb v v' inode inode₂ zones done (taken++taken') := by
  have hsingle : singleUsed (inode.setDirect zones) zones = singleUsed inode zones := by
    rw [singleUsed,singleUsed,setDirect_single]
  have hgrown₁ := hs.grown
  have hgrown₂ := hd.grown
  rw [hsingle] at hgrown₁
  rw [hused] at hgrown₂
  refine ⟨hgrown₁.trans hgrown₂,?_,?_,?_⟩
  · rw [hd.direct,hs.direct,setDirect_direct]
  · have hother := hs.other
    rw [hd.other,hother]
    rfl
  · intro hdone
    obtain ⟨hholds,hperm⟩ := hd.full hdone
    have hkeep : SingleHolds sb v' inode₁ zones := by
      apply hs.keep hgrown₂ g
      rw [hsingle]
      intro z hz
      refine ⟨huse z (mem_append_right _ hz),?_⟩
      intro hin
      exact (nodup_append.mp hnodup).2.2 z hin z hz rfl
    refine ⟨?_,?_,?_⟩
    · rw [SingleHolds,hd.single]
      exact hkeep
    · cases hsame with
      | inl hfew =>
        rw [DoubleHolds,if_pos hfew] at hholds ⊢
        exact hholds
      | inr heq => rwa [heq] at hholds
    · have hfirst := (hs.full rfl).2
      rw [hsingle] at hfirst
      have hsecond : singleUsed inode₂ zones = singleUsed inode₁ zones := by
        rw [singleUsed,singleUsed,hd.single]
      rw [hused] at hperm
      rw [usedTables,hsecond]
      exact (hfirst.append hperm).trans (perm_interleave ..)

theorem storeZones_spec (g : Geometry sb) (hp : (view sb m).Padded sb)
    (hlen : zones.length ≤ directZones+perTable sb+perTable sb*perTable sb)
    (huse : ∀ z ∈ usedTables sb (view sb m) inode zones, (view sb m).InUse sb z)
    (hnodup : (usedTables sb (view sb m) inode zones).Nodup) :
    ∃ taken, ZonesWritten sb (view sb m) (view sb (storeZones sb inode zones m).2.2) inode
      (storeZones sb inode zones m).2.1 zones (storeZones sb inode zones m).1 taken := by
  have hsingle : singleUsed (inode.setDirect zones) zones = singleUsed inode zones := by
    rw [singleUsed,singleUsed,setDirect_single]
  have huse₁ : ∀ z ∈ singleUsed (inode.setDirect zones) zones, (view sb m).InUse sb z := by
    rw [hsingle]
    exact fun z hz => huse z (mem_append_left _ hz)
  obtain ⟨taken₁,hs⟩ := writeSingle_spec g hp huse₁
  rw [storeZones]
  rcases hr : writeSingle sb (inode.setDirect zones) zones m with ⟨_ | _,inode₁,m₁⟩
  · rw [hr] at hs
    have hgrown := hs.grown
    rw [hsingle] at hgrown
    refine ⟨taken₁,hgrown.mono ?_,?_,?_,by simp⟩
    · intro z hz
      exact .inl (mem_append_left _ hz)
    · exact hs.direct.trans (setDirect_direct ..)
    · rw [hs.other]
      rfl
  · rw [hr] at hs
    have hdouble : inode₁.double = inode.double := hs.double.trans (setDirect_double ..)
    have hgrown := hs.grown
    rw [hsingle] at hgrown
    have hsame : zones.length ≤ directZones+perTable sb ∨
        doubleEntries sb (view sb m₁) inode₁ = doubleEntries sb (view sb m) inode ∧
          doubleUsed sb (view sb m₁) inode₁ zones = doubleUsed sb (view sb m) inode zones := by
      by_cases hfew : zones.length ≤ directZones+perTable sb
      · exact .inl hfew
      · refine .inr (doubleUsed_congr hdouble ?_)
        intro hz
        have hin := mem_doubleUsed_double (v := view sb m) hz hfew
        refine hgrown.table ?_ (huse _ (mem_append_right _ hin))
        intro hs
        exact (nodup_append.mp hnodup).2.2 _ hs _ hin rfl
    have hused : doubleUsed sb (view sb m₁) inode₁ zones = doubleUsed sb (view sb m) inode zones := by
      cases hsame with
      | inl hfew => rw [doubleUsed,doubleUsed,if_pos hfew,if_pos hfew]
      | inr h => exact h.2
    obtain ⟨taken₂,hd⟩ := @writeDouble_spec sb m₁ inode₁ zones g (hgrown.padded hp) hlen
      (fun z hz => hgrown.inUse (huse z (mem_append_right _ (hused ▸ hz))))
      (hused ▸ (nodup_append.mp hnodup).2.1)
    exact ⟨taken₁++taken₂,hs.thenDouble g huse hnodup (hsame.imp id And.left) hused hd⟩

end

section

variable {sb : SuperBlock} {m : Memory} {inode : DiskInode} {zones rest : List UInt16}

theorem Holds.flatMap {tables : List UInt16} {groups : List (List UInt16)} (g : Geometry sb)
    (h : Holds sb (view sb m) tables groups) (huse : ∀ z ∈ tables, (view sb m).InUse sb z)
    (hfit : ∀ group ∈ groups, group.length ≤ perTable sb)
    (hnz : ∀ group ∈ groups, ∀ z ∈ group, z ≠ 0) :
    tables.flatMap (zoneTable sb m) = groups.flatten := by
  induction h with
  | nil => rfl
  | cons hz _ ih =>
    have hdata := (huse _ mem_cons_self).1
    rw [flatMap_cons,flatten_cons,zoneTable_eq hdata (g.ne_zero hdata),hz,
      takeWhile_resize (hfit _ mem_cons_self) (hnz _ mem_cons_self),
      ih (fun z hz => huse z (mem_cons_of_mem _ hz))
        (fun x hx => hfit x (mem_cons_of_mem _ hx))
        (fun x hx => hnz x (mem_cons_of_mem _ hx))]

theorem zoneTable_zero (sb : SuperBlock) (m : Memory) : zoneTable sb m 0 = [] := if_pos rfl

theorem SingleHolds.read (g : Geometry sb) (h : SingleHolds sb (view sb m) inode zones)
    (hnz : ∀ z ∈ zones, z ≠ 0) :
    zoneTable sb m inode.single = (zones.drop directZones).take (perTable sb) := by
  by_cases hfew : zones.length ≤ directZones
  · rw [SingleHolds,if_pos hfew] at h
    rw [h,zoneTable_zero,drop_eq_nil_of_le hfew,take_nil]
  · rw [SingleHolds,if_neg hfew] at h
    rw [zoneTable_eq h.1.1 (g.ne_zero h.1.1),h.2,takeWhile_resize (length_take_le _ _)]
    exact fun z hz => hnz z (mem_of_mem_drop (mem_of_mem_take hz))

/-- The zones that the entries behind the list's tables lead to. -/
def zonesBehind (sb : SuperBlock) (m : Memory) (zones rest : List UInt16) : List UInt16 :=
  if zones.length ≤ directZones + perTable sb then []
  else (rest.takeWhile (· != 0)).flatMap (zoneTable sb m)

theorem DoubleHolds.read (g : Geometry sb) (h : DoubleHolds sb (view sb m) inode zones rest)
    (hnz : ∀ z ∈ zones, z ≠ 0) : (zoneTable sb m inode.double).flatMap (zoneTable sb m) =
      zones.drop (directZones+perTable sb)++zonesBehind sb m zones rest := by
  have hper : 0 < perTable sb := by
    have hge := g.perTable_ge
    omega
  by_cases hfew : zones.length ≤ directZones+perTable sb
  · rw [DoubleHolds,if_pos hfew] at h
    rw [h,zoneTable_zero,flatMap_nil,drop_eq_nil_of_le hfew,zonesBehind,if_pos hfew,append_nil]
  · rw [DoubleHolds,if_neg hfew] at h
    obtain ⟨huse,tables,htable,hholds,htables⟩ := h
    have hall : ∀ z ∈ tables, (z != 0) = true := by
      intro z hz
      simpa using g.ne_zero (htables z hz).1
    have hread := hholds.flatMap g htables (fun group hg => length_le_of_mem_chunks hg)
      (fun group hg z hz => hnz z (mem_of_mem_drop (mem_of_mem_chunks hper hg hz)))
    rw [groups,flatten_chunks hper] at hread
    rw [zoneTable_eq huse.1 (g.ne_zero huse.1),htable,takeWhile_append_of_pos hall,
      flatMap_append,hread,zonesBehind,if_neg hfew]

theorem dataZones_eq (g : Geometry sb) (hdirect : inode.direct = resize directZones zones)
    (hs : SingleHolds sb (view sb m) inode zones)
    (hd : DoubleHolds sb (view sb m) inode zones rest) (hnz : ∀ z ∈ zones, z ≠ 0) :
    dataZones sb m inode = zones++zonesBehind sb m zones rest := by
  by_cases hlt : zones.length < directZones
  · have hbehind : zonesBehind sb m zones rest = [] := by
      rw [zonesBehind,if_pos (by omega)]
    simp only [dataZones,hdirect,takeWhile_resize hlt.le hnz,if_pos hlt,hbehind,append_nil]
  · have htake : (zones.take directZones).length = directZones := by
      rw [length_take]
      omega
    have hfirst : inode.direct.takeWhile (· != 0) = zones.take directZones := by
      rw [hdirect,← resize_take (Nat.le_of_not_lt hlt),takeWhile_resize htake.le]
      exact fun z hz => hnz z (mem_of_mem_take hz)
    have hsplit : zones.take directZones++((zones.drop directZones).take (perTable sb) ++
        zones.drop (directZones+perTable sb)) = zones := by
      rw [← drop_drop,take_append_drop,take_append_drop]
    simp only [dataZones,hfirst,htake,lt_irrefl,if_false,hs.read g hnz,hd.read g hnz]
    generalize zonesBehind sb m zones rest = behind
    conv_rhs => rw [← hsplit]
    simp only [append_assoc]

end

variable {sb : SuperBlock} {m : Memory} {v v' : Volume} {inode : DiskInode} {zones : List UInt16}

def indexTables (sb : SuperBlock) (v : Volume) (inode : DiskInode) : List UInt16 :=
  entries [inode.single] ++ (entries [inode.double] ++ entries (doubleEntries sb v inode))

/-- The entries behind the ones for the list. -/
def entriesBehind (sb : SuperBlock) (v : Volume) (inode : DiskInode) (zones : List UInt16) : List UInt16 :=
  (doubleEntries sb v inode).drop (groups sb zones).length

theorem used_behind_sublist : (usedTables sb v inode zones++entries (entriesBehind sb v inode zones)).Sublist
    (indexTables sb v inode) := by
  rw [usedTables,singleUsed,doubleUsed,append_assoc]
  apply List.Sublist.append
  · split
    next => exact nil_sublist _
    next => exact List.Sublist.refl _
  · split
    next => exact ((drop_sublist _ _).filter _).trans (sublist_append_right _ _)
    next =>
      rw [append_assoc,entriesBehind,← entries_append,take_append_drop]

theorem usedTables_sublist : (usedTables sb v inode zones).Sublist (indexTables sb v inode) :=
  (sublist_append_left _ _).trans used_behind_sublist

/-- The tables of the inode are zones in use, each used once. -/
structure OwnTables (sb : SuperBlock) (v : Volume) (inode : DiskInode) : Prop where
  inUse : ∀ z ∈ indexTables sb v inode, v.InUse sb z
  nodup : (indexTables sb v inode).Nodup

theorem OwnTables.store (h : OwnTables sb (view sb m) inode) (g : Geometry sb)
    (hp : (view sb m).Padded sb)
    (hlen : zones.length ≤ directZones+perTable sb+perTable sb*perTable sb) :
    ∃ taken, ZonesWritten sb (view sb m) (view sb (writeFileZones sb inode zones m).2) inode
      (writeFileZones sb inode zones m).1 zones (storeZones sb inode zones m).1 taken :=
  storeZones_spec g hp hlen (fun z hz => h.inUse z (usedTables_sublist.subset hz))
    (h.nodup.sublist usedTables_sublist)

/-- The entries of the double indirect table behind the ones for the list lead to no zone. -/
def EndsWith (sb : SuperBlock) (m : Memory) (inode : DiskInode) (zones : List UInt16) : Prop :=
  zonesBehind sb m zones (entriesBehind sb (view sb m) inode zones) = []

theorem OwnTables.behind (h : OwnTables sb v inode) {z : UInt16}
    (hz : z ∈ entries (entriesBehind sb v inode zones)) :
    v.InUse sb z ∧ z ∉ usedTables sb v inode zones :=
  ⟨h.inUse z (used_behind_sublist.subset (mem_append_right _ hz)),
    fun hused => (nodup_append.mp (h.nodup.sublist used_behind_sublist)).2.2 z hused z hz rfl⟩

/-- A list of zones that was written without running out of zones is read back if and only if nothing
follows it in the double indirect table; the tables are new or were the inode's own, and the other zones in
use keep their contents. -/
theorem zone_list_survives (g : Geometry sb) (hp : (view sb m).Padded sb)
    (hown : OwnTables sb (view sb m) inode) (hnz : ∀ z ∈ zones, z ≠ 0)
    (hlen : zones.length ≤ directZones + perTable sb + perTable sb * perTable sb)
    (hdone : (storeZones sb inode zones m).1 = true) :
    let r := writeFileZones sb inode zones m
    (dataZones sb r.2 r.1 = zones ↔ EndsWith sb m inode zones) ∧
    (∀ z ∈ usedTables sb (view sb r.2) r.1 zones, z ∈ indexTables sb (view sb m) inode ∨
      sb.IsData z ∧ (view sb m).zmap (sb.zoneBit z) = false) ∧
    ∀ z, (view sb m).InUse sb z → z ∉ indexTables sb (view sb m) inode →
      (view sb r.2).zone z = (view sb m).zone z := by
  obtain ⟨taken,h⟩ := hown.store g hp hlen
  obtain ⟨hs,hd,hperm⟩ := h.full hdone
  refine ⟨?_,?_,?_⟩
  · have hsame : zonesBehind sb (writeFileZones sb inode zones m).2 zones
        (entriesBehind sb (view sb m) inode zones) =
          zonesBehind sb m zones (entriesBehind sb (view sb m) inode zones) := by
      rw [zonesBehind,zonesBehind]
      congr 1
      apply flatMap_congr
      intro z hz
      obtain ⟨huse,hnot⟩ := hown.behind (mem_entries_of_takeWhile hz)
      rw [zoneTable_eq huse.1 (g.ne_zero huse.1),zoneTable_eq huse.1 (g.ne_zero huse.1),
        h.grown.table hnot huse]
    rw [dataZones_eq g h.direct hs hd hnz,← entriesBehind,hsame,append_right_eq_self,EndsWith]
  · intro z hz
    cases mem_append.mp (hperm.subset hz) with
    | inl hin => exact .inl (usedTables_sublist.subset hin)
    | inr ht => exact .inr (h.grown.fresh z ht)
  · intro z hz hnot
    apply h.grown.zone z _ (h.grown.not_taken hz)
    exact fun hin => hnot (usedTables_sublist.subset hin)

/-- A disk with 1024 byte zones. -/
def sparseDisk : SuperBlock where
  ninodes := 32
  nzones := 700
  imapBlocks := 1
  zmapBlocks := 1
  firstDataZone := 5
  logZoneSize := 0
  maxSize := 0
  magic := magicV14
  state := 1

/-- Zone 5 is a full table, and zone 6 leads to zone 7, which is empty, and to zone 8, which holds one
zone. The maps in zones 2 and 3 are full. -/
def sparseTables (zone entry : Nat) : Nat :=
  if zone = 5 then 12 + entry
  else if zone = 6 ∧ entry < 2 then 7 + entry
  else if zone = 8 ∧ entry = 0 then 600
  else if zone = 2 ∨ zone = 3 then 65535
  else 0

def sparseImage : Memory := fun a =>
  UInt8.ofNat (sparseTables (a / 1024) (a % 1024 / 2) / 256 ^ (a % 2))

def sparseInode : DiskInode :=
  { DiskInode.zero with zone := #v[601,602,603,604,605,606,607,5,6] }

def sparseZones : List UInt16 :=
  (List.range 7).map (fun i => UInt16.ofNat (601 + i)) ++
    (List.range 512).map (fun i => UInt16.ofNat (12 + i)) ++ [600]

theorem sparse_geometry : Geometry sparseDisk := by
  constructor <;> decide

theorem sparse_padded : (view sparseDisk sparseImage).Padded sparseDisk :=
  .of_ones 0 128 0 128 (by decide +kernel) (by decide +kernel) (by decide +kernel) (by decide +kernel)
    (by decide) (by decide)

theorem sparse_own : OwnTables sparseDisk (view sparseDisk sparseImage) sparseInode := by
  have htables : indexTables sparseDisk (view sparseDisk sparseImage) sparseInode = [5,6,7,8] := by
    decide +kernel
  constructor <;> rw [htables]
  · decide +kernel
  · decide

/-- Written again as it was read, the list of a file with a hole in its tables is read back with a zone
too many: zone 7 now holds its last zone, and zone 8 still does. -/
theorem zone_list_of_sparse_file : OwnTables sparseDisk (view sparseDisk sparseImage) sparseInode ∧
    dataZones sparseDisk sparseImage sparseInode = sparseZones ∧ (∀ z ∈ sparseZones, z ≠ 0) ∧
    sparseZones.length ≤
      directZones + perTable sparseDisk + perTable sparseDisk * perTable sparseDisk ∧
    (storeZones sparseDisk sparseInode sparseZones sparseImage).1 = true ∧
    dataZones sparseDisk (writeFileZones sparseDisk sparseInode sparseZones sparseImage).2
      (writeFileZones sparseDisk sparseInode sparseZones sparseImage).1 ≠ sparseZones := by
  refine ⟨sparse_own,by decide +kernel,by decide +kernel,by decide +kernel,by decide +kernel,?_⟩
  generalize hr : writeFileZones sparseDisk sparseInode sparseZones sparseImage = r
  have hdirect : (r.1.direct.takeWhile (· != 0)).length = directZones := by
    rw [← hr]
    decide +kernel
  have hlast : (zoneTable sparseDisk r.2 r.1.double).flatMap (zoneTable sparseDisk r.2) = [600,600] := by
    rw [← hr]
    decide +kernel
  intro heq
  have hend : (dataZones sparseDisk r.2 r.1).reverse.take 2 = [600,600] := by
    simp only [dataZones,hdirect,lt_irrefl,if_false,hlast,reverse_append]
    rfl
  rw [heq] at hend
  revert hend
  decide +kernel

/-- The double indirect table in zone 8 leads to the empty zone 600. -/
def denseInode : DiskInode :=
  { DiskInode.zero with zone := #v[601,602,603,604,605,606,607,5,8] }

theorem dense_own : OwnTables sparseDisk (view sparseDisk sparseImage) denseInode := by
  have htables : indexTables sparseDisk (view sparseDisk sparseImage) denseInode = [5,8,600] := by
    decide +kernel
  constructor <;> rw [htables]
  · decide +kernel
  · decide

/-- The last of the 520 zones goes into the table in zone 600. -/
def denseZones : List UInt16 := sparseZones.take 519 ++ [608]

theorem zone_list_survives_double :
    directZones + perTable sparseDisk < denseZones.length ∧
    dataZones sparseDisk (writeFileZones sparseDisk denseInode denseZones sparseImage).2
      (writeFileZones sparseDisk denseInode denseZones sparseImage).1 = denseZones := by
  have hends : EndsWith sparseDisk sparseImage denseInode denseZones := by
    unfold EndsWith
    decide +kernel
  exact ⟨by decide +kernel,(zone_list_survives sparse_geometry sparse_padded dense_own
    (by decide +kernel) (by decide +kernel) (by decide +kernel)).1.mpr hends⟩

end Athera.Minix
