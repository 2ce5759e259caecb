import Athera.Mm.SpaceOwnership

/-!
# Copies of an address space

`try_clone` turns each entry that leads to a copied table to the copy, in the tables of the last
level too.
-/

namespace Athera

open Framework AddressSpace List Function

/-- An entry after the addresses in `remap` have been replaced. -/
def remapEntry (remap : List (Nat × Nat)) (e : PageTableEntry) : PageTableEntry :=
  match remap.lookup e.addr with
  | some addr => { e with ppn := ppn addr }
  | none => e

def remapTable (remap : List (Nat × Nat)) (t : PageTable) : PageTable := fun i =>
  if i < pteNumber then remapEntry remap (t i) else .new

variable {mem mem' : TableMemory} {shared : PageTable} {sp sp' kernel : Space}
  {remap l : List (Nat × Nat)} {pool : List Nat}

variable {e : PageTableEntry}

theorem lookup_eq_some_iff_mem (hnd : (l.map Prod.fst).Nodup) {k v : Nat} :
    l.lookup k = some v ↔ (k, v) ∈ l := by
  induction l with
  | nil => simp
  | cons p l ih =>
    obtain ⟨k',v'⟩ := p
    rw [map_cons,nodup_cons] at hnd
    rw [lookup_cons]
    by_cases hk : k = k'
    · subst k'
      have hnot : (k, v) ∉ l := fun hin => hnd.1 (mem_map.mpr ⟨_,hin,rfl⟩)
      simp [hnot,eq_comm]
    · have hne : (k == k') = false := by simpa using hk
      simp [hne,ih hnd.2,hk]

theorem lookup_eq_none_iff_keys {k : Nat} : l.lookup k = none ↔ k ∉ l.map Prod.fst := by
  rw [lookup_eq_none_iff]
  simp only [mem_map,not_exists,not_and,bne_iff_ne]
  exact ⟨fun h p hp he => h p hp he.symm,fun h p hp he => h p hp he.symm⟩

@[simp] theorem remapEntry_v (e : PageTableEntry) : (remapEntry remap e).v = e.v := by
  unfold remapEntry
  split <;> rfl

@[simp] theorem remapEntry_flags (e : PageTableEntry) : (remapEntry remap e).flags = e.flags := by
  unfold remapEntry
  split <;> rfl

theorem remapEntry_of_none (h : remap.lookup e.addr = none) : remapEntry remap e = e := by
  rw [remapEntry,h]

theorem remapEntry_addr {addr : Nat} (h : remap.lookup e.addr = some addr)
    (hwhole : ppn addr*pageSize = addr) : (remapEntry remap e).addr = addr := by
  rw [remapEntry,h]
  exact hwhole

theorem remapTable_of_lt {t : PageTable} {i : Nat} (hi : i < pteNumber) :
    remapTable remap t i = remapEntry remap (t i) := if_pos hi

theorem remapTable_lt {t : PageTable} {i : Nat} (hv : (remapTable remap t i).v = true) :
    i < pteNumber := by
  by_contra hi
  rw [remapTable,if_neg hi] at hv
  exact absurd hv (by simp [PageTableEntry.new])

theorem retarget_copyFrom (t : PageTable) :
    retarget remap t (copyFrom t .empty) = remapTable remap t := by
  funext i
  have hcopy : copyFrom t .empty i = if i < pteNumber then t i else .new := by
    rw [copyFrom,copyHighHalf,copyLowHalf]
    by_cases hlow : i < 256
    · have hlt : i < pteNumber := Nat.lt_trans hlow (by decide)
      rw [if_pos hlow,if_pos hlt,ite_self]
    · rw [if_neg hlow]
      simp only [Nat.not_lt.mp hlow,true_and]
      rfl
  rw [retarget,remapTable,hcopy]
  by_cases hi : i < pteNumber
  · rewrite [if_pos hi,if_pos hi,if_pos hi,remapEntry]
    cases remap.lookup (t i).addr <;> rfl
  · rw [if_neg hi,if_neg hi,if_neg hi]

theorem copyTables_spec (mem : TableMemory) (olds pool : List Nat) (hnd : pool.Nodup)
    (hapart : ∀ a ∈ pool, a ∉ olds) : match copyTables mem olds pool with
    | (none, mem', _) => ∀ a, a ∉ pool → mem' a = mem a
    | (some remap, mem', pool') => remap.map Prod.fst = olds ∧
        pool = remap.map Prod.snd++pool' ∧ (∀ a, a ∉ remap.map Prod.snd → mem' a = mem a) ∧
        ∀ p ∈ remap, mem' p.2 = copyFrom (mem p.1) .empty := by
  induction olds generalizing mem pool with
  | nil => simp [copyTables]
  | cons old olds ih =>
    cases pool with
    | nil => simp [copyTables]
    | cons new pool =>
      obtain ⟨hnew,hnd⟩ := nodup_cons.mp hnd
      have hon : old ≠ new := fun he => hapart new mem_cons_self (he ▸ mem_cons_self)
      have hnot : ∀ o ∈ olds, o ≠ new := fun o ho he =>
        hapart new mem_cons_self (mem_cons_of_mem _ (he ▸ ho))
      have hcopied : Function.update (Function.update mem new PageTable.empty) new
          (copyFrom (Function.update mem new PageTable.empty old)
            (Function.update mem new PageTable.empty new)) =
          Function.update mem new (copyFrom (mem old) .empty) := by
        rw [update_idem,update_of_ne hon,update_self]
      have hrest := ih (Function.update mem new (copyFrom (mem old) .empty)) pool hnd
        fun a ha hin => hapart a (mem_cons_of_mem _ ha) (mem_cons_of_mem _ hin)
      rw [copyTables]
      simp only [hcopied]
      generalize copyTables (Function.update mem new (copyFrom (mem old) .empty)) olds pool = r
        at hrest ⊢
      obtain ⟨_ | remap,mem',pool'⟩ := r
      · intro a ha
        rw [mem_cons,not_or] at ha
        exact (hrest a ha.2).trans (update_of_ne ha.1 _ _)
      · obtain ⟨hkeys,hpool,hkept,hcopies⟩ := hrest
        have hnews : new ∉ remap.map Prod.snd := fun hin => hnew (by
          rw [hpool]
          exact mem_append_left _ hin)
        simp only [Option.map_some,map_cons,cons_append,List.cons.injEq,true_and]
        refine ⟨hkeys,hpool,?_,?_⟩
        · intro a ha
          rw [mem_cons,not_or] at ha
          exact (hkept a ha.2).trans (update_of_ne ha.1 _ _)
        · intro p hp
          rcases mem_cons.mp hp with rfl | hp
          · rw [hkept new hnews,update_self]
          · have hold : p.1 ∈ olds := hkeys ▸ mem_map_of_mem hp
            rw [hcopies p hp,update_of_ne (hnot _ hold)]

theorem retargetTables_spec (remap : List (Nat × Nat)) (mem : TableMemory) (l : List (Nat × Nat))
    (hnd : (l.map Prod.snd).Nodup) (hapart : ∀ a ∈ l.map Prod.snd, a ∉ l.map Prod.fst) :
    (∀ a, a ∉ l.map Prod.snd → retargetTables remap mem l a = mem a) ∧
      ∀ p ∈ l, retargetTables remap mem l p.2 = retarget remap (mem p.1) (mem p.2) := by
  induction l generalizing mem with
  | nil => simp [retargetTables]
  | cons p l ih =>
    obtain ⟨old,new⟩ := p
    rw [map_cons,nodup_cons] at hnd
    have hrest := ih (Function.update mem new (retarget remap (mem old) (mem new))) hnd.2
      fun a ha hin => hapart a (mem_cons_of_mem _ ha) (mem_cons_of_mem _ hin)
    rw [retargetTables]
    constructor
    · intro a ha
      rw [map_cons,mem_cons,not_or] at ha
      exact (hrest.1 a ha.2).trans (update_of_ne ha.1 _ _)
    · intro q hq
      rcases mem_cons.mp hq with rfl | hq
      · rw [hrest.1 _ hnd.1,update_self]
      · have hsnd : q.2 ≠ new := fun he => hnd.1 (mem_map.mpr ⟨q,hq,he⟩)
        have hfst : q.1 ≠ new := fun he => hapart new mem_cons_self
          (mem_cons_of_mem _ (mem_map.mpr ⟨q,hq,he⟩))
        rw [hrest.2 q hq,update_of_ne hsnd,update_of_ne hfst]

/-- What a successful copy looks like. -/
structure Cloned (mem mem' : TableMemory) (sp sp' : Space) (remap : List (Nat × Nat)) : Prop where
  keys : remap.map Prod.fst = sp.tables
  values : ∀ a, a ∈ sp'.tables ↔ a ∈ remap.map Prod.snd
  distinct : (remap.map Prod.snd).Nodup
  nodup : sp'.owned.Nodup
  root : mem' sp'.root = remapTable remap (mem sp.root)
  table : ∀ p ∈ remap, mem' p.2 = remapTable remap (mem p.1)
  kept : ∀ a, a ∉ sp'.owned → mem' a = mem a

theorem tryClone_spec (mem : TableMemory) (hnd : pool.Nodup) (hapart : ∀ a ∈ pool, a ∉ sp.owned) :
    match sp.tryClone mem pool with
    | (.error _, mem', _) => ∀ a, a ∉ pool → mem' a = mem a
    | (.ok sp', mem', _) => (∀ a ∈ sp'.owned, a ∈ pool) ∧ ∃ remap, Cloned mem mem' sp sp' remap := by
  cases pool with
  | nil => simp [Space.tryClone]
  | cons root pool =>
    obtain ⟨hnew,hnd⟩ := nodup_cons.mp hnd
    have hroot : sp.root ≠ root := fun he =>
      hapart root mem_cons_self (he ▸ mem_cons_self)
    have hcopied : Function.update (Function.update mem root PageTable.empty) root
        (copyFrom (Function.update mem root PageTable.empty sp.root)
          (Function.update mem root PageTable.empty root)) =
        Function.update mem root (copyFrom (mem sp.root) .empty) := by
      rw [update_idem,update_of_ne hroot,update_self]
    have hcopy := copyTables_spec (Function.update mem root (copyFrom (mem sp.root) .empty))
      sp.tables pool hnd fun a ha hin =>
        hapart a (mem_cons_of_mem _ ha) (mem_cons_of_mem _ hin)
    rw [Space.tryClone]
    simp only [hcopied]
    generalize copyTables (Function.update mem root (copyFrom (mem sp.root) .empty)) sp.tables
      pool = r at hcopy ⊢
    obtain ⟨_ | remap,mem1,pool'⟩ := r
    · intro a ha
      rw [mem_cons,not_or] at ha
      exact (hcopy a ha.2).trans (update_of_ne ha.1 _ _)
    · obtain ⟨hkeys,hpool,hkept,hcopies⟩ := hcopy
      have hsub : ∀ a ∈ remap.map Prod.snd, a ∈ pool := fun a ha =>
        hpool ▸ mem_append_left _ ha
      have hroot' : root ∉ remap.map Prod.snd := fun hin => hnew (hsub root hin)
      have hdist : (remap.map Prod.snd).Nodup := by
        rw [hpool] at hnd
        exact (nodup_append.mp hnd).1
      have hsort : ∀ a, a ∈ (remap.map Prod.snd).insertionSort (· ≤ ·) ↔ a ∈ remap.map Prod.snd :=
        fun a => mem_insertionSort _
      have hold : ∀ a ∈ sp.owned, a ≠ root ∧ a ∉ remap.map Prod.snd := fun a ha =>
        ⟨fun he => hapart root mem_cons_self (he ▸ ha),
          fun hin => hapart a (mem_cons_of_mem _ (hsub a hin)) ha⟩
      have hmem1 : ∀ a ∈ sp.owned, mem1 a = mem a := fun a ha =>
        (hkept a (hold a ha).2).trans (update_of_ne (hold a ha).1 _ _)
      have hroot1 : mem1 root = copyFrom (mem sp.root) .empty :=
        (hkept root hroot').trans (update_self _ _ _)
      have hfinal := retargetTables_spec remap
        (Function.update mem1 root (retarget remap (mem1 sp.root) (mem1 root))) remap hdist
        fun a ha hin => (hold a (mem_cons_of_mem _ (hkeys ▸ hin))).2 ha
      refine ⟨?_,remap,hkeys,hsort,hdist,?_,?_,?_,?_⟩
      · intro a ha
        rcases mem_cons.mp ha with rfl | ha
        · exact mem_cons_self
        · exact mem_cons_of_mem _ (hsub a ((hsort a).mp ha))
      · change (root::(remap.map Prod.snd).insertionSort (· ≤ ·)).Nodup
        rw [nodup_cons,hsort,(perm_insertionSort _ _).nodup_iff]
        exact ⟨hroot',hdist⟩
      · rw [hfinal.1 root hroot',update_self,hmem1 _ mem_cons_self,hroot1,retarget_copyFrom]
      · intro p hp
        have hkey : p.1 ∈ sp.owned :=
          mem_cons_of_mem _ (hkeys ▸ mem_map_of_mem hp)
        have hval : p.2 ≠ root := fun he => hroot' (he ▸ mem_map_of_mem hp)
        rw [hfinal.2 p hp,update_of_ne hval,update_of_ne (hold _ hkey).1,
          hmem1 _ hkey,hcopies p hp,update_of_ne (hold _ hkey).1,retarget_copyFrom]
      · intro a ha
        rw [Space.owned,mem_cons,hsort,not_or] at ha
        rw [hfinal.1 a ha.2,update_of_ne ha.1,hkept a ha.2,update_of_ne ha.1]

variable {old : Nat}

section

variable {i j : Nat}

section

variable (h : Cloned mem mem' sp sp' remap) {new : Nat}
include h

theorem Cloned.lookup_iff (hok : SpaceOk mem shared sp) : remap.lookup old = some new ↔ (old, new) ∈ remap := by
  apply lookup_eq_some_iff_mem
  rw [h.keys]
  exact (nodup_cons.mp hok.nodup).2

theorem Cloned.exists_new (hok : SpaceOk mem shared sp) (hin : old ∈ sp.tables) :
    ∃ new, remap.lookup old = some new ∧ (old, new) ∈ remap ∧ new ∈ sp'.tables := by
  rw [← h.keys] at hin
  obtain ⟨p,hp,rfl⟩ := mem_map.mp hin
  exact ⟨p.2,(h.lookup_iff hok).mpr hp,hp,(h.values _).mpr (mem_map_of_mem hp)⟩

theorem Cloned.old_unique {old' : Nat}
    (hp : (old, new) ∈ remap) (hp' : (old', new) ∈ remap) : old = old' := by
  have hinj := inj_on_of_nodup_map h.distinct hp hp' rfl
  exact congrArg Prod.fst hinj

noncomputable def clonedPlace (remap : List (Nat × Nat)) (place : Nat → Place) (new : Nat) : Place :=
  open Classical in if h : ∃ old, (old, new) ∈ remap then place h.choose else .level1 0

theorem Cloned.place {place : Nat → Place}
    (hp : (old, new) ∈ remap) : clonedPlace remap place new = place old := by
  have hex : ∃ old, (old, new) ∈ remap := ⟨old,hp⟩
  rw [clonedPlace,dif_pos hex,h.old_unique hex.choose_spec hp]

section

variable (hok : SpaceOk mem shared sp) (hfresh : FreshPool shared sp pool) (hpool : ∀ a ∈ sp'.owned, a ∈ pool)
include hok hfresh hpool

theorem Cloned.root_cases
        (hi : i < pteNumber) (hv : (mem sp.root i).v = true) :
    (∃ new, (mem sp.root i).addr ∈ sp.tables ∧ ((mem sp.root i).addr, new) ∈ remap ∧
      new ∈ sp'.tables ∧ (mem' sp'.root i).addr = new ∧ (mem' sp'.root i).v = true) ∨
    (mem sp.root i = shared i ∧ (mem sp.root i).addr ∉ sp.tables ∧
      mem' sp'.root i = shared i ∧ (shared i).addr ∉ sp'.tables) := by
  have hentry : mem' sp'.root i = remapEntry remap (mem sp.root i) := by
    rw [h.root,remapTable_of_lt hi]
  by_cases hin : (mem sp.root i).addr ∈ sp.tables
  · obtain ⟨new,hlook,hp,hnew⟩ := h.exists_new hok hin
    have hwhole := hfresh.whole new (hpool new (mem_cons_of_mem _ hnew))
    refine .inl ⟨new,hin,hp,hnew,?_,?_⟩
    · rw [hentry,remapEntry_addr hlook hwhole]
    · rw [hentry,remapEntry_v,hv]
  · have heq := (hok.root i hv).resolve_left hin
    have hnone : remap.lookup (mem sp.root i).addr = none := by
      rw [lookup_eq_none_iff_keys,h.keys]
      exact hin
    rw [remapEntry_of_none hnone,heq] at hentry
    refine .inr ⟨heq,hin,hentry,fun hnew => ?_⟩
    rw [heq] at hv
    exact hfresh.unshared _ (hpool _ (mem_cons_of_mem _ hnew)) i hv rfl

theorem Cloned.table_entry
        (hv : (mem sp.root i).v = true) (hin : (mem sp.root i).addr ∈ sp.tables)
    (hp : ((mem sp.root i).addr, new) ∈ remap) (hj : j < pteNumber)
    (hvj : (mem (mem sp.root i).addr j).v = true) :
    ∃ new0, ((mem (mem sp.root i).addr j).addr, new0) ∈ remap ∧ new0 ∈ sp'.tables ∧
      (mem' new j).addr = new0 := by
  obtain ⟨new0,hlook,hp0,hnew0⟩ := h.exists_new hok (hok.next hv hin hvj)
  have hwhole := hfresh.whole new0 (hpool new0 (mem_cons_of_mem _ hnew0))
  refine ⟨new0,hp0,hnew0,?_⟩
  rw [h.table _ hp,remapTable_of_lt hj,remapEntry_addr hlook hwhole]

theorem Cloned.ok : SpaceOk mem' shared sp' := by
  have hvalid : ∀ i, (mem' sp'.root i).v = true → i < pteNumber ∧ (mem sp.root i).v = true := by
    intro i hv
    rw [h.root] at hv
    have hi := remapTable_lt hv
    rw [remapTable_of_lt hi,remapEntry_v] at hv
    exact ⟨hi,hv⟩
  have hown : ∀ i, (mem' sp'.root i).v = true → (mem' sp'.root i).addr ∈ sp'.tables →
      (mem sp.root i).addr ∈ sp.tables ∧
        ((mem sp.root i).addr, (mem' sp'.root i).addr) ∈ remap := by
    intro i hv hin
    obtain ⟨hi,hvold⟩ := hvalid i hv
    rcases h.root_cases hok hfresh hpool hi hvold with
      ⟨new,hold,hp,_,haddr,_⟩ | ⟨_,_,hsame,hnot⟩
    · rw [haddr]
      exact ⟨hold,hp⟩
    · rw [hsame] at hin
      exact absurd hin hnot
  obtain ⟨place,htree⟩ := hok.tree
  refine ⟨h.nodup,⟨clonedPlace remap place,?_,?_⟩,?_,?_,?_⟩
  · intro i a t hf
    obtain ⟨hv,rfl,hin,_⟩ := view_follow.mp hf
    obtain ⟨hold,hp⟩ := hown i hv hin
    refine (h.place hp).trans ?_
    exact htree.level1 i _ _ (view_follow.mpr ⟨(hvalid i hv).2,rfl,hold,rfl⟩)
  · intro i a t hf j hj
    obtain ⟨hv,ha,hin,rfl⟩ := view_follow.mp hf
    subst a
    obtain ⟨hold,hp⟩ := hown i hv hin
    change (mem' (mem' sp'.root i).addr j).v = true at hj
    have hj' := hj
    rw [h.table _ hp] at hj'
    have hlt := remapTable_lt hj'
    rw [remapTable_of_lt hlt,remapEntry_v] at hj'
    obtain ⟨new0,hp0,hnew0,haddr⟩ :=
      h.table_entry hok hfresh hpool (hvalid i hv).2 hold hp hlt hj'
    change ((sp'.view mem').tables (mem' (mem' sp'.root i).addr j).addr).isSome = true ∧
      clonedPlace remap place (mem' (mem' sp'.root i).addr j).addr = _
    rw [haddr,h.place hp0]
    refine ⟨by simp [Space.view,hnew0],?_⟩
    exact (htree.level0 i _ _ (view_follow.mpr ⟨(hvalid i hv).2,rfl,hold,rfl⟩) j hj').2
  · intro i hv
    obtain ⟨hi,hvold⟩ := hvalid i hv
    rcases h.root_cases hok hfresh hpool hi hvold with
      ⟨new,_,_,hnew,haddr,_⟩ | ⟨_,_,hsame,_⟩
    · rw [haddr]
      exact .inl hnew
    · exact .inr hsame
  · intro i
    rw [h.root,remapTable]
    split
    · rw [remapEntry_flags,hok.plainRoot]
    · rfl
  · intro i hv hin j
    obtain ⟨hold,hp⟩ := hown i hv hin
    rw [h.table _ hp,remapTable]
    split
    · rw [remapEntry_flags,hok.plainTable i (hvalid i hv).2 hold]
    · rfl

end

end

end

variable {va : Nat}

theorem view_follow_none (h : ¬ (e.v = true ∧ e.addr ∈ sp.tables)) :
    (sp.view mem).follow e = none := by
  cases hf : (sp.view mem).follow e with
  | none => rfl
  | some r =>
    obtain ⟨hv,ha,hin,_⟩ := view_follow.mp hf
    exact absurd ⟨hv,ha ▸ hin⟩ h

theorem view_lastTable_none {i j : Nat}
    (h : ¬ ((mem sp.root i).v = true ∧ (mem sp.root i).addr ∈ sp.tables)) :
    (sp.view mem).lastTable i j = none := by
  have hf : (sp.view mem).follow ((sp.view mem).root i) = none := view_follow_none h
  rw [lastTable,hf]

theorem vpn0_lt (va : Nat) : vpn0 va < pteNumber := Nat.mod_lt _ (by decide)
theorem vpn1_lt (va : Nat) : vpn1 va < pteNumber := Nat.mod_lt _ (by decide)
theorem vpn2_lt (va : Nat) : vpn2 va < pteNumber := Nat.mod_lt _ (by decide)

section

variable (h : Cloned mem mem' sp sp' remap) (hok : SpaceOk mem shared sp) (hfresh : FreshPool shared sp pool)
include h hok hfresh

theorem Cloned.last_cases (hpool : ∀ a ∈ sp'.owned, a ∈ pool) {i j : Nat}
    (hi : i < pteNumber) (hj : j < pteNumber) :
    (∃ old new, (sp.view mem).lastTable i j = some (old, mem old) ∧ (old, new) ∈ remap ∧
      (sp'.view mem').lastTable i j = some (new, mem' new)) ∨
    ((sp.view mem).lastTable i j = none ∧ (sp'.view mem').lastTable i j = none) := by
  have hv' : (mem' sp'.root i).v = (mem sp.root i).v := by
    rw [h.root,remapTable_of_lt hi,remapEntry_v]
  by_cases hv : (mem sp.root i).v = true
  · rcases h.root_cases hok hfresh hpool hi hv with
      ⟨new,hin,hp,hnew,haddr,hvnew⟩ | ⟨_,hnot,hsame,hnot'⟩
    · have hf : (sp.view mem).follow ((sp.view mem).root i) =
          some (_, mem (mem sp.root i).addr) := view_follow.mpr ⟨hv,rfl,hin,rfl⟩
      have hf' : (sp'.view mem').follow ((sp'.view mem').root i) = some (new, mem' new) :=
        view_follow.mpr ⟨hvnew,haddr,hnew,rfl⟩
      have hvj' : (mem' new j).v = (mem (mem sp.root i).addr j).v := by
        rw [h.table _ hp,remapTable_of_lt hj,remapEntry_v]
      by_cases hvj : (mem (mem sp.root i).addr j).v = true
      · obtain ⟨new0,hp0,hnew0,haddr0⟩ := h.table_entry hok hfresh hpool hv hin hp hj hvj
        refine .inl ⟨_,new0,lastTable_eq_some.mpr ⟨_,_,hf,?_⟩,hp0,lastTable_eq_some.mpr ⟨_,_,hf',?_⟩⟩
        · exact view_follow.mpr ⟨hvj,rfl,hok.next hv hin hvj,rfl⟩
        · exact view_follow.mpr ⟨hvj'.trans hvj,haddr0,hnew0,rfl⟩
      · refine .inr ⟨?_,?_⟩
        · rw [lastTable,hf]
          exact view_follow_none fun hown => hvj hown.1
        · rw [lastTable,hf']
          exact view_follow_none fun hown => hvj (hvj'.symm.trans hown.1)
    · refine .inr ⟨view_lastTable_none fun hown => hnot hown.2,view_lastTable_none fun hown => ?_⟩
      rw [hsame] at hown
      exact hnot' hown.2
  · exact .inr ⟨view_lastTable_none fun hown => hv hown.1,
      view_lastTable_none fun hown => hv (hv'.symm.trans hown.1)⟩

/-- The own leaves of the copy are those of the source, up to the replaced addresses. -/
theorem Cloned.walk_eq (hpool : ∀ a ∈ sp'.owned, a ∈ pool) (va : Nat) :
    (sp'.view mem').walk va = ((sp.view mem).walk va).map (remapEntry remap) := by
  rw [walk,walk,entryAt,entryAt]
  rcases h.last_cases hok hfresh hpool (vpn2_lt va) (vpn1_lt va) with
    ⟨old,new,hold,hp,hnew⟩ | ⟨hold,hnew⟩
  · have hentry : mem' new (vpn0 va) = remapEntry remap (mem old (vpn0 va)) := by
      rw [h.table _ hp,remapTable_of_lt (vpn0_lt va)]
    simp only [hold,hnew,hentry,remapEntry_v]
    split <;> rfl
  · rw [hold,hnew]
    rfl

end

/-- A walk of the copy goes through the copies of the tables, or through the same tables of the
kernel. -/
theorem Cloned.walk_cases (h : Cloned mem mem' sp sp' remap)
    (hok : SpaceOk mem (mem kernel.root) sp) (hkernel : SpaceOk mem .empty kernel)
    (hfresh : FreshPool (mem kernel.root) sp pool) (hpool : ∀ a ∈ sp'.owned, a ∈ pool)
    (hapart : ∀ a ∈ pool, a ∉ kernel.owned) (va : Nat) :
    (∃ old new, (sp.view mem).lastTable (vpn2 va) (vpn1 va) = some (old, mem old) ∧
      (old, new) ∈ remap ∧ walkFrom mem va 2 sp.root = walkFrom mem va 0 old ∧
      walkFrom mem' va 2 sp'.root = walkFrom mem' va 0 new) ∨
    (sp.view mem).lastTable (vpn2 va) (vpn1 va) = none ∧
      walkFrom mem' va 2 sp'.root = walkFrom mem va 2 sp.root := by
  have hi := vpn2_lt va
  rw [hok.walk_root va,(h.ok hok hfresh hpool).walk_root va]
  have hv' : (mem' sp'.root (vpn2 va)).v = (mem sp.root (vpn2 va)).v := by
    rw [h.root,remapTable_of_lt hi,remapEntry_v]
  by_cases hv : (mem sp.root (vpn2 va)).v = true
  · rw [hv',if_pos hv,if_pos hv]
    rcases h.root_cases hok hfresh hpool hi hv with
      ⟨new,hin,hp,hnew,haddr,hvnew⟩ | ⟨heq,hnot,hsame,_⟩
    · have htable := (h.ok hok hfresh hpool).walk_table hvnew (by rw [haddr]; exact hnew) va
      rw [haddr] at htable ⊢
      rw [hok.walk_table hv hin va,htable]
      have hvj' : (mem' new (vpn1 va)).v = (mem (mem sp.root (vpn2 va)).addr (vpn1 va)).v := by
        rw [h.table _ hp,remapTable_of_lt (vpn1_lt va),remapEntry_v]
      by_cases hvj : (mem (mem sp.root (vpn2 va)).addr (vpn1 va)).v = true
      · obtain ⟨new0,hp0,_,haddr0⟩ := h.table_entry hok hfresh hpool hv hin hp (vpn1_lt va) hvj
        rw [hvj',if_pos hvj,if_pos hvj,haddr0]
        refine .inl ⟨_,new0,?_,hp0,rfl,rfl⟩
        exact lastTable_eq_some.mpr ⟨_,_,view_follow.mpr ⟨hv,rfl,hin,rfl⟩,
          view_follow.mpr ⟨hvj,rfl,hok.next hv hin hvj,rfl⟩⟩
      · rw [hvj',if_neg hvj,if_neg hvj]
        refine .inr ⟨?_,rfl⟩
        have hf : (sp.view mem).follow ((sp.view mem).root (vpn2 va)) =
            some (_, mem (mem sp.root (vpn2 va)).addr) := view_follow.mpr ⟨hv,rfl,hin,rfl⟩
        rw [lastTable,hf]
        exact view_follow_none fun hown => hvj hown.1
    · rw [heq] at hv
      rw [hsame,heq]
      have hagree : ∀ a ∈ kernel.owned, mem' a = mem a := fun a ha =>
        h.kept a fun hin => hapart a (hpool a hin) ha
      refine .inr ⟨?_,hkernel.walk_table_congr hagree hv (hkernel.kernel_root hv) va⟩
      exact view_lastTable_none fun hown => hnot hown.2
  · rw [hv',if_neg hv,if_neg hv]
    refine .inr ⟨?_,rfl⟩
    exact view_lastTable_none fun hown => hv hown.1

/-- A leaf of the space maps one of its own tables. -/
def MapsOwnTable (mem : TableMemory) (sp : Space) : Prop :=
  ∃ va e, (sp.view mem).walk va = some e ∧ e.faults = false ∧ e.isLeaf = true ∧
    e.addr ∈ sp.tables

theorem walkFrom_last (mem : TableMemory) (va table : Nat) : walkFrom mem va 0 table =
    if (mem table (vpn0 va)).faults = false ∧ (mem table (vpn0 va)).isLeaf = true then
      some (mem table (vpn0 va), 0) else none := by
  change (if (mem table (vpn0 va)).faults = true then _ else _) = _
  cases (mem table (vpn0 va)).faults <;> cases hl : (mem table (vpn0 va)).isLeaf <;>
    simp [vpnAt,hl]

theorem view_walk_of_last
    (hlast : (sp.view mem).lastTable (vpn2 va) (vpn1 va) = some (old, mem old)) :
    (sp.view mem).walk va =
      if (mem old (vpn0 va)).v = true then some (mem old (vpn0 va)) else none := by
  rw [walk,entryAt,hlast]

theorem valid_of_not_faults (h : e.faults = false) : e.v = true := by
  rw [PageTableEntry.faults,Bool.or_eq_false_iff] at h
  simpa using h.1

@[simp] theorem remapEntry_faults (e : PageTableEntry) :
    (remapEntry remap e).faults = e.faults := by
  simp [PageTableEntry.faults]

@[simp] theorem remapEntry_isLeaf (e : PageTableEntry) :
    (remapEntry remap e).isLeaf = e.isLeaf := by
  simp [PageTableEntry.isLeaf]

theorem translate_of_last {root : Nat} (h : walkFrom mem va 2 root = some (e, 0)) :
    translate mem root va = some (e.addr+va%pageSize, e.flags) := by
  have haligned : e.addr%leafSize 0 = 0 := Nat.mul_mod_left _ _
  rw [translate,h,Option.bind_some,if_pos haligned]
  rfl

/-- The copy translates like the source if and only if no leaf of the source maps one of its own
tables. -/
theorem Cloned.translate_iff (h : Cloned mem mem' sp sp' remap)
    (hok : SpaceOk mem (mem kernel.root) sp) (hkernel : SpaceOk mem .empty kernel)
    (hfresh : FreshPool (mem kernel.root) sp pool) (hpool : ∀ a ∈ sp'.owned, a ∈ pool)
    (hapart : ∀ a ∈ pool, a ∉ kernel.owned) :
    (∀ va, translate mem' sp'.root va = translate mem sp.root va) ↔ ¬ MapsOwnTable mem sp := by
  have hcases := h.walk_cases hok hkernel hfresh hpool hapart
  constructor
  · rintro hsame ⟨va,e,hwalk,hfaults,hleaf,hin⟩
    rcases hcases va with ⟨old,new,hlast,hp,hold,hnew⟩ | ⟨hnone,_⟩
    · have hvalid : (mem old (vpn0 va)).v = true ∧ mem old (vpn0 va) = e := by
        simpa [view_walk_of_last hlast] using hwalk
      obtain ⟨_,rfl⟩ := hvalid
      have hentry : mem' new (vpn0 va) = remapEntry remap (mem old (vpn0 va)) := by
        rw [h.table _ hp,remapTable_of_lt (vpn0_lt va)]
      rw [walkFrom_last,if_pos ⟨hfaults,hleaf⟩] at hold
      rw [walkFrom_last,hentry,remapEntry_faults,remapEntry_isLeaf,if_pos ⟨hfaults,hleaf⟩] at hnew
      have heq := hsame va
      rw [translate_of_last hold,translate_of_last hnew] at heq
      simp only [Option.some.injEq,Prod.mk.injEq,Nat.add_right_cancel_iff] at heq
      -- the copy maps the copied table, which lies in another page
      obtain ⟨page,hlook,_,hpage⟩ := h.exists_new hok hin
      have hfrom := hpool page (mem_cons_of_mem _ hpage)
      rw [remapEntry_addr hlook (hfresh.whole page hfrom)] at heq
      exact hfresh.apart page hfrom (heq.1 ▸ mem_cons_of_mem _ hin)
    · rw [walk,entryAt,hnone] at hwalk
      exact absurd hwalk (by simp)
  · intro hnot va
    rw [translate,translate]
    rcases hcases va with ⟨old,new,hlast,hp,hold,hnew⟩ | ⟨_,heq⟩
    · have hentry : mem' new (vpn0 va) = remapEntry remap (mem old (vpn0 va)) := by
        rw [h.table _ hp,remapTable_of_lt (vpn0_lt va)]
      have hsame : walkFrom mem' va 0 new = walkFrom mem va 0 old := by
        rw [walkFrom_last,walkFrom_last,hentry,remapEntry_faults,remapEntry_isLeaf]
        split
        next hend =>
          have hvalid := valid_of_not_faults hend.1
          have hout : (mem old (vpn0 va)).addr ∉ sp.tables := fun hin =>
            hnot ⟨va,_,by rw [view_walk_of_last hlast,if_pos hvalid],hend.1,hend.2,hin⟩
          rw [remapEntry_of_none (lookup_eq_none_iff_keys.mpr (h.keys ▸ hout))]
        next => rfl
      rw [hold,hnew,hsame]
    · rw [heq]

end Athera
