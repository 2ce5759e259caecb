import Athera.Mm.Spaces

/-!
# Who owns which table

An address space whose root leads to its own tables or goes on where a shared root goes on.
-/

namespace Athera

open Framework Action AddressSpace List Function SpaceState PageTableEntry

structure SpaceOk (mem : TableMemory) (shared : PageTable) (sp : Space) : Prop where
  nodup : sp.owned.Nodup
  tree : ∃ place, (sp.view mem).Tree place
  root : ∀ i, (mem sp.root i).v = true →
    (mem sp.root i).addr ∈ sp.tables ∨ mem sp.root i = shared i
  plainRoot : ∀ i, (mem sp.root i).flags = .new
  plainTable : ∀ i, (mem sp.root i).v = true → (mem sp.root i).addr ∈ sp.tables →
    ∀ j, (mem (mem sp.root i).addr j).flags = .new

/-- Pages that are in use neither by the space nor behind the shared root. -/
structure FreshPool (shared : PageTable) (sp : Space) (pool : List Nat) : Prop where
  nodup : pool.Nodup
  apart : ∀ a ∈ pool, a ∉ sp.owned
  unshared : ∀ a ∈ pool, ∀ i, (shared i).v = true → (shared i).addr ≠ a
  whole : ∀ a ∈ pool, ppn a * pageSize = a

/-- The space has taken tables from the pool and written only its own. -/
structure Grown (s s' : SpaceState) : Prop where
  root : s'.space.root = s.space.root
  tables : ∃ used, s.pool = used ++ s'.pool ∧
    ∀ a, a ∈ s'.space.tables ↔ a ∈ s.space.tables ∨ a ∈ used
  mem : ∀ a, a ∉ s'.space.owned → s'.mem a = s.mem a
  rootKept : ∀ i, (s.mem s.space.root i).v = true →
    s'.mem s.space.root i = s.mem s.space.root i

/-- The leaves below the own tables are the same. -/
def EntriesKept (s s' : SpaceState) : Prop := ∀ i j k,
  (s'.space.view s'.mem).entryAt i j k = (s.space.view s.mem).entryAt i j k

structure SpaceInv (shared : PageTable) (s : SpaceState) : Prop where
  ok : SpaceOk s.mem shared s.space
  fresh : FreshPool shared s.space s.pool

variable {mem : TableMemory} {shared : PageTable} {sp : Space} {s s' s'' : SpaceState}

variable {a : Nat}

theorem view_tables_eq_some {t : PageTable} :
    (sp.view mem).tables a = some t ↔ a ∈ sp.tables ∧ t = mem a := by
  by_cases ha : a ∈ sp.tables <;> simp [Space.view,eq_comm]

theorem view_follow {e : PageTableEntry} {t : PageTable} :
    (sp.view mem).follow e = some (a, t) ↔ e.v = true ∧ e.addr = a ∧ a ∈ sp.tables ∧ t = mem a := by
  rw [follow_eq_some,view_tables_eq_some]

theorem SpaceOk.of_empty {root : Nat} (h : mem root = .empty) : SpaceOk mem shared ⟨root,[]⟩ := by
  have hinvalid : ∀ i, ¬ (mem root i).v = true := by
    rw [h]
    simp [PageTable.empty,PageTableEntry.new]
  refine ⟨by simp [Space.owned],⟨fun _ => .level1 0,?_,?_⟩,?_,?_,?_⟩
  · intro i a t hf
    exact absurd (view_follow.mp hf).1 (hinvalid i)
  · intro i a t hf
    exact absurd (view_follow.mp hf).1 (hinvalid i)
  · exact fun i hv => absurd hv (hinvalid i)
  · intro i
    rw [h]
    rfl
  · exact fun i hv => absurd hv (hinvalid i)

section

variable (h : SpaceOk mem shared sp)
include h

theorem SpaceOk.next {i j : Nat} (hv : (mem sp.root i).v = true)
    (hin : (mem sp.root i).addr ∈ sp.tables) (hj : (mem (mem sp.root i).addr j).v = true) :
    (mem (mem sp.root i).addr j).addr ∈ sp.tables := by
  obtain ⟨place,htree⟩ := h.tree
  have hf : (sp.view mem).follow ((sp.view mem).root i) =
      some ((mem sp.root i).addr, mem (mem sp.root i).addr) := view_follow.mpr ⟨hv,rfl,hin,rfl⟩
  have hsome := (htree.level0 i _ _ hf j hj).1
  obtain ⟨t,ht⟩ := Option.isSome_iff_exists.mp hsome
  exact (view_tables_eq_some.mp ht).1

theorem SpaceOk.root_not_mem : sp.root ∉ sp.tables :=
  (nodup_cons.mp h.nodup).1

theorem SpaceOk.congr {mem' : TableMemory}
    (hmem : ∀ a ∈ sp.owned, mem' a = mem a) : SpaceOk mem' shared sp := by
  have hroot : mem' sp.root = mem sp.root := hmem _ mem_cons_self
  have htable : ∀ a ∈ sp.tables, mem' a = mem a := fun a ha => hmem a (mem_cons_of_mem _ ha)
  have hview : sp.view mem' = sp.view mem := by
    simp only [Space.view,hroot,AddressSpace.mk.injEq,true_and]
    funext a
    by_cases ha : a ∈ sp.tables
    · simp only [ha,htable a ha]
    · simp only [ha,if_false]
  refine ⟨h.nodup,hview ▸ h.tree,?_,?_,?_⟩
  · rw [hroot]
    exact h.root
  · rw [hroot]
    exact h.plainRoot
  · intro i hv hin j
    rw [hroot] at hv hin ⊢
    rw [htable _ hin]
    exact h.plainTable i hv hin j

theorem SpaceOk.mono {shared' : PageTable}
    (hkeep : ∀ i, (shared i).v = true → shared' i = shared i) : SpaceOk mem shared' sp := by
  refine ⟨h.nodup,h.tree,?_,h.plainRoot,h.plainTable⟩
  intro i hv
  rcases h.root i hv with hin | heq
  · exact .inl hin
  · rw [heq] at hv
    exact .inr (heq.trans (hkeep i hv).symm)

end

theorem Grown.refl (s : SpaceState) : Grown s s :=
  ⟨rfl,⟨[],by simp⟩,fun _ _ => rfl,fun _ _ => rfl⟩

theorem Grown.owned (h : Grown s s') (ha : a ∈ s.space.owned) : a ∈ s'.space.owned := by
  obtain ⟨used,_,htables⟩ := h.tables
  rcases mem_cons.mp ha with rfl | hin
  · rw [Space.owned,h.root]
    exact mem_cons_self
  · exact mem_cons_of_mem _ ((htables a).mpr (.inl hin))

theorem Grown.trans (h : Grown s s') (h' : Grown s' s'') : Grown s s'' := by
  obtain ⟨used,hpool,htables⟩ := h.tables
  obtain ⟨used',hpool',htables'⟩ := h'.tables
  refine ⟨h'.root.trans h.root,⟨used++used',?_,?_⟩,?_,?_⟩
  · rw [hpool,hpool',append_assoc]
  · intro a
    rw [htables',htables,mem_append,or_assoc]
  · intro a ha
    rw [h'.mem a ha]
    exact h.mem a fun hin => ha (h'.owned hin)
  · intro i hv
    have hfirst := h.rootKept i hv
    have hnext := h'.rootKept i (by rw [h.root,hfirst]; exact hv)
    rw [h.root] at hnext
    exact hnext.trans hfirst

theorem SpaceInv.unlinked (h : SpaceInv shared s) {addr : Nat} (haddr : addr ∈ s.pool) :
    Unlinked (s.space.view s.mem) addr := by
  have hnot := h.fresh.apart addr haddr
  have htables : addr ∉ s.space.tables := fun hin => hnot (mem_cons_of_mem _ hin)
  refine ⟨if_neg htables,?_,h.fresh.whole addr haddr⟩
  intro i hv he
  change (s.mem s.space.root i).v = true at hv
  change (s.mem s.space.root i).addr = addr at he
  rcases h.ok.root i hv with hin | heq
  · exact htables (he ▸ hin)
  · rw [heq] at hv he
    exact h.fresh.unshared addr haddr i hv he

section

variable {addr table i j : Nat} {rest : List Nat}

/-- The space after it has taken the page `addr` for an entry of one of its tables. -/
def SpaceState.take (s : SpaceState) (addr : Nat) (rest : List Nat) (table i : Nat) : SpaceState :=
  ({ s with mem := Function.update s.mem addr .empty, pool := rest }).link table i addr

theorem take_mem (hne : table ≠ addr) : (s.take addr rest table i).mem =
    Function.update (Function.update s.mem addr .empty) table
      (Function.update (s.mem table) i { s.mem table i with v := true, ppn := ppn addr }) := by
  simp only [SpaceState.take,SpaceState.link,SpaceState.writeEntry,update_of_ne hne]

theorem mem_take_tables :
    a ∈ (s.take addr rest table i).space.tables ↔ a ∈ s.space.tables ∨ a ∈ [addr] := by
  change a ∈ s.space.tables.orderedInsert (· ≤ ·) addr ↔ _
  rw [mem_orderedInsert,mem_singleton,or_comm]

section

variable (h : SpaceInv shared s) (hpool : s.pool = addr :: rest)
include h hpool

theorem SpaceInv.pool_facts : addr ≠ s.space.root ∧ addr ∉ s.space.tables ∧ addr ∉ rest := by
  have hnot := h.fresh.apart addr (by simp [hpool])
  have hnd := h.fresh.nodup
  rw [hpool] at hnd
  exact ⟨fun he => hnot (he ▸ mem_cons_self),fun hin => hnot (mem_cons_of_mem _ hin),
    (nodup_cons.mp hnd).1⟩

theorem SpaceInv.take_nodup : (s.take addr rest table i).space.owned.Nodup := by
  obtain ⟨hroot,htables,_⟩ := h.pool_facts hpool
  have hnd := nodup_cons.mp h.ok.nodup
  have hperm : (s.space.tables.orderedInsert (· ≤ ·) addr).Perm (addr::s.space.tables) :=
    perm_orderedInsert _ _ _
  change (s.space.root::s.space.tables.orderedInsert (· ≤ ·) addr).Nodup
  rw [nodup_cons,hperm.mem_iff,hperm.nodup_iff,nodup_cons,mem_cons]
  refine ⟨?_,htables,hnd.2⟩
  rintro (he | hin)
  · exact hroot he.symm
  · exact hnd.1 hin

theorem SpaceInv.take_fresh : FreshPool shared (s.take addr rest table i).space rest := by
  obtain ⟨_,_,hrest⟩ := h.pool_facts hpool
  obtain ⟨hnd,hapart,hshared,hwhole⟩ := h.fresh
  rw [hpool] at hnd hapart hshared hwhole
  refine ⟨(nodup_cons.mp hnd).2,?_,?_,?_⟩
  · intro a ha hin
    have hold := hapart a (mem_cons_of_mem _ ha)
    rcases mem_cons.mp hin with he | hin
    · exact hold (he ▸ mem_cons_self)
    · rw [mem_take_tables,mem_singleton] at hin
      rcases hin with hin | rfl
      · exact hold (mem_cons_of_mem _ hin)
      · exact hrest ha
  · exact fun a ha => hshared a (mem_cons_of_mem _ ha)
  · exact fun a ha => hwhole a (mem_cons_of_mem _ ha)

theorem SpaceInv.take_grown (hown : table ∈ s.space.owned)
    (hkept : table = s.space.root → (s.mem table i).v = false) :
    Grown s (s.take addr rest table i) := by
  obtain ⟨hroot,htables,_⟩ := h.pool_facts hpool
  have hne : table ≠ addr := by
    rintro rfl
    exact h.fresh.apart table (by simp [hpool]) hown
  refine ⟨rfl,⟨[addr],hpool,fun _ => mem_take_tables⟩,?_,?_⟩
  · intro a ha
    have hold : a ∉ s.space.owned := fun hin =>
      ha ((mem_cons.mp hin).elim (fun he => he ▸ mem_cons_self)
        fun hin => mem_cons_of_mem _ (mem_take_tables.mpr (.inl hin)))
    have hat : a ≠ table := fun he => hold (he ▸ hown)
    have haa : a ≠ addr := fun he =>
      ha (mem_cons_of_mem _ (mem_take_tables.mpr (.inr (by simp [he]))))
    rw [take_mem hne,update_of_ne hat,update_of_ne haa]
  · intro i' hv
    rw [take_mem hne]
    by_cases ht : s.space.root = table
    · subst ht
      have hi : i' ≠ i := by
        rintro rfl
        rw [hkept rfl] at hv
        exact absurd hv (by simp)
      rw [update_self,update_of_ne hi]
    · rw [update_of_ne ht,update_of_ne (Ne.symm hroot)]

theorem SpaceInv.view_take_root :
    (s.take addr rest s.space.root i).space.view (s.take addr rest s.space.root i).mem =
      (s.space.view s.mem).linkRoot i addr := by
  obtain ⟨hroot,htables,_⟩ := h.pool_facts hpool
  rw [take_mem hroot.symm]
  simp only [Space.view,linkRoot,AddressSpace.mk.injEq]
  refine ⟨update_self _ _ _,?_⟩
  funext a
  by_cases ha : a = addr
  · subst a
    rw [if_pos (mem_take_tables.mpr (.inr (by simp))),update_of_ne hroot,update_self,update_self]
  · rw [update_of_ne ha]
    by_cases hin : a ∈ s.space.tables
    · have har : a ≠ s.space.root := fun he => h.ok.root_not_mem (he ▸ hin)
      rw [if_pos (mem_take_tables.mpr (.inl hin)),if_pos hin,update_of_ne har,update_of_ne ha]
    · rw [if_neg hin,if_neg]
      rw [mem_take_tables]
      simp [hin,ha]

theorem SpaceInv.view_take_table (hin : table ∈ s.space.tables) :
    (s.take addr rest table j).space.view (s.take addr rest table j).mem =
      (s.space.view s.mem).linkTable table (s.mem table) j addr := by
  obtain ⟨hroot,htables,_⟩ := h.pool_facts hpool
  have hne : table ≠ addr := fun he => htables (he ▸ hin)
  have hrt : s.space.root ≠ table := fun he => h.ok.root_not_mem (he ▸ hin)
  rw [take_mem hne]
  simp only [Space.view,linkTable,AddressSpace.mk.injEq]
  refine ⟨?_,?_⟩
  · change Function.update (Function.update s.mem addr PageTable.empty) table _ s.space.root = _
    rw [update_of_ne hrt,update_of_ne hroot.symm]
  · funext a
    by_cases ha : a = addr
    · subst a
      rw [if_pos (mem_take_tables.mpr (.inr (by simp))),update_of_ne hne.symm,
        update_self,update_self]
    · rw [update_of_ne ha]
      by_cases hat : a = table
      · subst a
        rw [if_pos (mem_take_tables.mpr (.inl hin)),update_self,update_self]
      · rw [update_of_ne hat,update_of_ne hat,update_of_ne ha]
        have hiff : a ∈ (s.take addr rest table j).space.tables ↔ a ∈ s.space.tables := by
          rw [mem_take_tables]
          simp [ha]
        simp only [hiff]

theorem SpaceInv.take_root : SpaceInv shared (s.take addr rest s.space.root i) := by
  obtain ⟨hroot,htables,_⟩ := h.pool_facts hpool
  have hu : Unlinked (s.space.view s.mem) addr := h.unlinked (by simp [hpool])
  have hsame : (s.take addr rest s.space.root i).mem s.space.root =
      Function.update (s.mem s.space.root) i
        { s.mem s.space.root i with v := true, ppn := ppn addr } := by
    rw [take_mem hroot.symm,update_self]
  have hnew : (s.take addr rest s.space.root i).mem addr = .empty := by
    rw [take_mem hroot.symm,update_of_ne hroot,update_self]
  refine ⟨⟨h.take_nodup hpool,?_,?_,?_,?_⟩,h.take_fresh hpool⟩
  · obtain ⟨place,htree⟩ := h.ok.tree
    rw [h.view_take_root hpool]
    exact ⟨_,tree_linkRoot htree hu⟩
  · intro i' hv'
    change ((s.take addr rest s.space.root i).mem s.space.root i').v = true at hv'
    change ((s.take addr rest s.space.root i).mem s.space.root i').addr ∈ _ ∨
      (s.take addr rest s.space.root i).mem s.space.root i' = _
    rw [hsame] at hv' ⊢
    by_cases hi : i' = i
    · subst i'
      rw [update_self]
      rw [mem_take_tables,PageTableEntry.addr,hu.whole]
      simp
    · rw [update_of_ne hi] at hv' ⊢
      rw [mem_take_tables]
      exact (h.ok.root i' hv').imp Or.inl id
  · intro i'
    change ((s.take addr rest s.space.root i).mem s.space.root i').flags = _
    rw [hsame]
    by_cases hi : i' = i
    · subst i'
      rw [update_self]
      exact h.ok.plainRoot i
    · rw [update_of_ne hi]
      exact h.ok.plainRoot i'
  · intro i' hv' hin j
    change ((s.take addr rest s.space.root i).mem s.space.root i').v = true at hv'
    change ((s.take addr rest s.space.root i).mem s.space.root i').addr ∈ _ at hin
    change ((s.take addr rest s.space.root i).mem
      ((s.take addr rest s.space.root i).mem s.space.root i').addr j).flags = _
    rw [hsame] at hv' hin ⊢
    by_cases hi : i' = i
    · subst i'
      rw [update_self,PageTableEntry.addr,hu.whole,hnew]
      rfl
    · rw [update_of_ne hi] at hv' hin ⊢
      have hne : (s.mem s.space.root i').addr ≠ addr := hu.root i' hv'
      rw [mem_take_tables,mem_singleton] at hin
      have hold := hin.resolve_right hne
      have hnr : (s.mem s.space.root i').addr ≠ s.space.root := fun he =>
        h.ok.root_not_mem (he ▸ hold)
      rw [take_mem hroot.symm,update_of_ne hnr,update_of_ne hne]
      exact h.ok.plainTable i' hv' hold j

theorem SpaceInv.take_table (hv : (s.mem s.space.root i).v = true)
    (hin : (s.mem s.space.root i).addr ∈ s.space.tables) :
    SpaceInv shared (s.take addr rest (s.mem s.space.root i).addr j) := by
  obtain ⟨hroot,htables,_⟩ := h.pool_facts hpool
  have hu : Unlinked (s.space.view s.mem) addr := h.unlinked (by simp [hpool])
  obtain ⟨table,htable⟩ : ∃ table, table = (s.mem s.space.root i).addr := ⟨_,rfl⟩
  rw [← htable] at hin ⊢
  have hne : table ≠ addr := fun he => htables (he ▸ hin)
  have hrt : s.space.root ≠ table := fun he => h.ok.root_not_mem (he ▸ hin)
  have hsame : (s.take addr rest table j).mem s.space.root = s.mem s.space.root := by
    rw [take_mem hne,update_of_ne hrt,update_of_ne hroot.symm]
  have hspace : (s.take addr rest table j).space.root = s.space.root := rfl
  refine ⟨⟨h.take_nodup hpool,?_,?_,?_,?_⟩,h.take_fresh hpool⟩
  · obtain ⟨place,htree⟩ := h.ok.tree
    rw [h.view_take_table hpool hin]
    exact ⟨_,tree_linkTable htree hu (view_follow.mpr ⟨hv,htable.symm,hin,rfl⟩)⟩
  · intro i' hv'
    rw [hspace,hsame] at hv' ⊢
    rw [mem_take_tables]
    exact (h.ok.root i' hv').imp Or.inl id
  · intro i'
    rw [hspace,hsame]
    exact h.ok.plainRoot i'
  · intro i' hv' hin' j'
    rw [hspace,hsame] at hv' hin' ⊢
    have hne' : (s.mem s.space.root i').addr ≠ addr := hu.root i' hv'
    rw [mem_take_tables,mem_singleton] at hin'
    have hold := hin'.resolve_right hne'
    have hplain := h.ok.plainTable i' hv' hold
    rw [take_mem hne]
    by_cases ht : (s.mem s.space.root i').addr = table
    · rw [ht] at hplain ⊢
      rw [update_self]
      by_cases hj : j' = j
      · subst j'
        rw [update_self]
        exact hplain j
      · rw [update_of_ne hj]
        exact hplain j'
    · rw [update_of_ne ht,update_of_ne hne']
      exact hplain j'

end

end

section

variable {i j k : Nat}

theorem ensure_root_spec (h : SpaceInv shared s) (i : Nat) : wp (ensure s.space.root i)
      (fun a s' => SpaceInv shared s' ∧ Grown s s' ∧ EntriesKept s s' ∧
        (s'.mem s'.space.root i).v = true ∧ (s'.mem s'.space.root i).addr = a)
      (fun _ s' => s' = s) s := by
  by_cases hv : (s.mem s.space.root i).v = true
  · have hok : ensure s.space.root i s = .ok (s.mem s.space.root i).addr s := by
      rw [ensure,if_pos hv]
    rw [wp,hok]
    exact ⟨h,Grown.refl s,fun _ _ _ => rfl,hv,rfl⟩
  · cases hpool : s.pool with
    | nil =>
      have herr : ensure s.space.root i s = .err .outOfMemory s := by
        rw [ensure,if_neg hv,create,hpool]
      rw [wp,herr]
    | cons addr rest =>
      have hnot : (s.mem s.space.root i).v = false := by simpa using hv
      have hok : ensure s.space.root i s =
          .ok ((s.take addr rest s.space.root i).mem s.space.root i).addr
            (s.take addr rest s.space.root i) := by
        rw [ensure,if_neg hv,create,hpool]
        rfl
      obtain ⟨hroot,_,_⟩ := h.pool_facts hpool
      obtain ⟨place,htree⟩ := h.ok.tree
      rw [wp,hok]
      refine ⟨h.take_root hpool,h.take_grown hpool mem_cons_self fun _ => hnot,?_,?_,rfl⟩
      · intro i' j' k'
        rw [h.view_take_root hpool]
        exact entryAt_linkRoot htree (h.unlinked (by simp [hpool])) hnot i' j' k'
      · change ((s.take addr rest s.space.root i).mem s.space.root i).v = true
        rw [take_mem hroot.symm,update_self,update_self]

theorem ensure_table_spec (h : SpaceInv shared s) (hv : (s.mem s.space.root i).v = true)
    (hin : (s.mem s.space.root i).addr ∈ s.space.tables) (j : Nat) :
    wp (ensure (s.mem s.space.root i).addr j)
      (fun a s' => SpaceInv shared s' ∧ Grown s s' ∧ EntriesKept s s' ∧
        (s'.mem (s'.mem s'.space.root i).addr j).v = true ∧
        (s'.mem (s'.mem s'.space.root i).addr j).addr = a)
      (fun _ s' => s' = s) s := by
  by_cases hvj : (s.mem (s.mem s.space.root i).addr j).v = true
  · have hok : ensure (s.mem s.space.root i).addr j s =
        .ok (s.mem (s.mem s.space.root i).addr j).addr s := by
      rw [ensure,if_pos hvj]
    rw [wp,hok]
    exact ⟨h,Grown.refl s,fun _ _ _ => rfl,hvj,rfl⟩
  · cases hpool : s.pool with
    | nil =>
      have herr : ensure (s.mem s.space.root i).addr j s = .err .outOfMemory s := by
        rw [ensure,if_neg hvj,create,hpool]
      rw [wp,herr]
    | cons addr rest =>
      have hok : ensure (s.mem s.space.root i).addr j s =
          .ok ((s.take addr rest (s.mem s.space.root i).addr j).mem (s.mem s.space.root i).addr j).addr
            (s.take addr rest (s.mem s.space.root i).addr j) := by
        rw [ensure,if_neg hvj,create,hpool]
        rfl
      obtain ⟨_,htables,_⟩ := h.pool_facts hpool
      have hne : (s.mem s.space.root i).addr ≠ addr := fun he => htables (he ▸ hin)
      have hrt : (s.mem s.space.root i).addr = s.space.root → False := fun he =>
        h.ok.root_not_mem (he ▸ hin)
      have hgrown := h.take_grown (i := j) hpool (mem_cons_of_mem _ hin) fun he => (hrt he).elim
      have hsame := hgrown.rootKept i hv
      have hnot : (s.mem (s.mem s.space.root i).addr j).v = false := by simpa using hvj
      obtain ⟨place,htree⟩ := h.ok.tree
      rw [wp,hok]
      refine ⟨h.take_table hpool hv hin,hgrown,?_,?_,?_⟩
      · intro i' j' k'
        rw [h.view_take_table hpool hin]
        exact entryAt_linkTable htree (h.unlinked (by simp [hpool]))
          (view_follow.mpr ⟨hv,rfl,hin,rfl⟩) hnot i' j' k'
      · rw [hgrown.root,hsame,take_mem hne,update_self,update_self]
      · rw [hgrown.root,hsame]

theorem wp_ownTable {Q : Unit → SpaceState → Prop} {E : MemError → SpaceState → Prop} :
    wp (ownTable a) Q E s ↔
      (a ∈ s.space.tables → Q () s) ∧ (a ∉ s.space.tables → E .pageTableMissing s) := by
  unfold wp ownTable
  by_cases h : a ∈ s.space.tables <;> simp [h]

theorem SpaceInv.writeEntry (h : SpaceInv shared s) {e : PageTableEntry}
    (hv : (s.mem s.space.root i).v = true) (hin : (s.mem s.space.root i).addr ∈ s.space.tables)
    (hvj : (s.mem (s.mem s.space.root i).addr j).v = true) :
    SpaceInv shared (s.writeEntry (s.mem (s.mem s.space.root i).addr j).addr k e) ∧
      Grown s (s.writeEntry (s.mem (s.mem s.space.root i).addr j).addr k e) ∧
      ∀ i' j' k', (s.space.view
          (s.writeEntry (s.mem (s.mem s.space.root i).addr j).addr k e).mem).entryAt i' j' k' =
        if i' = i ∧ j' = j ∧ k' = k then (if e.v then some e else none)
        else (s.space.view s.mem).entryAt i' j' k' := by
  have hlast := h.ok.next hv hin hvj
  obtain ⟨table,htable⟩ : ∃ t, t = (s.mem (s.mem s.space.root i).addr j).addr := ⟨_,rfl⟩
  rw [← htable] at hlast ⊢
  have hroot : s.space.root ≠ table := fun he => h.ok.root_not_mem (he ▸ hlast)
  have hsame : (s.writeEntry table k e).mem s.space.root = s.mem s.space.root :=
    update_of_ne hroot _ _
  have hspace : (s.writeEntry table k e).space = s.space := rfl
  obtain ⟨place,htree⟩ := h.ok.tree
  have hl : (s.space.view s.mem).lastTable i j = some (table, s.mem table) :=
    lastTable_eq_some.mpr ⟨_,_,view_follow.mpr ⟨hv,rfl,hin,rfl⟩,
      view_follow.mpr ⟨hvj,htable.symm,hlast,rfl⟩⟩
  have hview : s.space.view (s.writeEntry table k e).mem =
      (s.space.view s.mem).setEntry table (s.mem table) k e := by
    simp only [Space.view,setEntry,AddressSpace.mk.injEq]
    refine ⟨hsame,?_⟩
    funext a
    by_cases ha : a = table
    · subst a
      rw [if_pos hlast]
      simp only [SpaceState.writeEntry,update_self]
    · simp only [SpaceState.writeEntry,update_of_ne ha]
  refine ⟨⟨⟨h.ok.nodup,⟨place,?_⟩,?_,?_,?_⟩,h.fresh⟩,
    ⟨rfl,⟨[],by simp [SpaceState.writeEntry]⟩,?_,?_⟩,?_⟩
  · rw [hspace,hview]
    exact tree_setEntry htree hl
  · rw [hspace,hsame]
    exact h.ok.root
  · rw [hspace,hsame]
    exact h.ok.plainRoot
  · intro i' hv' hin' j'
    rw [hspace,hsame] at hv' hin' ⊢
    -- a table below the root is not one of the last level
    have hne : (s.mem s.space.root i').addr ≠ table := by
      intro he
      have hp := htree.level1 i' _ _ (view_follow.mpr ⟨hv',he,hlast,rfl⟩)
      rw [htree.place_last hl] at hp
      exact absurd hp (by simp)
    simp only [SpaceState.writeEntry,update_of_ne hne]
    exact h.ok.plainTable i' hv' hin' j'
  · intro a ha
    have hne : a ≠ table := by
      rintro rfl
      exact ha (mem_cons_of_mem _ hlast)
    exact update_of_ne hne _ _
  · intro i' _
    rw [hsame]
  · intro i' j' k'
    rw [hview]
    exact entryAt_setEntry htree hl i' j' k'

theorem EntriesKept.refl (s : SpaceState) : EntriesKept s s := fun _ _ _ => rfl

theorem EntriesKept.trans (h : EntriesKept s s') (h' : EntriesKept s' s'') : EntriesKept s s'' :=
  fun i j k => (h' i j k).trans (h i j k)

theorem space_map_spec (h : SpaceInv shared s) (va pa : Nat) (flags : PageFlags) :
    wp (map va pa flags)
      (fun _ s' => SpaceInv shared s' ∧ Grown s s' ∧ ∀ i j k, (s'.space.view s'.mem).entryAt i j k =
          if i = vpn2 va ∧ j = vpn1 va ∧ k = vpn0 va then some ⟨true,flags,ppn pa⟩
          else (s.space.view s.mem).entryAt i j k)
      (fun _ s' => SpaceInv shared s' ∧ Grown s s' ∧ EntriesKept s s') s := by
  unfold SpaceState.map
  simp only [wp_bind,wp_ownTable]
  apply wp_mono (ensure_root_spec h (vpn2 va))
  · rintro a s1 ⟨h1,hgrown1,hkept1,hv,rfl⟩
    refine ⟨fun hin => ?_,fun _ => ⟨h1,hgrown1,hkept1⟩⟩
    apply wp_mono (ensure_table_spec h1 hv hin (vpn1 va))
    · rintro a s2 ⟨h2,hgrown2,hkept2,hvj,rfl⟩
      have hkept : s2.mem s2.space.root (vpn2 va) = s1.mem s1.space.root (vpn2 va) := by
        rw [hgrown2.root]
        exact hgrown2.rootKept _ hv
      have hv2 : (s2.mem s2.space.root (vpn2 va)).v = true := by rw [hkept,hv]
      have hin2 : (s2.mem s2.space.root (vpn2 va)).addr ∈ s2.space.tables := by
        obtain ⟨used,_,htables⟩ := hgrown2.tables
        rw [hkept,htables]
        exact .inl hin
      have hgrown := hgrown1.trans hgrown2
      refine ⟨fun _ => ?_,fun _ => ⟨h2,hgrown,hkept1.trans hkept2⟩⟩
      obtain ⟨h3,hgrown3,hentries⟩ :=
        h2.writeEntry hv2 hin2 hvj
      refine ⟨h3,hgrown.trans hgrown3,?_⟩
      intro i j k
      exact (hentries i j k).trans (by rw [hkept2,hkept1]; rfl)
    · rintro e s2 rfl
      exact ⟨h1,hgrown1,hkept1⟩
  · rintro e s1 rfl
    exact ⟨h,Grown.refl s1,EntriesKept.refl s1⟩

theorem entryAt_eq_none (h : (sp.view mem).lastTable i j = none) :
    (sp.view mem).entryAt i j k = none := by
  rw [entryAt,h]

theorem space_unmap_spec (h : SpaceInv shared s) (va : Nat) :
    SpaceInv shared (s.unmap va) ∧ Grown s (s.unmap va) ∧ ∀ i j k,
      ((s.unmap va).space.view (s.unmap va).mem).entryAt i j k =
        if i = vpn2 va ∧ j = vpn1 va ∧ k = vpn0 va then none
        else (s.space.view s.mem).entryAt i j k := by
  -- where nothing is written there was no entry
  have hnothing : (s.space.view s.mem).lastTable (vpn2 va) (vpn1 va) = none → ∀ i j k,
      (s.space.view s.mem).entryAt i j k = if i = vpn2 va ∧ j = vpn1 va ∧ k = vpn0 va then none
        else (s.space.view s.mem).entryAt i j k := by
    intro hlast i j k
    split
    next hijk => rw [hijk.1,hijk.2.1,entryAt_eq_none hlast]
    next => rfl
  unfold SpaceState.unmap
  dsimp only
  split
  next hroot =>
    split
    next htable =>
      obtain ⟨hinv,hgrown,hentries⟩ := h.writeEntry hroot.1 hroot.2 htable.1
      exact ⟨hinv,hgrown,hentries⟩
    next htable =>
      refine ⟨h,Grown.refl s,hnothing ?_⟩
      rw [Option.eq_none_iff_forall_ne_some]
      rintro ⟨a,t⟩ hl
      obtain ⟨a1,t1,h1,h0⟩ := lastTable_eq_some.mp hl
      obtain ⟨_,rfl,_,rfl⟩ := view_follow.mp h1
      obtain ⟨hv,rfl,hin,_⟩ := view_follow.mp h0
      exact htable ⟨hv,hin⟩
  next hroot =>
    refine ⟨h,Grown.refl s,hnothing ?_⟩
    rw [Option.eq_none_iff_forall_ne_some]
    rintro ⟨a,t⟩ hl
    obtain ⟨a1,t1,h1,_⟩ := lastTable_eq_some.mp hl
    obtain ⟨hv,rfl,hin,_⟩ := view_follow.mp h1
    exact hroot ⟨hv,hin⟩

end

variable {mem' : TableMemory} {kernel : Space} {i va : Nat}

theorem walkFrom_plain {table level : Nat}
    (hplain : (mem table (vpnAt va (level+1))).flags = .new) :
    walkFrom mem va (level+1) table = if (mem table (vpnAt va (level+1))).v = true then
      walkFrom mem va level (mem table (vpnAt va (level+1))).addr else none := by
  rw [walkFrom]
  cases hv : (mem table (vpnAt va (level+1))).v <;>
    simp [faults,isLeaf,hplain,PageFlags.new,hv]

theorem SpaceOk.walk_root (h : SpaceOk mem shared sp) (va : Nat) :
    walkFrom mem va 2 sp.root = if (mem sp.root (vpn2 va)).v = true then
      walkFrom mem va 1 (mem sp.root (vpn2 va)).addr else none :=
  walkFrom_plain (h.plainRoot (vpn2 va))

theorem SpaceOk.walk_table (h : SpaceOk mem shared sp) (hv : (mem sp.root i).v = true)
    (hin : (mem sp.root i).addr ∈ sp.tables) (va : Nat) : walkFrom mem va 1 (mem sp.root i).addr =
      if (mem (mem sp.root i).addr (vpn1 va)).v = true then
        walkFrom mem va 0 (mem (mem sp.root i).addr (vpn1 va)).addr else none :=
  walkFrom_plain (h.plainTable i hv hin (vpn1 va))

theorem walkFrom_last_congr {table : Nat} (h : mem' table = mem table) (va : Nat) :
    walkFrom mem' va 0 table = walkFrom mem va 0 table := by
  rw [walkFrom,walkFrom,h]

theorem SpaceOk.walk_table_congr (h : SpaceOk mem shared sp)
    (hmem : ∀ a ∈ sp.owned, mem' a = mem a) (hv : (mem sp.root i).v = true)
    (hin : (mem sp.root i).addr ∈ sp.tables) (va : Nat) :
    walkFrom mem' va 1 (mem sp.root i).addr = walkFrom mem va 1 (mem sp.root i).addr := by
  have hroot : mem' sp.root = mem sp.root := hmem _ mem_cons_self
  have htable : mem' (mem sp.root i).addr = mem (mem sp.root i).addr :=
    hmem _ (mem_cons_of_mem _ hin)
  have hwalk' := (h.congr hmem).walk_table (by rw [hroot]; exact hv)
    (by rw [hroot]; exact hin) va
  rw [hroot,htable] at hwalk'
  rw [hwalk',h.walk_table hv hin va]
  split
  next hvj =>
    exact walkFrom_last_congr (hmem _ (mem_cons_of_mem _ (h.next hv hin hvj))) va
  next => rfl

theorem SpaceOk.kernel_root (h : SpaceOk mem .empty kernel) (hv : (mem kernel.root i).v = true) :
    (mem kernel.root i).addr ∈ kernel.tables := by
  rcases h.root i hv with hin | heq
  · exact hin
  · rw [heq] at hv
    exact absurd hv (by simp [PageTable.empty,new])

section

variable (h : SpaceOk mem (mem kernel.root) sp) (hkernel : SpaceOk mem .empty kernel)
  (hmem : ∀ a ∈ sp.owned, mem' a = mem a)
include h hkernel hmem

theorem SpaceOk.walk_congr
        (hshared : ∀ a ∈ kernel.owned, mem' a = mem a) (va : Nat) :
    walkFrom mem' va 2 sp.root = walkFrom mem va 2 sp.root := by
  have hroot : mem' sp.root = mem sp.root := hmem _ mem_cons_self
  rw [h.walk_root va,(h.congr hmem).walk_root va,hroot]
  split
  next hv =>
    rcases h.root _ hv with hin | heq
    · exact h.walk_table_congr hmem hv hin va
    · rw [heq] at hv ⊢
      exact hkernel.walk_table_congr hshared hv (hkernel.kernel_root hv) va
  next => rfl

theorem SpaceOk.translate_congr
        (hshared : ∀ a ∈ kernel.owned, mem' a = mem a) (va : Nat) :
    translate mem' sp.root va = translate mem sp.root va := by
  rw [translate,translate,h.walk_congr hkernel hmem hshared]

end

end Athera
