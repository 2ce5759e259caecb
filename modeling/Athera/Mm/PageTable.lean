import Mathlib.Logic.Function.Basic
import Athera.Mm.Constants

/-!
# Sv39 page tables

An address space owns a root table and the tables below it. Entries of the root that lead to tables
of the kernel are not followed.
-/

namespace Athera

open Framework Option Function

structure PageFlags where
  r : Bool
  w : Bool
  x : Bool
  u : Bool
  g : Bool
  a : Bool
  d : Bool
deriving DecidableEq, Repr

def PageFlags.new : PageFlags := ⟨false,false,false,false,false,false,false⟩

/-- At least one of `r`, `w`, `x` is set; only then does a mapping get page table entries. -/
def PageFlags.rwx (f : PageFlags) : Bool := f.r || f.w || f.x

structure PageTableEntry where
  v : Bool
  flags : PageFlags
  ppn : Nat
deriving DecidableEq, Repr

def PageTableEntry.new : PageTableEntry := ⟨false,.new,0⟩

/-- The physical address in an entry, as `PhysicalAddr::set_ppn` builds it. -/
def PageTableEntry.addr (e : PageTableEntry) : Nat := e.ppn * pageSize

/-- `PhysicalAddr::ppn`, 44 bits. -/
def ppn (pa : Nat) : Nat := pa / pageSize % 2 ^ 44

def vpn0 (va : Nat) : Nat := va / 2 ^ 12 % 512
def vpn1 (va : Nat) : Nat := va / 2 ^ 21 % 512
def vpn2 (va : Nat) : Nat := va / 2 ^ 30 % 512

abbrev PageTable := Nat → PageTableEntry

def PageTable.empty : PageTable := fun _ => .new

structure AddressSpace where
  root : PageTable
  tables : Nat → Option PageTable

namespace AddressSpace

section

variable (sp : AddressSpace)

def linkRoot (i addr : Nat) : AddressSpace :=
  ⟨Function.update sp.root i { sp.root i with v := true, ppn := ppn addr },
    Function.update sp.tables addr (some .empty)⟩

/-- Point an entry of the table `t` at `at1` to the new, empty table at `addr`. -/
def linkTable (at1 : Nat) (t : PageTable) (j addr : Nat) : AddressSpace :=
  ⟨sp.root,
    Function.update
      (Function.update sp.tables at1
        (some (Function.update t j { t j with v := true, ppn := ppn addr })))
      addr (some .empty)⟩

def setEntry (at0 : Nat) (t : PageTable) (k : Nat) (e : PageTableEntry) :
    AddressSpace :=
  ⟨sp.root,Function.update sp.tables at0 (some (Function.update t k e))⟩

def follow (e : PageTableEntry) : Option (Nat × PageTable) :=
  if e.v then (sp.tables e.addr).map fun t => (e.addr, t) else none

/-- The table of the last level for the indices `i` and `j`, with its address. -/
def lastTable (i j : Nat) : Option (Nat × PageTable) :=
  match sp.follow (sp.root i) with
  | none => none
  | some (_, pt1) => sp.follow (pt1 j)

def unmap (va : Nat) : AddressSpace :=
  match sp.lastTable (vpn2 va) (vpn1 va) with
  | none => sp
  | some (at0, pt0) => sp.setEntry at0 pt0 (vpn0 va) .new

/-- The valid entry at the indices `i`, `j`, `k`. -/
def entryAt (i j k : Nat) : Option PageTableEntry :=
  match sp.lastTable i j with
  | none => none
  | some (_, pt0) => if (pt0 k).v then some (pt0 k) else none

/-- The entry a walk for `va` through the tables of this address space ends at. -/
def walk (va : Nat) : Option PageTableEntry :=
  sp.entryAt (vpn2 va) (vpn1 va) (vpn0 va)

end

inductive Place where
  | level1 (i : Nat)
  | level0 (i j : Nat)
deriving DecidableEq

/-- The owned tables form a tree: `place` tells for the address of a table from where it is
linked. -/
structure Tree (sp : AddressSpace) (place : Nat → Place) : Prop where
  level1 : ∀ i a t, sp.follow (sp.root i) = some (a, t) → place a = .level1 i
  level0 : ∀ i a t, sp.follow (sp.root i) = some (a, t) → ∀ j, (t j).v = true →
    (sp.tables (t j).addr).isSome = true ∧ place (t j).addr = .level0 i j

variable {sp : AddressSpace} {place : Nat → Place} {i j k : Nat}

variable {a : Nat} {t : PageTable}

theorem follow_eq_some {e : PageTableEntry} :
    sp.follow e = some (a, t) ↔ e.v = true ∧ e.addr = a ∧ sp.tables a = some t := by
  unfold follow
  cases hv : e.v with
  | false => simp
  | true =>
    simp only [if_true,map_eq_some_iff,Prod.mk.injEq,true_and]
    constructor
    · rintro ⟨t',ht,rfl,rfl⟩
      exact ⟨rfl,ht⟩
    · rintro ⟨rfl,ht⟩
      exact ⟨t,ht,rfl,rfl⟩

theorem lastTable_eq_some : sp.lastTable i j = some (a, t) ↔
      ∃ a1 t1, sp.follow (sp.root i) = some (a1, t1) ∧ sp.follow (t1 j) = some (a, t) := by
  unfold lastTable
  cases h : sp.follow (sp.root i) with
  | none => simp
  | some r =>
    obtain ⟨a1,t1⟩ := r
    simp

theorem Tree.place_last (h : Tree sp place)
    (hl : sp.lastTable i j = some (a, t)) : place a = .level0 i j := by
  obtain ⟨a1,t1,h1,h0⟩ := lastTable_eq_some.mp hl
  obtain ⟨hv,rfl,_⟩ := follow_eq_some.mp h0
  exact (h.level0 i a1 t1 h1 j hv).2

theorem follow_congr {sp' : AddressSpace} {e : PageTableEntry}
    (h : e.v = true → sp'.tables e.addr = sp.tables e.addr) : sp'.follow e = sp.follow e := by
  unfold follow
  cases hv : e.v with
  | false => rfl
  | true => rw [h hv]

theorem lastTable_of_root_congr {sp' : AddressSpace} {i' : Nat}
    (hroot : sp'.follow (sp'.root i') = sp.follow (sp.root i'))
    (hnext : ∀ a t, sp.follow (sp.root i') = some (a, t) → sp'.follow (t j) = sp.follow (t j)) :
    sp'.lastTable i' j = sp.lastTable i' j := by
  unfold lastTable
  rw [hroot]
  cases hf : sp.follow (sp.root i') with
  | none => rfl
  | some r => exact hnext r.1 r.2 hf

section

variable {a0 : Nat} {t0 : PageTable} {e : PageTableEntry}

private theorem follow_setEntry_of_ne {e' : PageTableEntry} (h : e'.v = true → e'.addr ≠ a0) :
    (sp.setEntry a0 t0 k e).follow e' = sp.follow e' :=
  follow_congr fun hv => update_of_ne (h hv) _ _

section

variable (h : Tree sp place) (hl : sp.lastTable i j = some (a0, t0))
include h hl

private theorem follow_root_setEntry (i' : Nat) :
    (sp.setEntry a0 t0 k e).follow ((sp.setEntry a0 t0 k e).root i') = sp.follow (sp.root i') := by
  by_cases ha : (sp.root i').v = true ∧ (sp.root i').addr = a0
  · obtain ⟨a1,t1,h1,h0⟩ := lastTable_eq_some.mp hl
    obtain ⟨_,_,ht0⟩ := follow_eq_some.mp h0
    have hp := h.level1 i' a0 t0 (follow_eq_some.mpr ⟨ha.1,ha.2,ht0⟩)
    rw [h.place_last hl] at hp
    exact absurd hp (by simp)
  · exact follow_setEntry_of_ne fun hv he => ha ⟨hv,he⟩

theorem lastTable_setEntry (i' j' : Nat) : (sp.setEntry a0 t0 k e).lastTable i' j' =
      if i' = i ∧ j' = j then some (a0, Function.update t0 k e) else sp.lastTable i' j' := by
  by_cases hij : i' = i ∧ j' = j
  · obtain ⟨rfl,rfl⟩ := hij
    obtain ⟨a1,t1,h1,h0⟩ := lastTable_eq_some.mp hl
    obtain ⟨hv,ha,_⟩ := follow_eq_some.mp h0
    rw [if_pos ⟨rfl,rfl⟩,lastTable_eq_some]
    refine ⟨a1,t1,(follow_root_setEntry h hl i').trans h1,follow_eq_some.mpr ⟨hv,ha,?_⟩⟩
    exact update_self _ _ _
  · rw [if_neg hij]
    apply lastTable_of_root_congr (follow_root_setEntry h hl i')
    intro a t hf
    apply follow_setEntry_of_ne
    intro hv he
    have hp := (h.level0 i' a t hf j' hv).2
    rw [he,h.place_last hl] at hp
    exact hij (by simpa [eq_comm] using hp)

theorem tree_setEntry : Tree (sp.setEntry a0 t0 k e) place := by
  constructor
  · intro i' a t hf
    rw [follow_root_setEntry h hl i'] at hf
    exact h.level1 i' a t hf
  · intro i' a t hf j' hv
    rw [follow_root_setEntry h hl i'] at hf
    obtain ⟨hsome,hp⟩ := h.level0 i' a t hf j' hv
    refine ⟨?_,hp⟩
    by_cases he : (t j').addr = a0
    · rw [he]
      exact isSome_iff_exists.mpr ⟨_,update_self _ _ _⟩
    · change (Function.update sp.tables a0 _ (t j').addr).isSome = true
      rw [update_of_ne he]
      exact hsome

theorem entryAt_setEntry (i' j' k' : Nat) : (sp.setEntry a0 t0 k e).entryAt i' j' k' =
      if i' = i ∧ j' = j ∧ k' = k then (if e.v then some e else none)
      else sp.entryAt i' j' k' := by
  unfold entryAt
  rw [lastTable_setEntry h hl]
  by_cases hij : i' = i ∧ j' = j
  · obtain ⟨rfl,rfl⟩ := hij
    by_cases hk : k' = k
    · subst k'
      simp
    · simp [hk,hl]
  · have hne : ¬ (i' = i ∧ j' = j ∧ k' = k) := fun hall => hij ⟨hall.1,hall.2.1⟩
    rw [if_neg hij,if_neg hne]

end

end

theorem lastTable_unmap_isSome (h : Tree sp place) (va i' j' : Nat) :
    ((sp.unmap va).lastTable i' j').isSome = (sp.lastTable i' j').isSome := by
  unfold unmap
  cases hl : sp.lastTable (vpn2 va) (vpn1 va) with
  | none => rfl
  | some r =>
    simp only [lastTable_setEntry h hl]
    split
    · next hij => simp [hij.1,hij.2,hl]
    · rfl

theorem entryAt_unmap (h : Tree sp place) (va i' j' k' : Nat) : (sp.unmap va).entryAt i' j' k' =
      if i' = vpn2 va ∧ j' = vpn1 va ∧ k' = vpn0 va then none else sp.entryAt i' j' k' := by
  unfold unmap
  cases hl : sp.lastTable (vpn2 va) (vpn1 va) with
  | none =>
    by_cases he : i' = vpn2 va ∧ j' = vpn1 va ∧ k' = vpn0 va
    · obtain ⟨rfl,rfl,rfl⟩ := he
      simp [entryAt,hl]
    · rw [if_neg he]
  | some r =>
    simp only [entryAt_setEntry h hl]
    rfl

/-- A table at `addr` could be linked: no owned table is there, no root entry leads there, and
an entry can hold the address. -/
structure Unlinked (sp : AddressSpace) (addr : Nat) : Prop where
  free : sp.tables addr = none
  root : ∀ i, (sp.root i).v = true → (sp.root i).addr ≠ addr
  whole : ppn addr * pageSize = addr

variable {addr : Nat}

private theorem Unlinked.next_ne (hu : Unlinked sp addr) (h : Tree sp place)
    (hf : sp.follow (sp.root i) = some (a, t)) (hv : (t j).v = true) : (t j).addr ≠ addr := by
  intro he
  have hsome := (h.level0 i a t hf j hv).1
  rw [he,hu.free] at hsome
  exact absurd hsome (by simp)

private theorem follow_root_linkRoot (hu : Unlinked sp addr) (i' : Nat) :
    (sp.linkRoot i addr).follow ((sp.linkRoot i addr).root i') =
      if i' = i then some (addr, .empty) else sp.follow (sp.root i') := by
  by_cases hi : i' = i
  · subst i'
    rw [if_pos rfl,follow_eq_some]
    simp only [linkRoot,update_self,true_and]
    exact ⟨hu.whole,trivial⟩
  · rw [if_neg hi]
    have hroot : (sp.linkRoot i addr).root i' = sp.root i' := update_of_ne hi _ _
    rw [hroot]
    exact follow_congr fun hv => update_of_ne (hu.root i' hv) _ _

section

variable (h : Tree sp place) (hu : Unlinked sp addr)
include h hu

theorem tree_linkRoot : Tree (sp.linkRoot i addr) (Function.update place addr (.level1 i)) := by
  constructor
  · intro i' a t hf
    rw [follow_root_linkRoot hu] at hf
    by_cases hi : i' = i
    · subst i'
      rw [if_pos rfl,some.injEq,Prod.mk.injEq] at hf
      rw [← hf.1,update_self]
    · rw [if_neg hi] at hf
      obtain ⟨hv,ha,_⟩ := follow_eq_some.mp hf
      rw [update_of_ne (ha ▸ hu.root i' hv)]
      exact h.level1 i' a t hf
  · intro i' a t hf j' hv
    rw [follow_root_linkRoot hu] at hf
    by_cases hi : i' = i
    · subst i'
      rw [if_pos rfl,some.injEq,Prod.mk.injEq] at hf
      rw [← hf.2] at hv
      exact absurd hv (by simp [PageTable.empty,PageTableEntry.new])
    · rw [if_neg hi] at hf
      have hne := hu.next_ne h hf hv
      have htab : (sp.linkRoot i addr).tables (t j').addr = sp.tables (t j').addr :=
        update_of_ne hne _ _
      rw [update_of_ne hne,htab]
      exact h.level0 i' a t hf j' hv

theorem lastTable_linkRoot (hv : (sp.root i).v = false) (i' j' : Nat) :
    (sp.linkRoot i addr).lastTable i' j' = sp.lastTable i' j' := by
  by_cases hi : i' = i
  · subst i'
    have hnew := follow_root_linkRoot (i := i) hu i
    unfold lastTable
    rw [hnew]
    simp [follow,hv,PageTable.empty,PageTableEntry.new]
  · apply lastTable_of_root_congr
    · rw [follow_root_linkRoot hu,if_neg hi]
    · intro a t hf
      exact follow_congr fun hv => update_of_ne (hu.next_ne h hf hv) _ _

/-- A new table below the root holds no entry, so no walk changes. -/
theorem entryAt_linkRoot (hv : (sp.root i).v = false) (i' j' k' : Nat) :
    (sp.linkRoot i addr).entryAt i' j' k' = sp.entryAt i' j' k' := by
  unfold entryAt
  rw [lastTable_linkRoot h hu hv]

end

variable {a1 : Nat} {t1 : PageTable}

section

variable (h : Tree sp place)
include h

private theorem follow_root_linkTable (hu : Unlinked sp addr)
    (h1 : sp.follow (sp.root i) = some (a1, t1)) (i' : Nat) :
    (sp.linkTable a1 t1 j addr).follow ((sp.linkTable a1 t1 j addr).root i') =
      if i' = i then some (a1, Function.update t1 j { t1 j with v := true, ppn := ppn addr })
      else sp.follow (sp.root i') := by
  obtain ⟨hv,ha,_⟩ := follow_eq_some.mp h1
  have hne : a1 ≠ addr := ha ▸ hu.root i hv
  by_cases hi : i' = i
  · subst i'
    rw [if_pos rfl,follow_eq_some]
    refine ⟨hv,ha,?_⟩
    simp only [linkTable,update_of_ne hne,update_self]
  · rw [if_neg hi]
    apply follow_congr
    intro hv'
    have hne' : (sp.root i').addr ≠ addr := hu.root i' hv'
    have hne1 : (sp.root i').addr ≠ a1 := by
      intro he
      obtain ⟨_,_,ht⟩ := follow_eq_some.mp h1
      have hp := h.level1 i' a1 t1 (follow_eq_some.mpr ⟨hv',he,ht⟩)
      rw [h.level1 i a1 t1 h1] at hp
      exact hi (by simpa [eq_comm] using hp)
    simp only [linkTable,update_of_ne hne',update_of_ne hne1]

section

variable (hu : Unlinked sp addr) (h1 : sp.follow (sp.root i) = some (a1, t1))
include hu h1

private theorem linkTable_tables_next {i' j' : Nat}
    (hf : sp.follow (sp.root i') = some (a, t)) (hv : (t j').v = true) :
    (sp.linkTable a1 t1 j addr).tables (t j').addr = sp.tables (t j').addr := by
  have hne := hu.next_ne h hf hv
  have hne1 : (t j').addr ≠ a1 := by
    intro he
    have hp := (h.level0 i' a t hf j' hv).2
    rw [he,h.level1 i a1 t1 h1] at hp
    exact absurd hp (by simp)
  simp only [linkTable,update_of_ne hne,update_of_ne hne1]

theorem tree_linkTable :
    Tree (sp.linkTable a1 t1 j addr) (Function.update place addr (.level0 i j)) := by
  have hnew : (sp.linkTable a1 t1 j addr).tables addr = some .empty := update_self _ _ _
  constructor
  · intro i' a t hf
    rw [follow_root_linkTable h hu h1] at hf
    by_cases hi : i' = i
    · subst i'
      rw [if_pos rfl,some.injEq,Prod.mk.injEq] at hf
      obtain ⟨hv,ha,_⟩ := follow_eq_some.mp h1
      rw [← hf.1,update_of_ne (ha ▸ hu.root i hv)]
      exact h.level1 i a1 t1 h1
    · rw [if_neg hi] at hf
      obtain ⟨hv,ha,_⟩ := follow_eq_some.mp hf
      rw [update_of_ne (ha ▸ hu.root i' hv)]
      exact h.level1 i' a t hf
  · intro i' a t hf j' hv
    rw [follow_root_linkTable h hu h1] at hf
    by_cases hi : i' = i
    · subst i'
      rw [if_pos rfl] at hf
      obtain ⟨_,rfl⟩ := hf
      by_cases hj : j' = j
      · subst j'
        simp only [PageTableEntry.addr,hu.whole,hnew,update_self]
        exact ⟨rfl,trivial⟩
      · rw [update_of_ne hj] at hv ⊢
        rw [linkTable_tables_next h hu h1 h1 hv,update_of_ne (hu.next_ne h h1 hv)]
        exact h.level0 i a1 t1 h1 j' hv
    · rw [if_neg hi] at hf
      rw [linkTable_tables_next h hu h1 hf hv,update_of_ne (hu.next_ne h hf hv)]
      exact h.level0 i' a t hf j' hv

theorem lastTable_linkTable (i' j' : Nat) : (sp.linkTable a1 t1 j addr).lastTable i' j' =
      if i' = i ∧ j' = j then some (addr, .empty) else sp.lastTable i' j' := by
  have hnew : (sp.linkTable a1 t1 j addr).tables addr = some .empty := update_self _ _ _
  have hroot := follow_root_linkTable (j := j) h hu h1 i'
  by_cases hi : i' = i
  · subst i'
    rw [if_pos rfl] at hroot
    unfold lastTable
    rw [hroot,h1]
    by_cases hj : j' = j
    · subst j'
      rw [if_pos ⟨rfl,rfl⟩]
      simp only [update_self,follow_eq_some,PageTableEntry.addr,hu.whole,hnew,and_self]
    · rw [if_neg (fun hall => hj hall.2)]
      simp only [update_of_ne hj]
      exact follow_congr fun hv => linkTable_tables_next h hu h1 h1 hv
  · rw [if_neg (fun hall => hi hall.1)]
    rw [if_neg hi] at hroot
    apply lastTable_of_root_congr hroot
    intro a t hf
    exact follow_congr fun hv => linkTable_tables_next h hu h1 hf hv

/-- A new table of the last level holds no entry, so no walk changes. -/
theorem entryAt_linkTable (hv : (t1 j).v = false) (i' j' k' : Nat) :
    (sp.linkTable a1 t1 j addr).entryAt i' j' k' = sp.entryAt i' j' k' := by
  unfold entryAt
  rw [lastTable_linkTable h hu h1]
  by_cases hij : i' = i ∧ j' = j
  · obtain ⟨rfl,rfl⟩ := hij
    have hnone : sp.lastTable i' j' = none := by
      unfold lastTable
      rw [h1]
      simp [follow,hv]
    rw [hnone]
    simp [PageTable.empty,PageTableEntry.new]
  · rw [if_neg hij]

end

end

end AddressSpace

end Athera
