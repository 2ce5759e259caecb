import Athera.Framework.Fields
import Athera.Framework.Runs
import Athera.Framework.Action
import Athera.Mm.SpaceOwnership

/-!
# Page tables as words

`mm/page_table.rs` on the 64-bit words of the tables, with the fields that `bits!` generates.
-/

namespace Athera

open Framework Action Option BitVec Function

abbrev Word := BitVec 64

namespace VirtualAddr

def vpn0 (va : Word) : Word := getField va 12 20
def vpn1 (va : Word) : Word := getField va 21 29
def vpn2 (va : Word) : Word := getField va 30 38

end VirtualAddr

namespace PhysicalAddr

def ppn (pa : Word) : Word := getField pa 12 55
def setPpn (pa v : Word) : Word := setField pa 12 55 v

end PhysicalAddr

/-- The fields of a `PageTableEntryFlags`; `v` is not among those that `map` reads. -/
def flagsOf (flags : Word) : PageFlags :=
  ⟨getFlag flags 1,getFlag flags 2,getFlag flags 3,getFlag flags 4,getFlag flags 5,getFlag flags 6,
    getFlag flags 7⟩

namespace EntryWord

def v (e : Word) : Bool := getFlag e 0
def rwx (e : Word) : Word := getField e 1 3
def ppn (e : Word) : Word := getField e 10 53
def setV (e : Word) (b : Bool) : Word := setFlag e 0 b
def setPpn (e v : Word) : Word := setField e 10 53 v

/-- The address in an entry, put together by `PhysicalAddr::set_ppn`. -/
def addr (e : Word) : Word := PhysicalAddr.setPpn 0 (ppn e)

def point (e pa : Word) : Word := setV (setPpn e (PhysicalAddr.ppn pa)) true

def setFlags (e : Word) (f : PageFlags) : Word :=
  let e := setFlag e 1 f.r
  let e := setFlag e 2 f.w
  let e := setFlag e 3 f.x
  let e := setFlag e 4 f.u
  let e := setFlag e 5 f.g
  let e := setFlag e 6 f.a
  setFlag e 7 f.d

def leaf (e pa flags : Word) : Word := setFlags (point e pa) (flagsOf flags)

def toEntry (e : Word) : PageTableEntry := ⟨v e,flagsOf e,(ppn e).toNat⟩

end EntryWord

theorem toNat_vpn0 (va : Word) : (VirtualAddr.vpn0 va).toNat = Athera.vpn0 va.toNat :=
  toNat_getField (by decide) (by decide)

theorem toNat_vpn1 (va : Word) : (VirtualAddr.vpn1 va).toNat = Athera.vpn1 va.toNat :=
  toNat_getField (by decide) (by decide)

theorem toNat_vpn2 (va : Word) : (VirtualAddr.vpn2 va).toNat = Athera.vpn2 va.toNat :=
  toNat_getField (by decide) (by decide)

theorem toNat_ppn (pa : Word) : (PhysicalAddr.ppn pa).toNat = Athera.ppn pa.toNat :=
  toNat_getField (by decide) (by decide)

theorem ppn_lt (n : Nat) : Athera.ppn n < 2^44 := Nat.mod_lt _ (by decide)

theorem toNat_setPpn_zero (v : Word) : (PhysicalAddr.setPpn 0 v).toNat = v.toNat%2^44*pageSize :=
  toNat_setField_zero (by decide) (by decide)

theorem ppn_ofNat (a : Nat) : (PhysicalAddr.ppn (BitVec.ofNat 64 a)).toNat = Athera.ppn a := by
  rw [toNat_ppn,toNat_ofNat,Athera.ppn,Athera.ppn]
  simp only [pageSize]
  omega

namespace EntryWord

variable {e pa flags : Word}

theorem toNat_addr (e : Word) : (addr e).toNat = (toEntry e).addr := by
  have hlt : (ppn e).toNat < 2^44 := by
    rw [ppn,toNat_getField (by decide) (by decide)]
    exact Nat.mod_lt _ (by decide)
  rw [addr,toNat_setPpn_zero,Nat.mod_eq_of_lt hlt]
  rfl

theorem ppn_setPpn (v : Word) : (ppn (setPpn e v)).toNat = v.toNat%2^44 := by
  rw [ppn,setPpn,getField_setField (by decide) (by decide),toNat_and,
    toNat_lowBits (by decide),Nat.and_two_pow_sub_one_eq_mod]

theorem ppn_setFlag {i : Nat} {b : Bool} (hi : i < 10) : ppn (setFlag e i b) = ppn e :=
  getField_setFlag_of_apart (by decide) (by decide) (by omega) (.inl hi)

theorem getFlag_setPpn {i : Nat} {v : Word} (hi : i < 10) : getFlag (setPpn e v) i = getFlag e i :=
  getFlag_setField_of_apart (by decide) (by decide) (by omega) (.inl hi)

theorem getFlag_point {i : Nat} (hi : i < 10) :
    getFlag (point e pa) i = if i = 0 then true else getFlag e i := by
  rw [point,setV,getFlag_setFlag (by decide) (by omega),getFlag_setPpn hi]

theorem toEntry_point (e pa : Word) :
    toEntry (point e pa) = { toEntry e with v := true, ppn := Athera.ppn pa.toNat } := by
  have hppn : (ppn (point e pa)).toNat = Athera.ppn pa.toNat := by
    rw [point,setV,ppn_setFlag (by decide),ppn_setPpn,toNat_ppn,Nat.mod_eq_of_lt (ppn_lt _)]
  simp only [toEntry,hppn,v,flagsOf,getFlag_point (show 0 < 10 by decide),
    getFlag_point (show 1 < 10 by decide),getFlag_point (show 2 < 10 by decide),
    getFlag_point (show 3 < 10 by decide),getFlag_point (show 4 < 10 by decide),
    getFlag_point (show 5 < 10 by decide),getFlag_point (show 6 < 10 by decide),
    getFlag_point (show 7 < 10 by decide)]
  rfl

theorem flagsOf_setFlags (f : PageFlags) : flagsOf (setFlags e f) = f := by
  simp [flagsOf,setFlags,getFlag_setFlag]

theorem v_setFlags (f : PageFlags) : v (setFlags e f) = v e := by
  simp [v,setFlags,getFlag_setFlag]

theorem ppn_setFlags (f : PageFlags) : ppn (setFlags e f) = ppn e := by
  simp [setFlags,ppn_setFlag]

theorem toEntry_leaf (e pa flags : Word) :
    toEntry (leaf e pa flags) = ⟨true,flagsOf flags,Athera.ppn pa.toNat⟩ := by
  have hpoint := toEntry_point e pa
  simp only [toEntry,PageTableEntry.mk.injEq] at hpoint
  simp only [toEntry,leaf,v_setFlags,flagsOf_setFlags,ppn_setFlags,hpoint]

theorem toEntry_zero : toEntry 0 = .new := by decide

theorem rwx_eq_zero (h : flagsOf e = .new) : rwx e = 0 := by
  simp only [flagsOf,PageFlags.new,PageFlags.mk.injEq] at h
  apply eq_of_getLsbD_eq
  intro i hi
  rw [rwx,getLsbD_getField (by decide) (by decide)]
  rw [getFlag_eq (by decide),getFlag_eq (by decide),getFlag_eq (by decide)] at h
  by_cases hlow : i ≤ 3-1
  · obtain rfl | rfl | rfl : i = 0 ∨ i = 1 ∨ i = 2 := by omega
    · simpa using h.1
    · simpa using h.2.1
    · simpa using h.2.2.1
  · simp [hlow]

end EntryWord

open EntryWord hiding v

/-- The tables as words, and what is known of the space; `pool` is as for `SpaceState`. -/
structure WordState where
  mem : Nat → Nat → Word
  space : Space
  pool : List Nat

namespace WordState

def create (s : WordState) : Option (Nat × WordState) :=
  match s.pool with
  | [] => none
  | addr :: pool => some (addr, { s with mem := update s.mem addr fun _ => 0, pool := pool })

def writeEntry (s : WordState) (table i : Nat) (e : Word) : WordState :=
  { s with mem := update s.mem table (update (s.mem table) i e) }

/-- Point an entry to a new table and keep the table. -/
def link (s : WordState) (table i addr : Nat) : WordState :=
  { s.writeEntry table i (point (s.mem table i) (BitVec.ofNat 64 addr)) with
    space := ⟨s.space.root,s.space.tables.orderedInsert (· ≤ ·) addr⟩ }

/-- The address in the entry `i` of a table, which gets a new table to point to if it is not
valid. -/
def ensure (table i : Nat) : Action MemError WordState Nat := fun s =>
  if EntryWord.v (s.mem table i) then .ok (addr (s.mem table i)).toNat s
  else
    match s.create with
    | none => .err .outOfMemory s
    | some (addr, s) =>
      .ok (EntryWord.addr ((s.link table i addr).mem table i)).toNat (s.link table i addr)

def ownTable (addr : Nat) : Action MemError WordState Unit := fun s =>
  if addr ∈ s.space.tables then .ok () s else .err .pageTableMissing s

def map (va pa flags : Word) : Action MemError WordState Unit := do
  let s ← get
  let pt1 ← ensure s.space.root (VirtualAddr.vpn2 va).toNat
  ownTable pt1
  let pt0 ← ensure pt1 (VirtualAddr.vpn1 va).toNat
  ownTable pt0
  modify fun s => s.writeEntry pt0 (VirtualAddr.vpn0 va).toNat
    (leaf (s.mem pt0 (VirtualAddr.vpn0 va).toNat) pa flags)

section

variable (s : WordState)

def unmap (va : Word) : WordState :=
  let pte2 := s.mem s.space.root (VirtualAddr.vpn2 va).toNat
  if EntryWord.v pte2 ∧ (addr pte2).toNat ∈ s.space.tables then
    let pte1 := s.mem (addr pte2).toNat (VirtualAddr.vpn1 va).toNat
    if EntryWord.v pte1 ∧ (addr pte1).toNat ∈ s.space.tables then
      s.writeEntry (addr pte1).toNat (VirtualAddr.vpn0 va).toNat 0
    else s
  else s

/-- The table an entry of the upper levels leads to: it is valid and not a leaf. -/
def nextTable (e : Word) : Option Nat :=
  if EntryWord.v e ∧ rwx e = 0 then some (addr e).toNat else none

/-- The walk through the three levels: the physical page and the flags of a virtual page. -/
def walk (va : Word) : Option (Word × PageFlags) :=
  (nextTable (s.mem s.space.root (VirtualAddr.vpn2 va).toNat)).bind fun pt1 =>
    (nextTable (s.mem pt1 (VirtualAddr.vpn1 va).toNat)).bind fun pt0 =>
      let e := s.mem pt0 (VirtualAddr.vpn0 va).toNat
      if EntryWord.v e then some (addr e, flagsOf e) else none

/-- The typed tables that the words stand for. -/
def abs : SpaceState := ⟨fun a i => toEntry (s.mem a i),s.space,s.pool⟩

theorem abs_writeEntry (table i : Nat) (e : Word) :
    (s.writeEntry table i e).abs = s.abs.writeEntry table i (toEntry e) := by
  simp only [abs,writeEntry,SpaceState.writeEntry,SpaceState.mk.injEq,and_true]
  funext a j
  by_cases ha : a = table
  · subst a
    by_cases hj : j = i
    · subst j
      simp
    · simp [hj]
  · simp [ha]

theorem abs_empty (addr : Nat) (rest : List Nat) :
    ({ s with mem := update s.mem addr fun _ => 0, pool := rest } : WordState).abs =
      { s.abs with mem := update s.abs.mem addr .empty, pool := rest } := by
  simp only [abs,SpaceState.mk.injEq,and_true]
  funext a j
  by_cases ha : a = addr
  · subst a
    simp only [update_self]
    exact toEntry_zero
  · simp [ha]

theorem abs_link (table i addr : Nat) : (s.link table i addr).abs = s.abs.link table i addr := by
  have hpoint : toEntry (point (s.mem table i) (BitVec.ofNat 64 addr)) =
      { s.abs.mem table i with v := true, ppn := Athera.ppn addr } := by
    rw [toEntry_point,← toNat_ppn,ppn_ofNat]
    rfl
  have hwrite := abs_writeEntry s table i (point (s.mem table i) (BitVec.ofNat 64 addr))
  rw [hpoint] at hwrite
  rw [SpaceState.link,← hwrite]
  rfl

end

theorem ensure_simulates (table i : Nat) :
    Simulates abs (ensure table i) (SpaceState.ensure table i) := by
  intro s
  have hv : (s.abs.mem table i).v = EntryWord.v (s.mem table i) := rfl
  unfold ensure SpaceState.ensure
  rw [hv]
  split
  · simp only [toNat_addr]
    rfl
  · cases hpool : s.pool with
    | nil =>
      have habs : s.abs.pool = [] := hpool
      simp only [create,SpaceState.create,hpool,habs]
      rfl
    | cons addr rest =>
      have habs : s.abs.pool = addr::rest := hpool
      simp only [create,SpaceState.create,hpool,habs,toNat_addr]
      rw [← abs_empty,← abs_link]
      rfl

theorem ownTable_simulates (addr : Nat) :
    Simulates abs (ownTable addr) (SpaceState.ownTable addr) := by
  intro s
  unfold ownTable SpaceState.ownTable
  by_cases hin : addr ∈ s.space.tables
  · have habs : addr ∈ s.abs.space.tables := hin
    rw [if_pos hin,if_pos habs]
    rfl
  · have habs : addr ∉ s.abs.space.tables := hin
    rw [if_neg hin,if_neg habs]
    rfl

theorem map_simulates (va pa flags : Word) :
    Simulates abs (map va pa flags) (SpaceState.map va.toNat pa.toNat (flagsOf flags)) := by
  unfold map SpaceState.map
  rw [toNat_vpn0,toNat_vpn1,toNat_vpn2]
  intro s
  apply (ensure_simulates _ _).bind
  intro pt1
  apply (ownTable_simulates _).bind
  intro _
  apply (ensure_simulates _ _).bind
  intro pt0
  apply (ownTable_simulates _).bind
  intro _
  apply Simulates.modify
  intro s
  rw [abs_writeEntry,toEntry_leaf]

theorem abs_unmap (s : WordState) (va : Word) : (s.unmap va).abs = s.abs.unmap va.toNat := by
  unfold unmap SpaceState.unmap
  simp only [toNat_vpn0,toNat_vpn1,toNat_vpn2,toNat_addr]
  have hmem : ∀ a i, s.abs.mem a i = toEntry (s.mem a i) := fun _ _ => rfl
  have hspace : s.abs.space = s.space := rfl
  have hv : ∀ e, (toEntry e).v = EntryWord.v e := fun _ => rfl
  simp only [hmem,hspace,hv]
  split
  · split
    · rw [abs_writeEntry,toEntry_zero]
    · rfl
  · rfl

section

variable {s : WordState}

theorem nextTable_plain {e : Word} (h : flagsOf e = .new) :
    nextTable e = if EntryWord.v e then some (toEntry e).addr else none := by
  unfold nextTable
  rw [toNat_addr,rwx_eq_zero h]
  simp

/-- The walk through the words ends at the entry that the typed tables have. -/
theorem walk_eq (h : SpaceOk s.abs.mem .empty s.space) (va : Word) :
    s.walk va = ((s.space.view s.abs.mem).entryAt (Athera.vpn2 va.toNat) (Athera.vpn1 va.toNat)
      (Athera.vpn0 va.toNat)).map fun e => (BitVec.ofNat 64 e.addr, e.flags) := by
  unfold walk AddressSpace.entryAt AddressSpace.lastTable
  rw [toNat_vpn0,toNat_vpn1,toNat_vpn2]
  generalize Athera.vpn2 va.toNat = i
  generalize Athera.vpn1 va.toNat = j
  generalize Athera.vpn0 va.toNat = k
  have hroot : nextTable (s.mem s.space.root i) =
      if (s.abs.mem s.space.root i).v then some (s.abs.mem s.space.root i).addr else none :=
    nextTable_plain (h.plainRoot i)
  rw [hroot]
  cases hv : (s.abs.mem s.space.root i).v with
  | false =>
    have hfollow : (s.space.view s.abs.mem).follow ((s.space.view s.abs.mem).root i) = none := by
      change (if (s.abs.mem s.space.root i).v then _ else none) = none
      rw [hv]
      rfl
    rw [hfollow]
    rfl
  | true =>
    have hin := h.kernel_root hv
    have hfollow : (s.space.view s.abs.mem).follow ((s.space.view s.abs.mem).root i) =
        some ((s.abs.mem s.space.root i).addr, s.abs.mem (s.abs.mem s.space.root i).addr) :=
      view_follow.mpr ⟨hv,rfl,hin,rfl⟩
    rw [hfollow]
    generalize hpt1 : (s.abs.mem s.space.root i).addr = pt1 at hin
    have hnext : nextTable (s.mem pt1 j) =
        if (s.abs.mem pt1 j).v then some (s.abs.mem pt1 j).addr else none := by
      subst hpt1
      exact nextTable_plain (h.plainTable i hv hin j)
    simp only [if_true,bind_some,hnext]
    cases hvj : (s.abs.mem pt1 j).v with
    | false => simp [AddressSpace.follow,hvj]
    | true =>
      have hin' : (s.abs.mem pt1 j).addr ∈ s.space.tables := by
        subst hpt1
        exact h.next hv hin hvj
      rw [view_follow.mpr ⟨hvj,rfl,hin',rfl⟩]
      generalize (s.abs.mem pt1 j).addr = pt0
      have hentry : s.abs.mem pt0 k = toEntry (s.mem pt0 k) := rfl
      simp only [if_true,hentry]
      change (if EntryWord.v (s.mem pt0 k) then _ else none) =
        Option.map _ (if EntryWord.v (s.mem pt0 k) then _ else none)
      cases EntryWord.v (s.mem pt0 k) with
      | false => rfl
      | true =>
        simp only [if_true,map_some,← toNat_addr,ofNat_toNat]
        rfl

end

/-- A page-aligned address whose upper bits extend bit 38. -/
structure IsVirtualPage (va : Word) : Prop where
  offset : getField va 0 11 = 0
  canonical : (va.setWidth 39).signExtend 64 = va

/-- A page-aligned address of 56 bits. -/
def IsPhysicalPage (pa : Word) : Prop := pa.toNat % pageSize = 0 ∧ pa.toNat < 2 ^ 56

instance (pa : Word) : Decidable (IsPhysicalPage pa) := inferInstanceAs (Decidable (_ ∧ _))

theorem IsPhysicalPage.ofNat_ppn {pa : Word} (h : IsPhysicalPage pa) :
    BitVec.ofNat 64 (Athera.ppn pa.toNat*pageSize) = pa := by
  obtain ⟨hoff,hlt⟩ := h
  apply eq_of_toNat_eq
  rw [toNat_ofNat,Athera.ppn]
  simp only [pageSize] at hoff ⊢
  omega

theorem IsVirtualPage.eq_of_vpn {va va' : Word} (h : IsVirtualPage va) (h' : IsVirtualPage va')
    (h2 : Athera.vpn2 va'.toNat = Athera.vpn2 va.toNat)
    (h1 : Athera.vpn1 va'.toNat = Athera.vpn1 va.toNat)
    (h0 : Athera.vpn0 va'.toNat = Athera.vpn0 va.toNat) : va' = va := by
  rw [← toNat_vpn2,← toNat_vpn2] at h2
  rw [← toNat_vpn1,← toNat_vpn1] at h1
  rw [← toNat_vpn0,← toNat_vpn0] at h0
  have hoff := h'.offset.trans h.offset.symm
  have hlow : va'.setWidth 39 = va.setWidth 39 := by
    apply eq_of_getLsbD_eq
    intro i hi
    rw [getLsbD_setWidth,getLsbD_setWidth]
    congr 1
    by_cases hi0 : i ≤ 11
    · exact getLsbD_of_getField_eq (by decide) hoff (by omega) hi0
    by_cases hi1 : i ≤ 20
    · exact getLsbD_of_getField_eq (by decide) (eq_of_toNat_eq h0) (by omega) hi1
    by_cases hi2 : i ≤ 29
    · exact getLsbD_of_getField_eq (by decide) (eq_of_toNat_eq h1) (by omega) hi2
    · exact getLsbD_of_getField_eq (by decide) (eq_of_toNat_eq h2) (by omega) (by omega)
  rw [← h'.canonical,hlow,h.canonical]

inductive Op where
  | map (va pa flags : Word) (pool : List Nat)
  | unmap (va : Word)

def new (mem : Nat → Nat → Word) (root : Nat) : WordState :=
  ⟨update mem root fun _ => 0,⟨root,[]⟩,[]⟩

def withPool (s : WordState) (pool : List Nat) : WordState := { s with pool := pool }

/-- A failed `map` keeps the tables it has linked. -/
def step (s : WordState) : Op → Option WordState
  | .map va pa flags pool => (map va pa flags (s.withPool pool)).state
  | .unmap va => some (s.unmap va)

/-- The allocator gives out pages that the space does not have. -/
def FreshPages (s : WordState) : Op → Prop
  | .map _ _ _ pool => FreshPool .empty s.space pool
  | .unmap _ => True

def Ok (s : WordState) : Prop := SpaceOk s.abs.mem .empty s.space

variable {s s' : WordState} {va pa flags : Word} {pool : List Nat}

theorem ok_new (mem : Nat → Nat → Word) (root : Nat) : (new mem root).Ok := by
  apply SpaceOk.of_empty
  funext i
  simp only [abs,new,update_self]
  exact toEntry_zero

section

variable (h : s.Ok) (hpool : FreshPool .empty s.space pool)
include h hpool

theorem Ok.inv : SpaceInv .empty (s.withPool pool).abs := ⟨h,hpool⟩

theorem Ok.map_ok (hmap : map va pa flags (s.withPool pool) = .ok () s') : s'.Ok ∧ ∀ i j k,
      (s'.space.view s'.abs.mem).entryAt i j k =
        if i = Athera.vpn2 va.toNat ∧ j = Athera.vpn1 va.toNat ∧ k = Athera.vpn0 va.toNat then
          some ⟨true,flagsOf flags,Athera.ppn pa.toNat⟩
        else (s.space.view s.abs.mem).entryAt i j k := by
  have hspec := space_map_spec (h.inv hpool) va.toNat pa.toNat (flagsOf flags)
  obtain ⟨hinv,_,hentries⟩ := wp_of_ok hspec ((map_simulates va pa flags).of_ok hmap)
  exact ⟨hinv.ok,hentries⟩

theorem Ok.map_err {e : MemError}
    (hmap : map va pa flags (s.withPool pool) = .err e s') : s'.Ok ∧ ∀ i j k,
      (s'.space.view s'.abs.mem).entryAt i j k = (s.space.view s.abs.mem).entryAt i j k := by
  have hspec := space_map_spec (h.inv hpool) va.toNat pa.toNat (flagsOf flags)
  obtain ⟨hinv,_,hkept⟩ := wp_of_err hspec ((map_simulates va pa flags).of_err hmap)
  exact ⟨hinv.ok,hkept⟩

end

theorem unmap_withPool (s : WordState) (pool : List Nat) (va : Word) :
    (s.withPool pool).unmap va = (s.unmap va).withPool pool := by
  have hite := fun (c : Prop) [Decidable c] (t t' : WordState) =>
    apply_ite (fun t : WordState => t.withPool pool) c t t'
  unfold unmap
  rw [hite,hite]
  rfl

theorem Ok.unmap (h : s.Ok) (va : Word) : (s.unmap va).Ok ∧ ∀ i j k,
    ((s.unmap va).space.view (s.unmap va).abs.mem).entryAt i j k =
      if i = Athera.vpn2 va.toNat ∧ j = Athera.vpn1 va.toNat ∧ k = Athera.vpn0 va.toNat then none
      else (s.space.view s.abs.mem).entryAt i j k := by
  have hfresh : FreshPool .empty s.space [] := by
    refine ⟨List.nodup_nil,?_,?_,?_⟩ <;> exact fun a ha => nomatch ha
  have hspec := space_unmap_spec (h.inv hfresh) va.toNat
  rw [← abs_unmap,unmap_withPool] at hspec
  exact ⟨hspec.1.ok,hspec.2.2⟩

theorem step_ok {op : Op} (h : s.Ok) (hfresh : s.FreshPages op) (hstep : step s op = some s') : s'.Ok := by
  cases op with
  | map va pa flags pool =>
    change (map va pa flags (s.withPool pool)).state = some s' at hstep
    cases hmap : map va pa flags (s.withPool pool) with
    | ok _ t =>
      rw [hmap] at hstep
      exact some.inj hstep ▸ (h.map_ok hfresh hmap).1
    | err e t =>
      rw [hmap] at hstep
      exact some.inj hstep ▸ (h.map_err hfresh hmap).1
    | panic =>
      rw [hmap] at hstep
      cases hstep
  | unmap va => exact some.inj hstep ▸ (h.unmap va).1

/-- After a run from an empty root, `map` makes the walk of its page find the physical page with
the flags, `unmap` makes it find nothing, and the walks of other pages stay; a failed `map` changes
no walk. -/
theorem page_table_updates_exact {mem : Nat → Nat → Word} {root : Nat} {ops : List Op}
    (hfresh : EachStep step FreshPages ops (new mem root)) (hrun : run step ops (new mem root) = some s)
    (hva : IsVirtualPage va) (hpa : IsPhysicalPage pa) (flags : Word)
    (hpool : FreshPool .empty s.space pool) :
    (∀ s', map va pa flags (s.withPool pool) = .ok () s' →
      s'.walk va = some (pa, flagsOf flags) ∧
      ∀ va', IsVirtualPage va' → va' ≠ va → s'.walk va' = s.walk va') ∧
    (∀ e s', map va pa flags (s.withPool pool) = .err e s' → ∀ va', s'.walk va' = s.walk va') ∧
    (s.unmap va).walk va = none ∧
    ∀ va', IsVirtualPage va' → va' ≠ va → (s.unmap va).walk va' = s.walk va' := by
  have hok : s.Ok := run_invariant_of (fun _ _ _ => step_ok) (ok_new mem root) hfresh hrun
  have hother : ∀ va', IsVirtualPage va' → va' ≠ va → ¬ (Athera.vpn2 va'.toNat = Athera.vpn2 va.toNat ∧
      Athera.vpn1 va'.toNat = Athera.vpn1 va.toNat ∧ Athera.vpn0 va'.toNat = Athera.vpn0 va.toNat) :=
    fun va' hva' hne heq => hne (hva.eq_of_vpn hva' heq.1 heq.2.1 heq.2.2)
  refine ⟨?_,?_,?_,?_⟩
  · intro s' hmap
    obtain ⟨hok',hentries⟩ := hok.map_ok hpool hmap
    refine ⟨?_,?_⟩
    · rw [walk_eq hok',hentries,if_pos ⟨rfl,rfl,rfl⟩,map_some,PageTableEntry.addr,hpa.ofNat_ppn]
    · intro va' hva' hne
      rw [walk_eq hok',hentries,if_neg (hother va' hva' hne),walk_eq hok]
  · intro e s' hmap va'
    obtain ⟨hok',hentries⟩ := hok.map_err hpool hmap
    rw [walk_eq hok',hentries,walk_eq hok]
  · obtain ⟨hok',hentries⟩ := hok.unmap va
    rw [walk_eq hok',hentries,if_pos ⟨rfl,rfl,rfl⟩]
    rfl
  · intro va' hva' hne
    obtain ⟨hok',hentries⟩ := hok.unmap va
    rw [walk_eq hok',hentries,if_neg (hother va' hva' hne),walk_eq hok]

theorem freshPool_empty {sp : Space} (hnodup : pool.Nodup) (hapart : ∀ a ∈ pool, a ∉ sp.owned)
    (hwhole : ∀ a ∈ pool, Athera.ppn a*pageSize = a) : FreshPool .empty sp pool :=
  ⟨hnodup,hapart,fun _ _ _ hv => absurd hv (by simp [PageTable.empty,PageTableEntry.new]),hwhole⟩

/-- A page of the lower half is mapped first. -/
def lowOps : List Op := [.map 0x1000 0x80000000 0b1111 [0x2000,0x3000]]

/-- Then a page of the upper half is mapped. -/
theorem page_table_updates_exact_two : ∃ s s', run step lowOps (new (fun _ _ => 0) 0x1000) = some s ∧
    map 0xffffffffc0000000 0x80001000 0b10011 (s.withPool [0x4000,0x5000]) = .ok () s' ∧
    s'.walk 0xffffffffc0000000 = some (0x80001000, flagsOf 0b10011) ∧
    s'.walk 0x1000 = s.walk 0x1000 ∧ (s.unmap 0xffffffffc0000000).walk 0x1000 = s.walk 0x1000 := by
  have hvalues : (run step lowOps (new (fun _ _ => 0) 0x1000)).map (fun s => (s.space,
      (map 0xffffffffc0000000 0x80001000 0b10011 (s.withPool [0x4000,0x5000])).result)) =
      some (⟨0x1000,[0x2000,0x3000]⟩, some (.ok ())) := by decide
  obtain ⟨s,hrun,hs⟩ := map_eq_some_iff.mp hvalues
  obtain ⟨hspace,hresult⟩ := Prod.mk.inj hs
  obtain ⟨s',hmap,_⟩ := Outcome.exists_ok hresult
  have hfirst : EachStep step FreshPages lowOps (new (fun _ _ => 0) 0x1000) :=
    ⟨freshPool_empty (by decide) (by decide) (by decide),fun _ _ => trivial⟩
  have hpool : FreshPool .empty s.space [0x4000,0x5000] := by
    rw [hspace]
    exact freshPool_empty (by decide) (by decide) (by decide)
  have hhigh : IsVirtualPage 0xffffffffc0000000 := ⟨by decide,by decide⟩
  have hlow : IsVirtualPage 0x1000 := ⟨by decide,by decide⟩
  have hpa : IsPhysicalPage 0x80001000 := by decide
  have hexact := page_table_updates_exact hfirst hrun hhigh hpa 0b10011 hpool
  obtain ⟨hwalk,hother⟩ := hexact.1 s' hmap
  exact ⟨s,s',hrun,hmap,hwalk,hother 0x1000 hlow (by decide),
    hexact.2.2.2 0x1000 hlow (by decide)⟩

end WordState

end Athera
