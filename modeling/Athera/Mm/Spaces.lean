import Athera.Framework.Action
import Athera.Mm.MemorySet

/-!
# Address spaces in physical memory

`mm/page_table.rs` with the tables at their physical addresses: a walk may pass through tables of
another address space, while `map` and `unmap` look a table up among their own.
-/

namespace Athera

open Framework Action Function

/-- The table at each page of the physical memory, as far as it is used as one. -/
abbrev TableMemory := Nat → PageTable

def pteNumber : Nat := 512

structure Space where
  root : Nat
  tables : List Nat
deriving DecidableEq, Repr

def Space.owned (sp : Space) : List Nat := sp.root :: sp.tables

def Space.view (sp : Space) (mem : TableMemory) : AddressSpace :=
  ⟨mem sp.root,fun a => if a ∈ sp.tables then some (mem a) else none⟩

/-- The space an operation works on. `pool` holds the addresses that `PageTableHandle::create`
is going to return; without one it fails. -/
structure SpaceState where
  mem : TableMemory
  space : Space
  pool : List Nat

namespace SpaceState

def create (s : SpaceState) : Option (Nat × SpaceState) :=
  match s.pool with
  | [] => none
  | addr :: pool => some (addr, { s with mem := update s.mem addr .empty, pool := pool })

def writeEntry (s : SpaceState) (table i : Nat) (e : PageTableEntry) : SpaceState :=
  { s with mem := update s.mem table (update (s.mem table) i e) }

def link (s : SpaceState) (table i addr : Nat) : SpaceState :=
  { s.writeEntry table i { s.mem table i with v := true, ppn := ppn addr } with
    space := ⟨s.space.root,s.space.tables.orderedInsert (· ≤ ·) addr⟩ }

/-- The entry `i` of a table, which gets a new table to point to if it is not valid. -/
def ensure (table i : Nat) : Action MemError SpaceState Nat := fun s =>
  if (s.mem table i).v then .ok (s.mem table i).addr s
  else
    match s.create with
    | none => .err .outOfMemory s
    | some (addr, s) => .ok ((s.link table i addr).mem table i).addr (s.link table i addr)

def ownTable (addr : Nat) : Action MemError SpaceState Unit := fun s =>
  if addr ∈ s.space.tables then .ok () s else .err .pageTableMissing s

def map (va pa : Nat) (flags : PageFlags) : Action MemError SpaceState Unit := do
  let s ← get
  let pt1 ← ensure s.space.root (vpn2 va)
  ownTable pt1
  let pt0 ← ensure pt1 (vpn1 va)
  ownTable pt0
  modify fun s => s.writeEntry pt0 (vpn0 va) ⟨true,flags,ppn pa⟩

def unmap (s : SpaceState) (va : Nat) : SpaceState :=
  let pte2 := s.mem s.space.root (vpn2 va)
  if pte2.v ∧ pte2.addr ∈ s.space.tables then
    let pte1 := s.mem pte2.addr (vpn1 va)
    if pte1.v ∧ pte1.addr ∈ s.space.tables then s.writeEntry pte1.addr (vpn0 va) .new else s
  else s

end SpaceState

def copyLowHalf (source target : PageTable) : PageTable := fun i =>
  if i < 256 then source i else target i

def copyHighHalf (source target : PageTable) : PageTable := fun i =>
  if 256 ≤ i ∧ i < pteNumber then source i else target i

def copyFrom (source target : PageTable) : PageTable :=
  copyHighHalf source (copyLowHalf source target)

/-- Copies of the tables, with the old and the new address of each. Without a page for one of
them the copies made so far are given up. -/
def copyTables (mem : TableMemory) : List Nat → List Nat →
    Option (List (Nat × Nat)) × TableMemory × List Nat
  | [], pool => (some [], mem, pool)
  | _ :: _, [] => (none, mem, [])
  | old :: olds, new :: pool =>
    let mem := update mem new .empty
    let mem := update mem new (copyFrom (mem old) (mem new))
    match copyTables mem olds pool with
    | (remap, mem, pool) => (remap.map ((old, new) :: ·), mem, pool)

/-- Entries of the source that lead to a copied table lead to the copy instead. -/
def retarget (remap : List (Nat × Nat)) (source copy : PageTable) : PageTable := fun i =>
  if i < pteNumber then
    match remap.lookup (source i).addr with
    | some addr => { copy i with ppn := ppn addr }
    | none => copy i
  else copy i

def retargetTables (remap : List (Nat × Nat)) (mem : TableMemory) : List (Nat × Nat) → TableMemory
  | [] => mem
  | (old, new) :: rest =>
    retargetTables remap (update mem new (retarget remap (mem old) (mem new))) rest

def Space.tryClone (sp : Space) (mem : TableMemory) (pool : List Nat) :
    Except MemError Space × TableMemory × List Nat :=
  match pool with
  | [] => (.error .outOfMemory, mem, [])
  | root :: pool =>
    let mem := update mem root .empty
    let mem := update mem root (copyFrom (mem sp.root) (mem root))
    match copyTables mem sp.tables pool with
    | (none, mem, pool) => (.error .outOfMemory, mem, pool)
    | (some remap, mem, pool) =>
      let mem := update mem root (retarget remap (mem sp.root) (mem root))
      (.ok ⟨root,(remap.map Prod.snd).insertionSort (· ≤ ·)⟩, retargetTables remap mem remap, pool)

def vpnAt (va : Nat) : Nat → Nat
  | 0 => vpn0 va
  | 1 => vpn1 va
  | _ => vpn2 va

def PageTableEntry.faults (e : PageTableEntry) : Bool := !e.v || (!e.flags.r && e.flags.w)

def PageTableEntry.isLeaf (e : PageTableEntry) : Bool := e.flags.r || e.flags.x

/-- The walk of the hardware from a table of the given level: the leaf and its level. -/
def walkFrom (mem : TableMemory) (va : Nat) : Nat → Nat → Option (PageTableEntry × Nat)
  | 0, table =>
    let e := mem table (vpnAt va 0)
    if e.faults then none else if e.isLeaf then some (e, 0) else none
  | level + 1, table =>
    let e := mem table (vpnAt va (level + 1))
    if e.faults then none
    else if e.isLeaf then some (e, level + 1)
    else walkFrom mem va level e.addr

/-- The bytes a leaf of the level covers. -/
def leafSize (level : Nat) : Nat := 2 ^ (12 + 9 * level)

/-- The physical address and the flags behind a virtual address; a misaligned large page
faults. -/
def translate (mem : TableMemory) (root va : Nat) : Option (Nat × PageFlags) :=
  (walkFrom mem va 2 root).bind fun r =>
    if r.1.addr % leafSize r.2 = 0 then some (r.1.addr + va % leafSize r.2, r.1.flags) else none

end Athera
