import Athera.Mm.Frame

/-!
# The slub allocator

`mm/allocator/slub.rs` on one hart. The headers of the slub pages and the links of all lists are
words of the memory, a header in the order of its declaration.
-/

namespace Athera

open Framework FrameAllocator

/-- `core::alloc::Layout` with the conditions its constructor checks. -/
structure Layout where
  size : Nat
  align : Nat
  pow : ∃ k < 64, align = 2 ^ k
  fits : (size + align - 1) / align * align < 2 ^ 63
deriving DecidableEq

/-- The trailing zeros of the next power of two. -/
def layoutOrder (layout : Layout) : Nat :=
  ilog2Ceil (max (max layout.size layout.align) (1 <<< slubMinOrder))

structure SlubHeap (σ : Type) where
  alloc : σ
  mem : Memory

namespace SlubPage

/-- `size_of::<SlubPage>()`. -/
def headerSize : Nat := 48

def pageSizeField : Nat := 0
def nextField : Nat := 8
def freeListField : Nat := 16
def inuseField : Nat := 24
def objectsField : Nat := 32
def pageStartField : Nat := 40

def field (m : Memory) (page offset : Nat) : Nat := m.readWord (page + offset)

def setField (m : Memory) (page offset w : Nat) : Memory := m.writeWord (page + offset) w

def isFull (m : Memory) (page : Nat) : Bool := field m page inuseField == field m page objectsField

def isEmpty (m : Memory) (page : Nat) : Bool := field m page inuseField == 0

def startOffset (objectSize : Nat) : Nat := align headerSize objectSize

/-- Double the page until it holds one object; `fuel` bounds the doublings. -/
def growTo (minPageSize : Nat) : Nat → Nat → Nat
  | 0, size => size
  | fuel + 1, size => if size < minPageSize then growTo minPageSize fuel (size * 2) else size

def pageSizeFor (objectSize : Nat) : Nat :=
  let size := growTo (startOffset objectSize + objectSize) 64 pageSize
  if size / objectSize < slubMinObjects ∧ size < slubMaxPageSize ∧ 2 ≤ size * 2 / objectSize then
    size * 2
  else size

/-- `self.free_list.push(item)`. -/
def pushFree (m : Memory) (page item : Nat) : Option Memory := do
  let (l, m) ← (IntrusiveList.mk (field m page freeListField)).push m item
  return setField m page freeListField l.next

/-- Put the objects from `pos` on into the free list, and count them. -/
def carve (page objectSize stop : Nat) : Nat → Nat → Nat → Memory → Option (Nat × Memory)
  | 0, _, count, m => some (count, m)
  | fuel + 1, pos, count, m =>
    if pos + objectSize ≤ stop then do
      let m ← pushFree m page pos
      carve page objectSize stop fuel (pos + objectSize) (count + 1) m
    else some (count, m)

def writeHeader (m : Memory) (page size : Nat) : Memory :=
  let m := setField m page pageSizeField size
  let m := setField m page nextField 0
  let m := setField m page freeListField 0
  let m := setField m page inuseField 0
  let m := setField m page objectsField 0
  setField m page pageStartField page

def allocObj (m : Memory) (page : Nat) : Option Nat × Memory :=
  match (IntrusiveList.mk (field m page freeListField)).pop m with
  | (none, _) => (none, m)
  | (some p, l) =>
    let m := setField m page freeListField l.next
    (some p, setField m page inuseField (field m page inuseField + 1))

/-- The count wraps below zero. -/
def deallocObj (m : Memory) (page ptr : Nat) : Option Memory := do
  let m ← pushFree m page ptr
  return setField m page inuseField (field m page inuseField + (wordRange - 1))

def contains (m : Memory) (ptr page : Nat) : Bool :=
  decide (field m page pageStartField ≤ ptr ∧
    ptr < field m page pageStartField + field m page pageSizeField)

end SlubPage

structure SlubPageList where
  head : Nat
deriving DecidableEq, Repr

namespace SlubPageList

open SlubPage

def new : SlubPageList := ⟨0⟩

section

variable (l : SlubPageList)

def isEmpty : Bool := l.head == 0

def push (m : Memory) (node : Nat) : SlubPageList × Memory :=
  (⟨node⟩, setField m node nextField l.head)

def pop (m : Memory) : Option Nat × SlubPageList :=
  if l.isEmpty then (none, l) else (some l.head, ⟨field m l.head nextField⟩)

/-- A list without a cycle has fewer nodes than there are addresses. -/
def remove (m : Memory) (item : Nat) : Option (Bool × SlubPageList × Memory) :=
  if l.head = 0 then some (false, l, m)
  else if l.head = item then some (true, ⟨field m l.head nextField⟩, m)
  else do
    let (found, m') ← removeAfter nextField m item wordRange l.head
    return (found, l, m')

def iter (m : Memory) : List Nat := iterFrom nextField m wordRange l.head

end

end SlubPageList

structure Cache where
  objectsSize : Nat
  partialSlubs : SlubPageList
  fullSlubs : SlubPageList

/-- `SlowCaches`: one cache for each object size. -/
abbrev SlowCaches := Nat → Cache

structure Caches where
  cpuCaches : SlowCaches
  slowCaches : SlowCaches

variable {σ : Type} [FrameAllocator σ]

def SlubPage.new (objectSize : Nat) (h : SlubHeap σ) : Option (Option Nat × SlubHeap σ) :=
  let size := pageSizeFor objectSize
  match FrameAllocator.allocFrame h.alloc h.mem size with
  | (none, alloc, m) => some (none, ⟨alloc,m⟩)
  | (some page, alloc, m) => do
    let (count, m) ← carve page objectSize (page + size) size (page + startOffset objectSize) 0
      (writeHeader m page size)
    return (some page, ⟨alloc,setField m page objectsField count⟩)

/-- The frame allocator has no frame for a page of such objects. -/
def SlubPage.Refuses (h : SlubHeap σ) (objectSize : Nat) : Prop :=
  (FrameAllocator.allocFrame h.alloc h.mem (pageSizeFor objectSize)).1 = none

namespace Cache

def new (objectsSize : Nat) : Cache := ⟨objectsSize,.new,.new⟩

def alloc (c : Cache) (h : SlubHeap σ) : Option (Option Nat × Cache × SlubHeap σ) :=
  if !c.partialSlubs.isEmpty then
    let page := c.partialSlubs.head
    match SlubPage.allocObj h.mem page with
    | (none, m) => some (none, c, { h with mem := m })
    | (some ptr, m) =>
      if SlubPage.isFull m page then
        match c.partialSlubs.pop m with
        | (none, _) => some (none, c, { h with mem := m })
        | (some node, partialSlubs) =>
          let (fullSlubs, m) := c.fullSlubs.push m node
          some (some ptr, ⟨c.objectsSize,partialSlubs,fullSlubs⟩, { h with mem := m })
      else some (some ptr, c, { h with mem := m })
  else do
    let (page, h) ← SlubPage.new c.objectsSize h
    match page with
    | none => return (none, c, h)
    | some page =>
      match SlubPage.allocObj h.mem page with
      | (none, m) => return (none, c, { h with mem := m })
      | (some ptr, m) =>
        let (partialSlubs, m) := c.partialSlubs.push m page
        return (some ptr, { c with partialSlubs := partialSlubs }, { h with mem := m })

def dealloc (c : Cache) (ptr : Nat) (h : SlubHeap σ) : Option (Bool × Cache × SlubHeap σ) :=
  match (c.fullSlubs.iter h.mem).find? (SlubPage.contains h.mem ptr) with
  | some page => do
    let m ← SlubPage.deallocObj h.mem page ptr
    let (_, fullSlubs, m) ← c.fullSlubs.remove m page
    let (partialSlubs, m) := c.partialSlubs.push m page
    return (true, ⟨c.objectsSize,partialSlubs,fullSlubs⟩, { h with mem := m })
  | none =>
    match (c.partialSlubs.iter h.mem).find? (SlubPage.contains h.mem ptr) with
    | none => some (false, c, h)
    | some page => do
      let m ← SlubPage.deallocObj h.mem page ptr
      if SlubPage.isEmpty m page then
        let (_, partialSlubs, m) ← c.partialSlubs.remove m page
        let (alloc, m) := deallocFrame h.alloc m page
          (SlubPage.field m page SlubPage.pageSizeField)
        return (true, { c with partialSlubs := partialSlubs }, ⟨alloc,m⟩)
      else return (true, c, { h with mem := m })

end Cache

namespace SlowCaches

def new : SlowCaches := fun i => Cache.new (2 ^ (i + slubMinOrder))

/-- The null pointer stands for failure. -/
def alloc (cs : SlowCaches) (layout : Layout) (h : SlubHeap σ) :
    Option (Nat × SlowCaches × SlubHeap σ) :=
  let order := layoutOrder layout
  if slubMaxOrder ≤ order then
    match FrameAllocator.allocFrame h.alloc h.mem (1 <<< order) with
    | (ptr, alloc, m) => some (ptr.getD 0, cs, ⟨alloc,m⟩)
  else do
    let index := order - slubMinOrder
    let (ptr, c, h) ← (cs index).alloc h
    return (ptr.getD 0, Function.update cs index c, h)

def dealloc (cs : SlowCaches) (ptr : Nat) (layout : Layout) (h : SlubHeap σ) :
    Option (Bool × SlowCaches × SlubHeap σ) :=
  let order := layoutOrder layout
  if slubMaxOrder ≤ order then
    match deallocFrame h.alloc h.mem ptr (1 <<< order) with
    | (alloc, m) => some (true, cs, ⟨alloc,m⟩)
  else do
    let index := order - slubMinOrder
    let (found, c, h) ← (cs index).dealloc ptr h
    return (found, Function.update cs index c, h)

end SlowCaches

namespace Caches

def new : Caches := ⟨.new,.new⟩

def alloc (cs : Caches) (layout : Layout) (h : SlubHeap σ) : Option (Nat × Caches × SlubHeap σ) :=
  do
  let (ptr, cpuCaches, h) ← cs.cpuCaches.alloc layout h
  if ptr ≠ 0 then return (ptr, { cs with cpuCaches := cpuCaches }, h)
  else
    let (ptr, slowCaches, h) ← cs.slowCaches.alloc layout h
    return (ptr, ⟨cpuCaches,slowCaches⟩, h)

def dealloc (cs : Caches) (ptr : Nat) (layout : Layout) (h : SlubHeap σ) :
    Option (Caches × SlubHeap σ) := do
  let (found, cpuCaches, h) ← cs.cpuCaches.dealloc ptr layout h
  if found then return ({ cs with cpuCaches := cpuCaches }, h)
  else
    let (_, slowCaches, h) ← cs.slowCaches.dealloc ptr layout h
    return (⟨cpuCaches,slowCaches⟩, h)

end Caches

end Athera
