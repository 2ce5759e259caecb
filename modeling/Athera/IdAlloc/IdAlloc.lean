import Athera.Framework.Answers
import Athera.IdAlloc.FlatAlloc

/-!
# Two-level identifiers

`IdAlloc` of `athera-id-alloc` has a flat allocator for the whole range and one for each block that
is reserved as a major number.
-/

namespace Athera

open Framework

structure IdAlloc where
  flat : FlatAlloc
  majors : SortedMap FlatAlloc

inductive IdOp where
  | alloc
  | allocAt (id : Nat)
  | dealloc (id : Nat)
  | allocMajor
  | allocMajorAt (base : Nat)
  | allocMinor (major : Nat)
  | deallocMajor (base : Nat)
  | reset
  | isAllocated (id : Nat)
  | contains (id : Nat)
  | used
  | available
  | size
  | isFull
  | isEmpty
deriving DecidableEq, Repr

inductive IdAnswer where
  | id (x : Option Nat)
  | result (r : Except IdAllocError Unit)
  | base (r : Except IdAllocError Nat)
  | flag (b : Bool)
  | number (n : Nat)
  | done
  | panic

def IdOp.grant : IdOp → IdAnswer → Option Nat
  | .alloc, .id x => x
  | .allocMinor _, .id x => x
  | .allocAt id, .result (.ok ()) => some id
  | _, _ => none

namespace IdAlloc

variable (w N : Nat)

def new : IdAlloc := ⟨.new 0 0,.empty⟩

def validateRange (start : Nat) : Except IdAllocError Unit :=
  if w ≤ N then .error .outOfRange
  else if start &&& Id.lowMask N ≠ 0 then .error .notAligned
  else .ok ()

def fromRange (start stop : Nat) : Except IdAllocError IdAlloc :=
  match validateRange w N start with
  | .error e => .error e
  | .ok () => .ok ⟨.new start stop,.empty⟩

section

variable (a : IdAlloc)

def init (start stop : Nat) : Outcome IdAllocError IdAlloc Unit :=
  match validateRange w N start with
  | .error e => .err e a
  | .ok () => .ok () ⟨a.flat.reset start stop,.empty⟩

/-- The number behind a block. -/
def blockEnd (base : Nat) : Nat := Id.fromBits w ((base + Id.blockSize N) % 2 ^ 128)

def tokenBase (id : Nat) : Nat := Id.fromBits w (Id.clearLow N id)

def size : Nat := a.flat.size

def used : Nat := a.flat.used + (a.majors.entries.map fun e => e.2.used).sum

def available : Nat :=
  a.flat.available + (a.majors.entries.map fun e => e.2.available).sum

def isFull : Bool := a.available == 0

def isEmpty : Bool := a.used == 0

def contains (id : Nat) : Bool := a.flat.contains id

def isAllocated (id : Nat) : Bool :=
  if a.flat.contains id = false then false
  else
    match a.majors.get? (tokenBase w N id) with
    | some slot => slot.isAllocated id
    | none => a.flat.isAllocated id

def reset : IdAlloc := ⟨a.flat.reset a.flat.start a.flat.stop,.empty⟩

def alloc : Option Nat × IdAlloc :=
  ((a.flat.alloc w).1, { a with flat := (a.flat.alloc w).2 })

end

/-- The outcome of an operation on a part of the allocator. -/
def within (place : FlatAlloc → IdAlloc) :
    Outcome IdAllocError FlatAlloc Unit → Outcome IdAllocError IdAlloc Unit
  | .ok () f => .ok () (place f)
  | .err e f => .err e (place f)
  | .panic => .panic

/-- `alloc_at` and `dealloc` go to the reserved block of the identifier or to the flat allocator. -/
def route (op : FlatAlloc → Outcome IdAllocError FlatAlloc Unit) (a : IdAlloc) (id : Nat) :
    Outcome IdAllocError IdAlloc Unit :=
  if a.flat.contains id = false then .err .outOfRange a
  else
    let base := tokenBase w N id
    match a.majors.get? base with
    | some slot => within (fun f => { a with majors := a.majors.modify base fun _ => f }) (op slot)
    | none => within (fun f => { a with flat := f }) (op a.flat)

section

variable (a : IdAlloc)

def allocAt (id : Nat) : Outcome IdAllocError IdAlloc Unit :=
  route w N (FlatAlloc.allocAt w · id) a id

def dealloc (id : Nat) : Outcome IdAllocError IdAlloc Unit :=
  route w N (FlatAlloc.dealloc w · id) a id

def allocMajor : Outcome IdAllocError IdAlloc (Option Nat) :=
  match a.flat.findAlignedBlock w N with
  | none => .ok none a
  | some base =>
    let stop := blockEnd w N base
    match a.flat.carve base stop with
    | .ok () flat => .ok (some base) ⟨flat,a.majors.insert base (.new base stop)⟩
    | _ => .panic

def allocMajorAt (base : Nat) : Outcome IdAllocError IdAlloc Nat :=
  if base &&& Id.lowMask N ≠ 0 then .err .notAligned a
  else if a.flat.contains base = false then .err .outOfRange a
  else
    let endBits := (base + Id.blockSize N) % 2 ^ 128
    if endBits = 0 ∨ a.flat.stop < endBits then .err .outOfRange a
    else if (a.majors.get? base).isSome then .err .alreadyAllocated a
    else
      let stop := Id.fromBits w endBits
      match a.flat.carve base stop with
      | .ok () flat => .ok base ⟨flat,a.majors.insert base (.new base stop)⟩
      | .err e flat => .err e { a with flat := flat }
      | .panic => .panic

def allocMinor (major : Nat) : Option Nat × IdAlloc :=
  match a.majors.get? major with
  | none => (none, a)
  | some slot =>
    ((slot.alloc w).1, { a with majors := a.majors.modify major fun _ => (slot.alloc w).2 })

def deallocMajor (base : Nat) : Outcome IdAllocError IdAlloc Unit :=
  match a.majors.get? base with
  | none => .err .majorNotFound a
  | some _ => .ok () ⟨a.flat.returnRange base (blockEnd w N base),a.majors.erase base⟩

end

/-- What the caller sees of an outcome; a panic ends everything. -/
def settle {α : Type} (a : IdAlloc) (answer : Except IdAllocError α → IdAnswer) :
    Outcome IdAllocError IdAlloc α → IdAnswer × IdAlloc
  | .ok x a' => (answer (.ok x), a')
  | .err e a' => (answer (.error e), a')
  | .panic => (.panic, a)

def step (a : IdAlloc) : IdOp → IdAnswer × IdAlloc
  | .alloc => (.id (a.alloc w).1, (a.alloc w).2)
  | .allocAt id => settle a .result (a.allocAt w N id)
  | .dealloc id => settle a .result (a.dealloc w N id)
  | .allocMajor => settle a (fun r => .id (r.toOption.getD none)) (a.allocMajor w N)
  | .allocMajorAt base => settle a .base (a.allocMajorAt w N base)
  | .allocMinor major => (.id (a.allocMinor w major).1, (a.allocMinor w major).2)
  | .deallocMajor base => settle a .result (a.deallocMajor w N base)
  | .reset => (.done, a.reset)
  | .isAllocated id => (.flag (a.isAllocated w N id), a)
  | .contains id => (.flag (a.contains id), a)
  | .used => (.number a.used, a)
  | .available => (.number a.available, a)
  | .size => (.number a.size, a)
  | .isFull => (.flag a.isFull, a)
  | .isEmpty => (.flag a.isEmpty, a)

end IdAlloc

/-- A range of identifiers of an unsigned type, and the size of its blocks. -/
structure IdSpace where
  bits : Nat
  minorBits : Nat
  start : Nat
  stop : Nat
  width : bits ≤ 64
  minor : minorBits < bits
  aligned : start % 2 ^ minorBits = 0
  ordered : start ≤ stop
  top : stop < 2 ^ bits

/-- The identifiers that are allocated, and the bases of the reserved blocks. -/
structure IdSet where
  allocated : Finset Nat
  reserved : Finset Nat

namespace IdSpace

variable (p : IdSpace) (s : IdSet)

def range : Finset Nat := Finset.Ico p.start p.stop

def base (id : Nat) : Nat := id / 2 ^ p.minorBits * 2 ^ p.minorBits

def block (b : Nat) : Finset Nat := Finset.Ico b (b + 2 ^ p.minorBits)

def free : Finset Nat := (p.range \ s.allocated).filter fun id => p.base id ∉ s.reserved

def minors (b : Nat) : Finset Nat := p.block b \ s.allocated

def openBlocks : Finset Nat := p.range.filter fun b => b % 2 ^ p.minorBits = 0 ∧ p.block b ⊆ p.free s

def grantLeast (F : Finset Nat) : IdAnswer × IdSet :=
  match least F with
  | none => (.id none, s)
  | some id => (.id (some id), { s with allocated := insert id s.allocated })

def step : IdOp → IdAnswer × IdSet
  | .alloc => grantLeast s (p.free s)
  | .allocAt id =>
    if id ∉ p.range then (.result (.error .outOfRange), s)
    else if id ∈ s.allocated then (.result (.error .alreadyAllocated), s)
    else (.result (.ok ()), { s with allocated := insert id s.allocated })
  | .dealloc id =>
    if id ∉ p.range then (.result (.error .outOfRange), s)
    else if id ∉ s.allocated then (.result (.error .alreadyFree), s)
    else (.result (.ok ()), { s with allocated := s.allocated.erase id })
  | .allocMajor =>
    match least (p.openBlocks s) with
    | none => (.id none, s)
    | some b => (.id (some b), { s with reserved := insert b s.reserved })
  | .allocMajorAt b =>
    if b % 2 ^ p.minorBits ≠ 0 then (.base (.error .notAligned), s)
    else if b ∉ p.range ∨ p.stop < b + 2 ^ p.minorBits then (.base (.error .outOfRange), s)
    else if b ∈ s.reserved then (.base (.error .alreadyAllocated), s)
    else if ¬ p.block b ⊆ p.free s then (.base (.error .rangeBusy), s)
    else (.base (.ok b), { s with reserved := insert b s.reserved })
  | .allocMinor b => if b ∈ s.reserved then grantLeast s (p.minors s b) else (.id none, s)
  | .deallocMajor b =>
    if b ∉ s.reserved then (.result (.error .majorNotFound), s)
    else (.result (.ok ()),
      ⟨s.allocated.filter fun id => p.base id ≠ b,s.reserved.erase b⟩)
  | .reset => (.done, ⟨∅,∅⟩)
  | .isAllocated id => (.flag (decide (id ∈ s.allocated)), s)
  | .contains id => (.flag (decide (id ∈ p.range)), s)
  | .used => (.number s.allocated.card, s)
  | .available => (.number (p.range \ s.allocated).card, s)
  | .size => (.number p.range.card, s)
  | .isFull => (.flag ((p.range \ s.allocated).card == 0), s)
  | .isEmpty => (.flag (s.allocated.card == 0), s)

def Releases (id : Nat) (op : IdOp) : Prop :=
  op = .dealloc id ∨ op = .deallocMajor (p.base id) ∨ op = .reset

end IdSpace

end Athera
