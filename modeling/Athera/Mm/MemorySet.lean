import Mathlib.Data.List.Sort
import Athera.Mm.Frame
import Athera.Mm.PageTable

/-!
# The memory set of a task

A mapping is a stretch of virtual pages backed by one or more frames in order.
-/

namespace Athera

open Framework

inductive MemError where
  | outOfMemory
  | pageTableMissing
  | addressSpaceNotFound
deriving DecidableEq, Repr

inductive ErrorCode where
  | eSrch
  | e2Big
  | eBadF
  | eNoMem
  | eFault
  | eExist
  | eInval
  | eNoSys
deriving DecidableEq, Repr

structure UserMapping where
  va : Nat
  frames : List Frame
  flags : PageFlags
deriving DecidableEq, Repr

abbrev MemorySet := List UserMapping

def lowHalfEnd : Nat := 0x0000_0040_0000_0000
def highHalfStart : Nat := 0xffff_ffc0_0000_0000

def alignUp (addr : Nat) : Nat := align addr pageSize

def memErrno : MemError → ErrorCode
  | .outOfMemory => .eNoMem
  | _ => .eInval

/-- The page-aligned virtual range of a mapping. -/
def mappingRange (m : UserMapping) : Nat × Nat :=
  let start := m.va &&& (wordRange - pageSize)
  let size := wrap (m.frames.map fun f => alignUp f.size).sum
  (start, wrap (start + size))

def overlaps (m : UserMapping) (start stop : Nat) : Bool :=
  let (s, e) := mappingRange m
  decide (s < stop) && decide (start < e)

def overlappingIndices (ms : MemorySet) (start stop : Nat) : List Nat :=
  (ms.zipIdx.filter fun p => overlaps p.1 start stop).map Prod.snd

def rangeIsFree (ms : MemorySet) (start stop : Nat) : Bool :=
  !ms.any fun m => overlaps m start stop

/-- `(start..stop).step_by(PAGE_SIZE)`. -/
def stepBy (start stop : Nat) : List Nat :=
  (List.range ((stop - start + (pageSize - 1)) / pageSize)).map fun i => start + i * pageSize

/-- The physical address at a virtual offset; an offset beyond the frames panics. -/
def physAtOffset : List Frame → Nat → Option Nat
  | [], _ => none
  | f :: fs, remaining =>
    if remaining < f.size then some (f.start + remaining) else physAtOffset fs (remaining - f.size)

/-- The physical address behind a virtual one according to the mappings. -/
def pagePhys (ms : MemorySet) (va : Nat) : Option (Option Nat) :=
  match ms.find? fun m => decide ((mappingRange m).1 ≤ va) && decide (va < (mappingRange m).2) with
  | none => some none
  | some m => (physAtOffset m.frames (va - (mappingRange m).1)).map some

def fullyMapped (ms : MemorySet) : List Nat → Option Bool
  | [] => some true
  | va :: vas =>
    match pagePhys ms va with
    | none => none
    | some none => some false
    | some (some _) => fullyMapped ms vas

def rangeFullyMapped (ms : MemorySet) (start stop : Nat) : Option Bool :=
  fullyMapped ms (stepBy start stop)

def flagsOfFirst (ms : MemorySet) (va : Nat) : Option PageFlags :=
  (ms.find? fun m => overlaps m va (wrap (va + 1))).map UserMapping.flags

/-- The downward search of `find_free_region`; the ranges come highest first. -/
def searchGap (length : Nat) : Nat → List (Nat × Nat) → Option Nat
  | top, [] => if length ≤ top then some (top - length) else none
  | top, (s, e) :: rest =>
    if e < top ∧ length ≤ top - e then some (top - length) else searchGap length s rest

def findFreeRegion (ms : MemorySet) (length : Nat) : Option Nat :=
  let ranges := (ms.map mappingRange).filter fun r => decide (r.2 ≤ userStackLowerBound)
  searchGap length userStackLowerBound
    ((ranges.insertionSort fun r r' => r.1 ≤ r'.1).reverse)

def isCanonicalUserRange (start stop : Nat) : Bool :=
  decide (stop ≤ lowHalfEnd) || decide (highHalfStart ≤ start)

def protRead : Nat := 1
def protWrite : Nat := 2
def protExec : Nat := 4
def protMask : Nat := protRead ||| protWrite ||| protExec

def protToPageFlags (prot : Nat) : PageFlags where
  r := prot &&& protMask != 0
  w := prot &&& protWrite != 0
  x := prot &&& protExec != 0
  u := true
  g := false
  a := true
  d := true

/-- A piece of a mapping that stays when the rest of it is unmapped. -/
structure Keep where
  va : Nat
  size : Nat
  flags : PageFlags
deriving DecidableEq, Repr

def keepsOf (start stop : Nat) (m : UserMapping) : List Keep :=
  if overlaps m start stop then
    let (s, e) := mappingRange m
    let left := max s start
    let right := min e stop
    (if s < left then [⟨s,left - s,m.flags⟩] else []) ++
      (if right < e then [⟨right,e - right,m.flags⟩] else [])
  else []

/-- The frames' pages in order, as offset and physical address. -/
def framePages : Nat → List Frame → List (Nat × Nat)
  | _, [] => []
  | mapped, f :: fs =>
    (stepBy 0 f.size).map (fun step => (mapped + step, f.start + step)) ++
      framePages (mapped + f.size) fs

end Athera
