import Athera.Framework.Action
import Athera.Mm.MemorySet

/-!
# mmap, munmap and mremap

`mm/memory_map.rs` over the memory of one task. An error keeps what was done before it; frames that
go out of scope are given back.
-/

namespace Athera

open Framework Action

/-- What the three calls can reach. `known` tells whether the task is in the task table. -/
structure TaskMemory (σ : Type) where
  known : Bool
  mappings : MemorySet
  space : Option AddressSpace
  alloc : σ
  mem : Memory

abbrev MapAction (σ : Type) := Action ErrorCode (TaskMemory σ)

variable {σ : Type} [FrameAllocator σ] {ε : Type}

/-- `alloc_frame`: the frame has the size of the block that was really allocated. -/
def allocFrame (size : Nat) : Action ε (TaskMemory σ) (Option Frame) := fun s =>
  match FrameAllocator.allocFrame s.alloc s.mem size with
  | (start, alloc, mem) =>
    .ok (start.map fun p => ⟨p,blockSize size⟩) { s with alloc := alloc, mem := mem }

def dropFrame (f : Frame) : Action ε (TaskMemory σ) Unit := fun s =>
  match FrameAllocator.deallocFrame s.alloc s.mem f.start f.size with
  | (alloc, mem) => .ok () { s with alloc := alloc, mem := mem }

def dropFrames (frames : List Frame) : Action ε (TaskMemory σ) Unit := forEach dropFrame frames

/-- The loop of `alloc_frames`; it takes at least one byte in each round. -/
def allocFramesLoop : Nat → Nat → List Frame → Action ε (TaskMemory σ) (Option (List Frame))
  | 0, _, frames => pure (some frames)
  | fuel + 1, remaining, frames =>
    if remaining = 0 then pure (some frames)
    else do
      match ← allocFrame remaining with
      | none =>
        dropFrames frames
        pure none
      | some f => allocFramesLoop fuel (remaining - f.size) (frames ++ [f])

def allocFrames (size : Nat) : Action ε (TaskMemory σ) (Option (List Frame)) :=
  allocFramesLoop size size []

def zeroFrames (frames : List Frame) : Action ε (TaskMemory σ) Unit :=
  forEach (fun f => modify fun s => { s with mem := s.mem.fill f.start 0 f.size }) frames

def getSpace : Action MemError (TaskMemory σ) AddressSpace := do
  let s ← get
  orThrow s.space .addressSpaceNotFound

def setSpace (sp : AddressSpace) : Action ε (TaskMemory σ) Unit :=
  modify fun s => { s with space := some sp }

/-- `PageTableHandle::create`, which yields the address of a new, empty table. -/
def createTable : Action MemError (TaskMemory σ) Nat := do
  let f ← allocFrame pageSize
  let f ← orThrow f .outOfMemory
  pure f.start

/-- Inserting a table under an address that is taken drops the table that was there. -/
def dropReplaced (sp : AddressSpace) (addr : Nat) : Action ε (TaskMemory σ) Unit :=
  if (sp.tables addr).isSome then dropFrame ⟨addr,pageSize⟩ else pure ()

/-- The address of the table of the first level for the root entry `i`. -/
def ensureLevel1 (i : Nat) : Action MemError (TaskMemory σ) Nat := do
  let sp ← getSpace
  if (sp.root i).v then pure (sp.root i).addr
  else
    let addr ← createTable
    setSpace (sp.linkRoot i addr)
    dropReplaced sp addr
    pure ((sp.linkRoot i addr).root i).addr

/-- The address of the table of the last level for the entry `j` of the table at `a1`. -/
def ensureLevel0 (a1 j : Nat) : Action MemError (TaskMemory σ) Nat := do
  let sp ← getSpace
  let pt1 ← orThrow (sp.tables a1) .pageTableMissing
  if (pt1 j).v then pure (pt1 j).addr
  else
    let addr ← createTable
    setSpace (sp.linkTable a1 pt1 j addr)
    dropReplaced sp addr
    let pt1 ← orThrow ((sp.linkTable a1 pt1 j addr).tables a1) .pageTableMissing
    pure (pt1 j).addr

def userMap (va pa : Nat) (flags : PageFlags) : Action MemError (TaskMemory σ) Unit := do
  let a1 ← ensureLevel1 (vpn2 va)
  let a0 ← ensureLevel0 a1 (vpn1 va)
  let sp ← getSpace
  let pt0 ← orThrow (sp.tables a0) .pageTableMissing
  setSpace (sp.setEntry a0 pt0 (vpn0 va) ⟨true,flags,ppn pa⟩)

/-- `AddressSpaceManager::user_unmap`, whose result the callers ignore. -/
def userUnmap (va : Nat) : Action ε (TaskMemory σ) Unit :=
  modify fun s => { s with space := s.space.map fun sp => sp.unmap va }

/-- Map one page of a mapping at `addr`; on failure the pages before it are unmapped again. -/
def mapPage (addr : Nat) (flags : PageFlags) (page : Nat × Nat) :
    MapAction σ Unit :=
  onError (mapError memErrno (userMap (wrap (addr + page.1)) page.2 flags))
    (forEach (fun rollback => userUnmap (wrap (addr + rollback))) (stepBy 0 page.1))

def mapFrame (addr : Nat) (frames : List Frame) (flags : PageFlags) :
    MapAction σ Unit := do
  onError
    (if flags.rwx then forEach (mapPage addr flags) (framePages 0 frames) else pure ())
    (dropFrames frames)
  modify fun s => { s with mappings := s.mappings ++ [⟨addr,frames,flags⟩] }

/-- Copy the page at `start + off` to the same offset of the frames. -/
def copyPage (frames : List Frame) (start off : Nat) : MapAction σ Unit := do
  let s ← get
  let src ← orPanic (pagePhys s.mappings (wrap (start + off)))
  let src ← orThrow src .eFault
  let dst ← orPanic (physAtOffset frames off)
  modify fun s => { s with mem := s.mem.copy src dst pageSize }

def copyPages (frames : List Frame) (start size : Nat) : MapAction σ Unit :=
  forEach (copyPage frames start) (stepBy 0 size)

/-- Frames with a copy of a piece that stays. -/
def fillKeep (k : Keep) : MapAction σ (List Frame) := do
  let frames ← allocFrames k.size
  let frames ← orThrow frames .eNoMem
  onError (copyPages frames k.va k.size) (dropFrames frames)
  pure frames

def dropBuffers (buffers : List (List Frame × Keep)) : MapAction σ Unit :=
  forEach (fun b => dropFrames b.1) buffers

def fillKeeps (buffers : List (List Frame × Keep)) :
    List Keep → MapAction σ (List (List Frame × Keep))
  | [] => pure buffers
  | k :: ks => do
    let frames ← onError (fillKeep k) (dropBuffers buffers)
    fillKeeps (buffers ++ [(frames, k)]) ks

/-- Take the mapping at an index out, unmap its pages and drop its frames. -/
def removeMapping (idx : Nat) : MapAction σ Unit := do
  let s ← get
  let m ← orPanic s.mappings[idx]?
  modify fun s => { s with mappings := s.mappings.eraseIdx idx }
  forEach userUnmap (stepBy (mappingRange m).1 (mappingRange m).2)
  dropFrames m.frames

def remapKeeps : List (List Frame × Keep) → MapAction σ Unit
  | [] => pure ()
  | (frames, k) :: rest => do
    onError (mapFrame k.va frames k.flags) (dropBuffers rest)
    remapKeeps rest

def unmapRange (start stop : Nat) : MapAction σ Unit := do
  let s ← get
  let buffers ← fillKeeps [] (s.mappings.flatMap (keepsOf start stop))
  let s ← get
  forEach removeMapping (overlappingIndices s.mappings start stop).reverse
  remapKeeps buffers

def rebuild (oldStart oldEnd dest newSize : Nat) (flags : PageFlags) :
    MapAction σ Unit := do
  let frames ← allocFrames newSize
  let frames ← orThrow frames .eNoMem
  zeroFrames frames
  onError (copyPages frames oldStart (min (oldEnd - oldStart) newSize)) (dropFrames frames)
  onError (unmapRange oldStart oldEnd) (dropFrames frames)
  mapFrame dest frames flags

def mapFixed : Nat := 0x10
def mapAnonymous : Nat := 0x20
def mapFixedNoreplace : Nat := 0x100000

/-- `usize::MAX`. -/
def usizeMax : Nat := wordRange - 1

def mmapTarget (addr length : Nat) (fixed : Bool) : MapAction σ Nat := do
  let s ← get
  if fixed then
    if addr % pageSize ≠ 0 then throw .eInval else pure addr
  else if addr ≠ 0 ∧ addr % pageSize = 0 ∧
      (checkedAdd addr length).any (fun hintEnd => rangeIsFree s.mappings addr hintEnd) then
    pure addr
  else orThrow (findFreeRegion s.mappings length) .eNoMem

def mmap (addr length prot flags : Nat) (fd : Int) (offset : Nat) :
    MapAction σ Nat := do
  if flags &&& mapAnonymous = 0 then throw .eNoSys
  if fd ≠ -1 ∨ offset ≠ 0 then throw .eInval
  if prot &&& (wordRange - 1 - protMask) ≠ 0 then throw .eInval
  if length = 0 ∨ usizeMax - pageSize ≤ length then throw .eInval
  let length := alignUp length
  let noreplace : Bool := flags &&& mapFixedNoreplace != 0
  let fixed : Bool := flags &&& (mapFixed ||| mapFixedNoreplace) != 0
  let s ← get
  if !s.known then throw .eSrch
  let target ← mmapTarget addr length fixed
  let stop ← orThrow (checkedAdd target length) .eNoMem
  if !isCanonicalUserRange target stop then throw .eNoMem
  if noreplace && !rangeIsFree s.mappings target stop then throw .eExist
  if fixed && !noreplace then unmapRange target stop
  let frames ← allocFrames length
  let frames ← orThrow frames .eNoMem
  zeroFrames frames
  mapFrame target frames (protToPageFlags prot)
  pure target

def munmap (addr length : Nat) : MapAction σ Unit := do
  if addr % pageSize ≠ 0 ∨ length = 0 then throw .eInval
  let stop ← orThrow (checkedAdd addr length) .eInval
  let s ← get
  if !s.known then throw .eSrch
  unmapRange addr stop

def mremapMaymove : Nat := 1
def mremapFixed : Nat := 2

def moveTo (oldStart oldEnd dest newSize : Nat) (replace : Bool) :
    MapAction σ Nat := do
  let destEnd ← orThrow (checkedAdd dest newSize) .eNoMem
  if !isCanonicalUserRange dest destEnd then throw .eNoMem
  if dest < oldEnd ∧ oldStart < destEnd then throw .eNoMem
  let s ← get
  if replace then unmapRange dest destEnd
  else if !rangeIsFree s.mappings dest destEnd then throw .eNoMem
  let s ← get
  let flags ← orThrow (flagsOfFirst s.mappings oldStart) .eFault
  rebuild oldStart oldEnd dest newSize flags
  pure dest

def mremap (oldAddress oldSize newSize flags newAddress : Nat) :
    MapAction σ Nat := do
  if oldAddress % pageSize ≠ 0 ∨ oldSize = 0 ∨ newSize = 0 ∨ oldSize % pageSize ≠ 0 ∨
      newSize % pageSize ≠ 0 ∨ usizeMax - pageSize ≤ newSize then throw .eInval
  let oldEnd ← orThrow (checkedAdd oldAddress oldSize) .eInval
  let fixed : Bool := flags &&& mremapFixed != 0
  if fixed ∧ newAddress % pageSize ≠ 0 then throw .eInval
  let s ← get
  if !s.known then throw .eSrch
  if newSize = oldSize then
    if fixed ∧ newAddress ≠ oldAddress then
      moveTo oldAddress oldEnd newAddress oldSize true
    else pure oldAddress
  else
    let mapped ← orPanic (rangeFullyMapped s.mappings oldAddress oldEnd)
    if !mapped then throw .eFault
    if newSize < oldSize then
      let protFlags ← orThrow (flagsOfFirst s.mappings oldAddress) .eFault
      rebuild oldAddress oldEnd oldAddress newSize protFlags
      pure oldAddress
    else
      let growth := newSize - oldSize
      if (checkedAdd oldEnd growth).any (fun stop => rangeIsFree s.mappings oldEnd stop) &&
          isCanonicalUserRange oldAddress (wrap (oldEnd + growth)) then
        let protFlags ← orThrow (flagsOfFirst s.mappings oldAddress) .eFault
        rebuild oldAddress oldEnd oldAddress newSize protFlags
        pure oldAddress
      else if fixed then moveTo oldAddress oldEnd newAddress newSize true
      else if flags &&& mremapMaymove ≠ 0 then
        let dest ← orThrow (findFreeRegion s.mappings newSize) .eNoMem
        moveTo oldAddress oldEnd dest newSize false
      else throw .eNoMem

end Athera
