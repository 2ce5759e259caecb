import Athera.Framework.Checked
import Athera.Mm.MapRuns
import Athera.Syscall.UserMemory

/-!
# The memory-map calls with overflow checks

`mm/memory_map.rs` and `validate_user_range` in a build with overflow checks.
-/

namespace Athera.Checked

open Framework Action

def alignUp (addr : Nat) : Option Nat := do
  let above ← checkedAdd addr pageSize
  let top ← checkedSub above 1
  pure (top &&& (wordRange - pageSize))

def mappingRange (m : UserMapping) : Option (Nat × Nat) := do
  let start := m.va &&& (wordRange - pageSize)
  let sizes ← m.frames.mapM fun f => alignUp f.size
  let size ← checkedSum sizes
  let stop ← checkedAdd start size
  pure (start, stop)

def overlaps (m : UserMapping) (start stop : Nat) : Option Bool := do
  let (s, e) ← mappingRange m
  pure (decide (s < stop) && decide (start < e))

def overlappingIndices (ms : MemorySet) (start stop : Nat) : Option (List Nat) := do
  let hits ← ms.mapM fun m => overlaps m start stop
  pure ((hits.zipIdx.filter Prod.fst).map Prod.snd)

def rangeIsFree (ms : MemorySet) (start stop : Nat) : Option Bool := do
  let used ← ms.anyM fun m => overlaps m start stop
  pure !used

def physAtOffset : List Frame → Nat → Option Nat
  | [], _ => none
  | f :: fs, remaining =>
    if remaining < f.size then checkedAdd f.start remaining
    else do
      let remaining ← checkedSub remaining f.size
      physAtOffset fs remaining

def pagePhys : MemorySet → Nat → Option (Option Nat)
  | [], _ => some none
  | m :: ms, va => do
    let (s, e) ← mappingRange m
    if s ≤ va ∧ va < e then do
      let off ← checkedSub va s
      let p ← physAtOffset m.frames off
      pure (some p)
    else pagePhys ms va

def fullyMapped (ms : MemorySet) : List Nat → Option Bool
  | [] => some true
  | va :: vas =>
    match pagePhys ms va with
    | none => none
    | some none => some false
    | some (some _) => fullyMapped ms vas

def rangeFullyMapped (ms : MemorySet) (start stop : Nat) : Option Bool :=
  fullyMapped ms (stepBy start stop)

def flagsOfFirst (ms : MemorySet) (va : Nat) : Option (Option PageFlags) := do
  let m ← ms.findM? fun m => do
    let next ← checkedAdd va 1
    overlaps m va next
  pure (m.map UserMapping.flags)

/-- `then_some` takes its argument by value: after the last range the difference is computed
whether or not the length fits. -/
def searchGap (length : Nat) : Nat → List (Nat × Nat) → Option (Option Nat)
  | top, [] => do
    let gap ← checkedSub top length
    pure (if length ≤ top then some gap else none)
  | top, (s, e) :: rest =>
    if e < top then do
      let room ← checkedSub top e
      if length ≤ room then do
        let gap ← checkedSub top length
        pure (some gap)
      else searchGap length s rest
    else searchGap length s rest

def findFreeRegion (ms : MemorySet) (length : Nat) : Option (Option Nat) := do
  let ranges ← ms.mapM mappingRange
  let below := ranges.filter fun r => decide (r.2 ≤ userStackLowerBound)
  searchGap length userStackLowerBound
    ((below.insertionSort fun r r' => r.1 ≤ r'.1).reverse)

def keepsOf (start stop : Nat) (m : UserMapping) : Option (List Keep) := do
  if ← overlaps m start stop then
    let (s, e) ← mappingRange m
    let left := max s start
    let right := min e stop
    let before ←
      if s < left then do
        let size ← checkedSub left s
        pure [⟨s,size,m.flags⟩]
      else pure []
    let after ←
      if right < e then do
        let size ← checkedSub e right
        pure [⟨right,size,m.flags⟩]
      else pure []
    pure (before ++ after)
  else pure []

def keeps (ms : MemorySet) (start stop : Nat) : Option (List Keep) := do
  let pieces ← ms.mapM (keepsOf start stop)
  pure pieces.flatten

variable {σ : Type} [FrameAllocator σ]

def mapPage (addr : Nat) (flags : PageFlags) (mapped : Nat) (f : Frame) (step : Nat) :
    MapAction σ Unit := do
  let first ← orPanic (checkedAdd addr mapped)
  let va ← orPanic (checkedAdd first step)
  let pa ← orPanic (checkedAdd f.start step)
  onError (mapError memErrno (userMap va pa flags)) do
    let stop ← orPanic (checkedAdd mapped step)
    forEach (fun rollback => do
      let va ← orPanic (checkedAdd addr rollback)
      userUnmap va) (stepBy 0 stop)

def mapPages (addr : Nat) (flags : PageFlags) :
    Nat → List Frame → MapAction σ Unit
  | _, [] => pure ()
  | mapped, f :: fs => do
    forEach (mapPage addr flags mapped f) (stepBy 0 f.size)
    let mapped ← orPanic (checkedAdd mapped f.size)
    mapPages addr flags mapped fs

def mapFrame (addr : Nat) (frames : List Frame) (flags : PageFlags) :
    MapAction σ Unit := do
  onError (if flags.rwx then mapPages addr flags 0 frames else pure ()) (dropFrames frames)
  modify fun s => { s with mappings := s.mappings ++ [⟨addr,frames,flags⟩] }

def copyPage (frames : List Frame) (start off : Nat) : MapAction σ Unit := do
  let s ← get
  let va ← orPanic (checkedAdd start off)
  let src ← orPanic (pagePhys s.mappings va)
  let src ← orThrow src .eFault
  let dst ← orPanic (physAtOffset frames off)
  modify fun s => { s with mem := s.mem.copy src dst pageSize }

def copyPages (frames : List Frame) (start size : Nat) : MapAction σ Unit :=
  forEach (copyPage frames start) (stepBy 0 size)

def fillKeep (k : Keep) : MapAction σ (List Frame) := do
  let frames ← allocFrames k.size
  let frames ← orThrow frames .eNoMem
  onError (copyPages frames k.va k.size) (dropFrames frames)
  pure frames

def fillKeeps (buffers : List (List Frame × Keep)) :
    List Keep → MapAction σ (List (List Frame × Keep))
  | [] => pure buffers
  | k :: ks => do
    let frames ← onError (fillKeep k) (dropBuffers buffers)
    fillKeeps (buffers ++ [(frames, k)]) ks

def removeMapping (idx : Nat) : MapAction σ Unit := do
  let s ← get
  let m ← orPanic s.mappings[idx]?
  modify fun s => { s with mappings := s.mappings.eraseIdx idx }
  let (start, stop) ← orPanic (mappingRange m)
  forEach userUnmap (stepBy start stop)
  dropFrames m.frames

def remapKeeps : List (List Frame × Keep) → MapAction σ Unit
  | [] => pure ()
  | (frames, k) :: rest => do
    onError (mapFrame k.va frames k.flags) (dropBuffers rest)
    remapKeeps rest

def unmapRange (start stop : Nat) : MapAction σ Unit := do
  let s ← get
  let ks ← orPanic (keeps s.mappings start stop)
  let buffers ← fillKeeps [] ks
  let s ← get
  let indices ← orPanic (overlappingIndices s.mappings start stop)
  forEach removeMapping indices.reverse
  remapKeeps buffers

def rebuild (oldStart oldEnd dest newSize : Nat) (flags : PageFlags) :
    MapAction σ Unit := do
  let oldSize ← orPanic (checkedSub oldEnd oldStart)
  let frames ← allocFrames newSize
  let frames ← orThrow frames .eNoMem
  zeroFrames frames
  onError (copyPages frames oldStart (min oldSize newSize)) (dropFrames frames)
  onError (unmapRange oldStart oldEnd) (dropFrames frames)
  mapFrame dest frames flags

/-- The hint is tried only if it is a page address. -/
def hintFree (ms : MemorySet) (addr length : Nat) : Option Bool :=
  if addr ≠ 0 ∧ addr % pageSize = 0 then
    match Framework.checkedAdd addr length with
    | none => some false
    | some hintEnd => rangeIsFree ms addr hintEnd
  else some false

def mmapTarget (addr length : Nat) (fixed : Bool) : MapAction σ Nat := do
  let s ← get
  if fixed then
    if addr % pageSize ≠ 0 then throw .eInval else pure addr
  else do
    let hint ← orPanic (hintFree s.mappings addr length)
    if hint then pure addr
    else do
      let gap ← orPanic (findFreeRegion s.mappings length)
      orThrow gap .eNoMem

/-- The test of `MAP_FIXED_NOREPLACE`; without the flag the ranges are not looked at. -/
def rangeIsTaken (ms : MemorySet) (start stop : Nat) (noreplace : Bool) : Option Bool := do
  if noreplace then
    let free ← rangeIsFree ms start stop
    pure !free
  else pure false

def mmap (addr length prot flags : Nat) (fd : Int) (offset : Nat) :
    MapAction σ Nat := do
  if flags &&& mapAnonymous = 0 then throw .eNoSys
  if fd ≠ -1 ∨ offset ≠ 0 then throw .eInval
  if prot &&& (wordRange - 1 - protMask) ≠ 0 then throw .eInval
  let limit ← orPanic (checkedSub usizeMax pageSize)
  if length = 0 ∨ limit ≤ length then throw .eInval
  let length ← orPanic (alignUp length)
  let noreplace : Bool := flags &&& mapFixedNoreplace != 0
  let fixed : Bool := flags &&& (mapFixed ||| mapFixedNoreplace) != 0
  let s ← get
  if !s.known then throw .eSrch
  let target ← mmapTarget addr length fixed
  let stop ← orThrow (Framework.checkedAdd target length) .eNoMem
  if !isCanonicalUserRange target stop then throw .eNoMem
  let taken ← orPanic (rangeIsTaken s.mappings target stop noreplace)
  if taken then throw .eExist
  if fixed && !noreplace then unmapRange target stop
  let frames ← allocFrames length
  let frames ← orThrow frames .eNoMem
  zeroFrames frames
  mapFrame target frames (protToPageFlags prot)
  pure target

def munmap (addr length : Nat) : MapAction σ Unit := do
  if addr % pageSize ≠ 0 ∨ length = 0 then throw .eInval
  let stop ← orThrow (Framework.checkedAdd addr length) .eInval
  let s ← get
  if !s.known then throw .eSrch
  unmapRange addr stop

def moveTo (oldStart oldEnd dest newSize : Nat) (replace : Bool) :
    MapAction σ Nat := do
  let destEnd ← orThrow (Framework.checkedAdd dest newSize) .eNoMem
  if !isCanonicalUserRange dest destEnd then throw .eNoMem
  if dest < oldEnd ∧ oldStart < destEnd then throw .eNoMem
  let s ← get
  if replace then unmapRange dest destEnd
  else do
    let free ← orPanic (rangeIsFree s.mappings dest destEnd)
    if !free then throw .eNoMem
  let s ← get
  let flags ← orPanic (flagsOfFirst s.mappings oldStart)
  let flags ← orThrow flags .eFault
  rebuild oldStart oldEnd dest newSize flags
  pure dest

/-- Whether the range can grow where it is; the sum is formed again after the first test. -/
def growsInPlace (ms : MemorySet) (oldAddress oldEnd growth : Nat) : Option Bool :=
  match Framework.checkedAdd oldEnd growth with
  | none => some false
  | some stop => do
    if ← rangeIsFree ms oldEnd stop then do
      let stop ← checkedAdd oldEnd growth
      pure (isCanonicalUserRange oldAddress stop)
    else pure false

def mremap (oldAddress oldSize newSize flags newAddress : Nat) :
    MapAction σ Nat := do
  let limit ← orPanic (checkedSub usizeMax pageSize)
  if oldAddress % pageSize ≠ 0 ∨ oldSize = 0 ∨ newSize = 0 ∨ oldSize % pageSize ≠ 0 ∨
      newSize % pageSize ≠ 0 ∨ limit ≤ newSize then throw .eInval
  let oldEnd ← orThrow (Framework.checkedAdd oldAddress oldSize) .eInval
  let fixed : Bool := flags &&& mremapFixed != 0
  if fixed ∧ newAddress % pageSize ≠ 0 then throw .eInval
  let s ← get
  if !s.known then throw .eSrch
  if newSize = oldSize then
    if fixed ∧ newAddress ≠ oldAddress then
      moveTo oldAddress oldEnd newAddress oldSize true
    else pure oldAddress
  else
    let mapped ← orPanic (rangeFullyMapped s.mappings oldAddress oldEnd)
    if !mapped then throw .eFault
    if newSize < oldSize then
      let protFlags ← orPanic (flagsOfFirst s.mappings oldAddress)
      let protFlags ← orThrow protFlags .eFault
      rebuild oldAddress oldEnd oldAddress newSize protFlags
      pure oldAddress
    else
      let growth ← orPanic (checkedSub newSize oldSize)
      let grows ← orPanic (growsInPlace s.mappings oldAddress oldEnd growth)
      if grows then
        let protFlags ← orPanic (flagsOfFirst s.mappings oldAddress)
        let protFlags ← orThrow protFlags .eFault
        rebuild oldAddress oldEnd oldAddress newSize protFlags
        pure oldAddress
      else if fixed then moveTo oldAddress oldEnd newAddress newSize true
      else if flags &&& mremapMaymove ≠ 0 then
        let gap ← orPanic (findFreeRegion s.mappings newSize)
        let dest ← orThrow gap .eNoMem
        moveTo oldAddress oldEnd dest newSize false
      else throw .eNoMem

def exec : MapCall → MapAction σ Nat
  | .mmap addr length prot flags fd offset => mmap addr length prot flags fd offset
  | .munmap addr length => do
    munmap addr length
    pure 0
  | .mremap old oldSize newSize flags newAddress => mremap old oldSize newSize flags newAddress

def step (s : TaskMemory σ) (c : MapCall) : Option (TaskMemory σ) := (exec c s).state

def inMapping (m : UserMapping) (addr : Nat) : Option Bool := do
  let size ← checkedSum (m.frames.map Block.size)
  let stop ← checkedAdd m.va size
  pure (decide (m.va ≤ addr) && decide (addr < stop))

def validateUserAddress (p : Processes) (addr : Nat) : Option (Except ErrorCode Unit) :=
  match p.mappings with
  | none => some (.error .eSrch)
  | some ms => do
    let hit ← ms.anyM fun m => inMapping m addr
    pure (if hit then .ok () else .error .eFault)

def validateUserRange (p : Processes) (addr len : Nat) : Option (Except ErrorCode Unit) :=
  if len = 0 then some (.ok ())
  else
    match Framework.checkedAdd addr len with
    | none => some (.error .eFault)
    | some stop => do
      match ← validateUserAddress p addr with
      | .error e => pure (.error e)
      | .ok () =>
        let last ← checkedSub stop 1
        validateUserAddress p last

end Athera.Checked
