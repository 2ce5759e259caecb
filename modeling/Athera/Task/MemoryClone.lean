import Athera.Mm.Backing
import Athera.Mm.SpaceManager

/-!
# Copying the memory of a task

The page table is copied first, then every frame, and last the copied page table is pointed to the
copied frames.
-/

namespace Athera

open Framework Action

structure ForkState (σ : Type) where
  alloc : σ
  mem : Memory
  spaces : SpaceManager

abbrev ForkAction (σ : Type) := Action MemError (ForkState σ)

variable {σ : Type} [FrameAllocator σ] {ε : Type}

namespace ForkState

def takeFrame (size : Nat) : Action ε (ForkState σ) (Option Frame) := fun s =>
  match FrameAllocator.allocFrame s.alloc s.mem size with
  | (start, alloc, mem) =>
    .ok (start.map fun p => ⟨p,blockSize size⟩) { s with alloc := alloc, mem := mem }

def giveFrame (f : Frame) : Action ε (ForkState σ) Unit := fun s =>
  match FrameAllocator.deallocFrame s.alloc s.mem f.start f.size with
  | (alloc, mem) => .ok () { s with alloc := alloc, mem := mem }

/-- The loop of `alloc_frames`; it takes at least one byte in each round. -/
def allocFramesLoop : Nat → Nat → List Frame → Action ε (ForkState σ) (Option (List Frame))
  | 0, _, frames => pure (some frames)
  | fuel + 1, remaining, frames =>
    if remaining = 0 then pure (some frames)
    else do
      match ← takeFrame remaining with
      | none =>
        forEach giveFrame frames
        pure none
      | some f => allocFramesLoop fuel (remaining - f.size) (frames ++ [f])

def allocFrames (size : Nat) : Action ε (ForkState σ) (Option (List Frame)) :=
  allocFramesLoop size size []

/-- As many pages for tables as there are, up to the given number. -/
def takePages : Nat → Action ε (ForkState σ) (List Nat)
  | 0 => pure []
  | n + 1 => do
    match ← takeFrame pageSize with
    | none => pure []
    | some f => do
      let pages ← takePages n
      pure (f.start :: pages)

def givePages (pages : List Nat) : Action ε (ForkState σ) Unit :=
  forEach (fun p => giveFrame ⟨p,pageSize⟩) pages

def setSpaces (spaces : SpaceManager) : Action ε (ForkState σ) Unit :=
  modify fun s => { s with spaces := spaces }

/-- `AddressSpaceManager::create_user_address_space`; a space that was registered before is
dropped. -/
def createSpace (tid : Nat) : ForkAction σ Unit := do
  let s ← get
  match ← takeFrame pageSize with
  | none => throw .outOfMemory
  | some f => do
    modify fun s => { s with spaces := s.spaces.createUserAddressSpace tid [f.start] }
    givePages ((s.spaces.user.get? tid).elim [] Space.owned)

/-- `AddressSpaceManager::clone`; a space that was registered for the new task before is dropped. -/
def cloneSpace (owner newTid : Nat) : ForkAction σ Unit := do
  let s ← get
  let pages ← takePages ((s.spaces.user.get? owner).elim 0 fun sp => sp.owned.length)
  match s.spaces.clone (.user owner) newTid pages with
  | (.error e, spaces) => do
    setSpaces spaces
    givePages pages
    throw e
  | (.ok (), spaces) => do
    setSpaces spaces
    givePages ((s.spaces.user.get? newTid).elim [] Space.owned)

/-- How many tables `map` is going to create. -/
def missingTables (spaces : SpaceManager) (sp : Space) (va : Nat) : Nat :=
  let pte2 := spaces.mem sp.root (vpn2 va)
  if !pte2.v then 2
  else if pte2.addr ∈ sp.tables ∧ !(spaces.mem pte2.addr (vpn1 va)).v then 1
  else 0

def userMap (tid va pa : Nat) (flags : PageFlags) : ForkAction σ Unit := do
  let s ← get
  let sp ← orThrow (s.spaces.user.get? tid) .addressSpaceNotFound
  let pages ← takePages (missingTables s.spaces sp va)
  match SpaceState.map va pa flags ⟨s.spaces.mem,sp,pages⟩ with
  | .ok _ t => setSpaces (s.spaces.setUser tid t)
  | .err e t => do
    setSpaces (s.spaces.setUser tid t)
    throw e
  | .panic => panic

/-- `Frame::try_clone`. -/
def cloneFrame (f : Frame) : Action ε (ForkState σ) (Option Frame) := do
  match ← takeFrame f.size with
  | none => pure none
  | some g => do
    modify fun s => { s with mem := s.mem.copy f.start g.start f.size }
    pure (some g)

def cloneFrames (done : List Frame) : List Frame → ForkAction σ (List Frame)
  | [] => pure done
  | f :: fs => do
    match ← cloneFrame f with
    | none => do
      forEach giveFrame done
      throw .outOfMemory
    | some g => cloneFrames (done ++ [g]) fs

def cloneBacking (done : List (UserMapping × List Frame)) :
    MemorySet → ForkAction σ (List (UserMapping × List Frame))
  | [] => pure done
  | m :: ms => do
    let frames ← onError (cloneFrames [] m.frames) (forEach giveFrame (done.flatMap Prod.snd))
    cloneBacking (done ++ [(m, frames)]) ms

def mappedPages (m : UserMapping) (frames : List Frame) : List (Nat × Nat × PageFlags) :=
  if m.flags.rwx then
    (framePages 0 frames).map fun page => (wrap (m.va + page.1), page.2, m.flags)
  else []

def repoint (tid : Nat) (backing : List (UserMapping × List Frame)) :
    ForkAction σ Unit :=
  forEach (fun b => forEach (fun page => userMap tid page.1 page.2.1 page.2.2) (mappedPages b.1 b.2))
    backing

def tryClone (owner newTid : Nat) (ms : MemorySet) : ForkAction σ MemorySet := do
  cloneSpace owner newTid
  let backing ← cloneBacking [] ms
  onError (repoint newTid backing) (forEach giveFrame (backing.flatMap Prod.snd))
  pure (backing.map fun b => { b.1 with frames := b.2 })

end ForkState

end Athera
