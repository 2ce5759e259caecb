import Athera.Task.MemoryClone
import Athera.Task.Scheduler

/-!
# Loading a program

`load_elf` of `task/exec.rs`. The file is read through pointers, so a read outside of it sees what
happens to be there. The accesses are recorded.
-/

namespace Athera

open Framework Action

inductive ElfError where
  | notElf
  | notLsb
  | not64Bit
deriving DecidableEq, Repr

structure ElfHeader where
  magic : List UInt8
  elfClass : UInt8
  data : UInt8
  eEntry : Nat
  ePhoff : Nat
  ePhentsize : Nat
  ePhnum : Nat
deriving DecidableEq, Repr

namespace ElfHeader

/-- `size_of::<ElfHeader>()`. -/
def size : Nat := 64

def read (m : Memory) (p : Nat) : ElfHeader where
  magic := [m p,m (p + 1),m (p + 2),m (p + 3)]
  elfClass := m (p + 4)
  data := m (p + 5)
  eEntry := m.readBytes (p + 24) 8
  ePhoff := m.readBytes (p + 32) 8
  ePhentsize := m.readBytes (p + 54) 2
  ePhnum := m.readBytes (p + 56) 2

def validate (h : ElfHeader) : Except ElfError Unit :=
  if h.magic ≠ [0x7f,0x45,0x4c,0x46] then .error .notElf
  else if h.data ≠ 1 then .error .notLsb
  else if h.elfClass ≠ 2 then .error .not64Bit
  else .ok ()

end ElfHeader

structure ProgramHeader where
  pType : Nat
  pFlags : Nat
  pOffset : Nat
  pVaddr : Nat
  pFilesz : Nat
  pMemsz : Nat
  pAlign : Nat
deriving DecidableEq, Repr

namespace ProgramHeader

/-- `size_of::<ProgramHeader>()`. -/
def size : Nat := 56

def load : Nat := 1

def read (m : Memory) (p : Nat) : ProgramHeader where
  pType := m.readBytes p 4
  pFlags := m.readBytes (p + 4) 4
  pOffset := m.readBytes (p + 8) 8
  pVaddr := m.readBytes (p + 16) 8
  pFilesz := m.readBytes (p + 32) 8
  pMemsz := m.readBytes (p + 40) 8
  pAlign := m.readBytes (p + 48) 8

def isLoad (ph : ProgramHeader) : Bool := ph.pType == load

def mappingFlags (ph : ProgramHeader) : PageFlags where
  r := ph.pFlags.testBit 2
  w := ph.pFlags.testBit 1
  x := ph.pFlags.testBit 0
  u := true
  g := false
  a := true
  d := true

theorem read_congr {m m' : Memory} {p : Nat} (h : ∀ i < size, m' (p+i) = m (p+i)) :
    read m' p = read m p := by
  have hbytes : ∀ a n, a+n ≤ size → m'.readBytes (p+a) n = m.readBytes (p+a) n := by
    intro a n han
    apply Memory.readBytes_congr
    intro i hi
    rw [Nat.add_assoc]
    exact h (a+i) (by omega)
  have h0 : m'.readBytes p 4 = m.readBytes p 4 := hbytes 0 4 (by decide)
  simp only [read,h0,hbytes 4 4 (by decide),hbytes 8 8 (by decide),hbytes 16 8 (by decide),
    hbytes 32 8 (by decide),hbytes 40 8 (by decide),hbytes 48 8 (by decide)]

end ProgramHeader

structure Slice where
  ptr : Nat
  len : Nat
deriving DecidableEq, Repr

inductive Access where
  | read (start len : Nat)
  /-- Written bytes, and the frames that have just been allocated for them. -/
  | write (start len : Nat) (frames : List Frame)
  /-- The exact result of an addition of addresses. -/
  | sum (exact : Nat)
  | difference (a b : Nat)
deriving DecidableEq, Repr

structure LoadState (σ : Type) where
  fork : ForkState σ
  log : List Access

inductive LoadError where
  | elf (e : ElfError)
  | mem (e : MemError)
  | argsTooLong
deriving DecidableEq, Repr

structure Load where
  memorySet : MemorySet
  trapContext : TrapContext

abbrev LoadAction (σ : Type) := Action LoadError (LoadState σ)

variable {σ : Type} [FrameAllocator σ] {α : Type}

namespace LoadState

def onFork (x : ForkAction σ α) : LoadAction σ α := fun s =>
  match x s.fork with
  | .ok a f => .ok a { s with fork := f }
  | .err e f => .err (.mem e) { s with fork := f }
  | .panic => .panic

def record (a : Access) : LoadAction σ Unit :=
  modify fun s => { s with log := s.log ++ [a] }

def add (a b : Nat) : LoadAction σ Nat := do
  record (.sum (a + b))
  pure (wrap (a + b))

def sub (a b : Nat) : LoadAction σ Nat := do
  record (.difference a b)
  pure (wrap (a + wordRange - b))

def memory : LoadAction σ Memory := do
  let s ← get
  pure s.fork.mem

def setMemory (f : Memory → Memory) : LoadAction σ Unit :=
  modify fun s => { s with fork := { s.fork with mem := f s.fork.mem } }

/-- Frames go back to the allocator when their owner is dropped. -/
def dropFrames (frames : List Frame) : LoadAction σ Unit :=
  onFork (forEach ForkState.giveFrame frames)

def tryFrom (buf : Slice) : LoadAction σ ElfHeader :=
  if buf.len < ElfHeader.size then throw (.elf .notElf)
  else do
    record (.read buf.ptr ElfHeader.size)
    let m ← memory
    pure (ElfHeader.read m buf.ptr)

def validate (eh : ElfHeader) : LoadAction σ Unit :=
  match eh.validate with
  | .ok () => pure ()
  | .error e => throw (.elf e)

def findPhdr (eh : ElfHeader) (ph : ProgramHeader) (phdrVa : Nat) :
    LoadAction σ Nat :=
  if ph.isLoad ∧ ph.pOffset ≤ eh.ePhoff then do
    let stop ← add ph.pOffset ph.pFilesz
    if eh.ePhoff < stop then add ph.pVaddr (eh.ePhoff - ph.pOffset) else pure phdrVa
  else pure phdrVa

def mapPages (tid va : Nat) (flags : PageFlags) (frames : List Frame) :
    LoadAction σ Unit :=
  forEach (fun page => do
    let va ← add va page.1
    onFork (ForkState.userMap tid va page.2 flags)) (framePages 0 frames)

def zeroFrames (frames : List Frame) : LoadAction σ Unit :=
  forEach (fun f => do
    record (.write f.start f.size frames)
    setMemory fun m => m.fill f.start 0 f.size) frames

def loadSegment (buf : Slice) (tid : Nat) (ph : ProgramHeader) :
    LoadAction σ UserMapping := do
  match ← onFork (ForkState.allocFrames ph.pMemsz) with
  | none => throw (.mem .outOfMemory)
  | some frames => do
    onError (mapPages tid ph.pVaddr ph.mappingFlags frames) (dropFrames frames)
    zeroFrames frames
    let first ← orPanic frames.head?
    let inside ← orPanic (if ph.pAlign = 0 then none else some (ph.pVaddr % ph.pAlign))
    let src ← add buf.ptr ph.pOffset
    let dst ← add first.start inside
    record (.read src ph.pFilesz)
    record (.write dst ph.pFilesz frames)
    setMemory fun m => m.copy src dst ph.pFilesz
    pure ⟨ph.pVaddr,frames,ph.mappingFlags⟩

/-- The headers with the given numbers; `phdrVa` and `done` are what the loop has collected. -/
def loadHeaders (buf : Slice) (tid : Nat) (eh : ElfHeader) (phBase : Nat) :
    List Nat → Nat → MemorySet → LoadAction σ (Nat × MemorySet)
  | [], phdrVa, done => pure (phdrVa, done)
  | i :: is, phdrVa, done => do
    let ptr ← add phBase (i * ProgramHeader.size)
    record (.read ptr ProgramHeader.size)
    let m ← memory
    let ph := ProgramHeader.read m ptr
    let phdrVa ← findPhdr eh ph phdrVa
    if ph.isLoad then do
      let mapping ← onError (loadSegment buf tid ph) (dropFrames (done.flatMap UserMapping.frames))
      loadHeaders buf tid eh phBase is phdrVa (done ++ [mapping])
    else loadHeaders buf tid eh phBase is phdrVa done

def stackAlign : Nat := 16

/-- The argc word, both pointer arrays with their ends, and the auxiliary vector. -/
def pointerWords (argv envp : List (List UInt8)) (auxv : List (Nat × Nat)) : Nat :=
  1 + argv.length + 1 + envp.length + 1 + auxv.length * 2

def stringBytes (strings : List (List UInt8)) : Nat := (strings.map fun s => s.length + 1).sum

def initialStackBytes (argv envp : List (List UInt8)) (auxv : List (Nat × Nat)) : Nat :=
  pointerWords argv envp auxv * Memory.wordSize + (stringBytes argv + stringBytes envp)

def initialStackSize (argv envp : List (List UInt8)) (auxv : List (Nat × Nat)) : Nat :=
  wrap ((wrap (initialStackBytes argv envp auxv) + stackAlign - 1) / stackAlign * stackAlign)

def writeBytes (a : Nat) (bytes : List UInt8) (frames : List Frame) :
    LoadAction σ Unit := do
  record (.write a bytes.length frames)
  setMemory fun m => m.store a bytes

def pushCstr (stack : Frame) (sp : Nat) (s : List UInt8) : LoadAction σ Nat := do
  let sp ← sub sp (s.length + 1)
  writeBytes sp (s ++ [0]) [stack]
  pure sp

def toVa (stack : Frame) (pa : Nat) : Nat := userStackLowerBound + (pa - stack.start)

/-- Push the strings, the last of them first: the stack pointer and the addresses in order. -/
def pushStrings (stack : Frame) : Nat → List (List UInt8) → LoadAction σ (Nat × List Nat)
  | sp, [] => pure (sp, [])
  | sp, s :: rest => do
    let below ← pushStrings stack sp rest
    let sp ← pushCstr stack below.1 s
    pure (sp, toVa stack sp :: below.2)

def wordBytes (w : Nat) : List UInt8 :=
  (List.range Memory.wordSize).map fun i => UInt8.ofNat (w / 256 ^ i)

def buildInitialStack (argv envp : List (List UInt8)) (auxv : List (Nat × Nat)) (stack : Frame) :
    LoadAction σ Nat :=
  if stack.size < initialStackSize argv envp auxv then throw .argsTooLong
  else do
    let envs ← pushStrings stack (stack.start + stack.size) envp
    let args ← pushStrings stack envs.1 argv
    let words := [argv.length] ++ args.2 ++ [0] ++ envs.2 ++ [0] ++
      auxv.flatMap fun a => [a.1,a.2]
    let low ← sub args.1 (pointerWords argv envp auxv * Memory.wordSize)
    let sp := low / stackAlign * stackAlign
    writeBytes sp (words.flatMap wordBytes) [stack]
    pure (toVa stack sp)

def stackFlags : PageFlags := ⟨true,true,false,true,false,true,true⟩

def userRootAddr (tid : Nat) : ForkAction σ Nat := do
  let s ← get
  let sp ← orThrow (s.spaces.user.get? tid) .addressSpaceNotFound
  pure sp.root

/-- `load_elf`, with the value of `sstatus` that it reads. -/
def loadElf (buf : Slice) (argv envp : List (List UInt8)) (tid sstatus : Nat) :
    LoadAction σ Load := do
  let eh ← tryFrom buf
  validate eh
  onFork (ForkState.createSpace tid)
  let phBase ← add buf.ptr eh.ePhoff
  let loaded ← loadHeaders buf tid eh phBase (List.range eh.ePhnum) 0 []
  match ← onFork (ForkState.takeFrame userStackSize) with
  | none => do
    dropFrames (loaded.2.flatMap UserMapping.frames)
    throw (.mem .outOfMemory)
  | some stack => do
    let sp ← onError (do
        mapPages tid userStackLowerBound stackFlags [stack]
        buildInitialStack argv envp [(3, loaded.1),(4, eh.ePhentsize),(5, eh.ePhnum),(6, pageSize),
          (9, eh.eEntry),(0, 0)] stack)
      (dropFrames (stack :: loaded.2.flatMap UserMapping.frames))
    let root ← onFork (userRootAddr tid)
    pure ⟨loaded.2 ++ [⟨userStackLowerBound,[stack],stackFlags⟩],
      TrapContext.entry eh.eEntry sp root sstatus⟩

end LoadState

end Athera
