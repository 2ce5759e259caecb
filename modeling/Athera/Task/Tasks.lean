import Athera.Framework.SortedMap
import Athera.Fs.File
import Athera.Mm.MemorySet

/-!
# Tasks

`task.rs` and `task/process.rs`. A panic is the absence of a result.
-/

namespace Athera

open Framework

inductive TaskStatus where
  | running
  | waiting
  | sleeping
  | zombie
  | stopped
  | dead
deriving DecidableEq, Repr

def TaskStatus.isRunnable : TaskStatus → Bool
  | .running => true
  | _ => false

/-- The 32 registers and the control registers of a task in user mode. -/
structure TrapContext where
  context : Vector Nat 32
  satp : Nat
  sepc : Nat
  sstatus : Nat
deriving DecidableEq, Repr

def a0Index : Fin 32 := 10

theorem a0Index_lt : a0Index.val < 32 := a0Index.isLt

def TrapContext.cloneChild (c : TrapContext) (frame : Vector Nat 32) (sepc satp : Nat) :
    TrapContext :=
  ⟨frame.set a0Index 0,satp,wrap (sepc + 4),c.sstatus⟩

structure Task where
  parent : Option Nat
  children : List Nat
  status : TaskStatus
  memorySet : MemorySet
  trapContext : TrapContext
  exitCode : Int
  fdTable : List File

namespace Task

def markRunnable (t : Task) : Task := { t with status := .running }

end Task

structure Tasks where
  map : SortedMap Task
  cursor : Option Nat

namespace Tasks

def new : Tasks := ⟨.empty,none⟩

/-- `Tasks::add`; without a parent the task is a child of task 1. -/
def add (ts : Tasks) (tid : Nat) (parent : Option Nat) (tcb : Task) : Tasks :=
  let map := ts.map.modify (parent.getD 1) fun p => { p with children := p.children ++ [tid] }
  { ts with map := map.insert tid tcb }

/-- The runnable task after the cursor, or else the first one. -/
def nextRunnable (ts : Tasks) : Option Nat :=
  match ts.cursor with
  | some current =>
    (ts.map.nextKey (some current) fun t => t.status.isRunnable).or
      (ts.map.nextKey none fun t => t.status.isRunnable)
  | none => ts.map.nextKey none fun t => t.status.isRunnable

end Tasks

section

/-- The tasks after a new one was put behind the children of the task `p`. -/
def withChild (m : Nat → Option Task) (p new : Nat) (tcb : Task) (tid : Nat) : Option Task :=
  if tid = new then some tcb
  else (m tid).map fun t => { t with children := t.children ++ if tid = p then [new] else [] }

variable {m : Nat → Option Task} {p new tid : Nat} {t tcb : Task}

theorem withChild_self : withChild m p new tcb new = some tcb := if_pos rfl

theorem withChild_of_some (hne : tid ≠ new) (ht : m tid = some t) : withChild m p new tcb tid =
    some { t with children := t.children ++ if tid = p then [new] else [] } := by
  rw [withChild,if_neg hne,ht]
  rfl

theorem withChild_cases (ht : withChild m p new tcb tid = some t) : tid = new ∧ t = tcb ∨
    tid ≠ new ∧ ∃ old, m tid = some old ∧
      t = { old with children := old.children ++ if tid = p then [new] else [] } := by
  rw [withChild] at ht
  by_cases hne : tid = new
  · rw [if_pos hne] at ht
    exact .inl ⟨hne,(Option.some.inj ht).symm⟩
  · rw [if_neg hne] at ht
    obtain ⟨old,hold,rfl⟩ := Option.map_eq_some_iff.mp ht
    exact .inr ⟨hne,old,hold,rfl⟩

theorem Tasks.get?_add (ts : Tasks) (new : Nat) (parent : Option Nat) (tcb : Task) (x : Nat) :
    (ts.add new parent tcb).map.get? x = withChild ts.map.get? (parent.getD 1) new tcb x := by
  rw [Tasks.add,SortedMap.get?_insert,SortedMap.get?_modify,withChild]
  by_cases hx : x = parent.getD 1
  · simp [hx]
  · simp [hx]

end

structure Processes where
  tasks : Tasks
  current : Option Nat

namespace Processes

/-- `tasks.get_mut(&tid)`, when the task is there. -/
def modifyTask (p : Processes) (tid : Nat) (f : Task → Task) : Processes :=
  { p with tasks := { p.tasks with map := p.tasks.map.modify tid f } }

/-- Choose the next task and make it the current one; without a runnable task there is no result. -/
def selectNext (p : Processes) : Option ((Nat × TrapContext) × Processes) := do
  let tid ← p.tasks.nextRunnable
  let tcb ← p.tasks.map.get? tid
  return ((tid, tcb.trapContext), ⟨⟨p.tasks.map.modify tid Task.markRunnable,some tid⟩,some tid⟩)

/-- `process::exit`; the exit of task 1 panics. -/
def exit (p : Processes) (code : Int) : Option Processes :=
  match p.current with
  | none => some p
  | some tid =>
    if tid = 1 then none
    else
      match p.tasks.map.get? tid with
      | none => some p
      | some t =>
        let p := p.modifyTask tid fun t =>
          { t with exitCode := code, status := .zombie, children := [] }
        some (p.modifyTask 1 fun init => { init with children := init.children ++ t.children })

/-- The first zombie of the children; a child without a task ends the search. -/
def firstZombie (p : Processes) : List Nat → Option Nat
  | [] => none
  | child :: rest =>
    match p.tasks.map.get? child with
    | none => none
    | some t => if t.status = .zombie then some child else firstZombie p rest

def findZombieChild (p : Processes) (parent : Nat) (target : Option Nat) : Option Nat :=
  match p.tasks.map.get? parent with
  | none => none
  | some t =>
    match target with
    | some target => if target ∈ t.children then p.firstZombie [target] else none
    | none => p.firstZombie t.children

structure WaitResult where
  tid : Nat
  exitCode : Int
deriving DecidableEq, Repr

/-- `process::wait4`; a child number that is not positive stands for any child. -/
def wait4 (p : Processes) (tid : Int) (nohang : Bool) : Option WaitResult × Processes :=
  match p.current with
  | none => (none, p)
  | some current =>
    if nohang then
      match p.findZombieChild current (if tid ≤ 0 then none else some tid.toNat) with
      | none => (some ⟨0,0⟩, p)
      | some child => (some ⟨child,((p.tasks.map.get? child).map Task.exitCode).getD 0⟩, p)
    else
      (none, p.modifyTask current fun t => { t with status := .waiting })

inductive FdError where
  | noTask
  | badFd
  | notReadable
  | notWritable
  | io (e : FsError)
deriving DecidableEq, Repr

def fileForFd (p : Processes) (fd : Nat) : Except FdError File :=
  match p.current with
  | none => .error .noTask
  | some current =>
    match (p.tasks.map.get? current).bind fun t => t.fdTable[fd]? with
    | none => .error .badFd
    | some f => .ok f

/-- Store the offset of an open file. -/
def setFile (p : Processes) (fd : Nat) (f : File) : Processes :=
  match p.current with
  | none => p
  | some current => p.modifyTask current fun t => { t with fdTable := t.fdTable.set fd f }

/-- The common part of `read_fd` and `write_fd`, with the touched offsets of the buffer. -/
def fileOp (p : Processes) (fd : Nat) (allowed : File → Bool) (denied : FdError)
    (op : File → Except FsError Nat × File × List Nat) :
    Except FdError Nat × Processes × List Nat :=
  match p.fileForFd fd with
  | .error e => (.error e, p, [])
  | .ok f =>
    if allowed f then
      let (r, f', touched) := op f
      (r.mapError FdError.io, p.setFile fd f', touched)
    else (.error denied, p, [])

def readFd (p : Processes) (fd len : Nat) : Except FdError Nat × Processes × List Nat :=
  p.fileOp fd File.canRead .notReadable fun f => f.read len

def writeFd (p : Processes) (fd len : Nat) : Except FdError Nat × Processes × List Nat :=
  p.fileOp fd File.canWrite .notWritable fun f => f.write len

end Processes

end Athera
