import Athera.Framework.Runs
import Athera.Syscall.UserMemory

/-!
# The scheduler and the trap handler

`task/scheduler.rs`, `arch/riscv64/trap.rs` and the end of `main`. A trap is one step; the call of
`switch` from `main` is cut where the lock of the task table is released. `CURRENT_TASK` has a slot for
each value of `tp`, and the trap entry leaves the `tp` of the program in place. Next to the machine we
keep, for every task, the states it may be resumed from.
-/

namespace Athera

open Framework TrapContext Function Processes

/-- `sstatus.SIE`: interrupts in supervisor mode. -/
def sieBit : Nat := 1

/-- `sstatus.SPIE`: the value of `SIE` before the trap. -/
def spieBit : Nat := 5

/-- `sstatus.SPP`: the trap came from supervisor mode. -/
def sppBit : Nat := 8

/-- What the hardware does to `sstatus` at a trap. -/
def trapSstatus (supervisor : Bool) (sstatus : Nat) : Nat :=
  withBit (withBit (withBit sstatus sppBit supervisor) spieBit (sstatus.testBit sieBit)) sieBit false

/-- What `sret` does to `sstatus`. -/
def sretSstatus (sstatus : Nat) : Nat :=
  withBit (withBit (withBit sstatus sieBit (sstatus.testBit spieBit)) spieBit true) sppBit false

def sv39 : Nat := 8

def satpValue (root : Nat) : Nat := sv39 * 2 ^ 60 + ppn root

namespace TrapContext

/-- `sret` goes to user mode. -/
def UserMode (c : TrapContext) : Prop := c.sstatus.testBit sppBit = false

instance (c : TrapContext) : Decidable c.UserMode := inferInstanceAs (Decidable (_ = _))

/-- The frame and the control registers that the trap entry hands to the handler. -/
def trapped (supervisor : Bool) (c : TrapContext) : TrapContext :=
  { c with sstatus := trapSstatus supervisor c.sstatus }

def returned (c : TrapContext) : TrapContext := { c with sstatus := sretSstatus c.sstatus }

/-- The context that `load_elf` builds, with the value of `sstatus` it has read. -/
def entry (entry sp root sstatus : Nat) : TrapContext where
  context := (Vector.replicate 32 0).set 2 sp
  satp := satpValue root
  sepc := entry
  sstatus := withBit (withBit sstatus sppBit false) spieBit true

end TrapContext

section

inductive Syscall where
  | read
  | write
  | exit
  | reboot
  | munmap
  | mremap
  | clone
  | execve
  | mmap
  | wait4
  | other
deriving DecidableEq, Repr

def Syscall.ofNumber : Nat → Syscall
  | 63 => .read
  | 64 => .write
  | 93 => .exit
  | 142 => .reboot
  | 215 => .munmap
  | 216 => .mremap
  | 220 => .clone
  | 221 => .execve
  | 222 => .mmap
  | 260 => .wait4
  | _ => .other

/-- What the rest of the kernel answers to a call: the value that is returned, with the mappings
that a memory call leaves; a copy of the memory for a child; or a new program. -/
inductive Answer where
  | value (ret : Nat) (ms : MemorySet)
  | forked (newTid : Nat) (ms : MemorySet) (root : Nat)
  | loaded (ms : MemorySet) (entry sp root : Nat)

/-- A register as a C `int`. -/
def toInt32 (n : Nat) : Int :=
  let low : Nat := n % 2 ^ 32
  if low < 2 ^ 31 then low else (low : Int) - 2 ^ 32

variable (p : Processes) (f : TrapContext)

/-- `Task::try_clone`, after the memory has been copied. -/
def Task.child (t : Task) (tid : Nat) (ms : MemorySet) (root : Nat) : Task where
  parent := some tid
  children := []
  status := .running
  memorySet := ms
  trapContext := t.trapContext.cloneChild f.context f.sepc (satpValue root)
  exitCode := 0
  fdTable := t.fdTable

/-- `clone_task`, with the number that `alloc_tid` hands out. -/
def handleClone : Answer → Option (SyscallResult × Processes)
  | .value ret _ => some (.ret ret (wrap (f.sepc + 4)), p)
  | .forked newTid ms root =>
    match p.current with
    | none => some (.ret ErrorCode.eSrch.value (wrap (f.sepc + 4)), p)
    | some tid =>
      match p.tasks.map.get? tid with
      | none => some (.ret ErrorCode.eSrch.value (wrap (f.sepc + 4)), p)
      | some t =>
        some (.ret newTid (wrap (f.sepc + 4)),
          { p with tasks := p.tasks.add newTid (some tid) (t.child f tid ms root) })
  | .loaded .. => none

/-- The end of `execve_into`. -/
def Task.load (t : Task) (ms : MemorySet) (c : TrapContext) : Task :=
  { t with memorySet := ms, trapContext := c, status := .running }

def handleExecve : Answer → Option (SyscallResult × Processes)
  | .value ret _ => some (.ret ret (wrap (f.sepc + 4)), p)
  | .forked .. => none
  | .loaded ms entry sp root =>
    match p.current with
    | none => none
    | some tid =>
      if (p.tasks.map.get? tid).isSome then
        some (.yield, p.modifyTask tid fun t =>
          t.load ms (TrapContext.entry entry sp root f.sstatus))
      else none

/-- The calls that change the mappings of the current task. -/
def handleMemory : Answer → Option (SyscallResult × Processes)
  | .value ret ms => some (.ret ret (wrap (f.sepc + 4)),
      match p.current with
      | none => p
      | some tid => p.modifyTask tid fun t => { t with memorySet := ms })
  | _ => none

/-- A call whose result the other parts of the kernel decide. -/
def handleReboot : Answer → Option (SyscallResult × Processes)
  | .value ret _ => some (.ret ret (wrap (f.sepc + 4)), p)
  | _ => none

def handle (a : Answer) : Option (SyscallResult × Processes) :=
  match Syscall.ofNumber f.context[17] with
  | .read => some ((handleRead p f.sepc f.context).1, (handleRead p f.sepc f.context).2.1)
  | .write => some ((handleWrite p f.sepc f.context).1, (handleWrite p f.sepc f.context).2.1)
  | .wait4 => some ((handleWait4 p f.sepc f.context).1, (handleWait4 p f.sepc f.context).2.1)
  | .exit => (p.exit (toInt32 (f.context.get a0Index))).map fun p => (.yield, p)
  | .clone => handleClone p f a
  | .execve => handleExecve p f a
  | .mmap | .munmap | .mremap => handleMemory p f a
  | .reboot => handleReboot p f a
  | .other => some (.ret ErrorCode.eNoSys.value (wrap (f.sepc + 4)), p)

end

/-- A program that `load_elf` has loaded at boot for the task `tid`. -/
structure Program where
  tid : Nat
  memorySet : MemorySet
  entry : Nat
  sp : Nat
  root : Nat
  sstatus : Nat
  fdTable : List File

def Program.context (g : Program) : TrapContext :=
  TrapContext.entry g.entry g.sp g.root g.sstatus

/-- The end of `exec_buffer`. -/
def Tasks.execBuffer (ts : Tasks) (g : Program) : Tasks :=
  ts.add g.tid none ⟨none,[],.running,g.memorySet,g.context,0,g.fdTable⟩

inductive Phase where
  /-- In `main`, or in its call of `switch` before a task is chosen. -/
  | boot
  /-- In the `switch` of `main`, from the release of the task table to the write of `sstatus`. -/
  | selected (tid : Nat) (ctx : TrapContext)
  | user (hart : TrapContext)
  /-- `restore_context` has returned to supervisor mode. -/
  | supervisor (hart : TrapContext)
  | halted

inductive Event where
  /-- `switch` of `main` looks for a task. -/
  | select
  /-- `switch` of `main` restores the task it has chosen. -/
  | restore
  /-- The program runs; these are its registers and where it is. -/
  | run (regs : Vector Nat 32) (sepc : Nat)
  /-- The timer, with the registers of the kernel in case that is what runs. -/
  | timer (kernel : TrapContext)
  | external
  | breakpoint
  | ecall (a : Answer)
  /-- A trap that stops the machine. -/
  | fault

/-- The handler does not look at `CURRENT_TASK`. -/
def Event.free : Event → Bool
  | .run .. | .external | .breakpoint | .fault => true
  | _ => false

/-- A context that has been restored, and the task it belongs to. -/
abbrev Restored := Option (Nat × TrapContext)

namespace Processes

def saveCurrent (p : Processes) (f : TrapContext) : Processes :=
  match p.current with
  | none => p
  | some tid => p.modifyTask tid fun t => { t with trapContext := f }

end Processes

section

variable (p : Processes) (phase : Phase)

def restoreContext (tid : Nat) (c : TrapContext) : Processes × Phase × Restored :=
  (p, if c.UserMode then .user c.returned else .supervisor c.returned, some (tid, c))

/-- `switch` in a handler; without a task it spins or panics. -/
def switch : Option (Processes × Phase × Restored) :=
  p.selectNext.map fun (chosen, p) => restoreContext p chosen.1 chosen.2

/-- `SUPERVISOR_TIMER` with the state the trap entry has saved. -/
def handleTimer (f : TrapContext) : Option (Processes × Phase × Restored) := switch (p.saveCurrent f)

/-- `U_MODE_ECALL`. -/
def handleEcall (f : TrapContext) (a : Answer) : Option (Processes × Phase × Restored) :=
  match handle p f a with
  | none => none
  | some (.ret value next, p) =>
    some (p, .user { f with
      context := f.context.set a0Index value a0Index_lt, sepc := next }.returned, none)
  | some (.yield, p) => switch p

/-- A trap of the kernel itself; only interrupts are modelled. -/
def kernelTrap : Event → Option (Processes × Phase × Restored)
  | .timer kernel => handleTimer p (kernel.trapped true)
  | .external => some (p, phase, none)
  | _ => none

/-- A step with the tasks and the slot of `CURRENT_TASK` in use. -/
def stepOn (e : Event) : Option (Processes × Phase × Restored) :=
  match phase with
  | .boot =>
    match e with
    | .select => p.selectNext.map fun (chosen, p) => (p, .selected chosen.1 chosen.2, none)
    | e => kernelTrap p phase e
  | .selected tid ctx =>
    match e with
    | .restore => some (restoreContext p tid ctx)
    | e => kernelTrap p phase e
  | .user hart =>
    match e with
    | .run regs sepc => some (p, .user { hart with context := regs, sepc := sepc }, none)
    | .timer _ => handleTimer p (hart.trapped false)
    | .external => some (p, .user (hart.trapped false).returned, none)
    | .breakpoint => some (p, .user { hart.trapped false with sepc := wrap (hart.sepc + 4) }.returned, none)
    | .ecall a => handleEcall p (hart.trapped false) a
    | .fault => some (p, .halted, none)
    | _ => none
  | .supervisor _ => none
  | .halted => none

end

def maxCpu : Nat := 2

structure Machine where
  tasks : Tasks
  /-- The slots of `CURRENT_TASK`. -/
  slots : Nat → Option Nat
  /-- The number of the hart, which `_start` has put into `tp`. -/
  hart : Nat
  phase : Phase

namespace Machine

/-- `tp` in the kernel: after a trap from user mode it is that of the program. -/
def tp (m : Machine) : Nat :=
  match m.phase with
  | .user regs => regs.context[4]
  | _ => m.hart

def view (m : Machine) (tp : Nat) : Processes := ⟨m.tasks,m.slots tp⟩

/-- A slot out of range is a panic. -/
def step (m : Machine) (e : Event) : Option (Machine × Restored) :=
  if m.tp < maxCpu ∨ e.free then
    (stepOn (m.view m.tp) m.phase e).map fun (p, phase, restored) =>
      (⟨p.tasks,update m.slots m.tp p.current,m.hart,phase⟩, restored)
  else none

end Machine

open Option SortedMap

/-- The states of a task that it may be resumed from, the latest one first. -/
abbrev States := Nat → List TrapContext

def States.note (st : States) (origin : Nat × TrapContext) : States :=
  update st origin.1 (origin.2 :: st origin.1)

def callOrigins (p : Processes) (f : TrapContext) (a : Answer) : List (Nat × TrapContext) :=
  match Syscall.ofNumber f.context[17], a, p.current.bind fun tid => (p.tasks.map.get? tid).map (tid, ·) with
  | .clone, .forked newTid _ root, some (_, t) =>
    [(newTid, t.trapContext.cloneChild f.context f.sepc (satpValue root))]
  | .execve, .loaded _ entry sp root, some (tid, _) => [(tid, TrapContext.entry entry sp root f.sstatus)]
  | _, _, _ => []

/-- The states that a step adds, with the task that runs. -/
def origins (p : Processes) (phase : Phase) (running : Option Nat) (e : Event) : List (Nat × TrapContext) :=
  match phase, running with
  | .user hart, some tid =>
    match e with
    | .timer _ | .external | .breakpoint => [(tid, hart.trapped false)]
    | .ecall a => (tid, hart.trapped false) :: callOrigins p (hart.trapped false) a
    | _ => []
  | _, _ => []

structure Traced where
  machine : Machine
  /-- The task that was restored last. -/
  running : Option Nat
  states : States
  /-- What the last step has restored. -/
  restored : Restored

namespace Traced

def step (t : Traced) (e : Event) : Option Traced :=
  (t.machine.step e).map fun (m, restored) =>
    ⟨m,(restored.map Prod.fst).or t.running,
      (origins (t.machine.view t.machine.tp) t.machine.phase t.running e).foldl States.note t.states,restored⟩

/-- The machine when `main` has loaded the first programs and calls `switch`. -/
def boot (hart : Nat) (programs : List Program) : Traced where
  machine := ⟨programs.foldl Tasks.execBuffer .new,fun _ => none,hart,.boot⟩
  running := none
  states := (programs.map fun g => (g.tid, g.context)).foldl States.note fun _ => []
  restored := none

end Traced

/-- A saved context is a state of its own task and of user mode, and what is restored is the latest
state of the task. -/
structure ContextsOk (t : Traced) : Prop where
  saved : ∀ tid task, t.machine.tasks.map.get? tid = some task →
    task.trapContext ∈ t.states tid ∧ task.trapContext.UserMode
  restored : ∀ tid ctx, t.restored = some (tid, ctx) →
    (t.states tid).head? = some ctx ∧ ctx.UserMode

/-- A timer interrupt between the choice of the first task and its first instruction. -/
def inWindow (phase : Phase) (e : Event) : Bool :=
  match phase, e with
  | .selected .., .timer _ => true
  | _, _ => false

/-- A trap that switches to another task while `tp` is not the number of the hart. -/
def Machine.strays (m : Machine) (e : Event) : Bool :=
  m.tp ≠ m.hart && match m.phase, e with
  | .user _, .timer _ => true
  | .user hart, .ecall a =>
    match handle (m.view m.tp) (hart.trapped false) a with
    | some (.yield, _) => true
    | _ => false
  | _, _ => false

section

variable {c : TrapContext}

theorem trapped_userMode (c : TrapContext) : (c.trapped false).UserMode := by
  simp [UserMode,trapped,trapSstatus,testBit_withBit,spieBit,sppBit]

theorem not_userMode_trapped (c : TrapContext) : ¬ (c.trapped true).UserMode := by
  simp [UserMode,trapped,trapSstatus,testBit_withBit,sieBit,spieBit,sppBit]

theorem entry_userMode (entry sp root sstatus : Nat) :
    (TrapContext.entry entry sp root sstatus).UserMode := by
  simp [TrapContext.UserMode,TrapContext.entry,testBit_withBit,spieBit,sppBit]

theorem cloneChild_userMode (h : c.UserMode) (frame : Vector Nat 32) (sepc satp : Nat) :
    (c.cloneChild frame sepc satp).UserMode := h

end

section

variable {p p' : Processes} {st : States} {running : Option Nat} {tid : Nat} {c : TrapContext}

@[simp] theorem note_same (st : States) (tid : Nat) (c : TrapContext) :
    st.note (tid, c) tid = c::st tid := update_self ..

variable {tid' : Nat}

theorem note_other (h : tid' ≠ tid) : st.note (tid, c) tid' = st tid' :=
  update_of_ne h ..

theorem mem_note {c' : TrapContext} :
    c' ∈ st.note (tid, c) tid' ↔ (tid' = tid ∧ c' = c) ∨ c' ∈ st tid' := by
  by_cases h : tid' = tid
  · subst h
    simp
  · simp [note_other h,h]

structure Parked (p : Processes) (st : States) (running : Option Nat) : Prop where
  saved : ∀ tid task, p.tasks.map.get? tid = some task → task.trapContext ∈ st tid
  latest : ∀ tid task, p.tasks.map.get? tid = some task → some tid ≠ running →
    task.status.isRunnable = true → (st tid).head? = some task.trapContext
  user : ∀ tid, ∀ c ∈ st tid, c.UserMode

variable {g : Task → Task}

theorem get?_modifyTask : (p.modifyTask tid g).tasks.map.get? tid' =
      if tid' = tid then (p.tasks.map.get? tid').map g else p.tasks.map.get? tid' :=
  get?_modify

/-- Contexts are the same, and no task has become runnable. -/
structure Calmer (p p' : Processes) : Prop where
  current : p'.current = p.current
  tasks : ∀ tid task', p'.tasks.map.get? tid = some task' → ∃ task,
    p.tasks.map.get? tid = some task ∧ task'.trapContext = task.trapContext ∧
    (task'.status.isRunnable = true → task.status.isRunnable = true)

theorem Calmer.refl (p : Processes) : Calmer p p :=
  ⟨rfl,fun _ task h => ⟨task,h,rfl,id⟩⟩

theorem Calmer.trans {p'' : Processes} (h : Calmer p p') (h' : Calmer p' p'') : Calmer p p'' := by
  refine ⟨h'.current.trans h.current,fun tid task'' hget => ?_⟩
  obtain ⟨task',hget',hctx',hrun'⟩ := h'.tasks tid task'' hget
  obtain ⟨task,hget,hctx,hrun⟩ := h.tasks tid task' hget'
  exact ⟨task,hget,hctx'.trans hctx,fun hr => hrun (hrun' hr)⟩

theorem calmer_modifyTask (hctx : ∀ t, (g t).trapContext = t.trapContext)
    (hrun : ∀ t, (g t).status.isRunnable = true → t.status.isRunnable = true) :
    Calmer p (p.modifyTask tid g) := by
  refine ⟨rfl,fun tid' task' hget => ?_⟩
  rw [get?_modifyTask] at hget
  split at hget
  · obtain ⟨task,htask,rfl⟩ := map_eq_some_iff.mp hget
    exact ⟨task,htask,hctx task,hrun task⟩
  · exact ⟨task',hget,rfl,id⟩

theorem Parked.calmer (h : Parked p st running) (hc : ∀ tid task', p'.tasks.map.get? tid = some task' →
    ∃ task, p.tasks.map.get? tid = some task ∧ task'.trapContext = task.trapContext ∧
      (task'.status.isRunnable = true → task.status.isRunnable = true)) : Parked p' st running := by
  refine ⟨fun tid task' hget => ?_,fun tid task' hget hne hrun => ?_,h.user⟩
  · obtain ⟨task,htask,hctx,_⟩ := hc tid task' hget
    rw [hctx]
    exact h.saved tid task htask
  · obtain ⟨task,htask,hctx,hback⟩ := hc tid task' hget
    rw [hctx]
    exact h.latest tid task htask hne (hback hrun)

theorem Parked.stop (h : Parked p st (some tid))
    (hstop : ∀ task, p.tasks.map.get? tid = some task → ¬ task.status.isRunnable = true) :
    Parked p st none := by
  refine ⟨h.saved,fun tid' task hget _ hrun => ?_,h.user⟩
  by_cases he : tid' = tid
  · subst he
    exact absurd hrun (hstop task hget)
  · exact h.latest tid' task hget (by simpa using he) hrun

theorem Parked.start (h : Parked p st none) (running : Option Nat) : Parked p st running :=
  ⟨h.saved,fun tid task hget _ hrun => h.latest tid task hget (by simp) hrun,h.user⟩

theorem Parked.note (h : Parked p st (some tid)) (hc : c.UserMode) :
    Parked p (st.note (tid, c)) (some tid) := by
  refine ⟨fun tid' task hget => mem_note.mpr (.inr (h.saved tid' task hget)),?_,?_⟩
  · intro tid' task hget hne hrun
    rw [note_other (by simpa using hne)]
    exact h.latest tid' task hget hne hrun
  · intro tid' c' hc'
    rcases mem_note.mp hc' with ⟨_,rfl⟩ | hin
    · exact hc
    · exact h.user tid' c' hin

theorem Parked.set (h : Parked p (st.note (tid, c)) (some tid)) (hg : ∀ t, (g t).trapContext = c) :
    Parked (p.modifyTask tid g) (st.note (tid, c)) none := by
  refine ⟨fun tid' task' hget => ?_,fun tid' task' hget _ hrun => ?_,h.user⟩
  · rw [get?_modifyTask] at hget
    split at hget
    next he =>
      obtain ⟨task,_,rfl⟩ := map_eq_some_iff.mp hget
      rw [hg]
      exact mem_note.mpr (.inl ⟨he,rfl⟩)
    next => exact h.saved tid' task' hget
  · rw [get?_modifyTask] at hget
    split at hget
    next he =>
      obtain ⟨task,_,rfl⟩ := map_eq_some_iff.mp hget
      rw [hg,he,note_same]
      rfl
    next he => exact h.latest tid' task' hget (by simpa using he) hrun

theorem Parked.saveCurrent (h : Parked p (st.note (tid, c)) (some tid))
    (hcur : p.current = some tid) : Parked (p.saveCurrent c) (st.note (tid, c)) none := by
  rw [Processes.saveCurrent,hcur]
  exact h.set fun _ => rfl

theorem Parked.add (h : Parked p st running) {newTid : Nat} {parent : Option Nat} {task : Task}
    (hc : task.trapContext.UserMode) :
    Parked { p with tasks := p.tasks.add newTid parent task } (st.note (newTid, task.trapContext))
      running := by
  refine ⟨fun tid task' hin => ?_,fun tid task' hin hne hrun => ?_,fun tid c hin => ?_⟩
  · rw [Tasks.get?_add] at hin
    rcases withChild_cases hin with ⟨rfl,rfl⟩ | ⟨_,old,hold,rfl⟩
    · exact mem_note.mpr (.inl ⟨rfl,rfl⟩)
    · exact mem_note.mpr (.inr (h.saved tid old hold))
  · rw [Tasks.get?_add] at hin
    rcases withChild_cases hin with ⟨rfl,rfl⟩ | ⟨hother,old,hold,rfl⟩
    · rw [note_same]
      rfl
    · rw [note_other hother]
      exact h.latest tid old hold hne hrun
  · rcases mem_note.mp hin with ⟨_,rfl⟩ | hin
    · exact hc
    · exact h.user tid c hin

end

section

variable {p p' : Processes} {f : TrapContext} {a : Answer} {r : SyscallResult} {tid : Nat}

theorem calmer_setFile (p : Processes) (fd : Nat) (file : File) : Calmer p (p.setFile fd file) := by
  rw [setFile]
  split
  · exact Calmer.refl p
  · exact calmer_modifyTask (fun _ => rfl) fun _ h => h

theorem calmer_fileOp (p : Processes) (fd : Nat) (allowed : File → Bool) (denied : FdError)
    (op : File → Except FsError Nat × File × List Nat) :
    Calmer p (p.fileOp fd allowed denied op).2.1 := by
  rw [fileOp]
  split
  · exact Calmer.refl p
  · split
    · exact calmer_setFile p fd _
    · exact Calmer.refl p

theorem handleBuffer_cases (op : Nat → Nat → Except FdError Nat × Processes × List Nat)
    (hop : ∀ fd len, Calmer p (op fd len).2.1) (sepc : Nat) (regs : Vector Nat 32) :
    (∃ v n, (handleBuffer p sepc regs op).1 = .ret v n) ∧
      Calmer p (handleBuffer p sepc regs op).2.1 := by
  rw [handleBuffer]
  split
  · exact ⟨⟨_,_,rfl⟩,Calmer.refl p⟩
  · exact ⟨⟨_,_,rfl⟩,hop _ _⟩

/-- The current task cannot be chosen. -/
def Halts (p p' : Processes) : Prop := ∀ tid task, p.current = some tid →
  p'.tasks.map.get? tid = some task → ¬ task.status.isRunnable = true

theorem halts_none (hcur : p.current = none) : Halts p p' :=
  fun _ _ h => absurd (hcur.symm.trans h) (by simp)

theorem halts_modifyTask {g : Task → Task} (hcur : p.current = some tid)
    (hg : ∀ t, ¬ (g t).status.isRunnable = true) : Halts p (p.modifyTask tid g) := by
  intro tid' task h hget
  obtain rfl := some.inj (hcur.symm.trans h)
  rw [get?_modifyTask,if_pos rfl] at hget
  obtain ⟨old,_,rfl⟩ := map_eq_some_iff.mp hget
  exact hg old

theorem handleWait4_cases (p : Processes) (sepc : Nat) (regs : Vector Nat 32) :
    Calmer p (handleWait4 p sepc regs).2.1 ∧ ((∃ v n, (handleWait4 p sepc regs).1 = .ret v n) ∨
      (handleWait4 p sepc regs).1 = .yield ∧ Halts p (handleWait4 p sepc regs).2.1) := by
  have hwait : ∀ who nohang, (∃ w, p.wait4 who nohang = (some w, p)) ∨
      ∃ q, p.wait4 who nohang = (none, q) ∧ Calmer p q ∧ Halts p q := by
    intro who nohang
    rw [wait4]
    split
    next hcur => exact .inr ⟨p,rfl,Calmer.refl p,halts_none hcur⟩
    next tid hcur =>
      split
      · split
        · exact .inl ⟨_,rfl⟩
        · exact .inl ⟨_,rfl⟩
      · exact .inr ⟨_,rfl,calmer_modifyTask (fun _ => rfl) fun _ h => absurd h (by simp [TaskStatus.isRunnable]),
          halts_modifyTask hcur fun _ => by simp [TaskStatus.isRunnable]⟩
  rw [handleWait4]
  rcases hwait (toSigned regs[10]) (regs[12] % 2 == 1) with ⟨w,hw⟩ | ⟨q,hw,hcalm,hhalts⟩
  · simp only [hw]
    split
    · exact ⟨Calmer.refl p,.inl ⟨_,_,rfl⟩⟩
    · split
      · exact ⟨Calmer.refl p,.inl ⟨_,_,rfl⟩⟩
      · split <;> exact ⟨Calmer.refl p,.inl ⟨_,_,rfl⟩⟩
  · simp only [hw]
    exact ⟨hcalm,.inr ⟨trivial,hhalts⟩⟩

theorem exit_cases {code : Int} (h : p.exit code = some p') : Calmer p p' ∧ Halts p p' := by
  rw [exit] at h
  split at h
  next hcur =>
    obtain rfl := some.inj h
    exact ⟨Calmer.refl p,halts_none hcur⟩
  next tid hcur =>
    split at h
    next => exact absurd h (by simp)
    next htid =>
      split at h
      next hnone =>
        obtain rfl := some.inj h
        refine ⟨Calmer.refl p,fun tid' task h' hget => ?_⟩
        obtain rfl := some.inj (hcur.symm.trans h')
        exact absurd (hnone.symm.trans hget) (by simp)
      next t ht =>
        obtain rfl := some.inj h
        have hzombie : Calmer p (p.modifyTask tid fun t =>
            { t with exitCode := code, status := .zombie, children := [] }) :=
          calmer_modifyTask (fun _ => rfl) fun _ h => absurd h (by simp [TaskStatus.isRunnable])
        have hinit : ∀ q : Processes, Calmer q (q.modifyTask 1 fun init =>
            { init with children := init.children ++ t.children }) :=
          fun q => calmer_modifyTask (fun _ => rfl) fun _ h => h
        refine ⟨hzombie.trans (hinit _),fun tid' task h' hget hrun => ?_⟩
        obtain ⟨old,hold,_,hback⟩ := (hinit _).tasks tid' task hget
        exact halts_modifyTask hcur (fun _ => by simp [TaskStatus.isRunnable]) tid' old h' hold (hback hrun)

/-- The call gives no task a new state. -/
def Plain (p p' : Processes) (f : TrapContext) (a : Answer) (r : SyscallResult) : Prop :=
  Calmer p p' ∧ callOrigins p f a = [] ∧ ((∃ v n, r = .ret v n) ∨ r = .yield ∧ Halts p p')

theorem plain_ret {v n : Nat} (h : callOrigins p f a = []) : Plain p p f a (.ret v n) :=
  ⟨Calmer.refl p,h,.inl ⟨v,n,rfl⟩⟩

/-- The call has made a child of the current task. -/
def Forks (p p' : Processes) (f : TrapContext) (a : Answer) (r : SyscallResult) : Prop :=
  ∃ tid newTid v n ms root t, p.current = some tid ∧ p.tasks.map.get? tid = some t ∧ r = .ret v n ∧
    p' = { p with tasks := p.tasks.add newTid (some tid) (t.child f tid ms root) } ∧
    callOrigins p f a = [(newTid, (t.child f tid ms root).trapContext)]

/-- The call has loaded a program into the current task. -/
def Loads (p p' : Processes) (f : TrapContext) (a : Answer) (r : SyscallResult) : Prop :=
  ∃ tid ms entry sp root, p.current = some tid ∧ r = .yield ∧
    p' = (p.modifyTask tid fun t => t.load ms (TrapContext.entry entry sp root f.sstatus)) ∧
    callOrigins p f a = [(tid, TrapContext.entry entry sp root f.sstatus)]

theorem handleClone_cases (hcall : Syscall.ofNumber f.context[17] = .clone)
    (h : handleClone p f a = some (r, p')) : Plain p p' f a r ∨ Forks p p' f a r := by
  cases a with
  | value ret ms =>
    obtain ⟨rfl,rfl⟩ := h
    exact .inl (plain_ret (by simp [callOrigins]))
  | loaded ms entry sp root => exact absurd h (by simp [handleClone])
  | forked newTid ms root =>
    rw [handleClone] at h
    split at h
    next hcur =>
      obtain ⟨rfl,rfl⟩ := h
      exact .inl (plain_ret (by simp [callOrigins,hcur]))
    next tid hcur =>
      split at h
      next hget =>
        obtain ⟨rfl,rfl⟩ := h
        exact .inl (plain_ret (by simp [callOrigins,hcur,hget]))
      next t hget =>
        obtain ⟨rfl,rfl⟩ := h
        exact .inr ⟨tid,newTid,_,_,ms,root,t,hcur,hget,rfl,by rw [hcur],
          by simp [callOrigins,hcall,hcur,hget,Task.child]⟩

theorem handleExecve_cases (hcall : Syscall.ofNumber f.context[17] = .execve)
    (h : handleExecve p f a = some (r, p')) : Plain p p' f a r ∨ Loads p p' f a r := by
  cases a with
  | value ret ms =>
    obtain ⟨rfl,rfl⟩ := h
    exact .inl (plain_ret (by simp [callOrigins]))
  | forked newTid ms root => exact absurd h (by simp [handleExecve])
  | loaded ms entry sp root =>
    rw [handleExecve] at h
    split at h
    next => exact absurd h (by simp)
    next tid hcur =>
      split at h
      next hsome =>
        obtain ⟨t,ht⟩ := isSome_iff_exists.mp hsome
        obtain ⟨rfl,rfl⟩ := h
        exact .inr ⟨tid,ms,entry,sp,root,hcur,rfl,rfl,by simp [callOrigins,hcall,hcur,ht]⟩
      next => exact absurd h (by simp)

theorem handleMemory_plain (h : handleMemory p f a = some (r, p')) : Plain p p' f a r := by
  cases a with
  | value ret ms =>
    obtain ⟨rfl,rfl⟩ := h
    refine ⟨?_,by simp [callOrigins],.inl ⟨_,_,rfl⟩⟩
    split
    · exact Calmer.refl p
    · exact calmer_modifyTask (fun _ => rfl) fun _ h => h
  | forked newTid ms root => exact absurd h (by simp [handleMemory])
  | loaded ms entry sp root => exact absurd h (by simp [handleMemory])

theorem handle_cases (h : handle p f a = some (r, p')) :
    Plain p p' f a r ∨ Forks p p' f a r ∨ Loads p p' f a r := by
  rw [handle] at h
  cases hcall : Syscall.ofNumber f.context[17] with
  | read =>
    simp only [hcall] at h
    obtain ⟨rfl,rfl⟩ := h
    obtain ⟨hret,hcalm⟩ := handleBuffer_cases p.readFd (fun fd len => calmer_fileOp p fd _ _ _)
      f.sepc f.context
    exact .inl ⟨hcalm,by simp [callOrigins,hcall],.inl hret⟩
  | write =>
    simp only [hcall] at h
    obtain ⟨rfl,rfl⟩ := h
    obtain ⟨hret,hcalm⟩ := handleBuffer_cases p.writeFd (fun fd len => calmer_fileOp p fd _ _ _)
      f.sepc f.context
    exact .inl ⟨hcalm,by simp [callOrigins,hcall],.inl hret⟩
  | wait4 =>
    simp only [hcall] at h
    obtain ⟨rfl,rfl⟩ := h
    obtain ⟨hcalm,hres⟩ := handleWait4_cases p f.sepc f.context
    exact .inl ⟨hcalm,by simp [callOrigins,hcall],hres⟩
  | exit =>
    simp only [hcall,map_eq_some_iff] at h
    obtain ⟨q,hexit,rfl,rfl⟩ := h
    obtain ⟨hcalm,hhalts⟩ := exit_cases hexit
    exact .inl ⟨hcalm,by simp [callOrigins,hcall],.inr ⟨rfl,hhalts⟩⟩
  | clone =>
    simp only [hcall] at h
    exact (handleClone_cases hcall h).imp_right .inl
  | execve =>
    simp only [hcall] at h
    exact (handleExecve_cases hcall h).imp_right .inr
  | mmap | munmap | mremap =>
    simp only [hcall] at h
    exact .inl (handleMemory_plain h)
  | reboot =>
    simp only [hcall] at h
    cases a with
    | value ret ms =>
      obtain ⟨rfl,rfl⟩ := h
      exact .inl (plain_ret (by simp [callOrigins]))
    | forked newTid ms root => exact absurd h (by simp [handleReboot])
    | loaded ms entry sp root => exact absurd h (by simp [handleReboot])
  | other =>
    simp only [hcall] at h
    obtain ⟨rfl,rfl⟩ := h
    exact .inl (plain_ret (by simp [callOrigins,hcall]))

end

section

variable {p p' : Processes} {st : States} {m : Machine} {r : Restored} {tid : Nat}

variable {ctx : TrapContext}

theorem selectNext_cases
    (h : p.selectNext = some ((tid, ctx), p')) : ∃ task, p.tasks.map.get? tid = some task ∧
      task.status.isRunnable = true ∧ ctx = task.trapContext ∧ p'.current = some tid ∧
      p'.tasks.map = p.tasks.map.modify tid Task.markRunnable := by
  simp only [selectNext,bind_eq_bind,bind_eq_some_iff] at h
  obtain ⟨tid,hnext,task,htask,⟨rfl,rfl⟩,rfl⟩ := h
  have hrunnable : ∃ task, p.tasks.map.get? tid = some task ∧ task.status.isRunnable = true := by
    rw [Tasks.nextRunnable] at hnext
    split at hnext
    · rcases or_eq_some_iff.mp hnext with hnext | ⟨_,hnext⟩
      · exact nextKey_eq_some hnext
      · exact nextKey_eq_some hnext
    · exact nextKey_eq_some hnext
  obtain ⟨task',htask',hrun⟩ := hrunnable
  obtain rfl := some.inj (htask.symm.trans htask')
  exact ⟨task,htask,hrun,rfl,rfl,rfl⟩

theorem Parked.select (h : Parked p st none)
    (hsel : p.selectNext = some ((tid, ctx), p')) : Parked p' st none ∧ p'.current = some tid ∧
      (p'.tasks.map.get? tid).isSome ∧ (st tid).head? = some ctx ∧ ctx.UserMode := by
  obtain ⟨task,htask,hrun,rfl,hcur,hmap⟩ := selectNext_cases hsel
  have hhead := h.latest tid task htask (by simp) hrun
  refine ⟨h.calmer fun tid' task' hget => ?_,hcur,?_,hhead,h.user tid _ (List.mem_of_head? hhead)⟩
  · rw [hmap,get?_modify] at hget
    split at hget
    next he =>
      obtain ⟨old,hold,rfl⟩ := map_eq_some_iff.mp hget
      obtain rfl := some.inj (htask.symm.trans (he ▸ hold))
      exact ⟨task,hold,rfl,fun _ => hrun⟩
    next => exact ⟨task',hget,rfl,id⟩
  · rw [hmap,get?_modify,if_pos rfl,htask]
    rfl

/-- Where the hart is, which task runs, and who can be resumed. -/
def PhaseOk (p : Processes) (st : States) (running : Option Nat) : Phase → Prop
  | .boot => p.current = none ∧ Parked p st none
  | .selected tid ctx => p.current = some tid ∧ (p.tasks.map.get? tid).isSome ∧ Parked p st none ∧
    (st tid).head? = some ctx ∧ ctx.UserMode
  | .user _ => ∃ tid, running = some tid ∧ p.current = some tid ∧ Parked p st (some tid)
  | .supervisor _ => False
  | .halted => ∃ running, Parked p st running

/-- What a step leaves for the tasks and the slot in use. -/
structure ResumeOk (p : Processes) (phase : Phase) (r : Restored) (running : Option Nat) (st : States) :
    Prop where
  phase : PhaseOk p st ((r.map Prod.fst).or running) phase
  restored : ∀ tid ctx, r = some (tid, ctx) → (st tid).head? = some ctx ∧ ctx.UserMode

structure ContextInv (t : Traced) : Prop where
  phase : PhaseOk (t.machine.view t.machine.hart) t.states t.running t.machine.phase
  restored : ∀ tid ctx, t.restored = some (tid, ctx) →
    (t.states tid).head? = some ctx ∧ ctx.UserMode
  others : ∀ tp, tp ≠ t.machine.hart → t.machine.slots tp = none

variable {t : Traced} {phase phase' : Phase} {running : Option Nat} {e : Event}

theorem ContextInv.parked (h : ContextInv t) :
    ∃ running, Parked (t.machine.view t.machine.hart) t.states running := by
  have hphase := h.phase
  rw [PhaseOk.eq_def] at hphase
  split at hphase
  · exact ⟨_,hphase.2⟩
  · exact ⟨_,hphase.2.2.1⟩
  · obtain ⟨tid,_,_,hparked⟩ := hphase
    exact ⟨_,hparked⟩
  · exact hphase.elim
  · exact hphase

theorem ContextInv.contextsOk (h : ContextInv t) : ContextsOk t := by
  obtain ⟨running,hparked⟩ := h.parked
  refine ⟨fun tid task hget => ?_,h.restored⟩
  have hin := hparked.saved tid task hget
  exact ⟨hin,hparked.user tid _ hin⟩

theorem resumeOk_of_phase (h : PhaseOk p st running phase) : ResumeOk p phase none running st :=
  ⟨h,fun _ _ he => absurd he (by simp)⟩

theorem resumeOk_restore (hp : Parked p st none)
    (hcur : p.current = some tid) (hhead : (st tid).head? = some ctx) (huser : ctx.UserMode)
    (h : restoreContext p tid ctx = (p', phase, r)) : ResumeOk p' phase r running st := by
  simp only [restoreContext,if_pos huser] at h
  obtain ⟨rfl,rfl,rfl⟩ := h
  refine ⟨⟨tid,rfl,hcur,hp.start _⟩,fun tid' ctx' he => ?_⟩
  obtain ⟨rfl,rfl⟩ := Prod.mk.inj (some.inj he)
  exact ⟨hhead,huser⟩

theorem resumeOk_switch (hp : Parked p st none) (h : switch p = some (p', phase, r)) :
    ResumeOk p' phase r running st := by
  obtain ⟨⟨⟨tid,ctx⟩,p1⟩,hsel,hrestore⟩ := map_eq_some_iff.mp h
  obtain ⟨hp1,hcur,_,hhead,huser⟩ := hp.select hsel
  exact resumeOk_restore hp1 hcur hhead huser hrestore

/-- A system call of the running task, whose state at the trap has been noted. -/
theorem resumeOk_ecall {f : TrapContext} {a : Answer} (hcur : p.current = some tid)
    (hp : Parked p st (some tid)) (h : handleEcall p f a = some (p', phase, r)) :
    ResumeOk p' phase r (some tid) ((callOrigins p f a).foldl States.note st) := by
  rw [handleEcall] at h
  cases hh : handle p f a with
  | none =>
    rw [hh] at h
    exact absurd h (by simp)
  | some rp =>
    obtain ⟨res,p1⟩ := rp
    rw [hh] at h
    rcases handle_cases hh with ⟨hcalm,horig,⟨v,n,rfl⟩ | ⟨rfl,hhalts⟩⟩ |
      ⟨tid',newTid,v,n,ms,root,t,hcur',ht,rfl,rfl,horig⟩ | ⟨tid',ms,entry,sp,root,hcur',rfl,rfl,horig⟩
    · obtain ⟨rfl,rfl,rfl⟩ := some.inj h
      rw [horig]
      exact resumeOk_of_phase ⟨tid,rfl,hcalm.current.trans hcur,hp.calmer hcalm.tasks⟩
    · rw [horig]
      exact resumeOk_switch ((hp.calmer hcalm.tasks).stop fun task => hhalts tid task hcur) h
    · obtain rfl := some.inj (hcur.symm.trans hcur')
      obtain ⟨rfl,rfl,rfl⟩ := some.inj h
      rw [horig]
      have huser : (t.child f tid ms root).trapContext.UserMode :=
        cloneChild_userMode (hp.user tid _ (hp.saved tid t ht)) _ _ _
      exact resumeOk_of_phase ⟨tid,rfl,hcur,hp.add huser⟩
    · obtain rfl := some.inj (hcur.symm.trans hcur')
      rw [horig]
      exact resumeOk_switch ((hp.note (entry_userMode _ _ _ _)).set fun _ => rfl) h

theorem resumeOk_step (h : PhaseOk p st running phase) (hwin : inWindow phase e = false)
    (hm : stepOn p phase e = some (p', phase', r)) :
    ResumeOk p' phase' r running ((origins p phase running e).foldl States.note st) := by
  cases phase with
  | boot =>
    obtain ⟨hcur,hp⟩ := h
    cases e with
    | select =>
      obtain ⟨⟨⟨tid,ctx⟩,p1⟩,hsel,he⟩ := map_eq_some_iff.mp hm
      obtain ⟨rfl,rfl,rfl⟩ := he
      obtain ⟨hp',hcur',hsome,hhead,huser⟩ := hp.select hsel
      exact resumeOk_of_phase ⟨hcur',hsome,hp',hhead,huser⟩
    | timer kernel =>
      have hsave : p.saveCurrent (kernel.trapped true) = p := by rw [saveCurrent,hcur]
      have hswitch : switch (p.saveCurrent (kernel.trapped true)) = some (p', phase', r) := hm
      rw [hsave] at hswitch
      exact resumeOk_switch hp hswitch
    | external =>
      obtain ⟨rfl,rfl,rfl⟩ := some.inj hm
      exact resumeOk_of_phase ⟨hcur,hp⟩
    | restore | run | breakpoint | ecall | fault => exact absurd hm (by simp [stepOn,kernelTrap])
  | selected tid ctx =>
    obtain ⟨hcur,hsome,hp,hhead,huser⟩ := h
    cases e with
    | restore => exact resumeOk_restore hp hcur hhead huser (some.inj hm)
    | timer kernel => exact absurd hwin (by simp [inWindow])
    | external =>
      obtain ⟨rfl,rfl,rfl⟩ := some.inj hm
      exact resumeOk_of_phase ⟨hcur,hsome,hp,hhead,huser⟩
    | select | run | breakpoint | ecall | fault => exact absurd hm (by simp [stepOn,kernelTrap])
  | user hart =>
    obtain ⟨tid,rfl,hcur,hp⟩ := h
    have hnoted := hp.note (trapped_userMode hart)
    cases e with
    | run regs sepc =>
      obtain ⟨rfl,rfl,rfl⟩ := some.inj hm
      exact resumeOk_of_phase ⟨tid,rfl,hcur,hp⟩
    | timer kernel => exact resumeOk_switch (hnoted.saveCurrent hcur) hm
    | external | breakpoint =>
      obtain ⟨rfl,rfl,rfl⟩ := some.inj hm
      exact resumeOk_of_phase ⟨tid,rfl,hcur,hnoted⟩
    | ecall a => exact resumeOk_ecall hcur hnoted hm
    | fault =>
      obtain ⟨rfl,rfl,rfl⟩ := some.inj hm
      exact resumeOk_of_phase ⟨_,hp⟩
    | select | restore => exact absurd hm (by simp [stepOn])
  | supervisor hart => exact h.elim
  | halted => exact absurd hm (by simp [stepOn])

theorem Machine.step_cases {m' : Machine} (h : m.step e = some (m', r)) : ∃ p' phase',
    stepOn (m.view m.tp) m.phase e = some (p', phase', r) ∧
      m' = ⟨p'.tasks,update m.slots m.tp p'.current,m.hart,phase'⟩ := by
  rw [Machine.step] at h
  split at h
  · obtain ⟨⟨p',phase',r'⟩,hon,he⟩ := map_eq_some_iff.mp h
    obtain ⟨rfl,rfl⟩ := Prod.mk.inj he
    exact ⟨p',phase',hon,rfl⟩
  · exact absurd h (by simp)

theorem contextInv_foreign {regs : TrapContext} (h : ContextInv t) (hphase : t.machine.phase = .user regs)
    (htp : t.machine.tp ≠ t.machine.hart) (hstray : t.machine.strays e = false)
    (hm : stepOn (t.machine.view t.machine.tp) t.machine.phase e = some (p', phase', r)) :
    ContextInv ⟨⟨p'.tasks,update t.machine.slots t.machine.tp p'.current,t.machine.hart,phase'⟩,
      (r.map Prod.fst).or t.running,
      (origins (t.machine.view t.machine.tp) t.machine.phase t.running e).foldl States.note t.states,r⟩ := by
  have hcur : (t.machine.view t.machine.tp).current = none := h.others _ htp
  have hok := h.phase
  rw [hphase] at hok hm ⊢
  obtain ⟨tid,hrunning,hcur0,hp⟩ := hok
  have hnoted := hp.note (trapped_userMode regs)
  have hkeep : ∀ {p' phase' st'}, Calmer (t.machine.view t.machine.tp) p' →
      PhaseOk ⟨p'.tasks,t.machine.slots t.machine.hart⟩ st' t.running phase' →
      ContextInv ⟨⟨p'.tasks,update t.machine.slots t.machine.tp p'.current,t.machine.hart,phase'⟩,
        t.running,st',none⟩ := by
    intro p' phase' st' hcalm hnew
    refine ⟨?_,fun _ _ he => absurd he (by simp),fun tp hne => ?_⟩
    · simp only [Machine.view,update_of_ne htp.symm]
      exact hnew
    · change update t.machine.slots t.machine.tp p'.current tp = none
      by_cases he : tp = t.machine.tp
      · rw [he,update_self]
        exact hcalm.current.trans hcur
      · rw [update_of_ne he]
        exact h.others tp hne
  have hrefl := Calmer.refl (t.machine.view t.machine.tp)
  rw [hrunning] at hkeep ⊢
  cases e with
  | run regs sepc =>
    obtain ⟨rfl,rfl,rfl⟩ := some.inj hm
    exact hkeep hrefl ⟨tid,rfl,hcur0,hp⟩
  | external | breakpoint =>
    obtain ⟨rfl,rfl,rfl⟩ := some.inj hm
    exact hkeep hrefl ⟨tid,rfl,hcur0,hnoted⟩
  | fault =>
    obtain ⟨rfl,rfl,rfl⟩ := some.inj hm
    exact hkeep hrefl ⟨_,hp⟩
  | timer kernel => exact absurd hstray (by simp [Machine.strays,hphase,htp])
  | ecall a =>
    simp only [Machine.strays,hphase,htp,ne_eq,not_false_eq_true,decide_true,Bool.true_and] at hstray
    change handleEcall _ _ a = _ at hm
    rw [handleEcall] at hm
    cases hh : handle (t.machine.view t.machine.tp) (regs.trapped false) a with
    | none =>
      rw [hh] at hm
      exact absurd hm (by simp)
    | some rp =>
      obtain ⟨res,p1⟩ := rp
      rw [hh] at hm hstray
      rcases handle_cases hh with ⟨hcalm,horig,⟨v,n,rfl⟩ | ⟨rfl,_⟩⟩ | ⟨_,_,_,_,_,_,_,hcur',_⟩ |
        ⟨_,_,_,_,_,hcur',_⟩
      · obtain ⟨rfl,rfl,rfl⟩ := some.inj hm
        simp only [origins,List.foldl_cons,horig]
        exact hkeep hcalm ⟨tid,rfl,hcur0,hnoted.calmer hcalm.tasks⟩
      · exact absurd hstray (by simp)
      · exact absurd (hcur.symm.trans hcur') (by simp)
      · exact absurd (hcur.symm.trans hcur') (by simp)
  | select | restore => exact absurd hm (by simp [stepOn])

theorem contextInv_step {t' : Traced} (h : ContextInv t) (hstray : t.machine.strays e = false)
    (hwin : inWindow t.machine.phase e = false) (hstep : t.step e = some t') : ContextInv t' := by
  obtain ⟨⟨m',r⟩,hm,rfl⟩ := map_eq_some_iff.mp hstep
  obtain ⟨p',phase',hon,rfl⟩ := Machine.step_cases hm
  by_cases htp : t.machine.tp = t.machine.hart
  · simp only [htp] at hon ⊢
    have hres := resumeOk_step h.phase hwin hon
    refine ⟨?_,hres.restored,fun tp hne => ?_⟩
    · simp only [Machine.view,update_self]
      exact hres.phase
    · change update t.machine.slots t.machine.hart p'.current tp = none
      rw [update_of_ne hne]
      exact h.others tp hne
  · cases hphase : t.machine.phase with
    | user regs =>
      have hkept := contextInv_foreign h hphase htp hstray hon
      rw [hphase] at hkept
      exact hkept
    | boot | selected | supervisor | halted => exact absurd (by rw [Machine.tp,hphase]) htp

theorem switch_get? (h : switch p = some (p', phase, r)) {task : Task}
    (hget : p.tasks.map.get? tid = some task) :
    ∃ task', p'.tasks.map.get? tid = some task' ∧ task'.trapContext = task.trapContext := by
  obtain ⟨⟨⟨tid',ctx⟩,p1⟩,hsel,hrestore⟩ := map_eq_some_iff.mp h
  obtain ⟨_,_,_,_,_,hmap⟩ := selectNext_cases hsel
  obtain ⟨rfl,_⟩ := Prod.mk.inj hrestore
  simp only [hmap,get?_modify]
  split
  · exact ⟨task.markRunnable,by rw [hget]; rfl,rfl⟩
  · exact ⟨task,hget,rfl⟩

/-- In the window the timer interrupt stores the state of the kernel in the chosen task. -/
theorem window_breaks {t' : Traced} (h : ContextInv t) (hwin : ¬ inWindow t.machine.phase e = false)
    (hstep : t.step e = some t') : ¬ ContextsOk t' := by
  obtain ⟨⟨m',r⟩,hm,rfl⟩ := map_eq_some_iff.mp hstep
  obtain ⟨p',phase',hon,rfl⟩ := Machine.step_cases hm
  have hphase := h.phase
  cases hsel : t.machine.phase with
  | selected tid ctx =>
    rw [hsel] at hphase hon
    obtain ⟨hcur,hsome,_⟩ := hphase
    obtain ⟨task,htask⟩ := isSome_iff_exists.mp hsome
    have htp : t.machine.tp = t.machine.hart := by rw [Machine.tp,hsel]
    rw [htp] at hon
    cases e with
    | timer kernel =>
      have hsaved : ((t.machine.view t.machine.hart).saveCurrent (kernel.trapped true)).tasks.map.get? tid =
          some { task with trapContext := kernel.trapped true } := by
        rw [saveCurrent,hcur]
        simp only [get?_modifyTask,htask]
        rfl
      obtain ⟨task',hget,hctx⟩ := switch_get? hon hsaved
      intro hok
      have huser := (hok.saved tid task' hget).2
      rw [hctx] at huser
      exact not_userMode_trapped kernel huser
    | select | restore | run | external | breakpoint | ecall | fault =>
      exact absurd (by rw [hsel]; rfl) hwin
  | boot | user | supervisor | halted => exact absurd (by rw [hsel]; rfl) hwin

theorem contextInv_boot (hart : Nat) (programs : List Program) : ContextInv (Traced.boot hart programs) := by
  have hload : ∀ (ts : Tasks) (st : States), Parked ⟨ts,none⟩ st none →
      Parked ⟨programs.foldl Tasks.execBuffer ts,none⟩
        ((programs.map fun g => (g.tid, g.context)).foldl States.note st) none := by
    induction programs with
    | nil => exact fun _ _ h => h
    | cons g programs ih =>
      intro ts st h
      exact ih _ _ (h.add (entry_userMode _ _ _ _))
  refine ⟨⟨rfl,hload .new _ ⟨?_,?_,?_⟩⟩,fun _ _ he => absurd he (by simp [Traced.boot]),fun _ _ => rfl⟩
  · intro tid task hget
    exact absurd hget (by simp [Tasks.new])
  · intro tid task hget
    exact absurd hget (by simp [Tasks.new])
  · intro tid c hc
    exact absurd hc List.not_mem_nil

end

/-- Along a run from boot in which tasks are switched with the number of the hart in `tp`, all contexts
are right exactly when no timer interrupt arrives between the choice of the first task and its first
instruction. -/
theorem contexts_survive_iff {hart : Nat} {programs : List Program} {events : List Event} {t : Traced}
    (htp : EachStep Traced.step (fun t e => t.machine.strays e = false) events (Traced.boot hart programs))
    (hrun : run Traced.step events (Traced.boot hart programs) = some t) :
    (∀ pre, pre <+: events → ∀ t, run Traced.step pre (Traced.boot hart programs) = some t →
      ContextsOk t) ↔
    EachStep Traced.step (fun t e => inWindow t.machine.phase e = false) events (Traced.boot hart programs) :=
  forall_prefix_iff_eachStep_of (fun _ _ _ => contextInv_step) (fun _ => ContextInv.contextsOk)
    (fun _ _ _ => window_breaks) (contextInv_boot hart programs) htp hrun

def twoPrograms : List Program := [⟨1,[],0x10000,0xfffff000,0x80001000,0x40000,[]⟩,
  ⟨2,[],0x20000,0xfffff000,0x80005000,0x40000,[]⟩]

/-- Registers with the number of the hart in `tp`. -/
def regsWith (value tp : Nat) : Vector Nat 32 := (Vector.replicate 32 value).set 4 tp

/-- The first program runs and is preempted, the second one writes with another `tp` and forks, and its
child replaces itself. -/
def forkEvents : List Event := [.select,.restore,.run (regsWith 5 0) 0x10040,
  .timer ⟨.replicate 32 0,0,0,0⟩,.run ((regsWith 0 1).set 17 64) 0x2007c,.ecall (.value 0 []),
  .run ((regsWith 0 0).set 17 220) 0x20080,.ecall (.forked 3 [] 0x80009000),.timer ⟨.replicate 32 0,0,0,0⟩,
  .run ((regsWith 0 0).set 17 221) 0x20084,.ecall (.loaded [] 0x30000 0xfffff000 0x8000d000)]

theorem contexts_survive_iff_fork : ∃ t,
    run Traced.step forkEvents (Traced.boot 0 twoPrograms) = some t ∧ ContextsOk t ∧
    t.restored = some (1, ⟨regsWith 5 0,satpValue 0x80001000,0x10040,0x40020⟩) := by
  have hlast : (run Traced.step forkEvents (Traced.boot 0 twoPrograms)).map Traced.restored =
      some (some (1, ⟨regsWith 5 0,satpValue 0x80001000,0x10040,0x40020⟩)) := by decide +kernel
  obtain ⟨t,hrun,hlast⟩ := map_eq_some_iff.mp hlast
  have htp : EachStep Traced.step (fun t e => t.machine.strays e = false) forkEvents
      (Traced.boot 0 twoPrograms) := by decide +kernel
  have hwin : EachStep Traced.step (fun t e => inWindow t.machine.phase e = false) forkEvents
      (Traced.boot 0 twoPrograms) := by decide +kernel
  exact ⟨t,hrun,(contexts_survive_iff htp hrun).mpr hwin _ (List.prefix_refl _) t hrun,hlast⟩

/-- The timer fires when the first program has been chosen. -/
def windowEvents : List Event :=
  [.select,.timer ⟨.replicate 32 9,0x8000000000080001,0x80200400,0x40002⟩,
    .run (regsWith 0 0) 0x20040,.timer ⟨.replicate 32 0,0,0,0⟩]

/-- The first program is preempted with 1 in `tp`. -/
def strayEvents : List Event := [.select,.restore,.run (regsWith 5 1) 0x10040,
  .timer ⟨.replicate 32 0,0,0,0⟩,.run (regsWith 7 0) 0x20040,.timer ⟨.replicate 32 0,0,0,0⟩]

/-- At its next turn the first program is resumed in supervisor mode, or with the state of the second. -/
theorem contexts_overwritten :
    (∃ t, run Traced.step windowEvents (Traced.boot 0 twoPrograms) = some t ∧
      t.restored = some (1, ⟨.replicate 32 9,0x8000000000080001,0x80200400,0x40120⟩) ∧ ¬ ContextsOk t) ∧
    ∃ t, run Traced.step strayEvents (Traced.boot 0 twoPrograms) = some t ∧
      t.restored = some (1, ⟨regsWith 7 0,satpValue 0x80005000,0x20040,0x40020⟩) ∧ ¬ ContextsOk t := by
  constructor
  · have hlast : (run Traced.step windowEvents (Traced.boot 0 twoPrograms)).map Traced.restored =
        some (some (1, ⟨.replicate 32 9,0x8000000000080001,0x80200400,0x40120⟩)) := by decide +kernel
    obtain ⟨t,hrun,hlast⟩ := map_eq_some_iff.mp hlast
    refine ⟨t,hrun,hlast,fun hok => ?_⟩
    exact absurd (hok.restored 1 _ hlast).2 (by decide)
  · have hlast : (run Traced.step strayEvents (Traced.boot 0 twoPrograms)).map
        (fun t => (t.restored, (t.states 1).head?)) =
        some (some (1, ⟨regsWith 7 0,satpValue 0x80005000,0x20040,0x40020⟩),
          some ⟨regsWith 5 1,satpValue 0x80001000,0x10040,0x40020⟩) := by decide +kernel
    obtain ⟨t,hrun,hlast⟩ := map_eq_some_iff.mp hlast
    obtain ⟨hrestored,hstate⟩ := Prod.mk.inj hlast
    refine ⟨t,hrun,hrestored,fun hok => ?_⟩
    have hhead := (hok.restored 1 _ hrestored).1
    rw [hstate] at hhead
    exact absurd hhead (by decide)

end Athera
