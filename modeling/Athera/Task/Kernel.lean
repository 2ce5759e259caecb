import Athera.IdAlloc.Refinement
import Athera.Task.Exec

/-!
# Creation of tasks

`clone_task` of `task.rs` and `exec_buffer` of `task/exec.rs`, which take from different parts of
the kernel one after the other.
-/

namespace Athera

open Framework Action

def tidMax : Nat := 1024

def tidSpace : IdSpace := ⟨64,0,1,tidMax,by decide,by decide,by decide,by decide,by decide⟩

/-- `TID_ALLOCATOR`; the kernel reserves no blocks of it. -/
structure TidAllocator where
  ids : IdAlloc
  ok : ∃ A, IdAlloc.Refines tidSpace ids ⟨A,∅⟩

namespace TidAllocator

def new : TidAllocator := ⟨⟨.new 1 tidMax,.empty⟩,_,IdAlloc.refines_new tidSpace⟩

variable {A : Finset Nat} {ids : IdAlloc}

variable {tid : Nat}

theorem mem_free_tids : tid ∈ tidSpace.free ⟨A,∅⟩ ↔ (1 ≤ tid ∧ tid < tidMax) ∧ tid ∉ A := by
  rw [IdSpace.mem_free,IdSpace.mem_range]
  simp [tidSpace]

/-- `alloc` takes the least number that is free. -/
theorem refines_alloc (h : IdAlloc.Refines tidSpace ids ⟨A,∅⟩) : match ids.alloc 64 with
    | (none, ids') => IdAlloc.Refines tidSpace ids' ⟨A,∅⟩
    | (some tid, ids') => IdAlloc.Refines tidSpace ids' ⟨insert tid A,∅⟩ ∧ tid ∉ A ∧
      1 ≤ tid ∧ ∀ t, 1 ≤ t → t < tid → t ∈ A := by
  have hstep := h.step .alloc
  simp only [IdAlloc.Agrees,IdAlloc.step,IdSpace.step,IdSpace.grantLeast] at hstep
  obtain ⟨hans,hnext⟩ := hstep
  rw [show tidSpace.bits = 64 from rfl] at hans hnext
  cases hres : ids.alloc 64 with
  | mk r ids' =>
    rw [hres] at hans hnext
    cases hleast : least (tidSpace.free ⟨A,∅⟩) with
    | none =>
      rw [hleast] at hans hnext
      cases IdAnswer.id.inj hans
      exact hnext
    | some tid =>
      rw [hleast] at hans hnext
      cases IdAnswer.id.inj hans
      obtain ⟨hmem,hmin⟩ := least_eq_some.mp hleast
      have hfree := mem_free_tids.mp hmem
      refine ⟨hnext,hfree.2,hfree.1.1,?_⟩
      intro t hpos hlt
      by_contra hnot
      exact absurd (hmin t (mem_free_tids.mpr ⟨⟨hpos,hlt.trans hfree.1.2⟩,hnot⟩)) (not_le.mpr hlt)

theorem refines_dealloc (h : IdAlloc.Refines tidSpace ids ⟨A,∅⟩) (tid : Nat) :
    IdAlloc.Refines tidSpace (IdAlloc.step 64 0 ids (.dealloc tid)).2 ⟨A.erase tid,∅⟩ := by
  have hnext := (h.step (.dealloc tid)).2
  simp only [IdSpace.step] at hnext
  by_cases hrange : tid ∈ tidSpace.range
  · rw [if_neg (not_not_intro hrange)] at hnext
    by_cases hin : tid ∈ A
    · rw [if_neg (not_not_intro hin)] at hnext
      exact hnext
    · rw [if_pos hin] at hnext
      rw [Finset.erase_eq_of_notMem hin]
      exact hnext
  · rw [if_pos hrange] at hnext
    rw [Finset.erase_eq_of_notMem fun hin => hrange (h.allocated hin)]
    exact hnext

/-- `alloc_tid`. -/
def alloc (a : TidAllocator) : Option Nat × TidAllocator :=
  ((a.ids.alloc 64).1, ⟨(a.ids.alloc 64).2, by
    obtain ⟨A,h⟩ := a.ok
    have hspec := refines_alloc h
    split at hspec
    · rename_i hres
      rw [hres]
      exact ⟨A,hspec⟩
    · rename_i hres
      rw [hres]
      exact ⟨_,hspec.1⟩⟩)

/-- `dealloc_tid`; the result of `dealloc` is ignored. -/
def dealloc (a : TidAllocator) (tid : Nat) : TidAllocator :=
  ⟨(IdAlloc.step 64 0 a.ids (.dealloc tid)).2, by
    obtain ⟨A,h⟩ := a.ok
    exact ⟨_,refines_dealloc h tid⟩⟩

def allocated (a : TidAllocator) (tid : Nat) : Bool := a.ids.isAllocated 64 0 tid

variable {a : TidAllocator}

theorem allocated_eq (h : IdAlloc.Refines tidSpace a.ids ⟨A,∅⟩) (tid : Nat) :
    a.allocated tid = decide (tid ∈ A) := h.isAllocated tid

variable {a' : TidAllocator}

theorem ids_of_alloc {r : Option Nat} (h : a.alloc = (r, a')) :
    a.ids.alloc 64 = (r, a'.ids) := congrArg (fun x : Option Nat × TidAllocator => (x.1, x.2.ids)) h

theorem alloc_none (h : a.alloc = (none, a')) : a'.allocated = a.allocated := by
  obtain ⟨A,hA⟩ := a.ok
  have hspec := refines_alloc hA
  rw [ids_of_alloc h] at hspec
  funext tid
  rw [allocated_eq hA,allocated_eq hspec]

theorem alloc_some (h : a.alloc = (some tid, a')) :
    a.allocated tid = false ∧ (∀ t, a'.allocated t = (decide (t = tid) || a.allocated t)) ∧
      1 ≤ tid ∧ ∀ t, 1 ≤ t → t < tid → a.allocated t = true := by
  obtain ⟨A,hA⟩ := a.ok
  have hspec := refines_alloc hA
  rw [ids_of_alloc h] at hspec
  obtain ⟨hnext,hnot,hpos,hmin⟩ := hspec
  refine ⟨?_,?_,hpos,?_⟩
  · rw [allocated_eq hA,decide_eq_false hnot]
  · intro t
    rw [allocated_eq hA,allocated_eq hnext]
    simp [Finset.mem_insert]
  · intro t ht hlt
    rw [allocated_eq hA,decide_eq_true (hmin t ht hlt)]

theorem allocated_dealloc (a : TidAllocator) (tid t : Nat) :
    (a.dealloc tid).allocated t = (decide (t ≠ tid) && a.allocated t) := by
  obtain ⟨A,hA⟩ := a.ok
  rw [allocated_eq hA,allocated_eq (refines_dealloc hA tid)]
  simp [Finset.mem_erase]

theorem allocated_dealloc_alloc (h : a.alloc = (some tid, a')) :
    (a'.dealloc tid).allocated = a.allocated := by
  obtain ⟨hfree,hafter,_⟩ := alloc_some h
  funext t
  rw [allocated_dealloc,hafter]
  by_cases ht : t = tid
  · subst ht
    simp [hfree]
  · simp [ht]

end TidAllocator

inductive KernelError where
  | noOtherTask
  | noTidAvailable
  | mem (e : MemError)
  | load (e : LoadError)
deriving DecidableEq, Repr

structure Kernel (σ : Type) where
  fork : ForkState σ
  procs : Processes
  tids : TidAllocator

variable {σ : Type} [FrameAllocator σ]

def Task.tryClone (t : Task) (f : TrapContext) (tid newTid : Nat) : ForkAction σ Task := do
  let ms ← ForkState.tryClone tid newTid t.memorySet
  let root ← LoadState.userRootAddr newTid
  pure (t.child f tid ms root)

namespace Kernel

def cloneTask (f : TrapContext) (k : Kernel σ) : Outcome KernelError (Kernel σ) Nat :=
  match k.procs.current with
  | none => .err .noOtherTask k
  | some tid =>
    match k.tids.alloc with
    | (none, tids) => .err .noTidAvailable { k with tids := tids }
    | (some newTid, tids) =>
      match k.procs.tasks.map.get? tid with
      | none => .err .noOtherTask { k with tids := tids.dealloc newTid }
      | some t =>
        match t.tryClone f tid newTid k.fork with
        | .ok tcb fork =>
          .ok newTid ⟨fork,{ k.procs with tasks := k.procs.tasks.add newTid (some tid) tcb },tids⟩
        | .err e fork => .err (.mem e) ⟨fork,k.procs,tids.dealloc newTid⟩
        | .panic => .panic

/-- The arguments of `exec_buffer`, the value of `sstatus` and the device of the standard files. -/
structure Image where
  buffer : Slice
  argv : List (List UInt8)
  envp : List (List UInt8)
  sstatus : Nat
  uart : FileOps

def Image.task (g : Image) (load : Load) : Task where
  parent := none
  children := []
  status := .running
  memorySet := load.memorySet
  trapContext := load.trapContext
  exitCode := 0
  fdTable := [⟨g.uart,0,0⟩,⟨g.uart,0,1⟩,⟨g.uart,0,1⟩]

def execBuffer (g : Image) (k : Kernel σ) : Outcome KernelError (Kernel σ) Unit :=
  match k.tids.alloc with
  | (none, tids) => .err .noTidAvailable { k with tids := tids }
  | (some tid, tids) =>
    match LoadState.loadElf g.buffer g.argv g.envp tid g.sstatus ⟨k.fork,[]⟩ with
    | .ok load s =>
      .ok () ⟨s.fork,{ k.procs with tasks := k.procs.tasks.add tid none (g.task load) },tids⟩
    | .err e s => .err (.load e) ⟨s.fork,k.procs,tids⟩
    | .panic => .panic

end Kernel

end Athera
