import Athera.Task.Lifecycle

/-!
# Waiting for children

A task that `wait4` returns stays in the table and in the list of its parent, and keeps its number.
-/

namespace Athera

open Framework Action List Option Kernel Processes

/-- A child that `wait4` has returned, and the list that the caller had. -/
structure Reap where
  caller : Nat
  children : List Nat
  result : WaitResult
deriving DecidableEq, Repr

variable {σ : Type} [FrameAllocator σ]

namespace Kernel

def waitAnswer (k : Kernel σ) (tid : Nat) (target : Int) (nohang : Bool) : Option WaitResult :=
  (k.actAs tid).bind fun k => (k.procs.wait4 target nohang).1

/-- The child that the step returns; number 0 says that there is none. -/
def reaped (k : Kernel σ) : LifeEvent σ → List Reap
  | .wait4 tid target nohang =>
    match k.waitAnswer tid target nohang with
    | none => []
    | some r => if r.tid = 0 then [] else [⟨tid,((k.task tid).map Task.children).getD [],r⟩]
  | _ => []

def exited : LifeEvent σ → List WaitResult
  | .exit tid code => [⟨tid,code⟩]
  | _ => []

end Kernel

/-- A kernel and what has happened: every exit, every returned child, and the numbers that have been
returned and not handed out again. -/
structure History (σ : Type) where
  kernel : Kernel σ
  exits : List WaitResult
  reaps : List Reap
  returned : List Nat

namespace History

def boot (fork : ForkState σ) : History σ := ⟨Kernel.boot fork,[],[],[]⟩

def step (h : History σ) (o : LifeEvent σ) : Option (History σ) :=
  (h.kernel.step o).map fun k =>
    { kernel := k
      exits := h.exits ++ Kernel.exited o
      reaps := h.reaps ++ h.kernel.reaped o
      returned := (h.returned.filter fun tid => !k.tids.allocated tid || h.kernel.tids.allocated tid) ++
        (h.kernel.reaped o).map fun r => r.result.tid }

/-- Each exit is returned at most once, with its code and to the task that has the child in its list;
a returned task is gone and its number is free. -/
structure ReapedOnce (h : History σ) : Prop where
  toParent : ∀ r ∈ h.reaps, r.result.tid ∈ r.children
  ownCode : ∀ r ∈ h.reaps, r.result ∈ h.exits
  once : ∀ w, (h.reaps.map Reap.result).count w ≤ h.exits.count w
  gone : ∀ tid ∈ h.returned, h.kernel.task tid = none ∧
    (∀ p parent, h.kernel.task p = some parent → tid ∉ parent.children) ∧
    h.kernel.tids.allocated tid = false

end History

namespace Processes

variable {p : Processes}

theorem firstZombie_congr {p' : Processes} (h : p'.tasks = p.tasks) (l : List Nat) :
    p'.firstZombie l = p.firstZombie l := by
  induction l with
  | nil => rfl
  | cons c rest ih =>
    simp only [firstZombie]
    rw [h,ih]

theorem findZombieChild_congr {p' : Processes} (h : p'.tasks = p.tasks) (parent : Nat)
    (target : Option Nat) : p'.findZombieChild parent target = p.findZombieChild parent target := by
  simp only [findZombieChild,firstZombie_congr h]
  rw [h]

theorem firstZombie_eq_some {l : List Nat} {c : Nat} (h : p.firstZombie l = some c) :
    c ∈ l ∧ ∃ t, p.tasks.map.get? c = some t ∧ t.status = .zombie := by
  induction l with
  | nil => cases h
  | cons a rest ih =>
    simp only [firstZombie] at h
    cases ha : p.tasks.map.get? a with
    | none =>
      simp only [ha] at h
      cases h
    | some t =>
      simp only [ha] at h
      split at h
      · rename_i hzombie
        cases h
        exact ⟨mem_cons_self,t,ha,hzombie⟩
      · obtain ⟨hmem,ht⟩ := ih h
        exact ⟨mem_cons_of_mem a hmem,ht⟩

theorem findZombieChild_eq_some {parent c : Nat} {target : Option Nat}
    (h : p.findZombieChild parent target = some c) : ∃ t child, p.tasks.map.get? parent = some t ∧
      c ∈ t.children ∧ p.tasks.map.get? c = some child ∧ child.status = .zombie := by
  rw [findZombieChild] at h
  cases ht : p.tasks.map.get? parent with
  | none =>
    simp only [ht] at h
    cases h
  | some t =>
    cases target with
    | none =>
      simp only [ht] at h
      obtain ⟨hmem,child,hchild⟩ := firstZombie_eq_some h
      exact ⟨t,child,rfl,hmem,hchild⟩
    | some target =>
      simp only [ht] at h
      split at h
      · rename_i hin
        obtain ⟨hmem,child,hchild⟩ := firstZombie_eq_some h
        rw [mem_singleton] at hmem
        exact ⟨t,child,rfl,hmem ▸ hin,hchild⟩
      · cases h

end Processes

variable {o : LifeEvent σ}

namespace Kernel

variable {k k' : Kernel σ}

/-- The child that a `wait4` with `WNOHANG` looks for. -/
def waitTarget (target : Int) : Option Nat := if target ≤ 0 then none else some target.toNat

def NothingToReap (k : Kernel σ) : LifeEvent σ → Prop
  | .wait4 tid target true => k.procs.findZombieChild tid (waitTarget target) = none
  | _ => True

omit [FrameAllocator σ] in
theorem waitAnswer_nohang {tid : Nat} {target : Int} {t : Task} (ht : k.task tid = some t)
    (hstatus : t.status = .running) : k.waitAnswer tid target true =
      match k.procs.findZombieChild tid (waitTarget target) with
      | none => some ⟨0,0⟩
      | some child => some ⟨child,((k.task child).map Task.exitCode).getD 0⟩ := by
  have hget : k.procs.tasks.map.get? tid = some t := ht
  have hfind : findZombieChild { k.procs with current := some tid } tid (waitTarget target) =
      k.procs.findZombieChild tid (waitTarget target) := by
    apply findZombieChild_congr
    rfl
  simp only [waitAnswer,actAs,hget,if_pos hstatus,bind_some,wait4]
  rw [show (if target ≤ 0 then none else some target.toNat) = waitTarget target from rfl,hfind]
  cases k.procs.findZombieChild tid (waitTarget target) with
  | none => rfl
  | some c => rfl

omit [FrameAllocator σ] in
theorem reaped_spec {r : Reap} (hr : r ∈ k.reaped o) : r.result.tid ∈ r.children ∧
    ∃ target child, o = .wait4 r.caller target true ∧
      k.procs.findZombieChild r.caller (waitTarget target) = some r.result.tid ∧
      k.task r.result.tid = some child ∧ child.status = .zombie ∧ child.exitCode = r.result.exitCode := by
  cases o with
  | wait4 tid target nohang =>
    simp only [reaped] at hr
    cases hact : k.actAs tid with
    | none =>
      rw [waitAnswer,hact] at hr
      cases hr
    | some k1 =>
      obtain ⟨t,ht,hstatus,hk1⟩ := actAs_eq_some hact
      cases nohang with
      | false =>
        rw [waitAnswer,hact,hk1] at hr
        simp [wait4] at hr
      | true =>
        rw [waitAnswer_nohang ht hstatus] at hr
        cases hfind : k.procs.findZombieChild tid (waitTarget target) with
        | none =>
          rw [hfind] at hr
          cases hr
        | some c =>
          rw [hfind] at hr
          obtain ⟨t',child,ht',hmem,hchild,hzombie⟩ := findZombieChild_eq_some hfind
          have hsame : t' = t := some.inj (ht'.symm.trans ht)
          subst hsame
          have hchild' : k.task c = some child := hchild
          simp only [ht,hchild'] at hr
          split at hr
          · cases hr
          · rw [mem_singleton] at hr
            subst hr
            exact ⟨hmem,target,child,rfl,hfind,hchild',hzombie,rfl⟩
  | _ => cases hr

theorem task_zero_step (h0 : k.task 0 = none) (hstep : k.step o = some k') : k'.task 0 = none := by
  have hadd : ∀ new parent tcb, 1 ≤ new → (k.procs.tasks.add new parent tcb).map.get? 0 = none := by
    intro new parent tcb hpos
    have hget : k.procs.tasks.map.get? 0 = none := h0
    rw [Tasks.get?_add,withChild,if_neg (by omega),hget]
    rfl
  cases o with
  | execBuffer g =>
    rcases execBuffer_cases hstep with ⟨hprocs,_⟩ | ⟨new,tids,load,s,halloc,_,hprocs,_⟩
    · rw [task,hprocs]
      exact h0
    · rw [task,hprocs]
      exact hadd new none _ (TidAllocator.alloc_some halloc).2.2.1
  | cloneTask tid f =>
    rcases cloneTask_cases hstep with ⟨htasks,_⟩ | ⟨t,new,tids,ms,root,_,_,halloc,htasks,_⟩
    · rw [task,htasks]
      exact h0
    · rw [task,htasks]
      exact hadd new (some tid) _ (TidAllocator.alloc_some halloc).2.2.1
  | exit tid code =>
    obtain ⟨t,ht,_,_,_,_,hother,_⟩ := exit_cases hstep
    have hne : (0 : Nat) ≠ tid := by
      rintro rfl
      rw [h0] at ht
      cases ht
    rw [hother 0 (by decide) hne]
    exact h0
  | wait4 tid target nohang =>
    rcases (wait4_cases hstep).2 0 with hsame | ⟨t,ht,_⟩
    · rw [hsame]
      exact h0
    · rw [h0] at ht
      cases ht
  | memory fork =>
    cases hstep
    exact h0

theorem task_of_reaped (hstep : k.step o = some k') {r : Reap}
    (hr : r ∈ k.reaped o) : (k'.task r.result.tid).isSome = true := by
  obtain ⟨_,target,child,rfl,_,hchild,_⟩ := reaped_spec hr
  rcases (wait4_cases hstep).2 r.result.tid with hsame | ⟨t,_,ht'⟩
  · rw [hsame,hchild]
    rfl
  · rw [ht']
    rfl

theorem exists_reaped (h0 : k.task 0 = none) (hbad : ¬ NothingToReap k o)
    (hstep : k.step o = some k') : ∃ r, r ∈ k.reaped o := by
  cases o with
  | wait4 tid target nohang =>
    cases nohang with
    | false => exact absurd trivial hbad
    | true =>
      obtain ⟨k1,hact,_⟩ := map_eq_some_iff.mp hstep
      obtain ⟨t,ht,hstatus,_⟩ := actAs_eq_some hact
      obtain ⟨c,hfind⟩ := ne_none_iff_exists'.mp hbad
      obtain ⟨_,child,_,_,hchild,_⟩ := findZombieChild_eq_some hfind
      have hc : c ≠ 0 := by
        rintro rfl
        rw [task,hchild] at h0
        cases h0
      refine ⟨⟨tid,t.children,c,((k.task c).map Task.exitCode).getD 0⟩,?_⟩
      simp only [reaped,waitAnswer_nohang ht hstatus,hfind,if_neg hc,ht,map_some,
        getD_some,mem_singleton]
  | _ => exact absurd trivial hbad

omit [FrameAllocator σ] in
theorem reaped_eq_nil (h : NothingToReap k o) : k.reaped o = [] := by
  cases hr : k.reaped o with
  | nil => rfl
  | cons r rest =>
    have hmem : r ∈ k.reaped o := by
      rw [hr]
      exact mem_cons_self
    obtain ⟨_,target,child,rfl,hfind,_⟩ := reaped_spec hmem
    rw [NothingToReap,hfind] at h
    cases h

end Kernel

namespace History

variable {h h' : History σ}

theorem step_eq_some (hstep : h.step o = some h') :
    h.kernel.step o = some h'.kernel ∧ h'.exits = h.exits++Kernel.exited o ∧
      h'.reaps = h.reaps++h.kernel.reaped o ∧ h'.returned =
        (h.returned.filter fun tid => !h'.kernel.tids.allocated tid || h.kernel.tids.allocated tid) ++
          (h.kernel.reaped o).map fun r => r.result.tid := by
  obtain ⟨k,hk,rfl⟩ := map_eq_some_iff.mp hstep
  exact ⟨hk,rfl,rfl,rfl⟩

/-- Exited children are reaped once, and are gone then, in every state of a run exactly when no `wait4`
of the run finds one. -/
theorem reaped_once_iff {fork : ForkState σ} {events : List (LifeEvent σ)}
    (hrun : run step events (boot fork) = some h) :
    (∀ pre, pre <+: events → ∀ t, run step pre (boot fork) = some t → ReapedOnce t) ↔
      EachStep step (fun h o => h.kernel.NothingToReap o) events (boot fork) := by
  refine forall_prefix_iff_eachStep
    (I := fun h => h.reaps = [] ∧ h.returned = [] ∧ h.kernel.task 0 = none) ?_ ?_ ?_
    ⟨rfl,rfl,SortedMap.get?_empty⟩ hrun
  · intro s o s' hs hnone hstep
    obtain ⟨hkernel,_,hreaps,hreturned⟩ := step_eq_some hstep
    rw [reaped_eq_nil hnone] at hreaps hreturned
    rw [hs.1] at hreaps
    rw [hs.2.1] at hreturned
    exact ⟨hreaps,hreturned,task_zero_step hs.2.2 hkernel⟩
  · intro s hs
    constructor
    · rw [hs.1]
      exact fun r hr => by cases hr
    · rw [hs.1]
      exact fun r hr => by cases hr
    · rw [hs.1]
      exact fun w => Nat.zero_le _
    · rw [hs.2.1]
      exact fun tid htid => by cases htid
  · intro s o s' hs hbad hstep hreaped
    obtain ⟨hkernel,_,_,hreturned⟩ := step_eq_some hstep
    obtain ⟨r,hr⟩ := exists_reaped hs.2.2 hbad hkernel
    have hmem : r.result.tid ∈ s'.returned := by
      rw [hreturned]
      exact mem_append_right _ (List.mem_map.mpr ⟨r,hr,rfl⟩)
    have hsome := task_of_reaped hkernel hr
    rw [(hreaped.gone r.result.tid hmem).1] at hsome
    cases hsome

/-- Task 1 starts two children; the first one exits with 7, and task 1 looks for the second. -/
def exitEvents : List (LifeEvent BuddyLists) :=
  [startProgram,forkBy 1,forkBy 1,.exit 2 7,.wait4 1 3 true]

theorem reaped_once_iff_program : ∃ fork h, Kernel.programMemory = some fork ∧
    run step exitEvents (boot fork) = some h ∧ h.exits = [⟨2,7⟩] ∧
    ((∀ pre, pre <+: exitEvents → ∀ t, run step pre (boot fork) = some t → ReapedOnce t) ↔
      EachStep step (fun h o => h.kernel.NothingToReap o) exitEvents (boot fork)) := by
  have hruns : (programMemory.bind fun fork => run step exitEvents (boot fork)).map exits =
      some [⟨2,7⟩] := by decide +kernel
  obtain ⟨h,hh,hexits⟩ := map_eq_some_iff.mp hruns
  obtain ⟨fork,hfork,hrun⟩ := bind_eq_some_iff.mp hh
  exact ⟨fork,h,hfork,hrun,hexits,reaped_once_iff hrun⟩

/-- Task 2 exits with 7 and is returned by both calls. -/
theorem reaped_twice : ∃ fork h, Kernel.programMemory = some fork ∧
    run step [Kernel.startProgram,Kernel.forkBy 1,.exit 2 7,.wait4 1 (-1) true,.wait4 1 2 true]
      (boot fork) = some h ∧ h.exits = [⟨2,7⟩] ∧ h.reaps.map Reap.result = [⟨2,7⟩,⟨2,7⟩] ∧
    (h.kernel.task 2).isSome = true ∧ h.kernel.tids.allocated 2 = true ∧ ¬ ReapedOnce h := by
  have hruns : (programMemory.bind fun fork =>
      run step [startProgram,forkBy 1,.exit 2 7,.wait4 1 (-1) true,.wait4 1 2 true]
        (boot fork)).map (fun h => (h.exits, h.reaps.map Reap.result, (h.kernel.task 2).isSome,
          h.kernel.tids.allocated 2)) =
      some ([⟨2,7⟩], [⟨2,7⟩,⟨2,7⟩], true, true) := by decide +kernel
  obtain ⟨h,hh,hvals⟩ := map_eq_some_iff.mp hruns
  obtain ⟨fork,hfork,hrun⟩ := bind_eq_some_iff.mp hh
  simp only [Prod.mk.injEq] at hvals
  obtain ⟨hexits,hreaps,htask,htid⟩ := hvals
  refine ⟨fork,h,hfork,hrun,hexits,hreaps,htask,htid,?_⟩
  intro honce
  have hcount := honce.once ⟨2,7⟩
  rw [hexits,hreaps] at hcount
  revert hcount
  decide

end History

end Athera
