import Athera.Task.Creation

/-!
# The process tree

Runs of `exec_buffer`, `clone_task`, `exit` and `wait4`. `exit` moves the list of children to task 1
and leaves the children with the parent that has exited.
-/

namespace Athera

open Framework Action List Option SortedMap Processes TidAllocator

/-- A call of the kernel or of the given task, or a change of the memory by another part of the
kernel. -/
inductive LifeEvent (σ : Type) where
  | execBuffer (g : Kernel.Image)
  | cloneTask (tid : Nat) (f : TrapContext)
  | exit (tid : Nat) (code : Int)
  | wait4 (tid : Nat) (target : Int) (nohang : Bool)
  | memory (fork : ForkState σ)

variable {σ : Type} [FrameAllocator σ]

namespace Kernel

def boot (fork : ForkState σ) : Kernel σ := ⟨fork,⟨.new,none⟩,.new⟩

section

variable (k : Kernel σ)

/-- A running task becomes the current one. -/
def actAs (tid : Nat) : Option (Kernel σ) :=
  match k.procs.tasks.map.get? tid with
  | none => none
  | some t =>
    if t.status = .running then some { k with procs := { k.procs with current := some tid } } else none

/-- A panic ends the run. -/
def step : LifeEvent σ → Option (Kernel σ)
  | .execBuffer g => (execBuffer g k).state
  | .cloneTask tid f => (k.actAs tid).bind fun k => (cloneTask f k).state
  | .exit tid code => (k.actAs tid).bind fun k => (k.procs.exit code).map fun p => { k with procs := p }
  | .wait4 tid target nohang =>
    (k.actAs tid).map fun k => { k with procs := (k.procs.wait4 target nohang).2 }
  | .memory fork => some { k with fork := fork }

def task (tid : Nat) : Option Task := k.procs.tasks.map.get? tid

/-- Once task 1 exists, every other task is once in one children list, which belongs to a task that
has not exited, and names that task as its parent. -/
def Tree : Prop :=
  (k.task 1).isSome = true → ∀ tid t, tid ≠ 1 → k.task tid = some t →
    ∃ p parent, k.task p = some parent ∧ parent.status ≠ .zombie ∧ t.parent = some p ∧
      parent.children.count tid = 1 ∧ ∀ q other, k.task q = some other → q ≠ p → tid ∉ other.children

/-- While task 1 exists, no program is started by the kernel and no task with children exits. -/
def KeepsParents : LifeEvent σ → Prop
  | .execBuffer g => (k.task 1).isSome = true → ∀ tid tids, k.tids.alloc = (some tid, tids) →
    ∀ load s, LoadState.loadElf g.buffer g.argv g.envp tid g.sstatus ⟨k.fork,[]⟩ ≠ .ok load s
  | .exit tid _ => (k.task 1).isSome = true → ∀ t, k.task tid = some t → t.children = []
  | _ => True

end

end Kernel

section

/-- The task table and the allocated numbers, in a run that keeps the parents. -/
structure TreeInv (A : Nat → Bool) (m : Nat → Option Task) : Prop where
  known : ∀ tid t, m tid = some t → A tid = true
  first : A 1 = false → ∀ tid, m tid = none
  noInit : ∀ p parent, m p = some parent → 1 ∉ parent.children
  exist : ∀ p parent, m p = some parent → ∀ c ∈ parent.children, (m c).isSome = true
  tree : (m 1).isSome = true → ∀ tid t, tid ≠ 1 → m tid = some t →
    ∃ p parent, m p = some parent ∧ parent.status ≠ .zombie ∧ t.parent = some p ∧
      parent.children.count tid = 1 ∧ ∀ q other, m q = some other → q ≠ p → tid ∉ other.children

variable {A A' : Nat → Bool} {m m' : Nat → Option Task}

theorem TreeInv.numbers (h : TreeInv A m) (hA : ∀ tid, A tid = true → A' tid = true) : TreeInv A' m := by
  refine ⟨fun tid t ht => hA tid (h.known tid t ht),fun h1 tid => ?_,h.noInit,h.exist,h.tree⟩
  cases hA1 : A 1 with
  | false => exact h.first hA1 tid
  | true =>
    rw [hA 1 hA1] at h1
    cases h1

theorem TreeInv.statuses (h : TreeInv A m)
    (hm : ∀ tid, (m tid = none ∧ m' tid = none) ∨ ∃ t t', m tid = some t ∧ m' tid = some t' ∧
      t'.parent = t.parent ∧ t'.children = t.children ∧
      (t'.status = .zombie → t.status = .zombie ∨ t.children = [])) : TreeInv A m' := by
  have hback : ∀ tid t', m' tid = some t' → ∃ t, m tid = some t ∧ t'.parent = t.parent ∧
      t'.children = t.children ∧ (t'.status = .zombie → t.status = .zombie ∨ t.children = []) := by
    intro tid t' ht'
    rcases hm tid with ⟨_,hnone⟩ | ⟨t,u,ht,hu,hrest⟩
    · rw [hnone] at ht'
      cases ht'
    · rw [hu] at ht'
      cases ht'
      exact ⟨t,ht,hrest⟩
  have hsome : ∀ tid, (m' tid).isSome = (m tid).isSome := by
    intro tid
    rcases hm tid with ⟨h1,h2⟩ | ⟨t,u,h1,h2,_⟩
    · rw [h1,h2]
    · rw [h1,h2]
      rfl
  constructor
  · intro tid t' ht'
    obtain ⟨t,ht,_⟩ := hback tid t' ht'
    exact h.known tid t ht
  · intro h1 tid
    have hnone := h.first h1 tid
    have hs := hsome tid
    rw [hnone] at hs
    exact not_isSome_iff_eq_none.mp (by simp [hs])
  · intro p parent' hp
    obtain ⟨parent,hparent,_,hchildren,_⟩ := hback p parent' hp
    rw [hchildren]
    exact h.noInit p parent hparent
  · intro p parent' hp c hc
    obtain ⟨parent,hparent,_,hchildren,_⟩ := hback p parent' hp
    rw [hchildren] at hc
    rw [hsome]
    exact h.exist p parent hparent c hc
  · intro h1 tid t' hne ht'
    rw [hsome] at h1
    obtain ⟨t,ht,hpar,_,_⟩ := hback tid t' ht'
    obtain ⟨p,parent,hp,hstatus,hlink,hcount,honly⟩ := h.tree h1 tid t hne ht
    have hnonempty : parent.children ≠ [] := by
      intro hnil
      rw [hnil] at hcount
      cases hcount
    rcases hm p with ⟨hnone,_⟩ | ⟨u,parent',hu,hp',_,hchildren,hzombie⟩
    · rw [hnone] at hp
      cases hp
    · rw [hp] at hu
      cases hu
      refine ⟨p,parent',hp',?_,hpar.trans hlink,by rw [hchildren]; exact hcount,?_⟩
      · intro hz
        exact (hzombie hz).elim hstatus hnonempty
      · intro q other' hq hqp
        obtain ⟨other,hother,_,hsame,_⟩ := hback q other' hq
        rw [hsame]
        exact honly q other hother hqp

theorem TreeInv.fresh (h : TreeInv A m) {new : Nat} (hnew : A new = false) :
    m new = none ∧ ∀ p parent, m p = some parent → new ∉ parent.children := by
  have hnone : m new = none := by
    cases hm : m new with
    | none => rfl
    | some t =>
      rw [h.known new t hm] at hnew
      cases hnew
  refine ⟨hnone,?_⟩
  intro p parent hp hmem
  have hsome := h.exist p parent hp new hmem
  rw [hnone] at hsome
  cases hsome

variable {p new tid : Nat} {t tcb : Task}

theorem mem_withChild {c : Nat} (hnil : tcb.children = [])
    (ht : withChild m p new tcb tid = some t) (hc : c ∈ t.children) :
    ∃ old, m tid = some old ∧ (c ∈ old.children ∨ tid = p ∧ c = new) := by
  rcases withChild_cases ht with ⟨_,rfl⟩ | ⟨_,old,hold,rfl⟩
  · rw [hnil] at hc
    cases hc
  · refine ⟨old,hold,?_⟩
    by_cases hp : tid = p
    · simpa [hp] using hc
    · simpa [hp] using hc

section

variable (h : TreeInv A m) (hnew : A new = false) (hnil : tcb.children = [])
  (hA : ∀ t, A' t = (decide (t = new) || A t))
include h hnew hnil hA

theorem TreeInv.add (hone : A' 1 = true)
    (htree : (withChild m p new tcb 1).isSome = true → ∀ tid t, tid ≠ 1 →
      withChild m p new tcb tid = some t → ∃ q parent, withChild m p new tcb q = some parent ∧
        parent.status ≠ .zombie ∧ t.parent = some q ∧ parent.children.count tid = 1 ∧
        ∀ r other, withChild m p new tcb r = some other → r ≠ q → tid ∉ other.children) :
    TreeInv A' (withChild m p new tcb) := by
  refine ⟨?_,fun h1 => absurd (hone.symm.trans h1) (by simp),?_,?_,htree⟩
  · intro tid t ht
    rw [hA]
    rcases withChild_cases ht with ⟨htn,_⟩ | ⟨_,old,hold,_⟩
    · simp [htn]
    · simp [h.known tid old hold]
  · intro q parent hq hin
    obtain ⟨old,hold,hin | ⟨_,rfl⟩⟩ := mem_withChild hnil hq hin
    · exact h.noInit q old hold hin
    · rw [h.first hnew q] at hold
      cases hold
  · intro q parent hq c hc
    rw [withChild]
    by_cases hcn : c = new
    · rw [if_pos hcn]
      rfl
    · obtain ⟨old,hold,hin | ⟨_,hcn'⟩⟩ := mem_withChild hnil hq hc
      · rw [if_neg hcn,isSome_map]
        exact h.exist q old hold c hin
      · exact absurd hcn' hcn

theorem TreeInv.child {parent : Task} (hp : m p = some parent) (hstatus : parent.status ≠ .zombie)
    (hlink : tcb.parent = some p) : TreeInv A' (withChild m p new tcb) := by
  obtain ⟨hnone,hnochild⟩ := h.fresh hnew
  have hne : ∀ {q t}, m q = some t → q ≠ new := by
    rintro q t hq rfl
    rw [hnone] at hq
    cases hq
  have hA1 : A 1 = true := by
    by_contra hA1
    rw [h.first (by simpa using hA1) p] at hp
    cases hp
  refine h.add hnew hnil hA (by rw [hA,hA1,Bool.or_true]) ?_
  intro h1 tid t ht1 ht
  have hnew1 : 1 ≠ new := by
    rintro rfl
    rw [hA1] at hnew
    cases hnew
  rw [withChild,if_neg hnew1,isSome_map] at h1
  rcases withChild_cases ht with ⟨rfl,rfl⟩ | ⟨htn,old,hold,rfl⟩
  · refine ⟨p,_,withChild_of_some (hne hp) hp,hstatus,hlink,?_,?_⟩
    · simp [count_eq_zero_of_not_mem (hnochild p parent hp)]
    · intro q other hq hqp hin
      obtain ⟨o,ho,hin | ⟨hqp',_⟩⟩ := mem_withChild hnil hq hin
      · exact hnochild q o ho hin
      · exact hqp hqp'
  · obtain ⟨q,parent',hq,hstatus',hlink',hcount,honly⟩ := h.tree h1 tid old ht1 hold
    refine ⟨q,_,withChild_of_some (hne hq) hq,hstatus',hlink',?_,?_⟩
    · rw [count_append,hcount]
      split <;> simp [Ne.symm htn]
    · intro r other hr hrq hin
      obtain ⟨o,ho,hin | ⟨_,htn'⟩⟩ := mem_withChild hnil hr hin
      · exact honly r o ho hrq hin
      · exact htn htn'

theorem TreeInv.exec (hpos : 1 ≤ new) (hleast : ∀ t, 1 ≤ t → t < new → A t = true)
    (hinit : m 1 = none) : TreeInv A' (withChild m 1 new tcb) := by
  have hone : 1 = new ∨ A 1 = true := by
    by_cases hone : 1 = new
    · exact .inl hone
    · exact .inr (hleast 1 le_rfl (by omega))
  refine h.add hnew hnil hA (by rw [hA]; simpa using hone) ?_
  intro h1 tid t ht1 ht
  rcases hone with rfl | hA1
  -- task 1 is the first task of all
  · rw [withChild,if_neg ht1,h.first hnew tid] at ht
    cases ht
  · rw [withChild,hinit] at h1
    split at h1
    · rename_i hone
      rw [← hone,hA1] at hnew
      cases hnew
    · cases h1

end

end

namespace Kernel

variable {k k' : Kernel σ}

variable {tid : Nat} {g : Image} {f : TrapContext} {code : Int}

omit [FrameAllocator σ] in
theorem actAs_eq_some (h : k.actAs tid = some k') : ∃ t, k.task tid = some t ∧
    t.status = .running ∧ k' = { k with procs := { k.procs with current := some tid } } := by
  rw [actAs] at h
  cases ht : k.procs.tasks.map.get? tid with
  | none => simp [ht] at h
  | some t =>
    simp only [ht] at h
    split at h
    · rename_i hrun
      cases h
      exact ⟨t,ht,hrun,rfl⟩
    · cases h

/-- `exec_buffer` adds a task under the next number, or only takes the number. -/
theorem execBuffer_cases (h : k.step (.execBuffer g) = some k') :
    (k'.procs = k.procs ∧ ∀ t, k.tids.allocated t = true → k'.tids.allocated t = true) ∨
    ∃ new tids load s, k.tids.alloc = (some new, tids) ∧
      LoadState.loadElf g.buffer g.argv g.envp new g.sstatus ⟨k.fork,[]⟩ = .ok load s ∧
      k'.procs = { k.procs with tasks := k.procs.tasks.add new none (g.task load) } ∧ k'.tids = tids := by
  rw [step,execBuffer] at h
  cases halloc : k.tids.alloc with
  | mk r tids =>
    cases r with
    | none =>
      simp only [halloc] at h
      cases h
      refine .inl ⟨rfl,fun t ht => ?_⟩
      rw [TidAllocator.alloc_none halloc]
      exact ht
    | some new =>
      simp only [halloc] at h
      cases hload : LoadState.loadElf g.buffer g.argv g.envp new g.sstatus ⟨k.fork,[]⟩ with
      | ok load s =>
        simp only [hload] at h
        cases h
        exact .inr ⟨new,tids,load,s,rfl,hload,rfl,rfl⟩
      | err e s =>
        simp only [hload] at h
        cases h
        refine .inl ⟨rfl,fun t ht => ?_⟩
        rw [(alloc_some halloc).2.1,ht,Bool.or_true]
      | panic =>
        simp only [hload] at h
        cases h

theorem tryClone_eq_child {t tcb : Task} {new : Nat} {fork fork' : ForkState σ}
    (h : t.tryClone f tid new fork = .ok tcb fork') : ∃ ms root, tcb = t.child f tid ms root := by
  have hspec : wlp (t.tryClone f tid new) (fun tcb _ => ∃ ms root, tcb = t.child f tid ms root) fork := by
    rw [Task.tryClone,wlp_bind]
    refine wlp_mono wlp_true fun ms s _ => ?_
    rw [wlp_bind]
    refine wlp_mono wlp_true fun root s' _ => ?_
    rw [wlp_pure]
    exact ⟨ms,root,rfl⟩
  exact hspec tcb fork' h

theorem cloneTask_cases (h : k.step (.cloneTask tid f) = some k') :
    (k'.procs.tasks = k.procs.tasks ∧ k'.tids.allocated = k.tids.allocated) ∨
    ∃ t new tids ms root, k.task tid = some t ∧ t.status = .running ∧
      k.tids.alloc = (some new, tids) ∧
      k'.procs.tasks = k.procs.tasks.add new (some tid) (t.child f tid ms root) ∧ k'.tids = tids := by
  obtain ⟨k1,hact,h⟩ := bind_eq_some_iff.mp h
  obtain ⟨t,ht,hstatus,rfl⟩ := actAs_eq_some hact
  rw [cloneTask] at h
  cases halloc : k.tids.alloc with
  | mk r tids =>
    cases r with
    | none =>
      simp only [halloc] at h
      cases h
      exact .inl ⟨rfl,TidAllocator.alloc_none halloc⟩
    | some new =>
      have htask : k.procs.tasks.map.get? tid = some t := ht
      simp only [halloc,htask] at h
      cases hclone : t.tryClone f tid new k.fork with
      | ok tcb fork =>
        simp only [hclone] at h
        cases h
        obtain ⟨ms,root,rfl⟩ := tryClone_eq_child hclone
        exact .inr ⟨t,new,tids,ms,root,ht,hstatus,rfl,rfl,rfl⟩
      | err e fork =>
        simp only [hclone] at h
        cases h
        exact .inl ⟨rfl,allocated_dealloc_alloc halloc⟩
      | panic =>
        simp only [hclone] at h
        cases h

theorem exit_cases (h : k.step (.exit tid code) = some k') :
    ∃ t, k.task tid = some t ∧ t.status = .running ∧ tid ≠ 1 ∧ k'.tids = k.tids ∧
      k'.task tid = some { t with exitCode := code, status := .zombie, children := [] } ∧
      (∀ x, x ≠ 1 → x ≠ tid → k'.task x = k.task x) ∧
      k'.task 1 = (k.task 1).map fun init => { init with children := init.children++t.children } := by
  obtain ⟨k1,hact,h⟩ := bind_eq_some_iff.mp h
  obtain ⟨t,ht,hstatus,rfl⟩ := actAs_eq_some hact
  obtain ⟨procs,hexit,rfl⟩ := map_eq_some_iff.mp h
  have htask : k.procs.tasks.map.get? tid = some t := ht
  rw [exit] at hexit
  simp only [htask] at hexit
  split at hexit
  · cases hexit
  rename_i hone
  cases hexit
  refine ⟨t,ht,hstatus,hone,rfl,?_,?_,?_⟩
  · simp only [task,modifyTask]
    rw [get?_modify,if_neg hone,get?_modify,if_pos rfl,htask]
    rfl
  · intro x hx1 hx
    simp only [task,modifyTask]
    rw [get?_modify,if_neg hx1,get?_modify,if_neg hx]
  · simp only [task,modifyTask]
    rw [get?_modify,if_pos rfl,get?_modify,if_neg (Ne.symm hone)]

theorem wait4_cases {target : Int} {nohang : Bool}
    (h : k.step (.wait4 tid target nohang) = some k') : k'.tids = k.tids ∧
    ∀ x, k'.task x = k.task x ∨
      ∃ t, k.task x = some t ∧ k'.task x = some { t with status := .waiting } := by
  obtain ⟨k1,hact,rfl⟩ := map_eq_some_iff.mp h
  obtain ⟨t,ht,hstatus,rfl⟩ := actAs_eq_some hact
  refine ⟨rfl,fun x => ?_⟩
  cases nohang with
  | true =>
    left
    simp only [wait4]
    split
    · split <;> rfl
    · rename_i hfalse
      exact absurd trivial hfalse
  | false =>
    simp only [task,wait4,modifyTask]
    by_cases hx : x = tid
    · subst hx
      have htask : k.procs.tasks.map.get? x = some t := ht
      simp [get?_modify,htask]
    · simp [get?_modify,hx]

/-- The invariant of the runs that keep the parents. -/
def Linked (k : Kernel σ) : Prop := TreeInv k.tids.allocated k.task

omit [FrameAllocator σ] in
theorem linked_boot (fork : ForkState σ) : Linked (boot fork) := by
  have hnone : ∀ tid, (boot fork).task tid = none := fun tid => get?_empty
  constructor
  · intro tid t ht
    cases ht
  · intro _ tid
    exact hnone tid
  · intro p parent hp
    cases hp
  · intro p parent hp
    cases hp
  · intro h1
    cases h1

section

variable (h : Linked k)
include h

theorem Linked.execBuffer (hkeep : KeepsParents k (.execBuffer g))
    (hstep : k.step (.execBuffer g) = some k') : Linked k' := by
  rcases execBuffer_cases hstep with ⟨hprocs,hmore⟩ | ⟨new,tids,load,s,halloc,hload,hprocs,htids⟩
  · have htask : k'.task = k.task := by
      funext tid
      rw [task,task,hprocs]
    rw [Linked,htask]
    exact TreeInv.numbers h hmore
  · have hinit : k.task 1 = none := by
      cases h1 : k.task 1 with
      | none => rfl
      | some init => exact absurd hload (hkeep (by rw [h1]; rfl) new tids halloc load s)
    obtain ⟨hfree,hafter,hpos,hleast⟩ := alloc_some halloc
    have htask : k'.task = withChild k.task 1 new (g.task load) := by
      funext tid
      rw [task,hprocs]
      exact Tasks.get?_add ..
    rw [Linked,htask,htids]
    exact TreeInv.exec h hfree rfl hafter hpos hleast hinit

theorem Linked.cloneTask (hstep : k.step (.cloneTask tid f) = some k') : Linked k' := by
  rcases cloneTask_cases hstep with
    ⟨htasks,hsame⟩ | ⟨t,new,tids,ms,root,ht,hstatus,halloc,htasks,htids⟩
  · have htask : k'.task = k.task := by
      funext tid
      rw [task,task,htasks]
    rw [Linked,htask,hsame]
    exact h
  · obtain ⟨hfree,hafter,_⟩ := alloc_some halloc
    have htask : k'.task = withChild k.task tid new (t.child f tid ms root) := by
      funext tid
      rw [task,htasks]
      exact Tasks.get?_add ..
    rw [Linked,htask,htids]
    exact TreeInv.child h hfree rfl hafter ht (by rw [hstatus]; decide) rfl

/-- Without a task 1 there is no tree to keep, and the children go nowhere. -/
theorem Linked.exit (hkeep : KeepsParents k (.exit tid code))
    (hstep : k.step (.exit tid code) = some k') : Linked k' := by
  obtain ⟨t,ht,hstatus,hone,htids,hself,hother,hinit⟩ := exit_cases hstep
  rw [Linked,htids]
  cases h1 : k.task 1 with
  | some init =>
    have hnil : t.children = [] := hkeep (by rw [h1]; rfl) t ht
    refine TreeInv.statuses h fun x => ?_
    by_cases hx : x = tid
    · subst hx
      exact .inr ⟨t,_,ht,hself,rfl,hnil.symm,fun _ => .inr hnil⟩
    · by_cases hx1 : x = 1
      · subst hx1
        rw [h1,hnil,map_some,append_nil] at hinit
        exact .inr ⟨init,_,h1,hinit,rfl,rfl,fun hz => .inl hz⟩
      · rw [hother x hx1 hx]
        cases hm : k.task x with
        | none => exact .inl ⟨rfl,rfl⟩
        | some u => exact .inr ⟨u,u,rfl,rfl,rfl,rfl,fun hz => .inl hz⟩
  | none =>
    rw [h1,map_none] at hinit
    have hold : ∀ x u, k'.task x = some u → u.children = [] ∨ k.task x = some u := by
      intro x u hu
      by_cases hx : x = tid
      · rw [hx,hself] at hu
        cases hu
        exact .inl rfl
      · by_cases hx1 : x = 1
        · rw [hx1,hinit] at hu
          cases hu
        · rw [hother x hx1 hx] at hu
          exact .inr hu
    have hsome : ∀ x, (k'.task x).isSome = (k.task x).isSome := by
      intro x
      by_cases hx : x = tid
      · rw [hx,hself,ht]
        rfl
      · by_cases hx1 : x = 1
        · rw [hx1,hinit,h1]
        · rw [hother x hx1 hx]
    constructor
    · intro x u hu
      have hs := hsome x
      rw [hu] at hs
      obtain ⟨v,hv⟩ := isSome_iff_exists.mp hs.symm
      exact h.known x v hv
    · intro hA
      rw [h.first hA tid] at ht
      cases ht
    · intro p parent hp
      rcases hold p parent hp with hnil | hp
      · rw [hnil]
        exact not_mem_nil
      · exact h.noInit p parent hp
    · intro p parent hp c hc
      rcases hold p parent hp with hnil | hp
      · rw [hnil] at hc
        cases hc
      · rw [hsome]
        exact h.exist p parent hp c hc
    · intro hs
      rw [hinit] at hs
      cases hs

theorem Linked.wait4 {target : Int} {nohang : Bool}
    (hstep : k.step (.wait4 tid target nohang) = some k') : Linked k' := by
  obtain ⟨htids,htasks⟩ := wait4_cases hstep
  rw [Linked,htids]
  refine TreeInv.statuses h fun x => ?_
  rcases htasks x with hsame | ⟨t,ht,ht'⟩
  · rw [hsame]
    cases hm : k.task x with
    | none => exact .inl ⟨rfl,rfl⟩
    | some u => exact .inr ⟨u,u,rfl,rfl,rfl,rfl,fun hz => .inl hz⟩
  · exact .inr ⟨t,_,ht,ht',rfl,rfl,fun hz => by cases hz⟩

theorem Linked.step {o : LifeEvent σ} (hkeep : KeepsParents k o)
    (hstep : k.step o = some k') : Linked k' := by
  cases o with
  | execBuffer g => exact h.execBuffer hkeep hstep
  | cloneTask tid f => exact h.cloneTask hstep
  | exit tid code => exact h.exit hkeep hstep
  | wait4 tid target nohang => exact h.wait4 hstep
  | memory fork =>
    cases hstep
    exact h

/-- A program that the kernel starts beside task 1 has no parent. -/
theorem not_tree_execBuffer {new : Nat} {tids : TidAllocator} {load : Load}
    {s : LoadState σ} (h1 : (k.task 1).isSome = true) (halloc : k.tids.alloc = (some new, tids))
    (hload : LoadState.loadElf g.buffer g.argv g.envp new g.sstatus ⟨k.fork,[]⟩ = .ok load s)
    (hstep : k.step (.execBuffer g) = some k') : ¬ Tree k' := by
  obtain ⟨init,hinit⟩ := isSome_iff_exists.mp h1
  obtain ⟨hfree,_⟩ := alloc_some halloc
  have hnew1 : new ≠ 1 := by
    rintro rfl
    rw [h.known 1 init hinit] at hfree
    cases hfree
  rw [Kernel.step,Kernel.execBuffer] at hstep
  simp only [halloc,hload] at hstep
  cases hstep
  intro htree
  have hnew : (k.procs.tasks.add new none (g.task load)).map.get? new = some (g.task load) := by
    rw [Tasks.get?_add,withChild_self]
  have hone : (k.procs.tasks.add new none (g.task load)).map.get? 1 =
      some { init with children := init.children ++ [new] } := by
    rw [Tasks.get?_add]
    exact withChild_of_some (Ne.symm hnew1) hinit
  obtain ⟨p,parent,_,_,hlink,_⟩ := htree (by rw [task,hone]; rfl) new (g.task load) hnew1 hnew
  cases hlink

/-- The children of a task that exits still name it as their parent. -/
theorem not_tree_exit {t : Task}
    (h1 : (k.task 1).isSome = true) (ht : k.task tid = some t) (hchildren : t.children ≠ [])
    (hstep : k.step (.exit tid code) = some k') : ¬ Tree k' := by
  obtain ⟨t',ht',_,hone,_,hself,hother,hinit⟩ := exit_cases hstep
  rw [ht] at ht'
  cases ht'
  obtain ⟨c,hc⟩ := exists_mem_of_ne_nil t.children hchildren
  have hc1 : c ≠ 1 := by
    rintro rfl
    exact h.noInit tid t ht hc
  obtain ⟨child,hchild⟩ := isSome_iff_exists.mp (h.exist tid t ht c hc)
  obtain ⟨p,parent,_,_,hlink,_,honly⟩ := h.tree h1 c child hc1 hchild
  have hp : tid = p := by
    by_contra hne
    exact honly tid t ht hne hc
  subst hp
  -- the field of the child is the old one, whether the child is the task itself or not
  have hchild' : ∃ child', k'.task c = some child' ∧ child'.parent = some tid := by
    by_cases hct : c = tid
    · subst hct
      rw [ht] at hchild
      cases hchild
      exact ⟨_,hself,hlink⟩
    · exact ⟨child,by rw [hother c hc1 hct,hchild],hlink⟩
  obtain ⟨child',hget,hlink'⟩ := hchild'
  have h1' : (k'.task 1).isSome = true := by
    rw [hinit,isSome_map]
    exact h1
  intro htree
  obtain ⟨p,parent,hp,hstatus,hparent,_⟩ := htree h1' c child' hc1 hget
  rw [hlink'] at hparent
  cases hparent
  rw [hself] at hp
  cases hp
  exact hstatus rfl

theorem not_tree_of_not_keepsParents {o : LifeEvent σ} (hbad : ¬ KeepsParents k o)
    (hstep : k.step o = some k') : ¬ Tree k' := by
  cases o with
  | execBuffer g =>
    simp only [KeepsParents] at hbad
    push Not at hbad
    obtain ⟨h1,new,tids,halloc,load,s,hload⟩ := hbad
    exact not_tree_execBuffer h h1 halloc hload hstep
  | exit tid code =>
    simp only [KeepsParents] at hbad
    push Not at hbad
    obtain ⟨h1,t,ht,hchildren⟩ := hbad
    exact not_tree_exit h h1 ht hchildren hstep
  | _ => exact absurd trivial hbad

end

/-- The tasks form a tree in every state of a run exactly when no step of it starts a program beside
task 1 or ends a task that has children. -/
theorem process_tree_iff {fork : ForkState σ} {events : List (LifeEvent σ)} {k : Kernel σ}
    (hrun : run step events (boot fork) = some k) :
    (∀ pre, pre <+: events → ∀ t, run step pre (boot fork) = some t → Tree t) ↔
      EachStep step KeepsParents events (boot fork) :=
  forall_prefix_iff_eachStep (fun _ _ _ h hkeep hs => Linked.step h hkeep hs) (fun _ h => TreeInv.tree h)
    (fun _ _ _ h hbad hs => not_tree_of_not_keepsParents h hbad hs) (linked_boot fork) hrun

/-- A memory of 64 pages, and a program without program headers in the kernel below it. -/
def programMemory : Option (ForkState BuddyLists) :=
  (bootFork 0x80800000 0x80840000).map fun s =>
    { s with mem := s.mem.store 0x80200000 ([0x7f,0x45,0x4c,0x46,2,1] ++ List.replicate 22 0 ++
      [0xc0,0xff,0xff,0xff] ++ List.replicate 32 0) }

def startProgram : LifeEvent BuddyLists := .execBuffer ⟨⟨0x80200000,64⟩,[],[],0,zeroDevice⟩

def forkBy (tid : Nat) : LifeEvent BuddyLists := .cloneTask tid ⟨.replicate 32 0,0,0xffffffc000000040,0⟩

def runProgram (events : List (LifeEvent BuddyLists)) : Option (Kernel BuddyLists) :=
  programMemory.bind fun fork => run step events (boot fork)

theorem process_tree_iff_program : ∃ fork k, programMemory = some fork ∧
    run step [startProgram,forkBy 1,.exit 2 7,.wait4 1 (-1) true] (boot fork) = some k ∧
    ((∀ pre, pre <+: [startProgram,forkBy 1,.exit 2 7,.wait4 1 (-1) true] →
      ∀ t, run step pre (boot fork) = some t → Tree t) ↔
      EachStep step KeepsParents [startProgram,forkBy 1,.exit 2 7,.wait4 1 (-1) true] (boot fork)) := by
  have hruns : (runProgram [startProgram,forkBy 1,.exit 2 7,.wait4 1 (-1) true]).isSome = true := by
    decide +kernel
  obtain ⟨k,hk⟩ := isSome_iff_exists.mp hruns
  obtain ⟨fork,hfork,hrun⟩ := bind_eq_some_iff.mp hk
  exact ⟨fork,k,hfork,hrun,process_tree_iff hrun⟩

/-- Task 2 forks and exits: task 3 still names it. A second program names nobody. -/
theorem tree_lost : ∃ fork, programMemory = some fork ∧
    (∃ k, run step [startProgram,forkBy 1,forkBy 2,.exit 2 0] (boot fork) = some k ∧ ¬ Tree k) ∧
    ∃ k, run step [startProgram,startProgram] (boot fork) = some k ∧ ¬ Tree k := by
  have horphan : (runProgram [startProgram,forkBy 1,forkBy 2,.exit 2 0]).map (fun k =>
      ((k.task 1).isSome, (k.task 2).map Task.status, (k.task 3).map Task.parent)) =
      some (true, some .zombie, some (some 2)) := by decide +kernel
  have hsecond : (runProgram [startProgram,startProgram]).map (fun k =>
      ((k.task 1).isSome, (k.task 2).map Task.parent)) = some (true, some none) := by decide +kernel
  obtain ⟨k,hk,hvals⟩ := map_eq_some_iff.mp horphan
  obtain ⟨k',hk',hvals'⟩ := map_eq_some_iff.mp hsecond
  obtain ⟨fork,hfork,hrun⟩ := bind_eq_some_iff.mp hk
  obtain ⟨fork',hfork',hrun'⟩ := bind_eq_some_iff.mp hk'
  rw [hfork] at hfork'
  cases hfork'
  simp only [Prod.mk.injEq,map_eq_some_iff] at hvals hvals'
  obtain ⟨h1,⟨t2,ht2,hzombie⟩,t3,ht3,hparent3⟩ := hvals
  obtain ⟨h1',t2',ht2',hparent2⟩ := hvals'
  refine ⟨fork,hfork,⟨k,hrun,?_⟩,k',hrun',?_⟩
  · intro htree
    obtain ⟨p,parent,hp,hstatus,hlink,_⟩ := htree h1 3 t3 (by decide) ht3
    rw [hparent3] at hlink
    cases hlink
    rw [ht2] at hp
    cases hp
    exact hstatus hzombie
  · intro htree
    obtain ⟨p,parent,_,_,hlink,_⟩ := htree h1' 2 t2' (by decide) ht2'
    rw [hparent2] at hlink
    cases hlink

end Kernel

end Athera
