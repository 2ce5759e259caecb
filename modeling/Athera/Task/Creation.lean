import Athera.Task.Fork
import Athera.Task.Kernel

/-!
# What a failed creation leaves behind

`clone_task` and `exec_buffer` do not give back all that they have taken when they fail.
-/

namespace Athera

open Framework Action Option ForkState

variable {σ : Type} [FrameAllocator σ] {ε : Type}

section

def SpaceManager.registered (m : SpaceManager) (tid : Nat) : Bool := (m.user.get? tid).isSome

def RegisteredIs (R : Nat → Bool) (s : ForkState σ) : Prop := ∀ t, s.spaces.registered t = R t

variable {R : Nat → Bool} {s : ForkState σ}

theorem preserves_takeFrame (size : Nat) :
    Preserves (RegisteredIs R) (ForkState.takeFrame size : Action ε (ForkState σ) (Option Frame)) := by
  intro s s' h hs
  exact some.inj hs ▸ h

theorem preserves_giveFrame (f : Frame) :
    Preserves (RegisteredIs R) (ForkState.giveFrame f : Action ε (ForkState σ) Unit) := by
  intro s s' h hs
  exact some.inj hs ▸ h

theorem preserves_giveFrames (frames : List Frame) :
    Preserves (RegisteredIs R) (forEach ForkState.giveFrame frames : Action ε (ForkState σ) Unit) :=
  preserves_forEach preserves_giveFrame frames

theorem preserves_takePages (n : Nat) :
    Preserves (RegisteredIs R) (ForkState.takePages n : Action ε (ForkState σ) (List Nat)) := by
  induction n with
  | zero => exact preserves_pure []
  | succ n ih =>
    apply (preserves_takeFrame pageSize).bind
    intro r
    cases r with
    | none => exact preserves_pure []
    | some f => exact ih.bind fun pages => preserves_pure _

theorem preserves_cloneFrame (f : Frame) :
    Preserves (RegisteredIs R) (ForkState.cloneFrame f : Action ε (ForkState σ) (Option Frame)) := by
  apply (preserves_takeFrame f.size).bind
  intro r
  cases r with
  | none => exact preserves_pure none
  | some g =>
    refine Preserves.bind (preserves_modify ?_) fun _ => preserves_pure _
    intro s h
    exact h

theorem preserves_cloneFrames (done fs : List Frame) :
    Preserves (RegisteredIs (σ := σ) R) (ForkState.cloneFrames done fs) := by
  induction fs generalizing done with
  | nil => exact preserves_pure done
  | cons f fs ih =>
    apply (preserves_cloneFrame f).bind
    intro r
    cases r with
    | none => exact (preserves_giveFrames done).bind fun _ => preserves_throw _
    | some g => exact ih _

theorem preserves_cloneBacking (done : List (UserMapping × List Frame)) (ms : MemorySet) :
    Preserves (RegisteredIs (σ := σ) R) (ForkState.cloneBacking done ms) := by
  induction ms generalizing done with
  | nil => exact preserves_pure done
  | cons m ms ih =>
    exact ((preserves_cloneFrames [] m.frames).onError (preserves_giveFrames _)).bind fun _ => ih _

theorem registered_setUser {m : SpaceManager} {tid : Nat} {sp : Space} (hsp : m.user.get? tid = some sp)
    (t : SpaceState) : (m.setUser tid t).registered = m.registered := by
  funext tid'
  simp only [SpaceManager.registered,SpaceManager.setUser,SortedMap.get?_insert]
  by_cases h : tid' = tid
  · rw [if_pos h,h,hsp]
    rfl
  · rw [if_neg h]

/-- `user_map` writes the space of a registered task back. -/
theorem preserves_userMap (tid va pa : Nat) (flags : PageFlags) :
    Preserves (RegisteredIs (σ := σ) R) (ForkState.userMap tid va pa flags) := by
  intro s s' h hs
  cases hsp : s.spaces.user.get? tid with
  | none =>
    have hrun : ForkState.userMap tid va pa flags s = .err .addressSpaceNotFound s := by
      change (orThrow (s.spaces.user.get? tid) MemError.addressSpaceNotFound >>= _) s = _
      rw [hsp]
      rfl
    rw [hrun] at hs
    exact some.inj hs ▸ h
  | some sp =>
    have hset : ∀ t : SpaceState, Preserves (RegisteredIs R)
        (setSpaces (s.spaces.setUser tid t) : ForkAction σ Unit) := by
      intro t
      apply preserves_modify
      intro _ _ tid'
      rw [registered_setUser hsp]
      exact h tid'
    obtain ⟨rest,hrest,hrun⟩ : ∃ rest, (∀ pages, Preserves (RegisteredIs R) (rest pages)) ∧
        ForkState.userMap tid va pa flags s = (takePages (missingTables s.spaces sp va) >>= rest) s := by
      refine ⟨_,?_,by
        change (orThrow (s.spaces.user.get? tid) MemError.addressSpaceNotFound >>= _) s = _
        rw [hsp]
        rfl⟩
      intro pages
      cases SpaceState.map va pa flags ⟨s.spaces.mem,sp,pages⟩ with
      | ok u t => exact hset t
      | err e t => exact (hset t).bind fun _ => preserves_throw e
      | panic =>
        intro _ _ _ hs
        cases hs
    rw [hrun] at hs
    exact (preserves_takePages _).bind hrest s s' h hs

theorem preserves_repoint (tid : Nat) (backing : List (UserMapping × List Frame)) :
    Preserves (RegisteredIs (σ := σ) R) (ForkState.repoint tid backing) :=
  preserves_forEach (fun _ => preserves_forEach (fun _ => preserves_userMap _ _ _ _) _) backing

theorem wp_takePages (n : Nat) (s : ForkState σ) :
    wp (ForkState.takePages n : Action ε (ForkState σ) (List Nat)) (fun _ _ => True) (fun _ _ => False) s := by
  induction n generalizing s with
  | zero => trivial
  | succ n ih =>
    have htake : wp (takeFrame pageSize : Action ε (ForkState σ) (Option Frame))
        (fun _ _ => True) (fun _ _ => False) s := trivial
    rw [takePages,wp_bind]
    apply wp_mono htake _ fun _ _ h => h
    intro r t _
    cases r with
    | none => trivial
    | some f =>
      simp only [wp_bind]
      exact ih t

theorem wp_givePages {pages : List Nat} (h : RegisteredIs R s) :
    wp (ForkState.givePages pages : Action ε (ForkState σ) Unit) (fun _ s' => RegisteredIs R s')
      (fun _ _ => False) s := by
  apply wp_forEach (fun _ s' => RegisteredIs R s') _ h
  intro p ps s' hs'
  exact hs'

theorem registered_clone (m : SpaceManager) (id : AddressSpaceId) (newTid : Nat) (pool : List Nat) :
    match m.clone id newTid pool with
    | (.ok (), m') => ∀ t, m'.registered t = (decide (t = newTid) || m.registered t)
    | (.error _, m') => m'.registered = m.registered := by
  rw [SpaceManager.clone]
  cases m.space (.managed id) with
  | none => rfl
  | some sp =>
    simp only
    cases hc : sp.tryClone m.mem pool with
    | mk r rest =>
      cases r with
      | error e => rfl
      | ok sp' =>
        intro t
        simp only [SpaceManager.registered,SortedMap.get?_insert]
        by_cases ht : t = newTid
        · simp [ht]
        · simp [ht]

theorem registered_cloneSpace (owner newTid : Nat) (s : ForkState σ) :
    wp (ForkState.cloneSpace owner newTid)
      (fun _ s' => RegisteredIs (fun t => decide (t = newTid) || s.spaces.registered t) s')
      (fun _ s' => RegisteredIs s.spaces.registered s') s := by
  rw [cloneSpace,wp_bind,wp_get,wp_bind]
  apply wp_mono (wp_takePages _ s) _ fun _ _ h => h.elim
  intro pages t _
  have hspec := registered_clone s.spaces (.user owner) newTid pages
  cases hclone : s.spaces.clone (.user owner) newTid pages with
  | mk r m =>
    rw [hclone] at hspec
    cases r with
    | error e =>
      simp only [wp_bind]
      apply wp_mono (wp_givePages _) (fun _ _ h => h) fun _ _ h => h.elim
      intro tid
      exact congrFun hspec tid
    | ok u =>
      exact wp_mono (wp_givePages hspec) (fun _ _ h => h) fun _ _ h => h.elim

/-- What `MemorySet::try_clone` does after the page table has been copied. -/
def ForkState.copyBacking (newTid : Nat) (ms : MemorySet) : ForkAction σ MemorySet := do
  let backing ← cloneBacking [] ms
  onError (repoint newTid backing) (forEach giveFrame (backing.flatMap Prod.snd))
  pure (backing.map fun b => { b.1 with frames := b.2 })

theorem preserves_copyBacking (newTid : Nat) (ms : MemorySet) :
    Preserves (RegisteredIs (σ := σ) R) (ForkState.copyBacking newTid ms) := by
  apply (preserves_cloneBacking [] ms).bind
  intro backing
  apply ((preserves_repoint newTid backing).onError (preserves_giveFrames _)).bind
  intro _
  exact preserves_pure _

end

section

variable {t : Task} {f : TrapContext} {tid newTid : Nat} {s s1 s2 : ForkState σ}

omit [FrameAllocator σ] in
theorem userRootAddr_ok (h : s.spaces.registered newTid = true) :
    ∃ root, LoadState.userRootAddr newTid s = .ok root s := by
  obtain ⟨sp,hsp⟩ := isSome_iff_exists.mp h
  refine ⟨sp.root,?_⟩
  change (orThrow (s.spaces.user.get? newTid) MemError.addressSpaceNotFound >>= _) s = _
  rw [hsp]
  rfl

theorem tryClone_of_err {e : MemError} (h : ForkState.cloneSpace tid newTid s = .err e s1) :
    t.tryClone f tid newTid s = .err e s1 := by
  change Action.bind (Action.bind (cloneSpace tid newTid) _) _ s = _
  simp only [Action.bind,h]

section

variable (h : ForkState.cloneSpace tid newTid s = .ok () s1)
include h

theorem tryClone_of_copy_err {e : MemError}
    (hcopy : ForkState.copyBacking newTid t.memorySet s1 = .err e s2) :
    t.tryClone f tid newTid s = .err e s2 := by
  change Action.bind (Action.bind (cloneSpace tid newTid) fun _ =>
    copyBacking newTid t.memorySet) _ s = _
  simp only [Action.bind,h,hcopy]

theorem registered_of_cloneSpace :
    RegisteredIs (fun t => decide (t = newTid) || s.spaces.registered t) s1 := by
  have hspec := wp_of_ok (registered_cloneSpace tid newTid s) h
  exact hspec

theorem tryClone_of_copy {ms : MemorySet}
    (hcopy : ForkState.copyBacking newTid t.memorySet s1 = .ok ms s2) :
    ∃ tcb, t.tryClone f tid newTid s = .ok tcb s2 := by
  have hreg := (preserves_copyBacking newTid t.memorySet).of_ok (registered_of_cloneSpace h) hcopy
  have hregistered : s2.spaces.registered newTid = true := by
    rw [hreg newTid]
    simp
  obtain ⟨root,hroot⟩ := userRootAddr_ok hregistered
  refine ⟨t.child f tid ms root,?_⟩
  change Action.bind (Action.bind (cloneSpace tid newTid) fun _ =>
    copyBacking newTid t.memorySet) (fun ms => Action.bind (LoadState.userRootAddr newTid)
      fun root => pure (t.child f tid ms root)) s = _
  simp only [Action.bind,h,hcopy,hroot]
  rfl

theorem tryClone_of_panic (hcopy : ForkState.copyBacking newTid t.memorySet s1 = .panic) :
    t.tryClone f tid newTid s = .panic := by
  change Action.bind (Action.bind (cloneSpace tid newTid) fun _ =>
    copyBacking newTid t.memorySet) _ s = _
  simp only [Action.bind,h,hcopy]

end

end

namespace Kernel

/-- The allocated numbers, the registered address spaces and the task table with its children. -/
structure SameTables (k k' : Kernel σ) : Prop where
  tids : k'.tids.allocated = k.tids.allocated
  spaces : k'.fork.spaces.registered = k.fork.spaces.registered
  tasks : k'.procs.tasks = k.procs.tasks

/-- If the call fails, it has changed none of the tables. -/
def Clean {α : Type} (k : Kernel σ) (o : Outcome KernelError (Kernel σ) α) : Prop :=
  ∀ e k', o = .err e k' → SameTables k k'

/-- If the page table of the current task can be copied for a number that has no address space yet,
then its frames can be copied as well. -/
def CopyFits (k : Kernel σ) : Prop :=
  ∀ tid newTid tids t s1, k.procs.current = some tid → k.tids.alloc = (some newTid, tids) →
    k.procs.tasks.map.get? tid = some t → ForkState.cloneSpace tid newTid k.fork = .ok () s1 →
    k.fork.spaces.registered newTid = true ∨
      ∀ e s2, ForkState.copyBacking newTid t.memorySet s1 ≠ .err e s2

/-- If there is a number left, the program can be loaded. -/
def LoadFits (g : Image) (k : Kernel σ) : Prop :=
  ∀ tid tids, k.tids.alloc = (some tid, tids) →
    ∀ e s, LoadState.loadElf g.buffer g.argv g.envp tid g.sstatus ⟨k.fork,[]⟩ ≠ .err e s

variable {k : Kernel σ}

theorem clean_cloneTask_iff (f : TrapContext) : Clean k (cloneTask f k) ↔ CopyFits k := by
  constructor
  · intro hclean tid newTid tids t s1 hcur halloc htask hspace
    by_cases hfresh : k.fork.spaces.registered newTid = true
    · exact .inl hfresh
    right
    intro e s2 hcopy
    have hrun : cloneTask f k = .err (.mem e) ⟨s2,k.procs,tids.dealloc newTid⟩ := by
      simp only [cloneTask,hcur,halloc,htask,tryClone_of_copy_err hspace hcopy]
    have hreg := (preserves_copyBacking newTid t.memorySet).of_err (registered_of_cloneSpace hspace) hcopy
    have hsame := congrFun (hclean _ _ hrun).spaces newTid
    rw [hreg newTid] at hsame
    simp [hfresh] at hsame
  · intro hfits e k' hrun
    rw [cloneTask] at hrun
    cases hcur : k.procs.current with
    | none =>
      simp only [hcur] at hrun
      cases hrun
      exact ⟨rfl,rfl,rfl⟩
    | some tid =>
      simp only [hcur] at hrun
      cases halloc : k.tids.alloc with
      | mk r tids =>
        cases r with
        | none =>
          simp only [halloc] at hrun
          cases hrun
          exact ⟨TidAllocator.alloc_none halloc,rfl,rfl⟩
        | some newTid =>
          have hback := TidAllocator.allocated_dealloc_alloc halloc
          simp only [halloc] at hrun
          cases htask : k.procs.tasks.map.get? tid with
          | none =>
            simp only [htask] at hrun
            cases hrun
            exact ⟨hback,rfl,rfl⟩
          | some t =>
            simp only [htask] at hrun
            cases hspace : cloneSpace tid newTid k.fork with
            | err e' s1 =>
              rw [tryClone_of_err hspace] at hrun
              cases hrun
              exact ⟨hback,funext (wp_of_err (registered_cloneSpace tid newTid k.fork) hspace),rfl⟩
            | panic =>
              have hwp := registered_cloneSpace tid newTid k.fork
              rw [wp,hspace] at hwp
              exact hwp.elim
            | ok u s1 =>
              cases hcopy : copyBacking newTid t.memorySet s1 with
              | ok ms s2 =>
                obtain ⟨tcb,htcb⟩ := tryClone_of_copy hspace hcopy
                rw [htcb] at hrun
                cases hrun
              | panic =>
                rw [tryClone_of_panic hspace hcopy] at hrun
                cases hrun
              | err e' s2 =>
                rw [tryClone_of_copy_err hspace hcopy] at hrun
                cases hrun
                have hreg := (preserves_copyBacking newTid t.memorySet).of_err
                  (registered_of_cloneSpace hspace) hcopy
                rcases hfits tid newTid tids t s1 hcur halloc htask hspace with hbefore | hno
                · refine ⟨hback,?_,rfl⟩
                  funext t'
                  rw [hreg t']
                  by_cases ht : t' = newTid
                  · simp [ht,hbefore]
                  · simp [ht]
                · exact absurd hcopy (hno e' s2)

theorem clean_execBuffer_iff (g : Image) : Clean k (execBuffer g k) ↔ LoadFits g k := by
  constructor
  · intro hclean tid tids halloc e s hload
    have hrun : execBuffer g k = .err (.load e) ⟨s.fork,k.procs,tids⟩ := by
      simp only [execBuffer,halloc,hload]
    have hsame := congrFun (hclean _ _ hrun).tids tid
    obtain ⟨hfree,hafter,_⟩ := TidAllocator.alloc_some halloc
    rw [hafter,hfree] at hsame
    simp at hsame
  · intro hfits e k' hrun
    rw [execBuffer] at hrun
    cases halloc : k.tids.alloc with
    | mk r tids =>
      cases r with
      | none =>
        simp only [halloc] at hrun
        cases hrun
        exact ⟨TidAllocator.alloc_none halloc,rfl,rfl⟩
      | some tid =>
        simp only [halloc] at hrun
        cases hload : LoadState.loadElf g.buffer g.argv g.envp tid g.sstatus ⟨k.fork,[]⟩ with
        | ok load s =>
          simp only [hload] at hrun
          cases hrun
        | panic =>
          simp only [hload] at hrun
          cases hrun
        | err e' s => exact absurd hload (hfits tid tids halloc e' s)

/-- A failed `clone_task` leaves the tables as they were exactly when it does not fail after the
address space has been registered; a failed `exec_buffer` does only when no number was left. -/
theorem creation_leaks_nothing_iff (k : Kernel σ) (f : TrapContext) (g : Image) :
    (Clean k (cloneTask f k) ↔ CopyFits k) ∧ (Clean k (execBuffer g k) ↔ LoadFits g k) :=
  ⟨clean_cloneTask_iff f,clean_execBuffer_iff g⟩

/-- Task 1 with a frame of eight pages, in a memory of sixteen. -/
def smallKernel : Option (Kernel BuddyLists) :=
  (bootFork 0x80800000 0x80810000).bind fun s =>
    match oneMapping 1 0xffffffc000000000 0x8000 readWrite s with
    | .ok ms s1 =>
      let task : Task := ⟨none,[],.running,ms,⟨.replicate 32 0,0,0xffffffc000000000,0⟩,0,[]⟩
      some ⟨s1,⟨⟨SortedMap.empty.insert 1 task,none⟩,some 1⟩,TidAllocator.new.alloc.2⟩
    | _ => none

def emptyImage (uart : FileOps) : Image := ⟨⟨0x80800000,0⟩,[],[],0,uart⟩

/-- The address space of task 2 stays registered when there is no room for the frame. The empty file
leaves task number 2 allocated. -/
theorem failed_creation_leaks : ∃ k, smallKernel = some k ∧
    ¬ Clean k (cloneTask ⟨.replicate 32 0,0,0xffffffc000000040,0⟩ k) ∧
    ¬ Clean k (execBuffer (emptyImage zeroDevice) k) := by
  have hruns : (smallKernel.map fun k =>
      ((match cloneTask ⟨.replicate 32 0,0,0xffffffc000000040,0⟩ k with
        | .err e k' => some (e, k.fork.spaces.registered 2, k'.fork.spaces.registered 2)
        | _ => none),
      match execBuffer (emptyImage zeroDevice) k with
        | .err e k' => some (e, k.tids.allocated 2, k'.tids.allocated 2)
        | _ => none)) =
      some (some (.mem .outOfMemory, false, true), some (.load (.elf .notElf), false, true)) := by
    decide +kernel
  obtain ⟨k,hk,hpair⟩ := map_eq_some_iff.mp hruns
  obtain ⟨hclone,hexec⟩ := Prod.mk.inj hpair
  refine ⟨k,hk,?_,?_⟩
  · intro hclean
    split at hclone
    · rename_i e k' hrun
      have hsame := congrFun (hclean e k' hrun).spaces 2
      simp_all
    · cases hclone
  · intro hclean
    split at hexec
    · rename_i e k' hrun
      have hsame := congrFun (hclean e k' hrun).tids 2
      simp_all
    · cases hexec

end Kernel

end Athera
