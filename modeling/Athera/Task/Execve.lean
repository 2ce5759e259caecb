import Athera.Task.Kernel
import Athera.Task.LoadSafety

/-!
# Replacing a program

`execve_into` of `task/process.rs`. The tables lie in memory, so that a write of the loader that
goes astray can change them.
-/

namespace Athera

open Framework Action List Option ForkState LoadState

section

def PageTableEntry.toWord (e : PageTableEntry) : Nat :=
  e.v.toNat + 2 * (e.flags.r.toNat + 2 * (e.flags.w.toNat + 2 * (e.flags.x.toNat +
    2 * (e.flags.u.toNat + 2 * (e.flags.g.toNat + 2 * (e.flags.a.toNat + 2 * (e.flags.d.toNat +
      8 * e.ppn)))))))

def PageTableEntry.ofWord (w : Nat) : PageTableEntry :=
  ⟨w.testBit 0,⟨w.testBit 1,w.testBit 2,w.testBit 3,w.testBit 4,w.testBit 5,w.testBit 6,w.testBit 7⟩,
    w / 2 ^ 10 % 2 ^ 44⟩

def Access.hits (a : Nat) : Access → Bool
  | .write start len _ => start ≤ a ∧ a < start + len
  | _ => false

variable {σ : Type}

namespace LoadState

def tableByte (s : LoadState σ) (page i j : Nat) : UInt8 :=
  if s.log.any (Access.hits (page + i * Memory.wordSize + j)) then s.fork.mem (page + i * Memory.wordSize + j)
  else UInt8.ofNat ((s.fork.spaces.mem page i).toWord / 256 ^ j)

/-- The writes of the loader have missed the entry. -/
def missed (s : LoadState σ) (page i : Nat) : Bool :=
  (List.range Memory.wordSize).all fun j => !s.log.any (Access.hits (page + i * Memory.wordSize + j))

def seenTables (s : LoadState σ) : TableMemory := fun page i =>
  if i < pteNumber ∧ s.missed page i = false then
    .ofWord ((List.range Memory.wordSize).map fun j => (s.tableByte page i j).toNat * 256 ^ j).sum
  else s.fork.spaces.mem page i

def seenTranslate (s : LoadState σ) (tid va : Nat) : Option (Nat × PageFlags) :=
  (s.fork.spaces.space (.managed (.user tid))).bind fun sp => Athera.translate s.seenTables sp.root va

end LoadState

end

/-- What `execve_into` works on: memory with the accesses of the loader, the tasks, and `satp`. -/
structure ExecveState (σ : Type) where
  load : LoadState σ
  procs : Processes
  satp : Nat

variable {σ : Type} [FrameAllocator σ] {α : Type}

namespace ExecveState

def task (s : ExecveState σ) (tid : Nat) : Option Task := s.procs.tasks.map.get? tid

def spaces (s : ExecveState σ) : SpaceManager := s.load.fork.spaces

def onLoad (x : LoadAction σ α) : Action Unit (ExecveState σ) α := fun s =>
  match x s.load with
  | .ok a l => .ok a { s with load := l }
  | .err _ l => .err () { s with load := l }
  | .panic => .panic

def onFork (x : ForkAction σ α) : Action Unit (ExecveState σ) α :=
  onLoad (LoadState.onFork x)

def activate (id : AddressSpaceId) : Action Unit (ExecveState σ) Unit := do
  let s ← get
  let sp ← orThrow (s.spaces.space (.managed id)) ()
  modify fun s => { s with satp := satpValue sp.root }

section

variable (tid : Nat)

/-- `remove_user`; the caller keeps the space under the number of the task. -/
def removeUser : Action Unit (ExecveState σ) Unit := do
  let s ← get
  onFork (setSpaces (s.spaces.removeUser tid tid))

/-- `insert_user`, if there was a space; what has been built of the new one is dropped. -/
def insertUser : Action Unit (ExecveState σ) Unit := do
  let s ← get
  match s.spaces.held.get? tid with
  | none => pure ()
  | some _ => do
    onFork (setSpaces (s.spaces.insertUser tid tid))
    onFork (givePages ((s.spaces.user.get? tid).elim [] Space.owned))

/-- The space that was taken out goes away. -/
def dropOld : Action Unit (ExecveState σ) Unit := do
  let s ← get
  onFork (setSpaces { s.spaces with held := s.spaces.held.erase tid })
  onFork (givePages ((s.spaces.held.get? tid).elim [] Space.owned))

/-- After a failed load; it is only reported when `satp` cannot be restored. -/
def restore (isCurrent : Bool) : Action Unit (ExecveState σ) Unit := do
  insertUser tid
  let s ← get
  if isCurrent ∧ (s.spaces.space (.managed (.user tid))).isSome then activate (.user tid) else pure ()

/-- The new program in the entry of the task, whose old memory is dropped. -/
def install (load : Load) : Action Unit (ExecveState σ) Unit := do
  let s ← get
  match s.task tid with
  | none => do
    onFork (forEach giveFrame (load.memorySet.flatMap UserMapping.frames))
    dropOld tid
    throw ()
  | some t => do
    modify fun s => { s with procs := s.procs.modifyTask tid fun t => t.load load.memorySet load.trapContext }
    onFork (forEach giveFrame (t.memorySet.flatMap UserMapping.frames))
    dropOld tid

/-- The part of `execve_into` after the file has been read. -/
def replace (buf : Slice) (argv envp : List (List UInt8)) (sstatus : Nat) (isCurrent : Bool) :
    Action Unit (ExecveState σ) Unit := do
  if isCurrent then activate .kernel else pure ()
  removeUser tid
  let load ← onError (onLoad (loadElf buf argv envp tid sstatus)) (restore tid isCurrent)
  install tid load

/-- `execve_into`, with the contents that `read_file` finds; an error stands for `None`. -/
def execveInto (file : Option Slice) (argv envp : List (List UInt8)) (sstatus : Nat) :
    Action Unit (ExecveState σ) Unit := do
  let s ← get
  match s.task tid with
  | none => throw ()
  | some _ => do
    let buf ← orThrow file ()
    replace tid buf argv envp sstatus (decide (s.procs.current = some tid))

end

end ExecveState

variable {sp : Space}

section

variable {σ : Type} {s : LoadState σ} {page : Nat}

theorem missed_iff {i : Nat} : s.missed page i = true ↔
    ∀ j < Memory.wordSize, ∀ a ∈ s.log, a.hits (page+i*Memory.wordSize+j) = false := by
  simp only [missed,List.all_eq_true,mem_range,Bool.not_eq_true',List.any_eq_false,
    Bool.not_eq_true]

/-- Where no write has hit the page the hardware finds the table. -/
theorem seenTables_of_missed (h : ∀ a ∈ s.log, ∀ x ∈ pageFrame page, a.hits x = false) :
    s.seenTables page = s.fork.spaces.mem page := by
  funext i
  rw [seenTables,if_neg]
  intro hhit
  obtain ⟨hi,hmiss⟩ := hhit
  rw [missed_iff.mpr] at hmiss
  · cases hmiss
  · intro j hj a ha
    apply h a ha
    rw [Block.mem_iff]
    simp only [pageFrame,pteNumber,Memory.wordSize,pageSize] at *
    omega

theorem seenTables_of_no_log (h : s.log = []) : s.seenTables = s.fork.spaces.mem := by
  funext page
  apply seenTables_of_missed
  rw [h]
  exact fun a ha => (nomatch ha)

end
open ExecveState


section

variable {σ : Type} {α : Type} {s : ExecveState σ} {Q : α → ExecveState σ → Prop}
  {E : Unit → ExecveState σ → Prop} {P : Prop}

@[simp] theorem wpp_onLoad {x : LoadAction σ α} :
    wpp P (onLoad x) Q E s ↔ wpp P x (fun a l => Q a { s with load := l })
      (fun _ l => E () { s with load := l }) s.load := by
  unfold wpp onLoad
  cases x s.load <;> rfl

end

variable {σ : Type} [LawfulFrameAllocator σ] {s s' : ExecveState σ} {fs : List Frame} {tid : Nat}
  {buf : Slice} {E : Unit → ExecveState σ → Prop} {P : Prop}

structure SameSpaces (s s' : ExecveState σ) : Prop where
  spaces : s'.spaces = s.spaces
  log : s'.load.log = s.load.log
  procs : s'.procs = s.procs
  satp : s'.satp = s.satp

def ExecveState.withSpaces (s : ExecveState σ) (m : SpaceManager) : ExecveState σ :=
  { s with load := { s.load with fork := { s.load.fork with spaces := m } } }

theorem giveFrames_same (s : ExecveState σ) (frames : List Frame) :
    wpp P (ExecveState.onFork (forEach giveFrame frames)) (fun _ s' => SameSpaces s s') E s := by
  rw [ExecveState.onFork,wpp_onLoad,wpp_onFork]
  refine wpp_mono (wpp_of_wp (giveFrames_spaces s.load.fork frames (E := fun _ _ => False))) ?_
    fun _ _ he => he.elim
  intro _ f hf
  exact ⟨hf,rfl,rfl,rfl⟩

theorem givePages_eq {ε : Type} (pages : List Nat) :
    (givePages pages : Action ε (ForkState σ) Unit) = forEach giveFrame (pages.map pageFrame) := by
  rw [givePages]
  induction pages with
  | nil => rfl
  | cons p pages ih =>
    rw [forEach,ih]
    rfl

theorem insertUser_spec (hheld : s.spaces.held.get? tid = some sp) : wpp P (insertUser tid)
      (fun _ s' => SameSpaces (s.withSpaces (s.spaces.insertUser tid tid)) s') E s := by
  change wpp P (match s.spaces.held.get? tid with | none => _ | some _ => _) _ _ s
  rw [hheld,givePages_eq]
  exact giveFrames_same (s.withSpaces (s.spaces.insertUser tid tid)) _

theorem dropOld_spec (s : ExecveState σ) (tid : Nat) : wpp P (dropOld tid) (fun _ s' =>
      SameSpaces (s.withSpaces { s.spaces with held := s.spaces.held.erase tid }) s') E s := by
  rw [dropOld,wpp_bind]
  change wpp P (ExecveState.onFork _ >>= fun _ => ExecveState.onFork (givePages _)) _ _ s
  rw [givePages_eq]
  exact giveFrames_same (s.withSpaces { s.spaces with held := s.spaces.held.erase tid }) _

omit [LawfulFrameAllocator σ] in
theorem activate_spec {id : AddressSpaceId} (hsp : s.spaces.space (.managed id) = some sp) :
    activate id s = .ok () { s with satp := satpValue sp.root } := by
  change (orThrow (s.spaces.space (.managed id)) () >>= fun sp =>
    modify fun s => { s with satp := satpValue sp.root }) s = _
  rw [hsp]
  rfl

theorem restore_spec {isCurrent : Bool} (hheld : s.spaces.held.get? tid = some sp) :
    wpp P (restore tid isCurrent) (fun _ s' =>
      s'.spaces = s.spaces.insertUser tid tid ∧ s'.load.log = s.load.log ∧ s'.procs = s.procs ∧
        s'.satp = if isCurrent = true then satpValue sp.root else s.satp) E s := by
  rw [restore,wpp_bind]
  refine wpp_weaken (insertUser_spec hheld) ?_
  intro _ s1 h1
  have hspaces : s1.spaces = s.spaces.insertUser tid tid := h1.spaces
  have hsp : s1.spaces.space (.managed (.user tid)) = some sp := by
    rw [hspaces,space_insertUser hheld,if_pos rfl]
    exact hheld
  change wpp P (if isCurrent = true ∧ (s1.spaces.space (.managed (.user tid))).isSome = true then
    activate (.user tid) else pure ()) _ _ s1
  cases isCurrent with
  | true =>
    rw [if_pos ⟨rfl,by rw [hsp]; rfl⟩,wpp,activate_spec hsp]
    exact ⟨hspaces,h1.log,h1.procs,rfl⟩
  | false =>
    exact ⟨hspaces,h1.log,h1.procs,h1.satp⟩

section

/-- The task has its space, and it runs on it when it is the current one. -/
structure ExecReady (s : ExecveState σ) (tid : Nat) (fs : List Frame) : Prop where
  ok : ForkOk s.load.fork fs
  log : s.load.log = []
  space : ∃ sp, s.spaces.space (.managed (.user tid)) = some sp ∧
    (s.procs.current = some tid → s.satp = satpValue sp.root)

/-- A failed `execve` leaves everything that the task sees. -/
structure Unchanged (tid : Nat) (s s' : ExecveState σ) : Prop where
  procs : s'.procs = s.procs
  translate : ∀ va, s'.load.seenTranslate tid va = s.load.seenTranslate tid va
  satp : s'.satp = s.satp

/-- The task is the program of the file, with the files and the relatives of the task before. -/
structure NewProgram (buf : Slice) (tid : Nat) (t t' : Task) (sp : Space) (s s' : ExecveState σ) : Prop where
  old : s.task tid = some t
  new : s'.task tid = some t'
  files : t'.fdTable = t.fdTable
  parent : t'.parent = t.parent
  children : t'.children = t.children
  space : s'.spaces.space (.managed (.user tid)) = some sp
  fresh : ∀ sp0, s.spaces.space (.managed (.user tid)) = some sp0 → sp.root ∉ sp0.owned
  root : t'.trapContext.satp = satpValue sp.root
  entry : t'.trapContext.sepc = (fileHeader s.load.fork.mem buf).eEntry
  segments : t'.memorySet.map (fun m => (m.va, m.flags)) = (loadHeadersOf s.load.fork.mem buf).map
    (fun ph => (ph.pVaddr, ph.mappingFlags)) ++ [(userStackLowerBound, stackFlags)]
  pages : ∀ va, leaves s'.spaces sp va =
    (t'.memorySet.flatMap fun m => segmentPages m.va m.flags m.frames).foldl overlay (fun _ => none) va

/-- The program headers lie in memory in use, and the data of each segment that the loader gets to copy
fits into the first frame. -/
def FileContained (fs : List Frame) (s : ExecveState σ) (buf : Slice) (tid : Nat) : Prop :=
  FileCopy True fs (s.withSpaces (s.spaces.removeUser tid tid)).load buf tid

theorem ForkOk.removeUser {f : ForkState σ} (h : ForkOk f fs)
    (hsp : f.spaces.space (.managed (.user tid)) = some sp) :
    ForkOk { f with spaces := f.spaces.removeUser tid tid } fs := by
  have hnone : ForkOk f (([] : List Nat).map pageFrame++fs) := h
  refine hnone.withSpaces (removeUser_isolated h.isolated tid tid).1 fun a ha => ?_
  obtain ⟨o,sp',hsp',hin⟩ := SpaceManager.exists_of_mem_live ha
  rw [space_removeUser hsp] at hsp'
  split at hsp'
  · exact .inr (SpaceManager.mem_live hsp' hin)
  · split at hsp'
    · cases hsp'
    · exact .inr (SpaceManager.mem_live hsp' hin)

variable {l : LoadState σ}

omit [LawfulFrameAllocator σ] in
theorem seenTables_of_logged {l' : LoadState σ} {m0 : SpaceManager} {fits : Prop}
    (hlog : Logged buf m0 tid fits l l') (hempty : l.log = []) {o : Owner}
    (hne : o ≠ .managed (.user tid)) (hsp : m0.space o = some sp) :
    ∀ a ∈ sp.owned, l'.seenTables a = l'.fork.spaces.mem a := by
  intro a ha
  apply seenTables_of_missed
  intro acc hacc
  rcases hlog acc hacc with hold | hnew
  · rw [hempty] at hold
    cases hold
  · intro x hx
    cases acc with
    | write start len frames =>
      rw [Access.hits,decide_eq_false_iff_not]
      intro hin
      apply hnew.1 _ sp hne hsp a ha (x-start) (by omega)
      rw [show start+(x-start) = x by omega]
      exact hx
    | read start len => rfl
    | sum exact => rfl
    | difference a b => rfl

theorem unchanged_of_stopped {fits : Prop} (h : ExecReady s tid fs)
    (hsp : s.spaces.space (.managed (.user tid)) = some sp)
    (hstop : Stopped buf (s.spaces.removeUser tid tid) tid fits
      (s.withSpaces (s.spaces.removeUser tid tid)).load l)
    (hspaces : s'.spaces = l.fork.spaces.insertUser tid tid) (hlog : s'.load.log = l.log) (va : Nat) :
    s'.load.seenTranslate tid va = s.load.seenTranslate tid va := by
  have hheld : (s.spaces.removeUser tid tid).space (.held tid) = some sp := by
    rw [space_removeUser hsp,if_pos rfl]
    exact hsp
  have hkernel : (s.spaces.removeUser tid tid).space (.managed .kernel) = some s.spaces.kernel := by
    rw [space_removeUser hsp]
    rfl
  have hmem1 : (s.spaces.removeUser tid tid).mem = s.spaces.mem := by
    rw [removeUser_eq hsp]
  obtain ⟨hheld',hmem⟩ := hstop.keeps (.held tid) sp (by simp) hheld
  obtain ⟨_,hkmem⟩ := hstop.keeps (.managed .kernel) s.spaces.kernel (by simp) hkernel
  have hmem2 : s'.spaces.mem = l.fork.spaces.mem := by
    rw [hspaces,insertUser_eq hheld']
  have hnew : s'.spaces.space (.managed (.user tid)) = some sp := by
    rw [hspaces,space_insertUser hheld',if_pos rfl]
    exact hheld'
  have hseen : ∀ o sp', o ≠ .managed (.user tid) → (s.spaces.removeUser tid tid).space o = some sp' →
      ∀ a ∈ sp'.owned, s'.load.seenTables a = l.fork.spaces.mem a := by
    intro o sp' hne hsp' a ha
    have hlogged : Logged buf (s.spaces.removeUser tid tid) tid fits
        (s.withSpaces (s.spaces.removeUser tid tid)).load s'.load := by
      intro acc hacc
      rw [hlog] at hacc
      exact hstop.logged acc hacc
    rw [seenTables_of_logged hlogged h.log hne hsp' a ha]
    exact congrFun hmem2 a
  rw [seenTranslate,seenTranslate,seenTables_of_no_log h.log]
  change (s'.spaces.space _).bind _ = (s.spaces.space _).bind _
  rw [hnew,hsp]
  apply (h.ok.isolated.ok _ sp hsp).translate_congr h.ok.isolated.kernel
  · intro a ha
    rw [hseen (.held tid) sp (by simp) hheld a ha,hmem a ha,hmem1]
    rfl
  · intro a ha
    rw [hseen (.managed .kernel) s.spaces.kernel (by simp) hkernel a ha,hkmem a ha,hmem1]
    rfl

variable {argv envp : List (List UInt8)} {sstatus : Nat}

theorem install_spec {t : Task} {load : Load} (ht : s.task tid = some t) :
    wpp P (install tid load) (fun _ s' =>
      s'.task tid = some (t.load load.memorySet load.trapContext) ∧ s'.spaces.mem = s.spaces.mem ∧
        s'.spaces.space (.managed (.user tid)) = s.spaces.space (.managed (.user tid))) E s := by
  change wpp P (match s.task tid with | none => _ | some t => _) _ _ s
  rw [ht]
  change wpp P (ExecveState.onFork _ >>= fun _ => ExecveState.dropOld tid) _ _ { s with procs := _ }
  rw [wpp_bind]
  refine wpp_weaken (giveFrames_same _ _) ?_
  intro _ s1 h1
  refine wpp_weaken (dropOld_spec s1 tid) ?_
  intro _ s2 h2
  refine ⟨?_,?_,?_⟩
  · rw [task,h2.procs]
    change s1.procs.tasks.map.get? tid = _
    rw [h1.procs]
    change (s.procs.tasks.map.modify tid _).get? tid = _
    rw [SortedMap.get?_modify,if_pos rfl]
    change (s.task tid).map _ = _
    rw [ht]
    rfl
  · rw [h2.spaces]
    rw [h1.spaces]
    rfl
  · rw [h2.spaces]
    rw [h1.spaces]
    rfl

/-- Before the load only `satp` and the owner of the space are different. -/
theorem replace_eq (isCurrent : Bool) : replace tid buf argv envp sstatus isCurrent s =
      (onError (onLoad (loadElf buf argv envp tid sstatus)) (restore tid isCurrent) >>=
        install tid) { s.withSpaces (s.spaces.removeUser tid tid) with
          satp := if isCurrent = true then satpValue s.spaces.kernel.root else s.satp } := by
  cases isCurrent <;> rfl

theorem replace_spec {t : Task} {isCurrent : Bool}
    (h : ExecReady s tid fs) (hargs : ArgumentsFit argv envp) (ht : s.task tid = some t)
    (hfile : FileContained fs s buf tid)
    (hsp : s.spaces.space (.managed (.user tid)) = some sp)
    (hactive : isCurrent = true → s.satp = satpValue sp.root) :
    wpp True (replace tid buf argv envp sstatus isCurrent)
      (fun _ s' => ∃ t' sp', NewProgram buf tid t t' sp' s s') (fun _ s' => Unchanged tid s s') s := by
  obtain ⟨s1,hs1⟩ : ∃ s1 : ExecveState σ, { s.withSpaces (s.spaces.removeUser tid tid) with
    satp := if isCurrent = true then satpValue s.spaces.kernel.root else s.satp } = s1 := ⟨_,rfl⟩
  have hload1 : s1.load = (s.withSpaces (s.spaces.removeUser tid tid)).load := by rw [← hs1]
  have hspaces1 : s1.load.fork.spaces = s.spaces.removeUser tid tid := by
    rw [hload1]
    rfl
  have hmem1 : s1.load.fork.mem = s.load.fork.mem := by
    rw [hload1]
    rfl
  have hprocs1 : s1.procs = s.procs := by rw [← hs1]; rfl
  have hheld : s1.load.fork.spaces.space (.held tid) = some sp := by
    rw [hspaces1,space_removeUser hsp,if_pos rfl]
    exact hsp
  have hok1 : ForkOk s1.load.fork fs := by
    rw [hload1]
    exact h.ok.removeUser hsp
  have hcopy : FileCopy True fs s1.load buf tid := by
    rw [hload1]
    exact hfile
  rw [wpp,replace_eq isCurrent,hs1]
  change wpp True _ _ _ s1
  rw [wpp_bind,wpp_onError,wpp_onLoad]
  refine wpp_mono (loadElf_spec hok1 hargs hcopy) ?_ ?_
  · intro load l hl
    obtain ⟨segs,stack,sp',va,hsp',hloadeq,hsegs,hloaded,_⟩ := hl
    have ht1 : ({ s1 with load := l } : ExecveState σ).task tid = some t := by
      rw [hprocs1]
      exact ht
    refine wpp_weaken (install_spec ht1) ?_
    intro _ s2 hs2
    obtain ⟨ht2,hmem2,hspace2⟩ := hs2
    have hspnew : s2.spaces.space (.managed (.user tid)) = some sp' := hspace2.trans hsp'
    refine ⟨_,sp',ht,ht2,rfl,rfl,rfl,hspnew,?_,?_,?_,?_,?_⟩
    · intro sp0 hsp0 hin
      rw [hsp] at hsp0
      cases hsp0
      have hkept := (hloaded.keeps (.held tid) sp (by simp) hheld).1
      exact hloaded.ok.isolated.apart _ _ sp' sp (by simp) hsp' hkept _ mem_cons_self hin
    · rw [hloadeq]
      rfl
    · rw [hloadeq,hmem1]
      rfl
    · rw [hloadeq,← hmem1,← hsegs]
      simp only [Task.load,map_append,List.map_map]
      rfl
    · intro va'
      obtain ⟨sp2,hsp2,hleaves⟩ := hloaded.leaves
      rw [hsp'] at hsp2
      cases hsp2
      have hview : leaves s2.spaces sp' va' = leaves l.fork.spaces sp' va' := by
        rw [leaves,hmem2]
        rfl
      rw [hview,hleaves,hloadeq]
      simp only [Task.load,flatMap_append,flatMap_map,flatMap_singleton]
      rfl
  · intro e l hl
    have hstop : Stopped buf (s.spaces.removeUser tid tid) tid (FileAccess s1.load buf tid)
        (s.withSpaces (s.spaces.removeUser tid tid)).load l := by
      rw [← hload1,← hspaces1]
      exact hl
    have hheld' : l.fork.spaces.space (.held tid) = some sp :=
      (hl.keeps (.held tid) sp (by simp) hheld).1
    refine wpp_mono (restore_spec (E := fun _ _ => False) hheld') ?_
      fun _ _ he => he.elim
    intro _ s2 hs2
    obtain ⟨hspaces2,hlog2,hprocs2,hsatp2⟩ := hs2
    refine ⟨hprocs2.trans hprocs1,fun va => unchanged_of_stopped h hsp hstop hspaces2 hlog2 va,?_⟩
    rw [hsatp2,← hs1]
    cases hcur : isCurrent with
    | true => rw [if_pos rfl,hactive hcur]
    | false => rfl

/-- Where the loader keeps to the file and to its frames, `execve_into` replaces the program or leaves
everything as it was. -/
theorem execve_all_or_nothing {file : Option Slice} {argv envp : List (List UInt8)} {sstatus : Nat}
    (h : ExecReady s tid fs) (hargs : ArgumentsFit argv envp)
    (hfile : ∀ buf, file = some buf → FileContained fs s buf tid) :
    (∀ e s', execveInto tid file argv envp sstatus s = .err e s' → Unchanged tid s s') ∧
    ∀ a s', execveInto tid file argv envp sstatus s = .ok a s' →
      ∃ buf t t' sp, file = some buf ∧ NewProgram buf tid t t' sp s s' := by
  have hspec : wpp True (execveInto tid file argv envp sstatus)
      (fun _ s' => ∃ buf t t' sp, file = some buf ∧ NewProgram buf tid t t' sp s s')
      (fun _ s' => Unchanged tid s s') s := by
    change wpp True (match s.task tid with | none => _ | some _ => _) _ _ s
    cases ht : s.task tid with
    | none => exact ⟨rfl,fun _ => rfl,rfl⟩
    | some t =>
      cases file with
      | none => exact ⟨rfl,fun _ => rfl,rfl⟩
      | some buf =>
        obtain ⟨sp,hsp,hactive⟩ := h.space
        refine wpp_weaken (replace_spec h hargs ht (hfile buf rfl) hsp ?_) ?_
        · exact fun hcur => hactive (of_decide_eq_true hcur)
        · intro _ s' hs'
          obtain ⟨t',sp',hnew⟩ := hs'
          exact ⟨buf,t,t',sp',rfl,hnew⟩
  constructor
  · intro e s' herr
    have hnone := wpp_of_err hspec herr
    exact hnone
  · intro a s' hok
    exact wpp_of_ok hspec hok

end

/-- Two files in one page, the second of them at 0x200. -/
def twoFiles (second : List UInt8) : List UInt8 := smallFile ++ List.replicate 376 0 ++ second

def secondSlice (f : Frame) (second : List UInt8) : Slice := ⟨f.start + 0x200,second.length⟩

/-- Task 1 runs the first of the two files. -/
def startedTask (second : List UInt8) : Option (ExecveState BuddyLists × Frame) :=
  (fileMemory (twoFiles second)).bind fun p =>
    match loadElf (fileSlice p.2 smallFile) [] [] 1 0 ⟨p.1,[]⟩ with
    | .ok load l => (l.fork.spaces.user.get? 1).map fun sp =>
      (⟨⟨l.fork,[]⟩,⟨⟨SortedMap.empty.insert 1 ⟨none,[],.running,load.memorySet,load.trapContext,0,[]⟩,none⟩,
        some 1⟩,satpValue sp.root⟩, p.2)
    | _ => none

/-- The headers that the loader gets to lie in the file. -/
def FileInside (s : LoadState BuddyLists) (buf : Slice) (tid : Nat) : Prop :=
  EachFileHeader s buf tid True fun f i ph => HeaderInFile buf (fileHeader s.fork.mem buf) i ∧
    (ph.isLoad = true → Served tid ph (fun _ _ => True) (fun _ =>
      0 < ph.pMemsz → ph.pAlign ≠ 0 → FirstFrameHolds ph) f)

instance (s : LoadState BuddyLists) (buf : Slice) (tid : Nat) : Decidable (FileInside s buf tid) :=
  inferInstanceAs (Decidable (EachFileHeader _ _ _ _ _))

section

variable {buf : Slice} {tid : Nat} {fs : List Frame} {f : ForkState BuddyLists} (hok : ForkOk f fs)
  (hbuf : ∀ i < buf.len, InFrames fs (buf.ptr+i))
include hok hbuf

theorem FileInside.copy {s : LoadState BuddyLists} (h : FileInside s buf tid) : FileCopy True fs s buf tid :=
  h.mono id fun _ _ _ hi => headerCopy_of_inFile hok hbuf hi.1 fun hload =>
    (hi.2 hload).mono (fun _ _ _ => trivial) fun _ hx => ⟨fun _ => trivial,hx⟩

theorem FileInside.loaded {load : Load} {l : LoadState BuddyLists} (h : FileInside ⟨f,[]⟩ buf tid)
    (hload : loadElf buf [] [] tid 0 ⟨f,[]⟩ = .ok load l) : ∃ gs, ForkOk l.fork (gs++fs) := by
  have hargs : ArgumentsFit [] [] := by decide
  obtain ⟨segs,stack,_,_,_,_,_,hloaded,_⟩ := wpp_of_ok (loadElf_spec hok hargs (h.copy hok hbuf)) hload
  exact ⟨stack::segs.flatMap Prod.snd,hloaded.ok⟩

end

theorem startedTask_ready {second : List UInt8} {s : ExecveState BuddyLists} {f : Frame}
    (hlen : (twoFiles second).length ≤ pageSize)
    (hfirst : (fileMemory (twoFiles second)).map (fun p =>
      decide (FileInside ⟨p.1,[]⟩ (fileSlice p.2 smallFile) 1)) = some true)
    (hstart : startedTask second = some (s, f)) :
    ∃ fs, ExecReady s 1 fs ∧ ∀ i < (secondSlice f second).len, InFrames fs ((secondSlice f second).ptr+i) := by
  obtain ⟨⟨s0,f0⟩,hfile,hrest⟩ := bind_eq_some_iff.mp hstart
  obtain ⟨hok,hin⟩ := fileMemory_ok hlen hfile
  rw [hfile] at hfirst
  have hinside : FileInside ⟨s0,[]⟩ (fileSlice f0 smallFile) 1 := of_decide_eq_true (some.inj hfirst)
  have hsize : smallFile.length = 136 := rfl
  have htotal : (twoFiles second).length = 0x200+second.length := by
    rw [twoFiles,length_append,length_append,length_replicate,hsize]
  have hin1 : ∀ i < (fileSlice f0 smallFile).len, InFrames [f0] ((fileSlice f0 smallFile).ptr+i) := by
    intro i hi
    apply hin i
    simp only [fileSlice] at hi ⊢
    omega
  split at hrest
  · rename_i load l hload
    obtain ⟨gs,hloaded⟩ := hinside.loaded hok hin1 hload
    obtain ⟨sp',hsp',heq⟩ := map_eq_some_iff.mp hrest
    obtain ⟨rfl,rfl⟩ := Prod.mk.inj heq
    refine ⟨_,⟨hloaded,rfl,sp',hsp',fun _ => rfl⟩,?_⟩
    intro i hi
    have hin2 : InFrames [f0] (f0.start+0x200+i) := by
      rw [Nat.add_assoc]
      apply hin (0x200+i)
      simp only [secondSlice,fileSlice] at hi ⊢
      omega
    obtain ⟨g,hg,hmem⟩ := hin2
    exact ⟨g,mem_append_right _ hg,hmem⟩
  · cases hrest

theorem execve_all_or_nothing_small : ∃ s f s' t t' sp, startedTask smallFile = some (s, f) ∧
    execveInto 1 (some (secondSlice f smallFile)) [] [] 0 s = .ok () s' ∧
    NewProgram (secondSlice f smallFile) 1 t t' sp s s' := by
  have hruns : (startedTask smallFile).map (fun p =>
      (decide (FileInside (p.1.withSpaces (p.1.spaces.removeUser 1 1)).load (secondSlice p.2 smallFile) 1),
        (execveInto 1 (some (secondSlice p.2 smallFile)) [] [] 0 p.1).okAnd
          fun _ _ => true)) = some (true, true) := by decide +kernel
  obtain ⟨⟨s,f⟩,hstart,hvals⟩ := map_eq_some_iff.mp hruns
  simp only [Prod.mk.injEq] at hvals
  obtain ⟨hinside,hrun⟩ := hvals
  replace hinside := of_decide_eq_true hinside
  obtain ⟨fs,hready,hin⟩ := startedTask_ready (by decide +kernel) (by decide +kernel) hstart
  obtain ⟨a,s',hok,_⟩ := Outcome.exists_okAnd hrun
  have hresult := (execve_all_or_nothing hready (by decide : ArgumentsFit [] [])
    (fun buf hbuf => by cases hbuf; exact hinside.copy hready.ok hin)).2 a s' hok
  obtain ⟨buf,t,t',sp,hbuf,hnew⟩ := hresult
  cases hbuf
  exact ⟨s,f,s',t,t',sp,hstart,hok,hnew⟩

/-- The data of the first segment goes around the end of the address space into the root table of the
old program; the second asks for too much memory. -/
def strayFile : List UInt8 :=
  elfBytes 0xffffffc000000078 [⟨1,7,8,0xffffffffffff1800,8,0x1000,0xffffffffffffffff⟩,
    ⟨1,7,0,0xffffffc000010000,0,2 ^ 60,0x1000⟩] []

/-- The failed `execve` has taken a page from the program that goes on. -/
theorem failed_execve_unmaps : ∃ s f s' fs, startedTask strayFile = some (s, f) ∧ ExecReady s 1 fs ∧
    execveInto 1 (some (secondSlice f strayFile)) [] [] 0 s = .err () s' ∧
    (s.load.seenTranslate 1 0xffffffc000000078).isSome = true ∧
      s'.load.seenTranslate 1 0xffffffc000000078 = none := by
  have hruns : (startedTask strayFile).map (fun p =>
      ((p.1.load.seenTranslate 1 0xffffffc000000078).isSome,
        match execveInto 1 (some (secondSlice p.2 strayFile)) [] [] 0 p.1 with
        | .err _ s' => decide (s'.load.seenTranslate 1 0xffffffc000000078 = none)
        | _ => false)) = some (true, true) := by decide +kernel
  obtain ⟨⟨s,f⟩,hstart,hvals⟩ := map_eq_some_iff.mp hruns
  simp only [Prod.mk.injEq] at hvals
  obtain ⟨hbefore,hrun⟩ := hvals
  obtain ⟨fs,hready,_⟩ := startedTask_ready (by decide +kernel) (by decide +kernel) hstart
  split at hrun
  · rename_i e s' herr
    exact ⟨s,f,s',fs,hstart,hready,herr,hbefore,of_decide_eq_true hrun⟩
  · cases hrun

end Athera
