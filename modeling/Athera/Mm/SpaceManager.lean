import Athera.Framework.Runs
import Athera.Framework.SortedMap
import Athera.Mm.SpaceClone

/-!
# The manager of address spaces

`AddressSpaceManager` keeps the space of the kernel and one for each task; `remove_user` hands a
space to its caller.
-/

namespace Athera

open Framework Action List Option Function SortedMap PageTableEntry

inductive AddressSpaceId where
  | kernel
  | user (tid : Nat)
deriving DecidableEq, Repr

/-- Who keeps a space: the manager, or a caller under a number of its own. -/
inductive Owner where
  | managed (id : AddressSpaceId)
  | held (slot : Nat)
deriving DecidableEq, Repr

structure SpaceManager where
  mem : TableMemory
  kernel : Space
  user : SortedMap Space
  held : SortedMap Space

namespace SpaceManager

def new (mem : TableMemory) (root : Nat) : SpaceManager :=
  ⟨Function.update mem root .empty,⟨root,[]⟩,.empty,.empty⟩

section

variable (m : SpaceManager)

def space : Owner → Option Space
  | .managed .kernel => some m.kernel
  | .managed (.user tid) => m.user.get? tid
  | .held slot => m.held.get? slot

/-- All pages that are tables. -/
def live : List Nat :=
  m.kernel.owned ++ (m.user.entries ++ m.held.entries).flatMap fun e => e.2.owned

def translate (id : AddressSpaceId) (va : Nat) : Option (Nat × PageFlags) :=
  (m.space (.managed id)).bind fun sp => Athera.translate m.mem sp.root va

def setUser (tid : Nat) (s : SpaceState) : SpaceManager :=
  { m with mem := s.mem, user := m.user.insert tid s.space }

def kernelMap (va pa : Nat) (flags : PageFlags) (pool : List Nat) : SpaceManager :=
  match (SpaceState.map va pa flags ⟨m.mem,m.kernel,pool⟩).state with
  | none => m
  | some s => { m with mem := s.mem, kernel := s.space }

def kernelUnmap (va : Nat) : SpaceManager :=
  let s := SpaceState.unmap ⟨m.mem,m.kernel,[]⟩ va
  { m with mem := s.mem, kernel := s.space }

def createUserAddressSpace (tid : Nat) (pool : List Nat) : SpaceManager :=
  match pool with
  | [] => m
  | root :: _ =>
    let mem := Function.update m.mem root .empty
    let mem := Function.update mem root (copyLowHalf (mem m.kernel.root) (mem root))
    { m with mem := mem, user := m.user.insert tid ⟨root,[]⟩ }

def userMap (tid va pa : Nat) (flags : PageFlags) (pool : List Nat) :
    SpaceManager :=
  match m.user.get? tid with
  | none => m
  | some sp =>
    match (SpaceState.map va pa flags ⟨m.mem,sp,pool⟩).state with
    | none => m
    | some s => m.setUser tid s

def userUnmap (tid va : Nat) : SpaceManager :=
  match m.user.get? tid with
  | none => m
  | some sp => m.setUser tid (SpaceState.unmap ⟨m.mem,sp,[]⟩ va)

def clone (id : AddressSpaceId) (newTid : Nat) (pool : List Nat) :
    Except MemError Unit × SpaceManager :=
  match m.space (.managed id) with
  | none => (.error .addressSpaceNotFound, m)
  | some sp =>
    match sp.tryClone m.mem pool with
    | (.error e, mem, _) => (.error e, { m with mem := mem })
    | (.ok sp', mem, _) => (.ok (), { m with mem := mem, user := m.user.insert newTid sp' })

def removeUser (tid slot : Nat) : SpaceManager :=
  match m.user.get? tid with
  | none => m
  | some sp => { m with user := m.user.erase tid, held := m.held.insert slot sp }

def insertUser (tid slot : Nat) : SpaceManager :=
  match m.held.get? slot with
  | none => m
  | some sp => { m with user := m.user.insert tid sp, held := m.held.erase slot }

end

end SpaceManager

/-- The calls of the manager, the end of a space that a caller held, and a write of someone else to
a page that is no table. -/
inductive SpaceOp where
  | kernelMap (va pa : Nat) (flags : PageFlags) (pool : List Nat)
  | kernelUnmap (va : Nat)
  | createUserAddressSpace (tid : Nat) (pool : List Nat)
  | userMap (tid va pa : Nat) (flags : PageFlags) (pool : List Nat)
  | userUnmap (tid va : Nat)
  | clone (id : AddressSpaceId) (newTid : Nat) (pool : List Nat)
  | removeUser (tid slot : Nat)
  | insertUser (tid slot : Nat)
  | drop (slot : Nat)
  | elsewhere (page : Nat) (table : PageTable)

namespace SpaceOp

def step (m : SpaceManager) : SpaceOp → Option SpaceManager
  | .kernelMap va pa flags pool => some (m.kernelMap va pa flags pool)
  | .kernelUnmap va => some (m.kernelUnmap va)
  | .createUserAddressSpace tid pool => some (m.createUserAddressSpace tid pool)
  | .userMap tid va pa flags pool => some (m.userMap tid va pa flags pool)
  | .userUnmap tid va => some (m.userUnmap tid va)
  | .clone id newTid pool => some (m.clone id newTid pool).2
  | .removeUser tid slot => some (m.removeUser tid slot)
  | .insertUser tid slot => some (m.insertUser tid slot)
  | .drop slot => some { m with held := m.held.erase slot }
  | .elsewhere page table => some { m with mem := Function.update m.mem page table }

/-- The pages that the operation gets from the frame allocator, or that belong to someone else. -/
def pool : SpaceOp → List Nat
  | .kernelMap _ _ _ pool | .createUserAddressSpace _ pool | .userMap _ _ _ _ pool
  | .clone _ _ pool => pool
  | .elsewhere page _ => [page]
  | _ => []

def target : SpaceOp → Option AddressSpaceId
  | .kernelMap .. | .kernelUnmap _ => some .kernel
  | .createUserAddressSpace tid _ | .userMap tid .. | .userUnmap tid _ | .clone _ tid _
  | .removeUser tid _ | .insertUser tid _ => some (.user tid)
  | .drop _ | .elsewhere .. => none

/-- The frame allocator hands out pages that are no tables. -/
def Fresh (m : SpaceManager) (op : SpaceOp) : Prop :=
  op.pool.Nodup ∧ ∀ a ∈ op.pool, ppn a * pageSize = a ∧ a ∉ m.live

instance (m : SpaceManager) (op : SpaceOp) : Decidable (op.Fresh m) :=
  inferInstanceAs (Decidable (_ ∧ _))

end SpaceOp

/-- Every table belongs to one space, and every space is in order. -/
structure Isolated (m : SpaceManager) : Prop where
  kernel : SpaceOk m.mem .empty m.kernel
  ok : ∀ o sp, m.space o = some sp → SpaceOk m.mem (m.mem m.kernel.root) sp
  apart : ∀ o o' sp sp', o ≠ o' → m.space o = some sp → m.space o' = some sp' →
    ∀ a ∈ sp.owned, a ∉ sp'.owned

open SpaceManager hiding new

variable {id : AddressSpaceId}

section

variable {m m' : SpaceManager} {sp sp' : Space} {o : Owner} {pool : List Nat} {tid : Nat}

variable {a : Nat}

theorem SpaceManager.mem_live (h : m.space o = some sp) (ha : a ∈ sp.owned) : a ∈ m.live := by
  rw [live,mem_append,mem_flatMap]
  cases o with
  | managed id =>
    cases id with
    | kernel =>
      obtain rfl : m.kernel = sp := some.inj h
      exact .inl ha
    | user tid => exact .inr ⟨_,mem_append_left _ (mem_of_get? h),ha⟩
  | held slot => exact .inr ⟨_,mem_append_right _ (mem_of_get? h),ha⟩

theorem SpaceManager.exists_of_mem_live (ha : a ∈ m.live) :
    ∃ o sp, m.space o = some sp ∧ a ∈ sp.owned := by
  rw [live,mem_append,mem_flatMap] at ha
  rcases ha with ha | ⟨⟨key,sp⟩,he,ha⟩
  · exact ⟨.managed .kernel,m.kernel,rfl,ha⟩
  · rcases mem_append.mp he with he | he
    · exact ⟨.managed (.user key),sp,get?_of_mem he,ha⟩
    · exact ⟨.held key,sp,get?_of_mem he,ha⟩

theorem Isolated.translate_eq (h : Isolated m)
    (hspace : m'.space (.managed id) = m.space (.managed id))
    (hmem : ∀ sp, m.space (.managed id) = some sp → ∀ a ∈ sp.owned, m'.mem a = m.mem a)
    (hkernel : ∀ a ∈ m.kernel.owned, m'.mem a = m.mem a) (va : Nat) :
    m'.translate id va = m.translate id va := by
  rw [SpaceManager.translate,SpaceManager.translate,hspace]
  cases hsp : m.space (.managed id) with
  | none => rfl
  | some sp => exact (h.ok _ sp hsp).translate_congr h.kernel (hmem sp hsp) hkernel va

theorem translate_of_same (hmem : m'.mem = m.mem)
    (hspace : m'.space (.managed id) = m.space (.managed id)) (va : Nat) :
    m'.translate id va = m.translate id va := by
  rw [SpaceManager.translate,SpaceManager.translate,hspace,hmem]

theorem Isolated.elsewhere (h : Isolated m) {mem : TableMemory}
    (hmem : ∀ a ∈ m.live, mem a = m.mem a) : Isolated { m with mem := mem } ∧ ∀ id va,
      { m with mem := mem : SpaceManager }.translate id va = m.translate id va := by
  have hkeep : ∀ o sp, m.space o = some sp → ∀ a ∈ sp.owned, mem a = m.mem a :=
    fun o sp hsp a ha => hmem a (mem_live hsp ha)
  have hkernel := hkeep (.managed .kernel) m.kernel rfl
  have hroot : mem m.kernel.root = m.mem m.kernel.root := hkernel _ mem_cons_self
  have hspace : ∀ o, { m with mem := mem : SpaceManager }.space o = m.space o := by
    intro o
    cases o with
    | managed id => cases id <;> rfl
    | held slot => rfl
  refine ⟨⟨h.kernel.congr hkernel,?_,?_⟩,?_⟩
  · intro o sp hsp
    change SpaceOk mem (mem m.kernel.root) sp
    rw [hroot]
    exact (h.ok o sp hsp).congr (hkeep o sp hsp)
  · intro o o' sp sp' hne hsp hsp'
    exact h.apart o o' sp sp' hne hsp hsp'
  · intro id
    exact h.translate_eq (hspace _) (hkeep _) hkernel

theorem Isolated.relabel (h : Isolated m) (f : Owner → Owner) (hf : Function.Injective f)
    (hmem : m'.mem = m.mem) (hkernel : m'.kernel = m.kernel)
    (hspace : ∀ o sp, m'.space o = some sp → m.space (f o) = some sp) : Isolated m' := by
  refine ⟨?_,?_,?_⟩
  · rw [hmem,hkernel]
    exact h.kernel
  · intro o sp hsp
    rw [hmem,hkernel]
    exact h.ok _ sp (hspace o sp hsp)
  · intro o o' sp sp' hne hsp hsp'
    exact h.apart _ _ sp sp' (fun he => hne (hf he)) (hspace o sp hsp) (hspace o' sp' hsp')

/-- One owner gets another space, made of pages of its own and of the pool. -/
structure Replaced (m m' : SpaceManager) (o : Owner) (sp' : Space) (pool : List Nat) : Prop where
  space : ∀ o', m'.space o' = if o' = o then some sp' else m.space o'
  fresh : ∀ a ∈ pool, a ∉ m.live
  owned : ∀ a ∈ sp'.owned, a ∈ pool ∨ ∃ sp, m.space o = some sp ∧ a ∈ sp.owned
  mem : ∀ a, a ∉ sp'.owned → a ∉ pool → m'.mem a = m.mem a

theorem Replaced.kept (hr : Replaced m m' o sp' pool) (h : Isolated m) {o' : Owner} (hne : o' ≠ o)
    (hsp : m.space o' = some sp) : ∀ a ∈ sp.owned, a ∉ sp'.owned ∧ m'.mem a = m.mem a := by
  intro a ha
  have hpool : a ∉ pool := fun hin => hr.fresh a hin (mem_live hsp ha)
  have hnot : a ∉ sp'.owned := by
    intro hin
    rcases hr.owned a hin with hin | ⟨old,hold,hin⟩
    · exact hpool hin
    · exact h.apart o' o sp old hne hsp hold a ha hin
  exact ⟨hnot,hr.mem a hnot hpool⟩

theorem Replaced.apart (hr : Replaced m m' o sp' pool) (h : Isolated m) :
    ∀ o₁ o₂ sp₁ sp₂, o₁ ≠ o₂ → m'.space o₁ = some sp₁ → m'.space o₂ = some sp₂ →
      ∀ a ∈ sp₁.owned, a ∉ sp₂.owned := by
  intro o₁ o₂ sp₁ sp₂ hne h₁ h₂ a ha₁ ha₂
  rw [hr.space] at h₁ h₂
  by_cases he₁ : o₁ = o
  · have he₂ : o₂ ≠ o := fun he => hne (he₁.trans he.symm)
    rw [if_pos he₁,some.injEq] at h₁
    rw [if_neg he₂] at h₂
    exact (hr.kept h he₂ h₂ a ha₂).1 (h₁ ▸ ha₁)
  · rw [if_neg he₁] at h₁
    by_cases he₂ : o₂ = o
    · rw [if_pos he₂,some.injEq] at h₂
      exact (hr.kept h he₁ h₁ a ha₁).1 (h₂ ▸ ha₂)
    · rw [if_neg he₂] at h₂
      exact h.apart o₁ o₂ sp₁ sp₂ hne h₁ h₂ a ha₁ ha₂

/-- The spaces are still in order, and only translations of one task may have changed. -/
structure Confined (m m' : SpaceManager) (tid : Nat) : Prop where
  isolated : Isolated m'
  translate : ∀ id, id ≠ .user tid → ∀ va, m'.translate id va = m.translate id va

theorem Confined.refl (h : Isolated m) (tid : Nat) : Confined m m tid := ⟨h,fun _ _ _ => rfl⟩

theorem Isolated.replace (h : Isolated m) (hr : Replaced m m' (.managed (.user tid)) sp' pool)
    (hok : SpaceOk m'.mem (m.mem m.kernel.root) sp') : Confined m m' tid := by
  have hne : Owner.managed .kernel ≠ .managed (.user tid) := by simp
  have hkept : ∀ a ∈ m.kernel.owned, m'.mem a = m.mem a := fun a ha =>
    (hr.kept h hne rfl a ha).2
  have hkernel : m'.kernel = m.kernel :=
    some.inj ((hr.space (.managed .kernel)).trans (if_neg hne))
  have hroot : m'.mem m.kernel.root = m.mem m.kernel.root := hkept _ mem_cons_self
  refine ⟨⟨?_,?_,hr.apart h⟩,?_⟩
  · rw [hkernel]
    exact h.kernel.congr hkept
  · intro o sp hsp
    rw [hkernel,hroot]
    rw [hr.space] at hsp
    by_cases he : o = .managed (.user tid)
    · rw [if_pos he,some.injEq] at hsp
      exact hsp ▸ hok
    · rw [if_neg he] at hsp
      exact (h.ok o sp hsp).congr fun a ha => (hr.kept h he hsp a ha).2
  · intro id hid
    have hne : Owner.managed id ≠ .managed (.user tid) := fun he => hid (Owner.managed.inj he)
    apply h.translate_eq
    · rw [hr.space,if_neg hne]
    · exact fun sp hsp a ha => (hr.kept h hne hsp a ha).2
    · exact hkept

/-- The tables of all spaces but one are unchanged. -/
def Keeps (o : Owner) (m m' : SpaceManager) : Prop :=
  ∀ o' sp, o' ≠ o → m.space o' = some sp →
    m'.space o' = some sp ∧ ∀ a ∈ sp.owned, m'.mem a = m.mem a

theorem Replaced.keeps (hr : Replaced m m' o sp' pool) (h : Isolated m) : Keeps o m m' := by
  intro o' sp hne hsp
  refine ⟨?_,fun a ha => (hr.kept h hne hsp a ha).2⟩
  rw [hr.space,if_neg hne]
  exact hsp

theorem Replaced.live (hr : Replaced m m' o sp' pool) (ha : a ∈ m'.live) :
    a ∈ pool ∨ a ∈ m.live := by
  obtain ⟨o',sp,hsp,hin⟩ := exists_of_mem_live ha
  rw [hr.space] at hsp
  split at hsp
  next =>
    rw [some.injEq] at hsp
    rcases hr.owned a (hsp ▸ hin) with hpool | ⟨old,hold,hin⟩
    · exact .inl hpool
    · exact .inr (mem_live hold hin)
  next => exact .inr (mem_live hsp hin)

theorem Isolated.replaceKernel (h : Isolated m)
    (hr : Replaced m m' (.managed .kernel) sp' pool) (hok : SpaceOk m'.mem .empty sp')
    (hroot : ∀ i, (m.mem m.kernel.root i).v = true →
      m'.mem sp'.root i = m.mem m.kernel.root i) : Isolated m' ∧ Keeps (.managed .kernel) m m' := by
  have hkernel : m'.kernel = sp' :=
    some.inj ((hr.space (.managed .kernel)).trans (if_pos rfl))
  refine ⟨⟨hkernel ▸ hok,?_,hr.apart h⟩,hr.keeps h⟩
  intro o sp hsp
  rw [hkernel]
  rw [hr.space] at hsp
  by_cases he : o = .managed .kernel
  · rw [if_pos he,some.injEq] at hsp
    rw [← hsp]
    exact hok.mono fun i hv => absurd hv (by simp [PageTable.empty,new])
  · rw [if_neg he] at hsp
    exact ((h.ok o sp hsp).congr fun a ha => (hr.kept h he hsp a ha).2).mono hroot

end

section

variable {m m' : SpaceManager} {sp : Space} {op : SpaceOp} {pool : List Nat} {o : Owner}

theorem space_setUser (m : SpaceManager) (tid : Nat) (s : SpaceState) (o : Owner) :
    (m.setUser tid s).space o = if o = .managed (.user tid) then some s.space else m.space o := by
  cases o with
  | managed id =>
    cases id with
    | kernel => rw [if_neg (by simp)]; rfl
    | user tid' =>
      simp only [space,setUser,get?_insert,Owner.managed.injEq,
        AddressSpaceId.user.injEq]
  | held slot => rw [if_neg (by simp)]; rfl

theorem space_setKernel (m : SpaceManager) (s : SpaceState) (o : Owner) :
    { m with mem := s.mem, kernel := s.space : SpaceManager }.space o =
      if o = .managed .kernel then some s.space else m.space o := by
  cases o with
  | managed id =>
    cases id with
    | kernel => rw [if_pos rfl]; rfl
    | user tid => rw [if_neg (by simp)]; rfl
  | held slot => rw [if_neg (by simp)]; rfl

/-- What the frame allocator hands out is fresh for each space. -/
theorem Isolated.freshPool (h : Isolated m) (hnd : pool.Nodup)
    (hpool : ∀ a ∈ pool, ppn a*pageSize = a ∧ a ∉ m.live)
    (hsp : m.space o = some sp) : FreshPool (m.mem m.kernel.root) sp pool := by
  refine ⟨hnd,?_,?_,fun a ha => (hpool a ha).1⟩
  · exact fun a ha hin => (hpool a ha).2 (mem_live hsp hin)
  · intro a ha i hv he
    have hin := mem_cons_of_mem m.kernel.root (h.kernel.kernel_root hv)
    have hkernel : m.space (.managed .kernel) = some m.kernel := rfl
    exact (hpool a ha).2 (mem_live hkernel (he ▸ hin))

variable {s : SpaceState}

theorem Grown.replaced (hg : Grown ⟨m.mem,sp,pool⟩ s)
    (hsp : m.space o = some sp) (hpool : ∀ a ∈ pool, a ∉ m.live)
    (hspace : ∀ o', m'.space o' = if o' = o then some s.space else m.space o')
    (hmem : m'.mem = s.mem) : Replaced m m' o s.space pool := by
  refine ⟨hspace,hpool,?_,?_⟩
  · intro a ha
    obtain ⟨used,hused,htables⟩ := hg.tables
    rcases mem_cons.mp ha with rfl | ha
    · refine .inr ⟨sp,hsp,?_⟩
      rw [hg.root]
      exact mem_cons_self
    · rcases (htables a).mp ha with hold | hnew
      · exact .inr ⟨sp,hsp,mem_cons_of_mem _ hold⟩
      · refine .inl ?_
        change pool = used++s.pool at hused
        rw [hused]
        exact mem_append_left _ hnew
  · intro a ha _
    rw [hmem]
    exact hg.mem a ha

section

variable (h : Isolated m) (hnd : pool.Nodup) (hpool : ∀ a ∈ pool, ppn a * pageSize = a ∧ a ∉ m.live)
include h hnd hpool

theorem Isolated.inv (hsp : m.space o = some sp) : SpaceInv (m.mem m.kernel.root) ⟨m.mem,sp,pool⟩ :=
  ⟨h.ok o sp hsp,h.freshPool hnd hpool hsp⟩

theorem Isolated.kernelInv : SpaceInv .empty ⟨m.mem,m.kernel,pool⟩ := by
  have hkernel : m.space (.managed .kernel) = some m.kernel := rfl
  refine ⟨h.kernel,hnd,?_,?_,fun a ha => (hpool a ha).1⟩
  · exact fun a ha hin => (hpool a ha).2 (mem_live hkernel hin)
  · exact fun a _ i hv => absurd hv (by simp [PageTable.empty,new])

end

theorem SpaceManager.isolated_new (mem : TableMemory) (root : Nat) :
    Isolated (SpaceManager.new mem root) := by
  have hempty : (SpaceManager.new mem root).mem root = .empty := update_self _ _ _
  have hok : ∀ shared, SpaceOk (SpaceManager.new mem root).mem shared ⟨root,[]⟩ :=
    fun _ => .of_empty hempty
  have honly : ∀ o sp, (SpaceManager.new mem root).space o = some sp →
      o = .managed .kernel ∧ sp = ⟨root,[]⟩ := by
    intro o sp hsp
    cases o with
    | managed id =>
      cases id with
      | kernel => exact ⟨rfl,(some.inj hsp).symm⟩
      | user tid => simp [space,SpaceManager.new] at hsp
    | held slot => simp [space,SpaceManager.new] at hsp
  refine ⟨hok _,?_,?_⟩
  · intro o sp hsp
    rw [(honly o sp hsp).2]
    exact hok _
  · intro o o' sp sp' hne hsp hsp'
    exact absurd ((honly o sp hsp).1.trans (honly o' sp' hsp').1.symm) hne

theorem createUser_replaced (h : Isolated m) (tid root : Nat) (rest : List Nat)
    (hfresh : root ∉ m.live) :
    Replaced m (m.createUserAddressSpace tid (root::rest)) (.managed (.user tid)) ⟨root,[]⟩
      [root] ∧
    SpaceOk (m.createUserAddressSpace tid (root::rest)).mem (m.mem m.kernel.root) ⟨root,[]⟩ := by
  have hkernel : m.space (.managed .kernel) = some m.kernel := rfl
  have hne : m.kernel.root ≠ root := fun he =>
    hfresh (mem_live hkernel (he ▸ mem_cons_self))
  let s : SpaceState :=
    ⟨Function.update m.mem root (copyLowHalf (m.mem m.kernel.root) .empty),⟨root,[]⟩,rest⟩
  have hcreate : m.createUserAddressSpace tid (root::rest) = m.setUser tid s := by
    simp only [createUserAddressSpace,setUser,s,update_idem,
      update_of_ne hne,update_self]
  have hroot : s.mem root = copyLowHalf (m.mem m.kernel.root) .empty := update_self _ _ _
  have hentry : ∀ i, (s.mem root i).v = true → s.mem root i = m.mem m.kernel.root i := by
    intro i hv
    rw [hroot,copyLowHalf] at hv ⊢
    split at hv
    next hi => rw [if_pos hi]
    next => exact absurd hv (by simp [PageTable.empty,new])
  rw [hcreate]
  constructor
  · refine ⟨space_setUser m tid s,by simpa using hfresh,fun a ha => .inl ha,?_⟩
    intro a _ ha
    exact update_of_ne (by simpa using ha) _ _
  refine ⟨by simp [Space.owned],⟨fun _ => .level1 0,?_,?_⟩,?_,?_,?_⟩
  · intro i a t hf
    exact absurd (view_follow.mp hf).2.2.1 (by simp)
  · intro i a t hf
    exact absurd (view_follow.mp hf).2.2.1 (by simp)
  · exact fun i hv => .inr (hentry i hv)
  · intro i
    change (s.mem root i).flags = _
    rw [hroot,copyLowHalf]
    split
    · exact h.kernel.plainRoot i
    · rfl
  · exact fun i _ hin => absurd hin (by simp)

theorem createUser_spec (h : Isolated m) (tid : Nat)
    (hpool : ∀ a ∈ pool, ppn a*pageSize = a ∧ a ∉ m.live) :
    Confined m (m.createUserAddressSpace tid pool) tid := by
  cases pool with
  | nil => exact .refl h tid
  | cons root rest =>
    obtain ⟨hreplaced,hok⟩ := createUser_replaced h tid root rest (hpool root mem_cons_self).2
    exact h.replace hreplaced hok

/-- What is left of `map`, whether it fails or not. -/
theorem space_map_state {shared : PageTable} (h : SpaceInv shared s) (va pa : Nat)
    (flags : PageFlags) : ∃ s', (SpaceState.map va pa flags s).state = some s' ∧
      SpaceInv shared s' ∧ Grown s s' :=
  state_of_wp (wp_mono (space_map_spec h va pa flags) (fun _ _ hq => ⟨hq.1,hq.2.1⟩)
    fun _ _ he => ⟨he.1,he.2.1⟩)

section

variable (h : Isolated m)
include h

theorem userMap_isolated (tid va pa : Nat) (flags : PageFlags) (hnd : pool.Nodup)
    (hpool : ∀ a ∈ pool, ppn a*pageSize = a ∧ a ∉ m.live) :
    Confined m (m.userMap tid va pa flags pool) tid := by
  rw [SpaceManager.userMap]
  cases hsp : m.user.get? tid with
  | none => exact .refl h tid
  | some sp =>
    have hspace : m.space (.managed (.user tid)) = some sp := hsp
    obtain ⟨s,hs,hinv,hgrown⟩ := space_map_state (h.inv hnd hpool hspace) va pa flags
    simp only [hs]
    exact h.replace (hgrown.replaced hspace (fun a ha => (hpool a ha).2) (space_setUser m tid s) rfl)
      hinv.ok

theorem userUnmap_isolated (tid va : Nat) : Confined m (m.userUnmap tid va) tid := by
  rw [SpaceManager.userUnmap]
  cases hsp : m.user.get? tid with
  | none => exact .refl h tid
  | some sp =>
    have hspace : m.space (.managed (.user tid)) = some sp := hsp
    obtain ⟨hinv,hgrown,_⟩ := space_unmap_spec (h.inv nodup_nil (by simp) hspace) va
    exact h.replace (hgrown.replaced hspace (by simp) (space_setUser m tid _) rfl) hinv.ok

theorem Isolated.growKernel (hinv : SpaceInv .empty s)
    (hg : Grown ⟨m.mem,m.kernel,pool⟩ s) (hpool : ∀ a ∈ pool, a ∉ m.live) :
    Isolated { m with mem := s.mem, kernel := s.space } ∧
      Keeps (.managed .kernel) m { m with mem := s.mem, kernel := s.space } := by
  refine h.replaceKernel (hg.replaced rfl hpool (space_setKernel m s) rfl) hinv.ok fun i hv => ?_
  rw [hg.root]
  exact hg.rootKept i hv

theorem kernelMap_isolated (va pa : Nat) (flags : PageFlags) (hnd : pool.Nodup)
    (hpool : ∀ a ∈ pool, ppn a*pageSize = a ∧ a ∉ m.live) :
    Isolated (m.kernelMap va pa flags pool) ∧ Keeps (.managed .kernel) m (m.kernelMap va pa flags pool) := by
  obtain ⟨s,hs,hinv,hgrown⟩ := space_map_state (h.kernelInv hnd hpool) va pa flags
  simp only [kernelMap,hs]
  exact h.growKernel hinv hgrown fun a ha => (hpool a ha).2

theorem kernelUnmap_isolated (va : Nat) :
    Isolated (m.kernelUnmap va) ∧ Keeps (.managed .kernel) m (m.kernelUnmap va) := by
  obtain ⟨hinv,hgrown,_⟩ := space_unmap_spec (h.kernelInv nodup_nil (by simp)) va
  exact h.growKernel hinv hgrown (by simp)

theorem clone_isolated (id : AddressSpaceId) (tid : Nat) (hnd : pool.Nodup)
    (hpool : ∀ a ∈ pool, ppn a*pageSize = a ∧ a ∉ m.live) : Confined m (m.clone id tid pool).2 tid ∧
    ((m.clone id tid pool).1 = .ok () → ∃ sp sp' remap, m.space (.managed id) = some sp ∧
      (m.clone id tid pool).2.space (.managed (.user tid)) = some sp' ∧
      Cloned m.mem (m.clone id tid pool).2.mem sp sp' remap ∧ (∀ a ∈ sp'.owned, a ∈ pool) ∧
      Replaced m (m.clone id tid pool).2 (.managed (.user tid)) sp' pool) := by
  rw [clone]
  cases hsp : m.space (.managed id) with
  | none => exact ⟨.refl h tid,fun hok => nomatch hok⟩
  | some sp =>
    have hfresh := h.freshPool hnd hpool hsp
    have hspec := tryClone_spec m.mem hnd hfresh.apart
    rcases hr : sp.tryClone m.mem pool with ⟨e | sp',mem',rest⟩
    · simp only [hr] at hspec ⊢
      have hsame := h.elsewhere fun a ha => hspec a fun hin => (hpool a hin).2 ha
      exact ⟨⟨hsame.1,fun id' _ => hsame.2 id'⟩,fun hok => nomatch hok⟩
    · simp only [hr] at hspec ⊢
      obtain ⟨hsub,remap,hcloned⟩ := hspec
      have hreplaced : Replaced m { m with mem := mem', user := m.user.insert tid sp' }
          (.managed (.user tid)) sp' pool :=
        ⟨space_setUser m tid ⟨mem',sp',[]⟩,fun a ha => (hpool a ha).2,fun a ha => .inl (hsub a ha),
          fun a ha _ => hcloned.kept a ha⟩
      refine ⟨h.replace hreplaced (hcloned.ok (h.ok _ sp hsp) hfresh hsub),fun _ => ?_⟩
      refine ⟨sp,sp',remap,rfl,?_,hcloned,hsub,hreplaced⟩
      rw [hreplaced.space,if_pos rfl]

theorem Isolated.move (o o' : Owner) (hmem : m'.mem = m.mem) (hkernel : m'.kernel = m.kernel)
    (hspace : ∀ p, m'.space p = if p = o' then m.space o else if p = o then none else m.space p)
    (hother : ∀ id, id ≠ .user tid → .managed id ≠ o ∧ .managed id ≠ o') : Confined m m' tid := by
  constructor
  · refine h.relabel (Equiv.swap o o') (Equiv.swap o o').injective hmem hkernel ?_
    intro p sp hsp
    rw [hspace] at hsp
    split at hsp
    next hp => rwa [hp,Equiv.swap_apply_right]
    next hp =>
      split at hsp
      next => exact absurd hsp (by simp)
      next hp' => rwa [Equiv.swap_apply_of_ne_of_ne hp' hp]
  · intro id hid
    refine translate_of_same hmem ?_
    rw [hspace,if_neg (hother id hid).2,if_neg (hother id hid).1]

end

theorem removeUser_eq {slot : Nat} (hsp : m.user.get? tid = some sp) : m.removeUser tid slot =
    { m with user := m.user.erase tid, held := m.held.insert slot sp } := by
  rw [removeUser,hsp]

theorem space_removeUser {slot : Nat} (hsp : m.user.get? tid = some sp) (p : Owner) :
    (m.removeUser tid slot).space p = if p = .held slot then m.space (.managed (.user tid))
      else if p = .managed (.user tid) then none else m.space p := by
  rw [removeUser_eq hsp]
  cases p with
  | managed id =>
    cases id with
    | kernel => rfl
    | user tid' =>
      simp only [space,get?_erase,Owner.managed.injEq,
        AddressSpaceId.user.injEq,reduceCtorEq,if_false]
  | held slot' =>
    simp only [space,get?_insert,hsp,Owner.held.injEq,reduceCtorEq,if_false]

theorem removeUser_isolated (h : Isolated m) (tid slot : Nat) :
    Confined m (m.removeUser tid slot) tid := by
  cases hsp : m.user.get? tid with
  | none =>
    rw [removeUser,hsp]
    exact .refl h tid
  | some sp =>
    have hspace := @space_removeUser m sp tid slot hsp
    rw [removeUser_eq hsp] at hspace ⊢
    refine h.move (.managed (.user tid)) (.held slot) rfl rfl hspace ?_
    simp

theorem insertUser_eq {slot : Nat} (hsp : m.held.get? slot = some sp) : m.insertUser tid slot =
    { m with user := m.user.insert tid sp, held := m.held.erase slot } := by
  rw [insertUser,hsp]

theorem space_insertUser {slot : Nat} (hsp : m.held.get? slot = some sp) (p : Owner) :
    (m.insertUser tid slot).space p = if p = .managed (.user tid) then m.space (.held slot)
      else if p = .held slot then none else m.space p := by
  rw [insertUser_eq hsp]
  cases p with
  | managed id =>
    cases id with
    | kernel => rfl
    | user tid' =>
      simp only [space,get?_insert,hsp,Owner.managed.injEq,
        AddressSpaceId.user.injEq,reduceCtorEq,if_false]
  | held slot' =>
    simp only [space,get?_erase,Owner.held.injEq,reduceCtorEq,if_false]

theorem insertUser_isolated (h : Isolated m) (tid slot : Nat) :
    Confined m (m.insertUser tid slot) tid := by
  cases hsp : m.held.get? slot with
  | none =>
    rw [insertUser,hsp]
    exact .refl h tid
  | some sp =>
    have hspace := @space_insertUser m sp tid slot hsp
    rw [insertUser_eq hsp] at hspace ⊢
    refine h.move (.held slot) (.managed (.user tid)) rfl rfl hspace ?_
    simp

theorem drop_isolated (h : Isolated m) (slot : Nat) :
    Isolated { m with held := m.held.erase slot } ∧ ∀ id va,
      { m with held := m.held.erase slot : SpaceManager }.translate id va = m.translate id va := by
  constructor
  · refine h.relabel id injective_id rfl rfl ?_
    intro o sp hsp
    cases o with
    | managed id => cases id <;> exact hsp
    | held slot' =>
      simp only [space,get?_erase] at hsp
      split at hsp
      next => exact absurd hsp (by simp)
      next => exact hsp
  · intro id
    exact translate_of_same rfl (by cases id <;> rfl)

/-- What one operation does: the spaces stay in order, and unless it is applied to the kernel it
leaves every translation alone but those of its target. -/
theorem space_step (h : Isolated m) (hfresh : op.Fresh m) (hstep : SpaceOp.step m op = some m') :
    Isolated m' ∧ (op.target ≠ some .kernel → ∀ id, op.target ≠ some id → ∀ va,
      m'.translate id va = m.translate id va) := by
  obtain ⟨hnd,hpool⟩ := hfresh
  have huser : ∀ {tid : Nat} {c : Prop}, Confined m m' tid → Isolated m' ∧ (c → ∀ id,
      some (AddressSpaceId.user tid) ≠ some id → ∀ va, m'.translate id va = m.translate id va) :=
    fun hc => ⟨hc.isolated,fun _ id hne => hc.translate id fun he => hne (congrArg some he.symm)⟩
  cases op with
  | kernelMap va pa flags pool =>
    obtain rfl := some.inj hstep
    exact ⟨(kernelMap_isolated h va pa flags hnd hpool).1,fun hne => absurd rfl hne⟩
  | kernelUnmap va =>
    obtain rfl := some.inj hstep
    exact ⟨(kernelUnmap_isolated h va).1,fun hne => absurd rfl hne⟩
  | createUserAddressSpace tid pool =>
    obtain rfl := some.inj hstep
    exact huser (createUser_spec h tid hpool)
  | userMap tid va pa flags pool =>
    obtain rfl := some.inj hstep
    exact huser (userMap_isolated h tid va pa flags hnd hpool)
  | userUnmap tid va =>
    obtain rfl := some.inj hstep
    exact huser (userUnmap_isolated h tid va)
  | clone id tid pool =>
    obtain rfl := some.inj hstep
    exact huser (clone_isolated h id tid hnd hpool).1
  | removeUser tid slot =>
    obtain rfl := some.inj hstep
    exact huser (removeUser_isolated h tid slot)
  | insertUser tid slot =>
    obtain rfl := some.inj hstep
    exact huser (insertUser_isolated h tid slot)
  | drop slot =>
    obtain rfl := some.inj hstep
    obtain ⟨hiso,hsame⟩ := drop_isolated h slot
    exact ⟨hiso,fun _ id _ => hsame id⟩
  | elsewhere page table =>
    obtain rfl := some.inj hstep
    have hpage : page ∉ m.live := (hpool page (by simp [SpaceOp.pool])).2
    have hmem : ∀ a ∈ m.live, Function.update m.mem page table a = m.mem a := by
      intro a ha
      have hne : a ≠ page := fun he => hpage (he ▸ ha)
      exact update_of_ne hne _ _
    obtain ⟨hiso,hsame⟩ := h.elsewhere hmem
    exact ⟨hiso,fun _ id _ => hsame id⟩

end

variable {mem : TableMemory} {root : Nat} {setup ops : List SpaceOp} {m m' : SpaceManager}

theorem isolated_of_run (hsetup : EachStep SpaceOp.step (fun m op => op.Fresh m) setup
      (SpaceManager.new mem root))
    (hreach : run SpaceOp.step setup (SpaceManager.new mem root) = some m) : Isolated m :=
  run_invariant_of (fun _ _ _ h hfresh hstep => (space_step h hfresh hstep).1)
    (isolated_new mem root) hsetup hreach

theorem run_translate (h : Isolated m) (hops : EachStep SpaceOp.step
      (fun m op => op.Fresh m ∧ op.target ≠ some .kernel ∧ op.target ≠ some id) ops m)
    (hrun : run SpaceOp.step ops m = some m') (va : Nat) :
    m'.translate id va = m.translate id va := by
  refine (run_invariant_of (I := fun s => Isolated s ∧ s.translate id va = m.translate id va)
    ?_ ⟨h,rfl⟩ hops hrun).2
  rintro s op s' ⟨hs,hsame⟩ ⟨hfresh,hkernel,hid⟩ hstep
  obtain ⟨hs',hstep'⟩ := space_step hs hfresh hstep
  exact ⟨hs',(hstep' hkernel id hid va).trans hsame⟩

/-- From every state of the manager, operations on user spaces change no translation of the kernel
and none of a task they are not applied to. -/
theorem user_operations_isolated
    (hsetup : EachStep SpaceOp.step (fun m op => op.Fresh m) setup (SpaceManager.new mem root))
    (hreach : run SpaceOp.step setup (SpaceManager.new mem root) = some m)
    (hops : EachStep SpaceOp.step (fun m op => op.Fresh m) ops m)
    (huser : ∀ op ∈ ops, op.target ≠ some .kernel)
    (hrun : run SpaceOp.step ops m = some m') :
    (∀ va, m'.translate .kernel va = m.translate .kernel va) ∧
      ∀ tid, (∀ op ∈ ops, op.target ≠ some (.user tid)) →
        ∀ va, m'.translate (.user tid) va = m.translate (.user tid) va := by
  have h := isolated_of_run hsetup hreach
  constructor
  · exact run_translate h
      (eachStep_mono (fun _ op ho hf => ⟨hf,huser op ho,huser op ho⟩) hops) hrun
  · intro tid htid
    exact run_translate h
      (eachStep_mono (fun _ op ho hf => ⟨hf,huser op ho,htid op ho⟩) hops) hrun

def readWrite : PageFlags := ⟨true,true,false,true,false,true,true⟩

def twoTasks : List SpaceOp :=
  [.createUserAddressSpace 1 [0x80002000],.createUserAddressSpace 2 [0x80003000]]

def firstMaps : List SpaceOp := [.userMap 1 0x10000 0x90000000 readWrite [0x80004000,0x80005000]]

theorem user_operations_isolated_tasks : ∃ m m',
    run SpaceOp.step twoTasks (.new (fun _ => .empty) 0x80001000) = some m ∧
    run SpaceOp.step firstMaps m = some m' ∧
    m'.translate (.user 1) 0x10008 = some (0x90000008, readWrite) ∧
    (∀ va, m'.translate .kernel va = m.translate .kernel va) ∧
    ∀ va, m'.translate (.user 2) va = m.translate (.user 2) va := by
  have hsetup : EachStep SpaceOp.step (fun m op => op.Fresh m) twoTasks
      (.new (fun _ => .empty) 0x80001000) := by decide
  obtain ⟨m,hreach,hops⟩ : ∃ m,
      run SpaceOp.step twoTasks (.new (fun _ => .empty) 0x80001000) = some m ∧
      EachStep SpaceOp.step (fun m op => op.Fresh m) firstMaps m := ⟨_,rfl,by decide⟩
  have hmapped : ((run SpaceOp.step twoTasks (.new (fun _ => .empty) 0x80001000)).bind fun m =>
      (run SpaceOp.step firstMaps m).bind fun m' => m'.translate (.user 1) 0x10008) =
      some (0x90000008, readWrite) := by decide +kernel
  rw [hreach,bind_some,bind_eq_some_iff] at hmapped
  obtain ⟨m',hrun,hmapped⟩ := hmapped
  obtain ⟨hkernel,hother⟩ := user_operations_isolated hsetup hreach hops (by decide) hrun
  exact ⟨m,m',hreach,hrun,hmapped,hkernel,hother 2 (by decide)⟩

/-- `map` or `unmap` of one space. -/
def SpaceOp.mapsIn (id : AddressSpaceId) : SpaceOp → Bool
  | .kernelMap .. | .kernelUnmap _ => id = .kernel
  | .userMap tid .. | .userUnmap tid _ => id = .user tid
  | _ => false

theorem target_of_mapsIn {op : SpaceOp} (h : op.mapsIn id = true) : op.target = some id := by
  cases op <;> simp_all [SpaceOp.mapsIn,SpaceOp.target]

theorem run_kernel_maps {sp : Space} (h : Isolated m)
    (hsp : m.space (.managed (.user tid)) = some sp) (hown : SpaceOk m.mem .empty sp)
    (hops : EachStep SpaceOp.step (fun m op => op.Fresh m ∧ op.mapsIn .kernel = true) ops m)
    (hrun : run SpaceOp.step ops m = some m') (va : Nat) :
    m'.translate (.user tid) va = m.translate (.user tid) va := by
  refine (run_invariant_of (I := fun s => Isolated s ∧
    s.space (.managed (.user tid)) = some sp ∧ SpaceOk s.mem .empty sp ∧
    s.translate (.user tid) va = m.translate (.user tid) va) ?_ ⟨h,hsp,hown,rfl⟩ hops hrun).2.2.2
  rintro s op s' ⟨hs,hspace,hok,hsame⟩ ⟨⟨hnd,hpool⟩,hmaps⟩ hstep
  have hkeep : Isolated s' ∧ Keeps (.managed .kernel) s s' := by
    cases op with
    | kernelMap va' pa flags pool =>
      obtain rfl := some.inj hstep
      exact kernelMap_isolated hs va' pa flags hnd hpool
    | kernelUnmap va' =>
      obtain rfl := some.inj hstep
      exact kernelUnmap_isolated hs va'
    | _ => simp [SpaceOp.mapsIn] at hmaps
  obtain ⟨hspace',hmem⟩ := hkeep.2 (.managed (.user tid)) sp (by simp) hspace
  refine ⟨hkeep.1,hspace',hok.congr hmem,?_⟩
  rw [← hsame,SpaceManager.translate,SpaceManager.translate,hspace,hspace']
  have hany : SpaceOk s.mem (s.mem sp.root) sp :=
    hok.mono fun i hv => absurd hv (by simp [PageTable.empty,new])
  exact hany.translate_congr hok hmem hmem va

/-- A copy of a space translates like the space if and only if no leaf of the space maps one of
its own tables; mapping in one of the two never changes a translation of the other. -/
theorem clone_translation_iff {id : AddressSpaceId} {tid : Nat} {pool : List Nat}
    (hsetup : EachStep SpaceOp.step (fun m op => op.Fresh m) setup (SpaceManager.new mem root))
    (hreach : run SpaceOp.step setup (SpaceManager.new mem root) = some m)
    (hfresh : (SpaceOp.clone id tid pool).Fresh m) (hnew : id ≠ .user tid)
    (hok : (m.clone id tid pool).1 = .ok ()) :
    ((∀ va, (m.clone id tid pool).2.translate (.user tid) va = m.translate id va) ↔
      ∀ sp, m.space (.managed id) = some sp → ¬ MapsOwnTable m.mem sp) ∧
    ∀ one other, (one = id ∧ other = .user tid) ∨ (one = .user tid ∧ other = id) →
      ∀ ops m', EachStep SpaceOp.step (fun m op => op.Fresh m ∧ op.mapsIn one = true) ops
          (m.clone id tid pool).2 →
        run SpaceOp.step ops (m.clone id tid pool).2 = some m' →
        ∀ va, m'.translate other va = (m.clone id tid pool).2.translate other va := by
  have h := isolated_of_run hsetup hreach
  obtain ⟨hnd,hpool⟩ := hfresh
  change pool.Nodup at hnd
  obtain ⟨⟨hiso,_⟩,hcopy⟩ := clone_isolated h id tid hnd hpool
  obtain ⟨sp,sp',remap,hsp,hsp',hcloned,hsub,_⟩ := hcopy hok
  have hkernel : m.space (.managed .kernel) = some m.kernel := rfl
  have hapart : ∀ a ∈ pool, a ∉ m.kernel.owned := fun a ha hin =>
    (hpool a ha).2 (SpaceManager.mem_live hkernel hin)
  constructor
  · have hiff := hcloned.translate_iff (h.ok _ sp hsp) h.kernel (h.freshPool hnd hpool hsp) hsub hapart
    simp only [SpaceManager.translate,hsp,hsp',some.injEq,forall_eq']
    exact hiff
  · intro one other hcase ops m' hops hrun
    by_cases hone : one = .kernel
    · subst hone
      obtain ⟨rfl,rfl⟩ : AddressSpaceId.kernel = id ∧ other = .user tid := by
        rcases hcase with hcase | ⟨hfalse,_⟩
        · exact hcase
        · exact absurd hfalse (by simp)
      obtain rfl : m.kernel = sp := some.inj hsp
      have hshare : SpaceOk (m.clone .kernel tid pool).2.mem .empty sp' :=
        hcloned.ok h.kernel (h.kernelInv hnd hpool).fresh hsub
      exact run_kernel_maps hiso hsp' hshare hops hrun
    · refine run_translate hiso (eachStep_mono (fun s op _ hop => ?_) hops) hrun
      obtain ⟨hop,hmaps⟩ := hop
      have hne : one ≠ other := by
        rcases hcase with ⟨rfl,rfl⟩ | ⟨rfl,rfl⟩
        · exact hnew
        · exact hnew.symm
      rw [target_of_mapsIn hmaps]
      exact ⟨hop,fun he => hone (some.inj he),fun he => hne (some.inj he)⟩

theorem not_mapsOwnTable {sp : Space}
    (h : ∀ t ∈ sp.tables, ∀ k < pteNumber, (mem t k).faults = false → (mem t k).isLeaf = true →
      (mem t k).addr ∉ sp.tables) : ¬ MapsOwnTable mem sp := by
  rintro ⟨va,e,hwalk,hfaults,hleaf,hin⟩
  rw [AddressSpace.walk,AddressSpace.entryAt] at hwalk
  cases hlast : (sp.view mem).lastTable (vpn2 va) (vpn1 va) with
  | none => simp [hlast] at hwalk
  | some r =>
    obtain ⟨a,t⟩ := r
    obtain ⟨_,_,_,hf⟩ := AddressSpace.lastTable_eq_some.mp hlast
    obtain ⟨_,_,ha,rfl⟩ := view_follow.mp hf
    simp only [hlast] at hwalk
    split at hwalk
    next =>
      obtain rfl := some.inj hwalk
      exact h a ha (vpn0 va) (vpn0_lt va) hfaults hleaf hin
    next => exact absurd hwalk (by simp)

def clonePages : List Nat := [0x80006000,0x80007000,0x80008000]

theorem clone_translation_iff_task : ∃ m,
    run SpaceOp.step (twoTasks ++ firstMaps) (.new (fun _ => .empty) 0x80001000) = some m ∧
    (m.clone (.user 1) 3 clonePages).2.translate (.user 3) 0x10008 = some (0x90000008, readWrite) ∧
    ∀ va, (m.clone (.user 1) 3 clonePages).2.translate (.user 3) va = m.translate (.user 1) va := by
  have hsetup : EachStep SpaceOp.step (fun m op => op.Fresh m) (twoTasks ++ firstMaps)
      (.new (fun _ => .empty) 0x80001000) := by decide
  obtain ⟨m,hreach,hfresh,hok,hsp,hleaves,hmapped⟩ : ∃ m,
      run SpaceOp.step (twoTasks ++ firstMaps) (.new (fun _ => .empty) 0x80001000) = some m ∧
      (SpaceOp.clone (.user 1) 3 clonePages).Fresh m ∧
      (m.clone (.user 1) 3 clonePages).1.isOk = true ∧
      m.space (.managed (.user 1)) = some ⟨0x80002000,[0x80004000,0x80005000]⟩ ∧
      (∀ t ∈ [0x80004000,0x80005000], ∀ k < pteNumber, (m.mem t k).faults = false →
        (m.mem t k).isLeaf = true → (m.mem t k).addr ∉ [0x80004000,0x80005000]) ∧
      m.translate (.user 1) 0x10008 = some (0x90000008, readWrite) :=
    ⟨_,rfl,by decide +kernel,by decide +kernel,by decide +kernel,by decide +kernel,by decide +kernel⟩
  have hok' : (m.clone (.user 1) 3 clonePages).1 = .ok () := by
    cases hr : (m.clone (.user 1) 3 clonePages).1 with
    | error e => simp [hr,Except.isOk,Except.toBool] at hok
    | ok u => rfl
  have hiff := (clone_translation_iff hsetup hreach hfresh (by decide) hok').1
  have hsame := hiff.mpr fun sp hspace => by
    rw [hsp,some.injEq] at hspace
    exact hspace ▸ not_mapsOwnTable hleaves
  exact ⟨m,hreach,(hsame 0x10008).trans hmapped,hsame⟩

/-- The kernel maps its own table of the first level at its physical address. -/
def identityMaps : List SpaceOp :=
  [.kernelMap 0x80002000 0x80002000 ⟨true,true,true,false,false,false,false⟩ [0x80002000,0x80003000]]

/-- In a copy of that space the address leads to the copied table. -/
theorem clone_identity_map : ∃ m,
    EachStep SpaceOp.step (fun m op => op.Fresh m) identityMaps (.new (fun _ => .empty) 0x80001000) ∧
    run SpaceOp.step identityMaps (.new (fun _ => .empty) 0x80001000) = some m ∧
    (SpaceOp.clone .kernel 1 clonePages).Fresh m ∧
    (m.clone .kernel 1 clonePages).1.isOk = true ∧
    (m.translate .kernel 0x80002000).map Prod.fst = some 0x80002000 ∧
    ((m.clone .kernel 1 clonePages).2.translate (.user 1) 0x80002000).map Prod.fst =
      some 0x80007000 :=
  ⟨_,by decide +kernel,rfl,by decide +kernel,by decide +kernel,by decide +kernel,by decide +kernel⟩

end Athera
