import Mathlib.Data.List.Perm.Basic
import Athera.Mm.BuddyFrames
import Athera.Mm.SlubHeap

/-!
# Runs of the slub allocator

A run allocates, gives back what is live, and stores into live allocations.
-/

namespace Athera

open Framework SlubPage List Option Allocation LawfulFrameAllocator SlubState FrameAllocator

/-- A frame allocator with a record of the frames that are outstanding. -/
structure Recorded (σ : Type) where
  inner : σ
  held : List Frame

namespace Recorded

variable {σ : Type}

instance [FrameAllocator σ] : FrameAllocator (Recorded σ) where
  allocFrame s m size :=
    match FrameAllocator.allocFrame s.inner m size with
    | (none, inner, m) => (none, { s with inner := inner }, m)
    | (some p, inner, m) => (some p, ⟨inner,⟨p,blockSize size⟩ :: s.held⟩, m)
  deallocFrame s m start size :=
    match deallocFrame s.inner m start size with
    | (inner, m) => (⟨inner,s.held.erase ⟨start,size⟩⟩, m)

structure Owns [LawfulFrameAllocator σ] (s : Recorded σ) (m : Memory) (live : Set Frame) : Prop where
  inner : LawfulFrameAllocator.Owns s.inner m live
  held : ∀ f, f ∈ s.held ↔ f ∈ live
  nodup : s.held.Nodup

instance [LawfulFrameAllocator σ] : LawfulFrameAllocator (Recorded σ) where
  Owns := Owns
  apart h := apart h.inner
  shape h := shape h.inner
  alloc_some {s m live size p s' m'} h hrun := by
    obtain ⟨r,inner,m1,hinner⟩ : ∃ r inner m1,
        FrameAllocator.allocFrame s.inner m size = (r, inner, m1) := ⟨_,_,_,rfl⟩
    cases r with
    | none => simp [FrameAllocator.allocFrame,hinner] at hrun
    | some q =>
      simp only [FrameAllocator.allocFrame,hinner,Prod.mk.injEq,some.injEq] at hrun
      obtain ⟨rfl,rfl,rfl⟩ := hrun
      obtain ⟨hnew,hown,hagree⟩ := alloc_some h.inner hinner
      refine ⟨hnew,⟨hown,?_,?_⟩,hagree⟩
      · intro f
        rw [mem_cons,Set.mem_insert_iff,h.held]
      · exact nodup_cons.mpr ⟨fun hmem => hnew ((h.held _).mp hmem),h.nodup⟩
  alloc_none {s m live size s' m'} h hrun := by
    obtain ⟨r,inner,m1,hinner⟩ : ∃ r inner m1,
        FrameAllocator.allocFrame s.inner m size = (r, inner, m1) := ⟨_,_,_,rfl⟩
    cases r with
    | none =>
      simp only [FrameAllocator.allocFrame,hinner,Prod.mk.injEq,true_and] at hrun
      obtain ⟨rfl,rfl⟩ := hrun
      obtain ⟨hown,hagree⟩ := alloc_none h.inner hinner
      exact ⟨⟨hown,h.held,h.nodup⟩,hagree⟩
    | some q => simp [FrameAllocator.allocFrame,hinner] at hrun
  dealloc {s m live s' m' f} h hf hrun := by
    obtain ⟨inner,m1,hinner⟩ : ∃ inner m1,
        deallocFrame s.inner m f.start f.size = (inner, m1) := ⟨_,_,rfl⟩
    simp only [deallocFrame,hinner,Prod.mk.injEq] at hrun
    obtain ⟨rfl,rfl⟩ := hrun
    obtain ⟨hown,hagree⟩ := dealloc h.inner hf hinner
    refine ⟨⟨hown,?_,h.nodup.erase f⟩,hagree⟩
    intro g
    rw [h.nodup.mem_erase_iff,h.held,Set.mem_sdiff,Set.mem_singleton_iff]
    exact And.comm
  store h hm := ⟨store h.inner hm,h.held,h.nodup⟩

end Recorded

/-- What a client does. Allocations are numbered from the latest on. -/
inductive SlubOp where
  | alloc (layout : Layout)
  | dealloc (i : Nat)
  | store (i offset : Nat) (v : UInt8)

namespace SlubState

variable {σ : Type}

def init (h : SlubHeap σ) : SlubState σ := ⟨.new,h,[]⟩

/-- Operations on an allocation that does not exist do nothing. -/
def step [FrameAllocator σ] (s : SlubState σ) : SlubOp → Option (SlubState σ)
  | .alloc layout => do
    let (ptr, cs, h) ← s.caches.alloc layout s.heap
    return ⟨cs,h,if ptr = 0 then s.allocs else ⟨ptr,layout⟩ :: s.allocs⟩
  | .dealloc i =>
    match s.allocs[i]? with
    | none => some s
    | some a => do
      let (cs, h) ← s.caches.dealloc a.ptr a.layout s.heap
      return ⟨cs,h,s.allocs.eraseIdx i⟩
  | .store i offset v =>
    match s.allocs[i]? with
    | none => some s
    | some a =>
      if offset < a.layout.size then
        some { s with heap := { s.heap with mem := Function.update s.heap.mem (a.ptr + offset) v } }
      else some s

def pages (s : SlubState σ) : List Nat :=
  [true,false].flatMap fun b => (List.range cachesMax).flatMap fun i =>
    (s.caches.at (b,i)).partialSlubs.iter s.heap.mem ++ (s.caches.at (b,i)).fullSlubs.iter s.heap.mem

end SlubState

/-- The contract of the global allocator, with `old` the frames that others hold. -/
structure AllocContract {σ : Type} (old : List Frame) (s : SlubState (Recorded σ)) : Prop where
  aligned : ∀ a ∈ s.allocs, a.layout.align ∣ a.ptr
  inside : ∀ a ∈ s.allocs, ∃ f ∈ s.heap.alloc.held, f ∉ old ∧
    f.start ≤ a.ptr ∧ a.ptr + a.layout.size ≤ f.start + f.size
  apart : s.allocs.Pairwise fun a b => a.block.Apart b.block
  headers : ∀ a ∈ s.allocs, ∀ p ∈ s.pages, a.block.Apart ⟨p,headerSize⟩

/-- The layouts of the operation fit into a block of the frame allocator. -/
def SlubOp.Fits : SlubOp → Prop
  | .alloc layout => layout.Fits
  | _ => True

instance (op : SlubOp) : Decidable op.Fits := by
  cases op <;> unfold SlubOp.Fits <;> infer_instance

section

variable {σ : Type} [LawfulFrameAllocator σ] {old live : Set Frame} {s : SlubState σ}

theorem heapInv_init {h : SlubHeap σ} (hown : Owns h.alloc h.mem old) :
    HeapInv old old (fun _ => []) (fun _ => ([],[])) (init h) := by
  refine ⟨hown,?_,?_⟩
  · rintro ⟨b,i⟩ _
    cases b <;> exact ⟨rfl,rfl,rfl,nodup_nil,by simp,by simp,by simp⟩
  · exact ⟨fun _ hf => hf,by simp,by simp,by simp [init],by simp [init],
      nodup_nil⟩

theorem slub_step {op : SlubOp} (hinv : ∃ live fr lists, HeapInv old live fr lists s)
    (hop : op.Fits) :
    ∃ s', s.step op = some s' ∧ ∃ live fr lists, HeapInv old live fr lists s' := by
  obtain ⟨live,fr,lists,hinv⟩ := hinv
  cases op with
  | alloc layout =>
    obtain ⟨ptr,cs,h,live',fr',lists',hrun,hinv'⟩ := hinv.alloc_spec hop
    exact ⟨_,by simp [step,hrun],live',fr',lists',hinv'⟩
  | dealloc i =>
    cases ha : s.allocs[i]? with
    | none => exact ⟨s,by simp [step,ha],live,fr,lists,hinv⟩
    | some a =>
      obtain ⟨hi,hget⟩ := List.getElem?_eq_some_iff.mp ha
      have hmem : a ∈ s.allocs := hget ▸ getElem_mem hi
      have hperm := (getElem_cons_eraseIdx_perm hi).map ptr
      have hnodup := hperm.nodup_iff.mpr hinv.placed.nodup
      rw [map_cons,nodup_cons,hget] at hnodup
      obtain ⟨cs,h,live',fr',lists',hrun,hinv'⟩ :=
        hinv.dealloc_spec hmem (eraseIdx_sublist _ i) hnodup.1
      exact ⟨_,by simp [step,ha,hrun],live',fr',lists',hinv'⟩
  | store i offset v =>
    cases ha : s.allocs[i]? with
    | none => exact ⟨s,by simp [step,ha],live,fr,lists,hinv⟩
    | some a =>
      by_cases hoff : offset < a.layout.size
      · have hx : a.ptr+offset ∈ a.block := by
          simp only [block,Block.mem_iff]
          omega
        exact ⟨_,by simp [step,ha,hoff],live,fr,lists,
          hinv.store_spec (mem_of_getElem? ha) (mem_slot_of_mem_block hx) v⟩
      · exact ⟨s,by simp [step,ha,hoff],live,fr,lists,hinv⟩

variable {fr : Nat → List Nat} {lists : CacheId → List Nat × List Nat}

theorem HeapInv.mem_pages {p : Nat} (hinv : HeapInv old live fr lists s) (hp : p ∈ s.pages) :
    ∃ k, k.2 < cachesMax ∧ p ∈ (lists k).1++(lists k).2 := by
  simp only [pages,mem_flatMap,mem_range] at hp
  obtain ⟨b,_,i,hi,hp⟩ := hp
  have hc := hinv.cache (b,i) hi
  rw [hc.iter_partials,hc.iter_fulls] at hp
  exact ⟨(b,i),hi,hp⟩

theorem HeapInv.aligned {a : Allocation} (hinv : HeapInv old live fr lists s) (ha : a ∈ s.allocs) :
    2^a.order ∣ a.ptr := by
  rcases hinv.placed.home ha with ⟨k,hk,hsize,p,hmem,hslot,_⟩ | ⟨hl,_⟩
  · have hs := (CacheId.objectSize_ok hk).facts
    have hl := (hinv.placed.page k hk p hmem).1
    rw [hsize] at hs hl
    exact slot_dvd hs (shape hinv.own _ hl).aligned hslot
  · exact (shape hinv.own _ hl).aligned

theorem Allocation.block_apart {a : Allocation} {b : Block} (h : a.slot.Apart b) :
    a.block.Apart b :=
  h.mono (le_refl a.ptr)
    (Nat.add_le_add_left (le_two_pow_layoutOrder a.layout).1 a.ptr)

theorem HeapInv.contract {s : SlubState (Recorded σ)} (hinv : HeapInv old live fr lists s)
    {held : List Frame} (hold : ∀ f ∈ held, f ∈ old) : AllocContract held s := by
  refine ⟨?_,?_,?_,?_⟩
  · intro a ha
    exact Nat.dvd_trans (align_dvd_two_pow a.layout) (hinv.aligned ha)
  · intro a ha
    obtain ⟨f,hf,hno,hsub⟩ := hinv.placed.frame_of ha
    have hpos := Nat.two_pow_pos a.order
    have hle : a.layout.size ≤ 2^a.order := (le_two_pow_layoutOrder a.layout).1
    have hfirst := hsub a.ptr a.ptr_mem_slot
    have hlast := hsub (a.ptr+(2^a.order-1)) (by
      simp only [slot,Block.mem_iff]
      omega)
    simp only [Block.mem_iff] at hfirst hlast
    exact ⟨f,(hinv.own.held f).mpr hf,fun hh => hno (hold f hh),hfirst.1,by omega⟩
  · have hnodup := pairwise_map.mp hinv.placed.nodup
    apply hnodup.imp_of_mem
    intro a b ha hb hne
    have hap := hinv.slots_apart ha hb hne
    exact (block_apart (block_apart hap).symm).symm
  · intro a ha p hp
    obtain ⟨k,hk,hpm⟩ := hinv.mem_pages hp
    apply block_apart
    have hsize : 0 < headerSize := by decide
    apply Block.apart_of_no_common (Nat.two_pow_pos _) hsize
    intro x hx hhead
    exact hinv.not_footprint ha hk hpm hx (Or.inl hhead)

end

variable {σ : Type} [LawfulFrameAllocator σ] {h : SlubHeap (Recorded σ)} {live : Set Frame}
  {ops : List SlubOp}

theorem slub_run_contract (hown : Owns h.alloc h.mem live)
    (hops : ∀ op ∈ ops, op.Fits) :
    ∃ s, run step ops (.init h) = some s ∧ AllocContract h.alloc.held s := by
  have hfits : EachStep step (fun _ op => op.Fits) ops (init h) :=
    eachStep_of_mem (fun op hop _ => hops op hop) _
  obtain ⟨s,hrun,live',fr,lists,hinv⟩ := run_total_of (fun s op => slub_step)
    ⟨_,_,_,heapInv_init hown⟩ hfits
  exact ⟨s,hrun,hinv.contract fun f hf => (hown.held f).mp hf⟩

/-- The heap of a machine that has given one range of memory to the buddy allocator. -/
def bootHeap (start stop : Nat) : Option (SlubHeap (Recorded BuddyLists)) :=
  ((Buddy.new fun _ => 0).add start stop).map fun b => ⟨⟨b.freeList,[]⟩,b.mem⟩

theorem bootHeap_owns {start stop : Nat} {h : SlubHeap (Recorded BuddyLists)}
    (hstart : 2*topSize ≤ start) (hlt : start < wordRange) (hstop : stop ≤ physicalLimit)
    (hrun : bootHeap start stop = some h) : Owns h.alloc h.mem ∅ := by
  obtain ⟨b,hb,rfl⟩ := map_eq_some_iff.mp hrun
  exact ⟨buddyOwns_add hstart hlt hstop hb,by simp,nodup_nil⟩

def layoutOf (size : Nat) (h : size < 2 ^ 63) : Layout :=
  ⟨size,1,⟨0,by decide,rfl⟩,by rw [Nat.div_one]; omega⟩

/-- Two objects of one size, a store, one of them is given back, and two pages. -/
def pageOps : List SlubOp := [.alloc (layoutOf 24 (by decide)),.alloc (layoutOf 30 (by decide)),
  .store 0 29 7,.dealloc 1,.alloc (layoutOf 5000 (by decide))]

theorem slub_run_contract_pages : ∃ h s, bootHeap 0x80800000 0x80810000 = some h ∧
    run step pageOps (.init h) = some s ∧
    s.allocs.map Allocation.ptr = [0x80802000,0x80800fc0] ∧ AllocContract [] s := by
  have hptrs : ((bootHeap 0x80800000 0x80810000).bind fun h =>
      (run step pageOps (.init h)).map fun s => (h.alloc.held, s.allocs.map ptr)) =
      some ([],[0x80802000,0x80800fc0]) := by decide +kernel
  obtain ⟨h,hboot,hrest⟩ := bind_eq_some_iff.mp hptrs
  have hown := bootHeap_owns (by decide) (by decide) (by decide) hboot
  have hfits : ∀ op ∈ pageOps, op.Fits := by decide
  obtain ⟨s,hrun,hs⟩ := slub_run_contract hown hfits
  rw [hrun,map_some,some.injEq,Prod.mk.injEq] at hrest
  rw [hrest.1] at hs
  exact ⟨h,s,hboot,hrun,hrest.2,hs⟩

/-- Eight mebibytes get a block of four. -/
theorem slub_short_block : ∃ h s, bootHeap 0x80800000 0x80c00000 = some h ∧
    Owns h.alloc h.mem ∅ ∧
    run step [.alloc (layoutOf 0x800000 (by decide))] (.init h) = some s ∧
    ¬ AllocContract h.alloc.held s := by
  have hend : ((bootHeap 0x80800000 0x80c00000).bind fun h =>
      (run step [.alloc (layoutOf 0x800000 (by decide))] (.init h)).map fun s =>
        (s.allocs, s.heap.alloc.held)) =
      some ([⟨0x80800000,layoutOf 0x800000 (by decide)⟩],[⟨0x80800000,0x400000⟩]) := by
    decide
  obtain ⟨h,hboot,hrest⟩ := bind_eq_some_iff.mp hend
  obtain ⟨s,hrun,hs⟩ := map_eq_some_iff.mp hrest
  obtain ⟨hallocs,hheld⟩ := Prod.mk.inj hs
  refine ⟨h,s,hboot,bootHeap_owns (by decide) (by decide) (by decide) hboot,hrun,?_⟩
  intro hc
  obtain ⟨f,hf,_,hlo,hhi⟩ := hc.inside _ (hallocs ▸ mem_singleton_self _)
  rw [hheld,mem_singleton] at hf
  subst hf
  exact absurd hhi (by decide)

end Athera
