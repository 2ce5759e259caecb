import Athera.Mm.SlubRuns

/-!
# A cache neither leaks nor jams

The frames that a cache has taken are those of its pages, and every page has an object in use.
-/

namespace Athera

open Framework SlubPage LawfulFrameAllocator List Option Function

def SlubPage.freeObjects (m : Memory) (page : Nat) : List Nat :=
  (IntrusiveList.mk (field m page freeListField)).iter m

/-- One cache and the objects that its clients hold. -/
structure CacheState (σ : Type) where
  cache : Cache
  heap : SlubHeap σ
  objects : List Nat

/-- What a client does. Objects are numbered from the latest on. -/
inductive CacheOp where
  | alloc
  | dealloc (i : Nat)
  | store (i offset : Nat) (v : UInt8)

namespace CacheState

variable {σ : Type}

def init (o : Nat) (h : SlubHeap σ) : CacheState σ := ⟨.new o,h,[]⟩

/-- Operations on an object that does not exist do nothing. -/
def step [FrameAllocator σ] (s : CacheState σ) : CacheOp → Option (CacheState σ)
  | .alloc => do
    let (ptr, cache, heap) ← s.cache.alloc s.heap
    return ⟨cache,heap,ptr.toList ++ s.objects⟩
  | .dealloc i =>
    match s.objects[i]? with
    | none => some s
    | some ptr => do
      let (_, cache, heap) ← s.cache.dealloc ptr s.heap
      return ⟨cache,heap,s.objects.eraseIdx i⟩
  | .store i offset v =>
    match s.objects[i]? with
    | none => some s
    | some ptr =>
      if offset < s.cache.objectsSize then
        some { s with heap := { s.heap with mem := Function.update s.heap.mem (ptr + offset) v } }
      else some s

def pages (s : CacheState σ) : List Nat :=
  s.cache.partialSlubs.iter s.heap.mem ++ s.cache.fullSlubs.iter s.heap.mem

end CacheState

/-- The state of a cache of objects of size `o`, with `old` the frames that others hold. -/
structure CacheBalance {σ : Type} [FrameAllocator σ] (old : List Frame) (o : Nat)
    (s : CacheState (Recorded σ)) : Prop where
  once : s.pages.Nodup
  held : ∀ f, f ∈ s.heap.alloc.held ↔ f ∈ old ∨ ∃ p ∈ s.pages, f = frame o p
  taken : ∀ p ∈ s.pages, frame o p ∉ old
  partials : ∀ p ∈ s.cache.partialSlubs.iter s.heap.mem, freeObjects s.heap.mem p ≠ []
  fulls : ∀ p ∈ s.cache.fullSlubs.iter s.heap.mem, freeObjects s.heap.mem p = []
  counts : ∀ p ∈ s.pages, field s.heap.mem p inuseField + (freeObjects s.heap.mem p).length =
    field s.heap.mem p objectsField
  refused : ∀ cache heap, s.cache.alloc s.heap = some (none, cache, heap) → Refuses s.heap o
  returned : s.objects = [] → s.pages = [] ∧ ∀ f, f ∈ s.heap.alloc.held ↔ f ∈ old

/-- The cache is in order, and its clients hold the slots of its pages that are not free. -/
structure Balanced {σ : Type} [LawfulFrameAllocator σ] (old live : Set Frame) (fr : Nat → List Nat)
    (ps fs : List Nat) (o : Nat) (s : CacheState σ) : Prop where
  own : Owns s.heap.alloc s.heap.mem live
  cache : CacheOk s.heap.mem live fr o s.cache ps fs
  frames : ∀ f, f ∈ live ↔ f ∈ old ∨ ∃ p ∈ ps ++ fs, f = frame o p
  apart : ∀ p ∈ ps ++ fs, frame o p ∉ old
  used : ∀ p ∈ ps ++ fs, (fr p).length < slotCount o
  objects : ∀ x, x ∈ s.objects ↔ ∃ p ∈ ps ++ fs, x ∈ slotsOf o p ∧ x ∉ fr p
  nodup : s.objects.Nodup

variable {σ : Type} [LawfulFrameAllocator σ] {old live : Set Frame} {fr : Nat → List Nat}
  {ps fs : List Nat} {o x : Nat} {s : CacheState σ}

namespace Balanced

theorem init {h : SlubHeap σ} (hown : Owns h.alloc h.mem old) :
    Balanced old old (fun _ => []) [] [] o (.init o h) :=
  ⟨hown,⟨rfl,rfl,rfl,nodup_nil,by simp,by simp,by simp⟩,by simp,by simp,by simp,
    by simp [CacheState.init],nodup_nil⟩

variable (ho : ObjectSize o) (hb : Balanced old live fr ps fs o s)

include ho hb

theorem page_unique {p q : Nat} (hp : p ∈ ps++fs) (hq : q ∈ ps++fs) (hx : x ∈ slotsOf o p)
    (hx' : x ∈ slotsOf o q) : p = q := by
  have hs := ho.facts
  have heq := frame_unique hb.own (hb.cache.page p hp).1 (hb.cache.page q hq).1
    (slot_mem_frame hs hx) (slot_mem_frame hs hx')
  exact (Block.mk.inj heq).1

theorem alloc : ∃ r c h live' fr' ps' fs', s.cache.alloc s.heap = some (r, c, h) ∧
    Balanced old live' fr' ps' fs' o ⟨c,h,r.toList++s.objects⟩ := by
  obtain ⟨r,c,h,live',fr',ps',fs',hrun,_,hown,hc,hstep⟩ := hb.cache.alloc_spec ho hb.own
  refine ⟨r,c,h,live',fr',ps',fs',hrun,hown,hc,?_,?_,?_,?_,?_⟩
  · intro f
    constructor
    · intro hf
      rcases hstep.frames f hf with hold | hnew
      · rcases (hb.frames f).mp hold with hf | ⟨p,hp,rfl⟩
        · exact Or.inl hf
        · exact Or.inr ⟨p,hstep.kept p hp,rfl⟩
      · exact Or.inr hnew
    · rintro (hf | ⟨p,hp,rfl⟩)
      · exact hstep.keep f ((hb.frames f).mpr (Or.inl hf))
      · exact (hc.page p hp).1
  · intro p hp
    rcases hstep.fresh p hp with hold | hnew
    · exact hb.apart p hold
    · exact fun hf => hnew.1 ((hb.frames _).mpr (Or.inl hf))
  · intro p hp
    rcases hstep.fresh p hp with hold | hnew
    · have hsub := subperm_of_subset (hc.page p hp).2.nodup (hstep.less p hold)
      exact lt_of_le_of_lt hsub.length_le (hb.used p hold)
    · exact hnew.2
  · intro x
    rw [mem_append,mem_toList]
    constructor
    · rintro (hr | hx)
      · obtain ⟨p,hp,hslot,hno,_⟩ := hstep.result x hr
        exact ⟨p,hp,hslot,hno⟩
      · obtain ⟨p,hp,hslot,hno⟩ := (hb.objects x).mp hx
        exact ⟨p,hstep.kept p hp,hslot,fun hf => hno (hstep.less p hp x hf)⟩
    · rintro ⟨p,hp,hslot,hno⟩
      rcases hstep.taken p hp x hslot hno with ⟨hpm,hold⟩ | hr
      · exact Or.inr ((hb.objects x).mpr ⟨p,hpm,hslot,hold⟩)
      · exact Or.inl hr
  · cases r with
    | none => exact hb.nodup
    | some x =>
      refine nodup_cons.mpr ⟨fun hx => ?_,hb.nodup⟩
      obtain ⟨p,hp,hslot,hno⟩ := (hb.objects x).mp hx
      obtain ⟨q,hq,hslotq,_,hold⟩ := hstep.result x rfl
      have heq := frame_unique hown (hc.page p (hstep.kept p hp)).1 (hc.page q hq).1
        (slot_mem_frame ho.facts hslot) (slot_mem_frame ho.facts hslotq)
      obtain rfl : p = q := (Block.mk.inj heq).1
      exact hno (hold hp)

theorem dealloc {objects : List Nat} (hx : x ∈ s.objects)
    (hobj : ∀ y, y ∈ objects ↔ y ∈ s.objects ∧ y ≠ x) (hnd : objects.Nodup) :
    ∃ c h live' fr' ps' fs', s.cache.dealloc x s.heap = some (true, c, h) ∧
      Balanced old live' fr' ps' fs' o ⟨c,h,objects⟩ := by
  obtain ⟨q,hq,hslot,hno⟩ := (hb.objects x).mp hx
  obtain ⟨c,h,live',fr',ps',fs',hrun,hown,hc,hstep⟩ :=
    hb.cache.dealloc_spec ho hb.own hslot hno hq
  refine ⟨c,h,live',fr',ps',fs',hrun,hown,hc,?_,?_,?_,?_,hnd⟩
  all_goals rcases hstep.step with ⟨hpages,rfl,rfl,hlen⟩ | ⟨hpages,rfl,rfl,hall⟩
  -- the frames
  · simpa only [hpages] using hb.frames
  · intro f
    constructor
    · rintro ⟨hf,hne⟩
      rcases (hb.frames f).mp hf with hf | ⟨p,hp,rfl⟩
      · exact Or.inl hf
      · exact Or.inr ⟨p,(hpages p).mpr ⟨hp,fun he => hne (he ▸ rfl)⟩,rfl⟩
    · rintro (hf | ⟨p,hp,rfl⟩)
      · exact ⟨(hb.frames f).mpr (Or.inl hf),fun he => hb.apart q hq (he ▸ hf)⟩
      · exact (hc.page p hp).1
  · exact fun p hp => hb.apart p ((hpages p).mp hp)
  · exact fun p hp => hb.apart p ((hpages p).mp hp).1
  -- the pages are in use
  · intro p hp
    by_cases hpq : p = q
    · subst hpq
      rw [update_self]
      exact hlen
    · rw [update_of_ne hpq]
      exact hb.used p ((hpages p).mp hp)
  · exact fun p hp => hb.used p ((hpages p).mp hp).1
  -- the objects
  · intro y
    rw [hobj,hb.objects]
    simp only [hpages]
    constructor
    · rintro ⟨⟨p,hp,hy,hfree⟩,hne⟩
      refine ⟨p,hp,hy,?_⟩
      by_cases hpq : p = q
      · subst hpq
        simp [hne,hfree]
      · rwa [update_of_ne hpq]
    · rintro ⟨p,hp,hy,hfree⟩
      by_cases hpq : p = q
      · subst hpq
        rw [update_self,mem_cons,not_or] at hfree
        exact ⟨⟨p,hp,hy,hfree.2⟩,hfree.1⟩
      · rw [update_of_ne hpq] at hfree
        exact ⟨⟨p,hp,hy,hfree⟩,fun he => hpq (hb.page_unique ho hp hq hy (he ▸ hslot))⟩
  · intro y
    rw [hobj,hb.objects]
    constructor
    · rintro ⟨⟨p,hp,hy,hfree⟩,hne⟩
      refine ⟨p,(hpages p).mpr ⟨hp,?_⟩,hy,hfree⟩
      rintro rfl
      exact hfree (hall y hy hne)
    · rintro ⟨p,hp,hy,hfree⟩
      obtain ⟨hpm,hpq⟩ := (hpages p).mp hp
      exact ⟨⟨p,hpm,hy,hfree⟩,fun he => hpq (hb.page_unique ho hpm hq hy (he ▸ hslot))⟩

theorem store {a : Nat} (hx : x ∈ s.objects) (ha : a ∈ Block.mk x o) (v : UInt8) :
    Balanced old live fr ps fs o
      { s with heap := { s.heap with mem := Function.update s.heap.mem a v } } := by
  have hs := ho.facts
  obtain ⟨q,hq,hslot,hno⟩ := (hb.objects x).mp hx
  have hlive := (hb.cache.page q hq).1
  have haq := slot_subset_frame hs hslot ha
  refine ⟨?_,?_,hb.frames,hb.apart,hb.used,hb.objects,hb.nodup⟩
  · apply LawfulFrameAllocator.store hb.own
    intro y hy
    apply update_of_ne
    rintro rfl
    exact hy ⟨_,hlive,haq⟩
  · apply hb.cache.agree (fun p hp => (hb.cache.page p hp).1) fun _ _ => rfl
    intro p hp y hfoot
    apply update_of_ne
    rintro rfl
    obtain ⟨hlp,hok⟩ := hb.cache.page p hp
    have heq := frame_unique hb.own hlp hlive (footprint_mem_frame hs hok.slots hfoot) haq
    obtain rfl : p = q := (Block.mk.inj heq).1
    exact hok.not_footprint hs hslot hno ha hfoot

theorem pages_of_no_objects (hnil : s.objects = []) : ps++fs = [] := by
  refine eq_nil_iff_forall_not_mem.mpr fun p hp => ?_
  have hlt := hb.used p hp
  have hnd : (slotsOf o p).Nodup := by
    have hpos := ho.facts.large
    refine List.Nodup.map (fun i j hij => ?_) nodup_range
    exact Nat.eq_of_mul_eq_mul_right (by omega) (Nat.add_left_cancel hij)
  have hall : slotsOf o p ⊆ fr p := by
    intro x hx
    by_contra hno
    have hmem := (hb.objects x).mpr ⟨p,hp,hx,hno⟩
    rw [hnil] at hmem
    exact not_mem_nil hmem
  have hle := (subperm_of_subset hnd hall).length_le
  rw [slotsOf_length] at hle
  omega

end Balanced

theorem cache_step (ho : ObjectSize o) {op : CacheOp}
    (hb : ∃ live fr ps fs, Balanced old live fr ps fs o s) :
    ∃ s', s.step op = some s' ∧ ∃ live fr ps fs, Balanced old live fr ps fs o s' := by
  obtain ⟨live,fr,ps,fs,hb⟩ := hb
  cases op with
  | alloc =>
    obtain ⟨r,c,h,live',fr',ps',fs',hrun,hb'⟩ := hb.alloc ho
    exact ⟨_,by simp [CacheState.step,hrun],live',fr',ps',fs',hb'⟩
  | dealloc i =>
    cases hx : s.objects[i]? with
    | none => exact ⟨s,by simp [CacheState.step,hx],live,fr,ps,fs,hb⟩
    | some x =>
      obtain ⟨hi,hget⟩ := List.getElem?_eq_some_iff.mp hx
      have hperm := getElem_cons_eraseIdx_perm hi
      rw [hget] at hperm
      obtain ⟨hno,hnd⟩ := nodup_cons.mp (hperm.nodup_iff.mpr hb.nodup)
      have hobj : ∀ y, y ∈ s.objects.eraseIdx i ↔ y ∈ s.objects ∧ y ≠ x := by
        intro y
        rw [← hperm.mem_iff,mem_cons]
        constructor
        · exact fun hy => ⟨Or.inr hy,fun he => hno (he ▸ hy)⟩
        · exact fun hy => hy.1.resolve_left hy.2
      obtain ⟨c,h,live',fr',ps',fs',hrun,hb'⟩ := hb.dealloc ho (mem_of_getElem? hx) hobj hnd
      exact ⟨_,by simp [CacheState.step,hx,hrun],live',fr',ps',fs',hb'⟩
  | store i offset v =>
    cases hx : s.objects[i]? with
    | none => exact ⟨s,by simp [CacheState.step,hx],live,fr,ps,fs,hb⟩
    | some x =>
      by_cases hoff : offset < s.cache.objectsSize
      · have ha : x+offset ∈ Block.mk x o := by
          rw [hb.cache.size] at hoff
          simp only [Block.mem_iff]
          omega
        exact ⟨_,by simp [CacheState.step,hx,hoff],live,fr,ps,fs,
          hb.store ho (mem_of_getElem? hx) ha v⟩
      · exact ⟨s,by simp [CacheState.step,hx,hoff],live,fr,ps,fs,hb⟩

theorem Balanced.balance {s : CacheState (Recorded σ)} (ho : ObjectSize o)
    (hb : Balanced old live fr ps fs o s) {held : List Frame} (hold : ∀ f, f ∈ held ↔ f ∈ old) :
    CacheBalance held o s := by
  have hc := hb.cache
  have hpages : s.pages = ps++fs := by rw [CacheState.pages,hc.iter_partials,hc.iter_fulls]
  have hfree : ∀ p ∈ ps++fs, freeObjects s.heap.mem p = fr p := fun p hp =>
    (hc.page p hp).2.free.iter_eq
  have hheld : ∀ f, f ∈ s.heap.alloc.held ↔ f ∈ held ∨ ∃ p ∈ ps++fs, f = frame o p := by
    intro f
    rw [hb.own.held,hb.frames,hold]
  refine ⟨?_,?_,?_,?_,?_,?_,?_,?_⟩
  · rw [hpages]
    exact hc.nodup
  · rw [hpages]
    exact hheld
  · intro p hp hf
    rw [hpages] at hp
    exact hb.apart p hp ((hold _).mp hf)
  · intro p hp
    rw [hc.iter_partials] at hp
    rw [hfree p (mem_append_left _ hp)]
    exact hc.partialFree p hp
  · intro p hp
    rw [hc.iter_fulls] at hp
    rw [hfree p (mem_append_right _ hp)]
    exact hc.fullFree p hp
  · intro p hp
    rw [hpages] at hp
    have hok := (hc.page p hp).2
    rw [hfree p hp,hok.inuse,hok.objects]
  · intro cache heap hrun
    obtain ⟨r,c,h,_,_,_,_,hrun',hrefuse,_⟩ := hc.alloc_spec ho hb.own
    rw [hrun,some.injEq,Prod.mk.injEq] at hrun'
    exact hrefuse hrun'.1.symm
  · intro hnil
    have hnone := hb.pages_of_no_objects ho hnil
    refine ⟨hpages.trans hnone,fun f => ?_⟩
    rw [hheld,hnone]
    simp

variable {h : SlubHeap (Recorded σ)}

/-- Every run of a cache ends, and in a state without lost pages. -/
theorem cache_balanced (ho : ObjectSize o) (hown : Owns h.alloc h.mem live) (ops : List CacheOp) :
    ∃ s, run CacheState.step ops (.init o h) = some s ∧ CacheBalance h.alloc.held o s := by
  obtain ⟨s,hrun,live',fr,ps,fs,hb⟩ := run_total_of
    (fun s op hs _ => cache_step ho hs) ⟨_,_,_,_,Balanced.init hown⟩
    (eachStep_of_forall (fun _ _ => trivial) ops _)
  exact ⟨s,hrun,hb.balance ho fun f => hown.held f⟩

/-- Four objects of 2 KiB come and go. -/
theorem cache_balanced_two_pages : ∃ h s, bootHeap 0x80800000 0x80810000 = some h ∧
    run CacheState.step [.alloc,.alloc,.alloc,.alloc,.store 0 9 7,.dealloc 2,.dealloc 0,.dealloc 0,
      .dealloc 0] (.init 2048 h) = some s ∧ s.objects = [] ∧ s.pages = [] ∧
    ∀ f, f ∈ s.heap.alloc.held ↔ f ∈ ([] : List Frame) := by
  have hend : ((bootHeap 0x80800000 0x80810000).bind fun h =>
      (run CacheState.step [.alloc,.alloc,.alloc,.alloc,.store 0 9 7,.dealloc 2,.dealloc 0,.dealloc 0,
        .dealloc 0] (.init 2048 h)).map fun s => (h.alloc.held, s.objects)) = some ([],[]) := by
    decide
  obtain ⟨h,hboot,hrest⟩ := bind_eq_some_iff.mp hend
  have hown := bootHeap_owns (by decide) (by decide) (by decide) hboot
  have hsize : ObjectSize 2048 := ⟨7,by decide,rfl⟩
  obtain ⟨s,hrun,hs⟩ := cache_balanced hsize hown [.alloc,.alloc,.alloc,.alloc,.store 0 9 7,
    .dealloc 2,.dealloc 0,.dealloc 0,.dealloc 0]
  rw [hrun,map_some,some.injEq,Prod.mk.injEq] at hrest
  rw [hrest.1] at hs
  exact ⟨h,s,hboot,hrun,hrest.2,hs.returned hrest.2⟩

end Athera
