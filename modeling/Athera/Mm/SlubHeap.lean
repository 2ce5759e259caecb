import Athera.Mm.SlubDealloc

/-!
# The caches together

A live allocation is a slot of a page that is not free, or a frame of its own; allocations with
different addresses do not overlap.
-/

namespace Athera

open Framework SlubPage LawfulFrameAllocator List Function Block

section

variable (layout : Layout)

theorem Layout.bounded : max (max layout.size layout.align) (1 <<< slubMinOrder) < wordRange := by
  obtain ⟨k,hk,hpow⟩ := layout.pow
  have hfits := layout.fits
  have hle : (2 : Nat)^k ≤ 2^63 := Nat.pow_le_pow_right (by decide) (by omega)
  have hpos := Nat.two_pow_pos k
  have hdm := Nat.div_add_mod' (layout.size+layout.align-1) layout.align
  have hmod := Nat.mod_lt (layout.size+layout.align-1) (hpow ▸ hpos)
  have hmin : 1 <<< slubMinOrder = 16 := by decide
  simp only [wordRange]
  omega

theorem layoutOrder_le_iff (k : Nat) :
    layoutOrder layout ≤ k ↔ max (max layout.size layout.align) (1 <<< slubMinOrder) ≤ 2^k := by
  apply ilog2Ceil_le_iff _ layout.bounded
  exact lt_of_lt_of_le (by decide) (Nat.le_max_right _ _)

theorem le_two_pow_layoutOrder : layout.size ≤ 2^layoutOrder layout ∧
    layout.align ≤ 2^layoutOrder layout ∧ slubMinOrder ≤ layoutOrder layout := by
  have hmax := (layoutOrder_le_iff layout _).mp (le_refl _)
  by_contra hlt
  have hpow : 2^layoutOrder layout < 2^slubMinOrder :=
    Nat.pow_lt_pow_right (by decide) (by omega)
  omega

theorem align_dvd_two_pow : layout.align ∣ 2^layoutOrder layout := by
  obtain ⟨k,_,hpow⟩ := layout.pow
  have hle := (le_two_pow_layoutOrder layout).2.1
  rw [hpow] at hle ⊢
  exact pow_dvd_pow 2 ((Nat.pow_le_pow_iff_right (by decide)).mp hle)

/-- The layout fits into a block of the frame allocator. -/
def Layout.Fits : Prop := max layout.size layout.align ≤ topSize

instance : Decidable layout.Fits := inferInstanceAs (Decidable (_ ≤ _))

theorem Layout.Fits.blockSize_eq (hfits : layout.Fits) (hlarge : slubMaxOrder ≤ layoutOrder layout) :
    blockSize (1 <<< layoutOrder layout) = 2^layoutOrder layout := by
  have htop : topSize = 2^22 := orderSize_eq _
  have hle : layoutOrder layout ≤ 22 := by
    rw [layoutOrder_le_iff]
    have hmin : 1 <<< slubMinOrder = 16 := by decide
    simp only [Layout.Fits] at hfits
    omega
  have hk : layoutOrder layout-12 < buddyMaxOrder := by
    simp only [buddyMaxOrder]
    omega
  have horder : orderSize (layoutOrder layout-12) = 2^layoutOrder layout := by
    rw [orderSize_eq]
    congr 1
    simp only [slubMaxOrder] at hlarge
    omega
  rw [Nat.one_shiftLeft,← horder,blockSize_orderSize hk]

end

/-- The cache of one size on the hart, or the shared one. -/
abbrev CacheId := Bool × Nat

section

variable (cs : Caches)

def Caches.side : Bool → SlowCaches
  | true => cs.cpuCaches
  | false => cs.slowCaches

def Caches.withSide (scs : SlowCaches) : Bool → Caches
  | true => { cs with cpuCaches := scs }
  | false => { cs with slowCaches := scs }

def Caches.at (k : CacheId) : Cache := cs.side k.1 k.2

def Caches.set (c : Cache) (k : CacheId) : Caches :=
  cs.withSide (Function.update (cs.side k.1) k.2 c) k.1

theorem Caches.at_set (c : Cache) (k k' : CacheId) :
    (cs.set c k).at k' = if k' = k then c else cs.at k' := by
  obtain ⟨b,i⟩ := k
  obtain ⟨b',i'⟩ := k'
  cases b <;> cases b' <;>
    simp [Caches.at,Caches.set,Caches.side,Caches.withSide,update_apply]

theorem Caches.withSide_side (b : Bool) : cs.withSide (cs.side b) b = cs := by
  cases b <;> rfl

end

structure Allocation where
  ptr : Nat
  layout : Layout
deriving DecidableEq

namespace Allocation

def block (a : Allocation) : Block := ⟨a.ptr,a.layout.size⟩

def order (a : Allocation) : Nat := layoutOrder a.layout

def slot (a : Allocation) : Block := ⟨a.ptr,2 ^ a.order⟩

theorem ptr_mem_slot (a : Allocation) : a.ptr ∈ a.slot := by
  have hpos := Nat.two_pow_pos a.order
  simp only [slot,mem_iff]
  omega

theorem mem_slot_of_mem_block {a : Allocation} {x : Nat} (hx : x ∈ a.block) : x ∈ a.slot := by
  have hle := (le_two_pow_layoutOrder a.layout).1
  simp only [block,slot,order,mem_iff] at hx ⊢
  omega

end Allocation

structure SlubState (σ : Type) where
  caches : Caches
  heap : SlubHeap σ
  allocs : List Allocation

def CacheId.objectSize (k : CacheId) : Nat := 2 ^ (k.2 + slubMinOrder)

/-- Which pages there are, and where the allocations are. `old` are frames of others. -/
structure SlotsPlaced (old live : Set Frame) (fr : Nat → List Nat) (pages : CacheId → List Nat)
    (allocs : List Allocation) : Prop where
  kept : ∀ f ∈ old, f ∈ live
  page : ∀ k, k.2 < cachesMax → ∀ p ∈ pages k, frame k.objectSize p ∈ live ∧
    frame k.objectSize p ∉ old
  distinct : ∀ k k' p, k.2 < cachesMax → k'.2 < cachesMax → p ∈ pages k → p ∈ pages k' → k = k'
  small : ∀ a ∈ allocs, a.order < slubMaxOrder → ∃ b, ∃ p ∈ pages (b,a.order - slubMinOrder),
    a.ptr ∈ slotsOf (2 ^ a.order) p ∧ a.ptr ∉ fr p
  large : ∀ a ∈ allocs, slubMaxOrder ≤ a.order → ⟨a.ptr,2 ^ a.order⟩ ∈ live ∧
    ⟨a.ptr,2 ^ a.order⟩ ∉ old ∧ ∀ k, k.2 < cachesMax → a.ptr ∉ pages k
  nodup : (allocs.map Allocation.ptr).Nodup

variable {σ : Type} [LawfulFrameAllocator σ] {old live live' : Set Frame} {fr fr' : Nat → List Nat}
  {pages : CacheId → List Nat} {ps : List Nat} {allocs : List Allocation} {m m' : Memory}
  {k : CacheId} {o p q x : Nat} {s : SlubState σ}

variable {f : Frame}

theorem frame_unique {a : σ} {g : Frame} (hown : Owns a m live) (hf : f ∈ live) (hg : g ∈ live)
    (hx : x ∈ f) (hx' : x ∈ g) : f = g := by
  by_contra hne
  exact (apart hown hf hg hne).not_mem hx hx'

theorem start_mem_frame {a : σ} (hown : Owns a m live) (hf : f ∈ live) : f.start ∈ f := by
  obtain ⟨j,_,hsize⟩ := (shape hown f hf).order
  have hpos := orderSize_pos j
  simp only [mem_iff]
  omega

theorem CacheId.objectSize_ok (hk : k.2 < cachesMax) : ObjectSize k.objectSize := ⟨k.2,hk,rfl⟩

theorem Allocation.index_lt {a : Allocation} (h : a.order < slubMaxOrder) :
    a.order-slubMinOrder < cachesMax := by
  have hmin : slubMinOrder ≤ a.order := (le_two_pow_layoutOrder a.layout).2.2
  simp only [cachesMax]
  omega

theorem Allocation.objectSize_eq (a : Allocation) (b : Bool) :
    CacheId.objectSize (b,a.order-slubMinOrder) = 2^a.order := by
  have hmin : slubMinOrder ≤ a.order := (le_two_pow_layoutOrder a.layout).2.2
  rw [CacheId.objectSize,Nat.sub_add_cancel hmin]

theorem slot_subset_frame {y : Nat} (hs : SizeFacts o) (hx : x ∈ slotsOf o p)
    (hy : y ∈ mk x o) : y ∈ frame o p := by
  have hb := slot_bounds hs hx
  simp only [mem_iff] at hy ⊢
  omega

theorem SlotsPlaced.home {a : Allocation} (hp : SlotsPlaced old live fr pages allocs)
    (ha : a ∈ allocs) : (∃ k, k.2 < cachesMax ∧ k.objectSize = 2^a.order ∧
      ∃ p ∈ pages k, a.ptr ∈ slotsOf (2^a.order) p ∧ a.ptr ∉ fr p) ∨
    a.slot ∈ live ∧ a.slot ∉ old ∧ ∀ k, k.2 < cachesMax → a.ptr ∉ pages k := by
  rcases Nat.lt_or_ge a.order slubMaxOrder with hsmall | hlarge
  · obtain ⟨b,hpage⟩ := hp.small a ha hsmall
    exact Or.inl ⟨_,Allocation.index_lt hsmall,a.objectSize_eq b,hpage⟩
  · exact Or.inr (hp.large a ha hlarge)

theorem SlotsPlaced.frame_of {a : Allocation} (hp : SlotsPlaced old live fr pages allocs)
    (ha : a ∈ allocs) : ∃ f ∈ live, f ∉ old ∧ ∀ x ∈ a.slot, x ∈ f := by
  rcases hp.home ha with ⟨k,hk,hsize,p,hmem,hslot,_⟩ | ⟨hl,ho,_⟩
  · obtain ⟨hl,ho⟩ := hp.page k hk p hmem
    have hs := (CacheId.objectSize_ok hk).facts
    rw [hsize] at hl ho hs
    exact ⟨_,hl,ho,fun x hx => slot_subset_frame hs hslot hx⟩
  · exact ⟨_,hl,ho,fun x hx => hx⟩

section

theorem AllocStep.not_mem {a : σ} {pages pages' : List Nat} {r : Option Nat}
    (hstep : AllocStep o live live' fr fr' pages pages' m m' r) (hown : Owns a m' live')
    (hpage : ∀ p ∈ pages', frame o p ∈ live') (hf : f ∈ live) (hno : f.start ∉ pages) :
    f.start ∉ pages' := by
  intro hmem
  rcases hstep.fresh _ hmem with hold | hnew
  · exact hno hold
  · have hf' := hstep.keep f hf
    have hstart : f.start ∈ frame o f.start := start_mem_frame hown (hpage _ hmem)
    have heq := frame_unique hown hf' (hpage _ hmem) (start_mem_frame hown hf') hstart
    rw [heq] at hf
    exact hnew.1 hf

variable {a : σ} {pages' : List Nat} {r : Option Nat}
  (hp : SlotsPlaced old live fr pages allocs) (hk : k.2 < cachesMax)
  (hstep : AllocStep k.objectSize live live' fr fr' (pages k) pages' m m' r)
  (hown : Owns a m' live') (hpage : ∀ p ∈ pages', frame k.objectSize p ∈ live')

include hp hk hstep hown hpage

theorem SlotsPlaced.other_page {k' : CacheId} (hk' : k'.2 < cachesMax) (hne : k' ≠ k)
    (hmem : p ∈ pages k') : p ∉ pages' :=
  hstep.not_mem hown hpage (hp.page k' hk' p hmem).1
    fun hpk => hne (hp.distinct k' k p hk' hk hmem hpk)

theorem SlotsPlaced.alloc : SlotsPlaced old live' fr' (Function.update pages k pages') allocs := by
  refine ⟨fun f hf => hstep.keep f (hp.kept f hf),?_,?_,?_,?_,hp.nodup⟩
  · intro k' hk' p hmem
    by_cases hkk : k' = k
    · subst hkk
      rw [update_self] at hmem
      refine ⟨hpage p hmem,?_⟩
      rcases hstep.fresh p hmem with hold | hnew
      · exact (hp.page k' hk' p hold).2
      · exact fun ho => hnew.1 (hp.kept _ ho)
    · rw [update_of_ne hkk] at hmem
      obtain ⟨hl,ho⟩ := hp.page k' hk' p hmem
      exact ⟨hstep.keep _ hl,ho⟩
  · intro k1 k2 p hk1 hk2 h1 h2
    by_cases he1 : k1 = k <;> by_cases he2 : k2 = k
    · rw [he1,he2]
    · subst he1
      rw [update_self] at h1
      rw [update_of_ne he2] at h2
      exact absurd h1 (hp.other_page hk hstep hown hpage hk2 he2 h2)
    · subst he2
      rw [update_self] at h2
      rw [update_of_ne he1] at h1
      exact absurd h2 (hp.other_page hk hstep hown hpage hk1 he1 h1)
    · rw [update_of_ne he1] at h1
      rw [update_of_ne he2] at h2
      exact hp.distinct k1 k2 p hk1 hk2 h1 h2
  · intro a ha hsmall
    obtain ⟨b,p,hmem,hslot,hno⟩ := hp.small a ha hsmall
    refine ⟨b,p,?_,hslot,?_⟩
    all_goals by_cases hkk : (b,a.order-slubMinOrder) = k
    · rw [hkk,update_self]
      exact hstep.kept p (hkk ▸ hmem)
    · rwa [update_of_ne hkk]
    · exact fun hx => hno (hstep.less p (hkk ▸ hmem) _ hx)
    · rw [hstep.other p (hp.other_page hk hstep hown hpage (Allocation.index_lt hsmall) hkk hmem)]
      exact hno
  · intro a ha hlarge
    obtain ⟨hl,ho,hno⟩ := hp.large a ha hlarge
    refine ⟨hstep.keep _ hl,ho,?_⟩
    intro k' hk'
    by_cases hkk : k' = k
    · subst hkk
      rw [update_self]
      exact hstep.not_mem hown hpage hl (hno k' hk')
    · rw [update_of_ne hkk]
      exact hno k' hk'

theorem SlotsPlaced.alloc_fresh (hr : r = some x) : x ∉ allocs.map Allocation.ptr := by
  have hs := (CacheId.objectSize_ok hk).facts
  obtain ⟨p,hmem,hslot,_,hold⟩ := hstep.result x hr
  have hxp : x ∈ frame k.objectSize p := slot_mem_frame hs hslot
  rw [mem_map]
  rintro ⟨a,ha,rfl⟩
  have hsame : ∀ f ∈ live, a.ptr ∈ f → f = frame k.objectSize p := fun f hf hx =>
    frame_unique hown (hstep.keep f hf) (hpage p hmem) hx hxp
  rcases Nat.lt_or_ge a.order slubMaxOrder with hsmall | hlarge
  · obtain ⟨b,p',hmem',hslot',hno⟩ := hp.small a ha hsmall
    have hk' := Allocation.index_lt hsmall
    have hl := (hp.page _ hk' p' hmem').1
    rw [a.objectSize_eq] at hl
    have hs' := (CacheId.objectSize_ok (k := (b,a.order-slubMinOrder)) hk').facts
    rw [a.objectSize_eq] at hs'
    have heq := hsame _ hl (slot_mem_frame hs' hslot')
    have hpp : p' = p := (mk.inj heq).1
    subst hpp
    by_cases hpk : p' ∈ pages k
    · exact hno (hold hpk)
    · exact hstep.not_mem hown hpage hl hpk hmem
  · obtain ⟨hl,_,hno⟩ := hp.large a ha hlarge
    have hptr : a.ptr ∈ Block.mk a.ptr (2^a.order) := start_mem_frame hown (hstep.keep _ hl)
    have heq := hsame _ hl hptr
    have hpp : a.ptr = p := (mk.inj heq).1
    exact hstep.not_mem hown hpage hl (hno k hk) (hpp ▸ hmem)

end

section

theorem DeallocStep.stays {pages pages' : List Nat}
    (hstep : DeallocStep o q x live live' fr fr' pages pages' m m') :
    (∀ p ∈ pages', p ∈ pages) ∧ (∀ p ∈ pages, p ≠ q → p ∈ pages') ∧
      (∀ f ∈ live, f ≠ frame o q → f ∈ live') ∧ ∀ p, p ≠ q → fr' p = fr p := by
  rcases hstep.step with ⟨hpages,rfl,rfl,_⟩ | ⟨hpages,rfl,rfl,_⟩
  · exact ⟨fun p => (hpages p).mp,fun p hp _ => (hpages p).mpr hp,fun _ hf _ => hf,
      fun p hne => update_of_ne hne _ _⟩
  · exact ⟨fun p hp => ((hpages p).mp hp).1,fun p hp hne => (hpages p).mpr ⟨hp,hne⟩,
      fun _ hf hne => ⟨hf,hne⟩,fun _ _ => rfl⟩

variable {pages' : List Nat} {allocs' : List Allocation}
  (hp : SlotsPlaced old live fr pages allocs) (hk : k.2 < cachesMax) (hq : q ∈ pages k)
  (hstep : DeallocStep k.objectSize q x live live' fr fr' (pages k) pages' m m')

include hp hk hq hstep

theorem SlotsPlaced.dealloc (hpage : ∀ p ∈ pages', frame k.objectSize p ∈ live')
    (hsub : allocs'.Sublist allocs) (hx : x ∉ allocs'.map Allocation.ptr) :
    SlotsPlaced old live' fr' (Function.update pages k pages') allocs' := by
  obtain ⟨hback,hstay,hframe,hfr⟩ := hstep.stays
  have hold := (hp.page k hk q hq).2
  have hfrom : ∀ k' p, p ∈ Function.update pages k pages' k' → p ∈ pages k' := by
    intro k' p hmem
    by_cases hkk : k' = k
    · subst hkk
      rw [update_self] at hmem
      exact hback p hmem
    · rwa [update_of_ne hkk] at hmem
  have hkeep : ∀ k' p, p ∈ pages k' → p ≠ q → p ∈ Function.update pages k pages' k' := by
    intro k' p hmem hne
    by_cases hkk : k' = k
    · subst hkk
      rw [update_self]
      exact hstay p hmem hne
    · rwa [update_of_ne hkk]
  refine ⟨?_,?_,?_,?_,?_,hp.nodup.sublist (hsub.map _)⟩
  · intro f hf
    apply hframe f (hp.kept f hf)
    rintro rfl
    exact hold hf
  · intro k' hk' p hmem'
    obtain ⟨hl,ho⟩ := hp.page k' hk' p (hfrom k' p hmem')
    refine ⟨?_,ho⟩
    by_cases hkk : k' = k
    · subst hkk
      rw [update_self] at hmem'
      exact hpage p hmem'
    · apply hframe _ hl
      intro heq
      have hpq : p = q := (mk.inj heq).1
      rw [update_of_ne hkk] at hmem'
      exact hkk (hp.distinct k' k p hk' hk hmem' (hpq ▸ hq))
  · intro k1 k2 p hk1 hk2 h1 h2
    exact hp.distinct k1 k2 p hk1 hk2 (hfrom k1 p h1) (hfrom k2 p h2)
  · intro a ha hsmall
    obtain ⟨b,p,hmem',hslot,hno⟩ := hp.small a (hsub.subset ha) hsmall
    have hax : a.ptr ≠ x := fun he => hx (he ▸ mem_map_of_mem ha)
    by_cases hpq : p = q
    · subst hpq
      have hkk := hp.distinct _ k p (Allocation.index_lt hsmall) hk hmem' hq
      have hsize : k.objectSize = 2^a.order := by rw [← hkk,a.objectSize_eq]
      rcases hstep.step with ⟨hpages,_,rfl,_⟩ | ⟨_,_,_,hfree⟩
      · refine ⟨b,p,?_,hslot,?_⟩
        · rw [hkk,update_self]
          exact (hpages p).mpr hq
        · simp [hax,hno]
      · rw [hsize] at hfree
        exact absurd (hfree a.ptr hslot hax) hno
    · exact ⟨b,p,hkeep _ p hmem' hpq,hslot,by rwa [hfr p hpq]⟩
  · intro a ha hlarge
    obtain ⟨hl,ho,hno⟩ := hp.large a (hsub.subset ha) hlarge
    refine ⟨hframe _ hl ?_,ho,fun k' hk' hmem' => hno k' hk' (hfrom k' _ hmem')⟩
    intro heq
    have hpq : a.ptr = q := (mk.inj heq).1
    exact hno k hk (hpq ▸ hq)

end

/-- The invariant of the caches, the frame allocator and the allocations. -/
structure HeapInv (old live : Set Frame) (fr : Nat → List Nat)
    (lists : CacheId → List Nat × List Nat) (s : SlubState σ) : Prop where
  own : Owns s.heap.alloc s.heap.mem live
  cache : ∀ k, k.2 < cachesMax →
    CacheOk s.heap.mem live fr k.objectSize (s.caches.at k) (lists k).1 (lists k).2
  placed : SlotsPlaced old live fr (fun k => (lists k).1 ++ (lists k).2) s.allocs

namespace HeapInv

variable {lists : CacheId → List Nat × List Nat}

theorem pages_update (l : List Nat × List Nat) :
    (fun k' => (Function.update lists k l k').1++(Function.update lists k l k').2) =
      Function.update (fun k' => (lists k').1++(lists k').2) k (l.1++l.2) := by
  funext k'
  by_cases hkk : k' = k
  · subst hkk
    simp
  · simp [hkk]

section

variable (hinv : HeapInv old live fr lists s)
include hinv

theorem set_cache {c : Cache} {h : SlubHeap σ} {fs : List Nat} (hown : Owns h.alloc h.mem live')
    (hc : CacheOk h.mem live' fr' k.objectSize c ps fs)
    (hfr : ∀ k' ≠ k, k'.2 < cachesMax → ∀ p ∈ (lists k').1++(lists k').2, fr' p = fr p)
    (hmem : ∀ f ∈ live, f.start ∉ (lists k).1++(lists k).2 → ∀ a ∈ f, h.mem a = s.heap.mem a)
    (hk : k.2 < cachesMax)
    (hp : SlotsPlaced old live' fr' (Function.update (fun k => (lists k).1++(lists k).2) k
      (ps++fs)) allocs) :
    HeapInv old live' fr' (Function.update lists k (ps,fs)) ⟨s.caches.set c k,h,allocs⟩ := by
  refine ⟨hown,?_,?_⟩
  · intro k' hk'
    rw [Caches.at_set]
    by_cases hkk : k' = k
    · subst hkk
      rw [if_pos rfl,update_self]
      exact hc
    · rw [if_neg hkk,update_of_ne hkk]
      have hc' := hinv.cache k' hk'
      apply hc'.agree _ (hfr k' hkk hk')
      · intro p hpm a ha
        apply hmem _ (hc'.page p hpm).1
        · exact fun hpk => hkk (hinv.placed.distinct k' k p hk' hk hpm hpk)
        · exact footprint_mem_frame (CacheId.objectSize_ok hk').facts (hc'.page p hpm).2.slots ha
      · intro p hpm
        refine (hp.page k' hk' p ?_).1
        rwa [update_of_ne hkk]
  · rw [pages_update]
    exact hp

theorem alloc_cache (hk : k.2 < cachesMax) :
    ∃ r c h live' fr' lists', (s.caches.at k).alloc s.heap = some (r, c, h) ∧
      (∀ x, r = some x → x ≠ 0) ∧ ∀ layout, layoutOrder layout = k.2+slubMinOrder →
        HeapInv old live' fr' lists' ⟨s.caches.set c k,h,
          (r.map (Allocation.mk · layout)).toList++s.allocs⟩ := by
  have ho := CacheId.objectSize_ok hk
  obtain ⟨r,c,h,live',fr',ps,fs,hrun,_,hown,hc,hstep⟩ := (hinv.cache k hk).alloc_spec ho hinv.own
  have hpage : ∀ p ∈ ps++fs, frame k.objectSize p ∈ live' := fun p hp => (hc.page p hp).1
  have hp := hinv.placed.alloc hk hstep hown hpage
  refine ⟨r,c,h,live',fr',Function.update lists k (ps,fs),hrun,?_,?_⟩
  · rintro x rfl rfl
    obtain ⟨p,_,hslot,_⟩ := hstep.result 0 rfl
    have hb := (slot_bounds ho.facts hslot).1
    simp only [headerSize] at hb
    omega
  · intro layout hlayout
    apply hinv.set_cache hown hc _ hstep.mem hk
    · cases r with
      | none => exact hp
      | some x =>
        obtain ⟨p,hmem,hslot,hno,_⟩ := hstep.result x rfl
        have hfresh := hinv.placed.alloc_fresh hk hstep hown hpage rfl
        have horder : (Allocation.mk x layout).order = k.2+slubMinOrder := hlayout
        refine ⟨hp.kept,hp.page,hp.distinct,?_,?_,nodup_cons.mpr ⟨hfresh,hp.nodup⟩⟩
        · intro a ha hsmall
          rcases mem_cons.mp ha with rfl | ha
          · refine ⟨k.1,p,?_,?_,hno⟩
            · rw [horder,Nat.add_sub_cancel,update_self]
              exact hmem
            · rw [horder]
              exact hslot
          · exact hp.small a ha hsmall
        · intro a ha hlarge
          rcases mem_cons.mp ha with rfl | ha
          · rw [horder] at hlarge
            simp only [cachesMax] at hk
            omega
          · exact hp.large a ha hlarge
    · intro k' hkk hk' p hpm
      exact hstep.other p (hinv.placed.other_page hk hstep hown hpage hk' hkk hpm)

theorem dealloc_cache (hk : k.2 < cachesMax)
    (hq : q ∈ (lists k).1++(lists k).2) (hx : x ∈ slotsOf k.objectSize q) (hno : x ∉ fr q) :
    ∃ c h live' fr' lists', (s.caches.at k).dealloc x s.heap = some (true, c, h) ∧
      ∀ allocs : List Allocation, allocs.Sublist s.allocs → x ∉ allocs.map Allocation.ptr →
        HeapInv old live' fr' lists' ⟨s.caches.set c k,h,allocs⟩ := by
  have ho := CacheId.objectSize_ok hk
  obtain ⟨c,h,live',fr',ps,fs,hrun,hown,hc,hstep⟩ :=
    (hinv.cache k hk).dealloc_spec ho hinv.own hx hno hq
  have hpage : ∀ p ∈ ps++fs, frame k.objectSize p ∈ live' := fun p hp => (hc.page p hp).1
  refine ⟨c,h,live',fr',Function.update lists k (ps,fs),hrun,?_⟩
  intro allocs hsub hxno
  apply hinv.set_cache hown hc _ hstep.mem hk
    (hinv.placed.dealloc hk hq hstep hpage hsub hxno)
  intro k' hkk hk' p hpm
  apply hstep.stays.2.2.2
  rintro rfl
  exact hkk (hinv.placed.distinct k' k p hk' hk hpm hq)

theorem frames {h : SlubHeap σ} (hown : Owns h.alloc h.mem live')
    (hmem : ∀ k, k.2 < cachesMax → ∀ p ∈ (lists k).1++(lists k).2,
      Memory.AgreeOn (Footprint p (fr p)) s.heap.mem h.mem)
    (hp : SlotsPlaced old live' fr (fun k => (lists k).1++(lists k).2) allocs) :
    HeapInv old live' fr lists ⟨s.caches,h,allocs⟩ := by
  refine ⟨hown,?_,hp⟩
  intro k hk
  exact (hinv.cache k hk).agree (fun p hpm => (hp.page k hk p hpm).1) (fun _ _ => rfl) (hmem k hk)

theorem agree_pages (hk : k.2 < cachesMax)
    (hpm : p ∈ (lists k).1++(lists k).2) (hf : frame k.objectSize p ∈ live')
    (ha : Memory.AgreeOn (Covered live') s.heap.mem m') :
    Memory.AgreeOn (Footprint p (fr p)) s.heap.mem m' := by
  apply ha.mono
  intro a hfoot
  have hslots := ((hinv.cache k hk).page p hpm).2.slots
  exact ⟨_,hf,footprint_mem_frame (CacheId.objectSize_ok hk).facts hslots hfoot⟩

theorem alloc_large {layout : Layout} (hfits : layout.Fits)
    (hlarge : slubMaxOrder ≤ layoutOrder layout) :
    ∃ r alloc m live', FrameAllocator.allocFrame s.heap.alloc s.heap.mem
        (1 <<< layoutOrder layout) = (r, alloc, m) ∧ (∀ x, r = some x → x ≠ 0) ∧
      HeapInv old live' fr lists ⟨s.caches,⟨alloc,m⟩,
        (r.map (Allocation.mk · layout)).toList++s.allocs⟩ := by
  obtain ⟨r,alloc,m,hrun⟩ : ∃ r alloc m, FrameAllocator.allocFrame s.heap.alloc s.heap.mem
      (1 <<< layoutOrder layout) = (r, alloc, m) := ⟨_,_,_,rfl⟩
  have hp := hinv.placed
  cases r with
  | none =>
    obtain ⟨hown,hagree⟩ := alloc_none hinv.own hrun
    refine ⟨none,alloc,m,live,hrun,by simp,hinv.frames hown ?_ hp⟩
    exact fun k hk p hpm => hinv.agree_pages hk hpm (hp.page k hk p hpm).1 hagree
  | some x =>
    obtain ⟨hnew,hown,hagree⟩ := alloc_some hinv.own hrun
    rw [hfits.blockSize_eq layout hlarge] at hnew hown
    have hmem : Block.mk x (2^layoutOrder layout) ∈ insert _ live := Set.mem_insert _ live
    have hx : x ∈ Block.mk x (2^layoutOrder layout) := start_mem_frame hown hmem
    have hother : ∀ f ∈ live, x ∉ f := by
      intro f hf hxf
      have heq := frame_unique hown (Set.mem_insert_of_mem _ hf) hmem hxf hx
      exact hnew (heq ▸ hf)
    have hpages : ∀ k, k.2 < cachesMax → x ∉ (lists k).1++(lists k).2 := by
      intro k hk hxk
      have hl := (hp.page k hk x hxk).1
      exact hother _ hl (start_mem_frame hinv.own hl)
    refine ⟨some x,alloc,m,_,hrun,?_,hinv.frames hown ?_ ?_⟩
    · rintro _ ⟨rfl⟩
      exact Nat.pos_iff_ne_zero.mp (shape hown _ hmem).nonnull
    · exact fun k hk p hpm => hinv.agree_pages hk hpm (hp.page k hk p hpm).1 hagree
    · refine ⟨fun f hf => Set.mem_insert_of_mem _ (hp.kept f hf),?_,hp.distinct,?_,?_,?_⟩
      · intro k hk p hpm
        obtain ⟨hl,ho⟩ := hp.page k hk p hpm
        exact ⟨Set.mem_insert_of_mem _ hl,ho⟩
      · intro a ha hsmall
        rcases mem_cons.mp ha with rfl | ha
        · exact absurd hlarge (Nat.not_le.mpr hsmall)
        · exact hp.small a ha hsmall
      · intro a ha hlarge'
        rcases mem_cons.mp ha with rfl | ha
        · exact ⟨hmem,fun ho => hnew (hp.kept _ ho),hpages⟩
        · obtain ⟨hl,ho,hno⟩ := hp.large a ha hlarge'
          exact ⟨Set.mem_insert_of_mem _ hl,ho,hno⟩
      · refine nodup_cons.mpr ⟨?_,hp.nodup⟩
        intro hxa
        obtain ⟨a,ha,hax⟩ := mem_map.mp hxa
        have hax : a.ptr = x := hax
        obtain ⟨f,hf,_,hin⟩ := hp.frame_of ha
        exact hother f hf (hax ▸ hin _ a.ptr_mem_slot)

end

/-- One attempt, on the hart's caches or on the shared ones. -/
theorem alloc_side {layout : Layout} (b : Bool) (hinv : HeapInv old live fr lists s)
    (hfits : layout.Fits) : ∃ r scs h live' fr' lists',
      (s.caches.side b).alloc layout s.heap = some (r.getD 0, scs, h) ∧
      (∀ x, r = some x → x ≠ 0) ∧ HeapInv old live' fr' lists' ⟨s.caches.withSide scs b,h,
        (r.map (Allocation.mk · layout)).toList++s.allocs⟩ := by
  have hmin := (le_two_pow_layoutOrder layout).2.2
  rcases Nat.lt_or_ge (layoutOrder layout) slubMaxOrder with hsmall | hlarge
  · have hk : layoutOrder layout-slubMinOrder < cachesMax := by
      simp only [cachesMax]
      omega
    obtain ⟨r,c,h,live',fr',lists',hrun,hne,hinv'⟩ :=
      hinv.alloc_cache (k := (b,layoutOrder layout-slubMinOrder)) hk
    refine ⟨r,_,h,live',fr',lists',?_,hne,hinv' layout (Nat.sub_add_cancel hmin).symm⟩
    have hrun' : ((s.caches.side b) (layoutOrder layout-slubMinOrder)).alloc s.heap =
        some (r, c, h) := hrun
    simp [SlowCaches.alloc,Nat.not_le.mpr hsmall,hrun']
  · obtain ⟨r,alloc,m,live',hrun,hne,hinv'⟩ := hinv.alloc_large hfits hlarge
    refine ⟨r,s.caches.side b,⟨alloc,m⟩,live',fr,lists,?_,hne,?_⟩
    · simp [SlowCaches.alloc,hlarge,hrun]
    · rw [Caches.withSide_side]
      exact hinv'

variable (hinv : HeapInv old live fr lists s)
include hinv

theorem alloc_spec {layout : Layout} (hfits : layout.Fits) :
    ∃ ptr cs h live' fr' lists', s.caches.alloc layout s.heap = some (ptr, cs, h) ∧
      HeapInv old live' fr' lists' ⟨cs,h,
        if ptr = 0 then s.allocs else ⟨ptr,layout⟩ :: s.allocs⟩ := by
  obtain ⟨r,scs,h,live',fr',lists',hrun,hne,hinv'⟩ := hinv.alloc_side true hfits
  have hcpu : s.caches.cpuCaches.alloc layout s.heap = some (r.getD 0, scs, h) := hrun
  cases r with
  | some x =>
    have hx := hne x rfl
    refine ⟨x,s.caches.withSide scs true,h,live',fr',lists',?_,?_⟩
    · simp [Caches.alloc,hcpu,hx,Caches.withSide]
    · rw [if_neg hx]
      exact hinv'
  | none =>
    obtain ⟨r,scs',h',live',fr',lists',hrun',hne',hinv''⟩ := hinv'.alloc_side false hfits
    have hslow : s.caches.slowCaches.alloc layout h = some (r.getD 0, scs', h') := hrun'
    refine ⟨r.getD 0,⟨scs,scs'⟩,h',live',fr',lists',?_,?_⟩
    · simp [Caches.alloc,hcpu,hslow]
    · cases r with
      | none => exact hinv''
      | some x =>
        rw [Option.getD_some,if_neg (hne' x rfl)]
        exact hinv''

theorem dealloc_large {a : Allocation} (ha : a ∈ s.allocs) (hlarge : slubMaxOrder ≤ a.order)
    (hsub : allocs.Sublist s.allocs) (hno : a.ptr ∉ allocs.map Allocation.ptr) :
    ∃ alloc m live', FrameAllocator.deallocFrame s.heap.alloc s.heap.mem a.ptr
        (1 <<< layoutOrder a.layout) = (alloc, m) ∧
      HeapInv old live' fr lists ⟨s.caches,⟨alloc,m⟩,allocs⟩ := by
  have hp := hinv.placed
  obtain ⟨hl,ho,hpages⟩ := hp.large a ha hlarge
  obtain ⟨alloc,m,hrun⟩ : ∃ alloc m, FrameAllocator.deallocFrame s.heap.alloc s.heap.mem a.ptr
      (1 <<< layoutOrder a.layout) = (alloc, m) := ⟨_,_,rfl⟩
  have hrun' := hrun
  rw [Nat.one_shiftLeft] at hrun'
  obtain ⟨hown,hagree⟩ := LawfulFrameAllocator.dealloc hinv.own hl hrun'
  have hpage : ∀ k, k.2 < cachesMax → ∀ p ∈ (lists k).1++(lists k).2,
      frame k.objectSize p ∈ live \ {⟨a.ptr,2^a.order⟩} := by
    intro k hk p hpm
    refine ⟨(hp.page k hk p hpm).1,?_⟩
    intro heq
    have hpa : p = a.ptr := (mk.inj heq).1
    exact hpages k hk (hpa ▸ hpm)
  refine ⟨alloc,m,_,hrun,hinv.frames hown ?_ ?_⟩
  · exact fun k hk p hpm => hinv.agree_pages hk hpm (hpage k hk p hpm) hagree
  · refine ⟨?_,?_,hp.distinct,?_,?_,hp.nodup.sublist (hsub.map _)⟩
    · intro f hf
      refine ⟨hp.kept f hf,?_⟩
      rintro rfl
      exact ho hf
    · exact fun k hk p hpm => ⟨hpage k hk p hpm,(hp.page k hk p hpm).2⟩
    · exact fun a' ha' => hp.small a' (hsub.subset ha')
    · intro a' ha' hlarge'
      obtain ⟨hl',ho',hpages'⟩ := hp.large a' (hsub.subset ha') hlarge'
      refine ⟨⟨hl',?_⟩,ho',hpages'⟩
      intro heq
      have hpa : a'.ptr = a.ptr := (mk.inj heq).1
      exact hno (hpa ▸ mem_map_of_mem ha')

theorem dealloc_spec {a : Allocation} (ha : a ∈ s.allocs) (hsub : allocs.Sublist s.allocs)
    (hno : a.ptr ∉ allocs.map Allocation.ptr) :
    ∃ cs h live' fr' lists', s.caches.dealloc a.ptr a.layout s.heap = some (cs, h) ∧
      HeapInv old live' fr' lists' ⟨cs,h,allocs⟩ := by
  rcases Nat.lt_or_ge a.order slubMaxOrder with hsmall | hlarge
  · have hk := Allocation.index_lt hsmall
    have hnot : ¬ slubMaxOrder ≤ layoutOrder a.layout := Nat.not_le.mpr hsmall
    obtain ⟨b,p,hmem,hslot,hfree⟩ := hinv.placed.small a ha hsmall
    rw [← a.objectSize_eq b] at hslot
    obtain ⟨c,h,live',fr',lists',hrun,hinv'⟩ :=
      hinv.dealloc_cache hk hmem hslot hfree
    cases b with
    | true =>
      have hcpu : (s.caches.cpuCaches (layoutOrder a.layout-slubMinOrder)).dealloc a.ptr s.heap =
          some (true, c, h) := hrun
      refine ⟨_,h,live',fr',lists',?_,hinv' allocs hsub hno⟩
      simp [Caches.dealloc,SlowCaches.dealloc,hnot,hcpu]
      rfl
    | false =>
      have hs := (CacheId.objectSize_ok (k := (false,a.order-slubMinOrder)) hk).facts
      have hl := (hinv.placed.page _ hk p hmem).1
      have habsent := (hinv.cache (true,a.order-slubMinOrder) hk).dealloc_absent (by
        intro q hq hin
        have hlq := (hinv.placed.page (true,a.order-slubMinOrder) hk q hq).1
        have heq := frame_unique hinv.own hlq hl hin (slot_mem_frame hs hslot)
        have hqp : q = p := (mk.inj heq).1
        have hkk := hinv.placed.distinct (true,a.order-slubMinOrder) (false,a.order-slubMinOrder)
          p hk hk (hqp ▸ hq) hmem
        simp at hkk)
      have hcpu : (s.caches.cpuCaches (layoutOrder a.layout-slubMinOrder)).dealloc a.ptr s.heap =
          some (false, s.caches.cpuCaches (layoutOrder a.layout-slubMinOrder), s.heap) := habsent
      have hslow : (s.caches.slowCaches (layoutOrder a.layout-slubMinOrder)).dealloc a.ptr s.heap =
          some (true, c, h) := hrun
      refine ⟨_,h,live',fr',lists',?_,hinv' allocs hsub hno⟩
      simp [Caches.dealloc,SlowCaches.dealloc,hnot,hcpu,hslow]
      rfl
  · obtain ⟨alloc,m,live',hrun,hinv'⟩ := hinv.dealloc_large ha hlarge hsub hno
    have hlarge' : slubMaxOrder ≤ layoutOrder a.layout := hlarge
    refine ⟨s.caches,⟨alloc,m⟩,live',fr,lists,?_,hinv'⟩
    simp [Caches.dealloc,SlowCaches.dealloc,hlarge',hrun]

theorem not_footprint {a : Allocation} (ha : a ∈ s.allocs)
    (hk : k.2 < cachesMax) (hpm : p ∈ (lists k).1++(lists k).2) (hx : x ∈ a.slot) :
    ¬ Footprint p (fr p) x := by
  intro hfoot
  have hs := (CacheId.objectSize_ok hk).facts
  obtain ⟨hl,hok⟩ := (hinv.cache k hk).page p hpm
  have hxp := footprint_mem_frame hs hok.slots hfoot
  rcases hinv.placed.home ha with ⟨k',hk',hsize,q,hmem,hslot,hno⟩ | ⟨hla,_,hno⟩
  · have hlq := (hinv.placed.page k' hk' q hmem).1
    have hs' := (CacheId.objectSize_ok hk').facts
    rw [hsize] at hlq hs'
    have heq := frame_unique hinv.own hlq hl (slot_subset_frame hs' hslot hx) hxp
    have hqp : q = p := (mk.inj heq).1
    subst hqp
    have hkk := hinv.placed.distinct k' k q hk' hk hmem hpm
    subst hkk
    rw [hsize] at hok
    exact hok.not_footprint hs' hslot hno hx hfoot
  · have heq := frame_unique hinv.own hla hl hx hxp
    have hap : a.ptr = p := (mk.inj heq).1
    exact hno k hk (hap ▸ hpm)

theorem store_spec {a : Allocation} (ha : a ∈ s.allocs) (hx : x ∈ a.slot) (v : UInt8) :
    HeapInv old live fr lists
      { s with heap := { s.heap with mem := Function.update s.heap.mem x v } } := by
  refine hinv.frames ?_ ?_ hinv.placed
  · apply store hinv.own
    intro y hy
    apply update_of_ne
    rintro rfl
    obtain ⟨f,hf,_,hin⟩ := hinv.placed.frame_of ha
    exact hy ⟨f,hf,hin y hx⟩
  · intro k hk p hpm y hfoot
    apply update_of_ne
    rintro rfl
    exact hinv.not_footprint ha hk hpm hx hfoot

theorem not_page_frame {a b : Allocation} (hk : k.2 < cachesMax) (hsize : k.objectSize = 2^a.order)
    (hpm : p ∈ (lists k).1++(lists k).2) (hslot : a.ptr ∈ slotsOf (2^a.order) p)
    (hl : b.slot ∈ live) (hno : ∀ k, k.2 < cachesMax → b.ptr ∉ (lists k).1++(lists k).2)
    (hxa : x ∈ a.slot) : x ∉ b.slot := by
  intro hxb
  have hlp := (hinv.placed.page k hk p hpm).1
  have hs := (CacheId.objectSize_ok hk).facts
  rw [hsize] at hlp hs
  have heq := frame_unique hinv.own hl hlp hxb (slot_subset_frame hs hslot hxa)
  have hbp : b.ptr = p := (mk.inj heq).1
  exact hno k hk (hbp ▸ hpm)

theorem slots_apart {a b : Allocation} (ha : a ∈ s.allocs)
    (hb : b ∈ s.allocs) (hne : a.ptr ≠ b.ptr) : a.slot.Apart b.slot := by
  apply apart_of_no_common (Nat.two_pow_pos _) (Nat.two_pow_pos _)
  intro x hxa hxb
  rcases hinv.placed.home ha with ⟨k,hk,hsize,p,hmem,hslot,_⟩ | ⟨hla,_,hnoa⟩ <;>
    rcases hinv.placed.home hb with ⟨k',hk',hsize',q,hmem',hslot',_⟩ | ⟨hlb,_,hnob⟩
  · have hlp := (hinv.placed.page k hk p hmem).1
    have hlq := (hinv.placed.page k' hk' q hmem').1
    have hs := (CacheId.objectSize_ok hk).facts
    have hs' := (CacheId.objectSize_ok hk').facts
    rw [hsize] at hlp hs
    rw [hsize'] at hlq hs'
    have heq := frame_unique hinv.own hlp hlq (slot_subset_frame hs hslot hxa)
      (slot_subset_frame hs' hslot' hxb)
    have hpq : p = q := (mk.inj heq).1
    subst hpq
    have hkk := hinv.placed.distinct k k' p hk hk' hmem hmem'
    subst hkk
    have horder : 2^a.order = 2^b.order := hsize.symm.trans hsize'
    rw [← horder] at hslot'
    have hap := SlubPage.slots_apart hslot hslot' hne
    rw [Allocation.slot,← horder] at hxb
    exact hap.not_mem hxa hxb
  · exact hinv.not_page_frame hk hsize hmem hslot hlb hnob hxa hxb
  · exact hinv.not_page_frame hk' hsize' hmem' hslot' hla hnoa hxb hxa
  · have heq := frame_unique hinv.own hla hlb hxa hxb
    exact hne (mk.inj heq).1

end HeapInv

end Athera
