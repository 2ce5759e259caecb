import Athera.Mm.SlubPage

/-!
# One cache of slub pages

`fr` tells the free slots of every page and `live` the frames that are outstanding.
-/

namespace Athera

open Framework SlubPage LawfulFrameAllocator List Function Block

variable {σ : Type} [LawfulFrameAllocator σ] {h : SlubHeap σ} {live : Set Frame}
  {fr : Nat → List Nat} {m m' : Memory} {o p q x : Nat} {xs ps fs : List Nat} {c : Cache}

structure CacheOk (m : Memory) (live : Set Frame) (fr : Nat → List Nat) (o : Nat) (c : Cache)
    (ps fs : List Nat) : Prop where
  size : c.objectsSize = o
  partials : Chain nextField m c.partialSlubs.head ps
  fulls : Chain nextField m c.fullSlubs.head fs
  nodup : (ps ++ fs).Nodup
  page : ∀ p ∈ ps ++ fs, frame o p ∈ live ∧ PageOk m o p (fr p)
  partialFree : ∀ p ∈ ps, fr p ≠ []
  fullFree : ∀ p ∈ fs, fr p = []

section

variable {a : Nat}

section

variable (hs : SizeFacts o)
include hs

theorem header_mem_frame (ha : a ∈ mk p headerSize) : a ∈ frame o p := by
  have hroom := hs.room
  have hhead := hs.header
  simp only [mem_iff] at ha ⊢
  omega

theorem footprint_mem_frame (hx : ∀ x ∈ xs, x ∈ slotsOf o p)
    (ha : Footprint p xs a) : a ∈ frame o p := by
  have hlarge := hs.large
  rcases ha with ha | ⟨x,hmem,ha⟩
  · exact header_mem_frame hs ha
  · have hb := slot_bounds hs (hx x hmem)
    simp only [mem_iff,Memory.wordSize] at ha ⊢
    omega

theorem SlubPage.PageOk.not_footprint (hok : PageOk m o p xs)
    (hx : x ∈ slotsOf o p) (hno : x ∉ xs) (ha : a ∈ Block.mk x o) : ¬ Footprint p xs a := by
  intro hfoot
  have hb := slot_bounds hs hx
  have hlarge := hs.large
  simp only [mem_iff] at ha
  rcases hfoot with hhead | ⟨y,hy,hay⟩
  · simp only [mem_iff] at hhead
    omega
  · have hxy : x ≠ y := fun he => hno (he ▸ hy)
    have hap := SlubPage.slots_apart hx (hok.slots y hy) hxy
    simp only [mem_iff,Memory.wordSize,Apart,stop] at hay hap
    omega

theorem nodesApart_of_frames (h : (frame o p).Apart (frame o q)) : NodesApart p q := by
  have hroom := hs.room
  have hhead := hs.header
  have hsize : headerSize = 48 := rfl
  simp only [NodesApart,Apart,stop,Memory.wordSize] at h ⊢
  omega

theorem SlubPage.PageOk.other (hp : PageOk m o p xs) {f : Frame}
    (hap : (frame o p).Apart f) (hout : ∀ a, a ∉ f → m' a = m a) :
    PageOk m' o p xs ∧ field m' p nextField = field m p nextField := by
  have hin : ∀ a ∈ frame o p, m' a = m a := fun a ha => hout a (hap.not_mem ha)
  refine ⟨hp.agree fun a ha => hin a (footprint_mem_frame hs hp.slots ha),?_⟩
  apply Memory.readWord_congr
  intro a ha
  apply hin
  apply footprint_mem_frame hs hp.slots
  left
  simp only [mem_iff,Memory.wordSize,nextField,headerSize] at ha ⊢
  omega

end

end

namespace CacheOk

variable (hc : CacheOk m live fr o c ps fs) {live' : Set Frame}

include hc

theorem agree {fr' : Nat → List Nat}
    (hlive : ∀ p ∈ ps++fs, frame o p ∈ live') (hfr : ∀ p ∈ ps++fs, fr' p = fr p)
    (ha : ∀ p ∈ ps++fs, Memory.AgreeOn (Footprint p (fr p)) m m') :
    CacheOk m' live' fr' o c ps fs := by
  have hnext : ∀ p ∈ ps++fs, m'.readWord (p+nextField) = m.readWord (p+nextField) := by
    intro p hp
    apply Memory.readWord_congr
    intro a hmem
    apply ha p hp
    left
    simp only [mem_iff,Memory.wordSize,nextField,headerSize] at hmem ⊢
    omega
  refine ⟨hc.size,?_,?_,hc.nodup,?_,?_,?_⟩
  · exact hc.partials.congr fun p hp => hnext p (mem_append_left _ hp)
  · exact hc.fulls.congr fun p hp => hnext p (mem_append_right _ hp)
  · intro p hp
    rw [hfr p hp]
    exact ⟨hlive p hp,(hc.page p hp).2.agree (ha p hp)⟩
  · intro p hp
    rw [hfr p (mem_append_left _ hp)]
    exact hc.partialFree p hp
  · intro p hp
    rw [hfr p (mem_append_right _ hp)]
    exact hc.fullFree p hp

theorem other {a : σ} {mem : Memory} (hown : Owns a mem live) (hs : SizeFacts o)
    (hq : frame o q ∈ live) (hout : ∀ a, a ∉ frame o q → m' a = m a) (hp : p ∈ ps++fs)
    (hne : p ≠ q) : (frame o p ∈ live ∧ PageOk m' o p (fr p)) ∧
      m'.readWord (p+nextField) = m.readWord (p+nextField) := by
  obtain ⟨hlive,hok⟩ := hc.page p hp
  have hap : (frame o p).Apart (frame o q) := by
    apply apart hown hlive hq
    intro he
    exact hne (mk.inj he).1
  obtain ⟨hok',hnext⟩ := hok.other hs hap hout
  exact ⟨⟨hlive,hok'⟩,hnext⟩

theorem nodesApart {a : σ} {mem : Memory} (hown : Owns a mem live) (hs : SizeFacts o)
    (hp : p ∈ ps++fs) (hq : q ∈ ps++fs) (hne : p ≠ q) : NodesApart p q := by
  apply nodesApart_of_frames hs
  apply apart hown (hc.page p hp).1 (hc.page q hq).1
  intro he
  exact hne (mk.inj he).1

/-- The cache after the page `q` was put into a list, with other free slots. -/
theorem changed {c' : Cache} {ps' fs' ys : List Nat} (hsize : c'.objectsSize = c.objectsSize)
    (hpartials : Chain nextField m' c'.partialSlubs.head ps')
    (hfulls : Chain nextField m' c'.fullSlubs.head fs') (hnodup : (ps' ++ fs').Nodup)
    (hq : frame o q ∈ live' ∧ PageOk m' o q ys)
    (hother : ∀ p ∈ ps' ++ fs', p ≠ q → frame o p ∈ live' ∧ PageOk m' o p (fr p))
    (hps : ∀ p ∈ ps', p ≠ q → p ∈ ps) (hfs : ∀ p ∈ fs', p ≠ q → p ∈ fs)
    (hpart : q ∈ ps' → ys ≠ []) (hfull : q ∈ fs' → ys = []) :
    CacheOk m' live' (update fr q ys) o c' ps' fs' := by
  refine ⟨hsize.trans hc.size,hpartials,hfulls,hnodup,?_,?_,?_⟩
  · intro p hp
    rw [update_apply]
    split
    next heq => exact heq ▸ hq
    next hne => exact hother p hp hne
  · intro p hp
    rw [update_apply]
    split
    next heq => exact hpart (heq ▸ hp)
    next hne => exact hc.partialFree p (hps p hp hne)
  · intro p hp
    rw [update_apply]
    split
    next heq => exact hfull (heq ▸ hp)
    next hne => exact hc.fullFree p (hfs p hp hne)

end CacheOk

/-- What an allocation does to the frames, the pages and the free slots of a cache. -/
structure AllocStep (o : Nat) (live live' : Set Frame) (fr fr' : Nat → List Nat)
    (pages pages' : List Nat) (m m' : Memory) (r : Option Nat) : Prop where
  keep : ∀ f ∈ live, f ∈ live'
  kept : ∀ p ∈ pages, p ∈ pages'
  frames : ∀ f ∈ live', f ∈ live ∨ ∃ p ∈ pages', f = frame o p
  fresh : ∀ p ∈ pages', p ∈ pages ∨ frame o p ∉ live ∧ (fr' p).length < slotCount o
  other : ∀ p, p ∉ pages' → fr' p = fr p
  less : ∀ p ∈ pages, ∀ x ∈ fr' p, x ∈ fr p
  taken : ∀ p ∈ pages', ∀ x ∈ slotsOf o p, x ∉ fr' p → p ∈ pages ∧ x ∉ fr p ∨ r = some x
  result : ∀ x, r = some x → ∃ p ∈ pages', x ∈ slotsOf o p ∧ x ∉ fr' p ∧ (p ∈ pages → x ∈ fr p)
  mem : ∀ f ∈ live, f.start ∉ pages → ∀ a ∈ f, m' a = m a

/-- The slot `x` is taken from the page `q`, which is new if it is not one of the pages. -/
theorem AllocStep.of_page {pages pages' : List Nat} (hslot : x ∈ slotsOf o q)
    (hx : x ∉ xs) (hlive : ∀ f, f ∈ live' ↔ f = frame o q ∨ f ∈ live)
    (hpages : ∀ p, p ∈ pages' ↔ p = q ∨ p ∈ pages) (hold : q ∈ pages → fr q = x::xs)
    (hnew : q ∉ pages → frame o q ∉ live ∧ xs.length < slotCount o ∧ ∀ y ∈ slotsOf o q, y ∈ x::xs)
    (hmem : ∀ f ∈ live, f ≠ frame o q → ∀ a ∈ f, m' a = m a) :
    AllocStep o live live' fr (update fr q xs) pages pages' m m' (some x) := by
  have hq : q ∈ pages' := (hpages q).mpr (.inl rfl)
  refine ⟨fun f hf => (hlive f).mpr (.inr hf),fun p hp => (hpages p).mpr (.inr hp),?_,?_,?_,?_,?_,
    ?_,?_⟩
  · exact fun f hf => ((hlive f).mp hf).symm.imp id fun he => ⟨q,hq,he⟩
  · intro p hp
    by_cases hin : p ∈ pages
    · exact .inl hin
    · obtain rfl := ((hpages p).mp hp).resolve_right hin
      rw [update_self]
      exact .inr ⟨(hnew hin).1,(hnew hin).2.1⟩
  · intro p hp
    apply update_of_ne
    rintro rfl
    exact hp hq
  · intro p hp y hy
    by_cases hpq : p = q
    · subst hpq
      rw [update_self] at hy
      rw [hold hp]
      exact mem_cons_of_mem _ hy
    · rwa [update_of_ne hpq] at hy
  · intro p hp y hyslot hy
    by_cases hpq : p = q
    · subst hpq
      rw [update_self] at hy
      by_cases hyx : y = x
      · exact .inr (congrArg some hyx.symm)
      · have hno : y ∉ x::xs := by simp [hyx,hy]
        by_cases hin : p ∈ pages
        · exact .inl ⟨hin,(hold hin).symm ▸ hno⟩
        · exact absurd ((hnew hin).2.2 y hyslot) hno
    · rw [update_of_ne hpq] at hy
      exact .inl ⟨((hpages p).mp hp).resolve_left hpq,hy⟩
  · rintro _ ⟨rfl⟩
    refine ⟨q,hq,hslot,by rwa [update_self],fun hin => ?_⟩
    rw [hold hin]
    exact mem_cons_self
  · intro f hf hno
    apply hmem f hf
    rintro rfl
    exact (hnew hno).1 hf

variable (ho : ObjectSize o) (hown : Owns h.alloc h.mem live)
include ho hown

theorem CacheOk.alloc_partial (hc : CacheOk h.mem live fr o c (q::ps) fs) :
    ∃ x xs c' m' ps' fs', c.alloc h = some (some x, c', { h with mem := m' }) ∧
      Owns h.alloc m' live ∧ CacheOk m' live (Function.update fr q xs) o c' ps' fs' ∧
      AllocStep o live live fr (Function.update fr q xs) (q::ps++fs) (ps' ++ fs') h.mem m'
        (some x) := by
  have hs := ho.facts
  have hq : q ∈ q::ps++fs := by simp
  obtain ⟨hlive,hok⟩ := hc.page q hq
  obtain ⟨x,xs,hfr⟩ := exists_cons_of_ne_nil (hc.partialFree q (by simp))
  rw [hfr] at hok
  have hslot := hok.slots x mem_cons_self
  have hx : x ∉ xs := (nodup_cons.mp hok.nodup).1
  obtain ⟨m1,hrun,hok1,hfull,hnext,hout⟩ := allocObj_spec hs hok
  have hhead := hc.partials.head_eq
  have h0 : q ≠ 0 := hc.partials.2.1
  have hframe : ∀ a, a ∉ frame o q → a ∉ Block.mk q headerSize :=
    fun a ha hmem => ha (header_mem_frame hs hmem)
  have hout1 : ∀ a, a ∉ frame o q → m1 a = h.mem a := fun a ha => hout a (hframe a ha)
  have hnd := hc.nodup
  rw [cons_append,nodup_cons] at hnd
  have hne : ∀ p ∈ ps++fs, p ≠ q := fun p hp he => hnd.1 (he ▸ hp)
  have hlink : ∀ {m' : Memory}, (∀ a, a ∉ frame o q → m' a = h.mem a) → ∀ p ∈ ps++fs,
      m'.readWord (p+nextField) = h.mem.readWord (p+nextField) := fun hout p hp =>
    (hc.other hown hs hlive hout (mem_cons_of_mem _ hp) (hne p hp)).2
  have hstep : ∀ {m' : Memory} {pages'}, (∀ a, a ∉ frame o q → m' a = h.mem a) →
      (∀ p, p ∈ pages' ↔ p ∈ q::ps++fs) → AllocStep o live live fr (update fr q xs) (q::ps++fs)
        pages' h.mem m' (some x) := by
    intro m' pages' hout hpages
    refine .of_page hslot hx (fun f => ⟨.inr,fun hf => hf.elim (· ▸ hlive) id⟩) (fun p => ?_)
      (fun _ => hfr) (absurd hq) fun f hf hne a ha => hout a ((apart hown hf hlive hne).not_mem ha)
    rw [hpages]
    exact ⟨.inr,fun hp => hp.elim (· ▸ hq) id⟩
  have hempty : c.partialSlubs.isEmpty = false := by
    rw [SlubPageList.isEmpty,hhead]
    simpa using h0
  by_cases hxs : xs = []
  · subst hxs
    have hout2 : ∀ a, a ∉ frame o q → setField m1 q nextField c.fullSlubs.head a = h.mem a := by
      intro a ha
      rw [setField_outside (by decide) (hframe a ha)]
      exact hout1 a ha
    have hfulls : Chain nextField m1 c.fullSlubs.head fs :=
      hc.fulls.congr fun p hp => hlink hout1 p (mem_append_right _ hp)
    have hpages : ∀ p, p ∈ ps++q::fs ↔ p ∈ q::ps++fs := fun _ => perm_middle.mem_iff
    refine ⟨x,[],⟨c.objectsSize,⟨field m1 q nextField⟩,⟨q⟩⟩,
      setField m1 q nextField c.fullSlubs.head,ps,q::fs,?_,?_,?_,hstep hout2 hpages⟩
    · simp [Cache.alloc,hempty,hhead,hrun,hfull,SlubPageList.pop,SlubPageList.push]
    · exact store hown fun a ha => hout2 a fun hmem => ha ⟨_,hlive,hmem⟩
    · refine hc.changed rfl ?_ ?_ ?_ ⟨hlive,hok1.setNext hs _⟩
        (fun p hp hpq => (hc.other hown hs hlive hout2 ((hpages p).mp hp) hpq).1)
        (fun p hp _ => mem_cons_of_mem _ hp) (fun p hp hpq => (mem_cons.mp hp).resolve_left hpq)
        (fun hq => absurd rfl (hne q (mem_append_left _ hq))) fun _ => rfl
      · rw [hnext]
        exact hc.partials.tail.congr fun p hp => hlink hout2 p (mem_append_left _ hp)
      · apply hfulls.push h0 hc.partials.2.2.1
        intro p hp
        have hmem : p ∈ ps++fs := mem_append_right _ hp
        exact hc.nodesApart hown hs hq (mem_cons_of_mem _ hmem) (Ne.symm (hne p hmem))
      · rw [nodup_middle,nodup_cons]
        exact hnd
  · refine ⟨x,xs,c,m1,q::ps,fs,?_,?_,?_,hstep hout1 fun _ => Iff.rfl⟩
    · simp [Cache.alloc,hempty,hhead,hrun,hfull,hxs]
    · exact store hown fun a ha => hout1 a fun hmem => ha ⟨_,hlive,hmem⟩
    · refine hc.changed rfl ?_ ?_ hc.nodup ⟨hlive,hok1⟩
        (fun p hp hpq => (hc.other hown hs hlive hout1 hp hpq).1) (fun p hp _ => hp)
        (fun p hp _ => hp) (fun _ => hxs) fun hq => absurd rfl (hne q (mem_append_right _ hq))
      · apply hc.partials.congr
        intro p hp
        rcases mem_cons.mp hp with rfl | hp
        · exact hnext
        · exact hlink hout1 p (mem_append_left _ hp)
      · exact hc.fulls.congr fun p hp => hlink hout1 p (mem_append_right _ hp)

theorem CacheOk.alloc_fresh (hc : CacheOk h.mem live fr o c [] fs) :
    ∃ r c' h' live' fr' ps', c.alloc h = some (r, c', h') ∧ (r = none → Refuses h o) ∧
      Owns h'.alloc h'.mem live' ∧ CacheOk h'.mem live' fr' o c' ps' fs ∧
      AllocStep o live live' fr fr' fs (ps' ++ fs) h.mem h'.mem r := by
  have hs := ho.facts
  have hhead : c.partialSlubs.head = 0 := hc.partials
  have hempty : c.partialSlubs.isEmpty = true := by
    rw [SlubPageList.isEmpty,hhead]
    rfl
  obtain ⟨r,h1,hnew,hagree,hnone,hsome⟩ := new_spec ho hown
  have hfoot : ∀ p ∈ [] ++ fs, Memory.AgreeOn (Footprint p (fr p)) h.mem h1.mem := by
    intro p hp
    obtain ⟨hlive,hok⟩ := hc.page p hp
    exact hagree.mono fun a ha => ⟨_,hlive,footprint_mem_frame hs hok.slots ha⟩
  cases r with
  | none =>
    refine ⟨none,c,h1,live,fr,[],?_,fun _ => (hnone rfl).1,(hnone rfl).2,?_,?_⟩
    · simp [Cache.alloc,hempty,hc.size,hnew]
    · exact hc.agree (fun p hp => (hc.page p hp).1) (fun _ _ => rfl) hfoot
    · exact ⟨fun _ hf => hf,fun _ hp => hp,fun _ hf => Or.inl hf,fun _ hp => Or.inl hp,
        fun _ _ => rfl,fun _ _ _ hx => hx,fun _ hp _ _ hx => Or.inl ⟨hp,hx⟩,
        fun _ hx => absurd hx (by simp),fun f hf _ a ha => hagree a ⟨f,hf,ha⟩⟩
  | some p =>
    obtain ⟨hfresh,hown1,hok⟩ := hsome p rfl
    have hlive : frame o p ∈ insert (frame o p) live := Set.mem_insert _ _
    have hshape := shape hown1 _ hlive
    have hp0 : p ≠ 0 := Nat.pos_iff_ne_zero.mp hshape.nonnull
    have hpw : p < wordRange := by
      have hb : p+pageSizeFor o ≤ physicalLimit := hshape.bounded
      simp only [physicalLimit,wordRange] at hb ⊢
      omega
    have hne : ∀ q ∈ fs, q ≠ p := by
      rintro q hq rfl
      exact hfresh (hc.page q hq).1
    have hc1 : CacheOk h1.mem (insert (frame o p) live) fr o c [] fs :=
      hc.agree (fun q hq => Set.mem_insert_of_mem _ (hc.page q hq).1) (fun _ _ => rfl) hfoot
    obtain ⟨x,xs,hxs,hxne⟩ : ∃ x xs, (slotsOf o p).reverse = x::xs ∧ xs ≠ [] := by
      have hlen : (slotsOf o p).reverse.length = slotCount o := by
        rw [length_reverse,slotsOf_length]
      have hmany := hs.many
      rcases hrev : (slotsOf o p).reverse with _ | ⟨x,_ | ⟨y,ys⟩⟩
      · simp [hrev] at hlen; omega
      · simp [hrev] at hlen; omega
      · exact ⟨x,y::ys,rfl,by simp⟩
    rw [hxs] at hok
    obtain ⟨m1,hrun,hok1,_,_,hout⟩ := allocObj_spec hs hok
    have hframe : ∀ a, a ∉ frame o p → a ∉ Block.mk p headerSize :=
      fun a ha hmem => ha (header_mem_frame hs hmem)
    have hout2 : ∀ a, a ∉ frame o p → setField m1 p nextField c.partialSlubs.head a = h1.mem a := by
      intro a ha
      rw [setField_outside (by decide) (hframe a ha)]
      exact hout a (hframe a ha)
    have hother := fun q (hq : q ∈ fs) => hc1.other hown1 hs hlive hout2 hq (hne q hq)
    refine ⟨some x,{ c with partialSlubs := ⟨p⟩ },
      { h1 with mem := setField m1 p nextField c.partialSlubs.head },insert (frame o p) live,
      Function.update fr p xs,[p],?_,fun hno => absurd hno (by simp),?_,?_,?_⟩
    · simp [Cache.alloc,hempty,hc.size,hnew,hrun,SlubPageList.push]
    · exact store hown1 fun a ha => hout2 a fun hmem => ha ⟨_,hlive,hmem⟩
    · refine hc1.changed rfl ?_ ?_ ?_ ⟨hlive,hok1.setNext hs _⟩
        (fun q hq hqp => (hother q ((mem_cons.mp hq).resolve_left hqp)).1)
        (fun q hq hqp => absurd (mem_singleton.mp hq) hqp) (fun q hq _ => hq) (fun _ => hxne)
        fun hp => absurd rfl (hne p hp)
      · have hnil : Chain nextField m1 c.partialSlubs.head [] := hhead
        exact hnil.push hp0 hpw (by simp)
      · exact hc1.fulls.congr fun q hq => (hother q hq).2
      · exact nodup_cons.mpr ⟨fun hp => hne p hp rfl,hc.nodup⟩
    · refine .of_page (hok.slots x mem_cons_self) (nodup_cons.mp hok.nodup).1
        (fun _ => Set.mem_insert_iff) (fun _ => mem_cons) (fun hp => absurd rfl (hne p hp)) ?_ ?_
      · have hlen := congrArg List.length hxs
        rw [length_reverse,slotsOf_length,length_cons] at hlen
        exact fun _ => ⟨hfresh,by omega,fun y hy => hxs ▸ mem_reverse.mpr hy⟩
      · intro f hf hne a ha
        have hap := apart hown1 (Set.mem_insert_of_mem _ hf) hlive hne
        exact (hout2 a (hap.not_mem ha)).trans (hagree a ⟨f,hf,ha⟩)

theorem CacheOk.alloc_spec (hc : CacheOk h.mem live fr o c ps fs) :
    ∃ r c' h' live' fr' ps' fs', c.alloc h = some (r, c', h') ∧ (r = none → Refuses h o) ∧
      Owns h'.alloc h'.mem live' ∧ CacheOk h'.mem live' fr' o c' ps' fs' ∧
      AllocStep o live live' fr fr' (ps++fs) (ps' ++ fs') h.mem h'.mem r := by
  cases ps with
  | nil =>
    obtain ⟨r,c',h',live',fr',ps',hstep⟩ := hc.alloc_fresh ho hown
    exact ⟨r,c',h',live',fr',ps',fs,hstep⟩
  | cons q ps =>
    obtain ⟨x,xs,c',m',ps',fs',hrun,hown',hc',hstep⟩ := hc.alloc_partial ho hown
    exact ⟨some x,c',{ h with mem := m' },live,_,ps',fs',hrun,fun hno => absurd hno (by simp),hown',
      hc',hstep⟩

end Athera
