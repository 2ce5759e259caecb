import Athera.Mm.SlubCache

/-!
# Giving an object back to a cache

A full page changes its list, a page that becomes empty goes back to the frame allocator.
-/

namespace Athera

open Framework SlubPage LawfulFrameAllocator Function Memory Block
open List hiding contains

variable {σ : Type} [LawfulFrameAllocator σ] {h : SlubHeap σ} {live : Set Frame}
  {fr : Nat → List Nat} {m m' : Memory} {o p q x : Nat} {xs ps fs : List Nat} {c : Cache}

theorem slot_mem_frame (hs : SizeFacts o) (hx : x ∈ slotsOf o q) : x ∈ frame o q := by
  have hslot := slot_bounds hs hx
  have hlarge := hs.large
  simp only [mem_iff]
  omega

theorem SlubPage.PageOk.all_free (hok : PageOk m o q xs) (hlen : xs.length = slotCount o)
    (hx : x ∈ slotsOf o q) : x ∈ xs := by
  have hsub : xs.Subperm (slotsOf o q) := subperm_of_subset hok.nodup hok.slots
  have hperm : xs.Perm (slotsOf o q) := hsub.perm_of_length_le (by rw [slotsOf_length,hlen])
  exact hperm.mem_iff.mpr hx

theorem SlubPageList.remove_spec {l : SlubPageList} (hchain : Chain nextField m l.head xs)
    (hap : xs.Pairwise NodesApart) (hq : q ∈ xs) :
    ∃ l' m', l.remove m q = some (true, l', m') ∧ Chain nextField m' l'.head (xs.erase q) ∧
      ∀ y, (∀ x ∈ xs, y ∉ Block.mk (x+nextField) Memory.wordSize) → m' y = m y := by
  cases xs with
  | nil => simp at hq
  | cons a xs =>
    have hhead := hchain.head_eq
    have ha0 : a ≠ 0 := hchain.2.1
    by_cases haq : a = q
    · subst haq
      refine ⟨⟨field m a nextField⟩,m,?_,?_,fun _ _ => rfl⟩
      · simp [SlubPageList.remove,hhead,ha0]
      · rw [erase_cons_head]
        exact hchain.tail
    · have hq0 := hchain.mem_ne_zero hq
      have hqxs : q ∈ xs := (mem_cons.mp hq).resolve_left (Ne.symm haq)
      have hlen := hchain.length_lt (nodup_of_nodesApart hap)
      have hchain' : Chain nextField m a (a::xs) := by rwa [hhead] at hchain
      obtain ⟨m',hrun,hrest,hout⟩ := hchain'.removeAfter_eq hap hq0 (Ne.symm haq) hlen
      refine ⟨l,m',?_,?_,hout⟩
      · simp [SlubPageList.remove,hhead,ha0,haq,hrun,hqxs]
      · rw [hhead,erase_cons_tail (by simpa using haq)]
        exact hrest

theorem SlubPage.PageOk.relinked {qs : List Nat} (hs : SizeFacts o) (hok : PageOk m o p xs)
    (hap : ∀ q ∈ qs, q = p ∨ (frame o p).Apart (frame o q))
    (hout : ∀ y, (∀ q ∈ qs, y ∉ Block.mk (q+nextField) Memory.wordSize) → m' y = m y) :
    PageOk m' o p xs := by
  have hsize : headerSize = 48 := rfl
  have hkeep : ∀ a ∈ frame o p, a ∉ Block.mk (p+nextField) wordSize → m' a = m a := by
    intro a ha hno
    apply hout
    intro q hq hmem
    rcases hap q hq with rfl | hap
    · exact hno hmem
    · apply hap.not_mem ha
      apply header_mem_frame hs
      simp only [mem_iff,wordSize,nextField] at hmem ⊢
      omega
  apply hok.congr
  · intro off hoff
    apply readWord_congr
    intro a ha
    simp only [pageSizeField,freeListField,inuseField,objectsField,pageStartField,
      wordSize,mem_iff] at hoff ha
    apply hkeep
    · apply header_mem_frame hs
      simp only [mem_iff]
      omega
    · simp only [mem_iff,wordSize,nextField]
      omega
  · intro y hy
    have hb := slot_bounds hs (hok.slots y hy)
    have hlarge := hs.large
    apply readWord_congr
    intro a ha
    simp only [mem_iff,wordSize] at ha
    apply hkeep
    · simp only [mem_iff]
      omega
    · simp only [mem_iff,wordSize,nextField]
      omega

variable {m1 : Memory}

namespace CacheOk

variable (hc : CacheOk m live fr o c ps fs)

include hc

theorem contains_iff (hp : p ∈ ps++fs) : contains m x p = true ↔ x ∈ frame o p := by
  have hok := (hc.page p hp).2
  simp [contains,hok.start,hok.size]

variable {a : σ}

section

variable {mem : Memory}

theorem find_eq (hown : Owns a mem live)
    (hsub : ∀ p ∈ xs, p ∈ ps++fs) (hq : q ∈ xs) (hx : x ∈ frame o q) :
    xs.find? (contains m x) = some q := by
  have hsome : (xs.find? (contains m x)).isSome := by
    rw [find?_isSome]
    exact ⟨q,hq,(hc.contains_iff (hsub q hq)).mpr hx⟩
  obtain ⟨p,hp⟩ := Option.isSome_iff_exists.mp hsome
  have hmem := hsub p (mem_of_find?_eq_some hp)
  have hxp := (hc.contains_iff hmem).mp (find?_some hp)
  rw [hp]
  by_contra hne
  have hap := apart hown (hc.page p hmem).1 (hc.page q (hsub q hq)).1
    fun he => hne (congrArg some (mk.inj he).1)
  exact hap.not_mem hxp hx

theorem find_none (hsub : ∀ p ∈ xs, p ∈ ps++fs) (hx : ∀ p ∈ xs, x ∉ frame o p) :
    xs.find? (contains m x) = none := by
  rw [find?_eq_none]
  intro p hp
  rw [hc.contains_iff (hsub p hp)]
  exact hx p hp

theorem iter_partials : c.partialSlubs.iter m = ps :=
  hc.partials.iterFrom_eq (Nat.le_of_lt (hc.partials.length_lt hc.nodup.of_append_left))

theorem iter_fulls : c.fullSlubs.iter m = fs :=
  hc.fulls.iterFrom_eq (Nat.le_of_lt (hc.fulls.length_lt hc.nodup.of_append_right))

theorem not_mem_frame (hown : Owns a mem live) {f : Frame} (hf : f ∈ live) (hstart : f.start ∉ ps++fs)
    (hx : x ∈ f) : ∀ p ∈ ps++fs, x ∉ frame o p := by
  intro p hp
  refine (apart hown hf (hc.page p hp).1 ?_).not_mem hx
  rintro rfl
  exact hstart hp

theorem frame_apart (hown : Owns a mem live) (hp : p ∈ ps++fs)
    (hq : q ∈ ps++fs) : q = p ∨ (frame o p).Apart (frame o q) := by
  by_cases hne : q = p
  · exact Or.inl hne
  · right
    apply apart hown (hc.page p hp).1 (hc.page q hq).1
    exact fun he => hne (mk.inj he).1.symm

theorem find_fulls (hown : Owns a mem live) (hq : q ∈ ps)
    (hx : x ∈ frame o q) : fs.find? (contains m x) = none := by
  apply hc.find_none fun p hp => mem_append_right _ hp
  intro p hp hmem
  rcases hc.frame_apart hown (mem_append_right ps hp) (mem_append_left fs hq) with
    rfl | hap
  · exact (nodup_append.mp hc.nodup).2.2 q hq q hp rfl
  · exact hap.not_mem hmem hx

theorem pairwise_nodesApart (hown : Owns a mem live) (hs : SizeFacts o)
    (hsub : xs.Sublist (ps++fs)) : xs.Pairwise NodesApart := by
  apply (hc.nodup.sublist hsub).imp_of_mem
  intro p q hp hq hne
  exact hc.nodesApart hown hs (hsub.subset hp) (hsub.subset hq) hne

theorem unlink {l : SlubPageList} (hown : Owns a mem live)
    (hs : SizeFacts o) (hchain : Chain nextField m1 l.head xs) (hsub : xs.Sublist (ps++fs))
    (hq : q ∈ xs) :
    ∃ l' m2, l.remove m1 q = some (true, l', m2) ∧ Chain nextField m2 l'.head (xs.erase q) ∧
      (∀ p ∈ ps++fs, p ∉ xs → m2.readWord (p+nextField) = m1.readWord (p+nextField)) ∧
      (∀ p ∈ ps++fs, ∀ ys, PageOk m1 o p ys → PageOk m2 o p ys) ∧
      ∀ a, (∀ p ∈ ps++fs, a ∉ frame o p) → m2 a = m1 a := by
  obtain ⟨l',m2,hremove,hrest,hout⟩ :=
    SlubPageList.remove_spec hchain (hc.pairwise_nodesApart hown hs hsub) hq
  refine ⟨l',m2,hremove,hrest,?_,?_,?_⟩
  · intro p hp hno
    apply readWord_congr
    intro a ha
    apply hout
    intro f hf
    have hne : p ≠ f := fun he => hno (he ▸ hf)
    exact ((hc.nodesApart hown hs hp (hsub.subset hf) hne).shift nextField).not_mem ha
  · intro p hp ys hok
    apply hok.relinked hs _ hout
    exact fun f hf => hc.frame_apart hown hp (hsub.subset hf)
  · intro a ha
    apply hout
    intro p hp hmem
    apply ha p (hsub.subset hp)
    apply header_mem_frame hs
    simp only [mem_iff,wordSize,nextField,headerSize] at hmem ⊢
    omega

end

end CacheOk

/-- What giving back the slot `x` of the page `q` does to the frames, the pages and the free slots
of a cache. -/
structure DeallocStep (o q x : Nat) (live live' : Set Frame) (fr fr' : Nat → List Nat)
    (pages pages' : List Nat) (m m' : Memory) : Prop where
  step : (∀ p, p ∈ pages' ↔ p ∈ pages) ∧ live' = live ∧ fr' = Function.update fr q (x :: fr q) ∧
      (x :: fr q).length < slotCount o ∨
    (∀ p, p ∈ pages' ↔ p ∈ pages ∧ p ≠ q) ∧ live' = live \ {frame o q} ∧ fr' = fr ∧
      ∀ y ∈ slotsOf o q, y ≠ x → y ∈ fr q
  mem : ∀ f ∈ live, f.start ∉ pages → ∀ a ∈ f, m' a = m a

theorem CacheOk.dealloc_absent (hc : CacheOk h.mem live fr o c ps fs)
    (hx : ∀ p ∈ ps++fs, x ∉ frame o p) : c.dealloc x h = some (false, c, h) := by
  rw [Cache.dealloc,hc.iter_fulls,hc.iter_partials,
    hc.find_none (fun p hp => mem_append_right _ hp)
      (fun p hp => hx p (mem_append_right _ hp)),
    hc.find_none (fun p hp => mem_append_left _ hp)
      (fun p hp => hx p (mem_append_left _ hp))]

/-- The memory after the slot `x` of the page `q` was put into its free list. -/
structure Freed (live : Set Frame) (fr : Nat → List Nat) (o q x : Nat) (ps fs : List Nat)
    (m m' : Memory) : Prop where
  run : deallocObj m q x = some m'
  page : PageOk m' o q (x :: fr q)
  empty : isEmpty m' q = true ↔ (x :: fr q).length = slotCount o
  next : ∀ p ∈ ps ++ fs, m'.readWord (p + nextField) = m.readWord (p + nextField)
  other : ∀ p ∈ ps ++ fs, p ≠ q → PageOk m' o p (fr p)
  outside : ∀ a, a ∉ frame o q → m' a = m a

variable (ho : ObjectSize o) (hown : Owns h.alloc h.mem live)
  (hc : CacheOk h.mem live fr o c ps fs) (hx : x ∈ slotsOf o q)

include ho hown hc hx

theorem CacheOk.freed (hno : x ∉ fr q) (hq : q ∈ ps++fs) : ∃ m', Freed live fr o q x ps fs h.mem m' := by
  have hs := ho.facts
  obtain ⟨hlive,hok⟩ := hc.page q hq
  have hfits : q+pageSizeFor o < wordRange := by
    have hb : q+pageSizeFor o ≤ physicalLimit := (shape hown _ hlive).bounded
    simp only [physicalLimit,wordRange] at hb ⊢
    omega
  obtain ⟨m',hrun,hpage,hempty,hnext,hout⟩ := deallocObj_spec hs hfits hok hx hno
  have hslot := slot_bounds hs hx
  have hlarge := hs.large
  have hframe : ∀ a, a ∉ frame o q → m' a = h.mem a := by
    intro a ha
    apply hout a fun hmem => ha (header_mem_frame hs hmem)
    intro hmem
    apply ha
    simp only [mem_iff,wordSize] at hmem ⊢
    omega
  refine ⟨m',hrun,hpage,hempty,?_,?_,hframe⟩
  · intro p hp
    by_cases hpq : p = q
    · subst hpq
      exact hnext
    · exact (hc.other hown hs hlive hframe hp hpq).2
  · intro p hp hpq
    exact (hc.other hown hs hlive hframe hp hpq).1.2

theorem CacheOk.dealloc_full (hno : x ∉ fr q) (hq : q ∈ fs) :
    ∃ c' m' fr' ps' fs', c.dealloc x h = some (true, c', { h with mem := m' }) ∧
      Owns h.alloc m' live ∧ CacheOk m' live fr' o c' ps' fs' ∧
      DeallocStep o q x live live fr fr' (ps++fs) (ps' ++ fs') h.mem m' := by
  have hs := ho.facts
  have hqm : q ∈ ps++fs := mem_append_right _ hq
  have hnd := nodup_append.mp hc.nodup
  have hnps : ∀ p ∈ ps, p ∉ fs := fun p hp hf => hnd.2.2 p hp p hf rfl
  obtain ⟨m1,hfreed⟩ := hc.freed ho hown hx hno hqm
  have hfulls1 : Chain nextField m1 c.fullSlubs.head fs :=
    hc.fulls.congr fun p hp => hfreed.next p (mem_append_right _ hp)
  obtain ⟨l',m2,hremove,hfulls2,hnext2,hok2,hout2⟩ :=
    hc.unlink hown hs hfulls1 (sublist_append_right ps fs) hq
  have hpartials2 : Chain nextField m2 c.partialSlubs.head ps := by
    apply hc.partials.congr
    intro p hp
    have hpm : p ∈ ps++fs := mem_append_left _ hp
    exact (hnext2 p hpm (hnps p hp)).trans (hfreed.next p hpm)
  have hpages : ∀ p, p ∈ q::ps++fs.erase q ↔ p ∈ ps++fs := by
    intro p
    have hperm : (q::ps++fs.erase q).Perm (ps++fs) :=
      perm_middle.symm.trans (Perm.append_left ps (perm_cons_erase hq).symm)
    exact hperm.mem_iff
  have hne : ∀ p ∈ ps++fs.erase q, p ≠ q := by
    rintro p hp rfl
    rcases mem_append.mp hp with hp | hp
    · exact hnps p hp hq
    · exact hnd.2.1.not_mem_erase hp
  have hapart : ∀ p ∈ ps++fs.erase q, NodesApart q p := fun p hp =>
    hc.nodesApart hown hs hqm ((hpages p).mp (mem_cons_of_mem _ hp)) (Ne.symm (hne p hp))
  have hout3 : ∀ a, (∀ p ∈ ps++fs, a ∉ frame o p) →
      setField m2 q nextField c.partialSlubs.head a = h.mem a := by
    intro a ha
    rw [setField_outside (by decide) fun hmem => ha q hqm (header_mem_frame hs hmem),
      hout2 a ha,hfreed.outside a (ha q hqm)]
  have hok3 : ∀ p ∈ ps++fs, ∀ ys, PageOk m1 o p ys →
      PageOk (setField m2 q nextField c.partialSlubs.head) o p ys := by
    intro p hp ys hok
    apply (hok2 p hp ys hok).relinked hs (fun f hf => ?_)
      fun a ha => writeWord_outside _ _ _ (ha q (mem_singleton_self q))
    rw [mem_singleton.mp hf]
    exact hc.frame_apart hown hp hqm
  refine ⟨⟨c.objectsSize,⟨q⟩,l'⟩,setField m2 q nextField c.partialSlubs.head,
    Function.update fr q (x::fr q),q::ps,fs.erase q,?_,?_,?_,?_⟩
  · rw [Cache.dealloc,hc.iter_fulls,hc.find_eq hown (fun p hp => mem_append_right _ hp) hq
      (slot_mem_frame hs hx)]
    simp [hfreed.run,hremove,SlubPageList.push]
  · exact store hown fun a ha => hout3 a fun p hp hmem => ha ⟨_,(hc.page p hp).1,hmem⟩
  · refine hc.changed rfl ?_ ?_ ?_ ⟨(hc.page q hqm).1,hok3 q hqm _ hfreed.page⟩ ?_
      (fun p hp hpq => (mem_cons.mp hp).resolve_left hpq) (fun p hp _ => mem_of_mem_erase hp)
      (fun _ => by simp) fun hq' => absurd rfl (hne q (mem_append_right _ hq'))
    · exact hpartials2.push (hc.fulls.mem_ne_zero hq) (hc.fulls.mem_lt hq)
        fun p hp => hapart p (mem_append_left _ hp)
    · exact hfulls2.write_apart _ fun p hp => hapart p (mem_append_right _ hp)
    · exact nodup_cons.mpr ⟨fun hq' => hne q hq' rfl,
        hc.nodup.sublist (Sublist.append_left erase_sublist ps)⟩
    · intro p hp hpq
      have hpm := (hpages p).mp hp
      exact ⟨(hc.page p hpm).1,hok3 p hpm _ (hfreed.other p hpm hpq)⟩
  · have hmany := hs.many
    refine ⟨Or.inl ⟨hpages,rfl,rfl,by rw [hc.fullFree q hq]; exact hmany⟩,?_⟩
    exact fun f hf hstart a ha => hout3 a (hc.not_mem_frame hown hf hstart ha)

theorem CacheOk.dealloc_keep (hq : q ∈ ps)
    (hfreed : Freed live fr o q x ps fs h.mem m1) (hempty : isEmpty m1 q = false) :
    c.dealloc x h = some (true, c, { h with mem := m1 }) ∧ Owns h.alloc m1 live ∧
      CacheOk m1 live (Function.update fr q (x::fr q)) o c ps fs ∧
      DeallocStep o q x live live fr (Function.update fr q (x::fr q)) (ps++fs) (ps++fs)
        h.mem m1 := by
  have hs := ho.facts
  have hxq := slot_mem_frame hs hx
  have hqm : q ∈ ps++fs := mem_append_left _ hq
  have hlive := (hc.page q hqm).1
  have hnd := nodup_append.mp hc.nodup
  have hqf : ∀ p ∈ fs, p ≠ q := fun p hp he => hnd.2.2 q hq p hp he.symm
  have hlen : (x::fr q).length < slotCount o := by
    have hsum := hfreed.page.inuse
    have hne : (x::fr q).length ≠ slotCount o := fun he => by simp [hfreed.empty.mpr he] at hempty
    omega
  refine ⟨?_,?_,?_,Or.inl ⟨fun _ => Iff.rfl,rfl,rfl,hlen⟩,?_⟩
  · rw [Cache.dealloc,hc.iter_fulls,hc.find_fulls hown hq hxq,hc.iter_partials]
    simp [hc.find_eq hown (fun p hp => mem_append_left _ hp) hq hxq,hfreed.run,hempty]
  · exact store hown fun a ha => hfreed.outside a fun hmem => ha ⟨_,hlive,hmem⟩
  · refine hc.changed rfl ?_ ?_ hc.nodup ⟨hlive,hfreed.page⟩
      (fun p hp hpq => ⟨(hc.page p hp).1,hfreed.other p hp hpq⟩) (fun p hp _ => hp)
      (fun p hp _ => hp) (fun _ => by simp) fun hq' => absurd rfl (hqf q hq')
    · exact hc.partials.congr fun p hp => hfreed.next p (mem_append_left _ hp)
    · exact hc.fulls.congr fun p hp => hfreed.next p (mem_append_right _ hp)
  · exact fun f hf hstart a ha => hfreed.outside a (hc.not_mem_frame hown hf hstart ha q hqm)

theorem CacheOk.dealloc_release (hq : q ∈ ps)
    (hfreed : Freed live fr o q x ps fs h.mem m1) (hempty : isEmpty m1 q = true) :
    ∃ c' h', c.dealloc x h = some (true, c', h') ∧ Owns h'.alloc h'.mem (live \ {frame o q}) ∧
      CacheOk h'.mem (live \ {frame o q}) fr o c' (ps.erase q) fs ∧
      DeallocStep o q x live (live \ {frame o q}) fr fr (ps++fs) (ps.erase q++fs)
        h.mem h'.mem := by
  have hs := ho.facts
  have hxq := slot_mem_frame hs hx
  have hqm : q ∈ ps++fs := mem_append_left _ hq
  have hlive := (hc.page q hqm).1
  have hnd := nodup_append.mp hc.nodup
  have hpartials1 : Chain nextField m1 c.partialSlubs.head ps :=
    hc.partials.congr fun p hp => hfreed.next p (mem_append_left _ hp)
  obtain ⟨l',m2,hremove,hpartials2,hnext2,hok2,hout2⟩ :=
    hc.unlink hown hs hpartials1 (sublist_append_left ps fs) hq
  have hsize : field m2 q pageSizeField = pageSizeFor o := (hok2 q hqm _ hfreed.page).size
  have hfulls2 : Chain nextField m2 c.fullSlubs.head fs := by
    apply hc.fulls.congr
    intro p hp
    have hpm : p ∈ ps++fs := mem_append_right _ hp
    exact (hnext2 p hpm fun hps => hnd.2.2 p hps p hp rfl).trans (hfreed.next p hpm)
  have hown2 : Owns h.alloc m2 live := by
    apply store hown
    intro a ha
    have hno : ∀ p ∈ ps++fs, a ∉ frame o p := fun p hp hmem => ha ⟨_,(hc.page p hp).1,hmem⟩
    rw [hout2 a hno,hfreed.outside a (hno q hqm)]
  obtain ⟨alloc,m3,hgive⟩ : ∃ alloc m3,
      FrameAllocator.deallocFrame h.alloc m2 q (pageSizeFor o) = (alloc, m3) := ⟨_,_,rfl⟩
  obtain ⟨hown3,hagree⟩ := LawfulFrameAllocator.dealloc hown2 hlive hgive
  have hpages : ∀ p, p ∈ ps.erase q++fs ↔ p ∈ ps++fs ∧ p ≠ q := by
    intro p
    rw [← erase_append_left fs hq,hc.nodup.mem_erase_iff]
    exact And.comm
  have hkept : ∀ p ∈ ps.erase q++fs, frame o p ∈ live \ {frame o q} := by
    intro p hp
    obtain ⟨hpm,hne⟩ := (hpages p).mp hp
    exact ⟨(hc.page p hpm).1,fun he => hne (mk.inj he).1⟩
  have hc2 : CacheOk m2 live fr o { c with partialSlubs := l' } (ps.erase q) fs := by
    refine ⟨hc.size,hpartials2,hfulls2,?_,?_,?_,hc.fullFree⟩
    · exact hc.nodup.sublist (Sublist.append_right erase_sublist fs)
    · intro p hp
      obtain ⟨hpm,hne⟩ := (hpages p).mp hp
      exact ⟨(hc.page p hpm).1,hok2 p hpm _ (hfreed.other p hpm hne)⟩
    · exact fun p hp => hc.partialFree p (mem_of_mem_erase hp)
  refine ⟨{ c with partialSlubs := l' },⟨alloc,m3⟩,?_,hown3,?_,?_,?_⟩
  · rw [Cache.dealloc,hc.iter_fulls,hc.find_fulls hown hq hxq,hc.iter_partials]
    simp [hc.find_eq hown (fun p hp => mem_append_left _ hp) hq hxq,hfreed.run,hempty,
      hremove,hsize,hgive]
  · apply hc2.agree hkept fun _ _ => rfl
    intro p hp
    apply hagree.mono
    intro a ha
    exact ⟨_,hkept p hp,footprint_mem_frame hs (hc2.page p hp).2.slots ha⟩
  · refine Or.inr ⟨hpages,rfl,rfl,?_⟩
    intro y hy hne
    have hmem := hfreed.page.all_free (hfreed.empty.mp hempty) hy
    exact (mem_cons.mp hmem).resolve_left hne
  · intro f hf hstart a ha
    have hno := hc.not_mem_frame hown hf hstart ha
    have hcov : Covered (live \ {frame o q}) a := ⟨f,⟨hf,by rintro rfl; exact hstart hqm⟩,ha⟩
    exact (hagree a hcov).trans ((hout2 a hno).trans (hfreed.outside a (hno q hqm)))

theorem CacheOk.dealloc_spec (hno : x ∉ fr q) (hq : q ∈ ps++fs) :
    ∃ c' h' live' fr' ps' fs', c.dealloc x h = some (true, c', h') ∧
      Owns h'.alloc h'.mem live' ∧ CacheOk h'.mem live' fr' o c' ps' fs' ∧
      DeallocStep o q x live live' fr fr' (ps++fs) (ps' ++ fs') h.mem h'.mem := by
  rcases mem_append.mp hq with hps | hfs
  · obtain ⟨m1,hfreed⟩ := hc.freed ho hown hx hno hq
    cases hempty : isEmpty m1 q with
    | false =>
      exact ⟨c,{ h with mem := m1 },live,_,ps,fs,hc.dealloc_keep ho hown hx hps hfreed hempty⟩
    | true =>
      obtain ⟨c',h',hstep⟩ := hc.dealloc_release ho hown hx hps hfreed hempty
      exact ⟨c',h',_,fr,_,fs,hstep⟩
  · obtain ⟨c',m',fr',ps',fs',hstep⟩ := hc.dealloc_full ho hown hx hno hfs
    exact ⟨c',{ h with mem := m' },live,fr',ps',fs',hstep⟩

end Athera
