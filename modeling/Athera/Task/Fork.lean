import Athera.Mm.BuddyFrames
import Athera.Task.ForkCopy

/-!
# The memory of a forked child

A page the parent has mapped is mapped again by `repoint`, so nothing of the aliased table is left.
-/

namespace Athera

open Framework Action AddressSpace List Option UserMapping ForkState

section

variable {pairs : List (Frame × Frame)} {fs gs : List Frame}

/-- Where an address of the first frames is found in the second ones. -/
def relocate (pairs : List (Frame × Frame)) (p : Nat) : Nat :=
  (pairs.find? fun fg => decide (p ∈ fg.1)).elim p fun fg => fg.2.start + (p - fg.1.start)

theorem relocate_of_mem (hap : ∀ x ∈ pairs, ∀ y ∈ pairs, x ≠ y → x.1.Apart y.1) {f g : Frame}
    (hfg : (f, g) ∈ pairs) {p : Nat} (hp : p ∈ f) : relocate pairs p = g.start+(p-f.start) := by
  rw [relocate]
  cases hfind : pairs.find? fun fg => decide (p ∈ fg.1) with
  | none =>
    have hno := find?_eq_none.mp hfind _ hfg
    exact absurd (decide_eq_true hp) hno
  | some fg =>
    have hin : p ∈ fg.1 := by simpa using find?_some hfind
    have heq : fg = (f, g) := by
      by_contra hne
      exact (hap fg (mem_of_find?_eq_some hfind) _ hfg hne).not_mem hin hp
    rw [heq]
    rfl

theorem framePages_relocate (hap : ∀ x ∈ pairs, ∀ y ∈ pairs, x ≠ y → x.1.Apart y.1)
    (hlen : gs.length = fs.length) (hsub : ∀ fg ∈ fs.zip gs, fg ∈ pairs)
    (hsize : ∀ fg ∈ pairs, fg.2.size = fg.1.size) (base : Nat) : framePages base gs =
      (framePages base fs).map fun page => (page.1, relocate pairs page.2) := by
  induction fs generalizing gs base with
  | nil =>
    rw [length_eq_zero_iff.mp hlen]
    rfl
  | cons f fs ih =>
    obtain ⟨g,gs,rfl⟩ := exists_cons_of_length_eq_add_one hlen
    have hfg : (f, g) ∈ pairs := hsub _ mem_cons_self
    have hsz : g.size = f.size := hsize _ hfg
    rw [framePages,framePages,map_append,List.map_map,hsz,
      ih (Nat.succ.inj hlen) (fun fg h => hsub fg (mem_cons_of_mem _ h))]
    congr 1
    apply map_congr_left
    intro step hstep
    obtain ⟨i,rfl,hlt⟩ := mem_stepBy.mp hstep
    have hin : f.start+(0+i*pageSize) ∈ f := by
      simp only [Block.mem_iff]
      omega
    simp only [Function.comp_apply,relocate_of_mem hap hfg hin,Nat.add_sub_cancel_left]

theorem mem_of_mem_framePages {base : Nat} {page : Nat × Nat} (h : page ∈ framePages base fs) :
    ∃ f ∈ fs, ∃ i, page.2 = f.start+i*pageSize ∧ i*pageSize < f.size := by
  induction fs generalizing base with
  | nil => simp [framePages] at h
  | cons f fs ih =>
    rw [framePages,mem_append] at h
    rcases h with h | h
    · obtain ⟨step,hstep,rfl⟩ := List.mem_map.mp h
      obtain ⟨i,rfl,hlt⟩ := mem_stepBy.mp hstep
      exact ⟨f,mem_cons_self,i,by simp,by omega⟩
    · obtain ⟨f',hf',hi⟩ := ih h
      exact ⟨f',mem_cons_of_mem _ hf',hi⟩

end

section

variable {w : Nat → Option PageTableEntry} {pages : List (Nat × Nat × PageFlags)} {va : Nat}

theorem foldl_overlay_of_not_mem (h : ∀ page ∈ pages, vpn page.1 ≠ vpn va) :
    pages.foldl overlay w va = w va := by
  induction pages generalizing w with
  | nil => rfl
  | cons page pages ih =>
    rw [foldl_cons,ih fun q hq => h q (mem_cons_of_mem _ hq),overlay,if_neg (h page mem_cons_self)]

theorem foldl_overlay_of_mem {e : PageTableEntry}
    (hall : ∀ page ∈ pages, vpn page.1 = vpn va → ⟨true,page.2.2,ppn page.2.1⟩ = e)
    (hmem : ∃ page ∈ pages, vpn page.1 = vpn va) : pages.foldl overlay w va = some e := by
  induction pages generalizing w with
  | nil =>
    obtain ⟨page,hpage,_⟩ := hmem
    exact absurd hpage not_mem_nil
  | cons page pages ih =>
    rw [foldl_cons]
    by_cases hrest : ∃ q ∈ pages, vpn q.1 = vpn va
    · exact ih (fun q hq => hall q (mem_cons_of_mem _ hq)) hrest
    · have hno : ∀ q ∈ pages, vpn q.1 ≠ vpn va := fun q hq he => hrest ⟨q,hq,he⟩
      have hpage : vpn page.1 = vpn va := by
        obtain ⟨q,hq,he⟩ := hmem
        rcases mem_cons.mp hq with rfl | hq
        · exact he
        · exact absurd he (hno q hq)
      rw [foldl_overlay_of_not_mem hno,overlay,if_pos hpage,hall page mem_cons_self hpage]

end

def MemorySet.pages (ms : MemorySet) : List (Nat × Nat × PageFlags) :=
  ms.flatMap fun m => mappedPages m m.frames

/-- The leaves of the page table are the pages of the mappings. -/
def Agrees (w : Nat → Option PageTableEntry) (ms : MemorySet) : Prop :=
  ∀ va e, w va = some e ↔
    ∃ page ∈ ms.pages, vpn page.1 = vpn va ∧ e = ⟨true,page.2.2,ppn page.2.1⟩

variable {ms : MemorySet}

theorem mem_pages {page : Nat × Nat × PageFlags} (h : page ∈ ms.pages) :
    ∃ f ∈ ms.flatMap frames,
      ∃ i, page.2.1 = f.start+i*pageSize ∧ i*pageSize < f.size := by
  obtain ⟨m,hm,hpage⟩ := mem_flatMap.mp h
  rw [mappedPages] at hpage
  split at hpage
  · obtain ⟨q,hq,rfl⟩ := List.mem_map.mp hpage
    obtain ⟨f,hf,hi⟩ := mem_of_mem_framePages hq
    exact ⟨f,mem_flatMap.mpr ⟨m,hm,hf⟩,hi⟩
  · exact absurd hpage not_mem_nil

theorem FrameShape.page {f : Frame} (h : FrameShape f) {i p : Nat} (hp : p = f.start+i*pageSize)
    (hi : i*pageSize < f.size) : ppn p*pageSize = p ∧ (pageFrame p).Within f.start f.stop := by
  obtain ⟨a,ha⟩ := h.pageShape.start
  obtain ⟨b,hb⟩ := h.pageShape.size
  have hbound := h.bounded
  simp only [ppn,physicalLimit,Block.Within,Block.stop,pageFrame,pageSize] at *
  omega

section

/-- A fork as the two tasks see it: `w` are the leaves of the parent and `w'` those of the child,
`m` and `m'` the physical memory before and after. -/
structure PrivateCopy (m m' : Memory) (ms ms' : MemorySet) (w w' : Nat → Option PageTableEntry) :
    Prop where
  mappings : ms'.map (fun x => (x.va, x.flags)) = ms.map fun x => (x.va, x.flags)
  unmapped : ∀ va, w' va = none ↔ w va = none
  mapped : ∀ va e e', w va = some e → w' va = some e' → e'.v = true ∧ e'.flags = e.flags ∧
    ∀ i < pageSize, m' (e'.addr + i) = m (e.addr + i)
  owned : ∀ va e', w' va = some e' → ∃ g ∈ ms'.flatMap frames,
    (pageFrame e'.addr).Within g.start g.stop
  apart : ∀ f ∈ ms.flatMap frames, ∀ g ∈ ms'.flatMap frames, f.Apart g
  disjoint : ∀ va va' e e', w va = some e → w' va' = some e' →
    (pageFrame e.addr).Apart (pageFrame e'.addr)

/-- The frames of the parent with those of the child that hold their copies. -/
structure FrameMoves (m m' : Memory) (ms ms' : MemorySet) (pairs : List (Frame × Frame)) :
    Prop where
  mappings : ms'.map (fun x => (x.va, x.flags)) = ms.map fun x => (x.va, x.flags)
  source : ∀ f ∈ ms.flatMap frames, ∃ g, (f, g) ∈ pairs
  target : ∀ fg ∈ pairs, fg.2 ∈ ms'.flatMap frames
  copied : ∀ fg ∈ pairs, FrameCopy m m' fg.1 fg.2
  distinct : ∀ x ∈ pairs, ∀ y ∈ pairs, x ≠ y → x.1.Apart y.1
  shape : ∀ f ∈ ms.flatMap frames, FrameShape f
  shape' : ∀ g ∈ ms'.flatMap frames, FrameShape g
  apart : ∀ f ∈ ms.flatMap frames, ∀ g ∈ ms'.flatMap frames, f.Apart g

def movePage (pairs : List (Frame × Frame)) (page : Nat × Nat × PageFlags) :
    Nat × Nat × PageFlags :=
  (page.1, relocate pairs page.2.1, page.2.2)

variable {m m' : Memory} {ms ms' : MemorySet} {pairs : List (Frame × Frame)}
  {w w₀ : Nat → Option PageTableEntry}

theorem FrameMoves.page (h : FrameMoves m m' ms ms' pairs) {page : Nat × Nat × PageFlags}
    (hpage : page ∈ ms.pages) : ∃ f g, (f, g) ∈ pairs ∧ f ∈ ms.flatMap frames ∧
      ppn page.2.1*pageSize = page.2.1 ∧ (pageFrame page.2.1).Within f.start f.stop ∧
      ppn (relocate pairs page.2.1)*pageSize = relocate pairs page.2.1 ∧
      (pageFrame (relocate pairs page.2.1)).Within g.start g.stop ∧
      ∀ i < pageSize, m' (relocate pairs page.2.1+i) = m (page.2.1+i) := by
  obtain ⟨f,hf,i,hp,hi⟩ := mem_pages hpage
  obtain ⟨g,hfg⟩ := h.source f hf
  obtain ⟨hsize,hbytes⟩ := h.copied _ hfg
  simp only at hsize hbytes
  obtain ⟨hppn,hin⟩ := (h.shape f hf).page hp hi
  have hmove : relocate pairs page.2.1 = g.start+i*pageSize := by
    rw [relocate_of_mem h.distinct hfg,hp,Nat.add_sub_cancel_left]
    rw [Block.mem_iff]
    omega
  obtain ⟨hppn',hin'⟩ := (h.shape' g (h.target _ hfg)).page hmove (hsize ▸ hi)
  refine ⟨f,g,hfg,hf,hppn,hin,hppn',hin',fun j hj => ?_⟩
  simp only [Block.Within,Block.stop,pageFrame] at hin
  rw [hmove,hp,Nat.add_assoc,Nat.add_assoc]
  exact hbytes _ (by omega)

theorem Agrees.unique (h : Agrees w ms) (hmoves : FrameMoves m m' ms ms' pairs)
    {p q : Nat × Nat × PageFlags} (hp : p ∈ ms.pages) (hq : q ∈ ms.pages)
    (hv : vpn p.1 = vpn q.1) : p.2 = q.2 := by
  have hwp := (h q.1 _).mpr ⟨p,hp,hv,rfl⟩
  have hwq := (h q.1 _).mpr ⟨q,hq,rfl,rfl⟩
  rw [hwp,some.injEq,PageTableEntry.mk.injEq] at hwq
  obtain ⟨_,hflags,hppn⟩ := hwq
  obtain ⟨_,_,_,_,hpa,_⟩ := hmoves.page hp
  obtain ⟨_,_,_,_,hqa,_⟩ := hmoves.page hq
  exact Prod.ext (by rw [← hpa,← hqa,hppn]) hflags

section

variable (h : FrameMoves m m' ms ms' pairs) (hagrees : Agrees w ms) (hnone : ∀ va, w va = none → w₀ va = none)
include h hagrees hnone

theorem FrameMoves.child_leaf (va : Nat) :
    (w va = none ∧ (ms.pages.map (movePage pairs)).foldl overlay w₀ va = none) ∨
    ∃ page ∈ ms.pages, w va = some ⟨true,page.2.2,ppn page.2.1⟩ ∧
      (ms.pages.map (movePage pairs)).foldl overlay w₀ va =
        some ⟨true,page.2.2,ppn (relocate pairs page.2.1)⟩ := by
  cases hw : w va with
  | none =>
    left
    refine ⟨rfl,?_⟩
    rw [foldl_overlay_of_not_mem,hnone va hw]
    intro q hq hv
    obtain ⟨page,hpage,rfl⟩ := List.mem_map.mp hq
    have hsome := (hagrees va _).mpr ⟨page,hpage,hv,rfl⟩
    rw [hw] at hsome
    exact absurd hsome (by simp)
  | some e =>
    right
    obtain ⟨page,hpage,hv,rfl⟩ := (hagrees va e).mp hw
    refine ⟨page,hpage,rfl,foldl_overlay_of_mem ?_ ⟨_,List.mem_map_of_mem hpage,hv⟩⟩
    intro q hq hvq
    obtain ⟨page',hpage',rfl⟩ := List.mem_map.mp hq
    have hsame := hagrees.unique h hpage' hpage (hvq.trans hv.symm)
    simp only [movePage,hsame]

theorem FrameMoves.privateCopy :
    PrivateCopy m m' ms ms' w ((ms.pages.map (movePage pairs)).foldl overlay w₀) := by
  have hleaf := h.child_leaf hagrees hnone
  refine ⟨h.mappings,?_,?_,?_,h.apart,?_⟩
  · intro va
    rcases hleaf va with ⟨hw,hw'⟩ | ⟨page,_,hw,hw'⟩ <;> simp [hw,hw']
  · intro va e e' he he'
    rcases hleaf va with ⟨hw,_⟩ | ⟨page,hpage,hw,hw'⟩
    · exact absurd (hw.symm.trans he) (by simp)
    · obtain rfl := some.inj (hw.symm.trans he)
      obtain rfl := some.inj (hw'.symm.trans he')
      obtain ⟨_,_,_,_,ha,_,ha',_,hbytes⟩ := h.page hpage
      simp only [PageTableEntry.addr,ha,ha']
      exact ⟨trivial,trivial,hbytes⟩
  · intro va e' he'
    rcases hleaf va with ⟨_,hw'⟩ | ⟨page,hpage,_,hw'⟩
    · exact absurd (hw'.symm.trans he') (by simp)
    · obtain rfl := some.inj (hw'.symm.trans he')
      obtain ⟨_,g,hfg,_,_,_,ha',hin,_⟩ := h.page hpage
      refine ⟨g,h.target _ hfg,?_⟩
      rw [PageTableEntry.addr,ha']
      exact hin
  · intro va va' e e' he he'
    rcases hleaf va with ⟨hw,_⟩ | ⟨page,hpage,hw,_⟩
    · exact absurd (hw.symm.trans he) (by simp)
    rcases hleaf va' with ⟨_,hw'⟩ | ⟨page',hpage',_,hw'⟩
    · exact absurd (hw'.symm.trans he') (by simp)
    obtain rfl := some.inj (hw.symm.trans he)
    obtain rfl := some.inj (hw'.symm.trans he')
    obtain ⟨f,_,_,hf,ha,hin,_⟩ := h.page hpage
    obtain ⟨_,g,hfg,_,_,_,ha',hin',_⟩ := h.page hpage'
    simp only [PageTableEntry.addr,ha,ha']
    have hap := (h.apart f hf g (h.target _ hfg)).mono hin.1 hin.2
    exact (hap.symm.mono hin'.1 hin'.2).symm

end

end

section

variable {σ : Type} [LawfulFrameAllocator σ] {s s' : ForkState σ}
  {new : List (UserMapping × List Frame)}

/-- The frames of the mappings, each with its copy. -/
def framePairs (new : List (UserMapping × List Frame)) : List (Frame × Frame) :=
  new.flatMap fun b => b.1.frames.zip b.2

theorem zip_eq_framePairs (hlen : ∀ b ∈ new, b.2.length = b.1.frames.length) :
    ((new.map Prod.fst).flatMap frames).zip (new.flatMap Prod.snd) =
      framePairs new := by
  induction new with
  | nil => rfl
  | cons b new ih =>
    have hb := hlen b mem_cons_self
    rw [map_cons,flatMap_cons,flatMap_cons,zip_append hb.symm,
      ih fun b hb => hlen b (mem_cons_of_mem _ hb)]
    rfl

theorem backing_pages (hlen : ∀ b ∈ new, b.2.length = b.1.frames.length)
    (hap : ∀ x ∈ framePairs new, ∀ y ∈ framePairs new, x ≠ y → x.1.Apart y.1)
    (hsize : ∀ fg ∈ framePairs new, fg.2.size = fg.1.size) :
    (new.flatMap fun b => mappedPages b.1 b.2) =
      (MemorySet.pages (new.map Prod.fst)).map (movePage (framePairs new)) := by
  rw [MemorySet.pages,flatMap_map,map_flatMap]
  apply flatMap_congr
  intro b hb
  have hsub : ∀ fg ∈ b.1.frames.zip b.2, fg ∈ framePairs new := fun fg hfg =>
    mem_flatMap.mpr ⟨b,hb,hfg⟩
  simp only [mappedPages]
  rw [framePages_relocate hap (hlen b hb) hsub hsize]
  split
  · simp only [List.map_map]
    rfl
  · rfl

theorem frameMoves_of_copied {s1 s2 s3 : ForkState σ} (hms : new.map Prod.fst = ms)
    (hlen : ∀ b ∈ new, b.2.length = b.1.frames.length)
    (hsrc : Memory.AgreeOn (InFrames (ms.flatMap frames)) s.mem s1.mem)
    (hc : CopiedFrames s1 s2 (ms.flatMap frames) (ms.flatMap frames)
      (new.flatMap Prod.snd))
    (hdst : Memory.AgreeOn (InFrames (new.flatMap Prod.snd)) s2.mem s3.mem) :
    FrameMoves s.mem s3.mem ms (new.map fun b => { b.1 with frames := b.2 }) (framePairs new) := by
  have hzip := zip_eq_framePairs hlen
  rw [hms] at hzip
  have hframes : List.flatMap frames (new.map fun b => { b.1 with frames := b.2 }) =
      new.flatMap Prod.snd := flatMap_map ..
  have hfst : (framePairs new).map Prod.fst = ms.flatMap frames := by
    rw [← hzip,map_fst_zip hc.copied.length_eq.le]
  have hnd : (ms.flatMap frames).Nodup := (nodup_append.mp hc.ok.nodup).2.1
  have hin : ∀ fg ∈ framePairs new, fg.1 ∈ ms.flatMap frames ∧
      fg.2 ∈ new.flatMap Prod.snd := by
    intro fg hfg
    rw [← hzip] at hfg
    exact ⟨(of_mem_zip hfg).1,(of_mem_zip hfg).2⟩
  refine ⟨?_,?_,?_,?_,?_,?_,?_,?_⟩
  · rw [← hms,List.map_map,List.map_map]
    rfl
  · intro f hf
    rw [← hfst] at hf
    obtain ⟨fg,hfg,rfl⟩ := List.mem_map.mp hf
    exact ⟨fg.2,hfg⟩
  · intro fg hfg
    rw [hframes]
    exact (hin fg hfg).2
  · intro fg hfg
    obtain ⟨hf,hg⟩ := hin fg hfg
    rw [← hzip] at hfg
    have hcopy : FrameCopy s1.mem s2.mem fg.1 fg.2 := (forall₂_iff_zip.mp hc.copied).2 hfg
    exact (hcopy.of_source fun a ha => hsrc a ⟨_,hf,ha⟩).congr fun a ha => hdst a ⟨_,hg,ha⟩
  · intro x hx y hy hne
    apply hc.ok.apart (mem_append_right _ (hin x hx).1) (mem_append_right _ (hin y hy).1)
    intro he
    exact hne (inj_on_of_nodup_map (hfst ▸ hnd) hx hy he)
  · exact fun f hf => hc.ok.shape f (mem_append_right _ hf)
  · intro g hg
    rw [hframes] at hg
    exact hc.ok.shape g (mem_append_left _ hg)
  · intro f hf g hg
    rw [hframes] at hg
    apply hc.ok.apart (mem_append_right _ hf) (mem_append_left _ hg)
    rintro rfl
    exact (nodup_append.mp hc.ok.nodup).2.2 f hg f hf rfl

structure Forked (s s' : ForkState σ) (owner newTid : Nat) (sp : Space) (ms ms' : MemorySet) :
    Prop where
  parent : s'.spaces.space (.managed (.user owner)) = some sp
  tables : ∀ a ∈ sp.owned, s'.spaces.mem a = s.spaces.mem a
  contents : Memory.AgreeOn (InFrames (ms.flatMap frames)) s.mem s'.mem
  child : ∃ child, s'.spaces.space (.managed (.user newTid)) = some child ∧
    PrivateCopy s.mem s'.mem ms ms' (leaves s.spaces sp) (leaves s'.spaces child)

theorem memoryClone_spec {owner newTid : Nat} {sp : Space} (hok : ForkOk s (ms.flatMap frames))
    (hsp : s.spaces.space (.managed (.user owner)) = some sp)
    (hagrees : Agrees (leaves s.spaces sp) ms) (hne : newTid ≠ owner) :
    wp (tryClone owner newTid ms)
      (fun ms' s' => Forked s s' owner newTid sp ms ms') (fun _ _ => True) s := by
  simp only [tryClone,wp_bind,wp_onError]
  apply wp_weaken (cloneSpace_spec hok owner newTid)
  intro _ s1 hcopy
  apply wp_weaken (cloneBacking_spec hcopy.ok fun f hf => hf)
  rintro new s2 ⟨_,rfl,hms,hlen,hc⟩
  obtain ⟨sp0,child,remap,hsp0,hchild,hleaves⟩ := hcopy.copy
  obtain rfl := some.inj (hsp.symm.trans hsp0)
  have hstart : Repointed s2 s2 (new.flatMap Prod.snd++ms.flatMap frames) newTid
      (fun va => (leaves s.spaces sp va).map (remapEntry remap)) := by
    refine ⟨hc.ok,Memory.AgreeOn.refl _ _,Keeps.refl _ _,child,?_,?_⟩
    · rw [hc.untouched.spaces]
      exact hchild
    · intro va
      rw [hc.untouched.spaces]
      exact hleaves va
  apply wp_mono (repoint_spec new hstart)
  · rintro _ s3 ⟨_,hmem,hkeeps,last,hlast,hw⟩
    have hmoves := frameMoves_of_copied hms hlen hcopy.mem hc
      (hmem.mono fun _ => .mono fun _ => mem_append_left _)
    have hpages := backing_pages hlen hmoves.distinct fun fg hfg => (hmoves.copied fg hfg).1
    rw [hms] at hpages
    have hkept : Keeps (.managed (.user newTid)) s.spaces s3.spaces := by
      rw [hc.untouched.spaces] at hkeeps
      exact hcopy.keeps.trans hkeeps
    have howner : Owner.managed (.user owner) ≠ .managed (.user newTid) := by
      simpa using Ne.symm hne
    obtain ⟨hparent,htables⟩ := hkept _ sp howner hsp
    refine ⟨hparent,htables,?_,last,hlast,?_⟩
    · exact (hcopy.mem.trans hc.untouched.mem).trans
        (hmem.mono fun _ => .mono fun _ => mem_append_right _)
    · rw [funext hw,hpages]
      apply hmoves.privateCopy hagrees
      intro va hva
      rw [hva]
      rfl
  · intro e s3 _
    exact giveFrames_total s3 _

def oneMapping (tid va size : Nat) (flags : PageFlags) : ForkAction σ MemorySet := do
  createSpace tid
  match ← takeFrame size with
  | none => throw .outOfMemory
  | some f => do
    repoint tid [(⟨va,[],flags⟩,[f])]
    pure [⟨va,[f],flags⟩]

theorem oneMapping_spec (h : ForkOk s []) (tid va size : Nat) (flags : PageFlags) :
    wp (oneMapping tid va size flags)
      (fun ms s' => ForkOk s' (ms.flatMap frames) ∧
        ∃ sp, s'.spaces.space (.managed (.user tid)) = some sp ∧
          leaves s'.spaces sp = ms.pages.foldl overlay fun _ => none)
      (fun _ _ => True) s := by
  rw [oneMapping,wp_bind]
  apply wp_mono (createSpace_spec h tid) _ (fun _ _ _ => trivial)
  intro _ s1 hcreated
  rw [wp_bind]
  apply wp_weaken (takeFrame_spec hcreated.ok size)
  rintro r s2 ⟨hsame,hr⟩
  cases r with
  | none => trivial
  | some f =>
    obtain ⟨sp,hsp,hw⟩ := hcreated.leaves
    have hstart : Repointed s2 s2 [f] tid fun _ => none := by
      refine ⟨hr.2,Memory.AgreeOn.refl _ _,Keeps.refl _ _,sp,?_,?_⟩
      · rw [hsame.spaces]
        exact hsp
      · rw [hsame.spaces]
        exact hw
    simp only [wp_bind]
    apply wp_weaken (repoint_spec [(⟨va,[],flags⟩,[f])] hstart)
    rintro _ s3 ⟨hok,_,_,sp',hsp',hw'⟩
    exact ⟨hok,sp',hsp',funext hw'⟩

theorem agrees_of_foldl (h : ∀ p ∈ ms.pages, ∀ q ∈ ms.pages, vpn p.1 = vpn q.1 → p.2 = q.2) :
    Agrees (ms.pages.foldl overlay fun _ => none) ms := by
  intro va e
  by_cases hmem : ∃ page ∈ ms.pages, vpn page.1 = vpn va
  · obtain ⟨page,hpage,hv⟩ := hmem
    have hleaf : ms.pages.foldl overlay (fun _ => none) va = some ⟨true,page.2.2,ppn page.2.1⟩ := by
      apply foldl_overlay_of_mem _ ⟨page,hpage,hv⟩
      intro q hq hvq
      rw [h q hq page hpage (hvq.trans hv.symm)]
    rw [hleaf,some.injEq]
    constructor
    · rintro rfl
      exact ⟨page,hpage,hv,rfl⟩
    · rintro ⟨q,hq,hvq,rfl⟩
      rw [h q hq page hpage (hvq.trans hv.symm)]
  · have hno : ∀ page ∈ ms.pages, vpn page.1 ≠ vpn va := fun page hpage hv => hmem ⟨page,hpage,hv⟩
    rw [foldl_overlay_of_not_mem hno]
    constructor
    · intro hnone
      exact absurd hnone (by simp)
    · rintro ⟨page,hpage,hv,_⟩
      exact absurd hv (hno page hpage)

/-- The child of a fork sees what its parent sees, in frames of its own, and the parent keeps its
mappings, its page table and its memory. -/
theorem fork_private_copy {owner newTid : Nat} {sp : Space} {ms ms' : MemorySet}
    (hok : ForkOk s (ms.flatMap frames))
    (hsp : s.spaces.space (.managed (.user owner)) = some sp)
    (hagrees : Agrees (leaves s.spaces sp) ms) (hne : newTid ≠ owner)
    (hrun : tryClone owner newTid ms s = .ok ms' s') :
    Forked s s' owner newTid sp ms ms' := by
  have h := wp_of_ok (memoryClone_spec hok hsp hagrees hne) hrun
  exact h

end

/-- The memory manager after it has made the page table of the kernel. -/
def bootFork (start stop : Nat) : Option (ForkState BuddyLists) :=
  ((Buddy.new fun _ => 7).add start stop).bind fun b =>
    match FrameAllocator.allocFrame (σ := BuddyLists) b.freeList b.mem pageSize with
    | (none, _) => none
    | (some root, alloc, mem) => some ⟨alloc,mem,SpaceManager.new (fun _ => .empty) root⟩

theorem bootFork_ok {start stop : Nat} {s : ForkState BuddyLists} (hstart : 2*topSize ≤ start)
    (hlt : start < wordRange) (hstop : stop ≤ physicalLimit) (hboot : bootFork start stop = some s) :
    ForkOk s [] := by
  obtain ⟨b,hb,hrest⟩ := bind_eq_some_iff.mp hboot
  have hown := buddyOwns_add hstart hlt hstop hb
  cases hr : FrameAllocator.allocFrame (σ := BuddyLists) b.freeList b.mem pageSize with
  | mk r rest =>
    rw [hr] at hrest
    cases r with
    | none => exact absurd hrest (by simp)
    | some root =>
      obtain rfl := some.inj hrest
      obtain ⟨_,hown',_⟩ := LawfulFrameAllocator.alloc_some hown hr
      refine ⟨SpaceManager.isolated_new _ root,nodup_nil,⟨_,hown',by simp,?_⟩,by simp⟩
      intro a ha
      have hroot : a = root := by
        simpa [SpaceManager.live,SpaceManager.new,Space.owned,SortedMap.empty] using ha
      rw [hroot]
      exact Set.mem_insert _ _

/-- Boot, a task with two pages at an address in the middle of a page, and its child. -/
def bootAndFork : Option (ForkState BuddyLists × MemorySet × ForkState BuddyLists × MemorySet ×
    ForkState BuddyLists) :=
  (bootFork 0x80800000 0x80820000).bind fun s =>
    match oneMapping 1 0xffffffc000000010 0x2000 readWrite s with
    | .ok ms s1 =>
      match tryClone 1 2 ms s1 with
      | .ok ms' s2 => some (s, ms, s1, ms', s2)
      | _ => none
    | _ => none

theorem fork_private_copy_pages : ∃ s ms s1 ms' s2 sp, bootAndFork = some (s, ms, s1, ms', s2) ∧
    ms = [⟨0xffffffc000000010,[⟨0x80802000,0x2000⟩],readWrite⟩] ∧
    ms' = [⟨0xffffffc000000010,[⟨0x8080a000,0x2000⟩],readWrite⟩] ∧
    Forked s1 s2 1 2 sp ms ms' := by
  have hframes : bootAndFork.map (fun r => (r.2.1, r.2.2.2.1)) =
      some ([⟨0xffffffc000000010,[⟨0x80802000,0x2000⟩],readWrite⟩],
        [⟨0xffffffc000000010,[⟨0x8080a000,0x2000⟩],readWrite⟩]) := by decide +kernel
  obtain ⟨⟨s,ms,s1,ms',s2⟩,hrun,he⟩ := map_eq_some_iff.mp hframes
  obtain ⟨hms,hms'⟩ := Prod.mk.inj he
  simp only at hms hms'
  obtain ⟨s0,hboot,hrest⟩ := bind_eq_some_iff.mp hrun
  cases hone : oneMapping 1 0xffffffc000000010 0x2000 readWrite s0 with
  | err e t => exact absurd hrest (by simp [hone])
  | panic => exact absurd hrest (by simp [hone])
  | ok ms0 t1 =>
    simp only [hone] at hrest
    cases hclone : tryClone 1 2 ms0 t1 with
    | err e t => exact absurd hrest (by simp [hclone])
    | panic => exact absurd hrest (by simp [hclone])
    | ok ms1 t2 =>
      simp only [hclone,some.injEq,Prod.mk.injEq] at hrest
      obtain ⟨rfl,rfl,rfl,rfl,rfl⟩ := hrest
      have hstart := bootFork_ok (by decide) (by decide) (by decide) hboot
      obtain ⟨hok,sp,hsp,hleaves⟩ :=
        wp_of_ok (oneMapping_spec hstart 1 0xffffffc000000010 0x2000 readWrite) hone
      have hagrees : Agrees (leaves t1.spaces sp) ms0 := by
        rw [hleaves]
        apply agrees_of_foldl
        rw [hms]
        decide
      exact ⟨s0,ms0,t1,ms1,t2,sp,hrun,hms,hms',
        fork_private_copy hok hsp hagrees (by decide) hclone⟩

end Athera
