import Athera.Mm.GapSearch
import Athera.Mm.Mapping

/-!
# mmap

The steps of `mmap` as one statement about every outcome.
-/

namespace Athera

open Framework Action List

variable {σ : Type} [LawfulFrameAllocator σ] {s s' : TaskMemory σ} {held : List Frame}
  {addr length t prot flags offset : Nat} {fd : Int}

structure Fresh (s s' : TaskMemory σ) (held : List Frame) (len : Nat) (frames : List Frame) :
    Prop where
  same : Same s s' (s.frames ++ held)
  own : Own s' (frames ++ held)
  sizes : frames.map Block.size = segmentSizes len len
  zero : ∀ a, InFrames frames a → s'.mem a = 0

theorem allocZeroed_spec {ε α : Type} {e : ε} {len : Nat}
    {k : List Frame → Action ε (TaskMemory σ) α}
    {Q : α → TaskMemory σ → Prop} {E : ε → TaskMemory σ → Prop} (h : Own s held)
    (hok : ∀ frames s', Fresh s s' held len frames → wp (k frames) Q E s')
    (herr : ∀ s', Same s s' (s.frames++held) → Own s' held → E e s') : wp (do
        let frames ← allocFrames len
        let frames ← orThrow frames e
        zeroFrames frames
        k frames) Q E s := by
  simp only [wp_bind,wp_orThrow]
  apply wp_weaken (allocFrames_spec h.custody len)
  rintro r s1 ⟨hsame,hr⟩
  refine ⟨?_,?_⟩
  · rintro frames rfl
    obtain ⟨hsizes,hc⟩ := hr
    apply wp_weaken (zeroFrames_spec hc)
    rintro _ s2 ⟨hsame2,hc2,hzero⟩
    have hall := hsame.trans hsame2
    refine hok frames s2 ⟨hall,⟨?_,?_⟩,hsizes,hzero⟩
    · rw [TaskMemory.frames,hall.mappings]
      refine hc2.perm ?_
      rw [← append_assoc,← append_assoc]
      exact perm_append_comm.append_right _
    · rw [hall.mappings]
      exact h.vas
  · rintro rfl
    exact herr s1 hsame (hsame.own h hr)

/-- The hint is a page address with a free range behind it. -/
def HintFree (ms : MemorySet) (addr len : Nat) : Prop :=
  addr ≠ 0 ∧ addr % pageSize = 0 ∧
    (checkedAdd addr len).any (fun hintEnd => rangeIsFree ms addr hintEnd) = true

instance (ms : MemorySet) (addr len : Nat) : Decidable (HintFree ms addr len) :=
  inferInstanceAs (Decidable (_ ∧ _ ∧ _))

def isFixed (flags : Nat) : Bool := flags &&& (mapFixed ||| mapFixedNoreplace) != 0
def isNoreplace (flags : Nat) : Bool := flags &&& mapFixedNoreplace != 0

def replaces (flags : Nat) : Bool := isFixed flags && !isNoreplace flags

inductive Target (ms : MemorySet) (addr len flags : Nat) : Nat → Prop where
  | fixed (h : isFixed flags = true) (ha : pageSize ∣ addr) : Target ms addr len flags addr
  | hint (h : isFixed flags = false) (hh : HintFree ms addr len) : Target ms addr len flags addr
  | gap {t : Nat} (h : isFixed flags = false) (hh : ¬ HintFree ms addr len)
    (hfind : findFreeRegion ms len = some t) : Target ms addr len flags t

omit [LawfulFrameAllocator σ] in
theorem mmapTarget_spec {len : Nat} : wp (mmapTarget addr len (isFixed flags) : MapAction σ Nat)
      (fun t s' => s' = s ∧ Target s.mappings addr len flags t) (fun _ s' => s' = s) s := by
  unfold mmapTarget
  simp only [wp_bind,wp_get,wp_ite,wp_throw,wp_pure,wp_orThrow,true_and,implies_true,and_true]
  refine ⟨?_,?_⟩
  · intro hf hmod
    exact Target.fixed hf (Nat.dvd_of_mod_eq_zero (not_not.mp hmod))
  · intro hf
    have hf : isFixed flags = false := by simpa using hf
    exact ⟨fun hh => Target.hint hf hh,fun hh t hfind => Target.gap hf hh hfind⟩

/-- A call of `mmap` that got as far as choosing the range `t` to `t + len`. -/
structure MmapCall (ms : MemorySet) (addr length prot flags : Nat) (fd : Int) (offset t : Nat) :
    Prop where
  anonymous : flags &&& mapAnonymous ≠ 0
  noFile : fd = -1 ∧ offset = 0
  bits : prot &&& (wordRange - 1 - protMask) = 0
  pos : 0 < length
  small : length + pageSize < usizeMax
  target : Target ms addr (alignUp length) flags t
  fits : t + alignUp length < wordRange
  canonical : isCanonicalUserRange t (t + alignUp length) = true
  free : isNoreplace flags = true → rangeIsFree ms t (t + alignUp length) = true

/-- The range has been cleared when the call replaces. -/
def Prepared (s s' : TaskMemory σ) (flags start stop : Nat) : Prop :=
  if replaces flags then ∃ buffers, Cut s s' [] start stop buffers else s' = s

inductive MmapFailed (s : TaskMemory σ) (addr length prot flags : Nat) (fd : Int) (offset : Nat)
    (s' : TaskMemory σ) : Prop where
  | refused (h : s' = s)
  | cut {t : Nat} (hcall : MmapCall s.mappings addr length prot flags fd offset t)
    (hr : replaces flags = true) (hown : Own s' []) (hknown : s'.known = s.known)
    (h : Same s s' s.frames ∨
      ∃ buffers, Buffers s t (t + alignUp length) buffers ∧ LacksTable s buffers)
  | memory {t : Nat} {s1 : TaskMemory σ}
    (hcall : MmapCall s.mappings addr length prot flags fd offset t)
    (hprep : Prepared s s1 flags t (t + alignUp length)) (hsame : Same s1 s' s1.frames)
    (hown : Own s' [])
  | tables {t : Nat} {s1 s2 : TaskMemory σ} {frames : List Frame}
    (hcall : MmapCall s.mappings addr length prot flags fd offset t)
    (hprep : Prepared s s1 flags t (t + alignUp length))
    (hfresh : Fresh s1 s2 [] (alignUp length) frames)
    (hfail : MapFailed s2 s' [] t frames (protToPageFlags prot))

theorem mmap_spec (h : Own s []) : wp (mmap addr length prot flags fd offset : MapAction σ Nat)
      (fun t s' => MmapCall s.mappings addr length prot flags fd offset t ∧ ∃ s1 s2 frames,
        Prepared s s1 flags t (t+alignUp length) ∧ Fresh s1 s2 [] (alignUp length) frames ∧
        Mapped s2 s' [] t frames (protToPageFlags prot))
      (fun _ s' => MmapFailed s addr length prot flags fd offset s') s := by
  have hfix : (flags &&& (mapFixed ||| mapFixedNoreplace) != 0) = isFixed flags := rfl
  have hno : (flags &&& mapFixedNoreplace != 0) = isNoreplace flags := rfl
  unfold mmap
  simp only [hno]
  refine wp_guard (.refused rfl) fun hanon => ?_
  refine wp_guard (.refused rfl) fun hfile => ?_
  refine wp_guard (.refused rfl) fun hprot => ?_
  refine wp_guard (.refused rfl) fun hlen => ?_
  rw [wp_bind,wp_get]
  refine wp_guard (.refused rfl) fun _ => ?_
  rw [wp_bind]
  apply wp_mono mmapTarget_spec
  · rintro t s0 ⟨hs0,htarget⟩
    subst s0
    rw [wp_bind,wp_orThrow]
    refine ⟨?_,fun _ => .refused rfl⟩
    intro stop hstop
    obtain ⟨rfl,hfits⟩ := checkedAdd_eq_some.mp hstop
    refine wp_guard (.refused rfl) fun hcanon => ?_
    refine wp_guard (.refused rfl) fun hfree => ?_
    have hcall : MmapCall s.mappings addr length prot flags fd offset t := by
      simp only [not_or,not_not] at hfile hlen hprot
      refine ⟨hanon,hfile,hprot,by omega,by omega,htarget,hfits,by simpa using hcanon,?_⟩
      intro hn
      rw [hn] at hfree
      simpa using hfree
    have htail : ∀ s1, Prepared s s1 flags t (t+alignUp length) → Own s1 [] → wp (do
            let frames ← allocFrames (alignUp length)
            let frames ← orThrow frames ErrorCode.eNoMem
            zeroFrames frames
            mapFrame t frames (protToPageFlags prot)
            pure t : MapAction σ Nat)
          (fun t s' => MmapCall s.mappings addr length prot flags fd offset t ∧ ∃ s1 s2 frames,
            Prepared s s1 flags t (t+alignUp length) ∧ Fresh s1 s2 [] (alignUp length) frames ∧
            Mapped s2 s' [] t frames (protToPageFlags prot))
          (fun _ s' => MmapFailed s addr length prot flags fd offset s') s1 := by
      intro s1 hprep hown
      apply allocZeroed_spec hown
      · intro frames s2 hfresh
        rw [wp_bind]
        apply wp_mono (mapFrame_mapped hfresh.own (by omega))
        · intro _ s3 hmapped
          exact ⟨hcall,s1,s2,frames,hprep,hfresh,hmapped⟩
        · intro _ s3 hfail
          exact .tables hcall hprep hfresh hfail
      · intro s2 hsame hown2
        rw [append_nil] at hsame
        exact .memory hcall hprep hsame hown2
    rw [wp_ite]
    refine ⟨?_,?_⟩
    · intro hr
      have hr : replaces flags = true := hr
      rw [wp_bind]
      apply wp_mono (unmapRange_spec h)
      · rintro _ s1 ⟨buffers,hcut⟩
        exact htail s1 (by rw [Prepared,if_pos hr]; exact ⟨buffers,hcut⟩) hcut.own
      · rintro e s1 ⟨hknown,hown,_,hfail⟩
        rw [append_nil] at hfail
        exact .cut hcall hr hown hknown hfail
    · intro hr
      have hr : ¬ replaces flags = true := hr
      exact htail s (by rw [Prepared,if_neg hr]) h
  · rintro e _ rfl
    exact .refused rfl

/-- What a successful call promises: the mapping it adds covers the range and no more, nothing
was mapped there unless the call replaces, and the pages of the range are cleared while all
others are as before. -/
structure MmapExact (s s' : TaskMemory σ) (t len prot flags : Nat) : Prop where
  added : LastRange s'.mappings t (t + len)
  unused : replaces flags = false → ∀ va, pageSize ∣ va → t ≤ va → va < t + len →
    s.view va = .absent
  view : (s.view.map t (t + len) (fun _ _ => 0) (protToPageFlags prot)).Agree s'.view

/-- The length consists of whole blocks, the cut of a replacing call leaves whole blocks, and a
search for a gap does not run into a mapping across the end of the stack. -/
def MmapExactWhen (ms : MemorySet) (addr length flags : Nat) : Prop :=
  WholeBlocks (alignUp length) ∧
  (replaces flags = true → CutBacked ms addr (addr + alignUp length)) ∧
  (isFixed flags = false → ¬ HintFree ms addr (alignUp length) → GapClear ms (alignUp length))

instance (ms : MemorySet) (addr length flags : Nat) :
    Decidable (MmapExactWhen ms addr length flags) :=
  inferInstanceAs (Decidable (_ ∧ _ ∧ _))

section

variable {ms : MemorySet} (h : MmapCall ms addr length prot flags fd offset t)

include h

theorem MmapCall.length_spec :
    pageSize ∣ alignUp length ∧ 0 < alignUp length ∧ alignUp length+pageSize ≤ wordRange := by
  have hpos := h.pos
  have hsmall := h.small
  have hbound : length+pageSize ≤ wordRange := by
    simp only [usizeMax] at hsmall ⊢
    omega
  rw [alignUp_eq hbound]
  refine ⟨Dvd.intro_left _ rfl,?_,?_⟩ <;>
    simp only [usizeMax,pageSize,wordRange] at hsmall ⊢ <;> omega

theorem MmapCall.aligned (ht : Tiled ms) : pageSize ∣ t := by
  cases h.target with
  | fixed _ ha => exact ha
  | hint _ hh => exact Nat.dvd_of_mod_eq_zero hh.2.1
  | gap _ _ hfind => exact (findFreeRegion_spec ht h.length_spec.1 hfind).1

theorem MmapCall.eq_of_replaces (hr : replaces flags = true) : t = addr := by
  cases h.target with
  | fixed _ _ => rfl
  | hint hf _ => simp [replaces,hf] at hr
  | gap hf _ _ => simp [replaces,hf] at hr

/-- Without replacing, the chosen range is free, as far as the search sees all mappings. -/
theorem MmapCall.isFree (ht : Tiled ms) (hr : replaces flags = false)
    (hgap : isFixed flags = false → ¬ HintFree ms addr (alignUp length) →
      GapClear ms (alignUp length)) : rangeIsFree ms t (t+alignUp length) = true := by
  cases htarget : h.target with
  | fixed hf _ =>
    apply h.free
    rw [replaces,hf] at hr
    simpa using hr
  | hint _ hh =>
    obtain ⟨_,_,hany⟩ := hh
    have hadd : checkedAdd addr (alignUp length) = some (addr+alignUp length) :=
      checkedAdd_eq_some.mpr ⟨rfl,h.fits⟩
    rw [hadd] at hany
    simpa using hany
  | gap hf hh hfind =>
    exact (rangeIsFree_findFreeRegion_iff ht h.length_spec.2.1 h.length_spec.1 hfind).mpr
      (hgap hf hh)

end

theorem Prepared.cutListed {s1 : TaskMemory σ}
    (hprep : Prepared s s1 flags t (t+alignUp length)) (hw : WellFormed s [])
    (hcall : MmapCall s.mappings addr length prot flags fd offset t)
    (hcut : replaces flags = true → CutBacked s.mappings addr (addr+alignUp length))
    (hgap : isFixed flags = false → ¬ HintFree s.mappings addr (alignUp length) →
      GapClear s.mappings (alignUp length)) :
    WellFormed s1 [] ∧ CutListed s s1 t (t+alignUp length) := by
  obtain ⟨hdvd,hpos,_⟩ := hcall.length_spec
  have hal := hcall.aligned hw.tiled
  unfold Prepared at hprep
  cases hr : replaces flags with
  | true =>
    rw [if_pos hr] at hprep
    obtain ⟨buffers,hc⟩ := hprep
    obtain rfl := hcall.eq_of_replaces hr
    have hb := hcut hr
    exact ⟨hc.wellFormed hw hal (by omega) hb,
      (hc.listed_iff hw hal (by omega)).mpr ⟨hb,fun _ _ _ => Nat.dvd_add hal hdvd⟩⟩
  | false =>
    rw [if_neg (by simp [hr])] at hprep
    subst s1
    exact ⟨hw,fun va _ => hw.tiled.listed_of_free (hcall.isFree hw.tiled hr hgap),
      fun _ _ _ _ => rfl⟩

theorem Fresh.page_zero {s1 s2 : TaskMemory σ} {len off p : Nat} {frames : List Frame}
    (h : Fresh s1 s2 held len frames) (hoff : pageSize ∣ off)
    (hp : physAtOffset frames off = some p) : pageAt s2.mem p = fun _ => 0 := by
  have hshape : ∀ f ∈ frames, PageShape f := fun f hf =>
    (h.own.custody.shape f (mem_append_right _ (mem_append_left _ hf))).pageShape
  funext i
  exact h.zero _ (inFrames_page hshape hoff hp i.1 i.2)

theorem Fresh.place {s1 s2 : TaskMemory σ} {frames : List Frame} {f : PageFlags}
    (h : Fresh s1 s2 [] (alignUp length) frames) (hw : WellFormed s [])
    (hcall : MmapCall s.mappings addr length prot flags fd offset t)
    (hprep : Prepared s s1 flags t (t+alignUp length))
    (hwhen : MmapExactWhen s.mappings addr length flags) :
    WellFormed s2 (frames ++ []) ∧ totalSize frames = alignUp length ∧
      t+totalSize frames < wordRange ∧ (UserMapping.mk t frames f).InHalf ∧
      ∀ va, pageSize ∣ va → t ≤ va → va < t+totalSize frames → s2.listed va = [] := by
  obtain ⟨hwhole,hcut,hgap⟩ := hwhen
  obtain ⟨_,_,hbound⟩ := hcall.length_spec
  have hal := hcall.aligned hw.tiled
  obtain ⟨hw1,hlisted⟩ := hprep.cutListed hw hcall hcut hgap
  have hsize : totalSize frames = alignUp length := by
    rw [totalSize_of_segments h.sizes]
    exact (backing_eq_iff (by simp only [pageSize] at hbound; omega)).mpr hwhole
  have hlt := hcall.fits
  have hcanon := hcall.canonical
  rw [← hsize] at hlt hcanon
  refine ⟨h.same.wellFormed hw1 h.own,hsize,hlt,inHalf_of_canonical hal hlt hcanon,?_⟩
  intro va hva hlo hhi
  rw [h.same.toKept.listed hw1.own hva]
  exact hlisted.inside va hva hlo (hsize ▸ hhi)

variable {s1 s2 : TaskMemory σ} {frames : List Frame}
  (hw : WellFormed s []) (hcall : MmapCall s.mappings addr length prot flags fd offset t)
  (hprep : Prepared s s1 flags t (t + alignUp length))
  (hfresh : Fresh s1 s2 [] (alignUp length) frames)
  (hmapped : Mapped s2 s' [] t frames (protToPageFlags prot))

include hw hcall hprep hfresh hmapped

theorem mmap_exact_of (hwhen : MmapExactWhen s.mappings addr length flags) :
    WellFormed s' [] ∧ MmapExact s s' t (alignUp length) prot flags := by
  have hpos := hcall.length_spec.2.1
  have hal := hcall.aligned hw.tiled
  obtain ⟨hw1,hlisted⟩ := hprep.cutListed hw hcall hwhen.2.1 hwhen.2.2
  obtain ⟨hw2,hsize,hlt,hhalf,hnil⟩ := hfresh.place hw hcall hprep hwhen
  have hsame : ∀ va, pageSize ∣ va → s2.listed va = s1.listed va := fun va hva =>
    hfresh.same.toKept.listed hw1.own hva
  have hw' : WellFormed s' [] := hmapped.wellFormed hw2 hhalf (by omega)
    (clear_of_listed hw2 hal (by omega) hnil)
  refine ⟨hw',?_,?_,?_⟩
  · exact hsize ▸ hmapped.lastRange hal hlt
  · intro hr va hva hlo hhi
    have hprep' : s1 = s := by
      unfold Prepared at hprep
      rwa [if_neg (by simp [hr])] at hprep
    apply hw.view_absent hva (by omega)
    rw [← hprep']
    exact hlisted.inside va hva hlo hhi
  · intro va hva hvalt
    have hl := hmapped.listed_free hfresh.own hal hlt hnil hva
    rw [hsize] at hl
    rw [MemoryView.map]
    by_cases hin : t ≤ va ∧ va < t+alignUp length
    · have hoff : va-t < totalSize frames := by omega
      obtain ⟨p,hp⟩ := physAtOffset_isSome hoff
      rw [if_pos hin,hp,Option.map_some,hfresh.page_zero (Nat.dvd_sub hva hal) hp] at hl
      rw [if_pos hin,TaskMemory.view,hw'.leaf_eq hva hvalt,hl]
      rfl
    · rw [if_neg hin,hsame va hva,hlisted.outside va hva hvalt (by omega)] at hl
      rw [if_neg hin]
      exact hw.view_eq hw' hva hvalt hl

theorem mmap_exact_when (hex : MmapExact s s' t (alignUp length) prot flags) :
    MmapExactWhen s.mappings addr length flags := by
  obtain ⟨hdvd,hpos,hbound⟩ := hcall.length_spec
  have hal := hcall.aligned hw.tiled
  have hfits := hcall.fits
  have hle := le_backing (n := alignUp length) (by omega)
  rw [← totalSize_of_segments hfresh.sizes] at hle
  have hsize := hmapped.size_of_lastRange hal hfits hle hex.added
  have hview : ∀ va, pageSize ∣ va → va < wordRange → s'.listed va =
      ((s.view.map t (t+alignUp length) (fun _ _ => 0) (protToPageFlags prot)) va).listed :=
    fun va hva hvalt => congrArg PageView.listed (hex.view va hva hvalt)
  refine ⟨?_,?_,?_⟩
  · apply (backing_eq_iff (by simp only [pageSize] at hbound; omega)).mp
    rw [← totalSize_of_segments hfresh.sizes,hsize]
  · intro hr
    unfold Prepared at hprep
    rw [if_pos hr] at hprep
    obtain ⟨buffers,hc⟩ := hprep
    obtain rfl := hcall.eq_of_replaces hr
    have hlist : ∀ va, pageSize ∣ va → s'.listed va = s1.listed va ++
        if t ≤ va ∧ va < t+alignUp length then
          [((physAtOffset frames (va-t)).map (pageAt s2.mem), protToPageFlags prot)]
        else [] := by
      intro va hva
      rw [hmapped.listed_range hfresh.own hal (hsize ▸ hfits) hva,hsize,
        hfresh.same.toKept.listed hc.own hva]
    have hl : CutListed s s1 t (t+alignUp length) := by
      refine ⟨?_,?_⟩
      · intro va hva hlo hhi
        have hv := hview va hva (by omega)
        rw [hlist va hva,MemoryView.map,if_pos ⟨hlo,hhi⟩,if_pos ⟨hlo,hhi⟩] at hv
        have hlen := congrArg List.length hv
        simp only [length_append,length_singleton] at hlen
        exact eq_nil_of_length_eq_zero (by omega)
      · intro va hva hvalt hout
        have hv := hview va hva hvalt
        have hno : ¬ (t ≤ va ∧ va < t+alignUp length) := by omega
        rw [hlist va hva,MemoryView.map,if_neg hno,if_neg hno,append_nil] at hv
        exact hv
    exact ((hc.listed_iff hw hal (by omega)).mp hl).1
  · intro hf hh
    cases hcall.target with
    | fixed hf' _ => simp [hf] at hf'
    | hint _ hh' => exact absurd hh' hh
    | gap _ _ hfind =>
      have hr : replaces flags = false := by simp [replaces,hf]
      apply (rangeIsFree_findFreeRegion_iff hw.tiled hpos hdvd hfind).mp
      rw [hw.tiled.rangeIsFree_iff]
      apply hw.tiled.clear_of_listed hal (by omega)
      intro va hva hlo hhi
      exact congrArg PageView.listed (hex.unused hr va hva hlo hhi)

end Athera
