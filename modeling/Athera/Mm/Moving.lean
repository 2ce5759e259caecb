import Athera.Mm.Mremap

/-!
# Rebuilding and moving a range

Where every size is made of whole blocks, `rebuild` takes exactly the old range out.
-/

namespace Athera

open Framework Action List Option

variable {σ : Type} [LawfulFrameAllocator σ] {s s' s1 s2 : TaskMemory σ}
  {old oldEnd dest newSize : Nat} {prot : PageFlags} {frames : List Frame} {buffers : List Buffer}

/-- An old range and a destination that is free, apart from the old range. -/
structure RebuildPlace (s : TaskMemory σ) (old oldEnd dest newSize : Nat) : Prop where
  wf : WellFormed s []
  oldDvd : pageSize ∣ old
  endDvd : pageSize ∣ oldEnd
  oldLt : old < oldEnd
  newPos : 0 < newSize
  destDvd : pageSize ∣ dest
  fits : dest + newSize < wordRange
  canonical : isCanonicalUserRange dest (dest + newSize) = true
  free : ∀ va, pageSize ∣ va → dest ≤ va → va < dest + newSize → va < old ∨ oldEnd ≤ va →
    s.listed va = []

/-- Sizes with which `rebuild` does no harm. -/
structure RebuildPlan (s : TaskMemory σ) (old oldEnd dest newSize : Nat) : Prop extends
    RebuildPlace s old oldEnd dest newSize where
  backed : CutBacked s.mappings old oldEnd
  whole : WholeBlocks newSize

theorem Refilled.listed {n va : Nat} (hfill : Refilled s s1 old n newSize frames)
    (hw : WellFormed s []) (hva : pageSize ∣ va) : s1.listed va = s.listed va := by
  have hsame : Same s s1 (s.frames ++ []) := by
    rw [append_nil]
    exact hfill.same
  exact hsame.toKept.listed hw.own hva

namespace RebuildPlan

variable (h : RebuildPlan s old oldEnd dest newSize)

include h

section

variable (hfill : Refilled s s1 old (min (oldEnd - old) newSize) newSize frames)
include hfill

theorem totalSize_eq : totalSize frames = newSize := by
  have hfits := h.fits
  rw [totalSize_of_segments hfill.sizes]
  exact (backing_eq_iff (by omega)).mpr h.whole

theorem cut (hcut : Cut s1 s2 frames old oldEnd buffers) :
    WellFormed s2 frames ∧ CutListed s s2 old oldEnd := by
  have hw1 : WellFormed s1 frames := hfill.same.wellFormed h.wf hfill.own
  have hb : CutBacked s1.mappings old oldEnd := by
    rw [hfill.same.mappings]
    exact h.backed
  refine ⟨hcut.wellFormed hw1 h.oldDvd h.oldLt hb,?_⟩
  have hl := (hcut.listed_iff hw1 h.oldDvd h.oldLt).mpr ⟨hb,fun _ _ _ => h.endDvd⟩
  refine ⟨hl.inside,?_⟩
  intro va hva hlt hout
  rw [hl.outside va hva hlt hout]
  exact hfill.listed h.wf hva

theorem vacant (hcut : Cut s1 s2 frames old oldEnd buffers) :
    ∀ va, pageSize ∣ va → dest ≤ va → va < dest+totalSize frames → s2.listed va = [] := by
  have hfits := h.fits
  have hl := (h.cut hfill hcut).2
  intro va hva hlo hhi
  rw [h.totalSize_eq hfill] at hhi
  by_cases hin : old ≤ va ∧ va < oldEnd
  · exact hl.inside va hva hin.1 hin.2
  · rw [hl.outside va hva (by omega) (by omega)]
    exact h.free va hva hlo hhi (by omega)

end

theorem place (prot : PageFlags)
    (hfill : Refilled s s1 old (min (oldEnd-old) newSize) newSize frames)
    (hcut : Cut s1 s2 frames old oldEnd buffers) : (UserMapping.mk dest frames prot).InHalf ∧
      ∀ m ∈ s2.mappings, m.Clear ⟨dest,frames,prot⟩ := by
  have hsize := h.totalSize_eq hfill
  have hpos := h.newPos
  refine ⟨inHalf_of_canonical h.destDvd (hsize ▸ h.fits) (hsize ▸ h.canonical),?_⟩
  exact clear_of_listed (h.cut hfill hcut).1 h.destDvd (by omega) (h.vacant hfill hcut)

theorem rebuilt_wellFormed (hdone : Rebuilt s s' old oldEnd dest newSize prot s1 s2 frames buffers) :
    WellFormed s' [] := by
  obtain ⟨hfill,hcut,hmapped⟩ := hdone
  have hw2 : WellFormed s2 (frames ++ []) := by
    rw [append_nil]
    exact (h.cut hfill hcut).1
  obtain ⟨hhalf,hclear⟩ := h.place prot hfill hcut
  have hsize := h.totalSize_eq hfill
  have hpos := h.newPos
  exact hmapped.wellFormed hw2 hhalf (by omega) hclear

theorem failed_wellFormed (hfail : RebuildFailed s old oldEnd dest newSize prot s') :
    WellFormed s' [] := by
  cases hfail with
  | early hsame hown => exact hsame.wellFormed h.wf hown
  | cut hfill hbuf hlack _ _ =>
    have hw1 := hfill.same.wellFormed h.wf hfill.own
    refine absurd hlack (hw1.not_lacksTable hbuf h.oldDvd ?_)
    rw [hfill.same.mappings]
    exact h.backed
  | @tables s1 s2 frames buffers hfill hcut hfail =>
    have hw2 : WellFormed s2 (frames ++ []) := by
      rw [append_nil]
      exact (h.cut hfill hcut).1
    obtain ⟨hhalf,hclear⟩ := h.place prot hfill hcut
    have hfits := h.fits
    exact hfail.wellFormed hw2 (by omega) hhalf hclear

theorem listed (hdone : Rebuilt s s' old oldEnd dest newSize prot s1 s2 frames buffers) {va : Nat}
    (hva : pageSize ∣ va) (hlt : va < wordRange) : s'.listed va =
      if dest ≤ va ∧ va < dest+newSize then
        [((physAtOffset frames (va-dest)).map (pageAt s1.mem), prot)]
      else if old ≤ va ∧ va < oldEnd then []
      else s.listed va := by
  obtain ⟨hfill,hcut,hmapped⟩ := hdone
  obtain ⟨hw2,hl⟩ := h.cut hfill hcut
  have hsize := h.totalSize_eq hfill
  have hown2 : Own s2 (frames ++ []) := by
    rw [append_nil]
    exact hcut.own
  have hlist := hmapped.listed_free hown2 h.destDvd (hsize ▸ h.fits) (h.vacant hfill hcut) hva
  rw [hsize] at hlist
  rw [hlist]
  by_cases hin : dest ≤ va ∧ va < dest+newSize
  · rw [if_pos hin,if_pos hin]
    cases hp : physAtOffset frames (va-dest) with
    | none => rfl
    | some p =>
      have hshape : ∀ f ∈ frames, PageShape f := fun f hf =>
        (hfill.own.custody.shape f (mem_append_right _ hf)).pageShape
      have hpage := inFrames_page hshape (Nat.dvd_sub hva h.destDvd) hp
      rw [map_some,map_some,pageAt_congr hcut.bytes]
      intro i hi
      obtain ⟨f,hf,ha⟩ := hpage i hi
      exact ⟨f,mem_append_right _ hf,ha⟩
  · rw [if_neg hin,if_neg hin]
    by_cases hold : old ≤ va ∧ va < oldEnd
    · rw [if_pos hold]
      exact hl.inside va hva hold.1 hold.2
    · rw [if_neg hold]
      exact hl.outside va hva hlt (by omega)

end RebuildPlan

variable {oldSize flags newAddress : Nat}

theorem Refilled.carry {n off : Nat} (hfill : Refilled s s1 old n newSize frames)
    (hw : WellFormed s []) (hold : pageSize ∣ old) (hoff : pageSize ∣ off) (hlt : off < n)
    (hfits : old+off < wordRange) (htotal : off < totalSize frames) :
    ∃ m ∈ s.mappings, Covers m (old+off) = true ∧
      s.listed (old+off) = [((physAtOffset frames off).map (pageAt s1.mem), m.flags)] := by
  have hstep : off ∈ stepBy 0 n := mem_stepBy_zero.mpr ⟨hoff,hlt⟩
  have hmap := hfill.mapped off hstep
  have hcarry := hfill.carried off hstep
  rw [wrap_of_lt hfits] at hmap hcarry
  have hva : pageSize ∣ old+off := Nat.dvd_add hold hoff
  rcases covered_or_not s.mappings (old+off) with ⟨m,hm,hc⟩ | hnone
  · refine ⟨m,hm,hc,?_⟩
    have hin := (hw.tiled.covers_iff hm).mp hc
    have hmoff : old+off-m.start < m.size := by
      simp only [UserMapping.stop] at hin
      omega
    obtain ⟨src,hsrc⟩ := physAtOffset_isSome hmoff
    obtain ⟨dst,hdst⟩ := physAtOffset_isSome htotal
    have hpage := hcarry src dst (by rw [hw.tiled.pagePhys_eq hm hc,hsrc]; rfl) hdst ?_
    · rw [hw.tiled.listed_eq hm hc,hsrc,hdst,map_some,map_some,hpage]
    · intro i hi
      obtain ⟨f,hf,ha⟩ := inFrames_page (hw.tiled.shape m hm).frames
        (Nat.dvd_sub hva m.dvd_start) hsrc i hi
      exact ⟨f,mem_framesOf.mpr ⟨m,hm,hf⟩,ha⟩
  · refine absurd ?_ hmap
    rw [pagePhys_eq,find_covers_none hnone]

/-- What a successful `mremap` to `r` promises: the mapping it adds covers the new range and no
more, the pages of the old range reappear at `r`, with zeros after them, and all other pages are as
before. -/
structure MremapExact (s s' : TaskMemory σ) (r old oldSize newSize flags newAddress : Nat) :
    Prop where
  added : ¬ KeepsAll old oldSize newSize flags newAddress → LastRange s'.mappings r (r + newSize)
  carried : ∀ off, pageSize ∣ off → off < min oldSize newSize →
    s'.view (r + off) = s.view (old + off) ∧ s.view (old + off) ≠ .absent
  grown : ∀ off, pageSize ∣ off → oldSize ≤ off → off < newSize → ∃ f : PageFlags,
    s'.view (r + off) = ⟨[(some fun _ => 0, f)],if f.rwx then some (fun _ => 0, f) else none⟩
  removed : ∀ va, pageSize ∣ va → old ≤ va → va < old + oldSize →
    ¬ (r ≤ va ∧ va < r + newSize) → s'.view va = .absent
  rest : ∀ va, pageSize ∣ va → va < wordRange → ¬ (old ≤ va ∧ va < old + oldSize) →
    ¬ (r ≤ va ∧ va < r + newSize) → s'.view va = s.view va

/-- `rebuild` does what is promised when the carried pages have the flags it is given. -/
theorem RebuildPlan.exact (h : RebuildPlan s old (old+oldSize) dest newSize)
    (hfits : old+oldSize < wordRange)
    (hdone : Rebuilt s s' old (old+oldSize) dest newSize prot s1 s2 frames buffers)
    (hprot : ∀ m ∈ s.mappings, overlaps m old (old+min oldSize newSize) = true →
      m.flags = prot) : MremapExact s s' dest old oldSize newSize flags newAddress := by
  have hw' := h.rebuilt_wellFormed hdone
  have hsize := h.totalSize_eq hdone.refilled
  have hdest := h.fits
  have hnew : ∀ off, pageSize ∣ off → off < newSize →
      s'.listed (dest+off) = [((physAtOffset frames off).map (pageAt s1.mem), prot)] := by
    intro off hoff hlt
    rw [h.listed hdone (Nat.dvd_add h.destDvd hoff) (by omega),if_pos (by omega),
      Nat.add_sub_cancel_left]
  refine ⟨fun _ => ?_,?_,?_,?_,?_⟩
  · exact hsize ▸ hdone.mapped.lastRange h.destDvd (hsize ▸ hdest)
  · intro off hoff hlt
    have hn : off < min (old+oldSize-old) newSize := by omega
    obtain ⟨m,hm,hc,hl⟩ := hdone.refilled.carry h.wf h.oldDvd hoff hn (by omega) (by omega)
    have hin := (h.wf.tiled.covers_iff hm).mp hc
    have hflags := hprot m hm ((h.wf.tiled.overlaps_iff hm).mpr (by omega))
    have hva := Nat.dvd_add h.oldDvd hoff
    have hva' := Nat.dvd_add h.destDvd hoff
    have hsame : s'.listed (dest+off) = s.listed (old+off) := by
      rw [hnew off hoff (by omega),hl,hflags]
    refine ⟨?_,?_⟩
    · rw [TaskMemory.view,TaskMemory.view,hw'.leaf_eq hva' (by omega),
        h.wf.leaf_eq hva (by omega),hsame]
    · intro habs
      have hnil := congrArg PageView.listed habs
      rw [TaskMemory.view,hl] at hnil
      exact absurd hnil (by simp [PageView.absent])
  · intro off hoff hlo hlt
    refine ⟨prot,?_⟩
    have htotal : off < totalSize frames := by omega
    obtain ⟨dst,hdst⟩ := physAtOffset_isSome htotal
    have hzero := hdone.refilled.zero off dst hoff (by omega) hdst
    have hva' := Nat.dvd_add h.destDvd hoff
    rw [TaskMemory.view,hw'.leaf_eq hva' (by omega),hnew off hoff hlt,hdst,map_some,hzero]
    rfl
  · intro va hva hlo hhi hout
    apply hw'.view_absent hva (by omega)
    rw [h.listed hdone hva (by omega),if_neg hout,if_pos ⟨hlo,hhi⟩]
  · intro va hva hlt hold hout
    apply h.wf.view_eq hw' hva hlt
    rw [h.listed hdone hva hlt,if_neg hout,if_neg hold]

end Athera
