import Athera.Mm.FreshTask

/-!
# Frames behind a request

What `alloc_frames` returns covers the request, and the lookup by offset finds every page of a
mapping with these frames.
-/

namespace Athera

open Framework Action List Option

variable {n : Nat}

theorem blockSize_lt (hpos : 0 < n) (hlt : n < wordRange) :
    blockSize n < 2*((n+(pageSize-1))/pageSize*pageSize) := by
  have hord := sizeToOrder_lt n
  rw [blockSize]
  cases hk : sizeToOrder n with
  | zero =>
    rw [orderSize_eq]
    simp only [pageSize]
    omega
  | succ k =>
    have hnot : ¬ n ≤ orderSize k := by
      rw [← sizeToOrder_le_iff hpos hlt (by omega)]
      omega
    rw [orderSize_succ]
    simp only [pageSize]
    omega

theorem backing_lt (hpos : 0 < n) (hlt : n < wordRange) :
    backing n < 2*((n+(pageSize-1))/pageSize*pageSize) := by
  have hlast := @blockSize_lt (n%topSize)
  have htop : topSize = 4194304 := by decide
  rw [backing_eq hlt]
  simp only [htop,pageSize] at hlt hlast ⊢
  by_cases h0 : n%4194304 = 0
  · rw [if_pos h0]
    omega
  · rw [if_neg h0]
    omega

theorem dropLast_segmentSizes (fuel : Nat) (hlt : n < wordRange) :
    ∀ size ∈ (segmentSizes fuel n).dropLast, size = topSize := by
  induction fuel generalizing n with
  | zero => simp [segmentSizes]
  | succ fuel ih =>
    rw [segmentSizes]
    by_cases h0 : n = 0
    · simp [h0]
    · rw [if_neg h0]
      cases hrest : segmentSizes fuel (n-blockSize n) with
      | nil => simp
      | cons b bs =>
        have hgt : topSize < n := by
          by_contra hle
          have hcover := blockSize_of_le (by omega) (Nat.not_lt.mp hle)
          rw [Nat.sub_eq_zero_of_le hcover] at hrest
          cases fuel <;> simp [segmentSizes] at hrest
        have hih := @ih (n-blockSize n) (by omega)
        rw [hrest] at hih
        exact forall_mem_cons.mpr ⟨blockSize_of_gt hlt hgt,hih⟩

structure Backs (size : Nat) (gs : List Frame) : Prop where
  power : ∀ f ∈ gs, ∃ k, 12 ≤ k ∧ k ≤ 22 ∧ f.size = 2 ^ k
  full : ∀ f ∈ gs.dropLast, f.size = topSize
  enough : size ≤ totalSize gs
  tight : totalSize gs < 2 * ((size + (pageSize - 1)) / pageSize * pageSize)

/-- The pages of a mapping have a place in its frames, each its own. -/
structure Found (m : UserMapping) : Prop where
  some : ∀ va, Covers m va = true →
    ∃ p, physAtOffset m.frames (va - (mappingRange m).1) = some p ∧ InFrames m.frames p
  apart : ∀ va va' p p', pageSize ∣ va → pageSize ∣ va' → va ≠ va' → Covers m va = true →
    Covers m va' = true → physAtOffset m.frames (va - (mappingRange m).1) = Option.some p →
    physAtOffset m.frames (va' - (mappingRange m).1) = Option.some p' →
    (Block.mk p pageSize).Apart ⟨p',pageSize⟩

variable {σ : Type} [LawfulFrameAllocator σ] {ε : Type} {s : TaskMemory σ} {fs gs : List Frame}

theorem Custody.backs {size : Nat} (h : Custody s (gs++fs)) (hpos : 0 < size)
    (hlt : size < wordRange) (hsizes : gs.map Block.size = segmentSizes size size) :
    Backs size gs := by
  have htotal := totalSize_of_segments hsizes
  refine ⟨fun f hf => ?_,fun f hf => ?_,htotal ▸ le_backing hlt,htotal ▸ backing_lt hpos hlt⟩
  · obtain ⟨k,hk,hf⟩ := (h.shape f (mem_append_left _ hf)).order
    simp only [buddyMaxOrder] at hk
    exact ⟨k+12,by omega,by omega,hf.trans (orderSize_eq k)⟩
  · apply dropLast_segmentSizes size hlt
    rw [← hsizes,← map_dropLast]
    exact mem_map_of_mem hf

theorem Custody.found (h : Custody s (gs++fs)) {m : UserMapping} (hva : m.va < wordRange)
    (hm : m.frames = gs) : Found m := by
  subst hm
  have hshape : m.Shape := h.mapping_shape hva (fun f hf => mem_append_left _ hf)
    (pairwise_append.mp h.apart).1
  have hstart : (mappingRange m).1 = m.start := by rw [mappingRange_eq hshape]
  refine ⟨fun va hc => ?_,fun va va' p p' hd hd' hne hc hc' hp hp' => ?_⟩
  · obtain ⟨_,hoff⟩ := covers_offset hshape hc
    rw [hstart]
    obtain ⟨p,hp⟩ := physAtOffset_isSome hoff
    exact ⟨p,hp,physAtOffset_mem hp⟩
  · obtain ⟨hle,_⟩ := covers_offset hshape hc
    obtain ⟨hle',_⟩ := covers_offset hshape hc'
    rw [hstart] at hp hp'
    exact physAtOffset_apart hshape.frames (pairwise_append.mp h.apart).1
      (Nat.dvd_sub hd m.dvd_start) (Nat.dvd_sub hd' m.dvd_start) (by omega) hp hp'

/-- `alloc_frames` ends without a panic, and what it returns backs the request. -/
theorem segmented_backing {size : Nat} (h : Custody s fs) (hpos : 0 < size)
    (hlt : size < wordRange) :
    wp (allocFrames size : Action ε (TaskMemory σ) (Option (List Frame)))
      (fun r _ => ∀ gs, r = some gs →
        Backs size gs ∧ ∀ m : UserMapping, m.va < wordRange → m.frames = gs → Found m)
      (fun _ _ => False) s := by
  apply wp_weaken (allocFrames_spec h size)
  rintro r s' ⟨_,hr⟩ gs rfl
  exact ⟨hr.2.backs hpos hlt hr.1,fun m hva hm => hr.2.found hva hm⟩

theorem segmented_backing_small : ∃ s', (allocFrames 0x3000 :
    MapAction BuddyLists (Option (List Frame))) smallTask =
      .ok (some [⟨0x80800000,0x4000⟩]) s' ∧ Backs 0x3000 [⟨0x80800000,0x4000⟩] := by
  have hok : ((allocFrames 0x3000 : MapAction BuddyLists (Option (List Frame)))
      smallTask).result = some (.ok (some [⟨0x80800000,0x4000⟩])) := by decide
  obtain ⟨s',hrun,_⟩ := Outcome.exists_ok hok
  have hback := wp_of_ok (segmented_backing smallTask_wellFormed.own.custody (by decide)
    (by decide)) hrun
  exact ⟨s',hrun,(hback _ rfl).1⟩

end Athera
