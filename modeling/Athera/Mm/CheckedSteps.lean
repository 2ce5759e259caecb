import Athera.Mm.CheckedRanges

/-!
# The steps of the memory-map calls with overflow checks

Mapping, copying and cutting behave as without the checks, as long as what they record stays in one
half of the address space.
-/

namespace Athera

open Framework Action List UserMapping

/-- `n` bytes at `va`, with the bytes that really back them, stay in one half. -/
def FitsHalf (va n : Nat) : Prop :=
  va / pageSize * pageSize + backing n < wordRange ∧
    (va / pageSize * pageSize + backing n ≤ lowHalfEnd ∨ highHalfStart ≤ va / pageSize * pageSize)

instance (va n : Nat) : Decidable (FitsHalf va n) := inferInstanceAs (Decidable (_ ∧ _))

/-- What is left of the ranges before and after a cut fits. -/
def CutFits (rs : List (Nat × Nat)) (start stop : Nat) : Prop :=
  ∀ r ∈ rs, r.1 < stop → start < r.2 →
    (r.1 < start → FitsHalf r.1 (start - r.1)) ∧ (stop < r.2 → FitsHalf stop (r.2 - stop))

instance (rs : List (Nat × Nat)) (start stop : Nat) : Decidable (CutFits rs start stop) :=
  inferInstanceAs (Decidable (∀ r ∈ rs, _ → _ → _))

theorem CutFits.subset {rs rs' : List (Nat × Nat)} {start stop : Nat} (h : CutFits rs start stop)
    (hsub : ∀ r ∈ rs', r ∈ rs) : CutFits rs' start stop := fun r hr => h r (hsub r hr)

namespace Checked

section

variable {σ : Type} [FrameAllocator σ] {s : TaskMemory σ} {addr mapped step : Nat}
  {flags : PageFlags} {frames : List Frame}

theorem mapPage_eq {f : Frame} (hf : f.start+f.size ≤ physicalLimit) (hstep : step < f.size)
    (hlt : addr+mapped+f.size < wordRange) :
    (mapPage addr flags mapped f step : MapAction σ Unit) =
      Athera.mapPage addr flags (mapped+step, f.start+step) := by
  have hpa : f.start+step < wordRange := by
    simp only [physicalLimit,wordRange] at hf ⊢
    omega
  have hrollback : forEach (fun rollback => do
        let va ← orPanic (checkedAdd addr rollback)
        userUnmap va : Nat → MapAction σ Unit) (stepBy 0 (mapped+step)) =
      forEach (fun rollback => userUnmap (wrap (addr+rollback))) (stepBy 0 (mapped+step)) := by
    apply forEach_congr
    intro r hr
    obtain ⟨i,hi,hrlt⟩ := mem_stepBy.mp hr
    rw [checkedAdd_of_lt (by omega),wrap_of_lt (by omega)]
    rfl
  rw [mapPage,checkedAdd_of_lt (by omega),orPanic_some_bind,checkedAdd_of_lt (by omega),
    orPanic_some_bind,checkedAdd_of_lt hpa,orPanic_some_bind,checkedAdd_of_lt (by omega),
    orPanic_some_bind,hrollback,Athera.mapPage,wrap_of_lt (by omega),Nat.add_assoc]

theorem mapPages_eq (hf : ∀ f ∈ frames, f.start+f.size ≤ physicalLimit)
    (hlt : addr+mapped+totalSize frames < wordRange) :
    (mapPages addr flags mapped frames : MapAction σ Unit) =
      forEach (Athera.mapPage addr flags) (framePages mapped frames) := by
  induction frames generalizing mapped with
  | nil => rfl
  | cons f fs ih =>
    rw [totalSize_cons] at hlt
    have hpages : (forEach (mapPage addr flags mapped f) (stepBy 0 f.size) :
          MapAction σ Unit) =
        forEach (fun step => Athera.mapPage addr flags (mapped+step, f.start+step))
          (stepBy 0 f.size) := by
      apply forEach_congr
      intro step hstep
      obtain ⟨i,hi,hlt'⟩ := mem_stepBy.mp hstep
      exact mapPage_eq (hf f mem_cons_self) hlt' (by omega)
    rw [mapPages,framePages,forEach_append,forEach_map]
    congr 1
    funext _
    rw [checkedAdd_of_lt (by omega)]
    exact ih (fun g hg => hf g (mem_cons_of_mem _ hg)) (by omega)

theorem Placed.add_lt {m : UserMapping} (h : m.Placed) : m.va+totalSize m.frames < wordRange := by
  have hlt := h.inHalf.lt
  have hdvd := dvd_totalSize h.shape.frames
  simp only [stop,start,size,pageSize,wordRange] at hlt hdvd ⊢
  omega

abbrev Sound (s : TaskMemory σ) : Prop := s.mappings.Placed

theorem mapFrame_agrees (hm : (mk addr frames flags).Placed) (hs : Sound s) :
    Exact Sound (mapFrame addr frames flags) (Athera.mapFrame addr frames flags) s := by
  have hlt : addr+0+totalSize frames < wordRange := Placed.add_lt hm
  rw [mapFrame,mapPages_eq hm.frames hlt]
  refine Exact.bind (Exact.onError ?_ ?_) ?_
  · refine Exact.ite (fun _ => ?_) fun _ => exact_pure () hs
    exact (preserves_forEach (mapPage_untouched addr flags) _).exact hs
  · exact fun _ s' _ hs' => (dropFrames_untouched frames).exact hs'
  · intro _ s' _ hs'
    refine Preserves.exact (preserves_modify ?_) hs'
    intro t ht m hmem
    rcases mem_append.mp hmem with hmem | hmem
    · exact ht m hmem
    · rw [mem_singleton.mp hmem]
      exact hm

theorem removeMapping_agrees (idx : Nat) (hs : Sound s) :
    Exact Sound (removeMapping idx) (Athera.removeMapping idx) s := by
  refine Exact.get_bind (Exact.orPanic_both fun m hm => ?_)
  have hplaced := hs m (mem_of_getElem? hm)
  refine Exact.bind (Preserves.exact (preserves_modify ?_) hs) ?_
  · intro t ht m' hm'
    exact ht m' (mem_of_mem_eraseIdx hm')
  · intro _ s' _ hs'
    refine Exact.orPanic_bind (mappingRange_of_placed hplaced) (Exact.bind ?_ ?_)
    · exact (preserves_forEach userUnmap_untouched _).exact hs'
    · exact fun _ s' _ hs' => (dropFrames_untouched m.frames).exact hs'

theorem remapKeeps_agrees {buffers : List Buffer} (hb : ∀ b ∈ buffers, (bufferMapping b).Placed)
    (hs : Sound s) : Exact Sound (remapKeeps buffers) (Athera.remapKeeps buffers) s := by
  induction buffers generalizing s with
  | nil => exact exact_pure () hs
  | cons b rest ih =>
    refine Exact.bind (Exact.onError (mapFrame_agrees (hb b mem_cons_self) hs) ?_) ?_
    · exact fun _ s' _ hs' => (dropBuffers_untouched rest).exact hs'
    · exact fun _ s' _ hs' => ih (fun b' hb' => hb b' (mem_cons_of_mem _ hb')) hs'

end

section

variable {σ : Type} {s : TaskMemory σ} {frames : List Frame}
  {start off size : Nat}

theorem copyPages_agrees (hf : ∀ f ∈ frames, f.start+f.size ≤ physicalLimit)
    (hlt : start+size ≤ wordRange) (hs : Sound s) :
    Exact Sound (copyPages frames start size) (Athera.copyPages frames start size) s := by
  refine exact_forEach ?_ hs
  intro off hoff s' hs'
  obtain ⟨_,hsize⟩ := mem_stepBy_zero.mp hoff
  have hlt : start+off < wordRange := by omega
  refine Exact.get_bind (Exact.orPanic_bind (checkedAdd_of_lt hlt) ?_)
  rw [pagePhys_of_placed hs',wrap_of_lt hlt]
  refine Exact.orPanic_both fun src _ => Exact.orThrow_bind hs' fun src _ => ?_
  rw [physAtOffset_of_bounded hf]
  refine Exact.orPanic_both fun dst _ => ?_
  exact Preserves.exact (preserves_modify fun _ h => h) hs'

end

variable {σ : Type} [LawfulFrameAllocator σ] {s : TaskMemory σ} {fs held : List Frame}
  {start stop : Nat}

theorem frames_bounded {frames gs : List Frame} (h : Custody s gs) (hsub : ∀ f ∈ frames, f ∈ gs) :
    ∀ f ∈ frames, f.start+f.size ≤ physicalLimit := fun f hf => (h.shape f (hsub f hf)).bounded

/-- Frames in custody that were allocated for `n` bytes make a placed mapping where these fit. -/
theorem placed_of_custody {gs frames : List Frame} {va n : Nat} {flags : PageFlags}
    (h : Custody s gs) (hsub : ∀ f ∈ frames, f ∈ gs) (hap : frames.Pairwise Block.Apart)
    (hsizes : frames.map Block.size = segmentSizes n n) (hva : va < wordRange)
    (hfit : FitsHalf va n) : (mk va frames flags).Placed := by
  refine ⟨h.mapping_shape hva hsub hap,?_,frames_bounded h hsub⟩
  have hstop : (mk va frames flags).stop = va/pageSize*pageSize+backing n := by
    rw [← totalSize_of_segments hsizes]
    rfl
  refine ⟨?_,?_⟩
  · rw [hstop]
    exact hfit.1
  · rw [hstop]
    exact hfit.2

theorem fillKeep_agrees {k : Keep} (h : Custody s fs) (hk : k.va+k.size ≤ wordRange)
    (hs : Sound s) : Exact Sound (fillKeep k) (Athera.fillKeep k) s := by
  refine Exact.bind ((allocFrames_untouched k.size).exact hs) ?_
  intro r s1 hr hs1
  refine Exact.orThrow_bind hs1 ?_
  intro frames hframes
  subst hframes
  obtain ⟨_,_,hc⟩ := wp_of_ok (E := fun _ _ => True) (allocFrames_spec h k.size) hr
  have hbounded := frames_bounded hc fun f hf => mem_append_left fs hf
  refine Exact.bind (Exact.onError (copyPages_agrees hbounded hk hs1) ?_) ?_
  · exact fun _ s2 _ hs2 => (dropFrames_untouched frames).exact hs2
  · exact fun _ s2 _ hs2 => exact_pure frames hs2

theorem fillKeeps_agrees {buffers : List Buffer} {ks : List Keep}
    (h : Custody s (bufferFrames buffers++fs))
    (hsrc : ∀ va, ∃ r, Athera.pagePhys s.mappings va = some r)
    (hks : ∀ k ∈ ks, k.size < wordRange ∧ k.va+k.size ≤ wordRange) (hs : Sound s) :
    Exact Sound (fillKeeps buffers ks) (Athera.fillKeeps buffers ks) s := by
  induction ks generalizing buffers s with
  | nil => exact exact_pure buffers hs
  | cons k ks ih =>
    obtain ⟨hlt,hle⟩ := hks k mem_cons_self
    refine Exact.bind (Exact.onError (fillKeep_agrees h hle hs) ?_) ?_
    · exact fun _ s1 _ hs1 => (dropBuffers_untouched buffers).exact hs1
    · intro frames s1 hok hs1
      have hspec := (wlp_onError (dropBuffers buffers)).mpr (wlp_of_wp (fillKeep_spec h hsrc hlt))
      obtain ⟨hsame,hc,_⟩ := hspec frames s1 hok
      have hperm : (frames++(bufferFrames buffers++fs)).Perm
          (bufferFrames (buffers ++ [(frames, k)])++fs) := by
        rw [← append_assoc]
        apply List.Perm.append_right
        simpa [bufferFrames] using (perm_append_comm : (frames++bufferFrames buffers).Perm _)
      refine ih (hc.perm hperm) ?_ (fun k' hk' => hks k' (mem_cons_of_mem _ hk')) hs1
      rw [hsame.mappings]
      exact hsrc

theorem of_mem_keepsOf {m : UserMapping} {k : Keep} (hk : k ∈ Athera.keepsOf start stop m) :
    ((Athera.mappingRange m).1 < stop ∧ start < (Athera.mappingRange m).2) ∧
      (((Athera.mappingRange m).1 < start ∧
          k.va = (Athera.mappingRange m).1 ∧ k.size = start-(Athera.mappingRange m).1) ∨
        (stop < (Athera.mappingRange m).2 ∧
          k.va = stop ∧ k.size = (Athera.mappingRange m).2-stop)) := by
  unfold Athera.keepsOf at hk
  by_cases ho : Athera.overlaps m start stop = true
  · rw [if_pos ho] at hk
    have hov : (Athera.mappingRange m).1 < stop ∧ start < (Athera.mappingRange m).2 := by
      simpa only [Athera.overlaps,Bool.and_eq_true,decide_eq_true_eq] using ho
    generalize Athera.mappingRange m = r at hk hov ⊢
    refine ⟨hov,?_⟩
    rcases mem_append.mp hk with hk | hk
    · split at hk
      · rw [mem_singleton.mp hk]
        exact Or.inl ⟨by omega,rfl,by simp only; omega⟩
      · exact absurd hk not_mem_nil
    · split at hk
      · rw [mem_singleton.mp hk]
        exact Or.inr ⟨by omega,by simp only; omega,by simp only; omega⟩
      · exact absurd hk not_mem_nil
  · rw [if_neg ho] at hk
    exact absurd hk not_mem_nil

theorem keeps_of_cutFits {ms : MemorySet} (h : ms.Placed)
    (hfit : CutFits (ms.map Athera.mappingRange) start stop) :
    ∀ k ∈ ms.flatMap (Athera.keepsOf start stop),
      k.va+k.size < wordRange ∧ FitsHalf k.va k.size := by
  intro k hk
  obtain ⟨m,hm,hk⟩ := mem_flatMap.mp hk
  have hlt : (Athera.mappingRange m).2 < wordRange := by
    rw [mappingRange_of_lt (h m hm).shape (h m hm).inHalf.lt]
    exact (h m hm).inHalf.lt
  obtain ⟨hov,hpiece⟩ := of_mem_keepsOf hk
  obtain ⟨hleft,hright⟩ := hfit _ (mem_map_of_mem hm) hov.1 hov.2
  rcases hpiece with ⟨hl,hva,hsize⟩ | ⟨hr,hva,hsize⟩
  · rw [hva,hsize]
    exact ⟨by omega,hleft hl⟩
  · rw [hva,hsize]
    exact ⟨by omega,hright hr⟩

theorem unmapRange_agrees (h : Own s held) (hs : Sound s)
    (hfit : CutFits (s.mappings.map Athera.mappingRange) start stop) :
    Exact Sound (unmapRange start stop) (Athera.unmapRange start stop) s := by
  have hkeeps := keeps_of_cutFits hs hfit
  have hnil : Custody s (bufferFrames [] ++ (s.frames++held)) := h.custody
  have hks : ∀ k ∈ s.mappings.flatMap (Athera.keepsOf start stop), k.size < wordRange := by
    intro k hk
    have hlt := (hkeeps k hk).1
    omega
  refine Exact.get_bind (Exact.orPanic_bind (keeps_of_placed hs) (Exact.bind ?_ ?_))
  · refine fillKeeps_agrees hnil h.pagePhys_isSome ?_ hs
    exact fun k hk => ⟨hks k hk,le_of_lt (hkeeps k hk).1⟩
  · intro buffers s1 hok hs1
    obtain ⟨new,hnew,hsnd,hsame,hc,hfilled⟩ :=
      wp_of_ok (fillKeeps_spec hnil h.pagePhys_isSome hks) hok
    subst hnew
    have hbuffers : ∀ b ∈ buffers, (bufferMapping b).Placed := by
      intro b hb
      have hk : b.2 ∈ s.mappings.flatMap (Athera.keepsOf start stop) := by
        rw [← hsnd]
        exact mem_map_of_mem hb
      have hlt := (hkeeps _ hk).1
      have hap := (pairwise_append.mp hc.apart).1
      rw [bufferFrames,pairwise_flatMap] at hap
      refine placed_of_custody hc ?_ (hap.1 b hb) (hfilled b hb).sizes (by omega) (hkeeps _ hk).2
      exact fun f hf => mem_append_left _ (mem_flatMap.mpr ⟨b,hb,hf⟩)
    refine Exact.get_bind (Exact.orPanic_bind (overlappingIndices_of_placed hs1) (Exact.bind ?_ ?_))
    · exact exact_forEach (fun idx _ _ hs2 => removeMapping_agrees idx hs2) hs1
    · exact fun _ s2 _ hs2 => remapKeeps_agrees hbuffers hs2

end Checked

end Athera
