import Athera.Mm.CheckedMap

/-!
# Memory sets within the range of a word

While the ranges of all mappings, with the bytes that really back them, stay in one half of the
address space, the checks make no difference.
-/

namespace Athera

open Framework Action List Option

/-- The range of the mapping and its frames stay within their address spaces. -/
structure UserMapping.Placed (m : UserMapping) : Prop where
  shape : m.Shape
  inHalf : m.InHalf
  frames : ∀ f ∈ m.frames, f.start + f.size ≤ physicalLimit

abbrev MemorySet.Placed (ms : MemorySet) : Prop := ∀ m ∈ ms, m.Placed

namespace Checked

section

variable {m : UserMapping} {ms : MemorySet} {start stop va : Nat}

theorem alignUp_of_lt {n : Nat} (h : n+pageSize < wordRange) :
    alignUp n = some (Athera.alignUp n) := by
  rw [alignUp,checkedAdd_of_lt h]
  rw [Athera.alignUp,align,wrap_of_lt (by omega)]
  rfl

theorem mappingRange_of_placed (h : m.Placed) : mappingRange m = some (Athera.mappingRange m) := by
  have hsize := h.shape.size
  have hsum := sum_alignUp h.shape.frames
    (by simp only [UserMapping.size,physicalLimit,pageSize,wordRange] at hsize ⊢; omega)
  have halign : ∀ f ∈ m.frames, alignUp f.size = some (Athera.alignUp f.size) := by
    intro f hf
    have hb := h.frames f hf
    apply alignUp_of_lt
    simp only [physicalLimit,pageSize,wordRange] at hb ⊢
    omega
  have hstart : m.va &&& (wordRange-pageSize) = m.start :=
    land_high_bits (k := 12) h.shape.va (by decide)
  have hlt : totalSize m.frames < wordRange := by
    simp only [UserMapping.size,physicalLimit,wordRange] at hsize ⊢
    omega
  rw [mappingRange,mapM_of_some halign]
  simp only [bind_eq_bind,bind_some]
  rw [checkedSum_of_lt (by rw [hsum]; exact hlt),hsum,hstart]
  simp only [bind_some]
  have hadd : checkedAdd m.start (totalSize m.frames) = some m.stop := checkedAdd_of_lt h.inHalf.lt
  rw [hadd,mappingRange_of_lt h.shape h.inHalf.lt]
  rfl

theorem overlaps_of_placed (h : m.Placed) :
    overlaps m start stop = some (Athera.overlaps m start stop) := by
  rw [overlaps,mappingRange_of_placed h]
  rfl

theorem overlappingIndices_of_placed (h : ms.Placed) :
    overlappingIndices ms start stop = some (Athera.overlappingIndices ms start stop) := by
  rw [overlappingIndices,mapM_of_some fun m hm => overlaps_of_placed (h m hm)]
  simp only [bind_eq_bind,bind_some]
  rw [zipIdx_map,List.filter_map,List.map_map]
  rfl

theorem rangeIsFree_of_placed (h : ms.Placed) :
    rangeIsFree ms start stop = some (Athera.rangeIsFree ms start stop) := by
  rw [rangeIsFree,anyM_of_some fun m hm => overlaps_of_placed (h m hm)]
  rfl

theorem physAtOffset_of_bounded {frames : List Frame} {off : Nat}
    (h : ∀ f ∈ frames, f.start+f.size ≤ physicalLimit) :
    physAtOffset frames off = Athera.physAtOffset frames off := by
  induction frames generalizing off with
  | nil => rfl
  | cons f fs ih =>
    have hf := h f mem_cons_self
    rw [physAtOffset,Athera.physAtOffset]
    split
    · apply checkedAdd_of_lt
      simp only [physicalLimit,wordRange] at hf ⊢
      omega
    · rw [checkedSub_of_le (by omega)]
      exact ih fun g hg => h g (mem_cons_of_mem _ hg)

theorem pagePhys_of_placed (h : ms.Placed) : pagePhys ms va = Athera.pagePhys ms va := by
  induction ms with
  | nil => rfl
  | cons m ms ih =>
    have hm := h m mem_cons_self
    have hms := ih fun m' hm' => h m' (mem_cons_of_mem _ hm')
    rw [pagePhys,mappingRange_of_placed hm,Athera.pagePhys,find?_cons]
    simp only [bind_eq_bind,bind_some]
    by_cases hc : (Athera.mappingRange m).1 ≤ va ∧ va < (Athera.mappingRange m).2
    · simp only [hc,decide_true,Bool.and_self]
      rw [checkedSub_of_le hc.1,bind_some,physAtOffset_of_bounded hm.frames]
      cases Athera.physAtOffset m.frames (va-(Athera.mappingRange m).1) <;> rfl
    · have hno : (decide ((Athera.mappingRange m).1 ≤ va) &&
          decide (va < (Athera.mappingRange m).2)) = false := by
        rw [← Bool.decide_and]
        exact decide_eq_false hc
      rw [if_neg hc,hms,hno]
      rfl

theorem rangeFullyMapped_of_placed (h : ms.Placed) :
    rangeFullyMapped ms start stop = Athera.rangeFullyMapped ms start stop := by
  unfold rangeFullyMapped Athera.rangeFullyMapped
  induction stepBy start stop with
  | nil => rfl
  | cons va vas ih =>
    rw [fullyMapped,Athera.fullyMapped,pagePhys_of_placed h]
    cases Athera.pagePhys ms va with
    | none => rfl
    | some r =>
      cases r with
      | none => rfl
      | some _ => exact ih

theorem flagsOfFirst_of_placed (h : ms.Placed) (hva : va+1 < wordRange) :
    flagsOfFirst ms va = some (Athera.flagsOfFirst ms va) := by
  have hhit : ∀ m ∈ ms, (do
      let next ← checkedAdd va 1
      overlaps m va next) = some (Athera.overlaps m va (wrap (va+1))) := by
    intro m hm
    rw [checkedAdd_of_lt hva,wrap_of_lt hva]
    exact overlaps_of_placed (h m hm)
  rw [flagsOfFirst,findM_of_some hhit]
  rfl

theorem searchGap_of_some {length top t : Nat} {rs : List (Nat × Nat)}
    (h : Athera.searchGap length top rs = some t) : searchGap length top rs = some (some t) := by
  induction rs generalizing top with
  | nil =>
    rw [Athera.searchGap] at h
    split at h
    · rename_i hle
      rw [searchGap,checkedSub_of_le hle]
      simp only [bind_eq_bind,hle,h]
      rfl
    · cases h
  | cons r rest ih =>
    obtain ⟨s,e⟩ := r
    rw [Athera.searchGap] at h
    rw [searchGap]
    by_cases he : e < top
    · rw [if_pos he,checkedSub_of_le (le_of_lt he)]
      simp only [bind_eq_bind,bind_some]
      by_cases hroom : length ≤ top-e
      · rw [if_pos ⟨he,hroom⟩] at h
        rw [if_pos hroom,checkedSub_of_le (by omega),← h]
        rfl
      · rw [if_neg fun hall => hroom hall.2] at h
        rw [if_neg hroom]
        exact ih h
    · rw [if_neg fun hall => he hall.1] at h
      rw [if_neg he]
      exact ih h

theorem findFreeRegion_of_placed {length t : Nat} (h : ms.Placed)
    (ht : Athera.findFreeRegion ms length = some t) : findFreeRegion ms length = some (some t) := by
  rw [findFreeRegion,mapM_of_some fun m hm => mappingRange_of_placed (h m hm)]
  exact searchGap_of_some ht

theorem keepsOf_of_placed (h : m.Placed) :
    keepsOf start stop m = some (Athera.keepsOf start stop m) := by
  rw [keepsOf,overlaps_of_placed h,Athera.keepsOf]
  simp only [bind_eq_bind,bind_some]
  split
  · rw [mappingRange_of_placed h]
    simp only [bind_some]
    have hl : (Athera.mappingRange m).1 ≤ max (Athera.mappingRange m).1 start := le_max_left _ _
    have hr : min (Athera.mappingRange m).2 stop ≤ (Athera.mappingRange m).2 := min_le_left _ _
    rw [checkedSub_of_le hl,checkedSub_of_le hr]
    split <;> split <;> rfl
  · rfl

theorem keeps_of_placed (h : ms.Placed) :
    keeps ms start stop = some (ms.flatMap (Athera.keepsOf start stop)) := by
  rw [keeps,mapM_of_some fun m hm => keepsOf_of_placed (h m hm)]
  rfl

end

variable {σ ε : Type} {p : MemorySet → Prop}

theorem zeroFrames_untouched (frames : List Frame) : Preserves (fun s => p s.mappings)
    (zeroFrames frames : Action ε (TaskMemory σ) Unit) := by
  apply preserves_forEach
  intro f
  apply preserves_modify
  exact fun _ h => h

theorem getSpace_untouched : Preserves (fun s => p s.mappings)
    (getSpace : Action MemError (TaskMemory σ) AddressSpace) :=
  preserves_get.bind fun _ => preserves_orThrow _ _

theorem setSpace_untouched (sp : AddressSpace) : Preserves (fun s => p s.mappings)
    (setSpace sp : Action ε (TaskMemory σ) Unit) := preserves_modify fun _ h => h

theorem userUnmap_untouched (va : Nat) : Preserves (fun s => p s.mappings)
    (userUnmap va : Action ε (TaskMemory σ) Unit) := preserves_modify fun _ h => h

variable [FrameAllocator σ]

theorem allocFrame_untouched (size : Nat) : Preserves (fun s => p s.mappings)
    (allocFrame size : Action ε (TaskMemory σ) (Option Frame)) := by
  intro s s' h hs
  exact some.inj hs ▸ h

theorem dropFrame_untouched (f : Frame) : Preserves (fun s => p s.mappings)
    (dropFrame f : Action ε (TaskMemory σ) Unit) := by
  intro s s' h hs
  exact some.inj hs ▸ h

theorem dropFrames_untouched (frames : List Frame) : Preserves (fun s => p s.mappings)
    (dropFrames frames : Action ε (TaskMemory σ) Unit) :=
  preserves_forEach dropFrame_untouched frames

theorem dropBuffers_untouched (buffers : List Buffer) : Preserves (fun s => p s.mappings)
    (dropBuffers buffers : MapAction σ Unit) :=
  preserves_forEach (fun b => dropFrames_untouched b.1) buffers

theorem allocFramesLoop_untouched (fuel remaining : Nat) (frames : List Frame) :
    Preserves (fun s => p s.mappings)
      (allocFramesLoop fuel remaining frames : Action ε (TaskMemory σ) (Option (List Frame))) := by
  induction fuel generalizing remaining frames with
  | zero => exact preserves_pure _
  | succ fuel ih =>
    rw [allocFramesLoop]
    split
    · exact preserves_pure _
    · apply (allocFrame_untouched remaining).bind
      intro r
      cases r with
      | none => exact (dropFrames_untouched frames).bind fun _ => preserves_pure _
      | some f => exact ih _ _

theorem allocFrames_untouched (size : Nat) : Preserves (fun s => p s.mappings)
    (allocFrames size : Action ε (TaskMemory σ) (Option (List Frame))) :=
  allocFramesLoop_untouched size size []

theorem createTable_untouched : Preserves (fun s => p s.mappings)
    (createTable : Action MemError (TaskMemory σ) Nat) :=
  (allocFrame_untouched pageSize).bind fun _ => (preserves_orThrow _ _).bind fun _ => preserves_pure _

theorem dropReplaced_untouched (sp : AddressSpace) (addr : Nat) : Preserves (fun s => p s.mappings)
    (dropReplaced sp addr : Action ε (TaskMemory σ) Unit) := by
  unfold dropReplaced
  split
  · exact dropFrame_untouched _
  · exact preserves_pure _

theorem ensureLevel1_untouched (i : Nat) : Preserves (fun s => p s.mappings)
    (ensureLevel1 i : Action MemError (TaskMemory σ) Nat) := by
  apply getSpace_untouched.bind
  intro sp
  split
  · exact preserves_pure _
  · exact createTable_untouched.bind fun addr => (setSpace_untouched _).bind fun _ =>
      (dropReplaced_untouched sp addr).bind fun _ => preserves_pure _

theorem ensureLevel0_untouched (a1 j : Nat) : Preserves (fun s => p s.mappings)
    (ensureLevel0 a1 j : Action MemError (TaskMemory σ) Nat) := by
  refine getSpace_untouched.bind fun sp => Preserves.bind (preserves_orThrow _ _) fun pt1 => ?_
  split
  · exact preserves_pure _
  · exact createTable_untouched.bind fun addr => (setSpace_untouched _).bind fun _ =>
      (dropReplaced_untouched sp addr).bind fun _ => (preserves_orThrow _ _).bind fun _ =>
        preserves_pure _

theorem userMap_untouched (va pa : Nat) (flags : PageFlags) : Preserves (fun s => p s.mappings)
    (userMap va pa flags : Action MemError (TaskMemory σ) Unit) :=
  (ensureLevel1_untouched _).bind fun a1 => (ensureLevel0_untouched a1 _).bind fun _ =>
    getSpace_untouched.bind fun _ => (preserves_orThrow _ _).bind fun _ => setSpace_untouched _

theorem mapPage_untouched (addr : Nat) (flags : PageFlags) (page : Nat × Nat) :
    Preserves (fun s => p s.mappings)
      (Athera.mapPage addr flags page : MapAction σ Unit) :=
  (userMap_untouched _ _ _).mapError.onError
    (preserves_forEach (fun _ => userUnmap_untouched _) _)

end Checked

end Athera
