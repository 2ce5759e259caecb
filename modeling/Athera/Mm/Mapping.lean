import Athera.Mm.Unmapping

/-!
# Mapping frames

What `map_frame` does to a task, and how a failed attempt is undone.
-/

namespace Athera

open Framework Action List UserMapping

variable {σ : Type} [LawfulFrameAllocator σ] {s s' : TaskMemory σ} {held frames : List Frame}
  {addr va : Nat} {flags : PageFlags}

theorem start_of_dvd (h : pageSize ∣ addr) : (mk addr frames flags).start = addr :=
  Nat.div_mul_cancel h

theorem stop_of_dvd (h : pageSize ∣ addr) :
    (mk addr frames flags).stop = addr+totalSize frames := by
  rw [stop,start_of_dvd h]
  rfl

/-- The frames have become a mapping at `addr`. -/
structure Mapped (s s' : TaskMemory σ) (held : List Frame) (addr : Nat) (frames : List Frame)
    (flags : PageFlags) : Prop where
  known : s'.known = s.known
  mappings : s'.mappings = s.mappings ++ [⟨addr,frames,flags⟩]
  own : Own s' held
  bytes : Memory.AgreeOn (InFrames (frames ++ (s.frames ++ held))) s.mem s'.mem
  tables : ∀ va, s.HasTable va → s'.HasTable va
  walk : s'.walk = mapWalk addr frames flags s.walk

/-- The frames could not be mapped and have been given back. -/
structure MapFailed (s s' : TaskMemory σ) (held : List Frame) (addr : Nat) (frames : List Frame)
    (flags : PageFlags) : Prop where
  own : Own s' held
  kept : Kept s s' (s.frames ++ held)
  tables : ∀ va, s.HasTable va → s'.HasTable va
  rwx : flags.rwx = true
  walk : FailedWalk addr flags (framePages 0 frames) s s'.walk

theorem mapFrame_mapped (h : Own s (frames++held)) (hva : addr < wordRange) :
    wp (mapFrame addr frames flags : MapAction σ Unit)
      (fun _ s' => Mapped s s' held addr frames flags)
      (fun _ s' => MapFailed s s' held addr frames flags) s := by
  have hperm : (s.frames++(frames++held)).Perm (frames++(s.frames++held)) := by
    rw [← append_assoc,← append_assoc]
    exact perm_append_comm.append_right _
  apply wp_mono (mapFrame_spec (h.custody.perm hperm))
  · rintro _ s1 ⟨hknown,hms,hc,hbytes,htables,hwalk⟩
    refine ⟨hknown,hms,⟨?_,?_⟩,hbytes,htables,hwalk⟩
    · rw [TaskMemory.frames,hms,framesOf_append,framesOf_singleton]
      refine hc.perm ?_
      rw [← append_assoc]
      exact perm_append_comm.append_right _
    · rw [hms]
      intro m hm
      rcases mem_append.mp hm with hm | hm
      · exact h.vas m hm
      · rw [mem_singleton.mp hm]
        exact hva
  · rintro e s1 ⟨hst,hrwx,hwalk⟩
    refine ⟨⟨?_,?_⟩,hst.kept,hst.tables,hrwx,hwalk⟩
    · rw [TaskMemory.frames,hst.kept.mappings]
      exact hst.custody
    · rw [hst.kept.mappings]
      exact h.vas

section

variable (h : Mapped s s' held addr frames flags)

include h

theorem Mapped.mem : ⟨addr,frames,flags⟩ ∈ s'.mappings := by
  rw [h.mappings]
  simp

theorem Mapped.listed (ho : Own s (frames++held)) (hva : pageSize ∣ va) :
    s'.listed va = s.listed va ++
      if Covers ⟨addr,frames,flags⟩ va then
        [((physAtOffset frames (va-(mappingRange ⟨addr,frames,flags⟩).1)).map (pageAt s.mem),
          flags)]
      else [] := by
  rw [TaskMemory.listed,h.mappings,filter_append,map_append]
  congr 1
  · apply map_congr_left
    intro m hm
    have hmem := mem_of_mem_filter hm
    have hsub : Memory.AgreeOn (InFrames m.frames) s.mem s'.mem := h.bytes.mono fun _ =>
      .mono fun f hf => mem_append_right _ (mem_append_left _ (mem_framesOf.mpr ⟨m,hmem,hf⟩))
    rw [listed_entry_congr (ho.shape m hmem) hva hsub]
  · have hsub : Memory.AgreeOn (InFrames frames) s.mem s'.mem := h.bytes.mono
      fun _ => .mono fun _ => mem_append_left _
    have hentry := listed_entry_congr (h.own.shape _ h.mem) hva hsub
    cases hc : Covers ⟨addr,frames,flags⟩ va with
    | false => simp [hc]
    | true => simp [hc,hentry]

section

variable (hw : WellFormed s (frames ++ held)) (hhalf : (UserMapping.mk addr frames flags).InHalf)
  (hpos : 0 < totalSize frames)
include hw hhalf hpos

theorem Mapped.tiled
        (hfree : ∀ m ∈ s.mappings, m.Clear ⟨addr,frames,flags⟩) : Tiled s'.mappings := by
  rw [h.mappings]
  exact hw.tiled.push (h.own.shape _ h.mem) hhalf hpos hfree

theorem Mapped.wellFormed
        (hfree : ∀ m ∈ s.mappings, m.Clear ⟨addr,frames,flags⟩) : WellFormed s' held := by
  have ht := h.tiled hw hhalf hpos hfree
  refine ⟨h.own,ht,?_⟩
  rw [h.mappings] at ht
  rw [h.mappings,h.walk]
  exact hw.leaves.push hw.tiled ht

end

section

variable (ho : Own s (frames ++ held)) (haddr : pageSize ∣ addr) (hlt : addr + totalSize frames < wordRange)
include ho haddr hlt

theorem Mapped.listed_range (hva : pageSize ∣ va) : s'.listed va = s.listed va ++
      if addr ≤ va ∧ va < addr+totalSize frames then
        [((physAtOffset frames (va-addr)).map (pageAt s.mem), flags)]
      else [] := by
  have hstart : (UserMapping.mk addr frames flags).start = addr := start_of_dvd haddr
  have hstop : (UserMapping.mk addr frames flags).stop = addr+totalSize frames :=
    stop_of_dvd haddr
  have hshape := h.own.shape _ h.mem
  have hrange := mappingRange_of_lt hshape (hstop ▸ hlt)
  have hcov : Covers _ va = true ↔ _ := covers_iff_of_lt hshape (hstop ▸ hlt)
  rw [hstart,hstop] at hrange hcov
  rw [h.listed ho hva,hrange]
  simp only [hcov]

theorem Mapped.listed_free
    (hnil : ∀ va, pageSize ∣ va → addr ≤ va → va < addr+totalSize frames → s.listed va = [])
    (hva : pageSize ∣ va) : s'.listed va = if addr ≤ va ∧ va < addr+totalSize frames then
        [((physAtOffset frames (va-addr)).map (pageAt s.mem), flags)]
      else s.listed va := by
  rw [h.listed_range ho haddr hlt hva]
  by_cases hin : addr ≤ va ∧ va < addr+totalSize frames
  · rw [if_pos hin,if_pos hin,hnil va hva hin.1 hin.2]
    rfl
  · rw [if_neg hin,if_neg hin,append_nil]

end

/-- The last mapping covers this range. -/
def LastRange (ms : MemorySet) (start stop : Nat) : Prop :=
  ∃ rest m, ms = rest ++ [m] ∧ mappingRange m = (start, stop)

theorem Mapped.lastRange (haddr : pageSize ∣ addr) (hlt : addr+totalSize frames < wordRange) :
    LastRange s'.mappings addr (addr+totalSize frames) := by
  refine ⟨_,_,h.mappings,?_⟩
  rw [mappingRange_of_lt (h.own.shape _ h.mem) (by rw [stop_of_dvd haddr]; exact hlt),
    start_of_dvd haddr,stop_of_dvd haddr]

/-- The range that was added ends where it should only if the frames have that size. -/
theorem Mapped.size_of_lastRange {n : Nat} (haddr : pageSize ∣ addr) (hfits : addr+n < wordRange)
    (hle : n ≤ totalSize frames) (hlast : LastRange s'.mappings addr (addr+n)) :
    totalSize frames = n := by
  obtain ⟨rest,m,hms,hrange⟩ := hlast
  rw [h.mappings] at hms
  obtain ⟨_,hlast⟩ := append_inj' hms rfl
  obtain rfl := (List.cons.inj hlast).1
  have hshape := h.own.shape _ h.mem
  have hsize := hshape.size
  rw [mappingRange_eq hshape,stop_of_dvd haddr] at hrange
  have hstop := (Prod.mk.inj hrange).2
  simp only [size,wrap,wordRange,physicalLimit] at *
  omega

end

theorem inHalf_of_canonical (haddr : pageSize ∣ addr) (hlt : addr+totalSize frames < wordRange)
    (hcanon : isCanonicalUserRange addr (addr+totalSize frames) = true) :
    (mk addr frames flags).InHalf := by
  have hstart : (mk addr frames flags).start = addr := start_of_dvd haddr
  have hstop : (mk addr frames flags).stop = addr+totalSize frames :=
    stop_of_dvd haddr
  simp only [isCanonicalUserRange,Bool.or_eq_true,decide_eq_true_eq] at hcanon
  exact ⟨by rw [hstop]; exact hlt,by rw [hstop,hstart]; exact hcanon⟩

theorem clear_of_listed (hw : WellFormed s held) (haddr : pageSize ∣ addr)
    (hpos : 0 < totalSize frames)
    (hnil : ∀ va, pageSize ∣ va → addr ≤ va → va < addr+totalSize frames → s.listed va = []) :
    ∀ m ∈ s.mappings, m.Clear ⟨addr,frames,flags⟩ := by
  intro m hm
  have hstart : (mk addr frames flags).start = addr := start_of_dvd haddr
  have hstop : (mk addr frames flags).stop = addr+totalSize frames :=
    stop_of_dvd haddr
  have hclear := hw.tiled.clear_of_listed haddr (by omega) hnil m hm
  rw [Clear,hstart,hstop]
  exact hclear.symm

theorem MapFailed.wellFormed (h : MapFailed s s' held addr frames flags)
    (hw : WellFormed s (frames++held)) (haddr : addr < wordRange)
    (hhalf : (UserMapping.mk addr frames flags).InHalf)
    (hfree : ∀ m ∈ s.mappings, m.Clear ⟨addr,frames,flags⟩) : WellFormed s' held := by
  refine ⟨h.own,?_,?_⟩
  · rw [h.kept.mappings]
    exact hw.tiled
  · rw [h.kept.mappings]
    exact hw.leaves.failed hw.tiled (hw.own.held_shape haddr) hhalf hfree h.walk

end Athera
