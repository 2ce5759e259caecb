import Athera.Mm.Cutting

/-!
# Unmapping a range

What the pages look like after `unmap_range`, and exactly when `munmap` removes the pages of its
range and no others.
-/

namespace Athera

open Framework Action List UserMapping

variable {σ : Type} [LawfulFrameAllocator σ] {s s' : TaskMemory σ} {held : List Frame}
  {start stop va : Nat} {buffers : List Buffer} {m : UserMapping}

theorem Tiled.pagePhys_eq {ms : MemorySet} (h : Tiled ms) (hm : m ∈ ms) (hc : Covers m va = true) :
    pagePhys ms va = (physAtOffset m.frames (va-m.start)).map some := by
  rw [Athera.pagePhys_eq,h.find_covers hm hc]
  simp only [h.range_eq hm]

section

variable (h : Cut s s' held start stop buffers) {b : Buffer}
include h

theorem Cut.listed_piece (hw : WellFormed s held)
    (ht : Tiled s'.mappings) (hb : b ∈ buffers) (hm : m ∈ s.mappings)
    (hflags : b.2.flags = m.flags) (hva : pageSize ∣ va) (hlt : va < wordRange)
    (hc : Covers m va = true) (hk : pageSize ∣ b.2.va) (hlo : b.2.va ≤ va)
    (hhi : va < b.2.va+b.2.size) (hstop : va < (bufferMapping b).stop) :
    s'.listed va = s.listed va := by
  have hmem : bufferMapping b ∈ s'.mappings := by
    rw [h.mappings]
    exact mem_append_right _ (mem_map_of_mem hb)
  have hstart : (bufferMapping b).start = b.2.va := Nat.div_mul_cancel hk
  have hc' : Covers (bufferMapping b) va = true := by
    rw [ht.covers_iff hmem,hstart]
    exact ⟨hlo,hstop⟩
  have hin := (hw.tiled.covers_iff hm).mp hc
  have hoff : va-m.start < m.size := by
    simp only [UserMapping.stop] at hin
    omega
  have hoff' : va-b.2.va < totalSize b.1 := by
    have hsum : b.2.va+totalSize b.1 = (bufferMapping b).stop := by
      rw [UserMapping.stop,hstart]
      rfl
    omega
  obtain ⟨src,hsrc⟩ := physAtOffset_isSome hoff
  obtain ⟨dst,hdst⟩ := physAtOffset_isSome hoff'
  have hfilled := (h.filled b hb).page (va-b.2.va) ?_ src dst ?_ hdst ?_
  · rw [ht.listed_eq hmem hc',hw.tiled.listed_eq hm hc,hstart,hsrc]
    simp only [bufferMapping,hdst,Option.map_some,hfilled,hflags]
  · exact mem_stepBy_zero.mpr ⟨Nat.dvd_sub hva hk,by omega⟩
  · rw [Nat.add_sub_cancel' hlo,wrap_of_lt hlt,hw.tiled.pagePhys_eq hm hc,hsrc]
    rfl
  · intro i hi
    obtain ⟨f,hf,ha⟩ := inFrames_page (hw.tiled.shape m hm).frames
      (Nat.dvd_sub hva m.dvd_start) hsrc i hi
    exact ⟨f,mem_append_left _ (mem_framesOf.mpr ⟨m,hm,hf⟩),ha⟩

theorem Cut.listed_rest (hw : WellFormed s held)
    (ht : Tiled s'.mappings) (hm : m ∈ s.mappings) (hno : overlaps m start stop = false)
    (hva : pageSize ∣ va) (hc : Covers m va = true) : s'.listed va = s.listed va := by
  have hmem : m ∈ s.mappings.filter fun m => !overlaps m start stop :=
    mem_filter.mpr ⟨hm,by simp [hno]⟩
  have hmem' : m ∈ s'.mappings := by
    rw [h.mappings]
    exact mem_append_left _ hmem
  have hsub : Memory.AgreeOn (InFrames m.frames) s.mem s'.mem := h.bytes.mono
    fun _ => .mono fun f hf => mem_append_left _ (mem_framesOf.mpr ⟨m,hmem,hf⟩)
  have hentry := listed_entry_congr (hw.tiled.shape m hm) hva hsub
  rw [hw.tiled.range_eq hm] at hentry
  rw [ht.listed_eq hmem' hc,hw.tiled.listed_eq hm hc,hentry]

theorem Cut.covered {p : UserMapping} (hp : p ∈ s'.mappings) :
    (p ∈ s.mappings ∧ overlaps p start stop = false) ∨ ∃ b ∈ buffers, p = bufferMapping b := by
  rw [h.mappings] at hp
  rcases mem_append.mp hp with hp | hp
  · obtain ⟨hp,hno⟩ := mem_filter.mp hp
    exact Or.inl ⟨hp,by simpa using hno⟩
  · obtain ⟨b,hb,rfl⟩ := mem_map.mp hp
    exact Or.inr ⟨b,hb,rfl⟩

end

omit [LawfulFrameAllocator σ] in
theorem Buffers.exists_mem (h : Buffers s start stop buffers) {k : Keep} (hm : m ∈ s.mappings)
    (hk : k ∈ keepsOf start stop m) : ∃ b ∈ buffers, b.2 = k := by
  have hmem : k ∈ buffers.map Prod.snd := by
    rw [h.keeps]
    exact mem_flatMap.mpr ⟨m,hm,hk⟩
  exact mem_map.mp hmem

section

variable (h : Cut s s' held start stop buffers) (hw : WellFormed s held)
  (hstart : pageSize ∣ start) (hlt : start < stop) (hb : CutBacked s.mappings start stop)
  (ha : CutAligned s.mappings stop)

include h hw hstart hlt hb ha

theorem Cut.listed_inside (hlo : start ≤ va) (hhi : va < stop) : s'.listed va = [] := by
  have ht := (h.wellFormed hw hstart hlt hb).tiled
  rw [listed_eq_nil_iff]
  intro p hp
  cases hc : Covers p va with
  | false => rfl
  | true =>
    rcases h.covered hp with ⟨hm,hno⟩ | ⟨b,hbm,rfl⟩
    · have hin := (hw.tiled.covers_iff hm).mp hc
      have hov : overlaps p start stop = true := (hw.tiled.overlaps_iff hm).mpr (by omega)
      simp [hno] at hov
    · obtain ⟨m,hm,hk⟩ := h.toBuffers.keep_mem hbm
      have hin := (ht.covers_iff hp).mp hc
      rw [bufferMapping_start,bufferMapping_stop (h.toBuffers.sizes b hbm)] at hin
      obtain ⟨⟨h1,_⟩,_⟩ := (hw.tiled.mem_keepsOf hm).mp hk
      obtain ⟨_,_,_,_,hside⟩ := hw.tiled.keep_bounds hm hstart hb hk
      rcases hside with hside | ⟨hlo',hhi',hkva⟩
      · omega
      · have hr : stop < m.stop := by
          rcases ((hw.tiled.mem_keepsOf hm).mp hk).2 with ⟨hl,hk'⟩ | ⟨hr,_⟩
          · have : b.2.va = m.start := by rw [hk']
            omega
          · exact hr
        have hd := ha m hm
        rw [hw.tiled.range_eq hm] at hd
        rw [hlo',Nat.div_mul_cancel (hd ⟨h1,hr⟩)] at hin
        omega

theorem Cut.listed_outside (hva : pageSize ∣ va) (hvalt : va < wordRange)
    (hout : va < start ∨ stop ≤ va) : s'.listed va = s.listed va := by
  have hw' := h.wellFormed hw hstart hlt hb
  have ht := hw'.tiled
  rcases covered_or_not s.mappings va with ⟨m,hm,hc⟩ | hnone
  · cases hov : overlaps m start stop with
    | false => exact h.listed_rest hw ht hm hov hva hc
    | true =>
      have hin := (hw.tiled.covers_iff hm).mp hc
      have ho := (hw.tiled.overlaps_iff hm).mp hov
      have hs := hw.tiled.shape m hm
      rcases hout with hout | hout
      · obtain ⟨b,hbm,hbk⟩ := h.toBuffers.exists_mem hm
          ((hw.tiled.mem_keepsOf hm).mpr ⟨ho,Or.inl ⟨by omega,rfl⟩⟩)
        have hpos : m.start < start := by omega
        have hhi := (left_hi (f := m.flags) hs hstart hpos ho.2 (hb.left hw.tiled hm hpos ho.2)).2
        have hstop := bufferMapping_stop (h.toBuffers.sizes b hbm)
        rw [hbk,hhi] at hstop
        refine h.listed_piece hw ht hbm hm ?_ hva hvalt hc ?_ ?_ ?_ ?_ <;>
          simp only [hbk,hstop]
        · exact m.dvd_start
        · exact hin.1
        · omega
        · exact hout
      · have hr : stop < m.stop := by omega
        obtain ⟨b,hbm,hbk⟩ := h.toBuffers.exists_mem hm
          ((hw.tiled.mem_keepsOf hm).mpr ⟨ho,Or.inr ⟨hr,rfl⟩⟩)
        have hhi := right_hi (f := m.flags) hs hr ho.1 (hb.right hw.tiled hm ho.1 hr)
        have hstop := bufferMapping_stop (h.toBuffers.sizes b hbm)
        rw [hbk,hhi] at hstop
        have hd := ha m hm
        rw [hw.tiled.range_eq hm] at hd
        refine h.listed_piece hw ht hbm hm ?_ hva hvalt hc ?_ ?_ ?_ ?_ <;>
          simp only [hbk,hstop]
        · exact hd ⟨ho.1,hr⟩
        · exact hout
        · omega
        · exact hin.2
  · rw [listed_eq_nil_iff.mpr hnone,listed_eq_nil_iff]
    intro p hp
    cases hc : Covers p va with
    | false => rfl
    | true =>
      rcases h.covered hp with ⟨hm,_⟩ | ⟨b,hbm,rfl⟩
      · rw [hnone p hm] at hc
        exact hc.symm
      · obtain ⟨m,hm,hk⟩ := h.toBuffers.keep_mem hbm
        have hin := (ht.covers_iff hp).mp hc
        rw [bufferMapping_start,bufferMapping_stop (h.toBuffers.sizes b hbm)] at hin
        obtain ⟨hlo,hhi,_⟩ := hw.tiled.keep_bounds hm hstart hb hk
        have hcm : Covers m va = true := (hw.tiled.covers_iff hm).mpr (by omega)
        rw [hnone m hm] at hcm
        exact hcm.symm

end

/-- The mappings list nothing inside the range and what they listed outside. -/
structure CutListed (s s' : TaskMemory σ) (start stop : Nat) : Prop where
  inside : ∀ va, pageSize ∣ va → start ≤ va → va < stop → s'.listed va = []
  outside : ∀ va, pageSize ∣ va → va < wordRange → va < start ∨ stop ≤ va →
    s'.listed va = s.listed va

section

variable (h : Cut s s' held start stop buffers) (hw : WellFormed s held)
  (hstart : pageSize ∣ start) (hlt : start < stop) (hl : CutListed s s' start stop)

include h hw

/-- A piece comes from the mapping around one end of the range. -/
theorem Cut.piece_cases (hb : b ∈ buffers) :
    (∃ m ∈ s.mappings, m.start < start ∧ start < m.stop ∧ b.2 = ⟨m.start,start-m.start,m.flags⟩) ∨
    ∃ m ∈ s.mappings, m.start < stop ∧ stop < m.stop ∧ b.2 = ⟨stop,m.stop-stop,m.flags⟩ := by
  obtain ⟨m,hm,hk⟩ := h.toBuffers.keep_mem hb
  obtain ⟨⟨h1,h2⟩,⟨h3,hk⟩ | ⟨h3,hk⟩⟩ := (hw.tiled.mem_keepsOf hm).mp hk
  · exact Or.inl ⟨m,hm,h3,h2,hk⟩
  · exact Or.inr ⟨m,hm,h1,h3,hk⟩

theorem Cut.exists_piece (hm : m ∈ s.mappings) (ho : overlaps m start stop = true)
    (hc : Covers m va = true) (hlist : s'.listed va = s.listed va) :
    ∃ b ∈ buffers, Covers (bufferMapping b) va = true := by
  have hne : s'.listed va ≠ [] := by
    rw [hlist,hw.tiled.listed_eq hm hc]
    simp
  rcases covered_or_not s'.mappings va with ⟨p,hp,hcp⟩ | hnone
  · rcases h.covered hp with ⟨hp,hno⟩ | ⟨b,hb,rfl⟩
    · obtain rfl := hw.tiled.covers_unique hm hp hc hcp
      rw [ho] at hno
      exact absurd hno (by simp)
    · exact ⟨b,hb,hcp⟩
  · exact absurd (listed_eq_nil_iff.mpr hnone) hne

omit hw in
theorem Cut.piece_shape (hb : b ∈ buffers) :
    bufferMapping b ∈ s'.mappings ∧ (bufferMapping b).Shape ∧ (bufferMapping b).stop = b.2.hi := by
  have hmem : bufferMapping b ∈ s'.mappings := by
    rw [h.mappings]
    exact mem_append_right _ (mem_map_of_mem hb)
  exact ⟨hmem,h.own.shape _ hmem,bufferMapping_stop (h.toBuffers.sizes b hb)⟩

include hstart hlt hl

theorem Cut.left_exact (hm : m ∈ s.mappings) (h1 : m.start < start) (h2 : start < m.stop) :
    backing (start-m.start) = start-m.start := by
  by_contra hne
  have hd := m.dvd_start
  have hwrap := (hw.tiled.inHalf m hm).lt
  have hle : start-m.start ≤ backing (start-m.start) := le_backing (by omega)
  have ho : m.start < stop ∧ start < m.stop := ⟨by omega,h2⟩
  obtain ⟨b,hb,hbk⟩ := h.toBuffers.exists_mem hm
    ((hw.tiled.mem_keepsOf hm).mpr ⟨ho,Or.inl ⟨h1,rfl⟩⟩)
  obtain ⟨hmem,hshape,hstop⟩ := h.piece_shape hb
  have hlo : b.2.lo = m.start := by
    rw [hbk]
    exact Nat.div_mul_cancel hd
  have hhi : b.2.hi = m.start+backing (start-m.start) := by
    rw [Keep.hi,hlo,hbk]
  by_cases hfit : (bufferMapping b).stop < wordRange
  · have hc : Covers (bufferMapping b) start = true := by
      rw [covers_iff_of_lt hshape hfit,bufferMapping_start]
      omega
    have hnil := listed_eq_nil_iff.mp (hl.inside start hstart (le_refl _) hlt) _ hmem
    rw [hc] at hnil
    exact absurd hnil (by simp)
  · have hcm : Covers m m.start = true := (hw.tiled.covers_iff hm).mpr (by omega)
    have hsame := hl.outside m.start hd (by omega) (Or.inl h1)
    obtain ⟨b',hb',hc'⟩ := h.exists_piece hw hm ((hw.tiled.overlaps_iff hm).mpr ho) hcm hsame
    obtain ⟨_,hshape',hstop'⟩ := h.piece_shape hb'
    have hcover := covers_offset hshape' hc'
    rw [bufferMapping_start] at hcover
    rcases h.piece_cases hw hb' with ⟨m',hm',h1',h2',hk'⟩ | ⟨m',_,_,_,hk'⟩
    · obtain rfl := hw.tiled.unique_at start hm hm' (by omega) (by omega)
      rw [covers_of_wrap hshape' (by rw [hstop',hk',← hbk]; omega)] at hc'
      exact absurd hc' (by simp)
    · have hlo' : b'.2.lo = stop/pageSize*pageSize := by rw [hk']; rfl
      simp only [pageSize] at hlo' hstart
      omega

theorem Cut.right_exact (hm : m ∈ s.mappings) (h1 : m.start < stop) (h2 : stop < m.stop) :
    pageSize ∣ stop ∧ backing (m.stop-stop) = m.stop-stop := by
  have hdstop := dvd_stop (hw.tiled.shape m hm)
  have hwrap := (hw.tiled.inHalf m hm).lt
  have hle : m.stop-stop ≤ backing (m.stop-stop) := le_backing (by omega)
  have ho : m.start < stop ∧ start < m.stop := ⟨h1,by omega⟩
  obtain ⟨b,hb,hbk⟩ := h.toBuffers.exists_mem hm
    ((hw.tiled.mem_keepsOf hm).mpr ⟨ho,Or.inr ⟨h2,rfl⟩⟩)
  obtain ⟨hmem,hshape,hstop⟩ := h.piece_shape hb
  have hlo : b.2.lo = stop/pageSize*pageSize := by
    rw [hbk]
    rfl
  have hhi : b.2.hi = stop/pageSize*pageSize+backing (m.stop-stop) := by
    rw [Keep.hi,hlo,hbk]
  have hfloor : start ≤ stop/pageSize*pageSize ∧ stop/pageSize*pageSize ≤ stop := by
    simp only [pageSize] at hstart ⊢
    omega
  have hfit : (bufferMapping b).stop < wordRange := by
    by_contra hfit
    have hbig : pageSize < m.stop-stop := by
      by_contra hsmall
      rw [hstop,hhi,backing_of_le_pageSize (by omega) (by omega)] at hfit
      simp only [pageSize] at hdstop hfit
      omega
    have hcm : Covers m (m.stop-pageSize) = true :=
      (hw.tiled.covers_iff hm).mpr (by simp only [pageSize] at hbig ⊢; omega)
    have hpage : pageSize ∣ m.stop-pageSize := Nat.dvd_sub hdstop (dvd_refl _)
    have hsame := hl.outside _ hpage (by omega) (Or.inr (by omega))
    obtain ⟨b',hb',hc'⟩ := h.exists_piece hw hm ((hw.tiled.overlaps_iff hm).mpr ho) hcm hsame
    obtain ⟨_,hshape',hstop'⟩ := h.piece_shape hb'
    have hcover := covers_offset hshape' hc'
    rcases h.piece_cases hw hb' with ⟨m',hm',h1',h2',hk'⟩ | ⟨m',hm',h1',h2',hk'⟩
    · have hexact := h.left_exact hw hstart hlt hl hm' h1' h2'
      have hend : (bufferMapping b').stop = start := by
        rw [hstop',Keep.hi,hk',hexact,Keep.lo,Nat.div_mul_cancel m'.dvd_start]
        exact Nat.add_sub_cancel' (le_of_lt h1')
      simp only [UserMapping.stop] at hend
      omega
    · obtain rfl := hw.tiled.unique_at stop hm hm' (by omega) (by omega)
      rw [covers_of_wrap hshape' (by rw [hstop',hk',← hbk]; omega)] at hc'
      exact absurd hc' (by simp)
  have hcov : ∀ va, stop/pageSize*pageSize ≤ va →
      va < stop/pageSize*pageSize+backing (m.stop-stop) → Covers (bufferMapping b) va = true := by
    intro va hva1 hva2
    rw [covers_iff_of_lt hshape hfit,bufferMapping_start,hstop,hlo,hhi]
    exact ⟨hva1,hva2⟩
  have halign : pageSize ∣ stop := by
    by_contra hno
    have hlt' : stop/pageSize*pageSize < stop := by
      simp only [pageSize] at hno ⊢
      omega
    have hnil := listed_eq_nil_iff.mp
      (hl.inside _ (Dvd.intro_left _ rfl) hfloor.1 hlt') _ hmem
    rw [hcov _ (le_refl _) (by omega)] at hnil
    exact absurd hnil (by simp)
  by_contra hne
  have hbig : Covers (bufferMapping b) m.stop = true := by
    apply hcov
    · omega
    · rw [Nat.div_mul_cancel halign]
      omega
  have hsame := hl.outside m.stop hdstop hwrap (Or.inr (le_of_lt h2))
  rcases covered_or_not s.mappings m.stop with ⟨m2,hm2,hc2⟩ | hnone
  · have hin2 := (hw.tiled.covers_iff hm2).mp hc2
    have hno2 : overlaps m2 start stop = false := by
      cases hov : overlaps m2 start stop with
      | false => rfl
      | true =>
        have hov2 := (hw.tiled.overlaps_iff hm2).mp hov
        obtain rfl := hw.tiled.unique_at stop hm hm2 (by omega) (by omega)
        omega
    have hlen : (s'.listed m.stop).length = 1 := by
      rw [hsame,hw.tiled.listed_eq hm2 hc2]
      rfl
    rw [TaskMemory.listed,length_map,h.mappings,filter_append,length_append] at hlen
    have hleft : 0 < ((s.mappings.filter fun m => !overlaps m start stop).filter
        fun p => Covers p m.stop).length :=
      length_pos_of_mem (mem_filter.mpr
        ⟨mem_filter.mpr ⟨hm2,by simp [hno2]⟩,hc2⟩)
    have hright : 0 < ((buffers.map bufferMapping).filter fun p => Covers p m.stop).length :=
      length_pos_of_mem (mem_filter.mpr ⟨mem_map_of_mem hb,hbig⟩)
    omega
  · rw [listed_eq_nil_iff.mpr hnone] at hsame
    have hnil := listed_eq_nil_iff.mp hsame _ hmem
    rw [hbig] at hnil
    exact absurd hnil (by simp)

end

section

variable (h : Cut s s' held start stop buffers) (hw : WellFormed s held) (hstart : pageSize ∣ start)
include h hw hstart

/-- A cut lists exactly what it should if and only if what stays consists of whole blocks from
a page boundary on. -/
theorem Cut.listed_iff (hlt : start < stop) :
    CutListed s s' start stop ↔ CutBacked s.mappings start stop ∧ CutAligned s.mappings stop := by
  constructor
  · intro hl
    refine ⟨?_,?_⟩
    · intro r hr
      obtain ⟨m,hm,rfl⟩ := mem_map.mp hr
      have hsize := (hw.tiled.shape m hm).size
      have hd := m.dvd_start
      have hdstop := dvd_stop (hw.tiled.shape m hm)
      rw [hw.tiled.range_eq hm]
      refine ⟨?_,?_⟩
      · rintro ⟨h1,h2⟩
        have hexact := h.left_exact hw hstart hlt hl hm h1 h2
        have hbound : start-m.start+pageSize ≤ wordRange := by
          simp only [UserMapping.stop,physicalLimit,pageSize,wordRange] at *
          omega
        rw [← backing_eq_alignUp_iff hbound,hexact]
        exact (alignUp_of_dvd (Nat.dvd_sub hstart hd) hbound).symm
      · rintro ⟨h1,h2⟩
        obtain ⟨halign,hexact⟩ := h.right_exact hw hstart hlt hl hm h1 h2
        have hbound : m.stop-stop+pageSize ≤ wordRange := by
          simp only [UserMapping.stop,physicalLimit,pageSize,wordRange] at *
          omega
        rw [← backing_eq_alignUp_iff hbound,hexact]
        exact (alignUp_of_dvd (Nat.dvd_sub hdstop halign) hbound).symm
    · intro m hm
      rw [hw.tiled.range_eq hm]
      rintro ⟨h1,h2⟩
      exact (h.right_exact hw hstart hlt hl hm h1 h2).1
  · rintro ⟨hb,ha⟩
    exact ⟨fun va _ => h.listed_inside hw hstart hlt hb ha,
      fun va => h.listed_outside hw hstart hlt hb ha⟩

/-- The pages after a cut are those before without the range exactly under the same condition. -/
theorem Cut.view_iff (hlt : start < stop) (hstop : stop ≤ wordRange) :
    (s.view.unmap start stop).Agree s'.view ↔
      CutBacked s.mappings start stop ∧ CutAligned s.mappings stop := by
  rw [← h.listed_iff hw hstart hlt]
  constructor
  · intro hview
    refine ⟨?_,?_⟩
    · intro va hva hlo hhi
      have hv := hview va hva (by omega)
      rw [MemoryView.unmap,if_pos ⟨hhi,by simp only [pageSize]; omega⟩] at hv
      exact congrArg PageView.listed hv
    · intro va hva hvalt hout
      have hv := hview va hva hvalt
      rw [MemoryView.unmap,if_neg] at hv
      · exact congrArg PageView.listed hv
      · simp only [pageSize] at hva hstart ⊢
        omega
  · intro hl va hva hvalt
    obtain ⟨hb,_⟩ := (h.listed_iff hw hstart hlt).mp hl
    have hw' := h.wellFormed hw hstart hlt hb
    rw [MemoryView.unmap]
    split
    · rename_i hin
      apply hw'.view_absent hva hvalt
      apply hl.inside va hva _ hin.1
      simp only [pageSize] at hva hstart hin
      omega
    · rename_i hin
      apply hw.view_eq hw' hva hvalt
      apply hl.outside va hva hvalt
      simp only [pageSize] at hin
      omega

end

variable {addr length : Nat}

structure MunmapArgs (addr length : Nat) : Prop where
  aligned : pageSize ∣ addr
  pos : 0 < length
  fits : addr + length < wordRange

theorem munmap_spec (h : Own s []) : wp (munmap addr length : MapAction σ Unit)
      (fun _ s' => MunmapArgs addr length ∧ ∃ buffers, Cut s s' [] addr (addr+length) buffers)
      (fun _ s' => s' = s ∨ MunmapArgs addr length ∧ s'.known = s.known ∧ Own s' [] ∧
        (Same s s' s.frames ∨
          ∃ buffers, Buffers s addr (addr+length) buffers ∧ LacksTable s buffers)) s := by
  unfold munmap
  simp only [wp_bind,wp_ite,wp_throw,wp_get,wp_orThrow,checkedAdd_eq_some]
  refine ⟨fun _ => Or.inl trivial,?_⟩
  intro hargs
  refine ⟨?_,fun _ => Or.inl trivial⟩
  rintro stop ⟨rfl,hfits⟩
  refine ⟨fun _ => Or.inl trivial,?_⟩
  intro _
  have hok : MunmapArgs addr length := by
    rw [not_or,not_not] at hargs
    exact ⟨Nat.dvd_of_mod_eq_zero hargs.1,by omega,hfits⟩
  apply wp_mono (unmapRange_spec h)
  · intro _ s' hcut
    exact ⟨hok,hcut⟩
  · rintro e s' ⟨hknown,hown,_,hfail⟩
    rw [append_nil] at hfail
    exact Or.inr ⟨hok,hknown,hown,hfail⟩

end Athera
