import Athera.Mm.View

/-!
# Cutting a range out of a memory set

The pieces that stay when a range is unmapped, and the sizes they really get.
-/

namespace Athera

open Framework Action List UserMapping

/-- The range a piece that stays is mapped to, with the bytes that really back it. -/
def Keep.lo (k : Keep) : Nat := k.va / pageSize * pageSize
def Keep.hi (k : Keep) : Nat := k.lo + backing k.size

/-- What the ranges have before and after the cut consists of whole blocks. -/
def RangesBacked (rs : List (Nat × Nat)) (start stop : Nat) : Prop :=
  ∀ r ∈ rs, (r.1 < start ∧ start < r.2 → WholeBlocks (alignUp (start - r.1))) ∧
    (r.1 < stop ∧ stop < r.2 → WholeBlocks (alignUp (r.2 - stop)))

instance (rs : List (Nat × Nat)) (start stop : Nat) : Decidable (RangesBacked rs start stop) :=
  inferInstanceAs (Decidable (∀ r ∈ rs, _ ∧ _))

abbrev CutBacked (ms : MemorySet) (start stop : Nat) : Prop :=
  RangesBacked (ms.map mappingRange) start stop

/-- Nothing is left of a page that the range ends in. -/
def CutAligned (ms : MemorySet) (stop : Nat) : Prop :=
  ∀ m ∈ ms, (mappingRange m).1 < stop ∧ stop < (mappingRange m).2 → pageSize ∣ stop

instance (ms : MemorySet) (stop : Nat) : Decidable (CutAligned ms stop) :=
  inferInstanceAs (Decidable (∀ m ∈ ms, _ → _))

section

variable {ms : MemorySet} {m : UserMapping} {k : Keep} {start stop : Nat}

theorem Tiled.mem_keepsOf (h : Tiled ms) (hm : m ∈ ms) :
    k ∈ keepsOf start stop m ↔ (m.start < stop ∧ start < m.stop) ∧
      ((m.start < start ∧ k = ⟨m.start,start-m.start,m.flags⟩) ∨
        (stop < m.stop ∧ k = ⟨stop,m.stop-stop,m.flags⟩)) := by
  unfold keepsOf
  by_cases ho : overlaps m start stop = true
  · have hov := (h.overlaps_iff hm).mp ho
    simp only [ho,if_true,h.range_eq hm,mem_append,hov,true_and]
    apply or_congr
    · by_cases hl : m.start < start
      · simp [Nat.max_eq_right (le_of_lt hl)]
      · simp [hl]
    · by_cases hr : stop < m.stop
      · simp [Nat.min_eq_right (le_of_lt hr)]
      · simp [hr]
  · have hov : ¬ (m.start < stop ∧ start < m.stop) := fun hall => ho ((h.overlaps_iff hm).mpr hall)
    simp [ho,hov]

theorem UserMapping.dvd_stop (hs : m.Shape) : pageSize ∣ m.stop :=
  Nat.dvd_add m.dvd_start (dvd_totalSize hs.frames)

theorem left_hi (hs : m.Shape) (hstart : pageSize ∣ start) (h : m.start < start)
    (hlt : start < m.stop) {f : PageFlags}
    (hb : backing (start-m.start) = alignUp (start-m.start)) :
    (Keep.mk m.start (start-m.start) f).lo = m.start ∧
      (Keep.mk m.start (start-m.start) f).hi = start := by
  have hd := m.dvd_start
  have hsize := hs.size
  have hlo : (Keep.mk m.start (start-m.start) f).lo = m.start := Nat.div_mul_cancel hd
  have hal : alignUp (start-m.start) = start-m.start := by
    apply alignUp_of_dvd (Nat.dvd_sub hstart hd)
    simp only [stop,physicalLimit,wordRange,pageSize] at *
    omega
  refine ⟨hlo,?_⟩
  rw [Keep.hi]
  simp only [hb]
  omega

theorem right_hi (hs : m.Shape) (h : stop < m.stop) (hgt : m.start < stop) {f : PageFlags}
    (hb : backing (m.stop-stop) = alignUp (m.stop-stop)) :
    (Keep.mk stop (m.stop-stop) f).hi = m.stop := by
  have hd := dvd_stop hs
  have hsize := hs.size
  have hal : alignUp (m.stop-stop) = (m.stop-stop+(pageSize-1))/pageSize*pageSize := by
    apply alignUp_eq
    simp only [UserMapping.stop,physicalLimit,wordRange,pageSize] at *
    omega
  simp only [Keep.hi,Keep.lo,hb,hal]
  simp only [pageSize] at hd ⊢
  omega

theorem CutBacked.left (hb : CutBacked ms start stop) (h : Tiled ms) (hm : m ∈ ms)
    (hl : m.start < start) (hlt : start < m.stop) :
    backing (start-m.start) = alignUp (start-m.start) := by
  have hsize := (h.shape m hm).size
  have hall := (hb _ (mem_map_of_mem hm)).1
  rw [h.range_eq hm] at hall
  refine (backing_eq_alignUp_iff ?_).mpr (hall ⟨hl,hlt⟩)
  simp only [UserMapping.stop,physicalLimit,wordRange,pageSize] at *
  omega

theorem CutBacked.right (hb : CutBacked ms start stop) (h : Tiled ms) (hm : m ∈ ms)
    (hgt : m.start < stop) (hr : stop < m.stop) :
    backing (m.stop-stop) = alignUp (m.stop-stop) := by
  have hsize := (h.shape m hm).size
  have hall := (hb _ (mem_map_of_mem hm)).2
  rw [h.range_eq hm] at hall
  refine (backing_eq_alignUp_iff ?_).mpr (hall ⟨hgt,hr⟩)
  simp only [UserMapping.stop,physicalLimit,wordRange,pageSize] at *
  omega

theorem Tiled.keep_bounds (h : Tiled ms) (hm : m ∈ ms) (hstart : pageSize ∣ start)
    (hb : CutBacked ms start stop) (hk : k ∈ keepsOf start stop m) :
    m.start ≤ k.lo ∧ k.hi ≤ m.stop ∧ k.lo < k.hi ∧ k.flags = m.flags ∧
      (k.hi ≤ start ∨ (k.lo = stop/pageSize*pageSize ∧ k.hi = m.stop ∧ k.va = stop)) := by
  have hs := h.shape m hm
  obtain ⟨⟨h1,h2⟩,hcase⟩ := (h.mem_keepsOf hm).mp hk
  rcases hcase with ⟨hl,rfl⟩ | ⟨hr,rfl⟩
  · obtain ⟨hlo,hhi⟩ := left_hi hs hstart hl h2 (hb.left h hm hl h2)
    rw [hlo,hhi]
    exact ⟨le_refl _,le_of_lt h2,hl,rfl,Or.inl (le_refl _)⟩
  · have hhi := right_hi (f := m.flags) hs hr h1 (hb.right h hm h1 hr)
    rw [hhi]
    have hd := m.dvd_start
    refine ⟨?_,le_refl _,?_,rfl,Or.inr ⟨rfl,rfl,rfl⟩⟩
    · simp only [Keep.lo,pageSize] at hd ⊢
      omega
    · exact lt_of_le_of_lt (Nat.div_mul_le_self _ _) hr

end

variable {σ : Type} {s s' : TaskMemory σ} {start stop : Nat} {buffers : List Buffer}

theorem bufferMapping_start (b : Buffer) : (bufferMapping b).start = b.2.lo := rfl

theorem bufferMapping_stop {b : Buffer} (h : b.1.map Block.size = segmentSizes b.2.size b.2.size) :
    (bufferMapping b).stop = b.2.hi := by
  rw [stop]
  congr 1
  exact totalSize_of_segments h

theorem Buffers.keep_mem (h : Buffers s start stop buffers) {b : Buffer} (hb : b ∈ buffers) :
    ∃ m ∈ s.mappings, b.2 ∈ keepsOf start stop m := by
  have hmem : b.2 ∈ buffers.map Prod.snd := mem_map_of_mem hb
  rw [h.keeps] at hmem
  exact mem_flatMap.mp hmem

theorem Tiled.keeps_pairwise {ms : MemorySet} (h : Tiled ms) (hstart : pageSize ∣ start)
    (hlt : start < stop) (hb : CutBacked ms start stop) :
    (ms.flatMap (keepsOf start stop)).Pairwise fun k k' => k.hi ≤ k'.lo ∨ k'.hi ≤ k.lo := by
  rw [pairwise_flatMap]
  refine ⟨?_,?_⟩
  · intro m hm
    have hs := h.shape m hm
    unfold keepsOf
    by_cases ho : overlaps m start stop = true
    · have hov := (h.overlaps_iff hm).mp ho
      simp only [ho,h.range_eq hm]
      by_cases hl : m.start < max m.start start
      · by_cases hr : min m.stop stop < m.stop
        · simp only [hl,hr,if_true]
          have hl' : m.start < start := by omega
          have hr' : stop < m.stop := by omega
          rw [Nat.max_eq_right (le_of_lt hl'),Nat.min_eq_right (le_of_lt hr')]
          have hleft := left_hi (f := m.flags) hs hstart hl' hov.2 (hb.left h hm hl' hov.2)
          have hlo : start ≤ (Keep.mk stop (m.stop-stop) m.flags).lo := by
            simp only [Keep.lo,pageSize] at hstart ⊢
            omega
          simp only [singleton_append,pairwise_cons,mem_singleton,forall_eq,
            not_mem_nil,false_implies,implies_true,List.Pairwise.nil,and_true]
          left
          rw [hleft.2]
          exact hlo
        · simp [hl,hr]
      · by_cases hr : min m.stop stop < m.stop
        · simp [hl,hr]
        · simp [hl,hr]
    · simp [ho]
  · refine h.apart.imp_of_mem ?_
    intro m m' hm hm' hclear k hk k' hk'
    obtain ⟨hlo,hhi,_⟩ := h.keep_bounds hm hstart hb hk
    obtain ⟨hlo',hhi',_⟩ := h.keep_bounds hm' hstart hb hk'
    simp only [Clear] at hclear
    omega

theorem Buffers.tiled (h : Buffers s start stop buffers) (ht : Tiled s.mappings)
    (hstart : pageSize ∣ start) (hlt : start < stop) (hb : CutBacked s.mappings start stop)
    (hshape : ∀ b ∈ buffers, (bufferMapping b).Shape) :
    Tiled ((s.mappings.filter fun m => !overlaps m start stop)++buffers.map bufferMapping) := by
  have hfilter : Tiled (s.mappings.filter fun m => !overlaps m start stop) :=
    ht.sublist filter_sublist
  have hpiece : ∀ b ∈ buffers, ∃ m ∈ s.mappings, m.start ≤ (bufferMapping b).start ∧
      (bufferMapping b).stop ≤ m.stop ∧ (bufferMapping b).start < (bufferMapping b).stop ∧
      overlaps m start stop = true := by
    intro b hbm
    obtain ⟨m,hm,hk⟩ := h.keep_mem hbm
    obtain ⟨hlo,hhi,hpos,_⟩ := ht.keep_bounds hm hstart hb hk
    have hov := ((ht.mem_keepsOf hm).mp hk).1
    rw [bufferMapping_stop (h.sizes b hbm)]
    exact ⟨m,hm,hlo,hhi,hpos,(ht.overlaps_iff hm).mpr hov⟩
  refine ⟨?_,?_,?_,?_⟩
  · intro m hm
    rcases mem_append.mp hm with hm | hm
    · exact hfilter.shape m hm
    · obtain ⟨b,hbm,rfl⟩ := mem_map.mp hm
      exact hshape b hbm
  · intro m hm
    rcases mem_append.mp hm with hm | hm
    · exact hfilter.inHalf m hm
    · obtain ⟨b,hbm,rfl⟩ := mem_map.mp hm
      obtain ⟨m,hm,hlo,hhi,_⟩ := hpiece b hbm
      have hin := ht.inHalf m hm
      have hl := hin.lt
      have hh := hin.half
      exact ⟨by omega,by omega⟩
  · intro m hm
    rcases mem_append.mp hm with hm | hm
    · exact hfilter.pos m hm
    · obtain ⟨b,hbm,rfl⟩ := mem_map.mp hm
      obtain ⟨m,hm,_,_,hpos,_⟩ := hpiece b hbm
      simp only [UserMapping.stop] at hpos
      omega
  · rw [pairwise_append]
    refine ⟨hfilter.apart,?_,?_⟩
    · have hkeeps := ht.keeps_pairwise hstart hlt hb
      rw [← h.keeps,pairwise_map] at hkeeps
      rw [pairwise_map]
      refine hkeeps.imp_of_mem ?_
      intro b b' hbm hbm' hclear
      rw [Clear,bufferMapping_stop (h.sizes b hbm),bufferMapping_stop (h.sizes b' hbm')]
      exact hclear
    · intro m hm p hp
      obtain ⟨hm,hno⟩ := mem_filter.mp hm
      obtain ⟨b,hbm,rfl⟩ := mem_map.mp hp
      obtain ⟨m',hm',hlo,hhi,hpos,ho⟩ := hpiece b hbm
      have hne : m ≠ m' := by
        rintro rfl
        simp [ho] at hno
      have hsymm : Std.Symm Clear := ⟨fun _ _ => Clear.symm⟩
      have hclear := ht.apart.forall hm hm' hne
      simp only [Clear] at hclear ⊢
      omega

theorem hasTable_congr {va va' : Nat} (h : vpn va' = vpn va) (ht : s.HasTable va) :
    s.HasTable va' := by
  obtain ⟨h2,h1,_⟩ := vpn_eq_iff.mpr h
  obtain ⟨sp,hsp,hl⟩ := ht
  exact ⟨sp,hsp,by rw [h2,h1]; exact hl⟩

theorem hasTable_of_walk {va : Nat} {e : PageTableEntry} (h : s.walk va = some e) :
    s.HasTable va := by
  obtain ⟨sp,hsp,hw⟩ := Option.bind_eq_some_iff.mp h
  refine ⟨sp,hsp,?_⟩
  rw [AddressSpace.walk,AddressSpace.entryAt] at hw
  cases hl : sp.lastTable (vpn2 va) (vpn1 va) with
  | none => simp [hl] at hw
  | some t => rfl

variable [LawfulFrameAllocator σ] {held : List Frame}

theorem Cut.toBuffers (h : Cut s s' held start stop buffers) : Buffers s start stop buffers := by
  refine ⟨h.keeps,fun b hb => (h.filled b hb).sizes,?_⟩
  intro b hb f hf
  have hmem : bufferMapping b ∈ s'.mappings := by
    rw [h.mappings]
    exact mem_append_right _ (mem_map_of_mem hb)
  exact (h.own.shape _ hmem).frames f hf

theorem Leaves.pushAll {ms : MemorySet} {w : Walk} (h : Leaves ms w)
    (ht : Tiled (ms++buffers.map bufferMapping)) :
    Leaves (ms++buffers.map bufferMapping) (remapWalk buffers w) := by
  induction buffers generalizing ms w with
  | nil =>
    rw [map_nil,append_nil]
    exact h
  | cons b bs ih =>
    have hassoc : ms++(b::bs).map bufferMapping =
        (ms ++ [bufferMapping b])++bs.map bufferMapping := by simp
    rw [hassoc] at ht ⊢
    have hone : Tiled (ms ++ [bufferMapping b]) := ht.sublist (sublist_append_left _ _)
    exact ih (h.push (hone.sublist (sublist_append_left _ _)) hone) ht

theorem WellFormed.hasTable (h : WellFormed s held) {m : UserMapping} (hm : m ∈ s.mappings)
    (hrwx : m.flags.rwx = true) {va : Nat} (hva : pageSize ∣ va) (hlo : m.start ≤ va)
    (hhi : va < m.stop) : s.HasTable va := by
  have hc := (h.tiled.covers_iff hm).mpr ⟨hlo,hhi⟩
  have hoff : va-m.start < m.size := by
    simp only [stop] at hhi
    omega
  have hup := (h.tiled.inHalf m hm).userPage hva hlo hhi
  obtain ⟨p,hp⟩ := physAtOffset_isSome hoff
  have hwalk := h.leaves va hup
  rw [h.tiled.expectedEntry_eq hm hc,hp,if_pos hrwx] at hwalk
  exact hasTable_of_walk hwalk

theorem WellFormed.not_lacksTable (h : WellFormed s held) (hbuf : Buffers s start stop buffers)
    (hstart : pageSize ∣ start) (hb : CutBacked s.mappings start stop) :
    ¬ LacksTable s buffers := by
  rintro ⟨b,hbm,hrwx,page,hpage,hno⟩
  obtain ⟨m,hm,hk⟩ := hbuf.keep_mem hbm
  obtain ⟨hlo,hhi,_,hflags,_⟩ := h.tiled.keep_bounds hm hstart hb hk
  obtain ⟨off,hoff,hdvd,hphys⟩ := (mem_framePages (hbuf.shape b hbm)).mp hpage
  rw [Nat.zero_add] at hoff
  have hlt : off < backing b.2.size := by
    rw [← totalSize_of_segments (hbuf.sizes b hbm)]
    exact lt_of_physAtOffset hphys
  have hvpn : vpn (wrap (b.2.va+page.1)) = vpn (b.2.lo+off) := by
    rw [hoff]
    exact (bufferMapping b).vpn_page hdvd
  have hva : pageSize ∣ b.2.lo+off := Nat.dvd_add (bufferMapping b).dvd_start hdvd
  apply hno
  apply hasTable_congr hvpn
  apply h.hasTable hm (hflags ▸ hrwx) hva
  · omega
  · simp only [Keep.hi] at hhi
    omega

theorem Cut.wellFormed (h : Cut s s' held start stop buffers) (hw : WellFormed s held)
    (hstart : pageSize ∣ start) (hlt : start < stop) (hb : CutBacked s.mappings start stop) :
    WellFormed s' held := by
  have hshape : ∀ b ∈ buffers, (bufferMapping b).Shape := by
    intro b hbm
    apply h.own.shape
    rw [h.mappings]
    exact mem_append_right _ (mem_map_of_mem hbm)
  have ht := h.toBuffers.tiled hw.tiled hstart hlt hb hshape
  refine ⟨h.own,?_,?_⟩
  · rw [h.mappings]
    exact ht
  · rw [h.mappings,h.walk]
    exact (hw.leaves.remove hw.tiled fun m => overlaps m start stop).pushAll ht

end Athera
