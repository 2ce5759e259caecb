import Athera.Mm.MapRuns

/-!
# What successful calls do

When a successful call does to the pages of the task what it promises, and a run where it does not.
-/

namespace Athera

open Framework Action

section

open List

variable {σ : Type} [LawfulFrameAllocator σ] {s s' s1 s2 : TaskMemory σ}
  {old oldSize newSize flags newAddress dest r va : Nat} {prot : PageFlags}
  {frames : List Frame} {buffers : List Buffer} {replace : Bool}

theorem fullyMapped_of_covered {ms : MemorySet} (ht : Tiled ms) {vas : List Nat}
    (h : ∀ va ∈ vas, ∃ m ∈ ms, Covers m va = true) : fullyMapped ms vas = some true := by
  induction vas with
  | nil => rfl
  | cons va vas ih =>
    obtain ⟨m,hm,hc⟩ := h va mem_cons_self
    have hin := (ht.covers_iff hm).mp hc
    have hoff : va-m.start < m.size := by
      simp only [UserMapping.stop] at hin
      omega
    obtain ⟨p,hp⟩ := physAtOffset_isSome hoff
    rw [fullyMapped,ht.pagePhys_eq hm hc,hp]
    exact ih fun va' hva' => h va' (mem_cons_of_mem _ hva')

theorem Cut.of_mem_cutRanges {start stop : Nat} {range : Nat × Nat}
    (h : Cut s s1 [] start stop buffers) (hw : WellFormed s []) (hstart : pageSize ∣ start)
    (hstop : pageSize ∣ stop) (hlt : start < stop) (hb : CutBacked s.mappings start stop)
    (hr : range ∈ cutRanges start stop (s.mappings.map mappingRange)) :
    range ∈ s1.mappings.map mappingRange := by
  have hw1 := h.wellFormed hw hstart hlt hb
  rw [cutRanges,mem_flatMap] at hr
  obtain ⟨_,hrange,hr⟩ := hr
  obtain ⟨m,hm,rfl⟩ := mem_map.mp hrange
  have hs := hw.tiled.shape m hm
  rw [hw.tiled.range_eq hm] at hr
  by_cases hover : m.start < stop ∧ start < m.stop
  · have hpiece : ∀ k, k ∈ keepsOf start stop m → k.lo = range.1 → k.hi = range.2 →
        range ∈ s1.mappings.map mappingRange := by
      intro k hk hlo hhi
      obtain ⟨b,hbm,rfl⟩ := h.toBuffers.exists_mem hm hk
      obtain ⟨hmem,_,hstop'⟩ := h.piece_shape hbm
      refine mem_map.mpr ⟨_,hmem,?_⟩
      rw [hw1.tiled.range_eq hmem,hstop',bufferMapping_start,hlo,hhi]
    rw [if_pos hover] at hr
    rcases mem_append.mp hr with hr | hr
    · by_cases hl : m.start < start
      · rw [if_pos hl,mem_singleton] at hr
        obtain ⟨hlo,hhi⟩ := left_hi hs hstart hl hover.2
          (hb.left hw.tiled hm hl hover.2)
        refine hpiece _ ((hw.tiled.mem_keepsOf hm).mpr ⟨hover,Or.inl ⟨hl,rfl⟩⟩) ?_ ?_
        · rw [hlo,hr]
        · rw [hhi,hr]
      · rw [if_neg hl] at hr
        exact absurd hr not_mem_nil
    · by_cases hr' : stop < m.stop
      · rw [if_pos hr',mem_singleton] at hr
        have hhi := right_hi (f := m.flags) hs hr' hover.1 (hb.right hw.tiled hm hover.1 hr')
        have hlo : (Keep.mk stop (m.stop-stop) m.flags).lo = stop := Nat.div_mul_cancel hstop
        refine hpiece _ ((hw.tiled.mem_keepsOf hm).mpr ⟨hover,Or.inr ⟨hr',rfl⟩⟩) ?_ ?_
        · rw [hlo,hr]
        · rw [hhi,hr]
      · rw [if_neg hr'] at hr
        exact absurd hr not_mem_nil
  · rw [if_neg hover,mem_singleton] at hr
    refine mem_map.mpr ⟨m,?_,by rw [hw.tiled.range_eq hm,hr]⟩
    rw [h.mappings]
    apply mem_append_left
    refine mem_filter.mpr ⟨hm,?_⟩
    cases ho : overlaps m start stop with
    | false => rfl
    | true => exact absurd ((hw.tiled.overlaps_iff hm).mp ho) hover

/-- A rebuilt range whose pages are listed once, with the old range gone and the rest as it was,
was cut out exactly. -/
theorem RebuildPlace.needs {oldEnd : Nat} (h : RebuildPlace s old oldEnd dest newSize)
    (hdone : Rebuilt s s' old oldEnd dest newSize prot s1 s2 frames buffers)
    (hsize : totalSize frames = newSize)
    (hone : ∀ va, pageSize ∣ va → dest ≤ va → va < dest+newSize → (s'.listed va).length = 1)
    (hgone : ∀ va, pageSize ∣ va → old ≤ va → va < oldEnd →
      ¬ (dest ≤ va ∧ va < dest+newSize) → s'.listed va = [])
    (hrest : ∀ va, pageSize ∣ va → va < wordRange → ¬ (old ≤ va ∧ va < oldEnd) →
      ¬ (dest ≤ va ∧ va < dest+newSize) → s'.listed va = s.listed va) :
    CutBacked s.mappings old oldEnd ∧ ∀ va, pageSize ∣ va → dest ≤ va → va < dest+newSize →
      ∀ x ∈ s'.listed va, x.2 = prot := by
  obtain ⟨hfill,hcut,hmapped⟩ := hdone
  have hfits := h.fits
  have hw1 : WellFormed s1 frames := hfill.same.wellFormed h.wf hfill.own
  have hown2 : Own s2 (frames ++ []) := by
    rw [append_nil]
    exact hcut.own
  have hlist := fun va (hva : pageSize ∣ va) =>
    hmapped.listed_range hown2 h.destDvd (hsize ▸ hfits) hva
  simp only [hsize] at hlist
  have hnil : ∀ va, pageSize ∣ va → dest ≤ va → va < dest+newSize → s2.listed va = [] := by
    intro va hva hlo hhi
    have hlen := hone va hva hlo hhi
    rw [hlist va hva,if_pos ⟨hlo,hhi⟩,length_append,length_singleton] at hlen
    exact eq_nil_of_length_eq_zero (by omega)
  have hout : ∀ va, pageSize ∣ va → ¬ (dest ≤ va ∧ va < dest+newSize) →
      s2.listed va = s'.listed va := by
    intro va hva hno
    rw [hlist va hva,if_neg hno,append_nil]
  have hl : CutListed s1 s2 old oldEnd := by
    refine ⟨?_,?_⟩
    · intro va hva hlo hhi
      by_cases hin : dest ≤ va ∧ va < dest+newSize
      · exact hnil va hva hin.1 hin.2
      · rw [hout va hva hin]
        exact hgone va hva hlo hhi hin
    · intro va hva hlt hno
      rw [hfill.listed h.wf hva]
      by_cases hin : dest ≤ va ∧ va < dest+newSize
      · rw [hnil va hva hin.1 hin.2,h.free va hva hin.1 hin.2 hno]
      · rw [hout va hva hin]
        exact hrest va hva hlt (by omega) hin
  refine ⟨?_,?_⟩
  · have hb := ((hcut.listed_iff hw1 h.oldDvd h.oldLt).mp hl).1
    rwa [hfill.same.mappings] at hb
  · intro va hva hlo hhi x hx
    rw [hlist va hva,if_pos ⟨hlo,hhi⟩,hnil va hva hlo hhi,nil_append, mem_singleton] at hx
    rw [hx]

variable (hargs : MremapArgs old oldSize newSize flags newAddress) (hw : WellFormed s [])
  (hex : MremapExact s s' r old oldSize newSize flags newAddress)

include hargs hw hex

theorem MremapExact.covered {off : Nat} (hoff : pageSize ∣ off) (hlt : off < min oldSize newSize) :
    ∃ m ∈ s.mappings, Covers m (old+off) = true := by
  have hfits := hargs.fits
  rcases covered_or_not s.mappings (old+off) with hcov | hnone
  · exact hcov
  · exact absurd (hw.view_absent (Nat.dvd_add hargs.aligned hoff) (by omega)
      (listed_eq_nil_iff.mpr hnone)) (hex.carried off hoff hlt).2

theorem MremapExact.listed_once (hdvd : pageSize ∣ r) :
    ∀ va, pageSize ∣ va → r ≤ va → va < r+newSize → (s'.listed va).length = 1 := by
  intro va hva hlo hhi
  have hoff := Nat.dvd_sub hva hdvd
  have hback : r+(va-r) = va := by omega
  by_cases hlt : va-r < min oldSize newSize
  · obtain ⟨m,hm,hc⟩ := hex.covered hargs hw hoff hlt
    have hview := congrArg PageView.listed (hex.carried _ hoff hlt).1
    simp only [TaskMemory.view,hback] at hview
    rw [hview,hw.tiled.listed_eq hm hc]
    rfl
  · obtain ⟨f,hview⟩ := hex.grown _ hoff (by omega) (by omega)
    have hlist := congrArg PageView.listed hview
    simp only [TaskMemory.view,hback] at hlist
    rw [hlist]
    rfl

theorem MremapExact.sameFlags (hdvd : pageSize ∣ r)
    (hprot : ∀ va, pageSize ∣ va → r ≤ va → va < r+newSize → ∀ x ∈ s'.listed va, x.2 = prot) :
    SameFlags s.mappings old (old+min oldSize newSize) := by
  have hall : ∀ m ∈ s.mappings, overlaps m old (old+min oldSize newSize) = true →
      m.flags = prot := by
    intro m hm ho
    have hov := (hw.tiled.overlaps_iff hm).mp ho
    have hpage := m.dvd_max_start hargs.aligned
    have hpos := hw.tiled.pos m hm
    have hend : m.stop = m.start+m.size := rfl
    have holdPos := hargs.oldPos
    have hnewPos := hargs.newPos
    have hoff := Nat.dvd_sub hpage hargs.aligned
    have hlt : max old m.start-old < min oldSize newSize := by omega
    have hc : Covers m (old+(max old m.start-old)) = true :=
      (hw.tiled.covers_iff hm).mpr (by omega)
    have hview := congrArg PageView.listed (hex.carried _ hoff hlt).1
    simp only [TaskMemory.view] at hview
    rw [hw.tiled.listed_eq hm hc] at hview
    have hflags := hprot _ (Nat.dvd_add hdvd hoff) (by omega) (by omega)
    rw [hview] at hflags
    exact hflags _ (mem_singleton.mpr rfl)
  intro m hm m' hm' ho ho'
  rw [hall m hm ho,hall m' hm' ho']

omit hex in
theorem MremapExact.rebuilt {s0 : TaskMemory σ}
    (hex : MremapExact s s' dest old oldSize newSize flags newAddress)
    (hno : ¬ KeepsAll old oldSize newSize flags newAddress)
    (h : RebuildPlace s0 old (old+oldSize) dest newSize)
    (hsame : ∀ va, pageSize ∣ va → va < wordRange → ¬ (dest ≤ va ∧ va < dest+newSize) →
      s0.listed va = s.listed va)
    (hdone : Rebuilt s0 s' old (old+oldSize) dest newSize prot s1 s2 frames buffers) :
    WholeBlocks newSize ∧ CutBacked s0.mappings old (old+oldSize) ∧
      SameFlags s.mappings old (old+min oldSize newSize) := by
  have hfits := h.fits
  have hle := le_backing (n := newSize) (by omega)
  rw [← totalSize_of_segments hdone.refilled.sizes] at hle
  have hsize := hdone.mapped.size_of_lastRange h.destDvd hfits hle (hex.added hno)
  obtain ⟨hb,hprot⟩ := h.needs hdone hsize (hex.listed_once hargs hw h.destDvd)
    (fun va hva hlo hhi hout => congrArg PageView.listed (hex.removed va hva hlo hhi hout))
    (fun va hva hlt hold hout => by
      rw [hsame va hva hlt hout]
      exact congrArg PageView.listed (hex.rest va hva hlt hold hout))
  refine ⟨?_,hb,hex.sameFlags hargs hw h.destDvd hprot⟩
  rw [← backing_eq_iff (by omega),← totalSize_of_segments hdone.refilled.sizes,hsize]

theorem MremapDone.exact_when
    (hfixed : ∀ dest, MovesTo s.mappings old oldSize newSize flags newAddress dest true →
      CutBacked s.mappings dest (dest+newSize))
    (h : MremapDone s old oldSize newSize flags newAddress r s') :
    MremapExactWhen s.mappings old oldSize newSize flags newAddress := by
  cases h with
  | unchanged heq hno =>
    subst heq
    rw [MremapExactWhen,if_pos ⟨rfl,hno⟩]
    apply fullyMapped_of_covered hw.tiled
    intro va hva
    obtain ⟨i,rfl,hlt⟩ := mem_stepBy.mp hva
    exact hex.covered hargs hw (Dvd.intro_left _ rfl) (by omega)
  | inPlace hmapped hplace hflags hdone =>
    obtain ⟨hwhole,hb,hsf⟩ := hex.rebuilt hargs hw hplace.not_keepsAll
      (inPlace_place hargs hw hmapped hplace) (fun _ _ _ _ => rfl) hdone
    rw [MremapExactWhen,if_neg hplace.not_keepsAll]
    refine ⟨⟨hwhole,?_⟩,hsf⟩
    rw [if_pos (Or.inl hplace)]
    exact hb
  | @moved _ replace _ hto hmoved =>
    obtain ⟨hcall,s1,prot,hvac,hflags,s2,s3,frames,buffers,hdone⟩ := hmoved
    have hcut : replace = true → CutBacked s.mappings r (r+newSize) := by
      rintro rfl
      exact hfixed r hto
    obtain ⟨hdvd,hw1,hl⟩ := vacated_listed hargs hw hto hcut hvac
    obtain ⟨hwhole,hb,hsf⟩ := hex.rebuilt hargs hw hto.not_keepsAll
      (moved_place hargs hw hto hcut hcall hvac)
      (fun va hva hlt hout => hl.outside va hva hlt (by omega)) hdone
    rw [MremapExactWhen,if_neg hto.not_keepsAll]
    refine ⟨⟨hwhole,?_⟩,hsf⟩
    cases replace with
    | true =>
      obtain ⟨hno,hf,rfl⟩ := hto.of_replace
      obtain ⟨_,hc⟩ := hvac
      have hpos := hargs.newPos
      rw [if_neg (by simp [hno,hf])]
      refine ⟨hcut rfl,fun range hrange => hb range ?_⟩
      exact hc.of_mem_cutRanges hw hdvd (Nat.dvd_add hdvd hargs.newDvd) (by omega) (hcut rfl) hrange
    | false =>
      obtain ⟨rfl,_⟩ := hvac
      cases hto with
      | gap _ _ _ hf _ =>
        rw [if_pos (Or.inr hf)]
        exact hb

end

variable {σ : Type} [LawfulFrameAllocator σ] {s s' : TaskMemory σ}
  {addr length prot flags t old oldSize newSize newAddress r : Nat}

theorem munmap_exact_iff (hw : WellFormed s []) (haddr : pageSize ∣ addr) (hlen : 0 < length)
    (hfits : addr + length < wordRange)
    (hrun : (munmap addr length : MapAction σ Unit) s = .ok () s') :
    (s.view.unmap addr (addr + length)).Agree s'.view ↔
      CutBacked s.mappings addr (addr + length) ∧ CutAligned s.mappings (addr + length) := by
  obtain ⟨_,buffers,hcut⟩ := wp_of_ok (munmap_spec hw.own) hrun
  exact hcut.view_iff hw haddr (by omega) (le_of_lt hfits)

/-- Two of the four pages, which leaves a block of two. -/
theorem munmap_exact_half : ∃ s',
    (munmap 0xffffffc000002000 0x2000 : MapAction BuddyLists Unit) fourPages = .ok () s' ∧
      (fourPages.view.unmap 0xffffffc000002000 0xffffffc000004000).Agree s'.view := by
  have hok : ((munmap 0xffffffc000002000 0x2000 : MapAction BuddyLists Unit)
      fourPages).result = some (.ok ()) := by decide +kernel
  obtain ⟨s',hrun,_⟩ := Outcome.exists_ok hok
  refine ⟨s',hrun,?_⟩
  exact (munmap_exact_iff fourPages_wellFormed (by decide) (by decide) (by decide) hrun).mpr
    (by decide +kernel)

/-- One of the four pages: the three that stay get a block of four, which covers it again. -/
theorem munmap_leaves_page : WellFormed fourPages [] ∧ ∃ s',
    (munmap 0xffffffc000003000 0x1000 : MapAction BuddyLists Unit) fourPages = .ok () s' ∧
      ¬ (fourPages.view.unmap 0xffffffc000003000 0xffffffc000004000).Agree s'.view := by
  have hok : ((munmap 0xffffffc000003000 0x1000 : MapAction BuddyLists Unit)
      fourPages).result = some (.ok ()) := by decide +kernel
  have hlist : (((munmap 0xffffffc000003000 0x1000 : MapAction BuddyLists Unit)
      fourPages).state.map fun s => (s.listed 0xffffffc000003000).length) = some 1 := by decide +kernel
  obtain ⟨s',hrun,hs⟩ := Outcome.exists_ok hok
  rw [hs,Option.map_some] at hlist
  refine ⟨fourPages_wellFormed,s',hrun,?_⟩
  intro h
  have hgone := congrArg PageView.listed (h 0xffffffc000003000 (by decide) (by decide))
  have hnil : s'.listed 0xffffffc000003000 = [] := hgone
  rw [hnil] at hlist
  exact absurd hlist (by simp)

theorem mmap_exact_iff (hw : WellFormed s [])
    (hrun : (mmap addr length prot flags (-1) 0 : MapAction σ Nat) s =
      .ok t s') :
    MmapExact s s' t (alignUp length) prot flags ↔
      MmapExactWhen s.mappings addr length flags := by
  obtain ⟨hcall,s1,s2,frames,hprep,hfresh,hmapped⟩ := wp_of_ok (mmap_spec hw.own) hrun
  exact ⟨mmap_exact_when hw hcall hprep hfresh hmapped,
    fun h => (mmap_exact_of hw hcall hprep hfresh hmapped h).2⟩

example : MmapExactWhen smallTask.mappings 0xffffffc000000000 0x4000 0x22 := by decide +kernel

/-- Four pages at a hint. -/
theorem mmap_exact_four : ∃ s', (mmap 0xffffffc000000000 0x4000 3 0x22 (-1) 0 :
    MapAction BuddyLists Nat) smallTask = .ok 0xffffffc000000000 s' ∧
      MmapExact smallTask s' 0xffffffc000000000 0x4000 3 0x22 := by
  have hok : ((mmap 0xffffffc000000000 0x4000 3 0x22 (-1) 0 : MapAction BuddyLists Nat)
      smallTask).result = some (.ok 0xffffffc000000000) := by decide +kernel
  obtain ⟨s',hrun,_⟩ := Outcome.exists_ok hok
  exact ⟨s',hrun,(mmap_exact_iff smallTask_wellFormed hrun).mpr (by decide +kernel)⟩

/-- Three pages: a fourth one is mapped after them. -/
theorem mmap_adds_page : WellFormed smallTask [] ∧ ∃ s', (mmap 0xffffffc000000000 0x3000 3 0x22 (-1) 0 :
    MapAction BuddyLists Nat) smallTask = .ok 0xffffffc000000000 s' ∧
      ¬ MmapExact smallTask s' 0xffffffc000000000 0x3000 3 0x22 := by
  have hok : ((mmap 0xffffffc000000000 0x3000 3 0x22 (-1) 0 : MapAction BuddyLists Nat)
      smallTask).result = some (.ok 0xffffffc000000000) := by decide +kernel
  have hlist : (((mmap 0xffffffc000000000 0x3000 3 0x22 (-1) 0 :
      MapAction BuddyLists Nat) smallTask).state.map
      fun s => (s.listed 0xffffffc000003000).length) = some 1 := by decide +kernel
  obtain ⟨s',hrun,hs⟩ := Outcome.exists_ok hok
  rw [hs,Option.map_some] at hlist
  refine ⟨smallTask_wellFormed,s',hrun,?_⟩
  intro h
  have hsame := congrArg PageView.listed (h.view 0xffffffc000003000 (by decide) (by decide))
  have hnil : s'.listed 0xffffffc000003000 = [] := hsame
  rw [hnil] at hlist
  exact absurd hlist (by simp)

/-- Under the condition a successful `mremap` does what it promises, and only under it unless a
move to a fixed place already clears its destination inexactly. -/
theorem mremap_exact (hw : WellFormed s [])
    (hrun : (mremap old oldSize newSize flags newAddress :
      MapAction σ Nat) s = .ok r s') :
    (MremapExactWhen s.mappings old oldSize newSize flags newAddress →
      MremapExact s s' r old oldSize newSize flags newAddress) ∧
    ((∀ dest, MovesTo s.mappings old oldSize newSize flags newAddress dest true →
        CutBacked s.mappings dest (dest + newSize)) →
      MremapExact s s' r old oldSize newSize flags newAddress →
      MremapExactWhen s.mappings old oldSize newSize flags newAddress) := by
  obtain ⟨hargs,hdone⟩ := wp_of_ok (mremap_spec hw.own) hrun
  exact ⟨fun hwhen => hdone.exact hw hargs hwhen,
    fun hfixed hex => hdone.exact_when hargs hw hex hfixed⟩

/-- Four pages shrink to two. -/
theorem mremap_exact_shrink : ∃ s', (mremap 0xffffffc000000000 0x4000 0x2000 0 0 :
    MapAction BuddyLists Nat) fourPages = .ok 0xffffffc000000000 s' ∧
      MremapExact fourPages s' 0xffffffc000000000 0xffffffc000000000 0x4000 0x2000 0 0 := by
  have hok : ((mremap 0xffffffc000000000 0x4000 0x2000 0 0 : MapAction BuddyLists Nat)
      fourPages).result = some (.ok 0xffffffc000000000) := by decide +kernel
  obtain ⟨s',hrun,_⟩ := Outcome.exists_ok hok
  exact ⟨s',hrun,(mremap_exact fourPages_wellFormed hrun).1 (by decide +kernel)⟩

/-- A call that keeps the size succeeds although nothing is mapped. -/
theorem mremap_maps_nothing : WellFormed smallTask [] ∧ (mremap 0xffffffc000000000 0x1000 0x1000 0 0 :
    MapAction BuddyLists Nat) smallTask = .ok 0xffffffc000000000 smallTask ∧
      ¬ MremapExact smallTask smallTask 0xffffffc000000000 0xffffffc000000000 0x1000 0x1000 0 0 := by
  refine ⟨smallTask_wellFormed,rfl,?_⟩
  intro h
  exact (h.carried 0 (by decide) (by decide)).2
    (smallTask_wellFormed.view_absent (by decide) (by decide) rfl)

end Athera
