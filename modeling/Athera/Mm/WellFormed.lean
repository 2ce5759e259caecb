import Athera.Mm.MapSteps

/-!
# Well-formed memory sets

The mappings of a well-formed task do not overlap or wrap; the page table holds exactly the entries
they call for.
-/

namespace Athera

open Framework Action List

/-- A page address that Sv39 can translate. -/
structure UserPage (va : Nat) : Prop where
  aligned : pageSize ∣ va
  lt : va < wordRange
  canonical : va < lowHalfEnd ∨ highHalfStart ≤ va

theorem vpn_inj {va va' : Nat} (h : UserPage va) (h' : UserPage va') (heq : vpn va = vpn va') :
    va = va' := by
  obtain ⟨ha,hlt,hc⟩ := h
  obtain ⟨ha',hlt',hc'⟩ := h'
  simp only [vpn,pageSize,wordRange,lowHalfEnd,highHalfStart] at *
  omega

/-- The mapping does not wrap and lies in one half of the address space. -/
structure UserMapping.InHalf (m : UserMapping) : Prop where
  lt : m.stop < wordRange
  half : m.stop ≤ lowHalfEnd ∨ highHalfStart ≤ m.start

def UserMapping.Clear (m m' : UserMapping) : Prop := m.stop ≤ m'.start ∨ m'.stop ≤ m.start

variable {m : UserMapping}

theorem UserMapping.Clear.symm {m' : UserMapping} (h : m.Clear m') : m'.Clear m := Or.symm h

structure Tiled (ms : MemorySet) : Prop where
  shape : ∀ m ∈ ms, m.Shape
  inHalf : ∀ m ∈ ms, m.InHalf
  pos : ∀ m ∈ ms, 0 < m.size
  apart : ms.Pairwise UserMapping.Clear

/-- The entry that the mappings call for at an address. -/
def expectedEntry (ms : MemorySet) (va : Nat) : Option PageTableEntry :=
  match ms.find? fun m => Covers m va with
  | none => none
  | some m =>
    if m.flags.rwx then
      (physAtOffset m.frames (va - (mappingRange m).1)).map fun p => ⟨true,m.flags,ppn p⟩
    else none

/-- The page table holds exactly the entries that the mappings call for. -/
def Leaves (ms : MemorySet) (w : Walk) : Prop := ∀ va, UserPage va → w va = expectedEntry ms va

section

variable {ms : MemorySet} {m : UserMapping} {va : Nat}

section

variable (h : Tiled ms)
include h

theorem Tiled.covers_iff (hm : m ∈ ms) : Covers m va = true ↔ m.start ≤ va ∧ va < m.stop :=
  covers_iff_of_lt (h.shape m hm) (h.inHalf m hm).lt

theorem Tiled.overlaps_iff (hm : m ∈ ms) {start stop : Nat} :
    overlaps m start stop = true ↔ m.start < stop ∧ start < m.stop := by
  simp [overlaps,mappingRange_of_lt (h.shape m hm) (h.inHalf m hm).lt]

theorem Tiled.rangeIsFree_iff {start stop : Nat} :
    rangeIsFree ms start stop = true ↔ ∀ m ∈ ms, stop ≤ m.start ∨ m.stop ≤ start := by
  simp only [rangeIsFree,Bool.not_eq_true',any_eq_false]
  apply forall₂_congr
  intro m hm
  rw [h.overlaps_iff hm]
  omega

theorem Tiled.range_eq (hm : m ∈ ms) : mappingRange m = (m.start, m.stop) :=
  mappingRange_of_lt (h.shape m hm) (h.inHalf m hm).lt

theorem Tiled.sublist {ms' : MemorySet} (hs : ms'.Sublist ms) : Tiled ms' :=
  ⟨fun m hm => h.shape m (hs.subset hm),fun m hm => h.inHalf m (hs.subset hm),
    fun m hm => h.pos m (hs.subset hm),h.apart.sublist hs⟩

theorem Tiled.filter_covers (hm : m ∈ ms) (hc : Covers m va = true) :
    (ms.filter fun m => Covers m va) = [m] := by
  induction ms with
  | nil => simp at hm
  | cons m' ms ih =>
    have htail : Tiled ms := h.sublist (sublist_cons_self m' ms)
    obtain ⟨hclear,_⟩ := pairwise_cons.mp h.apart
    have hexcl : ∀ m'' ∈ ms, Covers m' va = true → Covers m'' va = true → False := by
      intro m'' hm'' h1 h2
      have hcl := hclear m'' hm''
      rw [h.covers_iff mem_cons_self] at h1
      rw [htail.covers_iff hm''] at h2
      simp only [UserMapping.Clear] at hcl
      omega
    rcases mem_cons.mp hm with rfl | hm
    · have hnone : (ms.filter fun m => Covers m va) = [] := by
        rw [filter_eq_nil_iff]
        intro m'' hm'' h2
        exact hexcl m'' hm'' hc h2
      rw [filter_cons,if_pos hc,hnone]
    · have hnot : ¬ Covers m' va = true := fun h1 => hexcl m hm h1 hc
      rw [filter_cons,if_neg hnot]
      exact ih htail hm

theorem Tiled.covers_unique {m' : UserMapping} (hm : m ∈ ms) (hm' : m' ∈ ms)
    (hc : Covers m va = true) (hc' : Covers m' va = true) : m = m' := by
  have h1 := h.filter_covers hm hc
  rw [h.filter_covers hm' hc'] at h1
  simpa using h1.symm

theorem Tiled.unique_at {m' : UserMapping} (va : Nat) (hm : m ∈ ms) (hm' : m' ∈ ms)
    (hin : m.start ≤ va ∧ va < m.stop) (hin' : m'.start ≤ va ∧ va < m'.stop) : m = m' :=
  h.covers_unique hm hm' ((h.covers_iff hm).mpr hin) ((h.covers_iff hm').mpr hin')

end

theorem find_covers_none (h : ∀ m ∈ ms, Covers m va = false) :
    (ms.find? fun m => Covers m va) = none := by
  rw [find?_eq_none]
  intro m hm hc
  rw [h m hm] at hc
  exact absurd hc (by simp)

theorem Tiled.find_covers (h : Tiled ms) (hm : m ∈ ms) (hc : Covers m va = true) :
    (ms.find? fun m => Covers m va) = some m := by
  rw [← head?_filter,h.filter_covers hm hc]
  rfl

theorem expectedEntry_none (h : ∀ m ∈ ms, Covers m va = false) : expectedEntry ms va = none := by
  rw [expectedEntry,find_covers_none h]

theorem Tiled.expectedEntry_eq (h : Tiled ms) (hm : m ∈ ms) (hc : Covers m va = true) :
    expectedEntry ms va = if m.flags.rwx then
        (physAtOffset m.frames (va-m.start)).map fun p => ⟨true,m.flags,ppn p⟩
      else none := by
  rw [expectedEntry,h.find_covers hm hc]
  simp only [h.range_eq hm]

theorem covered_or_not (ms : MemorySet) (va : Nat) :
    (∃ m ∈ ms, Covers m va = true) ∨ ∀ m ∈ ms, Covers m va = false := by
  by_cases h : ∃ m ∈ ms, Covers m va = true
  · exact Or.inl h
  · right
    intro m hm
    cases hc : Covers m va with
    | false => rfl
    | true => exact absurd ⟨m,hm,hc⟩ h

end

section

variable {frames : List Frame} {page : Nat × Nat}

theorem mem_framePages {base : Nat} (hs : ∀ f ∈ frames, PageShape f) :
    page ∈ framePages base frames ↔
      ∃ off, page.1 = base+off ∧ pageSize ∣ off ∧ physAtOffset frames off = some page.2 := by
  induction frames generalizing base with
  | nil => simp [framePages,physAtOffset]
  | cons f fs ih =>
    have hf := hs f mem_cons_self
    rw [framePages,mem_append,ih fun g hg => hs g (mem_cons_of_mem _ hg)]
    constructor
    · rintro (hmem | ⟨off,h1,hdvd,hp⟩)
      · obtain ⟨step,hstep,rfl⟩ := mem_map.mp hmem
        obtain ⟨i,rfl,hlt⟩ := mem_stepBy.mp hstep
        refine ⟨0+i*pageSize,rfl,?_,?_⟩
        · rw [Nat.zero_add]
          exact Dvd.intro_left _ rfl
        · rw [physAtOffset,if_pos hlt]
      · refine ⟨f.size+off,by omega,Nat.dvd_add hf.size hdvd,?_⟩
        rw [physAtOffset,if_neg (by omega),Nat.add_sub_cancel_left]
        exact hp
    · rintro ⟨off,h1,hdvd,hp⟩
      by_cases hlt : off < f.size
      · left
        rw [physAtOffset,if_pos hlt] at hp
        obtain ⟨i,hi⟩ := hdvd
        refine mem_map.mpr ⟨off,mem_stepBy.mpr ⟨i,by rw [Nat.zero_add,hi,Nat.mul_comm],hlt⟩,?_⟩
        rw [← h1,Option.some.inj hp]
      · right
        rw [physAtOffset,if_neg hlt] at hp
        exact ⟨off-f.size,by omega,Nat.dvd_sub hdvd hf.size,hp⟩

theorem stepBy_pairwise (start stop : Nat) : (stepBy start stop).Pairwise (· < ·) := by
  unfold stepBy
  rw [pairwise_map]
  refine pairwise_lt_range.imp ?_
  simp only [pageSize]
  omega

theorem framePages_pairwise {base : Nat} (hs : ∀ f ∈ frames, PageShape f) :
    (framePages base frames).Pairwise fun p q => p.1 < q.1 := by
  induction frames generalizing base with
  | nil => exact List.Pairwise.nil
  | cons f fs ih =>
    have hs' : ∀ g ∈ fs, PageShape g := fun g hg => hs g (mem_cons_of_mem _ hg)
    rw [framePages,pairwise_append]
    refine ⟨?_,ih hs',?_⟩
    · rw [pairwise_map]
      exact (stepBy_pairwise 0 f.size).imp fun h => by simpa using h
    · intro p hp q hq
      obtain ⟨step,hstep,rfl⟩ := mem_map.mp hp
      obtain ⟨_,_,hlt⟩ := mem_stepBy.mp hstep
      obtain ⟨off,hq1,_,_⟩ := (mem_framePages hs').mp hq
      omega

end

section

variable {addr va : Nat} {flags : PageFlags} {w : Walk}

theorem foldl_setWalk_of_ne {pages : List (Nat × Nat)}
    (h : ∀ page ∈ pages, vpn va ≠ vpn (wrap (addr+page.1))) :
    pages.foldl (setWalk addr flags) w va = w va := by
  induction pages generalizing w with
  | nil => rfl
  | cons page pages ih =>
    rw [foldl_cons,ih fun q hq => h q (mem_cons_of_mem _ hq)]
    rw [setWalk,if_neg (h page mem_cons_self)]

theorem foldl_setWalk_of_unique {pages : List (Nat × Nat)} (hmem : page ∈ pages)
    (hva : vpn va = vpn (wrap (addr+page.1)))
    (huniq : ∀ q ∈ pages, vpn va = vpn (wrap (addr+q.1)) → q = page) :
    pages.foldl (setWalk addr flags) w va = some ⟨true,flags,ppn page.2⟩ := by
  induction pages generalizing w with
  | nil => simp at hmem
  | cons q pages ih =>
    rw [foldl_cons]
    by_cases hin : page ∈ pages
    · exact ih hin fun q' hq' => huniq q' (mem_cons_of_mem _ hq')
    · have hq : q = page := ((mem_cons.mp hmem).resolve_right hin).symm
      subst q
      rw [foldl_setWalk_of_ne,setWalk,if_pos hva]
      intro q' hq' hv
      exact hin (huniq q' (mem_cons_of_mem _ hq') hv ▸ hq')

theorem clearWalk_of_mem {vas : List Nat} {p : Nat} (hp : p ∈ vas) (h : vpn va = vpn p) :
    clearWalk vas w va = none := by
  have hany : (vas.any fun p => decide (vpn va = vpn p)) = true :=
    any_eq_true.mpr ⟨p,hp,by simp [h]⟩
  simp only [clearWalk,hany,if_true]

theorem clearWalk_of_ne {vas : List Nat} (h : ∀ p ∈ vas, vpn va ≠ vpn p) :
    clearWalk vas w va = w va := by
  have hany : (vas.any fun p => decide (vpn va = vpn p)) = false := by
    rw [any_eq_false]
    intro p hp
    simpa using h p hp
  simp only [clearWalk,hany,Bool.false_eq_true,if_false]

theorem UserMapping.InHalf.userPage (h : m.InHalf) (hva : pageSize ∣ va)
    (hlo : m.start ≤ va) (hhi : va < m.stop) : UserPage va := by
  have hstop := h.lt
  have hhalf := h.half
  exact ⟨hva,by omega,by omega⟩

/-- The address at which a page of a mapping is mapped has the page number of that page, also
when the mapping starts inside a page. -/
theorem UserMapping.vpn_page (m : UserMapping) {off : Nat} (hoff : pageSize ∣ off) :
    vpn (wrap (m.va+off)) = vpn (m.start+off) := by
  simp only [UserMapping.start,vpn,wrap,wordRange,pageSize] at *
  omega

variable {m : UserMapping}

private theorem vpn_eq_page (h : m.InHalf) (hva : UserPage va) {off : Nat}
    (hoff : pageSize ∣ off) (hlt : off < m.size) :
    vpn va = vpn (wrap (m.va+off)) ↔ va = m.start+off := by
  rw [m.vpn_page hoff]
  constructor
  · have hend : m.start+off < m.stop := Nat.add_lt_add_left hlt m.start
    exact vpn_inj hva (h.userPage (Nat.dvd_add m.dvd_start hoff) (Nat.le_add_right _ _) hend)
  · rintro rfl
    rfl

private theorem page_offset (hs : m.Shape) (hp : page ∈ framePages 0 m.frames) :
    pageSize ∣ page.1 ∧ page.1 < m.size ∧ physAtOffset m.frames page.1 = some page.2 := by
  obtain ⟨off,h1,hdvd,hphys⟩ := (mem_framePages hs.frames).mp hp
  rw [Nat.zero_add] at h1
  rw [← h1] at hdvd hphys
  exact ⟨hdvd,lt_of_physAtOffset hphys,hphys⟩

theorem mapWalk_apply (hs : m.Shape) (h : m.InHalf) (hva : UserPage va) :
    mapWalk m.va m.frames m.flags w va = if m.flags.rwx = true ∧ m.start ≤ va ∧ va < m.stop then
        (physAtOffset m.frames (va-m.start)).map fun p => ⟨true,m.flags,ppn p⟩
      else w va := by
  unfold mapWalk
  by_cases hrwx : m.flags.rwx = true
  · rw [if_pos hrwx]
    by_cases hin : m.start ≤ va ∧ va < m.stop
    · rw [if_pos ⟨hrwx,hin⟩]
      have hlt : va-m.start < m.size := by
        simp only [UserMapping.stop] at hin
        omega
      have hdvd : pageSize ∣ va-m.start := Nat.dvd_sub hva.aligned m.dvd_start
      obtain ⟨p,hp⟩ := physAtOffset_isSome hlt
      have hmem : (va-m.start, p) ∈ framePages 0 m.frames :=
        (mem_framePages hs.frames).mpr ⟨va-m.start,by simp,hdvd,hp⟩
      have hsum : m.start+(va-m.start) = va := by omega
      rw [foldl_setWalk_of_unique hmem,hp,Option.map_some]
      · rw [vpn_eq_page h hva hdvd hlt,hsum]
      · intro q hq hv
        obtain ⟨hd,hl,hphys⟩ := page_offset hs hq
        have hoff := (vpn_eq_page h hva hd hl).mp hv
        have hq1 : q.1 = va-m.start := by omega
        rw [hq1,hp] at hphys
        exact Prod.ext hq1 (Option.some.inj hphys).symm
    · rw [if_neg fun hall => hin hall.2]
      apply foldl_setWalk_of_ne
      intro q hq hv
      obtain ⟨hd,hl,_⟩ := page_offset hs hq
      have hoff := (vpn_eq_page h hva hd hl).mp hv
      apply hin
      simp only [UserMapping.stop]
      omega
  · rw [if_neg hrwx,if_neg fun hall => hrwx hall.1]

end

variable {ms : MemorySet} {w : Walk}

theorem mem_mappingPages {p : Nat} (hs : m.Shape) (h : m.InHalf) :
    p ∈ mappingPages m ↔ pageSize ∣ p ∧ m.start ≤ p ∧ p < m.stop := by
  rw [mappingPages,mappingRange_of_lt hs h.lt,mem_stepBy]
  have hd := m.dvd_start
  constructor
  · rintro ⟨i,rfl,hlt⟩
    exact ⟨Nat.dvd_add hd (Dvd.intro_left _ rfl),by omega,hlt⟩
  · rintro ⟨hp,hlo,hhi⟩
    obtain ⟨i,hi⟩ := Nat.dvd_sub hp hd
    exact ⟨i,by rw [Nat.mul_comm] at hi; omega,hhi⟩

theorem Tiled.of_mem_mappingPages {p : Nat} (ht : Tiled ms) (hm : m ∈ ms)
    (hp : p ∈ mappingPages m) : UserPage p ∧ Covers m p = true := by
  have hin := (mem_mappingPages (ht.shape m hm) (ht.inHalf m hm)).mp hp
  exact ⟨(ht.inHalf m hm).userPage hin.1 hin.2.1 hin.2.2,(ht.covers_iff hm).mpr hin.2⟩

theorem Leaves.remove (h : Leaves ms w) (ht : Tiled ms) (out : UserMapping → Bool) :
    Leaves (ms.filter fun m => !out m)
      (clearWalk ((ms.filter fun m => out m).flatMap mappingPages) w) := by
  have ht' : Tiled (ms.filter fun m => !out m) := ht.sublist filter_sublist
  intro va hva
  rcases covered_or_not ms va with ⟨m,hm,hc⟩ | hnone
  · have hbounds := (ht.covers_iff hm).mp hc
    by_cases ho : out m = true
    · have hpage : va ∈ (ms.filter fun m => out m).flatMap mappingPages := by
        refine mem_flatMap.mpr ⟨m,mem_filter.mpr ⟨hm,ho⟩,?_⟩
        exact (mem_mappingPages (ht.shape m hm) (ht.inHalf m hm)).mpr ⟨hva.aligned,hbounds⟩
      rw [clearWalk_of_mem hpage rfl,expectedEntry_none]
      intro m' hm'
      obtain ⟨hm',ho'⟩ := mem_filter.mp hm'
      cases hc' : Covers m' va with
      | false => rfl
      | true =>
        obtain rfl := ht.covers_unique hm hm' hc hc'
        simp [ho] at ho'
    · have hm' : m ∈ ms.filter fun m => !out m := mem_filter.mpr ⟨hm,by simp [ho]⟩
      rw [ht'.expectedEntry_eq hm' hc,← ht.expectedEntry_eq hm hc,← h va hva]
      apply clearWalk_of_ne
      intro p hp hv
      obtain ⟨m',hm'',hp⟩ := mem_flatMap.mp hp
      obtain ⟨hm'',ho'⟩ := mem_filter.mp hm''
      obtain ⟨hup,hcp⟩ := ht.of_mem_mappingPages hm'' hp
      obtain rfl := vpn_inj hva hup hv
      obtain rfl := ht.covers_unique hm hm'' hc hcp
      exact ho ho'
  · rw [expectedEntry_none fun m hm => hnone m (mem_of_mem_filter hm)]
    rw [← expectedEntry_none hnone,← h va hva]
    apply clearWalk_of_ne
    intro p hp hv
    obtain ⟨m',hm',hp⟩ := mem_flatMap.mp hp
    have hm'' := mem_of_mem_filter hm'
    obtain ⟨hup,hcp⟩ := ht.of_mem_mappingPages hm'' hp
    obtain rfl := vpn_inj hva hup hv
    rw [hnone m' hm''] at hcp
    exact absurd hcp (by simp)

theorem Tiled.push (h : Tiled ms) (hs : m.Shape) (hh : m.InHalf)
    (hpos : 0 < m.size) (hfree : ∀ m' ∈ ms, m'.Clear m) : Tiled (ms ++ [m]) := by
  refine ⟨?_,?_,?_,?_⟩
  · intro m' hm'
    rcases mem_append.mp hm' with hm' | hm'
    · exact h.shape m' hm'
    · exact mem_singleton.mp hm' ▸ hs
  · intro m' hm'
    rcases mem_append.mp hm' with hm' | hm'
    · exact h.inHalf m' hm'
    · exact mem_singleton.mp hm' ▸ hh
  · intro m' hm'
    rcases mem_append.mp hm' with hm' | hm'
    · exact h.pos m' hm'
    · exact mem_singleton.mp hm' ▸ hpos
  · rw [pairwise_append]
    refine ⟨h.apart,pairwise_singleton _ _,?_⟩
    intro m' hm' m'' hm''
    exact mem_singleton.mp hm'' ▸ hfree m' hm'

theorem Leaves.push (h : Leaves ms w) (ht : Tiled ms)
    (ht' : Tiled (ms ++ [m])) : Leaves (ms ++ [m]) (mapWalk m.va m.frames m.flags w) := by
  have hm : m ∈ ms ++ [m] := by simp
  intro va hva
  rw [mapWalk_apply (ht'.shape m hm) (ht'.inHalf m hm) hva]
  by_cases hc : Covers m va = true
  · have hin := (ht'.covers_iff hm).mp hc
    rw [ht'.expectedEntry_eq hm hc]
    by_cases hrwx : m.flags.rwx = true
    · rw [if_pos ⟨hrwx,hin⟩,if_pos hrwx]
    · rw [if_neg fun hall => hrwx hall.1,if_neg hrwx,h va hva,expectedEntry_none]
      intro m' hm'
      cases hc' : Covers m' va with
      | false => rfl
      | true =>
        have hclear := (pairwise_append.mp ht'.apart).2.2 m' hm' m (by simp)
        have hin' := (ht.covers_iff hm').mp hc'
        simp only [UserMapping.Clear] at hclear
        omega
  · rw [if_neg fun hall => hc ((ht'.covers_iff hm).mpr hall.2),h va hva]
    have hcf : Covers m va = false := by simpa using hc
    unfold expectedEntry
    simp [hcf]

theorem Leaves.failed {σ : Type} {s : TaskMemory σ} (h : Leaves ms s.walk)
    (ht : Tiled ms) (hs : m.Shape) (hh : m.InHalf) (hfree : ∀ m' ∈ ms, m'.Clear m)
    (hf : FailedWalk m.va m.flags (framePages 0 m.frames) s w) : Leaves ms w := by
  obtain ⟨done,page,rest,hpages,_,rfl⟩ := hf
  have hsorted : (framePages 0 m.frames).Pairwise _ := framePages_pairwise hs.frames
  rw [hpages] at hsorted
  have hlt : ∀ d ∈ done, d.1 < page.1 := fun d hd =>
    (pairwise_append.mp hsorted).2.2 d hd page mem_cons_self
  have hpage : page ∈ framePages 0 m.frames := by simp [hpages]
  obtain ⟨hdvd,hsize,_⟩ := page_offset hs hpage
  intro va hva
  by_cases hin : m.start ≤ va ∧ va < m.start+page.1
  · have hoff : va-m.start ∈ stepBy 0 page.1 := by
      obtain ⟨i,hi⟩ := Nat.dvd_sub hva.aligned m.dvd_start
      exact mem_stepBy.mpr ⟨i,by rw [Nat.zero_add,hi,Nat.mul_comm],by omega⟩
    have hd : pageSize ∣ va-m.start := Nat.dvd_sub hva.aligned m.dvd_start
    have hva' : va = m.start+(va-m.start) := by omega
    rw [clearWalk_of_mem (mem_map_of_mem hoff)
      ((vpn_eq_page hh hva hd (by omega)).mpr hva'),expectedEntry_none]
    intro m' hm'
    cases hc' : Covers m' va with
    | false => rfl
    | true =>
      have hclear := hfree m' hm'
      have hin' := (ht.covers_iff hm').mp hc'
      simp only [UserMapping.Clear,UserMapping.stop] at hclear hin'
      omega
  · rw [clearWalk_of_ne,foldl_setWalk_of_ne]
    · exact h va hva
    · intro d hd hv
      have hdmem : d ∈ framePages 0 m.frames := by simp [hpages,hd]
      obtain ⟨hdd,hdl,_⟩ := page_offset hs hdmem
      have heq := (vpn_eq_page hh hva hdd hdl).mp hv
      have hdlt := hlt d hd
      omega
    · intro p hp hv
      obtain ⟨off,hoff,rfl⟩ := mem_map.mp hp
      obtain ⟨i,hi,hol⟩ := mem_stepBy.mp hoff
      have hdd : pageSize ∣ off := by
        rw [hi,Nat.zero_add]
        exact Dvd.intro_left _ rfl
      have heq := (vpn_eq_page hh hva hdd (by omega)).mp hv
      omega

end Athera
