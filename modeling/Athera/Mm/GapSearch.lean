import Athera.Mm.WellFormed

/-!
# The search for a free region

`find_free_region` goes down from the user stack through the mappings below it; a mapping that
reaches across the lower end of the stack is not looked at.
-/

namespace Athera

open Framework List

section

variable {length top t : Nat} {ranges : List (Nat × Nat)}

/-- The search over ranges that lie below each other yields a gap that ends at the top or at one
of the ranges. -/
theorem searchGap_spec (hsorted : ranges.Pairwise fun r r' => r'.2 ≤ r.1)
    (hbounds : ∀ r ∈ ranges, r.1 < r.2 ∧ r.2 ≤ top) (h : searchGap length top ranges = some t) :
    (∀ r ∈ ranges, r.2 ≤ t ∨ t+length ≤ r.1) ∧ t+length ≤ top ∧
      (t+length = top ∨ ∃ r ∈ ranges, t+length = r.1) := by
  induction ranges generalizing top with
  | nil =>
    rw [searchGap] at h
    split at h
    · obtain rfl := Option.some.inj h
      exact ⟨by simp,by omega,by omega⟩
    · exact absurd h (by simp)
  | cons r rest ih =>
    obtain ⟨s,e⟩ := r
    obtain ⟨hbelow,hsorted⟩ := pairwise_cons.mp hsorted
    have hr := hbounds (s, e) mem_cons_self
    rw [searchGap] at h
    split at h
    · obtain rfl := Option.some.inj h
      refine ⟨?_,by omega,by omega⟩
      intro r' hr'
      rcases mem_cons.mp hr' with rfl | hr'
      · omega
      · have hlow := hbelow r' hr'
        omega
    · have hrest : ∀ r' ∈ rest, r'.1 < r'.2 ∧ r'.2 ≤ s := fun r' hr' =>
        ⟨(hbounds r' (mem_cons_of_mem _ hr')).1,hbelow r' hr'⟩
      obtain ⟨hfree,hle,hend⟩ := ih hsorted hrest h
      refine ⟨?_,by omega,?_⟩
      · intro r' hr'
        rcases mem_cons.mp hr' with rfl | hr'
        · exact Or.inr hle
        · exact hfree r' hr'
      · right
        rcases hend with hend | ⟨r',hr',hend⟩
        · exact ⟨(s, e),mem_cons_self,hend⟩
        · exact ⟨r',mem_cons_of_mem _ hr',hend⟩

/-- The search finds no lower gap than it has to. -/
theorem searchGap_complete (hlen : 0 < length) (hsorted : ranges.Pairwise fun r r' => r'.2 ≤ r.1)
    (hfree : ∀ r ∈ ranges, r.2 ≤ t ∨ t+length ≤ r.1) (hle : t+length ≤ top) :
    ∃ a, searchGap length top ranges = some a ∧ t ≤ a := by
  induction ranges generalizing top with
  | nil =>
    rw [searchGap,if_pos (by omega)]
    exact ⟨_,rfl,by omega⟩
  | cons r rest ih =>
    obtain ⟨s,e⟩ := r
    obtain ⟨hbelow,hsorted⟩ := pairwise_cons.mp hsorted
    rw [searchGap]
    by_cases hgap : e < top ∧ length ≤ top-e
    · rw [if_pos hgap]
      exact ⟨_,rfl,by omega⟩
    · rw [if_neg hgap]
      apply ih hsorted fun r' hr' => hfree r' (mem_cons_of_mem _ hr')
      -- the gap does not lie above the range, for then it would have been taken
      have hr := hfree (s, e) mem_cons_self
      omega

theorem searchGap_top (hlen : 0 < length) (htop : length ≤ top)
    (hgap : ∀ r ∈ ranges, r.2+length ≤ top) : searchGap length top ranges = some (top-length) := by
  cases ranges with
  | nil => rw [searchGap,if_pos htop]
  | cons r rest =>
    obtain ⟨s,e⟩ := r
    have hr := hgap (s, e) mem_cons_self
    rw [searchGap,if_pos ⟨by omega,by omega⟩]

end

section

variable {ms : MemorySet} {length t : Nat}

/-- The ranges the search goes through, highest first. -/
def rangesBelow (ms : MemorySet) : List (Nat × Nat) :=
  (((ms.map mappingRange).filter fun r => decide (r.2 ≤ userStackLowerBound)).insertionSort
    fun r r' => r.1 ≤ r'.1).reverse

theorem mem_rangesBelow {r : Nat × Nat} :
    r ∈ rangesBelow ms ↔ ∃ m ∈ ms, r = mappingRange m ∧ r.2 ≤ userStackLowerBound := by
  simp only [rangesBelow,mem_reverse,mem_insertionSort,mem_filter,mem_map,decide_eq_true_eq]
  constructor
  · rintro ⟨⟨m,hm,rfl⟩,hle⟩
    exact ⟨m,hm,rfl,hle⟩
  · rintro ⟨m,hm,rfl,hle⟩
    exact ⟨⟨m,hm,rfl⟩,hle⟩

/-- Every mapping covers something, and no two of them overlap. -/
structure Separate (ms : MemorySet) : Prop where
  pos : ∀ m ∈ ms, (mappingRange m).1 < (mappingRange m).2
  apart : ms.Pairwise fun m m' => (mappingRange m).2 ≤ (mappingRange m').1 ∨
    (mappingRange m').2 ≤ (mappingRange m).1

theorem Tiled.separate (h : Tiled ms) : Separate ms := by
  refine ⟨?_,h.apart.imp_of_mem ?_⟩
  · intro m hm
    have hsize := h.pos m hm
    rw [h.range_eq hm]
    simp only [UserMapping.stop]
    omega
  · intro m m' hm hm' hc
    rw [h.range_eq hm,h.range_eq hm']
    exact hc

theorem Separate.rangesBelow_sorted (h : Separate ms) :
    (rangesBelow ms).Pairwise fun r r' => r'.2 ≤ r.1 := by
  have hclear : (ms.map mappingRange).Pairwise fun r r' => r.2 ≤ r'.1 ∨ r'.2 ≤ r.1 :=
    pairwise_map.mpr h.apart
  have hpos : ∀ r ∈ ms.map mappingRange, r.1 < r.2 := by
    intro r hr
    obtain ⟨m,hm,rfl⟩ := mem_map.mp hr
    exact h.pos m hm
  have hsub := hclear.filter fun r => decide (r.2 ≤ userStackLowerBound)
  have hperm := perm_insertionSort (fun r r' : Nat × Nat => r.1 ≤ r'.1)
    ((ms.map mappingRange).filter fun r => decide (r.2 ≤ userStackLowerBound))
  have hclear' := (hperm.pairwise_iff (fun {_ _} h => Or.symm h)).mpr hsub
  have hsort := pairwise_insertionSort (fun r r' : Nat × Nat => r.1 ≤ r'.1)
    ((ms.map mappingRange).filter fun r => decide (r.2 ≤ userStackLowerBound))
  rw [rangesBelow,pairwise_reverse]
  refine (hclear'.and hsort).imp_of_mem ?_
  intro r r' hr hr' hboth
  have hr1 := hpos r' (mem_of_mem_filter ((mem_insertionSort _).mp hr'))
  omega

theorem Separate.rangesBelow_bounds (h : Separate ms) :
    ∀ r ∈ rangesBelow ms, r.1 < r.2 ∧ r.2 ≤ userStackLowerBound := by
  intro r hr
  obtain ⟨m,hm,rfl,hle⟩ := mem_rangesBelow.mp hr
  exact ⟨h.pos m hm,hle⟩

/-- What the search finds lies below the stack and is clear of the mappings below the stack. -/
theorem findFreeRegion_spec (ht : Tiled ms) (hdvd : pageSize ∣ length)
    (h : findFreeRegion ms length = some t) : pageSize ∣ t ∧ t+length ≤ userStackLowerBound ∧
      ∀ m ∈ ms, m.stop ≤ userStackLowerBound → m.stop ≤ t ∨ t+length ≤ m.start := by
  obtain ⟨hfree,hle,hend⟩ := searchGap_spec ht.separate.rangesBelow_sorted ht.separate.rangesBelow_bounds h
  refine ⟨?_,hle,?_⟩
  · have hsum : pageSize ∣ t+length := by
      rcases hend with hend | ⟨r,hr,hend⟩
      · rw [hend]
        decide
      · obtain ⟨m,hm,rfl,_⟩ := mem_rangesBelow.mp hr
        rw [hend,ht.range_eq hm]
        exact m.dvd_start
    exact (Nat.dvd_add_left hdvd).mp hsum
  · intro m hm hstop
    have hmem : mappingRange m ∈ rangesBelow ms :=
      mem_rangesBelow.mpr ⟨m,hm,rfl,by rw [ht.range_eq hm]; exact hstop⟩
    have hr := hfree _ hmem
    rw [ht.range_eq hm] at hr
    exact hr

/-- No mapping reaches across the lower end of the stack, or one that ends closely below it
keeps the search away from there. -/
def GapClear (ms : MemorySet) (length : Nat) : Prop :=
  ∀ m ∈ ms, (mappingRange m).1 < userStackLowerBound ∧ userStackLowerBound < (mappingRange m).2 →
    ∃ m' ∈ ms, (mappingRange m').2 ≤ userStackLowerBound ∧
      userStackLowerBound < (mappingRange m').2 + length

instance (ms : MemorySet) (length : Nat) : Decidable (GapClear ms length) :=
  inferInstanceAs (Decidable (∀ m ∈ ms, _ → ∃ m' ∈ ms, _))

theorem rangeIsFree_findFreeRegion_iff (ht : Tiled ms) (hlen : 0 < length)
    (hdvd : pageSize ∣ length) (h : findFreeRegion ms length = some t) :
    rangeIsFree ms t (t+length) = true ↔ GapClear ms length := by
  obtain ⟨_,hle,hfree⟩ := findFreeRegion_spec ht hdvd h
  rw [ht.rangeIsFree_iff]
  constructor
  · intro hall m hm
    rw [ht.range_eq hm]
    rintro ⟨hlo,hhi⟩
    by_contra hnone
    have hgap : ∀ r ∈ rangesBelow ms, r.2+length ≤ userStackLowerBound := by
      intro r hr
      obtain ⟨m',hm',rfl,hr'⟩ := mem_rangesBelow.mp hr
      by_contra hgt
      exact hnone ⟨m',hm',hr',by omega⟩
    have htop : findFreeRegion ms length = some (userStackLowerBound-length) :=
      searchGap_top hlen (by omega) hgap
    rw [htop] at h
    obtain rfl := Option.some.inj h
    have hm' := hall m hm
    omega
  · intro hclear m hm
    by_cases hstop : m.stop ≤ userStackLowerBound
    · exact (hfree m hm hstop).symm
    · by_cases hstart : userStackLowerBound ≤ m.start
      · exact Or.inl (by omega)
      · have hm' := hclear m hm
        rw [ht.range_eq hm] at hm'
        obtain ⟨n,hn,hn1,hn2⟩ := hm' ⟨by omega,by omega⟩
        rw [ht.range_eq hn] at hn1 hn2
        have hne : n ≠ m := by
          rintro rfl
          exact hstop hn1
        have hsymm : Std.Symm UserMapping.Clear := ⟨fun _ _ => UserMapping.Clear.symm⟩
        have hap := ht.apart.forall hn hm hne
        have hnf := hfree n hn hn1
        simp only [UserMapping.Clear] at hap
        have hnstop : n.stop = n.start+n.size := rfl
        omega

end

variable {ms : MemorySet} {length : Nat}

/-- A region below the stack that meets no mapping. -/
def IsGap (ms : MemorySet) (length a : Nat) : Prop :=
  a + length ≤ userStackLowerBound ∧
    ∀ m ∈ ms, a + length ≤ (mappingRange m).1 ∨ (mappingRange m).2 ≤ a

/-- The answer is the highest gap, and there is none without an answer. -/
def IsHighestGap (ms : MemorySet) (length : Nat) : Option Nat → Prop
  | some a => IsGap ms length a ∧ ∀ b, IsGap ms length b → b ≤ a
  | none => ∀ b, ¬ IsGap ms length b

theorem findFreeRegion_eq (ms : MemorySet) (length : Nat) :
    findFreeRegion ms length = searchGap length userStackLowerBound (rangesBelow ms) := rfl

/-- Where the search is not misled a gap is a gap between the ranges that it looks at. -/
theorem Separate.isGap_iff (h : Separate ms) (hclear : GapClear ms length) {a : Nat} :
    IsGap ms length a ↔ a+length ≤ userStackLowerBound ∧
      ∀ r ∈ rangesBelow ms, r.2 ≤ a ∨ a+length ≤ r.1 := by
  constructor
  · intro hgap
    refine ⟨hgap.1,?_⟩
    intro r hr
    obtain ⟨m,hm,rfl,_⟩ := mem_rangesBelow.mp hr
    exact (hgap.2 m hm).symm
  · intro hgap
    refine ⟨hgap.1,?_⟩
    intro m hm
    by_cases hstop : (mappingRange m).2 ≤ userStackLowerBound
    · exact (hgap.2 _ (mem_rangesBelow.mpr ⟨m,hm,rfl,hstop⟩)).symm
    · by_cases hstart : userStackLowerBound ≤ (mappingRange m).1
      · exact Or.inl (hgap.1.trans hstart)
      · -- the mapping reaches across, and another one keeps the gap below it
        obtain ⟨n,hn,hn1,hn2⟩ := hclear m hm ⟨by omega,by omega⟩
        have hne : n ≠ m := by
          intro he
          rw [he] at hn1
          exact hstop hn1
        have hsymm : Std.Symm fun m m' : UserMapping => (mappingRange m).2 ≤ (mappingRange m').1 ∨
          (mappingRange m').2 ≤ (mappingRange m).1 := ⟨fun _ _ => Or.symm⟩
        have hap := h.apart.forall hn hm hne
        have hgapn := hgap.2 _ (mem_rangesBelow.mpr ⟨n,hn,rfl,hn1⟩)
        have hposn := h.pos n hn
        omega

/-- The search is sound and complete exactly when no mapping across the lower end of the stack misleads
it; a length that does not fit below the stack has no answer in any case. -/
theorem find_free_region_iff (h : Separate ms) (hlen : 0 < length) :
    IsHighestGap ms length (findFreeRegion ms length) ↔
      GapClear ms length ∨ userStackLowerBound < length := by
  constructor
  · intro hhighest
    by_contra hnot
    obtain ⟨hmisled,hfits⟩ := not_or.mp hnot
    simp only [GapClear,not_forall] at hmisled
    obtain ⟨m,hm,hacross,hnone⟩ := hmisled
    have hgap : ∀ r ∈ rangesBelow ms, r.2 + length ≤ userStackLowerBound := by
      intro r hr
      obtain ⟨n,hn,rfl,hn1⟩ := mem_rangesBelow.mp hr
      by_contra hgt
      exact hnone ⟨n,hn,hn1,by omega⟩
    have htop := searchGap_top hlen (by omega) hgap
    rw [findFreeRegion_eq,htop] at hhighest
    have hm' := hhighest.1.2 m hm
    omega
  · intro hcond
    rw [findFreeRegion_eq]
    cases hres : searchGap length userStackLowerBound (rangesBelow ms) with
    | none =>
      intro b hb
      rcases hcond with hclear | hbig
      · obtain ⟨hle,hfree⟩ := (h.isGap_iff hclear).mp hb
        obtain ⟨a,ha,_⟩ := searchGap_complete hlen h.rangesBelow_sorted hfree hle
        rw [hres] at ha
        cases ha
      · have hle := hb.1
        omega
    | some t =>
      obtain ⟨hfree,hle,_⟩ := searchGap_spec h.rangesBelow_sorted h.rangesBelow_bounds hres
      rcases hcond with hclear | hbig
      · refine ⟨(h.isGap_iff hclear).mpr ⟨hle,hfree⟩,?_⟩
        intro b hb
        obtain ⟨hle',hfree'⟩ := (h.isGap_iff hclear).mp hb
        obtain ⟨a,ha,hba⟩ := searchGap_complete hlen h.rangesBelow_sorted hfree' hle'
        rw [hres] at ha
        cases ha
        exact hba
      · omega

/-- A page right below the stack, and one further down. -/
def belowStack : MemorySet :=
  [⟨0xffff7000,[⟨0x80000000,0x1000⟩],.new⟩,⟨0xffff4000,[⟨0x80001000,0x1000⟩],.new⟩]

theorem find_free_region_iff_below : findFreeRegion belowStack 0x2000 = some 0xffff5000 ∧
    (IsHighestGap belowStack 0x2000 (findFreeRegion belowStack 0x2000) ↔
      GapClear belowStack 0x2000 ∨ userStackLowerBound < 0x2000) := by
  refine ⟨by decide,find_free_region_iff ⟨?_,?_⟩ (by decide)⟩
  · decide
  · decide

/-- Two pages across the lower end of the stack. -/
def acrossStack : MemorySet := [⟨0xffff7000,[⟨0x80000000,0x2000⟩],.new⟩]

/-- The search answers with a page of the mapping. -/
theorem gap_overlaps_mapping : Separate acrossStack ∧ findFreeRegion acrossStack 0x1000 = some 0xffff7000 ∧
    ¬ IsHighestGap acrossStack 0x1000 (findFreeRegion acrossStack 0x1000) := by
  have hfind : findFreeRegion acrossStack 0x1000 = some 0xffff7000 := by decide
  refine ⟨⟨by decide,pairwise_singleton _ _⟩,hfind,?_⟩
  intro hgap
  have hmeets := hgap.1.2 _ (mem_singleton_self _)
  revert hmeets
  decide

end Athera
