import Athera.Mm.Moving

/-!
# mremap keeps tasks well formed and moves pages

The condition on the sizes of a call, and what follows from it for every outcome of `mremap`.
-/

namespace Athera

open Framework Action List

variable {σ : Type} [LawfulFrameAllocator σ] {s s' s1 s2 : TaskMemory σ}
  {old oldSize newSize flags newAddress dest r : Nat} {prot : PageFlags}
  {frames : List Frame} {buffers : List Buffer} {replace : Bool}

def cutRanges (start stop : Nat) (rs : List (Nat × Nat)) : List (Nat × Nat) :=
  rs.flatMap fun r =>
    if r.1 < stop ∧ start < r.2 then
      (if r.1 < start then [(r.1, start)] else []) ++ (if stop < r.2 then [(stop, r.2)] else [])
    else [r]

theorem Cut.mem_cutRanges {start stop : Nat} {m : UserMapping}
    (h : Cut s s1 [] start stop buffers) (hw : WellFormed s []) (hstart : pageSize ∣ start)
    (hstop : pageSize ∣ stop) (hlt : start < stop) (hb : CutBacked s.mappings start stop)
    (hm : m ∈ s1.mappings) :
    mappingRange m ∈ cutRanges start stop (s.mappings.map mappingRange) := by
  have hw1 := h.wellFormed hw hstart hlt hb
  rw [cutRanges,mem_flatMap]
  rcases h.covered hm with ⟨hm,hno⟩ | ⟨b,hbm,rfl⟩
  · refine ⟨mappingRange m,mem_map_of_mem hm,?_⟩
    have hover : ¬ (m.start < stop ∧ start < m.stop) := by
      rw [← hw.tiled.overlaps_iff hm,hno]
      simp
    rw [hw.tiled.range_eq hm,if_neg hover]
    exact mem_singleton.mpr rfl
  · obtain ⟨m,hmem,hk⟩ := h.toBuffers.keep_mem hbm
    obtain ⟨hover,hside⟩ := (hw.tiled.mem_keepsOf hmem).mp hk
    have hs := hw.tiled.shape m hmem
    refine ⟨mappingRange m,mem_map_of_mem hmem,?_⟩
    rw [hw.tiled.range_eq hmem,if_pos hover,hw1.tiled.range_eq hm,
      bufferMapping_stop (h.toBuffers.sizes b hbm),bufferMapping_start]
    rcases hside with ⟨hl,hkeep⟩ | ⟨hr,hkeep⟩
    · obtain ⟨hlo,hhi⟩ := left_hi hs hstart hl hover.2
        (hb.left hw.tiled hmem hl hover.2)
      rw [hkeep,hlo,hhi,if_pos hl]
      exact mem_append_left _ (mem_singleton.mpr rfl)
    · have hhi := right_hi (f := m.flags) hs hr hover.1 (hb.right hw.tiled hmem hover.1 hr)
      have hlo : (Keep.mk stop (m.stop-stop) m.flags).lo = stop := Nat.div_mul_cancel hstop
      rw [hkeep,hlo,hhi,if_pos hr]
      exact mem_append_right _ (mem_singleton.mpr rfl)

section

variable {ms : MemorySet} {va : Nat}

theorem Tiled.flagsOfFirst_eq_some (h : Tiled ms) (hva : va+1 < wordRange)
    (hf : flagsOfFirst ms va = some prot) : ∃ m ∈ ms, Covers m va = true ∧ m.flags = prot := by
  rw [flagsOfFirst,wrap_of_lt hva] at hf
  obtain ⟨m,hfind,rfl⟩ := Option.map_eq_some_iff.mp hf
  have hm := mem_of_find?_eq_some hfind
  have ho := (h.overlaps_iff hm).mp (by simpa using find?_some hfind)
  exact ⟨m,hm,(h.covers_iff hm).mpr (by omega),rfl⟩

theorem covered_of_fullyMapped {vas : List Nat} (h : fullyMapped ms vas = some true) :
    ∀ va ∈ vas, ∃ m ∈ ms, Covers m va = true := by
  induction vas with
  | nil => simp
  | cons va vas ih =>
    rcases covered_or_not ms va with hcov | hnone
    · intro va' hva'
      rcases mem_cons.mp hva' with rfl | hva'
      · exact hcov
      · rw [fullyMapped] at h
        cases hp : pagePhys ms va with
        | none => simp [hp] at h
        | some r =>
          cases r with
          | none => simp [hp] at h
          | some p =>
            rw [hp] at h
            exact ih h va' hva'
    · rw [fullyMapped,pagePhys_eq,find_covers_none hnone] at h
      simp at h

theorem covered_of_rangeFullyMapped {start stop : Nat}
    (h : rangeFullyMapped ms start stop = some true) (hstart : pageSize ∣ start)
    (hva : pageSize ∣ va) (hlo : start ≤ va) (hhi : va < stop) : ∃ m ∈ ms, Covers m va = true := by
  apply covered_of_fullyMapped h
  obtain ⟨i,hi⟩ := Nat.dvd_sub hva hstart
  exact mem_stepBy.mpr ⟨i,by rw [Nat.mul_comm] at hi; omega,hhi⟩

theorem canonical_of_rangeFullyMapped {start stop : Nat} (ht : Tiled ms)
    (h : rangeFullyMapped ms start stop = some true) (hstart : pageSize ∣ start)
    (hlt : start < stop) : isCanonicalUserRange start stop = true := by
  simp only [isCanonicalUserRange,Bool.or_eq_true,decide_eq_true_eq]
  by_contra hno
  have hva : pageSize ∣ max start lowHalfEnd := by
    rcases le_total start lowHalfEnd with hle | hle
    · rw [max_eq_right hle]
      decide
    · rw [max_eq_left hle]
      exact hstart
  obtain ⟨m,hm,hc⟩ := covered_of_rangeFullyMapped h hstart hva (le_max_left _ _) (by omega)
  have hin := (ht.covers_iff hm).mp hc
  have hup := ((ht.inHalf m hm).userPage hva hin.1 hin.2).canonical
  have hhalf : lowHalfEnd < highHalfStart := by decide
  omega

end

section

/-- The new size and what the cuts leave behind consist of whole blocks. A move to a fixed place
cuts the destination first, and the old range out of what is left then. -/
def MremapBacked (ms : MemorySet) (old oldSize newSize flags newAddress : Nat) : Prop :=
  WholeBlocks newSize ∧
    if StaysInPlace ms old oldSize newSize ∨ mremapIsFixed flags = false then
      CutBacked ms old (old + oldSize)
    else
      CutBacked ms newAddress (newAddress + newSize) ∧
        RangesBacked (cutRanges newAddress (newAddress + newSize) (ms.map mappingRange))
          old (old + oldSize)

instance (ms : MemorySet) (old oldSize newSize flags newAddress : Nat) :
    Decidable (MremapBacked ms old oldSize newSize flags newAddress) :=
  inferInstanceAs (Decidable (_ ∧ ite _ _ _))

section

variable {ms : MemorySet}

theorem MovesTo.of_replace (h : MovesTo ms old oldSize newSize flags newAddress dest true) :
    ¬ StaysInPlace ms old oldSize newSize ∧ mremapIsFixed flags = true ∧ dest = newAddress := by
  cases h with
  | same h hf _ =>
    refine ⟨?_,hf,rfl⟩
    rintro (hlt | ⟨hlt,_⟩) <;> omega
  | fixed _ _ hno hf => exact ⟨hno,hf,rfl⟩

theorem MovesTo.mapped
    (h : MovesTo ms old oldSize newSize flags newAddress dest replace) (hne : newSize ≠ oldSize) :
    rangeFullyMapped ms old (old+oldSize) = some true := by
  cases h with
  | same h _ _ => exact absurd h hne
  | fixed _ hmapped _ _ => exact hmapped
  | gap _ hmapped _ _ _ => exact hmapped

theorem MovesTo.not_keepsAll (h : MovesTo ms old oldSize newSize flags newAddress dest replace) :
    ¬ KeepsAll old oldSize newSize flags newAddress := by
  rintro ⟨heq,hno⟩
  cases h with
  | same _ hf hne => exact hno ⟨hf,hne⟩
  | fixed hlt _ _ _ => omega
  | gap hlt _ _ _ _ => omega

theorem StaysInPlace.not_keepsAll (h : StaysInPlace ms old oldSize newSize) :
    ¬ KeepsAll old oldSize newSize flags newAddress := by
  rintro ⟨heq,_⟩
  rcases h with hlt | ⟨hlt,_⟩ <;> omega

theorem MovesTo.backed (h : MovesTo ms old oldSize newSize flags newAddress dest true)
    (hb : MremapBacked ms old oldSize newSize flags newAddress) : CutBacked ms dest (dest+newSize) ∧
      RangesBacked (cutRanges dest (dest+newSize) (ms.map mappingRange)) old (old+oldSize) := by
  obtain ⟨hno,hf,rfl⟩ := h.of_replace
  obtain ⟨_,hcut⟩ := hb
  rwa [if_neg (by simp [hno,hf])] at hcut

theorem MovesTo.cut_backed (h : MovesTo ms old oldSize newSize flags newAddress dest replace)
    (hb : MremapBacked ms old oldSize newSize flags newAddress) (hr : replace = true) :
    CutBacked ms dest (dest+newSize) := by
  subst hr
  exact (h.backed hb).1

end

variable (hargs : MremapArgs old oldSize newSize flags newAddress) (hw : WellFormed s [])

include hargs hw

theorem inPlace_place (hmapped : rangeFullyMapped s.mappings old (old+oldSize) = some true)
    (hplace : StaysInPlace s.mappings old oldSize newSize) :
    RebuildPlace s old (old+oldSize) old newSize := by
  have hpos := hargs.oldPos
  have hfits := hargs.fits
  have hcanon : old+newSize < wordRange ∧ isCanonicalUserRange old (old+newSize) = true := by
    rcases hplace with hlt | ⟨_,hlt,_,hcanon⟩
    · have hall := canonical_of_rangeFullyMapped hw.tiled hmapped hargs.aligned (by omega)
      simp only [isCanonicalUserRange,Bool.or_eq_true,decide_eq_true_eq] at hall ⊢
      omega
    · exact ⟨hlt,hcanon⟩
  refine ⟨hw,hargs.aligned,Nat.dvd_add hargs.aligned hargs.oldDvd,by omega,hargs.newPos,
    hargs.aligned,hcanon.1,hcanon.2,?_⟩
  intro va _ hlo hhi hout
  rcases hplace with hlt | ⟨_,_,hfree,_⟩
  · omega
  · exact hw.tiled.listed_of_free hfree (by omega) hhi

section

variable (hto : MovesTo s.mappings old oldSize newSize flags newAddress dest replace)
  (hcut : replace = true → CutBacked s.mappings dest (dest + newSize))
include hto hcut

theorem vacated_listed (hvac : Vacated s s1 dest (dest+newSize) replace) :
    pageSize ∣ dest ∧ WellFormed s1 [] ∧ CutListed s s1 dest (dest+newSize) := by
  have hpos := hargs.newPos
  cases replace with
  | true =>
    have hcut := hcut rfl
    obtain ⟨_,hf,rfl⟩ := hto.of_replace
    obtain ⟨buffers,hc⟩ := hvac
    have hdvd := hargs.fixedDvd hf
    have hend := Nat.dvd_add hdvd hargs.newDvd
    have hlt : dest < dest+newSize := by omega
    exact ⟨hdvd,hc.wellFormed hw hdvd hlt hcut,
      (hc.listed_iff hw hdvd hlt).mpr ⟨hcut,fun _ _ _ => hend⟩⟩
  | false =>
    obtain ⟨rfl,hfree⟩ := hvac
    cases hto with
    | gap _ _ _ hf hfind =>
      exact ⟨(findFreeRegion_spec hw.tiled hargs.newDvd hfind).1,hw,
        ⟨fun va _ => hw.tiled.listed_of_free hfree,fun _ _ _ _ => rfl⟩⟩

theorem moved_place (hcall : MoveCall old (old+oldSize) dest newSize)
    (hvac : Vacated s s1 dest (dest+newSize) replace) :
    RebuildPlace s1 old (old+oldSize) dest newSize := by
  obtain ⟨hdvd,hw1,hl⟩ := vacated_listed hargs hw hto hcut hvac
  have hpos := hargs.oldPos
  exact ⟨hw1,hargs.aligned,Nat.dvd_add hargs.aligned hargs.oldDvd,by omega,hargs.newPos,
    hdvd,hcall.fits,hcall.canonical,fun va hva hlo hhi _ => hl.inside va hva hlo hhi⟩

end

variable (hb : MremapBacked s.mappings old oldSize newSize flags newAddress)

include hb

theorem inPlace_plan (hmapped : rangeFullyMapped s.mappings old (old+oldSize) = some true)
    (hplace : StaysInPlace s.mappings old oldSize newSize) :
    RebuildPlan s old (old+oldSize) old newSize := by
  obtain ⟨hwhole,hcut⟩ := hb
  rw [if_pos (Or.inl hplace)] at hcut
  exact ⟨inPlace_place hargs hw hmapped hplace,hcut,hwhole⟩

theorem moved_plan (hto : MovesTo s.mappings old oldSize newSize flags newAddress dest replace)
    (hcall : MoveCall old (old+oldSize) dest newSize)
    (hvac : Vacated s s1 dest (dest+newSize) replace) :
    RebuildPlan s1 old (old+oldSize) dest newSize := by
  refine ⟨moved_place hargs hw hto (hto.cut_backed hb) hcall hvac,?_,hb.1⟩
  have hpos := hargs.newPos
  cases replace with
  | true =>
    obtain ⟨hcut,hrest⟩ := hto.backed hb
    obtain ⟨_,hf,rfl⟩ := hto.of_replace
    obtain ⟨buffers,hc⟩ := hvac
    have hdvd := hargs.fixedDvd hf
    intro range hrange
    obtain ⟨m,hm,rfl⟩ := mem_map.mp hrange
    exact hrest _ (hc.mem_cutRanges hw hdvd (Nat.dvd_add hdvd hargs.newDvd) (by omega) hcut hm)
  | false =>
    obtain ⟨rfl,_⟩ := hvac
    obtain ⟨_,hcut⟩ := hb
    cases hto with
    | gap _ _ _ hf _ => rwa [if_pos (Or.inr hf)] at hcut

end

section

variable (hw : WellFormed s [])

include hw

theorem MremapDone.wellFormed (hargs : MremapArgs old oldSize newSize flags newAddress)
    (hb : KeepsAll old oldSize newSize flags newAddress ∨
      MremapBacked s.mappings old oldSize newSize flags newAddress)
    (h : MremapDone s old oldSize newSize flags newAddress r s') : WellFormed s' [] := by
  cases h with
  | unchanged _ _ => exact hw
  | inPlace hmapped hplace hflags hdone =>
    rcases hb with hkeep | hb
    · exact absurd hkeep hplace.not_keepsAll
    · exact (inPlace_plan hargs hw hb hmapped hplace).rebuilt_wellFormed hdone
  | moved hto hmoved =>
    obtain ⟨hcall,s1,prot,hvac,_,s2,s3,frames,buffers,hdone⟩ := hmoved
    rcases hb with hkeep | hb
    · exact absurd hkeep hto.not_keepsAll
    · exact (moved_plan hargs hw hb hto hcall hvac).rebuilt_wellFormed hdone

theorem MremapFailed.wellFormed
    (hb : KeepsAll old oldSize newSize flags newAddress ∨
      MremapBacked s.mappings old oldSize newSize flags newAddress)
    (h : MremapFailed s old oldSize newSize flags newAddress s') : WellFormed s' [] := by
  cases h with
  | refused h =>
    rw [h]
    exact hw
  | inPlace hargs hmapped hplace hflags hfail =>
    rcases hb with hkeep | hb
    · exact absurd hkeep hplace.not_keepsAll
    · exact (inPlace_plan hargs hw hb hmapped hplace).failed_wellFormed hfail
  | moved hargs hto hfail =>
    rcases hb with hkeep | hb
    · exact absurd hkeep hto.not_keepsAll
    · cases hfail with
      | refused h =>
        rw [h]
        exact hw
      | cut hcall hr hown _ hcases =>
        subst hr
        rcases hcases with hsame | ⟨buffers,hbuf,hlack⟩
        · exact hsame.wellFormed hw hown
        · obtain ⟨_,hf,rfl⟩ := hto.of_replace
          exact absurd hlack (hw.not_lacksTable hbuf (hargs.fixedDvd hf) (hto.backed hb).1)
      | flags hcall hvac => exact (vacated_listed hargs hw hto (hto.cut_backed hb) hvac).2.1
      | rebuild hcall hvac _ hfail =>
        exact (moved_plan hargs hw hb hto hcall hvac).failed_wellFormed hfail

end

/-- The mappings that meet the range have the same flags. -/
def SameFlags (ms : MemorySet) (start stop : Nat) : Prop :=
  ∀ m ∈ ms, ∀ m' ∈ ms, overlaps m start stop = true → overlaps m' start stop = true →
    m.flags = m'.flags

instance (ms : MemorySet) (start stop : Nat) : Decidable (SameFlags ms start stop) :=
  inferInstanceAs (Decidable (∀ m ∈ ms, ∀ m' ∈ ms, _ → _ → _))

/-- A call that keeps everything needs the range to be mapped; any other call needs whole blocks
and the same flags on all the pages it carries over. -/
def MremapExactWhen (ms : MemorySet) (old oldSize newSize flags newAddress : Nat) : Prop :=
  if KeepsAll old oldSize newSize flags newAddress then
    rangeFullyMapped ms old (old + oldSize) = some true
  else
    MremapBacked ms old oldSize newSize flags newAddress ∧
      SameFlags ms old (old + min oldSize newSize)

instance (ms : MemorySet) (old oldSize newSize flags newAddress : Nat) :
    Decidable (MremapExactWhen ms old oldSize newSize flags newAddress) :=
  inferInstanceAs (Decidable (ite _ _ _))

theorem SameFlags.transfer {held held' : List Frame} {stop : Nat}
    (h : SameFlags s.mappings old stop) (hw : WellFormed s held) (hw1 : WellFormed s1 held')
    (hold : pageSize ∣ old) (hlt : old < stop)
    (hl : ∀ va, pageSize ∣ va → old ≤ va → va < stop → s1.listed va = s.listed va) :
    SameFlags s1.mappings old stop := by
  have hfind : ∀ m ∈ s1.mappings, overlaps m old stop = true →
      ∃ m' ∈ s.mappings, overlaps m' old stop = true ∧ m'.flags = m.flags := by
    intro m hm ho
    have hov := (hw1.tiled.overlaps_iff hm).mp ho
    have hpage := m.dvd_max_start hold
    have hpos := hw1.tiled.pos m hm
    have hend : m.stop = m.start+m.size := rfl
    have hc : Covers m (max old m.start) = true := (hw1.tiled.covers_iff hm).mpr (by omega)
    have h := hl _ hpage (le_max_left _ _) (by omega)
    rw [hw1.tiled.listed_eq hm hc] at h
    rcases covered_or_not s.mappings (max old m.start) with ⟨m',hm',hc'⟩ | hnone
    · rw [hw.tiled.listed_eq hm' hc'] at h
      have hin := (hw.tiled.covers_iff hm').mp hc'
      refine ⟨m',hm',(hw.tiled.overlaps_iff hm').mpr (by omega),?_⟩
      exact (Prod.mk.inj (List.cons.inj h).1).2.symm
    · rw [listed_eq_nil_iff.mpr hnone] at h
      exact absurd h (by simp)
  intro m hm m' hm' ho ho'
  obtain ⟨n,hn,hno,hnf⟩ := hfind m hm ho
  obtain ⟨n',hn',hno',hnf'⟩ := hfind m' hm' ho'
  rw [← hnf,← hnf']
  exact h n hn n' hn' hno hno'

theorem RebuildPlan.exact_of_sameFlags (h : RebuildPlan s old (old+oldSize) dest newSize)
    (hfits : old+oldSize < wordRange)
    (hsame : SameFlags s.mappings old (old+min oldSize newSize))
    (hflags : flagsOfFirst s.mappings old = some prot)
    (hdone : Rebuilt s s' old (old+oldSize) dest newSize prot s1 s2 frames buffers) :
    MremapExact s s' dest old oldSize newSize flags newAddress := by
  have hlt := h.oldLt
  have hpos := h.newPos
  have hd := h.endDvd
  have hdo := h.oldDvd
  obtain ⟨m0,hm0,hc0,rfl⟩ := h.wf.tiled.flagsOfFirst_eq_some
    (by simp only [pageSize] at hd hdo; omega) hflags
  have hin := (h.wf.tiled.covers_iff hm0).mp hc0
  -- the flags found at the start are those of every page that is carried over
  exact h.exact hfits hdone fun m hm ho =>
    hsame m hm m0 hm0 ho ((h.wf.tiled.overlaps_iff hm0).mpr (by omega))

theorem MremapDone.exact (hw : WellFormed s [])
    (hargs : MremapArgs old oldSize newSize flags newAddress)
    (hwhen : MremapExactWhen s.mappings old oldSize newSize flags newAddress)
    (h : MremapDone s old oldSize newSize flags newAddress r s') :
    MremapExact s s' r old oldSize newSize flags newAddress := by
  have hfits := hargs.fits
  cases h with
  | unchanged heq hno =>
    subst heq
    rw [MremapExactWhen,if_pos ⟨rfl,hno⟩] at hwhen
    refine ⟨fun hkeep => absurd ⟨rfl,hno⟩ hkeep,?_,?_,?_,fun _ _ _ _ _ => rfl⟩
    · intro off hoff hlt
      refine ⟨rfl,?_⟩
      intro habs
      obtain ⟨m,hm,hc⟩ := covered_of_rangeFullyMapped hwhen hargs.aligned
        (Nat.dvd_add hargs.aligned hoff) (by omega) (by omega)
      have hnil := listed_eq_nil_iff.mp (congrArg PageView.listed habs) m hm
      rw [hc] at hnil
      exact absurd hnil (by simp)
    · omega
    · intro va _ hlo hhi hout
      exact absurd ⟨hlo,hhi⟩ hout
  | inPlace hmapped hplace hflags hdone =>
    rw [MremapExactWhen,if_neg hplace.not_keepsAll] at hwhen
    obtain ⟨hb,hsame⟩ := hwhen
    exact (inPlace_plan hargs hw hb hmapped hplace).exact_of_sameFlags hfits hsame hflags hdone
  | moved hto hmoved =>
    obtain ⟨hcall,s1,prot,hvac,hflags,s2,s3,frames,buffers,hdone⟩ := hmoved
    rw [MremapExactWhen,if_neg hto.not_keepsAll] at hwhen
    obtain ⟨hb,hsame⟩ := hwhen
    obtain ⟨hdvd,hw1,hl⟩ := vacated_listed hargs hw hto (hto.cut_backed hb) hvac
    have hapart := hcall.apart
    have hview : ∀ va, pageSize ∣ va → va < wordRange → va < r ∨ r+newSize ≤ va →
        s1.view va = s.view va := fun va hva hlt hout =>
      hw.view_eq hw1 hva hlt (hl.outside va hva hlt hout)
    have hopos := hargs.oldPos
    have hnpos := hargs.newPos
    have hsame1 := hsame.transfer hw hw1 hargs.aligned (by omega) fun va hva hlo hhi =>
      hl.outside va hva (by omega) (by omega)
    have hex : MremapExact s1 s' r old oldSize newSize flags newAddress :=
      (moved_plan hargs hw hb hto hcall hvac).exact_of_sameFlags hfits hsame1 hflags hdone
    refine ⟨hex.added,?_,hex.grown,hex.removed,?_⟩
    · intro off hoff hlt
      rw [← hview (old+off) (Nat.dvd_add hargs.aligned hoff) (by omega) (by omega)]
      exact hex.carried off hoff hlt
    · intro va hva hlt hout1 hout2
      rw [hex.rest va hva hlt hout1 hout2]
      exact hview va hva hlt (by omega)

end Athera
