import Athera.Mm.CheckedSteps

/-!
# Memory-map calls with overflow checks

Which calls stay within the range of a word, and what follows for runs of them.
-/

namespace Athera

open Framework Action List Option Exact

section

/-- The range that is recorded for `n` bytes at `va`. -/
def recorded (va n : Nat) : Nat × Nat :=
  (va / pageSize * pageSize, va / pageSize * pageSize + backing n)

def cutRecorded (rs : List (Nat × Nat)) (start stop : Nat) : List (Nat × Nat) :=
  rs.flatMap fun r =>
    if r.1 < stop ∧ start < r.2 then
      (if r.1 < start then [recorded r.1 (start - r.1)] else []) ++
        (if stop < r.2 then [recorded stop (r.2 - stop)] else [])
    else [r]

/-- Every page of the `n` bytes at `start` lies in one of the ranges. -/
def InRanges (rs : List (Nat × Nat)) (start n : Nat) : Prop :=
  ∀ off ∈ stepBy 0 n, ∃ r ∈ rs, r.1 ≤ start + off ∧ start + off < r.2

/-- If there is something to carry over, cutting the old range out and recording the new one
stays within the halves. -/
def RebuildFits (rs : List (Nat × Nat)) (old oldEnd dest newSize : Nat) : Prop :=
  InRanges rs old (min (oldEnd - old) newSize) → CutFits rs old oldEnd ∧ FitsHalf dest newSize

/-- The same for a move, whose destination is cut out first or is free. -/
def MoveFits (rs : List (Nat × Nat)) (old oldEnd dest newSize : Nat) (replace : Bool) : Prop :=
  MoveCall old oldEnd dest newSize →
    if replace then
      CutFits rs dest (dest + newSize) ∧
        RebuildFits (cutRecorded rs dest (dest + newSize)) old oldEnd dest newSize
    else
      (∀ r ∈ rs, ¬ (r.1 < dest + newSize ∧ dest < r.2)) → RebuildFits rs old oldEnd dest newSize

/-- The call of `mmap` gets as far as a search for a gap. -/
structure MmapSearches (ms : MemorySet) (addr length prot flags : Nat) (fd : Int) (offset : Nat) :
    Prop where
  anonymous : flags &&& mapAnonymous ≠ 0
  noFile : fd = -1 ∧ offset = 0
  bits : prot &&& (wordRange - 1 - protMask) = 0
  pos : 0 < length
  small : length + pageSize < usizeMax
  notFixed : isFixed flags = false
  noHint : ¬ HintFree ms addr (alignUp length)

/-- The call of `mremap` gets as far as a search for a gap. -/
structure MremapSearches (ms : MemorySet) (old oldSize newSize flags : Nat) : Prop where
  grows : oldSize < newSize
  mapped : rangeFullyMapped ms old (old + oldSize) = some true
  moves : ¬ StaysInPlace ms old oldSize newSize
  notFixed : mremapIsFixed flags = false
  maymove : flags &&& mremapMaymove ≠ 0

variable {σ : Type}

/-- A search for a gap finds one, and every range the call records stays in one half with the
bytes that really back it. -/
def MapCall.Fits (s : TaskMemory σ) : MapCall → Prop
  | .mmap addr length prot flags fd offset => s.known = true →
    (MmapSearches s.mappings addr length prot flags fd offset →
      (findFreeRegion s.mappings (alignUp length)).isSome = true) ∧
    ∀ t, MmapCall s.mappings addr length prot flags fd offset t →
      FitsHalf t (alignUp length) ∧
        (replaces flags = true → CutFits (s.mappings.map mappingRange) t (t + alignUp length))
  | .munmap addr length => s.known = true → MunmapArgs addr length →
    CutFits (s.mappings.map mappingRange) addr (addr + length)
  | .mremap old oldSize newSize flags newAddress => s.known = true →
    MremapArgs old oldSize newSize flags newAddress →
    (MremapSearches s.mappings old oldSize newSize flags →
      (findFreeRegion s.mappings newSize).isSome = true) ∧
    (rangeFullyMapped s.mappings old (old + oldSize) = some true →
      StaysInPlace s.mappings old oldSize newSize →
      RebuildFits (s.mappings.map mappingRange) old (old + oldSize) old newSize) ∧
    ∀ dest replace, MovesTo s.mappings old oldSize newSize flags newAddress dest replace →
      (replace = false → flags &&& mremapMaymove ≠ 0) →
      MoveFits (s.mappings.map mappingRange) old (old + oldSize) dest newSize replace

end

namespace Checked

variable {σ : Type} [LawfulFrameAllocator σ] {s : TaskMemory σ}

section

variable {addr length prot flags offset : Nat} {fd : Int} {ms : MemorySet}

theorem hintFree_of_placed (h : ms.Placed) :
    ∃ b, hintFree ms addr length = some b ∧ (b = true ↔ HintFree ms addr length) := by
  unfold hintFree HintFree
  by_cases hp : addr ≠ 0 ∧ addr%pageSize = 0
  · rw [if_pos hp]
    cases hadd : Framework.checkedAdd addr length with
    | none => exact ⟨false,rfl,by simp⟩
    | some stop => exact ⟨_,rangeIsFree_of_placed h,by simp [hp]⟩
  · rw [if_neg hp]
    refine ⟨false,rfl,?_⟩
    simp only [Bool.false_eq_true,false_iff]
    exact fun hall => hp ⟨hall.1,hall.2.1⟩

theorem rangeIsTaken_of_placed {start stop : Nat} (h : ms.Placed)
    (noreplace : Bool) : rangeIsTaken ms start stop noreplace =
      some (noreplace && !Athera.rangeIsFree ms start stop) := by
  cases noreplace with
  | true =>
    rw [rangeIsTaken,rangeIsFree_of_placed h]
    rfl
  | false => rfl

omit [LawfulFrameAllocator σ] in
theorem mmapTarget_agrees {len : Nat} (hs : Sound s) (hsearch : isFixed flags = false →
      ¬ HintFree s.mappings addr len → (Athera.findFreeRegion s.mappings len).isSome = true) :
    Exact Sound (mmapTarget addr len (isFixed flags)) (Athera.mmapTarget addr len (isFixed flags))
      s := by
  refine Exact.get_bind (Exact.ite (fun _ => ?_) fun hf => ?_)
  · exact Exact.guard hs fun _ => exact_pure addr hs
  · obtain ⟨b,hb,hiff⟩ := @hintFree_of_placed addr len _ hs
    refine orPanic_bind hb ?_
    by_cases hh : HintFree s.mappings addr len
    · have hcond := hh
      unfold HintFree at hcond
      rw [if_pos (hiff.mpr hh),if_pos hcond]
      exact exact_pure addr hs
    · have hcond := hh
      unfold HintFree at hcond
      rw [if_neg fun hb => hh (hiff.mp hb),if_neg hcond]
      obtain ⟨t,ht⟩ := isSome_iff_exists.mp (hsearch (by simpa using hf) hh)
      refine orPanic_bind (findFreeRegion_of_placed hs ht) ?_
      rw [ht]
      exact exact_pure t hs

/-- The end of `mmap`: memory is allocated, cleared and mapped. -/
theorem mapFresh_agrees {t len : Nat} {flags : PageFlags} (h : Own s []) (hs : Sound s)
    (ht : t < wordRange) (hfit : FitsHalf t len) : Exact Sound (do
        let frames ← allocFrames len
        let frames ← orThrow frames ErrorCode.eNoMem
        zeroFrames frames
        mapFrame t frames flags
        pure t : MapAction σ Nat)
      (do
        let frames ← allocFrames len
        let frames ← orThrow frames ErrorCode.eNoMem
        zeroFrames frames
        Athera.mapFrame t frames flags
        pure t) s := by
  refine Exact.bind ((allocFrames_untouched len).exact hs) ?_
  intro r s1 hr hs1
  refine orThrow_bind hs1 ?_
  intro frames hframes
  subst hframes
  obtain ⟨_,hsizes,hc⟩ := wp_of_ok (E := fun _ _ => True) (allocFrames_spec h.custody len) hr
  have hplaced : (UserMapping.mk t frames flags).Placed :=
    placed_of_custody hc (fun f hf => mem_append_left _ hf)
      (pairwise_append.mp hc.apart).1 hsizes ht hfit
  refine Exact.bind ((zeroFrames_untouched frames).exact hs1) ?_
  intro _ s2 _ hs2
  exact (mapFrame_agrees hplaced hs2).bind fun _ s3 _ hs3 => exact_pure t hs3

theorem mmap_agrees (h : Own s []) (hs : Sound s)
    (hfit : (MapCall.mmap addr length prot flags fd offset).Fits s) :
    Exact Sound (mmap addr length prot flags fd offset)
      (Athera.mmap addr length prot flags fd offset) s := by
  have hfix : (flags &&& (mapFixed ||| mapFixedNoreplace) != 0) = isFixed flags := rfl
  have hno : (flags &&& mapFixedNoreplace != 0) = isNoreplace flags := rfl
  unfold mmap Athera.mmap
  simp only [hno]
  refine Exact.guard hs fun hanon => ?_
  refine Exact.guard hs fun hfile => ?_
  refine Exact.guard hs fun hprot => ?_
  refine Exact.guard hs fun hlen => ?_
  have hsmall : length+pageSize < usizeMax := by
    omega
  refine orPanic_bind (alignUp_of_lt (by simp only [usizeMax] at hsmall ⊢; omega)) ?_
  refine Exact.get_bind (Exact.guard hs fun hknown => ?_)
  obtain ⟨hsearch,hcall⟩ := hfit (by simpa using hknown)
  simp only [not_or,not_not] at hfile hlen hprot
  have hpos : 0 < length := by omega
  refine Exact.bind (mmapTarget_agrees hs fun hf hh =>
    hsearch ⟨hanon,hfile,hprot,hpos,hsmall,hf,hh⟩) ?_
  intro t s1 ht _
  obtain ⟨rfl,htarget⟩ := wp_of_ok mmapTarget_spec ht
  refine orThrow_bind hs ?_
  intro stop hstop
  obtain ⟨rfl,hlt⟩ := checkedAdd_eq_some.mp hstop
  refine Exact.guard hs fun hcanon => ?_
  refine orPanic_bind (rangeIsTaken_of_placed hs _) ?_
  refine Exact.guard hs fun hfree => ?_
  obtain ⟨hhalf,hcut⟩ := hcall t ⟨hanon,hfile,hprot,hpos,hsmall,htarget,hlt,by simpa using hcanon,by
    intro hn
    rw [hn] at hfree
    simpa using hfree⟩
  refine Exact.ite (fun hr => ?_) fun _ => mapFresh_agrees h hs (by omega) hhalf
  refine Exact.bind (unmapRange_agrees h hs (hcut hr)) ?_
  intro _ s2 hok hs2
  obtain ⟨buffers,hcut2⟩ := wp_of_ok (unmapRange_spec h) hok
  exact mapFresh_agrees hcut2.own hs2 (by omega) hhalf

end

section

variable {old oldEnd dest newSize : Nat} {prot : PageFlags} {rs : List (Nat × Nat)}

theorem exists_range_of_pagePhys {va : Nat} (h : Athera.pagePhys ms va ≠ some none) :
    ∃ m ∈ ms, (Athera.mappingRange m).1 ≤ va ∧ va < (Athera.mappingRange m).2 := by
  rw [Athera.pagePhys_eq] at h
  cases hf : ms.find? fun m => Covers m va with
  | none =>
    rw [hf] at h
    exact absurd rfl h
  | some m =>
    have hc : Covers m va = true := by simpa using find?_some hf
    exact ⟨m,mem_of_find?_eq_some hf,covers_iff.mp hc⟩

theorem rebuild_agrees (h : Own s []) (hs : Sound s) (hle : old ≤ oldEnd) (hend : oldEnd < wordRange)
    (hsize : newSize < wordRange) (hdest : dest < wordRange)
    (hsub : ∀ m ∈ s.mappings, Athera.mappingRange m ∈ rs)
    (hfit : RebuildFits rs old oldEnd dest newSize) :
    Exact Sound (rebuild old oldEnd dest newSize prot) (Athera.rebuild old oldEnd dest newSize prot)
      s := by
  refine orPanic_bind (checkedSub_of_le hle) ?_
  refine Exact.bind ((allocFrames_untouched newSize).exact hs) ?_
  intro r s1 hr hs1
  refine orThrow_bind hs1 ?_
  intro frames hframes
  subst hframes
  obtain ⟨hsame1,hsizes,hc1⟩ := wp_of_ok (E := fun _ _ => True) (allocFrames_spec h.custody newSize) hr
  have hbounded := frames_bounded hc1 fun f hf => mem_append_left _ hf
  have htotal : min (oldEnd-old) newSize ≤ totalSize frames := by
    rw [totalSize_of_segments hsizes]
    exact le_trans (min_le_right _ _) (le_backing hsize)
  refine Exact.bind ((zeroFrames_untouched frames).exact hs1) ?_
  intro _ s2 hzero hs2
  obtain ⟨hsame2,hc2,_⟩ := wp_of_ok (E := fun _ _ => True) (zeroFrames_spec hc1) hzero
  have hms2 : s2.mappings = s.mappings := (hsame1.trans hsame2).mappings
  have hsrc : ∀ va, ∃ r, Athera.pagePhys s2.mappings va = some r := by
    rw [hms2]
    exact h.pagePhys_isSome
  refine Exact.bind (Exact.onError (copyPages_agrees hbounded (by omega) hs2) ?_) ?_
  · exact fun _ s3 _ hs3 => (dropFrames_untouched frames).exact hs3
  · intro _ s3 hok hs3
    obtain ⟨hsame3,hc3,_,hmapped⟩ := (wlp_onError (dropFrames frames)).mpr
      (wlp_of_wp (copyPages_spec hc2 hsrc htotal)) _ s3 hok
    have hms3 : s3.mappings = s.mappings := hsame3.mappings.trans hms2
    have hin : InRanges rs old (min (oldEnd-old) newSize) := by
      intro off hoff
      obtain ⟨i,hi,hlt⟩ := mem_stepBy.mp hoff
      have hne := hmapped off hoff
      rw [hms2,wrap_of_lt (by omega)] at hne
      obtain ⟨m,hm,hc⟩ := exists_range_of_pagePhys hne
      exact ⟨_,hsub m hm,hc⟩
    obtain ⟨hcut,hhalf⟩ := hfit hin
    have hown3 : Own s3 frames := by
      refine ⟨?_,?_⟩
      · rw [TaskMemory.frames,hms3]
        rw [append_nil] at hc3
        exact hc3.perm perm_append_comm
      · rw [hms3]
        exact h.vas
    have hcut3 : CutFits (s3.mappings.map Athera.mappingRange) old oldEnd := by
      refine hcut.subset fun r hr => ?_
      obtain ⟨m,hm,rfl⟩ := List.mem_map.mp hr
      exact hsub m (hms3 ▸ hm)
    have hplaced : (UserMapping.mk dest frames prot).Placed :=
      placed_of_custody hc3 (fun f hf => mem_append_left _ hf)
        (pairwise_append.mp hc3.apart).1 hsizes hdest hhalf
    refine Exact.bind (Exact.onError (unmapRange_agrees hown3 hs3 hcut3) ?_) ?_
    · exact fun _ s4 _ hs4 => (dropFrames_untouched frames).exact hs4
    · exact fun _ s4 _ hs4 => mapFrame_agrees hplaced hs4

theorem mem_cutRecorded {start stop : Nat} {r r' : Nat × Nat} (hr : r ∈ rs)
    (h : (¬ (r.1 < stop ∧ start < r.2) ∧ r' = r) ∨ (r.1 < stop ∧ start < r.2) ∧
      (r.1 < start ∧ r' = recorded r.1 (start-r.1) ∨
        stop < r.2 ∧ r' = recorded stop (r.2-stop))) : r' ∈ cutRecorded rs start stop := by
  refine mem_flatMap.mpr ⟨r,hr,?_⟩
  rcases h with ⟨hno,rfl⟩ | ⟨hov,hpiece⟩
  · rw [if_neg hno]
    exact mem_singleton_self _
  · rw [if_pos hov]
    rcases hpiece with ⟨hl,rfl⟩ | ⟨hr,rfl⟩
    · rw [if_pos hl]
      exact mem_append_left _ (mem_singleton_self _)
    · rw [if_pos hr]
      exact mem_append_right _ (mem_singleton_self _)

theorem range_mem_cutRecorded {s' : TaskMemory σ} {held : List Frame} {start stop : Nat}
    {buffers : List Buffer} (h : Cut s s' held start stop buffers) (hs' : Sound s') :
    ∀ m ∈ s'.mappings,
      Athera.mappingRange m ∈ cutRecorded (s.mappings.map Athera.mappingRange) start stop := by
  intro m hm
  have hplaced := hs' m hm
  rw [h.mappings] at hm
  rcases mem_append.mp hm with hm | hm
  · obtain ⟨hms,hno⟩ := mem_filter.mp hm
    refine mem_cutRecorded (List.mem_map_of_mem hms) (Or.inl ⟨?_,rfl⟩)
    intro hov
    have ho : Athera.overlaps m start stop = true := by simpa [Athera.overlaps] using hov
    simp [ho] at hno
  · obtain ⟨b,hb,rfl⟩ := List.mem_map.mp hm
    have hk : b.2 ∈ s.mappings.flatMap (Athera.keepsOf start stop) := by
      rw [← h.keeps]
      exact List.mem_map_of_mem hb
    obtain ⟨m0,hm0,hk⟩ := mem_flatMap.mp hk
    obtain ⟨hov,hpiece⟩ := of_mem_keepsOf hk
    have hrange : Athera.mappingRange (bufferMapping b) = recorded b.2.va b.2.size := by
      rw [mappingRange_of_lt hplaced.shape hplaced.inHalf.lt,recorded,
        ← totalSize_of_segments (h.filled b hb).sizes]
      rfl
    rw [hrange]
    refine mem_cutRecorded (List.mem_map_of_mem hm0) (Or.inr ⟨hov,?_⟩)
    rcases hpiece with ⟨hl,hva,hsize⟩ | ⟨hr,hva,hsize⟩
    · exact Or.inl ⟨hl,by rw [hva,hsize]⟩
    · exact Or.inr ⟨hr,by rw [hva,hsize]⟩

theorem moveTo_agrees {replace : Bool} (h : Own s []) (hs : Sound s) (hlt : old < oldEnd)
    (hend : oldEnd < wordRange) (hsize : newSize < wordRange)
    (hfit : MoveFits (s.mappings.map Athera.mappingRange) old oldEnd dest newSize replace) :
    Exact Sound (moveTo old oldEnd dest newSize replace)
      (Athera.moveTo old oldEnd dest newSize replace) s := by
  refine orThrow_bind hs ?_
  intro destEnd hdest
  obtain ⟨rfl,hdestlt⟩ := checkedAdd_eq_some.mp hdest
  refine Exact.guard hs fun hcanon => ?_
  refine Exact.guard hs fun hapart => ?_
  have hmove := hfit ⟨hdestlt,by simpa using hcanon,hapart⟩
  have htail : ∀ s1 rs, Own s1 [] → Sound s1 → (∀ m ∈ s1.mappings, Athera.mappingRange m ∈ rs) →
      RebuildFits rs old oldEnd dest newSize → Exact Sound (do
          let s ← get
          let flags ← orPanic (flagsOfFirst s.mappings old)
          let flags ← orThrow flags ErrorCode.eFault
          rebuild old oldEnd dest newSize flags
          pure dest : MapAction σ Nat)
        (do
          let s ← get
          let flags ← orThrow (Athera.flagsOfFirst s.mappings old) ErrorCode.eFault
          Athera.rebuild old oldEnd dest newSize flags
          pure dest) s1 := by
    intro s1 rs hown hs1 hsub hreb
    refine Exact.get_bind (orPanic_bind (flagsOfFirst_of_placed hs1 (by omega)) ?_)
    refine orThrow_bind hs1 fun prot _ => ?_
    exact (rebuild_agrees hown hs1 (le_of_lt hlt) hend hsize (by omega) hsub hreb).bind
      fun _ s2 _ hs2 => exact_pure dest hs2
  cases replace with
  | true =>
    obtain ⟨hcut,hreb⟩ := hmove
    refine Exact.get_bind (Exact.bind (unmapRange_agrees h hs hcut) ?_)
    intro _ s1 hok hs1
    obtain ⟨buffers,hcut1⟩ := wp_of_ok (unmapRange_spec h) hok
    exact htail s1 _ hcut1.own hs1 (range_mem_cutRecorded hcut1 hs1) hreb
  | false =>
    refine Exact.get_bind (orPanic_bind (rangeIsFree_of_placed hs) ?_)
    refine Exact.guard hs fun hfree => ?_
    refine htail s _ h hs (fun m hm => List.mem_map_of_mem hm) (hmove ?_)
    intro r hr hov
    obtain ⟨m,hm,rfl⟩ := List.mem_map.mp hr
    apply hfree
    simp only [Athera.rangeIsFree,Bool.not_not,List.any_eq_true]
    exact ⟨m,hm,by simpa [Athera.overlaps] using hov⟩

end

section

variable {old oldSize newSize flags newAddress : Nat}

theorem growsInPlace_of_placed (h : ms.Placed) (hlt : oldSize < newSize) :
    ∃ b, growsInPlace ms old (old+oldSize) (newSize-oldSize) = some b ∧
      (b = true ↔ StaysInPlace ms old oldSize newSize) := by
  rw [← staysInPlace_iff hlt]
  unfold growsInPlace
  cases hadd : Framework.checkedAdd (old+oldSize) (newSize-oldSize) with
  | none => exact ⟨false,rfl,by simp⟩
  | some stop =>
    obtain ⟨hstop,hrange⟩ := checkedAdd_eq_some.mp hadd
    simp only [rangeIsFree_of_placed h,any_some]
    rw [wrap_of_lt hrange,← hstop]
    cases Athera.rangeIsFree ms (old+oldSize) stop with
    | true => exact ⟨_,rfl,by simp⟩
    | false => exact ⟨false,rfl,by simp⟩

theorem mremap_agrees (h : Own s []) (hs : Sound s)
    (hfit : (MapCall.mremap old oldSize newSize flags newAddress).Fits s) :
    Exact Sound (mremap old oldSize newSize flags newAddress)
      (Athera.mremap old oldSize newSize flags newAddress) s := by
  have hfix : (flags &&& mremapFixed != 0) = mremapIsFixed flags := rfl
  unfold mremap Athera.mremap
  simp only [hfix]
  refine Exact.guard hs fun hchecks => ?_
  refine orThrow_bind hs ?_
  intro oldEnd hadd
  obtain ⟨rfl,hend⟩ := checkedAdd_eq_some.mp hadd
  refine Exact.guard hs fun hfixed => ?_
  refine Exact.get_bind (Exact.guard hs fun hknown => ?_)
  have hargs : MremapArgs old oldSize newSize flags newAddress := .of_checks hchecks hend hfixed
  have hsize := hargs.newSize_lt
  obtain ⟨hsearch,hstay,hmoves⟩ := hfit (by simpa using hknown) hargs
  refine Exact.ite (fun heq => ?_) fun hne => ?_
  · refine Exact.ite (fun hmove => ?_) fun _ => exact_pure old hs
    have hto := hmoves newAddress true (.same heq hmove.1 hmove.2) (by simp)
    rw [heq] at hto
    exact moveTo_agrees h hs (by omega) hend (heq ▸ hsize) hto
  · rw [rangeFullyMapped_of_placed hs]
    refine orPanic_both fun mapped hmapped => ?_
    refine Exact.guard hs fun hm => ?_
    have hmapped : Athera.rangeFullyMapped s.mappings old (old+oldSize) = some true := by
      rw [hmapped]
      simpa using hm
    have hplace : StaysInPlace s.mappings old oldSize newSize → Exact Sound (do
            let protFlags ← orPanic (flagsOfFirst s.mappings old)
            let protFlags ← orThrow protFlags ErrorCode.eFault
            rebuild old (old+oldSize) old newSize protFlags
            pure old : MapAction σ Nat)
          (do
            let protFlags ← orThrow (Athera.flagsOfFirst s.mappings old) ErrorCode.eFault
            Athera.rebuild old (old+oldSize) old newSize protFlags
            pure old) s := by
      intro hin
      refine orPanic_bind (flagsOfFirst_of_placed hs (by omega)) ?_
      refine orThrow_bind hs fun prot _ => ?_
      exact (rebuild_agrees h hs (by omega) hend hsize (by omega)
        (fun m hm => List.mem_map_of_mem hm) (hstay hmapped hin)).bind
          fun _ s2 _ hs2 => exact_pure old hs2
    refine Exact.ite (fun hlt => hplace (Or.inl hlt)) fun hge => ?_
    have hgrow : oldSize < newSize := by omega
    refine orPanic_bind (checkedSub_of_le (le_of_lt hgrow)) ?_
    obtain ⟨b,hb,hiff⟩ := @growsInPlace_of_placed old _ _ _ hs hgrow
    refine orPanic_bind hb ?_
    by_cases hin : StaysInPlace s.mappings old oldSize newSize
    · rw [if_pos (hiff.mpr hin),if_pos ((staysInPlace_iff hgrow).mpr hin)]
      exact hplace hin
    · rw [if_neg fun hb => hin (hiff.mp hb),if_neg fun hb => hin ((staysInPlace_iff hgrow).mp hb)]
      refine Exact.ite (fun hf => ?_) fun hf => ?_
      · have hto := hmoves newAddress true (.fixed hgrow hmapped hin hf) (by simp)
        exact moveTo_agrees h hs (by omega) hend hsize hto
      · have hf : mremapIsFixed flags = false := by simpa using hf
        refine Exact.ite (fun hmay => ?_) fun _ => exact_throw _ hs
        obtain ⟨dest,hdest⟩ := isSome_iff_exists.mp
          (hsearch ⟨hgrow,hmapped,hin,hf,hmay⟩)
        refine orPanic_bind (findFreeRegion_of_placed hs hdest) ?_
        rw [hdest]
        have hto := hmoves dest false (.gap hgrow hmapped hin hf hdest) fun _ => hmay
        exact moveTo_agrees h hs (by omega) hend hsize hto

end

section

variable {s' : TaskMemory σ} {old oldEnd oldSize dest newSize flags newAddress : Nat}

theorem RebuildFailed.own {prot : PageFlags} (h : RebuildFailed s old oldEnd dest newSize prot s') :
    Own s' [] := by
  cases h with
  | early _ hown => exact hown
  | cut _ _ _ _ hown => exact hown
  | tables _ _ hfail => exact hfail.own

theorem MoveFailed.own {replace : Bool} (ho : Own s [])
    (h : MoveFailed s old oldEnd dest newSize replace s') : Own s' [] := by
  cases h with
  | refused heq => exact heq ▸ ho
  | cut _ _ hown _ _ => exact hown
  | flags _ hvac => exact hvac.own ho
  | rebuild _ _ _ hfail => exact RebuildFailed.own hfail

theorem exec_own (c : MapCall) (h : Own s []) :
    wp c.exec (fun _ s' => Own s' []) (fun _ s' => Own s' []) s := by
  cases c with
  | mmap addr length prot flags fd offset =>
    apply wp_mono (mmap_spec h)
    · rintro _ s' ⟨_,_,_,_,_,_,hmapped⟩
      exact hmapped.own
    · intro _ s' hfail
      cases hfail with
      | refused heq => exact heq ▸ h
      | cut _ _ hown _ _ => exact hown
      | memory _ _ _ hown => exact hown
      | tables _ _ _ hfail => exact hfail.own
  | munmap addr length =>
    rw [MapCall.exec,wp_bind]
    apply wp_mono (munmap_spec h)
    · rintro _ s' ⟨_,_,hcut⟩
      exact hcut.own
    · intro _ s' hfail
      rcases hfail with heq | ⟨_,_,hown,_⟩
      · exact heq ▸ h
      · exact hown
  | mremap old oldSize newSize flags newAddress =>
    apply wp_mono (mremap_spec h)
    · rintro _ s' ⟨_,hdone⟩
      cases hdone with
      | unchanged _ _ => exact h
      | inPlace _ _ _ hrebuilt => exact hrebuilt.mapped.own
      | moved _ hmoved =>
        obtain ⟨_,_,_,_,_,_,_,_,hrebuilt⟩ := hmoved.done
        exact hrebuilt.mapped.own
    · intro _ s' hfail
      cases hfail with
      | refused heq => exact heq ▸ h
      | inPlace _ _ _ _ hfail => exact RebuildFailed.own hfail
      | moved _ _ hfail => exact MoveFailed.own h hfail

end

theorem validateUserAddress_of_placed {p : Processes} (hp : p.mappings = some ms)
    (h : ms.Placed) (addr : Nat) :
    validateUserAddress p addr = some (p.validateUserAddress addr) := by
  have hin : ∀ m ∈ ms, inMapping m addr =
      some (decide (m.va ≤ addr) && decide (addr < wrap (m.va+totalSize m.frames))) := by
    intro m hm
    have hlt := Placed.add_lt (h m hm)
    have hsum : checkedSum (m.frames.map Block.size) = some (totalSize m.frames) := by
      apply checkedSum_of_lt
      change totalSize m.frames < wordRange
      omega
    rw [inMapping,hsum]
    simp only [bind_eq_bind,bind_some]
    rw [checkedAdd_of_lt hlt,wrap_of_lt hlt]
    rfl
  unfold validateUserAddress Processes.validateUserAddress
  rw [hp]
  simp only [anyM_of_some hin]
  rfl

theorem validateUserRange_of_placed {p : Processes} (hp : p.mappings = some ms)
    (h : ms.Placed) (addr len : Nat) :
    validateUserRange p addr len = some (p.validateUserRange addr len) := by
  unfold validateUserRange Processes.validateUserRange
  by_cases hlen : len = 0
  · rw [if_pos hlen,if_pos hlen]
  · rw [if_neg hlen,if_neg hlen]
    cases hadd : Framework.checkedAdd addr len with
    | none => rfl
    | some stop =>
      obtain ⟨hstop,_⟩ := checkedAdd_eq_some.mp hadd
      simp only [validateUserAddress_of_placed hp h]
      cases p.validateUserAddress addr with
      | error e => rfl
      | ok _ =>
        simp only [checkedSub_of_le (show 1 ≤ stop by omega)]
        rfl

theorem exec_agrees {c : MapCall} (h : Own s []) (hs : Sound s) (hfit : c.Fits s) :
    Exact Sound (exec c) c.exec s := by
  cases c with
  | mmap addr length prot flags fd offset => exact mmap_agrees h hs hfit
  | munmap addr length =>
    refine Exact.bind ?_ fun _ s' _ hs' => exact_pure 0 hs'
    refine Exact.guard hs fun hargs => ?_
    refine orThrow_bind hs ?_
    intro stop hstop
    obtain ⟨rfl,hlt⟩ := checkedAdd_eq_some.mp hstop
    refine Exact.get_bind (Exact.guard hs fun hknown => ?_)
    rw [not_or,not_not] at hargs
    have hok : MunmapArgs addr length := ⟨Nat.dvd_of_mod_eq_zero hargs.1,by omega,hlt⟩
    exact unmapRange_agrees h hs (hfit (by simpa using hknown) hok)
  | mremap old oldSize newSize flags newAddress => exact mremap_agrees h hs hfit

theorem step_agrees {c : MapCall} (h : Own s []) (hs : Sound s) (hfit : c.Fits s) :
    ∃ s', c.step s = some s' ∧ step s c = some s' ∧ Own s' [] ∧ Sound s' := by
  obtain ⟨s',hstep,hown⟩ := state_of_wp (exec_own c h)
  have hexact := exec_agrees h hs hfit
  refine ⟨s',hstep,?_,hown,hexact.after s' hstep⟩
  rw [step,hexact.eq]
  exact hstep

theorem run_agrees {calls : List MapCall} (h : Own s []) (hs : Sound s)
    (hfit : EachStep MapCall.step (fun s c => c.Fits s) calls s) :
    ∃ s', run MapCall.step calls s = some s' ∧ run step calls s = some s' ∧
      Own s' [] ∧ Sound s' := by
  induction calls generalizing s with
  | nil => exact ⟨s,rfl,rfl,h,hs⟩
  | cons c calls ih =>
    obtain ⟨s1,hstep,hchecked,hown,hs1⟩ := step_agrees h hs hfit.1
    obtain ⟨s',hrun,hrun',hrest⟩ := ih hown hs1 (hfit.2 s1 hstep)
    refine ⟨s',?_,?_,hrest⟩
    · rw [run,hstep]
      exact hrun
    · rw [run,hchecked]
      exact hrun'

/-- In a task that owns its frames and whose mappings lie in the halves, every run of calls that fit
goes with overflow checks as it goes without, and its mappings stay in the halves. -/
theorem map_arithmetic_exact {calls : List MapCall} (h : Own s []) (hin : ∀ m ∈ s.mappings, m.InHalf)
    (hfit : EachStep MapCall.step (fun s c => c.Fits s) calls s) :
    ∃ s', run MapCall.step calls s = some s' ∧ run step calls s = some s' ∧
      (∀ m ∈ s'.mappings, m.InHalf) ∧
      (∀ c : MapCall, c.Fits s' → exec c s' = c.exec s') ∧
      ∀ p : Processes, p.mappings = some s'.mappings → ∀ addr len,
        validateUserRange p addr len = some (p.validateUserRange addr len) := by
  have hs : Sound s := by
    intro m hm
    refine ⟨h.shape m hm,hin m hm,frames_bounded h.custody ?_⟩
    exact fun f hf => mem_append_left _ (mem_framesOf.mpr ⟨m,hm,hf⟩)
  obtain ⟨s',hrun,hrun',hown,hs'⟩ := run_agrees h hs hfit
  refine ⟨s',hrun,hrun',fun m hm => (hs' m hm).inHalf,?_,?_⟩
  · exact fun c hc => (exec_agrees hown hs' hc).eq
  · exact fun p hp addr len => validateUserRange_of_placed hp hs' addr len

/-- Map readable and writable pages at a fixed address. -/
def mapFixedAt (addr length : Nat) : MapCall := .mmap addr length 3 0x32 (-1) 0

theorem stackTask_isSome : ((bootTask 0x80800000 0x80820000).bind fun s =>
    (mapFixedAt userStackLowerBound userStackSize).step s).isSome = true := by decide +kernel

/-- A task with its stack and nothing else, on 32 pages. -/
def stackTask : TaskMemory BuddyLists := ((bootTask 0x80800000 0x80820000).bind fun s =>
  (mapFixedAt userStackLowerBound userStackSize).step s).get stackTask_isSome

theorem stackTask_own : Own stackTask [] := by
  obtain ⟨s,hboot,hstep⟩ := bind_eq_some_iff.mp (some_get stackTask_isSome).symm
  have hw := bootTask_wellFormed (by decide) (by decide) (by decide) hboot
  obtain ⟨s',hs',hown⟩ := state_of_wp (exec_own (mapFixedAt userStackLowerBound userStackSize) hw.own)
  rw [MapCall.step,hs'] at hstep
  have heq : s' = stackTask := some.inj hstep
  exact heq ▸ hown

theorem stackTask_inHalf : ∀ m ∈ stackTask.mappings, m.InHalf := by
  have hlow : ∀ m ∈ stackTask.mappings, m.stop ≤ lowHalfEnd := by decide +kernel
  intro m hm
  exact ⟨lt_of_le_of_lt (hlow m hm) (by decide),Or.inl (hlow m hm)⟩

theorem mapFour_fits : (mapAt 0xffffffc000000000 0x4000).Fits stackTask := by
  have hhint : HintFree stackTask.mappings 0xffffffc000000000 (Athera.alignUp 0x4000) := by decide +kernel
  intro _
  refine ⟨fun hsearch => absurd hhint hsearch.noHint,?_⟩
  intro t hcall
  cases hcall.target with
  | fixed hf _ => exact absurd hf (by decide)
  | hint _ _ => decide +kernel
  | gap _ hno _ => exact absurd hhint hno

/-- Map four pages, then unmap two. -/
theorem map_arithmetic_exact_half : ∃ s', run MapCall.step
    [mapAt 0xffffffc000000000 0x4000, .munmap 0xffffffc000002000 0x2000] stackTask = some s' ∧
      run step [mapAt 0xffffffc000000000 0x4000, .munmap 0xffffffc000002000 0x2000] stackTask = some s' ∧
      (∀ m ∈ s'.mappings, m.InHalf) ∧
      (∀ c : MapCall, c.Fits s' → exec c s' = c.exec s') ∧
      ∀ p : Processes, p.mappings = some s'.mappings → ∀ addr len,
        validateUserRange p addr len = some (p.validateUserRange addr len) := by
  refine map_arithmetic_exact stackTask_own stackTask_inHalf ⟨mapFour_fits,?_⟩
  intro s hs
  refine ⟨?_,fun _ _ => trivial⟩
  have hranges : ((mapAt 0xffffffc000000000 0x4000).step stackTask).map
      (fun s => s.mappings.map Athera.mappingRange) =
        some [(userStackLowerBound, userStackTop), (0xffffffc000000000, 0xffffffc000004000)] := by
    decide +kernel
  rw [mem_def.mp hs] at hranges
  have hms : s.mappings.map Athera.mappingRange = _ := some.inj hranges
  intro _ _
  rw [hms]
  decide +kernel

/-- A task can ask for 4 GiB, and the search for a gap subtracts that from the end of the stack. It
can ask for the last three pages but one, which get four: then the range ends at `2 ^ 64`. -/
theorem map_arithmetic_overflows : Own stackTask [] ∧ (∀ m ∈ stackTask.mappings, m.InHalf) ∧
    step stackTask (mapAt 0 0x1_0000_0000) = none ∧
    ∃ s', (mapFixedAt (wordRange - 0x4000) 0x3000).step stackTask = some s' ∧
      (∃ m ∈ s'.mappings, m.stop = wordRange) ∧ step s' (.munmap 0x1000 0x1000) = none := by
  have hsearch : (step stackTask (mapAt 0 0x1_0000_0000)).isNone = true := by decide +kernel
  have hhigh : ((mapFixedAt (wordRange - 0x4000) 0x3000).step stackTask).map (fun s =>
      (s.mappings.any fun m => decide (m.stop = wordRange),
        (step s (.munmap 0x1000 0x1000)).isNone)) = some (true, true) := by decide +kernel
  obtain ⟨s',hs',hpair⟩ := map_eq_some_iff.mp hhigh
  obtain ⟨hany,hnone⟩ := Prod.mk.inj hpair
  obtain ⟨m,hm,hstop⟩ := List.any_eq_true.mp hany
  refine ⟨stackTask_own,stackTask_inHalf,isNone_iff_eq_none.mp hsearch,s',hs',?_,?_⟩
  · exact ⟨m,hm,of_decide_eq_true hstop⟩
  · exact isNone_iff_eq_none.mp hnone

end Checked

end Athera
