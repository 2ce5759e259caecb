import Athera.Mm.Mmap

/-!
# mremap

The steps of `rebuild`, `move_to` and `mremap` as statements about every outcome.
-/

namespace Athera

open Framework Action List

variable {σ : Type} [LawfulFrameAllocator σ] {s s' : TaskMemory σ}
  {old oldEnd dest newSize oldSize flags newAddress : Nat} {prot : PageFlags}

/-- Frames for `newSize` bytes have been filled with the first `n` bytes at `old` and zeros. -/
structure Refilled (s s' : TaskMemory σ) (old n newSize : Nat) (frames : List Frame) : Prop where
  same : Same s s' s.frames
  own : Own s' frames
  sizes : frames.map Block.size = segmentSizes newSize newSize
  mapped : ∀ off ∈ stepBy 0 n, pagePhys s.mappings (wrap (old + off)) ≠ some none
  carried : ∀ off ∈ stepBy 0 n, ∀ src dst, pagePhys s.mappings (wrap (old + off)) = some (some src) →
    physAtOffset frames off = some dst → (∀ i < pageSize, InFrames s.frames (src + i)) →
    pageAt s'.mem dst = pageAt s.mem src
  zero : ∀ off dst, pageSize ∣ off → n ≤ off → physAtOffset frames off = some dst →
    pageAt s'.mem dst = fun _ => 0

theorem Fresh.refilled {s1 s2 : TaskMemory σ} {n : Nat} {frames : List Frame}
    (h : Fresh s s1 [] newSize frames) (hsame : Same s1 s2 s1.frames)
    (hc : Custody s2 (frames++s1.frames))
    (hcop : Copied s1 s2 frames s1.frames old (stepBy 0 n))
    (hmap : ∀ off ∈ stepBy 0 n, pagePhys s1.mappings (wrap (old+off)) ≠ some none) :
    Refilled s s2 old n newSize frames := by
  have hms : s1.mappings = s.mappings := h.same.mappings
  have hfs : s1.frames = s.frames := by rw [TaskMemory.frames,hms]; rfl
  have hall : Same s s2 s.frames := by
    have h1 := h.same
    rw [append_nil] at h1
    rw [hfs] at hsame
    exact h1.trans hsame
  have hshape : ∀ f ∈ frames, PageShape f := fun f hf =>
    (hc.shape f (mem_append_left _ hf)).pageShape
  have hap : frames.Pairwise Block.Apart := (pairwise_append.mp hc.apart).1
  rw [hms] at hmap
  refine ⟨hall,⟨?_,?_⟩,h.sizes,hmap,?_,?_⟩
  · rw [TaskMemory.frames,hall.mappings]
    rw [hfs] at hc
    exact hc.perm perm_append_comm
  · rw [hall.mappings,← hms]
    exact h.own.vas
  · intro off hoff src dst hsrc hdst hin
    have hpage := hcop.page off hoff src dst (by rw [hms]; exact hsrc) hdst (by rw [hfs]; exact hin)
    rw [hpage]
    apply pageAt_congr h.same.bytes
    intro i hi
    rw [append_nil]
    exact hin i hi
  · intro off dst hdvd hle hdst
    have hkeep : pageAt s2.mem dst = pageAt s1.mem dst := by
      rw [pageAt_eq_iff]
      intro i hi
      apply hcop.rest
      intro off' hoff' dst' hdst' hmem
      obtain ⟨hdvd',hlt⟩ := mem_stepBy_zero.mp hoff'
      have hapart := physAtOffset_apart hshape hap hdvd hdvd' (by omega) hdst hdst'
      exact hapart.not_mem (by simp only [Block.mem_iff]; omega) hmem
    rw [hkeep]
    funext i
    exact h.zero _ (inFrames_page hshape hdvd hdst i.1 i.2)

/-- The range has been rebuilt at `dest` out of refilled frames. -/
structure Rebuilt (s s' : TaskMemory σ) (old oldEnd dest newSize : Nat) (prot : PageFlags)
    (s1 s2 : TaskMemory σ) (frames : List Frame) (buffers : List Buffer) : Prop where
  refilled : Refilled s s1 old (min (oldEnd - old) newSize) newSize frames
  cut : Cut s1 s2 frames old oldEnd buffers
  mapped : Mapped s2 s' [] dest frames prot

inductive RebuildFailed (s : TaskMemory σ) (old oldEnd dest newSize : Nat) (prot : PageFlags)
    (s' : TaskMemory σ) : Prop where
  | early (hsame : Same s s' s.frames) (hown : Own s' [])
  | cut {s1 : TaskMemory σ} {frames : List Frame} {buffers : List Buffer}
    (hfill : Refilled s s1 old (min (oldEnd - old) newSize) newSize frames)
    (hbuf : Buffers s1 old oldEnd buffers) (hlack : LacksTable s1 buffers)
    (hknown : s'.known = s.known) (hown : Own s' [])
  | tables {s1 s2 : TaskMemory σ} {frames : List Frame} {buffers : List Buffer}
    (hfill : Refilled s s1 old (min (oldEnd - old) newSize) newSize frames)
    (hcut : Cut s1 s2 frames old oldEnd buffers) (hfail : MapFailed s2 s' [] dest frames prot)

theorem rebuild_spec (h : Own s []) (hsize : newSize < wordRange) (hdest : dest < wordRange) :
    wp (rebuild old oldEnd dest newSize prot : MapAction σ Unit)
      (fun _ s' => ∃ s1 s2 frames buffers,
        Rebuilt s s' old oldEnd dest newSize prot s1 s2 frames buffers)
      (fun _ s' => RebuildFailed s old oldEnd dest newSize prot s') s := by
  apply allocZeroed_spec h
  · intro frames s1 hfresh
    have hms : s1.mappings = s.mappings := hfresh.same.mappings
    have hfs : s1.frames = s.frames := by rw [TaskMemory.frames,hms]; rfl
    have hsame1 : Same s s1 s.frames := by
      have h1 := hfresh.same
      rwa [append_nil] at h1
    have hc1 : Custody s1 (frames++s1.frames) := by
      have hown := hfresh.own.custody
      rw [append_nil] at hown
      exact hown.perm perm_append_comm
    have htotal : min (oldEnd-old) newSize ≤ totalSize frames := by
      rw [totalSize_of_segments hfresh.sizes]
      exact le_trans (min_le_right _ _) (le_backing hsize)
    rw [wp_bind,wp_onError]
    apply wp_mono (copyPages_spec hc1 hfresh.own.pagePhys_isSome htotal)
    · rintro _ s2 ⟨hsame2,hc2,hcop,hmap⟩
      have hfill := hfresh.refilled hsame2 hc2 hcop hmap
      rw [wp_bind,wp_onError]
      apply wp_mono (unmapRange_spec hfill.own)
      · rintro _ s3 ⟨buffers,hcut⟩
        have hown3 : Own s3 (frames ++ []) := by
          rw [append_nil]
          exact hcut.own
        apply wp_mono (mapFrame_mapped hown3 hdest)
        · intro _ s4 hmapped
          exact ⟨s2,s3,frames,buffers,hfill,hcut,hmapped⟩
        · intro _ s4 hfail
          exact .tables hfill hcut hfail
      · rintro e s3 ⟨hknown,hown,_,hfail⟩
        have hperm : (s3.frames++frames).Perm (frames++s3.frames) := perm_append_comm
        apply wp_mono (dropFrames_spec (hown.custody.perm hperm)) _ (fun _ _ hf => hf)
        rintro _ s4 ⟨hsame4,hc4⟩
        have hown4 : Own s4 [] := by
          refine ⟨?_,?_⟩
          · rw [TaskMemory.frames,hsame4.mappings,append_nil]
            exact hc4
          · rw [hsame4.mappings]
            exact hown.vas
        rcases hfail with hsame3 | ⟨buffers,hbuf,hlack⟩
        · have hsame3' : Same s2 s3 s2.frames :=
            hsame3.mono fun f hf => mem_append_left _ hf
          have hfs2 : s2.frames = s.frames := by rw [TaskMemory.frames,hfill.same.mappings]; rfl
          have hfs3 : s3.frames = s.frames := by
            rw [TaskMemory.frames,hsame3.mappings,hfill.same.mappings]
            rfl
          rw [hfs2] at hsame3'
          rw [hfs3] at hsame4
          exact .early ((hfill.same.trans hsame3').trans hsame4) hown4
        · exact .cut hfill hbuf hlack
            (hsame4.known.trans (hknown.trans hfill.same.known)) hown4
    · rintro e s2 ⟨hsame2,hc2,_⟩
      apply wp_mono (dropFrames_spec hc2) _ (fun _ _ hf => hf)
      rintro _ s3 ⟨hsame3,hc3⟩
      rw [hfs] at hsame2 hsame3 hc3
      have hall := (hsame1.trans hsame2).trans hsame3
      refine .early hall ⟨?_,?_⟩
      · rw [TaskMemory.frames,hall.mappings,append_nil]
        exact hc3
      · rw [hall.mappings]
        exact h.vas
  · intro s1 hsame hown
    rw [append_nil] at hsame
    exact .early hsame hown

section

variable {replace : Bool}

/-- The destination passed the checks of `move_to`. -/
structure MoveCall (old oldEnd dest newSize : Nat) : Prop where
  fits : dest + newSize < wordRange
  canonical : isCanonicalUserRange dest (dest + newSize) = true
  apart : ¬ (dest < oldEnd ∧ old < dest + newSize)

def Vacated (s s' : TaskMemory σ) (dest destEnd : Nat) (replace : Bool) : Prop :=
  if replace then ∃ buffers, Cut s s' [] dest destEnd buffers
  else s' = s ∧ rangeIsFree s.mappings dest destEnd = true

theorem Vacated.own {s1 : TaskMemory σ} {destEnd : Nat} (h : Vacated s s1 dest destEnd replace)
    (ho : Own s []) : Own s1 [] := by
  cases replace with
  | true =>
    obtain ⟨buffers,hcut⟩ := h
    exact hcut.own
  | false =>
    obtain ⟨rfl,_⟩ := h
    exact ho

structure Moved (s s' : TaskMemory σ) (old oldEnd dest newSize : Nat) (replace : Bool) : Prop where
  call : MoveCall old oldEnd dest newSize
  done : ∃ s1 prot, Vacated s s1 dest (dest + newSize) replace ∧
    flagsOfFirst s1.mappings old = some prot ∧ ∃ s2 s3 frames buffers,
      Rebuilt s1 s' old oldEnd dest newSize prot s2 s3 frames buffers

inductive MoveFailed (s : TaskMemory σ) (old oldEnd dest newSize : Nat) (replace : Bool)
    (s' : TaskMemory σ) : Prop where
  | refused (h : s' = s)
  | cut (hcall : MoveCall old oldEnd dest newSize) (hr : replace = true) (hown : Own s' [])
    (hknown : s'.known = s.known)
    (h : Same s s' s.frames ∨ ∃ buffers, Buffers s dest (dest + newSize) buffers ∧
      LacksTable s buffers)
  | flags (hcall : MoveCall old oldEnd dest newSize)
    (hvac : Vacated s s' dest (dest + newSize) replace)
  | rebuild {s1 : TaskMemory σ} {prot : PageFlags} (hcall : MoveCall old oldEnd dest newSize)
    (hvac : Vacated s s1 dest (dest + newSize) replace)
    (hflags : flagsOfFirst s1.mappings old = some prot)
    (hfail : RebuildFailed s1 old oldEnd dest newSize prot s')

theorem moveTo_spec (h : Own s []) (hsize : newSize < wordRange) :
    wp (moveTo old oldEnd dest newSize replace : MapAction σ Nat)
      (fun r s' => r = dest ∧ Moved s s' old oldEnd dest newSize replace)
      (fun _ s' => MoveFailed s old oldEnd dest newSize replace s') s := by
  unfold moveTo
  rw [wp_bind,wp_orThrow]
  refine ⟨?_,fun _ => .refused rfl⟩
  intro destEnd hend
  obtain ⟨rfl,hfits⟩ := checkedAdd_eq_some.mp hend
  refine wp_guard (.refused rfl) fun hcanon => ?_
  refine wp_guard (.refused rfl) fun hapart => ?_
  have hcall : MoveCall old oldEnd dest newSize := ⟨hfits,by simpa using hcanon,hapart⟩
  have htail : ∀ s1, Vacated s s1 dest (dest+newSize) replace → wp (do
          let s ← get
          let prot ← orThrow (flagsOfFirst s.mappings old) ErrorCode.eFault
          rebuild old oldEnd dest newSize prot
          pure dest : MapAction σ Nat)
        (fun r s' => r = dest ∧ Moved s s' old oldEnd dest newSize replace)
        (fun _ s' => MoveFailed s old oldEnd dest newSize replace s') s1 := by
    intro s1 hvac
    rw [wp_bind,wp_get,wp_bind,wp_orThrow]
    refine ⟨?_,fun _ => .flags hcall hvac⟩
    intro prot hflags
    rw [wp_bind]
    apply wp_mono (rebuild_spec (hvac.own h) hsize (by omega))
    · intro _ s' hdone
      exact ⟨rfl,hcall,s1,prot,hvac,hflags,hdone⟩
    · intro _ s' hfail
      exact .rebuild hcall hvac hflags hfail
  rw [wp_bind,wp_get,wp_ite]
  refine ⟨?_,?_⟩
  · intro hr
    rw [wp_bind]
    apply wp_mono (unmapRange_spec h)
    · rintro _ s1 ⟨buffers,hcut⟩
      exact htail s1 (by rw [Vacated,if_pos hr]; exact ⟨buffers,hcut⟩)
    · rintro e s1 ⟨hknown,hown,_,hfail⟩
      rw [append_nil] at hfail
      exact .cut hcall hr hown hknown hfail
  · intro hr
    refine wp_guard (.refused rfl) fun hfree => ?_
    exact htail s (by rw [Vacated,if_neg hr]; exact ⟨rfl,by simpa using hfree⟩)

end

def mremapIsFixed (flags : Nat) : Bool := flags &&& mremapFixed != 0

structure MremapArgs (old oldSize newSize flags newAddress : Nat) : Prop where
  aligned : pageSize ∣ old
  oldPos : 0 < oldSize
  newPos : 0 < newSize
  oldDvd : pageSize ∣ oldSize
  newDvd : pageSize ∣ newSize
  small : newSize + pageSize < usizeMax
  fits : old + oldSize < wordRange
  fixedDvd : mremapIsFixed flags = true → pageSize ∣ newAddress

/-- The range shrinks, or the pages after it are free. -/
def StaysInPlace (ms : MemorySet) (old oldSize newSize : Nat) : Prop :=
  newSize < oldSize ∨ oldSize < newSize ∧ old + newSize < wordRange ∧
    rangeIsFree ms (old + oldSize) (old + newSize) = true ∧
    isCanonicalUserRange old (old + newSize) = true

instance (ms : MemorySet) (old oldSize newSize : Nat) :
    Decidable (StaysInPlace ms old oldSize newSize) :=
  inferInstanceAs (Decidable (_ ∨ _ ∧ _ ∧ _ ∧ _))

theorem staysInPlace_iff {ms : MemorySet} (h : oldSize < newSize) :
    ((checkedAdd (old+oldSize) (newSize-oldSize)).any
        (fun stop => rangeIsFree ms (old+oldSize) stop) &&
      isCanonicalUserRange old (wrap (old+oldSize+(newSize-oldSize)))) = true ↔
      StaysInPlace ms old oldSize newSize := by
  have hgrow : old+oldSize+(newSize-oldSize) = old+newSize := by omega
  unfold StaysInPlace checkedAdd
  rw [hgrow]
  by_cases hlt : old+newSize < wordRange
  · simp [hlt,h,wrap_of_lt hlt,Nat.not_lt_of_gt h]
  · simp [hlt,Nat.not_lt_of_gt h]

/-- The call leaves everything as it is. -/
def KeepsAll (old oldSize newSize flags newAddress : Nat) : Prop :=
  newSize = oldSize ∧ ¬ (mremapIsFixed flags = true ∧ newAddress ≠ old)

instance (old oldSize newSize flags newAddress : Nat) :
    Decidable (KeepsAll old oldSize newSize flags newAddress) :=
  inferInstanceAs (Decidable (_ ∧ ¬ _))

/-- Where `mremap` decides to move, and whether it replaces what is there. -/
inductive MovesTo (ms : MemorySet) (old oldSize newSize flags newAddress : Nat) :
    Nat → Bool → Prop where
  | same (h : newSize = oldSize) (hf : mremapIsFixed flags = true) (hne : newAddress ≠ old) :
    MovesTo ms old oldSize newSize flags newAddress newAddress true
  | fixed (h : oldSize < newSize) (hmapped : rangeFullyMapped ms old (old + oldSize) = some true)
    (hno : ¬ StaysInPlace ms old oldSize newSize) (hf : mremapIsFixed flags = true) :
    MovesTo ms old oldSize newSize flags newAddress newAddress true
  | gap {dest : Nat} (h : oldSize < newSize)
    (hmapped : rangeFullyMapped ms old (old + oldSize) = some true)
    (hno : ¬ StaysInPlace ms old oldSize newSize) (hf : mremapIsFixed flags = false)
    (hfind : findFreeRegion ms newSize = some dest) :
    MovesTo ms old oldSize newSize flags newAddress dest false

inductive MremapDone (s : TaskMemory σ) (old oldSize newSize flags newAddress : Nat) :
    Nat → TaskMemory σ → Prop where
  | unchanged (h : newSize = oldSize)
    (hf : ¬ (mremapIsFixed flags = true ∧ newAddress ≠ old)) :
    MremapDone s old oldSize newSize flags newAddress old s
  | inPlace {s' s1 s2 : TaskMemory σ} {prot : PageFlags} {frames : List Frame}
    {buffers : List Buffer} (hmapped : rangeFullyMapped s.mappings old (old + oldSize) = some true)
    (hplace : StaysInPlace s.mappings old oldSize newSize)
    (hflags : flagsOfFirst s.mappings old = some prot)
    (h : Rebuilt s s' old (old + oldSize) old newSize prot s1 s2 frames buffers) :
    MremapDone s old oldSize newSize flags newAddress old s'
  | moved {dest : Nat} {replace : Bool} {s' : TaskMemory σ}
    (hto : MovesTo s.mappings old oldSize newSize flags newAddress dest replace)
    (h : Moved s s' old (old + oldSize) dest newSize replace) :
    MremapDone s old oldSize newSize flags newAddress dest s'

inductive MremapFailed (s : TaskMemory σ) (old oldSize newSize flags newAddress : Nat)
    (s' : TaskMemory σ) : Prop where
  | refused (h : s' = s)
  | inPlace {prot : PageFlags} (hargs : MremapArgs old oldSize newSize flags newAddress)
    (hmapped : rangeFullyMapped s.mappings old (old + oldSize) = some true)
    (hplace : StaysInPlace s.mappings old oldSize newSize)
    (hflags : flagsOfFirst s.mappings old = some prot)
    (h : RebuildFailed s old (old + oldSize) old newSize prot s')
  | moved {dest : Nat} {replace : Bool} (hargs : MremapArgs old oldSize newSize flags newAddress)
    (hto : MovesTo s.mappings old oldSize newSize flags newAddress dest replace)
    (h : MoveFailed s old (old + oldSize) dest newSize replace s')

theorem MremapArgs.of_checks {old oldSize newSize flags newAddress : Nat}
    (h : ¬ (old % pageSize ≠ 0 ∨ oldSize = 0 ∨ newSize = 0 ∨ oldSize % pageSize ≠ 0 ∨
      newSize % pageSize ≠ 0 ∨ usizeMax-pageSize ≤ newSize)) (hend : old+oldSize < wordRange)
    (hfixed : ¬ (mremapIsFixed flags = true ∧ newAddress % pageSize ≠ 0)) :
    MremapArgs old oldSize newSize flags newAddress := by
  simp only [not_or,not_not] at h
  obtain ⟨h1,h2,h3,h4,h5,h6⟩ := h
  refine ⟨Nat.dvd_of_mod_eq_zero h1,by omega,by omega,Nat.dvd_of_mod_eq_zero h4,
    Nat.dvd_of_mod_eq_zero h5,by omega,hend,?_⟩
  intro hf
  by_contra hno
  exact hfixed ⟨hf,fun hmod => hno (Nat.dvd_of_mod_eq_zero hmod)⟩

theorem MremapArgs.newSize_lt {old oldSize newSize flags newAddress : Nat}
    (h : MremapArgs old oldSize newSize flags newAddress) : newSize < wordRange := by
  have hsmall := h.small
  simp only [usizeMax] at hsmall ⊢
  omega

theorem fullyMapped_isSome (h : Own s []) (vas : List Nat) :
    ∃ b, fullyMapped s.mappings vas = some b := by
  induction vas with
  | nil => exact ⟨true,rfl⟩
  | cons va vas ih =>
    obtain ⟨r,hr⟩ := h.pagePhys_isSome va
    rw [fullyMapped,hr]
    cases r with
    | none => exact ⟨false,rfl⟩
    | some p => exact ih

theorem mremap_spec (h : Own s []) :
    wp (mremap old oldSize newSize flags newAddress : MapAction σ Nat)
      (fun r s' => MremapArgs old oldSize newSize flags newAddress ∧
        MremapDone s old oldSize newSize flags newAddress r s')
      (fun _ s' => MremapFailed s old oldSize newSize flags newAddress s') s := by
  have hfix : (flags &&& mremapFixed != 0) = mremapIsFixed flags := rfl
  unfold mremap
  simp only [hfix]
  refine wp_guard (.refused rfl) fun hchecks => ?_
  rw [wp_bind,wp_orThrow]
  refine ⟨?_,fun _ => .refused rfl⟩
  intro oldEnd hend
  obtain ⟨rfl,hfits⟩ := checkedAdd_eq_some.mp hend
  refine wp_guard (.refused rfl) fun hfixed => ?_
  rw [wp_bind,wp_get]
  refine wp_guard (.refused rfl) fun _ => ?_
  have hargs : MremapArgs old oldSize newSize flags newAddress := .of_checks hchecks hfits hfixed
  have hsize := hargs.newSize_lt
  have hmove : ∀ dest replace,
      MovesTo s.mappings old oldSize newSize flags newAddress dest replace →
      wp (moveTo old (old+oldSize) dest newSize replace : MapAction σ Nat)
        (fun r s' => MremapArgs old oldSize newSize flags newAddress ∧
          MremapDone s old oldSize newSize flags newAddress r s')
        (fun _ s' => MremapFailed s old oldSize newSize flags newAddress s') s := by
    intro dest replace hto
    apply wp_mono (moveTo_spec h hsize)
    · rintro r s' ⟨rfl,hmoved⟩
      exact ⟨hargs,.moved hto hmoved⟩
    · intro _ s' hfail
      exact .moved hargs hto hfail
  rw [wp_ite]
  refine ⟨?_,?_⟩
  · intro heq
    rw [wp_ite]
    refine ⟨?_,?_⟩
    · rintro ⟨hf,hne⟩
      have hsame := hmove newAddress true (.same heq hf hne)
      rw [heq] at hsame ⊢
      exact hsame
    · intro hno
      exact ⟨hargs,.unchanged heq hno⟩
  · intro hne
    obtain ⟨mapped,hmapped⟩ := fullyMapped_isSome h (stepBy old (old+oldSize))
    have hmapped : rangeFullyMapped s.mappings old (old+oldSize) = some mapped := hmapped
    rw [wp_bind,wp_orPanic]
    refine ⟨mapped,hmapped,?_⟩
    refine wp_guard (.refused rfl) fun hm => ?_
    have hmapped : rangeFullyMapped s.mappings old (old+oldSize) = some true := by
      rw [hmapped]
      simpa using hm
    have hplace : StaysInPlace s.mappings old oldSize newSize → wp (do
            let protFlags ← orThrow (flagsOfFirst s.mappings old) ErrorCode.eFault
            rebuild old (old+oldSize) old newSize protFlags
            pure old : MapAction σ Nat)
          (fun r s' => MremapArgs old oldSize newSize flags newAddress ∧
            MremapDone s old oldSize newSize flags newAddress r s')
          (fun _ s' => MremapFailed s old oldSize newSize flags newAddress s') s := by
      intro hstay
      rw [wp_bind,wp_orThrow]
      refine ⟨?_,fun _ => .refused rfl⟩
      intro prot hflags
      rw [wp_bind]
      apply wp_mono (rebuild_spec h hsize (by omega))
      · rintro _ s' ⟨s1,s2,frames,buffers,hdone⟩
        exact ⟨hargs,.inPlace hmapped hstay hflags hdone⟩
      · intro _ s' hfail
        exact .inPlace hargs hmapped hstay hflags hfail
    rw [wp_ite]
    refine ⟨fun hlt => hplace (Or.inl hlt),fun hge => ?_⟩
    have hgrow : oldSize < newSize := by omega
    rw [wp_ite,staysInPlace_iff hgrow]
    refine ⟨hplace,fun hno => ?_⟩
    rw [wp_ite]
    refine ⟨fun hf => hmove newAddress true (.fixed hgrow hmapped hno hf),fun hf => ?_⟩
    rw [wp_ite]
    refine ⟨?_,fun _ => .refused rfl⟩
    intro _
    rw [wp_bind,wp_orThrow]
    refine ⟨?_,fun _ => .refused rfl⟩
    intro dest hfind
    exact hmove dest false (.gap hgrow hmapped hno (by simpa using hf) hfind)

end Athera
