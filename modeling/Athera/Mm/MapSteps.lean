import Mathlib.Data.List.Flatten
import Athera.Mm.Custody
import Athera.Mm.Pages

/-!
# The steps of the memory calls

What the steps of the memory-map calls do to the state, for any memory set.
-/

namespace Athera

open Framework Action LawfulFrameAllocator List Memory Block

variable {σ : Type}

abbrev Walk := Nat → Option PageTableEntry

/-- The walks after unmapping the given addresses. -/
def clearWalk (vas : List Nat) (w : Walk) : Walk := fun va =>
  if vas.any fun p => decide (vpn va = vpn p) then none else w va

def setWalk (addr : Nat) (flags : PageFlags) (w : Walk) (page : Nat × Nat) : Walk := fun va =>
  if vpn va = vpn (wrap (addr + page.1)) then some ⟨true,flags,ppn page.2⟩ else w va

/-- The walks after mapping frames at `addr`. -/
def mapWalk (addr : Nat) (frames : List Frame) (flags : PageFlags) (w : Walk) : Walk :=
  if flags.rwx then (framePages 0 frames).foldl (setWalk addr flags) w else w

def framesOf (ms : MemorySet) : List Frame := ms.flatMap UserMapping.frames

def TaskMemory.frames (s : TaskMemory σ) : List Frame := framesOf s.mappings

variable [LawfulFrameAllocator σ] {ε : Type} {s s' : TaskMemory σ} {fs : List Frame}

theorem unmapAll_spec {E : ε → TaskMemory σ → Prop} (h : Custody s fs) (vas : List Nat) :
    wp (forEach userUnmap vas : Action ε (TaskMemory σ) Unit)
      (fun _ s' => Steady s s' fs ∧ s'.walk = clearWalk vas s.walk) E s := by
  induction vas generalizing s with
  | nil => exact ⟨Steady.refl h,funext fun va => by simp [clearWalk]⟩
  | cons va vas ih =>
    change wp (userUnmap va >>= fun _ => forEach userUnmap vas) _ E s
    rw [wp_bind]
    apply wp_weaken (userUnmap_spec h va)
    rintro _ s1 ⟨hst,hw⟩
    apply wp_weaken (ih hst.custody)
    rintro _ s2 ⟨hst',hw'⟩
    refine ⟨hst.trans hst',?_⟩
    funext va'
    rw [hw']
    simp only [clearWalk,hw va']
    by_cases hv : vpn va' = vpn va
    · simp [hv]
    · simp [hv]

section

variable {addr : Nat} {flags : PageFlags}

/-- How far a failed mapping got: the pages before the failing one are unmapped again. -/
def FailedWalk (addr : Nat) (flags : PageFlags) (pages : List (Nat × Nat)) (s : TaskMemory σ)
    (w : Walk) : Prop :=
  ∃ done page rest, pages = done ++ page :: rest ∧ ¬ s.HasTable (wrap (addr + page.1)) ∧
    w = clearWalk ((stepBy 0 page.1).map fun r => wrap (addr + r))
      (done.foldl (setWalk addr flags) s.walk)

theorem mapPages_spec (h : Custody s fs) (pages : List (Nat × Nat)) :
    wp (forEach (mapPage addr flags) pages : MapAction σ Unit)
      (fun _ s' => Steady s s' fs ∧ s'.walk = pages.foldl (setWalk addr flags) s.walk)
      (fun _ s' => Steady s s' fs ∧ FailedWalk addr flags pages s s'.walk) s := by
  have hloop := wp_forEach (f := mapPage addr flags)
    (I := fun rest s' => ∃ done, pages = done++rest ∧ Steady s s' fs ∧
      s'.walk = done.foldl (setWalk addr flags) s.walk)
    (E := fun _ s' => Steady s s' fs ∧ FailedWalk addr flags pages s s'.walk)
    ?_ ⟨[],rfl,Steady.refl h,rfl⟩
  · apply wp_weaken hloop
    rintro _ s' ⟨done,hdone,hst,hw⟩
    rw [append_nil] at hdone
    exact ⟨hst,hdone ▸ hw⟩
  · rintro page rest s1 ⟨done,hpages,hst,hw⟩
    unfold mapPage
    rw [wp_onError,wp_mapError]
    apply wp_mono (userMap_spec hst.custody _ _ _)
    · rintro _ s2 ⟨hst',_,hw'⟩
      refine ⟨done ++ [page],by simp [hpages],hst.trans hst',?_⟩
      rw [foldl_append,← hw]
      exact funext hw'
    · rintro e s2 ⟨hst',hw',hnot⟩
      have hmap : ∀ l : List Nat, forEach (fun r => userUnmap (wrap (addr+r))) l =
            (forEach userUnmap (l.map fun r => wrap (addr+r)) :
              MapAction σ Unit) := by
        intro l
        induction l with
        | nil => rfl
        | cons r l ih => simp only [forEach,map_cons,ih]
      rw [hmap]
      apply wp_mono (unmapAll_spec hst'.custody _) _ (fun _ s3 he => he)
      rintro _ s3 ⟨hst'',hw''⟩
      refine ⟨(hst.trans hst').trans hst'',done,page,rest,hpages,?_,?_⟩
      · exact fun ht => hnot (hst.tables _ ht)
      · rw [hw'',funext hw',hw]

theorem mapFrame_spec {frames : List Frame} (h : Custody s (frames++fs)) :
    wp (mapFrame addr frames flags : MapAction σ Unit)
      (fun _ s' => s'.known = s.known ∧ s'.mappings = s.mappings ++ [⟨addr,frames,flags⟩] ∧
        Custody s' (frames++fs) ∧ AgreeOn (InFrames (frames++fs)) s.mem s'.mem ∧
        (∀ va, s.HasTable va → s'.HasTable va) ∧ s'.walk = mapWalk addr frames flags s.walk)
      (fun _ s' => Steady s s' fs ∧ flags.rwx = true ∧
        FailedWalk addr flags (framePages 0 frames) s s'.walk) s := by
  unfold mapFrame
  rw [wp_bind,wp_onError]
  have hmap : wp (if flags.rwx = true then forEach (mapPage addr flags) (framePages 0 frames)
        else pure () : MapAction σ Unit)
      (fun _ s' => Steady s s' (frames++fs) ∧ s'.walk = mapWalk addr frames flags s.walk)
      (fun _ s' => Steady s s' (frames++fs) ∧ flags.rwx = true ∧
        FailedWalk addr flags (framePages 0 frames) s s'.walk) s := by
    unfold mapWalk
    by_cases hrwx : flags.rwx = true
    · rw [if_pos hrwx,if_pos hrwx]
      exact wp_mono (mapPages_spec h _) (fun _ _ hq => hq) (fun _ _ he => ⟨he.1,hrwx,he.2⟩)
    · rw [if_neg hrwx,if_neg hrwx]
      exact ⟨Steady.refl h,rfl⟩
  apply wp_mono hmap
  · rintro _ s1 ⟨hst,hw⟩
    refine ⟨hst.kept.known,?_,hst.custody.congr rfl rfl rfl,hst.kept.bytes,?_,hw⟩
    · simp only [hst.kept.mappings]
    · exact hst.tables
  · rintro e s1 ⟨hst,hrwx,hfail⟩
    apply wp_mono (dropFrames_spec hst.custody) _ (fun _ s2 he => he)
    rintro _ s2 ⟨hsame,hc⟩
    refine ⟨⟨hc,?_,?_⟩,hrwx,?_⟩
    · exact (hst.kept.mono (subset_append_right ..)).trans hsame.toKept
    · exact fun va ht => (hsame.steady hc).tables va (hst.tables va ht)
    · rw [funext hsame.walk]
      exact hfail

end

section

variable {frames : List Frame} {start size : Nat}

def pageAt (m : Memory) (p : Nat) : Fin pageSize → UInt8 := fun i => m (p + i)

theorem pageAt_eq_iff {m m' : Memory} {p p' : Nat} :
    pageAt m p = pageAt m' p' ↔ ∀ i < pageSize, m (p+i) = m' (p' + i) :=
  ⟨fun h i hi => congrFun h ⟨i,hi⟩,fun h => funext fun i => h i.1 i.2⟩

/-- What a copy of pages leaves in the frames: the pages at the given offsets are those of the
source, where the source belongs to `fs`, and the other bytes are as before. -/
structure Copied (s s' : TaskMemory σ) (frames fs : List Frame) (start : Nat) (offs : List Nat) :
    Prop where
  page : ∀ off ∈ offs, ∀ src dst, pagePhys s.mappings (wrap (start + off)) = some (some src) →
    physAtOffset frames off = some dst → (∀ i < pageSize, InFrames fs (src + i)) →
    pageAt s'.mem dst = pageAt s.mem src
  rest : ∀ a, (∀ off ∈ offs, ∀ dst, physAtOffset frames off = some dst → a ∉ mk dst pageSize) →
    s'.mem a = s.mem a

theorem copyPages_spec (h : Custody s (frames++fs)) (hsrc : ∀ va, ∃ r, pagePhys s.mappings va = some r)
    (hsize : size ≤ totalSize frames) :
    wp (copyPages frames start size : MapAction σ Unit)
      (fun _ s' => Same s s' fs ∧ Custody s' (frames++fs) ∧
        Copied s s' frames fs start (stepBy 0 size) ∧
        ∀ off ∈ stepBy 0 size, pagePhys s.mappings (wrap (start+off)) ≠ some none)
      (fun _ s' => Same s s' fs ∧ Custody s' (frames++fs) ∧
        ∃ off ∈ stepBy 0 size, pagePhys s.mappings (wrap (start+off)) = some none) s := by
  have hshape : ∀ f ∈ frames, PageShape f := fun f hf =>
    (h.shape f (mem_append_left _ hf)).pageShape
  have hap : frames.Pairwise Apart := (pairwise_append.mp h.apart).1
  have hoffs : ∀ off ∈ stepBy 0 size, pageSize ∣ off ∧ off < size :=
    fun off => mem_stepBy_zero.mp
  have hnodup : (stepBy 0 size).Nodup := by
    apply nodup_range.map
    intro i j hij
    simp only [pageSize] at hij
    omega
  have hloop := wp_forEach (f := copyPage frames start)
    (I := fun rest s' => ∃ done, stepBy 0 size = done++rest ∧ Same s s' fs ∧
      Custody s' (frames++fs) ∧ Copied s s' frames fs start done ∧
      ∀ off ∈ done, pagePhys s.mappings (wrap (start+off)) ≠ some none)
    (E := fun _ s' => Same s s' fs ∧ Custody s' (frames++fs) ∧
      ∃ off ∈ stepBy 0 size, pagePhys s.mappings (wrap (start+off)) = some none)
    ?_ ⟨[],rfl,Same.refl s fs,h,⟨by simp,by simp⟩,by simp⟩
  · apply wp_weaken hloop
    rintro _ s' ⟨done,hdone,hrest⟩
    rw [append_nil] at hdone
    rw [hdone]
    exact hrest
  · rintro off rest s1 ⟨done,hpages,hsame,hc,hcop,hnone⟩
    have hmem : off ∈ stepBy 0 size := by simp [hpages]
    obtain ⟨hdvd,hlt⟩ := hoffs off hmem
    obtain ⟨dst,hdst⟩ := physAtOffset_isSome (lt_of_lt_of_le hlt hsize)
    obtain ⟨r,hr⟩ := hsrc (wrap (start+off))
    unfold copyPage
    simp only [wp_bind,wp_get,wp_orPanic,hsame.mappings,wp_orThrow]
    refine ⟨r,hr,?_,?_⟩
    · rintro src rfl
      refine ⟨dst,hdst,?_⟩
      obtain ⟨_,f,hf,hlo,hhi⟩ := physAtOffset_page hshape hdvd hdst
      have hin : ∀ a, a ∈ mk dst pageSize → InFrames frames a := by
        intro a ha
        refine ⟨f,hf,?_⟩
        simp only [mem_iff,stop] at ha hhi ⊢
        omega
      have hout : ∀ a, a ∉ mk dst pageSize →
          s1.mem.copy src dst pageSize a = s1.mem a := fun a ha => copy_outside _ _ _ _ ha
      refine ⟨done ++ [off],by simp [hpages],hsame.trans ⟨⟨rfl,rfl,?_⟩,rfl⟩,hc.store ?_,⟨?_,?_⟩,?_⟩
      · intro a ha
        exact hout a fun hd => hc.disjoint (hin a hd) ha
      · intro a ha
        apply hout a
        intro hd
        obtain ⟨g,hg,hag⟩ := hin a hd
        exact ha ⟨g,mem_append_left _ hg,hag⟩
      · intro off' hoff' src' dst' hs' hd' hfs
        rw [pageAt_eq_iff]
        intro i hi
        change s1.mem.copy src dst pageSize (dst' + i) = s.mem (src' + i)
        rcases mem_append.mp hoff' with hold | hnew
        · have hmem' : off' ∈ stepBy 0 size := by simp [hpages,hold]
          have hne : off' ≠ off := by
            rintro rfl
            rw [hpages] at hnodup
            exact (nodup_append.mp hnodup).2.2 _ hold _ mem_cons_self rfl
          have hapart := physAtOffset_apart hshape hap (hoffs off' hmem').1 hdvd hne hd' hdst
          rw [hout (dst' + i) (hapart.not_mem (by simp only [mem_iff]; omega))]
          exact pageAt_eq_iff.mp (hcop.page off' hold src' dst' hs' hd' hfs) i hi
        · obtain rfl := mem_singleton.mp hnew
          obtain rfl : dst = dst' := Option.some.inj (hdst.symm.trans hd')
          obtain rfl : src = src' := by
            rw [hs'] at hr
            simpa using hr.symm
          rw [copy_inside _ _ _ _ hi]
          exact hsame.bytes _ (hfs i hi)
      · intro a ha
        change s1.mem.copy src dst pageSize a = s.mem a
        rw [hout a (ha off (by simp) dst hdst)]
        exact hcop.rest a fun o ho => ha o (mem_append_left _ ho)
      · intro o ho
        rcases mem_append.mp ho with ho | ho
        · exact hnone o ho
        · obtain rfl := mem_singleton.mp ho
          rw [hr]
          simp
    · rintro rfl
      exact ⟨hsame,hc,off,hmem,hr⟩

end

variable {E : ErrorCode → TaskMemory σ → Prop} {buffers : List Buffer}

/-- The frames hold a copy of a piece that stays, as far as the piece belongs to `fs`. -/
structure Filled (s s' : TaskMemory σ) (fs frames : List Frame) (k : Keep) : Prop where
  sizes : frames.map size = segmentSizes k.size k.size
  page : ∀ off ∈ stepBy 0 k.size, ∀ src dst,
    pagePhys s.mappings (wrap (k.va + off)) = some (some src) →
    physAtOffset frames off = some dst → (∀ i < pageSize, InFrames fs (src + i)) →
    pageAt s'.mem dst = pageAt s.mem src

theorem pageAt_congr {m m' : Memory} {p : Nat} (h : AgreeOn (InFrames fs) m m')
    (hin : ∀ i < pageSize, InFrames fs (p+i)) : pageAt m' p = pageAt m p :=
  pageAt_eq_iff.mpr fun i hi => h _ (hin i hi)

theorem inFrames_page {frames : List Frame} {off dst : Nat} (hs : ∀ f ∈ frames, PageShape f)
    (hoff : pageSize ∣ off) (h : physAtOffset frames off = some dst) :
    ∀ i < pageSize, InFrames frames (dst+i) := by
  intro i hi
  obtain ⟨_,f,hf,hlo,hhi⟩ := physAtOffset_page hs hoff h
  refine ⟨f,hf,?_⟩
  simp only [mem_iff,stop] at hhi ⊢
  omega

variable {frames : List Frame} {k : Keep} {s'' : TaskMemory σ}

section

omit [LawfulFrameAllocator σ]

theorem Filled.mono {gs : List Frame} (h : Filled s s' fs frames k) (hsub : gs ⊆ fs) :
    Filled s s' gs frames k :=
  ⟨h.sizes,fun off hoff src dst hs hd hin =>
    h.page off hoff src dst hs hd fun i hi => (hin i hi).mono hsub⟩

theorem Filled.later (h : Filled s s' fs frames k) (hshape : ∀ f ∈ frames, FrameShape f)
    (hbytes : AgreeOn (InFrames frames) s'.mem s''.mem) : Filled s s'' fs frames k := by
  refine ⟨h.sizes,?_⟩
  intro off hoff src dst hs hd hin
  rw [← h.page off hoff src dst hs hd hin]
  apply pageAt_congr hbytes
  exact inFrames_page (fun f hf => (hshape f hf).pageShape) (mem_stepBy_zero.mp hoff).1 hd

theorem Filled.before (h : Filled s' s'' fs frames k) (hkept : Kept s s' fs) :
    Filled s s'' fs frames k := by
  refine ⟨h.sizes,?_⟩
  intro off hoff src dst hs hd hin
  rw [← hkept.mappings] at hs
  rw [h.page off hoff src dst hs hd hin]
  exact pageAt_congr hkept.bytes hin

end

theorem fillKeep_spec (h : Custody s fs)
    (hsrc : ∀ va, ∃ r, pagePhys s.mappings va = some r) (hk : k.size < wordRange) :
    wp (fillKeep k : MapAction σ (List Frame))
      (fun frames s' => Same s s' fs ∧ Custody s' (frames++fs) ∧ Filled s s' fs frames k)
      (fun _ s' => Same s s' fs ∧ Custody s' fs) s := by
  unfold fillKeep
  simp only [wp_bind,wp_orThrow,wp_onError]
  apply wp_weaken (allocFrames_spec h k.size)
  rintro r s1 ⟨hsame,hr⟩
  refine ⟨?_,?_⟩
  · rintro frames rfl
    obtain ⟨hsizes,hc⟩ := hr
    have hsrc1 : ∀ va, ∃ r, pagePhys s1.mappings va = some r := by
      rw [hsame.mappings]
      exact hsrc
    have hle : k.size ≤ totalSize frames := by
      rw [totalSize_of_segments hsizes]
      exact le_backing hk
    apply wp_mono (copyPages_spec hc hsrc1 hle)
    · rintro _ s2 ⟨hsame2,hc2,hcop,_⟩
      exact ⟨hsame.trans hsame2,hc2,Filled.before ⟨hsizes,hcop.page⟩ hsame.toKept⟩
    · rintro e s2 ⟨hsame2,hc2,_⟩
      apply wp_weaken (dropFrames_spec hc2)
      rintro _ s3 ⟨hsame3,hc3⟩
      exact ⟨(hsame.trans hsame2).trans hsame3,hc3⟩
  · rintro rfl
    exact ⟨hsame,hr⟩

abbrev Buffer := List Frame × Keep

def bufferFrames (buffers : List Buffer) : List Frame := buffers.flatMap Prod.fst

theorem dropBuffers_spec (h : Custody s (bufferFrames buffers++fs)) :
    wp (dropBuffers buffers) (fun _ s' => Same s s' fs ∧ Custody s' fs) E s := by
  apply wp_forEach (I := fun rest s' => Same s s' fs ∧ Custody s' (bufferFrames rest++fs))
  · rintro b rest s1 ⟨hsame,hc⟩
    rw [bufferFrames,flatMap_cons,append_assoc] at hc
    apply wp_weaken (dropFrames_spec hc)
    rintro _ s2 ⟨hsame2,hc2⟩
    exact ⟨hsame.trans (hsame2.mono (subset_append_right ..)),hc2⟩
  · exact ⟨Same.refl s fs,h⟩

theorem fillKeeps_spec {ks : List Keep} (h : Custody s (bufferFrames buffers++fs))
    (hsrc : ∀ va, ∃ r, pagePhys s.mappings va = some r) (hks : ∀ k ∈ ks, k.size < wordRange) :
    wp (fillKeeps buffers ks : MapAction σ (List Buffer))
      (fun r s' => ∃ new, r = buffers++new ∧ new.map Prod.snd = ks ∧
        Same s s' (bufferFrames buffers++fs) ∧ Custody s' (bufferFrames r++fs) ∧
        ∀ b ∈ new, Filled s s' fs b.1 b.2)
      (fun _ s' => Same s s' fs ∧ Custody s' fs) s := by
  induction ks generalizing buffers s with
  | nil => exact ⟨[],by simp,rfl,Same.refl _ _,h,by simp⟩
  | cons k ks ih =>
    rw [fillKeeps,wp_bind,wp_onError]
    apply wp_mono (fillKeep_spec h hsrc (hks k mem_cons_self))
    · rintro frames s1 ⟨hsame,hc,hfill⟩
      have hperm : (frames++(bufferFrames buffers++fs)).Perm
          (bufferFrames (buffers ++ [(frames, k)])++fs) := by
        simpa [bufferFrames] using perm_append_comm_assoc frames (bufferFrames buffers) fs
      have hsrc1 : ∀ va, ∃ r, pagePhys s1.mappings va = some r := by
        rw [hsame.mappings]
        exact hsrc
      apply wp_mono (ih (hc.perm hperm) hsrc1 fun k' hk' => hks k' (mem_cons_of_mem _ hk'))
      · rintro r s2 ⟨new,rfl,hnew,hsame2,hc2,hfills⟩
        refine ⟨(frames, k)::new,by simp,by simp [hnew],hsame.trans (hsame2.mono ?_),hc2,?_⟩
        · exact fun f hf => hperm.subset (mem_append_right _ hf)
        intro b hb
        rcases mem_cons.mp hb with rfl | hb
        · refine (hfill.mono (subset_append_right ..)).later
            (fun f hf => hc.shape f (mem_append_left _ hf)) (hsame2.bytes.mono fun _ => .mono ?_)
          exact fun f hf => hperm.subset (mem_append_left _ hf)
        · exact (hfills b hb).before (hsame.mono (subset_append_right ..)).toKept
      · rintro e s2 ⟨hsame2,hc2⟩
        exact ⟨(hsame.mono (subset_append_right ..)).trans hsame2,hc2⟩
    · rintro e s1 ⟨hsame,hc⟩
      apply wp_weaken (dropBuffers_spec hc)
      rintro _ s2 ⟨hsame2,hc2⟩
      exact ⟨(hsame.mono (subset_append_right ..)).trans hsame2,hc2⟩

variable {m : UserMapping} {held : List Frame}

def mappingPages (m : UserMapping) : List Nat := stepBy (mappingRange m).1 (mappingRange m).2

theorem framesOf_append (ms ms' : MemorySet) : framesOf (ms++ms') = framesOf ms++framesOf ms' :=
  flatMap_append

theorem framesOf_singleton (m : UserMapping) : framesOf [m] = m.frames := by simp [framesOf]

theorem mem_framesOf {ms : MemorySet} {f : Frame} : f ∈ framesOf ms ↔ ∃ m ∈ ms, f ∈ m.frames :=
  mem_flatMap

/-- What is left after some mappings were taken out: the others with their frames and bytes,
and no walk for the given pages. -/
structure Removed (s s' : TaskMemory σ) (held : List Frame) (ms : MemorySet) (vas : List Nat) :
    Prop where
  known : s'.known = s.known
  mappings : s'.mappings = ms
  custody : Custody s' (framesOf ms ++ held)
  bytes : AgreeOn (InFrames (framesOf ms ++ held)) s.mem s'.mem
  tables : ∀ va, s.HasTable va → s'.HasTable va
  walk : s'.walk = clearWalk vas s.walk

theorem removeMapping_spec {pre post : MemorySet} (hms : s.mappings = pre++m::post)
    (h : Custody s (s.frames++held)) : wp (removeMapping pre.length)
      (fun _ s' => Removed s s' held (pre++post) (mappingPages m)) E s := by
  have hperm : (s.frames++held).Perm (m.frames++(framesOf (pre++post)++held)) := by
    simpa [TaskMemory.frames,hms,framesOf] using perm_append_comm_assoc (framesOf pre) m.frames
      (framesOf post++held)
  have hget : s.mappings[pre.length]? = some m := by simp [hms]
  have herase : s.mappings.eraseIdx pre.length = pre++post := by
    rw [hms,eraseIdx_append_of_length_le (le_refl _)]
    simp
  unfold removeMapping
  simp only [wp_bind,wp_get,wp_orPanic,hget,Option.some.injEq,exists_eq_left',wp_modify]
  have hc0 : Custody { s with mappings := s.mappings.eraseIdx pre.length }
      (m.frames++(framesOf (pre++post)++held)) := (h.perm hperm).congr rfl rfl rfl
  apply wp_weaken (unmapAll_spec hc0 (stepBy (mappingRange m).1 (mappingRange m).2))
  rintro _ s1 ⟨hst,hw⟩
  apply wp_weaken (dropFrames_spec hst.custody)
  rintro _ s2 ⟨hsame,hc⟩
  have hkept := (hst.kept.mono (subset_append_right ..)).trans hsame.toKept
  refine ⟨hkept.known,?_,hc,hkept.bytes,?_,?_⟩
  · rw [hkept.mappings]
    exact herase
  · exact fun va ht => (hsame.steady hc).tables va (hst.tables va ht)
  · rw [funext hsame.walk,hw]
    rfl

theorem clearWalk_clearWalk (vas vas' : List Nat) (w : Walk) :
    clearWalk vas (clearWalk vas' w) = clearWalk (vas++vas') w := by
  funext va
  unfold clearWalk
  rw [any_append]
  by_cases h : vas.any fun p => decide (vpn va = vpn p)
  · simp only [h,if_true,Bool.true_or]
  · simp only [h,if_false,Bool.false_or,Bool.false_eq_true]

private theorem overlappingIndices_snoc (pre : MemorySet) (m : UserMapping) (start stop : Nat) :
    overlappingIndices (pre ++ [m]) start stop =
      overlappingIndices pre start stop++if overlaps m start stop then [pre.length] else [] := by
  unfold overlappingIndices
  rw [zipIdx_append]
  by_cases h : overlaps m start stop
  · simp [h]
  · simp [h]

/-- Removing by index from the last to the first leaves the mappings that do not overlap. -/
theorem removeAll_spec {pre post : MemorySet} (start stop : Nat) (hms : s.mappings = pre++post)
    (h : Custody s (s.frames++held)) :
    wp (forEach removeMapping (overlappingIndices pre start stop).reverse)
      (fun _ s' => Removed s s' held ((pre.filter fun m => !overlaps m start stop)++post)
        ((pre.filter fun m => overlaps m start stop).flatMap mappingPages)) E s := by
  induction pre using List.reverseRecOn generalizing post s with
  | nil =>
    refine ⟨rfl,hms,?_,AgreeOn.refl _ _,fun _ ht => ht,funext fun va => by simp [clearWalk]⟩
    rwa [TaskMemory.frames,hms] at h
  | append_singleton pre m ih =>
    rw [overlappingIndices_snoc]
    by_cases ho : overlaps m start stop = true
    · simp only [ho,reverse_append,filter_append]
      change wp (removeMapping pre.length >>= fun _ =>
        forEach removeMapping (overlappingIndices pre start stop).reverse) _ E s
      rw [wp_bind]
      rw [append_assoc] at hms
      apply wp_weaken (removeMapping_spec hms h)
      rintro _ s1 hr1
      have hc1 : Custody s1 (s1.frames++held) := by
        rw [TaskMemory.frames,hr1.mappings]
        exact hr1.custody
      apply wp_weaken (ih hr1.mappings hc1)
      rintro _ s2 hr2
      have hsub : framesOf ((pre.filter fun m => !overlaps m start stop)++post)++held ⊆
          framesOf (pre++post)++held :=
        (((filter_sublist.append_right post).flatMap _).append_right held).subset
      have hfilter : (pre.filter fun m => !overlaps m start stop) ++
          ([m].filter fun m => !overlaps m start stop)++post =
          (pre.filter fun m => !overlaps m start stop)++post := by
        simp [ho]
      refine ⟨hr2.known.trans hr1.known,?_,?_,?_,fun va ht => hr2.tables va (hr1.tables va ht),?_⟩
      · rw [hfilter]
        exact hr2.mappings
      · rw [hfilter]
        exact hr2.custody
      · rw [hfilter]
        exact (hr1.bytes.mono fun _ => .mono hsub).trans hr2.bytes
      · rw [hr2.walk,hr1.walk,clearWalk_clearWalk]
        simp [ho]
    · simp only [ho,if_false,Bool.false_eq_true,append_nil,filter_append]
      rw [append_assoc] at hms
      have hrun := ih hms h
      have h1 : [m].filter (fun m => !overlaps m start stop) = [m] := by simp [ho]
      have h2 : [m].filter (fun m => overlaps m start stop) = [] := by simp [ho]
      rw [h1,h2,append_nil,append_assoc]
      exact hrun

def bufferMapping (b : Buffer) : UserMapping := ⟨b.2.va,b.1,b.2.flags⟩

def remapWalk (buffers : List Buffer) (w : Walk) : Walk :=
  buffers.foldl (fun w b => mapWalk b.2.va b.1 b.2.flags w) w

/-- A page of a piece that needs a table which is not there. -/
def LacksTable (s : TaskMemory σ) (buffers : List Buffer) : Prop :=
  ∃ b ∈ buffers, b.2.flags.rwx = true ∧
    ∃ page ∈ framePages 0 b.1, ¬ s.HasTable (wrap (b.2.va + page.1))

theorem framesOf_bufferMapping (buffers : List Buffer) :
    framesOf (buffers.map bufferMapping) = bufferFrames buffers := by
  simp [framesOf,bufferFrames,flatMap_map,bufferMapping]

theorem remapKeeps_spec
    (h : Custody s (bufferFrames buffers++(s.frames++held))) : wp (remapKeeps buffers)
      (fun _ s' => s'.known = s.known ∧ s'.mappings = s.mappings++buffers.map bufferMapping ∧
        Custody s' (s'.frames++held) ∧ AgreeOn (InFrames (s'.frames++held)) s.mem s'.mem ∧
        (∀ va, s.HasTable va → s'.HasTable va) ∧ s'.walk = remapWalk buffers s.walk)
      (fun _ s' => s'.known = s.known ∧ Custody s' (s'.frames++held) ∧
        AgreeOn (InFrames held) s.mem s'.mem ∧ LacksTable s buffers ∧
        ∃ done rest, buffers = done++rest ∧
          s'.mappings = s.mappings++done.map bufferMapping) s := by
  induction buffers generalizing s with
  | nil => exact ⟨rfl,by simp,h,AgreeOn.refl _ _,fun _ ht => ht,rfl⟩
  | cons b rest ih =>
    obtain ⟨frames,k⟩ := b
    have hc : Custody s (frames++(bufferFrames rest++(s.frames++held))) := by
      rw [← append_assoc]
      exact h
    rw [remapKeeps,wp_bind,wp_onError]
    apply wp_mono (mapFrame_spec hc)
    · rintro _ s1 ⟨hknown,hms,hc1,hbytes,htab,hw⟩
      have hframes : s1.frames = s.frames++frames := by
        rw [TaskMemory.frames,hms,framesOf_append,framesOf_singleton]
        rfl
      have hperm : (frames++(bufferFrames rest++(s.frames++held))).Perm
          (bufferFrames rest++(s1.frames++held)) := by
        rw [hframes,append_assoc s.frames]
        exact (perm_append_comm_assoc ..).trans ((perm_append_comm_assoc ..).append_left _)
      have hrest := ih (hc1.perm hperm)
      apply wp_mono hrest
      · rintro _ s2 ⟨hknown2,hms2,hc2,hbytes2,htab2,hw2⟩
        have hframes2 : s2.frames = s1.frames++bufferFrames rest := by
          rw [TaskMemory.frames,hms2,framesOf_append,framesOf_bufferMapping]
          rfl
        refine ⟨hknown2.trans hknown,?_,hc2,?_,fun va ht => htab2 va (htab va ht),?_⟩
        · rw [hms2,hms]
          simp [bufferMapping]
        · refine (hbytes.mono fun _ => .mono fun f hf => hperm.mem_iff.mpr ?_).trans hbytes2
          rw [hframes2] at hf
          simp only [mem_append] at hf ⊢
          tauto
        · rw [hw2,hw]
          rfl
      · rintro e s2 ⟨hknown2,hc2,hbytes2,⟨b,hb,hrwx,page,hpage,hno⟩,done,later,rfl,hms2⟩
        refine ⟨hknown2.trans hknown,hc2,?_,⟨b,mem_cons_of_mem _ hb,hrwx,page,hpage,?_⟩,
          (frames, k)::done,later,rfl,?_⟩
        · exact (hbytes.mono fun _ => .mono (by grind)).trans hbytes2
        · exact fun ht => hno (htab _ ht)
        · rw [hms2,hms]
          simp [bufferMapping]
    · rintro e s1 ⟨hst,hrwx,done,page,later,hpages,hno,_⟩
      apply wp_weaken (dropBuffers_spec hst.custody)
      rintro _ s2 ⟨hsame,hc2⟩
      have hms : s2.mappings = s.mappings := hsame.mappings.trans hst.kept.mappings
      refine ⟨hsame.known.trans hst.kept.known,?_,?_,
        ⟨(frames, k),mem_cons_self,hrwx,page,?_,hno⟩,[],_,rfl,by simp [hms]⟩
      · rw [TaskMemory.frames,hms]
        exact hc2
      · exact (hst.kept.bytes.mono fun _ => .mono (by grind)).trans (hsame.bytes.mono fun _ => .mono (by grind))
      · simp [hpages]

/-- Custody of all mapped frames and of those in hand, with addresses that fit a register. -/
structure Own (s : TaskMemory σ) (held : List Frame) : Prop where
  custody : Custody s (s.frames ++ held)
  vas : ∀ m ∈ s.mappings, m.va < wordRange

theorem Custody.mapping_shape {gs : List Frame} (h : Custody s gs)
    (hva : m.va < wordRange) (hsub : ∀ f ∈ m.frames, f ∈ gs)
    (hap : m.frames.Pairwise Apart) : m.Shape := by
  refine ⟨hva,fun f hf => (h.shape f (hsub f hf)).pageShape,?_⟩
  exact sum_size_le hap fun f hf => (h.shape f (hsub f hf)).bounded

theorem Own.shape (h : Own s held) : ∀ m ∈ s.mappings, m.Shape := by
  intro m hm
  apply h.custody.mapping_shape (h.vas m hm)
  · exact fun f hf => mem_append_left _ (mem_framesOf.mpr ⟨m,hm,hf⟩)
  · have hap := (pairwise_append.mp h.custody.apart).1
    rw [TaskMemory.frames,framesOf,pairwise_flatMap] at hap
    exact hap.1 m hm

theorem Own.held_shape {frames : List Frame} {addr : Nat} {flags : PageFlags}
    (h : Own s (frames++held)) (hva : addr < wordRange) :
    (UserMapping.mk addr frames flags).Shape := by
  apply h.custody.mapping_shape hva
  · exact fun f hf => mem_append_right _ (mem_append_left _ hf)
  · have hap := (pairwise_append.mp h.custody.apart).2.1
    exact (pairwise_append.mp hap).1

theorem Own.pagePhys_isSome (h : Own s held) (va : Nat) :
    ∃ r, pagePhys s.mappings va = some r := Athera.pagePhys_isSome h.shape va

theorem Same.own (h : Same s s' (s.frames++held)) (ho : Own s held)
    (hc : Custody s' (s.frames++held)) : Own s' held := by
  refine ⟨?_,?_⟩
  · rw [TaskMemory.frames,h.mappings]
    exact hc
  · rw [h.mappings]
    exact ho.vas

theorem keepsOf_bounds {start stop : Nat} {k : Keep}
    (hk : k ∈ keepsOf start stop m) (hm : m.Shape) : k.va < wordRange ∧ k.size < wordRange := by
  have hlt : (mappingRange m).1 < wordRange ∧ (mappingRange m).2 < wordRange := by
    rw [mappingRange_eq hm]
    exact ⟨lt_of_le_of_lt (Nat.div_mul_le_self _ _) hm.va,wrap_lt _⟩
  unfold keepsOf at hk
  by_cases ho : overlaps m start stop = true
  · simp only [ho] at hk
    rcases mem_append.mp hk with hk | hk
    · split at hk
      · obtain rfl := mem_singleton.mp hk
        simp only
        have hov := ho
        simp only [overlaps,Bool.and_eq_true,decide_eq_true_eq] at hov
        omega
      · simp at hk
    · split at hk
      · obtain rfl := mem_singleton.mp hk
        simp only
        omega
      · simp at hk
  · simp [ho] at hk

/-- The state after `unmap_range`: the mappings that do not overlap, then the pieces that stay,
in frames that hold copies of their pages. -/
structure Cut (s s' : TaskMemory σ) (held : List Frame) (start stop : Nat)
    (buffers : List Buffer) : Prop where
  keeps : buffers.map Prod.snd = s.mappings.flatMap (keepsOf start stop)
  known : s'.known = s.known
  mappings : s'.mappings =
    (s.mappings.filter fun m => !overlaps m start stop) ++ buffers.map bufferMapping
  own : Own s' held
  bytes : AgreeOn
    (InFrames (framesOf (s.mappings.filter fun m => !overlaps m start stop) ++ held)) s.mem s'.mem
  filled : ∀ b ∈ buffers, Filled s s' (s.frames ++ held) b.1 b.2
  tables : ∀ va, s.HasTable va → s'.HasTable va
  walk : s'.walk = remapWalk buffers
    (clearWalk ((s.mappings.filter fun m => overlaps m start stop).flatMap mappingPages) s.walk)

/-- The buffers that `unmap_range` fills for the pieces that stay. -/
structure Buffers (s : TaskMemory σ) (start stop : Nat) (buffers : List Buffer) : Prop where
  keeps : buffers.map Prod.snd = s.mappings.flatMap (keepsOf start stop)
  sizes : ∀ b ∈ buffers, b.1.map size = segmentSizes b.2.size b.2.size
  shape : ∀ b ∈ buffers, ∀ f ∈ b.1, PageShape f

section

variable {held : List Frame} {start stop : Nat}

theorem Own.keeps_bounds (h : Own s held) (hk : k ∈ s.mappings.flatMap (keepsOf start stop)) :
    k.va < wordRange ∧ k.size < wordRange := by
  obtain ⟨m,hm,hk⟩ := mem_flatMap.mp hk
  exact keepsOf_bounds hk (h.shape m hm)

/-- `unmap_range` has taken the mappings that overlap out; the pieces that stay are in the
buffers. -/
structure TakenOut (s s' : TaskMemory σ) (held : List Frame) (start stop : Nat)
    (buffers : List Buffer) : Prop where
  keeps : buffers.map Prod.snd = s.mappings.flatMap (keepsOf start stop)
  known : s'.known = s.known
  mappings : s'.mappings = s.mappings.filter fun m => !overlaps m start stop
  custody : Custody s' (bufferFrames buffers ++ (s'.frames ++ held))
  bytes : AgreeOn (InFrames (s'.frames ++ held)) s.mem s'.mem
  filled : ∀ b ∈ buffers, Filled s s' (s.frames ++ held) b.1 b.2
  tables : ∀ va, s.HasTable va → s'.HasTable va
  walk : s'.walk =
    clearWalk ((s.mappings.filter fun m => overlaps m start stop).flatMap mappingPages) s.walk

theorem TakenOut.of_removed (hkeeps : buffers.map Prod.snd = s.mappings.flatMap (keepsOf start stop))
    (hsame : Same s s' (s.frames++held)) (hc : Custody s' (bufferFrames buffers++(s.frames++held)))
    (hfilled : ∀ b ∈ buffers, Filled s s' (s.frames++held) b.1 b.2)
    (hrem : Removed s' s'' (bufferFrames buffers++held)
      (s.mappings.filter fun m => !overlaps m start stop)
      ((s.mappings.filter fun m => overlaps m start stop).flatMap mappingPages)) :
    TakenOut s s'' held start stop buffers := by
  have hframes : s''.frames = framesOf (s.mappings.filter fun m => !overlaps m start stop) :=
    congrArg framesOf hrem.mappings
  have hcust := hrem.custody
  have hbytes := hrem.bytes
  rw [← hframes] at hcust hbytes
  have hsub : s''.frames++held ⊆ s.frames++held := by
    rw [hframes]
    exact ((filter_sublist.flatMap _).append_right held).subset
  refine ⟨hkeeps,hrem.known.trans hsame.known,hrem.mappings,?_,?_,?_,?_,?_⟩
  · exact hcust.perm (perm_append_comm_assoc ..)
  · exact (hsame.bytes.mono fun _ => .mono hsub).trans (hbytes.mono fun _ => .mono (by grind))
  · intro b hb
    have hb1 : b.1 ⊆ bufferFrames buffers := fun f hf => mem_flatMap.mpr ⟨b,hb,hf⟩
    refine (hfilled b hb).later (fun f hf => hc.shape f (mem_append_left _ (hb1 hf)))
      (hbytes.mono fun _ => .mono fun f hf => ?_)
    exact mem_append_right _ (mem_append_left _ (hb1 hf))
  · exact fun va ht => hrem.tables va (hsame.hasTable ht)
  · rw [hrem.walk]
    congr 1
    exact funext hsame.walk

theorem TakenOut.va_lt (h : TakenOut s s' held start stop buffers) (hown : Own s held)
    {done : List Buffer} (hdone : done ⊆ buffers) :
    ∀ m ∈ s'.mappings++done.map bufferMapping, m.va < wordRange := by
  intro m hm
  rcases mem_append.mp hm with hm | hm
  · rw [h.mappings] at hm
    exact hown.vas m (mem_of_mem_filter hm)
  · obtain ⟨b,hb,rfl⟩ := mem_map.mp hm
    apply And.left
    apply hown.keeps_bounds (k := b.2)
    rw [← h.keeps]
    exact mem_map_of_mem (hdone hb)

theorem TakenOut.remap_spec (h : TakenOut s s' held start stop buffers) (hown : Own s held) :
    wp (remapKeeps buffers) (fun _ s'' => Cut s s'' held start stop buffers)
      (fun _ s'' => s''.known = s.known ∧ Own s'' held ∧ AgreeOn (InFrames held) s.mem s''.mem ∧
        Buffers s start stop buffers ∧ LacksTable s buffers) s' := by
  have hshape : ∀ b ∈ buffers, ∀ f ∈ b.1, FrameShape f := fun b hb f hf =>
    h.custody.shape f (mem_append_left _ (mem_flatMap.mpr ⟨b,hb,hf⟩))
  apply wp_mono (remapKeeps_spec h.custody)
  · rintro _ s2 ⟨hknown,hms,hc,hbytes,htab,hw⟩
    have hframes : s2.frames = s'.frames++bufferFrames buffers := by
      rw [TaskMemory.frames,hms,framesOf_append,framesOf_bufferMapping]
      rfl
    refine ⟨h.keeps,hknown.trans h.known,h.mappings ▸ hms,⟨hc,?_⟩,?_,?_,?_,?_⟩
    · rw [hms]
      exact h.va_lt hown (Subset.refl _)
    · rw [← h.mappings]
      refine h.bytes.trans (hbytes.mono fun _ => .mono ?_)
      rw [hframes]
      exact ((sublist_append_left ..).append_right held).subset
    · intro b hb
      refine (h.filled b hb).later (hshape b hb) (hbytes.mono fun _ => .mono fun f hf => ?_)
      rw [hframes]
      exact mem_append_left _ (mem_append_right _ (mem_flatMap.mpr ⟨b,hb,hf⟩))
    · exact fun va ht => htab va (h.tables va ht)
    · rw [hw,h.walk]
  · rintro e s2 ⟨hknown,hc,hbytes,⟨b,hb,hrwx,page,hpage,hno⟩,done,later,rfl,hms⟩
    refine ⟨hknown.trans h.known,⟨hc,?_⟩,?_,⟨h.keeps,?_,?_⟩,b,hb,hrwx,page,hpage,?_⟩
    · rw [hms]
      exact h.va_lt hown (subset_append_left ..)
    · exact (h.bytes.mono fun _ => .mono (subset_append_right ..)).trans hbytes
    · exact fun b hb => (h.filled b hb).sizes
    · exact fun b hb f hf => (hshape b hb f hf).pageShape
    · exact fun ht => hno (h.tables _ ht)

theorem unmapRange_spec (h : Own s held) : wp (unmapRange start stop : MapAction σ Unit)
      (fun _ s' => ∃ buffers, Cut s s' held start stop buffers)
      (fun _ s' => s'.known = s.known ∧ Own s' held ∧ AgreeOn (InFrames held) s.mem s'.mem ∧
        (Same s s' (s.frames++held) ∨
          ∃ buffers, Buffers s start stop buffers ∧ LacksTable s buffers)) s := by
  unfold unmapRange
  simp only [wp_bind]
  have hnil : Custody s (bufferFrames [] ++ (s.frames++held)) := h.custody
  apply wp_mono (fillKeeps_spec hnil h.pagePhys_isSome fun k hk => (h.keeps_bounds hk).2)
  · rintro new s1 ⟨_,rfl,hkeeps,hsame,hc1,hfilled⟩
    have hms : s1.mappings = s.mappings ++ [] := by rw [append_nil,hsame.mappings]
    have hframes : s1.frames = s.frames := congrArg framesOf hsame.mappings
    have hc1' : Custody s1 (s1.frames++(bufferFrames new++held)) := by
      rw [hframes]
      exact hc1.perm (perm_append_comm_assoc ..)
    rw [wp_get,hsame.mappings]
    apply wp_weaken (removeAll_spec start stop hms hc1')
    rintro _ s2 hrem
    rw [append_nil] at hrem
    have hout := TakenOut.of_removed hkeeps hsame hc1 hfilled hrem
    apply wp_mono (hout.remap_spec h)
    · exact fun _ s3 hcut => ⟨new,hcut⟩
    · rintro _ s3 ⟨hknown,hown,hbytes,hlack⟩
      exact ⟨hknown,hown,hbytes,Or.inr ⟨new,hlack⟩⟩
  · rintro e s1 ⟨hsame,hc1⟩
    refine ⟨hsame.known,hsame.own h hc1,?_,Or.inl hsame⟩
    exact hsame.bytes.mono fun _ => .mono (subset_append_right ..)

end

end Athera
