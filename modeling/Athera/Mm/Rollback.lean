import Athera.Mm.MapRuns

/-!
# Failed calls

No step that can fail may come after one that takes something away.
-/

namespace Athera

open Framework Action List

variable {σ : Type} {s s' s1 s2 : TaskMemory σ} {start stop : Nat} {buffers : List Buffer}

/-- The accessible pieces that a cut leaves behind go where tables are already. -/
def CutTables (s : TaskMemory σ) (start stop : Nat) : Prop :=
  ∀ m ∈ s.mappings, m.flags.rwx = true →
    ((mappingRange m).1 < start ∧ start < (mappingRange m).2 →
      ∀ off, pageSize ∣ off → off < backing (start - (mappingRange m).1) →
        s.HasTable (wrap ((mappingRange m).1 + off))) ∧
    ((mappingRange m).1 < stop ∧ stop < (mappingRange m).2 →
      ∀ off, pageSize ∣ off → off < backing ((mappingRange m).2 - stop) →
        s.HasTable (wrap (stop + off)))

theorem CutTables.transfer (h : CutTables s start stop)
    (ht : ∀ va, s.HasTable va → s1.HasTable va) (hms : s1.mappings = s.mappings) :
    CutTables s1 start stop := by
  intro m hm hrwx
  rw [hms] at hm
  obtain ⟨hl,hr⟩ := h m hm hrwx
  exact ⟨fun hc off hd hlt => ht _ (hl hc off hd hlt),fun hc off hd hlt => ht _ (hr hc off hd hlt)⟩

/-- Where the frames for `size` bytes are mapped, no page with a leaf comes before one whose
table is missing. -/
def UndoSafe (s : TaskMemory σ) (addr size : Nat) : Prop :=
  ∀ off, pageSize ∣ off → off < backing size → ¬ s.HasTable (wrap (addr + off)) →
    ∀ off', pageSize ∣ off' → off' < off → s.walk (wrap (addr + off')) = none

theorem walk_congr {va va' : Nat} (h : vpn va' = vpn va) : s.walk va' = s.walk va := by
  obtain ⟨h2,h1,h0⟩ := vpn_eq_iff.mpr h
  rw [TaskMemory.walk]
  congr 1
  funext sp
  rw [AddressSpace.walk,AddressSpace.walk,h2,h1,h0]

theorem UndoSafe.walk_eq {addr size : Nat} {flags : PageFlags} {frames : List Frame} {w : Walk}
    (h : UndoSafe s addr size) (hs : ∀ f ∈ frames, PageShape f)
    (hsizes : frames.map Block.size = segmentSizes size size)
    (hf : FailedWalk addr flags (framePages 0 frames) s w) : w = s.walk := by
  obtain ⟨done,page,rest,hpages,hno,rfl⟩ := hf
  have hoffset : ∀ q ∈ framePages 0 frames, pageSize ∣ q.1 ∧ q.1 < backing size := by
    intro q hq
    obtain ⟨off,hoff,hdvd,hphys⟩ := (mem_framePages hs).mp hq
    rw [Nat.zero_add] at hoff
    rw [hoff,← totalSize_of_segments hsizes]
    exact ⟨hdvd,lt_of_physAtOffset hphys⟩
  have hpage : page ∈ framePages 0 frames := by simp [hpages]
  have hsorted : (framePages 0 frames).Pairwise fun p q => p.1 < q.1 := framePages_pairwise hs
  rw [hpages] at hsorted
  have hbefore : ∀ d ∈ done, d.1 < page.1 := fun d hd =>
    (pairwise_append.mp hsorted).2.2 d hd page mem_cons_self
  obtain ⟨hdvd,hlt⟩ := hoffset page hpage
  funext va
  by_cases hin : ∃ r ∈ stepBy 0 page.1, vpn va = vpn (wrap (addr+r))
  · obtain ⟨r,hr,hv⟩ := hin
    obtain ⟨i,hi,hlt'⟩ := mem_stepBy.mp hr
    have hdr : pageSize ∣ r := by
      rw [hi,Nat.zero_add]
      exact Dvd.intro_left _ rfl
    rw [clearWalk_of_mem (mem_map_of_mem hr) hv,walk_congr hv]
    exact (h page.1 hdvd hlt hno r hdr hlt').symm
  · rw [clearWalk_of_ne,foldl_setWalk_of_ne]
    · intro d hd hv
      have hdmem : d ∈ framePages 0 frames := by simp [hpages,hd]
      obtain ⟨i,hi⟩ := (hoffset d hdmem).1
      exact hin ⟨d.1,mem_stepBy.mpr ⟨i,by rw [Nat.zero_add,hi,Nat.mul_comm],hbefore d hd⟩,hv⟩
    · intro p hp hv
      obtain ⟨r,hr,rfl⟩ := mem_map.mp hp
      exact hin ⟨r,hr,hv⟩

theorem MemoryView.Agree.listed {va : Nat} (h : s.view.Agree s'.view) (hva : pageSize ∣ va)
    (hlt : va < wordRange) : s'.listed va = s.listed va :=
  congrArg PageView.listed (h va hva hlt)

theorem keepsOf_of_free (hfree : rangeIsFree s.mappings start stop = true) :
    s.mappings.flatMap (keepsOf start stop) = [] := by
  have hno : ∀ m ∈ s.mappings, overlaps m start stop = false := by
    simpa [rangeIsFree] using hfree
  exact flatMap_eq_nil_iff.mpr fun m hm => by simp [keepsOf,hno m hm]

variable [LawfulFrameAllocator σ] {held : List Frame}

theorem CutTables.not_lacksTable
    (h : CutTables s start stop) (hw : WellFormed s held) (hbuf : Buffers s start stop buffers) :
    ¬ LacksTable s buffers := by
  rintro ⟨b,hb,hrwx,page,hpage,hno⟩
  obtain ⟨off,hoff,hdvd,hphys⟩ := (mem_framePages (hbuf.shape b hb)).mp hpage
  rw [Nat.zero_add] at hoff
  have hlt := lt_of_physAtOffset hphys
  rw [totalSize_of_segments (hbuf.sizes b hb)] at hlt
  obtain ⟨m,hm,hk⟩ := hbuf.keep_mem hb
  obtain ⟨⟨h1,h2⟩,hside⟩ := (hw.tiled.mem_keepsOf hm).mp hk
  have hall := h m hm
  rw [hw.tiled.range_eq hm] at hall
  apply hno
  rw [hoff]
  rcases hside with ⟨h3,hkeep⟩ | ⟨h3,hkeep⟩
  · rw [hkeep] at hrwx hlt ⊢
    exact (hall hrwx).1 ⟨h3,h2⟩ off hdvd hlt
  · rw [hkeep] at hrwx hlt ⊢
    exact (hall hrwx).2 ⟨h1,h3⟩ off hdvd hlt

theorem Kept.agree (h : Kept s s' s.frames) (hwalk : s'.walk = s.walk) (hw : WellFormed s [])
    (ho : Own s' []) : WellFormed s' [] ∧ s.view.Agree s'.view := by
  have hw' : WellFormed s' [] := by
    refine ⟨ho,?_,?_⟩
    · rw [h.mappings]
      exact hw.tiled
    · rw [h.mappings,hwalk]
      exact hw.leaves
  have hkept : Kept s s' (s.frames ++ []) := by
    rw [append_nil]
    exact h
  exact ⟨hw',fun va hva hlt => hw.view_eq hw' hva hlt (hkept.listed hw.own hva)⟩

theorem Same.agree (h : Same s s' s.frames) (hw : WellFormed s []) (ho : Own s' []) :
    s.view.Agree s'.view := (h.toKept.agree (funext h.walk) hw ho).2

theorem MemoryView.Agree.refl (v : MemoryView) : v.Agree v := fun _ _ _ => rfl

theorem MemoryView.Agree.trans {v v' v'' : MemoryView} (h : v.Agree v') (h' : v'.Agree v'') :
    v.Agree v'' := fun va hva hlt => (h' va hva hlt).trans (h va hva hlt)

theorem Cut.of_free (h : Cut s s' [] start stop buffers)
    (hfree : rangeIsFree s.mappings start stop = true) : Kept s s' s.frames ∧ s'.walk = s.walk := by
  have hno : ∀ m ∈ s.mappings, overlaps m start stop = false := by
    simpa [rangeIsFree] using hfree
  have hkeep : (s.mappings.filter fun m => !overlaps m start stop) = s.mappings :=
    filter_eq_self.mpr fun m hm => by simp [hno m hm]
  have hout : (s.mappings.filter fun m => overlaps m start stop) = [] :=
    filter_eq_nil_iff.mpr fun m hm => by simp [hno m hm]
  have hbuf : buffers = [] := by
    have hk := h.keeps
    rw [keepsOf_of_free hfree] at hk
    exact map_eq_nil_iff.mp hk
  have hms := h.mappings
  have hwalk := h.walk
  have hbytes := h.bytes
  rw [hkeep,append_nil] at hbytes
  rw [hkeep,hbuf,map_nil,append_nil] at hms
  rw [hout,hbuf] at hwalk
  exact ⟨⟨h.known,hms,hbytes⟩,hwalk⟩

variable {addr length prot flags offset old oldSize newSize newAddress : Nat} {fd : Int}

/-- The frames for `size` bytes go where tables are already. -/
def TablesAt (s : TaskMemory σ) (addr size : Nat) : Prop :=
  ∀ off, pageSize ∣ off → off < backing size → s.HasTable (wrap (addr + off))

theorem RebuildFailed.agree {oldEnd dest : Nat} {f : PageFlags} (hw : WellFormed s [])
    (hcut : CutTables s old oldEnd) (htab : f.rwx = true → TablesAt s dest newSize)
    (h : RebuildFailed s old oldEnd dest newSize f s') : s.view.Agree s'.view := by
  cases h with
  | early hsame hown => exact hsame.agree hw hown
  | cut hfill hbuf hlack _ _ =>
    have hw1 := hfill.same.wellFormed hw hfill.own
    have hcut1 := hcut.transfer (fun _ => hfill.same.hasTable) hfill.same.mappings
    exact absurd hlack (hcut1.not_lacksTable hw1 hbuf)
  | @tables s1 s2 frames buffers hfill hcut1 hfail =>
    have hshape : ∀ f ∈ frames, PageShape f := fun f hf =>
      (hfill.own.custody.shape f (mem_append_right _ hf)).pageShape
    have htab2 : TablesAt s2 dest newSize := fun off hd hlt =>
      hcut1.tables _ (hfill.same.hasTable (htab hfail.rwx off hd hlt))
    obtain ⟨done,page,rest,hpages,hno,_⟩ := hfail.walk
    have hpage : page ∈ framePages 0 frames := by simp [hpages]
    obtain ⟨off,hoff,hdvd,hphys⟩ := (mem_framePages hshape).mp hpage
    rw [Nat.zero_add] at hoff
    have hlt := lt_of_physAtOffset hphys
    rw [totalSize_of_segments hfill.sizes] at hlt
    exact absurd (hoff ▸ htab2 off hdvd hlt) hno

theorem Vacated.agree {dest destEnd : Nat} {replace : Bool} (hw : WellFormed s [])
    (hfree : replace = true → rangeIsFree s.mappings dest destEnd = true)
    (hvac : Vacated s s1 dest destEnd replace) : WellFormed s1 [] ∧ s.view.Agree s1.view ∧
      s1.mappings = s.mappings ∧ ∀ va, s.HasTable va → s1.HasTable va := by
  cases replace with
  | true =>
    obtain ⟨buffers,hcut⟩ := hvac
    obtain ⟨hkept,hwalk⟩ := hcut.of_free (hfree rfl)
    obtain ⟨hw1,hagree⟩ := hkept.agree hwalk hw hcut.own
    exact ⟨hw1,hagree,hkept.mappings,hcut.tables⟩
  | false =>
    obtain ⟨rfl,_⟩ := hvac
    exact ⟨hw,.refl _,rfl,fun _ hyes => hyes⟩

/-- A `mmap` call with `MAP_FIXED`, which may remove pages before it fails. -/
def MapCall.fixed : MapCall → Bool
  | .mmap _ _ _ flags _ _ => flags &&& mapFixed != 0
  | _ => false

/-- Map sixteen pages without access, which is all the memory of the small machine. -/
def mapAll : MapCall := .mmap 0xffffffc000000000 0x10000 0 0x22 (-1) 0

end Athera
