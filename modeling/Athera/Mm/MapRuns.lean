import Athera.Mm.FreshTask
import Athera.Mm.MremapExact

/-!
# Runs of memory-map calls

A task that performs any `mmap`, `munmap` and `mremap` calls, successful or not, as a machine.
-/

namespace Athera

open Framework Action Option

section

variable {σ : Type} [FrameAllocator σ]

inductive MapCall where
  | mmap (addr length prot flags : Nat) (fd : Int) (offset : Nat)
  | munmap (addr length : Nat)
  | mremap (old oldSize newSize flags newAddress : Nat)

def MapCall.exec : MapCall → MapAction σ Nat
  | .mmap addr length prot flags fd offset => Athera.mmap addr length prot flags fd offset
  | .munmap addr length => do
    Athera.munmap addr length
    pure 0
  | .mremap old oldSize newSize flags newAddress =>
    Athera.mremap old oldSize newSize flags newAddress

/-- The task goes on after values and errors alike. -/
def MapCall.step (s : TaskMemory σ) (c : MapCall) : Option (TaskMemory σ) :=
  (c.exec s).state

/-- Whatever the call allocates consists of whole blocks, and `mmap` does not pick a range that
is in use. -/
def MapCall.Backed (s : TaskMemory σ) : MapCall → Prop
  | .mmap addr length prot flags fd offset =>
    ∀ t, MmapCall s.mappings addr length prot flags fd offset t →
      MmapExactWhen s.mappings addr length flags
  | .munmap addr length => MunmapArgs addr length → CutBacked s.mappings addr (addr + length)
  | .mremap old oldSize newSize flags newAddress =>
    MremapArgs old oldSize newSize flags newAddress →
    (newSize ≠ oldSize → rangeFullyMapped s.mappings old (old + oldSize) = some true) →
      KeepsAll old oldSize newSize flags newAddress ∨
        MremapBacked s.mappings old oldSize newSize flags newAddress

end

variable {σ : Type} [LawfulFrameAllocator σ] {s s' : TaskMemory σ}

section

variable {addr length prot flags offset old oldSize newSize newAddress : Nat} {fd : Int}

theorem WellFormed.of_failed_cut {start stop : Nat} (hw : WellFormed s []) (hown : Own s' [])
    (hstart : pageSize ∣ start) (hb : CutBacked s.mappings start stop)
    (h : Same s s' s.frames ∨ ∃ buffers, Buffers s start stop buffers ∧ LacksTable s buffers) :
    WellFormed s' [] := by
  rcases h with hsame | ⟨buffers,hbuf,hlack⟩
  · exact hsame.wellFormed hw hown
  · exact absurd hlack (hw.not_lacksTable hbuf hstart hb)

theorem mmap_wellFormed (hw : WellFormed s [])
    (hb : ∀ t, MmapCall s.mappings addr length prot flags fd offset t →
      MmapExactWhen s.mappings addr length flags) :
    wp (mmap addr length prot flags fd offset : MapAction σ Nat)
      (fun _ s' => WellFormed s' []) (fun _ s' => WellFormed s' []) s := by
  apply wp_mono (mmap_spec hw.own)
  · rintro t s' ⟨hcall,s1,s2,frames,hprep,hfresh,hmapped⟩
    exact (mmap_exact_of hw hcall hprep hfresh hmapped (hb t hcall)).1
  · intro _ s' hfail
    cases hfail with
    | refused h =>
      rw [h]
      exact hw
    | cut hcall hr hown _ hfail =>
      have hal := hcall.aligned hw.tiled
      obtain ⟨_,hcut,_⟩ := hb _ hcall
      obtain rfl := hcall.eq_of_replaces hr
      exact hw.of_failed_cut hown hal (hcut hr) hfail
    | memory hcall hprep hsame hown =>
      obtain ⟨_,hcut,hgap⟩ := hb _ hcall
      exact hsame.wellFormed (hprep.cutListed hw hcall hcut hgap).1 hown
    | tables hcall hprep hfresh hfail =>
      obtain ⟨hw2,hsize,hlt,hhalf,hnil⟩ := hfresh.place hw hcall hprep (hb _ hcall)
      have hpos := hcall.length_spec.2.1
      exact hfail.wellFormed hw2 (by omega) hhalf
        (clear_of_listed hw2 (hcall.aligned hw.tiled) (by omega) hnil)

theorem mapCall_wellFormed (c : MapCall) (hw : WellFormed s []) (hb : c.Backed s) :
    ∃ s', c.step s = some s' ∧ WellFormed s' [] := by
  apply state_of_wp
  cases c with
  | mmap addr length prot flags fd offset => exact mmap_wellFormed hw hb
  | munmap addr length =>
    rw [MapCall.exec,wp_bind]
    apply wp_mono (munmap_spec hw.own)
    · rintro _ s' ⟨hargs,buffers,hcut⟩
      have hpos := hargs.pos
      exact hcut.wellFormed hw hargs.aligned (by omega) (hb hargs)
    · rintro _ s' (rfl | ⟨hargs,_,hown,hfail⟩)
      · exact hw
      · exact hw.of_failed_cut hown hargs.aligned (hb hargs) hfail
  | mremap old oldSize newSize flags newAddress =>
    apply wp_mono (mremap_spec hw.own)
    · rintro r s' ⟨hargs,hdone⟩
      apply hdone.wellFormed hw hargs
      apply hb hargs
      intro hne
      cases hdone with
      | unchanged heq _ => exact absurd heq hne
      | inPlace hmapped _ _ _ => exact hmapped
      | moved hto _ => exact hto.mapped hne
    · intro _ s' hfail
      have hall := hfail
      cases hfail with
      | refused h =>
        rw [h]
        exact hw
      | inPlace hargs hmapped _ _ _ => exact hall.wellFormed hw (hb hargs fun _ => hmapped)
      | moved hargs hto _ => exact hall.wellFormed hw (hb hargs hto.mapped)

end

/-- Mappings and page table agree: the ranges of the mappings are disjoint, different pages have
different physical pages, and the leaves of the page table are those of the mappings. -/
structure Consistent (s : TaskMemory σ) : Prop where
  disjoint : s.mappings.Pairwise fun m m' =>
    (mappingRange m).2 ≤ (mappingRange m').1 ∨ (mappingRange m').2 ≤ (mappingRange m).1
  backing : ∀ va va' p p', pageSize ∣ va → pageSize ∣ va' → va ≠ va' →
    pagePhys s.mappings va = some (some p) → pagePhys s.mappings va' = some (some p') → p ≠ p'
  leaf : ∀ va e, UserPage va → (s.walk va = some e ↔ ∃ m ∈ s.mappings, Covers m va = true ∧
    m.flags.rwx = true ∧ ∃ p, pagePhys s.mappings va = some (some p) ∧ e = ⟨true,m.flags,ppn p⟩)

theorem Tiled.of_pagePhys {ms : MemorySet} {va p : Nat} (h : Tiled ms)
    (hp : pagePhys ms va = some (some p)) :
    ∃ m ∈ ms, Covers m va = true ∧ physAtOffset m.frames (va-m.start) = some p := by
  rcases covered_or_not ms va with ⟨m,hm,hc⟩ | hnone
  · refine ⟨m,hm,hc,?_⟩
    rw [h.pagePhys_eq hm hc] at hp
    simpa using hp
  · rw [Athera.pagePhys_eq,find_covers_none hnone] at hp
    simp at hp

theorem WellFormed.pagePhys_ne {va va' p p' : Nat} (hw : WellFormed s []) (hva : pageSize ∣ va)
    (hva' : pageSize ∣ va') (hne : va ≠ va') (hp : pagePhys s.mappings va = some (some p))
    (hp' : pagePhys s.mappings va' = some (some p')) : p ≠ p' := by
  obtain ⟨m,hm,hc,hphys⟩ := hw.tiled.of_pagePhys hp
  obtain ⟨m',hm',hc',hphys'⟩ := hw.tiled.of_pagePhys hp'
  have hin := (hw.tiled.covers_iff hm).mp hc
  have hin' := (hw.tiled.covers_iff hm').mp hc'
  have hoff := Nat.dvd_sub hva m.dvd_start
  have hoff' := Nat.dvd_sub hva' m'.dvd_start
  have hap := hw.own.custody.apart
  rw [List.append_nil,TaskMemory.frames,framesOf,List.pairwise_flatMap] at hap
  obtain ⟨hsame,hother⟩ := hap
  have hshape : ∀ m ∈ s.mappings, ∀ f ∈ m.frames, PageShape f := fun m hm =>
    (hw.tiled.shape m hm).frames
  by_cases heq : m = m'
  · subst heq
    have hpages := physAtOffset_apart (hshape m hm) (hsame m hm) hoff hoff' (by omega) hphys hphys'
    rintro rfl
    exact Block.not_apart_self (show 0 < pageSize by decide) hpages
  · rintro rfl
    obtain ⟨f,hf,hmem⟩ := inFrames_page (hshape m hm) hoff hphys 0 (by decide)
    obtain ⟨f',hf',hmem'⟩ := inFrames_page (hshape m' hm') hoff' hphys' 0 (by decide)
    have hsymm : Std.Symm fun m m' : UserMapping =>
        ∀ f ∈ m.frames, ∀ f' ∈ m'.frames, f.Apart f' :=
      ⟨fun _ _ h g hg f hf => (h f hf g hg).symm⟩
    exact (hother.forall hm hm' heq f hf f' hf').not_mem hmem hmem'

theorem WellFormed.consistent (hw : WellFormed s []) : Consistent s := by
  refine ⟨?_,fun va va' p p' => hw.pagePhys_ne,?_⟩
  · refine hw.tiled.apart.imp_of_mem ?_
    intro m m' hm hm' hclear
    rw [hw.tiled.range_eq hm,hw.tiled.range_eq hm']
    exact hclear
  · intro va e hva
    rw [hw.leaves va hva]
    refine ⟨?_,?_⟩
    · intro he
      rcases covered_or_not s.mappings va with ⟨m,hm,hc⟩ | hnone
      · rw [hw.tiled.expectedEntry_eq hm hc] at he
        by_cases hrwx : m.flags.rwx = true
        · rw [if_pos hrwx] at he
          obtain ⟨p,hp,rfl⟩ := map_eq_some_iff.mp he
          exact ⟨m,hm,hc,hrwx,p,by rw [hw.tiled.pagePhys_eq hm hc,hp]; rfl,rfl⟩
        · rw [if_neg hrwx] at he
          exact absurd he (by simp)
      · rw [expectedEntry_none hnone] at he
        exact absurd he (by simp)
    · rintro ⟨m,hm,hc,hrwx,p,hp,rfl⟩
      rw [hw.tiled.pagePhys_eq hm hc] at hp
      obtain ⟨q,hq,hqp⟩ := map_eq_some_iff.mp hp
      obtain rfl := some.inj hqp
      rw [hw.tiled.expectedEntry_eq hm hc,if_pos hrwx,hq]
      rfl

/-- After every run of backed calls mappings and page table agree. -/
theorem mapRun_consistent {calls : List MapCall} (hw : WellFormed s [])
    (hb : EachStep MapCall.step (fun s c => c.Backed s) calls s) :
    ∃ s', run MapCall.step calls s = some s' ∧ Consistent s' := by
  obtain ⟨s',hrun,hw'⟩ := run_total_of (fun s c hw hb => mapCall_wellFormed c hw hb) hw hb
  exact ⟨s',hrun,hw'.consistent⟩

def mapAt (addr length : Nat) : MapCall := .mmap addr length 3 0x22 (-1) 0

theorem mapFour_isSome : ((mapAt 0xffffffc000000000 0x4000).step smallTask).isSome = true := by
  decide +kernel

def fourPages : TaskMemory BuddyLists :=
  ((mapAt 0xffffffc000000000 0x4000).step smallTask).get mapFour_isSome

theorem mapFour_step : (mapAt 0xffffffc000000000 0x4000).step smallTask = some fourPages :=
  (some_get _).symm

theorem mapFour_backed : (mapAt 0xffffffc000000000 0x4000).Backed smallTask := fun _ _ => by decide

theorem fourPages_wellFormed : WellFormed fourPages [] := by
  obtain ⟨s,hstep,hw⟩ := mapCall_wellFormed _ smallTask_wellFormed mapFour_backed
  rw [mapFour_step] at hstep
  exact some.inj hstep ▸ hw

/-- Map four pages, then unmap two of them. -/
theorem mapRun_consistent_half : ∃ s', run MapCall.step
    [mapAt 0xffffffc000000000 0x4000, .munmap 0xffffffc000002000 0x2000] smallTask = some s' ∧
      Consistent s' := by
  refine mapRun_consistent smallTask_wellFormed ⟨mapFour_backed,?_⟩
  intro s hs
  obtain rfl : fourPages = s := some.inj (mapFour_step.symm.trans hs)
  exact ⟨fun _ => by decide +kernel,fun _ _ => trivial⟩

/-- Three pages below a mapped one get a block of four, which covers it as well. -/
theorem mapRun_overlaps : WellFormed smallTask [] ∧ ∃ s', run MapCall.step
    [mapAt 0xffffffc000003000 0x1000, mapAt 0xffffffc000000000 0x3000] smallTask = some s' ∧
      ¬ Consistent s' := by
  refine ⟨smallTask_wellFormed,?_⟩
  have hranges : (run MapCall.step
      [mapAt 0xffffffc000003000 0x1000,mapAt 0xffffffc000000000 0x3000] smallTask).map
      (fun s => s.mappings.map mappingRange) =
        some [(0xffffffc000003000, 0xffffffc000004000),(0xffffffc000000000, 0xffffffc000004000)] := by
    decide +kernel
  obtain ⟨s',hrun,hms⟩ := map_eq_some_iff.mp hranges
  refine ⟨s',hrun,?_⟩
  intro h
  have hpairs : (s'.mappings.map mappingRange).Pairwise fun r r' => r.2 ≤ r'.1 ∨ r'.2 ≤ r.1 :=
    List.pairwise_map.mpr h.disjoint
  rw [hms] at hpairs
  exact absurd hpairs (by decide)

end Athera
