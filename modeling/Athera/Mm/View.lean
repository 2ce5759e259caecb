import Athera.Mm.WellFormed

/-!
# What a task sees of its memory

The view of a page: every mapping that lists it, and the contents and flags that the page table
leads to.
-/

namespace Athera

open Framework Action List

abbrev PageBytes := Fin pageSize → UInt8

structure PageView where
  listed : List (Option PageBytes × PageFlags)
  leaf : Option (PageBytes × PageFlags)

def PageView.absent : PageView := ⟨[],none⟩

variable {σ : Type}

def TaskMemory.listed (s : TaskMemory σ) (va : Nat) : List (Option PageBytes × PageFlags) :=
  (s.mappings.filter fun m => Covers m va).map fun m =>
    ((physAtOffset m.frames (va - (mappingRange m).1)).map (pageAt s.mem), m.flags)

/-- Addresses outside both halves do not translate. -/
def TaskMemory.leaf (s : TaskMemory σ) (va : Nat) : Option (PageBytes × PageFlags) :=
  if va < lowHalfEnd ∨ highHalfStart ≤ va then
    (s.walk va).map fun e => (pageAt s.mem e.addr, e.flags)
  else none

/-- A memory as a task sees it, page by page. -/
abbrev MemoryView := Nat → PageView

def TaskMemory.view (s : TaskMemory σ) : MemoryView := fun va => ⟨s.listed va,s.leaf va⟩

namespace MemoryView

def Agree (v v' : MemoryView) : Prop := ∀ va, pageSize ∣ va → va < wordRange → v' va = v va

def unmap (v : MemoryView) (start stop : Nat) : MemoryView := fun va =>
  if va < stop ∧ start < va + pageSize then .absent else v va

/-- The pages from `start` on show the given contents, with one listing each. -/
def map (v : MemoryView) (start stop : Nat) (page : Nat → PageBytes) (flags : PageFlags) :
    MemoryView := fun va =>
  if start ≤ va ∧ va < stop then
    ⟨[(some (page va), flags)],if flags.rwx then some (page va, flags) else none⟩
  else v va

end MemoryView

variable {s s' : TaskMemory σ} {va : Nat}

theorem listed_eq_nil_iff : s.listed va = [] ↔ ∀ m ∈ s.mappings, Covers m va = false := by
  rw [TaskMemory.listed,map_eq_nil_iff,filter_eq_nil_iff]
  simp only [Bool.not_eq_true]

theorem Tiled.listed_eq {m : UserMapping} (h : Tiled s.mappings) (hm : m ∈ s.mappings)
    (hc : Covers m va = true) :
    s.listed va = [((physAtOffset m.frames (va-m.start)).map (pageAt s.mem), m.flags)] := by
  rw [TaskMemory.listed,h.filter_covers hm hc]
  simp only [map_cons,map_nil,h.range_eq hm]

theorem Tiled.clear_of_listed {start stop : Nat} (ht : Tiled s.mappings)
    (hstart : pageSize ∣ start) (hlt : start < stop)
    (h : ∀ va, pageSize ∣ va → start ≤ va → va < stop → s.listed va = []) :
    ∀ m ∈ s.mappings, stop ≤ m.start ∨ m.stop ≤ start := by
  intro m hm
  by_contra hno
  have hpage := m.dvd_max_start hstart
  have hpos := ht.pos m hm
  have hend : m.stop = m.start+m.size := rfl
  have hc : Covers m (max start m.start) = true := (ht.covers_iff hm).mpr (by omega)
  have hnil := listed_eq_nil_iff.mp (h _ hpage (by omega) (by omega)) m hm
  rw [hc] at hnil
  exact absurd hnil (by simp)

theorem Tiled.listed_of_free {start stop va : Nat} (h : Tiled s.mappings)
    (hfree : rangeIsFree s.mappings start stop = true) (hlo : start ≤ va) (hhi : va < stop) :
    s.listed va = [] := by
  rw [listed_eq_nil_iff]
  intro m hm
  have hm' := h.rangeIsFree_iff.mp hfree m hm
  cases hc : Covers m va with
  | false => rfl
  | true =>
    have hin := (h.covers_iff hm).mp hc
    omega

variable [LawfulFrameAllocator σ] {held : List Frame}

/-- The invariant of the memory calls, with `held` the frames in hand. -/
structure WellFormed (s : TaskMemory σ) (held : List Frame) : Prop where
  own : Own s held
  tiled : Tiled s.mappings
  leaves : Leaves s.mappings s.walk

/-- The leaf that goes with what is listed. -/
def leafOf (l : List (Option PageBytes × PageFlags)) : Option (PageBytes × PageFlags) :=
  match l with
  | [(some c, f)] => if f.rwx then some (c, f) else none
  | _ => none

theorem WellFormed.leaf_eq (h : WellFormed s held) (hva : pageSize ∣ va)
    (hlt : va < wordRange) : s.leaf va = leafOf (s.listed va) := by
  rcases covered_or_not s.mappings va with ⟨m,hm,hc⟩ | hnone
  · have hin := (h.tiled.covers_iff hm).mp hc
    have hup := (h.tiled.inHalf m hm).userPage hva hin.1 hin.2
    rw [TaskMemory.leaf,if_pos hup.canonical,h.leaves va hup,h.tiled.expectedEntry_eq hm hc,
      h.tiled.listed_eq hm hc]
    have hshape := h.tiled.shape m hm
    have hoff : va-m.start < m.size := by
      simp only [UserMapping.stop] at hin
      omega
    obtain ⟨p,hp⟩ := physAtOffset_isSome hoff
    rw [hp]
    by_cases hrwx : m.flags.rwx = true
    · obtain ⟨hdvd,f,hf,_,hend⟩ :=
        physAtOffset_page hshape.frames (Nat.dvd_sub hva m.dvd_start) hp
      have hfs := h.own.custody.shape f
        (mem_append_left _ (mem_framesOf.mpr ⟨m,hm,hf⟩))
      have hbound := hfs.bounded
      have haddr : ppn p*pageSize = p := by
        simp only [ppn,pageSize,physicalLimit,Block.stop] at *
        omega
      simp [leafOf,PageTableEntry.addr,haddr]
    · simp [hrwx,leafOf]
  · rw [listed_eq_nil_iff.mpr hnone,TaskMemory.leaf]
    by_cases hcan : va < lowHalfEnd ∨ highHalfStart ≤ va
    · rw [if_pos hcan,h.leaves va ⟨hva,hlt,hcan⟩,expectedEntry_none hnone]
      rfl
    · rw [if_neg hcan]
      rfl

theorem WellFormed.view_eq {held' : List Frame} (h : WellFormed s held) (h' : WellFormed s' held')
    (hva : pageSize ∣ va) (hlt : va < wordRange) (hl : s'.listed va = s.listed va) :
    s'.view va = s.view va := by
  rw [TaskMemory.view,TaskMemory.view,h.leaf_eq hva hlt,h'.leaf_eq hva hlt,hl]

theorem WellFormed.view_absent (h : WellFormed s held) (hva : pageSize ∣ va)
    (hlt : va < wordRange) (hl : s.listed va = []) : s.view va = .absent := by
  rw [TaskMemory.view,h.leaf_eq hva hlt,hl]
  rfl

theorem listed_entry_congr {m : UserMapping} {mem mem' : Memory} (hs : m.Shape)
    (hva : pageSize ∣ va) (hb : Memory.AgreeOn (InFrames m.frames) mem mem') :
    (physAtOffset m.frames (va-(mappingRange m).1)).map (pageAt mem') =
      (physAtOffset m.frames (va-(mappingRange m).1)).map (pageAt mem) := by
  rw [mappingRange_eq hs]
  cases hp : physAtOffset m.frames (va-m.start) with
  | none => rfl
  | some p =>
    have hin := inFrames_page hs.frames (Nat.dvd_sub hva m.dvd_start) hp
    rw [Option.map_some,Option.map_some,pageAt_congr hb hin]

theorem Kept.listed (h : Kept s s' (s.frames++held)) (ho : Own s held)
    (hva : pageSize ∣ va) : s'.listed va = s.listed va := by
  rw [TaskMemory.listed,h.mappings]
  apply map_congr_left
  intro m hm
  obtain ⟨hm,hc⟩ := mem_filter.mp hm
  have hsub : Memory.AgreeOn (InFrames m.frames) s.mem s'.mem := h.bytes.mono
    fun _ => .mono fun f hf => mem_append_left _ (mem_framesOf.mpr ⟨m,hm,hf⟩)
  rw [listed_entry_congr (ho.shape m hm) hva hsub]

theorem Same.wellFormed {fs held' : List Frame} (h : Same s s' fs) (hw : WellFormed s held)
    (ho : Own s' held') : WellFormed s' held' := by
  refine ⟨ho,?_,?_⟩
  · rw [h.mappings]
    exact hw.tiled
  · rw [h.mappings,funext h.walk]
    exact hw.leaves

end Athera
