import Athera.Mm.Backing
import Athera.Mm.MemorySet

/-!
# Arithmetic of pages

The pages of a range, the frame behind an offset, and the range of a mapping without
wrap-around.
-/

namespace Athera

open Framework List Option Block

theorem mem_stepBy {start stop p : Nat} :
    p ∈ stepBy start stop ↔ ∃ i, p = start+i*pageSize ∧ p < stop := by
  simp only [stepBy,List.mem_map,mem_range,pageSize]
  constructor
  · rintro ⟨i,hi,rfl⟩
    exact ⟨i,rfl,by omega⟩
  · rintro ⟨i,rfl,hlt⟩
    exact ⟨i,by omega,rfl⟩

theorem mem_stepBy_zero {off size : Nat} : off ∈ stepBy 0 size ↔ pageSize ∣ off ∧ off < size := by
  simp only [mem_stepBy,Nat.zero_add,Nat.mul_comm _ pageSize,exists_and_right]
  rfl

/-- Whole pages at whole pages. -/
structure PageShape (f : Frame) : Prop where
  start : pageSize ∣ f.start
  size : pageSize ∣ f.size

theorem FrameShape.pageShape {f : Frame} (h : FrameShape f) : PageShape f := by
  obtain ⟨k,_,hk⟩ := h.order
  have hdvd : pageSize ∣ f.size := hk ▸ orderSize_dvd (Nat.zero_le k)
  exact ⟨Nat.dvd_trans hdvd h.aligned,hdvd⟩

def totalSize (frames : List Frame) : Nat := (frames.map size).sum

@[simp] theorem totalSize_nil : totalSize [] = 0 := rfl

@[simp] theorem totalSize_cons (f : Frame) (fs : List Frame) :
    totalSize (f::fs) = f.size+totalSize fs := by
  simp [totalSize]

variable {frames : List Frame}

theorem dvd_totalSize (h : ∀ f ∈ frames, PageShape f) : pageSize ∣ totalSize frames := by
  induction frames with
  | nil => exact Nat.dvd_zero _
  | cons f fs ih =>
    exact Nat.dvd_add (h f mem_cons_self).size
      (ih fun g hg => h g (mem_cons_of_mem _ hg))

variable {n : Nat}

theorem totalSize_of_segments
    (h : frames.map size = segmentSizes n n) : totalSize frames = backing n := by
  rw [totalSize,h,backing]

section

variable {frames : List Frame} {off p : Nat}

theorem physAtOffset_isSome (h : off < totalSize frames) : ∃ p, physAtOffset frames off = some p := by
  induction frames generalizing off with
  | nil => simp at h
  | cons f fs ih =>
    rw [totalSize_cons] at h
    by_cases hlt : off < f.size
    · exact ⟨f.start+off,by rw [physAtOffset,if_pos hlt]⟩
    · rw [physAtOffset,if_neg hlt]
      exact ih (by omega)

theorem lt_of_physAtOffset (h : physAtOffset frames off = some p) : off < totalSize frames := by
  induction frames generalizing off with
  | nil => simp [physAtOffset] at h
  | cons f fs ih =>
    rw [totalSize_cons]
    by_cases hlt : off < f.size
    · omega
    · rw [physAtOffset,if_neg hlt] at h
      have hrest := ih h
      omega

theorem physAtOffset_mem (h : physAtOffset frames off = some p) : ∃ f ∈ frames, p ∈ f := by
  induction frames generalizing off with
  | nil => simp [physAtOffset] at h
  | cons f fs ih =>
    by_cases hlt : off < f.size
    · rw [physAtOffset,if_pos hlt] at h
      obtain rfl := some.inj h
      exact ⟨f,mem_cons_self,by simp only [mem_iff]; omega⟩
    · rw [physAtOffset,if_neg hlt] at h
      obtain ⟨g,hg,hp⟩ := ih h
      exact ⟨g,mem_cons_of_mem _ hg,hp⟩

theorem physAtOffset_page (hs : ∀ f ∈ frames, PageShape f) (hoff : pageSize ∣ off)
    (h : physAtOffset frames off = some p) :
    pageSize ∣ p ∧ ∃ f ∈ frames, f.start ≤ p ∧ p+pageSize ≤ f.stop := by
  induction frames generalizing off with
  | nil => simp [physAtOffset] at h
  | cons f fs ih =>
    have hf := hs f mem_cons_self
    by_cases hlt : off < f.size
    · rw [physAtOffset,if_pos hlt] at h
      obtain rfl := some.inj h
      refine ⟨Nat.dvd_add hf.start hoff,f,mem_cons_self,by omega,?_⟩
      obtain ⟨b,hb⟩ := hf.size
      simp only [stop,pageSize] at *
      omega
    · rw [physAtOffset,if_neg hlt] at h
      have hoff' : pageSize ∣ off-f.size := Nat.dvd_sub hoff hf.size
      obtain ⟨hp,g,hg,hin⟩ := ih (fun g hg => hs g (mem_cons_of_mem _ hg)) hoff' h
      exact ⟨hp,g,mem_cons_of_mem _ hg,hin⟩

theorem physAtOffset_apart {off' p' : Nat} (hs : ∀ f ∈ frames, PageShape f)
    (hap : frames.Pairwise Apart) (hoff : pageSize ∣ off) (hoff' : pageSize ∣ off')
    (hne : off ≠ off') (h : physAtOffset frames off = some p)
    (h' : physAtOffset frames off' = some p') : (mk p pageSize).Apart ⟨p',pageSize⟩ := by
  induction frames generalizing off off' with
  | nil => simp [physAtOffset] at h
  | cons f fs ih =>
    have hf := hs f mem_cons_self
    have hs' : ∀ g ∈ fs, PageShape g := fun g hg => hs g (mem_cons_of_mem _ hg)
    obtain ⟨hfap,hfs⟩ := pairwise_cons.mp hap
    have hcross : ∀ {o o' q q' : Nat}, pageSize ∣ o → pageSize ∣ o' → o < f.size → ¬ o' < f.size →
        physAtOffset (f::fs) o = some q → physAtOffset (f::fs) o' = some q' →
        (mk q pageSize).Apart ⟨q',pageSize⟩ := by
      intro o o' q q' ho ho' hlt hge hq hq'
      rw [physAtOffset,if_neg hge] at hq'
      rw [physAtOffset,if_pos hlt] at hq
      obtain rfl := some.inj hq
      obtain ⟨_,g,hg,hlo,hhi⟩ := physAtOffset_page hs' (Nat.dvd_sub ho' hf.size) hq'
      have hfg := hfap g hg
      obtain ⟨b,hb⟩ := hf.size
      simp only [Apart,stop,pageSize] at *
      omega
    by_cases hlt : off < f.size
    · by_cases hlt' : off' < f.size
      · rw [physAtOffset,if_pos hlt] at h
        rw [physAtOffset,if_pos hlt'] at h'
        obtain rfl := some.inj h
        obtain rfl := some.inj h'
        simp only [Apart,stop,pageSize] at *
        omega
      · exact hcross hoff hoff' hlt hlt' h h'
    · by_cases hlt' : off' < f.size
      · exact (hcross hoff' hoff hlt' hlt h' h).symm
      · rw [physAtOffset,if_neg hlt] at h
        rw [physAtOffset,if_neg hlt'] at h'
        exact ih hs' hfs (Nat.dvd_sub hoff hf.size) (Nat.dvd_sub hoff' hf.size) (by omega) h h'

end

variable {m : UserMapping}

def UserMapping.start (m : UserMapping) : Nat := m.va / pageSize * pageSize

def UserMapping.size (m : UserMapping) : Nat := totalSize m.frames

/-- The addresses of the pages of a mapping, before any wrap-around. -/
def UserMapping.stop (m : UserMapping) : Nat := m.start + m.size

theorem UserMapping.dvd_start (m : UserMapping) : pageSize ∣ m.start := Dvd.intro_left _ rfl

theorem UserMapping.dvd_max_start (m : UserMapping) (h : pageSize ∣ n) :
    pageSize ∣ max n m.start := by
  rcases le_total n m.start with hle | hle
  · rw [max_eq_right hle]
    exact m.dvd_start
  · rwa [max_eq_left hle]

theorem alignUp_eq (h : n+pageSize ≤ wordRange) :
    alignUp n = (n+(pageSize-1))/pageSize*pageSize := by
  have he : pageSize = 2^12 := rfl
  have hal : align n (2^12) = _ := align_eq (by decide)
    (by simp only [pageSize] at h ⊢; omega)
  rw [alignUp,he,hal]
  rfl

theorem alignUp_of_dvd (h : pageSize ∣ n) (hlt : n+pageSize ≤ wordRange) : alignUp n = n := by
  rw [alignUp_eq hlt]
  simp only [pageSize] at h ⊢
  omega

theorem backing_eq_alignUp_iff (h : n+pageSize ≤ wordRange) :
    backing n = alignUp n ↔ WholeBlocks (alignUp n) := by
  have hlt : alignUp n < wordRange := by
    rw [alignUp_eq h]
    simp only [pageSize] at h ⊢
    omega
  rw [← backing_ceil h,← alignUp_eq h]
  exact backing_eq_iff hlt

theorem sum_alignUp (hs : ∀ f ∈ frames, PageShape f)
    (hsum : totalSize frames+pageSize ≤ wordRange) :
    (frames.map fun f => alignUp f.size).sum = totalSize frames := by
  induction frames with
  | nil => rfl
  | cons f fs ih =>
    rw [totalSize_cons] at hsum ⊢
    have hrest := ih (fun g hg => hs g (mem_cons_of_mem _ hg)) (by omega)
    have hf := alignUp_of_dvd (hs f mem_cons_self).size (by omega)
    rw [map_cons,sum_cons,hf,hrest]

structure UserMapping.Shape (m : UserMapping) : Prop where
  va : m.va < wordRange
  frames : ∀ f ∈ m.frames, PageShape f
  size : m.size ≤ physicalLimit

theorem mappingRange_eq (h : m.Shape) : mappingRange m = (m.start, wrap m.stop) := by
  have hsize := h.size
  have hsum := sum_alignUp h.frames
    (by simp only [UserMapping.size,physicalLimit,pageSize,wordRange] at hsize ⊢; omega)
  have hstart : m.va &&& (wordRange-pageSize) = m.start :=
    land_high_bits (k := 12) h.va (by decide)
  have hwrap : wrap (m.frames.map fun f => alignUp f.size).sum = m.size := by
    rw [hsum]
    apply wrap_of_lt
    simp only [UserMapping.size,physicalLimit,wordRange] at hsize ⊢
    omega
  simp only [mappingRange,hstart,hwrap,UserMapping.stop]

theorem mappingRange_of_lt (h : m.Shape) (hlt : m.stop < wordRange) :
    mappingRange m = (m.start, m.stop) := by
  rw [mappingRange_eq h,wrap_of_lt hlt]

def Covers (m : UserMapping) (va : Nat) : Bool :=
  decide ((mappingRange m).1 ≤ va) && decide (va < (mappingRange m).2)

variable {va : Nat}

theorem covers_iff : Covers m va = true ↔ (mappingRange m).1 ≤ va ∧ va < (mappingRange m).2 := by
  simp [Covers]

theorem covers_offset (h : m.Shape) (hc : Covers m va = true) :
    m.start ≤ va ∧ va-m.start < m.size := by
  rw [covers_iff,mappingRange_eq h] at hc
  simp only [wrap,UserMapping.stop,wordRange] at *
  omega

theorem covers_iff_of_lt (h : m.Shape) (hlt : m.stop < wordRange) :
    Covers m va = true ↔ m.start ≤ va ∧ va < m.stop := by
  rw [covers_iff,mappingRange_of_lt h hlt]

theorem covers_of_wrap (h : m.Shape) (hle : wordRange ≤ m.stop) (va : Nat) :
    Covers m va = false := by
  have hsize := h.size
  cases hc : Covers m va with
  | false => rfl
  | true =>
    rw [covers_iff,mappingRange_eq h] at hc
    simp only [UserMapping.stop,wrap,wordRange,physicalLimit] at *
    omega

theorem pagePhys_eq (ms : MemorySet) (va : Nat) :
    pagePhys ms va = match ms.find? fun m => Covers m va with
      | none => some none
      | some m => (physAtOffset m.frames (va-(mappingRange m).1)).map some := rfl

theorem pagePhys_isSome {ms : MemorySet} (h : ∀ m ∈ ms, m.Shape) (va : Nat) :
    ∃ r, pagePhys ms va = some r := by
  rw [pagePhys_eq]
  cases hf : ms.find? fun m => Covers m va with
  | none => exact ⟨none,rfl⟩
  | some m =>
    have hm := h m (mem_of_find?_eq_some hf)
    have hc : Covers m va = true := by simpa using find?_some hf
    obtain ⟨_,hoff⟩ := covers_offset hm hc
    obtain ⟨p,hp⟩ := physAtOffset_isSome hoff
    refine ⟨some p,?_⟩
    simp only [mappingRange_eq hm,hp,map_some]

end Athera
