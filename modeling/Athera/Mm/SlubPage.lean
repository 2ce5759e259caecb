import Athera.Mm.Backing
import Athera.Mm.Slub

/-!
# One slub page

A page has a header and slots for objects, and the free slots form a list through the memory.
-/

namespace Athera

open Framework List Memory Block IntrusiveList

namespace SlubPage

variable {m m' : Memory} {o p x : Nat} {xs : List Nat}

variable {off y : Nat}

theorem field_setField_self (m : Memory) (p off w : Nat) :
    field (setField m p off w) p off = w%2^64 := readWord_writeWord_self m _ w

theorem field_setField_of_ne {off' w : Nat}
    (h : off+8 ≤ off' ∨ off' + 8 ≤ off) : field (setField m p off w) p off' = field m p off' := by
  apply readWord_writeWord_of_apart
  simp only [Block.Apart,stop,wordSize]
  omega

theorem setField_outside {w : Nat} (hoff : off+8 ≤ headerSize)
    (hy : y ∉ Block.mk p headerSize) : setField m p off w y = m y := by
  apply writeWord_outside
  simp only [mem_iff,wordSize] at hy ⊢
  omega

theorem readWord_setField {w : Nat} (hoff : off+8 ≤ headerSize)
    (hx : p+headerSize ≤ x) : (setField m p off w).readWord x = m.readWord x := by
  apply readWord_writeWord_of_apart
  simp only [Block.Apart,stop,wordSize]
  omega

def ObjectSize (o : Nat) : Prop := ∃ i < cachesMax, o = 2 ^ (i + slubMinOrder)

def slotCount (o : Nat) : Nat := (pageSizeFor o - startOffset o) / o

def slotsOf (o p : Nat) : List Nat :=
  (List.range (slotCount o)).map fun i => p + startOffset o + i * o

/-- What the sizes of the caches have in common. -/
structure SizeFacts (o : Nat) : Prop where
  large : 16 ≤ o
  header : headerSize ≤ startOffset o
  startDvd : o ∣ startOffset o
  pageDvd : o ∣ pageSizeFor o
  many : 2 ≤ slotCount o
  order : ∃ k < buddyMaxOrder, pageSizeFor o = orderSize k
  small : pageSizeFor o ≤ 8192

theorem ObjectSize.facts (h : ObjectSize o) : SizeFacts o := by
  obtain ⟨i,hi,rfl⟩ := h
  have hi : i < 8 := hi
  interval_cases i
  all_goals exact ⟨by decide,by decide,by decide,by decide,by decide,
    (by decide : ∃ k < 11, _),by decide⟩

abbrev frame (o p : Nat) : Frame := ⟨p,pageSizeFor o⟩

theorem mem_slotsOf : x ∈ slotsOf o p ↔ ∃ i < slotCount o, x = p+startOffset o+i*o := by
  simp only [slotsOf,mem_map,mem_range,eq_comm]

theorem SizeFacts.room (h : SizeFacts o) : startOffset o+slotCount o*o ≤ pageSizeFor o := by
  have hcount : slotCount o*o ≤ pageSizeFor o-startOffset o := Nat.div_mul_le_self _ _
  have hpos : 2*o ≤ slotCount o*o := Nat.mul_le_mul_right o h.many
  have hlarge := h.large
  omega

theorem slot_bounds (h : SizeFacts o) (hx : x ∈ slotsOf o p) :
    p+headerSize ≤ x ∧ x+o ≤ p+pageSizeFor o := by
  obtain ⟨i,hi,rfl⟩ := mem_slotsOf.mp hx
  have hhead := h.header
  have hroom := h.room
  have hmul : (i+1)*o ≤ slotCount o*o := Nat.mul_le_mul_right o hi
  rw [Nat.add_mul] at hmul
  omega

theorem slots_apart (hx : x ∈ slotsOf o p) (hy : y ∈ slotsOf o p) (hne : x ≠ y) :
    (Block.mk x o).Apart ⟨y,o⟩ := by
  obtain ⟨i,_,rfl⟩ := mem_slotsOf.mp hx
  obtain ⟨j,_,rfl⟩ := mem_slotsOf.mp hy
  simp only [Block.Apart,stop]
  rcases Nat.lt_trichotomy i j with hij | rfl | hij
  · have hmul := Nat.mul_le_mul_right o hij
    rw [Nat.succ_mul] at hmul
    omega
  · exact absurd rfl hne
  · have hmul := Nat.mul_le_mul_right o hij
    rw [Nat.succ_mul] at hmul
    omega

theorem slots_nodesApart (h : SizeFacts o) (hx : x ∈ slotsOf o p)
    (hy : y ∈ slotsOf o p) (hne : x ≠ y) : NodesApart x y := by
  have hap := slots_apart hx hy hne
  have hlarge := h.large
  simp only [NodesApart,Block.Apart,stop,wordSize] at hap ⊢
  omega

theorem slot_dvd (h : SizeFacts o) (hp : pageSizeFor o ∣ p) (hx : x ∈ slotsOf o p) : o ∣ x := by
  obtain ⟨i,_,rfl⟩ := mem_slotsOf.mp hx
  exact Nat.dvd_add (Nat.dvd_add (Nat.dvd_trans h.pageDvd hp) h.startDvd) (Nat.dvd_mul_left o i)

theorem slotsOf_length : (slotsOf o p).length = slotCount o := by simp [slotsOf]

theorem length_lt_slotCount (hn : xs.Nodup) (hs : ∀ y ∈ xs, y ∈ slotsOf o p)
    (hx : x ∈ slotsOf o p) (hno : x ∉ xs) : xs.length < slotCount o := by
  have hsub : (x::xs).Subperm (slotsOf o p) :=
    subperm_of_subset (nodup_cons.mpr ⟨hno,hn⟩) (cons_subset.mpr ⟨hx,hs⟩)
  have hle := hsub.length_le
  rw [slotsOf_length,length_cons] at hle
  omega

structure PageOk (m : Memory) (o p : Nat) (xs : List Nat) : Prop where
  size : field m p pageSizeField = pageSizeFor o
  start : field m p pageStartField = p
  objects : field m p objectsField = slotCount o
  inuse : field m p inuseField + xs.length = slotCount o
  free : (IntrusiveList.mk (field m p freeListField)).Holds m xs
  slots : ∀ x ∈ xs, x ∈ slotsOf o p

section

variable (h : PageOk m o p xs)
include h

theorem PageOk.congr (hf : ∀ off, off = pageSizeField ∨ off = freeListField ∨ off = inuseField ∨
      off = objectsField ∨ off = pageStartField → field m' p off = field m p off)
    (hx : ∀ x ∈ xs, m'.readWord x = m.readWord x) : PageOk m' o p xs := by
  have hfree := h.free
  refine ⟨?_,?_,?_,?_,?_,h.slots⟩
  · rw [hf _ (by simp),h.size]
  · rw [hf _ (by simp),h.start]
  · rw [hf _ (by simp),h.objects]
  · rw [hf _ (by simp),h.inuse]
  · rw [hf _ (by simp)]
    exact hfree.congr hx

/-- The bytes of a header and of the links in the free slots. -/
def Footprint (p : Nat) (xs : List Nat) (a : Nat) : Prop :=
  a ∈ Block.mk p headerSize ∨ ∃ x ∈ xs, a ∈ Block.mk x Memory.wordSize

theorem PageOk.agree (ha : Memory.AgreeOn (Footprint p xs) m m') : PageOk m' o p xs := by
  apply h.congr
  · intro off hoff
    apply readWord_congr
    intro a hmem
    apply ha
    left
    simp only [mem_iff,wordSize,headerSize,pageSizeField,freeListField,inuseField,
      objectsField,pageStartField] at *
    omega
  · intro x hx
    apply readWord_congr
    exact fun a hmem => ha a (Or.inr ⟨x,hx,hmem⟩)

theorem PageOk.setNext (hs : SizeFacts o) (w : Nat) : PageOk (setField m p nextField w) o p xs := by
  apply h.congr
  · intro off hoff
    apply field_setField_of_ne
    simp only [pageSizeField,nextField,freeListField,inuseField,objectsField,
      pageStartField] at hoff ⊢
    omega
  · intro x hx
    exact readWord_setField (by decide) (slot_bounds hs (h.slots x hx)).1

theorem PageOk.nodup : xs.Nodup := nodup_of_nodesApart h.free.apart

end

theorem slotCount_lt (h : SizeFacts o) : slotCount o < 2^64 := by
  have hle : slotCount o ≤ pageSizeFor o-startOffset o := Nat.div_le_self _ _
  have hsmall := h.small
  omega

/-- The words of the header apart from the free list. -/
def KeepsFields (m m' : Memory) (p : Nat) : Prop :=
  ∀ off, off + 8 ≤ freeListField ∨ freeListField + 8 ≤ off ∧ off + 8 ≤ headerSize →
    field m' p off = field m p off

theorem pushFree_spec (hfree : (IntrusiveList.mk (field m p freeListField)).Holds m xs)
    (hback : ∀ y ∈ xs, p+headerSize ≤ y) (hx : p+headerSize ≤ x) (hlt : x < wordRange)
    (hap : ∀ y ∈ xs, NodesApart x y) : ∃ m', pushFree m p x = some m' ∧
      (IntrusiveList.mk (field m' p freeListField)).Holds m' (x::xs) ∧ KeepsFields m m' p ∧
      ∀ a, a ∉ Block.mk p headerSize → a ∉ Block.mk x Memory.wordSize → m' a = m a := by
  have h0 : x ≠ 0 := by simp only [headerSize] at hx; omega
  have hpush : (IntrusiveList.mk (field m p freeListField)).push m x =
      some (⟨x⟩, m.writeWord x (field m p freeListField)) := by
    simp [push,storeWord,h0]
  obtain ⟨_,_,hholds⟩ := push_holds hfree hlt hap hpush
  refine ⟨setField (m.writeWord x (field m p freeListField)) p freeListField x,?_,?_,?_,?_⟩
  · rw [pushFree,hpush]
    rfl
  · rw [field_setField_self,Nat.mod_eq_of_lt (show x < 2^64 from hlt)]
    apply hholds.congr
    intro y hy
    apply readWord_setField (by decide)
    rcases mem_cons.mp hy with rfl | hy
    · exact hx
    · exact hback y hy
  · intro off hoff
    rw [field_setField_of_ne (by simp only [freeListField] at *; omega)]
    apply readWord_writeWord_of_apart
    simp only [Block.Apart,stop,wordSize,freeListField,headerSize] at *
    omega
  · intro a ha hxa
    rw [setField_outside (by decide) ha]
    exact writeWord_outside m x _ hxa

theorem allocObj_spec (hs : SizeFacts o) (h : PageOk m o p (x::xs)) :
    ∃ m', allocObj m p = (some x, m') ∧ PageOk m' o p xs ∧ isFull m' p = decide (xs = []) ∧
      field m' p nextField = field m p nextField ∧ ∀ a, a ∉ Block.mk p headerSize → m' a = m a := by
  obtain ⟨hpop,hrest⟩ := pop_cons h.free
  have hinuse := h.inuse
  have hcount := slotCount_lt hs
  rw [length_cons] at hinuse
  have hback : ∀ y ∈ xs, p+headerSize ≤ y := fun y hy =>
    (slot_bounds hs (h.slots y (mem_cons_of_mem _ hy))).1
  have hfree : field (setField m p freeListField (m.readWord x)) p inuseField =
      field m p inuseField := field_setField_of_ne (by decide)
  have hnew : (field m p inuseField+1)%2^64 = field m p inuseField+1 :=
    Nat.mod_eq_of_lt (by omega)
  have hok : PageOk (setField (setField m p freeListField (m.readWord x)) p inuseField
      (field m p inuseField+1)) o p xs := by
    refine ⟨?_,?_,?_,?_,?_,fun y hy => h.slots y (mem_cons_of_mem _ hy)⟩
    · rw [field_setField_of_ne (by decide),field_setField_of_ne (by decide),h.size]
    · rw [field_setField_of_ne (by decide),field_setField_of_ne (by decide),h.start]
    · rw [field_setField_of_ne (by decide),field_setField_of_ne (by decide),h.objects]
    · rw [field_setField_self]
      omega
    · rw [field_setField_of_ne (by decide),field_setField_self,
        Nat.mod_eq_of_lt (readWord_lt m x)]
      apply hrest.congr
      intro y hy
      rw [readWord_setField (by decide) (hback y hy),
        readWord_setField (by decide) (hback y hy)]
  refine ⟨_,?_,hok,?_,?_,?_⟩
  · simp only [allocObj,hpop,hfree]
  · have hobj := hok.objects
    have hin := hok.inuse
    rw [isFull,hobj]
    cases xs with
    | nil =>
      rw [length_nil,Nat.add_zero] at hin
      simp [hin]
    | cons y ys =>
      rw [length_cons] at hin
      simp only [reduceCtorEq,decide_false,beq_eq_false_iff_ne]
      omega
  · rw [field_setField_of_ne (by decide),field_setField_of_ne (by decide)]
  · intro a ha
    rw [setField_outside (by decide) ha,setField_outside (by decide) ha]

theorem deallocObj_spec (hs : SizeFacts o) (hfits : p+pageSizeFor o < wordRange)
    (h : PageOk m o p xs) (hx : x ∈ slotsOf o p) (hno : x ∉ xs) :
    ∃ m', deallocObj m p x = some m' ∧ PageOk m' o p (x::xs) ∧
      (isEmpty m' p = true ↔ (x::xs).length = slotCount o) ∧
      field m' p nextField = field m p nextField ∧
      ∀ a, a ∉ Block.mk p headerSize → a ∉ Block.mk x Memory.wordSize → m' a = m a := by
  have hback : ∀ y ∈ xs, p+headerSize ≤ y := fun y hy => (slot_bounds hs (h.slots y hy)).1
  have hxb := slot_bounds hs hx
  obtain ⟨m1,hpush,hholds,hkeep,hout⟩ := pushFree_spec h.free hback hxb.1 (by omega) fun y hy =>
    slots_nodesApart hs hx (h.slots y hy) fun he => hno (he ▸ hy)
  have hlen := length_lt_slotCount h.nodup h.slots hx hno
  have hcount := slotCount_lt hs
  have hinuse := h.inuse
  have hkin : field m1 p inuseField = field m p inuseField := hkeep _ (by decide)
  have hnew : (field m1 p inuseField+(wordRange-1))%2^64 = field m p inuseField-1 := by
    have hsum : field m1 p inuseField+(wordRange-1) = (field m p inuseField-1)+2^64 := by
      simp only [wordRange]
      omega
    rw [hsum,Nat.add_mod_right]
    exact Nat.mod_eq_of_lt (by omega)
  have hok : PageOk (setField m1 p inuseField (field m1 p inuseField+(wordRange-1))) o p
      (x::xs) := by
    refine ⟨?_,?_,?_,?_,?_,?_⟩
    · rw [field_setField_of_ne (by decide),hkeep _ (by decide),h.size]
    · rw [field_setField_of_ne (by decide),hkeep _ (by decide),h.start]
    · rw [field_setField_of_ne (by decide),hkeep _ (by decide),h.objects]
    · rw [field_setField_self,length_cons]
      omega
    · rw [field_setField_of_ne (by decide)]
      apply hholds.congr
      intro y hy
      apply readWord_setField (by decide)
      rcases mem_cons.mp hy with rfl | hy
      · exact hxb.1
      · exact hback y hy
    · intro y hy
      rcases mem_cons.mp hy with rfl | hy
      · exact hx
      · exact h.slots y hy
  refine ⟨_,?_,hok,?_,?_,?_⟩
  · rw [deallocObj,hpush]
    rfl
  · have hin := hok.inuse
    rw [isEmpty,beq_iff_eq]
    omega
  · rw [field_setField_of_ne (by decide)]
    exact hkeep _ (by decide)
  · intro a ha hxa
    rw [setField_outside (by decide) ha]
    exact hout a ha hxa

def slotsTo (o p j : Nat) : List Nat := (List.range j).map fun i => p + startOffset o + i * o

theorem slotsTo_succ (o p j : Nat) :
    (slotsTo o p (j+1)).reverse = (p+startOffset o+j*o)::(slotsTo o p j).reverse := by
  rw [slotsTo,range_succ,map_append,reverse_append]
  rfl

theorem mem_slotsTo {j : Nat} (hs : SizeFacts o) (hj : j ≤ slotCount o)
    (hx : x ∈ slotsTo o p j) : x ∈ slotsOf o p ∧ x ≠ p+startOffset o+j*o := by
  obtain ⟨i,hi,rfl⟩ := mem_map.mp hx
  have hi := mem_range.mp hi
  have hlarge := hs.large
  have hmul : i*o < j*o := Nat.mul_lt_mul_of_pos_right hi (by omega)
  exact ⟨mem_slotsOf.mpr ⟨i,by omega,rfl⟩,by omega⟩

theorem carve_spec {n j fuel : Nat} (hs : SizeFacts o) (hfits : p+pageSizeFor o < wordRange)
    (hj : j+n = slotCount o) (hfuel : n < fuel)
    (hfree : (IntrusiveList.mk (field m p freeListField)).Holds m (slotsTo o p j).reverse) :
    ∃ m', carve p o (p+pageSizeFor o) fuel (p+startOffset o+j*o) j m = some (slotCount o, m') ∧
      (IntrusiveList.mk (field m' p freeListField)).Holds m' (slotsOf o p).reverse ∧
      KeepsFields m m' p ∧ ∀ a, a ∉ frame o p → m' a = m a := by
  have hlarge := hs.large
  induction n generalizing j fuel m with
  | zero =>
    obtain ⟨fuel,rfl⟩ : ∃ f, fuel = f+1 := ⟨fuel-1,by omega⟩
    rw [Nat.add_zero] at hj
    subst j
    have hend : pageSizeFor o-startOffset o < (slotCount o+1)*o := by
      rw [Nat.mul_comm]
      exact Nat.lt_mul_div_succ _ (by omega)
    rw [Nat.add_mul] at hend
    refine ⟨m,?_,hfree,fun _ _ => rfl,fun _ _ => rfl⟩
    rw [carve,if_neg (by omega)]
  | succ n ih =>
    obtain ⟨fuel,rfl⟩ : ∃ f, fuel = f+1 := ⟨fuel-1,by omega⟩
    have hslot : p+startOffset o+j*o ∈ slotsOf o p := mem_slotsOf.mpr ⟨j,by omega,rfl⟩
    have hb := slot_bounds hs hslot
    have hold : ∀ y ∈ (slotsTo o p j).reverse, y ∈ slotsOf o p ∧ y ≠ p+startOffset o+j*o := by
      intro y hy
      exact mem_slotsTo hs (by omega) (mem_reverse.mp hy)
    obtain ⟨m1,hpush,hholds,hkeep,hout⟩ := pushFree_spec hfree
      (fun y hy => (slot_bounds hs (hold y hy).1).1) hb.1 (by omega)
      (fun y hy => slots_nodesApart hs hslot (hold y hy).1 (Ne.symm (hold y hy).2))
    rw [← slotsTo_succ] at hholds
    have hj' : j+1+n = slotCount o := by omega
    have hfuel' : n < fuel := by omega
    obtain ⟨m2,hrun,hfree2,hkeep2,hout2⟩ := ih hj' hfuel' hholds
    refine ⟨m2,?_,hfree2,fun off hoff => (hkeep2 off hoff).trans (hkeep off hoff),?_⟩
    · rw [carve,if_pos (by omega),hpush]
      rw [Nat.add_mul,Nat.one_mul,← Nat.add_assoc] at hrun
      exact hrun
    · intro a ha
      rw [hout2 a ha]
      simp only [mem_iff] at ha
      apply hout <;> simp only [mem_iff,wordSize] <;> omega

theorem writeHeader_outside {size a : Nat} (ha : a ∉ Block.mk p headerSize) :
    writeHeader m p size a = m a := by
  simp only [writeHeader]
  iterate 6 rw [setField_outside (by decide) ha]

theorem writeHeader_field {size : Nat} (h : off = freeListField ∨ off = inuseField) :
    field (writeHeader m p size) p off = 0 := by
  simp only [writeHeader]
  rcases h with rfl | rfl
  · iterate 3 rw [field_setField_of_ne (by decide)]
    exact field_setField_self _ _ _ _
  · rw [field_setField_of_ne (by decide),field_setField_of_ne (by decide),
      field_setField_self]
    rfl

theorem carve_writeHeader (hs : SizeFacts o) (hfits : p+pageSizeFor o < wordRange) :
    ∃ m', carve p o (p+pageSizeFor o) (pageSizeFor o) (p+startOffset o) 0
        (writeHeader m p (pageSizeFor o)) = some (slotCount o, m') ∧
      PageOk (setField m' p objectsField (slotCount o)) o p (slotsOf o p).reverse ∧
      ∀ a, a ∉ frame o p → setField m' p objectsField (slotCount o) a = m a := by
  have hcount := slotCount_lt hs
  have hsmall := hs.small
  have hheader := hs.header
  have hlarge := hs.large
  have hroom := hs.room
  have hle : slotCount o ≤ slotCount o*o := Nat.le_mul_of_pos_right _ (by omega)
  have hpos : 0 < headerSize := by decide
  have hfuel : slotCount o < pageSizeFor o := by omega
  have hfree : (IntrusiveList.mk (field (writeHeader m p (pageSizeFor o)) p freeListField)).Holds
      (writeHeader m p (pageSizeFor o)) (slotsTo o p 0).reverse := by
    rw [writeHeader_field (Or.inl rfl)]
    exact holds_new _
  obtain ⟨m',hrun,hholds,hkeep,hout⟩ := carve_spec hs hfits (Nat.zero_add _) hfuel hfree
  rw [Nat.zero_mul] at hrun
  have hback : ∀ y ∈ (slotsOf o p).reverse, p+headerSize ≤ y := fun y hy =>
    (slot_bounds hs (mem_reverse.mp hy)).1
  refine ⟨m',hrun,⟨?_,?_,?_,?_,?_,fun y hy => mem_reverse.mp hy⟩,?_⟩
  · rw [field_setField_of_ne (by decide),hkeep _ (by decide)]
    simp only [writeHeader]
    iterate 5 rw [field_setField_of_ne (by decide)]
    rw [field_setField_self]
    exact Nat.mod_eq_of_lt (by omega)
  · rw [field_setField_of_ne (by decide),hkeep _ (by decide)]
    simp only [writeHeader]
    rw [field_setField_self]
    exact Nat.mod_eq_of_lt (by simp only [wordRange] at hfits; omega)
  · rw [field_setField_self]
    exact Nat.mod_eq_of_lt hcount
  · rw [field_setField_of_ne (by decide),hkeep _ (by decide),writeHeader_field (Or.inr rfl),
      length_reverse,slotsOf_length,Nat.zero_add]
  · rw [field_setField_of_ne (by decide)]
    exact hholds.congr fun y hy => readWord_setField (by decide) (hback y hy)
  · intro a ha
    have hhead : a ∉ mk p headerSize := by
      simp only [mem_iff] at ha ⊢
      omega
    rw [setField_outside (by decide) hhead,hout a ha,writeHeader_outside hhead]

variable {σ : Type} [LawfulFrameAllocator σ] {h : SlubHeap σ} {live : Set Frame}

open LawfulFrameAllocator

theorem new_spec (ho : ObjectSize o) (hown : Owns h.alloc h.mem live) :
    ∃ r h', SlubPage.new o h = some (r, h') ∧ Memory.AgreeOn (Covered live) h.mem h'.mem ∧
      (r = none → Refuses h o ∧ Owns h'.alloc h'.mem live) ∧
      ∀ p, r = some p → frame o p ∉ live ∧ Owns h'.alloc h'.mem (insert (frame o p) live) ∧
        PageOk h'.mem o p (slotsOf o p).reverse := by
  have hs := ho.facts
  obtain ⟨k,hk,hsize⟩ := hs.order
  have hblock : blockSize (pageSizeFor o) = pageSizeFor o := by
    rw [hsize]
    exact blockSize_orderSize hk
  cases hr : FrameAllocator.allocFrame h.alloc h.mem (pageSizeFor o) with
  | mk start rest =>
    obtain ⟨alloc,m⟩ := rest
    cases start with
    | none =>
      obtain ⟨hown',hagree⟩ := alloc_none hown hr
      refine ⟨none,⟨alloc,m⟩,?_,hagree,fun _ => ⟨?_,hown'⟩,fun p hp => absurd hp (by simp)⟩
      · simp only [SlubPage.new,hr]
      · rw [Refuses,hr]
    | some p =>
      obtain ⟨hfresh,hown',hagree⟩ := alloc_some hown hr
      rw [hblock] at hfresh hown'
      have hshape := shape hown' _ (Set.mem_insert _ _)
      have hbound : p+pageSizeFor o < wordRange :=
        lt_of_le_of_lt hshape.bounded (by decide)
      obtain ⟨m',hrun,hok,hout⟩ := carve_writeHeader (m := m) hs hbound
      refine ⟨some p,⟨alloc,setField m' p objectsField (slotCount o)⟩,?_,?_,
        fun hno => absurd hno (by simp),?_⟩
      · simp only [SlubPage.new,hr,hrun]
        rfl
      · intro a ha
        obtain ⟨f,hf,hmem⟩ := ha
        have hne : f ≠ frame o p := by
          rintro rfl
          exact hfresh hf
        have hap := apart hown' (Set.mem_insert_of_mem _ hf) (Set.mem_insert _ _) hne
        exact (hout a (hap.not_mem hmem)).trans (hagree a ⟨f,hf,hmem⟩)
      · rintro _ ⟨rfl⟩
        refine ⟨hfresh,store hown' ?_,hok⟩
        intro a ha
        exact hout a fun hmem => ha ⟨_,Set.mem_insert _ _,hmem⟩

end SlubPage

end Athera
