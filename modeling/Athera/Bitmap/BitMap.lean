import Athera.Bitmap.Words
import Athera.Framework.Answers

/-!
# The owned bit map

`BitMap` keeps the number of used bits next to the words.
-/

namespace Athera

open Framework List Option

/-- `BitMap<WORDS>`, with `WORDS` the number of words. -/
@[ext]
structure BitMap where
  words : List BitWord
  bits : Nat
  used : Nat
  fits : bits ≤ words.length * wordBits
  small : words.length * wordBits < wordRange

inductive BitOp where
  | set (index : Nat)
  | clear (index : Nat)
  | alloc
  | allocFrom (start : Nat)
  | allocSpecific (index : Nat)
  | free (index : Nat)
  | allocRange (n : Nat)
  | freeRange (start stop : Nat)
  | reset
  | get (index : Nat)
  | isAllocated (index : Nat)
  | isFree (index : Nat)
  | findFree
  | findFreeFrom (start : Nat)
  | findUsed
  | findUsedFrom (start : Nat)
  | iterUsed
  | iterFree
  | used
  | available
  | isFull
  | isEmpty
deriving DecidableEq, Repr

inductive BitAnswer where
  | done (r : Except BitMapError Unit)
  | bit (r : Except BitMapError Bool)
  | index (r : Option Nat)
  | list (is : List Nat)
  | number (n : Nat)
  | flag (b : Bool)

def BitAnswer.indices : BitAnswer → List Nat
  | .index r => r.toList
  | .list is => is
  | _ => []

/-- All that `BitIter` yields from `next` on, for as many turns as `fuel` says. -/
def bitIter (words : List BitWord) (bits : Nat) (wantFree : Bool) : Nat → Nat → List Nat
  | 0, _ => []
  | fuel + 1, next =>
    match scanWords words bits next wantFree with
    | none => []
    | some found => found :: bitIter words bits wantFree fuel (found + 1)

/-- Enough turns for every iterator. -/
def bitIterAll (words : List BitWord) (bits : Nat) (wantFree : Bool) : List Nat :=
  bitIter words bits wantFree (words.length * wordBits) 0

namespace BitMap

section

variable (bm : BitMap)

def contains (index : Nat) : Bool := decide (index < bm.bits)

def isAllocated (index : Nat) : Bool := bm.contains index && isBitSet bm.words index

def isFree (index : Nat) : Bool := bm.contains index && !bm.isAllocated index

def available : Nat := wrap (bm.bits + wordRange - bm.used)

def occupy (index : Nat) : BitMap where
  words := setBit bm.words index
  bits := bm.bits
  used := wrap (bm.used + 1)
  fits := by
    rw [length_setBit]
    exact bm.fits
  small := by
    rw [length_setBit]
    exact bm.small

def vacate (index : Nat) : BitMap where
  words := clearBit bm.words index
  bits := bm.bits
  used := wrap (bm.used + wordRange - 1)
  fits := by
    rw [length_clearBit]
    exact bm.fits
  small := by
    rw [length_clearBit]
    exact bm.small

def set (index : Nat) : Except BitMapError Unit × BitMap :=
  if !bm.contains index then (.error .outOfRange, bm)
  else if !bm.isAllocated index then (.ok (), bm.occupy index)
  else (.ok (), bm)

def clear (index : Nat) : Except BitMapError Unit × BitMap :=
  if !bm.contains index then (.error .outOfRange, bm)
  else if bm.isAllocated index then (.ok (), bm.vacate index)
  else (.ok (), bm)

def findFreeFrom (start : Nat) : Option Nat :=
  if bm.used = bm.bits then none else scanWords bm.words bm.bits start true

def findUsedFrom (start : Nat) : Option Nat :=
  if bm.used = 0 then none else scanWords bm.words bm.bits start false

def allocFrom (start : Nat) : Option Nat × BitMap :=
  match bm.findFreeFrom start with
  | none => (none, bm)
  | some index => (some index, bm.occupy index)

def allocSpecific (index : Nat) : Except BitMapError Unit × BitMap :=
  if !bm.contains index then (.error .outOfRange, bm)
  else if bm.isAllocated index then (.error .alreadySet, bm)
  else (.ok (), bm.occupy index)

def free (index : Nat) : Except BitMapError Unit × BitMap :=
  if !bm.contains index then (.error .outOfRange, bm)
  else if !bm.isAllocated index then (.error .alreadyFree, bm)
  else (.ok (), bm.vacate index)

def allocRange (n : Nat) : Option Nat × BitMap :=
  if n = 0 ∨ bm.available < n then (none, bm)
  else match h : allocRangeIn bm.words bm.bits n with
    | none => (none, bm)
    | some (start, words) =>
      have hlen : words.length = bm.words.length := by
        rw [(allocRangeIn_spec h).2.2.2,length_setBits]
      (some start, ⟨words,bm.bits,wrap (bm.used + n),hlen ▸ bm.fits,hlen ▸ bm.small⟩)

def freeRange (start stop : Nat) : Except BitMapError Unit × BitMap :=
  match h : freeRangeIn bm.words bm.bits start stop with
  | .error e => (.error e, bm)
  | .ok words =>
    have hlen : words.length = bm.words.length := by
      rw [(freeRangeIn_spec h).2.2.2,length_clearBits]
    (.ok (), ⟨words,bm.bits,wrap (bm.used + wordRange - (stop - start)),hlen ▸ bm.fits,
      hlen ▸ bm.small⟩)

def reset : BitMap where
  words := List.replicate bm.words.length 0
  bits := bm.bits
  used := 0
  fits := by
    rw [length_replicate]
    exact bm.fits
  small := by
    rw [length_replicate]
    exact bm.small

def step : BitOp → BitAnswer × BitMap
  | .set index => ((bm.set index).map .done id)
  | .clear index => ((bm.clear index).map .done id)
  | .alloc => ((bm.allocFrom 0).map .index id)
  | .allocFrom start => ((bm.allocFrom start).map .index id)
  | .allocSpecific index => ((bm.allocSpecific index).map .done id)
  | .free index => ((bm.free index).map .done id)
  | .allocRange n => ((bm.allocRange n).map .index id)
  | .freeRange start stop => ((bm.freeRange start stop).map .done id)
  | .reset => (.done (.ok ()), bm.reset)
  | .get index =>
    (.bit (if bm.contains index then .ok (isBitSet bm.words index) else .error .outOfRange), bm)
  | .isAllocated index => (.flag (bm.isAllocated index), bm)
  | .isFree index => (.flag (bm.isFree index), bm)
  | .findFree => (.index (bm.findFreeFrom 0), bm)
  | .findFreeFrom start => (.index (bm.findFreeFrom start), bm)
  | .findUsed => (.index (bm.findUsedFrom 0), bm)
  | .findUsedFrom start => (.index (bm.findUsedFrom start), bm)
  | .iterUsed => (.list (bitIterAll bm.words bm.bits false), bm)
  | .iterFree => (.list (bitIterAll bm.words bm.bits true), bm)
  | .used => (.number bm.used, bm)
  | .available => (.number bm.available, bm)
  | .isFull => (.flag (decide (bm.used = bm.bits)), bm)
  | .isEmpty => (.flag (decide (bm.used = 0)), bm)

end

def fromLeBytes (bytes : List UInt8) : BitWord :=
  BitVec.ofNat 64 (bytes.foldr (fun b n => b.toNat + 256 * n) 0)

def fromBeBytes (bytes : List UInt8) : BitWord := fromLeBytes bytes.reverse

inductive ByteOrder where
  | little
  | big
  | native
deriving DecidableEq, Repr

/-- The machine is little-endian. -/
def ByteOrder.fromBytes : ByteOrder → List UInt8 → BitWord
  | .big => fromBeBytes
  | _ => fromLeBytes

def new (n : Nat) : Option BitMap :=
  if h : n * wordBits < wordRange then
    some ⟨List.replicate n 0,n * wordBits,0,by rw [length_replicate],
      by rw [length_replicate]; exact h⟩
  else none

/-- A failed assertion makes no map. -/
def newWithCapacity (n bits : Nat) : Option BitMap :=
  if h : n * wordBits < wordRange ∧ bits ≤ n * wordBits then
    some ⟨List.replicate n 0,bits,0,by rw [length_replicate]; exact h.2,
      by rw [length_replicate]; exact h.1⟩
  else none

/-- `TryFrom<&[usize]>`: the words are the first of `n`. -/
def tryFromWords (n : Nat) (words : List BitWord) : Option BitMap :=
  if h : n * wordBits < wordRange ∧ words.length ≤ n then
    have hlen : (words ++ List.replicate (n - words.length) (0 : BitWord)).length = n := by
      rw [length_append,length_replicate]
      omega
    some ⟨words ++ List.replicate (n - words.length) 0,words.length * wordBits,countUsed words,
      by rw [hlen]; exact Nat.mul_le_mul_right _ h.2,by rw [hlen]; exact h.1⟩
  else none

/-- `From<[usize; WORDS]>`. -/
def ofWords (words : List BitWord) : Option BitMap := tryFromWords words.length words

/-- `try_from_bytes_with`. -/
def tryFromBytes (n : Nat) (order : ByteOrder) (bytes : List UInt8) : Option BitMap :=
  if bytes.length % 8 ≠ 0 then none
  else tryFromWords n ((List.range (bytes.length / 8)).map fun i =>
    order.fromBytes ((bytes.drop (8 * i)).take 8))

inductive Origin where
  | new (n : Nat)
  | newWithCapacity (n bits : Nat)
  | ofWords (words : List BitWord)
  | tryFromWords (n : Nat) (words : List BitWord)
  | tryFromBytes (n : Nat) (order : ByteOrder) (bytes : List UInt8)
deriving DecidableEq, Repr

def Origin.build : Origin → Option BitMap
  | .new n => BitMap.new n
  | .newWithCapacity n bits => BitMap.newWithCapacity n bits
  | .ofWords words => BitMap.ofWords words
  | .tryFromWords n words => BitMap.tryFromWords n words
  | .tryFromBytes n order bytes => BitMap.tryFromBytes n order bytes

section

variable {bm : BitMap}

/-- The counter is right, and no bit beyond the capacity is set. -/
structure Ok (bm : BitMap) : Prop where
  count : bm.used = countBelow (bitAt bm.words) bm.bits
  clean : ∀ i, bm.bits ≤ i → bitAt bm.words i = false

/-- The capacity ends in the last word, or is empty. -/
def Sized (bm : BitMap) : Prop := bm.bits = 0 ∨ bm.words.length = wordsFor bm.bits

theorem Ok.used_le (h : bm.Ok) : bm.used ≤ bm.bits := by
  rw [h.count]
  exact countBelow_le _ _

theorem bits_lt (bm : BitMap) : bm.bits < wordRange := Nat.lt_of_le_of_lt bm.fits bm.small

theorem ok_of_zeros {n : Nat} (hwords : bm.words = List.replicate n 0) (hused : bm.used = 0) :
    bm.Ok := by
  refine ⟨?_,fun i _ => by rw [hwords,bitAt_zeros]⟩
  rw [hused,eq_comm,countBelow_eq_zero]
  intro j _
  rw [hwords,bitAt_zeros]

theorem tryFromWords_ok {n : Nat} {words : List BitWord} (h : tryFromWords n words = some bm) :
    bm.Ok := by
  rw [tryFromWords] at h
  split at h
  · obtain rfl := some.inj h
    refine ⟨?_,fun i hi => ?_⟩
    · rw [countUsed_eq]
      apply countBelow_congr
      intro j _
      rw [bitAt_append_zeros]
    · rw [bitAt_append_zeros]
      exact bitAt_of_length_le hi
  · exact absurd h (by simp)

theorem Origin.build_ok (origin : Origin) (h : origin.build = some bm) : bm.Ok := by
  cases origin with
  | new n =>
    rw [Origin.build,BitMap.new] at h
    split at h
    · obtain rfl := some.inj h
      exact ok_of_zeros rfl rfl
    · exact absurd h (by simp)
  | newWithCapacity n bits =>
    rw [Origin.build,BitMap.newWithCapacity] at h
    split at h
    · obtain rfl := some.inj h
      exact ok_of_zeros rfl rfl
    · exact absurd h (by simp)
  | ofWords words => exact tryFromWords_ok h
  | tryFromWords n words => exact tryFromWords_ok h
  | tryFromBytes n order bytes =>
    rw [Origin.build,BitMap.tryFromBytes] at h
    split at h
    · exact absurd h (by simp)
    · exact tryFromWords_ok h

structure Follows (bm bm' : BitMap) : Prop where
  bits : bm'.bits = bm.bits
  length : bm'.words.length = bm.words.length
  ok : bm'.Ok

theorem Follows.refl (h : bm.Ok) : bm.Follows bm := ⟨rfl,rfl,h⟩

theorem Follows.sized {bm' : BitMap} (h : bm.Follows bm') (hs : bm.Sized) : bm'.Sized := by
  rw [Sized,h.bits,h.length]
  exact hs

variable {index : Nat}

theorem occupy_follows (h : bm.Ok) (hi : index < bm.bits)
    (hfree : bitAt bm.words index = false) : bm.Follows (bm.occupy index) := by
  have hlt : index < bm.words.length*wordBits := Nat.lt_of_lt_of_le hi bm.fits
  have hbit : ∀ j, bitAt (setBit bm.words index) j = (decide (j = index) || bitAt bm.words j) :=
    fun j => bitAt_setBit hlt
  have hcount : countBelow (bitAt (setBit bm.words index)) bm.bits =
      countBelow (bitAt bm.words) bm.bits+1 := by
    apply countBelow_insert hi hfree
    · rw [hbit,decide_eq_true rfl,Bool.true_or]
    · intro j hj
      rw [hbit,decide_eq_false hj,Bool.false_or]
  refine ⟨rfl,length_setBit,?_,fun i hge => ?_⟩
  · have hle := countBelow_le (bitAt (setBit bm.words index)) bm.bits
    have hb := bm.bits_lt
    simp only [occupy]
    rw [hcount,h.count,wrap_of_lt (by omega)]
  · simp only [occupy] at hge ⊢
    have hne : i ≠ index := by omega
    rw [hbit,decide_eq_false hne]
    exact h.clean i hge

theorem vacate_follows (h : bm.Ok) (hi : index < bm.bits)
    (hset : bitAt bm.words index = true) : bm.Follows (bm.vacate index) := by
  have hlt : index < bm.words.length*wordBits := Nat.lt_of_lt_of_le hi bm.fits
  have hbit : ∀ j, bitAt (clearBit bm.words index) j = (decide (j ≠ index) && bitAt bm.words j) :=
    fun j => bitAt_clearBit hlt
  have hcount : countBelow (bitAt bm.words) bm.bits =
      countBelow (bitAt (clearBit bm.words index)) bm.bits+1 := by
    apply countBelow_insert hi _ hset
    · intro j hj
      rw [hbit,decide_eq_true hj,Bool.true_and]
    · rw [hbit,decide_eq_false (not_not.mpr rfl),Bool.false_and]
  refine ⟨rfl,length_clearBit,?_,fun i hge => ?_⟩
  · have hle := h.used_le
    have hb := bm.bits_lt
    have hused := h.count
    simp only [vacate]
    rw [hcount] at hused
    rw [wrap_sub (by omega) (by omega),hused,Nat.add_sub_cancel]
  · simp only [vacate] at hge ⊢
    rw [hbit,h.clean i hge,Bool.and_false]

theorem isAllocated_iff :
    bm.isAllocated index = true ↔ index < bm.bits ∧ bitAt bm.words index = true := by
  rw [isAllocated,contains,isBitSet_eq_bitAt,Bool.and_eq_true,decide_eq_true_iff]

theorem bitAt_of_not_isAllocated (hi : index < bm.bits)
    (h : bm.isAllocated index = false) : bitAt bm.words index = false := by
  rw [isAllocated,contains,isBitSet_eq_bitAt,decide_eq_true hi] at h
  exact h

theorem Sized.scanWords_some (h : bm.Sized) {start : Nat} {wantFree : Bool}
    (hs : scanWords bm.words bm.bits start wantFree = some index) :
    index < bm.bits ∧ bitAt bm.words index = !wantFree := by
  rw [scanWords_exact bm.fits h,firstIn_eq_some] at hs
  refine ⟨hs.2.2.1,?_⟩
  have hbit := hs.1
  cases wantFree <;> simpa using hbit

theorem Sized.bitIter_lt (h : bm.Sized) {wantFree : Bool} {fuel next : Nat} :
    ∀ i ∈ bitIter bm.words bm.bits wantFree fuel next, i < bm.bits := by
  induction fuel generalizing next with
  | zero => exact fun i hi => absurd hi not_mem_nil
  | succ fuel ih =>
    intro i hi
    rw [bitIter] at hi
    split at hi
    · exact absurd hi not_mem_nil
    next found hfound =>
      rcases mem_cons.mp hi with rfl | hi
      · exact (h.scanWords_some hfound).1
      · exact ih i hi

/-- The search for a free bit stays below the capacity. -/
def Bounded (bm : BitMap) : Prop := ∀ start, ∀ index ∈ bm.findFreeFrom start, index < bm.bits

theorem Sized.bounded (h : bm.Sized) : bm.Bounded := by
  intro start index hf
  rw [findFreeFrom] at hf
  split at hf
  · exact absurd hf (by simp)
  · exact (h.scanWords_some hf).1

theorem findFreeFrom_some {start : Nat} (h : bm.findFreeFrom start = some index) :
    start < bm.bits ∧ bitAt bm.words index = false ∧
      ∀ j, start ≤ j → j < index → bitAt bm.words j = true := by
  rw [findFreeFrom] at h
  split at h
  · exact absurd h (by simp)
  · rw [scanWords_spec bm.fits] at h
    split at h
    · exact absurd h (by simp)
    next hlt =>
      rw [firstIn_eq_some] at h
      exact ⟨by omega,by simpa using h.1,fun j hj hji => by simpa using h.2.2.2 j hj hji⟩

theorem Sized.findUsedFrom_some (h : bm.Sized) {start : Nat}
    (hf : bm.findUsedFrom start = some index) : index < bm.bits := by
  rw [findUsedFrom] at hf
  split at hf
  · exact absurd hf (by simp)
  · exact (h.scanWords_some hf).1

theorem set_follows (h : bm.Ok) (index : Nat) : bm.Follows (bm.set index).2 := by
  rw [set]
  split
  · exact Follows.refl h
  next hin =>
    have hi : index < bm.bits := by simpa [contains] using hin
    split
    next hno => exact occupy_follows h hi (bitAt_of_not_isAllocated hi (by simpa using hno))
    · exact Follows.refl h

theorem clear_follows (h : bm.Ok) (index : Nat) : bm.Follows (bm.clear index).2 := by
  rw [clear]
  split
  · exact Follows.refl h
  · split
    next hall =>
      obtain ⟨hi,hbit⟩ := isAllocated_iff.mp hall
      exact vacate_follows h hi hbit
    · exact Follows.refl h

theorem allocSpecific_follows (h : bm.Ok) (index : Nat) : bm.Follows (bm.allocSpecific index).2 := by
  rw [allocSpecific]
  split
  · exact Follows.refl h
  next hin =>
    have hi : index < bm.bits := by simpa [contains] using hin
    split
    · exact Follows.refl h
    next hno => exact occupy_follows h hi (bitAt_of_not_isAllocated hi (by simpa using hno))

theorem free_follows (h : bm.Ok) (index : Nat) : bm.Follows (bm.free index).2 := by
  rw [free]
  split
  · exact Follows.refl h
  · split
    · exact Follows.refl h
    next hall =>
      obtain ⟨hi,hbit⟩ := isAllocated_iff.mp (by simpa using hall)
      exact vacate_follows h hi hbit

theorem allocFrom_follows (hb : bm.Bounded) (h : bm.Ok) (start : Nat) :
    bm.Follows (bm.allocFrom start).2 ∧ ∀ i ∈ (bm.allocFrom start).1, i < bm.bits := by
  rw [allocFrom]
  split
  · exact ⟨Follows.refl h,fun i hi => absurd hi (by simp)⟩
  next index hf =>
    have hi := hb start index hf
    refine ⟨occupy_follows h hi (findFreeFrom_some hf).2.1,fun i he => ?_⟩
    obtain rfl := some.inj he
    exact hi

theorem allocRange_follows (h : bm.Ok) (n : Nat) :
    bm.Follows (bm.allocRange n).2 ∧ ∀ i ∈ (bm.allocRange n).1, i < bm.bits := by
  rw [allocRange]
  split
  · exact ⟨Follows.refl h,fun i hi => absurd hi (by simp)⟩
  · split
    · exact ⟨Follows.refl h,fun i hi => absurd hi (by simp)⟩
    next start words hr =>
      obtain ⟨hn,hle,hfree,rfl⟩ := allocRangeIn_spec hr
      have hbit := bitAt_setBits (hle.trans bm.fits)
      have hcount := countBelow_setBits bm.fits hle hfree
      have hmax := countBelow_le (bitAt (setBits bm.words start n)) bm.bits
      have hb := bm.bits_lt
      refine ⟨⟨rfl,length_setBits,?_,fun i hge => ?_⟩,fun i he => ?_⟩
      · rw [hcount,h.count,wrap_of_lt (by omega)]
      · simp only at hge ⊢
        rw [hbit,decide_eq_false (by omega)]
        exact h.clean i hge
      · obtain rfl := some.inj he
        omega

theorem freeRange_follows (h : bm.Ok) (start stop : Nat) : bm.Follows (bm.freeRange start stop).2 := by
  rw [freeRange]
  split
  · exact Follows.refl h
  next words hr =>
    obtain ⟨hle,hstop,hset,rfl⟩ := freeRangeIn_spec hr
    have hend : start+(stop-start) = stop := by omega
    have hroom : start+(stop-start) ≤ bm.words.length*wordBits := hend.symm ▸ hstop.trans bm.fits
    have hbit := bitAt_clearBits hroom
    rw [hend] at hbit
    have hcount : countBelow (bitAt bm.words) bm.bits =
        countBelow (bitAt (clearBits bm.words start (stop-start))) bm.bits+(stop-start) := by
      apply countBelow_insertRange (by rw [hend]; exact hstop) _ (by rw [hend]; exact hset)
      · intro j hj
        rw [hbit,decide_eq_false (by omega)]
        simp
      · intro j hj hlt
        rw [hend] at hlt
        rw [hbit,decide_eq_true ⟨hj,hlt⟩]
        rfl
    have hused := h.count
    have hmax := h.used_le
    have hb := bm.bits_lt
    rw [hcount] at hused
    refine ⟨rfl,length_clearBits,?_,fun i hge => ?_⟩
    · rw [wrap_sub (by omega) (by omega),hused,Nat.add_sub_cancel]
    · rw [hbit,h.clean i hge,Bool.and_false]

theorem reset_follows (bm : BitMap) : bm.Follows bm.reset :=
  ⟨rfl,length_replicate,ok_of_zeros rfl rfl⟩

theorem step_follows (hb : bm.Bounded) (h : bm.Ok) (op : BitOp) : bm.Follows (bm.step op).2 := by
  cases op with
  | set index => exact set_follows h index
  | clear index => exact clear_follows h index
  | alloc => exact (allocFrom_follows hb h 0).1
  | allocFrom start => exact (allocFrom_follows hb h start).1
  | allocSpecific index => exact allocSpecific_follows h index
  | free index => exact free_follows h index
  | allocRange n => exact (allocRange_follows h n).1
  | freeRange start stop => exact freeRange_follows h start stop
  | reset => exact reset_follows bm
  | _ => exact Follows.refl h

theorem Sized.step_indices (hs : bm.Sized) (h : bm.Ok) (op : BitOp) :
    ∀ i ∈ (bm.step op).1.indices, i < bm.bits := by
  have hopt : ∀ r : Option Nat, (∀ i ∈ r, i < bm.bits) → ∀ i ∈ (BitAnswer.index r).indices,
      i < bm.bits := fun r hr i hi => hr i (mem_toList.mp hi)
  cases op with
  | alloc => exact hopt _ (allocFrom_follows hs.bounded h 0).2
  | allocFrom start => exact hopt _ (allocFrom_follows hs.bounded h start).2
  | allocRange n => exact hopt _ (allocRange_follows h n).2
  | findFree => exact hopt _ (hs.bounded 0)
  | findFreeFrom start => exact hopt _ (hs.bounded start)
  | findUsed => exact hopt _ fun i hi => hs.findUsedFrom_some hi
  | findUsedFrom start => exact hopt _ fun i hi => hs.findUsedFrom_some hi
  | iterUsed => exact hs.bitIter_lt
  | iterFree => exact hs.bitIter_lt
  | _ => exact fun i hi => absurd hi not_mem_nil

end

variable {bm : BitMap}

/-- After the operations the counter is right and no bit beyond the capacity is set, and no answer
has named an index beyond it. -/
structure Sound (bm : BitMap) (ops : List BitOp) : Prop where
  capacity : (after step bm ops).bits = bm.bits
  count : (after step bm ops).used =
    countBelow (bitAt (after step bm ops).words) (after step bm ops).bits
  clean : ∀ i, (after step bm ops).bits ≤ i → bitAt (after step bm ops).words i = false
  available : (after step bm ops).used ≤ (after step bm ops).bits
  indices : ∀ a ∈ answers step bm ops, ∀ i ∈ a.indices, i < bm.bits

theorem Sized.sound (hs : bm.Sized) (h : bm.Ok) (ops : List BitOp) : bm.Sound ops := by
  have hrun : bm.Follows (after step bm ops) ∧
      ∀ a ∈ answers step bm ops, ∀ i ∈ a.indices, i < bm.bits := by
    apply answers_invariant _ (Follows.refl h)
    intro bm' op hf
    have hs' := hf.sized hs
    have hnext := step_follows hs'.bounded hf.ok op
    refine ⟨fun i hi => ?_,hnext.bits.trans hf.bits,hnext.length.trans hf.length,hnext.ok⟩
    rw [← hf.bits]
    exact hs'.step_indices hf.ok op i hi
  exact ⟨hrun.1.bits,hrun.1.ok.count,hrun.1.ok.clean,hrun.1.ok.used_le,hrun.2⟩

/-- The search goes past the capacity when it ends before the last word. -/
theorem lt_scanLimit {len bits : Nat} (h : wordsFor bits < len) : bits < scanLimit len bits := by
  rw [wordsFor] at h
  rw [scanLimit]
  split
  · simp only [wordBits] at *
    omega
  · simp only [wordBits] at *
    omega

/-- An iterator that finds the last bit of the capacity used does not stop there. -/
theorem exists_bitIter_ge {words : List BitWord} {bits fuel next : Nat}
    (hfits : bits ≤ words.length*wordBits) (hlimit : bits < scanLimit words.length bits)
    (hfree : bitAt words bits = false) (hlast : bitAt words (bits-1) = true) (hnext : next < bits)
    (hfuel : bits ≤ next+fuel) : ∃ i ∈ bitIter words bits true fuel next, bits ≤ i := by
  induction fuel generalizing next with
  | zero => omega
  | succ fuel ih =>
    rw [bitIter]
    cases hs : scanWords words bits next true with
    | none =>
      rw [scanWords_spec hfits,if_neg (by omega),firstIn_eq_none] at hs
      have hno := hs bits (by omega) hlimit
      rw [hfree] at hno
      exact absurd hno (by decide)
    | some found =>
      by_cases hge : bits ≤ found
      · exact ⟨found,mem_cons_self,hge⟩
      · have hfound := hs
        rw [scanWords_spec hfits,if_neg (by omega),firstIn_eq_some] at hfound
        have hne : found ≠ bits-1 := by
          rintro rfl
          rw [hlast] at hfound
          exact absurd hfound.1 (by decide)
        obtain ⟨i,hi,hle⟩ := @ih (found+1) (by omega) (by omega)
        exact ⟨i,mem_cons_of_mem _ hi,hle⟩

theorem not_sound_of_not_sized (h : bm.Ok) (hs : ¬ bm.Sized) :
    ¬ bm.Sound [.set (bm.bits-1),.iterFree] := by
  intro hsound
  have hpos : 0 < bm.bits := Nat.pos_of_ne_zero fun h0 => hs (.inl h0)
  have hlen : wordsFor bm.bits < bm.words.length := by
    have hne : bm.words.length ≠ wordsFor bm.bits := fun he => hs (.inr he)
    have hfits := bm.fits
    rw [wordsFor] at hne ⊢
    simp only [wordBits] at *
    omega
  -- the first step sets the last bit of the capacity
  have hset := set_follows h (bm.bits-1)
  have hbit : bitAt (bm.set (bm.bits-1)).2.words (bm.bits-1) = true := by
    have hin : bm.contains (bm.bits-1) = true := decide_eq_true (by omega)
    rw [set,hin]
    by_cases hall : bm.isAllocated (bm.bits-1) = true
    · simp only [hall]
      exact (isAllocated_iff.mp hall).2
    · simp only [Bool.not_true,Bool.false_eq_true,if_false,Bool.eq_false_iff.mpr hall,
        Bool.not_false,if_true]
      have hlt : bm.bits-1 < bm.words.length*wordBits := by
        have hfits := bm.fits
        omega
      simp only [occupy]
      rw [bitAt_setBit hlt,decide_eq_true rfl,Bool.true_or]
  have hlt := hsound.indices (.list (bitIterAll (bm.set (bm.bits-1)).2.words
    (bm.set (bm.bits-1)).2.bits true)) (mem_cons_of_mem _ mem_cons_self)
  generalize (bm.set (bm.bits-1)).2 = bm' at hset hbit hlt
  rw [← hset.bits] at hbit hlt hpos
  rw [← hset.bits,← hset.length] at hlen
  obtain ⟨i,hi,hle⟩ := exists_bitIter_ge bm'.fits (lt_scanLimit hlen) (hset.ok.clean _ le_rfl) hbit
    hpos (bm'.fits.trans (Nat.le_of_eq (Nat.zero_add _).symm))
  exact absurd (hlt i hi) (by omega)

/-- The counter and the bits stay together, and no index beyond the capacity is named, exactly for
the maps whose capacity is empty or ends in the last word. -/
theorem counter_invariant_iff (origin : Origin) (h : origin.build = some bm) :
    (∀ ops, bm.Sound ops) ↔ bm.bits = 0 ∨ bm.words.length = wordsFor bm.bits := by
  have hok := origin.build_ok h
  constructor
  · intro hall
    by_contra hs
    exact not_sound_of_not_sized hok hs (hall _)
  · intro hs ops
    exact Sized.sound hs hok ops

theorem counter_invariant_iff_ten : ∃ bm, (Origin.newWithCapacity 1 10).build = some bm ∧
    ∀ ops, bm.Sound ops :=
  ⟨_,rfl,(counter_invariant_iff (.newWithCapacity 1 10) rfl).mpr (.inr rfl)⟩

/-- Ten bits in two words: once the last of them is used, the free bits go on after it. -/
theorem iter_free_beyond_capacity : ∃ bm, (Origin.newWithCapacity 2 10).build = some bm ∧
    (answers step bm [.set 9,.iterFree]).map BitAnswer.indices =
      [[],[0,1,2,3,4,5,6,7,8,10]] ∧ ¬ bm.Sound [.set 9,.iterFree] := by
  have hrun : ∀ bm, (Origin.newWithCapacity 2 10).build = some bm →
      (answers step bm [.set 9,.iterFree]).map BitAnswer.indices =
        [[],[0,1,2,3,4,5,6,7,8,10]] := by
    intro bm hbm
    obtain rfl := some.inj hbm
    decide +kernel
  refine ⟨_,rfl,hrun _ rfl,fun hsound => ?_⟩
  have hmem : [0,1,2,3,4,5,6,7,8,10] ∈ ([[],[0,1,2,3,4,5,6,7,8,10]] : List (List Nat)) := by decide
  rw [← hrun _ rfl] at hmem
  obtain ⟨a,ha,hidx⟩ := List.mem_map.mp hmem
  have hten := hsound.indices a ha 10 (by rw [hidx]; decide)
  exact absurd hten (by decide)

end BitMap

end Athera
