import Athera.Bitmap.BitMap

/-!
# Views on borrowed words

`BitMapView` has no counter: it counts the bits of all words when it is asked.
-/

namespace Athera

open Framework List Option BitMap

structure BitMapView where
  words : List BitWord
  bits : Nat
  fits : bits ≤ words.length * wordBits

namespace BitMapView

def newWithCapacity (words : List BitWord) (bits : Nat) : Option BitMapView :=
  if h : bits ≤ words.length * wordBits then some ⟨words,bits,h⟩ else none

section

variable (v : BitMapView)

def contains (index : Nat) : Bool := decide (index < v.bits)

def isAllocated (index : Nat) : Bool := v.contains index && isBitSet v.words index

def isFree (index : Nat) : Bool := v.contains index && !v.isAllocated index

def used : Nat := countUsed v.words

def available : Nat := wrap (v.bits + wordRange - v.used)

def setAt (index : Nat) : BitMapView where
  words := setBit v.words index
  bits := v.bits
  fits := by
    rw [length_setBit]
    exact v.fits

def clearAt (index : Nat) : BitMapView where
  words := clearBit v.words index
  bits := v.bits
  fits := by
    rw [length_clearBit]
    exact v.fits

def set (index : Nat) : Except BitMapError Unit × BitMapView :=
  if !v.contains index then (.error .outOfRange, v) else (.ok (), v.setAt index)

def clear (index : Nat) : Except BitMapError Unit × BitMapView :=
  if !v.contains index then (.error .outOfRange, v) else (.ok (), v.clearAt index)

def findFreeFrom (start : Nat) : Option Nat := scanWords v.words v.bits start true

def findUsedFrom (start : Nat) : Option Nat := scanWords v.words v.bits start false

def allocFrom (start : Nat) : Option Nat × BitMapView :=
  match v.findFreeFrom start with
  | none => (none, v)
  | some index => (some index, v.setAt index)

def allocSpecific (index : Nat) : Except BitMapError Unit × BitMapView :=
  if !v.contains index then (.error .outOfRange, v)
  else if v.isAllocated index then (.error .alreadySet, v)
  else (.ok (), v.setAt index)

def free (index : Nat) : Except BitMapError Unit × BitMapView :=
  if !v.contains index then (.error .outOfRange, v)
  else if !v.isAllocated index then (.error .alreadyFree, v)
  else (.ok (), v.clearAt index)

def allocRange (n : Nat) : Option Nat × BitMapView :=
  if n = 0 ∨ v.available < n then (none, v)
  else match h : allocRangeIn v.words v.bits n with
    | none => (none, v)
    | some (start, words) =>
      have hlen : words.length = v.words.length := by
        rw [(allocRangeIn_spec h).2.2.2,length_setBits]
      (some start, ⟨words,v.bits,hlen ▸ v.fits⟩)

def freeRange (start stop : Nat) : Except BitMapError Unit × BitMapView :=
  match h : freeRangeIn v.words v.bits start stop with
  | .error e => (.error e, v)
  | .ok words =>
    have hlen : words.length = v.words.length := by
      rw [(freeRangeIn_spec h).2.2.2,length_clearBits]
    (.ok (), ⟨words,v.bits,hlen ▸ v.fits⟩)

def reset : BitMapView where
  words := List.replicate v.words.length 0
  bits := v.bits
  fits := by
    rw [length_replicate]
    exact v.fits

def step : BitOp → BitAnswer × BitMapView
  | .set index => ((v.set index).map .done id)
  | .clear index => ((v.clear index).map .done id)
  | .alloc => ((v.allocFrom 0).map .index id)
  | .allocFrom start => ((v.allocFrom start).map .index id)
  | .allocSpecific index => ((v.allocSpecific index).map .done id)
  | .free index => ((v.free index).map .done id)
  | .allocRange n => ((v.allocRange n).map .index id)
  | .freeRange start stop => ((v.freeRange start stop).map .done id)
  | .reset => (.done (.ok ()), v.reset)
  | .get index =>
    (.bit (if v.contains index then .ok (isBitSet v.words index) else .error .outOfRange), v)
  | .isAllocated index => (.flag (v.isAllocated index), v)
  | .isFree index => (.flag (v.isFree index), v)
  | .findFree => (.index (v.findFreeFrom 0), v)
  | .findFreeFrom start => (.index (v.findFreeFrom start), v)
  | .findUsed => (.index (v.findUsedFrom 0), v)
  | .findUsedFrom start => (.index (v.findUsedFrom start), v)
  | .iterUsed => (.list (bitIterAll v.words v.bits false), v)
  | .iterFree => (.list (bitIterAll v.words v.bits true), v)
  | .used => (.number v.used, v)
  | .available => (.number v.available, v)
  | .isFull => (.flag (decide (v.used = v.bits)), v)
  | .isEmpty => (.flag (decide (v.used = 0)), v)

end

section

variable {bm : BitMap} {v : BitMapView}

structure Shows (bm : BitMap) (v : BitMapView) : Prop where
  words : v.words = bm.words
  bits : v.bits = bm.bits
  ok : bm.Ok
  sized : bm.Sized

section

variable (h : Shows bm v)
include h

theorem Shows.used : v.used = bm.used := by
  rw [BitMapView.used,h.words,h.ok.count]
  exact (countUsed_eq_iff bm.fits).mpr h.ok.clean

theorem Shows.available : v.available = bm.available := by
  rw [BitMapView.available,BitMap.available,h.used,h.bits]

theorem Shows.contains (index : Nat) : v.contains index = bm.contains index := by
  rw [BitMapView.contains,BitMap.contains,h.bits]

theorem Shows.isAllocated (index : Nat) : v.isAllocated index = bm.isAllocated index := by
  rw [BitMapView.isAllocated,BitMap.isAllocated,h.contains,h.words]

/-- The counter only says earlier what the search says too. -/
theorem Shows.findFreeFrom (start : Nat) : v.findFreeFrom start = bm.findFreeFrom start := by
  rw [BitMapView.findFreeFrom,BitMap.findFreeFrom,h.words,h.bits]
  split
  next hfull =>
    rw [h.ok.count,countBelow_eq_all] at hfull
    rw [scanWords_exact bm.fits h.sized,firstIn_eq_none]
    intro j _ hj
    rw [hfull j hj]
    rfl
  next => rfl

theorem Shows.findUsedFrom (start : Nat) : v.findUsedFrom start = bm.findUsedFrom start := by
  rw [BitMapView.findUsedFrom,BitMap.findUsedFrom,h.words,h.bits]
  split
  next hempty =>
    rw [h.ok.count,countBelow_eq_zero] at hempty
    rw [scanWords_exact bm.fits h.sized,firstIn_eq_none]
    intro j _ hj
    rw [hempty j hj]
    rfl
  next => rfl

end

/-- The two answer alike and go on alike. -/
def Alike {α : Type} (x : α × BitMap) (y : α × BitMapView) : Prop := x.1 = y.1 ∧ Shows x.2 y.2

section

variable (h : Shows bm v)
include h

theorem Shows.alike {α : Type} {x : α × BitMap} {y : α × BitMapView}
    (hf : bm.Follows x.2) (hsame : x.1 = y.1 ∧ y.2.words = x.2.words ∧ y.2.bits = v.bits) :
    Alike x y :=
  ⟨hsame.1,hsame.2.1,hsame.2.2.trans (h.bits.trans hf.bits.symm),hf.ok,hf.sized h.sized⟩

theorem Shows.setAt_words (index : Nat) :
    (v.setAt index).words = setBit bm.words index := congrArg (setBit · index) h.words

theorem Shows.clearAt_words (index : Nat) :
    (v.clearAt index).words = clearBit bm.words index := congrArg (clearBit · index) h.words

theorem set_alike (index : Nat) : Alike (bm.set index) (v.set index) := by
  apply h.alike (set_follows h.ok index)
  rw [BitMap.set,BitMapView.set,h.contains]
  split
  · exact ⟨rfl,h.words,rfl⟩
  · split
    · exact ⟨rfl,h.setAt_words index,rfl⟩
    next hset =>
      have hbit := (isAllocated_iff.mp (by simpa using hset)).2
      exact ⟨rfl,(h.setAt_words index).trans (setBit_of_set hbit),rfl⟩

theorem clear_alike (index : Nat) : Alike (bm.clear index) (v.clear index) := by
  apply h.alike (clear_follows h.ok index)
  rw [BitMap.clear,BitMapView.clear,h.contains]
  split
  · exact ⟨rfl,h.words,rfl⟩
  next hin =>
    have hi : index < bm.bits := by simpa [BitMap.contains] using hin
    split
    · exact ⟨rfl,h.clearAt_words index,rfl⟩
    next hno =>
      have hbit := bitAt_of_not_isAllocated hi (by simpa using hno)
      have hlt := Nat.lt_of_lt_of_le hi bm.fits
      exact ⟨rfl,(h.clearAt_words index).trans (clearBit_of_clear hlt hbit),rfl⟩

theorem allocFrom_alike (start : Nat) : Alike (bm.allocFrom start) (v.allocFrom start) := by
  apply h.alike (allocFrom_follows h.sized.bounded h.ok start).1
  rw [BitMap.allocFrom,BitMapView.allocFrom,h.findFreeFrom]
  cases bm.findFreeFrom start with
  | none => exact ⟨rfl,h.words,rfl⟩
  | some index => exact ⟨rfl,h.setAt_words index,rfl⟩

theorem allocSpecific_alike (index : Nat) :
    Alike (bm.allocSpecific index) (v.allocSpecific index) := by
  apply h.alike (allocSpecific_follows h.ok index)
  rw [BitMap.allocSpecific,BitMapView.allocSpecific,h.contains,h.isAllocated]
  split
  · exact ⟨rfl,h.words,rfl⟩
  · split
    · exact ⟨rfl,h.words,rfl⟩
    · exact ⟨rfl,h.setAt_words index,rfl⟩

theorem free_alike (index : Nat) : Alike (bm.free index) (v.free index) := by
  apply h.alike (free_follows h.ok index)
  rw [BitMap.free,BitMapView.free,h.contains,h.isAllocated]
  split
  · exact ⟨rfl,h.words,rfl⟩
  · split
    · exact ⟨rfl,h.words,rfl⟩
    · exact ⟨rfl,h.clearAt_words index,rfl⟩

theorem allocRange_alike (n : Nat) : Alike (bm.allocRange n) (v.allocRange n) := by
  apply h.alike (allocRange_follows h.ok n).1
  have hin : allocRangeIn v.words v.bits n = allocRangeIn bm.words bm.bits n := by
    rw [h.words,h.bits]
  rw [BitMap.allocRange,BitMapView.allocRange,h.available]
  split
  · exact ⟨rfl,h.words,rfl⟩
  · split
    next hnone =>
      split
      · exact ⟨rfl,h.words,rfl⟩
      next hsome => exact absurd (hnone.symm.trans (hin.symm.trans hsome)) (by simp)
    next start words hsome =>
      split
      next hnone => exact absurd (hsome.symm.trans (hin.symm.trans hnone)) (by simp)
      next start' words' hsome' =>
        have heq := some.inj (hsome.symm.trans (hin.symm.trans hsome'))
        obtain ⟨rfl,rfl⟩ := Prod.mk.inj heq
        exact ⟨rfl,rfl,rfl⟩

theorem freeRange_alike (start stop : Nat) :
    Alike (bm.freeRange start stop) (v.freeRange start stop) := by
  apply h.alike (freeRange_follows h.ok start stop)
  have hin : freeRangeIn v.words v.bits start stop = freeRangeIn bm.words bm.bits start stop := by
    rw [h.words,h.bits]
  rw [BitMap.freeRange,BitMapView.freeRange]
  split
  next e herr =>
    split
    next e' herr' =>
      have heq := Except.error.inj (herr.symm.trans (hin.symm.trans herr'))
      exact ⟨congrArg Except.error heq,h.words,rfl⟩
    next hok => exact absurd (herr.symm.trans (hin.symm.trans hok)) (by simp)
  next words hok =>
    split
    next herr => exact absurd (hok.symm.trans (hin.symm.trans herr)) (by simp)
    next words' hok' =>
      have heq := Except.ok.inj (hok.symm.trans (hin.symm.trans hok'))
      exact ⟨rfl,heq.symm,rfl⟩

theorem reset_alike : Alike ((.ok () : Except BitMapError Unit), bm.reset) (.ok (), v.reset) :=
  h.alike (reset_follows bm)
    ⟨rfl,congrArg (fun words : List BitWord => List.replicate words.length 0) h.words,rfl⟩

theorem step_alike (op : BitOp) : Alike (bm.step op) (v.step op) := by
  have hmap : ∀ {α : Type} {x : α × BitMap} {y : α × BitMapView} (f : α → BitAnswer),
      Alike x y → Alike (x.map f id) (y.map f id) := fun f hxy => ⟨congrArg f hxy.1,hxy.2⟩
  cases op with
  | set index => exact hmap .done (set_alike h index)
  | clear index => exact hmap .done (clear_alike h index)
  | alloc => exact hmap .index (allocFrom_alike h 0)
  | allocFrom start => exact hmap .index (allocFrom_alike h start)
  | allocSpecific index => exact hmap .done (allocSpecific_alike h index)
  | free index => exact hmap .done (free_alike h index)
  | allocRange n => exact hmap .index (allocRange_alike h n)
  | freeRange start stop => exact hmap .done (freeRange_alike h start stop)
  | reset => exact hmap .done (reset_alike h)
  | get index => exact ⟨by simp only [step,BitMap.step,h.contains,h.words],h⟩
  | isAllocated index => exact ⟨by simp only [step,BitMap.step,h.isAllocated],h⟩
  | isFree index =>
    exact ⟨by simp only [step,BitMap.step,isFree,BitMap.isFree,h.isAllocated,h.contains],h⟩
  | findFree => exact ⟨by simp only [step,BitMap.step,h.findFreeFrom],h⟩
  | findFreeFrom start => exact ⟨by simp only [step,BitMap.step,h.findFreeFrom],h⟩
  | findUsed => exact ⟨by simp only [step,BitMap.step,h.findUsedFrom],h⟩
  | findUsedFrom start => exact ⟨by simp only [step,BitMap.step,h.findUsedFrom],h⟩
  | iterUsed => exact ⟨by simp only [step,BitMap.step,h.words,h.bits],h⟩
  | iterFree => exact ⟨by simp only [step,BitMap.step,h.words,h.bits],h⟩
  | used => exact ⟨by simp only [step,BitMap.step,h.used],h⟩
  | available => exact ⟨by simp only [step,BitMap.step,h.available],h⟩
  | isFull => exact ⟨by simp only [step,BitMap.step,h.used,h.bits],h⟩
  | isEmpty => exact ⟨by simp only [step,BitMap.step,h.used],h⟩

end

/-- On words that hold just the capacity, an empty map and an empty view give the same answers
and end with the same words. -/
theorem view_agrees (bits : Nat) {bm : BitMap}
    (h : BitMap.newWithCapacity (wordsFor bits) bits = some bm) :
    ∃ v, BitMapView.newWithCapacity (List.replicate (wordsFor bits) 0) bits = some v ∧
      ∀ ops, answers BitMap.step bm ops = answers BitMapView.step v ops ∧
        (after BitMap.step bm ops).words = (after BitMapView.step v ops).words := by
  have hok := Origin.build_ok (.newWithCapacity (wordsFor bits) bits) h
  rw [BitMap.newWithCapacity] at h
  split at h
  next hfits =>
    obtain rfl := some.inj h
    have hlen : bits ≤ (List.replicate (wordsFor bits) (0 : BitWord)).length * wordBits := by
      rw [length_replicate]
      exact hfits.2
    refine ⟨⟨_,bits,hlen⟩,by rw [BitMapView.newWithCapacity,dif_pos hlen],fun ops => ?_⟩
    have hshows : Shows _ ⟨List.replicate (wordsFor bits) 0,bits,hlen⟩ :=
      ⟨rfl,rfl,hok,.inr length_replicate⟩
    have hsim := answers_simulation (R := Shows) (fun _ _ op hs => step_alike hs op) hshows ops
    exact ⟨hsim.1,hsim.2.words.symm⟩
  · exact absurd h (by simp)

theorem view_agrees_seventy : ∃ bm v, BitMap.newWithCapacity (wordsFor 70) 70 = some bm ∧
    BitMapView.newWithCapacity (List.replicate (wordsFor 70) 0) 70 = some v ∧
    ∀ ops, answers BitMap.step bm ops = answers BitMapView.step v ops ∧
      (after BitMap.step bm ops).words = (after BitMapView.step v ops).words := by
  obtain ⟨v,hv,hall⟩ := view_agrees 70 rfl
  exact ⟨_,v,rfl,hv,hall⟩

end

section

variable {words : List BitWord} {bits : Nat} {wantFree : Bool}

section

variable (hfits : bits ≤ words.length * wordBits) (h : bits = 0 ∨ words.length = wordsFor bits)
include hfits h

theorem bitIter_eq {fuel next : Nat} (hfuel : bits ≤ next+fuel) :
    bitIter words bits wantFree fuel next =
      (List.range' next (bits-next)).filter fun i => bitAt words i != wantFree := by
  induction fuel generalizing next with
  | zero =>
    have hnone : bits-next = 0 := by omega
    rw [hnone]
    rfl
  | succ fuel ih =>
    rw [bitIter,scanWords_exact hfits h]
    cases hf : firstIn (fun i => bitAt words i != wantFree) next bits with
    | none =>
      rw [firstIn_eq_none] at hf
      symm
      rw [filter_eq_nil_iff]
      intro i hi
      rw [mem_range'_1] at hi
      rw [hf i hi.1 (by omega)]
      exact Bool.false_ne_true
    | some i =>
      obtain ⟨hp,hle,hlt,hno⟩ := firstIn_eq_some.mp hf
      have hsplit : List.range' next (bits-next) =
          List.range' next (i-next)++i::List.range' (i+1) (bits-(i+1)) := by
        have hlen : bits-next = (i-next)+(bits-(i+1)+1) := by omega
        have hmid : next+(i-next) = i := by omega
        rw [hlen,← range'_append_1,hmid,range'_succ]
      have hskip : (List.range' next (i-next)).filter (fun i => bitAt words i != wantFree) = [] := by
        rw [filter_eq_nil_iff]
        intro j hj
        rw [mem_range'_1] at hj
        rw [hno j hj.1 (by omega)]
        exact Bool.false_ne_true
      dsimp only
      rw [hsplit,filter_append,hskip,nil_append,filter_cons,if_pos hp,ih (by omega)]

theorem bitIterAll_eq :
    bitIterAll words bits wantFree = (List.range bits).filter fun i => bitAt words i != wantFree := by
  rw [bitIterAll,bitIter_eq hfits h (by omega),range_eq_range',Nat.sub_zero]

end

/-- On words that hold just the capacity, whatever the bits beyond it, the searches find the first
bit of their kind, and the iterators list all of them in order. -/
theorem view_search_exact (v : BitMapView) (hwords : v.words.length = wordsFor v.bits) :
    (∀ start, (∀ i, v.findFreeFrom start = some i ↔
        IsLeast {i | start ≤ i ∧ i < v.bits ∧ bitAt v.words i = false} i) ∧
      (v.findFreeFrom start = none ↔ ∀ i, start ≤ i → i < v.bits → bitAt v.words i = true)) ∧
    (∀ start, (∀ i, v.findUsedFrom start = some i ↔
        IsLeast {i | start ≤ i ∧ i < v.bits ∧ bitAt v.words i = true} i) ∧
      (v.findUsedFrom start = none ↔ ∀ i, start ≤ i → i < v.bits → bitAt v.words i = false)) ∧
    (v.step .iterFree).1 = .list ((List.range v.bits).filter fun i => !bitAt v.words i) ∧
    (v.step .iterUsed).1 = .list ((List.range v.bits).filter fun i => bitAt v.words i) ∧
    ((v.step .iterUsed).1.indices ++ (v.step .iterFree).1.indices).Perm (List.range v.bits) := by
  have hfree := @bitIterAll_eq v.words v.bits true v.fits (.inr hwords)
  have hused := @bitIterAll_eq v.words v.bits false v.fits (.inr hwords)
  simp only [Bool.bne_true,Bool.bne_false] at hfree hused
  refine ⟨fun start => ?_,fun start => ?_,?_,?_,?_⟩
  · rw [findFreeFrom,scanWords_exact v.fits (.inr hwords),firstIn_eq_none]
    simp only [firstIn_eq_some_iff_isLeast,Bool.bne_true,Bool.not_eq_true',Bool.not_eq_false',
      implies_true,and_self]
  · rw [findUsedFrom,scanWords_exact v.fits (.inr hwords),firstIn_eq_none]
    simp only [firstIn_eq_some_iff_isLeast,Bool.bne_false,implies_true,and_self]
  · rw [step,hfree]
  · rw [step,hused]
  · simp only [step,hfree,hused]
    exact filter_append_perm _ _

/-- Seventy bits in two words, with the bits beyond the capacity set. -/
theorem view_search_exact_seventy : ∃ v, newWithCapacity [5,0xffffffffffffffc0] 70 = some v ∧
    (v.step .iterUsed).1 = .list [0,2] ∧
    (v.step .iterUsed).1 = .list ((List.range v.bits).filter fun i => bitAt v.words i) := by
  refine ⟨_,rfl,?_,(view_search_exact _ rfl).2.2.2.1⟩
  exact congrArg BitAnswer.list (by decide +kernel)

end

variable {v : BitMapView}

/-- What the bits below the capacity call for. -/
structure CountsCapacity (v : BitMapView) : Prop where
  used : v.used = countBelow (bitAt v.words) v.bits
  available : v.available = v.bits - countBelow (bitAt v.words) v.bits
  isFull : (v.step .isFull).1 = .flag true ↔ ∀ i < v.bits, bitAt v.words i = true
  allocRange : ∀ n, n ≠ 0 →
    ((v.allocRange n).1.isSome = true ↔ ∃ s, s + n ≤ v.bits ∧ FreeRun v.words n s)

theorem allocRange_fst (v : BitMapView) (n : Nat) :
    (v.allocRange n).1 = if n = 0 ∨ v.available < n then none
      else (allocRangeIn v.words v.bits n).map Prod.fst := by
  rw [allocRange]
  split
  · rfl
  · split
    next hnone => exact (congrArg (Option.map Prod.fst) hnone).symm
    next hsome => exact (congrArg (Option.map Prod.fst) hsome).symm

theorem countsCapacity_of_clean (hbits : v.bits < wordRange)
    (h : ∀ i, v.bits ≤ i → bitAt v.words i = false) : v.CountsCapacity := by
  have hused : v.used = countBelow (bitAt v.words) v.bits := (countUsed_eq_iff v.fits).mpr h
  have hle := countBelow_le (bitAt v.words) v.bits
  have havailable : v.available = v.bits-countBelow (bitAt v.words) v.bits := by
    rw [available,hused,wrap_sub hle hbits]
  refine ⟨hused,havailable,?_,fun n hn => ?_⟩
  · rw [step,hused,← countBelow_eq_all]
    simp
  · rw [allocRange_fst]
    constructor
    · intro hsome
      split at hsome
      · exact absurd hsome (by simp)
      · rw [isSome_map,isSome_iff_exists] at hsome
        obtain ⟨⟨s,words⟩,hs⟩ := hsome
        obtain ⟨_,hend,hfree,_⟩ := allocRangeIn_spec hs
        exact ⟨s,hend,hfree⟩
    · intro ⟨s,hend,hfree⟩
      have hroom := hfree.count_le v.fits hend
      rw [if_neg (by omega),isSome_map,isSome_iff_ne_none]
      intro hnone
      exact absurd (allocRangeIn_eq_none hnone hn hfree) (by omega)

/-- A view reports on the bits below the capacity exactly when the bits beyond it are clear. -/
theorem reserved_bits_iff (v : BitMapView) (hbits : v.bits < wordRange) :
    v.CountsCapacity ↔ ∀ i, v.bits ≤ i → bitAt v.words i = false :=
  ⟨fun h => (countUsed_eq_iff v.fits).mp h.used,countsCapacity_of_clean hbits⟩

theorem reserved_bits_iff_seventy : ∃ v, newWithCapacity [5,1] 70 = some v ∧ v.CountsCapacity := by
  refine ⟨_,rfl,(reserved_bits_iff _ (by decide)).mpr fun i hi => ?_⟩
  by_cases hlt : i < 128
  · have hall : ∀ i < 128, 70 ≤ i → bitAt [5,1] i = false := by decide
    exact hall i hlt hi
  · exact bitAt_of_length_le (by simp only [wordBits,length_cons,length_nil]; omega)

/-- Sixty-three free bits and a reserved one that is set: one bit counts as used, and the run of
all free bits is refused. -/
theorem reserved_bit_counts : ∃ v, newWithCapacity [0x8000000000000000] 63 = some v ∧
    v.used = 1 ∧ (∀ i < 63, bitAt v.words i = false) ∧ (v.allocRange 63).1 = none ∧
    ¬ v.CountsCapacity := by
  have hused : countUsed [0x8000000000000000] = 1 := by decide
  have hfree : ∀ i < 63, bitAt [0x8000000000000000] i = false := by decide
  refine ⟨_,rfl,hused,hfree,?_,fun h => ?_⟩
  · decide
  · have hzero := h.used.trans (countBelow_eq_zero.mpr hfree)
    exact absurd hzero (by decide)

end BitMapView

end Athera
