import Athera.Bitmap.BitMap

/-!
# Ranges of bits

`alloc_range` takes the first run of free bits that is long enough, and `free_range` gives a run
back as a whole or not at all.
-/

namespace Athera.BitMap

open Framework

variable {bm : BitMap}

/-- What `alloc_range` and `free_range` promise. -/
structure RangeExact (bm : BitMap) : Prop where
  alloc : ∀ n, match bm.allocRange n with
    | (some s, bm') => n ≠ 0 ∧ IsLeast {s | s + n ≤ bm.bits ∧ FreeRun bm.words n s} s ∧
        bm'.bits = bm.bits ∧ bm'.used = bm.used + n ∧
        (∀ j, bitAt bm'.words j = (decide (s ≤ j ∧ j < s + n) || bitAt bm.words j)) ∧
        bm'.freeRange s (s + n) = (.ok (), bm)
    | (none, bm') => bm' = bm ∧ (n = 0 ∨ ¬ ∃ s, s + n ≤ bm.bits ∧ FreeRun bm.words n s)
  free : ∀ a b, match bm.freeRange a b with
    | (.ok (), bm') => a ≤ b ∧ b ≤ bm.bits ∧ (∀ j, a ≤ j → j < b → bitAt bm.words j = true) ∧
        bm'.bits = bm.bits ∧
        ∀ j, bitAt bm'.words j = (!decide (a ≤ j ∧ j < b) && bitAt bm.words j)
    | (.error e, bm') => bm' = bm ∧
        (e = .outOfRange ∧ ¬ (a ≤ b ∧ b ≤ bm.bits) ∨
          e = .alreadyFree ∧ a ≤ b ∧ b ≤ bm.bits ∧ ∃ j, a ≤ j ∧ j < b ∧ bitAt bm.words j = false)

theorem allocRange_cases (bm : BitMap) (n : Nat) : bm.allocRange n = (none, bm) ∧
        (n = 0 ∨ bm.available < n ∨ allocRangeIn bm.words bm.bits n = none) ∨
      ∃ s bm', bm.allocRange n = (some s, bm') ∧
        allocRangeIn bm.words bm.bits n = some (s, bm'.words) ∧ bm'.bits = bm.bits ∧
        bm'.used = wrap (bm.used+n) := by
  rw [allocRange]
  split
  next hno => exact .inl ⟨rfl,hno.imp_right .inl⟩
  next =>
    split
    next hnone => exact .inl ⟨rfl,.inr (.inr hnone)⟩
    next s words hsome => exact .inr ⟨s,_,rfl,hsome,rfl,rfl⟩

theorem freeRange_cases (bm : BitMap) (a b : Nat) :
    (∃ e, bm.freeRange a b = (.error e, bm) ∧ freeRangeIn bm.words bm.bits a b = .error e) ∨
      ∃ bm', bm.freeRange a b = (.ok (), bm') ∧
        freeRangeIn bm.words bm.bits a b = .ok bm'.words ∧ bm'.bits = bm.bits ∧
        bm'.used = wrap (bm.used+wordRange-(b-a)) := by
  rw [freeRange]
  split
  next e herr => exact .inl ⟨e,rfl,herr⟩
  next words hok => exact .inr ⟨_,rfl,hok,rfl,rfl⟩

variable {n s : Nat}

theorem Ok.add_le (h : bm.Ok) (hs : s+n ≤ bm.bits) (hfree : FreeRun bm.words n s) :
    bm.used+n ≤ bm.bits := by
  rw [h.count]
  exact hfree.count_le bm.fits hs

theorem Ok.available_eq (h : bm.Ok) : bm.available = bm.bits-bm.used :=
  wrap_sub h.used_le bm.bits_lt

theorem clearBits_setBits {words : List BitWord} (hs : s+n ≤ words.length*wordBits)
    (hfree : FreeRun words n s) : clearBits (setBits words s n) s n = words := by
  apply words_ext (length_clearBits.trans length_setBits)
  intro j
  rw [bitAt_clearBits (by rw [length_setBits]; exact hs),bitAt_setBits hs]
  by_cases hj : s ≤ j ∧ j < s+n
  · rw [decide_eq_true hj,hfree j hj.1 hj.2]
    rfl
  · rw [decide_eq_false hj]
    rfl

theorem Ok.allocRange_none (h : bm.Ok)
    (hnone : n = 0 ∨ bm.available < n ∨ allocRangeIn bm.words bm.bits n = none) :
    n = 0 ∨ ¬ ∃ s, s+n ≤ bm.bits ∧ FreeRun bm.words n s := by
  by_cases hn : n = 0
  · exact .inl hn
  · refine .inr fun ⟨s,hs,hfree⟩ => ?_
    have hroom := h.add_le hs hfree
    rcases hnone with h0 | hfew | hnone
    · exact hn h0
    · rw [h.available_eq] at hfew
      omega
    · exact absurd (allocRangeIn_eq_none hnone hn hfree) (by omega)

theorem Ok.freeRange_restores (h : bm.Ok) {bm' : BitMap} (hs : s+n ≤ bm.bits)
    (hfree : FreeRun bm.words n s) (hwords : bm'.words = setBits bm.words s n)
    (hbits : bm'.bits = bm.bits) (hused : bm'.used = bm.used+n) :
    bm'.freeRange s (s+n) = (.ok (), bm) := by
  have hroom := h.add_le hs hfree
  have hlt := bm.bits_lt
  have hset : ∀ j, s ≤ j → j < s+n → bitAt bm'.words j = true := by
    intro j hj hjn
    rw [hwords,bitAt_setBits (hs.trans bm.fits),decide_eq_true ⟨hj,hjn⟩,Bool.true_or]
  rcases bm'.freeRange_cases s (s+n) with ⟨e,_,herr⟩ | ⟨bm'',heq,hok,hbits',hused'⟩
  · rw [freeRangeIn,if_neg (by omega),if_neg] at herr
    · exact absurd herr (by simp)
    · rw [List.any_eq_true]
      rintro ⟨j,hj,hno⟩
      rw [List.mem_range'_1] at hj
      rw [isBitSet_eq_bitAt,hset j hj.1 (by omega)] at hno
      exact absurd hno (by decide)
  · have hclear := (freeRangeIn_spec hok).2.2.2
    rw [hwords,Nat.add_sub_cancel_left,clearBits_setBits (hs.trans bm.fits) hfree] at hclear
    rw [hused,Nat.add_sub_cancel_left,wrap_sub (by omega) (by omega),Nat.add_sub_cancel] at hused'
    rw [heq]
    congr 1
    exact BitMap.ext hclear (hbits'.trans hbits) hused'

theorem Ok.rangeExact (h : bm.Ok) : bm.RangeExact := by
  refine ⟨fun n => ?_,fun a b => ?_⟩
  · rcases bm.allocRange_cases n with ⟨heq,hnone⟩ | ⟨s,bm',heq,hsome,hbits,hused⟩
    · rw [heq]
      exact ⟨rfl,h.allocRange_none hnone⟩
    · rw [heq]
      obtain ⟨hpos,hs,hfree,hleast,hwords⟩ := allocRangeIn_least hsome
      have hlt := bm.bits_lt
      have hroom := h.add_le hs hfree
      rw [wrap_of_lt (by omega)] at hused
      refine ⟨by omega,⟨⟨hs,hfree⟩,fun s' hs' => hleast s' hs'.2⟩,hbits,hused,fun j => ?_,
        h.freeRange_restores hs hfree hwords hbits hused⟩
      rw [hwords,bitAt_setBits (hs.trans bm.fits)]
  · rcases bm.freeRange_cases a b with ⟨e,heq,herr⟩ | ⟨bm',heq,hok,hbits,_⟩
    · rw [heq]
      refine ⟨rfl,?_⟩
      rw [freeRangeIn] at herr
      split at herr
      next hrange => exact .inl ⟨(Except.error.inj herr).symm,by omega⟩
      next hrange =>
        split at herr
        next hany =>
          obtain ⟨j,hj,hno⟩ := List.any_eq_true.mp hany
          rw [List.mem_range'_1] at hj
          rw [isBitSet_eq_bitAt,Bool.not_eq_true'] at hno
          exact .inr ⟨(Except.error.inj herr).symm,by omega,by omega,j,hj.1,by omega,hno⟩
        · exact absurd herr (by simp)
    · rw [heq]
      obtain ⟨hle,hstop,hset,hwords⟩ := freeRangeIn_spec hok
      have hend : a+(b-a) = b := by omega
      have hbit := @bitAt_clearBits bm.words a (b-a) (hend.symm ▸ hstop.trans bm.fits)
      rw [hend] at hbit
      refine ⟨hle,hstop,hset,hbits,fun j => ?_⟩
      rw [hwords,hbit]

theorem Ok.bounded_of_small (h : bm.Ok) (hbits : bm.bits ≤ 1) : bm.Bounded := by
  intro start index hf
  obtain ⟨hlt,_,hused⟩ := findFreeFrom_some hf
  rw [findFreeFrom] at hf
  split at hf
  · exact absurd hf (by simp)
  next hne =>
    by_contra hge
    apply hne
    rw [h.count,countBelow_eq_all]
    intro j hj
    exact hused j (by omega) (by omega)

theorem follows_after (h : bm.Ok) (hs : bm.bits ≤ 1 ∨ bm.words.length = wordsFor bm.bits)
    (ops : List BitOp) : bm.Follows (after step bm ops) := by
  have hrun := @answers_invariant BitMap BitOp BitAnswer step (fun bm' => bm.Follows bm')
    (fun _ => True) ?_ bm (Follows.refl h) ops
  · exact hrun.1
  · intro bm' op hf
    have hbounded : bm'.Bounded := by
      rcases hs with hs | hs
      · exact hf.ok.bounded_of_small (hf.bits.symm ▸ hs)
      · exact (hf.sized (.inr hs)).bounded
    have hnext := step_follows hbounded hf.ok op
    exact ⟨trivial,hnext.bits.trans hf.bits,hnext.length.trans hf.length,hnext.ok⟩

/-- Where the search can leave the capacity, a bit beyond it is counted, and a run as long as all
other bits is not found any more. -/
theorem not_rangeExact_of_large (bm : BitMap) (hbits : 1 < bm.bits)
    (hs : bm.words.length ≠ wordsFor bm.bits) :
    ¬ (after step bm [.reset,.set (bm.bits-1),.allocFrom (bm.bits-1)]).RangeExact := by
  have hfits := bm.fits
  have hwords : wordsFor bm.bits < bm.words.length := by
    rw [wordsFor] at hs ⊢
    simp only [wordBits] at *
    omega
  have hmore : bm.bits < bm.words.length*wordBits := by
    rw [wordsFor] at hwords
    simp only [wordBits] at *
    omega
  have hlt := bm.bits_lt
  have hzero := bitAt_zeros bm.words.length
  have hlast : bm.bits-1 < bm.reset.bits := Nat.sub_lt (by omega) Nat.one_pos
  -- one bit below the capacity is used
  let bm₁ : BitMap := bm.reset.occupy (bm.bits-1)
  have hset : (bm.reset.set (bm.bits-1)).2 = bm₁ := by
    have hin : bm.reset.contains (bm.bits-1) = true := decide_eq_true hlast
    have hno : bm.reset.isAllocated (bm.bits-1) = false := by
      rw [isAllocated,isBitSet_eq_bitAt]
      simp only [reset,hzero,Bool.and_false]
    rw [set,hin,hno]
    rfl
  have hlen : bm₁.words.length = bm.words.length := length_setBit.trans List.length_replicate
  have hbit : ∀ j, bitAt bm₁.words j = decide (j = bm.bits-1) := by
    intro j
    refine (bitAt_setBit (Nat.lt_of_lt_of_le hlast bm.reset.fits)).trans ?_
    simp only [reset,hzero,Bool.or_false]
  have hused : bm₁.used = 1 := rfl
  -- and the search from there goes on behind it
  have hfind : bm₁.findFreeFrom (bm.bits-1) = some bm.bits := by
    have hne : bm₁.used ≠ bm₁.bits := fun he => absurd (he.symm.trans hused) (by
      show bm.bits ≠ 1
      omega)
    rw [findFreeFrom,if_neg hne,scanWords_spec bm₁.fits,hlen]
    show (if bm.bits ≤ bm.bits-1 then none else firstIn _ _ (scanLimit _ bm.bits)) = _
    rw [if_neg (by omega),firstIn_eq_some]
    refine ⟨?_,by omega,lt_scanLimit hwords,fun j hj hlt => ?_⟩
    · rw [hbit,decide_eq_false (by omega)]
      rfl
    · rw [hbit,decide_eq_true (by omega)]
      rfl
  intro hexact
  have halloc := hexact.alloc (bm.bits-1)
  simp only [after,step,Prod.map_snd,id_eq,hset] at halloc
  rw [allocFrom,hfind] at halloc
  have hused₂ : (bm₁.occupy bm.bits).used = 2 := rfl
  have hbits₂ : (bm₁.occupy bm.bits).bits = bm.bits := rfl
  have hav : (bm₁.occupy bm.bits).available = bm.bits-2 := by
    rw [available,hused₂,hbits₂,wrap_sub (by omega) hlt]
  rw [allocRange,if_pos (.inr (by rw [hav]; omega))] at halloc
  rcases halloc.2 with h0 | hnone
  · omega
  · apply hnone
    refine ⟨0,by rw [hbits₂]; omega,fun j _ hj => ?_⟩
    refine (bitAt_setBit (hlen.symm ▸ hmore)).trans ?_
    rw [hbit,decide_eq_false (by omega),decide_eq_false (by omega)]
    rfl

/-- Range allocation is first-fit and range release atomic in every state that a map reaches,
exactly for the maps of at most one bit and those whose capacity ends in the last word. -/
theorem range_exact_iff (origin : Origin) (h : origin.build = some bm) :
    (∀ ops, (after step bm ops).RangeExact) ↔
      bm.bits ≤ 1 ∨ bm.words.length = wordsFor bm.bits := by
  have hok := origin.build_ok h
  constructor
  · intro hall
    by_contra hs
    rw [not_or,Nat.not_le] at hs
    exact not_rangeExact_of_large bm hs.1 hs.2 (hall _)
  · intro hs ops
    exact (follows_after hok hs ops).ok.rangeExact

theorem range_exact_iff_ten : ∃ bm, (Origin.newWithCapacity 1 10).build = some bm ∧
    ∀ ops, (after step bm ops).RangeExact :=
  ⟨_,rfl,(range_exact_iff (.newWithCapacity 1 10) rfl).mpr (.inr rfl)⟩

/-- Ten bits in two words: with bit 9 used, `alloc_from` takes bit 10, and nine free bits are not
found any more. -/
theorem alloc_range_misses_run : ∃ bm, (Origin.newWithCapacity 2 10).build = some bm ∧
    ((after step bm [.set 9,.allocFrom 9]).allocRange 9).1 = none ∧
    ¬ (after step bm [.reset,.set 9,.allocFrom 9]).RangeExact := by
  have hrun : ∀ bm, (Origin.newWithCapacity 2 10).build = some bm →
      ((after step bm [.set 9,.allocFrom 9]).allocRange 9).1 = none := by
    intro bm hbm
    obtain rfl := Option.some.inj hbm
    decide
  exact ⟨_,rfl,hrun _ rfl,not_rangeExact_of_large _ (by decide) (by decide)⟩

end Athera.BitMap
