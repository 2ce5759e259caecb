import Athera.Framework.Indices
import Athera.Framework.Word

/-!
# Bits in machine words

The shared lower half of `athera-bitmap`. The search masks the bits beyond the capacity in the last
word only.
-/

namespace Athera

open Framework List

/-- `usize::BITS`. -/
def wordBits : Nat := 64

abbrev BitWord := BitVec 64

inductive BitMapError where
  | outOfRange
  | alreadySet
  | alreadyFree
  | lengthMismatch
  | misaligned
deriving DecidableEq, Repr

def wordsFor (bits : Nat) : Nat := (bits + wordBits - 1) / wordBits

variable {words' : List BitWord}

section

section

variable (words : List BitWord)

def isBitSet (index : Nat) : Bool :=
  words.getD (index / wordBits) 0 &&& (1#64 <<< (index % wordBits)) != 0

def setBit (index : Nat) : List BitWord :=
  words.modify (index / wordBits) fun w => w ||| 1#64 <<< (index % wordBits)

def clearBit (index : Nat) : List BitWord :=
  words.modify (index / wordBits) fun w => w &&& ~~~(1#64 <<< (index % wordBits))

def countOnes (w : BitWord) : Nat := countBelow w.getLsbD wordBits

def countUsed : Nat := (words.map countOnes).sum

def bitAt (index : Nat) : Bool :=
  (words.getD (index / wordBits) 0).getLsbD (index % wordBits)

end

variable {words : List BitWord} {i j : Nat}

theorem mod_wordBits_lt (i : Nat) : i%wordBits < 64 := Nat.mod_lt _ (by decide)

theorem getLsbD_oneBit {k l : Nat} (hk : k < 64) : (1#64 <<< k).getLsbD l = decide (l = k) := by
  by_cases h : l = k
  · subst h
    simp [hk]
  · by_cases hlt : l < k
    · simp [h,hlt]
    · have hne : l-k ≠ 0 := by omega
      simp [h,hne]

theorem isBitSet_eq_bitAt : isBitSet words i = bitAt words i := by
  rw [isBitSet,bitAt,Bool.eq_iff_iff,bne_iff_ne]
  generalize words.getD (i/wordBits) 0 = w
  have hk := mod_wordBits_lt i
  generalize i%wordBits = k at hk ⊢
  constructor
  · intro hne
    by_contra hno
    apply hne
    apply BitVec.eq_of_getLsbD_eq
    intro l hl
    rw [BitVec.getLsbD_and,getLsbD_oneBit hk]
    by_cases h : l = k
    · subst h
      simp [hno]
    · simp [h]
  · intro hset hzero
    have h := congrArg (fun w : BitWord => w.getLsbD k) hzero
    simp [hset,getLsbD_oneBit hk] at h

theorem length_setBit : (setBit words i).length = words.length := length_modify ..

theorem length_clearBit : (clearBit words i).length = words.length := length_modify ..

theorem bitAt_modify {f : BitWord → BitWord} (hi : i < words.length*wordBits) :
    bitAt (words.modify (i/wordBits) f) j =
      if j/wordBits = i/wordBits then (f (words.getD (i/wordBits) 0)).getLsbD (j%wordBits)
      else bitAt words j := by
  have hlt : i/wordBits < words.length := by
    rw [Nat.div_lt_iff_lt_mul (by decide)]
    exact hi
  rw [bitAt,bitAt]
  by_cases h : j/wordBits = i/wordBits
  · rw [h]
    simp [hlt]
  · rw [if_neg h]
    simp [Ne.symm h]

theorem index_eq_iff : j = i ↔ j/wordBits = i/wordBits ∧ j%wordBits = i%wordBits := by
  simp only [wordBits]
  omega

theorem bitAt_setBit (hi : i < words.length*wordBits) :
    bitAt (setBit words i) j = (decide (j = i) || bitAt words j) := by
  rw [setBit,bitAt_modify hi]
  split
  next h =>
    rw [BitVec.getLsbD_or,getLsbD_oneBit (mod_wordBits_lt i),bitAt,h]
    by_cases he : j%wordBits = i%wordBits
    · have heq : j = i := index_eq_iff.mpr ⟨h,he⟩
      simp [heq]
    · have hne : j ≠ i := fun heq => he (heq ▸ rfl)
      simp [he,hne]
  next h =>
    have hne : j ≠ i := fun he => h (he ▸ rfl)
    simp [hne]

theorem bitAt_clearBit (hi : i < words.length*wordBits) :
    bitAt (clearBit words i) j = (decide (j ≠ i) && bitAt words j) := by
  rw [clearBit,bitAt_modify hi]
  split
  next h =>
    rw [BitVec.getLsbD_and,BitVec.getLsbD_not,getLsbD_oneBit (mod_wordBits_lt i),bitAt,h]
    have hlt : decide (j%wordBits < 64) = true := decide_eq_true (mod_wordBits_lt j)
    rw [hlt]
    by_cases he : j%wordBits = i%wordBits
    · have heq : j = i := index_eq_iff.mpr ⟨h,he⟩
      simp [heq]
    · have hne : j ≠ i := fun heq => he (heq ▸ rfl)
      simp [he,hne]
  next h =>
    have hne : j ≠ i := fun he => h (he ▸ rfl)
    simp [hne]

theorem bitAt_of_length_le (h : words.length*wordBits ≤ i) : bitAt words i = false := by
  have hle : words.length ≤ i/wordBits := (Nat.le_div_iff_mul_le (by decide)).mpr h
  rw [bitAt,getD_eq_default _ _ hle]
  simp

theorem bitAt_cons {w : BitWord} (i : Nat) :
    bitAt (w::words) i = if i < wordBits then w.getLsbD i else bitAt words (i-wordBits) := by
  split
  next h =>
    rw [bitAt,Nat.div_eq_of_lt h,Nat.mod_eq_of_lt h]
    rfl
  next h =>
    have hdiv : i/wordBits = (i-wordBits)/wordBits+1 := by
      simp only [wordBits] at *
      omega
    have hmod : i%wordBits = (i-wordBits)%wordBits := by
      simp only [wordBits] at *
      omega
    rw [bitAt,hdiv,hmod]
    rfl

theorem words_ext (hlen : words'.length = words.length)
    (h : ∀ i, bitAt words' i = bitAt words i) : words' = words := by
  apply ext_getElem hlen
  intro k hk hk'
  apply BitVec.eq_of_getLsbD_eq
  intro l hl
  have hdiv : (k*wordBits+l)/wordBits = k := by
    simp only [wordBits]
    omega
  have hmod : (k*wordBits+l)%wordBits = l := by
    simp only [wordBits]
    omega
  have hbit := h (k*wordBits+l)
  rw [bitAt,bitAt,hdiv,hmod,getD_eq_getElem _ _ hk,getD_eq_getElem _ _ hk'] at hbit
  exact hbit

theorem setBit_of_set (h : bitAt words i = true) : setBit words i = words := by
  have hi : i < words.length*wordBits := by
    by_contra hge
    rw [bitAt_of_length_le (Nat.le_of_not_lt hge)] at h
    exact Bool.false_ne_true h
  apply words_ext length_setBit
  intro j
  rw [bitAt_setBit hi]
  by_cases hj : j = i
  · rw [hj,h,Bool.or_true]
  · rw [decide_eq_false hj,Bool.false_or]

theorem clearBit_of_clear (hi : i < words.length*wordBits) (h : bitAt words i = false) :
    clearBit words i = words := by
  apply words_ext length_clearBit
  intro j
  rw [bitAt_clearBit hi]
  by_cases hj : j = i
  · rw [hj,h,Bool.and_false]
  · rw [decide_eq_true hj,Bool.true_and]

theorem bitAt_append_zeros (words : List BitWord) (n i : Nat) :
    bitAt (words++List.replicate n 0) i = bitAt words i := by
  rw [bitAt,bitAt,getD_eq_getElem?_getD,getD_eq_getElem?_getD,getElem?_append]
  by_cases h : i/wordBits < words.length
  · rw [if_pos h]
  · rw [if_neg h,getElem?_eq_none (Nat.le_of_not_lt h),getElem?_replicate]
    split <;> rfl

theorem bitAt_zeros (n i : Nat) : bitAt (List.replicate n 0) i = false := by
  have h := bitAt_append_zeros [] n i
  rw [nil_append] at h
  rw [h]
  exact bitAt_of_length_le (Nat.zero_le i)

theorem countUsed_eq : countUsed words = countBelow (bitAt words) (words.length*wordBits) := by
  induction words with
  | nil => rfl
  | cons w words ih =>
    have hlen : (w::words).length*wordBits = wordBits+words.length*wordBits := by
      rw [length_cons]
      simp only [wordBits]
      omega
    have hfirst : countBelow (bitAt (w::words)) wordBits = countOnes w := by
      apply countBelow_congr
      intro j hj
      rw [bitAt_cons,if_pos hj]
    have hrest : countBelow (fun j => bitAt (w::words) (wordBits+j)) (words.length*wordBits) =
        countUsed words := by
      rw [ih]
      apply countBelow_congr
      intro j hj
      have hge : ¬ wordBits+j < wordBits := by omega
      rw [bitAt_cons (wordBits+j),if_neg hge,Nat.add_sub_cancel_left]
    rw [hlen,countBelow_add,hfirst,hrest]
    rfl

/-- The count of all words is that of the capacity if and only if no bit beyond it is set. -/
theorem countUsed_eq_iff {bits : Nat} (hfits : bits ≤ words.length*wordBits) :
    countUsed words = countBelow (bitAt words) bits ↔ ∀ i, bits ≤ i → bitAt words i = false := by
  obtain ⟨k,hk⟩ := Nat.exists_eq_add_of_le hfits
  rw [countUsed_eq,hk,countBelow_add,Nat.add_eq_left,countBelow_eq_zero]
  constructor
  · intro h i hi
    by_cases hlt : i < words.length*wordBits
    · have hbit := h (i-bits) (by omega)
      rwa [Nat.add_sub_cancel' hi] at hbit
    · exact bitAt_of_length_le (Nat.le_of_not_lt hlt)
  · intro h j _
    exact h _ (Nat.le_add_right bits j)

end

section

def lowMask (n : Nat) : BitWord := (1#64 <<< n) - 1#64

/-- One turn of the loop of `scan_words`: the bits of the word that are looked for. -/
def scanWord (w : BitWord) (mask : BitWord) (wantFree : Bool) : BitWord :=
  if wantFree then ~~~(w ||| mask) else w &&& ~~~mask

/-- The loop of `scan_words` over the words from the given number on. -/
def scanLoop (bits last : Nat) (wantFree : Bool) : Nat → BitWord → List BitWord → Option Nat
  | _, _, [] => none
  | word, mask, w :: ws =>
    let w := scanWord w mask wantFree
    let w := if word = last ∧ bits % wordBits ≠ 0 then w &&& lowMask (bits % wordBits) else w
    if w ≠ 0 then some (word * wordBits + w.ctz.toNat)
    else if word = last then none
    else scanLoop bits last wantFree (word + 1) 0 ws

def scanWords (words : List BitWord) (bits start : Nat) (wantFree : Bool) : Option Nat :=
  if words.isEmpty ∨ bits ≤ start then none
  else scanLoop bits (words.length - 1) wantFree (start / wordBits) (lowMask (start % wordBits))
    (words.drop (start / wordBits))

/-- Where the search really ends. -/
def scanLimit (len bits : Nat) : Nat :=
  if bits % wordBits = 0 then len * wordBits else (len - 1) * wordBits + bits % wordBits

theorem le_scanLimit (len bits : Nat) : (len-1)*wordBits ≤ scanLimit len bits := by
  rw [scanLimit]
  split
  · exact Nat.mul_le_mul_right _ (Nat.sub_le len 1)
  · exact Nat.le_add_right _ _

theorem getLsbD_lowMask {n l : Nat} (hn : n < 64) : (lowMask n).getLsbD l = decide (l < n) := by
  have hpow : 2^n < 2^64 := Nat.pow_lt_pow_right (by decide) hn
  have hone : (1#64 <<< n).toNat = 2^n := by
    rw [BitVec.toNat_shiftLeft,Nat.shiftLeft_eq]
    simpa using Nat.mod_eq_of_lt hpow
  have hle : 1 ≤ 2^n := Nat.one_le_two_pow
  have hmask : (lowMask n).toNat = 2^n-1 := by
    rw [lowMask,BitVec.toNat_sub_of_le (by rw [BitVec.le_def,hone]; exact hle),hone]
    rfl
  rw [← BitVec.testBit_toNat,hmask,Nat.testBit_two_pow_sub_one]

theorem getLsbD_scanWord {w : BitWord} {n l : Nat} {wantFree : Bool} (hn : n < 64) (hl : l < 64) :
    (scanWord w (lowMask n) wantFree).getLsbD l =
      (decide (n ≤ l) && (w.getLsbD l != wantFree)) := by
  rw [scanWord]
  cases wantFree with
  | true =>
    rw [if_pos rfl,BitVec.getLsbD_not,BitVec.getLsbD_or,getLsbD_lowMask hn]
    by_cases h : l < n
    · have hle : ¬ n ≤ l := by omega
      simp [h]
    · have hle : n ≤ l := by omega
      simp [hle,hl]
  | false =>
    rw [if_neg Bool.false_ne_true,BitVec.getLsbD_and,BitVec.getLsbD_not,getLsbD_lowMask hn]
    by_cases h : l < n
    · have hle : ¬ n ≤ l := by omega
      simp [h]
    · have hle : n ≤ l := by omega
      simp [hle,hl]

theorem firstIn_getLsbD (w : BitWord) :
    firstIn w.getLsbD 0 64 = if w ≠ 0 then some w.ctz.toNat else none := by
  by_cases hw : w = 0
  · rw [if_neg (not_not.mpr hw),firstIn_eq_none]
    simp [hw]
  · rw [if_pos hw,firstIn_eq_some]
    refine ⟨BitVec.getLsbD_true_ctz_of_ne_zero hw,Nat.zero_le _,?_,?_⟩
    · by_contra hge
      have h := BitVec.getLsbD_true_ctz_of_ne_zero hw
      rw [BitVec.getLsbD_of_ge _ _ (by omega)] at h
      exact Bool.false_ne_true h
    · intro j _ hj
      exact BitVec.getLsbD_false_of_lt_ctz hj

theorem firstIn_masked {x : BitWord} {g : Nat → Bool} {n m : Nat} (hm : m ≤ 64)
    (hx : ∀ l < 64, x.getLsbD l = (decide (n ≤ l) && decide (l < m) && g l)) :
    firstIn x.getLsbD 0 64 = firstIn g n m := by
  cases hg : firstIn g n m with
  | none =>
    rw [firstIn_eq_none] at hg ⊢
    intro l _ hl
    rw [hx l hl]
    by_cases hin : n ≤ l ∧ l < m
    · simp [hg l hin.1 hin.2]
    · by_cases hle : n ≤ l
      · have hge : ¬ l < m := fun hlt => hin ⟨hle,hlt⟩
        simp [hge]
      · simp [hle]
  | some i =>
    rw [firstIn_eq_some] at hg ⊢
    obtain ⟨hi,hle,hlt,hno⟩ := hg
    refine ⟨?_,Nat.zero_le _,by omega,fun j _ hj => ?_⟩
    · rw [hx i (by omega)]
      simp [hi,hle,hlt]
    · rw [hx j (by omega)]
      by_cases hnj : n ≤ j
      · simp [hno j hnj hj]
      · simp [hnj]

variable {words : List BitWord} {bits : Nat} {wantFree : Bool}

theorem firstIn_word {word n m : Nat} (hm : m ≤ 64) {x : BitWord} (hx : ∀ l < 64, x.getLsbD l =
      (decide (n ≤ l) && decide (l < m) && ((words.getD word 0).getLsbD l != wantFree))) :
    firstIn (fun i => bitAt words i != wantFree) (word*wordBits+n) (word*wordBits+m) =
      if x ≠ 0 then some (word*wordBits+x.ctz.toNat) else none := by
  have hbit : ∀ l, n ≤ l → l < m → (bitAt words (word*wordBits+l) != wantFree) =
      ((words.getD word 0).getLsbD l != wantFree) := by
    intro l _ hl
    have hdiv : (word*wordBits+l)/wordBits = word := by
      simp only [wordBits]
      omega
    have hmod : (word*wordBits+l)%wordBits = l := by
      simp only [wordBits]
      omega
    rw [bitAt,hdiv,hmod]
  rw [firstIn_shift,firstIn_congr hbit,← firstIn_masked hm hx,firstIn_getLsbD]
  split <;> rfl

theorem scanWord_at {word n : Nat} (hn : n < 64) (hword : word < words.length) :
    ∀ l < 64, (scanWord words[word] (lowMask n) wantFree).getLsbD l =
      (decide (n ≤ l) && decide (l < 64) && ((words.getD word 0).getLsbD l != wantFree)) := by
  intro l hl
  rw [getLsbD_scanWord hn hl,getD_eq_getElem _ _ hword,decide_eq_true hl,Bool.and_true]

theorem scanLoop_spec {word n : Nat} (hn : n < 64) (hword : word < words.length) :
    scanLoop bits (words.length-1) wantFree word (lowMask n) (words.drop word) =
      firstIn (fun i => bitAt words i != wantFree) (word*wordBits+n)
        (scanLimit words.length bits) := by
  -- the induction is on the words after this one
  generalize hk : words.length-1-word = k
  induction k generalizing word n with
  | zero =>
    have hlast : word = words.length-1 := by omega
    rw [drop_eq_getElem_cons hword,scanLoop]
    by_cases hbits : bits%wordBits = 0
    · have hlimit : scanLimit words.length bits = word*wordBits+64 := by
        rw [scanLimit,if_pos hbits]
        simp only [wordBits]
        omega
      simp only [hlimit,hbits,ne_eq,not_true_eq_false,and_false,if_false]
      rw [firstIn_word le_rfl (scanWord_at hn hword)]
      simp only [if_pos hlast]
    · have hlt : bits%wordBits < 64 := Nat.mod_lt _ (by decide)
      have hlimit : scanLimit words.length bits = word*wordBits+bits%wordBits := by
        rw [scanLimit,if_neg hbits,hlast]
      have hx : ∀ l < 64,
          (scanWord words[word] (lowMask n) wantFree &&& lowMask (bits%wordBits)).getLsbD l =
          (decide (n ≤ l) && decide (l < bits%wordBits) &&
            ((words.getD word 0).getLsbD l != wantFree)) := by
        intro l hl
        rw [BitVec.getLsbD_and,getLsbD_scanWord hn hl,getLsbD_lowMask hlt,
          getD_eq_getElem _ _ hword,Bool.and_assoc,Bool.and_assoc,Bool.and_comm (decide (l < _))]
      have hcond : word = words.length-1 ∧ bits%wordBits ≠ 0 := ⟨hlast,hbits⟩
      simp only [hlimit,if_pos hcond]
      rw [firstIn_word (by omega) hx]
      simp only [if_pos hlast]
  | succ k ih =>
    have hnot : word ≠ words.length-1 := by omega
    have hnext : word+1 < words.length := by omega
    rw [drop_eq_getElem_cons hword,scanLoop]
    have hrest := @ih (word+1) 0 (by decide) hnext (by omega)
    rw [Nat.add_zero ((word+1)*wordBits)] at hrest
    have hstop : word*wordBits+64 = (word+1)*wordBits := by
      simp only [wordBits]
      omega
    have hle : (word+1)*wordBits ≤ scanLimit words.length bits :=
      (Nat.mul_le_mul_right _ (by omega)).trans (le_scanLimit words.length bits)
    have hcond : ¬ (word = words.length-1 ∧ bits%wordBits ≠ 0) := fun h => hnot h.1
    rw [firstIn_append (by omega) hle,← hstop,
      firstIn_word le_rfl (scanWord_at hn hword),hstop,← hrest]
    simp only [if_neg hcond]
    split <;> rfl

/-- `scan_words` finds the first bit of the kind looked for, up to where the last word is
masked. -/
theorem scanWords_spec {start : Nat} (hfits : bits ≤ words.length*wordBits) :
    scanWords words bits start wantFree = if bits ≤ start then none
      else firstIn (fun i => bitAt words i != wantFree) start (scanLimit words.length bits) := by
  rw [scanWords]
  by_cases hstart : bits ≤ start
  · rw [if_pos (.inr hstart),if_pos hstart]
  · have hword : start/wordBits < words.length := by
      rw [Nat.div_lt_iff_lt_mul (by decide)]
      omega
    have hne : ¬ (words.isEmpty = true ∨ bits ≤ start) := by
      rintro (h | h)
      · rw [List.isEmpty_iff.mp h] at hword
        exact Nat.not_lt_zero _ hword
      · exact hstart h
    have hsplit : start/wordBits*wordBits+start%wordBits = start := by
      simp only [wordBits]
      omega
    rw [if_neg hne,if_neg hstart,scanLoop_spec (mod_wordBits_lt start) hword,hsplit]

theorem scanLimit_of_wordsFor (h : words.length = wordsFor bits) :
    scanLimit words.length bits = bits := by
  rw [scanLimit,h,wordsFor]
  split
  · simp only [wordBits] at *
    omega
  · simp only [wordBits] at *
    omega

theorem scanWords_exact (hfits : bits ≤ words.length*wordBits)
    (h : bits = 0 ∨ words.length = wordsFor bits) (start : Nat) :
    scanWords words bits start wantFree =
      firstIn (fun i => bitAt words i != wantFree) start bits := by
  rw [scanWords_spec hfits]
  split
  next hle => rw [firstIn_empty hle]
  next hlt =>
    rcases h with h | h
    · omega
    · rw [scanLimit_of_wordsFor h]

end

def setBits (words : List BitWord) (start n : Nat) : List BitWord :=
  (List.range' start n).foldl setBit words

def clearBits (words : List BitWord) (start n : Nat) : List BitWord :=
  (List.range' start n).foldl clearBit words

/-- The loop of `alloc_range_in` over the given indices: where a run of `n` free bits starts. -/
def allocRangeLoop (words : List BitWord) (n : Nat) : List Nat → Nat → Nat → Option Nat
  | [], _, _ => none
  | i :: is, runStart, runLen =>
    if isBitSet words i then allocRangeLoop words n is runStart 0
    else
      let runStart := if runLen = 0 then i else runStart
      if runLen + 1 = n then some runStart else allocRangeLoop words n is runStart (runLen + 1)

def allocRangeIn (words : List BitWord) (bits n : Nat) : Option (Nat × List BitWord) :=
  if n = 0 then none
  else (allocRangeLoop words n (List.range bits) 0 0).map fun start => (start, setBits words start n)

def freeRangeIn (words : List BitWord) (bits start stop : Nat) : Except BitMapError (List BitWord) :=
  if stop < start ∨ bits < stop then .error .outOfRange
  else if (List.range' start (stop - start)).any fun i => !isBitSet words i then .error .alreadyFree
  else .ok (clearBits words start (stop - start))

variable {words : List BitWord} {bits start n : Nat}

theorem length_setBits : (setBits words start n).length = words.length := by
  rw [setBits]
  generalize List.range' start n = is
  induction is generalizing words with
  | nil => rfl
  | cons i is ih => rw [foldl_cons,ih,length_setBit]

theorem length_clearBits : (clearBits words start n).length = words.length := by
  rw [clearBits]
  generalize List.range' start n = is
  induction is generalizing words with
  | nil => rfl
  | cons i is ih => rw [foldl_cons,ih,length_clearBit]

theorem bitAt_setBits (h : start+n ≤ words.length*wordBits) (j : Nat) :
    bitAt (setBits words start n) j = (decide (start ≤ j ∧ j < start+n) || bitAt words j) := by
  induction n generalizing words start with
  | zero =>
    have hno : ¬ (start ≤ j ∧ j < start+0) := by omega
    rw [decide_eq_false hno]
    rfl
  | succ n ih =>
    have hcons : setBits words start (n+1) = setBits (setBit words start) (start+1) n := rfl
    rw [hcons,ih (by rw [length_setBit]; omega),bitAt_setBit (by omega),← Bool.or_assoc]
    congr 1
    rw [Bool.eq_iff_iff]
    simp only [Bool.or_eq_true,decide_eq_true_eq]
    omega

theorem bitAt_clearBits (h : start+n ≤ words.length*wordBits) (j : Nat) :
    bitAt (clearBits words start n) j = (!decide (start ≤ j ∧ j < start+n) && bitAt words j) := by
  induction n generalizing words start with
  | zero =>
    have hno : ¬ (start ≤ j ∧ j < start+0) := by omega
    rw [decide_eq_false hno]
    rfl
  | succ n ih =>
    have hcons : clearBits words start (n+1) = clearBits (clearBit words start) (start+1) n := rfl
    rw [hcons,ih (by rw [length_clearBit]; omega),bitAt_clearBit (by omega),← Bool.and_assoc]
    congr 1
    rw [Bool.eq_iff_iff]
    simp only [Bool.and_eq_true,Bool.not_eq_true',decide_eq_true_eq,decide_eq_false_iff_not]
    omega

def FreeRun (words : List BitWord) (n start : Nat) : Prop :=
  ∀ j, start ≤ j → j < start + n → bitAt words j = false

theorem countBelow_setBits (hfits : bits ≤ words.length*wordBits) (hle : start+n ≤ bits)
    (hfree : FreeRun words n start) :
    countBelow (bitAt (setBits words start n)) bits = countBelow (bitAt words) bits+n := by
  have hbit := bitAt_setBits (hle.trans hfits)
  apply countBelow_insertRange hle hfree
  · intro j hj hlt
    rw [hbit,decide_eq_true ⟨hj,hlt⟩,Bool.true_or]
  · intro j hj
    rw [hbit,decide_eq_false (by omega),Bool.false_or]

theorem FreeRun.count_le (hfree : FreeRun words n start) (hfits : bits ≤ words.length*wordBits)
    (hle : start+n ≤ bits) : countBelow (bitAt words) bits+n ≤ bits := by
  rw [← countBelow_setBits hfits hle hfree]
  exact countBelow_le _ _

/-- The loop finds the first run of free bits that ends below the bound. -/
theorem allocRangeLoop_spec {k i runStart runLen : Nat} (hn : runLen < n)
    (hrun : runLen = 0 ∨ runStart+runLen = i) (hfree : FreeRun words runLen runStart)
    (hfirst : ∀ s, FreeRun words n s → i ≤ s+runLen) :
    match allocRangeLoop words n (List.range' i k) runStart runLen with
    | none => ∀ s, FreeRun words n s → i+k < s+n
    | some start => start+n ≤ i+k ∧ FreeRun words n start ∧ ∀ s, FreeRun words n s → start ≤ s := by
  induction k generalizing i runStart runLen with
  | zero =>
    intro s hs
    have hle := hfirst s hs
    omega
  | succ k ih =>
    have hend : i+(k+1) = i+1+k := by omega
    rw [range'_succ,allocRangeLoop,isBitSet_eq_bitAt,hend]
    cases hbit : bitAt words i with
    | true =>
      apply ih (by omega) (.inl rfl) (fun j hj hlt => absurd hlt (by omega))
      -- a run that starts before this bit would contain it
      intro s hs
      by_contra hlt
      have hle := hfirst s hs
      rw [hs i (by omega) (by omega)] at hbit
      exact Bool.false_ne_true hbit
    | false =>
      have hstop : (if runLen = 0 then i else runStart)+(runLen+1) = i+1 := by
        split <;> omega
      have hext : FreeRun words (runLen+1) (if runLen = 0 then i else runStart) := by
        intro j hj hlt
        by_cases hji : j = i
        · rw [hji]
          exact hbit
        · have hz : runLen ≠ 0 := fun hz => by
            omega
          rw [if_neg hz] at hj hlt
          exact hfree j hj (by omega)
      by_cases hlen : runLen+1 = n
      · rw [hlen] at hext hstop
        rw [if_pos hlen]
        refine ⟨by omega,hext,fun s hs => ?_⟩
        have hle := hfirst s hs
        omega
      · rw [if_neg hlen]
        apply ih (by omega) (.inr hstop) hext
        intro s hs
        have hle := hfirst s hs
        omega

theorem allocRangeIn_eq_none (h : allocRangeIn words bits n = none) {s : Nat} (hn : n ≠ 0)
    (hs : FreeRun words n s) : bits < s+n := by
  rw [allocRangeIn,if_neg hn,Option.map_eq_none_iff,range_eq_range'] at h
  have hloop := @allocRangeLoop_spec words n bits 0 0 0 (Nat.pos_of_ne_zero hn) (.inl rfl)
    (fun j hj hlt => absurd hlt (by omega)) (fun s _ => Nat.zero_le _)
  rw [h,Nat.zero_add] at hloop
  exact hloop s hs

theorem allocRangeIn_least (h : allocRangeIn words bits n = some (start, words')) :
    0 < n ∧ start+n ≤ bits ∧ FreeRun words n start ∧ (∀ s, FreeRun words n s → start ≤ s) ∧
      words' = setBits words start n := by
  rw [allocRangeIn] at h
  split at h
  · exact absurd h (by simp)
  next hn =>
    obtain ⟨s,hs,he⟩ := Option.map_eq_some_iff.mp h
    obtain ⟨rfl,rfl⟩ := Prod.mk.inj he
    rw [range_eq_range'] at hs
    have hloop := @allocRangeLoop_spec words n bits 0 0 0 (Nat.pos_of_ne_zero hn) (.inl rfl)
      (fun j hj hlt => absurd hlt (by omega)) (fun s _ => Nat.zero_le _)
    rw [hs,Nat.zero_add] at hloop
    exact ⟨Nat.pos_of_ne_zero hn,hloop.1,hloop.2.1,hloop.2.2,rfl⟩

theorem allocRangeIn_spec (h : allocRangeIn words bits n = some (start, words')) :
    0 < n ∧ start+n ≤ bits ∧ (∀ j, start ≤ j → j < start+n → bitAt words j = false) ∧
      words' = setBits words start n := by
  obtain ⟨hn,hle,hfree,_,hwords⟩ := allocRangeIn_least h
  exact ⟨hn,hle,hfree,hwords⟩

theorem freeRangeIn_spec {stop : Nat} (h : freeRangeIn words bits start stop = .ok words') :
    start ≤ stop ∧ stop ≤ bits ∧ (∀ j, start ≤ j → j < stop → bitAt words j = true) ∧
      words' = clearBits words start (stop-start) := by
  rw [freeRangeIn] at h
  split at h
  · exact absurd h (by simp)
  next hrange =>
    split at h
    · exact absurd h (by simp)
    next hset =>
      refine ⟨by omega,by omega,fun j hj hlt => ?_,(Except.ok.inj h).symm⟩
      rw [← isBitSet_eq_bitAt]
      by_contra hno
      apply hset
      rw [any_eq_true]
      exact ⟨j,mem_range'_1.mpr ⟨hj,by omega⟩,by simpa using hno⟩

end Athera
