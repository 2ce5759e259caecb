import Mathlib.Algebra.Group.Hom.End
import Mathlib.Data.Finite.Prod
import Mathlib.Dynamics.PeriodicPts.Lemmas
import Mathlib.Tactic.IntervalCases
import Athera.Framework.BitPoly
import Athera.Framework.Fields
import Athera.Framework.LittleEndian

/-!
# Jumping ahead in xoshiro256**

`XoShiro256StarStar` of `athera-rand`. The update of the state is linear over the field with two
elements, so a jump is a polynomial in it.
-/

namespace Athera

open Framework List Function BitVec BitPoly

@[ext] structure XoShiro where
  s0 : BitVec 64
  s1 : BitVec 64
  s2 : BitVec 64
  s3 : BitVec 64
deriving DecidableEq, Repr

namespace XoShiro

def step (s : XoShiro) : BitVec 64 × XoShiro :=
  let result := (s.s1 * 5).rotateLeft 7 * 9
  let t := s.s1 <<< 17
  let s2 := s.s2 ^^^ s.s0
  let s3 := s.s3 ^^^ s.s1
  let s1 := s.s1 ^^^ s2
  let s0 := s.s0 ^^^ s3
  let s2 := s2 ^^^ t
  (result, ⟨s0,s1,s2,s3.rotateLeft 45⟩)

def splitmix64 (state : BitVec 64) : BitVec 64 × BitVec 64 :=
  let state := state + 0x9e3779b97f4a7c15
  let z := (state ^^^ state >>> 30) * 0xbf58476d1ce4e5b9
  let z := (z ^^^ z >>> 27) * 0x94d049bb133111eb
  (z ^^^ z >>> 31, state)

def seed (seed : BitVec 64) : XoShiro :=
  let (s0, state) := splitmix64 seed
  let (s1, state) := splitmix64 state
  let (s2, state) := splitmix64 state
  ⟨s0,s1,s2,(splitmix64 state).1⟩

def nextU64 (s : XoShiro) : BitVec 64 × XoShiro := s.step

def nextU32 (s : XoShiro) : BitVec 32 × XoShiro := ((s.step.1 >>> 32).setWidth 32, s.step.2)

/-- The bytes written to a buffer of `len` bytes. -/
def fillBytes (len : Nat) (s : XoShiro) : List UInt8 × XoShiro :=
  if len = 0 then ([], s)
  else
    let (rest, s') := fillBytes (len - 8) s.step.2
    ((leBytes 8 s.step.1.toNat).take len ++ rest, s')

def advance (s : XoShiro) : XoShiro := s.step.2

instance : Zero XoShiro := ⟨⟨0,0,0,0⟩⟩

/-- States are added word by word without carry. -/
instance : Add XoShiro := ⟨fun s t => ⟨s.s0 ^^^ t.s0,s.s1 ^^^ t.s1,s.s2 ^^^ t.s2,s.s3 ^^^ t.s3⟩⟩

instance : Neg XoShiro := ⟨id⟩

/-- One bit of a jump constant: add the state if the bit is set, then advance it. -/
def addBit (acc : XoShiro × XoShiro) (bit : Bool) : XoShiro × XoShiro :=
  (if bit then acc.1 + acc.2 else acc.1, acc.2.advance)

def jumpWith (constants : List (BitVec 64)) (s : XoShiro) : XoShiro :=
  (constants.foldl (fun acc item =>
    (List.range 64).foldl (fun acc b => addBit acc (getFlag item b)) acc) (0, s)).1

def jumpWords : List (BitVec 64) :=
  [0x180ec6d33cfd0aba,0xd5a61266f0c9392c,0xa9582618e03fc9aa,0x39abdc4529b1661c]

def longJumpWords : List (BitVec 64) :=
  [0x76e15d3efefdcbbf,0xc5004e441c522fb3,0x77710069854ee241,0x39109bb02acbe635]

def jump (s : XoShiro) : XoShiro := s.jumpWith jumpWords

def longJump (s : XoShiro) : XoShiro := s.jumpWith longJumpWords

section

variable {s t : XoShiro}

@[simp] theorem zero_s0 : (0 : XoShiro).s0 = 0 := rfl
@[simp] theorem zero_s1 : (0 : XoShiro).s1 = 0 := rfl
@[simp] theorem zero_s2 : (0 : XoShiro).s2 = 0 := rfl
@[simp] theorem zero_s3 : (0 : XoShiro).s3 = 0 := rfl
@[simp] theorem add_s0 : (s+t).s0 = s.s0 ^^^ t.s0 := rfl
@[simp] theorem add_s1 : (s+t).s1 = s.s1 ^^^ t.s1 := rfl
@[simp] theorem add_s2 : (s+t).s2 = s.s2 ^^^ t.s2 := rfl
@[simp] theorem add_s3 : (s+t).s3 = s.s3 ^^^ t.s3 := rfl

theorem add_self (s : XoShiro) : s+s = 0 := by
  ext1 <;> simp

instance : AddCommGroup XoShiro where
  add_assoc s t u := by ext1 <;> simp [BitVec.xor_assoc]
  zero_add s := by ext1 <;> simp
  add_zero s := by ext1 <;> simp
  add_comm s t := by ext1 <;> simp [BitVec.xor_comm]
  neg_add_cancel s := add_self s
  nsmul := nsmulRec
  zsmul := zsmulRec

theorem rotateLeft_xor (x y : BitVec 64) (r : Nat) :
    (x ^^^ y).rotateLeft r = x.rotateLeft r ^^^ y.rotateLeft r := by
  apply eq_of_getLsbD_eq
  intro i hi
  simp only [getLsbD_xor,getLsbD_rotateLeft]
  cases decide (i < r%64)
  · simp [hi]
  · rfl

theorem xor_xor_comm (a b c d : BitVec 64) : a ^^^ b ^^^ (c ^^^ d) = a ^^^ c ^^^ (b ^^^ d) := by
  rw [xor_assoc,xor_assoc,← BitVec.xor_assoc b,← BitVec.xor_assoc c,BitVec.xor_comm b c]

theorem advance_add (s t : XoShiro) : (s+t).advance = s.advance+t.advance := by
  ext1
  · change s.s0 ^^^ t.s0 ^^^ (s.s3 ^^^ t.s3 ^^^ (s.s1 ^^^ t.s1)) =
      s.s0 ^^^ (s.s3 ^^^ s.s1) ^^^ (t.s0 ^^^ (t.s3 ^^^ t.s1))
    rw [xor_xor_comm s.s3,xor_xor_comm s.s0]
  · change s.s1 ^^^ t.s1 ^^^ (s.s2 ^^^ t.s2 ^^^ (s.s0 ^^^ t.s0)) =
      s.s1 ^^^ (s.s2 ^^^ s.s0) ^^^ (t.s1 ^^^ (t.s2 ^^^ t.s0))
    rw [xor_xor_comm s.s2,xor_xor_comm s.s1]
  · change s.s2 ^^^ t.s2 ^^^ (s.s0 ^^^ t.s0) ^^^ (s.s1 ^^^ t.s1) <<< 17 =
      s.s2 ^^^ s.s0 ^^^ s.s1 <<< 17 ^^^ (t.s2 ^^^ t.s0 ^^^ t.s1 <<< 17)
    rw [shiftLeft_xor_distrib,xor_xor_comm s.s2,xor_xor_comm (s.s2 ^^^ s.s0)]
  · change (s.s3 ^^^ t.s3 ^^^ (s.s1 ^^^ t.s1)).rotateLeft 45 =
      (s.s3 ^^^ s.s1).rotateLeft 45 ^^^ (t.s3 ^^^ t.s1).rotateLeft 45
    rw [xor_xor_comm,rotateLeft_xor]

theorem advance_zero : advance 0 = 0 := by decide

def update : AddMonoid.End XoShiro where
  toFun := advance
  map_zero' := advance_zero
  map_add' := advance_add

theorem end_add_self (f : AddMonoid.End XoShiro) : f+f = 0 := by
  ext1 s
  exact add_self (f s)

end

/-- Going through the bits of a number adds up its polynomial in the update. -/
theorem foldl_addBit (n p : Nat) (acc s : XoShiro) :
    ((List.range n).map p.testBit).foldl addBit (acc, s) =
      (acc+BitPoly.evalUpTo update n p s, advance^[n] s) := by
  induction n generalizing p acc s with
  | zero => simp [evalUpTo]
  | succ n ih =>
    have hshift : ((List.range n).map Nat.succ).map p.testBit = (List.range n).map (p/2).testBit := by
      rw [map_map]
      apply map_congr_left
      intro i _
      exact Nat.testBit_succ p i
    have hcommute : (update*evalUpTo update n (p/2)) s = evalUpTo update n (p/2) s.advance := by
      rw [(commute_evalUpTo update n (p/2)).eq]
      rfl
    have hadd : ∀ g h : AddMonoid.End XoShiro, (g+h) s = g s+h s := fun _ _ => rfl
    rw [range_succ_eq_map,map_cons,hshift,foldl_cons,addBit,ih,evalUpTo,hadd,hcommute]
    cases p.testBit 0
    · simp
    · simp [add_assoc]

def packed (words : List (BitVec 64)) : Nat := words.foldr (fun w n => w.toNat + 2 ^ 64 * n) 0

section

/-- The coefficients of the polynomial that the update satisfies. -/
def relation : Nat := 0x10003c03c3f3ecb1904b4edcf26259f850280002bcefd1a5e9d116f2bb0f0f001

theorem words_bits : ∀ words ∈ [jumpWords,longJumpWords],
    (words.flatMap fun item => (List.range 64).map (getFlag item)) =
      (List.range 256).map (packed words).testBit ∧ packed words < 2^256 := by
  decide +kernel

theorem relation_lt : relation < 2^(256+1) := by decide +kernel

/-- Checked on the bits of the last word. -/
theorem relation_bits : ∀ i < 64,
    (((List.range 257).map relation.testBit).foldl addBit (0, ⟨0,0,0,1 <<< i⟩)).1 = 0 := by
  -- in parts, for memory
  have hparts : ∀ j < 8, ∀ k < 8,
      (((List.range 257).map relation.testBit).foldl addBit (0, ⟨0,0,0,1 <<< (8*j+k)⟩)).1 = 0 := by
    intro j hj
    interval_cases j <;> decide +kernel
  intro i hi
  have h := hparts (i/8) (by omega) (i%8) (by omega)
  rwa [Nat.div_add_mod] at h

variable {f : AddMonoid.End XoShiro} {s t : XoShiro}

/-- The states on which a map vanishes that commutes with the update. -/
theorem vanish_advance (hf : Commute update f) (hs : f s = 0) : f s.advance = 0 := by
  change (f*update) s = 0
  rw [← hf.eq]
  change update (f s) = 0
  rw [hs,map_zero]

theorem vanish_add (hs : f s = 0) (ht : f t = 0) : f (s+t) = 0 := by
  rw [map_add,hs,ht,add_zero]

theorem vanish_of_sum (h : f (s+t) = 0) (ht : f t = 0) : f s = 0 := by
  rw [map_add,ht,add_zero] at h
  exact h

theorem exists_xor_shift (y : BitVec 64) : ∃ x : BitVec 64, x ^^^ x <<< 17 = y := by
  refine ⟨y ^^^ y <<< 17 ^^^ y <<< 34 ^^^ y <<< 51,?_⟩
  have h34 : y <<< 17 <<< 17 = y <<< 34 := (shiftLeft_add y 17 17).symm
  have h51 : y <<< 34 <<< 17 = y <<< 51 := (shiftLeft_add y 34 17).symm
  have h68 : y <<< 51 <<< 17 = 0 := by
    rw [← shiftLeft_add]
    exact shiftLeft_eq_zero (by decide)
  simp only [shiftLeft_xor_distrib,h34,h51,h68]
  generalize y <<< 17 = a
  generalize y <<< 34 = b
  generalize y <<< 51 = c
  apply eq_of_getLsbD_eq
  intro i _
  simp only [getLsbD_xor,ofNat_eq_ofNat,getLsbD_zero]
  cases y.getLsbD i <;> cases a.getLsbD i <;> cases b.getLsbD i <;> cases c.getLsbD i <;> rfl

/-- A map that commutes with the update and vanishes on the last word vanishes. -/
theorem eq_zero_of_last (hf : Commute update f) (hlast : ∀ x, f ⟨0,0,0,x⟩ = 0) : f = 0 := by
  have hfirst : ∀ x, f ⟨x,0,0,0⟩ = 0 := by
    intro x
    have h := vanish_advance hf (hlast x)
    have hsplit : advance ⟨0,0,0,x⟩ = ⟨x,0,0,0⟩ + ⟨0,0,0,x.rotateLeft 45⟩ := by
      ext1 <;> simp [advance,step]
    rw [hsplit] at h
    exact vanish_of_sum h (hlast _)
  have hmiddle : ∀ x, f ⟨0,x,x,0⟩ = 0 := by
    intro x
    have h := vanish_advance hf (hfirst x)
    have hsplit : advance ⟨x,0,0,0⟩ = ⟨0,x,x,0⟩ + ⟨x,0,0,0⟩ := by
      ext1 <;> simp [advance,step]
    rw [hsplit] at h
    exact vanish_of_sum h (hfirst x)
  have hthird : ∀ y, f ⟨0,0,y,0⟩ = 0 := by
    intro y
    obtain ⟨x,rfl⟩ := exists_xor_shift y
    have h := vanish_advance hf (hmiddle x)
    have hsplit : advance ⟨0,x,x,0⟩ =
        ⟨0,0,x ^^^ x <<< 17,0⟩ + (⟨x,0,0,0⟩ + ⟨0,0,0,x.rotateLeft 45⟩) := by
      ext1 <;> simp [advance,step]
    rw [hsplit] at h
    exact vanish_of_sum h (vanish_add (hfirst x) (hlast _))
  have hsecond : ∀ x, f ⟨0,x,0,0⟩ = 0 := by
    intro x
    have hsplit : (⟨0,x,x,0⟩ : XoShiro) = ⟨0,x,0,0⟩ + ⟨0,0,x,0⟩ := by
      ext1 <;> simp
    have h := hmiddle x
    rw [hsplit] at h
    exact vanish_of_sum h (hthird x)
  ext1 s
  have hsplit : s = ⟨s.s0,0,0,0⟩ + ⟨0,s.s1,0,0⟩ + (⟨0,0,s.s2,0⟩ + ⟨0,0,0,s.s3⟩) := by
    ext1 <;> simp
  rw [hsplit]
  exact vanish_add (vanish_add (hfirst _) (hsecond _)) (vanish_add (hthird _) (hlast _))

theorem eval_relation : BitPoly.eval update relation = 0 := by
  rw [← evalUpTo_eq_eval relation_lt]
  apply eq_zero_of_last (commute_evalUpTo _ _ _)
  intro x
  induction x using bits_induction with
  | hzero => exact map_zero _
  | hxor x y hx hy =>
    have hsplit : (⟨0,0,0,x ^^^ y⟩ : XoShiro) = ⟨0,0,0,x⟩ + ⟨0,0,0,y⟩ := by
      ext1 <;> simp
    rw [hsplit]
    exact vanish_add hx hy
  | hbit i hi =>
    have h := relation_bits i hi
    rw [foldl_addBit,zero_add] at h
    exact h

end

/-- A constant that is a power of the variable modulo the relation jumps that far. -/
theorem jumpWith_eq_iterate {words : List (BitVec 64)} {k p : Nat}
    (hwords : words ∈ [jumpWords,longJumpWords])
    (hpower : BitPoly.squares relation 255 k p = packed words) {n : Nat}
    (hp : BitPoly.eval update p = update^n) (s : XoShiro) :
    s.jumpWith words = advance^[n*2^k] s := by
  have hfold : s.jumpWith words =
      ((words.flatMap fun item => (List.range 64).map (getFlag item)).foldl addBit (0, s)).1 := by
    simp only [jumpWith,foldl_flatMap,foldl_map]
  obtain ⟨hbits,hlt⟩ := words_bits words hwords
  rw [hfold,hbits,foldl_addBit,zero_add,evalUpTo_eq_eval hlt,← hpower,
    eval_squares end_add_self eval_relation,hp,← pow_mul]
  rfl

theorem words_powers : BitPoly.squares relation 255 128 2 = packed jumpWords ∧
    BitPoly.squares relation 255 64 (packed jumpWords) = packed longJumpWords := by
  constructor <;> decide +kernel

theorem eval_jumpWords : BitPoly.eval update (packed jumpWords) = update^2^128 := by
  rw [← words_powers.1,eval_squares end_add_self eval_relation,eval_two]

theorem jump_eq (s : XoShiro) : s.jump = advance^[1*2^128] s :=
  jumpWith_eq_iterate (by simp) words_powers.1
    ((eval_two update).trans (pow_one update).symm) s

theorem longJump_eq (s : XoShiro) : s.longJump = advance^[2^128*2^64] s :=
  jumpWith_eq_iterate (by simp) words_powers.2 eval_jumpWords s

/-- `jump` goes `2 ^ 128` steps ahead and `long_jump` goes `2 ^ 192`, so they commute with steps and
with each other. -/
theorem jump_eq_iterate (s : XoShiro) :
    s.jump = (fun s => s.step.2)^[2 ^ 128] s ∧ s.longJump = (fun s => s.step.2)^[2 ^ 192] s ∧
      s.nextU64.2.jump = s.jump.nextU64.2 ∧ s.longJump.jump = s.jump.longJump := by
  refine ⟨?_,?_,?_,?_⟩
  · rw [jump_eq]
    rfl
  · rw [longJump_eq]
    rfl
  · rw [jump_eq,jump_eq]
    generalize 1 * 2 ^ 128 = n
    exact (iterate_succ_apply advance n s).symm.trans (iterate_succ_apply' advance n s)
  · rw [jump_eq,longJump_eq,longJump_eq,jump_eq,← iterate_add_apply,← iterate_add_apply,Nat.add_comm]

theorem eq_zero_of_xor_ushiftRight {x : BitVec 64} {k : Nat} (hk : 0 < k) (h : x ^^^ x >>> k = 0) :
    x = 0 := by
  have hshift : x = x >>> k := BitVec.xor_eq_zero_iff.mp h
  have hnat := congrArg BitVec.toNat hshift
  rw [toNat_ushiftRight] at hnat
  apply eq_of_toNat_eq
  by_contra hne
  have hlt := Nat.div_lt_self (Nat.pos_of_ne_zero hne) (Nat.one_lt_two_pow hk.ne')
  omega

theorem eq_zero_of_mul {x : BitVec 64} (c d : BitVec 64) (hc : c*d = 1) (h : x*c = 0) : x = 0 := by
  have hx : x*c*d = 0 := by
    rw [h]
    exact BitVec.zero_mul
  rw [BitVec.mul_assoc,hc] at hx
  exact (BitVec.mul_one x).symm.trans hx

theorem eq_zero_of_splitmix64 {state : BitVec 64} (h : (splitmix64 state).1 = 0) :
    (splitmix64 state).2 = 0 := by
  apply eq_zero_of_xor_ushiftRight (k := 30) (by decide)
  apply eq_zero_of_mul 0xbf58476d1ce4e5b9 0x96de1b173f119089 (by decide)
  apply eq_zero_of_xor_ushiftRight (k := 27) (by decide)
  apply eq_zero_of_mul 0x94d049bb133111eb 0x319642b2d24d8ec3 (by decide)
  exact eq_zero_of_xor_ushiftRight (by decide) h

/-- Two successive states of splitmix64 are not both zero. -/
theorem seed_ne_zero (s : BitVec 64) : seed s ≠ 0 := by
  intro h
  have h0 : s+0x9e3779b97f4a7c15 = 0 := eq_zero_of_splitmix64 (congrArg s0 h)
  have h1 : s+0x9e3779b97f4a7c15+0x9e3779b97f4a7c15 = 0 :=
    eq_zero_of_splitmix64 (congrArg s1 h)
  rw [h0] at h1
  exact absurd h1 (by decide)

/-- The update has an inverse, since the constant coefficient of the relation is not zero. -/
theorem eq_zero_of_advance {n p : Nat} (hlt : p < 2^(n+1)) (hodd : p.testBit 0 = true)
    (hp : BitPoly.eval update p = 0) {s : XoShiro} (hs : update s = 0) : s = 0 := by
  have h : evalUpTo update (n+1) p s = 0 := by
    rw [evalUpTo_eq_eval hlt,hp]
    rfl
  have hrest : (update*evalUpTo update n (p/2)) s = 0 := by
    rw [(commute_evalUpTo update n (p/2)).eq]
    change evalUpTo update n (p/2) (update s) = 0
    rw [hs,map_zero]
  rw [evalUpTo,hodd] at h
  change s+(update*evalUpTo update n (p/2)) s = 0 at h
  rwa [hrest,add_zero] at h

theorem advance_injective : Injective advance :=
  (injective_iff_map_eq_zero update).mpr fun _ =>
    eq_zero_of_advance relation_lt (by decide) eval_relation

inductive RandOp where
  | nextU64
  | nextU32
  | fillBytes (len : Nat)
  | jump
  | longJump

/-- The state after a call. -/
def RandOp.run (s : XoShiro) : RandOp → XoShiro
  | nextU64 => s.nextU64.2
  | nextU32 => s.nextU32.2
  | fillBytes len => (s.fillBytes len).2
  | jump => s.jump
  | longJump => s.longJump

theorem exists_fillBytes_eq (len : Nat) : ∃ n, ∀ s : XoShiro, (s.fillBytes len).2 = advance^[n] s := by
  induction len using Nat.strong_induction_on with
  | h len ih =>
    rcases Nat.eq_zero_or_pos len with rfl | hpos
    · refine ⟨0,fun s => ?_⟩
      rw [fillBytes]
      rfl
    · obtain ⟨n,hn⟩ := ih (len-8) (by omega)
      refine ⟨n+1,fun s => ?_⟩
      rw [fillBytes,if_neg (by omega)]
      exact hn s.step.2

theorem exists_run_eq (op : RandOp) : ∃ n, ∀ s, RandOp.run s op = advance^[n] s := by
  cases op with
  | nextU64 => exact ⟨1,fun _ => rfl⟩
  | nextU32 => exact ⟨1,fun _ => rfl⟩
  | fillBytes len => exact exists_fillBytes_eq len
  | jump => exact ⟨_,jump_eq⟩
  | longJump => exact ⟨_,longJump_eq⟩

theorem run_injective (op : RandOp) : Injective fun s => RandOp.run s op := by
  obtain ⟨n,hn⟩ := exists_run_eq op
  rw [funext hn]
  exact advance_injective.iterate n

theorem run_ne_zero {s : XoShiro} (h : s ≠ 0) (op : RandOp) : RandOp.run s op ≠ 0 := by
  obtain ⟨n,hn⟩ := exists_run_eq op
  have hzero : advance^[n] 0 = 0 := iterate_fixed advance_zero n
  rw [hn,← hzero]
  exact (advance_injective.iterate n).ne h

/-- After any seed no run reaches the zero state, and no call maps two states to one. -/
theorem generator_never_degenerates :
    (∀ (s : BitVec 64) (ops : List RandOp), ops.foldl RandOp.run (seed s) ≠ 0) ∧
      ∀ op, Injective fun s => RandOp.run s op := by
  refine ⟨fun s ops => ?_,run_injective⟩
  generalize hstart : seed s = start
  have hne : start ≠ 0 := hstart ▸ seed_ne_zero s
  clear hstart
  induction ops generalizing start with
  | nil => exact hne
  | cons op ops ih => exact ih _ (run_ne_zero hne op)

instance : Finite XoShiro :=
  Finite.of_injective (fun s => (s.s0.toFin, s.s1.toFin, s.s2.toFin, s.s3.toFin)) fun s t h => by
    simp only [Prod.mk.injEq,toFin_inj] at h
    exact XoShiro.ext h.1 h.2.1 h.2.2.1 h.2.2.2

/-- The states form cycles: after any calls `next_u64` leads back to where they began. -/
theorem generator_returns (s : XoShiro) (ops : List RandOp) :
    ∃ n, (fun s => s.nextU64.2)^[n] (ops.foldl RandOp.run s) = s := by
  obtain ⟨k,hk⟩ : ∃ k, ∀ s, ops.foldl RandOp.run s = advance^[k] s := by
    induction ops with
    | nil => exact ⟨0,fun _ => rfl⟩
    | cons op ops ih =>
      obtain ⟨k,hk⟩ := ih
      obtain ⟨n,hn⟩ := exists_run_eq op
      refine ⟨k+n,fun s => ?_⟩
      rw [foldl_cons,hk,hn,iterate_add_apply]
  obtain ⟨p,hp,hperiod⟩ := advance_injective.mem_periodicPts s
  refine ⟨p*k-k,?_⟩
  change advance^[p*k-k] _ = s
  rw [hk,← iterate_add_apply,Nat.sub_add_cancel (Nat.le_mul_of_pos_left k hp)]
  exact hperiod.mul_const k

end XoShiro

end Athera
