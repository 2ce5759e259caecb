import Athera.Framework.Action
import Athera.Framework.Intervals
import Athera.Framework.Word

/-!
# Free identifiers

`FlatAlloc` of `athera-id-alloc`. An identifier type of `w` bits has the naturals below `2 ^ w`.
-/

namespace Athera

open Framework List Finset SortedMap

inductive IdAllocError where
  | outOfRange
  | alreadyAllocated
  | alreadyFree
  | emptyRange
  | rangeBusy
  | notAligned
  | majorNotFound
deriving DecidableEq, Repr

namespace Id

def next (w id : Nat) : Option Nat := if id + 1 < 2 ^ w then some (id + 1) else none

/-- For `a ≤ b`; a count of identifiers fits in a `usize`. -/
def distanceTo (a b : Nat) : Nat := b - a

def fromBits (w bits : Nat) : Nat := bits % 2 ^ w

/-- The mask of the low bits, as a `u128`. -/
def lowMask (n : Nat) : Nat := if n = 0 then 0 else if 128 ≤ n then 2 ^ 128 - 1 else 2 ^ n - 1

def blockSize (n : Nat) : Nat := if n = 0 then 1 else if 128 ≤ n then 0 else 2 ^ n

/-- `bits & !low_mask(n)`. -/
def clearLow (n bits : Nat) : Nat := bits &&& (2 ^ 128 - 1 - lowMask n)

theorem lowMask_eq {n : Nat} (hn : n < 64) : lowMask n = 2^n-1 := by
  rw [lowMask]
  by_cases h0 : n = 0
  · rw [h0]
    rfl
  · rw [if_neg h0,if_neg (by omega)]

theorem blockSize_eq {n : Nat} (hn : n < 64) : blockSize n = 2^n := by
  rw [blockSize]
  by_cases h0 : n = 0
  · rw [h0]
    rfl
  · rw [if_neg h0,if_neg (by omega)]

theorem clearLow_eq {n bits : Nat} (hn : n < 64) (hbits : bits < 2^128) :
    clearLow n bits = bits/2^n*2^n := by
  have hpos := Nat.two_pow_pos n
  rw [clearLow,lowMask_eq hn,← land_high_bits hbits (by omega)]
  congr 1
  omega

/-- The first multiple of `2 ^ n` from an identifier on. -/
def alignUp (n id : Nat) : Nat := (id + (2 ^ n - 1)) / 2 ^ n * 2 ^ n

theorem le_alignUp (n id : Nat) : id ≤ alignUp n id := by
  have hdiv := Nat.div_add_mod' (id+(2^n-1)) (2^n)
  rw [alignUp]
  omega

theorem alignUp_le {n id b : Nat} (hb : b%2^n = 0) (hid : id ≤ b) : alignUp n id ≤ b := by
  have hpos := Nat.two_pow_pos n
  have hq : (id+(2^n-1))/2^n ≤ b/2^n := by
    rw [← Nat.lt_succ_iff,Nat.div_lt_iff_lt_mul hpos,Nat.succ_mul]
    have hdiv := Nat.div_add_mod' b (2^n)
    omega
  calc alignUp n id ≤ b/2^n*2^n := Nat.mul_le_mul_right _ hq
    _ ≤ b := Nat.div_mul_le_self b _

theorem alignUp_mono {n a b : Nat} (h : a ≤ b) : alignUp n a ≤ alignUp n b :=
  alignUp_le (Nat.mul_mod_left _ _) (h.trans (le_alignUp n b))

end Id

structure FlatAlloc where
  start : Nat
  stop : Nat
  /-- The identifiers handed out; those of a block that is carved out do not count. -/
  inuse : Nat
  ranges : SortedMap Nat

/-- Insert what is left of an interval behind an identifier. -/
def insertRest (w : Nat) (ranges : SortedMap Nat) (id stop : Nat) : SortedMap Nat :=
  match Id.next w id with
  | some next => if next < stop then ranges.insert next stop else ranges
  | none => ranges

def insertFreeRange (w : Nat) (ranges : SortedMap Nat) (n : Nat) : SortedMap Nat :=
  let newEnd := (Id.next w n).getD n
  let left := match ranges.lastEntry fun k => k < n with
    | some (s, e) => if e = n then (s, ranges.erase s) else (n, ranges)
    | none => (n, ranges)
  match Id.next w n with
  | some next =>
    match left.2.get? next with
    | some e => (left.2.erase next).insert left.1 e
    | none => left.2.insert left.1 newEnd
  | none => left.2.insert left.1 newEnd

namespace FlatAlloc

def new (start stop : Nat) : FlatAlloc :=
  ⟨start,stop,0,if start < stop then empty.insert start stop else .empty⟩

section

variable (f : FlatAlloc)

def contains (id : Nat) : Bool := decide (f.start ≤ id) && decide (id < f.stop)

def size : Nat := Id.distanceTo f.start f.stop

def used : Nat := f.inuse

def available : Nat := (f.ranges.entries.map fun r => Id.distanceTo r.1 r.2).sum

/-- The loop of `is_allocated`: an interval contains the identifier. -/
def freeIn (id : Nat) : List (Nat × Nat) → Bool
  | [] => false
  | r :: rs =>
    if r.1 ≤ id ∧ id < r.2 then true
    else if id < r.1 then false
    else freeIn id rs

def isAllocated (id : Nat) : Bool := f.contains id && !freeIn id f.ranges.entries

def findAlignedBlock (w n : Nat) : Option Nat :=
  let block := Id.blockSize n
  if block = 0 then none
  else f.ranges.entries.findSome? fun r =>
    let aligned := Id.clearLow n ((r.1 + Id.lowMask n) % 2 ^ 128)
    if aligned + block ≤ r.2 then some (Id.fromBits w aligned) else none

end

def alloc (w : Nat) (f : FlatAlloc) : Option Nat × FlatAlloc :=
  if f.available = 0 then (none, f)
  else
    match f.ranges.entries.head? with
    | none => (none, f)
    | some (id, stop) =>
      (some id, { f with inuse := f.inuse + 1, ranges := insertRest w (f.ranges.erase id) id stop })

def allocAt (w : Nat) (f : FlatAlloc) (id : Nat) : Outcome IdAllocError FlatAlloc Unit :=
  if f.contains id = false then .err .outOfRange f
  else if f.isAllocated id then .err .alreadyAllocated f
  else
    match f.ranges.lastEntry fun k => k ≤ id with
    | none => .panic
    | some (start, stop) =>
      let ranges := f.ranges.erase start
      let ranges := if start < id then ranges.insert start id else ranges
      .ok () { f with inuse := f.inuse + 1, ranges := insertRest w ranges id stop }

def dealloc (w : Nat) (f : FlatAlloc) (id : Nat) : Outcome IdAllocError FlatAlloc Unit :=
  if f.contains id = false then .err .outOfRange f
  else if f.isAllocated id = false then .err .alreadyFree f
  else .ok () { f with inuse := f.inuse - 1, ranges := insertFreeRange w f.ranges id }

def carve (f : FlatAlloc) (start stop : Nat) : Outcome IdAllocError FlatAlloc Unit :=
  if stop ≤ start then .err .emptyRange f
  else if start < f.start ∨ f.stop < stop then .err .outOfRange f
  else
    match f.ranges.lastEntry fun k => k ≤ start with
    | none => .err .rangeBusy f
    | some (fs, fe) =>
      if fe < stop then .err .rangeBusy f
      else
        let ranges := f.ranges.erase fs
        let ranges := if fs < start then ranges.insert fs start else ranges
        .ok () { f with ranges := if stop < fe then ranges.insert stop fe else ranges }

def returnRange (f : FlatAlloc) (start stop : Nat) : FlatAlloc :=
  if stop ≤ start then f
  else
    let left := match f.ranges.lastEntry fun k => k < start with
      | some (s, e) => if e = start then (s, f.ranges.erase s) else (start, f.ranges)
      | none => (start, f.ranges)
    { f with ranges := match left.2.get? stop with
      | some e => (left.2.erase stop).insert left.1 e
      | none => left.2.insert left.1 stop }

def reset (_ : FlatAlloc) (start stop : Nat) : FlatAlloc := new start stop

/-- The allocator hands out a range: what is free of it, and how many it has handed out. -/
structure Manages (f : FlatAlloc) (start stop : Nat) (free : Finset Nat) (count : Nat) : Prop where
  atStart : f.start = start
  atStop : f.stop = stop
  apart : f.ranges.Apart
  cover : f.ranges.cover = free
  inside : free ⊆ Finset.Ico start stop
  inuse : f.inuse = count

variable {f : FlatAlloc} {w n start stop count id : Nat} {free : Finset Nat}

theorem manages_new (start stop : Nat) :
    (new start stop).Manages start stop (Finset.Ico start stop) 0 := by
  by_cases hlt : start < stop
  · have hranges : (new start stop).ranges = empty.insert start stop := if_pos hlt
    have hget : ∀ k v, (new start stop).ranges.get? k = some v ↔ k = start ∧ v = stop := by
      intro k v
      rw [hranges,get?_insert]
      by_cases hk : k = start <;> simp [eq_comm]
    refine ⟨rfl,rfl,⟨?_,?_⟩,?_,subset_rfl,rfl⟩
    · intro k v hk
      have hkv := (hget k v).mp hk
      omega
    · intro k v k' v' hk hk' hkk
      have hkv := (hget k v).mp hk
      have hkv' := (hget k' v').mp hk'
      omega
    · ext x
      rw [mem_cover,mem_Ico]
      constructor
      · intro ⟨k,v,hk,hx⟩
        have hkv := (hget k v).mp hk
        omega
      · intro hx
        exact ⟨start,stop,(hget start stop).mpr ⟨rfl,rfl⟩,hx⟩
  · have hranges : (new start stop).ranges = .empty := if_neg hlt
    refine ⟨rfl,rfl,⟨?_,?_⟩,?_,subset_rfl,rfl⟩
    · intro k v hk
      rw [hranges] at hk
      cases hk
    · intro k v k' v' hk
      rw [hranges] at hk
      cases hk
    · rw [hranges,Finset.Ico_eq_empty hlt]
      rfl

theorem Manages.contains (h : f.Manages start stop free count) :
    f.contains id = decide (id ∈ Finset.Ico start stop) := by
  rw [FlatAlloc.contains,h.atStart,h.atStop,← Bool.decide_and]
  exact decide_eq_decide.mpr mem_Ico.symm

theorem Manages.available (h : f.Manages start stop free count) : f.available = free.card := by
  rw [← h.cover,h.apart.card_cover]
  rfl

theorem freeIn_iff {rs : List (Nat × Nat)} (hs : rs.Pairwise fun a b => a.1 < b.1) :
    freeIn id rs = true ↔ ∃ r ∈ rs, r.1 ≤ id ∧ id < r.2 := by
  induction rs with
  | nil => simp [freeIn]
  | cons r rs ih =>
    have hcons := pairwise_cons.mp hs
    rw [freeIn]
    by_cases hin : r.1 ≤ id ∧ id < r.2
    · rw [if_pos hin]
      exact ⟨fun _ => ⟨r,mem_cons_self,hin⟩,fun _ => rfl⟩
    · rw [if_neg hin]
      by_cases hlt : id < r.1
      -- the loop ends early: the later intervals start even further on
      · rw [if_pos hlt]
        constructor
        · intro hfalse
          cases hfalse
        · intro ⟨r',hr',hin'⟩
          rcases mem_cons.mp hr' with rfl | hr'
          · exact absurd hin' hin
          · have hafter := hcons.1 r' hr'
            omega
      · rw [if_neg hlt,ih hcons.2]
        constructor
        · intro ⟨r',hr',hin'⟩
          exact ⟨r',mem_cons_of_mem r hr',hin'⟩
        · intro ⟨r',hr',hin'⟩
          rcases mem_cons.mp hr' with rfl | hr'
          · exact absurd hin' hin
          · exact ⟨r',hr',hin'⟩

theorem freeIn_entries (m : SortedMap Nat) : freeIn id m.entries = decide (id ∈ m.cover) := by
  rw [Bool.eq_iff_iff,decide_eq_true_iff,freeIn_iff m.sorted,mem_cover]
  constructor
  · intro ⟨r,hr,hin⟩
    exact ⟨r.1,r.2,get?_of_mem hr,hin⟩
  · intro ⟨s,e,hget,hin⟩
    exact ⟨(s, e),mem_of_get? hget,hin⟩

theorem Manages.isAllocated (h : f.Manages start stop free count) :
    f.isAllocated id = decide (id ∈ Finset.Ico start stop ∧ id ∉ free) := by
  rw [FlatAlloc.isAllocated,h.contains,freeIn_entries,h.cover,← decide_not,← Bool.decide_and]

theorem insertRest_eq (ranges : SortedMap Nat) (hid : id+1 < 2^w) : insertRest w ranges id stop =
    if id+1 < stop then ranges.insert (id+1) stop else ranges := by
  rw [insertRest,Id.next,if_pos hid]

theorem insertFreeRange_eq (ranges : SortedMap Nat) (hid : id+1 < 2^w) :
    insertFreeRange w ranges id = ranges.join id (id+1) := by
  rw [insertFreeRange,Id.next,if_pos hid]
  rfl

variable (h : f.Manages start stop free count)
include h

theorem Manages.cut {s e : Nat} (hget : f.ranges.get? s = some e) (hs : s ≤ id) (he : id < e) :
    { f with inuse := f.inuse+1, ranges := f.ranges.cut s e id (id+1) }.Manages start stop
      (free.erase id) (count+1) := by
  refine ⟨h.atStart,h.atStop,h.apart.cut hget hs (Nat.lt_succ_self id) he,?_,?_,?_⟩
  · rw [h.apart.cover_cut hget hs (Nat.lt_succ_self id) he,h.cover,Nat.Ico_succ_singleton,
      sdiff_singleton_eq_erase]
  · exact (Finset.erase_subset id free).trans h.inside
  · exact congrArg (· + 1) h.inuse

theorem Manages.alloc (hw : stop < 2^w) : match f.alloc w with
    | (none, f') => free = ∅ ∧ f' = f
    | (some id, f') => least free = some id ∧ f'.Manages start stop (free.erase id) (count+1) := by
  rw [FlatAlloc.alloc]
  by_cases hzero : f.available = 0
  · rw [if_pos hzero]
    rw [h.available,card_eq_zero] at hzero
    exact ⟨hzero,rfl⟩
  · rw [if_neg hzero]
    cases hhead : f.ranges.entries.head? with
    | none =>
      rw [FlatAlloc.available,head?_eq_none_iff.mp hhead] at hzero
      exact absurd rfl hzero
    | some r =>
      have hget : f.ranges.get? r.1 = some r.2 := get?_of_mem (mem_of_mem_head? hhead)
      have hpos := h.apart.pos r.1 r.2 hget
      have hmem : r.1 ∈ free := by
        rw [← h.cover]
        exact mem_cover.mpr ⟨r.1,r.2,hget,le_rfl,hpos⟩
      have hlt := (mem_Ico.mp (h.inside hmem)).2
      have hcut : insertRest w (f.ranges.erase r.1) r.1 r.2 = f.ranges.cut r.1 r.2 r.1 (r.1+1) := by
        rw [insertRest_eq _ (by omega),SortedMap.cut]
        simp
      simp only [hcut]
      refine ⟨least_eq_some.mpr ⟨hmem,?_⟩,h.cut hget le_rfl hpos⟩
      intro y hy
      rw [← h.cover] at hy
      obtain ⟨s,e,hs,hsy,_⟩ := mem_cover.mp hy
      exact (head_le hhead hs).trans hsy

theorem Manages.allocAt (hw : stop < 2^w) (hid : id ∈ Finset.Ico start stop) :
    (id ∉ free ∧ f.allocAt w id = .err .alreadyAllocated f) ∨
    (id ∈ free ∧ ∃ f', f.allocAt w id = .ok () f' ∧
      f'.Manages start stop (free.erase id) (count+1)) := by
  have hlt := (mem_Ico.mp hid).2
  rw [FlatAlloc.allocAt,h.contains,h.isAllocated,decide_eq_true hid,if_neg (by decide)]
  by_cases hmem : id ∈ free
  · right
    refine ⟨hmem,?_⟩
    rw [if_neg (by simp [hmem])]
    obtain ⟨s,e,hlast,hget,hs,he⟩ := h.apart.lastEntry_of_mem (h.cover ▸ hmem)
    rw [hlast]
    simp only [insertRest_eq _ (show id+1 < 2^w by omega)]
    exact ⟨_,rfl,h.cut hget hs he⟩
  · left
    rw [if_pos (by simp [hmem,mem_Ico.mp hid])]
    exact ⟨hmem,rfl⟩

theorem Manages.dealloc (hw : stop < 2^w) (hid : id ∈ Finset.Ico start stop) :
    (id ∈ free ∧ f.dealloc w id = .err .alreadyFree f) ∨
    (id ∉ free ∧ ∃ f', f.dealloc w id = .ok () f' ∧
      f'.Manages start stop (insert id free) (count-1)) := by
  have hlt := (mem_Ico.mp hid).2
  rw [FlatAlloc.dealloc,h.contains,h.isAllocated,decide_eq_true hid,if_neg (by decide)]
  by_cases hmem : id ∈ free
  · left
    rw [if_pos (by simp [hmem])]
    exact ⟨hmem,rfl⟩
  · right
    rw [if_neg (by simp [hmem,mem_Ico.mp hid]), insertFreeRange_eq _ (show id+1 < 2^w by omega)]
    have hfree : ∀ x, id ≤ x → x < id+1 → x ∉ f.ranges.cover := by
      intro x hx hx'
      obtain rfl : x = id := by omega
      rwa [h.cover]
    refine ⟨hmem,_,rfl,h.atStart,h.atStop,h.apart.join (Nat.lt_succ_self id) hfree,?_,?_,?_⟩
    · rw [h.apart.cover_join (Nat.lt_succ_self id) hfree,h.cover,Nat.Ico_succ_singleton,
        union_singleton]
    · exact insert_subset hid h.inside
    · exact congrArg (· - 1) h.inuse

theorem Manages.carve {a b : Nat} (hab : a < b) (ha : start ≤ a) (hb : b ≤ stop) :
    (¬ Finset.Ico a b ⊆ free ∧ f.carve a b = .err .rangeBusy f) ∨
    (Finset.Ico a b ⊆ free ∧ ∃ f', f.carve a b = .ok () f' ∧
      f'.Manages start stop (free \ Finset.Ico a b) count) := by
  rw [FlatAlloc.carve,if_neg (by omega),h.atStart,h.atStop,if_neg (by omega)]
  by_cases hsub : Finset.Ico a b ⊆ free
  · right
    refine ⟨hsub,?_⟩
    rw [← h.cover] at hsub
    obtain ⟨s,e,hlast,hget,hs,he⟩ :=
      h.apart.lastEntry_of_mem (hsub (mem_Ico.mpr ⟨le_rfl,hab⟩))
    have hbe : b ≤ e := h.apart.le_of_subset_cover hsub hget hs he
    rw [hlast]
    simp only [if_neg (not_lt.mpr hbe)]
    refine ⟨_,rfl,rfl,rfl,h.apart.cut hget hs hab hbe,?_,?_,h.inuse⟩
    · rw [← h.cover]
      exact h.apart.cover_cut hget hs hab hbe
    · exact sdiff_subset.trans h.inside
  · left
    refine ⟨hsub,?_⟩
    have hspec := f.ranges.lastEntry_spec fun k => k ≤ a
    cases hlast : f.ranges.lastEntry fun k => k ≤ a with
    | none => rfl
    | some r =>
      rw [hlast] at hspec
      have hra : r.1 ≤ a := of_decide_eq_true hspec.2.1
      have hlt : r.2 < b := by
        by_contra hge
        apply hsub
        rw [← h.cover]
        exact (h.apart.subset_cover_iff hab).mpr ⟨r.1,r.2,hspec.1,hra,by omega⟩
      exact if_pos hlt

theorem Manages.returnRange {a b : Nat} (hab : a < b)
    (hsub : Finset.Ico a b ⊆ Finset.Ico start stop) (hdisj : Disjoint free (Finset.Ico a b)) :
    (f.returnRange a b).Manages start stop (free ∪ Finset.Ico a b) count := by
  have hfree : ∀ x, a ≤ x → x < b → x ∉ f.ranges.cover := by
    intro x hxa hxb hx
    rw [h.cover] at hx
    exact Finset.disjoint_left.mp hdisj hx (mem_Ico.mpr ⟨hxa,hxb⟩)
  have hjoin : f.returnRange a b = { f with ranges := f.ranges.join a b } := by
    rw [FlatAlloc.returnRange,if_neg (by omega)]
    rfl
  rw [hjoin]
  refine ⟨h.atStart,h.atStop,h.apart.join hab hfree,?_,union_subset h.inside hsub,h.inuse⟩
  rw [← h.cover]
  exact h.apart.cover_join hab hfree

/-- The block that `find_aligned_block` finds is the first of the free ones. -/
theorem Manages.findAlignedBlock (hn : n < 64)
    (hw : stop < 2^w) (hw' : w ≤ 64) : match f.findAlignedBlock w n with
    | none => ∀ b, b%2^n = 0 → ¬ Finset.Ico b (b+2^n) ⊆ free
    | some b => b%2^n = 0 ∧ Finset.Ico b (b+2^n) ⊆ free ∧
      ∀ b', b' % 2^n = 0 → Finset.Ico b' (b' + 2^n) ⊆ free → b ≤ b' := by
  have hpos := Nat.two_pow_pos n
  have hrange : ∀ r ∈ f.ranges.entries, r.1 < 2^w ∧ r.2 ≤ stop := by
    intro r hr
    have hget := get?_of_mem hr
    have hlt := h.apart.pos r.1 r.2 hget
    have hlast : r.2-1 ∈ free := by
      rw [← h.cover]
      exact mem_cover.mpr ⟨r.1,r.2,hget,by omega,by omega⟩
    have hin := mem_Ico.mp (h.inside hlast)
    omega
  have hword : 2^w ≤ 2^64 := Nat.pow_le_pow_right (by decide) hw'
  have hblock : 2^n ≤ 2^64 := Nat.pow_le_pow_right (by decide) (by omega)
  let found := fun r : Nat × Nat =>
    let aligned := Id.clearLow n ((r.1+Id.lowMask n)%2^128)
    if aligned+2^n ≤ r.2 then some (Id.fromBits w aligned) else none
  have hfound : ∀ r ∈ f.ranges.entries,
      found r = if Id.alignUp n r.1+2^n ≤ r.2 then some (Id.alignUp n r.1) else none := by
    intro r hr
    have hr' := hrange r hr
    simp only [found]
    rw [Id.lowMask_eq hn,Nat.mod_eq_of_lt (by omega),Id.clearLow_eq hn (by omega),← Id.alignUp]
    by_cases hle : Id.alignUp n r.1+2^n ≤ r.2
    · rw [if_pos hle,if_pos hle,Id.fromBits,Nat.mod_eq_of_lt (by omega)]
    · rw [if_neg hle,if_neg hle]
  -- an interval with an aligned block in it is one that the search takes
  have htaken : ∀ b, b%2^n = 0 → Finset.Ico b (b+2^n) ⊆ free →
      ∃ r ∈ f.ranges.entries, r.1 ≤ b ∧ found r = some (Id.alignUp n r.1) := by
    intro b hb hsub
    rw [← h.cover,h.apart.subset_cover_iff (by omega)] at hsub
    obtain ⟨s,e,hget,hs,he⟩ := hsub
    have hle := Id.alignUp_le hb hs
    have hmem := mem_of_get? hget
    exact ⟨(s, e),hmem,hs,(hfound _ hmem).trans (if_pos (by simp only; omega))⟩
  rw [FlatAlloc.findAlignedBlock,Id.blockSize_eq hn]
  simp only [if_neg (Nat.ne_of_gt hpos)]
  cases hsome : f.ranges.entries.findSome? found with
  | none =>
    intro b hb hsub
    obtain ⟨r,hr,_,hr'⟩ := htaken b hb hsub
    rw [findSome?_eq_none_iff.mp hsome r hr] at hr'
    cases hr'
  | some b =>
    obtain ⟨front,r,back,hentries,hr,hfront⟩ := findSome?_eq_some_iff.mp hsome
    have hmem : r ∈ f.ranges.entries := by simp [hentries]
    have hfits : Id.alignUp n r.1+2^n ≤ r.2 ∧ Id.alignUp n r.1 = b := by
      rw [hfound r hmem] at hr
      split at hr
      · exact ⟨‹_›,Option.some.inj hr⟩
      · cases hr
    obtain ⟨hfits,rfl⟩ := hfits
    refine ⟨Nat.mul_mod_left _ _,?_,?_⟩
    · rw [← h.cover,h.apart.subset_cover_iff (by omega)]
      exact ⟨r.1,r.2,get?_of_mem hmem,Id.le_alignUp n r.1,hfits⟩
    · intro b' hb' hsub
      obtain ⟨r',hr',hle,htake⟩ := htaken b' hb' hsub
      have hsorted := f.ranges.sorted
      rw [hentries] at hr' hsorted
      have hstart : r.1 ≤ r'.1 := by
        rcases mem_append.mp hr' with hin | hin
        · rw [hfront r' hin] at htake
          cases htake
        · rcases mem_cons.mp hin with rfl | hin
          · exact le_rfl
          · have hpair := (pairwise_append.mp hsorted).2.1
            exact Nat.le_of_lt ((pairwise_cons.mp hpair).1 r' hin)
      exact (Id.alignUp_mono hstart).trans (Id.alignUp_le hb' hle)

end FlatAlloc

end Athera
