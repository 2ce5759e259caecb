import Athera.IdAlloc.IdAlloc
import Mathlib.Algebra.BigOperators.Group.Finset.Sigma
import Mathlib.Algebra.Order.BigOperators.Group.Finset

/-!
# The identifier allocator as a set

Every operation of `IdAlloc` does to its interval maps what the request does to the two sets, and
gives the same answer.
-/

namespace Athera

open Framework List IdSpace Nat SortedMap IdAnswer IdAlloc
open Finset hiding map_map mem_map

namespace IdSpace

variable (p : IdSpace) {s : IdSet} {b id : Nat}

theorem mem_range : id ∈ p.range ↔ p.start ≤ id ∧ id < p.stop := mem_Ico

theorem mem_block : id ∈ p.block b ↔ b ≤ id ∧ id < b+2^p.minorBits := mem_Ico

theorem base_le (id : Nat) : p.base id ≤ id := div_mul_le_self id _

theorem lt_base_add (id : Nat) : id < p.base id+2^p.minorBits := by
  have hdiv := div_add_mod' id (2^p.minorBits)
  rw [base]
  omega

theorem base_mod (id : Nat) : p.base id%2^p.minorBits = 0 := mul_mod_left _ _

theorem mem_block_iff (hb : b%2^p.minorBits = 0) : id ∈ p.block b ↔ p.base id = b := by
  have hle := p.base_le id
  have hlt := p.lt_base_add id
  rw [mem_block]
  constructor
  · intro hin
    have hbq := div_add_mod' b (2^p.minorBits)
    have hq : id/2^p.minorBits = b/2^p.minorBits := by
      apply Nat.div_eq_of_lt_le
      · omega
      · rw [succ_mul]
        omega
    rw [base,hq]
    omega
  · omega

theorem mem_free : id ∈ p.free s ↔ (id ∈ p.range ∧ id ∉ s.allocated) ∧ p.base id ∉ s.reserved := by
  rw [free,Finset.mem_filter,Finset.mem_sdiff]

theorem mem_minors : id ∈ p.minors s b ↔ id ∈ p.block b ∧ id ∉ s.allocated := mem_sdiff

theorem mem_minors_base : id ∈ p.minors s (p.base id) ↔ id ∉ s.allocated := by
  rw [mem_minors,p.mem_block_iff (p.base_mod id),eq_self,true_and]

variable {p} in
theorem mem_free_iff (hid : id ∈ p.range) (hb : p.base id ∉ s.reserved) :
    id ∈ p.free s ↔ id ∉ s.allocated := by
  rw [mem_free]
  simp [hid,hb]

theorem card_by_blocks (A R : Finset Nat) : A.card = (A.filter fun id => p.base id ∉ R).card +
    ∑ b ∈ R, (A.filter fun id => p.base id = b).card := by
  have hin : (A.filter fun id => p.base id ∈ R).card =
      ∑ b ∈ R, (A.filter fun id => p.base id = b).card := by
    rw [card_eq_sum_card_fiberwise (f := p.base)]
    · apply sum_congr rfl
      intro b hb
      congr 1
      ext id
      simp only [Finset.mem_filter]
      constructor
      · intro h
        exact ⟨h.1.1,h.2⟩
      · intro h
        exact ⟨⟨h.1,h.2 ▸ hb⟩,h.2⟩
    · intro id hid
      exact (mem_filter.mp hid).2
  have hsplit := card_filter_add_card_filter_not (s := A) fun id => p.base id ∈ R
  rw [← hsplit,hin,Nat.add_comm]

end IdSpace

namespace IdAlloc

structure Refines (p : IdSpace) (a : IdAlloc) (s : IdSet) : Prop where
  allocated : s.allocated ⊆ p.range
  reserved : ∀ b ∈ s.reserved, b % 2 ^ p.minorBits = 0 ∧ p.start ≤ b ∧ b + 2 ^ p.minorBits ≤ p.stop
  flat : a.flat.Manages p.start p.stop (p.free s) (s.allocated.filter fun id => p.base id ∉ s.reserved).card
  majors : ∀ b, b ∈ s.reserved ↔ ∃ slot, a.majors.get? b = some slot
  slots : ∀ b slot, a.majors.get? b = some slot → slot.Manages b (b + 2 ^ p.minorBits) (p.minors s b)
    (s.allocated.filter fun id => p.base id = b).card

variable {p : IdSpace} {a : IdAlloc} {s : IdSet} {b id : Nat}

theorem Refines.slot (h : Refines p a s) (hb : b ∈ s.reserved) : ∃ slot, a.majors.get? b = some slot :=
  (h.majors b).mp hb

theorem Refines.no_slot (h : Refines p a s) (hb : b ∉ s.reserved) : a.majors.get? b = none := by
  cases hget : a.majors.get? b with
  | none => rfl
  | some slot => exact absurd ((h.majors b).mpr ⟨slot,hget⟩) hb

theorem Refines.stop_lt (h : Refines p a s) (hb : b ∈ s.reserved) :
    b+2^p.minorBits < 2^p.bits := (h.reserved b hb).2.2.trans_lt p.top

theorem minor_lt (p : IdSpace) : p.minorBits < 64 := p.minor.trans_le p.width

theorem pow_bits_le (p : IdSpace) : 2^p.bits ≤ 2^64 := Nat.pow_le_pow_right (by decide) p.width

theorem tokenBase_eq (hid : id < 2^p.bits) : tokenBase p.bits p.minorBits id = p.base id := by
  have hbits := pow_bits_le p
  have hle := p.base_le id
  rw [tokenBase,Id.clearLow_eq (minor_lt p) (by omega)]
  exact mod_eq_of_lt (hle.trans_lt hid)

theorem blockEnd_eq (hb : b+2^p.minorBits < 2^p.bits) :
    blockEnd p.bits p.minorBits b = b+2^p.minorBits := by
  have hbits := pow_bits_le p
  rw [blockEnd,Id.blockSize_eq (minor_lt p),Id.fromBits,mod_eq_of_lt (show _ < 2^128 by omega),
    mod_eq_of_lt hb]

theorem and_lowMask_eq (p : IdSpace) (b : Nat) : b &&& Id.lowMask p.minorBits = b%2^p.minorBits := by
  rw [Id.lowMask_eq (minor_lt p),and_two_pow_sub_one_eq_mod]

variable {f : FlatAlloc}

section

variable {A : Finset Nat}

/-- A change of the allocated identifiers at one of them. -/
def OnlyAt (id : Nat) (A B : Finset Nat) : Prop := ∀ x, x ≠ id → (x ∈ A ↔ x ∈ B)

theorem onlyAt_insert : OnlyAt id (insert id A) A := by
  intro x hx
  simp [hx]

theorem onlyAt_erase : OnlyAt id (A.erase id) A := by
  intro x hx
  simp [hx]

variable {q : Nat → Prop}

theorem OnlyAt.filter_eq {B : Finset Nat} (h : OnlyAt id A B) [DecidablePred q]
    (hid : ¬ q id) : A.filter q = B.filter q := by
  ext x
  rw [Finset.mem_filter,Finset.mem_filter]
  by_cases hx : x = id
  · subst hx
    simp [hid]
  · rw [h x hx]

theorem OnlyAt.sdiff_eq {B : Finset Nat} (h : OnlyAt id A B) {C : Finset Nat} (hid : id ∉ C) :
    C \ A = C \ B := by
  ext x
  rw [mem_sdiff,mem_sdiff]
  by_cases hx : x = id
  · subst hx
    simp [hid]
  · rw [h x hx]

theorem OnlyAt.free_eq (h : OnlyAt id A s.allocated) (hid : p.base id ∈ s.reserved) :
    p.free { s with allocated := A } = p.free s := by
  ext x
  rw [mem_free,mem_free]
  by_cases hx : x = id
  · subst hx
    simp [hid]
  · simp only [h x hx]

theorem Refines.change_flat (h : Refines p a s) (hA : OnlyAt id A s.allocated) (hin : A ⊆ p.range)
    (hid : p.base id ∉ s.reserved)
    (hf : f.Manages p.start p.stop (p.free { s with allocated := A })
      (A.filter fun id => p.base id ∉ s.reserved).card) :
    Refines p { a with flat := f } { s with allocated := A } := by
  refine ⟨hin,h.reserved,hf,h.majors,?_⟩
  intro b slot hget
  have hb : b ∈ s.reserved := (h.majors b).mpr ⟨slot,hget⟩
  have hne : p.base id ≠ b := fun heq => hid (heq ▸ hb)
  have hout : id ∉ p.block b := fun hin => hne ((p.mem_block_iff (h.reserved b hb).1).mp hin)
  have hminors : p.minors { s with allocated := A } b = p.minors s b := hA.sdiff_eq hout
  rw [hminors,hA.filter_eq hne]
  exact h.slots b slot hget

theorem Refines.change_slot (h : Refines p a s) (hA : OnlyAt id A s.allocated) (hin : A ⊆ p.range)
    (hid : p.base id ∈ s.reserved)
    (hf : f.Manages (p.base id) (p.base id+2^p.minorBits)
      (p.minors { s with allocated := A } (p.base id)) (A.filter fun x => p.base x = p.base id).card) :
    Refines p { a with majors := a.majors.modify (p.base id) fun _ => f } { s with allocated := A } := by
  obtain ⟨old,hold⟩ := h.slot hid
  refine ⟨hin,h.reserved,?_,?_,?_⟩
  · simp only [hA.free_eq hid]
    rw [hA.filter_eq (not_not_intro hid)]
    exact h.flat
  · intro b
    simp only [get?_modify]
    rw [h.majors b]
    by_cases hb : b = p.base id
    · simp [hb]
    · simp [hb]
  · intro b slot hget
    simp only [get?_modify] at hget
    by_cases hb : b = p.base id
    · subst hb
      rw [if_pos rfl,hold] at hget
      cases hget
      exact hf
    · rw [if_neg hb] at hget
      have hmod := (h.reserved b ((h.majors b).mpr ⟨slot,hget⟩)).1
      have hout : id ∉ p.block b := fun hin => hb ((p.mem_block_iff hmod).mp hin).symm
      have hminors : p.minors { s with allocated := A } b = p.minors s b := hA.sdiff_eq hout
      rw [hminors,hA.filter_eq (q := fun x => p.base x = b) (Ne.symm hb)]
      exact h.slots b slot hget

theorem free_insert : p.free { s with allocated := insert id s.allocated } = (p.free s).erase id := by
  ext x
  simp only [mem_free,mem_erase,mem_insert]
  tauto

theorem minors_insert :
    p.minors { s with allocated := insert id s.allocated } b = (p.minors s b).erase id := by
  ext x
  simp only [mem_minors,mem_erase,mem_insert]
  tauto

theorem free_erase (hid : id ∈ p.range) (hbase : p.base id ∉ s.reserved) :
    p.free { s with allocated := s.allocated.erase id } = insert id (p.free s) := by
  ext x
  simp only [mem_free,mem_insert]
  by_cases hx : x = id
  · subst hx
    simp [hid,hbase]
  · simp [hx]

theorem minors_erase (hid : id ∈ p.block b) :
    p.minors { s with allocated := s.allocated.erase id } b = insert id (p.minors s b) := by
  ext x
  simp only [mem_minors,mem_insert]
  by_cases hx : x = id
  · subst hx
    simp [hid]
  · simp [hx]

theorem card_filter_insert [DecidablePred q] (hid : q id) (hnot : id ∉ A) :
    ((insert id A).filter q).card = (A.filter q).card+1 := by
  rw [filter_insert,if_pos hid]
  simp [hnot]

theorem card_filter_erase [DecidablePred q] (hid : q id) (hin : id ∈ A) :
    ((A.erase id).filter q).card = (A.filter q).card-1 := by
  rw [filter_erase,card_erase_of_mem (mem_filter.mpr ⟨hin,hid⟩)]

section

variable (h : Refines p a s)
include h

theorem Refines.grant_flat (hid : id ∈ p.free s)
    (hf : f.Manages p.start p.stop ((p.free s).erase id)
      ((s.allocated.filter fun id => p.base id ∉ s.reserved).card+1)) :
    Refines p { a with flat := f } { s with allocated := insert id s.allocated } := by
  obtain ⟨⟨hrange,hnot⟩,hbase⟩ := p.mem_free.mp hid
  apply h.change_flat onlyAt_insert (insert_subset hrange h.allocated) hbase
  rw [free_insert,card_filter_insert hbase hnot]
  exact hf

theorem Refines.mem_range_of_block (hb : b ∈ s.reserved) (hid : id ∈ p.block b) : id ∈ p.range := by
  have hres := h.reserved b hb
  have hin := p.mem_block.mp hid
  exact p.mem_range.mpr ⟨by omega,by omega⟩

theorem Refines.grant_minor (hb : b ∈ s.reserved) (hid : id ∈ p.minors s b)
    (hf : f.Manages b (b+2^p.minorBits) ((p.minors s b).erase id)
      ((s.allocated.filter fun id => p.base id = b).card+1)) :
    Refines p { a with majors := a.majors.modify b fun _ => f }
      { s with allocated := insert id s.allocated } := by
  obtain ⟨hblock,hnot⟩ := p.mem_minors.mp hid
  have hbase : p.base id = b := (p.mem_block_iff (h.reserved b hb).1).mp hblock
  subst hbase
  apply h.change_slot onlyAt_insert (insert_subset (h.mem_range_of_block hb hblock) h.allocated) hb
  rw [minors_insert,card_filter_insert (q := fun x => p.base x = p.base id) rfl hnot]
  exact hf

end

end

theorem Refines.reserve (h : Refines p a s) (hmod : b%2^p.minorBits = 0)
    (hsub : p.block b ⊆ p.free s)
    (hf : f.Manages p.start p.stop (p.free s \ p.block b)
      (s.allocated.filter fun id => p.base id ∉ s.reserved).card) :
    Refines p ⟨f,a.majors.insert b (.new b (b+2^p.minorBits))⟩
      { s with reserved := insert b s.reserved } := by
  have hnone : ∀ id ∈ s.allocated, p.base id ≠ b := by
    intro id hid hbase
    have hfree := p.mem_free.mp (hsub ((p.mem_block_iff hmod).mpr hbase))
    exact hfree.1.2 hid
  have hbounds : p.start ≤ b ∧ b+2^p.minorBits ≤ p.stop := by
    have hfirst := p.mem_free.mp (hsub (p.mem_block.mpr (by omega : b ≤ b ∧ b < b+2^p.minorBits)))
    have hlast := p.mem_free.mp (hsub (p.mem_block.mpr
      (by omega : b ≤ b+2^p.minorBits-1 ∧ b+2^p.minorBits-1 < b+2^p.minorBits)))
    have hfirst' := p.mem_range.mp hfirst.1.1
    have hlast' := p.mem_range.mp hlast.1.1
    omega
  refine ⟨h.allocated,?_,?_,?_,?_⟩
  · intro b' hb'
    rcases mem_insert.mp hb' with rfl | hb'
    · exact ⟨hmod,hbounds⟩
    · exact h.reserved b' hb'
  · have hfree : p.free { s with reserved := insert b s.reserved } = p.free s \ p.block b := by
      ext x
      rw [mem_sdiff,p.mem_block_iff hmod]
      simp only [mem_free,mem_insert]
      tauto
    have hcount : (s.allocated.filter fun id => p.base id ∉ insert b s.reserved) =
        s.allocated.filter fun id => p.base id ∉ s.reserved := by
      apply Finset.filter_congr
      intro id hid
      simp [hnone id hid]
    simp only [hfree,hcount]
    exact hf
  · intro b'
    simp only [get?_insert]
    by_cases hb' : b' = b
    · simp [hb']
    · simp [hb',h.majors b']
  · intro b' slot hget
    simp only [get?_insert] at hget
    by_cases hb' : b' = b
    · subst hb'
      rw [if_pos rfl] at hget
      cases hget
      have hminors : p.minors { s with reserved := insert b' s.reserved } b' = p.block b' := by
        ext x
        rw [mem_minors]
        constructor
        · exact fun hx => hx.1
        · exact fun hx => ⟨hx,fun hin => hnone x hin ((p.mem_block_iff hmod).mp hx)⟩
      have hcount : (s.allocated.filter fun id => p.base id = b') = ∅ :=
        filter_eq_empty_iff.mpr fun {id} hid => hnone id hid
      simp only [hminors,hcount]
      exact FlatAlloc.manages_new b' _
    · rw [if_neg hb'] at hget
      exact h.slots b' slot hget

theorem Refines.unreserve (h : Refines p a s) (hb : b ∈ s.reserved) :
    Refines p ⟨a.flat.returnRange b (b+2^p.minorBits),a.majors.erase b⟩
      ⟨s.allocated.filter fun id => p.base id ≠ b,s.reserved.erase b⟩ := by
  obtain ⟨hmod,hstart,hstop⟩ := h.reserved b hb
  have hinside : p.block b ⊆ p.range := fun id hid => h.mem_range_of_block hb hid
  have hdisj : Disjoint (p.free s) (p.block b) := by
    rw [Finset.disjoint_left]
    intro id hfree hblock
    have hbase := (p.mem_block_iff hmod).mp hblock
    exact (p.mem_free.mp hfree).2 (hbase ▸ hb)
  refine ⟨(Finset.filter_subset _ _).trans h.allocated,?_,?_,?_,?_⟩
  · intro b' hb'
    exact h.reserved b' (mem_of_mem_erase hb')
  · have hfree : p.free ⟨s.allocated.filter fun id => p.base id ≠ b,s.reserved.erase b⟩ =
        p.free s ∪ p.block b := by
      ext x
      have hx : x ∈ p.block b → x ∈ p.range := fun hx => hinside hx
      rw [p.mem_block_iff hmod] at hx
      rw [mem_union,p.mem_block_iff hmod]
      simp only [mem_free,Finset.mem_filter,Finset.mem_erase]
      tauto
    have hcount : ((s.allocated.filter fun id => p.base id ≠ b).filter
        fun id => p.base id ∉ s.reserved.erase b) =
        s.allocated.filter fun id => p.base id ∉ s.reserved := by
      ext x
      simp only [Finset.mem_filter,Finset.mem_erase]
      constructor
      · intro hx
        exact ⟨hx.1.1,fun hin => hx.2 ⟨hx.1.2,hin⟩⟩
      · intro hx
        exact ⟨⟨hx.1,fun heq => hx.2 (heq ▸ hb)⟩,fun hin => hx.2 hin.2⟩
    simp only [hfree,hcount]
    exact h.flat.returnRange (by omega) hinside hdisj
  · intro b'
    simp only [get?_erase]
    by_cases hb' : b' = b
    · simp [hb']
    · simp [h.majors b']
  · intro b' slot hget
    simp only [get?_erase] at hget
    by_cases hb' : b' = b
    · rw [if_pos hb'] at hget
      cases hget
    · rw [if_neg hb'] at hget
      have hmod' := (h.reserved b' ((h.majors b').mpr ⟨slot,hget⟩)).1
      have hminors : p.minors ⟨s.allocated.filter fun id => p.base id ≠ b,s.reserved.erase b⟩ b' =
          p.minors s b' := by
        ext x
        rw [mem_minors,mem_minors,p.mem_block_iff hmod']
        simp only [Finset.mem_filter]
        constructor
        · intro hx
          exact ⟨hx.1,fun hin => hx.2 ⟨hin,fun heq => hb' (hx.1.symm.trans heq)⟩⟩
        · intro hx
          exact ⟨hx.1,fun hin => hx.2 hin.1⟩
      have hcount : ((s.allocated.filter fun id => p.base id ≠ b).filter fun id => p.base id = b') =
          s.allocated.filter fun id => p.base id = b' := by
        ext x
        simp only [Finset.mem_filter]
        constructor
        · intro hx
          exact ⟨hx.1.1,hx.2⟩
        · intro hx
          exact ⟨⟨hx.1,fun heq => hb' (hx.2.symm.trans heq)⟩,hx.2⟩
      simp only [hminors,hcount]
      exact h.slots b' slot hget

section

variable (h : Refines p a s)
include h

theorem Refines.sum_majors {g : FlatAlloc → Nat} {k : Nat → Nat}
    (hg : ∀ b slot, a.majors.get? b = some slot → g slot = k b) :
    (a.majors.entries.map fun e => g e.2).sum = ∑ b ∈ s.reserved, k b := by
  have hmap : (a.majors.entries.map fun e => g e.2) = (a.majors.entries.map Prod.fst).map k := by
    rw [map_map]
    apply map_congr_left
    intro e he
    exact hg e.1 e.2 (get?_of_mem he)
  have hkeys : (a.majors.entries.map Prod.fst).toFinset = s.reserved := by
    ext b
    rw [mem_toFinset,mem_map,h.majors b]
    constructor
    · intro ⟨e,he,heq⟩
      exact ⟨e.2,heq ▸ get?_of_mem he⟩
    · intro ⟨slot,hget⟩
      exact ⟨(b, slot),mem_of_get? hget,rfl⟩
  rw [hmap,← sum_toFinset k a.majors.keys_nodup,hkeys]

theorem Refines.used : a.used = s.allocated.card := by
  have hsum := h.sum_majors (g := FlatAlloc.used) fun b slot hget => (h.slots b slot hget).inuse
  rw [IdAlloc.used,hsum,p.card_by_blocks s.allocated s.reserved]
  exact congrArg (· + _) h.flat.inuse

theorem Refines.available : a.available = (p.range \ s.allocated).card := by
  have hsum := h.sum_majors fun b slot hget => (h.slots b slot hget).available
  rw [IdAlloc.available,hsum,h.flat.available,p.card_by_blocks (p.range \ s.allocated) s.reserved]
  apply congrArg ((p.free s).card + ·)
  apply sum_congr rfl
  intro b hb
  congr 1
  ext id
  rw [mem_minors,p.mem_block_iff (h.reserved b hb).1,Finset.mem_filter,Finset.mem_sdiff]
  constructor
  · intro hid
    exact ⟨⟨h.mem_range_of_block hb ((p.mem_block_iff (h.reserved b hb).1).mpr hid.1),hid.2⟩,hid.1⟩
  · intro hid
    exact ⟨hid.2,hid.1.2⟩

theorem Refines.size : a.size = p.range.card := by
  rw [IdSpace.range,card_Ico,IdAlloc.size,FlatAlloc.size,h.flat.atStart,h.flat.atStop]
  rfl

theorem Refines.used_add_available : a.used+a.available = a.size := by
  rw [h.used,h.available,h.size,Nat.add_comm]
  exact card_sdiff_add_card_eq_card h.allocated

end

/-- The allocator and the sets answer a request alike and stay related. -/
def Agrees (p : IdSpace) (a : IdAlloc) (s : IdSet) (op : IdOp) : Prop :=
  (step p.bits p.minorBits a op).1 = (p.step s op).1 ∧
    Refines p (step p.bits p.minorBits a op).2 (p.step s op).2

section

variable (h : Refines p a s)
include h

theorem Refines.alloc : Agrees p a s .alloc := by
  have hspec := h.flat.alloc p.top
  simp only [Agrees,step,IdAlloc.alloc,IdSpace.step,grantLeast]
  cases hres : a.flat.alloc p.bits with
  | mk x f =>
    rw [hres] at hspec
    cases x with
    | none =>
      rw [least_eq_none.mpr hspec.1,hspec.2]
      exact ⟨rfl,h⟩
    | some id =>
      rw [hspec.1]
      exact ⟨rfl,h.grant_flat (least_eq_some.mp hspec.1).1 hspec.2⟩

theorem Refines.keep_slot {slot : FlatAlloc} (hget : a.majors.get? b = some slot) :
    Refines p { a with majors := a.majors.modify b fun _ => slot } s := by
  have hsame : ∀ b', (a.majors.modify b fun _ => slot).get? b' = a.majors.get? b' := by
    intro b'
    rw [get?_modify]
    by_cases hb : b' = b
    · rw [if_pos hb,hb,hget]
      rfl
    · rw [if_neg hb]
  constructor
  · exact h.allocated
  · exact h.reserved
  · exact h.flat
  · simpa only [hsame] using h.majors
  · simpa only [hsame] using h.slots

theorem Refines.allocMinor (b : Nat) : Agrees p a s (.allocMinor b) := by
  simp only [Agrees,step,IdAlloc.allocMinor,IdSpace.step]
  by_cases hb : b ∈ s.reserved
  · obtain ⟨slot,hget⟩ := h.slot hb
    have hspec := (h.slots b slot hget).alloc (h.stop_lt hb)
    simp only [if_pos hb,hget,grantLeast]
    cases hres : slot.alloc p.bits with
    | mk x f =>
      rw [hres] at hspec
      cases x with
      | none =>
        rw [least_eq_none.mpr hspec.1,hspec.2]
        exact ⟨rfl,h.keep_slot hget⟩
      | some id =>
        rw [hspec.1]
        exact ⟨rfl,h.grant_minor hb (least_eq_some.mp hspec.1).1 hspec.2⟩
  · rw [if_neg hb,h.no_slot hb]
    exact ⟨rfl,h⟩

theorem Refines.contains_eq : a.flat.contains id = decide (id ∈ p.range) :=
  h.flat.contains

end

theorem lt_of_mem_range (hid : id ∈ p.range) : id < 2^p.bits :=
  (p.mem_range.mp hid).2.trans p.top

section

variable (h : Refines p a s)
include h

omit h in
theorem mem_block_base : id ∈ p.block (p.base id) := (p.mem_block_iff (p.base_mod id)).mpr rfl

theorem Refines.route_eq (hid : id ∈ p.range)
    (op : FlatAlloc → Outcome IdAllocError FlatAlloc Unit) : route p.bits p.minorBits op a id =
    match a.majors.get? (p.base id) with
    | some slot =>
      within (fun f => { a with majors := a.majors.modify (p.base id) fun _ => f }) (op slot)
    | none => within (fun f => { a with flat := f }) (op a.flat) := by
  rw [route,h.contains_eq,decide_eq_true hid,tokenBase_eq (lt_of_mem_range hid)]
  rfl

theorem Refines.allocAt (id : Nat) : Agrees p a s (.allocAt id) := by
  simp only [Agrees,step,IdAlloc.allocAt,IdSpace.step]
  by_cases hid : id ∈ p.range
  · rw [if_neg (not_not_intro hid),h.route_eq hid]
    by_cases hb : p.base id ∈ s.reserved
    · obtain ⟨slot,hget⟩ := h.slot hb
      rw [hget]
      rcases (h.slots _ slot hget).allocAt (h.stop_lt hb) mem_block_base with
        ⟨hnot,hres⟩ | ⟨hfree,f,hres,hf⟩
      · have hin := not_not.mp (p.mem_minors_base.not.mp hnot)
        simp only [hres,within,settle,if_pos hin]
        exact ⟨trivial,h.keep_slot hget⟩
      · simp only [hres,within,settle,if_neg (p.mem_minors_base.mp hfree)]
        exact ⟨trivial,h.grant_minor hb hfree hf⟩
    · rw [h.no_slot hb]
      rcases h.flat.allocAt p.top hid with ⟨hnot,hres⟩ | ⟨hfree,f,hres,hf⟩
      · have hin := not_not.mp ((mem_free_iff hid hb).not.mp hnot)
        simp only [hres,within,settle,if_pos hin]
        exact ⟨trivial,h⟩
      · simp only [hres,within,settle,if_neg ((mem_free_iff hid hb).mp hfree)]
        exact ⟨trivial,h.grant_flat hfree hf⟩
  · rw [if_pos hid,route,h.contains_eq,decide_eq_false hid]
    exact ⟨rfl,h⟩

theorem Refines.dealloc (id : Nat) : Agrees p a s (.dealloc id) := by
  simp only [Agrees,step,IdAlloc.dealloc,IdSpace.step]
  by_cases hid : id ∈ p.range
  · rw [if_neg (not_not_intro hid),h.route_eq hid]
    by_cases hb : p.base id ∈ s.reserved
    · obtain ⟨slot,hget⟩ := h.slot hb
      rw [hget]
      rcases (h.slots _ slot hget).dealloc (h.stop_lt hb) mem_block_base with
        ⟨hfree,hres⟩ | ⟨hnot,f,hres,hf⟩
      · simp only [hres,within,settle,if_pos (p.mem_minors_base.mp hfree)]
        exact ⟨trivial,h.keep_slot hget⟩
      · have hin := not_not.mp (p.mem_minors_base.not.mp hnot)
        simp only [hres,within,settle,if_neg (not_not_intro hin)]
        refine ⟨trivial,h.change_slot onlyAt_erase ((erase_subset id _).trans h.allocated) hb ?_⟩
        rw [minors_erase mem_block_base,
          card_filter_erase (q := fun x => p.base x = p.base id) rfl hin]
        exact hf
    · rw [h.no_slot hb]
      rcases h.flat.dealloc p.top hid with ⟨hfree,hres⟩ | ⟨hnot,f,hres,hf⟩
      · simp only [hres,within,settle,if_pos ((mem_free_iff hid hb).mp hfree)]
        exact ⟨trivial,h⟩
      · have hin := not_not.mp ((mem_free_iff hid hb).not.mp hnot)
        simp only [hres,within,settle,if_neg (not_not_intro hin)]
        refine ⟨trivial,h.change_flat onlyAt_erase ((erase_subset id _).trans h.allocated) hb ?_⟩
        rw [free_erase hid hb,card_filter_erase hb hin]
        exact hf
  · rw [if_pos hid,route,h.contains_eq,decide_eq_false hid]
    exact ⟨rfl,h⟩

theorem Refines.carve_block (hsub : p.block b ⊆ p.free s) :
    b ∈ p.range ∧ b+2^p.minorBits ≤ p.stop ∧ ∃ f, a.flat.carve b (b+2^p.minorBits) = .ok () f ∧
      f.Manages p.start p.stop (p.free s \ p.block b)
        (s.allocated.filter fun id => p.base id ∉ s.reserved).card := by
  have hpos := Nat.two_pow_pos p.minorBits
  have hfirst : b ∈ p.range :=
    (p.mem_free.mp (hsub (p.mem_block.mpr (by omega : b ≤ b ∧ b < b+2^p.minorBits)))).1.1
  have hlast := p.mem_range.mp (p.mem_free.mp (hsub (p.mem_block.mpr
    (by omega : b ≤ b+2^p.minorBits-1 ∧ b+2^p.minorBits-1 < b+2^p.minorBits)))).1.1
  have hstart := (p.mem_range.mp hfirst).1
  have hstop : b+2^p.minorBits ≤ p.stop := by omega
  refine ⟨hfirst,hstop,?_⟩
  rcases h.flat.carve (by omega : b < b+2^p.minorBits) hstart hstop with ⟨hnot,_⟩ | ⟨_,hok⟩
  · exact absurd hsub hnot
  · exact hok

theorem Refines.allocMajor_ok : ∃ a', a.allocMajor p.bits p.minorBits = .ok (least (p.openBlocks s)) a' ∧
    Refines p a' (p.step s .allocMajor).2 := by
  have hspec := h.flat.findAlignedBlock (minor_lt p) p.top p.width
  simp only [allocMajor,IdSpace.step]
  cases hfind : a.flat.findAlignedBlock p.bits p.minorBits with
  | none =>
    rw [hfind] at hspec
    have hnone : least (p.openBlocks s) = none := by
      rw [least_eq_none,openBlocks,filter_eq_empty_iff]
      intro b _ hb
      exact hspec b hb.1 hb.2
    rw [hnone]
    exact ⟨a,rfl,h⟩
  | some b =>
    rw [hfind] at hspec
    obtain ⟨hmod,hsub,hmin⟩ := hspec
    obtain ⟨hrange,hstop,f,hcarve,hf⟩ := h.carve_block hsub
    have hsome : least (p.openBlocks s) = some b := by
      rw [least_eq_some,openBlocks,Finset.mem_filter]
      refine ⟨⟨hrange,hmod,hsub⟩,?_⟩
      intro b' hb'
      have hopen := (Finset.mem_filter.mp hb').2
      exact hmin b' hopen.1 hopen.2
    simp only [hsome,blockEnd_eq (hstop.trans_lt p.top),hcarve]
    exact ⟨_,rfl,h.reserve hmod hsub hf⟩

theorem Refines.allocMajor : Agrees p a s .allocMajor := by
  obtain ⟨a',hok,h'⟩ := h.allocMajor_ok
  rw [Agrees,step,hok]
  refine ⟨?_,h'⟩
  rw [IdSpace.step]
  cases least (p.openBlocks s) <;> rfl

theorem Refines.allocMajorAt (b : Nat) : Agrees p a s (.allocMajorAt b) := by
  have hbits := pow_bits_le p
  simp only [Agrees,step,IdAlloc.allocMajorAt,IdSpace.step,and_lowMask_eq,h.contains_eq,
    Id.blockSize_eq (minor_lt p),h.flat.atStop]
  by_cases hmod : b%2^p.minorBits = 0
  · rw [if_neg (not_not_intro hmod),if_neg (not_not_intro hmod)]
    by_cases hrange : b ∈ p.range
    · have hlt := lt_of_mem_range hrange
      have htop := p.top
      have hblock : 2^p.minorBits ≤ 2^64 := Nat.pow_le_pow_right (by decide) (minor_lt p).le
      rw [decide_eq_true hrange,if_neg (by decide),mod_eq_of_lt (show _ < 2^128 by omega)]
      by_cases hstop : p.stop < b+2^p.minorBits
      · rw [if_pos (.inr hstop),if_pos (.inr hstop)]
        exact ⟨rfl,h⟩
      · have hnonzero : ¬ (b+2^p.minorBits = 0 ∨ p.stop < b+2^p.minorBits) := by omega
        have hinside : ¬ (b ∉ p.range ∨ p.stop < b+2^p.minorBits) := by simp [hrange,hstop]
        rw [if_neg hnonzero,if_neg hinside]
        by_cases hres : b ∈ s.reserved
        · obtain ⟨slot,hget⟩ := h.slot hres
          rw [hget,if_pos hres]
          exact ⟨rfl,h⟩
        · rw [h.no_slot hres,if_neg hres,Id.fromBits,mod_eq_of_lt (by omega)]
          have hstart := (p.mem_range.mp hrange).1
          rcases h.flat.carve (by omega : b < b+2^p.minorBits) hstart (by omega) with
            ⟨hnot,hcarve⟩ | ⟨hsub,f,hcarve,hf⟩
          · simp only [hcarve]
            rw [if_pos (show ¬ p.block b ⊆ p.free s from hnot)]
            exact ⟨rfl,h⟩
          · simp only [hcarve]
            rw [if_neg (not_not_intro (show p.block b ⊆ p.free s from hsub))]
            exact ⟨rfl,h.reserve hmod hsub hf⟩
    · rw [decide_eq_false hrange,if_pos rfl,if_pos (.inl hrange)]
      exact ⟨rfl,h⟩
  · rw [if_pos hmod,if_pos hmod]
    exact ⟨rfl,h⟩

theorem Refines.deallocMajor (b : Nat) : Agrees p a s (.deallocMajor b) := by
  simp only [Agrees,step,IdAlloc.deallocMajor,IdSpace.step]
  by_cases hb : b ∈ s.reserved
  · obtain ⟨slot,hget⟩ := h.slot hb
    rw [hget,if_neg (not_not_intro hb)]
    simp only [blockEnd_eq (h.stop_lt hb)]
    exact ⟨rfl,h.unreserve hb⟩
  · rw [h.no_slot hb,if_pos hb]
    exact ⟨rfl,h⟩

theorem Refines.isAllocated (id : Nat) :
    a.isAllocated p.bits p.minorBits id = decide (id ∈ s.allocated) := by
  rw [IdAlloc.isAllocated,h.contains_eq]
  by_cases hid : id ∈ p.range
  · rw [decide_eq_true hid,if_neg (by decide),tokenBase_eq (lt_of_mem_range hid)]
    by_cases hb : p.base id ∈ s.reserved
    · obtain ⟨slot,hget⟩ := h.slot hb
      rw [hget]
      simp only [(h.slots _ slot hget).isAllocated]
      rw [decide_eq_decide]
      exact (and_iff_right mem_block_base).trans (not_iff_comm.mp p.mem_minors_base.symm)
    · rw [h.no_slot hb]
      simp only [h.flat.isAllocated]
      rw [decide_eq_decide,p.mem_free]
      change (id ∈ p.range ∧ _) ↔ _
      simp [hid,hb]
  · rw [decide_eq_false hid,if_pos rfl,eq_comm,decide_eq_false_iff_not]
    exact fun hin => hid (h.allocated hin)

end

theorem refines_new (p : IdSpace) : Refines p ⟨.new p.start p.stop,.empty⟩ ⟨∅,∅⟩ := by
  have hfree : p.free ⟨∅,∅⟩ = Finset.Ico p.start p.stop := by
    ext x
    simp [mem_free,IdSpace.range]
  constructor
  · exact empty_subset _
  · intro b hb
    exact absurd hb (notMem_empty b)
  · rw [hfree]
    exact FlatAlloc.manages_new p.start p.stop
  · simp
  · intro b slot hget
    cases hget

theorem Refines.reset (h : Refines p a s) : Refines p a.reset ⟨∅,∅⟩ := by
  rw [IdAlloc.reset,h.flat.atStart,h.flat.atStop]
  exact refines_new p

theorem Refines.step (h : Refines p a s) (op : IdOp) : Agrees p a s op := by
  cases op with
  | alloc => exact h.alloc
  | allocAt id => exact h.allocAt id
  | dealloc id => exact h.dealloc id
  | allocMajor => exact h.allocMajor
  | allocMajorAt b => exact h.allocMajorAt b
  | allocMinor b => exact h.allocMinor b
  | deallocMajor b => exact h.deallocMajor b
  | reset => exact ⟨rfl,h.reset⟩
  | isAllocated id => exact ⟨congrArg flag (h.isAllocated id),h⟩
  | contains id => exact ⟨congrArg flag h.contains_eq,h⟩
  | used => exact ⟨congrArg number h.used,h⟩
  | available => exact ⟨congrArg number h.available,h⟩
  | size => exact ⟨congrArg number h.size,h⟩
  | isFull => exact ⟨congrArg (fun n => flag (n == 0)) h.available,h⟩
  | isEmpty => exact ⟨congrArg (fun n => flag (n == 0)) h.used,h⟩

section

theorem Refines.run (h : Refines p a s) (ops : List IdOp) :
    answers (IdAlloc.step p.bits p.minorBits) a ops = answers p.step s ops ∧
      Refines p (after (IdAlloc.step p.bits p.minorBits) a ops) (after p.step s ops) :=
  answers_simulation (R := Refines p) (fun _ _ op h => h.step op) h ops

theorem grantLeast_answer (F : Finset Nat) : (IdSpace.grantLeast s F).1 = .id (least F) := by
  rw [grantLeast]
  cases least F <;> rfl

theorem grantLeast_fresh {F : Finset Nat} (hF : ∀ x ∈ F, x ∉ s.allocated) (h : least F = some id) :
    id ∉ s.allocated ∧ id ∈ (IdSpace.grantLeast s F).2.allocated := by
  rw [grantLeast,h]
  exact ⟨hF id (least_eq_some.mp h).1,mem_insert_self id _⟩

variable {op : IdOp}

theorem grant_fresh (h : op.grant (p.step s op).1 = some id) :
    id ∉ s.allocated ∧ id ∈ (p.step s op).2.allocated := by
  cases op with
  | alloc =>
    simp only [IdSpace.step,grantLeast_answer] at h ⊢
    exact grantLeast_fresh (fun x hx => (p.mem_free.mp hx).1.2) h
  | allocMinor b =>
    simp only [IdSpace.step] at h ⊢
    by_cases hb : b ∈ s.reserved
    · rw [if_pos hb] at h ⊢
      rw [grantLeast_answer] at h
      exact grantLeast_fresh (fun x hx => (p.mem_minors.mp hx).2) h
    · rw [if_neg hb] at h
      cases h
  | allocAt x =>
    simp only [IdSpace.step] at h ⊢
    by_cases hrange : x ∈ p.range
    · rw [if_neg (not_not_intro hrange)] at h ⊢
      by_cases hin : x ∈ s.allocated
      · rw [if_pos hin] at h
        cases h
      · rw [if_neg hin] at h ⊢
        cases h
        exact ⟨hin,mem_insert_self id _⟩
    · rw [if_pos hrange] at h
      cases h
  | _ => cases h

theorem mem_step_of_not_releases (hid : id ∈ s.allocated) (hop : ¬ p.Releases id op) :
    id ∈ (p.step s op).2.allocated := by
  have hleast : ∀ F : Finset Nat, id ∈ (grantLeast s F).2.allocated := by
    intro F
    rw [grantLeast]
    cases least F with
    | none => exact hid
    | some x => exact mem_insert_of_mem hid
  cases op with
  | alloc => exact hleast _
  | allocMinor b =>
    simp only [IdSpace.step]
    split
    · exact hleast _
    · exact hid
  | allocAt x =>
    simp only [IdSpace.step]
    split
    · exact hid
    · split
      · exact hid
      · exact mem_insert_of_mem hid
  | dealloc x =>
    have hne : id ≠ x := fun heq => hop (.inl (by rw [heq]))
    simp only [IdSpace.step]
    split
    · exact hid
    · split
      · exact hid
      · exact mem_erase.mpr ⟨hne,hid⟩
  | allocMajor =>
    simp only [IdSpace.step]
    split
    · exact hid
    · exact hid
  | allocMajorAt b =>
    simp only [IdSpace.step]
    repeat' split
    all_goals exact hid
  | deallocMajor b =>
    have hne : p.base id ≠ b := fun heq => hop (.inr (.inl (by rw [heq])))
    simp only [IdSpace.step]
    split
    · exact hid
    · exact mem_filter.mpr ⟨hid,hne⟩
  | reset => exact absurd (.inr (.inr rfl)) hop
  | _ => exact hid

theorem mem_after_of_not_releases {ops : List IdOp} (hid : id ∈ s.allocated)
    (hops : ∀ op ∈ ops, ¬ p.Releases id op) : id ∈ (after p.step s ops).allocated := by
  induction ops generalizing s with
  | nil => exact hid
  | cons op ops ih =>
    have hnext := mem_step_of_not_releases hid (hops op mem_cons_self)
    exact ih hnext fun op' hop' => hops op' (mem_cons_of_mem op hop')

theorem fromRange_eq (p : IdSpace) :
    fromRange p.bits p.minorBits p.start p.stop = .ok ⟨.new p.start p.stop,.empty⟩ := by
  have hmask : ¬ p.start &&& Id.lowMask p.minorBits ≠ 0 := by
    rw [and_lowMask_eq,p.aligned]
    decide
  rw [fromRange,validateRange,if_neg (not_le.mpr p.minor),if_neg hmask]

/-- The allocator of an aligned range answers every sequence of requests like a set of identifiers
and a set of reserved blocks; the counts always add up, and no identifier is handed out twice
without having been given back. -/
theorem id_alloc_refines_set (p : IdSpace) :
    ∃ a, fromRange p.bits p.minorBits p.start p.stop = .ok a ∧
      let step := step p.bits p.minorBits
      (∀ ops, answers step a ops = answers p.step ⟨∅,∅⟩ ops) ∧
      (∀ ops, (after step a ops).used + (after step a ops).available = (after step a ops).size) ∧
      ∀ (ops mid : List IdOp) (op op' : IdOp) (id : Nat), op.grant (step (after step a ops) op).1 = some id →
        op'.grant (step (after step a (ops ++ op :: mid)) op').1 = some id →
        ∃ r ∈ mid, p.Releases id r := by
  refine ⟨_,fromRange_eq p,?_⟩
  have hrun := (refines_new p).run
  refine ⟨fun ops => (hrun ops).1,fun ops => (hrun ops).2.used_add_available,?_⟩
  intro ops mid op op' id h h'
  rw [((hrun ops).2.step op).1] at h
  rw [((hrun (ops ++ op :: mid)).2.step op').1,after_append] at h'
  by_contra hno
  have hkept := mem_after_of_not_releases (grant_fresh h).2 fun r hr hrel => hno ⟨r,hr,hrel⟩
  exact (grant_fresh h').1 hkept

/-- Bytes from 16 on, in blocks of 16; the last block is not complete. -/
def byteSpace : IdSpace := ⟨8,4,16,255,by decide,by decide,by decide,by decide,by decide⟩

theorem id_alloc_refines_set_bytes : ∃ a, fromRange 8 4 16 255 = .ok a ∧
    ∀ ops, answers (step 8 4) a ops = answers byteSpace.step ⟨∅,∅⟩ ops := by
  obtain ⟨a,ha,hans,_⟩ := id_alloc_refines_set byteSpace
  exact ⟨a,ha,hans⟩

end

variable {w N start stop : Nat}

/-- What the constructors, `init` and the operations lead to. -/
inductive Reachable (w N : Nat) : IdAlloc → Prop where
  | new : Reachable w N new
  | fromRange {start stop : Nat} {a : IdAlloc} (htop : stop < 2 ^ w)
      (h : fromRange w N start stop = .ok a) : Reachable w N a
  | init {start stop : Nat} {a a' : IdAlloc} (ha : Reachable w N a) (htop : stop < 2 ^ w)
      (h : a.init w N start stop = .ok () a') : Reachable w N a'
  | step {a : IdAlloc} (ha : Reachable w N a) (op : IdOp) : Reachable w N (step w N a op).2

/-- A block that can be reserved: its identifiers lie in the range, and none of them is allocated
or in a reserved block. -/
def OpenBlock (w N : Nat) (a : IdAlloc) (b : Nat) : Prop :=
  b % 2 ^ N = 0 ∧ ∀ id, b ≤ id → id < b + 2 ^ N →
    a.contains id = true ∧ a.isAllocated w N id = false ∧
      ∀ c slot, a.majors.get? c = some slot → id < c ∨ c + 2 ^ N ≤ id

/-- An allocator for a range without identifiers. -/
def Vacant (a : IdAlloc) : Prop := ∃ start stop, stop ≤ start ∧ a = ⟨⟨start,stop,0,.empty⟩,.empty⟩

theorem vacant_new (h : stop ≤ start) : Vacant ⟨.new start stop,.empty⟩ := by
  rw [FlatAlloc.new,if_neg (not_lt.mpr h)]
  exact ⟨start,stop,h,rfl⟩

theorem Vacant.contains_eq (h : Vacant a) (id : Nat) : a.flat.contains id = false := by
  obtain ⟨start,stop,hle,rfl⟩ := h
  simp only [FlatAlloc.contains,Bool.and_eq_false_iff,decide_eq_false_iff_not]
  omega

theorem Vacant.findAlignedBlock (h : Vacant a) : a.flat.findAlignedBlock w N = none := by
  obtain ⟨start,stop,_,rfl⟩ := h
  rw [FlatAlloc.findAlignedBlock]
  split
  · rfl
  · rfl

theorem Vacant.step (h : Vacant a) (op : IdOp) : Vacant (step w N a op).2 := by
  have hno := h.contains_eq
  cases op with
  | allocMajor => simpa [IdAlloc.step,allocMajor,h.findAlignedBlock,settle]
  | allocMajorAt b =>
    rw [IdAlloc.step,allocMajorAt,if_pos (hno b)]
    split
    · exact h
    · exact h
  | allocAt id => simpa [IdAlloc.step,allocAt,route,hno,settle]
  | dealloc id => simpa [IdAlloc.step,dealloc,route,hno,settle]
  | reset =>
    obtain ⟨start,stop,hle,rfl⟩ := h
    exact vacant_new hle
  | _ =>
    obtain ⟨start,stop,hle,rfl⟩ := h
    exact ⟨start,stop,hle,rfl⟩

theorem refines_of_valid (hw : w ≤ 64) (htop : stop < 2^w) (hle : start ≤ stop)
    (h : validateRange w N start = .ok ()) :
    ∃ p s, p.bits = w ∧ p.minorBits = N ∧ Refines p ⟨.new start stop,.empty⟩ s := by
  rw [validateRange] at h
  split at h
  · cases h
  · split at h
    · cases h
    · rename_i hN hmask
      rw [not_not,Id.lowMask_eq (by omega),and_two_pow_sub_one_eq_mod] at hmask
      exact ⟨⟨w,N,start,stop,hw,not_le.mp hN,hmask,hle,htop⟩,_,rfl,rfl,refines_new _⟩

theorem vacant_or_refines (hw : w ≤ 64) (htop : stop < 2^w) (h : validateRange w N start = .ok ()) :
    Vacant ⟨.new start stop,.empty⟩ ∨
      ∃ p s, p.bits = w ∧ p.minorBits = N ∧ Refines p ⟨.new start stop,.empty⟩ s :=
  (le_total stop start).imp vacant_new fun hle => refines_of_valid hw htop hle h

theorem Reachable.refines (hw : w ≤ 64) (h : Reachable w N a) :
    Vacant a ∨ ∃ p s, p.bits = w ∧ p.minorBits = N ∧ Refines p a s := by
  induction h with
  | new => exact .inl (vacant_new le_rfl)
  | fromRange htop h =>
    rw [IdAlloc.fromRange] at h
    split at h
    · cases h
    · cases h
      exact vacant_or_refines hw htop ‹_›
  | init _ htop h =>
    rw [IdAlloc.init] at h
    split at h
    · cases h
    · cases h
      exact vacant_or_refines hw htop ‹_›
  | step _ op ih =>
    rcases ih with hvacant | ⟨p,s,rfl,rfl,h⟩
    · exact .inl (hvacant.step op)
    · exact .inr ⟨p,_,rfl,rfl,(h.step op).2⟩

theorem Refines.openBlock_iff (h : Refines p a s) :
    a.OpenBlock p.bits p.minorBits b ↔ b ∈ p.openBlocks s := by
  have hapart : ∀ id, (∀ c slot, a.majors.get? c = some slot → id < c ∨ c+2^p.minorBits ≤ id) ↔
      p.base id ∉ s.reserved := by
    intro id
    constructor
    · intro hno hmem
      obtain ⟨slot,hget⟩ := h.slot hmem
      have hle := p.base_le id
      have hlt := p.lt_base_add id
      have := hno _ slot hget
      omega
    · intro hno c slot hget
      have hc := (h.majors c).mpr ⟨slot,hget⟩
      by_contra hin
      refine hno (((p.mem_block_iff (h.reserved c hc).1).mp (p.mem_block.mpr ?_)) ▸ hc)
      omega
  have hfree : (∀ id, b ≤ id → id < b+2^p.minorBits → a.contains id = true ∧
      a.isAllocated p.bits p.minorBits id = false ∧
        ∀ c slot, a.majors.get? c = some slot → id < c ∨ c+2^p.minorBits ≤ id) ↔
      p.block b ⊆ p.free s := by
    simp only [hapart,contains,h.contains_eq,h.isAllocated,decide_eq_true_eq,
      decide_eq_false_iff_not,subset_iff,p.mem_block,p.mem_free,and_imp,and_assoc]
  rw [OpenBlock,hfree,openBlocks,Finset.mem_filter]
  constructor
  · intro hb
    exact ⟨(h.carve_block hb.2).1,hb⟩
  · intro hb
    exact hb.2

/-- `alloc_major` reserves the first block that can be reserved and never meets its `expect`. -/
theorem alloc_major_first_fit (hw : w ≤ 64) (h : Reachable w N a) :
    ∃ r a', a.allocMajor w N = .ok r a' ∧ (∀ b, r = some b ↔ IsLeast {b | a.OpenBlock w N b} b) ∧
      (r = none ↔ ∀ b, ¬ a.OpenBlock w N b) := by
  rcases h.refines hw with hvacant | ⟨p,s,rfl,rfl,hrefines⟩
  · have hopen : ∀ b, ¬ a.OpenBlock w N b := by
      intro b hb
      have hin := (hb.2 b le_rfl (Nat.lt_add_of_pos_right (Nat.two_pow_pos N))).1
      rw [contains,hvacant.contains_eq] at hin
      cases hin
    refine ⟨none,a,by simp [allocMajor,hvacant.findAlignedBlock],?_,by simp [hopen]⟩
    simp [IsLeast,hopen]
  · obtain ⟨a',hmajor,_⟩ := hrefines.allocMajor_ok
    refine ⟨_,a',hmajor,?_,?_⟩
    · intro b
      simp only [least_eq_some,IsLeast,lowerBounds,Set.mem_ofPred_eq,hrefines.openBlock_iff]
    · simp only [least_eq_none,eq_empty_iff_forall_notMem,hrefines.openBlock_iff]

theorem alloc_major_first_fit_bytes : ∃ a, Reachable 8 4 a ∧ IsLeast {b | a.OpenBlock 8 4 b} 32 := by
  have hfresh : Reachable 8 4 ⟨.new 16 255,.empty⟩ := .fromRange (by decide) (fromRange_eq byteSpace)
  have hreach := hfresh.step .alloc
  obtain ⟨r,a',hmajor,hleast,_⟩ := alloc_major_first_fit (by decide) hreach
  have hr : r = some 32 := by
    have heq := congrArg Outcome.result hmajor
    exact (Except.ok.inj (Option.some.inj (Eq.trans (by decide) heq))).symm
  exact ⟨_,hreach,(hleast 32).mp hr⟩

end IdAlloc

end Athera
