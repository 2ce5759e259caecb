import Athera.Framework.ListFamily
import Athera.Mm.Constants
import Athera.Mm.IntrusiveList

/-!
# The buddy allocator

`mm/allocator/buddy.rs`, with the links of its free lists stored in the free blocks themselves.
Beside it stand the same operations on lists of addresses.
-/

namespace Athera

open Framework ListFamily Option Function IntrusiveList

def orderSize (order : Nat) : Nat := 1 <<< order <<< pageSizeLog2

def buddyAddress (base order : Nat) : Nat := base ^^^ orderSize order

def sizeToOrder (size : Nat) : Nat :=
  let n := ilog2Ceil size
  if n ≤ pageSizeLog2 then 0 else min (n - pageSizeLog2) (buddyMaxOrder - 1)

/-- The free lists, and the memory that holds their links. -/
structure Buddy where
  freeList : Nat → IntrusiveList
  mem : Memory

namespace Buddy

def new (m : Memory) : Buddy := ⟨fun _ => .new,m⟩

/-- `self.free_list[order].push(item)`. -/
def pushAt (s : Buddy) (order item : Nat) : Option Buddy := do
  let (l, m) ← (s.freeList order).push s.mem item
  return ⟨update s.freeList order l,m⟩

/-- `self.free_list[order].remove(item)`. -/
def removeAt (s : Buddy) (order item : Nat) : Option (Bool × Buddy) := do
  let (found, l, m) ← (s.freeList order).remove s.mem item
  return (found, ⟨update s.freeList order l,m⟩)

def pushChunks (order : Nat) : Nat → Nat → Buddy → Option (Nat × Buddy)
  | 0, current, s => some (current, s)
  | chunks + 1, current, s => do
    let s' ← s.pushAt order current
    pushChunks order chunks (current + orderSize order) s'

/-- The loop of `add_frame` over the orders below `n`, largest first. -/
def addOrders (stop : Nat) : Nat → Nat → Buddy → Option Buddy
  | 0, _, s => some s
  | n + 1, current, s =>
    if stop ≤ current then some s
    else do
      let (current', s') ← pushChunks n ((stop - current) / orderSize n) current s
      addOrders stop n current' s'

def addFrame (s : Buddy) (start stop : Nat) : Option Buddy := addOrders stop buddyMaxOrder start s

def add (s : Buddy) (start stop : Nat) : Option Buddy :=
  s.addFrame (align start (1 <<< (buddyMaxOrder + 11))) stop

/-- Put the upper halves of `chunk` back, from order `order + n - 1` down to `order`. -/
def splitDown (chunk order : Nat) : Nat → Buddy → Option Buddy
  | 0, s => some s
  | n + 1, s => do
    let s' ← s.pushAt (order + n) (chunk + orderSize (order + n))
    splitDown chunk order n s'

def alloc (s : Buddy) (order : Nat) : Option (Option Nat × Buddy) :=
  match (List.range' order (buddyMaxOrder - order)).find? (fun i => !(s.freeList i).isEmpty) with
  | none => some (none, s)
  | some i =>
    match (s.freeList i).pop s.mem with
    | (none, _) => some (none, s)
    | (some chunk, l) => do
      let s' ← splitDown chunk order (i - order) ⟨update s.freeList i l,s.mem⟩
      return (some chunk, s')

/-- The merge loop of `dealloc`; it ends with the pointer and the order that are pushed. -/
def mergeUp : Nat → Nat → Nat → Buddy → Option (Nat × Nat × Buddy)
  | 0, ptr, order, s => some (ptr, order, s)
  | n + 1, ptr, order, s => do
    let buddy := buddyAddress ptr order
    let (found, s') ← s.removeAt order buddy
    if found then
      let ptr' := if buddy < ptr then buddy else ptr
      if buddyMaxOrder ≤ order + 1 then return (ptr', buddyMaxOrder - 1, s')
      else mergeUp n ptr' (order + 1) s'
    else return (ptr, order, s')

/-- An order outside the array of free lists panics. -/
def dealloc (s : Buddy) (start order : Nat) : Option Buddy :=
  if order < buddyMaxOrder then do
    let (ptr, order', s') ← mergeUp (buddyMaxOrder - order) start order s
    s'.pushAt order' ptr
  else none

def allocFrame (s : Buddy) (size : Nat) : Option (Option Nat × Buddy) := s.alloc (sizeToOrder size)

def deallocFrame (s : Buddy) (start size : Nat) : Option Buddy := s.dealloc start (sizeToOrder size)

/-- The blocks on the free list of an order. -/
def blocks (s : Buddy) (order : Nat) : List Nat := (s.freeList order).iter s.mem

end Buddy

theorem orderSize_eq (order : Nat) : orderSize order = 2^(order+12) := by
  rw [orderSize,pageSizeLog2_eq,← Nat.shiftLeft_add,Nat.shiftLeft_eq,Nat.one_mul]

theorem orderSize_succ (order : Nat) : orderSize (order+1) = 2*orderSize order := by
  simp only [orderSize_eq,Nat.add_right_comm order 1 12]
  omega

theorem orderSize_pos (order : Nat) : 0 < orderSize order := by
  rw [orderSize_eq]
  exact Nat.two_pow_pos _

theorem orderSize_mono {j k : Nat} (h : j ≤ k) : orderSize j ≤ orderSize k := by
  simp only [orderSize_eq]
  exact Nat.pow_le_pow_right (by decide) (by omega)

theorem orderSize_dvd {j k : Nat} (h : j ≤ k) : orderSize j ∣ orderSize k := by
  simp only [orderSize_eq]
  exact Nat.pow_dvd_pow 2 (by omega)

theorem pageSize_le_orderSize (order : Nat) : pageSize ≤ orderSize order := by
  have h := orderSize_mono (Nat.zero_le order)
  exact le_trans (by decide) h

theorem round_orderSize {j k : Nat} (h : k ≤ j) (p : Nat) :
    p/orderSize k*orderSize k/orderSize j*orderSize j = p/orderSize j*orderSize j := by
  obtain ⟨t,ht⟩ := orderSize_dvd h
  have hdiv : p/orderSize k*orderSize k/orderSize j = p/orderSize j := by
    rw [ht,Nat.mul_comm _ (orderSize k),Nat.mul_div_mul_left _ _ (orderSize_pos k),
      Nat.div_div_eq_div_mul]
  rw [hdiv]

theorem min_buddyAddress {p k : Nat} (h : orderSize k ∣ p) :
    min p (buddyAddress p k) = p/orderSize (k+1)*orderSize (k+1) := by
  rw [orderSize_eq] at h
  rw [orderSize_succ,buddyAddress,orderSize_eq]
  exact min_xor_two_pow h

theorem buddyAddress_adjacent {p k : Nat} (h : orderSize k ∣ p) :
    buddyAddress p k = p+orderSize k ∨ p = buddyAddress p k+orderSize k := by
  rw [orderSize_eq] at h
  rw [buddyAddress,orderSize_eq]
  exact xor_two_pow_adjacent h

theorem buddyAddress_buddyAddress (p k : Nat) : buddyAddress (buddyAddress p k) k = p := by
  simp only [buddyAddress,Nat.xor_assoc,Nat.xor_self,Nat.xor_zero]

/-! ## The same operations on lists of addresses -/

namespace FreeLists

def pushChunks (order : Nat) : Nat → Nat → (Nat → List Nat) → Nat × (Nat → List Nat)
  | 0, current, L => (current, L)
  | chunks + 1, current, L =>
    pushChunks order chunks (current + orderSize order) (push L order current)

def addOrders (stop : Nat) : Nat → Nat → (Nat → List Nat) → Nat → List Nat
  | 0, _, L => L
  | n + 1, current, L =>
    if stop ≤ current then L
    else
      let r := pushChunks n ((stop - current) / orderSize n) current L
      addOrders stop n r.1 r.2

def add (L : Nat → List Nat) (start stop : Nat) : Nat → List Nat :=
  addOrders stop buddyMaxOrder (align start (1 <<< (buddyMaxOrder + 11))) L

def splitDown (chunk order : Nat) : Nat → (Nat → List Nat) → Nat → List Nat
  | 0, L => L
  | n + 1, L => splitDown chunk order n (push L (order + n) (chunk + orderSize (order + n)))

def alloc (L : Nat → List Nat) (order : Nat) : Option Nat × (Nat → List Nat) :=
  match (List.range' order (buddyMaxOrder - order)).find? (fun i => !(L i).isEmpty) with
  | none => (none, L)
  | some i =>
    match L i with
    | [] => (none, L)
    | chunk :: _ => (some chunk, splitDown chunk order (i - order) (erase L i chunk))

def mergeUp : Nat → Nat → Nat → (Nat → List Nat) → Nat × Nat × (Nat → List Nat)
  | 0, ptr, order, L => (ptr, order, L)
  | n + 1, ptr, order, L =>
    let buddy := buddyAddress ptr order
    if buddy ∈ L order then
      let ptr' := if buddy < ptr then buddy else ptr
      if buddyMaxOrder ≤ order + 1 then (ptr', buddyMaxOrder - 1, erase L order buddy)
      else mergeUp n ptr' (order + 1) (erase L order buddy)
    else (ptr, order, L)

def dealloc (L : Nat → List Nat) (start order : Nat) : Nat → List Nat :=
  let r := mergeUp (buddyMaxOrder - order) start order L
  push r.2.2 r.2.1 r.1

end FreeLists

namespace Buddy

/-! ## Pointers follow the lists -/

def Holds (s : Buddy) (L : Nat → List Nat) : Prop := ∀ k, (s.freeList k).Holds s.mem (L k)

variable {s s' : Buddy} {L : Nat → List Nat} {k p : Nat}

theorem holds_new (m : Memory) : Holds (new m) (fun _ => []) := fun _ => IntrusiveList.holds_new m

theorem Holds.blocks_eq (h : Holds s L) (k : Nat) : s.blocks k = L k := (h k).iter_eq

theorem Holds.mem_congr {m : Memory} (h : Holds s L)
    (hm : ∀ k, ∀ q ∈ L k, m.readWord q = s.mem.readWord q) : Holds ⟨s.freeList,m⟩ L :=
  fun k => (h k).congr (hm k)

theorem pushAt_holds (h : Holds s L) (hlt : p < wordRange)
    (ha : ∀ j, ∀ q ∈ L j, NodesApart p q) (hp : s.pushAt k p = some s') :
    p ≠ 0 ∧ Holds s' (push L k p) := by
  obtain ⟨⟨l,m⟩,hpush,hs⟩ := bind_eq_some_iff.mp hp
  obtain rfl : _ = s' := some.inj hs
  obtain ⟨h0,hm,hl⟩ := push_holds (h k) hlt (ha k) hpush
  refine ⟨h0,?_⟩
  intro j
  by_cases hj : j = k
  · subst j
    simpa using hl
  · simp only [push_other hj,update_of_ne hj]
    rw [hm]
    apply (h j).congr
    intro q hq
    exact Memory.readWord_writeWord_of_apart _ _ (ha j q hq)

theorem pushAt_isSome (s : Buddy) (k : Nat) (h0 : p ≠ 0) : ∃ s', s.pushAt k p = some s' := by
  obtain ⟨r,hr⟩ := push_isSome (l := s.freeList k) (m := s.mem) h0
  refine ⟨⟨update s.freeList k r.1,r.2⟩,?_⟩
  simp only [pushAt,hr,bind_eq_bind,bind_some,pure_def]

theorem removeAt_holds (h : Holds s L) (hs : Scattered (fun _ x _ y => NodesApart x y) L)
    (h0 : p ≠ 0) : ∃ s', s.removeAt k p = some (decide (p ∈ L k), s') ∧ Holds s' (erase L k p) := by
  obtain ⟨l,m,hrun,hl,hout⟩ := remove_holds (h k) h0
  refine ⟨⟨update s.freeList k l,m⟩,?_,?_⟩
  · simp only [removeAt,hrun,bind_eq_bind,bind_some,pure_def]
  · intro j
    by_cases hj : j = k
    · subst j
      simpa using hl
    · simp only [erase_other hj,update_of_ne hj]
      apply (h j).congr
      intro q hq
      apply Memory.readWord_congr
      intro y hy
      apply hout
      intro x hx
      exact (hs.across j k hj q hq x hx).not_mem hy

theorem removeAt_null (h : Holds s L) : s.removeAt k 0 = none := by
  rw [removeAt,remove_null (h k)]
  rfl

theorem pop_holds (h : Holds s L) {chunk : Nat} {rest : List Nat} (hk : L k = chunk::rest) :
    ∃ l, (s.freeList k).pop s.mem = (some chunk, l) ∧
      Holds ⟨update s.freeList k l,s.mem⟩ (erase L k chunk) := by
  have hh := h k
  rw [hk] at hh
  obtain ⟨hpop,hrest⟩ := pop_cons hh
  refine ⟨_,hpop,?_⟩
  intro j
  by_cases hj : j = k
  · subst j
    simpa [hk] using hrest
  · simpa [erase_other hj,update_of_ne hj] using h j

theorem find_nonEmpty (h : Holds s L) (order : Nat) :
    (List.range' order (buddyMaxOrder-order)).find? (fun i => !(s.freeList i).isEmpty) =
      (List.range' order (buddyMaxOrder-order)).find? (fun i => !(L i).isEmpty) := by
  congr 1
  funext i
  have hi := (h i).isEmpty_iff
  cases hc : (s.freeList i).isEmpty
  · have hne : L i ≠ [] := fun hn => by simp [hi.mpr hn] at hc
    simp [hne]
  · simp [hi.mp hc]

end Buddy

end Athera
