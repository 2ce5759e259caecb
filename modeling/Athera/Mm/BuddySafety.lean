import Athera.Mm.Buddy

/-!
# Safety of the buddy allocator

Every free or outstanding block is aligned to its size, sits inside one of the added ranges, and
shares no address with another one.
-/

namespace Athera

open Framework ListFamily List Block

/-- A block of a power-of-two size, as the allocator hands it out. -/
structure Chunk where
  start : Nat
  order : Nat
deriving DecidableEq, Repr

def Chunk.block (c : Chunk) : Block := ⟨c.start,orderSize c.order⟩

theorem Chunk.block_size_pos (c : Chunk) : 0 < c.block.size := orderSize_pos c.order

/-- Two half-open ranges have no common address. -/
def RangesApart (r r' : Nat × Nat) : Prop := r.2 ≤ r.1 ∨ r'.2 ≤ r'.1 ∨ r.2 ≤ r'.1 ∨ r'.2 ≤ r.1

instance (r r' : Nat × Nat) : Decidable (RangesApart r r') :=
  inferInstanceAs (Decidable (r.2 ≤ r.1 ∨ r'.2 ≤ r'.1 ∨ r.2 ≤ r'.1 ∨ r'.2 ≤ r.1))

theorem RangesApart.symm {r r' : Nat × Nat} (h : RangesApart r r') : RangesApart r' r := by
  simp only [RangesApart] at h ⊢
  omega

instance : Std.Symm RangesApart := ⟨fun _ _ => RangesApart.symm⟩

def topSize : Nat := orderSize (buddyMaxOrder - 1)

/-- The aligned stretch of the largest block size that an address lies in starts here. -/
def topWindow (p : Nat) : Nat := p / topSize * topSize

theorem topWindow_le (p : Nat) : topWindow p ≤ p := Nat.div_mul_le_self p topSize

theorem topWindow_mono {p q : Nat} (h : p ≤ q) : topWindow p ≤ topWindow q :=
  Nat.mul_le_mul_right _ (Nat.div_le_div_right h)

theorem topWindow_round {k : Nat} (hk : k < buddyMaxOrder) (p : Nat) :
    topWindow (p/orderSize k*orderSize k) = topWindow p :=
  round_orderSize (by simp only [buddyMaxOrder] at hk ⊢; omega) p

/-- The block lies in an added range, together with the addresses below it down to the start
of its stretch. -/
def Placed (ranges : List (Nat × Nat)) (c : Chunk) : Prop :=
  ∃ r ∈ ranges, r.1 ≤ topWindow c.start ∧ c.start + orderSize c.order ≤ r.2

structure Good (ranges : List (Nat × Nat)) (c : Chunk) : Prop where
  order_lt : c.order < buddyMaxOrder
  aligned : orderSize c.order ∣ c.start
  placed : Placed ranges c

def FreeApart (j x k y : Nat) : Prop := (Chunk.mk x j).block.Apart (Chunk.mk y k).block

theorem FreeApart.symm (j x k y : Nat) (h : FreeApart j x k y) : FreeApart k y j x :=
  Apart.symm h

/-- The invariant of the free lists `L` and the outstanding blocks `live`. -/
structure Sound (ranges : List (Nat × Nat)) (live : List Chunk) (L : Nat → List Nat) : Prop where
  ranges_lt : ∀ r ∈ ranges, r.2 < wordRange
  ranges_apart : ranges.Pairwise RangesApart
  free_good : ∀ k, ∀ p ∈ L k, Good ranges ⟨p,k⟩
  free_apart : Scattered FreeApart L
  live_good : ∀ c ∈ live, Good ranges c
  live_apart : live.Pairwise (fun c d => c.block.Apart d.block)
  live_free : ∀ c ∈ live, ∀ k, ∀ p ∈ L k, c.block.Apart (Chunk.mk p k).block

/-- The block `c` could join the free lists or the outstanding blocks. -/
structure Fits (ranges : List (Nat × Nat)) (live : List Chunk) (L : Nat → List Nat) (c : Chunk) :
    Prop where
  good : Good ranges c
  free : ∀ k, ∀ p ∈ L k, c.block.Apart (Chunk.mk p k).block
  live : ∀ d ∈ live, c.block.Apart d.block

variable {ranges : List (Nat × Nat)} {live : List Chunk} {L : Nat → List Nat} {c : Chunk}
  {k p : Nat}

namespace Sound

variable (h : Sound ranges live L)
include h

theorem push (hc : Fits ranges live L c) :
    Sound ranges live (ListFamily.push L c.order c.start) where
  ranges_lt := h.ranges_lt
  ranges_apart := h.ranges_apart
  free_good k p hp := by
    rcases mem_push.mp hp with ⟨rfl,rfl⟩ | hp
    · exact hc.good
    · exact h.free_good k p hp
  free_apart := h.free_apart.push FreeApart.symm hc.free
  live_good := h.live_good
  live_apart := h.live_apart
  live_free d hd k p hp := by
    rcases mem_push.mp hp with ⟨rfl,rfl⟩ | hp
    · exact (hc.live d hd).symm
    · exact h.live_free d hd k p hp

theorem erase : Sound ranges live (ListFamily.erase L k p) where
  ranges_lt := h.ranges_lt
  ranges_apart := h.ranges_apart
  free_good j q hq := h.free_good j q (mem_of_mem_erase hq)
  free_apart := h.free_apart.erase
  live_good := h.live_good
  live_apart := h.live_apart
  live_free d hd j q hq := h.live_free d hd j q (mem_of_mem_erase hq)

theorem fits_erase (hp : p ∈ L k) : Fits ranges live (ListFamily.erase L k p) ⟨p,k⟩ where
  good := h.free_good k p hp
  free _ _ hq := h.free_apart.of_mem_erase FreeApart.symm hp hq
  live d hd := (h.live_free d hd k p hp).symm

theorem lend (hc : Fits ranges live L c) : Sound ranges (c::live) L where
  ranges_lt := h.ranges_lt
  ranges_apart := h.ranges_apart
  free_good := h.free_good
  free_apart := h.free_apart
  live_good d hd := by
    rcases mem_cons.mp hd with rfl | hd
    · exact hc.good
    · exact h.live_good d hd
  live_apart := pairwise_cons.mpr ⟨hc.live,h.live_apart⟩
  live_free d hd := by
    rcases mem_cons.mp hd with rfl | hd
    · exact hc.free
    · exact h.live_free d hd

theorem takeBack : Sound ranges (live.erase c) L where
  ranges_lt := h.ranges_lt
  ranges_apart := h.ranges_apart
  free_good := h.free_good
  free_apart := h.free_apart
  live_good d hd := h.live_good d (mem_of_mem_erase hd)
  live_apart := h.live_apart.sublist erase_sublist
  live_free d hd := h.live_free d (mem_of_mem_erase hd)

theorem fits_takeBack (hc : c ∈ live) : Fits ranges (live.erase c) L c where
  good := h.live_good c hc
  free := h.live_free c hc
  live d hd := by
    have hperm := perm_cons_erase hc
    have hpair := (hperm.pairwise_iff
      (fun {_ _} => Apart.symm)).mp h.live_apart
    exact (pairwise_cons.mp hpair).1 d hd

theorem range_unique {r r' : Nat × Nat} (hr : r ∈ ranges)
    (hr' : r' ∈ ranges) {a : Nat} (ha : r.1 ≤ a ∧ a < r.2) (ha' : r'.1 ≤ a ∧ a < r'.2) :
    r = r' := by
  by_contra hne
  have hap := h.ranges_apart.forall hr hr' hne
  simp only [RangesApart] at hap
  omega

theorem nodes_apart : Scattered (fun _ x _ y => NodesApart x y) L := by
  apply h.free_apart.imp
  intro j x k y _ _ hap
  have hj := pageSize_le_orderSize j
  have hk := pageSize_le_orderSize k
  simp only [FreeApart,Chunk.block,Apart,stop] at hap
  simp only [NodesApart,Apart,stop,Memory.wordSize]
  simp only [pageSize] at hj hk
  omega

end Sound

namespace Fits

theorem node_apart (h : Fits ranges live L c) : ∀ j, ∀ q ∈ L j, NodesApart c.start q := by
  intro j q hq
  have hap := h.free j q hq
  have hj := pageSize_le_orderSize j
  have hc := pageSize_le_orderSize c.order
  simp only [Chunk.block,Apart,stop] at hap
  simp only [NodesApart,Apart,stop,Memory.wordSize]
  simp only [pageSize] at hj hc
  omega

theorem start_lt (h : Fits ranges live L c) (hs : Sound ranges live L) : c.start < wordRange := by
  obtain ⟨r,hr,_,hend⟩ := h.good.placed
  have hlt := hs.ranges_lt r hr
  omega

section

variable (h : Fits ranges live L ⟨p,k + 1⟩)
include h

theorem lower : Fits ranges live L ⟨p,k⟩ := by
  obtain ⟨⟨hord,hal,r,hr,hlo,hhi⟩,hfree,hlive⟩ := h
  simp only [orderSize_succ] at hord hal hhi
  have hin : (Chunk.mk p k).block.stop ≤ (Chunk.mk p (k+1)).block.stop := by
    simp only [Chunk.block,stop,orderSize_succ]
    omega
  have hend : p+orderSize k ≤ r.2 := by omega
  refine ⟨⟨Nat.lt_of_succ_lt hord,dvd_of_dvd_two_mul hal,r,hr,hlo,hend⟩,?_,?_⟩
  · intro j q hq
    exact (hfree j q hq).mono (le_refl _) hin
  · intro d hd
    exact (hlive d hd).mono (le_refl _) hin

theorem upper : Fits ranges live L ⟨p+orderSize k,k⟩ := by
  obtain ⟨⟨hord,hal,r,hr,hlo,hhi⟩,hfree,hlive⟩ := h
  simp only [orderSize_succ] at hord hal hhi
  have hstart : (Chunk.mk p (k+1)).block.start ≤ (Chunk.mk (p+orderSize k) k).block.start := by
    simp only [Chunk.block]
    omega
  have hstop : (Chunk.mk (p+orderSize k) k).block.stop ≤ (Chunk.mk p (k+1)).block.stop := by
    simp only [Chunk.block,stop,orderSize_succ]
    omega
  have hwin : topWindow p ≤ topWindow (p+orderSize k) := topWindow_mono (by omega)
  have hend : p+orderSize k+orderSize k ≤ r.2 := by omega
  refine ⟨⟨Nat.lt_of_succ_lt hord,?_,r,hr,le_trans hlo hwin,hend⟩,?_,?_⟩
  · exact Nat.dvd_add (dvd_of_dvd_two_mul hal) (Nat.dvd_refl _)
  · intro j q hq
    exact (hfree j q hq).mono hstart hstop
  · intro d hd
    exact (hlive d hd).mono hstart hstop

theorem lower_push : Fits ranges live (push L k (p+orderSize k)) ⟨p,k⟩ := by
  have hl := h.lower
  refine ⟨hl.good,?_,hl.live⟩
  intro j q hq
  rcases mem_push.mp hq with ⟨rfl,rfl⟩ | hq
  · left
    exact le_refl _
  · exact hl.free j q hq

end

theorem merge (hs : Sound ranges live L) (h : Fits ranges live L ⟨p,k⟩)
    (hb : Fits ranges live L ⟨buddyAddress p k,k⟩) (hk : k+1 < buddyMaxOrder) :
    Fits ranges live L ⟨min p (buddyAddress p k),k+1⟩ := by
  have hmin := min_buddyAddress h.good.aligned
  have hadj := buddyAddress_adjacent h.good.aligned
  have hmin' := min_buddyAddress hb.good.aligned
  simp only [buddyAddress_buddyAddress] at hmin hadj hmin'
  have hw : topWindow (min p (buddyAddress p k)) = topWindow p := by
    rw [hmin]
    exact topWindow_round hk p
  have hw' : topWindow (min p (buddyAddress p k)) = topWindow (buddyAddress p k) := by
    rw [min_comm,hmin']
    exact topWindow_round hk _
  obtain ⟨r,hr,hlo,hhi⟩ := h.good.placed
  obtain ⟨r',hr',hlo',hhi'⟩ := hb.good.placed
  have hpos := orderSize_pos k
  have hle := topWindow_le p
  have hle' := topWindow_le (buddyAddress p k)
  simp only at hlo hhi hlo' hhi'
  have hsame : r = r' := hs.range_unique hr hr' ⟨hlo,by omega⟩
    ⟨by omega,by omega⟩
  subst r'
  have hjoin : ∀ d : Block, 0 < d.size → (Chunk.mk p k).block.Apart d →
      (Chunk.mk (buddyAddress p k) k).block.Apart d →
      (Chunk.mk (min p (buddyAddress p k)) (k+1)).block.Apart d := by
    intro d hd hp hq
    rcases hadj with he | he
    · have hj := hp.join hq (by simp only [Chunk.block,stop]; omega) hd
      simp only [Chunk.block] at hj ⊢
      rw [orderSize_succ,min_eq_left (by omega)]
      simpa only [Nat.two_mul] using hj
    · have hj := hq.join hp (by simp only [Chunk.block,stop]; omega) hd
      simp only [Chunk.block] at hj ⊢
      rw [orderSize_succ,min_eq_right (by omega)]
      simpa only [Nat.two_mul] using hj
  refine ⟨⟨hk,?_,r,hr,?_,?_⟩,?_,?_⟩
  · simp only [hmin]
    exact Dvd.intro_left _ rfl
  · simp only [hw]
    exact hlo
  · simp only [orderSize_succ]
    omega
  · intro j q hq
    exact hjoin _ (Chunk.block_size_pos _) (h.free j q hq) (hb.free j q hq)
  · intro d hd
    exact hjoin _ (Chunk.block_size_pos _) (h.live d hd) (hb.live d hd)

end Fits

end Athera
