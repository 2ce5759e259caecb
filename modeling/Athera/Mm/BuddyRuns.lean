import Athera.Framework.Runs
import Athera.Mm.BuddySafety

/-!
# Runs of the buddy allocator

A run interleaves `add`, `alloc` and `dealloc` with stores of the clients into their own blocks and
into memory that was never added.
-/

namespace Athera

open Framework ListFamily Option Buddy Block

/-- The allocator represents the free lists `L`, which are sound for the outstanding blocks. -/
structure Tracks (ranges : List (Nat × Nat)) (live : List Chunk) (s : Buddy)
    (L : Nat → List Nat) : Prop where
  holds : s.Holds L
  sound : Sound ranges live L

variable {ranges : List (Nat × Nat)} {live : List Chunk} {L : Nat → List Nat} {s s' : Buddy}
  {c : Chunk}

theorem Tracks.pushAt (h : Tracks ranges live s L) (hc : Fits ranges live L c)
    (hp : s.pushAt c.order c.start = some s') : Tracks ranges live s' (push L c.order c.start) :=
  ⟨(pushAt_holds h.holds (hc.start_lt h.sound) hc.node_apart hp).2,h.sound.push hc⟩

theorem splitDown_tracks {chunk order n : Nat} (h : Tracks ranges live s L)
    (hc : Fits ranges live L ⟨chunk,order+n⟩) (hrun : s.splitDown chunk order n = some s') :
    Tracks ranges live s' (FreeLists.splitDown chunk order n L) ∧
      Fits ranges live (FreeLists.splitDown chunk order n L) ⟨chunk,order⟩ := by
  induction n generalizing s L with
  | zero =>
    obtain rfl : s = s' := some.inj hrun
    exact ⟨h,hc⟩
  | succ n ih =>
    simp only [splitDown] at hrun
    obtain ⟨t,hpush,hrest⟩ := bind_eq_some_iff.mp hrun
    have hup : Fits ranges live L ⟨chunk+orderSize (order+n),order+n⟩ := hc.upper
    exact ih (h.pushAt hup hpush) hc.lower_push hrest

theorem splitDown_isSome (s : Buddy) (chunk order n : Nat) :
    ∃ s', s.splitDown chunk order n = some s' := by
  induction n generalizing s with
  | zero => exact ⟨s,rfl⟩
  | succ n ih =>
    have hpos := orderSize_pos (order+n)
    obtain ⟨t,ht⟩ := pushAt_isSome s (order+n) (p := chunk+orderSize (order+n))
      (by omega)
    obtain ⟨s',hs'⟩ := ih t
    refine ⟨s',?_⟩
    simp only [splitDown,ht,bind_eq_bind,bind_some,hs']

theorem find_order_bounds {order i : Nat} {f : Nat → Bool}
    (h : (List.range' order (buddyMaxOrder-order)).find? f = some i) :
    order ≤ i ∧ i < buddyMaxOrder ∧ f i = true := by
  have hm := List.mem_of_find?_eq_some h
  have hf := List.find?_some h
  rw [List.mem_range'_1] at hm
  exact ⟨hm.1,by omega,hf⟩

theorem Tracks.pop {i order chunk : Nat} {rest : List Nat} (h : Tracks ranges live s L)
    (hlo : order ≤ i) (hL : L i = chunk::rest) :
    ∃ l, (s.freeList i).pop s.mem = (some chunk, l) ∧
      Tracks ranges live ⟨Function.update s.freeList i l,s.mem⟩ (erase L i chunk) ∧
      Fits ranges live (erase L i chunk) ⟨chunk,order+(i-order)⟩ := by
  obtain ⟨l,hpop,hholds⟩ := pop_holds h.holds hL
  refine ⟨l,hpop,⟨hholds,h.sound.erase⟩,?_⟩
  rw [Nat.add_sub_cancel' hlo]
  exact h.sound.fits_erase (by simp [hL])

theorem alloc_tracks (h : Tracks ranges live s L) (order : Nat) :
    ∃ s', s.alloc order = some ((FreeLists.alloc L order).1, s') ∧
      match (FreeLists.alloc L order).1 with
      | none => s' = s ∧ (FreeLists.alloc L order).2 = L
      | some p => Tracks ranges (⟨p,order⟩ :: live) s' (FreeLists.alloc L order).2 ∧
          Fits ranges live (FreeLists.alloc L order).2 ⟨p,order⟩ := by
  rw [alloc,find_nonEmpty h.holds order,FreeLists.alloc]
  cases hfind : (List.range' order (buddyMaxOrder-order)).find? (fun i => !(L i).isEmpty) with
  | none => exact ⟨s,rfl,rfl,rfl⟩
  | some i =>
    obtain ⟨hlo,hhi,hne⟩ := find_order_bounds hfind
    cases hL : L i with
    | nil => simp [hL] at hne
    | cons chunk rest =>
      obtain ⟨l,hpop,ht,hfit⟩ := h.pop hlo hL
      obtain ⟨s',hs'⟩ := splitDown_isSome ⟨Function.update s.freeList i l,s.mem⟩ chunk order
        (i-order)
      obtain ⟨hs,hf⟩ := splitDown_tracks ht hfit hs'
      refine ⟨s',?_,?_⟩
      · simp only [hL,hpop,hs',bind_eq_bind,bind_some,pure_def]
      · simp only [hL]
        exact ⟨⟨hs.holds,hs.sound.lend hf⟩,hf⟩

theorem Tracks.removeAt (h : Tracks ranges live s L) {k b : Nat} {r : Bool × Buddy}
    (hrun : s.removeAt k b = some r) :
    r.1 = decide (b ∈ L k) ∧ Tracks ranges live r.2 (erase L k b) := by
  have hb : b ≠ 0 := by
    rintro rfl
    rw [removeAt_null h.holds] at hrun
    exact absurd hrun (by simp)
  obtain ⟨t,ht,hholds⟩ := removeAt_holds h.holds h.sound.nodes_apart hb
  obtain rfl : (decide (b ∈ L k), t) = r := some.inj (ht.symm.trans hrun)
  exact ⟨rfl,hholds,h.sound.erase⟩

theorem Fits.erase (h : Fits ranges live L c) (k p : Nat) : Fits ranges live (erase L k p) c :=
  ⟨h.good,fun j q hq => h.free j q (mem_of_mem_erase hq),h.live⟩

theorem lower_of_two (p q : Nat) : (if q < p then q else p) = min p q := by
  split <;> omega

theorem mergeUp_tracks {n ptr order : Nat} (h : Tracks ranges live s L)
    (hc : Fits ranges live L ⟨ptr,order⟩) {r : Nat × Nat × Buddy}
    (hrun : Buddy.mergeUp n ptr order s = some r) :
    (r.1, r.2.1) = ((FreeLists.mergeUp n ptr order L).1,(FreeLists.mergeUp n ptr order L).2.1) ∧
      Tracks ranges live r.2.2 (FreeLists.mergeUp n ptr order L).2.2 ∧
      Fits ranges live (FreeLists.mergeUp n ptr order L).2.2 ⟨r.1,r.2.1⟩ := by
  induction n generalizing s L ptr order with
  | zero =>
    obtain rfl : (ptr, order, s) = r := some.inj hrun
    exact ⟨rfl,h,hc⟩
  | succ n ih =>
    obtain ⟨⟨found,t⟩,hrem,hrest⟩ := bind_eq_some_iff.mp hrun
    obtain ⟨hfound,ht⟩ := h.removeAt hrem
    simp only at hfound ht
    subst found
    by_cases hmem : buddyAddress ptr order ∈ L order
    · have hbf := h.sound.fits_erase hmem
      have hcf := hc.erase order (buddyAddress ptr order)
      simp only [hmem,decide_true,lower_of_two] at hrest
      simp only [FreeLists.mergeUp,hmem,lower_of_two]
      by_cases htop : buddyMaxOrder ≤ order+1
      · simp only [htop,if_true,pure_def,some.injEq] at hrest ⊢
        subst hrest
        have hord : order = buddyMaxOrder-1 := by
          have hlt : order < buddyMaxOrder := hc.good.order_lt
          omega
        refine ⟨rfl,ht,?_⟩
        rw [← hord]
        rcases le_total ptr (buddyAddress ptr order) with hle | hle
        · rw [min_eq_left hle]
          exact hcf
        · rw [min_eq_right hle]
          exact hbf
      · simp only [htop] at hrest ⊢
        exact ih ht (Fits.merge ht.sound hcf hbf (by omega)) hrest
    · simp only [hmem,decide_false,Bool.false_eq_true,if_false,pure_def,some.injEq] at hrest
      simp only [FreeLists.mergeUp,hmem]
      subst hrest
      rw [erase_of_not_mem hmem] at ht
      exact ⟨rfl,ht,hc⟩

theorem dealloc_tracks (h : Tracks ranges live s L) (hc : c ∈ live)
    (hrun : s.dealloc c.start c.order = some s') :
    Tracks ranges (live.erase c) s' (FreeLists.dealloc L c.start c.order) := by
  have hord : c.order < buddyMaxOrder := (h.sound.live_good c hc).order_lt
  have ht : Tracks ranges (live.erase c) s L := ⟨h.holds,h.sound.takeBack⟩
  simp only [dealloc,hord] at hrun
  obtain ⟨r,hmerge,hpush⟩ := bind_eq_some_iff.mp hrun
  obtain ⟨heq,hr,hfit⟩ := mergeUp_tracks ht (h.sound.fits_takeBack hc) hmerge
  obtain ⟨h1,h2⟩ := Prod.mk.inj heq
  have hdone := hr.pushAt hfit hpush
  rw [FreeLists.dealloc,← h1,← h2]
  exact hdone

section

/-- From `current` to the end of the range `r` nothing is free or outstanding. -/
structure Room (ranges : List (Nat × Nat)) (live : List Chunk) (L : Nat → List Nat)
    (r : Nat × Nat) (current : Nat) : Prop where
  mem : r ∈ ranges
  low : r.1 ≤ topWindow current
  free : ∀ k, ∀ p ∈ L k, p + orderSize k ≤ current ∨ r.2 ≤ p
  live : ∀ d ∈ live, d.start + orderSize d.order ≤ current ∨ r.2 ≤ d.start

variable {r : Nat × Nat} {current k : Nat}

theorem Room.fits (h : Room ranges live L r current) (hk : k < buddyMaxOrder)
    (hal : orderSize k ∣ current) (hend : current+orderSize k ≤ r.2) :
    Fits ranges live L ⟨current,k⟩ := by
  refine ⟨⟨hk,hal,r,h.mem,h.low,hend⟩,?_,?_⟩
  · intro j q hq
    have hq' := h.free j q hq
    simp only [Chunk.block,Apart,stop]
    omega
  · intro d hd
    have hd' := h.live d hd
    simp only [Chunk.block,Apart,stop]
    omega

theorem Room.step (h : Room ranges live L r current) :
    Room ranges live (push L k current) r (current+orderSize k) := by
  refine ⟨h.mem,le_trans h.low (topWindow_mono (by omega)),?_,?_⟩
  · intro j q hq
    rcases mem_push.mp hq with ⟨rfl,rfl⟩ | hq
    · exact Or.inl (le_refl _)
    · have hq' := h.free j q hq
      omega
  · intro d hd
    have hd' := h.live d hd
    omega

theorem pushChunks_tracks {n : Nat} (h : Tracks ranges live s L)
    (hroom : Room ranges live L r current) (hk : k < buddyMaxOrder) (hal : orderSize k ∣ current)
    (hend : current+n*orderSize k ≤ r.2) {x : Nat × Buddy}
    (hrun : Buddy.pushChunks k n current s = some x) :
    x.1 = (FreeLists.pushChunks k n current L).1 ∧ x.1 = current+n*orderSize k ∧
      Tracks ranges live x.2 (FreeLists.pushChunks k n current L).2 ∧
      Room ranges live (FreeLists.pushChunks k n current L).2 r x.1 := by
  induction n generalizing s L current with
  | zero =>
    obtain rfl : (current, s) = x := some.inj hrun
    exact ⟨rfl,by simp,h,hroom⟩
  | succ n ih =>
    rw [Nat.succ_mul] at hend ⊢
    obtain ⟨t,hpush,hrest⟩ := bind_eq_some_iff.mp hrun
    have hfit := hroom.fits hk hal (by omega)
    have hal' : orderSize k ∣ current+orderSize k := Nat.dvd_add hal (Nat.dvd_refl _)
    have ht : Tracks ranges live t (push L k current) := h.pushAt hfit hpush
    obtain ⟨h1,h2,h3,h4⟩ := ih ht hroom.step hal' (by omega) hrest
    exact ⟨h1,by omega,h3,h4⟩

theorem addOrders_tracks {n : Nat} (hn : n ≤ buddyMaxOrder) (h : Tracks ranges live s L)
    (hroom : Room ranges live L r current) (hal : ∀ j < n, orderSize j ∣ current)
    (hrun : Buddy.addOrders r.2 n current s = some s') :
    Tracks ranges live s' (FreeLists.addOrders r.2 n current L) := by
  induction n generalizing s L current with
  | zero =>
    obtain rfl : s = s' := some.inj hrun
    exact h
  | succ n ih =>
    rw [addOrders] at hrun
    rw [FreeLists.addOrders]
    by_cases hstop : r.2 ≤ current
    · rw [if_pos hstop] at hrun ⊢
      obtain rfl : s = s' := some.inj hrun
      exact h
    · rw [if_neg hstop] at hrun
      rw [if_neg hstop]
      obtain ⟨x,hpush,hrest⟩ := bind_eq_some_iff.mp hrun
      have hdiv := Nat.div_mul_le_self (r.2-current) (orderSize n)
      obtain ⟨h1,h2,h3,h4⟩ := pushChunks_tracks h hroom (by omega) (hal n (Nat.lt_succ_self n))
        (by omega) hpush
      have hal' : ∀ j < n, orderSize j ∣ x.1 := by
        intro j hj
        rw [h2]
        have hmul : orderSize j ∣ (r.2-current)/orderSize n*orderSize n :=
          Nat.dvd_trans (orderSize_dvd (le_of_lt hj)) (Dvd.intro_left _ rfl)
        exact Nat.dvd_add (hal j (by omega)) hmul
      have hdone := ih (by omega) h3 h4 hal' hrest
      rw [h1] at hdone
      exact hdone

theorem addOrders_zero {stop n : Nat} (hrun : Buddy.addOrders stop n 0 s = some s') :
    s' = s ∧ FreeLists.addOrders stop n 0 L = L := by
  induction n with
  | zero =>
    obtain rfl : s = s' := some.inj hrun
    exact ⟨rfl,rfl⟩
  | succ n ih =>
    rw [addOrders] at hrun
    rw [FreeLists.addOrders]
    by_cases hstop : stop ≤ 0
    · rw [if_pos hstop] at hrun ⊢
      exact ⟨(some.inj hrun).symm,rfl⟩
    · rw [if_neg hstop] at hrun
      rw [if_neg hstop]
      cases hc : (stop-0)/orderSize n with
      | zero =>
        rw [hc] at hrun
        exact ih hrun
      | succ c =>
        rw [hc] at hrun
        simp [pushChunks,pushAt,IntrusiveList.push,storeWord] at hrun

theorem align_top (start : Nat) :
    align start (1 <<< (buddyMaxOrder+11)) = align start topSize := rfl

theorem topSize_eq : topSize = 2^22 := orderSize_eq _

theorem align_top_of_overflow {start : Nat} (hlt : start < wordRange)
    (h : wordRange ≤ start+topSize-1) : align start topSize = 0 := by
  rw [topSize_eq] at h ⊢
  have hw : wrap (start+2^22-1) = start+2^22-1-wordRange := by
    rw [wrap,Nat.mod_eq_sub_mod h]
    simp only [wordRange] at *
    omega
  have hz := land_high_bits (k := 22) (wrap_lt (start+2^22-1)) (by decide)
  rw [align,show wordRange = 2^64 from rfl,hz,Nat.div_eq_of_lt,Nat.zero_mul]
  omega

theorem Good.grow (h : Good ranges c) : Good (r::ranges) c := by
  obtain ⟨hord,hal,r',hr',hbounds⟩ := h
  exact ⟨hord,hal,r',List.mem_cons_of_mem _ hr',hbounds⟩

theorem Sound.grow (h : Sound ranges live L) (hlt : r.2 < wordRange)
    (hap : ∀ r' ∈ ranges, RangesApart r r') : Sound (r::ranges) live L where
  ranges_lt r' hr' := by
    rcases List.mem_cons.mp hr' with rfl | hr'
    · exact hlt
    · exact h.ranges_lt r' hr'
  ranges_apart := List.pairwise_cons.mpr ⟨hap,h.ranges_apart⟩
  free_good k p hp := (h.free_good k p hp).grow
  free_apart := h.free_apart
  live_good d hd := (h.live_good d hd).grow
  live_apart := h.live_apart
  live_free := h.live_free

theorem Good.clear (h : Good ranges c) (hap : ∀ r' ∈ ranges, RangesApart r r') (hne : r.1 < r.2) :
    c.start+orderSize c.order ≤ r.1 ∨ r.2 ≤ c.start := by
  obtain ⟨r',hr',hlo,hhi⟩ := h.placed
  have h' := hap r' hr'
  have hw := topWindow_le c.start
  have hpos := orderSize_pos c.order
  simp only [RangesApart] at h'
  omega

theorem add_tracks (h : Tracks ranges live s L) {start stop : Nat} (hstart : start < wordRange)
    (hstop : stop < wordRange) (hap : ∀ r' ∈ ranges, RangesApart (start, stop) r')
    (hrun : s.add start stop = some s') :
    Tracks ((start, stop)::ranges) live s' (FreeLists.add L start stop) := by
  have hgrow : Tracks ((start, stop)::ranges) live s L :=
    ⟨h.holds,h.sound.grow hstop hap⟩
  rw [add,align_top,addFrame] at hrun
  rw [FreeLists.add,align_top]
  by_cases hover : wordRange ≤ start+topSize-1
  · rw [align_top_of_overflow hstart hover] at hrun ⊢
    obtain ⟨hs,hL⟩ := addOrders_zero hrun
    rw [hs,hL]
    exact hgrow
  · have hno : start+2^22-1 < wordRange := by
      rw [topSize_eq] at hover
      omega
    have hle : start ≤ align start topSize := by
      rw [topSize_eq]
      exact le_align (by decide) hno
    have hdvd : topSize ∣ align start topSize := by
      rw [topSize_eq]
      exact dvd_align (by decide)
    have hwin : topWindow (align start topSize) = align start topSize := Nat.div_mul_cancel hdvd
    by_cases hne : start < stop
    · have hroom : Room ((start, stop)::ranges) live L (start, stop) (align start topSize) := by
        refine ⟨List.mem_cons_self,by rw [hwin]; exact hle,?_,?_⟩
        · intro k p hp
          have hcl := (h.sound.free_good k p hp).clear hap hne
          simp only at hcl ⊢
          omega
        · intro d hd
          have hcl := (h.sound.live_good d hd).clear hap hne
          omega
      have hal : ∀ j < buddyMaxOrder, orderSize j ∣ align start topSize := by
        intro j hj
        exact Nat.dvd_trans (orderSize_dvd (by simp only [buddyMaxOrder] at hj ⊢; omega)) hdvd
      exact addOrders_tracks (le_refl _) hgrow hroom hal hrun
    · have hdone : stop ≤ align start topSize := by omega
      rw [show buddyMaxOrder = 10+1 from rfl,addOrders,if_pos hdone] at hrun
      rw [show buddyMaxOrder = 10+1 from rfl,FreeLists.addOrders,if_pos hdone]
      obtain rfl : s = s' := some.inj hrun
      exact hgrow

end

/-! ## The machine -/

/-- The allocator together with what its clients hold and the ranges it was given. -/
structure BuddyMachine where
  heap : Buddy
  live : List Chunk
  ranges : List (Nat × Nat)

inductive BuddyOp where
  | add (start stop : Nat)
  | alloc (order : Nat)
  | dealloc (start order : Nat)
  | store (addr : Nat) (byte : UInt8)
deriving DecidableEq, Repr

namespace BuddyMachine

def init (m : Memory) : BuddyMachine := ⟨.new m,[],[]⟩

/-- Addresses a client may store to: its own blocks and memory outside every added range. -/
def Writable (w : BuddyMachine) (addr : Nat) : Prop :=
  (∃ c ∈ w.live, addr ∈ c.block) ∨ ∀ r ∈ w.ranges, ¬ (r.1 ≤ addr ∧ addr < r.2)

instance (w : BuddyMachine) (addr : Nat) : Decidable (w.Writable addr) := by
  unfold Writable
  simp only [mem_iff]
  infer_instance

/-- One operation of a client. Ranges are added at most once and only outstanding blocks are
given back; null accesses of the allocator fault. -/
def step (w : BuddyMachine) : BuddyOp → Option BuddyMachine
  | .add start stop =>
    if start < wordRange ∧ stop < wordRange ∧ ∀ r ∈ w.ranges, RangesApart (start, stop) r then do
      let heap ← w.heap.add start stop
      return ⟨heap,w.live,(start, stop) :: w.ranges⟩
    else none
  | .alloc order => do
    let (block, heap) ← w.heap.alloc order
    match block with
    | none => return ⟨heap,w.live,w.ranges⟩
    | some start => return ⟨heap,⟨start,order⟩ :: w.live,w.ranges⟩
  | .dealloc start order =>
    if ⟨start,order⟩ ∈ w.live then do
      let heap ← w.heap.dealloc start order
      return ⟨heap,w.live.erase ⟨start,order⟩,w.ranges⟩
    else none
  | .store addr byte =>
    if w.Writable addr then
      some ⟨⟨w.heap.freeList,Function.update w.heap.mem addr byte⟩,w.live,w.ranges⟩
    else none

def free (w : BuddyMachine) : List Block :=
  (List.range buddyMaxOrder).flatMap fun k =>
    (w.heap.blocks k).map fun p => (Chunk.mk p k).block

def outstanding (w : BuddyMachine) : List Block := w.live.map Chunk.block

end BuddyMachine

/-- The allocator without pointers: lists of addresses, the outstanding blocks, the ranges. -/
structure Pool where
  lists : Nat → List Nat
  live : List Chunk
  ranges : List (Nat × Nat)

namespace Pool

def init : Pool := ⟨fun _ => [],[],[]⟩

def step (P : Pool) : BuddyOp → Pool
  | .add start stop => ⟨FreeLists.add P.lists start stop,P.live,(start, stop) :: P.ranges⟩
  | .alloc order =>
    match FreeLists.alloc P.lists order with
    | (none, lists) => ⟨lists,P.live,P.ranges⟩
    | (some start, lists) => ⟨lists,⟨start,order⟩ :: P.live,P.ranges⟩
  | .dealloc start order =>
    ⟨FreeLists.dealloc P.lists start order,P.live.erase ⟨start,order⟩,P.ranges⟩
  | .store _ _ => P

end Pool

/-- The machine represents the pool, and the pool is sound. -/
structure Refines (w : BuddyMachine) (P : Pool) : Prop where
  live : w.live = P.live
  ranges : w.ranges = P.ranges
  tracks : Tracks P.ranges P.live w.heap P.lists

theorem refines_init (m : Memory) : Refines (.init m) .init := by
  refine ⟨rfl,rfl,holds_new m,?_⟩
  constructor <;> simp [Pool.init,Scattered.mk]

theorem Tracks.store (h : Tracks ranges live s L) {addr : Nat} {byte : UInt8}
    (hw : (∃ c ∈ live, addr ∈ c.block) ∨ ∀ r ∈ ranges, ¬ (r.1 ≤ addr ∧ addr < r.2)) :
    Tracks ranges live ⟨s.freeList,Function.update s.mem addr byte⟩ L := by
  refine ⟨h.holds.mem_congr ?_,h.sound⟩
  intro k q hq
  apply Memory.readWord_congr
  intro y hy
  have hout : addr ∉ (Chunk.mk q k).block := by
    rcases hw with ⟨c,hc,hin⟩ | hout
    · exact (h.sound.live_free c hc k q hq).not_mem hin
    · obtain ⟨r,hr,hlo,hhi⟩ := (h.sound.free_good k q hq).placed
      have hnot := hout r hr
      have hle := topWindow_le q
      simp only [Chunk.block,mem_iff] at hlo hhi ⊢
      omega
  have hne : y ≠ addr := by
    have hpg := pageSize_le_orderSize k
    simp only [mem_iff,Chunk.block,Memory.wordSize,pageSize] at hy hout hpg
    omega
  exact Function.update_of_ne hne _ _

theorem step_refines {w w' : BuddyMachine} {P : Pool} {op : BuddyOp} (h : Refines w P)
    (hstep : w.step op = some w') : Refines w' (P.step op) := by
  obtain ⟨lists,live',ranges'⟩ := P
  obtain ⟨hlive,hranges,ht⟩ := h
  simp only at hlive hranges ht
  subst live' ranges'
  cases op with
  | add start stop =>
    simp only [BuddyMachine.step,ite_none_right_eq_some] at hstep
    obtain ⟨⟨hstart,hstop,hap⟩,hstep⟩ := hstep
    obtain ⟨heap',hadd,hw⟩ := bind_eq_some_iff.mp hstep
    obtain rfl := some.inj hw
    exact ⟨rfl,rfl,add_tracks ht hstart hstop hap hadd⟩
  | alloc order =>
    obtain ⟨heap',halloc,hafter⟩ := alloc_tracks ht order
    simp only [BuddyMachine.step,halloc] at hstep
    simp only [Pool.step]
    cases hr : FreeLists.alloc lists order with
    | mk block lists' =>
      rw [hr] at hstep hafter
      cases block with
      | none =>
        obtain rfl := some.inj hstep
        obtain ⟨rfl,rfl⟩ := hafter
        exact ⟨rfl,rfl,ht⟩
      | some start =>
        obtain rfl := some.inj hstep
        exact ⟨rfl,rfl,hafter.1⟩
  | dealloc start order =>
    simp only [BuddyMachine.step,ite_none_right_eq_some] at hstep
    obtain ⟨hmem,hstep⟩ := hstep
    obtain ⟨heap',hde,hw⟩ := bind_eq_some_iff.mp hstep
    obtain rfl := some.inj hw
    exact ⟨rfl,rfl,dealloc_tracks ht hmem hde⟩
  | store addr byte =>
    simp only [BuddyMachine.step,ite_none_right_eq_some] at hstep
    obtain ⟨hw,hstep⟩ := hstep
    obtain rfl := some.inj hstep
    exact ⟨rfl,rfl,ht.store hw⟩

theorem run_refines {w w' : BuddyMachine} {P : Pool} {ops : List BuddyOp} (h : Refines w P)
    (hrun : run BuddyMachine.step ops w = some w') : Refines w' (ops.foldl Pool.step P) := by
  induction ops generalizing w P with
  | nil =>
    obtain rfl : w = w' := some.inj hrun
    exact h
  | cons op ops ih =>
    obtain ⟨t,ht,hrest⟩ := run_cons hrun
    exact ih (step_refines h ht) hrest

theorem Sound.free_pairwise (h : Sound ranges live L) (n : Nat) :
    ((List.range n).flatMap fun k => (L k).map fun p => (Chunk.mk p k).block).Pairwise
      Apart := by
  rw [List.pairwise_flatMap]
  constructor
  · intro k _
    rw [List.pairwise_map]
    exact h.free_apart.within k
  · refine List.pairwise_lt_range.imp_of_mem ?_
    intro j k _ _ hjk b hb d hd
    obtain ⟨p,hp,rfl⟩ := List.mem_map.mp hb
    obtain ⟨q,hq,rfl⟩ := List.mem_map.mp hd
    exact h.free_apart.across j k (Nat.ne_of_lt hjk) p hp q hq

theorem Sound.all_pairwise (h : Sound ranges live L) (n : Nat) :
    (((List.range n).flatMap fun k => (L k).map fun p => (Chunk.mk p k).block) ++
      live.map Chunk.block).Pairwise Apart := by
  rw [List.pairwise_append]
  refine ⟨h.free_pairwise n,List.pairwise_map.mpr h.live_apart,?_⟩
  intro b hb d hd
  obtain ⟨k,_,hb⟩ := List.mem_flatMap.mp hb
  obtain ⟨p,hp,rfl⟩ := List.mem_map.mp hb
  obtain ⟨c,hc,rfl⟩ := List.mem_map.mp hd
  exact (h.live_free c hc k p hp).symm

theorem Good.bounds (h : Good ranges c) :
    orderSize c.order ∣ c.start ∧ ∃ r ∈ ranges, r.1 ≤ c.start ∧ c.start+orderSize c.order ≤ r.2 := by
  obtain ⟨r,hr,hlo,hhi⟩ := h.placed
  exact ⟨h.aligned,r,hr,le_trans hlo (topWindow_le _),hhi⟩

/-- In every reachable state the free blocks are aligned and inside the added ranges, free and
outstanding blocks are pairwise disjoint, and a block handed out next is aligned and disjoint
from all the others. A null access, which only a range near address 0 can cause, ends a run. -/
theorem buddy_run_safe (m : Memory) (ops : List BuddyOp) (w : BuddyMachine)
    (hrun : run BuddyMachine.step ops (.init m) = some w) :
    (∀ k, ∀ p ∈ w.heap.blocks k,
      orderSize k ∣ p ∧ ∃ r ∈ w.ranges, r.1 ≤ p ∧ p + orderSize k ≤ r.2) ∧
    (w.free ++ w.outstanding).Pairwise Apart ∧
    ∀ k p heap, w.heap.alloc k = some (some p, heap) →
      (orderSize k ∣ p ∧ ∃ r ∈ w.ranges, r.1 ≤ p ∧ p + orderSize k ≤ r.2) ∧
      (∀ b ∈ w.outstanding, (mk p (orderSize k)).Apart b) ∧
      ∀ j, ∀ q ∈ heap.blocks j, (mk p (orderSize k)).Apart ⟨q,orderSize j⟩ := by
  obtain ⟨hlive,hranges,ht⟩ := run_refines (refines_init m) hrun
  rw [← hlive,← hranges] at ht
  refine ⟨?_,?_,?_⟩
  · intro k p hp
    rw [ht.holds.blocks_eq] at hp
    exact (ht.sound.free_good k p hp).bounds
  · have hall := ht.sound.all_pairwise buddyMaxOrder
    simpa only [BuddyMachine.free,BuddyMachine.outstanding,ht.holds.blocks_eq] using hall
  · intro k p heap halloc
    obtain ⟨heap',hrun',hafter⟩ := alloc_tracks ht k
    obtain ⟨hblock,hheap⟩ := Prod.mk.inj (some.inj (hrun'.symm.trans halloc))
    subst heap'
    rw [hblock] at hafter
    obtain ⟨htr,hfit⟩ := hafter
    refine ⟨hfit.good.bounds,?_,?_⟩
    · intro b hb
      obtain ⟨d,hd,rfl⟩ := List.mem_map.mp hb
      exact hfit.live d hd
    · intro j q hq
      rw [htr.holds.blocks_eq] at hq
      exact hfit.free j q hq

private theorem split_run_isSome :
    (run BuddyMachine.step [.add 0x80400000 0x80800000,.alloc 0,.store 0x80400000 7]
      (.init fun _ => 0)).isSome = true := by decide

/-- Taking one page from a 4 MiB range leaves ten blocks, one of each smaller order. -/
theorem buddy_run_safe_split :
    ∃ w, run BuddyMachine.step [.add 0x80400000 0x80800000,.alloc 0,.store 0x80400000 7]
        (.init fun _ => 0) = some w ∧
      w.live = [⟨0x80400000,0⟩] ∧ w.free.length = 10 ∧
      (w.free ++ w.outstanding).Pairwise Apart :=
  ⟨Option.get _ split_run_isSome,(some_get _).symm,by decide,by decide,
    (buddy_run_safe _ _ _ (some_get split_run_isSome).symm).2.1⟩

end Athera
