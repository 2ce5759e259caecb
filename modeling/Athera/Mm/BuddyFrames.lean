import Athera.Mm.Backing
import Athera.Mm.BuddyRuns

/-!
# The buddy allocator as a frame allocator

With physical memory above the first two largest blocks the allocator never faults and obeys the
laws of frame allocators.
-/

namespace Athera

open Framework ListFamily Option Buddy

/-- The bytes of the outstanding blocks are the same. -/
def Spares (live : List Chunk) (s s' : Buddy) : Prop :=
  ∀ c ∈ live, ∀ a ∈ c.block, s'.mem a = s.mem a

theorem Spares.refl (live : List Chunk) (s : Buddy) : Spares live s s := fun _ _ _ _ => rfl

theorem Spares.trans {live : List Chunk} {s s' s'' : Buddy} (h : Spares live s s')
    (h' : Spares live s' s'') : Spares live s s'' := fun c hc a ha =>
  (h' c hc a ha).trans (h c hc a ha)

variable {ranges : List (Nat × Nat)} {live : List Chunk} {L : Nat → List Nat} {s s' : Buddy}
  {c : Chunk}

theorem not_mem_node {d : Chunk} {a : Nat} (hap : c.block.Apart d.block) (ha : a ∈ d.block) :
    a ∉ Block.mk c.start Memory.wordSize := by
  intro hn
  have hle := pageSize_le_orderSize c.order
  have hin : a ∈ c.block := by
    simp only [Block.mem_iff,Chunk.block,Memory.wordSize,pageSize] at hn hle ⊢
    omega
  exact hap.not_mem hin ha

theorem pushAt_outside {k p : Nat} (hp : s.pushAt k p = some s') {a : Nat}
    (ha : a ∉ Block.mk p Memory.wordSize) : s'.mem a = s.mem a := by
  simp only [pushAt,IntrusiveList.push,storeWord,bind_eq_bind,pure_def] at hp
  by_cases h0 : p = 0
  · simp [h0] at hp
  · rw [if_neg h0,bind_some,bind_some,some.injEq] at hp
    subst hp
    exact Memory.writeWord_outside s.mem p _ ha

theorem pushAt_spares (hc : Fits ranges live L c) (hp : s.pushAt c.order c.start = some s') :
    Spares live s s' := fun d hd _ ha => pushAt_outside hp (not_mem_node (hc.live d hd) ha)

theorem removeAt_spares (h : Tracks ranges live s L) {k b : Nat} (hb : b ≠ 0)
    {r : Bool × Buddy} (hrun : s.removeAt k b = some r) : Spares live s r.2 := by
  obtain ⟨l,m,hrem,_,hout⟩ := IntrusiveList.remove_holds (h.holds k) hb
  simp only [removeAt,hrem,bind_eq_bind,bind_some,pure_def,some.injEq] at hrun
  subst hrun
  intro d hd a ha
  apply hout
  intro q hq
  exact not_mem_node (h.sound.live_free d hd k q hq).symm ha

theorem splitDown_spares {chunk order n : Nat} (h : Tracks ranges live s L)
    (hc : Fits ranges live L ⟨chunk,order+n⟩) (hrun : s.splitDown chunk order n = some s') :
    Spares live s s' := by
  induction n generalizing s L with
  | zero =>
    obtain rfl : s = s' := some.inj hrun
    exact Spares.refl live s
  | succ n ih =>
    simp only [splitDown] at hrun
    obtain ⟨t,hpush,hrest⟩ := bind_eq_some_iff.mp hrun
    have hup : Fits ranges live L ⟨chunk+orderSize (order+n),order+n⟩ := hc.upper
    exact (pushAt_spares hup hpush).trans (ih (h.pushAt hup hpush) hc.lower_push hrest)

theorem alloc_spares (h : Tracks ranges live s L) {order : Nat} {x : Option Nat}
    (hrun : s.alloc order = some (x, s')) : Spares live s s' := by
  rw [alloc,find_nonEmpty h.holds order] at hrun
  cases hfind : (List.range' order (buddyMaxOrder-order)).find? (fun i => !(L i).isEmpty) with
  | none =>
    simp only [hfind,some.injEq,Prod.mk.injEq] at hrun
    rw [← hrun.2]
    exact Spares.refl live s
  | some i =>
    obtain ⟨hlo,hhi,hne⟩ := find_order_bounds hfind
    cases hL : L i with
    | nil => simp [hL] at hne
    | cons chunk rest =>
      obtain ⟨l,hpop,ht,hfit⟩ := h.pop hlo hL
      simp only [hfind,hpop] at hrun
      obtain ⟨t,ht',heq⟩ := bind_eq_some_iff.mp hrun
      obtain ⟨_,rfl⟩ := Prod.mk.inj (some.inj heq)
      have hsp := splitDown_spares ht hfit ht'
      exact hsp

/-- Physical memory above the first two largest blocks, within the physical address space. -/
def HighRanges (ranges : List (Nat × Nat)) : Prop :=
  ∀ r ∈ ranges, 2 * topSize ≤ r.1 ∧ r.2 ≤ physicalLimit

theorem Fits.buddy_ne_zero (h : Fits ranges live L c) (hr : HighRanges ranges) :
    c.start ≠ 0 ∧ buddyAddress c.start c.order ≠ 0 := by
  obtain ⟨r,hmem,hlo,_⟩ := h.good.placed
  have hhigh := (hr r hmem).1
  have hwin := topWindow_le c.start
  have hadj := buddyAddress_adjacent h.good.aligned
  have hle : orderSize c.order ≤ topSize :=
    orderSize_mono (by have := h.good.order_lt; simp only [buddyMaxOrder] at this ⊢; omega)
  have hpos : 0 < topSize := orderSize_pos _
  omega

theorem mergeUp_isSome {n ptr order : Nat} (h : Tracks ranges live s L)
    (hc : Fits ranges live L ⟨ptr,order⟩) (hr : HighRanges ranges) :
    ∃ r, Buddy.mergeUp n ptr order s = some r ∧ Spares live s r.2.2 := by
  induction n generalizing s L ptr order with
  | zero => exact ⟨_,rfl,Spares.refl live s⟩
  | succ n ih =>
    have hb : buddyAddress ptr order ≠ 0 := (hc.buddy_ne_zero hr).2
    obtain ⟨t,hrem,_⟩ := removeAt_holds h.holds h.sound.nodes_apart hb
    have hsp : Spares live s t := removeAt_spares h hb hrem
    have ht : Tracks ranges live t (erase L order (buddyAddress ptr order)) := (h.removeAt hrem).2
    simp only [mergeUp,hrem,lower_of_two]
    by_cases hmem : buddyAddress ptr order ∈ L order
    · simp only [hmem]
      by_cases htop : buddyMaxOrder ≤ order+1
      · simp only [htop]
        exact ⟨_,rfl,hsp⟩
      · simp only [htop]
        have hmerged := Fits.merge ht.sound (hc.erase order (buddyAddress ptr order))
          (h.sound.fits_erase hmem) (by omega)
        obtain ⟨r,hrun,hrest⟩ := ih ht hmerged
        exact ⟨r,hrun,hsp.trans hrest⟩
    · simp only [hmem]
      exact ⟨_,rfl,hsp⟩

theorem dealloc_isSome (h : Tracks ranges live s L) (hc : c ∈ live) (hr : HighRanges ranges) :
    ∃ s', s.dealloc c.start c.order = some s' ∧ Spares (live.erase c) s s' := by
  have hord : c.order < buddyMaxOrder := (h.sound.live_good c hc).order_lt
  have ht : Tracks ranges (live.erase c) s L := ⟨h.holds,h.sound.takeBack⟩
  have hfits := h.sound.fits_takeBack hc
  obtain ⟨r,hmerge,hsp⟩ := mergeUp_isSome (n := buddyMaxOrder-c.order) ht hfits hr
  obtain ⟨_,_,hfit⟩ := mergeUp_tracks ht hfits hmerge
  obtain ⟨s',hpush⟩ := pushAt_isSome r.2.2 r.2.1 (hfit.buddy_ne_zero hr).1
  refine ⟨s',?_,hsp.trans (pushAt_spares hfit hpush)⟩
  simp only [dealloc,hord,hmerge]
  exact hpush

/-- The free lists without the memory that holds their links. -/
def BuddyLists : Type := Nat → IntrusiveList

/-- The frames handed out by the free lists over the memory. -/
def BuddyOwns (fl : BuddyLists) (m : Memory) (frames : Set Frame) : Prop :=
  ∃ ranges live L, Tracks ranges live ⟨fl,m⟩ L ∧ HighRanges ranges ∧
    frames = {b | ∃ c ∈ live, b = c.block}

instance : FrameAllocator BuddyLists where
  allocFrame fl m size :=
    match (Buddy.mk fl m).allocFrame size with
    | none => (none, fl, m)
    | some (r, b) => (r, b.freeList, b.mem)
  deallocFrame fl m start size :=
    match (Buddy.mk fl m).deallocFrame start size with
    | none => (fl, m)
    | some b => (b.freeList, b.mem)

variable {fl fl' : BuddyLists} {m m' : Memory} {frames : Set Frame}

theorem BuddyOwns.apart (h : BuddyOwns fl m frames) : frames.Pairwise Block.Apart := by
  obtain ⟨ranges,live,L,ht,_,rfl⟩ := h
  rintro _ ⟨c,hc,rfl⟩ _ ⟨d,hd,rfl⟩ hne
  have hsymm : Std.Symm fun c d : Chunk => c.block.Apart d.block := ⟨fun _ _ => Block.Apart.symm⟩
  apply ht.sound.live_apart.forall hc hd
  rintro rfl
  exact hne rfl

theorem BuddyOwns.shape (h : BuddyOwns fl m frames) : ∀ f ∈ frames, FrameShape f := by
  obtain ⟨ranges,live,L,ht,hhigh,rfl⟩ := h
  rintro _ ⟨c,hc,rfl⟩
  have hgood := ht.sound.live_good c hc
  obtain ⟨hal,r,hr,hlow,hend⟩ := hgood.bounds
  have hpos : 0 < topSize := by decide
  have hrange := (hhigh r hr).1
  exact ⟨⟨c.order,hgood.order_lt,rfl⟩,hal,by simp only [Chunk.block]; omega,
    le_trans hend (hhigh r hr).2⟩

theorem Spares.agreeOn {live : List Chunk} (h : Spares live s s') :
    Memory.AgreeOn (Covered {b | ∃ c ∈ live, b = c.block}) s.mem s'.mem := by
  rintro a ⟨_,⟨c,hc,rfl⟩,ha⟩
  exact h c hc a ha

theorem BuddyOwns.alloc {size : Nat} {x : Option Nat} (h : BuddyOwns fl m frames)
    (hrun : FrameAllocator.allocFrame fl m size = (x, fl', m')) :
    Memory.AgreeOn (Covered frames) m m' ∧ (x = none → BuddyOwns fl' m' frames) ∧
      ∀ p, x = some p → ⟨p,blockSize size⟩ ∉ frames ∧
        BuddyOwns fl' m' (insert ⟨p,blockSize size⟩ frames) := by
  obtain ⟨ranges,live,L,ht,hhigh,rfl⟩ := h
  obtain ⟨s',hs',hres⟩ := alloc_tracks ht (sizeToOrder size)
  have hsp := (alloc_spares ht hs').agreeOn
  simp only [FrameAllocator.allocFrame,Buddy.allocFrame,hs'] at hrun
  obtain ⟨rfl,hrest⟩ := Prod.mk.inj hrun
  obtain ⟨rfl,rfl⟩ := Prod.mk.inj hrest
  refine ⟨hsp,?_,?_⟩
  · intro hnone
    rw [hnone] at hres
    rw [hres.1]
    exact ⟨ranges,live,L,ht,hhigh,rfl⟩
  · intro p hsome
    rw [hsome] at hres
    obtain ⟨ht',hfits⟩ := hres
    refine ⟨?_,ranges,_,_,ht',hhigh,?_⟩
    · rintro ⟨c,hc,hcb⟩
      have hap := hfits.live c hc
      rw [← hcb] at hap
      exact Block.not_apart_self (orderSize_pos _) hap
    · simp only [List.mem_cons,exists_eq_or_imp]
      rfl

theorem BuddyOwns.dealloc {f : Frame} (h : BuddyOwns fl m frames) (hf : f ∈ frames)
    (hrun : FrameAllocator.deallocFrame fl m f.start f.size = (fl', m')) :
    BuddyOwns fl' m' (frames \ {f}) ∧ Memory.AgreeOn (Covered (frames \ {f})) m m' := by
  obtain ⟨ranges,live,L,ht,hhigh,rfl⟩ := h
  obtain ⟨c,hc,rfl⟩ := hf
  obtain ⟨s',hs',hsp⟩ := dealloc_isSome ht hc hhigh
  have hord : sizeToOrder (orderSize c.order) = c.order :=
    sizeToOrder_orderSize (ht.sound.live_good c hc).order_lt
  simp only [FrameAllocator.deallocFrame,deallocFrame,Chunk.block,hord,hs'] at hrun
  obtain ⟨rfl,rfl⟩ := Prod.mk.inj hrun
  have hset : ({b | ∃ d ∈ live, b = d.block} \ {c.block} : Set Frame) =
      {b | ∃ d ∈ live.erase c, b = d.block} := by
    ext b
    constructor
    · rintro ⟨⟨d,hd,rfl⟩,hne⟩
      refine ⟨d,?_,rfl⟩
      rw [List.mem_erase_of_ne]
      · exact hd
      · rintro rfl
        exact hne rfl
    · rintro ⟨d,hd,rfl⟩
      refine ⟨⟨d,List.mem_of_mem_erase hd,rfl⟩,?_⟩
      intro heq
      have hdc := (ht.sound.fits_takeBack hc).live d hd
      rw [heq] at hdc
      exact Block.not_apart_self (Chunk.block_size_pos c) hdc
  rw [hset]
  exact ⟨⟨ranges,_,_,dealloc_tracks ht hc hs',hhigh,rfl⟩,hsp.agreeOn⟩

theorem BuddyOwns.store (h : BuddyOwns fl m frames)
    (hm : ∀ a, ¬ Covered frames a → m' a = m a) : BuddyOwns fl m' frames := by
  obtain ⟨ranges,live,L,ht,hhigh,rfl⟩ := h
  refine ⟨ranges,live,L,⟨ht.holds.mem_congr ?_,ht.sound⟩,hhigh,rfl⟩
  intro k q hq
  apply Memory.readWord_congr
  intro y hy
  apply hm
  rintro ⟨_,⟨c,hc,rfl⟩,hin⟩
  exact not_mem_node (ht.sound.live_free c hc k q hq).symm hin hy

instance : LawfulFrameAllocator BuddyLists where
  Owns := BuddyOwns
  apart := BuddyOwns.apart
  shape := BuddyOwns.shape
  alloc_some h hrun := ⟨((h.alloc hrun).2.2 _ rfl).1,((h.alloc hrun).2.2 _ rfl).2,(h.alloc hrun).1⟩
  alloc_none h hrun := ⟨(h.alloc hrun).2.1 rfl,(h.alloc hrun).1⟩
  dealloc := BuddyOwns.dealloc
  store := BuddyOwns.store

/-- After memory has been added to an empty allocator no frame is outstanding. -/
theorem buddyOwns_add {start stop : Nat} {b : Buddy} (hstart : 2*topSize ≤ start)
    (hlt : start < wordRange) (hstop : stop ≤ physicalLimit)
    (hrun : (Buddy.new m).add start stop = some b) : BuddyOwns b.freeList b.mem ∅ := by
  have hinit : Tracks [] [] (new m) fun _ => [] := (refines_init m).tracks
  have hlim : stop < wordRange := lt_of_le_of_lt hstop (by decide)
  refine ⟨[(start, stop)],[],_,add_tracks hinit hlt hlim (by simp) hrun,?_,?_⟩
  · intro r hr
    rw [List.mem_singleton.mp hr]
    exact ⟨hstart,hstop⟩
  · simp

end Athera
