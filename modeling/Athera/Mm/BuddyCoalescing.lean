import Athera.Mm.BuddyConservation

/-!
# Coalescing in the buddy allocator

Below the largest order no block and its buddy are free at the same time.
-/

namespace Athera

open Framework ListFamily List Option FreeLists BuddyMachine

/-- Below the largest order no two free blocks are buddies. -/
def Coalesced (L : Nat → List Nat) : Prop :=
  ∀ k, k + 1 < buddyMaxOrder → ∀ p ∈ L k, buddyAddress p k ∉ L k

variable {ranges : List (Nat × Nat)} {live : List Chunk} {L : Nat → List Nat} {s s' : Buddy}
  {k p : Nat}

theorem buddyAddress_ne (p k : Nat) : buddyAddress p k ≠ p := by
  intro h
  have hzero : orderSize k = 0 := by
    rw [buddyAddress] at h
    simpa using congrArg (p ^^^ ·) h
  exact (orderSize_pos k).ne' hzero

theorem buddyAddress_of_dvd (h : orderSize (k+1) ∣ p) : buddyAddress p k = p+orderSize k := by
  have hal : orderSize k ∣ p := Nat.dvd_trans (orderSize_dvd (Nat.le_succ k)) h
  have hmin := min_buddyAddress hal
  rw [Nat.div_mul_cancel h] at hmin
  rcases buddyAddress_adjacent hal with he | he
  · exact he
  · omega

theorem topWindow_buddyAddress (hal : orderSize k ∣ p) (hk : k+1 < buddyMaxOrder) :
    topWindow (buddyAddress p k) = topWindow p := by
  have hal' : orderSize k ∣ buddyAddress p k := by
    rcases buddyAddress_adjacent hal with he | he
    · rw [he]
      exact Nat.dvd_add hal (Nat.dvd_refl _)
    · rw [he] at hal
      exact (Nat.dvd_add_left (Nat.dvd_refl _)).mp hal
  have h := min_buddyAddress hal
  have h' := min_buddyAddress hal'
  rw [buddyAddress_buddyAddress,min_comm,h] at h'
  rw [← topWindow_round hk (buddyAddress p k),← h',topWindow_round hk]

namespace Coalesced

theorem erase (h : Coalesced L) (j q : Nat) : Coalesced (ListFamily.erase L j q) := by
  intro k hk p hp hb
  exact h k hk p (mem_of_mem_erase hp) (mem_of_mem_erase hb)

theorem push (h : Coalesced L) (hb : k+1 < buddyMaxOrder → buddyAddress p k ∉ L k) :
    Coalesced (ListFamily.push L k p) := by
  intro j hj q hq hbq
  rcases mem_push.mp hq with ⟨rfl,rfl⟩ | hqL
  · rcases mem_push.mp hbq with ⟨_,hself⟩ | hbq
    · exact buddyAddress_ne q j hself
    · exact hb hj hbq
  · rcases mem_push.mp hbq with ⟨rfl,rfl⟩ | hbq
    · rw [buddyAddress_buddyAddress] at hb
      exact hb hj hqL
    · exact h j hj q hqL hbq

end Coalesced

theorem splitDown_apply (chunk order n j : Nat) (L : Nat → List Nat) :
    FreeLists.splitDown chunk order n L j =
      if order ≤ j ∧ j < order+n then (chunk+orderSize j)::L j else L j := by
  induction n generalizing L with
  | zero =>
    rw [splitDown,if_neg (by omega)]
  | succ n ih =>
    rw [splitDown,ih]
    by_cases hj : j = order+n
    · subst j
      rw [if_neg (by omega),if_pos (by omega),push_same]
    · rw [push_other hj]
      congr 1
      simp only [eq_iff_iff]
      omega

theorem alloc_coalesced (h : Coalesced L) (order : Nat) :
    Coalesced (FreeLists.alloc L order).2 := by
  rw [alloc]
  cases hfind : (List.range' order (buddyMaxOrder-order)).find? (fun i => !(L i).isEmpty) with
  | none => exact h
  | some i =>
    cases hL : L i with
    | nil => simpa only [hL] using h
    | cons chunk rest =>
      simp only [hL]
      intro k hk p hp hb
      rw [splitDown_apply] at hp hb
      by_cases hin : order ≤ k ∧ k < order+(i-order)
      · -- the lists passed over were empty, so this one has a single block now
        have hskip := (find?_range'_eq_some.mp hfind).2.2 k hin.1 (by omega)
        have hnil : L k = [] := by simpa using hskip
        have hki : k ≠ i := by omega
        rw [if_pos hin,erase_other hki,hnil,mem_singleton] at hp hb
        exact buddyAddress_ne p k (hb.trans hp.symm)
      · rw [if_neg hin] at hp hb
        exact h.erase i chunk k hk p hp hb

theorem alloc_nil {order : Nat} (h : (FreeLists.alloc L order).1 = none) :
    ∀ i, order ≤ i → i < buddyMaxOrder → L i = [] := by
  rw [alloc] at h
  cases hfind : (List.range' order (buddyMaxOrder-order)).find? (fun i => !(L i).isEmpty) with
  | none =>
    intro i hlo hhi
    have hnone := find?_eq_none.mp hfind i (mem_range'_1.mpr ⟨hlo,by omega⟩)
    simpa using hnone
  | some i =>
    have hne := (find_order_bounds hfind).2.2
    cases hL : L i with
    | nil => simp [hL] at hne
    | cons chunk rest => simp [hfind,hL] at h

/-- The merge stops at the largest order or where the buddy is not free. -/
theorem mergeUp_coalesced {n : Nat} (hn : k+(n+1) = buddyMaxOrder) (h : Coalesced L) :
    Coalesced (FreeLists.mergeUp (n+1) p k L).2.2 ∧
      ((FreeLists.mergeUp (n+1) p k L).2.1+1 < buddyMaxOrder →
        buddyAddress (FreeLists.mergeUp (n+1) p k L).1 (FreeLists.mergeUp (n+1) p k L).2.1 ∉
          (FreeLists.mergeUp (n+1) p k L).2.2 (FreeLists.mergeUp (n+1) p k L).2.1) := by
  induction n generalizing k p L with
  | zero =>
    rw [mergeUp]
    by_cases hmem : buddyAddress p k ∈ L k
    · rw [if_pos hmem,if_pos (by omega)]
      refine ⟨h.erase k _,fun hlt => ?_⟩
      simp only [buddyMaxOrder] at hlt
      omega
    · rw [if_neg hmem]
      exact ⟨h,fun _ => hmem⟩
  | succ n ih =>
    rw [mergeUp]
    by_cases hmem : buddyAddress p k ∈ L k
    · rw [if_pos hmem,if_neg (by omega)]
      exact ih (by omega) (h.erase k _)
    · rw [if_neg hmem]
      exact ⟨h,fun _ => hmem⟩

theorem dealloc_coalesced (h : Coalesced L) (hk : k < buddyMaxOrder) :
    Coalesced (FreeLists.dealloc L p k) := by
  have hn : k+(buddyMaxOrder-k-1+1) = buddyMaxOrder := by omega
  obtain ⟨hrest,hlast⟩ := mergeUp_coalesced hn h
  rw [show buddyMaxOrder-k-1+1 = buddyMaxOrder-k by omega] at hrest hlast
  exact hrest.push hlast

theorem mem_pushChunks {n current j : Nat} (h : p ∈ (FreeLists.pushChunks k n current L).2 j) :
    p ∈ L j ∨ j = k ∧ ∃ i < n, p = current+i*orderSize k := by
  induction n generalizing current L with
  | zero => exact Or.inl h
  | succ n ih =>
    rcases ih h with hold | ⟨hj,i,hi,hp⟩
    · rcases mem_push.mp hold with ⟨hj,hp⟩ | hold
      · exact Or.inr ⟨hj,0,Nat.succ_pos n,by omega⟩
      · exact Or.inl hold
    · refine Or.inr ⟨hj,i+1,by omega,?_⟩
      rw [Nat.succ_mul]
      omega

/-- A block of order `k` that `add` puts on its list lies between `current` and `stop`; below the
largest order it is a lower half whose upper half does not fit any more. -/
structure AddedBlock (current stop k p : Nat) : Prop where
  low : current ≤ p
  high : p + orderSize k ≤ stop
  lower : k + 1 < buddyMaxOrder → orderSize (k + 1) ∣ p ∧ stop < p + orderSize (k + 1)

theorem mem_addOrders {stop n current : Nat} (hn : n ≤ buddyMaxOrder)
    (hal : orderSize (min n (buddyMaxOrder-1)) ∣ current)
    (hrest : n < buddyMaxOrder → stop < current+orderSize n)
    (h : p ∈ FreeLists.addOrders stop n current L k) :
    p ∈ L k ∨ AddedBlock current stop k p := by
  induction n generalizing current L with
  | zero => exact Or.inl h
  | succ n ih =>
    rw [addOrders] at h
    by_cases hstop : stop ≤ current
    · rw [if_pos hstop] at h
      exact Or.inl h
    · rw [if_neg hstop] at h
      have hmin : min n (buddyMaxOrder-1) = n := by omega
      have hle : orderSize n ∣ orderSize (min (n+1) (buddyMaxOrder-1)) := orderSize_dvd (by omega)
      have hdiv := Nat.div_mul_le_self (stop-current) (orderSize n)
      have hmod := Nat.lt_div_mul_add (a := stop-current) (orderSize_pos n)
      have hcur := (pushChunks_bytes L ((stop-current)/orderSize n) current hn).1
      have hal' : orderSize n ∣ current+(stop-current)/orderSize n*orderSize n :=
        Nat.dvd_add (Nat.dvd_trans hle hal) (Dvd.intro_left _ rfl)
      rcases ih (by omega) (by rw [hmin,hcur]; exact hal') (by rw [hcur]; omega) h with hold | hnew
      · rcases mem_pushChunks hold with hold | ⟨rfl,i,hi,rfl⟩
        · exact Or.inl hold
        · have hmul : (i+1)*orderSize k ≤ (stop-current)/orderSize k*orderSize k :=
            Nat.mul_le_mul_right _ hi
          rw [Nat.succ_mul] at hmul
          refine Or.inr ⟨by omega,by omega,fun hk => ?_⟩
          -- what was left is less than two blocks of this order
          have hroom := hrest hk
          have htwo : (stop-current)/orderSize k < 2 := by
            rw [Nat.div_lt_iff_lt_mul (orderSize_pos k),← orderSize_succ]
            omega
          obtain rfl : i = 0 := by omega
          rw [show min (k+1) (buddyMaxOrder-1) = k+1 by omega] at hal
          simpa using ⟨hal,hroom⟩
      · exact Or.inr ⟨by have := hnew.low; omega,hnew.high,hnew.lower⟩

theorem AddedBlock.no_buddy {r : Nat × Nat} {current : Nat} (h : AddedBlock current r.2 k p)
    (hs : Sound ranges live L) (hr : r ∈ ranges) (hcur : r.1 ≤ current)
    (hk : k+1 < buddyMaxOrder) (hp : p ∈ L k) : buddyAddress p k ∉ L k := by
  intro hb
  obtain ⟨hal,hstop⟩ := h.lower hk
  have hpos := orderSize_pos k
  have hlow := h.low
  have hhigh := h.high
  have hgood := hs.free_good k p hp
  obtain ⟨r1,hr1,hlo1,hhi1⟩ := hgood.placed
  obtain ⟨r2,hr2,hlo2,hhi2⟩ := (hs.free_good k _ hb).placed
  have hle := topWindow_le p
  simp only [topWindow_buddyAddress hgood.aligned hk] at hlo1 hhi1 hlo2 hhi2
  rw [buddyAddress_of_dvd hal] at hhi2
  have h1 : r = r1 := hs.range_unique hr hr1 (a := p) ⟨by omega,by omega⟩ ⟨by omega,by omega⟩
  have h2 : r1 = r2 := hs.range_unique hr1 hr2 ⟨hlo1,by omega⟩
    ⟨hlo2,by omega⟩
  subst r1 r2
  rw [orderSize_succ] at hstop
  omega

theorem add_coalesced {start stop : Nat} (h : Coalesced L) (hstart : start < wordRange)
    (hrun : s.add start stop = some s')
    (hs : Sound ((start, stop)::ranges) live (FreeLists.add L start stop)) :
    Coalesced (FreeLists.add L start stop) := by
  rw [Buddy.add,align_top] at hrun
  rw [add,align_top] at hs ⊢
  by_cases hover : wordRange ≤ start+topSize-1
  · rw [align_top_of_overflow hstart hover] at hrun ⊢
    rw [(addOrders_zero hrun).2]
    exact h
  · have hno : start+2^22-1 < wordRange := by
      rw [topSize_eq] at hover
      omega
    have hle : start ≤ align start topSize := by
      rw [topSize_eq]
      exact le_align (by decide) hno
    have hdvd : orderSize (min buddyMaxOrder (buddyMaxOrder-1)) ∣ align start topSize := by
      rw [topSize_eq]
      exact dvd_align (by decide)
    have hnew : ∀ k p, p ∈ addOrders stop buddyMaxOrder (align start topSize) L k →
        p ∈ L k ∨ AddedBlock (align start topSize) stop k p := fun k p hp =>
      mem_addOrders (le_refl _) hdvd (fun hlt => absurd hlt (lt_irrefl _)) hp
    have hlone : ∀ k p, k+1 < buddyMaxOrder → AddedBlock (align start topSize) stop k p →
        p ∈ addOrders stop buddyMaxOrder (align start topSize) L k →
        buddyAddress p k ∉ addOrders stop buddyMaxOrder (align start topSize) L k :=
      fun k p hk hadd hp =>
        AddedBlock.no_buddy hadd hs mem_cons_self hle hk hp
    intro k hk p hp hb
    rcases hnew k p hp with hold | hadd
    · rcases hnew k _ hb with hbold | hadd
      · exact h k hk p hold hbold
      · refine hlone k _ hk hadd hb ?_
        rw [buddyAddress_buddyAddress]
        exact hp
    · exact hlone k p hk hadd hp hb

theorem Sound.stays_inside (hs : Sound ranges live L) {j q a : Nat} (hq : q ∈ L j)
    (hal : orderSize k ∣ a) (hkj : k ≤ j) (hhi : a < q+orderSize j) :
    a+orderSize k ≤ q+orderSize j := by
  have hdvd : orderSize k ∣ orderSize j := orderSize_dvd hkj
  have hqal : orderSize j ∣ q := (hs.free_good j q hq).aligned
  exact add_le_of_dvd hal (Nat.dvd_add (Nat.dvd_trans hdvd hqal) hdvd) hhi

theorem Sound.start_eq (hs : Sound ranges live L) {q a : Nat} (hq : q ∈ L k)
    (hal : orderSize k ∣ a) (hlo : q ≤ a) (hhi : a < q+orderSize k) : q = a := by
  have hqal : orderSize k ∣ q := (hs.free_good k q hq).aligned
  rcases Nat.eq_or_lt_of_le hlo with he | hlt
  · exact he
  · have hstep := add_le_of_dvd hqal hal hlt
    omega

theorem Sound.span_in_block (hs : Sound ranges live L) (hc : Coalesced L)
    (hk : k < buddyMaxOrder) (hal : orderSize k ∣ p)
    (hfree : ∀ a, p ≤ a → a < p+orderSize k → pageSize ∣ a →
      ∃ j, ∃ q ∈ L j, q ≤ a ∧ a+pageSize ≤ q+orderSize j) :
    ∃ j, k ≤ j ∧ ∃ q ∈ L j, q ≤ p ∧ p+orderSize k ≤ q+orderSize j := by
  induction k generalizing p with
  | zero =>
    obtain ⟨j,q,hq,hlo,hhi⟩ := hfree p (le_refl p) (by have := orderSize_pos 0; omega) hal
    exact ⟨j,Nat.zero_le j,q,hq,hlo,hhi⟩
  | succ k ih =>
    have hpos := orderSize_pos k
    have hhalf : orderSize k ∣ p := Nat.dvd_trans (orderSize_dvd (Nat.le_succ k)) hal
    have hupper : orderSize k ∣ p+orderSize k := Nat.dvd_add hhalf (Nat.dvd_refl _)
    rw [orderSize_succ] at hfree
    obtain ⟨i,hi,q,hq,hqlo,hqhi⟩ := ih (by omega) hhalf fun a h1 h2 => hfree a h1 (by omega)
    obtain ⟨j,hj,q',hq',hqlo',hqhi'⟩ := ih (by omega) hupper
      fun a h1 h2 => hfree a (by omega) (by omega)
    by_cases hik : k+1 ≤ i
    · exact ⟨i,hik,q,hq,hqlo,hs.stays_inside hq hal hik (by omega)⟩
    · by_cases hjk : k+1 ≤ j
      · -- the upper half lies in a larger block, which then begins at the lower half or before
        have hq'al : orderSize (k+1) ∣ q' :=
          Nat.dvd_trans (orderSize_dvd hjk) (hs.free_good j q' hq').aligned
        have hq'p : q' ≤ p := by
          by_contra hlt
          have hstep := add_le_of_dvd hal hq'al (by omega)
          rw [orderSize_succ] at hstep
          omega
        exact ⟨j,hjk,q',hq',hq'p,hs.stays_inside hq' hal hjk (by omega)⟩
      · -- both halves are free blocks of their own, and buddies
        obtain rfl : i = k := by omega
        obtain rfl : j = i := by omega
        have hqp : q = p := hs.start_eq hq hhalf hqlo (by omega)
        have hqp' : q' = p+orderSize j := hs.start_eq hq' hupper hqlo' (by omega)
        subst hqp hqp'
        exact absurd hq' (buddyAddress_of_dvd hal ▸ hc j hk q hq)

/-! ## Whole runs -/

namespace BuddyMachine

/-- The page from `a` on belongs to a free block. -/
def FreePage (w : BuddyMachine) (a : Nat) : Prop :=
  ∃ b ∈ w.free, b.start ≤ a ∧ a + pageSize ≤ b.stop

/-- A naturally aligned block inside the added ranges that consists of free pages. -/
structure FreeSpan (w : BuddyMachine) (c : Chunk) : Prop where
  aligned : orderSize c.order ∣ c.start
  inside : ∀ a ∈ c.block, ∃ r ∈ w.ranges, r.1 ≤ a ∧ a < r.2
  free : ∀ a ∈ c.block, pageSize ∣ a → w.FreePage a

end BuddyMachine

theorem step_coalesced {w w' : BuddyMachine} {P : Pool} {op : BuddyOp} (h : Refines w P)
    (hc : Coalesced P.lists) (hstep : w.step op = some w') : Coalesced (P.step op).lists := by
  have h' := step_refines h hstep
  cases op with
  | add start stop =>
    simp only [step,ite_none_right_eq_some] at hstep
    obtain ⟨⟨hstart,_⟩,hstep⟩ := hstep
    obtain ⟨heap,hadd,_⟩ := bind_eq_some_iff.mp hstep
    exact add_coalesced hc hstart hadd h'.tracks.sound
  | alloc order =>
    have halloc := alloc_coalesced hc order
    simp only [Pool.step]
    cases hr : alloc P.lists order with
    | mk block lists =>
      rw [hr] at halloc
      cases block with
      | none => exact halloc
      | some start => exact halloc
  | dealloc start order =>
    simp only [step,ite_none_right_eq_some] at hstep
    have hgood := h.tracks.sound.live_good _ (h.live ▸ hstep.1)
    exact dealloc_coalesced hc hgood.order_lt
  | store addr byte => exact hc

theorem run_coalesced {w w' : BuddyMachine} {P : Pool} {ops : List BuddyOp} (h : Refines w P)
    (hc : Coalesced P.lists) (hrun : run step ops w = some w') :
    Coalesced (ops.foldl Pool.step P).lists := by
  induction ops generalizing w P with
  | nil => exact hc
  | cons op ops ih =>
    obtain ⟨t,ht,hrest⟩ := run_cons hrun
    exact ih (step_refines h ht) (step_coalesced h hc ht) hrest

/-- No two free blocks below the largest order are buddies, and `alloc` of any order there is fails
only when no aligned block of that order is free page by page. Unless a release loses a block, all
that was added is free or outstanding. -/
theorem buddy_coalescing_complete (m : Memory) (ops : List BuddyOp) (w : BuddyMachine)
    (hrun : run step ops (.init m) = some w) :
    (∀ k < buddyMaxOrder - 1, ∀ p ∈ w.heap.blocks k, ∀ q ∈ w.heap.blocks k,
      q ≠ buddyAddress p k) ∧
    (∀ k < buddyMaxOrder, ∀ heap, w.heap.alloc k = some (none, heap) →
      ¬ ∃ start, w.FreeSpan ⟨start,k⟩) ∧
    (EachStep step (fun w op => ¬ w.LosesBlock op) ops (.init m) →
      w.freeBytes + w.liveBytes = (ops.map BuddyOp.added).sum) := by
  have href := run_refines (refines_init m) hrun
  have hc := run_coalesced (refines_init m) (fun k _ p hp => absurd hp (by simp [Pool.init])) hrun
  have ht := href.tracks
  refine ⟨?_,?_,?_⟩
  · intro k hk p hp q hq he
    rw [ht.holds.blocks_eq] at hp hq
    exact hc k (by omega) p hp (he ▸ hq)
  · intro k hk heap halloc hspan
    obtain ⟨start,hspan⟩ := hspan
    obtain ⟨heap',hrun',_⟩ := alloc_tracks ht k
    have hnone := congrArg Prod.fst (some.inj (hrun'.symm.trans halloc))
    have hempty := alloc_nil hnone
    obtain ⟨j,hkj,q,hq,_⟩ := ht.sound.span_in_block hc hk hspan.aligned fun a hlo hhi hpage => by
      obtain ⟨b,hb,hbounds⟩ := hspan.free a ⟨hlo,hhi⟩ hpage
      obtain ⟨j,_,hb⟩ := mem_flatMap.mp hb
      obtain ⟨q,hq,rfl⟩ := List.mem_map.mp hb
      rw [ht.holds.blocks_eq] at hq
      exact ⟨j,q,hq,hbounds⟩
    rw [hempty j hkj (ht.sound.free_good j q hq).order_lt] at hq
    exact absurd hq not_mem_nil
  · intro hkeep
    obtain ⟨lost,hsum,hlost⟩ := run_bytes (refines_init m) hrun
    rw [init_bytes,hlost.mpr hkeep] at hsum
    omega

private theorem merged_isSome :
    (run step [.add 0x80800000 0x80802000,.alloc 0,.alloc 0,.dealloc 0x80800000 0,
      .dealloc 0x80801000 0,.alloc 1] (.init fun _ => 0)).isSome = true := by decide

private theorem merged_alloc :
    ((Option.get _ merged_isSome).heap.alloc 0).map Prod.fst = some none := by decide

/-- Two pages are taken, given back one by one and taken again as the one block they merged to;
nothing is left. -/
theorem buddy_coalescing_complete_merge :
    ∃ w, run step [.add 0x80800000 0x80802000,.alloc 0,.alloc 0,.dealloc 0x80800000 0,
        .dealloc 0x80801000 0,.alloc 1] (.init fun _ => 0) = some w ∧
      w.live = [⟨0x80800000,1⟩] ∧ (∃ heap, w.heap.alloc 0 = some (none, heap)) ∧
      ¬ ∃ start, w.FreeSpan ⟨start,0⟩ := by
  obtain ⟨⟨block,heap⟩,halloc,hnone⟩ := map_eq_some_iff.mp merged_alloc
  obtain rfl : block = none := hnone
  exact ⟨Option.get _ merged_isSome,(some_get _).symm,by decide,⟨heap,halloc⟩,
    (buddy_coalescing_complete _ _ _ (some_get merged_isSome).symm).2.1 0 (by decide) heap halloc⟩

end Athera
