import Athera.Mm.BuddyRuns

/-!
# Byte accounting of the buddy allocator

When a released block of the largest order finds its buddy free, `dealloc` takes the buddy off its
list and puts back a single block.
-/

namespace Athera

open Framework ListFamily List Option FreeLists BuddyMachine

def listBytes (L : Nat → List Nat) : Nat := total orderSize (List.range buddyMaxOrder) L

variable {L : Nat → List Nat} {k p : Nat}

theorem listBytes_push (hk : k < buddyMaxOrder) :
    listBytes (push L k p) = listBytes L+orderSize k :=
  total_push (mem_range.mpr hk) nodup_range

theorem listBytes_erase (hk : k < buddyMaxOrder) (hp : p ∈ L k) :
    listBytes (erase L k p)+orderSize k = listBytes L :=
  total_erase (mem_range.mpr hk) nodup_range hp

theorem pushChunks_bytes (L : Nat → List Nat) (n current : Nat) (hk : k < buddyMaxOrder) :
    (FreeLists.pushChunks k n current L).1 = current+n*orderSize k ∧
      listBytes (FreeLists.pushChunks k n current L).2 = listBytes L+n*orderSize k := by
  induction n generalizing current L with
  | zero => simp [pushChunks]
  | succ n ih =>
    obtain ⟨hcur,hbytes⟩ := ih (push L k current) (current+orderSize k)
    rw [listBytes_push hk] at hbytes
    rw [pushChunks,Nat.succ_mul]
    omega

private theorem whole_pages_add {size : Nat} (rem : Nat) (hpos : 0 < size) (hdvd : pageSize ∣ size) :
    rem/size*size+(rem-rem/size*size)/pageSize*pageSize = rem/pageSize*pageSize := by
  obtain ⟨t,rfl⟩ := hdvd
  have hle : rem/(pageSize*t)*(pageSize*t) ≤ rem := Nat.div_mul_le_self _ _
  have hmul : rem/(pageSize*t)*(pageSize*t) = rem/(pageSize*t)*t*pageSize := by
    rw [Nat.mul_comm pageSize t,Nat.mul_assoc]
  rw [hmul] at hle ⊢
  rw [Nat.mul_comm _ pageSize] at hle ⊢
  rw [Nat.sub_mul_div,Nat.mul_comm _ pageSize,← Nat.mul_add,Nat.mul_comm]
  congr 1
  have hq : rem/(pageSize*t)*t ≤ rem/pageSize := by
    rw [Nat.le_div_iff_mul_le (by decide),Nat.mul_comm]
    exact hle
  omega

theorem addOrders_bytes {stop n current : Nat} (hn : n < buddyMaxOrder) :
    listBytes (FreeLists.addOrders stop (n+1) current L) =
      listBytes L+(stop-current)/pageSize*pageSize := by
  induction n generalizing current L with
  | zero =>
    rw [addOrders]
    by_cases hstop : stop ≤ current
    · simp [hstop,Nat.sub_eq_zero_of_le hstop]
    · rw [if_neg hstop,addOrders,(pushChunks_bytes L _ _ hn).2]
      rfl
  | succ n ih =>
    rw [addOrders]
    by_cases hstop : stop ≤ current
    · simp [hstop]
    · obtain ⟨hcur,hbytes⟩ := pushChunks_bytes L ((stop-current)/orderSize (n+1)) current hn
      have hdvd : pageSize ∣ orderSize (n+1) := orderSize_dvd (Nat.zero_le _)
      have hsum := whole_pages_add (stop-current) (orderSize_pos (n+1)) hdvd
      rw [if_neg hstop,ih (by omega),hbytes,hcur,Nat.add_assoc,Nat.sub_add_eq,hsum]

/-- The bytes `add` puts on the free lists: the whole pages after the first aligned address. -/
def addedBytes (start stop : Nat) : Nat :=
  (stop - align start (1 <<< (buddyMaxOrder + 11))) / pageSize * pageSize

theorem add_bytes (start stop : Nat) :
    listBytes (FreeLists.add L start stop) = listBytes L+addedBytes start stop :=
  addOrders_bytes (by decide)

theorem splitDown_bytes (L : Nat → List Nat) (chunk : Nat) {order n : Nat}
    (hn : order+n < buddyMaxOrder) :
    listBytes (FreeLists.splitDown chunk order n L)+orderSize order =
      listBytes L+orderSize (order+n) := by
  induction n generalizing L with
  | zero => rfl
  | succ n ih =>
    have hrest := ih (push L (order+n) (chunk+orderSize (order+n))) (by omega)
    rw [listBytes_push (by omega)] at hrest
    rw [splitDown,← Nat.add_assoc order n 1,orderSize_succ]
    omega

theorem alloc_bytes (order : Nat) : match FreeLists.alloc L order with
    | (none, L') => L' = L
    | (some _, L') => listBytes L' + orderSize order = listBytes L := by
  rw [alloc]
  cases hfind : (List.range' order (buddyMaxOrder-order)).find? (fun i => !(L i).isEmpty) with
  | none => rfl
  | some i =>
    obtain ⟨hlo,hhi,hne⟩ := find_order_bounds hfind
    cases hL : L i with
    | nil => simp [hL] at hne
    | cons chunk rest =>
      have hmem : chunk ∈ L i := by simp [hL]
      have hsum : order+(i-order) = i := Nat.add_sub_cancel' hlo
      have hlt : order+(i-order) < buddyMaxOrder := by omega
      have hsplit := splitDown_bytes (erase L i chunk) chunk hlt
      rw [hsum,listBytes_erase hhi hmem] at hsplit
      simpa only [hL] using hsplit

/-- Every buddy on the way up from the block, the one of the largest order included, is free. -/
def MergesToTop (L : Nat → List Nat) (start order : Nat) : Prop :=
  ∀ j < buddyMaxOrder, order ≤ j → buddyAddress (start / orderSize j * orderSize j) j ∈ L j

instance (L : Nat → List Nat) (start order : Nat) : Decidable (MergesToTop L start order) :=
  inferInstanceAs (Decidable (∀ j < buddyMaxOrder, order ≤ j → _))

/-- Whether the merge reaches the top is decided by the buddy and, one order up, by the merged
block. -/
theorem mergesToTop_succ (hal : orderSize k ∣ p) (hk : k+1 < buddyMaxOrder) :
    MergesToTop L p k ↔ buddyAddress p k ∈ L k ∧
      MergesToTop (erase L k (buddyAddress p k)) (min p (buddyAddress p k)) (k+1) := by
  have hround : p/orderSize k*orderSize k = p := Nat.div_mul_cancel hal
  have hstep : ∀ j, k+1 ≤ j → (buddyAddress (min p (buddyAddress p k)/orderSize j*orderSize j) j ∈
          erase L k (buddyAddress p k) j ↔ buddyAddress (p/orderSize j*orderSize j) j ∈ L j) := by
    intro j hj
    rw [min_buddyAddress hal,round_orderSize hj,erase_other (by omega)]
  constructor
  · intro h
    refine ⟨?_,?_⟩
    · have hk' := h k (by omega) (le_refl k)
      rwa [hround] at hk'
    · intro j hj hkj
      rw [hstep j hkj]
      exact h j hj (by omega)
  · rintro ⟨hmem,h⟩ j hj hkj
    rcases Nat.eq_or_lt_of_le hkj with rfl | hlt
    · rwa [hround]
    · rw [← hstep j hlt]
      exact h j hj hlt

/-- The bytes a release of the block takes out of circulation. -/
def lostBytes (L : Nat → List Nat) (start order : Nat) : Nat :=
  if MergesToTop L start order then topSize else 0

theorem lostBytes_succ (hal : orderSize k ∣ p) (hk : k+1 < buddyMaxOrder)
    (hmem : buddyAddress p k ∈ L k) :
    lostBytes (erase L k (buddyAddress p k)) (min p (buddyAddress p k)) (k+1) =
      lostBytes L p k := by
  simp only [lostBytes,mergesToTop_succ hal hk,hmem,true_and]

theorem mergeUp_bytes {n : Nat} (hn : k+(n+1) = buddyMaxOrder) (hal : orderSize k ∣ p) :
    (FreeLists.mergeUp (n+1) p k L).2.1 < buddyMaxOrder ∧
      listBytes (FreeLists.mergeUp (n+1) p k L).2.2 +
          orderSize (FreeLists.mergeUp (n+1) p k L).2.1+lostBytes L p k =
        listBytes L+orderSize k := by
  induction n generalizing k p L with
  | zero =>
    have hround : p/orderSize k*orderSize k = p := Nat.div_mul_cancel hal
    have htop : MergesToTop L p k ↔ buddyAddress p k ∈ L k := by
      constructor
      · intro h
        have hk := h k (by omega) (le_refl k)
        rwa [hround] at hk
      · intro h j hj hkj
        obtain rfl : j = k := by omega
        rwa [hround]
    rw [mergeUp,lostBytes]
    by_cases hmem : buddyAddress p k ∈ L k
    · have herase := listBytes_erase (by omega) hmem
      rw [if_pos hmem,if_pos (by omega),if_pos (htop.mpr hmem)]
      have hk : buddyMaxOrder-1 = k := by omega
      simp only [topSize,hk]
      omega
    · rw [if_neg hmem,if_neg (fun h => hmem (htop.mp h))]
      simp only
      omega
  | succ n ih =>
    have hk : k+1 < buddyMaxOrder := by omega
    rw [mergeUp,lower_of_two]
    by_cases hmem : buddyAddress p k ∈ L k
    · have herase := listBytes_erase (by omega) hmem
      have hal' : orderSize (k+1) ∣ min p (buddyAddress p k) := by
        rw [min_buddyAddress hal]
        exact Dvd.intro_left _ rfl
      obtain ⟨hlt,hsum⟩ := ih (by omega) hal'
      rw [lostBytes_succ hal hk hmem,orderSize_succ] at hsum
      rw [if_pos hmem,if_neg (by omega)]
      omega
    · have hnot : ¬ MergesToTop L p k := fun h => hmem ((mergesToTop_succ hal hk).mp h).1
      rw [if_neg hmem,lostBytes,if_neg hnot]
      simp only
      omega

theorem dealloc_bytes (hk : k < buddyMaxOrder) (hal : orderSize k ∣ p) :
    listBytes (FreeLists.dealloc L p k)+lostBytes L p k = listBytes L+orderSize k := by
  have hn : k+(buddyMaxOrder-k-1+1) = buddyMaxOrder := by omega
  obtain ⟨hlt,hsum⟩ := mergeUp_bytes hn hal
  rw [show buddyMaxOrder-k-1+1 = buddyMaxOrder-k by omega] at hlt hsum
  rw [dealloc,listBytes_push hlt]
  exact hsum

/-! ## Whole runs -/

namespace BuddyMachine

def freeBytes (w : BuddyMachine) : Nat := listBytes w.heap.blocks

def liveBytes (w : BuddyMachine) : Nat := (w.live.map fun c => orderSize c.order).sum

/-- The operation releases a block whose buddies are free up to the largest order. -/
def LosesBlock (w : BuddyMachine) : BuddyOp → Prop
  | .dealloc start order => MergesToTop w.heap.blocks start order
  | _ => False

end BuddyMachine

def BuddyOp.added : BuddyOp → Nat
  | .add start stop => addedBytes start stop
  | _ => 0

theorem liveBytes_erase {live : List Chunk} {c : Chunk} (hc : c ∈ live) :
    ((live.erase c).map fun c => orderSize c.order).sum+orderSize c.order =
      (live.map fun c => orderSize c.order).sum := by
  have hperm := ((perm_cons_erase hc).map fun c : Chunk => orderSize c.order).sum_eq
  rw [map_cons,sum_cons] at hperm
  omega

theorem step_bytes {w w' : BuddyMachine} {P : Pool} {op : BuddyOp} (h : Refines w P)
    (hstep : w.step op = some w') :
    ∃ lost, w'.freeBytes+w'.liveBytes+lost = w.freeBytes+w.liveBytes+op.added ∧
      (lost = 0 ↔ ¬ w.LosesBlock op) := by
  have h' := step_refines h hstep
  have hblocks : w.heap.blocks = P.lists := funext h.tracks.holds.blocks_eq
  have hblocks' : w'.heap.blocks = (P.step op).lists := funext h'.tracks.holds.blocks_eq
  simp only [freeBytes,liveBytes,hblocks,hblocks',h.live,h'.live]
  cases op with
  | add start stop =>
    refine ⟨0,?_,by simp [LosesBlock]⟩
    simp only [Pool.step,add_bytes,BuddyOp.added]
    omega
  | alloc order =>
    refine ⟨0,?_,by simp [LosesBlock]⟩
    have hbytes := alloc_bytes (L := P.lists) order
    simp only [Pool.step,BuddyOp.added]
    cases hr : alloc P.lists order with
    | mk block lists =>
      rw [hr] at hbytes
      cases block with
      | none =>
        rw [hbytes]
      | some start =>
        simp only [map_cons,sum_cons] at hbytes ⊢
        omega
  | dealloc start order =>
    simp only [step,ite_none_right_eq_some] at hstep
    have hmem : ⟨start,order⟩ ∈ P.live := h.live ▸ hstep.1
    have hgood := h.tracks.sound.live_good _ hmem
    have hbytes := dealloc_bytes (L := P.lists) hgood.order_lt hgood.aligned
    have hlive := liveBytes_erase hmem
    refine ⟨lostBytes P.lists start order,?_,?_⟩
    · simp only [Pool.step,BuddyOp.added] at hbytes hlive ⊢
      omega
    · have htop : topSize ≠ 0 := by decide
      simp only [LosesBlock,hblocks,lostBytes]
      by_cases hm : MergesToTop P.lists start order
      · simp [htop]
      · simp [hm]
  | store addr byte =>
    refine ⟨0,?_,by simp [LosesBlock]⟩
    simp only [Pool.step,BuddyOp.added]

theorem run_bytes {w w' : BuddyMachine} {P : Pool} {ops : List BuddyOp} (h : Refines w P)
    (hrun : run step ops w = some w') : ∃ lost, w'.freeBytes+w'.liveBytes+lost =
        w.freeBytes+w.liveBytes+(ops.map BuddyOp.added).sum ∧
      (lost = 0 ↔ EachStep step (fun w op => ¬ w.LosesBlock op) ops w) := by
  induction ops generalizing w P with
  | nil =>
    obtain rfl : w = w' := some.inj hrun
    exact ⟨0,by simp,by simp [EachStep]⟩
  | cons op ops ih =>
    obtain ⟨t,ht,hrest⟩ := run_cons hrun
    obtain ⟨lost,hsum,hlost⟩ := step_bytes h ht
    obtain ⟨lost',hsum',hlost'⟩ := ih (step_refines h ht) hrest
    refine ⟨lost+lost',?_,?_⟩
    · rw [map_cons,sum_cons]
      omega
    · simp only [EachStep,ht,mem_some_iff,forall_eq',← hlost,← hlost']
      omega

theorem init_bytes (m : Memory) : (init m).freeBytes+(init m).liveBytes = 0 := by
  have hb : (init m).heap.blocks = fun _ => [] := funext (Buddy.holds_new m).blocks_eq
  simp only [freeBytes,hb]
  rfl

/-- After a run (without a null access) the free and the outstanding bytes are the added ones exactly
when no release of the run found all its buddies free up to the largest order. -/
theorem buddy_conserves_iff (m : Memory) (ops : List BuddyOp) (w : BuddyMachine)
    (hrun : run step ops (.init m) = some w) :
    w.freeBytes + w.liveBytes = (ops.map BuddyOp.added).sum ↔
      EachStep step (fun w op => ¬ w.LosesBlock op) ops (.init m) := by
  obtain ⟨lost,hsum,hlost⟩ := run_bytes (refines_init m) hrun
  rw [init_bytes] at hsum
  rw [← hlost]
  omega

private theorem page_run_isSome :
    (run step [.add 0x80400000 0x80800000,.alloc 0,.dealloc 0x80400000 0]
      (.init fun _ => 0)).isSome = true := by decide

theorem buddy_conserves_page :
    ∃ w, run step [.add 0x80400000 0x80800000,.alloc 0,.dealloc 0x80400000 0]
        (.init fun _ => 0) = some w ∧
      w.freeBytes = 0x400000 ∧
      EachStep step (fun w op => ¬ w.LosesBlock op)
        [.add 0x80400000 0x80800000,.alloc 0,.dealloc 0x80400000 0] (.init fun _ => 0) :=
  ⟨Option.get _ page_run_isSome,(some_get _).symm,by decide,
    (buddy_conserves_iff _ _ _ (some_get page_run_isSome).symm).mp (by decide)⟩

/-- Two neighbouring blocks of the largest order, taken and given back: half of the 8 MiB is
gone. -/
theorem buddy_loses_four_mebibytes :
    (run step
        [.add 0x80800000 0x81000000,.alloc 10,.alloc 10,.dealloc 0x80800000 10,
          .dealloc 0x80C00000 10]
        (.init fun _ => 0)).map (fun w => (w.live,w.freeBytes + w.liveBytes)) =
      some ([],0x400000) ∧
    (([.add 0x80800000 0x81000000,.alloc 10,.alloc 10,.dealloc 0x80800000 10,
      .dealloc 0x80C00000 10] : List BuddyOp).map BuddyOp.added).sum = 0x800000 := by
  decide

end Athera
