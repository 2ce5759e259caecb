import Athera.Framework.Block
import Athera.Framework.PowerOfTwo
import Athera.Framework.Runs
import Athera.Mm.Constants

/-!
# The memory source of the user heap

`MmapSource` of `athera-userland/src/alloc.rs`. The mappings of the kernel are kept beside the
regions; every call into the kernel may fail.
-/

namespace Athera

open Framework List Option

namespace UserHeap

def blockSize : Nat := 1 <<< 20
def maxMapSize : Nat := 4 * 1024 * 1024
def headerSize : Nat := 32

structure Region where
  base : Nat
  mapSize : Nat
  heapEnd : Nat
deriving DecidableEq, Repr

def Region.block (r : Region) : Block := ⟨r.base,r.mapSize⟩

structure Heap where
  regions : List Region
  maps : List Block
deriving DecidableEq, Repr

/-- Constants of the allocator that the source serves. -/
structure Talc where
  chunkUnit : Nat
  minFirstHeapSize : Nat

def needed (talc : Talc) (size align : Nat) (established : Bool) : Option Nat :=
  let required := saturatingAdd (saturatingAdd (saturatingAdd size align) (2 * talc.chunkUnit)) headerSize
  let required := if established then required else saturatingAdd required talc.minFirstHeapSize
  checkedNextPowerOfTwo (max required blockSize)

def growTarget (r : Region) (n : Nat) : Option Nat :=
  checkedNextPowerOfTwo (saturatingAdd (r.heapEnd - r.base) n)

structure Answers where
  mremap : Bool
  mmap : Option Nat
  claim : Bool
  munmap : Bool
deriving DecidableEq, Repr

namespace Heap

def munmap (s : Heap) (b : Block) (ok : Bool) : Heap :=
  if ok then { s with maps := s.maps.filter (· ≠ b) } else s

def mremap (s : Heap) (b : Block) (size : Nat) : Heap :=
  { s with maps := ⟨b.start,size⟩ :: s.maps.filter (· ≠ b) }

def newRegion (s : Heap) (n : Nat) (ans : Answers) : Bool × Heap :=
  match ans.mmap with
  | none => (false, s)
  | some base =>
    let mapped := { s with maps := ⟨base,n⟩ :: s.maps }
    if ans.claim then
      (true, { mapped with regions := ⟨base,n,wrap (base + n)⟩ :: s.regions })
    else (false, mapped.munmap ⟨base,n⟩ ans.munmap)

def acquire (talc : Talc) (s : Heap) (size align : Nat) (established : Bool) (ans : Answers) : Bool × Heap :=
  match needed talc size align established with
  | none => (false, s)
  | some n =>
    match s.regions with
    | [] => s.newRegion n ans
    | r :: rest =>
      match growTarget r n with
      | none => (false, s)
      | some target =>
        if (target > r.mapSize ∧ target ≤ maxMapSize) ∧ ans.mremap then
          (true, { s.mremap r.block target with regions := ⟨r.base,target,wrap (r.heapEnd + n)⟩ :: rest })
        else s.newRegion n ans

/-- The region with the heap end, between those linked before and after it. -/
def findRegion (chunkEnd : Nat) : List Region → Option (List Region × Region × List Region)
  | [] => none
  | r :: rs =>
    if r.heapEnd = chunkEnd then some ([], r, rs)
    else (findRegion chunkEnd rs).map fun f => (r :: f.1, f.2)

def shrinkTarget (r : Region) (chunkBase : Nat) : Option Nat :=
  checkedNextPowerOfTwo (align (chunkBase - r.base) pageSize)

/-- The heap end that is left, and the heap; `ok` is the answer of `mremap` or `munmap`. -/
def resize (s : Heap) (chunkBase chunkEnd : Nat) (isHeapBase ok : Bool) : Nat × Heap :=
  match findRegion chunkEnd s.regions with
  | none => (chunkEnd, s)
  | some (before, r, later) =>
    if isHeapBase then (chunkBase, { s with regions := before ++ later }.munmap r.block ok)
    else if chunkEnd - chunkBase ≤ pageSize then (chunkEnd, s)
    else
      match shrinkTarget r chunkBase with
      | none => (chunkEnd, s)
      | some newMap =>
        if newMap ≥ r.mapSize then (chunkEnd, s)
        else if ok then
          (wrap (r.base + newMap), { s.mremap r.block newMap with
            regions := before ++ ⟨r.base,newMap,wrap (r.base + newMap)⟩ :: later })
        else (chunkEnd, s)

inductive Call where
  | acquire (size align : Nat) (established : Bool) (ans : Answers)
  | resize (chunkBase chunkEnd : Nat) (isHeapBase ok : Bool)
deriving DecidableEq, Repr

def step (talc : Talc) (s : Heap) : Call → Option Heap
  | .acquire size align established ans => some (s.acquire talc size align established ans).2
  | .resize chunkBase chunkEnd isHeapBase ok => some (s.resize chunkBase chunkEnd isHeapBase ok).2

/-- A place for a mapping: free of all mappings but possibly one, and below the end of memory. -/
def Vacant (s : Heap) (b : Block) (replaced : Option Block) : Prop :=
  b.stop < wordRange ∧ ∀ c ∈ s.maps, some c ≠ replaced → b.Apart c

instance (s : Heap) (b : Block) (replaced : Option Block) : Decidable (s.Vacant b replaced) :=
  inferInstanceAs (Decidable (_ ∧ _))

/-- What the kernel and the allocator can do: the kernel maps vacant memory only, and the allocator
gives back a heap end it was given, with a free chunk of that heap. -/
def Possible (talc : Talc) (s : Heap) : Call → Prop
  | .acquire size align established ans => ∀ n, needed talc size align established = some n →
    (∀ base, ans.mmap = some base → s.Vacant ⟨base,n⟩ none) ∧
    ∀ r ∈ s.regions.head?, ∀ target, growTarget r n = some target → ans.mremap = true →
      s.Vacant ⟨r.base,target⟩ (some r.block)
  | .resize chunkBase chunkEnd _ _ => ∃ r ∈ s.regions, r.heapEnd = chunkEnd ∧
    r.base + headerSize ≤ chunkBase ∧ chunkBase ≤ chunkEnd

structure Truthful (maps : List Block) (r : Region) : Prop where
  power : ∃ k, r.mapSize = 2 ^ k
  mapped : r.block ∈ maps
  above : r.base + r.mapSize / 2 < r.heapEnd
  below : r.heapEnd ≤ r.base + r.mapSize
  fits : r.base + r.mapSize < wordRange

structure Inv (s : Heap) : Prop where
  truthful : ∀ r ∈ s.regions, Truthful s.maps r
  apart : s.regions.Pairwise fun r r' => r.block.Apart r'.block

variable {s : Heap} {talc : Talc} {r : Region}

variable {maps : List Block}

theorem Truthful.size_pos (h : Truthful maps r) : 0 < r.mapSize := by
  obtain ⟨k,hk⟩ := h.power
  rw [hk]
  exact Nat.two_pow_pos k

theorem Truthful.keep (h : Truthful maps r) {b : Block} (hb : r.block ≠ b) :
    Truthful (maps.filter (· ≠ b)) r :=
  ⟨h.power,mem_filter.mpr ⟨h.mapped,by simpa using hb⟩,h.above,h.below,h.fits⟩

theorem Truthful.more (h : Truthful maps r) (b : Block) : Truthful (b::maps) r :=
  ⟨h.power,mem_cons_of_mem _ h.mapped,h.above,h.below,h.fits⟩

section

variable {n : Nat} {established : Bool}

theorem needed_power {size align : Nat}
    (h : needed talc size align established = some n) : ∃ k, n = 2^k := by
  obtain ⟨rfl,_⟩ := checkedNextPowerOfTwo_eq_some.mp h
  exact nextPowerOfTwo_eq_pow _

theorem blockSize_le_needed {size align : Nat}
    (h : needed talc size align established = some n) : blockSize ≤ n := by
  obtain ⟨rfl,_⟩ := checkedNextPowerOfTwo_eq_some.mp h
  exact (Nat.le_max_right _ _).trans (le_nextPowerOfTwo _)

theorem Inv.newRegion (h : s.Inv) (hpow : ∃ k, n = 2^k) {ans : Answers}
    (hvacant : ∀ base, ans.mmap = some base → s.Vacant ⟨base,n⟩ none) :
    (s.newRegion n ans).2.Inv := by
  unfold Heap.newRegion
  cases hmmap : ans.mmap with
  | none => exact h
  | some base =>
    obtain ⟨hfits,hfree⟩ := hvacant base hmmap
    have hapart : ∀ r ∈ s.regions, (Block.mk base n).Apart r.block := fun r hr =>
      hfree r.block (h.truthful r hr).mapped (by simp)
    have hpos : 0 < n := by
      obtain ⟨k,rfl⟩ := hpow
      exact Nat.two_pow_pos k
    change base+n < wordRange at hfits
    dsimp only
    split
    next =>
      rw [wrap_of_lt hfits]
      refine ⟨?_,pairwise_cons.mpr ⟨hapart,h.apart⟩⟩
      intro r hr
      rcases mem_cons.mp hr with rfl | hr
      · refine ⟨hpow,mem_cons_self,?_,Nat.le_refl _,hfits⟩
        change base+n/2 < base+n
        omega
      · exact (h.truthful r hr).more _
    next =>
      cases ans.munmap with
      | false => exact ⟨fun r hr => (h.truthful r hr).more _,h.apart⟩
      | true =>
        refine ⟨fun r hr => ?_,h.apart⟩
        exact ((h.truthful r hr).more _).keep ((hapart r hr).symm.ne (h.truthful r hr).size_pos)

/-- Growing in place: the new size is the power of two just above the new heap end. -/
theorem Inv.grow (h : s.Inv) {rest : List Region} (hs : s.regions = r::rest) {target : Nat}
    (hn : 0 < n) (htarget : growTarget r n = some target)
    (hvacant : s.Vacant ⟨r.base,target⟩ (some r.block)) : ({ s.mremap r.block target with
      regions := ⟨r.base,target,wrap (r.heapEnd+n)⟩ :: rest } : Heap).Inv := by
  have hr := h.truthful r (by simp [hs])
  have hpairs := h.apart
  rw [hs] at hpairs
  obtain ⟨hfirst,hothers⟩ := pairwise_cons.mp hpairs
  have hsum := saturatingAdd_of_checked htarget
  obtain ⟨he,_⟩ := checkedNextPowerOfTwo_eq_some.mp htarget
  rw [hsum] at he
  have hle := le_nextPowerOfTwo (r.heapEnd-r.base+n)
  have hhalf := nextPowerOfTwo_half_lt (n := r.heapEnd-r.base+n) (by omega)
  have hpow : ∃ k, target = 2^k := by
    rw [he]
    exact nextPowerOfTwo_eq_pow _
  obtain ⟨hfits,hfree⟩ := hvacant
  change r.base+target < wordRange at hfits
  have habove := hr.above
  have hend : wrap (r.heapEnd+n) = r.heapEnd+n := wrap_of_lt (by omega)
  rw [hend]
  refine ⟨?_,pairwise_cons.mpr ⟨?_,hothers⟩⟩
  · intro r' hr'
    rcases mem_cons.mp hr' with rfl | hr'
    · refine ⟨hpow,mem_cons_self,?_,?_,hfits⟩
      · change r.base+target/2 < r.heapEnd+n
        omega
      · change r.heapEnd+n ≤ r.base+target
        omega
    · have htrue := h.truthful r' (by simp [hs,hr'])
      exact (htrue.keep ((hfirst r' hr').symm.ne htrue.size_pos)).more _
  · intro r' hr'
    have htrue := h.truthful r' (by simp [hs,hr'])
    apply hfree r'.block htrue.mapped
    intro heq
    exact (hfirst r' hr').symm.ne htrue.size_pos (some.inj heq)

theorem Inv.acquire (h : s.Inv) {size align : Nat} {ans : Answers}
    (hpossible : s.Possible talc (.acquire size align established ans)) :
    (s.acquire talc size align established ans).2.Inv := by
  unfold Heap.acquire
  cases hneeded : needed talc size align established with
  | none => exact h
  | some n =>
    obtain ⟨hmmap,hmremap⟩ := hpossible n hneeded
    have hpow := needed_power hneeded
    have hnew := h.newRegion hpow hmmap
    cases hs : s.regions with
    | nil => exact hnew
    | cons r rest =>
      dsimp only
      cases htarget : growTarget r n with
      | none => exact h
      | some target =>
        dsimp only
        split
        next hgrow =>
          have hn : 0 < n := Nat.lt_of_lt_of_le (by decide) (blockSize_le_needed hneeded)
          exact h.grow hs hn htarget (hmremap r (by simp [hs]) target htarget hgrow.2)
        next => exact hnew

end

section

theorem findRegion_eq_some {chunkEnd : Nat} {l before after : List Region}
    (h : findRegion chunkEnd l = some (before, r, after)) :
    l = before++r::after ∧ r.heapEnd = chunkEnd := by
  induction l generalizing before with
  | nil => cases h
  | cons r' rs ih =>
    rw [findRegion] at h
    split at h
    next he =>
      cases h
      exact ⟨rfl,he⟩
    next =>
      obtain ⟨f,hf,heq⟩ := map_eq_some_iff.mp h
      obtain ⟨rfl,hrest⟩ := Prod.mk.inj heq
      obtain ⟨rfl,rfl⟩ := Prod.mk.inj hrest
      obtain ⟨hl,hend⟩ := ih hf
      exact ⟨by rw [hl,cons_append],hend⟩

theorem findRegion_isSome {chunkEnd : Nat} {l : List Region} (hr : r ∈ l) (hend : r.heapEnd = chunkEnd) :
    ∃ f, findRegion chunkEnd l = some f := by
  induction l with
  | nil => cases hr
  | cons r' rs ih =>
    rw [findRegion]
    split
    next => exact ⟨_,rfl⟩
    next hne =>
      rcases mem_cons.mp hr with rfl | hr
      · exact absurd hend hne
      · obtain ⟨f,hf⟩ := ih hr
        exact ⟨(r' :: f.1, f.2),by rw [hf]; rfl⟩

theorem Inv.eq_of_heapEnd (h : s.Inv) {r' : Region} (hr : r ∈ s.regions) (hr' : r' ∈ s.regions)
    (hend : r.heapEnd = r'.heapEnd) : r = r' := by
  by_contra hne
  have hsymm : Std.Symm fun r r' : Region => r.block.Apart r'.block := ⟨fun _ _ hap => hap.symm⟩
  have hapart := h.apart.forall hr hr' hne
  have h1 := h.truthful r hr
  have h2 := h.truthful r' hr'
  have ha := h1.above
  have hb := h1.below
  have ha' := h2.above
  have hb' := h2.below
  simp only [Block.Apart,Block.stop,Region.block] at hapart
  omega

variable {before after : List Region} {chunkBase chunkEnd : Nat}

theorem pairwise_split : (before++r::after).Pairwise (fun r r' => r.block.Apart r'.block) ↔
      (∀ r' ∈ before++after, r.block.Apart r'.block) ∧
        (before++after).Pairwise fun r r' => r.block.Apart r'.block := by
  rw [pairwise_middle (fun hap => hap.symm),pairwise_cons]

theorem mem_split {r' : Region} : r' ∈ before++r::after ↔ r' = r ∨ r' ∈ before++after := by
  simp only [mem_append,mem_cons]
  tauto

theorem Inv.unlink (h : s.Inv) (hs : s.regions = before++r::after) (ok : Bool) :
    ({ s with regions := before++after }.munmap r.block ok).Inv := by
  have hpairs := h.apart
  rw [hs,pairwise_split] at hpairs
  have htrue : ∀ r' ∈ before++after, Truthful s.maps r' := fun r' hr' =>
    h.truthful r' (by rw [hs]; exact mem_split.mpr (.inr hr'))
  cases ok with
  | false => exact ⟨htrue,hpairs.2⟩
  | true =>
    refine ⟨fun r' hr' => (htrue r' hr').keep ?_,hpairs.2⟩
    exact (hpairs.1 r' hr').symm.ne (htrue r' hr').size_pos

/-- The shrunken size covers what is in use and is at most half of the old one. -/
theorem Truthful.shrink (h : Truthful maps r) {newMap : Nat} (hend : chunkBase ≤ r.heapEnd)
    (htarget : shrinkTarget r chunkBase = some newMap) (hlt : newMap < r.mapSize) :
    chunkBase ≤ r.base+newMap ∧ newMap ≤ r.mapSize/2 ∧ 0 < newMap ∧ ∃ k, newMap = 2^k := by
  obtain ⟨he,_⟩ := checkedNextPowerOfTwo_eq_some.mp htarget
  obtain ⟨k,hk⟩ := nextPowerOfTwo_eq_pow (align (chunkBase-r.base) pageSize)
  rw [← he] at hk
  obtain ⟨m,hm⟩ := h.power
  have hfits := h.fits
  have hbelow := h.below
  have hroom : chunkBase-r.base+2^12-1 < wordRange := by
    have hm64 : m < 64 := by
      have hpow : 2^m < 2^64 := by
        rw [← hm]
        exact Nat.lt_of_le_of_lt (Nat.le_add_left _ _) hfits
      exact (Nat.pow_lt_pow_iff_right (by decide)).mp hpow
    have hpow : 2^m ≤ 2^63 := Nat.pow_le_pow_right (by decide) (by omega)
    have hrange : wordRange = 2*2^63 := by decide
    omega
  have halign := le_align (by decide : 12 ≤ 64) hroom
  rw [show 2^12 = pageSize from rfl] at halign
  have hle := le_nextPowerOfTwo (align (chunkBase-r.base) pageSize)
  refine ⟨?_,?_,?_,k,hk⟩
  · omega
  · rw [hk,hm] at hlt ⊢
    exact pow_le_half hlt
  · rw [hk]
    exact Nat.two_pow_pos k

def EndMapped (s : Heap) (e : Nat) : Prop := ∃ b ∈ s.maps, b.start < e ∧ e ≤ b.stop

theorem Truthful.endMapped (h : Truthful s.maps r) : s.EndMapped r.heapEnd := by
  have habove := h.above
  refine ⟨r.block,h.mapped,?_,h.below⟩
  change r.base < r.heapEnd
  omega

theorem Inv.shrink (h : s.Inv) (hs : s.regions = before++r::after) {newMap : Nat}
    (hhalf : newMap ≤ r.mapSize/2) (hpos : 0 < newMap) (hpow : ∃ k, newMap = 2^k) :
    ({ s.mremap r.block newMap with
      regions := before ++ ⟨r.base,newMap,r.base+newMap⟩ :: after } : Heap).Inv := by
  have hpairs := h.apart
  rw [hs,pairwise_split] at hpairs
  have hr := h.truthful r (by rw [hs]; exact mem_split.mpr (.inl rfl))
  have hfits := hr.fits
  refine ⟨?_,?_⟩
  · intro r' hr'
    rcases mem_split.mp hr' with rfl | hr'
    · refine ⟨hpow,mem_cons_self,?_,Nat.le_refl _,?_⟩
      · change r.base+newMap/2 < r.base+newMap
        omega
      · change r.base+newMap < wordRange
        omega
    · have htrue := h.truthful r' (by rw [hs]; exact mem_split.mpr (.inr hr'))
      exact (htrue.keep ((hpairs.1 r' hr').symm.ne htrue.size_pos)).more _
  · refine pairwise_split.mpr ⟨fun r' hr' => ?_,hpairs.2⟩
    have hinside : r.base+newMap ≤ r.base+r.mapSize := by omega
    exact (hpairs.1 r' hr').mono (show r.base ≤ r.base from Nat.le_refl _) hinside

theorem Inv.resize (h : s.Inv) {isHeapBase ok : Bool}
    (hpossible : s.Possible talc (.resize chunkBase chunkEnd isHeapBase ok)) :
    (s.resize chunkBase chunkEnd isHeapBase ok).2.Inv ∧
      chunkBase ≤ (s.resize chunkBase chunkEnd isHeapBase ok).1 ∧
      (s.resize chunkBase chunkEnd isHeapBase ok).1 ≤ chunkEnd ∧
      (isHeapBase = false ∨ ok = false →
        (s.resize chunkBase chunkEnd isHeapBase ok).2.EndMapped
          (s.resize chunkBase chunkEnd isHeapBase ok).1) := by
  obtain ⟨r,hr,hend,hbase,hle⟩ := hpossible
  obtain ⟨⟨before,r',after⟩,hfind⟩ := findRegion_isSome hr hend
  obtain ⟨hs,hend'⟩ := findRegion_eq_some hfind
  have hr' : r' ∈ s.regions := by
    rw [hs]
    exact mem_split.mpr (.inl rfl)
  obtain rfl := h.eq_of_heapEnd hr hr' (hend.trans hend'.symm)
  have htrue := h.truthful r hr
  -- where nothing changes the old end stays
  have hkept : s.Inv ∧ chunkBase ≤ chunkEnd ∧ chunkEnd ≤ chunkEnd ∧
      (isHeapBase = false ∨ ok = false → s.EndMapped chunkEnd) :=
    ⟨h,hle,Nat.le_refl _,fun _ => hend ▸ htrue.endMapped⟩
  unfold Heap.resize
  rw [hfind]
  dsimp only
  split
  next hwhole =>
    refine ⟨h.unlink hs ok,Nat.le_refl _,hle,fun hkeep => ?_⟩
    -- a failed `munmap` leaves the mapping, in which the chunk lies
    obtain rfl : ok = false := hkeep.resolve_left (by simp [hwhole])
    have hbelow := htrue.below
    have hheader : 0 < headerSize := by decide
    exact ⟨r.block,htrue.mapped,show r.base < chunkBase by omega,
      show chunkBase ≤ r.base+r.mapSize by omega⟩
  next =>
    split
    next => exact hkept
    next =>
      cases htarget : shrinkTarget r chunkBase with
      | none => exact hkept
      | some newMap =>
        dsimp only
        split
        next => exact hkept
        next hlt =>
          split
          next =>
            obtain ⟨hcover,hhalf,hpos,hpow⟩ :=
              htrue.shrink (hend ▸ hle) htarget (Nat.lt_of_not_le hlt)
            have hfits := htrue.fits
            have habove := htrue.above
            have hwrap : wrap (r.base+newMap) = r.base+newMap := wrap_of_lt (by omega)
            rw [hwrap]
            refine ⟨h.shrink hs hhalf hpos hpow,hcover,by omega,fun _ => ?_⟩
            refine ⟨⟨r.base,newMap⟩,mem_cons_self,?_,Nat.le_refl _⟩
            change r.base < r.base+newMap
            omega
          next => exact hkept

end

theorem Inv.step {c : Call} {s' : Heap} (h : s.Inv) (hpossible : s.Possible talc c)
    (hstep : s.step talc c = some s') : s'.Inv := by
  cases c with
  | acquire size align established ans => exact some.inj hstep ▸ h.acquire hpossible
  | resize chunkBase chunkEnd isHeapBase ok => exact some.inj hstep ▸ (h.resize hpossible).1

def start (maps : List Block) : Heap := ⟨[],maps⟩

theorem inv_start (maps : List Block) : (start maps).Inv := ⟨fun _ hr => (nomatch hr),List.Pairwise.nil⟩

/-- In every run the regions tell the truth about their mappings and lie apart; `resize` returns an end
between the chunk and the old end, in mapped memory unless the whole region was given back. -/
theorem heap_regions_truthful {maps : List Block} {calls : List Call}
    (hpossible : EachStep (Heap.step talc) (Heap.Possible talc) calls (start maps))
    (hrun : run (Heap.step talc) calls (start maps) = some s) :
    (∀ r ∈ s.regions, (∃ k, r.mapSize = 2 ^ k) ∧ r.block ∈ s.maps ∧
      r.base + r.mapSize / 2 < r.heapEnd ∧ r.heapEnd ≤ r.base + r.mapSize) ∧
    s.regions.Pairwise (fun r r' => r.block.Apart r'.block) ∧
    ∀ chunkBase chunkEnd isHeapBase ok,
      s.Possible talc (.resize chunkBase chunkEnd isHeapBase ok) →
      chunkBase ≤ (s.resize chunkBase chunkEnd isHeapBase ok).1 ∧
      (s.resize chunkBase chunkEnd isHeapBase ok).1 ≤ chunkEnd ∧
      (isHeapBase = false ∨ ok = false →
        (s.resize chunkBase chunkEnd isHeapBase ok).2.EndMapped
          (s.resize chunkBase chunkEnd isHeapBase ok).1) := by
  have h : s.Inv := run_invariant_of (fun _ _ _ h => h.step) (inv_start maps) hpossible hrun
  refine ⟨?_,h.apart,fun _ _ _ _ hresize => (h.resize hresize).2⟩
  intro r hr
  have htrue := h.truthful r hr
  exact ⟨htrue.power,htrue.mapped,htrue.above,htrue.below⟩

def smallTalc : Talc := ⟨32,1024⟩

/-- A first region, and a second one because the first cannot grow. -/
def twoRegions : List Call :=
  [.acquire 100 16 false ⟨false,some 0x10000000,true,false⟩,
    .acquire 100 16 true ⟨false,some 0x20000000,true,false⟩]

theorem twoRegions_possible :
    EachStep (Heap.step smallTalc) (Heap.Possible smallTalc) twoRegions (start []) := by
  have hneeded : ∀ b, needed smallTalc 100 16 b = some 0x100000 := by decide
  refine ⟨?_,fun s hs => ⟨?_,fun _ _ => trivial⟩⟩
  · intro n hn
    obtain rfl := some.inj ((hneeded false).symm.trans hn)
    refine ⟨fun base hbase => ?_,fun r hr => (nomatch hr)⟩
    obtain rfl := some.inj hbase
    exact ⟨by decide,fun c hc => (nomatch hc)⟩
  · have hfirst : s = ⟨[⟨0x10000000,0x100000,0x10100000⟩],[⟨0x10000000,0x100000⟩]⟩ := by
      have hvalue : Heap.step smallTalc (start []) (.acquire 100 16 false ⟨false,some 0x10000000,true,false⟩) =
          some ⟨[⟨0x10000000,0x100000,0x10100000⟩],[⟨0x10000000,0x100000⟩]⟩ := by decide
      exact some.inj (Eq.trans (mem_def.mp hs).symm hvalue)
    intro n hn
    obtain rfl := some.inj ((hneeded true).symm.trans hn)
    subst hfirst
    refine ⟨fun base hbase => ?_,fun r _ target _ hok => (nomatch hok)⟩
    obtain rfl := some.inj hbase
    decide

def twoRegionsHeap : Heap :=
  ⟨[⟨0x20000000,0x100000,0x20100000⟩,⟨0x10000000,0x100000,0x10100000⟩],
    [⟨0x20000000,0x100000⟩,⟨0x10000000,0x100000⟩]⟩

theorem run_twoRegions : run (Heap.step smallTalc) twoRegions (start []) = some twoRegionsHeap := by
  decide

/-- A free tail of the second region is given back. -/
theorem heap_regions_truthful_tail :
    twoRegionsHeap.resize 0x20001000 0x20100000 false true =
      (0x20001000, ⟨[⟨0x20000000,0x1000,0x20001000⟩,⟨0x10000000,0x100000,0x10100000⟩],
        [⟨0x20000000,0x1000⟩,⟨0x10000000,0x100000⟩]⟩) ∧
    (twoRegionsHeap.resize 0x20001000 0x20100000 false true).2.EndMapped
      (twoRegionsHeap.resize 0x20001000 0x20100000 false true).1 := by
  have h := (heap_regions_truthful twoRegions_possible run_twoRegions).2.2 0x20001000 0x20100000 false true
    ⟨⟨0x20000000,0x100000,0x20100000⟩,by decide,by decide,by decide,by decide⟩
  exact ⟨by decide,h.2.2 (.inl rfl)⟩

/-- The second region is free as a whole: the end returned is no longer mapped. -/
theorem whole_region_unmapped : ∃ s calls, run (Heap.step smallTalc) calls (start []) = some s ∧
    EachStep (Heap.step smallTalc) (Heap.Possible smallTalc) calls (start []) ∧
    s.Possible smallTalc (.resize 0x20000020 0x20100000 true true) ∧
    (s.resize 0x20000020 0x20100000 true true).1 = 0x20000020 ∧
    ¬ (s.resize 0x20000020 0x20100000 true true).2.EndMapped 0x20000020 := by
  refine ⟨twoRegionsHeap,twoRegions,run_twoRegions,twoRegions_possible,?_,by decide,?_⟩
  · exact ⟨⟨0x20000000,0x100000,0x20100000⟩,by decide,by decide,by decide,by decide⟩
  · unfold EndMapped
    decide

end Heap

end UserHeap

end Athera
