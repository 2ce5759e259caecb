import Athera.Mm.BuddySafety

/-!
# Frames

The interface of the frame allocator, and the laws a correct allocator obeys.
-/

namespace Athera

open Framework

/-- A block of physical memory with the size the allocator really handed out. -/
abbrev Frame := Block

/-- `alloc_frame` and `dealloc_frame` of the frame allocator, which keeps its links in the
memory it manages. -/
class FrameAllocator (σ : Type) where
  allocFrame : σ → Memory → Nat → Option Nat × σ × Memory
  deallocFrame : σ → Memory → Nat → Nat → σ × Memory

def blockSize (size : Nat) : Nat := orderSize (sizeToOrder size)

/-- Physical addresses have 56 bits. -/
def physicalLimit : Nat := 2 ^ 56

structure FrameShape (f : Frame) : Prop where
  order : ∃ k < buddyMaxOrder, f.size = orderSize k
  aligned : f.size ∣ f.start
  nonnull : 0 < f.start
  bounded : f.start + f.size ≤ physicalLimit

def Covered (live : Set Frame) (a : Nat) : Prop := ∃ f ∈ live, a ∈ f

/-- An allocator that hands out fresh, disjoint blocks of power-of-two sizes and touches only
memory that nobody holds. `Owns` says which frames are outstanding. -/
class LawfulFrameAllocator (σ : Type) extends FrameAllocator σ where
  Owns : σ → Memory → Set Frame → Prop
  apart : ∀ {s m live}, Owns s m live → live.Pairwise Block.Apart
  shape : ∀ {s m live}, Owns s m live → ∀ f ∈ live, FrameShape f
  alloc_some : ∀ {s m live size p s' m'}, Owns s m live →
    allocFrame s m size = (some p, s', m') →
    ⟨p,blockSize size⟩ ∉ live ∧ Owns s' m' (insert ⟨p,blockSize size⟩ live) ∧
      Memory.AgreeOn (Covered live) m m'
  alloc_none : ∀ {s m live size s' m'}, Owns s m live →
    allocFrame s m size = (none, s', m') → Owns s' m' live ∧ Memory.AgreeOn (Covered live) m m'
  dealloc : ∀ {s m live s' m'} {f : Frame}, Owns s m live → f ∈ live →
    deallocFrame s m f.start f.size = (s', m') →
    Owns s' m' (live \ {f}) ∧ Memory.AgreeOn (Covered (live \ {f})) m m'
  store : ∀ {s m live m'}, Owns s m live → (∀ a, ¬ Covered live a → m' a = m a) → Owns s m' live

/-- The sizes of the segments `alloc_frames` collects for `remaining` bytes; each round takes at
least one byte, so `fuel` rounds are enough for that many bytes. -/
def segmentSizes : Nat → Nat → List Nat
  | 0, _ => []
  | fuel + 1, remaining =>
    if remaining = 0 then []
    else blockSize remaining :: segmentSizes fuel (remaining - blockSize remaining)

def backing (size : Nat) : Nat := (segmentSizes size size).sum

end Athera
