import Athera.Mm.BuddyFrames
import Athera.Mm.View

/-!
# Fresh tasks

A task without mappings, as `create_user_address_space` leaves it.
-/

namespace Athera

open Framework Action AddressSpace

variable {σ : Type} {root : PageTable} {alloc : σ} {mem : Memory}

def freshTask (root : PageTable) (alloc : σ) (mem : Memory) : TaskMemory σ :=
  ⟨true,[],some ⟨root,fun _ => none⟩,alloc,mem⟩

theorem freshTask_follow (e : PageTableEntry) : (mk root fun _ => none).follow e = none := by
  rw [follow]
  split <;> rfl

theorem freshTask_walk (va : Nat) : (freshTask root alloc mem).walk va = none := by
  change (mk root fun _ => none).walk va = none
  rw [walk,entryAt,lastTable,freshTask_follow]

variable [LawfulFrameAllocator σ]

theorem freshTask_wellFormed {live : Set Frame} (h : LawfulFrameAllocator.Owns alloc mem live)
    (hroot : ∀ i, (root i).v = true → ⟨(root i).addr,pageSize⟩ ∈ live) :
    WellFormed (freshTask root alloc mem) [] := by
  refine ⟨⟨⟨List.nodup_nil,⟨live,h,by simp [TaskMemory.frames,framesOf,freshTask],?_⟩,?_⟩,?_⟩,?_,?_⟩
  · rintro _ ⟨rfl⟩ a (ht | ⟨i,hv,rfl⟩)
    · simp at ht
    · exact ⟨hroot i hv,List.not_mem_nil⟩
  · rintro _ ⟨rfl⟩
    refine ⟨fun _ => .level1 0,?_,?_⟩ <;>
    · intro i a t hf
      rw [freshTask_follow] at hf
      exact absurd hf (by simp)
  · exact fun m hm => absurd hm List.not_mem_nil
  · refine ⟨?_,?_,?_,List.Pairwise.nil⟩ <;> exact fun m hm => absurd hm List.not_mem_nil
  · intro va _
    rw [freshTask_walk]
    rfl

/-- A fresh task on a machine that has given one range of memory to the buddy allocator. -/
def bootTask (start stop : Nat) : Option (TaskMemory BuddyLists) :=
  ((Buddy.new fun _ => 0).add start stop).map fun b => freshTask .empty b.freeList b.mem

theorem bootTask_wellFormed {start stop : Nat} {s : TaskMemory BuddyLists}
    (hstart : 2*topSize ≤ start) (hlt : start < wordRange) (hstop : stop ≤ physicalLimit)
    (h : bootTask start stop = some s) : WellFormed s [] := by
  obtain ⟨b,hb,rfl⟩ := Option.map_eq_some_iff.mp h
  exact freshTask_wellFormed (buddyOwns_add hstart hlt hstop hb) fun i hv => by
    simp [PageTable.empty,PageTableEntry.new] at hv

theorem bootTask_isSome : (bootTask 0x80800000 0x80810000).isSome = true := by decide

/-- A task on a small machine. -/
def smallTask : TaskMemory BuddyLists := (bootTask 0x80800000 0x80810000).get bootTask_isSome

theorem smallTask_wellFormed : WellFormed smallTask [] :=
  bootTask_wellFormed (by decide) (by decide) (by decide) (Option.some_get _).symm

end Athera
