import Athera.Framework.Chain

/-!
# Intrusive singly linked lists

`mm/allocator/intrusive_list.rs`. An operation that would read or write through the null pointer has
no result.
-/

namespace Athera

open Framework

structure IntrusiveList where
  next : Nat
deriving DecidableEq, Repr

namespace IntrusiveList

def new : IntrusiveList := ⟨0⟩

section

variable (l : IntrusiveList)

def isEmpty : Bool := l.next == 0

def push (m : Memory) (item : Nat) : Option (IntrusiveList × Memory) := do
  let m' ← storeWord m item l.next
  return (⟨item⟩, m')

def pop (m : Memory) : Option Nat × IntrusiveList :=
  if l.isEmpty then (none, l) else (some l.next, ⟨m.readWord l.next⟩)

/-- A list without a cycle has fewer nodes than there are addresses, so that many steps of
the search loop are enough. -/
def remove (m : Memory) (item : Nat) : Option (Bool × IntrusiveList × Memory) :=
  if l.next = item then do
    let v ← loadWord m l.next
    return (true, ⟨v⟩, m)
  else do
    let (found, m') ← removeAfter 0 m item wordRange l.next
    return (found, l, m')

def iter (m : Memory) : List Nat := iterFrom 0 m wordRange l.next

end

/-- The nodes of the list are `xs`, and their words do not overlap. -/
structure Holds (l : IntrusiveList) (m : Memory) (xs : List Nat) : Prop where
  chain : Chain 0 m l.next xs
  apart : xs.Pairwise NodesApart

variable {l : IntrusiveList} {m : Memory} {xs : List Nat} {item : Nat}

theorem Holds.iter_eq (h : Holds l m xs) : l.iter m = xs :=
  h.chain.iterFrom_eq (le_of_lt (h.chain.length_lt (nodup_of_nodesApart h.apart)))

theorem Holds.congr {m' : Memory} (h : Holds l m xs)
    (hw : ∀ x ∈ xs, m'.readWord x = m.readWord x) : Holds l m' xs :=
  ⟨h.chain.congr hw,h.apart⟩

theorem holds_new (m : Memory) : Holds new m [] := ⟨rfl,List.Pairwise.nil⟩

theorem Holds.isEmpty_iff (h : Holds l m xs) : l.isEmpty = true ↔ xs = [] := by
  have hc := h.chain
  cases xs with
  | nil => simpa [isEmpty] using hc
  | cons x xs =>
    have hx : l.next ≠ 0 := hc.head_eq ▸ hc.2.1
    simp [isEmpty,hx]

theorem push_holds (h : Holds l m xs) (hlt : item < wordRange)
    (ha : ∀ x ∈ xs, NodesApart item x) {l' : IntrusiveList} {m' : Memory}
    (hp : l.push m item = some (l', m')) :
    item ≠ 0 ∧ m' = m.writeWord item l.next ∧ Holds l' m' (item::xs) := by
  by_cases h0 : item = 0
  · simp [push,storeWord,h0] at hp
  · simp only [push,storeWord,if_neg h0] at hp
    obtain ⟨rfl,rfl⟩ := hp
    exact ⟨h0,rfl,h.chain.push h0 hlt ha,List.pairwise_cons.mpr ⟨ha,h.apart⟩⟩

theorem push_isSome (h0 : item ≠ 0) : ∃ r, l.push m item = some r :=
  ⟨(⟨item⟩, m.writeWord item l.next),by simp [push,storeWord,h0]⟩

theorem pop_cons {x : Nat} (h : Holds l m (x::xs)) :
    l.pop m = (some x, ⟨m.readWord x⟩) ∧ Holds ⟨m.readWord x⟩ m xs := by
  have hne : ¬ l.isEmpty = true := fun he => by simpa using h.isEmpty_iff.mp he
  rw [pop,if_neg hne,h.chain.head_eq]
  exact ⟨rfl,h.chain.tail,(List.pairwise_cons.mp h.apart).2⟩

/-- `remove` takes out a node that is there and reports whether it was. Only words of nodes
of this list can change. -/
theorem remove_holds (h : Holds l m xs) (h0 : item ≠ 0) :
    ∃ l' m', l.remove m item = some (decide (item ∈ xs), l', m') ∧ Holds l' m' (xs.erase item) ∧
      ∀ y, (∀ x ∈ xs, y ∉ Block.mk x Memory.wordSize) → m' y = m y := by
  have hlen := h.chain.length_lt (nodup_of_nodesApart h.apart)
  have hsub : (xs.erase item).Pairwise NodesApart := h.apart.sublist List.erase_sublist
  have hchain := h.chain
  cases xs with
  | nil =>
    have hnext : l.next = 0 := hchain
    have hw : wordRange = (wordRange-1)+1 := by decide
    refine ⟨l,m,?_,by simpa using h,fun _ _ => rfl⟩
    rw [remove,if_neg (by omega),hnext,hw,removeAfter]
    simp
  | cons a xs =>
    have hhead := hchain.head_eq
    by_cases hai : a = item
    · subst hai
      refine ⟨⟨m.readWord a⟩,m,?_,⟨?_,hsub⟩,fun _ _ => rfl⟩
      · rw [remove,hhead]
        simp [loadWord,h0]
      · rw [List.erase_cons_head]
        exact hchain.tail
    · rw [hhead] at hchain
      by_cases hfuel : xs.length+1 < wordRange
      · obtain ⟨m',hrun,hc,hout⟩ := hchain.removeAfter_eq h.apart h0 (Ne.symm hai) hfuel
        refine ⟨l,m',?_,⟨?_,hsub⟩,hout⟩
        · rw [remove,hhead,if_neg hai,hrun]
          simp [Ne.symm hai]
        · rw [List.erase_cons_tail (by simpa using hai),hhead]
          exact hc
      · simp at hlen
        omega

theorem remove_null (h : Holds l m xs) : l.remove m 0 = none := by
  have hchain := h.chain
  cases xs with
  | nil =>
    have hnext : l.next = 0 := hchain
    rw [remove]
    simp [loadWord,hnext]
  | cons a xs =>
    have hhead := hchain.head_eq
    rw [hhead] at hchain
    rw [remove,hhead,if_neg hchain.2.1,hchain.removeAfter_null]
    rfl

end IntrusiveList

end Athera
