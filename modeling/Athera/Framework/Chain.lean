import Athera.Framework.Memory
import Athera.Framework.Word
import Mathlib.Data.Finset.Card

/-!
# Singly linked chains in memory

A chain is a list whose nodes are addresses and whose links are words stored at a fixed offset in
each node, with zero for the end.
-/

namespace Framework

open List Memory

/-- Reading through a pointer; null faults. -/
def loadWord (m : Memory) (p : Nat) : Option Nat := if p = 0 then none else some (m.readWord p)

/-- Writing through a pointer; null faults. -/
def storeWord (m : Memory) (p w : Nat) : Option Memory :=
  if p = 0 then none else some (m.writeWord p w)

def NodesApart (x y : Nat) : Prop :=
  (Block.mk x wordSize).Apart (Block.mk y wordSize)

variable {x : Nat}

theorem NodesApart.ne {y : Nat} (h : NodesApart x y) : x ≠ y := by
  rintro rfl
  exact Block.not_apart_self (by simp [wordSize]) h

theorem NodesApart.shift {y : Nat} (h : NodesApart x y) (o : Nat) : NodesApart (x+o) (y+o) := by
  simp only [NodesApart,Block.Apart,Block.stop] at h ⊢
  omega

theorem nodup_of_nodesApart {xs : List Nat} (h : xs.Pairwise NodesApart) : xs.Nodup :=
  h.imp NodesApart.ne

/-- Following links at offset `o` from `head` visits exactly `nodes` and then ends. -/
def Chain (o : Nat) (m : Memory) : Nat → List Nat → Prop
  | head, [] => head = 0
  | head, x :: xs => head = x ∧ x ≠ 0 ∧ x < wordRange ∧ Chain o m (m.readWord (x + o)) xs

/-- The nodes from `current` on, at most `fuel` of them. -/
def iterFrom (o : Nat) (m : Memory) : Nat → Nat → List Nat
  | 0, _ => []
  | fuel + 1, current =>
    if current = 0 then [] else current :: iterFrom o m fuel (m.readWord (current + o))

/-- Take the node `item` out of the list after `current`. -/
def removeAfter (o : Nat) (m : Memory) (item : Nat) : Nat → Nat → Option (Bool × Memory)
  | 0, _ => none
  | fuel + 1, current =>
    if current = 0 then some (false, m)
    else
      let next := m.readWord (current + o)
      if next = item then
        if next = 0 then none
        else some (true, m.writeWord (current + o) (m.readWord (next + o)))
      else removeAfter o m item fuel next

namespace Chain

variable {o : Nat} {m m' : Memory} {head : Nat} {xs ys : List Nat}

@[simp] theorem nil_iff : Chain o m head [] ↔ head = 0 := Iff.rfl

variable {a : Nat}

section

variable (h : Chain o m head xs)
include h

theorem head_lt : head < wordRange := by
  cases xs with
  | nil => rw [nil_iff.mp h]; decide
  | cons x xs => rw [h.1]; exact h.2.2.1

theorem mem_ne_zero (hx : x ∈ xs) : x ≠ 0 := by
  induction xs generalizing head with
  | nil => simp at hx
  | cons y ys ih =>
    rcases mem_cons.mp hx with rfl | hx
    · exact h.2.1
    · exact ih h.2.2.2 hx

theorem mem_lt (hx : x ∈ xs) : x < wordRange := by
  induction xs generalizing head with
  | nil => simp at hx
  | cons y ys ih =>
    rcases mem_cons.mp hx with rfl | hx
    · exact h.2.2.1
    · exact ih h.2.2.2 hx

theorem congr (hw : ∀ x ∈ xs, m'.readWord (x+o) = m.readWord (x+o)) : Chain o m' head xs := by
  induction xs generalizing head with
  | nil => exact h
  | cons x xs ih =>
    refine ⟨h.1,h.2.1,h.2.2.1,?_⟩
    rw [hw x (by simp)]
    exact ih h.2.2.2 (fun y hy => hw y (by simp [hy]))

theorem write_apart (w : Nat)
    (ha : ∀ x ∈ xs, NodesApart a x) : Chain o (m.writeWord (a+o) w) head xs :=
  h.congr fun x hx => readWord_writeWord_of_apart m w ((ha x hx).shift o)

theorem push (h0 : a ≠ 0) (hlt : a < wordRange)
    (ha : ∀ x ∈ xs, NodesApart a x) : Chain o (m.writeWord (a+o) head) a (a::xs) := by
  refine ⟨rfl,h0,hlt,?_⟩
  have hread : (m.writeWord (a+o) head).readWord (a+o) = head := by
    rw [readWord_writeWord_self]
    exact Nat.mod_eq_of_lt h.head_lt
  rw [hread]
  exact h.write_apart head ha

end

theorem tail (h : Chain o m head (x::xs)) : Chain o m (m.readWord (x+o)) xs :=
  h.2.2.2

theorem head_eq (h : Chain o m head (x::xs)) : head = x := h.1

theorem unlink (h : Chain o m head (a::x::xs)) (ha : ∀ y ∈ xs, NodesApart a y) :
    Chain o (m.writeWord (a+o) (m.readWord (x+o))) head (a::xs) := by
  obtain ⟨hhead,h0,hlt,hrest⟩ := h
  refine ⟨hhead,h0,hlt,?_⟩
  have hread : (m.writeWord (a+o) (m.readWord (x+o))).readWord (a+o) = m.readWord (x+o) := by
    rw [readWord_writeWord_self]
    exact Nat.mod_eq_of_lt (readWord_lt m _)
  rw [hread]
  exact hrest.tail.write_apart _ ha

theorem length_lt (h : Chain o m head xs) (hn : xs.Nodup) : xs.length < wordRange := by
  have hsub : xs.toFinset ⊆ Finset.Ioo 0 wordRange := by
    intro x hx
    have hx' := mem_toFinset.mp hx
    exact Finset.mem_Ioo.mpr ⟨Nat.pos_of_ne_zero (h.mem_ne_zero hx'),h.mem_lt hx'⟩
  have hcard := Finset.card_le_card hsub
  rw [toFinset_card_of_nodup hn,Nat.card_Ioo] at hcard
  have hpos : 0 < wordRange := by decide
  omega

variable {fuel : Nat}

theorem iterFrom_eq (h : Chain o m head xs) (hf : xs.length ≤ fuel) :
    iterFrom o m fuel head = xs := by
  induction xs generalizing fuel head with
  | nil =>
    subst head
    cases fuel <;> simp [iterFrom]
  | cons x xs ih =>
    obtain ⟨rfl,h0,_,hrest⟩ := h
    cases fuel with
    | zero => simp at hf
    | succ fuel =>
      rw [iterFrom,if_neg h0,ih hrest (by simpa using hf)]

/-- The search loop finds the node after `current` and takes it out, or visits every node. -/
theorem removeAfter_eq {item : Nat} (h : Chain o m a (a::xs))
    (hap : (a::xs).Pairwise NodesApart) (h0 : item ≠ 0) (hne : item ≠ a)
    (hf : xs.length+1 < fuel) : ∃ m', removeAfter o m item fuel a = some (decide (item ∈ xs), m') ∧
      Chain o m' a (a::xs.erase item) ∧
      ∀ y, (∀ x ∈ a::xs, y ∉ Block.mk (x+o) wordSize) → m' y = m y := by
  induction xs generalizing fuel a with
  | nil =>
    obtain ⟨fuel,rfl⟩ : ∃ f, fuel = f+2 := ⟨fuel-2,by simp at hf; omega⟩
    have hend : m.readWord (a+o) = 0 := h.tail
    refine ⟨m,?_,by simpa using h,fun _ _ => rfl⟩
    rw [removeAfter,hend]
    simp [Ne.symm h0,removeAfter]
  | cons x xs ih =>
    obtain ⟨fuel,rfl⟩ : ∃ f, fuel = f+1 := ⟨fuel-1,by omega⟩
    have hnext : m.readWord (a+o) = x := h.tail.head_eq
    have hx0 : x ≠ 0 := h.tail.2.1
    have hax := pairwise_cons.mp hap
    by_cases hxi : x = item
    · subst hxi
      refine ⟨m.writeWord (a+o) (m.readWord (x+o)),?_,?_,?_⟩
      · rw [removeAfter,if_neg h.2.1,hnext]
        simp [hx0]
      · rw [erase_cons_head]
        exact h.unlink fun y hy => hax.1 y (by simp [hy])
      · intro y hy
        exact writeWord_outside m (a+o) _ (hy a (by simp))
    · have hrec := h.tail
      rw [hnext] at hrec
      obtain ⟨m',hrun,hchain,hout⟩ := ih hrec hax.2 (Ne.symm hxi) (by simp at hf; omega)
      refine ⟨m',?_,?_,?_⟩
      · rw [removeAfter,if_neg h.2.1,hnext]
        simp [hxi,hrun,Ne.symm hxi]
      · have hread : m'.readWord (a+o) = m.readWord (a+o) := by
          apply readWord_congr
          intro y hy
          apply hout
          intro z hz
          exact ((hax.1 z hz).shift o).not_mem hy
        refine ⟨rfl,h.2.1,h.2.2.1,?_⟩
        rw [hread,hnext]
        simpa [hxi] using hchain
      · intro y hy
        exact hout y fun z hz => hy z (by simp [hz])

theorem removeAfter_null (h : Chain o m a (a::xs)) : removeAfter o m 0 fuel a = none := by
  induction xs generalizing fuel a with
  | nil =>
    cases fuel with
    | zero => rfl
    | succ fuel =>
      have hend : m.readWord (a+o) = 0 := h.tail
      rw [removeAfter,if_neg h.2.1,hend]
      simp
  | cons x xs ih =>
    cases fuel with
    | zero => rfl
    | succ fuel =>
      have hnext : m.readWord (a+o) = x := h.tail.head_eq
      have hx0 : x ≠ 0 := h.tail.2.1
      have hrec := h.tail
      rw [hnext] at hrec
      rw [removeAfter,if_neg h.2.1,hnext]
      simp only [if_neg hx0]
      exact ih hrec

end Chain

end Framework
