import Mathlib.Data.List.Pairwise

/-!
# Maps with ordered keys

A finite map from numbers, kept as the list of its entries in ascending order of the keys.
-/

namespace Framework

open List

structure SortedMap (α : Type*) where
  entries : List (Nat × α)
  sorted : entries.Pairwise fun a b => a.1 < b.1

namespace SortedMap

variable {α : Type*} {m : SortedMap α} {k k' : Nat} {v : α}

def empty : SortedMap α := ⟨[],List.Pairwise.nil⟩

def get? (m : SortedMap α) (k : Nat) : Option α := (m.entries.find? fun e => e.1 == k).map Prod.snd

def insertEntry (k : Nat) (v : α) : List (Nat × α) → List (Nat × α)
  | [] => [(k, v)]
  | e :: es =>
    if k < e.1 then (k, v) :: e :: es
    else if k = e.1 then (k, v) :: es
    else e :: insertEntry k v es

variable {es : List (Nat × α)}

theorem mem_insertEntry {e : Nat × α} (h : e ∈ insertEntry k v es) : e = (k, v) ∨ e ∈ es := by
  induction es with
  | nil => simpa [insertEntry] using h
  | cons e' es ih =>
    rw [insertEntry] at h
    split at h
    · simpa using h
    · split at h
      · rcases mem_cons.mp h with h | h
        · exact Or.inl h
        · exact Or.inr (mem_cons_of_mem _ h)
      · rcases mem_cons.mp h with h | h
        · exact Or.inr (h ▸ mem_cons_self)
        · exact (ih h).imp_right (mem_cons_of_mem _)

theorem insertEntry_sorted (h : es.Pairwise fun a b => a.1 < b.1) :
    (insertEntry k v es).Pairwise fun a b => a.1 < b.1 := by
  induction es with
  | nil => simp [insertEntry]
  | cons e es ih =>
    obtain ⟨hhead,htail⟩ := pairwise_cons.mp h
    rw [insertEntry]
    split
    next hlt =>
      refine pairwise_cons.mpr ⟨?_,h⟩
      intro e' he'
      rcases mem_cons.mp he' with rfl | he'
      · exact hlt
      · exact Nat.lt_trans hlt (hhead e' he')
    next hge =>
      split
      next heq => exact pairwise_cons.mpr ⟨fun e' he' => heq ▸ hhead e' he',htail⟩
      next hne =>
        refine pairwise_cons.mpr ⟨?_,ih htail⟩
        intro e' he'
        rcases mem_insertEntry he' with rfl | he'
        · omega
        · exact hhead e' he'

def insert (m : SortedMap α) (k : Nat) (v : α) : SortedMap α :=
  ⟨insertEntry k v m.entries,insertEntry_sorted m.sorted⟩

def erase (m : SortedMap α) (k : Nat) : SortedMap α :=
  ⟨m.entries.filter fun e => e.1 != k,m.sorted.filter _⟩

def modify (m : SortedMap α) (k : Nat) (f : α → α) : SortedMap α :=
  ⟨m.entries.map fun e => if e.1 = k then (e.1, f e.2) else e, by
    rw [pairwise_map]
    refine m.sorted.imp ?_
    intro a b h
    split <;> split <;> exact h⟩

/-- The first key after a bound, or the first of all, whose value satisfies a condition. -/
def nextKey (m : SortedMap α) (bound : Option Nat) (p : α → Bool) : Option Nat :=
  ((m.entries.filter fun e => decide (∀ b ∈ bound, b < e.1)).find? fun e => p e.2).map Prod.fst

@[simp] theorem get?_empty : (empty : SortedMap α).get? k = none := rfl

private theorem find_insertEntry : ((insertEntry k v es).find? fun e => e.1 == k').map Prod.snd =
      if k' = k then some v else (es.find? fun e => e.1 == k').map Prod.snd := by
  induction es with
  | nil =>
    by_cases h : k' = k
    · simp [insertEntry,h]
    · simp [insertEntry,h,Ne.symm h]
  | cons e es ih =>
    rw [insertEntry]
    split
    · by_cases h : k' = k
      · simp [h]
      · simp [h,Ne.symm h]
    · split
      next heq =>
        by_cases h : k' = k
        · simp [h]
        · simp [h,Ne.symm h,← heq]
      next hne =>
        by_cases h : e.1 = k'
        · have hk : k' ≠ k := fun hk => hne (hk ▸ h.symm)
          simp [h,hk]
        · simp only [find?_cons,beq_eq_false_iff_ne.mpr h]
          exact ih

theorem get?_insert : (m.insert k v).get? k' = if k' = k then some v else m.get? k' :=
  find_insertEntry

theorem get?_erase : (m.erase k).get? k' = if k' = k then none else m.get? k' := by
  rw [get?,erase,find?_filter]
  by_cases h : k' = k
  · subst h
    rw [if_pos rfl,Option.map_eq_none_iff,find?_eq_none]
    intro e _ he
    simp at he
  · rw [if_neg h]
    congr 2
    funext e
    by_cases he : e.1 = k'
    · simp [he,h]
    · simp [he]

theorem get?_modify {f : α → α} :
    (m.modify k f).get? k' = if k' = k then (m.get? k').map f else m.get? k' := by
  rw [get?,get?,modify,find?_map]
  have hkey : ((fun e : Nat × α => e.1 == k') ∘ fun e => if e.1 = k then (e.1, f e.2) else e) =
      fun e => e.1 == k' := by
    funext e
    simp only [Function.comp]
    split <;> rfl
  rw [hkey]
  cases hfind : m.entries.find? fun e => e.1 == k' with
  | none => simp
  | some e =>
    have he : e.1 = k' := by simpa using find?_some hfind
    by_cases h : k' = k
    · simp [he,h]
    · simp [he,h]

theorem mem_of_get? (h : m.get? k = some v) : (k, v) ∈ m.entries := by
  rw [get?,Option.map_eq_some_iff] at h
  obtain ⟨e,he,rfl⟩ := h
  have hkey : e.1 = k := by simpa using find?_some he
  exact hkey ▸ mem_of_find?_eq_some he

theorem get?_of_mem (h : (k, v) ∈ m.entries) : m.get? k = some v := by
  obtain ⟨es,hs⟩ := m
  rw [get?]
  induction es with
  | nil => simp at h
  | cons e es ih =>
    obtain ⟨hhead,htail⟩ := pairwise_cons.mp hs
    rcases mem_cons.mp h with rfl | h
    · simp
    · have hne : (e.1 == k) = false := by
        have hlt : e.1 < k := hhead (k, v) h
        simp only [beq_eq_false_iff_ne]
        omega
      rw [find?_cons,hne]
      exact ih htail h

theorem nextKey_eq_some {bound : Option Nat} {p : α → Bool} (h : m.nextKey bound p = some k) :
    ∃ v, m.get? k = some v ∧ p v = true := by
  obtain ⟨⟨k',v⟩,hfind,rfl⟩ := Option.map_eq_some_iff.mp h
  have hmem := (mem_filter.mp (mem_of_find?_eq_some hfind)).1
  have hp := find?_some hfind
  exact ⟨v,get?_of_mem hmem,hp⟩

end SortedMap

end Framework
