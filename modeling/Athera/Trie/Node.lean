import Athera.Framework.Assoc
import Mathlib.Logic.Function.Basic

/-!
# Nodes of a trie

The nodes of `athera-trie`. In a canonical node no branch below it is empty, so that what it holds
determines it.
-/

namespace Athera

open Framework List Option Assoc

/-- `Node<K, V>`: the children in the order of their key elements, and a value. -/
inductive TrieNode (K V : Type) where
  | mk (children : List (K × TrieNode K V)) (value : Option V)

namespace TrieNode

variable {K V : Type}

def children : TrieNode K V → List (K × TrieNode K V)
  | mk children _ => children

def value : TrieNode K V → Option V
  | mk _ value => value

def empty : TrieNode K V := mk [] none

def isPrunable (n : TrieNode K V) : Bool := n.value.isNone && n.children.isEmpty

mutual

def hasEntry : TrieNode K V → Bool
  | mk children value => value.isSome || anyHasEntry children

def anyHasEntry : List (K × TrieNode K V) → Bool
  | [] => false
  | (_, c) :: cs => c.hasEntry || anyHasEntry cs

end

theorem anyHasEntry_eq (cs : List (K × TrieNode K V)) :
    anyHasEntry cs = cs.any fun c => c.2.hasEntry := by
  induction cs with
  | nil => rfl
  | cons c cs ih => rw [anyHasEntry,ih,any_cons]

variable [LinearOrder K]

def nodeOf : TrieNode K V → List K → Option (TrieNode K V)
  | n, [] => some n
  | n, k :: ks => (Assoc.find k n.children).bind fun c => c.nodeOf ks

/-- The descent of `insert`: the new node and the value that was there. -/
def insert : TrieNode K V → List K → V → TrieNode K V × Option V
  | n, [], v => (mk n.children (some v), n.value)
  | n, k :: ks, v =>
    let r := ((Assoc.find k n.children).getD empty).insert ks v
    (mk (Assoc.put k r.1 n.children) n.value, r.2)

/-- `remove_at`: the value that was there and the node without it, or `none` for no change. -/
def removeAt : TrieNode K V → List K → Option (V × TrieNode K V)
  | n, [] => n.value.map fun old => (old, mk n.children none)
  | n, k :: ks =>
    (Assoc.find k n.children).bind fun c => (c.removeAt ks).map fun r =>
      (r.1, mk (if r.2.isPrunable then Assoc.erase k n.children else Assoc.put k r.2 n.children)
        n.value)

/-- What a write through `get_mut` does to the node. -/
def modify (f : V → V) : TrieNode K V → List K → TrieNode K V
  | n, [] => mk n.children (n.value.map f)
  | n, k :: ks =>
    match Assoc.find k n.children with
    | none => n
    | some c => mk (Assoc.put k (c.modify f ks) n.children) n.value

/-- The value at the end of a key. -/
def content (n : TrieNode K V) (key : List K) : Option V := (n.nodeOf key).bind value

/-- The children are in order and none of the nodes below is prunable. -/
inductive Canonical : TrieNode K V → Prop where
  | mk {children : List (K × TrieNode K V)} {value : Option V} (sorted : Assoc.Sorted children)
      (kept : ∀ c ∈ children, c.2.isPrunable = false) (inner : ∀ c ∈ children, Canonical c.2) :
      Canonical (TrieNode.mk children value)

variable {n n' : TrieNode K V} {key key' : List K}

theorem content_nil (n : TrieNode K V) : n.content [] = n.value := rfl

theorem content_cons (n : TrieNode K V) (k : K) (ks : List K) :
    n.content (k::ks) = (Assoc.find k n.children).bind fun c => c.content ks := by
  rw [content,nodeOf,bind_assoc]
  rfl

theorem content_mk_cons (children : List (K × TrieNode K V)) (value : Option V) (k : K) (ks : List K) :
    (TrieNode.mk children value).content (k::ks) =
      (Assoc.find k children).bind fun c => c.content ks := content_cons _ k ks

theorem content_empty (key : List K) : (empty : TrieNode K V).content key = none := by
  cases key <;> rfl

theorem content_of_isPrunable (h : n.isPrunable = true) (key : List K) : n.content key = none := by
  cases n with
  | mk children value =>
    rw [isPrunable,Bool.and_eq_true] at h
    have hvalue : value = none := isNone_iff_eq_none.mp h.1
    have hchildren : children = [] := List.isEmpty_iff.mp h.2
    subst hvalue hchildren
    exact content_empty key

theorem Canonical.sorted (h : n.Canonical) : Assoc.Sorted n.children := by
  cases h with
  | mk sorted kept inner => exact sorted

theorem Canonical.kept (h : n.Canonical) : ∀ c ∈ n.children, c.2.isPrunable = false := by
  cases h with
  | mk sorted kept inner => exact kept

theorem Canonical.inner (h : n.Canonical) : ∀ c ∈ n.children, c.2.Canonical := by
  cases h with
  | mk sorted kept inner => exact inner

theorem canonical_empty : (empty : TrieNode K V).Canonical :=
  .mk List.Pairwise.nil (fun _ hc => absurd hc not_mem_nil) fun _ hc => absurd hc not_mem_nil

section

variable (h : n.Canonical)
include h

theorem Canonical.child {k : K} {c : TrieNode K V}
    (hc : Assoc.find k n.children = some c) : c.Canonical ∧ c.isPrunable = false :=
  ⟨h.inner _ (mem_of_find hc),h.kept _ (mem_of_find hc)⟩

/-- A new child that carries something, or the same children. -/
theorem Canonical.put {k : K} {c : TrieNode K V} (hc : c.Canonical)
    (hkept : c.isPrunable = false) (value : Option V) :
    (TrieNode.mk (Assoc.put k c n.children) value).Canonical := by
  refine .mk (h.sorted.put k c) (fun e he => ?_) fun e he => ?_
  · rcases mem_put he with rfl | he
    · exact hkept
    · exact h.kept e he
  · rcases mem_put he with rfl | he
    · exact hc
    · exact h.inner e he

theorem Canonical.erase (k : K) (value : Option V) :
    (TrieNode.mk (Assoc.erase k n.children) value).Canonical :=
  .mk (h.sorted.erase k) (fun e he => h.kept e ((mem_filter.mp he).1))
    fun e he => h.inner e ((mem_filter.mp he).1)

theorem Canonical.withValue (value : Option V) :
    (TrieNode.mk n.children value).Canonical := .mk h.sorted h.kept h.inner

theorem Canonical.exists_content (hkept : n.isPrunable = false) :
    ∃ key, (n.content key).isSome = true := by
  induction h with
  | @mk children value sorted kept inner ih =>
    cases value with
    | some v => exact ⟨[],rfl⟩
    | none =>
      cases children with
      | nil => exact absurd hkept Bool.false_ne_true.symm
      | cons e es =>
        obtain ⟨key,hkey⟩ := ih e mem_cons_self (kept e mem_cons_self)
        refine ⟨e.1::key,?_⟩
        rw [content_mk_cons,sorted.find_of_mem mem_cons_self]
        exact hkey

theorem Canonical.hasEntry_iff : n.hasEntry = true ↔ ∃ key, (n.content key).isSome = true := by
  induction h with
  | @mk children value sorted kept inner ih =>
    rw [hasEntry,anyHasEntry_eq,Bool.or_eq_true,List.any_eq_true]
    constructor
    · rintro (hv | ⟨c,hc,he⟩)
      · exact ⟨[],hv⟩
      · obtain ⟨key,hkey⟩ := (ih c hc).mp he
        refine ⟨c.1::key,?_⟩
        rw [content_mk_cons,sorted.find_of_mem hc]
        exact hkey
    · rintro ⟨key,hkey⟩
      cases key with
      | nil => exact .inl hkey
      | cons k ks =>
        rw [content_mk_cons] at hkey
        cases hf : find k children with
        | none =>
          rw [hf] at hkey
          exact absurd hkey Bool.false_ne_true
        | some c =>
          rw [hf] at hkey
          have hc := mem_of_find hf
          exact .inr ⟨(k, c),hc,(ih (k, c) hc).mpr ⟨ks,hkey⟩⟩

/-- What a canonical node holds determines it. -/
theorem Canonical.ext (h' : n'.Canonical) (hc : ∀ key, n.content key = n'.content key) :
    n = n' := by
  induction h generalizing n' with
  | @mk children value sorted kept inner ih =>
    cases h' with
    | @mk children' value' sorted' kept' inner' =>
      have hvalue : value = value' := hc []
      have hchildren : children = children' := by
        apply sorted.ext sorted'
        intro k
        have hsub : ∀ ks, (find k children).bind (fun c => c.content ks) =
            (find k children').bind fun c => c.content ks := by
          intro ks
          have hk := hc (k::ks)
          rw [content_mk_cons,content_mk_cons] at hk
          exact hk
        cases hf : find k children with
        | none =>
          cases hf' : find k children' with
          | none => rfl
          | some c' =>
            exfalso
            have hmem := mem_of_find hf'
            obtain ⟨ks,hks⟩ := (inner' _ hmem).exists_content (kept' _ hmem)
            have hk := hsub ks
            rw [hf,hf'] at hk
            rw [show c'.content ks = none from hk.symm] at hks
            exact Bool.false_ne_true hks
        | some c =>
          have hmem := mem_of_find hf
          cases hf' : find k children' with
          | none =>
            exfalso
            obtain ⟨ks,hks⟩ := (inner _ hmem).exists_content (kept _ hmem)
            have hk := hsub ks
            rw [hf,hf'] at hk
            rw [show c.content ks = none from hk] at hks
            exact Bool.false_ne_true hks
          | some c' =>
            have heq : c = c' := by
              apply ih (k, c) hmem (inner' _ (mem_of_find hf'))
              intro ks
              have hk := hsub ks
              rw [hf,hf'] at hk
              exact hk
            rw [heq]
      rw [hvalue,hchildren]

end

section

variable {v : V}

theorem content_insert : (n.insert key v).1.content key' = if key' = key then some v else n.content key' := by
  induction key generalizing n key' with
  | nil =>
    cases key' with
    | nil => rw [if_pos rfl,insert,content_nil,value]
    | cons k ks =>
      rfl
  | cons k ks ih =>
    rw [insert]
    cases key' with
    | nil =>
      rfl
    | cons k' ks' =>
      rw [content_mk_cons,content_cons,find_put]
      by_cases hk : k' = k
      · subst hk
        rw [if_pos rfl,bind_some,ih]
        by_cases hks : ks' = ks
        · rw [if_pos hks,if_pos (by rw [hks])]
        · have hne : ¬ k' :: ks' = k' :: ks := fun h => hks (List.cons.inj h).2
          rw [if_neg hks,if_neg hne]
          cases find k' n.children with
          | none => exact content_empty ks'
          | some c => rfl
      · have hne : ¬ k' :: ks' = k::ks := fun h => hk (List.cons.inj h).1
        rw [if_neg hk,if_neg hne]

theorem insert_old : (n.insert key v).2 = n.content key := by
  induction key generalizing n with
  | nil => rfl
  | cons k ks ih =>
    rw [insert,content_cons,ih]
    cases find k n.children with
    | none => exact content_empty ks
    | some c => rfl

theorem insert_isPrunable : (n.insert key v).1.isPrunable = false := by
  cases key with
  | nil => rfl
  | cons k ks =>
    have hne : put k (((find k n.children).getD empty).insert ks v).1 n.children ≠ [] :=
      ne_nil_of_mem (mem_put_self _ _ _)
    rw [insert,isPrunable,children,isEmpty_eq_false_iff.mpr hne,Bool.and_false]

theorem Canonical.insert (h : n.Canonical) : (n.insert key v).1.Canonical := by
  induction key generalizing n with
  | nil => exact h.withValue (some v)
  | cons k ks ih =>
    refine h.put (ih ?_) insert_isPrunable n.value
    cases hf : find k n.children with
    | none => exact canonical_empty
    | some c => exact (h.child hf).1

end

theorem removeAt_spec (h : n.Canonical) : match n.removeAt key with
    | none => n.content key = none
    | some (old, n') => n.content key = some old ∧ n'.Canonical ∧
      ∀ key', n'.content key' = if key' = key then none else n.content key' := by
  induction key generalizing n with
  | nil =>
    rw [removeAt]
    cases hv : n.value with
    | none => exact hv
    | some old =>
      refine ⟨hv,h.withValue none,fun key' => ?_⟩
      cases key' with
      | nil => rfl
      | cons k ks =>
        rfl
  | cons k ks ih =>
    rw [removeAt,content_cons]
    cases hf : find k n.children with
    | none => rfl
    | some c =>
      obtain ⟨hc,hkept⟩ := h.child hf
      have hrec := ih hc
      simp only [bind_some]
      cases hr : c.removeAt ks with
      | none =>
        rw [hr] at hrec
        exact hrec
      | some r =>
        rw [hr] at hrec
        obtain ⟨hold,hc',hcontent⟩ := hrec
        refine ⟨hold,?_,fun key' => ?_⟩
        · split
          · exact h.erase k n.value
          next hkept' => exact h.put hc' (Bool.eq_false_iff.mpr hkept') n.value
        · cases key' with
          | nil =>
            rfl
          | cons k' ks' =>
            rw [content_mk_cons,content_cons]
            by_cases hk : k' = k
            · subst hk
              have hsame : ∀ x, (if x = ks then none else c.content x) =
                  if k' :: x = k' :: ks then none else c.content x := by
                intro x
                simp only [List.cons.injEq,true_and]
              rw [hf,bind_some,← hsame,← hcontent]
              split
              next hp =>
                rw [find_erase,if_pos rfl,content_of_isPrunable hp]
                rfl
              next => rw [find_put,if_pos rfl,bind_some]
            · have hne : ¬ k' :: ks' = k::ks := fun h => hk (List.cons.inj h).1
              split
              · rw [find_erase,if_neg hk]
              · rw [find_put,if_neg hk]

variable {f : V → V}

theorem content_modify : (n.modify f key).content key' =
    if key' = key then (n.content key).map f else n.content key' := by
  induction key generalizing n key' with
  | nil =>
    cases key' with
    | nil => rw [if_pos rfl,modify,content_nil,content_nil,value]
    | cons k ks =>
      rfl
  | cons k ks ih =>
    rw [modify,content_cons n k ks]
    cases hf : find k n.children with
    | none =>
      by_cases heq : key' = k::ks
      · rw [if_pos heq,heq,content_cons,hf]
        rfl
      · rw [if_neg heq]
    | some c =>
      cases key' with
      | nil =>
        rfl
      | cons k' ks' =>
        rw [content_mk_cons,content_cons,find_put]
        by_cases hk : k' = k
        · subst hk
          rw [if_pos rfl,bind_some,ih,hf]
          simp only [List.cons.injEq,true_and,bind_some]
        · have hne : ¬ k' :: ks' = k::ks := fun h => hk (List.cons.inj h).1
          rw [if_neg hk,if_neg hne]

theorem modify_isPrunable : (n.modify f key).isPrunable = n.isPrunable := by
  cases key with
  | nil => rw [modify,isPrunable,isPrunable,value,children,isNone_map]
  | cons k ks =>
    rw [modify]
    cases hf : find k n.children with
    | none => rfl
    | some c =>
      have hne : put k (c.modify f ks) n.children ≠ [] :=
        ne_nil_of_mem (mem_put_self _ _ _)
      have hne' : n.children ≠ [] := ne_nil_of_mem (mem_of_find hf)
      rw [isPrunable,isPrunable,children,isEmpty_eq_false_iff.mpr hne,
        isEmpty_eq_false_iff.mpr hne',Bool.and_false,Bool.and_false]

theorem Canonical.modify (h : n.Canonical) : (n.modify f key).Canonical := by
  induction key generalizing n with
  | nil => exact h.withValue _
  | cons k ks ih =>
    rw [TrieNode.modify]
    cases hf : find k n.children with
    | none => exact h
    | some c =>
      obtain ⟨hc,hkept⟩ := h.child hf
      exact h.put (ih hc) (modify_isPrunable.trans hkept) n.value

end TrieNode

end Athera
