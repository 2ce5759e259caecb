import Athera.Framework.Answers
import Athera.Trie.Node
import Mathlib.Data.Set.Card

/-!
# The trie as a map

`Trie` keeps the number of its entries next to the root.
-/

namespace Athera

open Framework Option TrieNode Function
open List hiding after

structure Trie (K V : Type) where
  root : TrieNode K V
  len : Nat

inductive TrieOp (K V : Type) where
  | insert (key : List K) (value : V)
  | remove (key : List K)
  /-- A write through the reference that `get_mut` returns. -/
  | getMut (key : List K) (f : V → V)
  | clear
  | get (key : List K)
  | containsKey (key : List K)
  | containsPrefix (pre : List K)
  | len

inductive TrieAnswer (V : Type) where
  | value (v : Option V)
  | flag (b : Bool)
  | number (n : Nat)
  | done
deriving DecidableEq

namespace Trie

variable {K V : Type}

def new : Trie K V := ⟨.empty,0⟩

variable [LinearOrder K]

section

variable (t : Trie K V)

def get (key : List K) : Option V := (t.root.nodeOf key).bind TrieNode.value

def containsKey (key : List K) : Bool := (t.get key).isSome

def remove (key : List K) : Option V × Trie K V :=
  match t.root.removeAt key with
  | none => (none, t)
  | some (old, root) => (some old, ⟨root,t.len - 1⟩)

def insert (key : List K) (value : V) : Option V × Trie K V :=
  let r := t.root.insert key value
  (r.2, ⟨r.1,if r.2.isNone then t.len + 1 else t.len⟩)

def getMut (key : List K) (f : V → V) : Option V × Trie K V :=
  (t.get key, ⟨t.root.modify f key,t.len⟩)

def containsPrefix (pre : List K) : Bool :=
  ((t.root.nodeOf pre).map TrieNode.hasEntry).getD false

/-- The loop of `longest_prefix`, with the depth and the best match so far. -/
def longestFrom : TrieNode K V → List K → Nat → Option (Nat × V) → Option (Nat × V)
  | _, [], _, best => best
  | n, k :: ks, i, best =>
    match Assoc.find k n.children with
    | none => best
    | some child =>
      longestFrom child ks (i + 1) ((child.value.map fun v => (i + 1, v)).or best)

def longestPrefix (key : List K) : Option (List K × V) :=
  (longestFrom t.root key 0 (t.root.value.map fun v => (0, v))).map fun r => (key.take r.1, r.2)

def step : TrieOp K V → TrieAnswer V × Trie K V
  | .insert key value => ((t.insert key value).map .value id)
  | .remove key => ((t.remove key).map .value id)
  | .getMut key f => ((t.getMut key f).map .value id)
  | .clear => (.done, new)
  | .get key => (.value (t.get key), t)
  | .containsKey key => (.flag (t.containsKey key), t)
  | .containsPrefix pre => (.flag (t.containsPrefix pre), t)
  | .len => (.number t.len, t)

end

def support (m : List K → Option V) : Set (List K) := {key | (m key).isSome = true}

open Classical in
/-- The requests on a map from key sequences to values. -/
noncomputable def mapStep (m : List K → Option V) : TrieOp K V → TrieAnswer V × (List K → Option V)
  | .insert key value => (.value (m key), update m key (some value))
  | .remove key => (.value (m key), update m key none)
  | .getMut key f => (.value (m key), update m key ((m key).map f))
  | .clear => (.done, fun _ => none)
  | .get key => (.value (m key), m)
  | .containsKey key => (.flag (m key).isSome, m)
  | .containsPrefix pre => (.flag (decide (∃ key ∈ support m, pre <+: key)), m)
  | .len => (.number (support m).ncard, m)

structure Holds (t : Trie K V) (m : List K → Option V) : Prop where
  canonical : t.root.Canonical
  content : ∀ key, t.root.content key = m key
  finite : (support m).Finite
  len : t.len = (support m).ncard

variable {t t' : Trie K V} {m m' : List K → Option V} {key : List K}

theorem holds_new : (new : Trie K V).Holds fun _ => none := by
  have hempty : support (fun _ : List K => (none : Option V)) = ∅ := by
    simp [support]
  refine ⟨canonical_empty,content_empty,?_,?_⟩
  · rw [hempty]
    exact Set.finite_empty
  · rw [hempty,Set.ncard_empty]
    rfl

theorem Holds.get (h : t.Holds m) (key : List K) : t.get key = m key := h.content key

theorem Holds.ext (h : t.Holds m) (h' : t'.Holds m) : t = t' := by
  obtain ⟨root,len⟩ := t
  obtain ⟨root',len'⟩ := t'
  have hroot : root = root' :=
    h.canonical.ext h'.canonical fun key => (h.content key).trans (h'.content key).symm
  have hlen : len = len' := h.len.trans h'.len.symm
  rw [hroot,hlen]

theorem support_update_some (key : List K) (v : V) :
    support (update m key (some v)) = Insert.insert key (support m) := by
  ext key'
  by_cases hk : key' = key
  · subst hk
    simp [support]
  · simp [support,hk]

theorem support_update_none (key : List K) : support (update m key none) = support m \ {key} := by
  ext key'
  by_cases hk : key' = key
  · subst hk
    simp [support]
  · simp [support,hk]

theorem Holds.insert (h : t.Holds m) (key : List K) (v : V) :
    (t.insert key v).1 = m key ∧ (t.insert key v).2.Holds (update m key (some v)) := by
  have hold : (t.root.insert key v).2 = m key := insert_old.trans (h.content key)
  refine ⟨hold,h.canonical.insert,fun key' => ?_,?_,?_⟩
  · rw [Trie.insert,content_insert,update_apply]
    split
    · rfl
    · exact h.content key'
  · rw [support_update_some]
    exact h.finite.insert key
  · rw [Trie.insert,support_update_some]
    simp only [hold]
    cases hm : m key with
    | none =>
      have hno : key ∉ support m := by simp [support,hm]
      rw [Set.ncard_insert_of_notMem hno h.finite,h.len]
      rfl
    | some w =>
      have hin : key ∈ support m := by simp [support,hm]
      rw [Set.insert_eq_of_mem hin,h.len]
      rfl

theorem Holds.exists_insert (h : t.Holds m) (key : List K) (v : V) :
    ∃ m', (t.insert key v).2.Holds m' ∧ m' key = some v ∧ ∀ key' ≠ key, m' key' = m key' :=
  ⟨_,(h.insert key v).2,update_self key (some v) m,
    fun _ hk => update_of_ne hk (some v) m⟩

theorem Holds.remove (h : t.Holds m) (key : List K) :
    (t.remove key).1 = m key ∧ (t.remove key).2.Holds (update m key none) := by
  have hspec := @TrieNode.removeAt_spec K V _ t.root key h.canonical
  rw [Trie.remove]
  cases hr : t.root.removeAt key with
  | none =>
    rw [hr] at hspec
    have hm : m key = none := (h.content key).symm.trans hspec
    have hsame : update m key none = m := by
      rw [← hm]
      exact update_eq_self key m
    rw [hsame]
    exact ⟨hm.symm,h⟩
  | some r =>
    obtain ⟨old,root⟩ := r
    rw [hr] at hspec
    obtain ⟨hold,hcanon,hcontent⟩ := hspec
    have hm : m key = some old := (h.content key).symm.trans hold
    have hin : key ∈ support m := by simp [support,hm]
    refine ⟨hm.symm,hcanon,fun key' => ?_,?_,?_⟩
    · rw [hcontent,update_apply]
      split
      · rfl
      · exact h.content key'
    · rw [support_update_none]
      exact h.finite.sdiff
    · rw [support_update_none,Set.ncard_sdiff_singleton_of_mem hin,← h.len]

theorem Holds.getMut (h : t.Holds m) (key : List K) (f : V → V) : (t.getMut key f).1 = m key ∧
      (t.getMut key f).2.Holds (update m key ((m key).map f)) := by
  have hsupport : support (update m key ((m key).map f)) = support m := by
    ext key'
    by_cases hk : key' = key
    · subst hk
      simp [support]
    · simp [support,hk]
  refine ⟨h.content key,h.canonical.modify,fun key' => ?_,?_,?_⟩
  · rw [Trie.getMut,content_modify,update_apply,h.content]
    split
    · rfl
    · exact h.content key'
  · rw [hsupport]
    exact h.finite
  · rw [hsupport]
    exact h.len

theorem content_append {n : TrieNode K V} (pre key : List K) :
    n.content (pre++key) = (n.nodeOf pre).bind fun c => c.content key := by
  induction pre generalizing n with
  | nil => rfl
  | cons k ks ih =>
    rw [cons_append,content_cons,nodeOf,bind_assoc]
    congr 1
    funext c
    exact ih

theorem canonical_nodeOf {n c : TrieNode K V} {pre : List K} (h : n.Canonical)
    (hc : n.nodeOf pre = some c) : c.Canonical := by
  induction pre generalizing n with
  | nil =>
    obtain rfl := some.inj hc
    exact h
  | cons k ks ih =>
    obtain ⟨child,hchild,hrest⟩ := bind_eq_some_iff.mp hc
    exact ih (h.child hchild).1 hrest

theorem not_isPrunable_nodeOf {n c : TrieNode K V} {pre : List K} (h : n.Canonical) (hne : pre ≠ [])
    (hc : n.nodeOf pre = some c) : c.isPrunable = false := by
  induction pre generalizing n with
  | nil => exact absurd rfl hne
  | cons k ks ih =>
    obtain ⟨child,hchild,hrest⟩ := bind_eq_some_iff.mp hc
    cases ks with
    | nil =>
      obtain rfl := some.inj hrest
      exact (h.child hchild).2
    | cons k' ks => exact ih (h.child hchild).1 (cons_ne_nil k' ks) hrest

theorem Holds.containsPrefix_iff (h : t.Holds m) (pre : List K) :
    t.containsPrefix pre = true ↔ ∃ key ∈ support m, pre <+: key := by
  have hcontent : ∀ key, m (pre++key) = (t.root.nodeOf pre).bind fun c => c.content key :=
    fun key => (h.content _).symm.trans (content_append pre key)
  rw [containsPrefix]
  cases hn : t.root.nodeOf pre with
  | none =>
    refine ⟨fun hf => absurd hf Bool.false_ne_true,?_⟩
    rintro ⟨_,hkey,rest,rfl⟩
    rw [support,Set.mem_ofPred_eq,hcontent,hn] at hkey
    exact absurd hkey Bool.false_ne_true
  | some c =>
    simp only [map_some,getD_some]
    rw [(canonical_nodeOf h.canonical hn).hasEntry_iff]
    constructor
    · rintro ⟨key,hkey⟩
      refine ⟨pre++key,?_,prefix_append pre key⟩
      rw [support,Set.mem_ofPred_eq,hcontent,hn]
      exact hkey
    · rintro ⟨_,hkey,rest,rfl⟩
      rw [support,Set.mem_ofPred_eq,hcontent,hn] at hkey
      exact ⟨rest,hkey⟩

/-- The loop of `longest_prefix` finds the longest key on the way down, or keeps what it had. -/
theorem longestFrom_spec (n : TrieNode K V) (ks : List K) (i : Nat) (best : Option (Nat × V)) :
    (∃ p v, p <+: ks ∧ n.content p = some v ∧
      (∀ q, q <+: ks → (n.content q).isSome = true → q.length ≤ p.length) ∧
      longestFrom n ks i best = some (i+p.length, v) ∧ p ≠ []) ∨
    ((∀ q, q <+: ks → q ≠ [] → n.content q = none) ∧ longestFrom n ks i best = best) := by
  induction ks generalizing n i best with
  | nil =>
    refine .inr ⟨fun q hq hne => absurd (prefix_nil.mp hq) hne,rfl⟩
  | cons k ks ih =>
    rw [longestFrom]
    cases hf : Assoc.find k n.children with
    | none =>
      refine .inr ⟨fun q hq hne => ?_,rfl⟩
      obtain ⟨k',qs,rfl⟩ := exists_cons_of_ne_nil hne
      obtain ⟨rfl,_⟩ := cons_prefix_cons.mp hq
      rw [content_cons,hf]
      rfl
    | some child =>
      have hchild : ∀ qs, n.content (k::qs) = child.content qs := by
        intro qs
        rw [content_cons,hf]
        rfl
      simp only
      rcases ih child (i+1) ((child.value.map fun v => (i+1, v)).or best)
        with ⟨p,v,hp,hv,hmax,hres,_⟩ | ⟨hnone,hres⟩
      · refine .inl ⟨k::p,v,cons_prefix_cons.mpr ⟨rfl,hp⟩,(hchild p).trans hv,?_,?_,
          cons_ne_nil k p⟩
        · intro q hq hsome
          cases q with
          | nil => exact Nat.zero_le _
          | cons k' qs =>
            obtain ⟨rfl,hqs⟩ := cons_prefix_cons.mp hq
            rw [hchild] at hsome
            exact Nat.succ_le_succ (hmax qs hqs hsome)
        · rw [hres,length_cons,Nat.add_right_comm,Nat.add_assoc]
      · cases hvalue : child.value with
        | none =>
          rw [hvalue] at hres
          refine .inr ⟨fun q hq hne => ?_,hres⟩
          obtain ⟨k',qs,rfl⟩ := exists_cons_of_ne_nil hne
          obtain ⟨rfl,hqs⟩ := cons_prefix_cons.mp hq
          rw [hchild]
          cases qs with
          | nil => exact hvalue
          | cons k'' qs => exact hnone _ hqs (cons_ne_nil k'' qs)
        | some v =>
          rw [hvalue] at hres
          refine .inl ⟨[k],v,cons_prefix_cons.mpr ⟨rfl, nil_prefix⟩,
            (hchild []).trans hvalue,?_,hres,cons_ne_nil k []⟩
          intro q hq hsome
          cases q with
          | nil => exact Nat.zero_le _
          | cons k' qs =>
            obtain ⟨rfl,hqs⟩ := cons_prefix_cons.mp hq
            cases qs with
            | nil => exact le_rfl
            | cons k'' qs =>
              rw [hchild,hnone _ hqs (cons_ne_nil k'' qs)] at hsome
              exact absurd hsome Bool.false_ne_true

theorem Holds.longestPrefix_spec (h : t.Holds m) (key : List K) : match t.longestPrefix key with
    | none => ∀ q, q <+: key → m q = none
    | some (p, v) => p <+: key ∧ m p = some v ∧
      ∀ q, q <+: key → (m q).isSome = true → q.length ≤ p.length := by
  rw [longestPrefix]
  rcases longestFrom_spec t.root key 0 (t.root.value.map fun v => (0, v)) with
    ⟨p,v,hp,hv,hmax,hres,_⟩ | ⟨hnone,hres⟩
  · rw [hres,Nat.zero_add]
    simp only [map_some]
    rw [← prefix_iff_eq_take.mp hp]
    refine ⟨hp,(h.content p).symm.trans hv,fun q hq hsome => hmax q hq ?_⟩
    rw [h.content]
    exact hsome
  · rw [hres]
    have hrest : ∀ q, q <+: key → q ≠ [] → m q = none := fun q hq hne =>
      (h.content q).symm.trans (hnone q hq hne)
    have hroot : t.root.value = m [] := h.content []
    rw [hroot]
    cases hm : m [] with
    | none =>
      intro q hq
      cases q with
      | nil => exact hm
      | cons k ks => exact hrest _ hq (cons_ne_nil k ks)
    | some v =>
      refine ⟨ nil_prefix,hm,fun q hq hsome => ?_⟩
      cases q with
      | nil => exact le_rfl
      | cons k ks =>
        rw [hrest _ hq (cons_ne_nil k ks)] at hsome
        exact absurd hsome Bool.false_ne_true

theorem Holds.step (h : t.Holds m) (op : TrieOp K V) :
    (t.step op).1 = (mapStep m op).1 ∧ (t.step op).2.Holds (mapStep m op).2 := by
  cases op with
  | insert key value =>
    obtain ⟨hold,hnext⟩ := h.insert key value
    exact ⟨congrArg TrieAnswer.value hold,hnext⟩
  | remove key =>
    obtain ⟨hold,hnext⟩ := h.remove key
    exact ⟨congrArg TrieAnswer.value hold,hnext⟩
  | getMut key f =>
    obtain ⟨hold,hnext⟩ := h.getMut key f
    exact ⟨congrArg TrieAnswer.value hold,hnext⟩
  | clear => exact ⟨rfl,holds_new⟩
  | get key => exact ⟨congrArg TrieAnswer.value (h.get key),h⟩
  | containsKey key =>
    refine ⟨congrArg TrieAnswer.flag ?_,h⟩
    rw [containsKey,h.get]
  | containsPrefix pre =>
    classical
    refine ⟨congrArg TrieAnswer.flag ?_,h⟩
    exact Bool.eq_iff_iff.mpr ((h.containsPrefix_iff pre).trans decide_eq_true_iff.symm)
  | len => exact ⟨congrArg TrieAnswer.number h.len,h⟩

/-- The trie answers like the map, no node below the root is empty, and another sequence of
requests that leaves the same map leaves the same trie. -/
theorem trie_refines_map (ops : List (TrieOp K V)) :
    answers step new ops = answers mapStep (fun _ => none) ops ∧
    (∀ key node, key ≠ [] → (after step new ops).root.nodeOf key = some node →
      node.isPrunable = false) ∧
    ∀ ops', after mapStep (fun _ => none) ops' = after mapStep (fun _ => none) ops →
      after step new ops' = after step new ops := by
  have hrun := fun ops => answers_simulation (R := Holds)
    (fun _ _ op hs => Holds.step hs op) (holds_new (K := K) (V := V)) ops
  refine ⟨(hrun ops).1,fun key node hne hnode => ?_,fun ops' hsame => ?_⟩
  · exact not_isPrunable_nodeOf (hrun ops).2.canonical hne hnode
  · have hholds := (hrun ops').2
    rw [hsame] at hholds
    exact hholds.ext (hrun ops).2

/-- The same two entries, put in the other order and next to one that is removed again. -/
theorem trie_refines_map_orders :
    after step (new : Trie Nat Nat) [.insert [1] 5,.insert [1,2] 6] =
      after step new [.insert [1,2] 6,.insert [] 0,.insert [1] 5,.remove []] := by
  refine (trie_refines_map [.insert [1,2] 6,.insert [] 0,.insert [1] 5,.remove []]).2.2 _ ?_
  simp only [after,mapStep]
  funext key
  by_cases h0 : key = []
  · simp [h0]
  · by_cases h1 : key = [1]
    · simp [h1]
    · by_cases h2 : key = [1,2]
      · simp [h2]
      · simp [h0,h1,h2]

end Trie

end Athera
