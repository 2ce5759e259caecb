import Athera.Framework.SortedMap
import Mathlib.Algebra.BigOperators.Group.Finset.Basic
import Mathlib.Algebra.GroupWithZero.Nat
import Mathlib.Data.Finset.Max
import Mathlib.Order.Interval.Finset.Nat
import Mathlib.Tactic.ByCases

/-!
# Sets of numbers as intervals

A finite set of numbers, kept as a map from the first number of each maximal run to the number
behind it.
-/

namespace Framework

open List Option

def least (F : Finset Nat) : Option Nat := if h : F.Nonempty then some (F.min' h) else none

theorem least_eq_some {F : Finset Nat} {x : Nat} : least F = some x ↔ x ∈ F ∧ ∀ y ∈ F, x ≤ y := by
  rw [least]
  by_cases h : F.Nonempty
  · rw [dif_pos h,some.injEq]
    constructor
    · intro heq
      exact ⟨heq ▸ F.min'_mem h,fun y hy => heq ▸ F.min'_le y hy⟩
    · intro hx
      exact le_antisymm (F.min'_le x hx.1) (hx.2 _ (F.min'_mem h))
  · rw [dif_neg h]
    constructor
    · intro hnone
      cases hnone
    · intro hx
      exact absurd ⟨x,hx.1⟩ h

theorem least_eq_none {F : Finset Nat} : least F = none ↔ F = ∅ := by
  rw [least]
  by_cases h : F.Nonempty
  · rw [dif_pos h]
    constructor
    · intro hnone
      cases hnone
    · intro hempty
      exact absurd h (Finset.not_nonempty_iff_eq_empty.mpr hempty)
  · rw [dif_neg h]
    exact ⟨fun _ => Finset.not_nonempty_iff_eq_empty.mp h,fun _ => rfl⟩

namespace SortedMap

section

variable {α : Type*} {m : SortedMap α} {k : Nat} {v : α}

def lastEntry (m : SortedMap α) (p : Nat → Bool) : Option (Nat × α) :=
  (m.entries.filter fun e => p e.1).getLast?

theorem lastEntry_spec (m : SortedMap α) (p : Nat → Bool) : match m.lastEntry p with
    | none => ∀ k v, m.get? k = some v → p k = false
    | some (k, v) => m.get? k = some v ∧ p k = true ∧
      ∀ k' v', m.get? k' = some v' → p k' = true → k' ≤ k := by
  have hmem : ∀ k v, m.get? k = some v → p k = true → (k, v) ∈ m.entries.filter fun e => p e.1 := by
    intro k v hget hp
    exact mem_filter.mpr ⟨mem_of_get? hget,hp⟩
  have hsorted : (m.entries.filter fun e => p e.1).Pairwise fun a b => a.1 < b.1 := m.sorted.filter _
  rw [lastEntry]
  cases hlast : (m.entries.filter fun e => p e.1).getLast? with
  | none =>
    intro k v hget
    have hnil := getLast?_eq_none_iff.mp hlast
    cases hp : p k with
    | false => rfl
    | true =>
      have hin := hmem k v hget hp
      rw [hnil] at hin
      exact absurd hin not_mem_nil
  | some e =>
    have hin := mem_filter.mp (mem_of_getLast? hlast)
    refine ⟨get?_of_mem hin.1,hin.2,?_⟩
    intro k' v' hget hp
    obtain ⟨front,hfront⟩ := getLast?_eq_some_iff.mp hlast
    have hk := hmem k' v' hget hp
    rw [hfront] at hk hsorted
    rcases mem_append.mp hk with hk | hk
    · exact Nat.le_of_lt ((pairwise_append.mp hsorted).2.2 _ hk e (mem_singleton_self e))
    · exact Nat.le_of_eq (congrArg Prod.fst (mem_singleton.mp hk))

theorem head_le {e : Nat × α} (h : m.entries.head? = some e) (hget : m.get? k = some v) : e.1 ≤ k := by
  obtain ⟨rest,hrest⟩ := head?_eq_some_iff.mp h
  have hmem := mem_of_get? hget
  have hsorted := m.sorted
  rw [hrest] at hmem hsorted
  rcases mem_cons.mp hmem with heq | hmem
  · exact Nat.le_of_eq (congrArg Prod.fst heq).symm
  · exact Nat.le_of_lt ((pairwise_cons.mp hsorted).1 _ hmem)

theorem entries_nodup (m : SortedMap α) : m.entries.Nodup := by
  apply m.sorted.imp
  intro a b hlt heq
  exact absurd (congrArg Prod.fst heq) (Nat.ne_of_lt hlt)

theorem keys_nodup (m : SortedMap α) : (m.entries.map Prod.fst).Nodup :=
  pairwise_map.mpr (m.sorted.imp fun hlt => Nat.ne_of_lt hlt)

end

variable {m : SortedMap Nat} {s e a b x : Nat}

def cover (m : SortedMap Nat) : Finset Nat := m.entries.toFinset.biUnion fun r => Finset.Ico r.1 r.2

def total (m : SortedMap Nat) : Nat := (m.entries.map fun r => r.2 - r.1).sum

structure Apart (m : SortedMap Nat) : Prop where
  pos : ∀ s e, m.get? s = some e → s < e
  apart : ∀ s e s' e', m.get? s = some e → m.get? s' = some e' → s < s' → e < s'

theorem mem_cover : x ∈ m.cover ↔ ∃ s e, m.get? s = some e ∧ s ≤ x ∧ x < e := by
  rw [cover,Finset.mem_biUnion]
  constructor
  · intro ⟨r,hr,hx⟩
    have hr' := get?_of_mem (List.mem_toFinset.mp hr)
    exact ⟨r.1,r.2,hr',Finset.mem_Ico.mp hx⟩
  · intro ⟨s,e,hget,hx⟩
    exact ⟨(s, e),List.mem_toFinset.mpr (mem_of_get? hget),Finset.mem_Ico.mpr hx⟩

theorem Apart.disjoint (h : m.Apart) {r r' : Nat × Nat} (hr : m.get? r.1 = some r.2)
    (hr' : m.get? r'.1 = some r'.2) (hne : r ≠ r') :
    Disjoint (Finset.Ico r.1 r.2) (Finset.Ico r'.1 r'.2) := by
  rw [Finset.disjoint_left]
  intro x hx hx'
  rw [Finset.mem_Ico] at hx hx'
  rcases Nat.lt_trichotomy r.1 r'.1 with hlt | heq | hgt
  · have hapart := h.apart r.1 r.2 r'.1 r'.2 hr hr' hlt
    omega
  · rw [heq,hr'] at hr
    exact hne (Prod.ext heq (some.inj hr).symm)
  · have hapart := h.apart r'.1 r'.2 r.1 r.2 hr' hr hgt
    omega

theorem Apart.card_cover (h : m.Apart) : m.cover.card = m.total := by
  rw [cover,Finset.card_biUnion,total,← sum_toFinset _ m.entries_nodup]
  · exact Finset.sum_congr rfl fun r _ => Nat.card_Ico r.1 r.2
  · intro r hr r' hr' hne
    exact h.disjoint (get?_of_mem (List.mem_toFinset.mp hr)) (get?_of_mem (List.mem_toFinset.mp hr')) hne

theorem Apart.lastEntry_of_mem (h : m.Apart) (hx : x ∈ m.cover) :
    ∃ s e, m.lastEntry (fun k => k ≤ x) = some (s, e) ∧ m.get? s = some e ∧ s ≤ x ∧ x < e := by
  obtain ⟨s,e,hget,hs,he⟩ := mem_cover.mp hx
  have hspec := m.lastEntry_spec fun k => k ≤ x
  cases hlast : m.lastEntry fun k => k ≤ x with
  | none =>
    rw [hlast] at hspec
    exact absurd (hspec s e hget) (by simpa using hs)
  | some r =>
    rw [hlast] at hspec
    obtain ⟨hr,hle,hmax⟩ := hspec
    have hsr := hmax s e hget (by simpa using hs)
    have heq : s = r.1 := by
      rcases Nat.lt_or_eq_of_le hsr with hlt | heq
      · have hapart := h.apart s e r.1 r.2 hget hr hlt
        have hrx : r.1 ≤ x := of_decide_eq_true hle
        omega
      · exact heq
    subst heq
    rw [hget] at hr
    cases hr
    exact ⟨r.1,r.2,rfl,hget,hs,he⟩

theorem Apart.le_of_subset_cover (h : m.Apart) (hsub : Finset.Ico a b ⊆ m.cover)
    (hget : m.get? s = some e) (hs : s ≤ a) (he : a < e) : b ≤ e := by
  by_contra hlt
  -- the number right behind the interval would have to be in another one
  obtain ⟨s',e',hget',hs',he'⟩ := mem_cover.mp (hsub (Finset.mem_Ico.mpr (by omega : a ≤ e ∧ e < b)))
  have hlt' : s < s' := by
    rcases Nat.lt_trichotomy s s' with hlt | heq | hgt
    · exact hlt
    · rw [heq,hget'] at hget
      cases hget
      omega
    · have hapart := h.apart s' e' s e hget' hget hgt
      omega
  have hapart := h.apart s e s' e' hget hget' hlt'
  omega

theorem Apart.subset_cover_iff (h : m.Apart) (hab : a < b) :
    Finset.Ico a b ⊆ m.cover ↔ ∃ s e, m.get? s = some e ∧ s ≤ a ∧ b ≤ e := by
  constructor
  · intro hsub
    obtain ⟨s,e,hget,hs,he⟩ := mem_cover.mp (hsub (Finset.mem_Ico.mpr ⟨le_rfl,hab⟩))
    exact ⟨s,e,hget,hs,h.le_of_subset_cover hsub hget hs he⟩
  · intro ⟨s,e,hget,hs,he⟩ x hx
    rw [Finset.mem_Ico] at hx
    exact mem_cover.mpr ⟨s,e,hget,by omega,by omega⟩

def cut (m : SortedMap Nat) (s e a b : Nat) : SortedMap Nat :=
  let m := m.erase s
  let m := if s < a then m.insert s a else m
  if b < e then m.insert b e else m

section

variable (h : m.Apart) (hs : m.get? s = some e)
include h hs

theorem Apart.side {k v : Nat} (hk : m.get? k = some v) (hne : k ≠ s) : v < s ∨ e < k := by
  rcases Nat.lt_or_gt_of_ne hne with hlt | hgt
  · exact .inl (h.apart k v s e hk hs hlt)
  · exact .inr (h.apart s e k v hs hk hgt)

section

variable (hsa : s ≤ a) (hab : a < b) (hbe : b ≤ e)
include hsa hab hbe

theorem Apart.get?_cut {k v : Nat} : (m.cut s e a b).get? k = some v ↔
      (k = b ∧ v = e ∧ b < e) ∨ (k = s ∧ v = a ∧ s < a) ∨ (k ≠ s ∧ m.get? k = some v) := by
  have hb : m.get? b = none := by
    by_contra hsome
    obtain ⟨v,hv⟩ := ne_none_iff_exists'.mp hsome
    have hapart := h.apart s e b v hs hv (by omega)
    omega
  have hleft : (if s < a then (m.erase s).insert s a else m.erase s).get? k =
      if k = s then (if s < a then some a else none) else m.get? k := by
    by_cases hlt : s < a
    · rw [if_pos hlt,get?_insert,get?_erase,if_pos hlt]
      by_cases hk : k = s
      · rw [if_pos hk,if_pos hk]
      · rw [if_neg hk,if_neg hk,if_neg hk]
    · rw [if_neg hlt,get?_erase,if_neg hlt]
  have hcut : (m.cut s e a b).get? k = if k = b ∧ b < e then some e
      else if k = s then (if s < a then some a else none) else m.get? k := by
    rw [cut]
    by_cases hlt : b < e
    · simp only [hlt,if_true,get?_insert,hleft,and_true]
    · simp only [hlt,if_false,hleft,and_false]
  grind

theorem Apart.cut : (m.cut s e a b).Apart := by
  constructor
  · intro k v hk
    rcases (h.get?_cut hs hsa hab hbe).mp hk with ⟨rfl,rfl,hlt⟩ | ⟨rfl,rfl,hlt⟩ | ⟨_,hget⟩
    · exact hlt
    · exact hlt
    · exact h.pos k v hget
  · intro k v k' v' hk hk' hlt
    rcases (h.get?_cut hs hsa hab hbe).mp hk with ⟨rfl,rfl,_⟩ | ⟨rfl,rfl,_⟩ | ⟨hne,hget⟩ <;>
      rcases (h.get?_cut hs hsa hab hbe).mp hk' with ⟨rfl,rfl,_⟩ | ⟨rfl,rfl,_⟩ | ⟨hne',hget'⟩
    · omega
    · omega
    · have hside := h.side hs hget' hne'
      have hpos := h.pos _ _ hget'
      omega
    · omega
    · omega
    · have hside := h.side hs hget' hne'
      have hpos := h.pos _ _ hget'
      omega
    · have hside := h.side hs hget hne
      omega
    · have hside := h.side hs hget hne
      omega
    · exact h.apart k v k' v' hget hget' hlt

theorem Apart.cover_cut : (m.cut s e a b).cover = m.cover \ Finset.Ico a b := by
  ext x
  rw [Finset.mem_sdiff,mem_cover,mem_cover,Finset.mem_Ico]
  constructor
  · intro ⟨k,v,hk,hkx,hxv⟩
    rcases (h.get?_cut hs hsa hab hbe).mp hk with ⟨rfl,rfl,_⟩ | ⟨rfl,rfl,_⟩ | ⟨hne,hget⟩
    · exact ⟨⟨s,v,hs,by omega,hxv⟩,by omega⟩
    · exact ⟨⟨k,e,hs,hkx,by omega⟩,by omega⟩
    · have hside := h.side hs hget hne
      exact ⟨⟨k,v,hget,hkx,hxv⟩,by omega⟩
  · intro ⟨⟨k,v,hget,hkx,hxv⟩,hout⟩
    by_cases hne : k = s
    · subst hne
      rw [hs] at hget
      cases hget
      by_cases hxa : x < a
      · exact ⟨k,a,(h.get?_cut hs hsa hab hbe).mpr (.inr (.inl ⟨rfl,rfl,by omega⟩)),hkx,hxa⟩
      · exact ⟨b,e,(h.get?_cut hs hsa hab hbe).mpr (.inl ⟨rfl,rfl,by omega⟩),by omega,hxv⟩
    · exact ⟨k,v,(h.get?_cut hs hsa hab hbe).mpr (.inr (.inr ⟨hne,hget⟩)),hkx,hxv⟩

end

end

/-- Join a free run to the intervals that touch it. -/
def join (m : SortedMap Nat) (a b : Nat) : SortedMap Nat :=
  let left := match m.lastEntry fun k => k < a with
    | some (s, e) => if e = a then (s, m.erase s) else (a, m)
    | none => (a, m)
  match left.2.get? b with
  | some e => (left.2.erase b).insert left.1 e
  | none => left.2.insert left.1 b

/-- The run and the intervals that touch it are replaced by one interval. -/
structure Joined (m m' : SortedMap Nat) (a b lo hi : Nat) : Prop where
  atLo : lo = a ∨ m.get? lo = some a
  atHi : hi = b ∨ m.get? b = some hi
  left : ∀ s, m.get? s = some a → s = lo
  right : ∀ e, m.get? b = some e → e = hi
  get : ∀ k v, m'.get? k = some v ↔ (k = lo ∧ v = hi) ∨ (k ≠ lo ∧ k ≠ b ∧ m.get? k = some v)

theorem Apart.joined (h : m.Apart) (hab : a < b) : ∃ lo hi, Joined m (m.join a b) a b lo hi := by
  obtain ⟨lo,m',hleft,hlo,hends,hget⟩ : ∃ lo m', (match m.lastEntry fun k => k < a with
      | some (s, e) => if e = a then (s, m.erase s) else (a, m)
      | none => (a, m)) = (lo, m') ∧ (lo = a ∨ m.get? lo = some a) ∧
      (∀ s, m.get? s = some a → s = lo) ∧ ∀ k, k ≠ lo → m'.get? k = m.get? k := by
    have hspec := m.lastEntry_spec fun k => k < a
    cases hlast : m.lastEntry fun k => k < a with
    | none =>
      rw [hlast] at hspec
      refine ⟨a,m,rfl,.inl rfl,?_,fun _ _ => rfl⟩
      intro s hs
      have hlt := h.pos s a hs
      exact absurd (hspec s a hs) (by simpa using hlt)
    | some r =>
      rw [hlast] at hspec
      obtain ⟨hr,hra,hmax⟩ := hspec
      have hend : ∀ s, m.get? s = some a → s = r.1 := by
        intro s hs
        have hle := hmax s a hs (by simpa using h.pos s a hs)
        by_contra hne
        have hapart := h.apart s a r.1 r.2 hs hr (by omega)
        have hra' : r.1 < a := of_decide_eq_true hra
        omega
      by_cases hra : r.2 = a
      · refine ⟨r.1,m.erase r.1,if_pos hra,.inr (hra ▸ hr),hend,?_⟩
        intro k hk
        rw [get?_erase,if_neg hk]
      · refine ⟨a,m,if_neg hra,.inl rfl,?_,fun _ _ => rfl⟩
        intro s hs
        rw [hend s hs,hr] at hs
        exact absurd (some.inj hs) hra
  have hlob : lo < b := by
    rcases hlo with rfl | hlo
    · exact hab
    · have hpos := h.pos lo a hlo
      omega
  have hb : m'.get? b = m.get? b := hget b (by omega)
  rw [join,hleft]
  cases hright : m.get? b with
  | none =>
    simp only [hb,hright]
    refine ⟨lo,b,hlo,.inl rfl,hends,fun e he => ?_,fun k v => ?_⟩
    · rw [hright] at he
      cases he
    · rw [get?_insert]
      by_cases hk : k = lo
      · simp [hk,eq_comm]
      · rw [hget k hk]
        by_cases hkb : k = b
        · simp [hkb,hright,show b ≠ lo by omega]
        · simp [hk,hkb]
  | some hi =>
    simp only [hb,hright]
    refine ⟨lo,hi,hlo,.inr hright,hends,fun e he => ?_,fun k v => ?_⟩
    · rw [hright] at he
      exact (some.inj he).symm
    · rw [get?_insert,get?_erase]
      by_cases hk : k = lo
      · simp [hk,eq_comm]
      · rw [hget k hk]
        by_cases hkb : k = b
        · simp [hkb,show b ≠ lo by omega]
        · simp [hk]

section

variable {m' : SortedMap Nat} {lo hi : Nat}

theorem Joined.side (hj : Joined m m' a b lo hi) (h : m.Apart) (hab : a < b)
    (hfree : ∀ x, a ≤ x → x < b → x ∉ m.cover) {k v : Nat} (hlo : k ≠ lo) (hb : k ≠ b)
    (hget : m.get? k = some v) : v < lo ∨ hi < k := by
  have hpos := h.pos k v hget
  have hout : v ≤ a ∨ b ≤ k := by
    by_contra hin
    refine hfree (max a k) (Nat.le_max_left a k) (by omega) (mem_cover.mpr ⟨k,v,hget,?_,?_⟩)
    · exact Nat.le_max_right a k
    · omega
  have hva : v ≠ a := fun heq => hlo (hj.left k (heq ▸ hget))
  have hleft : v ≤ a → v < lo := by
    rcases hj.atLo with rfl | hget'
    · omega
    · have hside := h.side hget' hget hlo
      omega
  have hright : b ≤ k → hi < k := by
    rcases hj.atHi with rfl | hget'
    · omega
    · have hside := h.side hget' hget hb
      omega
  exact hout.imp hleft hright

theorem Joined.bounds (hj : Joined m m' a b lo hi) (h : m.Apart) : lo ≤ a ∧ b ≤ hi := by
  constructor
  · rcases hj.atLo with rfl | hget
    · exact le_rfl
    · exact Nat.le_of_lt (h.pos lo a hget)
  · rcases hj.atHi with rfl | hget
    · exact le_rfl
    · exact Nat.le_of_lt (h.pos b hi hget)

theorem Apart.join (h : m.Apart) (hab : a < b) (hfree : ∀ x, a ≤ x → x < b → x ∉ m.cover) :
    (m.join a b).Apart := by
  obtain ⟨lo,hi,hj⟩ := h.joined hab
  have hbounds := hj.bounds h
  constructor
  · intro k v hk
    rcases (hj.get k v).mp hk with ⟨rfl,rfl⟩ | ⟨_,_,hget⟩
    · omega
    · exact h.pos k v hget
  · intro k v k' v' hk hk' hlt
    rcases (hj.get k v).mp hk with ⟨rfl,rfl⟩ | ⟨hlo,hb,hget⟩ <;>
      rcases (hj.get k' v').mp hk' with ⟨rfl,rfl⟩ | ⟨hlo',hb',hget'⟩
    · omega
    · have hside := hj.side h hab hfree hlo' hb' hget'
      have hpos := h.pos _ _ hget'
      omega
    · have hside := hj.side h hab hfree hlo hb hget
      omega
    · exact h.apart k v k' v' hget hget' hlt

theorem Apart.cover_join (h : m.Apart) (hab : a < b) (hfree : ∀ x, a ≤ x → x < b → x ∉ m.cover) :
    (m.join a b).cover = m.cover ∪ Finset.Ico a b := by
  obtain ⟨lo,hi,hj⟩ := h.joined hab
  have hbounds := hj.bounds h
  ext x
  rw [Finset.mem_union,mem_cover,mem_cover,Finset.mem_Ico]
  constructor
  · intro ⟨k,v,hk,hkx,hxv⟩
    rcases (hj.get k v).mp hk with ⟨rfl,rfl⟩ | ⟨_,_,hget⟩
    · by_cases hxa : x < a
      · have hget : m.get? k = some a := hj.atLo.resolve_left (by omega)
        exact .inl ⟨k,a,hget,hkx,hxa⟩
      · by_cases hxb : x < b
        · exact .inr ⟨by omega,hxb⟩
        · have hget : m.get? b = some v := hj.atHi.resolve_left (by omega)
          exact .inl ⟨b,v,hget,by omega,hxv⟩
    · exact .inl ⟨k,v,hget,hkx,hxv⟩
  · intro hx
    have hjoined : lo ≤ x → x < hi → ∃ s e, (m.join a b).get? s = some e ∧ s ≤ x ∧ x < e :=
      fun hlo hhi => ⟨lo,hi,(hj.get lo hi).mpr (.inl ⟨rfl,rfl⟩),hlo,hhi⟩
    rcases hx with ⟨k,v,hget,hkx,hxv⟩ | hx
    · by_cases hlo : k = lo
      · subst hlo
        rcases hj.atLo with rfl | hlo'
        · have hcovered : k ∈ m.cover := mem_cover.mpr ⟨k,v,hget,le_rfl,h.pos k v hget⟩
          exact absurd hcovered (hfree k le_rfl hab)
        · rw [hlo'] at hget
          cases hget
          exact hjoined hkx (by omega)
      · by_cases hb : k = b
        · subst hb
          have hv := hj.right v hget
          exact hjoined (by omega) (by omega)
        · exact ⟨k,v,(hj.get k v).mpr (.inr ⟨hlo,hb,hget⟩),hkx,hxv⟩
    · exact hjoined (by omega) (by omega)

end

end SortedMap

end Framework
