import Athera.Task.Tasks
import Mathlib.Data.Finset.Card
import Mathlib.Data.List.Perm.Subperm

/-!
# Fair scheduling

Between two calls of `select_next` the task table may become any other one; the cursor stays.
-/

namespace Athera

open Framework List

/-- In a round of ascending numbers that starts behind the cursor, `a` comes before `b`. -/
def Precedes : Option Nat → Nat → Nat → Prop
  | none, a, b => a < b
  | some x, a, b => x < a ∧ b ≤ x ∨ a < b ∧ (x < a ↔ x < b)

theorem le_of_head? {l : List Nat} {t x : Nat} (h : l.Pairwise (· < ·)) (ht : l.head? = some t)
    (hx : x ∈ l) : t ≤ x := by
  obtain ⟨r,rfl⟩ := head?_eq_some_iff.mp ht
  rcases mem_cons.mp hx with rfl | hx
  · exact le_rfl
  · exact ((pairwise_cons.mp h).1 x hx).le

namespace Tasks

variable {ts : Tasks} {t : Nat}

def runnable (ts : Tasks) : List Nat :=
  (ts.map.entries.filter fun e => e.2.status.isRunnable).map Prod.fst

theorem runnable_sorted (ts : Tasks) : ts.runnable.Pairwise (· < ·) :=
  pairwise_map.mpr (ts.map.sorted.filter _)

theorem nextKey_eq (ts : Tasks) (bound : Option Nat) :
    ts.map.nextKey bound (fun t => t.status.isRunnable) =
      (ts.runnable.filter fun k => ∀ b ∈ bound, b < k).head? := by
  rw [SortedMap.nextKey,runnable,filter_map]
  simp [Bool.decide_and]

theorem nextRunnable_first (h : ts.nextRunnable = some t) :
    t ∈ ts.runnable ∧ ∀ u ∈ ts.runnable, ¬ Precedes ts.cursor u t := by
  have hfirst : ts.map.nextKey none (fun t => t.status.isRunnable) = some t →
      t ∈ ts.runnable ∧ ∀ u ∈ ts.runnable, t ≤ u := by
    simp only [nextKey_eq,Option.not_mem_none,false_imp_iff,implies_true,decide_true,filter_true]
    exact fun ht => ⟨mem_of_mem_head? ht,fun u => le_of_head? ts.runnable_sorted ht⟩
  rw [nextRunnable] at h
  cases hcursor : ts.cursor with
  | none =>
    rw [hcursor] at h
    exact ⟨(hfirst h).1,fun u hu => not_lt.mpr ((hfirst h).2 u hu)⟩
  | some c =>
    simp only [hcursor] at h
    rw [Option.or_eq_some_iff,nextKey_eq] at h
    simp only [Option.mem_some_iff,forall_eq'] at h
    rcases h with ht | ⟨hnone,ht⟩
    · obtain ⟨hmem,hct⟩ := mem_filter.mp (mem_of_mem_head? ht)
      refine ⟨hmem,fun u hu hlt => ?_⟩
      have hle : c < u → t ≤ u := fun hcu =>
        le_of_head? (ts.runnable_sorted.filter _) ht (mem_filter.mpr ⟨hu,decide_eq_true hcu⟩)
      simp only [Precedes,decide_eq_true_eq] at hlt hct
      omega
    · refine ⟨(hfirst ht).1,fun u hu hlt => ?_⟩
      have hle := (hfirst ht).2 u hu
      have hcu : ¬ c < u := by simpa using filter_eq_nil_iff.mp (head?_eq_none_iff.mp hnone) u hu
      simp only [Precedes] at hlt
      omega

theorem exists_nextRunnable (h : t ∈ ts.runnable) : ∃ u, ts.nextRunnable = some u := by
  have hsome : (ts.map.nextKey none fun t => t.status.isRunnable).isSome := by
    simp only [nextKey_eq,Option.not_mem_none,false_imp_iff,implies_true,decide_true,filter_true]
    exact isSome_head?.mpr (ne_nil_of_mem h)
  rw [← Option.isSome_iff_exists,nextRunnable]
  split
  · rw [Option.isSome_or,hsome,Bool.or_true]
  · exact hsome

end Tasks

section

variable {x c t u : Nat}

theorem Precedes.trans (h : Precedes (some x) c t) (h' : Precedes (some x) t u) :
    Precedes (some x) c u := by
  simp only [Precedes] at *
  omega

theorem Precedes.ne (h : Precedes (some x) t u) : t ≠ u := by
  simp only [Precedes] at h
  omega

end

namespace Processes

variable {p : Processes}

theorem modify_eq_self {m : SortedMap Task} {k : Nat} {f : Task → Task}
    (h : ∀ v, m.get? k = some v → f v = v) : m.modify k f = m := by
  obtain ⟨es,hs⟩ := m
  simp only [SortedMap.modify,SortedMap.mk.injEq]
  refine (map_congr_left fun e he => ?_).trans (map_id es)
  split
  next hk => rw [h e.2 (hk ▸ SortedMap.get?_of_mem he),id]
  next => rfl

/-- A call marks a task as runnable that is, so the table stays as it was. -/
theorem selectNext_eq {tid : Nat} (h : p.tasks.nextRunnable = some tid) :
    ∃ ctx, p.selectNext = some ((tid, ctx), ⟨⟨p.tasks.map,some tid⟩,some tid⟩) := by
  obtain ⟨⟨k,task⟩,hentry,rfl⟩ := mem_map.mp (Tasks.nextRunnable_first h).1
  obtain ⟨hentry,hrun⟩ := mem_filter.mp hentry
  have hget : p.tasks.map.get? k = some task := SortedMap.get?_of_mem hentry
  have hsame : p.tasks.map.modify k Task.markRunnable = p.tasks.map := by
    refine modify_eq_self fun v hv => ?_
    obtain rfl : task = v := Option.some.inj (hget.symm.trans hv)
    cases task with
    | mk parent children status =>
      cases status with
      | running => rfl
      | _ => cases hrun
  rw [selectNext,h]
  simp [hget,hsame]

/-- The table before a call. -/
def change (p : Processes) (f : SortedMap Task → SortedMap Task) : Processes :=
  { p with tasks := { p.tasks with map := f p.tasks.map } }

/-- Calls of `select_next`, each after a change of the table: the tasks that are runnable then, and
the one that is selected. -/
def calls : List (SortedMap Task → SortedMap Task) → Processes → List (List Nat × Option Nat)
  | [], _ => []
  | f :: fs, p =>
    let r := (p.change f).selectNext
    ((p.change f).tasks.runnable, r.map fun r => r.1.1) ::
      calls fs ((r.map Prod.snd).getD (p.change f))

theorem length_calls (changes : List (SortedMap Task → SortedMap Task)) (p : Processes) :
    (calls changes p).length = changes.length := by
  induction changes generalizing p with
  | nil => rfl
  | cons f changes ih => rw [calls,length_cons,length_cons,ih]

theorem calls_cons (changes : List (SortedMap Task → SortedMap Task)) {f : SortedMap Task → SortedMap Task}
    {tid : Nat} (h : tid ∈ (p.change f).tasks.runnable) : ∃ t, t ∈ (p.change f).tasks.runnable ∧
      (∀ u ∈ (p.change f).tasks.runnable, ¬ Precedes p.tasks.cursor u t) ∧
      calls (f::changes) p = ((p.change f).tasks.runnable, some t) ::
        calls changes ⟨⟨(p.change f).tasks.map,some t⟩,some t⟩ := by
  obtain ⟨t,ht⟩ := Tasks.exists_nextRunnable h
  obtain ⟨ctx,hsel⟩ := selectNext_eq ht
  obtain ⟨hmem,hfirst⟩ := Tasks.nextRunnable_first ht
  refine ⟨t,hmem,hfirst,?_⟩
  simp only [calls,hsel]
  rfl

/-- Tasks that are selected while another one is waiting come in the order of a round. -/
theorem calls_waiting {x : Nat} (changes : List (SortedMap Task → SortedMap Task)) (p : Processes)
    (hx : ∀ e ∈ calls changes p, x ∈ e.1) (hnot : some x ∉ (calls changes p).map Prod.snd) :
    ∃ ts : List Nat, (calls changes p).map Prod.snd = ts.map some ∧ ts.Pairwise (Precedes (some x)) ∧
      (∀ t ∈ ts, ∀ c, p.tasks.cursor = some c → c ≠ x → Precedes (some x) c t) ∧
      ∀ t ∈ ts, t ∈ (calls changes p).flatMap Prod.fst := by
  induction changes generalizing p with
  | nil => exact ⟨[],rfl,.nil,by simp,by simp⟩
  | cons f changes ih =>
    have hin : x ∈ (p.change f).tasks.runnable := hx (_, _) mem_cons_self
    obtain ⟨t,hmem,hfirst,hcalls⟩ := calls_cons changes hin
    rw [hcalls] at hx hnot ⊢
    have htx : t ≠ x := fun he => hnot (he ▸ mem_cons_self)
    obtain ⟨ts,hts,hpair,hfrom,hin'⟩ := ih _ (fun e he => hx e (mem_cons_of_mem _ he))
      fun hin => hnot (mem_cons_of_mem _ hin)
    have hafter : ∀ u ∈ ts, Precedes (some x) t u := fun u hu => hfrom u hu t rfl htx
    have hstep : ∀ c, p.tasks.cursor = some c → c ≠ x → Precedes (some x) c t := by
      intro c hc hcx
      -- where `x` is not before `t`, `t` is on the way from the cursor to `x`
      have hnot := hfirst x hin
      simp only [hc,Precedes] at hnot ⊢
      omega
    refine ⟨t::ts,by rw [map_cons,hts]; rfl,pairwise_cons.mpr ⟨hafter,hpair⟩,?_,?_⟩
    · intro u hu c hc hcx
      rcases mem_cons.mp hu with rfl | hu
      · exact hstep c hc hcx
      · exact (hstep c hc hcx).trans (hafter u hu)
    · intro u hu
      rw [flatMap_cons,mem_append]
      rcases mem_cons.mp hu with rfl | hu
      · exact .inl hmem
      · exact .inr (hin' u hu)

theorem selected_of_card {x : Nat} {changes : List (SortedMap Task → SortedMap Task)}
    (hx : ∀ e ∈ calls changes p, x ∈ e.1)
    (hcard : (insert x ((calls changes p).flatMap Prod.fst).toFinset).card ≤ changes.length) :
    some x ∈ (calls changes p).map Prod.snd := by
  by_contra hnot
  obtain ⟨ts,hts,hpair,_,hmem⟩ := calls_waiting changes p hx hnot
  have hlen : ts.length = changes.length := by
    rw [← length_calls changes p,← length_map Prod.snd,hts,length_map]
  have hx' : x ∉ ts.toFinset := fun hin =>
    hnot (hts ▸ mem_map_of_mem (mem_toFinset.mp hin))
  have hsub : insert x ts.toFinset ⊆ insert x ((calls changes p).flatMap Prod.fst).toFinset :=
    Finset.insert_subset_insert x fun t ht => mem_toFinset.mpr (hmem t (mem_toFinset.mp ht))
  have hle := Finset.card_le_card hsub
  rw [Finset.card_insert_of_notMem hx',toFinset_card_of_nodup (hpair.imp fun h => h.ne)] at hle
  omega

/-- Without changes each call selects the first task of the round that starts behind the last one. -/
theorem calls_unchanged (n : Nat) (p : Processes) (h : p.tasks.runnable ≠ []) :
    (∀ e ∈ calls (List.replicate n id) p, e.1 = p.tasks.runnable) ∧
      (p.tasks.cursor::(calls (List.replicate n id) p).map Prod.snd).IsChain
        fun c t => ∃ tid ∈ p.tasks.runnable, t = some tid ∧ ∀ u ∈ p.tasks.runnable, ¬ Precedes c u tid := by
  induction n generalizing p with
  | zero => exact ⟨by simp [calls],.singleton _⟩
  | succ n ih =>
    obtain ⟨x,hx⟩ := exists_mem_of_ne_nil _ h
    obtain ⟨t,hmem,hfirst,hcalls⟩ := calls_cons (f := id) (List.replicate n id) hx
    obtain ⟨hsame,hchain⟩ := ih ⟨⟨p.tasks.map,some t⟩,some t⟩ h
    rw [replicate_succ,hcalls]
    refine ⟨?_,.cons_cons ⟨t,hmem,rfl,hfirst⟩ hchain⟩
    intro e he
    rcases mem_cons.mp he with rfl | he
    · rfl
    · exact hsame e he

/-- As many calls as there are runnable tasks select each of them once, in ascending order from the
cursor on and round. A task that stays runnable is selected within a round of all that are runnable
meanwhile. -/
theorem scheduling_fair (p : Processes) (h : p.tasks.runnable ≠ []) :
    (let selected := (calls (List.replicate p.tasks.runnable.length id) p).map Prod.snd
    selected.Perm (p.tasks.runnable.map some) ∧ (p.tasks.cursor :: selected).IsChain
      fun c t => ∃ tid ∈ p.tasks.runnable, t = some tid ∧ ∀ u ∈ p.tasks.runnable, ¬ Precedes c u tid) ∧
    ∀ changes x, (∀ e ∈ calls changes p, x ∈ e.1) →
      (insert x ((calls changes p).flatMap Prod.fst).toFinset).card ≤ changes.length →
      some x ∈ (calls changes p).map Prod.snd := by
  obtain ⟨hsame,hchain⟩ := calls_unchanged p.tasks.runnable.length p h
  refine ⟨⟨?_,hchain⟩,fun _ _ => selected_of_card⟩
  have hsub : p.tasks.runnable.map some ⊆
      (calls (List.replicate p.tasks.runnable.length id) p).map Prod.snd := by
    intro t ht
    obtain ⟨x,hx,rfl⟩ := mem_map.mp ht
    refine selected_of_card (fun e he => hsame e he ▸ hx) ?_
    rw [length_replicate]
    refine (Finset.card_le_card fun u hu => ?_).trans (toFinset_card_le p.tasks.runnable)
    rw [Finset.mem_insert,mem_toFinset,mem_flatMap] at hu
    rcases hu with rfl | ⟨e,he,hu⟩
    · exact mem_toFinset.mpr hx
    · exact mem_toFinset.mpr (hsame e he ▸ hu)
  have hnodup : p.tasks.runnable.Nodup := p.tasks.runnable_sorted.imp fun h => h.ne
  refine ((subperm_of_subset (hnodup.map (Option.some_injective _)) hsub).perm_of_length_le ?_).symm
  rw [length_map,length_calls,length_replicate,length_map]

def threeTasks : Processes :=
  let task (status : TaskStatus) : Task := ⟨none,[],status,[],⟨Vector.replicate 32 0,0,0,0⟩,0,[]⟩
  ⟨⟨⟨[(2, task .running),(5, task .waiting),(7, task .running)],by simp⟩,some 6⟩,none⟩

/-- Tasks 2 and 7 are runnable, and the cursor is at a task that is gone. -/
theorem scheduling_fair_two : threeTasks.tasks.runnable = [2,7] ∧
    ((calls [id,id] threeTasks).map Prod.snd).Perm [some 2,some 7] ∧
    (calls [id,id] threeTasks).map Prod.snd = [some 7,some 2] :=
  ⟨rfl,(scheduling_fair threeTasks (by decide)).1.1,rfl⟩

end Processes

end Athera
