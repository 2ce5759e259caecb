import Mathlib.Tactic.Basic

/-!
# Runs of a partial machine

A machine is a step function that may fault. A property that every step keeps holds at the end of
every run.
-/

namespace Framework

open List Option

variable {σ ο : Type*} (step : σ → ο → Option σ)

def run : List ο → σ → Option σ
  | [], s => some s
  | o :: os, s => (step s o).bind (run os)

def EachStep (P : σ → ο → Prop) : List ο → σ → Prop
  | [], _ => True
  | o :: os, s => P s o ∧ ∀ s' ∈ step s o, EachStep P os s'

instance decidableEachStep (P : σ → ο → Prop) [∀ s o, Decidable (P s o)] :
    ∀ os s, Decidable (EachStep step P os s)
  | [], _ => isTrue trivial
  | o :: os, s =>
    have : Decidable (∀ s' ∈ step s o, EachStep step P os s') :=
      match h : step s o with
      | none => isTrue fun _ hs => by simp at hs
      | some t =>
        match decidableEachStep P os t with
        | isTrue ht => isTrue fun _ hs => some.inj hs ▸ ht
        | isFalse ht => isFalse fun hall => ht (hall t rfl)
    inferInstanceAs (Decidable (_ ∧ _))

variable {step}

variable {os : List ο} {s s' : σ}

theorem run_cons {o : ο} (h : run step (o::os) s = some s') :
    ∃ t, step s o = some t ∧ run step os t = some s' := bind_eq_some_iff.mp h

variable {P : σ → ο → Prop} {I : σ → Prop}

theorem run_invariant_of (hstep : ∀ s o s', I s → P s o → step s o = some s' → I s')
    (hs : I s) (hP : EachStep step P os s)
    (hrun : run step os s = some s') : I s' := by
  induction os generalizing s with
  | nil =>
    obtain rfl : s = s' := some.inj hrun
    exact hs
  | cons o os ih =>
    obtain ⟨t,ht,hrest⟩ := run_cons hrun
    exact ih (hstep s o t hs hP.1 ht) (hP.2 t ht) hrest

theorem run_total_of (hstep : ∀ s o, I s → P s o → ∃ s', step s o = some s' ∧ I s')
    (hs : I s) (hP : EachStep step P os s) : ∃ s', run step os s = some s' ∧ I s' := by
  induction os generalizing s with
  | nil => exact ⟨s,rfl,hs⟩
  | cons o os ih =>
    obtain ⟨t,ht,hI⟩ := hstep s o hs hP.1
    obtain ⟨s',hrun,hs'⟩ := ih hI (hP.2 t ht)
    refine ⟨s',?_,hs'⟩
    rw [run,ht]
    exact hrun

theorem eachStep_mono {Q : σ → ο → Prop}
    (hPQ : ∀ s o, o ∈ os → P s o → Q s o) (h : EachStep step P os s) : EachStep step Q os s := by
  induction os generalizing s with
  | nil => trivial
  | cons o os ih =>
    refine ⟨hPQ s o mem_cons_self h.1,fun t ht => ?_⟩
    exact ih (fun s o' ho' => hPQ s o' (mem_cons_of_mem _ ho')) (h.2 t ht)

theorem eachStep_of_mem (h : ∀ o ∈ os, ∀ s, P s o) (s : σ) : EachStep step P os s := by
  induction os generalizing s with
  | nil => trivial
  | cons o os ih =>
    exact ⟨h o mem_cons_self s,fun t _ => ih (fun o' ho' => h o' (mem_cons_of_mem _ ho')) t⟩

theorem eachStep_of_forall (h : ∀ s o, P s o) (os : List ο) (s : σ) :
    EachStep step P os s := eachStep_of_mem (fun o _ s => h s o) s

theorem run_invariant (hstep : ∀ s o s', I s → step s o = some s' → I s')
    (hs : I s) (hrun : run step os s = some s') : I s' :=
  run_invariant_of (P := fun _ _ => True) (fun s o s' h _ => hstep s o s' h) hs
    (eachStep_of_forall (fun _ _ => trivial) os s) hrun

/-- Where a step outside of the side condition `P` breaks a property that the invariant implies, a run
whose steps meet `R` has the property all the way exactly when they meet `P`. -/
theorem forall_prefix_iff_eachStep_of {Q : σ → Prop} {R : σ → ο → Prop}
    (hstep : ∀ s o s', I s → R s o → P s o → step s o = some s' → I s') (hQ : ∀ s, I s → Q s)
    (hbad : ∀ s o s', I s → ¬ P s o → step s o = some s' → ¬ Q s')
    (hs : I s) (hR : EachStep step R os s) (hrun : run step os s = some s') :
    (∀ pre, pre <+: os → ∀ t, run step pre s = some t → Q t) ↔ EachStep step P os s := by
  induction os generalizing s with
  | nil =>
    refine ⟨fun _ => trivial,fun _ pre hpre t ht => ?_⟩
    rw [prefix_nil.mp hpre] at ht
    obtain rfl : s = t := some.inj ht
    exact hQ s hs
  | cons o os ih =>
    obtain ⟨u,hu,hrest⟩ := run_cons hrun
    have hcons : ∀ pre t, run step pre u = some t → run step (o::pre) s = some t := by
      intro pre t ht
      rw [run,hu]
      exact ht
    constructor
    · intro h
      have hP : P s o := Classical.byContradiction fun hP => hbad s o u hs hP hu
        (h [o] (cons_prefix_cons.mpr ⟨rfl, List.nil_prefix⟩) u (hcons [] u rfl))
      refine ⟨hP,fun v hv => ?_⟩
      obtain rfl : u = v := some.inj (hu.symm.trans hv)
      refine (ih (hstep s o u hs hR.1 hP hu) (hR.2 u hu) hrest).mp fun pre hpre t ht => ?_
      exact h (o::pre) (cons_prefix_cons.mpr ⟨rfl,hpre⟩) t (hcons pre t ht)
    · intro h pre hpre t ht
      cases pre with
      | nil =>
        obtain rfl : s = t := some.inj ht
        exact hQ s hs
      | cons o' pre =>
        obtain ⟨rfl,hrest'⟩ := cons_prefix_cons.mp hpre
        obtain ⟨v,hv,ht⟩ := run_cons ht
        obtain rfl : u = v := some.inj (hu.symm.trans hv)
        exact (ih (hstep s _ u hs hR.1 h.1 hu) (hR.2 u hu) hrest).mpr (h.2 u hu) pre hrest' t ht

theorem forall_prefix_iff_eachStep {Q : σ → Prop}
    (hstep : ∀ s o s', I s → P s o → step s o = some s' → I s') (hQ : ∀ s, I s → Q s)
    (hbad : ∀ s o s', I s → ¬ P s o → step s o = some s' → ¬ Q s')
    (hs : I s) (hrun : run step os s = some s') :
    (∀ pre, pre <+: os → ∀ t, run step pre s = some t → Q t) ↔ EachStep step P os s :=
  forall_prefix_iff_eachStep_of (R := fun _ _ => True) (fun s o s' h _ => hstep s o s' h) hQ hbad hs
    (eachStep_of_forall (fun _ _ => trivial) os s) hrun

end Framework
