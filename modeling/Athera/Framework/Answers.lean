import Mathlib.Tactic.Basic

/-!
# Machines that answer

A machine takes a request in a state, gives an answer and goes on in the next state.
-/

namespace Framework

variable {σ τ ι ο : Type*} (step : σ → ι → ο × σ) (step' : τ → ι → ο × τ)

def after : σ → List ι → σ
  | s, [] => s
  | s, i :: is => after (step s i).2 is

def answers : σ → List ι → List ο
  | _, [] => []
  | s, i :: is => (step s i).1 :: answers (step s i).2 is

variable {step step'}

theorem after_append (s : σ) (is js : List ι) :
    after step s (is++js) = after step (after step s is) js := by
  induction is generalizing s with
  | nil => rfl
  | cons i is ih => exact ih (step s i).2

theorem answers_invariant {I : σ → Prop} {Q : ο → Prop}
    (hstep : ∀ s i, I s → Q (step s i).1 ∧ I (step s i).2) {s : σ} (hs : I s) (is : List ι) :
    I (after step s is) ∧ ∀ o ∈ answers step s is, Q o := by
  induction is generalizing s with
  | nil => exact ⟨hs,fun o ho => absurd ho List.not_mem_nil⟩
  | cons i is ih =>
    obtain ⟨hq,hs'⟩ := hstep s i hs
    obtain ⟨hend,hrest⟩ := ih hs'
    refine ⟨hend,fun o ho => ?_⟩
    rcases List.mem_cons.mp ho with rfl | ho
    · exact hq
    · exact hrest o ho

theorem answers_simulation {R : σ → τ → Prop}
    (hstep : ∀ s t i, R s t → (step s i).1 = (step' t i).1 ∧ R (step s i).2 (step' t i).2)
    {s : σ} {t : τ} (h : R s t) (is : List ι) :
    answers step s is = answers step' t is ∧ R (after step s is) (after step' t is) := by
  induction is generalizing s t with
  | nil => exact ⟨rfl,h⟩
  | cons i is ih =>
    obtain ⟨hans,hnext⟩ := hstep s t i h
    obtain ⟨hrest,hend⟩ := ih hnext
    refine ⟨?_,hend⟩
    rw [answers,answers,hans,hrest]

end Framework
