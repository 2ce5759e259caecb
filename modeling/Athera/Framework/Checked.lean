import Athera.Framework.Action
import Athera.Framework.Word

/-!
# Arithmetic with overflow checks

Word arithmetic that yields nothing where the exact result does not fit, and programs in which such
a step is a panic.
-/

namespace Framework

open List Framework.Action

section

variable {a b : Nat}

def checkedSub (a b : Nat) : Option Nat := if b ≤ a then some (a - b) else none

/-- Checked multiplication: `none` when the exact product does not fit in a word. -/
def checkedMul (a b : Nat) : Option Nat := if a * b < wordRange then some (a * b) else none

theorem checkedMul_of_lt (h : a*b < wordRange) : checkedMul a b = some (a*b) := if_pos h

theorem checkedMul_eq_some {c : Nat} : checkedMul a b = some c ↔ a*b < wordRange ∧ c = a*b := by
  rw [checkedMul]
  split
  next h => simp [h,eq_comm]
  next h => simp [h]

theorem checkedAdd_of_lt (h : a+b < wordRange) : checkedAdd a b = some (a+b) := if_pos h

theorem checkedSub_of_le (h : b ≤ a) : checkedSub a b = some (a-b) := if_pos h

def checkedSum (ns : List Nat) : Option Nat := ns.foldlM checkedAdd 0

theorem foldlM_checkedAdd {ns : List Nat} (h : a+ns.sum < wordRange) :
    ns.foldlM checkedAdd a = some (a+ns.sum) := by
  induction ns generalizing a with
  | nil => rfl
  | cons n ns ih =>
    rw [sum_cons,← Nat.add_assoc] at h
    rw [foldlM_cons,checkedAdd_of_lt (by omega),sum_cons,← Nat.add_assoc]
    exact ih h

theorem checkedSum_of_lt {ns : List Nat} (h : ns.sum < wordRange) : checkedSum ns = some ns.sum := by
  have hfold := @foldlM_checkedAdd 0 ns (by rwa [Nat.zero_add])
  rwa [Nat.zero_add] at hfold

end

section

variable {α β : Type} {l : List α}

theorem mapM_of_some {f : α → Option β} {g : α → β} (h : ∀ x ∈ l, f x = some (g x)) :
    l.mapM f = some (l.map g) := by
  induction l with
  | nil => rfl
  | cons x xs ih =>
    rw [mapM_cons,h x mem_cons_self,ih fun y hy => h y (mem_cons_of_mem _ hy)]
    rfl

theorem anyM_of_some {f : α → Option Bool} {g : α → Bool} (h : ∀ x ∈ l, f x = some (g x)) :
    l.anyM f = some (l.any g) := by
  induction l with
  | nil => rfl
  | cons x xs ih =>
    have hxs := ih fun y hy => h y (mem_cons_of_mem _ hy)
    rw [List.anyM,h x mem_cons_self,any_cons]
    cases g x with
    | true => rfl
    | false => exact hxs

theorem findM_of_some {f : α → Option Bool} {g : α → Bool} (h : ∀ x ∈ l, f x = some (g x)) :
    l.findM? f = some (l.find? g) := by
  induction l with
  | nil => rfl
  | cons x xs ih =>
    have hxs := ih fun y hy => h y (mem_cons_of_mem _ hy)
    rw [List.findM?,h x mem_cons_self,find?_cons]
    cases g x with
    | true => rfl
    | false => exact hxs

end

namespace Action

variable {ε ε' σ α β : Type} {P : σ → Prop} {s : σ} {x y : Action ε σ α}

/-- From this state the checked program `x` does what `y` does, and leaves a state with `P`. -/
structure Exact (P : σ → Prop) (x y : Action ε σ α) (s : σ) : Prop where
  eq : x s = y s
  after : ∀ s', (y s).state = some s' → P s'

theorem Preserves.mapError {f : ε → ε'} (h : Preserves P x) : Preserves P (mapError f x) := by
  intro s s' hs hs'
  apply h s s' hs
  unfold Action.mapError at hs'
  cases hx : x s <;> rw [hx] at hs' <;> exact hs'

theorem Preserves.exact (h : Preserves P y) (hs : P s) : Exact P y y s :=
  ⟨rfl,fun s' hs' => h s s' hs hs'⟩

theorem exact_pure (a : α) (hs : P s) : Exact P (pure a : Action ε σ α) (pure a) s :=
  (preserves_pure a).exact hs

theorem exact_throw (e : ε) (hs : P s) : Exact P (throw e : Action ε σ α) (throw e) s :=
  (preserves_throw e).exact hs

theorem Exact.after_ok (h : Exact P x y s) {a : α} {s' : σ} (hy : y s = .ok a s') : P s' :=
  h.after s' (by rw [hy]; rfl)

variable {f g : α → Action ε σ β}

theorem Exact.bind (hx : Exact P x y s)
    (hf : ∀ a s', y s = .ok a s' → P s' → Exact P (f a) (g a) s') :
    Exact P (x >>= f) (y >>= g) s := by
  change Exact P (Action.bind x f) (Action.bind y g) s
  cases hy : y s with
  | ok a s' =>
    have hrest := hf a s' hy (hx.after_ok hy)
    refine ⟨?_,?_⟩
    · simp only [Action.bind,hx.eq,hy]
      exact hrest.eq
    · simp only [Action.bind,hy]
      exact hrest.after
  | err e s' =>
    refine ⟨by simp only [Action.bind,hx.eq,hy],?_⟩
    have hafter := hx.after
    simp only [Action.bind,hy] at hafter ⊢
    exact hafter
  | panic => exact ⟨by simp only [Action.bind,hx.eq,hy],by simp [Action.bind,hy,Outcome.state]⟩

theorem Exact.onError {c d : Action ε σ Unit} (hx : Exact P x y s)
    (hc : ∀ e s', y s = .err e s' → P s' → Exact P c d s') :
    Exact P (onError x c) (onError y d) s := by
  cases hy : y s with
  | ok a s' =>
    refine ⟨by simp only [Action.onError,hx.eq,hy],?_⟩
    have hafter := hx.after
    simp only [Action.onError,hy] at hafter ⊢
    exact hafter
  | err e s' =>
    have hrest := hc e s' hy (hx.after s' (by rw [hy]; rfl))
    refine ⟨by simp only [Action.onError,hx.eq,hy,hrest.eq],?_⟩
    have hafter := hrest.after
    simp only [Action.onError,hy]
    cases hd : d s' <;> simp only [hd] at hafter ⊢ <;> exact hafter
  | panic => exact ⟨by simp only [Action.onError,hx.eq,hy],by simp [Action.onError,hy,Outcome.state]⟩

theorem Exact.get_bind {f g : σ → Action ε σ α} (h : Exact P (f s) (g s) s) :
    Exact P (get >>= f) (get >>= g) s := ⟨h.eq,h.after⟩

theorem Exact.ite {c : Prop} [Decidable c] {x' y' : Action ε σ α} (h : c → Exact P x y s)
    (h' : ¬ c → Exact P x' y' s) : Exact P (if c then x else x') (if c then y else y') s := by
  by_cases hc : c
  · simpa only [hc,if_true] using h hc
  · simpa only [hc,if_false] using h' hc

theorem Exact.guard {c : Prop} [Decidable c] {e : ε} (hs : P s) (h : ¬ c → Exact P x y s) :
    Exact P (if c then throw e else x) (if c then throw e else y) s :=
  .ite (fun _ => exact_throw e hs) h

variable {o : Option α}

theorem Exact.orThrow_bind {e : ε} (hs : P s) (h : ∀ a, o = some a → Exact P (f a) (g a) s) :
    Exact P (orThrow o e >>= f) (orThrow o e >>= g) s := by
  cases o with
  | none => exact exact_throw e hs
  | some a => exact h a rfl

theorem orPanic_some_bind (a : α) (f : α → Action ε σ β) : (orPanic (some a) >>= f) = f a := rfl

theorem Exact.orPanic_bind {a : α} {z : Action ε σ β}
    (ho : o = some a) (h : Exact P (f a) z s) : Exact P (orPanic o >>= f) z s := by
  subst ho
  exact h

theorem Exact.orPanic_both (h : ∀ a, o = some a → Exact P (f a) (g a) s) :
    Exact P (orPanic o >>= f) (orPanic o >>= g) s := by
  cases o with
  | none => exact ⟨rfl,fun s' hs' => by cases hs'⟩
  | some a => exact h a rfl

theorem exact_forEach {f g : α → Action ε σ Unit} {l : List α}
    (h : ∀ a ∈ l, ∀ s, P s → Exact P (f a) (g a) s) (hs : P s) :
    Exact P (forEach f l) (forEach g l) s := by
  induction l generalizing s with
  | nil => exact exact_pure () hs
  | cons a as ih =>
    exact (h a mem_cons_self s hs).bind fun _ s' _ hs' =>
      ih (fun b hb => h b (mem_cons_of_mem _ hb)) hs'

theorem forEach_append (f : α → Action ε σ Unit) (l l' : List α) :
    forEach f (l++l') = (forEach f l >>= fun _ => forEach f l') := by
  induction l with
  | nil => rfl
  | cons a as ih =>
    change bind (f a) (fun _ => forEach f (as++l')) =
      bind (bind (f a) fun _ => forEach f as) fun _ => forEach f l'
    rw [ih]
    funext s
    simp only [bind]
    cases f a s <;> rfl

theorem forEach_map (f : β → Action ε σ Unit) (g : α → β) (l : List α) :
    forEach f (l.map g) = forEach (fun a => f (g a)) l := by
  induction l with
  | nil => rfl
  | cons a as ih =>
    change bind (f (g a)) (fun _ => forEach f (as.map g)) = _
    rw [ih]
    rfl

theorem forEach_congr {f g : α → Action ε σ Unit} {l : List α} (h : ∀ a ∈ l, f a = g a) :
    forEach f l = forEach g l := by
  induction l with
  | nil => rfl
  | cons a as ih =>
    rw [forEach,forEach,h a mem_cons_self,ih fun b hb => h b (mem_cons_of_mem _ hb)]

end Action

end Framework
