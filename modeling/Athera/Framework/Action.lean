import Mathlib.Logic.Basic

/-!
# Actions that may fail and keep their effects

An action ends in a value, in an error that leaves the changes made so far in place, or in a panic.
The weakest precondition `wp` excludes panics.
-/

namespace Framework

inductive Outcome (ε σ α : Type) where
  | ok (a : α) (s : σ)
  | err (e : ε) (s : σ)
  | panic

/-- The state that is left, without one after a panic. -/
def Outcome.state {ε σ α : Type} : Outcome ε σ α → Option σ
  | .ok _ s => some s
  | .err _ s => some s
  | .panic => none

def Outcome.result {ε σ α : Type} : Outcome ε σ α → Option (Except ε α)
  | .ok a _ => some (.ok a)
  | .err e _ => some (.error e)
  | .panic => none

theorem Outcome.exists_ok {ε σ α : Type} {o : Outcome ε σ α} {a : α}
    (h : o.result = some (.ok a)) : ∃ s, o = .ok a s ∧ o.state = some s := by
  cases o with
  | ok b s =>
    obtain rfl : b = a := by simpa [result] using h
    exact ⟨s,rfl,rfl⟩
  | err e s => simp [result] at h
  | panic => simp [result] at h

/-- A test of the value and the state of a success. -/
def Outcome.okAnd {ε σ α : Type} (p : α → σ → Bool) : Outcome ε σ α → Bool
  | .ok a s => p a s
  | .err _ _ => false
  | .panic => false

theorem Outcome.exists_okAnd {ε σ α : Type} {p : α → σ → Bool} {o : Outcome ε σ α}
    (h : o.okAnd p = true) : ∃ a s, o = .ok a s ∧ p a s = true := by
  cases o with
  | ok a s => exact ⟨a,s,rfl,h⟩
  | err e s => cases h
  | panic => cases h

def Action (ε σ α : Type) : Type := σ → Outcome ε σ α

namespace Action

variable {ε ε' σ α β : Type}

def bind (x : Action ε σ α) (f : α → Action ε σ β) : Action ε σ β := fun s =>
  match x s with
  | .ok a s' => f a s'
  | .err e s' => .err e s'
  | .panic => .panic

instance : Monad (Action ε σ) where
  pure a := fun s => .ok a s
  bind := bind

instance : LawfulMonad (Action ε σ) := by
  refine .mk' _ (fun x => ?_) (fun _ _ => rfl) fun x f g => ?_
  · funext s
    change bind x (fun a => pure a) s = x s
    unfold bind
    cases x s <;> rfl
  · funext s
    change bind (bind x f) g s = bind x (fun a => bind (f a) g) s
    unfold bind
    cases x s <;> rfl

def get : Action ε σ σ := fun s => .ok s s

def modify (f : σ → σ) : Action ε σ Unit := fun s => .ok () (f s)

def throw (e : ε) : Action ε σ α := fun s => .err e s

def panic : Action ε σ α := fun _ => .panic

def orThrow (o : Option α) (e : ε) : Action ε σ α :=
  match o with
  | some a => pure a
  | none => throw e

def orPanic (o : Option α) : Action ε σ α :=
  match o with
  | some a => pure a
  | none => panic

def onError (x : Action ε σ α) (cleanup : Action ε σ Unit) : Action ε σ α := fun s =>
  match x s with
  | .ok a s' => .ok a s'
  | .err e s' =>
    match cleanup s' with
    | .ok _ s'' => .err e s''
    | .err e' s'' => .err e' s''
    | .panic => .panic
  | .panic => .panic

def mapError (f : ε → ε') (x : Action ε σ α) : Action ε' σ α := fun s =>
  match x s with
  | .ok a s' => .ok a s'
  | .err e s' => .err (f e) s'
  | .panic => .panic

def forEach (f : α → Action ε σ Unit) : List α → Action ε σ Unit
  | [] => pure ()
  | a :: as => bind (f a) fun _ => forEach f as

def wp (x : Action ε σ α) (Q : α → σ → Prop) (E : ε → σ → Prop) (s : σ) : Prop :=
  match x s with
  | .ok a s' => Q a s'
  | .err e s' => E e s'
  | .panic => False

/-- As `wp`, with a proposition that stands for a panic. -/
def wpp (P : Prop) (x : Action ε σ α) (Q : α → σ → Prop) (E : ε → σ → Prop) (s : σ) : Prop :=
  match x s with
  | .ok a s' => Q a s'
  | .err e s' => E e s'
  | .panic => P

variable {x : Action ε σ α} {Q : α → σ → Prop} {E : ε → σ → Prop} {s : σ}

variable {E' : ε → σ → Prop}

section

variable {P : Prop} {Q' : α → σ → Prop} {a : α} {e : ε} {s' : σ}

section

variable (h : wpp P x Q E s) (hQ : ∀ a s', Q a s' → Q' a s')
include h hQ

theorem wpp_imp {P' : Prop} (hE : ∀ e s', E e s' → E' e s') (hP : P → P') : wpp P' x Q' E' s := by
  unfold wpp at h ⊢
  cases hx : x s with
  | ok a s' =>
    rw [hx] at h
    exact hQ a s' h
  | err e s' =>
    rw [hx] at h
    exact hE e s' h
  | panic =>
    rw [hx] at h
    exact hP h

theorem wpp_mono (hE : ∀ e s', E e s' → E' e s') : wpp P x Q' E' s := wpp_imp h hQ hE id

theorem wpp_weaken : wpp P x Q' E s :=
  wpp_mono h hQ fun _ _ he => he

end

/-- The postcondition may use how the action has run. -/
theorem wpp_run (h : wpp P x Q E s) : wpp P x (fun a s' => x s = .ok a s' ∧ Q a s') E s := by
  unfold wpp at h ⊢
  cases hx : x s with
  | ok a s' =>
    rw [hx] at h
    exact ⟨rfl,h⟩
  | err e s' =>
    rw [hx] at h
    exact h
  | panic =>
    rw [hx] at h
    exact h

theorem wpp_of_wp (h : wp x Q E s) : wpp P x Q E s :=
  wpp_imp (P := False) h (fun _ _ hq => hq) (fun _ _ he => he) False.elim

theorem wpp_of_ok (h : wpp P x Q E s) (hx : x s = .ok a s') : Q a s' := by
  simpa only [wpp,hx] using h

theorem wpp_of_err (h : wpp P x Q E s) (hx : x s = .err e s') : E e s' := by
  simpa only [wpp,hx] using h

@[simp] theorem wpp_pure (a : α) : wpp P (pure a : Action ε σ α) Q E s ↔ Q a s := Iff.rfl

@[simp] theorem wpp_bind (f : α → Action ε σ β) {Q : β → σ → Prop} :
    wpp P (x >>= f) Q E s ↔ wpp P x (fun a s' => wpp P (f a) Q E s') E s := by
  change wpp P (bind x f) Q E s ↔ _
  unfold wpp bind
  cases x s <;> rfl

@[simp] theorem wpp_onError (cleanup : Action ε σ Unit) : wpp P (onError x cleanup) Q E s ↔
      wpp P x Q (fun e s' => wpp P cleanup (fun _ s'' => E e s'') E s') s := by
  unfold wpp onError
  cases x s with
  | ok a s' => rfl
  | err e s' => cases hc : cleanup s' <;> simp [hc]
  | panic => rfl

theorem wpp_orPanic {o : Option α} :
    wpp P (orPanic o : Action ε σ α) Q E s ↔ (∀ a, o = some a → Q a s) ∧ (o = none → P) := by
  cases o with
  | none => simp [orPanic,panic,wpp]
  | some a => simp [orPanic]

end

@[simp] theorem wp_pure (a : α) : wp (pure a : Action ε σ α) Q E s ↔ Q a s := Iff.rfl

@[simp] theorem wp_get {Q : σ → σ → Prop} : wp (get : Action ε σ σ) Q E s ↔ Q s s := Iff.rfl

@[simp] theorem wp_modify (f : σ → σ) {Q : Unit → σ → Prop} :
    wp (modify f : Action ε σ Unit) Q E s ↔ Q () (f s) := Iff.rfl

@[simp] theorem wp_throw (e : ε) : wp (throw e : Action ε σ α) Q E s ↔ E e s := Iff.rfl

@[simp] theorem wp_bind (f : α → Action ε σ β) {Q : β → σ → Prop} :
    wp (x >>= f) Q E s ↔ wp x (fun a s' => wp (f a) Q E s') E s := wpp_bind f

@[simp] theorem wp_onError (cleanup : Action ε σ Unit) :
    wp (onError x cleanup) Q E s ↔ wp x Q (fun e s' => wp cleanup (fun _ s'' => E e s'') E s') s :=
  wpp_onError cleanup

@[simp] theorem wp_mapError (f : ε → ε') {E : ε' → σ → Prop} :
    wp (mapError f x) Q E s ↔ wp x Q (fun e s' => E (f e) s') s := by
  unfold wp mapError
  cases x s <;> rfl

@[simp] theorem wp_orThrow (o : Option α) (e : ε) :
    wp (orThrow o e : Action ε σ α) Q E s ↔ (∀ a, o = some a → Q a s) ∧ (o = none → E e s) := by
  cases o <;> simp [orThrow]

@[simp] theorem wp_ite {c : Prop} [Decidable c] {y : Action ε σ α} :
    wp (if c then x else y) Q E s ↔ (c → wp x Q E s) ∧ (¬ c → wp y Q E s) := by
  by_cases h : c <;> simp [h]

theorem wp_guard {c : Prop} [Decidable c] {e : ε} (he : E e s) (h : ¬c → wp x Q E s) :
    wp (if c then throw e else x) Q E s := wp_ite.mpr ⟨fun _ => he,h⟩

theorem wp_orPanic {o : Option α} :
    wp (orPanic o : Action ε σ α) Q E s ↔ ∃ a, o = some a ∧ Q a s := by
  cases o with
  | none => simp [orPanic,panic,wp]
  | some a => simp [orPanic]

variable {Q' : α → σ → Prop}

theorem wp_mono (h : wp x Q E s)
    (hQ : ∀ a s', Q a s' → Q' a s') (hE : ∀ e s', E e s' → E' e s') : wp x Q' E' s :=
  wpp_mono (P := False) h hQ hE

variable {a : α} {s' : σ}

theorem wp_weaken (h : wp x Q E s) (hQ : ∀ a s', Q a s' → Q' a s') : wp x Q' E s :=
  wp_mono h hQ fun _ _ he => he

theorem wp_of_ok (h : wp x Q E s) (hx : x s = .ok a s') : Q a s' := wpp_of_ok (P := False) h hx

variable {e : ε}

theorem wp_of_err (h : wp x Q E s) (hx : x s = .err e s') : E e s' := wpp_of_err (P := False) h hx

theorem state_of_wp {P : σ → Prop} (h : wp x (fun _ => P) (fun _ => P) s) :
    ∃ s', (x s).state = some s' ∧ P s' := by
  unfold wp at h
  cases hx : x s with
  | ok a s' =>
    rw [hx] at h
    exact ⟨s',rfl,h⟩
  | err e s' =>
    rw [hx] at h
    exact ⟨s',rfl,h⟩
  | panic =>
    rw [hx] at h
    exact absurd h id

/-- What holds if the action ends in a value; errors and panics are left open. -/
def wlp (x : Action ε σ α) (Q : α → σ → Prop) (s : σ) : Prop := ∀ a s', x s = .ok a s' → Q a s'

instance [∀ a s', Decidable (Q a s')] : Decidable (wlp x Q s) :=
  match h : x s with
  | .ok a s' => decidable_of_iff (Q a s')
    ⟨fun hq b t hb => by cases h.symm.trans hb; exact hq,fun hw => hw a s' h⟩
  | .err _ _ => isTrue fun b t hb => nomatch h.symm.trans hb
  | .panic => isTrue fun b t hb => nomatch h.symm.trans hb

theorem wlp_of_wp (h : wp x Q E s) : wlp x Q s := fun _ _ hx => wp_of_ok h hx

theorem wlp_mono (h : wlp x Q s) (hQ : ∀ a s', Q a s' → Q' a s') :
    wlp x Q' s := fun a s' hx => hQ a s' (h a s' hx)

theorem wlp_true : wlp x (fun _ _ => True) s := fun _ _ _ => trivial

@[simp] theorem wlp_pure (a : α) : wlp (pure a : Action ε σ α) Q s ↔ Q a s := by
  constructor
  · exact fun h => h a s rfl
  · rintro h _ _ ⟨⟩
    exact h

@[simp] theorem wlp_bind (f : α → Action ε σ β) {Q : β → σ → Prop} :
    wlp (x >>= f) Q s ↔ wlp x (fun a s' => wlp (f a) Q s') s := by
  change wlp (bind x f) Q s ↔ _
  unfold wlp bind
  cases x s <;> simp

@[simp] theorem wlp_onError (cleanup : Action ε σ Unit) :
    wlp (onError x cleanup) Q s ↔ wlp x Q s := by
  unfold wlp onError
  cases x s with
  | ok a s' => rfl
  | err e s' => cases hc : cleanup s' <;> simp [hc]
  | panic => rfl

/-- A loop invariant indexed by the elements still to come. -/
theorem wp_forEach {f : α → Action ε σ Unit} (I : List α → σ → Prop)
    (hstep : ∀ a as s, I (a::as) s → wp (f a) (fun _ s' => I as s') E s)
    {l : List α} (h : I l s) : wp (forEach f l) (fun _ s' => I [] s') E s := by
  induction l generalizing s with
  | nil => exact h
  | cons a as ih =>
    change wp (f a >>= fun _ => forEach f as) _ E s
    rw [wp_bind]
    exact wp_mono (hstep a as s h) (fun _ s' hs' => ih hs') (fun _ _ he => he)

/-- The action keeps a property of the state, whether it ends in a value or in an error. -/
def Preserves (P : σ → Prop) (x : Action ε σ α) : Prop :=
  ∀ s s', P s → (x s).state = some s' → P s'

variable {P : σ → Prop}

theorem preserves_pure (a : α) : Preserves P (pure a : Action ε σ α) := by
  intro s s' h hs
  exact Option.some.inj hs ▸ h

theorem preserves_get : Preserves P (get : Action ε σ σ) := by
  intro s s' h hs
  exact Option.some.inj hs ▸ h

theorem preserves_throw (e : ε) : Preserves P (throw e : Action ε σ α) := by
  intro s s' h hs
  exact Option.some.inj hs ▸ h

theorem preserves_modify {f : σ → σ} (hf : ∀ s, P s → P (f s)) :
    Preserves P (modify f : Action ε σ Unit) := by
  intro s s' h hs
  exact Option.some.inj hs ▸ hf s h

theorem preserves_orThrow (o : Option α) (e : ε) : Preserves P (orThrow o e : Action ε σ α) := by
  cases o with
  | none => exact preserves_throw e
  | some a => exact preserves_pure a

theorem Preserves.bind {f : α → Action ε σ β} (hx : Preserves P x) (hf : ∀ a, Preserves P (f a)) :
    Preserves P (x >>= f) := by
  intro s s' h hs
  change (Action.bind x f s).state = some s' at hs
  unfold Action.bind at hs
  cases hxs : x s with
  | ok a t =>
    rw [hxs] at hs
    exact hf a t s' (hx s t h (by rw [hxs]; rfl)) hs
  | err e t =>
    rw [hxs] at hs
    exact hx s s' h (by rw [hxs]; exact hs)
  | panic =>
    rw [hxs] at hs
    cases hs

theorem Preserves.onError {cleanup : Action ε σ Unit} (hx : Preserves P x)
    (hc : Preserves P cleanup) : Preserves P (onError x cleanup) := by
  intro s s' h hs
  unfold Action.onError at hs
  cases hxs : x s with
  | ok a t =>
    rw [hxs] at hs
    exact hx s s' h (by rw [hxs]; exact hs)
  | err e t =>
    rw [hxs] at hs
    have ht := hx s t h (by rw [hxs]; rfl)
    cases hct : cleanup t with
    | ok u t' =>
      simp only [hct] at hs
      exact hc t s' ht (by rw [hct]; exact hs)
    | err e' t' =>
      simp only [hct] at hs
      exact hc t s' ht (by rw [hct]; exact hs)
    | panic =>
      simp only [hct] at hs
      cases hs
  | panic =>
    rw [hxs] at hs
    cases hs

theorem preserves_forEach {f : α → Action ε σ Unit} (hf : ∀ a, Preserves P (f a)) (l : List α) :
    Preserves P (forEach f l) := by
  induction l with
  | nil => exact preserves_pure ()
  | cons a as ih => exact (hf a).bind fun _ => ih

theorem Preserves.of_ok (hx : Preserves P x) (hs : P s) (h : x s = .ok a s') : P s' :=
  hx s s' hs (by rw [h]; rfl)

theorem Preserves.of_err (hx : Preserves P x) (hs : P s) (h : x s = .err e s') :
    P s' := hx s s' hs (by rw [h]; rfl)

end Action

variable {ε σ τ α β : Type}

def Outcome.mapState (φ : σ → τ) : Outcome ε σ α → Outcome ε τ α
  | .ok a s => .ok a (φ s)
  | .err e s => .err e (φ s)
  | .panic => .panic

namespace Action

/-- Both end the same way, and the states that are left correspond. -/
def Simulates (φ : σ → τ) (x : Action ε σ α) (y : Action ε τ α) : Prop :=
  ∀ s, (x s).mapState φ = y (φ s)

variable {φ : σ → τ} {x : Action ε σ α} {y : Action ε τ α}

theorem Simulates.of_ok (h : Simulates φ x y) {s s' : σ} {a : α} (hx : x s = .ok a s') :
    y (φ s) = .ok a (φ s') := by
  rw [← h s,hx]
  rfl

theorem Simulates.of_err (h : Simulates φ x y) {s s' : σ} {e : ε} (hx : x s = .err e s') :
    y (φ s) = .err e (φ s') := by
  rw [← h s,hx]
  rfl

theorem Simulates.bind {f : α → Action ε σ β} {g : α → Action ε τ β} (h : Simulates φ x y)
    (hf : ∀ a, Simulates φ (f a) (g a)) : Simulates φ (x >>= f) (y >>= g) := by
  intro s
  change (Action.bind x f s).mapState φ = Action.bind y g (φ s)
  unfold Action.bind
  rw [← h s]
  cases x s with
  | ok a s' => exact hf a s'
  | err e s' => rfl
  | panic => rfl

theorem Simulates.modify {f : σ → σ} {g : τ → τ} (h : ∀ s, φ (f s) = g (φ s)) :
    Simulates φ (Action.modify f : Action ε σ Unit) (Action.modify g) := by
  intro s
  change Outcome.ok () (φ (f s)) = Outcome.ok () (g (φ s))
  rw [h]

end Action

end Framework
