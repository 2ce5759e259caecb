import Athera.Framework.Runs
import Mathlib.Logic.Function.Basic

/-!
# One-time initialisation

`sync/once.rs` with every atomic operation and access to the cell as a step of its own, taken by any
flow in any order.
-/

namespace Athera.OnceLock

open Framework Function

inductive Status where
  | uninitialized
  | initializing
  | initialized
deriving DecidableEq, Repr

/-- What a flow does next. The load of `get` may be part of `get_or_init`. -/
inductive Pc (α : Type) where
  | idle
  | load (orInit : Bool)
  | exchange
  | init
  | write (val : α)
  | store
  | read

def Pc.Waits {α : Type} : Pc α → Prop
  | idle => True
  | load _ => True
  | exchange => True
  | _ => False

/-- The lock, the flows, and what happened: whose initialiser was called, what was written to the cell
and what was read from it, last first. -/
structure System (ι α : Type) where
  status : Status
  value : Option α
  pc : ι → Pc α
  calls : List ι
  writes : List α
  reads : List (Option α)

inductive Act (α : Type) where
  | get
  | getOrInit
  | advance
  | finish (val : α)

variable {ι α : Type} [DecidableEq ι]

namespace System

def new : System ι α := ⟨.uninitialized,none,fun _ => .idle,[],[],[]⟩

def goto (s : System ι α) (i : ι) (pc : Pc α) : System ι α := { s with pc := update s.pc i pc }

/-- A flow calls `get` or `get_or_init`, goes on with the call, or ends its initialiser. -/
def step (s : System ι α) (a : ι × Act α) : Option (System ι α) :=
  match s.pc a.1, a.2 with
  | .idle, .get => some (s.goto a.1 (.load false))
  | .idle, .getOrInit => some (s.goto a.1 (.load true))
  | .load orInit, .advance =>
    some (s.goto a.1 (if s.status = .initialized then .read else if orInit then .exchange else .idle))
  | .exchange, .advance =>
    match s.status with
    | .uninitialized => some { s.goto a.1 .init with status := .initializing, calls := a.1 :: s.calls }
    | .initializing => some (s.goto a.1 .exchange)
    | .initialized => some (s.goto a.1 .read)
  | .init, .finish val => some (s.goto a.1 (.write val))
  | .write val, .advance => some { s.goto a.1 .store with value := some val, writes := val :: s.writes }
  | .store, .advance => some { s.goto a.1 .read with status := .initialized }
  | .read, .advance => some { s.goto a.1 .idle with reads := s.value :: s.reads }
  | _, _ => none

variable {s s' : System ι α} {i : ι} {a : Act α}

/-- The flow is in its initialiser, is about to write what that returned, or has just written it. -/
def Initializes (s : System ι α) (i : ι) : Prop :=
  s.writes = [] ∧ (s.pc i = .init ∨ ∃ v, s.pc i = .write v) ∨
    s.pc i = .store ∧ ∃ v, s.writes = [v] ∧ s.value = some v

/-- How far the initialisation is. -/
inductive Phase (s : System ι α) : Prop where
  | fresh (hs : s.status = .uninitialized) (hc : s.calls = []) (hw : s.writes = [])
      (hr : s.reads = []) (quiet : ∀ j, (s.pc j).Waits)
  | busy (i : ι) (hs : s.status = .initializing) (hc : s.calls = [i]) (hr : s.reads = [])
      (hi : s.Initializes i) (quiet : ∀ j ≠ i, (s.pc j).Waits)
  | done (i : ι) (v : α) (hs : s.status = .initialized) (hc : s.calls = [i]) (hw : s.writes = [v])
      (hv : s.value = some v) (hr : ∀ r ∈ s.reads, r = some v)
      (quiet : ∀ j, (s.pc j).Waits ∨ s.pc j = .read)

inductive Moves : Status → Status → Prop where
  | stay (st : Status) : Moves st st
  | start : Moves .uninitialized .initializing
  | finish : Moves .initializing .initialized

theorem Moves.eq_initialized {st : Status} (h : Moves .initialized st) : st = .initialized := by
  cases h
  rfl

theorem step_of_waits (hw : (s.pc i).Waits) (h : s.step (i, a) = some s') :
    (∃ pc, s' = s.goto i pc ∧ (pc.Waits ∨ pc = .read ∧ s.status = .initialized)) ∨
      s.status = .uninitialized ∧
        s' = { s.goto i .init with status := .initializing, calls := i::s.calls } := by
  unfold step at h
  split at h
  next => exact .inl ⟨_,(Option.some.inj h).symm,.inl trivial⟩
  next => exact .inl ⟨_,(Option.some.inj h).symm,.inl trivial⟩
  next orInit _ _ =>
    refine .inl ⟨_,(Option.some.inj h).symm,?_⟩
    split
    next hst => exact .inr ⟨rfl,hst⟩
    next => cases orInit <;> exact .inl trivial
  next =>
    split at h
    next hst => exact .inr ⟨hst,(Option.some.inj h).symm⟩
    next => exact .inl ⟨_,(Option.some.inj h).symm,.inl trivial⟩
    next hst => exact .inl ⟨_,(Option.some.inj h).symm,.inr ⟨rfl,hst⟩⟩
  all_goals simp_all [Pc.Waits]

theorem quiet_goto {p : ι → Pc α → Prop} {pc : Pc α} (hpc : p i pc) (quiet : ∀ j ≠ i, p j (s.pc j)) :
    ∀ j, p j ((s.goto i pc).pc j) := (forall_update_iff s.pc p).mpr ⟨hpc,quiet⟩

theorem Phase.step_owner (hs : s.status = .initializing) (hc : s.calls = [i]) (hr : s.reads = [])
    (hi : s.Initializes i) (quiet : ∀ j ≠ i, (s.pc j).Waits) (h : s.step (i, a) = some s') :
    s'.Phase ∧ Moves s.status s'.status := by
  have others : ∀ pc j, j ≠ i → ((s.goto i pc).pc j).Waits := fun _ =>
    quiet_goto (p := fun j pc => j ≠ i → pc.Waits) (fun hne => absurd rfl hne) fun j hj _ => quiet j hj
  rcases hi with ⟨hw,hpc | ⟨v,hpc⟩⟩ | ⟨hpc,v,hw,hv⟩
  all_goals
    cases a <;> simp only [step,hpc,reduceCtorEq,Option.some.injEq] at h
    subst h
  · exact ⟨.busy i hs hc hr (.inl ⟨hw,.inr ⟨_,update_self ..⟩⟩) (others _),.stay _⟩
  · exact ⟨.busy i hs hc hr (.inr ⟨update_self ..,v,congrArg _ hw,rfl⟩) (others _),.stay _⟩
  · refine ⟨.done i v rfl hc hw hv (by simp [goto,hr]) ?_,hs ▸ .finish⟩
    exact quiet_goto (p := fun _ pc => pc.Waits ∨ pc = .read) (.inr rfl) fun j hj => .inl (quiet j hj)

theorem Phase.step (hs : s.Phase) (h : s.step (i, a) = some s') :
    s'.Phase ∧ Moves s.status s'.status := by
  cases hs with
  | fresh hs hc hw hr quiet =>
    rcases step_of_waits (quiet i) h with ⟨pc,rfl,hpc | ⟨_,hst⟩⟩ | ⟨_,rfl⟩
    · exact ⟨.fresh hs hc hw hr (quiet_goto hpc fun j _ => quiet j),.stay _⟩
    · cases hs.symm.trans hst
    · refine ⟨.busy i rfl (congrArg _ hc) hr (.inl ⟨hw,.inl (update_self ..)⟩) ?_,hs ▸ .start⟩
      exact quiet_goto (p := fun j pc => j ≠ i → pc.Waits) (fun hne => absurd rfl hne)
        fun j _ _ => quiet j
  | busy o hs hc hr ho quiet =>
    by_cases hio : i = o
    · exact step_owner hs (hio ▸ hc) hr (hio ▸ ho) (hio ▸ quiet) h
    · rcases step_of_waits (quiet i hio) h with ⟨pc,rfl,hpc | ⟨_,hst⟩⟩ | ⟨hst,_⟩
      · refine ⟨.busy o hs hc hr ?_ ?_,.stay _⟩
        · rw [Initializes,show (s.goto i pc).pc o = s.pc o from update_of_ne (Ne.symm hio) ..]
          exact ho
        · exact quiet_goto (p := fun j pc => j ≠ o → pc.Waits) (fun _ => hpc) fun j _ => quiet j
      · cases hs.symm.trans hst
      · cases hs.symm.trans hst
  | done o v hs hc hw hv hr quiet =>
    have others : ∀ pc : Pc α, (pc.Waits ∨ pc = .read) →
        ∀ j, ((s.goto i pc).pc j).Waits ∨ (s.goto i pc).pc j = .read := fun pc hpc =>
      quiet_goto (p := fun _ pc => pc.Waits ∨ pc = .read) hpc fun j _ => quiet j
    rcases quiet i with hwait | hread
    · rcases step_of_waits hwait h with ⟨pc,rfl,hpc⟩ | ⟨hst,_⟩
      · exact ⟨.done o v hs hc hw hv hr (others pc (hpc.imp_right And.left)),.stay _⟩
      · cases hs.symm.trans hst
    · cases a <;> simp only [System.step,hread,reduceCtorEq,Option.some.injEq] at h
      subst h
      refine ⟨.done o v hs hc hw hv ?_ (others _ (.inl trivial)),.stay _⟩
      exact List.forall_mem_cons.mpr ⟨hv,hr⟩

omit [DecidableEq ι] in
theorem Phase.written (h : s.Phase) (hs : s.status = .initialized) :
    ∃ v, s.writes = [v] ∧ s.value = some v := by
  cases h with
  | fresh hs' => cases hs.symm.trans hs'
  | busy _ hs' => cases hs.symm.trans hs'
  | done _ v _ _ hw hv => exact ⟨v,hw,hv⟩

theorem phase_of_run {os : List (ι × Act α)} (h : run step os new = some s) : s.Phase :=
  run_invariant (fun _ _ _ hs hstep => (hs.step hstep).1) (s := new)
    (.fresh rfl rfl rfl rfl fun _ => trivial) h

variable {os : List (ι × Act α)} (h : run step os new = some s)

include h in
theorem initialised_once :
    s.calls.length ≤ 1 ∧ s.writes.length ≤ 1 ∧ (∀ r ∈ s.reads, ∃ v, r = some v ∧ s.writes = [v]) ∧
      (s.status = .initialized → ∃ v, s.writes = [v] ∧ s.value = some v) ∧
      ∀ a s', s.step a = some s' → Moves s.status s'.status := by
  have hphase := phase_of_run h
  have hwritten := hphase.written
  have hmoves a s' (hstep : s.step a = some s') := (hphase.step hstep).2
  cases hphase with
  | fresh hs hc hw hr _ => exact ⟨by simp [hc],by simp [hw],by simp [hr],hwritten,hmoves⟩
  | busy i hs hc hr hi _ =>
    refine ⟨by simp [hc],?_,by simp [hr],hwritten,hmoves⟩
    rcases hi with ⟨hw,_⟩ | ⟨_,v,hw,_⟩ <;> simp [hw]
  | done i v hs hc hw hv hr _ =>
    exact ⟨by simp [hc],by simp [hw],fun r hmem => ⟨v,hr r hmem,hw⟩,hwritten,hmoves⟩

/-- Two flows ask for the value; the second one loses and waits until the first has stored it. -/
def race : List (Bool × Act Nat) :=
  [(true, .getOrInit),(false, .getOrInit),(true, .advance),(false, .advance),(true, .advance),
    (false, .advance),(true, .finish 7),(true, .advance),(false, .advance),(true, .advance),
    (false, .advance),(true, .advance),(false, .advance)]

theorem initialised_once_race : ∃ s, run step race new = some s ∧ s.reads = [some 7,some 7] ∧
    ∀ r ∈ s.reads, ∃ v, r = some v ∧ s.writes = [v] :=
  ⟨_,rfl,rfl,(initialised_once (show run step race new = some _ from rfl)).2.2.1⟩

theorem suffix_writes (hstep : s.step (i, a) = some s') : s.writes <:+ s'.writes := by
  unfold step at hstep
  split at hstep
  all_goals first | cases hstep | split at hstep <;> cases hstep
  all_goals simp [goto]

include h in
/-- Whoever asks later gets the value that was published first. -/
theorem published_value_stays (hs : s.status = .initialized) {os' : List (ι × Act α)}
    (h' : run step os' s = some s') : s'.status = .initialized ∧ s'.value = s.value := by
  have hend : s'.Phase ∧ s'.status = .initialized ∧ s.writes <:+ s'.writes :=
    run_invariant (I := fun t => t.Phase ∧ t.status = .initialized ∧ s.writes <:+ t.writes)
      (fun t a t' ⟨ht,hst,hsuffix⟩ hstep => ⟨(ht.step hstep).1,
        (hst ▸ (ht.step hstep).2).eq_initialized,hsuffix.trans (suffix_writes hstep)⟩)
      ⟨phase_of_run h,hs,List.suffix_rfl⟩ h'
  obtain ⟨v,hw,hv⟩ := (phase_of_run h).written hs
  obtain ⟨v',hw',hv'⟩ := hend.1.written hend.2.1
  have heq : [v] = [v'] := (hw ▸ hw' ▸ hend.2.2).eq_of_length rfl
  exact ⟨hend.2.1,by rw [hv,hv',List.singleton_inj.mp heq]⟩

theorem published_value_stays_race : ∃ s s', run step race new = some s ∧
    run step (race.take 4) s = some s' ∧ s'.pc true = .read ∧ s'.value = s.value :=
  ⟨_,_,rfl,rfl,rfl,(published_value_stays (show run step race new = some _ from rfl) rfl
    (show run step (race.take 4) _ = some _ from rfl)).2⟩

include h in
/-- While flows spin, the one that they wait for needs three steps at most. -/
theorem initialisation_finishes (hs : s.status = .initializing) (val : α) :
    ∃ j, ∃ acts : List (Act α), acts.length ≤ 3 ∧
      (run step (acts.map (j, ·)) s).map status = some .initialized := by
  cases phase_of_run h with
  | fresh hs' => cases hs.symm.trans hs'
  | done _ _ hs' => cases hs.symm.trans hs'
  | busy j _ _ _ hj _ =>
    rcases hj with ⟨_,hpc | ⟨v,hpc⟩⟩ | ⟨hpc,_⟩
    · exact ⟨j,[.finish val,.advance,.advance],by simp,by simp [run,step,goto,hpc]⟩
    · exact ⟨j,[.advance,.advance],by simp,by simp [run,step,goto,hpc]⟩
    · exact ⟨j,[.advance],by simp,by simp [run,step,hpc]⟩

theorem initialisation_finishes_race : ∃ s, run step (race.take 6) new = some s ∧
    s.pc false = .exchange ∧ ∃ j, ∃ acts : List (Act Nat), acts.length ≤ 3 ∧
      (run step (acts.map (j, ·)) s).map status = some .initialized :=
  ⟨_,rfl,rfl,initialisation_finishes (show run step (race.take 6) new = some _ from rfl) rfl 5⟩

end System

end Athera.OnceLock
