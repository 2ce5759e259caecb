import Mathlib.Data.List.Perm.Basic
import Athera.Sync.RwLock

/-!
# Guards and the interrupt flag of a hart

The guards of `SpinLock`, `RwLock` and `PerCpu` on one hart. Guards may be dropped in any order;
meanwhile other harts take and release locks.
-/

namespace Athera

open Framework List Option

namespace Guards

/-- What a guard was taken from. -/
inductive Source where
  | spin (lock : Nat)
  | read (lock : Nat)
  | write (lock : Nat)
  | perCpu (data : Nat)
deriving DecidableEq, Repr

structure Guard where
  source : Source
  sie : Bool
deriving DecidableEq, Repr

structure Words where
  spin : Nat → Bool
  state : Nat → Nat
  waitingWriters : Nat → Nat

namespace Words

def free : Words := ⟨fun _ => false,fun _ => 0,fun _ => 0⟩

/-- The words after the lock was taken, `none` while it cannot be. -/
def take (w : Words) : Source → Option Words
  | .spin i => if w.spin i then none else some { w with spin := Function.update w.spin i true }
  | .read i =>
    if w.waitingWriters i ≠ 0 ∨ w.state i &&& RwLock.writer ≠ 0 then none
    else (checkedAdd (w.state i) RwLock.reader).map fun next =>
      { w with state := Function.update w.state i next }
  | .write i =>
    if w.state i = 0 then some { w with state := Function.update w.state i RwLock.writer } else none
  | .perCpu _ => some w

def release (w : Words) : Source → Words
  | .spin i => { w with spin := Function.update w.spin i false }
  | .read i =>
    { w with state := Function.update w.state i (wrap (w.state i + wordRange - RwLock.reader)) }
  | .write i => { w with state := Function.update w.state i 0 }
  | .perCpu _ => w

end Words

structure Hart where
  sie : Bool
  guards : List Guard
  words : Words

namespace Hart

/-- `disable_interrupt`: the old flag and the hart with the flag cleared. -/
def disableInterrupt (s : Hart) : Bool × Hart := (s.sie, { s with sie := false })

def enableInterrupt (prevSie : Bool) (s : Hart) : Hart := if prevSie then { s with sie := true } else s

/-- `SpinLock::lock`, `RwLock::read`, `RwLock::write` and `PerCpu::current`. -/
def acquire (s : Hart) (source : Source) : Option Hart :=
  let (sie, s) := s.disableInterrupt
  (s.words.take source).map fun words =>
    { s with words := words, guards := ⟨source,sie⟩ :: s.guards }

def drop (s : Hart) (k : Nat) : Option Hart :=
  (s.guards[k]?).map fun g => enableInterrupt g.sie
    { s with words := s.words.release g.source, guards := s.guards.eraseIdx k }

inductive Event where
  | acquire (source : Source)
  | drop (k : Nat)
  | elsewhere (words : Words)

def step (s : Hart) : Event → Option Hart
  | .acquire source => s.acquire source
  | .drop k => s.drop k
  | .elsewhere words => some { s with words := words }

def start (sie : Bool) (words : Words) : Hart := ⟨sie,[],words⟩

/-- Interrupts are off while there is a guard; without one the flag is as at the start. -/
def Quiet (sie : Bool) (s : Hart) : Prop :=
  (s.guards ≠ [] → s.sie = false) ∧ (s.guards = [] → s.sie = sie)

/-- A guard that found interrupts on is dropped only when it is the last one. -/
def DroppedLast (s : Hart) : Event → Prop
  | .drop k =>
    match s.guards[k]? with
    | some g => g.sie = true → s.guards.length = 1
    | none => True
  | _ => True

instance (s : Hart) : ∀ e, Decidable (DroppedLast s e)
  | .acquire _ => isTrue trivial
  | .elsewhere _ => isTrue trivial
  | .drop k =>
    match h : s.guards[k]? with
    | some g =>
      decidable_of_iff (g.sie = true → s.guards.length = 1) (by simp only [DroppedLast,h])
    | none => isTrue (by simp only [DroppedLast,h])

/-- As long as the condition is met, one guard of each nesting holds the flag of the start. -/
structure Inv (sie : Bool) (s : Hart) : Prop where
  quiet : Quiet sie s
  saved : s.guards.countP Guard.sie = if sie = true ∧ s.guards ≠ [] then 1 else 0

variable {sie : Bool} {s s' : Hart} {source : Source} {k : Nat} {words : Words}

theorem inv_start (sie : Bool) (words : Words) : Inv sie (start sie words) :=
  ⟨⟨fun h => absurd rfl h,fun _ => rfl⟩,by simp [start]⟩

theorem Inv.acquire (h : Inv sie s) (hstep : s.acquire source = some s') : Inv sie s' := by
  obtain ⟨w,_,rfl⟩ := map_eq_some_iff.mp hstep
  refine ⟨⟨fun _ => rfl,fun he => nomatch he⟩,?_⟩
  rw [countP_cons,h.saved]
  by_cases hg : s.guards = []
  · have hsie := h.quiet.2 hg
    simp [hg,hsie]
  · have hsie := h.quiet.1 hg
    simp [hg,hsie]

theorem drop_eq_some (hstep : s.drop k = some s') : ∃ g, s.guards[k]? = some g ∧
    s'.guards = s.guards.eraseIdx k ∧ s'.sie = (g.sie || s.sie) := by
  obtain ⟨g,hg,rfl⟩ := map_eq_some_iff.mp hstep
  refine ⟨g,hg,?_⟩
  cases hsie : g.sie with
  | false => exact ⟨rfl,rfl⟩
  | true => exact ⟨rfl,rfl⟩

theorem countP_eraseIdx {l : List Guard} {g : Guard} (hg : l[k]? = some g) :
    (l.eraseIdx k).countP Guard.sie+g.sie.toNat = l.countP Guard.sie := by
  obtain ⟨hk,rfl⟩ := List.getElem?_eq_some_iff.mp hg
  have hperm := (getElem_cons_eraseIdx_perm hk).countP_eq Guard.sie
  rw [countP_cons] at hperm
  rw [← hperm]
  cases l[k].sie <;> rfl

theorem Inv.drop (h : Inv sie s) (hlast : DroppedLast s (.drop k)) (hstep : s.drop k = some s') :
    Inv sie s' := by
  obtain ⟨g,hg,hguards,hflag⟩ := drop_eq_some hstep
  have hne : s.guards ≠ [] := by
    intro he
    rw [he] at hg
    cases hg
  have hsaved := h.saved
  have hcount := countP_eraseIdx hg
  simp only [DroppedLast,hg] at hlast
  cases hsie : g.sie with
  | true =>
    -- the last guard gives the flag back
    have hone := hlast hsie
    have hk : k < s.guards.length := (List.getElem?_eq_some_iff.mp hg).1
    have hnil : s'.guards = [] := by
      rw [hguards]
      apply eq_nil_of_length_eq_zero
      rw [length_eraseIdx_of_lt hk]
      omega
    have htrue : sie = true := by
      rw [hsie,hsaved] at hcount
      by_contra hfalse
      simp [hfalse] at hcount
    refine ⟨⟨fun hs => absurd hnil hs,fun _ => ?_⟩,by simp [hnil]⟩
    rw [hflag,hsie,htrue]
    rfl
  | false =>
    rw [hsie,← hguards,hsaved] at hcount
    have hoff : s'.sie = false := by
      rw [hflag,hsie,h.quiet.1 hne]
      rfl
    by_cases hnil : s'.guards = []
    · refine ⟨⟨fun _ => hoff,fun _ => ?_⟩,by simp [hnil]⟩
      rw [hoff]
      by_contra hsome
      simp [hnil,hne,(Bool.not_eq_false _).mp (Ne.symm hsome)] at hcount
    · refine ⟨⟨fun _ => hoff,fun hs => absurd hs hnil⟩,?_⟩
      simpa [hnil,hne] using hcount

/-- Any other drop turns interrupts on under the guards that are left. -/
theorem Inv.not_quiet (hlast : ¬ DroppedLast s (.drop k)) (hstep : s.drop k = some s') :
    ¬ Quiet sie s' := by
  obtain ⟨g,hg,hguards,hflag⟩ := drop_eq_some hstep
  simp only [DroppedLast,hg,Classical.not_imp] at hlast
  obtain ⟨hsie,hmore⟩ := hlast
  have hk : k < s.guards.length := (List.getElem?_eq_some_iff.mp hg).1
  have hne : s'.guards ≠ [] := by
    intro hnil
    have hlen := congrArg List.length (hguards.symm.trans hnil)
    rw [length_eraseIdx_of_lt hk,length_nil] at hlen
    omega
  intro hquiet
  have hoff := hquiet.1 hne
  rw [hflag,hsie] at hoff
  cases hoff

theorem Inv.step {e : Event} (h : Inv sie s) (hlast : DroppedLast s e) (hstep : s.step e = some s') :
    Inv sie s' := by
  cases e with
  | acquire source => exact h.acquire hstep
  | drop k => exact h.drop hlast hstep
  | elsewhere words =>
    obtain rfl := some.inj hstep
    exact ⟨h.quiet,h.saved⟩

/-- Interrupts stay off under every guard, and come back after the last, exactly in the runs that drop
a guard which found them on only as the last one. -/
theorem interrupts_off_iff_dropped_last {events : List Event}
    (hrun : run Hart.step events (start sie words) = some s') :
    (∀ pre, pre <+: events → ∀ t, run Hart.step pre (start sie words) = some t → Quiet sie t) ↔
      EachStep Hart.step DroppedLast events (start sie words) := by
  refine forall_prefix_iff_eachStep (fun _ _ _ h => h.step) (fun _ h => h.quiet) ?_
    (inv_start sie words) hrun
  intro s e s' _ hlast hstep
  cases e with
  | acquire source => exact absurd trivial hlast
  | drop k => exact Inv.not_quiet hlast hstep
  | elsewhere words => exact absurd trivial hlast

/-- A spin lock and a read lock, dropped in the opposite order. -/
def nested : List Event := [.acquire (.spin 0),.acquire (.read 1),.drop 0,.drop 0]

theorem interrupts_off_iff_dropped_last_nested : ∃ s, run Hart.step nested (start true .free) = some s ∧
    ∀ pre, pre <+: nested → ∀ t, run Hart.step pre (start true .free) = some t → Quiet true t := by
  have hsome : (run Hart.step nested (start true .free)).isSome = true := by decide
  obtain ⟨s,hrun⟩ := isSome_iff_exists.mp hsome
  exact ⟨s,hrun,(interrupts_off_iff_dropped_last hrun).mpr (by decide)⟩

def crossed : List Event := [.acquire (.spin 0),.acquire (.spin 1),.drop 1]

/-- Then interrupts are on while the second lock is held. -/
theorem interrupts_on_under_guard : ∃ s, run Hart.step crossed (start true .free) = some s ∧
    s.guards = [⟨.spin 1,false⟩] ∧ s.sie = true := by
  have hvalues : (run Hart.step crossed (start true .free)).map (fun s => (s.guards, s.sie)) =
      some ([⟨.spin 1,false⟩], true) := by decide
  obtain ⟨s,hrun,hs⟩ := map_eq_some_iff.mp hvalues
  exact ⟨s,hrun,Prod.mk.inj hs⟩

end Hart

end Guards

end Athera
