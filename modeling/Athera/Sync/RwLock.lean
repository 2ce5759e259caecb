import Athera.Framework.Population
import Athera.Framework.Runs
import Athera.Framework.Word

/-!
# The read-write spin lock

`sync/rwlock.rs` with every atomic operation as a step of its own, taken by any hart in any order. A
hart is in one call at a time. A guard is alive from the compare-exchange that acquires the lock.
-/

namespace Athera

open Framework Option

/-- `PerCpu` has a slot for each hart, and a `usize` counts the slots. -/
structure Harts where
  count : Nat
  fits : count < wordRange

namespace RwLock

def writer : Nat := 1
def reader : Nat := 2

/-- What a hart does next. -/
inductive Pc where
  | idle
  | loadWaiting
  | loadState
  | exchangeRead (state next : Nat)
  | announce
  | exchangeWrite
  | retract
deriving DecidableEq, Repr

/-- A writer between the increment and the decrement of `waiting_writers`. -/
def Pc.waits : Pc → Bool
  | .exchangeWrite => true
  | .retract => true
  | _ => false

/-- A writer that has the lock and has not yet returned its guard. -/
def Pc.entered : Pc → Bool
  | .retract => true
  | _ => false

/-- A reader that has found no writer waiting and has not yet tried to enter. -/
def Pc.passed : Pc → Bool
  | .loadState => true
  | .exchangeRead _ _ => true
  | _ => false

structure System (harts : Harts) where
  state : Nat
  waitingWriters : Nat
  pc : Fin harts.count → Pc
  readGuards : Nat
  returnedWrites : Nat

variable {harts : Harts}

namespace System

section

variable (s : System harts)

def writeGuards : Nat := s.returnedWrites + population Pc.entered s.pc

def writers : Nat := population Pc.waits s.pc

def new : System harts := ⟨0,0,fun _ => .idle,0,0⟩

def goto (h : Fin harts.count) (pc : Pc) : System harts :=
  { s with pc := Function.update s.pc h pc }

/-- The next atomic step of a hart inside of `read` or `write`. -/
def advance (h : Fin harts.count) : Option (System harts) :=
  match s.pc h with
  | .idle => none
  | .loadWaiting => some (s.goto h (if s.waitingWriters ≠ 0 then .loadWaiting else .loadState))
  | .loadState =>
    some (s.goto h
      (if s.state &&& writer ≠ 0 then .loadWaiting
      else
        match checkedAdd s.state reader with
        | none => .loadWaiting
        | some next => .exchangeRead s.state next))
  | .exchangeRead state next =>
    if s.state = state then
      some { s.goto h .idle with state := next, readGuards := s.readGuards + 1 }
    else some (s.goto h .loadWaiting)
  | .announce => some { s.goto h .exchangeWrite with waitingWriters := wrap (s.waitingWriters + 1) }
  | .exchangeWrite =>
    if s.state = 0 then some { s.goto h .retract with state := writer } else some s
  | .retract =>
    some { s.goto h .idle with
      waitingWriters := wrap (s.waitingWriters + wordRange - 1), returnedWrites := s.returnedWrites + 1 }

inductive Act where
  | read
  | write
  | advance
  | dropRead
  | dropWrite
deriving DecidableEq, Repr

/-- A hart calls `read` or `write`, goes on with the call, or drops a guard. -/
def step (a : Fin harts.count × Act) : Option (System harts) :=
  match a.2 with
  | .advance => s.advance a.1
  | .read => if s.pc a.1 = .idle then some (s.goto a.1 .loadWaiting) else none
  | .write => if s.pc a.1 = .idle then some (s.goto a.1 .announce) else none
  | .dropRead =>
    if s.pc a.1 = .idle ∧ 0 < s.readGuards then
      some { s with state := wrap (s.state + wordRange - reader), readGuards := s.readGuards - 1 }
    else none
  | .dropWrite =>
    if s.pc a.1 = .idle ∧ 0 < s.returnedWrites then
      some { s with state := 0, returnedWrites := s.returnedWrites - 1 }
    else none

end

/-- What the words of the lock say about the guards, and what a reader knows before its
compare-exchange. -/
structure Inv (s : System harts) : Prop where
  word : s.state = reader * s.readGuards + writer * s.writeGuards
  fits : s.state < wordRange
  single : s.writeGuards ≤ 1
  apart : s.readGuards = 0 ∨ s.writeGuards = 0
  waiting : s.waitingWriters = s.writers
  seen : ∀ h state next, s.pc h = .exchangeRead state next →
    state % 2 = 0 ∧ next = state + reader ∧ next < wordRange

variable {s s' : System harts} {h : Fin harts.count} {pc : Pc}

theorem inv_new : (new : System harts).Inv := by
  refine ⟨?_,Nat.two_pow_pos 64,?_,.inl rfl,?_,?_⟩
  · simp [new,writeGuards,population_const (show Pc.entered .idle = false from rfl)]
  · simp [new,writeGuards,population_const (show Pc.entered .idle = false from rfl)]
  · simp [new,writers,population_const (show Pc.waits .idle = false from rfl)]
  · intro h state next hpc
    cases hpc

theorem writers_goto (s : System harts) (h : Fin harts.count) (pc : Pc) :
    (s.goto h pc).writers+(Pc.waits (s.pc h)).toNat = s.writers+(Pc.waits pc).toNat :=
  population_update Pc.waits s.pc h pc

theorem writeGuards_goto (s : System harts) (h : Fin harts.count) (pc : Pc) :
    (s.goto h pc).writeGuards+(Pc.entered (s.pc h)).toNat =
      s.writeGuards+(Pc.entered pc).toNat := by
  have hcount := population_update Pc.entered s.pc h pc
  simp only [writeGuards,goto] at hcount ⊢
  omega

theorem writers_lt (s : System harts) : s.writers < wordRange := by
  have hle := population_le Pc.waits s.pc
  rw [Fintype.card_fin] at hle
  exact Nat.lt_of_le_of_lt hle harts.fits

theorem Inv.seen_goto (hs : s.Inv) (hnew : ∀ state next, pc = .exchangeRead state next →
      state%2 = 0 ∧ next = state+reader ∧ next < wordRange) :
    ∀ h' state next, (s.goto h pc).pc h' = .exchangeRead state next →
      state%2 = 0 ∧ next = state+reader ∧ next < wordRange := by
  intro h' state next hpc
  by_cases he : h' = h
  · subst he
    simp only [goto,Function.update_self] at hpc
    exact hnew state next hpc
  · simp only [goto,Function.update_of_ne he] at hpc
    exact hs.seen h' state next hpc

theorem Inv.goto (hs : s.Inv) (hwaits : Pc.waits pc = Pc.waits (s.pc h))
    (hentered : Pc.entered pc = Pc.entered (s.pc h))
    (hnew : ∀ state next, pc = .exchangeRead state next →
      state%2 = 0 ∧ next = state+reader ∧ next < wordRange) : (s.goto h pc).Inv := by
  have hwriters : (s.goto h pc).writers = s.writers := by
    have hcount := writers_goto s h pc
    rw [hwaits] at hcount
    omega
  have hguards : (s.goto h pc).writeGuards = s.writeGuards := by
    have hcount := writeGuards_goto s h pc
    rw [hentered] at hcount
    omega
  refine ⟨?_,hs.fits,?_,?_,?_,hs.seen_goto hnew⟩
  · rw [hguards]
    exact hs.word
  · rw [hguards]
    exact hs.single
  · rw [hguards]
    exact hs.apart
  · rw [hwriters]
    exact hs.waiting

theorem even_of_land_writer {n : Nat} (h : ¬ n &&& writer ≠ 0) : n%2 = 0 := by
  rw [writer,Nat.and_one_is_mod] at h
  omega

section

variable (hs : s.Inv)
include hs

/-- The compare-exchange of a reader succeeds: the word is even, so there is no write guard. -/
theorem Inv.enterRead {next : Nat} (hpc : s.pc h = .exchangeRead s.state next) :
    ({ s.goto h .idle with state := next, readGuards := s.readGuards+1 } : System harts).Inv := by
  obtain ⟨heven,rfl,hlt⟩ := hs.seen h s.state next hpc
  have hidle : (s.goto h .idle).Inv :=
    hs.goto (by rw [hpc]; rfl) (by rw [hpc]; rfl) (fun _ _ he => nomatch he)
  have hword : s.state = reader*s.readGuards+writer*(s.goto h .idle).writeGuards := hidle.word
  have hsingle := hidle.single
  generalize hnext : s.state+reader = next at hlt
  have hnone : (s.goto h .idle).writeGuards = 0 := by
    simp only [reader,writer] at hword
    omega
  refine ⟨?_,hlt,hsingle,.inr hnone,hidle.waiting,hidle.seen⟩
  change next = reader*(s.readGuards+1)+writer*(s.goto h .idle).writeGuards
  rw [← hnext,hword]
  simp only [reader]
  omega

theorem Inv.announce (hpc : s.pc h = .announce) {w : Nat} (hw : wrap (s.waitingWriters+1) = w) :
    ({ s.goto h .exchangeWrite with waitingWriters := w } : System harts).Inv := by
  have hguards : (s.goto h .exchangeWrite).writeGuards = s.writeGuards := by
    simpa [hpc,Pc.entered] using writeGuards_goto s h .exchangeWrite
  have hwriters : (s.goto h .exchangeWrite).writers = s.writers+1 := by
    simpa [hpc,Pc.waits] using writers_goto s h .exchangeWrite
  have hlt := writers_lt (s.goto h .exchangeWrite)
  refine ⟨?_,hs.fits,?_,?_,?_,hs.seen_goto (fun _ _ he => nomatch he)⟩
  · exact hs.word.trans (by rw [← hguards]; rfl)
  · exact hguards ▸ hs.single
  · exact hguards ▸ hs.apart
  · change w = (s.goto h .exchangeWrite).writers
    rw [← hw,hs.waiting,← hwriters,wrap_of_lt hlt]

/-- The compare-exchange of a writer succeeds: there are no guards. -/
theorem Inv.enterWrite (hpc : s.pc h = .exchangeWrite) (hzero : s.state = 0) :
    ({ s.goto h .retract with state := writer } : System harts).Inv := by
  have hguards : (s.goto h .retract).writeGuards = s.writeGuards+1 := by
    simpa [hpc,Pc.entered] using writeGuards_goto s h .retract
  have hwriters : (s.goto h .retract).writers = s.writers := by
    simpa [hpc,Pc.waits] using writers_goto s h .retract
  have hword := hs.word
  simp only [reader,writer] at hword
  have hnone : s.writeGuards = 0 := by omega
  have hreads : s.readGuards = 0 := by omega
  rw [hnone] at hguards
  refine ⟨?_,show writer < wordRange by decide,hguards.le,.inl hreads,?_,
    hs.seen_goto (fun _ _ he => nomatch he)⟩
  · change writer = reader*s.readGuards+writer*(s.goto h .retract).writeGuards
    rw [hguards,hreads]
    rfl
  · exact hs.waiting.trans hwriters.symm

/-- A writer that has the lock is no longer waiting; its guard goes to the caller. -/
theorem Inv.retract (hpc : s.pc h = .retract) {w : Nat}
    (hw : wrap (s.waitingWriters+wordRange-1) = w) : ({ s.goto h .idle with
      waitingWriters := w, returnedWrites := s.returnedWrites+1 } : System harts).Inv := by
  have hguards : (s.goto h .idle).writeGuards+1 = s.writeGuards := by
    simpa [hpc,Pc.entered] using writeGuards_goto s h .idle
  have hwriters : (s.goto h .idle).writers+1 = s.writers := by
    simpa [hpc,Pc.waits] using writers_goto s h .idle
  have hsame : ({ s.goto h .idle with
      waitingWriters := w, returnedWrites := s.returnedWrites+1 } : System harts).writeGuards =
        s.writeGuards := by
    rw [← hguards]
    simp only [writeGuards,System.goto]
    omega
  have hlt := writers_lt s
  refine ⟨?_,hs.fits,?_,?_,?_,hs.seen_goto (fun _ _ he => nomatch he)⟩
  · rw [hsame]
    exact hs.word
  · rw [hsame]
    exact hs.single
  · rw [hsame]
    exact hs.apart
  · change w = (s.goto h .idle).writers
    rw [← hw,hs.waiting,wrap_sub (by omega) hlt]
    omega

theorem Inv.advance (hstep : s.advance h = some s') : s'.Inv := by
  unfold System.advance at hstep
  cases hpc : s.pc h with
  | idle =>
    rw [hpc] at hstep
    cases hstep
  | loadWaiting =>
    rw [hpc] at hstep
    obtain rfl := some.inj hstep
    by_cases hw : s.waitingWriters ≠ 0
    · rw [if_pos hw]
      exact hs.goto (by rw [hpc]) (by rw [hpc]) (fun _ _ he => nomatch he)
    · rw [if_neg hw]
      exact hs.goto (by rw [hpc]; rfl) (by rw [hpc]; rfl) (fun _ _ he => nomatch he)
  | loadState =>
    rw [hpc] at hstep
    obtain rfl := some.inj hstep
    by_cases hw : s.state &&& writer ≠ 0
    · rw [if_pos hw]
      exact hs.goto (by rw [hpc]; rfl) (by rw [hpc]; rfl) (fun _ _ he => nomatch he)
    · rw [if_neg hw]
      cases hnext : checkedAdd s.state reader with
      | none => exact hs.goto (by rw [hpc]; rfl) (by rw [hpc]; rfl) (fun _ _ he => nomatch he)
      | some next =>
        refine hs.goto (by rw [hpc]; rfl) (by rw [hpc]; rfl) ?_
        intro state next' he
        obtain ⟨rfl,rfl⟩ := Pc.exchangeRead.inj he
        obtain ⟨he,hlt⟩ := checkedAdd_eq_some.mp hnext
        exact ⟨even_of_land_writer hw,he,he ▸ hlt⟩
  | exchangeRead state next =>
    rw [hpc] at hstep
    dsimp only at hstep
    split at hstep
    next hsame =>
      obtain rfl := some.inj hstep
      exact hs.enterRead (by rw [hpc,hsame])
    next =>
      obtain rfl := some.inj hstep
      exact hs.goto (by rw [hpc]; rfl) (by rw [hpc]; rfl) (fun _ _ he => nomatch he)
  | announce =>
    rw [hpc] at hstep
    generalize hw : wrap (s.waitingWriters+1) = w at hstep
    obtain rfl := some.inj hstep
    exact hs.announce hpc hw
  | exchangeWrite =>
    rw [hpc] at hstep
    dsimp only at hstep
    split at hstep
    next hzero =>
      obtain rfl := some.inj hstep
      exact hs.enterWrite hpc hzero
    next =>
      obtain rfl := some.inj hstep
      exact hs
  | retract =>
    rw [hpc] at hstep
    generalize hw : wrap (s.waitingWriters+wordRange-1) = w at hstep
    obtain rfl := some.inj hstep
    exact hs.retract hpc hw

theorem Inv.dropRead (hpos : 0 < s.readGuards) {w : Nat}
    (hw : wrap (s.state+wordRange-reader) = w) :
    ({ s with state := w, readGuards := s.readGuards-1 } : System harts).Inv := by
  have hnone : s.writeGuards = 0 := by
    rcases hs.apart with hreads | hnone
    · omega
    · exact hnone
  have hword := hs.word
  rw [hnone,reader] at hword
  have hsub : w = s.state-reader := by
    rw [← hw]
    exact wrap_sub (by rw [reader]; omega) hs.fits
  refine ⟨?_,?_,hs.single,.inr hnone,hs.waiting,hs.seen⟩
  · change w = reader*(s.readGuards-1)+writer*s.writeGuards
    rw [hsub,hnone,reader]
    omega
  · rw [hsub]
    exact Nat.lt_of_le_of_lt (Nat.sub_le _ _) hs.fits

theorem Inv.dropWrite (hpos : 0 < s.returnedWrites) :
    ({ s with state := 0, returnedWrites := s.returnedWrites-1 } : System harts).Inv := by
  have hsingle : s.returnedWrites+population Pc.entered s.pc ≤ 1 := hs.single
  have hnone : s.returnedWrites-1+population Pc.entered s.pc = 0 := by omega
  have hreads : s.readGuards = 0 := by
    rcases hs.apart with hreads | hzero
    · exact hreads
    · rw [writeGuards] at hzero
      omega
  refine ⟨?_,Nat.two_pow_pos 64,?_,.inl hreads,hs.waiting,hs.seen⟩
  · change 0 = reader*s.readGuards+writer*(s.returnedWrites-1+population Pc.entered s.pc)
    rw [hnone,hreads]
    rfl
  · change s.returnedWrites-1+population Pc.entered s.pc ≤ 1
    omega

theorem Inv.step {a : Fin harts.count × Act} (hstep : s.step a = some s') : s'.Inv := by
  obtain ⟨h,act⟩ := a
  cases act with
  | advance => exact hs.advance hstep
  | read =>
    obtain ⟨hpc,he⟩ := ite_none_right_eq_some.mp hstep
    obtain rfl := some.inj he
    exact hs.goto (by rw [hpc]; rfl) (by rw [hpc]; rfl) (fun _ _ he => nomatch he)
  | write =>
    obtain ⟨hpc,he⟩ := ite_none_right_eq_some.mp hstep
    obtain rfl := some.inj he
    exact hs.goto (by rw [hpc]; rfl) (by rw [hpc]; rfl) (fun _ _ he => nomatch he)
  | dropRead =>
    simp only [System.step] at hstep
    generalize hw : wrap (s.state+wordRange-reader) = w at hstep
    obtain ⟨⟨_,hpos⟩,he⟩ := ite_none_right_eq_some.mp hstep
    obtain rfl := some.inj he
    exact hs.dropRead hpos hw
  | dropWrite =>
    obtain ⟨⟨_,hpos⟩,he⟩ := ite_none_right_eq_some.mp hstep
    obtain rfl := some.inj he
    exact hs.dropWrite hpos

end

/-- In every state of every run the words of the lock count the guards and the waiting writers, and a
write guard excludes all others. -/
theorem rwlock_excludes {acts : List (Fin harts.count × Act)} (hrun : run step acts new = some s) :
    s.state = 2 * s.readGuards + s.writeGuards ∧ s.writeGuards ≤ 1 ∧
      ¬ (0 < s.readGuards ∧ 0 < s.writeGuards) ∧ s.waitingWriters = s.writers := by
  have hs : s.Inv := run_invariant (fun _ _ _ hs => hs.step) inv_new hrun
  have hword := hs.word
  have hapart := hs.apart
  simp only [reader,writer] at hword
  exact ⟨by omega,hs.single,by omega,hs.waiting⟩

def twoHarts : Harts := ⟨2,by decide⟩

def contended : List (Fin twoHarts.count × Act) :=
  let first : Fin twoHarts.count := ⟨0,by decide⟩
  let second : Fin twoHarts.count := ⟨1,by decide⟩
  [(first, .read),(first, .advance),(second, .write),(first, .advance),(second, .advance),
    (first, .advance),(second, .advance)]

theorem rwlock_excludes_contended : ∃ s, run step contended new = some s ∧
    (s.state = 2 ∧ s.waitingWriters = 1) ∧
    s.state = 2 * s.readGuards + s.writeGuards ∧ s.waitingWriters = s.writers := by
  have hvalues : (run step contended new).map (fun s => (s.state, s.waitingWriters)) = some (2, 1) := by
    decide
  obtain ⟨s,hrun,hs⟩ := map_eq_some_iff.mp hvalues
  obtain ⟨hword,_,_,hwaiting⟩ := rwlock_excludes hrun
  exact ⟨s,hrun,Prod.mk.inj hs,hword,hwaiting⟩

/-- The read guards, and those that readers may still get while a writer waits. -/
def readers (s : System harts) : Nat := s.readGuards + population Pc.passed s.pc

theorem readers_le (hguards : s'.readGuards = s.readGuards)
    (hmove : s'.pc = Function.update s.pc h pc)
    (hpc : (Pc.passed pc).toNat ≤ (Pc.passed (s.pc h)).toNat) : s'.readers ≤ s.readers := by
  have hcount := population_update Pc.passed s.pc h pc
  rw [readers,readers,hguards,hmove]
  omega

theorem readers_advance (hw : s.waitingWriters ≠ 0) (hstep : s.advance h = some s') :
    s'.readers ≤ s.readers := by
  unfold advance at hstep
  split at hstep
  next => cases hstep
  next =>
    rw [if_pos hw] at hstep
    obtain rfl := some.inj hstep
    exact readers_le rfl rfl (Nat.zero_le _)
  next hpc =>
    obtain rfl := some.inj hstep
    exact readers_le rfl rfl (by rw [hpc]; exact Bool.toNat_le _)
  next hpc =>
    split at hstep
    next =>
      -- the guard takes the place of the reader that gets it
      obtain rfl := some.inj hstep
      have hcount := population_update Pc.passed s.pc h .idle
      rw [hpc] at hcount
      simp only [readers,goto,Pc.passed,Bool.toNat_true,Bool.toNat_false] at hcount ⊢
      omega
    next =>
      obtain rfl := some.inj hstep
      exact readers_le rfl rfl (Nat.zero_le _)
  next =>
    obtain rfl := some.inj hstep
    exact readers_le rfl rfl (Nat.zero_le _)
  next =>
    split at hstep
    next =>
      obtain rfl := some.inj hstep
      exact readers_le rfl rfl (Nat.zero_le _)
    next =>
      obtain rfl := some.inj hstep
      exact le_rfl
  next =>
    obtain rfl := some.inj hstep
    exact readers_le rfl rfl (Nat.zero_le _)

theorem Inv.readers_step (hs : s.Inv) (hw : 0 < s.writers) {a : Fin harts.count × Act}
    (hstep : s.step a = some s') : s'.readers + [a].countP (·.2 = .dropRead) ≤ s.readers := by
  obtain ⟨h,act⟩ := a
  cases act with
  | advance => exact readers_advance (hs.waiting ▸ hw.ne') hstep
  | dropRead =>
    obtain ⟨⟨_,hpos⟩,he⟩ := ite_none_right_eq_some.mp hstep
    obtain rfl := some.inj he
    simp only [readers,List.countP_singleton,decide_true,if_true]
    omega
  | dropWrite =>
    obtain ⟨_,he⟩ := ite_none_right_eq_some.mp hstep
    obtain rfl := some.inj he
    exact le_rfl
  | _ =>
    obtain ⟨_,he⟩ := ite_none_right_eq_some.mp hstep
    obtain rfl := some.inj he
    exact readers_le rfl rfl (Nat.zero_le _)

/-- While a writer waits, readers get at most as many guards as had looked before. -/
theorem waiting_writer_preferred {acts acts' : List (Fin harts.count × Act)}
    (hrun : run step acts new = some s) (hwait : EachStep step (fun s _ => 0 < s.writers) acts' s)
    (hrun' : run step acts' s = some s') :
    s'.readGuards + acts'.countP (·.2 = .dropRead) ≤ s.readGuards + population Pc.passed s.pc := by
  have hs : s.Inv := run_invariant (fun _ _ _ hs => hs.step) inv_new hrun
  suffices s'.readers + acts'.countP (·.2 = .dropRead) ≤ s.readers by
    simp only [readers] at this
    omega
  clear hrun
  induction acts' generalizing s with
  | nil =>
    obtain rfl := some.inj hrun'
    exact le_rfl
  | cons a acts' ih =>
    obtain ⟨t,ht,hrest⟩ := run_cons hrun'
    have hle := ih (hwait.2 t ht) hrest (hs.step ht)
    have hone := hs.readers_step hwait.1 ht
    rw [← List.singleton_append,List.countP_append]
    omega

/-- The reader enters after the writer has announced itself. -/
theorem waiting_writer_preferred_contended : ∃ s s', run step (contended.take 5) new = some s ∧
    run step (contended.drop 5) s = some s' ∧ s'.readGuards = 1 ∧
    s'.readGuards + (contended.drop 5).countP (·.2 = .dropRead) ≤
      s.readGuards + population Pc.passed s.pc := by
  have hvalues : ((run step (contended.take 5) new).bind fun s =>
      if EachStep step (fun s _ => 0 < s.writers) (contended.drop 5) s then
        (run step (contended.drop 5) s).map readGuards else none) = some 1 := by decide
  obtain ⟨s,hrun,hs⟩ := bind_eq_some_iff.mp hvalues
  obtain ⟨hwait,hs⟩ := ite_none_right_eq_some.mp hs
  obtain ⟨s',hrun',hguards⟩ := map_eq_some_iff.mp hs
  exact ⟨s,s',hrun,hrun',hguards,waiting_writer_preferred hrun hwait hrun'⟩

end System

end RwLock

end Athera
