import Mathlib.Data.Nat.Basic
import Mathlib.Logic.Function.Basic
import Athera.Framework.Runs

/-!
# The virtqueue

`post_avail` and `wait_used` of `driver/virtio_mmio/queue.rs` under the lock of the queue, next to a
device that takes the entries of the avail ring in order. Histories are kept beside the
queue.
-/

namespace Athera

open Framework List Option Function

namespace VirtQueue

def ringSize : Nat := 256

/-- `avail.idx` and `used.idx` are `u16`. -/
def idxRange : Nat := 65536

structure UsedElement where
  id : Nat
  len : Nat
deriving DecidableEq, Repr

inductive Driver where
  | idle
  | readUsed
  | fillSlot (lastUsed : Nat)
  | advance (lastUsed : Nat)
  | poll (lastUsed : Nat)
  | fetch (slot : Nat)
deriving DecidableEq, Repr

/-- A published or taken entry: its slot, the head in the slot and the descriptors. -/
structure Entry (δ : Type) where
  slot : Nat
  head : Nat
  desc : δ
deriving DecidableEq, Repr

structure State (δ : Type) where
  desc : δ
  availIdx : Nat
  availRing : Nat → Nat
  usedIdx : Nat
  usedRing : Nat → UsedElement
  driver : Driver
  /-- The indices the device keeps for itself. -/
  nextAvail : Nat
  nextUsed : Nat
  published : List (Entry δ)
  taken : List (Entry δ)
  written : List UsedElement
  /-- How many elements `used.idx` has announced. -/
  announced : Nat
  returned : List UsedElement

variable {δ : Type}

namespace State

/-- A zeroed queue. -/
def new (desc : δ) : State δ :=
  ⟨desc,0,fun _ => 0,0,fun _ => ⟨0,0⟩,.idle,0,0,[],[],[],0,[]⟩

/-- The next step of the driver in `submit`, after the descriptors. -/
def drive (s : State δ) : Option (State δ) :=
  match s.driver with
  | .idle => none
  | .readUsed => some { s with driver := .fillSlot s.usedIdx }
  | .fillSlot lastUsed =>
    some { s with
      availRing := update s.availRing (s.availIdx % ringSize) 0, driver := .advance lastUsed }
  | .advance lastUsed =>
    some { s with
      availIdx := (s.availIdx + 1) % idxRange
      published := s.published ++ [⟨s.availIdx % ringSize,0,s.desc⟩]
      driver := .poll lastUsed }
  | .poll lastUsed =>
    if s.usedIdx ≠ lastUsed then
      some { s with driver := .fetch ((s.usedIdx + (idxRange - 1)) % idxRange % ringSize) }
    else some s
  | .fetch slot => some { s with returned := s.returned ++ [s.usedRing slot], driver := .idle }

inductive Act (δ : Type) where
  | submit (desc : δ)
  | drive
  | take
  | complete (e : UsedElement)
  | announce

def step (s : State δ) : Act δ → Option (State δ)
  | .submit desc => if s.driver = .idle then some { s with desc := desc, driver := .readUsed } else none
  | .drive => s.drive
  | .take =>
    if s.availIdx ≠ s.nextAvail then
      some { s with
        nextAvail := (s.nextAvail + 1) % idxRange
        taken := s.taken ++
          [⟨s.nextAvail % ringSize,s.availRing (s.nextAvail % ringSize),s.desc⟩] }
    else none
  | .complete e =>
    if s.written.length < s.taken.length then
      some { s with
        usedRing := update s.usedRing (s.nextUsed % ringSize) e
        nextUsed := (s.nextUsed + 1) % idxRange
        written := s.written ++ [e] }
    else none
  | .announce => some { s with usedIdx := s.nextUsed, announced := s.written.length }

/-- How far driver and device are: at most one request is under way. -/
structure Counts (s : State δ) : Prop where
  announced : s.returned.length ≤ s.announced ∧ s.announced ≤ s.written.length
  written : s.written.length ≤ s.taken.length
  taken : s.taken.length ≤ s.published.length
  published : s.published.length ≤ s.returned.length + 1
  availIdx : s.availIdx = s.published.length % idxRange
  nextAvail : s.nextAvail = s.taken.length % idxRange
  nextUsed : s.nextUsed = s.written.length % idxRange
  usedIdx : s.usedIdx = s.announced % idxRange

def Known (s : State δ) : Prop :=
  match s.driver with
  | .idle => s.published.length = s.returned.length
  | .readUsed => s.published.length = s.returned.length
  | .fillSlot lastUsed =>
    s.published.length = s.returned.length ∧ lastUsed = s.returned.length % idxRange
  | .advance lastUsed =>
    s.published.length = s.returned.length ∧ lastUsed = s.returned.length % idxRange ∧
      s.availRing (s.returned.length % ringSize) = 0
  | .poll lastUsed =>
    s.published.length = s.returned.length + 1 ∧ lastUsed = s.returned.length % idxRange
  | .fetch slot =>
    s.announced = s.returned.length + 1 ∧ slot = s.returned.length % ringSize

/-- The request under way is in its slot until it is taken, and its element until it is fetched. -/
structure Content (s : State δ) : Prop where
  taken : s.taken <+: s.published
  returned : s.returned <+: s.written
  entry : s.published.length = s.returned.length + 1 →
    s.published[s.returned.length]? =
      some ⟨s.returned.length % ringSize,s.availRing (s.returned.length % ringSize),s.desc⟩
  element : s.written.length = s.returned.length + 1 →
    s.written[s.returned.length]? = some (s.usedRing (s.returned.length % ringSize))

structure Inv (s : State δ) : Prop where
  counts : Counts s
  known : Known s
  content : Content s

variable {s s' : State δ}

theorem inv_new (desc : δ) : (new desc).Inv := by
  refine ⟨?_,rfl,?_⟩
  · constructor <;> simp [new]
  · constructor <;> simp [new]

theorem prefix_snoc {α : Type} {l l' : List α} {a : α} (h : l <+: l') (ha : l'[l.length]? = some a) :
    l ++ [a] <+: l' := by
  obtain ⟨rest,rfl⟩ := h
  rw [getElem?_append_right (Nat.le_refl _)] at ha
  cases rest with
  | nil => cases ha
  | cons b rest =>
    obtain rfl : b = a := by simpa using ha
    exact ⟨rest,by simp⟩

theorem Inv.goto (h : s.Inv) {d : Driver} (hknown : ({ s with driver := d } : State δ).Known) :
    ({ s with driver := d } : State δ).Inv := by
  obtain ⟨h1,h2,h3,h4,h5,h6,h7,h8⟩ := h.counts
  obtain ⟨ht,hr,hentry,helement⟩ := h.content
  exact ⟨⟨h1,h2,h3,h4,h5,h6,h7,h8⟩,hknown,⟨ht,hr,hentry,helement⟩⟩

theorem Inv.submit (h : s.Inv) (hidle : s.driver = .idle) (desc : δ) :
    ({ s with desc := desc, driver := .readUsed } : State δ).Inv := by
  have hknown := h.known
  rw [Known,hidle] at hknown
  obtain ⟨h1,h2,h3,h4,h5,h6,h7,h8⟩ := h.counts
  refine ⟨⟨h1,h2,h3,h4,h5,h6,h7,h8⟩,hknown,⟨h.content.taken,h.content.returned,?_,h.content.element⟩⟩
  -- nothing is under way
  intro hp
  change s.published.length = s.returned.length+1 at hp
  omega

theorem Inv.readUsed (h : s.Inv) (hd : s.driver = .readUsed) :
    ({ s with driver := .fillSlot s.usedIdx } : State δ).Inv := by
  have hknown := h.known
  rw [Known,hd] at hknown
  have hann : s.announced = s.returned.length := by
    have h1 := h.counts.announced
    have h2 := h.counts.written
    have h3 := h.counts.taken
    omega
  refine h.goto ⟨hknown,?_⟩
  rw [h.counts.usedIdx,hann]

theorem Counts.slot (h : s.Counts) (hp : s.published.length = s.returned.length) :
    s.availIdx%ringSize = s.returned.length%ringSize := by
  rw [h.availIdx]
  simp only [idxRange,ringSize]
  omega

section

variable (h : s.Inv)
include h

variable {lastUsed : Nat}

theorem Inv.fillSlot (hd : s.driver = .fillSlot lastUsed) : ({ s with
      availRing := update s.availRing (s.availIdx%ringSize) 0
      driver := .advance lastUsed } : State δ).Inv := by
  have hknown := h.known
  rw [Known,hd] at hknown
  obtain ⟨hp,hlast⟩ := hknown
  obtain ⟨h1,h2,h3,h4,h5,h6,h7,h8⟩ := h.counts
  refine ⟨⟨h1,h2,h3,h4,h5,h6,h7,h8⟩,⟨hp,hlast,?_⟩,
    ⟨h.content.taken,h.content.returned,?_,h.content.element⟩⟩
  · change update s.availRing (s.availIdx%ringSize) 0 (s.returned.length%ringSize) = 0
    rw [h.counts.slot hp,update_self]
  · intro hmore
    change s.published.length = s.returned.length+1 at hmore
    omega

theorem Inv.advance (hd : s.driver = .advance lastUsed) : ({ s with
      availIdx := (s.availIdx+1)%idxRange
      published := s.published ++ [⟨s.availIdx%ringSize,0,s.desc⟩]
      driver := .poll lastUsed } : State δ).Inv := by
  have hknown := h.known
  rw [Known,hd] at hknown
  obtain ⟨hp,hlast,hring⟩ := hknown
  have hlen : (s.published ++ [(⟨s.availIdx%ringSize,0,s.desc⟩ : Entry δ)]).length =
      s.returned.length+1 := by
    rw [length_append,hp]
    rfl
  obtain ⟨h1,h2,h3,h4,h5,h6,h7,h8⟩ := h.counts
  refine ⟨⟨h1,h2,?_,Nat.le_of_eq hlen,?_,h6,h7,h8⟩,⟨hlen,hlast⟩,⟨?_,h.content.returned,?_,h.content.element⟩⟩
  · rw [hlen]
    change s.taken.length ≤ s.returned.length+1
    omega
  · rw [hlen]
    rw [h5,hp,Nat.mod_add_mod]
  · exact h.content.taken.trans (prefix_append _ _)
  · intro _
    rw [h.counts.slot hp,hring,← hp,getElem?_append_right (Nat.le_refl _),Nat.sub_self]
    rfl

theorem Inv.poll (hd : s.driver = .poll lastUsed) (hne : s.usedIdx ≠ lastUsed) :
    ({ s with driver := .fetch ((s.usedIdx+(idxRange-1))%idxRange%ringSize) } : State δ).Inv := by
  have hknown := h.known
  rw [Known,hd] at hknown
  obtain ⟨hp,hlast⟩ := hknown
  have hmore : s.announced ≠ s.returned.length := by
    intro he
    rw [h.counts.usedIdx,he,hlast] at hne
    exact hne rfl
  have hann : s.announced = s.returned.length+1 := by
    have h1 := h.counts.announced
    have h2 := h.counts.written
    have h3 := h.counts.taken
    omega
  refine h.goto ⟨hann,?_⟩
  rw [h.counts.usedIdx]
  simp only [idxRange,ringSize]
  omega

theorem Inv.fetch {slot : Nat} (hd : s.driver = .fetch slot) :
    ({ s with returned := s.returned ++ [s.usedRing slot], driver := .idle } : State δ).Inv := by
  have hknown := h.known
  rw [Known,hd] at hknown
  obtain ⟨hann,hslot⟩ := hknown
  obtain ⟨h1,h2,h3,h4,h5,h6,h7,h8⟩ := h.counts
  have hwritten : s.written.length = s.returned.length+1 := by omega
  have helement := h.content.element hwritten
  rw [← hslot] at helement
  have hlen : (s.returned ++ [s.usedRing slot]).length = s.returned.length+1 := length_append
  refine ⟨⟨?_,h2,h3,?_,h5,h6,h7,h8⟩,?_,⟨h.content.taken,prefix_snoc h.content.returned helement,?_,?_⟩⟩
  · rw [hlen]
    change s.returned.length+1 ≤ s.announced ∧ s.announced ≤ s.written.length
    omega
  · rw [hlen]
    change s.published.length ≤ s.returned.length+1+1
    omega
  · change s.published.length = (s.returned ++ [s.usedRing slot]).length
    omega
  · intro hmore
    rw [hlen] at hmore
    change s.published.length = s.returned.length+1+1 at hmore
    omega
  · intro hmore
    rw [hlen] at hmore
    change s.written.length = s.returned.length+1+1 at hmore
    omega

theorem Inv.drive (hstep : s.drive = some s') : s'.Inv := by
  unfold State.drive at hstep
  cases hd : s.driver with
  | idle =>
    rw [hd] at hstep
    cases hstep
  | readUsed =>
    rw [hd] at hstep
    exact some.inj hstep ▸ h.readUsed hd
  | fillSlot lastUsed =>
    rw [hd] at hstep
    exact some.inj hstep ▸ h.fillSlot hd
  | advance lastUsed =>
    rw [hd] at hstep
    exact some.inj hstep ▸ h.advance hd
  | poll lastUsed =>
    rw [hd] at hstep
    dsimp only at hstep
    split at hstep
    next hne => exact some.inj hstep ▸ h.poll hd hne
    next => exact some.inj hstep ▸ h
  | fetch slot =>
    rw [hd] at hstep
    exact some.inj hstep ▸ h.fetch hd

theorem Inv.take (hne : s.availIdx ≠ s.nextAvail) : ({ s with
      nextAvail := (s.nextAvail+1)%idxRange
      taken := s.taken ++ [⟨s.nextAvail%ringSize,s.availRing (s.nextAvail%ringSize),s.desc⟩] } :
        State δ).Inv := by
  have hcounts := h.counts
  have hcontent := h.content
  have h1 := hcounts.announced
  have h2 := hcounts.written
  have h3 := hcounts.taken
  have h4 := hcounts.published
  have hmore : s.taken.length ≠ s.published.length := by
    intro he
    rw [hcounts.availIdx,hcounts.nextAvail,he] at hne
    exact hne rfl
  have ht : s.taken.length = s.returned.length := by omega
  have hp : s.published.length = s.returned.length+1 := by omega
  have hslot : s.nextAvail%ringSize = s.returned.length%ringSize := by
    rw [hcounts.nextAvail]
    simp only [idxRange,ringSize]
    omega
  have hentry := hcontent.entry hp
  have hlen : (s.taken ++ [(⟨s.nextAvail%ringSize,s.availRing (s.nextAvail%ringSize),s.desc⟩ :
      Entry δ)]).length = s.taken.length+1 := length_append
  refine ⟨⟨hcounts.announced,?_,?_,hcounts.published,hcounts.availIdx,?_,hcounts.nextUsed,
    hcounts.usedIdx⟩,h.known,⟨?_,hcontent.returned,hcontent.entry,hcontent.element⟩⟩
  · rw [hlen]
    change s.written.length ≤ s.taken.length+1
    omega
  · rw [hlen]
    change s.taken.length+1 ≤ s.published.length
    omega
  · rw [hlen]
    rw [hcounts.nextAvail,Nat.mod_add_mod]
  · apply prefix_snoc hcontent.taken
    rw [ht,hslot]
    exact hentry

theorem Inv.complete (hlt : s.written.length < s.taken.length) (e : UsedElement) : ({ s with
      usedRing := update s.usedRing (s.nextUsed%ringSize) e
      nextUsed := (s.nextUsed+1)%idxRange
      written := s.written ++ [e] } : State δ).Inv := by
  have hcounts := h.counts
  have hcontent := h.content
  have h1 := hcounts.announced
  have h3 := hcounts.taken
  have h4 := hcounts.published
  have hw : s.written.length = s.returned.length := by omega
  have hslot : s.nextUsed%ringSize = s.returned.length%ringSize := by
    rw [hcounts.nextUsed]
    simp only [idxRange,ringSize]
    omega
  have hlen : (s.written ++ [e]).length = s.written.length+1 := length_append
  refine ⟨⟨?_,?_,hcounts.taken,hcounts.published,hcounts.availIdx,hcounts.nextAvail,?_,
    hcounts.usedIdx⟩,?_,⟨hcontent.taken,?_,hcontent.entry,?_⟩⟩
  · rw [hlen]
    change s.returned.length ≤ s.announced ∧ s.announced ≤ s.written.length+1
    omega
  · rw [hlen]
    change s.written.length+1 ≤ s.taken.length
    omega
  · rw [hlen]
    rw [hcounts.nextUsed,Nat.mod_add_mod]
  · exact h.known
  · exact hcontent.returned.trans (prefix_append _ _)
  · intro _
    change (s.written ++ [e])[s.returned.length]? =
      some (update s.usedRing (s.nextUsed%ringSize) e (s.returned.length%ringSize))
    rw [hslot,update_self,← hw,getElem?_append_right (Nat.le_refl _),Nat.sub_self]
    rfl

theorem Inv.announce :
    ({ s with usedIdx := s.nextUsed, announced := s.written.length } : State δ).Inv := by
  have hcounts := h.counts
  have hcontent := h.content
  have h1 := hcounts.announced
  refine ⟨⟨⟨?_,Nat.le_refl _⟩,hcounts.written,hcounts.taken,hcounts.published,hcounts.availIdx,
    hcounts.nextAvail,hcounts.nextUsed,hcounts.nextUsed⟩,?_,
    ⟨hcontent.taken,hcontent.returned,hcontent.entry,hcontent.element⟩⟩
  · change s.returned.length ≤ s.written.length
    omega
  · have hknown := h.known
    unfold Known at hknown ⊢
    cases hd : s.driver with
    | fetch slot =>
      -- the element that was announced is the only one
      rw [hd] at hknown
      have h2 := hcounts.written
      have h3 := hcounts.taken
      have h4 := hcounts.published
      obtain ⟨hann,hslot⟩ := hknown
      refine ⟨?_,hslot⟩
      change s.written.length = s.returned.length+1
      omega
    | _ =>
      rw [hd] at hknown
      exact hknown

theorem Inv.step {a : Act δ} (hstep : s.step a = some s') : s'.Inv := by
  cases a with
  | submit desc =>
    obtain ⟨hidle,he⟩ := ite_none_right_eq_some.mp hstep
    exact some.inj he ▸ h.submit hidle desc
  | drive => exact h.drive hstep
  | take =>
    obtain ⟨hne,he⟩ := ite_none_right_eq_some.mp hstep
    exact some.inj he ▸ h.take hne
  | complete e =>
    obtain ⟨hlt,he⟩ := ite_none_right_eq_some.mp hstep
    exact some.inj he ▸ h.complete hlt e
  | announce => exact some.inj hstep ▸ h.announce

end

/-- The device takes what was published, entry by entry and from the same slots; the driver returns
what the device wrote; between two submits nothing is outstanding; and a driver that polls sees its
completion as soon as it is announced. -/
theorem completions_matched {desc : δ} {acts : List (Act δ)} (hrun : run step acts (new desc) = some s) :
    s.taken <+: s.published ∧ s.returned <+: s.written ∧
      (s.returned.length ≤ s.written.length ∧ s.written.length ≤ s.taken.length ∧
        s.taken.length ≤ s.published.length ∧ s.published.length ≤ s.returned.length + 1) ∧
      (s.driver = .idle → s.taken = s.published ∧ s.returned = s.written ∧
        s.published.length = s.returned.length) ∧
      ∀ lastUsed, s.driver = .poll lastUsed →
        (s.usedIdx ≠ lastUsed ↔ s.announced = s.returned.length + 1) := by
  have h : s.Inv := run_invariant (fun _ _ _ h => h.step) (inv_new desc) hrun
  have h1 := h.counts.announced
  have h2 := h.counts.written
  have h3 := h.counts.taken
  have h4 := h.counts.published
  refine ⟨h.content.taken,h.content.returned,by omega,?_,?_⟩
  · intro hidle
    have hknown := h.known
    rw [Known,hidle] at hknown
    exact ⟨h.content.taken.eq_of_length (by omega),h.content.returned.eq_of_length (by omega),hknown⟩
  · intro lastUsed hpoll
    have hknown := h.known
    rw [Known,hpoll] at hknown
    rw [h.counts.usedIdx,hknown.2]
    simp only [idxRange]
    omega

/-- Two requests; the driver polls once too early for the first. -/
def twoRequests : List (Act Nat) :=
  [.submit 7,.drive,.drive,.drive,.take,.drive,.complete ⟨0,512⟩,.announce,.drive,.drive,
    .submit 8,.drive,.drive,.drive,.take,.complete ⟨0,16⟩,.announce,.drive,.drive]

theorem completions_matched_two : ∃ s, run step twoRequests (new 0) = some s ∧
    s.returned = [⟨0,512⟩,⟨0,16⟩] ∧ s.driver = .idle ∧ s.taken = s.published ∧
    s.returned = s.written := by
  have hvalues : (run step twoRequests (new 0)).map (fun s => (s.returned, s.driver)) =
      some ([⟨0,512⟩,⟨0,16⟩], .idle) := by decide
  obtain ⟨s,hrun,hs⟩ := map_eq_some_iff.mp hvalues
  obtain ⟨hreturned,hidle⟩ := Prod.mk.inj hs
  obtain ⟨htaken,hwritten,_⟩ := (completions_matched hrun).2.2.2.1 hidle
  exact ⟨s,hrun,hreturned,hidle,htaken,hwritten⟩

end State

end VirtQueue

end Athera
