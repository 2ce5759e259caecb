import Athera.Framework.Answers

/-!
# Input from the serial port

`rbr_thr_if_ready` returns an `Option<u8>` and so reads one of these: the received byte is the tag,
and the value is the register behind it.
-/

namespace Athera

open Framework List

/-- The device as `read` sees it: the received bytes that have been taken from it and those that
have not, and the interrupt enable register. -/
@[ext]
structure Ns16550a where
  taken : List UInt8
  pending : List UInt8
  ier : UInt8

namespace Ns16550a

def receive (u : Ns16550a) (bytes : List UInt8) : Ns16550a :=
  { u with pending := u.pending ++ bytes }

/-- The line status: data ready, and the transmitter is empty. -/
def lsr (u : Ns16550a) : UInt8 := if u.pending.isEmpty then 0x20 else 0x21

def dr (status : UInt8) : Bool := status &&& 1 != 0

/-- A volatile read of one byte. At offset 0 it consumes a received byte. -/
def readByte (u : Ns16550a) : Nat → UInt8 × Ns16550a
  | 0 =>
    match u.pending with
    | [] => (0, u)
    | b :: bs => (b, { u with taken := u.taken ++ [b], pending := bs })
  | 1 => (u.ier, u)
  | 5 => (u.lsr, u)
  | _ => (0, u)

/-- `Resource::read` at a type of `n` bytes. -/
def readBytes (u : Ns16550a) (offset : Nat) : Nat → List UInt8 × Ns16550a
  | 0 => ([], u)
  | n + 1 =>
    let (b, u) := u.readByte offset
    let (bs, u) := u.readBytes (offset + 1) n
    (b :: bs, u)

/-- The value that the two bytes of an `Option<u8>` stand for. What a program makes of a tag other
than 0 and 1 is not defined: it is given by `invalid`. -/
def optionOfBytes (invalid : UInt8 → UInt8 → Option UInt8) : List UInt8 → Option UInt8
  | [tag, value] => if tag = 0 then none else if tag = 1 then some value else invalid tag value
  | _ => none

variable (invalid : UInt8 → UInt8 → Option UInt8)

def rbrThrIfReady (u : Ns16550a) : Option UInt8 × Ns16550a :=
  if dr u.lsr then (u.readBytes 0 2).map (optionOfBytes invalid) id else (none, u)

/-- The loop of `read`. The buffer has as many bytes as `arrivals` has entries, and before the line
status is read for a byte of the buffer, the bytes of its entry arrive. -/
def read (u : Ns16550a) : List (List UInt8) → List UInt8 × Ns16550a
  | [] => ([], u)
  | bytes :: arrivals =>
    match (u.receive bytes).rbrThrIfReady invalid with
    | (none, u) => ([], u)
    | (some value, u) => (u.read arrivals).map (value :: ·) id

/-- In every call the bytes returned are those that were taken, and there are fewer than asked for
only when no data is left. -/
def Delivers : Ns16550a → List (List (List UInt8)) → Prop
  | _, [] => True
  | u, call :: calls =>
    (u.read invalid call).2.taken = u.taken ++ (u.read invalid call).1 ∧
      ((u.read invalid call).1.length < call.length → dr (u.read invalid call).2.lsr = false) ∧
      Delivers (u.read invalid call).2 calls

/-- The bytes that are in the device when a call looks for them, up to the first look that finds
none, and those that are left. -/
def arriving : List UInt8 → List (List UInt8) → List UInt8 × List UInt8
  | pending, [] => ([], pending)
  | pending, bytes :: arrivals =>
    match pending ++ bytes with
    | [] => ([], [])
    | b :: bs => (arriving bs arrivals).map (b :: ·) id

variable {invalid} {u : Ns16550a} {call : List (List UInt8)} {calls : List (List (List UInt8))}

@[simp]
theorem dr_lsr : dr u.lsr = !u.pending.isEmpty := by
  have hready : dr 0x21 = true := by decide
  rw [lsr]
  cases u.pending with
  | nil => rfl
  | cons b bs => exact hready

theorem rbrThrIfReady_nil (h : u.pending = []) : u.rbrThrIfReady invalid = (none, u) := by
  rw [rbrThrIfReady,dr_lsr,h]
  rfl

theorem read_cons_nil {bytes : List UInt8} (h : u.pending++bytes = []) :
    u.read invalid (bytes::call) = ([], u.receive bytes) := by
  have hready := @rbrThrIfReady_nil invalid (u.receive bytes) h
  rw [read,hready]

theorem read_cons {b : UInt8} {bytes bs : List UInt8} (h : u.pending++bytes = b::bs) :
    u.read invalid (bytes::call) = match optionOfBytes invalid [b,u.ier] with
      | none => ([], ⟨u.taken ++ [b],bs,u.ier⟩)
      | some value => (read invalid ⟨u.taken ++ [b],bs,u.ier⟩ call).map (value :: ·) id := by
  have hready : (u.receive bytes).rbrThrIfReady invalid =
      (optionOfBytes invalid [b,u.ier], ⟨u.taken ++ [b],bs,u.ier⟩) := by
    rw [rbrThrIfReady]
    simp only [receive] at h ⊢
    simp [readBytes,readByte,h]
  rw [read,hready]
  cases optionOfBytes invalid [b,u.ier] <;> rfl

theorem exists_taken (u : Ns16550a) (call : List (List UInt8)) :
    ∃ bytes, (u.read invalid call).2.taken = u.taken++bytes := by
  induction call generalizing u with
  | nil => exact ⟨[],(append_nil _).symm⟩
  | cons bytes call ih =>
    cases h : u.pending++bytes with
    | nil =>
      rw [read_cons_nil h]
      exact ⟨[],(append_nil _).symm⟩
    | cons b bs =>
      rw [read_cons h]
      cases optionOfBytes invalid [b,u.ier] with
      | none => exact ⟨[b],rfl⟩
      | some value =>
        obtain ⟨rest,hrest⟩ := ih ⟨u.taken ++ [b],bs,u.ier⟩
        refine ⟨b::rest,hrest.trans ?_⟩
        simp

theorem read_ones (h : ∀ b ∈ (arriving u.pending call).1, b = 1 ∧ u.ier = 1) :
    u.read invalid call = ((arriving u.pending call).1,
      ⟨u.taken++(arriving u.pending call).1,(arriving u.pending call).2,u.ier⟩) := by
  induction call generalizing u with
  | nil => simp [read,arriving]
  | cons bytes call ih =>
    cases hp : u.pending++bytes with
    | nil =>
      rw [read_cons_nil hp]
      simp [arriving,hp,receive]
    | cons b bs =>
      simp only [arriving,hp] at h ⊢
      obtain ⟨rfl,hier⟩ := h b mem_cons_self
      have hrest := @ih ⟨u.taken ++ [1],bs,u.ier⟩ fun b hb => h b (mem_cons_of_mem _ hb)
      have htag : optionOfBytes invalid [1,u.ier] = some 1 := by
        rw [hier]
        rfl
      rw [read_cons hp,htag]
      simp only [hrest]
      simp

theorem length_arriving_lt {pending : List UInt8}
    (h : (arriving pending call).1.length < call.length) : (arriving pending call).2 = [] := by
  induction call generalizing pending with
  | nil => exact absurd h (Nat.not_lt_zero _)
  | cons bytes call ih =>
    rw [arriving] at h ⊢
    cases hp : pending++bytes with
    | nil => rfl
    | cons b bs =>
      simp only [hp] at h
      exact ih (Nat.lt_of_succ_lt_succ h)

/-- A call that returns what it takes has met only bytes of the value 1. -/
theorem arriving_ones
    (h : (u.read (fun _ _ => none) call).2.taken = u.taken++(u.read (fun _ _ => none) call).1) :
    ∀ b ∈ (arriving u.pending call).1, b = 1 ∧ u.ier = 1 := by
  induction call generalizing u with
  | nil => exact fun b hb => absurd hb not_mem_nil
  | cons bytes call ih =>
    rw [arriving]
    cases hp : u.pending++bytes with
    | nil => exact fun b hb => absurd hb not_mem_nil
    | cons b bs =>
      rw [read_cons hp,optionOfBytes] at h
      by_cases hb : b = 1
      · subst hb
        rw [if_neg (by decide),if_pos rfl] at h
        simp only [Prod.map_snd,id_eq] at h
        -- what the rest of the call takes comes after this byte
        obtain ⟨rest,hrest⟩ := @exists_taken (fun _ _ => none) ⟨u.taken ++ [1],bs,u.ier⟩ call
        rw [hrest,append_assoc,append_cancel_left_eq] at h
        obtain ⟨hier,rfl⟩ := List.cons.inj h
        intro b hmem
        rcases mem_cons.mp hmem with rfl | hmem
        · exact ⟨rfl,hier.symm⟩
        · exact ih hrest b hmem
      · by_cases h0 : b = 0
        · simp [h0] at h
        · simp [hb] at h

/-- The bytes that the calls find in the device, one call after the other. -/
def arrivingAll : List UInt8 → List (List (List UInt8)) → List UInt8
  | _, [] => []
  | pending, call :: calls =>
    (arriving pending call).1 ++ arrivingAll (arriving pending call).2 calls

theorem delivers_of_ones (h : ∀ b ∈ arrivingAll u.pending calls, b = 1 ∧ u.ier = 1) :
    u.Delivers invalid calls := by
  induction calls generalizing u with
  | nil => exact trivial
  | cons call calls ih =>
    simp only [arrivingAll,mem_append] at h
    have hread := @read_ones invalid u call fun b hb => h b (.inl hb)
    rw [Delivers,hread]
    refine ⟨rfl,fun hshort => ?_,ih fun b hb => h b (.inr hb)⟩
    rw [dr_lsr,length_arriving_lt hshort]
    rfl

theorem ones_of_delivers (h : u.Delivers (fun _ _ => none) calls) :
    ∀ b ∈ arrivingAll u.pending calls, b = 1 ∧ u.ier = 1 := by
  induction calls generalizing u with
  | nil => exact fun b hb => absurd hb not_mem_nil
  | cons call calls ih =>
    obtain ⟨htaken,_,hrest⟩ := h
    have hones := arriving_ones htaken
    rw [read_ones hones] at hrest
    intro b hb
    rcases mem_append.mp hb with hb | hb
    · exact hones b hb
    · exact ih hrest b hb

theorem Delivers.taken (h : u.Delivers invalid calls) :
    (after (read invalid) u calls).taken = u.taken++(answers (read invalid) u calls).flatten := by
  induction calls generalizing u with
  | nil => exact (append_nil _).symm
  | cons call calls ih =>
    obtain ⟨htaken,_,hrest⟩ := h
    rw [Framework.after,answers,ih hrest,htaken,flatten_cons,append_assoc]

/-- Serial input is delivered unchanged, whatever becomes of invalid tags, exactly when every byte
that a call finds in the device is 1 and the interrupt enable register is 1. Then the bytes returned
are the first of those received. -/
theorem serial_input_unchanged_iff (ier : UInt8) (calls : List (List (List UInt8))) :
    ((∀ invalid, Delivers invalid ⟨[],[],ier⟩ calls) ↔
      ∀ b ∈ arrivingAll [] calls, b = 1 ∧ ier = 1) ∧
    ∀ invalid, Delivers invalid ⟨[],[],ier⟩ calls →
      (answers (read invalid) ⟨[],[],ier⟩ calls).flatten <+:
        (after (read invalid) ⟨[],[],ier⟩ calls).taken ++
          (after (read invalid) ⟨[],[],ier⟩ calls).pending := by
  refine ⟨⟨fun h => ones_of_delivers (h _),fun h invalid => delivers_of_ones h⟩,fun invalid h => ?_⟩
  rw [h.taken]
  exact prefix_append _ _

/-- A byte 0 is lost, and a byte 1 yields the interrupt enable register. -/
theorem serial_input_lost :
    (∀ invalid, read invalid ⟨[],[],0⟩ [[0]] = ([], ⟨[0],[],0⟩)) ∧
      (∀ invalid, read invalid ⟨[],[],0⟩ [[1]] = ([0], ⟨[1],[],0⟩)) ∧
      ∀ invalid, ¬ Delivers invalid ⟨[],[],0⟩ [[[0]]] := by
  have hlost : ∀ invalid, read invalid ⟨[],[],0⟩ [[0]] = ([], ⟨[0],[],0⟩) := fun _ => rfl
  refine ⟨hlost,fun _ => rfl,fun invalid h => ?_⟩
  rw [Delivers,hlost] at h
  exact absurd h.1 (by decide)

end Ns16550a

end Athera
