import Mathlib.Data.List.MinMax
import Mathlib.Data.Vector.Defs
import Athera.Mm.Pages
import Athera.Task.Tasks

/-!
# User memory in system calls

`syscall.rs`. Pointers are numbers; an access is the address of a byte. `validate_user_range` looks at
the first and the last byte of a buffer only. The scan of an array has no bound of its own, so it
runs with fuel.
-/

namespace Athera

open Framework

def ErrorCode.value : ErrorCode → Nat
  | .eSrch => wordRange - 3
  | .e2Big => wordRange - 7
  | .eBadF => wordRange - 9
  | .eNoMem => wordRange - 12
  | .eFault => wordRange - 14
  | .eExist => wordRange - 17
  | .eInval => wordRange - 22
  | .eNoSys => wordRange - 38

namespace Processes

def mappings (p : Processes) : Option MemorySet :=
  (p.current.bind p.tasks.map.get?).map Task.memorySet

/-- The pages of the mappings. -/
def blocks (p : Processes) : List Block :=
  (p.mappings.getD []).map fun m => ⟨(mappingRange m).1,(mappingRange m).2 - (mappingRange m).1⟩

def validateUserAddress (p : Processes) (addr : Nat) : Except ErrorCode Unit :=
  match p.mappings with
  | none => .error .eSrch
  | some ms =>
    if ms.any fun m => decide (m.va ≤ addr) && decide (addr < wrap (m.va + totalSize m.frames)) then
      .ok ()
    else .error .eFault

def validateUserRange (p : Processes) (addr len : Nat) : Except ErrorCode Unit :=
  if len = 0 then .ok ()
  else
    match checkedAdd addr len with
    | none => .error .eFault
    | some stop => do
      p.validateUserAddress addr
      p.validateUserAddress (stop - 1)

end Processes

inductive SyscallResult where
  | ret (value next : Nat)
  | yield
deriving DecidableEq, Repr

def fdErrno : Processes.FdError → Nat
  | .noTask => ErrorCode.eSrch.value
  | .badFd | .notReadable | .notWritable => ErrorCode.eBadF.value
  | .io e => wordRange - e.errno

/-- The result of a call, the processes after it, and the bytes of the caller that were accessed. -/
abbrev CallOutcome := SyscallResult × Processes × List Nat

section

variable (p : Processes) (sepc : Nat) (regs : Vector Nat 32)

/-- The common part of `READ` and `WRITE`. -/
def handleBuffer (op : Nat → Nat → Except Processes.FdError Nat × Processes × List Nat) :
    CallOutcome :=
  let ptr := regs[11]
  let len := regs[12]
  match p.validateUserRange ptr len with
  | .error e => (.ret e.value (wrap (sepc + 4)), p, [])
  | .ok () =>
    let (r, p, touched) := op regs[10] len
    let value := match r with
      | .ok n => n
      | .error e => fdErrno e
    (.ret value (wrap (sepc + 4)), p, touched.map (ptr + ·))

def handleRead : CallOutcome := handleBuffer p sepc regs p.readFd

def handleWrite : CallOutcome := handleBuffer p sepc regs p.writeFd

/-- `size_of::<WaitStatus>()`. -/
def waitStatusSize : Nat := 4

/-- `size_of::<ResourceUsage>()`. -/
def resourceUsageSize : Nat := 144

/-- A register as a signed number. -/
def toSigned (n : Nat) : Int := if n < 2 ^ 63 then n else (n : Int) - wordRange

/-- The check of an optional buffer; null stands for none. -/
def checkOptional (addr len : Nat) : Except ErrorCode Unit :=
  if addr = 0 then .ok () else p.validateUserRange addr len

def optionalBytes (addr len : Nat) : List Nat := if addr = 0 then [] else List.range' addr len

def handleWait4 : CallOutcome :=
  let status := regs[11]
  let usage := regs[13]
  match p.wait4 (toSigned regs[10]) (regs[12] % 2 == 1) with
  | (none, p) => (.yield, p, [])
  | (some result, p) =>
    let next := wrap (sepc + 4)
    if result.tid = 0 then (.ret 0 next, p, [])
    else
      match checkOptional p status waitStatusSize with
      | .error e => (.ret e.value next, p, [])
      | .ok () =>
        let written := optionalBytes status waitStatusSize
        match checkOptional p usage resourceUsageSize with
        | .error e => (.ret e.value next, p, written)
        | .ok () => (.ret result.tid next, p, written ++ optionalBytes usage resourceUsageSize)

end

open Processes
open List hiding Vector

section

variable {p : Processes} {addr len sepc a : Nat} {regs : Vector Nat 32}

section

variable {op : Nat → Nat → Except FdError Nat × Processes × List Nat}

end

/-- A device that uses the whole buffer, on reads as `/dev/zero` and on writes as the console. -/
def wholeDevice : File where
  ops :=
    { readAt := fun len _ => (.ok len, List.range len)
      writeAt := fun len _ => (.ok len, List.range len)
      readBounded := zeroDevice.readBounded
      writeBounded := zeroDevice.readBounded }
  offset := 0
  accmode := 2

/-- A task with two mapped pages and one unmapped page between them. -/
def gapTask : Processes where
  tasks :=
    { map := SortedMap.empty.insert 1
        { parent := none
          children := []
          status := .running
          memorySet := [⟨0xffffffc000000000,[⟨0x80800000,0x1000⟩],protToPageFlags 3⟩,
            ⟨0xffffffc000002000,[⟨0x80801000,0x1000⟩],protToPageFlags 3⟩]
          trapContext := ⟨Vector.replicate 32 0,0,0,0⟩
          exitCode := 0
          fdTable := [wholeDevice] }
      cursor := none }
  current := some 1

end

open Memory

def maxArgLen : Nat := 4096

section

variable (p : Processes) (mem : Memory)

/-- The scan for the end of a string: its length, and the bytes read. -/
def scanCstr (ptr : Nat) : Nat → Nat → Except ErrorCode Nat × List Nat
  | 0, _ => (.error .e2Big, [])
  | fuel + 1, len =>
    if mem (ptr + len) = 0 then (.ok len, [ptr + len])
    else if maxArgLen < len + 1 then (.error .e2Big, [ptr + len])
    else
      let (r, reads) := scanCstr ptr fuel (len + 1)
      (r, (ptr + len) :: reads)

/-- `core::str::from_utf8` on the bytes of a slice. -/
def strFromUtf8 (ptr len : Nat) : Option String :=
  String.fromUTF8? ⟨((List.range len).map fun i => mem (ptr + i)).toArray⟩

def readUserCstr (ptr : Nat) : Except ErrorCode String × List Nat :=
  match p.validateUserAddress ptr with
  | .error e => (.error e, [])
  | .ok () =>
    match scanCstr mem ptr (maxArgLen + 1) 0 with
    | (.error e, reads) => (.error e, reads)
    | (.ok len, reads) =>
      match strFromUtf8 mem ptr len with
      | none => (.error .eInval, reads ++ List.range' ptr len)
      | some s => (.ok s, reads ++ List.range' ptr len)

def readArrayFrom : Nat → Nat → Option (Except ErrorCode (List String)) × List Nat
  | 0, _ => (none, [])
  | fuel + 1, cur =>
    let item := mem.readWord cur
    let word := List.range' cur Memory.wordSize
    if item = 0 then (some (.ok []), word)
    else
      match readUserCstr p mem item with
      | (.error e, reads) => (some (.error e), word ++ reads)
      | (.ok s, reads) =>
        let (r, reads') := readArrayFrom fuel (cur + Memory.wordSize)
        (r.map (Except.map (s :: ·)), word ++ reads ++ reads')

def readUserStringArray (fuel ptr : Nat) : Option (Except ErrorCode (List String)) × List Nat :=
  match p.validateUserAddress ptr with
  | .error e => (some (.error e), [])
  | .ok () => readArrayFrom p mem fuel ptr

/-- The arguments of `EXECVE`: path, `argv` and `envp`. -/
def execveArgs (regs : Vector Nat 32) (fuel : Nat) :
    Option (Except ErrorCode (String × List String × List String)) × List Nat :=
  match readUserCstr p mem regs[10] with
  | (.error e, reads) => (some (.error e), reads)
  | (.ok path, reads) =>
    match readUserStringArray p mem fuel regs[11] with
    | (none, reads') => (none, reads ++ reads')
    | (some (.error e), reads') => (some (.error e), reads ++ reads')
    | (some (.ok argv), reads') =>
      match readUserStringArray p mem fuel regs[12] with
      | (r, reads'') => (r.map (Except.map fun envp => (path, argv, envp)), reads ++ reads' ++ reads'')

end

section

variable (p : Processes) (mem : Memory)

/-- Where the string ends, if it is not too long. -/
def cstrLength (ptr : Nat) : Option Nat :=
  (List.range (maxArgLen + 1)).find? fun i => mem (ptr + i) == 0

/-- How many bytes there are up to the end of the string, or to the longest length. -/
def cstrSpan (ptr : Nat) : Nat := (cstrLength mem ptr).elim (maxArgLen + 1) (· + 1)

/-- A string whose first byte passes the check is continued up to its end. -/
def CstrFits (ptr : Nat) : Prop :=
  p.validateUserAddress ptr = .ok () → Continued p.blocks ptr (ptr + cstrSpan mem ptr)

def CstrValid (ptr : Nat) : Prop :=
  p.validateUserAddress ptr = .ok () ∧
    ∃ len, cstrLength mem ptr = some len ∧ (strFromUtf8 mem ptr len).isSome

def itemAt (ptr i : Nat) : Nat := mem.readWord (ptr + i * Memory.wordSize)

def ItemsValid (ptr n : Nat) : Prop := ∀ i < n, itemAt mem ptr i ≠ 0 ∧ CstrValid p mem (itemAt mem ptr i)

/-- An array whose first byte passes the check ends, and it and its strings are continued. -/
def ArrayFits (ptr : Nat) : Prop :=
  p.validateUserAddress ptr = .ok () → ∃ n, ItemsValid p mem ptr n ∧
    (itemAt mem ptr n = 0 ∨ ¬ CstrValid p mem (itemAt mem ptr n)) ∧
    Continued p.blocks ptr (ptr + (n + 1) * Memory.wordSize) ∧
    ∀ i ≤ n, itemAt mem ptr i ≠ 0 → CstrFits p mem (itemAt mem ptr i)

def ArrayValid (ptr : Nat) : Prop :=
  p.validateUserAddress ptr = .ok () ∧ ∃ n, ItemsValid p mem ptr n ∧ itemAt mem ptr n = 0

/-- Each argument that is looked at is continued up to its end. -/
def ExecveFits (regs : Vector Nat 32) : Prop :=
  CstrFits p mem regs[10] ∧ (CstrValid p mem regs[10] →
    ArrayFits p mem regs[11] ∧ (ArrayValid p mem regs[11] → ArrayFits p mem regs[12]))

/-- No mapping reaches further than so many words. -/
def wordBound : Nat := (p.blocks.map Block.stop).foldr max 0 / Memory.wordSize + 1

/-- Reads stay inside the mappings however long they go on, and they end within a number of turns
that depends on the mappings only. -/
def ReadsOwn {β : Type} (r : Nat → Option β × List Nat) : Prop :=
  (∀ fuel, ∀ a ∈ (r fuel).2, CoveredBy p.blocks a) ∧ (r (wordBound p)).1.isSome

end

variable {p : Processes} {mem : Memory} {ptr a : Nat} {regs : Vector Nat 32}

theorem scanCstr_found {n : Nat} (hzero : mem (ptr+n) = 0) (hbefore : ∀ i < n, mem (ptr+i) ≠ 0)
    (hn : n ≤ maxArgLen) (fuel len : Nat) (hfuel : fuel+len = maxArgLen+1) (hlen : len ≤ n) :
    scanCstr mem ptr fuel len = (.ok n, List.range' (ptr+len) (n+1-len)) := by
  induction fuel generalizing len with
  | zero => omega
  | succ fuel ih =>
    rw [scanCstr]
    rcases Nat.eq_or_lt_of_le hlen with rfl | hlt
    · rw [if_pos hzero,show len+1-len = 1 by omega]
      rfl
    · rw [if_neg (hbefore len hlt),if_neg (by omega),ih (len+1) (by omega) hlt,
        show n+1-len = (n+1-(len+1))+1 by omega,range'_succ]
      rfl

theorem scanCstr_long (hlong : ∀ i ≤ maxArgLen, mem (ptr+i) ≠ 0) (fuel len : Nat)
    (hfuel : fuel+len = maxArgLen+1) :
    scanCstr mem ptr fuel len = (.error .e2Big, List.range' (ptr+len) fuel) := by
  induction fuel generalizing len with
  | zero => rfl
  | succ fuel ih =>
    rw [scanCstr,if_neg (hlong len (by omega))]
    split
    next hmax =>
      have hlast : fuel = 0 := by omega
      subst hlast
      rfl
    next hmax =>
      rw [ih (len+1) (by omega)]
      rfl

theorem scanCstr_eq : scanCstr mem ptr (maxArgLen+1) 0 =
    ((cstrLength mem ptr).elim (.error .e2Big) .ok, List.range' ptr (cstrSpan mem ptr)) := by
  cases hlen : cstrLength mem ptr with
  | none =>
    have hlong : ∀ i ≤ maxArgLen, mem (ptr+i) ≠ 0 := by
      intro i hi
      have hne := find?_eq_none.mp hlen i (mem_range.mpr (by omega))
      simpa using hne
    simpa [cstrSpan,hlen] using scanCstr_long hlong (maxArgLen+1) 0 rfl
  | some n =>
    obtain ⟨hzero,hn,hbefore⟩ := find?_range_eq_some.mp hlen
    have hfound := scanCstr_found (by simpa using hzero) (by simpa using hbefore)
      (by have := mem_range.mp hn; omega) (maxArgLen+1) 0 rfl (Nat.zero_le n)
    simpa [cstrSpan,hlen] using hfound

theorem cstrLength_lt_span {len : Nat} (h : cstrLength mem ptr = some len) :
    len < cstrSpan mem ptr := by
  simp [cstrSpan,h]

/-- The bytes read are those up to the end of the string. -/
theorem mem_readUserCstr : a ∈ (readUserCstr p mem ptr).2 ↔
    p.validateUserAddress ptr = .ok () ∧ ptr ≤ a ∧ a < ptr+cstrSpan mem ptr := by
  rw [readUserCstr,scanCstr_eq]
  cases hv : p.validateUserAddress ptr with
  | error e => simp
  | ok u =>
    cases hlen : cstrLength mem ptr with
    | none => simp [mem_range'_1]
    | some len =>
      have hlt := cstrLength_lt_span hlen
      cases hutf : strFromUtf8 mem ptr len <;>
        simp only [Option.elim_some,hutf,mem_append,mem_range'_1,true_and] <;> omega

theorem readUserCstr_ok_iff : (∃ s, (readUserCstr p mem ptr).1 = .ok s) ↔ CstrValid p mem ptr := by
  rw [readUserCstr,scanCstr_eq,CstrValid]
  cases hv : p.validateUserAddress ptr with
  | error e => simp
  | ok u =>
    cases hlen : cstrLength mem ptr with
    | none => simp
    | some len => cases hutf : strFromUtf8 mem ptr len <;> simp [hutf]

theorem readUserCstr_covered_iff :
    (∀ a ∈ (readUserCstr p mem ptr).2, CoveredBy p.blocks a) ↔ CstrFits p mem ptr := by
  constructor
  · intro hall hv
    refine covered_range_iff.mp fun a hlo hhi => ?_
    exact hall a (mem_readUserCstr.mpr ⟨hv,hlo,hhi⟩)
  · intro hfits a ha
    obtain ⟨hv,hlo,hhi⟩ := mem_readUserCstr.mp ha
    exact covered_range_iff.mpr (hfits hv) a hlo hhi

section

variable {fuel n : Nat}

theorem itemAt_zero : itemAt mem ptr 0 = mem.readWord ptr := by
  rw [itemAt,Nat.zero_mul,Nat.add_zero]

theorem itemAt_next (i : Nat) : itemAt mem (ptr+Memory.wordSize) i = itemAt mem ptr (i+1) := by
  rw [itemAt,itemAt,Nat.succ_mul,Nat.add_assoc,Nat.add_comm wordSize]

theorem itemsValid_zero : ItemsValid p mem ptr 0 := fun i hi => absurd hi (Nat.not_lt_zero i)

theorem itemsValid_succ : ItemsValid p mem ptr (n+1) ↔
    (itemAt mem ptr 0 ≠ 0 ∧ CstrValid p mem (itemAt mem ptr 0)) ∧
      ItemsValid p mem (ptr+Memory.wordSize) n := by
  simp only [ItemsValid,itemAt_next]
  exact Nat.forall_lt_succ_left

/-- One turn of the loop: the end of the array, a string that cannot be read, or a string and the
rest of the array. -/
theorem readArrayFrom_succ (p : Processes) (mem : Memory) (fuel ptr : Nat) : (itemAt mem ptr 0 = 0 ∧
      readArrayFrom p mem (fuel+1) ptr = (some (.ok []), List.range' ptr Memory.wordSize)) ∨
    (itemAt mem ptr 0 ≠ 0 ∧ ¬ CstrValid p mem (itemAt mem ptr 0) ∧
      ∃ e, readArrayFrom p mem (fuel+1) ptr = (some (.error e),
        List.range' ptr Memory.wordSize++(readUserCstr p mem (itemAt mem ptr 0)).2)) ∨
    (itemAt mem ptr 0 ≠ 0 ∧ CstrValid p mem (itemAt mem ptr 0) ∧
      ∃ s, readArrayFrom p mem (fuel+1) ptr =
        ((readArrayFrom p mem fuel (ptr+Memory.wordSize)).1.map (Except.map (s :: ·)),
          List.range' ptr Memory.wordSize++(readUserCstr p mem (itemAt mem ptr 0)).2 ++
            (readArrayFrom p mem fuel (ptr+Memory.wordSize)).2)) := by
  rw [itemAt_zero,readArrayFrom]
  by_cases hitem : mem.readWord ptr = 0
  · exact .inl ⟨hitem,by simp only [hitem,if_pos]⟩
  · have hvalid := @readUserCstr_ok_iff p mem (mem.readWord ptr)
    cases hr : readUserCstr p mem (mem.readWord ptr) with
    | mk r reads =>
      cases r with
      | error e =>
        rw [hr] at hvalid
        refine .inr (.inl ⟨hitem,fun h => ?_,e,by simp only [if_neg hitem]⟩)
        obtain ⟨s,hs⟩ := hvalid.mpr h
        cases hs
      | ok s =>
        rw [hr] at hvalid
        exact .inr (.inr ⟨hitem,hvalid.mp ⟨s,rfl⟩,s,by simp only [if_neg hitem]⟩)

def ItemBytes (p : Processes) (mem : Memory) (ptr i a : Nat) : Prop :=
  a ∈ List.range' (ptr + i * Memory.wordSize) Memory.wordSize ∨
    itemAt mem ptr i ≠ 0 ∧ a ∈ (readUserCstr p mem (itemAt mem ptr i)).2

theorem itemBytes_next (i : Nat) :
    ItemBytes p mem (ptr+Memory.wordSize) i a ↔ ItemBytes p mem ptr (i+1) a := by
  rw [ItemBytes,ItemBytes,itemAt_next,Nat.succ_mul,Nat.add_assoc,Nat.add_comm wordSize]

theorem mem_readArrayFrom : a ∈ (readArrayFrom p mem fuel ptr).2 ↔
    ∃ i < fuel, ItemsValid p mem ptr i ∧ ItemBytes p mem ptr i a := by
  induction fuel generalizing ptr with
  | zero => simp [readArrayFrom]
  | succ fuel ih =>
    have hbytes : ItemBytes p mem ptr 0 a ↔ a ∈ List.range' ptr wordSize ∨
        itemAt mem ptr 0 ≠ 0 ∧ a ∈ (readUserCstr p mem (itemAt mem ptr 0)).2 := by
      rw [ItemBytes,Nat.zero_mul,Nat.add_zero]
    rw [Nat.exists_lt_succ_left]
    simp only [itemsValid_succ,itemsValid_zero,hbytes,← itemBytes_next]
    rcases readArrayFrom_succ p mem fuel ptr with
      ⟨hitem,hr⟩ | ⟨hitem,hbad,e,hr⟩ | ⟨hitem,hgood,s,hr⟩
    · simp [hr,hitem]
    · simp [hr,hitem,hbad]
    · simp [hr,hitem,hgood,ih,or_assoc]

theorem readArrayFrom_isSome : (readArrayFrom p mem fuel ptr).1.isSome ↔
    ∃ n < fuel, ItemsValid p mem ptr n ∧
      (itemAt mem ptr n = 0 ∨ ¬ CstrValid p mem (itemAt mem ptr n)) := by
  induction fuel generalizing ptr with
  | zero => simp [readArrayFrom]
  | succ fuel ih =>
    rw [Nat.exists_lt_succ_left]
    simp only [itemsValid_succ,itemsValid_zero,← itemAt_next]
    rcases readArrayFrom_succ p mem fuel ptr with
      ⟨hitem,hr⟩ | ⟨hitem,hbad,e,hr⟩ | ⟨hitem,hgood,s,hr⟩
    · simp [hr,hitem]
    · simp [hr,hbad]
    · simp [hr,hitem,hgood,ih]

theorem readArrayFrom_ok : (∃ l, (readArrayFrom p mem fuel ptr).1 = some (.ok l)) ↔
    ∃ n < fuel, ItemsValid p mem ptr n ∧ itemAt mem ptr n = 0 := by
  induction fuel generalizing ptr with
  | zero => simp [readArrayFrom]
  | succ fuel ih =>
    rw [Nat.exists_lt_succ_left]
    simp only [itemsValid_succ,itemsValid_zero,← itemAt_next]
    rcases readArrayFrom_succ p mem fuel ptr with
      ⟨hitem,hr⟩ | ⟨hitem,hbad,e,hr⟩ | ⟨hitem,hgood,s,hr⟩
    · simp [hr,hitem]
    · simp [hr,hitem,hbad]
    · rw [hr]
      simp only [hitem,hgood,ne_eq,not_false_eq_true,true_and,← ih]
      rcases (readArrayFrom p mem fuel (ptr+wordSize)).1 with _ | _ | l <;>
        simp [Except.map]

theorem ItemsValid.le_end {m : Nat} (h : ItemsValid p mem ptr m)
    (hend : itemAt mem ptr n = 0 ∨ ¬ CstrValid p mem (itemAt mem ptr n)) : m ≤ n := by
  by_contra hlt
  obtain ⟨hitem,hvalid⟩ := h n (by omega)
  rcases hend with hnull | hbad
  · exact hitem hnull
  · exact hbad hvalid

theorem lt_wordBound (h : CoveredBy p.blocks (ptr+n*Memory.wordSize)) : n < wordBound p := by
  obtain ⟨b,hb,hmem⟩ := h
  have hstop : b.stop ≤ (p.blocks.map Block.stop).foldr max 0 :=
    le_max_of_le' 0 (mem_map_of_mem hb) le_rfl
  have hlt : ptr+n*wordSize < b.stop := hmem.2
  rw [wordBound,Nat.lt_succ_iff,Nat.le_div_iff_mul_le (by decide)]
  omega

theorem mem_word (hlo : ptr ≤ a) (hhi : a < ptr+(n+1)*Memory.wordSize) :
    ∃ i ≤ n, a ∈ List.range' (ptr+i*Memory.wordSize) Memory.wordSize := by
  refine ⟨(a-ptr)/wordSize,?_,?_⟩
  · have hlt : (a-ptr)/wordSize < n+1 := by
      rw [Nat.div_lt_iff_lt_mul (by decide)]
      omega
    omega
  · rw [mem_range'_1,wordSize]
    omega

theorem readArrayFrom_readsOwn_iff (hv : p.validateUserAddress ptr = .ok ()) :
    ReadsOwn p (readArrayFrom p mem · ptr) ↔ ArrayFits p mem ptr := by
  constructor
  · rintro ⟨hall,hsome⟩ _
    obtain ⟨n,_,hvalid,hend⟩ := readArrayFrom_isSome.mp hsome
    have hread : ∀ i ≤ n, ∀ a, ItemBytes p mem ptr i a → CoveredBy p.blocks a := by
      intro i hi a hbytes
      apply hall (n+1) a
      exact mem_readArrayFrom.mpr ⟨i,by omega,fun j hj => hvalid j (by omega),hbytes⟩
    refine ⟨n,hvalid,hend,covered_range_iff.mp ?_,?_⟩
    · intro a hlo hhi
      obtain ⟨i,hi,hword⟩ := mem_word hlo hhi
      exact hread i hi a (.inl hword)
    · intro i hi hitem
      rw [← readUserCstr_covered_iff]
      intro a ha
      exact hread i hi a (.inr ⟨hitem,ha⟩)
  · intro hfits
    obtain ⟨n,hvalid,hend,hcont,hstrings⟩ := hfits hv
    have hwords := covered_range_iff.mpr hcont
    constructor
    · intro fuel a ha
      obtain ⟨i,_,hi,hbytes⟩ := mem_readArrayFrom.mp ha
      have hin := hi.le_end hend
      rcases hbytes with hword | ⟨hitem,hstring⟩
      · have hmul : i*wordSize ≤ n*wordSize := Nat.mul_le_mul_right _ hin
        rw [mem_range'_1] at hword
        apply hwords a (by omega)
        rw [Nat.succ_mul]
        omega
      · exact readUserCstr_covered_iff.mpr (hstrings i hin hitem) a hstring
    · have hlast : CoveredBy p.blocks (ptr+n*wordSize) := by
        apply hwords _ (by omega)
        rw [wordSize]
        omega
      exact readArrayFrom_isSome.mpr ⟨n,lt_wordBound hlast,hvalid,hend⟩

theorem readUserStringArray_readsOwn_iff :
    ReadsOwn p (readUserStringArray p mem · ptr) ↔ ArrayFits p mem ptr := by
  cases hv : p.validateUserAddress ptr with
  | error e => simp [ReadsOwn,readUserStringArray,ArrayFits,hv]
  | ok u =>
    rw [← readArrayFrom_readsOwn_iff hv]
    simp only [readUserStringArray,hv]

theorem readUserStringArray_ok_iff : (∃ l, (readUserStringArray p mem fuel ptr).1 = some (.ok l)) ↔
      p.validateUserAddress ptr = .ok () ∧
        ∃ n < fuel, ItemsValid p mem ptr n ∧ itemAt mem ptr n = 0 := by
  cases hv : p.validateUserAddress ptr with
  | error e => simp [readUserStringArray,hv]
  | ok u => simpa [readUserStringArray,hv] using readArrayFrom_ok

theorem mem_readUserStringArray_mono {fuel' : Nat} (hle : fuel ≤ fuel')
    (h : a ∈ (readUserStringArray p mem fuel ptr).2) :
    a ∈ (readUserStringArray p mem fuel' ptr).2 := by
  cases hv : p.validateUserAddress ptr with
  | error e => simp [readUserStringArray,hv] at h
  | ok u =>
    simp only [readUserStringArray,hv,mem_readArrayFrom] at h ⊢
    obtain ⟨i,hi,hvalid,hbytes⟩ := h
    exact ⟨i,by omega,hvalid,hbytes⟩

/-- An array that is read within the bound and has an end is returned. -/
theorem ArrayValid.ok_of_isSome (h : ArrayValid p mem ptr)
    (hsome : (readUserStringArray p mem fuel ptr).1.isSome) :
    ∃ l, (readUserStringArray p mem fuel ptr).1 = some (.ok l) := by
  obtain ⟨hv,n,hvalid,hnull⟩ := h
  simp only [readUserStringArray,hv] at hsome
  obtain ⟨m,hm,_,hmend⟩ := readArrayFrom_isSome.mp hsome
  have hle := hvalid.le_end hmend
  exact readUserStringArray_ok_iff.mpr ⟨hv,n,by omega,hvalid,hnull⟩

end

/-- `EXECVE` looks at its arguments in turn: a path, then `argv`, then `envp`. -/
theorem execveArgs_cases (p : Processes) (mem : Memory) (regs : Vector Nat 32) (fuel : Nat) :
    (¬ CstrValid p mem regs[10] ∧ (execveArgs p mem regs fuel).1.isSome ∧
      (execveArgs p mem regs fuel).2 = (readUserCstr p mem regs[10]).2) ∨
    (CstrValid p mem regs[10] ∧
      (¬ ∃ l, (readUserStringArray p mem fuel regs[11]).1 = some (.ok l)) ∧
      (execveArgs p mem regs fuel).1.isSome = (readUserStringArray p mem fuel regs[11]).1.isSome ∧
      (execveArgs p mem regs fuel).2 =
        (readUserCstr p mem regs[10]).2++(readUserStringArray p mem fuel regs[11]).2) ∨
    (CstrValid p mem regs[10] ∧ (∃ l, (readUserStringArray p mem fuel regs[11]).1 = some (.ok l)) ∧
      (execveArgs p mem regs fuel).1.isSome = (readUserStringArray p mem fuel regs[12]).1.isSome ∧
      (execveArgs p mem regs fuel).2 = (readUserCstr p mem regs[10]).2 ++
        (readUserStringArray p mem fuel regs[11]).2 ++
          (readUserStringArray p mem fuel regs[12]).2) := by
  rw [← readUserCstr_ok_iff,execveArgs]
  rcases readUserCstr p mem regs[10] with ⟨_ | path,reads⟩
  · simp
  · rcases readUserStringArray p mem fuel regs[11] with ⟨_ | _ | argv,reads'⟩ <;> simp

theorem mem_execveArgs_path {fuel : Nat} (h : a ∈ (readUserCstr p mem regs[10]).2) :
    a ∈ (execveArgs p mem regs fuel).2 := by
  rcases execveArgs_cases p mem regs fuel with ⟨_,_,hr⟩ | ⟨_,_,_,hr⟩ | ⟨_,_,_,hr⟩
  · rwa [hr]
  · rw [hr]
    exact mem_append_left _ h
  · rw [hr]
    exact mem_append_left _ (mem_append_left _ h)

theorem execveArgs_readsOwn_of_fits (h : ExecveFits p mem regs) :
    ReadsOwn p (execveArgs p mem regs) := by
  have hpath := readUserCstr_covered_iff.mpr h.1
  constructor
  · intro fuel a ha
    rcases execveArgs_cases p mem regs fuel with
      ⟨_,_,hr⟩ | ⟨hvalid,_,_,hr⟩ | ⟨hvalid,hok,_,hr⟩
    · rw [hr] at ha
      exact hpath a ha
    · have hargv := readUserStringArray_readsOwn_iff.mpr (h.2 hvalid).1
      rw [hr,mem_append] at ha
      rcases ha with ha | ha
      · exact hpath a ha
      · exact hargv.1 fuel a ha
    · have hargv := readUserStringArray_readsOwn_iff.mpr (h.2 hvalid).1
      obtain ⟨hv,n,_,hitems⟩ := readUserStringArray_ok_iff.mp hok
      have henvp := readUserStringArray_readsOwn_iff.mpr ((h.2 hvalid).2 ⟨hv,n,hitems⟩)
      rw [hr,mem_append,mem_append] at ha
      rcases ha with (ha | ha) | ha
      · exact hpath a ha
      · exact hargv.1 fuel a ha
      · exact henvp.1 fuel a ha
  · rcases execveArgs_cases p mem regs (wordBound p) with
      ⟨_,hsome,_⟩ | ⟨hvalid,_,hsome,_⟩ | ⟨hvalid,hok,hsome,_⟩
    · exact hsome
    · rw [hsome]
      exact (readUserStringArray_readsOwn_iff.mpr (h.2 hvalid).1).2
    · obtain ⟨hv,n,_,hitems⟩ := readUserStringArray_ok_iff.mp hok
      rw [hsome]
      exact (readUserStringArray_readsOwn_iff.mpr ((h.2 hvalid).2 ⟨hv,n,hitems⟩)).2

theorem execveArgs_argv_readsOwn (h : ReadsOwn p (execveArgs p mem regs))
    (hvalid : CstrValid p mem regs[10]) : ReadsOwn p (readUserStringArray p mem · regs[11]) := by
  constructor
  · intro fuel a ha
    apply h.1 fuel a
    rcases execveArgs_cases p mem regs fuel with
      ⟨hbad,_⟩ | ⟨_,_,_,hr⟩ | ⟨_,_,_,hr⟩
    · exact absurd hvalid hbad
    · rw [hr]
      exact mem_append_right _ ha
    · rw [hr]
      exact mem_append_left _ (mem_append_right _ ha)
  · rcases execveArgs_cases p mem regs (wordBound p) with
      ⟨hbad,_⟩ | ⟨_,_,hsome,_⟩ | ⟨_,⟨l,hl⟩,_⟩
    · exact absurd hvalid hbad
    · rw [← hsome]
      exact h.2
    · rw [hl]
      rfl

theorem execveArgs_envp_readsOwn (h : ReadsOwn p (execveArgs p mem regs))
    (hvalid : CstrValid p mem regs[10]) (hargv : ArrayValid p mem regs[11]) :
    ReadsOwn p (readUserStringArray p mem · regs[12]) := by
  constructor
  · intro fuel a ha
    obtain ⟨hv,n,hitems,hnull⟩ := hargv
    -- `envp` is read only with enough fuel for all of `argv`
    have hok := readUserStringArray_ok_iff.mpr
      ⟨hv,n,show n < max fuel (n+1) by omega,hitems,hnull⟩
    apply h.1 (max fuel (n+1)) a
    rcases execveArgs_cases p mem regs (max fuel (n+1)) with
      ⟨hbad,_⟩ | ⟨_,hnot,_⟩ | ⟨_,_,_,hr⟩
    · exact absurd hvalid hbad
    · exact absurd hok hnot
    · rw [hr]
      exact mem_append_right _ (mem_readUserStringArray_mono (le_max_left _ _) ha)
  · have hok := hargv.ok_of_isSome (execveArgs_argv_readsOwn h hvalid).2
    rcases execveArgs_cases p mem regs (wordBound p) with
      ⟨hbad,_⟩ | ⟨_,hnot,_⟩ | ⟨_,_,hsome,_⟩
    · exact absurd hvalid hbad
    · exact absurd hok hnot
    · rw [← hsome]
      exact h.2

/-- `EXECVE` reads only bytes of the caller and comes to an end if and only if each string and
array that it looks at is continued up to its end. -/
theorem execve_reads_iff (p : Processes) (mem : Memory) (regs : Vector Nat 32) :
    ReadsOwn p (execveArgs p mem regs) ↔ ExecveFits p mem regs := by
  constructor
  · intro h
    refine ⟨readUserCstr_covered_iff.mp ?_,fun hvalid => ⟨?_,fun hargv => ?_⟩⟩
    · intro a ha
      exact h.1 0 a (mem_execveArgs_path ha)
    · exact readUserStringArray_readsOwn_iff.mp (execveArgs_argv_readsOwn h hvalid)
    · exact readUserStringArray_readsOwn_iff.mp (execveArgs_envp_readsOwn h hvalid hargv)
  · exact execveArgs_readsOwn_of_fits

/-- The letter `a` up to `0xffffffc000001000`, zero from there on. -/
def gapText : Memory := fun x => if x ≤ 0xffffffc000001000 then 0x61 else 0

/-- `execve` with a path at the last byte of a page. -/
def edgeRegs : Vector Nat 32 := (Vector.replicate 32 0).set 10 0xffffffc000000fff

/-- The path goes on behind the page, and `EXECVE` reads the byte there. -/
theorem execve_path_gap : ¬ CoveredBy gapTask.blocks 0xffffffc000001000 ∧
    0xffffffc000001000 ∈ (execveArgs gapTask gapText edgeRegs 0).2 ∧
    ¬ ReadsOwn gapTask (execveArgs gapTask gapText edgeRegs) := by
  have hout : ¬ CoveredBy gapTask.blocks 0xffffffc000001000 := by decide
  have hspan : cstrSpan gapText edgeRegs[10] = 3 := by decide +kernel
  have hread : 0xffffffc000001000 ∈ (readUserCstr gapTask gapText edgeRegs[10]).2 :=
    mem_readUserCstr.mpr ⟨by decide,by decide,by rw [hspan]; decide⟩
  exact ⟨hout,mem_execveArgs_path hread,fun h => hout (h.1 0 _ (mem_execveArgs_path hread))⟩

end Athera
