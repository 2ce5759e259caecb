import Athera.Framework.Pieces
import Athera.Fs.Minix.Numbers

/-!
# Directories

`fs/minix/dir.rs`. The iterator reads one zone at a time, cut to the bytes that the size of the
directory leaves, and parses one slot in each turn of its loop.
-/

namespace Athera.Minix

open Framework List

structure DirEntry where
  ino : UInt16
  name : List UInt8
deriving DecidableEq, Repr

/-- The bytes of a slot: an inode number and a name of 14 or 30 bytes. -/
def entrySize (sb : SuperBlock) : Nat := if sb.magic = magicV30 then 32 else 16

/-- `Display` of a name: up to the first zero, without the bytes that are not ASCII. -/
def displayName (raw : List UInt8) : List UInt8 := (raw.takeWhile (· != 0)).filter (· < 128)

/-- A slot without an inode number or without a name holds no entry. -/
def parseSlot (chunk : List UInt8) : Option DirEntry :=
  let ino := u16At chunk 0
  let name := displayName (chunk.drop 2)
  if ino ≠ 0 ∧ name ≠ [] then some ⟨ino,name⟩ else none

section

structure DirEntries where
  zones : List UInt16
  nextZone : Nat
  remaining : Nat
  buffer : List UInt8
  offset : Nat
deriving DecidableEq

def DirEntries.new (zones : List UInt16) (remaining : Nat) : DirEntries := ⟨zones,0,remaining,[],0⟩

/-- One turn of the loop of `next`. -/
inductive Turn where
  | stop
  | panic
  | free (s : DirEntries)
  | entry (e : DirEntry) (s : DirEntries)
deriving DecidableEq

variable (sb : SuperBlock) (m : Memory)

/-- The next zone, if the size and the zones leave one. -/
def refill (s : DirEntries) : Option DirEntries :=
  if s.remaining = 0 then none
  else match s.zones[s.nextZone]? with
    | none => none
    | some zone =>
      let len := min sb.zoneSize s.remaining
      some { s with
        nextZone := s.nextZone + 1
        remaining := s.remaining - len
        buffer := readZoneInto sb m zone len
        offset := 0 }

/-- A slice beyond the buffer panics. -/
def parseNext (s : DirEntries) : Turn :=
  if s.offset + entrySize sb ≤ s.buffer.length then
    let s' := { s with offset := s.offset + entrySize sb }
    match parseSlot ((s.buffer.drop s.offset).take (entrySize sb)) with
    | none => .free s'
    | some e => .entry e s'
  else .panic

def turn (s : DirEntries) : Turn :=
  if s.buffer.length < s.offset + entrySize sb then
    match refill sb m s with
    | none => .stop
    | some s => parseNext sb s
  else parseNext sb s

/-- The iterator yields the entries and then ends, without a panic if `ok`. -/
inductive Iterates : DirEntries → List DirEntry → (ok : Bool) → Prop
  | stop {s} : turn sb m s = .stop → Iterates s [] true
  | panic {s} : turn sb m s = .panic → Iterates s [] false
  | free {s s' es ok} : turn sb m s = .free s' → Iterates s' es ok → Iterates s es ok
  | entry {s s' e es ok} : turn sb m s = .entry e s' → Iterates s' es ok → Iterates s (e :: es) ok

/-- The entries of the zones, and whether the iterator gets to the end without a panic. -/
def entriesFrom : List UInt16 → Nat → List DirEntry × Bool
  | [], _ => ([], true)
  | zone :: zones, remaining =>
    if remaining = 0 then ([], true)
    else
      let len := min sb.zoneSize remaining
      if len < entrySize sb then ([], false)
      else
        let rest := entriesFrom zones (remaining - len)
        ((slots (entrySize sb) (readZoneInto sb m zone len)).filterMap parseSlot ++ rest.1, rest.2)

def dirEntries (inode : DiskInode) : List DirEntry × Bool :=
  entriesFrom sb m (dataZones sb m inode) inode.size.toNat

end

section

variable {sb : SuperBlock} {m : Memory} {s : DirEntries} {es : List DirEntry} {ok : Bool}

theorem entrySize_cases (sb : SuperBlock) : entrySize sb = 32 ∨ entrySize sb = 16 := by
  rw [entrySize]
  split
  · exact .inl rfl
  · exact .inr rfl

theorem entrySize_pos (sb : SuperBlock) : 0 < entrySize sb := by
  cases entrySize_cases sb with
  | inl h => rw [h]; decide
  | inr h => rw [h]; decide

theorem entrySize_dvd_zoneSize (sb : SuperBlock) : entrySize sb ∣ sb.zoneSize := by
  have hdvd : entrySize sb ∣ 32 := by
    cases entrySize_cases sb with
    | inl h => rw [h]
    | inr h => rw [h]; decide
  apply hdvd.trans
  apply (Nat.dvd_mod_iff (by decide)).mpr
  exact Dvd.dvd.mul_right (by decide) _

theorem Iterates.unique {es' : List DirEntry} {ok' : Bool} (h : Iterates sb m s es ok)
    (h' : Iterates sb m s es' ok') : es = es' ∧ ok = ok' := by
  induction h generalizing es' ok' with
  | stop ht => cases h' <;> simp_all
  | panic ht => cases h' <;> simp_all
  | free ht _ ih =>
    cases h' with
    | stop ht' => rw [ht] at ht'; cases ht'
    | panic ht' => rw [ht] at ht'; cases ht'
    | free ht' h' =>
      rw [ht] at ht'
      cases ht'
      exact ih h'
    | entry ht' h' => rw [ht] at ht'; cases ht'
  | entry ht _ ih =>
    cases h' with
    | stop ht' => rw [ht] at ht'; cases ht'
    | panic ht' => rw [ht] at ht'; cases ht'
    | free ht' h' => rw [ht] at ht'; cases ht'
    | entry ht' h' =>
      rw [ht] at ht'
      cases ht'
      have hrest := ih h'
      rw [hrest.1,hrest.2]
      exact ⟨rfl,rfl⟩

theorem Iterates.slot (hin : s.offset+entrySize sb ≤ s.buffer.length)
    (h : Iterates sb m { s with offset := s.offset+entrySize sb } es ok) : Iterates sb m s
      ([(s.buffer.drop s.offset).take (entrySize sb)].filterMap parseSlot++es) ok := by
  have hturn : turn sb m s = parseNext sb s := if_neg (Nat.not_lt.mpr hin)
  rw [parseNext,if_pos hin] at hturn
  cases hparse : parseSlot ((s.buffer.drop s.offset).take (entrySize sb)) with
  | none =>
    rw [hparse] at hturn
    simp only [filterMap_cons,hparse]
    exact .free hturn h
  | some e =>
    rw [hparse] at hturn
    simp only [filterMap_cons,hparse]
    exact .entry hturn h

theorem Iterates.drain (n : Nat) (hin : s.offset+n*entrySize sb ≤ s.buffer.length)
    (h : Iterates sb m { s with offset := s.offset+n*entrySize sb } es ok) : Iterates sb m s
      ((pieces (entrySize sb) n (s.buffer.drop s.offset)).filterMap parseSlot++es) ok := by
  induction n generalizing s with
  | zero => simpa [pieces] using h
  | succ n ih =>
    have hmul : (n+1)*entrySize sb = entrySize sb+n*entrySize sb := by ring
    rw [hmul,← Nat.add_assoc] at hin
    rw [hmul] at h
    simp only [← Nat.add_assoc] at h
    have hrest := @ih { s with offset := s.offset+entrySize sb } hin h
    have hone := Iterates.slot (by omega) hrest
    rw [← append_assoc,← filterMap_append,← drop_drop] at hone
    exact hone

theorem Iterates.refill {s' : DirEntries} (hout : s.buffer.length < s.offset+entrySize sb)
    (hfill : refill sb m s = some s') (hin : s'.offset+entrySize sb ≤ s'.buffer.length)
    (h : Iterates sb m s' es ok) : Iterates sb m s es ok := by
  have hturn : turn sb m s = turn sb m s' := by
    rw [turn,if_pos hout,turn,if_neg (Nat.not_lt.mpr hin),hfill]
  cases h with
  | stop ht => exact .stop (hturn.trans ht)
  | panic ht => exact .panic (hturn.trans ht)
  | free ht h => exact .free (hturn.trans ht) h
  | entry ht h => exact .entry (hturn.trans ht) h

theorem iterates_entriesFrom (zones : List UInt16) :
    ∀ s : DirEntries, s.buffer.length < s.offset+entrySize sb → s.zones.drop s.nextZone = zones →
      Iterates sb m s (entriesFrom sb m zones s.remaining).1 (entriesFrom sb m zones s.remaining).2 := by
  induction zones with
  | nil =>
    intro s hout hzones
    have hnone : s.zones[s.nextZone]? = none :=
      getElem?_eq_none (drop_eq_nil_iff.mp hzones)
    have hfill : Athera.Minix.refill sb m s = none := by
      rw [Athera.Minix.refill,hnone]
      split <;> rfl
    apply Iterates.stop
    rw [turn,if_pos hout,hfill]
  | cons zone zones ih =>
    intro s hout hzones
    have hsome : s.zones[s.nextZone]? = some zone := by
      have hhead := congrArg List.head? hzones
      rwa [head?_drop,head?_cons] at hhead
    rw [entriesFrom]
    by_cases hrem : s.remaining = 0
    · rw [if_pos hrem]
      apply Iterates.stop
      rw [turn,if_pos hout,Athera.Minix.refill,if_pos hrem]
    · simp only [if_neg hrem]
      generalize hlen : min sb.zoneSize s.remaining = len
      have hfill : Athera.Minix.refill sb m s = some { s with
          nextZone := s.nextZone+1
          remaining := s.remaining-len
          buffer := readZoneInto sb m zone len
          offset := 0 } := by
        rw [Athera.Minix.refill,if_neg hrem,hsome]
        simp only [hlen]
      have hread : (readZoneInto sb m zone len).length = len := Memory.length_slice ..
      by_cases hshort : len < entrySize sb
      · rw [if_pos hshort]
        apply Iterates.panic
        rw [turn,if_pos hout,hfill]
        simp only [parseNext]
        rw [if_neg (by rw [hread]; omega)]
      · rw [if_neg hshort]
        apply Iterates.refill hout hfill
        · simp only [hread]
          omega
        · have hend : len/entrySize sb*entrySize sb ≤ len := Nat.div_mul_le_self _ _
          have hover : len < len/entrySize sb*entrySize sb+entrySize sb :=
            Nat.lt_div_mul_add (entrySize_pos sb)
          have hrest := ih { s with
              nextZone := s.nextZone+1
              remaining := s.remaining-len
              buffer := readZoneInto sb m zone len
              offset := 0+len/entrySize sb*entrySize sb }
            (by simp only [hread]; omega)
            (by rw [← tail_drop,hzones,tail_cons])
          rw [slots,hread]
          exact Iterates.drain (len/entrySize sb) (by simp only [hread]; omega) hrest

end

variable {sb : SuperBlock} {m : Memory}

def contents (sb : SuperBlock) (m : Memory) (zones : List UInt16) (size : Nat) : List UInt8 :=
  (zones.flatMap (readZone sb m)).take size

/-- The entry that a slot holds on the disk: its name are the bytes up to the first zero. -/
def slotEntry (chunk : List UInt8) : Option DirEntry :=
  let ino := u16At chunk 0
  let name := (chunk.drop 2).takeWhile (· != 0)
  if ino ≠ 0 ∧ name ≠ [] then some ⟨ino,name⟩ else none

def listing (sb : SuperBlock) (bytes : List UInt8) : List DirEntry :=
  (slots (entrySize sb) bytes).filterMap slotEntry

/-- What the iterator makes of an entry. -/
def DirEntry.shown (e : DirEntry) : Option DirEntry :=
  let name := e.name.filter (· < 128)
  if name ≠ [] then some ⟨e.ino,name⟩ else none

def parsed (sb : SuperBlock) (bytes : List UInt8) : List DirEntry :=
  (slots (entrySize sb) bytes).filterMap parseSlot

theorem parsed_eq (sb : SuperBlock) (bytes : List UInt8) :
    parsed sb bytes = (listing sb bytes).filterMap DirEntry.shown := by
  rw [parsed,listing,filterMap_filterMap]
  congr
  funext chunk
  rw [parseSlot,slotEntry]
  by_cases hino : u16At chunk 0 = 0
  · simp [hino]
  · by_cases hname : (chunk.drop 2).takeWhile (· != 0) = []
    · simp [displayName,hname]
    · simp only [hino,hname,ne_eq,not_false_eq_true,and_self,if_true,true_and]
      rfl

theorem name_ne_nil {bytes : List UInt8} {e : DirEntry} (h : e ∈ listing sb bytes) : e.name ≠ [] := by
  obtain ⟨chunk,_,he⟩ := mem_filterMap.mp h
  rw [slotEntry] at he
  split at he
  next hs =>
    cases he
    exact hs.2
  next => cases he

theorem filterMap_eq_self {α : Type} {f : α → Option α} {l : List α} :
    l.filterMap f = l ↔ ∀ a ∈ l, f a = some a := by
  induction l with
  | nil => simp
  | cons a l ih =>
    rw [filterMap_cons,forall_mem_cons]
    cases hf : f a with
    | none =>
      have hlen := length_filterMap_le f l
      constructor
      · intro (h : l.filterMap f = a::l)
        rw [h,length_cons] at hlen
        omega
      · rintro ⟨h,_⟩
        cases h
    | some b => simp only [cons.injEq,Option.some.injEq,ih]

/-- Only bytes of ASCII are in the names. -/
def AsciiNames (es : List DirEntry) : Prop := ∀ e ∈ es, ∀ b ∈ e.name, b < 128

theorem parsed_eq_listing_iff {bytes : List UInt8} :
    parsed sb bytes = listing sb bytes ↔ AsciiNames (listing sb bytes) := by
  rw [parsed_eq,filterMap_eq_self]
  refine forall₂_congr fun e he => ?_
  have hne := name_ne_nil he
  rw [DirEntry.shown]
  constructor
  · intro h
    split at h
    · have hname : e.name.filter (· < 128) = e.name := congrArg DirEntry.name (Option.some.inj h)
      simpa using filter_eq_self.mp hname
    · cases h
  · intro h
    have hname : e.name.filter (· < 128) = e.name := filter_eq_self.mpr (by simpa using h)
    simp [hname,hne]

/-- The bytes of the last, incomplete zone hold a whole slot, or there are none of them. -/
def LastChunkFits (sb : SuperBlock) (zones : List UInt16) (size : Nat) : Prop :=
  zones.length ≤ size / sb.zoneSize ∨ size % sb.zoneSize = 0 ∨
    entrySize sb ≤ min sb.zoneSize (size % sb.zoneSize)

instance (sb : SuperBlock) (zones : List UInt16) (size : Nat) :
    Decidable (LastChunkFits sb zones size) := instDecidableOr

theorem length_readZone (z : UInt16) : (readZone sb m z).length = sb.zoneSize :=
  Memory.length_slice ..

theorem readZoneInto_eq_take (z : UInt16) {len : Nat} (h : len ≤ sb.zoneSize) :
    readZoneInto sb m z len = (readZone sb m z).take len := (Memory.take_slice h).symm

theorem entriesFrom_zero (zones : List UInt16) : entriesFrom sb m zones 0 = ([], true) := by
  cases zones with
  | nil => rfl
  | cons zone zones => simp [entriesFrom]

section

variable (zone : UInt16) (zones : List UInt16)
include zone zones

section

variable {size : Nat}

theorem entriesFrom_full (hpos : 0 < sb.zoneSize)
    (h : sb.zoneSize ≤ size) : entriesFrom sb m (zone::zones) size =
      (parsed sb (readZone sb m zone)++(entriesFrom sb m zones (size-sb.zoneSize)).1,
        (entriesFrom sb m zones (size-sb.zoneSize)).2) := by
  have hle : ¬ sb.zoneSize < entrySize sb :=
    Nat.not_lt.mpr (Nat.le_of_dvd hpos (entrySize_dvd_zoneSize sb))
  have hsize : size ≠ 0 := by omega
  rw [entriesFrom]
  simp only [if_neg hsize,Nat.min_eq_left h,if_neg hle]
  rfl

theorem entriesFrom_last (hpos : 0 < size)
    (h : size < sb.zoneSize) : entriesFrom sb m (zone::zones) size =
      if size < entrySize sb then ([], false)
      else (parsed sb ((readZone sb m zone).take size), true) := by
  rw [entriesFrom]
  simp only [if_neg hpos.ne',Nat.min_eq_right h.le,Nat.sub_self,entriesFrom_zero,append_nil,
    readZoneInto_eq_take zone h.le]
  rfl

theorem contents_full (h : sb.zoneSize ≤ size) : contents sb m (zone::zones) size =
      readZone sb m zone++contents sb m zones (size-sb.zoneSize) := by
  have hlen := @length_readZone sb m zone
  rw [contents,flatMap_cons,take_append,hlen,take_of_length_le (by omega)]
  rfl

theorem contents_last (h : size < sb.zoneSize) :
    contents sb m (zone::zones) size = (readZone sb m zone).take size := by
  have hlen := @length_readZone sb m zone
  rw [contents,flatMap_cons,take_append_of_le_length (by omega)]

theorem lastChunkFits_full (hpos : 0 < sb.zoneSize) (h : sb.zoneSize ≤ size) :
    LastChunkFits sb (zone::zones) size ↔ LastChunkFits sb zones (size-sb.zoneSize) := by
  have hdiv : size/sb.zoneSize = (size-sb.zoneSize)/sb.zoneSize+1 := Nat.div_eq_sub_div hpos h
  have hmod : size%sb.zoneSize = (size-sb.zoneSize)%sb.zoneSize := Nat.mod_eq_sub_mod h
  rw [LastChunkFits,LastChunkFits,hdiv,hmod,length_cons,Nat.add_le_add_iff_right]

theorem lastChunkFits_last (hpos : 0 < size)
    (h : size < sb.zoneSize) : LastChunkFits sb (zone::zones) size ↔ entrySize sb ≤ size := by
  rw [LastChunkFits,Nat.div_eq_of_lt h,Nat.mod_eq_of_lt h,length_cons]
  omega

end

end

/-- Without a short last chunk the iterator yields the entries of the slots, and with one it
panics. -/
theorem entriesFrom_eq (zones : List UInt16) (size : Nat) :
    (LastChunkFits sb zones size →
      entriesFrom sb m zones size = (parsed sb (contents sb m zones size), true)) ∧
    (¬ LastChunkFits sb zones size → (entriesFrom sb m zones size).2 = false) := by
  induction zones generalizing size with
  | nil =>
    constructor
    · simp [entriesFrom,parsed,contents]
    · intro h
      exact absurd (.inl (Nat.zero_le _)) h
  | cons zone zones ih =>
    by_cases hsize : size = 0
    · constructor
      · simp [hsize,entriesFrom,parsed,contents]
      · intro h
        exact absurd (.inr (.inl (by simp [hsize]))) h
    · have hpos : 0 < size := Nat.pos_of_ne_zero hsize
      by_cases hzone : sb.zoneSize = 0
      · -- zones of no bytes: the first chunk is empty
        have hno : ¬ LastChunkFits sb (zone::zones) size := by
          have he := entrySize_pos sb
          rw [LastChunkFits,hzone,length_cons]
          omega
        constructor
        · intro h
          exact absurd h hno
        · rw [entriesFrom]
          simp [hsize,hzone,entrySize_pos]
      · have hzpos : 0 < sb.zoneSize := Nat.pos_of_ne_zero hzone
        by_cases hfull : sb.zoneSize ≤ size
        · rw [lastChunkFits_full zone zones hzpos hfull,entriesFrom_full zone zones hzpos hfull]
          have hrest := ih (size-sb.zoneSize)
          constructor
          · intro h
            have hlen : entrySize sb ∣ (readZone sb m zone).length := by
              rw [length_readZone]
              exact entrySize_dvd_zoneSize sb
            rw [hrest.1 h,contents_full zone zones hfull,parsed,parsed,parsed,
              slots_append (entrySize_pos sb) hlen,filterMap_append]
          · intro h
            exact hrest.2 h
        · have hlast : size < sb.zoneSize := Nat.lt_of_not_le hfull
          rw [lastChunkFits_last zone zones hpos hlast,entriesFrom_last zone zones hpos hlast,
            contents_last zone zones hlast]
          constructor
          · intro h
            rw [if_neg (Nat.not_lt.mpr h)]
          · intro h
            rw [if_pos (Nat.lt_of_not_le h)]

/-- For every list of zones and every size, the iterator ends; it ends without a panic after
exactly the entries of the slots inside the size and the zones if and only if the last chunk is not
shorter than a slot and the names are ASCII. -/
theorem directory_iteration_exact (sb : SuperBlock) (m : Memory) (zones : List UInt16) (size : Nat) :
    (∃ es ok, Iterates sb m (.new zones size) es ok) ∧
    (Iterates sb m (.new zones size) (listing sb (contents sb m zones size)) true ↔
      LastChunkFits sb zones size ∧ AsciiNames (listing sb (contents sb m zones size))) := by
  have hrun := @iterates_entriesFrom sb m zones (.new zones size)
    (by simpa [DirEntries.new] using entrySize_pos sb) rfl
  have hcases := @entriesFrom_eq sb m zones size
  constructor
  · exact ⟨_,_,hrun⟩
  · rw [← parsed_eq_listing_iff]
    by_cases hfits : LastChunkFits sb zones size
    · rw [DirEntries.new,hcases.1 hfits] at hrun
      constructor
      · intro h
        exact ⟨hfits,(hrun.unique h).1⟩
      · intro h
        rwa [← h.2]
    · constructor
      · intro h
        have hok := (hrun.unique h).2
        rw [DirEntries.new,hcases.2 hfits] at hok
        cases hok
      · intro h
        exact absurd h.1 hfits

/-- A disk whose directories have slots of 16 bytes. -/
def shortNames : SuperBlock where
  ninodes := 32
  nzones := 68
  imapBlocks := 1
  zmapBlocks := 1
  firstDataZone := 5
  logZoneSize := 0
  maxSize := 0
  magic := magicV14
  state := 1

/-- A directory with one zone and a size of 8 bytes. -/
theorem directory_iteration_panics : Iterates shortNames (fun _ => 1) (.new [5] 8) [] false ∧
    ¬ Iterates shortNames (fun _ => 1) (.new [5] 8)
      (listing shortNames (contents shortNames (fun _ => 1) [5] 8)) true := by
  have hpanic : Iterates shortNames (fun _ => 1) (.new [5] 8) [] false :=
    .panic (by decide)
  constructor
  · exact hpanic
  · intro h
    have hok := (hpanic.unique h).2
    cases hok

end Athera.Minix
