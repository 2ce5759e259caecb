import Athera.Fs.Minix.Dir

/-!
# Paths to inodes

`fs/minix/open.rs`: the components of a link target go in front of the rest.
-/

namespace Athera.Minix

/-- A byte `10xxxxxx`. -/
def isContinuation (b : UInt8) : Bool := b &&& 192 == 128

/-- The second byte of a sequence of three bytes. -/
def secondOfThree (first second : UInt8) : Bool :=
  if first = 0xE0 then 0xA0 ≤ second ∧ second ≤ 0xBF
  else if first = 0xED then 0x80 ≤ second ∧ second ≤ 0x9F
  else 0x80 ≤ second ∧ second ≤ 0xBF

/-- The second byte of a sequence of four bytes. -/
def secondOfFour (first second : UInt8) : Bool :=
  if first = 0xF0 then 0x90 ≤ second ∧ second ≤ 0xBF
  else if first = 0xF4 then 0x80 ≤ second ∧ second ≤ 0x8F
  else 0x80 ≤ second ∧ second ≤ 0xBF

/-- Whether the bytes start with a character, and the length of it or of the invalid part. -/
def utf8Step (bytes : List UInt8) : Bool × Nat :=
  let first := bytes.getD 0 0
  let second := bytes.getD 1 0
  let third := bytes.getD 2 0
  let fourth := bytes.getD 3 0
  if first < 128 then (true, 1)
  else if 0xC2 ≤ first ∧ first ≤ 0xDF then
    if isContinuation second then (true, 2) else (false, 1)
  else if 0xE0 ≤ first ∧ first ≤ 0xEF then
    if !secondOfThree first second then (false, 1)
    else if isContinuation third then (true, 3) else (false, 2)
  else if 0xF0 ≤ first ∧ first ≤ 0xF4 then
    if !secondOfFour first second then (false, 1)
    else if !isContinuation third then (false, 2)
    else if isContinuation fourth then (true, 4) else (false, 3)
  else (false, 1)

/-- Each step takes at least one byte, so the length of the bytes is enough. -/
def utf8ValidIn : Nat → List UInt8 → Bool
  | 0, _ => true
  | n + 1, bytes =>
    if bytes.isEmpty then true
    else (utf8Step bytes).1 && utf8ValidIn n (bytes.drop (utf8Step bytes).2)

/-- `str::from_utf8` accepts the bytes. -/
def utf8Valid (bytes : List UInt8) : Bool := utf8ValidIn bytes.length bytes

def utf8LossyIn : Nat → List UInt8 → List UInt8
  | 0, _ => []
  | n + 1, bytes =>
    if bytes.isEmpty then []
    else (if (utf8Step bytes).1 then bytes.take (utf8Step bytes).2 else [0xEF,0xBF,0xBD]) ++
      utf8LossyIn n (bytes.drop (utf8Step bytes).2)

/-- `String::from_utf8_lossy`. -/
def utf8Lossy (bytes : List UInt8) : List UInt8 := utf8LossyIn bytes.length bytes

def pathComponents (path : List UInt8) : List (List UInt8) :=
  (path.splitOn pathSeparator).filter fun part => !part.isEmpty

def startsWithSeparator (path : List UInt8) : Bool := path.head? == some pathSeparator

def slotName (raw : List UInt8) : List UInt8 :=
  let bytes := raw.takeWhile (· != 0)
  if utf8Valid bytes then bytes else []

open Framework

/-- An open file: the inode as it was when the file was opened, and its zones. -/
structure File where
  ino : UInt16
  inode : DiskInode
  zones : List UInt16
deriving DecidableEq

inductive Resolved where
  | found (file : File)
  | missing
  | panic
deriving DecidableEq

structure Walker where
  components : List (List UInt8)
  dirIno : UInt16
  dir : DiskInode
  hops : Nat

inductive WalkTurn where
  | done (r : Resolved)
  | next (s : Walker)

inductive Lookup where
  | found (ino : UInt16)
  | missing
  | panic

section

variable (sb : SuperBlock) (m : Memory)

/-- The first entry of that name. The iterator goes no further than the entry. -/
def lookup (dir : DiskInode) (name : List UInt8) : Lookup :=
  match (dirEntries sb m dir).1.find? fun e => e.name == name with
  | some e => .found e.ino
  | none => if (dirEntries sb m dir).2 then .missing else .panic

def linkTarget (inode : DiskInode) : List UInt8 := utf8Lossy (data sb m inode)

def walkTurn (s : Walker) : WalkTurn :=
  match s.components with
  | [] => .done (.found ⟨s.dirIno,s.dir,dataZones sb m s.dir⟩)
  | name :: rest =>
    match lookup sb m s.dir name with
    | .panic => .done .panic
    | .missing => .done .missing
    | .found nextIno =>
      let next := readInode sb m nextIno
      if next.fileType = .lnk then
        if maxSymlinkHops < s.hops + 1 then .done .missing
        else
          let target := linkTarget sb m next
          let components := pathComponents target ++ rest
          if startsWithSeparator target then .next ⟨components,1,readInode sb m 1,s.hops + 1⟩
          else .next ⟨components,s.dirIno,s.dir,s.hops + 1⟩
      else if rest ≠ [] ∧ next.fileType ≠ .dir then .done .missing
      else .next ⟨rest,nextIno,next,s.hops⟩

inductive Resolves : Walker → Resolved → Prop
  | done {s r} : walkTurn sb m s = .done r → Resolves s r
  | next {s s' r} : walkTurn sb m s = .next s' → Resolves s' r → Resolves s r

def Walker.start (path : List UInt8) : Walker := ⟨pathComponents path,1,readInode sb m 1,0⟩

def fileAt (ino : UInt16) : File := ⟨ino,readInode sb m ino,dataZones sb m (readInode sb m ino)⟩

/-- The components up to the next link. -/
def walk (onLink : List (List UInt8) → UInt16 → Resolved) :
    List (List UInt8) → UInt16 → Resolved
  | [], ino => .found (fileAt sb m ino)
  | name :: rest, ino =>
    match lookup sb m (readInode sb m ino) name with
    | .panic => .panic
    | .missing => .missing
    | .found nextIno =>
      let next := readInode sb m nextIno
      if next.fileType = .lnk then
        let target := linkTarget sb m next
        onLink (pathComponents target ++ rest) (if startsWithSeparator target then 1 else ino)
      else if rest ≠ [] ∧ next.fileType ≠ .dir then .missing
      else walk onLink rest nextIno

/-- The components, following at most so many links. -/
def resolveFrom : Nat → List (List UInt8) → UInt16 → Resolved
  | 0 => walk sb m fun _ _ => .missing
  | hops + 1 => walk sb m (resolveFrom hops)

def openPath (path : List UInt8) : Resolved :=
  resolveFrom sb m maxSymlinkHops (pathComponents path) 1

end

section

variable {sb : SuperBlock} {m : Memory} {onLink : List (List UInt8) → UInt16 → Resolved}

theorem resolves_walk {hops : Nat}
    (hlink : ∀ comps ino, if maxSymlinkHops < hops+1 then onLink comps ino = .missing
      else Resolves sb m ⟨comps,ino,readInode sb m ino,hops+1⟩ (onLink comps ino))
    (comps : List (List UInt8)) : ∀ ino,
    Resolves sb m ⟨comps,ino,readInode sb m ino,hops⟩ (walk sb m onLink comps ino) := by
  induction comps with
  | nil =>
    intro ino
    exact .done rfl
  | cons name rest ih =>
    intro ino
    rw [walk]
    cases hfind : lookup sb m (readInode sb m ino) name with
    | panic => exact .done (by simp only [walkTurn,hfind])
    | missing => exact .done (by simp only [walkTurn,hfind])
    | found nextIno =>
      simp only
      by_cases hlnk : (readInode sb m nextIno).fileType = .lnk
      · rw [if_pos hlnk]
        generalize htarget : linkTarget sb m (readInode sb m nextIno) = target
        have hnext := hlink (pathComponents target++rest)
          (if startsWithSeparator target then 1 else ino)
        by_cases hmax : maxSymlinkHops < hops+1
        · rw [if_pos hmax] at hnext
          rw [hnext]
          exact .done (by simp only [walkTurn,hfind,if_pos hlnk,if_pos hmax])
        · rw [if_neg hmax] at hnext
          refine .next ?_ hnext
          simp only [walkTurn,hfind,if_pos hlnk,if_neg hmax,htarget]
          split <;> rfl
      · rw [if_neg hlnk]
        by_cases hstop : rest ≠ [] ∧ (readInode sb m nextIno).fileType ≠ .dir
        · exact .done (by simp only [walkTurn,hfind,if_neg hlnk,if_pos hstop])
        · rw [if_neg hstop]
          exact .next (by simp only [walkTurn,hfind,if_neg hlnk,if_neg hstop]) (ih nextIno)

/-- The loop ends, with the result that follows the links one after the other. -/
theorem resolves_resolveFrom (left : Nat) (hleft : left ≤ maxSymlinkHops)
    (comps : List (List UInt8)) (ino : UInt16) :
    Resolves sb m ⟨comps,ino,readInode sb m ino,maxSymlinkHops-left⟩
      (resolveFrom sb m left comps ino) := by
  induction left generalizing comps ino with
  | zero =>
    apply resolves_walk
    intro comps ino
    rw [if_pos (by omega)]
  | succ left ih =>
    apply resolves_walk
    intro comps ino
    have hhops : maxSymlinkHops-(left+1)+1 = maxSymlinkHops-left := by omega
    rw [if_neg (by omega),hhops]
    exact ih (by omega) comps ino

theorem resolves_openPath (path : List UInt8) :
    Resolves sb m (.start sb m path) (openPath sb m path) :=
  resolves_resolveFrom maxSymlinkHops le_rfl (pathComponents path) 1

end

section

variable {sb : SuperBlock} {m : Memory}

/-- The entries of a directory on the disk. -/
def entriesAt (sb : SuperBlock) (m : Memory) (ino : UInt16) : List DirEntry :=
  let inode := readInode sb m ino
  listing sb (contents sb m (dataZones sb m inode) inode.size.toNat)

/-- The inode that the first entry of that name refers to. -/
def entryOf (sb : SuperBlock) (m : Memory) (ino : UInt16) (name : List UInt8) : Option UInt16 :=
  ((entriesAt sb m ino).find? fun e => e.name == name).map DirEntry.ino

/-- Where a path leads from a directory, and how many links are on the way. -/
inductive Walks (sb : SuperBlock) (m : Memory) :
    UInt16 → List (List UInt8) → (links : Nat) → Option UInt16 → Prop
  | here {ino} : Walks sb m ino [] 0 (some ino)
  | missing {ino name rest} : entryOf sb m ino name = none → Walks sb m ino (name :: rest) 0 none
  | notDir {ino name rest next} : entryOf sb m ino name = some next →
      (readInode sb m next).fileType ≠ .lnk → rest ≠ [] → (readInode sb m next).fileType ≠ .dir →
      Walks sb m ino (name :: rest) 0 none
  | enter {ino name rest next links r} : entryOf sb m ino name = some next →
      (readInode sb m next).fileType ≠ .lnk →
      (rest ≠ [] → (readInode sb m next).fileType = .dir) → Walks sb m next rest links r →
      Walks sb m ino (name :: rest) links r
  | link {ino name rest next links r} : entryOf sb m ino name = some next →
      (readInode sb m next).fileType = .lnk →
      Walks sb m (if startsWithSeparator (linkTarget sb m (readInode sb m next)) then 1 else ino)
        (pathComponents (linkTarget sb m (readInode sb m next)) ++ rest) links r →
      Walks sb m ino (name :: rest) (links + 1) r

/-- How components lead on over so many links: into entries, and to what a link names. -/
inductive Leads (sb : SuperBlock) (m : Memory) : UInt16 × List (List UInt8) → (links : Nat) →
    UInt16 × List (List UInt8) → Prop
  | here {c} : Leads sb m c 0 c
  | enter {ino name rest next links c} : entryOf sb m ino name = some next →
      (readInode sb m next).fileType ≠ .lnk → (rest ≠ [] → (readInode sb m next).fileType = .dir) →
      Leads sb m (next, rest) links c → Leads sb m (ino, name :: rest) links c
  | link {ino name rest next links c} : entryOf sb m ino name = some next →
      (readInode sb m next).fileType = .lnk →
      Leads sb m (if startsWithSeparator (linkTarget sb m (readInode sb m next)) then 1 else ino,
        pathComponents (linkTarget sb m (readInode sb m next)) ++ rest) links c →
      Leads sb m (ino, name :: rest) (links + 1) c

/-- The size of the directory is a multiple of the slot size, and the first entry that is shown under the
name leads where the first one leads that has it. -/
structure Searchable (sb : SuperBlock) (m : Memory) (ino : UInt16) (name : List UInt8) : Prop where
  size : entrySize sb ∣ (readInode sb m ino).size.toNat
  shown : (((entriesAt sb m ino).filterMap DirEntry.shown).find? fun e => e.name == name).map
    DirEntry.ino = entryOf sb m ino name

/-- Every directory that the components lead through, over at most so many links, is searchable for the
component there. -/
def Sound (sb : SuperBlock) (m : Memory) (left : Nat) (ino : UInt16) (comps : List (List UInt8)) : Prop :=
  ∀ dir name rest links, links ≤ left → Leads sb m (ino, comps) links (dir, name :: rest) →
    Searchable sb m dir name

section

variable {left : Nat} {ino next : UInt16} {name : List UInt8} {rest : List (List UInt8)}

theorem Sound.here (h : Sound sb m left ino (name::rest)) : Searchable sb m ino name :=
  h ino name rest 0 (Nat.zero_le left) .here

theorem Sound.enter (h : Sound sb m left ino (name::rest)) (hentry : entryOf sb m ino name = some next)
    (hlnk : (readInode sb m next).fileType ≠ .lnk)
    (hgo : rest ≠ [] → (readInode sb m next).fileType = .dir) : Sound sb m left next rest :=
  fun dir name' rest' links hle hr => h dir name' rest' links hle (.enter hentry hlnk hgo hr)

theorem Sound.link (h : Sound sb m (left+1) ino (name::rest)) (hentry : entryOf sb m ino name = some next)
    (hlnk : (readInode sb m next).fileType = .lnk) :
    Sound sb m left (if startsWithSeparator (linkTarget sb m (readInode sb m next)) then 1 else ino)
      (pathComponents (linkTarget sb m (readInode sb m next))++rest) :=
  fun dir name' rest' links hle hr => h dir name' rest' (links+1) (by omega) (.link hentry hlnk hr)

end

theorem lastChunkFits_of_dvd (hzone : 0 < sb.zoneSize) {zones : List UInt16} {size : Nat}
    (h : entrySize sb ∣ size) : LastChunkFits sb zones size := by
  have hlt : size%sb.zoneSize < sb.zoneSize := Nat.mod_lt _ hzone
  have hdvd : entrySize sb ∣ size%sb.zoneSize :=
    (Nat.dvd_mod_iff (entrySize_dvd_zoneSize sb)).mpr h
  by_cases hzero : size%sb.zoneSize = 0
  · exact .inr (.inl hzero)
  · have hle : entrySize sb ≤ size%sb.zoneSize :=
      Nat.le_of_dvd (Nat.pos_of_ne_zero hzero) hdvd
    exact .inr (.inr (by omega))

variable (hzone : 0 < sb.zoneSize)
include hzone

theorem lookup_eq {ino : UInt16} {name : List UInt8} (h : Searchable sb m ino name) :
    lookup sb m (readInode sb m ino) name = match entryOf sb m ino name with
      | some next => .found next
      | none => .missing := by
  have hfits := @lastChunkFits_of_dvd sb hzone (dataZones sb m (readInode sb m ino)) _ h.size
  have hentries : dirEntries sb m (readInode sb m ino) =
      ((entriesAt sb m ino).filterMap DirEntry.shown, true) := by
    rw [entriesAt,← parsed_eq]
    exact (entriesFrom_eq _ _).1 hfits
  rw [lookup,hentries,← h.shown]
  cases ((entriesAt sb m ino).filterMap DirEntry.shown).find? fun e => e.name == name <;> rfl

theorem walks_of_walk {left : Nat}
    (hlink : ∀ comps ino, (∀ n, left = n+1 → Sound sb m n ino comps) → onLink comps ino = .missing ∨
      ∃ next links, links+1 ≤ left ∧ Walks sb m ino comps links (some next) ∧
        onLink comps ino = .found (fileAt sb m next))
    (comps : List (List UInt8)) : ∀ ino, Sound sb m left ino comps →
    walk sb m onLink comps ino = .missing ∨
      ∃ next links, links ≤ left ∧ Walks sb m ino comps links (some next) ∧
        walk sb m onLink comps ino = .found (fileAt sb m next) := by
  induction comps with
  | nil =>
    intro ino _
    exact .inr ⟨ino,0,Nat.zero_le left,.here,rfl⟩
  | cons name rest ih =>
    intro ino hsound
    rw [walk,lookup_eq hzone hsound.here]
    cases hentry : entryOf sb m ino name with
    | none => exact .inl rfl
    | some next =>
      simp only
      by_cases hlnk : (readInode sb m next).fileType = .lnk
      · rw [if_pos hlnk]
        cases hlink _ _ (fun n hn => (hn ▸ hsound).link hentry hlnk) with
        | inl hmissing => exact .inl hmissing
        | inr hfound =>
          obtain ⟨last,links,hle,hwalks,heq⟩ := hfound
          exact .inr ⟨last,links+1,hle,.link hentry hlnk hwalks,heq⟩
      · rw [if_neg hlnk]
        by_cases hstop : rest ≠ [] ∧ (readInode sb m next).fileType ≠ .dir
        · rw [if_pos hstop]
          exact .inl rfl
        · rw [if_neg hstop]
          have hgo : rest ≠ [] → (readInode sb m next).fileType = .dir := by
            intro hrest
            by_contra hne
            exact hstop ⟨hrest,hne⟩
          cases ih next (hsound.enter hentry hlnk hgo) with
          | inl hmissing => exact .inl hmissing
          | inr hfound =>
            obtain ⟨last,links,hle,hwalks,heq⟩ := hfound
            exact .inr ⟨last,links,hle,.enter hentry hlnk hgo hwalks,heq⟩

theorem walks_of_resolveFrom (left : Nat) (comps : List (List UInt8)) (ino : UInt16)
    (hsound : Sound sb m left ino comps) : resolveFrom sb m left comps ino = .missing ∨
      ∃ next links, links ≤ left ∧ Walks sb m ino comps links (some next) ∧
        resolveFrom sb m left comps ino = .found (fileAt sb m next) := by
  induction left generalizing comps ino with
  | zero =>
    exact walks_of_walk hzone (fun _ _ _ => .inl rfl) comps ino hsound
  | succ left ih =>
    apply walks_of_walk hzone _ comps ino hsound
    intro comps ino hnext
    cases ih comps ino (hnext left rfl) with
    | inl hmissing => exact .inl hmissing
    | inr hfound =>
      obtain ⟨next,links,hle,hwalks,heq⟩ := hfound
      exact .inr ⟨next,links,Nat.succ_le_succ hle,hwalks,heq⟩

/-- Where the path leads is found, if enough links are left. -/
theorem resolveFrom_of_walks {ino : UInt16} {comps : List (List UInt8)} {links : Nat}
    {r : Option UInt16} (h : Walks sb m ino comps links r) : ∀ next, r = some next →
    ∀ left, links ≤ left → Sound sb m left ino comps →
    resolveFrom sb m left comps ino = .found (fileAt sb m next) := by
  induction h with
  | here =>
    intro next hnext left _ _
    cases hnext
    cases left <;> rfl
  | missing => intro next hnext; cases hnext
  | notDir => intro next hnext; cases hnext
  | enter hentry hlnk hgo _ ih =>
    intro last hlast left hle hsound
    have hrest := ih last hlast left hle (hsound.enter hentry hlnk hgo)
    have hstop : ¬ (_ ≠ [] ∧ (readInode sb m _).fileType ≠ .dir) := fun h => h.2 (hgo h.1)
    cases left with
    | zero =>
      rw [resolveFrom,walk,lookup_eq hzone hsound.here,hentry]
      simp only [if_neg hlnk,if_neg hstop]
      rwa [resolveFrom] at hrest
    | succ left =>
      rw [resolveFrom,walk,lookup_eq hzone hsound.here,hentry]
      simp only [if_neg hlnk,if_neg hstop]
      rwa [resolveFrom] at hrest
  | link hentry hlnk _ ih =>
    intro last hlast left hle hsound
    cases left with
    | zero => omega
    | succ left =>
      rw [resolveFrom,walk,lookup_eq hzone hsound.here,hentry]
      simp only [if_pos hlnk]
      exact ih last hlast left (by omega) (hsound.link hentry hlnk)

end

/-- Opening a path ends. If the directories on its way over the first 40 links have sizes that are multiples
of the slot size and are searchable for its components, it ends with the inode to which the path leads if
it does so over at most 40 links, and with nothing otherwise. -/
theorem path_resolution_exact (sb : SuperBlock) (m : Memory) (hzone : 0 < sb.zoneSize)
    (path : List UInt8) (hsound : Sound sb m maxSymlinkHops 1 (pathComponents path)) :
    ∃ r, Resolves sb m (.start sb m path) r ∧ openPath sb m path = r ∧
      ((∃ next links, links ≤ maxSymlinkHops ∧
          Walks sb m 1 (pathComponents path) links (some next) ∧ r = .found (fileAt sb m next)) ∨
        ((¬ ∃ next links, links ≤ maxSymlinkHops ∧
          Walks sb m 1 (pathComponents path) links (some next)) ∧ r = .missing)) := by
  refine ⟨openPath sb m path,resolves_openPath path,rfl,?_⟩
  by_cases h : ∃ next links, links ≤ maxSymlinkHops ∧
      Walks sb m 1 (pathComponents path) links (some next)
  · obtain ⟨next,links,hle,hwalks⟩ := h
    exact .inl ⟨next,links,hle,hwalks,resolveFrom_of_walks hzone hwalks next rfl _ hle hsound⟩
  · cases walks_of_resolveFrom hzone maxSymlinkHops (pathComponents path) 1 hsound with
    | inl hmissing => exact .inr ⟨h,hmissing⟩
    | inr hfound =>
      obtain ⟨next,links,hle,hwalks,_⟩ := hfound
      exact absurd ⟨next,links,hle,hwalks⟩ h

/-- A disk with a root directory of two slots; inode 2 is a link to `/f`, inode 3 a file. -/
def linkDisk (slots : List UInt8) : Memory :=
  let m : Memory := writeInode shortNames 3 { DiskInode.zero with mode := 0o100644 } fun _ => 0
  let m := writeInode shortNames 2
    { DiskInode.zero with mode := 0o120777, size := 2, zone := .ofFn fun i => if i = 0 then 6 else 0 } m
  let m := writeInode shortNames 1
    { DiskInode.zero with mode := 0o40755, size := 32, zone := .ofFn fun i => if i = 0 then 5 else 0 } m
  Memory.store (Memory.store m 5120 slots) 6144 [47,102]

/-- The names `l` and `f`. -/
def linkSlots : List UInt8 := [2,0,108,0,0,0,0,0,0,0,0,0,0,0,0,0,3,0,102]

theorem linkDisk_sound : Sound shortNames (linkDisk linkSlots) maxSymlinkHops 1 [[108]] := by
  have hlink : entryOf shortNames (linkDisk linkSlots) 1 [108] = some 2 := by decide +kernel
  have htype : (readInode shortNames (linkDisk linkSlots) 2).fileType = .lnk := by decide +kernel
  have htarget : linkTarget shortNames (linkDisk linkSlots)
      (readInode shortNames (linkDisk linkSlots) 2) = [47,102] := by decide +kernel
  have hfile : entryOf shortNames (linkDisk linkSlots) 1 [102] = some 3 := by decide +kernel
  have htype' : (readInode shortNames (linkDisk linkSlots) 3).fileType ≠ .lnk := by decide +kernel
  intro dir name rest links _ hr
  cases hr with
  | here => exact ⟨by decide +kernel,by decide +kernel⟩
  | enter he hl =>
    cases hlink.symm.trans he
    exact absurd htype hl
  | link he _ hr =>
    cases hlink.symm.trans he
    rw [htarget] at hr
    cases hr with
    | here => exact ⟨by decide +kernel,by decide +kernel⟩
    | enter _ _ _ hr => cases hr
    | link he hl =>
      cases hfile.symm.trans he
      exact absurd hl htype'

/-- The path `/l`. -/
theorem path_resolution_exact_link : ∃ next links, links ≤ maxSymlinkHops ∧
    Walks shortNames (linkDisk linkSlots) 1 [[108]] links (some next) ∧
      openPath shortNames (linkDisk linkSlots) [47,108] =
        .found (fileAt shortNames (linkDisk linkSlots) next) := by
  obtain ⟨r,_,hopen,hright⟩ :=
    path_resolution_exact shortNames (linkDisk linkSlots) (by decide) [47,108] linkDisk_sound
  obtain ⟨next,links,hle,hwalks,rfl⟩ | ⟨_,rfl⟩ := hright
  · exact ⟨next,links,hle,hwalks,hopen⟩
  · exact absurd hopen (by decide +kernel)

/-- The only entry of the root has the name `a` and a character that is not ASCII; it is opened as
`/a`. -/
theorem path_resolution_confuses_names :
    let disk := linkDisk [3,0,97,0xC3,0xA9]
    (∀ n ≤ 32, (readInode shortNames disk (.ofNat n)).fileType = .dir →
      entrySize shortNames ∣ (readInode shortNames disk (.ofNat n)).size.toNat) ∧
    (¬ ∃ next links, Walks shortNames disk 1 [[97]] links (some next)) ∧
    openPath shortNames disk [47,97] = .found (fileAt shortNames disk 3) := by
  have hentry : entryOf shortNames (linkDisk [3,0,97,0xC3,0xA9]) 1 [97] = none := by decide +kernel
  refine ⟨by decide +kernel,?_,by decide +kernel⟩
  rintro ⟨next,links,hwalks⟩
  cases hwalks with
  | enter he => cases hentry.symm.trans he
  | link he => cases hentry.symm.trans he

end Athera.Minix
