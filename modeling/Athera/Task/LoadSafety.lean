import Athera.Task.Fork
import Athera.Task.Load

/-!
# Memory safety of the loader

`load_elf` checks none of the counts, offsets, sizes and alignments of the file.
-/

namespace Athera

open Framework Action LoadState ProgramHeader

def HeaderInFile (buf : Slice) (eh : ElfHeader) (i : Nat) : Prop :=
  eh.ePhoff + (i + 1) * size ≤ buf.len

instance (buf : Slice) (eh : ElfHeader) (i : Nat) : Decidable (HeaderInFile buf eh i) :=
  inferInstanceAs (Decidable (_ ≤ _))

variable {σ : Type}

/-- What `load_elf` would have to check of a program header that it gets to; of the segment, once it has
its frames and as far as the tables take its pages. -/
structure HeaderSafe [FrameAllocator σ] (buf : Slice) (tid : Nat) (eh : ElfHeader) (f : ForkState σ) (i : Nat)
    (ph : ProgramHeader) : Prop where
  table : HeaderInFile buf eh i
  phdr : PhdrFits eh ph
  segment : ph.isLoad = true → Served tid ph (PagesFit tid ph.pVaddr ph.mappingFlags) (fun frames =>
    0 < ph.pMemsz ∧ ph.pAlign ≠ 0 ∧ FirstFrameHolds ph ∧ ∀ g ∈ frames.head?, CopyFits buf ph g) f

/-- The file is rejected by its header, or the program headers that the loader gets to are in order. -/
def FileSafe [FrameAllocator σ] (s : ForkState σ) (buf : Slice) (tid : Nat) : Prop :=
  EachFileHeader ⟨s,[]⟩ buf tid (buf.ptr + (fileHeader s.mem buf).ePhoff < wordRange)
    (HeaderSafe buf tid (fileHeader s.mem buf))

def LogOk (buf : Slice) (log : List Access) : Prop := ∀ a ∈ log, a.Ok buf

theorem Served.mono [FrameAllocator σ] {tid : Nat} {ph : ProgramHeader}
    {A A' : List (Nat × Nat) → ForkState σ → Prop} {X X' : List Frame → Prop} {f : ForkState σ}
    (h : Served tid ph A X f) (hA : ∀ pages f', A pages f' → A' pages f') (hX : ∀ frames, X frames → X' frames) :
    Served tid ph A' X' f :=
  wlp_mono h fun _ _ hr frames hframes =>
    ⟨hA _ _ (hr frames hframes).1,wlp_mono (hr frames hframes).2 fun _ _ hx => hX _ hx⟩

variable [LawfulFrameAllocator σ] {s : ForkState σ} {fs : List Frame} {buf : Slice} {tid : Nat}

section

variable (h : ForkOk s fs) (hbuf : ∀ i < buf.len, InFrames fs (buf.ptr + i))
include h hbuf

theorem ForkOk.slice_bounded (hpos : 0 < buf.len) : buf.ptr+buf.len ≤ physicalLimit := by
  obtain ⟨f,hf,hin⟩ := hbuf (buf.len-1) (by omega)
  have hb := (h.shape f hf).bounded
  simp only [Block.mem_iff] at hin
  omega

variable {m : Memory} {i : Nat}

theorem wrap_header (hi : HeaderInFile buf (fileHeader m buf) i) :
    fileHeaders m buf+i*size < wordRange ∧
      wrap (fileHeaders m buf+i*size) =
        buf.ptr+((fileHeader m buf).ePhoff+i*size) := by
  simp only [HeaderInFile,Nat.add_mul] at hi
  have hsize : 0 < size := by decide
  have hbound := h.slice_bounded hbuf (by omega)
  have hlimit : physicalLimit < wordRange := by decide
  have hbase : fileHeaders m buf = buf.ptr+(fileHeader m buf).ePhoff := by
    apply wrap_of_lt
    omega
  rw [hbase]
  have hsum : buf.ptr+(fileHeader m buf).ePhoff+i*size < wordRange := by omega
  rw [wrap_of_lt hsum]
  omega

variable {ph : ProgramHeader} {f : ForkState σ}

theorem headerCopy_of_inFile {P : Prop} (hi : HeaderInFile buf (fileHeader m buf) i)
    (hcopy : ph.isLoad = true → Served tid ph (fun _ _ => True) (fun _ => CopyInside P ph) f) :
    HeaderCopy P fs tid (fileHeaders m buf) f i ph := by
  refine ⟨fun j hj => ?_,hcopy⟩
  rw [(wrap_header h hbuf hi).2,Nat.add_assoc]
  simp only [HeaderInFile,Nat.add_mul] at hi
  exact hbuf _ (by omega)

theorem HeaderSafe.copy (hsafe : HeaderSafe buf tid (fileHeader m buf) f i ph) :
    HeaderCopy False fs tid (fileHeaders m buf) f i ph := by
  refine headerCopy_of_inFile h hbuf hsafe.table fun hload => ?_
  refine (hsafe.segment hload).mono (fun _ _ _ => trivial) ?_
  rintro _ ⟨hpos,halign,hfirst,_⟩
  refine ⟨fun hbad => ?_,fun _ _ => hfirst⟩
  rcases hbad with hzero | hzero
  · exact absurd hzero (Nat.ne_of_gt hpos)
  · exact halign hzero

theorem HeaderSafe.access (hsafe : HeaderSafe buf tid (fileHeader m buf) f i ph) :
    HeaderAccess buf tid (fileHeader m buf) (fileHeaders m buf) f i ph := by
  obtain ⟨hsum,hwrap⟩ := wrap_header h hbuf hsafe.table
  refine ⟨hsum,fun j hj => ?_,hsafe.phdr,fun hload => ?_⟩
  · have htable := hsafe.table
    simp only [HeaderInFile,Nat.add_mul] at htable
    omega
  · exact (hsafe.segment hload).mono (fun _ _ hpages => hpages) fun _ hx => hx.2.2.2

end

/-- For a file that is in order `load_elf` returns a value or an error, reads only the file, writes
only frames that it has just got, and no address overflows. -/
theorem load_elf_memory_safe {argv envp : List (List UInt8)} {sstatus : Nat} (h : ForkOk s fs)
    (hbuf : ∀ i < buf.len, InFrames fs (buf.ptr + i)) (hargs : ArgumentsFit argv envp)
    (hfile : FileSafe s buf tid) :
    ∃ s', (loadElf buf argv envp tid sstatus ⟨s,[]⟩).state = some s' ∧ LogOk buf s'.log := by
  have hcopy : FileCopy False fs ⟨s,[]⟩ buf tid :=
    hfile.mono (fun _ => trivial) fun _ _ _ hsafe => hsafe.copy h hbuf
  have haccess : FileAccess ⟨s,[]⟩ buf tid := hfile.mono id fun _ _ _ hsafe => hsafe.access h hbuf
  have hlogged : ∀ s' : LoadState σ, Logged buf s.spaces tid (FileAccess ⟨s,[]⟩ buf tid) ⟨s,[]⟩ s' →
      LogOk buf s'.log := by
    intro s' hlog a ha
    rcases hlog a ha with hold | hnew
    · cases hold
    · exact hnew.2 haccess
  apply state_of_wp
  refine wpp_mono (loadElf_spec h hargs hcopy) ?_ ?_
  · intro load s' hs'
    obtain ⟨_,_,_,_,_,_,_,_,hlog⟩ := hs'
    exact hlogged s' hlog
  · intro e s' hs'
    exact hlogged s' hs'.logged

def headerBytes (ph : ProgramHeader) : List UInt8 :=
  (wordBytes ph.pType).take 4 ++ (wordBytes ph.pFlags).take 4 ++
    [ph.pOffset,ph.pVaddr,0,ph.pFilesz,ph.pMemsz,ph.pAlign].flatMap wordBytes

def elfBytes (entry : Nat) (phs : List ProgramHeader) (data : List UInt8) : List UInt8 :=
  [0x7f,0x45,0x4c,0x46,2,1] ++ List.replicate 18 0 ++ [entry,64].flatMap wordBytes ++
    List.replicate 14 0 ++ [56,0,UInt8.ofNat phs.length,0] ++ List.replicate 6 0 ++
    phs.flatMap headerBytes ++ data

/-- The kernel has booted and has read a file into a page. -/
def fileMemory (bytes : List UInt8) : Option (ForkState BuddyLists × Frame) :=
  (bootFork 0x80800000 0x80840000).bind fun s =>
    match (ForkState.takeFrame pageSize s : Outcome MemError (ForkState BuddyLists) (Option Frame)) with
    | .ok (some f) s1 => some ({ s1 with mem := s1.mem.store f.start bytes }, f)
    | _ => none

def fileSlice (f : Frame) (bytes : List UInt8) : Slice := ⟨f.start,bytes.length⟩

theorem fileMemory_ok {bytes : List UInt8} {s : ForkState BuddyLists} {f : Frame}
    (hlen : bytes.length ≤ pageSize) (hfile : fileMemory bytes = some (s, f)) :
    ForkOk s [f] ∧ ∀ i < (fileSlice f bytes).len, InFrames [f] ((fileSlice f bytes).ptr+i) := by
  obtain ⟨s0,hboot,hrest⟩ := Option.bind_eq_some_iff.mp hfile
  have hok0 := bootFork_ok (by decide) (by decide) (by decide) hboot
  have htake := takeFrame_spec (ε := MemError) (E := fun _ _ => False) hok0 pageSize
  split at hrest
  · rename_i g s1 htaken
    have hspec := wp_of_ok htake htaken
    cases hrest
    obtain ⟨_,hsize,hok1⟩ := hspec
    have hpage : f.size = pageSize := by
      rw [hsize]
      decide
    have hin : ∀ i < bytes.length, InFrames [f] (f.start+i) := by
      intro i hi
      refine ⟨f,List.mem_singleton_self f,?_⟩
      simp only [Block.mem_iff]
      omega
    refine ⟨hok1.store fun a ha => ?_,hin⟩
    apply Memory.store_outside
    intro hmem
    simp only [Block.mem_iff] at hmem
    apply ha
    refine ⟨f,List.mem_singleton_self f,?_⟩
    simp only [Block.mem_iff]
    omega
  · cases hrest

instance (eh : ElfHeader) (ph : ProgramHeader) : Decidable (PhdrFits eh ph) :=
  inferInstanceAs (Decidable (_ → _ → _ ∧ (_ → _)))

instance (buf : Slice) (ph : ProgramHeader) (g : Frame) : Decidable (CopyFits buf ph g) :=
  decidable_of_iff (buf.ptr + ph.pOffset < wordRange ∧ g.start + ph.pVaddr % ph.pAlign < wordRange ∧
    (ph.pFilesz = 0 ∨ ph.pOffset + ph.pFilesz ≤ buf.len))
    ⟨fun h => ⟨h.1,h.2.1,h.2.2⟩,fun h => ⟨h.1,h.2,h.3⟩⟩

section

variable {σ : Type} [FrameAllocator σ]

instance decidablePagesFit (tid va : Nat) (flags : PageFlags) :
    ∀ pages (f : ForkState σ), Decidable (PagesFit tid va flags pages f)
  | [], _ => isTrue trivial
  | _ :: pages, _ =>
    have := decidablePagesFit tid va flags pages
    inferInstanceAs (Decidable (_ ∧ wlp _ _ _))

instance (tid : Nat) (ph : ProgramHeader) (A : List (Nat × Nat) → ForkState σ → Prop) (X : List Frame → Prop)
    [∀ pages f, Decidable (A pages f)] [DecidablePred X] (f : ForkState σ) : Decidable (Served tid ph A X f) :=
  inferInstanceAs (Decidable (wlp _ _ _))

instance (buf : Slice) (tid : Nat) (eh : ElfHeader) (f : ForkState σ) (i : Nat) (ph : ProgramHeader) :
    Decidable (HeaderSafe buf tid eh f i ph) :=
  decidable_of_iff (HeaderInFile buf eh i ∧ PhdrFits eh ph ∧ (ph.isLoad = true → _))
    ⟨fun h => ⟨h.1,h.2.1,h.2.2⟩,fun h => ⟨h.1,h.2,h.3⟩⟩

instance decidableEachHeader (m : Memory) (buf : Slice) (tid : Nat) (eh : ElfHeader) (phBase : Nat)
    (C : ForkState σ → Nat → ProgramHeader → Prop) [∀ f i ph, Decidable (C f i ph)] :
    ∀ is acc s, Decidable (EachHeader m buf tid eh phBase C is acc s)
  | [], _, _ => isTrue trivial
  | _ :: is, _, _ =>
    have := decidableEachHeader m buf tid eh phBase C is
    inferInstanceAs (Decidable (_ ∧ wlp _ _ _))

instance : DecidableEq (Except ElfError Unit)
  | .ok (), .ok () => isTrue rfl
  | .ok (), .error _ => isFalse fun h => nomatch h
  | .error _, .ok () => isFalse fun h => nomatch h
  | .error e, .error e' => decidable_of_iff (e = e') ⟨congrArg _,fun h => Except.error.inj h⟩

instance (s : LoadState σ) (buf : Slice) (tid : Nat) (B : Prop) [Decidable B]
    (C : ForkState σ → Nat → ProgramHeader → Prop) [∀ f i ph, Decidable (C f i ph)] :
    Decidable (EachFileHeader s buf tid B C) := inferInstanceAs (Decidable (_ → _ → wlp _ _ _))

instance (s : ForkState σ) (buf : Slice) (tid : Nat) : Decidable (FileSafe s buf tid) :=
  inferInstanceAs (Decidable (EachFileHeader _ _ _ _ _))

end

/-- A segment of one page with sixteen bytes in the middle of the page. -/
def smallSegment : ProgramHeader := ⟨1,7,120,0xffffffc000000078,16,0x100,0x1000⟩

def smallFile : List UInt8 := elfBytes 0xffffffc000000078 [smallSegment] (List.replicate 16 0x13)

theorem load_elf_memory_safe_small : ∃ s f, fileMemory smallFile = some (s, f) ∧
    FileSafe s (fileSlice f smallFile) 1 ∧
    ∃ s', (loadElf (fileSlice f smallFile) [[0x61]] [] 1 0 ⟨s,[]⟩).state = some s' ∧
      LogOk (fileSlice f smallFile) s'.log := by
  have hsafe : (fileMemory smallFile).map (fun p =>
      decide (FileSafe p.1 (fileSlice p.2 smallFile) 1)) = some true := by decide +kernel
  obtain ⟨⟨s,f⟩,hfile,hdecide⟩ := Option.map_eq_some_iff.mp hsafe
  obtain ⟨hok,hin⟩ := fileMemory_ok (by decide +kernel) hfile
  have hfilesafe : FileSafe s (fileSlice f smallFile) 1 := of_decide_eq_true hdecide
  have hargs : ArgumentsFit [[0x61]] [] := by decide
  exact ⟨s,f,hfile,hfilesafe,load_elf_memory_safe hok hin hargs hfilesafe⟩

def zeroAlignFile : List UInt8 := elfBytes 0xffffffc000000078 [{ smallSegment with pAlign := 0 }] []

def overrunFile : List UInt8 := elfBytes 0xffffffc000000078 [{ smallSegment with pFilesz := 0x2000 }] []

/-- The first file is a division by zero; the data of the second runs over the frame of its segment. -/
theorem hostile_file_unsafe :
    (∃ s f, fileMemory zeroAlignFile = some (s, f) ∧
      loadElf (fileSlice f zeroAlignFile) [] [] 1 0 ⟨s,[]⟩ = .panic) ∧
    ∃ s f load s', fileMemory overrunFile = some (s, f) ∧
      loadElf (fileSlice f overrunFile) [] [] 1 0 ⟨s,[]⟩ = .ok load s' ∧
      ¬ LogOk (fileSlice f overrunFile) s'.log := by
  constructor
  · have hrun : (fileMemory zeroAlignFile).map (fun p =>
        match loadElf (fileSlice p.2 zeroAlignFile) [] [] 1 0 ⟨p.1,[]⟩ with
        | .panic => true
        | _ => false) = some true := by decide +kernel
    obtain ⟨⟨s,f⟩,hfile,hpanic⟩ := Option.map_eq_some_iff.mp hrun
    refine ⟨s,f,hfile,?_⟩
    split at hpanic
    · rename_i hload
      exact hload
    · cases hpanic
  · have hrun : (fileMemory overrunFile).map (fun p =>
        (loadElf (fileSlice p.2 overrunFile) [] [] 1 0 ⟨p.1,[]⟩).okAnd fun _ s' =>
          decide (.write 0x80803078 0x2000 [⟨0x80803000,0x1000⟩] ∈ s'.log)) = some true := by
      decide +kernel
    obtain ⟨⟨s,f⟩,hfile,hlog⟩ := Option.map_eq_some_iff.mp hrun
    obtain ⟨load,s',hload,hlog⟩ := Outcome.exists_okAnd hlog
    refine ⟨s,f,load,s',hfile,hload,fun hok => ?_⟩
    obtain ⟨g,hg,hin⟩ := hok _ (of_decide_eq_true hlog) 0x1000 (by decide)
    rw [List.mem_singleton.mp hg] at hin
    revert hin
    decide

end Athera
