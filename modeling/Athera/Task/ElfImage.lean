import Athera.Task.LoadSafety

/-!
# The image of a program

Each segment is mapped from the page of its address on, and later segments take over the pages of
earlier ones.
-/

namespace Athera

open Framework Action List Option LoadState

section

variable {mem : TableMemory} {shared : PageTable} {sp : Space} {va : Nat} {e : PageTableEntry}

theorem SpaceOk.translate_of_walk (h : SpaceOk mem shared sp) (hwalk : (sp.view mem).walk va = some e)
    (hfaults : e.faults = false) (hleaf : e.isLeaf = true) :
    translate mem sp.root va = some (e.addr+va%pageSize, e.flags) := by
  rw [AddressSpace.walk,AddressSpace.entryAt] at hwalk
  cases hlast : (sp.view mem).lastTable (vpn2 va) (vpn1 va) with
  | none =>
    rw [hlast] at hwalk
    cases hwalk
  | some r =>
    obtain ⟨a0,t0⟩ := r
    obtain ⟨a1,t1,h1,h0⟩ := AddressSpace.lastTable_eq_some.mp hlast
    rw [show (sp.view mem).root = mem sp.root from rfl] at h1
    obtain ⟨hv1,rfl,hin1,rfl⟩ := view_follow.mp h1
    obtain ⟨hv0,rfl,hin0,rfl⟩ := view_follow.mp h0
    rw [hlast] at hwalk
    simp only at hwalk
    split at hwalk
    · cases hwalk
      apply translate_of_last
      have hroot := h.walk_root va
      have htable := h.walk_table hv1 hin1 va
      rw [if_pos hv1] at hroot
      rw [if_pos hv0,walkFrom_last,if_pos ⟨hfaults,hleaf⟩] at htable
      exact hroot.trans htable
    · cases hwalk

end

/-- The address is one that the hardware translates. -/
def IsCanonical (va : Nat) : Prop := va < lowHalfEnd ∨ highHalfStart ≤ va ∧ va < wordRange

instance (va : Nat) : Decidable (IsCanonical va) := inferInstanceAs (Decidable (_ ∨ _))

/-- The segment maps the page of the address with its page number `q`. -/
def CoversAt (ph : ProgramHeader) (q va : Nat) : Prop :=
  q * pageSize < backing ph.pMemsz ∧ vpn (wrap (ph.pVaddr + q * pageSize)) = vpn va

/-- The stack is mapped over the page. -/
def StackCovers (va : Nat) : Prop :=
  ∃ q, q * pageSize < userStackSize ∧ vpn (wrap (userStackLowerBound + q * pageSize)) = vpn va

/-- The last of the segments that maps the page does so once, with its page number `q`. -/
def LastCover (phs : List ProgramHeader) (c : ProgramHeader) (q va : Nat) : Prop :=
  ∃ pre post, phs = pre ++ c :: post ∧ CoversAt c q va ∧ (∀ q', CoversAt c q' va → q' = q) ∧
    ∀ d ∈ post, ∀ q', ¬ CoversAt d q' va

/-- The pages of the segment are leaves that do not fault. -/
def Readable (ph : ProgramHeader) : Prop :=
  ph.mappingFlags.r = true ∨ ph.mappingFlags.x = true ∧ ph.mappingFlags.w = false

/-- The offset in the file of what the loader puts at an offset of the frames. -/
def dataAt (ph : ProgramHeader) (off : Nat) : Option Nat :=
  if ph.pVaddr % ph.pAlign ≤ off ∧ off < ph.pVaddr % ph.pAlign + ph.pFilesz then
    some (ph.pOffset + (off - ph.pVaddr % ph.pAlign))
  else none

/-- Byte `i` of the segment ends up where the program looks for it. -/
def BytePlaced (phs : List ProgramHeader) (ph : ProgramHeader) (i : Nat) : Prop :=
  IsCanonical (ph.pVaddr + i) ∧ ¬ StackCovers (ph.pVaddr + i) ∧
    ∃ c q, LastCover phs c q (ph.pVaddr + i) ∧ Readable c ∧
      dataAt c (q * pageSize + (ph.pVaddr + i) % pageSize) =
        if i < ph.pFilesz then some (ph.pOffset + i) else none

/-- The program headers and the data of the segments lie in the file. -/
structure InFile (m : Memory) (buf : Slice) : Prop where
  headers : (fileHeader m buf).ePhoff + (fileHeader m buf).ePhnum * ProgramHeader.size ≤ buf.len
  data : ∀ ph ∈ loadHeadersOf m buf, ph.pOffset + ph.pFilesz ≤ buf.len

structure WellFormedElf (m : Memory) (buf : Slice) : Prop extends InFile m buf where
  sizes : ∀ ph ∈ loadHeadersOf m buf, ph.pFilesz ≤ ph.pMemsz
  aligned : ∀ ph ∈ loadHeadersOf m buf, ph.pAlign = 0 ∨ ph.pAlign = 1 ∨
    (∃ k, ph.pAlign = 2 ^ k) ∧ ph.pVaddr % ph.pAlign = ph.pOffset % ph.pAlign
  ascending : (loadHeadersOf m buf).Pairwise fun a b => a.pVaddr + a.pMemsz ≤ b.pVaddr

def userByte {σ : Type} (s : ForkState σ) (tid va : Nat) : Option UInt8 :=
  if IsCanonical va then
    (s.spaces.translate (.user tid) va).map fun r => s.mem r.1
  else none

variable {σ : Type} [LawfulFrameAllocator σ] {s : ForkState σ} {s' : LoadState σ} {fs frames : List Frame}
  {buf : Slice} {tid va : Nat} {segs : List (ProgramHeader × List Frame)} {stack : Frame}
  {page : Nat × Nat × PageFlags}

theorem mem_segmentPages {flags : PageFlags} (hs : ∀ f ∈ frames, PageShape f) :
    page ∈ segmentPages va flags frames ↔ ∃ q p, physAtOffset frames (q*pageSize) = some p ∧
      page = (wrap (va+q*pageSize), p, flags) := by
  rw [segmentPages,List.mem_map]
  constructor
  · intro h
    obtain ⟨page0,hpage0,rfl⟩ := h
    obtain ⟨off,hoff,⟨q,rfl⟩,hphys⟩ := (mem_framePages hs).mp hpage0
    rw [Nat.mul_comm] at hphys
    refine ⟨q,page0.2,hphys,?_⟩
    rw [hoff,Nat.zero_add,Nat.mul_comm]
  · intro h
    obtain ⟨q,p,hphys,rfl⟩ := h
    refine ⟨(q*pageSize, p),(mem_framePages hs).mpr ⟨q*pageSize,by simp,⟨q,Nat.mul_comm _ _⟩,hphys⟩,rfl⟩

theorem coversAt_of_mem {d : ProgramHeader} (hs : ∀ f ∈ frames, PageShape f)
    (hsizes : frames.map Block.size = segmentSizes d.pMemsz d.pMemsz)
    (hpage : page ∈ segmentPages d.pVaddr d.mappingFlags frames) (hvpn : vpn page.1 = vpn va) :
    ∃ q p, CoversAt d q va ∧ physAtOffset frames (q*pageSize) = some p ∧
      page = (wrap (d.pVaddr+q*pageSize), p, d.mappingFlags) := by
  obtain ⟨q,p,hphys,rfl⟩ := (mem_segmentPages hs).mp hpage
  have hlt := lt_of_physAtOffset hphys
  rw [totalSize_of_segments hsizes] at hlt
  exact ⟨q,p,⟨hlt,hvpn⟩,hphys,rfl⟩

theorem stackCovers_of_mem (hshape : PageShape stack) (hsize : stack.size = userStackSize)
    (hpage : page ∈ segmentPages userStackLowerBound stackFlags [stack])
    (hvpn : vpn page.1 = vpn va) : StackCovers va := by
  have hs : ∀ f ∈ [stack], PageShape f := by
    intro f hf
    rw [mem_singleton.mp hf]
    exact hshape
  obtain ⟨q,p,hphys,rfl⟩ := (mem_segmentPages hs).mp hpage
  have hlt := lt_of_physAtOffset hphys
  rw [show totalSize [stack] = stack.size by simp [totalSize],hsize] at hlt
  exact ⟨q,hlt,hvpn⟩

theorem imagePages_cons_append (pre post : List (ProgramHeader × List Frame))
    (b : ProgramHeader × List Frame) : imagePages (pre++b::post) =
      imagePages pre++(segmentPages b.1.pVaddr b.1.mappingFlags b.2++imagePages post) := by
  rw [imagePages,flatMap_append]
  rfl

theorem Loaded.shape (h : Loaded s buf fs tid segs stack s') {b : ProgramHeader × List Frame}
    (hb : b ∈ segs) : ∀ f ∈ b.2, FrameShape f := by
  intro f hf
  apply h.ok.shape
  exact mem_cons_of_mem _ (mem_append_left _ (mem_flatMap.mpr ⟨b,hb,hf⟩))

variable {c : ProgramHeader}

theorem Loaded.leaf_of_lastCover (h : Loaded s buf fs tid segs stack s') {q : Nat}
    (hcover : LastCover (segs.map Prod.fst) c q va) (hstack : ¬ StackCovers va) :
    ∃ frames p sp, (c, frames) ∈ segs ∧ physAtOffset frames (q*pageSize) = some p ∧
      s'.fork.spaces.space (.managed (.user tid)) = some sp ∧
      Athera.leaves s'.fork.spaces sp va = some ⟨true,c.mappingFlags,ppn p⟩ := by
  obtain ⟨pre,post,hphs,hat,honly,hpost⟩ := hcover
  obtain ⟨segs1,segs2,hsegs,hpre,hrest⟩ := map_eq_append_iff.mp hphs
  obtain ⟨b,segs3,hsegs2,hb,hpost'⟩ := map_eq_cons_iff.mp hrest
  obtain ⟨c',frames⟩ := b
  have hc : c = c' := hb.symm
  subst hc
  subst hsegs2
  have hmem : (c, frames) ∈ segs := by
    rw [hsegs]
    exact mem_append_right _ mem_cons_self
  have hshape : ∀ f ∈ frames, PageShape f := fun f hf => (h.shape hmem f hf).pageShape
  have hsizes := h.sizes _ hmem
  have hlt := hat.1
  rw [← totalSize_of_segments hsizes] at hlt
  obtain ⟨p,hp⟩ := physAtOffset_isSome hlt
  obtain ⟨sp,hsp,hleaves⟩ := h.leaves
  refine ⟨frames,p,sp,hmem,hp,hsp,?_⟩
  have hstackPages : ∀ page ∈ segmentPages userStackLowerBound stackFlags [stack],
      vpn page.1 ≠ vpn va := by
    intro page hpage hvpn
    exact hstack (stackCovers_of_mem (h.ok.shape stack mem_cons_self).pageShape h.size hpage hvpn)
  have hlater : ∀ page ∈ imagePages segs3, vpn page.1 ≠ vpn va := by
    intro page hpage hvpn
    obtain ⟨d,hd,hpage⟩ := mem_flatMap.mp hpage
    have hdmem : d ∈ segs := by
      rw [hsegs]
      exact mem_append_right _ (mem_cons_of_mem _ hd)
    obtain ⟨q',_,hat',_⟩ := coversAt_of_mem (fun f hf => (h.shape hdmem f hf).pageShape)
      (h.sizes d hdmem) hpage hvpn
    refine hpost d.1 ?_ q' hat'
    rw [← hpost']
    exact List.mem_map_of_mem hd
  rw [hleaves va,hsegs,imagePages_cons_append,foldl_append,foldl_overlay_of_not_mem hstackPages,
    foldl_append,foldl_append,foldl_overlay_of_not_mem hlater]
  apply foldl_overlay_of_mem
  · intro page hpage hvpn
    obtain ⟨q',p',hat',hp',rfl⟩ := coversAt_of_mem hshape hsizes hpage hvpn
    rw [honly q' hat',hp] at hp'
    cases hp'
    rfl
  · exact ⟨_,(mem_segmentPages hshape).mpr ⟨q,p,hp,rfl⟩,hat.2⟩

theorem physAtOffset_inside (hs : ∀ f ∈ frames, PageShape f) {off p r : Nat}
    (hoff : pageSize ∣ off) (hr : r < pageSize) (h : physAtOffset frames off = some p) :
    physAtOffset frames (off+r) = some (p+r) := by
  induction frames generalizing off with
  | nil => cases h
  | cons f frames ih =>
    have hf := hs f mem_cons_self
    rw [physAtOffset] at h ⊢
    by_cases hlt : off < f.size
    · rw [if_pos hlt] at h
      have hlt' : off+r < f.size := by
        obtain ⟨b,hb⟩ := hf.size
        simp only [pageSize] at *
        omega
      rw [if_pos hlt',← some.inj h,Nat.add_assoc]
    · rw [if_neg hlt] at h
      have hlt' : ¬ off+r < f.size := by omega
      rw [if_neg hlt',show off+r-f.size = off-f.size+r by omega]
      exact ih (fun g hg => hs g (mem_cons_of_mem _ hg)) (Nat.dvd_sub hoff hf.size) h

theorem Readable.leaf (h : Readable c) (p : Nat) :
    (⟨true,c.mappingFlags,p⟩ : PageTableEntry).faults = false ∧
      (⟨true,c.mappingFlags,p⟩ : PageTableEntry).isLeaf = true := by
  rcases h with hr | ⟨hx,hw⟩
  · simp [PageTableEntry.faults,PageTableEntry.isLeaf,hr]
  · simp [PageTableEntry.faults,PageTableEntry.isLeaf,hx,hw]

theorem slice_data {m : Memory} (h : ForkOk s fs) (hbuf : ∀ i < buf.len, InFrames fs (buf.ptr+i))
    (hfile : InFile m buf) (hc : c ∈ loadHeadersOf m buf) {i : Nat}
    (hi : i < c.pFilesz) : wrap (buf.ptr+c.pOffset) = buf.ptr+c.pOffset ∧
      InFrames fs (wrap (buf.ptr+c.pOffset)+i) := by
  have hdata := hfile.data c hc
  have hbound := h.slice_bounded hbuf (by omega)
  have hlimit : physicalLimit < wordRange := by decide
  have hwrap : wrap (buf.ptr+c.pOffset) = buf.ptr+c.pOffset := wrap_of_lt (by omega)
  rw [hwrap]
  refine ⟨rfl,?_⟩
  rw [Nat.add_assoc]
  exact hbuf _ (by omega)

/-- The task sees the byte that the last segment has put there. -/
theorem Loaded.userByte_eq (h : Loaded s buf fs tid segs stack s') {q : Nat}
    (hcanonical : IsCanonical va) (hcover : LastCover (segs.map Prod.fst) c q va)
    (hstack : ¬ StackCovers va) (hreadable : Readable c)
    (hsource : ∀ i < c.pFilesz, InFrames fs (wrap (buf.ptr+c.pOffset)+i)) :
    userByte s'.fork tid va = some (if c.pVaddr%c.pAlign ≤ q*pageSize+va%pageSize ∧
        q*pageSize+va%pageSize < c.pVaddr%c.pAlign+c.pFilesz then
      s.mem (wrap (buf.ptr+c.pOffset)+(q*pageSize+va%pageSize-c.pVaddr%c.pAlign))
      else 0) := by
  obtain ⟨frames,p,sp,hmem,hp,hsp,hleaf⟩ := h.leaf_of_lastCover hcover hstack
  have hshape := h.shape hmem
  have hpages : ∀ f ∈ frames, PageShape f := fun f hf => (hshape f hf).pageShape
  obtain ⟨hdvd,f,hf,_,hstop⟩ := physAtOffset_page hpages ⟨q,Nat.mul_comm _ _⟩ hp
  have haddr : ppn p*pageSize = p := by
    have hb := (hshape f hf).bounded
    simp only [ppn,physicalLimit,Block.stop,pageSize] at *
    omega
  have hinside : va%pageSize < pageSize := Nat.mod_lt _ (by decide)
  have hphys := physAtOffset_inside hpages ⟨q,Nat.mul_comm _ _⟩ hinside hp
  obtain ⟨hfaults,hisLeaf⟩ := hreadable.leaf (ppn p)
  have htranslate := (h.ok.isolated.ok _ sp hsp).translate_of_walk hleaf hfaults hisLeaf
  have hbyte := h.bytes _ hmem hsource _ _ hphys
  have hlookup : s'.fork.spaces.translate (.user tid) va =
      some (p+va%pageSize, c.mappingFlags) := by
    rw [SpaceManager.translate,hsp,bind_some,htranslate]
    change some (ppn p*pageSize+_, _) = _
    rw [haddr]
  rw [userByte,if_pos hcanonical,hlookup,map_some,hbyte]

theorem eachHeader_of_forall {m : Memory} {eh : ElfHeader} {phBase : Nat}
    {C : ForkState σ → Nat → ProgramHeader → Prop} {is : List Nat} {acc : Nat × MemorySet} {s : LoadState σ}
    (h : ∀ f, ∀ i ∈ is, C f i (header m phBase i)) : EachHeader m buf tid eh phBase C is acc s := by
  induction is generalizing acc s with
  | nil => trivial
  | cons i is ih => exact ⟨h _ i mem_cons_self,fun _ _ _ => ih fun f j hj => h f j (mem_cons_of_mem _ hj)⟩

/-- The loaded program finds its segments in its memory if every byte of them is placed. -/
theorem elf_image_correct {argv envp : List (List UInt8)} {sstatus : Nat} {load : Load} (h : ForkOk s fs)
    (hbuf : ∀ i < buf.len, InFrames fs (buf.ptr + i)) (hargs : ArgumentsFit argv envp)
    (hfile : InFile s.mem buf) (hfits : ∀ ph ∈ loadHeadersOf s.mem buf, FirstFrameHolds ph)
    (hplaced : ∀ ph ∈ loadHeadersOf s.mem buf, ∀ i < ph.pMemsz, BytePlaced (loadHeadersOf s.mem buf) ph i)
    (hload : loadElf buf argv envp tid sstatus ⟨s,[]⟩ = .ok load s') :
    ∀ ph ∈ loadHeadersOf s.mem buf, ∀ i < ph.pMemsz, userByte s'.fork tid (ph.pVaddr + i) =
      some (if i < ph.pFilesz then s.mem (buf.ptr + (ph.pOffset + i)) else 0) := by
  have hcopy : FileCopy True fs ⟨s,[]⟩ buf tid := by
    refine fun _ _ _ _ _ => ⟨trivial,eachHeader_of_forall fun f i hi => ?_⟩
    have hin : HeaderInFile buf (fileHeader s.mem buf) i := by
      have hheaders := hfile.headers
      have hle : (i + 1) * ProgramHeader.size ≤ (fileHeader s.mem buf).ePhnum * ProgramHeader.size :=
        Nat.mul_le_mul_right _ (mem_range.mp hi)
      rw [HeaderInFile]
      omega
    refine headerCopy_of_inFile h hbuf hin fun hisLoad _ _ _ _ _ =>
      ⟨trivial,fun _ _ _ => ⟨fun _ => trivial,fun _ _ => ?_⟩⟩
    exact hfits _ (mem_filter.mpr ⟨List.mem_map_of_mem hi,hisLoad⟩)
  obtain ⟨segs,stack,sp,va,_,_,hsegs,hloaded,_⟩ := wpp_of_ok (loadElf_spec h hargs hcopy) hload
  intro ph hph i hi
  obtain ⟨hcanonical,hstack,c,q,hcover,hreadable,hdata⟩ := hplaced ph hph i hi
  have hc : c ∈ loadHeadersOf s.mem buf := by
    obtain ⟨pre,post,hphs,_⟩ := hcover
    rw [hphs]
    exact mem_append_right _ mem_cons_self
  have hcover' : LastCover (segs.map Prod.fst) c q (ph.pVaddr + i) := by
    rw [hsegs]
    exact hcover
  rw [hloaded.userByte_eq hcanonical hcover' hstack hreadable
    fun j hj => (slice_data h hbuf hfile hc hj).2]
  rw [dataAt] at hdata
  by_cases hin : c.pVaddr % c.pAlign ≤ q * pageSize + (ph.pVaddr + i) % pageSize ∧
      q * pageSize + (ph.pVaddr + i) % pageSize < c.pVaddr % c.pAlign + c.pFilesz
  · rw [if_pos hin] at hdata ⊢
    by_cases hifile : i < ph.pFilesz
    · rw [if_pos hifile] at hdata ⊢
      have hoffset := some.inj hdata
      have hpos : 0 < c.pFilesz := by omega
      rw [(slice_data h hbuf hfile hc hpos).1,Nat.add_assoc,hoffset]
    · rw [if_neg hifile] at hdata
      cases hdata
  · rw [if_neg hin] at hdata ⊢
    by_cases hifile : i < ph.pFilesz
    · rw [if_pos hifile] at hdata
      cases hdata
    · rw [if_neg hifile]

theorem smallSegment_placed {i : Nat} (hi : i < smallSegment.pMemsz) :
    BytePlaced [smallSegment] smallSegment i := by
  have hi' : i < 256 := hi
  have hva : smallSegment.pVaddr+i = 0xffffffc000000078+i := rfl
  have hbacking : backing smallSegment.pMemsz = 4096 := by decide
  have hcover : ∀ q, CoversAt smallSegment q (0xffffffc000000078+i) ↔ q = 0 := by
    intro q
    rw [CoversAt]
    constructor
    · intro h
      have hlt := h.1
      simp only [pageSize] at hlt
      omega
    · rintro rfl
      have hstart : wrap (smallSegment.pVaddr+0*pageSize) = 0xffffffc000000078 := by decide
      rw [hstart]
      simp only [vpn]
      omega
  rw [BytePlaced,hva]
  refine ⟨?_,?_,smallSegment,0,?_,?_,?_⟩
  · right
    simp only [highHalfStart,wordRange]
    omega
  · rintro ⟨q,hq,hvpn⟩
    simp only [userStackSize,userStackLowerBound,userStackTop,pageSize,vpn,wrap,wordRange] at hq hvpn
    omega
  · refine ⟨[],[],rfl,(hcover 0).mpr rfl,fun q' hq' => (hcover q').mp hq',fun d hd => by cases hd⟩
  · exact .inl (by decide)
  · have hoff : 0*pageSize+(0xffffffc000000078+i)%pageSize = 120+i := by
      simp only [pageSize]
      omega
    have hinside : smallSegment.pVaddr%smallSegment.pAlign = 120 := by decide
    have hfilesz : smallSegment.pFilesz = 16 := rfl
    have hoffset : smallSegment.pOffset = 120 := rfl
    rw [dataAt,hoff,hinside,hfilesz]
    by_cases hfile : i < 16
    · rw [if_pos (by omega),if_pos hfile,Nat.add_sub_cancel_left]
    · rw [if_neg (by omega),if_neg hfile]

theorem elf_image_correct_small : ∃ s f load s', fileMemory smallFile = some (s, f) ∧
    loadElf (fileSlice f smallFile) [[0x61]] [] 1 0 ⟨s,[]⟩ = .ok load s' ∧
    ∀ ph ∈ loadHeadersOf s.mem (fileSlice f smallFile), ∀ i < ph.pMemsz,
      userByte s'.fork 1 (ph.pVaddr + i) =
        some (if i < ph.pFilesz then s.mem (f.start + (ph.pOffset + i)) else 0) := by
  have hruns : (fileMemory smallFile).map (fun p =>
      (decide ((fileHeader p.1.mem (fileSlice p.2 smallFile)).ePhoff +
          (fileHeader p.1.mem (fileSlice p.2 smallFile)).ePhnum * ProgramHeader.size ≤ smallFile.length),
        loadHeadersOf p.1.mem (fileSlice p.2 smallFile),
        (loadElf (fileSlice p.2 smallFile) [[0x61]] [] 1 0 ⟨p.1,[]⟩).okAnd fun _ _ => true)) =
      some (true, [smallSegment], true) := by decide +kernel
  obtain ⟨⟨s,f⟩,hfile,hvals⟩ := map_eq_some_iff.mp hruns
  simp only [Prod.mk.injEq] at hvals
  obtain ⟨hheaders,hphs,hload⟩ := hvals
  obtain ⟨hok,hin⟩ := fileMemory_ok (by decide +kernel) hfile
  have hargs : ArgumentsFit [[0x61]] [] := by decide
  have hlen : (fileSlice f smallFile).len = 136 := rfl
  obtain ⟨load,s',hrun,_⟩ := Outcome.exists_okAnd hload
  refine ⟨s,f,load,s',hfile,hrun,?_⟩
  apply elf_image_correct hok hin hargs _ _ _ hrun
  · refine ⟨of_decide_eq_true hheaders,?_⟩
    rw [hphs]
    intro ph hph
    rw [mem_singleton.mp hph,hlen]
    decide
  · rw [hphs]
    intro ph hph
    rw [mem_singleton.mp hph]
    decide
  · rw [hphs]
    intro ph hph i hi
    rw [mem_singleton.mp hph] at hi ⊢
    exact smallSegment_placed hi

def gapSegment : ProgramHeader := ⟨1,7,120,0xffffffc000000078,16,0x1000,0x1000⟩

def gapFile : List UInt8 := elfBytes 0xffffffc000000078 [gapSegment] (List.replicate 16 0x13)

/-- One page is mapped for the two pages of the segment. -/
theorem segment_tail_unmapped : ∃ s f load s', fileMemory gapFile = some (s, f) ∧
    WellFormedElf s.mem (fileSlice f gapFile) ∧
    loadElf (fileSlice f gapFile) [] [] 1 0 ⟨s,[]⟩ = .ok load s' ∧
    gapSegment ∈ loadHeadersOf s.mem (fileSlice f gapFile) ∧ 0xf88 < gapSegment.pMemsz ∧
    userByte s'.fork 1 (gapSegment.pVaddr + 0xf88) = none := by
  have hruns : (fileMemory gapFile).map (fun p =>
      (decide ((fileHeader p.1.mem (fileSlice p.2 gapFile)).ePhoff +
          (fileHeader p.1.mem (fileSlice p.2 gapFile)).ePhnum * ProgramHeader.size ≤ gapFile.length),
        loadHeadersOf p.1.mem (fileSlice p.2 gapFile),
        (loadElf (fileSlice p.2 gapFile) [] [] 1 0 ⟨p.1,[]⟩).okAnd fun _ s' =>
          decide (userByte s'.fork 1 (gapSegment.pVaddr + 0xf88) = none))) =
      some (true, [gapSegment], true) := by decide +kernel
  obtain ⟨⟨s,f⟩,hfile,hvals⟩ := map_eq_some_iff.mp hruns
  simp only [Prod.mk.injEq] at hvals
  obtain ⟨hheaders,hphs,hload⟩ := hvals
  have hlen : (fileSlice f gapFile).len = 136 := rfl
  obtain ⟨load,s',hrun,hload⟩ := Outcome.exists_okAnd hload
  refine ⟨s,f,load,s',hfile,⟨⟨of_decide_eq_true hheaders,?_⟩,?_,?_,?_⟩,hrun,?_,by decide,
    of_decide_eq_true hload⟩
  · rw [hphs]
    intro ph hph
    rw [mem_singleton.mp hph,hlen]
    decide
  · rw [hphs]
    intro ph hph
    rw [mem_singleton.mp hph]
    decide
  · rw [hphs]
    intro ph hph
    rw [mem_singleton.mp hph]
    exact .inr (.inr ⟨⟨12,rfl⟩,by decide⟩)
  · rw [hphs]
    exact pairwise_singleton _ _
  · rw [hphs]
    exact mem_singleton_self _

end Athera
