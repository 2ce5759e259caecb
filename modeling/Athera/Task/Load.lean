import Athera.Task.ExecStack

/-!
# What `load_elf` does

A segment for which there are no frames or no tables ends the loop, so that conditions on the headers
stop there.
-/

namespace Athera

open Framework Action List LoadState ProgramHeader

/-- The program header with this number, as it stands in memory. -/
def header (m : Memory) (phBase i : Nat) : ProgramHeader :=
  ProgramHeader.read m (wrap (phBase + i * ProgramHeader.size))

section

variable {σ : Type} [FrameAllocator σ]

/-- The condition holds of each header that the loop gets to, in the memory that it has by then. -/
def EachHeader (m : Memory) (buf : Slice) (tid : Nat) (eh : ElfHeader) (phBase : Nat)
    (C : ForkState σ → Nat → ProgramHeader → Prop) :
    List Nat → Nat × MemorySet → LoadState σ → Prop
  | [], _, _ => True
  | i :: is, acc, s => C s.fork i (header m phBase i) ∧
    wlp (loadHeaders buf tid eh phBase [i] acc.1 acc.2)
      (fun acc s' => EachHeader m buf tid eh phBase C is acc s') s

variable {m : Memory} {buf : Slice} {tid : Nat} {eh : ElfHeader} {phBase : Nat} {is : List Nat}
  {acc : Nat × MemorySet} {s : LoadState σ} {C D : ForkState σ → Nat → ProgramHeader → Prop}

theorem EachHeader.mono (h : EachHeader m buf tid eh phBase C is acc s)
    (hCD : ∀ f, ∀ i ∈ is, C f i (header m phBase i) → D f i (header m phBase i)) :
    EachHeader m buf tid eh phBase D is acc s := by
  induction is generalizing acc s with
  | nil => trivial
  | cons i is ih =>
    refine ⟨hCD _ i mem_cons_self h.1,fun acc' s' hrun => ?_⟩
    exact ih (h.2 acc' s' hrun) fun f j hj => hCD f j (mem_cons_of_mem _ hj)

theorem loadHeaders_cons (i : Nat) (phdrVa : Nat) (done : MemorySet) :
    (loadHeaders buf tid eh phBase (i::is) phdrVa done : LoadAction σ _) =
      loadHeaders buf tid eh phBase [i] phdrVa done >>= fun acc =>
        loadHeaders buf tid eh phBase is acc.1 acc.2 := by
  simp only [loadHeaders,bind_assoc]
  congr! 9
  split <;> simp only [bind_assoc,pure_bind]

/-- The sums that find the program headers in the image. -/
def PhdrFits (eh : ElfHeader) (ph : ProgramHeader) : Prop :=
  ph.isLoad = true → ph.pOffset ≤ eh.ePhoff → ph.pOffset + ph.pFilesz < wordRange ∧
    (eh.ePhoff < ph.pOffset + ph.pFilesz → ph.pVaddr + (eh.ePhoff - ph.pOffset) < wordRange)

structure HeaderAccess (buf : Slice) (tid : Nat) (eh : ElfHeader) (phBase : Nat) (f : ForkState σ) (i : Nat)
    (ph : ProgramHeader) : Prop where
  sum : phBase + i * ProgramHeader.size < wordRange
  file : ∀ j < ProgramHeader.size, buf.ptr ≤ wrap (phBase + i * ProgramHeader.size) + j ∧
    wrap (phBase + i * ProgramHeader.size) + j < buf.ptr + buf.len
  phdr : PhdrFits eh ph
  segment : ph.isLoad = true → AddressesFit buf tid ph f

/-- The loader does not change the header, and copies its segment into the first frame; without a
frame or an alignment it panics. -/
structure HeaderCopy (P : Prop) (fs : List Frame) (tid phBase : Nat) (f : ForkState σ) (i : Nat)
    (ph : ProgramHeader) : Prop where
  kept : ∀ j < ProgramHeader.size, InFrames fs (wrap (phBase + i * ProgramHeader.size) + j)
  copy : ph.isLoad = true → Served tid ph (fun _ _ => True) (fun _ => CopyInside P ph) f

def fileHeader (m : Memory) (buf : Slice) : ElfHeader := ElfHeader.read m buf.ptr

/-- Where the loader looks for the program headers. -/
def fileHeaders (m : Memory) (buf : Slice) : Nat := wrap (buf.ptr + (fileHeader m buf).ePhoff)

/-- The state in which the loop over the headers starts. -/
def loopStart (s : LoadState σ) (buf : Slice) (f : ForkState σ) : LoadState σ :=
  ⟨f,s.log ++ [.read buf.ptr ElfHeader.size] ++ [.sum (buf.ptr + (fileHeader s.fork.mem buf).ePhoff)]⟩

/-- A condition on the program headers that `load_elf` gets to, and before them `B`. -/
def EachFileHeader (s : LoadState σ) (buf : Slice) (tid : Nat) (B : Prop)
    (C : ForkState σ → Nat → ProgramHeader → Prop) : Prop :=
  ElfHeader.size ≤ buf.len → (fileHeader s.fork.mem buf).validate = .ok () →
    wlp (ForkState.createSpace tid) (fun _ f => B ∧ EachHeader s.fork.mem buf tid (fileHeader s.fork.mem buf)
      (fileHeaders s.fork.mem buf) C (List.range (fileHeader s.fork.mem buf).ePhnum) (0, [])
      (loopStart s buf f)) s.fork

theorem EachFileHeader.mono {B B' : Prop} (h : EachFileHeader s buf tid B C) (hB : B → B')
    (hCD : ∀ f, ∀ i < (fileHeader s.fork.mem buf).ePhnum,
      C f i (header s.fork.mem (fileHeaders s.fork.mem buf) i) →
      D f i (header s.fork.mem (fileHeaders s.fork.mem buf) i)) : EachFileHeader s buf tid B' D :=
  fun hlen hvalid => wlp_mono (h hlen hvalid) fun _ _ hs =>
    ⟨hB hs.1,hs.2.mono fun f i hi => hCD f i (mem_range.mp hi)⟩

/-- The accesses to the file are legal. -/
def FileAccess (s : LoadState σ) (buf : Slice) (tid : Nat) : Prop :=
  EachFileHeader s buf tid (buf.ptr + (fileHeader s.fork.mem buf).ePhoff < wordRange)
    (HeaderAccess buf tid (fileHeader s.fork.mem buf) (fileHeaders s.fork.mem buf))

/-- The loader keeps the headers and its copies inside. -/
def FileCopy (P : Prop) (fs : List Frame) (s : LoadState σ) (buf : Slice) (tid : Nat) : Prop :=
  EachFileHeader s buf tid True (HeaderCopy P fs tid (fileHeaders s.fork.mem buf))

end

def mappingOf (b : ProgramHeader × List Frame) : UserMapping := ⟨b.1.pVaddr,b.2,b.1.mappingFlags⟩

variable {σ : Type} {s s' : LoadState σ} {tid : Nat} {E : LoadError → LoadState σ → Prop}
  {eh : ElfHeader}

theorem findPhdr_spec (buf : Slice) (m0 : SpaceManager) (tid : Nat) (ph : ProgramHeader) (phdrVa : Nat) :
    wp (LoadState.findPhdr eh ph phdrVa)
      (fun _ s' => s'.fork = s.fork ∧ Logged buf m0 tid (PhdrFits eh ph) s s') E s := by
  rw [findPhdr]
  by_cases hload : ph.isLoad = true ∧ ph.pOffset ≤ eh.ePhoff
  · rw [if_pos hload]
    simp only [wp_bind,wp_add]
    have hfirst : Logged buf m0 tid (PhdrFits eh ph) s
        ⟨s.fork,s.log ++ [.sum (ph.pOffset+ph.pFilesz)]⟩ :=
      (Logged.refl _ s).append trivial fun hfits => (hfits hload.1 hload.2).1
    split
    · rename_i hlt
      refine ⟨rfl,?_⟩
      refine hfirst.append trivial fun hfits => ?_
      obtain ⟨hsum,hnext⟩ := hfits hload.1 hload.2
      rw [wrap_of_lt hsum] at hlt
      exact hnext hlt
    · exact ⟨rfl,hfirst⟩
  · rw [if_neg hload]
    exact ⟨rfl,Logged.refl _ s⟩

theorem userRootAddr_spec {sp : Space} (hsp : s.fork.spaces.space (.managed (.user tid)) = some sp) :
    wp (LoadState.onFork (LoadState.userRootAddr tid)) (fun root s' => root = sp.root ∧ s' = s) E s := by
  have hget : s.fork.spaces.user.get? tid = some sp := hsp
  simp only [wp_onFork,userRootAddr,wp_bind,wp_get,wp_orThrow,hget,wp_pure]
  refine ⟨fun a ha => ?_,fun hnone => by cases hnone⟩
  exact ⟨congrArg Space.root (Option.some.inj ha).symm,trivial⟩

theorem validate_spec (eh : ElfHeader) {Q : Unit → LoadState σ → Prop} (hok : eh.validate = .ok () → Q () s)
    (herr : ∀ e, E e s) : wp (LoadState.validate eh) Q E s := by
  rw [validate]
  cases hv : eh.validate with
  | ok u => exact hok hv
  | error e => exact herr _

variable [LawfulFrameAllocator σ] {s0 : ForkState σ} {fs : List Frame} {buf : Slice}
  {m0 : SpaceManager} {P : Prop} {phBase : Nat} {segs : List (ProgramHeader × List Frame)}

theorem loadHeader_spec {i : Nat} {ph : ProgramHeader} (phdrVa : Nat)
    (h : Image s0 buf fs tid segs s) (hph : header s0.mem phBase i = ph)
    (hcopy : HeaderCopy P fs tid phBase s.fork i ph) :
    wpp P (loadHeaders buf tid eh phBase [i] phdrVa (segs.map mappingOf))
      (fun r s' => ∃ segs', r.2 = segs'.map mappingOf ∧ Image s0 buf fs tid segs' s' ∧
        segs'.map Prod.fst = segs.map Prod.fst ++ [ph].filter isLoad ∧
        Logged buf s0.spaces tid (HeaderAccess buf tid eh phBase s.fork i ph) s s')
      (fun _ s' => Stopped buf s0.spaces tid (HeaderAccess buf tid eh phBase s.fork i ph) s s') s := by
  -- the bytes of the header are still those of the file
  have hread : read s.fork.mem (wrap (phBase+i*size)) = ph := by
    rw [← hph]
    exact read_congr fun j hj => h.kept _ (hcopy.kept j hj)
  simp only [loadHeaders,wpp_bind,wpp_add,wpp_record,wpp_memory]
  rw [hread]
  have hsum : Logged buf s0.spaces tid (HeaderAccess buf tid eh phBase s.fork i ph) s
      ⟨s.fork,s.log ++ [.sum (phBase+i*size)]⟩ :=
    (Logged.refl _ s).append trivial fun hacc => hacc.sum
  have hfile : Logged buf s0.spaces tid (HeaderAccess buf tid eh phBase s.fork i ph) s
      ⟨s.fork,s.log ++ [.sum (phBase+i*size)] ++ [.read (wrap (phBase+i*size)) size]⟩ :=
    hsum.append trivial fun hacc => hacc.file
  refine wpp_mono (wpp_of_wp (findPhdr_spec (E := fun _ _ => False) buf s0.spaces tid ph phdrVa)) ?_
    fun _ _ he => he.elim
  rintro phdrVa' s1 ⟨hfork,hlog⟩
  have hlog1 : Logged buf s0.spaces tid (HeaderAccess buf tid eh phBase s.fork i ph) s s1 :=
    hfile.trans (hlog.mono fun hacc => hacc.phdr)
  have hfork : s1.fork = s.fork := hfork
  have himage1 : Image s0 buf fs tid segs s1 := h.congr hfork
  by_cases hload : ph.isLoad = true
  · rw [if_pos hload,wpp_bind,wpp_onError]
    have hsegment := loadSegment_spec himage1 (P := P) (hfork ▸ hcopy.copy hload)
    rw [hfork] at hsegment
    refine wpp_mono hsegment ?_ ?_
    · intro mapping s2 hs2
      obtain ⟨frames,rfl,himage2,hlog2⟩ := hs2
      refine ⟨segs ++ [(ph, frames)],?_,himage2,?_,hlog1.trans (hlog2.mono fun hacc => hacc.segment hload)⟩
      · rw [map_append]
        rfl
      · rw [map_append,filter_cons_of_pos hload]
        rfl
    · intro e s2 hs2
      have hstopped : Stopped buf s0.spaces tid (HeaderAccess buf tid eh phBase s.fork i ph) s s2 :=
        ⟨hs2.keeps,hlog1.trans (hs2.logged.mono fun hacc => hacc.segment hload)⟩
      exact wpp_of_wp (hstopped.dropFrames _)
  · rw [if_neg hload,filter_cons_of_neg hload]
    exact ⟨segs,rfl,himage1,by simp,hlog1⟩

theorem loadHeaders_spec {is : List Nat} (phdrVa : Nat)
    (h : Image s0 buf fs tid segs s) (hcopy : EachHeader s0.mem buf tid eh phBase
      (HeaderCopy P fs tid phBase) is (phdrVa, segs.map mappingOf) s) :
    wpp P (loadHeaders buf tid eh phBase is phdrVa (segs.map mappingOf))
      (fun r s' => ∃ segs', r.2 = segs'.map mappingOf ∧ Image s0 buf fs tid segs' s' ∧
        segs'.map Prod.fst = segs.map Prod.fst ++ (is.map (header s0.mem phBase)).filter isLoad ∧
        Logged buf s0.spaces tid (EachHeader s0.mem buf tid eh phBase
          (HeaderAccess buf tid eh phBase) is (phdrVa, segs.map mappingOf) s) s s')
      (fun _ s' => Stopped buf s0.spaces tid (EachHeader s0.mem buf tid eh phBase
        (HeaderAccess buf tid eh phBase) is (phdrVa, segs.map mappingOf) s) s s') s := by
  induction is generalizing s phdrVa segs with
  | nil => exact ⟨segs,rfl,h,by simp,Logged.refl _ s⟩
  | cons i is ih =>
    rw [loadHeaders_cons,wpp_bind]
    refine wpp_mono (wpp_run (loadHeader_spec phdrVa h rfl hcopy.1)) ?_ ?_
    · rintro ⟨phdrVa',_⟩ s1 ⟨hrun,segs1,rfl,himage1,hsegs1,hlog1⟩
      refine wpp_mono (ih phdrVa' himage1 (hcopy.2 _ s1 hrun)) ?_ ?_
      · rintro r s2 ⟨segs2,hr,himage2,hsegs2,hlog2⟩
        refine ⟨segs2,hr,himage2,?_,(hlog1.mono fun hacc => hacc.1).trans
          (hlog2.mono fun hacc => hacc.2 _ s1 hrun)⟩
        rw [hsegs2,hsegs1,append_assoc,← filter_append]
        rfl
      · intro e s2 hs2
        exact ⟨hs2.keeps,(hlog1.mono fun hacc => hacc.1).trans
          (hs2.logged.mono fun hacc => hacc.2 _ s1 hrun)⟩
    · intro e s1 hs1
      exact ⟨hs1.keeps,hs1.logged.mono fun hacc => hacc.1⟩

/-- The size of the arguments on the stack fits into a word. -/
def ArgumentsFit (argv envp : List (List UInt8)) : Prop := ArgsFit argv envp (List.replicate 6 (0, 0))

instance (argv envp : List (List UInt8)) : Decidable (ArgumentsFit argv envp) :=
  inferInstanceAs (Decidable (_ ≤ _))

variable {argv envp : List (List UInt8)}

theorem ArgumentsFit.argsFit (h : ArgumentsFit argv envp)
    {auxv : List (Nat × Nat)} (hlen : auxv.length = 6) : ArgsFit argv envp auxv := by
  simp only [ArgsFit,initialStackBytes,pointerWords,hlen] at h ⊢
  exact h

/-- The end of `load_elf`, after the segments. -/
def LoadState.loadStack (eh : ElfHeader) (argv envp : List (List UInt8)) (tid sstatus : Nat)
    (loaded : Nat × MemorySet) : LoadAction σ Load := do
  match ← onFork (ForkState.takeFrame userStackSize) with
  | none => do
    dropFrames (loaded.2.flatMap UserMapping.frames)
    throw (.mem .outOfMemory)
  | some stack => do
    let sp ← onError (do
        mapPages tid userStackLowerBound stackFlags [stack]
        buildInitialStack argv envp [(3, loaded.1),(4, eh.ePhentsize),(5, eh.ePhnum),(6, pageSize),
          (9, eh.eEntry),(0, 0)] stack)
      (dropFrames (stack :: loaded.2.flatMap UserMapping.frames))
    let root ← onFork (userRootAddr tid)
    pure ⟨loaded.2 ++ [⟨userStackLowerBound,[stack],stackFlags⟩],
      TrapContext.entry eh.eEntry sp root sstatus⟩

structure Loaded (s0 : ForkState σ) (buf : Slice) (fs : List Frame) (tid : Nat)
    (segs : List (ProgramHeader × List Frame)) (stack : Frame) (s : LoadState σ) : Prop where
  ok : ForkOk s.fork (stack :: (segs.flatMap Prod.snd ++ fs))
  keeps : Keeps (.managed (.user tid)) s0.spaces s.fork.spaces
  leaves : ∃ sp, s.fork.spaces.space (.managed (.user tid)) = some sp ∧
    ∀ va, leaves s.fork.spaces sp va = (imagePages segs ++ segmentPages userStackLowerBound
      LoadState.stackFlags [stack]).foldl overlay (fun _ => none) va
  size : stack.size = userStackSize
  sizes : ∀ b ∈ segs, b.2.map Block.size = segmentSizes b.1.pMemsz b.1.pMemsz
  bytes : ∀ b ∈ segs, (∀ i < b.1.pFilesz, InFrames fs (wrap (buf.ptr + b.1.pOffset) + i)) →
    SegmentBytes s0.mem buf s.fork.mem b

theorem mem_framePages_lt {frames : List Frame} (hs : ∀ f ∈ frames, PageShape f) {page : Nat × Nat}
    (h : page ∈ framePages 0 frames) : page.1+pageSize ≤ totalSize frames := by
  obtain ⟨off,hoff,hdvd,hphys⟩ := (mem_framePages hs).mp h
  obtain ⟨a,rfl⟩ := hdvd
  obtain ⟨b,hb⟩ := dvd_totalSize hs
  have hlt := lt_of_physAtOffset hphys
  rw [hb] at hlt ⊢
  have hab : a < b := Nat.lt_of_mul_lt_mul_left hlt
  have hle : pageSize*(a+1) ≤ pageSize*b := Nat.mul_le_mul_left _ hab
  rw [Nat.mul_add] at hle
  omega

theorem pagesFit_of_forall {va : Nat} {flags : PageFlags} {pages : List (Nat × Nat)}
    (h : ∀ page ∈ pages, va+page.1 < wordRange) (f : ForkState σ) : PagesFit tid va flags pages f := by
  induction pages generalizing f with
  | nil => trivial
  | cons page pages ih =>
    exact ⟨h page mem_cons_self,fun _ f' _ => ih (fun p hp => h p (mem_cons_of_mem _ hp)) f'⟩

theorem pagesFit_stack {stack : Frame} (hshape : PageShape stack) (hsize : stack.size = userStackSize)
    (f : ForkState σ) : PagesFit tid userStackLowerBound LoadState.stackFlags (framePages 0 [stack]) f := by
  refine pagesFit_of_forall (fun page hpage => ?_) f
  have hlt := mem_framePages_lt (fun g hg => by rw [mem_singleton.mp hg]; exact hshape) hpage
  have htotal : totalSize [stack] = userStackSize := by
    rw [← hsize]
    simp [totalSize]
  have hend : userStackLowerBound+userStackSize ≤ wordRange := by decide
  have hpage : 0 < pageSize := by decide
  omega

theorem loadStack_spec
    {phdrVa sstatus : Nat} (h : Image s0 buf fs tid segs s) (hargs : ArgumentsFit argv envp) (fits : Prop) :
    wp (LoadState.loadStack eh argv envp tid sstatus (phdrVa, segs.map mappingOf))
      (fun load s' => ∃ stack sp va, s'.fork.spaces.space (.managed (.user tid)) = some sp ∧
        load = ⟨segs.map mappingOf ++ [⟨userStackLowerBound,[stack],LoadState.stackFlags⟩],
          TrapContext.entry eh.eEntry va sp.root sstatus⟩ ∧
        Loaded s0 buf fs tid segs stack s' ∧ Logged buf s0.spaces tid fits s s')
      (fun _ s' => Stopped buf s0.spaces tid fits s s') s := by
  rw [loadStack,wp_bind,wp_onFork]
  refine wp_mono (takeFrame_spec h.ok userStackSize (E := fun _ _ => False)) ?_ fun _ _ he => he.elim
  intro r f1 hr
  obtain ⟨hsame,hr⟩ := hr
  have hkeeps1 : Keeps (.managed (.user tid)) s0.spaces f1.spaces := by
    rw [hsame.spaces]
    exact h.keeps
  have hstopped : Stopped buf s0.spaces tid fits s ⟨f1,s.log⟩ := ⟨hkeeps1,fun a ha => .inl ha⟩
  cases r with
  | none =>
    simp only [wp_bind]
    exact wp_mono (hstopped.dropFrames (E := fun _ _ => False) _) (fun _ _ hs => hs) fun _ _ he => he.elim
  | some stack =>
    obtain ⟨hsize,hok1⟩ := hr
    have hsize' : stack.size = userStackSize := by
      rw [hsize]
      decide
    have hshape := hok1.shape stack mem_cons_self
    obtain ⟨sp,hsp,hleaves⟩ := h.leaves
    have hstart : Repointed ⟨s0.alloc,f1.mem,s0.spaces⟩ f1 (stack::(segs.flatMap Prod.snd++fs)) tid
        ((imagePages segs).foldl overlay fun _ => none) := by
      refine ⟨hok1,Memory.AgreeOn.refl _ _,hkeeps1,sp,?_,?_⟩
      · rw [hsame.spaces]
        exact hsp
      · rw [hsame.spaces]
        exact hleaves
    simp only [wp_bind,wp_onError]
    refine wp_mono (loadPages_spec buf hstart) ?_ ?_
    · intro _ s2 hs2
      obtain ⟨_,hrep,hlog2⟩ := hs2
      have hlog : Logged buf s0.spaces tid fits s s2 :=
        hstopped.logged.trans (hlog2.mono fun _ => pagesFit_stack hshape.pageShape hsize' f1)
      refine wp_mono (buildInitialStack_spec buf hrep.ok hrep.keeps (hargs.argsFit rfl)) ?_ ?_
      · intro va s3 hs3
        have hlog3 : Logged buf s0.spaces tid fits s s3 :=
          hlog.trans (hs3.logged.mono fun _ => trivial)
        obtain ⟨sp3,hsp3,hleaves3⟩ := hrep.leaves
        rw [← hs3.written.spaces] at hsp3 hleaves3
        refine wp_mono (userRootAddr_spec hsp3 (E := fun _ _ => False)) ?_ fun _ _ he => he.elim
        intro root s4 hs4
        obtain ⟨rfl,rfl⟩ := hs4
        refine ⟨stack,sp3,va,hsp3,rfl,⟨hs3.ok,hs3.keeps,⟨sp3,hsp3,?_⟩,hsize',h.sizes,?_⟩,hlog3⟩
        · intro va
          rw [foldl_append]
          exact hleaves3 va
        · intro b hb hsource
          refine (h.bytes b hb hsource).congr fun a ha => ?_
          have hin : InFrames (segs.flatMap Prod.snd++fs) a := by
            obtain ⟨x,hx,hax⟩ := ha
            exact inFrames_append.mpr (.inl ⟨x,mem_flatMap.mpr ⟨b,hb,hx⟩,hax⟩)
          have hok3 : ForkOk s4.fork ([stack] ++ (segs.flatMap Prod.snd++fs)) := hs3.ok
          have hall : InFrames ([stack] ++ (segs.flatMap Prod.snd++fs)) a :=
            inFrames_append.mpr (.inr hin)
          rw [hs3.written.outside a (not_inFrames_of_apart hok3 hin),hrep.mem a hall]
          exact hsame.mem a hin
      · intro e s3 hs3
        have hstop3 : Stopped buf s0.spaces tid fits s s3 :=
          ⟨hs3.keeps,hlog.trans (hs3.logged.mono fun _ => trivial)⟩
        exact hstop3.dropFrames _
    · intro e s2 hs2
      have hstop2 : Stopped buf s0.spaces tid fits s s2 := by
        refine ⟨hs2.keeps,hstopped.logged.trans (hs2.logged.mono fun _ => ?_)⟩
        exact pagesFit_stack hshape.pageShape hsize' f1
      exact hstop2.dropFrames _

/-- The `LOAD` headers of the file. -/
def loadHeadersOf (m : Memory) (buf : Slice) : List ProgramHeader :=
  ((List.range (fileHeader m buf).ePhnum).map (header m (fileHeaders m buf))).filter ProgramHeader.isLoad

theorem loadElf_spec {sstatus : Nat} (h : ForkOk s.fork fs) (hargs : ArgumentsFit argv envp)
    (hcopy : FileCopy P fs s buf tid) :
    wpp P (LoadState.loadElf buf argv envp tid sstatus)
      (fun load s' => ∃ segs stack sp va, s'.fork.spaces.space (.managed (.user tid)) = some sp ∧
        load = ⟨segs.map mappingOf ++ [⟨userStackLowerBound,[stack],LoadState.stackFlags⟩],
          TrapContext.entry (fileHeader s.fork.mem buf).eEntry va sp.root sstatus⟩ ∧
        segs.map Prod.fst = loadHeadersOf s.fork.mem buf ∧ Loaded s.fork buf fs tid segs stack s' ∧
        Logged buf s.fork.spaces tid (FileAccess s buf tid) s s')
      (fun _ s' => Stopped buf s.fork.spaces tid (FileAccess s buf tid) s s') s := by
  rw [loadElf,wpp_bind,tryFrom]
  by_cases hlen : buf.len < ElfHeader.size
  · rw [if_pos hlen]
    exact ⟨Keeps.refl _ _,Logged.refl _ s⟩
  · rw [if_neg hlen]
    simp only [wpp_bind,wpp_record,wpp_memory,wpp_pure]
    have hlog1 : ∀ f, Logged buf s.fork.spaces tid (FileAccess s buf tid) s
        ⟨f,s.log ++ [.read buf.ptr ElfHeader.size]⟩ := by
      refine fun f => (Logged.refl _ s).append trivial fun _ i hi => ?_
      omega
    change wpp P (validate (fileHeader s.fork.mem buf)) _ _ _
    refine wpp_of_wp (validate_spec _ (fun hvalid => ?_) fun _ => ⟨Keeps.refl _ _,hlog1 _⟩)
    have hheads := hcopy (by omega) hvalid
    rw [wpp_onFork]
    refine wpp_mono (wpp_run (wpp_of_wp (createSpace_spec h tid))) ?_ fun _ f hf => ⟨hf,hlog1 f⟩
    rintro _ f ⟨hcreate,hrep⟩
    have hlog2 : Logged buf s.fork.spaces tid (FileAccess s buf tid) s (loopStart s buf f) :=
      (hlog1 f).append trivial fun hacc => (hacc (by omega) hvalid _ f hcreate).1
    have himage : Image s.fork buf fs tid [] (loopStart s buf f) :=
      ⟨hrep.ok,hrep.mem,hrep.keeps,hrep.leaves,fun b hb => (by cases hb),fun b hb => by cases hb⟩
    simp only [wpp_add]
    refine wpp_mono (loadHeaders_spec 0 himage (hheads _ f hcreate).2) ?_ ?_
    · rintro ⟨phdrVa,_⟩ s3 ⟨segs,rfl,himage3,hsegs,hlog3⟩
      have hlog : Logged buf s.fork.spaces tid (FileAccess s buf tid) s s3 :=
        hlog2.trans (hlog3.mono fun hacc => (hacc (by omega) hvalid _ f hcreate).2)
      change wpp P (loadStack (fileHeader s.fork.mem buf) argv envp tid sstatus _) _ _ s3
      refine wpp_mono (wpp_of_wp (loadStack_spec himage3 hargs (FileAccess s buf tid))) ?_ ?_
      · intro load s4 hs4
        obtain ⟨stack,sp,va,hsp,hload,hloaded,hlog4⟩ := hs4
        exact ⟨segs,stack,sp,va,hsp,hload,hsegs,hloaded,hlog.trans hlog4⟩
      · intro e s4 hs4
        exact ⟨hs4.keeps,hlog.trans hs4.logged⟩
    · intro e s3 hs3
      exact ⟨hs3.keeps,hlog2.trans (hs3.logged.mono fun hacc => (hacc (by omega) hvalid _ f hcreate).2)⟩

end Athera
