import Athera.Mm.WellFormed
import Athera.Task.MemoryClone

/-!
# Fork gives the child a private copy

The child gets the same pages with the same contents in frames of its own.
-/

namespace Athera

open Framework Action AddressSpace List ForkState LawfulFrameAllocator

section

variable {σ : Type} {s s' s'' : ForkState σ} {fs gs : List Frame}

/-- The spaces are the same, and so are the bytes of the frames. -/
structure Untouched (s s' : ForkState σ) (fs : List Frame) : Prop where
  spaces : s'.spaces = s.spaces
  mem : Memory.AgreeOn (InFrames fs) s.mem s'.mem

theorem Untouched.refl (s : ForkState σ) (fs : List Frame) : Untouched s s fs :=
  ⟨rfl,Memory.AgreeOn.refl _ _⟩

theorem Untouched.trans (h : Untouched s s' fs) (h' : Untouched s' s'' fs) : Untouched s s'' fs :=
  ⟨h'.spaces.trans h.spaces,h.mem.trans h'.mem⟩

theorem Untouched.mono (h : Untouched s s' fs) (hsub : ∀ f ∈ gs, f ∈ fs) : Untouched s s' gs :=
  ⟨h.spaces,h.mem.mono fun _ => .mono hsub⟩

end

variable {σ : Type} [LawfulFrameAllocator σ] {ε : Type}

/-- The frames are outstanding, and so are the pages of all tables, apart from them. -/
structure ForkOk (s : ForkState σ) (fs : List Frame) : Prop where
  isolated : Isolated s.spaces
  nodup : fs.Nodup
  owns : ∃ live, Owns s.alloc s.mem live ∧ (∀ f ∈ fs, f ∈ live) ∧
    ∀ a ∈ s.spaces.live, ⟨a,pageSize⟩ ∈ live
  tables : ∀ a ∈ s.spaces.live, ⟨a,pageSize⟩ ∉ fs

variable {s s' s'' : ForkState σ} {fs gs : List Frame}

variable {f g : Frame} {m : Memory}

section

variable {E : ε → ForkState σ → Prop}

theorem ForkOk.perm (h : ForkOk s fs) (hp : fs.Perm gs) : ForkOk s gs := by
  obtain ⟨live,howns,hsub,htab⟩ := h.owns
  exact ⟨h.isolated,hp.nodup_iff.mp h.nodup,
    ⟨live,howns,fun f hf => hsub f (hp.mem_iff.mpr hf),htab⟩,
    fun a ha hin => h.tables a ha (hp.mem_iff.mpr hin)⟩

theorem ForkOk.shape (h : ForkOk s fs) : ∀ f ∈ fs, FrameShape f := by
  obtain ⟨live,howns,hsub,_⟩ := h.owns
  exact fun f hf => LawfulFrameAllocator.shape howns f (hsub f hf)

theorem ForkOk.apart (h : ForkOk s fs) (hf : f ∈ fs) (hg : g ∈ fs) (hne : f ≠ g) : f.Apart g := by
  obtain ⟨live,howns,hsub,_⟩ := h.owns
  exact LawfulFrameAllocator.apart howns (hsub f hf) (hsub g hg) hne

theorem takeFrame_spec (h : ForkOk s fs) (size : Nat) :
    wp (ForkState.takeFrame size : Action ε (ForkState σ) (Option Frame))
      (fun r s' => Untouched s s' fs ∧ match r with
        | none => ForkOk s' fs
        | some f => f.size = blockSize size ∧ ForkOk s' (f::fs)) E s := by
  obtain ⟨hiso,hnd,⟨live,howns,hsub,htab⟩,htables⟩ := h
  have hin : ∀ a, InFrames fs a → Covered live a := fun _ => InFrames.covered hsub
  simp only [wp,takeFrame]
  cases hr : FrameAllocator.allocFrame s.alloc s.mem size with
  | mk start rest =>
    cases start with
    | none =>
      obtain ⟨howns',hag⟩ := alloc_none howns hr
      exact ⟨⟨rfl,hag.mono hin⟩,hiso,hnd,⟨live,howns',hsub,htab⟩,htables⟩
    | some p =>
      obtain ⟨hnew,howns',hag⟩ := alloc_some howns hr
      refine ⟨⟨rfl,hag.mono hin⟩,rfl,hiso,?_,⟨_,howns',?_,?_⟩,?_⟩
      · exact nodup_cons.mpr ⟨fun hm => hnew (hsub _ hm),hnd⟩
      · intro f hf
        rcases mem_cons.mp hf with rfl | hf
        · exact Set.mem_insert _ _
        · exact Set.mem_insert_of_mem _ (hsub f hf)
      · exact fun a ha => Set.mem_insert_of_mem _ (htab a ha)
      · intro a ha hm
        rcases mem_cons.mp hm with he | hm
        · have hold := htab a ha
          rw [he] at hold
          exact hnew hold
        · exact htables a ha hm

theorem giveFrame_spec (h : ForkOk s (f::fs)) :
    wp (ForkState.giveFrame f : Action ε (ForkState σ) Unit)
      (fun _ s' => Untouched s s' fs ∧ ForkOk s' fs) E s := by
  obtain ⟨hiso,hnd,⟨live,howns,hsub,htab⟩,htables⟩ := h
  obtain ⟨hf,hnd⟩ := nodup_cons.mp hnd
  simp only [wp,giveFrame]
  cases hr : FrameAllocator.deallocFrame s.alloc s.mem f.start f.size with
  | mk alloc mem =>
    obtain ⟨howns',hag⟩ := dealloc howns (hsub f mem_cons_self) hr
    have hsub' : ∀ g ∈ fs, g ∈ live \ {f} := by
      intro g hg
      refine ⟨hsub g (mem_cons_of_mem _ hg),?_⟩
      rintro rfl
      exact hf hg
    refine ⟨⟨rfl,hag.mono fun _ => InFrames.covered hsub'⟩,hiso,hnd,⟨_,howns',hsub',?_⟩,
      fun a ha hm => htables a ha (mem_cons_of_mem _ hm)⟩
    intro a ha
    refine ⟨htab a ha,fun he => ?_⟩
    exact htables a ha (he ▸ mem_cons_self)

theorem giveFrames_total (s : ForkState σ) (fs : List Frame) :
    wp (forEach ForkState.giveFrame fs : Action ε (ForkState σ) Unit) (fun _ _ => True) E s := by
  apply wp_forEach (I := fun _ _ => True) _ trivial
  intro f _ s' _
  cases hr : FrameAllocator.deallocFrame s'.alloc s'.mem f.start f.size
  simp only [wp,giveFrame]

theorem giveFrames_spec (h : ForkOk s (gs++fs)) :
    wp (forEach ForkState.giveFrame gs : Action ε (ForkState σ) Unit)
      (fun _ s' => Untouched s s' fs ∧ ForkOk s' fs) E s := by
  apply wp_forEach (I := fun rest s' => Untouched s s' fs ∧ ForkOk s' (rest++fs))
  · rintro f rest s' ⟨hsame,hok⟩
    apply wp_weaken (giveFrame_spec hok)
    rintro _ s'' ⟨hsame',hok'⟩
    exact ⟨hsame.trans (hsame'.mono fun f hf => mem_append_right _ hf),hok'⟩
  · exact ⟨Untouched.refl s fs,h⟩

def pageFrame (p : Nat) : Frame := ⟨p,pageSize⟩

theorem givePages_spec {pages : List Nat} (h : ForkOk s (pages.map pageFrame++fs)) :
    wp (ForkState.givePages pages : Action ε (ForkState σ) Unit)
      (fun _ s' => Untouched s s' fs ∧ ForkOk s' fs) E s := by
  apply wp_forEach (I := fun rest s' => Untouched s s' fs ∧ ForkOk s' (rest.map pageFrame++fs))
  · rintro p rest s' ⟨hsame,hok⟩
    apply wp_weaken (giveFrame_spec hok)
    rintro _ s'' ⟨hsame',hok'⟩
    exact ⟨hsame.trans (hsame'.mono fun f hf => mem_append_right _ hf),hok'⟩
  · exact ⟨Untouched.refl s fs,h⟩

theorem forkAllocLoop_spec {fuel remaining : Nat} {frames : List Frame}
    (h : ForkOk s (frames++fs)) : wp (ForkState.allocFramesLoop fuel remaining frames :
        Action ε (ForkState σ) (Option (List Frame)))
      (fun r s' => Untouched s s' fs ∧ match r with
        | none => ForkOk s' fs
        | some gs => (∃ new, gs = frames++new ∧
            new.map Block.size = segmentSizes fuel remaining) ∧ ForkOk s' (gs++fs)) E s := by
  induction fuel generalizing remaining frames s with
  | zero => exact ⟨Untouched.refl s fs,⟨[],by simp [segmentSizes]⟩,h⟩
  | succ fuel ih =>
    rw [ForkState.allocFramesLoop,segmentSizes]
    by_cases hr : remaining = 0
    · rw [if_pos hr,if_pos hr]
      exact ⟨Untouched.refl s fs,⟨[],by simp⟩,h⟩
    · rw [if_neg hr,if_neg hr,wp_bind]
      apply wp_weaken (takeFrame_spec h remaining)
      rintro r s' ⟨hsame,hr'⟩
      have hsame' : Untouched s s' fs := hsame.mono fun f hf => mem_append_right _ hf
      cases r with
      | none =>
        simp only [wp_bind]
        apply wp_weaken (giveFrames_spec hr')
        rintro _ s'' ⟨hdrop,hok⟩
        exact ⟨hsame'.trans hdrop,hok⟩
      | some f =>
        obtain ⟨hsize,hok⟩ := hr'
        have hperm : (f::(frames++fs)).Perm ((frames ++ [f])++fs) := by
          rw [append_assoc]
          exact perm_middle.symm
        apply wp_weaken (ih (hok.perm hperm))
        rintro r s'' ⟨hloop,hres⟩
        refine ⟨hsame'.trans hloop,?_⟩
        cases r with
        | none => exact hres
        | some gs =>
          obtain ⟨⟨new,rfl,hnew⟩,hok'⟩ := hres
          refine ⟨⟨f::new,by simp,?_⟩,hok'⟩
          rw [map_cons,hnew,hsize]

theorem forkAlloc_spec (h : ForkOk s fs) (size : Nat) :
    wp (ForkState.allocFrames size : Action ε (ForkState σ) (Option (List Frame)))
      (fun r s' => Untouched s s' fs ∧ match r with
        | none => ForkOk s' fs
        | some gs => gs.map Block.size = segmentSizes size size ∧ ForkOk s' (gs++fs)) E s := by
  have hnil : ForkOk s ([] ++ fs) := h
  apply wp_weaken (forkAllocLoop_spec hnil)
  rintro r s' ⟨hsame,hres⟩
  refine ⟨hsame,?_⟩
  cases r with
  | none => exact hres
  | some gs =>
    obtain ⟨⟨new,rfl,hnew⟩,hok⟩ := hres
    exact ⟨hnew,hok⟩

theorem ForkOk.store (h : ForkOk s fs) (hm : ∀ a, ¬ InFrames fs a → m a = s.mem a) :
    ForkOk { s with mem := m } fs := by
  obtain ⟨live,howns,hsub,htab⟩ := h.owns
  refine ⟨h.isolated,h.nodup,⟨live,LawfulFrameAllocator.store howns ?_,hsub,htab⟩,h.tables⟩
  intro a ha
  exact hm a fun hin => ha (hin.covered hsub)

theorem ForkOk.pairwise (h : ForkOk s fs) : fs.Pairwise Block.Apart :=
  h.nodup.pairwise_of_forall_ne fun _ hf _ hg hne => h.apart hf hg hne

theorem takePages_spec (h : ForkOk s fs) (n : Nat) :
    wp (ForkState.takePages n : Action ε (ForkState σ) (List Nat))
      (fun pages s' => Untouched s s' fs ∧ ForkOk s' (pages.map pageFrame++fs)) E s := by
  induction n generalizing s fs with
  | zero => exact ⟨Untouched.refl s fs,h⟩
  | succ n ih =>
    rw [takePages,wp_bind]
    apply wp_weaken (takeFrame_spec h pageSize)
    rintro r s1 ⟨hsame,hr⟩
    cases r with
    | none => exact ⟨hsame,hr⟩
    | some f =>
      obtain ⟨hsize,hok⟩ := hr
      have hpage : pageFrame f.start = f := by
        have hone : blockSize pageSize = pageSize := by decide
        rw [pageFrame,← hone,← hsize]
      simp only [wp_bind]
      apply wp_weaken (ih hok)
      rintro pages s2 ⟨hsame',hok'⟩
      refine ⟨hsame.trans (hsame'.mono fun g hg => mem_cons_of_mem _ hg),?_⟩
      rw [map_cons,hpage]
      exact hok'.perm perm_middle

end

/-- The frame `g` holds in `m'` what `f` held in `m`. -/
def FrameCopy (m m' : Memory) (f g : Frame) : Prop :=
  g.size = f.size ∧ ∀ i < f.size, m' (g.start + i) = m (f.start + i)

theorem FrameCopy.congr {m' m'' : Memory} (h : FrameCopy m m' f g)
    (hg : ∀ a ∈ g, m'' a = m' a) : FrameCopy m m'' f g := by
  refine ⟨h.1,fun i hi => ?_⟩
  rw [hg _ (by simp only [Block.mem_iff,h.1]; omega)]
  exact h.2 i hi

theorem FrameCopy.of_source {m₁ m' : Memory} (h : FrameCopy m₁ m' f g)
    (hf : ∀ a ∈ f, m₁ a = m a) : FrameCopy m m' f g := by
  refine ⟨h.1,fun i hi => ?_⟩
  rw [← hf _ (by simp only [Block.mem_iff]; omega)]
  exact h.2 i hi

theorem cloneFrame_spec (h : ForkOk s fs) (hf : f ∈ fs) {E : ε → ForkState σ → Prop} :
    wp (ForkState.cloneFrame f : Action ε (ForkState σ) (Option Frame))
      (fun r s' => Untouched s s' fs ∧ match r with
        | none => ForkOk s' fs
        | some g => ForkOk s' (g::fs) ∧ FrameCopy s.mem s'.mem f g) E s := by
  rw [cloneFrame,wp_bind]
  apply wp_weaken (takeFrame_spec h f.size)
  rintro r s1 ⟨hsame,hr⟩
  cases r with
  | none => exact ⟨hsame,hr⟩
  | some g =>
    obtain ⟨hsize,hok⟩ := hr
    have hgf : g.size = f.size := by
      obtain ⟨k,hk,hfk⟩ := (h.shape f hf).order
      rw [hsize,hfk,blockSize_orderSize hk]
    have hne : ∀ f' ∈ fs, g ≠ f' := fun f' hf' he =>
      (nodup_cons.mp hok.nodup).1 (he ▸ hf')
    have hout : ∀ a, a ∉ g → s1.mem.copy f.start g.start f.size a = s1.mem a := by
      intro a ha
      rw [Memory.copy,if_neg]
      rw [← hgf]
      exact ha
    refine ⟨⟨hsame.spaces,?_⟩,?_,hgf,?_⟩
    · intro a ha
      obtain ⟨f',hf',haf⟩ := ha
      have hap := hok.apart mem_cons_self (mem_cons_of_mem _ hf') (hne f' hf')
      exact (hout a fun hag => hap.not_mem hag haf).trans (hsame.mem a ⟨f',hf',haf⟩)
    · exact hok.store fun a ha => hout a fun hag => ha ⟨g,mem_cons_self,hag⟩
    · intro i hi
      have hin : g.start+i ∈ Block.mk g.start f.size := by
        simp only [Block.mem_iff]
        omega
      have hfi : f.start+i ∈ f := by
        simp only [Block.mem_iff]
        omega
      have hcopy : s1.mem.copy f.start g.start f.size (g.start+i) = s1.mem (f.start+i) := by
        rw [Memory.copy,if_pos hin,Nat.add_sub_cancel_left]
      exact hcopy.trans (hsame.mem _ ⟨f,hf,hfi⟩)

structure CopiedFrames (s s' : ForkState σ) (fs src new : List Frame) : Prop where
  untouched : Untouched s s' fs
  ok : ForkOk s' (new ++ fs)
  copied : List.Forall₂ (FrameCopy s.mem s'.mem) src new

theorem CopiedFrames.nil (h : ForkOk s fs) : CopiedFrames s s fs [] [] :=
  ⟨Untouched.refl s fs,h,.nil⟩

theorem CopiedFrames.append {src src' new new' : List Frame} (h : CopiedFrames s s' fs src new)
    (h' : CopiedFrames s' s'' (new++fs) src' new') (hsrc : ∀ f ∈ src', f ∈ fs) :
    CopiedFrames s s'' fs (src++src') (new++new') := by
  have hsub : ∀ f ∈ fs, f ∈ new++fs := fun f hf => mem_append_right _ hf
  refine ⟨h.untouched.trans (h'.untouched.mono hsub),?_,?_⟩
  · apply h'.ok.perm
    rw [← append_assoc]
    exact perm_append_comm.append_right fs
  · apply rel_append
    · have hkeep : ∀ src new, List.Forall₂ (FrameCopy s.mem s'.mem) src new →
          (∀ g ∈ new, ∀ a ∈ g, s''.mem a = s'.mem a) →
          List.Forall₂ (FrameCopy s.mem s''.mem) src new := by
        intro src new hc
        induction hc with
        | nil => exact fun _ => .nil
        | cons hfg _ ih =>
          intro hmem
          exact .cons (hfg.congr (hmem _ mem_cons_self))
            (ih fun g hg => hmem g (mem_cons_of_mem _ hg))
      exact hkeep src new h.copied fun g hg a ha =>
        h'.untouched.mem a ⟨g,mem_append_left _ hg,ha⟩
    · have hfrom : ∀ src' new', List.Forall₂ (FrameCopy s'.mem s''.mem) src' new' →
          (∀ f ∈ src', ∀ a ∈ f, s'.mem a = s.mem a) →
          List.Forall₂ (FrameCopy s.mem s''.mem) src' new' := by
        intro src' new' hc
        induction hc with
        | nil => exact fun _ => .nil
        | cons hfg _ ih =>
          intro hmem
          exact .cons (hfg.of_source (hmem _ mem_cons_self))
            (ih fun f hf => hmem f (mem_cons_of_mem _ hf))
      exact hfrom src' new' h'.copied fun f hf a ha => h.untouched.mem a ⟨f,hsrc f hf,ha⟩

theorem cloneFrames_spec (h : ForkOk s fs) {src done : List Frame} (hsrc : ∀ f ∈ src, f ∈ fs) :
    wp (ForkState.cloneFrames done src)
      (fun r s' => ∃ new, r = done++new ∧ CopiedFrames s s' fs src new) (fun _ _ => True) s := by
  induction src generalizing s fs done with
  | nil => exact ⟨[],by simp,CopiedFrames.nil h⟩
  | cons f src ih =>
    rw [cloneFrames,wp_bind]
    apply wp_weaken (cloneFrame_spec h (hsrc f mem_cons_self))
    rintro r s1 ⟨hsame,hr⟩
    cases r with
    | none =>
      simp only [wp_bind]
      apply wp_mono (giveFrames_total s1 done)
      · exact fun _ _ _ => trivial
      · exact fun _ _ he => he
    | some g =>
      obtain ⟨hok,hcopied⟩ := hr
      have hfirst : CopiedFrames s s1 fs [f] [g] := ⟨hsame,hok,.cons hcopied .nil⟩
      have hsrc' : ∀ f ∈ src, f ∈ fs := fun f hf => hsrc f (mem_cons_of_mem _ hf)
      apply wp_weaken (ih hok fun f hf => mem_cons_of_mem _ (hsrc' f hf))
      rintro r s2 ⟨new,rfl,hrest⟩
      exact ⟨g::new,by simp,hfirst.append hrest hsrc'⟩

theorem cloneBacking_spec (h : ForkOk s fs) {ms : MemorySet}
    {done : List (UserMapping × List Frame)} (hsrc : ∀ f ∈ ms.flatMap UserMapping.frames, f ∈ fs) :
    wp (ForkState.cloneBacking done ms)
      (fun r s' => ∃ new, r = done++new ∧ new.map Prod.fst = ms ∧
        (∀ b ∈ new, b.2.length = b.1.frames.length) ∧
        CopiedFrames s s' fs (ms.flatMap UserMapping.frames) (new.flatMap Prod.snd))
      (fun _ _ => True) s := by
  induction ms generalizing s fs done with
  | nil => exact ⟨[],by simp,rfl,by simp,CopiedFrames.nil h⟩
  | cons m ms ih =>
    have hhead : ∀ f ∈ m.frames, f ∈ fs := fun f hf => hsrc f (mem_append_left _ hf)
    have htail : ∀ f ∈ ms.flatMap UserMapping.frames, f ∈ fs := fun f hf =>
      hsrc f (mem_append_right _ hf)
    rw [cloneBacking,wp_bind,wp_onError]
    apply wp_mono (cloneFrames_spec h hhead)
    · rintro frames s1 ⟨_,rfl,hfirst⟩
      apply wp_weaken (ih hfirst.ok fun f hf => mem_append_right _ (htail f hf))
      rintro r s2 ⟨new,rfl,hms,hlen,hrest⟩
      refine ⟨(m, frames)::new,by simp,by simp [hms],?_,?_⟩
      · intro b hb
        rcases mem_cons.mp hb with rfl | hb
        · exact hfirst.copied.length_eq.symm
        · exact hlen b hb
      · exact hfirst.append hrest htail
    · intro e s1 _
      exact giveFrames_total s1 _

variable {pages : List Nat} {o : Owner}

theorem Keeps.refl (o : Owner) (m : SpaceManager) : Keeps o m m :=
  fun _ _ _ hsp => ⟨hsp,fun _ _ => rfl⟩

theorem Keeps.trans {m m' m'' : SpaceManager} (h : Keeps o m m') (h' : Keeps o m' m'') :
    Keeps o m m'' := by
  intro o' sp hne hsp
  obtain ⟨hsp',hmem⟩ := h o' sp hne hsp
  obtain ⟨hsp'',hmem'⟩ := h' o' sp hne hsp'
  exact ⟨hsp'',fun a ha => (hmem' a ha).trans (hmem a ha)⟩

theorem pageFrame_injective : Function.Injective pageFrame := fun _ _ h => congrArg Block.start h

theorem mem_map_pageFrame {p : Nat} : pageFrame p ∈ pages.map pageFrame ↔ p ∈ pages :=
  mem_map_of_injective pageFrame_injective

section

variable (h : ForkOk s (pages.map pageFrame ++ fs))
include h

theorem ForkOk.takenPages : pages.Nodup ∧ ∀ a ∈ pages, ppn a*pageSize = a ∧ a ∉ s.spaces.live := by
  refine ⟨(nodup_append.mp h.nodup).1.of_map _,fun a ha => ?_⟩
  have hin : pageFrame a ∈ pages.map pageFrame++fs :=
    mem_append_left _ (mem_map_pageFrame.mpr ha)
  refine ⟨?_,fun hlive => h.tables a hlive hin⟩
  have hshape := h.shape _ hin
  have haligned : pageSize ∣ a := hshape.pageShape.start
  have hbound : a+pageSize ≤ physicalLimit := hshape.bounded
  simp only [ppn,physicalLimit,pageSize] at *
  omega

theorem ForkOk.withSpaces {spaces : SpaceManager}
    (hiso : Isolated spaces) (hlive : ∀ a ∈ spaces.live, a ∈ pages ∨ a ∈ s.spaces.live) :
    ForkOk { s with spaces := spaces } fs := by
  obtain ⟨live,howns,hsub,htab⟩ := h.owns
  obtain ⟨_,hnd,hdisj⟩ := nodup_append.mp h.nodup
  refine ⟨hiso,hnd,⟨live,howns,fun f hf => hsub f (mem_append_right _ hf),?_⟩,?_⟩
  · intro a ha
    rcases hlive a ha with hin | hin
    · exact hsub _ (mem_append_left _ (mem_map_pageFrame.mpr hin))
    · exact htab a hin
  · intro a ha hf
    rcases hlive a ha with hin | hin
    · exact hdisj _ (mem_map_pageFrame.mpr hin) _ hf rfl
    · exact h.tables a hin (mem_append_right _ hf)

theorem ForkOk.replaced {spaces : SpaceManager}
    {sp' : Space} (hr : Replaced s.spaces spaces o sp' pages) (hiso : Isolated spaces)
    (hsub : ∀ a ∈ sp'.owned, a ∈ pages) : ForkOk { s with spaces := spaces }
      (((s.spaces.space o).elim [] Space.owned).map pageFrame++fs) := by
  have hok := h.withSpaces hiso fun a ha => hr.live ha
  cases hold : s.spaces.space o with
  | none => simpa using hok
  | some old =>
    obtain ⟨live,howns,hin,htab⟩ := h.owns
    have hlive : ∀ a ∈ old.owned, a ∈ s.spaces.live := fun a ha => SpaceManager.mem_live hold ha
    have hgone : ∀ a ∈ old.owned, a ∉ spaces.live := by
      intro a ha hnew
      obtain ⟨o',sp,hsp,hsin⟩ := SpaceManager.exists_of_mem_live hnew
      rw [hr.space] at hsp
      split at hsp
      next =>
        rw [Option.some.injEq] at hsp
        exact hr.fresh a (hsub a (hsp ▸ hsin)) (hlive a ha)
      next hne => exact h.isolated.apart o' o sp old hne hsp hold a hsin ha
    refine ⟨hiso,?_,⟨live,howns,?_,?_⟩,?_⟩
    · rw [nodup_append]
      refine ⟨((h.isolated.ok o old hold).nodup).map pageFrame_injective,hok.nodup,?_⟩
      rintro f hf g hg rfl
      obtain ⟨a,ha,rfl⟩ := mem_map.mp hf
      exact h.tables a (hlive a ha) (mem_append_right _ hg)
    · intro f hf
      rcases mem_append.mp hf with hf | hf
      · obtain ⟨a,ha,rfl⟩ := mem_map.mp hf
        exact htab a (hlive a ha)
      · exact hin f (mem_append_right _ hf)
    · intro a ha
      rcases hr.live ha with hp | hl
      · exact hin _ (mem_append_left _ (mem_map_pageFrame.mpr hp))
      · exact htab a hl
    · intro a ha hf
      rcases mem_append.mp hf with hf | hf
      · exact hgone a (mem_map_pageFrame.mp hf) ha
      · exact hok.tables a ha hf

end

/-- The leaves that the tables of a space hold. -/
def leaves (m : SpaceManager) (sp : Space) (va : Nat) : Option PageTableEntry :=
  (sp.view m.mem).walk va

/-- What the copy of a page table has to do with its source. -/
structure SpaceCopy (s s' : ForkState σ) (fs : List Frame) (owner tid : Nat) : Prop where
  ok : ForkOk s' fs
  mem : Memory.AgreeOn (InFrames fs) s.mem s'.mem
  keeps : Keeps (.managed (.user tid)) s.spaces s'.spaces
  copy : ∃ sp child remap, s.spaces.space (.managed (.user owner)) = some sp ∧
    s'.spaces.space (.managed (.user tid)) = some child ∧
    ∀ va, leaves s'.spaces child va = (leaves s.spaces sp va).map (remapEntry remap)

theorem cloneSpace_spec (h : ForkOk s fs) (owner tid : Nat) :
    wp (ForkState.cloneSpace owner tid) (fun _ s' => SpaceCopy s s' fs owner tid)
      (fun _ _ => True) s := by
  simp only [cloneSpace,wp_bind]
  apply wp_weaken (takePages_spec h _)
  rintro pages s1 ⟨hsame,hok⟩
  obtain ⟨hnd,hpages⟩ := hok.takenPages
  rw [← hsame.spaces]
  obtain ⟨⟨hiso,_⟩,hcopy⟩ := clone_isolated hok.isolated (.user owner) tid hnd hpages
  cases hr : s1.spaces.clone (.user owner) tid pages with
  | mk r spaces =>
    rw [hr] at hiso hcopy
    cases r with
    | error e =>
      simp only [wp_bind]
      apply wp_forEach (I := fun _ _ => True) _ trivial
      intro p _ s' _
      cases hd : FrameAllocator.deallocFrame s'.alloc s'.mem p pageSize
      simp only [wp,giveFrame]
    | ok u =>
      obtain ⟨sp,child,remap,hsp,hchild,hcloned,hsub,hrep⟩ := hcopy rfl
      have hfresh := hok.isolated.freshPool hnd hpages hsp
      apply wp_weaken (givePages_spec (hok.replaced hrep hiso hsub))
      rintro _ s2 ⟨hsame2,hok2⟩
      refine ⟨hok2,hsame.mem.trans hsame2.mem,?_,sp,child,remap,?_,?_,?_⟩
      · rw [hsame2.spaces,← hsame.spaces]
        exact hrep.keeps hok.isolated
      · rw [← hsame.spaces]
        exact hsp
      · rw [hsame2.spaces]
        exact hchild
      · intro va
        rw [hsame2.spaces,← hsame.spaces]
        exact hcloned.walk_eq (hok.isolated.ok _ sp hsp) hfresh hsub va

def overlay (w : Nat → Option PageTableEntry) (page : Nat × Nat × PageFlags) :
    Nat → Option PageTableEntry := fun va =>
  if vpn page.1 = vpn va then some ⟨true,page.2.2,ppn page.2.1⟩ else w va

/-- The space of the task holds these leaves, and nothing else has changed. -/
structure Repointed (s s' : ForkState σ) (fs : List Frame) (tid : Nat)
    (w : Nat → Option PageTableEntry) : Prop where
  ok : ForkOk s' fs
  mem : Memory.AgreeOn (InFrames fs) s.mem s'.mem
  keeps : Keeps (.managed (.user tid)) s.spaces s'.spaces
  leaves : ∃ sp, s'.spaces.space (.managed (.user tid)) = some sp ∧
    ∀ va, leaves s'.spaces sp va = w va

variable {tid : Nat} {w : Nat → Option PageTableEntry}

theorem Repointed.trans {w' : Nat → Option PageTableEntry} (h : Repointed s s' fs tid w)
    (h' : Repointed s' s'' fs tid w') : Repointed s s'' fs tid w' :=
  ⟨h'.ok,h.mem.trans h'.mem,h.keeps.trans h'.keeps,h'.leaves⟩

theorem forkMap_spec (h : Repointed s s' fs tid w) (page : Nat × Nat × PageFlags) :
    wp (ForkState.userMap tid page.1 page.2.1 page.2.2)
      (fun _ s'' => Repointed s s'' fs tid (overlay w page))
      (fun _ s'' => Keeps (.managed (.user tid)) s.spaces s''.spaces) s' := by
  obtain ⟨sp,hsp,hw⟩ := h.leaves
  have hget : s'.spaces.user.get? tid = some sp := hsp
  simp only [ForkState.userMap,wp_bind,wp_get,wp_orThrow,hget]
  refine ⟨?_,fun hnone => by cases hnone⟩
  intro sp0 he
  obtain rfl := Option.some.inj he
  apply wp_weaken (takePages_spec h.ok _)
  rintro pages s1 ⟨hsame,hok⟩
  obtain ⟨hnd,hpages⟩ := hok.takenPages
  have hsp1 : s1.spaces.space (.managed (.user tid)) = some sp := by rw [hsame.spaces,hsp]
  have hmap := space_map_spec (hok.isolated.inv hnd hpages hsp1) page.1 page.2.1 page.2.2
  rw [← hsame.spaces]
  cases hr : SpaceState.map page.1 page.2.1 page.2.2 ⟨s1.spaces.mem,sp,pages⟩ with
  | panic =>
    rw [wp,hr] at hmap
    exact hmap.elim
  | err e t =>
    obtain ⟨_,hgrown,_⟩ := wp_of_err hmap hr
    have hrep := hgrown.replaced hsp1 (fun a ha => (hpages a ha).2)
      (space_setUser s1.spaces tid t) rfl
    have hkeeps := hrep.keeps hok.isolated
    rw [hsame.spaces] at hkeeps ⊢
    exact h.keeps.trans hkeeps
  | ok u t =>
    obtain ⟨hinv,hgrown,hentries⟩ := wp_of_ok hmap hr
    have hrep := hgrown.replaced hsp1 (fun a ha => (hpages a ha).2)
      (space_setUser s1.spaces tid t) rfl
    obtain ⟨hiso,_⟩ := hok.isolated.replace hrep hinv.ok
    refine h.trans ⟨hok.withSpaces hiso fun a ha => hrep.live ha,hsame.mem,?_,t.space,?_,?_⟩
    · rw [← hsame.spaces]
      exact hrep.keeps hok.isolated
    · rw [space_setUser,if_pos rfl]
    · intro va
      have hold : (sp.view s1.spaces.mem).entryAt (vpn2 va) (vpn1 va) (vpn0 va) = w va := by
        rw [hsame.spaces,← hw va]
        rfl
      have hiff : (vpn page.1 = vpn va) =
          (vpn2 va = vpn2 page.1 ∧ vpn1 va = vpn1 page.1 ∧ vpn0 va = vpn0 page.1) :=
        propext (eq_comm.trans vpn_eq_iff.symm)
      change (t.space.view t.mem).entryAt (vpn2 va) (vpn1 va) (vpn0 va) = _
      simp only [hentries,overlay,hold,hiff]

theorem repoint_spec (backing : List (UserMapping × List Frame)) (h : Repointed s s' fs tid w) :
    wp (ForkState.repoint tid backing)
      (fun _ s'' => Repointed s s'' fs tid
        ((backing.flatMap fun b => ForkState.mappedPages b.1 b.2).foldl overlay w))
      (fun _ _ => True) s' := by
  have hpages : ∀ (pages : List (Nat × Nat × PageFlags)) (s' : ForkState σ)
      (w : Nat → Option PageTableEntry), Repointed s s' fs tid w →
      wp (forEach (fun page => ForkState.userMap tid page.1 page.2.1 page.2.2) pages)
        (fun _ s'' => Repointed s s'' fs tid (pages.foldl overlay w)) (fun _ _ => True) s' := by
    intro pages
    induction pages with
    | nil => exact fun _ _ h => h
    | cons page pages ih =>
      intro s' w h
      change wp (ForkState.userMap tid page.1 page.2.1 page.2.2 >>= fun _ => forEach _ pages) _ _ s'
      rw [wp_bind]
      exact wp_mono (forkMap_spec h page) (fun _ s'' h'' => ih s'' _ h'') fun _ _ _ => trivial
  induction backing generalizing s' w with
  | nil => exact h
  | cons b backing ih =>
    change wp (forEach _ (mappedPages b.1 b.2) >>= fun _ => forEach _ backing) _ _ s'
    rw [wp_bind,flatMap_cons,foldl_append]
    exact wp_mono (hpages _ s' w h) (fun _ s'' h'' => ih h'') fun _ _ he => he

theorem leaves_root (m : SpaceManager) (root va : Nat) : leaves m ⟨root,[]⟩ va = none := by
  rw [leaves,AddressSpace.walk,AddressSpace.entryAt,view_lastTable_none]
  simp

theorem createSpace_spec (h : ForkOk s fs) (tid : Nat) :
    wp (ForkState.createSpace tid) (fun _ s' => Repointed s s' fs tid fun _ => none)
      (fun _ s' => Keeps (.managed (.user tid)) s.spaces s'.spaces) s := by
  simp only [createSpace,wp_bind,wp_get]
  apply wp_weaken (takeFrame_spec h pageSize)
  rintro r s1 ⟨hsame,hr⟩
  cases r with
  | none =>
    rw [wp_throw,hsame.spaces]
    exact Keeps.refl _ _
  | some f =>
    obtain ⟨hsize,hok⟩ := hr
    have hpage : f = pageFrame f.start := by
      have hone : blockSize pageSize = pageSize := by decide
      rw [pageFrame,← hone,← hsize]
    rw [hpage] at hok
    have hok1 : ForkOk s1 ([f.start].map pageFrame++fs) := hok
    obtain ⟨_,hpages⟩ := hok1.takenPages
    obtain ⟨hrep,hspace⟩ := createUser_replaced hok.isolated tid f.start []
      (hpages f.start mem_cons_self).2
    obtain ⟨hiso,_⟩ := hok.isolated.replace hrep hspace
    rw [← hsame.spaces]
    apply wp_weaken (givePages_spec (hok1.replaced hrep hiso fun a ha => ha))
    rintro _ s2 ⟨hsame2,hok2⟩
    refine ⟨hok2,hsame.mem.trans hsame2.mem,?_,⟨f.start,[]⟩,?_,fun va => leaves_root _ f.start va⟩
    · rw [hsame2.spaces,← hsame.spaces]
      exact hrep.keeps hok.isolated
    · rw [hsame2.spaces]
      exact (hrep.space _).trans (if_pos rfl)

end Athera
