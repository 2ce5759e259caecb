import Mathlib.Data.List.Perm.Basic
import Athera.Mm.MemoryMap

/-!
# Custody of frames

`Custody s fs` says that the frames `fs` are outstanding at the allocator and belong to the task,
apart from the frames of its page tables.
-/

namespace Athera

open Framework Action LawfulFrameAllocator List Option Function AddressSpace

variable {σ : Type} {ε : Type}

def InFrames (fs : List Frame) (a : Nat) : Prop := ∃ f ∈ fs, a ∈ f

section

variable {fs gs : List Frame} {live : Set Frame} {a : Nat}

theorem InFrames.mono (hsub : fs ⊆ gs) (ha : InFrames fs a) : InFrames gs a := by
  obtain ⟨f,hf,ha⟩ := ha
  exact ⟨f,hsub hf,ha⟩

theorem InFrames.covered (hsub : ∀ f ∈ fs, f ∈ live) (ha : InFrames fs a) : Covered live a := by
  obtain ⟨f,hf,ha⟩ := ha
  exact ⟨f,hsub f hf,ha⟩

end

namespace AddressSpace

/-- There is a table, owned or linked from the root, at the address. -/
def Uses (sp : AddressSpace) (addr : Nat) : Prop :=
  (sp.tables addr).isSome = true ∨ ∃ i, (sp.root i).v = true ∧ (sp.root i).addr = addr

end AddressSpace

/-- The same mappings, and the bytes of the frames `fs` as they were. -/
structure Kept (s s' : TaskMemory σ) (fs : List Frame) : Prop where
  known : s'.known = s.known
  mappings : s'.mappings = s.mappings
  bytes : Memory.AgreeOn (InFrames fs) s.mem s'.mem

structure Same (s s' : TaskMemory σ) (fs : List Frame) : Prop extends Kept s s' fs where
  space : s'.space = s.space

variable {s s' s'' : TaskMemory σ} {fs gs : List Frame}

theorem Kept.refl (s : TaskMemory σ) (fs : List Frame) : Kept s s fs :=
  ⟨rfl,rfl,Memory.AgreeOn.refl _ _⟩

theorem Kept.trans (h : Kept s s' fs) (h' : Kept s' s'' fs) : Kept s s'' fs :=
  ⟨h'.known.trans h.known,h'.mappings.trans h.mappings,h.bytes.trans h'.bytes⟩

theorem Kept.mono (h : Kept s s' fs) (hsub : gs ⊆ fs) : Kept s s' gs :=
  ⟨h.known,h.mappings,h.bytes.mono fun _ => .mono hsub⟩

theorem Kept.withSpace (h : Kept s s' fs) (space : Option AddressSpace) :
    Kept s { s' with space := space } fs :=
  ⟨h.known,h.mappings,h.bytes⟩

theorem Same.refl (s : TaskMemory σ) (fs : List Frame) : Same s s fs := ⟨Kept.refl s fs,rfl⟩

theorem Same.trans (h : Same s s' fs) (h' : Same s' s'' fs) : Same s s'' fs :=
  ⟨h.toKept.trans h'.toKept,h'.space.trans h.space⟩

theorem Same.mono (h : Same s s' fs) (hsub : gs ⊆ fs) : Same s s' gs :=
  ⟨h.toKept.mono hsub,h.space⟩

/-- The virtual page number, on which alone a walk depends. -/
def vpn (va : Nat) : Nat := va / 2 ^ 12 % 2 ^ 27

theorem vpn_eq_iff {va va' : Nat} :
    (vpn2 va' = vpn2 va ∧ vpn1 va' = vpn1 va ∧ vpn0 va' = vpn0 va) ↔ vpn va' = vpn va := by
  simp only [vpn2,vpn1,vpn0,vpn]
  omega

def TaskMemory.walk (s : TaskMemory σ) (va : Nat) : Option PageTableEntry :=
  s.space.bind fun sp => sp.walk va

/-- The table of the last level that a walk for `va` ends in exists. -/
def TaskMemory.HasTable (s : TaskMemory σ) (va : Nat) : Prop :=
  ∃ sp, s.space = some sp ∧ (sp.lastTable (vpn2 va) (vpn1 va)).isSome = true

theorem Same.hasTable (h : Same s s' fs) {va : Nat} (ht : s.HasTable va) : s'.HasTable va := by
  obtain ⟨sp,hsp,hl⟩ := ht
  exact ⟨sp,h.space.trans hsp,hl⟩

theorem Same.walk (h : Same s s' fs) (va : Nat) : s'.walk va = s.walk va := by
  rw [TaskMemory.walk,TaskMemory.walk,h.space]

private theorem walk_of_entryAt {sp sp' : AddressSpace} (hsp : s.space = some sp)
    (hsp' : s'.space = some sp') (h : ∀ i j k, sp'.entryAt i j k = sp.entryAt i j k) (va : Nat) :
    s'.walk va = s.walk va := by
  rw [TaskMemory.walk,TaskMemory.walk,hsp,hsp']
  exact h _ _ _

variable [LawfulFrameAllocator σ]

structure Custody (s : TaskMemory σ) (fs : List Frame) : Prop where
  nodup : fs.Nodup
  owned : ∃ live, Owns s.alloc s.mem live ∧ (∀ f ∈ fs, f ∈ live) ∧
    ∀ sp, s.space = some sp → ∀ a, sp.Uses a → ⟨a,pageSize⟩ ∈ live ∧ ⟨a,pageSize⟩ ∉ fs
  tree : ∀ sp, s.space = some sp → ∃ place, sp.Tree place

variable {a : Nat}

namespace Custody

theorem perm (h : Custody s fs) (hp : fs.Perm gs) : Custody s gs := by
  obtain ⟨hnd,⟨live,howns,hsub,htab⟩,htree⟩ := h
  refine ⟨hp.nodup_iff.mp hnd,⟨live,howns,fun f hf => hsub f (hp.mem_iff.mpr hf),?_⟩,htree⟩
  intro sp hsp a ha
  exact ⟨(htab sp hsp a ha).1,fun hm => (htab sp hsp a ha).2 (hp.mem_iff.mpr hm)⟩

theorem congr (h : Custody s fs) (ha : s'.alloc = s.alloc) (hm : s'.mem = s.mem)
    (hsp : s'.space = s.space) : Custody s' fs := by
  obtain ⟨hnd,hown,htree⟩ := h
  rw [← ha,← hm,← hsp] at hown
  rw [← hsp] at htree
  exact ⟨hnd,hown,htree⟩

theorem shape (h : Custody s fs) : ∀ f ∈ fs, FrameShape f := by
  obtain ⟨live,howns,hsub,_⟩ := h.owned
  exact fun f hf => LawfulFrameAllocator.shape howns f (hsub f hf)

theorem apart (h : Custody s fs) : fs.Pairwise Block.Apart := by
  obtain ⟨live,howns,hsub,_⟩ := h.owned
  refine h.nodup.imp_of_mem ?_
  intro f g hf hg hne
  exact LawfulFrameAllocator.apart howns (hsub f hf) (hsub g hg) hne

theorem disjoint (h : Custody s (fs++gs)) (ha : InFrames fs a) : ¬ InFrames gs a := by
  obtain ⟨f,hf,haf⟩ := ha
  rintro ⟨g,hg,hag⟩
  exact ((pairwise_append.mp h.apart).2.2 f hf g hg).not_mem haf hag

theorem store (h : Custody s fs) {m : Memory} (hout : ∀ a, ¬ InFrames fs a → m a = s.mem a) :
    Custody { s with mem := m } fs := by
  obtain ⟨hnd,⟨live,howns,hsub,htab⟩,htree⟩ := h
  refine ⟨hnd,⟨live,LawfulFrameAllocator.store howns ?_,hsub,htab⟩,htree⟩
  intro a ha
  apply hout
  rintro ⟨f,hf,hin⟩
  exact ha ⟨f,hsub f hf,hin⟩

end Custody

section

variable {E : ε → TaskMemory σ → Prop}

theorem allocFrame_spec (h : Custody s fs) (size : Nat) :
    wp (allocFrame size : Action ε (TaskMemory σ) (Option Frame))
      (fun r s' => Same s s' fs ∧ match r with
        | none => Custody s' fs
        | some f => f.size = blockSize size ∧ Custody s' (f::fs) ∧
            ∀ sp, s.space = some sp → ¬ sp.Uses f.start ∨ f.size ≠ pageSize) E s := by
  obtain ⟨hnd,⟨live,howns,hsub,htab⟩,htree⟩ := h
  simp only [wp,allocFrame]
  cases hr : FrameAllocator.allocFrame s.alloc s.mem size with
  | mk start rest =>
    have hin : ∀ a, InFrames fs a → Covered live a := fun _ => InFrames.covered hsub
    cases start with
    | none =>
      obtain ⟨howns',hag⟩ := LawfulFrameAllocator.alloc_none howns hr
      exact ⟨⟨⟨rfl,rfl,hag.mono hin⟩,rfl⟩,hnd,⟨live,howns',hsub,htab⟩,htree⟩
    | some p =>
      obtain ⟨hnew,howns',hag⟩ := LawfulFrameAllocator.alloc_some howns hr
      have hne : ∀ f ∈ live, f ≠ ⟨p,blockSize size⟩ := fun f hf he => hnew (he ▸ hf)
      refine ⟨⟨⟨rfl,rfl,hag.mono hin⟩,rfl⟩,rfl,⟨?_,⟨_,howns',?_,?_⟩,htree⟩,?_⟩
      · exact nodup_cons.mpr ⟨fun hm => hnew (hsub _ hm),hnd⟩
      · intro f hf
        rcases mem_cons.mp hf with rfl | hf
        · exact Set.mem_insert _ _
        · exact Set.mem_insert_of_mem _ (hsub f hf)
      · intro sp hsp a ha
        obtain ⟨hl,hnot⟩ := htab sp hsp a ha
        refine ⟨Set.mem_insert_of_mem _ hl,?_⟩
        intro hm
        rcases mem_cons.mp hm with he | hm
        · exact hne _ hl he
        · exact hnot hm
      · intro sp hsp
        by_cases hu : sp.Uses p
        · right
          intro he
          apply hnew
          have hl := (htab sp hsp p hu).1
          simp only at he
          rwa [he]
        · exact Or.inl hu

theorem dropFrame_spec {f : Frame} (h : Custody s (f::fs)) :
    wp (dropFrame f : Action ε (TaskMemory σ) Unit)
      (fun _ s' => Same s s' fs ∧ Custody s' fs) E s := by
  obtain ⟨hnd,⟨live,howns,hsub,htab⟩,htree⟩ := h
  obtain ⟨hf,hnd⟩ := nodup_cons.mp hnd
  simp only [wp,dropFrame]
  cases hr : FrameAllocator.deallocFrame s.alloc s.mem f.start f.size with
  | mk alloc mem =>
    obtain ⟨howns',hag⟩ := LawfulFrameAllocator.dealloc howns (hsub f mem_cons_self) hr
    have hsub' : ∀ g ∈ fs, g ∈ live \ {f} := by
      intro g hg
      refine ⟨hsub g (mem_cons_of_mem _ hg),?_⟩
      rintro rfl
      exact hf hg
    refine ⟨⟨⟨rfl,rfl,hag.mono fun _ => InFrames.covered hsub'⟩,rfl⟩,hnd,
      ⟨_,howns',hsub',?_⟩,htree⟩
    intro sp hsp a ha
    obtain ⟨hl,hnot⟩ := htab sp hsp a ha
    refine ⟨⟨hl,?_⟩,fun hm => hnot (mem_cons_of_mem _ hm)⟩
    intro he
    exact hnot (he ▸ mem_cons_self)

theorem dropFrames_spec (h : Custody s (gs++fs)) : wp (dropFrames gs : Action ε (TaskMemory σ) Unit)
      (fun _ s' => Same s s' fs ∧ Custody s' fs) E s := by
  apply wp_forEach (I := fun rest s' => Same s s' fs ∧ Custody s' (rest++fs))
  · rintro g rest s' ⟨hsame,hc⟩
    apply wp_weaken (dropFrame_spec hc)
    rintro _ s'' ⟨hsame',hc'⟩
    exact ⟨hsame.trans (hsame'.mono (subset_append_right ..)),hc'⟩
  · exact ⟨Same.refl s fs,h⟩

theorem allocFramesLoop_spec {fuel remaining : Nat} {frames : List Frame}
    (h : Custody s (frames++fs)) :
    wp (allocFramesLoop fuel remaining frames : Action ε (TaskMemory σ) (Option (List Frame)))
      (fun r s' => Same s s' fs ∧ match r with
        | none => Custody s' fs
        | some gs => (∃ new, gs = frames++new ∧
            new.map Block.size = segmentSizes fuel remaining) ∧ Custody s' (gs++fs)) E s := by
  induction fuel generalizing remaining frames s with
  | zero => exact ⟨Same.refl s fs,⟨[],by simp [segmentSizes]⟩,h⟩
  | succ fuel ih =>
    rw [allocFramesLoop,segmentSizes]
    by_cases hr : remaining = 0
    · rw [if_pos hr,if_pos hr]
      exact ⟨Same.refl s fs,⟨[],by simp⟩,h⟩
    · rw [if_neg hr,if_neg hr,wp_bind]
      apply wp_weaken (allocFrame_spec h remaining)
      rintro r s' ⟨hsame,hr'⟩
      have hsame' : Same s s' fs := hsame.mono fun f hf => mem_append_right _ hf
      cases r with
      | none =>
        simp only [wp_bind]
        apply wp_weaken (dropFrames_spec hr')
        rintro _ s'' ⟨hdrop,hc⟩
        exact ⟨hsame'.trans hdrop,hc⟩
      | some f =>
        obtain ⟨hsize,hc,_⟩ := hr'
        have hperm : (f::(frames++fs)).Perm ((frames ++ [f])++fs) := by
          rw [append_assoc]
          exact perm_middle.symm
        apply wp_weaken (ih (hc.perm hperm))
        rintro r s'' ⟨hloop,hres⟩
        refine ⟨hsame'.trans hloop,?_⟩
        cases r with
        | none => exact hres
        | some gs =>
          obtain ⟨⟨new,rfl,hnew⟩,hc'⟩ := hres
          refine ⟨⟨f::new,by simp,?_⟩,hc'⟩
          rw [map_cons,hnew,hsize]

theorem allocFrames_spec (h : Custody s fs) (size : Nat) :
    wp (allocFrames size : Action ε (TaskMemory σ) (Option (List Frame)))
      (fun r s' => Same s s' fs ∧ match r with
        | none => Custody s' fs
        | some gs => gs.map Block.size = segmentSizes size size ∧ Custody s' (gs++fs)) E s := by
  have hnil : Custody s ([] ++ fs) := h
  apply wp_weaken (allocFramesLoop_spec hnil)
  rintro r s' ⟨hsame,hres⟩
  refine ⟨hsame,?_⟩
  cases r with
  | none => exact hres
  | some gs =>
    obtain ⟨⟨new,rfl,hnew⟩,hc⟩ := hres
    exact ⟨hnew,hc⟩

theorem zeroFrames_spec (h : Custody s (gs++fs)) : wp (zeroFrames gs : Action ε (TaskMemory σ) Unit)
      (fun _ s' => Same s s' fs ∧ Custody s' (gs++fs) ∧ ∀ a, InFrames gs a → s'.mem a = 0)
      E s := by
  refine wp_weaken (wp_forEach (I := fun rest s' => (∀ f ∈ rest, f ∈ gs) ∧ Same s s' fs ∧
    Custody s' (gs++fs) ∧ ∀ a, InFrames gs a → ¬ InFrames rest a → s'.mem a = 0) ?_ ?_) ?_
  · rintro f rest s' ⟨hsub,hsame,hc,hzero⟩
    have hf : f ∈ gs := hsub f mem_cons_self
    have hout : ∀ a, a ∉ f → s'.mem.fill f.start 0 f.size a = s'.mem a := fun a ha =>
      Memory.fill_outside _ _ _ _ ha
    refine ⟨fun g hg => hsub g (mem_cons_of_mem _ hg),hsame.trans ⟨⟨rfl,rfl,?_⟩,rfl⟩,
      hc.store ?_,?_⟩
    · intro a ha
      exact hout a fun haf => hc.disjoint ⟨f,hf,haf⟩ ha
    · intro a ha
      exact hout a fun haf => ha ⟨f,mem_append_left _ hf,haf⟩
    · intro a ha hrest
      by_cases haf : a ∈ f
      · exact Memory.fill_inside _ _ _ _ haf
      · refine (hout a haf).trans (hzero a ha ?_)
        rintro ⟨g,hg,hag⟩
        rcases mem_cons.mp hg with rfl | hg
        · exact haf hag
        · exact hrest ⟨g,hg,hag⟩
  · exact ⟨fun f hf => hf,Same.refl s fs,h,fun a ha hn => absurd ha hn⟩
  · rintro _ s' ⟨_,hsame,hc,hzero⟩
    exact ⟨hsame,hc,fun a ha => hzero a ha (by rintro ⟨g,hg,_⟩; simp at hg)⟩

end

/-- A step after which custody and bytes of `fs`, and the tables, are still there. -/
structure Steady (s s' : TaskMemory σ) (fs : List Frame) : Prop where
  custody : Custody s' fs
  kept : Kept s s' fs
  tables : ∀ va, s.HasTable va → s'.HasTable va

theorem Steady.refl (h : Custody s fs) : Steady s s fs := ⟨h,Kept.refl s fs,fun _ ht => ht⟩

theorem Steady.trans (h : Steady s s' fs) (h' : Steady s' s'' fs) : Steady s s'' fs :=
  ⟨h'.custody,h.kept.trans h'.kept,fun va ht => h'.tables va (h.tables va ht)⟩

theorem Same.steady (h : Same s s' fs) (hc : Custody s' fs) : Steady s s' fs :=
  ⟨hc,h.toKept,fun _ => h.hasTable⟩

variable {sp : AddressSpace}

theorem createTable_spec (h : Custody s fs) (hsp : s.space = some sp) :
    wp (createTable : Action MemError (TaskMemory σ) Nat)
      (fun a s' => Same s s' fs ∧ Custody s' (⟨a,pageSize⟩ :: fs) ∧ sp.Unlinked a)
      (fun _ s' => Same s s' fs ∧ Custody s' fs) s := by
  unfold createTable
  simp only [wp_bind,wp_orThrow]
  apply wp_weaken (allocFrame_spec h pageSize)
  rintro r s' ⟨hsame,hr⟩
  refine ⟨?_,?_⟩
  · rintro f rfl
    obtain ⟨hsize,hc,hfresh⟩ := hr
    have hpage : f.size = pageSize := hsize.trans (by decide)
    obtain ⟨start,size⟩ := f
    simp only at hpage
    subst size
    have hshape := hc.shape _ mem_cons_self
    have hnot : ¬ sp.Uses start := (hfresh sp hsp).resolve_right (by simp)
    refine ⟨hsame,hc,?_,?_,?_⟩
    · cases ht : sp.tables start with
      | none => rfl
      | some t => exact absurd (Or.inl (by simp [ht])) hnot
    · intro i hv he
      exact hnot (Or.inr ⟨i,hv,he⟩)
    · have hal := hshape.aligned
      have hb := hshape.bounded
      simp only [ppn,pageSize,physicalLimit] at hal hb ⊢
      omega
  · rintro rfl
    exact ⟨hsame,hr⟩

variable {i : Nat}

theorem Custody.addTable {sp' : AddressSpace} {place : Nat → Place}
    (h : Custody s (⟨a,pageSize⟩ :: fs)) (hsp : s.space = some sp)
    (huse : ∀ b, sp'.Uses b → b ≠ a → sp.Uses b) (htree : sp'.Tree place) :
    Custody { s with space := some sp' } fs := by
  obtain ⟨hnd,⟨live,howns,hsub,htab⟩,_⟩ := h
  obtain ⟨hnew,hnd⟩ := nodup_cons.mp hnd
  refine ⟨hnd,⟨live,howns,fun f hf => hsub f (mem_cons_of_mem _ hf),?_⟩,?_⟩
  · rintro _ ⟨rfl⟩ b hb
    by_cases hba : b = a
    · subst b
      exact ⟨hsub _ mem_cons_self,hnew⟩
    · obtain ⟨hl,hnot⟩ := htab sp hsp b (huse b hb hba)
      exact ⟨hl,fun hm => hnot (mem_cons_of_mem _ hm)⟩
  · rintro _ ⟨rfl⟩
    exact ⟨place,htree⟩

theorem Custody.linkRoot (h : Custody s (⟨a,pageSize⟩ :: fs))
    (hsp : s.space = some sp) (hu : sp.Unlinked a) :
    Custody { s with space := some (sp.linkRoot i a) } fs := by
  obtain ⟨place,hpl⟩ := h.tree sp hsp
  refine h.addTable hsp ?_ (AddressSpace.tree_linkRoot hpl hu)
  rintro b (ht | ⟨i',hv,he⟩) hba
  · left
    simpa only [AddressSpace.linkRoot,update_of_ne hba] using ht
  · right
    by_cases hi : i' = i
    · subst i'
      simp only [AddressSpace.linkRoot,update_self,PageTableEntry.addr,hu.whole] at he
      exact absurd he.symm hba
    · simp only [AddressSpace.linkRoot,update_of_ne hi] at hv he
      exact ⟨i',hv,he⟩

theorem Custody.linkTable {j a1 : Nat} {t1 : PageTable}
    (h : Custody s (⟨a,pageSize⟩ :: fs)) (hsp : s.space = some sp) (hu : sp.Unlinked a)
    (h1 : sp.follow (sp.root i) = some (a1, t1)) :
    Custody { s with space := some (sp.linkTable a1 t1 j a) } fs := by
  obtain ⟨place,hpl⟩ := h.tree sp hsp
  refine h.addTable hsp ?_ (tree_linkTable hpl hu h1)
  rintro b (ht | hr) hba
  · by_cases hb1 : b = a1
    · subst b
      obtain ⟨_,_,ht1⟩ := follow_eq_some.mp h1
      exact Or.inl (by simp [ht1])
    · simp only [AddressSpace.linkTable,update_of_ne hba,update_of_ne hb1] at ht
      exact Or.inl ht
  · exact Or.inr hr

theorem Custody.setEntry {j k a0 : Nat} {t0 : PageTable}
    {e : PageTableEntry} (h : Custody s fs) (hsp : s.space = some sp)
    (hl : sp.lastTable i j = some (a0, t0)) :
    Custody { s with space := some (sp.setEntry a0 t0 k e) } fs := by
  obtain ⟨hnd,⟨live,howns,hsub,htab⟩,htree⟩ := h
  obtain ⟨place,hpl⟩ := htree sp hsp
  obtain ⟨a1,t1,_,h0⟩ := lastTable_eq_some.mp hl
  obtain ⟨_,_,ht0⟩ := follow_eq_some.mp h0
  refine ⟨hnd,⟨live,howns,hsub,?_⟩,?_⟩
  · rintro _ ⟨rfl⟩ b hb
    apply htab sp hsp
    rcases hb with ht | hr
    · left
      by_cases hb0 : b = a0
      · subst b
        simp [ht0]
      · simpa only [AddressSpace.setEntry,update_of_ne hb0] using ht
    · exact Or.inr hr
  · rintro _ ⟨rfl⟩
    exact ⟨place,tree_setEntry hpl hl⟩

theorem ensureLevel1_spec (h : Custody s fs) (i : Nat) :
    wp (ensureLevel1 i : Action MemError (TaskMemory σ) Nat)
      (fun a s' => Steady s s' fs ∧ (∀ va, s'.walk va = s.walk va) ∧
        ∃ sp, s'.space = some sp ∧ (sp.root i).v = true ∧ (sp.root i).addr = a)
      (fun _ s' => Steady s s' fs ∧ (∀ va, s'.walk va = s.walk va) ∧
        ∀ sp, s.space = some sp → (sp.root i).v = false) s := by
  unfold ensureLevel1 getSpace
  simp only [wp_bind,wp_orThrow]
  refine ⟨?_,?_⟩
  · intro sp hsp
    by_cases hv : (sp.root i).v = true
    · simp only [hv]
      exact ⟨Steady.refl h,by simp,sp,hsp,hv,rfl⟩
    · simp only [hv,if_false,wp_bind,Bool.false_eq_true]
      have hv' : (sp.root i).v = false := by simpa using hv
      apply wp_mono (createTable_spec h hsp)
      · rintro a s' ⟨hsame,hc,hu⟩
        have hsp' : s'.space = some sp := hsame.space.trans hsp
        obtain ⟨place,hpl⟩ := h.tree sp hsp
        have hent := entryAt_linkRoot hpl hu hv'
        have hlink := hc.linkRoot (i := i) hsp' hu
        simp only [setSpace,dropReplaced,hu.free]
        refine ⟨⟨hlink,hsame.toKept.withSpace _,?_⟩,?_,_,rfl,?_,rfl⟩
        · rintro va ⟨sp0,hsp0,hl⟩
          obtain rfl : sp = sp0 := some.inj (hsp.symm.trans hsp0)
          refine ⟨_,rfl,?_⟩
          rw [lastTable_linkRoot hpl hu hv']
          exact hl
        · exact fun va => walk_of_entryAt hsp rfl hent va
        · simp [linkRoot]
      · rintro e s' ⟨hsame,hc⟩
        refine ⟨hsame.steady hc,hsame.walk,?_⟩
        intro sp0 hsp0
        obtain rfl : sp = sp0 := some.inj (hsp.symm.trans hsp0)
        exact hv'
  · intro hnone
    refine ⟨Steady.refl h,by simp,?_⟩
    intro sp hsp
    rw [hnone] at hsp
    exact absurd hsp (by simp)

theorem ensureLevel0_spec (h : Custody s fs)
    (hsp : s.space = some sp) (hv : (sp.root i).v = true) (j : Nat) :
    wp (ensureLevel0 (sp.root i).addr j : Action MemError (TaskMemory σ) Nat)
      (fun a s' => Steady s s' fs ∧ (∀ va, s'.walk va = s.walk va) ∧
        ∃ sp' t, s'.space = some sp' ∧ sp'.lastTable i j = some (a, t))
      (fun _ s' => Steady s s' fs ∧ (∀ va, s'.walk va = s.walk va) ∧
        sp.lastTable i j = none) s := by
  unfold ensureLevel0 getSpace
  simp only [wp_bind,wp_orThrow]
  refine ⟨?_,fun hnone => absurd (hsp.symm.trans hnone) (by simp)⟩
  intro sp0 hsp0
  obtain rfl : sp = sp0 := some.inj (hsp.symm.trans hsp0)
  refine ⟨?_,?_⟩
  · intro t1 ht1
    have h1 : sp.follow (sp.root i) = some ((sp.root i).addr, t1) :=
      follow_eq_some.mpr ⟨hv,rfl,ht1⟩
    obtain ⟨place,hpl⟩ := h.tree sp hsp
    by_cases hv1 : (t1 j).v = true
    · simp only [hv1]
      obtain ⟨t0,ht0⟩ := isSome_iff_exists.mp (hpl.level0 i _ t1 h1 j hv1).1
      refine ⟨Steady.refl h,by simp,sp,t0,hsp,?_⟩
      exact lastTable_eq_some.mpr
        ⟨_,t1,h1,follow_eq_some.mpr ⟨hv1,rfl,ht0⟩⟩
    · simp only [hv1,if_false,wp_bind,Bool.false_eq_true]
      have hv1' : (t1 j).v = false := by simpa using hv1
      have hlast : sp.lastTable i j = none := by
        unfold lastTable
        rw [h1]
        simp [follow,hv1']
      apply wp_mono (createTable_spec h hsp)
      · rintro a s' ⟨hsame,hc,hu⟩
        have hsp' : s'.space = some sp := hsame.space.trans hsp
        have hent := entryAt_linkTable hpl hu h1 hv1'
        have hlink := hc.linkTable (j := j) hsp' hu h1
        have hne : (sp.root i).addr ≠ a := hu.root i hv
        have hget : (sp.linkTable (sp.root i).addr t1 j a).tables (sp.root i).addr =
            some (Function.update t1 j { t1 j with v := true, ppn := ppn a }) := by
          simp only [linkTable,update_of_ne hne,update_self]
        simp only [setSpace,dropReplaced,hu.free,hget]
        have hlt := lastTable_linkTable (j := j) hpl hu h1
        refine ⟨⟨hlink,hsame.toKept.withSpace _,?_⟩,?_,_,.empty,rfl,?_⟩
        · rintro va ⟨sp0,hsp0,hl⟩
          obtain rfl : sp = sp0 := some.inj (hsp.symm.trans hsp0)
          refine ⟨_,rfl,?_⟩
          rw [hlt]
          split
          · rfl
          · exact hl
        · exact fun va => walk_of_entryAt hsp rfl hent va
        · rw [hlt,if_pos ⟨rfl,rfl⟩]
          simp only [update_self,PageTableEntry.addr,hu.whole]
      · rintro e s' ⟨hsame,hc⟩
        exact ⟨hsame.steady hc,hsame.walk,hlast⟩
  · intro hnone
    refine ⟨Steady.refl h,by simp,?_⟩
    simp [lastTable,follow,hnone]

/-- Mapping a page sets its walk and no other; it can fail only where a table is missing, and
then no walk changes. -/
theorem userMap_spec (h : Custody s fs) (va pa : Nat) (flags : PageFlags) :
    wp (userMap va pa flags : Action MemError (TaskMemory σ) Unit)
      (fun _ s' => Steady s s' fs ∧ s'.HasTable va ∧ ∀ va', s'.walk va' =
          if vpn va' = vpn va then some ⟨true,flags,ppn pa⟩ else s.walk va')
      (fun _ s' => Steady s s' fs ∧ (∀ va', s'.walk va' = s.walk va') ∧ ¬ s.HasTable va) s := by
  unfold userMap
  rw [wp_bind]
  apply wp_mono (ensureLevel1_spec h (vpn2 va))
  · rintro a1 s1 ⟨hst1,hw1,sp1,hsp1,hv1,rfl⟩
    rw [wp_bind]
    apply wp_mono (ensureLevel0_spec hst1.custody hsp1 hv1 (vpn1 va))
    · rintro a0 s0 ⟨hst0,hw0,sp0,t0,hsp0,hl0⟩
      obtain ⟨_,_,_,h0⟩ := lastTable_eq_some.mp hl0
      obtain ⟨_,_,ht0⟩ := follow_eq_some.mp h0
      obtain ⟨place,hpl⟩ := hst0.custody.tree sp0 hsp0
      simp only [getSpace,wp_bind,wp_get,wp_orThrow,hsp0,some.injEq,forall_eq',ht0,
        reduceCtorEq,false_implies,and_true]
      have hst := hst1.trans hst0
      refine ⟨⟨hst0.custody.setEntry hsp0 hl0,hst.kept.withSpace _,?_⟩,?_,?_⟩
      · intro va' ht
        obtain ⟨sp,hsp,hl⟩ := hst.tables va' ht
        obtain rfl : sp0 = sp := some.inj (hsp0.symm.trans hsp)
        refine ⟨_,rfl,?_⟩
        rw [lastTable_setEntry hpl hl0]
        split
        · rfl
        · exact hl
      · refine ⟨_,rfl,?_⟩
        rw [lastTable_setEntry hpl hl0,if_pos ⟨rfl,rfl⟩]
        rfl
      · intro va'
        have hold : s.walk va' = sp0.walk va' := by
          rw [← hw1,← hw0,TaskMemory.walk,hsp0,bind_some]
        rw [hold,TaskMemory.walk,bind_some,walk,entryAt_setEntry hpl hl0]
        simp only [vpn_eq_iff]
        rfl
    · rintro e s0 ⟨hst0,hw0,hlast⟩
      refine ⟨hst1.trans hst0,fun va' => (hw0 va').trans (hw1 va'),?_⟩
      intro ht
      obtain ⟨sp,hsp,hl⟩ := hst1.tables va ht
      obtain rfl : sp1 = sp := some.inj (hsp1.symm.trans hsp)
      rw [hlast] at hl
      exact absurd hl (by simp)
  · rintro e s1 ⟨hst1,hw1,hnot⟩
    refine ⟨hst1,hw1,?_⟩
    rintro ⟨sp,hsp,hl⟩
    have hv := hnot sp hsp
    simp [lastTable,follow,hv] at hl

theorem userUnmap_spec {E : ε → TaskMemory σ → Prop} (h : Custody s fs) (va : Nat) :
    wp (userUnmap va : Action ε (TaskMemory σ) Unit)
      (fun _ s' => Steady s s' fs ∧
        ∀ va', s'.walk va' = if vpn va' = vpn va then none else s.walk va') E s := by
  rw [userUnmap,wp_modify]
  cases hsp : s.space with
  | none =>
    refine ⟨(Same.steady ⟨(Kept.refl s fs).withSpace _,hsp.symm⟩ (h.congr rfl rfl hsp.symm)),?_⟩
    simp [TaskMemory.walk,hsp]
  | some sp =>
    obtain ⟨place,hpl⟩ := h.tree sp hsp
    simp only [map_some]
    refine ⟨⟨?_,(Kept.refl s fs).withSpace _,?_⟩,?_⟩
    · unfold unmap
      cases hl : sp.lastTable (vpn2 va) (vpn1 va) with
      | none => exact h.congr rfl rfl hsp.symm
      | some r => exact h.setEntry hsp hl
    · rintro va' ⟨sp0,hsp0,hl0⟩
      obtain rfl : sp = sp0 := some.inj (hsp.symm.trans hsp0)
      refine ⟨_,rfl,?_⟩
      rw [lastTable_unmap_isSome hpl]
      exact hl0
    · intro va'
      simp only [TaskMemory.walk,hsp,bind_some,walk,
        entryAt_unmap hpl,vpn_eq_iff]

end Athera
