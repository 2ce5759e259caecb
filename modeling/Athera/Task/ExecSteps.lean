import Athera.Task.Exec
import Athera.Task.ForkCopy

/-!
# The steps of loading a program

What each part of `load_elf` leaves behind, and which recorded accesses are legal.
-/

namespace Athera

open Framework Action List Memory LoadState

/-- Reads stay in the slice, writes in the new frames, and addresses do not overflow. -/
def Access.Ok (buf : Slice) : Access → Prop
  | .read start len => ∀ i < len, buf.ptr ≤ start + i ∧ start + i < buf.ptr + buf.len
  | .write start len frames => ∀ i < len, InFrames frames (start + i)
  | .sum exact => exact < wordRange
  | .difference a b => b ≤ a

/-- No write goes to a table of another space than the one of the task. -/
def Access.Spares (m : SpaceManager) (tid : Nat) : Access → Prop
  | .write start len _ => ∀ o sp, o ≠ .managed (.user tid) → m.space o = some sp →
    ∀ a ∈ sp.owned, ∀ i < len, start + i ∉ pageFrame a
  | _ => True

section

variable {σ : Type} {α : Type} {s : LoadState σ} {E : LoadError → LoadState σ → Prop} {P : Prop}

@[simp] theorem wpp_onFork {x : ForkAction σ α} {Q : α → LoadState σ → Prop} :
    wpp P (onFork x) Q E s ↔ wpp P x (fun a f => Q a { s with fork := f })
      (fun e f => E (.mem e) { s with fork := f }) s.fork := by
  unfold wpp onFork
  cases x s.fork <;> rfl

@[simp] theorem wp_onFork {x : ForkAction σ α} {Q : α → LoadState σ → Prop} :
    wp (onFork x) Q E s ↔ wp x (fun a f => Q a { s with fork := f })
      (fun e f => E (.mem e) { s with fork := f }) s.fork := by
  unfold wp onFork
  cases x s.fork <;> rfl

variable {Q : Unit → LoadState σ → Prop}

@[simp] theorem wp_add (a b : Nat) {Q : Nat → LoadState σ → Prop} : wp (add a b) Q E s ↔
      Q (wrap (a+b)) { s with log := s.log ++ [.sum (a+b)] } := Iff.rfl

@[simp] theorem wp_sub (a b : Nat) {Q : Nat → LoadState σ → Prop} : wp (sub a b) Q E s ↔
      Q (wrap (a+wordRange-b)) { s with log := s.log ++ [.difference a b] } := Iff.rfl

@[simp] theorem wpp_record (a : Access) :
    wpp P (record a) Q E s ↔ Q () { s with log := s.log ++ [a] } := Iff.rfl

@[simp] theorem wpp_add (a b : Nat) {Q : Nat → LoadState σ → Prop} :
    wpp P (add a b) Q E s ↔
      Q (wrap (a+b)) { s with log := s.log ++ [.sum (a+b)] } := Iff.rfl

@[simp] theorem wpp_memory {Q : Memory → LoadState σ → Prop} :
    wpp P memory Q E s ↔ Q s.fork.mem s := Iff.rfl

@[simp] theorem wpp_setMemory (f : Memory → Memory) :
    wpp P (setMemory f) Q E s ↔
      Q () { s with fork := { s.fork with mem := f s.fork.mem } } := Iff.rfl

@[simp] theorem wp_setMemory (f : Memory → Memory) : wp (setMemory f) Q E s ↔
      Q () { s with fork := { s.fork with mem := f s.fork.mem } } := Iff.rfl

end

section

variable {σ : Type} {s s' s'' : LoadState σ} {buf : Slice} {m0 : SpaceManager} {tid : Nat}
  {frames : List Frame} {fits : Prop}

/-- The step adds only accesses that spare the tables, and under a condition only legal ones. -/
def Logged (buf : Slice) (m0 : SpaceManager) (tid : Nat) (fits : Prop) (s s' : LoadState σ) : Prop :=
  ∀ a ∈ s'.log, a ∈ s.log ∨ a.Spares m0 tid ∧ (fits → a.Ok buf)

theorem Logged.refl (fits : Prop) (s : LoadState σ) : Logged buf m0 tid fits s s := fun _ ha => .inl ha

theorem Logged.trans (h : Logged buf m0 tid fits s s')
    (h' : Logged buf m0 tid fits s' s'') : Logged buf m0 tid fits s s'' := by
  intro a ha
  rcases h' a ha with ha | hnew
  · exact h a ha
  · exact .inr hnew

theorem Logged.mono {fits' : Prop} (h : Logged buf m0 tid fits s s') (hf : fits' → fits) :
    Logged buf m0 tid fits' s s' := fun a ha => (h a ha).imp_right fun hnew =>
  ⟨hnew.1,fun hfits => hnew.2 (hf hfits)⟩

theorem Logged.append {a : Access} {f : ForkState σ} (h : Logged buf m0 tid fits s s')
    (hspares : a.Spares m0 tid) (hok : fits → a.Ok buf) :
    Logged buf m0 tid fits s ⟨f,s'.log ++ [a]⟩ := by
  intro b hb
  rcases mem_append.mp hb with hb | hb
  · exact h b hb
  · rw [mem_singleton.mp hb]
    exact .inr ⟨hspares,hok⟩

structure Stopped (buf : Slice) (m0 : SpaceManager) (tid : Nat) (fits : Prop) (s s' : LoadState σ) :
    Prop where
  keeps : Keeps (.managed (.user tid)) m0 s'.fork.spaces
  logged : Logged buf m0 tid fits s s'

structure Written (s s' : LoadState σ) (frames : List Frame) : Prop where
  spaces : s'.fork.spaces = s.fork.spaces
  outside : ∀ a, ¬ InFrames frames a → s'.fork.mem a = s.fork.mem a

theorem Written.refl (s : LoadState σ) (frames : List Frame) : Written s s frames :=
  ⟨rfl,fun _ _ => rfl⟩

theorem Written.trans (h : Written s s' frames)
    (h' : Written s' s'' frames) : Written s s'' frames :=
  ⟨h'.spaces.trans h.spaces,fun a ha => (h'.outside a ha).trans (h.outside a ha)⟩

end

section

variable {σ : Type} [FrameAllocator σ]

/-- The addresses of the pages do not overflow, up to the first page that the tables do not take. -/
def PagesFit (tid va : Nat) (flags : PageFlags) : List (Nat × Nat) → ForkState σ → Prop
  | [], _ => True
  | page :: pages, f => va + page.1 < wordRange ∧
    wlp (ForkState.userMap tid (wrap (va + page.1)) page.2 flags) (fun _ f' => PagesFit tid va flags pages f') f

def ForkState.mapAll (tid va : Nat) (flags : PageFlags) (pages : List (Nat × Nat)) :
    ForkAction σ Unit :=
  forEach (fun page => ForkState.userMap tid (wrap (va + page.1)) page.2 flags) pages

/-- The file data of a segment goes into its first frame. -/
def FirstFrameHolds (ph : ProgramHeader) : Prop :=
  ph.pFilesz = 0 ∨ ph.pVaddr % ph.pAlign + ph.pFilesz ≤ blockSize ph.pMemsz

instance (ph : ProgramHeader) : Decidable (FirstFrameHolds ph) := inferInstanceAs (Decidable (_ ∨ _))

/-- What the frames of a segment and its pages have to be for `A`, and after them for `X`; without the
frames, or where the tables do not take a page, the loader does not get there. -/
def Served (tid : Nat) (ph : ProgramHeader) (A : List (Nat × Nat) → ForkState σ → Prop)
    (X : List Frame → Prop) (f : ForkState σ) : Prop :=
  wlp (ForkState.allocFrames ph.pMemsz : ForkAction σ (Option (List Frame)))
    (fun r f1 => ∀ frames ∈ r, A (framePages 0 frames) f1 ∧
      wlp (ForkState.mapAll tid ph.pVaddr ph.mappingFlags (framePages 0 frames)) (fun _ _ => X frames) f1) f

/-- Without a frame or an alignment the copy panics; otherwise it goes into the first frame. -/
def CopyInside (P : Prop) (ph : ProgramHeader) : Prop :=
  (ph.pMemsz = 0 ∨ ph.pAlign = 0 → P) ∧ (0 < ph.pMemsz → ph.pAlign ≠ 0 → FirstFrameHolds ph)

/-- The addresses of the copy do not overflow, and it reads the file. -/
structure CopyFits (buf : Slice) (ph : ProgramHeader) (g : Frame) : Prop where
  source : buf.ptr + ph.pOffset < wordRange
  target : g.start + ph.pVaddr % ph.pAlign < wordRange
  data : ph.pFilesz = 0 ∨ ph.pOffset + ph.pFilesz ≤ buf.len

/-- What keeps the addresses of a segment from overflowing and its reads in the file. -/
def AddressesFit (buf : Slice) (tid : Nat) (ph : ProgramHeader) (f : ForkState σ) : Prop :=
  Served tid ph (PagesFit tid ph.pVaddr ph.mappingFlags) (fun frames => ∀ g ∈ frames.head?, CopyFits buf ph g) f

end

variable {σ : Type} [LawfulFrameAllocator σ] {s s' : LoadState σ} {s0 : ForkState σ}
  {fs : List Frame} {buf : Slice} {tid : Nat} {E : LoadError → LoadState σ → Prop}
  {m0 : SpaceManager} {P : Prop}

theorem giveFrames_spaces {ε : Type} {E : ε → ForkState σ → Prop} (f : ForkState σ) (frames : List Frame) :
    wp (forEach ForkState.giveFrame frames : Action ε (ForkState σ) Unit)
      (fun _ f' => f'.spaces = f.spaces) E f := by
  apply wp_forEach (I := fun _ (f' : ForkState σ) => f'.spaces = f.spaces) _ rfl
  intro g _ f' hf'
  cases hr : FrameAllocator.deallocFrame f'.alloc f'.mem g.start g.size
  simp only [wp,ForkState.giveFrame,hf']

theorem Stopped.dropFrames {s0 : LoadState σ} (h : Stopped buf m0 tid fits s0 s)
    (frames : List Frame) :
    wp (LoadState.dropFrames frames) (fun _ s' => Stopped buf m0 tid fits s0 s') E s := by
  rw [LoadState.dropFrames,wp_onFork]
  refine wp_mono (giveFrames_spaces s.fork frames (E := fun _ _ => False)) ?_ fun _ _ he => he.elim
  intro _ f hf
  refine ⟨?_,h.logged⟩
  rw [hf]
  exact h.keeps

variable {gs : List Frame}

theorem spares_of_inFrames {f : ForkState σ} {start len : Nat}
    (h : ForkOk f (gs++fs)) (hkeeps : Keeps (.managed (.user tid)) m0 f.spaces)
    (hin : ∀ i < len, InFrames gs (start+i)) : (Access.write start len gs).Spares m0 tid := by
  intro o sp hne hsp a ha i hi hmem
  have hlive : a ∈ f.spaces.live := SpaceManager.mem_live (hkeeps o sp hne hsp).1 ha
  obtain ⟨g,hg,hgi⟩ := hin i hi
  obtain ⟨live,howns,hsub,htables⟩ := h.owns
  have hg' : g ∈ gs++fs := mem_append_left _ hg
  have hapart : g.Apart (pageFrame a) := by
    apply LawfulFrameAllocator.apart howns (hsub g hg') (htables a hlive)
    intro he
    exact h.tables a hlive (he ▸ hg')
  exact hapart.not_mem hgi hmem

def segmentPages (va : Nat) (flags : PageFlags) (frames : List Frame) :
    List (Nat × Nat × PageFlags) :=
  (framePages 0 frames).map fun page => (wrap (va + page.1), page.2, flags)

theorem loadPages_spec (buf : Slice) {w : Nat → Option PageTableEntry} {va : Nat} {flags : PageFlags}
    (h : Repointed s0 s.fork fs tid w) :
    wp (mapPages tid va flags frames)
      (fun _ s' => ForkState.mapAll tid va flags (framePages 0 frames) s.fork = .ok () s'.fork ∧
        Repointed s0 s'.fork fs tid ((segmentPages va flags frames).foldl overlay w) ∧
        Logged buf s0.spaces tid (PagesFit tid va flags (framePages 0 frames) s.fork) s s')
      (fun _ s' => Stopped buf s0.spaces tid (PagesFit tid va flags (framePages 0 frames) s.fork) s s') s := by
  rw [mapPages,segmentPages]
  generalize framePages 0 frames = pages
  induction pages generalizing s w with
  | nil => exact ⟨rfl,h,Logged.refl _ s⟩
  | cons page pages ih =>
    change wp ((add va page.1 >>= fun va => onFork _) >>= fun _ => forEach _ pages)
      _ _ s
    simp only [wp_bind,wp_add,wp_onFork]
    have hlog : ∀ f, Logged buf s0.spaces tid (PagesFit tid va flags (page::pages) s.fork) s
        ⟨f,s.log ++ [.sum (va+page.1)]⟩ := fun f =>
      (Logged.refl _ s).append trivial fun hfits => hfits.1
    apply wp_mono (wpp_run (P := False) (forkMap_spec h (wrap (va+page.1), page.2, flags)))
    · rintro _ f ⟨hrun,hf⟩
      have hrest := ih (s := (⟨f,s.log ++ [Access.sum (va+page.1)]⟩ : LoadState σ)) hf
      apply wp_mono hrest
      · rintro _ s' ⟨hall,hrep,hrest⟩
        refine ⟨?_,hrep,(hlog f).trans (hrest.mono fun hfits => hfits.2 _ f hrun)⟩
        simp only [ForkState.mapAll,forEach,Action.bind,hrun]
        exact hall
      · intro _ s' hrest
        exact ⟨hrest.keeps,(hlog f).trans (hrest.logged.mono fun hfits => hfits.2 _ f hrun)⟩
    · intro _ f hf
      exact ⟨hf,hlog f⟩

variable {m : Memory} {ph : ProgramHeader}

theorem inFrames_append {a : Nat} : InFrames (gs++fs) a ↔ InFrames gs a ∨ InFrames fs a := by
  simp only [InFrames,mem_append,or_and_right,exists_or]

theorem not_inFrames_of_apart {f : ForkState σ} (h : ForkOk f (gs++fs)) {a : Nat}
    (ha : InFrames fs a) : ¬ InFrames gs a := by
  obtain ⟨x,hx,hax⟩ := ha
  rintro ⟨g,hg,hag⟩
  have hne : g ≠ x := fun he => (nodup_append.mp h.nodup).2.2 g hg x hx he
  exact (h.apart (mem_append_left _ hg) (mem_append_right _ hx) hne).not_mem hag hax

theorem write_spec (buf : Slice) (start len : Nat) (fits : Prop)
    (h : ForkOk s.fork (gs++fs)) (hkeeps : Keeps (.managed (.user tid)) m0 s.fork.spaces)
    (hin : ∀ i < len, InFrames gs (start+i)) (hm : ∀ a, ¬ InFrames gs a → m a = s.fork.mem a) :
    ForkOk { s.fork with mem := m } (gs++fs) ∧
      Written s ⟨{ s.fork with mem := m },s.log ++ [.write start len gs]⟩ gs ∧
      Logged buf m0 tid fits s ⟨{ s.fork with mem := m },s.log ++ [.write start len gs]⟩ := by
  refine ⟨h.store fun a ha => hm a fun hag => ha (inFrames_append.mpr (.inl hag)),⟨rfl,hm⟩,?_⟩
  exact (Logged.refl fits s).append (spares_of_inFrames h hkeeps hin) fun _ => hin

theorem loadZero_spec (buf : Slice) (h : ForkOk s.fork (gs++fs))
    (hkeeps : Keeps (.managed (.user tid)) m0 s.fork.spaces) (fits : Prop) :
    wp (LoadState.zeroFrames gs)
      (fun _ s' => ForkOk s'.fork (gs++fs) ∧ Written s s' gs ∧ Logged buf m0 tid fits s s' ∧
        ∀ a, InFrames gs a → s'.fork.mem a = 0) E s := by
  refine wp_weaken (wp_forEach (I := fun rest s' => (∀ f ∈ rest, f ∈ gs) ∧ ForkOk s'.fork (gs++fs) ∧
    Written s s' gs ∧ Logged buf m0 tid fits s s' ∧
    ∀ a, InFrames gs a → ¬ InFrames rest a → s'.fork.mem a = 0) ?_ ?_) ?_
  · rintro f rest s' ⟨hsub,hok,hw,hl,hzero⟩
    have hf : f ∈ gs := hsub f mem_cons_self
    have hkeeps' : Keeps (.managed (.user tid)) m0 s'.fork.spaces := by
      rw [hw.spaces]
      exact hkeeps
    obtain ⟨hok',hw',hl'⟩ := write_spec buf f.start f.size fits hok hkeeps'
      (fun i hi => ⟨f,hf,by simp only [Block.mem_iff]; omega⟩)
      (fun a ha => fill_outside s'.fork.mem f.start 0 f.size fun hin => ha ⟨f,hf,hin⟩)
    simp only [wp_bind,wp_setMemory]
    refine ⟨fun g hg => hsub g (mem_cons_of_mem _ hg),hok',hw.trans hw',hl.trans hl',?_⟩
    intro a ha hrest
    by_cases hin : a ∈ f
    · exact fill_inside _ _ _ _ hin
    · have hold : s'.fork.mem.fill f.start 0 f.size a = s'.fork.mem a :=
        fill_outside _ _ _ _ hin
      rw [hold]
      apply hzero a ha
      rintro ⟨g,hg,hag⟩
      rcases mem_cons.mp hg with rfl | hg
      · exact hin hag
      · exact hrest ⟨g,hg,hag⟩
  · refine ⟨fun f hf => hf,h,Written.refl s gs,Logged.refl _ s,fun a ha hno => absurd ha hno⟩
  · rintro _ s' ⟨_,hok,hw,hl,hzero⟩
    exact ⟨hok,hw,hl,fun a ha => hzero a ha (by rintro ⟨g,hg,_⟩; exact absurd hg not_mem_nil)⟩

/-- What the frames of a segment hold: the bytes of the file from the offset on, and zeros. -/
def SegmentBytes (m0 : Memory) (buf : Slice) (m : Memory) (b : ProgramHeader × List Frame) : Prop :=
  ∀ off p, physAtOffset b.2 off = some p →
    m p = if b.1.pVaddr % b.1.pAlign ≤ off ∧ off < b.1.pVaddr % b.1.pAlign + b.1.pFilesz then
      m0 (wrap (buf.ptr + b.1.pOffset) + (off - b.1.pVaddr % b.1.pAlign)) else 0

theorem segmentBytes_copy {m0 : Memory} {f : Frame}
    (hap : (f::frames).Pairwise Block.Apart) (hzero : ∀ a, InFrames (f::frames) a → m a = 0)
    (hsrc : ∀ i < ph.pFilesz, m (wrap (buf.ptr+ph.pOffset)+i) = m0 (wrap (buf.ptr+ph.pOffset)+i))
    (hfit : ph.pFilesz = 0 ∨ ph.pVaddr%ph.pAlign+ph.pFilesz ≤ f.size) :
    SegmentBytes m0 buf (m.copy (wrap (buf.ptr+ph.pOffset)) (f.start+ph.pVaddr%ph.pAlign)
      ph.pFilesz) (ph, f::frames) := by
  intro off p hp
  have hmem : InFrames (f::frames) p := physAtOffset_mem hp
  simp only
  by_cases hlt : off < f.size
  · rw [physAtOffset,if_pos hlt,Option.some.injEq] at hp
    subst hp
    split
    next hin =>
      have he : f.start+off = f.start+ph.pVaddr%ph.pAlign+(off-ph.pVaddr%ph.pAlign) := by
        omega
      rw [he,copy_inside _ _ _ _ (by omega),hsrc _ (by omega)]
    next hout =>
      rw [copy_outside]
      · exact hzero _ hmem
      · simp only [Block.mem_iff]
        omega
  · rw [physAtOffset,if_neg hlt] at hp
    obtain ⟨g,hg,hpg⟩ := physAtOffset_mem hp
    have hapart := (pairwise_cons.mp hap).1 g hg
    rw [if_neg (by omega),copy_outside]
    · exact hzero _ hmem
    · intro hin
      apply hapart.not_mem _ hpg
      simp only [Block.mem_iff] at hin ⊢
      omega

/-- The pages of the segments in the order in which they have been mapped. -/
def imagePages (segs : List (ProgramHeader × List Frame)) : List (Nat × Nat × PageFlags) :=
  segs.flatMap fun b => segmentPages b.1.pVaddr b.1.mappingFlags b.2

theorem imagePages_append (segs : List (ProgramHeader × List Frame)) (b : ProgramHeader × List Frame) :
    imagePages (segs ++ [b]) = imagePages segs++segmentPages b.1.pVaddr b.1.mappingFlags b.2 := by
  rw [imagePages,flatMap_append,flatMap_singleton]
  rfl

/-- The segments that have been loaded so far, with their frames. -/
structure Image (s0 : ForkState σ) (buf : Slice) (fs : List Frame) (tid : Nat)
    (segs : List (ProgramHeader × List Frame)) (s : LoadState σ) : Prop where
  ok : ForkOk s.fork (segs.flatMap Prod.snd ++ fs)
  kept : Memory.AgreeOn (InFrames fs) s0.mem s.fork.mem
  keeps : Keeps (.managed (.user tid)) s0.spaces s.fork.spaces
  leaves : ∃ sp, s.fork.spaces.space (.managed (.user tid)) = some sp ∧
    ∀ va, leaves s.fork.spaces sp va = (imagePages segs).foldl overlay (fun _ => none) va
  sizes : ∀ b ∈ segs, b.2.map Block.size = segmentSizes b.1.pMemsz b.1.pMemsz
  bytes : ∀ b ∈ segs, (∀ i < b.1.pFilesz, InFrames fs (wrap (buf.ptr + b.1.pOffset) + i)) →
    SegmentBytes s0.mem buf s.fork.mem b

variable {segs : List (ProgramHeader × List Frame)}

theorem Image.congr (h : Image s0 buf fs tid segs s)
    (hfork : s'.fork = s.fork) : Image s0 buf fs tid segs s' := by
  obtain ⟨hok,hkept,hkeeps,hleaves,hsizes,hbytes⟩ := h
  rw [← hfork] at hok hkept hkeeps hleaves hbytes
  exact ⟨hok,hkept,hkeeps,hleaves,hsizes,hbytes⟩

theorem SegmentBytes.congr {m0 m' : Memory} {b : ProgramHeader × List Frame}
    (h : SegmentBytes m0 buf m b) (hm : ∀ a, InFrames b.2 a → m' a = m a) :
    SegmentBytes m0 buf m' b := by
  intro off p hp
  rw [hm p (physAtOffset_mem hp)]
  exact h off p hp

theorem head_of_segmentSizes {n : Nat} {frames : List Frame}
    (h : frames.map Block.size = segmentSizes n n) :
    (frames.head? = none → n = 0) ∧ ∀ g, frames.head? = some g → 0 < n ∧ g.size = blockSize n := by
  cases n with
  | zero =>
    obtain rfl : frames = [] := map_eq_nil_iff.mp h
    simp
  | succ k =>
    rw [segmentSizes,if_neg (Nat.succ_ne_zero k)] at h
    cases frames with
    | nil => cases h
    | cons g gs => simpa using (cons.inj h).1

variable {g : Frame}

theorem copy_target (hg : FrameShape g)
    (hfit : ph.pFilesz = 0 ∨ ph.pVaddr%ph.pAlign+ph.pFilesz ≤ g.size) (m : Memory) (src : Nat) :
    m.copy src (wrap (g.start+ph.pVaddr%ph.pAlign)) ph.pFilesz =
      m.copy src (g.start+ph.pVaddr%ph.pAlign) ph.pFilesz ∧
    (∀ i < ph.pFilesz, wrap (g.start+ph.pVaddr%ph.pAlign)+i ∈ g) ∧
    ∀ a, a ∉ g → m.copy src (g.start+ph.pVaddr%ph.pAlign) ph.pFilesz a = m a := by
  by_cases h0 : ph.pFilesz = 0
  · rw [h0]
    refine ⟨?_,fun i hi => absurd hi (Nat.not_lt_zero i),fun a _ => ?_⟩
    · funext a
      rw [copy_outside] <;> simp [Block.mem_iff]
    · exact copy_outside _ _ _ _ (by simp [Block.mem_iff])
  · have hb := hg.bounded
    have hwrap : wrap (g.start+ph.pVaddr%ph.pAlign) = g.start+ph.pVaddr%ph.pAlign := by
      apply wrap_of_lt
      simp only [physicalLimit,wordRange] at *
      omega
    rw [hwrap]
    refine ⟨rfl,fun i hi => ?_,fun a ha => copy_outside _ _ _ _ fun hin => ha ?_⟩
    · simp only [Block.mem_iff]
      omega
    · simp only [Block.mem_iff] at hin ⊢
      omega

theorem copy_logged {f : ForkState σ} (hmem : g ∈ frames) (hfits : fits → CopyFits buf ph g)
    (hin : ∀ i < ph.pFilesz, wrap (g.start+ph.pVaddr%ph.pAlign)+i ∈ g)
    (hok : ForkOk s'.fork (frames++fs)) (hkeeps : Keeps (.managed (.user tid)) m0 s'.fork.spaces)
    (h : Logged buf m0 tid fits s s') :
    Logged buf m0 tid fits s ⟨f,s'.log ++ [.sum (buf.ptr+ph.pOffset)] ++
      [.sum (g.start+ph.pVaddr%ph.pAlign)] ++ [.read (wrap (buf.ptr+ph.pOffset)) ph.pFilesz] ++
      [.write (wrap (g.start+ph.pVaddr%ph.pAlign)) ph.pFilesz frames]⟩ := by
  have hframes : ∀ i < ph.pFilesz, InFrames frames (wrap (g.start+ph.pVaddr%ph.pAlign)+i) :=
    fun i hi => ⟨g,hmem,hin i hi⟩
  have hsource : Logged buf m0 tid fits s ⟨f,s'.log ++ [.sum (buf.ptr+ph.pOffset)]⟩ :=
    h.append trivial fun hf => (hfits hf).source
  have htarget : Logged buf m0 tid fits s ⟨f,s'.log ++ [.sum (buf.ptr+ph.pOffset)] ++
      [.sum (g.start+ph.pVaddr%ph.pAlign)]⟩ :=
    hsource.append trivial fun hf => (hfits hf).target
  have hread : Logged buf m0 tid fits s ⟨f,s'.log ++ [.sum (buf.ptr+ph.pOffset)] ++
      [.sum (g.start+ph.pVaddr%ph.pAlign)] ++
      [.read (wrap (buf.ptr+ph.pOffset)) ph.pFilesz]⟩ := by
    refine htarget.append trivial fun hf i hi => ?_
    have hdata := (hfits hf).data.resolve_left (by omega)
    rw [wrap_of_lt (hfits hf).source]
    omega
  exact hread.append (spares_of_inFrames hok hkeeps hframes) fun _ => hframes

theorem Image.append {log : List Access} (h : Image s0 buf fs tid segs s)
    (hok : ForkOk s'.fork ((g::gs)++(segs.flatMap Prod.snd++fs)))
    (hkeeps : Keeps (.managed (.user tid)) s0.spaces s'.fork.spaces)
    (hleaves : ∃ sp, s'.fork.spaces.space (.managed (.user tid)) = some sp ∧
      ∀ va, Athera.leaves s'.fork.spaces sp va = (segmentPages ph.pVaddr ph.mappingFlags (g::gs)).foldl overlay
        ((imagePages segs).foldl overlay fun _ => none) va)
    (hmem : Memory.AgreeOn (InFrames (segs.flatMap Prod.snd++fs)) s.fork.mem s'.fork.mem)
    (hzero : ∀ a, InFrames (g::gs) a → s'.fork.mem a = 0)
    (hsizes : (g::gs).map Block.size = segmentSizes ph.pMemsz ph.pMemsz)
    (hfit : ph.pFilesz = 0 ∨ ph.pVaddr%ph.pAlign+ph.pFilesz ≤ g.size)
    (hout : ∀ a, a ∉ g → s'.fork.mem.copy (wrap (buf.ptr+ph.pOffset))
      (g.start+ph.pVaddr%ph.pAlign) ph.pFilesz a = s'.fork.mem a) :
    Image s0 buf fs tid (segs ++ [(ph, g::gs)]) ⟨⟨s'.fork.alloc,s'.fork.mem.copy
      (wrap (buf.ptr+ph.pOffset)) (g.start+ph.pVaddr%ph.pAlign) ph.pFilesz,s'.fork.spaces⟩,log⟩ := by
  have hin : ∀ a, ¬ InFrames (g::gs) a → a ∉ g := fun a ha hag => ha ⟨g,mem_cons_self,hag⟩
  -- the frames of the other segments and of everybody else are as before
  have hkeep : ∀ a, InFrames (segs.flatMap Prod.snd++fs) a →
      s'.fork.mem.copy (wrap (buf.ptr+ph.pOffset)) (g.start+ph.pVaddr%ph.pAlign)
        ph.pFilesz a = s.fork.mem a := by
    intro a ha
    rw [hout a (hin a (not_inFrames_of_apart hok ha))]
    exact hmem a ha
  constructor
  · have hstore := hok.store fun a ha =>
      hout a (hin a fun hag => ha (inFrames_append.mpr (.inl hag)))
    apply hstore.perm
    rw [flatMap_append,flatMap_singleton,← append_assoc]
    exact perm_append_comm.append_right fs
  · intro a ha
    exact (hkeep a (inFrames_append.mpr (.inr ha))).trans (h.kept a ha)
  · exact hkeeps
  · obtain ⟨sp,hsp,hleaves⟩ := hleaves
    refine ⟨sp,hsp,fun va => ?_⟩
    rw [imagePages_append,foldl_append]
    exact hleaves va
  · intro b hb
    rcases mem_append.mp hb with hb | hb
    · exact h.sizes b hb
    · rw [mem_singleton.mp hb]
      exact hsizes
  · intro b hb hsource
    rcases mem_append.mp hb with hb | hb
    · refine (h.bytes b hb hsource).congr fun a ha => hkeep a ?_
      exact inFrames_append.mpr (.inl (ha.mono fun x hx => mem_flatMap.mpr ⟨b,hb,hx⟩))
    · rw [mem_singleton.mp hb] at hsource ⊢
      apply segmentBytes_copy (pairwise_append.mp hok.pairwise).1 hzero _ hfit
      intro i hi
      have hsrc := hsource i hi
      rw [hmem _ (inFrames_append.mpr (.inr hsrc))]
      exact h.kept _ hsrc

theorem loadSegment_spec (h : Image s0 buf fs tid segs s)
    (hcopy : Served tid ph (fun _ _ => True) (fun _ => CopyInside P ph) s.fork) :
    wpp P (LoadState.loadSegment buf tid ph)
      (fun mapping s' => ∃ frames, mapping = ⟨ph.pVaddr,frames,ph.mappingFlags⟩ ∧
        Image s0 buf fs tid (segs ++ [(ph, frames)]) s' ∧
        Logged buf s0.spaces tid (AddressesFit buf tid ph s.fork) s s')
      (fun _ s' => Stopped buf s0.spaces tid (AddressesFit buf tid ph s.fork) s s') s := by
  rw [LoadState.loadSegment,wpp_bind,wpp_onFork]
  apply wpp_mono (wpp_run (wpp_of_wp (forkAlloc_spec (E := fun _ _ => False) h.ok ph.pMemsz))) _
    (fun _ _ he => he.elim)
  rintro r f1 ⟨halloc,hsame,hr⟩
  have hkeeps1 : Keeps (.managed (.user tid)) s0.spaces f1.spaces := by
    rw [hsame.spaces]
    exact h.keeps
  cases r with
  | none => exact ⟨hkeeps1,Logged.refl _ _⟩
  | some frames =>
    obtain ⟨hsizes,hok1⟩ := hr
    have hpages : AddressesFit buf tid ph s.fork →
        PagesFit tid ph.pVaddr ph.mappingFlags (framePages 0 frames) f1 := fun hfits =>
      (hfits _ f1 halloc frames rfl).1
    obtain ⟨sp,hsp,hleaves⟩ := h.leaves
    have hstart : Repointed ⟨s0.alloc,f1.mem,s0.spaces⟩ f1 (frames++(segs.flatMap Prod.snd++fs)) tid
        ((imagePages segs).foldl overlay fun _ => none) := by
      refine ⟨hok1,Memory.AgreeOn.refl _ _,hkeeps1,sp,?_,?_⟩
      · rw [hsame.spaces]
        exact hsp
      · rw [hsame.spaces]
        exact hleaves
    simp only [wpp_bind,wpp_onError]
    apply wpp_mono (wpp_of_wp (loadPages_spec buf hstart))
    swap
    · intro e s2 hstopped
      have hstopped' : Stopped buf s0.spaces tid (AddressesFit buf tid ph s.fork) s s2 :=
        ⟨hstopped.keeps,hstopped.logged.mono hpages⟩
      exact wpp_of_wp (hstopped'.dropFrames frames)
    · rintro _ s2 ⟨hmapped,hrep2,hlog2⟩
      have hinside : CopyInside P ph := (hcopy _ f1 halloc frames rfl).2 _ _ hmapped
      apply wpp_mono (wpp_of_wp (loadZero_spec (E := fun _ _ => False) buf hrep2.ok hrep2.keeps
        (AddressesFit buf tid ph s.fork))) _ (fun _ _ he => he.elim)
      intro _ s3 hzeroed
      obtain ⟨hok3,hw3,hlog3,hzero⟩ := hzeroed
      obtain ⟨hempty,hfirst⟩ := head_of_segmentSizes hsizes
      rw [wpp_orPanic]
      refine ⟨fun g hhead => ?_,fun hnone => hinside.1 (.inl (hempty hnone))⟩
      obtain ⟨hpos,hgsize⟩ := hfirst g hhead
      obtain ⟨gs,rfl⟩ := head?_eq_some_iff.mp hhead
      rw [wpp_orPanic]
      refine ⟨fun inside hmod => ?_,fun hnone => hinside.1 (.inr (by simpa using hnone))⟩
      obtain ⟨halign,he⟩ := Option.ite_none_left_eq_some.mp hmod
      obtain rfl := Option.some.inj he
      have hg : FrameShape g := hok1.shape g mem_cons_self
      have hfit' := hinside.2 hpos halign
      rw [FirstFrameHolds,← hgsize] at hfit'
      obtain ⟨hdst,hdstin,hout⟩ := copy_target hg hfit' s3.fork.mem (wrap (buf.ptr+ph.pOffset))
      have hkeeps3 : Keeps (.managed (.user tid)) s0.spaces s3.fork.spaces := by
        rw [hw3.spaces]
        exact hrep2.keeps
      have hleaves3 := hrep2.leaves
      rw [← hw3.spaces] at hleaves3
      have hmem3 : Memory.AgreeOn (InFrames (segs.flatMap Prod.snd++fs)) s.fork.mem s3.fork.mem := by
        intro a ha
        rw [hw3.outside a (not_inFrames_of_apart hok3 ha),
          hrep2.mem a (inFrames_append.mpr (.inr ha))]
        exact hsame.mem a ha
      have hlog : Logged buf s0.spaces tid (AddressesFit buf tid ph s.fork) s s3 :=
        (hlog2.mono hpages).trans hlog3
      simp only [wpp_add,wpp_record,wpp_setMemory,hdst]
      refine ⟨g::gs,rfl,?_,?_⟩
      · exact h.append hok3 hkeeps3 hleaves3 hmem3 hzero hsizes hfit' hout
      · refine copy_logged mem_cons_self (fun hfits => ?_) hdstin hok3 hkeeps3 hlog
        exact (hfits _ f1 halloc (g::gs) rfl).2 _ _ hmapped g rfl

end Athera
