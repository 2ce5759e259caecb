import Athera.Task.ExecSteps

/-!
# The initial stack of a program

`build_initial_stack` compares sizes before it writes anything; from then on it stays in the frame
of the stack.
-/

namespace Athera

open Framework Action List LoadState

variable {σ : Type} [LawfulFrameAllocator σ] {s s' s'' : LoadState σ} {fs : List Frame} {buf : Slice}
  {stack : Frame} {E : LoadError → LoadState σ → Prop} {m0 : SpaceManager} {tid : Nat}

/-- Only the frame of the stack has been written to, by legal accesses. -/
structure StackWritten (buf : Slice) (m0 : SpaceManager) (tid : Nat) (fs : List Frame) (stack : Frame)
    (s s' : LoadState σ) : Prop where
  ok : ForkOk s'.fork (stack :: fs)
  keeps : Keeps (.managed (.user tid)) m0 s'.fork.spaces
  written : Written s s' [stack]
  logged : Logged buf m0 tid True s s'

theorem StackWritten.refl (buf : Slice) (h : ForkOk s.fork (stack::fs))
    (hkeeps : Keeps (.managed (.user tid)) m0 s.fork.spaces) : StackWritten buf m0 tid fs stack s s :=
  ⟨h,hkeeps,Written.refl s _,Logged.refl _ s⟩

section

variable (h : StackWritten buf m0 tid fs stack s s')
include h

theorem StackWritten.difference {a b : Nat} (hle : b ≤ a) :
    StackWritten buf m0 tid fs stack s ⟨s'.fork,s'.log ++ [.difference a b]⟩ :=
  ⟨h.ok,h.keeps,⟨h.written.spaces,h.written.outside⟩,h.logged.append trivial fun _ => hle⟩

theorem writeBytes_spec {a : Nat} {bytes : List UInt8}
    (hlow : stack.start ≤ a) (hhigh : a+bytes.length ≤ stack.stop) :
    wp (LoadState.writeBytes a bytes [stack]) (fun _ s'' => StackWritten buf m0 tid fs stack s s'') E s' := by
  have hin : ∀ x, x ∈ Block.mk a bytes.length → x ∈ stack := by
    simp only [Block.mem_iff,Block.stop] at *
    omega
  have hok : ForkOk s'.fork ([stack] ++ fs) := h.ok
  obtain ⟨hok',hw,hl⟩ := write_spec buf a bytes.length True hok h.keeps
    (fun i hi => ⟨stack,mem_singleton_self _,hin _ (by simp only [Block.mem_iff]; omega)⟩)
    (fun x hx => Memory.store_outside s'.fork.mem a bytes fun hxa =>
      hx ⟨stack,mem_singleton_self _,hin x hxa⟩)
  exact ⟨hok',h.keeps,h.written.trans hw,h.logged.trans hl⟩

theorem sub_spec {a b : Nat} (hle : b ≤ a) (ha : a < wordRange) :
    wp (LoadState.sub a b) (fun r s'' => r = a-b ∧ StackWritten buf m0 tid fs stack s s'') E s' := by
  rw [wp_sub,wrap_sub hle ha]
  exact ⟨rfl,h.difference hle⟩

theorem pushCstr_spec {sp : Nat} {string : List UInt8}
    (hlow : stack.start+(string.length+1) ≤ sp) (hhigh : sp ≤ stack.stop)
    (hbound : stack.stop < wordRange) :
    wp (LoadState.pushCstr stack sp string) (fun r s'' => r = sp-(string.length+1) ∧
      StackWritten buf m0 tid fs stack s s'') E s' := by
  have hlength : (string ++ [0]).length = string.length+1 := by
    rw [length_append,length_singleton]
  have hle : string.length+1 ≤ sp := by omega
  rw [pushCstr]
  rw [wp_bind]
  refine wp_weaken (sub_spec h hle (by omega)) ?_
  intro r s1 hr
  rw [wp_bind]
  refine wp_weaken (writeBytes_spec hr.2 (by omega) (by omega)) ?_
  intro _ s2 hs2
  exact ⟨hr.1,hs2⟩

theorem pushStrings_spec {sp : Nat} {strings : List (List UInt8)}
    (hlow : stack.start+LoadState.stringBytes strings ≤ sp) (hhigh : sp ≤ stack.stop)
    (hbound : stack.stop < wordRange) : wp (LoadState.pushStrings stack sp strings)
      (fun r s'' => StackWritten buf m0 tid fs stack s s'' ∧
        r.1+LoadState.stringBytes strings = sp ∧ r.2.length = strings.length) E s' := by
  induction strings generalizing s' with
  | nil => exact ⟨h,rfl,rfl⟩
  | cons string rest ih =>
    have hbytes : stringBytes (string::rest) = string.length+1+stringBytes rest := by
      simp only [stringBytes,map_cons,sum_cons]
    rw [pushStrings,wp_bind]
    refine wp_weaken (ih h (by omega)) ?_
    intro r s1 hr
    obtain ⟨hw,hsp,hlen⟩ := hr
    rw [wp_bind]
    refine wp_weaken (pushCstr_spec hw (by omega) (by omega) hbound) ?_
    intro sp' s2 hs2
    refine ⟨hs2.2,?_,?_⟩
    · omega
    · rw [length_cons,length_cons,hlen]

end

theorem length_flatMap_wordBytes (words : List Nat) :
    (words.flatMap LoadState.wordBytes).length = words.length*Memory.wordSize := by
  induction words with
  | nil => rfl
  | cons w words ih =>
    rw [flatMap_cons,length_append,ih,LoadState.wordBytes,length_map,length_range,
      length_cons,Nat.add_mul,Nat.one_mul,Nat.add_comm]

variable {argv envp : List (List UInt8)} {auxv : List (Nat × Nat)}

theorem length_stackWords {as es : List Nat}
    (ha : as.length = argv.length) (he : es.length = envp.length) :
    ([argv.length] ++ as ++ [0] ++ es ++ [0] ++ auxv.flatMap fun a : Nat × Nat => [a.1,a.2]).length =
      LoadState.pointerWords argv envp auxv := by
  have haux : (auxv.flatMap fun a => [a.1,a.2]).length = auxv.length*2 := by
    induction auxv with
    | nil => rfl
    | cons a auxv ih =>
      rw [flatMap_cons,length_append]
      simp only [length_cons,length_nil]
      omega
  simp only [length_append,length_cons,length_nil,ha,he,haux,pointerWords]

/-- What has to fit into a word for the size of the arguments to be right. -/
def ArgsFit (argv envp : List (List UInt8)) (auxv : List (Nat × Nat)) : Prop :=
  LoadState.initialStackBytes argv envp auxv + LoadState.stackAlign ≤ wordRange

theorem initialStackBytes_le (h : ArgsFit argv envp auxv) :
    LoadState.initialStackBytes argv envp auxv ≤ LoadState.initialStackSize argv envp auxv := by
  simp only [ArgsFit,stackAlign] at h
  simp only [initialStackSize,stackAlign]
  generalize initialStackBytes argv envp auxv = bytes at *
  have hbytes : wrap bytes = bytes := wrap_of_lt (by omega)
  have hsize : (bytes+16-1)/16*16 < wordRange := by
    omega
  rw [hbytes,wrap_of_lt hsize]
  omega

theorem buildInitialStack_spec (buf : Slice)
    (h : ForkOk s.fork (stack::fs)) (hkeeps : Keeps (.managed (.user tid)) m0 s.fork.spaces)
    (hfit : ArgsFit argv envp auxv) : wp (LoadState.buildInitialStack argv envp auxv stack)
      (fun _ s' => StackWritten buf m0 tid fs stack s s')
      (fun _ s' => StackWritten buf m0 tid fs stack s s') s := by
  have hshape := h.shape stack mem_cons_self
  have hstop : stack.stop < wordRange := by
    have hb := hshape.bounded
    simp only [Block.stop,physicalLimit,wordRange] at *
    omega
  have haligned : 16 ∣ stack.start :=
    Nat.dvd_trans (by decide : 16 ∣ pageSize) hshape.pageShape.start
  rw [buildInitialStack]
  split
  next => exact StackWritten.refl buf h hkeeps
  next hsize =>
    have hend : stack.stop = stack.start+stack.size := rfl
    have hbytes := initialStackBytes_le hfit
    rw [initialStackBytes] at hbytes
    rw [wp_bind]
    refine wp_weaken (pushStrings_spec (StackWritten.refl buf h hkeeps) (by omega) le_rfl hstop) ?_
    intro envs s1 henvs
    obtain ⟨hw1,hsp1,hlen1⟩ := henvs
    rw [wp_bind]
    refine wp_mono (pushStrings_spec hw1 (by omega) (by omega) hstop) ?_
      fun _ _ he => he
    intro args s2 hargs
    obtain ⟨hw2,hsp2,hlen2⟩ := hargs
    have hle : pointerWords argv envp auxv*Memory.wordSize ≤ args.1 := by omega
    rw [wp_bind]
    refine wp_weaken (sub_spec hw2 hle (by omega)) ?_
    intro low s3 hs3
    obtain ⟨rfl,hw3⟩ := hs3
    rw [wp_bind]
    refine wp_mono (writeBytes_spec hw3 ?_ ?_) (fun _ _ hw => hw) fun _ _ he => he
    · simp only [stackAlign]
      omega
    · rw [length_flatMap_wordBytes,length_stackWords hlen2 hlen1]
      simp only [stackAlign]
      omega

end Athera
