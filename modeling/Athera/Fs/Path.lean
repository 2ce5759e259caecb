import Athera.Fs.Vfs

/-!
# Paths and their components

`fs/path.rs`. A position counts characters here, bytes in the source: both cut the string at the
same separator.
-/

namespace Athera

open List

inductive Component where
  | rootDir
  | curDir
  | parentDir
  | normal (s : List Char)
  deriving DecidableEq

def Component.ofPart : List Char → Component
  | ['.'] => .curDir
  | ['.','.'] => .parentDir
  | s => .normal s

/-- What the calls of `Components::next` yield after the root: an empty part is skipped. -/
def Component.ofParts : List (List Char) → List Component
  | [] => []
  | part :: parts => if part.isEmpty then ofParts parts else .ofPart part :: ofParts parts

namespace Path

def rfind : List Char → Option Nat
  | [] => none
  | c :: cs =>
    match rfind cs with
    | some pos => some (pos + 1)
    | none => if c = separator then some 0 else none

def parent (path : List Char) : Option (List Char) :=
  let s := trimEnd path
  if s.isEmpty then none
  else match rfind s with
    | some 0 => some [separator]
    | some pos => some (s.take pos)
    | none => some []

def fileName (path : List Char) : Option (List Char) :=
  let s := trimEnd path
  match rfind s with
  | some pos => if pos + 1 < s.length then some (s.drop (pos + 1)) else none
  | none => if s.isEmpty then none else some s

/-- `components().collect()`. -/
def collect (path : List Char) : List Component :=
  (if isAbsolute path then [.rootDir] else []) ++ Component.ofParts (path.splitOn separator)

def startsWith (path base : List Char) : Bool :=
  let a := collect path
  let b := collect base
  b.length ≤ a.length && a.take b.length == b

def endsWith (path child : List Char) : Bool :=
  let a := collect path
  let b := collect child
  b.length ≤ a.length && a.drop (a.length - b.length) == b

def closeEnd (buf : List Char) : List Char :=
  if !buf.isEmpty && buf.getLast? != some separator then buf ++ [separator] else buf

def push (buf path : List Char) : List Char :=
  if isAbsolute path then path else if path.isEmpty then buf else closeEnd buf ++ path

def join (path other : List Char) : List Char := push path other

def pop (buf : List Char) : Bool × List Char :=
  let s := trimEnd buf
  if s.isEmpty then (false,buf)
  else match rfind s with
    | some pos => (true,buf.take (if pos = 0 then 1 else pos))
    | none => (true,[])

variable {path other : List Char}

theorem ofParts_eq (parts : List (List Char)) :
    Component.ofParts parts = (parts.filter fun s => !s.isEmpty).map .ofPart := by
  induction parts with
  | nil => rfl
  | cons part parts ih => cases hpart : part.isEmpty <;> simp [Component.ofParts,hpart,ih]

/-- After the root, the components are the names that the mount table sees. -/
theorem collect_eq (path : List Char) :
    collect path = (if isAbsolute path then [.rootDir] else [])++(components path).map .ofPart := by
  rw [collect,ofParts_eq,components]

theorem isAbsolute_append (h : path ≠ []) : isAbsolute (path++other) = isAbsolute path := by
  rw [isAbsolute,isAbsolute,head?_append_of_ne_nil _ h]

theorem components_closeEnd (path other : List Char) :
    components (closeEnd path++other) = components path++components other := by
  rw [closeEnd]
  split
  · rw [append_assoc,singleton_append,components_append]
  · rename_i h
    rcases eq_nil_or_concat' path with rfl | ⟨xs,c,rfl⟩
    · rfl
    · have hc : c = separator := by simpa using h
      rw [hc,append_assoc,singleton_append,components_append,components_concat]

theorem isAbsolute_closeEnd (h : path ≠ []) :
    isAbsolute (closeEnd path++other) = isAbsolute path := by
  rw [closeEnd]
  split
  · rw [append_assoc,isAbsolute_append h]
  · exact isAbsolute_append h

theorem collect_join (h : isAbsolute other = false) :
    collect (join path other) = collect path++collect other := by
  rw [join,push,h]
  by_cases hother : other = []
  · simp [hother,collect_eq [],isAbsolute,components_nil]
  · by_cases hpath : path = []
    · simp [hpath,closeEnd,hother,collect_eq [],isAbsolute,components_nil]
    · rw [if_neg Bool.false_ne_true,if_neg (mt List.isEmpty_iff.mp hother),collect_eq,
        isAbsolute_closeEnd hpath,components_closeEnd,collect_eq path,collect_eq other,h]
      simp

theorem rfind_cases (s : List Char) : (rfind s = none ∧ separator ∉ s) ∨
      ∃ xs ys, s = xs++separator::ys ∧ separator ∉ ys ∧ rfind s = some xs.length := by
  induction s with
  | nil => exact Or.inl ⟨rfl,not_mem_nil⟩
  | cons c cs ih =>
    obtain ⟨hnone,hclean⟩ | ⟨xs,ys,rfl,hclean,hsome⟩ := ih
    · rw [rfind,hnone]
      by_cases hc : c = separator
      · exact Or.inr ⟨[],cs,by rw [hc,nil_append],hclean,by simp [hc]⟩
      · exact Or.inl ⟨by simp [hc],by simp [hclean,Ne.symm hc]⟩
    · exact Or.inr ⟨c::xs,ys,rfl,hclean,by rw [rfind,hsome]; rfl⟩

/-- How a path with a name is made: the name last, after a front that may be missing. -/
structure Ends (path front name : List Char) : Prop where
  isName : IsName name
  parent : Path.parent path = some front
  fileName : Path.fileName path = some name
  pop : Path.pop path = (true,front)
  isAbsolute : Path.isAbsolute front = Path.isAbsolute path
  components : Path.components path = Path.components front ++ [name]

theorem exists_trimmed (path : List Char) : ∃ t, path = trimEnd path++t :=
  ⟨_,(rdropWhile_append_rtakeWhile (p := fun c => c == separator)).symm⟩

theorem trimEnd_ne_concat (path xs : List Char) : trimEnd path ≠ xs ++ [separator] := by
  intro h
  have hlast := rdropWhile_last_not (fun c => c == separator) path
  rw [← trimEnd.eq_def,h] at hlast
  simpa using hlast (concat_ne_nil _ _)

theorem ends_alone (h : IsName (trimEnd path)) : Ends path [] (trimEnd path) := by
  obtain ⟨t,ht⟩ := exists_trimmed path
  obtain ⟨hnone,-⟩ | ⟨xs,ys,hs,-⟩ := rfind_cases (trimEnd path)
  · refine ⟨h,?_,?_,?_,?_,?_⟩
    · simp [parent,hnone,h.nonempty]
    · simp [fileName,hnone,h.nonempty]
    · simp [pop,hnone,h.nonempty]
    · rw [ht]
      cases hcs : trimEnd path with
      | nil => exact absurd hcs h.nonempty
      | cons c cs =>
        have hc : separator ≠ c := fun hc => h.clean (hcs ▸ hc ▸ mem_cons_self)
        simp [isAbsolute,hc.symm]
    · rw [← components_trimEnd,h.components]
      rfl
  · exact absurd (hs ▸ mem_append_right xs mem_cons_self) h.clean

theorem ends_after {xs ys : List Char} (hs : trimEnd path = xs++separator::ys)
    (hname : IsName ys) (hsome : rfind (trimEnd path) = some xs.length) :
    Ends path (if xs = [] then [separator] else xs) ys := by
  obtain ⟨t,ht⟩ := exists_trimmed path
  have hne : trimEnd path ≠ [] := hs ▸ append_ne_nil_of_right_ne_nil xs (cons_ne_nil _ _)
  have hempty : (trimEnd path).isEmpty = false := by simpa using hne
  rw [hs,append_assoc] at ht
  have hfile : fileName path = some ys := by
    have hpos : 0 < ys.length := length_pos_iff.mpr hname.nonempty
    simp only [fileName,hsome]
    simp [hs,hpos]
  have hall : components path = components xs ++ [ys] := by
    rw [← components_trimEnd,hs,components_append,hname.components]
  by_cases hxs : xs = []
  · subst hxs
    refine ⟨hname,?_,hfile,?_,?_,hall⟩
    · simp [parent,hsome,hne]
    · simp only [pop,hsome,hempty]
      simp [ht]
    · rw [ht]
      rfl
  · have hlen : xs.length ≠ 0 := mt length_eq_zero_iff.mp hxs
    rw [if_neg hxs]
    refine ⟨hname,?_,hfile,?_,?_,hall⟩
    · simp only [parent,hsome]
      simp [hs]
    · simp only [pop,hsome,hempty]
      simp [hlen,ht]
    · rw [ht,isAbsolute_append hxs]

theorem exists_ends (h : components path ≠ []) : ∃ front name, Ends path front name := by
  have hne : trimEnd path ≠ [] := by
    intro hnil
    rw [← components_trimEnd,hnil] at h
    exact h rfl
  obtain ⟨-,hclean⟩ | ⟨xs,ys,hs,hclean,hsome⟩ := rfind_cases (trimEnd path)
  · exact ⟨_,_,ends_alone ⟨hne,hclean⟩⟩
  · refine ⟨_,_,ends_after hs ⟨?_,hclean⟩ hsome⟩
    rintro rfl
    exact trimEnd_ne_concat path xs hs

/-- Joining appends the components, the parent and `pop` drop the last one, which `file_name`
names, and the two comparisons are those of the lists. -/
theorem path_laws :
    (∀ p q, isAbsolute q = false → collect (join p q) = collect p ++ collect q) ∧
    (∀ p, (∃ c ∈ collect p, c ≠ .rootDir) → ∃ up name, parent p = some up ∧
      fileName p = some name ∧ collect p = collect up ++ [.ofPart name] ∧
      (pop p).1 = true ∧ collect (pop p).2 = collect up) ∧
    (∀ p base, startsWith p base = true ↔ collect base <+: collect p) ∧
    ∀ p child, endsWith p child = true ↔ collect child <:+ collect p := by
  refine ⟨fun p q => collect_join,?_,?_,?_⟩
  · rintro p ⟨c,hc,hroot⟩
    have hne : components p ≠ [] := by
      intro hnil
      rw [collect_eq,hnil] at hc
      split at hc
      · exact hroot (mem_singleton.mp hc)
      · cases hc
    obtain ⟨front,name,h⟩ := exists_ends hne
    refine ⟨front,name,h.parent,h.fileName,?_,by rw [h.pop],by rw [h.pop]⟩
    rw [collect_eq,h.components,collect_eq front,h.isAbsolute,map_append,append_assoc]
    rfl
  · intro p base
    rw [startsWith,Bool.and_eq_true,decide_eq_true_eq,beq_iff_eq,prefix_iff_eq_take]
    exact ⟨fun h => h.2.symm,fun h => ⟨(prefix_iff_eq_take.mpr h).length_le,h.symm⟩⟩
  · intro p child
    rw [endsWith,Bool.and_eq_true,decide_eq_true_eq,beq_iff_eq,suffix_iff_eq_drop]
    exact ⟨fun h => h.2.symm,fun h => ⟨(suffix_iff_eq_drop.mpr h).length_le,h.symm⟩⟩

theorem path_laws_dots :
    isAbsolute ['.','/','b'] = false ∧
      collect (join ['/','a','/','/','.','.'] ['.','/','b']) =
        collect ['/','a','/','/','.','.'] ++ collect ['.','/','b'] ∧
      ∃ up name, parent ['/','a','/','/','.','.'] = some up ∧
        fileName ['/','a','/','/','.','.'] = some name ∧
        collect ['/','a','/','/','.','.'] = collect up ++ [.ofPart name] := by
  obtain ⟨hjoin,hparent,-⟩ := path_laws
  refine ⟨by decide,hjoin _ _ (by decide),?_⟩
  obtain ⟨up,name,hup,hname,hcollect,-⟩ := hparent ['/','a','/','/','.','.']
    ⟨.parentDir,by rw [collect_eq]; decide,by decide⟩
  exact ⟨up,name,hup,hname,hcollect⟩

end Path

end Athera
