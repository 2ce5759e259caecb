import Athera.Fs.File
import Athera.Trie.Trie
import Mathlib.Data.Char
import Mathlib.Data.List.Lex
import Mathlib.Data.List.DropRight

/-!
# Mount points

The mount table of `fs/vfs.rs`: a trie over path components.
-/

namespace Athera

open Framework List

variable {path : List Char}

namespace Path

def separator : Char := '/'

def isAbsolute (path : List Char) : Bool := path.head? == some separator

def components (path : List Char) : List (List Char) :=
  (path.splitOn separator).filter fun s => !s.isEmpty

/-- `trim_end_matches('/')`. -/
def trimEnd (path : List Char) : List Char := path.rdropWhile fun c => c == separator

def relativePath (rest : List (List Char)) : List Char :=
  let path := rest.flatMap (separator :: ·)
  if path.isEmpty then [separator] else path

theorem components_nil : components [] = [] := rfl

theorem components_append (xs ys : List Char) :
    components (xs++separator::ys) = components xs++components ys := by
  simp only [components,splitOn_eq_splitOnP]
  rw [splitOnP_append_cons (p := fun c => c == separator) xs ys (beq_self_eq_true separator),
    filter_append]

theorem components_concat (xs : List Char) : components (xs ++ [separator]) = components xs := by
  rw [components_append,components_nil,append_nil]

theorem components_trimEnd (path : List Char) : components (trimEnd path) = components path := by
  induction path using List.reverseRecOn with
  | nil => rfl
  | append_singleton xs c ih =>
    rw [trimEnd,rdropWhile_concat]
    by_cases hc : c = separator
    · subst hc
      rw [components_concat]
      exact ih
    · rw [if_neg (by simpa using hc)]

/-- What a component is. -/
structure IsName (s : List Char) : Prop where
  nonempty : s ≠ []
  clean : separator ∉ s

variable {s : List Char}

theorem IsName.components (h : IsName s) : components s = [s] := by
  have hsplit : s.splitOn separator = [s] := by
    apply splitOnP_eq_singleton
    intro c hc
    rw [beq_eq_false_iff_ne]
    rintro rfl
    exact h.clean hc
  rw [Path.components,hsplit]
  simp [h.nonempty]

theorem not_mem_of_mem_splitOn (hs : s ∈ path.splitOn separator) : separator ∉ s := by
  rw [splitOn_eq_splitOnP] at hs
  induction path generalizing s with
  | nil =>
    rw [splitOnP_nil,mem_singleton] at hs
    rw [hs]
    exact not_mem_nil
  | cons c cs ih =>
    rw [splitOnP_cons_eq_if_modifyHead] at hs
    split at hs
    · rcases mem_cons.mp hs with rfl | hs
      · exact not_mem_nil
      · exact ih hs
    · rename_i hc
      cases hsplit : cs.splitOnP (fun c => c == separator) with
      | nil =>
        rw [hsplit] at hs
        exact absurd hs not_mem_nil
      | cons first rest =>
        rw [hsplit] at hs
        rcases mem_cons.mp hs with rfl | hs
        · have hfirst : separator ∉ first := ih (hsplit ▸ mem_cons_self)
          rw [mem_cons]
          rintro (rfl | hmem)
          · exact hc (beq_self_eq_true separator)
          · exact hfirst hmem
        · exact ih (hsplit ▸ mem_cons_of_mem first hs)

theorem isName_of_mem_components (h : s ∈ components path) : IsName s := by
  obtain ⟨hs,hne⟩ := mem_filter.mp h
  refine ⟨?_,not_mem_of_mem_splitOn hs⟩
  rintro rfl
  exact absurd hne (by decide)

theorem components_join {rest : List (List Char)} (hs : IsName s) (hrest : ∀ r ∈ rest, IsName r) :
    components (s++rest.flatMap (separator :: ·)) = s::rest := by
  induction rest generalizing s with
  | nil => rw [flatMap_nil,append_nil,hs.components]
  | cons r rest ih =>
    rw [flatMap_cons,cons_append,components_append,hs.components,
      ih (hrest r mem_cons_self) fun x hx => hrest x (mem_cons_of_mem r hx)]
    rfl

theorem components_relativePath {rest : List (List Char)} (hrest : ∀ r ∈ rest, IsName r) :
    components (relativePath rest) = rest := by
  cases rest with
  | nil => rfl
  | cons r rest =>
    exact components_join (hrest r mem_cons_self) fun x hx => hrest x (mem_cons_of_mem r hx)

theorem isAbsolute_relativePath (rest : List (List Char)) : isAbsolute (relativePath rest) = true := by
  cases rest <;> rfl

end Path

/-- The part of a root directory entry that comes from the path, and what `stat` reported. -/
structure Dentry (S : Type) where
  name : List Char
  stat : S

structure SuperBlock (F S : Type) where
  fs : F
  root : Dentry S

structure MountEntry (F S : Type) where
  dentry : Dentry S
  superblock : SuperBlock F S

structure Vfs (F S : Type) where
  mountTable : Trie (List Char) (MountEntry F S)
  superBlocks : List (SuperBlock F S)

/-- An attempt to mount, with what the file system answers to `stat("/")`. -/
structure MountRequest (F S : Type) where
  path : List Char
  fs : F
  stat : Except FsError S

namespace Vfs

open Athera.Path

variable {F S : Type}

def new : Vfs F S := ⟨.new,[]⟩

def mountPath (path : List Char) : Except FsError (List Char) :=
  if isAbsolute path then
    let path := trimEnd path
    .ok (if path.isEmpty then [separator] else path)
  else .error .invalid

def rootDirEntry (path : List Char) (stat : S) : Dentry S :=
  ⟨if path = [separator] then [separator] else (path.splitOn separator).getLast?.getD path,stat⟩

def mount (v : Vfs F S) (path : List Char) (fs : F) (stat : Except FsError S) :
    Except FsError Unit × Vfs F S :=
  match mountPath path with
  | .error e => (.error e, v)
  | .ok path =>
    match stat with
    | .error e => (.error e, v)
    | .ok stat =>
      let key := components path
      if v.mountTable.containsKey key then (.error .alreadyExists, v)
      else
        let root := rootDirEntry path stat
        let superblock := ⟨fs,root⟩
        (.ok (), ⟨(v.mountTable.insert key ⟨root,superblock⟩).2,v.superBlocks ++ [superblock]⟩)

def resolve (v : Vfs F S) (path : List Char) : Except FsError (F × List Char) :=
  if isAbsolute path then
    let components := components path
    match v.mountTable.longestPrefix components with
    | none => .error .notFound
    | some (key, mount) => .ok (mount.superblock.fs, relativePath (components.drop key.length))
  else .error .invalid

def step (v : Vfs F S) (r : MountRequest F S) : Except FsError Unit × Vfs F S :=
  v.mount r.path r.fs r.stat

/-- The mount points that the successful ones of the attempts add. -/
def mountPoints (v : Vfs F S) : List (MountRequest F S) → List (List (List Char) × F)
  | [] => []
  | r :: rs =>
    (if (v.step r).1.isOk then [(components r.path, r.fs)] else []) ++ mountPoints (v.step r).2 rs

theorem components_mountPath {p : List Char} (h : mountPath path = .ok p) :
    components p = components path := by
  rw [mountPath] at h
  split at h
  · cases h
    split
    · rename_i hempty
      rw [← components_trimEnd path,List.isEmpty_iff.mp hempty]
      rfl
    · exact components_trimEnd path
  · cases h

theorem mount_cases (v : Vfs F S) (path : List Char) (fs : F) (stat : Except FsError S) :
    (isAbsolute path = false ∧ v.mount path fs stat = (.error .invalid, v)) ∨
    (isAbsolute path = true ∧ ∃ e, stat = .error e ∧ v.mount path fs stat = (.error e, v)) ∨
    (isAbsolute path = true ∧ ∃ s, stat = .ok s ∧
      (v.mountTable.get (components path)).isSome = true ∧
      v.mount path fs stat = (.error .alreadyExists, v)) ∨
    (isAbsolute path = true ∧ ∃ s root, stat = .ok s ∧ v.mountTable.get (components path) = none ∧
      v.mount path fs stat = (.ok (), ⟨(v.mountTable.insert (components path) ⟨root,⟨fs,root⟩⟩).2,
        v.superBlocks ++ [⟨fs,root⟩]⟩)) := by
  cases habs : isAbsolute path with
  | false =>
    have hp : mountPath path = .error .invalid := by rw [mountPath,habs]; rfl
    exact .inl ⟨rfl,by rw [mount,hp]⟩
  | true =>
    obtain ⟨p,hp⟩ : ∃ p, mountPath path = .ok p := by
      rw [mountPath,habs]
      exact ⟨_,rfl⟩
    have hkey := components_mountPath hp
    cases stat with
    | error e => exact .inr (.inl ⟨rfl,e,rfl,by rw [mount,hp]⟩)
    | ok s =>
      cases hget : v.mountTable.get (components path) with
      | some entry =>
        refine .inr (.inr (.inl ⟨rfl,s,rfl,rfl,?_⟩))
        rw [mount,hp]
        simp only [Trie.containsKey,hkey,hget]
        rfl
      | none =>
        refine .inr (.inr (.inr ⟨rfl,s,rootDirEntry p s,rfl,rfl,?_⟩))
        rw [mount,hp]
        simp only [Trie.containsKey,hkey,hget]
        rfl

theorem mount_unchanged {v : Vfs F S} {fs : F} {stat : Except FsError S}
    {e : FsError} (h : (v.mount path fs stat).1 = .error e) : (v.mount path fs stat).2 = v := by
  rcases mount_cases v path fs stat with ⟨_,hm⟩ | ⟨_,_,_,hm⟩ | ⟨_,_,_,_,hm⟩ | ⟨_,_,_,_,_,hm⟩
  · rw [hm]
  · rw [hm]
  · rw [hm]
  · rw [hm] at h
    cases h

/-- The mount table holds the given mount points, each of them once. -/
structure Mounted (v : Vfs F S) (points : List (List (List Char) × F))
    (m : List (List Char) → Option (MountEntry F S)) : Prop where
  holds : v.mountTable.Holds m
  mem : ∀ key fs, (key, fs) ∈ points ↔ ∃ entry, m key = some entry ∧ entry.superblock.fs = fs
  nodup : (points.map Prod.fst).Nodup

variable {v : Vfs F S} {points : List (List (List Char) × F)}
  {m : List (List Char) → Option (MountEntry F S)}

theorem mounted_new : (new : Vfs F S).Mounted [] fun _ => none := by
  refine ⟨Trie.holds_new,fun key fs => ?_,nodup_nil⟩
  simp

section

variable (h : v.Mounted points m) {key : List (List Char)}
include h

theorem Mounted.eq_none_iff : m key = none ↔ ∀ fs, (key, fs) ∉ points := by
  constructor
  · intro hnone fs hmem
    obtain ⟨entry,hentry,_⟩ := (h.mem key fs).mp hmem
    rw [hnone] at hentry
    cases hentry
  · intro hno
    cases hm : m key with
    | none => rfl
    | some entry => exact absurd ((h.mem key _).mpr ⟨entry,hm,rfl⟩) (hno _)

theorem Mounted.insert (hkey : m key = none)
    (entry : MountEntry F S) (blocks : List (SuperBlock F S)) :
    ∃ m', (⟨(v.mountTable.insert key entry).2,blocks⟩ : Vfs F S).Mounted
      (points ++ [(key, entry.superblock.fs)]) m' := by
  have hno := h.eq_none_iff.mp hkey
  obtain ⟨m',hholds,hself,hother⟩ := h.holds.exists_insert key entry
  refine ⟨m',hholds,fun key' fs => ?_,?_⟩
  · rw [mem_append,mem_singleton,Prod.mk.injEq]
    by_cases hk : key' = key
    · subst hk
      rw [hself]
      constructor
      · rintro (hmem | ⟨_,rfl⟩)
        · exact absurd hmem (hno fs)
        · exact ⟨entry,rfl,rfl⟩
      · rintro ⟨_,he,rfl⟩
        cases he
        exact .inr ⟨rfl,rfl⟩
    · rw [hother key' hk,h.mem]
      exact ⟨fun hor => hor.resolve_right fun hand => hk hand.1,.inl⟩
  · rw [map_append,nodup_append]
    refine ⟨h.nodup,nodup_singleton _,?_⟩
    rintro a ha b hb rfl
    obtain ⟨point,hpoint,rfl⟩ := mem_map.mp ha
    have hkey' : point.1 = key := mem_singleton.mp hb
    exact hno point.2 (hkey' ▸ hpoint)

theorem Mounted.step (r : MountRequest F S) : ∃ m', (v.step r).2.Mounted
      (points++if (v.step r).1.isOk then [(components r.path, r.fs)] else []) m' := by
  rw [Vfs.step]
  rcases mount_cases v r.path r.fs r.stat with
    ⟨_,hm⟩ | ⟨_,_,_,hm⟩ | ⟨_,_,_,_,hm⟩ | ⟨_,_,root,_,hget,hm⟩
  · exact ⟨m,by rw [hm]; simpa [Except.isOk,Except.toBool] using h⟩
  · exact ⟨m,by rw [hm]; simpa [Except.isOk,Except.toBool] using h⟩
  · exact ⟨m,by rw [hm]; simpa [Except.isOk,Except.toBool] using h⟩
  · rw [h.holds.get] at hget
    rw [hm]
    exact h.insert hget ⟨root,⟨r.fs,root⟩⟩ _

theorem Mounted.run (rs : List (MountRequest F S)) :
    ∃ m', (after Vfs.step v rs).Mounted (points++v.mountPoints rs) m' := by
  induction rs generalizing v points m with
  | nil => exact ⟨m,by rw [mountPoints,append_nil]; exact h⟩
  | cons r rs ih =>
    obtain ⟨m',h'⟩ := h.step r
    rw [mountPoints,← append_assoc]
    exact ih h'

theorem Mounted.resolve_spec (habs : isAbsolute path = true) : match v.resolve path with
    | .ok (fs, relative) => ∃ p, (p, fs) ∈ points ∧ p <+: components path ∧
      (∀ q g, (q, g) ∈ points → q <+: components path → q.length ≤ p.length) ∧
      isAbsolute relative = true ∧ p++components relative = components path
    | .error e => e = .notFound ∧ ∀ q g, (q, g) ∈ points → ¬ q <+: components path := by
  have hlong := h.holds.longestPrefix_spec (components path)
  rw [resolve,if_pos habs]
  simp only
  cases hl : v.mountTable.longestPrefix (components path) with
  | none =>
    rw [hl] at hlong
    exact ⟨rfl,fun q g hmem hq => h.eq_none_iff.mp (hlong q hq) g hmem⟩
  | some found =>
    obtain ⟨p,entry⟩ := found
    rw [hl] at hlong
    obtain ⟨hp,hentry,hmax⟩ := hlong
    have hnames : ∀ r ∈ (components path).drop p.length, IsName r := fun r hr =>
      isName_of_mem_components (mem_of_mem_drop hr)
    refine ⟨p,(h.mem p _).mpr ⟨entry,hentry,rfl⟩,hp,fun q g hmem hq => hmax q hq ?_,
      isAbsolute_relativePath _,?_⟩
    · obtain ⟨other,hother,_⟩ := (h.mem q g).mp hmem
      rw [hother]
      rfl
    · rw [components_relativePath hnames]
      exact prefix_append_drop hp |>.symm

theorem Mounted.alreadyExists_iff (habs : isAbsolute path = true) (fs : F) (s : S) :
    (v.mount path fs (.ok s)).1 = .error .alreadyExists ↔ ∃ g, (components path, g) ∈ points := by
  rcases mount_cases v path fs (.ok s) with
    ⟨hrel,_⟩ | ⟨_,_,herr,_⟩ | ⟨_,_,_,hget,hm⟩ | ⟨_,_,_,_,hget,hm⟩
  · rw [habs] at hrel
    cases hrel
  · cases herr
  · rw [hm]
    rw [h.holds.get] at hget
    obtain ⟨entry,hentry⟩ := Option.isSome_iff_exists.mp hget
    exact ⟨fun _ => ⟨_,(h.mem _ _).mpr ⟨entry,hentry,rfl⟩⟩,fun _ => rfl⟩
  · rw [hm]
    rw [h.holds.get] at hget
    constructor
    · intro herr
      cases herr
    · rintro ⟨g,hg⟩
      exact absurd hg (h.eq_none_iff.mp hget g)

end

/-- After any attempts to mount: a path goes to the longest mount point that is a prefix of it; a
mount of a usable file system fails exactly at an existing mount point, and a failed mount changes
nothing. -/
theorem dispatch_longest_prefix (rs : List (MountRequest F S)) :
    let v := after step new rs
    let points := mountPoints new rs
    (points.map Prod.fst).Nodup ∧
    (∀ path, isAbsolute path = true → match v.resolve path with
      | .ok (fs, relative) => ∃ p, (p, fs) ∈ points ∧ p <+: components path ∧
        (∀ q g, (q, g) ∈ points → q <+: components path → q.length ≤ p.length) ∧
        isAbsolute relative = true ∧ p ++ components relative = components path
      | .error e => e = .notFound ∧ ∀ q g, (q, g) ∈ points → ¬ q <+: components path) ∧
    (∀ path fs s, isAbsolute path = true →
      ((v.mount path fs (.ok s)).1 = .error .alreadyExists ↔ ∃ g, (components path, g) ∈ points)) ∧
    (∀ path fs e, isAbsolute path = true → (v.mount path fs (.error e)).1 = .error e) ∧
    (∀ path fs stat, isAbsolute path = false → (v.mount path fs stat).1 = .error .invalid) ∧
    ∀ path fs stat e, (v.mount path fs stat).1 = .error e → (v.mount path fs stat).2 = v := by
  obtain ⟨m,h⟩ := mounted_new.run rs
  refine ⟨h.nodup,fun path habs => h.resolve_spec habs,
    fun path fs s habs => h.alreadyExists_iff habs fs s,fun path fs e habs => ?_,
    fun path fs stat hrel => ?_,fun path fs stat e he => mount_unchanged he⟩
  · rcases mount_cases (after step new rs) path fs (.error e) with
      ⟨hrel,_⟩ | ⟨_,_,herr,hm⟩ | ⟨_,_,hok,_⟩ | ⟨_,_,_,hok,_⟩
    · rw [habs] at hrel
      cases hrel
    · cases herr
      rw [hm]
    · cases hok
    · cases hok
  · rw [mount,mountPath,hrel]
    rfl

/-- With `/dev` mounted, a mount of `dev` and a mount of an unreadable file system at `/dev` fail
for other reasons. -/
theorem mount_fails_before_lookup :
    let v : Vfs Nat Unit := after step new [⟨"/dev".toList,1,.ok ()⟩]
    mountPoints new [(⟨"/dev".toList,1,.ok ()⟩ : MountRequest Nat Unit)] =
      [(components "dev".toList, 1)] ∧
    components "/dev".toList = components "dev".toList ∧
    (v.mount "dev".toList 2 (.ok ())).1 = .error .invalid ∧
    (v.mount "/dev".toList 2 (.error .io)).1 = .error .io := by
  decide

end Vfs

end Athera
