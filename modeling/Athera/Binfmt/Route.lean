import Athera.Framework.Orbit
import Athera.Fs.File
import Athera.Trie.Trie
import Mathlib.Data.Set.Finite.List
import Mathlib.Data.FinEnum

/-!
# Routing of executables

`binfmt.rs`. Strings are their UTF-8 bytes. The fuel counts the nested calls of `route_inner`.
-/

namespace Athera

open Framework

inductive RouteError where
  | noAccess
  | fsError (e : FsError)
  | unsupportedBinfmt
  | execFailed
deriving DecidableEq, Repr

inductive Handler where
  | execElf
  | execShebang
deriving DecidableEq, Repr

namespace Utf8

/-- `U+FFFD`. -/
def replacement : List UInt8 := [0xef,0xbf,0xbd]

def isContinuation (b : UInt8) : Bool := 0x80 ≤ b && b ≤ 0xbf

/-- The second bytes that are allowed after the first byte of a longer sequence. -/
def secondOk (first second : UInt8) : Bool :=
  if first = 0xe0 then 0xa0 ≤ second && second ≤ 0xbf
  else if first = 0xed then 0x80 ≤ second && second ≤ 0x9f
  else if first = 0xf0 then 0x90 ≤ second && second ≤ 0xbf
  else if first = 0xf4 then 0x80 ≤ second && second ≤ 0x8f
  else isContinuation second

def width (first : UInt8) : Nat :=
  if first < 0x80 then 1
  else if first < 0xc2 then 0
  else if first < 0xe0 then 2
  else if first < 0xf0 then 3
  else if first < 0xf5 then 4
  else 0

/-- The sequence at the front: whether it is valid, and how many bytes it has. -/
def front (first : UInt8) (rest : List UInt8) : Bool × Nat :=
  match width first, rest with
  | 0, _ => (false, 1)
  | 1, _ => (true, 1)
  | _, [] => (false, 1)
  | w, second :: rest =>
    if secondOk first second = false then (false, 1)
    else if w = 2 then (true, 2)
    else
      match rest with
      | [] => (false, 2)
      | third :: rest =>
        if isContinuation third = false then (false, 2)
        else if w = 3 then (true, 3)
        else
          match rest with
          | [] => (false, 3)
          | fourth :: _ => if isContinuation fourth then (true, 4) else (false, 3)

def lossyLoop : Nat → List UInt8 → List UInt8
  | 0, _ => []
  | _, [] => []
  | fuel + 1, b :: bs =>
    let f := front b bs
    (if f.1 then (b :: bs).take f.2 else replacement) ++ lossyLoop fuel ((b :: bs).drop f.2)

def fromUtf8Lossy (bytes : List UInt8) : List UInt8 := lossyLoop bytes.length bytes

end Utf8

namespace Shebang

structure SplitState where
  out : List (List UInt8)
  buf : List UInt8
  inSingle : Bool
  inDouble : Bool
  tokenStarted : Bool

def newline : UInt8 := 10
def carriageReturn : UInt8 := 13
def space : UInt8 := 32
def tab : UInt8 := 9
def singleQuote : UInt8 := 39
def doubleQuote : UInt8 := 34
def backslash : UInt8 := 92

def flush (st : SplitState) : SplitState :=
  if st.tokenStarted then
    let s := Utf8.fromUtf8Lossy st.buf
    { st with out := if s.isEmpty then st.out else st.out ++ [s], buf := [], tokenStarted := false }
  else st

def push (st : SplitState) (b : UInt8) : SplitState := { st with buf := st.buf ++ [b] }

def splitLoop : List UInt8 → SplitState → SplitState
  | [], st => st
  | ch :: rest, st =>
    if ch = newline ∨ ch = carriageReturn then st
    else if st.inSingle = false ∧ st.inDouble = false then
      if ch = space ∨ ch = tab then splitLoop rest (flush st)
      else if ch = singleQuote then splitLoop rest { st with inSingle := true, tokenStarted := true }
      else if ch = doubleQuote then splitLoop rest { st with inDouble := true, tokenStarted := true }
      else if ch = backslash then
        match rest with
        | [] => st
        | escaped :: rest' =>
          if escaped = newline then splitLoop (escaped :: rest') st
          else splitLoop rest' { push st escaped with tokenStarted := true }
      else splitLoop rest { push st ch with tokenStarted := true }
    else if st.inSingle then
      if ch = singleQuote then splitLoop rest { st with inSingle := false }
      else splitLoop rest (push st ch)
    else
      if ch = doubleQuote then splitLoop rest { st with inDouble := false }
      else if ch = backslash then
        match rest with
        | [] => st
        | escaped :: rest' =>
          if escaped = newline then splitLoop (escaped :: rest') st
          else splitLoop rest' (push st escaped)
      else splitLoop rest (push st ch)

def shebangSplit (args : List UInt8) : List (List UInt8) :=
  (flush (splitLoop args ⟨[],[],false,false,false⟩)).out

/-- The rest of the first line behind the magic number. -/
def rawPath (head : List UInt8) : List UInt8 :=
  (head.drop 2).takeWhile fun c => c != newline && c != carriageReturn

/-- The argument list for the interpreter. -/
def newArgv (head path : List UInt8) (argv : List (List UInt8)) : List (List UInt8) :=
  shebangSplit (rawPath head) ++ path :: argv.drop 1

end Shebang

/-- The result of opening a file and reading its first bytes. -/
structure ExecFile where
  userExecute : Bool
  head : Except FsError (List UInt8)
  bounded : ∀ bytes, head = .ok bytes → bytes.length ≤ 128

namespace Binfmt

def elfMagic : List Nat := [0x7f,0x45,0x4c,0x46]

def shebangMagic : List Nat := [0x23,0x21]

def binfmts : Trie Nat Handler :=
  ((Trie.new.insert elfMagic .execElf).2.insert shebangMagic .execShebang).2

def lookup (head : List UInt8) : Option Handler :=
  (binfmts.longestPrefix (head.map UInt8.toNat)).map Prod.snd

open Shebang

/-- The files, and what the loader makes of a program. -/
structure World where
  open_ : List UInt8 → Except FsError ExecFile
  load : Option Nat → List UInt8 → List (List UInt8) → List (List UInt8) → Except RouteError Unit

def routeInner (fs : World) : Nat → Option Nat → List UInt8 → List (List UInt8) →
    List (List UInt8) → Option (Except RouteError Unit)
  | 0, _, _, _, _ => none
  | fuel + 1, tid, path, argv, envp =>
    match fs.open_ path with
    | .error e => some (.error (.fsError e))
    | .ok file =>
      if file.userExecute = false then some (.error .noAccess)
      else
        match file.head with
        | .error e => some (.error (.fsError e))
        | .ok head =>
          match lookup head with
          | none => some (.error .unsupportedBinfmt)
          | some .execElf => some (fs.load tid path argv envp)
          | some .execShebang =>
            let newArgv := newArgv head path argv
            match newArgv.head? with
            | none => some (.error .execFailed)
            | some interpreter => routeInner fs fuel tid interpreter newArgv envp

def route (fs : World) (fuel : Nat) (path : List UInt8) (argv envp : List (List UInt8)) :
    Option (Except RouteError Unit) := routeInner fs fuel none path argv envp

def routeAt (fs : World) (fuel tid : Nat) (path : List UInt8) (argv envp : List (List UInt8)) :
    Option (Except RouteError Unit) := routeInner fs fuel (some tid) path argv envp

/-- The interpreter of an executable script: the first word of its first line, and the script
itself when there is none. -/
def interpreter (fs : World) (path : List UInt8) : Option (List UInt8) :=
  match fs.open_ path with
  | .error _ => none
  | .ok file =>
    match file.userExecute, file.head with
    | true, .ok head =>
      if lookup head = some .execShebang then
        some ((shebangSplit (rawPath head)).headD path)
      else none
    | _, _ => none

variable {fs : World} {path : List UInt8}

theorem head_newArgv (head path : List UInt8) (argv : List (List UInt8)) :
    (newArgv head path argv).head? =
      some ((shebangSplit (rawPath head)).headD path) := by
  rw [newArgv]
  cases shebangSplit (rawPath head) <;> rfl

/-- A call of `route_inner` ends, or it calls itself with the interpreter. -/
theorem routeInner_succ (fs : World) (fuel : Nat) (tid : Option Nat) (path : List UInt8)
    (argv envp : List (List UInt8)) :
    (interpreter fs path = none ∧ ∃ r, routeInner fs (fuel+1) tid path argv envp = some r) ∨
    ∃ script argv', interpreter fs path = some script ∧
      routeInner fs (fuel+1) tid path argv envp = routeInner fs fuel tid script argv' envp := by
  rw [routeInner,interpreter]
  cases fs.open_ path with
  | error e => exact .inl ⟨rfl,_,rfl⟩
  | ok file =>
    simp only
    cases file.userExecute with
    | false => exact .inl ⟨rfl,_,rfl⟩
    | true =>
      cases file.head with
      | error e => exact .inl ⟨rfl,_,rfl⟩
      | ok head =>
        simp only
        cases lookup head with
        | none => exact .inl ⟨rfl,_,rfl⟩
        | some handler =>
          cases handler with
          | execElf => exact .inl ⟨rfl,_,rfl⟩
          | execShebang =>
            refine .inr ⟨_,newArgv head path argv,rfl,?_⟩
            simp only [head_newArgv]
            rfl

theorem routeInner_isSome (fs : World) (fuel : Nat) (tid : Option Nat) (path : List UInt8)
    (argv envp : List (List UInt8)) :
    (∃ r, routeInner fs fuel tid path argv envp = some r) ↔ orbit (interpreter fs) path fuel = none := by
  induction fuel generalizing path argv with
  | zero =>
    constructor
    · intro ⟨r,hr⟩
      cases hr
    · intro hnone
      cases hnone
  | succ fuel ih =>
    rw [orbit_succ]
    rcases routeInner_succ fs fuel tid path argv envp with ⟨hend,hr⟩ | ⟨script,argv',hscript,hr⟩
    · rw [hend]
      exact ⟨fun _ => rfl,fun _ => hr⟩
    · rw [hscript,hr]
      exact ih script argv'

/-- Every interpreter but the script itself comes from the first bytes of a file. -/
theorem interpreter_mem {path script : List UInt8} (h : interpreter fs path = some script) :
    script ∈ (fun head => (shebangSplit (rawPath head)).headD []) ''
      {head | head.length ≤ 128} ∨ script = path := by
  rw [interpreter] at h
  cases hopen : fs.open_ path with
  | error e =>
    rw [hopen] at h
    cases h
  | ok file =>
    rw [hopen] at h
    simp only at h
    split at h
    · rename_i head _ hhead
      split at h
      · cases h
        cases hsplit : shebangSplit (rawPath head) with
        | nil => exact .inr rfl
        | cons first rest =>
          refine .inl ⟨head,file.bounded head hhead,?_⟩
          simp only [hsplit]
          rfl
      · cases h
    · cases h

def Finishes (call : Nat → Option (Except RouteError Unit)) : Prop := ∃ fuel r, call fuel = some r

theorem finishes_iff (tid : Option Nat) (argv envp : List (List UInt8)) :
    Finishes (fun fuel => routeInner fs fuel tid path argv envp) ↔ Simple (interpreter fs) path := by
  have hfinite := (List.finite_length_le UInt8 128).image
    fun head => (shebangSplit (rawPath head)).headD []
  rw [← stops_iff_simple hfinite fun x y hxy => interpreter_mem hxy]
  constructor
  · intro ⟨fuel,hr⟩
    exact ⟨fuel,(routeInner_isSome fs fuel tid path argv envp).mp hr⟩
  · intro ⟨fuel,hr⟩
    exact ⟨fuel,(routeInner_isSome fs fuel tid path argv envp).mpr hr⟩

/-- Routing ends exactly when the interpreters, from the path on, never lead back to a script that
has been met. -/
theorem routing_terminates_iff (fs : World) (path : List UInt8) (argv envp : List (List UInt8)) :
    (Finishes (fun fuel => route fs fuel path argv envp) ↔ Simple (interpreter fs) path) ∧
    ∀ tid, Finishes (fun fuel => routeAt fs fuel tid path argv envp) ↔ Simple (interpreter fs) path :=
  ⟨finishes_iff none argv envp,fun tid => finishes_iff (some tid) argv envp⟩

def scriptFile (bytes : List UInt8) (h : bytes.length ≤ 128) : ExecFile :=
  ⟨true,.ok bytes,fun _ hb => Except.ok.inj hb ▸ h⟩

/-- `/a` is a script that begins with `#!/a`, and `/b` is one that begins with `#!` alone. -/
def selfScripts : World where
  open_ path :=
    if path = [47,97] then .ok (scriptFile [35,33,47,97,10] (by decide))
    else if path = [47,98] then .ok (scriptFile [35,33,10] (by decide))
    else .error .notFound
  load _ _ _ _ := .ok ()

theorem self_script_never_routed :
    ¬ Finishes (fun fuel => route selfScripts fuel [47,97] [] []) ∧
    ¬ Finishes (fun fuel => route selfScripts fuel [47,98] [] []) := by
  have hloop : ∀ path, interpreter selfScripts path = some path →
      ¬ Finishes (fun fuel => route selfScripts fuel path [] []) := by
    intro path hself hfinishes
    have hsimple := (finishes_iff none [] []).mp hfinishes
    have hone : orbit (interpreter selfScripts) path 1 = some path := by
      rw [orbit_succ,hself]
      rfl
    exact absurd (hsimple 0 1 path rfl hone) (by decide)
  exact ⟨hloop _ (by decide),hloop _ (by decide)⟩

/-- The argument list with which a call of `route_inner` calls itself. -/
def nextArgv (fs : World) (path : List UInt8) (argv : List (List UInt8)) :
    Option (List (List UInt8)) :=
  match fs.open_ path with
  | .error _ => none
  | .ok file =>
    match file.userExecute, file.head with
    | true, .ok head =>
      if lookup head = some .execShebang then some (newArgv head path argv) else none
    | _, _ => none

variable {file : ExecFile} {head contents : List UInt8} {argv envp : List (List UInt8)}
  {tid : Option Nat} {fuel : Nat}

theorem routeInner_eq_next {next : List (List UInt8)} (h : nextArgv fs path argv = some next) :
    routeInner fs (fuel+1) tid path argv envp = routeInner fs fuel tid (next.headD path) next envp := by
  rw [nextArgv] at h
  split at h
  · cases h
  · rename_i file hopen
    split at h
    · rename_i head hexec hhead
      split at h
      · rename_i hlookup
        cases h
        rw [routeInner,hopen]
        simp only [hexec,hhead,hlookup]
        cases hsplit : shebangSplit (rawPath head) <;> simp [newArgv,hsplit]
      · cases h
    · cases h

theorem lookup_shebang (rest : List UInt8) : lookup (0x23::0x21::rest) = some .execShebang := by
  cases rest <;> rfl

/-- A script is started with the arguments of its complete first line, or not at all: `route_inner`
reads the front of the file. -/
def Honoured (contents : List UInt8) : Prop :=
  ∀ (fs : World) (path : List UInt8) (file : ExecFile) (tid : Option Nat) (argv envp : List (List UInt8)),
    fs.open_ path = .ok file → file.head = .ok (contents.take 128) →
    nextArgv fs path argv = some (newArgv contents path argv) ∨
      ∃ fuel e, routeInner fs fuel tid path argv envp = some (.error e)

theorem takeWhile_take (p : UInt8 → Bool) (n : Nat) (l : List UInt8) :
    (l.take n).takeWhile p = (l.takeWhile p).take n := by
  induction l generalizing n with
  | nil => simp
  | cons x l ih =>
    cases n with
    | zero => simp
    | succ n =>
      by_cases hx : p x = true
      · simp [hx,ih]
      · simp [hx]

theorem rawPath_take (contents : List UInt8) :
    rawPath (contents.take 128) = (rawPath contents).take 126 := by
  rw [rawPath,List.drop_take,takeWhile_take]
  rfl

/-- A world of scripts with these contents, in which the interpreter of the cut line is a program. -/
def scriptWorld (contents : List UInt8) : World where
  open_ path :=
    if (shebangSplit ((rawPath contents).take 126)).head? = some path then
      .ok (scriptFile [0x7f,0x45,0x4c,0x46] (by decide))
    else .ok (scriptFile (contents.take 128) (by simp))
  load _ _ _ _ := .ok ()

theorem nextArgv_eq {rest : List UInt8} (hopen : fs.open_ path = .ok file)
    (hexec : file.userExecute = true) (hhead : file.head = .ok ((0x23::0x21::rest).take 128)) :
    nextArgv fs path argv = some (newArgv ((0x23::0x21::rest).take 128) path argv) := by
  rw [nextArgv,hopen]
  simp only [hexec,hhead]
  exact if_pos (lookup_shebang (rest.take 126))

theorem scriptWorld_no_error (rest : List UInt8) (fuel : Nat) (path : List UInt8)
    (argv : List (List UInt8)) (e : RouteError) :
    routeInner (scriptWorld (0x23::0x21::rest)) fuel tid path argv envp ≠ some (.error e) := by
  induction fuel generalizing path argv with
  | zero => exact fun h => nomatch h
  | succ fuel ih =>
    by_cases hpath : (shebangSplit
        ((rawPath (0x23::0x21::rest)).take 126)).head? = some path
    · rw [routeInner,show (scriptWorld _).open_ path = _ from if_pos hpath]
      exact fun h => nomatch h
    · rw [routeInner_eq_next (nextArgv_eq (if_neg hpath) rfl rfl)]
      exact ih _ _

theorem Honoured.tokens_eq {rest : List UInt8} (h : Honoured (0x23::0x21::rest)) :
    shebangSplit ((rawPath (0x23::0x21::rest)).take 126) =
      shebangSplit (rawPath (0x23::0x21::rest)) := by
  generalize htokens : shebangSplit ((rawPath (0x23::0x21::rest)).take 126) = tokens
  have hother : ¬ tokens.head? = some (tokens.headD [] ++ [0]) := by
    cases tokens <;> simp
  have hopen : (scriptWorld (0x23::0x21::rest)).open_ (tokens.headD [] ++ [0]) = _ :=
    if_neg (htokens ▸ hother)
  rcases h _ _ _ none [] [] hopen rfl with hnext | ⟨fuel,e,herr⟩
  · rw [nextArgv_eq hopen rfl rfl,Option.some.injEq,newArgv,rawPath_take,htokens] at hnext
    exact List.append_cancel_right hnext
  · exact absurd herr (scriptWorld_no_error rest fuel _ _ e)

/-- A script is always started with its complete interpreter line exactly when the arguments of the
line are those of its first 126 bytes. -/
theorem interpreter_line_honoured_iff (rest : List UInt8) : Honoured (0x23 :: 0x21 :: rest) ↔
    shebangSplit ((rawPath (0x23 :: 0x21 :: rest)).take 126) =
      shebangSplit (rawPath (0x23 :: 0x21 :: rest)) := by
  refine ⟨Honoured.tokens_eq,?_⟩
  intro hsame fs path file tid argv envp hopen hhead
  by_cases hexec : file.userExecute = true
  · left
    rw [nextArgv_eq hopen hexec hhead,newArgv,rawPath_take,hsame,newArgv]
  · refine .inr ⟨1,.noAccess,?_⟩
    rw [routeInner,hopen]
    exact if_pos (Bool.eq_false_iff.mpr hexec)

/-- A name of 127 bytes loses its last one. -/
theorem interpreter_name_truncated : ¬ Honoured (0x23 :: 0x21 :: 0x2f :: List.replicate 126 0x61) :=
  fun h => absurd (Honoured.tokens_eq h) (by decide +kernel)

end Binfmt

end Athera
