import Mathlib.Data.List.Basic

/-!
# Open files

The part of `fs/vfs.rs` that the system calls use. The model keeps the offsets of the buffer that an
operation touches.
-/

namespace Athera

inductive FsError where
  | notFound
  | notDir
  | isDir
  | alreadyExists
  | notEmpty
  | permissionDenied
  | nameTooLong
  | tooManyLinks
  | crossDevice
  | noSpace
  | invalid
  | io
  | outOfMemory
  | unsupported
deriving DecidableEq, Repr

def FsError.errno : FsError → Nat
  | .notFound => 2
  | .io => 5
  | .outOfMemory => 12
  | .permissionDenied => 13
  | .alreadyExists => 17
  | .crossDevice => 18
  | .notDir => 20
  | .isDir => 21
  | .invalid => 22
  | .noSpace => 28
  | .nameTooLong => 36
  | .notEmpty => 39
  | .tooManyLinks => 40
  | .unsupported => 95

/-- `read_at` and `write_at` on a buffer of `len` bytes: the result, and the touched offsets. -/
structure FileOps where
  readAt : (len offset : Nat) → Except FsError Nat × List Nat
  writeAt : (len offset : Nat) → Except FsError Nat × List Nat
  readBounded : ∀ len offset, ∀ i ∈ (readAt len offset).2, i < len
  writeBounded : ∀ len offset, ∀ i ∈ (writeAt len offset).2, i < len

structure File where
  ops : FileOps
  offset : Nat
  accmode : Nat

namespace File

def canRead (f : File) : Bool := f.accmode != 1

def canWrite (f : File) : Bool := f.accmode != 0

/-- The new offset after an operation that returned `r`. -/
def advance (f : File) (r : Except FsError Nat) : File :=
  match r with
  | .ok n => { f with offset := f.offset + n }
  | .error _ => f

def read (f : File) (len : Nat) : Except FsError Nat × File × List Nat :=
  let (r, touched) := f.ops.readAt len f.offset
  (r, f.advance r, touched)

def write (f : File) (len : Nat) : Except FsError Nat × File × List Nat :=
  let (r, touched) := f.ops.writeAt len f.offset
  (r, f.advance r, touched)

end File

/-- `/dev/zero`. -/
def zeroDevice : FileOps where
  readAt len _ := (.ok len, List.range len)
  writeAt len _ := (.ok len, [])
  readBounded := by simp
  writeBounded := by simp

end Athera
