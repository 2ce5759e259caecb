import Athera.Framework.Action
import Athera.Framework.Answers
import Athera.Framework.Bytes
import Athera.Framework.Word

/-!
# Reading and writing a block device by bytes

`read_at` and `write_at` of `driver/virtio_blk.rs`. The device may fail any request, and fails those
beyond its end.
-/

namespace Athera

open Framework Action Memory

inductive IoError where
  | request
  | notReady
deriving DecidableEq, Repr

namespace VirtioBlk

def sectorSize : Nat := 512

/-- The sectors of a disk whose bytes a `usize` can count. -/
structure Disk where
  sectors : Nat
  fits : sectors * sectorSize < wordRange
  bytes : Memory

/-- What the device makes of a request: it performs it, or reports an error and may have performed it
or not. -/
inductive Reply where
  | done
  | failed (e : IoError) (performed : Bool)
deriving DecidableEq, Repr

structure Device where
  disk : Disk
  replies : Nat → Reply
  requests : Nat

namespace Device

def count (s : Device) : Device := { s with requests := s.requests + 1 }

def putSector (s : Device) (sector : Nat) (data : List UInt8) : Device :=
  { s with disk := { s.disk with bytes := s.disk.bytes.store (sector * sectorSize) data } }

/-- `submit_request` with `VIRTIO_BLK_T_IN`. -/
def readSector (sector : Nat) : Action IoError Device (List UInt8) := fun s =>
  if sector < s.disk.sectors then
    match s.replies s.requests with
    | .done => .ok (s.disk.bytes.slice (sector * sectorSize) sectorSize) s.count
    | .failed e _ => .err e s.count
  else .err .request s.count

/-- `submit_request` with `VIRTIO_BLK_T_OUT`. -/
def writeSector (sector : Nat) (data : List UInt8) : Action IoError Device Unit := fun s =>
  if sector < s.disk.sectors then
    match s.replies s.requests with
    | .done => .ok () (s.count.putSector sector data)
    | .failed e performed => .err e (if performed then s.count.putSector sector data else s.count)
  else .err .request s.count

end Device

/-- The part of a buffer that lies in one sector. -/
structure Chunk where
  sector : Nat
  shift : Nat
  n : Nat
deriving DecidableEq, Repr

/-- The chunk after `done` bytes of `len`; the position is a `usize`. -/
def chunkAt (offset done len : Nat) : Chunk :=
  let pos := wrap (offset + done)
  ⟨pos / sectorSize,pos % sectorSize,min (sectorSize - pos % sectorSize) (len - done)⟩

/-- The loop of `read_at`: the buffer and how much of it is filled. Each round fills at least one
byte. -/
def readLoop (offset : Nat) : Nat → List UInt8 → Nat → Action IoError Device (List UInt8 × Nat)
  | 0, buf, done => pure (buf, done)
  | fuel + 1, buf, done =>
    if done < buf.length then
      let c := chunkAt offset done buf.length
      Device.readSector c.sector >>= fun sectorBuf =>
        readLoop offset fuel (patch buf done ((sectorBuf.drop c.shift).take c.n)) (done + c.n)
    else pure (buf, done)

def readAt (buf : List UInt8) (offset : UInt64) : Action IoError Device (List UInt8 × Nat) :=
  readLoop offset.toNat buf.length buf 0

def writeChunk (c : Chunk) (data : List UInt8) : Action IoError Device Unit :=
  if c.shift = 0 ∧ c.n = sectorSize then Device.writeSector c.sector data
  else
    Device.readSector c.sector >>= fun sectorBuf =>
      Device.writeSector c.sector (patch sectorBuf c.shift data)

def writeLoop (offset : Nat) (buf : List UInt8) : Nat → Nat → Action IoError Device Nat
  | 0, done => pure done
  | fuel + 1, done =>
    if done < buf.length then
      let c := chunkAt offset done buf.length
      writeChunk c ((buf.drop done).take c.n) >>= fun _ => writeLoop offset buf fuel (done + c.n)
    else pure done

def writeAt (buf : List UInt8) (offset : UInt64) : Action IoError Device Nat :=
  writeLoop offset.toNat buf buf.length 0

section

variable {offset done len : Nat}

theorem chunkAt_spec (hpos : offset+done < wordRange) (hlt : done < len) :
    ∃ c, chunkAt offset done len = c ∧ c.sector*sectorSize+c.shift = offset+done ∧
      c.shift+c.n ≤ sectorSize ∧ 0 < c.n ∧ c.n ≤ len-done := by
  have hmod : (offset+done)%sectorSize < sectorSize := Nat.mod_lt _ (by decide)
  refine ⟨_,rfl,?_⟩
  simp only [chunkAt,wrap_of_lt hpos]
  refine ⟨?_,by omega,by omega,by omega⟩
  rw [Nat.mul_comm]
  exact Nat.div_add_mod _ _

end

section

variable {s : Device} {sector : Nat} {data : List UInt8}

theorem readSector_spec (s : Device) (sector : Nat) :
    wlp (Device.readSector sector) (fun b s' => sector < s.disk.sectors ∧ s'.disk = s.disk ∧
      b = s.disk.bytes.slice (sector*sectorSize) sectorSize) s := by
  intro b s' hstep
  unfold Device.readSector at hstep
  split at hstep
  next hlt =>
    split at hstep
    · obtain ⟨rfl,rfl⟩ := Outcome.ok.inj hstep
      exact ⟨hlt,rfl,rfl⟩
    · cases hstep
  next => cases hstep

theorem writeSector_spec (s : Device) (sector : Nat) (data : List UInt8) :
    wlp (Device.writeSector sector data) (fun _ s' => sector < s.disk.sectors ∧
      s'.disk = (s.putSector sector data).disk) s := by
  intro b s' hstep
  unfold Device.writeSector at hstep
  split at hstep
  next hlt =>
    split at hstep
    · obtain ⟨_,rfl⟩ := Outcome.ok.inj hstep
      exact ⟨hlt,rfl⟩
    · cases hstep
  next => cases hstep

end

def Disk.with (d : Disk) (m : Memory) : Disk := { d with bytes := m }

theorem writeChunk_spec (s : Device) {c : Chunk} (hc : c.shift+c.n ≤ sectorSize) {data : List UInt8}
    (hdata : data.length = c.n) : wlp (writeChunk c data) (fun _ s' => c.sector < s.disk.sectors ∧
      s'.disk = s.disk.with (s.disk.bytes.store (c.sector*sectorSize+c.shift) data)) s := by
  unfold writeChunk
  split
  next hwhole =>
    rw [hwhole.1,Nat.add_zero]
    exact writeSector_spec s c.sector data
  next =>
    rw [wlp_bind]
    refine wlp_mono (readSector_spec s c.sector) ?_
    intro b t hb
    obtain ⟨_,hdisk,hbuf⟩ := hb
    rw [hbuf]
    refine wlp_mono (writeSector_spec t c.sector _) ?_
    intro _ s' hs'
    rw [Device.putSector,hdisk,store_patch_slice (by rw [hdata]; exact hc)] at hs'
    exact hs'

theorem chunk_end_lt (d : Disk) {c : Chunk} (hc : c.shift+c.n ≤ sectorSize)
    (hsector : c.sector < d.sectors) : c.sector*sectorSize+c.shift+c.n < wordRange := by
  have hfits := d.fits
  have hmul := Nat.mul_le_mul_right sectorSize hsector
  rw [Nat.succ_mul] at hmul
  omega

theorem writeLoop_spec {offset : Nat} {buf : List UInt8} {fuel done : Nat} (s : Device)
    (hfuel : buf.length-done ≤ fuel) (hdone : done ≤ buf.length) (hpos : offset+done < wordRange) :
    wlp (writeLoop offset buf fuel done) (fun n s' => n = buf.length ∧
      s'.disk = s.disk.with (s.disk.bytes.store (offset+done) (buf.drop done))) s := by
  -- the rest of the buffer gets shorter with each round
  induction fuel generalizing done s with
  | zero =>
    obtain rfl : done = buf.length := by omega
    rw [writeLoop,wlp_pure,List.drop_length,store_nil]
    exact ⟨rfl,rfl⟩
  | succ fuel ih =>
    rw [writeLoop]
    split
    next hlt =>
      obtain ⟨c,hc,hsector,hshift,hn,hle⟩ := chunkAt_spec hpos hlt
      rw [hc]
      have hlen : ((buf.drop done).take c.n).length = c.n := by
        rw [List.length_take,List.length_drop]
        omega
      rw [wlp_bind]
      refine wlp_mono (writeChunk_spec s hshift hlen) ?_
      intro _ t ht
      obtain ⟨hin,hdisk⟩ := ht
      have hend := chunk_end_lt s.disk hshift hin
      refine wlp_mono (ih t (by omega) (by omega) (by omega)) ?_
      intro n s' hs'
      refine ⟨hs'.1,hs'.2.trans ?_⟩
      rw [hdisk,hsector]
      -- the chunk and the rest are the buffer from `done` on
      have hcut : (buf.drop done).take c.n++buf.drop (done+c.n) = buf.drop done := by
        rw [← List.drop_drop]
        exact List.take_append_drop _ _
      have hstore := store_append s.disk.bytes (offset+done) ((buf.drop done).take c.n)
        (buf.drop (done+c.n))
      rw [hcut,hlen,Nat.add_assoc] at hstore
      rw [hstore]
      rfl
    next hge =>
      obtain rfl : done = buf.length := by omega
      rw [wlp_pure,List.drop_length,store_nil]
      exact ⟨rfl,rfl⟩

theorem readLoop_spec {offset : Nat} {buf : List UInt8} {fuel done : Nat} (s : Device)
    (hfuel : buf.length-done ≤ fuel) (hdone : done ≤ buf.length) (hpos : offset+done < wordRange) :
    wlp (readLoop offset fuel buf done) (fun r s' => r.2 = buf.length ∧ s'.disk = s.disk ∧
      r.1 = buf.take done++s.disk.bytes.slice (offset+done) (buf.length-done)) s := by
  induction fuel generalizing buf done s with
  | zero =>
    obtain rfl : done = buf.length := by omega
    rw [readLoop]
    simp
  | succ fuel ih =>
    rw [readLoop]
    split
    next hlt =>
      obtain ⟨c,hc,hsector,hshift,hn,hle⟩ := chunkAt_spec hpos hlt
      rw [hc]
      rw [wlp_bind]
      refine wlp_mono (readSector_spec s c.sector) ?_
      intro b t hb
      obtain ⟨hin,hdisk,hsectorBuf⟩ := hb
      have hend := chunk_end_lt s.disk hshift hin
      have hchunk : ((s.disk.bytes.slice (c.sector*sectorSize) sectorSize).drop c.shift).take c.n =
          s.disk.bytes.slice (offset+done) c.n := by
        rw [drop_slice (by omega),hsector,take_slice (by omega)]
      rw [hsectorBuf,hchunk]
      have hfit : done+(s.disk.bytes.slice (offset+done) c.n).length ≤ buf.length := by
        rw [length_slice]
        omega
      have hlen := length_patch hfit
      have htake := take_patch hfit
      rw [length_slice] at htake
      refine wlp_mono (ih t (by omega) (by omega) (by omega)) ?_
      intro r s' hr
      obtain ⟨hcount,hsame,hbuf⟩ := hr
      refine ⟨hcount.trans hlen,hsame.trans hdisk,?_⟩
      rw [hbuf,htake,hdisk,List.append_assoc,← Nat.add_assoc,← slice_add]
      congr 2
      omega
    next hge =>
      obtain rfl : done = buf.length := by omega
      simp

inductive Op where
  | read (buf : List UInt8) (offset : UInt64)
  | write (buf : List UInt8) (offset : UInt64)

def perform : Op → Action IoError Device (List UInt8)
  | .read buf offset => readAt buf offset >>= fun r => pure r.1
  | .write buf offset => writeAt buf offset >>= fun _ => pure buf

def performAll : List Op → Action IoError Device (List (List UInt8))
  | [] => pure []
  | op :: ops => perform op >>= fun out => performAll ops >>= fun outs => pure (out :: outs)

/-- The same calls on a flat array of bytes. -/
def flat (m : Memory) : Op → List UInt8 × Memory
  | .read buf offset => (m.slice offset.toNat buf.length, m)
  | .write buf offset => (buf, m.store offset.toNat buf)

theorem writeAt_spec (s : Device) (buf : List UInt8) (offset : UInt64) :
    wlp (writeAt buf offset) (fun n s' => n = buf.length ∧
      s'.disk = s.disk.with (s.disk.bytes.store offset.toNat buf)) s :=
  writeLoop_spec s (by omega) (Nat.zero_le _) offset.toNat_lt

theorem readAt_spec (s : Device) (buf : List UInt8) (offset : UInt64) :
    wlp (readAt buf offset) (fun r s' => r.2 = buf.length ∧ s'.disk = s.disk ∧
      r.1 = s.disk.bytes.slice offset.toNat buf.length) s :=
  readLoop_spec s (by omega) (Nat.zero_le _) offset.toNat_lt

theorem perform_spec (s : Device) (op : Op) :
    wlp (perform op) (fun out s' => (out, s'.disk.bytes) = flat s.disk.bytes op) s := by
  cases op with
  | read buf offset =>
    rw [perform,wlp_bind]
    refine wlp_mono (readAt_spec s buf offset) ?_
    intro r s' hr
    obtain ⟨_,hdisk,hbuf⟩ := hr
    rw [wlp_pure,hdisk,hbuf]
    rfl
  | write buf offset =>
    rw [perform,wlp_bind]
    refine wlp_mono (writeAt_spec s buf offset) ?_
    intro n s' hs'
    rw [wlp_pure,hs'.2]
    rfl

theorem performAll_spec (s : Device) (ops : List Op) : wlp (performAll ops) (fun outs s' =>
      outs = answers flat s.disk.bytes ops ∧ s'.disk.bytes = after flat s.disk.bytes ops) s := by
  induction ops generalizing s with
  | nil =>
    rw [performAll,wlp_pure]
    exact ⟨rfl,rfl⟩
  | cons op ops ih =>
    rw [performAll,wlp_bind]
    refine wlp_mono (perform_spec s op) ?_
    intro out t hout
    rw [wlp_bind]
    refine wlp_mono (ih t) ?_
    intro outs s' houts
    rw [wlp_pure,answers,after,← hout,houts.1,houts.2]
    exact ⟨rfl,rfl⟩

/-- A write that succeeds changes exactly its bytes, a read that succeeds returns exactly its bytes, and
calls that succeed act together like those on a flat array. -/
theorem block_io_exact (s : Device) :
    (∀ buf offset n s', writeAt buf offset s = .ok n s' → n = buf.length ∧
      ∀ a, s'.disk.bytes a = if offset.toNat ≤ a ∧ a < offset.toNat + buf.length then
        buf.getD (a - offset.toNat) 0 else s.disk.bytes a) ∧
    (∀ buf offset r s', readAt buf offset s = .ok r s' → r.2 = buf.length ∧
      r.1 = s.disk.bytes.slice offset.toNat buf.length ∧ s'.disk = s.disk) ∧
    ∀ ops outs s', performAll ops s = .ok outs s' →
      outs = answers flat s.disk.bytes ops ∧ s'.disk.bytes = after flat s.disk.bytes ops := by
  refine ⟨?_,?_,fun ops outs s' h => performAll_spec s ops outs s' h⟩
  · intro buf offset n s' h
    obtain ⟨hn,hdisk⟩ := writeAt_spec s buf offset n s' h
    refine ⟨hn,fun a => ?_⟩
    rw [hdisk]
    exact store_apply _ _ _ _
  · intro buf offset r s' h
    obtain ⟨hn,hdisk,hbuf⟩ := readAt_spec s buf offset r s' h
    exact ⟨hn,hbuf,hdisk⟩

/-- Two sectors, and a device that performs every request. -/
def twoSectors : Device := ⟨⟨2,by decide,fun _ => 0⟩,fun _ => .done,0⟩

/-- A write over the border of the sectors and a read of a part of it. -/
def straddle : List Op := [.write [1,2,3,4] 510,.read [0,0,0] 511]

theorem block_io_exact_straddle : ∃ s', performAll straddle twoSectors = .ok [[1,2,3,4],[2,3,4]] s' ∧
    [[1,2,3,4],[2,3,4]] = answers flat twoSectors.disk.bytes straddle := by
  have hresult : (performAll straddle twoSectors).result = some (.ok [[1,2,3,4],[2,3,4]]) := by
    decide +kernel
  obtain ⟨s',hrun,_⟩ := Outcome.exists_ok hresult
  exact ⟨s',hrun,((block_io_exact twoSectors).2.2 straddle _ s' hrun).1⟩

end VirtioBlk

end Athera
