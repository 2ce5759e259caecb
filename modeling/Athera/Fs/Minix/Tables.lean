import Athera.Framework.Pieces
import Athera.Fs.Minix.Volume

/-!
# Zone tables and growth

A zone of zone numbers as a table, and what a volume may become while a file grows.
-/

namespace Athera.Minix

open Framework List

section

variable {n : Nat} {l : List UInt16}

/-- `Vec::resize` with zeros. -/
def resize (n : Nat) (l : List UInt16) : List UInt16 := l.take n ++ List.replicate (n - l.length) 0

theorem length_resize (n : Nat) (l : List UInt16) : (resize n l).length = n := by
  rw [resize,length_append,length_take,length_replicate]
  omega

theorem takeWhile_resize (hlen : l.length ≤ n) (h : ∀ z ∈ l, z ≠ 0) :
    (resize n l).takeWhile (· != 0) = l := by
  have hall : ∀ z ∈ l, (z != 0) = true := by
    intro z hz
    simpa using h z hz
  rw [resize,take_of_length_le hlen,takeWhile_append_of_pos hall]
  cases n-l.length with
  | zero => simp
  | succ k => simp [replicate_succ]

theorem resize_take (h : n ≤ l.length) : resize n (l.take n) = resize n l := by
  have htake : (l.take n).length = n := by
    rw [length_take]
    omega
  rw [resize,resize,htake,take_take,Nat.min_self,Nat.sub_self,Nat.sub_eq_zero_of_le h]

end

section

def Volume.table (v : Volume) (z : UInt16) : List UInt16 := u16Table (v.zone z)

variable {sb : SuperBlock} {m : Memory} {v : Volume} {z : UInt16}

def perTable (sb : SuperBlock) : Nat := sb.zoneSize / 2

theorem Geometry.two_mul_perTable (g : Geometry sb) : 2*perTable sb = sb.zoneSize := by
  obtain ⟨k,hk⟩ := g.zone_dvd
  rw [perTable]
  omega

theorem Geometry.perTable_ge (g : Geometry sb) : 512 ≤ perTable sb := by
  have hle := Nat.le_of_dvd g.zoneSize_pos g.zone_dvd
  rw [perTable]
  omega

theorem readZoneTable_eq (h : sb.IsData z) : readZoneTable sb m z = (view sb m).table z := by
  rw [Volume.table,view_zone h,readZoneTable]

theorem zoneTable_eq (h : sb.IsData z) (hz : z ≠ 0) :
    zoneTable sb m z = ((view sb m).table z).takeWhile (· != 0) := by
  rw [zoneTable,if_neg hz,readZoneTable_eq h]

theorem length_table (h : sb.IsData z) : ((view sb m).table z).length = perTable sb := by
  rw [Volume.table,length_u16Table,length_view_zone h,perTable]

def Volume.setTable (v : Volume) (z : UInt16) (table : List UInt16) : Volume :=
  v.setZone z (u16Bytes table)

@[simp] theorem table_setTable_self (v : Volume) (z : UInt16) (table : List UInt16) :
    (v.setTable z table).table z = table := by
  rw [Volume.table,Volume.setTable,Volume.setZone_zone,Function.update_self,u16Table_u16Bytes]

theorem Geometry.ne_zero (g : Geometry sb) (h : sb.IsData z) : z ≠ 0 := by
  intro hz
  exact g.zero_not_data (hz ▸ h)

end

variable {sb : SuperBlock} {v v' v'' : Volume} {written written' taken taken' : List UInt16}

/-- From `v` to `v'` the free zones `taken` are taken, and besides them only the zones `written`
have other contents. -/
structure Grown (sb : SuperBlock) (v v' : Volume) (written taken : List UInt16) : Prop where
  inode : v'.inode = v.inode
  imap : v'.imap = v.imap
  fresh : ∀ z ∈ taken, sb.IsData z ∧ v.zmap (sb.zoneBit z) = false
  nodup : taken.Nodup
  zmap : ∀ i, v'.zmap i = (v.zmap i || decide (i ∈ taken.map sb.zoneBit))
  count : v'.freeZones sb + taken.length = v.freeZones sb
  zone : ∀ z, z ∉ written → z ∉ taken → v'.zone z = v.zone z

theorem Grown.refl (sb : SuperBlock) (v : Volume) : Grown sb v v [] [] where
  inode := rfl
  imap := rfl
  fresh := by simp
  nodup := nodup_nil
  zmap := by simp
  count := rfl
  zone _ _ _ := rfl

theorem Grown.write (sb : SuperBlock) (v : Volume) (z : UInt16) (bytes : List UInt8) :
    Grown sb v (v.setZone z bytes) [z] [] where
  inode := rfl
  imap := rfl
  fresh := by simp
  nodup := nodup_nil
  zmap := by simp [Volume.setZone]
  count := rfl
  zone y hy _ := by
    rw [mem_singleton] at hy
    exact Function.update_of_ne hy ..

theorem Grown.take (g : Geometry sb) (hz : sb.IsData z)
    (hfree : v.zmap (sb.zoneBit z) = false) : Grown sb v (v.markZone sb z true) [] [z] where
  inode := rfl
  imap := rfl
  fresh y hy := by
    rw [mem_singleton] at hy
    rw [hy]
    exact ⟨hz,hfree⟩
  nodup := nodup_singleton z
  zmap i := by
    by_cases hi : i = sb.zoneBit z
    · simp [hi]
    · simp [hi]
  count := Volume.freeZones_markZone g hz hfree
  zone _ _ _ := rfl

section

variable (h : Grown sb v v' written taken)
include h

theorem Grown.mono (hsub : ∀ z ∈ written, z ∈ written' ∨ z ∈ taken) :
    Grown sb v v' written' taken :=
  { h with
    zone := by
      intro z hz ht
      apply h.zone z _ ht
      intro hw
      cases hsub z hw with
      | inl hin => exact hz hin
      | inr hin => exact ht hin }

theorem Grown.used {i : Nat} (hi : v.zmap i = true) : v'.zmap i = true := by
  rw [h.zmap,hi,Bool.true_or]

theorem Grown.inUse (hz : v.InUse sb z) : v'.InUse sb z := ⟨hz.1,h.used hz.2⟩

theorem Grown.taken_inUse (hz : z ∈ taken) : v'.InUse sb z := by
  refine ⟨(h.fresh z hz).1,?_⟩
  rw [h.zmap,decide_eq_true (mem_map_of_mem hz),Bool.or_true]

theorem Grown.not_taken (hz : v.InUse sb z) : z ∉ taken := by
  intro ht
  have hfree := (h.fresh z ht).2
  rw [hz.2] at hfree
  cases hfree

theorem Grown.padded (hp : v.Padded sb) : v'.Padded sb where
  imap i hle hlt := by
    rw [h.imap]
    exact hp.imap i hle hlt
  zmap i hle hlt := h.used (hp.zmap i hle hlt)

theorem Grown.trans (h' : Grown sb v' v'' written' taken') :
    Grown sb v v'' (written++written') (taken++taken') where
  inode := h'.inode.trans h.inode
  imap := h'.imap.trans h.imap
  fresh z hz := by
    cases mem_append.mp hz with
    | inl hz => exact h.fresh z hz
    | inr hz =>
      have hfree := h'.fresh z hz
      rw [h.zmap,Bool.or_eq_false_iff] at hfree
      exact ⟨hfree.1,hfree.2.1⟩
  nodup := by
    rw [nodup_append]
    refine ⟨h.nodup,h'.nodup,?_⟩
    intro z hz y hy he
    exact h'.not_taken (h.taken_inUse hz) (he ▸ hy)
  zmap i := by
    rw [h'.zmap,h.zmap,Bool.or_assoc]
    simp [mem_append]
  count := by
    rw [length_append,← h.count,← h'.count]
    omega
  zone z hw ht := by
    rw [mem_append,not_or] at hw ht
    rw [h'.zone z hw.2 ht.2,h.zone z hw.1 ht.1]

theorem Grown.table (hw : z ∉ written) (hz : v.InUse sb z) : v'.table z = v.table z := by
  rw [Volume.table,Volume.table,h.zone z hw (h.not_taken hz)]

end

variable {m m' : Memory}

theorem Grown.writeTable (g : Geometry sb) (hz : sb.IsData z) {table : List UInt16}
    (hlen : table.length = perTable sb) :
    Grown sb (view sb m) (view sb (writeZoneTable sb z table m)) [z] [] ∧
      (view sb (writeZoneTable sb z table m)).table z = table := by
  have hview : view sb (writeZoneTable sb z table m) = (view sb m).setTable z table := by
    apply view_writeZone g hz
    rw [length_u16Bytes,hlen,g.two_mul_perTable]
  rw [hview]
  exact ⟨Grown.write sb _ z _,table_setTable_self _ z table⟩

end Athera.Minix
