import Athera.Framework.Memory

/-!
# Drawing into the framebuffer

`fill_rect` and `blit` of `driver/ramfb.rs`. Coordinates are `u32` and wrap; the framebuffer is a frame
of the physical memory.
-/

namespace Athera.Ramfb

open Framework List

def wrap32 (n : Nat) : Nat := n % 2 ^ 32

theorem wrap32_of_lt {n : Nat} (h : n < 2^32) : wrap32 n = n := Nat.mod_eq_of_lt h

structure Screen where
  base : Nat
  len : Nat
  width : Nat
  height : Nat

variable (fb : Screen) {byte : Nat → Nat → Nat → UInt8} {draw : Memory → Nat → Memory}
  {I : Memory → Prop}

/-- `n` pixels from the address `a` on get the color. -/
def fillPixels (color : UInt32) (a n : Nat) (m : Memory) : Memory := fun b =>
  if a ≤ b ∧ b < a + 4 * n then UInt8.ofNat (color.toNat / 256 ^ ((b - a) % 4)) else m b

def fillRow (color : UInt32) (x count : Nat) (m : Memory) (row : Nat) : Memory :=
  let start := wrap32 (row * fb.width + x)
  fillPixels color (fb.base + 4 * start) (min count (fb.len / 4 - start)) m

def fillRect (x y w h : Nat) (color : UInt32) (m : Memory) : Memory :=
  let x2 := min (wrap32 (x + w)) fb.width
  let y2 := min (wrap32 (y + h)) fb.height
  (range' y (y2 - y)).foldl (fillRow fb color x (wrap32 (x2 + 2 ^ 32 - x))) m

def blitRow (src x y w : Nat) (m : Memory) (row : Nat) : Memory :=
  m.copy (src + row * wrap32 (w * 4)) (fb.base + wrap32 ((y + row) * fb.width + x) * 4) (wrap32 (w * 4))

/-- The source is the slice of `len` bytes at `src`. -/
def blit (src len x y w h : Nat) (m : Memory) : Memory :=
  if len < wrap32 (w * h * 4) then m else (range h).foldl (blitRow fb src x y w) m

/-- The address of a pixel. -/
def pixel (px py : Nat) : Nat := fb.base + 4 * (py * fb.width + px)

/-- The screen lies in its frame, and its bytes are counted by a `u32`. -/
structure Screen.Fits : Prop where
  inFrame : 4 * (fb.height * fb.width) ≤ fb.len
  counted : 4 * (fb.height * fb.width) < 2 ^ 32

/-- The pixels of the rectangle that are on the screen get new bytes, and nothing else changes. -/
structure Draws (x y w h : Nat) (byte : Nat → Nat → Nat → UInt8) (m m' : Memory) : Prop where
  screen : ∀ px < fb.width, ∀ py < fb.height, ∀ k < 4, m' (pixel fb px py + k) =
    if py ∈ range' y h ∧ px ∈ range' x w then byte px py k else m (pixel fb px py + k)
  outside : ∀ a, a < fb.base ∨ fb.base + 4 * (fb.height * fb.width) ≤ a → m' a = m a

/-- No sum, product or difference of `fill_rect` leaves the `u32`s. -/
def FillExact (x y w h : Nat) : Prop :=
  x + w < 2 ^ 32 ∧ y + h < 2 ^ 32 ∧ ∀ row ∈ range' y (min (y + h) fb.height - y),
    row * fb.width + x < 2 ^ 32 ∧ x ≤ min (x + w) fb.width

/-- No sum or product of `blit` leaves the `u32`s. -/
def BlitExact (x y w h : Nat) : Prop :=
  w * h * 4 < 2 ^ 32 ∧ w * 4 < 2 ^ 32 ∧
    ∀ row < h, y + row < 2 ^ 32 ∧ (y + row) * fb.width + x < 2 ^ 32

variable {fb} {m : Memory} {a : Nat}

theorem Draws.nothing {x y w h : Nat}
    (hoff : h = 0 ∨ w = 0 ∨ fb.height ≤ y) : Draws fb x y w h byte m m := by
  refine ⟨fun px _ py hpy k _ => (if_neg ?_).symm,fun _ _ => rfl⟩
  rw [mem_range'_1,mem_range'_1]
  omega

/-- At an address that only one row may write to, always the same byte, the loop does what that row
does. -/
theorem foldl_rows {p : Nat} {v : UInt8} {Q : Prop}
    [Decidable Q] {rows : List Nat} (hm : I m) (hkeep : ∀ m, ∀ r ∈ rows, I m → I (draw m r))
    (hdraw : ∀ m, ∀ r ∈ rows, I m → draw m r a = if r = p ∧ Q then v else m a) :
    rows.foldl draw m a = if p ∈ rows ∧ Q then v else m a := by
  induction rows generalizing m with
  | nil => simp
  | cons r rows ih =>
    rw [foldl_cons,ih (hkeep m r (by simp) hm) (fun m r hr => hkeep m r (by simp [hr]))
      (fun m r hr => hdraw m r (by simp [hr])),hdraw m r (by simp) hm]
    by_cases hrow : p ∈ rows ∧ Q
    · simp [hrow]
    · by_cases hr : r = p ∧ Q <;> grind

theorem in_row {W x x2 px py r : Nat} (hpx : px < W) (hx2 : x2 ≤ W) :
    r*W+x ≤ py*W+px ∧ py*W+px < r*W+x2 ↔ r = py ∧ x ≤ px ∧ px < x2 := by
  rcases Nat.lt_trichotomy r py with hlt | rfl | hlt
  · have hmul := Nat.mul_le_mul_right W (Nat.succ_le_of_lt hlt)
    rw [Nat.succ_mul] at hmul
    omega
  · omega
  · have hmul := Nat.mul_le_mul_right W (Nat.succ_le_of_lt hlt)
    rw [Nat.succ_mul] at hmul
    omega

theorem row_le {W H r x2 : Nat} (hr : r < H) (hx2 : x2 ≤ W) : r*W+x2 ≤ H*W := by
  have hmul := Nat.mul_le_mul_right W (Nat.succ_le_of_lt hr)
  rw [Nat.succ_mul] at hmul
  omega

theorem draws_of_rows {x y w h x2 : Nat} {rows : List Nat} (hx2 : x2 = min (x+w) fb.width)
    (hrows : ∀ r, r ∈ rows ↔ r ∈ range' y h ∧ r < fb.height) (hm : I m)
    (hkeep : ∀ m, ∀ r ∈ rows, I m → I (draw m r))
    (hin : ∀ m, ∀ r ∈ rows, I m → ∀ px k, x ≤ px → px < x2 → k < 4 →
      draw m r (pixel fb px r+k) = byte px r k)
    (hout : ∀ m, ∀ r ∈ rows, ∀ a, ¬ (pixel fb x r ≤ a ∧ a < pixel fb x r+4*(x2-x)) →
      draw m r a = m a) : Draws fb x y w h byte m (rows.foldl draw m) := by
  constructor
  · intro px hpx py hpy k hk
    rw [foldl_rows (p := py) (Q := px ∈ range' x w) (v := byte px py k) hm hkeep]
    · simp only [hrows,hpy,and_true]
    · intro m r hr hI
      have hrow := @in_row fb.width x x2 px py r hpx (by omega)
      split
      next h =>
        obtain ⟨rfl,hcol⟩ := h
        rw [mem_range'_1] at hcol
        exact hin m r hr hI px k hcol.1 (by omega) hk
      next h =>
        rw [mem_range'_1] at h
        exact hout m r hr _ (by rw [pixel,pixel]; omega)
  · intro a ha
    rw [foldl_rows (p := 0) (Q := False) (v := 0) hm hkeep]
    · simp
    · intro m r hr hI
      have hle := @row_le fb.width fb.height r x2 ((hrows r).mp hr).2 (by omega)
      rw [if_neg (by simp),hout m r hr]
      rw [pixel]
      omega

section

variable (hfb : fb.Fits) {x y w h : Nat}
include hfb

theorem fillRect_draws (color : UInt32) (hx : x ≤ fb.width) (hw : x+w < 2^32) (hh : y+h < 2^32) :
    Draws fb x y w h (fun _ _ k => UInt8.ofNat (color.toNat/256^k)) m
      (fillRect fb x y w h color m) := by
  have hframe := hfb.inFrame
  have hcounted := hfb.counted
  rw [fillRect,wrap32_of_lt hw,wrap32_of_lt hh]
  generalize hx2 : min (x+w) fb.width = x2
  have hrows : ∀ r, r ∈ range' y (min (y+h) fb.height-y) ↔
      r ∈ range' y h ∧ r < fb.height := by
    intro r
    rw [mem_range'_1,mem_range'_1]
    omega
  have hrow : ∀ m r, r < fb.height → fillRow fb color x (wrap32 (x2+2^32-x)) m r =
      fillPixels color (pixel fb x r) (x2-x) m := by
    intro m r hr
    have hle := @row_le fb.width fb.height r x2 hr (by omega)
    have hcount : wrap32 (x2+2^32-x) = x2-x := by
      rw [wrap32]
      omega
    rw [fillRow,wrap32_of_lt (by omega),hcount,Nat.min_eq_left (by omega),pixel]
  refine draws_of_rows (I := fun _ => True) hx2.symm hrows trivial (fun _ _ _ _ => trivial) ?_ ?_
  · intro m r hr _ px k hpos hend hk
    have hmod : (pixel fb px r+k-pixel fb x r)%4 = k := by
      rw [pixel,pixel]
      omega
    rw [hrow m r ((hrows r).mp hr).2,fillPixels,if_pos (by rw [pixel,pixel]; omega),hmod]
  · intro m r hr a hnot
    rw [hrow m r ((hrows r).mp hr).2,fillPixels,if_neg hnot]

theorem blit_draws {src len : Nat} (hx : x+w ≤ fb.width) (hy : y+h ≤ fb.height)
    (hlen : h*w*4 ≤ len) (hsrc : src+len ≤ fb.base ∨ fb.base+fb.len ≤ src) :
    Draws fb x y w h (fun px py k => m (src+4*((py-y)*w+(px-x))+k)) m
      (blit fb src len x y w h m) := by
  have hframe := hfb.inFrame
  have hcounted := hfb.counted
  have hrow : ∀ m, ∀ r ∈ range' y h, ∀ a, blitRow fb src x y w m (r-y) a =
      if pixel fb x r ≤ a ∧ a < pixel fb x r+4*w then
        m (src+4*((r-y)*w)+(a-pixel fb x r)) else m a := by
    intro m r hr a
    rw [mem_range'_1] at hr
    have hle := @row_le fb.width fb.height r (x+w) (by omega) hx
    rw [blitRow,Nat.add_sub_cancel' hr.1,wrap32_of_lt (by omega),wrap32_of_lt (by omega),
      Nat.mul_comm w 4,Nat.mul_left_comm,Nat.mul_comm _ 4]
    congr
  have hloop : foldl (blitRow fb src x y w) m (range h) =
      (range' y h).foldl (fun m r => blitRow fb src x y w m (r-y)) m := by
    simp only [range'_eq_map_range,foldl_map,Nat.add_sub_cancel_left]
  have hneed := Nat.mod_le (w*h*4) (2^32)
  rw [blit,wrap32,if_neg (by rw [Nat.mul_comm w h] at hneed ⊢; omega),hloop]
  refine draws_of_rows (I := fun m' => ∀ b, src ≤ b → b < src+len → m' b = m b)
    (show x+w = min (x+w) fb.width by omega) (fun r => ?_) (fun _ _ _ => rfl) ?_ ?_ ?_
  · rw [mem_range'_1]
    omega
  · intro m' r hr hI b hb hb'
    have hle := @row_le fb.width fb.height r (x+w) (by rw [mem_range'_1] at hr; omega) hx
    rw [hrow m' r hr,if_neg (by rw [pixel]; omega)]
    exact hI b hb hb'
  · intro m' r hr hI px k hpos hend hk
    have hle := @row_le w h (r-y) (px-x+1) (by rw [mem_range'_1] at hr; omega) (by omega)
    have hoff : pixel fb px r+k-pixel fb x r = 4*(px-x)+k := by
      rw [pixel,pixel]
      omega
    rw [hrow m' r hr,if_pos (by rw [pixel,pixel]; omega),hI _ (by omega) (by omega)]
    congr 1
    omega
  · intro m' r hr a hnot
    rw [hrow m' r hr,if_neg (by omega)]

end

/-- A rectangle with pixels off the screen puts its last one on another line or behind the screen. -/
theorem blit_not_draws {x y w h : Nat} (hw : 0 < w) (hh : 0 < h) (hexact : BlitExact fb x y w h)
    (hout : fb.width < x+w ∨ fb.height < y+h) : ∃ m src len, h*w*4 ≤ len ∧ fb.base+fb.len ≤ src ∧
      ¬ Draws fb x y w h (fun px py k => m (src+4*((py-y)*w+(px-x))+k)) m
        (blit fb src len x y w h m) := by
  obtain ⟨hneed,hwidth,hoffsets⟩ := hexact
  obtain ⟨n,rfl⟩ := Nat.exists_eq_add_one.mpr hh
  generalize hW : fb.width = W at hout hoffsets
  generalize hsrc : fb.base+fb.len+4*((y+n)*W+x+w) = src
  -- the source holds ones and lies behind every byte that is written
  let ones : Memory := fun a => if a < src then 0 else 1
  have hkeep : ∀ a, src ≤ a → (range n).foldl (blitRow fb src x y w) ones a = ones a := by
    intro a ha
    rw [foldl_rows (I := fun _ => True) (p := 0) (Q := False) (v := 0) trivial
      (fun _ _ _ _ => trivial)]
    · simp
    · intro m r hr _
      rw [mem_range] at hr
      have hrow := Nat.mul_le_mul_right W (show y+r ≤ y+n by omega)
      rw [if_neg (by simp),blitRow,hW,wrap32_of_lt (hoffsets r (by omega)).2,wrap32_of_lt hwidth,
        Memory.copy,if_neg (by rw [Block.mem_iff]; dsimp only; omega)]
  generalize ho : (y+n)*W+(x+w-1) = o
  have hlast : blit fb src ((n+1)*w*4) x y w (n+1) ones (fb.base+4*o) = 1 := by
    rw [blit,wrap32_of_lt hneed,if_neg (by rw [Nat.mul_comm w]; omega),range_succ,
      foldl_append,foldl_cons,foldl_nil,blitRow,hW,wrap32_of_lt (hoffsets n (by omega)).2,
      wrap32_of_lt hwidth,Memory.copy,if_pos (by rw [Block.mem_iff]; dsimp only; omega),
      hkeep _ (by omega)]
    exact if_neg (by omega)
  refine ⟨ones,src,(n+1)*w*4,le_rfl,by omega,fun hdraws => ?_⟩
  suffices hold : blit fb src ((n+1)*w*4) x y w (n+1) ones (fb.base+4*o) = ones (fb.base+4*o) by
    rw [hlast] at hold
    exact absurd (hold.trans (if_pos (by omega))) (by decide)
  by_cases hscreen : o < fb.height*W
  · have hwide : W < x+w := by
      by_contra hle
      have hrows := Nat.mul_le_mul_right W (show fb.height ≤ y+n by omega)
      omega
    have hpos : 0 < W := Nat.pos_of_mul_pos_left (Nat.zero_lt_of_lt hscreen)
    have hbelow : y+n+1 ≤ o/W := by
      rw [Nat.le_div_iff_mul_le hpos,Nat.succ_mul]
      omega
    have hpixel : fb.base+4*o = pixel fb (o%W) (o/W) := by rw [pixel,hW,Nat.div_add_mod']
    have hdrawn := hdraws.screen (o%W) (by rw [hW]; exact Nat.mod_lt o hpos) (o/W)
      ((Nat.div_lt_iff_lt_mul hpos).mpr hscreen) 0 (by decide)
    rwa [Nat.add_zero,← hpixel,if_neg (by rw [mem_range'_1]; omega)] at hdrawn
  · exact hdraws.outside _ (by rw [hW]; omega)

theorem blit_nothing {src len x y w h : Nat} (hempty : w = 0 ∨ h = 0) : blit fb src len x y w h m = m := by
  rw [blit]
  split
  · rfl
  · obtain rfl | rfl := hempty
    · funext a
      rw [foldl_rows (I := fun _ => True) (p := 0) (Q := False) (v := 0) trivial
        (fun _ _ _ _ => trivial)]
      · simp
      · intro m r _ _
        simp [blitRow,Memory.copy,wrap32,Block.mem_iff]
    · rfl

/-- `fill_rect` computes without wrapping and is clipped exactly if the sums fit and the left edge is on
the screen or no row is. `blit`, whose sizes and offsets have to fit, is not clipped: it is exact for
empty rectangles and those on the screen. -/
theorem drawing_clipped (hfb : fb.Fits) (x y w h : Nat) :
    ((FillExact fb x y w h ∧ ∀ (m : Memory) (color : UInt32),
        Draws fb x y w h (fun _ _ k => UInt8.ofNat (color.toNat / 256 ^ k)) m
          (fillRect fb x y w h color m)) ↔
      x + w < 2 ^ 32 ∧ y + h < 2 ^ 32 ∧ (h = 0 ∨ fb.height ≤ y ∨ x ≤ fb.width)) ∧
    ((BlitExact fb x y w h ∧ ∀ (m : Memory) (src len : Nat), h * w * 4 ≤ len →
        src + len ≤ fb.base ∨ fb.base + fb.len ≤ src →
        Draws fb x y w h (fun px py k => m (src + 4 * ((py - y) * w + (px - x)) + k)) m
          (blit fb src len x y w h m)) ↔
      BlitExact fb x y w h ∧ (w = 0 ∨ h = 0 ∨ x + w ≤ fb.width ∧ y + h ≤ fb.height)) := by
  refine ⟨⟨?_,?_⟩,⟨?_,?_⟩⟩
  · rintro ⟨⟨hw,hh,hrows⟩,_⟩
    refine ⟨hw,hh,?_⟩
    by_contra hnot
    have hx := (hrows y (by rw [mem_range'_1]; omega)).2
    omega
  · rintro ⟨hw,hh,hfits⟩
    by_cases hx : x ≤ fb.width
    · have hcounted := hfb.counted
      refine ⟨⟨hw,hh,fun row hrow => ?_⟩,fun _ color => fillRect_draws hfb color hx hw hh⟩
      have hle := @row_le fb.width fb.height row x (by rw [mem_range'_1] at hrow; omega) hx
      omega
    · have hempty : min (y+h) fb.height-y = 0 := by omega
      refine ⟨⟨hw,hh,fun row hrow => ?_⟩,fun m color => ?_⟩
      · rw [hempty] at hrow
        exact absurd hrow not_mem_nil
      · rw [fillRect,wrap32_of_lt hh,hempty]
        exact .nothing (by omega)
  · rintro ⟨hexact,hdraws⟩
    refine ⟨hexact,?_⟩
    by_contra hnot
    obtain ⟨m,src,len,hlen,hsrc,hbad⟩ := blit_not_draws (by omega) (by omega) hexact (by omega)
    exact hbad (hdraws m src len hlen (.inr hsrc))
  · rintro ⟨hexact,hfits⟩
    refine ⟨hexact,fun m src len hlen hsrc => ?_⟩
    by_cases hempty : w = 0 ∨ h = 0
    · rw [blit_nothing hempty]
      exact .nothing (by omega)
    · exact blit_draws hfb (by omega) (by omega) hlen hsrc

def smallScreen : Screen := ⟨0,64,4,2⟩

/-- A rectangle to the right of the screen covers the end of it, and two pixels at the right edge go to
the next line. -/
theorem drawing_not_clipped :
    fillRect smallScreen 5 0 1 1 1 (fun _ => 0) (pixel smallScreen 1 1) = 1 ∧
    blit smallScreen 64 8 3 0 2 1 (fun a => if a < 64 then 0 else 1) (pixel smallScreen 0 1) = 1 := by
  decide

theorem drawing_clipped_small : smallScreen.Fits ∧
    Draws smallScreen 3 1 2 2 (fun _ _ k => UInt8.ofNat ((7 : UInt32).toNat / 256 ^ k)) (fun _ => 0)
      (fillRect smallScreen 3 1 2 2 7 fun _ => 0) :=
  ⟨⟨by decide,by decide⟩,
    ((drawing_clipped ⟨by decide,by decide⟩ 3 1 2 2).1.mpr (by decide)).2 _ 7⟩

end Athera.Ramfb
