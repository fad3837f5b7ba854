import NwinOs.Drivers.FrameBuffer
import NwinOs.Painting

/-!
# What the drawing functions paint

Each byte of the memory belongs to at most one pixel of the screen, `pixelAt`, as one of its three
colours, `channel`.  A drawing function paints the bytes of a set of pixels (`area`) with the
colours that a function of the pixel says (`bytes`); `FrameBuffer.Draws` is that statement, and
there is one lemma for each function: `draws_drawPixel`, `draws_fillRect`, `draws_clear`,
`draws_drawChar`. -/

namespace NwinOs.Drivers

open Painting List Nat

namespace FrameBuffer

variable {fb : FrameBuffer} {memory : Bytes} {x y a i : ℕ}

/-! ### Bytes and pixels -/

variable (fb)

/-- The pixel is on the screen. -/
def Visible (p : ℕ × ℕ) : Prop := p.1 < fb.width ∧ p.2 < fb.height

/-- The pixel that a byte belongs to. -/
def pixelAt (a : ℕ) : ℕ × ℕ := (a % fb.pitch / fb.bytesPerPixel, a / fb.pitch)

/-- Which of its bytes it is. -/
def channel (a : ℕ) : ℕ := a % fb.pitch % fb.bytesPerPixel

theorem offset_pixelAt (a : ℕ) :
    fb.offset (fb.pixelAt a).1 (fb.pixelAt a).2 + fb.channel a = a := by
  have hline := div_add_mod a fb.pitch
  have hpixel := div_add_mod (a % fb.pitch) fb.bytesPerPixel
  unfold offset pixelAt channel
  rw [mul_comm (a / fb.pitch), mul_comm (a % fb.pitch / fb.bytesPerPixel)]
  omega

variable {fb} {R : Set (ℕ × ℕ)} {p : ℕ × ℕ} {f : ℕ × ℕ → Color}

theorem column_lt (hx : x < fb.width) (hi : i < 3) : x * fb.bytesPerPixel + i < fb.pitch := by
  have hcolors := fb.colors_fit
  calc x * fb.bytesPerPixel + i < (x + 1) * fb.bytesPerPixel := by rw [succ_mul]; omega
    _ ≤ fb.width * fb.bytesPerPixel := mul_le_mul_right _ hx
    _ ≤ fb.pitch := fb.line_fits

theorem pixelAt_offset (hx : x < fb.width) (hi : i < 3) :
    fb.pixelAt (fb.offset x y + i) = (x, y) ∧ fb.channel (fb.offset x y + i) = i := by
  have hcolumn := column_lt hx hi
  have hcolors := fb.colors_fit
  have hmod : (fb.offset x y + i) % fb.pitch = x * fb.bytesPerPixel + i := by
    rw [offset, add_assoc, mul_add_mod', mod_eq_of_lt hcolumn]
  have hdiv : (fb.offset x y + i) / fb.pitch = y := by
    rw [offset, add_assoc, mul_comm y, mul_add_div (by omega), div_eq_of_lt hcolumn, add_zero]
  unfold pixelAt channel
  rw [hmod, hdiv, mul_comm x, mul_add_div (by omega), div_eq_of_lt (by omega),
    add_zero, mul_add_mod, mod_eq_of_lt (by omega)]
  exact ⟨rfl, rfl⟩

/-- The colour that is stored for a pixel. -/
def pixel (fb : FrameBuffer) (memory : Bytes) (p : ℕ × ℕ) : Color :=
  Vector.ofFn fun i : Fin 3 => memory (fb.offset p.1 p.2 + i)

theorem pixel_eq_iff {color : Color} : fb.pixel memory p = color ↔
    ∀ (i : ℕ) (h : i < 3), memory (fb.offset p.1 p.2 + i) = color[i] := by
  rw [Vector.ext_iff]
  simp only [pixel, Vector.getElem_ofFn]

/-! ### Areas and their bytes -/

/-- The bytes of the pixels of `R` that are on the screen. -/
def area (fb : FrameBuffer) (R : Set (ℕ × ℕ)) : Set ℕ :=
  {a | fb.channel a < 3 ∧ fb.Visible (fb.pixelAt a) ∧ fb.pixelAt a ∈ R}

/-- What is stored in the bytes if the pixels have the colours of `f`. -/
def bytes (fb : FrameBuffer) (f : ℕ × ℕ → Color) (a : ℕ) : Byte :=
  (f (fb.pixelAt a)).toList.getD (fb.channel a) 0

theorem bytes_offset (f : ℕ × ℕ → Color) (hx : x < fb.width) (hi : i < 3) :
    fb.bytes f (fb.offset x y + i) = (f (x, y))[i] := by
  obtain ⟨hpixel, hchannel⟩ := pixelAt_offset (y := y) hx hi
  have hlength : i < (f (x, y)).toList.length := by rw [Vector.length_toList]; exact hi
  rw [bytes, hpixel, hchannel, getD_eq_getElem?_getD, getElem?_eq_getElem hlength,
    Option.getD_some, Vector.getElem_toList]

theorem offset_mem_area (hvisible : fb.Visible (x, y)) (hi : i < 3) :
    fb.offset x y + i ∈ fb.area R ↔ (x, y) ∈ R := by
  obtain ⟨hpixel, hchannel⟩ := pixelAt_offset (y := y) hvisible.1 hi
  constructor
  · intro h
    exact hpixel ▸ h.2.2
  · intro h
    refine ⟨hchannel.symm ▸ hi, ?_, ?_⟩
    · rw [hpixel]
      exact hvisible
    · rw [hpixel]
      exact h

theorem area_union (fb : FrameBuffer) (R R' : Set (ℕ × ℕ)) :
    fb.area (R ∪ R') = fb.area R ∪ fb.area R' := by
  ext a
  constructor
  · rintro ⟨hchannel, hvisible, hp | hp⟩
    · exact .inl ⟨hchannel, hvisible, hp⟩
    · exact .inr ⟨hchannel, hvisible, hp⟩
  · rintro (⟨hchannel, hvisible, hp⟩ | ⟨hchannel, hvisible, hp⟩)
    · exact ⟨hchannel, hvisible, .inl hp⟩
    · exact ⟨hchannel, hvisible, .inr hp⟩

theorem area_diff (fb : FrameBuffer) (R R' : Set (ℕ × ℕ)) :
    fb.area (R \ R') = fb.area R \ fb.area R' := by
  ext a
  constructor
  · rintro ⟨hchannel, hvisible, hp, hnot⟩
    exact ⟨⟨hchannel, hvisible, hp⟩, fun ha => hnot ha.2.2⟩
  · rintro ⟨⟨hchannel, hvisible, hp⟩, hnot⟩
    exact ⟨hchannel, hvisible, hp, fun hp' => hnot ⟨hchannel, hvisible, hp'⟩⟩

theorem forall_area_iff : (∀ a ∈ fb.area R, memory a = fb.bytes f a) ↔
      ∀ p ∈ R, fb.Visible p → fb.pixel memory p = f p := by
  constructor
  · rintro h ⟨x, y⟩ hp hvisible
    apply pixel_eq_iff.mpr
    intro i hi
    rw [h _ ((offset_mem_area hvisible hi).mpr hp), bytes_offset f hvisible.1 hi]
  · intro h a ha
    obtain ⟨hchannel, hvisible, hp⟩ := ha
    have hbyte := pixel_eq_iff.mp (h _ hp hvisible) _ hchannel
    have hplace := bytes_offset f (y := (fb.pixelAt a).2) hvisible.1 hchannel
    rw [offset_pixelAt] at hbyte hplace
    rw [hbyte, hplace]

/-! ### Drawing -/

/-- `T` gives the pixels of `R` that are on the screen their colours in `f`, and changes nothing
else. -/
def Draws (fb : FrameBuffer) (T : Bytes → Bytes) (R : Set (ℕ × ℕ)) (f : ℕ × ℕ → Color) : Prop :=
  Paints T (fb.area R) (fb.bytes f)

section Draws

variable {T : Bytes → Bytes} {R R' : Set (ℕ × ℕ)} {f g : ℕ × ℕ → Color}

theorem Draws.pixel_of_mem (h : fb.Draws T R f) (hvisible : fb.Visible p) (hp : p ∈ R) :
    fb.pixel (T memory) p = f p :=
  forall_area_iff.mp (h.painted memory) p hp hvisible

theorem Draws.pixel_of_notMem (h : fb.Draws T R f) (hvisible : fb.Visible p)
    (hp : p ∉ R) : fb.pixel (T memory) p = fb.pixel memory p := by
  obtain ⟨x, y⟩ := p
  apply pixel_eq_iff.mpr
  intro i hi
  rw [h.kept _ _ fun hmem => hp ((offset_mem_area hvisible hi).mp hmem)]
  exact pixel_eq_iff.mp (Eq.refl (fb.pixel memory (x, y))) i hi

theorem Draws.congr (h : fb.Draws T R f) (heq : ∀ p ∈ R, f p = g p) : fb.Draws T R g := by
  apply Paints.congr h
  intro a ha
  rw [bytes, bytes, heq _ ha.2.2]

/-- A loop that draws in every turn. -/
theorem Draws.foldl {ι : Type*} {step : Bytes → ι → Bytes} {R : ι → Set (ℕ × ℕ)} {l : List ι}
    (h : ∀ i ∈ l, fb.Draws (fun memory => step memory i) (R i) f) :
    fb.Draws (fun memory => l.foldl step memory) {p | ∃ i ∈ l, p ∈ R i} f := by
  have hpaints := Paints.foldl h
  have harea : fb.area {p | ∃ i ∈ l, p ∈ R i} = {a | ∃ i ∈ l, a ∈ fb.area (R i)} := by
    ext a
    constructor
    · rintro ⟨hchannel, hvisible, i, hi, hp⟩
      exact ⟨i, hi, hchannel, hvisible, hp⟩
    · rintro ⟨i, hi, hchannel, hvisible, hp⟩
      exact ⟨hchannel, hvisible, i, hi, hp⟩
  unfold Draws
  rw [harea]
  exact hpaints

theorem Draws.of_visible (h : fb.Draws T R f) (heq : ∀ p, fb.Visible p → (p ∈ R ↔ p ∈ R')) :
    fb.Draws T R' f := by
  have harea : fb.area R' = fb.area R := by
    ext a
    exact and_congr_right fun _ => and_congr_right fun hvisible => (heq _ hvisible).symm
  unfold Draws
  rw [harea]
  exact h

end Draws

variable (fb)

theorem draws_putPixel (color : Color) (hvisible : fb.Visible (x, y)) :
    fb.Draws (fun memory => fb.putPixel memory x y color) {(x, y)} fun _ => color where
  painted := by
    intro memory a ha
    obtain ⟨hchannel, -, hp⟩ := ha
    have hplace := fb.offset_pixelAt a
    have hbyte := bytes_offset (y := y) (fun _ => color) hvisible.1 hchannel
    rw [hp] at hplace
    rw [hplace] at hbyte
    have hlength : fb.channel a < color.toList.length := by
      rw [Vector.length_toList]; exact hchannel
    have hstored := Bytes.splice_of_inside (b := memory) (o := fb.offset x y) hlength
    rw [hplace, Vector.getElem_toList] at hstored
    rw [hbyte]
    exact hstored
  kept := by
    intro memory a ha
    apply Bytes.splice_of_outside
    rw [Vector.length_toList]
    by_contra! hin
    have hplace : fb.offset x y + (a - fb.offset x y) = a := by omega
    apply ha
    rw [← hplace]
    exact (offset_mem_area hvisible (by omega)).mpr rfl

theorem draws_drawPixel (x y : ℕ) (color : Color) :
    fb.Draws (fun memory => fb.drawPixel memory x y color) {(x, y)} fun _ => color := by
  by_cases hvisible : fb.Visible (x, y)
  · unfold drawPixel
    simp only [if_pos (show x < fb.width ∧ y < fb.height from hvisible)]
    exact draws_putPixel fb color hvisible
  · have hnone : fb.area {(x, y)} = ∅ := by
      ext a
      refine iff_of_false ?_ (Set.notMem_empty a)
      rintro ⟨-, hin, hp⟩
      exact hvisible (Set.mem_singleton_iff.mp hp ▸ hin)
    unfold Draws drawPixel
    simp only [if_neg (show ¬ (x < fb.width ∧ y < fb.height) from hvisible)]
    rw [hnone]
    exact Paints.nothing _

/-- The pixels of a rectangle. -/
def rect (x y w h : ℕ) : Set (ℕ × ℕ) := {p | (x ≤ p.1 ∧ p.1 < x + w) ∧ y ≤ p.2 ∧ p.2 < y + h}

theorem mem_rect {w h px py : ℕ} :
    (px, py) ∈ rect x y w h ↔ (x ≤ px ∧ px < x + w) ∧ y ≤ py ∧ py < y + h :=
  Iff.rfl

theorem draws_fillRect (x y w h : ℕ) (color : Color) :
    fb.Draws (fun memory => fb.fillRect memory x y w h color) (rect x y w h) fun _ => color := by
  have hloop := Draws.foldl (l := List.range h) fun rowI _ => Draws.foldl (l := List.range w)
    fun colI _ => draws_drawPixel fb (x + colI) (y + rowI) color
  apply hloop.of_visible
  rintro ⟨px, py⟩ -
  constructor
  · rintro ⟨rowI, hrow, colI, hcol, hp⟩
    obtain ⟨rfl, rfl⟩ := Prod.mk.inj hp
    have hrow := mem_range.mp hrow
    have hcol := mem_range.mp hcol
    exact mem_rect.mpr (by omega)
  · intro hp
    have hp := mem_rect.mp hp
    refine ⟨py - y, mem_range.mpr (by omega), px - x, mem_range.mpr (by omega), ?_⟩
    exact Prod.ext (show px = x + (px - x) by omega) (show py = y + (py - y) by omega)

theorem draws_clear (color : Color) :
    fb.Draws (fun memory => fb.clear memory color) Set.univ fun _ => color := by
  have hloop := Draws.foldl (l := List.range fb.height) fun y hy =>
    Draws.foldl (l := List.range fb.width) fun x hx =>
      draws_putPixel fb color ⟨mem_range.mp hx, mem_range.mp hy⟩
  apply hloop.of_visible
  rintro ⟨px, py⟩ hvisible
  refine iff_of_true ?_ (Set.mem_univ _)
  exact ⟨py, mem_range.mpr hvisible.2, px, mem_range.mpr hvisible.1, rfl⟩

/-- The pixel in column `dx` and row `dy` of a glyph. -/
def glyphPixel (font : Font) (byte : Byte) (fg bg : Color) (dx dy : ℕ) : Color :=
  if ((font byte).getD (Vector.replicate 8 0)).toList.getD dy 0 &&& (1#8 <<< dx) != 0 then fg
  else bg

theorem draws_drawChar (font : Font) (x y : ℕ) (byte : Byte) (fg bg : Color) :
    fb.Draws (fun memory => fb.drawChar font memory x y byte fg bg) (rect x y 8 8)
      fun p => glyphPixel font byte fg bg (p.1 - x) (p.2 - y) := by
  have hrow : ∀ r ∈ ((font byte).getD (Vector.replicate 8 0)).toList.zipIdx,
      r.2 < 8 ∧ ((font byte).getD (Vector.replicate 8 0)).toList.getD r.2 0 = r.1 := by
    intro r hr
    have hget := mem_zipIdx_iff_getElem?.mp hr
    obtain ⟨hlt, -⟩ := List.getElem?_eq_some_iff.mp hget
    rw [Vector.length_toList] at hlt
    rw [getD_eq_getElem?_getD, hget]
    exact ⟨hlt, rfl⟩
  have hpixels : ∀ r ∈ ((font byte).getD (Vector.replicate 8 0)).toList.zipIdx, ∀ bitI,
      fb.Draws (fun memory => fb.drawPixel memory (x + bitI) (y + r.2)
        (if r.1 &&& (1#8 <<< bitI) != 0 then fg else bg)) {(x + bitI, y + r.2)}
        fun p => glyphPixel font byte fg bg (p.1 - x) (p.2 - y) := by
    intro r hr bitI
    apply (draws_drawPixel fb _ _ _).congr
    intro p hp
    rw [Set.mem_singleton_iff.mp hp, glyphPixel, Nat.add_sub_cancel_left, Nat.add_sub_cancel_left,
      (hrow r hr).2]
  have hloop := Draws.foldl fun r hr =>
    Draws.foldl (l := List.range 8) fun bitI _ => hpixels r hr bitI
  apply hloop.of_visible
  rintro ⟨px, py⟩ -
  constructor
  · rintro ⟨r, hr, bitI, hbit, hp⟩
    obtain ⟨rfl, rfl⟩ := Prod.mk.inj hp
    have hlt := (hrow r hr).1
    have hbit := mem_range.mp hbit
    exact mem_rect.mpr (by omega)
  · intro hp
    have hp := mem_rect.mp hp
    have hlt : py - y < ((font byte).getD (Vector.replicate 8 0)).toList.length := by
      rw [Vector.length_toList]
      omega
    refine ⟨(_, py - y), mem_zipIdx_iff_getElem?.mpr (getElem?_eq_getElem hlt), px - x,
      mem_range.mpr (by omega), ?_⟩
    exact Prod.ext (show px = x + (px - x) by omega) (show py = y + (py - y) by omega)

/-! ### Covering -/

/-- `T` paints the pixels of `R` that are on the screen, in whatever colours, and changes nothing
else. -/
def Covers (T : Bytes → Bytes) (R : Set (ℕ × ℕ)) : Prop :=
  ∃ f, Paints T (fb.area R) f

variable {fb}

theorem Draws.covers {T : Bytes → Bytes} (h : fb.Draws T R f) : fb.Covers T R :=
  ⟨_, h⟩

theorem covers_nothing (fb : FrameBuffer) : fb.Covers (fun memory => memory) ∅ := by
  have hnone : fb.area ∅ = ∅ := Set.eq_empty_iff_forall_notMem.mpr fun _ ha => ha.2.2
  refine ⟨fun _ => 0, ?_⟩
  rw [hnone]
  exact Paints.nothing _

theorem Covers.comp {T T' : Bytes → Bytes} {R' : Set (ℕ × ℕ)} (h : fb.Covers T R)
    (h' : fb.Covers T' R') : fb.Covers (fun memory => T' (T memory)) (R ∪ R') := by
  obtain ⟨f, hf⟩ := h
  obtain ⟨f', hf'⟩ := h'
  unfold Covers
  rw [area_union]
  exact ⟨_, hf.over hf'⟩

end FrameBuffer

end NwinOs.Drivers
