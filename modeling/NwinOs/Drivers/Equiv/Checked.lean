import NwinOs.Drivers.Checked
import NwinOs.Drivers.Equiv.Tty

/-!
# Terminal output stays in the framebuffer

On machine integers the terminal does what it does on natural numbers, as long as the last pixel of
the framebuffer has offsets that are `usize` (`Addressable`).  The drawing functions are
transformations of the memory that store inside it (`Paints`); the functions of the terminal are
matched one by one (`Simulates`). The cursor can leave the screen, but by less than what could
overflow (`Near`).

* `terminal_in_framebuffer_iff`: every session runs and stays inside the framebuffer iff the
  framebuffer is addressable.
-/

namespace NwinOs.Drivers

open Effect Profile List Writer Nat

namespace FrameBuffer

variable {fb : FrameBuffer} {x y i : ℕ}

/-- There is no pixel, or the offsets of the last one are `usize`. -/
def Addressable (fb : FrameBuffer) : Prop :=
  fb.height = 0 ∨ fb.offset (fb.width - 1) (fb.height - 1) + 2 < 2 ^ 64

theorem Addressable.offset_lt (h : fb.Addressable) (hx : x < fb.width) (hy : y < fb.height) :
    fb.offset x y + 2 < 2 ^ 64 := by
  have hrow : y * fb.pitch ≤ (fb.height - 1) * fb.pitch := mul_le_mul_right _ (by omega)
  have hcolumn : x * fb.bytesPerPixel ≤ (fb.width - 1) * fb.bytesPerPixel :=
    mul_le_mul_right _ (by omega)
  rcases h with hzero | hlast
  · omega
  · unfold offset at *
    omega

theorem Addressable.height_le (h : fb.Addressable) : fb.height ≤ 2 ^ 63 := by
  have hcolors := fb.colors_fit
  have hglyph := fb.glyph_fits
  rcases h with hzero | hlast
  · omega
  · have hpitch : 8 * 3 ≤ fb.pitch := (Nat.mul_le_mul hglyph hcolors).trans fb.line_fits
    have hrows : (fb.height - 1) * (8 * 3) ≤ (fb.height - 1) * fb.pitch :=
      Nat.mul_le_mul_left _ hpitch
    unfold offset at hlast
    omega

theorem offset_add_lt (hx : x < fb.width) (hy : y < fb.height) (hi : i < 3) :
    fb.offset x y + i < fb.height * fb.pitch := by
  have hcolumn := column_lt hx hi
  calc fb.offset x y + i < (y + 1) * fb.pitch := by rw [offset, succ_mul]; omega
    _ ≤ fb.height * fb.pitch := mul_le_mul_right _ hy

end FrameBuffer

namespace Terminal

variable {p : Profile} {fb : FrameBuffer} {m m' : Code Unit}

/-- All stores were inside the framebuffer. -/
def InRange (fb : FrameBuffer) (stores : List ℕ) : Prop := ∀ a ∈ stores, a < fb.height * fb.pitch

variable {a : ℕ}

theorem InRange.cons {stores : List ℕ} (ha : a < fb.height * fb.pitch)
    (h : InRange fb stores) : InRange fb (a :: stores) := forall_mem_cons.mpr ⟨ha, h⟩

variable {b : ℕ}

theorem add_eq_pure (h : a + b < 2 ^ 64) : add p a b = pure (a + b) := by
  rw [add, add_eq_some h]
  rfl

theorem sub_eq_pure (h : b ≤ a) : sub p a b = pure (a - b) := by
  rw [sub, sub_eq_some h]
  rfl

theorem mul_eq_pure (h : a * b < 2 ^ 64) : mul p a b = pure (a * b) := by
  rw [mul, mul_eq_some h]
  rfl

/-! ### Drawing -/

/-- The code returns, applies `T` to the memory, and stores only inside the framebuffer. -/
def Paints (fb : FrameBuffer) (m : Code Unit) (T : Bytes → Bytes) : Prop :=
  ∀ t, InRange fb t.stores →
    ∃ stores, m t = .ok () { t with memory := T t.memory, stores } ∧ InRange fb stores

theorem paints_pure (fb : FrameBuffer) : Paints fb (pure ()) fun memory => memory :=
  fun t ht => ⟨t.stores, rfl, ht⟩

/-- **Loops** that paint. -/
theorem Paints.forM {ι : Type} {xs : List ι} {f : ι → Code Unit} {T : Bytes → ι → Bytes}
    (h : ∀ i ∈ xs, Paints fb (f i) fun memory => T memory i) :
    Paints fb (xs.forM f) fun memory => xs.foldl T memory := by
  induction xs with
  | nil => exact paints_pure fb
  | cons i xs ih =>
    intro t ht
    obtain ⟨stores, hi, hstores⟩ := h i (mem_cons_self ..) t ht
    obtain ⟨stores', hxs, hstores'⟩ := ih (fun j hj => h j (mem_cons_of_mem _ hj))
      { t with memory := T t.memory i, stores } hstores
    exact ⟨stores', (bind_of_ok hi).trans hxs, hstores'⟩

variable {x y : ℕ} {color : Color}

theorem toList_color (color : Color) (h0 : 0 < 3) (h1 : 1 < 3) (h2 : 2 < 3) :
    color.toList = [color[0]] ++ ([color[1]] ++ [color[2]]) := by
  obtain ⟨⟨channels⟩, hsize⟩ := color
  match channels, hsize with
  | [_, _, _], _ => rfl

section

variable (hfb : fb.Addressable)
include hfb

theorem paints_putPixel (hx : x < fb.width) (hy : y < fb.height) :
    Paints fb (putPixel p fb x y color) fun memory => fb.putPixel memory x y color := by
  intro t ht
  have hlast := hfb.offset_lt hx hy
  have hoffset : fb.offset x y = y * fb.pitch + x * fb.bytesPerPixel := rfl
  rw [putPixel, mul_eq_pure (by omega), mul_eq_pure (by omega)]
  simp only [pure_bind]
  rw [add_eq_pure (by omega), ← hoffset]
  simp only [pure_bind]
  rw [add_eq_pure (by omega), add_eq_pure (by omega)]
  have hstores (i : ℕ) (hi : i < 3) := FrameBuffer.offset_add_lt hx hy hi
  refine ⟨_, ?_, ((ht.cons (hstores 0 (by decide))).cons (hstores 1 (by decide))).cons
    (hstores 2 (by decide))⟩
  rw [FrameBuffer.putPixel, toList_color color (by decide) (by decide) (by decide),
    Bytes.splice_append, Bytes.splice_append]
  rfl

theorem paints_drawPixel :
    Paints fb (drawPixel p fb x y color) fun memory => fb.drawPixel memory x y color := by
  unfold drawPixel FrameBuffer.drawPixel
  split_ifs with hvisible
  · exact paints_putPixel hfb hvisible.1 hvisible.2
  · exact paints_pure fb

theorem paints_fillRect {w h : ℕ} (hx : x + w ≤ 2 ^ 64) (hy : y + h ≤ 2 ^ 64) :
    Paints fb (fillRect p fb x y w h color) fun memory => fb.fillRect memory x y w h color := by
  refine Paints.forM fun rowI hrow => Paints.forM fun colI hcol => ?_
  rw [mem_range] at hrow hcol
  rw [add_eq_pure (by omega), add_eq_pure (by omega)]
  exact paints_drawPixel hfb

theorem paints_clear : Paints fb (clear p fb color) fun memory => fb.clear memory color := by
  refine Paints.forM fun y hy => Paints.forM fun x hx => ?_
  exact paints_putPixel hfb (mem_range.mp hx) (mem_range.mp hy)

end

variable {byte : Byte}

theorem paints_drawChar (hfb : fb.Addressable) {font : Font} {fg bg : Color}
    (hx : x + 8 ≤ 2 ^ 64) (hy : y + 8 ≤ 2 ^ 64) :
    Paints fb (drawChar p fb font x y byte fg bg)
      fun memory => fb.drawChar font memory x y byte fg bg := by
  refine Paints.forM fun (row, rowI) hrow => Paints.forM fun bitI hbit => ?_
  have hrowI : rowI < 8 := by
    have hlt := snd_lt_of_mem_zipIdx hrow
    rwa [Vector.length_toList] at hlt
  rw [mem_range] at hbit
  rw [add_eq_pure (by omega), add_eq_pure (by omega)]
  exact paints_drawPixel hfb

/-! ### The terminal -/

/-- The terminal on machine integers that shows `w`. -/
def showing (w : Writer) (stores : List ℕ) : Terminal where
  memory := w.memory
  stores := stores
  xPos := w.xPos
  yPos := w.yPos
  fgColor := w.fgColor
  bgColor := w.bgColor
  ansiState := w.ansiState
  ansiParams := w.ansiParams
  ansiParamIdx := w.ansiParamIdx
  ansiCurrentVal := w.ansiCurrentVal

/-- The code takes a terminal that shows `w` to one that shows `w'`. -/
def Simulates (m : Code Unit) (w w' : Writer) : Prop :=
  ∀ stores, InRange w.fb stores →
    ∃ stores', m (showing w stores) = .ok () (showing w' stores') ∧ InRange w'.fb stores'

variable {w w' w'' : Writer} {font : Font}

namespace Simulates

theorem pure : Simulates (Pure.pure ()) w w := fun stores h => ⟨stores, rfl, h⟩

theorem bind (h : Simulates m w w') (h' : Simulates m' w' w'') :
    Simulates (m >>= fun _ => m') w w'' := by
  intro stores hstores
  obtain ⟨stores₁, hm, hstores₁⟩ := h stores hstores
  obtain ⟨stores₂, hm', hstores₂⟩ := h' stores₁ hstores₁
  exact ⟨stores₂, (bind_of_ok hm).trans hm', hstores₂⟩

theorem get_bind {f : Terminal → Code Unit} (h : ∀ stores, Simulates (f (showing w stores)) w w') :
    Simulates (Program.get >>= f) w w' := fun stores hstores => h stores stores hstores

theorem modify {f : Terminal → Terminal} (h : ∀ stores, f (showing w stores) = showing w' stores)
    (hfb : w'.fb = w.fb) : Simulates (Program.modify f) w w' :=
  fun stores hstores => ⟨stores, congrArg _ (h stores), hfb ▸ hstores⟩

theorem ofOption_bind {α : Type} {o : Option α} {a : α} {f : α → Code Unit} (ho : o = some a)
    (h : Simulates (f a) w w') : Simulates (Program.ofOption o >>= f) w w' := by
  rw [ho]
  exact h

variable {a b : ℕ} {f : ℕ → Code Unit}

theorem add_bind (hlt : a + b < 2 ^ 64)
    (h : Simulates (f (a + b)) w w') : Simulates (add p a b >>= f) w w' :=
  ofOption_bind (add_eq_some hlt) h

theorem sub_bind (hle : b ≤ a)
    (h : Simulates (f (a - b)) w w') : Simulates (sub p a b >>= f) w w' :=
  ofOption_bind (sub_eq_some hle) h

theorem mul_bind (hlt : a * b < 2 ^ 64)
    (h : Simulates (f (a * b)) w w') : Simulates (mul p a b >>= f) w w' :=
  ofOption_bind (mul_eq_some hlt) h

theorem ite {c : Prop} [Decidable c] (h : c → Simulates m w w') (h' : ¬ c → Simulates m' w w'') :
    Simulates (if c then m else m') w (if c then w' else w'') := by
  split_ifs with hc
  · exact h hc
  · exact h' hc

/-- **Loops**, with an invariant. -/
theorem forM {ι : Type} {xs : List ι} {f : ι → Code Unit} {step : Writer → ι → Writer}
    {I : Writer → Prop} (hw : I w)
    (h : ∀ i ∈ xs, ∀ w, I w → Simulates (f i) w (step w i) ∧ I (step w i)) :
    Simulates (xs.forM f) w (xs.foldl step w) ∧ I (xs.foldl step w) := by
  induction xs generalizing w with
  | nil => exact ⟨pure, hw⟩
  | cons i xs ih =>
    obtain ⟨hi, hnext⟩ := h i (mem_cons_self ..) w hw
    obtain ⟨hxs, hlast⟩ := ih hnext fun j hj => h j (mem_cons_of_mem _ hj)
    exact ⟨hi.bind hxs, hlast⟩

end Simulates

theorem Paints.simulates {T : Bytes → Bytes} (h : Paints w.fb m T) :
    Simulates m w { w with memory := T w.memory } := by
  intro stores hstores
  obtain ⟨stores', hm, hstores'⟩ := h (showing w stores) hstores
  exact ⟨stores', hm, hstores'⟩

/-- The framebuffer is addressable, and the cursor is within reach of sums that do not overflow. -/
structure Near (w : Writer) : Prop where
  addressable : w.fb.Addressable
  width : w.fb.width ≤ 2 ^ 63
  column : w.xPos ≤ 2 ^ 63
  line : w.yPos ≤ 2 ^ 63

theorem simulates_clearScreen (h : w.fb.Addressable) :
    Simulates (clearScreen p w.fb) w w.clearScreen :=
  .get_bind fun _ => (paints_clear h).simulates

theorem simulates_underline (h : Near w) (color : Color) :
    Simulates (add p w.yPos 6 >>= fun y => fillRect p w.fb w.xPos y 8 2 color) w
      { w with memory := w.fb.fillRect w.memory w.xPos (w.yPos + 6) 8 2 color } := by
  have hcolumn := h.column
  have hline := h.line
  exact .add_bind (by omega) (paints_fillRect h.addressable (by omega) (by omega)).simulates

theorem simulates_drawCursor (h : Near w) : Simulates (drawCursor p w.fb) w w.drawCursor :=
  .get_bind fun _ => simulates_underline h FG_DEFAULT

theorem simulates_eraseCursor (h : Near w) : Simulates (eraseCursor p w.fb) w w.eraseCursor :=
  .get_bind fun _ => simulates_underline h w.bgColor

theorem simulates_newLine (h : Near w) : Simulates (newLine p w.fb) w w.newLine := by
  have hline := h.line
  have hmove : Simulates (Program.modify fun t => { t with xPos := 0, yPos := w.yPos + 8 }) w
      { w with xPos := 0, yPos := w.yPos + 8 } := .modify (fun _ => rfl) rfl
  have htop : Simulates (Program.modify fun t => { t with yPos := 0 })
      { w with xPos := 0, yPos := w.yPos + 8 } { w with xPos := 0, yPos := 0 } :=
    .modify (fun _ => rfl) rfl
  unfold newLine Writer.newLine
  refine .get_bind fun _ => .add_bind (show w.yPos + 8 < 2 ^ 64 by omega) <| hmove.bind <|
    .add_bind (show w.yPos + 8 + 8 < 2 ^ 64 by omega) ?_
  dsimp only [showing]
  split_ifs with hbottom
  · exact htop.bind (simulates_clearScreen h.addressable)
  · exact .pure

theorem simulates_wrapLine (h : Near w) : Simulates (wrapLine p w.fb) w w.wrapLine := by
  have hcolumn := h.column
  unfold wrapLine Writer.wrapLine
  refine .get_bind fun _ => .add_bind (show w.xPos + 8 < 2 ^ 64 by omega) ?_
  dsimp only [showing]
  split_ifs
  · exact simulates_newLine h
  · exact .pure

namespace Near

/-- Moves that leave the framebuffer alone and stay near. -/
theorem move (h : Near w) (hfb : w'.fb = w.fb) (hx : w'.xPos ≤ 2 ^ 63) (hy : w'.yPos ≤ 2 ^ 63) :
    Near w' := ⟨hfb ▸ h.addressable, hfb ▸ h.width, hx, hy⟩

theorem newLine (h : Near w) : Near w.newLine := by
  have hheight := h.addressable.height_le
  refine h.move (fb_newLine w) ?_ ?_
  · rw [xPos_newLine]
    exact zero_le _
  · rw [yPos_newLine]
    split_ifs <;> omega

theorem wrapLine (h : Near w) : Near w.wrapLine := by
  unfold Writer.wrapLine
  split_ifs
  · exact h.newLine
  · exact h

theorem backspace (h : Near w) : Near w.backspace := by
  have hwidth := h.width
  have hcolumn := h.column
  have hline := h.line
  refine h.move (fb_backspace w) ?_ ?_
  · rw [xPos_backspace]
    split_ifs <;> omega
  · rw [yPos_backspace]
    split_ifs <;> omega

end Near

theorem simulates_printChar (h : Near w) (byte : Byte) :
    Simulates (printChar p w.fb font byte) w (w.printChar font byte) := by
  have hcolumn := h.wrapLine.column
  have hline := h.wrapLine.line
  refine (simulates_wrapLine h).bind ?_
  rw [← fb_wrapLine w]
  exact .get_bind fun _ => .bind (paints_drawChar h.wrapLine.addressable
      (show w.wrapLine.xPos + 8 ≤ 2 ^ 64 by omega)
      (show w.wrapLine.yPos + 8 ≤ 2 ^ 64 by omega)).simulates <|
    .add_bind (show w.wrapLine.xPos + 8 < 2 ^ 64 by omega) (.modify (fun _ => rfl) rfl)

/-- The terminal after the step back of `backspace`. -/
def stepped (w : Writer) : Writer :=
  if 8 ≤ w.xPos then { w with xPos := w.xPos - 8 }
  else if 8 ≤ w.yPos then { w with yPos := w.yPos - 8, xPos := w.fb.width - w.fb.width % 8 - 8 }
  else w

theorem simulates_stepBack (w : Writer) : Simulates (stepBack p w.fb) w (stepped w) := by
  have hglyph := w.fb.glyph_fits
  unfold stepBack stepped
  refine .get_bind fun _ => ?_
  dsimp only [showing]
  split_ifs with hcolumn hline
  · exact .sub_bind hcolumn (.modify (fun _ => rfl) rfl)
  · exact .sub_bind hline <| .sub_bind (mod_le _ _) <| .sub_bind (by omega) <|
      .modify (fun _ => rfl) rfl
  · exact .pure

theorem simulates_backspace (h : Near w) : Simulates (backspace p w.fb) w w.backspace := by
  have hcolumn : (stepped w).xPos ≤ 2 ^ 63 := h.backspace.column
  have hline : (stepped w).yPos ≤ 2 ^ 63 := h.backspace.line
  have hfb : (stepped w).fb = w.fb := fb_backspace w
  refine (simulates_stepBack w).bind (.get_bind fun _ => ?_)
  rw [← hfb]
  exact (paints_fillRect (hfb ▸ h.addressable) (show (stepped w).xPos + 8 ≤ 2 ^ 64 by omega)
    (show (stepped w).yPos + 8 ≤ 2 ^ 64 by omega)).simulates

theorem simulates_setColor (code : ℕ) : Simulates (setColor p code) w (w.setColor code) := by
  unfold setColor Writer.setColor
  split_ifs with hzero hfg hbg
  · exact .modify (fun _ => rfl) rfl
  · exact .ofOption_bind (sub_eq_some hfg.1) <|
      .ofOption_bind (Vector.getElem?_eq_getElem (by omega)) (.modify (fun _ => rfl) rfl)
  · exact .ofOption_bind (sub_eq_some hbg.1) <|
      .ofOption_bind (Vector.getElem?_eq_getElem (by omega)) (.modify (fun _ => rfl) rfl)
  · exact .pure

theorem simulates_storeParam : Simulates (storeParam p) w w.storeParam := by
  unfold storeParam Writer.storeParam
  refine .get_bind fun stores => ?_
  dsimp only [showing]
  split_ifs with hroom
  · exact .ofOption_bind rfl <| .add_bind (by omega) (.modify (fun _ => rfl) rfl)
  · exact .pure

theorem coordinate_eq (param : BitVec 32) : coordinate p param = pure (param.toNat - 1) := by
  unfold coordinate
  split_ifs with hpos
  · exact sub_eq_pure hpos
  · rw [show param.toNat - 1 = 0 by omega]

theorem ansiParams_setColor (code : ℕ) : (w.setColor code).ansiParams = w.ansiParams := by
  unfold Writer.setColor
  split_ifs <;> rfl

theorem simulates_setColors (w : Writer) :
    Simulates ((List.range w.ansiParamIdx).forM fun i => do
        let t ← Program.get
        let param ← Program.ofOption t.ansiParams[i]?
        setColor p param.toNat) w
      ((w.ansiParams.toList.take w.ansiParamIdx).foldl
        (fun w param => w.setColor param.toNat) w) := by
  have hidx : w.ansiParamIdx.val ≤ w.ansiParams.toList.length := by
    rw [Vector.length_toList]
    exact le_of_lt_succ w.ansiParamIdx.isLt
  have htake : w.ansiParams.toList.take w.ansiParamIdx =
      (List.range w.ansiParamIdx).map fun i => w.ansiParams.toList[i]?.getD 0 := by
    refine ext_getElem (by simpa using hidx) fun i hi _ => ?_
    rw [length_take_of_le hidx] at hi
    rw [getElem_take, getElem_map, getElem_range,
      getElem?_eq_getElem (lt_of_lt_of_le hi hidx), Option.getD_some]
  rw [htake, foldl_map]
  refine (Simulates.forM (I := fun v => v.ansiParams = w.ansiParams) rfl fun i hi v hv =>
    ⟨?_, ?_⟩).1
  · refine .get_bind fun stores => .ofOption_bind ?_ (simulates_setColor _)
    have hi := lt_of_lt_of_le (mem_range.mp hi) hidx
    rw [show (showing v stores).ansiParams = w.ansiParams from hv,
      getElem?_eq_getElem hi, Option.getD_some, Vector.getElem_toList]
    exact Vector.getElem?_eq_getElem _
  · exact (ansiParams_setColor _).trans hv

theorem simulates_executeAnsiCmd (h : Near w) (cmd : Byte) :
    Simulates (executeAnsiCmd p w.fb cmd) w (w.executeAnsiCmd cmd) := by
  have hwidth := h.width
  have hcolumn := h.column
  have hline := h.line
  unfold executeAnsiCmd Writer.executeAnsiCmd
  refine .get_bind fun _ => ?_
  simp only [coordinate_eq, pure_bind, Writer.ite_sub_one]
  refine .ite (fun _ => simulates_setColors w) fun _ => .ite (fun _ => ?clear) fun _ =>
    .ite (fun _ => ?address) fun _ => .ite (fun _ => ?erase) fun _ => .pure
  case clear =>
    exact .ite (fun _ => (simulates_clearScreen h.addressable).bind (.modify (fun _ => rfl) rfl))
      fun _ => .pure
  case address =>
    exact .mul_bind (show (w.ansiParams[1].toNat - 1) * 8 < 2 ^ 64 by omega) <|
      .mul_bind (show (w.ansiParams[0].toNat - 1) * 8 < 2 ^ 64 by omega) <| .modify
        (fun _ => rfl) rfl
  case erase =>
    exact .ite (fun _ => (paints_fillRect h.addressable
      (show w.xPos + (w.fb.width - w.xPos) ≤ 2 ^ 64 by omega)
      (show w.yPos + 8 ≤ 2 ^ 64 by omega)).simulates) fun _ => .pure

theorem Near.sameScreen (h : Near w) (hsame : Writer.SameScreen w w') : Near w' :=
  h.move hsame.fb (hsame.xPos ▸ h.column) (hsame.yPos ▸ h.line)

theorem ofNat_digit (h : 0x30 ≤ byte) :
    BitVec.ofNat 32 (byte.toNat - 0x30) = (byte - 0x30).setWidth 32 := by
  apply BitVec.eq_of_toNat_eq
  rw [BitVec.toNat_ofNat, BitVec.toNat_setWidth, BitVec.toNat_sub_of_le h]
  rfl

theorem simulates_writeByte (h : Near w) (byte : Byte) :
    Simulates (writeByte p w.fb font byte) w (w.writeByte font byte) := by
  obtain ⟨fb, memory, x, y, fg, bg, state, params, idx, value⟩ := w
  cases state with
  | normal =>
    exact .ite (fun _ => .modify (fun _ => rfl) rfl) fun _ => .ite (fun _ => simulates_newLine h)
      fun _ => .ite (fun _ => .modify (fun _ => rfl) rfl) fun _ =>
      .ite (fun _ => simulates_backspace h) fun _ => .ite (fun _ => simulates_printChar h byte)
      fun _ => .pure
  | escape =>
    exact .ite (fun _ => .modify (fun _ => rfl) rfl) fun _ => .modify (fun _ => rfl) rfl
  | csi =>
    refine .ite (fun hdigit => ?digit) fun _ => .ite (fun _ => ?next) fun _ => ?command
    case digit =>
      refine .ofOption_bind (sub_eq_some (BitVec.le_def.mp hdigit.1)) ?_
      rw [← ofNat_digit hdigit.1]
      exact .modify (fun _ => rfl) rfl
    case next => exact simulates_storeParam.bind (.modify (fun _ => rfl) rfl)
    case command =>
      have hstore := sameScreen_storeParam ⟨fb, memory, x, y, fg, bg, .csi, params, idx, value⟩
      refine simulates_storeParam.bind (.bind ?_ (.modify (fun _ => rfl) rfl))
      rw [← hstore.fb]
      exact simulates_executeAnsiCmd (h.sameScreen hstore) byte

/-! ### Sessions -/

theorem action_eq_address {row column : ℕ} (h : w.action byte = .address row column) :
    row < 2 ^ 32 ∧ column < 2 ^ 32 := by
  unfold action command at h
  split at h
  · split_ifs at h
  · cases h
  · split_ifs at h
    obtain ⟨rfl, rfl⟩ := Action.address.inj h
    exact ⟨BitVec.isLt _, BitVec.isLt _⟩

theorem Near.act (h : Near w) {a : Action}
    (ha : ∀ row column, a = .address row column → row < 2 ^ 32 ∧ column < 2 ^ 32) :
    Near (w.act font a) := by
  have hwidth := h.width
  cases a with
  | newLine => exact h.newLine
  | backspace => exact h.backspace
  | printChar byte =>
    refine h.wrapLine.move rfl ?_ h.wrapLine.line
    show w.wrapLine.xPos + 8 ≤ 2 ^ 63
    rw [xPos_wrapLine]
    split_ifs <;> omega
  | address row column =>
    obtain ⟨hrow, hcolumn⟩ := ha row column rfl
    exact h.move rfl (show (column - 1) * 8 ≤ 2 ^ 63 by omega)
      (show (row - 1) * 8 ≤ 2 ^ 63 by omega)
  | clear => exact h.move rfl (zero_le _) (zero_le _)
  | carriageReturn => exact h.move rfl (zero_le _) h.line
  | quiet => exact h
  | eraseLine => exact h.move rfl h.column h.line

theorem Near.writeByte (h : Near w) (byte : Byte) : Near (w.writeByte font byte) := by
  rw [writeByte_eq]
  exact (h.sameScreen (sameScreen_feed w byte)).act fun _ _ => action_eq_address

/-- An operation on natural numbers. -/
def apply (font : Font) (w : Writer) : Op → Writer
  | .writeByte byte => w.writeByte font byte
  | .drawCursor => w.drawCursor
  | .eraseCursor => w.eraseCursor

/-- **An operation** does on machine integers what it does on natural numbers. -/
theorem simulates_exec (h : Near w) (op : Op) :
    Simulates (exec p w.fb font op) w (apply font w op) ∧ Near (apply font w op) ∧
      (apply font w op).fb = w.fb := by
  cases op with
  | writeByte byte => exact ⟨simulates_writeByte h byte, h.writeByte byte, fb_writeByte w byte⟩
  | drawCursor => exact ⟨simulates_drawCursor h, h.move rfl h.column h.line, rfl⟩
  | eraseCursor => exact ⟨simulates_eraseCursor h, h.move rfl h.column h.line, rfl⟩

/-- The terminal that `Writer::new` begins with. -/
def blank (fb : FrameBuffer) (memory : Bytes) : Writer :=
  { fb, memory, xPos := 0, yPos := 0, fgColor := FG_DEFAULT, bgColor := BG_DEFAULT,
    ansiState := .normal, ansiParams := Vector.replicate 4 0, ansiParamIdx := 0,
      ansiCurrentVal := 0 }

/-- **A session** does on machine integers what it does on natural numbers. -/
theorem session_eq (fb : UsizeFrameBuffer) (hfb : fb.Addressable) (memory : Bytes) (ops : List Op) :
    ∃ stores, session p fb.toFrameBuffer font ops (start memory) =
        .ok () (showing (ops.foldl (apply font) (new fb.toFrameBuffer memory)) stores) ∧
      InRange fb.toFrameBuffer stores := by
  have hwidth : fb.width ≤ 2 ^ 63 := by
    have hcolors := Nat.mul_le_mul_left fb.width fb.colors_fit
    have hline := fb.line_fits
    have hpitch := fb.pitch_lt
    omega
  have hblank : Near (blank fb.toFrameBuffer memory) := ⟨hfb, hwidth, zero_le _, zero_le _⟩
  have hcleared : Near (blank fb.toFrameBuffer memory).clearScreen :=
    hblank.move rfl hblank.column hblank.line
  have hnew : Near (new fb.toFrameBuffer memory) := hcleared.move rfl hcleared.column hcleared.line
  have hstep (op : Op) (w : Writer) (hw : Near w ∧ w.fb = fb.toFrameBuffer) :
      Simulates (exec p fb.toFrameBuffer font op) w (apply font w op) ∧
        Near (apply font w op) ∧ (apply font w op).fb = fb.toFrameBuffer := by
    obtain ⟨hexec, hnear, hsame⟩ := simulates_exec hw.1 op
    rw [← hw.2]
    exact ⟨hexec, hnear, hsame⟩
  obtain ⟨hloop, -, hlast⟩ := Simulates.forM ⟨hnew, rfl⟩ fun op (_ : op ∈ ops) => hstep op
  have hsession : Simulates (session p fb.toFrameBuffer font ops) (blank fb.toFrameBuffer memory)
      (ops.foldl (apply font) (new fb.toFrameBuffer memory)) :=
    (simulates_clearScreen hfb).bind ((simulates_drawCursor hcleared).bind hloop)
  obtain ⟨stores, hrun, hstores⟩ := hsession [] fun a ha => nomatch ha
  exact ⟨stores, hrun, hlast ▸ hstores⟩

/-- With overflow checks, a pixel that is stored has offsets that are `usize`. -/
theorem offset_lt_of_putPixel {t t' : Terminal}
    (h : putPixel .dev fb x y color t = .ok () t') : fb.offset x y + 2 < 2 ^ 64 := by
  obtain ⟨row, _, hrow, h⟩ := bind_ok h
  obtain ⟨column, _, hcolumn, h⟩ := bind_ok h
  obtain ⟨offset, _, hoffset, h⟩ := bind_ok h
  obtain ⟨_, _, -, h⟩ := bind_ok h
  obtain ⟨_, _, -, h⟩ := bind_ok h
  obtain ⟨_, _, -, h⟩ := bind_ok h
  obtain ⟨_, _, hthird, -⟩ := bind_ok h
  obtain ⟨rfl, -⟩ := eq_mul_of_dev (ofOption_ok hrow).1
  obtain ⟨rfl, -⟩ := eq_mul_of_dev (ofOption_ok hcolumn).1
  obtain rfl := eq_add_of_dev (ofOption_ok hoffset).1
  exact add_lt_of_dev (ofOption_ok hthird).1

theorem addressable_of_clear {t t' : Terminal}
    (h : clear .dev fb color t = .ok () t') : fb.Addressable := by
  have hglyph := fb.glyph_fits
  by_cases hzero : fb.height = 0
  · exact .inl hzero
  · obtain ⟨s, s', hrow⟩ := forM_ok h (mem_range.mpr (show fb.height - 1 < fb.height by omega))
    obtain ⟨r, r', hpixel⟩ := forM_ok hrow (mem_range.mpr (show fb.width - 1 < fb.width by omega))
    exact .inr (offset_lt_of_putPixel hpixel)

end Terminal

open Terminal in
/-- **Terminal output stays in the framebuffer.**  After `Writer::new`, whatever bytes are written
and however the cursor is drawn and erased in between, nothing panics or overflows in either build
profile and every store is inside the framebuffer, iff the offsets of the framebuffer's last pixel
are `usize`. -/
theorem terminal_in_framebuffer_iff (fb : UsizeFrameBuffer) (font : Font) (memory : Bytes) :
    (∀ p ops, ∃ t, session p fb.toFrameBuffer font ops (start memory) = .ok () t ∧
      ∀ a ∈ t.stores, a < fb.height * fb.pitch) ↔
    fb.height = 0 ∨ fb.offset (fb.width - 1) (fb.height - 1) + 2 < 2 ^ 64 := by
  constructor
  · intro h
    obtain ⟨t, hsession, -⟩ := h .dev []
    obtain ⟨_, _, hclear, -⟩ := bind_ok hsession
    exact addressable_of_clear hclear
  · intro h p ops
    obtain ⟨stores, hsession, hstores⟩ := session_eq fb h memory ops
    exact ⟨_, hsession, hstores⟩

/-- Three lines that are 4096 bytes short of `2^64` apart: the second lies right below the first in
memory, where pointers wrap, and the offset of the third is no `usize`. -/
def farFrameBuffer : UsizeFrameBuffer where
  width := 8
  height := 3
  pitch := 2 ^ 64 - 4096
  bytesPerPixel := 3
  colors_fit := by decide
  line_fits := by decide
  glyph_fits := by decide
  height_lt := by decide
  pitch_lt := by decide

open Terminal in
/-- Its product overflows when `Writer::new` clears the screen. -/
theorem clear_overflows :
    (session .dev farFrameBuffer.toFrameBuffer (fun _ => none) [] (start fun _ => 0)).faulted
      = true := by
  decide +kernel

end NwinOs.Drivers
