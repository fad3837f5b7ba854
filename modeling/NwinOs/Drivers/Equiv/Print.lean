import NwinOs.Drivers.Equiv.Tty

/-!
# Printing in pieces

`print` erases the cursor, writes its text and draws the cursor.  Between two calls the cursor is
drawn and erased once more, and erasing paints its two rows with the background.  Whatever a text
does to the memory is painting (`covers_writeStr`): which pixels it paints, `footprint`, and in
which colours does not depend on the memory.  So the second call hides the difference in the pixels
that it paints, and in no others: `print_split_iff`.
-/

namespace NwinOs.Drivers

open Painting FrameBuffer

namespace Writer

variable {font : Font} {w : Writer} {memory : Bytes}

/-! ### The memory is only written -/

/-- The terminal with other contents of the memory. -/
def withMemory (w : Writer) (memory : Bytes) : Writer := { w with memory }

theorem setColor_withMemory (w : Writer) (memory : Bytes) (code : ℕ) :
    (w.withMemory memory).setColor code = (w.setColor code).withMemory memory := by
  unfold setColor
  split_ifs <;> rfl

theorem foldl_setColor_withMemory (w : Writer) (memory : Bytes) (params : List (BitVec 32)) :
    params.foldl (fun w param => w.setColor param.toNat) (w.withMemory memory) =
      (params.foldl (fun w param => w.setColor param.toNat) w).withMemory memory := by
  induction params generalizing w with
  | nil => rfl
  | cons param params ih => rw [List.foldl_cons, List.foldl_cons, setColor_withMemory, ih]

theorem executeAnsiCmd_withMemory {cmd : Byte} (hm : cmd = 0x6D) :
    (w.withMemory memory).executeAnsiCmd cmd = (w.executeAnsiCmd cmd).withMemory memory := by
  unfold executeAnsiCmd
  rw [if_pos hm, if_pos hm]
  exact foldl_setColor_withMemory w memory _

variable (w memory)

theorem storeParam_withMemory :
    (w.withMemory memory).storeParam = w.storeParam.withMemory memory := by
  unfold storeParam
  have hidx : (w.withMemory memory).ansiParamIdx = w.ansiParamIdx := rfl
  by_cases h : w.ansiParamIdx.val < 4
  · rw [dif_pos h, dif_pos (by rw [hidx]; exact h)]
    rfl
  · rw [dif_neg h, dif_neg (by rw [hidx]; exact h)]

theorem feed_withMemory (byte : Byte) :
    (w.withMemory memory).feed byte = (w.feed byte).withMemory memory := by
  have hstate : (w.withMemory memory).ansiState = w.ansiState := rfl
  unfold feed
  rw [hstate]
  split
  · split_ifs <;> rfl
  · split_ifs <;> rfl
  · rw [storeParam_withMemory]
    split_ifs with hdigit hnext hm
    · rfl
    · rfl
    · rw [executeAnsiCmd_withMemory hm]
      rfl
    · rfl

theorem action_withMemory (byte : Byte) : (w.withMemory memory).action byte = w.action byte := by
  unfold action
  rw [storeParam_withMemory]
  rfl

theorem newLine_withMemory :
    (w.withMemory memory).newLine = w.newLine.withMemory (w.withMemory memory).newLine.memory := by
  unfold newLine withMemory
  dsimp only
  split <;> rfl

theorem wrapLine_withMemory : (w.withMemory memory).wrapLine =
      w.wrapLine.withMemory (w.withMemory memory).wrapLine.memory := by
  by_cases hwrap : w.fb.width ≤ w.xPos + 8
  · have hline : w.wrapLine = w.newLine := if_pos hwrap
    have hline' : (w.withMemory memory).wrapLine = (w.withMemory memory).newLine := if_pos hwrap
    rw [hline, hline']
    exact newLine_withMemory w memory
  · have hline : w.wrapLine = w := if_neg hwrap
    have hline' : (w.withMemory memory).wrapLine = w.withMemory memory := if_neg hwrap
    rw [hline, hline']
    rfl

theorem backspace_withMemory : (w.withMemory memory).backspace =
      w.backspace.withMemory (w.withMemory memory).backspace.memory := by
  unfold backspace withMemory
  split_ifs <;> rfl

variable {memory}

variable (font)

theorem printChar_withMemory (w : Writer) (memory : Bytes) (byte : Byte) :
    (w.withMemory memory).printChar font byte =
      (w.printChar font byte).withMemory ((w.withMemory memory).printChar font byte).memory := by
  unfold printChar
  rw [wrapLine_withMemory]
  rfl

theorem act_withMemory (w : Writer) (memory : Bytes) (a : Action) :
    (w.withMemory memory).act font a =
      (w.act font a).withMemory ((w.withMemory memory).act font a).memory := by
  cases a with
  | newLine => exact newLine_withMemory w memory
  | backspace => exact backspace_withMemory w memory
  | printChar byte => exact printChar_withMemory font w memory byte
  | _ => rfl

theorem writeByte_withMemory (w : Writer) (memory : Bytes) (byte : Byte) :
    (w.withMemory memory).writeByte font byte =
      (w.writeByte font byte).withMemory ((w.withMemory memory).writeByte font byte).memory := by
  rw [writeByte_eq, writeByte_eq, feed_withMemory, action_withMemory]
  exact act_withMemory font _ memory _

theorem writeStr_withMemory (w : Writer) (memory : Bytes) (text : List Byte) :
    (w.withMemory memory).writeStr font text =
      (w.writeStr font text).withMemory ((w.withMemory memory).writeStr font text).memory := by
  induction text generalizing w memory with
  | nil => rfl
  | cons byte text ih =>
    have hfirst := writeByte_withMemory font w memory byte
    change ((w.withMemory memory).writeByte font byte).writeStr font text =
      ((w.writeByte font byte).writeStr font text).withMemory
        (((w.withMemory memory).writeByte font byte).writeStr font text).memory
    rw [hfirst]
    exact ih _ _

variable {font}

/-! ### What is painted -/

/-- The pixels that a new line paints: all, if it wraps to the top. -/
def newLineArea : Set (ℕ × ℕ) :=
  {_p | w.fb.height ≤ w.yPos + 8 + 8}

/-- The pixels that an action paints. -/
def painted : Action → Set (ℕ × ℕ)
  | .newLine => w.newLineArea
  | .backspace => FrameBuffer.rect w.backspace.xPos w.backspace.yPos 8 8
  | .printChar _ => {p | w.fb.width ≤ w.xPos + 8 ∧ p ∈ w.newLineArea} ∪ w.glyphCell
  | .clear => Set.univ
  | .eraseLine => FrameBuffer.rect w.xPos w.yPos (w.fb.width - w.xPos) 8
  | _ => ∅

variable {w}

/-- The pixels that a text paints. -/
def footprint (font : Font) : Writer → List Byte → Set (ℕ × ℕ)
  | _, [] => ∅
  | w, byte :: text => w.painted (w.action byte) ∪ footprint font (w.writeByte font byte) text

theorem covers_newLine (w : Writer) :
    w.fb.Covers (fun memory => (w.withMemory memory).newLine.memory) w.newLineArea := by
  by_cases hbottom : w.fb.height ≤ w.yPos + 8 + 8
  · have hall : w.newLineArea = Set.univ := Set.eq_univ_of_forall fun _ => hbottom
    have hmemory : (fun memory => (w.withMemory memory).newLine.memory) =
        fun memory => w.fb.clear memory w.bgColor := by
      funext memory
      exact congrArg Writer.memory (if_pos hbottom)
    rw [hall, hmemory]
    exact (draws_clear w.fb w.bgColor).covers
  · have hnone : w.newLineArea = ∅ := Set.eq_empty_of_forall_notMem fun _ => hbottom
    have hmemory : (fun memory => (w.withMemory memory).newLine.memory) = fun memory => memory := by
      funext memory
      exact congrArg Writer.memory (if_neg hbottom)
    rw [hnone, hmemory]
    exact w.fb.covers_nothing

theorem covers_wrapLine (w : Writer) :
    w.fb.Covers (fun memory => (w.withMemory memory).wrapLine.memory)
      {p | w.fb.width ≤ w.xPos + 8 ∧ p ∈ w.newLineArea} := by
  by_cases hwrap : w.fb.width ≤ w.xPos + 8
  · have harea : {p | w.fb.width ≤ w.xPos + 8 ∧ p ∈ w.newLineArea} = w.newLineArea :=
      Set.ext fun _ => and_iff_right hwrap
    have hmemory : (fun memory => (w.withMemory memory).wrapLine.memory) =
        fun memory => (w.withMemory memory).newLine.memory := by
      funext memory
      exact congrArg Writer.memory (if_pos hwrap)
    rw [harea, hmemory]
    exact covers_newLine w
  · have hnone : {p | w.fb.width ≤ w.xPos + 8 ∧ p ∈ w.newLineArea} = ∅ :=
      Set.eq_empty_of_forall_notMem fun _ h => hwrap h.1
    have hmemory : (fun memory => (w.withMemory memory).wrapLine.memory) =
        fun memory => memory := by
      funext memory
      exact congrArg Writer.memory (if_neg hwrap)
    rw [hnone, hmemory]
    exact w.fb.covers_nothing

theorem covers_backspace (w : Writer) :
    w.fb.Covers (fun memory => (w.withMemory memory).backspace.memory)
      (rect w.backspace.xPos w.backspace.yPos 8 8) := by
  have hmemory : (fun memory => (w.withMemory memory).backspace.memory) = fun memory =>
      w.fb.fillRect memory w.backspace.xPos w.backspace.yPos 8 8 w.bgColor := by
    funext memory
    rw [memory_backspace, backspace_withMemory]
    rfl
  rw [hmemory]
  exact (draws_fillRect w.fb _ _ 8 8 w.bgColor).covers

variable (font)

theorem covers_printChar (w : Writer) (byte : Byte) :
    w.fb.Covers (fun memory => ((w.withMemory memory).printChar font byte).memory)
      ({p | w.fb.width ≤ w.xPos + 8 ∧ p ∈ w.newLineArea} ∪ w.glyphCell) := by
  have hdraw := (draws_drawChar w.fb font w.wrapLine.xPos w.wrapLine.yPos byte
    w.wrapLine.fgColor w.wrapLine.bgColor).covers
  have hmemory : (fun memory => ((w.withMemory memory).printChar font byte).memory) = fun memory =>
      w.fb.drawChar font (w.withMemory memory).wrapLine.memory w.wrapLine.xPos w.wrapLine.yPos byte
        w.wrapLine.fgColor w.wrapLine.bgColor := by
    funext memory
    unfold printChar
    rw [wrapLine_withMemory]
    exact congrArg (fun fb : FrameBuffer => fb.drawChar font _ _ _ byte _ _) (fb_wrapLine w)
  rw [hmemory]
  exact (covers_wrapLine w).comp hdraw

theorem covers_act (w : Writer) (a : Action) :
    w.fb.Covers (fun memory => ((w.withMemory memory).act font a).memory) (w.painted a) := by
  cases a with
  | newLine => exact covers_newLine w
  | backspace => exact covers_backspace w
  | printChar byte => exact covers_printChar font w byte
  | clear => exact (draws_clear w.fb w.bgColor).covers
  | eraseLine =>
    exact (draws_fillRect w.fb w.xPos w.yPos (w.fb.width - w.xPos) 8 w.bgColor).covers
  | _ => exact w.fb.covers_nothing

theorem SameScreen.painted_eq {w' : Writer} (h : SameScreen w w') (a : Action) :
    w'.painted a = w.painted a := by
  obtain ⟨hfb, -, hx, hy⟩ := h
  have hline : w'.newLineArea = w.newLineArea := by
    unfold newLineArea
    rw [hfb, hy]
  have hcell : w'.glyphCell = w.glyphCell := by
    unfold glyphCell
    rw [xPos_wrapLine, yPos_wrapLine, xPos_wrapLine, yPos_wrapLine, hfb, hx, hy]
  cases a with
  | newLine => exact hline
  | backspace =>
    unfold painted
    rw [xPos_backspace, yPos_backspace, xPos_backspace, yPos_backspace, hfb, hx, hy]
  | printChar byte =>
    unfold painted
    rw [hline, hcell, hfb, hx]
  | eraseLine =>
    unfold painted
    rw [hfb, hx, hy]
  | _ => rfl

variable (w)

theorem covers_writeByte (byte : Byte) :
    w.fb.Covers (fun memory => ((w.withMemory memory).writeByte font byte).memory)
      (w.painted (w.action byte)) := by
  have hact := covers_act font (w.feed byte) (w.action byte)
  have hmemory : (fun memory => ((w.withMemory memory).writeByte font byte).memory) =
      fun memory => (((w.feed byte).withMemory memory).act font (w.action byte)).memory := by
    funext memory
    rw [writeByte_eq, feed_withMemory, action_withMemory]
  rw [(sameScreen_feed w byte).painted_eq, (sameScreen_feed w byte).fb] at hact
  rw [hmemory]
  exact hact

variable (text : List Byte)

/-- **A text paints its footprint.** -/
theorem covers_writeStr :
    w.fb.Covers (fun memory => ((w.withMemory memory).writeStr font text).memory)
      (w.footprint font text) := by
  induction text generalizing w with
  | nil => exact w.fb.covers_nothing
  | cons byte text ih =>
    have hrest := ih (w.writeByte font byte)
    have hmemory : (fun memory => ((w.withMemory memory).writeStr font (byte :: text)).memory) =
        fun memory => (((w.writeByte font byte).withMemory
          ((w.withMemory memory).writeByte font byte).memory).writeStr font text).memory := by
      funext memory
      rw [← writeByte_withMemory]
      rfl
    rw [fb_writeByte] at hrest
    rw [hmemory]
    exact (covers_writeByte font w byte).comp hrest

/-! ### Two calls -/

/-- The pixels of the cursor. -/
def cursorRect : Set (ℕ × ℕ) := FrameBuffer.rect w.xPos (w.yPos + 6) 8 2

theorem eraseCursor_drawCursor : w.drawCursor.eraseCursor = w.eraseCursor := by
  have hfg := draws_fillRect w.fb w.xPos (w.yPos + 6) 8 2 FG_DEFAULT
  have hbg := draws_fillRect w.fb w.xPos (w.yPos + 6) 8 2 w.bgColor
  exact congrArg w.withMemory (Paints.apply_of_subset hfg hbg subset_rfl w.memory)

theorem covers_rest :
    w.fb.Covers (fun memory => ((w.withMemory memory).writeStr font text).drawCursor.memory)
      (w.footprint font text ∪ (w.writeStr font text).cursorRect) := by
  have hcursor := (draws_fillRect w.fb (w.writeStr font text).xPos
    ((w.writeStr font text).yPos + 6) 8 2 FG_DEFAULT).covers
  have hmemory : (fun memory => ((w.withMemory memory).writeStr font text).drawCursor.memory) =
      fun memory => w.fb.fillRect ((w.withMemory memory).writeStr font text).memory
        (w.writeStr font text).xPos ((w.writeStr font text).yPos + 6) 8 2 FG_DEFAULT := by
    funext memory
    rw [writeStr_withMemory]
    exact congrArg (fun fb : FrameBuffer => fb.fillRect _ _ _ 8 2 FG_DEFAULT) (fb_writeStr w text)
  rw [hmemory]
  exact (covers_writeStr font w text).comp hcursor

theorem rest_eq_iff (memory memory' : Bytes) :
    ((w.withMemory memory).writeStr font text).drawCursor =
        ((w.withMemory memory').writeStr font text).drawCursor ↔
      ∀ a ∉ w.fb.area (w.footprint font text ∪ (w.writeStr font text).cursorRect),
        memory a = memory' a := by
  obtain ⟨f, hpaints⟩ := covers_rest font w text
  rw [← hpaints.eq_iff memory memory']
  constructor
  · intro heq
    exact congrArg Writer.memory heq
  · intro heq
    have hother : ∀ memory, ((w.withMemory memory).writeStr font text).drawCursor =
        (w.writeStr font text).drawCursor.withMemory
          ((w.withMemory memory).writeStr font text).drawCursor.memory := by
      intro memory
      rw [writeStr_withMemory]
      rfl
    rw [hother memory, hother memory', heq]

/-- Erasing the cursor first makes no difference iff its pixels are background or painted anyway. -/
theorem eraseCursor_hidden_iff :
    (w.eraseCursor.writeStr font text).drawCursor = (w.writeStr font text).drawCursor ↔
      ∀ p ∈ w.cursorRect, w.fb.Visible p → w.fb.pixel w.memory p = w.bgColor ∨
        p ∈ w.footprint font text ∪ (w.writeStr font text).cursorRect := by
  have herase := draws_fillRect w.fb w.xPos (w.yPos + 6) 8 2 w.bgColor
  have hiff := rest_eq_iff font w text
    (w.fb.fillRect w.memory w.xPos (w.yPos + 6) 8 2 w.bgColor) w.memory
  rw [Paints.unchanged_iff herase, ← area_diff, forall_area_iff] at hiff
  refine hiff.trans ?_
  constructor
  · intro h p hp hvisible
    by_cases hlater : p ∈ w.footprint font text ∪ (w.writeStr font text).cursorRect
    · exact .inr hlater
    · exact .inl (h p ⟨hp, hlater⟩ hvisible)
  · intro h p hp hvisible
    exact (h p hp.1 hvisible).resolve_right hp.2

end Writer

/-- **Printing in pieces**: printing two texts gives the same terminal as printing them in one, iff
each pixel of the screen under the cursor after the first text shows the background, or is painted
with the second text or its cursor. -/
theorem print_split_iff (font : Font) (w : Writer) (s t : List Byte) :
    print font (print font (some w) s) t = print font (some w) (s ++ t) ↔
      ∀ p ∈ (w.eraseCursor.writeStr font s).cursorRect, w.fb.Visible p →
        w.fb.pixel (w.eraseCursor.writeStr font s).memory p =
          (w.eraseCursor.writeStr font s).bgColor ∨
        p ∈ (w.eraseCursor.writeStr font s).footprint font t ∪
          (w.eraseCursor.writeStr font (s ++ t)).cursorRect := by
  have hfb : (w.eraseCursor.writeStr font s).fb = w.fb := Writer.fb_writeStr _ s
  have hiff := Writer.eraseCursor_hidden_iff font (w.eraseCursor.writeStr font s) t
  have hsplit : print font (print font (some w) s) t =
      some ((w.eraseCursor.writeStr font s).eraseCursor.writeStr font t).drawCursor := by
    rw [← Writer.eraseCursor_drawCursor]
    rfl
  have hjoined : print font (some w) (s ++ t) =
      some ((w.eraseCursor.writeStr font s).writeStr font t).drawCursor := by
    rw [← Writer.writeStr_append]
    rfl
  rw [hfb] at hiff
  rw [hsplit, hjoined, Option.some.injEq, hiff, Writer.writeStr_append]

/-- A font whose glyphs are a few dots in the seventh row. -/
def dotFont : Font := fun _ => some #v[0, 0, 0, 0, 0, 0, 0x33, 0]

/-- `A`, a carriage return and a line feed: if the line feed is printed on its own, the cursor in
between takes away the seventh row of the `A`. -/
theorem print_split_differs :
    print dotFont (print dotFont (some (Writer.new Writer.smallScreen fun _ => 0)) [0x41, 0x0D])
      [0x0A]
      ≠ print dotFont (some (Writer.new Writer.smallScreen fun _ => 0))
        ([0x41, 0x0D] ++ [0x0A]) := by
  intro heq
  -- the first byte of the pixel in column 0 and row 6
  have hsplit : (print dotFont (print dotFont (some (Writer.new Writer.smallScreen fun _ => 0))
      [0x41, 0x0D]) [0x0A]).map (fun w => w.memory 576) = some 0 := by decide +kernel
  have hjoined : (print dotFont (some (Writer.new Writer.smallScreen fun _ => 0))
      ([0x41, 0x0D] ++ [0x0A])).map (fun w => w.memory 576) = some 170 := by decide +kernel
  rw [heq, hjoined] at hsplit
  exact absurd hsplit (by decide)

end NwinOs.Drivers
