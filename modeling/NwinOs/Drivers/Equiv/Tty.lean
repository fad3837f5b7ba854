import NwinOs.Drivers.Tty
import NwinOs.Drivers.Equiv.FrameBuffer

/-!
# The terminal as a parser and a screen

A byte that is written goes through the parser for escape sequences (`feed`, which also keeps the
colours), and may make the screen do something (`action`, `act`): `writeByte_eq`.  What the parser
makes of the bytes depends neither on the cursor nor on the memory, and what an action does to the
cursor does not depend on the memory.

* `OnScreen.act_iff`: every action keeps the cursor on the screen, except for cursor addressing,
  which takes any row and column.
* `cursor_on_screen_iff`: the cursor stays on the screen in a run iff no addressing leaves it.
-/

namespace NwinOs.Drivers

/-- What a byte makes the screen do. -/
inductive Action
  | quiet
  | newLine
  | carriageReturn
  | backspace
  | printChar (byte : Byte)
  | clear
  /-- The cursor goes to a row and a column, both counted from one. -/
  | address (row column : ℕ)
  | eraseLine
  deriving DecidableEq, Repr

namespace Writer

variable {font : Font} {w : Writer} {memory : Bytes}

/-! ### Parser and screen -/

/-- The screen's part of writing a byte. -/
def act (font : Font) (w : Writer) : Action → Writer
  | .quiet => w
  | .newLine => w.newLine
  | .carriageReturn => { w with xPos := 0 }
  | .backspace => w.backspace
  | .printChar byte => w.printChar font byte
  | .clear => w.clearScreen.resetCursor
  | .address row column => { w with xPos := (column - 1) * 8, yPos := (row - 1) * 8 }
  | .eraseLine =>
    { w with memory := w.fb.fillRect w.memory w.xPos w.yPos (w.fb.width - w.xPos) 8 w.bgColor }

/-- The action of a command, once its parameters are stored. -/
def command (w : Writer) (cmd : Byte) : Action :=
  if cmd = 0x6D then .quiet
  else if cmd = 0x4A then if getElem w.ansiParams 0 row_lt = 2 then .clear else .quiet
  else if cmd = 0x48 then
    .address (getElem w.ansiParams 0 row_lt).toNat (getElem w.ansiParams 1 column_lt).toNat
  else if cmd = 0x4B then
    if (if 0 < w.ansiParamIdx then getElem w.ansiParams 0 row_lt else 0) = 0 then .eraseLine
    else .quiet
  else .quiet

/-- The action of a byte. -/
def action (w : Writer) (byte : Byte) : Action :=
  match w.ansiState with
  | .normal =>
    if byte = 0x1B then .quiet
    else if byte = 0x0A then .newLine
    else if byte = 0x0D then .carriageReturn
    else if byte = 0x08 then .backspace
    else if 0x20 ≤ byte ∧ byte ≤ 0x7E then .printChar byte
    else .quiet
  | .escape => .quiet
  | .csi =>
    if 0x30 ≤ byte ∧ byte ≤ 0x39 then .quiet
    else if byte = 0x3B then .quiet
    else w.storeParam.command byte

/-- The parser's part of writing a byte. -/
def feed (w : Writer) (byte : Byte) : Writer :=
  match w.ansiState with
  | .normal => if byte = 0x1B then { w with ansiState := .escape } else w
  | .escape =>
    if byte = 0x5B then
      { w with
        ansiState := .csi, ansiParams := Vector.replicate 4 0, ansiParamIdx := 0,
        ansiCurrentVal := 0 }
    else { w with ansiState := .normal }
  | .csi =>
    if 0x30 ≤ byte ∧ byte ≤ 0x39 then
      { w with ansiCurrentVal := w.ansiCurrentVal * 10 + (byte - 0x30).setWidth 32 }
    else if byte = 0x3B then { w.storeParam with ansiCurrentVal := 0 }
    else
      { (if byte = 0x6D then w.storeParam.executeAnsiCmd byte else w.storeParam) with
        ansiState := .normal }

theorem ite_sub_one (n : ℕ) : (if 0 < n then n - 1 else 0) = n - 1 := by
  split_ifs with h
  · rfl
  · omega

theorem executeAnsiCmd_eq (font : Font) (w : Writer) (cmd : Byte) :
    { w.executeAnsiCmd cmd with ansiState := .normal } =
      act font { (if cmd = 0x6D then w.executeAnsiCmd cmd else w) with ansiState := .normal }
        (w.command cmd) := by
  unfold command
  by_cases hm : cmd = 0x6D
  · rw [if_pos hm, if_pos hm, act]
  · rw [if_neg hm, if_neg hm, executeAnsiCmd, if_neg hm]
    simp only [ite_sub_one]
    split_ifs <;> rfl

/-- **What writing a byte does**: the parser takes it, then the screen acts. -/
theorem writeByte_eq (font : Font) (w : Writer) (byte : Byte) :
    w.writeByte font byte = (w.feed byte).act font (w.action byte) := by
  obtain ⟨fb, memory, x, y, fg, bg, state, params, idx, value⟩ := w
  unfold writeByte feed action
  cases state with
  | normal | escape =>
    dsimp only
    split_ifs <;> rfl
  | csi =>
    by_cases hdigit : 0x30 ≤ byte ∧ byte ≤ 0x39
    · rw [if_pos hdigit, if_pos hdigit, if_pos hdigit, act]
    · by_cases hnext : byte = 0x3B
      · rw [if_neg hdigit, if_neg hdigit, if_neg hdigit, if_pos hnext, if_pos hnext, if_pos hnext,
          act]
      · rw [if_neg hdigit, if_neg hdigit, if_neg hdigit, if_neg hnext, if_neg hnext, if_neg hnext]
        exact executeAnsiCmd_eq font _ byte

/-! ### What the parser leaves alone -/

/-- The framebuffer, its memory and the cursor are the same. -/
structure SameScreen (w w' : Writer) : Prop where
  fb : w'.fb = w.fb
  memory : w'.memory = w.memory
  xPos : w'.xPos = w.xPos
  yPos : w'.yPos = w.yPos

theorem SameScreen.trans {w₁ w₂ w₃ : Writer} (h : SameScreen w₁ w₂) (h' : SameScreen w₂ w₃) :
    SameScreen w₁ w₃ :=
  ⟨h'.fb.trans h.fb, h'.memory.trans h.memory, h'.xPos.trans h.xPos, h'.yPos.trans h.yPos⟩

variable (w)

theorem sameScreen_setColor (code : ℕ) : SameScreen w (w.setColor code) := by
  unfold setColor
  split_ifs <;> exact ⟨rfl, rfl, rfl, rfl⟩

theorem sameScreen_foldl_setColor (params : List (BitVec 32)) :
    SameScreen w (params.foldl (fun w param => w.setColor param.toNat) w) := by
  induction params generalizing w with
  | nil => exact ⟨rfl, rfl, rfl, rfl⟩
  | cons param params ih => exact (sameScreen_setColor w _).trans (ih _)

theorem sameScreen_storeParam : SameScreen w w.storeParam := by
  unfold storeParam
  split_ifs <;> exact ⟨rfl, rfl, rfl, rfl⟩

theorem sameScreen_feed (byte : Byte) : SameScreen w (w.feed byte) := by
  unfold feed
  split
  · split_ifs <;> exact ⟨rfl, rfl, rfl, rfl⟩
  · split_ifs <;> exact ⟨rfl, rfl, rfl, rfl⟩
  · have hstore := sameScreen_storeParam w
    split_ifs with hdigit hnext hm
    · exact ⟨rfl, rfl, rfl, rfl⟩
    · exact hstore.trans ⟨rfl, rfl, rfl, rfl⟩
    · rw [executeAnsiCmd, if_pos hm]
      exact (hstore.trans (sameScreen_foldl_setColor _ _)).trans ⟨rfl, rfl, rfl, rfl⟩
    · exact hstore.trans ⟨rfl, rfl, rfl, rfl⟩

/-! ### Where the cursor goes -/

theorem fb_newLine : w.newLine.fb = w.fb := by
  unfold newLine
  dsimp only
  split <;> rfl

theorem xPos_newLine : w.newLine.xPos = 0 := by
  unfold newLine
  dsimp only
  split <;> rfl

theorem yPos_newLine : w.newLine.yPos = if w.fb.height ≤ w.yPos + 8 + 8 then 0 else w.yPos + 8 := by
  unfold newLine
  dsimp only
  split <;> rfl

theorem fb_wrapLine : w.wrapLine.fb = w.fb := by
  unfold wrapLine
  split
  · exact fb_newLine w
  · rfl

theorem xPos_wrapLine : w.wrapLine.xPos = if w.fb.width ≤ w.xPos + 8 then 0 else w.xPos := by
  unfold wrapLine
  split
  · exact xPos_newLine w
  · rfl

theorem yPos_wrapLine : w.wrapLine.yPos =
    if w.fb.width ≤ w.xPos + 8 then
      if w.fb.height ≤ w.yPos + 8 + 8 then 0 else w.yPos + 8
    else w.yPos := by
  unfold wrapLine
  split
  · exact yPos_newLine w
  · rfl

theorem fb_backspace : w.backspace.fb = w.fb := by
  unfold backspace
  split_ifs <;> rfl

theorem xPos_backspace : w.backspace.xPos =
    if 8 ≤ w.xPos then w.xPos - 8
    else if 8 ≤ w.yPos then w.fb.width - w.fb.width % 8 - 8 else w.xPos := by
  unfold backspace
  split_ifs <;> rfl

theorem yPos_backspace : w.backspace.yPos =
    if 8 ≤ w.xPos then w.yPos else if 8 ≤ w.yPos then w.yPos - 8 else w.yPos := by
  unfold backspace
  split_ifs <;> rfl

theorem memory_backspace : w.backspace.memory =
    w.fb.fillRect w.memory w.backspace.xPos w.backspace.yPos 8 8 w.bgColor := by
  unfold backspace
  split_ifs <;> rfl

theorem fb_act (a : Action) : (w.act font a).fb = w.fb := by
  cases a with
  | newLine => exact fb_newLine w
  | backspace => exact fb_backspace w
  | printChar byte => exact fb_wrapLine w
  | _ => rfl

theorem fb_writeByte (byte : Byte) : (w.writeByte font byte).fb = w.fb := by
  rw [writeByte_eq, fb_act, (sameScreen_feed w byte).fb]

theorem fb_writeStr (text : List Byte) : (w.writeStr font text).fb = w.fb := by
  induction text generalizing w with
  | nil => rfl
  | cons byte text ih => exact (ih _).trans (fb_writeByte w byte)

theorem writeStr_append (s t : List Byte) :
    w.writeStr font (s ++ t) = (w.writeStr font s).writeStr font t :=
  List.foldl_append

variable {w}

/-! ### The cursor on the screen -/

/-- The cursor stands on a cell of the screen. -/
structure OnScreen (w : Writer) : Prop where
  column : 8 ∣ w.xPos
  line : 8 ∣ w.yPos
  left : w.xPos < w.fb.width
  above : w.yPos + 8 ≤ w.fb.height

theorem SameScreen.onScreen {w' : Writer} (hsame : SameScreen w w') (h : w.OnScreen) :
    w'.OnScreen := by
  obtain ⟨hfb, -, hx, hy⟩ := hsame
  constructor
  · rw [hx]
    exact h.column
  · rw [hy]
    exact h.line
  · rw [hx, hfb]
    exact h.left
  · rw [hy, hfb]
    exact h.above

/-- The pixels of the next glyph. -/
def glyphCell (w : Writer) : Set (ℕ × ℕ) := FrameBuffer.rect w.wrapLine.xPos w.wrapLine.yPos 8 8

theorem OnScreen.newLine (hheight : 24 ≤ w.fb.height) (h : w.OnScreen) : w.newLine.OnScreen := by
  have hline := h.line
  have hleft := h.left
  constructor
  · rw [xPos_newLine]
    exact dvd_zero 8
  · rw [yPos_newLine]
    split_ifs <;> omega
  · rw [xPos_newLine, fb_newLine]
    omega
  · rw [yPos_newLine, fb_newLine]
    split_ifs <;> omega

theorem OnScreen.wrapLine (hheight : 24 ≤ w.fb.height) (h : w.OnScreen) : w.wrapLine.OnScreen := by
  unfold Writer.wrapLine
  split
  · exact h.newLine hheight
  · exact h

theorem xPos_wrapLine_lt (hwidth : 24 ≤ w.fb.width) : w.wrapLine.xPos + 8 < w.fb.width := by
  rw [xPos_wrapLine]
  split_ifs <;> omega

theorem OnScreen.glyphCell (hwidth : 24 ≤ w.fb.width) (hheight : 24 ≤ w.fb.height)
    (h : w.OnScreen) : ∀ p ∈ w.glyphCell, w.fb.Visible p := by
  rintro ⟨px, py⟩ hp
  have hp := FrameBuffer.mem_rect.mp hp
  have hroom := xPos_wrapLine_lt hwidth
  have habove := (h.wrapLine hheight).above
  rw [fb_wrapLine] at habove
  exact ⟨by dsimp only; omega, by dsimp only; omega⟩

theorem OnScreen.backspace (h : w.OnScreen) : w.backspace.OnScreen := by
  obtain ⟨hcolumn, hline, hleft, habove⟩ := h
  constructor
  · rw [xPos_backspace]
    split_ifs <;> omega
  · rw [yPos_backspace]
    split_ifs <;> omega
  · rw [xPos_backspace, fb_backspace]
    split_ifs <;> omega
  · rw [yPos_backspace, fb_backspace]
    split_ifs <;> omega

/-- The row and column of a cursor addressing are on a screen. -/
def InScreen (fb : FrameBuffer) : Action → Prop
  | .address row column => (row - 1) * 8 + 8 ≤ fb.height ∧ (column - 1) * 8 < fb.width
  | _ => True

instance (fb : FrameBuffer) (a : Action) : Decidable (InScreen fb a) := by
  induction a using Action.casesOn <;> dsimp only [InScreen] <;> infer_instance

/-- An action leaves the cursor on the screen iff it does not address a place off it. -/
theorem OnScreen.act_iff (font : Font) (hwidth : 24 ≤ w.fb.width) (hheight : 24 ≤ w.fb.height)
    (h : w.OnScreen) (a : Action) : (w.act font a).OnScreen ↔ InScreen w.fb a := by
  cases a with
  | address row column =>
    constructor
    · intro hnext
      exact ⟨hnext.above, hnext.left⟩
    · intro hin
      exact ⟨Dvd.intro_left _ rfl, Dvd.intro_left _ rfl, hin.2, hin.1⟩
  | quiet => exact iff_of_true h trivial
  | newLine => exact iff_of_true (h.newLine hheight) trivial
  | carriageReturn =>
    have hzero : 0 < w.fb.width := by omega
    exact iff_of_true ⟨dvd_zero 8, h.line, hzero, h.above⟩ trivial
  | backspace => exact iff_of_true h.backspace trivial
  | printChar byte =>
    have hwrap := h.wrapLine hheight
    have hroom := xPos_wrapLine_lt hwidth
    refine iff_of_true ⟨?_, hwrap.line, ?_, hwrap.above⟩ trivial
    · exact Nat.dvd_add hwrap.column (Nat.dvd_refl 8)
    · rw [fb_act]
      exact hroom
  | clear =>
    have hzero : 0 < w.fb.width := by omega
    have htop : 0 + 8 ≤ w.fb.height := by omega
    exact iff_of_true ⟨dvd_zero 8, dvd_zero 8, hzero, htop⟩ trivial
  | eraseLine => exact iff_of_true ⟨h.column, h.line, h.left, h.above⟩ trivial

theorem OnScreen.writeByte_iff (font : Font) (hwidth : 24 ≤ w.fb.width)
    (hheight : 24 ≤ w.fb.height) (h : w.OnScreen) (byte : Byte) :
    (w.writeByte font byte).OnScreen ↔ InScreen w.fb (w.action byte) := by
  have hsame := sameScreen_feed w byte
  rw [writeByte_eq, OnScreen.act_iff font (by rw [hsame.fb]; exact hwidth)
    (by rw [hsame.fb]; exact hheight) (hsame.onScreen h), hsame.fb]

theorem onScreen_new {fb : FrameBuffer} (hheight : 24 ≤ fb.height) (memory : Bytes) :
    (new fb memory).OnScreen := by
  have hglyph := fb.glyph_fits
  have hzero : 0 < fb.width := by omega
  have htop : 0 + 8 ≤ fb.height := by omega
  exact ⟨dvd_zero 8, dvd_zero 8, hzero, htop⟩

/-- **The cursor stays on the screen**, at a multiple of eight in both directions, and every glyph
is drawn on the screen, in the states that a run reaches from the start, iff no sequence of the run
addresses a row or a column off the screen. -/
theorem cursor_on_screen_iff {fb : FrameBuffer} (hwidth : 24 ≤ fb.width) (hheight : 24 ≤ fb.height)
    (font : Font) (memory : Bytes) (bytes : List Byte) :
    (∀ text rest, text ++ rest = bytes → ((new fb memory).writeStr font text).OnScreen ∧
      ∀ p ∈ ((new fb memory).writeStr font text).glyphCell, fb.Visible p) ↔
    ∀ text byte rest, text ++ byte :: rest = bytes →
      InScreen fb (((new fb memory).writeStr font text).action byte) := by
  have hfb : ∀ text, ((new fb memory).writeStr font text).fb = fb := fun text => fb_writeStr _ text
  have hstep : ∀ text byte, ((new fb memory).writeStr font text).OnScreen →
      (((new fb memory).writeStr font (text ++ [byte])).OnScreen ↔
        InScreen fb (((new fb memory).writeStr font text).action byte)) := by
    intro text byte h
    have hiff := OnScreen.writeByte_iff font (by rw [hfb]; exact hwidth)
      (by rw [hfb]; exact hheight) h byte
    rw [hfb] at hiff
    rw [writeStr_append]
    exact hiff
  constructor
  · intro h text byte rest hbytes
    have hnext := (h (text ++ [byte]) rest (by rw [List.append_assoc]; exact hbytes)).1
    exact (hstep text byte (h text _ hbytes).1).mp hnext
  · intro h text
    induction text using List.reverseRecOn with
    | nil =>
      intro rest _
      have hstart := onScreen_new hheight memory
      exact ⟨hstart, hstart.glyphCell hwidth hheight⟩
    | append_singleton text byte ih =>
      intro rest hbytes
      rw [List.append_assoc] at hbytes
      have hnext := (hstep text byte (ih _ hbytes).1).mpr (h text byte rest hbytes)
      have hcell := hnext.glyphCell (by rw [hfb]; exact hwidth) (by rw [hfb]; exact hheight)
      rw [hfb] at hcell
      exact ⟨hnext, hcell⟩

/-- A screen of three lines of three glyphs, with 32 bits for a pixel. -/
def smallScreen : FrameBuffer := .new 24 24 96 32 (by decide) (by decide) (by decide)

/-- `ESC [ 2 H A`: the cursor goes to the second line, and a character is printed there. -/
def secondLine : List Byte := [0x1B, 0x5B, 0x32, 0x48, 0x41]

theorem cursor_on_screen_iff_second_line :
    24 ≤ smallScreen.width ∧ 24 ≤ smallScreen.height ∧
    (∀ text rest, text ++ rest = secondLine →
      ((new smallScreen fun _ => 0).writeStr (fun _ => none) text).OnScreen ∧
      ∀ p ∈ ((new smallScreen fun _ => 0).writeStr (fun _ => none) text).glyphCell,
        smallScreen.Visible p) ∧
    ((new smallScreen fun _ => 0).writeStr (fun _ => none) secondLine).yPos = 8 := by
  have hall : ∀ k < 5, InScreen smallScreen (((new smallScreen fun _ => 0).writeStr
      (fun _ => none) (secondLine.take k)).action ((secondLine.drop k).headD 0)) := by
    decide +kernel
  refine ⟨by decide, by decide, (cursor_on_screen_iff (by decide) (by decide) _ _ _).mpr ?_,
    by decide +kernel⟩
  intro text byte rest hbytes
  have hlength : text.length + (rest.length + 1) = 5 := by
    rw [← List.length_cons, ← List.length_append, hbytes]
    rfl
  have hin := hall text.length (by omega)
  rw [← hbytes, List.take_left, List.drop_left] at hin
  exact hin

/-- `ESC [ 9 9 9 9 ; 9 9 9 9 H` takes the cursor off the screen. -/
theorem address_leaves_screen : ((new smallScreen fun _ => 0).writeStr (fun _ => none)
      [0x1B, 0x5B, 0x39, 0x39, 0x39, 0x39, 0x3B, 0x39, 0x39, 0x39, 0x39, 0x48]).xPos = 79984 ∧
    ((new smallScreen fun _ => 0).writeStr (fun _ => none)
      [0x1B, 0x5B, 0x39, 0x39, 0x39, 0x39, 0x3B, 0x39, 0x39, 0x39, 0x39, 0x48]).yPos = 79984 ∧
    smallScreen.width = 24 ∧ smallScreen.height = 24 := by
  decide +kernel

end Writer

end NwinOs.Drivers
