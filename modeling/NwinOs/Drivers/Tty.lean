import NwinOs.Drivers.FrameBuffer

/-!
# The terminal

`drivers/display/tty.rs` and `_print` of `drivers/display/mod.rs`: a cursor on a framebuffer and a
parser for escape sequences.  The parameters of a sequence are `u32` and wrap.  `ansiParamIdx`
counts the stored parameters; it cannot exceed their number.
-/

namespace NwinOs.Drivers

def BG_DEFAULT : Color := #v[0, 0, 0]

def FG_DEFAULT : Color := #v[170, 170, 170]

def ANSI_COLORS : Vector Color 8 :=
  #v[#v[0, 0, 0], #v[0, 0, 170], #v[0, 170, 0], #v[0, 170, 170],
    #v[170, 0, 0], #v[170, 0, 170], #v[170, 170, 0], #v[170, 170, 170]]

/-- Where the escape-sequence parser stands. -/
inductive AnsiState
  | normal
  | escape
  | csi
  deriving DecidableEq, Repr

/-- The terminal.  `memory` is what the framebuffer's pointer points at. -/
structure Writer where
  fb : FrameBuffer
  memory : Bytes
  xPos : ℕ
  yPos : ℕ
  fgColor : Color
  bgColor : Color
  ansiState : AnsiState
  ansiParams : Vector (BitVec 32) 4
  ansiParamIdx : Fin 5
  ansiCurrentVal : BitVec 32

namespace Writer

instance neZero_five : NeZero 5 := ⟨by decide⟩

theorem row_lt : 0 < 4 := by decide

theorem column_lt : 1 < 4 := by decide

section

variable (w : Writer)

def resetCursor : Writer := { w with xPos := 0, yPos := 0 }

def clearScreen : Writer := { w with memory := w.fb.clear w.memory w.bgColor }

/-- The cursor is an underline of two rows. -/
def drawCursor : Writer :=
  { w with memory := w.fb.fillRect w.memory w.xPos (w.yPos + 6) 8 2 FG_DEFAULT }

def eraseCursor : Writer :=
  { w with memory := w.fb.fillRect w.memory w.xPos (w.yPos + 6) 8 2 w.bgColor }

/-- The terminal on a framebuffer whose memory has some contents. -/
def new (fb : FrameBuffer) (memory : Bytes) : Writer :=
  drawCursor <| clearScreen
    { fb, memory, xPos := 0, yPos := 0, fgColor := FG_DEFAULT, bgColor := BG_DEFAULT,
      ansiState := .normal, ansiParams := Vector.replicate 4 0, ansiParamIdx := 0,
      ansiCurrentVal := 0 }

/-- At the bottom the screen is cleared and writing goes on at the top. -/
def newLine : Writer :=
  let w := { w with xPos := 0, yPos := w.yPos + 8 }
  if w.fb.height ≤ w.yPos + 8 then clearScreen { w with yPos := 0 } else w

/-- The line break before a character that would reach the right margin. -/
def wrapLine : Writer := if w.fb.width ≤ w.xPos + 8 then w.newLine else w

/-- Draws a character at the cursor. -/
def printChar (font : Font) (w : Writer) (byte : Byte) : Writer :=
  let w := w.wrapLine
  { w with
    memory := w.fb.drawChar font w.memory w.xPos w.yPos byte w.fgColor w.bgColor
    xPos := w.xPos + 8 }

/-- Goes back one cell, and clears it. -/
def backspace : Writer :=
  let w :=
    if 8 ≤ w.xPos then { w with xPos := w.xPos - 8 }
    else if 8 ≤ w.yPos then
      { w with yPos := w.yPos - 8, xPos := w.fb.width - w.fb.width % 8 - 8 }
    else w
  { w with memory := w.fb.fillRect w.memory w.xPos w.yPos 8 8 w.bgColor }

/-- One parameter of the `m` command. -/
def setColor (code : ℕ) : Writer :=
  if code = 0 then { w with fgColor := FG_DEFAULT, bgColor := BG_DEFAULT }
  else if h : 30 ≤ code ∧ code ≤ 37 then { w with fgColor := ANSI_COLORS[code - 30] }
  else if h : 40 ≤ code ∧ code ≤ 47 then { w with bgColor := ANSI_COLORS[code - 40] }
  else w

/-- The commands `m`, `J`, `H` and `K`. -/
def executeAnsiCmd (cmd : Byte) : Writer :=
  if cmd = 0x6D then -- `m`
    (w.ansiParams.toList.take w.ansiParamIdx).foldl (fun w param => w.setColor param.toNat) w
  else if cmd = 0x4A then -- `J`
    if w.ansiParams[0] = 2 then w.clearScreen.resetCursor else w
  else if cmd = 0x48 then -- `H`
    let y := if 0 < w.ansiParams[0].toNat then w.ansiParams[0].toNat - 1 else 0
    let x := if 0 < w.ansiParams[1].toNat then w.ansiParams[1].toNat - 1 else 0
    { w with xPos := x * 8, yPos := y * 8 }
  else if cmd = 0x4B then -- `K`
    let mode := if 0 < w.ansiParamIdx then w.ansiParams[0] else 0
    if mode = 0 then
      let remainingWidth := w.fb.width - w.xPos
      { w with memory := w.fb.fillRect w.memory w.xPos w.yPos remainingWidth 8 w.bgColor }
    else w
  else w

/-- The current value becomes the next parameter, if there is room for one. -/
def storeParam : Writer :=
  if h : w.ansiParamIdx.val < 4 then
    { w with
      ansiParams := w.ansiParams.set w.ansiParamIdx.val w.ansiCurrentVal
      ansiParamIdx := ⟨w.ansiParamIdx.val + 1, by omega⟩ }
  else w

end

/-- Feeds a byte to the escape-sequence parser. -/
def writeByte (font : Font) (w : Writer) (byte : Byte) : Writer :=
  match w.ansiState with
  | .normal =>
    if byte = 0x1B then { w with ansiState := .escape }
    else if byte = 0x0A then w.newLine
    else if byte = 0x0D then { w with xPos := 0 }
    else if byte = 0x08 then w.backspace
    else if 0x20 ≤ byte ∧ byte ≤ 0x7E then w.printChar font byte
    else w
  | .escape =>
    if byte = 0x5B then -- `[`
      { w with
        ansiState := .csi, ansiParams := Vector.replicate 4 0, ansiParamIdx := 0,
        ansiCurrentVal := 0 }
    else { w with ansiState := .normal }
  | .csi =>
    if 0x30 ≤ byte ∧ byte ≤ 0x39 then
      { w with ansiCurrentVal := w.ansiCurrentVal * 10 + (byte - 0x30).setWidth 32 }
    else if byte = 0x3B then -- `;`
      { w.storeParam with ansiCurrentVal := 0 }
    else
      { w.storeParam.executeAnsiCmd byte with ansiState := .normal }

def writeStr (font : Font) (w : Writer) (s : List Byte) : Writer := s.foldl (writeByte font) w

end Writer

/-- `_print`, on the global writer if there is one: the cursor is erased, the text written, and the
cursor drawn again.  Formatting hands the bytes of its text to `write_str`. -/
def print (font : Font) (writer : Option Writer) (text : List Byte) : Option Writer :=
  writer.map fun w => (w.eraseCursor.writeStr font text).drawCursor

end NwinOs.Drivers
