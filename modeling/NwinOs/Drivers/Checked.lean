import NwinOs.Drivers.Tty
import NwinOs.Effect
import NwinOs.Profile

/-!
# The terminal on machine integers

`drivers/display/fb.rs` and `drivers/display/tty.rs` once more, now with what the natural numbers
hide: sums, differences and products are those of the build profile, an index outside its array is a
fault, and every store through the framebuffer's pointer leaves its offset in a log.  The
framebuffer's own fields never change and are parameters.
-/

namespace NwinOs.Drivers

open Effect

/-- A framebuffer whose fields are `usize`; the others are bounded by the pitch. -/
structure UsizeFrameBuffer extends FrameBuffer where
  height_lt : height < 2 ^ 64
  pitch_lt : pitch < 2 ^ 64

/-- The fields of the terminal that change, and the offsets of the bytes stored so far. -/
structure Terminal where
  memory : Bytes
  stores : List ℕ
  xPos : ℕ
  yPos : ℕ
  fgColor : Color
  bgColor : Color
  ansiState : AnsiState
  ansiParams : Vector (BitVec 32) 4
  ansiParamIdx : ℕ
  ansiCurrentVal : BitVec 32

namespace Terminal

/-- Code of the terminal; a panic is a fault. -/
abbrev Code (α : Type) := Program Terminal Empty α

variable (p : Profile) (fb : FrameBuffer)

def add (a b : ℕ) : Code ℕ := Program.ofOption (p.add 64 a b)

def sub (a b : ℕ) : Code ℕ := Program.ofOption (p.sub 64 a b)

def mul (a b : ℕ) : Code ℕ := Program.ofOption (p.mul 64 a b)

/-- A store through the pointer. -/
def store (offset : ℕ) (value : Byte) : Code Unit := Program.modify fun t =>
  { t with memory := t.memory.splice offset [value], stores := offset :: t.stores }

/-! ### The framebuffer -/

/-- The three stores of a pixel. -/
def putPixel (x y : ℕ) (color : Color) : Code Unit := do
  let row ← mul p y fb.pitch
  let column ← mul p x fb.bytesPerPixel
  let offset ← add p row column
  store offset color[0]
  let second ← add p offset 1
  store second color[1]
  let third ← add p offset 2
  store third color[2]

/-- Pixels outside the screen are ignored. -/
def drawPixel (x y : ℕ) (color : Color) : Code Unit :=
  if x < fb.width ∧ y < fb.height then putPixel p fb x y color else pure ()

def fillRect (x y w h : ℕ) (color : Color) : Code Unit :=
  (List.range h).forM fun rowI => (List.range w).forM fun colI => do
    let column ← add p x colI
    let row ← add p y rowI
    drawPixel p fb column row color

def clear (color : Color) : Code Unit :=
  (List.range fb.height).forM fun y => (List.range fb.width).forM fun x => putPixel p fb x y color

variable (font : Font)

def drawChar (x y : ℕ) (byte : Byte) (fg bg : Color) : Code Unit :=
  let glyph := (font byte).getD (Vector.replicate 8 0)
  glyph.toList.zipIdx.forM fun (row, rowI) => (List.range 8).forM fun bitI => do
    let isActive := row &&& (1#8 <<< bitI) != 0
    let color := if isActive then fg else bg
    let column ← add p x bitI
    let line ← add p y rowI
    drawPixel p fb column line color

/-! ### The terminal -/

def resetCursor : Code Unit := Program.modify fun t => { t with xPos := 0, yPos := 0 }

def clearScreen : Code Unit := do
  let t ← Program.get
  clear p fb t.bgColor

/-- The cursor is an underline of two rows. -/
def drawCursor : Code Unit := do
  let t ← Program.get
  let y ← add p t.yPos 6
  fillRect p fb t.xPos y 8 2 FG_DEFAULT

def eraseCursor : Code Unit := do
  let t ← Program.get
  let y ← add p t.yPos 6
  fillRect p fb t.xPos y 8 2 t.bgColor

/-- At the bottom the screen is cleared, and writing goes on at the top. -/
def newLine : Code Unit := do
  let t ← Program.get
  let y ← add p t.yPos 8
  Program.modify fun t => { t with xPos := 0, yPos := y }
  let bottom ← add p y 8
  if fb.height ≤ bottom then do
    Program.modify fun t => { t with yPos := 0 }
    clearScreen p fb
  else pure ()

/-- The line break before a character that would reach the margin. -/
def wrapLine : Code Unit := do
  let t ← Program.get
  let right ← add p t.xPos 8
  if fb.width ≤ right then newLine p fb else pure ()

def printChar (byte : Byte) : Code Unit := do
  wrapLine p fb
  let t ← Program.get
  drawChar p fb font t.xPos t.yPos byte t.fgColor t.bgColor
  let x ← add p t.xPos 8
  Program.modify fun t => { t with xPos := x }

/-- The step back of `backspace`. -/
def stepBack : Code Unit := do
  let t ← Program.get
  if 8 ≤ t.xPos then do
    let x ← sub p t.xPos 8
    Program.modify fun t => { t with xPos := x }
  else if 8 ≤ t.yPos then do
    let y ← sub p t.yPos 8
    let columns ← sub p fb.width (fb.width % 8)
    let x ← sub p columns 8
    Program.modify fun t => { t with yPos := y, xPos := x }
  else pure ()

def backspace : Code Unit := do
  stepBack p fb
  let t ← Program.get
  fillRect p fb t.xPos t.yPos 8 8 t.bgColor

/-- The codes and their differences are `u32`. -/
def setColor (code : ℕ) : Code Unit :=
  if code = 0 then Program.modify fun t => { t with fgColor := FG_DEFAULT, bgColor := BG_DEFAULT }
  else if 30 ≤ code ∧ code ≤ 37 then do
    let index ← Program.ofOption (p.sub 32 code 30)
    let color ← Program.ofOption ANSI_COLORS[index]?
    Program.modify fun t => { t with fgColor := color }
  else if 40 ≤ code ∧ code ≤ 47 then do
    let index ← Program.ofOption (p.sub 32 code 40)
    let color ← Program.ofOption ANSI_COLORS[index]?
    Program.modify fun t => { t with bgColor := color }
  else pure ()

/-- A coordinate of the `H` command, counted from zero. -/
def coordinate (param : BitVec 32) :
    Code ℕ := if 0 < param.toNat then sub p param.toNat 1 else pure 0

/-- The commands `m`, `J`, `H` and `K`. -/
def executeAnsiCmd (cmd : Byte) : Code Unit := do
  let t ← Program.get
  if cmd = 0x6D then -- `m`
    (List.range t.ansiParamIdx).forM fun i => do
      let t ← Program.get
      let param ← Program.ofOption t.ansiParams[i]?
      setColor p param.toNat
  else if cmd = 0x4A then -- `J`
    if getElem t.ansiParams 0 Writer.row_lt = 2 then do
      clearScreen p fb
      resetCursor
    else pure ()
  else if cmd = 0x48 then do -- `H`
    let y ← coordinate p (getElem t.ansiParams 0 Writer.row_lt)
    let x ← coordinate p (getElem t.ansiParams 1 Writer.column_lt)
    let xPos ← mul p x 8
    let yPos ← mul p y 8
    Program.modify fun t => { t with xPos, yPos }
  else if cmd = 0x4B then -- `K`
    let mode := if 0 < t.ansiParamIdx then getElem t.ansiParams 0 Writer.row_lt else 0
    if mode = 0 then fillRect p fb t.xPos t.yPos (fb.width - t.xPos) 8 t.bgColor
    else pure ()
  else pure ()

/-- The current value becomes the next parameter, if there is room. -/
def storeParam : Code Unit := do
  let t ← Program.get
  if t.ansiParamIdx < 4 then do
    let ansiParams ← Program.ofOption
      (if h : t.ansiParamIdx < 4 then some (t.ansiParams.set t.ansiParamIdx t.ansiCurrentVal)
        else none)
    let ansiParamIdx ← add p t.ansiParamIdx 1
    Program.modify fun t => { t with ansiParams, ansiParamIdx }
  else pure ()

/-- Feeds a byte to the escape-sequence parser. -/
def writeByte (byte : Byte) : Code Unit := do
  let t ← Program.get
  match t.ansiState with
  | .normal =>
    if byte = 0x1B then Program.modify fun t => { t with ansiState := .escape }
    else if byte = 0x0A then newLine p fb
    else if byte = 0x0D then Program.modify fun t => { t with xPos := 0 }
    else if byte = 0x08 then backspace p fb
    else if 0x20 ≤ byte ∧ byte ≤ 0x7E then printChar p fb font byte
    else pure ()
  | .escape =>
    if byte = 0x5B then -- `[`
      Program.modify fun t =>
        { t with
          ansiState := .csi, ansiParams := Vector.replicate 4 0, ansiParamIdx := 0,
          ansiCurrentVal := 0 }
    else Program.modify fun t => { t with ansiState := .normal }
  | .csi =>
    if 0x30 ≤ byte ∧ byte ≤ 0x39 then do
      let digit ← Program.ofOption (p.sub 8 byte.toNat 0x30)
      Program.modify fun t =>
        { t with ansiCurrentVal := t.ansiCurrentVal * 10 + BitVec.ofNat 32 digit }
    else if byte = 0x3B then do -- `;`
      storeParam p
      Program.modify fun t => { t with ansiCurrentVal := 0 }
    else do
      storeParam p
      executeAnsiCmd p fb byte
      Program.modify fun t => { t with ansiState := .normal }

/-! ### Sessions -/

/-- The fields that `Writer::new` sets before it draws. -/
def start (memory : Bytes) : Terminal where
  memory := memory
  stores := []
  xPos := 0
  yPos := 0
  fgColor := FG_DEFAULT
  bgColor := BG_DEFAULT
  ansiState := .normal
  ansiParams := Vector.replicate 4 0
  ansiParamIdx := 0
  ansiCurrentVal := 0

/-- The public operations. -/
inductive Op
  | writeByte (byte : Byte)
  | drawCursor
  | eraseCursor
  deriving DecidableEq, Repr

/-- The function of an operation. -/
def exec : Op → Code Unit
  | .writeByte byte => writeByte p fb font byte
  | .drawCursor => drawCursor p fb
  | .eraseCursor => eraseCursor p fb

/-- `Writer::new`, then the operations. -/
def session (ops : List Op) : Code Unit := do
  clearScreen p fb
  drawCursor p fb
  ops.forM (exec p fb font)

end Terminal

end NwinOs.Drivers
