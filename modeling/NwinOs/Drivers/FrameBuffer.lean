import NwinOs.Bytes

/-!
# The framebuffer

`drivers/display/fb.rs`.  A framebuffer describes how pixels lie in the memory behind its pointer;
the drawing functions take that memory, counted from the pointer on, and return what they make of
it.  The fields after the source's own say what the boot loader promises of it: a pixel has room for
its three colours, a scan line has room for its pixels, and a line is as wide as a glyph at least.
Coordinates are natural numbers: `usize` does not overflow on a framebuffer that is in memory.

The font table is that of an external library; it is a parameter of what uses it.
-/

namespace NwinOs.Drivers

/-- Red, green and blue as they are stored. -/
abbrev Color := Vector Byte 3

/-- `BASIC_FONTS.get`: the eight rows of a glyph, if there is one. -/
abbrev Font := Byte → Option (Vector Byte 8)

/-- The geometry of the screen. -/
structure FrameBuffer where
  width : ℕ
  height : ℕ
  /-- Bytes per scan line. -/
  pitch : ℕ
  bytesPerPixel : ℕ
  colors_fit : 3 ≤ bytesPerPixel
  line_fits : width * bytesPerPixel ≤ pitch
  glyph_fits : 8 ≤ width

namespace FrameBuffer

/-- `bpp` is in bits. -/
def new (width height pitch bpp : ℕ) (colors_fit : 3 ≤ bpp / 8)
    (line_fits : width * (bpp / 8) ≤ pitch) (glyph_fits : 8 ≤ width) : FrameBuffer :=
  ⟨width, height, pitch, bpp / 8, colors_fit, line_fits, glyph_fits⟩

variable (fb : FrameBuffer)

/-- Where the bytes of a pixel start. -/
def offset (x y : ℕ) : ℕ := y * fb.pitch + x * fb.bytesPerPixel

/-- The three stores of a pixel. -/
def putPixel (memory : Bytes) (x y : ℕ) (color : Color) : Bytes :=
  memory.splice (fb.offset x y) color.toList

/-- Pixels outside the screen are ignored. -/
def drawPixel (memory : Bytes) (x y : ℕ) (color : Color) : Bytes :=
  if x < fb.width ∧ y < fb.height then fb.putPixel memory x y color else memory

def fillRect (memory : Bytes) (x y w h : ℕ) (color : Color) : Bytes :=
  (List.range h).foldl (fun memory rowI => (List.range w).foldl (fun memory colI =>
    fb.drawPixel memory (x + colI) (y + rowI) color) memory) memory

def clear (memory : Bytes) (color : Color) : Bytes :=
  (List.range fb.height).foldl (fun memory y => (List.range fb.width).foldl (fun memory x =>
    fb.putPixel memory x y color) memory) memory

/-- Draws a glyph; a byte without one is blank. -/
def drawChar (font : Font) (memory : Bytes) (x y : ℕ) (byte : Byte) (fg bg : Color) : Bytes :=
  let glyph := (font byte).getD (Vector.replicate 8 0)
  glyph.toList.zipIdx.foldl (fun memory (row, rowI) => (List.range 8).foldl (fun memory bitI =>
    let isActive := row &&& (1#8 <<< bitI) != 0
    let color := if isActive then fg else bg
    fb.drawPixel memory (x + bitI) (y + rowI) color) memory) memory

end FrameBuffer

end NwinOs.Drivers
