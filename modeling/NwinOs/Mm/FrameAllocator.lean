import NwinOs.Profile
import NwinOs.Bits

/-!
# The physical frame allocator

`BitmapFrameAllocator` owns two parallel arrays: `bitmap`, one bit per frame (set = busy), and
`refCounts`, one `u16` per frame.  `init` builds them from the boot loader's memory map; the four
public operations are `allocateFrame`, `allocateContiguousFrames`, `referenceFrame` and
`deallocateFrame`.

The slices are vectors of the length `init` gives them, so every index expression of the source
is in range.  A panic (a failed assertion, an `expect`, an overflow of the development profile)
is `none`.
-/

namespace NwinOs.Mm

open Bits

/-- Size of a single physical frame in bytes. -/
def FRAME_SIZE : ℕ := 4096

/-- The kinds of the boot loader's memory map that the kernel distinguishes. -/
inductive MemmapKind
  | usable
  | bootloaderReclaimable
  | executableAndModules
  | framebuffer
  | other
  deriving DecidableEq, Repr

/-- An entry of the boot loader's memory map. -/
structure MemmapEntry where
  base : ℕ
  length : ℕ
  kind : MemmapKind
  deriving DecidableEq, Repr

/-- Bitmap-backed frame allocator with per-frame reference counts. -/
structure BitmapFrameAllocator where
  totalFrames : ℕ
  bitmap : Vector (BitVec 8) ((totalFrames + 7) / 8)
  refCounts : Vector (BitVec 16) totalFrames
  lastFreeFrameHint : ℕ

namespace BitmapFrameAllocator

/-! ### Internal bit manipulation helpers -/

variable (s : BitmapFrameAllocator)

/-- Marks a frame busy, with count one. -/
def forceSetBit (frame : ℕ) : BitmapFrameAllocator :=
  if h : frame < s.totalFrames then
    { s with
      bitmap := s.bitmap.set (frame / 8) (setBit s.bitmap[frame / 8] (frame % 8)) (by omega)
      refCounts := s.refCounts.set frame 1#16 h }
  else s

/-- Marks a frame free, with count zero. -/
def forceFreeBit (frame : ℕ) : BitmapFrameAllocator :=
  if h : frame < s.totalFrames then
    { s with
      bitmap := s.bitmap.set (frame / 8) (clearBit s.bitmap[frame / 8] (frame % 8)) (by omega)
      refCounts := s.refCounts.set frame 0#16 h }
  else s

/-- Whether a frame is busy.  Out-of-range frames are treated as busy. -/
def testBit (frame : ℕ) : Bool :=
  if h : frame < s.totalFrames then Bits.testBit s.bitmap[frame / 8] (frame % 8) else true

/-! ### Initialisation -/

/-- The kinds that count for the highest physical address. -/
def isReachableKind : MemmapKind → Bool
  | .usable | .bootloaderReclaimable | .executableAndModules | .framebuffer => true
  | .other => false

/-- The running maximum of `base + length` over the reachable entries. -/
def maxAddr (p : Profile) : List MemmapEntry → ℕ → Option ℕ
  | [], acc => some acc
  | e :: es, acc =>
    if isReachableKind e.kind then
      (p.add 64 e.base e.length).bind fun top => maxAddr p es (if top > acc then top else acc)
    else maxAddr p es acc

/-- Bytes of the bitmap rounded up to a multiple of eight, where the count array starts. -/
def bitmapSizeAligned (totalFrames : ℕ) : ℕ := ((totalFrames + 7) / 8 + 7) / 8 * 8

/-- Bytes taken by the bitmap and the count array. -/
def metadataTotalSize (totalFrames : ℕ) : ℕ := bitmapSizeAligned totalFrames + totalFrames * 2

/-- The base of the first usable entry large enough for the metadata. -/
def metadataPhysAddr (entries : List MemmapEntry) (size : ℕ) : Option ℕ :=
  (entries.find? fun e => e.kind = .usable ∧ size ≤ e.length).map (·.base)

/-- Every frame busy, every count one. -/
def allBusy (totalFrames : ℕ) : BitmapFrameAllocator where
  totalFrames := totalFrames
  bitmap := Vector.replicate _ 0xFF#8
  refCounts := Vector.replicate _ 1#16
  lastFreeFrameHint := 0

/-- Frees the whole frames of one usable entry. -/
def freeEntry (p : Profile) (s : BitmapFrameAllocator) (e : MemmapEntry) :
    Option BitmapFrameAllocator :=
  if e.kind = .usable then do
    let startFrame := (← p.sub 64 (← p.add 64 e.base FRAME_SIZE) 1) / FRAME_SIZE
    let endFrame := (← p.add 64 e.base e.length) / FRAME_SIZE
    return (List.range' startFrame (endFrame - startFrame)).foldl forceFreeBit s
  else some s

/-- Initialises the allocator from the boot loader's memory map. -/
def init (p : Profile) (entries : List MemmapEntry) : Option BitmapFrameAllocator := do
  let totalFrames := (← p.sub 64 (← p.add 64 (← maxAddr p entries 0) FRAME_SIZE) 1) / FRAME_SIZE
  let size := metadataTotalSize totalFrames
  let metadataStart := (← metadataPhysAddr entries size) / FRAME_SIZE
  let freed ← entries.foldlM (freeEntry p) (allBusy totalFrames)
  let reserved := (List.range' metadataStart ((size + FRAME_SIZE - 1) / FRAME_SIZE)).foldl
    forceSetBit freed
  return reserved.forceSetBit 0

/-! ### Public allocator API -/

/-- The first free frame of a list of candidates. -/
def firstFree (candidates : List ℕ) : Option ℕ :=
  candidates.find? fun i => !s.testBit i

/-- Picks the lowest free frame starting from the cached hint and wraps once around the table. -/
def allocateFrame : BitmapFrameAllocator × Option ℕ :=
  match s.firstFree (List.range' s.lastFreeFrameHint (s.totalFrames - s.lastFreeFrameHint)) with
  | some i => ({ s.forceSetBit i with lastFreeFrameHint := i + 1 }, some (i * FRAME_SIZE))
  | none =>
    match s.firstFree (List.range s.lastFreeFrameHint) with
    | some i => ({ s.forceSetBit i with lastFreeFrameHint := i + 1 }, some (i * FRAME_SIZE))
    | none => (s, none)

/-- `deallocateFrame` on a frame number. -/
def deallocateFrameNumber (frame : ℕ) : Option BitmapFrameAllocator :=
  if h : frame < s.totalFrames then
    if s.refCounts[frame] = 0#16 then none -- double free
    else
      let s' := { s with refCounts := s.refCounts.set frame (s.refCounts[frame] - 1#16) h }
      if s.refCounts[frame] - 1#16 = 0#16 then
        some { s' with
          bitmap := s.bitmap.set (frame / 8) (clearBit s.bitmap[frame / 8] (frame % 8)) (by omega)
          lastFreeFrameHint :=
            if frame < s.lastFreeFrameHint then frame else s.lastFreeFrameHint }
      else some s'
  else none

/-- Drops one reference to the frame holding `physAddr`; the frame returns to the free pool only
when the count reaches zero. -/
def deallocateFrame (physAddr : ℕ) : Option BitmapFrameAllocator :=
  s.deallocateFrameNumber (physAddr / FRAME_SIZE)

/-- `referenceFrame` on a frame number. -/
def referenceFrameNumber (p : Profile) (s : BitmapFrameAllocator) (frame : ℕ) :
    Option BitmapFrameAllocator :=
  if h : frame < s.totalFrames then
    if s.refCounts[frame] = 0#16 then none -- unowned frame
    else (p.add 16 s.refCounts[frame].toNat 1).map fun count =>
      { s with refCounts := s.refCounts.set frame (BitVec.ofNat 16 count) h }
  else none

/-- Adds an extra reference to the frame holding `physAddr`, which must have an owner. -/
def referenceFrame (p : Profile) (s : BitmapFrameAllocator) (physAddr : ℕ) :
    Option BitmapFrameAllocator :=
  s.referenceFrameNumber p (physAddr / FRAME_SIZE)

/-- The current reference count; one for a frame outside the table. -/
def getRefCount (physAddr : ℕ) : ℕ :=
  let frame := physAddr / FRAME_SIZE
  if h : frame < s.totalFrames then s.refCounts[frame].toNat else 1

/-- The number of free frames met from `i` on before the first busy one, at most `count`. -/
def freeRun (i count : ℕ) : ℕ :=
  ((List.range count).takeWhile fun j => !s.testBit (i + j)).length

/-- The scan of `allocateContiguousFrames`: the start of the first run of `count` free frames. -/
def findRun (s : BitmapFrameAllocator) (count i : ℕ) : Option ℕ :=
  if i ≤ s.totalFrames - count then
    if s.freeRun i count = count then some i
    else findRun s count (i + s.freeRun i count + 1)
  else none
termination_by s.totalFrames + 1 - i

/-- First-fit contiguous allocation. -/
def allocateContiguousFrames (count : ℕ) : BitmapFrameAllocator × Option ℕ :=
  if count = 0 then (s, none)
  else match s.findRun count 0 with
    | some i => ((List.range' i count).foldl forceSetBit s, some (i * FRAME_SIZE))
    | none => (s, none)

end BitmapFrameAllocator

end NwinOs.Mm
