import NwinOs.Mm.FrameAllocator
import NwinOs.Paging

/-!
# User address spaces

The page-table side of the memory manager: `createIsolatedPml4` builds the level-4 table of a user
task from the current one, `allocateAndMapUserPage` adds a page to it, `destroyUserAddressSpace`
releases it.  All three work on physical memory (through the kernel's direct map) and on the one
global frame allocator; `MemoryState` is the pair.

A frame is named by its number, an address divided by `FRAME_SIZE`.  The `x86_64` crate's mapper is
a parameter.
-/

namespace NwinOs.Mm

open Paging

/-- Virtual address at which the kernel heap starts. -/
def HEAP_START : ℕ := 0x4444_4444_0000

/-- Initial heap reservation size. -/
def HEAP_SIZE : ℕ := 1024 * 1024

/-- Physical memory and the global frame allocator. -/
structure MemoryState where
  mem : Memory
  allocator : BitmapFrameAllocator

/-- The memory errors that mapping a page can give. -/
inductive MemoryError
  | outOfFrames
  | invalidMapping
  deriving DecidableEq, Repr

/-- The crate's mapper over the global allocator. -/
abbrev Mapper := OffsetPageTable BitmapFrameAllocator

/-- `SystemFrameAllocator::allocate_frame`: the frame is zeroed before it is handed out. -/
def systemAllocateFrame (mem : Memory) (a : BitmapFrameAllocator) :
    Memory × BitmapFrameAllocator × Option ℕ :=
  match a.allocateFrame with
  | (a, some frameAddress) =>
    (mem.zero (frameAddress / FRAME_SIZE), a, some (frameAddress / FRAME_SIZE))
  | (a, none) => (mem, a, none)

/-- Maps a single page in the given PML4.  An existing mapping is left intact and reported as a
success; a frame whose mapping fails is not given back. -/
def allocateAndMapUserPage (m : Mapper) (st : MemoryState) (targetPml4 virtualAddress : ℕ) :
    MemoryState × Except MemoryError Unit :=
  if m.translatePage st.mem targetPml4 virtualAddress then (st, .ok ())
  else match st.allocator.allocateFrame with
    | (a, none) => ({ st with allocator := a }, .error .outOfFrames)
    | (a, some frameAddr) =>
      let frame := frameAddr / FRAME_SIZE
      match m.mapTo systemAllocateFrame st.mem a targetPml4 virtualAddress frame with
      | ((mem, a), .error _) => (⟨mem, a⟩, .error .invalidMapping)
      | ((mem, a), .ok ()) => (⟨mem.zero frame, a⟩, .ok ())

/-- The level-4 table of a new task: the upper half of the current one, and those entries of the
lower half that are in use and not `USER_ACCESSIBLE`. -/
def isolatedTable (current : ℕ → PageTableEntry) (i : ℕ) : PageTableEntry :=
  if 256 ≤ i ∧ i < 512 then current i
  else if i < 256 ∧ (current i).isUnused = false ∧ (current i).userAccessible = false then current i
  else .unused

/-- Allocates a new PML4 for a user task; `currentPml4` is what `CR3` holds. -/
def createIsolatedPml4 (st : MemoryState) (currentPml4 : ℕ) : MemoryState × Option ℕ :=
  match systemAllocateFrame st.mem st.allocator with
  | (mem, a, none) => (⟨mem, a⟩, none)
  | (mem, a, some newFrame) =>
    (⟨Function.update mem newFrame (isolatedTable (mem currentPml4)), a⟩, some newFrame)

/-! ### Tearing an address space down -/

namespace MemoryState

/-- `cow_deallocate_frame`; `none` is its panic. -/
def cowDeallocateFrame (st : MemoryState) (frame : ℕ) : Option MemoryState :=
  (st.allocator.deallocateFrame (frame * FRAME_SIZE)).map fun a => { st with allocator := a }

/-- `set_unused` on one entry. -/
def setUnused (st : MemoryState) (table i : ℕ) : MemoryState :=
  { st with mem := st.mem.write table i .unused }

end MemoryState

/-- One entry of a table that is torn down.  A `USER_ACCESSIBLE` entry is followed by `next`
(unless `checkHuge` is set and the entry maps a huge page), then its frame is released and the
entry is cleared. -/
def destroyEntry (next : MemoryState → ℕ → Option MemoryState) (checkHuge : Bool) (table : ℕ)
    (st : MemoryState) (i : ℕ) : Option MemoryState :=
  let entry := st.mem table i
  if !entry.isUnused && entry.userAccessible then
    (if checkHuge && entry.hugePage then some st else next st entry.frame).bind fun st =>
      (st.cowDeallocateFrame entry.frame).map fun st => st.setUnused table i
  else some st

variable (st : MemoryState)

/-- The loop over a level-1 table. -/
def destroyPt (pt : ℕ) : Option MemoryState :=
  (List.range 512).foldlM (destroyEntry (fun st _ => some st) false pt) st

/-- The loop over a level-2 table. -/
def destroyPd (pd : ℕ) : Option MemoryState :=
  (List.range 512).foldlM (destroyEntry destroyPt true pd) st

/-- The loop over a level-3 table. -/
def destroyPdpt (pdpt : ℕ) : Option MemoryState :=
  (List.range 512).foldlM (destroyEntry destroyPd true pdpt) st

/-- Releases every frame of the user half (entries 0 to 255) and the PML4 itself.  At level 4 the
source does not look at `HUGE_PAGE`. -/
def destroyUserAddressSpace (pml4Frame : ℕ) : Option MemoryState := do
  let st ← (List.range 256).foldlM (destroyEntry destroyPdpt false pml4Frame) st
  st.cowDeallocateFrame pml4Frame

end NwinOs.Mm
