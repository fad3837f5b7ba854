import NwinOs.Mm.FrameAllocator
import NwinOs.Paging.Remap

/-!
# Copy-on-write faults

`resolveCowFault` repairs a write to a shared page: the sole owner gets the page writable, otherwise
the frame is cloned, the clone takes its place and the old frame loses a reference.

It works on physical memory, of which only the operations in `CowMapper` are used, and on the global
frame allocator.  A panic (an `expect` on the mapper's result, a failed release) is `none`, and so
is a `copy_nonoverlapping` whose two ranges overlap.
-/

namespace NwinOs.Mm

open Paging

/-- The operations on physical memory: the `x86_64` crate's mapper for the level-4 table in `CR3`,
over the global allocator, and a copy of 4096 bytes through the direct map.  A page is named by its
number; `none` is an error of the mapper. -/
structure CowMapper (S : Type) where
  /-- The physical address of a virtual one. -/
  translateAddr : S → ℕ → Option ℕ
  /-- The flags of the entry that maps a virtual address. -/
  translate : S → ℕ → Option PageTableFlags
  updateFlags : S → ℕ → PageTableFlags → Option S
  unmap : S → ℕ → Option S
  mapTo : S → BitmapFrameAllocator → ℕ → ℕ → PageTableFlags → Option (S × BitmapFrameAllocator)
  /-- Copies a page's worth of bytes from one physical address to another. -/
  copy : S → ℕ → ℕ → S

/-- Physical memory and the global frame allocator. -/
structure CowState (S : Type) where
  memory : S
  allocator : BitmapFrameAllocator

/-- The two ranges of 4096 bytes have a byte in common. -/
def overlap (src dst : ℕ) : Bool := src < dst + FRAME_SIZE && dst < src + FRAME_SIZE

/-- Resolves a copy-on-write page fault; `true` when the fault is repaired and the CPU can retry the
faulting instruction. -/
def resolveCowFault {S : Type} (m : CowMapper S) (st : CowState S) (faultAddr : ℕ) :
    Option (CowState S × Bool) :=
  let page := faultAddr / FRAME_SIZE
  match m.translateAddr st.memory faultAddr with
  | none => some (st, false)
  | some physAddr =>
    match m.translate st.memory faultAddr with
    | none => some (st, false)
    | some currentFlags =>
      let refCount := st.allocator.getRefCount physAddr
      if refCount = 0 then some (st, false)
      -- sole owner: just flip the page to writable
      else if refCount = 1 then
        (m.updateFlags st.memory page currentFlags.setWritable).map fun memory =>
          ({ st with memory }, true)
      else
        match st.allocator.allocateFrame with
        | (a, none) => some ({ st with allocator := a }, false)
        | (a, some newFrameAddr) =>
          -- the source of the copy is the translated address, not the start of its frame
          if overlap physAddr newFrameAddr then none
          else do
            let memory ← m.unmap (m.copy st.memory physAddr newFrameAddr) page
            let (memory, a) ←
              m.mapTo memory a page (newFrameAddr / FRAME_SIZE) currentFlags.setWritable
            let a ← a.deallocateFrame physAddr
            return (⟨memory, a⟩, true)

end NwinOs.Mm
