import NwinOs.Effect
import NwinOs.Mm.AddressSpace
import NwinOs.Paging.FrameBytes
import NwinOs.Paging.Remap

/-!
# The ELF loader

`loadElf` reads the program headers of an executable in memory, maps the pages of every `PT_LOAD`
segment into a given PML4 and copies the segment's bytes from the file, page by page.

The source reads the file through raw pointers: `ElfSlice` is the slice together with the memory
behind it, and a read outside the slice gives what lies there.  Everything the loader reads through
a pointer, and every page it creates or writes, is logged.

`mapping_success` is the conjunction of what the parts return.  A panic is a fault.
-/

namespace NwinOs.Tasking

open Effect Paging Mm

/-- Errors that can be produced by the ELF loader. -/
inductive ElfError
  | tooSmall
  | invalidMagicNumber
  | not64Bit
  | memoryMappingFailed
  deriving DecidableEq, Repr

/-- The slice that holds the executable, by offsets from its pointer.  No slice is longer than
`isize::MAX`. -/
structure ElfSlice where
  bytes : Bytes
  length : ℕ
  length_lt : length < 2 ^ 63

/-- What the loader does to memory. -/
inductive LoadEvent
  /-- Bytes were read through a pointer into the slice. -/
  | read (offset size : ℕ)
  /-- Program header `i` was looked for at this offset. -/
  | locate (i offset : ℕ)
  /-- A page was mapped that was not before. -/
  | create (virtualAddress : ℕ)
  /-- Bytes were written to the target address space, all in one page. -/
  | write (virtualAddress size : ℕ)
  deriving DecidableEq, Repr

/-- Memory, and what has been done to it, the newest first. -/
structure LoadState where
  memory : MemoryState
  log : List LoadEvent

/-- Code of the loader. -/
abbrev LoadProgram := Program LoadState ElfError

/-- Logs an event. -/
def emit (event : LoadEvent) : LoadProgram Unit := fun s => .ok () { s with log := event :: s.log }

/-- `core::ptr::read_unaligned` at an offset from the slice's pointer. -/
def readUnaligned (elf : ElfSlice) (offset size : ℕ) : LoadProgram ℕ := do
  emit (.read offset size)
  pure (elf.bytes.get offset size)

/-- `VirtAddr::new`: an address with bit 47 set and no bit above it is sign-extended; `none` is the
panic. -/
def virtAddrNew (addr : ℕ) : Option ℕ :=
  if addr / 2 ^ 47 = 0 ∨ addr / 2 ^ 47 = 0x1FFFF then some addr
  else if addr / 2 ^ 47 = 1 then some (addr + 0xFFFF * 2 ^ 48)
  else none

/-- The crate's mapper with its lookup of addresses. -/
structure LookupMapper extends OffsetPageTable BitmapFrameAllocator where
  /-- The physical address of a virtual one, under a level-4 table. -/
  translateAddr : Memory → ℕ → ℕ → Option ℕ

/-- Translates a virtual address inside an arbitrary remote PML4. -/
def translateInPml4 (m : LookupMapper) (st : MemoryState) (targetPml4 virtualAddress : ℕ) :
    Option ℕ :=
  m.translateAddr st.mem targetPml4 virtualAddress

/-- The fields of a `PT_LOAD` header that are used. -/
structure ProgramHeader where
  pOffset : ℕ
  pVaddr : ℕ
  pFilesz : ℕ
  pMemsz : ℕ
  deriving DecidableEq, Repr

section Load

variable (m : LookupMapper) (p : Profile) (elf : ElfSlice) (targetPml4 : ℕ)

/-! ### Segments -/

/-- `allocate_and_map_user_page` as the loader calls it. -/
def mapUserPage (pageAddr : ℕ) : LoadProgram Bool := fun s =>
  match allocateAndMapUserPage m.toOffsetPageTable s.memory targetPml4 pageAddr with
  | (st, .ok ()) =>
    if m.translatePage s.memory.mem targetPml4 pageAddr then .ok true ⟨st, s.log⟩
    else .ok true ⟨st, .create pageAddr :: s.log⟩
  | (st, .error _) => .ok false ⟨st, s.log⟩

/-- The loop over the pages of a segment.  The increment cannot overflow below the end of the last
page. -/
def mapSegment : ℕ → ℕ → LoadProgram Bool
  | 0, _ => pure true
  | n + 1, currentPage => do
    let pageAddr ← Program.ofOption (virtAddrNew currentPage)
    let mapped ← mapUserPage m targetPml4 pageAddr
    let rest ← mapSegment n (currentPage + 0x1000)
    pure (mapped && rest)

/-- Copies bytes of the file to an offset in the page at `pageAddr`, through the direct map. -/
def copyChunk (pageAddr offsetInPage fileOffset bytesToCopy : ℕ) : LoadProgram Bool := fun s =>
  match translateInPml4 m s.memory targetPml4 pageAddr with
  | some physAddr =>
    let dst := physAddr + offsetInPage
    let src := elf.bytes.slice fileOffset bytesToCopy
    .ok true
      ⟨{ s.memory with mem := s.memory.mem.store (dst / FRAME_SIZE) (dst % FRAME_SIZE) src },
        .write (pageAddr + offsetInPage) bytesToCopy :: .read fileOffset bytesToCopy :: s.log⟩
  | none => .ok false s

/-- The loop that copies a segment.  Every turn copies at least one byte, so that `remaining` turns
are enough. -/
def copySegment : ℕ → ℕ → ℕ → ℕ → LoadProgram Bool
  | 0, _, _, _ => pure true
  | fuel + 1, remaining, fileOffset, currentVaddr =>
    if 0 < remaining then do
      let pageBase := currentVaddr / 0x1000 * 0x1000
      let offsetInPage := currentVaddr % 0x1000
      let bytesToCopy := min remaining (0x1000 - offsetInPage)
      let pageAddr ← Program.ofOption (virtAddrNew pageBase)
      let copied ← copyChunk m elf targetPml4 pageAddr offsetInPage fileOffset bytesToCopy
      let currentVaddr ← Program.ofOption (p.add 64 currentVaddr bytesToCopy)
      let fileOffset ← Program.ofOption (p.add 64 fileOffset bytesToCopy)
      let rest ← copySegment fuel (remaining - bytesToCopy) fileOffset currentVaddr
      pure (copied && rest)
    else pure true

/-- A `PT_LOAD` segment: its pages, then its bytes.  The copy goes by `p_filesz`, the pages go by
`p_memsz`. -/
def loadSegment (header : ProgramHeader) : LoadProgram Bool :=
  if header.pMemsz = 0 then pure true
  else do
    let segmentEnd ← Program.ofOption (p.add 64 header.pVaddr header.pMemsz)
    let segmentEnd ← Program.ofOption (p.add 64 segmentEnd 0xFFF)
    let startPage := header.pVaddr / 0x1000 * 0x1000
    let endPage := segmentEnd / 0x1000 * 0x1000
    let mapped ← mapSegment m targetPml4 ((endPage - startPage) / 0x1000) startPage
    if 0 < header.pFilesz ∧ header.pVaddr ≠ 0 then do
      let copied ←
        copySegment m p elf targetPml4 header.pFilesz header.pFilesz header.pOffset header.pVaddr
      pure (mapped && copied)
    else pure mapped

/-! ### Headers -/

/-- The fields of the program header at `phPtr`. -/
def readProgramHeader (phPtr : ℕ) : LoadProgram ProgramHeader := do
  let pOffset ← readUnaligned elf (phPtr + 0x08) 8
  let pVaddr ← readUnaligned elf (phPtr + 0x10) 8
  let pFilesz ← readUnaligned elf (phPtr + 0x20) 8
  let pMemsz ← readUnaligned elf (phPtr + 0x28) 8
  pure ⟨pOffset, pVaddr, pFilesz, pMemsz⟩

/-- Program header `i`.  The product is computed with 16 bits. -/
def loadHeader (phOffset phEntrySize i : ℕ) : LoadProgram Bool := do
  let product ← Program.ofOption (p.mul 16 i phEntrySize)
  let phPtr ← Program.ofOption (p.add 64 phOffset product)
  emit (.locate i phPtr)
  let pType ← readUnaligned elf phPtr 4
  if pType = 1 then do
    let header ← readProgramHeader elf phPtr
    loadSegment m p elf targetPml4 header
  else pure true

/-- The loop over the program headers, from header `i` on. -/
def loadHeaders (phOffset phEntrySize : ℕ) : ℕ → ℕ → LoadProgram Bool
  | 0, _ => pure true
  | n + 1, i => do
    let loaded ← loadHeader m p elf targetPml4 phOffset phEntrySize i
    let rest ← loadHeaders phOffset phEntrySize n (i + 1)
    pure (loaded && rest)

/-- Parses an ELF in memory and maps its segments into a specific PML4.  Returns the entry point. -/
def loadElf : LoadProgram ℕ :=
  if elf.length < 64 then Program.throw .tooSmall
  else if elf.bytes.slice 0 4 ≠ [0x7F, 0x45, 0x4C, 0x46] then Program.throw .invalidMagicNumber
  else if elf.bytes 4 ≠ 2 then Program.throw .not64Bit
  else do
    let entryPoint ← readUnaligned elf 0x18 8
    let phOffset ← readUnaligned elf 0x20 8
    let phEntries ← readUnaligned elf 0x38 2
    let phEntrySize ← readUnaligned elf 0x36 2
    let mappingSuccess ← loadHeaders m p elf targetPml4 phOffset phEntrySize phEntries 0
    if mappingSuccess then pure entryPoint else Program.throw .memoryMappingFailed

end Load

end NwinOs.Tasking
