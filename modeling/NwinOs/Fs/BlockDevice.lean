import NwinOs.Effect
import NwinOs.Bytes
import NwinOs.Profile

/-!
# Block devices

A device is an array of 512-byte sectors.  Each access is recorded, and may fail: `fails n` says
whether the `n`-th access of the run does.  A failed write leaves its sector unchanged.

Filesystem code is a `Program` over the device.  Its faults are the panics of the kernel and the
accesses outside a buffer that the unsafe blocks would make.
-/

namespace NwinOs.Fs

open Effect

/-- The filesystem errors that the modelled code returns. -/
inductive FsError
  | blockRead
  | blockWrite
  | badMagic (expected found : ℕ)
  | corruptedDirectory
  | noSpace
  | outOfInodes
  | outOfBlocks
  deriving DecidableEq, Repr

/-- A read or a write of a sector. -/
inductive AccessKind
  | read
  | write
  deriving DecidableEq, Repr

/-- One call of `read_block` or `write_block`. -/
structure Access where
  kind : AccessKind
  lba : ℕ
  deriving DecidableEq, Repr

/-- The disk, the accesses so far (the latest first), and which accesses fail. -/
structure BlockDevice where
  sectors : ℕ → Bytes
  accesses : List Access
  fails : ℕ → Bool

/-- The bytes of a string slice. -/
def nameBytes (name : String) : List Byte := name.toByteArray.data.toList.map UInt8.toBitVec

/-- Filesystem code. -/
abbrev FsProgram := Program BlockDevice FsError

/-- The sectors after one of them is overwritten. -/
def storeSector (sectors : ℕ → Bytes) (lba : ℕ) (buf : Bytes) : ℕ → Bytes :=
  Function.update sectors lba fun o => if o < 512 then buf o else sectors lba o

/-- The device after one more access. -/
def BlockDevice.record (d : BlockDevice) (kind : AccessKind) (lba : ℕ) : BlockDevice :=
  { d with accesses := ⟨kind, lba⟩ :: d.accesses }

/-- Reads a single logical block. -/
def readBlock (lba : ℕ) : FsProgram Bytes := fun d =>
  if d.fails d.accesses.length then .err .blockRead (d.record .read lba)
  else .ok (d.sectors lba) (d.record .read lba)

/-- Writes a single logical block. -/
def writeBlock (lba : ℕ) (buf : Bytes) : FsProgram Unit := fun d =>
  if d.fails d.accesses.length then .err .blockWrite (d.record .write lba)
  else .ok () { d.record .write lba with sectors := storeSector d.sectors lba buf }

/-- Reads `count` consecutive sectors, from the `i`-th on, into their places of the buffer. -/
def readSectors (p : Profile) (lba : ℕ) : ℕ → ℕ → Bytes → FsProgram Bytes
  | 0, _, buffer => pure buffer
  | count + 1, i, buffer => do
    let sector ← Program.ofOption (p.add 64 lba i)
    let data ← readBlock sector
    readSectors p lba count (i + 1)
      (fun o => if o / 512 = i then data (o % 512) else buffer o)

/-- Writes `count` consecutive sectors of the buffer, from the `i`-th on. -/
def writeSectors (p : Profile) (lba : ℕ) (buffer : Bytes) : ℕ → ℕ → FsProgram Unit
  | 0, _ => pure ()
  | count + 1, i => do
    let sector ← Program.ofOption (p.add 64 lba i)
    writeBlock sector fun o => buffer (i * 512 + o)
    writeSectors p lba buffer count (i + 1)

end NwinOs.Fs
