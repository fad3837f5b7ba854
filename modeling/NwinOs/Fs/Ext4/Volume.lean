import NwinOs.Fs.BlockDevice
import NwinOs.Bits

/-!
# ext4 volumes

The on-disk structures and the operations on a mounted volume: allocation from the two bitmaps of
block group 0, reading and writing inodes, writing a data block, and the translation of a logical
block through a leaf of the extent tree.

The structs of the source are packed and copied byte by byte, so a struct is its image; the fields
that the code reads are decoded from it.
-/

namespace NwinOs.Fs.Ext4

open Effect

/-- The fields of the super-block that the code uses. -/
structure Ext4SuperBlock where
  sInodesCount : ℕ
  sLogBlockSize : ℕ
  sInodesPerGroup : ℕ
  sMagic : ℕ
  inodesCount_lt : sInodesCount < 2 ^ 32
  inodesPerGroup_lt : sInodesPerGroup < 2 ^ 32

/-- The super-block at the start of a buffer. -/
def Ext4SuperBlock.ofBytes (b : Bytes) : Ext4SuperBlock where
  sInodesCount := b.get 0 4
  sLogBlockSize := b.get 24 4
  sInodesPerGroup := b.get 40 4
  sMagic := b.get 56 2
  inodesCount_lt := Bytes.get_lt b 0 4
  inodesPerGroup_lt := Bytes.get_lt b 40 4

/-- The block size in bytes; `none` is the panic of an oversized shift. -/
def Ext4SuperBlock.blockSize (p : Profile) (sb : Ext4SuperBlock) : Option ℕ :=
  p.shl 64 1024 sb.sLogBlockSize

/-- The fields of a block-group descriptor that the code uses. -/
structure Ext4BlockGroupDescriptor where
  bgBlockBitmapLo : ℕ
  bgInodeBitmapLo : ℕ
  bgInodeTableLo : ℕ

/-- The descriptor at an offset of a buffer. -/
def Ext4BlockGroupDescriptor.ofBytes (b : Bytes) (o : ℕ) : Ext4BlockGroupDescriptor where
  bgBlockBitmapLo := b.get o 4
  bgInodeBitmapLo := b.get (o + 4) 4
  bgInodeTableLo := b.get (o + 8) 4

/-- Size of a block-group descriptor. -/
def descriptorSize : ℕ := 32

/-! ### Inodes -/

/-- Size of the inode struct. -/
def inodeStructSize : ℕ := 116

/-- An inode: the image of the packed struct. -/
structure Ext4Inode where
  bytes : List Byte
  length_eq : bytes.length = inodeStructSize
  deriving DecidableEq

namespace Ext4Inode

section

variable (inode : Ext4Inode)

/-- A buffer that starts with the given bytes and is zero behind them. -/
def image : Bytes := Bytes.splice (fun _ => 0) 0 inode.bytes

/-- The first bytes of a buffer as an inode. -/
def ofBytes (b : Bytes) (o : ℕ) : Ext4Inode := ⟨b.slice o inodeStructSize, Bytes.length_slice ..⟩

/-- The inode whose bytes are all zero. -/
def zeroed : Ext4Inode := ofBytes (fun _ => 0) 0

def iMode : ℕ := inode.image.get 0 2

def iSizeLo : ℕ := inode.image.get 4 4

def iSizeHi : ℕ := inode.image.get 108 4

def isDirectory : Bool := inode.iMode &&& 0xF000 = 0x4000

def size : ℕ := inode.iSizeHi * 2 ^ 32 + inode.iSizeLo

/-- Where `i_block` starts. -/
def iBlock : ℕ := 40

/-! The extent header and the extents in `i_block`. -/

def ehMagic : ℕ := inode.image.get iBlock 2

def ehEntries : ℕ := inode.image.get (iBlock + 2) 2

def ehDepth : ℕ := inode.image.get (iBlock + 6) 2

/-- Where the `i`-th extent starts. -/
def extentOffset (i : ℕ) : ℕ := iBlock + 12 + 12 * i

def eeBlock (i : ℕ) : ℕ := inode.image.get (extentOffset i) 4

def eeLen (i : ℕ) : ℕ := inode.image.get (extentOffset i + 4) 2

/-- The start of the extent, from its high and low halves. -/
def eeStart (i : ℕ) : ℕ :=
  inode.image.get (extentOffset i + 6) 2 * 2 ^ 32 + inode.image.get (extentOffset i + 8) 4

end

/-- The search for the extent that covers a logical block, over `count` extents from the `i`-th on.
`none`: the sum overflows.  `behind` is what the search comes to once it has left the 60 bytes of
`i_block`, where it takes other fields and other memory for extents. -/
def extentSearch (p : Profile) (inode : Ext4Inode) (logicalBlock : ℕ)
    (behind : Option (Option ℕ)) : ℕ → ℕ → Option (Option ℕ)
  | 0, _ => some none
  | count + 1, i =>
    if 4 ≤ i then behind
    else if inode.eeBlock i ≤ logicalBlock then
      (p.add 32 (inode.eeBlock i) (inode.eeLen i)).bind fun stop =>
        if logicalBlock < stop then some (some (inode.eeStart i + (logicalBlock - inode.eeBlock i)))
        else extentSearch p inode logicalBlock behind count (i + 1)
    else extentSearch p inode logicalBlock behind count (i + 1)

/-- The physical block of a logical block, if a leaf at depth zero maps it.  Unless `behind` says
otherwise, a search that leaves `i_block` counts as a fault. -/
def physicalBlock (p : Profile) (inode : Ext4Inode) (logicalBlock : ℕ)
    (behind : Option (Option ℕ) := none) : Option (Option ℕ) :=
  if inode.ehMagic ≠ 0xF30A then some none
  else if inode.ehDepth = 0 then extentSearch p inode logicalBlock behind inode.ehEntries 0
  else some none

end Ext4Inode

/-- The image of a regular file of the given size whose one block is `physicalBlock`: place, width
and value of the fields that are set, in the order of the source. -/
def fileInodeFields (fileSize physicalBlock : ℕ) : List (ℕ × ℕ × ℕ) :=
  [(0, 2, 0x81A4), (2, 2, 0), (4, 4, fileSize), (26, 2, 1), (28, 4, 8), (32, 4, 0x80000),
    -- the extent header
    (40, 2, 0xF30A), (42, 2, 1), (44, 2, 4), (46, 2, 0), (48, 4, 0),
    -- the extent
    (52, 4, 0), (56, 2, 1), (58, 2, 0), (60, 4, physicalBlock)]

/-- Creates a blank inode configured as a regular file. -/
def buildFileInode (fileSize physicalBlock : ℕ) : Ext4Inode :=
  .ofBytes (Bytes.putAll (fun _ => 0) (fileInodeFields fileSize physicalBlock)) 0

/-! ### Volumes -/

/-- A mounted volume.  The device is the state of the programs. -/
structure Ext4Volume where
  startLba : ℕ
  superBlock : Ext4SuperBlock

/-- Reads the superblock and checks its magic number. -/
def mount (p : Profile) (startLba : ℕ) : FsProgram Ext4Volume := do
  let superBlockSector ← Program.ofOption (p.add 64 startLba 2)
  let buffer ← readBlock superBlockSector
  let secondSector ← Program.ofOption (p.add 64 superBlockSector 1)
  let _ ← readBlock secondSector
  let superBlock := Ext4SuperBlock.ofBytes buffer
  if superBlock.sMagic ≠ 0xEF53 then Program.throw (.badMagic 0xEF53 superBlock.sMagic)
  else pure ⟨startLba, superBlock⟩

namespace Ext4Volume

variable (p : Profile)

variable (v : Ext4Volume)

/-- The block size of the volume. -/
def blockSize : Option ℕ := v.superBlock.blockSize p

/-- The block of the descriptor table. -/
def bgdBlock (blockSize : ℕ) : ℕ := if blockSize = 1024 then 2 else 1

/-- The first sector of a block. -/
def blockSector (blockSize block : ℕ) : Option ℕ :=
  (p.mul 64 block (blockSize / 512)).bind fun offset => p.add 64 v.startLba offset

/-- Reads the descriptor of a group from the first sector of the table. -/
def readDescriptor (blockSize group : ℕ) :
    FsProgram Ext4BlockGroupDescriptor := do
  let sector ← Program.ofOption (v.blockSector p blockSize (bgdBlock blockSize))
  let buffer ← readBlock sector
  pure (.ofBytes buffer (group * descriptorSize % 512))

/-- The first clear bit of a bitmap sector, as byte and bit index. -/
def firstFreeBit (bitmap : Bytes) : Option (ℕ × ℕ) :=
  (List.range 512).findSome? fun byteIndex =>
    if bitmap byteIndex ≠ 0xFF then
      (List.range 8).findSome? fun bitIndex =>
        if Bits.testBit (bitmap byteIndex) bitIndex = false then some (byteIndex, bitIndex)
        else none
    else none

/-- Reserves the first clear bit of one of the bitmaps of group 0 and writes its sector back. -/
def allocateBit (bitmapBlock : Ext4BlockGroupDescriptor → ℕ)
    (exhausted : FsError) : FsProgram ℕ := do
  let blockSize ← Program.ofOption (v.blockSize p)
  let bgd ← v.readDescriptor p blockSize 0
  let bitmapSector ← Program.ofOption (v.blockSector p blockSize (bitmapBlock bgd))
  let bitmap ← readBlock bitmapSector
  match firstFreeBit bitmap with
  | none => Program.throw exhausted
  | some (byteIndex, bitIndex) => do
    writeBlock bitmapSector
      (Function.update bitmap byteIndex (Bits.setBit (bitmap byteIndex) bitIndex))
    pure (byteIndex * 8 + bitIndex)

/-- Reserves the first free inode of group 0; inode numbers start at one. -/
def allocateInode : FsProgram ℕ := do
  let bit ← v.allocateBit p (·.bgInodeBitmapLo) .outOfInodes
  pure (bit + 1)

/-- Reserves the first free block of group 0. -/
def allocateBlock : FsProgram ℕ :=
  v.allocateBit p (·.bgBlockBitmapLo) .outOfBlocks

/-- The sector of an inode and its offset there. -/
def locateInode (inodeNum : ℕ) : FsProgram (ℕ × ℕ) :=
  if inodeNum < 1 ∨ v.superBlock.sInodesCount < inodeNum then Program.throw .corruptedDirectory
  else do
    let blockSize ← Program.ofOption (v.blockSize p)
    let inodesPerGroup := v.superBlock.sInodesPerGroup
    -- the division by `s_inodes_per_group`
    let _ ← Program.ofOption (if inodesPerGroup = 0 then none else some ())
    let groupIndex := (inodeNum - 1) / inodesPerGroup
    let inodeIndexInGroup := (inodeNum - 1) % inodesPerGroup
    let bgd ← v.readDescriptor p blockSize groupIndex
    let tableOffset ← Program.ofOption (p.mul 64 bgd.bgInodeTableLo blockSize)
    let byteOffset ← Program.ofOption (p.add 64 tableOffset (inodeIndexInGroup * 256))
    let sector ← Program.ofOption (p.add 64 v.startLba (byteOffset / 512))
    pure (sector, byteOffset % 512)

/-- Reads an inode. -/
def readInode (inodeNum : ℕ) : FsProgram Ext4Inode := do
  let (sector, offset) ← v.locateInode p inodeNum
  let buffer ← readBlock sector
  pure (.ofBytes buffer offset)

/-- Writes an inode, preserving the rest of its sector. -/
def writeInode (inodeNum : ℕ) (inode : Ext4Inode) : FsProgram Unit := do
  let (sector, offset) ← v.locateInode p inodeNum
  let buffer ← readBlock sector
  writeBlock sector (buffer.splice offset inode.bytes)

/-- Writes the data of a file into a block, zero-filled to its end. -/
def writeDataToBlock (blockNum : ℕ) (data : List Byte) :
    FsProgram Unit := do
  let blockSize ← Program.ofOption (v.blockSize p)
  if blockSize < data.length then Program.throw .corruptedDirectory
  else do
    let startSector ← Program.ofOption (v.blockSector p blockSize blockNum)
    writeSectors p startSector (Bytes.splice (fun _ => 0) 0 data) (blockSize / 512) 0

/-- The first sector of a logical block of an inode.  The outer `none` is a fault. -/
def logicalToPhysicalSector (inode : Ext4Inode)
    (logicalBlock : ℕ) (behind : Option (Option ℕ) := none) : Option (Option ℕ) :=
  (v.blockSize p).bind fun blockSize =>
    (inode.physicalBlock p logicalBlock behind).bind fun
      | none => some none
      | some block => (v.blockSector p blockSize block).map some

/-- What `debug_info` writes to a new block. -/
def probeText : List Byte :=
  nameBytes
    "This file was created and written 100% from my own Rust kernel. NWIN OS lives!"

/-- Prints a summary of the volume, and probes it: reserves an inode and a block, and writes to the
block. -/
def debugInfo : FsProgram Unit := do
  -- the summary prints the block size
  let _ ← Program.ofOption (v.blockSize p)
  match ← (v.allocateInode p).attempt with
  | .error (_ : FsError) => pure ()
  | .ok _ =>
    match ← (v.allocateBlock p).attempt with
    | .error (_ : FsError) => pure ()
    | .ok block => do
      let _ : Except FsError Unit ← (v.writeDataToBlock p block probeText).attempt
      pure ()

end Ext4Volume

end NwinOs.Fs.Ext4
