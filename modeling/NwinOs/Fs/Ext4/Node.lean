import NwinOs.Fs.Ext4.Volume

/-!
# Nodes of an ext4 volume

`Ext4Node` is a file or directory with a copy of its inode.  `read` follows the extents sector by
sector, `lookup` walks the records of a directory, `addEntry` appends a record to a directory's
first block by shrinking the last one.

A `while` or `loop` of the source is a recursion with fuel; each of them advances by at least one
byte per turn, and the fuel it starts with is the number of bytes.
-/

namespace NwinOs.Fs.Ext4

open Effect

/-- The length rounded up to a multiple of four. -/
def align4 (n : ℕ) : ℕ := (n + 3) / 4 * 4

/-- A file or directory. -/
structure Ext4Node where
  volume : Ext4Volume
  inodeNum : ℕ
  inode : Ext4Inode
  isDirectory : Bool
  size : ℕ

namespace Ext4Node

/-- The node of an inode that was read. -/
def ofInode (volume : Ext4Volume) (inodeNum : ℕ) (inode : Ext4Inode) : Ext4Node :=
  ⟨volume, inodeNum, inode, inode.isDirectory, inode.size⟩

variable (p : Profile)

/-- The root node; a zeroed inode if inode 2 cannot be read. -/
def newRoot (volume : Ext4Volume) : FsProgram Ext4Node := do
  match ← (volume.readInode p 2).attempt with
  | .ok inode => pure (ofInode volume 2 inode)
  | .error (_ : FsError) => pure (ofInode volume 2 .zeroed)

variable (node : Ext4Node)

def isDir : Bool := node.isDirectory

def getSize : ℕ := node.size

/-! ### Reading -/

/-- The loop of `read`: the bytes copied so far, and the current offset. -/
def readLoop (p : Profile) (node : Ext4Node) (behind : ℕ → Option (Option ℕ))
    (blockSize bytesToRead : ℕ) : ℕ → List Byte → ℕ → FsProgram (List Byte)
  | 0, copied, _ => pure copied
  | fuel + 1, copied, currentOffset =>
    if copied.length < bytesToRead then do
      let logicalBlock := currentOffset / blockSize % 2 ^ 32
      match ← Program.ofOption (node.volume.logicalToPhysicalSector p node.inode logicalBlock
        (behind logicalBlock)) with
      | none => pure copied
      | some baseLba => do
        let targetSector ← Program.ofOption (p.add 64 baseLba (currentOffset % blockSize / 512))
        match ← (readBlock targetSector).attempt with
        | .error (_ : FsError) => pure copied
        | .ok sector =>
          let offsetInSector := currentOffset % 512
          let chunkSize := min (512 - offsetInSector) (bytesToRead - copied.length)
          readLoop p node behind blockSize bytesToRead fuel
            (copied ++ sector.slice offsetInSector chunkSize) (currentOffset + chunkSize)
    else pure copied

/-- Reads into a buffer of the given length; the result are the bytes that were filled in.  `behind`
is what an extent search that leaves `i_block` comes to, for each logical block. -/
def readWith (behind : ℕ → Option (Option ℕ)) (offset length : ℕ) : FsProgram (List Byte) :=
  if node.size ≤ offset ∨ length = 0 then pure []
  else do
    let blockSize ← Program.ofOption (node.volume.blockSize p)
    let bytesToRead := min length (node.size - offset)
    -- the loop divides by the block size
    let _ ← Program.ofOption (if blockSize = 0 then none else some ())
    readLoop p node behind blockSize bytesToRead bytesToRead [] offset

/-- The read that faults when an extent search leaves `i_block`. -/
def read (offset length : ℕ) : FsProgram (List Byte) :=
  node.readWith p (fun _ => none) offset length

/-! ### Directories -/

/-- The loop of `lookup` over the `bytesRead` bytes of the directory. -/
def lookupLoop (p : Profile) (node : Ext4Node) (name : String) (buffer : Bytes)
    (bytesRead : ℕ) : ℕ → ℕ → FsProgram (Option Ext4Node)
  | 0, _ => pure none
  | fuel + 1, localOffset =>
    if localOffset < bytesRead then
      -- the header is read from a buffer of `size` bytes
      if node.size < localOffset + 8 then Program.ofOption none
      else
        let recLen := buffer.get (localOffset + 4) 2
        let inode := buffer.get localOffset 4
        let nameLen := buffer.get (localOffset + 6) 1
        if recLen = 0 then pure none
        else if inode ≠ 0 then
          if bytesRead < localOffset + 8 + nameLen then pure none
          else if buffer.slice (localOffset + 8) nameLen = nameBytes name then do
            match ← (node.volume.readInode p inode).attempt with
            | .ok childInode => pure (some (ofInode node.volume inode childInode))
            | .error (_ : FsError) =>
              lookupLoop p node name buffer bytesRead fuel (localOffset + recLen)
          else lookupLoop p node name buffer bytesRead fuel (localOffset + recLen)
        else lookupLoop p node name buffer bytesRead fuel (localOffset + recLen)
    else pure none

/-- Searches a file by name inside this directory.  A name that is not valid UTF-8 equals no string
slice. -/
def lookup (name : String) : FsProgram (Option Ext4Node) :=
  if node.isDirectory = false then pure none
  else do
    let bytes ← node.read p 0 node.size
    if bytes.length = 0 then pure none
    else
      lookupLoop p node name (Bytes.splice (fun _ => 0) 0 bytes) bytes.length bytes.length 0

/-- The block with a record for `name` behind the record at `offset`, which is shrunk to
`alignedLen` bytes. -/
def appendRecord (buffer : Bytes) (offset alignedLen spaceLeft : ℕ) (name : List Byte)
    (inodeNum : ℕ) : Bytes :=
  let newOffset := offset + alignedLen
  ((((((buffer.put (offset + 4) 2 alignedLen).put newOffset 4 inodeNum).put
    (newOffset + 4) 2 spaceLeft).put (newOffset + 6) 1 name.length).put
    (newOffset + 7) 1 1).splice (newOffset + 8) name)

/-- The loop of `addEntry`: the block with the new record. -/
def addEntryLoop (p : Profile) (blockSize : ℕ) (name : List Byte) (inodeNum : ℕ)
    (buffer : Bytes) : ℕ → ℕ → FsProgram Bytes
  | 0, _ => Program.ofOption none
  | fuel + 1, offset =>
    -- the two fields are read from a buffer of `blockSize` bytes
    if blockSize < offset + 7 then Program.ofOption none
    else
      let recLen := buffer.get (offset + 4) 2
      let nameLen := buffer.get (offset + 6) 1
      if offset + recLen = blockSize then do
        let alignedLen := align4 (8 + nameLen)
        let spaceLeft ← Program.ofOption (p.sub 64 recLen alignedLen)
        if spaceLeft < align4 (8 + name.length) then Program.throw .noSpace
        -- the header and the new record are written through raw pointers
        else if blockSize < offset + 8 ∨ blockSize < offset + alignedLen + 8 + name.length then
          Program.ofOption none
        else pure (appendRecord buffer offset alignedLen spaceLeft name inodeNum)
      else if blockSize ≤ offset + recLen ∨ recLen = 0 then Program.throw .corruptedDirectory
      else addEntryLoop p blockSize name inodeNum buffer fuel (offset + recLen)

/-- Adds a new entry to this directory by shrinking the padding of the last entry. -/
def addEntry (name : String) (inodeNum : ℕ) : FsProgram Unit :=
  if node.isDirectory = false then Program.throw .corruptedDirectory
  else do
    let blockSize ← Program.ofOption (node.volume.blockSize p)
    match ← Program.ofOption (node.volume.logicalToPhysicalSector p node.inode 0) with
    | none => Program.throw .corruptedDirectory
    | some physicalSector => do
      let buffer ← readSectors p physicalSector (blockSize / 512) 0 fun _ => 0
      let updated ← addEntryLoop p blockSize (nameBytes name) inodeNum buffer (blockSize + 1) 0
      writeSectors p physicalSector updated (blockSize / 512) 0

end Ext4Node

end NwinOs.Fs.Ext4
