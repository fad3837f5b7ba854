import NwinOs.Fs.Ext4.Node
import NwinOs.Fs.Fat.Node

/-!
# Partition table and disk bring-up

`Mbr.readFrom` decodes the four entries of the partition table.  `processDisk` mounts what it
recognises: it lists the root directory of a FAT volume, and creates a file on an ext4 volume.
-/

namespace NwinOs.Fs

open Effect

/-! ### The partition table -/

/-- The fields of a partition entry that the code uses, and the size of the partition. -/
structure PartitionEntry where
  partitionType : ℕ
  startLba : ℕ
  totalSectors : ℕ
  startLba_lt : startLba < 2 ^ 32
  totalSectors_lt : totalSectors < 2 ^ 32

/-- The `i`-th entry of the table, which starts at byte 446. -/
def PartitionEntry.ofBytes (b : Bytes) (i : ℕ) : PartitionEntry where
  partitionType := b.get (446 + i * 16 + 4) 1
  startLba := b.get (446 + i * 16 + 8) 4
  totalSectors := b.get (446 + i * 16 + 12) 4
  startLba_lt := Bytes.get_lt ..
  totalSectors_lt := Bytes.get_lt ..

namespace PartitionEntry

variable (part : PartitionEntry)

def isEmpty : Bool := part.partitionType = 0x00

/-- The types of FAT32 and FAT16. -/
def isFat : Bool :=
  part.partitionType = 0x0B ∨ part.partitionType = 0x0C ∨ part.partitionType = 0x06 ∨
    part.partitionType = 0x0E

def isLinux : Bool := part.partitionType = 0x83

end PartitionEntry

/-- The partition table. -/
structure Mbr where
  partitions : List PartitionEntry

namespace Mbr

/-- Reads sector 0, checks the boot signature and decodes the table. -/
def readFrom : FsProgram Mbr := do
  let buffer ← readBlock 0
  if buffer 510 ≠ 0x55 ∨ buffer 511 ≠ 0xAA then
    Program.throw (.badMagic 0xAA55 (buffer.get 510 2))
  else pure ⟨(List.range 4).map (PartitionEntry.ofBytes buffer)⟩

/-- The first entry marks a disk with the newer partitioning scheme. -/
def isGptProtective (mbr : Mbr) : Bool :=
  match mbr.partitions with
  | [] => false
  | first :: _ => !first.isEmpty && first.partitionType = 0xEE

end Mbr

/-! ### Mounting -/

/-- A volume that was mounted. -/
inductive MountedVolume
  | ext4 (v : Ext4.Ext4Volume)
  | fat (v : Fat.FatVolume)

variable (p : Profile)

/-- Mounts a partition by its type; `none` if it is empty or not recognised. -/
def mountPartition (part : PartitionEntry) : FsProgram (Option MountedVolume) :=
  if part.isEmpty then pure none
  else if part.isFat then do
    let v ← Fat.FatVolume.mount part.startLba
    pure (some (.fat v))
  else if part.isLinux then do
    let v ← Ext4.mount p part.startLba
    pure (some (.ext4 v))
  else pure none

/-! ### Bring-up -/

/-- The contents of the demo file. -/
def demoText : List Byte :=
  nameBytes "Hello World! This file was created, mapped and written 100% by NWIN OS."

/-- The name of the demo file. -/
def demoName : String := "nwin_core.txt"

/-- Creates the demo file and reads it back.  Errors are logged; only a failed allocation ends the
flow. -/
def createDemoFile (v : Ext4.Ext4Volume) : FsProgram Unit := do
  let rootNode ← Ext4.Ext4Node.newRoot p v
  match ← (v.allocateInode p).attempt with
  | .error (_ : FsError) => pure ()
  | .ok inode =>
    match ← (v.allocateBlock p).attempt with
    | .error (_ : FsError) => pure ()
    | .ok block => do
      let _ : Except FsError Unit ← (v.writeDataToBlock p block demoText).attempt
      let _ : Except FsError Unit ←
        (v.writeInode p inode (Ext4.buildFileInode demoText.length block)).attempt
      let _ : Except FsError Unit ← (rootNode.addEntry p demoName inode).attempt
      match ← rootNode.lookup p demoName with
      | none => pure ()
      | some fileNode => do
        let _ ← fileNode.read p 0 fileNode.getSize
        pure ()

/-- What is done with a mounted volume. -/
def bringUp : MountedVolume → FsProgram Unit
  | .fat v => do
    v.debugInfo p
    let _ ← v.listRootDir p
    pure ()
  | .ext4 v => do
    v.debugInfo p
    createDemoFile p v

/-- Mounts and brings up each partition in turn; an error of one does not stop the others. -/
def processPartitions (p : Profile) : List PartitionEntry → FsProgram Unit
  | [] => pure ()
  | part :: rest => do
    match ← (mountPartition p part).attempt with
    | .error (_ : FsError) => pure ()
    | .ok none => pure ()
    | .ok (some volume) => bringUp p volume
    processPartitions p rest

/-- Probes a disk. -/
def processDisk : FsProgram Unit := do
  match ← Mbr.readFrom.attempt with
  | .error (_ : FsError) => pure ()
  | .ok mbr =>
    if mbr.isGptProtective then pure ()
    else processPartitions p mbr.partitions

end NwinOs.Fs
