import NwinOs.Fs.BlockDevice

/-!
# FAT volumes

Mounting, the geometry of a volume (where its root directory and its clusters are), one step along a
cluster chain, and the listing of the root directory that is printed when a volume is found.

The three geometry functions of a FAT32 volume call each other in a circle.  They are modelled with
a bound on the depth of the calls; on FAT16 three calls are enough, on FAT32 no bound is.
-/

namespace NwinOs.Fs.Fat

open Effect

/-! ### The boot sector -/

/-- The fields that both variants of the boot sector have and the code uses. -/
structure BootSector where
  bytesPerSector : ℕ
  sectorsPerCluster : ℕ
  reservedSectorCount : ℕ
  tableCount : ℕ
  bytesPerSector_lt : bytesPerSector < 2 ^ 16
  sectorsPerCluster_lt : sectorsPerCluster < 2 ^ 8
  reservedSectorCount_lt : reservedSectorCount < 2 ^ 16
  tableCount_lt : tableCount < 2 ^ 8

def BootSector.ofBytes (b : Bytes) : BootSector where
  bytesPerSector := b.get 11 2
  sectorsPerCluster := b.get 13 1
  reservedSectorCount := b.get 14 2
  tableCount := b.get 16 1
  bytesPerSector_lt := Bytes.get_lt ..
  sectorsPerCluster_lt := Bytes.get_lt ..
  reservedSectorCount_lt := Bytes.get_lt ..
  tableCount_lt := Bytes.get_lt ..

/-- The boot sector of a FAT16 volume. -/
structure Fat16BootSector extends BootSector where
  rootEntryCount : ℕ
  tableSize16 : ℕ
  rootEntryCount_lt : rootEntryCount < 2 ^ 16
  tableSize16_lt : tableSize16 < 2 ^ 16

def Fat16BootSector.ofBytes (b : Bytes) : Fat16BootSector where
  toBootSector := .ofBytes b
  rootEntryCount := b.get 17 2
  tableSize16 := b.get 22 2
  rootEntryCount_lt := Bytes.get_lt ..
  tableSize16_lt := Bytes.get_lt ..

/-- The boot sector of a FAT32 volume. -/
structure Fat32BootSector extends BootSector where
  rootCluster : ℕ
  rootCluster_lt : rootCluster < 2 ^ 32

def Fat32BootSector.ofBytes (b : Bytes) : Fat32BootSector where
  toBootSector := .ofBytes b
  rootCluster := b.get 44 4
  rootCluster_lt := Bytes.get_lt ..

/-- The two FAT variants. -/
inductive FatType
  | fat16 (bs : Fat16BootSector)
  | fat32 (bs : Fat32BootSector)

/-- The fields that both kinds have. -/
def FatType.boot : FatType → BootSector
  | .fat16 bs => bs.toBootSector
  | .fat32 bs => bs.toBootSector

/-! ### Directory entries -/

/-- The fields of a 32-byte directory entry that the code uses. -/
structure DirectoryEntry where
  name : List Byte
  attributes : Byte
  firstClusterHigh : ℕ
  firstClusterLow : ℕ
  fileSize : ℕ

/-- The `i`-th entry of a sector. -/
def DirectoryEntry.ofBytes (b : Bytes) (i : ℕ) : DirectoryEntry where
  name := b.slice (32 * i) 11
  attributes := b (32 * i + 11)
  firstClusterHigh := b.get (32 * i + 20) 2
  firstClusterLow := b.get (32 * i + 26) 2
  fileSize := b.get (32 * i + 28) 4

namespace DirectoryEntry

variable (entry : DirectoryEntry)

/-- The first byte of the name. -/
def firstByte : Byte := entry.name.headD 0

/-- Deleted entries, long-name entries and volume labels are skipped. -/
def skipped : Bool :=
  entry.firstByte = 0xE5 ∨ entry.attributes = 0x0F ∨ entry.attributes &&& 0x08 ≠ 0

def isDir : Bool := entry.attributes &&& 0x10 ≠ 0

def startCluster : ℕ :=
  entry.firstClusterHigh * 2 ^ 16 + entry.firstClusterLow

/-- A byte as a character. -/
def byteChar (b : Byte) : Char := Char.ofNat b.toNat

/-- The 8.3 name without its padding. -/
def shortName : String :=
  let base := (entry.name.take 8).filter (· ≠ 0x20)
  let extension := (entry.name.drop 8).filter (· ≠ 0x20)
  if entry.name[8]? ≠ some 0x20 then
    String.ofList (base.map byteChar ++ '.' :: extension.map byteChar)
  else String.ofList (base.map byteChar)

end DirectoryEntry

/-- The sixteen entries of a sector, up to the first one that marks the end. -/
def entriesOf (b : Bytes) : List DirectoryEntry :=
  ((List.range 16).map (DirectoryEntry.ofBytes b)).takeWhile fun entry => entry.firstByte ≠ 0x00

/-! ### Volumes -/

/-- A mounted volume.  The device is the state of the programs. -/
structure FatVolume where
  startLba : ℕ
  fatType : FatType

namespace FatVolume

/-- Mounts a volume by reading its boot record. -/
def mount (startLba : ℕ) : FsProgram FatVolume := do
  let buffer ← readBlock startLba
  if buffer 510 ≠ 0x55 ∨ buffer 511 ≠ 0xAA then
    Program.throw (.badMagic 0xAA55 (buffer.get 510 2))
  else if buffer.get 22 2 = 0 then pure ⟨startLba, .fat32 (.ofBytes buffer)⟩
  else pure ⟨startLba, .fat16 (.ofBytes buffer)⟩

/-- Unsigned division; `none` is the panic on a zero divisor. -/
def checkedDiv (a b : ℕ) : Option ℕ := if b = 0 then none else some (a / b)

mutual

/-- The first sector of the root directory. -/
def rootDirSector (p : Profile) (v : FatVolume) : ℕ → Option ℕ
  | 0 => none
  | depth + 1 =>
    match v.fatType with
    | .fat16 bs => do
      let tables ← p.add 64 v.startLba bs.reservedSectorCount
      let size ← p.mul 64 bs.tableCount bs.tableSize16
      p.add 64 tables size
    | .fat32 bs => clusterToSector p v bs.rootCluster depth

/-- The first sector of the data region. -/
def firstDataSector (p : Profile) (v : FatVolume) : ℕ → Option ℕ
  | 0 => none
  | depth + 1 =>
    match v.fatType with
    | .fat16 bs => do
      let rootBytes ← p.mul 64 bs.rootEntryCount 32
      let roundUp ← p.sub 64 bs.bytesPerSector 1
      let sum ← p.add 64 rootBytes roundUp
      let rootDirSectors ← checkedDiv sum bs.bytesPerSector
      let root ← rootDirSector p v depth
      p.add 64 root rootDirSectors
    | .fat32 _ => rootDirSector p v depth

/-- The first sector of a cluster. -/
def clusterToSector (p : Profile) (v : FatVolume) (cluster : ℕ) : ℕ → Option ℕ
  | 0 => none
  | depth + 1 => do
    let dataStart ← firstDataSector p v depth
    let index ← p.sub 64 cluster 2
    let clusterOffset ← p.mul 64 index v.fatType.boot.sectorsPerCluster
    p.add 64 dataStart clusterOffset

end

/-- The depth of the calls that FAT16 needs. -/
def callDepth : ℕ := 3

/-- Prints a summary of the volume, with the first sectors of the root directory and of the data. -/
def debugInfo (p : Profile) (v : FatVolume) : FsProgram Unit := do
  let _ ← Program.ofOption (v.rootDirSector p callDepth)
  let _ ← Program.ofOption (v.firstDataSector p callDepth)
  pure ()

/-- Walks the chain by one cluster; `none` for the end of the chain and for read errors. -/
def nextCluster (p : Profile) (v : FatVolume) (currentCluster : ℕ) : FsProgram (Option ℕ) := do
  let boot := v.fatType.boot
  let fatStartSector ← Program.ofOption (p.add 64 v.startLba boot.reservedSectorCount)
  let width := match v.fatType with
    | .fat16 _ => 2
    | .fat32 _ => 4
  let byteOffset ← Program.ofOption (p.mul 64 currentCluster width)
  let sectorOffset ← Program.ofOption (checkedDiv byteOffset boot.bytesPerSector)
  let byteInSector := byteOffset % boot.bytesPerSector
  let targetSector ← Program.ofOption (p.add 64 fatStartSector sectorOffset)
  match ← (readBlock targetSector).attempt with
  | .error (_ : FsError) => pure none
  | .ok buffer =>
    -- the entry is read byte by byte from the sector buffer
    if 512 < byteInSector + width then Program.ofOption none
    else
      match v.fatType with
      | .fat16 _ =>
        let next := buffer.get byteInSector 2
        pure (if 0xFFF8 ≤ next then none else some next)
      | .fat32 _ =>
        let next := buffer.get byteInSector 4 % 2 ^ 28
        pure (if 0x0FFFFFF8 ≤ next then none else some next)

/-- Counts the clusters of a chain. -/
def countFragments (p : Profile) (v : FatVolume) : ℕ → ℕ → ℕ → FsProgram ℕ
  | 0, _, fragments => pure fragments
  | fuel + 1, current, fragments => do
    match ← v.nextCluster p current with
    | none => pure fragments
    | some next =>
      -- a cap against corrupt chains
      if 20000 < fragments + 1 then pure (fragments + 1)
      else countFragments p v fuel next (fragments + 1)

/-- A line of the listing: the clusters are counted for files only. -/
structure Listing where
  name : String
  startCluster : ℕ
  file : Option (ℕ × ℕ)

/-- The lines for the entries of a sector. -/
def listEntries (p : Profile) (v : FatVolume) : List DirectoryEntry → FsProgram (List Listing)
  | [] => pure []
  | entry :: rest =>
    if entry.skipped then listEntries p v rest
    else if entry.isDir then do
      let lines ← listEntries p v rest
      pure (⟨entry.shortName, entry.startCluster, none⟩ :: lines)
    else do
      let fragments ← v.countFragments p 20000 entry.startCluster 1
      let lines ← listEntries p v rest
      pure (⟨entry.shortName, entry.startCluster, some (entry.fileSize, fragments)⟩ :: lines)

/-- Walks the first sector of the root directory. -/
def listRootDir (p : Profile) (v : FatVolume) : FsProgram (List Listing) := do
  let rootSector ← Program.ofOption (v.rootDirSector p callDepth)
  match ← (readBlock rootSector).attempt with
  | .error (_ : FsError) => pure []
  | .ok buffer => v.listEntries p (entriesOf buffer)

end FatVolume

end NwinOs.Fs.Fat
