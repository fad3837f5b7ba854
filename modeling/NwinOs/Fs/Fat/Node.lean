import NwinOs.Fs.Fat.Volume

/-!
# Nodes of a FAT volume

`FatNode` is a file or directory, by its first cluster.  `lookup` searches the first sector of a
directory, `read` follows the cluster chain of a file.
-/

namespace NwinOs.Fs.Fat

open Effect

/-- An ASCII letter in lower case, any other byte as it is. -/
def asciiLower (b : Byte) : Byte := if 0x41 ≤ b ∧ b ≤ 0x5A then b + 0x20 else b

/-- Equality of strings up to ASCII case. -/
def eqIgnoreAsciiCase (a b : String) : Bool :=
  (nameBytes a).map asciiLower = (nameBytes b).map asciiLower

/-- A file or directory; cluster 0 is the root directory. -/
structure FatNode where
  volume : FatVolume
  startCluster : ℕ
  isDirectory : Bool
  size : ℕ

namespace FatNode

/-- The root node of a mounted volume. -/
def newRoot (volume : FatVolume) : FatNode := ⟨volume, 0, true, 0⟩

def isDir (node : FatNode) : Bool := node.isDirectory

def getSize (node : FatNode) : ℕ := node.size

/-- The node of a directory entry. -/
def ofEntry (volume : FatVolume) (entry : DirectoryEntry) : FatNode :=
  ⟨volume, entry.startCluster, entry.isDir, entry.fileSize⟩

/-- Searches a name in the first sector of the directory. -/
def lookup (p : Profile) (node : FatNode) (name : String) : FsProgram (Option FatNode) :=
  if node.isDirectory = false then pure none
  else do
    let targetSector ← Program.ofOption (
      if node.startCluster = 0 then node.volume.rootDirSector p FatVolume.callDepth
      else node.volume.clusterToSector p node.startCluster FatVolume.callDepth)
    match ← (readBlock targetSector).attempt with
    | .error (_ : FsError) => pure none
    | .ok buffer =>
      pure (((entriesOf buffer).find? fun entry =>
        !entry.skipped && eqIgnoreAsciiCase entry.shortName name).map (ofEntry node.volume))

/-- Skips clusters from the start of the chain. -/
def skipClusters (p : Profile) (node : FatNode) : ℕ → ℕ → FsProgram (Option ℕ)
  | 0, current => pure (some current)
  | count + 1, current => do
    match ← node.volume.nextCluster p current with
    | none => pure none
    | some next => skipClusters p node count next

/-- The loop of `read`: the bytes copied so far, the current cluster and the offset in it.  The
translation of clusters to sectors is a parameter. -/
def readLoopVia (toSector : ℕ → Option ℕ) (p : Profile) (node : FatNode) (bytesToRead : ℕ) :
    ℕ → List Byte → ℕ → ℕ → FsProgram (List Byte)
  | 0, copied, _, _ => pure copied
  | fuel + 1, copied, currentCluster, offsetInCluster =>
    if copied.length < bytesToRead then do
      let boot := node.volume.fatType.boot
      let sectorInCluster := offsetInCluster / boot.bytesPerSector
      let offsetInSector := offsetInCluster % boot.bytesPerSector
      let base ← Program.ofOption (toSector currentCluster)
      let targetSector ← Program.ofOption (p.add 64 base sectorInCluster)
      match ← (readBlock targetSector).attempt with
      | .error (_ : FsError) => pure copied
      | .ok sector =>
        let chunkSize := min (boot.bytesPerSector - offsetInSector) (bytesToRead - copied.length)
        -- the slice of the sector buffer
        if 512 < offsetInSector + chunkSize then Program.ofOption none
        else
          let copied := copied ++ sector.slice offsetInSector chunkSize
          let offsetInCluster := offsetInCluster + chunkSize
          if offsetInCluster = boot.bytesPerSector * boot.sectorsPerCluster then do
            match ← node.volume.nextCluster p currentCluster with
            | none => pure copied
            | some next => readLoopVia toSector p node bytesToRead fuel copied next 0
          else readLoopVia toSector p node bytesToRead fuel copied currentCluster offsetInCluster
    else pure copied

/-- Reads into a buffer of the given length; the result are the bytes that were filled in. -/
def readVia (toSector : ℕ → Option ℕ) (p : Profile) (node : FatNode) (offset length : ℕ) :
    FsProgram (List Byte) :=
  if node.isDirectory = true ∨ node.size ≤ offset ∨ node.startCluster = 0 ∨ length = 0 then pure []
  else do
    let bytesToRead := min length (node.size - offset)
    let boot := node.volume.fatType.boot
    let bytesPerCluster := boot.bytesPerSector * boot.sectorsPerCluster
    let clustersToSkip ← Program.ofOption (FatVolume.checkedDiv offset bytesPerCluster)
    match ← node.skipClusters p clustersToSkip node.startCluster with
    | none => pure []
    | some currentCluster =>
      readLoopVia toSector p node bytesToRead bytesToRead [] currentCluster
        (offset % bytesPerCluster)

/-- The loop with `cluster_to_sector`. -/
abbrev readLoop (p : Profile) (node : FatNode) :
    ℕ → ℕ → List Byte → ℕ → ℕ → FsProgram (List Byte) :=
  readLoopVia (fun c => node.volume.clusterToSector p c FatVolume.callDepth) p node

/-- `read`, with `cluster_to_sector`. -/
def read (p : Profile) (node : FatNode) : ℕ → ℕ → FsProgram (List Byte) :=
  node.readVia (fun c => node.volume.clusterToSector p c FatVolume.callDepth) p

end FatNode

end NwinOs.Fs.Fat
