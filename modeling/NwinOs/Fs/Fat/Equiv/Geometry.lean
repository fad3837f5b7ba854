import NwinOs.Fs.Fat.Volume

/-!
# The geometry of a FAT volume

On FAT16 the three geometry functions are sums of fields of the boot sector (`rootDirSector_eq`,
`firstDataSector_eq`, `clusterToSector_eq`).  On FAT32 each of them waits for the next one in a
circle, so that no depth of calls is enough for any of them (`fat32_geometry_never_computed`).
-/

namespace NwinOs.Fs.Fat

open Effect Profile Option FatVolume

/-! ### Geometry of a FAT16 volume -/

section

variable (bs : Fat16BootSector)

/-- The first sector of the root directory, from the partition's start. -/
def rootOffset : ℕ :=
  bs.reservedSectorCount + bs.tableCount * bs.tableSize16

/-- The number of sectors of the root directory. -/
def rootDirSectors : ℕ :=
  (bs.rootEntryCount * 32 + (bs.bytesPerSector - 1)) / bs.bytesPerSector

/-- The first sector of a data cluster. -/
def clusterOffset (c : ℕ) : ℕ :=
  rootOffset bs + rootDirSectors bs + (c - 2) * bs.sectorsPerCluster

/-- The sector of the table that holds the entry of a cluster. -/
def entryOffset (c : ℕ) : ℕ :=
  bs.reservedSectorCount + c * 2 / bs.bytesPerSector

end

section

variable {p : Profile} {v : FatVolume} {bs : Fat16BootSector} {c depth : ℕ}

theorem rootOffset_lt : rootOffset bs < 2 ^ 25 := by
  have h1 := bs.reservedSectorCount_lt
  have h2 := bs.tableCount_lt
  have h3 := bs.tableSize16_lt
  have hmul : bs.tableCount * bs.tableSize16 ≤ 2 ^ 8 * 2 ^ 16 := Nat.mul_le_mul h2.le h3.le
  unfold rootOffset
  omega

theorem rootDirSectors_le : rootDirSectors bs ≤ 2 ^ 22 := by
  have h1 := bs.bytesPerSector_lt
  have h2 := bs.rootEntryCount_lt
  refine (Nat.div_le_self _ _).trans ?_
  omega

theorem clusterOffset_lt (hc : c < 2 ^ 32) : clusterOffset bs c < 2 ^ 41 := by
  have hroot := @rootOffset_lt bs
  have hdir := @rootDirSectors_le bs
  have hmul : (c - 2) * bs.sectorsPerCluster ≤ 2 ^ 32 * 2 ^ 8 :=
    Nat.mul_le_mul (by omega) bs.sectorsPerCluster_lt.le
  unfold clusterOffset
  omega

variable (h16 : v.fatType = .fat16 bs)

include h16

/-- A volume with empty sectors has no data region: the division panics. -/
theorem firstDataSector_eq_none (hbps : bs.bytesPerSector = 0) :
    v.firstDataSector p (depth + 2) = none := by
  rw [firstDataSector, h16]
  dsimp only
  rw [hbps]
  have hdiv : ∀ a, checkedDiv a 0 = none := fun _ => rfl
  simp only [hdiv, bind_eq_bind, bind_none, bind_fun_none]

variable (hstart : v.startLba < 2 ^ 32)

include hstart

theorem rootDirSector_eq : v.rootDirSector p (depth + 1) = some (v.startLba + rootOffset bs) := by
  have hroot := @rootOffset_lt bs
  unfold rootOffset at hroot
  rw [rootDirSector, h16]
  dsimp only
  rw [add_eq_some (by omega), mul_eq_some (by omega)]
  dsimp only [bind_eq_bind, bind_some]
  rw [add_eq_some (by omega), Nat.add_assoc]
  rfl

theorem firstDataSector_eq (hbps : bs.bytesPerSector ≠ 0) :
    v.firstDataSector p (depth + 2) = some (v.startLba + rootOffset bs + rootDirSectors bs) := by
  have h1 := bs.bytesPerSector_lt
  have h2 := bs.rootEntryCount_lt
  have hroot := @rootOffset_lt bs
  have hdiv := @rootDirSectors_le bs
  rw [firstDataSector, h16]
  dsimp only
  rw [mul_eq_some (by omega), sub_eq_some (by omega)]
  dsimp only [bind_eq_bind, bind_some]
  rw [add_eq_some (by omega), bind_some, checkedDiv, if_neg hbps,
    bind_some, rootDirSector_eq h16 hstart, bind_some]
  change p.add 64 _ (rootDirSectors bs) = _
  rw [add_eq_some (by omega)]

theorem clusterToSector_eq (hbps : bs.bytesPerSector ≠ 0) (hc : 2 ≤ c)
    (hlt : clusterOffset bs c < 2 ^ 63) :
    v.clusterToSector p c (depth + 3) = some (v.startLba + clusterOffset bs c) := by
  have hsum : v.startLba + clusterOffset bs c
      = v.startLba + rootOffset bs + rootDirSectors bs + (c - 2) * bs.sectorsPerCluster := by
    unfold clusterOffset
    omega
  rw [clusterToSector, firstDataSector_eq h16 hstart hbps, sub_eq_some hc, h16]
  dsimp only [bind_eq_bind, bind_some, FatType.boot]
  rw [mul_eq_some (by omega), bind_some, add_eq_some (by omega), hsum]

end

/-! ### Geometry of a FAT32 volume -/

/-- The boot sector is enough for the geometry that the layout prescribes, with `tableSize32`
sectors in each table. -/
structure Fat32Geometry (p : Profile) (v : FatVolume) (bs : Fat32BootSector) (tableSize32 : ℕ) :
    Prop where
  firstDataSector : ∃ depth, v.firstDataSector p depth
    = some (v.startLba + bs.reservedSectorCount + bs.tableCount * tableSize32)
  clusterToSector : ∀ c, 2 ≤ c → ∃ depth, v.clusterToSector p c depth
    = some (v.startLba + bs.reservedSectorCount + bs.tableCount * tableSize32
      + (c - 2) * bs.sectorsPerCluster)
  rootDirSector : ∃ depth s, v.rootDirSector p depth = some s ∧
    v.clusterToSector p bs.rootCluster depth = some s

theorem fat32_calls_in_circle {p : Profile} {startLba : ℕ} {bs : Fat32BootSector} (depth : ℕ) :
    (rootDirSector p ⟨startLba, .fat32 bs⟩ depth = none ∧
      firstDataSector p ⟨startLba, .fat32 bs⟩ depth = none) ∧
      ∀ c, clusterToSector p ⟨startLba, .fat32 bs⟩ c depth = none := by
  induction depth with
  | zero => exact ⟨⟨rfl, rfl⟩, fun _ => rfl⟩
  | succ depth ih =>
    obtain ⟨⟨hroot, hfirst⟩, hcluster⟩ := ih
    refine ⟨⟨?_, ?_⟩, fun c => ?_⟩
    · exact hcluster bs.rootCluster
    · exact hroot
    · rw [clusterToSector, hfirst]
      rfl

/-- **No FAT32 volume has a geometry**: at no depth of calls does one of the three functions return,
whichever boot sector was mounted and wherever the volume starts. -/
theorem fat32_geometry_never_computed (p : Profile) (startLba : ℕ) (bs : Fat32BootSector)
    (tableSize32 : ℕ) :
    ¬ Fat32Geometry p ⟨startLba, .fat32 bs⟩ bs tableSize32 ∧
      ∀ depth c, FatVolume.rootDirSector p ⟨startLba, .fat32 bs⟩ depth = none ∧
        FatVolume.firstDataSector p ⟨startLba, .fat32 bs⟩ depth = none ∧
        FatVolume.clusterToSector p ⟨startLba, .fat32 bs⟩ c depth = none := by
  constructor
  · intro h
    obtain ⟨depth, hdepth⟩ := h.firstDataSector
    rw [(fat32_calls_in_circle depth).1.2] at hdepth
    cases hdepth
  · intro depth c
    obtain ⟨⟨hroot, hfirst⟩, hcluster⟩ := @fat32_calls_in_circle p startLba bs depth
    exact ⟨hroot, hfirst, hcluster c⟩

/-- A FAT32 boot sector: 512-byte sectors, 8 sectors in a cluster, 32 reserved sectors, two tables
of 1000 sectors, the root directory in cluster 2. -/
def fat32Disk : BlockDevice where
  sectors := fun _ => Bytes.putAll (fun _ => 0)
    [(11, 2, 512), (13, 1, 8), (14, 2, 32), (16, 1, 2), (36, 4, 1000), (44, 4, 2), (510, 2, 0xAA55)]
  accesses := []
  fails := fun _ => false

/-- That disk is mounted, and printing its summary does not return. -/
theorem fat32_disk_has_no_geometry : ∃ v d bs, FatVolume.mount 0 fat32Disk = .ok v d ∧
    v.fatType = .fat32 bs ∧ bs.rootCluster = 2 ∧ ¬ Fat32Geometry .release v bs 1000 ∧
    (∀ depth, v.rootDirSector .release depth = none) ∧
    (v.debugInfo .release d).faulted = true := by
  have hmount : FatVolume.mount 0 fat32Disk
      = .ok ⟨0, .fat32 (.ofBytes (fat32Disk.sectors 0))⟩ (fat32Disk.record .read 0) := by
    have hread : readBlock 0 fat32Disk = .ok (fat32Disk.sectors 0) (fat32Disk.record .read 0) := rfl
    have hmagic : ¬ ((fat32Disk.sectors 0) 510 ≠ 0x55 ∨ (fat32Disk.sectors 0) 511 ≠ 0xAA) := by
      decide +kernel
    have hsize : (fat32Disk.sectors 0).get 22 2 = 0 := by decide +kernel
    unfold FatVolume.mount
    rw [bind_of_ok hread, if_neg hmagic, if_pos hsize]
    rfl
  have hnone := fun depth =>
    (@fat32_calls_in_circle .release 0 (.ofBytes (fat32Disk.sectors 0)) depth).1
  refine ⟨_, _, _, hmount, rfl, by decide +kernel, fun h => ?_,
    fun depth => (hnone depth).1, ?_⟩
  · obtain ⟨depth, hdepth⟩ := h.firstDataSector
    rw [(hnone depth).2] at hdepth
    cases hdepth
  · unfold FatVolume.debugInfo
    rw [(hnone FatVolume.callDepth).1]
    rfl

end NwinOs.Fs.Fat
