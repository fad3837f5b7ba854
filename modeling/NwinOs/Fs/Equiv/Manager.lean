import NwinOs.Fs.Manager
import NwinOs.Fs.Ext4.Equiv.Confined
import NwinOs.Fs.Fat.Equiv.Confined

/-!
# Mounted volumes and their partitions

A volume is mounted with the first sector of its partition, but not with the number of its sectors,
and no operation has a way to tell where the partition ends.  The main result says when it does not
have to: if the numbers that an operation follows point into the partition, so do its accesses.
`allocateInode_leaves_partition` is a disk on which one of them does not.
-/

namespace NwinOs.Fs

open Effect

/-! ### Operations on a mounted volume -/

/-- The operations of an ext4 volume. -/
inductive Ext4Operation
  | allocateInode
  | allocateBlock
  | readInode (inodeNum : ℕ)
  | writeInode (inodeNum : ℕ) (inode : Ext4.Ext4Inode)
  | writeDataToBlock (blockNum : ℕ) (data : List Byte)
  | newRoot
  | addEntry (node : Ext4.Ext4Node) (name : String) (inodeNum : ℕ)
  | lookup (node : Ext4.Ext4Node) (name : String)
  | read (node : Ext4.Ext4Node) (offset length : ℕ)

/-- The operations of a FAT volume. -/
inductive FatOperation
  | nextCluster (cluster : ℕ)
  | listRootDir
  | lookup (node : Fat.FatNode) (name : String)
  | read (node : Fat.FatNode) (offset length : ℕ)

/-- Runs a program for its effect. -/
def forEffect {α : Type} (m : FsProgram α) : FsProgram Unit := do
  let _ ← m
  pure ()

/-- The function of the volume. -/
def Ext4Operation.exec (p : Profile) (v : Ext4.Ext4Volume) : Ext4Operation → FsProgram Unit
  | .allocateInode => forEffect (v.allocateInode p)
  | .allocateBlock => forEffect (v.allocateBlock p)
  | .readInode n => forEffect (v.readInode p n)
  | .writeInode n inode => v.writeInode p n inode
  | .writeDataToBlock b data => v.writeDataToBlock p b data
  | .newRoot => forEffect (Ext4.Ext4Node.newRoot p v)
  | .addEntry node name n => node.addEntry p name n
  | .lookup node name => forEffect (node.lookup p name)
  | .read node offset length => forEffect (node.read p offset length)

/-- The function of the volume. -/
def FatOperation.exec (p : Profile) (v : Fat.FatVolume) : FatOperation → FsProgram Unit
  | .nextCluster c => forEffect (v.nextCluster p c)
  | .listRootDir => forEffect (v.listRootDir p)
  | .lookup node name => forEffect (node.lookup p name)
  | .read node offset length => forEffect (node.read p offset length)

/-- The numbers that the operation follows point into a partition of `total` sectors: the metadata
on the disk, the block it is given, the extents of the node it is called on. -/
def Ext4Operation.Fits (p : Profile) (v : Ext4.Ext4Volume) (total : ℕ) (op : Ext4Operation)
    (d : BlockDevice) : Prop :=
  match op with
  | .writeDataToBlock b _ => ∀ bs, v.blockSize p = some bs → Ext4.BlockFits total bs b
  | .addEntry node _ _ | .read node _ _ => node.volume = v ∧
    ∀ bs, v.blockSize p = some bs → Ext4.InodeFits p total bs node.inode
  | .lookup node _ => node.volume = v ∧ ∀ bs, v.blockSize p = some bs →
    Ext4.VolumeFits v total bs d.sectors ∧ Ext4.InodeFits p total bs node.inode
  | _ => ∀ bs, v.blockSize p = some bs → Ext4.VolumeFits v total bs d.sectors

/-- The same for a FAT16 volume: the boot sector, and the clusters on the chains that are
followed. -/
def FatOperation.Fits (v : Fat.FatVolume) (total : ℕ) (op : FatOperation) (d : BlockDevice) :
    Prop :=
  ∀ bs, v.fatType = .fat16 bs → match op with
  | .nextCluster c => Fat.EntryFits total bs c
  | .listRootDir => Fat.rootOffset bs < total ∧
    ∀ entry ∈ Fat.entriesOf (d.sectors (v.startLba + Fat.rootOffset bs)), entry.skipped = false →
      entry.isDir = false → ∀ c, Fat.Reaches v bs d.sectors entry.startCluster c →
        Fat.EntryFits total bs c
  | .lookup node _ => node.volume = v ∧
    (node.startCluster = 0 → Fat.rootOffset bs < total) ∧
    (node.startCluster ≠ 0 → Fat.ClusterFits total bs node.startCluster)
  | .read node _ _ => node.volume = v ∧ ∀ c, Fat.Reaches v bs d.sectors node.startCluster c →
    Fat.EntryFits total bs c ∧ Fat.ClusterFits total bs c

namespace MountedVolume

/-- The operations of a volume. -/
def Operation : MountedVolume → Type
  | .ext4 _ => Ext4Operation
  | .fat _ => FatOperation

/-- The function of the volume. -/
def exec (p : Profile) : (volume : MountedVolume) → volume.Operation → FsProgram Unit
  | .ext4 v => fun op => Ext4Operation.exec p v op
  | .fat v => fun op => FatOperation.exec p v op

/-- The operation's arguments stay in the partition. -/
def Fits (p : Profile) (total : ℕ) :
    (volume : MountedVolume) → volume.Operation → BlockDevice → Prop
  | .ext4 v => fun op => Ext4Operation.Fits p v total op
  | .fat v => fun op => FatOperation.Fits v total op

/-- The volume is not a FAT32 volume. -/
def IsExt4OrFat16 : MountedVolume → Prop
  | .ext4 _ => True
  | .fat v => ∃ bs, v.fatType = .fat16 bs

def startLba : MountedVolume → ℕ
  | .ext4 v => v.startLba
  | .fat v => v.startLba

end MountedVolume

/-! ### One operation -/

section

variable {p : Profile} {total : ℕ} {d : BlockDevice} {old : List Access}

theorem within_of_leads {α : Type} {m : FsProgram α} {P : ℕ → Prop} {Q : α → Prop}
    (h : Leads (Reading d.sectors old P) (Within old P) m Q) (hd : Within old P d) :
    wp m (fun _ => Within old P) (fun _ => Within old P) (Within old P) d :=
  wp_mono (h d ⟨rfl, hd⟩) (fun _ _ h => h.1) (fun _ _ h => h) fun _ h => h

theorem leads_forEffect {α : Type} {m : FsProgram α} {I J : BlockDevice → Prop} {Q : α → Prop}
    (h : Leads I J m Q) : Leads I J (forEffect m) fun _ => True :=
  .seq h fun _ _ => .ret trivial

theorem Ext4Operation.within {v : Ext4.Ext4Volume} (hstart : v.startLba < 2 ^ 32)
    (htotal : total < 2 ^ 32) (op : Ext4Operation) (hfits : op.Fits p v total d)
    (hd : Within old (InPartition v.startLba total) d) :
    wp (op.exec p v) (fun _ => Within old (InPartition v.startLba total))
      (fun _ => Within old (InPartition v.startLba total))
      (Within old (InPartition v.startLba total)) d := by
  refine within_of_leads (Q := fun _ => True) ?_ hd
  cases op with
  | allocateInode => exact leads_forEffect (Ext4.leads_allocateInode hstart htotal hfits)
  | allocateBlock => exact leads_forEffect (Ext4.leads_allocateBlock hstart htotal hfits)
  | readInode n =>
    exact (leads_forEffect (Ext4.leads_readInode hstart htotal hfits)).mono Reading.within
      fun _ h => h
  | writeInode n inode => exact Ext4.leads_writeInode hstart htotal hfits
  | writeDataToBlock b data => exact Ext4.leads_writeDataToBlock hstart htotal hfits
  | newRoot =>
    exact (leads_forEffect (Ext4.leads_newRoot hstart htotal hfits)).mono Reading.within
      fun _ h => h
  | addEntry node name n => exact Ext4.leads_addEntry hstart htotal hfits.1 hfits.2
  | lookup node name =>
    exact (leads_forEffect (Ext4.leads_lookup hstart htotal hfits.1
      (fun bs hbs => (hfits.2 bs hbs).1) fun bs hbs => (hfits.2 bs hbs).2)).mono Reading.within
      fun _ h => h
  | read node offset length =>
    exact (leads_forEffect (Ext4.leads_read hstart htotal hfits.1 hfits.2)).mono Reading.within
      fun _ h => h

theorem FatOperation.within {v : Fat.FatVolume} {bs : Fat.Fat16BootSector}
    (h16 : v.fatType = .fat16 bs) (hstart : v.startLba < 2 ^ 32) (htotal : total < 2 ^ 32)
    (op : FatOperation) (hfits : op.Fits v total d)
    (hd : Within old (InPartition v.startLba total) d) :
    wp (op.exec p v) (fun _ => Within old (InPartition v.startLba total))
      (fun _ => Within old (InPartition v.startLba total))
      (Within old (InPartition v.startLba total)) d := by
  refine within_of_leads (Q := fun _ => True) (.mono (K := Reading d.sectors old _) ?_
    Reading.within fun _ h => h) hd
  have hfits := hfits bs h16
  cases op with
  | nextCluster c => exact leads_forEffect (Fat.leads_nextCluster h16 hstart htotal hfits)
  | listRootDir =>
    exact leads_forEffect (Fat.leads_listRootDir h16 hstart htotal hfits.1 hfits.2)
  | lookup node name =>
    exact leads_forEffect (Fat.leads_lookup h16 hstart htotal hfits.1 hfits.2.1 hfits.2.2)
  | read node offset length =>
    exact leads_forEffect (Fat.leads_read h16 hstart htotal hfits.1 hfits.2)

end

/-! ### Runs -/

section

variable {p : Profile} {part : PartitionEntry} {volume : MountedVolume} {d d' : BlockDevice}

theorem leads_readBlock_any (lba : ℕ) :
    Leads (fun _ => True) (fun _ => True) (readBlock lba) fun _ => True := by
  intro d _
  unfold wp readBlock
  split_ifs with hfail
  · trivial
  · exact ⟨trivial, trivial⟩

theorem startLba_of_mountPartition (h : mountPartition p part d = .ok (some volume) d') :
    volume.startLba = part.startLba := by
  have hleads : Leads (fun _ => True) (fun _ => True) (mountPartition p part)
      fun r => ∀ volume, r = some volume → volume.startLba = part.startLba := by
    unfold mountPartition
    split_ifs with hempty hfat hlinux
    · refine .ret ?_
      rintro _ ⟨⟩
    · have hmount : Leads (fun _ => True) (fun _ => True) (Fat.FatVolume.mount part.startLba)
          fun v => v.startLba = part.startLba := by
        refine .seq (leads_readBlock_any _) fun buffer _ => ?_
        split_ifs
        · exact .fail
        · exact .ret rfl
        · exact .ret rfl
      refine .seq hmount fun v hv => .ret ?_
      rintro _ ⟨⟩
      exact hv
    · have hmount : Leads (fun _ => True) (fun _ => True) (Ext4.mount p part.startLba)
          fun v => v.startLba = part.startLba := by
        refine .seq (.value fun _ _ => trivial) fun _ _ => ?_
        refine .seq (leads_readBlock_any _) fun buffer _ => ?_
        refine .seq (.value fun _ _ => trivial) fun _ _ => ?_
        refine .seq (leads_readBlock_any _) fun _ _ => ?_
        dsimp only
        split_ifs
        · exact .fail
        · exact .ret rfl
      refine .seq hmount fun v hv => .ret ?_
      rintro _ ⟨⟩
      exact hv
    · refine .ret ?_
      rintro _ ⟨⟩
  exact (wp_of_ok (hleads d trivial) h).2 volume rfl

/-- **A mounted volume stays in its partition as long as its numbers do.**  In every run of
operations on an ext4 or FAT16 volume, each of which starts where the numbers that it follows point
into the partition, every access is to a sector of the partition. -/
theorem mounted_volume_stays_in_partition {ops : List volume.Operation}
    (hmount : mountPartition p part d = .ok (some volume) d') (hkind : volume.IsExt4OrFat16)
    (hfits : MeetsAll (volume.exec p) (volume.Fits p part.totalSectors) ops d') :
    ∃ accesses, (runAll (volume.exec p) ops d').accesses = accesses ++ d'.accesses ∧
      ∀ a ∈ accesses, part.startLba ≤ a.lba ∧ a.lba < part.startLba + part.totalSectors := by
  have hstart := startLba_of_mountPartition hmount
  have hlt := part.startLba_lt
  have htotal := part.totalSectors_lt
  have hinit : Within d'.accesses (InPartition part.startLba part.totalSectors) d' :=
    ⟨[], rfl, fun a ha => absurd ha List.not_mem_nil⟩
  change Within d'.accesses (InPartition part.startLba part.totalSectors) _
  refine runAll_invariant (fun op s hs hop => ?_) hinit hfits
  cases volume with
  | ext4 v =>
    change v.startLba = part.startLba at hstart
    rw [← hstart] at hs hlt ⊢
    exact Ext4Operation.within hlt htotal op hop hs
  | fat v =>
    obtain ⟨bs, h16⟩ := hkind
    change v.startLba = part.startLba at hstart
    rw [← hstart] at hs hlt ⊢
    exact FatOperation.within h16 hlt htotal op hop hs

end

/-! ### A disk with one partition -/

/-- One partition of 64 sectors from sector 2048 on, with an ext4 volume in it: 16 inodes, blocks of
2 KiB, the given block for the inode bitmap. -/
def partitionedSectors (inodeBitmap s : ℕ) : Bytes :=
  -- the partition table, the super-block, the descriptor of group 0
  if s = 0 then
    Bytes.putAll (fun _ => 0) [(450, 1, 0x83), (454, 4, 2048), (458, 4, 64), (510, 2, 0xAA55)]
  else if s = 2050 then
    Bytes.putAll (fun _ => 0) [(0, 4, 16), (24, 4, 1), (40, 4, 16), (56, 2, 0xEF53)]
  else if s = 2052 then Bytes.putAll (fun _ => 0) [(0, 4, 2), (4, 4, inodeBitmap), (8, 4, 4)]
  else fun _ => 0

/-- The entry of the partition table. -/
def samplePartition : PartitionEntry := ⟨0x83, 2048, 64, by decide, by decide⟩

/-- The volume, as it is mounted. -/
def partitionedVolume : Ext4.Ext4Volume :=
  ⟨2048, ⟨16, 1, 16, 0xEF53, Ext4.sixteen_lt, Ext4.sixteen_lt⟩⟩

/-- The disk after its partition table was read, and after the volume was mounted. -/
def partitionedDisk (inodeBitmap : ℕ) (accesses : List Access) : BlockDevice :=
  ⟨partitionedSectors inodeBitmap, accesses, fun _ => false⟩

theorem mount_partitionedDisk : mountPartition .dev samplePartition (partitionedDisk 3 [])
    = .ok (some (.ext4 partitionedVolume)) (partitionedDisk 3 [⟨.read, 2051⟩, ⟨.read, 2050⟩]) :=
  rfl

theorem partitionedVolume_fits {bs : ℕ} (hbs : partitionedVolume.blockSize .dev = some bs) :
    Ext4.VolumeFits partitionedVolume 64 bs (partitionedSectors 3) := by
  obtain rfl : 2048 = bs := Option.some.inj hbs
  refine ⟨by decide, ?_, ?_, ?_, ?_⟩
  · unfold Ext4.BlockFits
    decide
  · unfold Ext4.BlockFits
    decide +kernel
  · unfold Ext4.BlockFits
    decide +kernel
  · have hall : ∀ n < 17,
        Ext4.slotByte partitionedVolume 2048 (partitionedSectors 3) n / 512 < 64 := by
      decide +kernel
    intro n hn
    exact hall n (Nat.lt_succ_of_le hn.2)

theorem mounted_volume_stays_in_partition_sample :
    mountPartition .dev samplePartition (partitionedDisk 3 [])
      = .ok (some (.ext4 partitionedVolume)) (partitionedDisk 3 [⟨.read, 2051⟩, ⟨.read, 2050⟩]) ∧
    ∃ accesses, (runAll (MountedVolume.exec .dev (.ext4 partitionedVolume)) [.allocateInode]
        (partitionedDisk 3 [⟨.read, 2051⟩, ⟨.read, 2050⟩])).accesses
        = accesses ++ (partitionedDisk 3 [⟨.read, 2051⟩, ⟨.read, 2050⟩]).accesses ∧
      ∀ a ∈ accesses, samplePartition.startLba ≤ a.lba ∧
        a.lba < samplePartition.startLba + samplePartition.totalSectors := by
  have hfits : MeetsAll (MountedVolume.exec .dev (.ext4 partitionedVolume))
      (MountedVolume.Fits .dev samplePartition.totalSectors (.ext4 partitionedVolume))
      [.allocateInode] (partitionedDisk 3 [⟨.read, 2051⟩, ⟨.read, 2050⟩]) := by
    refine ⟨fun bs hbs => partitionedVolume_fits hbs, ?_⟩
    split <;> trivial
  exact ⟨mount_partitionedDisk,
    mounted_volume_stays_in_partition mount_partitionedDisk trivial hfits⟩

/-- With the inode bitmap in block 1000 the volume is mounted all the same, and reserving an inode
writes to a sector far behind the end of the partition. -/
theorem allocateInode_leaves_partition :
    ∃ (d d₀ d₁ d₂ : BlockDevice) (mbr : Mbr) (part : PartitionEntry) (v : Ext4.Ext4Volume) (n : ℕ),
      Mbr.readFrom d = .ok mbr d₀ ∧ mbr.isGptProtective = false ∧ part ∈ mbr.partitions ∧
      mountPartition .dev part d₀ = .ok (some (.ext4 v)) d₁ ∧
      v.allocateInode .dev d₁ = .ok n d₂ ∧
      ∃ a ∈ d₂.accesses, a ∉ d₁.accesses ∧ a.kind = .write ∧
        ¬ (part.startLba ≤ a.lba ∧ a.lba < part.startLba + part.totalSectors) := by
  have hpart : samplePartition = PartitionEntry.ofBytes (partitionedSectors 1000 0) 0 := rfl
  have hvalue : (partitionedVolume.allocateInode .dev
      (partitionedDisk 1000 [⟨.read, 2051⟩, ⟨.read, 2050⟩, ⟨.read, 0⟩])).value? = some 1 := by
    decide +kernel
  have haccess : (partitionedVolume.allocateInode .dev
      (partitionedDisk 1000 [⟨.read, 2051⟩, ⟨.read, 2050⟩, ⟨.read, 0⟩])).state.accesses
      = [⟨.write, 6048⟩, ⟨.read, 6048⟩, ⟨.read, 2052⟩, ⟨.read, 2051⟩, ⟨.read, 2050⟩,
        ⟨.read, 0⟩] := by
    decide +kernel
  obtain ⟨d₂, hrun⟩ := ok_of_value? hvalue
  rw [hrun] at haccess
  refine ⟨partitionedDisk 1000 [], partitionedDisk 1000 [⟨.read, 0⟩],
    partitionedDisk 1000 [⟨.read, 2051⟩, ⟨.read, 2050⟩, ⟨.read, 0⟩], d₂,
    ⟨(List.range 4).map (PartitionEntry.ofBytes (partitionedSectors 1000 0))⟩, samplePartition,
    partitionedVolume, 1, rfl, rfl, ?_, rfl, hrun, ⟨.write, 6048⟩, ?_, by decide, rfl, by decide⟩
  · rw [hpart]
    exact List.mem_map_of_mem (List.mem_range.mpr (by decide))
  · rw [show d₂.accesses = _ from haccess]
    exact List.mem_cons_self

end NwinOs.Fs
