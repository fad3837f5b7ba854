import NwinOs.Fs.Ext4.Node
import NwinOs.Fs.Fat.Equiv.ReadSafe

/-!
# Which mounted volumes can be used without a panic

Mounting looks at a signature only, and every later division, shift and slice uses the fields of the
superblock or boot sector as they are.  For each operation this says which fields let it panic.

An ext4 operation is `PanicFree` if the release build never faults (no division by zero, no access
outside a buffer; sums and products wrap there) and the build with checks does not fault at the
shift that computes the block size; what an extent search finds behind `i_block` may be anything.
For FAT16, where no sum can overflow, it is the build with checks that never faults.
-/

namespace NwinOs.Fs

open Effect NeverFaults

instance : Nonempty BlockDevice := ⟨⟨fun _ _ => 0, [], fun _ => false⟩⟩

theorem neverFaults_readBlock {lba : ℕ} : NeverFaults (readBlock lba) := by
  constructor
  intro d
  unfold readBlock
  split_ifs <;> rfl

theorem neverFaults_writeBlock {lba : ℕ} {buf : Bytes} : NeverFaults (writeBlock lba buf) := by
  constructor
  intro d
  unfold writeBlock
  split_ifs <;> rfl

namespace Ext4

variable {v : Ext4Volume} {α : Type} {inode : Ext4Inode}

/-! ### ext4 -/

/-- The operation neither divides by zero nor leaves a buffer nor shifts by 64 or more. -/
structure PanicFree (v : Ext4Volume) (op : Profile → FsProgram α) : Prop where
  release : NeverFaults (op .release)
  shift : v.blockSize .dev = none → NeverFaults (op .dev)

theorem blockSize_dev_eq_none : v.blockSize .dev = none ↔ 64 ≤ v.superBlock.sLogBlockSize := by
  unfold Ext4Volume.blockSize Ext4SuperBlock.blockSize Profile.shl
  split_ifs with h
  · simp only [false_iff, Nat.not_le]
    exact h
  · simp only [true_iff]
    omega

/-- In the release build the shift amount is masked. -/
theorem blockSize_release : v.blockSize .release
    = some (1024 * 2 ^ (v.superBlock.sLogBlockSize % 64) % 2 ^ 64) := by
  unfold Ext4Volume.blockSize Ext4SuperBlock.blockSize Profile.shl
  split_ifs with h
  · rw [Nat.mod_eq_of_lt h]
  · rfl

theorem add_release_isSome {w a b : ℕ} : (Profile.release.add w a b).isSome = true := by
  rw [Profile.add, Profile.checked_release, Option.isSome_some]

theorem mul_release_isSome {a b : ℕ} : (Profile.release.mul 64 a b).isSome = true := by
  rw [Profile.mul, Profile.checked_release, Option.isSome_some]

theorem blockSector_release_isSome {bs block : ℕ} :
    (v.blockSector .release bs block).isSome = true := by
  unfold Ext4Volume.blockSector
  obtain ⟨offset, hoffset⟩ := Option.isSome_iff_exists.mp (@mul_release_isSome block (bs / 512))
  rw [hoffset, Option.bind_some]
  exact add_release_isSome

theorem neverFaults_readDescriptor {bs group : ℕ} :
    NeverFaults (v.readDescriptor .release bs group) :=
  .bind (ofOption_iff.mpr blockSector_release_isSome) fun _ =>
    .bind neverFaults_readBlock fun _ => .pure

theorem panicFree_blockSize_iff {f : Profile → ℕ → FsProgram α}
    (hf : NeverFaults (f .release (1024 * 2 ^ (v.superBlock.sLogBlockSize % 64) % 2 ^ 64))) :
    PanicFree v (fun p => Program.ofOption (v.blockSize p) >>= f p) ↔
      v.superBlock.sLogBlockSize < 64 := by
  constructor
  · intro h
    by_contra hge
    have hnone := blockSize_dev_eq_none.mpr (Nat.not_lt.mp hge)
    have hshift := (h.shift hnone).run ⟨fun _ _ => 0, [], fun _ => false⟩
    rw [hnone] at hshift
    cases hshift
  · intro hlt
    refine ⟨?_, fun hnone => ?_⟩
    · rw [blockSize_release]
      exact hf
    · have hge := blockSize_dev_eq_none.mp hnone
      omega

theorem panicFree_bind_iff {β : Type} {m : Profile → FsProgram β} {f : β → FsProgram α}
    (hf : ∀ b, NeverFaults (f b)) : PanicFree v (fun p => m p >>= f) ↔ PanicFree v m :=
  ⟨fun h => ⟨h.release.of_bind, fun hnone => (h.shift hnone).of_bind⟩,
    fun h => ⟨h.release.bind hf, fun hnone => (h.shift hnone).bind hf⟩⟩

theorem panicFree_allocateBit_iff {bitmapBlock : Ext4BlockGroupDescriptor → ℕ}
    {exhausted : FsError} :
    PanicFree v (fun p => v.allocateBit p bitmapBlock exhausted) ↔
      v.superBlock.sLogBlockSize < 64 := by
  apply panicFree_blockSize_iff
  refine .bind neverFaults_readDescriptor fun bgd => ?_
  refine .bind (ofOption_iff.mpr blockSector_release_isSome) fun sector => ?_
  refine .bind neverFaults_readBlock fun bitmap => ?_
  cases Ext4Volume.firstFreeBit bitmap with
  | none => exact .throw
  | some place => exact .bind neverFaults_writeBlock fun _ => .pure

theorem panicFree_locateInode_iff {n : ℕ} {f : ℕ × ℕ → FsProgram α}
    (hf : ∀ place, NeverFaults (f place)) :
    PanicFree v (fun p => v.locateInode p n >>= f) ↔
      (n < 1 ∨ v.superBlock.sInodesCount < n) ∨
        v.superBlock.sLogBlockSize < 64 ∧ v.superBlock.sInodesPerGroup ≠ 0 := by
  by_cases hrange : n < 1 ∨ v.superBlock.sInodesCount < n
  · have hthrow : ∀ p, v.locateInode p n = Program.throw .corruptedDirectory := fun p =>
      if_pos hrange
    simp only [hrange, true_or, iff_true, hthrow]
    exact ⟨.bind .throw hf, fun _ => .bind .throw hf⟩
  rw [or_iff_right hrange]
  unfold Ext4Volume.locateInode
  simp only [if_neg hrange, bind_assoc]
  by_cases hgroup : v.superBlock.sInodesPerGroup = 0
  · -- the division panics, in every build that gets past the shift
    refine ⟨fun h => ?_, fun h => absurd hgroup h.2⟩
    have hfault := h.release.run ⟨fun _ _ => 0, [], fun _ => false⟩
    rw [blockSize_release, if_pos hgroup] at hfault
    cases hfault
  · have hsome : (if v.superBlock.sInodesPerGroup = 0 then none else some ()).isSome = true := by
      rw [if_neg hgroup]
      rfl
    rw [and_iff_left hgroup]
    apply panicFree_blockSize_iff
    refine .bind (ofOption_iff.mpr hsome) fun _ => ?_
    refine .bind neverFaults_readDescriptor fun bgd => ?_
    refine .bind (ofOption_iff.mpr mul_release_isSome) fun _ => ?_
    refine .bind (ofOption_iff.mpr add_release_isSome) fun _ => ?_
    refine .bind (ofOption_iff.mpr add_release_isSome) fun _ => ?_
    exact .bind .pure hf

/-! The loop of `read`, whatever an extent search comes to that leaves `i_block`. -/

theorem physicalBlock_release_isSome {block : ℕ} {behind : Option ℕ} :
    (inode.physicalBlock .release block (some behind)).isSome = true := by
  have hsearch : ∀ count i,
      (inode.extentSearch .release block (some behind) count i).isSome = true := by
    intro count
    induction count with
    | zero => exact fun _ => rfl
    | succ count ih =>
      intro i
      obtain ⟨stop, hstop⟩ := Option.isSome_iff_exists.mp
        (@add_release_isSome 32 (inode.eeBlock i) (inode.eeLen i))
      rw [Ext4Inode.extentSearch, hstop, Option.bind_some]
      split_ifs
      · rfl
      · rfl
      · exact ih (i + 1)
      · exact ih (i + 1)
  unfold Ext4Inode.physicalBlock
  split_ifs
  · rfl
  · exact hsearch ..
  · rfl

theorem logicalToPhysicalSector_release_isSome {block : ℕ} {behind : Option ℕ} :
    (v.logicalToPhysicalSector .release inode block (some behind)).isSome = true := by
  unfold Ext4Volume.logicalToPhysicalSector
  obtain ⟨found, hfound⟩ := Option.isSome_iff_exists.mp
    (@physicalBlock_release_isSome inode block behind)
  rw [blockSize_release, Option.bind_some, hfound, Option.bind_some]
  cases found with
  | none => rfl
  | some b =>
    dsimp only
    rw [Option.isSome_map]
    exact blockSector_release_isSome

section

variable {node : Ext4Node} {behind : ℕ → Option ℕ}

theorem neverFaults_readLoop {bs n fuel cur : ℕ} {copied : List Byte} :
    NeverFaults (node.readLoop .release (fun l => some (behind l)) bs n fuel copied cur) := by
  induction fuel generalizing copied cur with
  | zero => exact .pure
  | succ fuel ih =>
    rw [Ext4Node.readLoop]
    split_ifs
    · refine .bind (ofOption_iff.mpr logicalToPhysicalSector_release_isSome) fun base => ?_
      cases base with
      | none => exact .pure
      | some base =>
        refine .bind (ofOption_iff.mpr add_release_isSome) fun target => ?_
        refine .bind neverFaults_readBlock.attempt fun result => ?_
        cases result with
        | error e => exact .pure
        | ok sector => exact ih
    · exact .pure

/-- **`read` panics exactly when there is something to read and nothing is left of the block size**:
the loop divides by it. -/
theorem panicFree_read_iff {offset length : ℕ} (hnode : node.volume = v) :
    PanicFree v (fun p => node.readWith p (fun l => some (behind l)) offset length) ↔
      (node.size ≤ offset ∨ length = 0) ∨ v.superBlock.sLogBlockSize < 54 := by
  by_cases htrivial : node.size ≤ offset ∨ length = 0
  · have hpure : ∀ p, node.readWith p (fun l => some (behind l)) offset length = pure [] :=
      fun p => if_pos htrivial
    simp only [htrivial, true_or, iff_true, hpure]
    exact ⟨.pure, fun _ => .pure⟩
  rw [or_iff_right htrivial]
  have hread : ∀ p, node.readWith p (fun l => some (behind l)) offset length = (do
      let blockSize ← Program.ofOption (v.blockSize p)
      let _ ← Program.ofOption (if blockSize = 0 then none else some ())
      node.readLoop p (fun l => some (behind l)) blockSize (min length (node.size - offset))
        (min length (node.size - offset)) [] offset) := by
    intro p
    unfold Ext4Node.readWith
    rw [if_neg htrivial, hnode]
  simp only [hread]
  constructor
  · intro h
    by_contra hsize
    by_cases hshift : v.superBlock.sLogBlockSize < 64
    · -- the shift leaves nothing of the block size
      have hzero : 1024 * 2 ^ v.superBlock.sLogBlockSize % 2 ^ 64 = 0 := by
        obtain ⟨k, hk⟩ := Nat.exists_eq_add_of_le (Nat.not_lt.mp hsize)
        rw [hk, Nat.pow_add, ← Nat.mul_assoc]
        exact Nat.mul_mod_right ..
      have hfault := h.release.run ⟨fun _ _ => 0, [], fun _ => false⟩
      rw [blockSize_release, Nat.mod_eq_of_lt hshift, hzero] at hfault
      cases hfault
    · have hnone := blockSize_dev_eq_none.mpr (Nat.not_lt.mp hshift)
      have hfault := (h.shift hnone).run ⟨fun _ _ => 0, [], fun _ => false⟩
      rw [hnone] at hfault
      cases hfault
  · intro hsize
    refine (panicFree_blockSize_iff (.bind (ofOption_iff.mpr ?_) fun _ =>
      neverFaults_readLoop)).mpr (by omega)
    have hlt : 1024 * 2 ^ v.superBlock.sLogBlockSize < 2 ^ 64 := by
      calc 1024 * 2 ^ v.superBlock.sLogBlockSize < 1024 * 2 ^ 54 :=
            Nat.mul_lt_mul_of_pos_left (Nat.pow_lt_pow_right (by decide) hsize) (by decide)
        _ = 2 ^ 64 := by decide
    have hne : 1024 * 2 ^ v.superBlock.sLogBlockSize ≠ 0 := by positivity
    rw [Nat.mod_eq_of_lt (show v.superBlock.sLogBlockSize < 64 by omega), Nat.mod_eq_of_lt hlt,
      if_neg hne]
    rfl

end

end Ext4

/-! ### FAT16 -/

namespace Fat

variable {v : FatVolume} {bs : Fat16BootSector} {node : FatNode} {c : ℕ}
  (h16 : v.fatType = .fat16 bs) (hstart : v.startLba < 2 ^ 32)

include h16 hstart

theorem firstDataSector_isSome_iff :
    (v.firstDataSector .dev FatVolume.callDepth).isSome = true ↔ bs.bytesPerSector ≠ 0 := by
  unfold FatVolume.callDepth
  by_cases hbps : bs.bytesPerSector = 0
  · rw [firstDataSector_eq_none h16 hbps]
    simp [hbps]
  · rw [firstDataSector_eq h16 hstart hbps]
    simp [hbps]

/-- Cluster numbers below 2 underflow, and without sectors there is no data region. -/
theorem clusterToSector_isSome_iff (hc : c < 2 ^ 32) :
    (v.clusterToSector .dev c FatVolume.callDepth).isSome = true ↔
      bs.bytesPerSector ≠ 0 ∧ 2 ≤ c := by
  unfold FatVolume.callDepth
  by_cases hbps : bs.bytesPerSector = 0
  · rw [FatVolume.clusterToSector, firstDataSector_eq_none h16 hbps]
    simp [hbps]
  by_cases h2 : 2 ≤ c
  · have hlt := @clusterOffset_lt bs c hc
    rw [clusterToSector_eq h16 hstart hbps h2 (by omega)]
    simp [hbps, h2]
  · have hsub : Profile.dev.sub 64 c 2 = none := if_neg h2
    rw [FatVolume.clusterToSector, firstDataSector_eq h16 hstart hbps, hsub]
    simp [h2]

theorem neverFaults_nextCluster_iff (hc : c < 2 ^ 32) :
    NeverFaults (v.nextCluster .dev c) ↔ bs.bytesPerSector ≠ 0 ∧ EntrySafe bs c := by
  by_cases hbps : bs.bytesPerSector = 0
  · refine ⟨fun h => ?_, fun h => absurd hbps h.1⟩
    have hfault := h.run ⟨fun _ _ => 0, [], fun _ => false⟩
    rw [nextCluster_eq_fault h16 hbps hstart (by omega)] at hfault
    cases hfault
  rw [and_iff_right hbps]
  constructor
  · intro h
    have hrun := h.run ⟨fun _ _ => 0, [], fun _ => false⟩
    rw [nextCluster_run h16 hstart hbps (by omega)] at hrun
    by_contra hunsafe
    rw [if_neg hunsafe] at hrun
    cases hrun
  · intro hsafe
    constructor
    intro d
    rw [nextCluster_run h16 hstart hbps (by omega), if_pos hsafe]
    split_ifs <;> rfl

theorem neverFaults_lookup_iff (hnode : node.volume = v) (hc : node.startCluster < 2 ^ 32)
    {name : String} :
    NeverFaults (node.lookup .dev name) ↔
      node.isDirectory = false ∨ node.startCluster = 0 ∨
        bs.bytesPerSector ≠ 0 ∧ 2 ≤ node.startCluster := by
  unfold FatNode.lookup
  by_cases hdir : node.isDirectory = false
  · rw [if_pos hdir]
    exact ⟨fun _ => .inl hdir, fun _ => .pure⟩
  rw [if_neg hdir, or_iff_right hdir, hnode]
  have hiff : (if node.startCluster = 0 then v.rootDirSector .dev FatVolume.callDepth
      else v.clusterToSector .dev node.startCluster FatVolume.callDepth).isSome = true ↔
      node.startCluster = 0 ∨ bs.bytesPerSector ≠ 0 ∧ 2 ≤ node.startCluster := by
    by_cases hzero : node.startCluster = 0
    · rw [if_pos hzero, FatVolume.callDepth, rootDirSector_eq h16 hstart]
      simp [hzero]
    · rw [if_neg hzero, or_iff_right hzero]
      exact clusterToSector_isSome_iff h16 hstart hc
  rw [← hiff]
  constructor
  · intro h
    by_contra hnone
    rw [Option.not_isSome_iff_eq_none] at hnone
    have hfault := h.run ⟨fun _ _ => 0, [], fun _ => false⟩
    rw [hnone] at hfault
    cases hfault
  · intro hsome
    refine .bind (ofOption_iff.mpr hsome) fun sector => ?_
    refine .bind neverFaults_readBlock.attempt fun result => ?_
    cases result with
    | error e => exact .pure
    | ok buffer => exact .pure

theorem read_not_faulted_iff (hnode : node.volume = v) (hc : node.startCluster < 2 ^ 32)
    {S : ℕ → Bytes} {offset length : ℕ} :
    (∀ d, d.sectors = S → (node.read .dev offset length d).faulted = false) ↔
      (node.isDirectory = true ∨ node.size ≤ offset ∨ node.startCluster = 0 ∨ length = 0) ∨
      ReadSafe v bs S (2 ≤ ·) node.startCluster offset (min length (node.size - offset)) := by
  rw [FatNode.read, hnode]
  by_cases hbps : bs.bytesPerSector = 0
  · have hzero : bytesPerCluster bs = 0 := by
      unfold bytesPerCluster
      rw [hbps, Nat.zero_mul]
    have hnever := @readVia_safe_iff (fun c => v.clusterToSector .dev c FatVolume.callDepth) .dev
      node v bs S (fun _ => False) hnode h16 hstart (fun _ _ h => h.elim) (fun c hc _ => ?_)
      offset length hc
    · rw [hnever]
      exact or_congr_right ⟨fun h => absurd hzero h.bytesPerCluster_ne,
        fun h => absurd hzero h.bytesPerCluster_ne⟩
    · rw [← Option.not_isSome_iff_eq_none, clusterToSector_isSome_iff h16 hstart hc]
      exact fun h => h.1 hbps
  · refine readVia_safe_iff hnode h16 hstart (fun c hc h2 => ?_) (fun c hc h2 => ?_) hc
    · have hlt := @clusterOffset_lt bs c hc
      exact ⟨_, clusterToSector_eq h16 hstart hbps h2 (by omega), by omega⟩
    · rw [← Option.not_isSome_iff_eq_none, clusterToSector_isSome_iff h16 hstart hc]
      exact fun h => h2 h.2

end Fat

/-! ### The operations of mounted volumes -/

open Ext4 Fat in
/-- **Which fields let which operation panic**, for every superblock and every FAT16 boot sector:
none of these conditions is checked when the volume is mounted. -/
theorem mounted_volume_panic_free_iff (v : Ext4Volume) (w : FatVolume) (bs : Fat16BootSector) :
    ((PanicFree v (fun p => Program.ofOption (v.blockSize p)) ↔
        v.superBlock.sLogBlockSize < 64) ∧
      (∀ n, PanicFree v (fun p => v.readInode p n) ↔
        (n < 1 ∨ v.superBlock.sInodesCount < n) ∨
          v.superBlock.sLogBlockSize < 64 ∧ v.superBlock.sInodesPerGroup ≠ 0) ∧
      (∀ n inode, PanicFree v (fun p => v.writeInode p n inode) ↔
        (n < 1 ∨ v.superBlock.sInodesCount < n) ∨
          v.superBlock.sLogBlockSize < 64 ∧ v.superBlock.sInodesPerGroup ≠ 0) ∧
      (PanicFree v (fun p => v.allocateInode p) ↔ v.superBlock.sLogBlockSize < 64) ∧
      (PanicFree v (fun p => v.allocateBlock p) ↔ v.superBlock.sLogBlockSize < 64) ∧
      ∀ (node : Ext4Node) (behind : ℕ → Option ℕ) (offset length : ℕ), node.volume = v →
        (PanicFree v (fun p => node.readWith p (fun l => some (behind l)) offset length) ↔
          (node.size ≤ offset ∨ length = 0) ∨ v.superBlock.sLogBlockSize < 54)) ∧
    (w.fatType = .fat16 bs → w.startLba < 2 ^ 32 →
      ((w.firstDataSector .dev FatVolume.callDepth).isSome = true ↔ bs.bytesPerSector ≠ 0) ∧
      (∀ c, c < 2 ^ 32 →
        (NeverFaults (w.nextCluster .dev c) ↔ bs.bytesPerSector ≠ 0 ∧ EntrySafe bs c)) ∧
      ∀ node : FatNode, node.volume = w → node.startCluster < 2 ^ 32 →
        (∀ name, NeverFaults (node.lookup .dev name) ↔
          node.isDirectory = false ∨ node.startCluster = 0 ∨
            bs.bytesPerSector ≠ 0 ∧ 2 ≤ node.startCluster) ∧
        ∀ (S : ℕ → Bytes) (offset length : ℕ),
          (∀ d, d.sectors = S → (node.read .dev offset length d).faulted = false) ↔
            (node.isDirectory = true ∨ node.size ≤ offset ∨ node.startCluster = 0 ∨ length = 0) ∨
            ReadSafe w bs S (2 ≤ ·) node.startCluster offset
              (min length (node.size - offset))) := by
  constructor
  · refine ⟨?_, fun n => ?_, fun n inode => ?_, ?_, panicFree_allocateBit_iff,
      fun node behind offset length hnode => panicFree_read_iff hnode⟩
    · have hpure := @panicFree_blockSize_iff v ℕ (fun _ => pure) .pure
      simpa only [bind_pure] using hpure
    · exact panicFree_locateInode_iff fun _ => .bind neverFaults_readBlock fun _ => .pure
    · exact panicFree_locateInode_iff fun _ =>
        .bind neverFaults_readBlock fun _ => neverFaults_writeBlock
    · exact (panicFree_bind_iff fun _ => .pure).trans panicFree_allocateBit_iff
  · intro h16 hstart
    refine ⟨firstDataSector_isSome_iff h16 hstart,
      fun c hc => neverFaults_nextCluster_iff h16 hstart hc, fun node hnode hc => ⟨fun name => ?_,
      fun S offset length => ?_⟩⟩
    · exact neverFaults_lookup_iff h16 hstart hnode hc
    · exact read_not_faulted_iff h16 hstart hnode hc

/-- A volume of 4096-byte blocks with 16 inodes in a group. -/
def plainVolume : Ext4.Ext4Volume := ⟨0, 16, 2, 16, 0xEF53, by decide, by decide⟩

/-- On that volume every inode can be read; on one of 512-byte sectors, the first byte of a file in
cluster 2. -/
theorem sample_volumes_panic_free :
    (∀ n, Ext4.PanicFree plainVolume fun p => plainVolume.readInode p n) ∧
    ∀ d, d.sectors = Fat.strayDisk.sectors → (Fat.strayFile.read .dev 0 1 d).faulted = false := by
  obtain ⟨hext4, hfat⟩ :=
    mounted_volume_panic_free_iff plainVolume Fat.strayFile.volume Fat.smallBoot
  refine ⟨fun n => (hext4.2.1 n).mpr (.inr (by decide)), ?_⟩
  refine (((hfat rfl (by decide)).2.2 Fat.strayFile rfl (by decide)).2 _ 0 1).mpr
    (.inr ⟨by decide, fun i hi => ?_, ?_⟩)
  · rw [Nat.zero_div] at hi
    exact absurd hi (Nat.not_lt_zero i)
  intro y _ hy c hc
  have hone : min 1 (Fat.strayFile.size - 0) = 1 := by decide
  have hzero : y = 0 := by omega
  subst hzero
  cases hc
  exact ⟨by decide, by decide, by decide⟩

/-- A superblock without inodes in its groups, and a boot sector without bytes in its sectors. -/
def emptyGroupsDisk : BlockDevice where
  sectors := fun _ => Bytes.putAll (fun _ => 0) [(0, 4, 16), (24, 4, 2), (56, 2, 0xEF53)]
  accesses := []
  fails := fun _ => false

/-- A boot sector with zero bytes per sector. -/
def emptySectorsDisk : BlockDevice where
  sectors := fun _ => Bytes.putAll (fun _ => 0) [(22, 2, 1), (510, 2, 0xAA55)]
  accesses := []
  fails := fun _ => false

/-- Both are mounted, and then reading the root inode and printing the summary panic. -/
theorem mounted_volumes_panic : (Ext4.mount .release 0 emptyGroupsDisk).value?.isSome = true ∧
    ((Ext4.mount .release 0 >>= fun v => v.readInode .release 2) emptyGroupsDisk).faulted = true ∧
    (Fat.FatVolume.mount 0 emptySectorsDisk).value?.isSome = true ∧
    ((Fat.FatVolume.mount 0 >>= fun v => v.debugInfo .release) emptySectorsDisk).faulted
      = true := by
  decide +kernel

end NwinOs.Fs
