import NwinOs.Fs.Ext4.Equiv.Allocation
import NwinOs.Fs.Ext4.Equiv.InodeTable
import NwinOs.Fs.Ext4.Equiv.RoundTrip
import NwinOs.Fs.Equiv.Frame

/-!
# What bring-up does to an ext4 volume

Bring-up reserves an inode and a block twice, for its probe and for the demo file (`reserve`), on a
device whose accesses may fail.  `Image` is what it relies on in a volume of any block size but
1 KiB: the sectors of group 0 with different roles are different, and what the block bitmap calls
free is none of them.

`Stage` says how far the disk has changed after some reservations: their bits are set, and other
sectors are as they were unless they belong to a reserved block.  If every step of the demo file
succeeds, its record and its inode are in place (`DemoLinked`).
-/

namespace NwinOs.Fs

open Effect Ext4 Profile List Ext4Volume

/-! ### Images -/

section

variable (v : Ext4Volume) (bs : ℕ) (S : ℕ → Bytes)

/-- The first sector of the descriptor table. -/
def descriptorSector : ℕ := sectorOf v bs (Ext4Volume.bgdBlock bs)

/-- The first sector of a bitmap of group 0. -/
def bitmapSector (a : Allocator) : ℕ := sectorOf v bs (a.bitmapBlock (descriptor v bs S 0))

/-- The sector has descriptors, bits or inodes of group 0. -/
def System (s : ℕ) : Prop :=
  s = descriptorSector v bs ∨ (∃ a, s = bitmapSector v bs S a) ∨
    ∃ n, 1 ≤ n ∧ n ≤ v.superBlock.sInodesPerGroup ∧ s = slotSector v bs S n

/-- The bit is clear in the first sector of the bitmap. -/
def Free (a : Allocator) (k : ℕ) : Prop :=
  k < 4096 ∧ bitAt (S (bitmapSector v bs S a)) k = false

end

/-- A volume in a partition of `total` sectors that bring-up can work with; the first block of its
root directory and the records there. -/
structure Image (p : Profile) (v : Ext4Volume) (bs : ℕ) (S : ℕ → Bytes) (total rootBlock : ℕ)
    (records : List DirRecord) : Prop where
  blockSize_eq : v.blockSize p = some bs
  blockSize_gt : 1024 < bs
  blockSize_le : bs ≤ 2 ^ 16
  startLba_lt : v.startLba < 2 ^ 32
  -- sectors with different roles
  descriptor_ne : ∀ a, bitmapSector v bs S a ≠ descriptorSector v bs
  bitmaps_ne : bitmapSector v bs S .inode ≠ bitmapSector v bs S .block
  slot_ne : ∀ n, 1 ≤ n → n ≤ v.superBlock.sInodesPerGroup →
    slotSector v bs S n ≠ descriptorSector v bs ∧ ∀ a, slotSector v bs S n ≠ bitmapSector v bs S a
  -- the inode bitmap is padded with ones
  padding : ∀ k, v.superBlock.sInodesPerGroup ≤ k → ¬ Free v bs S .inode k
  -- the root directory
  root_le : 2 ≤ v.superBlock.sInodesPerGroup
  root_valid : ValidInode v 2
  root_marked : ¬ Free v bs S .inode 1
  root_isDirectory : (inodeAt v bs S 2).isDirectory = true
  root_size : bs ≤ (inodeAt v bs S 2).size
  root_mapped : (inodeAt v bs S 2).physicalBlock p 0 = some (some rootBlock)
  root_tiled : Tiled (runBytes S (sectorOf v bs rootBlock)) 0 bs records
  root_apart : ∀ s, InBlock v bs rootBlock s → ¬ System v bs S s
  -- what the block bitmap calls free is not in use
  free_apart : ∀ b, Free v bs S .block b → ∀ s, InBlock v bs b s →
    ¬ System v bs S s ∧ ¬ InBlock v bs rootBlock s
  -- all of this lies in the partition
  superBlock_inside : InPartition v.startLba total (v.startLba + 2)
  system_inside : ∀ s, System v bs S s → InPartition v.startLba total s
  root_inside : ∀ s, InBlock v bs rootBlock s → InPartition v.startLba total s
  free_inside : ∀ b, Free v bs S .block b → ∀ s, InBlock v bs b s →
    InPartition v.startLba total s

section

variable {p : Profile} {v : Ext4Volume} {bs total rootBlock b s n : ℕ} {S : ℕ → Bytes}
  {records : List DirRecord} {a : Allocator}

theorem system_bitmap : System v bs S (bitmapSector v bs S a) := .inr (.inl ⟨a, rfl⟩)

theorem system_slot (h1 : 1 ≤ n) (h2 : n ≤ v.superBlock.sInodesPerGroup) :
    System v bs S (slotSector v bs S n) := .inr (.inr ⟨n, h1, h2, rfl⟩)

namespace Image

variable (h : Image p v bs S total rootBlock records)
include h

theorem dvd : 512 ∣ bs :=
  Nat.dvd_trans (by decide) (dvd_of_blockSize h.blockSize_eq)

theorem sectorOf_lt (hb : b < 2 ^ 50) : sectorOf v bs b + bs / 512 < 2 ^ 64 := by
  have hstart := h.startLba_lt
  have hsize : bs / 512 ≤ 128 := by
    have := h.blockSize_le
    omega
  have hmul : b * (bs / 512) ≤ 2 ^ 50 * 128 := Nat.mul_le_mul (by omega) hsize
  unfold sectorOf
  omega

theorem blockSector_eq (hb : b < 2 ^ 50) : v.blockSector p bs b = some (sectorOf v bs b) := by
  have hlt := h.sectorOf_lt hb
  unfold sectorOf at hlt
  unfold blockSector sectorOf
  rw [mul_eq_some (by omega), Option.bind_some, add_eq_some (by omega)]

theorem bgdBlock_eq : bgdBlock bs = 1 :=
  if_neg (Nat.ne_of_gt h.blockSize_gt)

theorem descriptorSector_eq : v.blockSector p bs (bgdBlock bs) = some (descriptorSector v bs) := by
  apply h.blockSector_eq
  rw [h.bgdBlock_eq]
  decide

theorem rootSector_eq :
    v.logicalToPhysicalSector p (inodeAt v bs S 2) 0 = some (some (sectorOf v bs rootBlock)) := by
  rw [logicalToPhysicalSector, h.blockSize_eq, Option.bind_some, h.root_mapped, Option.bind_some]
  dsimp only
  rw [h.blockSector_eq (physicalBlock_lt h.root_mapped).2, Option.map_some]

omit h

/-- The sectors that the allocators use. -/
def layout (h : Image p v bs S total rootBlock records) : BitmapLayout p v S where
  blockSize := bs
  descriptor := descriptorSector v bs
  bitmap := bitmapSector v bs S
  blockSize_eq := h.blockSize_eq
  descriptor_eq := h.descriptorSector_eq
  bitmap_eq a := by
    apply h.blockSector_eq
    have hlt := @descriptor_bitmap_lt v bs S 0
    cases a with
    | inode => exact lt_of_lt_of_le hlt.2 (by decide)
    | block => exact lt_of_lt_of_le hlt.1 (by decide)
  bitmaps_ne := h.bitmaps_ne
  descriptor_ne := h.descriptor_ne

theorem inBlock_of_sectorOfBlock (h : Image p v bs S total rootBlock records) (hb : b < 2 ^ 50)
    (hs : SectorOfBlock v bs b s) : InBlock v bs b s := by
  obtain ⟨i, hi, rfl⟩ := hs
  have hlt := h.sectorOf_lt hb
  unfold InBlock
  omega

end Image

end

/-! ### Inodes of group 0 -/

section

variable {p : Profile} {v : Ext4Volume} {bs total rootBlock n : ℕ} {S : ℕ → Bytes}
  {records : List DirRecord} {d d' : BlockDevice} {inode : Ext4Inode}

namespace Image

variable (h : Image p v bs S total rootBlock records)
include h

theorem inodesPerGroup_pos : 0 < v.superBlock.sInodesPerGroup :=
  lt_of_lt_of_le (by decide) h.root_le

theorem computedSlot_eq (hn : ValidInode v n)
    {S' : ℕ → Bytes} (hdesc : S' (descriptorSector v bs) = S (descriptorSector v bs)) :
    computedSlot p v bs (fetchedDescriptor v bs S' (groupOf v n)).bgInodeTableLo n
      = some (slotSector v bs S n, slotOffset v bs S n) := by
  have hfetched : fetchedDescriptor v bs S' (groupOf v n) = descriptor v bs S (groupOf v n) := by
    have hlt := h.sectorOf_lt (show bgdBlock bs < 2 ^ 50 by rw [h.bgdBlock_eq]; decide)
    unfold fetchedDescriptor descriptor descriptorIn
    rw [Nat.mod_eq_of_lt (by omega)]
    exact congrArg (fun buffer => Ext4BlockGroupDescriptor.ofBytes buffer _) hdesc
  have htable := @descriptor_table_lt v bs S (groupOf v n)
  have hindex := indexOf_lt hn
  have hstart := h.startLba_lt
  have hbyte : (descriptor v bs S (groupOf v n)).bgInodeTableLo * bs ≤ 2 ^ 32 * 2 ^ 16 :=
    Nat.mul_le_mul (by omega) h.blockSize_le
  unfold computedSlot
  rw [hfetched, mul_eq_some (by omega), Option.bind_some, add_eq_some (by omega),
    Option.bind_some, add_eq_some (by omega)]
  rfl

theorem readInode_eq (hn : ValidInode v n)
    (hdesc : d.sectors (descriptorSector v bs) = S (descriptorSector v bs))
    (hrun : v.readInode p n d = .ok inode d') :
    inode = .ofBytes (d.sectors (slotSector v bs S n)) (slotOffset v bs S n) := by
  have hhealed := heals_readInode d inode d' hrun
  rw [readInode_run d.healed_reliable h.blockSize_eq h.descriptorSector_eq h.inodesPerGroup_pos hn,
    @computedSlot_eq _ _ _ _ _ _ _ _ h hn d.healed.sectors hdesc] at hhealed
  exact (Outcome.ok.inj hhealed).1.symm

variable (hdesc : d.sectors (descriptorSector v bs) = S (descriptorSector v bs))
include hdesc

theorem writeInode_eq (hrun : v.writeInode p n inode d = .ok () d') :
    ValidInode v n ∧ d'.sectors = storeSector d.sectors (slotSector v bs S n)
      ((d.sectors (slotSector v bs S n)).splice (slotOffset v bs S n) inode.bytes) := by
  have hhealed := heals_writeInode d () d' hrun
  obtain ⟨hn, _, _, ds, slot, _, hslot, hsectors⟩ :=
    writeInode_slot d.healed_reliable h.blockSize_eq hhealed
  rw [@computedSlot_eq _ _ _ _ _ _ _ _ h hn d.healed.sectors hdesc] at hslot
  cases hslot
  exact ⟨hn, hsectors⟩

theorem writeInode_other {r : Except FsError Unit}
    (hrun : ((v.writeInode p n inode).attempt : FsProgram _) d = .ok r d') {s : ℕ}
    (hs : s ≠ slotSector v bs S n) : d'.sectors s = d.sectors s := by
  rcases attempt_ok hrun with ⟨_, hok, _⟩ | ⟨e, herr, _⟩
  · rw [(h.writeInode_eq hdesc hok).2]
    exact storeSector_of_ne hs
  · rw [writeInode_err herr]

variable {node : Ext4Node}

/-- The root node: of the root inode, or of a zeroed one if the inode could not be read. -/
theorem newRoot_eq (hslot : d.sectors (slotSector v bs S 2) = S (slotSector v bs S 2))
    (hrun : Ext4Node.newRoot p v d = .ok node d') :
    node = .ofInode v 2 (inodeAt v bs S 2) ∨ node = .ofInode v 2 .zeroed := by
  obtain ⟨r, d₁, hattempt, hrest⟩ := bind_ok hrun
  rcases attempt_ok hattempt with ⟨inode, hok, rfl⟩ | ⟨e, _, rfl⟩
  · cases hrest
    rw [h.readInode_eq h.root_valid hdesc hok, hslot]
    exact .inl rfl
  · cases hrest
    exact .inr rfl

end Image

end

/-! ### Reservations -/

/-- The inode and the block that a caller of the two allocators got. -/
structure Reservation where
  inode : Option ℕ
  block : Option ℕ
  deriving DecidableEq, Repr

namespace Reservation

variable (r : Reservation)

/-- What an allocator gave. -/
def get : Allocator → Option ℕ
  | .inode => r.inode
  | .block => r.block

def set (a : Allocator) (n : ℕ) : Reservation :=
  match a with
  | .inode => { r with inode := some n }
  | .block => { r with block := some n }

theorem get_set_self (a : Allocator) (n : ℕ) : (r.set a n).get a = some n := by
  cases a <;> rfl

theorem get_set_of_ne {a a' : Allocator} (h : a' ≠ a) (n : ℕ) : (r.set a n).get a' = r.get a' := by
  cases a <;> cases a' <;> first | rfl | exact absurd rfl h

end Reservation

/-- Reserves an inode and then a block, as the probe and the demo file do. -/
def reserve (p : Profile) (v : Ext4Volume) : FsProgram Reservation := do
  match ← (v.allocateInode p).attempt with
  | .error (_ : FsError) => pure ⟨none, none⟩
  | .ok inode =>
    match ← (v.allocateBlock p).attempt with
    | .error (_ : FsError) => pure ⟨some inode, none⟩
    | .ok block => pure ⟨some inode, some block⟩

/-- The bits of the reservations are set, and they were clear. -/
structure Marks (v : Ext4Volume) (bs : ℕ) (S S' : ℕ → Bytes) (rs : List Reservation) : Prop where
  bits : ∀ a k, bitAt (S' (bitmapSector v bs S a)) k = true ↔
    bitAt (S (bitmapSector v bs S a)) k = true ∨ ∃ r ∈ rs, r.get a = some (k + a.first)
  free : ∀ r ∈ rs, ∀ a n, r.get a = some n → ∃ k, n = k + a.first ∧ Free v bs S a k

/-- The disk after some reservations: it had the contents `S₀`, which are those of the image `S` as
far as the volume goes, and has the contents `S'` now. -/
structure Stage (v : Ext4Volume) (bs : ℕ) (S S₀ S' : ℕ → Bytes) (rs : List Reservation) : Prop
    extends Marks v bs S S' rs where
  other : ∀ s, (∀ a, s ≠ bitmapSector v bs S a) →
    (∀ r ∈ rs, ∀ b, r.block = some b → ¬ InBlock v bs b s) → S' s = S₀ s

section

variable {p : Profile} {v : Ext4Volume} {bs total rootBlock n : ℕ} {S S₀ S' S'' : ℕ → Bytes}
  {records : List DirRecord} {d d' : BlockDevice} {r : Reservation} {rs : List Reservation}
  {a : Allocator}

theorem Stage.refl (h : ∀ a, S₀ (bitmapSector v bs S a) = S (bitmapSector v bs S a)) :
    Stage v bs S S₀ S₀ [] where
  bits a k := by
    rw [h a]
    simp
  free := by simp
  other _ _ _ := rfl

theorem Stage.cons_none (h : Stage v bs S S₀ S' rs) : Stage v bs S S₀ S' (⟨none, none⟩ :: rs) where
  bits a k := by
    rw [h.bits]
    cases a <;> simp [Reservation.get]
  free r hr a n hn := by
    rcases mem_cons.mp hr with rfl | hr
    · cases a <;> cases hn
    · exact h.free r hr a n hn
  other s hs hb := h.other s hs fun r hr => hb r (mem_cons_of_mem _ hr)

theorem Stage.allocate (h : Stage v bs S S₀ S' (r :: rs))
    (hne : bitmapSector v bs S .inode ≠ bitmapSector v bs S .block) (hr : r.get a = none) {bit : ℕ}
    (hlow : LowestClear (S' (bitmapSector v bs S a)) bit)
    (hset : SetsBit S' S'' (bitmapSector v bs S a) bit) :
    Stage v bs S S₀ S'' (r.set a (bit + a.first) :: rs) where
  bits a' k := by
    by_cases ha : a' = a
    · subst ha
      have hbit : bitAt (S'' (bitmapSector v bs S a')) k = true ↔
          bitAt (S' (bitmapSector v bs S a')) k = true ∨ k = bit := by
        have hk : k / 8 * 8 + k % 8 = k := by omega
        rw [bitAt, hset.bits _ _ (Nat.mod_lt k (by decide)), ← bitAt, hk, Bool.or_eq_true,
          decide_eq_true_iff]
      rw [hbit, h.bits]
      simp only [mem_cons, exists_eq_or_imp, hr, Reservation.get_set_self, Option.some.injEq,
        Nat.add_right_cancel_iff, reduceCtorEq, false_or]
      rw [or_assoc, @eq_comm _ k bit]
      exact or_congr_right or_comm
    · have hsector : bitmapSector v bs S a' ≠ bitmapSector v bs S a := by
        cases a <;> cases a' <;> first | exact absurd rfl ha | exact hne | exact hne.symm
      rw [hset.other _ hsector, h.bits]
      simp only [mem_cons, exists_eq_or_imp, Reservation.get_set_of_ne r ha]
  free r' hr' a' n hn := by
    rcases mem_cons.mp hr' with rfl | hr'
    · by_cases ha : a' = a
      · subst ha
        rw [Reservation.get_set_self] at hn
        cases hn
        refine ⟨bit, rfl, hlow.lt, ?_⟩
        by_contra hset'
        have hafter := (h.bits a' bit).mpr (.inl (Bool.eq_true_of_not_eq_false hset'))
        rw [hlow.clear] at hafter
        cases hafter
      · rw [Reservation.get_set_of_ne r ha] at hn
        exact h.free r mem_cons_self a' n hn
    · exact h.free r' (mem_cons_of_mem _ hr') a' n hn
  other s hs hb := by
    rw [hset.other s (hs a)]
    refine h.other s hs fun r' hr' b hblock => ?_
    rcases mem_cons.mp hr' with rfl | hr'
    · cases a with
      | inode => exact hb _ mem_cons_self b hblock
      | block => exact absurd (hblock.symm.trans hr) (by simp)
    · exact hb r' (mem_cons_of_mem _ hr') b hblock

namespace Stage

theorem eq_of_inside (h : Stage v bs S S₀ S' rs)
    (hinside : ∀ s, InPartition v.startLba total s → S₀ s = S s) {s : ℕ}
    (hs : InPartition v.startLba total s) (hbitmap : ∀ a, s ≠ bitmapSector v bs S a)
    (hfree : ∀ b, Free v bs S .block b → ¬ InBlock v bs b s) : S' s = S s := by
  rw [h.other s hbitmap, hinside s hs]
  intro r hr b hb
  obtain ⟨k, rfl, hk⟩ := h.free r hr .block b hb
  exact hfree _ hk

variable (him : Image p v bs S total rootBlock records)
  (hinside : ∀ s, InPartition v.startLba total s → S₀ s = S s)

include him hinside

section

variable (h : Stage v bs S S₀ S' rs)
include h

theorem descriptorSector_eq : S' (descriptorSector v bs) = S (descriptorSector v bs) :=
  h.eq_of_inside hinside (him.system_inside _ (.inl rfl))
    (fun a ha => him.descriptor_ne a ha.symm) fun b hb hs => (him.free_apart b hb _ hs).1 (.inl rfl)

theorem slotSector_eq (h1 : 1 ≤ n) (h2 : n ≤ v.superBlock.sInodesPerGroup) :
    S' (slotSector v bs S n) = S (slotSector v bs S n) :=
  h.eq_of_inside hinside (him.system_inside _ (system_slot h1 h2)) (him.slot_ne n h1 h2).2
    fun b hb hs => (him.free_apart b hb _ hs).1 (system_slot h1 h2)

theorem rootBlock_eq {s : ℕ} (hs : InBlock v bs rootBlock s) : S' s = S s :=
  h.eq_of_inside hinside (him.root_inside s hs)
    (fun _ ha => him.root_apart s hs (ha ▸ system_bitmap))
    fun b hb hs' => (him.free_apart b hb s hs').2 hs

/-- The sectors that the allocators use. -/
def layout : BitmapLayout p v S' :=
  him.layout.congr (h.descriptorSector_eq him hinside)

end

end Stage

end

/-! ### The steps of bring-up -/

theorem debugInfo_eq (p : Profile) (v : Ext4Volume) : v.debugInfo p = (do
    let _ ← Program.ofOption (v.blockSize p)
    let probe ← reserve p v
    match probe.block with
    | none => pure ()
    | some block => do
      let _ : Except FsError Unit ← (v.writeDataToBlock p block probeText).attempt
      pure ()) := by
  unfold debugInfo reserve
  refine congrArg _ (funext fun _ => ?_)
  rw [bind_assoc]
  refine congrArg _ (funext fun inode => ?_)
  cases inode with
  | error e => rfl
  | ok inode =>
    dsimp only
    rw [bind_assoc]
    refine congrArg _ (funext fun block => ?_)
    cases block with
    | error e => rfl
    | ok block => rfl

/-- The steps on the demo file after its inode and its block were reserved. -/
def writeDemoFile (p : Profile) (v : Ext4Volume) (rootNode : Ext4Node) (inode block : ℕ) :
    FsProgram Unit := do
  let _ : Except FsError Unit ← (v.writeDataToBlock p block demoText).attempt
  let _ : Except FsError Unit ←
    (v.writeInode p inode (buildFileInode demoText.length block)).attempt
  let _ : Except FsError Unit ← (rootNode.addEntry p demoName inode).attempt
  match ← rootNode.lookup p demoName with
  | none => pure ()
  | some fileNode => do
    let _ ← fileNode.read p 0 fileNode.getSize
    pure ()

theorem createDemoFile_eq (p : Profile) (v : Ext4Volume) : createDemoFile p v = (do
    let rootNode ← Ext4Node.newRoot p v
    let demo ← reserve p v
    match demo with
    | ⟨some inode, some block⟩ => writeDemoFile p v rootNode inode block
    | _ => pure ()) := by
  unfold createDemoFile reserve
  refine congrArg _ (funext fun rootNode => ?_)
  rw [bind_assoc]
  refine congrArg _ (funext fun inode => ?_)
  cases inode with
  | error e => rfl
  | ok inode =>
    dsimp only
    rw [bind_assoc]
    refine congrArg _ (funext fun block => ?_)
    cases block with
    | error e => rfl
    | ok block => rfl

section

variable {p : Profile} {v : Ext4Volume} {bs total rootBlock : ℕ} {S S₀ S' S'' : ℕ → Bytes}
  {records : List DirRecord} {d d' : BlockDevice} {r : Reservation} {rs : List Reservation}
  {a : Allocator} (him : Image p v bs S total rootBlock records)
  (hinside : ∀ s, InPartition v.startLba total s → S₀ s = S s)

/-- Writing to a reserved block. -/
theorem Stage.write (him : Image p v bs S total rootBlock records) (h : Stage v bs S S₀ S' rs)
    (hr : r ∈ rs) {b : ℕ} (hb : r.block = some b)
    (hkeep : ∀ s, ¬ InBlock v bs b s → S'' s = S' s) : Stage v bs S S₀ S'' rs where
  bits a k := by
    obtain ⟨k', rfl, hfree⟩ := h.free r hr .block b hb
    rw [hkeep _ fun hs => (him.free_apart _ hfree _ hs).1 system_bitmap]
    exact h.bits a k
  free := h.free
  other s hs hblocks := by
    rw [hkeep s (hblocks r hr b hb)]
    exact h.other s hs hblocks

theorem Image.keeps_writeDataToBlock (him : Image p v bs S total rootBlock records) {b s : ℕ}
    {data : List Byte} (hb : b < 4096) (hs : ¬ InBlock v bs b s) :
    Keeps s (v.writeDataToBlock p b data) := fun _ =>
  writeDataToBlock_of_not_sectorOfBlock him.blockSize_eq fun hs' =>
    hs (him.inBlock_of_sectorOfBlock (by omega) hs')

include him hinside

/-- A call of an allocator. -/
theorem Stage.exec (h : Stage v bs S S₀ d.sectors (r :: rs)) (hr : r.get a = none)
    {result : Except FsError ℕ}
    (hrun : ((a.exec p v).attempt : FsProgram _) d = .ok result d') :
    (∃ n, result = .ok n ∧ Stage v bs S S₀ d'.sectors (r.set a n :: rs)) ∨
      (∃ e, result = .error e) ∧ Stage v bs S S₀ d'.sectors (r :: rs) := by
  have hcall := (h.layout him hinside).allocates a
  rcases attempt_ok hrun with ⟨n, hok, rfl⟩ | ⟨e, herr, rfl⟩
  · obtain ⟨bit, rfl, hlow, hset⟩ := hcall.ok n d' hok
    exact .inl ⟨_, rfl, h.allocate him.bitmaps_ne hr hlow hset⟩
  · refine .inr ⟨⟨e, rfl⟩, ?_⟩
    rw [hcall.err e d' herr]
    exact h

theorem Stage.reserve (h : Stage v bs S S₀ d.sectors rs) (hrun : reserve p v d = .ok r d') :
    Stage v bs S S₀ d'.sectors (r :: rs) := by
  obtain ⟨inode, d₁, hinode, hafterInode⟩ := bind_ok hrun
  have hstep := h.cons_none.exec him hinside (a := .inode) rfl hinode
  rcases hstep with ⟨n, rfl, h₁⟩ | ⟨⟨e, rfl⟩, h₁⟩
  · obtain ⟨block, d₂, hblock, hafterBlock⟩ := bind_ok hafterInode
    have hstep := h₁.exec him hinside (a := .block) rfl hblock
    rcases hstep with ⟨b, rfl, h₂⟩ | ⟨⟨e, rfl⟩, h₂⟩
    · cases hafterBlock
      exact h₂
    · cases hafterBlock
      exact h₂
  · cases hafterInode
    exact h₁

/-- **After the probe**: its inode and its block are reserved. -/
theorem Stage.debugInfo (h : Stage v bs S S₀ d.sectors []) (hrun : v.debugInfo p d = .ok () d') :
    ∃ probe, (Fs.reserve p v d).value? = some probe ∧ Stage v bs S S₀ d'.sectors [probe] := by
  rw [debugInfo_eq] at hrun
  obtain ⟨_, d₀, hsize, hafterSize⟩ := bind_ok hrun
  obtain ⟨_, rfl⟩ := ofOption_ok hsize
  obtain ⟨probe, d₁, hprobe, hafterProbe⟩ := bind_ok hafterSize
  have h₁ := h.reserve him hinside hprobe
  refine ⟨probe, by rw [hprobe]; rfl, ?_⟩
  cases hblock : probe.block with
  | none =>
    rw [hblock] at hafterProbe
    cases hafterProbe
    exact h₁
  | some b =>
    rw [hblock] at hafterProbe
    obtain ⟨_, d₂, hwrite, hend⟩ := bind_ok hafterProbe
    cases hend
    obtain ⟨k, rfl, hfree⟩ := h₁.free probe mem_cons_self .block b hblock
    exact h₁.write him mem_cons_self hblock fun s hs =>
      (him.keeps_writeDataToBlock hfree.1 hs).attempt.of_ok hwrite

omit hinside in
theorem Image.keeps_addEntry {node : Ext4Node} {name : String} {n s : ℕ}
    (hnode : node = .ofInode v 2 (inodeAt v bs S 2) ∨ node = .ofInode v 2 .zeroed)
    (hs : ¬ InBlock v bs rootBlock s) : Keeps s (node.addEntry p name n) := by
  rcases hnode with rfl | rfl
  · have hlt := (physicalBlock_lt him.root_mapped).2
    refine Ext4.keeps_addEntry him.blockSize_eq (him.rootSector_eq) fun k hk hadd => hs ?_
    have hbound := him.sectorOf_lt hlt
    have heq := eq_of_add hadd
    unfold InBlock
    omega
  · -- a zeroed inode is no directory
    intro d
    rfl

theorem Stage.writeDemoFile {n b : ℕ} (h : Stage v bs S S₀ d.sectors (⟨some n, some b⟩ :: rs))
    (hnode : node = .ofInode v 2 (inodeAt v bs S 2) ∨ node = .ofInode v 2 .zeroed)
    (hrun : Fs.writeDemoFile p v node n b d = .ok () d') :
    ∃ S₁, Stage v bs S S₀ S₁ (⟨some n, some b⟩ :: rs) ∧
      ∀ s, s ≠ slotSector v bs S n → ¬ InBlock v bs rootBlock s → d'.sectors s = S₁ s := by
  obtain ⟨_, d₁, hdata, hafterData⟩ := bind_ok hrun
  obtain ⟨_, d₂, hinode, hafterInode⟩ := bind_ok hafterData
  obtain ⟨_, d₃, hentry, hafterEntry⟩ := bind_ok hafterInode
  obtain ⟨k, rfl, hfree⟩ := h.free _ mem_cons_self .block b rfl
  have h₁ : Stage v bs S S₀ d₁.sectors (⟨some n, some b⟩ :: rs) :=
    h.write him mem_cons_self rfl fun s hs =>
      (him.keeps_writeDataToBlock hfree.1 hs).attempt.of_ok hdata
  refine ⟨d₁.sectors, h₁, fun s hslot hroot => ?_⟩
  -- the read-back only reads
  have hend : d'.sectors s = d₃.sectors s := by
    refine Keeps.of_ok (.bind keeps_lookup fun found => ?_) hafterEntry
    cases found with
    | none => exact .pure
    | some file => exact .bind keeps_read fun _ => .pure
  rw [hend, (him.keeps_addEntry hnode hroot).attempt.of_ok hentry,
    him.writeInode_other (h₁.descriptorSector_eq him hinside) hinode hslot]

/-- The root node, read at some stage. -/
theorem Stage.newRoot (h : Stage v bs S S₀ d.sectors rs)
    (hrun : Ext4Node.newRoot p v d = .ok node d') :
    Stage v bs S S₀ d'.sectors rs ∧
      (node = .ofInode v 2 (inodeAt v bs S 2) ∨ node = .ofInode v 2 .zeroed) := by
  have hsame : d'.sectors = d.sectors := funext fun s => keeps_newRoot.of_ok hrun
  rw [hsame]
  exact ⟨h, him.newRoot_eq (h.descriptorSector_eq him hinside)
    (h.slotSector_eq him hinside (by decide) him.root_le) hrun⟩

/-- **After the demo file**: whatever else failed, its reservation is the only one that was added.
-/
theorem Stage.createDemoFile (h : Stage v bs S S₀ d.sectors rs)
    (hrun : createDemoFile p v d = .ok () d') :
    ∃ demo, ((do let _ ← Ext4Node.newRoot p v; Fs.reserve p v) d).value? = some demo ∧
      ∃ S₁, Stage v bs S S₀ S₁ (demo :: rs) ∧
        ∀ s, (∀ n, demo.inode = some n → s ≠ slotSector v bs S n) → ¬ InBlock v bs rootBlock s →
          d'.sectors s = S₁ s := by
  rw [createDemoFile_eq] at hrun
  obtain ⟨node, d₁, hroot, hafterRoot⟩ := bind_ok hrun
  obtain ⟨demo, d₂, hdemo, hafterDemo⟩ := bind_ok hafterRoot
  obtain ⟨h₁, hnode⟩ := h.newRoot him hinside hroot
  have h₂ := h₁.reserve him hinside hdemo
  refine ⟨demo, by rw [bind_of_ok hroot, hdemo]; rfl, ?_⟩
  obtain ⟨inode, block⟩ := demo
  cases inode with
  | none =>
    cases hafterDemo
    exact ⟨d'.sectors, h₂, fun _ _ _ => rfl⟩
  | some n =>
    cases block with
    | none =>
      cases hafterDemo
      exact ⟨d'.sectors, h₂, fun _ _ _ => rfl⟩
    | some b =>
      obtain ⟨S₁, hstage, hother⟩ := h₂.writeDemoFile him hinside hnode hafterDemo
      exact ⟨S₁, hstage, fun s hslot hblock => hother s (hslot n rfl) hblock⟩

end

/-! ### The demo file is linked if its steps succeed -/

/-- A record of the root directory names the inode. -/
def Linked (p : Profile) (v : Ext4Volume) (bs : ℕ) (S : ℕ → Bytes) (n : ℕ) : Prop :=
  ∃ l b recs, l * bs < (inodeAt v bs S 2).size ∧
    (inodeAt v bs S 2).physicalBlock p l = some (some b) ∧
    Tiled (runBytes S (sectorOf v bs b)) 0 bs recs ∧ ∃ r ∈ recs, r.inode = n

/-- The extents of the inode map some logical block to the block. -/
def References (p : Profile) (v : Ext4Volume) (bs : ℕ) (S : ℕ → Bytes) (n b : ℕ) : Prop :=
  ∃ l, (inodeAt v bs S n).physicalBlock p l = some (some b)

/-- The steps of creating the demo file, up to the first whose error is not ignored. -/
def demoSteps (p : Profile) (v : Ext4Volume) : FsProgram (ℕ × ℕ) := do
  let rootNode ← Ext4Node.newRoot p v
  let inode ← v.allocateInode p
  let block ← v.allocateBlock p
  let _ : Except FsError Unit ← (v.writeDataToBlock p block demoText).attempt
  v.writeInode p inode (buildFileInode demoText.length block)
  rootNode.addEntry p demoName inode
  pure (inode, block)

/-- The record and the inode of the demo file are in place. -/
structure DemoLinked (v : Ext4Volume) (bs : ℕ) (S S' : ℕ → Bytes) (rootBlock : ℕ)
    (records : List DirRecord) (n b : ℕ) : Prop where
  inode_pos : 1 ≤ n
  inode_le : n ≤ v.superBlock.sInodesPerGroup
  block_lt : b < 4096
  descriptor : S' (descriptorSector v bs) = S (descriptorSector v bs)
  inode : inodeAt v bs S' n = buildFileInode demoText.length b
  root : inodeAt v bs S' 2 = inodeAt v bs S 2
  records : Tiled (runBytes S' (sectorOf v bs rootBlock)) 0 bs
    (records ++ [⟨n, nameBytes demoName⟩])

section

variable {p : Profile} {v : Ext4Volume} {bs total rootBlock n m b : ℕ} {S S₀ S' S'' : ℕ → Bytes}
  {records : List DirRecord} {d d' : BlockDevice} {rs : List Reservation} {node : Ext4Node}

theorem descriptor_congr (h : S' (descriptorSector v bs) = S (descriptorSector v bs)) :
    descriptor v bs S' = descriptor v bs S := by
  ext1 g
  exact congrArg (fun buffer => Ext4BlockGroupDescriptor.ofBytes buffer _) h

theorem slotOffset_ne_of_group (hn : 1 ≤ n ∧ n ≤ v.superBlock.sInodesPerGroup)
    (hm : 1 ≤ m ∧ m ≤ v.superBlock.sInodesPerGroup) (hne : m ≠ n)
    (hs : slotSector v bs S m = slotSector v bs S n) :
    slotOffset v bs S m ≠ slotOffset v bs S n := by
  have hzero : ∀ k, 1 ≤ k → k ≤ v.superBlock.sInodesPerGroup →
      groupOf v k = 0 ∧ indexOf v k = k - 1 := fun k h1 h2 =>
    ⟨Nat.div_eq_of_lt (by omega), Nat.mod_eq_of_lt (by omega)⟩
  obtain ⟨hgn, hin⟩ := hzero n hn.1 hn.2
  obtain ⟨hgm, hid⟩ := hzero m hm.1 hm.2
  unfold slotSector slotByte inodeByte at hs
  unfold slotOffset slotByte inodeByte
  rw [hgn, hgm, hin, hid] at hs
  rw [hgn, hgm, hin, hid]
  omega

namespace Image

variable (him : Image p v bs S total rootBlock records)

include him

theorem inode_of_free {k : ℕ} (hk : Free v bs S .inode k) :
    k + 1 ≤ v.superBlock.sInodesPerGroup ∧ k + 1 ≠ 2 := by
  refine ⟨?_, ?_⟩
  · by_contra hgt
    exact him.padding k (by omega) hk
  · intro h2
    obtain rfl : k = 1 := by omega
    exact him.root_marked hk

theorem addEntry_eq (hroot : ∀ s, InBlock v bs rootBlock s → d.sectors s = S s) (hn : n < 2 ^ 32)
    (hnode : node = .ofInode v 2 (inodeAt v bs S 2) ∨ node = .ofInode v 2 .zeroed)
    (hrun : node.addEntry p demoName n d = .ok () d') :
    ∃ updated, Tiled updated 0 bs (records ++ [⟨n, nameBytes demoName⟩]) ∧
      d'.sectors = storeSectors d.sectors (sectorOf v bs rootBlock) (bs / 512) updated := by
  have hhealed := heals_addEntry d () d' hrun
  have hmul : bs / 512 * 512 = bs := Nat.div_mul_cancel him.dvd
  have hpos : 0 < bs := lt_trans (by decide) him.blockSize_gt
  rcases hnode with rfl | rfl
  · have htiled : Tiled (runBytes d.healed.sectors (sectorOf v bs rootBlock)) 0 bs records := by
      refine him.root_tiled.congr fun i _ hi => ?_
      exact congrFun (hroot _ ⟨Nat.le_add_right .., by omega⟩) _
    have hname : (nameBytes demoName).length < 256 := by decide +kernel
    have hsector := him.rootSector_eq
    have hdir : (Ext4Node.ofInode v 2 (inodeAt v bs S 2)).isDirectory = true := him.root_isDirectory
    have hbound := him.sectorOf_lt (physicalBlock_lt him.root_mapped).2
    have hfirst : FirstBlock p (Ext4Node.ofInode v 2 (inodeAt v bs S 2)) bs
        (sectorOf v bs rootBlock) := ⟨hdir, him.blockSize_eq, hsector, hbound⟩
    have hwp : wp ((Ext4Node.ofInode v 2 (inodeAt v bs S 2)).addEntry p demoName n)
        (fun _ d' => ∃ updated, Tiled updated 0 bs (records ++ [⟨n, nameBytes demoName⟩]) ∧
          d'.sectors
            = storeSectors d.healed.sectors (sectorOf v bs rootBlock) (bs / 512) updated)
        (fun _ _ => True) (fun _ => True) d.healed :=
      hfirst.wp_addEntry hpos htiled hname hn
        d.healed_reliable (fun updated d' _ hup hs => ⟨updated, hup, hs⟩) fun _ _ _ => trivial
    obtain ⟨updated, hup, hsectors⟩ := (wp_of_ok hwp hhealed :)
    exact ⟨updated, hup, hsectors⟩
  · cases hrun

end Image

theorem reserve_of_ok {d₁ d₂ : BlockDevice} (hinode : v.allocateInode p d = .ok n d₁)
    (hblock : v.allocateBlock p d₁ = .ok b d₂) : reserve p v d = .ok ⟨some n, some b⟩ d₂ :=
  (bind_of_ok (attempt_of_ok hinode)).trans (bind_of_ok (attempt_of_ok hblock))

/-- **If no step fails, the demo file is linked.** -/
theorem Stage.demoLinked (him : Image p v bs S total rootBlock records)
    (hinside : ∀ s, InPartition v.startLba total s → S₀ s = S s)
    (h : Stage v bs S S₀ d.sectors rs) (hrun : demoSteps p v d = .ok (n, b) d') :
    DemoLinked v bs S d'.sectors rootBlock records n b := by
  obtain ⟨node, d₀, hroot, hafterRoot⟩ := bind_ok hrun
  obtain ⟨n', d₁, hinode, hafterInode⟩ := bind_ok hafterRoot
  obtain ⟨b', d₂, hblock, hafterBlock⟩ := bind_ok hafterInode
  obtain ⟨_, d₃, hdata, hafterData⟩ := bind_ok hafterBlock
  obtain ⟨_, d₄, hwrite, hafterWrite⟩ := bind_ok hafterData
  obtain ⟨_, d₅, hentry, hend⟩ := bind_ok hafterWrite
  cases hend
  -- the reservation
  obtain ⟨h₀, hnode⟩ := h.newRoot him hinside hroot
  have h₂ := h₀.reserve him hinside (reserve_of_ok hinode hblock)
  obtain ⟨k, hnk, hk⟩ := h₂.free _ mem_cons_self .inode n rfl
  obtain ⟨_, rfl, hb⟩ := h₂.free _ mem_cons_self .block b rfl
  change n = k + 1 at hnk
  have hgroup := him.inode_of_free hk
  rw [← hnk] at hgroup
  obtain ⟨hle, hne⟩ := hgroup
  have hpos : 1 ≤ n := by omega
  -- the block and the inode
  have h₃ : Stage v bs S S₀ d₃.sectors _ := h₂.write him mem_cons_self rfl fun s hs =>
    (him.keeps_writeDataToBlock hb.1 hs).attempt.of_ok hdata
  have hdesc₃ := h₃.descriptorSector_eq him hinside
  obtain ⟨hvalid, hs₄⟩ := him.writeInode_eq hdesc₃ hwrite
  obtain ⟨hsector, hoffset⟩ := @slotSector_congr v bs n _ _ (descriptor_congr hdesc₃)
  have hput : d₄.sectors
      = putInode v bs d₃.sectors n (buildFileInode demoText.length b) := by
    rw [hs₄, putInode, hsector, hoffset]
  have hslot : System v bs S (slotSector v bs S n) := system_slot hpos hle
  have hdesc₄ : d₄.sectors (descriptorSector v bs) = d₃.sectors (descriptorSector v bs) := by
    rw [hs₄]
    exact storeSector_of_ne (him.slot_ne _ hpos hle).1.symm
  -- the record
  have hroot₄ : ∀ s, InBlock v bs rootBlock s → d₄.sectors s = S s := by
    intro s hs
    have hne' : s ≠ slotSector v bs S n := by
      rintro rfl
      exact him.root_apart _ hs hslot
    rw [hs₄, storeSector_of_ne hne']
    exact h₃.rootBlock_eq him hinside hs
  have hlt : n < 2 ^ 32 := lt_of_le_of_lt hvalid.2 v.superBlock.inodesCount_lt
  obtain ⟨updated, htiled, hs₅⟩ := him.addEntry_eq hroot₄ hlt hnode hentry
  have hkept : ∀ s, System v bs S s → d'.sectors s = d₄.sectors s := by
    intro s hs
    rw [hs₅]
    apply storeSectors_of_outside
    by_contra hin
    exact him.root_apart s ⟨by omega, by omega⟩ hs
  have hdesc : descriptor v bs d'.sectors = descriptor v bs d₄.sectors :=
    descriptor_congr (hkept _ (.inl rfl))
  have hdesc' : descriptor v bs d₄.sectors = descriptor v bs d₃.sectors := descriptor_congr hdesc₄
  have hinodes : ∀ m, 1 ≤ m → m ≤ v.superBlock.sInodesPerGroup →
      inodeAt v bs d'.sectors m = inodeAt v bs d₄.sectors m := by
    intro m h1 h2
    apply inodeAt_congr hdesc
    rw [(@slotSector_congr v bs m _ _ (hdesc'.trans (descriptor_congr hdesc₃))).1]
    exact hkept _ (system_slot h1 h2)
  refine ⟨hpos, hle, hb.1, ?_, ?_, ?_, ?_⟩
  · rw [hkept _ (.inl rfl), hdesc₄, hdesc₃]
  · rw [hinodes _ hpos hle, hput]
    exact inodeAt_putInode_self him.dvd (hput ▸ hdesc')
  · rw [hinodes 2 (by decide) him.root_le, hput,
      inodeAt_putInode_of_slot_ne him.dvd (hput ▸ hdesc') fun hs => ?_]
    · apply inodeAt_congr (descriptor_congr hdesc₃)
      exact h₃.slotSector_eq him hinside (by decide) him.root_le
    · rw [hsector, (@slotSector_congr v bs 2 _ _ (descriptor_congr hdesc₃)).1] at hs
      rw [hoffset, (@slotSector_congr v bs 2 _ _ (descriptor_congr hdesc₃)).2]
      exact slotOffset_ne_of_group ⟨hpos, hle⟩ ⟨by decide, him.root_le⟩ (Ne.symm hne) hs
  · have hmul : bs / 512 * 512 = bs := Nat.div_mul_cancel him.dvd
    refine htiled.congr fun i _ hi => ?_
    rw [hs₅, runBytes_storeSectors (by omega)]

end

end NwinOs.Fs
