import NwinOs.Fs.Ext4.Equiv.Directory
import NwinOs.Fs.Str

/-!
# Creating a file and reading it back

`WellFormed` says what the driver relies on in a volume: its metadata blocks are disjoint, what is
in use is marked in the two bitmaps of group 0, and the root directory is a sequence of records in
mapped blocks.

The five steps of creating a file change one block each (`Touches`).  `Created` collects what they
leave behind: the new inode and its block, one more record in the root, every other inode, file and
record as before.  The main result reads the round trip off `Created`.
-/

namespace NwinOs.Fs.Ext4

open Effect List Nat

/-! ### Well-formed volumes -/

section

variable (v : Ext4Volume) (bs : ℕ) (sectors : ℕ → Bytes)

/-- The block that holds the block bitmap of group 0. -/
def blockBitmap : ℕ := (descriptor v bs sectors 0).bgBlockBitmapLo

/-- The block that holds the inode bitmap of group 0. -/
def inodeBitmap : ℕ := (descriptor v bs sectors 0).bgInodeBitmapLo

/-- The block belongs to the inode table of the group; inodes take 256 bytes. -/
def InTable (g b : ℕ) : Prop :=
  (descriptor v bs sectors g).bgInodeTableLo ≤ b ∧
    b < (descriptor v bs sectors g).bgInodeTableLo
      + (v.superBlock.sInodesPerGroup * 256 + bs - 1) / bs

/-- The blocks of super-block, descriptor table, bitmaps and inode tables. -/
def Metadata (b : ℕ) : Prop :=
  b ≤ 1 ∨ b = blockBitmap v bs sectors ∨ b = inodeBitmap v bs sectors ∨
    ∃ g, HasGroup v g ∧ InTable v bs sectors g b

/-- The block is used according to the block bitmap; its first sector has a bit for each of the
first 4096 blocks. -/
def Marked (b : ℕ) : Prop :=
  b < 4096 → bitAt (sectors (sectorOf v bs (blockBitmap v bs sectors))) b = true

/-- The inode is used according to the inode bitmap, which speaks of the inodes of group 0. -/
def MarkedInode (n : ℕ) : Prop :=
  n ≤ v.superBlock.sInodesPerGroup → n ≤ 4096 →
    bitAt (sectors (sectorOf v bs (inodeBitmap v bs sectors))) (n - 1) = true

end

/-- How the root directory is laid out: the number of its blocks, where they are, and the records in
each. -/
structure RootLayout where
  blocks : ℕ
  block : ℕ → ℕ
  records : ℕ → List DirRecord

/-- All records of the root directory. -/
def RootLayout.entries (root : RootLayout) : List DirRecord :=
  (List.range root.blocks).flatMap root.records

/-- A volume that the driver can work with. -/
structure WellFormed (p : Profile) (v : Ext4Volume) (bs : ℕ) (sectors : ℕ → Bytes)
    (root : RootLayout) : Prop where
  geometry : Geometry v bs
  inodesPerGroup_pos : 0 < v.superBlock.sInodesPerGroup
  -- the descriptors fit the sector that is read
  groups_le : v.superBlock.sInodesCount ≤ 16 * v.superBlock.sInodesPerGroup
  -- descriptor table, bitmaps and inode tables are pairwise disjoint, and marked
  blockBitmap_gt : 1 < blockBitmap v bs sectors
  inodeBitmap_gt : 1 < inodeBitmap v bs sectors
  bitmaps_ne : blockBitmap v bs sectors ≠ inodeBitmap v bs sectors
  table_disjoint : ∀ g b, HasGroup v g → InTable v bs sectors g b →
    1 < b ∧ b ≠ blockBitmap v bs sectors ∧ b ≠ inodeBitmap v bs sectors
  tables_disjoint : ∀ g g' b, HasGroup v g → HasGroup v g' → InTable v bs sectors g b →
    InTable v bs sectors g' b → g = g'
  metadata_marked : ∀ b, Metadata v bs sectors b → Marked v bs sectors b
  -- the inode bitmap is padded with ones
  padding : ∀ i, v.superBlock.sInodesPerGroup ≤ i → i < 4096 →
    bitAt (sectors (sectorOf v bs (inodeBitmap v bs sectors))) i = true
  -- the root directory
  root_valid : ValidInode v 2
  root_marked : MarkedInode v bs sectors 2
  root_isDirectory : (inodeAt v bs sectors 2).isDirectory = true
  blocks_pos : 0 < root.blocks
  root_size : (inodeAt v bs sectors 2).size = root.blocks * bs
  root_mapped : ∀ l, l < root.blocks →
    (inodeAt v bs sectors 2).physicalBlock p l = some (some (root.block l))
  root_block : ∀ l, l < root.blocks →
    Marked v bs sectors (root.block l) ∧ ¬ Metadata v bs sectors (root.block l)
  root_block_ne : ∀ l, 0 < l → l < root.blocks → root.block l ≠ root.block 0
  root_tiled : ∀ l, l < root.blocks →
    Tiled (fileByte v bs sectors root.block) (l * bs) ((l + 1) * bs) (root.records l)
  -- what the root directory names is in use, and has its blocks for itself
  entry_marked : ∀ r ∈ root.entries, r.inode ≠ 0 → MarkedInode v bs sectors r.inode
  entry_block : ∀ r ∈ root.entries, r.inode ≠ 0 → r.inode ≠ 2 → ∀ l b,
    (inodeAt v bs sectors r.inode).physicalBlock p l = some (some b) →
      Marked v bs sectors b ∧ ¬ Metadata v bs sectors b ∧ b ≠ root.block 0

/-! ### Changing one block -/

/-- Only sectors of the listed blocks differ. -/
def Touches (v : Ext4Volume) (bs : ℕ) (sectors sectors' : ℕ → Bytes) (blocks : List ℕ) : Prop :=
  ∀ b s, InBlock v bs b s → b ∉ blocks → sectors' s = sectors s

section

variable {v : Ext4Volume} {bs b n : ℕ} {S S' S'' : ℕ → Bytes} {B B' : List ℕ} {buf : Bytes}

theorem Touches.trans (h : Touches v bs S S' B) (h' : Touches v bs S' S'' B') :
    Touches v bs S S'' (B ++ B') := by
  intro b s hs hb
  rw [mem_append, not_or] at hb
  rw [h' b s hs hb.2, h b s hs hb.1]

theorem touches_storeSector {t : ℕ} (hg : Geometry v bs) (ht : InBlock v bs b t) :
    Touches v bs S (storeSector S t buf) [b] := by
  intro b' s hs hb'
  apply storeSector_of_ne
  rintro rfl
  exact hb' (mem_singleton.mpr (hg.inBlock_unique hs ht))

theorem touches_storeSectors (hg : Geometry v bs) :
    Touches v bs S (storeSectors S (sectorOf v bs b) (bs / 512) buf) [b] := by
  intro b' s hs hb'
  apply storeSectors_of_outside
  by_contra hin
  have hin' : InBlock v bs b s := ⟨by omega, by omega⟩
  exact hb' (mem_singleton.mpr (hg.inBlock_unique hs hin'))

/-- The descriptors are read from block 1. -/
theorem Touches.descriptor (hg : Geometry v bs) (h : Touches v bs S S' B) (h1 : 1 ∉ B) :
    descriptor v bs S' = descriptor v bs S := by
  unfold Ext4.descriptor descriptorIn
  rw [hg.bgdBlock_eq, h 1 _ hg.inBlock_first h1]

/-- The bytes of a block that is not touched. -/
theorem Touches.runBytes (h : Touches v bs S S' B) (hb : b ∉ B) {o : ℕ} (ho : o / 512 < bs / 512) :
    runBytes S' (sectorOf v bs b) o = runBytes S (sectorOf v bs b) o := by
  unfold Fs.runBytes
  rw [h b _ ⟨Nat.le_add_right .., by omega⟩ hb]

end

/-! ### Inode slots -/

/-- The block of the inode table that holds an inode. -/
def slotBlock (v : Ext4Volume) (bs : ℕ) (sectors : ℕ → Bytes) (n : ℕ) : ℕ :=
  (descriptor v bs sectors (groupOf v n)).bgInodeTableLo + indexOf v n * 256 / bs

section

variable {p : Profile} {v : Ext4Volume} {bs n m : ℕ} {S S' : ℕ → Bytes} {root : RootLayout}

theorem groupOf_hasGroup (hn : ValidInode v n) : HasGroup v (groupOf v n) := by
  have hle : groupOf v n * v.superBlock.sInodesPerGroup ≤ n - 1 := div_mul_le_self ..
  have h1 := hn.1
  have h2 := hn.2
  unfold HasGroup
  omega

theorem slotBlock_inTable (hg : Geometry v bs) (hipg : 0 < v.superBlock.sInodesPerGroup) :
    InTable v bs S (groupOf v n) (slotBlock v bs S n) := by
  have hidx : indexOf v n < v.superBlock.sInodesPerGroup := mod_lt _ hipg
  unfold InTable slotBlock
  rcases hg.cases with rfl | rfl <;> omega

section

variable (h : WellFormed p v bs S root)
include h

theorem WellFormed.slotBlock_metadata (hn : ValidInode v n) :
    Metadata v bs S (slotBlock v bs S n) :=
  .inr (.inr (.inr
    ⟨groupOf v n, groupOf_hasGroup hn, slotBlock_inTable h.geometry h.inodesPerGroup_pos⟩))

theorem WellFormed.slotBlock_ne (hn : ValidInode v n) :
    1 < slotBlock v bs S n ∧ slotBlock v bs S n ≠ blockBitmap v bs S ∧
      slotBlock v bs S n ≠ inodeBitmap v bs S :=
  h.table_disjoint _ _ (groupOf_hasGroup hn) (slotBlock_inTable h.geometry h.inodesPerGroup_pos)

theorem WellFormed.slotOffset_ne (hn : ValidInode v n)
    (hm : ValidInode v m) (hne : n ≠ m) (hs : slotSector v bs S n = slotSector v bs S m) :
    slotOffset v bs S n ≠ slotOffset v bs S m := by
  intro ho
  have hg := h.geometry
  -- one sector, so one block of one table
  have hblock : slotBlock v bs S n = slotBlock v bs S m :=
    hg.inBlock_unique (slotSector_inBlock hg) (hs ▸ slotSector_inBlock hg)
  have hgroup : groupOf v n = groupOf v m :=
    h.tables_disjoint _ _ _ (groupOf_hasGroup hn) (groupOf_hasGroup hm)
      (slotBlock_inTable hg h.inodesPerGroup_pos)
      (hblock ▸ slotBlock_inTable hg h.inodesPerGroup_pos)
  have hindex : indexOf v n = indexOf v m := by
    unfold slotSector slotByte inodeByte at hs
    unfold slotOffset slotByte inodeByte at ho
    rw [hgroup] at hs ho
    omega
  have hn1 := div_add_mod (n - 1) v.superBlock.sInodesPerGroup
  have hm1 := div_add_mod (m - 1) v.superBlock.sInodesPerGroup
  change _ * groupOf v n + indexOf v n = _ at hn1
  change _ * groupOf v m + indexOf v m = _ at hm1
  rw [hgroup, hindex] at hn1
  have h1 := hn.1
  have h2 := hm.1
  omega

end

theorem slotSector_congr (h : descriptor v bs S' = descriptor v bs S) :
    slotSector v bs S' n = slotSector v bs S n ∧ slotOffset v bs S' n = slotOffset v bs S n := by
  unfold slotSector slotOffset slotByte inodeByte
  rw [h]
  exact ⟨rfl, rfl⟩

theorem inodeAt_congr (h : descriptor v bs S' = descriptor v bs S)
    (hs : S' (slotSector v bs S n) = S (slotSector v bs S n)) :
    inodeAt v bs S' n = inodeAt v bs S n := by
  obtain ⟨hsector, hoffset⟩ := @slotSector_congr v bs n S S' h
  unfold inodeAt
  rw [hsector, hoffset, hs]

/-- The inodes whose block is not touched. -/
theorem Touches.inodeAt {B : List ℕ} (hg : Geometry v bs) (h : Touches v bs S S' B) (h1 : 1 ∉ B)
    (hn : slotBlock v bs S n ∉ B) : inodeAt v bs S' n = inodeAt v bs S n :=
  inodeAt_congr (h.descriptor hg h1) (h _ _ (slotSector_inBlock hg) hn)

/-- The sectors with an inode put into its slot. -/
def putInode (v : Ext4Volume) (bs : ℕ) (sectors : ℕ → Bytes) (n : ℕ) (inode : Ext4Inode) :
    ℕ → Bytes :=
  storeSector sectors (slotSector v bs sectors n)
    ((sectors (slotSector v bs sectors n)).splice (slotOffset v bs sectors n) inode.bytes)

variable {inode : Ext4Inode}

theorem touches_putInode (hg : Geometry v bs) :
    Touches v bs S (putInode v bs S n inode) [slotBlock v bs S n] :=
  touches_storeSector hg (slotSector_inBlock hg)

theorem putInode_slice {o : ℕ} (ho : o + inodeStructSize ≤ 512) :
    Ext4Inode.ofBytes (putInode v bs S n inode (slotSector v bs S n)) o
      = .ofBytes ((S (slotSector v bs S n)).splice (slotOffset v bs S n) inode.bytes) o := by
  have hslice : (putInode v bs S n inode (slotSector v bs S n)).slice o inodeStructSize
      = ((S (slotSector v bs S n)).splice (slotOffset v bs S n) inode.bytes).slice o
        inodeStructSize := by
    apply Bytes.slice_congr
    intro i h1 h2
    rw [putInode, storeSector_self, if_pos (by omega), Nat.add_sub_cancel]
  unfold Ext4Inode.ofBytes
  simp only [hslice]

theorem inodeAt_putInode_self (hbs : 512 ∣ bs)
    (hd : descriptor v bs (putInode v bs S n inode) = descriptor v bs S) :
    inodeAt v bs (putInode v bs S n inode) n = inode := by
  obtain ⟨hsector, hoffset⟩ := @slotSector_congr v bs n _ _ hd
  have hroom : slotOffset v bs S n + inodeStructSize ≤ 512 := by
    rcases @slotOffset_cases v bs n S hbs with h | h <;> rw [h] <;> decide
  unfold inodeAt
  rw [hsector, hoffset, putInode_slice hroom]
  have hbytes := Bytes.slice_splice (S (slotSector v bs S n)) (slotOffset v bs S n) inode.bytes
  rw [inode.length_eq] at hbytes
  unfold Ext4Inode.ofBytes
  simp only [hbytes]

theorem inodeAt_putInode_of_slot_ne (hbs : 512 ∣ bs)
    (hd : descriptor v bs (putInode v bs S n inode) = descriptor v bs S)
    (hne : slotSector v bs S m = slotSector v bs S n → slotOffset v bs S m ≠ slotOffset v bs S n) :
    inodeAt v bs (putInode v bs S n inode) m = inodeAt v bs S m := by
  by_cases hs : slotSector v bs S m = slotSector v bs S n
  · -- the other half of the sector
    obtain ⟨hsector, hoffset⟩ := @slotSector_congr v bs m _ _ hd
    have hm' := @slotOffset_cases v bs m S hbs
    have hn' := @slotOffset_cases v bs n S hbs
    have hlen := inode.length_eq
    unfold inodeStructSize at hlen
    unfold inodeAt
    rw [hsector, hoffset, hs, putInode_slice (by unfold inodeStructSize; omega)]
    unfold Ext4Inode.ofBytes inodeStructSize
    have hbytes := @Bytes.slice_splice_of_disjoint (S (slotSector v bs S n)) (slotOffset v bs S n)
      (slotOffset v bs S m) 116 inode.bytes (by omega)
    simp only [hbytes]
  · exact inodeAt_congr hd (storeSector_of_ne hs)

/-- `S` may have other contents than the well-formed volume, but has its inode tables. -/
theorem WellFormed.inodeAt_putInode_of_ne {S₀ : ℕ → Bytes} (h : WellFormed p v bs S₀ root)
    (hd₀ : descriptor v bs S = descriptor v bs S₀)
    (hd : descriptor v bs (putInode v bs S n inode) = descriptor v bs S) (hn : ValidInode v n)
    (hm : ValidInode v m) (hne : m ≠ n) :
    inodeAt v bs (putInode v bs S n inode) m = inodeAt v bs S m := by
  refine inodeAt_putInode_of_slot_ne h.geometry.dvd hd fun hs => ?_
  obtain ⟨hm1, hm2⟩ := @slotSector_congr v bs m _ _ hd₀
  obtain ⟨hn1, hn2⟩ := @slotSector_congr v bs n _ _ hd₀
  rw [hm1, hn1] at hs
  rw [hm2, hn2]
  exact h.slotOffset_ne hm hn hne hs

end

/-! ### Records of the root directory -/

section

variable {v : Ext4Volume} {bs k m : ℕ} {S S' : ℕ → Bytes} {b : Bytes} {name : String}
  {recs recs' : List DirRecord}

theorem tiled_flatMap {f : ℕ → List DirRecord}
    (h : ∀ l, l < k → Tiled b ((l + m) * bs) ((l + m + 1) * bs) (f l)) :
    Tiled b (m * bs) ((k + m) * bs) ((List.range k).flatMap f) := by
  induction k with
  | zero =>
    rw [zero_add]
    exact .nil _
  | succ k ih =>
    have hlast := h k (lt_succ_self k)
    rw [range_succ, flatMap_append, flatMap_singleton, succ_add]
    exact (ih fun l hl => h l (by omega)).append hlast

theorem RootLayout.entries_eq {root : RootLayout} (h : 0 < root.blocks) :
    root.entries = root.records 0
      ++ (List.range (root.blocks - 1)).flatMap fun l => root.records (l + 1) := by
  obtain ⟨k, hk⟩ : ∃ k, root.blocks = k + 1 := ⟨root.blocks - 1, by omega⟩
  rw [entries, hk, range_succ_eq_map, flatMap_cons, flatMap_map, Nat.add_sub_cancel]

theorem resolve_eq_some {node : Ext4Node} (h : resolve v bs S name recs = some node) :
    ∃ r ∈ recs, r.inode ≠ 0 ∧ ValidInode v r.inode ∧
      node = .ofInode v r.inode (inodeAt v bs S r.inode) := by
  induction recs with
  | nil => cases h
  | cons r recs ih =>
    rw [resolve] at h
    split_ifs at h with hr
    · cases h
      exact ⟨r, mem_cons_self, hr.1, hr.2.2, rfl⟩
    · obtain ⟨r', hr', hrest⟩ := ih h
      exact ⟨r', mem_cons_of_mem _ hr', hrest⟩

theorem resolve_congr (h : ∀ r ∈ recs, r.inode ≠ 0 → ValidInode v r.inode →
    inodeAt v bs S' r.inode = inodeAt v bs S r.inode) :
    resolve v bs S' name recs = resolve v bs S name recs := by
  induction recs with
  | nil => rfl
  | cons r recs ih =>
    rw [resolve, resolve, ih fun r' hr' => h r' (mem_cons_of_mem _ hr')]
    split_ifs with hr
    · rw [h r mem_cons_self hr.1 hr.2.2]
    · rfl

end

/-! ### The steps of creating a file -/

section

variable {p : Profile} {v : Ext4Volume} {bs n : ℕ} {d d' : BlockDevice}

section

variable (hg : Geometry v bs) (hd : d.Reliable)
include hg hd

theorem allocateInode_ok (h : v.allocateInode p d = .ok n d') :
    d'.Reliable ∧ 1 ≤ n ∧ n ≤ 4096 ∧
      bitAt (d.sectors (sectorOf v bs (inodeBitmap v bs d.sectors))) (n - 1) = false ∧
      Touches v bs d.sectors d'.sectors [inodeBitmap v bs d.sectors] := by
  revert n d'
  apply forall_ok
  rw [Ext4Volume.allocateInode, wp_bind]
  have hbitmap : (descriptor v bs d.sectors 0).bgInodeBitmapLo < 2 ^ 32 :=
    (descriptor_bitmap_lt 0).2
  refine wp_allocateBit hg hd hbitmap (fun i j d' hi hj hd' => ?_) fun _ => trivial
  dsimp only
  intro hbit hsectors
  rw [wp_pure, Nat.add_sub_cancel, bitAt_eq hj, hsectors]
  exact ⟨hd', by omega, by omega, hbit, touches_storeSector hg hg.inBlock_first⟩

theorem allocateBlock_ok (h : v.allocateBlock p d = .ok n d') :
    d'.Reliable ∧ n < 4096 ∧
      bitAt (d.sectors (sectorOf v bs (blockBitmap v bs d.sectors))) n = false ∧
      Touches v bs d.sectors d'.sectors [blockBitmap v bs d.sectors] := by
  revert n d'
  apply forall_ok
  have hbitmap : (descriptor v bs d.sectors 0).bgBlockBitmapLo < 2 ^ 32 :=
    (descriptor_bitmap_lt 0).1
  refine wp_allocateBit hg hd hbitmap (fun i j d' hi hj hd' => ?_) fun _ => trivial
  dsimp only
  intro hbit hsectors
  rw [bitAt_eq hj, hsectors]
  exact ⟨hd', by omega, hbit, touches_storeSector hg hg.inBlock_first⟩

theorem writeDataToBlock_ok {data : List Byte}
    (hn : n < 4096) (hdata : data.length ≤ bs) (h : v.writeDataToBlock p n data d = .ok () d') :
    d'.Reliable ∧ d'.sectors = storeSectors d.sectors (sectorOf v bs n) (bs / 512)
      (Bytes.splice (fun _ => 0) 0 data) := by
  revert d'
  apply forall_ok_state
  exact wp_writeDataToBlock hg hd (by omega) hdata fun d' hd' hs => ⟨hd', hs⟩

theorem writeInode_ok {inode : Ext4Inode}
    (hipg : 0 < v.superBlock.sInodesPerGroup) (h : v.writeInode p n inode d = .ok () d') :
    d'.Reliable ∧ ValidInode v n ∧ d'.sectors = putInode v bs d.sectors n inode := by
  revert d'
  apply forall_ok_state
  exact wp_writeInode hg.layout hd hipg (fun hn d' hd' hs => ⟨hd', hn, hs⟩) fun _ => trivial

theorem newRoot_ok {node : Ext4Node} (hipg : 0 < v.superBlock.sInodesPerGroup) (h2 : ValidInode v 2)
    (h : Ext4Node.newRoot p v d = .ok node d') :
    d'.Reliable ∧ d'.sectors = d.sectors ∧ node = .ofInode v 2 (inodeAt v bs d.sectors 2) := by
  revert d'
  revert node
  apply forall_ok
  rw [Ext4Node.newRoot, wp_bind, wp_attempt]
  exact wp_readInode hg.layout hd hipg (fun _ d' hd' hs => ⟨hd', hs, rfl⟩) fun hn => absurd h2 hn

end

end

/-! ### What the steps leave behind -/

/-- The volume after a file was created, compared with the volume before. -/
structure Created (v : Ext4Volume) (bs : ℕ) (S S' : ℕ → Bytes) (root : RootLayout)
    (ino block : ℕ) (data : List Byte) (name : String) : Prop where
  ino_valid : ValidInode v ino
  ino_fresh : ino ≠ 2 ∧ ∀ r ∈ root.entries, r.inode ≠ 0 → r.inode ≠ ino
  block_lt : block < 4096
  inode : inodeAt v bs S' ino = buildFileInode data.length block
  contents : ∀ o (h : o < data.length), runBytes S' (sectorOf v bs block) o = data[o]
  inodes : ∀ n, ValidInode v n → n ≠ ino → inodeAt v bs S' n = inodeAt v bs S n
  files : ∀ b s, Marked v bs S b → ¬ Metadata v bs S b → b ≠ root.block 0 → InBlock v bs b s →
    S' s = S s
  records : Tiled (fileByte v bs S' root.block) 0 (root.blocks * bs)
    (root.records 0 ++ [⟨ino, nameBytes name⟩]
      ++ (List.range (root.blocks - 1)).flatMap fun l => root.records (l + 1))

section

variable {p : Profile} {v : Ext4Volume} {bs ino block : ℕ} {root : RootLayout} {node : Ext4Node}
  {data : List Byte} {name : String}

variable {S : ℕ → Bytes}

theorem WellFormed.fresh_inode (h : WellFormed p v bs S root) (h1 : 1 ≤ ino) (h2 : ino ≤ 4096)
    (hfree : bitAt (S (sectorOf v bs (inodeBitmap v bs S))) (ino - 1) = false) :
    ino ≠ 2 ∧ ∀ r ∈ root.entries, r.inode ≠ 0 → r.inode ≠ ino := by
  have hle : ino ≤ v.superBlock.sInodesPerGroup := by
    by_contra hgt
    have := h.padding (ino - 1) (by omega) (by omega)
    rw [this] at hfree
    cases hfree
  have hmarked : ¬ MarkedInode v bs S ino := by
    intro hmarked
    have := hmarked hle h2
    rw [this] at hfree
    cases hfree
  refine ⟨?_, ?_⟩
  · rintro rfl
    exact hmarked h.root_marked
  · rintro r hr hlive rfl
    exact hmarked (h.entry_marked r hr hlive)

variable {S₃ : ℕ → Bytes}

variable (h : WellFormed p v bs S root)
include h

/-- A block outside the bitmaps, the new block and the slot of the new inode keeps its sectors until
the inode is written. -/
theorem WellFormed.touches_putInode
    (hino : ValidInode v ino) (hfree : ∀ b, Marked v bs S b → b ≠ block)
    (t : Touches v bs S S₃ [inodeBitmap v bs S, blockBitmap v bs S, block]) (inode : Ext4Inode) :
    descriptor v bs S₃ = descriptor v bs S ∧
      descriptor v bs (putInode v bs S₃ ino inode) = descriptor v bs S₃ ∧
      Touches v bs S (putInode v bs S₃ ino inode)
        [inodeBitmap v bs S, blockBitmap v bs S, block, slotBlock v bs S ino] := by
  have hib := h.inodeBitmap_gt
  have hbb := h.blockBitmap_gt
  have hone := hfree 1 (h.metadata_marked 1 (.inl le_rfl))
  have hslot := (h.slotBlock_ne hino).1
  have hdesc : descriptor v bs S₃ = descriptor v bs S := by
    apply t.descriptor h.geometry
    simp only [mem_cons, not_mem_nil, or_false]
    omega
  have hsame : slotBlock v bs S₃ ino = slotBlock v bs S ino := by
    unfold slotBlock
    rw [hdesc]
  have t₄ := @Ext4.touches_putInode v bs ino S₃ inode h.geometry
  rw [hsame] at t₄
  refine ⟨hdesc, t₄.descriptor h.geometry ?_, t.trans t₄⟩
  rw [mem_singleton]
  omega

theorem WellFormed.root_node (hnode : node = .ofInode v 2 (inodeAt v bs S 2)) :
    node.volume = v ∧ node.isDirectory = true ∧ node.size = root.blocks * bs ∧
      ∀ l, l < root.blocks → node.inode.physicalBlock p l = some (some (root.block l)) := by
  rw [hnode]
  exact ⟨rfl, h.root_isDirectory, h.root_size, h.root_mapped⟩

theorem WellFormed.addEntry_ok {inode : Ext4Inode} {d d' : BlockDevice} (hino : ValidInode v ino)
    (hfree : ∀ b, Marked v bs S b → b ≠ block)
    (t : Touches v bs S S₃ [inodeBitmap v bs S, blockBitmap v bs S, block])
    (hname : (nameBytes name).length < 256) (hnode : node = .ofInode v 2 (inodeAt v bs S 2))
    (hd : d.Reliable) (hs : d.sectors = putInode v bs S₃ ino inode)
    (hadd : node.addEntry p name ino d = .ok () d') :
    d'.Reliable ∧ ∃ updated, Tiled updated 0 bs (root.records 0 ++ [⟨ino, nameBytes name⟩]) ∧
      d'.sectors = storeSectors d.sectors (sectorOf v bs (root.block 0)) (bs / 512) updated := by
  have hg := h.geometry
  have hbs : bs / 512 * 512 = bs := by rcases hg.cases with rfl | rfl <;> decide
  obtain ⟨hmarked, hnot⟩ := h.root_block 0 h.blocks_pos
  obtain ⟨_, _, t₄⟩ := h.touches_putInode hino hfree t inode
  have hmem : root.block 0 ∉
      [inodeBitmap v bs S, blockBitmap v bs S, block, slotBlock v bs S ino] := by
    simp only [mem_cons, not_mem_nil, or_false, not_or]
    refine ⟨fun hb => ?_, fun hb => ?_, hfree _ hmarked, fun hb => ?_⟩
    · exact hnot (.inr (.inr (.inl hb)))
    · exact hnot (.inr (.inl hb))
    · exact hnot (hb ▸ h.slotBlock_metadata hino)
  have htiled : Tiled (runBytes d.sectors (sectorOf v bs (root.block 0))) 0 bs
    (root.records 0) := by
    have h0 := h.root_tiled 0 h.blocks_pos
    rw [zero_mul, zero_add, Nat.one_mul] at h0
    refine h0.congr fun i _ hi => ?_
    rw [hs, t₄.runBytes hmem (by omega), fileByte_eq_runBytes hi]
  have hlt : ino < 2 ^ 32 := lt_of_le_of_lt hino.2 v.superBlock.inodesCount_lt
  obtain ⟨rfl, hdir, _, hmap⟩ := h.root_node hnode
  have hpos : 0 < bs := by rcases hg.cases with rfl | rfl <;> decide
  have hfirst : FirstBlock p node bs (sectorOf node.volume bs (root.block 0)) :=
    .of_layout hg.layout hdir (logicalToPhysicalSector_eq hg.layout (hmap 0 h.blocks_pos))
  revert d'
  apply forall_ok_state
  exact hfirst.wp_addEntry hpos htiled hname hlt hd
    (fun updated d' hd' hup hs' => ⟨hd', updated, hup, hs'⟩) fun _ _ _ => trivial

variable {S' : ℕ → Bytes}

/-- Where only the first block of the root directory changes, the later ones keep their records. -/
theorem WellFormed.tiled_of_first {records : List DirRecord}
    (hfiles : ∀ b s, Marked v bs S b → ¬ Metadata v bs S b → b ≠ root.block 0 →
      InBlock v bs b s → S' s = S s)
    (hfirst : Tiled (fileByte v bs S' root.block) 0 bs records) :
    Tiled (fileByte v bs S' root.block) 0 (root.blocks * bs)
      (records ++ (List.range (root.blocks - 1)).flatMap fun l => root.records (l + 1)) := by
  have hlater : Tiled (fileByte v bs S' root.block) (1 * bs) ((root.blocks - 1 + 1) * bs)
      ((List.range (root.blocks - 1)).flatMap fun l => root.records (l + 1)) := by
    apply tiled_flatMap
    intro l hl
    obtain ⟨hmarked, hnot⟩ := h.root_block (l + 1) (by omega)
    refine (h.root_tiled (l + 1) (by omega)).congr fun i h1 h2 => ?_
    have hdiv : i / bs = l + 1 := Nat.div_eq_of_lt_le h1 h2
    have hin : i % bs / 512 < bs / 512 := by rcases h.geometry.cases with rfl | rfl <;> omega
    unfold fileByte
    rw [hdiv, hfiles (root.block (l + 1)) _ hmarked hnot
      (h.root_block_ne (l + 1) (by omega) (by omega)) ⟨Nat.le_add_right .., by omega⟩]
  rw [Nat.one_mul, Nat.sub_add_cancel h.blocks_pos] at hlater
  exact hfirst.append hlater

theorem WellFormed.created_of_sectors {updated : Bytes} (hino : ValidInode v ino)
    (hfresh : ino ≠ 2 ∧ ∀ r ∈ root.entries, r.inode ≠ 0 → r.inode ≠ ino) (hlt : block < 4096)
    (hfree : ∀ b, Marked v bs S b → b ≠ block) (hdata : data.length ≤ bs)
    (t : Touches v bs S S₃ [inodeBitmap v bs S, blockBitmap v bs S, block])
    (hcontents : ∀ o (h : o < data.length), runBytes S₃ (sectorOf v bs block) o = data[o])
    (htiled : Tiled updated 0 bs (root.records 0 ++ [⟨ino, nameBytes name⟩])) :
    Created v bs S (storeSectors
      (putInode v bs S₃ ino (buildFileInode data.length block))
      (sectorOf v bs (root.block 0)) (bs / 512) updated) root ino block data name := by
  have hg := h.geometry
  have hbs : 0 < bs ∧ bs / 512 * 512 = bs := by rcases hg.cases with rfl | rfl <;> decide
  obtain ⟨hdesc, hdesc', t₄⟩ :=
    h.touches_putInode hino hfree t (buildFileInode data.length block)
  have hroot := h.root_block 0 h.blocks_pos
  generalize hS₄ : putInode v bs S₃ ino (buildFileInode data.length block) = S₄ at hdesc' t₄ ⊢
  have t₅ := @touches_storeSectors v bs (root.block 0) S₄ updated hg
  generalize hS₅ : storeSectors S₄ (sectorOf v bs (root.block 0)) (bs / 512) updated = S₅ at t₅ ⊢
  -- the last step keeps the metadata
  have hmeta : ∀ b, Metadata v bs S b → b ≠ root.block 0 := by
    rintro b hb rfl
    exact hroot.2 hb
  have hslot : ∀ n, ValidInode v n → inodeAt v bs S₅ n = inodeAt v bs S₄ n := by
    intro n hn
    apply t₅.inodeAt hg
    · rw [mem_singleton]
      exact hmeta 1 (.inl le_rfl)
    · have hsame : slotBlock v bs S₄ n = slotBlock v bs S n := by
        unfold slotBlock
        rw [hdesc', hdesc]
      rw [mem_singleton, hsame]
      exact hmeta _ (h.slotBlock_metadata hn)
  -- a block of another file is none of the five
  have hfiles : ∀ b s, Marked v bs S b → ¬ Metadata v bs S b → b ≠ root.block 0 →
      InBlock v bs b s → S₅ s = S s := by
    intro b s hmarked hnot hne hs
    apply (t₄.trans t₅) b s hs
    simp only [cons_append, nil_append, mem_cons, not_mem_nil, or_false, not_or]
    refine ⟨?_, ?_, hfree b hmarked, ?_, hne⟩
    · rintro rfl
      exact hnot (.inr (.inr (.inl rfl)))
    · rintro rfl
      exact hnot (.inr (.inl rfl))
    · rintro rfl
      exact hnot (h.slotBlock_metadata hino)
  refine ⟨hino, hfresh, hlt, ?_, ?_, ?_, hfiles, ?_⟩
  · rw [hslot ino hino, ← hS₄]
    exact inodeAt_putInode_self hg.dvd (hS₄ ▸ hdesc')
  · intro o ho
    have hslotNe := hfree _ (h.metadata_marked _ (h.slotBlock_metadata hino))
    have hsame : slotBlock v bs S₃ ino = slotBlock v bs S ino := by
      unfold slotBlock
      rw [hdesc]
    have t₄' := @Ext4.touches_putInode v bs ino S₃ (buildFileInode data.length block) hg
    rw [hS₄, hsame] at t₄'
    have hnot₅ : block ∉ [root.block 0] := fun hb =>
      hfree _ hroot.1 (mem_singleton.mp hb).symm
    have hnot₄ : block ∉ [slotBlock v bs S ino] := fun hb =>
      hslotNe (mem_singleton.mp hb).symm
    have hin : o / 512 < bs / 512 := by omega
    rw [t₅.runBytes hnot₅ hin, t₄'.runBytes hnot₄ hin]
    exact hcontents o ho
  · intro n hn hne
    obtain ⟨hslot1, hslotBb, hslotIb⟩ := h.slotBlock_ne hn
    have hslotNe := hfree _ (h.metadata_marked _ (h.slotBlock_metadata hn))
    have hone := hfree 1 (h.metadata_marked 1 (.inl le_rfl))
    have hib := h.inodeBitmap_gt
    have hbb := h.blockBitmap_gt
    rw [hslot n hn, ← hS₄, h.inodeAt_putInode_of_ne hdesc (hS₄ ▸ hdesc') hino hn hne]
    apply t.inodeAt hg
    · simp only [mem_cons, not_mem_nil, or_false]
      omega
    · simp only [mem_cons, not_mem_nil, or_false, not_or]
      exact ⟨hslotIb, hslotBb, hslotNe⟩
  · refine h.tiled_of_first hfiles (htiled.congr fun i _ hi => ?_)
    rw [fileByte_eq_runBytes hi, ← hS₅, runBytes_storeSectors (by omega)]

omit h

/-- **The five steps** leave the volume as `Created` says. -/
theorem WellFormed.created {d d₁ d₂ d₃ d₄ d₅ : BlockDevice}
    (h : WellFormed p v bs d.sectors root) (hd : d.Reliable) (hdata : data.length ≤ bs)
    (hname : (nameBytes name).length < 256)
    (hnode : node = .ofInode v 2 (inodeAt v bs d.sectors 2))
    (h₁ : v.allocateInode p d = .ok ino d₁) (h₂ : v.allocateBlock p d₁ = .ok block d₂)
    (h₃ : v.writeDataToBlock p block data d₂ = .ok () d₃)
    (h₄ : v.writeInode p ino (buildFileInode data.length block) d₃ = .ok () d₄)
    (h₅ : node.addEntry p name ino d₄ = .ok () d₅) :
    d₅.Reliable ∧ Created v bs d.sectors d₅.sectors root ino block data name := by
  have hg := h.geometry
  have hib := h.inodeBitmap_gt
  -- allocate the inode
  obtain ⟨hd₁, hino1, hino2, hfreeInode, t₁⟩ := allocateInode_ok hg hd h₁
  have hdesc₁ := t₁.descriptor hg (by rw [mem_singleton]; omega)
  have hfresh := h.fresh_inode hino1 hino2 hfreeInode
  -- allocate the block
  obtain ⟨hd₂, hblock, hfreeBlock, t₂⟩ := allocateBlock_ok hg hd₁ h₂
  have hbb₁ : blockBitmap v bs d₁.sectors = blockBitmap v bs d.sectors := by
    unfold blockBitmap
    rw [hdesc₁]
  rw [hbb₁] at hfreeBlock t₂
  rw [t₁ _ _ hg.inBlock_first (by rw [mem_singleton]; exact h.bitmaps_ne)] at hfreeBlock
  have hunmarked : ∀ b, Marked v bs d.sectors b → b ≠ block := by
    rintro b hb rfl
    rw [hb hblock] at hfreeBlock
    cases hfreeBlock
  -- write the data and the inode
  obtain ⟨hd₃, hs₃⟩ := writeDataToBlock_ok hg hd₂ hblock hdata h₃
  obtain ⟨hd₄, hino, hs₄⟩ := writeInode_ok hg hd₃ h.inodesPerGroup_pos h₄
  have t₃ : Touches v bs d₂.sectors d₃.sectors [block] := by
    rw [hs₃]
    exact touches_storeSectors hg
  have t : Touches v bs d.sectors d₃.sectors
      [inodeBitmap v bs d.sectors, blockBitmap v bs d.sectors, block] := (t₁.trans t₂).trans t₃
  have hcontents : ∀ o (h : o < data.length),
      runBytes d₃.sectors (sectorOf v bs block) o = data[o] := by
    intro o ho
    have hbs : bs / 512 * 512 = bs := by rcases hg.cases with rfl | rfl <;> decide
    rw [hs₃, runBytes_storeSectors (by omega)]
    have hin := @Bytes.splice_of_inside (fun _ => 0) 0 o data ho
    rwa [zero_add] at hin
  -- link it
  obtain ⟨hd₅, updated, htiled, hs₅⟩ := h.addEntry_ok hino hunmarked t hname hnode hd₄ hs₄ h₅
  rw [hs₅, hs₄]
  exact ⟨hd₅, h.created_of_sectors hino hfresh hblock hunmarked hdata t hcontents htiled⟩

end

/-! ### The round trip -/

section

variable {p : Profile} {v : Ext4Volume} {bs ino block : ℕ} {root : RootLayout} {node : Ext4Node}
  {data : List Byte} {name other : String} {d d' e : BlockDevice}

variable {S : ℕ → Bytes} {E : FsError → BlockDevice → Prop} {F : BlockDevice → Prop}

theorem WellFormed.wp_lookup (h : WellFormed p v bs S root)
    (hnode : node = .ofInode v 2 (inodeAt v bs S 2)) {recs : List DirRecord}
    (ht : Tiled (fileByte v bs d.sectors root.block) 0 (root.blocks * bs) recs) (hd : d.Reliable)
    :
    wp (node.lookup p name) (fun found e => e.Reliable ∧ e.sectors = d.sectors ∧
      found = resolve v bs d.sectors name recs) E F d := by
  obtain ⟨hv, hdir, hsize, hmap⟩ := h.root_node hnode
  have hpos : 0 < root.blocks * bs := by
    have := h.blocks_pos
    rcases h.geometry.cases with rfl | rfl <;> omega
  rw [← hsize] at ht hpos
  refine Ext4.wp_lookup h.geometry.layout h.inodesPerGroup_pos hv hdir hpos
    (fun l hl => .of_physicalBlock h.geometry.layout (hmap l ?_)) ht hd
    fun e he hs => ⟨he, hs, rfl⟩
  rw [hsize] at hl
  exact Nat.lt_of_mul_lt_mul_right hl

theorem WellFormed.lookup_eq (h : WellFormed p v bs d.sectors root) (hd : d.Reliable)
    (hnode : node = .ofInode v 2 (inodeAt v bs d.sectors 2)) {found : Option Ext4Node}
    (hlookup : node.lookup p name d = .ok found e) :
    e.Reliable ∧ e.sectors = d.sectors ∧ found = resolve v bs d.sectors name root.entries := by
  have htiled := @tiled_flatMap bs root.blocks 0 _ root.records h.root_tiled
  rw [zero_mul, add_zero] at htiled
  revert e
  revert found
  apply forall_ok
  exact h.wp_lookup hnode htiled hd

theorem Created.resolve_new
    (c : Created v bs S S' root ino block data name) (hpos : 0 < root.blocks)
    (hnew : ∀ r ∈ root.entries, r.inode ≠ 0 → r.name ≠ nameBytes name) :
    resolve v bs S' name (root.records 0 ++ [⟨ino, nameBytes name⟩]
        ++ (List.range (root.blocks - 1)).flatMap fun l => root.records (l + 1))
      = some (.ofInode v ino (buildFileInode data.length block)) := by
  have hfirst : resolve v bs S' name (root.records 0) = none := by
    apply resolve_eq_none
    intro r hr
    apply hnew
    rw [RootLayout.entries_eq hpos]
    exact mem_append_left _ hr
  have hino : ino ≠ 0 := one_le_iff_ne_zero.mp c.ino_valid.1
  rw [append_assoc, resolve_append, hfirst, Option.none_or, singleton_append, resolve,
    if_pos ⟨hino, rfl, c.ino_valid⟩, c.inode]

theorem Created.resolve_other
    (c : Created v bs S S' root ino block data name) (hpos : 0 < root.blocks)
    (hne : other ≠ name) :
    resolve v bs S' other (root.records 0 ++ [⟨ino, nameBytes name⟩]
        ++ (List.range (root.blocks - 1)).flatMap fun l => root.records (l + 1))
      = resolve v bs S other root.entries := by
  have hentries := RootLayout.entries_eq hpos
  have hskip : resolve v bs S' other [⟨ino, nameBytes name⟩] = none := by
    apply resolve_eq_none
    intro r hr _ hname
    rw [mem_singleton.mp hr] at hname
    exact hne (nameBytes_injective hname.symm)
  have hcongr : resolve v bs S' other root.entries = resolve v bs S other root.entries :=
    resolve_congr fun r hr hlive hvalid => c.inodes r.inode hvalid (c.ino_fresh.2 r hr hlive)
  rw [← hcongr, hentries, resolve_append, resolve_append, hskip, Option.or_none, resolve_append]

theorem Created.wp_read (hg : Geometry v bs) (hdata : data.length ≤ bs)
    (c : Created v bs S d.sectors root ino block data name) (hd : d.Reliable)
    :
    wp ((Ext4Node.ofInode v ino (buildFileInode data.length block)).read p 0 data.length)
      (fun bytes _ => bytes = data) E F d := by
  have hlt := c.block_lt
  have hbs : bs ≤ 4096 := by rcases hg.cases with rfl | rfl <;> decide
  have hsize : (Ext4Node.ofInode v ino (buildFileInode data.length block)).size = data.length :=
    size_buildFileInode (by omega)
  -- the file has one block
  have hmap : ∀ l, l * bs < (Ext4Node.ofInode v ino (buildFileInode data.length block)).size →
      (buildFileInode data.length block).physicalBlock p l = some (some ((fun _ => block) l)) := by
    intro l hl
    have hl0 : l = 0 := by
      rcases hg.cases with rfl | rfl <;> omega
    rw [physicalBlock_buildFileInode (by omega), if_pos hl0]
  refine Ext4.wp_read hg rfl hd hmap fun e _ _ => ?_
  rw [hsize, Nat.sub_zero, Nat.min_self]
  apply ext_getElem?
  intro i
  rw [Bytes.getElem?_slice]
  by_cases hi : i < data.length
  · rw [if_pos hi, zero_add, fileByte_eq_runBytes (by omega), c.contents i hi,
      getElem?_eq_getElem hi]
  · rw [if_neg hi, getElem?_eq_none (by omega)]

/-- **Creating a file and reading it back.**  The new name resolves to a file with the data that was
written; every other name resolves to the same inode as before, and what it names reads the same.
(The root directory names itself and reads differently: it has one more record.) -/
theorem create_then_read {root : RootLayout} {d₀ d₁ d₂ d₃ d₄ d₅ : BlockDevice}
    (h : WellFormed p v bs d.sectors root) (hd : d.Reliable) (hdata : data.length ≤ bs)
    (hname : (nameBytes name).length ≤ 255)
    (hnew : ∀ r ∈ root.entries, r.inode ≠ 0 → r.name ≠ nameBytes name)
    (h₀ : Ext4Node.newRoot p v d = .ok node d₀)
    (h₁ : v.allocateInode p d₀ = .ok ino d₁)
    (h₂ : v.allocateBlock p d₁ = .ok block d₂)
    (h₃ : v.writeDataToBlock p block data d₂ = .ok () d₃)
    (h₄ : v.writeInode p ino (buildFileInode data.length block) d₃ = .ok () d₄)
    (h₅ : node.addEntry p name ino d₄ = .ok () d₅) :
    (∃ file e e', node.lookup p name d₅ = .ok (some file) e ∧ file.isDir = false ∧
      file.getSize = data.length ∧ file.read p 0 data.length e = .ok data e') ∧
    ∀ other found e, other ≠ name → node.lookup p other d₀ = .ok (some found) e →
      ∃ found' e', node.lookup p other d₅ = .ok (some found') e' ∧
        found'.inodeNum = found.inodeNum ∧ (found.inodeNum ≠ 2 → ∀ offset length bytes f,
          found.read p offset length e = .ok bytes f →
            ∃ f', found'.read p offset length e' = .ok bytes f') := by
  obtain ⟨hd₀, hs₀, hnode⟩ := newRoot_ok h.geometry hd h.inodesPerGroup_pos h.root_valid h₀
  rw [← hs₀] at h hnode
  obtain ⟨hd₅, c⟩ := h.created hd₀ hdata (by omega) hnode h₁ h₂ h₃ h₄ h₅
  have hbs : bs ≤ 4096 := by rcases h.geometry.cases with rfl | rfl <;> decide
  refine ⟨?_, ?_⟩
  · obtain ⟨found, e, hlookup, he, hse, hfound⟩ :=
      returns_of_wp (h.wp_lookup (F := fun _ => False) hnode c.records hd₅)
    rw [c.resolve_new h.blocks_pos hnew] at hfound
    rw [← hse] at c
    obtain ⟨bytes, e', hread, hbytes⟩ := returns_of_wp (c.wp_read (p := p) h.geometry hdata he)
    rw [hfound] at hlookup
    rw [hbytes] at hread
    exact ⟨_, e, e', hlookup, isDirectory_buildFileInode, size_buildFileInode (by omega), hread⟩
  · intro other found e hne hbefore
    obtain ⟨he, hse, hresolve⟩ := h.lookup_eq hd₀ hnode hbefore
    obtain ⟨found', e', hlookup, he', hse', hfound⟩ :=
      returns_of_wp (h.wp_lookup (F := fun _ => False) hnode c.records hd₅)
    rw [c.resolve_other h.blocks_pos hne, ← hresolve] at hfound
    rw [hfound] at hlookup
    refine ⟨found, e', hlookup, rfl, fun hroot offset length bytes f hread => ?_⟩
    obtain ⟨r, hr, hlive, -, rfl⟩ := resolve_eq_some hresolve.symm
    -- the blocks of the file are not touched
    refine read_agree h.geometry rfl he he' (fun l b hb s hs => ?_) hread
    obtain ⟨hmarked, hnot, hb0⟩ := h.entry_block r hr hlive hroot l b hb
    rw [hse, hse', c.files b s hmarked hnot hb0 hs]

end

/-! ### A sample volume -/

/-- A volume with one group of sixteen inodes: descriptors in block 1, bitmaps in blocks 2 and 3,
the inode table in blocks 4 and 5, the root directory in block 6, the file `a` in block 7. -/
def sampleVolume : Ext4Volume where
  startLba := 2048
  superBlock := ⟨16, 1, 16, 0xEF53, sixteen_lt, sixteen_lt⟩

/-- The inode of its root directory. -/
def sampleRoot : Ext4Inode :=
  .ofBytes (Bytes.putAll (fun _ => 0)
    [(0, 2, 0x41ED), (4, 4, 2048), (40, 2, 0xF30A), (42, 2, 1), (56, 2, 1), (60, 4, 6)]) 0

/-- Its sectors; a block has four. -/
def sampleSectors (s : ℕ) : Bytes :=
  -- descriptors, block bitmap, inode bitmap
  if s = 2052 then Bytes.putAll (fun _ => 0) [(0, 4, 2), (4, 4, 3), (8, 4, 4)]
  else if s = 2056 then fun i => if i = 0 then 0xFF else 0
  else if s = 2060 then fun i => if i = 1 then 0x07 else 0xFF
  -- inodes 2 and 11
  else if s = 2064 then Bytes.splice (fun _ => 0) 256 sampleRoot.bytes
  else if s = 2069 then Bytes.splice (fun _ => 0) 0 (buildFileInode 5 7).bytes
  -- the root directory
  else if s = 2072 then
    (((Bytes.putAll (fun _ => 0) [(0, 4, 2), (4, 2, 12), (6, 1, 1), (12, 4, 2), (16, 2, 12),
      (18, 1, 2), (24, 4, 11), (28, 2, 2024), (30, 1, 1)]).splice 8 (nameBytes ".")).splice 20
      (nameBytes "..")).splice 32 (nameBytes "a")
  else if s = 2076 then Bytes.splice (fun _ => 0) 0 (nameBytes "hello")
  else fun _ => 0

def sampleDisk : BlockDevice := ⟨sampleSectors, [], fun _ => false⟩

/-- The records of its root directory. -/
def sampleLayout : RootLayout where
  blocks := 1
  block := fun _ => 6
  records := fun _ => [⟨2, nameBytes "."⟩, ⟨2, nameBytes ".."⟩, ⟨11, nameBytes "a"⟩]

theorem sample_inodes : inodeAt sampleVolume 2048 sampleSectors 2 = sampleRoot ∧
    inodeAt sampleVolume 2048 sampleSectors 11 = buildFileInode 5 7 := by
  constructor
  · decide +kernel
  · decide +kernel

theorem sample_bitmaps : blockBitmap sampleVolume 2048 sampleSectors = 2 ∧
    inodeBitmap sampleVolume 2048 sampleSectors = 3 ∧
    (descriptor sampleVolume 2048 sampleSectors 0).bgInodeTableLo = 4 := by
  decide +kernel

variable {b : ℕ}

theorem sample_inTable {g : ℕ} (hg : HasGroup sampleVolume g)
    (h : InTable sampleVolume 2048 sampleSectors g b) : g = 0 ∧ 4 ≤ b ∧ b < 6 := by
  have hg0 : g = 0 := by
    change g * 16 < 16 at hg
    omega
  subst hg0
  have htable := sample_bitmaps.2.2
  change (descriptor sampleVolume 2048 sampleSectors 0).bgInodeTableLo ≤ b ∧
    b < (descriptor sampleVolume 2048 sampleSectors 0).bgInodeTableLo + 2 at h
  omega

theorem sample_metadata (h : Metadata sampleVolume 2048 sampleSectors b) : b < 6 := by
  obtain ⟨hbb, hib, _⟩ := sample_bitmaps
  rcases h with h | h | h | ⟨g, hg, h⟩
  · omega
  · omega
  · omega
  · exact (sample_inTable hg h).2.2

theorem sample_marked (h : b < 8) : Marked sampleVolume 2048 sampleSectors b := by
  intro _
  have hall : ∀ b < 8, bitAt (sampleSectors (sectorOf sampleVolume 2048
      (blockBitmap sampleVolume 2048 sampleSectors))) b = true := by decide +kernel
  exact hall b h

theorem sample_tiled : Tiled (fileByte sampleVolume 2048 sampleSectors fun _ => 6) 0 2048
    (sampleLayout.records 0) := by
  generalize hb : fileByte sampleVolume 2048 sampleSectors (fun _ => 6) = b
  have hlen : recLenAt b 0 = 12 ∧ recLenAt b 12 = 12 ∧ recLenAt b 24 = 2024 ∧
      nameLenAt b 0 = 1 ∧ nameLenAt b 12 = 2 ∧ nameLenAt b 24 = 1 := by
    rw [← hb]
    decide +kernel
  have hrecords : sampleLayout.records 0 = [recordAt b 0, recordAt b 12, recordAt b 24] := by
    rw [← hb]
    decide +kernel
  obtain ⟨h0, h12, h24, n0, n12, n24⟩ := hlen
  rw [hrecords]
  refine .cons ⟨?_, ?_⟩ ?_
  · rw [h0]
    decide
  · rw [h0, n0]
    decide
  rw [h0]
  refine .cons ⟨?_, ?_⟩ ?_
  · rw [h12]
    decide
  · rw [h12, n12]
    decide
  rw [h12]
  refine .cons ⟨?_, ?_⟩ ?_
  · rw [h24]
    decide
  · rw [h24, n24]
    decide
  rw [h24]
  exact .nil _

theorem sample_wellFormed : WellFormed .dev sampleVolume 2048 sampleSectors sampleLayout where
  geometry := ⟨.inl ⟨rfl, rfl⟩, by decide⟩
  inodesPerGroup_pos := by decide
  groups_le := by decide
  blockBitmap_gt := by decide +kernel
  inodeBitmap_gt := by decide +kernel
  bitmaps_ne := by decide +kernel
  table_disjoint g b hg h := by
    obtain ⟨_, h4, _⟩ := sample_inTable hg h
    rw [sample_bitmaps.1, sample_bitmaps.2.1]
    omega
  tables_disjoint g g' b hg hg' h h' := by
    rw [(sample_inTable hg h).1, (sample_inTable hg' h').1]
  metadata_marked b h := sample_marked (lt_of_lt_of_le (sample_metadata h) (by decide))
  padding i h1 _ := by
    change Bits.testBit (if i / 8 = 1 then 0x07 else 0xFF) (i % 8) = true
    have hi : i / 8 ≠ 1 := by
      change 16 ≤ i at h1
      omega
    rw [if_neg hi]
    exact Bits.testBit_allOnes (mod_lt i (by decide))
  root_valid := by decide
  root_marked := by
    intro _ _
    decide +kernel
  root_isDirectory := by decide +kernel
  blocks_pos := by decide
  root_size := by decide +kernel
  root_mapped l hl := by
    change l < 1 at hl
    obtain rfl : l = 0 := by omega
    decide +kernel
  root_block l _ := by
    change Marked sampleVolume 2048 sampleSectors 6 ∧ ¬ Metadata sampleVolume 2048 sampleSectors 6
    exact ⟨sample_marked (by decide), fun h => absurd (sample_metadata h) (by decide)⟩
  root_block_ne l h0 hl := by
    change l < 1 at hl
    omega
  root_tiled l hl := by
    change l < 1 at hl
    obtain rfl : l = 0 := by omega
    exact sample_tiled
  entry_marked := by
    unfold MarkedInode
    decide +kernel
  entry_block r hr _ hne l b h := by
    have hfile : ∀ r ∈ sampleLayout.entries, r.inode ≠ 2 → r.inode = 11 := by decide +kernel
    rw [hfile r hr hne, sample_inodes.2, physicalBlock_buildFileInode (by decide)] at h
    have hb : b = 7 := by
      split_ifs at h with hl
      · cases h
        rfl
      · cases h
    rw [hb]
    exact ⟨sample_marked (by decide), fun h => absurd (sample_metadata h) (by decide), by decide⟩

theorem create_then_read_sample :
    WellFormed .dev sampleVolume 2048 sampleDisk.sectors sampleLayout ∧ ∃ node d₀ d₅ file e e',
      Ext4Node.newRoot .dev sampleVolume sampleDisk = .ok node d₀ ∧
      node.lookup .dev "b" d₅ = .ok (some file) e ∧ file.isDir = false ∧
      file.getSize = (nameBytes "new").length ∧
      file.read .dev 0 (nameBytes "new").length e = .ok (nameBytes "new") e' := by
  refine ⟨sample_wellFormed, ?_⟩
  have hrun : ((do
      let node ← Ext4Node.newRoot .dev sampleVolume
      let ino ← sampleVolume.allocateInode .dev
      let block ← sampleVolume.allocateBlock .dev
      sampleVolume.writeDataToBlock .dev block (nameBytes "new")
      sampleVolume.writeInode .dev ino (buildFileInode (nameBytes "new").length block)
      node.addEntry .dev "b" ino : FsProgram Unit) sampleDisk).value? = some () := by
    decide +kernel
  obtain ⟨d₅, hrun⟩ := ok_of_value? hrun
  obtain ⟨node, d₀, h₀, hrun⟩ := bind_ok hrun
  obtain ⟨ino, d₁, h₁, hrun⟩ := bind_ok hrun
  obtain ⟨block, d₂, h₂, hrun⟩ := bind_ok hrun
  obtain ⟨_, d₃, h₃, hrun⟩ := bind_ok hrun
  obtain ⟨_, d₄, h₄, h₅⟩ := bind_ok hrun
  have hnew : ∀ r ∈ sampleLayout.entries, r.inode ≠ 0 → r.name ≠ nameBytes "b" := by
    decide +kernel
  obtain ⟨⟨file, e, e', hfile⟩, _⟩ := create_then_read sample_wellFormed (d := sampleDisk)
    (fun _ => rfl) (by decide +kernel) (by decide +kernel) hnew h₀ h₁ h₂ h₃ h₄ h₅
  exact ⟨node, d₀, d₅, file, e, e', h₀, hfile⟩

end NwinOs.Fs.Ext4
