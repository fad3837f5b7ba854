import NwinOs.Fs.Ext4.Volume
import NwinOs.Fs.Equiv.BlockDevice

/-!
# What the volume operations do

For a volume with 2 or 4 KiB blocks whose first sector fits 32 bits (as every entry of a partition
table does), the sector arithmetic does not overflow, and each operation is a function of the
sectors: `descriptor`, `inodeAt` and the updates of `wp_allocateBit`, `wp_writeInode` and
`wp_writeDataToBlock`.
-/

namespace NwinOs.Fs.Ext4

open Effect Profile Option List Ext4Volume

/-! ### Geometry -/

/-- The block size is 2 or 4 KiB and the partition starts within 32 bits. -/
structure Geometry (v : Ext4Volume) (bs : ℕ) : Prop where
  size : (v.superBlock.sLogBlockSize = 1 ∧ bs = 2048) ∨ (v.superBlock.sLogBlockSize = 2 ∧ bs = 4096)
  startLba : v.startLba < 2 ^ 32

/-- The first sector of a block. -/
def sectorOf (v : Ext4Volume) (bs b : ℕ) : ℕ := v.startLba + b * (bs / 512)

/-- The sector lies in the block. -/
def InBlock (v : Ext4Volume) (bs b s : ℕ) : Prop :=
  sectorOf v bs b ≤ s ∧ s < sectorOf v bs b + bs / 512

section

variable {p : Profile} {v : Ext4Volume} {bs b b' s : ℕ}

variable (h : Geometry v bs)
include h

theorem Geometry.cases : bs = 2048 ∨ bs = 4096 := by
  rcases h.size with h | h
  · exact .inl h.2
  · exact .inr h.2

theorem Geometry.dvd : 512 ∣ bs := by
  rcases h.cases with rfl | rfl <;> decide

theorem Geometry.blockSize_eq : v.blockSize p = some bs := by
  rcases h.size with ⟨hlog, rfl⟩ | ⟨hlog, rfl⟩
  · rw [blockSize, Ext4SuperBlock.blockSize, hlog]
    exact shl_eq_some (by decide)
  · rw [blockSize, Ext4SuperBlock.blockSize, hlog]
    exact shl_eq_some (by decide)

theorem Geometry.bgdBlock_eq : bgdBlock bs = 1 := by
  rcases h.cases with rfl | rfl <;> rfl

theorem Geometry.blockSector_eq (hb : b < 2 ^ 50) :
    v.blockSector p bs b = some (sectorOf v bs b) := by
  have hstart := h.startLba
  unfold blockSector sectorOf
  rcases h.cases with rfl | rfl
  · rw [mul_eq_some (by omega), bind_some, add_eq_some (by omega)]
  · rw [mul_eq_some (by omega), bind_some, add_eq_some (by omega)]

theorem Geometry.inBlock_unique (h1 : InBlock v bs b s) (h2 : InBlock v bs b' s) : b = b' := by
  unfold InBlock sectorOf at h1 h2
  rcases h.cases with rfl | rfl <;> omega

theorem Geometry.inBlock_first : InBlock v bs b (sectorOf v bs b) := by
  unfold InBlock
  rcases h.cases with rfl | rfl <;> omega

theorem Geometry.sectorOf_lt (hb : b < 2 ^ 50) : sectorOf v bs b + bs / 512 < 2 ^ 64 := by
  have hstart := h.startLba
  unfold sectorOf
  rcases h.cases with rfl | rfl <;> omega

omit h

end

/-! ### Other block sizes

Nothing limits the block size of a volume that is mounted.  A sector number that is computed is the
one that the geometry gives, modulo the word. -/

section

variable {p : Profile} {v : Ext4Volume} {bs b s : ℕ}

/-- Block sizes are multiples of 1024, or zero when the shift drops all bits. -/
theorem dvd_of_blockSize (h : v.blockSize p = some bs) : 1024 ∣ bs := by
  have hpow : ∀ n, 1024 ∣ 1024 * 2 ^ n % 2 ^ 64 := fun n =>
    (Nat.dvd_mod_iff (by decide)).mpr (Nat.dvd_mul_right ..)
  unfold blockSize Ext4SuperBlock.blockSize Profile.shl at h
  split_ifs at h
  · exact Option.some.inj h ▸ hpow _
  · cases p with
    | dev => cases h
    | release => exact Option.some.inj h ▸ hpow _

/-- A block size that the driver computes, of at most 64 KiB, and a partition that starts below the
2 TiB that its 32-bit entry can name. -/
structure Layout (p : Profile) (v : Ext4Volume) (bs : ℕ) : Prop where
  blockSize_eq : v.blockSize p = some bs
  startLba : v.startLba < 2 ^ 32
  pos : 0 < bs
  le : bs ≤ 65536

namespace Layout

section

variable (h : Layout p v bs)
include h

theorem dvd : 512 ∣ bs :=
  Nat.dvd_trans (by decide) (dvd_of_blockSize h.blockSize_eq)

theorem sectorOf_lt (hb : b < 2 ^ 50) : sectorOf v bs b + bs / 512 < 2 ^ 58 := by
  have hstart := h.startLba
  have hle : bs / 512 ≤ 128 := Nat.div_le_div_right h.le
  have hmul : b * (bs / 512) ≤ 2 ^ 50 * 128 := Nat.mul_le_mul hb.le hle
  unfold sectorOf
  omega

theorem blockSector_eq (hb : b < 2 ^ 50) : v.blockSector p bs b = some (sectorOf v bs b) := by
  have hlt := h.sectorOf_lt hb
  unfold sectorOf at hlt
  unfold blockSector sectorOf
  rw [mul_eq_some (by omega), bind_some, add_eq_some (by omega)]

theorem inBlock_unique {b' : ℕ} (h1 : InBlock v bs b s) (h2 : InBlock v bs b' s) : b = b' := by
  have hpos : 0 < bs / 512 := Nat.div_pos (Nat.le_of_dvd h.pos h.dvd) (by decide)
  have hb : ∀ a, v.startLba + a * (bs / 512) ≤ s → s < v.startLba + a * (bs / 512) + bs / 512 →
      a = (s - v.startLba) / (bs / 512) := by
    intro a hlo hhi
    symm
    apply Nat.div_eq_of_lt_le
    · omega
    · rw [Nat.succ_mul]
      omega
  rw [hb b h1.1 h1.2, hb b' h2.1 h2.2]

end

end Layout

theorem Geometry.layout (h : Geometry v bs) : Layout p v bs := by
  refine ⟨h.blockSize_eq, h.startLba, ?_, ?_⟩
  · rcases h.cases with rfl | rfl <;> decide
  · rcases h.cases with rfl | rfl <;> decide

theorem eq_of_blockSector (h : v.blockSector p bs b = some s) : s = sectorOf v bs b % 2 ^ 64 := by
  obtain ⟨offset, hmul, hadd⟩ := bind_eq_some_iff.mp h
  rw [eq_of_add hadd, eq_of_mul hmul, Nat.add_mod_mod, sectorOf]

end

/-! ### Descriptors and inode slots -/

/-- The descriptor of a group in the given sector. -/
def descriptorIn (sectors : ℕ → Bytes) (g s : ℕ) : Ext4BlockGroupDescriptor :=
  .ofBytes (sectors s) (g * descriptorSize % 512)

section

variable (v : Ext4Volume)

variable (bs : ℕ)

variable (sectors : ℕ → Bytes)

/-- The descriptor in the first sector of the table. -/
def descriptor (g : ℕ) : Ext4BlockGroupDescriptor :=
  descriptorIn sectors g (sectorOf v bs (Ext4Volume.bgdBlock bs))

/-- The block group of an inode. -/
def groupOf (n : ℕ) : ℕ := (n - 1) / v.superBlock.sInodesPerGroup

/-- The index of an inode in its group. -/
def indexOf (n : ℕ) : ℕ := (n - 1) % v.superBlock.sInodesPerGroup

/-- The group has an inode. -/
def HasGroup (g : ℕ) : Prop :=
  g * v.superBlock.sInodesPerGroup < v.superBlock.sInodesCount

/-- The byte of the volume at which an inode starts, for a given inode table. -/
def inodeByte (bs table n : ℕ) : ℕ := table * bs + indexOf v n * 256

variable (n : ℕ)

/-- The byte of the volume at which an inode starts. -/
def slotByte : ℕ :=
  inodeByte v bs (descriptor v bs sectors (groupOf v n)).bgInodeTableLo n

/-- The sector of an inode. -/
def slotSector : ℕ :=
  v.startLba + slotByte v bs sectors n / 512

/-- The offset of an inode in its sector. -/
def slotOffset : ℕ :=
  slotByte v bs sectors n % 512

/-- The inode that the sectors hold. -/
def inodeAt : Ext4Inode :=
  .ofBytes (sectors (slotSector v bs sectors n)) (slotOffset v bs sectors n)

/-- The inode numbers that the volume accepts. -/
def ValidInode : Prop := 1 ≤ n ∧ n ≤ v.superBlock.sInodesCount

end

instance (v : Ext4Volume) (n : ℕ) : Decidable (ValidInode v n) :=
  inferInstanceAs (Decidable (_ ∧ _))

section

variable {p : Profile} {v : Ext4Volume} {bs n : ℕ} {sectors : ℕ → Bytes}

theorem descriptor_table_lt (g : ℕ) : (descriptor v bs sectors g).bgInodeTableLo < 2 ^ 32 :=
  Bytes.get_lt ..

theorem descriptor_bitmap_lt (g : ℕ) : (descriptor v bs sectors g).bgBlockBitmapLo < 2 ^ 32 ∧
    (descriptor v bs sectors g).bgInodeBitmapLo < 2 ^ 32 :=
  ⟨Bytes.get_lt .., Bytes.get_lt ..⟩

theorem indexOf_lt (hn : ValidInode v n) : indexOf v n < 2 ^ 32 := by
  have h1 : indexOf v n ≤ n - 1 := Nat.mod_le _ _
  have h2 := v.superBlock.inodesCount_lt
  have h3 := hn.2
  omega

theorem slotOffset_cases (hbs : 512 ∣ bs) :
    slotOffset v bs sectors n = 0 ∨ slotOffset v bs sectors n = 256 := by
  obtain ⟨c, rfl⟩ := hbs
  unfold slotOffset slotByte inodeByte
  rw [Nat.mul_left_comm]
  omega

theorem slotSector_inBlock (hg : Geometry v bs) :
    InBlock v bs ((descriptor v bs sectors (groupOf v n)).bgInodeTableLo
      + indexOf v n * 256 / bs) (slotSector v bs sectors n) := by
  unfold InBlock sectorOf slotSector slotByte inodeByte
  rcases hg.cases with rfl | rfl <;> omega

end

/-! ### The inode of a new file -/

section

variable {p : Profile} {fileSize block : ℕ}

theorem image_ofBytes {b : Bytes} {o w : ℕ} (h : o + w ≤ inodeStructSize) :
    (Ext4Inode.ofBytes b 0).image.get o w = b.get o w :=
  Bytes.get_congr fun i _ h2 => Bytes.splice_slice_of_lt (by omega)

theorem buildFileInode_field (o w n : ℕ) (hf : (o, w, n) ∈ fileInodeFields fileSize block)
    (h : o + w ≤ 116) : (buildFileInode fileSize block).image.get o w = n % 256 ^ w := by
  rw [buildFileInode, image_ofBytes h]
  exact Bytes.get_putAll (by simp [fileInodeFields]) hf

theorem isDirectory_buildFileInode : (buildFileInode fileSize block).isDirectory = false := by
  have hmode : (buildFileInode fileSize block).iMode = 0x81A4 :=
    buildFileInode_field 0 2 0x81A4 (by simp [fileInodeFields]) (by decide)
  rw [Ext4Inode.isDirectory, hmode]
  decide

theorem size_buildFileInode (h : fileSize < 2 ^ 32) :
    (buildFileInode fileSize block).size = fileSize := by
  have hlo : (buildFileInode fileSize block).iSizeLo = fileSize % 256 ^ 4 :=
    buildFileInode_field 4 4 fileSize (by simp [fileInodeFields]) (by decide)
  have hhi : (buildFileInode fileSize block).iSizeHi = 0 := by
    rw [Ext4Inode.iSizeHi, buildFileInode, image_ofBytes (by decide),
      Bytes.get_putAll_of_disjoint (by simp [fileInodeFields])]
    rfl
  rw [Ext4Inode.size, hlo, hhi]
  omega

theorem physicalBlock_buildFileInode (h : block < 2 ^ 32) (l : ℕ) :
    (buildFileInode fileSize block).physicalBlock p l
      = some (if l = 0 then some block else none) := by
  have hmagic : (buildFileInode fileSize block).ehMagic = 0xF30A :=
    buildFileInode_field 40 2 0xF30A (by simp [fileInodeFields]) (by decide)
  have hentries : (buildFileInode fileSize block).ehEntries = 1 :=
    buildFileInode_field 42 2 1 (by simp [fileInodeFields]) (by decide)
  have hdepth : (buildFileInode fileSize block).ehDepth = 0 :=
    buildFileInode_field 46 2 0 (by simp [fileInodeFields]) (by decide)
  have hblock : (buildFileInode fileSize block).eeBlock 0 = 0 :=
    buildFileInode_field 52 4 0 (by simp [fileInodeFields]) (by decide)
  have hlen : (buildFileInode fileSize block).eeLen 0 = 1 :=
    buildFileInode_field 56 2 1 (by simp [fileInodeFields]) (by decide)
  have hstart : (buildFileInode fileSize block).eeStart 0 = block := by
    have hhi : (buildFileInode fileSize block).image.get 58 2 = 0 :=
      buildFileInode_field 58 2 0 (by simp [fileInodeFields]) (by decide)
    have hlo : (buildFileInode fileSize block).image.get 60 4 = block % 256 ^ 4 :=
      buildFileInode_field 60 4 block (by simp [fileInodeFields]) (by decide)
    have heq : (buildFileInode fileSize block).eeStart 0
        = (buildFileInode fileSize block).image.get 58 2 * 2 ^ 32
          + (buildFileInode fileSize block).image.get 60 4 := rfl
    omega
  rw [Ext4Inode.physicalBlock, hmagic, hdepth, hentries, if_neg (by decide), if_pos rfl,
    Ext4Inode.extentSearch, hblock, hlen, hstart, if_neg (by decide), if_pos (Nat.zero_le l),
    add_eq_some (by decide), bind_some]
  by_cases hl : l = 0
  · rw [hl]
    rfl
  · rw [if_neg (by omega), if_neg hl]
    rfl

end

/-! ### Bitmaps -/

/-- A bit of a bitmap. -/
def bitAt (bitmap : Bytes) (i : ℕ) : Bool := Bits.testBit (bitmap (i / 8)) (i % 8)

/-- The number is that of the lowest clear bit of a bitmap sector. -/
structure LowestClear (bitmap : Bytes) (n : ℕ) : Prop where
  lt : n < 4096
  clear : bitAt bitmap n = false
  lower : ∀ k < n, bitAt bitmap k = true

section

variable {bitmap : Bytes} {i j : ℕ}

theorem bitAt_eq (hj : j < 8) : bitAt bitmap (i * 8 + j) = Bits.testBit (bitmap i) j := by
  have h1 : (i * 8 + j) / 8 = i := by omega
  have h2 : (i * 8 + j) % 8 = j := by omega
  rw [bitAt, h1, h2]

theorem findSome?_range_eq_some {β : Type} {n : ℕ} {f : ℕ → Option β} {b : β}
    (h : (List.range n).findSome? f = some b) : ∃ i < n, f i = some b ∧ ∀ k < i, f k = none := by
  induction n with
  | zero => cases h
  | succ n ih =>
    rw [range_succ, findSome?_append] at h
    cases hn : (List.range n).findSome? f with
    | some c =>
      rw [hn, some_or] at h
      obtain ⟨i, hi, hfi, hlow⟩ := ih (hn.trans h)
      exact ⟨i, by omega, hfi, hlow⟩
    | none =>
      rw [hn, none_or, findSome?_singleton] at h
      rw [findSome?_eq_none_iff] at hn
      exact ⟨n, Nat.lt_succ_self n, h, fun k hk => hn k (mem_range.mpr hk)⟩

/-- The scan of one byte. -/
def firstFreeBitOfByte (bitmap : Bytes) (byteIndex : ℕ) : Option (ℕ × ℕ) :=
  if bitmap byteIndex ≠ 0xFF then
    (List.range 8).findSome? fun bitIndex =>
      if Bits.testBit (bitmap byteIndex) bitIndex = false then some (byteIndex, bitIndex) else none
  else none

theorem firstFreeBit_eq :
    firstFreeBit bitmap = (List.range 512).findSome? (firstFreeBitOfByte bitmap) := rfl

theorem full_of_firstFreeBitOfByte (h : firstFreeBitOfByte bitmap i = none) (hj : j < 8) :
    Bits.testBit (bitmap i) j = true := by
  unfold firstFreeBitOfByte at h
  by_cases hfull : bitmap i = 0xFF
  · rw [hfull]
    exact Bits.testBit_allOnes hj
  · rw [if_pos hfull, findSome?_eq_none_iff] at h
    have hbit := h j (mem_range.mpr hj)
    split_ifs at hbit with hclear
    simpa using hclear

/-- **The scan finds the lowest clear bit.** -/
theorem firstFreeBit_eq_some (h : firstFreeBit bitmap = some (i, j)) :
    i < 512 ∧ j < 8 ∧ LowestClear bitmap (i * 8 + j) := by
  rw [firstFreeBit_eq] at h
  obtain ⟨i', hi', hbyte, hbytes⟩ := findSome?_range_eq_some h
  unfold firstFreeBitOfByte at hbyte
  split_ifs at hbyte
  obtain ⟨j', hj', hbit, hbits⟩ := findSome?_range_eq_some hbyte
  split_ifs at hbit with hclear
  cases hbit
  refine ⟨hi', hj', by omega, ?_, fun k hk => ?_⟩
  · rw [bitAt_eq hj']
    exact hclear
  · have hk8 : k % 8 < 8 := Nat.mod_lt k (by decide)
    by_cases hsame : k / 8 = i
    · have hlow := hbits (k % 8) (by omega)
      split_ifs at hlow with hclear'
      rw [bitAt, hsame]
      simpa using hclear'
    · exact full_of_firstFreeBitOfByte (hbytes (k / 8) (by omega)) hk8

theorem firstFreeBit_eq_none_iff :
    firstFreeBit bitmap = none ↔ ∀ k < 4096, bitAt bitmap k = true := by
  constructor
  · intro h k hk
    rw [firstFreeBit_eq, findSome?_eq_none_iff] at h
    exact full_of_firstFreeBitOfByte (h (k / 8) (mem_range.mpr (by omega)))
      (Nat.mod_lt k (by decide))
  · intro h
    cases hfree : firstFreeBit bitmap with
    | none => rfl
    | some ij =>
      obtain ⟨_, _, hlow⟩ := firstFreeBit_eq_some hfree
      have := hlow.clear
      rw [h _ hlow.lt] at this
      cases this

end

/-! ### What the operations do -/

section

variable {p : Profile} {v : Ext4Volume} {bs n : ℕ} {d : BlockDevice}
  {E : FsError → BlockDevice → Prop} {F : BlockDevice → Prop}
  {Q : Ext4BlockGroupDescriptor → BlockDevice → Prop}

theorem wp_readDescriptor_any {g : ℕ} (hl : Layout p v bs)
    (hQ : d.fails d.accesses.length = false → ∀ d', SameDisk d d' →
      Q (descriptor v bs d.sectors g) d')
    (hR : ∀ d', SameDisk d d' → (∃ j, d.fails j = true) → E .blockRead d') :
    wp (v.readDescriptor p bs g) Q E F d := by
  have hlt : bgdBlock bs < 2 ^ 50 := by
    unfold bgdBlock
    split_ifs <;> decide
  rw [readDescriptor, hl.blockSector_eq hlt, wp_bind, wp_ofOption_some, wp_bind, wp_readBlock_iff]
  by_cases hfails : d.fails d.accesses.length = true
  · rw [if_pos hfails]
    exact hR _ .record ⟨_, hfails⟩
  · rw [if_neg hfails]
    exact hQ (Bool.eq_false_of_not_eq_true hfails) _ .record

theorem wp_readDescriptor {g : ℕ} (hl : Layout p v bs) (h : d.Reliable)
    (hQ : ∀ d', d'.Reliable → d'.sectors = d.sectors → Q (descriptor v bs d.sectors g) d') :
    wp (v.readDescriptor p bs g) Q E F d :=
  wp_readDescriptor_any hl (fun _ d' hsame => hQ d' (hsame.reliable h) hsame.sectors)
    fun _ _ hfails => absurd hfails h.not_exists

/-- An allocation sets a bit that was clear, and changes nothing else. -/
theorem wp_allocateBit {bitmapBlock : Ext4BlockGroupDescriptor → ℕ} {exhausted : FsError}
    {Q : ℕ → BlockDevice → Prop} (hg : Geometry v bs) (h : d.Reliable)
    (hb : bitmapBlock (descriptor v bs d.sectors 0) < 2 ^ 32)
    (hQ : ∀ i j d', i < 512 → j < 8 → d'.Reliable →
      let sector := sectorOf v bs (bitmapBlock (descriptor v bs d.sectors 0))
      let bitmap := d.sectors sector
      Bits.testBit (bitmap i) j = false →
      d'.sectors = storeSector d.sectors sector
        (Function.update bitmap i (Bits.setBit (bitmap i) j)) →
      Q (i * 8 + j) d')
    (hE : ∀ d', E exhausted d') :
    wp (v.allocateBit p bitmapBlock exhausted) Q E F d := by
  rw [allocateBit, hg.blockSize_eq, wp_bind, wp_ofOption_some, wp_bind]
  refine wp_readDescriptor hg.layout h fun d₁ h₁ hs₁ => ?_
  rw [hg.blockSector_eq (by omega), wp_bind, wp_ofOption_some, wp_bind]
  refine wp_readBlock h₁ fun d₂ h₂ hs₂ => ?_
  rw [hs₁] at hs₂ ⊢
  cases hfree : firstFreeBit
      (d.sectors (sectorOf v bs (bitmapBlock (descriptor v bs d.sectors 0)))) with
  | none => exact hE d₂
  | some ij =>
    obtain ⟨i, j⟩ := ij
    obtain ⟨hi, hj, hlow⟩ := firstFreeBit_eq_some hfree
    have hbit := hlow.clear
    rw [bitAt_eq hj] at hbit
    rw [wp_bind]
    refine wp_writeBlock h₂ fun d₃ h₃ hs₃ => ?_
    rw [hs₂] at hs₃
    exact hQ i j d₃ hi hj h₃ hbit hs₃

section

variable (hl : Layout p v bs)
include hl

theorem wp_locateInode_any {Q : ℕ × ℕ → BlockDevice → Prop}
    (hipg : 0 < v.superBlock.sInodesPerGroup)
    (hQ : ValidInode v n → d.fails d.accesses.length = false → ∀ d', SameDisk d d' →
      Q (slotSector v bs d.sectors n, slotOffset v bs d.sectors n) d')
    (hE : ¬ ValidInode v n → E .corruptedDirectory d)
    (hR : ∀ d', SameDisk d d' → (∃ j, d.fails j = true) → E .blockRead d') :
    wp (v.locateInode p n) Q E F d := by
  unfold locateInode
  by_cases hn : ValidInode v n
  · have hrange : ¬ (n < 1 ∨ v.superBlock.sInodesCount < n) := by
      have := hn.1
      have := hn.2
      omega
    rw [if_neg hrange, hl.blockSize_eq, wp_bind, wp_ofOption_some]
    dsimp only
    rw [if_neg (by omega), wp_bind, wp_ofOption_some, wp_bind]
    refine wp_readDescriptor_any hl (fun hfirst d₁ hsame => ?_) hR
    -- no overflow: the table starts below `2^32` blocks, the index is below `2^32`
    have htable := @descriptor_table_lt v bs d.sectors (groupOf v n)
    have hidx := indexOf_lt hn
    have hstart := hl.startLba
    have hbyte : (descriptor v bs d.sectors (groupOf v n)).bgInodeTableLo * bs ≤ 2 ^ 32 * 65536 :=
      Nat.mul_le_mul htable.le hl.le
    change wp (Program.ofOption
      (p.mul 64 (descriptor v bs d.sectors (groupOf v n)).bgInodeTableLo bs)
      >>= fun tableOffset => Program.ofOption (p.add 64 tableOffset (indexOf v n * 256))
      >>= fun byteOffset => Program.ofOption (p.add 64 v.startLba (byteOffset / 512))
      >>= fun sector => pure (sector, byteOffset % 512)) Q E F d₁
    rw [mul_eq_some (by omega), wp_bind, wp_ofOption_some,
      add_eq_some (by omega), wp_bind, wp_ofOption_some,
      add_eq_some (by omega), wp_bind, wp_ofOption_some, wp_pure]
    exact hQ hn hfirst d₁ hsame
  · have hrange : n < 1 ∨ v.superBlock.sInodesCount < n := by
      by_contra hcon
      exact hn ⟨by omega, by omega⟩
    rw [if_pos hrange]
    exact hE hn

theorem wp_locateInode {Q : ℕ × ℕ → BlockDevice → Prop} (h : d.Reliable)
    (hipg : 0 < v.superBlock.sInodesPerGroup)
    (hQ : ValidInode v n → ∀ d', d'.Reliable → d'.sectors = d.sectors →
      Q (slotSector v bs d.sectors n, slotOffset v bs d.sectors n) d')
    (hE : ¬ ValidInode v n → E .corruptedDirectory d) :
    wp (v.locateInode p n) Q E F d :=
  wp_locateInode_any hl hipg
    (fun hn _ d' hsame => hQ hn d' (hsame.reliable h) hsame.sectors) hE
    fun _ _ hfails => absurd hfails h.not_exists

theorem wp_readInode_any {Q : Ext4Inode → BlockDevice → Prop}
    (hipg : 0 < v.superBlock.sInodesPerGroup)
    (hQ : ValidInode v n → d.fails d.accesses.length = false → ∀ d', SameDisk d d' →
      Q (inodeAt v bs d.sectors n) d')
    (hE : ¬ ValidInode v n → E .corruptedDirectory d)
    (hR : ∀ d', SameDisk d d' → (∃ j, d.fails j = true) → E .blockRead d') :
    wp (v.readInode p n) Q E F d := by
  rw [readInode, wp_bind]
  refine wp_locateInode_any hl hipg (fun hn hfirst d₁ hsame => ?_) hE hR
  rw [wp_bind, wp_readBlock_iff]
  by_cases hfails : d₁.fails d₁.accesses.length = true
  · rw [if_pos hfails]
    rw [hsame.fails] at hfails
    exact hR _ (hsame.trans .record) ⟨_, hfails⟩
  · rw [if_neg hfails, hsame.sectors]
    exact hQ hn hfirst _ (hsame.trans .record)

theorem wp_readInode {Q : Ext4Inode → BlockDevice → Prop} (h : d.Reliable)
    (hipg : 0 < v.superBlock.sInodesPerGroup)
    (hQ : ValidInode v n → ∀ d', d'.Reliable → d'.sectors = d.sectors →
      Q (inodeAt v bs d.sectors n) d')
    (hE : ¬ ValidInode v n → E .corruptedDirectory d) :
    wp (v.readInode p n) Q E F d :=
  wp_readInode_any hl hipg
    (fun hn _ d' hsame => hQ hn d' (hsame.reliable h) hsame.sectors) hE
    fun _ _ hfails => absurd hfails h.not_exists

/-- `writeInode` changes the bytes of the struct at the inode's slot. -/
theorem wp_writeInode {inode : Ext4Inode} {Q : Unit → BlockDevice → Prop}
    (h : d.Reliable) (hipg : 0 < v.superBlock.sInodesPerGroup)
    (hQ : ValidInode v n → ∀ d', d'.Reliable →
      d'.sectors = storeSector d.sectors (slotSector v bs d.sectors n)
        ((d.sectors (slotSector v bs d.sectors n)).splice (slotOffset v bs d.sectors n)
          inode.bytes) → Q () d')
    (hE : ¬ ValidInode v n → E .corruptedDirectory d) :
    wp (v.writeInode p n inode) Q E F d := by
  rw [writeInode, wp_bind]
  refine wp_locateInode hl h hipg (fun hn d₁ h₁ hs₁ => ?_) hE
  rw [wp_bind]
  refine wp_readBlock h₁ fun d₂ h₂ hs₂ => ?_
  refine wp_writeBlock h₂ fun d₃ h₃ hs₃ => ?_
  rw [hs₂, hs₁] at hs₃
  exact hQ hn d₃ h₃ hs₃

end

theorem wp_writeDataToBlock {block : ℕ} {data : List Byte} {Q : Unit → BlockDevice → Prop}
    (hg : Geometry v bs) (h : d.Reliable) (hb : block < 2 ^ 50) (hdata : data.length ≤ bs)
    (hQ : ∀ d', d'.Reliable → d'.sectors = storeSectors d.sectors (sectorOf v bs block) (bs / 512)
      (Bytes.splice (fun _ => 0) 0 data) → Q () d') :
    wp (v.writeDataToBlock p block data) Q E F d := by
  rw [writeDataToBlock, hg.blockSize_eq, wp_bind, wp_ofOption_some,
    if_neg (by omega), hg.blockSector_eq hb, wp_bind, wp_ofOption_some]
  exact wp_writeSectors h (hg.sectorOf_lt hb) hQ

end

/-- The sample volumes have sixteen inodes. -/
theorem sixteen_lt : 16 < 2 ^ 32 := by decide

end NwinOs.Fs.Ext4
