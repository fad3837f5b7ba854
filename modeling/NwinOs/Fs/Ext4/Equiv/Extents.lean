import NwinOs.Fs.Ext4.Equiv.Node

/-!
# Extents

The translation of a logical block searches the extents in `i_block` one after the other.

* `extent_translation_safe_iff`: on which inodes it stays within `i_block` and computes without
  overflow.
* `ext4_read_contents`: on a leaf whose extents map the whole file, `read` returns the file's bytes.
* `sparse_read_iff`: `read` meets the contract of a file with holes or unwritten extents only if
  there are none.
-/

namespace NwinOs.Fs.Ext4

open Effect Profile Option List Ext4Inode Nat

namespace Ext4Inode

/-! ### The search -/

section

variable (inode : Ext4Inode)

/-- The extent covers the logical block, with the length that its field says. -/
def Covers (l i : ℕ) : Prop :=
  inode.eeBlock i ≤ l ∧ l < inode.eeBlock i + inode.eeLen i

/-- The search goes past the extent without an overflow. -/
def Passed (l i : ℕ) : Prop :=
  inode.eeBlock i ≤ l →
    inode.eeBlock i + inode.eeLen i < 2 ^ 32 ∧ inode.eeBlock i + inode.eeLen i ≤ l

/-- The search ends at the extent without an overflow. -/
def Hit (l i : ℕ) : Prop :=
  inode.Covers l i ∧ inode.eeBlock i + inode.eeLen i < 2 ^ 32

/-- The physical block that an extent gives a logical one. -/
def blockIn (l i : ℕ) : ℕ := inode.eeStart i + (l - inode.eeBlock i)

end

variable {p : Profile} {inode : Ext4Inode} {l b i k count : ℕ} {behind : Option (Option ℕ)}

theorem extentSearch_passed (hi : i < 4) (h : inode.Passed l i) :
    inode.extentSearch p l behind (count + 1) i = inode.extentSearch p l behind count (i + 1) := by
  rw [extentSearch, if_neg (by omega)]
  by_cases hle : inode.eeBlock i ≤ l
  · obtain ⟨hlt, hend⟩ := h hle
    rw [if_pos hle, add_eq_some hlt, bind_some, if_neg (by omega)]
  · rw [if_neg hle]

theorem extentSearch_hit (hi : i < 4) (h : inode.Hit l i) :
    inode.extentSearch p l behind (count + 1) i = some (some (inode.blockIn l i)) := by
  rw [extentSearch, if_neg (by omega), if_pos h.1.1, add_eq_some h.2, bind_some,
    if_pos h.1.2, blockIn]

theorem extentSearch_eq_none (h : ∀ j, i ≤ j → j < i + count → j < 4 ∧ inode.Passed l j) :
    inode.extentSearch p l behind count i = some none := by
  induction count generalizing i with
  | zero => rfl
  | succ count ih =>
    obtain ⟨hi, hpass⟩ := h i le_rfl (by omega)
    rw [extentSearch_passed hi hpass]
    exact ih fun j h1 h2 => h j (by omega) (by omega)

theorem extentSearch_eq_some (hik : i ≤ k) (hk : k < i + count) (hk4 : k < 4)
    (hhit : inode.Hit l k) (h : ∀ j, i ≤ j → j < k → inode.Passed l j) :
    inode.extentSearch p l behind count i = some (some (inode.blockIn l k)) := by
  induction count generalizing i with
  | zero => omega
  | succ count ih =>
    by_cases heq : i = k
    · subst heq
      exact extentSearch_hit hk4 hhit
    · rw [extentSearch_passed (by omega) (h i le_rfl (by omega))]
      exact ih (by omega) (by omega) fun j h1 h2 => h j (by omega) h2

theorem extentSearch_dev {r : Option ℕ} (h : inode.extentSearch .dev l none count i = some r) :
    (∀ j, i ≤ j → j < i + count → j < 4 ∧ inode.Passed l j) ∨
    ∃ k, i ≤ k ∧ k < i + count ∧ k < 4 ∧ inode.Hit l k ∧
      (∀ j, i ≤ j → j < k → inode.Passed l j) ∧ r = some (inode.blockIn l k) := by
  induction count generalizing i with
  | zero => exact .inl fun j h1 h2 => by omega
  | succ count ih =>
    have hi : i < 4 := by
      by_contra hi
      rw [extentSearch, if_pos (by omega)] at h
      cases h
    -- what follows once the extent is passed
    have hnext : inode.Passed l i →
        (∀ j, i ≤ j → j < i + (count + 1) → j < 4 ∧ inode.Passed l j) ∨
        ∃ k, i ≤ k ∧ k < i + (count + 1) ∧ k < 4 ∧ inode.Hit l k ∧
          (∀ j, i ≤ j → j < k → inode.Passed l j) ∧ r = some (inode.blockIn l k) := by
      intro hpass
      have hfirst : ∀ {j}, i ≤ j → ¬ i + 1 ≤ j → inode.Passed l j := by
        intro j h1 h2
        obtain rfl : i = j := by omega
        exact hpass
      rw [extentSearch_passed hi hpass] at h
      rcases ih h with hall | ⟨k, hik, hk, hk4, hhit, hbefore, hr⟩
      · left
        intro j h1 h2
        by_cases hj : i + 1 ≤ j
        · exact hall j hj (by omega)
        · exact ⟨by omega, hfirst h1 hj⟩
      · right
        refine ⟨k, by omega, by omega, hk4, hhit, fun j h1 h2 => ?_, hr⟩
        by_cases hj : i + 1 ≤ j
        · exact hbefore j hj h2
        · exact hfirst h1 hj
    by_cases hle : inode.eeBlock i ≤ l
    · -- the sum was computed, so it fits
      have hlt : inode.eeBlock i + inode.eeLen i < 2 ^ 32 := by
        by_contra hlt
        rw [extentSearch, if_neg (by omega), if_pos hle, Profile.add, Profile.checked,
          if_neg hlt] at h
        cases h
      by_cases hend : l < inode.eeBlock i + inode.eeLen i
      · have hhit : inode.Hit l i := ⟨⟨hle, hend⟩, hlt⟩
        rw [extentSearch_hit hi hhit] at h
        exact .inr ⟨i, le_rfl, by omega, hi, hhit, fun j h1 h2 => by omega,
          (Option.some.inj h).symm⟩
      · exact hnext fun _ => ⟨hlt, by omega⟩
    · exact hnext fun h' => absurd h' hle

end Ext4Inode

/-! ### Safety of the translation -/

/-- The translation of the block is safe: with overflow checks it neither leaves `i_block` nor
overflows, and in both profiles it finds a sector only for a block that one of the (at most four)
extents covers. -/
def SafeTranslation (v : Ext4Volume) (inode : Ext4Inode) (l : ℕ) : Prop :=
  (∃ r, v.logicalToPhysicalSector .dev inode l = some r) ∧
  ∀ p s, v.logicalToPhysicalSector p inode l = some (some s) →
    ∃ i < inode.ehEntries, i < 4 ∧ inode.Covers l i

/-- There is no leaf to search; or there are at most four extents, all of which the search passes;
or it passes all before one that covers the block, and the sector of that block is a 64-bit number.
-/
def TranslationFits (v : Ext4Volume) (bs : ℕ) (inode : Ext4Inode) (l : ℕ) : Prop :=
  inode.ehMagic ≠ 0xF30A ∨ inode.ehDepth ≠ 0 ∨
  (∀ j < inode.ehEntries, j < 4 ∧ inode.Passed l j) ∨
  ∃ k < inode.ehEntries, k < 4 ∧ inode.Hit l k ∧ (∀ j < k, inode.Passed l j) ∧
    sectorOf v bs (inode.blockIn l k) < 2 ^ 64

section

variable {p : Profile} {v : Ext4Volume} {bs l b s : ℕ} {inode : Ext4Inode}

theorem physicalBlock_of_leaf (hmagic : inode.ehMagic = 0xF30A) (hdepth : inode.ehDepth = 0) :
    inode.physicalBlock p l = inode.extentSearch p l none inode.ehEntries 0 := by
  rw [physicalBlock, if_neg (by omega), if_pos hdepth]

theorem physicalBlock_of_not_leaf (h : inode.ehMagic ≠ 0xF30A ∨ inode.ehDepth ≠ 0) :
    inode.physicalBlock p l = some none := by
  unfold physicalBlock
  by_cases hmagic : inode.ehMagic = 0xF30A
  · rw [if_neg (by omega), if_neg (by omega)]
  · rw [if_pos hmagic]

theorem logicalToPhysicalSector_of_none (hbs : v.blockSize p = some bs)
    (h : inode.physicalBlock p l = some none) :
    v.logicalToPhysicalSector p inode l = some none := by
  rw [Ext4Volume.logicalToPhysicalSector, hbs, bind_some, h, bind_some]

theorem logicalToPhysicalSector_of_some (hbs : v.blockSize p = some bs)
    (h : inode.physicalBlock p l = some (some b)) (hlt : sectorOf v bs b < 2 ^ 64) :
    v.logicalToPhysicalSector p inode l = some (some (sectorOf v bs b)) := by
  have hmul : b * (bs / 512) < 2 ^ 64 := lt_of_le_of_lt (Nat.le_add_left ..) hlt
  rw [Ext4Volume.logicalToPhysicalSector, hbs, bind_some, h, bind_some]
  dsimp only
  rw [Ext4Volume.blockSector, mul_eq_some hmul, bind_some, add_eq_some hlt]
  rfl

theorem physicalBlock_of_sector (h : v.logicalToPhysicalSector p inode l = some (some s)) :
    ∃ b, inode.physicalBlock p l = some (some b) := by
  obtain ⟨_, _, h⟩ := bind_eq_some_iff.mp h
  obtain ⟨m, hm, h⟩ := bind_eq_some_iff.mp h
  cases m with
  | none => cases h
  | some b => exact ⟨b, hm⟩

theorem sectorOf_lt_of_dev (h : v.blockSector .dev bs b = some s) : sectorOf v bs b < 2 ^ 64 := by
  obtain ⟨offset, hmul, hadd⟩ := bind_eq_some_iff.mp h
  have hlt := add_lt_of_dev hadd
  rw [(eq_mul_of_dev hmul).1] at hlt
  exact hlt

theorem translationFits_of_dev (hbs : v.blockSize .dev = some bs) {r : Option ℕ}
    (h : v.logicalToPhysicalSector .dev inode l = some r) : TranslationFits v bs inode l := by
  by_cases hleaf : inode.ehMagic ≠ 0xF30A ∨ inode.ehDepth ≠ 0
  · exact hleaf.elim .inl fun hdepth => .inr (.inl hdepth)
  · obtain ⟨hmagic, hdepth⟩ : inode.ehMagic = 0xF30A ∧ inode.ehDepth = 0 := by omega
    unfold Ext4Volume.logicalToPhysicalSector at h
    rw [hbs, bind_some, physicalBlock_of_leaf hmagic hdepth] at h
    obtain ⟨m, hm, h⟩ := bind_eq_some_iff.mp h
    refine .inr (.inr ?_)
    rcases extentSearch_dev hm with hall | ⟨k, _, hk, hk4, hhit, hbefore, rfl⟩
    · exact .inl fun j hj => hall j (zero_le j) (by omega)
    · obtain ⟨s, hs, _⟩ := map_eq_some_iff.mp h
      exact .inr ⟨k, by omega, hk4, hhit, fun j hj => hbefore j (zero_le j) hj,
        sectorOf_lt_of_dev hs⟩

end

/-- **On which inodes the translation of a block is safe**: exactly on those that `TranslationFits`
describes. -/
theorem extent_translation_safe_iff {v : Ext4Volume} {bs : ℕ} (hbs : v.blockSize .dev = some bs)
    (inode : Ext4Inode) (l : ℕ) : SafeTranslation v inode l ↔ TranslationFits v bs inode l := by
  constructor
  · rintro ⟨⟨r, h⟩, _⟩
    exact translationFits_of_dev hbs h
  · intro hfits
    by_cases hleaf : inode.ehMagic ≠ 0xF30A ∨ inode.ehDepth ≠ 0
    · refine ⟨⟨none, logicalToPhysicalSector_of_none hbs (physicalBlock_of_not_leaf hleaf)⟩, ?_⟩
      intro p s h
      obtain ⟨b, hb⟩ := physicalBlock_of_sector h
      rw [physicalBlock_of_not_leaf hleaf] at hb
      cases hb
    · obtain ⟨hmagic, hdepth⟩ : inode.ehMagic = 0xF30A ∧ inode.ehDepth = 0 := by omega
      rcases hfits with h | h | hall | ⟨k, hk, hk4, hhit, hbefore, hlt⟩
      · exact absurd hmagic h
      · exact absurd hdepth h
      · -- every extent is passed
        have hnone : ∀ p, inode.physicalBlock p l = some none := fun p => by
          rw [physicalBlock_of_leaf hmagic hdepth]
          exact Ext4Inode.extentSearch_eq_none fun j _ hj => hall j (by omega)
        refine ⟨⟨none, logicalToPhysicalSector_of_none hbs (hnone .dev)⟩, fun p s h => ?_⟩
        obtain ⟨b, hb⟩ := physicalBlock_of_sector h
        rw [hnone p] at hb
        cases hb
      · -- the search ends at the `k`-th extent
        have hsome : inode.physicalBlock .dev l = some (some (inode.blockIn l k)) := by
          rw [physicalBlock_of_leaf hmagic hdepth]
          exact Ext4Inode.extentSearch_eq_some (Nat.zero_le k) (by omega) hk4 hhit
            fun j _ hj => hbefore j hj
        exact ⟨⟨_, logicalToPhysicalSector_of_some hbs hsome hlt⟩,
          fun p s _ => ⟨k, hk, hk4, hhit.1⟩⟩

/-- A volume of 2 KiB blocks. -/
def extentVolume : Ext4Volume := ⟨2048, ⟨16, 1, 16, 0xEF53, sixteen_lt, sixteen_lt⟩⟩

/-- The inode of a file of two blocks with one extent, which starts at a given logical block and has
a given length. -/
def extentInode (entries block len : ℕ) : Ext4Inode :=
  .ofBytes (Bytes.putAll (fun _ => 0)
    [(4, 4, 4096), (40, 2, 0xF30A), (42, 2, entries), (52, 4, block), (56, 2, len), (60, 4, 20)]) 0

theorem extent_translation_safe_sample :
    (∃ k, (extentInode 1 0 2).Hit 1 k) ∧ SafeTranslation extentVolume (extentInode 1 0 2) 1 := by
  have hhit : (extentInode 1 0 2).Hit 1 0 := by
    unfold Ext4Inode.Hit Ext4Inode.Covers
    decide +kernel
  have hfits : (0 < (extentInode 1 0 2).ehEntries) ∧
      sectorOf extentVolume 2048 ((extentInode 1 0 2).blockIn 1 0) < 2 ^ 64 := by
    decide +kernel
  have hbs : extentVolume.blockSize .dev = some 2048 := by decide
  refine ⟨⟨0, hhit⟩, (extent_translation_safe_iff hbs _ _).mpr ?_⟩
  exact .inr (.inr (.inr ⟨0, hfits.1, by decide, hhit, fun j hj => by omega, hfits.2⟩))

/-- With a count of five the search leaves `i_block`; and the length of an extent that starts at the
last logical block overflows, which without checks hides the block from the search. -/
theorem extent_translation_unsafe :
    (∀ p, extentVolume.logicalToPhysicalSector p (extentInode 5 0 2) 2 = none) ∧
    (extentInode 1 0xFFFFFFFF 2).Covers 0xFFFFFFFF 0 ∧
    extentVolume.logicalToPhysicalSector .dev (extentInode 1 0xFFFFFFFF 2) 0xFFFFFFFF = none ∧
    extentVolume.logicalToPhysicalSector .release (extentInode 1 0xFFFFFFFF 2) 0xFFFFFFFF
      = some none := by
  refine ⟨fun p => ?_, ?_, ?_, ?_⟩
  · cases p <;> decide +kernel
  · unfold Ext4Inode.Covers
    decide +kernel
  · decide +kernel
  · decide +kernel

/-! ### Leaves of the extent tree -/

namespace Ext4Inode

section

variable (inode : Ext4Inode)

/-- The extent has data on the disk; longer lengths mark an extent that was reserved but never
written. -/
def Written (i : ℕ) : Prop := inode.eeLen i ≤ 32768

instance (inode : Ext4Inode) (i : ℕ) : Decidable (inode.Written i) :=
  inferInstanceAs (Decidable (_ ≤ _))

/-- The number of blocks of the extent. -/
def extentBlocks (i : ℕ) : ℕ :=
  if inode.Written i then inode.eeLen i else inode.eeLen i - 32768

/-- The logical block belongs to the extent. -/
def InExtent (l i : ℕ) : Prop :=
  inode.eeBlock i ≤ l ∧ l < inode.eeBlock i + inode.extentBlocks i

instance (inode : Ext4Inode) (l i : ℕ) : Decidable (inode.InExtent l i) :=
  inferInstanceAs (Decidable (_ ∧ _))

/-- The inode has a leaf of at most four extents, which do not overlap and end below the last
logical block. -/
structure ExtentLeaf (inode : Ext4Inode) : Prop where
  magic : inode.ehMagic = 0xF30A
  depth : inode.ehDepth = 0
  entries_le : inode.ehEntries ≤ 4
  no_wrap : ∀ i < inode.ehEntries, inode.eeBlock i + inode.extentBlocks i < 2 ^ 32
  disjoint : ∀ i < inode.ehEntries, ∀ j < inode.ehEntries, ∀ l,
    inode.InExtent l i → inode.InExtent l j → i = j

/-- A written extent maps the logical block to the physical one. -/
def MapsTo (l b : ℕ) : Prop :=
  ∃ i < inode.ehEntries, inode.Written i ∧ inode.InExtent l i ∧ b = inode.blockIn l i

end

variable {p : Profile} {inode : Ext4Inode} {l b b' i : ℕ}

theorem MapsTo.unique (hleaf : inode.ExtentLeaf) (h : inode.MapsTo l b) (h' : inode.MapsTo l b') :
    b = b' := by
  obtain ⟨i, hi, _, hin, rfl⟩ := h
  obtain ⟨j, hj, _, hjn, rfl⟩ := h'
  rw [hleaf.disjoint i hi j hj l hin hjn]

theorem MapsTo.lt (hleaf : inode.ExtentLeaf) (h : inode.MapsTo l b) : l < 2 ^ 32 := by
  obtain ⟨i, hi, _, hin, _⟩ := h
  have := hleaf.no_wrap i hi
  have := hin.2
  omega

theorem extentBlocks_of_written (h : inode.Written i) : inode.extentBlocks i = inode.eeLen i :=
  if_pos h

theorem extentBlocks_of_not_written (h : ¬ inode.Written i) : 0 < inode.extentBlocks i := by
  unfold extentBlocks
  rw [if_neg h]
  unfold Written at h
  omega

/-- **The search finds the written extent of a block, if every block up to it is written.**  An
unwritten extent, whose field says too many blocks, then starts behind the block. -/
theorem physicalBlock_of_dense (hleaf : inode.ExtentLeaf)
    (hdense : ∀ l' ≤ l, ∃ b, inode.MapsTo l' b) (h : inode.MapsTo l b) :
    inode.physicalBlock p l = some (some b) := by
  obtain ⟨k, hk, hwritten, hin, rfl⟩ := h
  have hblocks := extentBlocks_of_written hwritten
  have hhit : inode.Hit l k := by
    have hwrap := hleaf.no_wrap k hk
    have hlt := hin.2
    rw [hblocks] at hwrap hlt
    exact ⟨⟨hin.1, hlt⟩, hwrap⟩
  rw [physicalBlock_of_leaf hleaf.magic hleaf.depth]
  have hk4 := hleaf.entries_le
  refine extentSearch_eq_some (zero_le k) (by omega) (by omega) hhit fun j _ hj hle => ?_
  by_cases hjw : inode.Written j
  · -- a written extent before it does not contain the block
    have hwrap := hleaf.no_wrap j (by omega)
    rw [extentBlocks_of_written hjw] at hwrap
    refine ⟨hwrap, Nat.le_of_not_lt fun hlt => ?_⟩
    have hjin : inode.InExtent l j := ⟨hle, by rw [extentBlocks_of_written hjw]; exact hlt⟩
    have := hleaf.disjoint j (by omega) k hk l hjin hin
    omega
  · -- the first block of an unwritten extent is not written
    exfalso
    have hjin : inode.InExtent (inode.eeBlock j) j :=
      ⟨le_rfl, Nat.lt_add_of_pos_right (extentBlocks_of_not_written hjw)⟩
    obtain ⟨_, i, hi, hiw, hiin, _⟩ := hdense _ hle
    obtain rfl := hleaf.disjoint i hi j (by omega) _ hiin hjin
    exact hjw hiw

end Ext4Inode

/-! ### Reading a file without holes -/

/-- The contents of a file: its physical blocks in logical order, cut at its size. -/
def fileContents (v : Ext4Volume) (bs : ℕ) (sectors : ℕ → Bytes) (blk : ℕ → ℕ) (size : ℕ) :
    List Byte :=
  ((List.range ((size + bs - 1) / bs)).flatMap fun l =>
    (runBytes sectors (sectorOf v bs (blk l))).slice 0 bs).take size

section

variable {p : Profile} {v : Ext4Volume} {bs size : ℕ} {sectors : ℕ → Bytes} {blk : ℕ → ℕ}
  {inode : Ext4Inode}

theorem fileByte_block (hdvd : 512 ∣ bs) (l : ℕ) : (fileByte v bs sectors blk).slice (l * bs) bs
      = (runBytes sectors (sectorOf v bs (blk l))).slice 0 bs := by
  apply Bytes.slice_congr
  intro i h1 h2
  obtain ⟨o, rfl⟩ := Nat.exists_eq_add_of_le h1
  have hpos : 0 < bs := by omega
  have hblock : (l * bs + o) / bs = l := by
    rw [add_comm, add_mul_div_right _ _ hpos, div_eq_of_lt (by omega), zero_add]
  have hmod : (l * bs + o) % bs = o := by
    rw [add_comm, add_mul_mod_self_right, mod_eq_of_lt (by omega)]
  have hoff : (l * bs + o) % 512 = o % 512 := by
    obtain ⟨c, hc⟩ := hdvd.mul_left l
    omega
  have hsub : l * bs + o + 0 - l * bs = o := by omega
  unfold fileByte runBytes
  rw [hblock, hmod, hoff, hsub]

theorem fileByte_blocks (hdvd : 512 ∣ bs) (n : ℕ) : (fileByte v bs sectors blk).slice 0 (n * bs)
      = (List.range n).flatMap fun l => (runBytes sectors (sectorOf v bs (blk l))).slice 0 bs := by
  induction n with
  | zero =>
    rw [zero_mul]
    rfl
  | succ n ih =>
    rw [succ_mul, Bytes.slice_add, ih, zero_add, fileByte_block hdvd, range_succ,
      flatMap_append, flatMap_singleton]

theorem fileContents_eq (hdvd : 512 ∣ bs) (hpos : 0 < size → 0 < bs) :
    fileContents v bs sectors blk size = (fileByte v bs sectors blk).slice 0 size := by
  have hcover : size ≤ (size + bs - 1) / bs * bs := by
    by_cases hsize : size = 0
    · omega
    · have hbs := hpos (by omega)
      have := div_add_mod (size + bs - 1) bs
      have := mod_lt (size + bs - 1) hbs
      rw [mul_comm]
      omega
  rw [fileContents, ← fileByte_blocks hdvd, Bytes.take_slice, min_eq_left hcover]

/-- Logical blocks are 32-bit numbers, so that a file that is mapped has blocks of a positive size.
-/
theorem blockSize_pos_of_mapped (hleaf : inode.ExtentLeaf)
    (hmaps : ∀ l, l * bs < size → ∃ b, inode.MapsTo l b) (hsize : 0 < size) : 0 < bs := by
  by_contra hzero
  obtain ⟨b, hb⟩ := hmaps (2 ^ 32) (by omega)
  exact absurd (hb.lt hleaf) (lt_irrefl _)

theorem located_of_mapped (hbs : v.blockSize p = some bs) (hleaf : inode.ExtentLeaf)
    (hmaps : ∀ l, l * bs < size → inode.MapsTo l (blk l))
    (hfits : ∀ l, l * bs < size → sectorOf v bs (blk l) + bs / 512 ≤ 2 ^ 64) {l : ℕ}
    (hl : l * bs < size) : Located p v bs inode l (blk l) := by
  have hpos := blockSize_pos_of_mapped hleaf (fun l hl => ⟨_, hmaps l hl⟩) (by omega)
  have hfits' := hfits l hl
  have hsector : 0 < bs / 512 := div_pos (le_of_dvd hpos
    (dvd_trans (by decide) (dvd_of_blockSize hbs))) (by decide)
  have hblock : inode.physicalBlock p l = some (some (blk l)) :=
    physicalBlock_of_dense hleaf (fun l' hl' =>
      ⟨_, hmaps l' (lt_of_le_of_lt (mul_le_mul_right bs hl') hl)⟩) (hmaps l hl)
  exact ⟨(hmaps l hl).lt hleaf, logicalToPhysicalSector_of_some hbs hblock (by omega), hfits'⟩

end

/-- **`read` returns the bytes of the file**, for a leaf whose extents map every block below the
size of the file to a block on the device: for each offset and length the bytes from the offset on,
as many as there are; and reading a range in two parts gives the same bytes. -/
theorem ext4_read_contents {p : Profile} {node : Ext4Node} {bs : ℕ} {blk : ℕ → ℕ} {d : BlockDevice}
    (hbs : node.volume.blockSize p = some bs) (hleaf : node.inode.ExtentLeaf)
    (hmaps : ∀ l, l * bs < node.size → node.inode.MapsTo l (blk l))
    (hfits : ∀ l, l * bs < node.size → sectorOf node.volume bs (blk l) + bs / 512 ≤ 2 ^ 64)
    (hd : d.Reliable) :
    let contents := fileContents node.volume bs d.sectors blk node.size
    (∀ offset length, ((contents.drop offset).take length).length
      = min length (node.size - offset) ∧
      ∃ d', node.read p offset length d = .ok ((contents.drop offset).take length) d' ∧
        d'.sectors = d.sectors) ∧
    ∀ offset m n, ∃ xs ys d₁ d₂ d₃, node.read p offset m d = .ok xs d₁ ∧
      node.read p (offset + m) n d₁ = .ok ys d₂ ∧ node.read p offset (m + n) d
        = .ok (xs ++ ys) d₃ := by
  have hdvd : 512 ∣ bs := Nat.dvd_trans (by decide) (dvd_of_blockSize hbs)
  have hpos := blockSize_pos_of_mapped hleaf fun l hl => ⟨_, hmaps l hl⟩
  have hcontents := fun sectors : ℕ → Bytes =>
    @fileContents_eq node.volume bs node.size sectors blk hdvd hpos
  -- one read, as a slice of the file
  have hread : ∀ e : BlockDevice, e.Reliable → e.sectors = d.sectors → ∀ offset length, ∃ e',
      node.read p offset length e = .ok ((fileByte node.volume bs d.sectors blk).slice offset
        (min length (node.size - offset))) e' ∧ e'.Reliable ∧ e'.sectors = d.sectors := by
    intro e he hse offset length
    obtain ⟨bytes, e', hrun, hbytes, he', hse'⟩ := returns_of_wp (wp_read_of_located
      (Q := fun bytes e' => bytes = (fileByte node.volume bs d.sectors blk).slice offset
        (min length (node.size - offset)) ∧ e'.Reliable ∧ e'.sectors = d.sectors)
      hbs hdvd rfl he hpos (fun l hl => located_of_mapped hbs hleaf hmaps hfits hl)
      fun e' he' hse' => ⟨by rw [hse], he', hse'.trans hse⟩)
    exact ⟨e', hbytes ▸ hrun, he', hse'⟩
  dsimp only
  rw [hcontents]
  refine ⟨fun offset length => ?_, fun offset m n => ?_⟩
  · rw [Bytes.drop_slice, Bytes.take_slice, Nat.zero_add]
    obtain ⟨d', hrun, _, hsd'⟩ := hread d hd rfl offset length
    exact ⟨Bytes.length_slice .., d', hrun, hsd'⟩
  · obtain ⟨d₁, hrun₁, hd₁, hs₁⟩ := hread d hd rfl offset m
    obtain ⟨d₂, hrun₂, _, _⟩ := hread d₁ hd₁ hs₁ (offset + m) n
    obtain ⟨d₃, hrun₃, _, _⟩ := hread d hd rfl offset (m + n)
    refine ⟨_, _, d₁, d₂, d₃, hrun₁, hrun₂, ?_⟩
    rw [hrun₃]
    congr 1
    by_cases hend : offset + m ≤ node.size
    · have hsplit : min (m + n) (node.size - offset) = m + min n (node.size - (offset + m)) := by
        omega
      have hfirst : min m (node.size - offset) = m := by omega
      rw [hsplit, hfirst, Bytes.slice_add]
    · have hfirst : min (m + n) (node.size - offset) = min m (node.size - offset) := by omega
      have hrest : min n (node.size - (offset + m)) = 0 := by omega
      rw [hfirst, hrest]
      exact (List.append_nil _).symm

theorem Ext4Inode.extentLeaf_of_single {inode : Ext4Inode} (h : inode.ehMagic = 0xF30A ∧
    inode.ehDepth = 0 ∧ inode.ehEntries = 1 ∧ inode.eeBlock 0 + inode.extentBlocks 0 < 2 ^ 32) :
    inode.ExtentLeaf := by
  obtain ⟨hmagic, hdepth, hentries, hwrap⟩ := h
  refine ⟨hmagic, hdepth, by omega, fun i hi => ?_, fun i hi j hj _ _ _ => by omega⟩
  obtain rfl : i = 0 := by omega
  exact hwrap

/-- A file of 2 KiB blocks, and a disk with ones in the two blocks of its extent. -/
def extentNode (block len : ℕ) : Ext4Node :=
  .ofInode extentVolume 11 (extentInode 1 block len)

def extentDisk : BlockDevice where
  sectors s := if 2128 ≤ s ∧ s < 2136 then fun _ => 1 else fun _ => 0
  accesses := []
  fails _ := false

theorem extentNode_values : (extentNode 0 2).size = 4096 ∧ (extentNode 0 2).inode.ehEntries = 1 ∧
    (extentNode 0 2).inode.Written 0 ∧ (extentNode 0 2).inode.eeBlock 0 = 0 ∧
    (extentNode 0 2).inode.extentBlocks 0 = 2 ∧ (extentNode 0 2).inode.eeStart 0 = 20 := by
  decide +kernel

theorem extentNode_mapsTo {l b : ℕ} : (extentNode 0 2).inode.MapsTo l b ↔ l < 2 ∧ b = 20 + l := by
  obtain ⟨_, hentries, hwritten, hblock, hblocks, hstart⟩ := extentNode_values
  unfold Ext4Inode.MapsTo Ext4Inode.InExtent blockIn
  constructor
  · rintro ⟨i, hi, _, hin, rfl⟩
    obtain rfl : i = 0 := by omega
    omega
  · rintro ⟨hl, rfl⟩
    exact ⟨0, by omega, hwritten, by omega, by omega⟩

theorem extentNode_fits {l b : ℕ} (h : (extentNode 0 2).inode.MapsTo l b) :
    sectorOf (extentNode 0 2).volume 2048 b + 2048 / 512 ≤ 2 ^ 64 := by
  obtain ⟨hl, rfl⟩ := extentNode_mapsTo.mp h
  change 2048 + (20 + l) * 4 + 4 ≤ 2 ^ 64
  omega

/-- A read across the border of the two blocks. -/
theorem ext4_read_contents_sample : ∃ bytes d', bytes.length = 16 ∧
    (extentNode 0 2).read .dev 2040 16 extentDisk = .ok bytes d' := by
  have hsize := extentNode_values.1
  have hmaps : ∀ l, l * 2048 < (extentNode 0 2).size → (extentNode 0 2).inode.MapsTo l (20 + l) :=
    fun l hl => extentNode_mapsTo.mpr ⟨by omega, rfl⟩
  obtain ⟨hlen, d', hread, _⟩ := (@ext4_read_contents .dev (extentNode 0 2) 2048 (20 + ·) extentDisk
    (by decide) (Ext4Inode.extentLeaf_of_single (by decide +kernel)) hmaps
    (fun l hl => extentNode_fits (hmaps l hl)) fun _ => rfl).1 2040 16
  rw [hsize] at hlen
  exact ⟨_, d', hlen, hread⟩

/-! ### Holes and unwritten extents -/

/-- The physical block with the data of a logical one, if there is one. -/
def Ext4Inode.writtenBlock (inode : Ext4Inode) (l : ℕ) : Option ℕ :=
  (List.range inode.ehEntries).findSome? fun i =>
    if inode.Written i ∧ inode.InExtent l i then some (inode.blockIn l i) else none

/-- The bytes of a file that may have holes and unwritten extents, which are zeros. -/
def sparseByte (v : Ext4Volume) (bs : ℕ) (sectors : ℕ → Bytes) (inode : Ext4Inode) :
    Bytes := fun o =>
  match inode.writtenBlock (o / bs) with
  | some b => sectors (sectorOf v bs b + o % bs / 512) (o % 512)
  | none => 0

/-- The contract of `read`: from an offset in the file, on whatever disk, a read returns at least
one byte, and what it returns are bytes of the file. -/
def ReadsSparse (p : Profile) (bs : ℕ) (node : Ext4Node) : Prop :=
  ∀ d : BlockDevice, d.Reliable → ∀ offset length, offset < node.size → 0 < length →
    ∃ bytes d', node.read p offset length d = .ok bytes d' ∧ bytes ≠ [] ∧
      bytes = (sparseByte node.volume bs d.sectors node.inode).slice offset bytes.length

section

variable {p : Profile} {v : Ext4Volume} {bs l b : ℕ} {sectors : ℕ → Bytes} {blk : ℕ → ℕ}
  {inode : Ext4Inode} {node : Ext4Node} {c : Byte}

theorem writtenBlock_of_mapsTo (hleaf : inode.ExtentLeaf) (h : inode.MapsTo l b) :
    inode.writtenBlock l = some b := by
  cases hfound : inode.writtenBlock l with
  | none =>
    obtain ⟨i, hi, hwritten, hin, _⟩ := h
    unfold writtenBlock at hfound
    rw [findSome?_eq_none_iff] at hfound
    have := hfound i (mem_range.mpr hi)
    rw [if_pos ⟨hwritten, hin⟩] at this
    cases this
  | some b' =>
    obtain ⟨i, hi, hfound, _⟩ := findSome?_range_eq_some hfound
    split_ifs at hfound with hall
    cases hfound
    have h' : inode.MapsTo l (inode.blockIn l i) := ⟨i, hi, hall.1, hall.2, rfl⟩
    rw [h'.unique hleaf h]

theorem writtenBlock_of_not_mapsTo (h : ∀ b, ¬ inode.MapsTo l b) : inode.writtenBlock l = none := by
  unfold writtenBlock
  rw [findSome?_eq_none_iff]
  intro i hi
  exact if_neg fun hall => h _ ⟨i, mem_range.mp hi, hall.1, hall.2, rfl⟩

theorem readLoop_const {bytesToRead : ℕ} : ∀ {fuel : ℕ} {copied : List Byte} {cur : ℕ}
    {d : BlockDevice}, (∀ s o, d.sectors s o = c) → (∀ x ∈ copied, x = c) →
    wp (node.readLoop p (fun _ => none) bs bytesToRead fuel copied cur)
      (fun bytes _ => ∀ x ∈ bytes, x = c)
      (fun _ _ => True) (fun _ => True) d := by
  intro fuel
  induction fuel with
  | zero => exact fun _ hcopied => hcopied
  | succ fuel ih =>
    intro copied cur d hdisk hcopied
    rw [Ext4Node.readLoop]
    split_ifs
    · rw [wp_bind]
      cases node.volume.logicalToPhysicalSector p node.inode (cur / bs % 2 ^ 32) with
      | none => trivial
      | some base =>
        cases base with
        | none => exact hcopied
        | some base =>
          rw [wp_ofOption_some]
          rw [wp_bind]
          cases p.add 64 base (cur % bs / 512) with
          | none => trivial
          | some sector =>
            rw [wp_ofOption_some, wp_bind, wp_attempt, wp_readBlock_iff]
            split_ifs
            · exact hcopied
            · refine ih (d := d.record .read sector) hdisk fun x hx => ?_
              rcases mem_append.mp hx with hx | hx
              · exact hcopied x hx
              · obtain ⟨i, _, rfl⟩ := mem_map.mp hx
                exact hdisk _ _
    · exact hcopied

theorem read_const {offset length : ℕ} {d d' : BlockDevice} {bytes : List Byte}
    (hdisk : ∀ s o, d.sectors s o = c) (h : node.read p offset length d = .ok bytes d') :
    ∀ x ∈ bytes, x = c := by
  unfold Ext4Node.read Ext4Node.readWith at h
  split_ifs at h
  · cases h
    simp
  · obtain ⟨bs, d₁, h₁, hrest⟩ := bind_ok h
    obtain ⟨_, rfl⟩ := ofOption_ok h₁
    obtain ⟨_, d₂, h₂, hloop⟩ := bind_ok hrest
    obtain ⟨_, rfl⟩ := ofOption_ok h₂
    exact (wp_of_ok (readLoop_const hdisk (by simp)) hloop :)

theorem sparseByte_slice (hdense : ∀ l, l * bs < node.size → node.inode.MapsTo l (blk l))
    (hleaf : node.inode.ExtentLeaf) {offset n : ℕ} (h : offset + n ≤ node.size) :
    (sparseByte v bs sectors node.inode).slice offset n
      = (fileByte v bs sectors blk).slice offset n := by
  apply Bytes.slice_congr
  intro i h1 h2
  rw [Nat.add_sub_cancel]
  have hmapped := hdense (i / bs) (lt_of_le_of_lt (Nat.div_mul_le_self i bs) (by omega))
  unfold sparseByte fileByte
  rw [writtenBlock_of_mapsTo hleaf hmapped]

end

/-- **`read` meets the contract of a sparse file exactly when the file is not sparse**: when a
written extent maps every block below its size. -/
theorem sparse_read_iff {p : Profile} {node : Ext4Node} {bs : ℕ}
    (hbs : node.volume.blockSize p = some bs) (hleaf : node.inode.ExtentLeaf)
    (hfits : ∀ l b, node.inode.MapsTo l b → sectorOf node.volume bs b + bs / 512 ≤ 2 ^ 64) :
    ReadsSparse p bs node ↔ ∀ l, l * bs < node.size → ∃ b, node.inode.MapsTo l b := by
  constructor
  · intro hreads l hl
    by_contra hhole
    -- on a disk of ones, a byte of the hole would have to be zero and one
    obtain ⟨bytes, d', hread, hne, heq⟩ :=
      hreads ⟨fun _ _ => 0xFF, [], fun _ => false⟩ (fun _ => rfl) (l * bs) 1 hl (by decide)
    obtain ⟨x, rest, rfl⟩ := List.exists_cons_of_ne_nil hne
    have hones : x = 0xFF := read_const (fun _ _ => rfl) hread x List.mem_cons_self
    have hpos : 0 < bs := by
      by_contra hzero
      obtain rfl : bs = 0 := by omega
      unfold Ext4Node.read Ext4Node.readWith at hread
      rw [if_neg (by omega), hbs] at hread
      cases hread
    have hbyte : x = sparseByte node.volume bs (fun _ _ => 0xFF) node.inode (l * bs) := by
      have hfirst := congrArg (·[0]?) heq
      dsimp only at hfirst
      rw [Bytes.getElem?_slice, if_pos (by simp), List.getElem?_cons_zero] at hfirst
      exact Option.some.inj hfirst
    rw [sparseByte, Nat.mul_div_cancel l hpos,
      writtenBlock_of_not_mapsTo (not_exists.mp hhole)] at hbyte
    rw [hones] at hbyte
    exact absurd hbyte (by decide)
  · intro hdense d hd offset length hoffset hlength
    choose! blk hblk using hdense
    have hdvd : 512 ∣ bs := Nat.dvd_trans (by decide) (dvd_of_blockSize hbs)
    have hpos := blockSize_pos_of_mapped hleaf fun l hl => ⟨_, hblk l hl⟩
    obtain ⟨bytes, d', hrun, hbytes⟩ := returns_of_wp (wp_read_of_located
      (Q := fun bytes _ => bytes = (fileByte node.volume bs d.sectors blk).slice offset
        (min length (node.size - offset)))
      hbs hdvd rfl hd hpos
      (fun l hl => located_of_mapped hbs hleaf hblk (fun l hl => hfits l _ (hblk l hl)) hl)
      fun _ _ _ => rfl)
    have hlen : bytes.length = min length (node.size - offset) := by
      rw [hbytes, Bytes.length_slice]
    refine ⟨bytes, d', hrun, ?_, ?_⟩
    · intro hnil
      rw [hnil, List.length_nil] at hlen
      omega
    · rw [hlen, sparseByte_slice hblk hleaf (by omega)]
      exact hbytes

/-- A file of two blocks that are both written. -/
theorem sparse_read_dense : ReadsSparse .dev 2048 (extentNode 0 2) :=
  (sparse_read_iff (by decide) (Ext4Inode.extentLeaf_of_single (by decide +kernel))
    fun _ _ => extentNode_fits).mpr fun l hl =>
      ⟨20 + l, extentNode_mapsTo.mpr ⟨by rw [extentNode_values.1] at hl; omega, rfl⟩⟩

/-- A read from a hole returns nothing, and a read from an unwritten extent returns what the disk
has there. -/
theorem sparse_read_fails :
    (extentNode 1 1).inode.ExtentLeaf ∧ (extentNode 0 32770).inode.ExtentLeaf ∧
    0 < (extentNode 1 1).size ∧
    ((extentNode 1 1).read .dev 0 4 extentDisk).value? = some [] ∧
    ¬ (extentNode 0 32770).inode.Written 0 ∧
    ((extentNode 0 32770).read .dev 0 4 extentDisk).value? = some [1, 1, 1, 1] := by
  refine ⟨Ext4Inode.extentLeaf_of_single (by decide +kernel),
    Ext4Inode.extentLeaf_of_single (by decide +kernel), ?_, ?_, ?_, ?_⟩
  · decide +kernel
  · decide +kernel
  · decide +kernel
  · decide +kernel

end NwinOs.Fs.Ext4
