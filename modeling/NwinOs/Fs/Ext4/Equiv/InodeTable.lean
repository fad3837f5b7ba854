import NwinOs.Fs.Ext4.Equiv.Volume
import NwinOs.Fs.Equiv.Confined
import Mathlib.Data.Set.Disjoint
import Mathlib.Order.CompletePartialOrder

/-!
# Inode tables

`tableDescriptor` is the descriptor of a group where the format has it, at byte `32 * g` of a table
that may span many sectors.  The driver fetches the first sector of the table and takes the offset
modulo 512 (`fetchedDescriptor`), which is the same for the first sixteen groups only.

Where it is the same and the tables are disjoint, `writeInode` changes the slot of its inode and
`readInode` of any other inode does not see it.

Nothing here limits the block size or the place of the partition: a byte of the volume has an
address modulo the 64-bit word (`place`), which is what the release profile computes and what the
development profile computes whenever it does not panic.
-/

namespace NwinOs.Fs.Ext4

open Effect Profile Option Ext4Volume Nat

/-! ### Addresses -/

section

variable (v : Ext4Volume)

/-- Where a byte of the volume is: its sector and the offset there. -/
def place (byte : ℕ) : ℕ × ℕ :=
  ((v.startLba + byte % 2 ^ 64 / 512) % 2 ^ 64, byte % 2 ^ 64 % 512)

variable (bs : ℕ)

variable (sectors : ℕ → Bytes)

/-- The descriptor where the table has it. -/
def tableDescriptor (g : ℕ) : Ext4BlockGroupDescriptor :=
  descriptorIn sectors g
    ((sectorOf v bs (Ext4Volume.bgdBlock bs) + g * descriptorSize / 512) % 2 ^ 64)

/-- The descriptor that the driver fetches for the group. -/
def fetchedDescriptor (g : ℕ) : Ext4BlockGroupDescriptor :=
  descriptorIn sectors g (sectorOf v bs (Ext4Volume.bgdBlock bs) % 2 ^ 64)

/-- The slot of an inode: where its struct starts. -/
def inodeSlot (n : ℕ) : ℕ × ℕ :=
  place v (inodeByte v bs (tableDescriptor v bs sectors (groupOf v n)).bgInodeTableLo n)

/-- The bytes of the inode table of a group. -/
def inodeTable (g : ℕ) : Set (ℕ × ℕ) :=
  {x | ∃ k < v.superBlock.sInodesPerGroup * 256,
    x = place v ((tableDescriptor v bs sectors g).bgInodeTableLo * bs + k)}

/-- No two inode tables overlap. -/
def TablesDisjoint : Prop :=
  ∀ g g', HasGroup v g → HasGroup v g' → g ≠ g' →
    Disjoint (inodeTable v bs sectors g) (inodeTable v bs sectors g')

end

section

variable {v : Ext4Volume} {bs n m : ℕ} {sectors : ℕ → Bytes}

/-- Slots are 256-aligned, so that a struct lies within one sector. -/
theorem place_offset (hbs : 1024 ∣ bs) (table : ℕ) :
    (place v (inodeByte v bs table n)).2 = 0 ∨ (place v (inodeByte v bs table n)).2 = 256 := by
  obtain ⟨c, rfl⟩ := hbs
  have hmul : table * (1024 * c) = 1024 * (table * c) := mul_left_comm ..
  unfold place inodeByte
  omega

theorem place_inj {x y : ℕ} (hlt : x < y) (hy : y - x < 2 ^ 64) : place v x ≠ place v y := by
  intro h
  obtain ⟨h1, h2⟩ := Prod.mk.inj h
  omega

theorem hasGroup_groupOf (hn : ValidInode v n) : HasGroup v (groupOf v n) := by
  have h1 := hn.1
  have h2 := hn.2
  have h3 : (n - 1) / v.superBlock.sInodesPerGroup * v.superBlock.sInodesPerGroup ≤ n - 1 :=
    div_mul_le_self ..
  unfold HasGroup groupOf
  omega

theorem inodeSlot_mem (hipg : 0 < v.superBlock.sInodesPerGroup) :
    inodeSlot v bs sectors n ∈ inodeTable v bs sectors (groupOf v n) := by
  refine ⟨indexOf v n * 256, ?_, rfl⟩
  have hlt : indexOf v n < v.superBlock.sInodesPerGroup := mod_lt _ hipg
  omega

/-- **Different inodes have different slots**, if the tables are disjoint. -/
theorem inodeSlot_ne (hipg : 0 < v.superBlock.sInodesPerGroup) (hn : ValidInode v n)
    (hm : ValidInode v m) (hnm : n ≠ m) (htables : TablesDisjoint v bs sectors) :
    inodeSlot v bs sectors n ≠ inodeSlot v bs sectors m := by
  by_cases hgroup : groupOf v n = groupOf v m
  · -- in one table the indices differ, by less than the word
    have hidx : indexOf v n ≠ indexOf v m := by
      intro hidx
      have hn' := div_add_mod (n - 1) v.superBlock.sInodesPerGroup
      have hm' := div_add_mod (m - 1) v.superBlock.sInodesPerGroup
      unfold groupOf at hgroup
      unfold indexOf at hidx
      rw [hgroup, hidx] at hn'
      have := hn.1
      have := hm.1
      omega
    have hlt := indexOf_lt hn
    have hlt' := indexOf_lt hm
    unfold inodeSlot inodeByte
    rw [hgroup]
    rcases lt_or_gt_of_ne hidx with h | h
    · exact place_inj (by omega) (by omega)
    · exact (place_inj (by omega) (by omega)).symm
  · intro h
    have hdisj := htables _ _ (hasGroup_groupOf hn) (hasGroup_groupOf hm) hgroup
    refine Set.disjoint_left.mp hdisj (inodeSlot_mem hipg) ?_
    rw [h]
    exact inodeSlot_mem hipg

end

/-! ### Where the driver goes -/

/-- The slot arithmetic of the driver; `none` is an overflow panic. -/
def computedSlot (p : Profile) (v : Ext4Volume) (bs table n : ℕ) : Option (ℕ × ℕ) :=
  (p.mul 64 table bs).bind fun tableOffset =>
    (p.add 64 tableOffset (indexOf v n * 256)).bind fun byteOffset =>
      (p.add 64 v.startLba (byteOffset / 512)).map fun sector => (sector, byteOffset % 512)

section

variable {p : Profile} {v : Ext4Volume} {bs ds n : ℕ} {d : BlockDevice} {slot : ℕ × ℕ}

theorem eq_of_computedSlot {table : ℕ} (h : computedSlot p v bs table n = some slot) :
    slot = place v (inodeByte v bs table n) := by
  obtain ⟨t, ht, h⟩ := bind_eq_some_iff.mp h
  obtain ⟨y, hy, h⟩ := bind_eq_some_iff.mp h
  obtain ⟨s, hs, rfl⟩ := map_eq_some_iff.mp h
  have hy' : y = inodeByte v bs table n % 2 ^ 64 := by
    rw [eq_of_add hy, eq_of_mul ht, mod_add_mod, inodeByte]
  rw [eq_of_add hs, hy', place]

theorem readDescriptor_run (hd : d.Reliable)
    (hds : v.blockSector p bs (bgdBlock bs) = some ds) (g : ℕ) :
    v.readDescriptor p bs g d = .ok (fetchedDescriptor v bs d.sectors g) (d.record .read ds) := by
  rw [readDescriptor, hds]
  refine (bind_of_ok (readBlock_eq hd)).trans ?_
  rw [eq_of_blockSector hds]
  rfl

theorem locateInode_run (hd : d.Reliable) (hbs : v.blockSize p = some bs)
    (hds : v.blockSector p bs (bgdBlock bs) = some ds)
    (hipg : 0 < v.superBlock.sInodesPerGroup) (hn : ValidInode v n) :
    v.locateInode p n d = Program.ofOption
      (computedSlot p v bs (fetchedDescriptor v bs d.sectors (groupOf v n)).bgInodeTableLo n)
      (d.record .read ds) := by
  have hrange : ¬ (n < 1 ∨ v.superBlock.sInodesCount < n) := by
    have := hn.1
    have := hn.2
    omega
  unfold locateInode
  rw [if_neg hrange, hbs]
  dsimp only
  rw [if_neg (by omega)]
  refine (bind_of_ok (readDescriptor_run hd hds (groupOf v n))).trans ?_
  unfold computedSlot
  simp only [← ofOption_map, ← ofOption_bind]
  rfl

theorem readInode_run (hd : d.Reliable) (hbs : v.blockSize p = some bs)
    (hds : v.blockSector p bs (bgdBlock bs) = some ds)
    (hipg : 0 < v.superBlock.sInodesPerGroup) (hn : ValidInode v n) :
    v.readInode p n d =
      match computedSlot p v bs (fetchedDescriptor v bs d.sectors (groupOf v n)).bgInodeTableLo
        n with
      | none => .fault (d.record .read ds)
      | some (s, o) => .ok (.ofBytes (d.sectors s) o) ((d.record .read ds).record .read s) := by
  have hloc := locateInode_run hd hbs hds hipg hn
  cases hslot :
    computedSlot p v bs (fetchedDescriptor v bs d.sectors (groupOf v n)).bgInodeTableLo n with
  | none =>
    rw [hslot] at hloc
    change Program.bind _ _ d = _
    unfold Program.bind
    rw [hloc]
    rfl
  | some slot =>
    rw [hslot] at hloc
    refine (bind_of_ok hloc).trans ((bind_of_ok (readBlock_eq ?_)).trans ?_)
    · exact hd
    · rfl

variable {inode : Ext4Inode}

/-- On a reliable disk `write_inode` stores the record into its slot. -/
theorem writeInode_run (hd : d.Reliable) (hbs : v.blockSize p = some bs)
    (hds : v.blockSector p bs (bgdBlock bs) = some ds)
    (hipg : 0 < v.superBlock.sInodesPerGroup) (hn : ValidInode v n) {s o : ℕ}
    (hslot : computedSlot p v bs (fetchedDescriptor v bs d.sectors (groupOf v n)).bgInodeTableLo n
      = some (s, o)) :
    ∃ d', v.writeInode p n inode d = .ok () d' ∧ d'.Reliable ∧
      d'.sectors = storeSector d.sectors s ((d.sectors s).splice o inode.bytes) := by
  have hloc := locateInode_run hd hbs hds hipg hn
  rw [hslot] at hloc
  have hwp : wp (v.writeInode p n inode) (fun _ d' => d'.Reliable ∧
      d'.sectors = storeSector d.sectors s ((d.sectors s).splice o inode.bytes))
      (fun _ _ => False) (fun _ => False) d := by
    rw [writeInode, wp_bind, wp_iff_of_ok hloc, wp_bind]
    refine wp_readBlock hd fun d₂ h₂ hs₂ => ?_
    refine wp_writeBlock h₂ fun d₃ h₃ hs₃ => ⟨h₃, ?_⟩
    rw [hs₃, hs₂]
    rfl
  obtain ⟨_, d', hrun, hpost⟩ := returns_of_wp hwp
  exact ⟨d', hrun, hpost⟩

variable {d' : BlockDevice}

theorem locateInode_ok (hd : d.Reliable)
    (hbs : v.blockSize p = some bs) (h : v.locateInode p n d = .ok slot d') :
    ValidInode v n ∧ 0 < v.superBlock.sInodesPerGroup ∧
      ∃ ds, v.blockSector p bs (bgdBlock bs) = some ds ∧
        computedSlot p v bs (fetchedDescriptor v bs d.sectors (groupOf v n)).bgInodeTableLo n
          = some slot := by
  have hrun := h
  unfold locateInode at h
  split_ifs at h with hrange
  · cases h
  have hn : ValidInode v n := ⟨by omega, by omega⟩
  obtain ⟨bs', d₁, hsize, hafterSize⟩ := bind_ok h
  obtain ⟨hbs', rfl⟩ := ofOption_ok hsize
  obtain rfl : bs = bs' := Option.some.inj (hbs.symm.trans hbs')
  obtain ⟨_, d₂, hdivisor, hafterDivisor⟩ := bind_ok hafterSize
  obtain ⟨hpos, rfl⟩ := ofOption_ok hdivisor
  have hipg : 0 < v.superBlock.sInodesPerGroup := by
    by_contra hzero
    rw [if_pos (by omega)] at hpos
    cases hpos
  obtain ⟨_, _, hdesc, _⟩ := bind_ok hafterDivisor
  obtain ⟨ds, _, hsector, _⟩ := bind_ok hdesc
  have hds := (ofOption_ok hsector).1
  rw [locateInode_run hd hbs hds hipg hn] at hrun
  exact ⟨hn, hipg, ds, hds, (ofOption_ok hrun).1⟩

theorem writeInode_slot (hd : d.Reliable)
    (hbs : v.blockSize p = some bs) (h : v.writeInode p n inode d = .ok () d') :
    ValidInode v n ∧ 0 < v.superBlock.sInodesPerGroup ∧ d'.Reliable ∧
      ∃ ds slot, v.blockSector p bs (bgdBlock bs) = some ds ∧
        computedSlot p v bs (fetchedDescriptor v bs d.sectors (groupOf v n)).bgInodeTableLo n
          = some slot ∧
        d'.sectors = storeSector d.sectors slot.1
          ((d.sectors slot.1).splice slot.2 inode.bytes) := by
  obtain ⟨slot, d₁, hloc, _⟩ := bind_ok h
  obtain ⟨hn, hipg, ds, hds, hslot⟩ := locateInode_ok hd hbs hloc
  obtain ⟨d'', hrun, hd'', hsectors⟩ := writeInode_run hd hbs hds hipg hn hslot
  rw [h] at hrun
  cases hrun
  exact ⟨hn, hipg, hd'', ds, slot, hds, hslot, hsectors⟩

theorem reading_locateInode {S : ℕ → Bytes} {old : List Access} :
    Leads (Reading S old fun _ => True) (Reading S old fun _ => True) (v.locateInode p n)
      fun _ => True := by
  have hoption : ∀ {α : Type} (o : Option α), Leads (Reading S old fun _ => True)
      (Reading S old fun _ => True) (Program.ofOption o : FsProgram α) fun _ => True :=
    fun o => .value fun _ _ => trivial
  unfold locateInode
  split_ifs
  · exact .fail
  · refine .seq (hoption _) fun bs _ => ?_
    refine .seq (hoption _) fun _ _ => ?_
    refine .seq (Leads.seq (hoption _) fun sector _ =>
      .seq (leads_readBlock trivial) fun _ _ => .ret trivial) fun bgd (_ : True) => ?_
    refine .seq (hoption _) fun _ _ => ?_
    refine .seq (hoption _) fun _ _ => ?_
    exact .seq (hoption _) fun _ _ => .ret trivial

theorem writeInode_err {e : FsError}
    (h : v.writeInode p n inode d = .err e d') : d'.sectors = d.sectors := by
  have hwp : wp (v.writeInode p n inode) (fun _ _ => True) (fun _ d' => d'.sectors = d.sectors)
      (fun _ => True) d := by
    rw [writeInode, wp_bind]
    have hstart : Reading d.sectors d.accesses (fun _ => True) d := ⟨rfl, [], rfl, by simp⟩
    refine wp_mono (reading_locateInode d hstart) (fun slot d₁ h₁ => ?_) (fun _ _ h₁ => h₁.1)
      fun _ _ => trivial
    rw [wp_bind]
    refine wp_mono (leads_readBlock trivial d₁ h₁.1) (fun buffer d₂ h₂ => ?_) (fun _ _ h₂ => h₂.1)
      fun _ _ => trivial
    rw [wp_writeBlock_iff]
    split_ifs
    exact h₂.1.1
  unfold wp at hwp
  rw [h] at hwp
  exact hwp

end

/-! ### Writing one inode and reading any -/

/-- The bytes of the struct in a slot. -/
def structBytes (slot : ℕ × ℕ) : Set (ℕ × ℕ) :=
  {x | x.1 = slot.1 ∧ slot.2 ≤ x.2 ∧ x.2 < slot.2 + inodeStructSize}

/-- The volume has at most sixteen groups, and inode tables that are disjoint from each other and
from the sector of the descriptors. -/
structure InodeTables (v : Ext4Volume) (bs : ℕ) (sectors : ℕ → Bytes) : Prop where
  inodesPerGroup_pos : 0 < v.superBlock.sInodesPerGroup
  groups_le : v.superBlock.sInodesCount ≤ 16 * v.superBlock.sInodesPerGroup
  disjoint : TablesDisjoint v bs sectors
  descriptors : ∀ g, HasGroup v g → ∀ x ∈ inodeTable v bs sectors g,
    x.1 ≠ sectorOf v bs (Ext4Volume.bgdBlock bs) % 2 ^ 64

section

variable {p : Profile} {v : Ext4Volume} {bs ds n m : ℕ} {sectors : ℕ → Bytes} {d : BlockDevice}

theorem fetchedDescriptor_eq {g : ℕ} (hg : g < 16) :
    fetchedDescriptor v bs sectors g = tableDescriptor v bs sectors g := by
  have hfirst : g * descriptorSize / 512 = 0 := by
    unfold descriptorSize
    omega
  unfold fetchedDescriptor tableDescriptor descriptorIn
  rw [hfirst, add_zero]

variable {slot slot' : ℕ × ℕ} {inode : Ext4Inode}

theorem eq_inodeSlot (hg : groupOf v n < 16)
    (h : computedSlot p v bs (fetchedDescriptor v bs sectors (groupOf v n)).bgInodeTableLo n
      = some slot) : slot = inodeSlot v bs sectors n := by
  rw [eq_of_computedSlot h, fetchedDescriptor_eq hg, inodeSlot]

theorem inodeSlot_offset (hbs : 1024 ∣ bs) :
    (inodeSlot v bs sectors n).2 = 0 ∨ (inodeSlot v bs sectors n).2 = 256 :=
  place_offset hbs _

theorem structBytes_disjoint (h : slot.2 = 0 ∨ slot.2 = 256)
    (h' : slot'.2 = 0 ∨ slot'.2 = 256) (hne : slot ≠ slot') :
    Disjoint (structBytes slot) (structBytes slot') := by
  rw [Set.disjoint_left]
  rintro x ⟨hs, hlo, hhi⟩ ⟨hs', hlo', hhi'⟩
  unfold inodeStructSize at hhi hhi'
  exact hne (Prod.ext (hs.symm.trans hs') (by omega))

theorem InodeTables.groupOf_lt (ht : InodeTables v bs sectors) (hn : ValidInode v n) :
    groupOf v n < 16 := by
  have h1 := hn.1
  have h2 := hn.2
  have h3 := ht.groups_le
  exact Nat.div_lt_of_lt_mul (by rw [Nat.mul_comm]; omega)

theorem store_of_not_mem {s o : ℕ} (h : (s, o) ∉ structBytes slot) :
    storeSector sectors slot.1 ((sectors slot.1).splice slot.2 inode.bytes) s o = sectors s o := by
  by_cases hs : s = slot.1
  · subst hs
    have hlen := inode.length_eq
    have hout : o < slot.2 ∨ slot.2 + inode.bytes.length ≤ o := by
      by_contra hcon
      exact h ⟨rfl, by omega, by omega⟩
    rw [storeSector_self, Bytes.splice_of_outside hout, ite_self]
  · rw [storeSector_of_ne hs]

theorem ofBytes_store (inode : Ext4Inode) (h : slot.2 = 0 ∨ slot.2 = 256) :
    Ext4Inode.ofBytes (storeSector sectors slot.1
      ((sectors slot.1).splice slot.2 inode.bytes) slot.1) slot.2 = inode := by
  obtain ⟨bytes, hlen⟩ := inode
  have hslice : ∀ b : Bytes, (∀ i, slot.2 ≤ i → i < slot.2 + 116 →
      b i = (sectors slot.1).splice slot.2 bytes i) → b.slice slot.2 116 = bytes := by
    intro b hb
    have hsame : b.slice slot.2 116 = ((sectors slot.1).splice slot.2 bytes).slice slot.2 116 := by
      apply Bytes.slice_congr
      intro i h1 h2
      rw [Nat.add_sub_cancel]
      exact hb i h1 h2
    have hback := Bytes.slice_splice (sectors slot.1) slot.2 bytes
    rw [hlen] at hback
    exact hsame.trans hback
  unfold Ext4Inode.ofBytes
  congr 1
  refine hslice _ fun i _ hi => ?_
  rw [storeSector_self, if_pos (by omega)]

theorem ofBytes_store_of_disjoint (h : Disjoint (structBytes slot') (structBytes slot)) :
    Ext4Inode.ofBytes (storeSector sectors slot.1
      ((sectors slot.1).splice slot.2 inode.bytes) slot'.1) slot'.2
      = Ext4Inode.ofBytes (sectors slot'.1) slot'.2 := by
  unfold Ext4Inode.ofBytes
  congr 1
  apply Bytes.slice_congr
  intro i h1 h2
  rw [Nat.add_sub_cancel]
  exact store_of_not_mem (Set.disjoint_left.mp h ⟨rfl, h1, h2⟩)

end

/-! A sample disk: 2 KiB blocks, tables of sixteen inodes in two blocks each, from block 10 on. -/

variable (groups : Fin 32)

/-- A volume with that many groups. -/
def tablesVolume : Ext4Volume where
  startLba := 2048
  superBlock := ⟨16 * groups, 1, 16, 0xEF53, by omega, sixteen_lt⟩

/-- The descriptors of 32 groups, sixteen in each sector. -/
def tablesDisk : BlockDevice where
  sectors s :=
    if s = 2052 then
      Bytes.putAll (fun _ => 0) ((List.range 16).map fun g => (g * 32 + 8, 4, 10 + 2 * g))
    else if s = 2053 then
      Bytes.putAll (fun _ => 0) ((List.range 16).map fun g => (g * 32 + 8, 4, 42 + 2 * g))
    else fun _ => 0
  accesses := []
  fails _ := false

theorem tablesDisk_table {g : ℕ} (hg : g < 32) :
    (tableDescriptor (tablesVolume groups) 2048 tablesDisk.sectors g).bgInodeTableLo
      = 10 + 2 * g := by
  have hall : ∀ g < 32, (tableDescriptor (tablesVolume 0) 2048 tablesDisk.sectors g).bgInodeTableLo
      = 10 + 2 * g := by
    decide +kernel
  exact hall g hg

theorem tablesDisk_disjoint : TablesDisjoint (tablesVolume groups) 2048 tablesDisk.sectors := by
  intro g g' hg hg' hne
  change g * 16 < 16 * groups.val at hg
  change g' * 16 < 16 * groups.val at hg'
  rw [Set.disjoint_left]
  rintro x ⟨k, hk, rfl⟩ ⟨k', hk', h⟩
  change k < 16 * 256 at hk
  change k' < 16 * 256 at hk'
  rw [tablesDisk_table groups (by omega), tablesDisk_table groups (by omega)] at h
  obtain ⟨h1, h2⟩ := Prod.mk.inj h
  omega

theorem tablesDisk_inodeTables :
    InodeTables (tablesVolume 2) 2048 tablesDisk.sectors where
  inodesPerGroup_pos := by decide
  groups_le := by decide
  disjoint := tablesDisk_disjoint 2
  descriptors g hg x hx := by
    obtain ⟨k, hk, rfl⟩ := hx
    change g * 16 < 32 at hg
    change k < 16 * 256 at hk
    rw [tablesDisk_table 2 (by omega)]
    change (2048 + _) % _ ≠ 2052 % 2 ^ 64
    omega

/-- **Writing an inode.**  After a successful write the inode reads back, every other inode reads as
before, and on the whole disk only the bytes of the struct may differ; a write that fails changes
nothing. -/
theorem write_inode_round_trip {p : Profile} {v : Ext4Volume} {bs : ℕ} {d : BlockDevice}
    (hbs : v.blockSize p = some bs) (ht : InodeTables v bs d.sectors) (hd : d.Reliable) (a : ℕ)
    (x : Ext4Inode) :
    (∀ d', v.writeInode p a x d = .ok () d' →
      (∃ e, v.readInode p a d' = .ok x e) ∧
      (∀ b, ValidInode v b → b ≠ a → (v.readInode p b d').value? = (v.readInode p b d).value?) ∧
      ∀ s o, (s, o) ∉ structBytes (inodeSlot v bs d.sectors a) → d'.sectors s o = d.sectors s o) ∧
    ∀ e d', v.writeInode p a x d = .err e d' → d'.sectors = d.sectors := by
  have hdvd := dvd_of_blockSize hbs
  refine ⟨fun d' h => ?_, fun e d' h => writeInode_err h⟩
  obtain ⟨ha, hipg, hd', ds, slot, hds, hslot, hsectors⟩ := writeInode_slot hd hbs h
  obtain rfl := eq_inodeSlot (ht.groupOf_lt ha) hslot
  -- the sector of the descriptors is not touched, so every inode stays where it was
  have hne : ds ≠ (inodeSlot v bs d.sectors a).1 := by
    rw [eq_of_blockSector hds]
    exact (ht.descriptors _ (hasGroup_groupOf ha) _ (inodeSlot_mem hipg)).symm
  have hfetch : ∀ g, fetchedDescriptor v bs d'.sectors g = fetchedDescriptor v bs d.sectors g := by
    intro g
    unfold fetchedDescriptor descriptorIn
    rw [← eq_of_blockSector hds, hsectors, storeSector_of_ne hne]
  refine ⟨?_, fun b hb hba => ?_, fun s o hso => ?_⟩
  · have hread := readInode_run hd' hbs hds hipg ha
    rw [hfetch, hslot, hsectors] at hread
    dsimp only at hread
    rw [ofBytes_store x (inodeSlot_offset hdvd)] at hread
    exact ⟨_, hread⟩
  · rw [readInode_run hd' hbs hds hipg hb, readInode_run hd hbs hds hipg hb, hfetch]
    cases hslot' : computedSlot p v bs
        (fetchedDescriptor v bs d.sectors (groupOf v b)).bgInodeTableLo b with
    | none => rfl
    | some slot' =>
      obtain rfl := eq_inodeSlot (ht.groupOf_lt hb) hslot'
      have hdisj := structBytes_disjoint (inodeSlot_offset hdvd) (inodeSlot_offset hdvd)
        (inodeSlot_ne hipg hb ha hba ht.disjoint)
      dsimp only [Outcome.value?]
      rw [hsectors, ofBytes_store_of_disjoint hdisj]
  · rw [hsectors]
    exact store_of_not_mem hso

/-- Inode 17, the first of the second group. -/
theorem write_inode_round_trip_sample : ∃ d' e,
    (tablesVolume 2).writeInode .dev 17 (buildFileInode 5 7) tablesDisk = .ok () d' ∧
    (tablesVolume 2).readInode .dev 17 d' = .ok (buildFileInode 5 7) e ∧
    ((tablesVolume 2).readInode .dev 18 d').value?
      = ((tablesVolume 2).readInode .dev 18 tablesDisk).value? := by
  have hval : ((tablesVolume 2).writeInode .dev 17 (buildFileInode 5 7) tablesDisk).value?
    = some () := by
    decide +kernel
  obtain ⟨d', hok⟩ := ok_of_value? hval
  obtain ⟨⟨e, hread⟩, hother, _⟩ := (write_inode_round_trip (p := .dev) (by decide)
    tablesDisk_inodeTables (fun _ => rfl) 17 (buildFileInode 5 7)).1 d' hok
  exact ⟨d', e, hok, hread, hother 18 (by decide) (by decide)⟩

/-! ### Which descriptor is used -/

/-- Whatever is on the disk, reading and writing the inode go to the slot that the descriptor of its
group gives. -/
def AddressedByGroup (p : Profile) (v : Ext4Volume) (bs n : ℕ) : Prop :=
  ∀ d : BlockDevice, d.Reliable →
    (∀ inode d', v.readInode p n d = .ok inode d' →
      inode = .ofBytes (d.sectors (inodeSlot v bs d.sectors n).1) (inodeSlot v bs d.sectors n).2) ∧
    ∀ inode d', v.writeInode p n inode d = .ok () d' →
      d'.sectors = storeSector d.sectors (inodeSlot v bs d.sectors n).1
        ((d.sectors (inodeSlot v bs d.sectors n).1).splice (inodeSlot v bs d.sectors n).2
          inode.bytes)

section

variable {p : Profile} {v : Ext4Volume} {bs n : ℕ}

theorem blockSize_lt (h : v.blockSize p = some bs) : bs < 2 ^ 64 := by
  unfold blockSize Ext4SuperBlock.blockSize Profile.shl at h
  split_ifs at h
  · exact Option.some.inj h ▸ mod_lt _ (by decide)
  · cases p with
    | dev => cases h
    | release => exact Option.some.inj h ▸ mod_lt _ (by decide)

/-- On a partition that starts within 32 bits, the sector of the descriptors does not overflow. -/
theorem blockSector_bgdBlock (hstart : v.startLba < 2 ^ 32) (hbs : v.blockSize p = some bs) :
    v.blockSector p bs (bgdBlock bs) = some (sectorOf v bs (bgdBlock bs)) ∧
    sectorOf v bs (bgdBlock bs) < 2 ^ 63 := by
  have hlt := blockSize_lt hbs
  have hbgd : bgdBlock bs = 1 ∨ bgdBlock bs = 2 := by
    unfold bgdBlock
    split_ifs <;> simp
  unfold blockSector sectorOf
  rcases hbgd with h | h
  · rw [h, mul_eq_some (by omega), bind_some, add_eq_some (by omega)]
    exact ⟨rfl, by omega⟩
  · rw [h, mul_eq_some (by omega), bind_some, add_eq_some (by omega)]
    exact ⟨rfl, by omega⟩

theorem addressedByGroup_of_lt (hbs : v.blockSize p = some bs) (h : groupOf v n < 16 ∨ bs = 0) :
    AddressedByGroup p v bs n := by
  intro d hd
  have hslot : ∀ slot, computedSlot p v bs
      (fetchedDescriptor v bs d.sectors (groupOf v n)).bgInodeTableLo n = some slot →
      slot = inodeSlot v bs d.sectors n := by
    intro slot hslot
    rcases h with h | rfl
    · exact eq_inodeSlot h hslot
    · rw [eq_of_computedSlot hslot, inodeSlot, inodeByte, inodeByte, mul_zero, mul_zero]
  constructor
  · intro inode d' hread
    obtain ⟨slot, d₁, hloc, _⟩ := bind_ok hread
    obtain ⟨hn, hipg, ds, hds, hcomputed⟩ := locateInode_ok hd hbs hloc
    obtain rfl := hslot slot hcomputed
    rw [readInode_run hd hbs hds hipg hn, hcomputed] at hread
    cases hread
    rfl
  · intro inode d' hwrite
    obtain ⟨_, _, _, ds, slot, _, hcomputed, hsectors⟩ := writeInode_slot hd hbs hwrite
    obtain rfl := hslot slot hcomputed
    exact hsectors

/-- A disk that is zero but for one byte of one sector. -/
def oneByteDisk (sector offset : ℕ) : BlockDevice where
  sectors s i := if s = sector ∧ i = offset then 1 else 0
  accesses := []
  fails _ := false

theorem oneByteDisk_ne (sector offset s i : ℕ) :
    (oneByteDisk sector offset).sectors s i ≠ 0xFF := by
  change (if s = sector ∧ i = offset then (1 : Byte) else 0) ≠ 0xFF
  split_ifs <;> decide

theorem oneByteDisk_get (sector offset s : ℕ) :
    ((oneByteDisk sector offset).sectors s).get offset 4 = if s = sector then 1 else 0 := by
  by_cases hs : s = sector
  · subst hs
    simp [oneByteDisk, Bytes.get, Bytes.slice, Bytes.le, List.range_succ]
  · simp [oneByteDisk, Bytes.get, Bytes.slice, Bytes.le, List.range_succ, hs]

/-- The inode whose bytes are all ones. -/
def onesInode : Ext4Inode := ⟨List.replicate 116 0xFF, by simp [inodeStructSize]⟩

/-- Behind the sixteenth group the driver takes the descriptor of another group.  On a disk where
the two differ, a write goes to a wrong slot. -/
theorem not_addressedByGroup (hbs : v.blockSize p = some bs) (hstart : v.startLba < 2 ^ 32)
    (hipg : 0 < v.superBlock.sInodesPerGroup) (hn : ValidInode v n) (hg : 16 ≤ groupOf v n)
    (hpos : bs ≠ 0) : ¬ AddressedByGroup p v bs n := by
  intro hall
  obtain ⟨hds, hdslt⟩ := blockSector_bgdBlock (v := v) hstart hbs
  have hidx := indexOf_lt hn
  have hbslt := blockSize_lt hbs
  have hglt : groupOf v n < 2 ^ 32 := by
    have h1 : groupOf v n ≤ n - 1 := div_le_self ..
    have h2 := v.superBlock.inodesCount_lt
    have h3 := hn.2
    omega
  have hgroup : 1 ≤ groupOf v n * descriptorSize / 512 ∧
      groupOf v n * descriptorSize / 512 < 2 ^ 32 := by
    unfold descriptorSize
    omega
  generalize hlba : sectorOf v bs (bgdBlock bs) = lba at hds hdslt
  generalize hoff : groupOf v n * descriptorSize % 512 + 8 = offset
  -- the table of the group starts at block 1, the one that is fetched at block 0
  obtain ⟨d, hd⟩ : ∃ d, d = oneByteDisk (lba + groupOf v n * descriptorSize / 512) offset :=
    ⟨_, rfl⟩
  have hreliable : d.Reliable := fun k => by rw [hd]; rfl
  have htable : (tableDescriptor v bs d.sectors (groupOf v n)).bgInodeTableLo = 1 := by
    change (d.sectors ((sectorOf v bs (bgdBlock bs)
      + groupOf v n * descriptorSize / 512) % 2 ^ 64)).get
      (groupOf v n * descriptorSize % 512 + 8) 4 = 1
    rw [hlba, hoff, mod_eq_of_lt (by omega), hd, oneByteDisk_get, if_pos rfl]
  have hfetched : (fetchedDescriptor v bs d.sectors (groupOf v n)).bgInodeTableLo = 0 := by
    change (d.sectors (sectorOf v bs (bgdBlock bs) % 2 ^ 64)).get
      (groupOf v n * descriptorSize % 512 + 8) 4 = 0
    rw [hlba, hoff, mod_eq_of_lt (by omega), hd, oneByteDisk_get, if_neg (by omega)]
  -- the driver writes to the slot of the wrong table
  obtain ⟨slot, hslot⟩ : ∃ slot, computedSlot p v bs 0 n = some slot := by
    unfold computedSlot
    rw [mul_eq_some (by omega), bind_some, add_eq_some (by omega),
      bind_some, add_eq_some (by omega), map_some]
    exact ⟨_, rfl⟩
  have hcomputed := hslot
  rw [← hfetched] at hcomputed
  obtain ⟨d', hwrite, _, hsectors⟩ := @writeInode_run p v bs lba n d onesInode hreliable
    hbs hds hipg
    hn slot.1 slot.2 hcomputed
  have hdvd := dvd_of_blockSize hbs
  have hoffset : slot.2 = 0 ∨ slot.2 = 256 := eq_of_computedSlot hslot ▸ place_offset hdvd 0
  have hdisj : Disjoint (structBytes slot) (structBytes (inodeSlot v bs d.sectors n)) := by
    apply structBytes_disjoint hoffset (inodeSlot_offset hdvd)
    rw [eq_of_computedSlot hslot, inodeSlot, htable]
    unfold inodeByte
    exact place_inj (by omega) (by omega)
  have hmem : slot ∈ structBytes slot := ⟨rfl, le_rfl, by unfold inodeStructSize; omega⟩
  have hsame : d'.sectors slot.1 slot.2 = d.sectors slot.1 slot.2 := by
    rw [(hall d hreliable).2 onesInode d' hwrite]
    exact store_of_not_mem (Set.disjoint_left.mp hdisj hmem)
  have hones : d'.sectors slot.1 slot.2 = 0xFF := by
    have hinside := Bytes.splice_of_inside (b := d.sectors slot.1) (o := slot.2)
      (show 0 < onesInode.bytes.length by decide)
    rw [hsectors, storeSector_self, if_pos (by omega)]
    exact hinside
  rw [hones, hd] at hsame
  exact oneByteDisk_ne _ _ _ _ hsame.symm

end

/-- **Descriptors are addressed by group in the first sixteen groups only** (a block size of zero
apart, where every table starts at the same byte).  In those groups, different inodes of a volume
with disjoint tables are never located at overlapping structs. -/
theorem group_descriptor_iff {p : Profile} {v : Ext4Volume} {bs n : ℕ}
    (hbs : v.blockSize p = some bs) (hstart : v.startLba < 2 ^ 32)
    (hipg : 0 < v.superBlock.sInodesPerGroup) (hn : ValidInode v n) :
    (AddressedByGroup p v bs n ↔ groupOf v n < 16 ∨ bs = 0) ∧
    ∀ m, ValidInode v m → m ≠ n → groupOf v n < 16 → groupOf v m < 16 →
      ∀ d : BlockDevice, d.Reliable → TablesDisjoint v bs d.sectors → ∀ slot slot' d₁ d₂,
        v.locateInode p n d = .ok slot d₁ → v.locateInode p m d = .ok slot' d₂ →
        Disjoint (structBytes slot) (structBytes slot') := by
  constructor
  · constructor
    · intro hall
      by_contra hcon
      push Not at hcon
      exact not_addressedByGroup hbs hstart hipg hn hcon.1 hcon.2 hall
    · exact addressedByGroup_of_lt hbs
  · intro m hm hmn hgn hgm d hd htables slot slot' d₁ d₂ hloc hloc'
    obtain ⟨_, _, _, _, hslot⟩ := locateInode_ok hd hbs hloc
    obtain ⟨_, _, _, _, hslot'⟩ := locateInode_ok hd hbs hloc'
    obtain rfl := eq_inodeSlot hgn hslot
    obtain rfl := eq_inodeSlot hgm hslot'
    have hdvd := dvd_of_blockSize hbs
    exact structBytes_disjoint (inodeSlot_offset hdvd) (inodeSlot_offset hdvd)
      (inodeSlot_ne hipg hn hm hmn.symm htables)

theorem group_descriptor_sixteenth : AddressedByGroup .dev (tablesVolume 17) 2048 256 :=
  (group_descriptor_iff (by decide) (by decide) (by decide) (by decide)).1.mpr (.inl (by decide))

/-- With seventeen groups and disjoint tables, writing inode 257 overwrites inode 1. -/
theorem group_descriptor_aliased : TablesDisjoint (tablesVolume 17) 2048 tablesDisk.sectors ∧
    ValidInode (tablesVolume 17) 257 ∧
    ((tablesVolume 17).readInode .dev 1 tablesDisk).value? = some .zeroed ∧ ∃ d',
      (tablesVolume 17).writeInode .dev 257 (buildFileInode 5 7) tablesDisk = .ok () d' ∧
      ((tablesVolume 17).readInode .dev 1 d').value? = some (buildFileInode 5 7) := by
  refine ⟨tablesDisk_disjoint 17, by decide, by decide +kernel, ?_⟩
  have hval : ((tablesVolume 17).writeInode .dev 257 (buildFileInode 5 7) tablesDisk).value?
      = some () := by
    decide +kernel
  have hread : ((tablesVolume 17).readInode .dev 1
      ((tablesVolume 17).writeInode .dev 257 (buildFileInode 5 7) tablesDisk).state).value?
      = some (buildFileInode 5 7) := by
    decide +kernel
  obtain ⟨d', hok⟩ := ok_of_value? hval
  rw [hok] at hread
  exact ⟨d', hok, hread⟩

end NwinOs.Fs.Ext4
