import NwinOs.Fs.Ext4.Node
import NwinOs.Fs.Ext4.Equiv.Volume
import NwinOs.Fs.Equiv.Confined

/-!
# Which sectors the ext4 operations access

Nothing in the driver compares a sector with the end of the partition; where an operation goes is
decided by the numbers on the disk.  `VolumeFits` and `InodeFits` say that these numbers point into
the partition, and the lemmas that the operations then stay in it, whatever accesses fail.
-/

namespace NwinOs.Fs.Ext4

open Effect Profile Option Ext4Volume Reading Ext4Node

/-- The block lies in a partition of that many sectors. -/
def BlockFits (total bs b : ℕ) : Prop := (b + 1) * (bs / 512) ≤ total

/-- The descriptor table, the bitmaps of group 0 and the slots of all inodes lie in the partition.
-/
structure VolumeFits (v : Ext4Volume) (total bs : ℕ) (S : ℕ → Bytes) : Prop where
  size_pos : 0 < bs / 512
  descriptors : BlockFits total bs (Ext4Volume.bgdBlock bs)
  blockBitmap : BlockFits total bs (descriptor v bs S 0).bgBlockBitmapLo
  inodeBitmap : BlockFits total bs (descriptor v bs S 0).bgInodeBitmapLo
  slots : ∀ n, ValidInode v n → slotByte v bs S n / 512 < total

/-- The extents of an inode lie in `i_block`, so that the search takes nothing else for an extent,
and every block that they map lies in the partition. -/
structure InodeFits (p : Profile) (total bs : ℕ) (inode : Ext4Inode) : Prop where
  entries : inode.ehEntries ≤ 4
  blocks : ∀ l b, inode.physicalBlock p l = some (some b) → BlockFits total bs b

section

variable {p : Profile} {v : Ext4Volume} {total bs b : ℕ}

section

variable (h : BlockFits total bs b)
include h

theorem BlockFits.blockSector_eq (hstart : v.startLba < 2 ^ 32)
    (htotal : total < 2 ^ 32) : v.blockSector p bs b = some (sectorOf v bs b) := by
  unfold BlockFits at h
  rw [Nat.succ_mul] at h
  unfold blockSector sectorOf
  rw [mul_eq_some (by omega), bind_some, add_eq_some (by omega)]

theorem BlockFits.inPartition {i : ℕ} (hi : i < bs / 512) :
    InPartition v.startLba total (sectorOf v bs b + i) := by
  unfold BlockFits at h
  rw [Nat.succ_mul] at h
  unfold InPartition sectorOf
  omega

theorem BlockFits.lt (hstart : v.startLba < 2 ^ 32)
    (htotal : total < 2 ^ 32) : sectorOf v bs b + bs / 512 < 2 ^ 64 := by
  unfold BlockFits at h
  rw [Nat.succ_mul] at h
  unfold sectorOf
  omega

end

end

section

variable {p : Profile} {v : Ext4Volume} {total bs n : ℕ} {S : ℕ → Bytes} {old : List Access}
  (hstart : v.startLba < 2 ^ 32) (htotal : total < 2 ^ 32)

include hstart htotal

theorem leads_readDescriptor (hv : VolumeFits v total bs S) (g : ℕ) :
    ReadsIn S old v.startLba total (v.readDescriptor p bs g)
      fun bgd => bgd = descriptor v bs S g := by
  rw [readDescriptor, hv.descriptors.blockSector_eq hstart htotal]
  apply Leads.ofOption_some_bind
  refine .seq (leads_readBlock (hv.descriptors.inPartition hv.size_pos)) ?_
  intro buffer hbuffer
  exact .ret (hbuffer ▸ rfl)

theorem leads_allocateBit {bitmapBlock : Ext4BlockGroupDescriptor → ℕ} {exhausted : FsError}
    (hv : ∀ bs, v.blockSize p = some bs →
      VolumeFits v total bs S ∧ BlockFits total bs (bitmapBlock (descriptor v bs S 0))) :
    WritesIn S old v.startLba total
      (v.allocateBit p bitmapBlock exhausted) fun _ => True := by
  refine .bind (.value fun _ h => h) within fun bs hbs => ?_
  obtain ⟨hv, hbitmap⟩ := hv bs hbs
  refine .bind (leads_readDescriptor hstart htotal hv 0) within ?_
  rintro _ rfl
  rw [hbitmap.blockSector_eq hstart htotal]
  apply Leads.ofOption_some_bind
  have hin := hbitmap.inPartition (v := v) hv.size_pos
  refine .bind (leads_readBlock hin) within fun bitmap _ => ?_
  cases firstFreeBit bitmap with
  | none => exact .throw within
  | some ij =>
    exact .seq (leads_of_within (leads_writeBlock hin)) fun _ _ =>
      .ret trivial

variable (hv : ∀ bs, v.blockSize p = some bs → VolumeFits v total bs S)
include hv

theorem leads_allocateInode :
    WritesIn S old v.startLba total
      (v.allocateInode p) fun _ => True := by
  have hbit : WritesIn S old v.startLba total
      (v.allocateBit p (·.bgInodeBitmapLo) .outOfInodes) fun _ => True :=
    leads_allocateBit hstart htotal fun bs hbs => ⟨hv bs hbs, (hv bs hbs).inodeBitmap⟩
  exact .seq hbit fun _ _ => .ret trivial

theorem leads_allocateBlock :
    WritesIn S old v.startLba total
      (v.allocateBlock p) fun _ => True :=
  leads_allocateBit hstart htotal fun bs hbs => ⟨hv bs hbs, (hv bs hbs).blockBitmap⟩

theorem leads_locateInode :
    ReadsIn S old v.startLba total (v.locateInode p n)
      fun location => InPartition v.startLba total location.1 := by
  unfold locateInode
  split_ifs with hrange
  · exact .fail
  refine .seq (.value fun _ h => h) fun bs hbs => ?_
  have hvalid : ValidInode v n := ⟨by omega, by omega⟩
  have hv := hv bs hbs
  have hslot := hv.slots n hvalid
  unfold slotByte inodeByte at hslot
  refine .seq (.value fun _ _ => trivial) fun _ _ => ?_
  refine .seq (leads_readDescriptor hstart htotal hv _) ?_
  rintro _ rfl
  change Leads _ _ (Program.ofOption
      (p.mul 64 (descriptor v bs S (groupOf v n)).bgInodeTableLo bs)
    >>= fun tableOffset => Program.ofOption (p.add 64 tableOffset (indexOf v n * 256))
    >>= fun byteOffset => Program.ofOption (p.add 64 v.startLba (byteOffset / 512))
    >>= fun sector => pure (sector, byteOffset % 512)) _
  rw [mul_eq_some (by omega)]
  apply Leads.ofOption_some_bind
  rw [add_eq_some (by omega)]
  apply Leads.ofOption_some_bind
  rw [add_eq_some (by omega)]
  exact .ret ⟨by omega, by omega⟩

theorem leads_readInode : ReadsIn S old v.startLba total (v.readInode p n) fun _ => True := by
  refine .seq (leads_locateInode hstart htotal hv) fun location hin => ?_
  exact .seq (leads_readBlock hin) fun _ _ => .ret trivial

theorem leads_newRoot : ReadsIn S old v.startLba total (newRoot p v) fun _ => True := by
  refine .seq (leads_readInode hstart htotal hv).attempt fun result _ => ?_
  cases result with
  | error => exact .ret trivial
  | ok inode => exact .ret trivial

theorem leads_writeInode {inode : Ext4Inode} :
    WritesIn S old v.startLba total
      (v.writeInode p n inode) fun _ => True := by
  refine .bind (leads_locateInode hstart htotal hv) within fun location hin => ?_
  refine .bind (leads_readBlock hin) within fun _ _ => ?_
  exact leads_of_within (leads_writeBlock hin)

omit hv

theorem leads_writeDataToBlock {data : List Byte}
    (hb : ∀ bs, v.blockSize p = some bs → BlockFits total bs n) :
    WritesIn S old v.startLba total
      (v.writeDataToBlock p n data) fun _ => True := by
  refine .bind (.value fun _ h => h) within fun bs hbs => ?_
  split_ifs with hlen
  · exact .throw within
  · have hb := hb bs hbs
    rw [hb.blockSector_eq hstart htotal]
    refine leads_of_within (leads_writeSectors ?_ fun j _ hj => hb.inPartition (by omega))
    have := hb.lt hstart htotal
    omega

/-! ### Nodes -/

variable {node : Ext4Node} (hnode : node.volume = v) {name : String}

include hnode

theorem leads_readLoop {bytesToRead : ℕ} (hsize : v.blockSize p = some bs) (hbs : bs ≠ 0)
    (hinode : InodeFits p total bs node.inode) :
    ∀ {fuel : ℕ} {copied : List Byte} {cur : ℕ},
      ReadsIn S old v.startLba total
        (node.readLoop p (fun _ => none) bs bytesToRead fuel copied cur) fun _ => True := by
  intro fuel
  induction fuel with
  | zero => exact .ret trivial
  | succ fuel ih =>
    intro copied cur
    rw [readLoop]
    split_ifs with hmore
    · refine .seq (.value fun _ h => h) fun mapped hmapped => ?_
      cases mapped with
      | none => exact .ret trivial
      | some baseLba =>
        -- the block comes from an extent
        rw [hnode, logicalToPhysicalSector, hsize, bind_some] at hmapped
        obtain ⟨found, hfound, hmapped⟩ := bind_eq_some_iff.mp hmapped
        cases found with
        | none => cases hmapped
        | some b =>
          have hb := hinode.blocks _ b hfound
          dsimp only at hmapped
          rw [hb.blockSector_eq hstart htotal] at hmapped
          cases hmapped
          have hlt := hb.lt (v := v) hstart htotal
          have hsec : cur % bs / 512 < bs / 512 := by
            have hdvd : 512 ∣ bs := Nat.dvd_trans (by decide) (dvd_of_blockSize hsize)
            have hmod := Nat.mod_lt cur (Nat.pos_of_ne_zero hbs)
            omega
          dsimp only
          rw [add_eq_some (by omega)]
          apply Leads.ofOption_some_bind
          refine .seq (leads_readBlock (hb.inPartition hsec)).attempt ?_
          intro result _
          cases result with
          | error => exact .ret trivial
          | ok sector => exact ih
    · exact .ret trivial

theorem leads_read {offset length : ℕ}
    (hinode : ∀ bs, v.blockSize p = some bs → InodeFits p total bs node.inode) :
    ReadsIn S old v.startLba total (node.read p offset length)
      fun _ => True := by
  unfold Ext4Node.read Ext4Node.readWith
  split_ifs with hempty
  · exact .ret trivial
  · refine .seq (.value fun _ h => h) fun bs hbs => ?_
    rw [hnode] at hbs
    have hpos : ∀ a, (if bs = 0 then none else some ()) = some a → bs ≠ 0 := by
      intro a ha hzero
      rw [if_pos hzero] at ha
      cases ha
    refine .seq (.value hpos) fun _ hne => ?_
    exact leads_readLoop hstart htotal hnode hbs hne (hinode bs hbs)

theorem leads_lookupLoop {buffer : Bytes} {bytesRead : ℕ}
    (hv : ∀ bs, v.blockSize p = some bs → VolumeFits v total bs S) :
    ∀ {fuel localOffset : ℕ}, ReadsIn S old v.startLba total
      (node.lookupLoop p name buffer bytesRead fuel localOffset) fun _ => True := by
  intro fuel
  induction fuel with
  | zero => exact .ret trivial
  | succ fuel ih =>
    intro localOffset
    rw [lookupLoop]
    dsimp only
    split_ifs
    · exact .value fun _ _ => trivial
    · exact .ret trivial
    · exact .ret trivial
    · rw [hnode]
      refine .seq (leads_readInode hstart htotal hv).attempt fun result _ => ?_
      cases result with
      | error => exact ih
      | ok inode => exact .ret trivial
    · exact ih
    · exact ih
    · exact .ret trivial

theorem leads_lookup (hv : ∀ bs, v.blockSize p = some bs → VolumeFits v total bs S)
    (hinode : ∀ bs, v.blockSize p = some bs → InodeFits p total bs node.inode) :
    ReadsIn S old v.startLba total (node.lookup p name) fun _ => True := by
  unfold lookup
  split_ifs with hdir
  · exact .ret trivial
  · refine .seq (leads_read hstart htotal hnode hinode) fun bytes _ => ?_
    split_ifs
    · exact .ret trivial
    · exact leads_lookupLoop hstart htotal hnode hv

omit hstart htotal hnode in
theorem leads_addEntryLoop {I : BlockDevice → Prop} {name : List Byte} {buffer : Bytes} :
    ∀ {fuel offset : ℕ},
      Leads I I (addEntryLoop p bs name n buffer fuel offset) fun _ => True := by
  intro fuel
  induction fuel with
  | zero => exact .value fun _ _ => trivial
  | succ fuel ih =>
    intro offset
    rw [addEntryLoop]
    dsimp only
    split_ifs
    · exact .value fun _ _ => trivial
    · -- the last record, with the new one outside the buffer
      refine .seq (.value fun _ _ => trivial) fun space _ => ?_
      split_ifs
      · exact .fail
      · exact .value fun _ _ => trivial
    · refine .seq (.value fun _ _ => trivial) fun space _ => ?_
      split_ifs
      · exact .fail
      · exact .ret trivial
    · exact .fail
    · exact ih

theorem leads_addEntry (hinode : ∀ bs, v.blockSize p = some bs → InodeFits p total bs node.inode) :
    WritesIn S old v.startLba total
      (node.addEntry p name n) fun _ => True := by
  unfold addEntry
  split_ifs with hdir
  · exact .throw within
  · refine .bind (.value fun _ h => h) within fun bs hbs => ?_
    refine .bind (.value fun _ h => h) within fun mapped hmapped => ?_
    rw [hnode] at hbs
    cases mapped with
    | none => exact .throw within
    | some physicalSector =>
      rw [hnode, logicalToPhysicalSector, hbs, bind_some] at hmapped
      obtain ⟨found, hfound, hmapped⟩ := bind_eq_some_iff.mp hmapped
      cases found with
      | none => cases hmapped
      | some b =>
        have hb := (hinode bs hbs).blocks _ b hfound
        dsimp only at hmapped
        rw [hb.blockSector_eq hstart htotal] at hmapped
        cases hmapped
        have hlt := hb.lt (v := v) hstart htotal
        refine .bind (leads_readSectors (by omega) fun j _ hj => hb.inPartition (by omega))
          within fun buffer _ => ?_
        refine .bind leads_addEntryLoop within fun updated _ => ?_
        exact leads_of_within
          (leads_writeSectors (by omega) fun j _ hj => hb.inPartition (by omega))

end

end NwinOs.Fs.Ext4
