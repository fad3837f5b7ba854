import NwinOs.Fs.Manager
import NwinOs.Fs.Equiv.BlockDevice

/-!
# What programs leave alone

`Keeps s m` says that `m` leaves sector `s` as it is, whichever accesses fail; a program that keeps
every sector only reads.  `Heals m` says that a run of `m` that succeeds on a device with failures
is also a run on the device without them, so that what is known of reliable devices applies to it.
Both follow the shape of a program.
-/

namespace NwinOs.Fs

open Effect

variable {α β : Type}

/-! ### Sectors that are kept -/

/-- The program leaves the sector as it is. -/
def Keeps (s : ℕ) (m : FsProgram α) : Prop := ∀ d, (m d).state.sectors s = d.sectors s

namespace Keeps

variable {s lba : ℕ} {p : Profile} {m : FsProgram α} {f : α → FsProgram β}

theorem pure {a : α} : Keeps s (Pure.pure a : FsProgram α) := fun _ => rfl

theorem throw {e : FsError} : Keeps s (Program.throw e : FsProgram α) := fun _ => rfl

variable {o : Option α}

theorem ofOption : Keeps s (Program.ofOption o : FsProgram α) := by
  intro d
  cases o with
  | none => rfl
  | some a => rfl

theorem ite {c : Prop} [Decidable c] {m' : FsProgram α} (h : Keeps s m) (h' : Keeps s m') :
    Keeps s (if c then m else m') := by
  split_ifs
  · exact h
  · exact h'

theorem bind (hm : Keeps s m) (hf : ∀ a, Keeps s (f a)) : Keeps s (m >>= f) := by
  intro d
  have hd := hm d
  change (Program.bind m f d).state.sectors s = _
  unfold Program.bind
  cases h : m d with
  | ok a d' =>
    rw [h] at hd
    exact (hf a d').trans hd
  | err _ _ | fault _ =>
    rw [h] at hd
    exact hd

theorem ofOption_bind (h : ∀ a, o = some a → Keeps s (f a)) :
    Keeps s (Program.ofOption o >>= f) := by
  cases o with
  | none => exact fun _ => rfl
  | some a => exact h a rfl

theorem attempt (hm : Keeps s m) : Keeps s (m.attempt : FsProgram (Except FsError α)) := by
  intro d
  have hd := hm d
  unfold Program.attempt
  cases h : m d with
  | ok _ _ | err _ _ | fault _ =>
    rw [h] at hd
    exact hd

theorem readBlock : Keeps s (Fs.readBlock lba) := by
  intro d
  unfold Fs.readBlock
  split_ifs <;> rfl

variable {buf : Bytes}

variable {count : ℕ}

variable {i : ℕ}

theorem readSectors : Keeps s (Fs.readSectors p lba count i buf) := by
  induction count generalizing i buf with
  | zero => exact pure
  | succ count ih => exact .bind .ofOption fun _ => .bind readBlock fun _ => ih

theorem writeSectors (h : ∀ k, i ≤ k → k < i + count → p.add 64 lba k ≠ some s) :
    Keeps s (Fs.writeSectors p lba buf count i) :=
  fun _ => (leads_writeSectors_of_ne h).state rfl

/-- A sector is the same after a run that returned. -/
theorem of_ok (h : Keeps s m) {a : α} {d d' : BlockDevice} (hrun : m d = .ok a d') :
    d'.sectors s = d.sectors s := by
  have hd := h d
  rw [hrun] at hd
  exact hd

end Keeps

/-! ### Reading an ext4 volume -/

namespace Ext4

variable {s : ℕ} {p : Profile} {v : Ext4Volume} {node : Ext4Node} {name : String}

theorem keeps_mount {startLba : ℕ} : Keeps s (mount p startLba) :=
  .bind .ofOption fun _ => .bind .readBlock fun _ => .bind .ofOption fun _ =>
    .bind .readBlock fun _ => .ite .throw .pure

variable {bs : ℕ}

theorem keeps_readDescriptor {g : ℕ} : Keeps s (v.readDescriptor p bs g) :=
  .bind .ofOption fun _ => .bind .readBlock fun _ => .pure

variable {n : ℕ}

theorem keeps_locateInode : Keeps s (v.locateInode p n) :=
  .ite .throw (.bind .ofOption fun _ => .bind .ofOption fun _ => .bind keeps_readDescriptor fun _ =>
    .bind .ofOption fun _ => .bind .ofOption fun _ => .bind .ofOption fun _ => .pure)

theorem keeps_readInode : Keeps s (v.readInode p n) :=
  .bind keeps_locateInode fun _ => .bind .readBlock fun _ => .pure

theorem keeps_newRoot : Keeps s (Ext4Node.newRoot p v) := by
  refine .bind (.attempt keeps_readInode) fun r => ?_
  cases r with
  | ok inode => exact .pure
  | error e => exact .pure

variable {offset fuel : ℕ}

theorem keeps_readLoop {copied : List Byte} :
    Keeps s (node.readLoop p (fun _ => none) bs count fuel copied offset) := by
  induction fuel generalizing copied offset with
  | zero => exact .pure
  | succ fuel ih =>
    unfold Ext4Node.readLoop
    split_ifs
    · refine .bind .ofOption fun lba => ?_
      cases lba with
      | none => exact .pure
      | some lba =>
        refine .bind .ofOption fun _ => .bind (.attempt .readBlock) fun r => ?_
        cases r with
        | ok sector => exact ih
        | error e => exact .pure
    · exact .pure

theorem keeps_read {length : ℕ} : Keeps s (node.read p offset length) :=
  .ite .pure (.bind .ofOption fun _ => .bind .ofOption fun _ => keeps_readLoop)

variable {buffer : Bytes}

theorem keeps_lookupLoop : Keeps s (node.lookupLoop p name buffer count fuel offset) := by
  induction fuel generalizing offset with
  | zero => exact .pure
  | succ fuel ih =>
    unfold Ext4Node.lookupLoop
    dsimp only
    split_ifs
    · exact .ofOption
    · exact .pure
    · exact .pure
    · refine .bind (.attempt keeps_readInode) fun r => ?_
      cases r with
      | ok inode => exact .pure
      | error e => exact ih
    · exact ih
    · exact ih
    · exact .pure

theorem keeps_addEntryLoop {name : List Byte} :
    Keeps s (Ext4Node.addEntryLoop p bs name n buffer fuel offset) := by
  induction fuel generalizing offset with
  | zero => exact .ofOption
  | succ fuel ih =>
    exact .ite .ofOption (.ite (.bind .ofOption fun _ => .ite .throw (.ite .ofOption .pure))
      (.ite .throw ih))

theorem keeps_addEntry {lba : ℕ} (hbs : node.volume.blockSize p = some bs)
    (hsector : node.volume.logicalToPhysicalSector p node.inode 0 = some (some lba))
    (hs : ∀ k, k < bs / 512 → p.add 64 lba k ≠ some s) : Keeps s (node.addEntry p name n) := by
  refine .ite .throw (.ofOption_bind fun bs' hbs' => .ofOption_bind fun lba' hlba' => ?_)
  obtain rfl : bs = bs' := Option.some.inj (hbs.symm.trans hbs')
  obtain rfl : some lba = lba' := Option.some.inj (hsector.symm.trans hlba')
  refine .bind .readSectors fun _ => .bind keeps_addEntryLoop fun _ => .writeSectors ?_
  intro k _ hk
  exact hs k (by omega)

theorem keeps_lookup : Keeps s (node.lookup p name) :=
  .ite .pure (.bind keeps_read fun _ => .ite .pure keeps_lookupLoop)

end Ext4

/-! ### Reading a FAT volume -/

namespace Fat

variable {s : ℕ} {p : Profile} {v : FatVolume}

theorem keeps_mount {startLba : ℕ} : Keeps s (FatVolume.mount startLba) :=
  .bind .readBlock fun _ => .ite .throw (.ite .pure .pure)

theorem keeps_nextCluster {c : ℕ} : Keeps s (v.nextCluster p c) := by
  refine .bind .ofOption fun _ => .bind .ofOption fun _ => .bind .ofOption fun _ =>
    .bind .ofOption fun _ => .bind (.attempt .readBlock) fun r => ?_
  cases r with
  | error e => exact .pure
  | ok buffer =>
    dsimp only
    split
    · exact .ite .ofOption .pure
    · exact .ite .ofOption .pure

theorem keeps_countFragments {fuel c n : ℕ} : Keeps s (v.countFragments p fuel c n) := by
  induction fuel generalizing c n with
  | zero => exact .pure
  | succ fuel ih =>
    refine .bind keeps_nextCluster fun r => ?_
    cases r with
    | none => exact .pure
    | some next =>
      exact .ite .pure ih

theorem keeps_listEntries {entries : List DirectoryEntry} : Keeps s (v.listEntries p entries) := by
  induction entries with
  | nil => exact .pure
  | cons entry rest ih =>
    exact .ite ih (.ite (.bind ih fun _ => .pure)
      (.bind keeps_countFragments fun _ => .bind ih fun _ => .pure))

theorem keeps_listRootDir : Keeps s (v.listRootDir p) := by
  refine .bind .ofOption fun _ => .bind (.attempt .readBlock) fun r => ?_
  cases r with
  | error e => exact .pure
  | ok buffer => exact keeps_listEntries

end Fat

/-! ### Reading the partition table and mounting -/

section

variable {s : ℕ} {p : Profile}

theorem keeps_readFrom : Keeps s Mbr.readFrom := .bind .readBlock fun _ => .ite .throw .pure

theorem keeps_mountPartition {part : PartitionEntry} : Keeps s (mountPartition p part) :=
  .ite .pure (.ite (.bind Fat.keeps_mount fun _ => .pure)
    (.ite (.bind Ext4.keeps_mount fun _ => .pure) .pure))

theorem keeps_bringUp_fat {v : Fat.FatVolume} : Keeps s (bringUp p (.fat v)) :=
  .bind (.bind .ofOption fun _ => .bind .ofOption fun _ => .pure) fun _ =>
    .bind Fat.keeps_listRootDir fun _ => .pure

end

/-! ### Runs that succeed in spite of failures -/

/-- A run that returns does the same on the healed device. -/
def Heals (m : FsProgram α) : Prop :=
  ∀ d a d', m d = .ok a d' → m d.healed = .ok a d'.healed

namespace Heals

variable {lba : ℕ} {p : Profile} {m : FsProgram α} {f : α → FsProgram β}

theorem pure {a : α} : Heals (Pure.pure a : FsProgram α) := by
  rintro d _ _ ⟨⟩
  rfl

theorem throw {e : FsError} : Heals (Program.throw e : FsProgram α) := by
  rintro d _ _ ⟨⟩

theorem ofOption : Heals (Program.ofOption o : FsProgram α) := by
  intro d a d' h
  obtain ⟨rfl, rfl⟩ := ofOption_ok h
  rfl

theorem ite {c : Prop} [Decidable c] {m' : FsProgram α} (h : Heals m) (h' : Heals m') :
    Heals (if c then m else m') := by
  split_ifs
  · exact h
  · exact h'

theorem bind (hm : Heals m) (hf : ∀ a, Heals (f a)) : Heals (m >>= f) := by
  intro d b d' h
  obtain ⟨a, d₁, h₁, h₂⟩ := bind_ok h
  exact (bind_of_ok (hm d a d₁ h₁)).trans (hf a d₁ b d' h₂)

theorem readBlock : Heals (Fs.readBlock lba) := by
  intro d a d' h
  unfold Fs.readBlock at h
  split_ifs at h
  cases h
  rfl

variable {buf : Bytes}

theorem writeBlock : Heals (Fs.writeBlock lba buf) := by
  intro d a d' h
  unfold Fs.writeBlock at h
  split_ifs at h
  cases h
  rfl

theorem readSectors : Heals (Fs.readSectors p lba count i buf) := by
  induction count generalizing i buf with
  | zero => exact pure
  | succ count ih => exact .bind .ofOption fun _ => .bind readBlock fun _ => ih

theorem writeSectors : Heals (Fs.writeSectors p lba buf count i) := by
  induction count generalizing i with
  | zero => exact pure
  | succ count ih => exact .bind .ofOption fun _ => .bind writeBlock fun _ => ih

end Heals

namespace Ext4

variable {p : Profile} {v : Ext4Volume} {node : Ext4Node} {n : ℕ}

theorem heals_locateInode : Heals (v.locateInode p n) :=
  .ite .throw (.bind .ofOption fun _ => .bind .ofOption fun _ =>
    .bind (.bind .ofOption fun _ => .bind .readBlock fun _ => .pure) fun _ =>
    .bind .ofOption fun _ => .bind .ofOption fun _ => .bind .ofOption fun _ => .pure)

theorem heals_readInode : Heals (v.readInode p n) :=
  .bind heals_locateInode fun _ => .bind .readBlock fun _ => .pure

theorem heals_writeInode {inode : Ext4Inode} : Heals (v.writeInode p n inode) :=
  .bind heals_locateInode fun _ => .bind .readBlock fun _ => .writeBlock

theorem heals_addEntryLoop {bs fuel offset : ℕ} {name : List Byte} :
    Heals (Ext4Node.addEntryLoop p bs name n buffer fuel offset) := by
  induction fuel generalizing offset with
  | zero => exact .ofOption
  | succ fuel ih =>
    exact .ite .ofOption (.ite (.bind .ofOption fun _ => .ite .throw (.ite .ofOption .pure))
      (.ite .throw ih))

theorem heals_addEntry {name : String} : Heals (node.addEntry p name n) := by
  refine .ite .throw (.bind .ofOption fun _ => .bind .ofOption fun lba => ?_)
  cases lba with
  | none => exact .throw
  | some lba =>
    exact .bind .readSectors fun _ => .bind heals_addEntryLoop fun _ => .writeSectors

end Ext4

end NwinOs.Fs
