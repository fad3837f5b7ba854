import NwinOs.Fs.Equiv.BringUp
import NwinOs.Fs.Equiv.Manager

/-!
# What disk bring-up reserves

`processDisk` brings up one partition after the other.  Its ext4 partitions are disjoint and hold an
image each (`DiskImage`), so what is done to one of them is not undone by the others, and the disk
in the end has in each partition what `BroughtUp` says: the bits of two reservations are set and no
bit is cleared, the probe's reservation has no owner, and the demo file owns the other one if the
steps that link it succeeded.  `process_disk_orphans` is a disk on which nothing fails and an inode
without a name is left behind.
-/

namespace NwinOs.Fs

open Effect Ext4 List

/-! ### One volume -/

/-- What bring-up on the device `e` did to a volume whose image was `S`. -/
structure BroughtUp (p : Profile) (v : Ext4Volume) (bs total : ℕ) (S : ℕ → Bytes) (rootBlock : ℕ)
    (e : BlockDevice) (S' : ℕ → Bytes) (probe demo : Reservation) : Prop
    extends Marks v bs S S' [demo, probe] where
  probe_eq : (reserve p v e).value? = some probe
  demo_eq : ((do
    v.debugInfo p
    let _ ← Ext4Node.newRoot p v
    reserve p v : FsProgram Reservation) e).value? = some demo
  other : ∀ s, InPartition v.startLba total s → (∀ a, s ≠ bitmapSector v bs S a) →
    (∀ r ∈ [demo, probe], ∀ b, r.block = some b → ¬ InBlock v bs b s) →
    (∀ n, demo.inode = some n → s ≠ slotSector v bs S n) → ¬ InBlock v bs rootBlock s → S' s = S s
  linked : ∀ n b, ((do
    v.debugInfo p
    demoSteps p v : FsProgram (ℕ × ℕ)) e).value? = some (n, b) →
      demo = ⟨some n, some b⟩ ∧ Linked p v bs S' n ∧ References p v bs S' n b

section

variable {p : Profile} {v : Ext4Volume} {bs total rootBlock n b : ℕ} {S S' S'' : ℕ → Bytes}
  {records : List DirRecord} {d d' e : BlockDevice}

/-- The steps that succeed are those of the whole flow, which then only reads. -/
theorem createDemoFile_of_demoSteps (hsteps : demoSteps p v d = .ok (n, b) e)
    (hrun : createDemoFile p v d = .ok () d') :
    d'.sectors = e.sectors ∧
      ((do let _ ← Ext4Node.newRoot p v; reserve p v) d).value? = some ⟨some n, some b⟩ := by
  obtain ⟨node, d₀, hroot, hafterRoot⟩ := bind_ok hsteps
  obtain ⟨n', d₁, hinode, hafterInode⟩ := bind_ok hafterRoot
  obtain ⟨b', d₂, hblock, hafterBlock⟩ := bind_ok hafterInode
  obtain ⟨_, d₃, hdata, hafterData⟩ := bind_ok hafterBlock
  obtain ⟨_, d₄, hwrite, hafterWrite⟩ := bind_ok hafterData
  obtain ⟨_, d₅, hentry, hend⟩ := bind_ok hafterWrite
  cases hend
  have hreserve := reserve_of_ok hinode hblock
  refine ⟨?_, by rw [bind_of_ok hroot, hreserve]; rfl⟩
  rw [createDemoFile_eq, bind_of_ok hroot, bind_of_ok hreserve] at hrun
  unfold writeDemoFile at hrun
  dsimp only at hrun
  rw [bind_of_ok hdata, bind_of_ok (attempt_of_ok hwrite), bind_of_ok (attempt_of_ok hentry)]
    at hrun
  funext s
  refine Keeps.of_ok (.bind keeps_lookup fun found => ?_) hrun
  cases found with
  | none => exact .pure
  | some file => exact .bind keeps_read fun _ => .pure

/-- Other contents outside the partition do not matter. -/
theorem DemoLinked.congr (h : DemoLinked v bs S S' rootBlock records n b)
    (him : Image p v bs S total rootBlock records)
    (hsame : ∀ s, InPartition v.startLba total s → S'' s = S' s) :
    DemoLinked v bs S S'' rootBlock records n b := by
  have hdesc := hsame _ (him.system_inside _ (.inl rfl))
  have hinode : ∀ m, 1 ≤ m → m ≤ v.superBlock.sInodesPerGroup →
      inodeAt v bs S'' m = inodeAt v bs S' m := by
    intro m h1 h2
    apply inodeAt_congr (descriptor_congr hdesc)
    rw [(@slotSector_congr v bs m _ _ (descriptor_congr h.descriptor)).1]
    exact hsame _ (him.system_inside _ (system_slot h1 h2))
  refine ⟨h.inode_pos, h.inode_le, h.block_lt, hdesc.trans h.descriptor, ?_, ?_, ?_⟩
  · rw [hinode n h.inode_pos h.inode_le, h.inode]
  · rw [hinode 2 (by decide) him.root_le, h.root]
  · have hmul : bs / 512 * 512 = bs := Nat.div_mul_cancel him.dvd
    refine h.records.congr fun i _ hi => ?_
    exact congrFun (hsame _ (him.root_inside _ ⟨Nat.le_add_right .., by omega⟩)) _

/-- A demo file in place is linked, and refers to its block. -/
theorem DemoLinked.linked (h : DemoLinked v bs S S' rootBlock records n b)
    (him : Image p v bs S total rootBlock records) :
    Linked p v bs S' n ∧ References p v bs S' n b := by
  refine ⟨⟨0, rootBlock, _, ?_, ?_, h.records, ⟨n, nameBytes demoName⟩, by simp, rfl⟩, 0, ?_⟩
  · rw [h.root, Nat.zero_mul]
    exact lt_of_lt_of_le (lt_trans (by decide) him.blockSize_gt) him.root_size
  · rw [h.root]
    exact him.root_mapped
  · have hlt := h.block_lt
    rw [h.inode, physicalBlock_buildFileInode (by omega)]
    rfl

variable (him : Image p v bs S total rootBlock records)
include him

section

variable (hinside : ∀ s, InPartition v.startLba total s → d.sectors s = S s)
include hinside

/-- The stage that bring-up reaches before it writes the inode and the record of the demo file. -/
theorem bringUp_stage (hrun : bringUp p (.ext4 v) d = .ok () d') :
    ∃ probe demo d₁ S₂, v.debugInfo p d = .ok () d₁ ∧ createDemoFile p v d₁ = .ok () d' ∧
      Stage v bs S d.sectors d₁.sectors [probe] ∧ Stage v bs S d.sectors S₂ [demo, probe] ∧
      (reserve p v d).value? = some probe ∧
      ((do let _ ← Ext4Node.newRoot p v; reserve p v) d₁).value? = some demo ∧
      ∀ s, (∀ n, demo.inode = some n → s ≠ slotSector v bs S n) → ¬ InBlock v bs rootBlock s →
        d'.sectors s = S₂ s := by
  obtain ⟨_, d₁, hprobe, hdemo⟩ := bind_ok hrun
  have hstart : Stage v bs S d.sectors d.sectors [] :=
    .refl fun a => hinside _ (him.system_inside _ system_bitmap)
  obtain ⟨probe, hprobeEq, h₁⟩ := hstart.debugInfo him hinside hprobe
  obtain ⟨demo, hdemoEq, S₂, h₂, hother⟩ := h₁.createDemoFile him hinside hdemo
  exact ⟨probe, demo, d₁, S₂, hprobe, hdemo, h₁, h₂, hprobeEq, hdemoEq, hother⟩

/-- **Bring-up of a volume**, whose sectors are those of the image.  `S'` are the contents in the
end, which may differ outside the partition. -/
theorem bringUp_ext4 (hrun : bringUp p (.ext4 v) d = .ok () d')
    (hsame : ∀ s, InPartition v.startLba total s → S' s = d'.sectors s) :
    ∃ probe demo, BroughtUp p v bs total S rootBlock d S' probe demo := by
  obtain ⟨probe, demo, d₁, S₂, hprobe, hdemo, h₁, h₂, hprobeEq, hdemoEq, hother⟩ :=
    bringUp_stage him hinside hrun
  have hslot : ∀ n, demo.inode = some n → 1 ≤ n ∧ n ≤ v.superBlock.sInodesPerGroup := by
    intro n hn
    obtain ⟨k, rfl, hk⟩ := h₂.free demo mem_cons_self .inode n hn
    exact ⟨Nat.le_add_left .., (him.inode_of_free hk).1⟩
  have hbitmap : ∀ a, S' (bitmapSector v bs S a) = S₂ (bitmapSector v bs S a) := by
    intro a
    rw [hsame _ (him.system_inside _ system_bitmap)]
    refine hother _ (fun n hn => ?_) fun hs => him.root_apart _ hs system_bitmap
    obtain ⟨h1, h2⟩ := hslot n hn
    exact ((him.slot_ne n h1 h2).2 a).symm
  refine ⟨probe, demo, ⟨⟨fun a k => ?_, h₂.free⟩, hprobeEq, ?_, ?_, ?_⟩⟩
  · rw [hbitmap a]
    exact h₂.bits a k
  · rw [bind_of_ok hprobe]
    exact hdemoEq
  · intro s hs hbits hblocks hslots hroot
    rw [hsame s hs, hother s hslots hroot, h₂.other s hbits hblocks, hinside s hs]
  · intro n b hsteps
    obtain ⟨e, he⟩ := ok_of_value? hsteps
    rw [bind_of_ok hprobe] at he
    obtain ⟨hsectors, hreserved⟩ := createDemoFile_of_demoSteps he hdemo
    have hlinked := h₁.demoLinked him hinside he
    rw [← hsectors] at hlinked
    exact ⟨Option.some.inj (hdemoEq.symm.trans hreserved), (hlinked.congr him hsame).linked him⟩

end

variable {s : ℕ}

theorem bringUp_ext4_outside (hinside : ∀ s, InPartition v.startLba total s → d.sectors s = S s)
    (hrun : bringUp p (.ext4 v) d = .ok () d') (hs : ¬ InPartition v.startLba total s) :
    d'.sectors s = d.sectors s := by
  obtain ⟨probe, demo, d₁, S₂, _, _, _, h₂, _, _, hother⟩ := bringUp_stage him hinside hrun
  rw [hother s, h₂.other s]
  · rintro a rfl
    exact hs (him.system_inside _ system_bitmap)
  · intro r hr b hb hblock
    obtain ⟨_, rfl, hfree⟩ := h₂.free r hr .block b hb
    exact hs (him.free_inside _ hfree s hblock)
  · rintro n hn rfl
    obtain ⟨k, rfl, hk⟩ := h₂.free demo mem_cons_self .inode n hn
    exact hs (him.system_inside _ (system_slot (Nat.le_add_left ..) (him.inode_of_free hk).1))
  · exact fun hroot => hs (him.root_inside s hroot)

omit him

end

/-! ### The partitions of a disk -/

/-- The entries of the partition table. -/
def partitionsOf (S : ℕ → Bytes) : List PartitionEntry :=
  (List.range 4).map (PartitionEntry.ofBytes (S 0))

/-- The ext4 volume in a partition, with the super-block that the disk has. -/
def volumeOf (S : ℕ → Bytes) (part : PartitionEntry) : Ext4Volume :=
  ⟨part.startLba, .ofBytes (S (part.startLba + 2))⟩

/-- The sector belongs to the partition. -/
def PartitionEntry.Holds (part : PartitionEntry) (s : ℕ) : Prop :=
  InPartition part.startLba part.totalSectors s

/-- The ext4 partitions are disjoint, and each has an image. -/
structure DiskImage (p : Profile) (S : ℕ → Bytes) (parts : List PartitionEntry) : Prop where
  image : ∀ part ∈ parts, part.isLinux = true → ∃ bs rootBlock records,
    Image p (volumeOf S part) bs S part.totalSectors rootBlock records
  disjoint : parts.Pairwise fun part part' => part.isLinux = true → part'.isLinux = true →
    ∀ s, part.Holds s → ¬ part'.Holds s

/-- What `processPartitions` does with one partition. -/
def processPartition (p : Profile) (part : PartitionEntry) : FsProgram Unit := do
  match ← (mountPartition p part).attempt with
  | .error (_ : FsError) => pure ()
  | .ok none => pure ()
  | .ok (some volume) => bringUp p volume

/-- The device on which the volume of a partition was brought up. -/
def BringsUp (p : Profile) (d : BlockDevice) (part : PartitionEntry) (e : BlockDevice) : Prop :=
  ∃ mbr d₀ before after d₁, Mbr.readFrom d = .ok mbr d₀ ∧ mbr.isGptProtective = false ∧
    mbr.partitions = before ++ part :: after ∧ processPartitions p before d₀ = .ok () d₁ ∧
    mountPartition p part d₁ = .ok (some (.ext4 (volumeOf d.sectors part))) e

section

variable {p : Profile} {part : PartitionEntry} {parts : List PartitionEntry} {S : ℕ → Bytes}
  {d d' : BlockDevice} {v : Ext4Volume} {records : List DirRecord}

theorem processPartitions_cons : processPartitions p (part :: parts) = (do
    processPartition p part
    processPartitions p parts) := by
  unfold processPartition
  rw [processPartitions, bind_assoc]
  refine congrArg _ (funext fun r => ?_)
  cases r with
  | error e => rfl
  | ok volume =>
    cases volume with
    | none => rfl
    | some volume => rfl

theorem readBlock_ok {lba : ℕ} {buffer : Bytes} (h : readBlock lba d = .ok buffer d') :
    buffer = d.sectors lba := by
  unfold readBlock at h
  split_ifs at h
  cases h
  rfl

theorem volumeOf_of_mountPartition (h : mountPartition p part d = .ok (some (.ext4 v)) d') :
    part.isLinux = true ∧ v = volumeOf d.sectors part := by
  unfold mountPartition at h
  split_ifs at h with hempty hfat hlinux
  · cases h
  · obtain ⟨_, _, _, hend⟩ := bind_ok h
    cases hend
  · obtain ⟨v', d₁, hmount, hend⟩ := bind_ok h
    cases hend
    refine ⟨hlinux, ?_⟩
    obtain ⟨sector, d₂, hsector, hafterSector⟩ := bind_ok hmount
    obtain ⟨hadd, rfl⟩ := ofOption_ok hsector
    obtain ⟨buffer, d₃, hread, hafterRead⟩ := bind_ok hafterSector
    obtain ⟨_, d₄, hsecond, hafterSecond⟩ := bind_ok hafterRead
    obtain ⟨_, d₅, _, hcheck⟩ := bind_ok hafterSecond
    have hlt := part.startLba_lt
    have hsum := Profile.eq_of_add hadd
    rw [Nat.mod_eq_of_lt (by omega)] at hsum
    rw [readBlock_ok hread, hsum] at hcheck
    dsimp only at hcheck
    split_ifs at hcheck
    · cases hcheck
    · cases hcheck
      rfl
  · cases h

theorem Image.volumeOf_eq {bs rootBlock : ℕ}
    (him : Image p (volumeOf S part) bs S part.totalSectors rootBlock records)
    (hinside : ∀ s, part.Holds s → d.sectors s = S s) :
    volumeOf d.sectors part = volumeOf S part :=
  congrArg (fun buffer => (⟨part.startLba, .ofBytes buffer⟩ : Ext4Volume))
    (hinside _ him.superBlock_inside)

/-- One partition: nothing outside it changes, and inside it bring-up does, if it gets there. -/
theorem processPartition_cases (hrun : processPartition p part d = .ok () d') :
    d'.sectors = d.sectors ∨ ∃ v e, mountPartition p part d = .ok (some (.ext4 v)) e ∧
      e.sectors = d.sectors ∧ bringUp p (.ext4 v) e = .ok () d' := by
  obtain ⟨r, e, hattempt, hrest⟩ := bind_ok hrun
  have hsame : e.sectors = d.sectors := funext fun s => keeps_mountPartition.attempt.of_ok hattempt
  rcases attempt_ok hattempt with ⟨volume, hmount, rfl⟩ | ⟨_, _, rfl⟩
  · cases volume with
    | none =>
      cases hrest
      exact .inl hsame
    | some volume =>
      cases volume with
      | ext4 v => exact .inr ⟨v, e, hmount, hsame, hrest⟩
      | fat v =>
        refine .inl ((funext fun s => ?_).trans hsame)
        exact keeps_bringUp_fat.of_ok hrest
  · cases hrest
    exact .inl hsame

theorem processPartition_outside (himage : part.isLinux = true → ∃ bs rootBlock records,
      Image p (volumeOf S part) bs S part.totalSectors rootBlock records)
    (hinside : part.isLinux = true → ∀ s, part.Holds s → d.sectors s = S s)
    (hrun : processPartition p part d = .ok () d')
    (hs : part.isLinux = true → ¬ part.Holds s) : d'.sectors s = d.sectors s := by
  rcases processPartition_cases hrun with hsame | ⟨v, e, hmount, hsame, hbring⟩
  · rw [hsame]
  · obtain ⟨hlinux, rfl⟩ := volumeOf_of_mountPartition hmount
    obtain ⟨bs, rootBlock, records, him⟩ := himage hlinux
    rw [him.volumeOf_eq (hinside hlinux)] at hbring
    rw [← hsame] at hinside ⊢
    exact bringUp_ext4_outside him (hinside hlinux) hbring (hs hlinux)

theorem processPartitions_outside (hdisk : DiskImage p S parts)
    (hinside : ∀ part ∈ parts, part.isLinux = true → ∀ s, part.Holds s → d.sectors s = S s)
    (hrun : processPartitions p parts d = .ok () d')
    (hs : ∀ part ∈ parts, part.isLinux = true → ¬ part.Holds s) : d'.sectors s = d.sectors s := by
  induction parts generalizing d with
  | nil =>
    cases hrun
    rfl
  | cons part parts ih =>
    rw [processPartitions_cons] at hrun
    obtain ⟨_, d₁, hfirst, hrest⟩ := bind_ok hrun
    obtain ⟨hapart, hdisjoint⟩ := pairwise_cons.mp hdisk.disjoint
    have hkeep : ∀ s, (part.isLinux = true → ¬ part.Holds s) → d₁.sectors s = d.sectors s :=
      fun s => processPartition_outside (hdisk.image part mem_cons_self)
        (hinside part mem_cons_self) hfirst
    rw [ih ⟨fun q hq => hdisk.image q (mem_cons_of_mem _ hq), hdisjoint⟩ ?_ hrest
      fun q hq => hs q (mem_cons_of_mem _ hq)]
    · exact hkeep s (hs part mem_cons_self)
    · intro q hq hlinux s hqs
      rw [hkeep s fun hpart hps => hapart q hq hpart hlinux s hps hqs]
      exact hinside q (mem_cons_of_mem _ hq) hlinux s hqs

theorem processPartitions_cons_ok {d₁ : BlockDevice} {before : List PartitionEntry}
    (hfirst : processPartition p part d = .ok () d₁)
    (hbefore : processPartitions p before d₁ = .ok () d') :
    processPartitions p (part :: before) d = .ok () d' := by
  rw [processPartitions_cons, bind_of_ok hfirst, hbefore]

/-- **Each ext4 partition in the end**: as it was, or brought up. -/
theorem processPartitions_broughtUp (hdisk : DiskImage p S parts)
    (hinside : ∀ part ∈ parts, part.isLinux = true → ∀ s, part.Holds s → d.sectors s = S s)
    (hrun : processPartitions p parts d = .ok () d') (hpart : part ∈ parts)
    (hlinux : part.isLinux = true) {bs rootBlock : ℕ}
    (him : Image p (volumeOf S part) bs S part.totalSectors rootBlock records) :
    (∀ s, part.Holds s → d'.sectors s = S s) ∨ ∃ before after d₁ e probe demo,
      parts = before ++ part :: after ∧ processPartitions p before d = .ok () d₁ ∧
      mountPartition p part d₁ = .ok (some (.ext4 (volumeOf S part))) e ∧
      BroughtUp p (volumeOf S part) bs part.totalSectors S rootBlock e d'.sectors probe demo := by
  induction parts generalizing d with
  | nil => cases hpart
  | cons q parts ih =>
    rw [processPartitions_cons] at hrun
    obtain ⟨_, d₁, hfirst, hrest⟩ := bind_ok hrun
    obtain ⟨hapart, hdisjoint⟩ := pairwise_cons.mp hdisk.disjoint
    have hdisk' : DiskImage p S parts :=
      ⟨fun q' hq' => hdisk.image q' (mem_cons_of_mem _ hq'), hdisjoint⟩
    have hinside' : ∀ q' ∈ parts, q'.isLinux = true → ∀ s, q'.Holds s → d₁.sectors s = S s := by
      intro q' hq' hlinux' s hs
      rw [processPartition_outside (hdisk.image q mem_cons_self)
        (hinside q mem_cons_self) hfirst
        fun hq hqs => hapart q' hq' hq hlinux' s hqs hs]
      exact hinside q' (mem_cons_of_mem _ hq') hlinux' s hs
    rcases mem_cons.mp hpart with rfl | hmem
    · -- its turn; the others leave it alone
      have hsame : ∀ s, part.Holds s → d'.sectors s = d₁.sectors s := fun s hs =>
        processPartitions_outside hdisk' hinside' hrest fun q' hq' hlinux' =>
          hapart q' hq' hlinux hlinux' s hs
      have hpartInside := hinside part mem_cons_self hlinux
      rcases processPartition_cases hfirst with hunchanged | ⟨v, e, hmount, hsectors, hbring⟩
      · refine .inl fun s hs => ?_
        rw [hsame s hs, hunchanged, hpartInside s hs]
      · obtain ⟨_, rfl⟩ := volumeOf_of_mountPartition hmount
        rw [him.volumeOf_eq hpartInside] at hmount hbring
        rw [← hsectors] at hpartInside
        obtain ⟨probe, demo, hup⟩ := bringUp_ext4 him hpartInside hbring hsame
        exact .inr ⟨[], parts, d, e, probe, demo, rfl, rfl, hmount, hup⟩
    · rcases ih hdisk' hinside' hrest hmem with hunchanged | ⟨before, after, d₂, e, probe, demo,
        rfl, hbefore, hmount, hup⟩
      · exact .inl hunchanged
      · exact .inr ⟨q :: before, after, d₂, e, probe, demo, rfl,
          processPartitions_cons_ok hfirst hbefore, hmount, hup⟩

/-- **What disk bring-up reserves.**  Take a disk whose ext4 partitions are disjoint and hold an
image each, and any pattern of failures.  After `processDisk` each of these partitions is as it was,
or it was brought up: the bits that are set are those that were set, those of the inode and the
block of the probe, and those of the inode and the block of the demo file.  If the steps that link
the demo file succeeded, a record of the root directory names its inode, and the extents of that
inode refer to its block. -/
theorem process_disk_reserves {bs rootBlock : ℕ} {records : List DirRecord}
    (hdisk : DiskImage p d.sectors (partitionsOf d.sectors)) (hrun : processDisk p d = .ok () d')
    (hpart : part ∈ partitionsOf d.sectors) (hlinux : part.isLinux = true)
    (him : Image p (volumeOf d.sectors part) bs d.sectors part.totalSectors rootBlock records) :
    (∀ s, part.Holds s → d'.sectors s = d.sectors s) ∨
      ∃ e probe demo, BringsUp p d part e ∧
        BroughtUp p (volumeOf d.sectors part) bs part.totalSectors d.sectors rootBlock e d'.sectors
          probe demo := by
  obtain ⟨r, d₀, hattempt, hrest⟩ := bind_ok hrun
  have hsame : d₀.sectors = d.sectors := funext fun s => keeps_readFrom.attempt.of_ok hattempt
  rcases attempt_ok hattempt with ⟨mbr, hmbr, rfl⟩ | ⟨_, _, rfl⟩
  · have hparts : mbr.partitions = partitionsOf d.sectors := by
      obtain ⟨buffer, d₁, hread, hcheck⟩ := bind_ok hmbr
      rw [readBlock_ok hread] at hcheck
      split_ifs at hcheck
      · cases hcheck
      · cases hcheck
        rfl
    dsimp only at hrest
    cases hgpt : mbr.isGptProtective with
    | true =>
      rw [hgpt] at hrest
      cases hrest
      exact .inl fun s _ => congrFun hsame s
    | false =>
      rw [hgpt, hparts] at hrest
      rcases processPartitions_broughtUp hdisk (fun _ _ _ s _ => congrFun hsame s) hrest hpart
        hlinux him with hunchanged | ⟨before, after, d₁, e, probe, demo, hsplit, hbefore,
        hmount, hup⟩
      · exact .inl hunchanged
      · exact .inr ⟨e, probe, demo, ⟨mbr, d₀, before, after, d₁, hmbr, hgpt, hparts.trans hsplit,
          hbefore, hmount⟩, hup⟩
  · cases hrest
    exact .inl fun s _ => congrFun hsame s

end

/-! ### A disk with one ext4 partition -/

/-- The sample volume in a partition of 16384 sectors, with its super-block. -/
def demoSectors (s : ℕ) : Bytes :=
  if s = 0 then
    Bytes.putAll (fun _ => 0) [(450, 1, 0x83), (454, 4, 2048), (458, 4, 16384), (510, 2, 0xAA55)]
  else if s = 2050 then
    Bytes.putAll (fun _ => 0) [(0, 4, 16), (24, 4, 1), (40, 4, 16), (56, 2, 0xEF53)]
  else sampleSectors s

def demoDisk : BlockDevice := ⟨demoSectors, [], fun _ => false⟩

/-- The entry of the partition table. -/
def demoPartition : PartitionEntry := ⟨0x83, 2048, 16384, samplePartition.startLba_lt, by decide⟩

theorem demo_layout : bitmapSector sampleVolume 2048 demoSectors .inode = 2060 ∧
    bitmapSector sampleVolume 2048 demoSectors .block = 2056 ∧
    (descriptor sampleVolume 2048 demoSectors 0).bgInodeTableLo = 4 := by
  decide +kernel

theorem demo_slot {n : ℕ} (h1 : 1 ≤ n) (h2 : n ≤ 16) :
    2064 ≤ slotSector sampleVolume 2048 demoSectors n ∧
      slotSector sampleVolume 2048 demoSectors n < 2072 := by
  have hgroup : groupOf sampleVolume n = 0 := Nat.div_eq_of_lt (show n - 1 < 16 by omega)
  have hindex : indexOf sampleVolume n = n - 1 := Nat.mod_eq_of_lt (show n - 1 < 16 by omega)
  have hstart : sampleVolume.startLba = 2048 := rfl
  unfold slotSector slotByte inodeByte
  rw [hgroup, hindex, demo_layout.2.2, hstart]
  omega

theorem demo_system (h : System sampleVolume 2048 demoSectors s) : 2052 ≤ s ∧ s < 2072 := by
  rcases h with rfl | ⟨a, rfl⟩ | ⟨n, h1, h2, rfl⟩
  · decide
  · cases a with
    | inode =>
      decide
    | block =>
      decide
  · have := demo_slot h1 h2
    omega

theorem demo_free {b : ℕ} (h : Free sampleVolume 2048 demoSectors .block b) : 8 ≤ b := by
  by_contra hlt
  have hall : ∀ b < 8,
      bitAt (demoSectors (bitmapSector sampleVolume 2048 demoSectors .block)) b = true := by
    decide +kernel
  have hclear := h.2
  rw [hall b (by omega)] at hclear
  cases hclear

theorem demo_inBlock {b : ℕ} :
    InBlock sampleVolume 2048 b s ↔ 2048 + b * 4 ≤ s ∧ s < 2048 + b * 4 + 4 := Iff.rfl

theorem demo_image : Image .dev sampleVolume 2048 demoSectors 16384 6
    [⟨2, nameBytes "."⟩, ⟨2, nameBytes ".."⟩, ⟨11, nameBytes "a"⟩] where
  blockSize_eq := rfl
  blockSize_gt := by decide
  blockSize_le := by decide
  startLba_lt := by decide
  descriptor_ne a := by cases a <;> decide +kernel
  bitmaps_ne := by decide +kernel
  slot_ne n h1 h2 := by
    obtain ⟨hib, hbb, _⟩ := demo_layout
    have hslot := demo_slot h1 h2
    have hds : descriptorSector sampleVolume 2048 = 2052 := rfl
    refine ⟨by omega, fun a => ?_⟩
    cases a <;> omega
  padding k hk := by
    rintro ⟨_, hclear⟩
    change 16 ≤ k at hk
    change Bits.testBit (if k / 8 = 1 then 0x07 else 0xFF) (k % 8) = false at hclear
    have hset : Bits.testBit (0xFF : Byte) (k % 8) = true :=
      Bits.testBit_allOnes (Nat.mod_lt k (by decide))
    rw [if_neg (by omega), hset] at hclear
    cases hclear
  root_le := by decide
  root_valid := by decide
  root_marked := by
    rintro ⟨_, hclear⟩
    revert hclear
    decide +kernel
  root_isDirectory := by decide +kernel
  root_size := by decide +kernel
  root_mapped := by decide +kernel
  root_tiled := by
    refine sample_tiled.congr fun i _ hi => ?_
    rw [fileByte_eq_runBytes hi]
    have hsector : sectorOf sampleVolume 2048 6 = 2072 := rfl
    unfold runBytes demoSectors
    rw [hsector, if_neg (by omega), if_neg (by omega)]
  root_apart s hs hsystem := by
    have := demo_system hsystem
    rw [demo_inBlock] at hs
    omega
  free_apart b hb s hs := by
    have := demo_free hb
    rw [demo_inBlock] at hs
    refine ⟨fun hsystem => ?_, fun hroot => ?_⟩
    · have := demo_system hsystem
      omega
    · rw [demo_inBlock] at hroot
      omega
  superBlock_inside := by
    unfold InPartition
    decide
  system_inside s hs := by
    have := demo_system hs
    have hstart : sampleVolume.startLba = 2048 := rfl
    unfold InPartition
    omega
  root_inside s hs := by
    have hstart : sampleVolume.startLba = 2048 := rfl
    rw [demo_inBlock] at hs
    unfold InPartition
    omega
  free_inside b hb s hs := by
    have hlt := hb.1
    have hstart : sampleVolume.startLba = 2048 := rfl
    rw [demo_inBlock] at hs
    unfold InPartition
    omega

theorem demo_linux {part : PartitionEntry} (hpart : part ∈ partitionsOf demoSectors)
    (hlinux : part.isLinux = true) : part = demoPartition := by
  obtain ⟨i, hi, rfl⟩ := mem_map.mp hpart
  have hfirst : ∀ i < 4, (PartitionEntry.ofBytes (demoSectors 0) i).isLinux = true → i = 0 := by
    decide +kernel
  rw [hfirst i (mem_range.mp hi) hlinux]
  rfl

theorem demo_diskImage : DiskImage .dev demoSectors (partitionsOf demoSectors) where
  image part hpart hlinux := by
    rw [demo_linux hpart hlinux]
    exact ⟨2048, 6, _, demo_image⟩
  disjoint := by
    have hfirst : ∀ i < 4, (PartitionEntry.ofBytes (demoSectors 0) i).isLinux = true → i = 0 := by
      decide +kernel
    rw [partitionsOf, pairwise_map]
    refine List.Pairwise.imp_of_mem (fun {i j} hi hj hlt hlinux hlinux' => ?_) pairwise_lt_range
    have := hfirst j (mem_range.mp hj) hlinux'
    omega

theorem demo_mem : demoPartition ∈ partitionsOf demoSectors :=
  mem_map.mpr ⟨0, by decide, rfl⟩

theorem demo_returns : (processDisk .dev demoDisk).value? = some () := by decide +kernel

theorem process_disk_reserves_sample : ∃ d', processDisk .dev demoDisk = .ok () d' ∧
    ((∀ s, demoPartition.Holds s → d'.sectors s = demoDisk.sectors s) ∨
      ∃ e probe demo, BringsUp .dev demoDisk demoPartition e ∧
        BroughtUp .dev (volumeOf demoDisk.sectors demoPartition) 2048 16384 demoDisk.sectors 6 e
          d'.sectors probe demo) := by
  obtain ⟨d', hrun⟩ := ok_of_value? demo_returns
  exact ⟨d', hrun, process_disk_reserves demo_diskImage hrun demo_mem rfl demo_image⟩

/-- The disk after bring-up. -/
def demoFinal : ℕ → Bytes := (processDisk .dev demoDisk).state.sectors

theorem demo_final : bitAt (demoFinal 2060) 11 = true ∧
    (inodeAt sampleVolume 2048 demoFinal 2).size = 2048 ∧
    (inodeAt sampleVolume 2048 demoFinal 2).physicalBlock .dev 0 = some (some 6) ∧
    [0, 12, 24, 36].map (recLenAt (runBytes demoFinal 2072)) = [12, 12, 12, 2012] ∧
    [0, 12, 24, 36].map (nameLenAt (runBytes demoFinal 2072)) = [1, 2, 1, 13] ∧
    [0, 12, 24, 36].map (fun o => (runBytes demoFinal 2072).get o 4) = [2, 2, 11, 13] := by
  decide +kernel

theorem demo_final_tiled : ∃ recs, Tiled (runBytes demoFinal 2072) 0 2048 recs ∧
    recs.map (·.inode) = [2, 2, 11, 13] := by
  obtain ⟨_, _, _, hlen, hname, hinode⟩ := demo_final
  generalize runBytes demoFinal 2072 = b at hlen hname hinode
  simp only [map_cons, map_nil, List.cons.injEq, and_true] at hlen hname
  obtain ⟨h0, h12, h24, h36⟩ := hlen
  obtain ⟨n0, n12, n24, n36⟩ := hname
  refine ⟨[recordAt b 0, recordAt b 12, recordAt b 24, recordAt b 36], ?_, hinode⟩
  refine .cons ⟨by rw [h0]; decide, by rw [h0, n0]; decide⟩ ?_
  rw [h0]
  refine .cons ⟨by rw [h12]; decide, by rw [h12, n12]; decide⟩ ?_
  rw [h12]
  refine .cons ⟨by rw [h24]; decide, by rw [h24, n24]; decide⟩ ?_
  rw [h24]
  refine .cons ⟨by rw [h36]; decide, by rw [h36, n36]; decide⟩ ?_
  rw [h36]
  exact .nil _

theorem demo_final_not_linked : ¬ Linked .dev sampleVolume 2048 demoFinal 12 := by
  rintro ⟨l, b, recs, hl, hmap, htiled, r, hr, hinode⟩
  obtain ⟨_, hsize, hroot, _⟩ := demo_final
  obtain rfl : l = 0 := by omega
  rw [hroot] at hmap
  cases hmap
  obtain ⟨recs', htiled', hinodes⟩ := demo_final_tiled
  rw [htiled.unique htiled'] at hr
  have hmem : r.inode ∈ recs'.map (·.inode) := mem_map_of_mem hr
  rw [hinodes, hinode] at hmem
  revert hmem
  decide

/-- **Bring-up leaves an orphan.**  On this disk nothing fails, and the bit of inode 12, which was
clear, is set in the end, though no record of the root directory names the inode: the probe
reserved it. -/
theorem process_disk_orphans :
    ∃ (d d' : BlockDevice) (part : PartitionEntry) (k : ℕ),
      DiskImage .dev d.sectors (partitionsOf d.sectors) ∧ d.Reliable ∧
      processDisk .dev d = .ok () d' ∧ part ∈ partitionsOf d.sectors ∧ part.isLinux = true ∧
      bitAt (d.sectors (bitmapSector (volumeOf d.sectors part) 2048 d.sectors .inode)) k = false ∧
      bitAt (d'.sectors (bitmapSector (volumeOf d.sectors part) 2048 d.sectors .inode)) k = true ∧
      ¬ Linked .dev (volumeOf d.sectors part) 2048 d'.sectors (k + 1) := by
  obtain ⟨d', hrun⟩ := ok_of_value? demo_returns
  have hfinal : d'.sectors = demoFinal := by
    unfold demoFinal
    rw [hrun]
    rfl
  have hvolume : volumeOf demoDisk.sectors demoPartition = sampleVolume := rfl
  have hsectors : demoDisk.sectors = demoSectors := rfl
  refine ⟨demoDisk, d', demoPartition, 11, demo_diskImage, fun _ => rfl, hrun, demo_mem, rfl, ?_⟩
  rw [hfinal, hvolume, hsectors, demo_layout.1]
  exact ⟨by decide +kernel, demo_final.1, demo_final_not_linked⟩

end NwinOs.Fs
