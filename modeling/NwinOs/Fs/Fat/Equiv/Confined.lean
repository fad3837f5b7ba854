import NwinOs.Fs.Fat.Equiv.Chain
import NwinOs.Fs.Equiv.Confined

/-!
# Which sectors the FAT16 operations access

As for ext4, the driver does not compare a sector with the end of the partition; `EntryFits` and
`ClusterFits` say that the fields and a cluster point into it.  A chain is followed through the file
allocation table on the disk, so what an operation needs is that every cluster it can reach fits.
-/

namespace NwinOs.Fs.Fat

open Effect FatVolume

/-! ### What fits -/

/-- The table entry of the cluster lies in the partition. -/
def EntryFits (total : ℕ) (bs : Fat16BootSector) (c : ℕ) : Prop := entryOffset bs c < total

/-- The number is one of a data cluster, and the cluster lies in the partition. -/
def ClusterFits (total : ℕ) (bs : Fat16BootSector) (c : ℕ) : Prop :=
  2 ≤ c ∧ 0 < bs.sectorsPerCluster ∧ clusterOffset bs c + bs.sectorsPerCluster ≤ total

/-- The second cluster is in the chain of the first. -/
def Reaches (v : FatVolume) (bs : Fat16BootSector) (S : ℕ → Bytes) (c c' : ℕ) : Prop :=
  ∃ i, chain v bs S i c = some c'

namespace Reaches

variable {v : FatVolume} {bs : Fat16BootSector} {S : ℕ → Bytes} {c c' c'' : ℕ}

theorem refl : Reaches v bs S c c := ⟨0, rfl⟩

theorem head (hlink : linkOf v bs S c = some c') (h : Reaches v bs S c' c'') :
    Reaches v bs S c c'' := by
  obtain ⟨i, hi⟩ := h
  exact ⟨i + 1, by rw [chain, hlink, Option.bind_some, hi]⟩

theorem trans (h : Reaches v bs S c c') (h' : Reaches v bs S c' c'') : Reaches v bs S c c'' := by
  obtain ⟨i, hi⟩ := h
  obtain ⟨j, hj⟩ := h'
  exact ⟨i + j, by rw [chain_add, hi, Option.bind_some, hj]⟩

end Reaches

/-! ### Volume operations -/

section

variable {p : Profile} {v : FatVolume} {bs : Fat16BootSector} {total c : ℕ} {S : ℕ → Bytes}
  {old : List Access} (h16 : v.fatType = .fat16 bs) (hstart : v.startLba < 2 ^ 32)
  (htotal : total < 2 ^ 32)

include h16 hstart htotal

theorem leads_nextCluster (hc : EntryFits total bs c) :
    ReadsIn S old v.startLba total (v.nextCluster p c)
      fun next => ∀ c', next = some c' → linkOf v bs S c = some c' := by
  have h2 := bs.bytesPerSector_lt
  have hfits : entryOffset bs c < total := hc
  unfold EntryFits entryOffset at hc
  by_cases hbps : bs.bytesPerSector = 0
  · -- no access: the division panics
    have hdiv : ∀ a, checkedDiv a bs.bytesPerSector = none := fun a => if_pos hbps
    unfold nextCluster
    rw [h16]
    dsimp only [FatType.boot]
    simp only [hdiv]
    refine .seq (.value fun _ _ => trivial) fun _ _ => ?_
    refine .seq (.value fun _ _ => trivial) fun _ _ => ?_
    exact fun d hd => hd
  have hlt : c * 2 < 2 ^ 32 * 2 ^ 16 := by
    have hq : c * 2 / bs.bytesPerSector < 2 ^ 32 := by omega
    have hmul := (Nat.div_lt_iff_lt_mul (Nat.pos_of_ne_zero hbps)).mp hq
    exact hmul.trans_le (Nat.mul_le_mul_left _ h2.le)
  rw [nextCluster_eq h16 hstart hbps (by omega)]
  have hin : InPartition v.startLba total (v.startLba + entryOffset bs c) :=
    ⟨Nat.le_add_right .., by omega⟩
  refine .seq (leads_readBlock hin).attempt fun result hresult => ?_
  cases result with
  | error =>
    refine .ret ?_
    rintro _ ⟨⟩
  | ok buffer =>
    dsimp only
    split_ifs with hinside hend
    · refine .ret ?_
      rintro _ ⟨⟩
    · refine .ret ?_
      rintro _ ⟨⟩
      rw [hresult buffer rfl] at hend ⊢
      exact if_neg hend
    · exact fun d hd => hd

theorem leads_countFragments : ∀ {fuel c fragments : ℕ},
    (∀ c', Reaches v bs S c c' → EntryFits total bs c') →
    ReadsIn S old v.startLba total (v.countFragments p fuel c fragments)
      fun _ => True := by
  intro fuel
  induction fuel with
  | zero => exact fun _ => .ret trivial
  | succ fuel ih =>
    intro c fragments hchain
    refine .seq (leads_nextCluster h16 hstart htotal (hchain c .refl)) ?_
    intro next hnext
    cases next with
    | none => exact .ret trivial
    | some c' =>
      split_ifs with hcap
      · exact .ret trivial
      · exact ih fun c'' hc'' => hchain c'' (.head (hnext c' rfl) hc'')

theorem leads_listEntries {entries : List DirectoryEntry}
    (hchain : ∀ entry ∈ entries, entry.skipped = false → entry.isDir = false →
      ∀ c, Reaches v bs S entry.startCluster c → EntryFits total bs c) :
    ReadsIn S old v.startLba total (v.listEntries p entries)
      fun _ => True := by
  induction entries with
  | nil => exact .ret trivial
  | cons entry rest ih =>
    have ih := ih fun e he => hchain e (List.mem_cons_of_mem _ he)
    rw [listEntries]
    split_ifs with hskip hdir
    · exact ih
    · exact .seq ih fun _ _ => .ret trivial
    · have hentry := hchain entry List.mem_cons_self (Bool.eq_false_of_not_eq_true hskip)
        (Bool.eq_false_of_not_eq_true hdir)
      refine .seq (leads_countFragments h16 hstart htotal hentry) fun _ _ => ?_
      exact .seq ih fun _ _ => .ret trivial

theorem leads_listRootDir (hroot : rootOffset bs < total)
    (hchain : ∀ entry ∈ entriesOf (S (v.startLba + rootOffset bs)), entry.skipped = false →
      entry.isDir = false → ∀ c, Reaches v bs S entry.startCluster c → EntryFits total bs c) :
    ReadsIn S old v.startLba total (v.listRootDir p) fun _ => True := by
  unfold listRootDir callDepth
  rw [rootDirSector_eq h16 hstart]
  apply Leads.ofOption_some_bind
  have hin : InPartition v.startLba total (v.startLba + rootOffset bs) := ⟨by omega, by omega⟩
  refine .seq (leads_readBlock hin).attempt fun result hresult => ?_
  cases result with
  | error => exact .ret trivial
  | ok buffer =>
    rw [← hresult buffer rfl] at hchain
    exact leads_listEntries h16 hstart htotal hchain

theorem leads_clusterToSector {α : Type} {f : ℕ → FsProgram α} (hc : ClusterFits total bs c)
    (hf : bs.bytesPerSector ≠ 0 →
      ReadsIn S old v.startLba total (f (v.startLba + clusterOffset bs c))
      fun _ => True) :
    ReadsIn S old v.startLba total
      (Program.ofOption (v.clusterToSector p c callDepth) >>= f) fun _ => True := by
  obtain ⟨h2, hspc, hle⟩ := hc
  unfold callDepth
  by_cases hbps : bs.bytesPerSector = 0
  · have hnone : v.clusterToSector p c 3 = none := by
      rw [clusterToSector, firstDataSector_eq_none h16 hbps]
      rfl
    rw [hnone]
    exact fun d hd => hd
  · rw [clusterToSector_eq h16 hstart hbps h2 (by omega)]
    exact .ofOption_some_bind (hf hbps)

/-! ### Nodes -/

variable {node : FatNode} (hnode : node.volume = v)

include hnode

omit h16 hstart htotal hnode in
/-- Whichever sector it is, one read and no further access. -/
theorem leads_firstSector {name : String} {sector : ℕ} (hin : InPartition v.startLba total sector) :
    ReadsIn S old v.startLba total
      (do
        match ← (readBlock sector).attempt with
        | .error (_ : FsError) => pure none
        | .ok buffer =>
          pure (((entriesOf buffer).find? fun entry =>
            !entry.skipped && eqIgnoreAsciiCase entry.shortName name).map
              (FatNode.ofEntry v)) : FsProgram (Option FatNode)) fun _ => True := by
  refine .seq (leads_readBlock hin).attempt fun result _ => ?_
  cases result with
  | error | ok _ => exact .ret trivial

theorem leads_lookup {name : String} (hroot : node.startCluster = 0 → rootOffset bs < total)
    (hc : node.startCluster ≠ 0 → ClusterFits total bs node.startCluster) :
    ReadsIn S old v.startLba total (node.lookup p name) fun _ => True := by
  unfold FatNode.lookup
  rw [hnode]
  split_ifs with hdir hzero
  · exact .ret trivial
  · unfold callDepth
    rw [rootDirSector_eq h16 hstart]
    exact leads_firstSector ⟨by omega, by omega⟩
  · have hfits := hc hzero
    refine leads_clusterToSector h16 hstart htotal hfits fun _ => leads_firstSector ?_
    obtain ⟨_, hspc, hle⟩ := hfits
    exact ⟨by omega, by omega⟩

theorem leads_skipClusters : ∀ {count c : ℕ}, (∀ c', Reaches v bs S c c' → EntryFits total bs c') →
    ReadsIn S old v.startLba total (node.skipClusters p count c)
      fun r => ∀ c', r = some c' → Reaches v bs S c c' := by
  intro count
  induction count with
  | zero =>
    intro c _
    refine .ret ?_
    rintro _ ⟨⟩
    exact .refl
  | succ count ih =>
    intro c hchain
    rw [FatNode.skipClusters, hnode]
    refine .seq (leads_nextCluster h16 hstart htotal (hchain c .refl)) ?_
    intro next hnext
    cases next with
    | none =>
      refine .ret ?_
      rintro _ ⟨⟩
    | some c' =>
      have hlink := hnext c' rfl
      refine (ih fun c'' hc'' => hchain c'' (.head hlink hc'')).mono (fun _ h => h) ?_
      exact fun r hr c'' hc'' => .head hlink (hr c'' hc'')

theorem leads_readLoop {bytesToRead : ℕ} (hbps : bs.bytesPerSector ≠ 0) :
    ∀ {fuel : ℕ} {copied : List Byte} {c offset : ℕ},
      offset < bs.bytesPerSector * bs.sectorsPerCluster →
      (∀ c', Reaches v bs S c c' → EntryFits total bs c' ∧ ClusterFits total bs c') →
      ReadsIn S old v.startLba total (node.readLoopVia (fun c => v.clusterToSector p c
        callDepth) p bytesToRead fuel copied c offset) fun _ => True := by
  intro fuel
  induction fuel with
  | zero => exact fun _ _ => .ret trivial
  | succ fuel ih =>
    intro copied c offset hoffset hchain
    obtain ⟨hentry, hc⟩ := hchain c .refl
    have hsector : offset / bs.bytesPerSector < bs.sectorsPerCluster :=
      Nat.div_lt_of_lt_mul hoffset
    rw [FatNode.readLoopVia, hnode, h16]
    dsimp only [FatType.boot]
    by_cases hmore : copied.length < bytesToRead
    · rw [if_pos hmore]
      refine leads_clusterToSector h16 hstart htotal hc fun _ => ?_
      obtain ⟨_, hspc, hle⟩ := hc
      rw [Profile.add_eq_some (by omega)]
      apply Leads.ofOption_some_bind
      have hin : InPartition v.startLba total
          (v.startLba + clusterOffset bs c + offset / bs.bytesPerSector) :=
        ⟨(Nat.le_add_right ..).trans (Nat.le_add_right ..), by omega⟩
      refine .seq (leads_readBlock hin).attempt fun result _ => ?_
      cases result with
      | error => exact .ret trivial
      | ok sector =>
        generalize hchunk : min (bs.bytesPerSector - offset % bs.bytesPerSector)
          (bytesToRead - copied.length) = chunk
        -- a chunk ends at the latest where its sector does
        have hnext : offset + chunk ≤ bs.bytesPerSector * bs.sectorsPerCluster := by
          have hdiv := Nat.div_add_mod offset bs.bytesPerSector
          have hmul := Nat.mul_le_mul_left bs.bytesPerSector hsector
          rw [Nat.mul_succ] at hmul
          omega
        split_ifs with hslice hend
        · exact fun d hd => hd
        · refine .seq (leads_nextCluster h16 hstart htotal hentry) ?_
          intro next hlink
          cases next with
          | none => exact .ret trivial
          | some c' =>
            exact ih (Nat.mul_pos (Nat.pos_of_ne_zero hbps) hspc) fun c'' hc'' =>
              hchain c'' (.head (hlink c' rfl) hc'')
        · exact ih (lt_of_le_of_ne hnext hend) hchain
    · rw [if_neg hmore]
      exact .ret trivial

theorem leads_read {offset length : ℕ} (hchain : ∀ c, Reaches v bs S node.startCluster c →
      EntryFits total bs c ∧ ClusterFits total bs c) :
    ReadsIn S old v.startLba total (node.read p offset length)
      fun _ => True := by
  unfold FatNode.read FatNode.readVia
  rw [hnode, h16]
  dsimp only [FatType.boot]
  split_ifs with hempty
  · exact .ret trivial
  · by_cases hzero : bs.bytesPerSector * bs.sectorsPerCluster = 0
    · have hdiv : checkedDiv offset (bs.bytesPerSector * bs.sectorsPerCluster) = none :=
        if_pos hzero
      rw [hdiv]
      exact fun d hd => hd
    · refine .seq (.value fun _ _ => trivial) fun count _ => ?_
      refine .seq (leads_skipClusters h16 hstart htotal hnode fun c hc => (hchain c hc).1)
        fun current hcurrent => ?_
      cases current with
      | none => exact .ret trivial
      | some c =>
        have hreach := hcurrent c rfl
        refine leads_readLoop h16 hstart htotal hnode (fun hbps => hzero ?_)
          (Nat.mod_lt _ (Nat.pos_of_ne_zero hzero)) fun c' hc' => hchain c' (hreach.trans hc')
        rw [hbps, Nat.zero_mul]

end

end NwinOs.Fs.Fat
