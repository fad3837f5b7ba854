import NwinOs.Fs.Fat.Equiv.Geometry
import NwinOs.Fs.Fat.Node
import NwinOs.Fs.Equiv.BlockDevice

/-!
# Cluster chains of a FAT16 volume

`linkOf` is the table entry of a cluster and `chain` the cluster so many links behind another one.
`next_cluster` is one link, if the device delivers the sector of the entry and the entry lies in the
512 bytes that are read; skipping is several.
-/

namespace NwinOs.Fs.Fat

open Effect

/-! ### Links -/

/-- The cluster that the table names behind a cluster, if the chain goes on. -/
def linkOf (v : FatVolume) (bs : Fat16BootSector) (S : ℕ → Bytes) (c : ℕ) : Option ℕ :=
  let next := (S (v.startLba + entryOffset bs c)).get (c * 2 % bs.bytesPerSector) 2
  if 0xFFF8 ≤ next then none else some next

/-- The cluster `i` links behind a cluster. -/
def chain (v : FatVolume) (bs : Fat16BootSector) (S : ℕ → Bytes) : ℕ → ℕ → Option ℕ
  | 0, c => some c
  | i + 1, c => (linkOf v bs S c).bind (chain v bs S i)

/-- The table entry of the cluster lies in the part of its sector that is read. -/
def EntrySafe (bs : Fat16BootSector) (c : ℕ) : Prop := c * 2 % bs.bytesPerSector + 2 ≤ 512

instance (bs : Fat16BootSector) (c : ℕ) : Decidable (EntrySafe bs c) :=
  inferInstanceAs (Decidable (_ ≤ _))

section

variable {p : Profile} {v : FatVolume} {bs : Fat16BootSector} {S : ℕ → Bytes} {c c' i j : ℕ}

theorem linkOf_lt (h : linkOf v bs S c = some c') : c' < 0xFFF8 := by
  unfold linkOf at h
  dsimp only at h
  split_ifs at h with hend
  cases h
  omega

theorem chain_add : chain v bs S (i + j) c = (chain v bs S i c).bind (chain v bs S j) := by
  induction i generalizing c with
  | zero => rw [Nat.zero_add, chain, Option.bind_some]
  | succ i ih =>
    rw [Nat.succ_add, chain, chain, Option.bind_assoc]
    exact congrArg _ (funext fun c' => ih)

theorem chain_lt (hc : c < 2 ^ 32) (h : chain v bs S i c = some c') : c' < 2 ^ 32 := by
  induction i generalizing c with
  | zero =>
    cases h
    exact hc
  | succ i ih =>
    obtain ⟨next, hnext, hrest⟩ := Option.bind_eq_some_iff.mp h
    have hlt := linkOf_lt hnext
    exact ih (by omega) hrest

/-! ### Walking -/

variable (h16 : v.fatType = .fat16 bs) {d : BlockDevice}

include h16

theorem nextCluster_eq_fault (hbps : bs.bytesPerSector = 0)
    (hstart : v.startLba < 2 ^ 32) (hc : c < 2 ^ 60) : v.nextCluster p c d = .fault d := by
  have h1 := bs.reservedSectorCount_lt
  unfold FatVolume.nextCluster
  rw [h16]
  dsimp only [FatType.boot]
  rw [Profile.add_eq_some (by omega), Profile.mul_eq_some (by omega), hbps]
  rfl

variable (hstart : v.startLba < 2 ^ 32)

include hstart

theorem nextCluster_eq (hbps : bs.bytesPerSector ≠ 0) (hc : c < 2 ^ 60) :
    v.nextCluster p c = (do
      match ← (readBlock (v.startLba + entryOffset bs c)).attempt with
      | .error (_ : FsError) => pure none
      | .ok buffer =>
        if EntrySafe bs c then
          pure (if 0xFFF8 ≤ buffer.get (c * 2 % bs.bytesPerSector) 2 then none
            else some (buffer.get (c * 2 % bs.bytesPerSector) 2))
        else Program.ofOption none) := by
  have h1 := bs.reservedSectorCount_lt
  have hdiv : c * 2 / bs.bytesPerSector ≤ c * 2 := Nat.div_le_self ..
  have hcheck : FatVolume.checkedDiv (c * 2) bs.bytesPerSector
      = some (c * 2 / bs.bytesPerSector) := if_neg hbps
  unfold FatVolume.nextCluster
  rw [h16]
  dsimp only [FatType.boot]
  rw [Profile.add_eq_some (by omega), Profile.mul_eq_some (by omega)]
  change (Program.ofOption (FatVolume.checkedDiv (c * 2) bs.bytesPerSector) >>= _) = _
  rw [hcheck]
  change (Program.ofOption (p.add 64 (v.startLba + bs.reservedSectorCount)
    (c * 2 / bs.bytesPerSector)) >>= _) = _
  rw [Profile.add_eq_some (by omega), Nat.add_assoc]
  change ((readBlock (v.startLba + entryOffset bs c)).attempt >>= _) = _
  refine congrArg _ (funext fun result => ?_)
  cases result with
  | error e => rfl
  | ok buffer =>
    dsimp only
    by_cases hsafe : EntrySafe bs c
    · have hinside : ¬ 512 < c * 2 % bs.bytesPerSector + 2 := Nat.not_lt.mpr hsafe
      rw [if_neg hinside, if_pos hsafe]
    · have houtside : 512 < c * 2 % bs.bytesPerSector + 2 := Nat.not_le.mp hsafe
      rw [if_pos houtside, if_neg hsafe]

theorem nextCluster_run (hbps : bs.bytesPerSector ≠ 0) (hc : c < 2 ^ 60) :
    v.nextCluster p c d
      = if d.fails d.accesses.length then
          .ok none (d.record .read (v.startLba + entryOffset bs c))
        else if EntrySafe bs c then
          .ok (linkOf v bs d.sectors c) (d.record .read (v.startLba + entryOffset bs c))
        else .fault (d.record .read (v.startLba + entryOffset bs c)) := by
  rw [nextCluster_eq h16 hstart hbps hc]
  by_cases hfails : d.fails d.accesses.length
  · have hread : readBlock (v.startLba + entryOffset bs c) d
        = .err .blockRead (d.record .read (v.startLba + entryOffset bs c)) := if_pos hfails
    rw [if_pos hfails, bind_of_ok (attempt_of_err hread)]
    rfl
  · have hread : readBlock (v.startLba + entryOffset bs c) d
        = .ok (d.sectors (v.startLba + entryOffset bs c))
          (d.record .read (v.startLba + entryOffset bs c)) := if_neg hfails
    rw [if_neg hfails, bind_of_ok (attempt_of_ok hread)]
    dsimp only
    by_cases hsafe : EntrySafe bs c
    · rw [if_pos hsafe, if_pos hsafe]
      rfl
    · rw [if_neg hsafe, if_neg hsafe]
      rfl

variable {α : Type} {f : Option ℕ → FsProgram α} {d : BlockDevice}

theorem not_faulted_nextCluster_bind (hbps : bs.bytesPerSector ≠ 0) (hc : c < 2 ^ 60)
    (hsafe : EntrySafe bs c)
    (hnone : ∀ d', SameDisk d d' → (f none d').faulted = false)
    (hlink : ∀ d', SameDisk d d' → (f (linkOf v bs d.sectors c) d').faulted = false) :
    ((v.nextCluster p c >>= f) d).faulted = false := by
  have hrun := nextCluster_run (p := p) h16 hstart hbps hc (d := d)
  by_cases hfails : d.fails d.accesses.length
  · rw [if_pos hfails] at hrun
    rw [bind_of_ok hrun]
    exact hnone _ .record
  · rw [if_neg hfails, if_pos hsafe] at hrun
    rw [bind_of_ok hrun]
    exact hlink _ .record

theorem of_not_faulted_nextCluster_bind (hbps : bs.bytesPerSector ≠ 0) (hc : c < 2 ^ 60)
    (hr : d.Reliable) (h : ((v.nextCluster p c >>= f) d).faulted = false) :
    EntrySafe bs c ∧ ∃ d', SameDisk d d' ∧ (f (linkOf v bs d.sectors c) d').faulted = false := by
  have hrun := nextCluster_run (p := p) h16 hstart hbps hc (d := d)
  rw [hr, if_neg Bool.false_ne_true] at hrun
  by_cases hsafe : EntrySafe bs c
  · rw [if_pos hsafe] at hrun
    rw [bind_of_ok hrun] at h
    exact ⟨hsafe, _, .record, h⟩
  · rw [if_neg hsafe] at hrun
    rw [bind_of_fault hrun] at h
    cases h

/-! ### Skipping -/

variable {node : FatNode} {count : ℕ} (hnode : node.volume = v)

include hnode

section

variable (hbps : bs.bytesPerSector ≠ 0)
include hbps

/-- Skipping ends at the cluster so many links on; it faults only at an entry that is not read. -/
theorem not_faulted_skip_bind (hc : c < 2 ^ 32)
    (hsafe : ∀ i < count, ∀ c', chain v bs d.sectors i c = some c' → EntrySafe bs c')
    (hnone : ∀ d', SameDisk d d' → (f none d').faulted = false)
    (hchain : ∀ d', SameDisk d d' → (f (chain v bs d.sectors count c) d').faulted = false) :
    ((node.skipClusters p count c >>= f) d).faulted = false := by
  induction count generalizing c d with
  | zero => exact hchain d .refl
  | succ count ih =>
    rw [FatNode.skipClusters, hnode, bind_assoc]
    refine not_faulted_nextCluster_bind h16 hstart hbps (by omega)
      (hsafe 0 (Nat.succ_pos _) c rfl) hnone fun d₁ hd₁ => ?_
    cases hlink : linkOf v bs d.sectors c with
    | none =>
      rw [chain, hlink] at hchain
      exact hchain d₁ hd₁
    | some c₁ =>
      have hlt := linkOf_lt hlink
      rw [chain, hlink] at hchain
      refine ih (by omega) ?_ (fun d' hd' => hnone d' (hd₁.trans hd')) fun d' hd' => ?_
      · intro i hi c' hc'
        rw [hd₁.sectors] at hc'
        refine hsafe (i + 1) (Nat.succ_lt_succ hi) c' ?_
        rw [chain, hlink]
        exact hc'
      · rw [hd₁.sectors]
        exact hchain d' (hd₁.trans hd')

theorem of_not_faulted_skip_bind (hc : c < 2 ^ 32)
    (hr : d.Reliable) (h : ((node.skipClusters p count c >>= f) d).faulted = false) :
    (∀ i < count, ∀ c', chain v bs d.sectors i c = some c' → EntrySafe bs c') ∧
      ∃ d', SameDisk d d' ∧ (f (chain v bs d.sectors count c) d').faulted = false := by
  induction count generalizing c d with
  | zero => exact ⟨fun i hi => absurd hi (Nat.not_lt_zero i), d, .refl, h⟩
  | succ count ih =>
    rw [FatNode.skipClusters, hnode, bind_assoc] at h
    obtain ⟨hsafe, d₁, hd₁, h₁⟩ :=
      of_not_faulted_nextCluster_bind h16 hstart hbps (by omega) hr h
    cases hlink : linkOf v bs d.sectors c with
    | none =>
      rw [hlink] at h₁
      refine ⟨fun i hi c' hc' => ?_, d₁, hd₁, ?_⟩
      · cases i with
        | zero =>
          cases hc'
          exact hsafe
        | succ i =>
          rw [chain, hlink] at hc'
          cases hc'
      · rw [chain, hlink]
        exact h₁
    | some c₁ =>
      have hlt := linkOf_lt hlink
      rw [hlink] at h₁
      obtain ⟨hrest, d₂, hd₂, h₂⟩ := ih (by omega) (hd₁.reliable hr) h₁
      rw [hd₁.sectors] at hrest h₂
      refine ⟨fun i hi c' hc' => ?_, d₂, hd₁.trans hd₂, ?_⟩
      · cases i with
        | zero =>
          cases hc'
          exact hsafe
        | succ i =>
          rw [chain, hlink] at hc'
          exact hrest i (Nat.lt_of_succ_lt_succ hi) c' hc'
      · rw [chain, hlink]
        exact h₂

theorem skipClusters_run (hc : c < 2 ^ 32) (hsafe : ∀ c', EntrySafe bs c') (hr : d.Reliable) :
    ∃ d', SameDisk d d' ∧
      node.skipClusters p count c d = .ok (chain v bs d.sectors count c) d' := by
  induction count generalizing c d with
  | zero => exact ⟨d, .refl, rfl⟩
  | succ count ih =>
    have hrun := nextCluster_run h16 hstart hbps (by omega : c < 2 ^ 60) (p := p) (d := d)
    rw [hr, if_neg Bool.false_ne_true, if_pos (hsafe c)] at hrun
    rw [FatNode.skipClusters, hnode, bind_of_ok hrun, chain]
    cases hlink : linkOf v bs d.sectors c with
    | none => exact ⟨_, .record, rfl⟩
    | some c' =>
      have hlt := linkOf_lt hlink
      have hr' : (d.record .read (v.startLba + entryOffset bs c)).Reliable := hr
      obtain ⟨d', hd', hrest⟩ := ih (by omega : c' < 2 ^ 32) hr'
      exact ⟨d', SameDisk.record.trans hd', hrest⟩

end

end

end NwinOs.Fs.Fat
