import NwinOs.Fs.Fat.Equiv.ReadSafe
import Mathlib.Data.List.Basic

/-!
# What `lookup` finds in a FAT16 directory

A directory is a sequence of 32-byte entries: those of the fixed region for the root, those of the
cluster chain for any other directory (`dirEntryAt`).  `lookup` searches one sector, so it is right
about a name exactly if that sector decides (`lookup_complete_iff`): the directory has no matching
entry behind its first sixteen unless there is one among them, and the sector shows no entry that
matches and is not of the directory.
-/

namespace NwinOs.Fs.Fat

open Effect List

/-! ### Searching a prefix of a sequence -/

theorem find?_takeWhile_range {α : Type} {live hit : α → Bool} {f : ℕ → α} {n : ℕ} {a : α}
    (h : (((List.range n).map f).takeWhile live).find? hit = some a) :
    ∃ k < n, a = f k ∧ hit (f k) = true ∧ (∀ j ≤ k, live (f j) = true) ∧
      ∀ j < k, hit (f j) = false := by
  induction n generalizing f with
  | zero => cases h
  | succ n ih =>
    rw [range_succ_eq_map, map_cons, map_map] at h
    by_cases hlive : live (f 0) = true
    swap
    · rw [takeWhile_cons_of_neg hlive] at h
      cases h
    rw [takeWhile_cons_of_pos hlive] at h
    by_cases hhit : hit (f 0) = true
    · rw [find?_cons_of_pos hhit] at h
      cases h
      refine ⟨0, Nat.succ_pos n, rfl, hhit, ?_, fun j hj => absurd hj (Nat.not_lt_zero j)⟩
      intro j hj
      rw [Nat.le_zero.mp hj]
      exact hlive
    · rw [find?_cons_of_neg hhit] at h
      obtain ⟨k, hk, ha, hhits, hlives, hfirst⟩ := ih h
      refine ⟨k + 1, Nat.succ_lt_succ hk, ha, hhits, ?_, ?_⟩
      · intro j hj
        cases j with
        | zero => exact hlive
        | succ j => exact hlives j (Nat.le_of_succ_le_succ hj)
      · intro j hj
        cases j with
        | zero => exact Bool.eq_false_of_not_eq_true hhit
        | succ j => exact hfirst j (Nat.lt_of_succ_lt_succ hj)

theorem find?_takeWhile_range_none {α : Type} {live hit : α → Bool} {f : ℕ → α} {n k : ℕ}
    (h : (((List.range n).map f).takeWhile live).find? hit = none) (hk : k < n)
    (hlive : ∀ j ≤ k, live (f j) = true) : hit (f k) = false := by
  induction n generalizing f k with
  | zero => cases hk
  | succ n ih =>
    rw [range_succ_eq_map, map_cons, map_map, takeWhile_cons_of_pos (hlive 0 (Nat.zero_le k))] at h
    by_cases hhit : hit (f 0) = true
    · rw [find?_cons_of_pos hhit] at h
      cases h
    · rw [find?_cons_of_neg hhit] at h
      cases k with
      | zero => exact Bool.eq_false_of_not_eq_true hhit
      | succ k =>
        exact ih (f := f ∘ Nat.succ) h (Nat.lt_of_succ_lt_succ hk) fun j hj =>
          hlive (j + 1) (Nat.succ_le_succ hj)

/-! ### Directories -/

/-- The `k`-th entry of the directory that starts at a cluster; 0 is the root directory. -/
def dirEntryAt (v : FatVolume) (bs : Fat16BootSector) (S : ℕ → Bytes) (start k : ℕ) :
    Option DirectoryEntry :=
  if start = 0 then
    if k < bs.rootEntryCount then
      some (.ofBytes (S (v.startLba + rootOffset bs + k / 16)) (k % 16))
    else none
  else (chain v bs S (k / (16 * bs.sectorsPerCluster)) start).bind fun c =>
    if k % (16 * bs.sectorsPerCluster) / 16 < bs.sectorsPerCluster then
      some (.ofBytes (S (v.startLba + clusterOffset bs c
        + k % (16 * bs.sectorsPerCluster) / 16)) (k % 16))
    else none

/-- The entry is searched for: neither deleted nor a long name nor a label, and the name is its own
up to the case of ASCII letters. -/
def DirectoryEntry.named (entry : DirectoryEntry) (name : String) : Bool :=
  !entry.skipped && eqIgnoreAsciiCase entry.shortName name

/-- The entry has the name and is the `k`-th of the directory, which does not end before it. -/
structure Holds (v : FatVolume) (bs : Fat16BootSector) (S : ℕ → Bytes) (start : ℕ) (name : String)
    (k : ℕ) (entry : DirectoryEntry) : Prop where
  present : dirEntryAt v bs S start k = some entry
  live : ∀ j ≤ k, ∀ e, dirEntryAt v bs S start j = some e → e.firstByte ≠ 0x00
  named : entry.named name = true

/-- The first sector of a directory. -/
def dirSector (v : FatVolume) (bs : Fat16BootSector) (start : ℕ) : ℕ :=
  v.startLba + if start = 0 then rootOffset bs else clusterOffset bs start

/-- The entries that a directory's first sector has room for. -/
def dirRoom (bs : Fat16BootSector) (start : ℕ) : ℕ :=
  if start = 0 then bs.rootEntryCount else 16 * bs.sectorsPerCluster

/-- The `k`-th slot of the first sector has the name, and no slot up to it marks the end. -/
structure Shows (v : FatVolume) (bs : Fat16BootSector) (S : ℕ → Bytes) (start : ℕ) (name : String)
    (k : ℕ) : Prop where
  slot : k < 16
  live : ∀ j ≤ k, (DirectoryEntry.ofBytes (S (dirSector v bs start)) j).firstByte ≠ 0x00
  named : (DirectoryEntry.ofBytes (S (dirSector v bs start)) k).named name = true

section

variable {v : FatVolume} {bs : Fat16BootSector} {S : ℕ → Bytes} {start k : ℕ} {name : String}
  {entry : DirectoryEntry}

theorem dirEntryAt_of_lt (hk : k < 16) : dirEntryAt v bs S start k
    = if k < dirRoom bs start then some (.ofBytes (S (dirSector v bs start)) k) else none := by
  unfold dirEntryAt dirRoom dirSector
  by_cases hstart : start = 0
  · rw [if_pos hstart, if_pos hstart, if_pos hstart, Nat.div_eq_of_lt hk, Nat.mod_eq_of_lt hk,
      Nat.add_zero]
  rw [if_neg hstart, if_neg hstart, if_neg hstart]
  by_cases hspc : bs.sectorsPerCluster = 0
  · rw [hspc, Nat.mul_zero, Nat.div_zero, chain, Option.bind_some, if_neg (Nat.not_lt_zero _),
      if_neg (Nat.not_lt_zero _)]
  · rw [Nat.div_eq_of_lt (by omega), chain, Option.bind_some, Nat.mod_eq_of_lt (by omega : k < _),
      Nat.div_eq_of_lt hk, if_pos (by omega), if_pos (by omega), Nat.mod_eq_of_lt hk, Nat.add_zero]

/-- A directory with room for fewer than sixteen entries has no others. -/
theorem lt_of_dirEntryAt (hroom : dirRoom bs start < 16)
    (h : dirEntryAt v bs S start k = some entry) : k < 16 := by
  unfold dirEntryAt at h
  unfold dirRoom at hroom
  by_cases hstart : start = 0
  · rw [if_pos hstart] at h hroom
    split_ifs at h with hk
    omega
  · rw [if_neg hstart] at h hroom
    obtain ⟨c, -, hentry⟩ := Option.bind_eq_some_iff.mp h
    split_ifs at hentry with hk
    omega

/-- An entry among the first sixteen is shown. -/
theorem Holds.shows (h : Holds v bs S start name k entry) (hk : k < 16) :
    Shows v bs S start name k ∧ entry = .ofBytes (S (dirSector v bs start)) k ∧
      k < dirRoom bs start := by
  have hentry := h.present
  rw [dirEntryAt_of_lt hk] at hentry
  split_ifs at hentry with hroom
  cases hentry
  refine ⟨⟨hk, fun j hj => h.live j hj _ ?_, h.named⟩, rfl, hroom⟩
  rw [dirEntryAt_of_lt (by omega), if_pos (by omega)]

theorem Shows.holds (h : Shows v bs S start name k) (hroom : k < dirRoom bs start) :
    Holds v bs S start name k (.ofBytes (S (dirSector v bs start)) k) := by
  have hslot := h.slot
  refine ⟨?_, ?_, h.named⟩
  · rw [dirEntryAt_of_lt hslot, if_pos hroom]
  · intro j hj e he
    rw [dirEntryAt_of_lt (by omega), if_pos (by omega)] at he
    cases he
    exact h.live j hj

end

/-! ### `lookup` -/

/-- The name is found exactly if the directory holds it, and the node is that of an entry that has
the name. -/
def LookupCorrect (p : Profile) (node : FatNode) (bs : Fat16BootSector) (name : String)
    (d : BlockDevice) : Prop :=
  ∃ result d', node.lookup p name d = .ok result d' ∧
    (result.isSome = true ↔
      ∃ k entry, Holds node.volume bs d.sectors node.startCluster name k entry) ∧
    ∀ found, result = some found → ∃ k entry,
      Holds node.volume bs d.sectors node.startCluster name k entry ∧
        found = FatNode.ofEntry node.volume entry

section

variable {p : Profile} {node : FatNode} {v : FatVolume} {bs : Fat16BootSector} {name : String}
  {d : BlockDevice} (hnode : node.volume = v) (h16 : v.fatType = .fat16 bs)
  (hstart : v.startLba < 2 ^ 32) (hdir : node.isDirectory = true)
  (hcluster : node.startCluster < 2 ^ 32) (h2 : node.startCluster = 0 ∨ 2 ≤ node.startCluster)

include hnode h16 hstart hdir hcluster h2

/-- On a reliable disk `lookup` finds the first entry of the sector with the name. -/
theorem lookup_run (hbps : bs.bytesPerSector ≠ 0) (hr : d.Reliable) :
    ∃ d', node.lookup p name d
      = .ok (((entriesOf (d.sectors (dirSector v bs node.startCluster))).find? fun entry =>
          entry.named name).map (FatNode.ofEntry v)) d' := by
  have hlt := @clusterOffset_lt bs _ hcluster
  have hsector : (if node.startCluster = 0 then v.rootDirSector p FatVolume.callDepth
      else v.clusterToSector p node.startCluster FatVolume.callDepth)
      = some (dirSector v bs node.startCluster) := by
    unfold dirSector
    by_cases hzero : node.startCluster = 0
    · rw [if_pos hzero, if_pos hzero]
      exact rootDirSector_eq h16 hstart
    · rw [if_neg hzero, if_neg hzero]
      exact clusterToSector_eq h16 hstart hbps (by omega) (by omega)
  have hread := @readBlock_eq d (dirSector v bs node.startCluster) hr
  refine ⟨d.record .read (dirSector v bs node.startCluster), ?_⟩
  unfold FatNode.lookup
  rw [if_neg (by rw [hdir]; exact Bool.noConfusion), hnode, hsector]
  change ((readBlock (dirSector v bs node.startCluster)).attempt >>= _) d = _
  rw [bind_of_ok (attempt_of_ok hread)]
  rfl

/-- **When `lookup` is complete**, on a volume of 512-byte sectors and a device without errors: if
the directory holds the name at all, one of its first sixteen entries does; and if a slot of its
first sector shows the name, the directory holds it (which a directory of sixteen or more entries
always does). -/
theorem lookup_complete_iff (h512 : bs.bytesPerSector = 512) (hr : d.Reliable) :
    LookupCorrect p node bs name d ↔
      ((∃ k entry, Holds v bs d.sectors node.startCluster name k entry) →
        ∃ k entry, k < 16 ∧ Holds v bs d.sectors node.startCluster name k entry) ∧
      ((∃ k, Shows v bs d.sectors node.startCluster name k) →
        ∃ k entry, Holds v bs d.sectors node.startCluster name k entry) := by
  obtain ⟨d', hrun⟩ : ∃ d', node.lookup p name d = _ :=
    lookup_run hnode h16 hstart hdir hcluster h2 (by omega) hr
  unfold LookupCorrect
  rw [hnode]
  cases hfind : (entriesOf (d.sectors (dirSector v bs node.startCluster))).find? fun entry =>
      entry.named name with
  | none =>
    have hhidden : ∀ k, ¬ Shows v bs d.sectors node.startCluster name k := by
      intro k hk
      have hmiss := find?_takeWhile_range_none hfind hk.slot fun j hj =>
        decide_eq_true (hk.live j hj)
      rw [hk.named] at hmiss
      cases hmiss
    rw [hfind] at hrun
    constructor
    · rintro ⟨result, _, hresult, hiff, _⟩
      rw [hrun] at hresult
      cases hresult
      refine ⟨fun hholds => ?_, fun ⟨k, hk⟩ => absurd hk (hhidden k)⟩
      cases hiff.mpr hholds
    · rintro ⟨hearly, _⟩
      refine ⟨_, _, hrun, ⟨fun h => ?_, fun hholds => ?_⟩, fun found h => ?_⟩
      · cases h
      · obtain ⟨k, entry, hk, hentry⟩ := hearly hholds
        exact absurd (hentry.shows hk).1 (hhidden k)
      · cases h
  | some entry =>
    obtain ⟨k, hk, rfl, hnamed, hlive, hfirst⟩ := find?_takeWhile_range hfind
    have hshows : Shows v bs d.sectors node.startCluster name k :=
      ⟨hk, fun j hj => of_decide_eq_true (hlive j hj), hnamed⟩
    rw [hfind] at hrun
    constructor
    · rintro ⟨result, _, hresult, hiff, hfound⟩
      rw [hrun] at hresult
      cases hresult
      refine ⟨fun ⟨k', entry', hholds⟩ => ?_, fun _ => hiff.mp rfl⟩
      by_cases hroom : k < dirRoom bs node.startCluster
      · exact ⟨k, _, hk, hshows.holds hroom⟩
      · exact ⟨k', entry', lt_of_dirEntryAt (by omega) hholds.present, hholds⟩
    · rintro ⟨hearly, hshown⟩
      -- the first slot with the name is one of the directory, since a later one is
      obtain ⟨k', entry', hk', hentry'⟩ := hearly (hshown ⟨k, hshows⟩)
      obtain ⟨hshows', -, hroom'⟩ := hentry'.shows hk'
      have hle : k ≤ k' := by
        by_contra hlt
        have hmiss := hfirst k' (by omega)
        rw [hshows'.named] at hmiss
        cases hmiss
      have hholds := hshows.holds (lt_of_le_of_lt hle hroom')
      refine ⟨_, _, hrun, ⟨fun _ => ⟨k, _, hholds⟩, fun _ => rfl⟩, ?_⟩
      rintro found ⟨⟩
      exact ⟨k, _, hholds, rfl⟩

end

/-- Two sectors of the root directory: sixteen files `X`, and then files `Y`. -/
def wideBoot : Fat16BootSector := { smallBoot with
  rootEntryCount := 32
  rootEntryCount_lt := by decide }

def wideDisk : BlockDevice where
  sectors := fun s o =>
    if o % 32 = 0 then if s = 2 then 0x58 else 0x59 else 0x20
  accesses := []
  fails := fun _ => false

/-- The name of the first file is found. -/
theorem lookup_finds_first :
    LookupCorrect .release (.newRoot ⟨0, .fat16 wideBoot⟩) wideBoot "x" wideDisk := by
  have hholds : Holds ⟨0, .fat16 wideBoot⟩ wideBoot wideDisk.sectors 0 "x" 0
      (.ofBytes (wideDisk.sectors 2) 0) := by
    refine ⟨rfl, fun j hj e he => ?_, by decide +kernel⟩
    cases Nat.le_zero.mp hj
    cases he
    decide +kernel
  refine (lookup_complete_iff rfl rfl (by decide) rfl (by decide) (.inl rfl) rfl
    fun _ => rfl).mpr ⟨fun _ => ⟨0, _, by decide, hholds⟩, fun _ => ⟨0, _, hholds⟩⟩

/-- The name of the seventeenth is not, although the directory holds it. -/
theorem lookup_misses_seventeenth :
    ((FatNode.newRoot ⟨0, .fat16 wideBoot⟩).lookup .release "Y" wideDisk).value?.map Option.isSome
      = some false ∧
    Holds ⟨0, .fat16 wideBoot⟩ wideBoot wideDisk.sectors 0 "Y" 16
      (.ofBytes (wideDisk.sectors 3) 0) ∧
    ¬ LookupCorrect .release (.newRoot ⟨0, .fat16 wideBoot⟩) wideBoot "Y" wideDisk := by
  have hlive : ∀ j < 17, (dirEntryAt ⟨0, .fat16 wideBoot⟩ wideBoot wideDisk.sectors 0 j).all
      (fun e => e.firstByte ≠ 0x00) = true := by
    decide +kernel
  have hholds : Holds ⟨0, .fat16 wideBoot⟩ wideBoot wideDisk.sectors 0 "Y" 16
      (.ofBytes (wideDisk.sectors 3) 0) := by
    refine ⟨rfl, fun j hj e he => ?_, by decide +kernel⟩
    have hall := hlive j (Nat.lt_succ_of_le hj)
    rw [he] at hall
    exact of_decide_eq_true hall
  have hvalue : ((FatNode.newRoot ⟨0, .fat16 wideBoot⟩).lookup .release "Y" wideDisk).value?.map
      Option.isSome = some false := by
    decide +kernel
  refine ⟨hvalue, hholds, ?_⟩
  rintro ⟨result, d', hrun, hiff, -⟩
  rw [hrun] at hvalue
  have hsome := hiff.mpr ⟨16, _, hholds⟩
  have hnone : result.isSome = false := Option.some.inj hvalue
  rw [hsome] at hnone
  cases hnone

end NwinOs.Fs.Fat
