import NwinOs.Fs.Fat.Equiv.Chain
import Mathlib.Tactic.Common

/-!
# Where `read` can go wrong on a FAT16 volume

`read` does not look at the cluster numbers that it takes from the table, at the size of a sector,
or at the end of the volume.  `readVia` is `read` with any translation of clusters to sectors in
place of `cluster_to_sector`, for instance one that asserts something about the numbers it is given.
 `readVia_safe_iff` says on which disks no run faults, whichever accesses fail: a condition on every
 byte that is asked for and on the cluster of the chain that holds it. -/

namespace NwinOs.Fs.Fat

open Effect Nat

/-! ### The condition -/

/-- The bytes of a cluster. -/
def bytesPerCluster (bs : Fat16BootSector) : ℕ := bs.bytesPerSector * bs.sectorsPerCluster

/-- What reading the byte `y` of a chain asks of the cluster `c` that holds it: the translation
accepts the cluster, the byte is in the part of its sector that is read, and if it is the last one
of the cluster, so is the cluster's table entry. -/
structure ByteSafe (bs : Fat16BootSector) (accepts : ℕ → Prop) (c y : ℕ) : Prop where
  accepts : accepts c
  inSector : y % bs.bytesPerSector < 512
  entry : (y + 1) % bytesPerCluster bs = 0 → EntrySafe bs c

/-- The `count` bytes from `off` on of the chain from `c` can be read. -/
def LoopSafe (v : FatVolume) (bs : Fat16BootSector) (S : ℕ → Bytes) (accepts : ℕ → Prop)
    (c off count : ℕ) : Prop :=
  ∀ y, off ≤ y → y < off + count → ∀ c', chain v bs S (y / bytesPerCluster bs) c = some c' →
    ByteSafe bs accepts c' y

section

variable {v : FatVolume} {bs : Fat16BootSector} {S : ℕ → Bytes} {accepts : ℕ → Prop}
  {c off count chunk : ℕ}

theorem LoopSafe.zero : LoopSafe v bs S accepts c off 0 := by
  intro y h1 h2
  omega

/-- A chunk ends at the latest where its sector, and so its cluster, does. -/
theorem chunk_le (hoff : off < bytesPerCluster bs)
    (hchunk : chunk ≤ bs.bytesPerSector - off % bs.bytesPerSector) :
    off + chunk ≤ bytesPerCluster bs := by
  unfold bytesPerCluster at hoff ⊢
  have hsector : off / bs.bytesPerSector < bs.sectorsPerCluster := Nat.div_lt_of_lt_mul hoff
  have hdiv := Nat.div_add_mod off bs.bytesPerSector
  have hmul := Nat.mul_le_mul_left bs.bytesPerSector hsector
  rw [mul_succ] at hmul
  omega

theorem mod_of_chunk {y : ℕ} (h1 : off ≤ y)
    (h2 : y < off + (bs.bytesPerSector - off % bs.bytesPerSector)) :
    y % bs.bytesPerSector = off % bs.bytesPerSector + (y - off) := by
  obtain ⟨k, rfl⟩ := Nat.exists_eq_add_of_le h1
  have hlt : off % bs.bytesPerSector + k < bs.bytesPerSector := by omega
  rw [Nat.add_mod, Nat.mod_eq_of_lt (b := bs.bytesPerSector) (by omega : k < _),
    Nat.mod_eq_of_lt hlt, Nat.add_sub_cancel_left]

theorem LoopSafe.skip_iff {k : ℕ} (hbpc : 0 < bytesPerCluster bs) :
    LoopSafe v bs S accepts c (off + k * bytesPerCluster bs) count ↔
      ∀ c', chain v bs S k c = some c' → LoopSafe v bs S accepts c' off count := by
  have hsector : ∀ y, (y + k * bytesPerCluster bs) % bs.bytesPerSector
      = y % bs.bytesPerSector := by
    intro y
    unfold bytesPerCluster
    rw [mul_left_comm, add_mul_mod_self_left]
  have hcluster : ∀ y, (y + k * bytesPerCluster bs + 1) % bytesPerCluster bs
      = (y + 1) % bytesPerCluster bs := by
    intro y
    rw [add_right_comm, add_mul_mod_self_right]
  have hchain : ∀ y, chain v bs S ((y + k * bytesPerCluster bs) / bytesPerCluster bs) c
      = (chain v bs S k c).bind (chain v bs S (y / bytesPerCluster bs)) := by
    intro y
    rw [add_mul_div_right _ _ hbpc, add_comm, chain_add]
  constructor
  · intro h c' hlink y hle hlt c'' hc''
    have hsafe := h (y + k * bytesPerCluster bs) (by omega) (by omega) c''
      (by rw [hchain, hlink]; exact hc'')
    refine ⟨hsafe.accepts, ?_, fun hlast => hsafe.entry ?_⟩
    · rw [← hsector]
      exact hsafe.inSector
    · rw [hcluster]
      exact hlast
  · intro h y hle hlt c'' hc''
    obtain ⟨x, rfl⟩ := Nat.exists_eq_add_of_le' ((Nat.le_add_left ..).trans hle)
    rw [hchain] at hc''
    obtain ⟨c', hlink, hrest⟩ := Option.bind_eq_some_iff.mp hc''
    have hsafe := h c' hlink x (by omega) (by omega) c'' hrest
    refine ⟨hsafe.accepts, ?_, fun hlast => hsafe.entry ?_⟩
    · rw [hsector]
      exact hsafe.inSector
    · rw [← hcluster]
      exact hlast

theorem LoopSafe.next_iff (hbpc : 0 < bytesPerCluster bs) :
    LoopSafe v bs S accepts c (bytesPerCluster bs) count ↔
      ∀ c', linkOf v bs S c = some c' → LoopSafe v bs S accepts c' 0 count := by
  have hone : chain v bs S 1 c = linkOf v bs S c := Option.bind_fun_some ..
  rw [← hone, ← LoopSafe.skip_iff hbpc, zero_add, one_mul]

theorem LoopSafe.add_iff {m n : ℕ} : LoopSafe v bs S accepts c off (m + n) ↔
    LoopSafe v bs S accepts c off m ∧ LoopSafe v bs S accepts c (off + m) n := by
  constructor
  · intro h
    exact ⟨fun y h1 h2 => h y h1 (by omega), fun y h1 h2 => h y (by omega) (by omega)⟩
  · rintro ⟨hm, hn⟩ y h1 h2
    by_cases hy : y < off + m
    · exact hm y h1 hy
    · exact hn y (by omega) (by omega)

theorem LoopSafe.chunk_iff (hoff : off < bytesPerCluster bs) (hpos : 0 < chunk)
    (hchunk : chunk ≤ bs.bytesPerSector - off % bs.bytesPerSector) :
    LoopSafe v bs S accepts c off chunk ↔
      accepts c ∧ off % bs.bytesPerSector + chunk ≤ 512 ∧
        (off + chunk = bytesPerCluster bs → EntrySafe bs c) := by
  have hend := chunk_le hoff hchunk
  have hzero : ∀ y, y < off + chunk → chain v bs S (y / bytesPerCluster bs) c = some c := by
    intro y hy
    rw [div_eq_of_lt (by omega), chain]
  constructor
  · intro h
    have hlast := h (off + chunk - 1) (by omega) (by omega) c (hzero _ (by omega))
    have hmod : (off + chunk - 1) % bs.bytesPerSector
        = off % bs.bytesPerSector + (off + chunk - 1 - off) := mod_of_chunk (by omega) (by omega)
    have hlt := hlast.inSector
    refine ⟨hlast.accepts, by omega, fun hcluster => hlast.entry ?_⟩
    have hsum : off + chunk - 1 + 1 = bytesPerCluster bs := by omega
    rw [hsum, mod_self]
  · rintro ⟨haccepts, hsector, hentry⟩ y h1 h2 c' hc'
    rw [hzero y h2] at hc'
    cases hc'
    refine ⟨haccepts, ?_, fun hlast => hentry ?_⟩
    · rw [mod_of_chunk h1 (by omega)]
      omega
    · have hdvd := le_of_dvd (succ_pos y) (dvd_of_mod_eq_zero hlast)
      omega

/-- With sectors that are read whole, the clusters that hold the bytes are all that matters. -/
theorem LoopSafe.clusters_iff (hbpc : 0 < bytesPerCluster bs) (hcount : 0 < count)
    (hentry : ∀ c, EntrySafe bs c) (hbps : bs.bytesPerSector ≤ 512) :
    LoopSafe v bs S accepts c off count ↔
      ∀ i c', off / bytesPerCluster bs ≤ i → i * bytesPerCluster bs < off + count →
        chain v bs S i c = some c' → accepts c' := by
  constructor
  · intro h i c' hfirst hlast hc'
    by_cases hi : i = off / bytesPerCluster bs
    · rw [hi] at hc'
      exact (h off le_rfl (by omega) c' hc').accepts
    · have hle : off ≤ i * bytesPerCluster bs :=
        (Nat.div_lt_iff_lt_mul hbpc).mp (lt_of_le_of_ne hfirst (Ne.symm hi)) |>.le
      rw [← Nat.mul_div_cancel i hbpc] at hc'
      exact (h _ hle hlast c' hc').accepts
  · intro h y hle hlt c' hc'
    have hpos : 0 < bs.bytesPerSector := Nat.pos_of_mul_pos_right hbpc
    refine ⟨h _ c' (Nat.div_le_div_right hle) ?_ hc', ?_, fun _ => hentry c'⟩
    · exact (Nat.div_mul_le_self ..).trans_lt hlt
    · exact (Nat.mod_lt y hpos).trans_le hbps

end

/-! ### The loop -/

/-- The length of the next chunk. -/
def chunkSize (bs : Fat16BootSector) (off count : ℕ) : ℕ :=
  min (bs.bytesPerSector - off % bs.bytesPerSector) count

variable {bs : Fat16BootSector} {off count : ℕ}

theorem chunkSize_le_sector :
    chunkSize bs off count ≤ bs.bytesPerSector - off % bs.bytesPerSector := min_le_left ..

theorem chunkSize_le_count :
    chunkSize bs off count ≤ count := min_le_right ..

theorem chunkSize_pos (hbps : bs.bytesPerSector ≠ 0)
    (hcount : 0 < count) : 0 < chunkSize bs off count := by
  have hmod := Nat.mod_lt off (Nat.pos_of_ne_zero hbps)
  exact Nat.lt_min.mpr ⟨by omega, hcount⟩

theorem LoopSafe.turn_iff {v : FatVolume} {S : ℕ → Bytes}
    {accepts : ℕ → Prop} {c m : ℕ} (hoff : off < bytesPerCluster bs)
    (hbps : bs.bytesPerSector ≠ 0) (hm : 0 < m) : LoopSafe v bs S accepts c off m ↔
      (accepts c ∧ off % bs.bytesPerSector + chunkSize bs off m ≤ 512 ∧
        (off + chunkSize bs off m = bytesPerCluster bs → EntrySafe bs c)) ∧
      LoopSafe v bs S accepts c (off + chunkSize bs off m) (m - chunkSize bs off m) := by
  have hcount : chunkSize bs off m ≤ m := chunkSize_le_count
  have hsum : m = chunkSize bs off m + (m - chunkSize bs off m) := by omega
  rw [← LoopSafe.chunk_iff hoff (chunkSize_pos hbps hm) chunkSize_le_sector, ← LoopSafe.add_iff,
    ← hsum]

section

variable {toSector : ℕ → Option ℕ} {p : Profile} {node : FatNode} {v : FatVolume}
  {bs : Fat16BootSector} {S : ℕ → Bytes} {accepts : ℕ → Prop} {n fuel c off : ℕ}
  {copied : List Byte} {d : BlockDevice}

theorem readLoopVia_refused (hmore : copied.length < n) (hsector : toSector c = none) :
    node.readLoopVia toSector p n (fuel + 1) copied c off d = .fault d := by
  rw [FatNode.readLoopVia, if_pos hmore, hsector]
  rfl

variable (hnode : node.volume = v) (h16 : v.fatType = .fat16 bs)

include hnode h16

theorem readLoopVia_turn {s : ℕ} (hmore : copied.length < n) (hsector : toSector c = some s)
    (hlt : s + off / bs.bytesPerSector < 2 ^ 64) :
    node.readLoopVia toSector p n (fuel + 1) copied c off d
      = if d.fails d.accesses.length then
          .ok copied (d.record .read (s + off / bs.bytesPerSector))
        else if 512 < off % bs.bytesPerSector + chunkSize bs off (n - copied.length) then
          .fault (d.record .read (s + off / bs.bytesPerSector))
        else if off + chunkSize bs off (n - copied.length) = bytesPerCluster bs then
          (v.nextCluster p c >>= fun next =>
            match next with
            | none => pure (copied ++ (d.sectors (s + off / bs.bytesPerSector)).slice
                (off % bs.bytesPerSector) (chunkSize bs off (n - copied.length)))
            | some next => node.readLoopVia toSector p n fuel
                (copied ++ (d.sectors (s + off / bs.bytesPerSector)).slice
                  (off % bs.bytesPerSector) (chunkSize bs off (n - copied.length))) next 0)
            (d.record .read (s + off / bs.bytesPerSector))
        else node.readLoopVia toSector p n fuel
          (copied ++ (d.sectors (s + off / bs.bytesPerSector)).slice
            (off % bs.bytesPerSector) (chunkSize bs off (n - copied.length))) c
          (off + chunkSize bs off (n - copied.length))
          (d.record .read (s + off / bs.bytesPerSector)) := by
  rw [FatNode.readLoopVia, if_pos hmore, hsector, hnode, h16]
  dsimp only [FatType.boot]
  rw [bind_of_ok (show Program.ofOption (some s) d = .ok s d from rfl), Profile.add_eq_some hlt,
    bind_of_ok (show Program.ofOption (some _) d = .ok _ d from rfl)]
  by_cases hfails : d.fails d.accesses.length
  · have hread : readBlock (s + off / bs.bytesPerSector) d
        = .err .blockRead (d.record .read (s + off / bs.bytesPerSector)) := if_pos hfails
    rw [if_pos hfails, bind_of_ok (attempt_of_err hread)]
    rfl
  · have hread : readBlock (s + off / bs.bytesPerSector) d
        = .ok (d.sectors (s + off / bs.bytesPerSector))
          (d.record .read (s + off / bs.bytesPerSector)) := if_neg hfails
    rw [if_neg hfails, bind_of_ok (attempt_of_ok hread)]
    change (if 512 < off % bs.bytesPerSector + chunkSize bs off (n - copied.length) then _
      else if off + chunkSize bs off (n - copied.length) = bytesPerCluster bs then _ else _ :
        FsProgram (List Byte)) _ = _
    split_ifs <;> rfl

variable (hstart : v.startLba < 2 ^ 32)
  (haccepts : ∀ c, c < 2 ^ 32 → accepts c → ∃ s, toSector c = some s ∧ s < 2 ^ 63)
  (hrefuses : ∀ c, c < 2 ^ 32 → ¬ accepts c → toSector c = none)

include hstart haccepts hrefuses

/-- **The loop faults on no disk where its bytes are safe**, whichever accesses fail, and without
failures it faults on every other. -/
theorem readLoopVia_safe (hc : c < 2 ^ 32) (hoff : off < bytesPerCluster bs)
    (hfuel : n - copied.length ≤ fuel) (hd : d.sectors = S) :
    (LoopSafe v bs S accepts c off (n - copied.length) →
      (node.readLoopVia toSector p n fuel copied c off d).faulted = false) ∧
    (d.Reliable → (node.readLoopVia toSector p n fuel copied c off d).faulted = false →
      LoopSafe v bs S accepts c off (n - copied.length)) := by
  have hbps : bs.bytesPerSector ≠ 0 := by
    intro hzero
    rw [bytesPerCluster, hzero, zero_mul] at hoff
    exact not_lt_zero _ hoff
  induction fuel generalizing copied c off d with
  | zero =>
    have hdone : n - copied.length = 0 := by omega
    rw [hdone]
    exact ⟨fun _ => rfl, fun _ _ => LoopSafe.zero⟩
  | succ fuel ih =>
    by_cases hmore : copied.length < n
    swap
    · have hdone : n - copied.length = 0 := by omega
      rw [hdone, FatNode.readLoopVia, if_neg hmore]
      exact ⟨fun _ => rfl, fun _ _ => LoopSafe.zero⟩
    -- the bytes of this turn, and the rest
    obtain ⟨chunk, hchunk⟩ : ∃ chunk, chunk = chunkSize bs off (n - copied.length) := ⟨_, rfl⟩
    have hle : chunk ≤ bs.bytesPerSector - off % bs.bytesPerSector :=
      hchunk.trans_le chunkSize_le_sector
    have hpos : 0 < chunk := (chunkSize_pos hbps (by omega)).trans_eq hchunk.symm
    have hsplit := @LoopSafe.turn_iff bs off v S accepts c _ hoff hbps (Nat.sub_pos_of_lt hmore)
    rw [← hchunk] at hsplit
    by_cases hacc : accepts c
    swap
    · rw [readLoopVia_refused hmore (hrefuses c hc hacc), hsplit]
      exact ⟨fun h => absurd h.1.1 hacc, fun _ h => by cases h⟩
    obtain ⟨s, hsector, hs⟩ := haccepts c hc hacc
    have hend := chunk_le hoff hle
    have hlt : s + off / bs.bytesPerSector < 2 ^ 64 := by
      have hspc := bs.sectorsPerCluster_lt
      have hin : off / bs.bytesPerSector < bs.sectorsPerCluster := Nat.div_lt_of_lt_mul hoff
      omega
    rw [readLoopVia_turn hnode h16 hmore hsector hlt, ← hchunk]
    by_cases hfails : d.fails d.accesses.length
    · rw [if_pos hfails]
      refine ⟨fun _ => rfl, fun hr => ?_⟩
      rw [hr] at hfails
      cases hfails
    rw [if_neg hfails]
    by_cases hin : off % bs.bytesPerSector + chunk ≤ 512
    swap
    · rw [if_pos (by omega), hsplit]
      exact ⟨fun h => absurd h.1.2.1 hin, fun _ h => by cases h⟩
    rw [if_neg (by omega)]
    have hlen : ∀ b : Bytes, n - (copied ++ b.slice (off % bs.bytesPerSector) chunk).length
        = n - copied.length - chunk := by
      intro b
      rw [List.length_append, Bytes.length_slice]
      omega
    have hrest : ∀ (b : Bytes) (c' off' : ℕ) (d' : BlockDevice), c' < 2 ^ 32 →
        off' < bytesPerCluster bs → d'.sectors = S →
        (LoopSafe v bs S accepts c' off' (n - copied.length - chunk) →
          (node.readLoopVia toSector p n fuel
            (copied ++ b.slice (off % bs.bytesPerSector) chunk) c' off' d').faulted = false) ∧
        (d'.Reliable → (node.readLoopVia toSector p n fuel
            (copied ++ b.slice (off % bs.bytesPerSector) chunk) c' off' d').faulted = false →
          LoopSafe v bs S accepts c' off' (n - copied.length - chunk)) := by
      intro b c' off' d' hc' hoff' hd'
      rw [← hlen b]
      exact ih hc' hoff' (by rw [hlen]; omega) hd'
    by_cases hcluster : off + chunk = bytesPerCluster bs
    · rw [if_pos hcluster, hsplit, hcluster, LoopSafe.next_iff (by omega)]
      constructor
      · rintro ⟨⟨_, _, hentry⟩, hnext⟩
        refine not_faulted_nextCluster_bind h16 hstart hbps (by omega) (hentry rfl)
          (fun _ _ => rfl) fun d' hd' => ?_
        rw [record_sectors, hd]
        cases hlink : linkOf v bs S c with
        | none => rfl
        | some c' =>
          have hlt' := linkOf_lt hlink
          exact (hrest _ c' 0 d' (by omega) (by omega) (hd'.sectors.trans hd)).1 (hnext c' hlink)
      · intro hr h
        obtain ⟨hentry, d', hd', h'⟩ := of_not_faulted_nextCluster_bind h16 hstart hbps
          (by omega) (SameDisk.record.reliable hr) h
        refine ⟨⟨hacc, hin, fun _ => hentry⟩, fun c' hlink => ?_⟩
        have hlt' := linkOf_lt hlink
        rw [record_sectors, hd, hlink] at h'
        exact (hrest _ c' 0 d' (by omega) (by omega) (hd'.sectors.trans hd)).2
          (hd'.reliable (SameDisk.record.reliable hr)) h'
    · rw [if_neg hcluster, hsplit]
      obtain ⟨hsafe, hsound⟩ := hrest (d.sectors (s + off / bs.bytesPerSector)) c (off + chunk)
        (d.record .read (s + off / bs.bytesPerSector)) hc (lt_of_le_of_ne hend hcluster) hd
      refine ⟨fun h => hsafe h.2, fun hr h => ⟨⟨hacc, hin, fun h => absurd h hcluster⟩, ?_⟩⟩
      exact hsound hr h

/-! ### `read` -/

/-- What a read of `count` bytes from `offset` on asks of the chain from `start`: the table entries
of the clusters that are skipped are read, and the bytes are safe. -/
structure ReadSafe (v : FatVolume) (bs : Fat16BootSector) (S : ℕ → Bytes) (accepts : ℕ → Prop)
    (start offset count : ℕ) : Prop where
  bytesPerCluster_ne : bytesPerCluster bs ≠ 0
  skipped : ∀ i < offset / bytesPerCluster bs, ∀ c, chain v bs S i start = some c →
    EntrySafe bs c
  bytes : LoopSafe v bs S accepts start offset count

/-- **On which disks `read` never faults**, whichever accesses fail. -/
theorem readVia_safe_iff {offset length : ℕ} (hcluster : node.startCluster < 2 ^ 32) :
    (∀ d, d.sectors = S → (node.readVia toSector p offset length d).faulted = false) ↔
      (node.isDirectory = true ∨ node.size ≤ offset ∨ node.startCluster = 0 ∨ length = 0) ∨
      ReadSafe v bs S accepts node.startCluster offset (min length (node.size - offset)) := by
  by_cases htrivial : node.isDirectory = true ∨ node.size ≤ offset ∨ node.startCluster = 0 ∨
      length = 0
  · unfold FatNode.readVia
    rw [if_pos htrivial]
    exact ⟨fun _ => .inl htrivial, fun _ _ _ => rfl⟩
  rw [or_iff_right htrivial]
  unfold FatNode.readVia
  rw [if_neg htrivial, hnode, h16]
  change (∀ d : BlockDevice,
    d.sectors = S → (Outcome.faulted ((Program.ofOption (FatVolume.checkedDiv offset
    (bytesPerCluster bs)) >>= _) d)) = false) ↔ _
  by_cases hzero : bytesPerCluster bs = 0
  · have hdiv : FatVolume.checkedDiv offset (bytesPerCluster bs) = none := if_pos hzero
    rw [hdiv]
    refine ⟨fun h => ?_, fun h => absurd hzero h.bytesPerCluster_ne⟩
    cases h ⟨S, [], fun _ => false⟩ rfl
  have hpos := Nat.pos_of_ne_zero hzero
  have hdiv : FatVolume.checkedDiv offset (bytesPerCluster bs)
      = some (offset / bytesPerCluster bs) := if_neg hzero
  have hbps : bs.bytesPerSector ≠ 0 := left_ne_zero_of_mul hzero
  have hmod := Nat.mod_lt offset hpos
  -- the bytes, counted from the first cluster that is read
  have hskip : LoopSafe v bs S accepts node.startCluster offset (min length (node.size - offset)) ↔
      ∀ c, chain v bs S (offset / bytesPerCluster bs) node.startCluster = some c →
        LoopSafe v bs S accepts c (offset % bytesPerCluster bs)
          (min length (node.size - offset)) := by
    rw [← LoopSafe.skip_iff hpos, mod_add_div']
  rw [hdiv]
  constructor
  · intro h
    have hr : BlockDevice.Reliable ⟨S, [], fun _ => false⟩ := fun _ => rfl
    obtain ⟨hskipped, d', hd', hrest⟩ := of_not_faulted_skip_bind h16 hstart hnode hbps hcluster hr
      (h ⟨S, [], fun _ => false⟩ rfl)
    refine ⟨hzero, hskipped, hskip.mpr fun c hc => ?_⟩
    rw [hc] at hrest
    exact (readLoopVia_safe hnode h16 hstart haccepts hrefuses (chain_lt hcluster hc) hmod
      (sub_le ..) hd'.sectors).2 (hd'.reliable hr) hrest
  · rintro ⟨_, hskipped, hbytes⟩ d rfl
    refine not_faulted_skip_bind h16 hstart hnode hbps hcluster hskipped (fun _ _ => rfl)
      fun d' hd' => ?_
    cases hc : chain v bs d.sectors (offset / bytesPerCluster bs) node.startCluster with
    | none => rfl
    | some c =>
      exact (readLoopVia_safe hnode h16 hstart haccepts hrefuses (chain_lt hcluster hc) hmod
        (sub_le ..) hd'.sectors).1 (hskip.mp hbytes c hc)

end

/-! ### Data clusters -/

/-- The number of the last cluster of a volume of `total` sectors. -/
def lastDataCluster (total : ℕ) (bs : Fat16BootSector) : ℕ :=
  (total - (rootOffset bs + rootDirSectors bs)) / bs.sectorsPerCluster + 1

/-- The number is one of a data cluster. -/
def DataCluster (total : ℕ) (bs : Fat16BootSector) (c : ℕ) : Prop :=
  2 ≤ c ∧ c ≤ lastDataCluster total bs

instance (total : ℕ) (bs : Fat16BootSector) (c : ℕ) : Decidable (DataCluster total bs c) :=
  inferInstanceAs (Decidable (_ ∧ _))

/-- `cluster_to_sector`, asserting that the number is one of a data cluster. -/
def dataClusterToSector (p : Profile) (v : FatVolume) (total : ℕ) (bs : Fat16BootSector) (c : ℕ) :
    Option ℕ :=
  if DataCluster total bs c then v.clusterToSector p c FatVolume.callDepth else none

section

variable {toSector : ℕ → Option ℕ} {p : Profile} {node : FatNode} {v : FatVolume}
  {bs : Fat16BootSector} {S : ℕ → Bytes} {n fuel more c off total offset length : ℕ}
  {copied : List Byte} {d : BlockDevice}

theorem dataClusterToSector_eq (h16 : v.fatType = .fat16 bs) (hstart : v.startLba < 2 ^ 32)
    (hbps : bs.bytesPerSector ≠ 0) (hc : c < 2 ^ 32) (hdata : DataCluster total bs c) :
    ∃ s, dataClusterToSector p v total bs c = some s ∧ s < 2 ^ 63 := by
  have hlt := @clusterOffset_lt bs c hc
  refine ⟨v.startLba + clusterOffset bs c, ?_, by omega⟩
  unfold dataClusterToSector
  rw [if_pos hdata]
  exact clusterToSector_eq h16 hstart hbps hdata.1 (by omega)

/-- Every turn copies a byte, so a bound on the turns by the bytes that are missing is none. -/
theorem readLoop_turns (hnode : node.volume = v) (h16 : v.fatType = .fat16 bs)
    (hoff : off < bytesPerCluster bs) (hfuel : n - copied.length ≤ fuel) :
    node.readLoop p n (fuel + more) copied c off = node.readLoop p n fuel copied c off := by
  have hbps : bs.bytesPerSector ≠ 0 := by
    intro hzero
    rw [bytesPerCluster, hzero, zero_mul] at hoff
    exact not_lt_zero _ hoff
  have hmod : ∀ off, off % bs.bytesPerSector < bs.bytesPerSector := fun off =>
    Nat.mod_lt off (Nat.pos_of_ne_zero hbps)
  unfold FatNode.readLoop
  rw [hnode]
  induction fuel generalizing copied c off with
  | zero =>
    have hdone : ¬ copied.length < n := by omega
    cases more with
    | zero => rfl
    | succ more =>
      rw [zero_add, FatNode.readLoopVia.eq_2, if_neg hdone, FatNode.readLoopVia]
  | succ fuel ih =>
    rw [succ_add, FatNode.readLoopVia, FatNode.readLoopVia, hnode, h16]
    dsimp only [FatType.boot]
    by_cases hmore : copied.length < n
    swap
    · rw [if_neg hmore, if_neg hmore]
    rw [if_pos hmore, if_pos hmore]
    refine congrArg _ (funext fun base => congrArg _ (funext fun sector => ?_))
    refine congrArg _ (funext fun result => ?_)
    cases result with
    | error e => rfl
    | ok b =>
      dsimp only
      obtain ⟨chunk, hchunk⟩ : ∃ chunk, chunk
        = min (bs.bytesPerSector - off % bs.bytesPerSector) (n - copied.length) := ⟨_, rfl⟩
      rw [← hchunk]
      have hlt := hmod off
      have hlen : n - (copied ++ b.slice (off % bs.bytesPerSector) chunk).length ≤ fuel := by
        rw [List.length_append, Bytes.length_slice]
        omega
      have hend := chunk_le hoff (hchunk.trans_le (min_le_left ..))
      split_ifs with hslice hcluster
      · rfl
      · refine congrArg _ (funext fun next => ?_)
        cases next with
        | none => rfl
        | some c' => exact ih (by omega) hlen
      · exact ih (lt_of_le_of_ne hend hcluster) hlen

/-- **Which clusters a read visits**, on a volume of 512-byte sectors: the loop ends, and for a file
the assertion on the numbers that `cluster_to_sector` is given holds in every run, whichever
accesses fail, exactly if no byte is asked for, or every cluster of the chain that holds one of the
bytes is a data cluster.  The table is followed without a look at the number it names. -/
theorem read_stays_on_data_clusters_iff (h16 : v.fatType = .fat16 bs)
    (h512 : bs.bytesPerSector = 512) (hstart : v.startLba < 2 ^ 32) (hnode : node.volume = v)
    (hfile : node.isDirectory = false) (h2 : 2 ≤ node.startCluster)
    (hcluster : node.startCluster < 2 ^ 32) :
    (0 < bs.sectorsPerCluster → ∀ n c more,
      node.readLoop p n (n + more) [] c (offset % bytesPerCluster bs)
        = node.readLoop p n n [] c (offset % bytesPerCluster bs)) ∧
    ((∀ d, d.sectors = S →
        (node.readVia (dataClusterToSector p v total bs) p offset length d).faulted = false) ↔
      node.size ≤ offset ∨ length = 0 ∨ 0 < bs.sectorsPerCluster ∧
        ∀ i c, offset / bytesPerCluster bs ≤ i →
          i * bytesPerCluster bs < min (offset + length) node.size →
          chain v bs S i node.startCluster = some c → DataCluster total bs c) := by
  have hbpc : bytesPerCluster bs = 512 * bs.sectorsPerCluster := by
    unfold bytesPerCluster
    rw [h512]
  have hbps : bs.bytesPerSector ≠ 0 := by omega
  have hentry : ∀ c, EntrySafe bs c := by
    intro c
    unfold EntrySafe
    rw [h512]
    omega
  have hiff : (∀ d, d.sectors = S →
      (node.readVia (dataClusterToSector p v total bs) p offset length d).faulted = false) ↔
      (node.isDirectory = true ∨ node.size ≤ offset ∨ node.startCluster = 0 ∨ length = 0) ∨
        ReadSafe v bs S (DataCluster total bs) node.startCluster offset
          (min length (node.size - offset)) :=
    readVia_safe_iff hnode h16 hstart
      (fun c hc hdata => dataClusterToSector_eq h16 hstart hbps hc hdata)
      (fun c _ hdata => if_neg hdata) hcluster
  constructor
  · intro hspc n c more
    exact readLoop_turns hnode h16 (Nat.mod_lt _ (by omega)) (Nat.sub_le ..)
  rw [hiff, hfile]
  by_cases hempty : node.size ≤ offset ∨ length = 0
  · rcases hempty with hempty | hempty <;> simp [hempty]
  have hmin : min (offset + length) node.size = offset + min length (node.size - offset) := by
    omega
  rw [hmin]
  constructor
  · rintro (htrivial | hsafe)
    · simp only [Bool.false_eq_true, false_or] at htrivial
      omega
    · have hne := hsafe.bytesPerCluster_ne
      have hspc : 0 < bs.sectorsPerCluster := by omega
      refine .inr (.inr ⟨hspc, ?_⟩)
      exact (LoopSafe.clusters_iff (by omega) (by omega) hentry (by omega)).mp hsafe.bytes
  · rintro (hsize | hlength | ⟨hspc, hclusters⟩)
    · omega
    · omega
    · refine .inr ⟨by omega, fun _ _ c _ => hentry c, ?_⟩
      exact (LoopSafe.clusters_iff (by omega) (by omega) hentry (by omega)).mpr hclusters

end

/-- 512-byte sectors, one in a cluster, and one sector each for the boot record, the table and the
root directory: the first data cluster is sector 3. -/
def smallBoot : Fat16BootSector where
  bytesPerSector := 512
  sectorsPerCluster := 1
  reservedSectorCount := 1
  tableCount := 1
  rootEntryCount := 16
  tableSize16 := 1
  bytesPerSector_lt := by decide
  sectorsPerCluster_lt := by decide
  reservedSectorCount_lt := by decide
  tableCount_lt := by decide
  rootEntryCount_lt := by decide
  tableSize16_lt := by decide

/-- A table in which the entry of cluster 2 is that of a free cluster. -/
def strayDisk : BlockDevice where
  sectors := fun s => if s = 1 then Bytes.putAll (fun _ => 0) [(0, 2, 0xFFF8), (2, 2, 0xFFFF)]
    else fun _ => 0
  accesses := []
  fails := fun _ => false

/-- A file of two clusters whose first one is cluster 2. -/
def strayFile : FatNode := ⟨⟨0, .fat16 smallBoot⟩, 2, false, 1024⟩

/-- The first cluster of that file can be read. -/
theorem read_stays_on_first_cluster :
    (strayFile.readVia (dataClusterToSector .release ⟨0, .fat16 smallBoot⟩ 100 smallBoot) .release
      0 512 strayDisk).faulted = false := by
  refine (read_stays_on_data_clusters_iff rfl rfl (by decide) rfl rfl (by decide)
    (by decide)).2.mpr (.inr (.inr ⟨by decide, ?_⟩)) strayDisk rfl
  intro i c _ hlt hc
  have hsize : bytesPerCluster smallBoot = 512 := rfl
  rw [hsize] at hlt
  have hi : i = 0 := by omega
  subst hi
  cases hc
  decide

/-- The second is the free cluster 0: the subtraction panics, or wraps around to the sector of the
table, whose bytes are then delivered as the contents of the file. -/
theorem read_strays_to_table :
    (strayFile.readVia (dataClusterToSector .release ⟨0, .fat16 smallBoot⟩ 100 smallBoot) .release
      512 4 strayDisk).faulted = true ∧
    (strayFile.read .release 512 4 strayDisk).value? = some [0xF8, 0xFF, 0xFF, 0xFF] ∧
    (strayFile.read .dev 512 4 strayDisk).faulted = true := by
  decide +kernel

end NwinOs.Fs.Fat
