import NwinOs.Fs.Fat.Equiv.ReadSafe
import Mathlib.Data.List.Chain

/-!
# `read` returns the bytes of a file

On a FAT16 volume with 512-byte sectors, a file whose chain has enough data clusters is the
concatenation of its clusters, and `read` delivers the part of it that is asked for
(`read_returns_file_bytes`).  The loop is followed by the position in the file: the current cluster
is the one that holds the next byte, as long as there is one.
-/

namespace NwinOs.Fs.Fat

open Effect List Nat

/-! ### The contents of a file -/

/-- The bytes of a cluster, read off the disk. -/
def clusterBytes (v : FatVolume) (bs : Fat16BootSector) (S : ℕ → Bytes) (c : ℕ) : List Byte :=
  (runBytes S (v.startLba + clusterOffset bs c)).slice 0 (bytesPerCluster bs)

/-- The clusters are linked by the table from `start` on, all of them are data clusters, and they
have room for `size` bytes. -/
structure FileChain (v : FatVolume) (bs : Fat16BootSector) (S : ℕ → Bytes) (start size : ℕ)
    (clusters : List ℕ) : Prop where
  head : clusters.head? = some start
  linked : clusters.IsChain fun c c' => linkOf v bs S c = some c'
  data : ∀ c ∈ clusters, 2 ≤ c ∧ c < 0xFFF7
  room : size ≤ clusters.length * bytesPerCluster bs

section

variable {v : FatVolume} {bs : Fat16BootSector} {S : ℕ → Bytes} {start size c off k n : ℕ}
  {clusters : List ℕ}

@[simp] theorem length_clusterBytes :
    (clusterBytes v bs S c).length = bytesPerCluster bs := Bytes.length_slice ..

theorem length_contents :
    (clusters.flatMap (clusterBytes v bs S)).length = clusters.length * bytesPerCluster bs := by
  induction clusters with
  | nil => rw [flatMap_nil, length_nil, length_nil, zero_mul]
  | cons c rest ih =>
    rw [flatMap_cons, length_append, ih, length_clusterBytes, length_cons, succ_mul, add_comm]

theorem contents_in_cluster (hk : clusters[k]? = some c) (hn : off + n ≤ bytesPerCluster bs) :
    ((clusters.flatMap (clusterBytes v bs S)).drop (off + k * bytesPerCluster bs)).take n
      = ((clusterBytes v bs S c).drop off).take n := by
  induction clusters generalizing k with
  | nil => cases hk
  | cons a rest ih =>
    rw [flatMap_cons]
    cases k with
    | zero =>
      cases hk
      have hlen : n ≤ ((clusterBytes v bs S c).drop off).length := by
        rw [length_drop, length_clusterBytes]
        omega
      rw [zero_mul, add_zero, drop_append_of_le_length
        (by rw [length_clusterBytes]; omega), take_append_of_le_length hlen]
    | succ k =>
      have hsum : off + (k + 1) * bytesPerCluster bs
          = (clusterBytes v bs S a).length + (off + k * bytesPerCluster bs) := by
        rw [length_clusterBytes, succ_mul]
        omega
      rw [hsum, drop_length_add_append]
      exact ih hk

theorem slice_of_cluster (hn : off % 512 + n ≤ 512) (hle : off + n ≤ bytesPerCluster bs) :
    (S (v.startLba + clusterOffset bs c + off / 512)).slice (off % 512) n
      = ((clusterBytes v bs S c).drop off).take n := by
  unfold clusterBytes
  rw [Bytes.drop_slice, Bytes.take_slice, zero_add, min_eq_left (by omega)]
  apply Bytes.slice_congr
  intro i h1 h2
  unfold runBytes
  have hdiv : (i + off - off % 512) / 512 = off / 512 := by omega
  have hmod : (i + off - off % 512) % 512 = i := by omega
  rw [hdiv, hmod]

theorem chunk_of_contents {pos chunk : ℕ} (h512 : bs.bytesPerSector = 512)
    (hc : clusters[pos / bytesPerCluster bs]? = some c) (hoff : off = pos % bytesPerCluster bs)
    (hle : chunk ≤ bs.bytesPerSector - off % bs.bytesPerSector)
    (hend : off + chunk ≤ bytesPerCluster bs) :
    (S (v.startLba + clusterOffset bs c + off / bs.bytesPerSector)).slice
        (off % bs.bytesPerSector) chunk
      = ((clusters.flatMap (clusterBytes v bs S)).drop pos).take chunk := by
  have hsum : off + pos / bytesPerCluster bs * bytesPerCluster bs = pos := by
    rw [hoff, Nat.mul_comm]
    exact mod_add_div ..
  have hsector : off % 512 + chunk ≤ 512 := by
    rw [h512] at hle
    omega
  rw [h512, slice_of_cluster hsector hend, ← contents_in_cluster hc hend, hsum]

theorem position_in_cluster {pos chunk bpc : ℕ} (hoff : off = pos % bpc) (hlt : off + chunk < bpc) :
    (pos + chunk) / bpc = pos / bpc ∧ (pos + chunk) % bpc = off + chunk := by
  have hsum := div_add_mod' pos bpc
  have hsplit : pos + chunk = off + chunk + pos / bpc * bpc := by omega
  rw [hsplit, add_mul_div_right _ _ (zero_lt_of_lt hlt), div_eq_of_lt hlt, zero_add,
    add_mul_mod_self_right, mod_eq_of_lt hlt]
  exact ⟨rfl, rfl⟩

theorem position_next_cluster {pos chunk bpc : ℕ} (hoff : off = pos % bpc)
    (hend : off + chunk = bpc) : pos + chunk = (pos / bpc + 1) * bpc := by
  have hdiv := div_add_mod' pos bpc
  rw [succ_mul]
  omega

namespace FileChain

variable (h : FileChain v bs S start size clusters)

include h

theorem chain_eq (hk : k < clusters.length) : chain v bs S k start = clusters[k]? := by
  induction k with
  | zero => rw [chain, ← h.head, head?_eq_getElem?]
  | succ k ih =>
    have hlink := isChain_iff_getElem.mp h.linked k hk
    have hone : ∀ c, chain v bs S 1 c = linkOf v bs S c := fun c => Option.bind_fun_some ..
    rw [chain_add, ih (by omega), getElem?_eq_getElem (by omega), Option.bind_some, hone,
      hlink, getElem?_eq_getElem hk]

theorem next_lt (hn : n ≤ size) (hk : (k + 1) * bytesPerCluster bs < n) :
    k + 1 < clusters.length := by
  have hroom := h.room
  refine Nat.lt_of_mul_lt_mul_right (a := bytesPerCluster bs) ?_
  omega

theorem link_eq (hc : clusters[k]? = some c) (hk : k + 1 < clusters.length) :
    linkOf v bs S c = clusters[k + 1]? := by
  have hlink := isChain_iff_getElem.mp h.linked k hk
  rw [getElem?_eq_getElem (by omega)] at hc
  cases hc
  rw [hlink, getElem?_eq_getElem hk]

end FileChain

/-! ### Reading -/

variable {p : Profile} {node : FatNode} {offset fuel : ℕ} {copied : List Byte} {d : BlockDevice}
  (h16 : v.fatType = .fat16 bs) (h512 : bs.bytesPerSector = 512) (hspc : 0 < bs.sectorsPerCluster)
  (hstart : v.startLba < 2 ^ 32) (hnode : node.volume = v)
  (h : FileChain v bs S start size clusters)

include h16 h512 hspc hstart hnode h

omit hspc h in
theorem readLoop_turn (fuel : ℕ) {chunk : ℕ} (hr : d.Reliable) (h2 : 2 ≤ c) (h7 : c < 0xFFF7)
    (hin : off < bytesPerCluster bs) (hmore : copied.length < n)
    (hchunk : chunk = chunkSize bs off (n - copied.length)) :
    ∃ d₁ X, SameDisk d d₁ ∧
      X = (d.sectors (v.startLba + clusterOffset bs c + off / bs.bytesPerSector)).slice
        (off % bs.bytesPerSector) chunk ∧
      node.readLoop p n (fuel + 1) copied c off d =
        if off + chunk = bytesPerCluster bs then
          (v.nextCluster p c >>= fun next =>
            match next with
            | none => pure (copied ++ X)
            | some next => node.readLoop p n fuel (copied ++ X) next 0) d₁
        else node.readLoop p n fuel (copied ++ X) c (off + chunk) d₁ := by
  have hbps : bs.bytesPerSector ≠ 0 := by omega
  have hle : chunk ≤ bs.bytesPerSector - off % bs.bytesPerSector :=
    hchunk.trans_le chunkSize_le_sector
  have hmod := mod_lt off (pos_of_ne_zero hbps)
  have hoffset := @clusterOffset_lt bs c (by omega)
  have hsector : node.volume.clusterToSector p c FatVolume.callDepth
      = some (v.startLba + clusterOffset bs c) := by
    rw [hnode]
    exact clusterToSector_eq h16 hstart hbps h2 (by omega)
  have hlt : v.startLba + clusterOffset bs c + off / bs.bytesPerSector < 2 ^ 64 := by
    have hspc' := bs.sectorsPerCluster_lt
    have hin : off / bs.bytesPerSector < bs.sectorsPerCluster := Nat.div_lt_of_lt_mul hin
    omega
  refine ⟨d.record .read (v.startLba + clusterOffset bs c + off / bs.bytesPerSector), _, .record,
    rfl, ?_⟩
  unfold FatNode.readLoop
  rw [readLoopVia_turn hnode h16 hmore (by exact hsector) hlt, ← hchunk, hr,
    if_neg Bool.false_ne_true]
  exact if_neg (by omega)

/-- **The loop delivers the rest of what is asked for**, from the cluster that holds the next byte.
-/
theorem readLoop_value (hd : d.sectors = S) (hr : d.Reliable) (hn : offset + n ≤ size)
    (hcurrent : copied.length < n →
      clusters[(offset + copied.length) / bytesPerCluster bs]? = some c ∧
        off = (offset + copied.length) % bytesPerCluster bs)
    (hfuel : n - copied.length ≤ fuel) :
    ∃ d', SameDisk d d' ∧ node.readLoop p n fuel copied c off d
      = .ok (copied ++ ((clusters.flatMap (clusterBytes v bs S)).drop
          (offset + copied.length)).take (n - copied.length)) d' := by
  have hbps : bs.bytesPerSector ≠ 0 := by omega
  have hbpc : 0 < bytesPerCluster bs := mul_pos (pos_of_ne_zero hbps) hspc
  have hdone : ∀ {copied l : List Byte}, ¬ copied.length < n →
      copied = copied ++ l.take (n - copied.length) := by
    intro copied l hend
    rw [Nat.sub_eq_zero_of_le (by omega), take_zero, append_nil]
  induction fuel generalizing copied c off d with
  | zero => exact ⟨d, .refl, congrArg (Outcome.ok · d) (hdone (by omega))⟩
  | succ fuel ih =>
    by_cases hmore : copied.length < n
    swap
    · rw [FatNode.readLoop, FatNode.readLoopVia, if_neg hmore]
      exact ⟨d, .refl, congrArg (Outcome.ok · d) (hdone hmore)⟩
    obtain ⟨hc, hoff⟩ := hcurrent hmore
    obtain ⟨pos, hpos⟩ : ∃ pos, pos = offset + copied.length := ⟨_, rfl⟩
    rw [← hpos] at hc hoff ⊢
    -- the chunk of this turn
    have hin : off < bytesPerCluster bs := hoff ▸ mod_lt _ hbpc
    obtain ⟨chunk, hchunk⟩ : ∃ chunk, chunk = chunkSize bs off (n - copied.length) := ⟨_, rfl⟩
    have hle : chunk ≤ bs.bytesPerSector - off % bs.bytesPerSector :=
      hchunk.trans_le chunkSize_le_sector
    have hcount : chunk ≤ n - copied.length := hchunk.trans_le chunkSize_le_count
    have hpositive : 0 < chunk := (chunkSize_pos hbps (by omega)).trans_eq hchunk.symm
    have hend := chunk_le hin hle
    obtain ⟨h2, h7⟩ := h.data c (mem_of_getElem? hc)
    obtain ⟨d₁, X, hsame, hX, hturn⟩ := readLoop_turn h16 h512 hstart hnode fuel hr h2 h7 hin
      hmore hchunk (p := p)
    rw [hd, chunk_of_contents h512 hc hoff hle hend] at hX
    have hlen : (copied ++ X).length = copied.length + chunk := by
      rw [length_append, hX, ← chunk_of_contents h512 hc hoff hle hend, Bytes.length_slice]
    have hnext : offset + (copied ++ X).length = pos + chunk := by omega
    have hjoin : copied ++ X ++ ((clusters.flatMap (clusterBytes v bs S)).drop
        (offset + (copied ++ X).length)).take (n - (copied ++ X).length)
        = copied ++ ((clusters.flatMap (clusterBytes v bs S)).drop pos).take
          (n - copied.length) := by
      have hrest : n - copied.length = chunk + (n - (copied ++ X).length) := by omega
      rw [hrest, take_add, ← hX, drop_drop, hnext, append_assoc]
    rw [hturn, ← hjoin]
    have hd' : d₁.sectors = S := hsame.sectors.trans hd
    have hr' : d₁.Reliable := hsame.reliable hr
    by_cases hcluster : off + chunk = bytesPerCluster bs
    · -- the end of a cluster, which may be the last one
      have hpos' := position_next_cluster hoff hcluster
      have hroom : (copied ++ X).length < n → pos / bytesPerCluster bs + 1 < clusters.length :=
        fun hmore' => h.next_lt hn (by omega)
      have hentry : EntrySafe bs c := by
        unfold EntrySafe
        rw [h512]
        omega
      have hlink := nextCluster_run h16 hstart hbps (by omega : c < 2 ^ 60) (p := p) (d := d₁)
      rw [hr', if_neg Bool.false_ne_true, if_pos hentry, hd'] at hlink
      rw [if_pos hcluster, bind_of_ok hlink]
      cases hc' : linkOf v bs S c with
      | none =>
        have hlast : ¬ (copied ++ X).length < n := by
          intro hmore'
          have hk := hroom hmore'
          rw [h.link_eq hc hk, getElem?_eq_getElem hk] at hc'
          cases hc'
        exact ⟨_, hsame.trans .record, congrArg (Outcome.ok · _) (hdone hlast)⟩
      | some c' =>
        have hcurrent' : (copied ++ X).length < n →
            clusters[(offset + (copied ++ X).length) / bytesPerCluster bs]? = some c' ∧
              0 = (offset + (copied ++ X).length) % bytesPerCluster bs := by
          intro hmore'
          rw [hnext, hpos', Nat.mul_div_cancel _ hbpc, Nat.mul_mod_left,
            ← h.link_eq hc (hroom hmore')]
          exact ⟨hc', rfl⟩
        obtain ⟨d₂, hsame₂, hrun⟩ := ih hd' hr' hcurrent' (by omega)
          (d := d₁.record .read (v.startLba + entryOffset bs c))
        exact ⟨d₂, (hsame.trans .record).trans hsame₂, hrun⟩
    · rw [if_neg hcluster]
      have hcurrent' : (copied ++ X).length < n →
          clusters[(offset + (copied ++ X).length) / bytesPerCluster bs]? = some c ∧
            off + chunk = (offset + (copied ++ X).length) % bytesPerCluster bs := by
        intro _
        obtain ⟨hdiv, hmod⟩ := position_in_cluster hoff (lt_of_le_of_ne hend hcluster)
        rw [hnext, hdiv, hmod]
        exact ⟨hc, rfl⟩
      obtain ⟨d₂, hsame₂, hrun⟩ := ih hd' hr' hcurrent' (by omega)
      exact ⟨d₂, hsame.trans hsame₂, hrun⟩

end

theorem take_drop_add {α : Type} {l : List α} {offset size m n : ℕ} :
    (l.drop offset).take (min (m + n) (size - offset))
      = (l.drop offset).take (min m (size - offset))
        ++ (l.drop (offset + m)).take (min n (size - (offset + m))) := by
  by_cases hm : m ≤ size - offset
  · have hsum : min (m + n) (size - offset) = m + min n (size - (offset + m)) := by omega
    rw [hsum, take_add, drop_drop, min_eq_left hm]
  · have hsum : min (m + n) (size - offset) = min m (size - offset) := by omega
    have hnone : min n (size - (offset + m)) = 0 := by omega
    rw [hsum, hnone, take_zero, append_nil]

section

variable {p : Profile} {node : FatNode} {v : FatVolume} {bs : Fat16BootSector} {clusters : List ℕ}
  {d : BlockDevice} (h16 : v.fatType = .fat16 bs) (h512 : bs.bytesPerSector = 512)
  (hspc : 0 < bs.sectorsPerCluster) (hstart : v.startLba < 2 ^ 32) (hnode : node.volume = v)
  (hfile : node.isDirectory = false)

include h16 h512 hspc hstart hnode hfile

theorem read_value (h : FileChain v bs d.sectors node.startCluster node.size clusters)
    (hr : d.Reliable) (offset length : ℕ) :
    ∃ d', SameDisk d d' ∧ node.read p offset length d
      = .ok (((clusters.flatMap (clusterBytes v bs d.sectors)).drop offset).take
          (min length (node.size - offset))) d' := by
  have hbps : bs.bytesPerSector ≠ 0 := by omega
  have hbpc : 0 < bytesPerCluster bs := mul_pos (pos_of_ne_zero hbps) hspc
  obtain ⟨h2, h7⟩ := h.data _ (mem_of_mem_head? h.head)
  unfold FatNode.read FatNode.readVia
  by_cases htrivial : node.size ≤ offset ∨ length = 0
  · have hcond : node.isDirectory = true ∨ node.size ≤ offset ∨ node.startCluster = 0 ∨
        length = 0 := by
      rcases htrivial with hsize | hlength
      · exact .inr (.inl hsize)
      · exact .inr (.inr (.inr hlength))
    have hnone : min length (node.size - offset) = 0 := by omega
    rw [if_pos hcond, hnone, take_zero]
    exact ⟨d, .refl, rfl⟩
  have hcond : ¬ (node.isDirectory = true ∨ node.size ≤ offset ∨ node.startCluster = 0 ∨
      length = 0) := by
    rw [hfile]
    rintro (hdir | hsize | hzero | hlength)
    · cases hdir
    · exact htrivial (.inl hsize)
    · omega
    · exact htrivial (.inr hlength)
  rw [if_neg hcond, hnode, h16]
  dsimp only [FatType.boot]
  have hdiv : FatVolume.checkedDiv offset (bs.bytesPerSector * bs.sectorsPerCluster)
      = some (offset / bytesPerCluster bs) := if_neg hbpc.ne'
  have hentry : ∀ c, EntrySafe bs c := by
    unfold EntrySafe
    rw [h512]
    omega
  -- the cluster that holds the first byte
  have hindex : offset / bytesPerCluster bs < clusters.length := by
    have hroom := h.room
    exact Nat.div_lt_of_lt_mul (by rw [Nat.mul_comm]; omega)
  have hc : clusters[offset / bytesPerCluster bs]?
      = some (clusters.get ⟨offset / bytesPerCluster bs, hindex⟩) :=
    getElem?_eq_getElem hindex
  obtain ⟨d₁, hd₁, hskip⟩ : ∃ d₁, SameDisk d d₁ ∧
      node.skipClusters p (offset / bytesPerCluster bs) node.startCluster d
        = .ok (some (clusters.get ⟨offset / bytesPerCluster bs, hindex⟩)) d₁ := by
    rw [← hc, ← h.chain_eq hindex]
    exact skipClusters_run h16 hstart hnode hbps (by omega) hentry hr
  obtain ⟨d₂, hd₂, hloop⟩ := readLoop_value (p := p) (n := min length (node.size - offset))
    h16 h512 hspc hstart hnode h hd₁.sectors (hd₁.reliable hr) (by omega : offset + _ ≤ _)
    (fun _ => ⟨hc, rfl⟩ : ([] : List Byte).length < _ → _) (sub_le ..)
  refine ⟨d₂, hd₁.trans hd₂, ?_⟩
  rw [hdiv]
  change (node.skipClusters p (offset / bytesPerCluster bs) node.startCluster >>= _) d = _
  rw [bind_of_ok hskip]
  rw [FatNode.readLoop, hnode] at hloop
  exact hloop

/-- **`read` returns the bytes of the file**: as many as are asked for and there are, from the
offset on, out of the concatenation of the clusters.  So a read in two parts delivers what one read
does. -/
theorem read_returns_file_bytes
    (h : FileChain v bs d.sectors node.startCluster node.size clusters) (hr : d.Reliable) :
    (∀ offset length, ∃ bytes d', SameDisk d d' ∧ node.read p offset length d = .ok bytes d' ∧
      bytes.length = min length (node.size - offset) ∧
      bytes = ((clusters.flatMap (clusterBytes v bs d.sectors)).drop offset).take
        (min length (node.size - offset))) ∧
    ∀ offset m n, ∃ xs ys d₁ d₂ d₃, node.read p offset m d = .ok xs d₁ ∧
      node.read p (offset + m) n d₁ = .ok ys d₂ ∧
      node.read p offset (m + n) d = .ok (xs ++ ys) d₃ := by
  constructor
  · intro offset length
    obtain ⟨d', hd', hread⟩ := read_value (p := p) h16 h512 hspc hstart hnode hfile h hr
      offset length
    refine ⟨_, d', hd', hread, ?_, rfl⟩
    have hroom := h.room
    rw [List.length_take, List.length_drop, length_contents]
    omega
  · intro offset m n
    obtain ⟨d₁, hd₁, hfirst⟩ := read_value (p := p) h16 h512 hspc hstart hnode hfile h hr offset m
    rw [← hd₁.sectors] at h
    obtain ⟨d₂, -, hsecond⟩ := read_value (p := p) h16 h512 hspc hstart hnode hfile h
      (hd₁.reliable hr) (offset + m) n
    rw [hd₁.sectors] at h hsecond
    obtain ⟨d₃, -, hboth⟩ := read_value (p := p) h16 h512 hspc hstart hnode hfile h hr
      offset (m + n)
    refine ⟨_, _, d₁, d₂, d₃, hfirst, hsecond, ?_⟩
    rw [hboth, take_drop_add]

end

/-- A table with the chain of the clusters 2 and 3. -/
def linkedDisk : BlockDevice where
  sectors := fun s => if s = 1 then Bytes.putAll (fun _ => 0)
      [(0, 2, 0xFFF8), (2, 2, 0xFFFF), (4, 2, 3), (6, 2, 0xFFFF)]
    else fun _ => BitVec.ofNat 8 s
  accesses := []
  fails := fun _ => false

/-- A file of 600 bytes in these clusters. -/
def linkedFile : FatNode := ⟨⟨0, .fat16 smallBoot⟩, 2, false, 600⟩

/-- Four bytes across the end of the first cluster. -/
theorem read_linkedFile : ∃ bytes d', linkedFile.read .dev 510 4 linkedDisk = .ok bytes d' ∧
    bytes.length = 4 ∧ bytes = (([2, 3].flatMap (clusterBytes ⟨0, .fat16 smallBoot⟩ smallBoot
      linkedDisk.sectors)).drop 510).take 4 := by
  have hlink : linkOf ⟨0, .fat16 smallBoot⟩ smallBoot linkedDisk.sectors 2 = some 3 := by
    decide +kernel
  have hchain : FileChain ⟨0, .fat16 smallBoot⟩ smallBoot linkedDisk.sectors
      linkedFile.startCluster linkedFile.size [2, 3] :=
    ⟨rfl, List.isChain_pair.mpr hlink, by decide, by decide⟩
  have hnode : linkedFile.volume = ⟨0, .fat16 smallBoot⟩ := rfl
  have hreliable : linkedDisk.Reliable := fun _ => rfl
  obtain ⟨bytes, d', -, hread, hlen, hbytes⟩ := (read_returns_file_bytes (p := .dev) rfl rfl
    (by decide) (by decide) hnode rfl hchain hreliable).1 510 4
  have hmin : min 4 (linkedFile.size - 510) = 4 := by decide
  rw [hmin] at hlen hbytes
  exact ⟨bytes, d', hread, hlen, hbytes⟩

end NwinOs.Fs.Fat
