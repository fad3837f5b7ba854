import NwinOs.Fs.Ext4.Equiv.Node
import Mathlib.Logic.Relation

/-!
# Directories in which `lookup` reads no header behind its buffer

`lookup` reads the eight bytes of a header wherever the lengths of the records before it lead, as
long as that is a byte it has filled.  `lookup_safe_iff` says for which contents of a directory all
these headers lie in the buffer, whatever part of the directory the device lets it read.
-/

namespace NwinOs.Fs.Ext4

open Effect

/-! ### The walk of `lookup` -/

/-- A turn of the loop over `k` bytes that moves on. -/
structure LookupStep (b : Bytes) (k o o' : ℕ) : Prop where
  lt : o < k
  nonzero : recLenAt b o ≠ 0
  inside : (recordAt b o).inode ≠ 0 → o + 8 + nameLenAt b o ≤ k
  next : o' = o + recLenAt b o

/-- A walk of the lookup loop. -/
abbrev LookupWalks (b : Bytes) (k : ℕ) : ℕ → ℕ → Prop := Relation.ReflTransGen (LookupStep b k)

/-- Every header that the loop over `k` bytes comes to lies in the buffer of `size` bytes. -/
def HeadersInside (b : Bytes) (k size : ℕ) : Prop :=
  ∀ o, LookupWalks b k 0 o → o < k → o + 8 ≤ size

/-- The device fails every access from now on. -/
def Dead (d : BlockDevice) : Prop := ∀ i, d.accesses.length ≤ i → d.fails i = true

section

variable {p : Profile} {node : Ext4Node} {bs k o o' fuel fuel' : ℕ} {b : Bytes} {name : String}
  {d d' : BlockDevice}

theorem Dead.sameDisk (h : Dead d) (hsame : SameDisk d d') : Dead d' := by
  intro i hi
  rw [hsame.fails]
  exact h i (hsame.later.trans hi)

theorem LookupWalks.le (h : LookupWalks b k o o') : o ≤ o' := by
  induction h with
  | refl => exact le_rfl
  | tail _ hstep ih =>
    have := hstep.next
    omega

/-- The loop ends: more turns than there are bytes make no difference. -/
theorem lookupLoop_fuel (h : k - o ≤ fuel) (h' : k - o ≤ fuel') :
    node.lookupLoop p name b k fuel o = node.lookupLoop p name b k fuel' o := by
  induction fuel generalizing o fuel' with
  | zero =>
    cases fuel' with
    | zero => rfl
    | succ fuel' =>
      rw [lookupLoop_succ, if_neg (by omega)]
      rfl
  | succ fuel ih =>
    cases fuel' with
    | zero =>
      rw [lookupLoop_succ, if_neg (by omega)]
      rfl
    | succ fuel' =>
      rw [lookupLoop_succ, lookupLoop_succ]
      by_cases hlen : recLenAt b o = 0
      · rw [if_pos hlen, if_pos hlen]
      · rw [@ih (o + recLenAt b o) fuel' (by omega) (by omega)]

theorem lookupLoop_not_faulted (hl : Layout p node.volume bs)
    (hipg : 0 < node.volume.superBlock.sInodesPerGroup)
    (hsafe : ∀ o', LookupWalks b k o o' → o' < k → o' + 8 ≤ node.size) :
    wp (node.lookupLoop p name b k fuel o) (fun _ _ => True) (fun _ _ => True)
      (fun _ => False) d := by
  induction fuel generalizing o d with
  | zero => trivial
  | succ fuel ih =>
    rw [lookupLoop_succ]
    by_cases hlt : o < k
    swap
    · rw [if_neg hlt]
      trivial
    have hheader := hsafe o .refl hlt
    rw [if_pos hlt, if_neg (by omega)]
    by_cases hzero : recLenAt b o = 0
    · rw [if_pos hzero]
      trivial
    rw [if_neg hzero]
    have hnext : ((recordAt b o).inode ≠ 0 → o + 8 + nameLenAt b o ≤ k) → ∀ d,
        wp (node.lookupLoop p name b k fuel (o + recLenAt b o)) (fun _ _ => True) (fun _ _ => True)
          (fun _ => False) d := fun hinside d =>
      ih fun o' hw => hsafe o' (hw.head ⟨hlt, hzero, hinside, rfl⟩)
    by_cases hlive : (recordAt b o).inode ≠ 0
    swap
    · rw [if_neg hlive]
      exact hnext (fun h => absurd h hlive) d
    rw [if_pos hlive]
    by_cases hover : k < o + 8 + nameLenAt b o
    · rw [if_pos hover]
      trivial
    have hgo := hnext fun _ => Nat.le_of_not_lt hover
    rw [if_neg hover]
    by_cases hname : (recordAt b o).name = nameBytes name
    · rw [if_pos hname, wp_bind, wp_attempt]
      exact wp_readInode_any hl hipg (fun _ _ _ _ => trivial) (fun _ => hgo d)
        fun d' _ _ => hgo d'
    · rw [if_neg hname]
      exact hgo d

/-- If no inode can be read any more, the loop comes to every header of the walk. -/
theorem lookupLoop_faulted (hl : Layout p node.volume bs)
    (hipg : 0 < node.volume.superBlock.sInodesPerGroup) (hw : LookupWalks b k o o') (hlt : o' < k)
    (hout : node.size < o' + 8) (hfuel : k - o ≤ fuel) (hd : Dead d) :
    wp (node.lookupLoop p name b k fuel o) (fun _ _ => False) (fun _ _ => False) (fun _ => True)
      d := by
  induction hw using Relation.ReflTransGen.head_induction_on generalizing fuel d with
  | refl =>
    obtain ⟨fuel, rfl⟩ := Nat.exists_eq_add_one_of_ne_zero (n := fuel) (by omega)
    rw [lookupLoop_succ, if_pos hlt, if_pos hout]
    trivial
  | @head o c hstep _ ih =>
    obtain ⟨hlt, hnonzero, hinside, rfl⟩ := hstep
    obtain ⟨fuel, rfl⟩ := Nat.exists_eq_add_one_of_ne_zero (n := fuel) (by omega)
    rw [lookupLoop_succ, if_pos hlt]
    by_cases hheader : node.size < o + 8
    · rw [if_pos hheader]
      trivial
    rw [if_neg hheader, if_neg hnonzero]
    have hnext : ∀ d, Dead d → wp (node.lookupLoop p name b k fuel (o + recLenAt b o))
        (fun _ _ => False) (fun _ _ => False) (fun _ => True) d := fun d hd => ih (by omega) hd
    by_cases hlive : (recordAt b o).inode ≠ 0
    · rw [if_pos hlive, if_neg (Nat.not_lt_of_le (hinside hlive))]
      by_cases hname : (recordAt b o).name = nameBytes name
      · rw [if_pos hname, wp_bind, wp_attempt]
        refine wp_readInode_any hl hipg (fun _ hfirst => ?_) (fun _ => hnext d hd)
          fun d' hsame _ => hnext d' (hd.sameDisk hsame)
        rw [hd _ le_rfl] at hfirst
        cases hfirst
      · rw [if_neg hname]
        exact hnext d hd
    · rw [if_neg hlive]
      exact hnext d hd

end

/-! ### What `read` fills in -/

/-- The first `avail` bytes of a file lie in blocks on the device; if that is not all of it, the
next block is not mapped. -/
structure Readable (p : Profile) (node : Ext4Node) (bs avail : ℕ) (blk : ℕ → ℕ) : Prop where
  le : avail ≤ node.size
  located : ∀ l, l * bs < avail → Located p node.volume bs node.inode l (blk l)
  ends : avail < node.size → bs ∣ avail ∧
    node.volume.logicalToPhysicalSector p node.inode (avail / bs % 2 ^ 32) = some none

section

variable {p : Profile} {node : Ext4Node} {bs avail cur : ℕ} {blk : ℕ → ℕ} {d : BlockDevice}

theorem Readable.readLoop_turn (h : Readable p node bs avail blk) (hdvd : 512 ∣ bs) (hpos : 0 < bs)
    (hcur : 512 ∣ cur) (hlt : cur < avail) {fuel : ℕ} {copied : List Byte}
    (hlen : copied.length = cur) :
    ∃ d₁, SameDisk d d₁ ∧ d₁.accesses.length = d.accesses.length + 1 ∧
      node.readLoop p (fun _ => none) bs node.size (fuel + 1) copied cur d
        = if d.fails d.accesses.length = true then .ok copied d₁
          else node.readLoop p (fun _ => none) bs node.size fuel
            (copied ++ (fileByte node.volume bs d.sectors blk).slice cur
              (min 512 (node.size - cur)))
            (cur + min 512 (node.size - cur)) d₁ := by
  have hle := h.le
  have hmapped := h.located (cur / bs) (lt_of_le_of_lt (Nat.div_mul_le_self cur bs) hlt)
  have hfits := hmapped.fits
  have hsec := sector_in_block_lt hdvd hpos cur
  have hoff : cur % 512 = 0 := Nat.mod_eq_zero_of_dvd hcur
  obtain ⟨target, htarget⟩ : ∃ target, target = sectorOf node.volume bs (blk (cur / bs))
      + cur % bs / 512 := ⟨_, rfl⟩
  refine ⟨d.record .read target, .record, rfl, ?_⟩
  rw [Ext4Node.readLoop, if_pos (by omega)]
  dsimp only
  rw [Nat.mod_eq_of_lt hmapped.lt, hmapped.sector]
  change (Program.ofOption (p.add 64 (sectorOf node.volume bs (blk (cur / bs))) (cur % bs / 512))
    >>= _) d = _
  rw [Profile.add_eq_some (by omega), ← htarget]
  change ((readBlock target).attempt >>= _) d = _
  by_cases hfails : d.fails d.accesses.length = true
  · have hread : readBlock target d = .err .blockRead (d.record .read target) := if_pos hfails
    rw [if_pos hfails, bind_of_ok (attempt_of_err hread)]
    rfl
  · have hread : readBlock target d = .ok (d.sectors target) (d.record .read target) :=
      if_neg hfails
    have hslice := @fileByte_slice node.volume bs d.sectors blk hdvd cur
      (min 512 (node.size - cur)) (by omega)
    rw [if_neg hfails, bind_of_ok (attempt_of_ok hread)]
    rw [hslice, ← htarget, hlen, hoff, Nat.sub_zero]

/-- **The loop of `read`**, from the start of a sector on: it fills in what is on the device, up to
the first sector that cannot be read. -/
theorem Readable.readLoop_run (h : Readable p node bs avail blk) (hdvd : 512 ∣ bs) (hpos : 0 < bs)
    {m : ℕ} : ∀ {fuel cur : ℕ} {d : BlockDevice}, cur ≤ avail → (512 ∣ cur ∨ cur = node.size) →
      node.size - cur ≤ fuel → d.accesses.length = m + (cur + 511) / 512 →
      ∃ k d', SameDisk d d' ∧ cur ≤ k ∧ k ≤ avail ∧
        (∀ i, cur ≤ i * 512 → i * 512 < k → d.fails (m + i) = false) ∧
        (k = avail ∨ 512 ∣ k ∧ d.fails (m + k / 512) = true) ∧
        m + (k + 511) / 512 ≤ d'.accesses.length ∧
        node.readLoop p (fun _ => none) bs node.size fuel
          ((fileByte node.volume bs d.sectors blk).slice 0 cur) cur d
          = .ok ((fileByte node.volume bs d.sectors blk).slice 0 k) d' := by
  have hle := h.le
  intro fuel
  induction fuel with
  | zero =>
    intro cur d hcur _ hfuel hm
    exact ⟨cur, d, .refl, le_rfl, hcur, fun i h1 h2 => by omega, .inl (by omega), hm.ge, rfl⟩
  | succ fuel ih =>
    intro cur d hcur hsector hfuel hm
    have hlen : ((fileByte node.volume bs d.sectors blk).slice 0 cur).length = cur :=
      Bytes.length_slice ..
    by_cases hmore : cur < node.size
    swap
    · refine ⟨cur, d, .refl, le_rfl, hcur, fun i h1 h2 => by omega, .inl (by omega), hm.ge, ?_⟩
      rw [Ext4Node.readLoop, if_neg (by omega)]
      rfl
    have hcur512 : 512 ∣ cur := hsector.resolve_right (by omega)
    by_cases hlt : cur < avail
    swap
    · -- the next block is not mapped
      have heq : cur = avail := by omega
      obtain ⟨_, hhole⟩ := h.ends (by omega)
      refine ⟨cur, d, .refl, le_rfl, hcur, fun i h1 h2 => by omega, .inl heq, hm.ge, ?_⟩
      rw [Ext4Node.readLoop, if_pos (by omega)]
      rw [heq, hhole]
      rfl
    obtain ⟨d₁, hsame, haccesses, hturn⟩ :=
      @Readable.readLoop_turn p node bs avail cur blk d h hdvd hpos hcur512 hlt fuel _ hlen
    rw [hturn]
    by_cases hfails : d.fails d.accesses.length = true
    · rw [if_pos hfails]
      refine ⟨cur, d₁, hsame, le_rfl, hcur, fun i h1 h2 => by omega, .inr ⟨hcur512, ?_⟩,
        by omega, rfl⟩
      have hindex : d.accesses.length = m + cur / 512 := by omega
      rwa [hindex] at hfails
    rw [if_neg hfails]
    obtain ⟨chunk, hchunk⟩ : ∃ chunk, chunk = min 512 (node.size - cur) := ⟨_, rfl⟩
    have hstay : cur + chunk ≤ avail := by
      by_cases hall : avail < node.size
      · have hmult : 512 ∣ avail := Nat.dvd_trans hdvd (h.ends hall).1
        omega
      · omega
    have hslice := Bytes.slice_add (fileByte node.volume bs d.sectors blk) 0 cur chunk
    rw [Nat.zero_add] at hslice
    rw [← hchunk, ← hslice, ← hsame.sectors]
    obtain ⟨k, d', hsame', hk, hkle, hnone, hstop, hcount, hrun⟩ :=
      @ih (cur + chunk) d₁ hstay (by omega) (by omega) (by omega)
    rw [hsame.fails] at hnone hstop
    refine ⟨k, d', hsame.trans hsame', by omega, hkle, fun i h1 h2 => ?_, hstop, hcount, ?_⟩
    · by_cases hmine : i * 512 < cur + chunk
      · have hindex : m + i = d.accesses.length := by omega
        rw [hindex]
        exact Bool.eq_false_of_not_eq_true hfails
      · exact hnone i (by omega) h2
    · rw [hrun]

/-- The buffer of `lookup` after `k` bytes of the directory have been read. -/
def readBuffer (v : Ext4Volume) (bs : ℕ) (S : ℕ → Bytes) (blk : ℕ → ℕ) (k : ℕ) : Bytes :=
  Bytes.splice (fun _ => 0) 0 ((fileByte v bs S blk).slice 0 k)

theorem Readable.lookup_run (h : Readable p node bs avail blk) (hl : Layout p node.volume bs)
    (hdir : node.isDirectory = true) {name : String} :
    ∃ k d', SameDisk d d' ∧ k ≤ avail ∧
      (∀ i, i * 512 < k → d.fails (d.accesses.length + i) = false) ∧
      (k = avail ∨ 512 ∣ k ∧ d.fails (d.accesses.length + k / 512) = true) ∧
      d.accesses.length + (k + 511) / 512 ≤ d'.accesses.length ∧
      node.lookup p name d
        = node.lookupLoop p name (readBuffer node.volume bs d.sectors blk k) k k 0 d' := by
  obtain ⟨k, d', hsame, _, hk, hnone, hstop, hcount, hrun⟩ :=
    @Readable.readLoop_run p node bs avail blk h hl.dvd hl.pos d.accesses.length node.size 0 d
      (Nat.zero_le _) (.inl (dvd_zero 512)) le_rfl rfl
  refine ⟨k, d', hsame, hk, fun i hi => hnone i (Nat.zero_le _) hi, hstop, hcount, ?_⟩
  have hread : node.read p 0 node.size d
      = .ok ((fileByte node.volume bs d.sectors blk).slice 0 k) d' := by
    rw [← hrun, Ext4Node.read, Ext4Node.readWith]
    by_cases hempty : node.size ≤ 0 ∨ node.size = 0
    · have hzero : node.size = 0 := by omega
      rw [if_pos hempty, hzero]
      rfl
    · have hpos := hl.pos
      have hcount : min node.size (node.size - 0) = node.size := by omega
      rw [if_neg hempty, hl.blockSize_eq, hcount]
      change (Program.ofOption (if bs = 0 then none else some ()) >>= _) d = _
      rw [if_neg (by omega)]
      rfl
  unfold Ext4Node.lookup
  rw [hdir, if_neg (by decide), bind_of_ok hread, Bytes.length_slice]
  by_cases hzero : k = 0
  · rw [if_pos hzero, hzero]
    rfl
  · rw [if_neg hzero]
    rfl

/-- **In which directories `lookup` stays in its buffer**: whatever part of the directory is read,
all of it or a number of sectors, every header that the lengths lead to is inside. -/
theorem Readable.lookup_safe_iff (h : Readable p node bs avail blk) (hl : Layout p node.volume bs)
    (hipg : 0 < node.volume.superBlock.sInodesPerGroup) (hdir : node.isDirectory = true)
    {S : ℕ → Bytes} {name : String} :
    (∀ d, d.sectors = S → (node.lookup p name d).faulted = false) ↔
      ∀ k, (k = avail ∨ 512 ∣ k ∧ k < avail) →
        HeadersInside (readBuffer node.volume bs S blk k) k node.size := by
  constructor
  · intro hsafe k hk o hw hlt
    by_contra hout
    -- the device that reads these bytes and nothing more
    have hrun := hsafe ⟨S, [], fun i => decide ((k + 511) / 512 ≤ i)⟩ rfl
    obtain ⟨k', d', hsame, hk', hnone, hstop, hcount, hlookup⟩ :=
      @Readable.lookup_run p node bs avail blk ⟨S, [], fun i => decide ((k + 511) / 512 ≤ i)⟩ h hl
        hdir name
    simp only [List.length_nil, Nat.zero_add, decide_eq_false_iff_not, decide_eq_true_eq,
      Nat.not_le] at hnone hstop hcount
    have heq : k' = k := by
      have hlast := hnone ((k' - 1) / 512)
      omega
    rw [heq] at hlookup hcount
    have hdead : Dead d' := by
      intro i hi
      rw [hsame.fails]
      exact decide_eq_true (hcount.trans hi)
    rw [hlookup] at hrun
    have hfault : (node.lookupLoop p name (readBuffer node.volume bs S blk k) k k 0 d').faulted
        = true :=
      faulted_of_wp (lookupLoop_faulted hl hipg hw hlt (Nat.lt_of_not_le hout) (Nat.sub_le k 0)
        hdead)
    rw [hfault] at hrun
    cases hrun
  · rintro hsafe d rfl
    obtain ⟨k, d', _, hk, _, hstop, _, hlookup⟩ :=
      @Readable.lookup_run p node bs avail blk d h hl hdir name
    rw [hlookup]
    refine not_faulted_of_wp (lookupLoop_not_faulted hl hipg (hsafe k ?_))
    rcases hstop with hall | ⟨hdvd, _⟩
    · exact .inl hall
    · exact hk.eq_or_lt.imp id fun hlt => ⟨hdvd, hlt⟩

end

end NwinOs.Fs.Ext4
