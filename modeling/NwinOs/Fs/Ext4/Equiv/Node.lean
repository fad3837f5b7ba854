import NwinOs.Fs.Ext4.Node
import NwinOs.Fs.Ext4.Equiv.Volume

/-!
# What reading and looking up do

* `wp_read`: where the extents map every block of the range, `read` gives the bytes of those blocks
  (`fileByte`).
* `Tiled` says that a stretch of a directory is a sequence of records; `wp_lookup` reads the result
  of a lookup off that sequence (`resolve`).
-/

namespace NwinOs.Fs.Ext4

open Effect Bytes Option List

/-! ### Mapped blocks -/

section

variable {p : Profile} {inode : Ext4Inode} {l b : ℕ}

theorem extentSearch_lt {count i : ℕ} (h : inode.extentSearch p l none count i = some (some b)) :
    l < 2 ^ 32 ∧ b < 2 ^ 50 := by
  induction count generalizing i with
  | zero => simp [Ext4Inode.extentSearch] at h
  | succ count ih =>
    rw [Ext4Inode.extentSearch] at h
    split_ifs at h with hi hle
    · obtain ⟨stop, hstop, h⟩ := bind_eq_some_iff.mp h
      split_ifs at h with hlt
      · have hbound : stop < 2 ^ 32 := Profile.lt_of_checked hstop
        have hhi : inode.image.get (Ext4Inode.extentOffset i + 6) 2 < 2 ^ 16 := get_lt ..
        have hlo : inode.image.get (Ext4Inode.extentOffset i + 8) 4 < 2 ^ 32 := get_lt ..
        simp only [Option.some.injEq, Ext4Inode.eeStart] at h
        exact ⟨by omega, by omega⟩
      · exact ih h
    · exact ih h

theorem physicalBlock_lt (h : inode.physicalBlock p l = some (some b)) :
    l < 2 ^ 32 ∧ b < 2 ^ 50 := by
  unfold Ext4Inode.physicalBlock at h
  split_ifs at h with hmagic hdepth
  · cases h
  · exact extentSearch_lt h
  · cases h

theorem logicalToPhysicalSector_eq {v : Ext4Volume} {bs : ℕ} (hl : Layout p v bs)
    (h : inode.physicalBlock p l = some (some b)) :
    v.logicalToPhysicalSector p inode l = some (some (sectorOf v bs b)) := by
  rw [Ext4Volume.logicalToPhysicalSector, hl.blockSize_eq, bind_some, h, bind_some]
  dsimp only
  rw [hl.blockSector_eq (physicalBlock_lt h).2, map_some]

end

/-! ### Reading -/

/-- The bytes of a file whose logical block `l` is the physical block `blk l`. -/
def fileByte (v : Ext4Volume) (bs : ℕ) (sectors : ℕ → Bytes) (blk : ℕ → ℕ) : Bytes := fun o =>
  sectors (sectorOf v bs (blk (o / bs)) + o % bs / 512) (o % 512)

section

variable {p : Profile} {v : Ext4Volume} {bs : ℕ} {d : BlockDevice}
  {E : FsError → BlockDevice → Prop} {F : BlockDevice → Prop} {sectors : ℕ → Bytes} {blk : ℕ → ℕ}

/-- The logical block is found at a physical one that lies on the device. -/
structure Located (p : Profile) (v : Ext4Volume) (bs : ℕ) (inode : Ext4Inode) (l b : ℕ) : Prop where
  lt : l < 2 ^ 32
  sector : v.logicalToPhysicalSector p inode l = some (some (sectorOf v bs b))
  fits : sectorOf v bs b + bs / 512 ≤ 2 ^ 64

theorem Located.of_physicalBlock {inode : Ext4Inode} {l b : ℕ} (hl : Layout p v bs)
    (h : inode.physicalBlock p l = some (some b)) : Located p v bs inode l b := by
  have hlt := physicalBlock_lt h
  have hfits := hl.sectorOf_lt hlt.2
  exact ⟨hlt.1, logicalToPhysicalSector_eq hl h, by omega⟩

theorem fileByte_slice (hdvd : 512 ∣ bs) {cur chunk : ℕ} (hchunk : chunk ≤ 512 - cur % 512) :
    (fileByte v bs sectors blk).slice cur chunk
      = (sectors (sectorOf v bs (blk (cur / bs)) + cur % bs / 512)).slice (cur % 512) chunk := by
  obtain ⟨c, rfl⟩ := hdvd
  apply slice_congr
  intro i h1 h2
  unfold fileByte
  have hsame : i / 512 = cur / 512 := by omega
  have hblock : i / (512 * c) = cur / (512 * c) := by
    rw [← Nat.div_div_eq_div_mul, ← Nat.div_div_eq_div_mul, hsame]
  have hsector : i % (512 * c) / 512 = cur % (512 * c) / 512 := by
    rw [Nat.mod_mul_right_div_self, Nat.mod_mul_right_div_self, hsame]
  have hoff : i % 512 = i + cur % 512 - cur := by omega
  rw [hblock, hsector, hoff]

theorem fileByte_eq_runBytes {o : ℕ} (ho : o < bs) :
    fileByte v bs sectors blk o = runBytes sectors (sectorOf v bs (blk 0)) o := by
  unfold fileByte runBytes
  rw [Nat.div_eq_of_lt ho, Nat.mod_eq_of_lt ho]

theorem sector_in_block_lt (hdvd : 512 ∣ bs) (hpos : 0 < bs) (cur : ℕ) :
    cur % bs / 512 < bs / 512 := by
  obtain ⟨c, rfl⟩ := hdvd
  rw [Nat.mod_mul_right_div_self, Nat.mul_div_cancel_left c (by decide)]
  exact Nat.mod_lt _ (by omega)

variable {node : Ext4Node}

theorem wp_readLoop (hdvd : 512 ∣ bs) (hpos : 0 < bs) (hv : node.volume = v)
    {stop : ℕ} (hmap : ∀ l, l * bs < stop → Located p v bs node.inode l (blk l)) :
    ∀ {fuel : ℕ} {copied : List Byte} {cur : ℕ} {d : BlockDevice}
      {Q : List Byte → BlockDevice → Prop}, d.Reliable → cur ≤ stop → stop - cur ≤ fuel →
      (∀ d', d'.Reliable → d'.sectors = d.sectors →
        Q (copied ++ (fileByte v bs d.sectors blk).slice cur (stop - cur)) d') →
      wp (node.readLoop p (fun _ => none) bs (copied.length + (stop - cur)) fuel copied cur) Q
        E F d := by
  intro fuel
  induction fuel with
  | zero =>
    intro copied cur d Q h _ hfuel hQ
    have hdone : stop - cur = 0 := by omega
    rw [hdone] at hQ ⊢
    exact (append_nil copied) ▸ hQ d h rfl
  | succ fuel ih =>
    intro copied cur d Q h hcur hfuel hQ
    rw [Ext4Node.readLoop]
    by_cases hmore : cur < stop
    · have hmapped := hmap (cur / bs) (lt_of_le_of_lt (Nat.div_mul_le_self cur bs) hmore)
      have hfits := hmapped.fits
      rw [if_pos (by omega)]
      dsimp only
      rw [Nat.mod_eq_of_lt hmapped.lt, hv, hmapped.sector, wp_bind, wp_ofOption_some]
      have hsec := sector_in_block_lt hdvd hpos cur
      dsimp only
      rw [Profile.add_eq_some (by omega), wp_bind, wp_ofOption_some, wp_bind, wp_attempt]
      refine wp_readBlock h fun d₁ h₁ hs₁ => ?_
      -- one chunk, then the rest
      generalize hchunk : min (512 - cur % 512) (copied.length + (stop - cur) - copied.length)
        = chunk
      have hpos : 0 < chunk ∧ chunk ≤ 512 - cur % 512 ∧ chunk ≤ stop - cur := by omega
      have hslice := @fileByte_slice v bs d.sectors blk hdvd cur chunk hpos.2.1
      dsimp only
      rw [← hslice]
      have hlen : (copied ++ (fileByte v bs d.sectors blk).slice cur chunk).length
          + (stop - (cur + chunk)) = copied.length + (stop - cur) := by
        rw [length_append, length_slice]
        omega
      rw [← hlen]
      refine ih h₁ (by omega) (by omega) fun d₂ h₂ hs₂ => ?_
      have hsplit : stop - cur = chunk + (stop - (cur + chunk)) := by omega
      have := hQ d₂ h₂ (hs₂.trans hs₁)
      rw [hsplit, slice_add, ← append_assoc] at this
      rw [hs₁]
      exact this
    · have hdone : stop - cur = 0 := by omega
      rw [hdone] at hQ ⊢
      rw [if_neg (by omega)]
      exact (append_nil copied) ▸ hQ d h rfl

variable {offset length : ℕ} {Q : List Byte → BlockDevice → Prop}

/-- **Reading a located range** gives its bytes, for every block size. -/
theorem wp_read_of_located (hbs : v.blockSize p = some bs) (hdvd : 512 ∣ bs)
    (hv : node.volume = v) (h : d.Reliable)
    (hpos : 0 < node.size → 0 < bs)
    (hmap : ∀ l, l * bs < node.size → Located p v bs node.inode l (blk l))
    (hQ : ∀ d', d'.Reliable → d'.sectors = d.sectors →
      Q ((fileByte v bs d.sectors blk).slice offset (min length (node.size - offset))) d') :
    wp (node.read p offset length) Q E F d := by
  unfold Ext4Node.read Ext4Node.readWith
  by_cases hempty : node.size ≤ offset ∨ length = 0
  · rw [if_pos hempty]
    have hzero : min length (node.size - offset) = 0 := by omega
    rw [hzero] at hQ
    exact hQ d h rfl
  · have hpos' := hpos (by omega)
    rw [if_neg hempty, hv, hbs, wp_bind, wp_ofOption_some]
    rw [if_neg (by omega), wp_bind, wp_ofOption_some]
    generalize hn : min length (node.size - offset) = n at hQ ⊢
    have hloop := @wp_readLoop p v bs E F blk node hdvd hpos' hv (offset + n)
      (fun l hl => hmap l (by omega)) n [] offset d Q h (by omega) (by omega)
    rw [Nat.add_sub_cancel_left, length_nil, Nat.zero_add] at hloop
    exact hloop fun d' h' hs' => hQ d' h' hs'

/-- Reading a mapped range of a volume with 2 or 4 KiB blocks. -/
theorem wp_read (hg : Geometry v bs) (hv : node.volume = v) (h : d.Reliable)
    (hmap : ∀ l, l * bs < node.size → node.inode.physicalBlock p l = some (some (blk l)))
    (hQ : ∀ d', d'.Reliable → d'.sectors = d.sectors →
      Q ((fileByte v bs d.sectors blk).slice offset (min length (node.size - offset))) d') :
    wp (node.read p offset length) Q E F d := by
  have hbs : 512 ∣ bs ∧ 0 < bs := by rcases hg.cases with rfl | rfl <;> decide
  exact wp_read_of_located hg.blockSize_eq hbs.1 hv h (fun _ => hbs.2)
    (fun l hl => .of_physicalBlock hg.layout (hmap l hl)) hQ

/-- The sectors of every block that an inode maps are the same on both devices. -/
def AgreeOn (p : Profile) (v : Ext4Volume) (bs : ℕ) (inode : Ext4Inode) (d e : BlockDevice) :
    Prop :=
  ∀ l b, inode.physicalBlock p l = some (some b) → ∀ s, InBlock v bs b s →
    e.sectors s = d.sectors s

theorem readLoop_agree (hg : Geometry v bs) (hv : node.volume = v)
    {bytesToRead : ℕ} {Q : List Byte → Prop} :
    ∀ {fuel : ℕ} {copied : List Byte} {cur : ℕ} {d e : BlockDevice}, d.Reliable → e.Reliable →
      AgreeOn p v bs node.inode d e →
      wp (node.readLoop p (fun _ => none) bs bytesToRead fuel copied cur) (fun b _ => Q b)
        (fun _ _ => False)
        (fun _ => False) d →
      wp (node.readLoop p (fun _ => none) bs bytesToRead fuel copied cur) (fun b _ => Q b)
        (fun _ _ => False)
        (fun _ => False) e := by
  intro fuel
  induction fuel with
  | zero => exact fun _ _ _ h => h
  | succ fuel ih =>
    intro copied cur d e hd he hagree h
    rw [Ext4Node.readLoop] at h ⊢
    by_cases hmore : copied.length < bytesToRead
    · rw [if_pos hmore] at h ⊢
      rw [wp_bind] at h ⊢
      rw [hv] at h ⊢
      cases hblock : node.inode.physicalBlock p (cur / bs % 2 ^ 32) with
      | none =>
        have hnone : v.logicalToPhysicalSector p node.inode (cur / bs % 2 ^ 32) = none := by
          rw [Ext4Volume.logicalToPhysicalSector, hg.blockSize_eq, hblock]
          rfl
        rw [hnone] at h ⊢
        exact h
      | some mapped =>
        cases mapped with
        | none =>
          have hnone : v.logicalToPhysicalSector p node.inode (cur / bs % 2 ^ 32) = some none := by
            rw [Ext4Volume.logicalToPhysicalSector, hg.blockSize_eq, hblock]
            rfl
          rw [hnone] at h ⊢
          exact h
        | some b =>
          have hlt := physicalBlock_lt hblock
          have hbase := hg.sectorOf_lt hlt.2
          have hsec : cur % bs / 512 < bs / 512 := by rcases hg.cases with rfl | rfl <;> omega
          have hin : InBlock v bs b (sectorOf v bs b + cur % bs / 512) :=
            ⟨Nat.le_add_right .., by omega⟩
          rw [logicalToPhysicalSector_eq hg.layout hblock, wp_ofOption_some] at h ⊢
          dsimp only at h ⊢
          rw [Profile.add_eq_some (by omega), wp_bind, wp_ofOption_some, wp_bind, wp_attempt]
            at h ⊢
          rw [wp_iff_of_ok (readBlock_eq hd)] at h
          rw [wp_iff_of_ok (readBlock_eq he)]
          rw [hagree _ b hblock _ hin]
          exact ih (d := d.record .read _) (e := e.record .read _) hd he hagree h
    · rw [if_neg hmore] at h ⊢
      exact h

/-- **`read` depends on the blocks of the file only.** -/
theorem read_agree (hg : Geometry v bs) (hv : node.volume = v)
    {d' e : BlockDevice} {bytes : List Byte} (hd : d.Reliable)
    (he : e.Reliable) (hagree : AgreeOn p v bs node.inode d e)
    (h : node.read p offset length d = .ok bytes d') :
    ∃ e', node.read p offset length e = .ok bytes e' := by
  have hwp : wp (node.read p offset length) (fun b _ => b = bytes) (fun _ _ => False)
    (fun _ => False) d := by
    rw [wp_iff_of_ok h]
  have hwp' : wp (node.read p offset length) (fun b _ => b = bytes) (fun _ _ => False)
    (fun _ => False) e := by
    unfold Ext4Node.read Ext4Node.readWith at hwp ⊢
    by_cases hempty : node.size ≤ offset ∨ length = 0
    · rw [if_pos hempty] at hwp ⊢
      exact hwp
    · rw [if_neg hempty, wp_bind, hv, hg.blockSize_eq, wp_ofOption_some, wp_bind] at hwp ⊢
      have hbs : bs ≠ 0 := by rcases hg.cases with rfl | rfl <;> decide
      rw [if_neg hbs, wp_ofOption_some] at hwp ⊢
      exact readLoop_agree hg hv hd he hagree hwp
  obtain ⟨b, e', hread, rfl⟩ := returns_of_wp hwp'
  exact ⟨e', hread⟩

end

/-! ### Directory records -/

/-- What a record of a directory says. -/
structure DirRecord where
  inode : ℕ
  name : List Byte
  deriving DecidableEq

/-- The length of the record at an offset. -/
def recLenAt (b : Bytes) (o : ℕ) : ℕ := b.get (o + 4) 2

/-- The length of its name. -/
def nameLenAt (b : Bytes) (o : ℕ) : ℕ := b.get (o + 6) 1

/-- The record at an offset. -/
def recordAt (b : Bytes) (o : ℕ) : DirRecord := ⟨b.get o 4, b.slice (o + 8) (nameLenAt b o)⟩

/-- The record has an aligned length that its header and name fit into. -/
def ValidRecord (b : Bytes) (o : ℕ) : Prop :=
  4 ∣ recLenAt b o ∧ align4 (8 + nameLenAt b o) ≤ recLenAt b o

/-- The bytes from an offset to a later one are a sequence of valid records. -/
inductive Tiled (b : Bytes) : ℕ → ℕ → List DirRecord → Prop
  | nil (o : ℕ) : Tiled b o o []
  | cons {o stop : ℕ} {rest : List DirRecord} (h : ValidRecord b o)
      (hrest : Tiled b (o + recLenAt b o) stop rest) : Tiled b o stop (recordAt b o :: rest)

theorem le_align4 (n : ℕ) : n ≤ align4 n := by
  unfold align4
  omega

theorem four_dvd_align4 (n : ℕ) : 4 ∣ align4 n := Nat.dvd_mul_left ..

section

variable {b b' : Bytes} {o stop : ℕ} {recs recs' : List DirRecord}

theorem ValidRecord.le (h : ValidRecord b o) : 8 + nameLenAt b o ≤ recLenAt b o :=
  (le_align4 _).trans h.2

theorem Tiled.le (h : Tiled b o stop recs) : o ≤ stop := by
  induction h with
  | nil => exact le_rfl
  | cons _ _ ih => omega

theorem Tiled.append {mid : ℕ} (h : Tiled b o mid recs) (h' : Tiled b mid stop recs') :
    Tiled b o stop (recs ++ recs') := by
  induction h with
  | nil => exact h'
  | cons hv _ ih => exact .cons hv (ih h')

/-- There is only one way to read a tiled range. -/
theorem Tiled.unique (h : Tiled b o stop recs) (h' : Tiled b o stop recs') : recs = recs' := by
  induction h generalizing recs' with
  | nil o =>
    cases h' with
    | nil => rfl
    | cons hvalid hrest =>
      have := hvalid.le
      have := hrest.le
      omega
  | @cons o stop rest hvalid hrest ih =>
    cases h' with
    | nil =>
      have := hvalid.le
      have := hrest.le
      omega
    | cons hvalid' hrest' => rw [ih hrest']

/-- A record does not depend on the bytes of its length field. -/
theorem recordAt_congr
    (h : ∀ i, o ≤ i → i < o + 4 ∨ o + 6 ≤ i → i < o + 8 + nameLenAt b o → b' i = b i) :
    nameLenAt b' o = nameLenAt b o ∧ recordAt b' o = recordAt b o := by
  have hname : nameLenAt b' o = nameLenAt b o :=
    get_congr fun i h1 h2 => h i (by omega) (by omega) (by omega)
  have hinode : b'.get o 4 = b.get o 4 :=
    get_congr fun i h1 h2 => h i (by omega) (by omega) (by omega)
  have hbytes : b'.slice (o + 8) (nameLenAt b o) = b.slice (o + 8) (nameLenAt b o) := by
    apply slice_congr
    intro i h1 h2
    rw [Nat.add_sub_cancel]
    exact h i (by omega) (by omega) (by omega)
  exact ⟨hname, by rw [recordAt, recordAt, hname, hinode, hbytes]⟩

/-- The records of a stretch depend on its bytes only. -/
theorem Tiled.congr (h : Tiled b o stop recs) :
    (∀ i, o ≤ i → i < stop → b' i = b i) → Tiled b' o stop recs := by
  induction h with
  | nil => exact fun _ => .nil _
  | @cons o stop rest hv hrest ih =>
    intro hsame
    have hle := hv.le
    have hstop := hrest.le
    have hrec : recLenAt b' o = recLenAt b o :=
      get_congr fun i h1 h2 => hsame i (by omega) (by omega)
    obtain ⟨hname, hrecord⟩ := recordAt_congr fun i h1 _ h2 => hsame i h1 (by omega)
    rw [← hrecord]
    refine .cons ⟨hrec ▸ hv.1, hrec ▸ hname ▸ hv.2⟩ ?_
    rw [hrec]
    exact ih fun i h1 h2 => hsame i (by omega) h2

end

/-! ### Looking a name up -/

/-- The first live record with the name and a valid inode number. -/
def resolve (v : Ext4Volume) (bs : ℕ) (sectors : ℕ → Bytes) (name : String) :
    List DirRecord → Option Ext4Node
  | [] => none
  | r :: rest =>
    if r.inode ≠ 0 ∧ r.name = nameBytes name ∧ ValidInode v r.inode then
      some (.ofInode v r.inode (inodeAt v bs sectors r.inode))
    else resolve v bs sectors name rest

section

variable {v : Ext4Volume} {bs : ℕ} {S : ℕ → Bytes} {name : String} {recs recs' : List DirRecord}

theorem resolve_append :
    resolve v bs S name (recs ++ recs')
      = (resolve v bs S name recs).or (resolve v bs S name recs') := by
  induction recs with
  | nil => rfl
  | cons r recs ih =>
    rw [cons_append, resolve, resolve]
    split_ifs
    · rfl
    · exact ih

theorem resolve_eq_none (h : ∀ r ∈ recs, r.inode ≠ 0 → r.name ≠ nameBytes name) :
    resolve v bs S name recs = none := by
  induction recs with
  | nil => rfl
  | cons r recs ih =>
    rw [resolve, if_neg fun hr => h r mem_cons_self hr.1 hr.2.1]
    exact ih fun r' hr' => h r' (mem_cons_of_mem _ hr')

end

section

variable {p : Profile} {v : Ext4Volume} {bs : ℕ} {d : BlockDevice}
  {E : FsError → BlockDevice → Prop} {F : BlockDevice → Prop}

variable {node : Ext4Node} {name : String} {recs : List DirRecord} {buffer : Bytes}

theorem lookupLoop_succ {k fuel o : ℕ} :
    node.lookupLoop p name buffer k (fuel + 1) o =
      if o < k then
        if node.size < o + 8 then Program.ofOption none
        else if recLenAt buffer o = 0 then pure none
        else if (recordAt buffer o).inode ≠ 0 then
          if k < o + 8 + nameLenAt buffer o then pure none
          else if (recordAt buffer o).name = nameBytes name then do
            match ← (node.volume.readInode p (recordAt buffer o).inode).attempt with
            | .ok childInode =>
              pure (some (.ofInode node.volume (recordAt buffer o).inode childInode))
            | .error (_ : FsError) =>
              node.lookupLoop p name buffer k fuel (o + recLenAt buffer o)
          else node.lookupLoop p name buffer k fuel (o + recLenAt buffer o)
        else node.lookupLoop p name buffer k fuel (o + recLenAt buffer o)
      else pure none := rfl

theorem wp_lookupLoop (hl : Layout p v bs) (hipg : 0 < v.superBlock.sInodesPerGroup)
    (hv : node.volume = v) {o : ℕ}
    (ht : Tiled buffer o node.size recs) :
    ∀ {fuel : ℕ} {d : BlockDevice} {Q : Option Ext4Node → BlockDevice → Prop}, d.Reliable →
      node.size - o ≤ fuel →
      (∀ d', d'.Reliable → d'.sectors = d.sectors → Q (resolve v bs d.sectors name recs) d') →
      wp (node.lookupLoop p name buffer node.size fuel o) Q E F d := by
  generalize hstop : node.size = stop at ht
  induction ht with
  | nil o =>
    intro fuel d Q h _ hQ
    cases fuel with
    | zero => exact hQ d h rfl
    | succ fuel =>
      rw [Ext4Node.lookupLoop, if_neg (by omega)]
      exact hQ d h rfl
  | @cons o stop rest hvalid hrest ih =>
    intro fuel d Q h hfuel hQ
    have hle := hvalid.le
    have hend := hrest.le
    cases fuel with
    | zero => omega
    | succ fuel =>
      have hnext : ∀ {d₁ : BlockDevice}, d₁.Reliable → d₁.sectors = d.sectors →
          resolve v bs d.sectors name (recordAt buffer o :: rest)
            = resolve v bs d.sectors name rest →
          wp (node.lookupLoop p name buffer stop fuel (o + recLenAt buffer o)) Q E F d₁ := by
        intro d₁ h₁ hs₁ hskip
        refine ih hstop h₁ (by omega) fun d₂ h₂ hs₂ => ?_
        rw [hs₁, ← hskip]
        exact hQ d₂ h₂ (hs₂.trans hs₁)
      rw [lookupLoop_succ, if_pos (by omega), if_neg (by omega), if_neg (by omega)]
      by_cases hlive : (recordAt buffer o).inode ≠ 0
      · rw [if_pos hlive, if_neg (by omega)]
        by_cases hname : (recordAt buffer o).name = nameBytes name
        · rw [if_pos hname, wp_bind, wp_attempt, hv]
          refine wp_readInode hl h hipg (fun hvalid' d₁ h₁ hs₁ => ?_) fun hinvalid => ?_
          · have hfound : resolve v bs d.sectors name (recordAt buffer o :: rest)
                = some (.ofInode v (recordAt buffer o).inode
                  (inodeAt v bs d.sectors (recordAt buffer o).inode)) := by
              rw [resolve, if_pos ⟨hlive, hname, hvalid'⟩]
            rw [hfound] at hQ
            exact hQ d₁ h₁ hs₁
          · refine hnext h rfl ?_
            rw [resolve, if_neg fun hall => hinvalid hall.2.2]
        · rw [if_neg hname]
          refine hnext h rfl ?_
          rw [resolve, if_neg fun hall => hname hall.2.1]
      · rw [if_neg hlive]
        refine hnext h rfl ?_
        rw [resolve, if_neg fun hall => hlive hall.1]

/-- **`lookup` in a tiled directory** finds the first live record with the name. -/
theorem wp_lookup (hl : Layout p v bs) (hipg : 0 < v.superBlock.sInodesPerGroup)
    (hv : node.volume = v) (hdir : node.isDirectory = true) (hsize : 0 < node.size)
    {blk : ℕ → ℕ} (hmap : ∀ l, l * bs < node.size → Located p v bs node.inode l (blk l))
    (ht : Tiled (fileByte v bs d.sectors blk) 0 node.size recs)
    {Q : Option Ext4Node → BlockDevice → Prop} (h : d.Reliable)
    (hQ : ∀ d', d'.Reliable → d'.sectors = d.sectors → Q (resolve v bs d.sectors name recs) d') :
    wp (node.lookup p name) Q E F d := by
  unfold Ext4Node.lookup
  rw [hdir, if_neg (by decide), wp_bind]
  refine wp_read_of_located hl.blockSize_eq hl.dvd hv h (fun _ => hl.pos) hmap
    fun d₁ h₁ hs₁ => ?_
  have hlen : ((fileByte v bs d.sectors blk).slice 0 (min node.size (node.size - 0))).length
      = node.size := by
    rw [length_slice]
    omega
  rw [if_neg (by omega), hlen]
  have ht' : Tiled (Bytes.splice (fun _ => 0) 0
      ((fileByte v bs d.sectors blk).slice 0 (min node.size (node.size - 0)))) 0 node.size recs :=
    ht.congr fun i _ hi => splice_slice_of_lt (by omega)
  refine wp_lookupLoop hl hipg hv ht' h₁ (by omega) fun d₂ h₂ hs₂ => ?_
  rw [hs₁]
  exact hQ d₂ h₂ (hs₂.trans hs₁)

end

end NwinOs.Fs.Ext4
