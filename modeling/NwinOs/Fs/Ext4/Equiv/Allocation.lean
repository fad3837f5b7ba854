import NwinOs.Fs.Ext4.Equiv.Volume

/-!
# Allocation of inodes and blocks

`Allocates` says what one call of an allocator does on a device whose accesses may fail: it sets the
lowest clear bit of its bitmap sector and nothing else, or leaves the disk as it was.

A sequence of calls keeps the three sectors that the allocators use apart (`BitmapLayout`), so the
statement holds for every call of a run, and no number is handed out twice.
-/

namespace NwinOs.Fs.Ext4

open Effect Function List Ext4Volume

/-! ### One call -/

/-- The disk differs in one bit of one sector, which is set. -/
structure SetsBit (before after : ℕ → Bytes) (sector n : ℕ) : Prop where
  other : ∀ s, s ≠ sector → after s = before s
  bits : ∀ o j, j < 8 →
    Bits.testBit (after sector o) j = (Bits.testBit (before sector o) j || decide (o * 8 + j = n))

variable {sectors : ℕ → Bytes}

theorem setsBit_storeSector {sector i j : ℕ} (hi : i < 512) (hj : j < 8) :
    SetsBit sectors (storeSector sectors sector
      (update (sectors sector) i (Bits.setBit (sectors sector i) j))) sector (i * 8 + j) where
  other _ h := storeSector_of_ne h
  bits o k hk := by
    rw [storeSector_self]
    by_cases ho : o = i
    · subst ho
      rw [if_pos hi, update_self, Bits.testBit_setBit hk]
      simp [eq_comm]
    · have hne : o * 8 + k ≠ i * 8 + j := by omega
      rw [update_of_ne ho, ite_self]
      simp [hne]

/-- Bits that were set stay set. -/
theorem SetsBit.mono {before after : ℕ → Bytes} {sector n s k : ℕ}
    (h : SetsBit before after sector n) (hk : bitAt (before s) k = true) :
    bitAt (after s) k = true := by
  by_cases hs : s = sector
  · subst hs
    rw [bitAt, h.bits _ _ (Nat.mod_lt k (by decide)), ← bitAt, hk, Bool.true_or]
  · rw [h.other s hs]
    exact hk

theorem SetsBit.set {before after : ℕ → Bytes} {sector n : ℕ} (h : SetsBit before after sector n) :
    bitAt (after sector) n = true := by
  have hn : n / 8 * 8 + n % 8 = n := by omega
  rw [bitAt, h.bits _ _ (Nat.mod_lt n (by decide)), hn]
  simp

/-- The next two accesses succeed. -/
def ReadsSucceed (d : BlockDevice) : Prop :=
  d.fails d.accesses.length = false ∧ d.fails (d.accesses.length + 1) = false

section

variable {p : Profile} {v : Ext4Volume} {bs ds sector : ℕ} {d : BlockDevice}
  {bitmapBlock : Ext4BlockGroupDescriptor → ℕ} {exhausted : FsError}

/-- **One allocation**, from the sectors of the descriptor and of the bitmap. -/
theorem wp_allocateBit_of_fails (hbs : v.blockSize p = some bs)
    (hds : v.blockSector p bs (bgdBlock bs) = some ds)
    (hsector : v.blockSector p bs (bitmapBlock (.ofBytes (d.sectors ds) 0)) = some sector)
    (hread : exhausted ≠ .blockRead) (hwrite : exhausted ≠ .blockWrite) :
    wp (v.allocateBit p bitmapBlock exhausted)
      (fun n d' => LowestClear (d.sectors sector) n ∧ SetsBit d.sectors d'.sectors sector n)
      (fun e d' => d'.sectors = d.sectors ∧
        (e = exhausted ↔ ReadsSucceed d ∧ ∀ k < 4096, bitAt (d.sectors sector) k = true))
      (fun _ => False) d := by
  rw [allocateBit, hbs, wp_bind, wp_ofOption_some, wp_bind, readDescriptor,
    hds, wp_bind, wp_ofOption_some, wp_bind, wp_readBlock_iff]
  -- the descriptor is read
  by_cases hfail : d.fails d.accesses.length = true
  · rw [if_pos hfail]
    refine ⟨rfl, iff_of_false hread.symm fun h => ?_⟩
    rw [h.1.1] at hfail
    cases hfail
  rw [if_neg hfail, wp_pure]
  change wp (Program.ofOption (v.blockSector p bs (bitmapBlock (.ofBytes (d.sectors ds) 0))) >>= _)
    _ _ _ _
  rw [hsector, wp_bind, wp_ofOption_some, wp_bind, wp_readBlock_iff]
  simp only [record_fails, record_accesses_length, record_sectors]
  -- the bitmap is read
  by_cases hfail' : d.fails (d.accesses.length + 1) = true
  · rw [if_pos hfail']
    refine ⟨trivial, iff_of_false hread.symm fun h => ?_⟩
    rw [h.1.2] at hfail'
    cases hfail'
  rw [if_neg hfail']
  have hreads : ReadsSucceed d := ⟨by simpa using hfail, by simpa using hfail'⟩
  cases hfree : firstFreeBit (d.sectors sector) with
  | none =>
    have hfull := firstFreeBit_eq_none_iff.mp hfree
    exact ⟨rfl, iff_of_true rfl ⟨hreads, hfull⟩⟩
  | some ij =>
    obtain ⟨hi, hj, hlow⟩ := firstFreeBit_eq_some hfree
    rw [wp_bind, wp_writeBlock_iff]
    split_ifs
    · refine ⟨rfl, iff_of_false hwrite.symm fun h => ?_⟩
      have hclear := hlow.clear
      rw [h.2 _ hlow.lt] at hclear
      cases hclear
    · exact ⟨hlow, setsBit_storeSector hi hj⟩

end

/-! ### The two allocators -/

/-- The allocator that is called. -/
inductive Allocator
  | inode
  | block
  deriving DecidableEq, Repr

namespace Allocator

/-- The function of the volume. -/
def exec (p : Profile) (v : Ext4Volume) : Allocator → FsProgram ℕ
  | inode => v.allocateInode p
  | block => v.allocateBlock p

/-- The number of bit 0. -/
def first : Allocator → ℕ
  | inode => 1
  | block => 0

/-- The error when nothing is free. -/
def exhausted : Allocator → FsError
  | inode => .outOfInodes
  | block => .outOfBlocks

/-- The block of the bitmap. -/
def bitmapBlock : Allocator → Ext4BlockGroupDescriptor → ℕ
  | inode => (·.bgInodeBitmapLo)
  | block => (·.bgBlockBitmapLo)

theorem exec_eq (p : Profile) (v : Ext4Volume) (a : Allocator) :
    a.exec p v = (do
      let bit ← v.allocateBit p a.bitmapBlock a.exhausted
      pure (bit + a.first)) := by
  cases a with
  | inode => rfl
  | block =>
    funext d
    change v.allocateBit p block.bitmapBlock .outOfBlocks d
      = Program.bind (v.allocateBit p block.bitmapBlock .outOfBlocks) (fun bit => pure (bit + 0)) d
    unfold Program.bind
    cases v.allocateBit p block.bitmapBlock .outOfBlocks d <;> rfl

end Allocator

/-- What a call of an allocator does: its outcome, on a device and for a bitmap in the given
sector. -/
structure Allocates (a : Allocator) (sector : ℕ) (d : BlockDevice)
    (outcome : Outcome BlockDevice FsError ℕ) : Prop where
  returns : outcome.faulted = false
  ok : ∀ n d', outcome = .ok n d' →
    ∃ bit, n = bit + a.first ∧ LowestClear (d.sectors sector) bit ∧
      SetsBit d.sectors d'.sectors sector bit
  err : ∀ e d', outcome = .err e d' → d'.sectors = d.sectors
  exhausted_iff : (∃ d', outcome = .err a.exhausted d') ↔
    ReadsSucceed d ∧ ∀ k < 4096, bitAt (d.sectors sector) k = true

/-- The sectors that the allocators use: the first of the descriptor table, and those of the two
bitmaps of group 0. -/
structure BitmapLayout (p : Profile) (v : Ext4Volume) (sectors : ℕ → Bytes) where
  blockSize : ℕ
  descriptor : ℕ
  bitmap : Allocator → ℕ
  blockSize_eq : v.blockSize p = some blockSize
  descriptor_eq : v.blockSector p blockSize (Ext4Volume.bgdBlock blockSize) = some descriptor
  bitmap_eq : ∀ a : Allocator,
    v.blockSector p blockSize (a.bitmapBlock (.ofBytes (sectors descriptor) 0)) = some (bitmap a)
  bitmaps_ne : bitmap .inode ≠ bitmap .block
  descriptor_ne : ∀ a, bitmap a ≠ descriptor

namespace BitmapLayout

variable {p : Profile} {v : Ext4Volume} {d : BlockDevice} {sectors sectors' : ℕ → Bytes}

/-- The layout depends on the descriptor sector only. -/
def congr (L : BitmapLayout p v sectors) (h : sectors' L.descriptor = sectors L.descriptor) :
    BitmapLayout p v sectors' :=
  { L with bitmap_eq := fun a => h ▸ L.bitmap_eq a }

/-- **What one call does**, whichever accesses fail. -/
theorem allocates (L : BitmapLayout p v d.sectors) (a : Allocator) :
    Allocates a (L.bitmap a) d (a.exec p v d) := by
  have hwp : wp (a.exec p v)
      (fun n d' => ∃ bit, n = bit + a.first ∧ LowestClear (d.sectors (L.bitmap a)) bit ∧
        SetsBit d.sectors d'.sectors (L.bitmap a) bit)
      (fun e d' => d'.sectors = d.sectors ∧
        (e = a.exhausted ↔
          ReadsSucceed d ∧ ∀ k < 4096, bitAt (d.sectors (L.bitmap a)) k = true))
      (fun _ => False) d := by
    rw [Allocator.exec_eq, wp_bind]
    refine wp_mono (wp_allocateBit_of_fails L.blockSize_eq L.descriptor_eq (L.bitmap_eq a) ?_ ?_)
      (fun n d' h => ⟨n, rfl, h⟩) (fun e d' h => h) fun d' h => h
    · cases a <;> decide
    · cases a <;> decide
  refine ⟨not_faulted_of_wp hwp, fun n d' h => wp_of_ok hwp h, ?_, ?_⟩
  · intro e d' h
    unfold wp at hwp
    rw [h] at hwp
    exact hwp.1
  · unfold wp at hwp
    constructor
    · rintro ⟨d', h⟩
      rw [h] at hwp
      exact hwp.2.mp rfl
    · intro hfull
      cases h : a.exec p v d with
      | ok n d' =>
        rw [h] at hwp
        obtain ⟨bit, _, hlow, _⟩ := hwp
        have hclear := hlow.clear
        rw [hfull.2 bit hlow.lt] at hclear
        cases hclear
      | err e d' =>
        rw [h] at hwp
        exact ⟨d', by rw [hwp.2.mpr hfull]⟩
      | fault d' =>
        rw [h] at hwp
        exact hwp.elim

end BitmapLayout

/-! ### Sequences of calls -/

/-- The numbers that an allocator returned. -/
def returned (a : Allocator) (cs : List (Call Allocator BlockDevice FsError ℕ)) : List ℕ :=
  cs.filterMap fun c => if c.op = a then c.outcome.value? else none

section

variable {p : Profile} {v : Ext4Volume} {a : Allocator} {ops : List Allocator} {d d' : BlockDevice}
  {sector n : ℕ} {outcome : Outcome BlockDevice FsError ℕ}

/-- Only the sector of the bitmap changes. -/
theorem Allocates.other (h : Allocates a sector d outcome) {s : ℕ} (hs : s ≠ sector) :
    outcome.state.sectors s = d.sectors s := by
  cases outcome with
  | ok n d' =>
    obtain ⟨bit, _, _, hset⟩ := h.ok n d' rfl
    exact hset.other s hs
  | err e d' => exact congrFun (h.err e d' rfl) s
  | fault d' => exact absurd h.returns (by simp [Outcome.faulted])

theorem Allocates.clear_before (h : Allocates a sector d outcome) {s k : ℕ}
    (hk : bitAt (outcome.state.sectors s) k = false) : bitAt (d.sectors s) k = false := by
  cases outcome with
  | ok n d' =>
    obtain ⟨bit, _, _, hset⟩ := h.ok n d' rfl
    by_contra hset'
    have hafter := hset.mono (Bool.eq_true_of_not_eq_false hset')
    rw [Outcome.state, hafter] at hk
    cases hk
  | err e d' =>
    rw [← h.err e d' rfl]
    exact hk
  | fault d' => exact absurd h.returns (by simp [Outcome.faulted])

section

variable (L : BitmapLayout p v d.sectors)
include L

/-- The layout after a call. -/
def BitmapLayout.next (a : Allocator) : BitmapLayout p v (a.exec p v d).state.sectors :=
  L.congr ((L.allocates a).other (L.descriptor_ne a).symm)

theorem BitmapLayout.calls_cons (a : Allocator) :
    calls (Allocator.exec p v) (a :: ops) d
      = ⟨a, d, a.exec p v d⟩ :: calls (Allocator.exec p v) ops (a.exec p v d).state :=
  Effect.calls_cons (L.allocates a).returns

theorem BitmapLayout.allocates_of_mem_calls
    {c : Call Allocator BlockDevice FsError ℕ} (hc : c ∈ calls (Allocator.exec p v) ops d) :
    Allocates c.op (L.bitmap c.op) c.start c.outcome := by
  induction ops generalizing d with
  | nil => cases hc
  | cons a ops ih =>
    rw [L.calls_cons a] at hc
    rcases mem_cons.mp hc with rfl | hc
    · exact L.allocates a
    · exact ih (L.next a) hc

end

variable {cs : List (Call Allocator BlockDevice FsError ℕ)}

theorem returned_cons_of_ok : returned a (⟨a, d, .ok n d'⟩ :: cs) = n :: returned a cs :=
  filterMap_cons_some (if_pos rfl)

theorem returned_cons_of_not {b : Allocator}
    (h : b = a → outcome.value? = none) : returned a (⟨b, d, outcome⟩ :: cs) = returned a cs := by
  apply filterMap_cons_none
  split_ifs with hb
  · exact h hb
  · rfl

section

variable (L : BitmapLayout p v d.sectors)
include L

/-- The first call of a run returns nothing of its allocator's, or a number whose bit was clear and
is set. -/
theorem BitmapLayout.returned_calls_cons (b : Allocator) :
    returned a (calls (Allocator.exec p v) (b :: ops) d)
        = returned a (calls (Allocator.exec p v) ops (b.exec p v d).state) ∨
      ∃ bit, bitAt (d.sectors (L.bitmap a)) bit = false ∧
        bitAt ((b.exec p v d).state.sectors (L.bitmap a)) bit = true ∧
        returned a (calls (Allocator.exec p v) (b :: ops) d)
          = (bit + a.first) :: returned a
            (calls (Allocator.exec p v) ops (b.exec p v d).state) := by
  rw [L.calls_cons b]
  by_cases hret : b = a → (b.exec p v d).value? = none
  · exact .inl (returned_cons_of_not hret)
  · push Not at hret
    obtain ⟨rfl, hret⟩ := hret
    obtain ⟨m, hm⟩ := Option.ne_none_iff_exists'.mp hret
    obtain ⟨d', hok⟩ := ok_of_value? hm
    obtain ⟨bit, rfl, hlow, hset⟩ := (L.allocates b).ok m d' hok
    refine .inr ⟨bit, hlow.clear, ?_, ?_⟩
    · rw [hok]
      exact hset.set
    · rw [hok, returned_cons_of_ok]

theorem BitmapLayout.clear_of_mem_returned
    (hn : n ∈ returned a (calls (Allocator.exec p v) ops d)) :
    ∃ bit, n = bit + a.first ∧ bitAt (d.sectors (L.bitmap a)) bit = false := by
  induction ops generalizing d with
  | nil => cases hn
  | cons b ops ih =>
    have hlater : n ∈ returned a (calls (Allocator.exec p v) ops (b.exec p v d).state) →
        ∃ bit, n = bit + a.first ∧ bitAt (d.sectors (L.bitmap a)) bit = false := by
      intro hn
      obtain ⟨bit, rfl, hbit⟩ := ih (L.next b) hn
      exact ⟨bit, rfl, (L.allocates b).clear_before hbit⟩
    rcases L.returned_calls_cons b with hnone | ⟨bit, hclear, -, hsome⟩
    · exact hlater (hnone ▸ hn)
    · rw [hsome] at hn
      rcases mem_cons.mp hn with rfl | hn
      · exact ⟨bit, rfl, hclear⟩
      · exact hlater hn

/-- No number is returned twice: what was returned is marked, and later calls return what is not. -/
theorem BitmapLayout.nodup_returned : (returned a (calls (Allocator.exec p v) ops d)).Nodup := by
  induction ops generalizing d with
  | nil => exact nodup_nil
  | cons b ops ih =>
    have hrest := ih (L.next b)
    rcases L.returned_calls_cons b with hnone | ⟨bit, -, hset, hsome⟩
    · rw [hnone]
      exact hrest
    · rw [hsome, nodup_cons]
      refine ⟨fun hagain => ?_, hrest⟩
      obtain ⟨bit', heq, hclear⟩ := (L.next b).clear_of_mem_returned hagain
      obtain rfl : bit = bit' := by omega
      have hsame : bitAt ((b.exec p v d).state.sectors (L.bitmap a)) bit = false := hclear
      rw [hset] at hsame
      cases hsame

end

end

/-- **Allocation never repeats.**  In every sequence of calls, whichever accesses fail, each call
does what `Allocates` says with the bitmap sector of its allocator, and neither allocator returns a
number twice. -/
theorem allocation_never_repeats (p : Profile) (v : Ext4Volume) (d : BlockDevice)
    (L : BitmapLayout p v d.sectors) (ops : List Allocator) :
    (∀ c ∈ calls (Allocator.exec p v) ops d, Allocates c.op (L.bitmap c.op) c.start c.outcome) ∧
    ∀ a, (returned a (calls (Allocator.exec p v) ops d)).Nodup :=
  ⟨fun _ hc => L.allocates_of_mem_calls hc, fun _ => L.nodup_returned⟩

/-! ### A sample disk -/

/-- A volume of 2 KiB blocks with the descriptor in block 1 and the bitmaps in blocks 2 and 3. -/
def bitmapVolume : Ext4Volume := ⟨2048, ⟨16, 1, 16, 0xEF53, sixteen_lt, sixteen_lt⟩⟩

/-- The first eleven inodes and the first eight blocks are in use; the sixth access fails. -/
def bitmapDisk : BlockDevice where
  sectors s :=
    if s = 2052 then Bytes.putAll (fun _ => 0) [(0, 4, 2), (4, 4, 3), (8, 4, 4)]
    else if s = 2056 then fun i => if i = 0 then 0xFF else 0
    else if s = 2060 then fun i => if i = 0 then 0xFF else if i = 1 then 0x07 else 0
    else fun _ => 0
  accesses := []
  fails n := n = 5

/-- Its descriptor and its two bitmaps. -/
def bitmapDiskLayout : BitmapLayout .dev bitmapVolume bitmapDisk.sectors where
  blockSize := 2048
  descriptor := 2052
  bitmap a := if a = .inode then 2060 else 2056
  blockSize_eq := by decide
  descriptor_eq := by decide
  bitmap_eq a := by
    cases a
    · decide +kernel
    · decide +kernel
  bitmaps_ne := by decide
  descriptor_ne a := by cases a <;> decide

/-- The failed write of the second call leaves its bit clear, the third call hands it out. -/
theorem allocation_never_repeats_sample :
    returned .block (calls (Allocator.exec .dev bitmapVolume)
      [.inode, .block, .block, .inode, .block] bitmapDisk) = [8, 9] ∧
    (returned .block (calls (Allocator.exec .dev bitmapVolume)
      [.inode, .block, .block, .inode, .block] bitmapDisk)).Nodup :=
  ⟨by decide +kernel,
    (allocation_never_repeats .dev bitmapVolume bitmapDisk bitmapDiskLayout _).2 _⟩

/-! ### Which block a bit stands for -/

/-- The block of bit 0 of the block bitmap: the one behind the boot block where that fills a block
of its own, otherwise block 0. -/
def firstDataBlock (bs : ℕ) : ℕ := if bs = 1024 then 1 else 0

/-- The bitmap, from the given sector on, has the value for the block. -/
def BlockMarked (bs : ℕ) (sectors : ℕ → Bytes) (sector b : ℕ) (used : Bool) : Prop :=
  ∃ k < 8 * bs, b = firstDataBlock bs + k ∧ bitAt (runBytes sectors sector) k = used

/-- A sector of the block. -/
def SectorOfBlock (v : Ext4Volume) (bs b s : ℕ) : Prop :=
  ∃ i < bs / 512, s = (sectorOf v bs b + i) % 2 ^ 64

section

variable {p : Profile} {v : Ext4Volume} {bs ds sector b c s : ℕ} {d d' : BlockDevice}

theorem bitAt_runBytes {k : ℕ} (hk : k < 4096) :
    bitAt (runBytes sectors sector) k = bitAt (sectors sector) k := by
  have h1 : k / 8 / 512 = 0 := by omega
  have h2 : k / 8 % 512 = k / 8 := by omega
  rw [bitAt, bitAt, runBytes, h1, h2, Nat.add_zero]

/-- Different blocks of a group have no sector in common. -/
theorem SectorOfBlock.unique (hsize : bs = 1024 ∨ bs = 2048 ∨ bs = 4096) (hb : b < 2 ^ 32)
    (hc : c < 2 ^ 32) (h : SectorOfBlock v bs b s) (h' : SectorOfBlock v bs c s) : b = c := by
  obtain ⟨i, hi, rfl⟩ := h
  obtain ⟨j, hj, heq⟩ := h'
  unfold sectorOf at heq
  rcases hsize with rfl | rfl | rfl <;> omega

theorem writeDataToBlock_of_not_sectorOfBlock (hbs : v.blockSize p = some bs) {data : List Byte}
    (hs : ¬ SectorOfBlock v bs b s) :
    (v.writeDataToBlock p b data d).state.sectors s = d.sectors s := by
  have hleads : Leads (fun e : BlockDevice => e.sectors s = d.sectors s)
      (fun e => e.sectors s = d.sectors s) (v.writeDataToBlock p b data) fun _ => True := by
    rw [writeDataToBlock, hbs]
    apply Leads.ofOption_some_bind
    split_ifs
    · exact .fail
    · refine .seq (.value fun t ht => ht) fun start hstart => ?_
      refine leads_writeSectors_of_ne fun i _ hi hadd => hs ⟨i, by omega, ?_⟩
      rw [Profile.eq_of_add hadd, eq_of_blockSector hstart, Nat.mod_add_mod]
  exact hleads.state rfl

theorem allocateBlock_ok_of_fails (hbs : v.blockSize p = some bs)
    (hds : v.blockSector p bs (bgdBlock bs) = some ds)
    (hsector : v.blockSector p bs
      (Ext4BlockGroupDescriptor.ofBytes (d.sectors ds) 0).bgBlockBitmapLo = some sector)
    (h : v.allocateBlock p d = .ok b d') :
    LowestClear (d.sectors sector) b ∧ SetsBit d.sectors d'.sectors sector b := by
  exact (wp_of_ok (wp_allocateBit_of_fails hbs hds hsector (by decide) (by decide)) h :)

end

/-- **The block that `allocateBlock` returns is the one it marked, except for blocks of 1 KiB.**
There bit `n` stands for block `n + 1`, and the block that is returned is in use, or is the boot
block. -/
theorem allocate_block_free_iff {p : Profile} {v : Ext4Volume} {bs ds sector b : ℕ}
    {d d' : BlockDevice} (hbs : v.blockSize p = some bs)
    (hsize : bs = 1024 ∨ bs = 2048 ∨ bs = 4096)
    (hds : v.blockSector p bs (Ext4Volume.bgdBlock bs) = some ds)
    (hsector : v.blockSector p bs
      (Ext4BlockGroupDescriptor.ofBytes (d.sectors ds) 0).bgBlockBitmapLo = some sector)
    (h : v.allocateBlock p d = .ok b d') :
    (BlockMarked bs d.sectors sector b false ∧ BlockMarked bs d'.sectors sector b true ∧
      ∀ data c s, BlockMarked bs d.sectors sector c true → SectorOfBlock v bs c s →
        (v.writeDataToBlock p b data d').state.sectors s = d'.sectors s) ↔ bs ≠ 1024 := by
  obtain ⟨hlow, hset⟩ := allocateBlock_ok_of_fails hbs hds hsector h
  have hlt := hlow.lt
  constructor
  · rintro ⟨⟨k, _, hk, hclear⟩, _⟩ rfl
    -- the bit of the block is the one below the bit that was found
    have hfirst : firstDataBlock 1024 = 1 := rfl
    rw [hfirst] at hk
    rw [bitAt_runBytes (by omega), hlow.lower k (by omega)] at hclear
    cases hclear
  · intro hne
    have hfirst : firstDataBlock bs = 0 := if_neg hne
    have hbits : b < 8 * bs := by omega
    have hfree : BlockMarked bs d.sectors sector b false := by
      refine ⟨b, hbits, by omega, ?_⟩
      rw [bitAt_runBytes hlt]
      exact hlow.clear
    refine ⟨hfree, ⟨b, hbits, by omega, ?_⟩, fun data c s hused hs => ?_⟩
    · rw [bitAt_runBytes hlt]
      exact hset.set
    · apply writeDataToBlock_of_not_sectorOfBlock hbs
      intro hs'
      obtain ⟨k, hk, rfl, hbit⟩ := hused
      have hbk := hs.unique hsize (by omega) (by omega) hs'
      rw [hfirst, Nat.zero_add] at hbk
      rw [hbk, bitAt_runBytes hlt, hlow.clear] at hbit
      cases hbit

/-- On 2 KiB blocks: block 8 is free and is handed out. -/
theorem allocate_block_free_sample : ∃ d',
    bitmapVolume.allocateBlock .dev bitmapDisk = .ok 8 d' ∧
    BlockMarked 2048 bitmapDisk.sectors 2056 8 false ∧ BlockMarked 2048 d'.sectors 2056 8 true := by
  have hval : (bitmapVolume.allocateBlock .dev bitmapDisk).value? = some 8 := by decide +kernel
  obtain ⟨d', hok⟩ := ok_of_value? hval
  have hds : bitmapVolume.blockSector .dev 2048 (Ext4Volume.bgdBlock 2048) = some 2052 := by decide
  have hsector : bitmapVolume.blockSector .dev 2048
      (Ext4BlockGroupDescriptor.ofBytes (bitmapDisk.sectors 2052) 0).bgBlockBitmapLo
        = some 2056 := by
    decide +kernel
  obtain ⟨hfree, hused, _⟩ := (allocate_block_free_iff (by decide) (.inr (.inl rfl)) hds hsector
    hok).mpr (by decide)
  exact ⟨d', hok, hfree, hused⟩

/-- A volume of 1 KiB blocks whose blocks 1 to 8 are in use, the last of them with data. -/
def kibVolume : Ext4Volume := ⟨2048, ⟨16, 0, 16, 0xEF53, sixteen_lt, sixteen_lt⟩⟩

def kibDisk : BlockDevice where
  sectors s :=
    if s = 2052 then Bytes.putAll (fun _ => 0) [(0, 4, 3), (4, 4, 4), (8, 4, 5)]
    else if s = 2054 then fun i => if i = 0 then 0xFF else 0
    else if s = 2064 then fun _ => 0x41
    else fun _ => 0
  accesses := []
  fails _ := false

/-- There `allocateBlock` returns block 8, which is in use, and its data is overwritten. -/
theorem allocate_block_in_use : BlockMarked 1024 kibDisk.sectors 2054 8 true ∧
    SectorOfBlock kibVolume 1024 8 2064 ∧ kibDisk.sectors 2064 0 = 0x41 ∧ ∃ d',
      kibVolume.allocateBlock .dev kibDisk = .ok 8 d' ∧
      (kibVolume.writeDataToBlock .dev 8 (nameBytes "new") d').state.sectors 2064 0 = 0x6E := by
  refine ⟨⟨7, by decide, rfl, by decide⟩, ⟨0, by decide, rfl⟩, rfl, ?_⟩
  have hval : (kibVolume.allocateBlock .dev kibDisk).value? = some 8 := by decide +kernel
  have hwrite : (kibVolume.writeDataToBlock .dev 8 (nameBytes "new")
      (kibVolume.allocateBlock .dev kibDisk).state).state.sectors 2064 0 = 0x6E := by
    decide +kernel
  obtain ⟨d', hok⟩ := ok_of_value? hval
  rw [hok] at hwrite
  exact ⟨d', hok, hwrite⟩

end NwinOs.Fs.Ext4
