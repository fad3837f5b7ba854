import NwinOs.Mm.Equiv.FirstFit
import Mathlib.Order.CompletePartialOrder
import Mathlib.Order.Interval.Set.Disjoint

/-!
# What `init` leaves free

`init` makes four passes over the boot loader's memory map: it computes the size of the table
(`maxAddr_eq`), picks the entry for the metadata, frees the whole frames of the usable entries
(`foldlM_freeEntry`), and takes back the frames of the metadata and frame zero.  The roundings
differ, and `mem_metadataFrames` is where they meet: the frames that are taken back are exactly
those with a byte of the bitmap or of the count array.

The two arrays are reached through the direct map; here they are ranges of physical addresses.
-/

namespace NwinOs.Mm.BitmapFrameAllocator

open List

variable {p : Profile} {s s' : BitmapFrameAllocator} {entries : List MemmapEntry} {e : MemmapEntry}
  {f n a addr : ℕ}

/-! ### The memory map -/

/-- The highest address of the entries that the kernel can touch. -/
def highestAddress (entries : List MemmapEntry) : ℕ :=
  ((entries.filter fun e => isReachableKind e.kind).map fun e => e.base + e.length).foldr max 0

/-- The number of frames up to the highest address. -/
def tableFrames (entries : List MemmapEntry) : ℕ :=
  (highestAddress entries + (FRAME_SIZE - 1)) / FRAME_SIZE

/-- What `init` relies on: usable entries start at a frame, the sums of the code do not wrap, and
some usable entry is large enough for the metadata. -/
structure Admissible (entries : List MemmapEntry) : Prop where
  aligned : ∀ e ∈ entries, e.kind = .usable → FRAME_SIZE ∣ e.base
  no_wrap : ∀ e ∈ entries, isReachableKind e.kind = true → e.base + e.length + FRAME_SIZE < 2 ^ 64
  room : ∃ e ∈ entries, e.kind = .usable ∧ metadataTotalSize (tableFrames entries) ≤ e.length

theorem isReachableKind_usable (h : e.kind = .usable) : isReachableKind e.kind = true := by
  rw [h]
  rfl

theorem highestAddress_cons (es : List MemmapEntry) : highestAddress (e :: es) =
    if isReachableKind e.kind then max (e.base + e.length) (highestAddress es)
    else highestAddress es := by
  unfold highestAddress
  rw [filter_cons]
  split_ifs <;> rfl

theorem le_highestAddress (he : e ∈ entries) (hkind : isReachableKind e.kind = true) :
    e.base + e.length ≤ highestAddress entries := by
  induction entries with
  | nil => cases he
  | cons d es ih =>
    rw [highestAddress_cons]
    rcases mem_cons.mp he with rfl | hes
    · rw [if_pos hkind]
      exact Nat.le_max_left _ _
    · split_ifs
      · exact (ih hes).trans (Nat.le_max_right _ _)
      · exact ih hes

theorem highestAddress_lt {bound : ℕ} (hpos : 0 < bound)
    (h : ∀ e ∈ entries, isReachableKind e.kind = true → e.base + e.length < bound) :
    highestAddress entries < bound := by
  induction entries with
  | nil => exact hpos
  | cons d es ih =>
    have hes := ih fun e he => h e (mem_cons_of_mem _ he)
    rw [highestAddress_cons]
    split_ifs with hd
    · exact Nat.max_lt.mpr ⟨h d mem_cons_self hd, hes⟩
    · exact hes

/-- The first pass computes the highest address. -/
theorem maxAddr_eq (h : ∀ e ∈ entries, isReachableKind e.kind = true → e.base + e.length < 2 ^ 64) :
    ∀ acc, maxAddr p entries acc = some (max acc (highestAddress entries)) := by
  induction entries with
  | nil => intro acc; rw [maxAddr]; simp [highestAddress]
  | cons d es ih =>
    intro acc
    have hes := ih fun e he => h e (mem_cons_of_mem _ he)
    rw [maxAddr, highestAddress_cons]
    by_cases hd : isReachableKind d.kind = true
    · rw [if_pos hd, if_pos hd, Profile.add_eq_some (h d mem_cons_self hd), Option.bind_some,
        hes, ← max_assoc]
      congr 2
      split_ifs <;> omega
    · rw [if_neg hd, if_neg hd, hes]

/-! ### The usable entries -/

/-- The whole of frame `f` lies in the entry. -/
def InEntry (f : ℕ) (e : MemmapEntry) : Prop :=
  e.base ≤ f * FRAME_SIZE ∧ (f + 1) * FRAME_SIZE ≤ e.base + e.length

theorem testBit_foldl_forceFreeBit (l : List ℕ) : ∀ s : BitmapFrameAllocator,
    (l.foldl forceFreeBit s).totalFrames = s.totalFrames ∧
    ∀ f < s.totalFrames, (l.foldl forceFreeBit s).testBit f = (s.testBit f && !decide (f ∈ l)) := by
  induction l with
  | nil => intro s; simp
  | cons i l ih =>
    intro s
    obtain ⟨htotal, hbit⟩ := ih (s.forceFreeBit i)
    rw [totalFrames_forceFreeBit] at htotal hbit
    refine ⟨htotal, fun f hf => ?_⟩
    rw [foldl_cons, hbit f hf, testBit_forceFreeBit s hf]
    by_cases hi : i = f
    · simp [hi]
    · simp [hi, Ne.symm hi]

theorem freeEntry_eq (h : e.kind = .usable → e.base + e.length + FRAME_SIZE < 2 ^ 64) :
    ∃ s', freeEntry p s e = some s' ∧ s'.totalFrames = s.totalFrames ∧
      ∀ f < s.totalFrames, s'.testBit f = false ↔
        s.testBit f = false ∨ (e.kind = .usable ∧ InEntry f e) := by
  unfold freeEntry
  by_cases hu : e.kind = .usable
  · have hwrap := h hu
    have hpos : 0 < FRAME_SIZE := by decide
    have hstart : p.add 64 e.base FRAME_SIZE = some (e.base + FRAME_SIZE) :=
      Profile.add_eq_some (by omega)
    have hround : p.sub 64 (e.base + FRAME_SIZE) 1 = some (e.base + FRAME_SIZE - 1) :=
      Profile.sub_eq_some (by omega)
    have hend : p.add 64 e.base e.length = some (e.base + e.length) :=
      Profile.add_eq_some (by omega)
    simp only [if_pos hu, hstart, hround, hend, Option.bind_eq_bind, Option.bind_some]
    refine ⟨_, rfl, (testBit_foldl_forceFreeBit _ s).1, fun f hf => ?_⟩
    rw [(testBit_foldl_forceFreeBit _ s).2 f hf]
    have hin : ((e.base + FRAME_SIZE - 1) / FRAME_SIZE ≤ f ∧
        f < (e.base + FRAME_SIZE - 1) / FRAME_SIZE +
          ((e.base + e.length) / FRAME_SIZE - (e.base + FRAME_SIZE - 1) / FRAME_SIZE)) ↔
        InEntry f e := by
      unfold InEntry FRAME_SIZE
      omega
    simp only [mem_range'_1, hin, Bool.and_eq_false_iff, Bool.not_eq_false', decide_eq_true_eq,
      hu, true_and]
  · rw [if_neg hu]
    exact ⟨s, rfl, rfl, fun f _ => by simp [hu]⟩

/-- The third pass frees the whole frames of all usable entries. -/
theorem foldlM_freeEntry
    (h : ∀ e ∈ entries, e.kind = .usable → e.base + e.length + FRAME_SIZE < 2 ^ 64) :
    ∀ s : BitmapFrameAllocator, ∃ s', entries.foldlM (freeEntry p) s = some s' ∧
      s'.totalFrames = s.totalFrames ∧ ∀ f < s.totalFrames, s'.testBit f = false ↔
        s.testBit f = false ∨ ∃ e ∈ entries, e.kind = .usable ∧ InEntry f e := by
  induction entries with
  | nil => exact fun s => ⟨s, rfl, rfl, fun f _ => by simp⟩
  | cons d es ih =>
    intro s
    obtain ⟨t, ht, htotal, hbit⟩ := freeEntry_eq (p := p) (s := s) (h d mem_cons_self)
    obtain ⟨s', hs', htotal', hbit'⟩ := ih (fun e he => h e (mem_cons_of_mem _ he)) t
    rw [htotal] at htotal' hbit'
    refine ⟨s', ?_, htotal', fun f hf => ?_⟩
    · rw [foldlM_cons, ht, Option.bind_eq_bind, Option.bind_some, hs']
    · rw [hbit' f hf, hbit f hf, or_assoc, exists_mem_cons_iff]

/-! ### The metadata -/

/-- The addresses of the bitmap, in metadata at `addr` for `n` frames. -/
def bitmapBytes (addr n : ℕ) : Set ℕ := Set.Ico addr (addr + (n + 7) / 8)

/-- The addresses of the count array. -/
def refCountBytes (addr n : ℕ) : Set ℕ :=
  Set.Ico (addr + bitmapSizeAligned n) (addr + bitmapSizeAligned n + n * 2)

theorem disjoint_metadata (addr n : ℕ) : Disjoint (bitmapBytes addr n) (refCountBytes addr n) := by
  rw [bitmapBytes, refCountBytes, Set.Ico_disjoint_Ico]
  unfold bitmapSizeAligned
  omega

theorem mem_metadata_lt (h : a ∈ bitmapBytes addr n ∪ refCountBytes addr n) :
    addr ≤ a ∧ a < addr + metadataTotalSize n := by
  unfold metadataTotalSize
  rcases h with h | h
  · have := Set.mem_Ico.mp h
    omega
  · have := Set.mem_Ico.mp h
    omega

/-- The frames that are taken back are those with a byte of one of the arrays: the gap between the
two is less than eight bytes, so no frame lies in it. -/
theorem mem_metadataFrames (h : FRAME_SIZE ∣ addr) :
    f ∈ List.range' (addr / FRAME_SIZE) ((metadataTotalSize n + FRAME_SIZE - 1) / FRAME_SIZE) ↔
      ∃ a ∈ bitmapBytes addr n ∪ refCountBytes addr n, a / FRAME_SIZE = f := by
  rw [mem_range'_1]
  constructor
  · intro hf
    -- the first byte of the frame is in the bitmap, or behind the gap
    refine ⟨f * FRAME_SIZE, ?_, Nat.mul_div_cancel _ (by decide)⟩
    unfold bitmapBytes refCountBytes
    rw [Set.mem_union, Set.mem_Ico, Set.mem_Ico]
    unfold metadataTotalSize bitmapSizeAligned FRAME_SIZE at *
    omega
  · rintro ⟨a, ha, rfl⟩
    have := mem_metadata_lt ha
    unfold FRAME_SIZE at *
    omega

/-! ### The whole of `init` -/

/-- No count is above one. -/
def AtMostOne (s : BitmapFrameAllocator) : Prop := ∀ f, s.refCount f ≤ 1

theorem AtMostOne.forceSetBit (h : s.AtMostOne) (i : ℕ) : (s.forceSetBit i).AtMostOne := by
  intro f
  rw [refCount_forceSetBit]
  split_ifs
  · exact Nat.le_refl 1
  · exact h f

theorem AtMostOne.forceFreeBit (h : s.AtMostOne) (i : ℕ) : (s.forceFreeBit i).AtMostOne := by
  intro f
  rw [refCount_forceFreeBit]
  split_ifs
  · exact Nat.zero_le 1
  · exact h f

theorem atMostOne_init (h : init p entries = some s) : s.AtMostOne := by
  refine init_invariant (fun n f => ?_) (fun _ i hs => hs.forceSetBit i)
    (fun _ i hs => hs.forceFreeBit i) h
  unfold refCount
  split_ifs
  · simp [allBusy]
  · exact Nat.zero_le 1

theorem init_eq (h : Admissible entries) : ∃ s e, init p entries = some s ∧
    entries.find? (fun e => e.kind = .usable ∧ metadataTotalSize (tableFrames entries) ≤ e.length)
      = some e ∧ s.totalFrames = tableFrames entries ∧
    ∀ f, s.testBit f = false ↔ f ≠ 0 ∧ (∃ u ∈ entries, u.kind = .usable ∧ InEntry f u) ∧
      f ∉ List.range' (e.base / FRAME_SIZE)
        ((metadataTotalSize (tableFrames entries) + FRAME_SIZE - 1) / FRAME_SIZE) := by
  have hhighest : highestAddress entries < 2 ^ 64 - FRAME_SIZE := by
    refine highestAddress_lt (by decide) fun e he hkind => ?_
    have := h.no_wrap e he hkind
    omega
  have hmax : maxAddr p entries 0 = some (highestAddress entries) := by
    rw [maxAddr_eq fun e he hkind => ?_, Nat.zero_max]
    have := h.no_wrap e he hkind
    omega
  have hadd : p.add 64 (highestAddress entries) FRAME_SIZE
      = some (highestAddress entries + FRAME_SIZE) := Profile.add_eq_some (by omega)
  have hpos : 0 < FRAME_SIZE := by decide
  have hsub : p.sub 64 (highestAddress entries + FRAME_SIZE) 1
      = some (highestAddress entries + FRAME_SIZE - 1) := Profile.sub_eq_some (by omega)
  have hframes : (highestAddress entries + FRAME_SIZE - 1) / FRAME_SIZE = tableFrames entries := by
    rw [tableFrames, Nat.add_sub_assoc hpos]
  -- the entry for the metadata
  obtain ⟨e, hfind⟩ : ∃ e, entries.find? (fun e => e.kind = .usable ∧
      metadataTotalSize (tableFrames entries) ≤ e.length) = some e := by
    obtain ⟨e, he, hlarge⟩ := h.room
    exact Option.isSome_iff_exists.mp (find?_isSome.mpr ⟨e, he, decide_eq_true hlarge⟩)
  have hphys : metadataPhysAddr entries (metadataTotalSize (tableFrames entries))
    = some e.base := by
    rw [metadataPhysAddr, hfind, Option.map_some]
  obtain ⟨freed, hfreed, htotal, hbit⟩ := foldlM_freeEntry (p := p)
    (fun e he hu => h.no_wrap e he (isReachableKind_usable hu)) (allBusy (tableFrames entries))
  unfold init
  simp only [hmax, hadd, hsub, hframes, hphys, hfreed, Option.bind_eq_bind, Option.bind_some,
    Option.pure_def]
  refine ⟨_, e, rfl, hfind, ?_, fun f => ?_⟩
  · rw [totalFrames_forceSetBit, totalFrames_foldl_forceSetBit, htotal]
    rfl
  · rw [testBit_forceSetBit, testBit_foldl_forceSetBit]
    simp only [Bool.or_eq_false_iff, decide_eq_false_iff_not]
    by_cases hf : f < tableFrames entries
    · have hfree : freed.testBit f = false ↔ ∃ u ∈ entries, u.kind = .usable ∧ InEntry f u := by
        rw [hbit f hf, testBit_allBusy]
        simp
      rw [hfree]
      constructor
      · rintro ⟨⟨hin, hmeta⟩, hzero⟩
        exact ⟨Ne.symm hzero, hin, hmeta⟩
      · rintro ⟨hzero, hin, hmeta⟩
        exact ⟨⟨hin, hmeta⟩, Ne.symm hzero⟩
    · -- behind the table there is no usable memory
      have hbusy : freed.testBit f = true :=
        testBit_of_ge (by rw [htotal]; exact Nat.le_of_not_lt hf)
      have hnone : ¬ ∃ u ∈ entries, u.kind = .usable ∧ InEntry f u := by
        rintro ⟨u, hu, hkind, -, hend⟩
        have := le_highestAddress hu (isReachableKind_usable hkind)
        unfold tableFrames FRAME_SIZE at hf
        unfold FRAME_SIZE at hend
        omega
      simp [hbusy, hnone]

/-- The state after `init`, with the metadata in the entry `e`. -/
structure Initialised (entries : List MemmapEntry) (s : BitmapFrameAllocator) (e : MemmapEntry) :
    Prop where
  /-- The metadata is in the first usable entry that is large enough. -/
  chosen : entries.find? (fun e => e.kind = .usable ∧ metadataTotalSize s.totalFrames ≤ e.length)
    = some e
  /-- A frame is free iff it is not frame zero, lies in a usable entry and holds no metadata. -/
  free_iff : ∀ f, s.testBit f = false ↔ f ≠ 0 ∧ (∃ u ∈ entries, u.kind = .usable ∧ InEntry f u) ∧
    ¬ ∃ a ∈ bitmapBytes e.base s.totalFrames ∪ refCountBytes e.base s.totalFrames,
      a / FRAME_SIZE = f
  count : ∀ f < s.totalFrames, s.refCount f = if s.testBit f = false then 0 else 1
  disjoint : Disjoint (bitmapBytes e.base s.totalFrames) (refCountBytes e.base s.totalFrames)
  inside : bitmapBytes e.base s.totalFrames ∪ refCountBytes e.base s.totalFrames ⊆
    Set.Ico e.base (e.base + e.length)
  busy : ∀ a ∈ bitmapBytes e.base s.totalFrames ∪ refCountBytes e.base s.totalFrames,
    a / FRAME_SIZE < s.totalFrames ∧ s.testBit (a / FRAME_SIZE) = true

/-- **Allocator initialisation.**  From every admissible memory map, in either profile, `init` frees
exactly the whole frames of usable memory other than frame zero and those of its own metadata, with
counts to match, and the metadata lies in the entry chosen for it.  Overlaps between entries do not
matter. -/
theorem init_frees_usable_frames (h : Admissible entries) :
    ∃ s e, init p entries = some s ∧ Initialised entries s e := by
  obtain ⟨s, e, hinit, hfind, htotal, hfree⟩ := init_eq (p := p) h
  rw [← htotal] at hfind hfree
  have hmem := List.mem_of_find?_eq_some hfind
  have hchosen := List.find?_some hfind
  obtain ⟨husable, hlarge⟩ := of_decide_eq_true hchosen
  simp only [mem_metadataFrames (h.aligned e hmem husable)] at hfree
  have hcoherent := coherent_init hinit
  refine ⟨s, e, hinit, hfind, hfree, fun f hf => ?_, disjoint_metadata _ _, fun a ha => ?_,
    fun a ha => ⟨?_, ?_⟩⟩
  · have hone := atMostOne_init hinit f
    split_ifs with hbit
    · exact hcoherent.refCount_eq_zero hbit
    · rw [Bool.not_eq_false, hcoherent f hf] at hbit
      omega
  · have := mem_metadata_lt ha
    exact Set.mem_Ico.mpr (by omega)
  · have hlt := mem_metadata_lt ha
    have hle := le_highestAddress hmem (isReachableKind_usable husable)
    rw [htotal] at hlt hlarge ⊢
    unfold tableFrames FRAME_SIZE at *
    omega
  · by_contra hbit
    rw [Bool.not_eq_true, hfree] at hbit
    exact hbit.2.2 ⟨a, ha, rfl⟩

/-- A memory map with a reserved page, seven frames of usable memory, and the framebuffer behind it.
-/
theorem init_frees_usable_frames_seven : Admissible
      [⟨0x1000, 0x1000, .other⟩, ⟨0x2000, 0x7000, .usable⟩, ⟨0x10000, 0x2800, .framebuffer⟩] ∧
    ∃ s e, init .dev
        [⟨0x1000, 0x1000, .other⟩, ⟨0x2000, 0x7000, .usable⟩, ⟨0x10000, 0x2800, .framebuffer⟩]
          = some s ∧
      Initialised
        [⟨0x1000, 0x1000, .other⟩, ⟨0x2000, 0x7000, .usable⟩, ⟨0x10000, 0x2800, .framebuffer⟩] s
          e := by
  have hmap : Admissible
      [⟨0x1000, 0x1000, .other⟩, ⟨0x2000, 0x7000, .usable⟩, ⟨0x10000, 0x2800, .framebuffer⟩] :=
    ⟨by decide, by decide, by decide⟩
  exact ⟨hmap, init_frees_usable_frames hmap⟩

end NwinOs.Mm.BitmapFrameAllocator
