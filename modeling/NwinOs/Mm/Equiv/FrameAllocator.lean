import NwinOs.Mm.FrameAllocator
import NwinOs.Transition
import Mathlib.Data.List.TakeWhile

/-!
# Frame ownership

The two arrays of `BitmapFrameAllocator` are read through `testBit` and `refCount`; each routine
has one lemma saying what it does to either.  `Coherent` is the invariant: a frame's bit is set
iff its count is positive.  It holds after `init` (`coherent_init`) and every operation keeps it
(`coherent_step`).

The abstract view is a ledger: an `Event` says which frames an operation granted, shared or gave
back, and `refCount` is the balance of the events (`refCount_step`).  Whole runs follow from the
rules of `Transition`.
-/

namespace NwinOs.Mm.BitmapFrameAllocator

open Option

section

variable (s : BitmapFrameAllocator)

/-- The count of a frame, zero outside the table. -/
def refCount (frame : ℕ) : ℕ :=
  if h : frame < s.totalFrames then s.refCounts[frame].toNat else 0

theorem getRefCount_eq (a : ℕ) :
    s.getRefCount a =
      if a / FRAME_SIZE < s.totalFrames then s.refCount (a / FRAME_SIZE) else 1 := by
  unfold getRefCount refCount
  dsimp only
  split_ifs <;> rfl

/-! ### What the bit helpers do to the two arrays -/

@[simp] theorem totalFrames_forceSetBit (i : ℕ) :
    (s.forceSetBit i).totalFrames = s.totalFrames := by
  unfold forceSetBit; split_ifs <;> rfl

@[simp] theorem totalFrames_forceFreeBit (i : ℕ) :
    (s.forceFreeBit i).totalFrames = s.totalFrames := by
  unfold forceFreeBit; split_ifs <;> rfl

end

variable {s : BitmapFrameAllocator} {f : ℕ}

theorem testBit_of_ge (h : s.totalFrames ≤ f) : s.testBit f = true := by
  rw [testBit, dif_neg (by omega)]

theorem lt_of_testBit_eq_false (h : s.testBit f = false) : f < s.totalFrames := by
  by_contra hge
  rw [testBit_of_ge (Nat.le_of_not_lt hge)] at h
  exact Bool.noConfusion h

variable {i : ℕ}

variable (s) {g : Bool → Bool → Bool} {b : BitVec 8}

/-- A bit of the bitmap, also behind the last frame. -/
def bit (j : ℕ) : Bool :=
  if h : j / 8 < (s.totalFrames + 7) / 8 then Bits.testBit s.bitmap[j / 8] (j % 8) else false

theorem testBit_eq_bit {s : BitmapFrameAllocator} {f : ℕ} (hf : f < s.totalFrames) :
    s.testBit f = s.bit f := by
  rw [testBit, dif_pos hf, bit, dif_pos (by omega)]

theorem bit_set {i : ℕ} (hi : i / 8 < (s.totalFrames + 7) / 8)
    (b : BitVec 8) (r : Vector (BitVec 16) s.totalFrames) (n j : ℕ) :
    bit ⟨s.totalFrames, s.bitmap.set (i / 8) b hi, r, n⟩ j
      = if i / 8 = j / 8 then Bits.testBit b (j % 8) else s.bit j := by
  unfold bit
  by_cases hj : j / 8 < (s.totalFrames + 7) / 8
  · simp only [dif_pos hj, Vector.getElem_set]
    split_ifs <;> rfl
  · have hne : i / 8 ≠ j / 8 := by omega
    rw [dif_neg hj, if_neg hne, dif_neg hj]

theorem bit_update {i : ℕ} (hi : i / 8 < (s.totalFrames + 7) / 8) (hb : ∀ l, l < 8 →
      Bits.testBit b l = g (Bits.testBit s.bitmap[i / 8] l) (decide (i % 8 = l)))
    (hg : ∀ x, g x false = x) (r : Vector (BitVec 16) s.totalFrames) (n j : ℕ) :
    bit ⟨s.totalFrames, s.bitmap.set (i / 8) b hi, r, n⟩ j
      = g (s.bit j) (decide (i = j)) := by
  rw [bit_set s hi]
  by_cases hbyte : i / 8 = j / 8
  · have hsame : s.bit j = Bits.testBit s.bitmap[i / 8] (j % 8) := by
      rw [bit, dif_pos (by omega)]
      simp only [hbyte]
    have hiff : i % 8 = j % 8 ↔ i = j := by omega
    rw [if_pos hbyte, hb _ (Nat.mod_lt _ (by decide)), hsame, decide_eq_decide.mpr hiff]
  · have hne : i ≠ j := fun heq => hbyte (heq ▸ rfl)
    rw [if_neg hbyte, decide_eq_false hne, hg]

theorem testBit_update (hi : i < s.totalFrames) (hf : f < s.totalFrames) (hb : ∀ l, l < 8 →
      Bits.testBit b l = g (Bits.testBit s.bitmap[i / 8] l) (decide (i % 8 = l)))
    (hg : ∀ x, g x false = x) (r : Vector (BitVec 16) s.totalFrames) (n : ℕ) :
    testBit ⟨s.totalFrames, s.bitmap.set (i / 8) b (by omega), r, n⟩ f
      = g (s.testBit f) (decide (i = f)) := by
  rw [testBit_eq_bit (s := s) hf]
  exact (testBit_eq_bit (s := ⟨s.totalFrames, s.bitmap.set (i / 8) b (by omega), r, n⟩) hf).trans
    (bit_update s (by omega) hb hg r n f)

theorem refCount_set (hi : i < s.totalFrames) (c : BitVec 16)
    (b : Vector (BitVec 8) ((s.totalFrames + 7) / 8)) (n f : ℕ) :
    refCount ⟨s.totalFrames, b, s.refCounts.set i c hi, n⟩ f
      = if i = f then c.toNat else s.refCount f := by
  unfold refCount
  by_cases hf : f < s.totalFrames
  · rw [dif_pos hf, dif_pos hf, Vector.getElem_set]
    split_ifs <;> rfl
  · rw [dif_neg hf, dif_neg hf, if_neg (by omega)]

theorem testBit_set_clearBit (hi : i < s.totalFrames)
    (hf : f < s.totalFrames) (r : Vector (BitVec 16) s.totalFrames) (n : ℕ) :
    testBit ⟨s.totalFrames,
        s.bitmap.set (i / 8) (Bits.clearBit s.bitmap[i / 8] (i % 8)) (by omega), r, n⟩ f
      = (s.testBit f && !decide (i = f)) := by
  exact testBit_update s hi hf (g := fun x y => x && !y) (fun _ hl => Bits.testBit_clearBit hl)
    Bool.and_true _ _

theorem testBit_forceSetBit (i f : ℕ) :
    (s.forceSetBit i).testBit f = (s.testBit f || decide (i = f)) := by
  by_cases hf : f < s.totalFrames
  · unfold forceSetBit
    split_ifs with hi
    · exact testBit_update s hi hf (fun _ hl => Bits.testBit_setBit hl) Bool.or_false _ _
    · have : i ≠ f := by omega
      simp [this]
  · rw [testBit_of_ge (by simpa using hf), testBit_of_ge (by simpa using hf), Bool.true_or]

theorem testBit_forceFreeBit (hf : f < s.totalFrames) :
    (s.forceFreeBit i).testBit f = (s.testBit f && !decide (i = f)) := by
  unfold forceFreeBit
  split_ifs with hi
  · exact testBit_set_clearBit s hi hf _ _
  · have : i ≠ f := by omega
    simp [this]

theorem refCount_forceSetBit (i f : ℕ) :
    (s.forceSetBit i).refCount f = if i = f ∧ i < s.totalFrames then 1 else s.refCount f := by
  unfold forceSetBit
  by_cases hi : i < s.totalFrames
  · rw [dif_pos hi, refCount_set s hi]
    simp [hi]
  · rw [dif_neg hi, if_neg (fun h => hi h.2)]

theorem refCount_forceFreeBit (i f : ℕ) :
    (s.forceFreeBit i).refCount f = if i = f then 0 else s.refCount f := by
  unfold forceFreeBit
  by_cases hi : i < s.totalFrames
  · rw [dif_pos hi, refCount_set s hi]
    simp
  · split_ifs with h
    · rw [refCount, dif_neg (by omega)]
    · rfl

/-! ### The invariant -/

/-- A frame's bit is set iff its count is positive. -/
def Coherent : Prop :=
  ∀ f, f < s.totalFrames → (s.testBit f = true ↔ 0 < s.refCount f)

variable {s}

theorem Coherent.refCount_eq_zero (h : s.Coherent)
    (hf : s.testBit f = false) : s.refCount f = 0 := by
  have := h f (lt_of_testBit_eq_false hf)
  rw [hf] at this
  simpa using this

theorem Coherent.forceSetBit (h : s.Coherent) (i : ℕ) : (s.forceSetBit i).Coherent := by
  intro f hf
  rw [totalFrames_forceSetBit] at hf
  rw [testBit_forceSetBit, refCount_forceSetBit, Bool.or_eq_true, decide_eq_true_eq, h f hf]
  split_ifs with hi
  · simp [hi.1]
  · have : i ≠ f := fun he => hi ⟨he, he ▸ hf⟩
    simp [this]

theorem Coherent.forceFreeBit (h : s.Coherent) (i : ℕ) : (s.forceFreeBit i).Coherent := by
  intro f hf
  rw [totalFrames_forceFreeBit] at hf
  rw [testBit_forceFreeBit s hf, refCount_forceFreeBit, Bool.and_eq_true, h f hf]
  by_cases hi : i = f <;> simp [hi]

variable {P : BitmapFrameAllocator → Prop} {g : BitmapFrameAllocator → ℕ → BitmapFrameAllocator}

/-- What every change of one frame keeps, a change of many keeps. -/
theorem invariant_foldl (hg : ∀ s i, P s → P (g s i)) :
    ∀ {l : List ℕ} {s : BitmapFrameAllocator}, P s → P (l.foldl g s) := by
  intro l
  induction l with
  | nil => intro s h; exact h
  | cons i l ih => intro s h; exact ih (hg s i h)

theorem Coherent.foldl (hg : ∀ s i, Coherent s → (g s i).Coherent) {l : List ℕ}
    (h : s.Coherent) : (l.foldl g s).Coherent :=
  invariant_foldl hg h

theorem testBit_allBusy (n f : ℕ) : (allBusy n).testBit f = true := by
  by_cases hf : f < n
  · rw [testBit, dif_pos (show f < (allBusy n).totalFrames from hf)]
    simp only [allBusy, Vector.getElem_replicate]
    exact Bits.testBit_allOnes (Nat.mod_lt f (by decide))
  · exact testBit_of_ge (Nat.le_of_not_lt hf)

theorem coherent_allBusy (n : ℕ) : (allBusy n).Coherent := by
  intro f hf
  rw [testBit_allBusy, refCount, dif_pos hf]
  simp [allBusy]

theorem Coherent.withHint (h : s.Coherent) (hint : ℕ) :
    ({ s with lastFreeFrameHint := hint } : BitmapFrameAllocator).Coherent := h

variable {p : Profile} {entries : List MemmapEntry}

theorem invariant_foldlM_freeEntry (hfree : ∀ s i, P s → P (s.forceFreeBit i)) :
    ∀ {es : List MemmapEntry} {s s' : BitmapFrameAllocator}, P s →
      es.foldlM (freeEntry p) s = some s' → P s' := by
  intro es
  induction es with
  | nil => intro s s' h he; exact some.inj he ▸ h
  | cons e es ih =>
    intro s s' h he
    rw [List.foldlM_cons, bind_eq_bind, bind_eq_some_iff] at he
    obtain ⟨t, ht, he⟩ := he
    refine ih ?_ he
    unfold freeEntry at ht
    split_ifs at ht
    · simp only [bind_eq_bind, bind_eq_some_iff, pure_def, some.injEq] at ht
      obtain ⟨_, _, _, _, _, _, rfl⟩ := ht
      exact invariant_foldl hfree h
    · exact some.inj ht ▸ h

/-- **The induction rule for `init`**: what holds when every frame is busy and is kept by setting
and by freeing a frame holds after `init`. -/
theorem init_invariant (hbusy : ∀ n, P (allBusy n))
    (hset : ∀ s i, P s → P (s.forceSetBit i)) (hfree : ∀ s i, P s → P (s.forceFreeBit i))
    (h : init p entries = some s) : P s := by
  unfold init at h
  simp only [bind_eq_bind, bind_eq_some_iff, pure_def, some.injEq] at h
  obtain ⟨_, _, _, _, _, _, _, _, freed, hfreed, rfl⟩ := h
  apply hset
  exact invariant_foldl hset (invariant_foldlM_freeEntry hfree (hbusy _) hfreed)

/-- After `init` the two arrays agree. -/
theorem coherent_init (h : init p entries = some s) : s.Coherent :=
  init_invariant coherent_allBusy (fun _ i hs => hs.forceSetBit i)
    (fun _ i hs => hs.forceFreeBit i) h

/-! ### What the operations do -/

theorem firstFree_some {l : List ℕ} (h : s.firstFree l = some i) : s.testBit i = false := by
  have := List.find?_some h
  simpa using this

/-- `allocateFrame` either finds no frame and changes nothing, or hands out a free frame. -/
theorem allocateFrame_cases (s : BitmapFrameAllocator) :
    s.allocateFrame = (s, none) ∨ ∃ i, s.testBit i = false ∧ s.allocateFrame =
      ({ s.forceSetBit i with lastFreeFrameHint := i + 1 }, some (i * FRAME_SIZE)) := by
  unfold allocateFrame
  split
  · rename_i i hi
    exact .inr ⟨i, firstFree_some hi, rfl⟩
  · split
    · rename_i i hi
      exact .inr ⟨i, firstFree_some hi, rfl⟩
    · exact .inl rfl

theorem allocateFrame_of_free (hf : s.testBit f = false) :
    ∃ i, s.testBit i = false ∧ s.allocateFrame =
      ({ s.forceSetBit i with lastFreeFrameHint := i + 1 }, some (i * FRAME_SIZE)) := by
  rcases allocateFrame_cases s with hnone | hsome
  · -- the two scans together cover the table
    have hlt := lt_of_testBit_eq_false hf
    have hmiss : ∀ l, s.firstFree l = none → f ∉ l := by
      intro l hl hmem
      have := List.find?_eq_none.mp hl f hmem
      simp [hf] at this
    unfold allocateFrame at hnone
    split at hnone
    · cases congrArg Prod.snd hnone
    · rename_i hhigh
      split at hnone
      · cases congrArg Prod.snd hnone
      · rename_i hlow
        have h1 := hmiss _ hhigh
        have h2 := hmiss _ hlow
        rw [List.mem_range'_1] at h1
        rw [List.mem_range] at h2
        omega
  · exact hsome

variable (s)

theorem freeRun_eq_iff (i count : ℕ) :
    s.freeRun i count = count ↔ ∀ j, j < count → s.testBit (i + j) = false := by
  constructor
  · intro h j hj
    -- the prefix has the length of the whole range, so it is the whole range
    have heq := (List.takeWhile_prefix (l := List.range count)
      (fun j => !s.testBit (i + j))).eq_of_length (by rw [List.length_range]; exact h)
    have hall := List.all_takeWhile (l := List.range count) (p := fun j => !s.testBit (i + j))
    rw [heq, List.all_eq_true] at hall
    simpa using hall j (List.mem_range.mpr hj)
  · intro h
    have heq : (List.range count).takeWhile (fun j => !s.testBit (i + j)) = List.range count :=
      List.takeWhile_eq_self_iff.mpr fun j hj => by simp [h j (List.mem_range.mp hj)]
    rw [freeRun, heq, List.length_range]

theorem findRun_some (count : ℕ) :
    ∀ (n i k : ℕ), s.totalFrames + 1 - i = n → s.findRun count i = some k →
      ∀ j, j < count → s.testBit (k + j) = false := by
  intro n
  induction n using Nat.strong_induction_on with
  | _ n ih =>
    intro i k hn h
    rw [findRun] at h
    split_ifs at h with hi hrun
    · obtain rfl := some.inj h
      exact (freeRun_eq_iff s i count).mp hrun
    · exact ih _ (by omega) _ k rfl h

variable {s}

variable (l : List ℕ)

@[simp] theorem totalFrames_foldl_forceSetBit :
    ∀ s : BitmapFrameAllocator, (l.foldl forceSetBit s).totalFrames = s.totalFrames := by
  induction l with
  | nil => intro s; rfl
  | cons i l ih => intro s; rw [List.foldl_cons, ih, totalFrames_forceSetBit]

theorem refCount_foldl_forceSetBit (f : ℕ) : ∀ s : BitmapFrameAllocator,
    (l.foldl forceSetBit s).refCount f
      = if f ∈ l ∧ f < s.totalFrames then 1 else s.refCount f := by
  induction l with
  | nil => intro s; simp
  | cons i l ih =>
    intro s
    rw [List.foldl_cons, ih, totalFrames_forceSetBit, refCount_forceSetBit]
    by_cases hf : f < s.totalFrames
    · by_cases hi : i = f
      · simp [hi, hf]
      · simp [hi, hf, Ne.symm hi]
    · have : ¬ (i = f ∧ i < s.totalFrames) := by omega
      simp [hf, this]

theorem testBit_foldl_forceSetBit (f : ℕ) : ∀ s : BitmapFrameAllocator,
    (l.foldl forceSetBit s).testBit f = (s.testBit f || decide (f ∈ l)) := by
  induction l with
  | nil => intro s; simp
  | cons i l ih =>
    intro s
    rw [List.foldl_cons, ih, testBit_forceSetBit]
    by_cases hi : i = f
    · simp [hi]
    · simp [hi, Ne.symm hi]

theorem grant_frame {n : ℕ} (hfree : ∀ j, j < n → s.testBit (i + j) = false) :
    (i ≤ f ∧ f < i + n ∧ s.testBit f = false ∧
      ((List.range' i n).foldl forceSetBit s).testBit f = true ∧
      ((List.range' i n).foldl forceSetBit s).refCount f = 1) ∨
    (¬ (i ≤ f ∧ f < i + n) ∧
      ((List.range' i n).foldl forceSetBit s).testBit f = s.testBit f ∧
      ((List.range' i n).foldl forceSetBit s).refCount f = s.refCount f) := by
  by_cases hmem : i ≤ f ∧ f < i + n
  · have hbit := hfree (f - i) (by omega)
    rw [show i + (f - i) = f by omega] at hbit
    have hin : f ∈ List.range' i n := List.mem_range'_1.mpr hmem
    refine .inl ⟨hmem.1, hmem.2, hbit, ?_, ?_⟩
    · rw [testBit_foldl_forceSetBit, decide_eq_true hin, Bool.or_true]
    · rw [refCount_foldl_forceSetBit, if_pos ⟨hin, lt_of_testBit_eq_false hbit⟩]
  · have hout : f ∉ List.range' i n := fun hin => hmem (List.mem_range'_1.mp hin)
    refine .inr ⟨hmem, ?_, ?_⟩
    · rw [testBit_foldl_forceSetBit, decide_eq_false hout, Bool.or_false]
    · rw [refCount_foldl_forceSetBit, if_neg fun h => hout h.1]

theorem allocateContiguousFrames_cases (s : BitmapFrameAllocator) (count : ℕ) :
    s.allocateContiguousFrames count = (s, none) ∨
      ∃ i, (∀ j, j < count → s.testBit (i + j) = false) ∧ s.allocateContiguousFrames count =
        ((List.range' i count).foldl forceSetBit s, some (i * FRAME_SIZE)) := by
  unfold allocateContiguousFrames
  split_ifs with h0
  · exact .inl rfl
  · split
    · rename_i i hi
      exact .inr ⟨i, findRun_some s count _ 0 i rfl hi, rfl⟩
    · exact .inl rfl

theorem toNat_sub_one {c : BitVec 16} (h : c ≠ 0#16) : (c - 1#16).toNat + 1 = c.toNat := by
  have h0 : c.toNat ≠ 0 := fun hz => h (BitVec.eq_of_toNat_eq (by simpa using hz))
  rw [BitVec.toNat_sub]
  simp only [BitVec.toNat_ofNat]
  omega

variable {s' : BitmapFrameAllocator} {a : ℕ}

/-- A release lowers the count of its frame by one and no other; the bit is cleared when the
count was one. -/
theorem deallocateFrame_spec (h : s.deallocateFrame a = some s') :
    s'.totalFrames = s.totalFrames ∧
    (∀ f, s'.refCount f + (if a / FRAME_SIZE = f then 1 else 0) = s.refCount f) ∧
    (∀ f, f < s.totalFrames → s'.testBit f =
      (s.testBit f && !decide (a / FRAME_SIZE = f ∧ s.refCount f = 1))) := by
  unfold deallocateFrame at h
  generalize a / FRAME_SIZE = i at h ⊢
  unfold deallocateFrameNumber at h
  by_cases hi : i < s.totalFrames
  · rw [dif_pos hi] at h
    have hcount : s.refCount i = s.refCounts[i].toNat := by rw [refCount, dif_pos hi]
    by_cases hz : s.refCounts[i] = 0#16
    · rw [if_pos hz] at h
      simp at h
    rw [if_neg hz] at h
    have hsub := toNat_sub_one hz
    have hrel : ∀ f, (if i = f then (s.refCounts[i] - 1#16).toNat else s.refCount f)
        + (if i = f then 1 else 0) = s.refCount f := by
      intro f
      split_ifs with hif
      · rw [hsub, ← hcount, hif]
      · rfl
    by_cases hz1 : s.refCounts[i] - 1#16 = 0#16
    · -- the last reference: the bit is cleared as well
      rw [if_pos hz1] at h
      obtain rfl := some.inj h
      have hone : s.refCount i = 1 := by rw [hcount, ← hsub, hz1]; rfl
      refine ⟨rfl, fun f => by rw [refCount_set s hi]; exact hrel f, fun f hf => ?_⟩
      rw [testBit_set_clearBit s hi hf]
      by_cases hif : i = f
      · simp [← hif, hone]
      · simp [hif]
    · rw [if_neg hz1] at h
      obtain rfl := some.inj h
      refine ⟨rfl, fun f => by rw [refCount_set s hi]; exact hrel f, fun f hf => ?_⟩
      have hne : ¬ (i = f ∧ s.refCount f = 1) := by
        rintro ⟨rfl, h1⟩
        rw [hcount, ← hsub] at h1
        exact hz1 (BitVec.eq_of_toNat_eq (by simpa using h1))
      rw [decide_eq_false hne, Bool.not_false, Bool.and_true]
      rfl
  · rw [dif_neg hi] at h
    simp at h

theorem deallocateFrame_isSome
    (hpos : 0 < s.refCount (a / FRAME_SIZE)) : ∃ s', s.deallocateFrame a = some s' := by
  unfold deallocateFrame deallocateFrameNumber
  have hlt : a / FRAME_SIZE < s.totalFrames := by
    by_contra hge
    rw [refCount, dif_neg hge] at hpos
    exact absurd hpos (Nat.lt_irrefl 0)
  rw [refCount, dif_pos hlt] at hpos
  have hne : s.refCounts[a / FRAME_SIZE] ≠ 0#16 := by
    intro hz
    rw [hz] at hpos
    exact absurd hpos (by decide)
  dsimp only
  split_ifs <;> exact ⟨_, rfl⟩

/-- A reference needs an owner, adds one to the count of its frame modulo the word, and leaves the
rest alone. -/
theorem referenceFrame_cases (h : s.referenceFrame p a = some s') :
    s'.totalFrames = s.totalFrames ∧ s'.lastFreeFrameHint = s.lastFreeFrameHint ∧
    (∀ f, s'.testBit f = s.testBit f) ∧ 0 < s.refCount (a / FRAME_SIZE) ∧
    ∀ f, s'.refCount f =
      if a / FRAME_SIZE = f then (s.refCount f + 1) % 2 ^ 16 else s.refCount f := by
  unfold referenceFrame at h
  generalize a / FRAME_SIZE = i at h ⊢
  unfold referenceFrameNumber at h
  split_ifs at h with hi hz
  rw [map_eq_some_iff] at h
  obtain ⟨c, hc, rfl⟩ := h
  have hcount : s.refCount i = s.refCounts[i].toNat := by rw [refCount, dif_pos hi]
  refine ⟨rfl, rfl, fun f => rfl, ?_, fun f => ?_⟩
  · rw [hcount, Nat.pos_iff_ne_zero]
    exact fun h0 => hz (BitVec.eq_of_toNat_eq (by simpa using h0))
  · rw [refCount_set s hi, BitVec.toNat_ofNat, Profile.eq_of_add hc, ← hcount, Nat.mod_mod]
    split_ifs with hif
    · rw [hif]
    · rfl

theorem referenceFrame_lt
    (h : s.referenceFrame .dev a = some s') : s.refCount (a / FRAME_SIZE) + 1 < 2 ^ 16 := by
  unfold referenceFrame referenceFrameNumber at h
  split_ifs at h with hi hz
  rw [map_eq_some_iff] at h
  obtain ⟨c, hc, -⟩ := h
  rw [refCount, dif_pos hi]
  exact Profile.add_lt_of_dev hc

theorem referenceFrame_spec (h : s.referenceFrame .dev a = some s') :
    s'.totalFrames = s.totalFrames ∧ (∀ f, s'.testBit f = s.testBit f) ∧
    0 < s.refCount (a / FRAME_SIZE) ∧
    (∀ f, s'.refCount f = s.refCount f + if a / FRAME_SIZE = f then 1 else 0) := by
  obtain ⟨htotal, -, hbit, hpos, hcount⟩ := referenceFrame_cases h
  refine ⟨htotal, hbit, hpos, fun f => ?_⟩
  rw [hcount]
  split_ifs with hif
  · rw [Nat.mod_eq_of_lt (hif ▸ referenceFrame_lt h)]
  · rfl

/-! ### The ledger -/

/-- What an operation did to the ownership of frames. -/
inductive Event
  | granted (start count : ℕ)
  | refused
  | referenced (frame : ℕ)
  | released (frame : ℕ)
  deriving DecidableEq, Repr

/-- How often an event hands out frame `f`. -/
def Event.handedOut (f : ℕ) : Event → ℕ
  | .granted start count => if start ≤ f ∧ f < start + count then 1 else 0
  | _ => 0

/-- How many extra references to frame `f` an event takes. -/
def Event.references (f : ℕ) : Event → ℕ
  | .referenced g => if g = f then 1 else 0
  | _ => 0

/-- How many references to frame `f` an event drops. -/
def Event.releases (f : ℕ) : Event → ℕ
  | .released g => if g = f then 1 else 0
  | _ => 0

/-- The public operations. -/
inductive Op
  | allocateFrame
  | allocateContiguousFrames (count : ℕ)
  | referenceFrame (physAddr : ℕ)
  | deallocateFrame (physAddr : ℕ)
  deriving DecidableEq, Repr

/-- The event of an allocator's answer to a request for `count` frames. -/
def grant (count : ℕ) : Option ℕ → Event
  | some addr => .granted (addr / FRAME_SIZE) count
  | none => .refused

/-- One operation under the given profile; `none` is a panic. -/
def stepIn (p : Profile) (s : BitmapFrameAllocator) : Op → Option (BitmapFrameAllocator × Event)
  | .allocateFrame => some (s.allocateFrame.1, grant 1 s.allocateFrame.2)
  | .allocateContiguousFrames count =>
    some ((s.allocateContiguousFrames count).1, grant count (s.allocateContiguousFrames count).2)
  | .referenceFrame a => (s.referenceFrame p a).map fun s' => (s', .referenced (a / FRAME_SIZE))
  | .deallocateFrame a => (s.deallocateFrame a).map fun s' => (s', .released (a / FRAME_SIZE))

/-- One operation under the development profile. -/
abbrev step (s : BitmapFrameAllocator) : Op → Option (BitmapFrameAllocator × Event) :=
  stepIn .dev s

variable {op : Op} {ev : Event}

/-- What an operation can do: nothing, hand out a run of free frames, share a frame that has an
owner, or drop a reference. -/
theorem stepIn_cases (h : stepIn p s op = some (s', ev)) : (s' = s ∧ ev = .refused) ∨
    (∃ i n, (∀ j, j < n → s.testBit (i + j) = false) ∧ ev = .granted i n ∧
      s'.totalFrames = s.totalFrames ∧
      (∀ f, s'.testBit f = ((List.range' i n).foldl forceSetBit s).testBit f) ∧
      ∀ f, s'.refCount f = ((List.range' i n).foldl forceSetBit s).refCount f) ∨
    (∃ a, s.referenceFrame p a = some s' ∧ ev = .referenced (a / FRAME_SIZE)) ∨
    (∃ a, s.deallocateFrame a = some s' ∧ ev = .released (a / FRAME_SIZE)) := by
  have hdiv : ∀ i, i * FRAME_SIZE / FRAME_SIZE = i := fun i =>
    Nat.mul_div_cancel i (by norm_num [FRAME_SIZE])
  cases op with
  | allocateFrame =>
    obtain ⟨rfl, rfl⟩ := h
    rcases s.allocateFrame_cases with hc | ⟨i, hi, hc⟩
    · rw [hc]; exact .inl ⟨rfl, rfl⟩
    · rw [hc]
      refine .inr (.inl ⟨i, 1, fun j hj => ?_, by simp [grant, hdiv], ?_, ?_, ?_⟩)
      · obtain rfl : j = 0 := by omega
        exact hi
      · exact totalFrames_forceSetBit s i
      · exact fun f => rfl
      · exact fun f => rfl
  | allocateContiguousFrames n =>
    obtain ⟨rfl, rfl⟩ := h
    rcases s.allocateContiguousFrames_cases n with hc | ⟨i, hi, hc⟩
    · rw [hc]; exact .inl ⟨rfl, rfl⟩
    · rw [hc]
      exact .inr (.inl ⟨i, n, hi, by simp [grant, hdiv],
        totalFrames_foldl_forceSetBit _ s, fun f => rfl, fun f => rfl⟩)
  | referenceFrame a =>
    simp only [stepIn, map_eq_some_iff, Prod.mk.injEq] at h
    obtain ⟨t, ht, rfl, rfl⟩ := h
    exact .inr (.inr (.inl ⟨a, ht, rfl⟩))
  | deallocateFrame a =>
    simp only [stepIn, map_eq_some_iff, Prod.mk.injEq] at h
    obtain ⟨t, ht, rfl, rfl⟩ := h
    exact .inr (.inr (.inr ⟨a, ht, rfl⟩))

theorem totalFrames_stepIn
    (h : stepIn p s op = some (s', ev)) : s'.totalFrames = s.totalFrames := by
  rcases stepIn_cases h with ⟨rfl, -⟩ | ⟨_, _, _, _, ht, _⟩ | ⟨_, hr, -⟩ | ⟨_, hd, -⟩
  · rfl
  · exact ht
  · exact (referenceFrame_cases hr).1
  · exact (deallocateFrame_spec hd).1

/-- Every operation keeps the arrays in step. -/
theorem coherent_step (hc : s.Coherent) (h : s.step op = some (s', ev)) : s'.Coherent := by
  have htot := totalFrames_stepIn h
  rcases stepIn_cases h with ⟨rfl, -⟩ | ⟨i, n, _, _, _, hbit, hcount⟩ | ⟨a, hr, -⟩ | ⟨a, hd, -⟩
  · exact hc
  · intro f hf
    rw [hbit, hcount]
    exact Coherent.foldl (fun s i hs => hs.forceSetBit i) hc f (by simpa [htot] using hf)
  · obtain ⟨-, hbit, hpos, hcount⟩ := referenceFrame_spec hr
    intro f hf
    rw [hbit, hcount, hc f (htot ▸ hf)]
    split_ifs with hif
    · rw [hif] at hpos
      exact ⟨fun _ => Nat.succ_pos _, fun _ => hpos⟩
    · simp
  · obtain ⟨-, hcount, hbit⟩ := deallocateFrame_spec hd
    intro f hf
    rw [hbit f (htot ▸ hf), Bool.and_eq_true, hc f (htot ▸ hf)]
    have := hcount f
    by_cases hif : a / FRAME_SIZE = f
    · simp only [hif, if_true, true_and, Bool.not_eq_true', decide_eq_false_iff_not] at this ⊢
      omega
    · simp only [hif, if_false, false_and, decide_false, Bool.not_false, and_true] at this ⊢
      omega

theorem refCount_eq_zero_of_handedOut
    (hc : s.Coherent) (h : s.step op = some (s', ev)) (hf : 0 < ev.handedOut f) :
    s.refCount f = 0 := by
  rcases stepIn_cases h with ⟨-, rfl⟩ | ⟨i, n, hfree, rfl, -⟩ | ⟨a, -, rfl⟩ | ⟨a, -, rfl⟩
  · simp [Event.handedOut] at hf
  · simp only [Event.handedOut] at hf
    split_ifs at hf with hmem
    · have := hfree (f - i) (by omega)
      rw [show i + (f - i) = f by omega] at this
      exact hc.refCount_eq_zero this
    · omega
  · simp [Event.handedOut] at hf
  · simp [Event.handedOut] at hf

/-- One operation changes the count of every frame by what its event says. -/
theorem refCount_step (hc : s.Coherent) (h : s.step op = some (s', ev)) (f : ℕ) :
    s'.refCount f + ev.releases f = s.refCount f + (ev.handedOut f + ev.references f) := by
  have hzero := fun hf => refCount_eq_zero_of_handedOut (f := f) hc h hf
  rcases stepIn_cases h with ⟨rfl, rfl⟩ | ⟨i, n, hfree, rfl, -, -, hcount⟩ | ⟨a, hr, rfl⟩ |
    ⟨a, hd, rfl⟩
  · simp [Event.releases, Event.handedOut, Event.references]
  · simp only [Event.releases, Event.references, Event.handedOut] at hzero ⊢
    rw [hcount]
    rcases grant_frame hfree with ⟨hi, hn, -, -, hone⟩ | ⟨hout, -, hsame⟩
    · rw [if_pos ⟨hi, hn⟩] at hzero ⊢
      rw [hone, hzero Nat.zero_lt_one]
    · rw [if_neg hout, hsame]
  · rw [(referenceFrame_spec hr).2.2.2 f]
    simp [Event.releases, Event.handedOut, Event.references]
  · rw [← (deallocateFrame_spec hd).2.1 f]
    simp [Event.releases, Event.handedOut, Event.references]

/-- **Frame ownership over whole runs.**  After any run from `init`, for every frame of the
table: the bit is set iff the count is positive, and the count is the initial one plus the times
the frame was handed out plus the references taken minus the releases; and no operation possible
in the reached state hands out a frame whose count is not zero. -/
theorem frame_ownership {p : Profile} {entries : List MemmapEntry} {s₀ s : BitmapFrameAllocator}
    {ops : List Op} {evs : List Event} (hinit : init p entries = some s₀)
    (hrun : Transition.run step s₀ ops = some (s, evs)) :
    (∀ f, f < s.totalFrames →
      (s.testBit f = true ↔ 0 < s.refCount f) ∧
      (s.refCount f : ℤ) = s₀.refCount f + (evs.map (Event.handedOut f)).sum
        + (evs.map (Event.references f)).sum - (evs.map (Event.releases f)).sum) ∧
    s.totalFrames = s₀.totalFrames ∧
    ∀ op s' ev, s.step op = some (s', ev) → ∀ f, 0 < ev.handedOut f → s.refCount f = 0 := by
  have h₀ := coherent_init hinit
  have hstep : ∀ s op s' ev, Coherent s → s.step op = some (s', ev) → s'.Coherent :=
    fun s op s' ev hc h => coherent_step hc h
  have hc : s.Coherent := Transition.run_invariant hstep h₀ hrun
  refine ⟨fun f hf => ⟨hc f hf, ?_⟩, ?_, fun op s' ev h f hf =>
    refCount_eq_zero_of_handedOut hc h hf⟩
  · have hbal := Transition.run_balance hstep (fun s => s.refCount f)
      (fun ev => ev.handedOut f + ev.references f) (Event.releases f)
      (fun s op s' ev hcs h => refCount_step hcs h f) h₀ hrun
    rw [List.sum_map_add] at hbal
    push_cast [← Int.natCast_inj] at hbal ⊢
    omega
  · exact Transition.run_invariant (P := fun t => t.totalFrames = s₀.totalFrames)
      (fun s op s' ev ht h => (totalFrames_stepIn h).trans ht) rfl hrun

/-- The ownership theorem at five frames of usable memory: one frame is allocated, shared and
released once, so its count is one. -/
theorem frame_ownership_five_frames : ∃ s₀ s : BitmapFrameAllocator, ∃ evs : List Event,
    init .dev [⟨0, 0x5000, .usable⟩] = some s₀ ∧
    Transition.run step s₀ [.allocateFrame, .referenceFrame 4096, .deallocateFrame 4096]
      = some (s, evs) ∧
    evs = [.granted 1 1, .referenced 1, .released 1] ∧
    (1 < s.totalFrames → (s.testBit 1 = true ↔ 0 < s.refCount 1) ∧
      (s.refCount 1 : ℤ) = s₀.refCount 1 + (evs.map (Event.handedOut 1)).sum
        + (evs.map (Event.references 1)).sum - (evs.map (Event.releases 1)).sum) := by
  obtain ⟨s₀, hinit, ⟨s, evs⟩, hrun, hevs⟩ : ∃ s₀ ∈ init .dev [⟨0, 0x5000, .usable⟩],
      ∃ r ∈ Transition.run step s₀ [.allocateFrame, .referenceFrame 4096, .deallocateFrame 4096],
      r.2 = [.granted 1 1, .referenced 1, .released 1] := by decide
  exact ⟨s₀, s, evs, hinit, hrun, hevs, fun hf => (frame_ownership hinit hrun).1 1 hf⟩

end NwinOs.Mm.BitmapFrameAllocator
