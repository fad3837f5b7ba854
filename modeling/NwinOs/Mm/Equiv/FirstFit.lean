import NwinOs.Mm.Equiv.FrameAllocator
import Mathlib.Order.Bounds.Basic

/-!
# First fit

`allocateFrame` starts its search at the hint.  In every run from `init` all frames below the hint
are busy (`HintSound`): a grant moves the hint behind the frame it takes, a release moves it back to
the frame it frees, and the contiguous allocator leaves it alone but frees nothing.  So the frame
that is found is the lowest free one (`allocate_frame_first_fit`).

`allocateContiguousFrames` does not use the hint.  Its scan skips to behind the first busy frame of
a window that failed; every start it skips has that busy frame in its own window (`freeRun_busy`),
so the first window that fits is the lowest (`allocate_contiguous_frames_first_fit`).
-/

namespace NwinOs.Mm.BitmapFrameAllocator

open List

variable {p : Profile} {s s' : BitmapFrameAllocator} {i f a count : ℕ}

/-! ### The hint -/

/-- Every frame below the hint is busy. -/
def HintSound (s : BitmapFrameAllocator) : Prop := ∀ f < s.lastFreeFrameHint, s.testBit f = true

@[simp] theorem lastFreeFrameHint_forceSetBit :
    (s.forceSetBit i).lastFreeFrameHint = s.lastFreeFrameHint := by
  unfold forceSetBit; split_ifs <;> rfl

@[simp] theorem lastFreeFrameHint_forceFreeBit :
    (s.forceFreeBit i).lastFreeFrameHint = s.lastFreeFrameHint := by
  unfold forceFreeBit; split_ifs <;> rfl

theorem lastFreeFrameHint_foldl_forceSetBit (l : List ℕ) :
    (l.foldl forceSetBit s).lastFreeFrameHint = s.lastFreeFrameHint :=
  invariant_foldl (P := fun t => t.lastFreeFrameHint = s.lastFreeFrameHint)
    (fun _ _ ht => lastFreeFrameHint_forceSetBit.trans ht) rfl

theorem lastFreeFrameHint_init {entries : List MemmapEntry} (h : init p entries = some s) :
    s.lastFreeFrameHint = 0 :=
  init_invariant (P := fun s => s.lastFreeFrameHint = 0) (fun _ => rfl)
    (fun _ _ hs => lastFreeFrameHint_forceSetBit.trans hs)
    (fun _ _ hs => lastFreeFrameHint_forceFreeBit.trans hs) h

/-- A release never moves the hint forward, and moves it to the frame that it frees. -/
theorem lastFreeFrameHint_deallocateFrame (h : s.deallocateFrame a = some s') :
    s'.lastFreeFrameHint ≤ s.lastFreeFrameHint ∧
    (s.refCount (a / FRAME_SIZE) = 1 → s'.lastFreeFrameHint ≤ a / FRAME_SIZE) := by
  unfold deallocateFrame at h
  generalize a / FRAME_SIZE = i at h ⊢
  unfold deallocateFrameNumber at h
  by_cases hi : i < s.totalFrames
  · rw [dif_pos hi] at h
    by_cases hz : s.refCounts[i] = 0#16
    · rw [if_pos hz] at h
      cases h
    rw [if_neg hz] at h
    by_cases hz1 : s.refCounts[i] - 1#16 = 0#16
    · rw [if_pos hz1] at h
      cases h
      dsimp only
      split_ifs <;> omega
    · rw [if_neg hz1] at h
      cases h
      refine ⟨Nat.le_refl _, fun hone => absurd ?_ hz1⟩
      rw [refCount, dif_pos hi] at hone
      have hsub := toNat_sub_one hz
      apply BitVec.eq_of_toNat_eq
      rw [BitVec.toNat_ofNat]
      omega
  · rw [dif_neg hi] at h
    cases h

section

variable (hs : s.HintSound)
include hs

theorem HintSound.deallocateFrame (h : s.deallocateFrame a = some s') : s'.HintSound := by
  obtain ⟨hback, hfreed⟩ := lastFreeFrameHint_deallocateFrame h
  obtain ⟨htotal, -, hbit⟩ := deallocateFrame_spec h
  intro f hf
  by_cases hlt : f < s.totalFrames
  · rw [hbit f hlt, hs f (by omega), Bool.true_and, Bool.not_eq_true', decide_eq_false_iff_not]
    rintro ⟨rfl, hone⟩
    omega
  · exact testBit_of_ge (by omega)

/-! ### The search of `allocateFrame` -/

/-- **The frame found from a sound hint is the lowest free one.** -/
theorem HintSound.allocateFrame_cases : (s.allocateFrame = (s, none) ∧ ∀ f, s.testBit f = true) ∨
    ∃ i, IsLeast {f | s.testBit f = false} i ∧ s.allocateFrame =
      ({ s.forceSetBit i with lastFreeFrameHint := i + 1 }, some (i * FRAME_SIZE)) := by
  -- a free frame is in the range of the first search
  have hrange : ∀ f, s.testBit f = false →
      s.lastFreeFrameHint ≤ f ∧ f < s.totalFrames := by
    intro f hf
    refine ⟨?_, lt_of_testBit_eq_false hf⟩
    by_contra hlt
    rw [hs f (Nat.lt_of_not_le hlt)] at hf
    cases hf
  unfold allocateFrame
  split
  · rename_i i hi
    obtain ⟨hfree, -, hbefore⟩ := find?_range'_eq_some.mp hi
    refine .inr ⟨i, ⟨by simpa using hfree, fun f hf => ?_⟩, rfl⟩
    by_contra hlt
    have := hbefore f (hrange f hf).1 (Nat.lt_of_not_le hlt)
    rw [show s.testBit f = false from hf] at this
    cases this
  · rename_i hnone
    have hbusy : ∀ f, s.testBit f = true := by
      intro f
      by_contra hf
      rw [Bool.not_eq_true] at hf
      have := find?_range'_eq_none.mp hnone f (hrange f hf).1 (by have := hrange f hf; omega)
      rw [hf] at this
      cases this
    have hlow : s.firstFree (List.range s.lastFreeFrameHint) = none := by
      refine find?_eq_none.mpr fun f _ => ?_
      rw [hbusy f]
      exact Bool.false_ne_true
    rw [hlow]
    exact .inl ⟨rfl, hbusy⟩

theorem HintSound.allocateFrame : s.allocateFrame.1.HintSound := by
  rcases hs.allocateFrame_cases with ⟨heq, -⟩ | ⟨i, hleast, heq⟩
  · rw [heq]
    exact hs
  · rw [heq]
    intro f hf
    show (s.forceSetBit i).testBit f = true
    rw [testBit_forceSetBit, Bool.or_eq_true, decide_eq_true_eq]
    -- below the lowest free frame everything is busy
    rcases Nat.lt_or_ge f i with hlt | hge
    · left
      by_contra hfree
      rw [Bool.not_eq_true] at hfree
      exact Nat.not_le_of_lt hlt (hleast.2 hfree)
    · have : f < i + 1 := hf
      omega

theorem HintSound.allocateContiguousFrames (count : ℕ) :
    (s.allocateContiguousFrames count).1.HintSound := by
  rcases s.allocateContiguousFrames_cases count with heq | ⟨i, -, heq⟩
  · rw [heq]
    exact hs
  · rw [heq]
    intro f hf
    rw [lastFreeFrameHint_foldl_forceSetBit] at hf
    rw [testBit_foldl_forceSetBit, hs f hf, Bool.true_or]

/-! ### Runs under either profile -/

theorem HintSound.stepIn {op : Op} {ev : Event}
    (h : stepIn p s op = some (s', ev)) : s'.HintSound := by
  cases op with
  | allocateFrame =>
    cases h
    exact hs.allocateFrame
  | allocateContiguousFrames count =>
    cases h
    exact hs.allocateContiguousFrames count
  | referenceFrame a =>
    obtain ⟨t, ht, heq⟩ := Option.map_eq_some_iff.mp h
    cases heq
    obtain ⟨-, hhint, hbit, -, -⟩ := referenceFrame_cases ht
    intro f hf
    rw [hbit]
    exact hs f (hhint ▸ hf)
  | deallocateFrame a =>
    obtain ⟨t, ht, heq⟩ := Option.map_eq_some_iff.mp h
    cases heq
    exact hs.deallocateFrame ht

end

/-- **Single frames are allocated first fit.**  After any run from `init`, in either profile, every
frame below the hint is busy; so `allocateFrame` succeeds iff some frame is free, and then takes the
lowest one: its bit and its count become one and those of the other frames stay.  A failure changes
nothing. -/
theorem allocate_frame_first_fit {entries : List MemmapEntry} {s₀ : BitmapFrameAllocator}
    {ops : List Op} {evs : List Event} (hinit : init p entries = some s₀)
    (hrun : Transition.run (stepIn p) s₀ ops = some (s, evs)) :
    (∀ f < s.lastFreeFrameHint, s.testBit f = true) ∧
    (s.allocateFrame.2.isSome ↔ ∃ f, s.testBit f = false) ∧
    (∀ a, s.allocateFrame.2 = some a → ∃ i, a = i * FRAME_SIZE ∧
      IsLeast {f | s.testBit f = false} i ∧
      (∀ f, s.allocateFrame.1.testBit f = if f = i then true else s.testBit f) ∧
      (∀ f, s.allocateFrame.1.refCount f = if f = i then 1 else s.refCount f) ∧
      s.allocateFrame.1.totalFrames = s.totalFrames) ∧
    (s.allocateFrame.2 = none → s.allocateFrame.1 = s) := by
  have hs : s.HintSound := by
    refine Transition.run_invariant (fun _ _ _ _ h hstep => HintSound.stepIn h hstep) ?_ hrun
    intro f hf
    rw [lastFreeFrameHint_init hinit] at hf
    exact absurd hf (Nat.not_lt_zero f)
  refine ⟨hs, ?_⟩
  rcases hs.allocateFrame_cases with ⟨heq, hbusy⟩ | ⟨i, hleast, heq⟩
  · rw [heq]
    refine ⟨?_, fun a ha => ?_, fun _ => rfl⟩
    · simp [hbusy]
    · cases ha
  · rw [heq]
    refine ⟨⟨fun _ => ⟨i, hleast.1⟩, fun _ => rfl⟩, fun a ha => ?_, fun hnone => ?_⟩
    swap
    · cases hnone
    refine ⟨i, (Option.some.inj ha).symm, hleast, fun f => ?_, fun f => ?_,
      totalFrames_forceSetBit s i⟩
    · show (s.forceSetBit i).testBit f = _
      rw [testBit_forceSetBit]
      by_cases hf : f = i
      · simp [hf]
      · simp [hf, Ne.symm hf]
    · show (s.forceSetBit i).refCount f = _
      rw [refCount_forceSetBit]
      have hlt := lt_of_testBit_eq_false hleast.1
      simp only [hlt, and_true, eq_comm]

/-- Six frames of usable memory under the release profile: frames 1 and 2 are taken, 1 is given back
and two frames are taken in a row, so the hint is back at 1 and frame 1 is handed out next. -/
theorem allocate_frame_first_fit_six_frames : ∃ s₀ s : BitmapFrameAllocator, ∃ evs : List Event,
    init .release [⟨0, 0x6000, .usable⟩] = some s₀ ∧
    Transition.run (stepIn .release) s₀ [.allocateFrame, .allocateFrame, .deallocateFrame 4096,
      .allocateContiguousFrames 2] = some (s, evs) ∧ s.allocateFrame.2 = some 4096 ∧
    IsLeast {f | s.testBit f = false} 1 := by
  obtain ⟨s₀, hinit, ⟨s, evs⟩, hrun, hframe⟩ : ∃ s₀ ∈ init .release [⟨0, 0x6000, .usable⟩],
      ∃ r ∈ Transition.run (stepIn .release) s₀ [.allocateFrame, .allocateFrame,
        .deallocateFrame 4096, .allocateContiguousFrames 2], r.1.allocateFrame.2 = some 4096 := by
    decide +kernel
  obtain ⟨i, hi, hleast, -⟩ := (allocate_frame_first_fit hinit hrun).2.2.1 4096 hframe
  obtain rfl : i = 1 := by
    unfold FRAME_SIZE at hi
    omega
  exact ⟨s₀, s, evs, hinit, hrun, hframe, hleast⟩

/-! ### The scan of `allocateContiguousFrames` -/

/-- The `count` frames from `i` on are in the table and free. -/
def IsFreeRun (s : BitmapFrameAllocator) (count i : ℕ) : Prop :=
  i + count ≤ s.totalFrames ∧ ∀ j < count, s.testBit (i + j) = false

/-- A window that does not fit has a busy frame where its free frames end. -/
theorem freeRun_busy (h : s.freeRun i count ≠ count) :
    s.freeRun i count < count ∧ s.testBit (i + s.freeRun i count) = true := by
  have hfind : s.freeRun i count = (List.range count).findIdx fun j => s.testBit (i + j) := by
    unfold freeRun
    rw [takeWhile_eq_take_findIdx_not, length_take, Nat.min_eq_left findIdx_le_length]
    simp only [Bool.not_not]
  rw [hfind] at h ⊢
  have hle : (List.range count).findIdx (fun j => s.testBit (i + j)) ≤ (List.range count).length :=
    findIdx_le_length
  have hlt : (List.range count).findIdx (fun j => s.testBit (i + j)) < (List.range count).length :=
    Nat.lt_of_le_of_ne hle (by rwa [length_range])
  have hbusy := findIdx_getElem (w := hlt)
  rw [getElem_range] at hbusy
  rw [length_range] at hlt
  exact ⟨hlt, hbusy⟩

/-- No window that starts before the busy frame, from `i` on, fits. -/
theorem not_isFreeRun_of_busy {j : ℕ} (h : s.freeRun i count ≠ count) (hij : i ≤ j)
    (hj : j < i + s.freeRun i count + 1) : ¬ s.IsFreeRun count j := by
  obtain ⟨hlt, hbusy⟩ := freeRun_busy h
  rintro ⟨-, hfree⟩
  have := hfree (i + s.freeRun i count - j) (by omega)
  rw [show j + (i + s.freeRun i count - j) = i + s.freeRun i count by omega, hbusy] at this
  cases this

/-- **The scan finds the lowest window from `i` on that fits.** -/
theorem findRun_spec (s : BitmapFrameAllocator) (hcount : 0 < count) :
    ∀ n i, s.totalFrames + 1 - i = n →
    match s.findRun count i with
    | some k => IsLeast {j | i ≤ j ∧ s.IsFreeRun count j} k
    | none => ∀ j, i ≤ j → ¬ s.IsFreeRun count j := by
  intro n
  induction n using Nat.strong_induction_on with
  | _ n ih =>
    intro i hn
    rw [findRun]
    by_cases hi : i ≤ s.totalFrames - count
    · rw [if_pos hi]
      by_cases hrun : s.freeRun i count = count
      · rw [if_pos hrun]
        have hfree := (freeRun_eq_iff s i count).mp hrun
        have hend := lt_of_testBit_eq_false (hfree (count - 1) (by omega))
        exact ⟨⟨Nat.le_refl i, by omega, hfree⟩, fun j hj => hj.1⟩
      · rw [if_neg hrun]
        -- the starts up to the busy frame are skipped
        have hskip : ∀ j, i ≤ j → s.IsFreeRun count j → i + s.freeRun i count + 1 ≤ j := by
          intro j hij hj
          by_contra hlt
          exact not_isFreeRun_of_busy hrun hij (Nat.lt_of_not_le hlt) hj
        have hrest := ih _ (by omega) (i + s.freeRun i count + 1) rfl
        split at hrest
        · refine ⟨⟨?_, hrest.1.2⟩, fun j hj => hrest.2 ⟨hskip j hj.1 hj.2, hj.2⟩⟩
          have := hrest.1.1
          omega
        · exact fun j hij hj => hrest j (hskip j hij hj) hj
    · rw [if_neg hi]
      -- a window from here on would leave the table
      intro j hij hj
      have := hj.1
      omega

/-- **Runs of frames are allocated first fit.**  From every state and for every count, a run is
handed out iff the count is positive and some window of free frames of the table fits, and then it
is the lowest: its frames become busy with count one, and nothing else changes.  A failure changes
nothing. -/
theorem allocate_contiguous_frames_first_fit (s : BitmapFrameAllocator) (count : ℕ) :
    (∀ a, (s.allocateContiguousFrames count).2 = some a ↔
      0 < count ∧ ∃ i, a = i * FRAME_SIZE ∧ IsLeast {j | s.IsFreeRun count j} i) ∧
    (∀ i, (s.allocateContiguousFrames count).2 = some (i * FRAME_SIZE) →
      (∀ f, (s.allocateContiguousFrames count).1.testBit f =
        if i ≤ f ∧ f < i + count then true else s.testBit f) ∧
      (∀ f, (s.allocateContiguousFrames count).1.refCount f =
        if i ≤ f ∧ f < i + count then 1 else s.refCount f) ∧
      (s.allocateContiguousFrames count).1.totalFrames = s.totalFrames ∧
      (s.allocateContiguousFrames count).1.lastFreeFrameHint = s.lastFreeFrameHint) ∧
    ((s.allocateContiguousFrames count).2 = none → (s.allocateContiguousFrames count).1 = s) := by
  unfold allocateContiguousFrames
  by_cases hcount : count = 0
  · rw [if_pos hcount]
    refine ⟨fun a => ⟨fun h => ?_, fun h => absurd hcount h.1.ne'⟩, fun i h => ?_, fun _ => rfl⟩
    · cases h
    · cases h
  · rw [if_neg hcount]
    have hpos : 0 < count := Nat.pos_of_ne_zero hcount
    have hscan := s.findRun_spec hpos _ 0 rfl
    simp only [Nat.zero_le, true_and, true_implies] at hscan
    split
    · rename_i k hk
      rw [hk] at hscan
      refine ⟨fun a => ⟨fun h => ?_, ?_⟩, fun i h => ?_, fun h => ?_⟩
      · exact ⟨hpos, k, (Option.some.inj h).symm, hscan⟩
      · rintro ⟨-, i, rfl, hleast⟩
        rw [hleast.unique hscan]
      · have hki : k = i := Nat.eq_of_mul_eq_mul_right (by decide) (Option.some.inj h)
        subst hki
        refine ⟨fun f => ?_, fun f => ?_, totalFrames_foldl_forceSetBit _ s,
          lastFreeFrameHint_foldl_forceSetBit _⟩
        · rw [testBit_foldl_forceSetBit]
          by_cases hf : k ≤ f ∧ f < k + count
          · simp [hf]
          · simp [hf, List.mem_range'_1]
        · -- the frames of the run are in the table
          have hend := hscan.1.1
          have hiff : (k ≤ f ∧ f < k + count) ∧ f < s.totalFrames ↔ k ≤ f ∧
            f < k + count := by omega
          simp only [refCount_foldl_forceSetBit, List.mem_range'_1, hiff]
      · cases h
    · rename_i hk
      rw [hk] at hscan
      refine ⟨fun a => ⟨fun h => ?_, ?_⟩, fun i h => ?_, fun _ => rfl⟩
      · cases h
      · rintro ⟨-, i, -, hleast⟩
        exact absurd hleast.1 (hscan i)
      · cases h

end NwinOs.Mm.BitmapFrameAllocator
