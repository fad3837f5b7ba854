import NwinOs.Mm.Equiv.CopyOnWrite
import NwinOs.Mm.Equiv.FirstFit

/-!
# The reference counter at its limit

Without overflow checks `referenceFrame` wraps a count of 65535 to zero.  The bit of the frame stays
set, so the frame is not handed out again, but every further call on it takes the count for that of
an unowned frame: `deallocateFrame` reports a double free and `referenceFrame` an unowned frame.  So
at most 65536 references are ever outstanding, and `owners` reads their number off the two arrays.
It follows the books of every run (`owners_step`), whatever the profile.
-/

namespace NwinOs.Mm.BitmapFrameAllocator

open Transition Event

variable {p : Profile} {s s' : BitmapFrameAllocator} {f a : ℕ}

variable (s)

/-- Free frames have no count.  The converse fails once a count has wrapped. -/
def Booked : Prop := ∀ f, s.testBit f = false → s.refCount f = 0

/-- The number of outstanding references to a frame. -/
def owners (f : ℕ) : ℕ :=
  if s.testBit f = false then 0 else if s.refCount f = 0 then 2 ^ 16 else s.refCount f

variable {s}

theorem refCount_lt : s.refCount f < 2 ^ 16 := by
  unfold refCount
  split_ifs
  · exact BitVec.isLt _
  · decide

theorem Coherent.booked (h : s.Coherent) : s.Booked := fun _ hf => h.refCount_eq_zero hf

theorem Coherent.owners_eq (h : s.Coherent) (hf : f < s.totalFrames) :
    s.owners f = s.refCount f := by
  unfold owners
  split_ifs with hbit hzero
  · exact (h.refCount_eq_zero hbit).symm
  · rw [Bool.not_eq_false, h f hf, hzero] at hbit
    exact absurd hbit (Nat.lt_irrefl 0)
  · rfl

theorem Booked.owners_of_pos (h : s.Booked) (hpos : 0 < s.refCount f) :
    s.owners f = s.refCount f := by
  unfold owners
  rw [if_neg fun hbit => hpos.ne' (h f hbit), if_neg hpos.ne']

theorem Booked.stepIn {op : Op} {ev : Event} (h : s.Booked) (hs : stepIn p s op = some (s', ev)) :
    s'.Booked := by
  rcases stepIn_cases hs with ⟨rfl, -⟩ | ⟨i, n, hfree, -, -, hbit, hcount⟩ | ⟨a, hr, -⟩ | ⟨a, hd, -⟩
  · exact h
  · intro f hf
    rw [hbit] at hf
    rw [hcount]
    rcases grant_frame (f := f) hfree with ⟨-, -, -, hset, -⟩ | ⟨-, hsame, hkept⟩
    · rw [hset] at hf
      cases hf
    · rw [hkept]
      exact h f (hsame ▸ hf)
  · obtain ⟨-, -, hbit, hpos, hcount⟩ := referenceFrame_cases hr
    intro f hf
    rw [hbit] at hf
    rw [hcount, if_neg, h f hf]
    rintro rfl
    exact hpos.ne' (h _ hf)
  · obtain ⟨htotal, hcount, hbit⟩ := deallocateFrame_spec hd
    intro f hf
    have hlt : f < s.totalFrames := htotal ▸ lt_of_testBit_eq_false hf
    rw [hbit f hlt, Bool.and_eq_false_iff, Bool.not_eq_false', decide_eq_true_eq] at hf
    have := hcount f
    rcases hf with hfree | ⟨hfa, hone⟩
    · have := h f hfree
      omega
    · rw [if_pos hfa] at this
      omega

/-- **The books are right in either profile**: an operation changes the number of outstanding
references to a frame by what its event says. -/
theorem owners_step {op : Op} {ev : Event} (h : s.Booked) (hs : stepIn p s op = some (s', ev)) :
    s'.owners f + ev.releases f = s.owners f + (ev.handedOut f + ev.references f) := by
  rcases stepIn_cases hs with ⟨rfl, rfl⟩ | ⟨i, n, hfree, rfl, -, hbit, hcount⟩ | ⟨a, hr, rfl⟩ |
    ⟨a, hd, rfl⟩
  · simp [releases, handedOut, references]
  · simp only [releases, handedOut, references]
    unfold owners
    rw [hbit, hcount]
    rcases grant_frame (f := f) hfree with ⟨hle, hlt, hold, hset, hone⟩ | ⟨hout, hsame, hkept⟩
    · simp [hle, hlt, hold, hset, hone]
    · rw [hsame, hkept, if_neg hout]
  · obtain ⟨-, -, hbit, hpos, hcount⟩ := referenceFrame_cases hr
    simp only [releases, handedOut, references]
    by_cases hfa : a / FRAME_SIZE = f
    · rw [hfa] at hpos
      have hset : ¬ s.testBit f = false := fun hfree => hpos.ne' (h f hfree)
      have hlt : s.refCount f < 2 ^ 16 := refCount_lt
      rw [h.owners_of_pos hpos, owners, hbit, if_neg hset, hcount, if_pos hfa, if_pos hfa]
      -- the count wraps exactly when it was the largest
      rcases Nat.lt_or_ge (s.refCount f + 1) (2 ^ 16) with hfits | hwraps
      · rw [Nat.mod_eq_of_lt hfits, if_neg (Nat.succ_ne_zero _)]
      · have hmax : s.refCount f + 1 = 2 ^ 16 := Nat.le_antisymm hlt hwraps
        rw [hmax, Nat.mod_self, if_pos rfl]
        omega
    · rw [owners, owners, hbit, hcount, if_neg hfa, if_neg hfa]
  · obtain ⟨htotal, hcount, hbit⟩ := deallocateFrame_spec hd
    simp only [releases, handedOut, references]
    have hcount' := hcount f
    by_cases hfa : a / FRAME_SIZE = f
    · rw [if_pos hfa] at hcount' ⊢
      have hpos : 0 < s.refCount f := by omega
      have hset : s.testBit f = true := by
        by_contra hfree
        exact hpos.ne' (h f (Bool.eq_false_iff.mpr hfree))
      have hlt : f < s.totalFrames := by
        by_contra hge
        rw [refCount, dif_neg hge] at hpos
        exact absurd hpos (Nat.lt_irrefl 0)
      rw [h.owners_of_pos hpos, owners, hbit f hlt, hset]
      by_cases hone : s.refCount f = 1
      · simp [hfa, hone]
      · simp only [hone, and_false, decide_false, Bool.not_false, Bool.and_true, Bool.true_eq_false,
          if_false]
        rw [if_neg (by omega)]
        omega
    · rw [if_neg hfa, Nat.add_zero] at hcount' ⊢
      have hsame : s'.testBit f = s.testBit f := by
        by_cases hlt : f < s.totalFrames
        · rw [hbit f hlt, decide_eq_false fun hand => hfa hand.1, Bool.not_false, Bool.and_true]
        · rw [testBit_of_ge (by omega), testBit_of_ge (by omega)]
      rw [owners, owners, hsame, hcount', Nat.add_zero]

/-! ### What the consumers make of the count -/

/-- The readers of the count of frame `f` agree with its having `n` owners: it is not reported
unowned, a release is no double free, and a copy-on-write fault in a frame with several owners does
not make the page writable in place, so its outcome does not depend on `updateFlags`. -/
structure CountTrusted (s : BitmapFrameAllocator) (f n : ℕ) : Prop where
  owned : ∀ a, a / FRAME_SIZE = f → s.getRefCount a ≠ 0
  releasable : ∀ a, a / FRAME_SIZE = f → ∃ s', s.deallocateFrame a = some s'
  shared : 2 ≤ n → ∀ (S : Type) (m : CowMapper S) (memory : S) (faultAddr a : ℕ),
    m.translateAddr memory faultAddr = some a → a / FRAME_SIZE = f →
    ∀ updateFlags, resolveCowFault { m with updateFlags := updateFlags } ⟨memory, s⟩ faultAddr
      = resolveCowFault m ⟨memory, s⟩ faultAddr

/-- A fault in a frame whose count is not one does not use `updateFlags`. -/
theorem resolveCowFault_of_ne_one {S : Type} {m : CowMapper S} {memory : S} {faultAddr : ℕ}
    (ha : m.translateAddr memory faultAddr = some a) (hne : s.getRefCount a ≠ 1)
    (updateFlags : S → ℕ → Paging.PageTableFlags → Option S) :
    resolveCowFault { m with updateFlags := updateFlags } ⟨memory, s⟩ faultAddr
      = resolveCowFault m ⟨memory, s⟩ faultAddr := by
  unfold resolveCowFault
  simp only [ha, hne, if_false]

theorem countTrusted_iff (h : s.Booked) (hf : f < s.totalFrames) (hpos : 0 < s.owners f) :
    CountTrusted s f (s.owners f) ↔ s.owners f < 2 ^ 16 := by
  have hread : ∀ a, a / FRAME_SIZE = f → s.getRefCount a = s.refCount f := by
    rintro a rfl
    rw [getRefCount_eq, if_pos hf]
  constructor
  · intro htrusted
    have hcount := htrusted.owned (f * FRAME_SIZE) (Nat.mul_div_cancel f (by decide))
    rw [hread _ (Nat.mul_div_cancel f (by decide))] at hcount
    rw [h.owners_of_pos (Nat.pos_of_ne_zero hcount)]
    exact refCount_lt
  · intro hlt
    have hcount : s.owners f = s.refCount f := by
      refine h.owners_of_pos (Nat.pos_of_ne_zero fun hzero => ?_)
      unfold owners at hpos hlt
      split_ifs at hpos hlt <;> omega
    rw [hcount] at hpos ⊢
    refine ⟨fun a ha => ?_, fun a ha => ?_, fun htwo S m memory faultAddr a htrans ha update => ?_⟩
    · rw [hread a ha]
      exact hpos.ne'
    · exact deallocateFrame_isSome (ha ▸ hpos)
    · refine resolveCowFault_of_ne_one htrans ?_ update
      rw [hread a ha]
      omega

/-! ### Runs -/

/-- The references taken to frame `f` in a run from `s₀`: those it starts with, the allocations and
the calls of `referenceFrame`. -/
def taken (s₀ : BitmapFrameAllocator) (evs : List Event) (f : ℕ) : ℕ :=
  s₀.refCount f + (evs.map (Event.handedOut f)).sum + (evs.map (Event.references f)).sum

/-- The references to frame `f` dropped in a run. -/
def dropped (evs : List Event) (f : ℕ) : ℕ := (evs.map (Event.releases f)).sum

/-- The books of a run: what is owned and what was dropped make up what was taken. -/
theorem owners_run {entries : List MemmapEntry} {s₀ : BitmapFrameAllocator} {ops : List Op}
    {evs : List Event} (hinit : init p entries = some s₀)
    (hrun : run (stepIn p) s₀ ops = some (s, evs)) (hf : f < s.totalFrames) :
    s.Booked ∧ s.owners f + dropped evs f = taken s₀ evs f := by
  have h₀ := coherent_init hinit
  have htotal : s.totalFrames = s₀.totalFrames :=
    run_invariant (P := fun t => t.totalFrames = s₀.totalFrames)
      (fun _ _ _ _ ht h => (totalFrames_stepIn h).trans ht) rfl hrun
  have hbooked : s.Booked :=
    run_invariant (fun _ _ _ _ h hs => Booked.stepIn h hs) h₀.booked hrun
  have hbal := run_balance (fun _ _ _ _ h hs => Booked.stepIn h hs)
    (fun s => s.owners f) (fun ev => ev.handedOut f + ev.references f) (releases f)
    (fun _ _ _ _ h hs => owners_step h hs) h₀.booked hrun
  rw [List.sum_map_add, h₀.owners_eq (htotal ▸ hf)] at hbal
  refine ⟨hbooked, ?_⟩
  unfold taken dropped
  omega

/-- **The count of a shared frame.**  In every run of the release profile, as long as more
references to a frame have been taken than dropped, the readers of its count can trust it iff fewer
than 65536 are outstanding. -/
theorem shared_count_trusted_iff {entries : List MemmapEntry} {s₀ : BitmapFrameAllocator}
    {ops : List Op} {evs : List Event} (hinit : init .release entries = some s₀)
    (hrun : Transition.run (stepIn .release) s₀ ops = some (s, evs)) (hf : f < s.totalFrames)
    (hshared : dropped evs f < taken s₀ evs f) :
    CountTrusted s f (taken s₀ evs f - dropped evs f) ↔
      taken s₀ evs f - dropped evs f < 2 ^ 16 := by
  obtain ⟨hbooked, hbal⟩ := owners_run hinit hrun hf
  have hown : taken s₀ evs f - dropped evs f = s.owners f := by omega
  rw [hown]
  exact countTrusted_iff hbooked hf (by omega)

/-- A frame that is allocated, referenced twice and released once: its two owners can trust the
count. -/
theorem shared_count_trusted_iff_two_owners : ∃ s₀ s : BitmapFrameAllocator, ∃ evs : List Event,
    init .release [⟨0, 0x5000, .usable⟩] = some s₀ ∧
    Transition.run (stepIn .release) s₀ [.allocateFrame, .referenceFrame 4096, .referenceFrame 4096,
      .deallocateFrame 4096] = some (s, evs) ∧
    1 < s.totalFrames ∧ taken s₀ evs 1 = 3 ∧ dropped evs 1 = 1 ∧
    (CountTrusted s 1 (taken s₀ evs 1 - dropped evs 1) ↔
      taken s₀ evs 1 - dropped evs 1 < 2 ^ 16) := by
  obtain ⟨s₀, hinit, ⟨s, evs⟩, hrun, hf, htaken, hdropped⟩ :
      ∃ s₀ ∈ init .release [⟨0, 0x5000, .usable⟩], ∃ r ∈ run (stepIn .release) s₀
        [.allocateFrame, .referenceFrame 4096, .referenceFrame 4096, .deallocateFrame 4096],
      1 < r.1.totalFrames ∧ taken s₀ r.2 1 = 3 ∧ dropped r.2 1 = 1 := by decide +kernel
  exact ⟨s₀, s, evs, hinit, hrun, hf, htaken, hdropped,
    shared_count_trusted_iff hinit hrun hf (by rw [htaken, hdropped]; decide)⟩

theorem referenceFrame_isSome (hpos : 0 < s.refCount (a / FRAME_SIZE)) :
    ∃ s', s.referenceFrame .release a = some s' := by
  unfold referenceFrame referenceFrameNumber
  unfold refCount at hpos
  split_ifs at hpos with hlt
  · have hne : s.refCounts[a / FRAME_SIZE] ≠ 0#16 := by
      intro hz
      rw [hz] at hpos
      exact absurd hpos (by decide)
    rw [dif_pos hlt, if_neg hne, Profile.add, Profile.checked_release]
    exact ⟨_, rfl⟩
  · exact absurd hpos (Nat.lt_irrefl 0)

/-- Without overflow checks further references can be taken to a frame with an owner, up to the
limit of the counter. -/
theorem run_references : ∀ (k : ℕ) {s : BitmapFrameAllocator}, 0 < s.refCount (a / FRAME_SIZE) →
    s.refCount (a / FRAME_SIZE) + k ≤ 2 ^ 16 → ∃ s',
      run (stepIn .release) s (List.replicate k (.referenceFrame a))
        = some (s', List.replicate k (.referenced (a / FRAME_SIZE))) := by
  intro k
  induction k with
  | zero => exact fun _ _ => ⟨_, rfl⟩
  | succ k ih =>
    intro s hpos hk
    obtain ⟨s₁, hs₁⟩ := referenceFrame_isSome hpos
    have hstep : stepIn .release s (.referenceFrame a)
        = some (s₁, .referenced (a / FRAME_SIZE)) := by
      rw [stepIn, hs₁, Option.map_some]
    obtain ⟨-, -, -, -, hcount⟩ := referenceFrame_cases hs₁
    have hnext := hcount (a / FRAME_SIZE)
    rw [if_pos rfl] at hnext
    obtain ⟨s', hrun⟩ : ∃ s', run (stepIn .release) s₁
        (List.replicate k (.referenceFrame a))
          = some (s', List.replicate k (.referenced (a / FRAME_SIZE))) := by
      -- the last reference may be the one that wraps
      rcases Nat.eq_zero_or_pos k with rfl | hkpos
      · exact ⟨s₁, rfl⟩
      · exact ih (by omega) (by omega)
    exact ⟨s', run_cons_eq_some.mpr ⟨s₁, _, _, hstep, hrun, rfl⟩⟩

theorem books_references (s₀ : BitmapFrameAllocator) (f k : ℕ) :
    taken s₀ (.granted f 1 :: List.replicate k (.referenced f)) f = s₀.refCount f + 1 + k ∧
    dropped (.granted f 1 :: List.replicate k (.referenced f)) f = 0 := by
  simp [taken, dropped, handedOut, references, releases, List.map_replicate]

theorem deallocateFrame_of_refCount_eq_zero (h : s.refCount (a / FRAME_SIZE) = 0) :
    s.deallocateFrame a = none := by
  cases hd : s.deallocateFrame a with
  | none => rfl
  | some s' =>
    have := (deallocateFrame_spec hd).2.1 (a / FRAME_SIZE)
    rw [if_pos rfl] at this
    omega

/-- 65535 further references to an allocated frame wrap its count to zero: although it has 65536
owners it is reported unowned, and the first release is taken for a double free. -/
theorem shared_count_wraps : ∃ s₀ s : BitmapFrameAllocator, ∃ evs : List Event,
    init .release [⟨0, 0x5000, .usable⟩] = some s₀ ∧
    Transition.run (stepIn .release) s₀
      (.allocateFrame :: List.replicate 65535 (.referenceFrame 4096)) = some (s, evs) ∧
    taken s₀ evs 1 = 65536 ∧ dropped evs 1 = 0 ∧
    s.getRefCount 4096 = 0 ∧ s.deallocateFrame 4096 = none := by
  obtain ⟨s₀, hinit, hzero, ⟨s₁, ev⟩, hstep, htotal, hone, rfl⟩ :
      ∃ s₀ ∈ init .release [⟨0, 0x5000, .usable⟩], s₀.refCount 1 = 0 ∧
      ∃ r ∈ stepIn .release s₀ .allocateFrame,
        r.1.totalFrames = 5 ∧ r.1.refCount 1 = 1 ∧ r.2 = .granted 1 1 := by decide +kernel
  have hdiv : 4096 / FRAME_SIZE = 1 := rfl
  obtain ⟨s, hrefs⟩ := run_references (a := 4096) 65535 (s := s₁)
    (by rw [hdiv, hone]; decide) (by rw [hdiv, hone]; decide)
  have hrun : Transition.run (stepIn .release) s₀
      (.allocateFrame :: List.replicate 65535 (.referenceFrame 4096))
        = some (s, .granted 1 1 :: List.replicate 65535 (.referenced 1)) :=
    Transition.run_cons_eq_some.mpr ⟨s₁, _, _, hstep, hrefs, rfl⟩
  have htotal' : s.totalFrames = 5 := by
    rw [← htotal]
    exact Transition.run_invariant (P := fun t => t.totalFrames = s₁.totalFrames)
      (fun _ _ _ _ ht h => (totalFrames_stepIn h).trans ht) rfl hrefs
  obtain ⟨htaken, hdropped⟩ := books_references s₀ 1 65535
  rw [hzero] at htaken
  -- so many owners are not a count
  obtain ⟨hbooked, hbal⟩ := owners_run (f := 1) hinit hrun (by rw [htotal']; decide)
  have hwrapped : s.refCount 1 = 0 := by
    by_contra hne
    have hlt : s.refCount 1 < 2 ^ 16 := refCount_lt
    rw [hbooked.owners_of_pos (Nat.pos_of_ne_zero hne), htaken, hdropped] at hbal
    omega
  refine ⟨s₀, s, _, hinit, hrun, htaken, hdropped, ?_, ?_⟩
  · rw [getRefCount_eq, hdiv, hwrapped, htotal', if_pos (by decide)]
  · exact deallocateFrame_of_refCount_eq_zero (by rw [hdiv, hwrapped])

end NwinOs.Mm.BitmapFrameAllocator
