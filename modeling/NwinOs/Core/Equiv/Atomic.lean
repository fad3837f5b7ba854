import NwinOs.Core.Equiv.Brk
import NwinOs.Core.SyscallExec

/-!
# Calls that fail

What `sys_mmap` and `sys_brk` leave behind when they fail.  Both stop at the first page that cannot
be mapped, and keep what they have mapped and taken until then.  So a call that fails in its page
loop leaves memory as it was only if there was no free frame from the start, and
`memory_calls_atomic_iff` says when it does not fail there at all.  The same condition decides
whether `sys_mmap` reports the cause: the code that the loop puts into `rax` is overwritten by
`-ENOMEM`, which is right when there was no free frame.
-/

namespace NwinOs.Core

open Paging Mm Tasking Option

/-- The register for a negative error code. -/
def errorRegister (code : ℤ) : ℕ := (code % 2 ^ 64).toNat

/-- What a failed call has to leave as it was: the pages of the user half, the two cursors, and the
free frames. -/
structure Unchanged (st : MemoryState) (task : UserTask) (o : Outcome) : Prop where
  mappings : ∀ va, va < 2 ^ 47 → Paging.translate o.1.mem task.pml4Frame va =
    Paging.translate st.mem task.pml4Frame va
  mmapBase : o.2.1.mmapBase = task.mmapBase
  programBreak : o.2.1.programBreak = task.programBreak
  free : ∀ f, o.1.allocator.testBit f = st.allocator.testBit f

/-- A call of `sys_mmap` reports the error of its page loop, and leaves everything as it was if it
fails. -/
structure MmapAtomic (m : Mapper) (p : Profile) (st : MemoryState) (task : UserTask)
    (addr length flags : ℕ) (o : Outcome) : Prop where
  cause : flags &&& 0x20 ≠ 0 → ∀ e,
    (mapPages m task.pml4Frame st (mmapPages p task addr length)).2 = .error e →
      o.2.2 = errorRegister e.toErrno.toNegI32
  rollback : 2 ^ 64 - 4095 ≤ o.2.2 → Unchanged st task o

/-- A call of `sys_brk` that does not grant the request leaves everything as it was. -/
def BrkAtomic (st : MemoryState) (task : UserTask) (requestedBrk : ℕ) (o : Outcome) : Prop :=
  o.2.2 ≠ requestedBrk → Unchanged st task o

section

variable {m : Mapper} {p : Profile} {st : MemoryState} {task : UserTask}
  {addr length flags requestedBrk q : ℕ} {o : Outcome} {place : ℕ → Option (List ℕ)}

theorem Unchanged.refl (st : MemoryState) (task : UserTask) (rax : ℕ) :
    Unchanged st task (st, task, rax) :=
  ⟨fun _ _ => rfl, rfl, rfl, fun _ => rfl⟩

theorem not_unchanged_of_busy {f : ℕ} (hfree : ¬ busy st.allocator f)
    (hbusy : busy o.1.allocator f) :
    ¬ Unchanged st task o := by
  intro h
  apply hfree
  show st.allocator.testBit f = true
  rw [← h.free f]
  exact hbusy

/-! ### `sys_mmap` -/

theorem mmapPages_lt (hq : q ∈ mmapPages p task addr length) : q < 2 ^ 47 := by
  unfold mmapPages at hq
  cases hsize : (allocSize p length).filter (mmapInRange (task.startAddr addr)) with
  | none =>
    rw [hsize] at hq
    cases hq
  | some size =>
    obtain ⟨-, hrange⟩ := filter_eq_some_iff.mp hsize
    obtain ⟨-, hend⟩ := mmapInRange_iff.mp hrange
    rw [hsize] at hq
    obtain ⟨i, hi, rfl⟩ := mem_pageAddrs.mp hq
    omega

theorem pairwise_mmapPages : (mmapPages p task addr length).Pairwise
    fun q q' => pageNumber q ≠ pageNumber q' := by
  unfold mmapPages
  cases hsize : (allocSize p length).filter (mmapInRange (task.startAddr addr)) with
  | none => exact List.Pairwise.nil
  | some size =>
    obtain ⟨-, hrange⟩ := filter_eq_some_iff.mp hsize
    obtain ⟨-, hend⟩ := mmapInRange_iff.mp hrange
    exact pairwise_pageAddrs (by omega)

theorem sysMmap_outcome (hflags : flags &&& 0x20 ≠ 0)
    (h : sysMmap m p st task addr length flags = some o) :
    (mmapPages p task addr length = [] ∧ o = (st, task, negative 12)) ∨
    (∃ st' e, mapPages m task.pml4Frame st (mmapPages p task addr length) = (st', .error e) ∧
      o = (st', task, negative 12)) ∨
    ∃ st', mapPages m task.pml4Frame st (mmapPages p task addr length) = (st', .ok ()) ∧
      o.1 = st' ∧ o.2.2 < 2 ^ 47 := by
  obtain ⟨size, hsize, ⟨hrange, rfl⟩ | ⟨hrange, hloop⟩⟩ := sysMmap_cases hflags h
  · refine .inl ⟨?_, rfl⟩
    rw [mmapPages, hsize, filter_some, if_neg (by simp [hrange])]
    rfl
  · rw [mmapPages_of_inRange hsize hrange]
    rcases hloop with ⟨st', e, hpages, rfl⟩ | ⟨st', hpages, rfl⟩
    · exact .inr (.inl ⟨st', e, hpages, rfl⟩)
    · have hend := (mmapInRange_iff.mp hrange).2
      exact .inr (.inr ⟨st', hpages, rfl, by show task.startAddr addr < _; omega⟩)

/-- A loop that fails: nothing has changed, for want of a first frame, or a frame has been taken. -/
theorem UserTree.loop_cases (hm : m.Documented) (h : UserTree task.pml4Frame place st)
    {vas : List ℕ}
    (huser : ∀ q ∈ vas, q < 2 ^ 47)
    (hdistinct : vas.Pairwise fun q q' => pageNumber q ≠ pageNumber q') {st' : MemoryState}
    {e : MemoryError} (hloop : mapPages m task.pml4Frame st vas = (st', .error e)) :
    (freeFrames st.allocator = 0 ∧ st' = st ∧ e = .outOfFrames) ∨
    (freeFrames st.allocator ≠ 0 ∧ ¬ CanMapAll st task.pml4Frame vas ∧
      ∃ f, ¬ busy st.allocator f ∧ busy st'.allocator f) := by
  have hslots : ∀ q ∈ vas, userSlot (index q 3) := fun q hq => userSlot_user (huser q hq)
  by_cases hfree : freeFrames st.allocator = 0
  · left
    rcases @mapPages_of_no_frame m st task.pml4Frame vas hm hfree with hok | herror
    · rw [hok] at hloop
      cases hloop
    · rw [herror] at hloop
      cases hloop
      exact ⟨hfree, rfl, rfl⟩
  · right
    have htaken := UserTree.mapPages_error (e := e) hm h hslots hfree (by rw [hloop])
    rw [hloop] at htaken
    refine ⟨hfree, fun hcan => ?_, htaken⟩
    have hok := (UserTree.mapPages_ok_iff hm h hslots hdistinct).mpr hcan
    rw [hloop] at hok
    cases hok

theorem canMapAll_nil (st : MemoryState) (pml4 : ℕ) : CanMapAll st pml4 [] := by
  simp [CanMapAll, unmapped, newTables]

theorem mmap_atomic_iff (hm : m.Documented) (h : UserTree task.pml4Frame place st) :
    (∀ o, sysMmap m p st task addr length flags = some o →
      MmapAtomic m p st task addr length flags o) ↔
      (flags &&& 0x20 = 0 ∨ freeFrames st.allocator = 0 ∨
        CanMapAll st task.pml4Frame (mmapPages p task addr length)) := by
  by_cases hflags : flags &&& 0x20 = 0
  · refine iff_of_true (fun o hrun => ?_) (.inl hflags)
    rw [sysMmap, if_pos hflags] at hrun
    obtain rfl := Option.some.inj hrun
    exact ⟨fun hnot => absurd hflags hnot, fun _ => Unchanged.refl ..⟩
  have hanonymous : flags &&& 0x20 ≠ 0 := hflags
  cases hrun : sysMmap m p st task addr length flags with
  | none =>
    -- the rounding of the length has panicked
    have hsize : allocSize p length = none := by
      rw [sysMmap, if_neg hflags] at hrun
      exact map_eq_none_iff.mp hrun
    have hpages : mmapPages p task addr length = [] := by
      rw [mmapPages, hsize]
      rfl
    rw [hpages]
    exact iff_of_true (fun o ho => (by cases ho)) (.inr (.inr (canMapAll_nil ..)))
  | some o =>
    have huser : ∀ q ∈ mmapPages p task addr length, q < 2 ^ 47 := fun q hq => mmapPages_lt hq
    have hdistinct := @pairwise_mmapPages p task addr length
    simp only [Option.some.injEq, forall_eq']
    rcases sysMmap_outcome hanonymous hrun with
      ⟨hpages, rfl⟩ | ⟨st', e, hloop, rfl⟩ | ⟨st', hloop, -, hret⟩
    · rw [hpages]
      refine iff_of_true ⟨fun _ e he => ?_, fun _ => Unchanged.refl ..⟩
        (.inr (.inr (canMapAll_nil ..)))
      rw [hpages] at he
      cases he
    · rcases UserTree.loop_cases hm h huser hdistinct hloop with
        ⟨hfree, rfl, rfl⟩ | ⟨hfree, hcannot, f, hfresh, htaken⟩
      · refine iff_of_true ⟨fun _ e he => ?_, fun _ => Unchanged.refl ..⟩ (.inr (.inl hfree))
        rw [hloop] at he
        cases he
        rfl
      · refine iff_of_false (fun hatomic => ?_) (by simp [hflags, hfree, hcannot])
        have hfailed : 2 ^ 64 - 4095 ≤ negative 12 := by decide
        exact not_unchanged_of_busy hfresh htaken (hatomic.rollback hfailed)
    · refine iff_of_true ⟨fun _ e he => ?_, fun hfailed => ?_⟩ (.inr (.inr ?_))
      · rw [hloop] at he
        cases he
      · omega
      · refine (UserTree.mapPages_ok_iff hm h (fun q hq => userSlot_user (huser q hq))
          hdistinct).mp ?_
        rw [hloop]

/-! ### `sys_brk` -/

theorem brk_atomic_iff (hm : m.Documented) (h : UserTree task.pml4Frame place st) :
    BrkAtomic st task requestedBrk (sysBrk m st task requestedBrk) ↔
      (¬ task.Admissible requestedBrk ∨ freeFrames st.allocator = 0 ∨
        CanMapAll st task.pml4Frame (brkPages task requestedBrk)) := by
  by_cases hadm : task.Admissible requestedBrk
  swap
  · rw [sysBrk_of_not_admissible hadm]
    exact iff_of_true (fun _ => Unchanged.refl ..) (.inl hadm)
  have huser : ∀ q ∈ brkPages task requestedBrk, q < 2 ^ 47 := fun q hq => brkPages_lt hadm.2.2 hq
  have hdistinct := @pairwise_brkPages task requestedBrk hadm.2.2
  rw [sysBrk_of_admissible hadm]
  rcases hloop : mapPages m task.pml4Frame st (brkPages task requestedBrk) with ⟨st', e | u⟩
  · rcases UserTree.loop_cases hm h huser hdistinct hloop with
      ⟨hfree, rfl, -⟩ | ⟨hfree, hcannot, f, hfresh, htaken⟩
    · exact iff_of_true (fun _ => Unchanged.refl ..) (.inr (.inl hfree))
    · refine iff_of_false (fun hatomic => ?_) (by simp [hadm, hfree, hcannot])
      -- there were pages to map, so the request is not the break
      have hne : task.programBreak ≠ requestedBrk := by
        intro hsame
        rw [brkPages_of_le (by rw [hsame])] at hloop
        cases hloop
      exact not_unchanged_of_busy hfresh htaken (hatomic hne)
  · refine iff_of_true (fun hne => absurd rfl hne) (.inr (.inr ?_))
    refine (UserTree.mapPages_ok_iff hm h (fun q hq => userSlot_user (huser q hq)) hdistinct).mp ?_
    rw [hloop]

/-! ### Both calls -/

/-- **A call that fails changes nothing and reports its cause** iff it is refused before its page
loop, or no frame is free, or there are frames for all pages and tables that it needs. -/
theorem memory_calls_atomic_iff (hm : m.Documented) (h : UserTree task.pml4Frame place st) :
    ((∀ o, sysMmap m p st task addr length flags = some o →
        MmapAtomic m p st task addr length flags o) ↔
      (flags &&& 0x20 = 0 ∨ freeFrames st.allocator = 0 ∨
        CanMapAll st task.pml4Frame (mmapPages p task addr length))) ∧
    (BrkAtomic st task requestedBrk (sysBrk m st task requestedBrk) ↔
      (¬ task.Admissible requestedBrk ∨ freeFrames st.allocator = 0 ∨
        CanMapAll st task.pml4Frame (brkPages task requestedBrk))) :=
  ⟨mmap_atomic_iff hm h, brk_atomic_iff hm h⟩

/-- Without a free frame both calls fail and leave everything as it was. -/
theorem memory_calls_atomic_no_frame :
    (∀ o, sysMmap (.reference _) .release (scarceTarget 0) (.new 0) 0 0x2000 0x22 = some o →
      MmapAtomic (.reference _) .release (scarceTarget 0) (.new 0) 0 0x2000 0x22 o) ∧
    BrkAtomic (scarceTarget 0) (.new 0) 0x200002000
      (sysBrk (.reference _) (scarceTarget 0) (.new 0) 0x200002000) := by
  have hroot : (scarceTarget 0).allocator.testBit 0 = true := by decide +kernel
  have hfree : freeFrames (scarceTarget 0).allocator = 0 := by decide +kernel
  obtain ⟨hmmap, hbrk⟩ :=
    @memory_calls_atomic_iff (.reference _) .release (scarceTarget 0) (.new 0) 0
    0x2000 0x22 0x200002000 _ (OffsetPageTable.documented_reference _) (scarceTarget_tree 0 hroot)
  exact ⟨hmmap.mpr (.inr (.inl hfree)), hbrk.mpr (.inr (.inl hfree))⟩

theorem not_unchanged_of_mapped {va : ℕ} (hva : va < 2 ^ 47)
    (hbefore : (Paging.translate st.mem task.pml4Frame va).isSome = false)
    (hafter : (Paging.translate o.1.mem task.pml4Frame va).isSome = true) :
    ¬ Unchanged st task o := by
  intro h
  rw [h.mappings va hva, hbefore] at hafter
  cases hafter

/-- **Calls that fail half-way**: with one free frame, `sys_mmap` is stopped by an invalid mapping
but returns `-ENOMEM`, and the frame is lost; with four, the second of two pages cannot be mapped,
and the first one stays, for both calls. -/
theorem memory_calls_leave_pages :
    (mapPages (.reference _) 0 (scarceTarget 1) (mmapPages .release (.new 0) 0 0x1000)).2
      = .error .invalidMapping ∧
    (∃ o : Outcome, sysMmap (.reference _) .release (scarceTarget 1)
      (.new 0) 0 0x1000 0x22 = some o ∧
      o.2.2 = negative 12 ∧ o.2.2 ≠ errorRegister MemoryError.invalidMapping.toErrno.toNegI32 ∧
      ¬ Unchanged (scarceTarget 1) (.new 0) o) ∧
    (∃ o : Outcome, sysMmap (.reference _) .release (scarceTarget 4)
      (.new 0) 0 0x2000 0x22 = some o ∧
      o.2.2 = negative 12 ∧ ¬ Unchanged (scarceTarget 4) (.new 0) o) ∧
    (sysBrk (.reference _) (scarceTarget 4) (.new 0) 0x200002000).2.2 = 0x200000000 ∧
    ¬ Unchanged (scarceTarget 4) (.new 0)
      (sysBrk (.reference _) (scarceTarget 4) (.new 0) 0x200002000) := by
  obtain ⟨o₁, hrun₁, hret₁, hbusy⟩ :
      ∃ o ∈ sysMmap (.reference _) .release (scarceTarget 1) (.new 0) 0 0x1000 0x22,
      o.2.2 = negative 12 ∧ o.1.allocator.testBit 1 = true := by decide +kernel
  obtain ⟨o₂, hrun₂, hret₂, hmapped⟩ :
      ∃ o ∈ sysMmap (.reference _) .release (scarceTarget 4) (.new 0) 0 0x2000 0x22,
      o.2.2 = negative 12 ∧ (Paging.translate o.1.mem 0 0x400000000000).isSome = true := by
    decide +kernel
  refine ⟨by decide +kernel, ⟨o₁, hrun₁, hret₁, ?_, ?_⟩, ⟨o₂, hrun₂, hret₂, ?_⟩,
    by decide +kernel, ?_⟩
  · rw [hret₁]
    decide
  · have hfree : ¬ busy (scarceTarget 1).allocator 1 := by
      show ¬ (scarceTarget 1).allocator.testBit 1 = true
      decide +kernel
    exact not_unchanged_of_busy hfree hbusy
  · exact not_unchanged_of_mapped (by decide) rfl hmapped
  · have hpage :
      (Paging.translate (sysBrk (.reference _) (scarceTarget 4) (.new 0) 0x200002000).1.mem
        0 0x200000000).isSome = true := by decide +kernel
    exact not_unchanged_of_mapped (by decide) rfl hpage

end

end NwinOs.Core
