import NwinOs.Core.SyscallExec
import NwinOs.Mm.Equiv.CopyOnWrite
import NwinOs.Mm.Equiv.Reclaim
import NwinOs.Tasking.Equiv.Elf
import NwinOs.Tasking.Equiv.LoadInvariant

/-!
# What a failed `execve` leaves behind

Nothing that `sysExecve` does after it has taken a frame for the PML4 gives a frame back: the
loader, the mapping of the stack and the creation of the task only take.  A call that fails behind
this point has therefore lost at least that frame (`Holds` is kept by every step), and a call that
fails before it has lost none.  `execve_failure_keeps_books_iff` puts the two together.
-/

namespace NwinOs.Core

open Effect Paging Mm Tasking BitmapFrameAllocator Option

/-! ### A frame that is taken stays taken -/

/-- The frame is in use. -/
def Holds (g : ℕ) (a : BitmapFrameAllocator) : Prop := a.testBit g = true

section

variable {g : ℕ} {a : BitmapFrameAllocator} {st : MemoryState} {m : LookupMapper} {pml4 va : ℕ}
  {r : MemoryState × ℕ} {argsBuf : List Byte} {elf : ElfSlice}

theorem Holds.allocateFrame (h : Holds g a) : Holds g a.allocateFrame.1 := by
  unfold Holds at h ⊢
  rcases allocateFrame_spec a with hnone | ⟨i, a', heq, -, -, hbit, -⟩
  · rw [hnone]
    exact h
  · rw [heq, hbit g, h, Bool.true_or]

theorem Holds.allocateAndMapUserPage (hm : m.toOffsetPageTable.Documented)
    (h : Holds g st.allocator) :
    Holds g (allocateAndMapUserPage m.toOffsetPageTable st pml4 va).1.allocator :=
  allocateAndMapUserPage_invariant hm (fun _ => Holds.allocateFrame) h

theorem loadInvariant_holds (hm : m.toOffsetPageTable.Documented) (elf : ElfSlice) :
    LoadInvariant m elf pml4 fun s => Holds g s.memory.allocator where
  emit event := Preserves.of_ok fun s hs => ⟨(), _, rfl, hs⟩
  mapUserPage pageAddr := Preserves.of_ok fun s hs => by
    have hpage := @Holds.allocateAndMapUserPage g s.memory m pml4 pageAddr hm hs
    unfold Tasking.mapUserPage
    rcases heq : Mm.allocateAndMapUserPage m.toOffsetPageTable s.memory pml4 pageAddr with
      ⟨st', _ | ⟨⟩⟩
    · rw [heq] at hpage
      exact ⟨_, _, rfl, hpage⟩
    · rw [heq] at hpage
      dsimp only
      split_ifs
      · exact ⟨_, _, rfl, hpage⟩
      · exact ⟨_, _, rfl, hpage⟩
  copyChunk pageAddr offsetInPage fileOffset bytesToCopy := Preserves.of_ok fun s hs => by
    unfold Tasking.copyChunk
    cases translateInPml4 m s.memory pml4 pageAddr with
    | none | some _ => exact ⟨_, _, rfl, hs⟩

/-! ### Laying out the arguments -/

theorem allocator_storeBytes {bytes : List Byte} {st' : MemoryState}
    (h : storeBytes pml4 st va bytes = some st') : st'.allocator = st.allocator := by
  induction bytes generalizing st va with
  | nil =>
    cases h
    rfl
  | cons b rest ih =>
    rw [storeBytes] at h
    split at h
    · have hrest := ih h
      exact hrest
    · cases h

theorem allocator_pushWords {top : ℕ} {words : List ℕ}
    (h : pushWords pml4 st top words = some r) : r.1.allocator = st.allocator := by
  induction words generalizing st top with
  | nil =>
    cases h
    rfl
  | cons w rest ih =>
    obtain ⟨st', hstore, hrest⟩ := bind_eq_some_iff.mp h
    exact (ih hrest).trans (allocator_storeBytes hstore)

theorem allocator_storeArguments
    (h : storeArguments pml4 st argsBuf = some r) : r.1.allocator = st.allocator := by
  obtain ⟨st', hstore, hpush⟩ := bind_eq_some_iff.mp h
  exact (allocator_pushWords hpush).trans (allocator_storeBytes hstore)

theorem Holds.loadResult (hm : m.toOffsetPageTable.Documented) {p : Profile}
    {r : MemoryState × Except ElfError ℕ} (h : Holds g st.allocator)
    (hload : loadResult (loadElf m p elf pml4 ⟨st, []⟩) = some r) : Holds g r.1.allocator := by
  have hinv := @loadInvariant_holds g m pml4 hm elf
  have hkeeps : Preserves (fun s => Holds g s.memory.allocator) (loadElf m p elf pml4) :=
    hinv.loadElf
  have hstate := hkeeps.state (s := ⟨st, []⟩) h
  cases hrun : loadElf m p elf pml4 ⟨st, []⟩ with
  | ok _ _ | err _ _ =>
    rw [hrun] at hstate hload
    cases hload
    exact hstate
  | fault s' =>
    rw [hrun] at hload
    cases hload

/-! ### Behind the PML4 -/

variable {env : ExecEnv} {s s' : ExecState} {rax : ℤ}

/-- The two things that a call cannot undo or must not do: the frame stays taken, and a call that
fails registers no task. -/
theorem execInto_spec (hm : env.mapper.toOffsetPageTable.Documented) (hst : Holds g st.allocator)
    (h : execInto env s elf argsBuf st pml4 = some (s', rax)) :
    Holds g s'.memory.allocator ∧ (rax < 0 → s'.tasks = s.tasks) := by
  obtain ⟨⟨st₁, loaded⟩, hload, h⟩ := bind_eq_some_iff.mp h
  have hst₁ := hst.loadResult hm hload
  have hstack := @Holds.allocateAndMapUserPage g st₁ env.mapper pml4 userStackBase hm hst₁
  dsimp only at h
  rcases hpage : Mm.allocateAndMapUserPage env.mapper.toOffsetPageTable st₁ pml4 userStackBase with
    ⟨st₂, e | ⟨⟩⟩
  · rw [hpage] at hstack h
    cases h
    exact ⟨hstack, fun _ => rfl⟩
  · rw [hpage] at hstack h
    obtain ⟨⟨st₃, top⟩, hstore, h⟩ := bind_eq_some_iff.mp h
    have hst₃ : Holds g st₃.allocator := by
      rw [allocator_storeArguments hstore]
      exact hstack
    cases loaded with
    | error e =>
      cases h
      exact ⟨hst₃, fun _ => rfl⟩
    | ok entryPoint =>
      cases hstack : env.stack with
      | none =>
        rw [hstack] at h
        cases h
        exact ⟨hst₃, fun _ => rfl⟩
      | some start =>
        rw [hstack] at h
        cases h
        refine ⟨hst₃, fun hneg => ?_⟩
        exact absurd hneg (Int.not_lt.mpr (Int.natCast_nonneg _))

/-! ### The whole call -/

/-- The set of free frames, every frame count and the registered tasks are the same. -/
structure BooksKept (s s' : ExecState) : Prop where
  free : ∀ f, s'.memory.allocator.testBit f = s.memory.allocator.testBit f
  counts : ∀ f, s'.memory.allocator.refCount f = s.memory.allocator.refCount f
  tasks : s'.tasks.taskRegistry = s.tasks.taskRegistry

theorem createIsolatedPml4_of_free {current f : ℕ} (h : st.allocator.testBit f = false) :
    ∃ st' pml4, createIsolatedPml4 st current = (st', some pml4) ∧
      st.allocator.testBit pml4 = false ∧ Holds pml4 st'.allocator := by
  obtain ⟨i, hfree, heq⟩ := allocateFrame_of_free h
  unfold createIsolatedPml4 Mm.systemAllocateFrame
  rw [heq]
  refine ⟨_, _, rfl, ?_, ?_⟩
  · rw [Nat.mul_div_cancel _ (by decide : 0 < FRAME_SIZE)]
    exact hfree
  · rw [Nat.mul_div_cancel _ (by decide : 0 < FRAME_SIZE)]
    refine (testBit_forceSetBit st.allocator i i).trans ?_
    rw [decide_eq_true rfl, Bool.or_true]

theorem createIsolatedPml4_of_full {current : ℕ} (h : ∀ f, st.allocator.testBit f = true) :
    createIsolatedPml4 st current = (st, none) := by
  unfold createIsolatedPml4 Mm.systemAllocateFrame
  rw [allocateFrame_none h]

/-- **A failed `execve` registers no task, and gives back what it took if and only if it took
nothing**: one of the user pointers was refused, there is no such file, or no frame was free. -/
theorem execve_failure_keeps_books_iff (hm : env.mapper.toOffsetPageTable.Documented)
    {user : UserMemory} {filenamePtr argsPtr argsLen : ℕ}
    (h : sysExecve env s user filenamePtr argsPtr argsLen = some (s', rax)) (hneg : rax < 0) :
    s'.tasks = s.tasks ∧
      (BooksKept s s' ↔
        user.isValidUserMemory filenamePtr 64 = false ∨
          (0 < argsLen ∧ user.isValidUserMemory argsPtr argsLen = false) ∨
          env.findFile (user.execFilename filenamePtr) = none ∨
          ∀ f, s.memory.allocator.testBit f = true) := by
  have hrefl : BooksKept s s := ⟨fun _ => rfl, fun _ => rfl, rfl⟩
  unfold sysExecve at h
  by_cases hname : user.isValidUserMemory filenamePtr 64 = false
  · rw [if_pos hname] at h
    cases h
    exact ⟨rfl, iff_of_true hrefl (.inl hname)⟩
  rw [if_neg hname] at h
  by_cases hargs : 0 < argsLen ∧ user.isValidUserMemory argsPtr argsLen = false
  · rw [if_pos hargs] at h
    cases h
    exact ⟨rfl, iff_of_true hrefl (.inr (.inl hargs))⟩
  rw [if_neg hargs] at h
  dsimp only at h
  cases hfile : env.findFile (user.execFilename filenamePtr) with
  | none =>
    rw [hfile] at h
    cases h
    exact ⟨rfl, iff_of_true hrefl (.inr (.inr (.inl rfl)))⟩
  | some elf =>
    rw [hfile] at h
    rcases free_or_full s.memory.allocator with ⟨⟨f, hf⟩, hfree⟩ | ⟨-, hfull⟩
    · obtain ⟨st, pml4, hcreate, hwas, hholds⟩ := createIsolatedPml4_of_free hf
      rw [hcreate] at h
      obtain ⟨hnow, htasks⟩ := execInto_spec hm hholds h
      refine ⟨htasks hneg, iff_of_false (fun hkept => ?_) ?_⟩
      · -- the frame of the PML4 was free and is taken now
        unfold Holds at hnow
        rw [hkept.free, hwas] at hnow
        cases hnow
      · rintro (hbad | hbad | hbad | hbad)
        · exact hname hbad
        · exact hargs hbad
        · cases hbad
        · exact hfree hbad
    · rw [createIsolatedPml4_of_full hfull] at h
      cases h
      exact ⟨rfl, iff_of_true hrefl (.inr (.inr (.inr hfull)))⟩

end

/-! ### Two failed calls -/

/-- Memory of six frames, all of them free but the one that holds the current PML4. -/
def sixFrames : ExecState where
  memory := ⟨fun _ _ => .unused,
    ⟨6, #v[0x01#8], #v[1#16, 0#16, 0#16, 0#16, 0#16, 0#16], 0⟩⟩
  tasks := .empty

/-- Every name is that of an empty file. -/
def emptyFiles : ExecEnv where
  mapper := .reference
  profile := .release
  findFile _ := some ⟨fun _ => 0, 0, by decide⟩
  currentPml4 := 0
  nextId := 2
  stack := some 0x100000

/-- A caller whose memory holds `a` everywhere, and the string `a` at `0x1000`. -/
def callerMemory : UserMemory where
  bytes i := if i = 0x1001 then 0 else 0x61
  isUserPageMapped _ := true

/-- The frame that holds the current PML4, and no other. -/
def oneFrame : ExecState where
  memory := ⟨fun _ _ => .unused, ⟨1, #v[0x01#8], #v[1#16], 0⟩⟩
  tasks := .empty

/-- Without a free frame the call fails and leaves nothing behind. -/
theorem execve_failure_keeps_books_one_frame :
    ∃ s', sysExecve emptyFiles oneFrame callerMemory 0x1000 0x1000 2 = some (s', -12) ∧
      BooksKept oneFrame s' := by
  obtain ⟨⟨s', rax⟩, hcall, rfl⟩ :
      ∃ r ∈ sysExecve emptyFiles oneFrame callerMemory 0x1000 0x1000 2, r.2 = -12 := by
    decide +kernel
  have hfull : ∀ f, oneFrame.memory.allocator.testBit f = true := by
    intro f
    cases f with
    | zero => decide
    | succ f => exact testBit_of_ge (Nat.succ_le_succ (Nat.zero_le f))
  have hiff := execve_failure_keeps_books_iff LookupMapper.documented_reference.mapper hcall
    (by decide)
  exact ⟨s', hcall, hiff.2.mpr (.inr (.inr (.inr hfull)))⟩

/-- An empty file is refused, and the five frames of its address space are lost. -/
theorem execve_loses_frames :
    ∃ s', sysExecve emptyFiles sixFrames callerMemory 0x1000 0x1000 2 = some (s', -22) ∧
      ¬ BooksKept sixFrames s' := by
  obtain ⟨⟨s', rax⟩, hcall, rfl, hbits⟩ :
      ∃ r ∈ sysExecve emptyFiles sixFrames callerMemory 0x1000 0x1000 2,
      r.2 = -22 ∧ ∀ f < 6, r.1.memory.allocator.testBit f = true := by decide +kernel
  refine ⟨s', hcall, fun hkept => ?_⟩
  have hfree : sixFrames.memory.allocator.testBit 1 = false := by decide
  have hbit : s'.memory.allocator.testBit 1 = true := hbits 1 (by decide)
  rw [hkept.free, hfree] at hbit
  cases hbit

end NwinOs.Core
