import NwinOs.Core.SyscallMemory
import NwinOs.Mm.Equiv.AddressSpace

/-!
# Isolation of the address spaces over whole runs

Every step of `AddressSpaces` whose mapped pages stay out of the slots shared with the kernel goes
from an owned memory to an owned memory and keeps the frames of the kernel and of all other tasks
(`Isolated.step`).  `address_space_isolation` is what that means for translations and reference
counts.  `mmap_changes_kernel_space` shows what happens without the condition: the kernel heap lies
in the lower half, its slot is shared, and `sysMmap` takes any address of the lower half.
-/

namespace NwinOs.Core

open Paging Mm Tasking Function Option

/-- The kernel heap is mapped, and not for user mode. -/
def HeapSupervisor (k : KernelSpace) : Prop :=
  ∀ va, HEAP_START ≤ va → va < HEAP_START + HEAP_SIZE →
    ∃ tr, Paging.translate k.mem k.pml4 va = some tr ∧ tr.rights.user = false

namespace AddressSpaces

/-- The state in which the first task is created: the kernel runs on its own tables, its frames are
in use, and there is no user task. -/
structure Initial (k : KernelSpace) (s : AddressSpaces) : Prop where
  mem : s.memory.mem = k.mem
  kernelPml4 : s.kernelPml4 = k.pml4
  tasks : ∀ id, s.tasks id = none
  coherent : s.memory.allocator.Coherent
  busy : ∀ f, k.frames f → s.memory.allocator.testBit f = true
  heap : HeapSupervisor k

/-- The PML4s of the live tasks. -/
def roots (s : AddressSpaces) (id : TaskId) : Option ℕ := (s.tasks id).map (·.pml4Frame)

/-- The memory of all tasks follows an ownership map. -/
def Isolated (k : KernelSpace) (s : AddressSpaces) (own : ℕ → Option (TaskId × List ℕ)) : Prop :=
  s.kernelPml4 = k.pml4 ∧ Owned k s.roots own s.memory

end AddressSpaces

/-! ### The pages of a system call -/

/-- The pages that `sysMmap` maps, if it gets that far. -/
def mmapPages (p : Profile) (task : UserTask) (addr length : ℕ) : List ℕ :=
  ((allocSize p length).filter (mmapInRange (task.startAddr addr))).elim [] fun size =>
    pageAddrs (task.startAddr addr) (size / 4096)

/-- The pages that `sysBrk` maps, if it gets that far. -/
def brkPages (task : UserTask) (requestedBrk : ℕ) : List ℕ :=
  pageAddrs (pageEnd task.programBreak)
    ((pageEnd requestedBrk - pageEnd task.programBreak) / 0x1000)

/-- The pages that an action maps for its task. -/
def SpaceAction.pages (p : Profile) (task : UserTask) : SpaceAction → List ℕ
  | .mmap _ addr length _ => mmapPages p task addr length
  | .brk _ requestedBrk => brkPages task requestedBrk
  | .create .. | .reap _ => []

/-- Every page that the action maps is in a slot of the PML4 that is not shared with the kernel. -/
def OutsideShared (p : Profile) (k : KernelSpace) (s : AddressSpaces) (a : SpaceAction) : Prop :=
  ∀ task ∈ s.tasks a.task, ∀ va ∈ a.pages p task, ¬ k.Shared (index va 3)

instance (p : Profile) (k : KernelSpace) (s : AddressSpaces) (a : SpaceAction) :
    Decidable (OutsideShared p k s a) :=
  inferInstanceAs (Decidable (∀ _ ∈ _, _))

section Calls

variable {m : Mapper} {p : Profile} {k : KernelSpace} {A : TaskId} {roots : TaskId → Option ℕ}
  {own : ℕ → Option (TaskId × List ℕ)} {st : MemoryState}

theorem owned_mapPages (hm : m.Documented) {pml4 : ℕ} (hpml4 : roots A = some pml4) :
    ∀ {vas : List ℕ} {own : ℕ → Option (TaskId × List ℕ)} {st : MemoryState},
      Owned k roots own st → (∀ va ∈ vas, ¬ k.Shared (index va 3)) →
      ∃ own', Owned k roots own' (mapPages m pml4 st vas).1 ∧
        Keeps k A own st own' (mapPages m pml4 st vas).1 := by
  intro vas
  induction vas with
  | nil => exact fun h _ => ⟨_, h, Keeps.refl⟩
  | cons va vas ih =>
    intro own st h hslot
    obtain ⟨own₁, h₁, hkeep₁, -⟩ := h.allocateAndMapUserPage hm hpml4 (hslot va (by simp))
    rw [mapPages]
    split
    · rename_i st₁ e hpage
      rw [hpage] at h₁ hkeep₁
      exact ⟨own₁, h₁, hkeep₁⟩
    · rename_i st₁ hpage
      rw [hpage] at h₁ hkeep₁
      obtain ⟨own₂, h₂, hkeep₂⟩ := ih h₁ fun va' hva => hslot va' (by simp [hva])
      exact ⟨own₂, h₂, hkeep₁.trans hkeep₂⟩

variable {task : UserTask}

variable {o : Outcome}

theorem sysMmap_cases {addr length flags : ℕ}
    (hflags : flags &&& 0x20 ≠ 0) (h : sysMmap m p st task addr length flags = some o) :
    ∃ size, allocSize p length = some size ∧
      ((mmapInRange (task.startAddr addr) size = false ∧ o = (st, task, negative 12)) ∨
      mmapInRange (task.startAddr addr) size = true ∧
        ((∃ st' e, mapPages m task.pml4Frame st (pageAddrs (task.startAddr addr) (size / 4096))
            = (st', .error e) ∧ o = (st', task, negative 12)) ∨
        ∃ st', mapPages m task.pml4Frame st (pageAddrs (task.startAddr addr) (size / 4096))
            = (st', .ok ()) ∧
          o = (st', if addr = 0 then { task with mmapBase := task.mmapBase + size } else task,
            task.startAddr addr))) := by
  unfold sysMmap at h
  rw [if_neg hflags] at h
  obtain ⟨size, hsize, hres⟩ := map_eq_some_iff.mp h
  refine ⟨size, hsize, ?_⟩
  by_cases hrange : mmapInRange (task.startAddr addr) size = true
  · refine .inr ⟨hrange, ?_⟩
    rw [if_pos hrange] at hres
    rcases hpages : mapPages m task.pml4Frame st (pageAddrs (task.startAddr addr) (size / 4096))
      with ⟨st', e | u⟩
    · rw [hpages] at hres
      exact .inl ⟨st', e, rfl, hres.symm⟩
    · rw [hpages] at hres
      exact .inr ⟨st', rfl, hres.symm⟩
  · rw [if_neg hrange] at hres
    exact .inl ⟨Bool.eq_false_of_not_eq_true hrange, hres.symm⟩

theorem mmapPages_of_inRange {addr length size : ℕ} (hsize : allocSize p length = some size)
    (hrange : mmapInRange (task.startAddr addr) size = true) :
    mmapPages p task addr length = pageAddrs (task.startAddr addr) (size / 4096) := by
  rw [mmapPages, hsize, filter_some, hrange]
  rfl

theorem sysMmap_spec {addr length flags : ℕ} (h : sysMmap m p st task addr length flags = some o) :
    o.2.1.pml4Frame = task.pml4Frame ∧
      (o.1 = st ∨ o.1 = (mapPages m task.pml4Frame st (mmapPages p task addr length)).1) := by
  by_cases hflags : flags &&& 0x20 = 0
  · rw [sysMmap, if_pos hflags] at h
    obtain rfl := Option.some.inj h
    exact ⟨rfl, .inl rfl⟩
  obtain ⟨size, hsize, ⟨-, rfl⟩ | ⟨hrange, hloop⟩⟩ := sysMmap_cases hflags h
  · exact ⟨rfl, .inl rfl⟩
  · rw [mmapPages_of_inRange hsize hrange]
    rcases hloop with ⟨st', e, hpages, rfl⟩ | ⟨st', hpages, rfl⟩
    · exact ⟨rfl, .inr (by rw [hpages])⟩
    · refine ⟨?_, .inr (by rw [hpages])⟩
      split_ifs <;> rfl

theorem sysBrk_spec (m : Mapper) (st : MemoryState) (task : UserTask) (requestedBrk : ℕ) :
    (sysBrk m st task requestedBrk).2.1.pml4Frame = task.pml4Frame ∧
      ((sysBrk m st task requestedBrk).1 = st ∨
        (sysBrk m st task requestedBrk).1
          = (mapPages m task.pml4Frame st (brkPages task requestedBrk)).1) := by
  unfold sysBrk
  split_ifs with hzero hrange
  · exact ⟨rfl, .inl rfl⟩
  · exact ⟨rfl, .inl rfl⟩
  · dsimp only
    split_ifs with hgrow
    · split
      · rename_i st' e hpages
        exact ⟨rfl, .inr (by rw [brkPages, hpages])⟩
      · rename_i st' hpages
        exact ⟨rfl, .inr (by rw [brkPages, hpages])⟩
    · exact ⟨rfl, .inl rfl⟩

end Calls

/-! ### One step -/

namespace AddressSpaces

variable {m : Mapper} {p : Profile} {k : KernelSpace} {s s' : AddressSpaces} {a : SpaceAction}
  {own : ℕ → Option (TaskId × List ℕ)} {rax : ℕ}

/-- What a step on a task does to the memory of all: the new map, and what it keeps. -/
def StepKeeps (k : KernelSpace) (A : TaskId) (s : AddressSpaces)
    (own : ℕ → Option (TaskId × List ℕ)) (s' : AddressSpaces) : Prop :=
  (∀ id, id ≠ A → s'.tasks id = s.tasks id) ∧
    ∃ own', Isolated k s' own' ∧ Keeps k A own s.memory own' s'.memory

theorem roots_update (s : AddressSpaces) (st : MemoryState) (id : TaskId) (t : Option UserTask) :
    ({ s with memory := st, tasks := update s.tasks id t } : AddressSpaces).roots
      = update s.roots id (t.map (·.pml4Frame)) := by
  ext1 i
  by_cases hi : i = id
  · subst hi
    simp [roots]
  · simp [roots, hi]

theorem StepKeeps.finish (hm : m.Documented) (h : Isolated k s own) {id : TaskId}
    (ht : s.tasks id = some task) {vas : List ℕ}
    (hpml4 : o.2.1.pml4Frame = task.pml4Frame)
    (ho : o.1 = s.memory ∨ o.1 = (mapPages m task.pml4Frame s.memory vas).1)
    (hvas : ∀ va ∈ vas, ¬ k.Shared (index va 3)) :
    StepKeeps k id s own (s.finish id o).1 := by
  have hroot : s.roots id = some task.pml4Frame := by simp [roots, ht]
  have hroots : (s.finish id o).1.roots = s.roots := by
    have hsame : update s.roots id (some task.pml4Frame) = s.roots :=
      update_eq_self_iff.mpr hroot.symm
    rw [AddressSpaces.finish, roots_update, map_some, hpml4, hsame]
  have hmem : (s.finish id o).1.memory = o.1 := rfl
  refine ⟨fun j hj => update_of_ne hj .., ?_⟩
  unfold Isolated
  rw [hroots, hmem]
  rcases ho with hst | hst
  · rw [hst]
    exact ⟨own, ⟨h.1, h.2⟩, Keeps.refl⟩
  · obtain ⟨own', h', hkeep⟩ := owned_mapPages hm hroot h.2 hvas
    rw [hst]
    exact ⟨own', ⟨h.1, h'⟩, hkeep⟩

/-- **One step** on a task keeps memory owned, and the frames of the kernel and of the others. -/
theorem Isolated.step (hm : m.Documented) (h : Isolated k s own) (ha : OutsideShared p k s a)
    (hstep : s.step m p a = some (s', rax)) : StepKeeps k a.task s own s' := by
  cases a with
  | create id current =>
    simp only [AddressSpaces.step] at hstep
    split_ifs at hstep
    obtain ⟨cur, hcur, hres⟩ := map_eq_some_iff.mp hstep
    have hcur' : cur = k.pml4 ∨ ∃ B, own cur = some (B, []) := by
      cases current with
      | none => exact .inl ((Option.some.inj hcur).symm.trans h.1)
      | some B => exact .inr ⟨B, h.2.root B cur hcur⟩
    rcases h.2.createIsolatedPml4 (A := id) hcur' with
      ⟨st', hc, hown, hkeep⟩ | ⟨f, st', hc, hown, hkeep⟩
    · rw [hc] at hres
      cases hres
      exact ⟨fun _ _ => rfl, own, ⟨h.1, hown⟩, hkeep⟩
    · rw [hc] at hres
      cases hres
      refine ⟨fun j hj => update_of_ne hj .., _, ⟨h.1, ?_⟩, hkeep⟩
      rw [roots_update]
      exact hown
  | mmap id addr length flags =>
    obtain ⟨task, ht, hcall⟩ := bind_eq_some_iff.mp hstep
    obtain ⟨o, ho, hres⟩ := map_eq_some_iff.mp hcall
    obtain ⟨hpml4, hmem⟩ := sysMmap_spec ho
    have := StepKeeps.finish hm h ht hpml4 hmem (ha task ht)
    rwa [hres] at this
  | brk id requestedBrk =>
    obtain ⟨task, ht, hres⟩ := map_eq_some_iff.mp hstep
    obtain ⟨hpml4, hmem⟩ := sysBrk_spec m s.memory task requestedBrk
    have := StepKeeps.finish hm h ht hpml4 hmem (ha task ht)
    rwa [hres] at this
  | reap id =>
    obtain ⟨task, ht, hcall⟩ := bind_eq_some_iff.mp hstep
    obtain ⟨st', hd, hres⟩ := map_eq_some_iff.mp hcall
    cases hres
    have hroot : s.roots id = some task.pml4Frame := by simp [roots, ht]
    obtain ⟨hown, hkeep⟩ := h.2.destroyUserAddressSpace hroot hd
    refine ⟨fun j hj => update_of_ne hj .., _, ⟨h.1, ?_⟩, hkeep⟩
    rw [roots_update]
    exact hown

theorem Initial.isolated (h : Initial k s) : Isolated k s fun _ => none where
  left := h.kernelPml4
  right :=
    { coherent := h.coherent
      kernel_mem := fun f _ => by rw [h.mem]
      kernel_busy := h.busy
      owned_busy := fun f hf => absurd rfl hf
      owned_user := fun f hf => absurd rfl hf
      live := fun f A path hf => by cases hf
      root := fun A f hf => by simp [roots, h.tasks] at hf
      tree := fun A => ⟨fun f i hf => (by cases hf), fun f path i hf => (by cases hf)⟩ }

/-! ### Whole runs -/

/-- **Isolation of the address spaces.**  In every run in which each system call maps only pages
outside the slots shared with the kernel, a step on one task keeps, for the kernel and for every
other task: its PML4, the translation and the rights of every address, the reference count of every
page table it walks, and that of every page it maps (outside the kernel's direct map of all of
physical memory). -/
theorem address_space_isolation (hm : m.Documented)
    (h : Transition.Reach (step m p) (Initial k) (OutsideShared p k) s)
    (ha : OutsideShared p k s a) (hstep : s.step m p a = some (s', rax)) :
    ∀ b : Option TaskId, b ≠ some a.task → ∀ pml4, s.pml4 b = some pml4 →
      s'.pml4 b = some pml4 ∧ ∀ va,
        Paging.translate s'.memory.mem pml4 va = Paging.translate s.memory.mem pml4 va ∧
        (∀ t ∈ tables s.memory.mem va 4 pml4,
          s'.memory.allocator.refCount t = s.memory.allocator.refCount t) ∧
        ∀ tr, Paging.translate s.memory.mem pml4 va = some tr → ¬ k.direct va →
          s'.memory.allocator.refCount tr.frame = s.memory.allocator.refCount tr.frame := by
  have hinv : ∃ own, Isolated k s own := by
    refine h.invariant (P := fun s => ∃ own, Isolated k s own) (fun s hs => ⟨_, hs.isolated⟩) ?_
    rintro s a s' e ⟨own, hown⟩ hg hs
    obtain ⟨-, own', hown', -⟩ := hown.step hm hg hs
    exact ⟨own', hown'⟩
  obtain ⟨own, hown⟩ := hinv
  obtain ⟨htasks, own', hown', hkeep⟩ := hown.step hm ha hstep
  intro b hb pml4 hpml4
  cases b with
  | none =>
    have hk : pml4 = k.pml4 := (Option.some.inj hpml4).symm.trans hown.1
    refine ⟨?_, hown.2.translate_eq hkeep (.inl hk)⟩
    exact congrArg some (hown'.1.trans hk.symm)
  | some B =>
    have hne : B ≠ a.task := fun he => hb (congrArg some he)
    refine ⟨?_, hown.2.translate_eq hkeep (.inr ⟨B, hne, hown.2.root B pml4 hpml4⟩)⟩
    rw [AddressSpaces.pml4, htasks B hne]
    exact hpml4

/-! ### A boot with the kernel heap mapped -/

/-- A supervisor entry. -/
def supervisor (frame : ℕ) : PageTableEntry := ⟨frame, true, true, false, false, 0⟩

/-- Page tables in the frames 2 to 5 that map the kernel heap to the frames 16 to 271. -/
def heapMemory : Memory := fun f i =>
  if f = 2 ∧ i = 136 then supervisor 3
  else if f = 3 ∧ i = 273 then supervisor 4
  else if f = 4 ∧ i = 34 then supervisor 5
  else if f = 5 ∧ 64 ≤ i ∧ i < 320 then supervisor (i - 48)
  else .unused

/-- The kernel with these tables, and no direct map. -/
def heapKernel : KernelSpace := ⟨heapMemory, 2, fun _ => False⟩

/-- Frames 0 to 271 are in use, sixteen more are free. -/
def heapAllocator : BitmapFrameAllocator :=
  { (List.range' 272 16).foldl BitmapFrameAllocator.forceFreeBit (.allBusy 288) with
    lastFreeFrameHint := 272 }

/-- The kernel with its heap, before the first task. -/
def heapBoot : AddressSpaces where
  memory := ⟨heapMemory, heapAllocator⟩
  kernelPml4 := 2
  tasks := fun _ => none

theorem heapMemory_entry (f i : ℕ) :
    (heapMemory f i).frame < 272 ∧ (heapMemory f i).hugePage = false := by
  unfold heapMemory
  split_ifs with h1 h2 h3 h4
  · exact ⟨by decide, rfl⟩
  · exact ⟨by decide, rfl⟩
  · exact ⟨by decide, rfl⟩
  · refine ⟨?_, rfl⟩
    simp only [supervisor]
    omega
  · exact ⟨by decide, rfl⟩

theorem heapKernel_frames {f : ℕ} (h : heapKernel.frames f) : f < 272 := by
  have hrule : ∀ va, (∀ t ∈ tables heapMemory va 4 2, t < 272) ∧
      ∀ tr, Paging.translate heapMemory 2 va = some tr → tr.frame < 272 := by
    intro va
    have hwalk := @walk_rule heapMemory va (fun _ t => t < 272) (fun l t _ _ => ?_) 4 2 (by decide)
    · refine ⟨fun t ht => ?_, fun tr htr => hwalk.2 _ tr htr⟩
      obtain ⟨-, ht⟩ := hwalk.1 t ht
      exact ht
    · have := heapMemory_entry t (index va l)
      exact ⟨by simp [isHuge, this.2], this.1⟩
  rcases h with ⟨va, ht⟩ | ⟨va, tr, -, htr, rfl⟩
  · exact (hrule va).1 f ht
  · exact (hrule va).2 tr htr

theorem heapSupervisor_heapKernel : HeapSupervisor heapKernel := by
  intro va hlo hhi
  simp only [HEAP_START, HEAP_SIZE] at hlo hhi
  have h3 : index va 3 = 136 := by unfold index; omega
  have h2 : index va 2 = 273 := by unfold index; omega
  have h1 : index va 1 = 34 := by unfold index; omega
  have h0 : 64 ≤ index va 0 ∧ index va 0 < 320 := by unfold index; omega
  simp [Paging.translate, walk, heapKernel, heapMemory, h3, h2, h1, h0, supervisor, isHuge,
    Rights.restrict]

theorem heapBoot_initial : Initial heapKernel heapBoot where
  mem := rfl
  kernelPml4 := rfl
  tasks _ := rfl
  coherent := by
    have hfree := BitmapFrameAllocator.Coherent.foldl (l := List.range' 272 16)
      (fun _ i h => h.forceFreeBit i) (BitmapFrameAllocator.coherent_allBusy 288)
    exact hfree.withHint 272
  busy f hf := by
    have hall : ∀ f < 272, heapAllocator.testBit f = true := by decide +kernel
    exact hall f (heapKernel_frames hf)
  heap := heapSupervisor_heapKernel

/-- Two tasks are created, and each maps a page at its `mmapBase`, the second one after the
first. -/
theorem address_space_isolation_first_page : ∃ s s' : AddressSpaces,
    (.reference _ : Mapper).Documented ∧
    Transition.Reach (step (.reference _) .dev) (Initial heapKernel)
      (OutsideShared .dev heapKernel) s ∧
    OutsideShared .dev heapKernel s (.mmap 2 0 4096 0x20) ∧
    s.step (.reference _) .dev (.mmap 2 0 4096 0x20) = some (s', 0x400000000000) ∧
    s.pml4 (some 1) = some 272 ∧ s.pml4 (some 2) = some 273 ∧
    Paging.translate s.memory.mem 273 0x400000000000 = none ∧
    Paging.translate s'.memory.mem 273 0x400000000000 = some ⟨278, ⟨true, true⟩⟩ ∧
    Paging.translate s'.memory.mem 272 0x400000000000 = some ⟨274, ⟨true, true⟩⟩ ∧
    Paging.translate s'.memory.mem 2 HEAP_START = Paging.translate s.memory.mem 2 HEAP_START := by
  obtain ⟨⟨s₁, e₁⟩, hs₁, hguard₁, ⟨s₂, e₂⟩, hs₂, hguard₂, ⟨s, e⟩, hs, hguard,
      ⟨hkernel, hfirst, hsecond⟩, ⟨hpage, hbefore⟩, ⟨s', e'⟩, hs', rfl, hafter⟩ :
      ∃ r₁ ∈ heapBoot.step (.reference _) .dev (.create 1 none),
      OutsideShared .dev heapKernel r₁.1 (.create 2 none) ∧
      ∃ r₂ ∈ r₁.1.step (.reference _) .dev (.create 2 none),
      OutsideShared .dev heapKernel r₂.1 (.mmap 1 0 4096 0x20) ∧
      ∃ r ∈ r₂.1.step (.reference _) .dev (.mmap 1 0 4096 0x20),
      OutsideShared .dev heapKernel r.1 (.mmap 2 0 4096 0x20) ∧
      (r.1.pml4 none = some 2 ∧ r.1.pml4 (some 1) = some 272 ∧ r.1.pml4 (some 2) = some 273) ∧
      (Paging.translate r.1.memory.mem 272 0x400000000000 = some ⟨274, ⟨true, true⟩⟩ ∧
        Paging.translate r.1.memory.mem 273 0x400000000000 = none) ∧
      ∃ q ∈ r.1.step (.reference _) .dev (.mmap 2 0 4096 0x20), q.2 = 0x400000000000 ∧
        Paging.translate q.1.memory.mem 273 0x400000000000 = some ⟨278, ⟨true, true⟩⟩ := by
    decide +kernel
  have hdoc := OffsetPageTable.documented_reference BitmapFrameAllocator
  have hreach : Transition.Reach (step (.reference _) .dev) (Initial heapKernel)
      (OutsideShared .dev heapKernel) s := by
    refine .next (.next (.next (.start heapBoot_initial) (fun task ht => ?_) hs₁) hguard₁ hs₂)
      hguard₂ hs
    cases ht
  have hiso := address_space_isolation hdoc hreach hguard hs'
  have hkept := ((hiso (some 1) (by decide) 272 hfirst).2 0x400000000000).1
  have hheap := ((hiso none (by decide) 2 hkernel).2 HEAP_START).1
  exact ⟨s, s', hdoc, hreach, hguard, hs', hfirst, hsecond, hbefore, hafter, hkept.trans hpage,
    hheap⟩

/-- **`sysMmap` reaches into the kernel.**  The task maps a page behind the heap, in the slot it
shares with the kernel: the page appears in the kernel's own address space.  When the task is
reaped, the teardown follows the shared slot, which `mapTo` has made `USER_ACCESSIBLE`, and releases
the kernel's page tables: the heap is gone. -/
theorem mmap_changes_kernel_space : ∃ s₁ s₂ s₃ : AddressSpaces, (.reference _ : Mapper).Documented ∧
    Transition.Reach (step (.reference _) .dev) (Initial heapKernel) Transition.anyAction s₁ ∧
    s₁.step (.reference _) .dev (.mmap 1 0x4444_4454_0000 4096 0x20)
      = some (s₂, 0x4444_4454_0000) ∧
    s₂.step (.reference _) .dev (.reap 1) = some (s₃, 0) ∧
    -- the mapping shows up in the kernel's table
    s₁.pml4 none = some 2 ∧
    Paging.translate s₁.memory.mem 2 0x4444_4454_0000 = none ∧
    Paging.translate s₂.memory.mem 2 0x4444_4454_0000 = some ⟨273, ⟨false, true⟩⟩ ∧
    -- the teardown releases a table the kernel still walks, and unmaps the heap
    5 ∈ tables s₂.memory.mem HEAP_START 4 2 ∧
    s₂.memory.allocator.refCount 5 = 1 ∧ s₃.memory.allocator.refCount 5 = 0 ∧
    Paging.translate s₂.memory.mem 2 HEAP_START = some ⟨16, ⟨false, true⟩⟩ ∧
    Paging.translate s₃.memory.mem 2 HEAP_START = none := by
  obtain ⟨⟨s₁, e₁⟩, h₁, ⟨hkernel, hbefore⟩, ⟨s₂, e₂⟩, h₂, rfl, ⟨hafter, hmem, hcount₂, hheap₂⟩,
      ⟨s₃, e₃⟩, h₃, rfl, hcount₃, hheap₃⟩ :
      ∃ r₁ ∈ heapBoot.step (.reference _) .dev (.create 1 none),
      (r₁.1.pml4 none = some 2 ∧ Paging.translate r₁.1.memory.mem 2 0x4444_4454_0000 = none) ∧
      ∃ r₂ ∈ r₁.1.step (.reference _) .dev (.mmap 1 0x4444_4454_0000 4096 0x20),
      r₂.2 = 0x4444_4454_0000 ∧
      (Paging.translate r₂.1.memory.mem 2 0x4444_4454_0000 = some ⟨273, ⟨false, true⟩⟩ ∧
        5 ∈ tables r₂.1.memory.mem HEAP_START 4 2 ∧ r₂.1.memory.allocator.refCount 5 = 1 ∧
        Paging.translate r₂.1.memory.mem 2 HEAP_START = some ⟨16, ⟨false, true⟩⟩) ∧
      ∃ r₃ ∈ r₂.1.step (.reference _) .dev (.reap 1), r₃.2 = 0 ∧
        r₃.1.memory.allocator.refCount 5 = 0 ∧
        Paging.translate r₃.1.memory.mem 2 HEAP_START = none := by decide +kernel
  refine ⟨s₁, s₂, s₃, OffsetPageTable.documented_reference _, ?_, h₂, h₃, hkernel, hbefore, hafter,
    hmem, hcount₂, hcount₃, hheap₂, hheap₃⟩
  exact .next (.start heapBoot_initial) trivial h₁

end AddressSpaces

end NwinOs.Core
