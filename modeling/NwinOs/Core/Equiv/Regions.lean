import Mathlib.Order.CompletePartialOrder
import Mathlib.Order.Interval.Set.Disjoint
import NwinOs.Core.Equiv.Brk

/-!
# The regions of anonymous memory

Three things carve up the lower half of a task's address space: the cursor of `sys_mmap`, the
program break, and the addresses that callers choose.  `RegionState` adds to memory and the task's
record the regions that `sys_mmap` has returned; its runs are successful calls of `sys_mmap`, calls
of `sys_brk`, and whatever else happens in the system.

The calls do not look at each other's regions, and a page that is mapped counts as success.  What
keeps the regions apart is the layout: callers choose addresses below the heap, or in the part that
the cursor has passed, and the heap ends where the cursor starts (`Guard`).  Then no page from the
cursor on is mapped (`Partition`), and `mmap_regions_apart` follows for every step of every run.
-/

namespace NwinOs.Core

open Paging Mm Tasking

/-- Where the cursor of `sys_mmap` starts. -/
def mmapStart : ℕ := 0x0000_4000_0000_0000

/-- Memory, one task, and the regions that it has got from `sys_mmap`: address and length. -/
structure RegionState where
  memory : MemoryState
  task : UserTask
  regions : List (ℕ × ℕ)

/-- A successful call of `sys_mmap`, a call of `sys_brk`, or anything else that changes memory. -/
inductive RegionAction
  | mmap (addr length flags : ℕ)
  | brk (requestedBrk : ℕ)
  | other (memory : MemoryState)

namespace RegionState

/-- One step; the output is `rax`. -/
def step (m : Mapper) (p : Profile) (s : RegionState) : RegionAction → Option (RegionState × ℕ)
  | .mmap addr length flags =>
    (sysMmap m p s.memory s.task addr length flags).bind fun o =>
      if o.2.2 < 2 ^ 64 - 4095 then some (⟨o.1, o.2.1, (o.2.2, length) :: s.regions⟩, o.2.2)
      else none
  | .brk requestedBrk =>
    let o := sysBrk m s.memory s.task requestedBrk
    some (⟨o.1, o.2.1, s.regions⟩, o.2.2)
  | .other memory => some ({ s with memory := memory }, 0)

/-- A new task, none of whose pages from the cursor's start up to `top` is mapped. -/
structure Initial (top : ℕ) (s : RegionState) : Prop where
  task : ∃ pml4, s.task = UserTask.new pml4
  regions : s.regions = []
  tree : ∃ place, UserTree s.task.pml4Frame place s.memory
  limit : top ≤ 2 ^ 47
  clear : ∀ va, mmapStart ≤ va → va < top →
    (leaf s.memory.mem va 3 s.task.pml4Frame).isUnused = true

/-- The layout that keeps the regions apart.  Lengths do not wrap when they are rounded up; the
cursor stays below `top`; a caller chooses a range below the heap or in the part that the cursor has
passed; the heap ends where the cursor starts; and nothing else maps pages above the cursor's start.
-/
def Guard (top : ℕ) (s : RegionState) : RegionAction → Prop
  | .mmap addr length _ => length ≤ 2 ^ 64 - 4096 ∧
      if addr = 0 then s.task.mmapBase + pageEnd length ≤ top
      else addr + pageEnd length ≤ s.task.heapStart ∨
        mmapStart ≤ addr ∧ addr + pageEnd length ≤ s.task.mmapBase
  | .brk requestedBrk => s.task.Admissible requestedBrk → requestedBrk ≤ mmapStart
  | .other memory => (∃ place, UserTree s.task.pml4Frame place memory) ∧
      ∀ va, mmapStart ≤ va → va < top →
        (leaf s.memory.mem va 3 s.task.pml4Frame).isUnused = true →
        (leaf memory.mem va 3 s.task.pml4Frame).isUnused = true

/-- The page of the address was not mapped before the step; after it, it is mapped to a frame that
was free, and the byte reads as zero. -/
structure Fresh (s s' : RegionState) (va : ℕ) : Prop where
  unmapped : Paging.translatePage s.memory.mem va 3 s.task.pml4Frame = false
  mapped : ∃ f, ¬ busy s.memory.allocator f ∧
    leaf s'.memory.mem va 3 s.task.pml4Frame = .user f
  zero : readByte s'.memory.mem s.task.pml4Frame va = some 0

/-- What a step has to respect: a region at an address that the kernel chooses is apart from earlier
regions and from the heap, and its pages are fresh; and the heap does not grow over a region. -/
def Respects (s s' : RegionState) (rax : ℕ) : RegionAction → Prop
  | .mmap addr length _ => addr = 0 →
      (∀ r ∈ s.regions, Disjoint (Set.Ico rax (rax + length)) (Set.Ico r.1 (r.1 + r.2))) ∧
      Disjoint (Set.Ico rax (rax + length)) (Set.Ico s.task.heapStart s.task.programBreak) ∧
      ∀ va, rax ≤ va → va < rax + pageEnd length → Fresh s s' va
  | .brk _ => ∀ r ∈ s.regions,
      Disjoint (Set.Ico s.task.programBreak s'.task.programBreak) (Set.Ico r.1 (r.1 + r.2))
  | .other _ => True

/-- The regions are below the heap or behind the cursor's start, the heap is between them, and no
page from the cursor on is mapped. -/
structure Partition (top : ℕ) (s : RegionState) : Prop where
  limit : top ≤ 2 ^ 47
  start : s.task.heapStart = 0x200000000
  heap : s.task.heapStart ≤ s.task.programBreak ∧ s.task.programBreak ≤ mmapStart
  base : mmapStart ≤ s.task.mmapBase ∧ s.task.mmapBase % 4096 = 0
  tree : ∃ place, UserTree s.task.pml4Frame place s.memory
  regions : ∀ r ∈ s.regions, r.1 + r.2 ≤ s.task.heapStart ∨
    mmapStart ≤ r.1 ∧ r.1 + r.2 ≤ s.task.mmapBase
  clear : ∀ va, s.task.mmapBase ≤ va → va < top →
    (leaf s.memory.mem va 3 s.task.pml4Frame).isUnused = true

variable {m : Mapper} {p : Profile} {top rax : ℕ} {s s' : RegionState} {a : RegionAction}

theorem Initial.partition (h : s.Initial top) : s.Partition top := by
  obtain ⟨⟨pml4, htask⟩, hregions, htree, hlimit, hclear⟩ := h
  obtain ⟨memory, task, regions⟩ := s
  obtain rfl : task = UserTask.new pml4 := htask
  obtain rfl : regions = [] := hregions
  refine ⟨hlimit, rfl, ⟨le_rfl, ?_⟩, ⟨le_rfl, ?_⟩, htree, ?_, hclear⟩
  · show (0x200000000 : ℕ) ≤ mmapStart
    decide
  · show mmapStart % 4096 = 0
    decide
  · intro r hr
    cases hr

/-- The loop leaves the pages alone that it is not for. -/
theorem Partition.mapPages (hm : m.Documented) (h : s.Partition top) {vas : List ℕ}
    (huser : ∀ q ∈ vas, q < 2 ^ 47) :
    (∃ place, UserTree s.task.pml4Frame place (mapPages m s.task.pml4Frame s.memory vas).1) ∧
      ∀ va, s.task.mmapBase ≤ va → va < top → (∀ q ∈ vas, va / 4096 ≠ q / 4096) →
        (leaf (Core.mapPages m s.task.pml4Frame s.memory vas).1.mem va 3
          s.task.pml4Frame).isUnused = true := by
  obtain ⟨place, htree⟩ := h.tree
  have hlimit := h.limit
  obtain ⟨place', hmaps, -⟩ := UserTree.mapPages_maps hm htree
    fun q hq => userSlot_user (huser q hq)
  refine ⟨⟨place', hmaps.tree⟩, fun va hbase hva hother => ?_⟩
  have hva' : va < 2 ^ 47 := by omega
  rw [hmaps.others va (userSlot_user hva')]
  · exact h.clear va hbase hva
  · rintro ⟨q, hq, hpage⟩
    rw [pageNumber_user hva', pageNumber_user (huser q hq)] at hpage
    exact hother q hq hpage

theorem step_mmap {addr length flags : ℕ} (hlength : length ≤ 2 ^ 64 - 4096)
    (hs : s.step m p (.mmap addr length flags) = some (s', rax)) :
    rax = s.task.startAddr addr ∧ s.task.startAddr addr + pageEnd length < 2 ^ 47 ∧
      Core.mapPages m s.task.pml4Frame s.memory
        (pageAddrs (s.task.startAddr addr) (pageEnd length / 4096)) = (s'.memory, .ok ()) ∧
      s'.task = (if addr = 0 then { s.task with mmapBase := s.task.mmapBase + pageEnd length }
        else s.task) ∧
      s'.regions = (rax, length) :: s.regions := by
  obtain ⟨o, hrun, hres⟩ := Option.bind_eq_some_iff.mp hs
  split_ifs at hres with hret
  obtain ⟨rfl, rfl⟩ := Prod.mk.inj (Option.some.inj hres)
  have hinvalid : ¬ negative 22 < 2 ^ 64 - 4095 := by decide
  have hflags : flags &&& 0x20 ≠ 0 := by
    intro hnone
    rw [sysMmap, if_pos hnone] at hrun
    obtain rfl := Option.some.inj hrun
    exact absurd hret hinvalid
  have herror : ¬ negative 12 < 2 ^ 64 - 4095 := by decide
  have hadd : p.add 64 length 0xFFF = some (length + 0xFFF) := Profile.add_eq_some (by omega)
  have hsize : allocSize p length = some (pageEnd length) := by
    rw [allocSize, hadd]
    rfl
  obtain ⟨size, hsize', hcases⟩ := sysMmap_cases hflags hrun
  obtain rfl := Option.some.inj (hsize.symm.trans hsize')
  rcases hcases with ⟨-, rfl⟩ | ⟨hrange, ⟨st', e, -, rfl⟩ | ⟨st', hpages, rfl⟩⟩
  · exact absurd hret herror
  · exact absurd hret herror
  · exact ⟨rfl, (mmapInRange_iff.mp hrange).2, hpages, rfl, rfl⟩

theorem mem_pages_iff {start length q : ℕ} : q ∈ pageAddrs start (pageEnd length / 4096) ↔
    ∃ i, q = start + i * 4096 ∧ q < start + pageEnd length := by
  rw [mem_pageAddrs]
  unfold pageEnd
  constructor
  · rintro ⟨i, hi, rfl⟩
    exact ⟨i, rfl, by omega⟩
  · rintro ⟨i, rfl, hlt⟩
    exact ⟨i, by omega, rfl⟩

/-! ### One step -/

theorem Partition.mmap (hm : m.Documented) (h : s.Partition top) {addr length flags : ℕ}
    (hg : s.Guard top (.mmap addr length flags))
    (hs : s.step m p (.mmap addr length flags) = some (s', rax)) : s'.Partition top := by
  obtain ⟨hlength, hplace⟩ := hg
  obtain ⟨hrax, hend, hpages, htask, hregions⟩ := step_mmap hlength hs
  have huser : ∀ q ∈ pageAddrs (s.task.startAddr addr) (pageEnd length / 4096), q < 2 ^ 47 := by
    intro q hq
    obtain ⟨i, rfl, hlt⟩ := mem_pages_iff.mp hq
    omega
  obtain ⟨htree, hothers⟩ := h.mapPages hm huser
  rw [hpages] at htree hothers
  have hle : length ≤ pageEnd length := by
    unfold pageEnd
    omega
  have halign : pageEnd length % 4096 = 0 := by
    unfold pageEnd
    omega
  obtain ⟨hbase, hbaseAlign⟩ := h.base
  have hstart := h.start
  by_cases haddr : addr = 0
  · -- the cursor moves past the pages
    rw [if_pos haddr] at hplace htask
    have hcursor : s.task.startAddr addr = s.task.mmapBase := by
      rw [UserTask.startAddr, if_neg (not_not_intro haddr)]
    refine ⟨h.limit, by rw [htask]; exact h.start, by rw [htask]; exact h.heap, ?_,
      by rw [htask]; exact htree, ?_, ?_⟩
    · rw [htask]
      exact ⟨Nat.le_add_right_of_le hbase, by show (_ + _) % 4096 = 0; omega⟩
    · intro r hr
      rw [hregions] at hr
      rw [htask]
      rcases List.mem_cons.mp hr with rfl | hr
      · right
        show mmapStart ≤ rax ∧ rax + length ≤ s.task.mmapBase + pageEnd length
        omega
      · rcases h.regions r hr with hbelow | ⟨hfrom, hto⟩
        · exact .inl hbelow
        · exact .inr ⟨hfrom, Nat.le_add_right_of_le hto⟩
    · intro va hva htop
      rw [htask] at hva ⊢
      have hva' : s.task.mmapBase + pageEnd length ≤ va := hva
      refine hothers va (by omega) htop fun q hq => ?_
      obtain ⟨i, rfl, hlt⟩ := mem_pages_iff.mp hq
      omega
  · -- the caller's pages are below the cursor
    rw [if_neg haddr] at hplace htask
    have hcaller : s.task.startAddr addr = addr := by
      rw [UserTask.startAddr, if_pos haddr]
    have hmmap : 0x200000000 ≤ mmapStart := by decide
    refine ⟨h.limit, by rw [htask]; exact h.start, by rw [htask]; exact h.heap,
      by rw [htask]; exact h.base, by rw [htask]; exact htree, ?_, ?_⟩
    · intro r hr
      rw [hregions] at hr
      rw [htask]
      rcases List.mem_cons.mp hr with rfl | hr
      · omega
      · exact h.regions r hr
    · intro va hva htop
      rw [htask] at hva ⊢
      refine hothers va hva htop fun q hq => ?_
      obtain ⟨i, rfl, hlt⟩ := mem_pages_iff.mp hq
      omega

theorem Partition.brk (hm : m.Documented) (h : s.Partition top) {requestedBrk : ℕ}
    (hg : s.Guard top (.brk requestedBrk))
    (hs : s.step m p (.brk requestedBrk) = some (s', rax)) : s'.Partition top := by
  cases hs
  by_cases hadm : s.task.Admissible requestedBrk
  swap
  · rw [sysBrk_of_not_admissible hadm]
    exact h
  have hbreak := hg hadm
  have huser : ∀ q ∈ brkPages s.task requestedBrk, q < 2 ^ 47 := fun q hq => brkPages_lt hadm.2.2 hq
  obtain ⟨htree, hothers⟩ := h.mapPages hm huser
  obtain ⟨hbase, -⟩ := h.base
  -- the pages of the heap end where the cursor starts
  have hclear : ∀ va, s.task.mmapBase ≤ va → va < top →
      (leaf (Core.mapPages m s.task.pml4Frame s.memory (brkPages s.task requestedBrk)).1.mem va 3
        s.task.pml4Frame).isUnused = true := by
    intro va hva htop
    refine hothers va hva htop fun q hq => ?_
    obtain ⟨i, hi, rfl⟩ := mem_brkPages.mp hq
    unfold mmapStart at hbreak hbase
    unfold pageEnd at hi ⊢
    omega
  rw [sysBrk_of_admissible hadm]
  rcases hloop : Core.mapPages m s.task.pml4Frame s.memory (brkPages s.task requestedBrk) with
    ⟨st₁, e | u⟩
  · rw [hloop] at htree hclear
    exact ⟨h.limit, h.start, h.heap, h.base, htree, h.regions, hclear⟩
  · rw [hloop] at htree hclear
    exact ⟨h.limit, h.start, ⟨hadm.2.1, hbreak⟩, h.base, htree, h.regions, hclear⟩

/-- **One step keeps the partition.** -/
theorem Partition.step (hm : m.Documented) (h : s.Partition top) (hg : s.Guard top a)
    (hs : s.step m p a = some (s', rax)) : s'.Partition top := by
  cases a with
  | mmap addr length flags => exact h.mmap hm hg hs
  | brk requestedBrk => exact h.brk hm hg hs
  | other memory =>
    cases hs
    obtain ⟨htree, hkept⟩ := hg
    refine ⟨h.limit, h.start, h.heap, h.base, htree, h.regions, fun va hva htop => ?_⟩
    exact hkept va (Nat.le_trans h.base.1 hva) htop (h.clear va hva htop)

/-! ### What a step respects -/

theorem readByte_of_clear {mem : Memory} {pml4 va f : ℕ} (hleaf : leaf mem va 3 pml4 = .user f)
    (hclear : mem f = fun _ => .unused) : readByte mem pml4 va = some 0 := by
  obtain ⟨tr, htr, rfl⟩ := translate_of_leaf hleaf
  rw [readByte, htr, Option.map_some, Memory.bytes_of_clear hclear]

/-- The pages at the cursor are fresh. -/
theorem Partition.fresh (hm : m.Documented) (h : s.Partition top) {length flags va : ℕ}
    (hg : s.Guard top (.mmap 0 length flags))
    (hs : s.step m p (.mmap 0 length flags) = some (s', rax)) (hfrom : rax ≤ va)
    (hto : va < rax + pageEnd length) : Fresh s s' va := by
  obtain ⟨hlength, hplace⟩ := hg
  obtain ⟨hrax, hend, hpages, -, -⟩ := step_mmap hlength hs
  have hcursor : s.task.startAddr 0 = s.task.mmapBase := rfl
  have hplace' : s.task.mmapBase + pageEnd length ≤ top := hplace
  rw [hcursor] at hrax hpages hend
  have huser : ∀ q ∈ pageAddrs s.task.mmapBase (pageEnd length / 4096), q < 2 ^ 47 := by
    intro q hq
    obtain ⟨i, rfl, hlt⟩ := mem_pages_iff.mp hq
    omega
  obtain ⟨place, htree⟩ := h.tree
  obtain ⟨place', hmaps, hall⟩ := UserTree.mapPages_maps hm htree
    fun q hq => userSlot_user (huser q hq)
  rw [hpages] at hmaps hall
  have hunused := h.clear va (by omega) (by omega)
  -- the page of the address is one of the loop's
  have hpage : va / 4096 * 4096 ∈ pageAddrs s.task.mmapBase (pageEnd length / 4096) := by
    have hbase := h.base.2
    refine mem_pages_iff.mpr ⟨(va - s.task.mmapBase) / 4096, ?_, ?_⟩
    · omega
    · omega
  have hmapped := hall rfl _ hpage
  rw [leaf_page] at hmapped
  rcases hmaps.fresh va (userSlot_user (by omega)) hunused with
    hstill | ⟨f, hleaf, hfree, -, -, hclear⟩
  · rw [hstill] at hmapped
    cases hmapped
  · refine ⟨?_, ⟨f, hfree, hleaf⟩, readByte_of_clear hleaf hclear⟩
    rw [translatePage_eq_leaf, hunused]
    rfl

theorem Partition.respects (hm : m.Documented) (h : s.Partition top) (hg : s.Guard top a)
    (hs : s.step m p a = some (s', rax)) : Respects s s' rax a := by
  have hheap := h.heap
  have hbase := h.base.1
  cases a with
  | mmap addr length flags =>
    rintro rfl
    have hrax : rax = s.task.mmapBase := (step_mmap hg.1 hs).1
    refine ⟨fun r hr => ?_, ?_, fun va hfrom hto => h.fresh hm hg hs hfrom hto⟩
    · rw [Set.Ico_disjoint_Ico]
      rcases h.regions r hr with hbelow | ⟨-, hto⟩
      · omega
      · omega
    · rw [Set.Ico_disjoint_Ico]
      omega
  | brk requestedBrk =>
    intro r hr
    have hheap' := (h.brk hm hg hs).heap
    rw [Set.Ico_disjoint_Ico]
    rcases h.regions r hr with hbelow | ⟨hfrom, -⟩
    · omega
    · omega
  | other memory => trivial

/-- **The regions stay apart** in every run that keeps to the layout: a region at an address that
the kernel chooses meets no earlier region and not the heap, its pages are new and read as zero, and
the heap does not grow over a region. -/
theorem mmap_regions_apart (hm : m.Documented)
    (h : Transition.Reach (step m p) (Initial top) (Guard top) s) (hg : s.Guard top a)
    (hs : s.step m p a = some (s', rax)) : Respects s s' rax a := by
  have hpartition : s.Partition top :=
    h.invariant (fun _ => Initial.partition) fun _ _ _ _ hc hg hs => hc.step hm hg hs
  exact hpartition.respects hm hg hs

/-- A new task with nothing mapped. -/
def blank : RegionState := ⟨emptyTarget, .new 0, []⟩

theorem blank_initial : blank.Initial HEAP_START :=
  ⟨⟨0, rfl⟩, rfl, ⟨_, emptyTarget_tree⟩, by decide, fun _ _ _ => rfl⟩

/-- Two regions of one page. -/
theorem mmap_regions_apart_two_pages : ∃ s s' : RegionState,
    s.regions = [(0x400000000000, 0x1000)] ∧
    s.step (.reference _) .release (.mmap 0 0x1000 0x22) = some (s', 0x400000001000) ∧
    Respects s s' 0x400000001000 (.mmap 0 0x1000 0x22) := by
  obtain ⟨⟨s, rax⟩, hs, hregions, htask, ⟨s', rax'⟩, hs', rfl⟩ :
      ∃ r ∈ blank.step (.reference _) .release (.mmap 0 0x1000 0x22),
      r.1.regions = [(0x400000000000, 0x1000)] ∧
      r.1.task = { UserTask.new 0 with mmapBase := 0x400000001000 } ∧
      ∃ q ∈ r.1.step (.reference _) .release (.mmap 0 0x1000 0x22), q.2 = 0x400000001000 := by
    decide +kernel
  have hguard : blank.Guard HEAP_START (.mmap 0 0x1000 0x22) := by
    refine ⟨by decide, ?_⟩
    rw [if_pos rfl]
    decide
  have hguard' : s.Guard HEAP_START (.mmap 0 0x1000 0x22) := by
    refine ⟨by decide, ?_⟩
    rw [if_pos rfl, show s.task = _ from htask]
    decide
  exact ⟨s, s', hregions, hs', mmap_regions_apart (OffsetPageTable.documented_reference _)
    (.next (.start blank_initial) hguard hs) hguard' hs'⟩

/-- **Regions that meet**: after a call for the page at the cursor, a call without an address
returns the same page; and after a call for the first page of the heap, the heap grows over it. -/
theorem mmap_regions_overlap :
    (∃ s s' : RegionState, Transition.Reach (step (.reference _) .release) (Initial HEAP_START)
        Transition.anyAction s ∧ s.regions = [(0x400000000000, 0x1000)] ∧
      s.step (.reference _) .release (.mmap 0 0x1000 0x22) = some (s', 0x400000000000) ∧
      ¬ Respects s s' 0x400000000000 (.mmap 0 0x1000 0x22)) ∧
    ∃ s s' : RegionState, Transition.Reach (step (.reference _) .release) (Initial HEAP_START)
        Transition.anyAction s ∧ s.regions = [(0x200000000, 0x1000)] ∧
      s.step (.reference _) .release (.brk 0x200001000) = some (s', 0x200001000) ∧
      ¬ Respects s s' 0x200001000 (.brk 0x200001000) := by
  constructor
  · obtain ⟨⟨s, rax⟩, hs, hregions, ⟨s', rax'⟩, hs', rfl⟩ :
        ∃ r ∈ blank.step (.reference _) .release (.mmap 0x400000000000 0x1000 0x22),
        r.1.regions = [(0x400000000000, 0x1000)] ∧
        ∃ q ∈ r.1.step (.reference _) .release (.mmap 0 0x1000 0x22), q.2 = 0x400000000000 := by
      decide +kernel
    refine ⟨s, s', .next (.start blank_initial) trivial hs, hregions, hs', fun hrespects => ?_⟩
    have hapart := (hrespects rfl).1 (0x400000000000, 0x1000) (hregions ▸ List.mem_cons_self)
    rw [Set.Ico_disjoint_Ico] at hapart
    exact absurd hapart (by decide)
  · obtain ⟨⟨s, rax⟩, hs, hregions, hbefore, ⟨s', rax'⟩, hs', hafter, rfl⟩ :
        ∃ r ∈ blank.step (.reference _) .release (.mmap 0x200000000 0x1000 0x22),
        r.1.regions = [(0x200000000, 0x1000)] ∧ r.1.task.programBreak = 0x200000000 ∧
        ∃ q ∈ r.1.step (.reference _) .release (.brk 0x200001000),
          q.1.task.programBreak = 0x200001000 ∧ q.2 = 0x200001000 := by decide +kernel
    refine ⟨s, s', .next (.start blank_initial) trivial hs, hregions, hs', fun hrespects => ?_⟩
    have hapart := hrespects (0x200000000, 0x1000) (hregions ▸ List.mem_cons_self)
    rw [hbefore, hafter, Set.Ico_disjoint_Ico] at hapart
    exact absurd hapart (by decide)

end RegionState

end NwinOs.Core
