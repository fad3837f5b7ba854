import NwinOs.Core.Equiv.MapPages

/-!
# The program break over whole runs

`HeapState` is one task's heap: memory and the task's record.  Its runs are calls of `sys_brk` with
any arguments, between which the rest of the system may do anything that leaves the task's page
tables and pages in place.  `HeapCovered` holds in every state of a run: the break is in its range,
and every page from the start of the heap to the end of the break's page is mapped.  Growing keeps
it because the loop starts at the end of the last page that is mapped; shrinking and growth that
fails keep it because pages are never unmapped.

`sysBrkChecked` is the call with the arithmetic of a build profile; in these states no operation of
it overflows (`sysBrkChecked_eq`).  `brk_invariant` puts the results together.
-/

namespace NwinOs.Core

open Paging Mm Tasking Option

/-! ### The call -/

/-- The requests that `sys_brk` tries to grant. -/
def UserTask.Admissible (task : UserTask) (requestedBrk : ℕ) : Prop :=
  requestedBrk ≠ 0 ∧ task.heapStart ≤ requestedBrk ∧ requestedBrk < 0x700000000000

instance (task : UserTask) (requestedBrk : ℕ) : Decidable (task.Admissible requestedBrk) :=
  inferInstanceAs (Decidable (_ ∧ _))

/-- The page loop of `sys_brk`, with the arithmetic of a profile; `none` is a panic. -/
def mapPagesFrom (m : Mapper) (p : Profile) (targetPml4 currentPageEnd : ℕ) :
    ℕ → ℕ → MemoryState → Option (MemoryState × Except MemoryError Unit)
  | 0, _, st => some (st, .ok ())
  | pages + 1, i, st => do
    let virtAddr ← virtAddrNew (← p.add 64 currentPageEnd (← p.mul 64 i 0x1000))
    match allocateAndMapUserPage m st targetPml4 virtAddr with
    | (st, .error e) => some (st, .error e)
    | (st, .ok ()) => mapPagesFrom m p targetPml4 currentPageEnd pages (i + 1) st

/-- `(addr + 0xFFF) & !0xFFF` with the arithmetic of a profile. -/
def pageEndChecked (p : Profile) (addr : ℕ) : Option ℕ :=
  (p.add 64 addr 0xFFF).map fun sum => sum / 4096 * 4096

/-- `sys_brk` with the arithmetic of a profile; `none` is a panic. -/
def sysBrkChecked (m : Mapper) (p : Profile) (st : MemoryState) (task : UserTask)
    (requestedBrk : ℕ) : Option Outcome :=
  if requestedBrk = 0 then some (st, task, task.programBreak)
  else if requestedBrk < task.heapStart ∨ 0x700000000000 ≤ requestedBrk then
    some (st, task, task.programBreak)
  else do
    let currentPageEnd ← pageEndChecked p task.programBreak
    let newPageEnd ← pageEndChecked p requestedBrk
    if currentPageEnd < newPageEnd then
      let pages := (← p.sub 64 newPageEnd currentPageEnd) / 0x1000
      match ← mapPagesFrom m p task.pml4Frame currentPageEnd pages 0 st with
      | (st, .error _) => return (st, task, task.programBreak)
      | (st, .ok ()) => return (st, { task with programBreak := requestedBrk }, requestedBrk)
    else return (st, { task with programBreak := requestedBrk }, requestedBrk)

section

variable {m : Mapper} {p : Profile} {st : MemoryState} {task : UserTask} {requestedBrk q : ℕ}

theorem sysBrk_of_not_admissible (h : ¬ task.Admissible requestedBrk) :
    sysBrk m st task requestedBrk = (st, task, task.programBreak) := by
  unfold UserTask.Admissible at h
  unfold sysBrk
  split_ifs with hzero hrange
  · rfl
  · rfl
  · omega

theorem brkPages_of_le (h : pageEnd requestedBrk ≤ pageEnd task.programBreak) :
    brkPages task requestedBrk = [] := by
  rw [brkPages, Nat.sub_eq_zero_of_le h]
  rfl

theorem sysBrk_of_admissible (h : task.Admissible requestedBrk) :
    sysBrk m st task requestedBrk =
      match mapPages m task.pml4Frame st (brkPages task requestedBrk) with
      | (st, .error _) => (st, task, task.programBreak)
      | (st, .ok ()) => (st, { task with programBreak := requestedBrk }, requestedBrk) := by
  obtain ⟨hzero, hlow, hhigh⟩ := h
  unfold sysBrk
  rw [if_neg hzero, if_neg (by omega)]
  by_cases hgrow : pageEnd task.programBreak < pageEnd requestedBrk
  · simp only [if_pos hgrow]
    rfl
  · simp only [if_neg hgrow]
    rw [brkPages_of_le (Nat.le_of_not_lt hgrow)]
    rfl

theorem mem_brkPages : q ∈ brkPages task requestedBrk ↔
    ∃ i, i < (pageEnd requestedBrk - pageEnd task.programBreak) / 0x1000 ∧
      q = pageEnd task.programBreak + i * 4096 :=
  mem_pageAddrs

section

variable (h : requestedBrk < 0x700000000000)
include h

theorem pageEnd_lt : pageEnd requestedBrk < 2 ^ 47 := by
  unfold pageEnd
  omega

theorem brkPages_lt (hq : q ∈ brkPages task requestedBrk) : q < 2 ^ 47 := by
  obtain ⟨i, hi, rfl⟩ := mem_brkPages.mp hq
  have := pageEnd_lt h
  omega

theorem pairwise_brkPages :
    (brkPages task requestedBrk).Pairwise fun q q' => pageNumber q ≠ pageNumber q' := by
  have := pageEnd_lt h
  by_cases hgrow : pageEnd task.programBreak < pageEnd requestedBrk
  · exact pairwise_pageAddrs (by omega)
  · rw [brkPages_of_le (Nat.le_of_not_lt hgrow)]
    exact List.Pairwise.nil

end

/-! ### The arithmetic -/

theorem mapPagesFrom_eq {pml4 base : ℕ} : ∀ {pages i : ℕ} {st : MemoryState},
    base + (i + pages) * 4096 ≤ 2 ^ 47 →
      mapPagesFrom m p pml4 base pages i st =
        some (mapPages m pml4 st ((List.range' i pages).map fun i => base + i * 4096)) := by
  intro pages
  induction pages with
  | zero => exact fun _ => rfl
  | succ pages ih =>
    intro i st hroom
    have hmul : p.mul 64 i 0x1000 = some (i * 4096) := Profile.mul_eq_some (by omega)
    have hadd : p.add 64 base (i * 4096) = some (base + i * 4096) := Profile.add_eq_some (by omega)
    have haddr : virtAddrNew (base + i * 4096) = some (base + i * 4096) :=
      virtAddrNew_user (by omega)
    have hnext : i + 1 + pages = i + (pages + 1) := by omega
    rw [mapPagesFrom, List.range'_succ, List.map_cons, mapPages]
    simp only [hmul, hadd, haddr, bind_eq_bind, bind_some]
    rcases allocateAndMapUserPage m st pml4 (base + i * 4096) with ⟨st₁, e | u⟩
    · rfl
    · exact ih (hnext ▸ hroom)

theorem pageEndChecked_eq {addr : ℕ} (h : addr < 0x700000000000) :
    pageEndChecked p addr = some (pageEnd addr) := by
  have hadd : p.add 64 addr 0xFFF = some (addr + 0xFFF) := Profile.add_eq_some (by omega)
  rw [pageEndChecked, hadd]
  rfl

/-- **No operation of the call overflows** when the break is in its range. -/
theorem sysBrkChecked_eq (hbreak : task.programBreak < 0x700000000000) :
    sysBrkChecked m p st task requestedBrk = some (sysBrk m st task requestedBrk) := by
  unfold sysBrkChecked sysBrk
  split_ifs with hzero hrange
  · rfl
  · rfl
  have hcurrent := @pageEndChecked_eq p task.programBreak (by omega)
  have hnew := @pageEndChecked_eq p requestedBrk (by omega)
  simp only [hcurrent, hnew, bind_eq_bind, bind_some]
  by_cases hgrow : pageEnd task.programBreak < pageEnd requestedBrk
  · have hend := @pageEnd_lt requestedBrk (by omega)
    have hsub : p.sub 64 (pageEnd requestedBrk) (pageEnd task.programBreak) =
        some (pageEnd requestedBrk - pageEnd task.programBreak) := Profile.sub_eq_some hgrow.le
    have hloop := @mapPagesFrom_eq m p task.pml4Frame (pageEnd task.programBreak)
      ((pageEnd requestedBrk - pageEnd task.programBreak) / 0x1000) 0 st (by omega)
    rw [← List.range_eq_range'] at hloop
    simp only [if_pos hgrow, hsub, hloop, bind_some]
    rw [← pageAddrs]
    rcases mapPages m task.pml4Frame st (pageAddrs (pageEnd task.programBreak)
      ((pageEnd requestedBrk - pageEnd task.programBreak) / 0x1000)) with ⟨st₁, e | u⟩
    · rfl
    · rfl
  · simp only [if_neg hgrow]
    rfl

end

/-! ### Runs -/

/-- Every leaf of the user half that is in use is present. -/
def LeavesPresent (mem : Memory) (pml4 : ℕ) : Prop :=
  ∀ va, userSlot (index va 3) → (leaf mem va 3 pml4).isUnused = false →
    (leaf mem va 3 pml4).present = true

/-- Memory and one task. -/
structure HeapState where
  memory : MemoryState
  task : UserTask

/-- What happens to a heap: a call of the task, or anything else in the system, which may change
memory and the cursor of `sys_mmap`. -/
inductive HeapAction
  | brk (requestedBrk : ℕ)
  | other (memory : MemoryState) (mmapBase : ℕ)

namespace HeapState

/-- One step; the output is `rax` of a call. -/
def step (m : Mapper) (s : HeapState) : HeapAction → Option (HeapState × ℕ)
  | .brk requestedBrk =>
    let o := sysBrk m s.memory s.task requestedBrk
    some (⟨o.1, o.2.1⟩, o.2.2)
  | .other memory mmapBase => some (⟨memory, { s.task with mmapBase := mmapBase }⟩, 0)

/-- The page tables of the task form a tree of frames in use, without leaves that are in use but not
present. -/
def HasTables (pml4 : ℕ) (st : MemoryState) : Prop :=
  (∃ place, UserTree pml4 place st) ∧ LeavesPresent st.mem pml4

/-- A new task. -/
def Initial (s : HeapState) : Prop :=
  ∃ pml4, s.task = UserTask.new pml4 ∧ HasTables pml4 s.memory

/-- The rest of the system keeps the task's tables, and the pages that are mapped.  The arguments of
calls are arbitrary. -/
def Guard (s : HeapState) : HeapAction → Prop
  | .brk _ => True
  | .other memory _ => HasTables s.task.pml4Frame memory ∧
      ∀ va, userSlot (index va 3) → (leaf s.memory.mem va 3 s.task.pml4Frame).isUnused = false →
        (leaf memory.mem va 3 s.task.pml4Frame).isUnused = false

/-- The break is in its range, and the heap is mapped up to the end of the break's page. -/
structure HeapCovered (s : HeapState) : Prop where
  start : s.task.heapStart = 0x200000000
  low : s.task.heapStart ≤ s.task.programBreak
  high : s.task.programBreak < 0x700000000000
  tables : HasTables s.task.pml4Frame s.memory
  covered : ∀ va, s.task.heapStart ≤ va → va < pageEnd s.task.programBreak →
    (leaf s.memory.mem va 3 s.task.pml4Frame).isUnused = false

variable {m : Mapper} {s s' : HeapState} {a : HeapAction} {rax : ℕ}

theorem Initial.covered (h : s.Initial) : s.HeapCovered := by
  obtain ⟨pml4, htask, htables⟩ := h
  obtain ⟨memory, task⟩ := s
  obtain rfl : task = UserTask.new pml4 := htask
  have hrange : (0x200000000 : ℕ) < 0x700000000000 := by decide
  refine ⟨rfl, le_rfl, hrange, htables, fun va hlow hhigh => ?_⟩
  -- the heap of a new task is empty
  have hend : pageEnd 0x200000000 = 0x200000000 := by decide
  have hhigh' : va < pageEnd 0x200000000 := hhigh
  have hlow' : 0x200000000 ≤ va := hlow
  omega

section

variable (hm : m.Documented)
include hm

/-- The page loop keeps the tables and what is mapped. -/
theorem HasTables.mapPages {pml4 : ℕ} {st : MemoryState} (h : HasTables pml4 st)
    {vas : List ℕ} (hslots : ∀ q ∈ vas, userSlot (index q 3)) :
    HasTables pml4 (mapPages m pml4 st vas).1 ∧
      (∀ va, userSlot (index va 3) → (leaf st.mem va 3 pml4).isUnused = false →
        (leaf (Core.mapPages m pml4 st vas).1.mem va 3 pml4).isUnused = false) ∧
      ((Core.mapPages m pml4 st vas).2 = .ok () →
        ∀ q ∈ vas, (leaf (Core.mapPages m pml4 st vas).1.mem q 3 pml4).isUnused = false) := by
  obtain ⟨⟨place, htree⟩, hpresent⟩ := h
  obtain ⟨place', hmaps, hall⟩ := UserTree.mapPages_maps hm htree hslots
  refine ⟨⟨⟨place', hmaps.tree⟩, fun va hva hused => ?_⟩, fun va hva hused => ?_, hall⟩
  · cases hbefore : (leaf st.mem va 3 pml4).isUnused with
    | false =>
      rw [hmaps.kept va hva hbefore]
      exact hpresent va hva hbefore
    | true =>
      rcases hmaps.fresh va hva hbefore with hstill | ⟨f, hleaf, -⟩
      · rw [hstill] at hused
        cases hused
      · rw [hleaf]
        rfl
  · rw [hmaps.kept va hva hused]
    exact hused

/-- A call keeps the heap covered. -/
theorem HeapCovered.brk (h : s.HeapCovered) (requestedBrk : ℕ) :
    HeapCovered ⟨(sysBrk m s.memory s.task requestedBrk).1,
      (sysBrk m s.memory s.task requestedBrk).2.1⟩ := by
  by_cases hadm : s.task.Admissible requestedBrk
  swap
  · rw [sysBrk_of_not_admissible hadm]
    exact h
  have hlow := hadm.2.1
  have hhigh := hadm.2.2
  have hslots : ∀ q ∈ brkPages s.task requestedBrk, userSlot (index q 3) :=
    fun q hq => userSlot_user (brkPages_lt hhigh hq)
  obtain ⟨htables, hkept, hall⟩ := h.tables.mapPages hm hslots
  have hold : ∀ va, s.task.heapStart ≤ va → va < pageEnd s.task.programBreak →
      (leaf (mapPages m s.task.pml4Frame s.memory (brkPages s.task requestedBrk)).1.mem va 3
        s.task.pml4Frame).isUnused = false := by
    intro va hfrom hto
    have := pageEnd_lt h.high
    exact hkept va (userSlot_user (by omega)) (h.covered va hfrom hto)
  rw [sysBrk_of_admissible hadm]
  rcases hloop : mapPages m s.task.pml4Frame s.memory (brkPages s.task requestedBrk) with
    ⟨st₁, e | u⟩
  · rw [hloop] at htables hold
    exact ⟨h.start, h.low, h.high, htables, hold⟩
  · rw [hloop] at htables hold hall
    refine ⟨h.start, hlow, hhigh, htables, fun va hfrom hto => ?_⟩
    by_cases hmapped : va < pageEnd s.task.programBreak
    · exact hold va hfrom hmapped
    · -- a page of the loop
      have hto' : va < pageEnd requestedBrk := hto
      have hpage : va / 4096 * 4096 ∈ brkPages s.task requestedBrk := by
        refine mem_brkPages.mpr ⟨(va - pageEnd s.task.programBreak) / 4096, ?_, ?_⟩
        · unfold pageEnd at hmapped hto' ⊢
          omega
        · unfold pageEnd at hmapped hto' ⊢
          omega
      have := hall rfl _ hpage
      rwa [leaf_page] at this

/-- **One step.** -/
theorem HeapCovered.step (h : s.HeapCovered) (hg : s.Guard a)
    (hs : s.step m a = some (s', rax)) : s'.HeapCovered := by
  cases a with
  | brk requestedBrk =>
    cases hs
    exact h.brk hm requestedBrk
  | other memory mmapBase =>
    cases hs
    obtain ⟨htables, hkept⟩ := hg
    refine ⟨h.start, h.low, h.high, htables, fun va hfrom hto => ?_⟩
    have hend := pageEnd_lt h.high
    have hto' : va < pageEnd s.task.programBreak := hto
    exact hkept va (userSlot_user (by omega)) (h.covered va hfrom hto)

/-- **Every state of a run.** -/
theorem covered_of_reach (h : Transition.Reach (step m) Initial Guard s) : s.HeapCovered :=
  h.invariant (fun _ => Initial.covered) fun _ _ _ _ hc hg hs => hc.step hm hg hs

end

/-- A page of a covered heap is translated. -/
theorem HeapCovered.translate (h : s.HeapCovered) {va : ℕ}
    (hbelow : va / 4096 * 4096 < s.task.programBreak)
    (habove : s.task.heapStart < va / 4096 * 4096 + 4096) :
    ∃ tr, Paging.translate s.memory.mem s.task.pml4Frame va = some tr := by
  have hstart := h.start
  have hhigh := h.high
  have hused : (leaf s.memory.mem va 3 s.task.pml4Frame).isUnused = false := by
    refine h.covered va (by omega) ?_
    unfold pageEnd
    omega
  have hpresent := h.tables.2 va (userSlot_user (by omega)) hused
  have hne : leaf s.memory.mem va 3 s.task.pml4Frame ≠ .unused := by
    intro hnone
    rw [hnone] at hused
    cases hused
  obtain ⟨t, ht, hentry⟩ := leafTable_of_leaf hne
  rw [← hentry] at hpresent
  exact ⟨_, translate_of_leafTable ht hpresent⟩

theorem HeapCovered.granted_iff (h : s.HeapCovered) (requestedBrk : ℕ) :
    (sysBrk m s.memory s.task requestedBrk).2.1.programBreak = requestedBrk ↔
      s.task.Admissible requestedBrk ∧
        (mapPages m s.task.pml4Frame s.memory (brkPages s.task requestedBrk)).2 = .ok () := by
  by_cases hadm : s.task.Admissible requestedBrk
  · rw [sysBrk_of_admissible hadm]
    rcases hloop : mapPages m s.task.pml4Frame s.memory (brkPages s.task requestedBrk) with
      ⟨st₁, e | u⟩
    · -- the loop had pages to map, so the request is above the break
      refine ⟨fun hsame => ?_, fun hgranted => (nomatch hgranted.2)⟩
      have hsame' : s.task.programBreak = requestedBrk := hsame
      rw [brkPages_of_le (by rw [hsame'])] at hloop
      cases hloop
    · exact iff_of_true rfl ⟨hadm, rfl⟩
  · rw [sysBrk_of_not_admissible hadm]
    refine iff_of_false ?_ fun hgranted => hadm hgranted.1
    intro hsame
    have hsame' : s.task.programBreak = requestedBrk := hsame
    have hstart := h.start
    have hlow := h.low
    have hhigh := h.high
    exact hadm ⟨by omega, by omega, by omega⟩

theorem sysBrk_answer (s : HeapState) (requestedBrk : ℕ) :
    (sysBrk m s.memory s.task requestedBrk).2.2 =
        (sysBrk m s.memory s.task requestedBrk).2.1.programBreak ∧
      (¬ (s.task.Admissible requestedBrk ∧
          (mapPages m s.task.pml4Frame s.memory (brkPages s.task requestedBrk)).2 = .ok ()) →
        (sysBrk m s.memory s.task requestedBrk).2.1 = s.task) := by
  by_cases hadm : s.task.Admissible requestedBrk
  · rw [sysBrk_of_admissible hadm]
    rcases mapPages m s.task.pml4Frame s.memory (brkPages s.task requestedBrk) with ⟨st₁, e | u⟩
    · exact ⟨rfl, fun _ => rfl⟩
    · exact ⟨rfl, fun hnot => absurd ⟨hadm, rfl⟩ hnot⟩
  · rw [sysBrk_of_not_admissible hadm]
    exact ⟨rfl, fun _ => rfl⟩

/-- **The program break**, in every state of every run: it is in its range and the heap below it is
mapped; a call answers with the break in force after it, which is the request iff the request is
admissible and its pages can be mapped, and otherwise what it was; and nothing overflows. -/
theorem brk_invariant (hm : m.Documented) (h : Transition.Reach (step m) Initial Guard s) :
    (s.task.heapStart ≤ s.task.programBreak ∧ s.task.programBreak < 0x700000000000) ∧
    (∀ va, va / 4096 * 4096 < s.task.programBreak → s.task.heapStart < va / 4096 * 4096 + 4096 →
      ∃ tr, Paging.translate s.memory.mem s.task.pml4Frame va = some tr) ∧
    ∀ requestedBrk,
      (sysBrk m s.memory s.task requestedBrk).2.2 =
        (sysBrk m s.memory s.task requestedBrk).2.1.programBreak ∧
      ((sysBrk m s.memory s.task requestedBrk).2.1.programBreak = requestedBrk ↔
        s.task.Admissible requestedBrk ∧
          (mapPages m s.task.pml4Frame s.memory (brkPages s.task requestedBrk)).2 = .ok ()) ∧
      (¬ (s.task.Admissible requestedBrk ∧
          (mapPages m s.task.pml4Frame s.memory (brkPages s.task requestedBrk)).2 = .ok ()) →
        (sysBrk m s.memory s.task requestedBrk).2.1 = s.task) ∧
      ∀ p, sysBrkChecked m p s.memory s.task requestedBrk =
        some (sysBrk m s.memory s.task requestedBrk) := by
  have hc := covered_of_reach hm h
  refine ⟨⟨hc.low, hc.high⟩, fun va hbelow habove => hc.translate hbelow habove,
    fun requestedBrk => ?_⟩
  obtain ⟨hanswer, hnot⟩ := @sysBrk_answer m s requestedBrk
  exact ⟨hanswer, hc.granted_iff requestedBrk, hnot, fun p => sysBrkChecked_eq hc.high⟩

/-- A heap of two bytes: one page is mapped. -/
theorem brk_invariant_two_bytes : ∃ s : HeapState,
    Transition.Reach (step (.reference _)) Initial Guard s ∧
    s.task.programBreak = 0x200000002 ∧
    ∃ tr, Paging.translate s.memory.mem s.task.pml4Frame 0x200000FFF = some tr := by
  have hinit : Initial ⟨emptyTarget, .new 0⟩ := by
    refine ⟨0, rfl, ⟨_, emptyTarget_tree⟩, fun va _ hused => ?_⟩
    cases hused
  have hguard : Guard ⟨emptyTarget, .new 0⟩ (.brk 0x200000002) := trivial
  have hrun : Transition.Reach (step (.reference _)) Initial Guard
      ⟨(sysBrk (.reference _) emptyTarget (.new 0) 0x200000002).1,
        (sysBrk (.reference _) emptyTarget (.new 0) 0x200000002).2.1⟩ :=
    .next (.start hinit) hguard rfl
  have hheap : (sysBrk (.reference _) emptyTarget (.new 0) 0x200000002).2.1
      = { UserTask.new 0 with programBreak := 0x200000002 } := by decide +kernel
  refine ⟨_, hrun, by rw [hheap],
    (brk_invariant (OffsetPageTable.documented_reference _) hrun).2.1 _ ?_ ?_⟩
  · rw [hheap]
    decide
  · rw [hheap]
    decide

end HeapState

end NwinOs.Core
