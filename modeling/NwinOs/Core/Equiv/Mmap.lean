import NwinOs.Core.Equiv.SyscallMemory
import NwinOs.Tasking.Equiv.Elf

/-!
# What the address that `sys_mmap` returns grants

A successful call answers for a range of bytes, but maps pages: as many as the rounded length has,
from the page of the start address on, and only those that have no mapping yet.
`UserTree.opens_mapPages` says which pages may be written from user mode after the loop, from the
memory before it, and `mmap_grants_iff` when all bytes of the range lie in such pages.  They do not
when the start is not at a page boundary and the range ends in one page more, when a page was mapped
before with fewer rights, and when the rounded length has wrapped around to zero.
-/

namespace NwinOs.Core

open Paging Mm Tasking List

/-- A user program may write the byte: the address is canonical, and its page is mapped present,
writable and user-accessible.  An entry of the level-4 table with the huge-page bit maps nothing. -/
def UserWritable (mem : Memory) (pml4 va : ℕ) : Prop :=
  (va < 2 ^ 47 ∨ 2 ^ 64 - 2 ^ 47 ≤ va ∧ va < 2 ^ 64) ∧
    (mem pml4 (index va 3)).hugePage = false ∧
    ∃ tr, Paging.translate mem pml4 va = some tr ∧ tr.rights = ⟨true, true⟩

theorem userWritable_iff {mem : Memory} {pml4 va : ℕ} (h : va < 2 ^ 47) :
    UserWritable mem pml4 va ↔ opens mem (fun _ => false) va 4 pml4 = true := by
  rw [UserWritable, translate_opens_iff]
  exact and_iff_right (.inl h)

/-- The pages that have no mapping. -/
def unmapped (mem : Memory) (pml4 : ℕ) (vas : List ℕ) : List ℕ :=
  vas.filter fun q => !Paging.translatePage mem q 3 pml4

/-- The byte may be written once the pages `new` are mapped: it is in one of them, or in a page that
is open when the parent entries count that it shares with them. -/
def grants (mem : Memory) (pml4 : ℕ) (new : List ℕ) (counts : ℕ → Bool) (va : ℕ) : Bool :=
  new.any (fun q => pageNumber q = pageNumber va) ||
    opens mem (fun k => counts k || new.any fun q => sharesParent q va k) va 4 pml4

section

variable {m : Mapper} {st st' : MemoryState} {pml4 q va : ℕ} {place : ℕ → Option (List ℕ)}
  {counts : ℕ → Bool} {vas : List ℕ}

variable (mem : Memory)

theorem unmapped_cons (pml4 q : ℕ) (vas : List ℕ) :
    unmapped mem pml4 (q :: vas) = unmapped mem pml4 [q] ++ unmapped mem pml4 vas := by
  rw [unmapped, ← singleton_append, filter_append]
  rfl

theorem grants_nil (pml4 : ℕ) (counts : ℕ → Bool) (va : ℕ) :
    grants mem pml4 [] counts va = opens mem counts va 4 pml4 := by
  simp only [grants, any_nil, Bool.false_or, Bool.or_false]

theorem grants_append (pml4 : ℕ) (new new' : List ℕ) (counts : ℕ → Bool) (va : ℕ) :
    grants mem pml4 (new ++ new') counts va =
      (new'.any (fun q => pageNumber q = pageNumber va) ||
        grants mem pml4 new (fun k => counts k || new'.any fun q => sharesParent q va k) va) := by
  have hcounts : ∀ k, (counts k || (new ++ new').any fun q => sharesParent q va k) =
      ((counts k || new'.any fun q => sharesParent q va k) ||
        new.any fun q => sharesParent q va k) := by
    intro k
    rw [any_append, Bool.or_assoc, Bool.or_comm (new.any _)]
  simp only [grants, hcounts]
  rw [any_append, Bool.or_comm (new.any _), Bool.or_assoc]

/-- **One page**: a page without a mapping gets one, and counts for those that share its parents. -/
theorem UserTree.opens_mapPage (hm : m.Documented) (h : UserTree pml4 place st)
    (hq : userSlot (index q 3)) (hmap : allocateAndMapUserPage m st pml4 q = (st', .ok ())) :
    ∃ place', UserTree pml4 place' st' ∧
      (∀ va, userSlot (index va 3) → pageNumber va ≠ pageNumber q →
        leaf st'.mem va 3 pml4 = leaf st.mem va 3 pml4) ∧
      ∀ va counts, userSlot (index va 3) →
        opens st'.mem counts va 4 pml4 = grants st.mem pml4 (unmapped st.mem pml4 [q])
          counts va := by
  rcases allocateAndMapUserPage_cases hm st pml4 q with
    ⟨htranslated, hrun⟩ |
    ⟨htranslated, ⟨-, hrun⟩ | ⟨f, a, mem₁, a₁, ha, ⟨_, _, hrun⟩ | ⟨hto, hrun⟩⟩⟩
  · have hnone : unmapped st.mem pml4 [q] = [] := by simp [unmapped, htranslated]
    rw [hrun] at hmap
    cases hmap
    refine ⟨place, h, fun _ _ _ => rfl, fun va counts _ => ?_⟩
    rw [hnone, grants_nil]
  · rw [hrun] at hmap
    cases hmap
  · rw [hrun] at hmap
    cases hmap
  · rw [hrun] at hmap
    cases hmap
    have hone : unmapped st.mem pml4 [q] = [q] := by simp [unmapped, htranslated]
    obtain ⟨-, hbusy, -, hplace, htree⟩ := h.take ha
    obtain ⟨place₁, htree₁, -, hdata₁, hother₁, -⟩ :=
      htree.mapTo allocates_systemAllocateFrame hq hto
    -- the frame that is cleared at last holds no table
    have hspare := (hdata₁ f hplace hbusy).1
    obtain ⟨htree₂, hleaf₂⟩ := htree₁.congr (mem₁.zero f) fun t => zero_of_placed hspare
    refine ⟨place₁, htree₂, fun va hva hne => ?_, fun va counts hva => ?_⟩
    · exact (hleaf₂ va hva).trans (hother₁ va hva hne)
    · have hopens : opens (mem₁.zero f) counts va 4 pml4 = opens mem₁ counts va 4 pml4 := by
        refine htree₁.tree.opens_congr_entry htree₁.tree.root rfl hva ?_ fun t path ht _ => ?_
        · rw [zero_of_placed hspare (by simp [htree₁.tree.root])]
        · exact zero_of_placed hspare (by simp [ht])
      rw [hopens, htree.opens_mapTo allocates_systemAllocateFrame hq hva hto, hone, grants]
      by_cases hsame : pageNumber q = pageNumber va
      · simp only [hsame, if_true, any_cons, decide_true, Bool.true_or]
      · simp only [hsame, if_false, any_cons, any_nil, decide_false, Bool.or_false, Bool.false_or]

/-- **All pages of a call**: afterwards a page may be written iff the pages that had no mapping
grant it. -/
theorem UserTree.opens_mapPages (hm : m.Documented) :
    ∀ {vas : List ℕ} {place : ℕ → Option (List ℕ)} {st : MemoryState}, UserTree pml4 place st →
      (∀ q ∈ vas, userSlot (index q 3)) → vas.Pairwise (fun q q' => pageNumber q ≠ pageNumber q') →
      mapPages m pml4 st vas = (st', .ok ()) →
      ∀ va counts, userSlot (index va 3) →
        opens st'.mem counts va 4 pml4 = grants st.mem pml4 (unmapped st.mem pml4 vas)
          counts va := by
  intro vas
  induction vas with
  | nil =>
    intro place st _ _ _ hrun va counts _
    cases hrun
    exact (grants_nil _ pml4 counts va).symm
  | cons q vas ih =>
    intro place st h hslots hdistinct hrun va counts hva
    rw [mapPages] at hrun
    split at hrun
    · cases hrun
    rename_i st₁ hpage
    obtain ⟨hne, hdistinct'⟩ := pairwise_cons.mp hdistinct
    obtain ⟨place₁, h₁, hleaf, hopens⟩ :=
      UserTree.opens_mapPage hm h (hslots q mem_cons_self) hpage
    have hslots' : ∀ q' ∈ vas, userSlot (index q' 3) :=
      fun q' hq' => hslots q' (mem_cons_of_mem q hq')
    -- the other pages are mapped as before
    have hsame : unmapped st₁.mem pml4 vas = unmapped st.mem pml4 vas := by
      refine filter_congr fun q' hq' => ?_
      rw [translatePage_eq_leaf, translatePage_eq_leaf, hleaf q' (hslots' q' hq') (hne q' hq').symm]
    rw [ih h₁ hslots' hdistinct' hrun va counts hva, hsame, unmapped_cons, grants_append, grants,
      hopens va _ hva]

end

/-! ### The system call -/

section

variable {m : Mapper} {st : MemoryState} {task : UserTask} {addr length flags size start : ℕ}
  {o : Outcome} {va pages : ℕ}

/-- The rounded length is exact unless the addition wraps, and zero then. -/
theorem allocSize_release (hlength : length < 2 ^ 64) :
    allocSize .release length =
      some (if length ≤ 2 ^ 64 - 4096 then (length + 4095) / 4096 * 4096 else 0) := by
  rw [allocSize, Profile.add, Profile.checked_release, Option.map_some]
  congr 1
  split_ifs <;> omega

theorem sysMmap_ok {p : Profile} (hflags : flags &&& 0x20 ≠ 0)
    (hrun : sysMmap m p st task addr length flags = some o) (hret : o.2.2 < 2 ^ 64 - 4095) :
    ∃ size, allocSize p length = some size ∧ mmapInRange (task.startAddr addr) size = true ∧
      o.2.2 = task.startAddr addr ∧
      mapPages m task.pml4Frame st (pageAddrs (task.startAddr addr) (size / 4096))
        = (o.1, .ok ()) := by
  have herror : ¬ negative 12 < 2 ^ 64 - 4095 := by decide
  obtain ⟨size, hsize, ⟨-, rfl⟩ | ⟨hrange, hloop⟩⟩ := sysMmap_cases hflags hrun
  · exact absurd hret herror
  · rcases hloop with ⟨st', e, -, rfl⟩ | ⟨st', hpages, rfl⟩
    · exact absurd hret herror
    · exact ⟨size, hsize, hrange, rfl, hpages⟩

theorem mmapInRange_iff :
    mmapInRange start size = true ↔ 0x1000 ≤ start ∧ start + size < 2 ^ 47 := by
  unfold mmapInRange
  rw [decide_eq_true_iff]
  omega

theorem mem_pageAddrs {q : ℕ} : q ∈ pageAddrs start pages ↔ ∃ i < pages, q = start + i * 4096 := by
  simp only [pageAddrs, mem_map, mem_range, eq_comm]

theorem pageNumber_user (h : va < 2 ^ 47) : pageNumber va = va / 4096 := by
  unfold pageNumber
  omega

theorem userSlot_user (h : va < 2 ^ 47) : userSlot (index va 3) := by
  unfold userSlot index
  omega

theorem pairwise_pageAddrs (h : start + pages * 4096 ≤ 2 ^ 47) :
    (pageAddrs start pages).Pairwise fun q q' => pageNumber q ≠ pageNumber q' := by
  refine pairwise_map.mpr (List.Pairwise.imp_of_mem ?_ pairwise_lt_range)
  intro i j hi hj hlt
  have hj' := mem_range.mp hj
  rw [pageNumber_user (by omega), pageNumber_user (by omega)]
  omega

/-- The call answers for all bytes of the range: its rounded length has not wrapped, and each byte
is granted by the pages of the call that have no mapping yet. -/
structure Granted (st : MemoryState) (task : UserTask) (addr length : ℕ) : Prop where
  fits : length ≤ 2 ^ 64 - 4096
  bytes : ∀ b, task.startAddr addr ≤ b → b < task.startAddr addr + length →
    grants st.mem task.pml4Frame
      (unmapped st.mem task.pml4Frame
        (pageAddrs (task.startAddr addr) ((length + 4095) / 4096))) (fun _ => false) b = true

/-- **`sys_mmap` grants what it returns iff the range is granted before the call.** -/
theorem mmap_grants_iff (hm : m.Documented) {place : ℕ → Option (List ℕ)}
    (htree : UserTree task.pml4Frame place st) (hlength : length < 2 ^ 64)
    (hflags : flags &&& 0x20 ≠ 0)
    (hrun : sysMmap m .release st task addr length flags = some o)
    (hret : o.2.2 < 2 ^ 64 - 4095) :
    (∀ b, o.2.2 ≤ b → b < o.2.2 + length → UserWritable o.1.mem task.pml4Frame b) ↔
      Granted st task addr length := by
  obtain ⟨size, hsize, hrange, hstart, hpages⟩ := sysMmap_ok hflags hrun hret
  rw [allocSize_release hlength] at hsize
  rw [hstart]
  obtain ⟨hlow, hhigh⟩ := mmapInRange_iff.mp hrange
  by_cases hfits : length ≤ 2 ^ 64 - 4096
  · rw [if_pos hfits, Option.some.injEq] at hsize
    have hcount : size / 4096 = (length + 4095) / 4096 := by omega
    rw [hcount] at hpages
    -- every byte of the range is below the end of the user half
    have hbyte : ∀ b, task.startAddr addr ≤ b → b < task.startAddr addr + length →
        (UserWritable o.1.mem task.pml4Frame b ↔
          grants st.mem task.pml4Frame
            (unmapped st.mem task.pml4Frame
              (pageAddrs (task.startAddr addr) ((length + 4095) / 4096)))
            (fun _ => false) b = true) := by
      intro b hfrom hto
      have hb : b < 2 ^ 47 := by omega
      rw [userWritable_iff hb, UserTree.opens_mapPages hm htree (fun q hq => ?_)
        (pairwise_pageAddrs (by omega)) hpages b _ (userSlot_user hb)]
      obtain ⟨i, hi, rfl⟩ := mem_pageAddrs.mp hq
      exact userSlot_user (by omega)
    constructor
    · exact fun hall => ⟨hfits, fun b hfrom hto => (hbyte b hfrom hto).mp (hall b hfrom hto)⟩
    · exact fun hgranted b hfrom hto => (hbyte b hfrom hto).mpr (hgranted.bytes b hfrom hto)
  · -- the range leaves the user half, and the first address behind it is not canonical
    constructor
    · intro hall
      obtain ⟨hcanonical, -⟩ := hall (2 ^ 47) (by omega) (by omega)
      omega
    · exact fun hgranted => absurd hgranted.fits hfits

/-- Two new pages for 5000 bytes at the task's `mmapBase`. -/
theorem mmap_grants_two_pages : ∃ o : Outcome,
    sysMmap (.reference _) .release emptyTarget (.new 0) 0 5000 0x22 = some o ∧
    o.2.2 = 0x400000000000 ∧
    ∀ b, o.2.2 ≤ b → b < o.2.2 + 5000 → UserWritable o.1.mem 0 b := by
  obtain ⟨o, hrun, hret⟩ :
      ∃ o ∈ sysMmap (.reference _) .release emptyTarget (.new 0) 0 5000 0x22,
      o.2.2 = 0x400000000000 := by decide +kernel
  have hnew : unmapped emptyTarget.mem (UserTask.new 0).pml4Frame
      (pageAddrs ((UserTask.new 0).startAddr 0) ((5000 + 4095) / 4096))
        = [0x400000000000, 0x400000001000] := by decide +kernel
  have hgranted : Granted emptyTarget (.new 0) 0 5000 := by
    refine ⟨by decide, fun b hfrom hto => ?_⟩
    have hstart : (UserTask.new 0).startAddr 0 = 0x400000000000 := rfl
    rw [hstart] at hfrom hto
    rw [hnew, grants, pageNumber_user (by omega)]
    have hpage : b / 4096 = 0x400000000 ∨ b / 4096 = 0x400000001 := by omega
    rcases hpage with hb | hb <;> rw [hb] <;> rfl
  refine ⟨o, hrun, hret, (mmap_grants_iff (OffsetPageTable.documented_reference _) emptyTarget_tree
    (by decide) (by decide) hrun ?_).mpr hgranted⟩
  rw [hret]
  decide

theorem UserWritable.rights {mem : Memory} {pml4 : ℕ} (h : UserWritable mem pml4 va) :
    (Paging.translate mem pml4 va).map (·.rights) = some ⟨true, true⟩ := by
  obtain ⟨-, -, tr, htr, hrights⟩ := h
  rw [htr, Option.map_some, hrights]

/-- The call returns `a`, and a user program may not write the byte `b` then. -/
def ReturnsWithout (run : Option Outcome) (pml4 a b : ℕ) : Prop :=
  ∃ o ∈ run, o.2.2 = a ∧ (Paging.translate o.1.mem pml4 b).map (·.rights) ≠ some ⟨true, true⟩

instance (run : Option Outcome) (pml4 a b : ℕ) : Decidable (ReturnsWithout run pml4 a b) :=
  run.decidableExistsMem

theorem ReturnsWithout.not_userWritable {run : Option Outcome} {pml4 a b : ℕ}
    (h : ReturnsWithout run pml4 a b) :
    ∃ o, run = some o ∧ o.2.2 = a ∧ ¬ UserWritable o.1.mem pml4 b := by
  obtain ⟨o, hrun, hret, hrights⟩ := h
  exact ⟨o, hrun, hret, fun hwritable => hrights hwritable.rights⟩

/-- **Three calls that return an address without granting it**, by a task that the kernel has just
created: a start inside a page, whose last bytes lie in a page that is not mapped; a page of the
kernel heap, which stays a supervisor page; and a length that wraps around, so that nothing is
mapped. -/
theorem mmap_returns_without_granting : ∃ (s : AddressSpaces) (task : UserTask),
    Transition.Reach (AddressSpaces.step (.reference _) .release)
      (AddressSpaces.Initial AddressSpaces.heapKernel) Transition.anyAction s ∧
    s.tasks 1 = some task ∧
    (∃ o : Outcome, sysMmap (.reference _) .release s.memory task 0x400800 0x1000 0x22 = some o ∧
      o.2.2 = 0x400800 ∧ ¬ UserWritable o.1.mem task.pml4Frame 0x401000) ∧
    (∃ o : Outcome, sysMmap (.reference _) .release s.memory task HEAP_START 0x1000 0x22 = some o ∧
      o.2.2 = HEAP_START ∧ ¬ UserWritable o.1.mem task.pml4Frame HEAP_START) ∧
    ∃ o : Outcome, sysMmap (.reference _) .release s.memory task 0x400000 (2 ^ 64 - 1)
      0x22 = some o ∧
      o.2.2 = 0x400000 ∧ ¬ UserWritable o.1.mem task.pml4Frame 0x400000 := by
  obtain ⟨⟨s, e⟩, hs, task, htask, hinside, hheap, hwrapped⟩ :
      ∃ r ∈ AddressSpaces.heapBoot.step (.reference _) .release (.create 1 none),
      ∃ task ∈ r.1.tasks 1,
      ReturnsWithout (sysMmap (.reference _) .release r.1.memory task 0x400800 0x1000 0x22)
        task.pml4Frame 0x400800 0x401000 ∧
      ReturnsWithout (sysMmap (.reference _) .release r.1.memory task HEAP_START 0x1000 0x22)
        task.pml4Frame HEAP_START HEAP_START ∧
      ReturnsWithout (sysMmap (.reference _) .release r.1.memory task 0x400000 (2 ^ 64 - 1) 0x22)
        task.pml4Frame 0x400000 0x400000 := by decide +kernel
  exact ⟨s, task, .next (.start AddressSpaces.heapBoot_initial) trivial hs, htask,
    hinside.not_userWritable, hheap.not_userWritable, hwrapped.not_userWritable⟩

end

end NwinOs.Core
