import NwinOs.Mm.Equiv.AddressSpace
import NwinOs.Paging.FrameBytes
import NwinOs.Paging.Tree

/-!
# The page tables of the user half

The target of the loader and of the memory system calls is a PML4 whose user half is a tree of page
tables, all of them in frames that are in use (`UserTree`).  A new PML4 has such a tree when the one
it was made from has (`UserTree.createIsolatedPml4`).
-/

namespace NwinOs.Tasking

open Paging Mm BitmapFrameAllocator Function

/-- The slots of a PML4 that translate the user half. -/
def userSlot (i : ℕ) : Prop := i < 256

/-- The frame is in use. -/
def busy (a : BitmapFrameAllocator) (f : ℕ) : Prop := a.testBit f = true

/-- The page tables of the user half, with the given places, form a tree of frames in use. -/
abbrev UserTree (pml4 : ℕ) (place : ℕ → Option (List ℕ)) (st : MemoryState) : Prop :=
  TreeInUse userSlot busy pml4 place st.mem st.allocator

/-- The byte at a virtual address. -/
def readByte (mem : Memory) (pml4 va : ℕ) : Option Byte :=
  (Paging.translate mem pml4 va).map fun tr => mem.bytes tr.frame (va % FRAME_SIZE)

/-! ### Frames that are handed out -/

theorem allocateFrame_busy (a : BitmapFrameAllocator) : a.allocateFrame = (a, none) ∨
    ∃ f a', a.allocateFrame = (a', some (f * FRAME_SIZE)) ∧ ¬ busy a f ∧ busy a' f ∧
      ∀ g, busy a g → busy a' g := by
  rcases allocateFrame_spec a with hnone | ⟨f, a', ha, hfree, -, hbit, -⟩
  · exact .inl hnone
  · refine .inr ⟨f, a', ha, ?_, ?_, fun g hg => ?_⟩
    · unfold busy
      rw [hfree]
      exact Bool.false_ne_true
    · simp [busy, hbit]
    · have hg' : a.testBit g = true := hg
      rw [busy, hbit, hg', Bool.true_or]

theorem allocates_systemAllocateFrame : Allocates systemAllocateFrame busy := by
  intro mem a
  unfold systemAllocateFrame
  rcases allocateFrame_busy a with hnone | ⟨f, a', ha, hfree, hbusy, hmono⟩
  · exact .inl ⟨a, by rw [hnone], fun _ hg => hg⟩
  · have hframe : f * FRAME_SIZE / FRAME_SIZE = f := Nat.mul_div_cancel _ (by decide)
    exact .inr ⟨f, a', by simp only [ha, hframe], hfree, hbusy, hmono⟩

variable {place : ℕ → Option (List ℕ)}

theorem UserTree.take {pml4 f : ℕ} {st : MemoryState}
    {a : BitmapFrameAllocator} (h : UserTree pml4 place st)
    (ha : st.allocator.allocateFrame = (a, some (f * FRAME_SIZE))) :
    ¬ busy st.allocator f ∧ busy a f ∧ (∀ g, busy st.allocator g → busy a g) ∧ place f = none ∧
      TreeInUse userSlot busy pml4 place st.mem a := by
  rcases allocateFrame_busy st.allocator with hnone | ⟨f', a', ha', hfree, hbusy, hmono⟩
  · rw [hnone] at ha
    cases congrArg Prod.snd ha
  · obtain ⟨rfl, hframe⟩ := Prod.mk.inj (ha.symm.trans ha')
    obtain rfl : f = f' := Nat.eq_of_mul_eq_mul_right (by decide) (Option.some.inj hframe)
    refine ⟨hfree, hbusy, hmono, ?_, h.tree, fun t ht => hmono t (h.busy t ht)⟩
    by_contra hplaced
    exact hfree (h.busy f hplaced)

/-- **The target of a spawn**: a PML4 that is made from one with a tree of page tables has one, too.
-/
theorem UserTree.createIsolatedPml4 {current new : ℕ}
    {st st' : MemoryState} (h : UserTree current place st)
    (hrun : Mm.createIsolatedPml4 st current = (st', some new)) :
    ∃ place', UserTree new place' st' := by
  unfold Mm.createIsolatedPml4 at hrun
  rcases allocates_systemAllocateFrame st.mem st.allocator with
    ⟨a, hnone, -⟩ | ⟨f, a, hsome, hfree, hbusy, hmono⟩
  · rw [hnone] at hrun
    cases hrun
  rw [hsome] at hrun
  cases hrun
  have hplaced : ∀ t path, place t = some path → t ≠ new := by
    rintro t path ht rfl
    exact hfree (h.busy t (by simp [ht]))
  -- the new table takes the place of the current one, the tables below are shared
  set place' : ℕ → Option (List ℕ) :=
    fun t => if t = new then some [] else if t = current then none else place t with hplace'
  have hbelow : ∀ t path i, place t = some (path ++ [i]) → place' t = some (path ++ [i]) := by
    intro t path i ht
    have hcurrent : t ≠ current := by
      rintro rfl
      rw [h.tree.root] at ht
      simp at ht
    simp only [hplace', if_neg (hplaced t _ ht), if_neg hcurrent, ht]
  have hold : ∀ t path, t ≠ new → place' t = some path → place t = some path := by
    intro t path hne ht
    simp only [hplace', if_neg hne] at ht
    split_ifs at ht
    exact ht
  refine ⟨place', ⟨by simp [hplace'], fun t path i ht hlen hslot hused hhuge => ?_⟩, fun t ht => ?_⟩
  · by_cases hnew : t = new
    · -- an entry of the new table is unused or the current table's
      subst hnew
      have hnil : path = [] := by
        simp only [hplace', if_true] at ht
        exact (Option.some.inj ht).symm
      subst hnil
      have hne := hplaced current [] h.tree.root
      have hentry := h.tree.entry current [] i h.tree.root (by simp) hslot
      simp only [update_self, isolatedTable, Memory.zero_of_ne hne] at hused hhuge ⊢
      split_ifs at hused hhuge ⊢
      · obtain ⟨hpresent, hnext⟩ := hentry hused hhuge
        exact ⟨hpresent, hbelow _ [] i hnext⟩
      · obtain ⟨hpresent, hnext⟩ := hentry hused hhuge
        exact ⟨hpresent, hbelow _ [] i hnext⟩
      · cases hused
    · have hsame : update (st.mem.zero new) new
          (isolatedTable (st.mem.zero new current)) t = st.mem t :=
        (update_of_ne hnew ..).trans (Memory.zero_of_ne hnew)
      simp only [hsame] at hused hhuge ⊢
      obtain ⟨hpresent, hnext⟩ := h.tree.entry t path i (hold t path hnew ht) hlen hslot hused hhuge
      exact ⟨hpresent, hbelow _ path i hnext⟩
  · by_cases hnew : t = new
    · exact hnew ▸ hbusy
    · obtain ⟨path, hpath⟩ := Option.ne_none_iff_exists'.mp ht
      exact hmono t (h.busy t (by simp [hold t path hnew hpath]))

theorem userSlot_page {n : ℕ} (h : n < 2 ^ 35) : userSlot (index (n * FRAME_SIZE) 3) := by
  unfold userSlot index FRAME_SIZE
  omega

theorem pageNumber_page {n : ℕ} (h : n < 2 ^ 35) : pageNumber (n * FRAME_SIZE) = n := by
  unfold pageNumber FRAME_SIZE
  omega

end NwinOs.Tasking
