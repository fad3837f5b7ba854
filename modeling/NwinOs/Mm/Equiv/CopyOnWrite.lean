import NwinOs.Bytes
import NwinOs.Mm.CopyOnWrite
import NwinOs.Mm.Equiv.FrameAllocator

/-!
# What resolving a copy-on-write fault does

For a page that a 4 KiB entry maps, `resolveCowFault` has three outcomes: it refuses, it sets
`WRITABLE`, or it moves the page to a clone of its frame.  The clone is taken from the translated
address, which is the start of the frame only if the fault address is the start of the page;
`cow_fault_resolved_iff` says when the outcome is nevertheless the right one.

The mapper is known through `View`: the level-1 entry of every page, the bytes, and the frames that
hold page tables.  `CowMapper.Documented` says that each operation changes the entry of its own page
only.
-/

namespace NwinOs.Mm

open Paging BitmapFrameAllocator Function

/-- The flags of an entry that maps a 4 KiB page: `unmap` refuses an entry without `PRESENT` and
one with `HUGE_PAGE`. -/
abbrev PageFlags := {fl : PageTableFlags // fl.present = true ∧ fl.hugePage = false}

/-- The flags with `WRITABLE`. -/
def PageFlags.setWritable (fl : PageFlags) : PageFlags := ⟨fl.1.setWritable, fl.2⟩

/-- What the level-1 entry of a page says; `noTable` if there is no level-1 table for it. -/
inductive Slot
  | noTable
  | unused
  | mapped (frame : ℕ) (flags : PageFlags)
  deriving DecidableEq, Repr

/-- What can be seen of physical memory. -/
structure View (S : Type) where
  slot : S → ℕ → Slot
  byte : S → ℕ → Byte
  isTable : S → ℕ → Prop

section

variable {S : Type} {m : CowMapper S} {v : View S} {st st' : CowState S} {s s' : S}
  {faultAddr page f : ℕ} {fl : PageFlags}

/-- From `s` to `s'` the entry of one page became `new`; only page tables were written. -/
structure View.Changed (v : View S) (s s' : S) (page : ℕ) (new : Slot) : Prop where
  slot : v.slot s' = update (v.slot s) page new
  isTable : v.isTable s' = v.isTable s
  byte : ∀ a, ¬ v.isTable s (a / FRAME_SIZE) → v.byte s' a = v.byte s a

/-- The mapper does what its documentation says of 4 KiB pages, and a copy to a frame without page
tables changes the bytes of that frame. -/
structure CowMapper.Documented (m : CowMapper S) (v : View S) : Prop where
  translateAddr : ∀ s va f fl, v.slot s (va / FRAME_SIZE) = .mapped f fl →
    m.translateAddr s va = some (f * FRAME_SIZE + va % FRAME_SIZE)
  translate : ∀ s va f fl, v.slot s (va / FRAME_SIZE) = .mapped f fl →
    m.translate s va = some fl.1
  updateFlags : ∀ s page f fl (fl' : PageFlags), v.slot s page = .mapped f fl →
    ∃ s', m.updateFlags s page fl'.1 = some s' ∧ v.Changed s s' page (.mapped f fl')
  unmap : ∀ s page f fl, v.slot s page = .mapped f fl →
    ∃ s', m.unmap s page = some s' ∧ v.Changed s s' page .unused
  mapTo : ∀ s a page g (fl : PageFlags), v.slot s page = .unused →
    ∃ s', m.mapTo s a page g fl.1 = some (s', a) ∧ v.Changed s s' page (.mapped g fl)
  copy : ∀ s src dst, ¬ v.isTable s dst →
    v.slot (m.copy s src (dst * FRAME_SIZE)) = v.slot s ∧
    v.isTable (m.copy s src (dst * FRAME_SIZE)) = v.isTable s ∧
    ∀ a, v.byte (m.copy s src (dst * FRAME_SIZE)) a =
      if a / FRAME_SIZE = dst then v.byte s (src + a % FRAME_SIZE) else v.byte s a

/-- The page has moved to a clone of its frame `f`, which was free. -/
structure Cloned (v : View S) (st st' : CowState S) (page f : ℕ) (fl : PageFlags) (g : ℕ) :
    Prop where
  free : st.allocator.testBit g = false
  slot : v.slot st'.memory =
    update (v.slot st.memory) page (.mapped g fl.setWritable)
  count_new : st'.allocator.refCount g = 1
  count_old : st'.allocator.refCount f + 1 = st.allocator.refCount f
  bytes_new : ∀ k, k < FRAME_SIZE →
    v.byte st'.memory (g * FRAME_SIZE + k) = v.byte st.memory (f * FRAME_SIZE + k)
  bytes_old : ∀ k, k < FRAME_SIZE →
    v.byte st'.memory (f * FRAME_SIZE + k) = v.byte st.memory (f * FRAME_SIZE + k)

/-- The fault at `faultAddr`, in a page mapped to frame `f` with flags `fl`, is resolved as it
should be. -/
def CowResolved (m : CowMapper S) (v : View S) (st : CowState S) (faultAddr f : ℕ)
    (fl : PageFlags) : Prop :=
  ∃ st' repaired, resolveCowFault m st faultAddr = some (st', repaired) ∧
    (2 ≤ st.allocator.getRefCount (f * FRAME_SIZE) → (∃ g, st.allocator.testBit g = false) →
      repaired = true ∧ ∃ g, Cloned v st st' (faultAddr / FRAME_SIZE) f fl g) ∧
    (st.allocator.getRefCount (f * FRAME_SIZE) = 1 →
      repaired = true ∧ st'.allocator = st.allocator ∧
        v.Changed st.memory st'.memory (faultAddr / FRAME_SIZE) (.mapped f fl.setWritable)) ∧
    (repaired = false → st' = st)

/-- No clone is made, or the 4096 bytes from the translated address on are those of the frame and
do not reach into the clone. -/
def CopiesFrame (v : View S) (st : CowState S) (faultAddr f : ℕ) : Prop :=
  st.allocator.getRefCount (f * FRAME_SIZE) < 2 ∨ (∀ g, st.allocator.testBit g = true) ∨
  faultAddr % FRAME_SIZE = 0 ∨
  (st.allocator.allocateFrame.2 ≠ some ((f + 1) * FRAME_SIZE) ∧
    ∀ k, k < FRAME_SIZE → v.byte st.memory (f * FRAME_SIZE + faultAddr % FRAME_SIZE + k) =
      v.byte st.memory (f * FRAME_SIZE + k))

/-! ### The three outcomes -/

theorem frame_div (f va : ℕ) : (f * FRAME_SIZE + va % FRAME_SIZE) / FRAME_SIZE = f := by
  unfold FRAME_SIZE
  omega

theorem getRefCount_translated (a : BitmapFrameAllocator) (f va : ℕ) :
    a.getRefCount (f * FRAME_SIZE + va % FRAME_SIZE) = a.getRefCount (f * FRAME_SIZE) := by
  rw [getRefCount_eq, getRefCount_eq, frame_div, Nat.mul_div_cancel _ (by decide)]

variable {a : BitmapFrameAllocator}

theorem allocateFrame_new (hfree : ∃ g, a.testBit g = false) :
    ∃ i a', a.allocateFrame = (a', some (i * FRAME_SIZE)) ∧ a.testBit i = false ∧
      a'.refCount i = 1 ∧ ∀ f, f ≠ i → a'.refCount f = a.refCount f := by
  obtain ⟨g, hg⟩ := hfree
  obtain ⟨i, hi, heq⟩ := allocateFrame_of_free hg
  refine ⟨i, _, heq, hi, ?_, fun f hf => ?_⟩
  · refine (refCount_forceSetBit a i i).trans (if_pos ?_)
    exact ⟨rfl, lt_of_testBit_eq_false hi⟩
  · refine (refCount_forceSetBit a i f).trans (if_neg ?_)
    exact fun h => hf h.1.symm

theorem free_or_full (a : BitmapFrameAllocator) :
    ((∃ g, a.testBit g = false) ∧ ¬ ∀ g, a.testBit g = true) ∨
      ((¬ ∃ g, a.testBit g = false) ∧ ∀ g, a.testBit g = true) := by
  by_cases hfree : ∃ g, a.testBit g = false
  · refine .inl ⟨hfree, fun hall => ?_⟩
    obtain ⟨g, hg⟩ := hfree
    rw [hall g] at hg
    cases hg
  · refine .inr ⟨hfree, fun g => ?_⟩
    by_contra hg
    exact hfree ⟨g, Bool.eq_false_iff.mpr hg⟩

theorem allocateFrame_none (h : ∀ g, a.testBit g = true) : a.allocateFrame = (a, none) := by
  rcases allocateFrame_cases a with hnone | ⟨i, hi, -⟩
  · exact hnone
  · rw [h i] at hi
    cases hi

/-- The mapper finds the address in frame `f`, mapped with the given flags. -/
structure Translated (m : CowMapper S) (memory : S) (va f : ℕ) (flags : PageTableFlags) :
    Prop where
  addr : m.translateAddr memory va = some (f * FRAME_SIZE + va % FRAME_SIZE)
  flags : m.translate memory va = some flags

namespace Translated

variable {flags : PageTableFlags} {a' : BitmapFrameAllocator} {g : ℕ}
  (h : Translated m st.memory faultAddr f flags)
include h

theorem refused (hcount : st.allocator.getRefCount (f * FRAME_SIZE) = 0) :
    resolveCowFault m st faultAddr = some (st, false) := by
  simp [resolveCowFault, h.addr, h.flags, getRefCount_translated, hcount]

theorem owned (hcount : st.allocator.getRefCount (f * FRAME_SIZE) = 1) :
    resolveCowFault m st faultAddr =
      (m.updateFlags st.memory (faultAddr / FRAME_SIZE) flags.setWritable).map fun memory =>
        ({ st with memory }, true) := by
  simp [resolveCowFault, h.addr, h.flags, getRefCount_translated, hcount]

variable (hcount : 2 ≤ st.allocator.getRefCount (f * FRAME_SIZE))
include hcount

theorem full (hfull : ∀ g, st.allocator.testBit g = true) :
    resolveCowFault m st faultAddr = some (st, false) := by
  have hzero : st.allocator.getRefCount (f * FRAME_SIZE) ≠ 0 := by omega
  have hone : st.allocator.getRefCount (f * FRAME_SIZE) ≠ 1 := by omega
  simp [resolveCowFault, h.addr, h.flags, getRefCount_translated, hzero, hone,
    allocateFrame_none hfull]

section

variable (halloc : st.allocator.allocateFrame = (a', some (g * FRAME_SIZE)))
include halloc

/-- The copying path. -/
theorem shared :
    resolveCowFault m st faultAddr =
      if overlap (f * FRAME_SIZE + faultAddr % FRAME_SIZE) (g * FRAME_SIZE) then none
      else (m.unmap (m.copy st.memory (f * FRAME_SIZE + faultAddr % FRAME_SIZE) (g * FRAME_SIZE))
          (faultAddr / FRAME_SIZE)).bind fun memory =>
        (m.mapTo memory a' (faultAddr / FRAME_SIZE) g flags.setWritable).bind fun mapped =>
          (mapped.2.deallocateFrame (f * FRAME_SIZE + faultAddr % FRAME_SIZE)).bind fun a =>
            some (⟨mapped.1, a⟩, true) := by
  have hzero : st.allocator.getRefCount (f * FRAME_SIZE) ≠ 0 := by omega
  have hone : st.allocator.getRefCount (f * FRAME_SIZE) ≠ 1 := by omega
  have hrun := resolveCowFault.eq_def m st faultAddr
  simp only [h.addr, h.flags, getRefCount_translated, hzero, hone, halloc, if_false,
    Nat.mul_div_cancel g (show 0 < FRAME_SIZE by decide)] at hrun
  exact hrun

theorem cloned {s₁ s₂ : S} {a'' : BitmapFrameAllocator}
    (hoverlap : overlap (f * FRAME_SIZE + faultAddr % FRAME_SIZE) (g * FRAME_SIZE) = false)
    (hunmap : m.unmap (m.copy st.memory (f * FRAME_SIZE + faultAddr % FRAME_SIZE)
      (g * FRAME_SIZE)) (faultAddr / FRAME_SIZE) = some s₁)
    (hmap : m.mapTo s₁ a' (faultAddr / FRAME_SIZE) g flags.setWritable = some (s₂, a))
    (hdealloc : a.deallocateFrame (f * FRAME_SIZE + faultAddr % FRAME_SIZE) = some a'') :
    resolveCowFault m st faultAddr = some (⟨s₂, a''⟩, true) := by
  rw [h.shared hcount halloc, hoverlap, hunmap, Option.bind_some, hmap, Option.bind_some, hdealloc]
  rfl

end

end Translated

theorem CowMapper.Documented.translated (hm : m.Documented v)
    (hslot : v.slot st.memory (faultAddr / FRAME_SIZE) = .mapped f fl) :
    Translated m st.memory faultAddr f fl.1 :=
  ⟨hm.translateAddr _ _ _ _ hslot, hm.translate _ _ _ _ hslot⟩

theorem refCount_of_two (h : 2 ≤ a.getRefCount (f * FRAME_SIZE)) :
    a.getRefCount (f * FRAME_SIZE) = a.refCount f := by
  rw [getRefCount_eq, Nat.mul_div_cancel _ (by decide)] at h ⊢
  split_ifs at h ⊢ with hlt
  · rfl
  · omega

variable {g : ℕ}

theorem ne_of_free (hcoherent : a.Coherent)
    (hfree : a.testBit g = false) (hcount : 2 ≤ a.getRefCount (f * FRAME_SIZE)) : g ≠ f := by
  rintro rfl
  have hzero := hcoherent.refCount_eq_zero hfree
  rw [← refCount_of_two hcount] at hzero
  omega

/-- The bytes from the translated address on reach the new frame only if that is the next one. -/
theorem overlap_iff (hg : g ≠ f) :
    overlap (f * FRAME_SIZE + faultAddr % FRAME_SIZE) (g * FRAME_SIZE) = true ↔
      faultAddr % FRAME_SIZE ≠ 0 ∧ g = f + 1 := by
  simp only [overlap, Bool.and_eq_true, decide_eq_true_eq]
  unfold FRAME_SIZE
  omega

/-- **The copying path**: the page moves to the frame handed out next, which holds the 4096 bytes
from the translated address on. -/
theorem resolveCowFault_clone (hm : m.Documented v)
    (hslot : v.slot st.memory (faultAddr / FRAME_SIZE) = .mapped f fl)
    (htables : ∀ t, v.isTable st.memory t → st.allocator.testBit t = true)
    (hf : ¬ v.isTable st.memory f)
    (hcount : 2 ≤ st.allocator.getRefCount (f * FRAME_SIZE)) {a' : BitmapFrameAllocator}
    (halloc : st.allocator.allocateFrame = (a', some (g * FRAME_SIZE)))
    (hfree : st.allocator.testBit g = false) (hone : a'.refCount g = 1)
    (hothers : ∀ h, h ≠ g → a'.refCount h = st.allocator.refCount h) (hgf : g ≠ f)
    (hoverlap : overlap (f * FRAME_SIZE + faultAddr % FRAME_SIZE) (g * FRAME_SIZE) = false) :
    ∃ st', resolveCowFault m st faultAddr = some (st', true) ∧
      v.slot st'.memory = update (v.slot st.memory) (faultAddr / FRAME_SIZE)
        (.mapped g fl.setWritable) ∧
      st'.allocator.refCount g = 1 ∧
      st'.allocator.refCount f + 1 = st.allocator.refCount f ∧
      (∀ k, k < FRAME_SIZE → v.byte st'.memory (g * FRAME_SIZE + k) =
        v.byte st.memory (f * FRAME_SIZE + faultAddr % FRAME_SIZE + k)) ∧
      ∀ k, k < FRAME_SIZE →
        v.byte st'.memory (f * FRAME_SIZE + k) = v.byte st.memory (f * FRAME_SIZE + k) := by
  set src := f * FRAME_SIZE + faultAddr % FRAME_SIZE with hsrc
  -- the new frame was free, so it holds no page table
  have hg : ¬ v.isTable st.memory g := by
    intro h
    rw [htables g h] at hfree
    cases hfree
  obtain ⟨hslot₁, htable₁, hbyte₁⟩ := hm.copy st.memory src g hg
  set s₁ := m.copy st.memory src (g * FRAME_SIZE)
  obtain ⟨s₂, hunmap, hchanged₂⟩ :=
    hm.unmap s₁ (faultAddr / FRAME_SIZE) f fl (by rw [hslot₁, hslot])
  obtain ⟨s₃, hmap, hchanged₃⟩ := hm.mapTo s₂ a' (faultAddr / FRAME_SIZE) g fl.setWritable
    (by rw [hchanged₂.slot, update_self])
  have hcount' := refCount_of_two hcount
  have hsrcdiv : src / FRAME_SIZE = f := frame_div f faultAddr
  obtain ⟨a'', hdealloc⟩ := @deallocateFrame_isSome a' src
    (by rw [hsrcdiv, hothers f (Ne.symm hgf)]; omega)
  obtain ⟨-, hcounts, -⟩ := deallocateFrame_spec hdealloc
  rw [hsrcdiv] at hcounts
  -- bytes of a frame without page tables survive the two changes of the mapper
  have hkeep : ∀ a, ¬ v.isTable st.memory (a / FRAME_SIZE) → v.byte s₃ a = v.byte s₁ a := by
    intro a ha
    have h₁ : ¬ v.isTable s₁ (a / FRAME_SIZE) := by rwa [htable₁]
    have h₂ : ¬ v.isTable s₂ (a / FRAME_SIZE) := by rwa [hchanged₂.isTable]
    rw [hchanged₃.byte a h₂, hchanged₂.byte a h₁]
  have hdiv : ∀ h k, k < FRAME_SIZE → (h * FRAME_SIZE + k) / FRAME_SIZE = h := by
    intro h k hk
    unfold FRAME_SIZE at hk ⊢
    omega
  have hmod : ∀ h k, k < FRAME_SIZE → (h * FRAME_SIZE + k) % FRAME_SIZE = k := by
    intro h k hk
    unfold FRAME_SIZE at hk ⊢
    omega
  refine ⟨⟨s₃, a''⟩, ?_, ?_, ?_, ?_, fun k hk => ?_, fun k hk => ?_⟩
  · exact (hm.translated hslot).cloned hcount halloc hoverlap hunmap hmap hdealloc
  · rw [hchanged₃.slot, hchanged₂.slot, Function.update_idem, hslot₁]
  · have := hcounts g
    rw [if_neg (Ne.symm hgf), hone] at this
    exact this
  · have := hcounts f
    rw [if_pos rfl, hothers f (Ne.symm hgf)] at this
    exact this
  · rw [hkeep _ (by rwa [hdiv g k hk]), hbyte₁, if_pos (hdiv g k hk), hmod g k hk]
  · rw [hkeep _ (by rwa [hdiv f k hk]), hbyte₁, if_neg (by rw [hdiv f k hk]; exact Ne.symm hgf)]

/-! ### When the outcome is right -/

theorem resolved_iff_of_shared (hm : m.Documented v) (hcoherent : st.allocator.Coherent)
    (htables : ∀ t, v.isTable st.memory t → st.allocator.testBit t = true)
    (hf : ¬ v.isTable st.memory f)
    (hslot : v.slot st.memory (faultAddr / FRAME_SIZE) = .mapped f fl)
    (hcount : 2 ≤ st.allocator.getRefCount (f * FRAME_SIZE))
    (hfree : ∃ g, st.allocator.testBit g = false) :
    CowResolved m v st faultAddr f fl ↔ faultAddr % FRAME_SIZE = 0 ∨
      (st.allocator.allocateFrame.2 ≠ some ((f + 1) * FRAME_SIZE) ∧
        ∀ k, k < FRAME_SIZE → v.byte st.memory (f * FRAME_SIZE + faultAddr % FRAME_SIZE + k) =
          v.byte st.memory (f * FRAME_SIZE + k)) := by
  obtain ⟨g, a', halloc, hg, hone, hothers⟩ := allocateFrame_new hfree
  have hgf : g ≠ f := ne_of_free hcoherent hg hcount
  have hnext : st.allocator.allocateFrame.2 ≠ some ((f + 1) * FRAME_SIZE) ↔ g ≠ f + 1 := by
    rw [halloc, ne_eq, Option.some.injEq, Nat.mul_left_inj (by decide)]
  by_cases hoverlap : overlap (f * FRAME_SIZE + faultAddr % FRAME_SIZE) (g * FRAME_SIZE) = true
  · obtain ⟨hoff, hgnext⟩ := (overlap_iff hgf).mp hoverlap
    refine iff_of_false ?_ ?_
    · rintro ⟨st', repaired, hrun, -⟩
      rw [(hm.translated hslot).shared hcount halloc, if_pos hoverlap] at hrun
      cases hrun
    · rintro (h | ⟨h, -⟩)
      · exact hoff h
      · exact (hnext.mp h) hgnext
  · obtain ⟨st', hrun, hslot', hnew, hold, hbytes, hkept⟩ := resolveCowFault_clone hm hslot htables
      hf hcount halloc hg hone hothers hgf (Bool.eq_false_iff.mpr hoverlap)
    constructor
    · -- the clone is right, so the bytes from the translated address on are those of the frame
      rintro ⟨st'', repaired, hrun', hclone, -⟩
      rw [hrun] at hrun'
      cases hrun'
      obtain ⟨-, g', hcloned⟩ := hclone hcount hfree
      have hgg : g' = g := by
        have h := congrFun (hcloned.slot.symm.trans hslot') (faultAddr / FRAME_SIZE)
        rw [update_self, update_self] at h
        exact (Slot.mapped.inj h).1
      subst hgg
      by_cases hoff : faultAddr % FRAME_SIZE = 0
      · exact .inl hoff
      · refine .inr ⟨hnext.mpr fun h => hoverlap ((overlap_iff hgf).mpr ⟨hoff, h⟩), ?_⟩
        intro k hk
        rw [← hbytes k hk, hcloned.bytes_new k hk]
    · intro hcond
      have hbytes' : ∀ k, k < FRAME_SIZE → v.byte st'.memory (g * FRAME_SIZE + k) =
          v.byte st.memory (f * FRAME_SIZE + k) := by
        intro k hk
        rw [hbytes k hk]
        rcases hcond with h | ⟨-, h⟩
        · rw [h, Nat.add_zero]
        · exact h k hk
      exact ⟨st', true, hrun, fun _ _ => ⟨rfl, g, hg, hslot', hnew, hold, hbytes', hkept⟩,
        fun h => absurd h (by omega), fun h => absurd h (by decide)⟩

/-- **A copy-on-write fault is resolved as it should be iff the bytes copied are those of the
frame**: in particular whenever no clone is made, and whenever the fault address is the start of its
page. -/
theorem cow_fault_resolved_iff (hm : m.Documented v) (hcoherent : st.allocator.Coherent)
    (htables : ∀ t, v.isTable st.memory t → st.allocator.testBit t = true)
    (hf : ¬ v.isTable st.memory f)
    (hslot : v.slot st.memory (faultAddr / FRAME_SIZE) = .mapped f fl) :
    CowResolved m v st faultAddr f fl ↔ CopiesFrame v st faultAddr f := by
  by_cases hcount : st.allocator.getRefCount (f * FRAME_SIZE) < 2
  · -- refused, or made writable
    refine iff_of_true ?_ (.inl hcount)
    by_cases hzero : st.allocator.getRefCount (f * FRAME_SIZE) = 0
    · exact ⟨st, false, (hm.translated hslot).refused hzero, fun h => absurd h (by omega),
        fun h => absurd h (by omega), fun _ => rfl⟩
    · have hone : st.allocator.getRefCount (f * FRAME_SIZE) = 1 := by omega
      obtain ⟨s', hupdate, hchanged⟩ := hm.updateFlags st.memory _ f fl fl.setWritable hslot
      refine ⟨⟨s', st.allocator⟩, true, ?_, fun h => absurd h (by omega),
        fun _ => ⟨rfl, rfl, hchanged⟩, fun h => absurd h (by decide)⟩
      rw [(hm.translated hslot).owned hone]
      exact congrArg _ hupdate
  rcases free_or_full st.allocator with ⟨hfree, hnotall⟩ | ⟨hfull, hall⟩
  · rw [resolved_iff_of_shared hm hcoherent htables hf hslot (by omega) hfree, CopiesFrame,
      or_iff_right hcount, or_iff_right hnotall]
  · -- no frame is free
    refine iff_of_true ?_ (.inr (.inl hall))
    exact ⟨st, false, (hm.translated hslot).full (by omega) hall, fun _ h => absurd h hfull,
      fun h => absurd h (by omega), fun _ => rfl⟩

end

/-! ### A shared page -/

/-- Memory whose page tables are a map from pages to level-1 entries, kept outside the bytes. -/
structure FlatMemory where
  slots : ℕ → Slot
  bytes : ℕ → Byte

/-- The mapper of `FlatMemory`. -/
def flatMapper : CowMapper FlatMemory where
  translateAddr s va :=
    match s.slots (va / FRAME_SIZE) with
    | .mapped f _ => some (f * FRAME_SIZE + va % FRAME_SIZE)
    | _ => none
  translate s va :=
    match s.slots (va / FRAME_SIZE) with
    | .mapped _ fl => some fl.1
    | _ => none
  updateFlags s page fl :=
    if hfl : _ then
      match s.slots page with
      | .mapped f _ => some { s with slots := update s.slots page (.mapped f ⟨fl, hfl⟩) }
      | _ => none
    else none
  unmap s page :=
    match s.slots page with
    | .mapped _ _ => some { s with slots := update s.slots page .unused }
    | _ => none
  mapTo s a page g fl :=
    if hfl : _ then
      match s.slots page with
      | .unused => some ({ s with slots := update s.slots page (.mapped g ⟨fl, hfl⟩) }, a)
      | _ => none
    else none
  copy s src dst :=
    { s with
      bytes := fun a =>
        if a / FRAME_SIZE = dst / FRAME_SIZE then s.bytes (src + a % FRAME_SIZE) else s.bytes a }

/-- What `FlatMemory` shows. -/
def flatView : View FlatMemory := ⟨FlatMemory.slots, FlatMemory.bytes, fun _ _ => False⟩

theorem documented_flatMapper : flatMapper.Documented flatView where
  translateAddr s va f fl h := by
    change s.slots (va / FRAME_SIZE) = _ at h
    simp only [flatMapper, h]
  translate s va f fl h := by
    change s.slots (va / FRAME_SIZE) = _ at h
    simp only [flatMapper, h]
  updateFlags s page f fl fl' h := by
    change s.slots page = _ at h
    simp only [flatMapper, h, dif_pos fl'.2]
    exact ⟨_, rfl, rfl, rfl, fun _ _ => rfl⟩
  unmap s page f fl h := by
    change s.slots page = _ at h
    simp only [flatMapper, h]
    exact ⟨_, rfl, rfl, rfl, fun _ _ => rfl⟩
  mapTo s a page g fl h := by
    change s.slots page = _ at h
    simp only [flatMapper, h, dif_pos fl.2]
    exact ⟨_, rfl, rfl, rfl, fun _ _ => rfl⟩
  copy s src dst _ := by
    refine ⟨rfl, rfl, fun a => ?_⟩
    simp only [flatView, flatMapper, Nat.mul_div_cancel dst (show 0 < FRAME_SIZE by decide)]

/-- The flags of a read-only user page. -/
def readOnlyFlags : PageFlags := ⟨⟨true, false, true, false, 0⟩, rfl, rfl⟩

/-- Page 5 is mapped read-only to frame 1, which two address spaces share and whose first byte is 7;
frame 3 is free. -/
def sharedPage : CowState FlatMemory where
  memory :=
    { slots := fun page => if page = 5 then .mapped 1 readOnlyFlags else .noTable
      bytes := fun a => if a = FRAME_SIZE then 7 else 0 }
  allocator :=
    { totalFrames := 4
      bitmap := Vector.replicate _ 0xF7#8
      refCounts := #v[1, 2, 1, 0]
      lastFreeFrameHint := 0 }

theorem coherent_sharedPage : sharedPage.allocator.Coherent := by
  unfold Coherent
  decide

theorem cow_fault_resolved_page_start :
    CowResolved flatMapper flatView sharedPage (5 * 4096) 1 readOnlyFlags :=
  (cow_fault_resolved_iff documented_flatMapper coherent_sharedPage (fun _ h => h.elim) (fun h => h)
    rfl).mpr (.inr (.inr (.inl rfl)))

/-- A fault one byte further on gives a clone whose first byte is the second one of the frame. -/
theorem cow_fault_inside_page :
    ¬ CowResolved flatMapper flatView sharedPage (5 * 4096 + 1) 1 readOnlyFlags := by
  rintro ⟨st', repaired, hrun, hclone, -⟩
  obtain ⟨-, g, hcloned⟩ := hclone (by decide) ⟨3, by decide⟩
  have hlt : g < 4 := lt_of_testBit_eq_false hcloned.free
  have hg : ∀ g < 4, sharedPage.allocator.testBit g = false → g = 3 := by decide
  have hthree : g = 3 := hg g hlt hcloned.free
  have hbyte := hcloned.bytes_new 0 (by decide)
  have hcopied : (resolveCowFault flatMapper sharedPage (5 * 4096 + 1)).map
      (fun r => r.1.memory.bytes (3 * FRAME_SIZE + 0)) = some 0 := by decide
  rw [hrun, Option.map_some, Option.some.injEq] at hcopied
  rw [hthree] at hbyte
  have hseven : (0 : Byte) = 7 := hcopied.symm.trans hbyte
  exact absurd hseven (by decide)

end NwinOs.Mm
