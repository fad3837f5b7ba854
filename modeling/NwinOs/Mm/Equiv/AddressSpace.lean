import NwinOs.Mm.AddressSpace
import NwinOs.Mm.Equiv.FrameAllocator

/-!
# Who owns which page-table frame

The abstract view of the address spaces is an ownership map: a frame belongs to at most one task,
at one path of its page-table tree (`[]` for the PML4, `[i]` for the table behind its slot `i`, and
so on down to the data pages at paths of length four).  `Owned` says that memory follows the map:
the entries of an owned table are unused or lead to the frame that the map has at the longer path,
the slots that a PML4 shares with the kernel hold the kernel's entries, and neither the kernel's
frames nor the owned ones are free.

* `Owned.walk` reads a translation off the map: every frame a walk meets is the kernel's or the
  task's own.
* `Owned.translate_eq` is the frame rule: an operation that `Keeps` the frames of the others keeps
  their translations.
* `Owned.createIsolatedPml4`, `Owned.allocateAndMapUserPage`, `Owned.destroyUserAddressSpace`: the
  three operations go from an owned memory to an owned memory and keep the frames of the others,
  the second one under the condition that the slot is not shared with the kernel.
-/

namespace NwinOs.Mm

open Paging BitmapFrameAllocator Function Memory PageTableEntry List Option

/-- The page tables the kernel booted with.  `direct` are the addresses of its direct map, through
which it sees all of physical memory. -/
structure KernelSpace where
  mem : Memory
  pml4 : ℕ
  direct : ℕ → Prop

namespace KernelSpace

variable (k : KernelSpace)

/-- The frames that hold the kernel's page tables. -/
def tables (f : ℕ) : Prop := ∃ va, f ∈ Paging.tables k.mem va 4 k.pml4

/-- The kernel's page tables, and the frames it maps outside the direct map. -/
def frames (f : ℕ) : Prop :=
  k.tables f ∨ ∃ va tr, ¬ k.direct va ∧ Paging.translate k.mem k.pml4 va = some tr ∧ tr.frame = f

/-- The slots of a PML4 that a new task shares with the kernel: the upper half, and the supervisor
entries of the lower one. -/
def Shared (i : ℕ) : Prop :=
  (256 ≤ i ∧ i < 512) ∨
    (i < 256 ∧ (k.mem k.pml4 i).isUnused = false ∧ (k.mem k.pml4 i).userAccessible = false)

instance (k : KernelSpace) (i : ℕ) : Decidable (k.Shared i) :=
  inferInstanceAs (Decidable (_ ∨ _))

theorem tables_pml4 : k.tables k.pml4 :=
  ⟨0, by simp [Paging.tables]⟩

end KernelSpace

/-! ### The allocator, seen from here -/

theorem allocateFrame_spec (a : BitmapFrameAllocator) :
    a.allocateFrame = (a, none) ∨ ∃ i a', a.allocateFrame = (a', some (i * FRAME_SIZE)) ∧
      a.testBit i = false ∧ (a.Coherent → a'.Coherent) ∧
      (∀ f, a'.testBit f = (a.testBit f || decide (i = f))) ∧
      ∀ f, f ≠ i → a'.refCount f = a.refCount f := by
  rcases allocateFrame_cases a with h | ⟨i, hfree, h⟩
  · exact .inl h
  · refine .inr ⟨i, _, h, hfree, fun hc => hc.forceSetBit i, fun f => ?_, fun f hf => ?_⟩
    · exact testBit_forceSetBit a i f
    · refine (refCount_forceSetBit a i f).trans (if_neg ?_)
      exact fun h => hf h.1.symm

variable {m : Mapper}

/-- **The outcomes of `allocateAndMapUserPage`**: the page is mapped; or no frame is free; or a
frame is taken, and the mapping fails or the frame is cleared at last. -/
theorem allocateAndMapUserPage_cases (hm : m.Documented) (st : MemoryState) (pml4 va : ℕ) :
    translatePage st.mem va 3 pml4 = true ∧ allocateAndMapUserPage m st pml4 va = (st, .ok ()) ∨
    translatePage st.mem va 3 pml4 = false ∧
      (st.allocator.allocateFrame = (st.allocator, none) ∧
          allocateAndMapUserPage m st pml4 va = (st, .error .outOfFrames) ∨
        ∃ f a mem' a', st.allocator.allocateFrame = (a, some (f * FRAME_SIZE)) ∧
          ((∃ e, mapTo systemAllocateFrame st.mem a pml4 va f = ((mem', a'), .error e) ∧
              allocateAndMapUserPage m st pml4 va = (⟨mem', a'⟩, .error .invalidMapping)) ∨
            mapTo systemAllocateFrame st.mem a pml4 va f = ((mem', a'), .ok ()) ∧
              allocateAndMapUserPage m st pml4 va = (⟨mem'.zero f, a'⟩, .ok ()))) := by
  unfold allocateAndMapUserPage
  rw [hm.translatePage_eq]
  cases htranslate : translatePage st.mem va 3 pml4 with
  | true => exact .inl ⟨rfl, rfl⟩
  | false =>
    refine .inr ⟨rfl, ?_⟩
    rcases allocateFrame_spec st.allocator with hnone | ⟨f, a, ha, -⟩
    · rw [hnone]
      exact .inl ⟨rfl, rfl⟩
    · have hframe : f * FRAME_SIZE / FRAME_SIZE = f := Nat.mul_div_cancel _ (by decide)
      rw [ha]
      simp only [hframe, hm.mapTo_eq]
      rcases hrun : mapTo systemAllocateFrame st.mem a pml4 va f with ⟨⟨mem', a'⟩, e | u⟩
      · exact .inr ⟨f, a, mem', a', rfl, .inl ⟨e, hrun, rfl⟩⟩
      · exact .inr ⟨f, a, mem', a', rfl, .inr ⟨hrun, rfl⟩⟩

variable {P : BitmapFrameAllocator → Prop}

theorem systemAllocateFrame_invariant
    (hP : ∀ a, P a → P a.allocateFrame.1) (mem : Memory) (a : BitmapFrameAllocator) (h : P a) :
    P (systemAllocateFrame mem a).2.1 := by
  have hnext := hP a h
  unfold systemAllocateFrame
  rcases hrun : a.allocateFrame with ⟨a', _ | addr⟩
  · rwa [hrun] at hnext
  · rwa [hrun] at hnext

theorem allocateAndMapUserPage_invariant
    (hm : m.Documented) (hP : ∀ a, P a → P a.allocateFrame.1) {st : MemoryState} {pml4 va : ℕ}
    (h : P st.allocator) : P (allocateAndMapUserPage m st pml4 va).1.allocator := by
  rcases allocateAndMapUserPage_cases hm st pml4 va with
    ⟨-, hrun⟩ | ⟨-, ⟨-, hrun⟩ | ⟨f, a, mem', a', ha, hmap⟩⟩
  · rwa [hrun]
  · rwa [hrun]
  · have htaken := hP st.allocator h
    rw [ha] at htaken
    have hkept := @mapTo_invariant _ _ _ (systemAllocateFrame_invariant hP) st.mem a pml4
      va f htaken
    rcases hmap with ⟨e, hmap, hrun⟩ | ⟨hmap, hrun⟩
    · rw [hmap] at hkept
      rwa [hrun]
    · rw [hmap] at hkept
      rwa [hrun]

theorem cowDeallocateFrame_spec {st st' : MemoryState} {g : ℕ}
    (h : st.cowDeallocateFrame g = some st') :
    st'.mem = st.mem ∧ (st.allocator.Coherent → st'.allocator.Coherent) ∧
    ∀ f, f ≠ g → st'.allocator.refCount f = st.allocator.refCount f ∧
      st'.allocator.testBit f = st.allocator.testBit f := by
  obtain ⟨a, ha, rfl⟩ := map_eq_some_iff.mp h
  have hframe : g * FRAME_SIZE / FRAME_SIZE = g := Nat.mul_div_cancel _ (by decide)
  obtain ⟨htotal, hcount, hbit⟩ := deallocateFrame_spec ha
  rw [hframe] at hcount hbit
  refine ⟨rfl, fun hc f hf => ?_, fun f hf => ⟨?_, ?_⟩⟩
  · -- the bit is cleared exactly when the count reaches zero
    have hf' : f < st.allocator.totalFrames := htotal ▸ hf
    have h1 := hcount f
    have h2 := hc f hf'
    rw [hbit f hf']
    by_cases hg : g = f
    · simp only [hg, if_true, true_and] at h1 ⊢
      by_cases hone : st.allocator.refCount f = 1
      · simp [hone]; omega
      · simp only [hone, decide_false, Bool.not_false, Bool.and_true, h2]; omega
    · simp only [hg, if_false, false_and, decide_false, Bool.not_false, Bool.and_true] at h1 ⊢
      rw [h2]; omega
  · have := hcount f
    rw [if_neg (Ne.symm hf)] at this
    exact this
  · by_cases hlt : f < st.allocator.totalFrames
    · rw [hbit f hlt]
      simp [Ne.symm hf]
    · rw [testBit_of_ge (by simp only [htotal]; omega), testBit_of_ge (by omega)]

/-! ### Ownership -/

section Ownership

variable {τ : Type} {k : KernelSpace} {A B : τ} {own own' own'' : ℕ → Option (τ × List ℕ)}
  {roots roots' : τ → Option ℕ} {st st' st'' : MemoryState}

/-- The tables that the map gives to a task are a tree: a shared slot of the PML4 holds the
kernel's entry, any other entry is unused or leads one step down the map. -/
structure Tree (k : KernelSpace) (own : ℕ → Option (τ × List ℕ)) (mem : Memory) (A : τ) :
    Prop where
  shared : ∀ f i, own f = some (A, []) → k.Shared i → mem f i = k.mem k.pml4 i
  entry : ∀ f path i, own f = some (A, path) → path.length < 4 → (path = [] → ¬ k.Shared i) →
    mem f i = .unused ∨ ∃ g, mem f i = .user g ∧ own g = some (A, path ++ [i])

/-- Memory and allocator follow the ownership map; `roots` are the PML4s of the live tasks. -/
structure Owned (k : KernelSpace) (roots : τ → Option ℕ) (own : ℕ → Option (τ × List ℕ))
    (st : MemoryState) : Prop where
  coherent : st.allocator.Coherent
  kernel_mem : ∀ f, k.tables f → st.mem f = k.mem f
  kernel_busy : ∀ f, k.frames f → st.allocator.testBit f = true
  owned_busy : ∀ f, own f ≠ none → st.allocator.testBit f = true
  owned_user : ∀ f, own f ≠ none → ¬ k.frames f
  live : ∀ f A path, own f = some (A, path) → roots A ≠ none
  root : ∀ A f, roots A = some f → own f = some (A, [])
  tree : ∀ A, Tree k own st.mem A

/-- The frames an operation on `A` must leave alone: the kernel's and those of other tasks. -/
def Foreign (k : KernelSpace) (own : ℕ → Option (τ × List ℕ)) (A : τ) (f : ℕ) : Prop :=
  k.frames f ∨ ∃ B path, own f = some (B, path) ∧ B ≠ A

/-- From `st` to `st'` no foreign frame changed its content, its count or its owner. -/
structure Keeps (k : KernelSpace) (A : τ) (own : ℕ → Option (τ × List ℕ)) (st : MemoryState)
    (own' : ℕ → Option (τ × List ℕ)) (st' : MemoryState) : Prop where
  mem : ∀ f, Foreign k own A f → st'.mem f = st.mem f
  refCount : ∀ f, Foreign k own A f → st'.allocator.refCount f = st.allocator.refCount f
  own : ∀ f, Foreign k own A f → own' f = own f

theorem Keeps.refl : Keeps k A own st own st :=
  ⟨fun _ _ => rfl, fun _ _ => rfl, fun _ _ => rfl⟩

variable {f : ℕ}

theorem Keeps.foreign (h : Keeps k A own st own' st') (hf : Foreign k own A f) :
    Foreign k own' A f := by
  rcases hf with hk | ⟨B, path, ho, hne⟩
  · exact .inl hk
  · exact .inr ⟨B, path, (h.own f (.inr ⟨B, path, ho, hne⟩)).trans ho, hne⟩

theorem Keeps.trans (h : Keeps k A own st own' st') (h' : Keeps k A own' st' own'' st'') :
    Keeps k A own st own'' st'' where
  mem f hf := (h'.mem f (h.foreign hf)).trans (h.mem f hf)
  refCount f hf := (h'.refCount f (h.foreign hf)).trans (h.refCount f hf)
  own f hf := (h'.own f (h.foreign hf)).trans (h.own f hf)

/-- A frame that is in use, but neither the kernel's nor owned. -/
structure Spare (k : KernelSpace) (own : ℕ → Option (τ × List ℕ)) (st : MemoryState) (g : ℕ) :
    Prop where
  unowned : own g = none
  busy : st.allocator.testBit g = true
  user : ¬ k.frames g

variable {g : ℕ}

theorem Spare.not_foreign (h : Spare k own st g) : ¬ Foreign k own A g := by
  rintro (hk | ⟨B, path, ho, -⟩)
  · exact h.user hk
  · rw [h.unowned] at ho
    cases ho

variable {path : List ℕ}

theorem Owned.not_foreign (h : Owned k roots own st)
    (hf : own f = some (A, path)) : ¬ Foreign k own A f := by
  rintro (hk | ⟨B, path', ho, hne⟩)
  · exact h.owned_user f (by simp [hf]) hk
  · rw [hf] at ho
    cases ho
    exact hne rfl

theorem Spare.ne (hg : Spare k own st g) (hf : own f = some (A, path)) : f ≠ g := by
  rintro rfl
  rw [hg.unowned] at hf
  cases hf

/-! ### What a walk meets -/

variable {va : ℕ} {mem : Memory}

theorem Tree.walk (h : Tree k own mem B) (hf : own f = some (B, []))
    (hs : ¬ k.Shared (index va 3)) :
    (∀ t ∈ Paging.tables mem va 4 f, ∃ q, own t = some (B, q)) ∧
      ∀ tr, Paging.translate mem f va = some tr → ∃ q, own tr.frame = some (B, q) := by
  -- at level `l` the walk is at a path of length `4 - l`
  have hrule := @walk_rule mem va (fun l t => ∃ q, own t = some (B, q) ∧ q.length + l = 4) ?_ 4 f
    ⟨[], hf, rfl⟩
  · refine ⟨fun t ht => ?_, fun tr htr => ?_⟩
    · obtain ⟨_, q, hq, -⟩ := hrule.1 t ht
      exact ⟨q, hq⟩
    · obtain ⟨q, hq, -⟩ := hrule.2 _ tr htr
      exact ⟨q, hq⟩
  · rintro l t ⟨q, hq, hlen⟩ hp
    have hslot : q = [] → ¬ k.Shared (index va l) := by
      rintro rfl
      obtain rfl : l = 3 := by simpa using hlen
      exact hs
    rcases h.entry t q _ hq (by omega) hslot with hun | ⟨g, hg, hown⟩
    · rw [hun] at hp
      exact Bool.noConfusion hp
    · rw [hg]
      exact ⟨rfl, q ++ [index va l], hown, by rw [length_append, length_singleton]; omega⟩

section

variable (h : Owned k roots own st)
include h

theorem Owned.walk_kernel (va : ℕ) :
    Paging.translate st.mem k.pml4 va = Paging.translate k.mem k.pml4 va ∧
      Paging.tables st.mem va 4 k.pml4 = Paging.tables k.mem va 4 k.pml4 := by
  have hcongr := walk_congr fun t ht => h.kernel_mem t ⟨va, ht⟩
  exact ⟨hcongr.1 _, hcongr.2⟩

/-- **A walk from a task's PML4** meets only page tables of the kernel and frames of the task, and
ends in a frame of the task, or in one the kernel maps at the same address. -/
theorem Owned.walk (hf : own f = some (B, [])) (va : ℕ) :
    (∀ t ∈ Paging.tables st.mem va 4 f, k.tables t ∨ ∃ q, own t = some (B, q)) ∧
      ∀ tr, Paging.translate st.mem f va = some tr → ¬ k.direct va →
        k.frames tr.frame ∨ ∃ q, own tr.frame = some (B, q) := by
  by_cases hs : k.Shared (index va 3)
  · -- a shared slot: from here on the walk is the kernel's
    have he : st.mem f (index va 3) = st.mem k.pml4 (index va 3) := by
      rw [(h.tree B).shared f _ hf hs, h.kernel_mem _ k.tables_pml4]
    have hk := h.walk_kernel va
    refine ⟨fun t ht => ?_, fun tr htr hd => .inl (.inr ⟨va, tr, hd, ?_, rfl⟩)⟩
    · have htail : ∀ x, x ∈ (Paging.tables st.mem va 4 f).tail →
          x ∈ Paging.tables st.mem va 4 k.pml4 := by
        intro x hx
        simp only [Paging.tables, he, tail_cons] at hx
        exact mem_cons_of_mem _ hx
      have hcons : Paging.tables st.mem va 4 f = f :: (Paging.tables st.mem va 4 f).tail := rfl
      rw [hcons, mem_cons] at ht
      rcases ht with rfl | ht
      · exact .inr ⟨[], hf⟩
      · exact .inl ⟨va, hk.2 ▸ htail t ht⟩
    · rw [← hk.1, ← htr]
      simp only [Paging.translate, Paging.walk, he]
  · obtain ⟨htables, htrans⟩ := (h.tree B).walk hf hs
    exact ⟨fun t ht => .inr (htables t ht), fun tr htr _ => .inr (htrans tr htr)⟩

/-- **Frame rule**: an operation on `A` that keeps the foreign frames keeps every translation of
the kernel and of the other tasks, and the count of every frame they reach. -/
theorem Owned.translate_eq (hkeep : Keeps k A own st own' st')
    (hf : f = k.pml4 ∨ ∃ B, B ≠ A ∧ own f = some (B, [])) (va : ℕ) :
    Paging.translate st'.mem f va = Paging.translate st.mem f va ∧
    (∀ t ∈ Paging.tables st.mem va 4 f,
      st'.allocator.refCount t = st.allocator.refCount t) ∧
    ∀ tr, Paging.translate st.mem f va = some tr → ¬ k.direct va →
      st'.allocator.refCount tr.frame = st.allocator.refCount tr.frame := by
  have hforeign : (∀ t ∈ Paging.tables st.mem va 4 f, Foreign k own A t) ∧
      ∀ tr, Paging.translate st.mem f va = some tr → ¬ k.direct va → Foreign k own A tr.frame := by
    rcases hf with rfl | ⟨B, hne, hown⟩
    · obtain ⟨htrans, htables⟩ := h.walk_kernel va
      refine ⟨fun t ht => .inl (.inl ⟨va, htables ▸ ht⟩), fun tr htr hd => ?_⟩
      exact .inl (.inr ⟨va, tr, hd, htrans ▸ htr, rfl⟩)
    · obtain ⟨htables, htrans⟩ := h.walk hown va
      refine ⟨fun t ht => ?_, fun tr htr hd => ?_⟩
      · rcases htables t ht with hk | ⟨q, hq⟩
        · exact .inl (.inl hk)
        · exact .inr ⟨B, q, hq, hne⟩
      · rcases htrans tr htr hd with hk | ⟨q, hq⟩
        · exact .inl hk
        · exact .inr ⟨B, q, hq, hne⟩
  refine ⟨?_, fun t ht => hkeep.refCount t (hforeign.1 t ht), fun tr htr hd => ?_⟩
  · exact (walk_congr fun t ht => hkeep.mem t (hforeign.1 t ht)).1 _
  · exact hkeep.refCount _ (hforeign.2 tr htr hd)

end

/-! ### Small changes that keep memory owned -/

theorem Keeps.of_mem (h : ∀ f, Foreign k own A f → mem f = st.mem f) :
    Keeps k A own st own { st with mem := mem } :=
  ⟨h, fun _ _ => rfl, fun _ _ => rfl⟩

/-- An allocation takes a frame that nobody has. -/
theorem Owned.allocateFrame (h : Owned k roots own st) :
    st.allocator.allocateFrame = (st.allocator, none) ∨
    ∃ i a, st.allocator.allocateFrame = (a, some (i * FRAME_SIZE)) ∧
      Owned k roots own { st with allocator := a } ∧ Spare k own { st with allocator := a } i ∧
      (∀ A, Keeps k A own st own { st with allocator := a }) ∧
      ∀ g, Spare k own st g → Spare k own { st with allocator := a } g ∧ g ≠ i := by
  rcases allocateFrame_spec st.allocator with hnone | ⟨i, a, ha, hfree, hcoh, hbit, hcount⟩
  · exact .inl hnone
  have hmono : ∀ f, st.allocator.testBit f = true → a.testBit f = true := by
    intro f hf
    rw [hbit, hf, Bool.true_or]
  have hne : ∀ f, st.allocator.testBit f = true → f ≠ i := by
    rintro f hf rfl
    rw [hfree] at hf
    cases hf
  refine .inr ⟨i, a, ha, ?_, ⟨?_, ?_, ?_⟩, fun A => ⟨fun _ _ => rfl, fun f hf => ?_,
    fun _ _ => rfl⟩, fun g hg => ⟨⟨hg.unowned, hmono g hg.busy, hg.user⟩, hne g hg.busy⟩⟩
  · exact ⟨hcoh h.coherent, h.kernel_mem, fun f hf => hmono f (h.kernel_busy f hf),
      fun f hf => hmono f (h.owned_busy f hf), h.owned_user, h.live, h.root, h.tree⟩
  · by_contra ho
    exact hne i (h.owned_busy i ho) rfl
  · simp [hbit]
  · exact fun hk => hne i (h.kernel_busy i hk) rfl
  · apply hcount
    rcases hf with hk | ⟨B, path, ho, -⟩
    · exact hne f (h.kernel_busy f hk)
    · exact hne f (h.owned_busy f (by simp [ho]))

theorem Owned.zero (h : Owned k roots own st) (hk : ¬ k.frames g)
    (hroot : ∀ A, own g ≠ some (A, [])) : Owned k roots own { st with mem := st.mem.zero g } where
  coherent := h.coherent
  kernel_mem f hf := by
    have hne : f ≠ g := fun he => hk (he ▸ .inl hf)
    exact (zero_of_ne hne).trans (h.kernel_mem f hf)
  kernel_busy := h.kernel_busy
  owned_busy := h.owned_busy
  owned_user := h.owned_user
  live := h.live
  root := h.root
  tree A := by
    constructor
    · intro f i hf hs
      have hne : f ≠ g := fun he => hroot A (he ▸ hf)
      exact (congrFun (zero_of_ne hne) i).trans ((h.tree A).shared f i hf hs)
    · intro f path i hf hlen hslot
      by_cases hfg : f = g
      · left
        subst hfg
        exact congrFun zero_self i
      · have hsame : st.mem.zero g f i = st.mem f i := congrFun (zero_of_ne hfg) i
        simpa only [hsame] using (h.tree A).entry f path i hf hlen hslot

variable {table i : ℕ}

/-- Hanging a spare frame under an own table, at a slot that is not shared.  Unless it is a data
page, the frame must be clear. -/
theorem Owned.attach (h : Owned k roots own st)
    (ht : own table = some (A, path)) (hlen : path.length < 4)
    (hslot : path = [] → ¬ k.Shared i) (hg : Spare k own st g)
    (hclear : path.length < 3 → st.mem g = fun _ => .unused) :
    Owned k roots (update own g (some (A, path ++ [i])))
      { st with mem := st.mem.write table i (.user g) } := by
  have htg : table ≠ g := hg.ne ht
  -- the map at any other frame is the old one
  have hold : ∀ f, f ≠ g → update own g (some (A, path ++ [i])) f = own f :=
    fun f hf => update_of_ne hf ..
  have hnew : update own g (some (A, path ++ [i])) g = some (A, path ++ [i]) :=
    update_self ..
  refine ⟨h.coherent, fun f hf => ?_, h.kernel_busy, fun f hf => ?_, fun f hf => ?_,
    fun f B q hf => ?_, fun B f hf => ?_, fun B => ⟨fun f j hf hs => ?_, fun f q j hf hq hj => ?_⟩⟩
  · have hne : f ≠ table := by
      rintro rfl
      exact h.owned_user f (by simp [ht]) (.inl hf)
    exact (write_of_ne hne).trans (h.kernel_mem f hf)
  · by_cases hfg : f = g
    · exact hfg ▸ hg.busy
    · exact h.owned_busy f (hold f hfg ▸ hf)
  · by_cases hfg : f = g
    · exact hfg ▸ hg.user
    · exact h.owned_user f (hold f hfg ▸ hf)
  · by_cases hfg : f = g
    · rw [hfg, hnew] at hf
      cases hf
      exact h.live table A path ht
    · exact h.live f B q (hold f hfg ▸ hf)
  · have hown := h.root B f hf
    rw [hold f (hg.ne hown), hown]
  · -- shared slots: a PML4 is not the new frame, and the written slot is not shared
    have hfg : f ≠ g := by
      rintro rfl
      simp at hf
    rw [hold f hfg] at hf
    have hsame : st.mem.write table i (.user g) f j = st.mem f j := by
      apply write_of_not
      rintro ⟨rfl, rfl⟩
      rw [ht] at hf
      have hpath : path = [] := by simpa using (Prod.mk.inj (Option.some.inj hf)).2
      exact hslot hpath hs
    exact hsame.trans ((h.tree B).shared f j hf hs)
  · by_cases hfg : f = g
    · -- the new frame is clear if its entries matter
      subst hfg
      rw [hnew] at hf
      cases hf
      left
      have hzero := hclear (by rw [length_append, length_singleton] at hq; omega)
      exact (congrFun (write_of_ne (Ne.symm htg)) j).trans (congrFun hzero j)
    · rw [hold f hfg] at hf
      by_cases hwritten : f = table ∧ j = i
      · obtain ⟨rfl, rfl⟩ := hwritten
        rw [ht] at hf
        cases hf
        exact .inr ⟨g, write_self.trans (if_pos rfl), hnew⟩
      · have hsame : st.mem.write table i (.user g) f j = st.mem f j :=
          write_of_not hwritten
        rcases (h.tree B).entry f q j hf hq hj with hun | ⟨x, hx, hown⟩
        · exact .inl (hsame.trans hun)
        · exact .inr ⟨x, hsame.trans hx, by rw [hold x (hg.ne hown), hown]⟩

theorem Owned.keeps_attach (h : Owned k roots own st) {q : List ℕ}
    (ht : own table = some (A, path)) (hg : Spare k own st g) :
    Keeps k A own st (update own g (some (A, q)))
      { st with mem := st.mem.write table i (.user g) } where
  mem _ hf := write_of_ne fun he => h.not_foreign ht (he ▸ hf)
  refCount _ _ := rfl
  own _ hf := update_of_ne (fun he => hg.not_foreign (he ▸ hf)) ..

/-! ### Mapping a page -/

/-- An ownership map, the frames that were taken from the allocator and not linked yet, and the
memory. -/
structure Books (τ : Type) where
  own : ℕ → Option (τ × List ℕ)
  taken : Set ℕ
  st : MemoryState

/-- The steps of mapping a page for `A`: a frame is taken, a taken frame or a data page is cleared,
a taken frame is linked into an unused slot that is not shared. -/
inductive Grow (k : KernelSpace) (A : τ) : Books τ → Books τ → Prop
  | take {own : ℕ → Option (τ × List ℕ)} {S : Set ℕ} {st : MemoryState} {i : ℕ}
      {a : BitmapFrameAllocator} (h : st.allocator.allocateFrame = (a, some (i * FRAME_SIZE))) :
      Grow k A ⟨own, S, st⟩ ⟨own, insert i S, { st with allocator := a }⟩
  | clear {own : ℕ → Option (τ × List ℕ)} {S : Set ℕ} {st : MemoryState} {g : ℕ} (hg : g ∈ S) :
      Grow k A ⟨own, S, st⟩ ⟨own, S, { st with mem := st.mem.zero g }⟩
  | clearPage {own : ℕ → Option (τ × List ℕ)} {S : Set ℕ} {st : MemoryState} {g : ℕ}
      {path : List ℕ} (hg : own g = some (A, path)) (hlen : path.length = 4) :
      Grow k A ⟨own, S, st⟩ ⟨own, S, { st with mem := st.mem.zero g }⟩
  | link {own : ℕ → Option (τ × List ℕ)} {S : Set ℕ} {st : MemoryState} {table g i : ℕ}
      {path : List ℕ} (ht : own table = some (A, path)) (hlen : path.length < 4)
      (hslot : path = [] → ¬ k.Shared i) (hi : i < 512) (hg : g ∈ S) (hnone : own g = none)
      (hun : st.mem table i = .unused) :
      Grow k A ⟨own, S, st⟩ ⟨update own g (some (A, path ++ [i])), S \ {g},
        { st with mem := st.mem.write table i (.user g) }⟩

/-- Several steps. -/
abbrev Grows (k : KernelSpace) (A : τ) := Relation.ReflTransGen (Grow k A)

theorem Owned.systemAllocateFrame (h : Owned k roots own st) :
    Mm.systemAllocateFrame st.mem st.allocator = (st.mem, st.allocator, none) ∨
    ∃ i a, Mm.systemAllocateFrame st.mem st.allocator = (st.mem.zero i, a, some i) ∧
      Owned k roots own ⟨st.mem.zero i, a⟩ ∧ Spare k own ⟨st.mem.zero i, a⟩ i ∧
      (∀ A, Keeps k A own st own ⟨st.mem.zero i, a⟩) ∧
      (∀ g, Spare k own st g → Spare k own ⟨st.mem.zero i, a⟩ g ∧ g ≠ i) ∧
      ∀ (A : τ) S, Grows k A ⟨own, S, st⟩ ⟨own, insert i S, ⟨st.mem.zero i, a⟩⟩ := by
  unfold Mm.systemAllocateFrame
  rcases h.allocateFrame with hnone | ⟨i, a, ha, hown, hspare, hkeep, hrest⟩
  · exact .inl (by rw [hnone])
  · have hframe : i * FRAME_SIZE / FRAME_SIZE = i := Nat.mul_div_cancel _ (by decide)
    refine .inr ⟨i, a, by simp only [ha, hframe], ?_, ?_, fun A => ?_, fun g hg => ?_,
      fun A S => ?_⟩
    · exact hown.zero hspare.user fun A => by simp [hspare.unowned]
    · exact ⟨hspare.unowned, hspare.busy, hspare.user⟩
    · refine (hkeep A).trans (Keeps.of_mem fun f hf => zero_of_ne ?_)
      rintro rfl
      exact hspare.not_foreign hf
    · obtain ⟨hg', hne⟩ := hrest g hg
      exact ⟨⟨hg'.unowned, hg'.busy, hg'.user⟩, hne⟩
    · exact (Relation.ReflTransGen.single (Grow.take ha)).tail (Grow.clear (Set.mem_insert i S))

theorem Owned.createNextTable (h : Owned k roots own st)
    (ht : own table = some (A, path)) (hlen : path.length < 3)
    (hslot : path = [] → ¬ k.Shared i) (hi : i < 512) {mem' : Memory} {a' : BitmapFrameAllocator}
    {r : Except MapToError ℕ}
    (hr : Paging.createNextTable Mm.systemAllocateFrame st.mem st.allocator table i
      = ((mem', a'), r)) :
    ∃ own', Owned k roots own' ⟨mem', a'⟩ ∧ Keeps k A own st own' ⟨mem', a'⟩ ∧
      (∀ g, Spare k own st g → Spare k own' ⟨mem', a'⟩ g) ∧
      (∀ t, r = .ok t → own' t = some (A, path ++ [i])) ∧
      ∀ S, (∀ g ∈ S, Spare k own st g) → Grows k A ⟨own, S, st⟩ ⟨own', S, ⟨mem', a'⟩⟩ := by
  unfold Paging.createNextTable at hr
  rcases (h.tree A).entry table path i ht (by omega) hslot with hun | ⟨g, hg, hown⟩
  · simp only [hun, isUnused_unused, if_true] at hr
    rcases h.systemAllocateFrame with hnone | ⟨f, a, ha, hown, hspare, hkeep, hrest, hgrow⟩
    · -- no frame left: nothing changed
      rw [hnone] at hr
      cases hr
      exact ⟨own, h, Keeps.refl, fun g hg => hg, fun t ht => (nomatch ht), fun S _ => .refl⟩
    · -- a new table, already clear when it is linked and cleared again
      rw [ha] at hr
      have hclear : (st.mem.zero f) f = fun _ => .unused := zero_self
      have htf : f ≠ table := Ne.symm (hspare.ne ht)
      have hagain : ((st.mem.zero f).write table i (.user f)).zero f
          = (st.mem.zero f).write table i (.user f) := by
        apply update_eq_self_iff.mpr
        rw [write_of_ne htf, hclear]
      simp only [hagain] at hr
      cases hr
      refine ⟨_, hown.attach ht (by omega) hslot hspare fun _ => hclear,
        (hkeep A).trans (hown.keeps_attach ht hspare), fun g hg => ?_, fun t ht => ?_,
        fun S hS => ?_⟩
      · obtain ⟨hg', hne⟩ := hrest g hg
        exact ⟨(update_of_ne hne ..).trans hg'.unowned, hg'.busy, hg'.user⟩
      · cases ht
        exact update_self ..
      · have hun' : st.mem.zero f table i = .unused :=
          (congrFun (zero_of_ne (Ne.symm htf)) i).trans hun
        have hlink : Grow k A ⟨own, insert f S, ⟨st.mem.zero f, a'⟩⟩ _ :=
          Grow.link ht (by omega) hslot hi (Set.mem_insert f S) hspare.unowned hun'
        rw [Set.insert_sdiff_self_of_notMem fun hf => (hrest f (hS f hf)).2 rfl] at hlink
        exact (hgrow A S).tail hlink
  · -- an own table is already there, with the three flags set
    have hsame : st.mem.write table i (.user g) = st.mem := by
      apply update_eq_self_iff.mpr
      exact update_eq_self_iff.mpr hg.symm
    simp only [hg, isUnused_user, addUserFlags_user, hsame, Bool.false_eq_true, if_false] at hr
    cases hr
    refine ⟨own, h, Keeps.refl, fun g hg => hg, fun t ht => ?_, fun S _ => .refl⟩
    cases ht
    exact hown

/-- The tables of `mapTo`, from a table at level `l + 1` on. -/
theorem Owned.createTables : ∀ {l table : ℕ} {path : List ℕ}
    {own : ℕ → Option (τ × List ℕ)} {st : MemoryState} {mem' : Memory}
    {a' : BitmapFrameAllocator} {r : Except MapToError ℕ},
    Owned k roots own st → own table = some (A, path) → path.length + l = 3 →
    (path = [] → ¬ k.Shared (index va l)) →
    Paging.createTables Mm.systemAllocateFrame va l table st.mem st.allocator = ((mem', a'), r) →
    ∃ own', Owned k roots own' ⟨mem', a'⟩ ∧ Keeps k A own st own' ⟨mem', a'⟩ ∧
      (∀ g, Spare k own st g → Spare k own' ⟨mem', a'⟩ g) ∧
      (∀ t, r = .ok t → ∃ q, q.length = 3 ∧ own' t = some (A, q)) ∧
      ∀ S, (∀ g ∈ S, Spare k own st g) → Grows k A ⟨own, S, st⟩ ⟨own', S, ⟨mem', a'⟩⟩ := by
  intro l
  induction l with
  | zero =>
    intro table path own st mem' a' r h ht hlen _ hr
    cases hr
    refine ⟨own, h, Keeps.refl, fun g hg => hg, fun t ht' => ?_, fun S _ => .refl⟩
    cases ht'
    exact ⟨path, hlen, ht⟩
  | succ l ih =>
    intro table path own st mem' a' r h ht hlen hslot hr
    rw [Paging.createTables] at hr
    split at hr
    · rename_i mem₁ a₁ next hnext
      obtain ⟨own₁, h₁, hkeep₁, hspare₁, hown₁, hgrow₁⟩ :=
        h.createNextTable ht (by omega) hslot (index_lt va _) hnext
      obtain ⟨own₂, h₂, hkeep₂, hspare₂, hown₂, hgrow₂⟩ :=
        ih h₁ (hown₁ next rfl) (by rw [length_append, length_singleton]; omega)
          (by simp) hr
      refine ⟨own₂, h₂, hkeep₁.trans hkeep₂, fun g hg => hspare₂ g (hspare₁ g hg), hown₂,
        fun S hS => ?_⟩
      exact (hgrow₁ S hS).trans (hgrow₂ S fun g hg => hspare₁ g (hS g hg))
    · rename_i mem₁ a₁ e hnext
      cases hr
      obtain ⟨own₁, h₁, hkeep₁, hspare₁, -, hgrow₁⟩ :=
        h.createNextTable ht (by omega) hslot (index_lt va _) hnext
      exact ⟨own₁, h₁, hkeep₁, hspare₁, fun t ht => (by cases ht), hgrow₁⟩

variable {pml4 : ℕ} {next : MemoryState → ℕ → Option MemoryState} {current : ℕ}

/-- **Mapping a page** into a slot that is not shared keeps memory owned and every foreign frame.
When it succeeds, every frame it took is linked. -/
theorem Owned.allocateAndMapUserPage (hm : m.Documented) (h : Owned k roots own st)
    (hpml4 : roots A = some pml4) (hslot : ¬ k.Shared (index va 3)) :
    ∃ own', Owned k roots own' (Mm.allocateAndMapUserPage m st pml4 va).1 ∧
      Keeps k A own st own' (Mm.allocateAndMapUserPage m st pml4 va).1 ∧
      ((Mm.allocateAndMapUserPage m st pml4 va).2 = .ok () →
        Grows k A ⟨own, ∅, st⟩ ⟨own', ∅, (Mm.allocateAndMapUserPage m st pml4 va).1⟩) := by
  unfold Mm.allocateAndMapUserPage
  split_ifs
  · exact ⟨own, h, Keeps.refl, fun _ => .refl⟩
  rcases h.allocateFrame with hnone | ⟨f, a, ha, hown, hspare, hkeep, -⟩
  · rw [hnone]
    exact ⟨own, h, Keeps.refl, fun hok => by cases hok⟩
  have hframe : f * FRAME_SIZE / FRAME_SIZE = f := Nat.mul_div_cancel _ (by decide)
  rw [ha]
  simp only [hframe, hm.mapTo_eq, mapTo]
  cases htables : Paging.createTables Mm.systemAllocateFrame va 3 pml4 st.mem a with
  | mk s₁ r =>
    obtain ⟨mem₁, a₁⟩ := s₁
    obtain ⟨own₁, h₁, hkeep₁, hspare₁, hown₁, hgrow₁⟩ :=
      hown.createTables (h.root A pml4 hpml4) (by simp) (fun _ => hslot) htables
    cases r with
    | error e => exact ⟨own₁, h₁, (hkeep A).trans hkeep₁, fun hok => by cases hok⟩
    | ok p1 =>
      obtain ⟨q, hq, hp1⟩ := hown₁ p1 rfl
      have hspare' := hspare₁ f hspare
      by_cases hleaf : (mem₁ p1 (index va 0)).isUnused = true
      · -- the leaf is linked, then the page is cleared
        have hnil : q ≠ [] := by
          rintro rfl
          simp at hq
        have h₂ := h₁.attach (i := index va 0) hp1 (by omega) (fun h0 => absurd h0 hnil) hspare'
          (by omega)
        have hkeep₂ := h₁.keeps_attach (i := index va 0) (q := q ++ [index va 0]) hp1 hspare'
        have hnew : update own₁ f (some (A, q ++ [index va 0])) f
            = some (A, q ++ [index va 0]) := update_self ..
        simp only [hleaf, if_true]
        refine ⟨_, h₂.zero hspare'.user fun B => by simp, ?_, fun _ => ?_⟩
        · refine (hkeep A).trans (hkeep₁.trans (hkeep₂.trans ?_))
          refine Keeps.of_mem fun g hg => zero_of_ne ?_
          rintro rfl
          exact h₂.not_foreign hnew hg
        · -- the frame is taken first and linked last
          have hlink : Grow k A ⟨own₁, {f}, ⟨mem₁, a₁⟩⟩ _ :=
            Grow.link hp1 (by omega) (fun h0 => absurd h0 hnil) (index_lt va 0)
              (Set.mem_singleton f) hspare'.unowned (isUnused_iff.mp hleaf)
          rw [Set.sdiff_self] at hlink
          have htake : Grows k A ⟨own, ∅, st⟩ ⟨own, {f}, { st with allocator := a }⟩ := by
            have hstep : Grow k A ⟨own, ∅, st⟩ _ := Grow.take ha
            rw [insert_empty_eq] at hstep
            exact .single hstep
          refine ((htake.trans (hgrow₁ {f} ?_)).tail hlink).tail (Grow.clearPage hnew ?_)
          · rintro g rfl
            exact hspare
          · rw [length_append, length_singleton, hq]
      · simp only [hleaf]
        exact ⟨own₁, h₁, (hkeep A).trans hkeep₁, fun hok => by cases hok⟩

/-! ### Creating an address space -/

/-- The slots of a live level-4 table: the shared ones are the kernel's, the others of the lower
half are unused or the task's. -/
structure LiveTable (k : KernelSpace) (table : ℕ → PageTableEntry) : Prop where
  shared : ∀ i, k.Shared i → table i = k.mem k.pml4 i
  lower : ∀ i < 256, ¬ k.Shared i → (table i).isUnused = true ∨ (table i).userAccessible = true

theorem Owned.liveTable (h : Owned k roots own st)
    (hcur : current = k.pml4 ∨ ∃ B, own current = some (B, [])) : LiveTable k (st.mem current) := by
  rcases hcur with rfl | ⟨B, hB⟩
  · rw [h.kernel_mem _ k.tables_pml4]
    refine ⟨fun _ _ => rfl, fun i hi hs => ?_⟩
    by_contra hboth
    simp only [not_or, Bool.not_eq_true] at hboth
    exact hs (.inr ⟨hi, hboth⟩)
  · refine ⟨fun i => (h.tree B).shared current i hB, fun i _ hs => ?_⟩
    rcases (h.tree B).entry current [] i hB (by simp) fun _ => hs with hun | ⟨g, hg, -⟩
    · exact .inl (isUnused_iff.mpr hun)
    · exact .inr (congrArg PageTableEntry.userAccessible hg)

theorem LiveTable.isolatedTable_eq {table : ℕ → PageTableEntry} (h : LiveTable k table) (i : ℕ) :
    isolatedTable table i = if k.Shared i then k.mem k.pml4 i else .unused := by
  unfold isolatedTable
  by_cases hs : k.Shared i
  · rw [if_pos hs, h.shared i hs]
    rcases hs with hup | hlow
    · rw [if_pos hup]
    · rw [if_neg (by omega), if_pos hlow]
  · rw [if_neg hs, if_neg fun hup => hs (.inl hup), if_neg]
    rintro ⟨hlt, hun, huser⟩
    rcases h.lower i hlt hs with hused | hmine
    · exact Bool.noConfusion (hun.symm.trans hused)
    · exact Bool.noConfusion (huser.symm.trans hmine)

/-- **A new PML4** shares the kernel's slots and has nothing else, whichever live table it was
copied from. -/
theorem Owned.createIsolatedPml4 [DecidableEq τ] (h : Owned k roots own st)
    (hcur : current = k.pml4 ∨ ∃ B, own current = some (B, [])) :
    (∃ st', Mm.createIsolatedPml4 st current = (st', none) ∧ Owned k roots own st' ∧
      Keeps k A own st own st') ∨
    ∃ f st', Mm.createIsolatedPml4 st current = (st', some f) ∧
      Owned k (update roots A (some f)) (update own f (some (A, []))) st' ∧
      Keeps k A own st (update own f (some (A, []))) st' := by
  unfold Mm.createIsolatedPml4
  rcases h.systemAllocateFrame with hnone | ⟨f, a, ha, hown, hspare, hkeep, -, -⟩
  · rw [hnone]
    exact .inl ⟨_, rfl, h, Keeps.refl⟩
  rw [ha]
  refine .inr ⟨f, _, rfl, ?_, ?_⟩
  · have htable := (hown.liveTable hcur).isolatedTable_eq
    have hold : ∀ g, g ≠ f → update own f (some (A, [])) g = own g :=
      fun g hg => update_of_ne hg ..
    have hnew : update own f (some (A, [])) f = some (A, []) := update_self ..
    refine ⟨hown.coherent, fun g hg => ?_, hown.kernel_busy, fun g hg => ?_, fun g hg => ?_,
      fun g B q hg => ?_, fun B g hg => ?_, fun B => ⟨fun g i hg hs => ?_,
      fun g q i hg hq hi => ?_⟩⟩
    · have hne : g ≠ f := fun he => hspare.user (he ▸ .inl hg)
      exact (update_of_ne hne ..).trans (hown.kernel_mem g hg)
    · by_cases hgf : g = f
      · exact hgf ▸ hspare.busy
      · exact hown.owned_busy g (hold g hgf ▸ hg)
    · by_cases hgf : g = f
      · exact hgf ▸ hspare.user
      · exact hown.owned_user g (hold g hgf ▸ hg)
    · by_cases hBA : B = A
      · simp [hBA]
      · rw [update_of_ne hBA]
        by_cases hgf : g = f
        · rw [hgf, hnew] at hg
          exact absurd (Prod.mk.inj (Option.some.inj hg)).1.symm hBA
        · exact hown.live g B q (hold g hgf ▸ hg)
    · by_cases hBA : B = A
      · rw [hBA, update_self, Option.some.injEq] at hg
        rw [← hg, hnew, hBA]
      · rw [update_of_ne hBA] at hg
        have hg' := hown.root B g hg
        rw [hold g (hspare.ne hg'), hg']
    · by_cases hgf : g = f
      · -- a shared slot of the new table
        subst hgf
        refine (congrFun (update_self ..) i).trans ((htable i).trans ?_)
        rw [if_pos hs]
      · rw [hold g hgf] at hg
        exact (congrFun (update_of_ne hgf ..) i).trans ((hown.tree B).shared g i hg hs)
    · by_cases hgf : g = f
      · -- any other slot of it is unused
        subst hgf
        rw [hnew] at hg
        cases hg
        left
        refine (congrFun (update_self ..) i).trans ((htable i).trans ?_)
        rw [if_neg (hi rfl)]
      · rw [hold g hgf] at hg
        rcases (hown.tree B).entry g q i hg hq hi with hun | ⟨x, hx, hox⟩
        · exact .inl ((congrFun (update_of_ne hgf ..) i).trans hun)
        · refine .inr ⟨x, (congrFun (update_of_ne hgf ..) i).trans hx, ?_⟩
          rw [hold x (hspare.ne hox), hox]
  · refine (hkeep A).trans ⟨fun g hg => ?_, fun _ _ => rfl, fun g hg => ?_⟩
    · have hne : g ≠ f := fun he => hspare.not_foreign (he ▸ hg)
      exact update_of_ne hne ..
    · have hne : g ≠ f := fun he => hspare.not_foreign (he ▸ hg)
      exact update_of_ne hne ..

/-! ### Reaping an address space -/

/-- What a part of the teardown of `A` does: it keeps `A`'s tables a tree and the allocator
coherent, and leaves every frame alone that is not `A`'s. -/
structure Releases (k : KernelSpace) (own : ℕ → Option (τ × List ℕ)) (A : τ)
    (st st' : MemoryState) : Prop where
  tree : Tree k own st'.mem A
  coherent : st.allocator.Coherent → st'.allocator.Coherent
  keeps : ∀ f, (∀ path, own f ≠ some (A, path)) → st'.mem f = st.mem f ∧
    st'.allocator.refCount f = st.allocator.refCount f ∧
    st'.allocator.testBit f = st.allocator.testBit f

theorem Releases.refl (h : Tree k own st.mem A) : Releases k own A st st :=
  ⟨h, fun hc => hc, fun _ _ => ⟨rfl, rfl, rfl⟩⟩

theorem Releases.trans (h : Releases k own A st st') (h' : Releases k own A st' st'') :
    Releases k own A st st'' where
  tree := h'.tree
  coherent hc := h'.coherent (h.coherent hc)
  keeps f hf := by
    obtain ⟨hm, hr, hb⟩ := h.keeps f hf
    obtain ⟨hm', hr', hb'⟩ := h'.keeps f hf
    exact ⟨hm'.trans hm, hr'.trans hr, hb'.trans hb⟩

/-- A loop of releasing steps releases. -/
theorem Releases.foldlM {P : ℕ → Prop} {body : MemoryState → ℕ → Option MemoryState}
    (hbody : ∀ st i st', Tree k own st.mem A → P i → body st i = some st' →
      Releases k own A st st') :
    ∀ {l : List ℕ} {st st' : MemoryState}, Tree k own st.mem A → (∀ i ∈ l, P i) →
      l.foldlM body st = some st' → Releases k own A st st' := by
  intro l
  induction l with
  | nil =>
    intro st st' htree _ h
    cases h
    exact Releases.refl htree
  | cons i l ih =>
    intro st st' htree hP h
    obtain ⟨st₁, h₁, h₂⟩ := bind_eq_some_iff.mp h
    have hstep := hbody st i st₁ htree (hP i (by simp)) h₁
    exact hstep.trans (ih hstep.tree (fun j hj => hP j (by simp [hj])) h₂)

theorem Releases.cowDeallocateFrame (htree : Tree k own st.mem A)
    (hg : own g = some (A, path)) (h : st.cowDeallocateFrame g = some st') :
    Releases k own A st st' := by
  obtain ⟨hmem, hcoh, hrest⟩ := cowDeallocateFrame_spec h
  refine ⟨hmem ▸ htree, hcoh, fun f hf => ?_⟩
  have hne : f ≠ g := fun he => hf path (he ▸ hg)
  exact ⟨by rw [hmem], hrest f hne⟩

theorem Releases.setUnused (htree : Tree k own st.mem A)
    (ht : own table = some (A, path)) (hslot : path = [] → ¬ k.Shared i) :
    Releases k own A st (st.setUnused table i) := by
  refine ⟨⟨fun f j hf hs => ?_, fun f q j hf hq hj => ?_⟩, fun hc => hc, fun f hf => ?_⟩
  · have hkeep : (st.setUnused table i).mem f j = st.mem f j := by
      apply write_of_not
      rintro ⟨rfl, rfl⟩
      cases ht.symm.trans hf
      exact hslot rfl hs
    exact hkeep.trans (htree.shared f j hf hs)
  · by_cases hwritten : f = table ∧ j = i
    · obtain ⟨rfl, rfl⟩ := hwritten
      exact .inl (write_self.trans (if_pos rfl))
    · have hkeep : (st.setUnused table i).mem f j = st.mem f j := write_of_not hwritten
      simpa only [hkeep] using htree.entry f q j hf hq hj
  · have hne : f ≠ table := fun he => hf path (he ▸ ht)
    exact ⟨write_of_ne hne, rfl, rfl⟩

/-- One entry of a table of `A` at the path `path`, when `next` releases what is below it. -/
theorem Releases.destroyEntry {checkHuge : Bool}
    (ht : own table = some (A, path)) (hlen : path.length < 4)
    (hi : i < 256 ∨ path ≠ [])
    (hnext : ∀ st g st', Tree k own st.mem A → own g = some (A, path ++ [i]) →
      next st g = some st' → Releases k own A st st')
    (htree : Tree k own st.mem A) (h : destroyEntry next checkHuge table st i = some st') :
    Releases k own A st st' := by
  unfold Mm.destroyEntry at h
  by_cases huser : (!(st.mem table i).isUnused && (st.mem table i).userAccessible) = true
  · rw [if_pos huser] at h
    rw [Bool.and_eq_true, Bool.not_eq_true'] at huser
    -- a user entry is not in a shared slot
    have hslot : path = [] → ¬ k.Shared i := by
      rintro rfl hs
      have he := htree.shared table i ht hs
      rcases hs with hup | ⟨-, -, hsup⟩
      · rcases hi with hi | hi
        · omega
        · exact hi rfl
      · rw [he, hsup] at huser
        exact Bool.noConfusion huser.2
    rcases htree.entry table path i ht hlen hslot with hun | ⟨g, hg, hown⟩
    · rw [hun] at huser
      exact Bool.noConfusion huser.1
    · obtain ⟨st₁, h₁, h⟩ := bind_eq_some_iff.mp h
      obtain ⟨st₂, h₂, rfl⟩ := map_eq_some_iff.mp h
      have hr₁ : Releases k own A st st₁ := by
        rw [hg] at h₁
        simp only [PageTableEntry.user, Bool.and_false, Bool.false_eq_true, if_false] at h₁
        exact hnext st g st₁ htree hown h₁
      have hr₂ : Releases k own A st₁ st₂ := by
        rw [hg] at h₂
        exact Releases.cowDeallocateFrame hr₁.tree hown h₂
      exact (hr₁.trans hr₂).trans (Releases.setUnused hr₂.tree ht hslot)
  · rw [if_neg huser] at h
    cases h
    exact Releases.refl htree

/-- `f` releases what is below a table of `A` whose path has length `n`. -/
def ReleasesAt (k : KernelSpace) (own : ℕ → Option (τ × List ℕ)) (A : τ) (n : ℕ)
    (f : MemoryState → ℕ → Option MemoryState) : Prop :=
  ∀ st g st' path, path.length = n → Tree k own st.mem A → own g = some (A, path) →
    f st g = some st' → Releases k own A st st'

theorem ReleasesAt.destroyTable {n : ℕ}
    (hnext : ReleasesAt k own A (n + 2) next) (hn : n < 3) (checkHuge : Bool) :
    ReleasesAt k own A (n + 1)
      fun st g => (List.range 512).foldlM (destroyEntry next checkHuge g) st := by
  intro st g st' path hlen htree hg h
  refine Releases.foldlM (P := fun _ => True) (fun st i st' htree _ h => ?_) htree
    (fun _ _ => trivial) h
  refine Releases.destroyEntry hg (by omega) (.inr ?_) (fun st g st' => ?_) htree h
  · exact ne_nil_of_length_pos (by omega)
  · exact hnext st g st' _ (by simp [hlen])

/-- The whole teardown, from the level-1 tables up. -/
theorem Releases.destroyUserAddressSpace (htree : Tree k own st.mem A)
    (ht : own pml4 = some (A, [])) (h : destroyUserAddressSpace st pml4 = some st') :
    Releases k own A st st' := by
  have hpage : ReleasesAt k own A 4 fun st _ => some st := by
    rintro st g _ path - htree - ⟨⟩
    exact Releases.refl htree
  have hpt : ReleasesAt k own A 3 destroyPt := hpage.destroyTable (by decide) false
  have hpd : ReleasesAt k own A 2 destroyPd := hpt.destroyTable (by decide) true
  have hpdpt : ReleasesAt k own A 1 destroyPdpt := hpd.destroyTable (by decide) true
  obtain ⟨st₁, h₁, h₂⟩ := bind_eq_some_iff.mp h
  have hr₁ : Releases k own A st st₁ := by
    refine Releases.foldlM (P := fun i => i < 256) (fun st i st' htree hi h => ?_) htree
      (fun i hi => mem_range.mp hi) h₁
    refine Releases.destroyEntry ht (by simp) (.inl hi) (fun st g st' htree hg h => ?_) htree h
    exact hpdpt st g st' _ rfl htree hg h
  exact hr₁.trans (Releases.cowDeallocateFrame hr₁.tree ht h₂)

/-- The ownership map without the frames of `A`. -/
def dropOwner [DecidableEq τ] (own : ℕ → Option (τ × List ℕ)) (A : τ) (f : ℕ) :
    Option (τ × List ℕ) :=
  (own f).filter fun o => o.1 ≠ A

theorem dropOwner_eq_some [DecidableEq τ] :
    dropOwner own A f = some (B, path) ↔ own f = some (B, path) ∧ B ≠ A := by
  simp [dropOwner, filter_eq_some_iff]

/-- **Reaping `A`** keeps memory owned by the others, and every foreign frame. -/
theorem Owned.destroyUserAddressSpace [DecidableEq τ] (h : Owned k roots own st)
    (hpml4 : roots A = some pml4) (hd : Mm.destroyUserAddressSpace st pml4 = some st') :
    Owned k (update roots A none) (dropOwner own A) st' ∧
      Keeps k A own st (dropOwner own A) st' := by
  have hrel := Releases.destroyUserAddressSpace (h.tree A) (h.root A pml4 hpml4) hd
  -- a foreign frame is not one of `A`'s
  have hforeign : ∀ f, Foreign k own A f → ∀ path, own f ≠ some (A, path) :=
    fun f hf path ho => h.not_foreign ho hf
  have hkernel : ∀ f, k.frames f → ∀ path, own f ≠ some (A, path) :=
    fun f hf => hforeign f (.inl hf)
  have hother : ∀ f B path, own f = some (B, path) → B ≠ A →
      ∀ path', own f ≠ some (A, path') :=
    fun f B path ho hne => hforeign f (.inr ⟨B, path, ho, hne⟩)
  constructor
  · refine ⟨hrel.coherent h.coherent, fun f hf => ?_, fun f hf => ?_, fun f hf => ?_,
      fun f hf => ?_,
      fun f B path hf => ?_, fun B f hf => ?_, fun B => ⟨fun f i hf hs => ?_,
      fun f path i hf hlen hi => ?_⟩⟩
    · rw [(hrel.keeps f (hkernel f (.inl hf))).1, h.kernel_mem f hf]
    · rw [(hrel.keeps f (hkernel f hf)).2.2, h.kernel_busy f hf]
    · obtain ⟨⟨B, path⟩, ho⟩ := ne_none_iff_exists'.mp hf
      obtain ⟨ho, hne⟩ := dropOwner_eq_some.mp ho
      rw [(hrel.keeps f (hother f B path ho hne)).2.2]
      exact h.owned_busy f (by simp [ho])
    · obtain ⟨⟨B, path⟩, ho⟩ := ne_none_iff_exists'.mp hf
      exact h.owned_user f (by simp [(dropOwner_eq_some.mp ho).1])
    · obtain ⟨ho, hne⟩ := dropOwner_eq_some.mp hf
      rw [update_of_ne hne]
      exact h.live f B path ho
    · have hne : B ≠ A := by
        rintro rfl
        simp at hf
      rw [update_of_ne hne] at hf
      exact dropOwner_eq_some.mpr ⟨h.root B f hf, hne⟩
    · obtain ⟨ho, hne⟩ := dropOwner_eq_some.mp hf
      rw [(hrel.keeps f (hother f B _ ho hne)).1]
      exact (h.tree B).shared f i ho hs
    · obtain ⟨ho, hne⟩ := dropOwner_eq_some.mp hf
      rw [(hrel.keeps f (hother f B _ ho hne)).1]
      rcases (h.tree B).entry f path i ho hlen hi with hun | ⟨g, hg, hown⟩
      · exact .inl hun
      · exact .inr ⟨g, hg, dropOwner_eq_some.mpr ⟨hown, hne⟩⟩
  · refine ⟨fun f hf => (hrel.keeps f (hforeign f hf)).1,
      fun f hf => (hrel.keeps f (hforeign f hf)).2.1, fun f hf => ?_⟩
    cases ho : own f with
    | none => simp [dropOwner, ho]
    | some o =>
      obtain ⟨B, path⟩ := o
      refine dropOwner_eq_some.mpr ⟨ho, ?_⟩
      rintro rfl
      exact hforeign f hf path ho

end Ownership

end NwinOs.Mm
