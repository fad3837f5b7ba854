import NwinOs.Mm.Equiv.AddressSpace
import Mathlib.Data.List.Induction

/-!
# A process gives back all of its memory

`Accounted` compares the allocator with the one from before the address space was created: the
frames of the task's tree, and those that are taken but not linked yet, were free then and have one
reference now; nothing else changed.  It is kept by every step of mapping a page (`Accounted.grow`).

The teardown walks the tree.  `Reclaiming` says how far it is: the frames at the paths `R` are free
again, those at the other paths are still linked and in use.  One entry adds the subtree behind it
(`Reclaiming.destroyEntry`), a loop over a table adds everything below the table, and the whole
teardown everything (`process_memory_returned`).
-/

namespace NwinOs.Mm

open Paging Function PageTableEntry List BitmapFrameAllocator Option

/-! ### The books, bit by bit -/

namespace BitmapFrameAllocator

variable {i : ℕ}

theorem bit_forceSetBit (s : BitmapFrameAllocator) (hi : i < s.totalFrames) (j : ℕ) :
    (s.forceSetBit i).bit j = (s.bit j || decide (i = j)) := by
  unfold forceSetBit
  rw [dif_pos hi]
  exact bit_update s (by omega) (fun _ hl => Bits.testBit_setBit hl) Bool.or_false _ _ j

theorem deallocateFrame_of_one {s : BitmapFrameAllocator} (hone : s.refCount i = 1) :
    ∃ s', s.deallocateFrame (i * FRAME_SIZE) = some s' ∧ s'.totalFrames = s.totalFrames ∧
      (∀ j, s'.bit j = (s.bit j && !decide (i = j))) ∧
      ∀ f, s'.refCount f = if i = f then 0 else s.refCount f := by
  have hi : i < s.totalFrames := by
    by_contra hge
    rw [refCount, dif_neg hge] at hone
    exact absurd hone (by decide)
  have hcount : s.refCounts[i] = 1#16 := by
    rw [refCount, dif_pos hi] at hone
    exact BitVec.eq_of_toNat_eq hone
  have hframe : i * FRAME_SIZE / FRAME_SIZE = i := Nat.mul_div_cancel _ (by decide)
  have hnonzero : ¬ (1#16 = 0#16) := by decide
  unfold deallocateFrame deallocateFrameNumber
  rw [hframe, dif_pos hi, hcount, if_neg hnonzero]
  refine ⟨_, rfl, rfl, fun j => ?_, fun f => ?_⟩
  · exact bit_update s (by omega) (g := fun x y => x && !y) (fun _ hl => Bits.testBit_clearBit hl)
      Bool.and_true _ _ j
  · rw [refCount_set s hi]
    rfl

theorem eq_of_books {s s' : BitmapFrameAllocator} (htotal : s'.totalFrames = s.totalFrames)
    (hbit : ∀ j, s'.bit j = s.bit j) (hcount : ∀ f, s'.refCount f = s.refCount f) :
    s' = { s with lastFreeFrameHint := s'.lastFreeFrameHint } := by
  obtain ⟨n, bitmap, refCounts, hint⟩ := s
  obtain ⟨n', bitmap', refCounts', hint'⟩ := s'
  obtain rfl : n' = n := htotal
  have hbitmap : bitmap' = bitmap := by
    apply Vector.ext
    intro i hi
    apply BitVec.eq_of_getLsbD_eq
    intro j hj
    have h := hbit (8 * i + j)
    simp only [bit, Nat.mul_add_div (show 0 < 8 by decide), Nat.div_eq_of_lt hj, Nat.add_zero,
      Nat.mul_add_mod, Nat.mod_eq_of_lt hj, dif_pos hi, Bits.testBit_eq_getLsbD hj] at h
    exact h
  have hcounts : refCounts' = refCounts := by
    apply Vector.ext
    intro f hf
    have h := hcount f
    simp only [refCount, dif_pos hf] at h
    exact BitVec.eq_of_toNat_eq h
  rw [hbitmap, hcounts]

end BitmapFrameAllocator

/-! ### Accounting for the frames of a tree -/

section Account

variable {τ : Type} {k : KernelSpace} {A : τ} {a₀ : BitmapFrameAllocator}
  {own : ℕ → Option (τ × List ℕ)} {S : Set ℕ} {st st' : MemoryState}

/-- Every frame of `A` is linked at its path and is in use once, having been free in `a₀`; so is
every taken frame.  All other books are those of `a₀`. -/
structure Accounted (k : KernelSpace) (A : τ) (a₀ : BitmapFrameAllocator)
    (own : ℕ → Option (τ × List ℕ)) (S : Set ℕ) (st : MemoryState) : Prop where
  total : st.allocator.totalFrames = a₀.totalFrames
  alone : ∀ g, own g = none ∨ ∃ q, own g = some (A, q)
  unique : ∀ g g' q, own g = some (A, q) → own g' = some (A, q) → g = g'
  depth : ∀ g q, own g = some (A, q) → q.length ≤ 4
  linked : ∀ g q i, own g = some (A, q ++ [i]) → i < 512 ∧ (q = [] → ¬ k.Shared i) ∧
    ∃ t, own t = some (A, q) ∧ st.mem t i = .user g
  taken : ∀ g ∈ S, own g = none
  mine : ∀ g, (∃ q, own g = some (A, q)) ∨ g ∈ S →
    a₀.bit g = false ∧ st.allocator.bit g = true ∧ st.allocator.refCount g = 1
  others : ∀ g, (∀ q, own g ≠ some (A, q)) → g ∉ S →
    st.allocator.bit g = a₀.bit g ∧ st.allocator.refCount g = a₀.refCount g

namespace Accounted

section

variable (h : Accounted k A a₀ own S st)
include h

/-- Memory may change where no edge of the tree is stored. -/
theorem of_edges {mem : Memory}
    (hedge : ∀ t q i g, own t = some (A, q) → own g = some (A, q ++ [i]) → st.mem t i = .user g →
      mem t i = .user g) : Accounted k A a₀ own S { st with mem := mem } where
  total := h.total
  alone := h.alone
  unique := h.unique
  depth := h.depth
  linked g q i hg := by
    obtain ⟨hi, hslot, t, ht, hmem⟩ := h.linked g q i hg
    exact ⟨hi, hslot, t, ht, hedge t q i g ht hg hmem⟩
  taken := h.taken
  mine := h.mine
  others := h.others

/-- A frame is taken: it was free before, and nobody's. -/
theorem take {a : BitmapFrameAllocator}
    (ha : st.allocator.allocateFrame = (a, some (i * FRAME_SIZE))) :
    Accounted k A a₀ own (insert i S) { st with allocator := a } := by
  rcases allocateFrame_cases st.allocator with hnone | ⟨i', hfree, ha'⟩
  · rw [hnone] at ha
    cases ha
  rw [ha'] at ha
  obtain ⟨rfl, hsome⟩ := Prod.mk.inj ha
  obtain rfl : i' = i := Nat.eq_of_mul_eq_mul_right (by decide) (some.inj hsome)
  have hlt := lt_of_testBit_eq_false hfree
  have hbit : ∀ j, (st.allocator.forceSetBit i').bit j
      = (st.allocator.bit j || decide (i' = j)) := st.allocator.bit_forceSetBit hlt
  have hcount : ∀ f, (st.allocator.forceSetBit i').refCount f
      = if i' = f ∧ i' < st.allocator.totalFrames then 1 else st.allocator.refCount f :=
    st.allocator.refCount_forceSetBit i'
  have hclear : st.allocator.bit i' = false :=
    (testBit_eq_bit hlt).symm.trans hfree
  have hnone : own i' = none := by
    rcases h.alone i' with hnone | howned
    · exact hnone
    · have hset := (h.mine i' (.inl howned)).2.1
      rw [hclear] at hset
      cases hset
  have hfresh : i' ∉ S := by
    intro hmem
    have hset := (h.mine i' (.inr hmem)).2.1
    rw [hclear] at hset
    cases hset
  refine ⟨?_, h.alone, h.unique, h.depth, h.linked, ?_, ?_, ?_⟩
  · exact (totalFrames_forceSetBit ..).trans h.total
  · rintro g (rfl | hg)
    · exact hnone
    · exact h.taken g hg
  · intro g hg
    by_cases heq : i' = g
    · subst heq
      refine ⟨?_, ?_, ?_⟩
      · rw [← (h.others i' (fun q hq => by rw [hnone] at hq; cases hq) hfresh).1, hclear]
      · exact (hbit i').trans (by rw [decide_eq_true rfl, Bool.or_true])
      · exact (hcount i').trans (if_pos ⟨rfl, hlt⟩)
    · have hold : (∃ q, own g = some (A, q)) ∨ g ∈ S := by
        rcases hg with hg | rfl | hg
        · exact .inl hg
        · exact absurd rfl heq
        · exact .inr hg
      obtain ⟨h0, h1, h2⟩ := h.mine g hold
      refine ⟨h0, (hbit g).trans ?_, (hcount g).trans ?_⟩
      · rw [h1, Bool.true_or]
      · rw [if_neg fun hand => heq hand.1, h2]
  · intro g hg hnot
    have hne : i' ≠ g := fun heq => hnot (heq ▸ Set.mem_insert i' S)
    obtain ⟨h1, h2⟩ := h.others g hg fun hmem => hnot (Set.mem_insert_of_mem _ hmem)
    refine ⟨(hbit g).trans ?_, (hcount g).trans ?_⟩
    · rw [decide_eq_false hne, Bool.or_false, h1]
    · rw [if_neg fun hand => hne hand.1, h2]

theorem link {table g : ℕ} {path : List ℕ}
    (ht : own table = some (A, path)) (hlen : path.length < 4) (hslot : path = [] → ¬ k.Shared i)
    (hi : i < 512) (hg : g ∈ S) (hun : st.mem table i = .unused) :
    Accounted k A a₀ (update own g (some (A, path ++ [i]))) (S \ {g})
      { st with mem := st.mem.write table i (.user g) } := by
  have hnone := h.taken g hg
  have hnew : update own g (some (A, path ++ [i])) g = some (A, path ++ [i]) :=
    update_self ..
  have hold : ∀ f, f ≠ g → update own g (some (A, path ++ [i])) f = own f :=
    fun f hf => update_of_ne hf ..
  have hne : ∀ f q, own f = some (A, q) → f ≠ g := by
    rintro f q hf rfl
    rw [hnone] at hf
    cases hf
  -- no other frame is at the new path: it would be linked in the unused slot
  have hfresh : ∀ f, own f ≠ some (A, path ++ [i]) := by
    intro f hf
    obtain ⟨-, -, t, ht', hmem⟩ := h.linked f path i hf
    obtain rfl := h.unique t table path ht' ht
    rw [hmem] at hun
    exact user_ne_unused _ hun
  refine ⟨h.total, ?_, ?_, ?_, ?_, ?_, ?_, ?_⟩
  · intro f
    by_cases h1 : f = g
    · rw [h1]
      exact .inr ⟨_, hnew⟩
    · rw [hold f h1]
      exact h.alone f
  · intro f f' q hf hf'
    by_cases h1 : f = g
    · by_cases h2 : f' = g
      · rw [h1, h2]
      · rw [h1, hnew] at hf
        cases hf
        rw [hold f' h2] at hf'
        exact absurd hf' (hfresh f')
    · rw [hold f h1] at hf
      by_cases h2 : f' = g
      · rw [h2, hnew] at hf'
        cases hf'
        exact absurd hf (hfresh f)
      · rw [hold f' h2] at hf'
        exact h.unique f f' q hf hf'
  · intro f q hf
    by_cases h1 : f = g
    · rw [h1, hnew] at hf
      cases hf
      rw [length_append, length_singleton]
      omega
    · rw [hold f h1] at hf
      exact h.depth f q hf
  · intro f q j hf
    by_cases h1 : f = g
    · rw [h1, hnew] at hf
      obtain ⟨rfl, hlast⟩ := append_inj' (Prod.mk.inj (some.inj hf)).2 rfl
      obtain rfl : i = j := by simpa using hlast
      refine ⟨hi, hslot, table, (hold table (hne table path ht)).trans ht, ?_⟩
      rw [h1]
      exact Memory.write_self.trans (if_pos rfl)
    · rw [hold f h1] at hf
      obtain ⟨hj, hslot', t, ht', hmem⟩ := h.linked f q j hf
      refine ⟨hj, hslot', t, (hold t (hne t q ht')).trans ht', ?_⟩
      refine (Memory.write_of_not ?_).trans hmem
      rintro ⟨rfl, rfl⟩
      rw [hmem] at hun
      exact user_ne_unused _ hun
  · intro f hf
    exact (hold f hf.2).trans (h.taken f hf.1)
  · intro f hf
    apply h.mine
    by_cases h1 : f = g
    · exact .inr (h1 ▸ hg)
    · rcases hf with ⟨q, hf⟩ | hf
      · exact .inl ⟨q, (hold f h1).symm.trans hf⟩
      · exact .inr hf.1
  · intro f hf hnot
    have h1 : f ≠ g := by
      rintro rfl
      exact hf _ hnew
    exact h.others f (fun q hq => hf q ((hold f h1).trans hq)) fun hmem => hnot ⟨hmem, h1⟩

end

/-- A step of mapping a page keeps the account, as long as owned frames are in use. -/
theorem grow {b b' : Books τ} (h : Accounted k A a₀ b.own b.taken b.st) (hstep : Grow k A b b') :
    Accounted k A a₀ b'.own b'.taken b'.st := by
  cases hstep with
  | take ha => exact h.take ha
  | @clear own S st g hg =>
    refine h.of_edges fun t q i f ht _ hmem => ?_
    have hne : t ≠ g := by
      rintro rfl
      exact absurd ((h.taken t hg).symm.trans ht) nofun
    exact (congrFun (Memory.zero_of_ne hne) i).trans hmem
  | @clearPage own S st g path hg hlen =>
    -- a data page is the table of no edge
    refine h.of_edges fun t q i f ht hf hmem => ?_
    have hne : t ≠ g := by
      rintro rfl
      have hpath : path = q := congrArg Prod.snd (some.inj (hg.symm.trans ht))
      have hdepth := h.depth f _ hf
      rw [length_append, length_singleton, ← hpath, hlen] at hdepth
      omega
    exact (congrFun (Memory.zero_of_ne hne) i).trans hmem
  | link ht hlen hslot hi hg _ hun => exact h.link ht hlen hslot hi hg hun

theorem grows {b b' : Books τ} (h : Accounted k A a₀ b.own b.taken b.st) (hsteps : Grows k A b b') :
    Accounted k A a₀ b'.own b'.taken b'.st := by
  induction hsteps with
  | refl => exact h
  | tail _ hstep ih => exact ih.grow hstep

/-- What is above a frame of `A` is `A`'s. -/
theorem above (h : Accounted k A a₀ own S st) {q r : List ℕ} : ∀ {g : ℕ},
    own g = some (A, q ++ r) → ∃ t, own t = some (A, q) := by
  induction r using List.reverseRecOn with
  | nil =>
    intro g hg
    rw [append_nil] at hg
    exact ⟨g, hg⟩
  | append_singleton r i ih =>
    intro g hg
    rw [← append_assoc] at hg
    obtain ⟨-, -, t, ht, -⟩ := h.linked g _ i hg
    exact ih ht

end Accounted

/-! ### The teardown -/

/-- The teardown of `A`'s tree, when the frames at the paths `R` are released. -/
structure Reclaiming (k : KernelSpace) (A : τ) (a₀ : BitmapFrameAllocator)
    (own : ℕ → Option (τ × List ℕ)) (R : List ℕ → Prop) (st : MemoryState) : Prop where
  total : st.allocator.totalFrames = a₀.totalFrames
  done : ∀ g q, own g = some (A, q) → R q →
    st.allocator.bit g = false ∧ st.allocator.refCount g = 0
  left : ∀ g q, own g = some (A, q) → ¬ R q →
    st.allocator.bit g = true ∧ st.allocator.refCount g = 1
  edge : ∀ t q i, own t = some (A, q) → q.length < 4 → (q = [] → ¬ k.Shared i) → ¬ R (q ++ [i]) →
    (st.mem t i = .unused ∧ ∀ g, own g ≠ some (A, q ++ [i])) ∨
      ∃ g, st.mem t i = .user g ∧ own g = some (A, q ++ [i])
  shared : ∀ t i, own t = some (A, []) → k.Shared i → st.mem t i = k.mem k.pml4 i
  others : ∀ g, (∀ q, own g ≠ some (A, q)) →
    st.allocator.bit g = a₀.bit g ∧ st.allocator.refCount g = a₀.refCount g

namespace Reclaiming

variable {R R' : List ℕ → Prop}

/-- At the start nothing is released. -/
theorem start (h : Accounted k A a₀ own ∅ st) (htree : Tree k own st.mem A) :
    Reclaiming k A a₀ own (fun _ => False) st where
  total := h.total
  done _ _ _ hR := hR.elim
  left g q hg _ := (h.mine g (.inl ⟨q, hg⟩)).2
  edge t q i ht hlen hslot _ := by
    rcases htree.entry t q i ht hlen hslot with hun | hlink
    · refine .inl ⟨hun, fun g hg => ?_⟩
      obtain ⟨-, -, t', ht', hmem⟩ := h.linked g q i hg
      obtain rfl := h.unique t' t q ht' ht
      exact user_ne_unused g (hmem.symm.trans hun)
    · exact .inr hlink
  shared := htree.shared
  others g hg := h.others g hg (Set.notMem_empty g)

section

variable (h : Reclaiming k A a₀ own R st)
include h

/-- More paths may count as released if no frame is at them. -/
theorem mono (hsub : ∀ q, R q → R' q)
    (hown : ∀ g q, own g = some (A, q) → R' q → R q) : Reclaiming k A a₀ own R' st where
  total := h.total
  done g q hg hR := h.done g q hg (hown g q hg hR)
  left g q hg hR := h.left g q hg fun hq => hR (hsub q hq)
  edge t q i ht hlen hslot hR := h.edge t q i ht hlen hslot fun hq => hR (hsub _ hq)
  shared := h.shared
  others := h.others

theorem release (hunique : ∀ g g' q, own g = some (A, q) →
      own g' = some (A, q) → g = g') {g : ℕ} {p : List ℕ} (hg : own g = some (A, p))
    (hR : ¬ R p) :
    ∃ st', st.cowDeallocateFrame g = some st' ∧ st'.mem = st.mem ∧
      Reclaiming k A a₀ own (fun q => R q ∨ q = p) st' := by
  obtain ⟨a, ha, htotal, hbit, hcount⟩ :=
    deallocateFrame_of_one (h.left g p hg hR).2
  have hsome : st.cowDeallocateFrame g = some { st with allocator := a } := by
    rw [MemoryState.cowDeallocateFrame, ha, map_some]
  -- the books of any other frame are as before
  have hother : ∀ f, g ≠ f → a.bit f = st.allocator.bit f ∧
      a.refCount f = st.allocator.refCount f := by
    intro f hne
    rw [hbit, hcount, decide_eq_false hne, if_neg hne, Bool.not_false, Bool.and_true]
    exact ⟨rfl, rfl⟩
  refine ⟨_, hsome, rfl, htotal.trans h.total, ?_, ?_, ?_, h.shared, ?_⟩
  · intro f q hf hq
    by_cases hne : g = f
    · subst hne
      rw [hbit, hcount, decide_eq_true rfl, if_pos rfl, Bool.not_true, Bool.and_false]
      exact ⟨rfl, rfl⟩
    · have hq' : R q := by
        rcases hq with hq | rfl
        · exact hq
        · exact absurd (hunique g f q hg hf) hne
      rw [(hother f hne).1, (hother f hne).2]
      exact h.done f q hf hq'
  · intro f q hf hq
    have hne : g ≠ f := by
      rintro rfl
      exact hq (.inr (congrArg Prod.snd (some.inj (hf.symm.trans hg))))
    rw [(hother f hne).1, (hother f hne).2]
    exact h.left f q hf fun hR' => hq (.inl hR')
  · intro t q i ht hlen hslot hq
    exact h.edge t q i ht hlen hslot fun hR' => hq (.inl hR')
  · intro f hf
    have hne : g ≠ f := by
      rintro rfl
      exact hf p hg
    rw [(hother f hne).1, (hother f hne).2]
    exact h.others f hf

theorem setUnused {table : ℕ} {p : List ℕ}
    (ht : own table = some (A, p)) (hslot : p = [] → ¬ k.Shared i) (hR : R (p ++ [i])) :
    Reclaiming k A a₀ own R (st.setUnused table i) := by
  have hkeep : ∀ t j, ¬ (t = table ∧ j = i) → (st.setUnused table i).mem t j = st.mem t j :=
    fun t j hne => Memory.write_of_not hne
  refine ⟨h.total, h.done, h.left, ?_, ?_, h.others⟩
  · intro t q j ht' hlen hslot' hq
    have hne : ¬ (t = table ∧ j = i) := by
      rintro ⟨rfl, rfl⟩
      have hp : q = p := congrArg Prod.snd (some.inj (ht'.symm.trans ht))
      exact hq (hp ▸ hR)
    rw [hkeep t j hne]
    exact h.edge t q j ht' hlen hslot' hq
  · intro t j ht' hs
    have hne : ¬ (t = table ∧ j = i) := by
      rintro ⟨rfl, rfl⟩
      have hp : p = [] := congrArg Prod.snd (some.inj (ht.symm.trans ht'))
      exact hslot hp hs
    rw [hkeep t j hne]
    exact h.shared t j ht' hs

end

variable {st₀ : MemoryState} {next : MemoryState → ℕ → Option MemoryState}
  {table i n : ℕ} {p : List ℕ}

/-- `next` releases everything below the frame at the path `p`. -/
def Empties (k : KernelSpace) (A : τ) (a₀ : BitmapFrameAllocator) (own : ℕ → Option (τ × List ℕ))
    (next : MemoryState → ℕ → Option MemoryState) (p : List ℕ) : Prop :=
  ∀ R st g, own g = some (A, p) → (∀ r, r ≠ [] → ¬ R (p ++ r)) → Reclaiming k A a₀ own R st →
    ∃ st', next st g = some st' ∧
      Reclaiming k A a₀ own (fun q => R q ∨ ∃ r, r ≠ [] ∧ q = p ++ r) st'

variable (hacc : Accounted k A a₀ own ∅ st₀)
include hacc

/-- **One entry**: the whole subtree behind it is released. -/
theorem destroyEntry (h : Reclaiming k A a₀ own R st)
    (ht : own table = some (A, p)) (hlen : p.length < 4) (hi : i < 256 ∨ p ≠ [])
    (hnext : Empties k A a₀ own next (p ++ [i])) (hR : ∀ r, ¬ R (p ++ [i] ++ r))
    (checkHuge : Bool) :
    ∃ st', Mm.destroyEntry next checkHuge table st i = some st' ∧
      Reclaiming k A a₀ own (fun q => R q ∨ ∃ r, q = p ++ [i] ++ r) st' := by
  -- without a frame at the entry there is none below it either
  have hskip : (∀ g, own g ≠ some (A, p ++ [i])) →
      Reclaiming k A a₀ own (fun q => R q ∨ ∃ r, q = p ++ [i] ++ r) st := by
    intro hnone
    refine h.mono (fun _ => .inl) fun g q hg hq => ?_
    rcases hq with hq | ⟨r, rfl⟩
    · exact hq
    · obtain ⟨t, ht'⟩ := hacc.above hg
      exact absurd ht' (hnone t)
  unfold Mm.destroyEntry
  dsimp only
  by_cases hs : p = [] ∧ k.Shared i
  · -- a shared slot below 256 holds a supervisor entry
    obtain ⟨rfl, hs⟩ := hs
    have hentry := h.shared table i ht hs
    have hsup : (st.mem table i).userAccessible = false := by
      rcases hs with hup | ⟨-, -, hsup⟩
      · rcases hi with hi | hi
        · omega
        · exact absurd rfl hi
      · rw [hentry, hsup]
    rw [hsup, Bool.and_false, if_neg Bool.false_ne_true]
    exact ⟨st, rfl, hskip fun g hg => (hacc.linked g [] i hg).2.1 rfl hs⟩
  · have hslot : p = [] → ¬ k.Shared i := fun hp hshared => hs ⟨hp, hshared⟩
    have hfirst : ¬ R (p ++ [i]) := by
      have := hR []
      rwa [append_nil] at this
    rcases h.edge table p i ht hlen hslot hfirst with ⟨hun, hnone⟩ | ⟨g, hmem, hg⟩
    · rw [hun, isUnused_unused, Bool.not_true, Bool.false_and, if_neg Bool.false_ne_true]
      exact ⟨st, rfl, hskip hnone⟩
    · -- below the entry, then the frame behind it, then the entry
      obtain ⟨st₁, hst₁, h₁⟩ := hnext R st g hg (fun r _ => hR r) h
      have hfirst₁ : ¬ (R (p ++ [i]) ∨ ∃ r, r ≠ [] ∧ p ++ [i] = p ++ [i] ++ r) := by
        rintro (hq | ⟨r, hr, heq⟩)
        · exact hfirst hq
        · exact hr (append_cancel_left (heq.symm.trans (append_nil _).symm))
      obtain ⟨st₂, hst₂, -, h₂⟩ := h₁.release hacc.unique hg hfirst₁
      have h₃ := h₂.setUnused ht hslot (.inr rfl)
      refine ⟨st₂.setUnused table i, ?_, h₃.mono ?_ ?_⟩
      · have hfollow : (!(user g).isUnused &&
            (user g).userAccessible) = true := by
          rw [isUnused_user]
          rfl
        have hhuge : (checkHuge && (user g).hugePage) = false := Bool.and_false _
        rw [hmem, if_pos hfollow, hhuge, if_neg Bool.false_ne_true]
        simp only [user, hst₁, Option.bind_some, hst₂, map_some]
      · rintro q ((hq | ⟨r, -, hq⟩) | hq)
        · exact .inl hq
        · exact .inr ⟨r, hq⟩
        · exact .inr ⟨[], hq.trans (append_nil _).symm⟩
      · rintro _ q - (hq | ⟨r, hq⟩)
        · exact .inl (.inl hq)
        · by_cases hr : r = []
          · subst hr
            exact .inr (hq.trans (append_nil _))
          · exact .inl (.inr ⟨r, hr, hq⟩)

theorem destroyEntries (h : Reclaiming k A a₀ own R st)
    (ht : own table = some (A, p)) (hlen : p.length < 4) (hn : n ≤ 256 ∨ p ≠ [])
    (hnext : ∀ i, Empties k A a₀ own next (p ++ [i])) (hR : ∀ r, r ≠ [] → ¬ R (p ++ r))
    (checkHuge : Bool) :
    ∃ st', (List.range n).foldlM (Mm.destroyEntry next checkHuge table) st = some st' ∧
      Reclaiming k A a₀ own (fun q => R q ∨ ∃ i, i < n ∧ ∃ r, q = p ++ [i] ++ r) st' := by
  induction n with
  | zero =>
    refine ⟨st, rfl, h.mono (fun _ => .inl) ?_⟩
    rintro _ q - (hq | ⟨i, hi, -⟩)
    · exact hq
    · exact absurd hi (Nat.not_lt_zero i)
  | succ n ih =>
    obtain ⟨st₁, hst₁, h₁⟩ := ih (hn.imp (fun hle => by omega) fun hp => hp)
    have hR₁ : ∀ r, ¬ (R (p ++ [n] ++ r) ∨ ∃ i, i < n ∧ ∃ r', p ++ [n] ++ r = p ++ [i] ++ r') := by
      rintro r (hq | ⟨i, hi, r', heq⟩)
      · rw [append_assoc] at hq
        exact hR _ (cons_ne_nil _ _) hq
      · rw [append_assoc, append_assoc] at heq
        have hhead : n = i := (List.cons.inj (append_cancel_left heq)).1
        omega
    obtain ⟨st₂, hst₂, h₂⟩ := h₁.destroyEntry hacc ht hlen
      (hn.imp (fun hle => by omega) fun hp => hp) (hnext n) hR₁ checkHuge
    refine ⟨st₂, ?_, h₂.mono ?_ ?_⟩
    · rw [range_succ, foldlM_append, hst₁]
      simp only [Option.bind_eq_bind, Option.bind_some, foldlM_cons, hst₂, foldlM_nil,
        Option.pure_def]
    · rintro q ((hq | ⟨i, hi, r, hq⟩) | ⟨r, hq⟩)
      · exact .inl hq
      · exact .inr ⟨i, by omega, r, hq⟩
      · exact .inr ⟨n, by omega, r, hq⟩
    · rintro _ q - (hq | ⟨i, hi, r, hq⟩)
      · exact .inl (.inl hq)
      · rcases Nat.lt_succ_iff_lt_or_eq.mp hi with hlt | rfl
        · exact .inl (.inr ⟨i, hlt, r, hq⟩)
        · exact .inr ⟨r, hq⟩

theorem head_lt {g : ℕ} {r : List ℕ} (hg : own g = some (A, p ++ r)) (hr : r ≠ []) :
    ∃ i r', r = i :: r' ∧ i < 512 ∧ (p = [] → i < 256) := by
  obtain ⟨i, r', rfl⟩ := exists_cons_of_ne_nil hr
  have hg' : own g = some (A, p ++ [i] ++ r') := by
    rw [append_assoc]
    exact hg
  obtain ⟨t, ht⟩ := hacc.above hg'
  obtain ⟨hi, hslot, -⟩ := hacc.linked t p i ht
  refine ⟨i, r', rfl, hi, fun hp => ?_⟩
  by_contra hge
  exact hslot hp (.inl ⟨by omega, hi⟩)

/-- **A whole table** below the PML4, when `next` does the level below. -/
theorem empties_table (hlen : p.length < 4) (hp : p ≠ [])
    (hnext : ∀ i, Empties k A a₀ own next (p ++ [i])) (checkHuge : Bool) :
    Empties k A a₀ own
      (fun st table => (List.range 512).foldlM (Mm.destroyEntry next checkHuge table) st) p := by
  intro R st g hg hR h
  obtain ⟨st', hst', h'⟩ := h.destroyEntries (n := 512) hacc hg hlen (.inr hp) hnext hR checkHuge
  refine ⟨st', hst', h'.mono ?_ ?_⟩
  · rintro q (hq | ⟨i, -, r, hq⟩)
    · exact .inl hq
    · exact .inr ⟨i :: r, cons_ne_nil _ _, by rw [hq, append_assoc]; rfl⟩
  · rintro f q hf (hq | ⟨r, hr, rfl⟩)
    · exact .inl hq
    · obtain ⟨i, r', rfl, hi, -⟩ := head_lt hacc hf hr
      exact .inr ⟨i, hi, r', by rw [append_assoc]; rfl⟩

theorem empties_page (hlen : p.length = 4) : Empties k A a₀ own (fun st _ => some st) p := by
  intro R st g _ _ h
  refine ⟨st, rfl, h.mono (fun _ => .inl) ?_⟩
  rintro f q hf (hq | ⟨r, hr, rfl⟩)
  · exact hq
  · have hdepth := hacc.depth f _ hf
    have hpos := length_pos_iff.mpr hr
    rw [length_append] at hdepth
    omega

omit hacc

variable {pml4 : ℕ}

/-- **The whole teardown** does not panic and releases every frame of the tree. -/
theorem destroyUserAddressSpace (hacc : Accounted k A a₀ own ∅ st) (htree : Tree k own st.mem A)
    (hroot : own pml4 = some (A, [])) :
    ∃ st', Mm.destroyUserAddressSpace st pml4 = some st' ∧
      Reclaiming k A a₀ own (fun _ => True) st' := by
  have hcons : ∀ (q : List ℕ) (i : ℕ), q ++ [i] ≠ [] := fun q i => by simp
  have hpt : ∀ p, p.length = 3 → p ≠ [] → Empties k A a₀ own destroyPt p := by
    intro p hlen hp
    exact empties_table hacc (by omega) hp (fun i => empties_page hacc (by simp [hlen])) false
  have hpd : ∀ p, p.length = 2 → p ≠ [] → Empties k A a₀ own destroyPd p := by
    intro p hlen hp
    exact empties_table hacc (by omega) hp (fun i => hpt _ (by simp [hlen]) (hcons p i)) true
  have hpdpt : ∀ p, p.length = 1 → p ≠ [] → Empties k A a₀ own destroyPdpt p := by
    intro p hlen hp
    exact empties_table hacc (by omega) hp (fun i => hpd _ (by simp [hlen]) (hcons p i)) true
  obtain ⟨st₁, hst₁, h₁⟩ := (start hacc htree).destroyEntries (n := 256) hacc
    hroot (by simp) (.inl le_rfl) (fun i => hpdpt _ (by simp) (hcons [] i)) (fun _ _ hR => hR) false
  have hfirst : ¬ (False ∨ ∃ i, i < 256 ∧ ∃ r, ([] : List ℕ) = [] ++ [i] ++ r) := by
    rintro (hfalse | ⟨i, -, r, heq⟩)
    · exact hfalse
    · exact absurd heq (cons_ne_nil i r).symm
  obtain ⟨st₂, hst₂, -, h₂⟩ := h₁.release hacc.unique hroot hfirst
  refine ⟨st₂, ?_, h₂.mono (fun _ _ => trivial) fun g q hg _ => ?_⟩
  · rw [Mm.destroyUserAddressSpace, hst₁]
    exact hst₂
  · by_cases hq : q = []
    · exact .inr hq
    · obtain ⟨i, r, rfl, -, hi⟩ := head_lt (p := []) hacc hg hq
      exact .inl (.inr ⟨i, hi rfl, r, rfl⟩)

/-- After the teardown the books are the old ones: released frames were free before. -/
theorem books_restored (hacc : Accounted k A a₀ own ∅ st) (hcoherent : a₀.Coherent)
    (h : Reclaiming k A a₀ own (fun _ => True) st') :
    st'.allocator = { a₀ with lastFreeFrameHint := st'.allocator.lastFreeFrameHint } := by
  have hnobody : ∀ j, own j = none → ∀ q, own j ≠ some (A, q) := by
    intro j hnone q hq
    rw [hnone] at hq
    cases hq
  apply eq_of_books h.total
  · intro j
    rcases hacc.alone j with hnone | ⟨q, hq⟩
    · exact (h.others j (hnobody j hnone)).1
    · rw [(h.done j q hq trivial).1, (hacc.mine j (.inl ⟨q, hq⟩)).1]
  · intro j
    rcases hacc.alone j with hnone | ⟨q, hq⟩
    · exact (h.others j (hnobody j hnone)).2
    · have hfree := (hacc.mine j (.inl ⟨q, hq⟩)).1
      rw [(h.done j q hq trivial).2]
      by_cases hj : j < a₀.totalFrames
      · rw [← testBit_eq_bit hj] at hfree
        exact (hcoherent.refCount_eq_zero hfree).symm
      · rw [refCount, dif_neg hj]

end Reclaiming

/-! ### From creation to teardown -/

/-- Before anything is taken. -/
theorem Accounted.initial (st : MemoryState) :
    Accounted k A st.allocator (fun _ => none) ∅ st where
  total := rfl
  alone _ := .inl rfl
  unique _ _ _ h := nomatch h
  depth _ _ h := nomatch h
  linked _ _ _ h := nomatch h
  taken _ _ := rfl
  mine _ h := by
    rcases h with ⟨_, h⟩ | h
    · cases h
    · cases h
  others _ _ _ := ⟨rfl, rfl⟩

/-- A taken frame becomes the PML4. -/
theorem Accounted.root {f : ℕ} (h : Accounted k A a₀ (fun _ => none) {f} st) (mem : Memory) :
    Accounted k A a₀ (update (fun _ => none) f (some (A, []))) ∅
      { st with mem := mem } := by
  have hcases : ∀ (g : ℕ) (q : List ℕ),
      update (fun _ => none) f (some (A, [])) g = some (A, q) →
      g = f ∧ q = [] := by
    intro g q hg
    by_cases hgf : g = f
    · subst hgf
      rw [update_self] at hg
      cases hg
      exact ⟨rfl, rfl⟩
    · rw [update_of_ne hgf] at hg
      cases hg
  refine ⟨h.total, ?_, ?_, ?_, ?_, fun _ hg => hg.elim, ?_, ?_⟩
  · intro g
    by_cases hgf : g = f
    · subst hgf
      exact .inr ⟨[], update_self ..⟩
    · exact .inl (update_of_ne hgf ..)
  · intro g g' q hg hg'
    exact (hcases g q hg).1.trans (hcases g' q hg').1.symm
  · intro g q hg
    rw [(hcases g q hg).2]
    exact Nat.zero_le 4
  · intro g q i hg
    exact absurd (hcases g _ hg).2 (by simp)
  · rintro g (⟨q, hg⟩ | hg)
    · obtain ⟨rfl, -⟩ := hcases g q hg
      exact h.mine g (.inr rfl)
    · exact hg.elim
  · intro g hg _
    refine h.others g (fun q hq => nomatch hq) ?_
    rintro rfl
    exact hg [] (update_self ..)

theorem createIsolatedPml4_eq_some {current : ℕ}
    (h : createIsolatedPml4 st current = (st', some pml4)) :
    ∃ a, st.allocator.allocateFrame = (a, some (pml4 * FRAME_SIZE)) ∧
      st'.allocator = a := by
  unfold createIsolatedPml4 systemAllocateFrame at h
  rcases allocateFrame_spec st.allocator with hnone | ⟨i, a, ha, -⟩
  · rw [hnone] at h
    cases h
  · rw [ha] at h
    dsimp only at h
    rw [Nat.mul_div_cancel _ (by decide : 0 < FRAME_SIZE)] at h
    obtain ⟨hst, hi⟩ := Prod.mk.inj h
    cases hi
    exact ⟨a, ha, hst ▸ rfl⟩

/-- Successful calls of `allocateAndMapUserPage`, one after the other. -/
def mapUserPages (m : Mapper) (targetPml4 : ℕ) : MemoryState → List ℕ → Option MemoryState
  | st, [] => some st
  | st, virtualAddress :: rest =>
    match allocateAndMapUserPage m st targetPml4 virtualAddress with
    | (st, .ok ()) => mapUserPages m targetPml4 st rest
    | (_, .error _) => none

/-- A sequence of mappings keeps memory owned and accounted for. -/
theorem Owned.mapUserPages {m : Mapper} (hm : m.Documented) {roots : τ → Option ℕ}
    (hroot : roots A = some pml4) {vas : List ℕ} : ∀ {own : ℕ → Option (τ × List ℕ)}
    {st : MemoryState}, Owned k roots own st → Accounted k A a₀ own ∅ st →
      (∀ va ∈ vas, ¬ k.Shared (index va 3)) → Mm.mapUserPages m pml4 st vas = some st' →
        ∃ own', Owned k roots own' st' ∧ Accounted k A a₀ own' ∅ st' := by
  induction vas with
  | nil =>
    intro own st h hacc _ hmap
    cases hmap
    exact ⟨own, h, hacc⟩
  | cons va vas ih =>
    intro own st h hacc hslots hmap
    obtain ⟨own₁, h₁, -, hgrows⟩ :=
      h.allocateAndMapUserPage hm hroot (hslots va mem_cons_self)
    rw [Mm.mapUserPages] at hmap
    cases hcall : Mm.allocateAndMapUserPage m st pml4 va with
    | mk st₁ r =>
      rw [hcall] at hmap h₁ hgrows
      cases r with
      | error e => cases hmap
      | ok _ =>
        exact ih h₁ (hacc.grows (hgrows rfl))
          (fun va' hva' => hslots va' (mem_cons_of_mem _ hva')) hmap

end Account

/-- The slots of a new PML4 that it has from the table it was copied from: the upper half, and the
supervisor entries of the lower one. -/
def Inherited (table : ℕ → PageTableEntry) (i : ℕ) : Prop :=
  (256 ≤ i ∧ i < 512) ∨ (i < 256 ∧ (table i).isUnused = false ∧ (table i).userAccessible = false)

theorem inherited_iff_shared {τ : Type} {k : KernelSpace} {A : τ} {own : ℕ → Option (τ × List ℕ)}
    {mem : Memory} (htree : Tree k own mem A) (hroot : own pml4 = some (A, [])) :
    Inherited (mem pml4) i ↔ k.Shared i := by
  constructor
  · rintro (hup | ⟨hlow, hused, hsup⟩)
    · exact .inl hup
    · by_contra hs
      rcases htree.entry pml4 [] i hroot (by simp) fun _ => hs with hun | ⟨g, hg, -⟩
      · rw [hun] at hused
        cases hused
      · rw [hg] at hsup
        cases hsup
  · intro hs
    have hsame := htree.shared pml4 i hroot hs
    rcases hs with hup | hlow
    · exact .inl hup
    · rw [← hsame] at hlow
      exact .inr hlow

/-- Before the first process, no frame has an owner. -/
theorem Owned.unowned {k : KernelSpace} {τ : Type} {st : MemoryState}
    (hcoherent : st.allocator.Coherent) (hmem : st.mem = k.mem)
    (hbusy : ∀ f, k.frames f → st.allocator.testBit f = true) :
    Owned k (fun _ : τ => none) (fun _ => none) st := by
  refine ⟨hcoherent, fun f _ => congrFun hmem f, hbusy, fun _ hf => absurd rfl hf,
    fun _ hf => absurd rfl hf, fun _ _ _ hf => (nomatch hf), fun _ _ hf => (nomatch hf),
    fun _ => ?_⟩
  exact ⟨fun _ _ hf => (nomatch hf), fun _ _ _ hf => (nomatch hf)⟩

/-- **A process gives all of its memory back.**  `CR3` holds a PML4 whose tables are in use.  After
a successful `createIsolatedPml4` and any successful mappings at user-half addresses whose slot was
empty in the new table, the teardown does not panic and leaves bitmap and counts as they were
before; the inherited slots, and all tables below them, have not been modified. -/
theorem process_memory_returned {m : Mapper} (hm : m.Documented) {st st₁ st₂ : MemoryState}
    {current pml4 : ℕ} {vas : List ℕ} (hcoherent : st.allocator.Coherent)
    (hbusy : ∀ va, ∀ t ∈ tables st.mem va 4 current, st.allocator.testBit t = true)
    (hcreate : createIsolatedPml4 st current = (st₁, some pml4))
    (hvas : ∀ va ∈ vas, va < 2 ^ 47 ∧ (st₁.mem pml4 (index va 3)).isUnused = true)
    (hmap : mapUserPages m pml4 st₁ vas = some st₂) :
    ∃ st₃, destroyUserAddressSpace st₂ pml4 = some st₃ ∧
      st₃.allocator
        = { st.allocator with lastFreeFrameHint := st₃.allocator.lastFreeFrameHint } ∧
      ∀ va, Inherited (st₁.mem pml4) (index va 3) →
        (st₂.mem pml4 (index va 3) = st₁.mem pml4 (index va 3) ∧
          st₃.mem pml4 (index va 3) = st₁.mem pml4 (index va 3)) ∧
        ∀ t ∈ (tables st₁.mem va 4 pml4).tail, st₂.mem t = st₁.mem t ∧ st₃.mem t = st₁.mem t := by
  -- the ownership map starts empty; the kernel's frames are the tables of the current PML4
  let k : KernelSpace := ⟨st.mem, current, fun _ => True⟩
  have hframes : ∀ f, k.frames f → k.tables f := by
    rintro f (hf | ⟨va, tr, hd, -⟩)
    · exact hf
    · exact absurd trivial hd
  have h₀ : Owned k (fun _ : Unit => none) (fun _ => none) st := by
    refine Owned.unowned hcoherent rfl fun f hf => ?_
    obtain ⟨va, ht⟩ := hframes f hf
    exact hbusy va f ht
  rcases h₀.createIsolatedPml4 (A := ()) (.inl rfl) with
    ⟨st', hnone, -⟩ | ⟨f, st', hsome, h₁, -⟩
  · rw [hcreate] at hnone
    cases hnone
  rw [hcreate] at hsome
  obtain ⟨rfl, hf⟩ := Prod.mk.inj hsome
  obtain rfl : pml4 = f := Option.some.inj hf
  have hown₁ : Function.update (fun _ => none) pml4 (some ((), [])) pml4
      = some ((), ([] : List ℕ)) := Function.update_self ..
  have hacc₁ : Accounted k () st.allocator (Function.update (fun _ => none) pml4 (some ((), []))) ∅
      st₁ := by
    obtain ⟨a, ha, halloc⟩ := createIsolatedPml4_eq_some hcreate
    have htake := (Accounted.initial (k := k) (A := ()) st).take ha
    rw [insert_empty_eq] at htake
    have hroot := htake.root st₁.mem
    rw [← halloc] at hroot
    exact hroot
  have hslots : ∀ va ∈ vas, ¬ k.Shared (index va 3) := by
    intro va hva hs
    obtain ⟨hlt, hun⟩ := hvas va hva
    have hindex : index va 3 < 256 := by
      unfold index
      omega
    rcases (inherited_iff_shared (h₁.tree ()) hown₁).mpr hs with hup | ⟨-, hused, -⟩
    · omega
    · rw [hun] at hused
      cases hused
  have hroot : Function.update (fun _ : Unit => none) () (some pml4) () = some pml4 :=
    Function.update_self ..
  obtain ⟨own₂, h₂, hacc₂⟩ := h₁.mapUserPages hm hroot hacc₁ hslots hmap
  have hown₂ := h₂.root () pml4 hroot
  obtain ⟨st₃, hdestroy, hdone⟩ :=
    Reclaiming.destroyUserAddressSpace hacc₂ (h₂.tree ()) hown₂
  have hrel := Releases.destroyUserAddressSpace (h₂.tree ()) hown₂ hdestroy
  refine ⟨st₃, hdestroy, hdone.books_restored hacc₂ hcoherent, fun va hinherited => ?_⟩
  have hs := (inherited_iff_shared (h₁.tree ()) hown₁).mp hinherited
  have hentry₁ := (h₁.tree ()).shared pml4 _ hown₁ hs
  refine ⟨⟨?_, ?_⟩, fun t ht => ?_⟩
  · rw [(h₂.tree ()).shared pml4 _ hown₂ hs, hentry₁]
  · rw [hrel.tree.shared pml4 _ hown₂ hs, hentry₁]
  · -- below an inherited slot the tables are those of the current PML4
    have hkernel : k.tables t := by
      refine ⟨va, ?_⟩
      rw [← (h₁.walk_kernel va).2]
      have hsame : st₁.mem pml4 (index va 3) = st₁.mem current (index va 3) := by
        rw [hentry₁]
        exact congrFun (h₁.kernel_mem current k.tables_pml4).symm _
      simp only [tables, hsame, List.tail_cons] at ht
      exact List.mem_cons_of_mem _ ht
    have hnotMine : ∀ q, own₂ t ≠ some ((), q) := by
      intro q hq
      exact h₂.owned_user t (by simp [hq]) (.inl hkernel)
    rw [(hrel.keeps t hnotMine).1, h₁.kernel_mem t hkernel, h₂.kernel_mem t hkernel]
    exact ⟨rfl, rfl⟩

/-- Eight frames, of which the first one is in use and holds an empty PML4. -/
def eightFrames : MemoryState where
  mem := fun _ _ => .unused
  allocator := (List.range' 1 7).foldl BitmapFrameAllocator.forceFreeBit (.allBusy 8)

theorem process_memory_returned_one_page : ∃ st₁ st₂ st₃,
    createIsolatedPml4 eightFrames 0 = (st₁, some 1) ∧
      mapUserPages (.reference _) 1 st₁ [0x1000] = some st₂ ∧
      st₂.allocator.testBit 5 = true ∧ destroyUserAddressSpace st₂ 1 = some st₃ ∧
      st₃.allocator = { eightFrames.allocator with
        lastFreeFrameHint := st₃.allocator.lastFreeFrameHint } := by
  have hcreate : createIsolatedPml4 eightFrames 0
    = ((createIsolatedPml4 eightFrames 0).1, some 1) :=
    Prod.ext rfl (by decide +kernel)
  obtain ⟨st₂, hmap, hbusy⟩ :
      ∃ st ∈ mapUserPages (.reference _) 1 (createIsolatedPml4 eightFrames 0).1 [0x1000],
      st.allocator.testBit 5 = true := by decide +kernel
  have hcoherent : eightFrames.allocator.Coherent :=
    BitmapFrameAllocator.Coherent.foldl (fun _ i h => h.forceFreeBit i)
      (BitmapFrameAllocator.coherent_allBusy 8)
  have htables : ∀ va, ∀ t ∈ tables eightFrames.mem va 4 0,
      eightFrames.allocator.testBit t = true := by
    intro va t ht
    obtain rfl : t = 0 := by simpa [tables, eightFrames, PageTableEntry.unused] using ht
    decide +kernel
  have hvas : ∀ va ∈ [0x1000], va < 2 ^ 47 ∧
      ((createIsolatedPml4 eightFrames 0).1.mem 1 (index va 3)).isUnused = true := by
    decide +kernel
  obtain ⟨st₃, hdestroy, hbooks, -⟩ := process_memory_returned
    (OffsetPageTable.documented_reference _) hcoherent htables hcreate hvas hmap
  exact ⟨_, st₂, st₃, hcreate, hmap, hbusy, hdestroy, hbooks⟩

end NwinOs.Mm
