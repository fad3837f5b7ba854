import NwinOs.Core.Equiv.Mmap

/-!
# The page loop of the memory system calls

`sys_mmap` and `sys_brk` map one page after the other and stop at the first error.
`UserTree.mapPages_maps` says what the loop does to the address space in any case, and
`UserTree.mapPages_ok_iff` when it comes to its end, from the memory before it: the pages without a
mapping and the tables that they need together, each counted once, must not be more than the free
frames.  Where the loop stops early it has taken a frame, unless there was none from the start
(`UserTree.mapPages_error`, `mapPages_of_no_frame`).
-/

namespace NwinOs.Core

open Paging Mm Tasking List

/-- There is a frame for every page that has no mapping and for every table that these pages need,
and no huge page is in the way. -/
def CanMapAll (st : MemoryState) (pml4 : ℕ) (vas : List ℕ) : Prop :=
  (∀ q ∈ unmapped st.mem pml4 vas, missingTables st.mem q 3 pml4 ≠ none) ∧
    (unmapped st.mem pml4 vas).length + (newTables st.mem pml4 (unmapped st.mem pml4 vas)).card
      ≤ freeFrames st.allocator

instance (st : MemoryState) (pml4 : ℕ) (vas : List ℕ) : Decidable (CanMapAll st pml4 vas) :=
  inferInstanceAs (Decidable (_ ∧ _))

section

variable {m : Mapper} {st : MemoryState} {pml4 q : ℕ} {vas : List ℕ} {e : MemoryError}
  {st₁ : MemoryState}

theorem unmapped_cons_of_mapped (h : (leaf st.mem q 3 pml4).isUnused = false) :
    unmapped st.mem pml4 (q :: vas) = unmapped st.mem pml4 vas := by
  simp [unmapped, translatePage_eq_leaf, h]

theorem unmapped_cons_of_unused (h : (leaf st.mem q 3 pml4).isUnused = true) :
    unmapped st.mem pml4 (q :: vas) = q :: unmapped st.mem pml4 vas := by
  simp [unmapped, translatePage_eq_leaf, h]

theorem mapPages_cons_of_ok (h : allocateAndMapUserPage m st pml4 q = (st₁, .ok ())) :
    mapPages m pml4 st (q :: vas) = mapPages m pml4 st₁ vas := by
  rw [mapPages, h]

theorem mapPages_cons_of_error (h : allocateAndMapUserPage m st pml4 q = (st₁, .error e)) :
    mapPages m pml4 st (q :: vas) = (st₁, .error e) := by
  rw [mapPages, h]

section

variable (hm : m.Documented)
include hm

/-- **The loop, whatever its outcome.** -/
theorem UserTree.mapPages_maps :
    ∀ {vas : List ℕ} {place : ℕ → Option (List ℕ)} {st : MemoryState}, UserTree pml4 place st →
      (∀ q ∈ vas, userSlot (index q 3)) →
      ∃ place', Maps pml4 (fun n => ∃ q ∈ vas, n = pageNumber q) place st place'
          (mapPages m pml4 st vas).1 ∧
        ((mapPages m pml4 st vas).2 = .ok () →
          ∀ q ∈ vas, (leaf (mapPages m pml4 st vas).1.mem q 3 pml4).isUnused = false) := by
  intro vas
  induction vas with
  | nil =>
    intro place st h _
    exact ⟨place, Maps.refl h _, fun _ q hq => absurd hq not_mem_nil⟩
  | cons q vas ih =>
    intro place st h hslots
    have hq := hslots q mem_cons_self
    have hslots' : ∀ q' ∈ vas, userSlot (index q' 3) :=
      fun q' hq' => hslots q' (mem_cons_of_mem q hq')
    obtain ⟨place₁, hfirst, hleaf⟩ := h.mapUserPage_maps hm hq
    rcases hpage : allocateAndMapUserPage m st pml4 q with ⟨st₁, e | u⟩
    · rw [mapPages_cons_of_error hpage]
      rw [hpage] at hfirst
      refine ⟨place₁, hfirst.imp ?_, fun hok => (nomatch hok)⟩
      rintro n rfl
      exact ⟨q, mem_cons_self, rfl⟩
    · rw [mapPages_cons_of_ok hpage]
      rw [hpage] at hfirst hleaf
      obtain ⟨place₂, hrest, hall⟩ := ih hfirst.tree hslots'
      refine ⟨place₂, (hfirst.trans hrest).imp ?_, fun hok q' hq' => ?_⟩
      · rintro n (rfl | ⟨q', hq', rfl⟩)
        · exact ⟨q, mem_cons_self, rfl⟩
        · exact ⟨q', mem_cons_of_mem q hq', rfl⟩
      · rcases mem_cons.mp hq' with rfl | hq'
        · rw [hrest.kept q' hq (hleaf rfl)]
          exact hleaf rfl
        · exact hall hok q' hq'

/-- Without a free frame the loop changes nothing. -/
theorem mapPages_of_no_frame (hfree : freeFrames st.allocator = 0) :
    mapPages m pml4 st vas = (st, .ok ()) ∨ mapPages m pml4 st vas = (st, .error .outOfFrames) := by
  induction vas with
  | nil => exact .inl rfl
  | cons q vas ih =>
    cases hunused : (leaf st.mem q 3 pml4).isUnused with
    | false =>
      rw [mapPages_cons_of_ok (mapUserPage_of_mapped hm hunused)]
      exact ih
    | true => exact .inr (mapPages_cons_of_error (mapUserPage_of_no_frame hm hunused hfree))

/-- A loop that stops early has taken a frame, if there was one. -/
theorem UserTree.mapPages_error {place : ℕ → Option (List ℕ)}
    (h : UserTree pml4 place st) (hslots : ∀ q ∈ vas, userSlot (index q 3))
    (hfree : freeFrames st.allocator ≠ 0) (herror : (mapPages m pml4 st vas).2 = .error e) :
    ∃ f, ¬ busy st.allocator f ∧ busy (mapPages m pml4 st vas).1.allocator f := by
  induction vas with
  | nil => cases herror
  | cons q vas ih =>
    have hq := hslots q mem_cons_self
    have hslots' : ∀ q' ∈ vas, userSlot (index q' 3) :=
      fun q' hq' => hslots q' (mem_cons_of_mem q hq')
    cases hunused : (leaf st.mem q 3 pml4).isUnused with
    | false =>
      rw [mapPages_cons_of_ok (mapUserPage_of_mapped hm hunused)] at herror ⊢
      exact ih hslots' herror
    | true =>
      rcases h.mapUserPage hm hq hunused hfree with
        ⟨st₁, place₁, f, hrun, hnew, -⟩ | ⟨-, st₁, place₁, f, hrun, hleaked⟩
      · obtain ⟨_, hrest, -⟩ := UserTree.mapPages_maps (m := m) hm hnew.tree hslots'
        rw [mapPages_cons_of_ok hrun]
        exact ⟨f, hnew.fresh, hrest.mono f hnew.taken⟩
      · rw [mapPages_cons_of_error hrun]
        exact ⟨f, hleaked.fresh, hleaked.taken⟩

/-- **When the loop comes to its end.** -/
theorem UserTree.mapPages_ok_iff :
    ∀ {vas : List ℕ} {place : ℕ → Option (List ℕ)} {st : MemoryState}, UserTree pml4 place st →
      (∀ q ∈ vas, userSlot (index q 3)) →
      vas.Pairwise (fun q q' => pageNumber q ≠ pageNumber q') →
      ((mapPages m pml4 st vas).2 = .ok () ↔ CanMapAll st pml4 vas) := by
  intro vas
  induction vas with
  | nil =>
    simp [mapPages, CanMapAll, unmapped, newTables]
  | cons q vas ih =>
    intro place st h hslots hdistinct
    have hq := hslots q mem_cons_self
    have hslots' : ∀ q' ∈ vas, userSlot (index q' 3) :=
      fun q' hq' => hslots q' (mem_cons_of_mem q hq')
    obtain ⟨hne, hdistinct'⟩ := pairwise_cons.mp hdistinct
    cases hunused : (leaf st.mem q 3 pml4).isUnused with
    | false =>
      rw [mapPages_cons_of_ok (mapUserPage_of_mapped hm hunused),
        ih h hslots' hdistinct', CanMapAll,
        CanMapAll, unmapped_cons_of_mapped hunused]
    | true =>
      rw [CanMapAll, unmapped_cons_of_unused hunused, length_cons]
      by_cases hfree : freeFrames st.allocator = 0
      · rw [mapPages_cons_of_error (mapUserPage_of_no_frame hm hunused hfree)]
        refine ⟨fun hok => (by cases hok), fun hcan => ?_⟩
        omega
      · rcases h.mapUserPage hm hq hunused hfree with
          ⟨st₁, place₁, f, hrun, hnew, n, hn, hcount⟩ | ⟨hcannot, st₁, place₁, f, hrun, -⟩
        · -- the other pages need what they needed, without the tables of this one
          have hsame : unmapped st₁.mem pml4 vas = unmapped st.mem pml4 vas := by
            refine filter_congr fun q' hq' => ?_
            rw [translatePage_eq_leaf, translatePage_eq_leaf,
              hnew.others q' (hslots' q' hq') (hne q' hq').symm]
          have hslots'' : ∀ q' ∈ unmapped st.mem pml4 vas, userSlot (index q' 3) :=
            fun q' hq' => hslots' q' (mem_of_mem_filter hq')
          have hhuge : ∀ q' ∈ unmapped st.mem pml4 vas,
              (missingTables st₁.mem q' 3 pml4 ≠ none ↔ missingTables st.mem q' 3 pml4 ≠ none) := by
            intro q' hq'
            rw [Ne, Ne, missingTables_eq_none_iff, missingTables_eq_none_iff,
              hnew.tables.huge q' (hslots'' q' hq')]
          have hcard := card_newTables_cons hnew.tables hslots'' hn
          rw [mapPages_cons_of_ok hrun, ih hnew.tree hslots' hdistinct', CanMapAll, hsame, hcard]
          refine and_congr ?_ (by omega)
          rw [forall_mem_cons]
          refine Iff.trans (forall₂_congr hhuge) (iff_and_self.mpr fun _ => ?_)
          rw [hn]
          exact Option.some_ne_none n
        · rw [mapPages_cons_of_error hrun]
          refine ⟨fun hok => (by cases hok), fun hcan => (hcannot ?_).elim⟩
          obtain ⟨n, hn⟩ := Option.ne_none_iff_exists'.mp (hcan.1 q mem_cons_self)
          refine ⟨n, hn, ?_⟩
          have hpart : n ≤ (newTables st.mem pml4 (q :: unmapped st.mem pml4 vas)).card := by
            rw [newTables_cons, ← card_newTables_singleton hn]
            exact Finset.card_le_card Finset.subset_union_left
          omega

end

end

end NwinOs.Core
