import NwinOs.Paging.Missing
import NwinOs.Paging.Rights
import NwinOs.Tasking.Equiv.UserTree

/-!
# Mapping one user page

What `allocateAndMapUserPage` does to an address space whose page tables form a tree, in each of its
outcomes: a page that is mapped is left alone; a new page gets a frame of its own, which is clear
(`MappedNew`); without a free frame nothing changes; and when `map_to` fails, the frame that was
taken for the page stays in use (`Leaked`).

`mapUserPage_ok_iff` says when the call succeeds, from the memory before it: the tables on the path
of the page and the page itself need a free frame each, and no huge page may be in the way.
`Maps` is what calls in a row do to an address space, whatever their outcomes.
`map_user_page_all_or_nothing_iff` is what that means for the frames of a call that fails.
-/

namespace NwinOs.Tasking

open Paging Mm BitmapFrameAllocator

/-! ### Free frames -/

/-- The number of frames that are free. -/
def freeFrames (a : BitmapFrameAllocator) : ℕ :=
  ((Finset.range a.totalFrames).filter fun f => a.testBit f = false).card

variable {a a' : BitmapFrameAllocator}

theorem freeFrames_eq_zero_iff : freeFrames a = 0 ↔ ∀ f, busy a f := by
  rw [freeFrames, Finset.card_eq_zero, Finset.filter_eq_empty_iff]
  constructor
  · intro hnone f
    by_cases hf : f < a.totalFrames
    · simpa [busy] using hnone (Finset.mem_range.mpr hf)
    · exact testBit_of_ge (Nat.le_of_not_lt hf)
  · intro hall f _
    have hf : a.testBit f = true := hall f
    simp [hf]

theorem freeFrames_eq_zero (h : a.allocateFrame = (a, none)) : freeFrames a = 0 := by
  refine freeFrames_eq_zero_iff.mpr fun f => ?_
  by_contra hf
  obtain ⟨i, -, hsome⟩ := allocateFrame_of_free (Bool.eq_false_of_not_eq_true hf)
  rw [h] at hsome
  cases congrArg Prod.snd hsome

theorem freeFrames_allocateFrame {addr : ℕ}
    (h : a.allocateFrame = (a', some addr)) : freeFrames a' + 1 = freeFrames a := by
  rcases allocateFrame_cases a with hnone | ⟨f, hfree, hsome⟩
  · rw [hnone] at h
    cases congrArg Prod.snd h
  obtain ⟨rfl, -⟩ := Prod.mk.inj (h.symm.trans hsome)
  have hbit : ∀ g, ({ a.forceSetBit f with lastFreeFrameHint := f + 1 } :
      BitmapFrameAllocator).testBit g = (a.testBit g || decide (f = g)) :=
    testBit_forceSetBit a f
  have htotal : ({ a.forceSetBit f with lastFreeFrameHint := f + 1 } :
      BitmapFrameAllocator).totalFrames = a.totalFrames := totalFrames_forceSetBit a f
  have hset : (Finset.range a.totalFrames).filter (fun g => a.testBit g = false) =
      insert f ((Finset.range a.totalFrames).filter
        fun g => (a.testBit g || decide (f = g)) = false) := by
    ext g
    have hlt := lt_of_testBit_eq_false hfree
    by_cases hg : f = g
    · subst hg
      simp [hfree, hlt]
    · simp [hg, Ne.symm hg]
  unfold freeFrames
  rw [hset, Finset.card_insert_of_notMem (by simp), htotal]
  simp only [hbit]

theorem budget_systemAllocateFrame : Budget systemAllocateFrame freeFrames := by
  intro mem a
  unfold systemAllocateFrame
  rcases allocateFrame_busy a with hnone | ⟨f, a', hsome, -⟩
  · exact .inl ⟨freeFrames_eq_zero hnone, by rw [hnone]⟩
  · refine .inr ⟨f * FRAME_SIZE / FRAME_SIZE, by rw [hsome], ?_⟩
    rw [hsome]
    exact freeFrames_allocateFrame hsome

/-! ### The outcomes -/

/-- The page has been mapped to the frame `f`, which was free and is clear. -/
structure MappedNew (pml4 va : ℕ) (place : ℕ → Option (List ℕ)) (st : MemoryState)
    (place' : ℕ → Option (List ℕ)) (st' : MemoryState) (f : ℕ) : Prop where
  tree : UserTree pml4 place' st'
  fresh : ¬ busy st.allocator f
  taken : busy st'.allocator f
  spare : place' f = none
  clear : st'.mem f = fun _ => .unused
  mapped : leaf st'.mem va 3 pml4 = .user f
  mono : ∀ g, busy st.allocator g → busy st'.allocator g
  data : ∀ g, place g = none → busy st.allocator g → place' g = none ∧ st'.mem g = st.mem g
  others : ∀ va', userSlot (index va' 3) → pageNumber va' ≠ pageNumber va →
    leaf st'.mem va' 3 pml4 = leaf st.mem va' 3 pml4
  tables : Extends userSlot pml4 st.mem st'.mem fun p => p <+: indices va 3

/-- The mapping has failed, and the frame `f`, which was free, is in use without being a table. -/
structure Leaked (pml4 : ℕ) (place : ℕ → Option (List ℕ)) (st : MemoryState)
    (place' : ℕ → Option (List ℕ)) (st' : MemoryState) (f : ℕ) : Prop where
  tree : UserTree pml4 place' st'
  fresh : ¬ busy st.allocator f
  taken : busy st'.allocator f
  spare : place' f = none
  mono : ∀ g, busy st.allocator g → busy st'.allocator g
  data : ∀ g, place g = none → busy st.allocator g → place' g = none ∧ st'.mem g = st.mem g
  leaves : ∀ va', userSlot (index va' 3) → leaf st'.mem va' 3 pml4 = leaf st.mem va' 3 pml4

/-- There are frames for the page and for the tables on its path, and no huge page is in the way. -/
def CanMap (st : MemoryState) (pml4 va : ℕ) : Prop :=
  ∃ n, missingTables st.mem va 3 pml4 = some n ∧ n + 1 ≤ freeFrames st.allocator

section

variable {m : Mapper} {st st' : MemoryState} {pml4 va : ℕ} {place : ℕ → Option (List ℕ)}

section

variable (hm : m.Documented)
include hm

theorem mapUserPage_of_mapped (hused : (leaf st.mem va 3 pml4).isUnused = false) :
    allocateAndMapUserPage m st pml4 va = (st, .ok ()) := by
  rcases allocateAndMapUserPage_cases hm st pml4 va with ⟨-, hrun⟩ | ⟨hunmapped, -⟩
  · exact hrun
  · rw [translatePage_eq_leaf, hused] at hunmapped
    cases hunmapped

theorem mapUserPage_of_no_frame
    (hunused : (leaf st.mem va 3 pml4).isUnused = true) (hfree : freeFrames st.allocator = 0) :
    allocateAndMapUserPage m st pml4 va = (st, .error .outOfFrames) := by
  rcases allocateAndMapUserPage_cases hm st pml4 va with
    ⟨hmapped, -⟩ | ⟨-, ⟨-, hrun⟩ | ⟨f, a, mem', a', ha, -⟩⟩
  · rw [translatePage_eq_leaf, hunused] at hmapped
    cases hmapped
  · exact hrun
  · have hcount := freeFrames_allocateFrame ha
    omega

/-- **A free frame and a page that is not mapped**: the page gets a frame, and a call with enough
frames takes as many as it needs; or the frame is lost. -/
theorem UserTree.mapUserPage (h : UserTree pml4 place st)
    (hva : userSlot (index va 3)) (hunused : (leaf st.mem va 3 pml4).isUnused = true)
    (hfree : freeFrames st.allocator ≠ 0) :
    (∃ st' place' f, allocateAndMapUserPage m st pml4 va = (st', .ok ()) ∧
      MappedNew pml4 va place st place' st' f ∧
      ∃ n, missingTables st.mem va 3 pml4 = some n ∧
        freeFrames st'.allocator + (n + 1) = freeFrames st.allocator) ∨
    (¬ CanMap st pml4 va ∧ ∃ st' place' f,
      allocateAndMapUserPage m st pml4 va = (st', .error .invalidMapping) ∧
      Leaked pml4 place st place' st' f) := by
  obtain ⟨f, a, mem₁, a₁, halloc, hmap⟩ :
      ∃ f a mem₁ a₁, st.allocator.allocateFrame = (a, some (f * FRAME_SIZE)) ∧ _ := by
    rcases allocateAndMapUserPage_cases hm st pml4 va with ⟨hmapped, -⟩ | ⟨-, ⟨hnone, -⟩ | hsome⟩
    · rw [translatePage_eq_leaf, hunused] at hmapped
      cases hmapped
    · exact absurd (freeFrames_eq_zero hnone) hfree
    · exact hsome
  -- the tree, seen by the allocator that has handed out the frame
  obtain ⟨hfresh, hbusy, hmono, hplace, htree⟩ := h.take halloc
  have hcount := freeFrames_allocateFrame halloc
  obtain ⟨hok, herror⟩ :=
    htree.mapTo_budget allocates_systemAllocateFrame budget_systemAllocateFrame f hva hunused
  rcases hmap with ⟨e, hmap, hrun⟩ | ⟨hmap, hrun⟩
  · right
    rw [hmap] at hok
    obtain ⟨place₁, hgrown⟩ := htree.mapTo_error allocates_systemAllocateFrame hva hmap
    refine ⟨?_, _, place₁, f, hrun, hgrown.inUse, hfresh, hgrown.mono f hbusy,
      (hgrown.data f hplace hbusy).1, fun g hg => hgrown.mono g (hmono g hg),
      fun g hg hb => hgrown.data g hg (hmono g hb), hgrown.leaves⟩
    rintro ⟨n, hn, hle⟩
    cases (hok n hn (by omega)).1
  · left
    rw [hmap] at hok herror
    obtain ⟨place₁, htree₁, hmono₁, hdata₁, hother₁, hmapped₁⟩ :=
      htree.mapTo allocates_systemAllocateFrame hva hmap
    have hextends := htree.extends_mapTo allocates_systemAllocateFrame hva hmap
    -- the page is cleared at last, and holds no table
    have hspare := (hdata₁ f hplace hbusy).1
    obtain ⟨htree₂, hleaf₂⟩ := htree₁.congr (mem₁.zero f) fun t => zero_of_placed hspare
    have hextends₂ : Extends userSlot pml4 mem₁ (mem₁.zero f) fun _ => False :=
      htree₁.tree.extends_none fun t path ht _ => zero_of_placed hspare (by simp [ht])
    refine ⟨_, place₁, f, hrun, ⟨htree₂, hfresh, hmono₁ f hbusy, hspare, Memory.zero_self, ?_,
      fun g hg => hmono₁ g (hmono g hg), ?_, ?_, ?_⟩, ?_⟩
    · exact (hleaf₂ va hva).trans (hmapped₁ rfl)
    · intro g hg hb
      obtain ⟨hplace₁, hsame⟩ := hdata₁ g hg (hmono g hb)
      refine ⟨hplace₁, Eq.trans (Memory.zero_of_ne ?_) hsame⟩
      rintro rfl
      exact hfresh hb
    · intro va' hva' hne
      exact (hleaf₂ va' hva').trans (hother₁ va' hva' hne)
    · exact (hextends.trans hextends₂).congr fun p _ _ => by rw [or_false]
    · by_contra hnone
      -- without enough frames the mapping would have failed
      obtain ⟨e, he⟩ := herror fun n hn => by
        by_contra hle
        have hrest : freeFrames a₁ + n = freeFrames a := (hok n hn (by omega)).2
        exact hnone ⟨n, hn, by show freeFrames a₁ + (n + 1) = _; omega⟩
      cases he

theorem UserTree.mapNewPage (h : UserTree pml4 place st)
    (hva : userSlot (index va 3)) (hunused : (leaf st.mem va 3 pml4).isUnused = true)
    (hmap : allocateAndMapUserPage m st pml4 va = (st', .ok ())) :
    ∃ place' f, MappedNew pml4 va place st place' st' f := by
  by_cases hfree : freeFrames st.allocator = 0
  · rw [mapUserPage_of_no_frame hm hunused hfree] at hmap
    cases hmap
  · rcases h.mapUserPage hm hva hunused hfree with
      ⟨st₁, place', f, hrun, hnew, -⟩ | ⟨-, st₁, place', f, hrun, -⟩
    · rw [hrun] at hmap
      cases hmap
      exact ⟨place', f, hnew⟩
    · rw [hrun] at hmap
      cases hmap

end

variable {f : ℕ} {place' : ℕ → Option (List ℕ)}

theorem MappedNew.others_page {n x : ℕ} (hn : n < 2 ^ 35)
    (h : MappedNew pml4 (n * FRAME_SIZE) place st place' st' f) (hx : x < 2 ^ 35) (hne : x ≠ n) :
    leaf st'.mem (x * FRAME_SIZE) 3 pml4 = leaf st.mem (x * FRAME_SIZE) 3 pml4 := by
  refine h.others _ (userSlot_page hx) ?_
  rwa [pageNumber_page hx, pageNumber_page hn]

/-! ### Calls in a row -/

/-- What calls for the given pages do to an address space: they change no other page, keep every
page that is mapped, and give a page that is not a free frame, which is clear.  Frames in use that
hold no table are not touched. -/
structure Maps (pml4 : ℕ) (pages : ℕ → Prop) (place : ℕ → Option (List ℕ)) (st : MemoryState)
    (place' : ℕ → Option (List ℕ)) (st' : MemoryState) : Prop where
  tree : UserTree pml4 place' st'
  mono : ∀ g, busy st.allocator g → busy st'.allocator g
  data : ∀ g, place g = none → busy st.allocator g → place' g = none ∧ st'.mem g = st.mem g
  others : ∀ va, userSlot (index va 3) → ¬ pages (pageNumber va) →
    leaf st'.mem va 3 pml4 = leaf st.mem va 3 pml4
  kept : ∀ va, userSlot (index va 3) → (leaf st.mem va 3 pml4).isUnused = false →
    leaf st'.mem va 3 pml4 = leaf st.mem va 3 pml4
  fresh : ∀ va, userSlot (index va 3) → (leaf st.mem va 3 pml4).isUnused = true →
    (leaf st'.mem va 3 pml4).isUnused = true ∨
      ∃ f, leaf st'.mem va 3 pml4 = .user f ∧ ¬ busy st.allocator f ∧ busy st'.allocator f ∧
        place' f = none ∧ st'.mem f = fun _ => .unused

theorem Maps.refl (h : UserTree pml4 place st) (pages : ℕ → Prop) :
    Maps pml4 pages place st place st where
  tree := h
  mono _ hg := hg
  data _ hg _ := ⟨hg, rfl⟩
  others _ _ _ := rfl
  kept _ _ _ := rfl
  fresh _ _ hunused := .inl hunused

theorem Maps.trans {pages pages' : ℕ → Prop} {place₁ place₂ : ℕ → Option (List ℕ)}
    {st₁ st₂ : MemoryState} (h : Maps pml4 pages place st place₁ st₁)
    (h' : Maps pml4 pages' place₁ st₁ place₂ st₂) :
    Maps pml4 (fun n => pages n ∨ pages' n) place st place₂ st₂ where
  tree := h'.tree
  mono g hg := h'.mono g (h.mono g hg)
  data g hg hb := by
    obtain ⟨hplace, hmem⟩ := h.data g hg hb
    obtain ⟨hplace', hmem'⟩ := h'.data g hplace (h.mono g hb)
    exact ⟨hplace', hmem'.trans hmem⟩
  others va hva hnot := by
    rw [not_or] at hnot
    exact (h'.others va hva hnot.2).trans (h.others va hva hnot.1)
  kept va hva hused := by
    have hsame := h.kept va hva hused
    exact (h'.kept va hva (hsame ▸ hused)).trans hsame
  fresh va hva hunused := by
    rcases h.fresh va hva hunused with hstill | ⟨f, hleaf, hfree, hbusy, hspare, hclear⟩
    · rcases h'.fresh va hva hstill with hstill' | ⟨f, hleaf, hfree, hrest⟩
      · exact .inl hstill'
      · exact .inr ⟨f, hleaf, fun hb => hfree (h.mono f hb), hrest⟩
    · -- a page of the first calls is mapped for the later ones
      have hkept := h'.kept va hva (by rw [hleaf, PageTableEntry.isUnused_user])
      obtain ⟨hspare', hmem⟩ := h'.data f hspare hbusy
      exact .inr ⟨f, hkept.trans hleaf, hfree, h'.mono f hbusy, hspare', hmem.trans hclear⟩

theorem Maps.imp {pages pages' : ℕ → Prop}
    (h : Maps pml4 pages place st place' st') (hpages : ∀ n, pages n → pages' n) :
    Maps pml4 pages' place st place' st' :=
  { h with others := fun va hva hnot => h.others va hva fun hpage => hnot (hpages _ hpage) }

theorem leaf_congr (mem : Memory) {va' : ℕ} (h : pageNumber va' = pageNumber va) :
    leaf mem va' 3 pml4 = leaf mem va 3 pml4 := by
  have hindex : ∀ l < 4, index va' l = index va l := by
    intro l hl
    rw [index_eq_pageNumber va' hl, index_eq_pageNumber va hl, h]
  simp only [leaf, leafTable, hindex 0 (by decide), hindex 1 (by decide), hindex 2 (by decide),
    hindex 3 (by decide)]

theorem MappedNew.maps (h : MappedNew pml4 va place st place' st' f)
    (hunused : (leaf st.mem va 3 pml4).isUnused = true) :
    Maps pml4 (fun n => n = pageNumber va) place st place' st' where
  tree := h.tree
  mono := h.mono
  data := h.data
  others := h.others
  kept va' hva' hused := by
    refine h.others va' hva' fun hpage => ?_
    rw [leaf_congr st.mem hpage, hunused] at hused
    cases hused
  fresh va' hva' hunused' := by
    by_cases hpage : pageNumber va' = pageNumber va
    · rw [leaf_congr st'.mem hpage]
      exact .inr ⟨f, h.mapped, h.fresh, h.taken, h.spare, h.clear⟩
    · rw [h.others va' hva' hpage]
      exact .inl hunused'

theorem Leaked.maps (h : Leaked pml4 place st place' st' f) (pages : ℕ → Prop) :
    Maps pml4 pages place st place' st' where
  tree := h.tree
  mono := h.mono
  data := h.data
  others va hva _ := h.leaves va hva
  kept va hva _ := h.leaves va hva
  fresh va hva hunused := .inl ((h.leaves va hva).symm ▸ hunused)

/-- **One call**, whatever its outcome. -/
theorem UserTree.mapUserPage_maps (hm : m.Documented) (h : UserTree pml4 place st)
    (hva : userSlot (index va 3)) :
    ∃ place', Maps pml4 (fun n => n = pageNumber va) place st place'
        (allocateAndMapUserPage m st pml4 va).1 ∧
      ((allocateAndMapUserPage m st pml4 va).2 = .ok () →
        (leaf (allocateAndMapUserPage m st pml4 va).1.mem va 3 pml4).isUnused = false) := by
  cases hunused : (leaf st.mem va 3 pml4).isUnused with
  | false =>
    rw [mapUserPage_of_mapped hm hunused]
    exact ⟨place, Maps.refl h _, fun _ => hunused⟩
  | true =>
    by_cases hfree : freeFrames st.allocator = 0
    · rw [mapUserPage_of_no_frame hm hunused hfree]
      exact ⟨place, Maps.refl h _, fun hok => (nomatch hok)⟩
    · rcases h.mapUserPage hm hva hunused hfree with
        ⟨st', place', f, hrun, hnew, -⟩ | ⟨-, st', place', f, hrun, hleaked⟩
      · rw [hrun]
        refine ⟨place', hnew.maps hunused, fun _ => ?_⟩
        rw [hnew.mapped, PageTableEntry.isUnused_user]
      · rw [hrun]
        exact ⟨place', hleaked.maps _, fun hok => (nomatch hok)⟩

/-! ### The frames of a call that fails -/

theorem allocateFrame_coherent {a : BitmapFrameAllocator} {n : ℕ}
    (h : a.Coherent ∧ a.totalFrames = n) :
    a.allocateFrame.1.Coherent ∧ a.allocateFrame.1.totalFrames = n := by
  rcases allocateFrame_cases a with hnone | ⟨i, -, hsome⟩
  · rwa [hnone]
  · rw [hsome]
    exact ⟨h.1.forceSetBit i, (totalFrames_forceSetBit a i).trans h.2⟩

/-- The frame is a page table in the user half of the target. -/
def LinkedTable (mem : Memory) (pml4 f : ℕ) : Prop :=
  ∃ p, p.length ≤ 3 ∧ InSlots userSlot p ∧ tableAt mem pml4 p = some f

theorem Leaked.not_linked
    (h : Leaked pml4 place st place' st' f) : ¬ LinkedTable st'.mem pml4 f := by
  rintro ⟨p, hlen, hslots, hat⟩
  have hplace := h.tree.tree.place_tableAt_root hlen hslots hat
  rw [h.spare] at hplace
  cases hplace

theorem refCount_lt_of_busy {a : BitmapFrameAllocator} (h : a.Coherent) (h' : a'.Coherent)
    (htotal : a'.totalFrames = a.totalFrames) (hfresh : ¬ busy a f) (hbusy : busy a' f) :
    a.refCount f < a'.refCount f := by
  have hfree : a.testBit f = false := Bool.eq_false_of_not_eq_true hfresh
  rw [h.refCount_eq_zero hfree]
  exact (h' f (htotal ▸ lt_of_testBit_eq_false hfree)).mp hbusy

/-- **Mapping a page is all or nothing** iff the page is mapped, or no frame is free, or the page
can be mapped: a call that fails after it has taken a frame for the page does not give it back. -/
theorem map_user_page_all_or_nothing_iff (hm : m.Documented) (h : UserTree pml4 place st)
    (hcoherent : st.allocator.Coherent) (hva : userSlot (index va 3)) :
    (∀ e, (allocateAndMapUserPage m st pml4 va).2 = .error e →
      ∀ f, st.allocator.refCount f < (allocateAndMapUserPage m st pml4 va).1.allocator.refCount f →
        LinkedTable (allocateAndMapUserPage m st pml4 va).1.mem pml4 f) ↔
      (leaf st.mem va 3 pml4).isUnused = false ∨ freeFrames st.allocator = 0 ∨
        CanMap st pml4 va := by
  cases hunused : (leaf st.mem va 3 pml4).isUnused with
  | false => simp [mapUserPage_of_mapped hm hunused]
  | true =>
    by_cases hfree : freeFrames st.allocator = 0
    · rw [mapUserPage_of_no_frame hm hunused hfree]
      simp [hfree]
    · rcases h.mapUserPage hm hva hunused hfree with
        ⟨st', place', f, hrun, -, n, hn, hcount⟩ | ⟨hcannot, st', place', f, hrun, hleaked⟩
      · have hcan : CanMap st pml4 va := ⟨n, hn, by omega⟩
        simp [hrun, hcan]
      · have hkept : (allocateAndMapUserPage m st pml4 va).1.allocator.Coherent ∧
            (allocateAndMapUserPage m st pml4 va).1.allocator.totalFrames =
              st.allocator.totalFrames :=
          allocateAndMapUserPage_invariant
            (P := fun a => a.Coherent ∧ a.totalFrames = st.allocator.totalFrames)
            hm (fun a => allocateFrame_coherent) ⟨hcoherent, rfl⟩
        rw [hrun] at hkept ⊢
        have hraised := refCount_lt_of_busy hcoherent hkept.1 hkept.2 hleaked.fresh hleaked.taken
        simp only [hfree, hcannot, or_self, iff_false, Bool.true_eq_false]
        exact fun hall => hleaked.not_linked (hall _ rfl f hraised)

end

/-- Eight frames, or as many as given; frame 0 holds an empty PML4, and the next `free` ones are
free. -/
def scarceTarget (free : ℕ) (frames : ℕ := 8) : MemoryState where
  mem := fun _ _ => .unused
  allocator := (List.range' 1 free).foldl BitmapFrameAllocator.forceFreeBit (.allBusy frames)

theorem scarceTarget_tree {frames : ℕ} (free : ℕ)
    (hroot : busy (scarceTarget free frames).allocator 0) :
    UserTree 0 (fun t => if t = 0 then some [] else none) (scarceTarget free frames) := by
  refine ⟨⟨rfl, fun t path i ht hlen hslot hused => ?_⟩, fun t ht => ?_⟩
  · cases hused
  · have ht0 : t = 0 := by
      by_contra hne
      exact ht (if_neg hne)
    exact ht0 ▸ hroot

theorem scarceTarget_coherent (free : ℕ) : (scarceTarget free).allocator.Coherent :=
  Coherent.foldl (fun _ i h => h.forceFreeBit i) (coherent_allBusy 8)

/-- Without a free frame nothing is taken, and with four of them the page is mapped. -/
theorem map_user_page_none_or_four :
    (∀ e, (allocateAndMapUserPage (.reference _) (scarceTarget 0) 0 0x400000).2 = .error e →
      ∀ f, (scarceTarget 0).allocator.refCount f < (allocateAndMapUserPage (.reference _)
          (scarceTarget 0) 0 0x400000).1.allocator.refCount f →
        LinkedTable (allocateAndMapUserPage (.reference _) (scarceTarget 0) 0 0x400000).1.mem 0 f) ∧
    ∀ e, (allocateAndMapUserPage (.reference _) (scarceTarget 4) 0 0x400000).2 = .error e →
      ∀ f, (scarceTarget 4).allocator.refCount f < (allocateAndMapUserPage (.reference _)
          (scarceTarget 4) 0 0x400000).1.allocator.refCount f →
        LinkedTable (allocateAndMapUserPage (.reference _) (scarceTarget 4) 0 0x400000).1.mem
          0 f := by
  have hm := OffsetPageTable.documented_reference BitmapFrameAllocator
  have hva : userSlot (index 0x400000 3) := by
    show index 0x400000 3 < 256
    decide
  have hroot : ∀ free ≤ 4, (scarceTarget free).allocator.testBit 0 = true := by decide +kernel
  constructor
  · refine (map_user_page_all_or_nothing_iff hm (scarceTarget_tree 0 (hroot 0 (by decide)))
      (scarceTarget_coherent 0) hva).mpr (.inr (.inl ?_))
    decide +kernel
  · refine (map_user_page_all_or_nothing_iff hm (scarceTarget_tree 4 (hroot 4 (by decide)))
      (scarceTarget_coherent 4) hva).mpr (.inr (.inr ⟨3, rfl, ?_⟩))
    decide +kernel

/-- **A lost frame**: with one free frame there is none for the first table, the call fails, and
frame 1 has count one but is no table of the target. -/
theorem map_user_page_loses_frame :
    (allocateAndMapUserPage (.reference _) (scarceTarget 1) 0 0x400000).2 = .error .invalidMapping ∧
    (scarceTarget 1).allocator.refCount 1 = 0 ∧
    (allocateAndMapUserPage (.reference _) (scarceTarget 1) 0 0x400000).1.allocator.refCount 1 = 1 ∧
    ¬ LinkedTable (allocateAndMapUserPage (.reference _) (scarceTarget 1) 0 0x400000).1.mem
      0 1 := by
  refine ⟨rfl, by decide +kernel, by decide +kernel, ?_⟩
  rintro ⟨p, -, -, hat⟩
  have hmem : (allocateAndMapUserPage (.reference _) (scarceTarget 1) 0 0x400000).1.mem
      = fun _ _ => .unused := rfl
  rw [hmem] at hat
  cases p with
  | nil => cases hat
  | cons i p => cases hat

/-! ### The life of an address space -/

/-- **The page tables of a new address space.**  `create_isolated_pml4` makes a tree of frames in
use, and over every sequence of requests for user pages, whatever their outcomes, it stays one: no
other page changes, no page that is mapped is lost, and frames in use that hold no table are not
touched. -/
theorem new_address_space_keeps_tree {m : Mapper} {st st₁ : MemoryState} {current new : ℕ}
    {place : ℕ → Option (List ℕ)} (hm : m.Documented) (h : UserTree current place st)
    (hcreate : createIsolatedPml4 st current = (st₁, some new)) {vas : List ℕ}
    (hvas : ∀ va ∈ vas, userSlot (index va 3)) :
    ∃ place₁ place', UserTree new place₁ st₁ ∧
      Maps new (fun n => ∃ va ∈ vas, n = pageNumber va) place₁ st₁ place'
        (vas.foldl (fun st va => (allocateAndMapUserPage m st new va).1) st₁) := by
  obtain ⟨place₁, h₁⟩ := h.createIsolatedPml4 hcreate
  refine ⟨place₁, ?_⟩
  clear hcreate
  induction vas generalizing st₁ place₁ with
  | nil => exact ⟨place₁, h₁, Maps.refl h₁ _⟩
  | cons va vas ih =>
    obtain ⟨place₂, hfirst, -⟩ := h₁.mapUserPage_maps hm (hvas va List.mem_cons_self)
    obtain ⟨place', -, hrest⟩ :=
      ih (fun va' hva' => hvas va' (List.mem_cons_of_mem va hva')) place₂ hfirst.tree
    refine ⟨place', h₁, (hfirst.trans hrest).imp ?_⟩
    rintro n (rfl | ⟨va', hva', rfl⟩)
    · exact ⟨va, List.mem_cons_self, rfl⟩
    · exact ⟨va', List.mem_cons_of_mem va hva', rfl⟩

theorem new_address_space_keeps_tree_page : ∃ st₁,
    createIsolatedPml4 (scarceTarget 7) 0 = (st₁, some 1) ∧
    ∃ place₁ place', UserTree 1 place₁ st₁ ∧
      Maps 1 (fun n => ∃ va ∈ [0x400000, 0x400008], n = pageNumber va) place₁ st₁ place'
        ([0x400000, 0x400008].foldl
          (fun st va => (allocateAndMapUserPage (.reference _) st 1 va).1) st₁) := by
  have hroot : (scarceTarget 7).allocator.testBit 0 = true := by decide +kernel
  have hnew : (createIsolatedPml4 (scarceTarget 7) 0).2 = some 1 := by decide +kernel
  refine ⟨_, Prod.ext rfl hnew, new_address_space_keeps_tree
    (OffsetPageTable.documented_reference BitmapFrameAllocator) (scarceTarget_tree 7 hroot)
    (Prod.ext rfl hnew) fun va hva => ?_⟩
  have hlt : va < 2 ^ 47 := by
    simp at hva
    omega
  show index va 3 < 256
  unfold index
  omega

end NwinOs.Tasking
