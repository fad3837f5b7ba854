import NwinOs.Tasking.Elf
import NwinOs.Tasking.Equiv.UserPages

/-!
# The image that the ELF loader leaves

The abstract view of loading is a flat image: `ElfSlice.image` starts with zeros and puts the file
bytes of one segment after the other at its address.  `Loaded` connects it to memory: the pages of
the segments are mapped to frames of their own, and these hold the bytes of the image.

* `Loaded.mapPage`: a page that is mapped for the first time holds zeros; one that a neighbour has
  mapped already is left alone.
* `Loaded.copyChunk`: copying a piece of the file is a splice into the image.

`load_elf_image` is the result for every executable whose segments do not overlap.
-/

namespace NwinOs.Tasking

open Effect Paging Mm BitmapFrameAllocator Function Bytes Profile Option

/-! ### The mapper -/

/-- The mapper does what its documentation says.  The huge-page bit of a level-4 entry is reserved.
-/
structure LookupMapper.Documented (m : LookupMapper) : Prop where
  mapper : m.toOffsetPageTable.Documented
  translateAddr_eq : ∀ mem pml4 va, (mem pml4 (index va 3)).hugePage = false →
    m.translateAddr mem pml4 va =
      (lookup mem va 3 pml4).map fun r => r.frame * FRAME_SIZE + va % FRAME_SIZE

/-- The mapper that is the documentation. -/
def LookupMapper.reference : LookupMapper where
  toOffsetPageTable := .reference BitmapFrameAllocator
  translateAddr mem pml4 va :=
    (lookup mem va 3 pml4).map fun r => r.frame * FRAME_SIZE + va % FRAME_SIZE

theorem LookupMapper.documented_reference : LookupMapper.reference.Documented :=
  ⟨OffsetPageTable.documented_reference _, fun _ _ _ _ => rfl⟩

theorem next_page (n : ℕ) : n * FRAME_SIZE + 0x1000 = (n + 1) * FRAME_SIZE := by
  unfold FRAME_SIZE
  omega

/-! ### Memory that holds an image -/

/-- The pages `frameOf` are mapped to frames of their own, which hold the bytes of the image. -/
structure Holds (pml4 : ℕ) (place : ℕ → Option (List ℕ)) (frameOf : ℕ → Option ℕ) (img : Bytes)
    (st : MemoryState) : Prop where
  tree : UserTree pml4 place st
  user : ∀ n f, frameOf n = some f → n < 2 ^ 35
  mapped : ∀ n f, frameOf n = some f → leaf st.mem (n * FRAME_SIZE) 3 pml4 = .user f
  spare : ∀ n f, frameOf n = some f → place f = none ∧ busy st.allocator f
  distinct : ∀ n n' f, frameOf n = some f → frameOf n' = some f → n = n'
  bytes : ∀ n f, frameOf n = some f → ∀ o, o < FRAME_SIZE →
    st.mem.bytes f o = img (n * FRAME_SIZE + o)

/-- Of the pages in `target`, which are in the user half, those in `done` are mapped and hold the
image, the others are not mapped. -/
def Loaded (pml4 : ℕ) (target done : ℕ → Prop) (img : Bytes) (st : MemoryState) : Prop :=
  ∃ place frameOf, Holds pml4 place frameOf img st ∧ (∀ n, done n ↔ frameOf n ≠ none) ∧
    ∀ n, target n → n < 2 ^ 35 ∧ (¬ done n → leaf st.mem (n * FRAME_SIZE) 3 pml4 = .unused)

variable {m : LookupMapper} {p : Profile} {elf : ElfSlice} {pml4 : ℕ} {target done : ℕ → Prop}
  {img : Bytes} {st st' : MemoryState} {s : LoadState}

variable {n : ℕ}

/-- One more page that holds the image. -/
theorem Holds.insert {place place' : ℕ → Option (List ℕ)} {frameOf : ℕ → Option ℕ}
    (h : Holds pml4 place frameOf img st) {f : ℕ} (hn : n < 2 ^ 35)
    (hnew : MappedNew pml4 (n * FRAME_SIZE) place st place' st' f)
    (hzero : ∀ o, o < FRAME_SIZE → img (n * FRAME_SIZE + o) = 0) :
    Holds pml4 place' (update frameOf n (some f)) img st' := by
  have hcases : ∀ x g, update frameOf n (some f) x = some g →
      (x = n ∧ g = f) ∨ frameOf x = some g ∧ x ≠ n ∧ g ≠ f := by
    intro x g hx
    by_cases hxn : x = n
    · subst hxn
      rw [update_self] at hx
      exact .inl ⟨rfl, (Option.some.inj hx).symm⟩
    · rw [update_of_ne hxn] at hx
      exact .inr ⟨hx, hxn, fun hgf => hnew.fresh (hgf ▸ (h.spare x g hx).2)⟩
  refine ⟨hnew.tree, fun x g hx => ?_, fun x g hx => ?_, fun x g hx => ?_, fun x y g hx hy => ?_,
    fun x g hx o ho => ?_⟩
  · rcases hcases x g hx with ⟨rfl, -⟩ | ⟨hx, -⟩
    · exact hn
    · exact h.user x g hx
  · rcases hcases x g hx with ⟨rfl, rfl⟩ | ⟨hx, hne, -⟩
    · exact hnew.mapped
    · exact (hnew.others_page hn (h.user x g hx) hne).trans (h.mapped x g hx)
  · rcases hcases x g hx with ⟨rfl, rfl⟩ | ⟨hx, -⟩
    · exact ⟨hnew.spare, hnew.taken⟩
    · obtain ⟨hplace, hbusy⟩ := h.spare x g hx
      exact ⟨(hnew.data g hplace hbusy).1, hnew.mono g hbusy⟩
  · rcases hcases x g hx with ⟨rfl, rfl⟩ | ⟨hx, -, hxf⟩
    · rcases hcases y g hy with ⟨rfl, -⟩ | ⟨-, -, hyf⟩
      · rfl
      · exact absurd rfl hyf
    · rcases hcases y g hy with ⟨-, rfl⟩ | ⟨hy, -⟩
      · exact absurd rfl hxf
      · exact h.distinct x y g hx hy
  · rcases hcases x g hx with ⟨rfl, rfl⟩ | ⟨hx, -⟩
    · rw [hzero o ho, Memory.bytes_of_clear hnew.clear]
    · obtain ⟨hplace, hbusy⟩ := h.spare x g hx
      rw [← h.bytes x g hx o ho]
      exact congrFun (Memory.bytes_congr (hnew.data g hplace hbusy).2) o

/-- **Mapping a page.** -/
theorem Loaded.mapPage (hm : m.Documented) (h : Loaded pml4 target done img st) (htarget : target n)
    (hzero : ¬ done n → ∀ o, o < FRAME_SIZE → img (n * FRAME_SIZE + o) = 0)
    (hmap : allocateAndMapUserPage m.toOffsetPageTable st pml4 (n * FRAME_SIZE) = (st', .ok ())) :
    Loaded pml4 target (fun x => done x ∨ x = n) img st' := by
  obtain ⟨place, frameOf, hholds, hdone, hrest⟩ := h
  obtain ⟨hn, hleafn⟩ := hrest n htarget
  by_cases hused : (leaf st.mem (n * FRAME_SIZE) 3 pml4).isUnused = true
  · -- a page that is not mapped yet
    have hnone : frameOf n = none := by
      cases hframe : frameOf n with
      | none => rfl
      | some f =>
        rw [hholds.mapped n f hframe, PageTableEntry.isUnused_user] at hused
        cases hused
    have hnotDone : ¬ done n := fun hd => (hdone n).mp hd hnone
    obtain ⟨place', f, hnew⟩ := hholds.tree.mapNewPage hm.mapper (userSlot_page hn) hused hmap
    refine ⟨place', update frameOf n (some f), hholds.insert hn hnew (hzero hnotDone),
      fun x => ?_, fun x hx => ⟨(hrest x hx).1, fun hnd => ?_⟩⟩
    · by_cases hxn : x = n
      · simp [hxn]
      · rw [update_of_ne hxn, ← hdone x]
        simp [hxn]
    · obtain ⟨hnd, hne⟩ := not_or.mp hnd
      exact (hnew.others_page hn (hrest x hx).1 hne).trans ((hrest x hx).2 hnd)
  · -- a page that is mapped already
    have hdn : done n := by
      by_contra hnd
      rw [hleafn hnd] at hused
      exact hused rfl
    rw [mapUserPage_of_mapped hm.mapper (Bool.eq_false_of_not_eq_true hused)] at hmap
    cases hmap
    have hsame : (fun x => done x ∨ x = n) = done := by
      ext x
      exact ⟨fun hx => hx.elim id fun he => he ▸ hdn, .inl⟩
    rw [hsame]
    exact ⟨place, frameOf, hholds, hdone, hrest⟩

/-- **Copying a piece of the file** into a page. -/
theorem Loaded.copyChunk (hm : m.Documented) (h : Loaded pml4 target done img s.memory)
    (elf : ElfSlice) (fileOffset : ℕ) {o c : ℕ} (hn : done n) (hfit : o + c ≤ FRAME_SIZE)
    (hc : 0 < c) :
    ∃ s', Tasking.copyChunk m elf pml4 (n * FRAME_SIZE) o fileOffset c s = .ok true s' ∧
      Loaded pml4 target done
        (img.splice (n * FRAME_SIZE + o) (elf.bytes.slice fileOffset c)) s'.memory := by
  obtain ⟨place, frameOf, hholds, hdone, hrest⟩ := h
  obtain ⟨f, hf⟩ := ne_none_iff_exists'.mp ((hdone n).mp hn)
  have hleaf := hholds.mapped n f hf
  -- the page is looked up at the start of its frame
  have hphys : m.translateAddr s.memory.mem pml4 (n * FRAME_SIZE) = some (f * FRAME_SIZE) := by
    obtain ⟨t, ht, -⟩ := leafTable_of_leaf (hleaf ▸ PageTableEntry.user_ne_unused f)
    obtain ⟨r, hr, hframe⟩ := lookup_of_leaf hleaf
    rw [hm.translateAddr_eq _ _ _ (leafTable_succ ht).2.1, hr, map_some, hframe,
      Nat.mul_mod_left, Nat.add_zero]
  have hdiv : (f * FRAME_SIZE + o) / FRAME_SIZE = f := by
    unfold FRAME_SIZE at *
    omega
  have hmod : (f * FRAME_SIZE + o) % FRAME_SIZE = o := by
    unfold FRAME_SIZE at *
    omega
  set src := elf.bytes.slice fileOffset c with hsrc
  have hlen : src.length = c := length_slice ..
  have hplace := (hholds.spare n f hf).1
  obtain ⟨htree, hleaves⟩ := hholds.tree.congr (s.memory.mem.store f o src)
    fun t ht => Memory.store_of_ne (by rintro rfl; exact ht hplace)
  refine ⟨_, by rw [Tasking.copyChunk, translateInPml4, hphys], ?_⟩
  simp only [hdiv, hmod]
  refine ⟨place, frameOf, ⟨htree, hholds.user, fun x g hx => ?_, hholds.spare, hholds.distinct,
    fun x g hx k hk => ?_⟩, hdone, fun x hx => ⟨(hrest x hx).1, fun hnd => ?_⟩⟩
  · exact (hleaves _ (userSlot_page (hholds.user x g hx))).trans (hholds.mapped x g hx)
  · by_cases hxn : x = n
    · -- the page that was written
      subst hxn
      rw [hf] at hx
      cases hx
      rw [Memory.bytes_store]
      exact splice_shift (hholds.bytes x f hf k hk)
    · -- another page: another frame, and other addresses
      have hgf : g ≠ f := by
        rintro rfl
        exact hxn (hholds.distinct x n g hx hf)
      have houtside : x * FRAME_SIZE + k < n * FRAME_SIZE + o ∨
          n * FRAME_SIZE + o + src.length ≤ x * FRAME_SIZE + k := by
        unfold FRAME_SIZE at *
        omega
      rw [splice_of_outside houtside, ← hholds.bytes x g hx k hk]
      exact congrFun (Memory.bytes_congr (Memory.store_of_ne hgf)) k
  · exact (hleaves _ (userSlot_page (hrest x hx).1)).trans ((hrest x hx).2 hnd)

/-! ### Segments -/

theorem virtAddrNew_user {addr : ℕ} (h : addr < 2 ^ 47) : virtAddrNew addr = some addr := by
  unfold virtAddrNew
  rw [if_pos (.inl (Nat.div_eq_of_lt h))]

/-- Nothing is said about a run that fails or faults. -/
abbrev Returns (prog : LoadProgram Bool) (Q : LoadState → Prop) (s : LoadState) : Prop :=
  wp prog (fun ok s' => ok = true → Q s') (fun _ _ => True) (fun _ => True) s

theorem mapSegment_loaded (hm : m.Documented) : ∀ {count n : ℕ} {done : ℕ → Prop} {s : LoadState},
    Loaded pml4 target done img s.memory → (∀ x, n ≤ x → x < n + count → target x) →
    (∀ x, n ≤ x → x < n + count → ¬ done x →
      ∀ o, o < FRAME_SIZE → img (x * FRAME_SIZE + o) = 0) →
    Returns (mapSegment m pml4 count (n * FRAME_SIZE))
      (fun s' => Loaded pml4 target (fun x => done x ∨ n ≤ x ∧ x < n + count) img s'.memory) s := by
  intro count
  induction count with
  | zero =>
    intro n done s h _ _ _
    have hsame : (fun x => done x ∨ n ≤ x ∧ x < n + 0) = done := by
      ext x
      exact ⟨fun hx => hx.elim id fun hr => absurd hr (by omega), .inl⟩
    rw [hsame]
    exact h
  | succ count ih =>
    intro n done s h htarget hzero
    have hn : n < 2 ^ 35 := by
      obtain ⟨_, _, -, -, hrest⟩ := h
      exact (hrest n (htarget n (le_refl n) (by omega))).1
    have haddr : virtAddrNew (n * FRAME_SIZE) = some (n * FRAME_SIZE) :=
      virtAddrNew_user (by unfold FRAME_SIZE; omega)
    rw [Returns, mapSegment, haddr, wp_bind, wp_ofOption_some, wp_bind]
    cases hmap : allocateAndMapUserPage m.toOffsetPageTable s.memory pml4 (n * FRAME_SIZE) with
    | mk st' r =>
      cases r with
      | error e =>
        -- the flag is false from here on
        have hrun : mapUserPage m pml4 (n * FRAME_SIZE) s = .ok false ⟨st', s.log⟩ := by
          rw [mapUserPage, hmap]
        rw [wp_iff_of_ok hrun, wp_bind]
        exact wp_of_forall (fun _ _ hok => by cases hok) (fun _ _ => trivial) fun _ => trivial
      | ok u =>
        obtain ⟨log, hrun⟩ : ∃ log,
          mapUserPage m pml4 (n * FRAME_SIZE) s = .ok true ⟨st', log⟩ := by
          rw [mapUserPage, hmap]
          split_ifs
          · exact ⟨_, rfl⟩
          · exact ⟨_, rfl⟩
        have hstep := h.mapPage hm (htarget n (le_refl n) (by omega))
          (hzero n (le_refl n) (by omega)) hmap
        rw [wp_iff_of_ok hrun, wp_bind, next_page]
        refine wp_mono (@ih (n + 1) _ ⟨st', log⟩ hstep (fun x h1 h2 => htarget x (by omega)
          (by omega)) fun x h1 h2 hnd => hzero x (by omega) (by omega) fun hd => hnd (.inl hd))
          (fun rest s' hrest hok => ?_) (fun _ _ _ => trivial) fun _ _ => trivial
        have hall : (fun x => (done x ∨ x = n) ∨ n + 1 ≤ x ∧ x < n + 1 + count) =
            fun x => done x ∨ n ≤ x ∧ x < n + (count + 1) := by
          ext x
          constructor
          · rintro ((hd | he) | hr)
            · exact .inl hd
            · exact .inr (by omega)
            · exact .inr (by omega)
          · rintro (hd | hr)
            · exact .inl (.inl hd)
            · by_cases he : x = n
              · exact .inl (.inr he)
              · exact .inr (by omega)
        exact hall ▸ hrest (by simpa using hok)

theorem copySegment_loaded (hm : m.Documented) :
    ∀ {fuel remaining fileOffset va : ℕ} {img : Bytes} {s : LoadState}, remaining ≤ fuel →
    va + remaining ≤ 2 ^ 47 → fileOffset + remaining < 2 ^ 64 →
    (∀ x, va ≤ x → x < va + remaining → done (x / FRAME_SIZE)) →
    Loaded pml4 target done img s.memory →
    Returns (copySegment m p elf pml4 fuel remaining fileOffset va)
      (fun s' => Loaded pml4 target done
        (img.splice va (elf.bytes.slice fileOffset remaining)) s'.memory) s := by
  intro fuel
  induction fuel with
  | zero =>
    intro remaining fileOffset va img s hfuel _ _ _ h _
    obtain rfl : remaining = 0 := by omega
    have hnil : elf.bytes.slice fileOffset 0 = [] := rfl
    rw [hnil, splice_nil]
    exact h
  | succ fuel ih =>
    intro remaining fileOffset va img s hfuel hva hfile hdone h
    rw [Returns, copySegment]
    split_ifs with hpos
    · set c := min remaining (0x1000 - va % 0x1000) with hc
      have hc_pos : 0 < c := by omega
      have hc_le : c ≤ remaining := by omega
      have haddr : virtAddrNew (va / 0x1000 * 0x1000) = some (va / FRAME_SIZE * FRAME_SIZE) :=
        virtAddrNew_user (by omega)
      have hpage : va / FRAME_SIZE * FRAME_SIZE + va % 0x1000 = va := Nat.div_add_mod' va 0x1000
      obtain ⟨s₁, hrun, h₁⟩ := h.copyChunk (o := va % 0x1000) (c := c) hm elf fileOffset
        (hdone va (le_refl va) (by omega)) (by unfold FRAME_SIZE; omega) hc_pos
      rw [hpage] at h₁
      simp only [haddr, wp_bind, wp_ofOption_some]
      rw [wp_iff_of_ok hrun, add_eq_some (by omega), wp_ofOption_some,
        add_eq_some (by omega), wp_ofOption_some]
      refine wp_mono (ih (by omega) (by omega) (by omega) (fun x h1 h2 => hdone x (by omega)
        (by omega)) h₁) (fun rest s' hrest hok => ?_) (fun _ _ _ => trivial) fun _ _ => trivial
      have hsplit : elf.bytes.slice fileOffset remaining =
          elf.bytes.slice fileOffset c ++ elf.bytes.slice (fileOffset + c) (remaining - c) := by
        rw [← slice_add, Nat.add_sub_cancel' hc_le]
      rw [hsplit, splice_append, length_slice]
      exact hrest (by simpa using hok)
    · obtain rfl : remaining = 0 := by omega
      have hnil : elf.bytes.slice fileOffset 0 = [] := rfl
      rw [hnil, splice_nil, wp_pure]
      exact fun _ => h

/-- The page has an address in the segment. -/
def ProgramHeader.hasPage (header : ProgramHeader) (n : ℕ) : Prop :=
  ∃ k, k < header.pMemsz ∧ (header.pVaddr + k) / FRAME_SIZE = n

theorem ProgramHeader.hasPage_iff {header : ProgramHeader} (h : 0 < header.pMemsz) :
    header.hasPage n ↔ header.pVaddr / FRAME_SIZE ≤ n ∧
      n < (header.pVaddr + header.pMemsz + 0xFFF) / FRAME_SIZE := by
  unfold hasPage FRAME_SIZE
  constructor
  · omega
  · rintro ⟨h1, h2⟩
    by_cases hfirst : n = header.pVaddr / 4096
    · exact ⟨0, h, by omega⟩
    · exact ⟨n * 4096 - header.pVaddr, by omega, by omega⟩

/-- **Loading a segment** adds its pages, and puts its file bytes into the image. -/
theorem loadSegment_loaded (hm : m.Documented) {header : ProgramHeader} (hmem : 0 < header.pMemsz)
    (huser : header.pVaddr + header.pMemsz ≤ 2 ^ 47) (hvaddr : 0 < header.pVaddr)
    (hfile : header.pFilesz ≤ header.pMemsz) (hslice : header.pOffset + header.pFilesz < 2 ^ 64)
    (htarget : ∀ x, header.hasPage x → target x)
    (hzero : ∀ x, header.hasPage x → ¬ done x →
      ∀ o, o < FRAME_SIZE → img (x * FRAME_SIZE + o) = 0)
    (h : Loaded pml4 target done img s.memory) :
    Returns (loadSegment m p elf pml4 header)
      (fun s' => Loaded pml4 target (fun x => done x ∨ header.hasPage x)
        (img.splice header.pVaddr (elf.bytes.slice header.pOffset header.pFilesz)) s'.memory)
          s := by
  set first := header.pVaddr / FRAME_SIZE with hfirst
  set count := (header.pVaddr + header.pMemsz + 0xFFF) / FRAME_SIZE - first with hcount
  have hpages : ∀ x, header.hasPage x ↔ first ≤ x ∧ x < first + count := by
    intro x
    rw [ProgramHeader.hasPage_iff hmem]
    omega
  have hcount' : ((header.pVaddr + header.pMemsz + 0xFFF) / 0x1000 * 0x1000 -
      header.pVaddr / 0x1000 * 0x1000) / 0x1000 = count := by
    unfold FRAME_SIZE at *
    omega
  rw [Returns, loadSegment, if_neg (by omega)]
  simp only [wp_bind]
  rw [add_eq_some (by omega), wp_ofOption_some, add_eq_some (by omega), wp_ofOption_some, hcount']
  refine wp_mono (mapSegment_loaded hm h (fun x h1 h2 => htarget x ((hpages x).mpr ⟨h1, h2⟩))
    fun x h1 h2 => hzero x ((hpages x).mpr ⟨h1, h2⟩)) (fun mapped s₁ h₁ => ?_)
    (fun _ _ _ => trivial) fun _ _ => trivial
  have hdone : (fun x => done x ∨ first ≤ x ∧ x < first + count) =
      fun x => done x ∨ header.hasPage x := by
    ext x
    rw [hpages]
  have h₁ : mapped = true →
      Loaded pml4 target (fun x => done x ∨ header.hasPage x) img s₁.memory :=
    fun hok => hdone ▸ h₁ hok
  cases mapped with
  | false =>
    split_ifs
    · rw [wp_bind]
      exact wp_of_forall (fun _ _ hok => by cases hok) (fun _ _ => trivial) fun _ => trivial
    · exact fun hok => by cases hok
  | true =>
    by_cases hcopy : 0 < header.pFilesz
    · rw [if_pos ⟨hcopy, by omega⟩, wp_bind]
      refine wp_mono (copySegment_loaded hm (le_refl _) (by omega) hslice (fun x hx1 hx2 => ?_)
        (h₁ rfl)) (fun copied s₂ h₂ hok => h₂ (by simpa using hok)) (fun _ _ _ => trivial)
        fun _ _ => trivial
      exact .inr ⟨x - header.pVaddr, by omega, by rw [Nat.add_sub_cancel' hx1]⟩
    · rw [if_neg fun hboth => hcopy hboth.1, wp_pure]
      intro _
      have hnil : elf.bytes.slice header.pOffset header.pFilesz = [] := by
        rw [Nat.eq_zero_of_not_pos hcopy]
        rfl
      rw [hnil, splice_nil]
      exact h₁ rfl

/-! ### Executables -/

namespace ElfSlice

def entryPoint (elf : ElfSlice) : ℕ := elf.bytes.get 0x18 8

def phOffset (elf : ElfSlice) : ℕ := elf.bytes.get 0x20 8

def phEntries (elf : ElfSlice) : ℕ := elf.bytes.get 0x38 2

def phEntrySize (elf : ElfSlice) : ℕ := elf.bytes.get 0x36 2

/-- Where program header `i` starts. -/
def phStart (elf : ElfSlice) (i : ℕ) : ℕ := elf.phOffset + i * elf.phEntrySize

/-- Program header `i` has type `PT_LOAD`. -/
def isLoad (elf : ElfSlice) (i : ℕ) : Prop := elf.bytes.get (elf.phStart i) 4 = 1

instance (elf : ElfSlice) (i : ℕ) : Decidable (elf.isLoad i) := inferInstanceAs (Decidable (_ = _))

/-- The fields of program header `i`. -/
def header (elf : ElfSlice) (i : ℕ) : ProgramHeader where
  pOffset := elf.bytes.get (elf.phStart i + 0x08) 8
  pVaddr := elf.bytes.get (elf.phStart i + 0x10) 8
  pFilesz := elf.bytes.get (elf.phStart i + 0x20) 8
  pMemsz := elf.bytes.get (elf.phStart i + 0x28) 8

/-- Program header `i` describes a segment that is not empty. -/
def IsSegment (elf : ElfSlice) (i : ℕ) : Prop :=
  i < elf.phEntries ∧ elf.isLoad i ∧ 0 < (elf.header i).pMemsz

instance (elf : ElfSlice) (i : ℕ) : Decidable (elf.IsSegment i) :=
  inferInstanceAs (Decidable (_ ∧ _))

/-- The header checks. -/
def Accepted (elf : ElfSlice) : Prop :=
  64 ≤ elf.length ∧ elf.bytes.slice 0 4 = [0x7F, 0x45, 0x4C, 0x46] ∧ elf.bytes 4 = 2

instance (elf : ElfSlice) : Decidable elf.Accepted := inferInstanceAs (Decidable (_ ∧ _))

/-- The program headers start inside the slice, at offsets that 16 bits can hold the product of;
the segments are disjoint, lie in the user half and have their file bytes in the slice. -/
structure WellPlaced (elf : ElfSlice) : Prop where
  located : ∀ i, i < elf.phEntries → i * elf.phEntrySize < 2 ^ 16
  inSlice : ∀ i, i < elf.phEntries → elf.phStart i ≤ elf.length
  userHalf : ∀ i, elf.IsSegment i → (elf.header i).pVaddr + (elf.header i).pMemsz ≤ 2 ^ 47
  vaddr_pos : ∀ i, elf.IsSegment i → 0 < (elf.header i).pVaddr
  filesz_le : ∀ i, elf.IsSegment i → (elf.header i).pFilesz ≤ (elf.header i).pMemsz
  file : ∀ i, elf.IsSegment i → (elf.header i).pOffset + (elf.header i).pFilesz ≤ elf.length
  disjoint : ∀ i j, elf.IsSegment i → elf.IsSegment j → i ≠ j →
    (elf.header i).pVaddr + (elf.header i).pMemsz ≤ (elf.header j).pVaddr ∨
    (elf.header j).pVaddr + (elf.header j).pMemsz ≤ (elf.header i).pVaddr

/-- The image after the first `i` headers. -/
def image (elf : ElfSlice) : ℕ → Bytes
  | 0 => fun _ => 0
  | i + 1 =>
    if elf.IsSegment i then
      (elf.image i).splice (elf.header i).pVaddr
        (elf.bytes.slice (elf.header i).pOffset (elf.header i).pFilesz)
    else elf.image i

/-- The pages of the segments among the first `i` headers. -/
def pages (elf : ElfSlice) (i n : ℕ) :
    Prop := ∃ j, j < i ∧ elf.IsSegment j ∧ (elf.header j).hasPage n

theorem WellPlaced.image_eq_zero (h : elf.WellPlaced) {x : ℕ} : ∀ {i : ℕ},
    (∀ j, j < i → elf.IsSegment j → x < (elf.header j).pVaddr ∨
      (elf.header j).pVaddr + (elf.header j).pMemsz ≤ x) → elf.image i x = 0 := by
  intro i
  induction i with
  | zero => exact fun _ => rfl
  | succ i ih =>
    intro hout
    have hrest := ih fun j hj => hout j (by omega)
    rw [image]
    split_ifs with hseg
    · have hi := hout i (by omega) hseg
      have hle := h.filesz_le i hseg
      rw [splice_of_outside (by rw [length_slice]; omega), hrest]
    · exact hrest

theorem WellPlaced.image_segment (h : elf.WellPlaced) {j k : ℕ}
    (hj : elf.IsSegment j) (hk : k < (elf.header j).pMemsz) : ∀ {i : ℕ}, j < i →
    elf.image i ((elf.header j).pVaddr + k) =
      if k < (elf.header j).pFilesz then elf.bytes ((elf.header j).pOffset + k) else 0 := by
  intro i
  induction i with
  | zero => exact fun hlt => absurd hlt (Nat.not_lt_zero j)
  | succ i ih =>
    intro hlt
    rw [image]
    by_cases hji : j = i
    · -- the segment itself: nothing of it has been written before
      subst hji
      have hbefore : elf.image j ((elf.header j).pVaddr + k) = 0 := by
        refine h.image_eq_zero fun l hl hseg => ?_
        have := h.disjoint l j hseg hj (by omega)
        omega
      split_ifs with hfile
      · rw [splice_of_inside (by rwa [length_slice])]
        have hget := @Bytes.getElem?_slice elf.bytes (elf.header j).pOffset (elf.header j).pFilesz k
        rw [if_pos hfile, List.getElem?_eq_getElem (by rwa [length_slice])] at hget
        exact Option.some.inj hget
      · rw [splice_of_outside (by rw [length_slice]; omega), hbefore]
    · rw [← ih (by omega)]
      by_cases hseg : elf.IsSegment i
      · -- a later segment lies elsewhere
        have hdisjoint := h.disjoint i j hseg hj (Ne.symm hji)
        have hle := h.filesz_le i hseg
        rw [if_pos hseg, splice_of_outside (by rw [length_slice]; omega)]
      · rw [if_neg hseg]

theorem WellPlaced.image_page (h : elf.WellPlaced) {i n o : ℕ}
    (hn : ¬ elf.pages i n) (ho : o < FRAME_SIZE) : elf.image i (n * FRAME_SIZE + o) = 0 := by
  refine h.image_eq_zero fun j hj hseg => ?_
  by_contra hin
  refine hn ⟨j, hj, hseg, n * FRAME_SIZE + o - (elf.header j).pVaddr, by omega, ?_⟩
  unfold FRAME_SIZE at *
  omega

theorem pages_succ (elf : ElfSlice) (i n : ℕ) : elf.pages (i + 1) n ↔
    elf.pages i n ∨ elf.IsSegment i ∧ (elf.header i).hasPage n := by
  constructor
  · rintro ⟨j, hj, hseg, hpage⟩
    by_cases hji : j = i
    · subst hji
      exact .inr ⟨hseg, hpage⟩
    · exact .inl ⟨j, by omega, hseg, hpage⟩
  · rintro (⟨j, hj, hseg, hpage⟩ | ⟨hseg, hpage⟩)
    · exact ⟨j, by omega, hseg, hpage⟩
    · exact ⟨i, by omega, hseg, hpage⟩

end ElfSlice

/-! ### The image of a loaded executable -/

section Rules

variable {Q : ℕ → LoadState → Prop} {R : Bool → LoadState → Prop} {E : ElfError → LoadState → Prop}
  {F : LoadState → Prop}

theorem wp_emit {Q : Unit → LoadState → Prop} {event : LoadEvent} :
    wp (emit event) Q E F s ↔ Q () ⟨s.memory, event :: s.log⟩ := Iff.rfl

theorem wp_readUnaligned {offset size : ℕ} : wp (readUnaligned elf offset size) Q E F s ↔
    Q (elf.bytes.get offset size) ⟨s.memory, .read offset size :: s.log⟩ := Iff.rfl

variable {i : ℕ}

theorem wp_readProgramHeader {Q : ProgramHeader → LoadState → Prop} :
    wp (readProgramHeader elf (elf.phStart i)) Q E F s ↔ Q (elf.header i)
      ⟨s.memory, .read (elf.phStart i + 0x28) 8 :: .read (elf.phStart i + 0x20) 8 ::
        .read (elf.phStart i + 0x10) 8 :: .read (elf.phStart i + 0x08) 8 :: s.log⟩ := by
  rw [readProgramHeader, wp_bind, wp_readUnaligned, wp_bind, wp_readUnaligned, wp_bind,
    wp_readUnaligned, wp_bind, wp_readUnaligned, wp_pure, ElfSlice.header]

/-- What is logged for program header `i`. -/
def ElfSlice.headerLog (elf : ElfSlice) (i : ℕ) : List LoadEvent :=
  if elf.isLoad i then
    [.read (elf.phStart i + 0x28) 8, .read (elf.phStart i + 0x20) 8,
      .read (elf.phStart i + 0x10) 8, .read (elf.phStart i + 0x08) 8,
      .read (elf.phStart i) 4, .locate i (elf.phStart i)]
  else [.read (elf.phStart i) 4, .locate i (elf.phStart i)]

theorem wp_loadHeader (hlocated : i * elf.phEntrySize < 2 ^ 16) (hstart : elf.phStart i < 2 ^ 64) :
    wp (loadHeader m p elf pml4 elf.phOffset elf.phEntrySize i) R E F s ↔
      wp (if elf.isLoad i then loadSegment m p elf pml4 (elf.header i) else pure true) R E F
        ⟨s.memory, elf.headerLog i ++ s.log⟩ := by
  have hsum : p.add 64 elf.phOffset (i * elf.phEntrySize) = some (elf.phStart i) :=
    add_eq_some hstart
  rw [loadHeader, mul_eq_some hlocated, wp_bind, wp_ofOption_some, hsum, wp_bind,
    wp_ofOption_some, wp_bind, wp_emit, wp_bind, wp_readUnaligned]
  by_cases hload : elf.isLoad i
  · have hload' : elf.bytes.get (elf.phStart i) 4 = 1 := hload
    rw [if_pos hload', if_pos hload, ElfSlice.headerLog, if_pos hload, wp_bind,
      wp_readProgramHeader]
    rfl
  · have hload' : ¬ elf.bytes.get (elf.phStart i) 4 = 1 := hload
    rw [if_neg hload', if_neg hload, ElfSlice.headerLog, if_neg hload]
    rfl

theorem loadSegment_of_not_isSegment (hi : i < elf.phEntries) (hseg : ¬ elf.IsSegment i) :
    (if elf.isLoad i then loadSegment m p elf pml4 (elf.header i) else pure true) = pure true := by
  split_ifs with hload
  · have hempty : (elf.header i).pMemsz = 0 :=
      Nat.eq_zero_of_not_pos fun hmem => hseg ⟨hi, hload, hmem⟩
    rw [loadSegment, if_pos hempty]
  · rfl

theorem wp_loadElf (haccepted : elf.Accepted) :
    wp (loadElf m p elf pml4) Q E F s ↔
      wp (loadHeaders m p elf pml4 elf.phOffset elf.phEntrySize elf.phEntries 0)
        (fun ok s' => if ok then Q elf.entryPoint s' else E .memoryMappingFailed s') E F
        ⟨s.memory, .read 0x36 2 :: .read 0x38 2 :: .read 0x20 8 :: .read 0x18 8 :: s.log⟩ := by
  obtain ⟨hlength, hmagic, hclass⟩ := haccepted
  unfold loadElf
  rw [if_neg (by omega), if_neg (not_not.mpr hmagic), if_neg (not_not.mpr hclass), wp_bind,
    wp_readUnaligned, wp_bind, wp_readUnaligned, wp_bind, wp_readUnaligned, wp_bind,
    wp_readUnaligned, wp_bind]
  have hend : ∀ (ok : Bool) (s' : LoadState),
      wp (if ok = true then pure (elf.bytes.get 0x18 8) else
        Program.throw ElfError.memoryMappingFailed) Q E F s' ↔
      if ok then Q elf.entryPoint s' else E .memoryMappingFailed s' := by
    intro ok s'
    cases ok <;> exact Iff.rfl
  simp only [hend]
  exact Iff.rfl

theorem accepted_of_ok {log : List LoadEvent} {entry : ℕ}
    (hrun : loadElf m p elf pml4 ⟨st, log⟩ = .ok entry s) : elf.Accepted := by
  unfold loadElf at hrun
  split_ifs at hrun with h1 h2 h3
  · cases hrun
  · cases hrun
  · cases hrun
  · exact ⟨by omega, not_not.mp h2, not_not.mp h3⟩

end Rules

theorem loadHeader_loaded (hm : m.Documented) (helf : elf.WellPlaced) {i : ℕ}
    (hi : i < elf.phEntries)
    (h : Loaded pml4 (elf.pages elf.phEntries) (elf.pages i) (elf.image i) s.memory) :
    Returns (loadHeader m p elf pml4 elf.phOffset elf.phEntrySize i)
      (fun s' => Loaded pml4 (elf.pages elf.phEntries) (elf.pages (i + 1)) (elf.image (i + 1))
        s'.memory) s := by
  have hlocated := helf.located i hi
  have hstart : elf.phOffset + i * elf.phEntrySize ≤ elf.length := helf.inSlice i hi
  have hlen := elf.length_lt
  have hstart' : elf.phStart i < 2 ^ 64 := by
    unfold ElfSlice.phStart
    omega
  have hsegment : elf.IsSegment i ∨ ¬ elf.IsSegment i := em _
  rw [Returns, wp_loadHeader hlocated hstart']
  rcases hsegment with hseg | hseg
  · have hfile := helf.file i hseg
    have hpages : (fun x => elf.pages i x ∨ (elf.header i).hasPage x) = elf.pages (i + 1) := by
      ext n
      rw [ElfSlice.pages_succ]
      exact ⟨fun hn => hn.imp id fun hpage => ⟨hseg, hpage⟩, fun hn => hn.imp id And.right⟩
    have himage : (elf.image i).splice (elf.header i).pVaddr
        (elf.bytes.slice (elf.header i).pOffset (elf.header i).pFilesz) = elf.image (i + 1) := by
      rw [ElfSlice.image, if_pos hseg]
    have hsum : (elf.header i).pOffset + (elf.header i).pFilesz < 2 ^ 64 := by omega
    have hmem := hseg.2.2
    have huser := helf.userHalf i hseg
    have hvaddr := helf.vaddr_pos i hseg
    have hle := helf.filesz_le i hseg
    have htarget : ∀ x, (elf.header i).hasPage x → elf.pages elf.phEntries x :=
      fun x hx => ⟨i, hi, hseg, hx⟩
    rw [if_pos hseg.2.1, ← hpages, ← himage]
    generalize elf.header i = header at hsum hmem huser hvaddr hle htarget ⊢
    exact loadSegment_loaded hm hmem huser hvaddr hle hsum htarget
      (fun x _ hnd o ho => helf.image_page hnd ho) h
  · -- nothing to load
    have hpages : elf.pages (i + 1) = elf.pages i := by
      ext n
      rw [ElfSlice.pages_succ]
      exact ⟨fun hn => hn.elim id fun hboth => absurd hboth.1 hseg, .inl⟩
    have himage : elf.image (i + 1) = elf.image i := by rw [ElfSlice.image, if_neg hseg]
    rw [loadSegment_of_not_isSegment hi hseg, hpages, himage, wp_pure]
    exact fun _ => h

theorem loadHeaders_loaded (hm : m.Documented) (helf : elf.WellPlaced) :
    ∀ {n i : ℕ} {s : LoadState}, i + n = elf.phEntries →
    Loaded pml4 (elf.pages elf.phEntries) (elf.pages i) (elf.image i) s.memory →
    Returns (loadHeaders m p elf pml4 elf.phOffset elf.phEntrySize n i)
      (fun s' => Loaded pml4 (elf.pages elf.phEntries) (elf.pages elf.phEntries)
        (elf.image elf.phEntries) s'.memory) s := by
  intro n
  induction n with
  | zero =>
    intro i s hi h _
    obtain rfl : i = elf.phEntries := by omega
    exact h
  | succ n ih =>
    intro i s hi h
    rw [Returns, loadHeaders, wp_bind]
    refine wp_mono (loadHeader_loaded hm helf (by omega) h) (fun loaded s₁ h₁ => ?_)
      (fun _ _ _ => trivial) fun _ _ => trivial
    rw [wp_bind]
    cases loaded with
    | false =>
      exact wp_of_forall (fun _ _ hok => by cases hok) (fun _ _ => trivial) fun _ => trivial
    | true =>
      exact wp_mono (ih (by omega) (h₁ rfl)) (fun rest s₂ h₂ hok => h₂ (by simpa using hok))
        (fun _ _ _ => trivial) fun _ _ => trivial

/-- A byte of a loaded page. -/
theorem Loaded.readByte (h : Loaded pml4 target done img st) {va : ℕ}
    (hva : done (va / FRAME_SIZE)) : Tasking.readByte st.mem pml4 va = some (img va) := by
  obtain ⟨place, frameOf, hholds, hdone, -⟩ := h
  obtain ⟨f, hf⟩ := ne_none_iff_exists'.mp ((hdone _).mp hva)
  have hleaf : leaf st.mem va 3 pml4 = .user f :=
    (leaf_page st.mem va 3 pml4).symm.trans (hholds.mapped _ f hf)
  obtain ⟨tr, htr, hframe⟩ := translate_of_leaf hleaf
  have hbyte := hholds.bytes _ f hf (va % FRAME_SIZE) (Nat.mod_lt _ (by decide))
  rw [Nat.div_add_mod' va FRAME_SIZE] at hbyte
  rw [Tasking.readByte, htr, map_some, hframe, hbyte]

theorem loadElf_loaded {place : ℕ → Option (List ℕ)} {log : List LoadEvent} {entry : ℕ}
    (hm : m.Documented) (htree : UserTree pml4 place st) (helf : elf.WellPlaced)
    (hfresh : ∀ i, elf.IsSegment i → ∀ k, k < (elf.header i).pMemsz →
      m.translatePage st.mem pml4 ((elf.header i).pVaddr + k) = false)
    (hrun : loadElf m p elf pml4 ⟨st, log⟩ = .ok entry s) :
    entry = elf.entryPoint ∧ Loaded pml4 (elf.pages elf.phEntries) (elf.pages elf.phEntries)
      (elf.image elf.phEntries) s.memory := by
  have hstart : Loaded pml4 (elf.pages elf.phEntries) (elf.pages 0) (elf.image 0) st := by
    refine ⟨place, fun _ => none, ⟨htree, nofun, nofun, nofun, nofun, nofun⟩, fun n => ?_,
      fun n hn => ?_⟩
    · exact ⟨fun ⟨j, hj, _⟩ => absurd hj (Nat.not_lt_zero j), fun hne => absurd rfl hne⟩
    · obtain ⟨i, hi, hseg, k, hk, rfl⟩ := hn
      have huser := helf.userHalf i hseg
      refine ⟨by unfold FRAME_SIZE; omega, fun _ => ?_⟩
      have hpage := hfresh i hseg k hk
      rw [hm.mapper.translatePage_eq, translatePage_eq_leaf, Bool.not_eq_false'] at hpage
      exact (leaf_page st.mem _ 3 pml4).trans (PageTableEntry.isUnused_iff.mp hpage)
  have hspec : wp (loadElf m p elf pml4) (fun e s' => e = elf.entryPoint ∧
      Loaded pml4 (elf.pages elf.phEntries) (elf.pages elf.phEntries) (elf.image elf.phEntries)
        s'.memory) (fun _ _ => True) (fun _ => True) ⟨st, log⟩ := by
    rw [wp_loadElf (accepted_of_ok hrun)]
    refine wp_mono (loadHeaders_loaded hm helf (Nat.zero_add _) hstart) (fun ok s' h => ?_)
      (fun _ _ _ => trivial) fun _ _ => trivial
    cases ok with
    | false => trivial
    | true => exact ⟨rfl, h rfl⟩
  obtain ⟨hentry, hloaded⟩ := wp_of_ok hspec hrun
  exact ⟨hentry, hloaded⟩

/-- **The image of a loaded executable.**  If `loadElf` returns, the result is the entry point, and
every segment is in memory at its address: its bytes from the file, and zeros behind them. -/
theorem load_elf_image {place : ℕ → Option (List ℕ)} {log : List LoadEvent} {entry : ℕ}
    (hm : m.Documented) (htree : UserTree pml4 place st) (helf : elf.WellPlaced)
    (hfresh : ∀ i, elf.IsSegment i → ∀ k, k < (elf.header i).pMemsz →
      m.translatePage st.mem pml4 ((elf.header i).pVaddr + k) = false)
    (hrun : loadElf m p elf pml4 ⟨st, log⟩ = .ok entry s) :
    entry = elf.entryPoint ∧
    ∀ i, elf.IsSegment i → ∀ k, k < (elf.header i).pMemsz →
      readByte s.memory.mem pml4 ((elf.header i).pVaddr + k) =
        some (if k < (elf.header i).pFilesz then elf.bytes ((elf.header i).pOffset + k)
          else 0) := by
  obtain ⟨hentry, hloaded⟩ := loadElf_loaded hm htree helf hfresh hrun
  refine ⟨hentry, fun i hseg k hk => ?_⟩
  rw [hloaded.readByte ⟨i, hseg.1, hseg, k, hk, rfl⟩, helf.image_segment hseg hk hseg.1]

/-- An executable with two segments, `[0x1FF0, 0x2008)` and `[0x2010, 0x2014)`: the first one
crosses a page boundary, the second one starts in its last page, and both end in zeros. -/
def twoSegments : ElfSlice where
  bytes := Bytes.putAll (fun _ => 0)
    [(0, 4, 0x464C457F), (4, 1, 2), (0x18, 8, 0x1FF4), (0x20, 8, 64), (0x36, 2, 56), (0x38, 2, 2),
      (64, 4, 1), (72, 8, 176), (80, 8, 0x1FF0), (96, 8, 20), (104, 8, 24),
      (120, 4, 1), (128, 8, 196), (136, 8, 0x2010), (152, 8, 1), (160, 8, 4),
      (176, 8, 0x1122334455667788), (184, 8, 0x99AABBCCDDEEFF00), (192, 4, 0x12345678), (196, 1, 7)]
  length := 200
  length_lt := by decide

/-- Eight frames; frame 0 holds an empty PML4, the others are free. -/
def emptyTarget : MemoryState where
  mem := fun _ _ => .unused
  allocator := (List.range' 1 7).foldl BitmapFrameAllocator.forceFreeBit (.allBusy 8)

theorem emptyTarget_tree : UserTree 0 (fun t => if t = 0 then some [] else none) emptyTarget :=
  scarceTarget_tree 7 (by show BitmapFrameAllocator.testBit _ 0 = true; decide +kernel)

theorem twoSegments_wellPlaced : twoSegments.WellPlaced := by
  refine ⟨by decide +kernel, by decide +kernel, fun i hi => ?_, fun i hi => ?_, fun i hi => ?_,
    fun i hi => ?_, fun i j hi hj => ?_⟩
  · exact (by decide +kernel : ∀ i, i < twoSegments.phEntries →
      (twoSegments.header i).pVaddr + (twoSegments.header i).pMemsz ≤ 2 ^ 47) i hi.1
  · exact (by decide +kernel : ∀ i, i < twoSegments.phEntries →
      0 < (twoSegments.header i).pVaddr) i hi.1
  · exact (by decide +kernel : ∀ i, i < twoSegments.phEntries →
      (twoSegments.header i).pFilesz ≤ (twoSegments.header i).pMemsz) i hi.1
  · exact (by decide +kernel : ∀ i, i < twoSegments.phEntries →
      (twoSegments.header i).pOffset + (twoSegments.header i).pFilesz ≤ twoSegments.length) i hi.1
  · exact (by decide +kernel : ∀ i, i < twoSegments.phEntries → ∀ j, j < twoSegments.phEntries →
      i ≠ j →
      (twoSegments.header i).pVaddr + (twoSegments.header i).pMemsz ≤
        (twoSegments.header j).pVaddr ∨
      (twoSegments.header j).pVaddr + (twoSegments.header j).pMemsz ≤
        (twoSegments.header i).pVaddr) i hi.1 j hj.1

theorem load_elf_image_two_segments : ∃ s,
    loadElf .reference .dev twoSegments 0 ⟨emptyTarget, []⟩ = .ok 0x1FF4 s ∧
    twoSegments.IsSegment 0 ∧ twoSegments.IsSegment 1 ∧
    ∀ i, twoSegments.IsSegment i → ∀ k, k < (twoSegments.header i).pMemsz →
      readByte s.memory.mem 0 ((twoSegments.header i).pVaddr + k) =
        some (if k < (twoSegments.header i).pFilesz then
          twoSegments.bytes ((twoSegments.header i).pOffset + k) else 0) := by
  have hvalue : (loadElf .reference .dev twoSegments 0 ⟨emptyTarget, []⟩).value? = some 0x1FF4 := by
    decide +kernel
  obtain ⟨s, hrun⟩ := ok_of_value? hvalue
  exact ⟨s, hrun, by decide +kernel, by decide +kernel,
    (load_elf_image LookupMapper.documented_reference emptyTarget_tree twoSegments_wellPlaced
      (fun _ _ _ _ => rfl) hrun).2⟩

end NwinOs.Tasking
