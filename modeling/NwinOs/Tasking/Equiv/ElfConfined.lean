import NwinOs.Tasking.Equiv.Elf
import NwinOs.Tasking.Equiv.LoadInvariant

/-!
# What an executable can make the ELF loader do

`ElfSlice.Permits` says which of the logged events are in order: a read inside the slice, a program
header that is looked for where it is, a page that is created or written in the user half and
belongs to a segment.  `Confined` is a run in which every event is permitted and nothing panics.

The loader checks almost nothing of this.  `ElfSlice.Loadable` is what an executable must look like
for every run to be confined, whatever the target; `load_elf_confined_iff` says that it is exactly
that.

* One direction follows the loader through an executable that is loadable (`Safe`).
* For the other one, two targets are enough: in `mappedTarget true` every address is mapped, so that
  every byte is copied; in `mappedTarget false` the upper half is not, so that a page there is
  created.  `Forces` reads off their runs what the executable must be like.
-/

namespace NwinOs.Tasking

open Effect Paging Mm BitmapFrameAllocator Profile List PageTableEntry

namespace ElfSlice

/-- The address lies in the user half, in a page of a segment. -/
def UserPage (elf : ElfSlice) (va : ℕ) : Prop :=
  va < 2 ^ 47 ∧ elf.pages elf.phEntries (va / FRAME_SIZE)

/-- The event is in order. -/
def Permits (elf : ElfSlice) : LoadEvent → Prop
  | .read offset size => offset + size ≤ elf.length
  | .locate i offset => offset = elf.phStart i
  | .create va => elf.UserPage va
  | .write va size => ∀ k, k < size → elf.UserPage (va + k)

/-- The program headers lie inside the slice, as far as they are read, and their places can be
computed with 16 bits; the segments lie in the user half; and the bytes that are copied lie inside
the slice and go to pages of segments. -/
structure Loadable (elf : ElfSlice) : Prop where
  located : ∀ i, i < elf.phEntries → i * elf.phEntrySize < 2 ^ 16
  typeInSlice : ∀ i, i < elf.phEntries → elf.phStart i + 4 ≤ elf.length
  fieldsInSlice : ∀ i, i < elf.phEntries → elf.isLoad i → elf.phStart i + 0x30 ≤ elf.length
  userHalf : ∀ i, elf.IsSegment i → (elf.header i).pVaddr + (elf.header i).pMemsz ≤ 2 ^ 47
  file : ∀ i, elf.IsSegment i → (elf.header i).pVaddr ≠ 0 → 0 < (elf.header i).pFilesz →
    (elf.header i).pOffset + (elf.header i).pFilesz ≤ elf.length
  covered : ∀ i, elf.IsSegment i → (elf.header i).pVaddr ≠ 0 → ∀ k, k < (elf.header i).pFilesz →
    elf.UserPage ((elf.header i).pVaddr + k)

end ElfSlice

/-- Everything that was done is in order. -/
def LoadState.Permitted (elf : ElfSlice) (s : LoadState) : Prop := ∀ e, e ∈ s.log → elf.Permits e

variable {m : LookupMapper} {p : Profile} {elf : ElfSlice} {pml4 : ℕ} {s s' : LoadState}
  {α β : Type}

theorem LoadState.Permitted.cons (h : s.Permitted elf) (st : MemoryState) {e : LoadEvent}
    (he : elf.Permits e) : LoadState.Permitted elf ⟨st, e :: s.log⟩ := by
  intro e' he'
  rcases mem_cons.mp he' with rfl | he'
  · exact he
  · exact h e' he'

variable (m)

/-- **Confinement**: the run does not panic, everything it does is in order, and it succeeds only if
the executable can be loaded like that. -/
def Confined (p : Profile) (elf : ElfSlice) (pml4 : ℕ) (st : MemoryState) : Prop :=
  wp (loadElf m p elf pml4) (fun _ s => s.Permitted elf ∧ elf.Loadable) (fun _ s => s.Permitted elf)
    (fun _ => False) ⟨st, []⟩

/-! ### What the two primitive steps log -/

theorem mapUserPage_cases (pml4 va : ℕ) (s : LoadState) :
    (∃ ok st', mapUserPage m pml4 va s = .ok ok ⟨st', s.log⟩) ∨
    ∃ st', mapUserPage m pml4 va s = .ok true ⟨st', .create va :: s.log⟩ := by
  unfold mapUserPage
  cases allocateAndMapUserPage m.toOffsetPageTable s.memory pml4 va with
  | mk st' r =>
    cases r with
    | error e => exact .inl ⟨false, st', rfl⟩
    | ok u =>
      split_ifs
      · exact .inl ⟨true, st', rfl⟩
      · exact .inr ⟨st', rfl⟩

theorem copyChunk_cases (elf : ElfSlice) (pml4 va o fileOffset c : ℕ) (s : LoadState) :
    copyChunk m elf pml4 va o fileOffset c s = .ok false s ∨
    ∃ st', copyChunk m elf pml4 va o fileOffset c s =
      .ok true ⟨st', .write (va + o) c :: .read fileOffset c :: s.log⟩ := by
  unfold copyChunk
  cases translateInPml4 m s.memory pml4 va with
  | none => exact .inl rfl
  | some physAddr => exact .inr ⟨_, rfl⟩

variable {m}

/-! ### A loadable executable -/

/-- The program keeps everything in order and does not panic. -/
abbrev Safe (elf : ElfSlice) (prog : LoadProgram α) (s : LoadState) : Prop :=
  wp prog (fun _ s' => s'.Permitted elf) (fun _ s' => s'.Permitted elf) (fun _ => False) s

variable {prog : LoadProgram α} {f : α → LoadProgram β} {header : ProgramHeader}

/-- A safe program, then one that is safe after it. -/
theorem Safe.bind (h : Safe elf prog s)
    (hf : ∀ a s', s'.Permitted elf → Safe elf (f a) s') : Safe elf (prog >>= f) s := by
  rw [Safe, wp_bind]
  exact wp_mono h hf (fun _ _ he => he) fun _ hfault => hfault

theorem mapSegment_safe : ∀ {count n : ℕ} {s : LoadState},
    (∀ x, n ≤ x → x < n + count → elf.UserPage (x * FRAME_SIZE)) → s.Permitted elf →
    Safe elf (mapSegment m pml4 count (n * FRAME_SIZE)) s := by
  intro count
  induction count with
  | zero => exact fun _ h => h
  | succ count ih =>
    intro n s hpages h
    have hn := hpages n (le_refl n) (by omega)
    rw [Safe, mapSegment, virtAddrNew_user hn.1, wp_bind, wp_ofOption_some, next_page]
    refine Safe.bind ?_ fun mapped s₁ h₁ => ?_
    · rcases mapUserPage_cases m pml4 (n * FRAME_SIZE) s with ⟨ok, st', hrun⟩ | ⟨st', hrun⟩
      · rw [Safe, wp_iff_of_ok hrun]
        exact h
      · rw [Safe, wp_iff_of_ok hrun]
        exact h.cons st' hn
    · exact Safe.bind (ih (fun x h1 h2 => hpages x (by omega) (by omega)) h₁) fun _ _ h₂ => h₂

theorem copySegment_safe : ∀ {fuel remaining fileOffset va : ℕ} {s : LoadState},
    fileOffset + remaining ≤ elf.length → (∀ k, k < remaining → elf.UserPage (va + k)) →
    s.Permitted elf → Safe elf (copySegment m p elf pml4 fuel remaining fileOffset va) s := by
  intro fuel
  induction fuel with
  | zero => exact fun _ _ h => h
  | succ fuel ih =>
    intro remaining fileOffset va s hfile hpages h
    have hlen := elf.length_lt
    rw [Safe, copySegment]
    split_ifs with hpos
    · set c := min remaining (0x1000 - va % 0x1000) with hc
      have hva := (hpages (c - 1) (by omega)).1
      have haddr : virtAddrNew (va / 0x1000 * 0x1000) = some (va / 0x1000 * 0x1000) :=
        virtAddrNew_user (by omega)
      simp only [haddr]
      rw [wp_bind, wp_ofOption_some]
      refine Safe.bind ?_ fun copied s₁ h₁ => ?_
      · rcases copyChunk_cases m elf pml4 (va / 0x1000 * 0x1000) (va % 0x1000) fileOffset c s with
          hrun | ⟨st', hrun⟩
        · rw [Safe, wp_iff_of_ok hrun]
          exact h
        · rw [Safe, wp_iff_of_ok hrun, Nat.div_add_mod' va 0x1000]
          have hread : elf.Permits (.read fileOffset c) := by
            change fileOffset + c ≤ elf.length
            omega
          exact (h.cons st' hread).cons st' fun k hk => hpages k (by omega)
      · rw [Safe, add_eq_some (by omega), wp_bind, wp_ofOption_some,
          add_eq_some (by omega), wp_bind, wp_ofOption_some]
        refine Safe.bind (ih (by omega) (fun k hk => ?_) h₁) fun _ _ h₂ => h₂
        rw [Nat.add_assoc]
        exact hpages (c + k) (by omega)
    · exact h

theorem loadSegment_safe (hmem : 0 < header.pMemsz) (huser : header.pVaddr + header.pMemsz ≤ 2 ^ 47)
    (hpages : ∀ x, header.hasPage x → elf.pages elf.phEntries x)
    (hfile : header.pVaddr ≠ 0 → 0 < header.pFilesz →
      header.pOffset + header.pFilesz ≤ elf.length)
    (hcovered : header.pVaddr ≠ 0 → ∀ k, k < header.pFilesz → elf.UserPage (header.pVaddr + k))
    (h : s.Permitted elf) : Safe elf (loadSegment m p elf pml4 header) s := by
  rw [Safe, loadSegment, if_neg (by omega), add_eq_some (by omega), wp_bind,
    wp_ofOption_some, add_eq_some (by omega), wp_bind, wp_ofOption_some]
  refine Safe.bind ?_ fun mapped s₁ h₁ => ?_
  · refine mapSegment_safe (n := header.pVaddr / FRAME_SIZE) (fun x h1 h2 => ?_) h
    have hpage : header.hasPage x := by
      rw [ProgramHeader.hasPage_iff hmem]
      unfold FRAME_SIZE at *
      omega
    obtain ⟨k, hk, hx⟩ := hpage
    refine ⟨?_, ?_⟩
    · unfold FRAME_SIZE at *
      omega
    · rw [Nat.mul_div_cancel _ (by decide)]
      exact hpages x ⟨k, hk, hx⟩
  · split_ifs with hcopy
    · exact Safe.bind (copySegment_safe (hfile hcopy.2 hcopy.1) (hcovered hcopy.2) h₁)
        fun _ _ h₂ => h₂
    · exact h₁

variable {i : ℕ}

theorem loadHeader_safe (helf : elf.Loadable) (hi : i < elf.phEntries) (h : s.Permitted elf) :
    Safe elf (loadHeader m p elf pml4 elf.phOffset elf.phEntrySize i) s := by
  have htype := helf.typeInSlice i hi
  have hlen := elf.length_lt
  have hlog : LoadState.Permitted elf ⟨s.memory, elf.headerLog i ++ s.log⟩ := by
    intro e he
    rcases mem_append.mp he with he | he
    · unfold ElfSlice.headerLog at he
      split_ifs at he with hload
      · have hfields := helf.fieldsInSlice i hi hload
        simp only [mem_cons, not_mem_nil, or_false] at he
        rcases he with rfl | rfl | rfl | rfl | rfl | rfl <;> simp only [ElfSlice.Permits] <;> omega
      · simp only [mem_cons, not_mem_nil, or_false] at he
        rcases he with rfl | rfl
        · exact helf.typeInSlice i hi
        · exact rfl
    · exact h e he
  have hsegment : elf.IsSegment i ∨ ¬ elf.IsSegment i := em _
  rw [Safe, wp_loadHeader (helf.located i hi) (by omega)]
  rcases hsegment with hseg | hseg
  · have hmem := hseg.2.2
    have huser := helf.userHalf i hseg
    have hfile := helf.file i hseg
    have hcovered := helf.covered i hseg
    have hpages : ∀ x, (elf.header i).hasPage x → elf.pages elf.phEntries x :=
      fun x hx => ⟨i, hi, hseg, hx⟩
    rw [if_pos hseg.2.1]
    generalize elf.header i = header at hmem huser hfile hcovered hpages ⊢
    exact loadSegment_safe hmem huser hpages hfile hcovered hlog
  · rw [loadSegment_of_not_isSegment hi hseg]
    exact hlog

theorem loadHeaders_safe (helf : elf.Loadable) : ∀ {n i : ℕ} {s : LoadState},
    i + n = elf.phEntries → s.Permitted elf →
    Safe elf (loadHeaders m p elf pml4 elf.phOffset elf.phEntrySize n i) s := by
  intro n
  induction n with
  | zero => exact fun _ h => h
  | succ n ih =>
    intro i s hi h
    refine Safe.bind (loadHeader_safe helf (by omega) h) fun loaded s₁ h₁ => ?_
    exact Safe.bind (ih (by omega) h₁) fun _ _ h₂ => h₂

/-- **A loadable executable is confined**, in any target and in both build profiles. -/
theorem confined_of_loadable (helf : elf.Accepted → elf.Loadable) (st : MemoryState) :
    Confined m p elf pml4 st := by
  by_cases haccepted : elf.Accepted
  · have hloadable := helf haccepted
    have hlength := haccepted.1
    rw [Confined, wp_loadElf haccepted]
    have hstart : LoadState.Permitted elf
        ⟨st, [.read 0x36 2, .read 0x38 2, .read 0x20 8, .read 0x18 8]⟩ := by
      intro e he
      simp only [mem_cons, not_mem_nil, or_false] at he
      rcases he with rfl | rfl | rfl | rfl <;> (simp only [ElfSlice.Permits]; omega)
    refine wp_mono (loadHeaders_safe hloadable (Nat.zero_add _) hstart) (fun ok s' h => ?_)
      (fun _ _ he => he) fun _ hf => hf
    cases ok with
    | false => exact h
    | true => exact ⟨h, hloadable⟩
  · -- a header check fails before anything is read
    have hnone : ∀ e, e ∈ ([] : List LoadEvent) → elf.Permits e := fun e he => (nomatch he)
    unfold Confined loadElf
    split_ifs with h1 h2 h3
    · exact hnone
    · exact hnone
    · exact hnone
    · exact absurd ⟨by omega, not_not.mp h2, not_not.mp h3⟩ haccepted

/-! ### Two targets -/

/-- A PML4 in frame 0 under which every address of the lower half, or every address, is mapped to
frame 4; the tables are in the frames 1 to 3, and eleven frames are free. -/
def mappedTarget (upper : Bool) : MemoryState where
  mem t i :=
    if t = 0 then if i < 256 ∨ upper = true then .user 1 else .unused
    else if t ≤ 3 then .user (t + 1) else .unused
  allocator := (List.range' 5 11).foldl BitmapFrameAllocator.forceFreeBit (.allBusy 16)

/-- The page tables and the allocator are still the target's. -/
def Kept (upper : Bool) (s : LoadState) : Prop :=
  (∀ t, t ≤ 3 → s.memory.mem t = (mappedTarget upper).mem t) ∧
    s.memory.allocator = (mappedTarget upper).allocator

variable {upper : Bool} {va : ℕ}

/-- The address is mapped in the target. -/
def inTarget (upper : Bool) (va : ℕ) : Prop := index va 3 < 256 ∨ upper = true

theorem Kept.withLog (h : Kept upper s) (log : List LoadEvent) : Kept upper ⟨s.memory, log⟩ := h

theorem Kept.leafTable (h : Kept upper s) (hva : inTarget upper va) :
    Paging.leafTable s.memory.mem va 3 0 = some 3 := by
  have h0 : s.memory.mem 0 (index va 3) = .user 1 := by
    rw [h.1 0 (by decide)]
    exact if_pos hva
  have h1 : ∀ i, s.memory.mem 1 i = .user 2 := fun i => congrFun (h.1 1 (by decide)) i
  have h2 : ∀ i, s.memory.mem 2 i = .user 3 := fun i => congrFun (h.1 2 (by decide)) i
  simp only [Paging.leafTable, h0, h1, h2, user, Bool.not_false, Bool.and_true, if_true]

theorem Kept.leaf (h : Kept upper s) (hva : inTarget upper va) :
    Paging.leaf s.memory.mem va 3 0 = .user 4 := by
  rw [leaf_of_leafTable (h.leafTable hva)]
  exact congrFun (h.1 3 (by decide)) _

/-- A page that is mapped already is left alone. -/
theorem Kept.mapUserPage (hm : m.Documented) (h : Kept upper s) (hva : inTarget upper va) :
    Tasking.mapUserPage m 0 va s = .ok true s := by
  have hmapped : m.translatePage s.memory.mem 0 va = true := by
    rw [hm.mapper.translatePage_eq, translatePage_eq_leaf, h.leaf hva,
      isUnused_user, Bool.not_false]
  have hmap : allocateAndMapUserPage m.toOffsetPageTable s.memory 0 va = (s.memory, .ok ()) := by
    rw [allocateAndMapUserPage, if_pos hmapped]
  rw [Tasking.mapUserPage, hmap]
  dsimp only
  rw [if_pos hmapped]

/-- A piece of the file goes to frame 4. -/
theorem Kept.copyChunk (hm : m.Documented) (h : Kept upper s) (hva : inTarget upper va)
    (haligned : va % FRAME_SIZE = 0) {o : ℕ} (ho : o < FRAME_SIZE) (elf : ElfSlice)
    (fileOffset c : ℕ) :
    ∃ s', Tasking.copyChunk m elf 0 va o fileOffset c s = .ok true s' ∧ Kept upper s' ∧
      s'.log = .write (va + o) c :: .read fileOffset c :: s.log := by
  have hphys : m.translateAddr s.memory.mem 0 va = some (4 * FRAME_SIZE) := by
    obtain ⟨r, hr, hframe⟩ := lookup_of_leaf (h.leaf hva)
    rw [hm.translateAddr_eq _ _ _ (leafTable_succ (h.leafTable hva)).2.1, hr, Option.map_some,
      hframe, haligned, Nat.add_zero]
  have hdiv : (4 * FRAME_SIZE + o) / FRAME_SIZE = 4 := by
    unfold FRAME_SIZE at *
    omega
  have hrun : Tasking.copyChunk m elf 0 va o fileOffset c s =
      .ok true ⟨⟨s.memory.mem.store 4 ((4 * FRAME_SIZE + o) % FRAME_SIZE)
        (elf.bytes.slice fileOffset c), s.memory.allocator⟩,
        .write (va + o) c :: .read fileOffset c :: s.log⟩ := by
    rw [Tasking.copyChunk, translateInPml4, hphys]
    simp only [hdiv]
  refine ⟨_, hrun, ⟨fun t ht => ?_, h.2⟩, rfl⟩
  exact (Memory.store_of_ne (by omega)).trans (h.1 t ht)

theorem createNextTable_of_unused {mem : Memory} {a a' : BitmapFrameAllocator} {t f : ℕ}
    (hunused : mem t i = .unused) (halloc : a.allocateFrame = (a', some (f * FRAME_SIZE))) :
    ∃ mem', createNextTable systemAllocateFrame mem a t i = ((mem', a'), .ok f) ∧
      mem' f = fun _ => .unused := by
  have hframe : f * FRAME_SIZE / FRAME_SIZE = f := Nat.mul_div_cancel _ (by decide)
  have hsystem : systemAllocateFrame mem a = (mem.zero f, a', some f) := by
    simp only [systemAllocateFrame, halloc, hframe]
  refine ⟨((mem.zero f).write t i (.user f)).zero f, ?_, Memory.zero_self⟩
  simp only [createNextTable, hunused, isUnused_unused, if_true, hsystem]

/-- A page that is not mapped in the target is created. -/
theorem Kept.create (hm : m.Documented) (h : Kept upper s) (hva : ¬ inTarget upper va) :
    ∃ st', Tasking.mapUserPage m 0 va s = .ok true ⟨st', .create va :: s.log⟩ := by
  obtain rfl : upper = false := by simpa using (not_or.mp hva).2
  have hslot : s.memory.mem 0 (index va 3) = .unused := by
    rw [h.1 0 (by decide)]
    exact if_neg hva
  have hunmapped : m.translatePage s.memory.mem 0 va = false := by
    rw [hm.mapper.translatePage_eq]
    simp only [translatePage, hslot, unused, Bool.false_and]
  -- the page and three tables
  obtain ⟨a₁, a₂, a₃, a₄, h₁, h₂, h₃, h₄⟩ : ∃ a₁ a₂ a₃ a₄,
      s.memory.allocator.allocateFrame = (a₁, some (5 * FRAME_SIZE)) ∧
      a₁.allocateFrame = (a₂, some (6 * FRAME_SIZE)) ∧
      a₂.allocateFrame = (a₃, some (7 * FRAME_SIZE)) ∧
      a₃.allocateFrame = (a₄, some (8 * FRAME_SIZE)) := by
    rw [h.2]
    refine ⟨_, _, _, _, Prod.ext rfl ?_, Prod.ext rfl ?_, Prod.ext rfl ?_, Prod.ext rfl ?_⟩
    · decide +kernel
    · decide +kernel
    · decide +kernel
    · decide +kernel
  obtain ⟨mem₁, hnext₁, hclear₁⟩ := createNextTable_of_unused hslot h₂
  obtain ⟨mem₂, hnext₂, hclear₂⟩ :=
    createNextTable_of_unused (congrFun hclear₁ (index va 2)) h₃
  obtain ⟨mem₃, hnext₃, hclear₃⟩ :=
    createNextTable_of_unused (congrFun hclear₂ (index va 1)) h₄
  have htables : createTables systemAllocateFrame va 3 0 s.memory.mem a₁ = ((mem₃, a₄), .ok 8) := by
    simp only [createTables, hnext₁, hnext₂, hnext₃]
  have hframe : 5 * FRAME_SIZE / FRAME_SIZE = 5 := by decide
  refine ⟨⟨(mem₃.write 8 (index va 0) (.user 5)).zero 5, a₄⟩, ?_⟩
  have hmap : allocateAndMapUserPage m.toOffsetPageTable s.memory 0 va =
      (⟨(mem₃.write 8 (index va 0) (.user 5)).zero 5, a₄⟩, .ok ()) := by
    simp only [allocateAndMapUserPage, hunmapped, Bool.false_eq_true, if_false, h₁, hframe,
      hm.mapper.mapTo_eq, mapTo, htables, hclear₃, isUnused_unused, if_true]
  rw [Tasking.mapUserPage, hmap]
  dsimp only
  rw [if_neg (by rw [hunmapped]; exact Bool.false_ne_true)]

/-! ### What is out of order stays in the log -/

/-- What is out of order before the program is so after it. -/
structure Grows (elf : ElfSlice) (prog : LoadProgram α) : Prop where
  leads : Leads (fun s => ¬ s.Permitted elf) (fun s => ¬ s.Permitted elf) prog fun _ => True

theorem Grows.bind (h : Grows elf prog) (hf : ∀ a, Grows elf (f a)) : Grows elf (prog >>= f) :=
  ⟨(Preserves.bind ⟨h.leads⟩ fun a => ⟨(hf a).leads⟩).leads⟩

theorem grows_pure (a : α) : Grows elf (pure a) := ⟨Preserves.pure.leads⟩

theorem grows_ofOption (o : Option α) : Grows elf (Program.ofOption o) := ⟨Preserves.ofOption.leads⟩

theorem not_permitted_of_subset (h : ¬ s.Permitted elf) (hlog : s.log ⊆ s'.log) :
    ¬ s'.Permitted elf :=
  fun hs' => h fun e he => hs' e (hlog he)

/-- The primitives of the loader only add to the log. -/
theorem loadInvariant_not_permitted : LoadInvariant m elf pml4 fun s => ¬ s.Permitted elf where
  emit event := Preserves.of_ok fun s hs =>
    ⟨(), _, rfl, not_permitted_of_subset hs (subset_cons_self ..)⟩
  mapUserPage pageAddr := Preserves.of_ok fun s hs => by
    rcases mapUserPage_cases m pml4 pageAddr s with ⟨ok, st', hrun⟩ | ⟨st', hrun⟩
    · exact ⟨_, _, hrun, hs⟩
    · exact ⟨_, _, hrun, not_permitted_of_subset hs (subset_cons_self ..)⟩
  copyChunk pageAddr offsetInPage fileOffset bytesToCopy := Preserves.of_ok fun s hs => by
    rcases copyChunk_cases m elf pml4 pageAddr offsetInPage fileOffset bytesToCopy s with
      hrun | ⟨st', hrun⟩
    · exact ⟨_, _, hrun, hs⟩
    · refine ⟨_, _, hrun, not_permitted_of_subset hs fun e he => ?_⟩
      exact mem_cons_of_mem _ (mem_cons_of_mem _ he)

theorem grows_readUnaligned (offset size : ℕ) : Grows elf (readUnaligned elf offset size) :=
  ⟨(@loadInvariant_not_permitted .reference elf 0).readUnaligned.leads⟩

theorem grows_mapSegment {count page : ℕ} : Grows elf (mapSegment m pml4 count page) :=
  ⟨loadInvariant_not_permitted.mapSegment.leads⟩

theorem grows_copySegment {fuel remaining fileOffset : ℕ} :
    Grows elf (copySegment m p elf pml4 fuel remaining fileOffset va) :=
  ⟨loadInvariant_not_permitted.copySegment.leads⟩

theorem grows_loadSegment (header : ProgramHeader) : Grows elf (loadSegment m p elf pml4 header) :=
  ⟨loadInvariant_not_permitted.loadSegment.leads⟩

theorem grows_typed (pType phPtr : ℕ) : Grows elf (if pType = 1 then do
    let header ← readProgramHeader elf phPtr
    loadSegment m p elf pml4 header
    else pure true) :=
  ⟨loadInvariant_not_permitted.typed.leads⟩

theorem grows_loadHeaders {phOffset phEntrySize n : ℕ} :
    Grows elf (loadHeaders m p elf pml4 phOffset phEntrySize n i) :=
  ⟨loadInvariant_not_permitted.loadHeaders.leads⟩

/-! ### What a confined run shows of the executable -/

/-- If everything is in order after the program, then `P` holds. -/
structure Forces (elf : ElfSlice) (prog : LoadProgram α) (P : α → LoadState → Prop)
    (s : LoadState) : Prop where
  run : wp prog (fun a s' => s'.Permitted elf → P a s') (fun _ s' => ¬ s'.Permitted elf)
    (fun _ => True) s

variable {P : α → LoadState → Prop} {R : β → LoadState → Prop}

theorem Forces.bind (h : Forces elf prog P s) (hgrows : ∀ a, Grows elf (f a))
    (hf : ∀ a s', P a s' → Forces elf (f a) R s') : Forces elf (prog >>= f) R s := by
  constructor
  rw [wp_bind]
  refine wp_mono h.run (fun a s' ha => ?_) (fun _ _ he => he) fun _ _ => trivial
  by_cases hs' : s'.Permitted elf
  · exact (hf a s' (ha hs')).run
  · exact wp_mono ((hgrows a).leads s' hs') (fun _ _ hbad hok => absurd hok hbad.1)
      (fun _ _ hbad => hbad) fun _ _ => trivial

theorem forces_pure {a : α} (h : P a s) : Forces elf (pure a) P s :=
  ⟨fun _ => h⟩

theorem forces_of_ok {a : α}
    (hrun : prog s = .ok a s') (h : s'.Permitted elf → P a s') : Forces elf prog P s :=
  ⟨(wp_iff_of_ok hrun).mpr h⟩

/-- A computation that may panic, in front of a program. -/
theorem Forces.ofOption_bind {o : Option α}
    (h : ∀ a, o = some a → Forces elf (f a) R s) : Forces elf (Program.ofOption o >>= f) R s := by
  constructor
  cases o with
  | none => trivial
  | some a => exact (h a rfl).run

theorem Forces.emit_bind {event : LoadEvent} {f : Unit → LoadProgram β}
    (h : Forces elf (f ()) R ⟨s.memory, event :: s.log⟩) : Forces elf (emit event >>= f) R s :=
  ⟨h.run⟩

theorem Forces.readUnaligned_bind {offset size : ℕ} {f : ℕ → LoadProgram β}
    (hgrows : ∀ a, Grows elf (f a))
    (h : offset + size ≤ elf.length → Forces elf (f (elf.bytes.get offset size)) R
      ⟨s.memory, .read offset size :: s.log⟩) :
    Forces elf (readUnaligned elf offset size >>= f) R s := by
  refine Forces.bind (P := fun a s' => Forces elf (f a) R s') ?_ hgrows fun _ _ ha => ha
  exact forces_of_ok rfl fun hs' => h (hs' _ mem_cons_self)

theorem Forces.mono {R : α → LoadState → Prop} (h : Forces elf prog P s)
    (hPR : ∀ a s', P a s' → R a s') : Forces elf prog R s :=
  ⟨wp_mono h.run (fun a s' ha hs' => hPR a s' (ha hs')) (fun _ _ he => he) fun _ hf => hf⟩

theorem Forces.of_safe (h : Forces elf prog P s) (hs : Safe elf prog s) : ∃ a s', P a s' := by
  have hrun := h.run
  unfold Safe wp at hs
  unfold wp at hrun
  cases hprog : prog s with
  | ok a s' =>
    rw [hprog] at hs hrun
    exact ⟨a, s', hrun hs⟩
  | err e s' =>
    rw [hprog] at hs hrun
    exact absurd hs hrun
  | fault s' =>
    rw [hprog] at hs
    exact hs.elim

theorem forces_readProgramHeader (h : Kept upper s) :
    Forces elf (readProgramHeader elf (elf.phStart i)) (fun header s' => header = elf.header i ∧
      elf.phStart i + 0x30 ≤ elf.length ∧ Kept upper s') s := by
  refine Forces.readUnaligned_bind (fun _ => (grows_readUnaligned _ _).bind fun _ =>
    (grows_readUnaligned _ _).bind fun _ => (grows_readUnaligned _ _).bind fun _ => grows_pure _)
    fun _ => ?_
  refine Forces.readUnaligned_bind (fun _ => (grows_readUnaligned _ _).bind fun _ =>
    (grows_readUnaligned _ _).bind fun _ => grows_pure _) fun _ => ?_
  refine Forces.readUnaligned_bind (fun _ => (grows_readUnaligned _ _).bind fun _ => grows_pure _)
    fun _ => ?_
  exact Forces.readUnaligned_bind (fun _ => grows_pure _) fun hfields =>
    forces_pure ⟨rfl, hfields, h⟩

theorem virtAddrNew_cases {addr : ℕ} (h : virtAddrNew addr = some va) :
    va % FRAME_SIZE = addr % FRAME_SIZE ∧
      ((addr < 2 ^ 47 ∧ va = addr ∧ index va 3 < 256) ∨
        (2 ^ 47 ≤ addr ∧ 2 ^ 47 ≤ va ∧ 256 ≤ index va 3)) := by
  unfold virtAddrNew at h
  unfold FRAME_SIZE index
  split_ifs at h with h1 h2
  · cases h
    omega
  · cases h
    omega

theorem mapSegment_forces (hm : m.Documented) : ∀ {count n : ℕ} {s : LoadState},
    Kept upper s →
    Forces elf (mapSegment m 0 count (n * FRAME_SIZE)) (fun _ s' => Kept upper s' ∧
      (upper = false → ∀ x, n ≤ x → x < n + count → x < 2 ^ 35)) s := by
  intro count
  induction count with
  | zero => exact fun h => forces_pure ⟨h, fun _ x h1 h2 => absurd h2 (by omega)⟩
  | succ count ih =>
    intro n s h
    rw [mapSegment, next_page]
    refine Forces.ofOption_bind fun va hva => ?_
    refine Forces.bind (P := fun _ s' => Kept upper s' ∧ (upper = false → n < 2 ^ 35)) ?_
      (fun _ => grows_mapSegment.bind fun _ => grows_pure _) fun mapped s₁ h₁ => ?_
    · obtain ⟨-, hcases⟩ := virtAddrNew_cases hva
      by_cases hin : inTarget upper va
      · refine forces_of_ok (h.mapUserPage hm hin) fun _ => ⟨h, fun hupper => ?_⟩
        rcases hcases with ⟨huser, -⟩ | ⟨-, -, hindex⟩
        · unfold FRAME_SIZE at huser
          omega
        · rcases hin with hin | hin
          · omega
          · rw [hupper] at hin
            cases hin
      · -- the page is created, and not in the user half
        obtain ⟨st', hrun⟩ := h.create hm hin
        refine forces_of_ok hrun fun hs' => ?_
        have hpage : elf.UserPage va := hs' _ mem_cons_self
        rcases hcases with ⟨-, -, hindex⟩ | ⟨-, hupper, -⟩
        · exact absurd (.inl hindex) hin
        · exact absurd hpage.1 (by omega)
    · refine Forces.bind (ih h₁.1) (fun _ => grows_pure _) fun rest s₂ h₂ =>
        forces_pure ⟨h₂.1, fun hupper x h1 h2 => ?_⟩
      by_cases hx : x = n
      · exact hx ▸ h₁.2 hupper
      · exact h₂.2 hupper x (by omega) (by omega)

theorem copySegment_forces (hm : m.Documented) :
    ∀ {fuel remaining fileOffset va : ℕ} {s : LoadState}, remaining ≤ fuel → Kept upper s →
    (upper = false → ∀ k, k < remaining → va + k < 2 ^ 47) →
    Forces elf (copySegment m .dev elf 0 fuel remaining fileOffset va) (fun _ s' => Kept upper s' ∧
      (0 < remaining → fileOffset + remaining ≤ elf.length) ∧
      ∀ k, k < remaining → elf.UserPage (va + k)) s := by
  intro fuel
  induction fuel with
  | zero =>
    intro remaining fileOffset va s hfuel h _
    exact forces_pure ⟨h, fun hpos => absurd hpos (by omega), fun k hk => absurd hk (by omega)⟩
  | succ fuel ih =>
    intro remaining fileOffset va s hfuel h hlow
    rw [copySegment]
    by_cases hpos : 0 < remaining
    · rw [if_pos hpos]
      set c := min remaining (0x1000 - va % 0x1000) with hc
      have hc_pos : 0 < c := by omega
      refine Forces.ofOption_bind fun pageAddr haddr => ?_
      obtain ⟨haligned, hcases⟩ := virtAddrNew_cases haddr
      have haligned' : pageAddr % FRAME_SIZE = 0 := by
        rw [haligned]
        exact Nat.mul_mod_left ..
      have hin : inTarget upper pageAddr := by
        rcases hcases with ⟨-, -, hindex⟩ | ⟨hge, -, -⟩
        · exact .inl hindex
        · cases hupper : upper with
          | true => exact .inr rfl
          | false =>
            have := hlow hupper 0 hpos
            omega
      refine Forces.bind (P := fun _ s' => Kept upper s' ∧ fileOffset + c ≤ elf.length ∧
          ∀ k, k < c → elf.UserPage (va + k)) ?_
        (fun _ => (grows_ofOption _).bind fun _ => (grows_ofOption _).bind fun _ =>
          grows_copySegment.bind fun _ => grows_pure _) fun copied s₁ h₁ => ?_
      · obtain ⟨s₁, hrun, hkept, hlog⟩ :=
          h.copyChunk (o := va % 0x1000) hm hin haligned' (Nat.mod_lt va (by decide)) elf
            fileOffset c
        refine forces_of_ok hrun fun hs₁ => ?_
        have hread : elf.Permits (.read fileOffset c) := hs₁ _ (by simp [hlog])
        have hwrite : elf.Permits (.write (pageAddr + va % 0x1000) c) := hs₁ _ (by simp [hlog])
        -- what is written is in the user half, so it is where it should be
        have hva : pageAddr + va % 0x1000 = va := by
          have hlt := (hwrite 0 hc_pos).1
          rcases hcases with ⟨-, hsame, -⟩ | ⟨-, hge, -⟩
          · rw [hsame]
            exact Nat.div_add_mod' va 0x1000
          · omega
        exact ⟨hkept, hread, fun k hk => hva ▸ hwrite k hk⟩
      · refine Forces.ofOption_bind fun va' hva' => Forces.ofOption_bind fun offset' hoffset' => ?_
        obtain rfl := eq_add_of_dev hva'
        obtain rfl := eq_add_of_dev hoffset'
        refine Forces.bind (ih (by omega) h₁.1 fun hupper k hk => ?_) (fun _ => grows_pure _)
          fun rest s₂ h₂ => forces_pure ⟨h₂.1, fun _ => ?_, fun k hk => ?_⟩
        · have := hlow hupper (c + k) (by omega)
          omega
        · by_cases hrest : 0 < remaining - c
          · omega
          · omega
        · by_cases hk' : k < c
          · exact h₁.2.2 k hk'
          · have hpage := h₂.2.2 (k - c) (by omega)
            rwa [Nat.add_assoc, Nat.add_sub_cancel' (by omega)] at hpage
    · rw [if_neg hpos]
      exact forces_pure ⟨h, fun h0 => absurd h0 hpos, fun k hk => absurd hk (by omega)⟩

theorem loadSegment_forces (hm : m.Documented) (hmem : 0 < header.pMemsz)
    (h : Kept upper s) (hlow : upper = false → header.pVaddr ≠ 0 →
      ∀ k, k < header.pFilesz → header.pVaddr + k < 2 ^ 47) :
    Forces elf (loadSegment m .dev elf 0 header) (fun _ s' => Kept upper s' ∧
      (upper = false → header.pVaddr + header.pMemsz ≤ 2 ^ 47) ∧
      (header.pVaddr ≠ 0 → (0 < header.pFilesz → header.pOffset + header.pFilesz ≤ elf.length) ∧
        ∀ k, k < header.pFilesz → elf.UserPage (header.pVaddr + k))) s := by
  have hgrows : ∀ mapped, Grows elf (if 0 < header.pFilesz ∧ header.pVaddr ≠ 0 then do
      let copied ←
        copySegment m .dev elf 0 header.pFilesz header.pFilesz header.pOffset header.pVaddr
      pure (mapped && copied)
    else pure mapped) := by
    intro mapped
    split_ifs
    · exact Grows.bind grows_copySegment fun copied => grows_pure _
    · exact grows_pure _
  rw [loadSegment, if_neg (by omega)]
  refine Forces.ofOption_bind fun segmentEnd hsum => ?_
  obtain rfl := eq_add_of_dev hsum
  refine Forces.ofOption_bind fun segmentEnd hround => ?_
  obtain rfl := eq_add_of_dev hround
  refine Forces.bind (mapSegment_forces (n := header.pVaddr / FRAME_SIZE) hm h) hgrows
    fun mapped s₁ h₁ => ?_
  have huser : upper = false → header.pVaddr + header.pMemsz ≤ 2 ^ 47 := by
    intro hupper
    have hlast := h₁.2 hupper ((header.pVaddr + header.pMemsz + 0xFFF) / FRAME_SIZE - 1)
    unfold FRAME_SIZE at hlast
    omega
  by_cases hcopy : 0 < header.pFilesz ∧ header.pVaddr ≠ 0
  · rw [if_pos hcopy]
    refine Forces.bind (copySegment_forces hm (le_refl _) h₁.1 fun hupper => hlow hupper hcopy.2)
      (fun _ => grows_pure _) fun copied s₂ h₂ => forces_pure ⟨h₂.1, huser, fun _ => h₂.2⟩
  · rw [if_neg hcopy]
    refine forces_pure ⟨h₁.1, huser, fun hvaddr => ⟨fun hfile => absurd ⟨hfile, hvaddr⟩ hcopy,
      fun k hk => absurd ⟨Nat.zero_lt_of_lt hk, hvaddr⟩ hcopy⟩⟩

/-- What `Loadable` says of one header, apart from the user half. -/
structure ElfSlice.HeaderOk (elf : ElfSlice) (i : ℕ) : Prop where
  located : i * elf.phEntrySize < 2 ^ 16
  typeInSlice : elf.phStart i + 4 ≤ elf.length
  fieldsInSlice : elf.isLoad i → elf.phStart i + 0x30 ≤ elf.length
  file : elf.IsSegment i → (elf.header i).pVaddr ≠ 0 → 0 < (elf.header i).pFilesz →
    (elf.header i).pOffset + (elf.header i).pFilesz ≤ elf.length
  covered : elf.IsSegment i → (elf.header i).pVaddr ≠ 0 → ∀ k, k < (elf.header i).pFilesz →
    elf.UserPage ((elf.header i).pVaddr + k)

theorem loadHeader_forces (hm : m.Documented) (hi : i < elf.phEntries) (h : Kept upper s)
    (hlow : upper = false → elf.HeaderOk i) :
    Forces elf (loadHeader m .dev elf 0 elf.phOffset elf.phEntrySize i) (fun _ s' =>
      Kept upper s' ∧ elf.HeaderOk i ∧ (upper = false → elf.IsSegment i →
        (elf.header i).pVaddr + (elf.header i).pMemsz ≤ 2 ^ 47)) s := by
  refine Forces.ofOption_bind fun product hproduct => ?_
  obtain ⟨rfl, hlocated⟩ := eq_mul_of_dev hproduct
  refine Forces.ofOption_bind fun phPtr hphPtr => ?_
  obtain rfl : phPtr = elf.phStart i := eq_add_of_dev hphPtr
  refine Forces.emit_bind (Forces.readUnaligned_bind (fun pType => grows_typed pType _)
    fun htype => ?_)
  by_cases hload : elf.isLoad i
  · have hload' : elf.bytes.get (elf.phStart i) 4 = 1 := hload
    rw [if_pos hload']
    refine Forces.bind (forces_readProgramHeader (h.withLog _))
      (fun header => grows_loadSegment header)
      fun header s₁ h₁ => ?_
    obtain ⟨rfl, hfields, hkept⟩ := h₁
    by_cases hmem : 0 < (elf.header i).pMemsz
    · have hseg : elf.IsSegment i := ⟨hi, hload, hmem⟩
      refine (loadSegment_forces hm hmem hkept fun hupper hvaddr k hk =>
        ((hlow hupper).covered hseg hvaddr k hk).1).mono fun _ s₂ h₂ => ?_
      exact ⟨h₂.1, ⟨hlocated, htype, fun _ => hfields, fun _ hvaddr => (h₂.2.2 hvaddr).1,
        fun _ hvaddr => (h₂.2.2 hvaddr).2⟩, fun hupper _ => h₂.2.1 hupper⟩
    · rw [loadSegment, if_pos (by omega)]
      exact forces_pure ⟨hkept, ⟨hlocated, htype, fun _ => hfields,
        fun hseg => absurd hseg.2.2 hmem, fun hseg => absurd hseg.2.2 hmem⟩,
        fun _ hseg => absurd hseg.2.2 hmem⟩
  · have hload' : ¬ elf.bytes.get (elf.phStart i) 4 = 1 := hload
    rw [if_neg hload']
    exact forces_pure ⟨h, ⟨hlocated, htype, fun hl => absurd hl hload,
      fun hseg => absurd hseg.2.1 hload, fun hseg => absurd hseg.2.1 hload⟩,
      fun _ hseg => absurd hseg.2.1 hload⟩

theorem loadHeaders_forces (hm : m.Documented)
    (hlow : upper = false → ∀ i, i < elf.phEntries → elf.HeaderOk i) :
    ∀ {n i : ℕ} {s : LoadState}, i + n = elf.phEntries → Kept upper s →
    Forces elf (loadHeaders m .dev elf 0 elf.phOffset elf.phEntrySize n i) (fun _ _ =>
      ∀ j, i ≤ j → j < elf.phEntries → elf.HeaderOk j ∧ (upper = false → elf.IsSegment j →
        (elf.header j).pVaddr + (elf.header j).pMemsz ≤ 2 ^ 47)) s := by
  intro n
  induction n with
  | zero => exact fun hi _ => forces_pure fun j h1 h2 => absurd h2 (by omega)
  | succ n ih =>
    intro i s hi h
    refine Forces.bind (loadHeader_forces hm (by omega) h fun hupper => hlow hupper i (by omega))
      (fun _ => grows_loadHeaders.bind fun _ => grows_pure _) fun loaded s₁ h₁ => ?_
    refine Forces.bind (ih (by omega) h₁.1) (fun _ => grows_pure _) fun rest s₂ h₂ =>
      forces_pure fun j h1 h2 => ?_
    by_cases hj : j = i
    · subst hj
      exact h₁.2
    · exact h₂ j (by omega) h2

theorem Confined.loadHeaders {st : MemoryState} (haccepted : elf.Accepted)
    (h : Confined m p elf pml4 st) : ∃ log, Safe elf
      (Tasking.loadHeaders m p elf pml4 elf.phOffset elf.phEntrySize elf.phEntries 0)
        ⟨st, log⟩ := by
  rw [Confined, wp_loadElf haccepted] at h
  refine ⟨_, wp_mono h (fun ok s' hok => ?_) (fun _ _ he => he) fun _ hf => hf⟩
  cases ok with
  | true => exact hok.1
  | false => exact hok

theorem headers_of_confined (hm : m.Documented) (haccepted : elf.Accepted) (upper : Bool)
    (hlow : upper = false → ∀ i, i < elf.phEntries → elf.HeaderOk i)
    (hconfined : Confined m .dev elf 0 (mappedTarget upper)) :
    ∀ i, i < elf.phEntries → elf.HeaderOk i ∧ (upper = false → elf.IsSegment i →
      (elf.header i).pVaddr + (elf.header i).pMemsz ≤ 2 ^ 47) := by
  have hkept : Kept upper ⟨mappedTarget upper, []⟩ := ⟨fun _ _ => rfl, rfl⟩
  obtain ⟨log, hsafe⟩ := hconfined.loadHeaders haccepted
  obtain ⟨_, _, hheaders⟩ := (loadHeaders_forces hm hlow (Nat.zero_add _)
    (hkept.withLog log)).of_safe hsafe
  exact fun i hi => hheaders i (Nat.zero_le i) hi

/-- **Loading is confined, whatever the target, exactly for the executables that are loadable.** -/
theorem load_elf_confined_iff (hm : m.Documented) (elf : ElfSlice) :
    (∀ p st pml4, Confined m p elf pml4 st) ↔ (elf.Accepted → elf.Loadable) := by
  constructor
  · intro hconfined haccepted
    have hupper := headers_of_confined hm haccepted true (fun h => by cases h)
      (hconfined .dev (mappedTarget true) 0)
    have hlower := headers_of_confined hm haccepted false (fun _ i hi => (hupper i hi).1)
      (hconfined .dev (mappedTarget false) 0)
    exact {
      located := fun i hi => (hupper i hi).1.located
      typeInSlice := fun i hi => (hupper i hi).1.typeInSlice
      fieldsInSlice := fun i hi => (hupper i hi).1.fieldsInSlice
      userHalf := fun i hseg => (hlower i hseg.1).2 rfl hseg
      file := fun i hseg => (hupper i hseg.1).1.file hseg
      covered := fun i hseg => (hupper i hseg.1).1.covered hseg }
  · exact fun helf p st pml4 => confined_of_loadable helf st

theorem load_elf_confined_two_segments : twoSegments.Accepted ∧
    ∀ p st pml4, Confined .reference p twoSegments pml4 st := by
  refine ⟨by decide +kernel,
    (load_elf_confined_iff LookupMapper.documented_reference twoSegments).mpr fun _ => ?_⟩
  have hfields : ∀ i, i < twoSegments.phEntries → i * twoSegments.phEntrySize < 2 ^ 16 ∧
      twoSegments.phStart i + 0x30 ≤ twoSegments.length := by decide +kernel
  have hplaced : ∀ i, i < twoSegments.phEntries →
      (twoSegments.header i).pVaddr + (twoSegments.header i).pMemsz ≤ 2 ^ 47 ∧
      (twoSegments.header i).pFilesz ≤ (twoSegments.header i).pMemsz ∧
      (twoSegments.header i).pOffset + (twoSegments.header i).pFilesz ≤ twoSegments.length := by
    decide +kernel
  refine ⟨fun i hi => (hfields i hi).1, fun i hi => ?_, fun i hi _ => (hfields i hi).2,
    fun i hseg => (hplaced i hseg.1).1, fun i hseg _ _ => (hplaced i hseg.1).2.2,
    fun i hseg _ k hk => ?_⟩
  · have := (hfields i hi).2
    omega
  · obtain ⟨huser, hsize, _⟩ := hplaced i hseg.1
    exact ⟨by omega, i, hseg.1, hseg, k, by omega, rfl⟩

/-- An executable with three headers of `0x8000` bytes, all inside the slice, and no segment: the
product of index and size does not fit into 16 bits for the last one. -/
def wideHeaders : ElfSlice where
  bytes := Bytes.putAll (fun _ => 0)
    [(0, 4, 0x464C457F), (4, 1, 2), (0x20, 8, 64), (0x36, 2, 0x8000), (0x38, 2, 3)]
  length := 0x20000
  length_lt := by decide

/-- The loader panics in a development build; in a release build it takes header 0 for header 2. -/
theorem load_elf_wide_headers : (∀ i, i < wideHeaders.phEntries →
      wideHeaders.phStart i + wideHeaders.phEntrySize ≤ wideHeaders.length) ∧
    ¬ Confined .reference .dev wideHeaders 0 emptyTarget ∧
    ¬ Confined .reference .release wideHeaders 0 emptyTarget := by
  refine ⟨by decide +kernel, fun h => ?_, fun h => ?_⟩
  · have hpanic : (loadElf .reference .dev wideHeaders 0 ⟨emptyTarget, []⟩).faulted = true := by
      decide +kernel
    rw [not_faulted_of_wp h] at hpanic
    cases hpanic
  · have hlog : .locate 2 64 ∈
        (loadElf .reference .release wideHeaders 0 ⟨emptyTarget, []⟩).state.log := by
      decide +kernel
    have hstart : ¬ wideHeaders.Permits (.locate 2 64) := by
      change ¬ 64 = wideHeaders.phStart 2
      decide +kernel
    have hpermitted : LoadState.Permitted wideHeaders
        (loadElf .reference .release wideHeaders 0 ⟨emptyTarget, []⟩).state :=
      state_of_wp (wp_mono h (fun _ _ hq => hq.1) (fun _ _ he => he) fun _ hf => hf.elim)
    exact hstart (hpermitted _ hlog)

end NwinOs.Tasking
