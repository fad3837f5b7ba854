import Mathlib.Tactic.Linarith
import Mathlib.Logic.Function.Basic

/-!
# Four-level page tables

Physical memory read as page tables, the walk the MMU does, and the two operations of an
offset-mapped page table that kernels use: looking a 4 KiB page up and mapping one.

* `walk` is the translation of an address together with its access rights, `tables` are the frames
  it reads; `walk_congr` says that nothing else matters.
* `walk_rule` is the induction over the levels.
* `mapTo` creates the missing tables with the given frame allocator, reuses the tables that exist,
  adds `PRESENT | WRITABLE | USER_ACCESSIBLE` to their entries and fills the leaf.
* `OffsetPageTable` stands for an implementation; `OffsetPageTable.Documented` says that it behaves
  like the two operations here.
-/

namespace NwinOs.Paging

open Function

/-- A page-table entry: the frame it points to, the four flags that decide a walk, and the
remaining bits. -/
structure PageTableEntry where
  frame : ℕ
  present : Bool
  writable : Bool
  userAccessible : Bool
  hugePage : Bool
  rest : ℕ
  deriving DecidableEq, Repr

namespace PageTableEntry

/-- The all-zero entry. -/
def unused : PageTableEntry := ⟨0, false, false, false, false, 0⟩

def isUnused (e : PageTableEntry) : Bool := e = unused

/-- An entry with the flags `PRESENT | WRITABLE | USER_ACCESSIBLE`. -/
def user (frame : ℕ) : PageTableEntry := ⟨frame, true, true, true, false, 0⟩

/-- Adds `PRESENT | WRITABLE | USER_ACCESSIBLE`. -/
def addUserFlags (e : PageTableEntry) : PageTableEntry :=
  { e with present := true, writable := true, userAccessible := true }

@[simp] theorem isUnused_unused : unused.isUnused = true := rfl

@[simp] theorem isUnused_user (frame : ℕ) : (user frame).isUnused = false := by
  simp [isUnused, user, unused]

theorem user_ne_unused (frame : ℕ) : user frame ≠ unused := by
  simp [user, unused]

@[simp] theorem addUserFlags_user (frame : ℕ) : (user frame).addUserFlags = user frame := rfl

theorem isUnused_iff {e : PageTableEntry} : e.isUnused = true ↔ e = unused :=
  decide_eq_true_iff

end PageTableEntry

/-- The entries that the physical frames hold when they are read as page tables. -/
abbrev Memory := ℕ → ℕ → PageTableEntry

namespace Memory

/-- Stores one entry. -/
def write (mem : Memory) (table index : ℕ) (e : PageTableEntry) : Memory :=
  update mem table (update (mem table) index e)

/-- Clears a frame. -/
def zero (mem : Memory) (frame : ℕ) : Memory :=
  update mem frame fun _ => .unused

variable {mem : Memory} {table frame index i : ℕ} {e : PageTableEntry}

theorem write_of_ne (h : frame ≠ table) : mem.write table index e frame = mem frame :=
  update_of_ne h ..

theorem write_self : mem.write table index e table i = if i = index then e else mem table i := by
  unfold write
  rw [update_self, update_apply]

theorem write_apply : mem.write table index e frame i =
    if frame = table ∧ i = index then e else mem frame i := by
  by_cases htable : frame = table
  · subst htable
    rw [write_self]
    simp only [true_and]
  · rw [write_of_ne htable, if_neg fun hboth => htable hboth.1]

theorem write_of_not (h : ¬ (frame = table ∧ i = index)) :
    mem.write table index e frame i = mem frame i :=
  write_apply.trans (if_neg h)

theorem zero_of_ne (h : frame ≠ table) : mem.zero table frame = mem frame :=
  update_of_ne h ..

theorem zero_self : mem.zero table table = fun _ => .unused :=
  update_self ..

end Memory

/-! ### Walks -/

/-- The index of an address into the table at level `l + 1`. -/
def index (va l : ℕ) : ℕ := va / 4096 / 512 ^ l % 512

theorem index_lt (va l : ℕ) : index va l < 512 := Nat.mod_lt _ (by decide)

/-- Access rights of a walk so far. -/
structure Rights where
  user : Bool
  writable : Bool
  deriving DecidableEq, Repr

/-- The rights after one more entry. -/
def Rights.restrict (r : Rights) (e : PageTableEntry) : Rights :=
  ⟨r.user && e.userAccessible, r.writable && e.writable⟩

/-- What an address is translated to: its physical frame, and the rights. -/
structure Translation where
  frame : ℕ
  rights : Rights
  deriving DecidableEq, Repr

/-- The entry at level `l + 1` maps a 1 GiB or 2 MiB page. -/
def isHuge (e : PageTableEntry) (l : ℕ) : Bool := e.hugePage && (l == 1 || l == 2)

/-- The walk from a table at level `l` on; at level zero the frame is the page. -/
def walk (mem : Memory) (va : ℕ) : ℕ → ℕ → Rights → Option Translation
  | 0, frame, r => some ⟨frame, r⟩
  | l + 1, table, r =>
    let e := mem table (index va l)
    if e.present then
      if isHuge e l then some ⟨e.frame + va / 4096 % 512 ^ l, r.restrict e⟩
      else walk mem va l e.frame (r.restrict e)
    else none

/-- The tables the walk reads. -/
def tables (mem : Memory) (va : ℕ) : ℕ → ℕ → List ℕ
  | 0, _ => []
  | l + 1, table =>
    let e := mem table (index va l)
    table :: if e.present && !isHuge e l then tables mem va l e.frame else []

/-- The translation of an address under a level-4 table. -/
def translate (mem : Memory) (pml4 va : ℕ) : Option Translation :=
  walk mem va 4 pml4 ⟨true, true⟩

/-- **A walk depends only on the tables it reads.** -/
theorem walk_congr {mem mem' : Memory} {va : ℕ} : ∀ {l table : ℕ},
    (∀ t ∈ tables mem va l table, mem' t = mem t) →
      (∀ r, walk mem' va l table r = walk mem va l table r) ∧
        tables mem' va l table = tables mem va l table := by
  intro l
  induction l with
  | zero => exact fun _ => ⟨fun _ => rfl, rfl⟩
  | succ l ih =>
    intro table h
    have htable : mem' table = mem table := h table (by simp [tables])
    -- the entry is the same, and the rest of the walk is the one from its frame
    by_cases hgo : ((mem table (index va l)).present && !isHuge (mem table (index va l)) l) = true
    · have hrest := @ih (mem table (index va l)).frame fun t ht =>
        h t (by simp only [tables, hgo, if_true]; exact List.mem_cons_of_mem _ ht)
      refine ⟨fun r => ?_, ?_⟩
      · simp only [walk, htable, hrest.1]
      · simp only [tables, htable, hrest.2]
    · refine ⟨fun r => ?_, ?_⟩
      · simp only [Bool.and_eq_true, Bool.not_eq_true', not_and, Bool.not_eq_false] at hgo
        simp only [walk, htable]
        split_ifs with hp hh
        · rfl
        · exact absurd (hgo hp) hh
        · rfl
      · simp only [tables, htable, hgo]
        rfl

/-- **Rule for what a walk meets**: if `P l` holds of the first table and is handed down by every
present entry, none of which is huge, it holds of every table read and of the page reached. -/
theorem walk_rule (mem : Memory) (va : ℕ) (P : ℕ → ℕ → Prop)
    (hP : ∀ l t, P (l + 1) t → (mem t (index va l)).present = true →
      isHuge (mem t (index va l)) l = false ∧ P l (mem t (index va l)).frame) :
    ∀ {l table : ℕ}, P l table →
      (∀ t ∈ tables mem va l table, ∃ l', P l' t) ∧
        ∀ r tr, walk mem va l table r = some tr → P 0 tr.frame := by
  intro l
  induction l with
  | zero =>
    intro table h
    refine ⟨fun t ht => ?_, fun r tr htr => ?_⟩
    · simp [tables] at ht
    · simp only [walk, Option.some.injEq] at htr
      exact htr ▸ h
  | succ l ih =>
    intro table h
    cases hp : (mem table (index va l)).present with
    | false =>
      refine ⟨fun t ht => ?_, fun r tr htr => ?_⟩
      · simp only [tables, hp, Bool.false_and, Bool.false_eq_true, if_false,
          List.mem_singleton] at ht
        exact ⟨l + 1, ht ▸ h⟩
      · simp [walk, hp] at htr
    | true =>
      obtain ⟨hhuge, hnext⟩ := hP l table h hp
      obtain ⟨htables, hwalk⟩ := ih hnext
      refine ⟨fun t ht => ?_, fun r tr htr => ?_⟩
      · simp only [tables, hp, hhuge, Bool.not_false, Bool.and_true, if_true, List.mem_cons] at ht
        rcases ht with rfl | ht
        · exact ⟨l + 1, h⟩
        · exact htables t ht
      · simp only [walk, hp, hhuge, if_true, Bool.false_eq_true, if_false] at htr
        exact hwalk _ tr htr

/-! ### Looking up and mapping a page -/

/-- Failures of `mapTo`. -/
inductive MapToError
  | frameAllocationFailed
  | parentEntryHugePage
  | pageAlreadyMapped
  deriving DecidableEq, Repr

/-- Whether the lookup of a 4 KiB page from a table at level `l + 1` on succeeds: every parent
entry is present and not huge, and the leaf is in use. -/
def translatePage (mem : Memory) (va : ℕ) : ℕ → ℕ → Bool
  | 0, table => !(mem table (index va 0)).isUnused
  | l + 1, table =>
    let e := mem table (index va (l + 1))
    e.present && !e.hugePage && translatePage mem va l e.frame

section Map

variable {α : Type} (alloc : Memory → α → Memory × α × Option ℕ)

/-- The table behind an entry: a new one if the entry is unused, otherwise the existing one, whose
entry gets the flags, unless said otherwise `PRESENT | WRITABLE | USER_ACCESSIBLE`. -/
def createNextTable (mem : Memory) (a : α) (table index : ℕ)
    (entry : ℕ → PageTableEntry := .user) (add : PageTableEntry → PageTableEntry := .addUserFlags) :
    (Memory × α) × Except MapToError ℕ :=
  let e := mem table index
  if e.isUnused then
    match alloc mem a with
    | (mem, a, some frame) => (((mem.write table index (entry frame)).zero frame, a), .ok frame)
    | (mem, a, none) => ((mem, a), .error .frameAllocationFailed)
  else
    let mem := mem.write table index (add e)
    if e.hugePage then ((mem, a), .error .parentEntryHugePage) else ((mem, a), .ok e.frame)

/-- The level-1 table for an address, from a table at level `l + 1` on. -/
def createTables (va : ℕ) : ℕ → ℕ → Memory → α → (entry : ℕ → PageTableEntry := .user) →
    (add : PageTableEntry → PageTableEntry := .addUserFlags) → (Memory × α) × Except MapToError ℕ
  | 0, table, mem, a, _, _ => ((mem, a), .ok table)
  | l + 1, table, mem, a, entry, add =>
    match createNextTable alloc mem a table (index va (l + 1)) entry add with
    | ((mem, a), .ok next) => createTables va l next mem a entry add
    | ((mem, a), .error e) => ((mem, a), .error e)

/-- Maps the 4 KiB page of an address to a frame, unless said otherwise with
`PRESENT | WRITABLE | USER_ACCESSIBLE`. -/
def mapTo (mem : Memory) (a : α) (pml4 va frame : ℕ) (leaf entry : ℕ → PageTableEntry := .user)
    (add : PageTableEntry → PageTableEntry := .addUserFlags) :
    (Memory × α) × Except MapToError Unit :=
  match createTables alloc va 3 pml4 mem a entry add with
  | ((mem, a), .ok p1) =>
    if (mem p1 (index va 0)).isUnused then
      ((mem.write p1 (index va 0) (leaf frame), a), .ok ())
    else ((mem, a), .error .pageAlreadyMapped)
  | ((mem, a), .error e) => ((mem, a), .error e)

/-! Mapping changes the allocator's state only through the allocator. -/

variable {alloc} {P : α → Prop}

theorem createNextTable_invariant (halloc : ∀ mem a, P a → P (alloc mem a).2.1) {mem : Memory}
    {a : α} {table index : ℕ} (h : P a) : P (createNextTable alloc mem a table index).1.2 := by
  have hnew := halloc mem a h
  unfold createNextTable
  dsimp only
  split_ifs
  · rcases heq : alloc mem a with ⟨mem', a', _ | frame⟩
    · rw [heq] at hnew
      exact hnew
    · rw [heq] at hnew
      exact hnew
  · exact h
  · exact h

theorem createTables_invariant (halloc : ∀ mem a, P a → P (alloc mem a).2.1) {va l table : ℕ}
    {mem : Memory} {a : α} (h : P a) : P (createTables alloc va l table mem a).1.2 := by
  induction l generalizing table mem a with
  | zero => exact h
  | succ l ih =>
    have hnext := @createNextTable_invariant _ _ _ halloc mem a table (index va (l + 1)) h
    rw [createTables]
    rcases heq : createNextTable alloc mem a table (index va (l + 1)) with ⟨⟨mem', a'⟩, _ | next⟩
    · rw [heq] at hnext
      exact hnext
    · rw [heq] at hnext
      exact ih hnext

/-- **Mapping a page keeps what the allocator keeps.** -/
theorem mapTo_invariant (halloc : ∀ mem a, P a → P (alloc mem a).2.1) {mem : Memory} {a : α}
    {pml4 va frame : ℕ} (h : P a) : P (mapTo alloc mem a pml4 va frame).1.2 := by
  have htables := @createTables_invariant _ _ _ halloc va 3 pml4 mem a h
  rw [mapTo]
  rcases heq : createTables alloc va 3 pml4 mem a with ⟨⟨mem', a'⟩, _ | p1⟩
  · rw [heq] at htables
    exact htables
  · rw [heq] at htables
    dsimp only at htables ⊢
    split_ifs
    · exact htables
    · exact htables

end Map

/-- An implementation of the two operations for a frame allocator with state `α`. -/
structure OffsetPageTable (α : Type) where
  translatePage : Memory → ℕ → ℕ → Bool
  mapTo : (Memory → α → Memory × α × Option ℕ) → Memory → α → ℕ → ℕ → ℕ →
    (Memory × α) × Except MapToError Unit

/-- The implementation does what its documentation says. -/
structure OffsetPageTable.Documented {α : Type} (m : OffsetPageTable α) : Prop where
  translatePage_eq : ∀ mem pml4 va, m.translatePage mem pml4 va = Paging.translatePage mem va 3 pml4
  mapTo_eq : ∀ alloc mem a pml4 va frame,
    m.mapTo alloc mem a pml4 va frame = Paging.mapTo alloc mem a pml4 va frame

/-- The implementation that is the documentation. -/
def OffsetPageTable.reference (α : Type) : OffsetPageTable α where
  translatePage mem pml4 va := Paging.translatePage mem va 3 pml4
  mapTo alloc mem a pml4 va frame := Paging.mapTo alloc mem a pml4 va frame

theorem OffsetPageTable.documented_reference (α : Type) : (reference α).Documented :=
  ⟨fun _ _ _ => rfl, fun _ _ _ _ _ _ => rfl⟩

end NwinOs.Paging
