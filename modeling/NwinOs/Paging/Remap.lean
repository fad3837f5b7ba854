import NwinOs.Paging

/-!
# Changing the mapping of a 4 KiB page

The operations of an offset-mapped page table with arbitrary flags: looking an address up
(`lookup`), changing the flags of a page (`updateFlags`), removing it (`unmap`) and mapping it
(`mapToFlags`).

A 4 KiB page has three parent entries, in the tables `parents`, and a leaf, in the table
`leafTable`.  `walk_of_leafTable` splits a walk at the leaf; a store to the leaf table changes the
leaf only, and `createTables_of_leafTable` says what mapping does to the parents of a page whose
tables all exist.
-/

namespace NwinOs.Paging

open List PageTableEntry

/-- The flags of an entry: the four that decide a walk, and the remaining bits. -/
structure PageTableFlags where
  present : Bool
  writable : Bool
  userAccessible : Bool
  hugePage : Bool
  rest : ℕ
  deriving DecidableEq, Repr

/-- The flags with `WRITABLE`. -/
def PageTableFlags.setWritable (fl : PageTableFlags) :
    PageTableFlags := { fl with writable := true }

namespace PageTableEntry

/-- The flags of an entry. -/
def flags (e : PageTableEntry) : PageTableFlags :=
  ⟨e.present, e.writable, e.userAccessible, e.hugePage, e.rest⟩

/-- The entry with the given frame and flags. -/
def ofFlags (frame : ℕ) (fl : PageTableFlags) : PageTableEntry :=
  ⟨frame, fl.present, fl.writable, fl.userAccessible, fl.hugePage, fl.rest⟩

/-- Adds those of `PRESENT | WRITABLE | USER_ACCESSIBLE` that are among the given flags. -/
def insertFlags (e : PageTableEntry) (fl : PageTableFlags) : PageTableEntry :=
  { e with
    present := e.present || fl.present
    writable := e.writable || fl.writable
    userAccessible := e.userAccessible || fl.userAccessible }

end PageTableEntry

/-! ### The operations -/

/-- What the lookup of an address finds: the 4 KiB frame it lies in and the flags of the entry that
maps it. -/
structure Mapped where
  frame : ℕ
  flags : PageTableFlags
  deriving DecidableEq, Repr

/-- The lookup of an address from a table at level `l + 1` on.  A leaf counts when it is in use. -/
def lookup (mem : Memory) (va : ℕ) : ℕ → ℕ → Option Mapped
  | 0, table =>
    let e := mem table (index va 0)
    if e.isUnused then none else some ⟨e.frame, e.flags⟩
  | l + 1, table =>
    let e := mem table (index va (l + 1))
    if e.present then
      if e.hugePage then some ⟨e.frame + va / 4096 % 512 ^ (l + 1), e.flags⟩
      else lookup mem va l e.frame
    else none

/-- The level-1 table of a 4 KiB page, from a table at level `l + 1` on; `none` if a parent entry is
not present or maps a huge page. -/
def leafTable (mem : Memory) (va : ℕ) : ℕ → ℕ → Option ℕ
  | 0, table => some table
  | l + 1, table =>
    let e := mem table (index va (l + 1))
    if e.present && !e.hugePage then leafTable mem va l e.frame else none

/-- Replaces the flags of a 4 KiB page. -/
def updateFlags (mem : Memory) (pml4 va : ℕ) (fl : PageTableFlags) : Option Memory :=
  (leafTable mem va 3 pml4).bind fun table =>
    let e := mem table (index va 0)
    if e.isUnused then none else some (mem.write table (index va 0) (.ofFlags e.frame fl))

/-- Removes a 4 KiB page.  A leaf is refused if it is not present, and also if its bit 7 is set. -/
def unmap (mem : Memory) (pml4 va : ℕ) : Option Memory :=
  (leafTable mem va 3 pml4).bind fun table =>
    let e := mem table (index va 0)
    if e.present && !e.hugePage then some (mem.write table (index va 0) .unused) else none

section Map

variable {α : Type} (alloc : Memory → α → Memory × α × Option ℕ) (fl : PageTableFlags)

/-- Maps the 4 KiB page of an address to a frame with the given flags, which contain `PRESENT` and
not `HUGE_PAGE`. -/
def mapToFlags (mem : Memory) (a : α) (pml4 va frame : ℕ) : (Memory × α) × Except MapToError Unit :=
  mapTo alloc mem a pml4 va frame (.ofFlags · fl)
    (PageTableEntry.insertFlags ⟨·, false, false, false, false, 0⟩ fl) (.insertFlags · fl)

end Map

/-! ### A walk, split at the leaf -/

/-- The tables that hold the parent entries. -/
def parents (mem : Memory) (va : ℕ) : ℕ → ℕ → List ℕ
  | 0, _ => []
  | l + 1, table => table :: parents mem va l (mem table (index va (l + 1))).frame

/-- The rights that the parent entries leave. -/
def parentRights (mem : Memory) (va : ℕ) : ℕ → ℕ → Rights → Rights
  | 0, _, r => r
  | l + 1, table, r =>
    let e := mem table (index va (l + 1))
    parentRights mem va l e.frame (r.restrict e)

variable {mem mem' : Memory} {va l table t : ℕ} {r : Rights} {e : PageTableEntry}

theorem isHuge_eq_false (h : e.hugePage = false) (l : ℕ) : isHuge e l = false := by
  simp [isHuge, h]

theorem isHuge_zero (e : PageTableEntry) : isHuge e 0 = false := by
  simp [isHuge]

theorem leafTable_succ (h : leafTable mem va (l + 1) table = some t) :
    (mem table (index va (l + 1))).present = true ∧
      (mem table (index va (l + 1))).hugePage = false ∧
      leafTable mem va l (mem table (index va (l + 1))).frame = some t := by
  simp only [leafTable] at h
  split_ifs at h with hgo
  simp only [Bool.and_eq_true, Bool.not_eq_true'] at hgo
  exact ⟨hgo.1, hgo.2, h⟩

/-- **The walk of a 4 KiB page reads its leaf with the rights of the parents.** -/
theorem walk_of_leafTable : ∀ {l table : ℕ} {r : Rights}, leafTable mem va l table = some t →
    walk mem va (l + 1) table r =
      if (mem t (index va 0)).present then
        some ⟨(mem t (index va 0)).frame,
          (parentRights mem va l table r).restrict (mem t (index va 0))⟩
      else none := by
  intro l
  induction l with
  | zero =>
    intro table r h
    cases h
    simp only [walk, isHuge_zero, parentRights, Bool.false_eq_true, if_false]
  | succ l ih =>
    intro table r h
    obtain ⟨hpresent, hhuge, hrest⟩ := leafTable_succ h
    rw [walk, if_pos hpresent, isHuge_eq_false hhuge, if_neg Bool.false_ne_true, ih hrest]
    rfl

theorem tables_of_leafTable : ∀ {l table : ℕ}, leafTable mem va l table = some t →
    tables mem va (l + 1) table = parents mem va l table ++ [t] := by
  intro l
  induction l with
  | zero =>
    intro table h
    cases h
    simp only [tables, parents, ite_self, nil_append]
  | succ l ih =>
    intro table h
    obtain ⟨hpresent, hhuge, hrest⟩ := leafTable_succ h
    rw [tables, hpresent, isHuge_eq_false hhuge, parents, cons_append, ← ih hrest]
    rfl

/-- Only the tables of the parents matter for what lies above the leaf. -/
theorem leafTable_congr : ∀ {l table : ℕ}, (∀ p ∈ parents mem va l table, mem' p = mem p) →
    leafTable mem' va l table = leafTable mem va l table ∧
      parents mem' va l table = parents mem va l table ∧
      ∀ r, parentRights mem' va l table r = parentRights mem va l table r := by
  intro l
  induction l with
  | zero => exact fun _ => ⟨rfl, rfl, fun _ => rfl⟩
  | succ l ih =>
    intro table h
    have htable : mem' table = mem table := h table (mem_cons_self ..)
    obtain ⟨hleaf, hparents, hrights⟩ :=
      @ih (mem table (index va (l + 1))).frame fun p hp => h p (mem_cons_of_mem _ hp)
    refine ⟨?_, ?_, fun r => ?_⟩
    · simp only [leafTable, htable, hleaf]
    · simp only [parents, htable, hparents]
    · simp only [parentRights, htable, hrights]

/-- Of these, only those the walk reads matter for the leaf table. -/
theorem leafTable_of_tables : ∀ {l table : ℕ}, (∀ p ∈ tables mem va (l + 1) table, mem' p = mem p) →
    leafTable mem' va l table = leafTable mem va l table := by
  intro l
  induction l with
  | zero => exact fun _ => rfl
  | succ l ih =>
    intro table h
    have htable : mem' table = mem table := h table (by rw [tables]; exact mem_cons_self ..)
    simp only [leafTable, htable]
    split_ifs with hgo
    · obtain ⟨hpresent, hhuge⟩ := (Bool.and_eq_true _ _ ▸ hgo)
      refine ih fun p hp => h p ?_
      rw [tables, hpresent, isHuge_eq_false (by simpa using hhuge)]
      exact mem_cons_of_mem _ hp
    · rfl

theorem leafTable_write {i : ℕ} (hleaf : leafTable mem va l table = some t)
    (ht : t ∉ parents mem va l table) :
    leafTable (mem.write t i e) va l table = some t ∧
      parents (mem.write t i e) va l table = parents mem va l table ∧
      ∀ r, parentRights (mem.write t i e) va l table r = parentRights mem va l table r := by
  have h : ∀ p ∈ parents mem va l table, mem.write t i e p = mem p :=
    fun p hp => Memory.write_of_ne fun hpt => ht (hpt ▸ hp)
  obtain ⟨hl, hp, hr⟩ := leafTable_congr h
  exact ⟨hl.trans hleaf, hp, hr⟩

theorem isUnused_of_present (h : e.present = true) : e.isUnused = false := by
  cases hu : e.isUnused with
  | false => rfl
  | true =>
    rw [isUnused_iff.mp hu] at h
    cases h

theorem lookup_of_leafTable : ∀ {l table : ℕ}, leafTable mem va l table = some t →
    lookup mem va l table =
      if (mem t (index va 0)).isUnused then none
      else some ⟨(mem t (index va 0)).frame, (mem t (index va 0)).flags⟩ := by
  intro l
  induction l with
  | zero =>
    intro table h
    cases h
    rfl
  | succ l ih =>
    intro table h
    obtain ⟨hpresent, hhuge, hrest⟩ := leafTable_succ h
    rw [lookup, if_pos hpresent, if_neg (by rw [hhuge]; exact Bool.false_ne_true), ih hrest]

/-- **The lookup finds what the walk finds**, a 4 KiB page or a huge one.  The huge-page bit of a
level-4 entry is reserved. -/
theorem lookup_of_walk {tr : Translation} : ∀ {l table : ℕ} {r : Rights}, l ≤ 3 →
    (l = 3 → (mem table (index va 3)).hugePage = false) →
    walk mem va (l + 1) table r = some tr →
      (∃ t, leafTable mem va l table = some t ∧ (mem t (index va 0)).present = true ∧
        tr.frame = (mem t (index va 0)).frame) ∨
      (leafTable mem va l table = none ∧
        ∃ fl, fl.hugePage = true ∧ lookup mem va l table = some ⟨tr.frame, fl⟩) := by
  intro l
  induction l with
  | zero =>
    intro table r _ _ h
    have hleaf : leafTable mem va 0 table = some table := rfl
    rw [walk_of_leafTable hleaf] at h
    split_ifs at h with hpresent
    cases h
    exact .inl ⟨table, rfl, hpresent, rfl⟩
  | succ l ih =>
    intro table r hl htop h
    rw [walk] at h
    split_ifs at h with hpresent hhuge
    · -- a huge page
      cases h
      have hbit := (Bool.and_eq_true _ _ ▸ hhuge).1
      refine .inr ⟨?_, (mem table (index va (l + 1))).flags, hbit, ?_⟩
      · simp only [leafTable, hbit, Bool.not_true, Bool.and_false, Bool.false_eq_true, if_false]
      · simp only [lookup, hpresent, hbit, if_true]
    · -- one level further down: at levels 2 and 3 the bit is clear as the page is not huge
      have hbit : (mem table (index va (l + 1))).hugePage = false := by
        by_cases htop' : l + 1 = 3
        · rw [htop']
          exact htop htop'
        · simp only [isHuge, Bool.and_eq_true, Bool.or_eq_true, beq_iff_eq, not_and] at hhuge
          refine Bool.eq_false_iff.mpr fun hbit => hhuge hbit ?_
          omega
      have hleaf : leafTable mem va (l + 1) table =
          leafTable mem va l (mem table (index va (l + 1))).frame := by
        simp only [leafTable, hpresent, hbit, Bool.not_false, Bool.and_true, if_true]
      have hlookup : lookup mem va (l + 1) table =
          lookup mem va l (mem table (index va (l + 1))).frame := by
        simp only [lookup, hpresent, hbit, Bool.false_eq_true, if_true, if_false]
      rw [hleaf, hlookup]
      exact ih (by omega) (fun h => absurd h (by omega)) h

/-! ### Mapping a page whose tables exist -/

section Map

variable {α : Type} {alloc : Memory → α → Memory × α × Option ℕ} {fl : PageTableFlags} {a : α}

/-- **Mapping needs no new table** when all of them exist: the parent entries get the flags, no
other frame changes and nothing is allocated. -/
theorem createTables_of_leafTable {entry : ℕ → PageTableEntry} : ∀ {l table : ℕ} {mem : Memory},
    leafTable mem va l table = some t → (parents mem va l table).Nodup →
    ∃ mem', createTables alloc va l table mem a entry (.insertFlags · fl) = ((mem', a), .ok t) ∧
      (∀ f, f ∉ parents mem va l table → mem' f = mem f) ∧
      leafTable mem' va l table = some t ∧
      parents mem' va l table = parents mem va l table ∧
      (fl.writable = true → ∀ r, (parentRights mem' va l table r).writable = r.writable) ∧
      (fl.userAccessible = true → ∀ r, (parentRights mem' va l table r).user = r.user) := by
  intro l
  induction l with
  | zero =>
    intro table mem h _
    cases h
    exact ⟨mem, rfl, fun _ _ => rfl, rfl, rfl, fun _ _ => rfl, fun _ _ => rfl⟩
  | succ l ih =>
    intro table mem h hnodup
    obtain ⟨hpresent, hhuge, hrest⟩ := leafTable_succ h
    set e := mem table (index va (l + 1)) with he
    obtain ⟨hfresh, hnodup'⟩ := nodup_cons.mp hnodup
    set mem₁ := mem.write table (index va (l + 1)) (e.insertFlags fl) with hmem₁
    -- the tables further down are other frames
    have hsame : ∀ p ∈ parents mem va l e.frame, mem₁ p = mem p :=
      fun p hp => Memory.write_of_ne (by rintro rfl; exact hfresh hp)
    obtain ⟨hleaf₁, hparents₁, -⟩ := leafTable_congr hsame
    obtain ⟨mem', hrun, hframe, hleaf', hparents', hw, hu⟩ :=
      ih (hleaf₁.trans hrest) (hparents₁ ▸ hnodup')
    rw [hparents₁] at hframe hparents'
    have hentry : mem' table (index va (l + 1)) = e.insertFlags fl := by
      rw [hframe table hfresh, hmem₁, Memory.write_self, if_pos rfl]
    have hunused : e.isUnused = false := isUnused_of_present hpresent
    refine ⟨mem', ?_, fun f hf => ?_, ?_, ?_, fun hfl r => ?_, fun hfl r => ?_⟩
    · rw [createTables, createNextTable]
      simp only [← he, hunused, hhuge, Bool.false_eq_true, if_false]
      exact hrun
    · obtain ⟨hne, hf⟩ := not_or.mp (mem_cons.not.mp hf)
      rw [hframe f hf, hmem₁, Memory.write_of_ne hne]
    · simp only [leafTable, hentry, insertFlags, hpresent, hhuge, Bool.true_or,
        Bool.not_false, Bool.and_true, if_true]
      exact hleaf'
    · simp only [parents, hentry, insertFlags, ← he]
      rw [hparents']
    · simp only [parentRights, hentry]
      rw [show (e.insertFlags fl).frame = e.frame from rfl, hw hfl]
      simp [Rights.restrict, insertFlags, hfl]
    · simp only [parentRights, hentry]
      rw [show (e.insertFlags fl).frame = e.frame from rfl, hu hfl]
      simp [Rights.restrict, insertFlags, hfl]

variable {pml4 : ℕ}

/-- **A page that is removed and mapped again**, with writable flags, is writable at every level; if
the flags have `USER_ACCESSIBLE`, it is so at every level. -/
theorem translate_remap {frame : ℕ} (hleaf : leafTable mem va 3 pml4 = some t)
    (hnodup : (parents mem va 3 pml4 ++ [t]).Nodup)
    (hpresent : (mem t (index va 0)).present = true)
    (hhuge : (mem t (index va 0)).hugePage = false) (hfl : fl.present = true)
    (hw : fl.writable = true) :
    ∃ mem₁ mem₂ tr, unmap mem pml4 va = some mem₁ ∧
      mapToFlags alloc fl mem₁ a pml4 va frame = ((mem₂, a), .ok ()) ∧
      translate mem₂ pml4 va = some tr ∧ tr.rights.writable = true ∧
      (fl.userAccessible = true → tr.rights.user = true) := by
  obtain ⟨hparents, -, hdisjoint⟩ := nodup_append.mp hnodup
  have ht : t ∉ parents mem va 3 pml4 := fun h => hdisjoint t h t (mem_singleton.mpr rfl) rfl
  set mem₁ := mem.write t (index va 0) .unused with hmem₁
  obtain ⟨hleaf₁, hparents₁, -⟩ :=
    @leafTable_write mem va 3 pml4 t .unused (index va 0) hleaf ht
  obtain ⟨mem₂, hrun, hframe, hleaf₂, hparents₂, hwritable, huser⟩ :=
    @createTables_of_leafTable va t α alloc fl a _ 3 pml4 mem₁ hleaf₁ (hparents₁ ▸ hparents)
  rw [hparents₁] at hframe hparents₂
  have hempty : mem₂ t (index va 0) = .unused := by
    rw [hframe t ht, hmem₁, Memory.write_self, if_pos rfl]
  obtain ⟨hleaf₃, -, hrights₃⟩ :=
    @leafTable_write mem₂ va 3 pml4 t (.ofFlags frame fl) (index va 0) hleaf₂ (hparents₂ ▸ ht)
  have hentry : mem₂.write t (index va 0) (.ofFlags frame fl) t (index va 0) =
      .ofFlags frame fl := by
    rw [Memory.write_self, if_pos rfl]
  refine ⟨mem₁, mem₂.write t (index va 0) (.ofFlags frame fl),
    ⟨frame, (parentRights mem₂ va 3 pml4 ⟨true, true⟩).restrict (.ofFlags frame fl)⟩, ?_,
    ?_, ?_, ?_,
    fun hu => ?_⟩
  · simp only [unmap, hleaf, Option.bind_some, hpresent, hhuge, Bool.not_false, Bool.and_true,
      if_true]
    rfl
  · rw [mapToFlags, mapTo, hrun]
    simp only [hempty, isUnused_unused, if_true]
  · rw [translate, walk_of_leafTable hleaf₃, hentry, hrights₃]
    simp only [ofFlags, hfl, if_true]
  · simp [Rights.restrict, hwritable hw, ofFlags, hw]
  · simp [Rights.restrict, huser hu, ofFlags, hu]

end Map

/-! ### A page, named by any of its addresses -/

theorem index_page (va l : ℕ) : index (va / 4096 * 4096) l = index va l := by
  rw [index, index, Nat.mul_div_cancel _ (by decide)]

theorem leafTable_page (mem : Memory) (va : ℕ) : ∀ l table,
    leafTable mem (va / 4096 * 4096) l table = leafTable mem va l table := by
  intro l
  induction l with
  | zero => exact fun _ => rfl
  | succ l ih =>
    intro table
    simp only [leafTable, index_page, ih]

theorem updateFlags_page (mem : Memory) (pml4 va : ℕ) (fl : PageTableFlags) :
    updateFlags mem pml4 (va / 4096 * 4096) fl = updateFlags mem pml4 va fl := by
  rw [updateFlags, updateFlags, leafTable_page, index_page]

theorem unmap_page (mem : Memory) (pml4 va : ℕ) :
    unmap mem pml4 (va / 4096 * 4096) = unmap mem pml4 va := by
  rw [unmap, unmap, leafTable_page, index_page]

theorem createTables_page {α : Type} (alloc : Memory → α → Memory × α × Option ℕ)
    (entry : ℕ → PageTableEntry) (add : PageTableEntry → PageTableEntry) (va : ℕ) :
    ∀ l table mem a, createTables alloc (va / 4096 * 4096) l table mem a entry add =
      createTables alloc va l table mem a entry add := by
  intro l
  induction l with
  | zero => exact fun _ _ _ => rfl
  | succ l ih =>
    intro table mem a
    simp only [createTables, index_page, ih]

theorem mapToFlags_page {α : Type} (alloc : Memory → α → Memory × α × Option ℕ)
    (fl : PageTableFlags) (mem : Memory) (a : α) (pml4 va frame : ℕ) :
    mapToFlags alloc fl mem a pml4 (va / 4096 * 4096) frame =
      mapToFlags alloc fl mem a pml4 va frame := by
  rw [mapToFlags, mapToFlags, mapTo, mapTo, createTables_page, index_page]

/-! ### Changing the flags of a page -/

/-- **A page whose flags are replaced** keeps its frame and the rights of its parents. -/
theorem translate_updateFlags {fl : PageTableFlags}
    (hleaf : leafTable mem va 3 pml4 = some t) (ht : t ∉ parents mem va 3 pml4)
    (hpresent : (mem t (index va 0)).present = true) (hfl : fl.present = true) :
    ∃ mem', updateFlags mem pml4 va fl = some mem' ∧
      translate mem' pml4 va = some ⟨(mem t (index va 0)).frame,
        (parentRights mem va 3 pml4 ⟨true, true⟩).restrict
          (.ofFlags (mem t (index va 0)).frame fl)⟩ := by
  set e := ofFlags (mem t (index va 0)).frame fl with he
  obtain ⟨hleaf', -, hrights⟩ := @leafTable_write mem va 3 pml4 t e (index va 0) hleaf ht
  have hentry : mem.write t (index va 0) e t (index va 0) = e := by
    rw [Memory.write_self, if_pos rfl]
  refine ⟨mem.write t (index va 0) e, ?_, ?_⟩
  · simp only [updateFlags, hleaf, Option.bind_some, isUnused_of_present hpresent,
      Bool.false_eq_true, if_false]
    rfl
  · rw [translate, walk_of_leafTable hleaf', hentry, hrights]
    simp only [he, ofFlags, hfl, if_true]

theorem translate_of_leafTable (hleaf : leafTable mem va 3 pml4 = some t)
    (hpresent : (mem t (index va 0)).present = true) :
    translate mem pml4 va = some ⟨(mem t (index va 0)).frame,
      (parentRights mem va 3 pml4 ⟨true, true⟩).restrict (mem t (index va 0))⟩ := by
  rw [translate, walk_of_leafTable hleaf, if_pos hpresent]

theorem updateFlags_of_huge {fl : PageTableFlags} (h : leafTable mem va 3 pml4 = none) :
    updateFlags mem pml4 va fl = none ∧ unmap mem pml4 va = none := by
  constructor
  · rw [updateFlags, h]
    rfl
  · rw [unmap, h]
    rfl

end NwinOs.Paging
