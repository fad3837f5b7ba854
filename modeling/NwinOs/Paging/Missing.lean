import Mathlib.Data.Finset.Card
import Mathlib.Data.List.Infix
import NwinOs.Paging.Tree

/-!
# The tables that mapping pages creates

Mapping a page creates the tables on its path that are not there yet.  `missingTables` counts them
for one page, and mapping it succeeds iff no huge page is in the way and the allocator has as many
frames (`createTables_budget`, `TreeInUse.mapTo_budget`).

Pages that are mapped one after the other share tables.  A table is named by the path of indices
that leads to it (`tableAt`); `newTables` are the paths for which a list of pages needs a table that
is not there, and mapping a page removes its own paths from them (`TreeInUse.extends_mapTo`).
-/

namespace NwinOs.Paging

open List

/-- How many tables the mapping of an address creates, from a table at level `l + 1` on; `none` if a
huge page is in the way. -/
def missingTables (mem : Memory) (va : ℕ) : ℕ → ℕ → Option ℕ
  | 0, _ => some 0
  | l + 1, table =>
    let e := mem table (index va (l + 1))
    if e.isUnused then some (l + 1)
    else if e.hugePage then none
    else missingTables mem va l e.frame

/-- The table at the end of a path of indices; `none` if an entry on the way is not in use or maps a
huge page. -/
def tableAt (mem : Memory) : ℕ → List ℕ → Option ℕ
  | t, [] => some t
  | t, i :: path =>
    let e := mem t i
    if e.isUnused || e.hugePage then none else tableAt mem e.frame path

/-- An entry on the path of the address maps a huge page. -/
def HugeOnPath (mem : Memory) (va l table : ℕ) : Prop :=
  ∃ path i t, path ++ [i] <+: indices va l ∧ tableAt mem table path = some t ∧
    (mem t i).isUnused = false ∧ (mem t i).hugePage = true

/-- The paths of the tables that the pages need and that are not there. -/
def newTables (mem : Memory) (pml4 : ℕ) (vas : List ℕ) : Finset (List ℕ) :=
  ((vas.flatMap fun q => (indices q 3).inits).filter fun p => (tableAt mem pml4 p).isNone).toFinset

/-- The allocator hands out a frame as long as it has one; `free` counts them. -/
def Budget {α : Type} (alloc : Memory → α → Memory × α × Option ℕ) (free : α → ℕ) : Prop :=
  ∀ mem a, (free a = 0 ∧ (alloc mem a).2.2 = none) ∨
    ∃ f, (alloc mem a).2.2 = some f ∧ free (alloc mem a).2.1 + 1 = free a

/-- The entries of the two memories lead to the same tables. -/
def SameLinks (mem mem' : Memory) : Prop :=
  ∀ t i, (mem' t i).isUnused = (mem t i).isUnused ∧ (mem' t i).hugePage = (mem t i).hugePage ∧
    (mem' t i).frame = (mem t i).frame

section

variable {mem mem' : Memory} {va l table t n i : ℕ} {path p : List ℕ}

theorem sameLinks_addUserFlags (h : (mem table i).isUnused = false) :
    SameLinks mem (mem.write table i (mem table i).addUserFlags) := by
  intro t j
  rw [Memory.write_apply]
  split_ifs with hwritten
  · obtain ⟨rfl, rfl⟩ := hwritten
    exact ⟨h.symm ▸ isUnused_of_present rfl, rfl, rfl⟩
  · exact ⟨rfl, rfl, rfl⟩

theorem SameLinks.missingTables (h : SameLinks mem mem') :
    missingTables mem' va l table = missingTables mem va l table := by
  induction l generalizing table with
  | zero => rfl
  | succ l ih =>
    obtain ⟨hunused, hhuge, hframe⟩ := h table (index va (l + 1))
    rw [Paging.missingTables, Paging.missingTables, hunused, hhuge, hframe, ih]

theorem SameLinks.tableAt (h : SameLinks mem mem') :
    tableAt mem' table p = tableAt mem table p := by
  induction p generalizing table with
  | nil => rfl
  | cons i p ih =>
    obtain ⟨hunused, hhuge, hframe⟩ := h table i
    rw [Paging.tableAt, Paging.tableAt, hunused, hhuge, hframe, ih]

theorem missingTables_of_clear (h : mem table = fun _ => .unused) :
    missingTables mem va l table = some l := by
  cases l with
  | zero => rfl
  | succ l =>
    rw [missingTables, h]
    rfl

/-! ### Paths -/

theorem tableAt_append : tableAt mem table (path ++ p) =
    (tableAt mem table path).bind fun t => tableAt mem t p := by
  induction path generalizing table with
  | nil => rfl
  | cons i path ih =>
    rw [cons_append, tableAt, tableAt]
    split_ifs
    · rfl
    · exact ih

theorem tableAt_of_isPrefix (h : p <+: path) (hpath : (tableAt mem table path).isSome) :
    (tableAt mem table p).isSome := by
  obtain ⟨q, rfl⟩ := h
  rw [tableAt_append] at hpath
  cases hp : tableAt mem table p with
  | none =>
    rw [hp] at hpath
    cases hpath
  | some t => rfl

theorem length_indices (va : ℕ) : ∀ l, (indices va l).length = l
  | 0 => rfl
  | l + 1 => by rw [indices, length_cons, length_indices va l]

theorem missingTables_eq_none_iff :
    missingTables mem va l table = none ↔ HugeOnPath mem va l table := by
  induction l generalizing table with
  | zero =>
    refine ⟨fun h => (nomatch h), ?_⟩
    rintro ⟨path, i, t, hpre, -⟩
    exact absurd hpre.length_le (by simp [indices])
  | succ l ih =>
    rw [missingTables]
    constructor
    · intro h
      split_ifs at h with hunused hhuge
      · exact ⟨[], index va (l + 1), table, ⟨indices va l, rfl⟩, rfl, by simpa using hunused, hhuge⟩
      · obtain ⟨path, i, t, hpre, hat, hentry⟩ := ih.mp h
        refine ⟨index va (l + 1) :: path, i, t, ?_, ?_, hentry⟩
        · exact cons_prefix_cons.mpr ⟨rfl, hpre⟩
        · rw [tableAt, if_neg (by simp [hunused, hhuge])]
          exact hat
    · rintro ⟨path, i, t, hpre, hat, hused, hhuge⟩
      cases path with
      | nil =>
        obtain ⟨rfl, -⟩ := cons_prefix_cons.mp hpre
        obtain rfl := Option.some.inj hat
        rw [if_neg (by simp [hused]), if_pos hhuge]
      | cons j path =>
        obtain ⟨rfl, hbelow⟩ := cons_prefix_cons.mp hpre
        rw [tableAt] at hat
        split_ifs at hat with hstop
        rw [Bool.or_eq_true, not_or] at hstop
        rw [if_neg hstop.1, if_neg hstop.2]
        exact ih.mpr ⟨path, i, t, hbelow, hat, hused, hhuge⟩

theorem length_missing (h : missingTables mem va l table = some n) :
    ((indices va l).inits.filter fun p => (tableAt mem table p).isNone).length = n := by
  induction l generalizing table n with
  | zero =>
    obtain rfl := Option.some.inj h
    rfl
  | succ l ih =>
    have hstep : ∀ p, tableAt mem table (index va (l + 1) :: p) =
        if (mem table (index va (l + 1))).isUnused ||
          (mem table (index va (l + 1))).hugePage then none
        else tableAt mem (mem table (index va (l + 1))).frame p := fun _ => rfl
    rw [missingTables] at h
    rw [indices, inits_cons, filter_cons_of_neg (by simp [tableAt]), filter_map, length_map]
    simp only [Function.comp_def, hstep]
    split_ifs at h with hunused hhuge
    · obtain rfl := Option.some.inj h
      simp [hunused, length_indices]
    · simpa [hunused, hhuge] using ih h

end

/-! ### The frames that mapping takes -/

section Budget

variable {α : Type} {alloc : Memory → α → Memory × α × Option ℕ} {free : α → ℕ}
  {mem : Memory} {a : α}
  {va n : ℕ}

/-- **The tables of a mapping are created iff the allocator has enough frames**, and each of them
takes one. -/
theorem createTables_budget (h : Budget alloc free) :
    ∀ {l table : ℕ} {mem : Memory} {a : α},
      (∀ n, missingTables mem va l table = some n → n ≤ free a →
        ∃ t, (createTables alloc va l table mem a).2 = .ok t ∧
          free (createTables alloc va l table mem a).1.2 + n = free a) ∧
      ((∀ n, missingTables mem va l table = some n → free a < n) →
        ∃ e, (createTables alloc va l table mem a).2 = .error e) := by
  intro l
  induction l with
  | zero =>
    intro table mem a
    refine ⟨fun n hn _ => ?_, fun hfew => absurd (hfew 0 rfl) (Nat.not_lt_zero _)⟩
    obtain rfl := Option.some.inj hn
    exact ⟨table, rfl, rfl⟩
  | succ l ih =>
    intro table mem a
    rw [createTables, createNextTable, missingTables]
    cases hunused : (mem table (index va (l + 1))).isUnused with
    | true =>
      simp only [if_true, Option.some.injEq]
      rcases halloc : alloc mem a with ⟨mem₁, a₁, _ | f⟩
      · -- no frame for the first missing table
        rcases h mem a with ⟨hnone, -⟩ | ⟨f, hsome, -⟩
        · exact ⟨fun n hn hle => by omega, fun _ => ⟨_, rfl⟩⟩
        · rw [halloc] at hsome
          cases hsome
      · rcases h mem a with ⟨-, hnone⟩ | ⟨f', -, hfree⟩
        · rw [halloc] at hnone
          cases hnone
        have hfree : free a₁ + 1 = free a := by rwa [halloc] at hfree
        -- below the new table, which is clear, all others are missing
        have hclear : missingTables ((mem₁.write table (index va (l + 1)) (.user f)).zero f) va l f
            = some l := missingTables_of_clear Memory.zero_self
        obtain ⟨hok, herror⟩ := @ih f ((mem₁.write table (index va (l + 1)) (.user f)).zero f) a₁
        rw [hclear] at hok herror
        constructor
        · rintro n rfl hle
          obtain ⟨t, ht, hrest⟩ := hok l rfl (by omega)
          refine ⟨t, ht, ?_⟩
          show free (createTables alloc va l f _ a₁).1.2 + (l + 1) = free a
          omega
        · intro hfew
          have := hfew (l + 1) rfl
          exact herror fun n hn => by
            obtain rfl := Option.some.inj hn
            omega
    | false =>
      cases hhuge : (mem table (index va (l + 1))).hugePage with
      | true => exact ⟨fun n hn => (by cases hn), fun _ => ⟨_, rfl⟩⟩
      | false =>
        have hsame : missingTables _ va l (mem table (index va (l + 1))).frame =
            missingTables mem va l (mem table (index va (l + 1))).frame :=
          (sameLinks_addUserFlags hunused).missingTables
        rw [← hsame]
        exact ih

end Budget

/-! ### The tables after a mapping -/

/-- The path starts in one of the slots. -/
def InSlots (slots : ℕ → Prop) (path : List ℕ) : Prop := ∀ i ∈ path.head?, slots i

/-- The tables on the paths `new` have been added, and no huge page. -/
structure Extends (slots : ℕ → Prop) (pml4 : ℕ) (mem mem' : Memory) (new : List ℕ → Prop) :
    Prop where
  tables : ∀ p, p.length ≤ 3 → InSlots slots p →
    ((tableAt mem' pml4 p).isSome ↔ (tableAt mem pml4 p).isSome ∨ new p)
  huge : ∀ va, slots (index va 3) → (HugeOnPath mem' va 3 pml4 ↔ HugeOnPath mem va 3 pml4)

section Grow

variable {α : Type} {alloc : Memory → α → Memory × α × Option ℕ} {busy : α → ℕ → Prop}
  {slots : ℕ → Prop} {place : ℕ → Option (List ℕ)} {mem mem' mem'' : Memory} {a a' : α}
  {pml4 va table t i f : ℕ} {path p : List ℕ} {new new' : List ℕ → Prop}

theorem inSlots_of_isPrefix (hva : slots (index va 3)) (h : p <+: indices va 3) :
    InSlots slots p := by
  intro i hi
  obtain ⟨q, hq⟩ := h
  cases p with
  | nil => cases hi
  | cons j p =>
    obtain rfl := Option.some.inj hi
    exact (List.cons.inj hq).1 ▸ hva

theorem InSlots.of_append (h : InSlots slots (path ++ p)) : InSlots slots path := by
  cases path with
  | nil => exact fun i hi => (nomatch hi)
  | cons i path => exact h

theorem TableTree.place_tableAt (h : TableTree slots place mem pml4) :
    ∀ {p path : List ℕ} {table : ℕ}, place table = some path → path.length + p.length ≤ 3 →
      (path = [] → InSlots slots p) → tableAt mem table p = some t →
        place t = some (path ++ p) := by
  intro p
  induction p with
  | nil =>
    intro path table ht _ _ hat
    obtain rfl := Option.some.inj hat
    rw [ht, append_nil]
  | cons i p ih =>
    intro path table ht hlen hslots hat
    rw [length_cons] at hlen
    rw [tableAt] at hat
    split_ifs at hat with hstop
    rw [Bool.or_eq_true, not_or] at hstop
    have hnext := (h.entry table path i ht (by omega) (fun hnil => hslots hnil i rfl)
      (by simpa using hstop.1) (by simpa using hstop.2)).2
    have hplace := ih hnext (by simp; omega) (fun hnil => absurd hnil (by simp)) hat
    rw [hplace, append_assoc, singleton_append]

theorem TableTree.place_tableAt_root (h : TableTree slots place mem pml4) (hlen : p.length ≤ 3)
    (hslots : InSlots slots p) (hat : tableAt mem pml4 p = some t) : place t = some p :=
  h.place_tableAt h.root (by simpa using hlen) (fun _ => hslots) hat

theorem tableAt_snoc : tableAt mem pml4 (p ++ [i]) = (tableAt mem pml4 p).bind fun t =>
    if (mem t i).isUnused || (mem t i).hugePage then none else some (mem t i).frame :=
  tableAt_append

theorem Extends.refl (slots : ℕ → Prop) (pml4 : ℕ) (mem : Memory) :
    Extends slots pml4 mem mem fun _ => False :=
  ⟨fun _ _ _ => by simp, fun _ _ => Iff.rfl⟩

theorem Extends.trans (h : Extends slots pml4 mem mem' new)
    (h' : Extends slots pml4 mem' mem'' new') :
    Extends slots pml4 mem mem'' fun p => new p ∨ new' p where
  tables p hlen hslots := by
    rw [h'.tables p hlen hslots, h.tables p hlen hslots, or_assoc]
  huge va hva := (h'.huge va hva).trans (h.huge va hva)

theorem Extends.congr (h : Extends slots pml4 mem mem' new)
    (hnew : ∀ p, p.length ≤ 3 → InSlots slots p → ((tableAt mem pml4 p).isSome ∨ new p ↔
      (tableAt mem pml4 p).isSome ∨ new' p)) : Extends slots pml4 mem mem' new' where
  tables p hlen hslots := (h.tables p hlen hslots).trans (hnew p hlen hslots)
  huge := h.huge

theorem SameLinks.extends_none (h : SameLinks mem mem') :
    Extends slots pml4 mem mem' fun _ => False where
  tables p _ _ := by rw [h.tableAt, or_false]
  huge va _ := by rw [← missingTables_eq_none_iff, ← missingTables_eq_none_iff, h.missingTables]

theorem hugeOnPath_congr (hva : slots (index va 3)) (h : ∀ p j t, p.length < 3 → InSlots slots p →
      (tableAt mem' pml4 p = some t ∧ (mem' t j).isUnused = false ∧ (mem' t j).hugePage = true ↔
        tableAt mem pml4 p = some t ∧ (mem t j).isUnused = false ∧ (mem t j).hugePage = true)) :
    HugeOnPath mem' va 3 pml4 ↔ HugeOnPath mem va 3 pml4 := by
  refine exists_congr fun p => exists_congr fun j => exists_congr fun t =>
    and_congr_right fun hpre => ?_
  have hlen := hpre.length_le
  rw [length_append, length_singleton, length_indices] at hlen
  have hslots := inSlots_of_isPrefix hva ((prefix_append p [j]).trans hpre)
  exact h p j t (by omega) hslots

theorem TableTree.extends_none (h : TableTree slots place mem pml4)
    (habove : ∀ t path, place t = some path → path.length < 3 → mem' t = mem t) :
    Extends slots pml4 mem mem' fun _ => False := by
  have hat : ∀ p, p.length ≤ 3 → InSlots slots p → tableAt mem' pml4 p = tableAt mem pml4 p := by
    intro p
    induction p using List.reverseRecOn with
    | nil => exact fun _ _ => rfl
    | append_singleton p i ih =>
      intro hlen hslots
      rw [length_append, length_singleton] at hlen
      have hslots' := hslots.of_append
      rw [tableAt_snoc, tableAt_snoc, ih (by omega) hslots']
      cases hp : tableAt mem pml4 p with
      | none => rfl
      | some t =>
        have hplace := h.place_tableAt_root (by omega) hslots' hp
        simp only [Option.bind_some, habove t p hplace (by omega)]
  refine ⟨fun p hlen hslots => by rw [hat p hlen hslots, or_false], fun va hva => ?_⟩
  refine hugeOnPath_congr hva fun p j t hlen hslots => ?_
  rw [hat p hlen.le hslots]
  refine and_congr_right fun hp => ?_
  rw [habove t p (h.place_tableAt_root hlen.le hslots hp) hlen]

/-- The tables after a new one was hung under an entry: it is at its path, and below it there is
nothing. -/
theorem TreeInUse.tableAt_addTable (h : TreeInUse slots busy pml4 place mem a)
    (hat : tableAt mem pml4 path = some table) (hlen : path.length < 3)
    (hslots : InSlots slots (path ++ [i])) (hunused : mem table i = .unused) (hfree : ¬ busy a f) :
    ∀ {p}, p.length ≤ 3 → InSlots slots p →
      tableAt (((mem.zero f).write table i (.user f)).zero f) pml4 p =
        if p = path ++ [i] then some f else tableAt mem pml4 p := by
  have htable := h.tree.place_tableAt_root hlen.le hslots.of_append hat
  have hclear : (((mem.zero f).write table i (.user f)).zero f) f = fun _ => .unused :=
    Memory.zero_self
  intro p
  -- by induction on the path, from its end
  induction p using List.reverseRecOn with
  | nil => exact fun _ _ => (if_neg (by simp)).symm
  | append_singleton p j ih =>
    intro hp hpslots
    rw [length_append, length_singleton] at hp
    rw [tableAt_snoc, ih (by omega) hpslots.of_append]
    by_cases hlast : p = path ++ [i]
    · -- below the new table there is nothing, and there was nothing
      have hne : p ++ [j] ≠ path ++ [i] := by
        intro heq
        have := congrArg List.length heq
        rw [hlast] at this
        simp at this
      have hnone : tableAt mem pml4 (path ++ [i]) = none := by
        rw [tableAt_snoc, hat, Option.bind_some, hunused]
        rfl
      rw [if_pos hlast, if_neg hne, tableAt_snoc, hlast, hnone, Option.bind_some, hclear]
      rfl
    · rw [if_neg hlast, tableAt_snoc]
      cases htp : tableAt mem pml4 p with
      | none =>
        rw [if_neg]
        · rfl
        · intro heq
          rw [(append_inj' heq rfl).1, hat] at htp
          cases htp
      | some t =>
        have ht := h.tree.place_tableAt_root (by omega) hpslots.of_append htp
        rw [Option.bind_some, Option.bind_some, addTable_apply (h.ne_of_free hfree ht)]
        by_cases hsame : t = table ∧ j = i
        · obtain ⟨rfl, rfl⟩ := hsame
          rw [htable] at ht
          obtain rfl := Option.some.inj ht
          simp only [and_self, if_true, PageTableEntry.isUnused_user]
          rfl
        · have hne : p ++ [j] ≠ path ++ [i] := by
            intro heq
            obtain ⟨rfl, hj⟩ := append_inj' heq rfl
            rw [hat] at htp
            exact hsame ⟨(Option.some.inj htp).symm, singleton_inj.mp hj⟩
          simp only [if_neg hsame, if_neg hne]

theorem TreeInUse.extends_addTable (h : TreeInUse slots busy pml4 place mem a)
    (hat : tableAt mem pml4 path = some table) (hlen : path.length < 3)
    (hslots : InSlots slots (path ++ [i])) (hunused : mem table i = .unused) (hfree : ¬ busy a f) :
    Extends slots pml4 mem (((mem.zero f).write table i (.user f)).zero f)
        (fun p => p = path ++ [i]) ∧
      tableAt (((mem.zero f).write table i (.user f)).zero f) pml4 (path ++ [i]) = some f := by
  refine ⟨⟨fun p hp hpslots => ?_, fun va hva => ?_⟩, ?_⟩
  · rw [h.tableAt_addTable hat hlen hslots hunused hfree hp hpslots]
    by_cases hnew : p = path ++ [i]
    · simp [hnew]
    · simp [hnew]
  · refine hugeOnPath_congr hva fun p j t hp hpslots => ?_
    rw [h.tableAt_addTable hat hlen hslots hunused hfree hp.le hpslots]
    by_cases hnew : p = path ++ [i]
    · -- the new table is clear
      rw [if_pos hnew, hnew, tableAt_snoc, hat, Option.bind_some, hunused]
      constructor
      · rintro ⟨hft, hused, -⟩
        obtain rfl := Option.some.inj hft
        rw [Memory.zero_self] at hused
        cases hused
      · rintro ⟨hft, -⟩
        cases hft
    · rw [if_neg hnew]
      refine and_congr_right fun htp => ?_
      have ht := h.tree.place_tableAt_root hp.le hpslots htp
      rw [addTable_apply (h.ne_of_free hfree ht)]
      by_cases hsame : t = table ∧ j = i
      · obtain ⟨rfl, rfl⟩ := hsame
        rw [if_pos ⟨rfl, rfl⟩, hunused]
        simp [PageTableEntry.user]
      · rw [if_neg hsame]
  · have hnext : (path ++ [i]).length ≤ 3 := by
      rw [length_append, length_singleton]
      omega
    rw [h.tableAt_addTable hat hlen hslots hunused hfree hnext hslots, if_pos rfl]

variable (halloc : Allocates alloc busy)
include halloc

theorem TreeInUse.extends_createNextTable
    (h : TreeInUse slots busy pml4 place mem a) (hat : tableAt mem pml4 path = some table)
    (hlen : path.length < 3) (hslots : InSlots slots (path ++ [i])) {next : ℕ}
    (hr : Paging.createNextTable alloc mem a table i = ((mem', a'), .ok next)) :
    Extends slots pml4 mem mem' (fun p => p = path ++ [i]) ∧
      tableAt mem' pml4 (path ++ [i]) = some next := by
  unfold Paging.createNextTable at hr
  cases hused : (mem table i).isUnused with
  | true =>
    have hunused := PageTableEntry.isUnused_iff.mp hused
    simp only [hused, if_true] at hr
    rcases halloc mem a with ⟨a₁, hnone, -⟩ | ⟨f, a₁, hsome, hfree, -⟩
    · rw [hnone] at hr
      cases hr
    · rw [hsome] at hr
      cases hr
      exact h.extends_addTable hat hlen hslots hunused hfree
  | false =>
    simp only [hused, Bool.false_eq_true, if_false] at hr
    cases hhuge : (mem table i).hugePage with
    | true =>
      rw [hhuge] at hr
      cases hr
    | false =>
      rw [hhuge] at hr
      cases hr
      have hsame := sameLinks_addUserFlags hused
      have hnext : tableAt mem pml4 (path ++ [i]) = some (mem table i).frame := by
        rw [tableAt_snoc, hat, Option.bind_some, hused, hhuge]
        rfl
      refine ⟨hsame.extends_none.congr fun p _ _ => ?_, hsame.tableAt.trans hnext⟩
      rw [or_false]
      refine ⟨.inl, ?_⟩
      rintro (hp | rfl)
      · exact hp
      · rw [hnext]
        rfl

theorem TreeInUse.extends_createTables :
    ∀ {l table : ℕ} {path : List ℕ} {place : ℕ → Option (List ℕ)} {mem : Memory} {a : α},
      TreeInUse slots busy pml4 place mem a → tableAt mem pml4 path = some table →
      path.length + l = 3 → InSlots slots (path ++ indices va l) →
      Paging.createTables alloc va l table mem a = ((mem', a'), .ok t) →
      Extends slots pml4 mem mem' fun p => p <+: path ++ indices va l := by
  intro l
  induction l with
  | zero =>
    intro table path place mem a h hat _ _ hr
    cases hr
    refine (Extends.refl slots pml4 _).congr fun p _ _ => ?_
    rw [or_false, indices, append_nil]
    refine ⟨.inl, ?_⟩
    rintro (hp | hp)
    · exact hp
    · exact tableAt_of_isPrefix hp (by rw [hat]; rfl)
  | succ l ih =>
    intro table path place mem a h hat hlen hslots hr
    have hcons : path ++ indices va (l + 1) = (path ++ [index va (l + 1)]) ++ indices va l := by
      rw [indices, append_assoc, singleton_append]
    rw [hcons] at hslots ⊢
    rw [Paging.createTables] at hr
    split at hr
    · rename_i mem₁ a₁ next hnext
      have hplace := h.tree.place_tableAt_root (by omega) hslots.of_append.of_append hat
      have hslot : path = [] → slots (index va (l + 1)) := by
        rintro rfl
        exact hslots _ rfl
      obtain ⟨place₁, hgrown, -⟩ := h.createNextTable halloc hplace (by omega) hslot hnext
      obtain ⟨hextends, hat₁⟩ :=
        h.extends_createNextTable halloc hat (by omega) hslots.of_append hnext
      have hrest := ih hgrown.inUse hat₁ (by rw [length_append, length_singleton]; omega) hslots hr
      refine (hextends.trans hrest).congr fun p _ _ => or_congr_right ?_
      refine ⟨?_, .inr⟩
      rintro (rfl | hp)
      · exact prefix_append _ _
      · exact hp
    · cases hr

/-- **Mapping a page adds the tables on its path**, and no others. -/
theorem TreeInUse.extends_mapTo
    (h : TreeInUse slots busy pml4 place mem a) {frame : ℕ} (hva : slots (index va 3))
    (hr : Paging.mapTo alloc mem a pml4 va frame = ((mem', a'), .ok ())) :
    Extends slots pml4 mem mem' fun p => p <+: indices va 3 := by
  unfold Paging.mapTo at hr
  split at hr
  · rename_i mem₁ a₁ p1 htables
    obtain ⟨place₁, hgrown, hleaf⟩ :=
      h.createTables halloc h.tree.root rfl (fun _ => hva) htables
    have hroot : tableAt mem pml4 [] = some pml4 := rfl
    have hextends : Extends slots pml4 mem mem₁ fun p => p <+: indices va 3 :=
      h.extends_createTables halloc hroot rfl (inSlots_of_isPrefix hva (prefix_refl _)) htables
    split_ifs at hr with hunused
    · cases hr
      -- the leaf is in a table at the end of a path
      have hp1 := hgrown.inUse.tree.place_leafTable hgrown.inUse.tree.root rfl (fun _ => hva)
        (hleaf p1 rfl)
      have hwrite : Extends slots pml4 mem₁ (mem₁.write p1 (index va 0) (.user frame))
          fun _ => False := by
        refine hgrown.inUse.tree.extends_none fun t path ht hlen => Memory.write_of_ne ?_
        rintro rfl
        rw [hp1] at ht
        obtain rfl := Option.some.inj ht
        simp [length_indices] at hlen
      exact (hextends.trans hwrite).congr fun p _ _ => by rw [or_false]
    · cases hr
  · cases hr

/-- **Mapping a page that is not mapped succeeds iff the allocator has enough frames** for the
tables that are missing. -/
theorem TreeInUse.mapTo_budget {free : α → ℕ}
    (hbudget : Budget alloc free) (h : TreeInUse slots busy pml4 place mem a) (frame : ℕ)
    (hva : slots (index va 3)) (hunused : (leaf mem va 3 pml4).isUnused = true) :
    (∀ n, missingTables mem va 3 pml4 = some n → n ≤ free a →
      (Paging.mapTo alloc mem a pml4 va frame).2 = .ok () ∧
        free (Paging.mapTo alloc mem a pml4 va frame).1.2 + n = free a) ∧
    ((∀ n, missingTables mem va 3 pml4 = some n → free a < n) →
      ∃ e, (Paging.mapTo alloc mem a pml4 va frame).2 = .error e) := by
  obtain ⟨hok, herror⟩ := @createTables_budget α alloc free va hbudget 3 pml4 mem a
  unfold Paging.mapTo
  rcases htables : Paging.createTables alloc va 3 pml4 mem a with ⟨⟨mem₁, a₁⟩, e | p1⟩
  · rw [htables] at hok herror
    refine ⟨fun n hn hle => ?_, fun _ => ⟨e, rfl⟩⟩
    obtain ⟨t, ht, -⟩ := hok n hn hle
    cases ht
  · rw [htables] at hok herror
    -- the leaf is still not in use
    obtain ⟨place₁, hgrown, hleaf⟩ := h.createTables halloc h.tree.root rfl (fun _ => hva) htables
    have hsame := hgrown.leaves va hva
    rw [leaf_of_leafTable (hleaf p1 rfl)] at hsame
    rw [← hsame] at hunused
    dsimp only
    rw [if_pos hunused]
    refine ⟨fun n hn hle => ?_, fun hfew => ?_⟩
    · obtain ⟨-, -, hfree⟩ := hok n hn hle
      exact ⟨rfl, hfree⟩
    · obtain ⟨e, he⟩ := herror hfew
      cases he

theorem TreeInUse.mapTo_error
    (h : TreeInUse slots busy pml4 place mem a) {frame : ℕ} (hva : slots (index va 3))
    {e : MapToError} (hr : Paging.mapTo alloc mem a pml4 va frame = ((mem', a'), .error e)) :
    ∃ place', Grown slots busy pml4 place mem a place' mem' a' := by
  unfold Paging.mapTo at hr
  split at hr
  · rename_i mem₁ a₁ p1 htables
    obtain ⟨place₁, hgrown, -⟩ := h.createTables halloc h.tree.root rfl (fun _ => hva) htables
    split_ifs at hr
    · cases hr
    · cases hr
      exact ⟨place₁, hgrown⟩
  · rename_i mem₁ a₁ e' htables
    obtain ⟨place₁, hgrown, -⟩ := h.createTables halloc h.tree.root rfl (fun _ => hva) htables
    cases hr
    exact ⟨place₁, hgrown⟩

omit halloc

end Grow

/-! ### The tables for a list of pages -/

section List

variable {slots : ℕ → Prop} {mem mem' : Memory} {pml4 q n : ℕ} {vas : List ℕ} {p : List ℕ}

theorem mem_newTables : p ∈ newTables mem pml4 vas ↔
    (∃ q ∈ vas, p <+: indices q 3) ∧ tableAt mem pml4 p = none := by
  simp [newTables]

theorem newTables_cons (mem : Memory) (pml4 q : ℕ) (vas : List ℕ) :
    newTables mem pml4 (q :: vas) = newTables mem pml4 [q] ∪ newTables mem pml4 vas := by
  ext p
  simp only [mem_newTables, Finset.mem_union, mem_cons, not_mem_nil, or_false,
    exists_eq_or_imp, exists_eq_left]
  tauto

theorem nodup_inits {α : Type*} (xs : List α) : xs.inits.Nodup := by
  induction xs with
  | nil => simp
  | cons x xs ih =>
    rw [inits_cons, nodup_cons]
    refine ⟨by simp, ih.map (cons_injective)⟩

theorem card_newTables_singleton (h : missingTables mem q 3 pml4 = some n) :
    (newTables mem pml4 [q]).card = n := by
  unfold newTables
  rw [flatMap_singleton, toFinset_card_of_nodup ((nodup_inits _).filter _)]
  exact length_missing h

/-- Mapping a page removes its tables from those that are missing. -/
theorem Extends.newTables (h : Extends slots pml4 mem mem' fun p => p <+: indices q 3)
    (hslots : ∀ q' ∈ vas, slots (index q' 3)) :
    newTables mem' pml4 vas = newTables mem pml4 vas \ newTables mem pml4 [q] := by
  ext p
  simp only [mem_newTables, Finset.mem_sdiff, mem_singleton, exists_eq_left]
  by_cases hpath : ∃ q' ∈ vas, p <+: indices q' 3
  · obtain ⟨q', hq', hpre⟩ := hpath
    have hlen := hpre.length_le
    have htables := h.tables p hlen (inSlots_of_isPrefix (hslots q' hq') hpre)
    rw [Option.isSome_iff_ne_none, Option.isSome_iff_ne_none] at htables
    tauto
  · simp only [hpath, false_and]

/-- **Frames for a list of pages**: those for the tables of the first, and those for the others once
it is mapped. -/
theorem card_newTables_cons (h : Extends slots pml4 mem mem' fun p => p <+: indices q 3)
    (hslots : ∀ q' ∈ vas, slots (index q' 3)) (hn : missingTables mem q 3 pml4 = some n) :
    (newTables mem pml4 (q :: vas)).card = n + (newTables mem' pml4 vas).card := by
  rw [newTables_cons, h.newTables hslots, ← card_newTables_singleton hn,
    ← Finset.card_union_of_disjoint Finset.disjoint_sdiff, Finset.union_sdiff_self_eq_union]

end List

end NwinOs.Paging
