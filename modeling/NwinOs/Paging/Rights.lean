import NwinOs.Paging.Tree

/-!
# The rights that mapping a page gives

A page may be written from user mode if every entry of its walk is present, writable and
user-accessible (`opens`, `walk_opens_iff`).  Mapping a page makes its own walk so, and the parent
entries that it shares with other pages; nothing else changes (`TreeInUse.opens_mapTo`).
-/

namespace NwinOs.Paging

open Memory List

/-- The walk from a table at level `l` on meets only entries that are present, writable and
user-accessible, and no reserved bit: a level-4 entry has no huge-page bit.  Where `counts l` holds,
the entry at level `l + 1` counts as writable and user-accessible. -/
def opens (mem : Memory) (counts : ℕ → Bool) (va : ℕ) : ℕ → ℕ → Bool
  | 0, _ => true
  | l + 1, table =>
    let e := mem table (index va l)
    e.present && (e.userAccessible && e.writable || counts l) && !(e.hugePage && l == 3) &&
      (isHuge e l || opens mem counts va l e.frame)

/-- The two addresses share a parent entry at level `l + 1`. -/
def sharesParent (q va l : ℕ) : Bool := 0 < l ∧ pageNumber q / 512 ^ l = pageNumber va / 512 ^ l

section

variable {mem mem' : Memory} {counts counts' : ℕ → Bool} {q va l table : ℕ}

theorem restrict_eq_full {r : Rights} {e : PageTableEntry} :
    r.restrict e = ⟨true, true⟩ ↔
      r = ⟨true, true⟩ ∧ (e.userAccessible && e.writable) = true := by
  obtain ⟨u, w⟩ := r
  simp only [Rights.restrict, Rights.mk.injEq, Bool.and_eq_true]
  tauto

/-- Below level 4, a walk gives all rights iff all its entries do. -/
theorem walk_opens_iff : ∀ {l table : ℕ} {r : Rights}, l ≤ 3 →
    ((∃ tr, walk mem va l table r = some tr ∧ tr.rights = ⟨true, true⟩) ↔
      r = ⟨true, true⟩ ∧ opens mem (fun _ => false) va l table = true) := by
  intro l
  induction l with
  | zero => simp [walk, opens]
  | succ l ih =>
    intro table r hl
    have hlevel : (l == 3) = false := beq_eq_false_iff_ne.mpr (by omega)
    simp only [walk, opens, Bool.or_false, hlevel, Bool.and_false, Bool.not_false, Bool.and_true]
    generalize mem table (index va l) = e
    by_cases hpresent : e.present = true
    swap
    · simp [hpresent]
    rw [if_pos hpresent, hpresent, Bool.true_and]
    by_cases hhuge : isHuge e l = true
    · rw [if_pos hhuge, hhuge, Bool.true_or, Bool.and_true, ← restrict_eq_full]
      simp
    · rw [if_neg hhuge, ih (by omega), restrict_eq_full, Bool.eq_false_of_not_eq_true hhuge,
        Bool.false_or, Bool.and_eq_true (_ && _), and_assoc]

/-- **An address may be written from user mode iff all entries of its walk say so.** -/
theorem translate_opens_iff {pml4 : ℕ} : (mem pml4 (index va 3)).hugePage = false ∧
        (∃ tr, translate mem pml4 va = some tr ∧ tr.rights = ⟨true, true⟩) ↔
      opens mem (fun _ => false) va 4 pml4 = true := by
  rw [translate, walk, opens]
  generalize mem pml4 (index va 3) = e
  simp only [Bool.or_false, beq_self_eq_true, Bool.and_true]
  cases hhuge : e.hugePage with
  | true => simp
  | false =>
    rw [isHuge_eq_false hhuge]
    cases hpresent : e.present with
    | false => simp
    | true =>
      rw [if_pos rfl, if_neg Bool.false_ne_true, walk_opens_iff (le_refl 3), restrict_eq_full]
      simp only [true_and, Bool.not_false, Bool.and_true, Bool.true_and, Bool.false_or,
        Bool.and_eq_true]

theorem opens_counts_congr (h : ∀ k < l, counts' k = counts k) :
    opens mem counts' va l table = opens mem counts va l table := by
  induction l generalizing table with
  | zero => rfl
  | succ l ih =>
    rw [opens, opens, h l (Nat.lt_succ_self l), ih fun k hk => h k (Nat.lt_succ_of_lt hk)]

theorem opens_congr_entry (hentry : mem' table (index va l) = mem table (index va l))
    (hrest : (mem table (index va l)).present = true → isHuge (mem table (index va l)) l = false →
      ((mem table (index va l)).hugePage = true → l ≠ 3) →
      opens mem' counts va l (mem table (index va l)).frame
        = opens mem counts va l (mem table (index va l)).frame) :
    opens mem' counts va (l + 1) table = opens mem counts va (l + 1) table := by
  rw [opens, opens, hentry]
  generalize mem table (index va l) = e at hrest ⊢
  cases hpresent : e.present with
  | false => simp only [Bool.false_and]
  | true =>
    cases hhuge : isHuge e l with
    | true => simp only [Bool.true_or]
    | false =>
      by_cases hreserved : (e.hugePage && l == 3) = true
      · simp only [hreserved, Bool.not_true, Bool.and_false, Bool.false_and]
      · rw [hrest hpresent hhuge fun hbit hl => hreserved (by simp [hbit, hl])]

theorem opens_congr (h : ∀ t ∈ tables mem va l table, mem' t = mem t) :
    opens mem' counts va l table = opens mem counts va l table := by
  induction l generalizing table with
  | zero => rfl
  | succ l ih =>
    have htable : mem' table = mem table := h table (by simp [tables])
    refine opens_congr_entry (by rw [htable]) fun hpresent hhuge _ => ih fun t ht => h t ?_
    simp only [tables, hpresent, hhuge, Bool.not_false, Bool.and_true, if_true]
    exact mem_cons_of_mem _ ht

theorem opens_step (hpresent : (mem table (index va l)).present = true)
    (hhuge : (mem table (index va l)).hugePage = false)
    (hflags : ((mem table (index va l)).userAccessible && (mem table (index va l)).writable ||
      counts l) = true) :
    opens mem counts va (l + 1) table = opens mem counts va l (mem table (index va l)).frame := by
  rw [opens]
  simp only [hpresent, hhuge, hflags, isHuge_eq_false hhuge, Bool.false_and, Bool.not_false,
    Bool.false_or, Bool.true_and]

theorem opens_of_unused (h : mem table (index va l) = .unused) :
    opens mem counts va (l + 1) table = false := by
  rw [opens, h]
  rfl

end

/-! ### The entries of a walk -/

/-- The entries that a walk reads, down to the leaf or the first one that is not present. -/
def walkEntries (mem : Memory) (va : ℕ) : ℕ → ℕ → List PageTableEntry
  | 0, _ => []
  | l + 1, table =>
    let e := mem table (index va l)
    e :: if e.present && !isHuge e l then walkEntries mem va l e.frame else []

/-- **User code may read an address iff all entries of the walk are present and user-accessible.**
-/
theorem walk_user_iff {mem : Memory} {va : ℕ} : ∀ {l table : ℕ} {r : Rights},
    (∃ tr, walk mem va l table r = some tr ∧ tr.rights.user = true) ↔
      r.user = true ∧
        ∀ e ∈ walkEntries mem va l table, e.present = true ∧ e.userAccessible = true := by
  intro l
  induction l with
  | zero => simp [walk, walkEntries]
  | succ l ih =>
    intro table r
    rw [walk, walkEntries]
    generalize mem table (index va l) = e
    have hrestrict : (r.restrict e).user = (r.user && e.userAccessible) := rfl
    by_cases hpresent : e.present = true
    · by_cases hhuge : isHuge e l = true
      · simp [hpresent, hhuge, hrestrict]
      · rw [if_pos hpresent, if_neg hhuge, ih, hrestrict]
        simp [hpresent, hhuge, and_assoc]
    · simp [hpresent]

/-! ### Page numbers and indices -/

section

variable {q va l : ℕ}

theorem index_eq_pageNumber (va : ℕ) {l : ℕ} (hl : l < 4) :
    index va l = pageNumber va / 512 ^ l % 512 := by
  unfold index pageNumber
  obtain rfl | rfl | rfl | rfl : l = 0 ∨ l = 1 ∨ l = 2 ∨ l = 3 := by omega
  all_goals omega

theorem pageNumber_div_eq_iff (hl : l < 4)
    (h : pageNumber q / 512 ^ (l + 1) = pageNumber va / 512 ^ (l + 1)) :
    pageNumber q / 512 ^ l = pageNumber va / 512 ^ l ↔ index q l = index va l := by
  rw [index_eq_pageNumber q hl, index_eq_pageNumber va hl]
  rw [pow_succ, ← Nat.div_div_eq_div_mul, ← Nat.div_div_eq_div_mul] at h
  omega

/-- Addresses that differ at a level share no parent entry there or below. -/
theorem sharesParent_eq_false {k : ℕ} (hk : k ≤ l)
    (h : pageNumber q / 512 ^ l ≠ pageNumber va / 512 ^ l) : sharesParent q va k = false := by
  refine decide_eq_false fun hshared => h ?_
  obtain ⟨c, rfl⟩ := Nat.exists_eq_add_of_le hk
  rw [pow_add, ← Nat.div_div_eq_div_mul, ← Nat.div_div_eq_div_mul, hshared.2]

theorem opens_of_not_shared {mem : Memory} {counts : ℕ → Bool} {table : ℕ}
    (h : ∀ k < l, sharesParent q va k = false) :
    opens mem (fun k => counts k || sharesParent q va k) va l table = opens mem counts va l table :=
  opens_counts_congr fun k hk => by rw [h k hk, Bool.or_false]

end

/-! ### What mapping a page changes -/

section Grow

variable {α : Type} {alloc : Memory → α → Memory × α × Option ℕ} {busy : α → ℕ → Prop}
  {slots : ℕ → Prop} {place : ℕ → Option (List ℕ)} {mem mem' : Memory} {a a' : α}
  {pml4 q va l table : ℕ} {path : List ℕ} {counts : ℕ → Bool}

section

variable (h : TableTree slots place mem pml4)
include h

theorem TableTree.place_tables :
    ∀ {l table : ℕ} {path : List ℕ}, place table = some path → path.length + l = 3 → path ≠ [] →
      ∀ t ∈ tables mem va (l + 1) table, ∃ path', place t = some path' ∧ path <+: path' := by
  intro l
  induction l with
  | zero =>
    intro table path ht _ _ t hmem
    have htable : t = table := by simpa [tables] using hmem
    exact ⟨path, htable ▸ ht, prefix_refl path⟩
  | succ l ih =>
    intro table path ht hlen hne t hmem
    rcases mem_cons.mp hmem with rfl | hrest
    · exact ⟨path, ht, prefix_refl path⟩
    · split_ifs at hrest with hgo
      swap
      · cases hrest
      obtain ⟨hpresent, hnot⟩ := Bool.and_eq_true _ _ ▸ hgo
      -- between level 4 and the leaves the bit means a huge page
      have hlevel : l + 1 = 1 ∨ l + 1 = 2 := by
        have := length_pos_iff.mpr hne
        omega
      have hhuge : (mem table (index va (l + 1))).hugePage = false := by
        rcases hlevel with hl | hl <;> simpa [isHuge, hl] using hnot
      obtain ⟨-, path', rfl, hnext, hlen', -⟩ :=
        h.down ht hlen (fun hnil => absurd hnil hne) (isUnused_of_present hpresent) hhuge
      obtain ⟨path'', hplace, hpre⟩ := ih hnext hlen' (by simp) t hrest
      exact ⟨path'', hplace, (prefix_append path _).trans hpre⟩

theorem TableTree.opens_congr (ht : place table = some path)
    (hlen : path.length + l = 3) (hne : path ≠ [])
    (hbelow : ∀ t path', place t = some path' → path <+: path' → mem' t = mem t) :
    opens mem' counts va (l + 1) table = opens mem counts va (l + 1) table := by
  refine Paging.opens_congr fun t hmem => ?_
  obtain ⟨path', hplace, hpre⟩ := h.place_tables ht hlen hne t hmem
  exact hbelow t path' hplace hpre

theorem TableTree.opens_congr_entry
    (ht : place table = some path) (hlen : path.length + (l + 1) = 3) (hva : slots (index va 3))
    (hentry : mem' table (index va (l + 1)) = mem table (index va (l + 1)))
    (hbelow : ∀ t path', place t = some path' → path ++ [index va (l + 1)] <+: path' →
      mem' t = mem t) :
    opens mem' counts va (l + 1 + 1) table = opens mem counts va (l + 1 + 1) table := by
  refine Paging.opens_congr_entry hentry fun hpresent hnot hreserved => ?_
  have hhuge : (mem table (index va (l + 1))).hugePage = false := by
    by_contra hbit
    have hlevel : l + 1 = 1 ∨ l + 1 = 2 := by
      have := hreserved (by simpa using hbit)
      omega
    rcases hlevel with hl | hl <;> exact hbit (by simpa [isHuge, hl] using hnot)
  obtain ⟨-, path', rfl, hnext, hlen', -⟩ :=
    h.down ht hlen (fun _ => hva) (isUnused_of_present hpresent) hhuge
  exact h.opens_congr hnext hlen' (by simp) hbelow

end

/-- One level of mapping changes the one entry of the tables in use: it gets the flags, or leads to
a new table. -/
theorem createNextTable_ok (halloc : Allocates alloc busy) {i next : ℕ} (hbusy : busy a table)
    (hr : createNextTable alloc mem a table i = ((mem', a'), .ok next)) :
    (∀ t j, busy a t → ¬ (t = table ∧ j = i) → mem' t j = mem t j) ∧
      (mem table i = .unused ∧ mem' table i = .user next ∧ mem' next = (fun _ => .unused) ∨
        (mem table i).isUnused = false ∧ (mem table i).hugePage = false ∧
          (mem table i).frame = next ∧ mem' table i = (mem table i).addUserFlags) := by
  unfold createNextTable at hr
  cases hused : (mem table i).isUnused with
  | true =>
    simp only [hused, if_true] at hr
    rcases halloc mem a with ⟨a₁, hnone, -⟩ | ⟨f, a₁, hsome, hfree, -, -⟩
    · rw [hnone] at hr
      cases hr
    · rw [hsome] at hr
      cases hr
      have hne : ∀ t, busy a t → t ≠ next := by
        rintro t ht rfl
        exact hfree ht
      refine ⟨fun t j ht hnot => ?_, .inl ⟨PageTableEntry.isUnused_iff.mp hused, ?_, ?_⟩⟩
      · rw [zero_of_ne (hne t ht), write_of_not hnot, zero_of_ne (hne t ht)]
      · rw [zero_of_ne (hne table hbusy), write_self, if_pos rfl]
      · exact zero_self
  | false =>
    simp only [hused, Bool.false_eq_true, if_false] at hr
    cases hhuge : (mem table i).hugePage with
    | true =>
      rw [hhuge] at hr
      cases hr
    | false =>
      rw [hhuge] at hr
      cases hr
      refine ⟨fun t j _ hnot => write_of_not hnot, .inr ⟨rfl, rfl, rfl, ?_⟩⟩
      rw [write_self, if_pos rfl]

theorem TreeInUse.createTables_outside (halloc : Allocates alloc busy) :
    ∀ {l table p : ℕ} {path : List ℕ} {place : ℕ → Option (List ℕ)} {mem : Memory} {a : α},
      TreeInUse slots busy pml4 place mem a → place table = some path → path.length + l = 3 →
      (path = [] → slots (index q l)) →
      Paging.createTables alloc q l table mem a = ((mem', a'), .ok p) →
      ∀ t path', place t = some path' → ¬ path <+: path' → t ≠ p ∧ mem' t = mem t := by
  intro l
  induction l with
  | zero =>
    intro table p path place mem a _ htable _ _ hr t path' ht hnot
    cases hr
    refine ⟨?_, rfl⟩
    rintro rfl
    rw [htable] at ht
    cases ht
    exact hnot (prefix_refl path)
  | succ l ih =>
    intro table p path place mem a h htable hlen hslot hr t path' ht hnot
    rw [Paging.createTables] at hr
    split at hr
    swap
    · cases hr
    rename_i mem₁ a₁ next hnext
    obtain ⟨place₁, hgrown, hok⟩ := h.createNextTable halloc htable (by omega) hslot hnext
    obtain ⟨hsame, -⟩ := createNextTable_ok halloc (h.busy table (by simp [htable])) hnext
    have hne : t ≠ table := by
      rintro rfl
      rw [htable] at ht
      cases ht
      exact hnot (prefix_refl path)
    have hfirst : mem₁ t = mem t :=
      funext fun j => hsame t j (h.busy t (by simp [ht])) fun hboth => hne hboth.1
    obtain ⟨hp, hrest⟩ := ih hgrown.inUse (hok next rfl).1
      (by rw [length_append, length_singleton]; omega) (fun hnil => absurd hnil (by simp))
      hr t path' (hgrown.placed t path' ht)
      fun hpre => hnot ((prefix_append path _).trans hpre)
    exact ⟨hp, hrest.trans hfirst⟩

theorem not_prefix_of_ne {i j : ℕ} {path' : List ℕ} (h : path ++ [j] <+: path') (hne : j ≠ i) :
    ¬ path ++ [i] <+: path' := by
  intro h'
  have hsame := (prefix_of_prefix_length_le h h' (by simp)).eq_of_length (by simp)
  exact hne (by simpa using hsame)

theorem opens_writeLeaf {f : ℕ} (hupper : pageNumber q / 512 = pageNumber va / 512) :
    opens (mem.write table (index q 0) (.user f)) counts va 1 table =
      if pageNumber q = pageNumber va then true
      else opens mem (fun k => counts k || sharesParent q va k) va 1 table := by
  have hiff : pageNumber q = pageNumber va ↔ index q 0 = index va 0 := by
    rw [index_eq_pageNumber q (by omega), index_eq_pageNumber va (by omega)]
    omega
  by_cases heq : index q 0 = index va 0
  · have hentry : mem.write table (index q 0) (.user f) table (index va 0) = .user f := by
      rw [write_self, if_pos heq.symm]
    rw [if_pos (hiff.mpr heq), opens_step (by rw [hentry]; rfl) (by rw [hentry]; rfl)
      (by rw [hentry]; rfl), opens]
  · have hentry : mem.write table (index q 0) (.user f) table (index va 0)
        = mem table (index va 0) := by
      rw [write_self, if_neg (Ne.symm heq)]
    rw [if_neg (mt hiff.mp heq), opens_of_not_shared fun k hk => ?_]
    · exact opens_congr_entry hentry fun _ _ _ => rfl
    · exact decide_eq_false fun hshared => by omega

section

variable (halloc : Allocates alloc busy)
include halloc

theorem opens_created {mem₁ : Memory} {a₁ : α} {next : ℕ} (hbusy : busy a table)
    (hr : createNextTable alloc mem a table (index va l) = ((mem₁, a₁), .ok next))
    (hsame : mem' table = mem₁ table) :
    opens mem' counts va (l + 1) table = opens mem' counts va l next := by
  have hflags : ∃ e : PageTableEntry, e.hugePage = false ∧ e.frame = next ∧
      mem' table (index va l) = e.addUserFlags := by
    rw [hsame]
    obtain ⟨-, ⟨-, huser, -⟩ | ⟨-, hhuge, hframe, hadded⟩⟩ := createNextTable_ok halloc hbusy hr
    · exact ⟨.user next, rfl, rfl, huser⟩
    · exact ⟨_, hhuge, hframe, hadded⟩
  obtain ⟨e, hhuge, rfl, he⟩ := hflags
  rw [opens_step (by rw [he]; rfl) (by rw [he]; exact hhuge) (by rw [he]; rfl), he]
  rfl

theorem TreeInUse.opens_next
    (h : TreeInUse slots busy pml4 place mem a) (ht : place table = some path)
    (hlen : path.length + (l + 1) = 3) (hva : slots (index va 3)) {next : ℕ}
    (hr : Paging.createNextTable alloc mem a table (index va (l + 1)) = ((mem', a'), .ok next))
    (hcounts : counts (l + 1) = true) :
    opens mem' counts va (l + 1) next = opens mem counts va (l + 1 + 1) table := by
  obtain ⟨hsame, ⟨hunused, -, hclear⟩ | ⟨hused, hhuge, rfl, -⟩⟩ :=
    createNextTable_ok halloc (h.busy table (by simp [ht])) hr
  · rw [opens_of_unused hunused, opens_of_unused (by rw [hclear])]
  · obtain ⟨hpresent, path', rfl, hnext, hlen', -⟩ := h.tree.down ht hlen (fun _ => hva) hused hhuge
    rw [opens_step hpresent hhuge (by rw [hcounts, Bool.or_true])]
    refine h.tree.opens_congr hnext hlen' (by simp) fun t path' hplace hpre => ?_
    refine funext fun j => hsame t j (h.busy t (by simp [hplace])) ?_
    -- a table below the next one is not the one with the entry
    rintro ⟨rfl, -⟩
    rw [ht] at hplace
    cases hplace
    simpa using hpre.length_le

/-- Below the first table: the page that is mapped becomes open, another one is open if it was when
the parent entries that it shares with the page count. -/
theorem TreeInUse.opens_createTables (hq : slots (index q 3)) (hva : slots (index va 3)) {f : ℕ} :
    ∀ {l table p : ℕ} {path : List ℕ} {place : ℕ → Option (List ℕ)} {mem : Memory} {a : α},
      TreeInUse slots busy pml4 place mem a → place table = some path → path.length + l = 3 →
      pageNumber q / 512 ^ (l + 1) = pageNumber va / 512 ^ (l + 1) →
      Paging.createTables alloc q l table mem a = ((mem', a'), .ok p) →
      opens (mem'.write p (index q 0) (.user f)) counts va (l + 1) table =
        if pageNumber q = pageNumber va then true
        else opens mem (fun k => counts k || sharesParent q va k) va (l + 1) table := by
  intro l
  induction l with
  | zero =>
    intro table p path place mem a _ _ _ hupper hr
    cases hr
    exact opens_writeLeaf (by simpa using hupper)
  | succ l ih =>
    intro table p path place mem a h htable hlen hupper hr
    rw [Paging.createTables] at hr
    split at hr
    swap
    · cases hr
    rename_i mem₁ a₁ next hnext
    have hslot : path = [] → slots (index q (l + 1)) := by
      rintro rfl
      obtain rfl : l = 2 := by simpa using hlen
      exact hq
    obtain ⟨place₁, hgrown, hok⟩ := h.createNextTable halloc htable (by omega) hslot hnext
    have hplace := (hok next rfl).1
    have hlen₁ : (path ++ [index q (l + 1)]).length + l = 3 := by
      rw [length_append, length_singleton]
      omega
    have hbusy : busy a table := h.busy table (by simp [htable])
    obtain ⟨hsame, -⟩ := createNextTable_ok halloc hbusy hnext
    -- what is created further down stays below the next table
    have houtside : ∀ t path', place₁ t = some path' → ¬ path ++ [index q (l + 1)] <+: path' →
        mem'.write p (index q 0) (.user f) t = mem₁ t := by
      intro t path' ht hnot
      obtain ⟨hp, hmem⟩ := hgrown.inUse.createTables_outside halloc hplace hlen₁
        (fun hnil => absurd hnil (by simp)) hr t path' ht hnot
      rw [write_of_ne hp, hmem]
    have htable' : mem'.write p (index q 0) (.user f) table = mem₁ table :=
      houtside table path (hgrown.placed table path htable) fun hpre => by
        simpa using hpre.length_le
    have hiff := pageNumber_div_eq_iff (by omega) hupper
    by_cases hindex : index q (l + 1) = index va (l + 1)
    · -- the walk goes on at the next table
      have hshared : sharesParent q va (l + 1) = true :=
        decide_eq_true ⟨Nat.succ_pos l, hiff.mpr hindex⟩
      have hrest := ih hgrown.inUse hplace hlen₁ (hiff.mpr hindex) hr
      rw [hindex] at hnext
      rw [opens_created halloc hbusy hnext htable', hrest,
        h.opens_next halloc htable hlen hva hnext (by rw [hshared, Bool.or_true])]
    · have hne : pageNumber q ≠ pageNumber va := fun heq => hindex (hiff.mp (by rw [heq]))
      rw [if_neg hne, opens_of_not_shared fun k hk =>
        sharesParent_eq_false (Nat.le_of_lt_succ hk) (mt hiff.mp hindex)]
      -- another entry of the table, and nothing behind it has changed
      refine h.tree.opens_congr_entry htable hlen hva ?_ fun t path' ht hpre => ?_
      · rw [htable']
        exact hsame table _ hbusy fun hboth => hindex hboth.2.symm
      · rw [houtside t path' (hgrown.placed t path' ht) (not_prefix_of_ne hpre (Ne.symm hindex))]
        refine funext fun j => hsame t j (h.busy t (by simp [ht])) ?_
        rintro ⟨rfl, -⟩
        rw [htable] at ht
        cases ht
        simpa using hpre.length_le

/-- **Mapping a page** opens it, and another page is open afterwards iff it was open before when the
parent entries that it shares with the page count as writable and user-accessible. -/
theorem TreeInUse.opens_mapTo
    (h : TreeInUse slots busy pml4 place mem a) {f : ℕ} (hq : slots (index q 3))
    (hva : slots (index va 3)) (hr : Paging.mapTo alloc mem a pml4 q f = ((mem', a'), .ok ())) :
    opens mem' counts va 4 pml4 =
      if pageNumber q = pageNumber va then true
      else opens mem (fun k => counts k || sharesParent q va k) va 4 pml4 := by
  unfold Paging.mapTo at hr
  split at hr
  swap
  · cases hr
  rename_i mem₁ a₁ p htables
  split_ifs at hr
  swap
  · cases hr
  cases hr
  have hupper : pageNumber q / 512 ^ 4 = pageNumber va / 512 ^ 4 := by
    unfold pageNumber
    omega
  exact h.opens_createTables halloc hq hva h.tree.root rfl hupper htables

end

end Grow

end NwinOs.Paging
