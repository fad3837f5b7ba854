import NwinOs.Paging.Remap

/-!
# Page tables that form a tree

A level-4 table and the tables below it form a tree when each of them is reached along one path of
indices only (`TableTree`).  Such tables are a map from pages to leaves: `leaf` reads it, mapping a
page changes it at that page and nowhere else (`TreeInUse.mapTo`), and frames in use that hold no
tables are not touched.

`slots` selects the entries of the level-4 table that are looked at; the frame allocator is known
through the frames that it has handed out (`Allocates`).
-/

namespace NwinOs.Paging

open Function Memory PageTableEntry List

/-- The indices of the parent entries of an address, from the table at level `l + 1` on. -/
def indices (va : ℕ) : ℕ → List ℕ
  | 0 => []
  | l + 1 => index va (l + 1) :: indices va l

/-- The leaf of an address, from a table at level `l + 1` on; unused if there is no level-1 table.
-/
def leaf (mem : Memory) (va l table : ℕ) : PageTableEntry :=
  match leafTable mem va l table with
  | some t => mem t (index va 0)
  | none => .unused

/-- The tables with a place form a tree: an entry above the leaves that is in use and does not map a
huge page is present and leads one step down. -/
structure TableTree (slots : ℕ → Prop) (place : ℕ → Option (List ℕ)) (mem : Memory) (pml4 : ℕ) :
    Prop where
  root : place pml4 = some []
  entry : ∀ t path i, place t = some path → path.length < 3 → (path = [] → slots i) →
    (mem t i).isUnused = false → (mem t i).hugePage = false →
    (mem t i).present = true ∧ place (mem t i).frame = some (path ++ [i])

variable {slots : ℕ → Prop} {place : ℕ → Option (List ℕ)} {mem mem' : Memory} {pml4 : ℕ}

/-! ### Pages are leaves -/

variable {va l table t f : ℕ}

theorem leaf_of_leafTable (h : leafTable mem va l table = some t) :
    leaf mem va l table = mem t (index va 0) := by
  rw [leaf, h]

theorem leafTable_of_leaf (h : leaf mem va l table ≠ .unused) :
    ∃ t, leafTable mem va l table = some t ∧ mem t (index va 0) = leaf mem va l table := by
  unfold leaf at h ⊢
  cases hleaf : leafTable mem va l table with
  | none =>
    rw [hleaf] at h
    exact absurd rfl h
  | some t => exact ⟨t, rfl, rfl⟩

theorem translatePage_eq_leaf (mem : Memory) (va : ℕ) : ∀ l table,
    translatePage mem va l table = !(leaf mem va l table).isUnused := by
  intro l
  induction l with
  | zero => exact fun _ => rfl
  | succ l ih =>
    intro table
    rw [translatePage, ih]
    simp only [leaf, leafTable]
    cases hgo : ((mem table (index va (l + 1))).present &&
      !(mem table (index va (l + 1))).hugePage) with
    | false =>
      simp only [Bool.false_eq_true, if_false, isUnused_unused, Bool.not_true, Bool.false_and]
    | true => simp only [if_true, Bool.true_and]

theorem translate_of_leaf (h : leaf mem va 3 pml4 = .user f) :
    ∃ tr, translate mem pml4 va = some tr ∧ tr.frame = f := by
  obtain ⟨t, ht, hentry⟩ := leafTable_of_leaf (h ▸ user_ne_unused f)
  rw [h] at hentry
  refine ⟨_, translate_of_leafTable ht (by rw [hentry]; rfl), ?_⟩
  rw [hentry]
  rfl

theorem lookup_of_leaf (h : leaf mem va 3 pml4 = .user f) :
    ∃ r, lookup mem va 3 pml4 = some r ∧ r.frame = f := by
  obtain ⟨t, ht, hentry⟩ := leafTable_of_leaf (h ▸ user_ne_unused f)
  rw [h] at hentry
  refine ⟨⟨f, (PageTableEntry.user f).flags⟩, ?_, rfl⟩
  rw [lookup_of_leafTable ht, hentry, isUnused_user]
  rfl

theorem leaf_page (mem : Memory) (va l table : ℕ) :
    leaf mem (va / 4096 * 4096) l table = leaf mem va l table := by
  unfold leaf
  rw [leafTable_page, index_page]

theorem leaf_of_clear (h : mem t = fun _ => .unused) : leaf mem va l t = .unused := by
  cases l with
  | zero => exact congrFun h _
  | succ l =>
    have hnone : leafTable mem va (l + 1) t = none := by
      rw [leafTable, h]
      rfl
    rw [leaf, hnone]

/-! ### Walking down the tree -/

namespace TableTree

variable {va : ℕ}

section

variable (h : TableTree slots place mem pml4)
include h

/-- One step down the tree, along the indices of an address. -/
theorem down {l : ℕ} {path : List ℕ} (ht : place t = some path) (hlen : path.length + (l + 1) = 3)
    (hslot : path = [] → slots (index va 3))
    (hused : (mem t (index va (l + 1))).isUnused = false)
    (hhuge : (mem t (index va (l + 1))).hugePage = false) :
    (mem t (index va (l + 1))).present = true ∧ ∃ path', path' = path ++ [index va (l + 1)] ∧
      place (mem t (index va (l + 1))).frame = some path' ∧ path'.length + l = 3 ∧
      (path' = [] → slots (index va 3)) := by
  have hslot' : path = [] → slots (index va (l + 1)) := by
    rintro rfl
    obtain rfl : l = 2 := by simpa using hlen
    exact hslot rfl
  obtain ⟨hpresent, hnext⟩ := h.entry t path _ ht (by omega) hslot' hused hhuge
  refine ⟨hpresent, _, rfl, hnext, ?_, fun hnil => absurd hnil (by simp)⟩
  rw [length_append, length_singleton]
  omega

theorem place_leafTable {p : ℕ} :
    ∀ {l t : ℕ} {path : List ℕ}, place t = some path → path.length + l = 3 →
      (path = [] → slots (index va 3)) → leafTable mem va l t = some p →
      place p = some (path ++ indices va l) := by
  intro l
  induction l with
  | zero =>
    intro t path ht _ _ hp
    cases hp
    rw [ht, indices, append_nil]
  | succ l ih =>
    intro t path ht hlen hslot hp
    obtain ⟨hpresent, hhuge, hrest⟩ := leafTable_succ hp
    obtain ⟨-, path', rfl, hnext, hlen', hslot'⟩ :=
      h.down ht hlen hslot (isUnused_of_present hpresent) hhuge
    rw [ih hnext hlen' hslot' hrest, indices, append_assoc, singleton_append]

theorem leafTable_eq (habove : ∀ t path, place t = some path → path.length < 3 → mem' t = mem t) :
    ∀ {l t : ℕ} {path : List ℕ}, place t = some path → path.length + l = 3 →
      (path = [] → slots (index va 3)) → leafTable mem' va l t = leafTable mem va l t := by
  intro l
  induction l with
  | zero => exact fun _ _ _ => rfl
  | succ l ih =>
    intro t path ht hlen hslot
    rw [leafTable, leafTable, habove t path ht (by omega)]
    by_cases hgo : ((mem t (index va (l + 1))).present &&
        !(mem t (index va (l + 1))).hugePage) = true
    · obtain ⟨hpresent, hhuge⟩ := (Bool.and_eq_true _ _ ▸ hgo)
      obtain ⟨-, path', -, hnext, hlen', hslot'⟩ :=
        h.down ht hlen hslot (isUnused_of_present hpresent) (by simpa using hhuge)
      rw [if_pos hgo, if_pos hgo, ih hnext hlen' hslot']
    · rw [if_neg hgo, if_neg hgo]

end

/-- How an entry above the leaves may change without a change of the leaves. -/
inductive Refines (mem' : Memory) : PageTableEntry → PageTableEntry → Prop
  | same (e : PageTableEntry) : Refines mem' e e
  | addFlags {e : PageTableEntry} (h : e.isUnused = false) : Refines mem' e e.addUserFlags
  | clearTable {f : ℕ} (h : mem' f = fun _ => .unused) : Refines mem' .unused (.user f)

/-- **Leaves stay what they are** when the tables above them change as in `Refines`. -/
theorem leaf_eq (h : TableTree slots place mem pml4)
    (hparent : ∀ t path i, place t = some path → path.length < 3 → (path = [] → slots i) →
      Refines mem' (mem t i) (mem' t i))
    (hleaf : ∀ t path, place t = some path → path.length = 3 → mem' t = mem t) :
    ∀ {l t : ℕ} {path : List ℕ}, place t = some path → path.length + l = 3 →
      (path = [] → slots (index va 3)) → leaf mem' va l t = leaf mem va l t := by
  intro l
  induction l with
  | zero =>
    intro t path ht hlen _
    exact congrFun (hleaf t path ht hlen) _
  | succ l ih =>
    intro t path ht hlen hslot
    have hslot' : path = [] → slots (index va (l + 1)) := by
      rintro rfl
      obtain rfl : l = 2 := by simpa using hlen
      exact hslot rfl
    have hstep : ∀ m : Memory, leaf m va (l + 1) t =
        if (m t (index va (l + 1))).present && !(m t (index va (l + 1))).hugePage then
          leaf m va l (m t (index va (l + 1))).frame
        else .unused := by
      intro m
      simp only [leaf, leafTable]
      split_ifs <;> rfl
    have hdown := h.down ht hlen hslot
    have hrefine := hparent t path _ ht (by omega) hslot'
    rw [hstep, hstep]
    generalize mem t (index va (l + 1)) = e at hdown hrefine ⊢
    generalize mem' t (index va (l + 1)) = e' at hrefine ⊢
    -- below an entry that leads down, the leaves are the same by induction
    have hbelow : e.isUnused = false → e.hugePage = false → e.present = true ∧
        leaf mem' va l e.frame = leaf mem va l e.frame := by
      intro hused hhuge
      obtain ⟨hpresent, path', -, hplace, hlen', hslot'⟩ := hdown hused hhuge
      exact ⟨hpresent, ih hplace hlen' hslot'⟩
    cases hrefine with
    | same =>
      by_cases hgo : (e.present && !e.hugePage) = true
      · obtain ⟨hpresent, hhuge⟩ := (Bool.and_eq_true _ _ ▸ hgo)
        rw [if_pos hgo, if_pos hgo]
        exact (hbelow (isUnused_of_present hpresent) (by simpa using hhuge)).2
      · rw [if_neg hgo, if_neg hgo]
    | addFlags hused =>
      simp only [PageTableEntry.addUserFlags, Bool.true_and]
      cases hhuge : e.hugePage with
      | false =>
        obtain ⟨hpresent, hsame⟩ := hbelow hused hhuge
        simp only [hpresent, hsame, Bool.not_false, Bool.true_and, if_true]
      | true => simp only [Bool.not_true, Bool.and_false, Bool.false_eq_true, if_false]
    | clearTable hclear =>
      exact leaf_of_clear hclear

end TableTree

/-! ### Growing the tree -/

section Grow

variable {α : Type} {alloc : Memory → α → Memory × α × Option ℕ} {busy : α → ℕ → Prop}
  {place' place'' : ℕ → Option (List ℕ)} {mem'' : Memory} {a a' a'' : α}

/-- The allocator hands out clear frames that were not in use; `busy` are the frames in use. -/
def Allocates (alloc : Memory → α → Memory × α × Option ℕ) (busy : α → ℕ → Prop) : Prop :=
  ∀ mem a, (∃ a', alloc mem a = (mem, a', none) ∧ ∀ g, busy a g → busy a' g) ∨
    ∃ f a', alloc mem a = (mem.zero f, a', some f) ∧ ¬ busy a f ∧ busy a' f ∧
      ∀ g, busy a g → busy a' g

/-- A tree of tables that are all in use. -/
structure TreeInUse (slots : ℕ → Prop) (busy : α → ℕ → Prop) (pml4 : ℕ)
    (place : ℕ → Option (List ℕ)) (mem : Memory) (a : α) : Prop where
  tree : TableTree slots place mem pml4
  busy : ∀ t, place t ≠ none → busy a t

variable {f t : ℕ}

theorem zero_of_placed (hf : place f = none) (ht : place t ≠ none) : mem.zero f t = mem t := by
  refine zero_of_ne ?_
  rintro rfl
  exact ht hf

/-- A change of frames that hold no tables changes no leaf. -/
theorem TreeInUse.congr (h : TreeInUse slots busy pml4 place mem a) (mem' : Memory)
    (hmem : ∀ t, place t ≠ none → mem' t = mem t) :
    TreeInUse slots busy pml4 place mem' a ∧
      ∀ va, slots (index va 3) → leaf mem' va 3 pml4 = leaf mem va 3 pml4 := by
  have hplaced : ∀ t path, place t = some path → mem' t = mem t :=
    fun t path ht => hmem t (by simp [ht])
  refine ⟨⟨⟨h.tree.root, fun t path i ht => ?_⟩, h.busy⟩, fun va hva => ?_⟩
  · rw [hplaced t path ht]
    exact h.tree.entry t path i ht
  · refine h.tree.leaf_eq (fun t path i ht _ _ => ?_) (fun t path ht _ => hplaced t path ht)
      h.tree.root rfl fun _ => hva
    rw [hplaced t path ht]
    exact .same _

/-- The tree has grown: no table was moved, no leaf changed, and frames in use that hold no table
were not touched. -/
structure Grown (slots : ℕ → Prop) (busy : α → ℕ → Prop) (pml4 : ℕ)
    (place : ℕ → Option (List ℕ)) (mem : Memory) (a : α)
    (place' : ℕ → Option (List ℕ)) (mem' : Memory) (a' : α) : Prop where
  inUse : TreeInUse slots busy pml4 place' mem' a'
  mono : ∀ f, busy a f → busy a' f
  placed : ∀ t path, place t = some path → place' t = some path
  data : ∀ f, place f = none → busy a f → place' f = none ∧ mem' f = mem f
  stable : ∀ t path i, place t = some path → path.length < 3 → (path = [] → slots i) →
    (mem t i).isUnused = false → (mem t i).hugePage = false →
    (mem' t i).isUnused = false ∧ (mem' t i).hugePage = false ∧
      (mem' t i).frame = (mem t i).frame
  leaves : ∀ va, slots (index va 3) → leaf mem' va 3 pml4 = leaf mem va 3 pml4

theorem Grown.refl (h : TreeInUse slots busy pml4 place mem a) :
    Grown slots busy pml4 place mem a place mem a where
  inUse := h
  mono _ hf := hf
  placed _ _ ht := ht
  data _ hf _ := ⟨hf, rfl⟩
  stable _ _ _ _ _ _ hused hhuge := ⟨hused, hhuge, rfl⟩
  leaves _ _ := rfl

theorem Grown.trans (h : Grown slots busy pml4 place mem a place' mem' a')
    (h' : Grown slots busy pml4 place' mem' a' place'' mem'' a'') :
    Grown slots busy pml4 place mem a place'' mem'' a'' where
  inUse := h'.inUse
  mono f hf := h'.mono f (h.mono f hf)
  placed t path ht := h'.placed t path (h.placed t path ht)
  data f hf hb := by
    obtain ⟨hplace, hmem⟩ := h.data f hf hb
    obtain ⟨hplace', hmem'⟩ := h'.data f hplace (h.mono f hb)
    exact ⟨hplace', hmem'.trans hmem⟩
  stable t path i ht hlen hslot hused hhuge := by
    obtain ⟨hused', hhuge', hframe⟩ := h.stable t path i ht hlen hslot hused hhuge
    obtain ⟨hused'', hhuge'', hframe'⟩ :=
      h'.stable t path i (h.placed t path ht) hlen hslot hused' hhuge'
    exact ⟨hused'', hhuge'', hframe'.trans hframe⟩
  leaves va hva := (h'.leaves va hva).trans (h.leaves va hva)

variable {table i : ℕ} {path : List ℕ}

theorem TreeInUse.addUserFlags (h : TreeInUse slots busy pml4 place mem a)
    (ht : place table = some path) (hlen : path.length < 3)
    (hused : (mem table i).isUnused = false) :
    Grown slots busy pml4 place mem a place
      (mem.write table i (mem table i).addUserFlags) a := by
  have hentry : ∀ t j, mem.write table i (mem table i).addUserFlags t j =
      if t = table ∧ j = i then (mem table i).addUserFlags else mem t j :=
    fun t j => write_apply
  have hused' : ∀ e : PageTableEntry, e.addUserFlags.isUnused = false :=
    fun e => isUnused_of_present rfl
  have htree : TableTree slots place (mem.write table i (mem table i).addUserFlags) pml4 := by
    refine ⟨h.tree.root, fun t q j hq hqlen hslot huse hhuge => ?_⟩
    rw [hentry] at huse hhuge ⊢
    split_ifs at huse hhuge ⊢ with hwritten
    · obtain ⟨rfl, rfl⟩ := hwritten
      exact ⟨rfl, (h.tree.entry t q j hq hqlen hslot hused hhuge).2⟩
    · exact h.tree.entry t q j hq hqlen hslot huse hhuge
  refine ⟨⟨htree, h.busy⟩, fun _ hf => hf, fun _ _ ht => ht, fun f hf _ => ⟨hf, ?_⟩,
    fun t q j hq hqlen hslot huse hhuge => ?_, fun va hva => ?_⟩
  · refine write_of_ne ?_
    rintro rfl
    rw [ht] at hf
    cases hf
  · rw [hentry]
    split_ifs with hwritten
    · obtain ⟨rfl, rfl⟩ := hwritten
      exact ⟨hused' _, hhuge, rfl⟩
    · exact ⟨huse, hhuge, rfl⟩
  · refine h.tree.leaf_eq (fun t q j hq hqlen hslot => ?_) (fun t q hq hqlen => ?_) h.tree.root rfl
      fun _ => hva
    · rw [hentry]
      split_ifs with hwritten
      · obtain ⟨rfl, rfl⟩ := hwritten
        exact .addFlags hused
      · exact .same _
    · refine write_of_ne ?_
      rintro rfl
      rw [ht] at hq
      cases hq
      omega

theorem addTable_apply {j : ℕ} (htf : t ≠ f) : (((mem.zero f).write table i (.user f)).zero f) t j =
      if t = table ∧ j = i then .user f else mem t j := by
  rw [zero_of_ne htf, write_apply, zero_of_ne htf]

theorem TreeInUse.ne_of_free (h : TreeInUse slots busy pml4 place mem a) {q : List ℕ}
    (hfree : ¬ busy a f) (hq : place t = some q) : t ≠ f := by
  rintro rfl
  exact hfree (h.busy t (by simp [hq]))

theorem TreeInUse.addTable (h : TreeInUse slots busy pml4 place mem a)
    (ht : place table = some path) (hlen : path.length < 3)
    (hunused : mem table i = .unused) (hfree : ¬ busy a f) (hbusy : busy a' f)
    (hmono : ∀ g, busy a g → busy a' g) :
    Grown slots busy pml4 place mem a (update place f (some (path ++ [i])))
      (((mem.zero f).write table i (.user f)).zero f) a' := by
  have hplaced : ∀ t q, place t = some q → t ≠ f := fun t q hq => h.ne_of_free hfree hq
  have hold : ∀ t, t ≠ f → update place f (some (path ++ [i])) t = place t :=
    fun t ht => update_of_ne ht ..
  have hnew : update place f (some (path ++ [i])) f = some (path ++ [i]) :=
    update_self ..
  set mem' := ((mem.zero f).write table i (.user f)).zero f with hmem'
  have hclear : mem' f = fun _ => .unused := zero_self
  have hentry : ∀ t j, t ≠ f → mem' t j = if t = table ∧ j = i then .user f else mem t j :=
    fun t j htf => addTable_apply htf
  have htree : TableTree slots (update place f (some (path ++ [i]))) mem' pml4 := by
    refine ⟨(hold _ (hplaced _ _ h.tree.root)).trans h.tree.root,
      fun t q j hq hqlen hslot huse hhuge => ?_⟩
    by_cases htf : t = f
    · -- the new table is clear
      rw [htf, hclear] at huse
      cases huse
    · rw [hold t htf] at hq
      rw [hentry t j htf] at huse hhuge ⊢
      split_ifs at huse hhuge ⊢ with hwritten
      · obtain ⟨rfl, rfl⟩ := hwritten
        rw [ht] at hq
        cases hq
        exact ⟨rfl, hnew⟩
      · obtain ⟨hpresent, hnext⟩ := h.tree.entry t q j hq hqlen hslot huse hhuge
        exact ⟨hpresent, (hold _ (hplaced _ _ hnext)).trans hnext⟩
  refine ⟨⟨htree, fun t ht => ?_⟩, hmono, fun t q hq => (hold t (hplaced t q hq)).trans hq,
    fun g hg hbg => ?_, fun t q j hq hqlen hslot huse hhuge => ?_, fun va hva => ?_⟩
  · by_cases htf : t = f
    · exact htf ▸ hbusy
    · exact hmono t (h.busy t (hold t htf ▸ ht))
  · have hgf : g ≠ f := fun he => hfree (he ▸ hbg)
    refine ⟨(hold g hgf).trans hg, ?_⟩
    ext1 j
    rw [hentry g j hgf, if_neg]
    rintro ⟨rfl, -⟩
    rw [ht] at hg
    cases hg
  · rw [hentry t j (hplaced t q hq)]
    split_ifs with hwritten
    · obtain ⟨rfl, rfl⟩ := hwritten
      rw [hunused] at huse
      cases huse
    · exact ⟨huse, hhuge, rfl⟩
  · refine h.tree.leaf_eq (fun t q j hq hqlen hslot => ?_) (fun t q hq hqlen => ?_) h.tree.root rfl
      fun _ => hva
    · rw [hentry t j (hplaced t q hq)]
      split_ifs with hwritten
      · obtain ⟨rfl, rfl⟩ := hwritten
        rw [hunused]
        exact .clearTable hclear
      · exact .same _
    · ext1 j
      rw [hentry t j (hplaced t q hq), if_neg]
      rintro ⟨rfl, -⟩
      rw [ht] at hq
      cases hq
      omega

theorem TreeInUse.createNextTable (halloc : Allocates alloc busy)
    (h : TreeInUse slots busy pml4 place mem a)
    (ht : place table = some path) (hlen : path.length < 3) (hslot : path = [] → slots i)
    {r : Except MapToError ℕ}
    (hr : Paging.createNextTable alloc mem a table i = ((mem', a'), r)) :
    ∃ place', Grown slots busy pml4 place mem a place' mem' a' ∧
      ∀ next, r = .ok next → place' next = some (path ++ [i]) ∧
        (mem' table i).isUnused = false ∧ (mem' table i).hugePage = false ∧
        (mem' table i).frame = next := by
  unfold Paging.createNextTable at hr
  cases hused : (mem table i).isUnused with
  | true =>
    have hunused := isUnused_iff.mp hused
    simp only [hused, if_true] at hr
    rcases halloc mem a with ⟨a₁, hnone, hmono⟩ | ⟨f, a₁, hsome, hfree, hbusy, hmono⟩
    · rw [hnone] at hr
      cases hr
      refine ⟨place, ?_, fun next hnext => (nomatch hnext)⟩
      exact { Grown.refl h with
        inUse := ⟨h.tree, fun t ht => hmono t (h.busy t ht)⟩
        mono := hmono }
    · rw [hsome] at hr
      cases hr
      have hgrown := h.addTable ht hlen hunused hfree hbusy hmono
      have htf : table ≠ f := by
        rintro rfl
        exact hfree (h.busy table (by simp [ht]))
      refine ⟨_, hgrown, fun next hnext => ?_⟩
      cases hnext
      rw [zero_of_ne htf, write_self, if_pos rfl]
      exact ⟨update_self .., isUnused_user f, rfl, rfl⟩
  | false =>
    simp only [hused, Bool.false_eq_true, if_false] at hr
    refine ⟨place, ?_, fun next hnext => ?_⟩
    · have hgrown := h.addUserFlags (i := i) ht hlen hused
      cases hhuge : (mem table i).hugePage <;>
        (rw [hhuge] at hr; cases hr; exact hgrown)
    · cases hhuge : (mem table i).hugePage with
      | true =>
        rw [hhuge] at hr
        cases hr
        cases hnext
      | false =>
        rw [hhuge] at hr
        cases hr
        cases hnext
        rw [write_self, if_pos rfl]
        exact ⟨(h.tree.entry table path i ht hlen hslot hused hhuge).2, isUnused_of_present rfl,
          hhuge, rfl⟩

variable {va : ℕ}

theorem TreeInUse.createTables (halloc : Allocates alloc busy) :
    ∀ {l table : ℕ} {path : List ℕ} {place : ℕ → Option (List ℕ)} {mem : Memory} {a : α}
      {r : Except MapToError ℕ}, TreeInUse slots busy pml4 place mem a →
      place table = some path → path.length + l = 3 → (path = [] → slots (index va l)) →
      Paging.createTables alloc va l table mem a = ((mem', a'), r) →
      ∃ place', Grown slots busy pml4 place mem a place' mem' a' ∧
        ∀ t, r = .ok t → leafTable mem' va l table = some t := by
  intro l
  induction l with
  | zero =>
    intro table path place mem a r h _ _ _ hr
    cases hr
    refine ⟨place, Grown.refl h, fun t ht => ?_⟩
    cases ht
    rfl
  | succ l ih =>
    intro table path place mem a r h ht hlen hslot hr
    rw [Paging.createTables] at hr
    split at hr
    · rename_i mem₁ a₁ next hnext
      obtain ⟨place₁, hgrown₁, hnext₁⟩ := h.createNextTable halloc ht (by omega) hslot hnext
      obtain ⟨hplace, hused, hhuge, hframe⟩ := hnext₁ next rfl
      obtain ⟨place₂, hgrown₂, hleaf⟩ :=
        ih hgrown₁.inUse hplace (by rw [length_append, length_singleton]; omega)
          (fun h => absurd h (by simp)) hr
      refine ⟨place₂, hgrown₁.trans hgrown₂, fun t hok => ?_⟩
      -- what was created below did not change the entry that leads there
      have ht₁ := hgrown₁.placed table path ht
      obtain ⟨hused', hhuge', hframe'⟩ :=
        hgrown₂.stable table path _ ht₁ (by omega) hslot hused hhuge
      have hpresent := (hgrown₂.inUse.tree.entry table path _ (hgrown₂.placed table path ht₁)
        (by omega) hslot hused' hhuge').1
      rw [leafTable, hframe', hframe]
      simp only [hpresent, hhuge', Bool.not_false, Bool.and_true, if_true]
      exact hleaf t hok
    · rename_i mem₁ a₁ e hnext
      cases hr
      obtain ⟨place₁, hgrown₁, -⟩ := h.createNextTable halloc ht (by omega) hslot hnext
      exact ⟨place₁, hgrown₁, fun t ht => (by cases ht)⟩

/-- The number of a page among the addressable ones. -/
def pageNumber (va : ℕ) : ℕ := va / 4096 % 512 ^ 4

theorem pageNumber_eq {va' : ℕ} (h : indices va 3 = indices va' 3)
    (h0 : index va 0 = index va' 0) : pageNumber va = pageNumber va' := by
  simp only [indices, index, List.cons.injEq, and_true] at h h0
  unfold pageNumber
  omega

theorem TreeInUse.writeLeaf (h : TreeInUse slots busy pml4 place mem a) {p : ℕ}
    (hva : slots (index va 3)) (hleaf : leafTable mem va 3 pml4 = some p) (e : PageTableEntry) :
    TreeInUse slots busy pml4 place (mem.write p (index va 0) e) a ∧
    (∀ f, place f = none → mem.write p (index va 0) e f = mem f) ∧
    leaf (mem.write p (index va 0) e) va 3 pml4 = e ∧
    ∀ va', slots (index va' 3) → pageNumber va' ≠ pageNumber va →
      leaf (mem.write p (index va 0) e) va' 3 pml4 = leaf mem va' 3 pml4 := by
  have hp : place p = some (indices va 3) :=
    h.tree.place_leafTable h.tree.root rfl (fun _ => hva) hleaf
  -- the tables above the leaves are not touched
  have habove : ∀ t path, place t = some path → path.length < 3 →
      mem.write p (index va 0) e t = mem t := by
    intro t path ht hlen
    refine write_of_ne ?_
    rintro rfl
    rw [hp] at ht
    cases ht
    exact absurd hlen (by simp [indices])
  have hparents : ∀ va', slots (index va' 3) →
      leafTable (mem.write p (index va 0) e) va' 3 pml4 = leafTable mem va' 3 pml4 :=
    fun va' hva' => h.tree.leafTable_eq habove h.tree.root rfl fun _ => hva'
  refine ⟨⟨⟨h.tree.root, fun t path i ht hlen => ?_⟩, h.busy⟩, fun f hf => ?_, ?_,
    fun va' hva' hne => ?_⟩
  · rw [habove t path ht hlen]
    exact h.tree.entry t path i ht hlen
  · refine write_of_ne ?_
    rintro rfl
    rw [hp] at hf
    cases hf
  · rw [leaf_of_leafTable ((hparents va hva).trans hleaf), write_self, if_pos rfl]
  · unfold leaf
    rw [hparents va' hva']
    cases hleaf' : leafTable mem va' 3 pml4 with
    | none => rfl
    | some t =>
      dsimp only
      by_cases htp : t = p
      · -- the same level-1 table, so another entry of it
        have ht : place t = some (indices va' 3) :=
          h.tree.place_leafTable h.tree.root rfl (fun _ => hva') hleaf'
        subst htp
        rw [hp] at ht
        rw [write_self, if_neg fun h0 => hne (pageNumber_eq (Option.some.inj ht).symm h0)]
      · rw [write_of_ne htp]

/-- **Mapping a page** fails without a change of the leaves, or makes the given entry the leaf of
the page, which was unused, and keeps all other leaves.  Frames in use without tables are not
touched. -/
theorem TreeInUse.mapTo (halloc : Allocates alloc busy)
    (h : TreeInUse slots busy pml4 place mem a) {frame : ℕ} (hva : slots (index va 3))
    {r : Except MapToError Unit} (hr : Paging.mapTo alloc mem a pml4 va frame = ((mem', a'), r)) :
    ∃ place', TreeInUse slots busy pml4 place' mem' a' ∧
      (∀ f, busy a f → busy a' f) ∧
      (∀ f, place f = none → busy a f → place' f = none ∧ mem' f = mem f) ∧
      (∀ va', slots (index va' 3) → pageNumber va' ≠ pageNumber va →
        leaf mem' va' 3 pml4 = leaf mem va' 3 pml4) ∧
      (r = .ok () → leaf mem' va 3 pml4 = .user frame) := by
  unfold Paging.mapTo at hr
  split at hr
  · rename_i mem₁ a₁ p1 htables
    obtain ⟨place₁, hgrown, hleaf⟩ :=
      h.createTables halloc h.tree.root rfl (fun _ => hva) htables
    split_ifs at hr with hunused
    · cases hr
      obtain ⟨hinUse, hdata, hmapped, hother⟩ :=
        hgrown.inUse.writeLeaf hva (hleaf p1 rfl) (.user frame)
      refine ⟨place₁, hinUse, hgrown.mono, fun f hf hb => ?_, fun va' hva' hne => ?_,
        fun _ => hmapped⟩
      · obtain ⟨hplace, hmem⟩ := hgrown.data f hf hb
        exact ⟨hplace, (hdata f hplace).trans hmem⟩
      · exact (hother va' hva' hne).trans (hgrown.leaves va' hva')
    · cases hr
      exact ⟨place₁, hgrown.inUse, hgrown.mono, hgrown.data, fun va' hva' _ =>
        hgrown.leaves va' hva', fun hok => (nomatch hok)⟩
  · rename_i mem₁ a₁ e htables
    cases hr
    obtain ⟨place₁, hgrown, -⟩ := h.createTables halloc h.tree.root rfl (fun _ => hva) htables
    exact ⟨place₁, hgrown.inUse, hgrown.mono, hgrown.data, fun va' hva' _ =>
      hgrown.leaves va' hva', fun hok => (nomatch hok)⟩

end Grow

end NwinOs.Paging
