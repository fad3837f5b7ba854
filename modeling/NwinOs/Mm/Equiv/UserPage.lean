import NwinOs.Mm.UserPage
import NwinOs.Paging.FrameBytes
import NwinOs.Paging.Rights
import Mathlib.Data.Nat.Bitwise

/-!
# The kernel's page walk and the MMU's

The MMU lets user code through if every entry of the walk is user-accessible; `is_user_page_mapped`
looks at the last one only.  `isUserPageMapped_agrees_iff` says for which tables that is the same.
-/

namespace NwinOs.Mm

open Paging PageTableEntry

/-! ### Entries -/

section

variable (entry : BitVec 64)

theorem and_bit_eq_zero_iff (i : ℕ) (hi : i < 64) :
    entry &&& BitVec.ofNat 64 (2 ^ i) = 0 ↔ ¬ entry.toNat / 2 ^ i % 2 = 1 := by
  have hpow : 2 ^ i < 2 ^ 64 := Nat.pow_lt_pow_right (by decide) hi
  rw [← BitVec.toNat_inj, BitVec.toNat_and, BitVec.toNat_ofNat, Nat.mod_eq_of_lt hpow,
    Nat.and_two_pow, Nat.testBit_eq_decide_div_mod_eq]
  by_cases hbit : entry.toNat / 2 ^ i % 2 = 1
  · simp [hbit]
  · simp [hbit]

theorem present_iff : entry &&& PRESENT = 0 ↔ (ofNat entry.toNat).present = false := by
  rw [show PRESENT = BitVec.ofNat 64 (2 ^ 0) from rfl, and_bit_eq_zero_iff entry 0 (by decide)]
  simp [ofNat]

theorem user_iff : entry &&& USER ≠ 0 ↔ (ofNat entry.toNat).userAccessible = true := by
  rw [show USER = BitVec.ofNat 64 (2 ^ 2) from rfl, Ne, and_bit_eq_zero_iff entry 2 (by decide)]
  simp [ofNat]

theorem huge_iff : entry &&& HUGE ≠ 0 ↔ (ofNat entry.toNat).hugePage = true := by
  rw [show HUGE = BitVec.ofNat 64 (2 ^ 7) from rfl, Ne, and_bit_eq_zero_iff entry 7 (by decide)]
  simp [ofNat]

theorem physFrame_eq : physFrame entry = (ofNat entry.toNat).frame := by
  show (entry &&& 0x000FFFFFFFFFF000#64).toNat / 2 ^ 12 = entry.toNat / 2 ^ 12 % 2 ^ 40
  rw [BitVec.toNat_and, ← Nat.shiftRight_eq_div_pow, Nat.shiftRight_and_distrib,
    ← Nat.and_two_pow_sub_one_eq_mod, Nat.shiftRight_eq_div_pow]
  rfl

end

/-! ### The walks -/

/-- The tables as the MMU reads them. -/
def decoded (tables : RawTables) : Memory := fun f i => PageTableEntry.ofNat (tables f i).toNat

variable {tables : RawTables} {pml4Frame addr : ℕ}

/-- **What `is_user_page_mapped` looks at**: all entries of the walk are present, and the last one
is user-accessible. -/
theorem isUserPageMapped_iff : isUserPageMapped tables pml4Frame addr = true ↔
    (∀ e ∈ walkEntries (decoded tables) addr 4 pml4Frame, e.present = true) ∧
      ∃ e, (walkEntries (decoded tables) addr 4 pml4Frame).getLast? = some e ∧
        e.userAccessible = true := by
  have hframe : ∀ f i, physFrame (tables f i) = (decoded tables f i).frame :=
    fun f i => physFrame_eq (tables f i)
  have hpresent : ∀ f i, tables f i &&& PRESENT = 0 ↔ (decoded tables f i).present = false :=
    fun f i => present_iff (tables f i)
  have huser : ∀ f i, tables f i &&& USER ≠ 0 ↔ (decoded tables f i).userAccessible = true :=
    fun f i => user_iff (tables f i)
  have hhuge : ∀ f i, tables f i &&& HUGE ≠ 0 ↔ (decoded tables f i).hugePage = true :=
    fun f i => huge_iff (tables f i)
  unfold isUserPageMapped
  simp only [hframe, hpresent, huser, hhuge, walkEntries]
  generalize decoded tables pml4Frame (index addr 3) = e₄
  generalize decoded tables e₄.frame (index addr 2) = e₃
  generalize decoded tables e₃.frame (index addr 1) = e₂
  generalize decoded tables e₂.frame (index addr 0) = e₁
  -- level 4 has no huge pages, and level 1 maps the page
  cases h₄ : e₄.present
  · simp [h₄]
  cases h₃ : e₃.present
  · simp [h₄, h₃, isHuge]
  cases hh₃ : e₃.hugePage
  swap
  · simp [h₄, h₃, hh₃, isHuge]
  cases h₂ : e₂.present
  · simp [h₄, h₃, hh₃, h₂, isHuge]
  cases hh₂ : e₂.hugePage
  swap
  · simp [h₄, h₃, hh₃, h₂, hh₂, isHuge]
  cases h₁ : e₁.present
  · simp [h₄, h₃, hh₃, h₂, hh₂, h₁, isHuge]
  · simp [h₄, h₃, hh₃, h₂, hh₂, h₁, isHuge]

/-- **`is_user_page_mapped` agrees with the MMU** iff there is no supervisor entry above the user's:
the walk that reaches a user-accessible leaf meets user-accessible entries only. -/
theorem isUserPageMapped_agrees_iff (tables : RawTables) (pml4Frame addr : ℕ) :
    (isUserPageMapped tables pml4Frame addr = true ↔
      ∃ tr, Paging.translate (decoded tables) pml4Frame addr = some tr ∧ tr.rights.user = true) ↔
    ((∀ e ∈ walkEntries (decoded tables) addr 4 pml4Frame, e.present = true) →
      (∃ e, (walkEntries (decoded tables) addr 4 pml4Frame).getLast? = some e ∧
        e.userAccessible = true) →
      ∀ e ∈ walkEntries (decoded tables) addr 4 pml4Frame, e.userAccessible = true) := by
  rw [isUserPageMapped_iff, Paging.translate, walk_user_iff]
  have hne : walkEntries (decoded tables) addr 4 pml4Frame ≠ [] := List.cons_ne_nil _ _
  generalize walkEntries (decoded tables) addr 4 pml4Frame = entries at hne ⊢
  constructor
  · intro hagree hpresent hlast e he
    exact ((hagree.mp ⟨hpresent, hlast⟩).2 e he).2
  · intro hparents
    constructor
    · rintro ⟨hpresent, hlast⟩
      exact ⟨rfl, fun e he => ⟨hpresent e he, hparents hpresent hlast e he⟩⟩
    · rintro ⟨-, hall⟩
      refine ⟨fun e he => (hall e he).1, entries.getLast hne, ?_, ?_⟩
      · exact List.getLast?_eq_some_getLast hne
      · exact (hall _ (List.getLast_mem hne)).2

/-- A user page in a slot of the level-4 table that is the kernel's. -/
def supervisorSlot : RawTables := fun f _ =>
  if f = 0 then 0x1003 else if f = 1 then 0x2007 else if f = 2 then 0x3007 else 0x4007

/-- **The two walks differ**: `is_user_page_mapped` accepts the page, and the MMU does not let user
code read it. -/
theorem isUserPageMapped_accepts_supervisor_slot :
    isUserPageMapped supervisorSlot 0 0x400000 = true ∧
    Paging.translate (decoded supervisorSlot) 0 0x400000 = some ⟨4, ⟨false, true⟩⟩ := by
  decide +kernel

end NwinOs.Mm
