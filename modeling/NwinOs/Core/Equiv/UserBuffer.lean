import NwinOs.Core.Equiv.SyscallFile
import NwinOs.Tasking.Elf

/-!
# The check of user buffers

`is_valid_user_memory` stands in front of every copy from or to user space.  `checkUserMemory` is
the function with its loop and its 64-bit arithmetic as they are in the source: a sum may panic, and
the loop may run out of the turns it is given.  Neither happens (`checkUserMemory_eq`), and the
answer is the one for the whole range of bytes (`isValidUserMemory_covers_range`).
-/

namespace NwinOs.Core

open Fs Tasking

namespace UserMemory

variable {user : UserMemory} {p : Profile} {ptr len endPage currentPage fuel : ℕ}

/-- The `while` loop of `is_valid_user_memory`, for a bounded number of turns; `none` is a panic, or
that the turns do not suffice. -/
def checkPages (user : UserMemory) (p : Profile) (endPage : ℕ) : ℕ → ℕ → Option Bool
  | 0, _ => none
  | fuel + 1, currentPage =>
    if currentPage ≤ endPage then
      (virtAddrNew currentPage).bind fun page =>
        if user.isUserPageMapped page = false then some false
        else (p.add 64 currentPage 4096).bind (user.checkPages p endPage fuel)
    else some true

/-- `is_valid_user_memory`, with the arithmetic of a build profile. -/
def checkUserMemory (user : UserMemory) (p : Profile) (fuel ptr len : ℕ) : Option Bool :=
  if ptr = 0 then some false
  else if 2 ^ 63 - 1 < len then some false
  else if len = 0 then some true
  else
    let end' := min (ptr + len) (2 ^ 64 - 1)
    if 0x00007FFFFFFFFFFF < end' then some false
    else (p.sub 64 end' 1).bind fun last =>
      user.checkPages p (last / 4096 * 4096) fuel (ptr / 4096 * 4096)

/-! ### The loop -/

/-- Enough turns and no overflow: below the end of the lower half the loop gives the answer. -/
theorem checkPages_eq (hend : endPage < 2 ^ 47) : ∀ {n currentPage : ℕ},
    endPage < currentPage + n * 4096 → ∀ fuel, n < fuel →
      user.checkPages p endPage fuel currentPage
        = some (user.pagesMapped endPage n currentPage) := by
  intro n
  induction n with
  | zero =>
    intro currentPage hlast fuel hfuel
    obtain ⟨fuel, rfl⟩ := Nat.exists_eq_succ_of_ne_zero (Nat.ne_zero_of_lt hfuel)
    rw [checkPages, if_neg (by omega)]
    rfl
  | succ n ih =>
    intro currentPage hlast fuel hfuel
    obtain ⟨fuel, rfl⟩ := Nat.exists_eq_succ_of_ne_zero (Nat.ne_zero_of_lt hfuel)
    rw [checkPages, pagesMapped]
    by_cases hmore : currentPage ≤ endPage
    · have hcanonical : virtAddrNew currentPage = some currentPage := if_pos (.inl (by omega))
      rw [if_pos hmore, if_pos hmore, hcanonical, Option.bind_some]
      cases hpage : user.isUserPageMapped currentPage with
      | false => rfl
      | true =>
        have hne : ¬ true = false := Ne.symm Bool.false_ne_true
        rw [if_neg hne, if_neg hne, Profile.add_eq_some (by omega), Option.bind_some]
        exact ih (by omega) fuel (by omega)
    · rw [if_neg hmore, if_neg hmore]

theorem pagesMapped_iff : ∀ {n currentPage : ℕ}, endPage < currentPage + n * 4096 →
    (user.pagesMapped endPage n currentPage = true ↔
      ∀ i, currentPage + i * 4096 ≤ endPage →
        user.isUserPageMapped (currentPage + i * 4096) = true) := by
  intro n
  induction n with
  | zero =>
    intro currentPage hlast
    exact ⟨fun _ i hi => absurd hi (by omega), fun _ => rfl⟩
  | succ n ih =>
    intro currentPage hlast
    rw [pagesMapped]
    by_cases hmore : currentPage ≤ endPage
    · rw [if_pos hmore]
      cases hpage : user.isUserPageMapped currentPage with
      | false =>
        refine iff_of_false Bool.false_ne_true fun hall => ?_
        have hfirst := hall 0 (by omega)
        rw [Nat.zero_mul, Nat.add_zero, hpage] at hfirst
        cases hfirst
      | true =>
        rw [if_neg (Ne.symm Bool.false_ne_true), ih (by omega)]
        -- the first page, then the later ones
        constructor
        · intro hrest i hi
          cases i with
          | zero => rwa [Nat.zero_mul, Nat.add_zero]
          | succ i =>
            have hnext : currentPage + 4096 + i * 4096 = currentPage + (i + 1) * 4096 := by omega
            exact hnext ▸ hrest i (hnext ▸ hi)
        · intro hall i hi
          have hnext : currentPage + 4096 + i * 4096 = currentPage + (i + 1) * 4096 := by omega
          exact hnext ▸ hall (i + 1) (hnext ▸ hi)
    · rw [if_neg hmore]
      exact iff_of_true rfl fun i hi => absurd hi (by omega)

/-! ### The function -/

/-- **The check ends, and nothing overflows**: in both profiles, from some number of turns on, the
function returns. -/
theorem checkUserMemory_eq (user : UserMemory) (p : Profile) (ptr len : ℕ) :
    ∃ turns, ∀ fuel, turns ≤ fuel →
      user.checkUserMemory p fuel ptr len = some (user.isValidUserMemory ptr len) := by
  unfold checkUserMemory isValidUserMemory
  dsimp only
  split_ifs with hnull hlong hempty hhigh
  · exact ⟨0, fun _ _ => rfl⟩
  · exact ⟨0, fun _ _ => rfl⟩
  · exact ⟨0, fun _ _ => rfl⟩
  · exact ⟨0, fun _ _ => rfl⟩
  · refine ⟨((ptr + len - 1) / 4096 * 4096 - ptr / 4096 * 4096) / 4096 + 2, fun fuel hfuel => ?_⟩
    rw [Profile.sub_eq_some (by omega), Option.bind_some]
    exact checkPages_eq (by omega) (by omega) fuel (by omega)

theorem mem_pages_iff (hlen : 0 < len) {page : ℕ} :
    (page % 4096 = 0 ∧ ∃ b, ptr ≤ b ∧ b < ptr + len ∧ page ≤ b ∧ b < page + 4096) ↔
      ∃ i, ptr / 4096 * 4096 + i * 4096 ≤ (ptr + len - 1) / 4096 * 4096 ∧
        page = ptr / 4096 * 4096 + i * 4096 := by
  constructor
  · rintro ⟨haligned, b, hfrom, hto, hpage, hnext⟩
    exact ⟨page / 4096 - ptr / 4096, by omega, by omega⟩
  · rintro ⟨i, hlast, rfl⟩
    refine ⟨by omega, max ptr (ptr / 4096 * 4096 + i * 4096), by omega, by omega, by omega, ?_⟩
    omega

theorem isValidUserMemory_iff (hlen : 0 < len) :
    user.isValidUserMemory ptr len = true ↔
      ptr ≠ 0 ∧ len ≤ 2 ^ 63 - 1 ∧ ptr + len ≤ 0x00007FFFFFFFFFFF ∧
        ∀ page, page % 4096 = 0 →
          (∃ b, ptr ≤ b ∧ b < ptr + len ∧ page ≤ b ∧ b < page + 4096) →
          user.isUserPageMapped page = true := by
  unfold isValidUserMemory
  dsimp only
  split_ifs with hnull hlong hempty hhigh
  · exact iff_of_false not_false fun h => h.1 hnull
  · exact iff_of_false not_false fun h => absurd h.2.1 (by omega)
  · omega
  · exact iff_of_false not_false fun h => absurd h.2.2.1 (by omega)
  · have hend : min (ptr + len) (2 ^ 64 - 1) = ptr + len := by omega
    rw [hend, pagesMapped_iff (by omega)]
    constructor
    · intro hall
      refine ⟨hnull, by omega, by omega, fun page haligned hbyte => ?_⟩
      obtain ⟨i, hi, rfl⟩ := (mem_pages_iff hlen).mp ⟨haligned, hbyte⟩
      exact hall i hi
    · rintro ⟨-, -, -, hall⟩ i hi
      obtain ⟨haligned, hbyte⟩ := (mem_pages_iff hlen).mpr ⟨i, hi, rfl⟩
      exact hall _ haligned hbyte

theorem isValidUserMemory_part (h : user.isValidUserMemory ptr len = true) {o n : ℕ}
    (hpart : o + n ≤ len) : user.isValidUserMemory (ptr + o) n = true := by
  have hptr : ptr ≠ 0 := by
    rintro rfl
    cases h
  rcases Nat.eq_zero_or_pos n with rfl | hn
  · unfold isValidUserMemory
    rw [if_neg (by omega), if_neg (by decide), if_pos rfl]
  · obtain ⟨-, hlong, hhigh, hall⟩ := (isValidUserMemory_iff (by omega)).mp h
    refine (isValidUserMemory_iff hn).mpr ⟨by omega, by omega, by omega, ?_⟩
    rintro page haligned ⟨b, hfrom, hto, hpage⟩
    exact hall page haligned ⟨b, by omega, by omega, hpage⟩

end UserMemory

/-- **`is_valid_user_memory` covers the whole range.**  It ends without an overflow, and accepts a
range of bytes iff the range lies in the lower half and each of its pages is the user's. -/
theorem isValidUserMemory_covers_range (user : UserMemory) (ptr len : ℕ) :
    (∀ p, ∃ turns, ∀ fuel, turns ≤ fuel →
      user.checkUserMemory p fuel ptr len = some (user.isValidUserMemory ptr len)) ∧
    (0 < len →
      (user.isValidUserMemory ptr len = true ↔
        ptr ≠ 0 ∧ len ≤ 2 ^ 63 - 1 ∧ ptr + len ≤ 0x00007FFFFFFFFFFF ∧
          ∀ page, page % 4096 = 0 →
            (∃ b, ptr ≤ b ∧ b < ptr + len ∧ page ≤ b ∧ b < page + 4096) →
            user.isUserPageMapped page = true)) :=
  ⟨fun p => user.checkUserMemory_eq p ptr len, UserMemory.isValidUserMemory_iff⟩

end NwinOs.Core
