import Mathlib.Data.Nat.Notation
import Mathlib.Tactic.Common
import Mathlib.Data.List.Induction

/-!
# Ring buffers with one empty slot

A ring of `n` slots with two indices: items are put in at `tail` and taken out at `head`, both
indices wrap, and the ring is full when one more step of `tail` would reach `head`.  `Holds buffer
head tail xs` says that the slots from `head` up to `tail` hold `xs`, the oldest item first.  Every
pair of indices below `n` holds exactly one list (`holds_contents`, `Holds.eq_contents`); putting in
appends to it (`Holds.push`) and taking out removes its first item (`Holds.pop`).
-/

namespace NwinOs.Ring

variable {α : Type*} {n head tail : ℕ} {buffer : Vector α n} {xs ys : List α} {x : α}

/-- The slots from `head` up to `tail` hold `xs`. -/
structure Holds (buffer : Vector α n) (head tail : ℕ) (xs : List α) : Prop where
  head_lt : head < n
  length_lt : xs.length < n
  tail_eq : tail = (head + xs.length) % n
  items : ∀ i < xs.length, buffer[(head + i) % n]? = xs[i]?

/-- The items between the indices. -/
def contents (buffer : Vector α n) (head tail : ℕ) : List α :=
  (List.range ((tail + n - head) % n)).filterMap fun i => buffer[(head + i) % n]?

theorem mod_of_lt_two_mul {a : ℕ} (h : a < 2 * n) : a % n = if a < n then a else a - n := by
  split_ifs with hlt
  · exact Nat.mod_eq_of_lt hlt
  · rw [Nat.mod_eq_sub_mod (by omega), Nat.mod_eq_of_lt (by omega)]

theorem filterMap_range {f : ℕ → Option α} (h : ∀ i < xs.length, f i = xs[i]?) :
    (List.range xs.length).filterMap f = xs := by
  induction xs using List.reverseRecOn with
  | nil => rfl
  | append_singleton xs x ih =>
    rw [List.length_append, List.length_singleton] at h ⊢
    have hinit : (List.range xs.length).filterMap f = xs := ih fun i hi => by
      rw [h i (Nat.lt_succ_of_lt hi), List.getElem?_append_left hi]
    have hlast : f xs.length = some x := by
      rw [h xs.length (Nat.lt_succ_self _), List.getElem?_concat_length]
    rw [List.range_succ, List.filterMap_append, hinit, List.filterMap_cons_some hlast,
      List.filterMap_nil]

namespace Holds

theorem tail_lt (h : Holds buffer head tail xs) : tail < n := by
  have hn : 0 < n := Nat.zero_lt_of_lt h.head_lt
  rw [h.tail_eq]
  exact Nat.mod_lt _ hn

theorem nil (hhead : head < n) : Holds buffer head head [] where
  head_lt := hhead
  length_lt := Nat.zero_lt_of_lt hhead
  tail_eq := (Nat.mod_eq_of_lt hhead).symm
  items := fun i hi => absurd hi (Nat.not_lt_zero i)

variable (h : Holds buffer head tail xs)
include h

theorem length_eq : xs.length = (tail + n - head) % n := by
  have hhead := h.head_lt
  have hlength := h.length_lt
  have htail := h.tail_lt
  have heq := h.tail_eq
  rw [mod_of_lt_two_mul (by omega)] at heq
  rw [mod_of_lt_two_mul (by omega)]
  split_ifs at heq ⊢ <;> omega

theorem head_eq_tail_iff : head = tail ↔ xs = [] := by
  have hhead := h.head_lt
  have hlength := h.length_lt
  have heq := h.tail_eq
  rw [mod_of_lt_two_mul (by omega)] at heq
  rw [← List.length_eq_zero_iff]
  split_ifs at heq <;> omega

/-- **The ring is full** when all slots but one are in use. -/
theorem full_iff : (tail + 1) % n = head ↔ xs.length + 1 = n := by
  have hhead := h.head_lt
  have hlength := h.length_lt
  have htail := h.tail_lt
  have heq := h.tail_eq
  rw [mod_of_lt_two_mul (by omega)] at heq
  rw [mod_of_lt_two_mul (by omega)]
  split_ifs at heq ⊢ <;> omega

/-- **Putting an item in** at the tail. -/
theorem push (hroom : xs.length + 1 < n) (x : α) :
    Holds (buffer.set tail x h.tail_lt) head ((tail + 1) % n) (xs ++ [x]) where
  head_lt := h.head_lt
  length_lt := by
    rw [List.length_append, List.length_singleton]
    exact hroom
  tail_eq := by
    rw [h.tail_eq, Nat.mod_add_mod, List.length_append, List.length_singleton, Nat.add_assoc]
  items := by
    intro i hi
    have hhead := h.head_lt
    have heq := h.tail_eq
    rw [List.length_append, List.length_singleton] at hi
    rcases Nat.lt_succ_iff_lt_or_eq.mp hi with hold | rfl
    · -- an older item is in another slot
      have hne : tail ≠ (head + i) % n := by
        rw [heq, mod_of_lt_two_mul (by omega), mod_of_lt_two_mul (by omega)]
        split_ifs <;> omega
      rw [Vector.getElem?_set_ne h.tail_lt hne, h.items i hold, List.getElem?_append_left hold]
    · rw [← heq, Vector.getElem?_set_self h.tail_lt, List.getElem?_concat_length]

omit h

theorem front (h : Holds buffer head tail (x :: xs)) : buffer[head]? = some x := by
  have hfirst := h.items 0 (Nat.zero_lt_succ _)
  rwa [Nat.add_zero, Nat.mod_eq_of_lt h.head_lt, List.getElem?_cons_zero] at hfirst

/-- **Taking the oldest item out.** -/
theorem pop (h : Holds buffer head tail (x :: xs)) : Holds buffer ((head + 1) % n) tail xs where
  head_lt := Nat.mod_lt _ (Nat.zero_lt_of_lt h.head_lt)
  length_lt := Nat.lt_of_succ_lt h.length_lt
  tail_eq := by
    rw [h.tail_eq, Nat.mod_add_mod, List.length_cons, Nat.add_assoc, Nat.add_comm 1]
  items := by
    intro i hi
    have hnext := h.items (i + 1) (Nat.succ_lt_succ hi)
    rwa [List.getElem?_cons_succ, Nat.add_comm i, ← Nat.add_assoc, ← Nat.mod_add_mod] at hnext

theorem eq_contents (h : Holds buffer head tail xs) : xs = contents buffer head tail := by
  rw [contents, ← h.length_eq, filterMap_range h.items]

end Holds

/-- **Every pair of indices holds what is between them.** -/
theorem holds_contents (hhead : head < n) (htail : tail < n) :
    Holds buffer head tail (contents buffer head tail) := by
  have hn : 0 < n := Nat.zero_lt_of_lt hhead
  have hholds : Holds buffer head tail (List.ofFn fun i : Fin ((tail + n - head) % n) =>
      buffer.get ⟨(head + i) % n, Nat.mod_lt _ hn⟩) := by
    constructor
    · exact hhead
    · rw [List.length_ofFn]
      exact Nat.mod_lt _ hn
    · rw [List.length_ofFn, Nat.add_mod_mod, Nat.add_sub_cancel' (by omega), Nat.add_mod_right,
        Nat.mod_eq_of_lt htail]
    · intro i hi
      rw [List.length_ofFn] at hi
      rw [List.getElem?_ofFn, dif_pos hi, Vector.getElem?_eq_getElem (Nat.mod_lt _ hn)]
      rfl
  rw [← hholds.eq_contents]
  exact hholds

end NwinOs.Ring
