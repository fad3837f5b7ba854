import Mathlib.Data.BitVec
import Mathlib.Tactic.Linarith

/-!
# Byte buffers and little-endian numbers

A buffer is a function from offsets to bytes.  `slice` reads a run of bytes, `splice` overwrites
one; `le` and `leBytes` convert between runs of bytes and numbers.
-/

namespace NwinOs

open List

/-- A byte. -/
abbrev Byte := BitVec 8

/-- The contents of a buffer, by offset. -/
abbrev Bytes := ℕ → Byte

namespace Bytes

/-! ### Little-endian numbers -/

/-- The number that a run of bytes spells, least significant byte first. -/
def le : List Byte → ℕ
  | [] => 0
  | b :: bs => b.toNat + 256 * le bs

/-- The first `w` bytes of a number. -/
def leBytes : ℕ → ℕ → List Byte
  | 0, _ => []
  | w + 1, n => BitVec.ofNat 8 n :: leBytes w (n / 256)

@[simp] theorem length_leBytes (w n : ℕ) : (leBytes w n).length = w := by
  induction w generalizing n with
  | zero => rfl
  | succ w ih => rw [leBytes, length_cons, ih]

theorem le_lt (bs : List Byte) : le bs < 256 ^ bs.length := by
  induction bs with
  | nil => decide
  | cons b bs ih =>
    rw [le, length_cons, Nat.pow_succ]
    omega

theorem le_leBytes (w n : ℕ) : le (leBytes w n) = n % 256 ^ w := by
  induction w generalizing n with
  | zero => rw [leBytes, le, Nat.pow_zero, Nat.mod_one]
  | succ w ih =>
    rw [leBytes, le, ih, Nat.pow_succ, Nat.mul_comm (256 ^ w) 256, Nat.mod_mul]
    simp

/-! ### Runs of bytes -/

/-- The `n` bytes from offset `o` on. -/
def slice (b : Bytes) (o n : ℕ) : List Byte := (List.range n).map fun i => b (o + i)

/-- The buffer with a run of bytes put at offset `o`. -/
def splice (b : Bytes) (o : ℕ) (src : List Byte) : Bytes :=
  fun i => if o ≤ i then (src[i - o]?).getD (b i) else b i

/-- The `w`-byte number at offset `o`. -/
def get (b : Bytes) (o w : ℕ) : ℕ := le (b.slice o w)

/-- The buffer with a `w`-byte number put at offset `o`. -/
def put (b : Bytes) (o w n : ℕ) : Bytes := b.splice o (leBytes w n)

/-- The buffer with several numbers put into it, each given by place, width and value. -/
def putAll (b : Bytes) (fields : List (ℕ × ℕ × ℕ)) : Bytes :=
  fields.foldl (fun b field => b.put field.1 field.2.1 field.2.2) b

variable {b b' : Bytes} {o o' n w i : ℕ} {src : List Byte} {fields : List (ℕ × ℕ × ℕ)}

@[simp] theorem length_slice (b : Bytes) (o n : ℕ) : (b.slice o n).length = n := by
  simp [slice]

theorem getElem?_slice : (b.slice o n)[i]? = if i < n then some (b (o + i)) else none := by
  unfold slice
  by_cases h : i < n
  · rw [if_pos h, getElem?_map, getElem?_range h]
    rfl
  · rw [if_neg h, getElem?_eq_none]
    simpa using h

theorem slice_congr (h : ∀ i, o ≤ i → i < o + n → b i = b' (i + o' - o)) :
    b.slice o n = b'.slice o' n := by
  apply ext_getElem?
  intro i
  rw [getElem?_slice, getElem?_slice]
  by_cases hi : i < n
  · have := h (o + i) (by omega) (by omega)
    rw [if_pos hi, if_pos hi, this]
    congr 2
    omega
  · rw [if_neg hi, if_neg hi]

theorem slice_eq_map_range' (b : Bytes) (o n : ℕ) : b.slice o n = (List.range' o n).map b := by
  rw [slice, range'_eq_map_range, map_map]
  rfl

theorem slice_add (b : Bytes) (o m n : ℕ) :
    b.slice o (m + n) = b.slice o m ++ b.slice (o + m) n := by
  simp only [slice_eq_map_range', ← range'_append_1, map_append]

theorem take_slice (b : Bytes) (o n k : ℕ) : (b.slice o n).take k = b.slice o (min k n) := by
  rw [slice, slice, ← map_take, take_range]

theorem drop_slice (b : Bytes) (o n k : ℕ) : (b.slice o n).drop k = b.slice (o + k) (n - k) := by
  rw [slice_eq_map_range', slice_eq_map_range', ← map_drop, drop_range', Nat.mul_one]

theorem head?_of_slice_eq {bs : List Byte} (h : b.slice o n = bs) (hn : 0 < n) :
    bs.head? = some (b o) := by
  rw [← h, head?_eq_getElem?, getElem?_slice, if_pos hn, Nat.add_zero]

theorem eq_of_slice_eq_replicate {v : Byte} (h : b.slice o n = List.replicate n v) (hn : 0 < n) :
    b o = v := by
  have hfirst := head?_of_slice_eq h hn
  rw [head?_replicate, if_neg hn.ne', Option.some.injEq] at hfirst
  exact hfirst.symm

theorem slice_of_slice_eq {k m : ℕ} (h : b.slice o n = b'.slice o' n) (hm : k + m ≤ n) :
    b.slice (o + k) m = b'.slice (o' + k) m := by
  have hpart := congrArg (fun run => (run.drop k).take m) h
  simp only [drop_slice, take_slice, Nat.min_eq_left (show m ≤ n - k by omega)] at hpart
  exact hpart

theorem slice_eq_append_iff {xs ys : List Byte} :
    b.slice o (xs ++ ys).length = xs ++ ys ↔
      b.slice o xs.length = xs ∧ b.slice (o + xs.length) ys.length = ys := by
  rw [length_append, slice_add]
  constructor
  · intro h
    exact append_inj h (length_slice ..)
  · rintro ⟨hxs, hys⟩
    rw [hxs, hys]

theorem splice_of_outside (h : i < o ∨ o + src.length ≤ i) : b.splice o src i = b i := by
  unfold splice
  by_cases ho : o ≤ i
  · rw [if_pos ho, getElem?_eq_none (by omega), Option.getD_none]
  · rw [if_neg ho]

theorem splice_of_inside (h : i < src.length) : b.splice o src (o + i) = src[i] := by
  unfold splice
  rw [if_pos (Nat.le_add_right o i), Nat.add_sub_cancel_left, getElem?_eq_getElem h,
    Option.getD_some]

theorem slice_splice (b : Bytes) (o : ℕ) (src : List Byte) :
    (b.splice o src).slice o src.length = src := by
  apply ext_getElem?
  intro i
  rw [getElem?_slice]
  by_cases hi : i < src.length
  · rw [if_pos hi, splice_of_inside hi, getElem?_eq_getElem hi]
  · rw [if_neg hi, getElem?_eq_none (by omega)]

theorem slice_splice_of_disjoint (h : o' + n ≤ o ∨ o + src.length ≤ o') :
    (b.splice o src).slice o' n = b.slice o' n := by
  apply slice_congr
  intro i h1 h2
  rw [splice_of_outside (by omega)]
  congr 1
  omega

theorem splice_shift {d : ℕ} (h : b i = b' (d + i)) :
    b.splice o src i = b'.splice (d + o) src (d + i) := by
  unfold splice
  by_cases ho : o ≤ i
  · rw [if_pos ho, if_pos (by omega), Nat.add_sub_add_left, h]
  · rw [if_neg ho, if_neg (by omega), h]

theorem splice_nil : b.splice o [] = b := by
  ext1 i
  exact splice_of_outside (by simp; omega)

theorem splice_append {xs ys : List Byte} :
    b.splice o (xs ++ ys) = (b.splice o xs).splice (o + xs.length) ys := by
  ext1 i
  unfold splice
  by_cases ho : o ≤ i
  · by_cases hxs : o + xs.length ≤ i
    · rw [if_pos ho, if_pos hxs, if_pos ho, getElem?_append_right (by omega),
        getElem?_eq_none (show xs.length ≤ i - o by omega), Option.getD_none]
      congr 2
      omega
    · rw [if_pos ho, if_neg hxs, if_pos ho, getElem?_append_left (by omega)]
  · rw [if_neg ho, if_neg (by omega), if_neg ho]

theorem get_lt (b : Bytes) (o w : ℕ) : b.get o w < 256 ^ w := by
  have := le_lt (b.slice o w)
  rwa [length_slice] at this

theorem get_congr (h : ∀ i, o ≤ i → i < o + w → b i = b' i) : b.get o w = b'.get o w := by
  have hslice : b.slice o w = b'.slice o w := by
    apply slice_congr
    intro i h1 h2
    rw [h i h1 h2]
    congr 1
    omega
  rw [get, get, hslice]

theorem get_put : (b.put o w n).get o w = n % 256 ^ w := by
  unfold get put
  have hlen : (leBytes w n).length = w := length_leBytes w n
  have hslice := slice_splice b o (leBytes w n)
  rw [hlen] at hslice
  rw [hslice, le_leBytes]

theorem put_of_outside (h : i < o ∨ o + w ≤ i) : b.put o w n i = b i :=
  splice_of_outside (by simpa using h)

theorem get_splice_of_disjoint (h : o' + w ≤ o ∨ o + src.length ≤ o') :
    (b.splice o src).get o' w = b.get o' w :=
  get_congr fun i h1 h2 => splice_of_outside (by omega)

theorem get_put_of_disjoint {w' : ℕ} (h : o' + w' ≤ o ∨ o + w ≤ o') :
    (b.put o w n).get o' w' = b.get o' w' :=
  get_splice_of_disjoint (by simpa using h)

theorem putAll_cons (f : ℕ × ℕ × ℕ) (fields : List (ℕ × ℕ × ℕ)) :
    b.putAll (f :: fields) = (b.put f.1 f.2.1 f.2.2).putAll fields := rfl

theorem putAll_of_outside
    (h : ∀ f ∈ fields, i < f.1 ∨ f.1 + f.2.1 ≤ i) : b.putAll fields i = b i := by
  induction fields generalizing b with
  | nil => rfl
  | cons f fields ih =>
    rw [putAll_cons, ih fun g hg => h g (mem_cons_of_mem _ hg)]
    exact put_of_outside (h f mem_cons_self)

theorem get_putAll_of_disjoint
    (h : ∀ f ∈ fields, o + w ≤ f.1 ∨ f.1 + f.2.1 ≤ o) : (b.putAll fields).get o w = b.get o w :=
  get_congr fun i h1 h2 => putAll_of_outside fun f hf => by have := h f hf; omega

theorem get_putAll
    (hp : fields.Pairwise fun f g => f.1 + f.2.1 ≤ g.1) {f : ℕ × ℕ × ℕ} (hf : f ∈ fields) :
    (b.putAll fields).get f.1 f.2.1 = f.2.2 % 256 ^ f.2.1 := by
  induction fields generalizing b with
  | nil => cases hf
  | cons g fields ih =>
    obtain ⟨hg, hp⟩ := pairwise_cons.mp hp
    rw [putAll_cons]
    rcases mem_cons.mp hf with rfl | hf
    · rw [get_putAll_of_disjoint fun g' hg' => .inl (hg g' hg'), get_put]
    · exact ih hp hf

theorem splice_slice_of_lt {c : Bytes} (h : i < n) : c.splice 0 (b.slice 0 n) i = b i := by
  unfold splice
  rw [if_pos (Nat.zero_le i), Nat.sub_zero, getElem?_slice, if_pos h, Option.getD_some,
    Nat.zero_add]

end Bytes

end NwinOs
