import NwinOs.Bytes
import NwinOs.Paging

/-!
# The bytes of a frame

A frame that is read as a page table is 512 entries of eight bytes; `PageTableEntry.toNat` and
`PageTableEntry.ofNat` are the format of an entry.  `Memory.bytes` reads a frame as bytes and
`Memory.store` overwrites some of them; `bytes_store` says that what was stored is what is read.
-/

namespace NwinOs

theorem Bytes.le_div_pow {bs : List Byte} : ∀ {k : ℕ} (h : k < bs.length),
    Bytes.le bs / 256 ^ k % 256 = bs[k].toNat := by
  induction bs with
  | nil => exact fun h => absurd h (Nat.not_lt_zero _)
  | cons b bs ih =>
    intro k h
    rw [Bytes.le]
    cases k with
    | zero =>
      rw [Nat.pow_zero, Nat.div_one, List.getElem_cons_zero]
      omega
    | succ k =>
      have hrest : (b.toNat + 256 * Bytes.le bs) / 256 = Bytes.le bs := by omega
      rw [Nat.pow_succ', ← Nat.div_div_eq_div_mul, hrest, List.getElem_cons_succ]
      exact ih (by simpa using h)

end NwinOs

namespace NwinOs.Paging

/-! ### Entries -/

namespace PageTableEntry

/-- The entry that eight bytes spell.  Bits 12 to 51 are the frame; the other bits that do not
decide a walk (3 to 6, 8 to 11, 52 to 63) make up `rest`. -/
def ofNat (v : ℕ) : PageTableEntry where
  frame := v / 4096 % 2 ^ 40
  present := v % 2 = 1
  writable := v / 2 % 2 = 1
  userAccessible := v / 4 % 2 = 1
  hugePage := v / 128 % 2 = 1
  rest := v / 8 % 16 + 16 * (v / 256 % 16) + 256 * (v / 2 ^ 52 % 2 ^ 12)

/-- The number that the eight bytes of an entry spell. -/
def toNat (e : PageTableEntry) : ℕ :=
  e.present.toNat + 2 * e.writable.toNat + 4 * e.userAccessible.toNat + 8 * (e.rest % 16) +
    128 * e.hugePage.toNat + 256 * (e.rest / 16 % 16) + 4096 * (e.frame % 2 ^ 40) +
    2 ^ 52 * (e.rest / 256 % 2 ^ 12)

@[simp] theorem toNat_unused : unused.toNat = 0 := rfl

theorem toNat_ofNat {v : ℕ} (h : v < 2 ^ 64) : (ofNat v).toNat = v := by
  have hbit : ∀ n : ℕ, (decide (n % 2 = 1)).toNat = n % 2 := by
    intro n
    rcases Nat.mod_two_eq_zero_or_one n with h0 | h1
    · rw [h0]
      rfl
    · rw [h1]
      rfl
  -- the number, field by field
  have hfield : ∀ d q : ℕ, v / d = v / d % q + q * (v / (d * q)) := by
    intro d q
    rw [← Nat.div_div_eq_div_mul, Nat.mod_add_div]
  have h3 := hfield 8 16
  have h8 := hfield 256 16
  have h12 := hfield 4096 (2 ^ 40)
  have h52 : v / 2 ^ 52 % 2 ^ 12 = v / 2 ^ 52 := Nat.mod_eq_of_lt (by omega)
  simp only [toNat, ofNat, hbit, Nat.mod_mod, h52]
  generalize v / 8 % 16 = low at *
  generalize v / 256 % 16 = mid at *
  have hrest2 : (low + 16 * mid + 256 * (v / 2 ^ 52)) / 16 % 16 = mid := by omega
  have hrest3 : (low + 16 * mid + 256 * (v / 2 ^ 52)) / 256 = v / 2 ^ 52 := by omega
  omega

end PageTableEntry

/-! ### Frames -/

/-- The bytes of a table. -/
def tableBytes (t : ℕ → PageTableEntry) : Bytes :=
  fun o => BitVec.ofNat 8 ((t (o / 8)).toNat / 256 ^ (o % 8))

/-- The table that the bytes spell. -/
def tableOf (b : Bytes) : ℕ → PageTableEntry := fun i => .ofNat (b.get (8 * i) 8)

theorem tableBytes_unused : tableBytes (fun _ => .unused) = fun _ => 0 := by
  ext1 o
  rw [tableBytes, PageTableEntry.toNat_unused, Nat.zero_div]
  rfl

/-- **Bytes read as a table are the same bytes.** -/
theorem tableBytes_tableOf (b : Bytes) : tableBytes (tableOf b) = b := by
  ext1 o
  have hlt : b.get (8 * (o / 8)) 8 < 2 ^ 64 := b.get_lt (8 * (o / 8)) 8
  have hlen : o % 8 < (b.slice (8 * (o / 8)) 8).length := by
    rw [Bytes.length_slice]
    omega
  have hbyte : (b.slice (8 * (o / 8)) 8)[o % 8]? = some (b o) := by
    rw [Bytes.getElem?_slice, if_pos (by omega), Nat.div_add_mod]
  rw [tableBytes, tableOf, PageTableEntry.toNat_ofNat hlt]
  apply BitVec.eq_of_toNat_eq
  rw [BitVec.toNat_ofNat, Bytes.get]
  rw [Bytes.le_div_pow hlen]
  rw [List.getElem?_eq_getElem hlen] at hbyte
  rw [Option.some.inj hbyte]

namespace Memory

/-- The bytes of a frame. -/
def bytes (mem : Memory) (frame : ℕ) : Bytes := tableBytes (mem frame)

/-- Stores bytes into a frame. -/
def store (mem : Memory) (frame offset : ℕ) (src : List Byte) : Memory :=
  Function.update mem frame (tableOf ((mem.bytes frame).splice offset src))

variable {mem : Memory} {frame f offset : ℕ} {src : List Byte}

theorem store_of_ne (h : f ≠ frame) : mem.store frame offset src f = mem f :=
  Function.update_of_ne h ..

theorem bytes_store : (mem.store frame offset src).bytes frame =
    (mem.bytes frame).splice offset src := by
  rw [bytes, store, Function.update_self, tableBytes_tableOf]

theorem bytes_of_clear (h : mem frame = fun _ => .unused) : mem.bytes frame = fun _ => 0 := by
  rw [bytes, h, tableBytes_unused]

theorem bytes_congr {mem' : Memory} (h : mem' f = mem f) : mem'.bytes f = mem.bytes f :=
  congrArg tableBytes h

end Memory

end NwinOs.Paging
