import NwinOs.Fs.BlockDevice
import Mathlib.Data.List.DropRight

/-!
# String slices

The functions of `str` and of the integer types that the filesystem code calls on text that comes
from disk or from a user: decoding, trimming and parsing numbers.  They work on the characters of a
`String`, whose bytes are `nameBytes`.
-/

namespace NwinOs.Fs

open List

/-- `core::str::from_utf8`. -/
def fromUtf8 (bytes : List Byte) : Option String :=
  String.fromUTF8? (bytes.map UInt8.ofBitVec).toByteArray

/-- The Unicode property `White_Space`. -/
def isWhitespace (c : Char) : Bool :=
  (9 ≤ c.toNat && c.toNat ≤ 13) || (0x2000 ≤ c.toNat && c.toNat ≤ 0x200A) ||
    [0x20, 0x85, 0xA0, 0x1680, 0x2028, 0x2029, 0x202F, 0x205F, 0x3000].contains c.toNat

/-- `str::trim`. -/
def trim (s : String) : String :=
  .ofList ((s.toList.dropWhile isWhitespace).rdropWhile isWhitespace)

/-- `str::trim_start_matches` with a character. -/
def trimStartMatches (s : String) (c : Char) : String := .ofList (s.toList.dropWhile (· == c))

/-- The non-empty parts of `str::split` with a character. -/
def components (s : String) (c : Char) : List String :=
  ((s.toList.splitOn c).filter fun part => !part.isEmpty).map .ofList

/-- `char::to_digit`. -/
def toDigit (radix : ℕ) (c : Char) : Option ℕ :=
  let d :=
    if c.isDigit then c.toNat - 48
    else if c.isLower then c.toNat - 87
    else if c.isUpper then c.toNat - 55
    else radix
  if d < radix then some d else none

/-- The digit loop of `from_str_radix`. -/
def parseDigits (radix : ℕ) : List Char → ℕ → Option ℕ
  | [], value => some value
  | c :: cs, value => do
    let d ← toDigit radix c
    let value := value * radix + d
    if value < 2 ^ 64 then parseDigits radix cs value else none

/-- `usize::from_str_radix`: one leading `+` is allowed, and there must be a digit. -/
def fromStrRadix (s : String) (radix : ℕ) : Option ℕ :=
  match s.toList with
  | [] => none
  | ['+'] => none
  | '+' :: digits => parseDigits radix digits 0
  | digits => parseDigits radix digits 0

/-! ### Components -/

/-- What a string is split into: parts that are not empty and do not contain the separator. -/
def IsComponent (c : Char) (part : String) : Prop := part.toList ≠ [] ∧ c ∉ part.toList

variable {c : Char} {cs : List Char}

theorem notMem_of_mem_splitOn {part : List Char} (h : part ∈ cs.splitOn c) : c ∉ part := by
  induction cs generalizing part with
  | nil =>
    rw [splitOn_nil, mem_singleton] at h
    rw [h]
    exact not_mem_nil
  | cons d cs ih =>
    rw [splitOn_cons_eq_if_modifyHead] at h
    split_ifs at h with hd
    · rcases mem_cons.mp h with rfl | hrest
      · exact not_mem_nil
      · exact ih hrest
    · -- the first character belongs to the first part
      cases hsplit : cs.splitOn c with
      | nil => exact absurd hsplit (splitOn_ne_nil c cs)
      | cons first rest =>
        rw [hsplit, modifyHead_cons, mem_cons] at h
        rcases h with rfl | hrest
        · have hfirst : c ∉ first := ih (by rw [hsplit]; exact mem_cons_self)
          rw [mem_cons, not_or]
          exact ⟨fun he => hd (beq_iff_eq.mpr he.symm), hfirst⟩
        · exact ih (by rw [hsplit]; exact mem_cons_of_mem _ hrest)

variable {s part : String} {radix : ℕ}

theorem mem_components (h : part ∈ components s c) : IsComponent c part := by
  obtain ⟨cs, hcs, rfl⟩ := mem_map.mp h
  obtain ⟨hsplit, hne⟩ := mem_filter.mp hcs
  rw [IsComponent, String.toList_ofList]
  refine ⟨?_, ?_⟩
  · rintro rfl
    cases hne
  · exact notMem_of_mem_splitOn hsplit

theorem components_of_isComponent (h : IsComponent c part) : components part c = [part] := by
  have hne : (!part.toList.isEmpty) = true := by
    rw [Bool.not_eq_true', isEmpty_eq_false_iff]
    exact h.1
  rw [components, splitOn_eq_singleton h.2, filter_cons, if_pos hne, filter_nil,
    map_singleton, String.ofList_toList]

theorem components_append {sep t : String} (hsep : sep.toList = [c]) :
    components (s ++ sep ++ t) c = components s c ++ components t c := by
  have hlist : (s ++ sep ++ t).toList = s.toList ++ c :: t.toList := by
    rw [String.toList_append, String.toList_append, hsep, append_assoc, singleton_append]
  rw [components, hlist, splitOn_append_cons_self, filter_append, map_append]
  rfl

/-! ### Bytes and characters -/

theorem nameBytes_injective : Function.Injective nameBytes := by
  intro a b h
  have hbytes : a.toByteArray.data.toList = b.toByteArray.data.toList :=
    map_injective_iff.mpr (fun _ _ => UInt8.toBitVec_inj.mp) h
  apply String.toByteArray_inj.mp
  apply ByteArray.ext
  exact Array.toList_inj.mp hbytes

theorem fromUtf8_nameBytes (s : String) : fromUtf8 (nameBytes s) = some s := by
  have hbytes : ((nameBytes s).map UInt8.ofBitVec).toByteArray = s.toByteArray := by
    apply ByteArray.ext
    rw [data_toByteArray, nameBytes, map_map]
    have hid : UInt8.ofBitVec ∘ UInt8.toBitVec = id := rfl
    rw [hid, map_id, Array.toArray_toList]
  unfold fromUtf8 String.fromUTF8?
  rw [hbytes, dif_pos s.isValidUTF8]
  rfl

theorem nameBytes_ofList (h : ∀ c ∈ cs, c.toNat < 128) :
    nameBytes (.ofList cs) = cs.map fun c => BitVec.ofNat 8 c.toNat := by
  unfold nameBytes
  rw [String.toByteArray_ofList, List.utf8Encode, data_toByteArray]
  induction cs with
  | nil => rfl
  | cons c cs ih =>
    have hsize : c.utf8Size = 1 := by
      rw [Char.utf8Size_eq_one_iff, UInt32.le_iff_toNat_le]
      have := h c mem_cons_self
      exact Nat.le_of_lt_succ this
    rw [flatMap_cons, String.utf8EncodeChar_eq_singleton hsize, map_cons,
      ← ih fun d hd => h d (mem_cons_of_mem _ hd)]
    rfl

/-! ### Trimming and parsing -/

/-- What is not white space and starts and ends the text stays, white space behind it goes. -/
theorem trim_append {ds : List Char} (hcs : ∀ c ∈ cs, isWhitespace c = false)
    (hds : ∀ c ∈ ds, isWhitespace c = true) : trim (.ofList (cs ++ ds)) = .ofList cs := by
  have hkept : ∀ l : List Char, (∀ c ∈ l, isWhitespace c = false) →
      l.dropWhile isWhitespace = l := by
    intro l hl
    apply dropWhile_eq_self_iff.mpr
    intro hpos
    rw [hl _ (getElem_mem hpos)]
    exact Bool.false_ne_true
  unfold trim
  rw [String.toList_ofList]
  cases cs with
  | nil =>
    rw [nil_append, dropWhile_eq_nil_iff.mpr hds]
    rfl
  | cons c cs =>
    have hfirst : ((c :: cs) ++ ds).dropWhile isWhitespace = (c :: cs) ++ ds := by
      rw [cons_append, dropWhile_cons_of_neg]
      rw [hcs c mem_cons_self]
      exact Bool.false_ne_true
    rw [hfirst, List.rdropWhile, reverse_append,
      dropWhile_append_of_pos fun d hd => hds d (mem_reverse.mp hd),
      hkept _ fun d hd => hcs d (mem_reverse.mp hd), reverse_reverse]

theorem mem_trim (hc : c ∈ s.toList) (hkept : isWhitespace c = false) : c ∈ (trim s).toList := by
  have hdrop : ∀ l : List Char, c ∈ l → c ∈ l.dropWhile isWhitespace := by
    intro l hl
    rw [← takeWhile_append_dropWhile (p := isWhitespace) (l := l), mem_append] at hl
    refine hl.resolve_left fun htake => ?_
    rw [mem_takeWhile_imp htake] at hkept
    cases hkept
  unfold trim
  rw [String.toList_ofList, List.rdropWhile, mem_reverse]
  exact hdrop _ (mem_reverse.mpr (hdrop _ hc))

theorem parseDigits_of_mem (hc : c ∈ cs)
    (hdigit : toDigit radix c = none) (value : ℕ) : parseDigits radix cs value = none := by
  induction cs generalizing value with
  | nil => cases hc
  | cons d cs ih =>
    rw [parseDigits]
    rcases mem_cons.mp hc with rfl | hc
    · rw [hdigit]
      rfl
    · cases toDigit radix d with
      | none => rfl
      | some d =>
        simp only [Option.bind_eq_bind, Option.bind_some, ih hc, ite_self]

theorem fromStrRadix_of_mem (hc : c ∈ s.toList)
    (hdigit : toDigit radix c = none) (hsign : c ≠ '+') : fromStrRadix s radix = none := by
  unfold fromStrRadix
  split
  · rfl
  · rfl
  · rename_i hdigits
    rw [hdigits, mem_cons] at hc
    exact parseDigits_of_mem (hc.resolve_left hsign) hdigit 0
  · exact parseDigits_of_mem hc hdigit 0

/-! ### Octal digits -/

/-- A number in `w` octal digits. -/
def octalDigits : ℕ → ℕ → List Char
  | 0, _ => []
  | w + 1, n => octalDigits w (n / 8) ++ [Char.ofNat (48 + n % 8)]

@[simp] theorem length_octalDigits (w n : ℕ) : (octalDigits w n).length = w := by
  induction w generalizing n with
  | zero => rfl
  | succ w ih => rw [octalDigits, length_append, ih, length_singleton]

variable {w n : ℕ}

theorem mem_octalDigits (h : c ∈ octalDigits w n) : ∃ d, d < 8 ∧ c = Char.ofNat (48 + d) := by
  induction w generalizing n with
  | zero => simp [octalDigits] at h
  | succ w ih =>
    rw [octalDigits, mem_append, mem_singleton] at h
    rcases h with h | h
    · exact ih h
    · exact ⟨n % 8, Nat.mod_lt n (by decide), h⟩

theorem octalDigit_facts : ∀ d < 8, (Char.ofNat (48 + d)).toNat < 128 ∧
    isWhitespace (Char.ofNat (48 + d)) = false ∧ Char.ofNat (48 + d) ≠ '+' ∧
      toDigit 8 (Char.ofNat (48 + d)) = some d := by
  decide

theorem parseDigits_append (radix : ℕ) (cs ds : List Char) (value : ℕ) :
    parseDigits radix (cs ++ ds) value = (parseDigits radix cs value).bind
      (parseDigits radix ds) := by
  induction cs generalizing value with
  | nil => rfl
  | cons c cs ih =>
    rw [cons_append, parseDigits, parseDigits]
    cases toDigit radix c with
    | none => rfl
    | some d =>
      simp only [Option.bind_eq_bind, Option.bind_some]
      split_ifs
      · exact ih _
      · rfl

theorem parseDigits_octalDigits (hw : 8 ^ w ≤ 2 ^ 64) (hn : n < 8 ^ w) :
    parseDigits 8 (octalDigits w n) 0 = some n := by
  induction w generalizing n with
  | zero =>
    have hzero : n = 0 := by simpa using hn
    rw [hzero]
    rfl
  | succ w ih =>
    have hrest := @ih (n / 8) (by omega) (by omega)
    have hdigit := (octalDigit_facts (n % 8) (Nat.mod_lt n (by decide))).2.2.2
    rw [octalDigits, parseDigits_append, hrest, Option.bind_some, parseDigits, hdigit,
      Option.bind_eq_bind, Option.bind_some, Nat.div_add_mod' n 8]
    rw [if_pos (by omega), parseDigits]

theorem fromStrRadix_octalDigits (hw : 8 ^ (w + 1) ≤ 2 ^ 64) (hn : n < 8 ^ (w + 1)) :
    fromStrRadix (.ofList (octalDigits (w + 1) n)) 8 = some n := by
  have hparse := parseDigits_octalDigits hw hn
  unfold fromStrRadix
  rw [String.toList_ofList]
  cases hcs : octalDigits (w + 1) n with
  | nil =>
    have hlength := length_octalDigits (w + 1) n
    simp [hcs] at hlength
  | cons c cs =>
    rw [hcs] at hparse
    -- the first digit is not the sign
    obtain ⟨d, hd, hc⟩ := mem_octalDigits (hcs ▸ mem_cons_self : c ∈ octalDigits (w + 1) n)
    have hsign : c ≠ '+' := hc ▸ (octalDigit_facts d hd).2.2.1
    split
    · contradiction
    · simp_all
    · simp_all
    · exact hparse

theorem trim_octalDigits (w n : ℕ) :
    trim (.ofList (octalDigits w n)) = .ofList (octalDigits w n) := by
  have hdigits : ∀ c ∈ octalDigits w n, isWhitespace c = false := by
    intro c hc
    obtain ⟨d, hd, rfl⟩ := mem_octalDigits hc
    exact (octalDigit_facts d hd).2.1
  have htrim := trim_append hdigits (forall_mem_nil _)
  rwa [append_nil] at htrim

end NwinOs.Fs
