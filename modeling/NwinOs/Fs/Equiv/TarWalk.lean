import NwinOs.Fs.Equiv.Vfs

/-!
# The walk over the headers of an archive

Both scans of the initramfs visit the same headers.  `TarContext.headersFrom` lists their offsets;
it recurses on the bytes that are left and needs no fuel, so the equations `findFile_eq_slice` and
`buildVfsTreeFromTar_eq_slices` also say that the scans end.

* `slices_inside_iff`: every slice that a scan makes is inside the archive iff the last header that
  is visited leaves room for its payload.  An earlier payload that is too long would end the walk.
* `walk_in_step_iff`: for archives whose size fields are octal digits and a terminator, the visited
  offsets are those of the archive's headers iff no size is terminated by a NUL in the eleven bytes
  that are parsed, unless the size is zero or the walk happens to end there.
-/

namespace NwinOs.Fs

open Bytes List

namespace TarContext

variable {ctx : TarContext} {offset o : ℕ}

/-! ### The visited headers -/

variable (ctx)

theorem le_nextOffset (offset : ℕ) :
    offset + 512 + ctx.fileSize offset ≤ ctx.nextOffset offset := by
  unfold nextOffset
  dsimp only
  omega

/-- The scans interpret the bytes at `offset` as a header. -/
def IsVisited (offset : ℕ) : Prop :=
  offset + 512 ≤ ctx.size ∧ ctx.ptr offset ≠ 0

instance (ctx : TarContext) (offset : ℕ) : Decidable (ctx.IsVisited offset) :=
  inferInstanceAs (Decidable (_ ∧ _))

/-- The offsets of the headers that are visited from `offset` on. -/
def headersFrom (ctx : TarContext) (offset : ℕ) : List ℕ :=
  if ctx.IsVisited offset then offset :: headersFrom ctx (ctx.nextOffset offset) else []
termination_by ctx.size - offset
decreasing_by
  rename_i hvisited
  have := ctx.le_nextOffset offset
  have := hvisited.1
  omega

/-- The offsets of the headers that `findFile` visits from `offset` on: it stops at the name. -/
def findHeadersFrom (ctx : TarContext) (filename : String) (offset : ℕ) : List ℕ :=
  if ctx.IsVisited offset then
    if ctx.currentFilename offset = filename then [offset]
    else offset :: findHeadersFrom ctx filename (ctx.nextOffset offset)
  else []
termination_by ctx.size - offset
decreasing_by
  rename_i hvisited _
  have := ctx.le_nextOffset offset
  have := hvisited.1
  omega

theorem findHeadersFrom_eq (filename : String) (offset : ℕ) :
    ctx.findHeadersFrom filename offset = (ctx.headersFrom offset).take
      ((ctx.headersFrom offset).findIdx (fun o => ctx.currentFilename o == filename) + 1) := by
  induction offset using headersFrom.induct ctx with
  | case1 offset hvisited ih =>
    rw [findHeadersFrom, headersFrom, if_pos hvisited, if_pos hvisited, findIdx_cons]
    by_cases hname : ctx.currentFilename offset = filename
    · simp [hname]
    · rw [if_neg hname, ih, beq_eq_false_iff_ne.mpr hname, cond_false, take_succ_cons]
  | case2 offset hvisited =>
    rw [findHeadersFrom, headersFrom, if_neg hvisited, if_neg hvisited]
    rfl

variable {ctx}

/-- With as much fuel as the archive has bytes, the scans visit all of these headers. -/
theorem entriesLoop_eq_headers {fuel : ℕ} (hfuel : ctx.size ≤ offset + fuel) :
    ctx.entriesLoop fuel offset
      = (ctx.headersFrom offset).map fun o => ⟨ctx.currentFilename o, ctx.dataSlice o⟩ := by
  induction fuel generalizing offset with
  | zero =>
    rw [headersFrom, if_neg]
    · rfl
    · intro hvisited
      have := hvisited.1
      omega
  | succ fuel ih =>
    rw [entriesLoop, headersFrom]
    by_cases hin : offset + 512 ≤ ctx.size
    · by_cases hend : ctx.ptr offset = 0
      · rw [if_pos hin, if_pos hend, if_neg fun hvisited => hvisited.2 hend]
        rfl
      · have hnext := ctx.le_nextOffset offset
        rw [if_pos hin, if_neg hend, if_pos ⟨hin, hend⟩, map_cons, ih (by omega)]
    · rw [if_neg hin, if_neg fun hvisited => hin hvisited.1]
      rfl

theorem entries_eq_headers (ctx : TarContext) : ctx.entries
    = (ctx.headersFrom 0).map fun o => ⟨ctx.currentFilename o, ctx.dataSlice o⟩ :=
  entriesLoop_eq_headers (by omega)

/-! ### The slices -/

end TarContext

/-- A run of bytes from the start of the archive on, as `from_raw_parts` makes it. -/
structure TarSlice where
  start : ℕ
  length : ℕ
  deriving DecidableEq, Repr

namespace TarContext

variable {ctx : TarContext} {offset o : ℕ}

variable (ctx)

/-- The bytes of a slice. -/
def bytesOf (r : TarSlice) : List Byte := ctx.ptr.slice r.start r.length

/-- The slice lies in the archive. -/
def Inside (r : TarSlice) : Prop := r.start + r.length ≤ ctx.size

/-- The payload of the entry at `offset`. -/
def payload (offset : ℕ) : TarSlice := ⟨offset + 512, ctx.fileSize offset⟩

theorem bytesOf_payload (offset : ℕ) : ctx.bytesOf (ctx.payload offset) = ctx.dataSlice offset := by
  rw [bytesOf, payload, dataSlice]

variable {ctx}

theorem inside_payload_iff :
    ctx.Inside (ctx.payload offset) ↔ offset + 512 + ctx.fileSize offset ≤ ctx.size := by
  rw [Inside, payload]

variable (ctx)

/-- The slice that `findFile` returns. -/
def foundSlice (filename : String) : Option TarSlice :=
  ((ctx.headersFrom 0).find? fun o => ctx.currentFilename o == filename).map ctx.payload

/-- The slices that `buildVfsTreeFromTar` stores in nodes, with the names of the nodes. -/
def storedSlices : List (String × TarSlice) :=
  ((ctx.headersFrom 0).filter fun o => 0 < ctx.fileSize o ∧ ctx.currentFilename o ≠ "").map fun o =>
    (trimStartMatches (ctx.currentFilename o) '/', ctx.payload o)

/-- `findFile` ends, and returns the bytes of the slice. -/
theorem findFile_eq_slice (filename : String) :
    findFile (some ctx) filename = (ctx.foundSlice filename).map ctx.bytesOf := by
  rw [findFile_eq, entries_eq_headers, find?_map, Option.map_map, foundSlice, Option.map_map]
  simp only [Function.comp_def, bytesOf_payload]

/-- `buildVfsTreeFromTar` ends, and stores the bytes of the slices. -/
theorem buildVfsTreeFromTar_eq_slices (root : DirVNode TarVNode) :
    buildVfsTreeFromTar (some ctx) root
      = ctx.storedSlices.foldl (fun root r => root.add r.1 ⟨ctx.bytesOf r.2⟩) root := by
  have hbuild : buildVfsTreeFromTar (some ctx) root = ctx.entries.foldl TarEntry.register root :=
    ctx.buildLoop_eq ctx.size 0 root
  rw [hbuild, entries_eq_headers, storedSlices]
  clear hbuild
  generalize ctx.headersFrom 0 = headers
  induction headers generalizing root with
  | nil => rfl
  | cons o headers ih =>
    rw [map_cons, foldl_cons, ih, filter_cons, TarEntry.register]
    simp only [isEmpty_dataSlice, Bool.and_eq_true, Bool.not_eq_true', bne_iff_ne,
      decide_eq_false_iff_not, decide_eq_true_eq, Nat.pos_iff_ne_zero]
    split_ifs
    · rw [map_cons, foldl_cons, bytesOf_payload]
    · rfl

variable {ctx}

theorem isVisited_of_mem (h : o ∈ ctx.headersFrom offset) : ctx.IsVisited o := by
  induction offset using headersFrom.induct ctx with
  | case1 offset hvisited ih =>
    rw [headersFrom, if_pos hvisited, mem_cons] at h
    rcases h with rfl | h
    · exact hvisited
    · exact ih h
  | case2 offset hvisited =>
    rw [headersFrom, if_neg hvisited] at h
    cases h

theorem inside_of_mem_dropLast (h : o ∈ (ctx.headersFrom offset).dropLast) :
    ctx.Inside (ctx.payload o) := by
  induction offset using headersFrom.induct ctx with
  | case1 offset hvisited ih =>
    rw [headersFrom, if_pos hvisited] at h
    by_cases hnext : ctx.IsVisited (ctx.nextOffset offset)
    · have hne : ctx.headersFrom (ctx.nextOffset offset) ≠ [] := by
        rw [headersFrom, if_pos hnext]
        exact cons_ne_nil _ _
      rw [dropLast_cons_of_ne_nil hne, mem_cons] at h
      rcases h with rfl | h
      · have hle := ctx.le_nextOffset o
        have hend := hnext.1
        rw [inside_payload_iff]
        omega
      · exact ih h
    · rw [headersFrom, if_neg hnext] at h
      cases h
  | case2 offset hvisited =>
    rw [headersFrom, if_neg hvisited] at h
    cases h

theorem mem_dropLast_or_getLast? {α : Type} {l : List α} {a : α} (h : a ∈ l) :
    a ∈ l.dropLast ∨ l.getLast? = some a := by
  obtain ⟨last, hlast⟩ : ∃ last, l.getLast? = some last :=
    Option.isSome_iff_exists.mp (getLast?_isSome.mpr (ne_nil_of_mem h))
  rw [← dropLast_append_getLast? last hlast, mem_append, mem_singleton] at h
  rcases h with h | rfl
  · exact .inl h
  · exact .inr hlast

/-- The scans end, and every slice that they make lies in the archive. -/
structure WalksInside (ctx : TarContext) : Prop where
  find_eq : ∀ filename, findFile (some ctx) filename = (ctx.foundSlice filename).map ctx.bytesOf
  find_inside : ∀ filename, ∀ r ∈ ctx.foundSlice filename, ctx.Inside r
  build_eq : ∀ root, buildVfsTreeFromTar (some ctx) root
    = ctx.storedSlices.foldl (fun root r => root.add r.1 ⟨ctx.bytesOf r.2⟩) root
  build_inside : ∀ r ∈ ctx.storedSlices, ctx.Inside r.2

theorem inside_of_fileSize_eq_zero (h : ctx.IsVisited o) (hsize : ctx.fileSize o = 0) :
    ctx.Inside (ctx.payload o) := by
  rw [inside_payload_iff, hsize]
  exact h.1

/-- **The slices of the scans lie in the archive** iff the last visited header leaves room for its
payload; a last entry without a name does not count if there is another one before it. -/
theorem slices_inside_iff (ctx : TarContext) : ctx.WalksInside ↔
    ∀ last ∈ (ctx.headersFrom 0).getLast?, ctx.Inside (ctx.payload last) ∨
      (ctx.currentFilename last = "" ∧
        ∃ o ∈ (ctx.headersFrom 0).dropLast, ctx.currentFilename o = "") := by
  have hbefore : ∀ o ∈ (ctx.headersFrom 0).dropLast, ctx.Inside (ctx.payload o) :=
    fun o ho => inside_of_mem_dropLast ho
  have hvisited : ∀ o ∈ ctx.headersFrom 0, ctx.IsVisited o := fun o ho => isVisited_of_mem ho
  have hstored : ∀ o ∈ ctx.headersFrom 0, 0 < ctx.fileSize o → ctx.currentFilename o ≠ "" →
      (trimStartMatches (ctx.currentFilename o) '/', ctx.payload o) ∈ ctx.storedSlices := by
    intro o ho hsize hname
    exact List.mem_map.mpr ⟨o, List.mem_filter.mpr ⟨ho, decide_eq_true ⟨hsize, hname⟩⟩, rfl⟩
  constructor
  · intro h last hlast
    have hsplit := List.dropLast_append_getLast? last hlast
    have hmem : last ∈ ctx.headersFrom 0 := List.mem_of_getLast? hlast
    by_cases hsize : ctx.fileSize last = 0
    · exact .inl (inside_of_fileSize_eq_zero (hvisited last hmem) hsize)
    by_cases hname : ctx.currentFilename last = ""
    · by_cases hother : ∃ o ∈ (ctx.headersFrom 0).dropLast, ctx.currentFilename o = ""
      · exact .inr ⟨hname, hother⟩
      · -- it is the first one without a name, so it can be found
        have hnone : (ctx.headersFrom 0).dropLast.find? (fun o => ctx.currentFilename o == "")
            = none := by
          rw [List.find?_eq_none]
          intro o ho heq
          exact hother ⟨o, ho, beq_iff_eq.mp heq⟩
        left
        apply h.find_inside ""
        rw [Option.mem_def, foundSlice, ← hsplit, List.find?_append, hnone, Option.none_or,
          List.find?_singleton, if_pos (beq_iff_eq.mpr hname), Option.map_some]
    · have hin := h.build_inside _ (hstored last hmem (Nat.pos_of_ne_zero hsize) hname)
      exact .inl hin
  · intro h
    refine ⟨ctx.findFile_eq_slice, fun filename r hr => ?_, ctx.buildVfsTreeFromTar_eq_slices,
      fun r hr => ?_⟩
    · rw [Option.mem_def, foundSlice, Option.map_eq_some_iff] at hr
      obtain ⟨o, hfind, rfl⟩ := hr
      have hmatch := List.find?_some hfind
      obtain rfl : ctx.currentFilename o = filename := beq_iff_eq.mp hmatch
      rcases mem_dropLast_or_getLast? (List.mem_of_find?_eq_some hfind) with ho | hlast
      · exact hbefore o ho
      · rcases h o hlast with hin | ⟨hname, o', ho', hname'⟩
        · exact hin
        · -- the scan stops before it, at the other one
          rw [← List.dropLast_append_getLast? o hlast, List.find?_append] at hfind
          obtain ⟨first, hfirst⟩ : ∃ first, (ctx.headersFrom 0).dropLast.find?
              (fun o' => ctx.currentFilename o' == ctx.currentFilename o) = some first := by
            refine Option.isSome_iff_exists.mp (List.find?_isSome.mpr ⟨o', ho', ?_⟩)
            rw [hname, hname', BEq.rfl]
          rw [hfirst, Option.some_or, Option.some.injEq] at hfind
          exact hbefore o (hfind ▸ List.mem_of_find?_eq_some hfirst)
    · rw [storedSlices, List.mem_map] at hr
      obtain ⟨o, ho, rfl⟩ := hr
      obtain ⟨hmem, hreg⟩ := List.mem_filter.mp ho
      rcases mem_dropLast_or_getLast? hmem with ho | hlast
      · exact hbefore o ho
      · exact (h o hlast).resolve_right fun hunnamed => (of_decide_eq_true hreg).2 hunnamed.1

/-- A header named `a` with size one, and nothing behind it. -/
def truncated : TarContext :=
  ⟨(Bytes.splice (fun _ => 0) 0 (nameBytes "a")).splice 124 (nameBytes "00000000001"), 512⟩

/-- The archive has 512 bytes, and the slice that is found starts behind them. -/
theorem truncated_slice_outside :
    truncated.size = 512 ∧ truncated.foundSlice "a" = some ⟨512, 1⟩ ∧ ¬ truncated.WalksInside := by
  have hfound : truncated.foundSlice "a" = some ⟨512, 1⟩ := by
    have hvisited : truncated.IsVisited 0 := by decide +kernel
    have hname : (truncated.currentFilename 0 == "a") = true := by decide +kernel
    have hpayload : truncated.payload 0 = ⟨512, 1⟩ := by decide +kernel
    rw [foundSlice, headersFrom, if_pos hvisited, List.find?_cons]
    simp only [hname, Option.map_some, hpayload]
  refine ⟨rfl, hfound, fun h => ?_⟩
  have hin : 512 + 1 ≤ 512 := h.find_inside "a" _ hfound
  exact absurd hin (by decide)

end TarContext

/-! ### Legal size fields -/

/-- An entry of an archive.  Its size is stored as octal digits and a terminator of spaces and NULs
that fills the field; `otherFields` are the bytes of the header outside that field, the name
included, and `payload` the bytes behind the header. -/
structure UstarFile where
  size : ℕ
  payload : Bytes
  otherFields : Bytes
  digitCount : ℕ
  terminator : List Byte
  size_lt : size < 8 ^ digitCount
  terminated : terminator ≠ []
  length_field : digitCount + terminator.length = 12
  spaces_or_nuls : ∀ b ∈ terminator, b = 0x20 ∨ b = 0
  named : otherFields 0 ≠ 0

namespace UstarFile

section

variable (f : UstarFile)

/-- The twelve bytes of the size field. -/
def sizeField : List Byte :=
  nameBytes (.ofList (octalDigits f.digitCount f.size)) ++ f.terminator

/-- The 512-byte header. -/
def header : Bytes := f.otherFields.splice 124 f.sizeField

/-- The bytes of the payload's blocks. -/
def payloadBlocks : ℕ := (f.size + 511) / 512 * 512

/-- Header and payload, in whole blocks. -/
def encode : List Byte := f.header.slice 0 512 ++ f.payload.slice 0 f.payloadBlocks

end

/-- An archive in memory. -/
def archive (files : List UstarFile) (memory : Bytes) : TarContext :=
  .ofEntries (files.map encode) memory

/-- Where the headers of the entries are, the first one at `offset`. -/
def headerOffsets : List UstarFile → ℕ → List ℕ
  | [], _ => []
  | f :: files, offset => offset :: headerOffsets files (offset + 512 + f.payloadBlocks)

/-- The part of the size field that the scans parse spells the size: it is zero, or there is no NUL
in the first eleven bytes of the field. -/
def SizeRead (f : UstarFile) : Prop := f.size = 0 ∨ 0 ∉ f.sizeField.take 11

instance (f : UstarFile) : Decidable f.SizeRead := inferInstanceAs (Decidable (_ ∨ _))

variable {f : UstarFile} {ctx : TarContext} {offset : ℕ}

variable (f)

theorem digitCount_le : f.digitCount ≤ 11 := by
  have hne := length_pos_iff.mpr f.terminated
  have := f.length_field
  omega

/-- The characters that the scans parse. -/
def parsedChars : List Char :=
  octalDigits f.digitCount f.size ++
    (f.terminator.take (11 - f.digitCount)).map fun b => Char.ofNat b.toNat

theorem terminatorChar_facts {b : Byte} (h : b = 0x20 ∨ b = 0) :
    (Char.ofNat b.toNat).toNat < 128 ∧ BitVec.ofNat 8 (Char.ofNat b.toNat).toNat = b ∧
      (isWhitespace (Char.ofNat b.toNat) = true ↔ b ≠ 0) ∧
      (b = 0 → toDigit 8 (Char.ofNat b.toNat) = none ∧ Char.ofNat b.toNat ≠ '+') := by
  rcases h with rfl | rfl <;> decide

theorem octalDigits_ascii (w n : ℕ) : ∀ c ∈ octalDigits w n, c.toNat < 128 := by
  intro c hc
  obtain ⟨d, hd, rfl⟩ := mem_octalDigits hc
  exact (octalDigit_facts d hd).1

theorem length_sizeField : f.sizeField.length = 12 := by
  rw [sizeField, length_append, nameBytes_ofList (octalDigits_ascii _ _), length_map,
    length_octalDigits, f.length_field]

/-- The first eleven bytes of the field: the digits, and what fits of the terminator. -/
theorem take_sizeField : f.sizeField.take 11 =
    nameBytes (.ofList (octalDigits f.digitCount f.size)) ++
      f.terminator.take (11 - f.digitCount) := by
  have hlength : (nameBytes (.ofList (octalDigits f.digitCount f.size))).length = f.digitCount := by
    rw [nameBytes_ofList (octalDigits_ascii _ _), length_map, length_octalDigits]
  rw [sizeField, take_append, hlength, take_of_length_le (hlength.trans_le f.digitCount_le)]

variable {f}

theorem parsed_terminator {b : Byte} (hb : b ∈ f.terminator.take (11 - f.digitCount)) :
    b = 0x20 ∨ b = 0 :=
  f.spaces_or_nuls b (mem_of_mem_take hb)

theorem take_sizeField_eq_nameBytes (f : UstarFile) :
    f.sizeField.take 11 = nameBytes (.ofList f.parsedChars) := by
  have hascii : ∀ c ∈ f.parsedChars, c.toNat < 128 := by
    intro c hc
    rcases mem_append.mp hc with hc | hc
    · exact octalDigits_ascii _ _ c hc
    · obtain ⟨b, hb, rfl⟩ := mem_map.mp hc
      exact (terminatorChar_facts (parsed_terminator hb)).1
  rw [take_sizeField, nameBytes_ofList hascii, parsedChars, map_append, map_map,
    nameBytes_ofList (octalDigits_ascii _ _)]
  congr 1
  symm
  refine (map_congr_left fun b hb => ?_).trans (map_id _)
  exact (terminatorChar_facts (parsed_terminator hb)).2.1

theorem zero_mem_take_sizeField :
    0 ∈ f.sizeField.take 11 ↔ 0 ∈ f.terminator.take (11 - f.digitCount) := by
  have hdigit : ∀ d < 8, BitVec.ofNat 8 (Char.ofNat (48 + d)).toNat ≠ 0 := by decide
  rw [take_sizeField, mem_append, or_iff_right]
  intro hzero
  rw [nameBytes_ofList (octalDigits_ascii _ _)] at hzero
  obtain ⟨c, hc, hcode⟩ := mem_map.mp hzero
  obtain ⟨d, hd, rfl⟩ := mem_octalDigits hc
  exact hdigit d hd hcode

theorem parse_of_not_zero_mem (h : 0 ∉ f.sizeField.take 11) :
    (fromStrRadix (trim (.ofList f.parsedChars)) 8).getD 0 = f.size := by
  have hspaces : ∀ c ∈ (f.terminator.take (11 - f.digitCount)).map fun b => Char.ofNat b.toNat,
      isWhitespace c = true := by
    intro c hc
    obtain ⟨b, hb, rfl⟩ := mem_map.mp hc
    apply (terminatorChar_facts (parsed_terminator hb)).2.2.1.mpr
    rintro rfl
    exact h (zero_mem_take_sizeField.mpr hb)
  have hdigits : ∀ c ∈ octalDigits f.digitCount f.size, isWhitespace c = false := by
    intro c hc
    obtain ⟨d, hd, rfl⟩ := mem_octalDigits hc
    exact (octalDigit_facts d hd).2.1
  rw [parsedChars, trim_append hdigits hspaces]
  have hlt := f.size_lt
  have hle := f.digitCount_le
  cases hcount : f.digitCount with
  | zero =>
    -- no digits at all: the empty text does not parse, and the size is zero
    rw [hcount, Nat.pow_zero, Nat.lt_one_iff] at hlt
    rw [hlt]
    rfl
  | succ w =>
    rw [hcount] at hlt hle
    have hfits : 8 ^ (w + 1) ≤ 2 ^ 64 := by
      calc 8 ^ (w + 1) ≤ 8 ^ 11 := Nat.pow_le_pow_right (by decide) hle
        _ ≤ 2 ^ 64 := by decide
    rw [fromStrRadix_octalDigits hfits hlt, Option.getD_some]

theorem parse_of_zero_mem (h : 0 ∈ f.sizeField.take 11) :
    (fromStrRadix (trim (.ofList f.parsedChars)) 8).getD 0 = 0 := by
  obtain ⟨hspace, hnot⟩ := (terminatorChar_facts (b := 0) (.inr rfl)).2.2
  obtain ⟨hdigit, hsign⟩ := hnot rfl
  have hmem : Char.ofNat (0 : Byte).toNat ∈ (String.ofList f.parsedChars).toList := by
    rw [String.toList_ofList]
    exact mem_append_right _ (mem_map_of_mem (zero_mem_take_sizeField.mp h))
  have hkept : isWhitespace (Char.ofNat (0 : Byte).toNat) = false :=
    Bool.eq_false_iff.mpr fun hw => hspace.mp hw rfl
  rw [fromStrRadix_of_mem (mem_trim hmem hkept) hdigit hsign]
  rfl

/-! ### The walk over an archive -/

/-- The archive's memory at `offset` is the encoding of an entry. -/
def At (f : UstarFile) (ctx : TarContext) (offset : ℕ) : Prop := ctx.Holds offset f.encode

theorem length_encode (f : UstarFile) : f.encode.length = 512 + f.payloadBlocks := by
  rw [encode, length_append, length_slice, length_slice]

variable (h : f.At ctx offset)
include h

theorem At.payload :
    ctx.ptr.slice (offset + 512) f.payloadBlocks = f.payload.slice 0 f.payloadBlocks := by
  have hpayload := TarContext.Holds.payload h
  rwa [length_slice] at hpayload

theorem At.parsed : ctx.ptr.slice (offset + 124) 11 = nameBytes (.ofList f.parsedChars) := by
  have hread := slice_splice f.otherFields 124 f.sizeField
  have hfield := TarContext.Holds.field h (show 124 + 11 ≤ 512 by decide)
  rw [length_sizeField] at hread
  rw [hfield, ← take_sizeField_eq_nameBytes, ← hread, take_slice]
  rfl

theorem At.fileSize :
    ctx.fileSize offset = (fromStrRadix (trim (.ofList f.parsedChars)) 8).getD 0 := by
  unfold TarContext.fileSize
  rw [h.parsed, fromUtf8_nameBytes, Option.getD_some]

theorem At.nextOffset_of_sizeRead (hread : f.SizeRead) :
    ctx.nextOffset offset = offset + f.encode.length := by
  have hsize : ctx.fileSize offset = f.size := by
    rw [h.fileSize]
    by_cases hzero : 0 ∈ f.sizeField.take 11
    · rw [parse_of_zero_mem hzero, hread.resolve_right fun hno => hno hzero]
    · exact parse_of_not_zero_mem hzero
  rw [TarContext.nextOffset, hsize, length_encode]
  rfl

/-- Where it goes otherwise: to the payload. -/
theorem At.nextOffset_of_not_sizeRead (hread : ¬ f.SizeRead) :
    ctx.nextOffset offset = offset + 512 := by
  obtain ⟨-, hzero⟩ := not_or.mp hread
  rw [TarContext.nextOffset, h.fileSize, parse_of_zero_mem (not_not.mp hzero)]

theorem At.ptr_ne_zero : ctx.ptr offset ≠ 0 := by
  have hfirst := head?_of_slice_eq (TarContext.Holds.field h (Nat.zero_add 512).le) (by decide)
  rw [head?_of_slice_eq rfl (by decide), Option.some.injEq, Nat.add_zero] at hfirst
  rw [← hfirst, UstarFile.header, splice_of_outside (.inl (by decide))]
  exact f.named

theorem At.ptr_payload (hsize : f.size ≠ 0) : ctx.ptr (offset + 512) = f.payload 0 := by
  have hblocks : 0 < f.payloadBlocks := by
    unfold payloadBlocks
    omega
  have hfirst := head?_of_slice_eq h.payload hblocks
  rw [head?_of_slice_eq rfl hblocks, Option.some.injEq] at hfirst
  exact hfirst.symm

omit h

/-- The archive is these entries, from `offset` on. -/
abbrev Stored (files : List UstarFile) (ctx : TarContext) (offset : ℕ) : Prop :=
  ctx.Stored offset (files.map encode)

variable {files : List UstarFile}

theorem Stored.at_first (h : Stored (f :: files) ctx offset) : f.At ctx offset := h.first

theorem Stored.isVisited (h : Stored (f :: files) ctx offset) : ctx.IsVisited offset := by
  have := h.le_size
  exact ⟨by omega, h.at_first.ptr_ne_zero⟩

theorem Stored.not_isVisited (h : Stored [] ctx offset) : ¬ ctx.IsVisited offset :=
  fun hvisited => hvisited.2 h.ptr_eq_zero

/-- The sizes that the walk needs are read: those of all entries but the last, and that of the last
unless its payload starts with a NUL, at which the walk stops. -/
def SizesRead (files : List UstarFile) : Prop :=
  (∀ f ∈ files.dropLast, f.SizeRead) ∧ ∀ f ∈ files.getLast?, f.SizeRead ∨ f.payload 0 = 0

theorem sizesRead_nil : SizesRead [] := by
  simp [SizesRead]

theorem sizesRead_singleton : SizesRead [f] ↔ f.SizeRead ∨ f.payload 0 = 0 := by
  simp [SizesRead]

theorem sizesRead_cons_cons {f g : UstarFile} :
    SizesRead (f :: g :: files) ↔ f.SizeRead ∧ SizesRead (g :: files) := by
  unfold SizesRead
  rw [dropLast_cons_cons, forall_mem_cons, getLast?_cons_cons, and_assoc]

theorem headersFrom_eq_nil_iff : ctx.headersFrom offset = [] ↔ ¬ ctx.IsVisited offset := by
  rw [TarContext.headersFrom]
  by_cases hvisited : ctx.IsVisited offset
  · simp [hvisited]
  · simp [hvisited]

theorem Stored.headersFrom_eq_iff (h : Stored files ctx offset) :
    ctx.headersFrom offset = headerOffsets files offset ↔ SizesRead files := by
  induction files generalizing offset with
  | nil =>
    rw [headerOffsets, headersFrom_eq_nil_iff]
    exact iff_of_true h.not_isVisited sizesRead_nil
  | cons f files ih =>
    have hstep : offset + 512 + f.payloadBlocks = offset + f.encode.length := by
      rw [length_encode, Nat.add_assoc]
    rw [TarContext.headersFrom, if_pos h.isVisited, headerOffsets, cons_inj_right, hstep]
    by_cases hread : f.SizeRead
    · rw [h.at_first.nextOffset_of_sizeRead hread, ih h.rest]
      cases files with
      | nil => exact iff_of_true sizesRead_nil (sizesRead_singleton.mpr (.inl hread))
      | cons g files => rw [sizesRead_cons_cons, and_iff_right hread]
    · have hsize : f.size ≠ 0 := fun hzero => hread (.inl hzero)
      rw [h.at_first.nextOffset_of_not_sizeRead hread]
      cases files with
      | nil =>
        -- the walk looks at the payload, and stops there only at a NUL
        have hroom := h.le_size
        rw [headerOffsets, headersFrom_eq_nil_iff, sizesRead_singleton, or_iff_right hread,
          ← h.at_first.ptr_payload hsize, TarContext.IsVisited, not_and_not_right]
        exact ⟨fun hstop => hstop (by omega), fun hzero _ => hzero⟩
      | cons g files =>
        -- the next header is not where the walk looks for it
        refine iff_of_false (fun heq => ?_) fun hall => hread (sizesRead_cons_cons.mp hall).1
        rw [headerOffsets, TarContext.headersFrom] at heq
        split at heq
        · have hoffset := (List.cons.inj heq).1
          rw [length_encode, payloadBlocks] at hoffset
          omega
        · cases heq

/-- **The walk over a legal archive**: the offsets at which `buildVfsTreeFromTar` reads headers are
those of the archive, and those at which `findFile` does are the first of them up to the one of the
name, exactly if the sizes that the walk needs are zero or spelled without a NUL in the first eleven
bytes of their field. -/
theorem walk_in_step_iff (files : List UstarFile) (memory : Bytes) :
    ((archive files memory).headersFrom 0 = headerOffsets files 0 ∧
      ∀ filename, (archive files memory).findHeadersFrom filename 0 =
        (headerOffsets files 0).take ((headerOffsets files 0).findIdx
          (fun o => (archive files memory).currentFilename o == filename) + 1)) ↔
    SizesRead files := by
  have hstored : Stored files (archive files memory) 0 := TarContext.stored_ofEntries _ memory
  rw [← hstored.headersFrom_eq_iff]
  refine ⟨fun h => h.1, fun h => ⟨h, fun filename => ?_⟩⟩
  rw [TarContext.findHeadersFrom_eq, h]

/-- A file of one byte whose size is stored as `1` and eleven NULs. -/
def nulTerminated : UstarFile where
  size := 1
  payload := Bytes.splice (fun _ => 0) 0 (nameBytes "x")
  otherFields := Bytes.splice (fun _ => 0) 0 (nameBytes "a")
  digitCount := 1
  terminator := List.replicate 11 0
  size_lt := by decide
  terminated := by decide
  length_field := by decide
  spaces_or_nuls := fun _ hb => .inr (List.eq_of_mem_replicate hb)
  named := by decide

/-- Its size is taken for zero, and the block of its payload for a header. -/
theorem nulTerminated_payload_visited :
    headerOffsets [nulTerminated] 0 = [0] ∧
      512 ∈ (archive [nulTerminated] fun _ => 0).headersFrom 0 := by
  have hstored : Stored [nulTerminated] (archive [nulTerminated] fun _ => 0) 0 :=
    TarContext.stored_ofEntries _ _
  have hread : ¬ nulTerminated.SizeRead := by decide
  have hvisited : (archive [nulTerminated] fun _ => 0).IsVisited 512 := by
    have hroom := hstored.le_size
    refine ⟨by omega, ?_⟩
    have hbyte := hstored.at_first.ptr_payload (show nulTerminated.size ≠ 0 by decide)
    rw [Nat.zero_add] at hbyte
    rw [hbyte]
    decide
  refine ⟨rfl, ?_⟩
  rw [TarContext.headersFrom, if_pos hstored.isVisited,
    hstored.at_first.nextOffset_of_not_sizeRead hread, Nat.zero_add, TarContext.headersFrom,
    if_pos hvisited]
  exact List.mem_cons_of_mem _ List.mem_cons_self

end UstarFile

end NwinOs.Fs
