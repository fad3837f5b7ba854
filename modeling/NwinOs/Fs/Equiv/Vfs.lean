import NwinOs.Fs.Vfs

/-!
# What the initramfs scans compute

`TarContext.entries` lists the entries of an archive in the order in which both scans visit them.
`findFile` returns the first one of a name (`findFile_eq`), the tree holds the last non-empty one
under each name without leading slashes (`children_buildVfsTreeFromTar`), and a path of the tree
resolves only if it has at most one component (`openVnode_dir`).

* `lookups_agree_iff`: when the two ways to a file lead to the same one.
* `tar_round_trip`: an encoded list of files is scanned back.
-/

namespace NwinOs.Fs

open Bytes List Option

/-! ### The entries of an archive -/

/-- One file of an archive. -/
structure TarEntry where
  name : String
  data : List Byte
  deriving DecidableEq, Repr

/-- The tree has the entry under `key`. -/
def TarEntry.Registers (e : TarEntry) (key : String) : Bool :=
  !e.data.isEmpty && e.name != "" && trimStartMatches e.name '/' == key

/-- The root directory with one more entry. -/
def TarEntry.register (root : DirVNode TarVNode) (e : TarEntry) : DirVNode TarVNode :=
  if !e.data.isEmpty && e.name != "" then root.add (trimStartMatches e.name '/') ⟨e.data⟩ else root

namespace TarContext

/-- The entries from `offset` on. -/
def entriesLoop (ctx : TarContext) : ℕ → ℕ → List TarEntry
  | 0, _ => []
  | fuel + 1, offset =>
    if offset + 512 ≤ ctx.size then
      if ctx.ptr offset = 0 then []
      else
        ⟨ctx.currentFilename offset, ctx.dataSlice offset⟩ ::
          entriesLoop ctx fuel (ctx.nextOffset offset)
    else []

variable (ctx : TarContext)

/-- The entries of an archive. -/
def entries : List TarEntry := ctx.entriesLoop ctx.size 0

theorem findFileLoop_eq (filename : String) (fuel offset : ℕ) :
    ctx.findFileLoop filename fuel offset
      = ((ctx.entriesLoop fuel offset).find? (·.name == filename)).map (·.data) := by
  induction fuel generalizing offset with
  | zero => rfl
  | succ fuel ih =>
    rw [findFileLoop, entriesLoop]
    by_cases hin : offset + 512 ≤ ctx.size
    · rw [if_pos hin, if_pos hin]
      by_cases hend : ctx.ptr offset = 0
      · rw [if_pos hend, if_pos hend]
        rfl
      · rw [if_neg hend, if_neg hend, find?_cons]
        by_cases hname : ctx.currentFilename offset = filename
        · simp only [hname, if_true, BEq.rfl, map_some]
        · simp only [hname, if_false, beq_eq_false_iff_ne.mpr hname]
          exact ih _
    · rw [if_neg hin, if_neg hin]
      rfl

theorem isEmpty_dataSlice (offset : ℕ) :
    (ctx.dataSlice offset).isEmpty = decide (ctx.fileSize offset = 0) := by
  rw [Bool.eq_iff_iff, isEmpty_iff_length_eq_zero, decide_eq_true_iff, dataSlice, length_slice]

theorem buildLoop_eq (fuel offset : ℕ) (root : DirVNode TarVNode) :
    ctx.buildLoop fuel offset root = (ctx.entriesLoop fuel offset).foldl
      TarEntry.register root := by
  induction fuel generalizing offset root with
  | zero => rfl
  | succ fuel ih =>
    rw [buildLoop, entriesLoop]
    by_cases hin : offset + 512 ≤ ctx.size
    · rw [if_pos hin, if_pos hin]
      by_cases hend : ctx.ptr offset = 0
      · rw [if_pos hend, if_pos hend]
        rfl
      · rw [if_neg hend, if_neg hend, foldl_cons, TarEntry.register]
        simp only [ih, isEmpty_dataSlice, Bool.and_eq_true, Bool.not_eq_true', bne_iff_ne,
          decide_eq_false_iff_not, Nat.pos_iff_ne_zero]
    · rw [if_neg hin, if_neg hin]
      rfl

end TarContext

/-- The first entry of the name. -/
theorem findFile_eq (ctx : TarContext) (filename : String) :
    findFile (some ctx) filename = (ctx.entries.find? (·.name == filename)).map (·.data) :=
  ctx.findFileLoop_eq filename ctx.size 0

/-- Registering a list of entries: the last one under a key wins. -/
theorem children_foldl_register (es : List TarEntry) (root : DirVNode TarVNode) (key : String) :
    (es.foldl TarEntry.register root).children[key]?
      = (((es.filter (·.Registers key)).getLast?).map fun e => ⟨e.data⟩).or
        root.children[key]? := by
  induction es generalizing root with
  | nil => rfl
  | cons e es ih =>
    rw [foldl_cons, ih, filter_cons]
    by_cases hvalid : (!e.data.isEmpty && e.name != "") = true
    · by_cases hkey : trimStartMatches e.name '/' = key
      · have hreg : e.Registers key = true := by simp [TarEntry.Registers, hvalid, hkey]
        rw [if_pos hreg, getLast?_cons, TarEntry.register, if_pos hvalid, DirVNode.add, hkey,
          Std.ExtTreeMap.getElem?_insert_self]
        cases (es.filter (·.Registers key)).getLast? <;> rfl
      · have hreg : e.Registers key = false := by simp [TarEntry.Registers, hkey]
        rw [if_neg (by simp [hreg]), TarEntry.register, if_pos hvalid, DirVNode.add,
          Std.ExtTreeMap.getElem?_insert, if_neg (by simpa using hkey)]
    · have hreg : e.Registers key = false := by simp [TarEntry.Registers, hvalid]
      rw [if_neg (by simp [hreg]), TarEntry.register, if_neg hvalid]

/-- **The tree holds the last non-empty entry under each key.** -/
theorem children_buildVfsTreeFromTar (ctx : TarContext) (key : String) :
    (buildVfsTreeFromTar (some ctx) .new).children[key]?
      = ((ctx.entries.filter (·.Registers key)).getLast?).map fun e => ⟨e.data⟩ := by
  have hempty : (DirVNode.new : DirVNode TarVNode).children[key]? = none :=
    Std.ExtTreeMap.getElem?_empty
  rw [buildVfsTreeFromTar, ctx.buildLoop_eq, children_foldl_register, hempty, or_none]
  rfl

/-- **A path of the tree without mounts**: the root itself, a child of the root, or nothing. -/
theorem openVnode_dir (root : DirVNode TarVNode) (path : String) :
    openVnode ∅ (InitramfsNode.dir root) path =
      match components path '/' with
      | [] => some (.dir root)
      | [part] => (root.children[part]?).map .tar
      | _ => none := by
  unfold openVnode resolvePath
  match components path '/' with
  | [] => rfl
  | part :: parts =>
    rw [resolveParts]
    cases hchild : root.children[part]? with
    | none =>
      have hlookup : VNode.lookup (InitramfsNode.dir root) part = none := by
        change (root.children[part]?).map _ = _
        rw [hchild]
        rfl
      cases parts <;> simp [hlookup, hchild, VNode.isDir]
    | some node =>
      have hlookup : VNode.lookup (InitramfsNode.dir root) part = some (.tar node) := by
        change (root.children[part]?).map _ = _
        rw [hchild]
        rfl
      -- a file has no children
      cases parts <;> simp [hlookup, hchild, VNode.isDir, resolveParts]

/-! ### Archives -/

/-- The encoded entries one after the other, and two zero blocks. -/
def encodeAll (entries : List (List Byte)) : List Byte :=
  entries.flatten ++ List.replicate 1024 0

namespace TarContext

/-- The archive of the encoded entries, put at the start of the memory. -/
def ofEntries (entries : List (List Byte)) (memory : Bytes) : TarContext :=
  ⟨memory.splice 0 (encodeAll entries), (encodeAll entries).length⟩

/-- The archive's memory at `offset` is an encoded entry. -/
def Holds (ctx : TarContext) (offset : ℕ) (entry : List Byte) : Prop :=
  ctx.ptr.slice offset entry.length = entry

/-- The archive is these encoded entries, from `offset` on. -/
structure Stored (ctx : TarContext) (offset : ℕ) (entries : List (List Byte)) : Prop where
  bytes : ctx.Holds offset (encodeAll entries)
  ends : ctx.size = offset + (encodeAll entries).length

variable {ctx : TarContext} {offset : ℕ} {header : Bytes}

/-- A field of the header of an entry. -/
theorem Holds.field {payload : List Byte}
    (h : ctx.Holds offset (header.slice 0 512 ++ payload)) {o n : ℕ} (hn : o + n ≤ 512) :
    ctx.ptr.slice (offset + o) n = header.slice o n := by
  have hheader := (slice_eq_append_iff.mp h).1
  rw [length_slice] at hheader
  have hfield := slice_of_slice_eq hheader hn
  rwa [Nat.zero_add] at hfield

theorem Holds.payload {payload : List Byte} (h : ctx.Holds offset (header.slice 0 512 ++ payload)) :
    ctx.ptr.slice (offset + 512) payload.length = payload := by
  have hpayload := (slice_eq_append_iff.mp h).2
  rwa [length_slice] at hpayload

theorem stored_ofEntries (entries : List (List Byte)) (memory : Bytes) :
    (ofEntries entries memory).Stored 0 entries :=
  ⟨slice_splice memory 0 (encodeAll entries), (Nat.zero_add _).symm⟩

variable {entry : List Byte} {entries : List (List Byte)}

theorem encodeAll_cons : encodeAll (entry :: entries) = entry ++ encodeAll entries := by
  rw [encodeAll, flatten_cons, append_assoc]
  rfl

theorem Stored.first (h : ctx.Stored offset (entry :: entries)) : ctx.Holds offset entry := by
  have hbytes := h.bytes
  rw [encodeAll_cons] at hbytes
  exact (slice_eq_append_iff.mp hbytes).1

theorem Stored.rest (h : ctx.Stored offset (entry :: entries)) :
    ctx.Stored (offset + entry.length) entries := by
  obtain ⟨hbytes, hends⟩ := h
  rw [encodeAll_cons] at hbytes hends
  refine ⟨(slice_eq_append_iff.mp hbytes).2, ?_⟩
  rw [hends, length_append, Nat.add_assoc]

theorem Stored.le_size (h : ctx.Stored offset entries) : offset + 1024 ≤ ctx.size := by
  rw [h.ends, encodeAll, length_append, length_replicate]
  omega

/-- Behind the last entry there is a zero block. -/
theorem Stored.ptr_eq_zero (h : ctx.Stored offset []) : ctx.ptr offset = 0 := by
  have hbytes := h.bytes
  rw [Holds, encodeAll, flatten_nil, nil_append, length_replicate] at hbytes
  exact eq_of_slice_eq_replicate hbytes (by decide)

end TarContext

/-! ### Encoding files -/

/-- A file as `ustar` can hold it.  `otherFields` are the header's bytes outside name and size. -/
structure TarFile where
  name : String
  contents : List Byte
  otherFields : Bytes
  name_ne : name ≠ ""
  name_le : (nameBytes name).length ≤ 100
  name_nul : 0 ∉ nameBytes name
  contents_lt : contents.length < 8 ^ 11

namespace TarFile

section

variable (f : TarFile)

/-- The name field, padded with NULs. -/
def nameField : List Byte :=
  nameBytes f.name ++ List.replicate (100 - (nameBytes f.name).length) 0

/-- The size field, eleven octal digits. -/
def sizeField : List Byte := nameBytes (.ofList (octalDigits 11 f.contents.length))

/-- The 512-byte header. -/
def header : Bytes := (f.otherFields.splice 0 f.nameField).splice 124 f.sizeField

/-- Header and payload, padded to whole blocks. -/
def encode : List Byte :=
  f.header.slice 0 512 ++ (f.contents ++
    List.replicate ((f.contents.length + 511) / 512 * 512 - f.contents.length) 0)

/-- An archive in memory. -/
def archive (files : List TarFile) (memory : Bytes) : TarContext :=
  .ofEntries (files.map encode) memory

theorem length_nameField : f.nameField.length = 100 := by
  have := f.name_le
  rw [nameField, length_append, length_replicate]
  omega

theorem sizeField_eq :
    f.sizeField = (octalDigits 11 f.contents.length).map fun c => BitVec.ofNat 8 c.toNat := by
  apply nameBytes_ofList
  intro c hc
  obtain ⟨d, hd, rfl⟩ := mem_octalDigits hc
  exact (octalDigit_facts d hd).1

theorem length_sizeField : f.sizeField.length = 11 := by
  rw [sizeField_eq, length_map, length_octalDigits]

theorem length_encode : f.encode.length = 512 + (f.contents.length + 511) / 512 * 512 := by
  rw [encode, length_append, length_slice, length_append, length_replicate]
  omega

/-- The archive's memory at `offset` is the encoding of a file. -/
def At (ctx : TarContext) (offset : ℕ) : Prop := ctx.Holds offset f.encode

end

section At

variable {f : TarFile} {ctx : TarContext} {offset : ℕ}

theorem At.contents (h : f.At ctx offset) :
    ctx.ptr.slice (offset + 512) f.contents.length = f.contents :=
  (slice_eq_append_iff.mp (TarContext.Holds.payload h)).1

theorem At.nameField (h : f.At ctx offset) : ctx.ptr.slice offset 100 = f.nameField := by
  have hfield := TarContext.Holds.field h (show 0 + 100 ≤ 512 by decide)
  have hread := slice_splice f.otherFields 0 f.nameField
  rw [length_nameField] at hread
  rw [Nat.add_zero] at hfield
  rw [hfield, TarFile.header, slice_splice_of_disjoint (.inl (by decide)), hread]

theorem At.sizeField (h : f.At ctx offset) : ctx.ptr.slice (offset + 124) 11 = f.sizeField := by
  have hread := slice_splice (f.otherFields.splice 0 f.nameField) 124 f.sizeField
  rw [length_sizeField] at hread
  rw [TarContext.Holds.field h (by decide), TarFile.header, hread]

end At

theorem nameLen_nameField (f : TarFile) :
    (f.nameField.findIdx? (· == 0)).getD 100 = (nameBytes f.name).length := by
  have hname : (nameBytes f.name).findIdx? (· == 0) = none := by
    rw [findIdx?_eq_none_iff]
    intro b hb
    exact beq_eq_false_iff_ne.mpr fun h => f.name_nul (h ▸ hb)
  rw [nameField, findIdx?_append, hname, none_or]
  -- without a NUL the name fills the field
  cases hpad : 100 - (nameBytes f.name).length with
  | zero =>
    have := f.name_le
    simp only [replicate_zero, findIdx?_nil, map_none, getD_none]
    omega
  | succ n => simp [replicate_succ, findIdx?_cons]

variable {f : TarFile} {ctx : TarContext} {offset : ℕ}

section

variable (h : f.At ctx offset)
include h

theorem At.currentFilename : ctx.currentFilename offset = f.name := by
  unfold TarContext.currentFilename
  dsimp only
  rw [h.nameField, f.nameLen_nameField, TarFile.nameField, take_left, fromUtf8_nameBytes, getD_some]

theorem At.fileSize : ctx.fileSize offset = f.contents.length := by
  unfold TarContext.fileSize
  dsimp only
  rw [h.sizeField, TarFile.sizeField, fromUtf8_nameBytes, getD_some, trim_octalDigits,
    fromStrRadix_octalDigits (by decide) f.contents_lt, getD_some]

theorem At.dataSlice : ctx.dataSlice offset = f.contents := by
  rw [TarContext.dataSlice, h.fileSize, h.contents]

theorem At.nextOffset : ctx.nextOffset offset = offset + f.encode.length := by
  rw [TarContext.nextOffset, h.fileSize, length_encode]

theorem At.ptr_ne_zero : ctx.ptr offset ≠ 0 := by
  cases hname : nameBytes f.name with
  | nil => exact absurd (nameBytes_injective hname) f.name_ne
  | cons b bs =>
    have hfirst := head?_of_slice_eq h.nameField (by decide)
    rw [TarFile.nameField, hname, cons_append, head?_cons, some.injEq] at hfirst
    rw [← hfirst]
    rintro rfl
    exact f.name_nul (hname ▸ mem_cons_self)

end

end TarFile

/-- The entry that a file becomes. -/
def TarFile.entry (f : TarFile) : TarEntry := ⟨f.name, f.contents⟩

theorem entriesLoop_of_stored {ctx : TarContext} {files : List TarFile} {fuel offset : ℕ}
    (h : ctx.Stored offset (files.map TarFile.encode)) (hfuel : ctx.size ≤ offset + fuel) :
    ctx.entriesLoop fuel offset = files.map TarFile.entry := by
  induction files generalizing fuel offset with
  | nil =>
    cases fuel with
    | zero => rfl
    | succ fuel =>
      rw [TarContext.entriesLoop, if_pos h.ptr_eq_zero, ite_self]
      rfl
  | cons f files ih =>
    have hf : f.At ctx offset := h.first
    have hroom := h.le_size
    have hlength := f.length_encode
    cases fuel with
    | zero => omega
    | succ fuel =>
      rw [TarContext.entriesLoop, if_pos (by omega), if_neg hf.ptr_ne_zero, hf.currentFilename,
        hf.dataSlice, hf.nextOffset, ih h.rest (by omega)]
      rfl

theorem entries_archive (files : List TarFile) (memory : Bytes) :
    (TarFile.archive files memory).entries = files.map TarFile.entry :=
  entriesLoop_of_stored (TarContext.stored_ofEntries _ memory) (Nat.zero_add _).ge

theorem find?_entries_archive (files : List TarFile) (memory : Bytes) (name : String) :
    ((TarFile.archive files memory).entries.find? (·.name == name)).map (·.data)
      = (files.find? (·.name == name)).map (·.contents) := by
  rw [entries_archive, find?_map, Option.map_map]
  rfl

/-- **Decoding undoes encoding**: a file is found by the name under which it was encoded first, and
the tree has the non-empty files under their names without leading slashes, the last one winning. -/
theorem tar_round_trip (files : List TarFile) (memory : Bytes) :
    (∀ name, findFile (some (TarFile.archive files memory)) name
      = (files.find? (·.name == name)).map (·.contents)) ∧
    ∀ key, (buildVfsTreeFromTar (some (TarFile.archive files memory)) .new).children[key]?
      = ((files.filter fun f =>
          !f.contents.isEmpty && trimStartMatches f.name '/' == key).getLast?).map
        fun f => ⟨f.contents⟩ := by
  refine ⟨fun name => ?_, fun key => ?_⟩
  · rw [findFile_eq, find?_entries_archive]
  · have hregisters : (fun e : TarEntry => e.Registers key) ∘ TarFile.entry
        = fun f => !f.contents.isEmpty && trimStartMatches f.name '/' == key := by
      ext1 f
      have hne : (f.entry.name != "") = true := bne_iff_ne.mpr f.name_ne
      rw [Function.comp_apply, TarEntry.Registers, hne, Bool.and_true]
      rfl
    rw [children_buildVfsTreeFromTar, entries_archive, List.filter_map, hregisters,
      List.getLast?_map, Option.map_map]
    rfl

/-! ### Two ways to a file -/

/-- What `execve` loads under a name is what `open` opens under it. -/
def LookupsAgree (ctx : TarContext) (name : String) : Prop :=
  ∀ data, findFile (some ctx) name = some data →
    ∃ node, openVnode ∅ (InitramfsNode.dir (buildVfsTreeFromTar (some ctx) .new)) name = some node ∧
      VNode.isDir node = false ∧ VNode.getSize node = data.length ∧
        ∀ offset length, VNode.read node offset length = (data.drop offset).take length

theorem read_tarVNode (data : List Byte) (offset length : ℕ) :
    VNode.read (⟨data⟩ : TarVNode) offset length = (data.drop offset).take length := by
  change (if data.length ≤ offset then [] else _) = _
  by_cases hend : data.length ≤ offset
  · rw [if_pos hend, drop_eq_nil_of_le hend, take_nil]
  · rw [if_neg hend]
    rw [← length_drop, ← take_eq_take_min]

theorem eq_of_read {node : TarVNode} {data : List Byte} (hsize : VNode.getSize node = data.length)
    (hread : ∀ offset length, VNode.read node offset length = (data.drop offset).take length) :
    node.data = data := by
  have hall := hread 0 data.length
  obtain ⟨bytes⟩ := node
  have hlength : bytes.length = data.length := hsize
  rw [read_tarVNode, drop_zero, drop_zero, take_length, ← hlength, take_length] at hall
  exact hall

/-- **The two lookups of a non-empty file agree** exactly if its name has one component, and the
last non-empty entry of that name without leading slashes has the contents of the first entry of
the full name. -/
theorem lookups_agree_iff (ctx : TarContext) (name : String)
    (hentry : ∃ e ∈ ctx.entries, e.name = name ∧ e.data ≠ []) :
    LookupsAgree ctx name ↔
      ∃ part first last, components name '/' = [part] ∧
        ctx.entries.find? (·.name == name) = some first ∧
          (ctx.entries.filter (·.Registers part)).getLast? = some last ∧
          last.data = first.data := by
  -- there is a first entry of the name
  obtain ⟨first, hfirst⟩ : ∃ first, ctx.entries.find? (·.name == name) = some first := by
    obtain ⟨e, he, hname, -⟩ := hentry
    apply Option.isSome_iff_exists.mp
    rw [List.find?_isSome]
    exact ⟨e, he, beq_iff_eq.mpr hname⟩
  have hfind : findFile (some ctx) name = some first.data := by
    rw [findFile_eq, hfirst, Option.map_some]
  constructor
  · intro hagree
    obtain ⟨node, hopen, hdir, hsize, hread⟩ := hagree _ hfind
    rw [openVnode_dir] at hopen
    split at hopen
    · -- no component: the root is a directory
      rw [← Option.some.inj hopen] at hdir
      cases hdir
    · next part hparts =>
      rw [children_buildVfsTreeFromTar] at hopen
      cases hlast : (ctx.entries.filter (·.Registers part)).getLast? with
      | none =>
        rw [hlast] at hopen
        cases hopen
      | some last =>
        rw [hlast] at hopen
        have hnode : InitramfsNode.tar ⟨last.data⟩ = node := Option.some.inj hopen
        subst hnode
        exact ⟨part, first, last, hparts, hfirst, hlast, eq_of_read hsize hread⟩
    · cases hopen
  · rintro ⟨part, first', last, hparts, hfirst', hlast, hdata⟩ data hfound
    rw [hfirst] at hfirst'
    rw [hfind] at hfound
    obtain rfl : first = first' := Option.some.inj hfirst'
    obtain rfl : first.data = data := Option.some.inj hfound
    refine ⟨.tar ⟨last.data⟩, ?_, rfl, congrArg List.length hdata, fun offset length => ?_⟩
    · rw [openVnode_dir, hparts]
      dsimp only
      rw [children_buildVfsTreeFromTar, hlast]
      rfl
    · rw [← hdata]
      exact read_tarVNode last.data offset length

/-- A one-byte program in the root directory, stored with a leading slash. -/
def shellFile : TarFile where
  name := "/shell.elf"
  contents := [1]
  otherFields := fun _ => 0
  name_ne := by decide
  name_le := by decide +kernel
  name_nul := by decide +kernel
  contents_lt := by decide

/-- A one-byte program in a subdirectory. -/
def nestedFile : TarFile where
  name := "bin/sh"
  contents := [1]
  otherFields := fun _ => 0
  name_ne := by decide
  name_le := by decide +kernel
  name_nul := by decide +kernel
  contents_lt := by decide

/-- A program stored twice, behind a file in a subdirectory. -/
theorem lookups_agree_shellFile :
    LookupsAgree (TarFile.archive [nestedFile, shellFile, shellFile] fun _ => 0) "/shell.elf" := by
  have hentries := entries_archive [nestedFile, shellFile, shellFile] fun _ => 0
  refine (lookups_agree_iff _ _ ⟨shellFile.entry, ?_, rfl, ?_⟩).mpr
    ⟨"shell.elf", shellFile.entry, shellFile.entry, ?_, ?_, ?_, rfl⟩
  · rw [hentries]
    exact mem_cons_of_mem _ mem_cons_self
  · exact List.cons_ne_nil _ _
  · decide +kernel
  · rw [hentries]
    decide +kernel
  · rw [hentries]
    decide +kernel

/-- A file in a subdirectory can be executed but not opened. -/
theorem lookups_disagree_nestedFile :
    (∃ e ∈ (TarFile.archive [nestedFile] fun _ => 0).entries, e.name = "bin/sh" ∧ e.data ≠ []) ∧
      findFile (some (TarFile.archive [nestedFile] fun _ => 0)) "bin/sh" = some [1] ∧
        ¬ LookupsAgree (TarFile.archive [nestedFile] fun _ => 0) "bin/sh" := by
  have hentries := entries_archive [nestedFile] fun _ => 0
  have hfind : findFile (some (TarFile.archive [nestedFile] fun _ => 0)) "bin/sh" = some [1] := by
    rw [findFile_eq, hentries]
    decide +kernel
  refine ⟨⟨nestedFile.entry, ?_, rfl, ?_⟩, hfind, fun hagree => ?_⟩
  · rw [hentries]
    exact List.mem_singleton_self _
  · exact List.cons_ne_nil _ _
  · obtain ⟨node, hopen, -⟩ := hagree _ hfind
    have hparts : components "bin/sh" '/' = ["bin", "sh"] := by decide +kernel
    rw [openVnode_dir, hparts] at hopen
    cases hopen

end NwinOs.Fs
