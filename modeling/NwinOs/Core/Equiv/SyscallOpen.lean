import NwinOs.Core.Equiv.UserBuffer

/-!
# Opening the path that the user wrote

`sys_open` checks 256 bytes at the user's pointer, whatever the length of the string there, and
copies at most as many.  So a string that ends near the end of the mapped memory is not accepted,
and one that is longer is opened under its first 256 bytes.  `sysOpen_opens_path_iff` says when
neither matters.
-/

namespace NwinOs.Core

open Fs Tasking List

/-- The user's memory holds the string at the address, with a NUL behind it and none in it, and all
these bytes lie in pages of the user. -/
structure UserMemory.HasString (user : UserMemory) (ptr : ℕ) (path : String) : Prop where
  bytes : user.bytes.slice ptr ((nameBytes path).length + 1) = nameBytes path ++ [0]
  noNul : 0 ∉ nameBytes path
  mapped : ∀ b, ptr ≤ b → b < ptr + (nameBytes path).length + 1 →
    user.isUserPageMapped (b / 4096 * 4096) = true

/-- The name under which the kernel opens a string: what is left of it in 256 bytes. -/
def copiedName (path : String) : String := (fromUtf8 ((nameBytes path).take 256)).getD ""

section

variable {user : UserMemory} {ptr : ℕ} {path : String}

theorem copiedName_of_le (h : (nameBytes path).length ≤ 256) : copiedName path = path := by
  rw [copiedName, take_of_length_le h, fromUtf8_nameBytes, Option.getD_some]

theorem UserMemory.HasString.filename_eq (h : user.HasString ptr path) :
    user.filename ptr = copiedName path := by
  have hcopied : (user.bytes.slice ptr 256).takeWhile (· != 0) = (nameBytes path).take 256 := by
    have hnonzero : ∀ b ∈ nameBytes path, (b != 0) = true := by
      intro b hb
      refine bne_iff_ne.mpr ?_
      rintro rfl
      exact h.noNul hb
    by_cases hlen : (nameBytes path).length < 256
    · -- the terminator is in the window
      obtain ⟨rest, hrest⟩ : ∃ rest, 256 = (nameBytes path).length + 1 + rest :=
        ⟨255 - (nameBytes path).length, by omega⟩
      rw [hrest, Bytes.slice_add, h.bytes, append_assoc,
        takeWhile_append_of_pos hnonzero, take_of_length_le (by omega)]
      simp
    · have hwindow : user.bytes.slice ptr 256 = (nameBytes path).take 256 := by
        have hname := congrArg (List.take 256) h.bytes
        rwa [Bytes.take_slice, Nat.min_eq_left (by omega), take_append_of_le_length (by omega)]
          at hname
      rw [hwindow]
      exact takeWhile_eq_self_iff.mpr fun b hb => hnonzero b (mem_of_mem_take hb)
  rw [filename, hcopied, copiedName]

end

/-! ### The system call -/

namespace TaskFiles

variable {N : Type} {openVnode : String → Option N} {p : Profile} {s : TaskFiles N} {id : TaskId}
  {table : FdTable N} {user : UserMemory} {ptr : ℕ} {path : String}

/-- What opening a path means for the caller: the next descriptor is the node's, or there is no such
file. -/
def opened (p : Profile) (s : TaskFiles N) (id : TaskId) (table : FdTable N) :
    Option N → Option (TaskFiles N × ℤ)
  | none => some (s, -2)
  | some vnode => (table.insert p (.regularFile vnode 0)).map fun r => (s.setTable id r.1, r.2)

/-- The call opens the path that the user wrote, or rejects it when the buffer cannot hold it. -/
def OpensPath (p : Profile) (openVnode : String → Option N) (s : TaskFiles N) (id : TaskId)
    (table : FdTable N) (user : UserMemory) (ptr : ℕ) (path : String) : Prop :=
  if (nameBytes path).length ≤ 256 then
    s.sysOpen p openVnode user ptr = s.opened p id table (openVnode path)
  else ∃ rax < 0, s.sysOpen p openVnode user ptr = some (s, rax)

theorem sysOpen_eq (h : user.HasString ptr path) (htable : s.currentTable = some (id, table))
    (hfd : 0 < table.nextFd) :
    s.sysOpen p openVnode user ptr =
      if user.isValidUserMemory ptr 256 = false then some (s, -14)
      else s.opened p id table (openVnode (copiedName path)) := by
  unfold sysOpen
  split_ifs with hvalid
  · rfl
  · rw [h.filename_eq]
    cases openVnode (copiedName path) with
    | none => rfl
    | some vnode =>
      rw [htable]
      dsimp only [opened, FdTable.insert]
      cases p.add 64 table.nextFd 1 with
      | none => rfl
      | some nextFd =>
        simp only [Option.map_some]
        rw [if_pos hfd]

/-- A file that is opened gets a number. -/
theorem opened_some {vnode : N} {s' : TaskFiles N} {rax : ℤ}
    (h : s.opened p id table (some vnode) = some (s', rax)) : 0 ≤ rax := by
  obtain ⟨r, -, heq⟩ := Option.map_eq_some_iff.mp h
  cases heq
  exact Int.natCast_nonneg _

theorem opened_ne (node : Option N) : s.opened p id table node ≠ some (s, -14) := by
  intro heq
  cases node with
  | none =>
    exact absurd (show (-2 : ℤ) = -14 from congrArg Prod.snd (Option.some.inj heq)) (by decide)
  | some vnode => exact absurd (opened_some heq) (by decide)

/-- **`sys_open` opens the path that the user wrote** iff all 256 bytes behind the pointer may be
read, or the string does not fit into them, and in the latter case what is left of it is not the
name of a file. -/
theorem sysOpen_opens_path_iff (h : user.HasString ptr path)
    (htable : s.currentTable = some (id, table)) (hfd : 0 < table.nextFd) :
    OpensPath p openVnode s id table user ptr path ↔
      if (nameBytes path).length ≤ 256 then user.isValidUserMemory ptr 256 = true
      else user.isValidUserMemory ptr 256 = false ∨ openVnode (copiedName path) = none := by
  unfold OpensPath
  rw [sysOpen_eq h htable hfd]
  by_cases hlen : (nameBytes path).length ≤ 256
  · rw [if_pos hlen, if_pos hlen, copiedName_of_le hlen]
    cases hvalid : user.isValidUserMemory ptr 256 with
    | true => exact iff_of_true (if_neg (by decide)) rfl
    | false =>
      rw [if_pos rfl]
      refine iff_of_false (fun heq => opened_ne _ heq.symm) ?_
      exact Bool.false_ne_true
  · rw [if_neg hlen, if_neg hlen]
    cases hvalid : user.isValidUserMemory ptr 256 with
    | false => exact iff_of_true ⟨-14, by decide, rfl⟩ (.inl rfl)
    | true =>
      rw [if_neg (by decide)]
      cases openVnode (copiedName path) with
      | none => exact iff_of_true ⟨-2, by decide, rfl⟩ (.inr rfl)
      | some vnode =>
        refine iff_of_false ?_ (by simp)
        rintro ⟨rax, hneg, hrejected⟩
        exact absurd (opened_some hrejected) (Int.not_le.mpr hneg)

/-- Memory that holds a string of letters at the address, and of which one page is the user's. -/
def lettersUser (ptr n page : ℕ) : UserMemory where
  bytes := fun i => if ptr ≤ i ∧ i < ptr + n then 0x61 else 0
  isUserPageMapped q := q = page

def letters (n : ℕ) : String := .ofList (List.replicate n 'a')

/-- A file system with one file. -/
def openOnly (name path : String) : Option Unit := if path = name then some () else none

theorem nameBytes_letters (n : ℕ) : nameBytes (letters n) = List.replicate n 0x61 := by
  have hletter : ∀ c ∈ List.replicate n 'a', c.toNat < 128 := by
    intro c hc
    rw [eq_of_mem_replicate hc]
    decide
  rw [letters, nameBytes_ofList hletter, map_replicate]
  rfl

theorem hasString_letters {ptr n page : ℕ} (hpage : page % 4096 = 0) (hfrom : page ≤ ptr)
    (hto : ptr + n < page + 4096) : (lettersUser ptr n page).HasString ptr (letters n) := by
  have hlen : (nameBytes (letters n)).length = n := by
    rw [nameBytes_letters, length_replicate]
  refine ⟨?_, ?_, fun b hb hb' => ?_⟩
  · rw [hlen, nameBytes_letters, Bytes.slice_add]
    congr 1
    · refine eq_replicate_iff.mpr ⟨Bytes.length_slice .., fun b hb => ?_⟩
      obtain ⟨i, hi, rfl⟩ := mem_map.mp hb
      exact if_pos ⟨by omega, by have := mem_range.mp hi; omega⟩
    · exact congrArg (· :: []) (if_neg (by omega))
  · rw [nameBytes_letters]
    intro hmem
    exact absurd (eq_of_mem_replicate hmem) (by decide)
  · exact decide_eq_true (by omega)

/-- A name of one letter in the middle of the user's memory is opened. -/
theorem sysOpen_opens_letter :
    OpensPath .dev (openOnly (letters 1)) oneTask 1 .new (lettersUser 0x1000 1 0x1000) 0x1000
      (letters 1) := by
  refine (sysOpen_opens_path_iff (hasString_letters (by decide) (by decide) (by decide))
    oneTask_currentTable (by decide)).mpr ?_
  rw [if_pos (by rw [nameBytes_letters]; decide)]
  decide

/-- **Two paths that are not opened as they are written**: one letter at the end of the page of the
user's stack, where `execve` puts the arguments, is out of the user's memory for the kernel, and a
name of 257 letters opens the file whose name has 256. -/
theorem sysOpen_misses_paths :
    (lettersUser 0x7FFFF0000FFE 1 0x7FFFF0000000).HasString 0x7FFFF0000FFE (letters 1) ∧
    (oneTask.sysOpen .dev (openOnly (letters 1)) (lettersUser 0x7FFFF0000FFE 1 0x7FFFF0000000)
      0x7FFFF0000FFE).map Prod.snd = some (-14) ∧
    openOnly (letters 1) (letters 1) = some () ∧
    (lettersUser 0x1000 257 0x1000).HasString 0x1000 (letters 257) ∧
    (oneTask.sysOpen .dev (openOnly (letters 256)) (lettersUser 0x1000 257 0x1000) 0x1000).map
      Prod.snd
      = some 3 ∧
    openOnly (letters 256) (letters 257) = none := by
  have hend : (lettersUser 0x7FFFF0000FFE 1 0x7FFFF0000000).HasString 0x7FFFF0000FFE (letters 1) :=
    hasString_letters (by decide) (by decide) (by decide)
  have hlong : (lettersUser 0x1000 257 0x1000).HasString 0x1000 (letters 257) :=
    hasString_letters (by decide) (by decide) (by decide)
  have hcopied : copiedName (letters 257) = letters 256 := by
    rw [copiedName, nameBytes_letters, List.take_replicate, ← nameBytes_letters,
      fromUtf8_nameBytes, Option.getD_some]
    rfl
  have hother : letters 257 ≠ letters 256 := by
    intro heq
    have hlength := congrArg (fun name => (nameBytes name).length) heq
    simp only [nameBytes_letters, List.length_replicate] at hlength
    omega
  refine ⟨hend, ?_, if_pos rfl, hlong, ?_, if_neg hother⟩
  · rw [sysOpen_eq hend oneTask_currentTable (by decide), if_pos (by decide), Option.map_some]
  · rw [sysOpen_eq hlong oneTask_currentTable (by decide), if_neg (by decide), hcopied, openOnly,
      if_pos rfl]
    rfl

end TaskFiles

end NwinOs.Core
