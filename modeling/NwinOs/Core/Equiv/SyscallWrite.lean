import NwinOs.Core.Equiv.UserBuffer

/-!
# Output in pieces

Each call of `sys_write` decodes its own bytes.  A text that is written in several calls arrives at
the terminal as it would in one iff it is cut between characters
(`sysWrite_pieces_iff`): a piece that ends inside a character is dropped, and the call returns zero.
-/

namespace NwinOs.Core

open Fs Tasking List

theorem nameBytes_of_fromUtf8 {bytes : List Byte} {text : String}
    (h : fromUtf8 bytes = some text) : nameBytes text = bytes := by
  unfold fromUtf8 String.fromUTF8? at h
  split at h
  · obtain rfl := Option.some.inj h
    show (((bytes.map UInt8.ofBitVec).toByteArray).data.toList).map UInt8.toBitVec = bytes
    rw [data_toByteArray, toList_toArray, map_map]
    exact map_id bytes
  · simp at h

namespace TaskFiles

variable {N : Type} {s : TaskFiles N} {id : TaskId} {table : FdTable N} {writer : Bool}
  {user : UserMemory} {ptr n : ℕ} {text : String}

/-- The results of consecutive calls on descriptor 1 that write pieces of the given lengths. -/
def writePieces (s : TaskFiles N) (writer : Bool) (user : UserMemory) : ℕ → List ℕ →
    List (ℤ × List Byte)
  | _, [] => []
  | ptr, n :: lengths =>
    s.sysWrite writer user 1 ptr n :: s.writePieces writer user (ptr + n) lengths

/-- Descriptor 1 of the current task is its output. -/
structure HasOutput (s : TaskFiles N) (id : TaskId) (table : FdTable N) : Prop where
  current : s.currentTask = some id
  registered : s.fdTables[id]? = some table
  stdout : table.get 1 = some .stdout

theorem HasOutput.sysWrite_of_text (h : s.HasOutput id table)
    (hvalid : user.isValidUserMemory ptr n = true)
    (htext : fromUtf8 (user.bytes.slice ptr n) = some text) :
    s.sysWrite writer user 1 ptr n = ((n : ℤ), if writer then nameBytes text else []) := by
  unfold sysWrite
  rw [if_neg (by rw [hvalid]; decide), h.current]
  dsimp only
  rw [h.registered]
  dsimp only
  rw [h.stdout]
  rw [htext]

theorem HasOutput.sysWrite_of_none (h : s.HasOutput id table)
    (hvalid : user.isValidUserMemory ptr n = true)
    (htext : fromUtf8 (user.bytes.slice ptr n) = none) :
    s.sysWrite writer user 1 ptr n = (0, []) := by
  unfold sysWrite
  rw [if_neg (by rw [hvalid]; decide), h.current]
  dsimp only
  rw [h.registered]
  dsimp only
  rw [h.stdout]
  rw [htext]

/-- The pieces of the text are texts. -/
def CutBetweenCharacters (bytes : List Byte) (lengths : List ℕ) : Prop :=
  ∃ parts : List String,
    parts.map (fun part => (nameBytes part).length) = lengths ∧
    (parts.map nameBytes).flatten = bytes

theorem cutBetweenCharacters_cons {lengths : List ℕ} :
    CutBetweenCharacters (user.bytes.slice ptr (n + lengths.sum)) (n :: lengths) ↔
      (∃ text, fromUtf8 (user.bytes.slice ptr n) = some text) ∧
        CutBetweenCharacters (user.bytes.slice (ptr + n) lengths.sum) lengths := by
  rw [Bytes.slice_add]
  constructor
  · rintro ⟨parts, hlengths, hbytes⟩
    obtain ⟨part, rest, rfl, hpart, hrest⟩ := map_eq_cons_iff.mp hlengths
    rw [map_cons, flatten_cons] at hbytes
    obtain ⟨hfirst, hlater⟩ := append_inj hbytes (by rw [hpart, Bytes.length_slice])
    exact ⟨⟨part, by rw [← hfirst, fromUtf8_nameBytes]⟩, rest, hrest, hlater⟩
  · rintro ⟨⟨part, hpart⟩, rest, hrest, hlater⟩
    have hfirst := nameBytes_of_fromUtf8 hpart
    refine ⟨part :: rest, ?_, ?_⟩
    · rw [map_cons, hrest, hfirst, Bytes.length_slice]
    · rw [map_cons, flatten_cons, hfirst, hlater]

theorem HasOutput.writePieces_returns_iff (h : s.HasOutput id table) :
    ∀ {lengths : List ℕ} {ptr : ℕ}, user.isValidUserMemory ptr lengths.sum = true →
      ((s.writePieces writer user ptr lengths).map Prod.fst = lengths.map (↑) ↔
        CutBetweenCharacters (user.bytes.slice ptr lengths.sum) lengths) := by
  intro lengths
  induction lengths with
  | nil =>
    intro ptr _
    exact iff_of_true rfl ⟨[], rfl, rfl⟩
  | cons n lengths ih =>
    intro ptr hvalid
    rw [sum_cons] at hvalid ⊢
    have hfirst : user.isValidUserMemory ptr n = true :=
      UserMemory.isValidUserMemory_part hvalid (o := 0) (by omega)
    have hlater : user.isValidUserMemory (ptr + n) lengths.sum = true :=
      UserMemory.isValidUserMemory_part hvalid (by omega)
    rw [cutBetweenCharacters_cons, writePieces, map_cons, map_cons, List.cons.injEq, ih hlater]
    refine and_congr_left fun _ => ?_
    rcases htext : fromUtf8 (user.bytes.slice ptr n) with _ | text
    · rw [h.sysWrite_of_none hfirst htext]
      refine iff_of_false (fun hreturn => ?_) (by simp)
      -- no bytes are a text, so there are some
      obtain rfl : n = 0 := by
        omega
      rw [show user.bytes.slice ptr 0 = nameBytes "" from rfl, fromUtf8_nameBytes] at htext
      simp at htext
    · rw [h.sysWrite_of_text hfirst htext]
      exact iff_of_true rfl ⟨text, rfl⟩

theorem HasOutput.writePieces_output (h : s.HasOutput id table) :
    ∀ {lengths : List ℕ} {ptr : ℕ}, user.isValidUserMemory ptr lengths.sum = true →
      CutBetweenCharacters (user.bytes.slice ptr lengths.sum) lengths →
      ((s.writePieces writer user ptr lengths).map Prod.snd).flatten
        = if writer then user.bytes.slice ptr lengths.sum else [] := by
  intro lengths
  induction lengths with
  | nil =>
    intro ptr _ _
    split_ifs <;> rfl
  | cons n lengths ih =>
    intro ptr hvalid hcut
    rw [sum_cons] at hvalid hcut ⊢
    obtain ⟨⟨text, htext⟩, hrest⟩ := cutBetweenCharacters_cons.mp hcut
    have hfirst : user.isValidUserMemory ptr n = true :=
      UserMemory.isValidUserMemory_part hvalid (o := 0) (by omega)
    have hlater : user.isValidUserMemory (ptr + n) lengths.sum = true :=
      UserMemory.isValidUserMemory_part hvalid (by omega)
    rw [writePieces, map_cons, flatten_cons, ih hlater hrest,
      h.sysWrite_of_text hfirst htext, nameBytes_of_fromUtf8 htext, Bytes.slice_add]
    split_ifs <;> simp

/-- **Output in pieces**: the calls return their lengths and deliver what one call would iff the
text is cut between characters. -/
theorem sysWrite_pieces_iff (h : s.HasOutput id table) {lengths : List ℕ}
    (hvalid : user.isValidUserMemory ptr lengths.sum = true)
    (htext : user.bytes.slice ptr lengths.sum = nameBytes text) :
    ((s.writePieces writer user ptr lengths).map Prod.fst = lengths.map (↑) ∧
      ((s.writePieces writer user ptr lengths).map Prod.snd).flatten
        = (s.sysWrite writer user 1 ptr lengths.sum).2) ↔
      CutBetweenCharacters (nameBytes text) lengths := by
  have hwhole : fromUtf8 (user.bytes.slice ptr lengths.sum) = some text := by
    rw [htext, fromUtf8_nameBytes]
  rw [h.writePieces_returns_iff hvalid, h.sysWrite_of_text hvalid hwhole, htext]
  refine ⟨And.left, fun hcut => ⟨hcut, ?_⟩⟩
  rw [h.writePieces_output hvalid (htext ▸ hcut), htext]

/-- Memory with the three bytes of the text `éa`. -/
def accentUser : UserMemory where
  bytes := fun i => if i = 0x1000 then 0xC3 else if i = 0x1001 then 0xA9 else 0x61
  isUserPageMapped page := page = 0x1000

/-- The text is written character by character. -/
theorem sysWrite_pieces_accent :
    ((oneTask.writePieces true accentUser 0x1000 [2, 1]).map Prod.fst = [2, 1]) ∧
    ((oneTask.writePieces true accentUser 0x1000 [2, 1]).map Prod.snd).flatten
      = (oneTask.sysWrite true accentUser 1 0x1000 3).2 := by
  have houtput : oneTask.HasOutput 1 .new := by
    refine ⟨rfl, Std.ExtTreeMap.getElem?_insert_self, ?_⟩
    simp only [FdTable.get, FdTable.new]
    grind
  have htext : accentUser.bytes.slice 0x1000 [2, 1].sum = nameBytes "éa" := by decide +kernel
  refine (sysWrite_pieces_iff houtput (by decide) htext).mpr ⟨["é", "a"], ?_, ?_⟩
  · decide +kernel
  · decide +kernel

/-- **A cut inside a character**: both pieces are dropped, and both calls return zero. -/
theorem sysWrite_drops_pieces :
    (oneTask.sysWrite true accentUser 1 0x1000 3) = (3, [0xC3, 0xA9, 0x61]) ∧
    oneTask.writePieces true accentUser 0x1000 [1, 2] = [(0, []), (0, [])] := by
  decide +kernel

end TaskFiles

end NwinOs.Core
