import NwinOs.Core.SyscallFile
import NwinOs.Fs.Equiv.Vfs

/-!
# Descriptors are independent streams

`History` is what the returns of its system calls show of a task: the files it opened, what it read
from each descriptor and the descriptors it closed.  The descriptor table follows the history
(`Tracks`), so that a run shows this of each descriptor (`descriptor_streams`): numbers are not
reused before the counter overflows, and the reads of one descriptor cut the file's contents into
consecutive `chunks`, whatever happens to the other descriptors and tasks in between.
-/

namespace NwinOs.Fs.FdTable

variable {N : Type} {table : FdTable N}

variable {fd : ℕ} {file : FileDescriptor N}

theorem set_get (h : table.get fd = some file) : table.set fd file = table := by
  obtain ⟨descriptors, nextFd⟩ := table
  have hsame : descriptors.insert fd file = descriptors := by
    simp only [FdTable.get] at h
    grind
  rw [FdTable.set, hsame]

theorem insert_of_lt {p : Profile} (h : table.nextFd + 1 < 2 ^ 64) :
    table.insert p file =
      some (⟨table.descriptors.insert table.nextFd file, table.nextFd + 1⟩, table.nextFd) := by
  rw [FdTable.insert, Profile.add_eq_some h, Option.map_some]

theorem close_of_none (h : fd < 3 ∨ table.get fd = none) : table.close fd = (table, false) := by
  by_cases hfd : fd < 3
  · rw [FdTable.close, if_pos hfd]
  · have hnone : table.get fd = none := h.resolve_left hfd
    obtain ⟨descriptors, nextFd⟩ := table
    have hsame : descriptors.erase fd = descriptors := by
      simp only [FdTable.get] at hnone
      grind
    simp only [FdTable.get] at hnone
    rw [FdTable.close, if_neg hfd, hsame, hnone]
    rfl

end NwinOs.Fs.FdTable

namespace NwinOs.Core

open Fs Tasking Transition Function List TaskFiles Nat

/-! ### Chunks of a stream -/

/-- The pieces that reads of the given lengths cut off the front of a list, one after the other. -/
def chunks {α : Type*} (data : List α) : List ℕ → List (List α)
  | [] => []
  | length :: lengths => data.take length :: chunks (data.drop length) lengths

section Chunks

variable {α : Type*} {data : List α} {lengths : List ℕ}

theorem chunks_concat (length : ℕ) : chunks data (lengths ++ [length])
    = chunks data lengths ++ [(data.drop lengths.sum).take length] := by
  induction lengths generalizing data with
  | nil => rfl
  | cons n lengths ih =>
    rw [cons_append, chunks, chunks, ih, drop_drop, sum_cons, cons_append]

theorem flatten_chunks : (chunks data lengths).flatten = data.take lengths.sum := by
  induction lengths generalizing data with
  | nil => simp [chunks]
  | cons n lengths ih => rw [chunks, flatten_cons, ih, sum_cons, take_add]

/-- The next piece starts behind the ones that were delivered. -/
theorem drop_length_flatten_chunks :
    data.drop (chunks data lengths).flatten.length = data.drop lengths.sum := by
  rw [flatten_chunks, length_take]
  rcases le_total lengths.sum data.length with h | h
  · rw [min_eq_left h]
  · rw [min_eq_right h, drop_length, drop_eq_nil_of_le h]

end Chunks

/-! ### What a run shows of a task -/

/-- The files a task opened with their numbers, the reads of each descriptor (length of the buffer
and bytes delivered), and the descriptors it closed. -/
structure History (N : Type) where
  opens : List (ℕ × N)
  reads : ℕ → List (ℕ × List Byte)
  closes : List ℕ

namespace History

variable {N : Type}

/-- Nothing happened yet. -/
def empty : History N := ⟨[], fun _ => [], []⟩

section

variable (h : History N)
include h

/-- The numbers a task got from `sys_open`. -/
def numbers : List ℕ := h.opens.map Prod.fst

/-- The bytes a task got from a descriptor. -/
def stream (fd : ℕ) : List Byte := ((h.reads fd).map Prod.snd).flatten

/-- After an open. -/
def open' (fd : ℕ) (vnode : N) : History N :=
  { h with opens := h.opens ++ [(fd, vnode)] }

/-- After a read. -/
def read (fd length : ℕ) (bytes : List Byte) : History N :=
  { h with reads := update h.reads fd (h.reads fd ++ [(length, bytes)]) }

/-- After a close. -/
def close (fd : ℕ) : History N := { h with closes := h.closes ++ [fd] }

end

variable (openVnode : String → Option N)

/-- One more return; only the successful calls of the task count. -/
def record (id : TaskId) (h : History N) :
    Option FileReturn → History N
  | none => h
  | some r =>
    if r.caller = some id ∧ 0 ≤ r.rax then
      match r.call with
      | .sysOpen filenamePtr =>
        match openVnode (r.user.filename filenamePtr) with
        | some vnode => h.open' r.rax.toNat vnode
        | none => h
      | .sysRead fd _ length => h.read fd length r.bytes
      | .sysClose fd => h.close fd
    else h

/-- The history of a task in a run. -/
def ofTrace (id : TaskId) (tr : List (Option FileReturn)) : History N :=
  tr.foldl (record openVnode id) empty

/-- The descriptor is open: it was opened and not closed since. -/
def IsOpen (h : History N) (fd : ℕ) : Prop := fd ∈ h.numbers ∧ fd ∉ h.closes

variable {vnode : N}

theorem mem_numbers {h : History N} (hmem : (fd, vnode) ∈ h.opens) : fd ∈ h.numbers :=
  mem_map_of_mem hmem

theorem length_opens_record (id : TaskId) (h : History N)
    (r : Option FileReturn) : (h.record openVnode id r).opens.length ≤ h.opens.length + 1 := by
  unfold record
  split
  · exact le_succ _
  · split_ifs
    · split
      · split
        · exact (length_append ..).le
        · exact le_succ _
      · exact le_succ _
      · exact le_succ _
    · exact le_succ _

end History

/-! ### The table follows the history -/

/-- A node that reads like the given contents. -/
def ReadsAs {N : Type} [VNode N] (vnode : N) (data : List Byte) : Prop :=
  ∀ offset length, VNode.read vnode offset length = (data.drop offset).take length

/-- The descriptor table of a task with the given history. -/
structure Tracks {N : Type} [VNode N] (table : FdTable N) (h : History N) : Prop where
  numbers : h.numbers = List.range' 3 h.opens.length
  nextFd : table.nextFd = 3 + h.opens.length
  std : table.get 0 = some .stdin ∧ table.get 1 = some .stdout ∧ table.get 2 = some .stderr
  live : ∀ fd vnode, (fd, vnode) ∈ h.opens → fd ∉ h.closes →
    table.get fd = some (.regularFile vnode (h.stream fd).length)
  gone : ∀ fd, 3 ≤ fd → ¬ h.IsOpen fd → table.get fd = none
  unread : ∀ fd, 3 ≤ fd → fd ∉ h.numbers → h.reads fd = []
  closed : ∀ fd ∈ h.closes, fd ∈ h.numbers
  streams : ∀ fd vnode data, (fd, vnode) ∈ h.opens → ReadsAs vnode data →
    (h.reads fd).map Prod.snd = chunks data ((h.reads fd).map Prod.fst)

namespace Tracks

variable {N : Type} [VNode N] {table : FdTable N} {h : History N}

theorem new : Tracks (FdTable.new : FdTable N) History.empty where
  numbers := rfl
  nextFd := rfl
  std := by
    simp only [FdTable.get, FdTable.new]
    grind
  live := fun _ _ hmem => absurd hmem not_mem_nil
  gone := by
    simp only [FdTable.get, FdTable.new]
    grind
  unread := fun _ _ _ => rfl
  closed := fun _ hmem => absurd hmem not_mem_nil
  streams := fun _ _ _ hmem => absurd hmem not_mem_nil

section

variable (t : Tracks table h)
include t

theorem mem_numbers : fd ∈ h.numbers ↔ 3 ≤ fd ∧ fd < table.nextFd := by
  rw [t.numbers, mem_range'_1, t.nextFd]

theorem vnode_unique {v w : N} (hv : (fd, v) ∈ h.opens) (hw : (fd, w) ∈ h.opens) : v = w := by
  have hnodup : h.numbers.Nodup := t.numbers ▸ nodup_range'
  exact congrArg Prod.snd (inj_on_of_nodup_map hnodup hv hw rfl)

/-- After an open. -/
theorem open' (vnode : N) :
    Tracks ⟨table.descriptors.insert table.nextFd (.regularFile vnode 0), table.nextFd + 1⟩
      (h.open' table.nextFd vnode) := by
  have hnumbers : (h.open' table.nextFd vnode).numbers = h.numbers ++ [table.nextFd] :=
    map_append
  have hfresh : table.nextFd ∉ h.numbers := fun hmem => lt_irrefl _ (t.mem_numbers.mp hmem).2
  have hthree : 3 ≤ table.nextFd := by
    rw [t.nextFd]
    exact le_add_right 3 _
  have hunread : h.reads table.nextFd = [] := t.unread _ hthree hfresh
  have hget : ∀ fd, FdTable.get
      ⟨table.descriptors.insert table.nextFd (.regularFile vnode 0), table.nextFd + 1⟩ fd
        = if fd = table.nextFd then some (.regularFile vnode 0) else table.get fd := by
    simp only [FdTable.get]
    grind
  refine ⟨?_, ?_, ?_, ?_, ?_, ?_, ?_, ?_⟩
  · rw [hnumbers, t.numbers, History.open', length_append, length_singleton,
      range'_concat, t.nextFd, one_mul]
  · rw [History.open', length_append, length_singleton, ← add_assoc, ← t.nextFd]
  · rw [hget, hget, hget, if_neg (by omega), if_neg (by omega), if_neg (by omega)]
    exact t.std
  · intro fd v hmem hopen
    rw [hget]
    rcases mem_append.mp hmem with hmem | hmem
    · have hlt := (t.mem_numbers.mp (History.mem_numbers hmem)).2
      rw [if_neg (Nat.ne_of_lt hlt)]
      exact t.live fd v hmem hopen
    · cases mem_singleton.mp hmem
      rw [if_pos rfl, History.stream, History.open', hunread]
      rfl
  · intro fd hfd hgone
    have hne : fd ≠ table.nextFd := by
      rintro rfl
      refine hgone ⟨?_, fun hclosed => hfresh (t.closed _ hclosed)⟩
      rw [hnumbers]
      exact mem_append_right _ (mem_singleton_self _)
    rw [hget, if_neg hne]
    refine t.gone fd hfd fun hopen => hgone ⟨?_, hopen.2⟩
    rw [hnumbers]
    exact mem_append_left _ hopen.1
  · intro fd hfd hmem
    rw [hnumbers, mem_append, not_or] at hmem
    exact t.unread fd hfd hmem.1
  · intro fd hfd
    rw [hnumbers]
    exact mem_append_left _ (t.closed fd hfd)
  · intro fd v data hmem hv
    rcases mem_append.mp hmem with hmem | hmem
    · exact t.streams fd v data hmem hv
    · cases mem_singleton.mp hmem
      rw [History.open', hunread]
      rfl

/-- After a close. -/
theorem close (hfd : 3 ≤ fd) (hsome : (table.get fd).isSome = true) :
    Tracks (table.close fd).1 (h.close fd) := by
  have hclose : (table.close fd).1 = { table with descriptors := table.descriptors.erase fd } := by
    rw [FdTable.close, if_neg (by omega)]
  have hget : ∀ fd', (table.close fd).1.get fd' = if fd' = fd then none else table.get fd' := by
    simp only [FdTable.get]
    grind
  have hcloses : ∀ fd', fd' ∈ (h.close fd).closes ↔ fd' ∈ h.closes ∨ fd' = fd := by
    intro fd'
    rw [History.close, mem_append, mem_singleton]
  refine ⟨t.numbers, ?_, ?_, ?_, ?_, t.unread, ?_, t.streams⟩
  · rw [hclose]
    exact t.nextFd
  · rw [hget, hget, hget, if_neg (by omega), if_neg (by omega), if_neg (by omega)]
    exact t.std
  · intro fd' v hmem hopen
    rw [hcloses, not_or] at hopen
    rw [hget, if_neg hopen.2]
    exact t.live fd' v hmem hopen.1
  · intro fd' hfd' hgone
    rw [hget]
    by_cases heq : fd' = fd
    · rw [if_pos heq]
    · rw [if_neg heq]
      refine t.gone fd' hfd' fun hopen => hgone ⟨hopen.1, ?_⟩
      rw [hcloses, not_or]
      exact ⟨hopen.2, heq⟩
  · intro fd' hfd'
    rcases (hcloses fd').mp hfd' with hclosed | rfl
    · exact t.closed fd' hclosed
    · -- what can be closed was opened
      by_contra hnot
      rw [t.gone fd' hfd fun hopen => hnot hopen.1] at hsome
      cases hsome

variable {bytes : List Byte}

/-- `sys_read` on an open file: the cursor advances by what was delivered. -/
theorem read (hmem : (fd, vnode) ∈ h.opens) (hlive : fd ∉ h.closes) (length : ℕ)
    (hbytes : bytes = VNode.read vnode (h.stream fd).length length) :
    Tracks (table.set fd (.regularFile vnode ((h.stream fd).length + bytes.length)))
      (h.read fd length bytes) := by
  have hget : ∀ fd', (table.set fd
      (.regularFile vnode ((h.stream fd).length + bytes.length))).get fd'
        = if fd' = fd then some (.regularFile vnode ((h.stream fd).length + bytes.length))
          else table.get fd' := by
    simp only [FdTable.set, FdTable.get]
    grind
  have hmine : (h.read fd length bytes).reads fd = h.reads fd ++ [(length, bytes)] :=
    update_self ..
  have hother : ∀ fd', fd' ≠ fd → (h.read fd length bytes).reads fd' = h.reads fd' :=
    fun fd' hne => update_of_ne hne ..
  have hin : fd ∈ h.numbers := History.mem_numbers hmem
  have hthree := (t.mem_numbers.mp hin).1
  refine ⟨t.numbers, t.nextFd, ?_, ?_, ?_, ?_, t.closed, ?_⟩
  · rw [hget, hget, hget, if_neg (by omega), if_neg (by omega), if_neg (by omega)]
    exact t.std
  · intro fd' v hmem' hopen
    rw [hget]
    by_cases heq : fd' = fd
    · subst heq
      obtain rfl := t.vnode_unique hmem hmem'
      rw [if_pos rfl, History.stream, History.stream, hmine, map_append, flatten_append,
        length_append, map_singleton, flatten_singleton]
    · rw [if_neg heq, History.stream, hother fd' heq]
      exact t.live fd' v hmem' hopen
  · intro fd' hfd' hgone
    have hne : fd' ≠ fd := fun heq => hgone ⟨heq ▸ hin, heq ▸ hlive⟩
    rw [hget, if_neg hne]
    exact t.gone fd' hfd' hgone
  · intro fd' hfd' hnot
    rw [hother fd' fun heq => hnot (heq ▸ hin)]
    exact t.unread fd' hfd' hnot
  · intro fd' v data hmem' hv
    by_cases heq : fd' = fd
    · subst heq
      obtain rfl := t.vnode_unique hmem hmem'
      have hstream := t.streams fd' vnode data hmem hv
      rw [hmine, map_append, map_append, map_singleton, map_singleton,
        chunks_concat, ← hstream, hbytes, hv, History.stream, hstream, drop_length_flatten_chunks]
    · rw [hother fd' heq]
      exact t.streams fd' v data hmem' hv

theorem readStd (hfd : fd < 3) (length : ℕ) (bytes : List Byte) :
    Tracks table (h.read fd length bytes) := by
  have hother : ∀ fd', 3 ≤ fd' → (h.read fd length bytes).reads fd' = h.reads fd' :=
    fun fd' hfd' => update_of_ne (by omega) ..
  have hthree : ∀ {fd' v}, (fd', v) ∈ h.opens → 3 ≤ fd' :=
    fun hmem => (t.mem_numbers.mp (History.mem_numbers hmem)).1
  refine ⟨t.numbers, t.nextFd, t.std, ?_, t.gone, ?_, t.closed, ?_⟩
  · intro fd' v hmem hopen
    rw [History.stream, hother fd' (hthree hmem)]
    exact t.live fd' v hmem hopen
  · intro fd' hfd' hnot
    rw [hother fd' hfd']
    exact t.unread fd' hfd' hnot
  · intro fd' v data hmem hv
    rw [hother fd' (hthree hmem)]
    exact t.streams fd' v data hmem hv

/-- What the table holds at a slot: a standard stream, an open file, or nothing. -/
theorem get_cases (fd : ℕ) :
    (fd = 0 ∧ table.get fd = some .stdin) ∨ (fd = 1 ∧ table.get fd = some .stdout) ∨
      (fd = 2 ∧ table.get fd = some .stderr) ∨
      (∃ vnode, 3 ≤ fd ∧ (fd, vnode) ∈ h.opens ∧ fd ∉ h.closes ∧
        table.get fd = some (.regularFile vnode (h.stream fd).length)) ∨
      3 ≤ fd ∧ ¬ h.IsOpen fd ∧ table.get fd = none := by
  by_cases hfd : 3 ≤ fd
  · by_cases hopen : h.IsOpen fd
    · obtain ⟨⟨fd', vnode⟩, hmem, rfl⟩ := mem_map.mp hopen.1
      exact .inr (.inr (.inr (.inl ⟨vnode, hfd, hmem, hopen.2, t.live _ vnode hmem hopen.2⟩)))
    · exact .inr (.inr (.inr (.inr ⟨hfd, hopen, t.gone fd hfd hopen⟩)))
  · obtain ⟨h0, h1, h2⟩ := t.std
    obtain rfl | rfl | rfl : fd = 0 ∨ fd = 1 ∨ fd = 2 := by omega
    · exact .inl ⟨rfl, h0⟩
    · exact .inr (.inl ⟨rfl, h1⟩)
    · exact .inr (.inr (.inl ⟨rfl, h2⟩))

end

end Tracks

/-! ### System calls of a task -/

namespace TaskFiles

variable {N : Type} {s : TaskFiles N} {id : TaskId} {table : FdTable N}

theorem setTable_self (hs : s.fdTables[id]? = some table) : s.setTable id table = s := by
  obtain ⟨currentTask, fdTables, keys⟩ := s
  have hsame : fdTables.insert id table = fdTables := by
    grind
  rw [setTable, hsame]

theorem getElem?_setTable (s : TaskFiles N) (id id' : TaskId) (table : FdTable N) :
    (s.setTable id table).fdTables[id']? = if id' = id then some table else s.fdTables[id']? := by
  rw [setTable, Std.ExtTreeMap.getElem?_insert]
  by_cases h : id' = id
  · rw [if_pos h, if_pos (by simpa using h.symm)]
  · rw [if_neg h, if_neg (by simpa using fun heq => h heq.symm)]

section

variable (hcur : s.currentTask = some id) (hs : s.fdTables[id]? = some table)
include hcur hs

theorem currentTable_eq : s.currentTable = some (id, table) := by
  rw [currentTable, hcur]
  dsimp only
  rw [hs, Option.map_some]

variable {user : UserMemory}

theorem sysRead_of_none [VNode N] {bufferPtr length : ℕ}
    (hvalid : user.isValidUserMemory bufferPtr length = true)
    (hget : table.get fd = none ∨ table.get fd = some .stdout ∨ table.get fd = some .stderr) :
    s.sysRead user fd bufferPtr length = some (s, -9, []) := by
  unfold sysRead
  rw [hvalid, if_neg (by decide), currentTable_eq hcur hs]
  dsimp only
  rcases hget with hget | hget | hget <;> rw [hget]

/-- **A read of an open file** returns what the node reads at the cursor. -/
theorem sysRead_of_file [VNode N] {bufferPtr length offset : ℕ}
    (hvalid : user.isValidUserMemory bufferPtr length = true)
    (hget : table.get fd = some (.regularFile vnode offset)) :
    s.sysRead user fd bufferPtr length =
      some (s.setTable id (table.set fd (.regularFile vnode
          (offset + (VNode.read vnode offset length).length))),
        ((VNode.read vnode offset length).length : ℤ), VNode.read vnode offset length) := by
  unfold sysRead
  rw [hvalid, if_neg (by decide), currentTable_eq hcur hs]
  dsimp only
  rw [hget]
  dsimp only
  split_ifs with hpos
  · rfl
  · -- at the end of the file the cursor stays
    have hnil : VNode.read vnode offset length = [] := by
      rwa [pos_iff_ne_zero, not_not, length_eq_zero_iff] at hpos
    rw [hnil, length_nil, add_zero, FdTable.set_get hget, setTable_self hs]
    rfl

theorem sysClose_of_none (hfd : fd < 3 ∨ table.get fd = none) : s.sysClose fd = (s, -9) := by
  unfold sysClose
  rw [currentTable_eq hcur hs]
  dsimp only
  rw [FdTable.close_of_none hfd]
  dsimp only
  rw [setTable_self hs]

end

end TaskFiles

/-! ### Steps and runs -/

/-- The task is registered, and its table follows the history. -/
def TracksTask {N : Type} [VNode N] (id : TaskId) (s : TaskFiles N) (h : History N) : Prop :=
  ∃ table, s.fdTables[id]? = some table ∧ Tracks table h

theorem History.record_of_neg {N : Type} {openVnode : String → Option N} {id : TaskId}
    {h : History N} {call : FileCall} {rax : ℤ}
    (hrax : rax < 0) : h.record openVnode id (some ⟨some id, user, call, rax, bytes⟩) = h := by
  have hfailed : ¬ (some id = some id ∧ 0 ≤ rax) := fun hand => absurd hand.2 (by omega)
  rw [History.record, if_neg hfailed]

namespace TracksTask

variable {N : Type} [VNode N] {openVnode : String → Option N} {p : Profile} {id : TaskId}
  {s s' : TaskFiles N} {h : History N} {user : UserMemory} {rax : ℤ} {bytes : List Byte}

section

variable (t : TracksTask id s h)
include t

section

variable (hcur : s.currentTask = some id)
include hcur

/-- `sys_open` of the task itself. -/
theorem sysOpen (hroom : h.opens.length + 4 < 2 ^ 64) {filenamePtr : ℕ}
    (hopen : s.sysOpen p openVnode user filenamePtr = some (s', rax)) :
    TracksTask id s'
      (h.record openVnode id (some ⟨some id, user, .sysOpen filenamePtr, rax, []⟩)) := by
  obtain ⟨table, hs, ht⟩ := t
  unfold TaskFiles.sysOpen at hopen
  by_cases hvalid : user.isValidUserMemory filenamePtr 256 = false
  · rw [if_pos hvalid] at hopen
    cases hopen
    rw [History.record_of_neg (by decide)]
    exact ⟨table, hs, ht⟩
  · rw [if_neg hvalid] at hopen
    cases hnode : openVnode (user.filename filenamePtr) with
    | none =>
      rw [hnode] at hopen
      cases hopen
      rw [History.record_of_neg (by decide)]
      exact ⟨table, hs, ht⟩
    | some vnode =>
      have hlt : table.nextFd + 1 < 2 ^ 64 := by
        rw [ht.nextFd]
        omega
      rw [hnode, TaskFiles.currentTable_eq hcur hs] at hopen
      dsimp only at hopen
      rw [FdTable.insert_of_lt hlt, Option.map_some] at hopen
      have hpos : 0 < table.nextFd := by
        rw [ht.nextFd]
        omega
      have hrecord : h.record openVnode id
          (some ⟨some id, user, .sysOpen filenamePtr, (table.nextFd : ℤ), []⟩)
            = h.open' table.nextFd vnode := by
        rw [History.record, if_pos ⟨rfl, Int.natCast_nonneg _⟩]
        dsimp only
        rw [hnode, Int.toNat_natCast]
      dsimp only at hopen
      rw [if_pos hpos] at hopen
      cases hopen
      rw [hrecord]
      refine ⟨_, ?_, ht.open' vnode⟩
      rw [getElem?_setTable, if_pos rfl]

/-- `sys_read` of the task itself. -/
theorem sysRead {bufferPtr length : ℕ}
    (hread : s.sysRead user fd bufferPtr length = some (s', rax, bytes)) :
    TracksTask id s'
      (h.record openVnode id (some ⟨some id, user, .sysRead fd bufferPtr length, rax, bytes⟩)) := by
  obtain ⟨table, hs, ht⟩ := t
  by_cases hvalid : user.isValidUserMemory bufferPtr length = false
  · rw [TaskFiles.sysRead, if_pos hvalid] at hread
    cases hread
    rw [History.record_of_neg (by decide)]
    exact ⟨table, hs, ht⟩
  · have hvalid' : user.isValidUserMemory bufferPtr length = true := by simpa using hvalid
    have hfails : table.get fd = none ∨ table.get fd = some .stdout ∨ table.get fd = some .stderr →
        TracksTask id s' (h.record openVnode id
          (some ⟨some id, user, .sysRead fd bufferPtr length, rax, bytes⟩)) := by
      intro hget
      rw [sysRead_of_none hcur hs hvalid' hget] at hread
      cases hread
      rw [History.record_of_neg (by decide)]
      exact ⟨table, hs, ht⟩
    have hrecord : ∀ n : ℕ, h.record openVnode id
        (some ⟨some id, user, .sysRead fd bufferPtr length, (n : ℤ), bytes⟩)
          = h.read fd length bytes := by
      intro n
      rw [History.record, if_pos ⟨rfl, Int.natCast_nonneg _⟩]
    rcases ht.get_cases fd with ⟨rfl, hget⟩ | ⟨-, hget⟩ | ⟨-, hget⟩ |
      ⟨vnode, -, hmem, hlive, hget⟩ |
      ⟨-, -, hget⟩
    · -- the keyboard: the table is not touched
      have hkeeps : s'.fdTables = s.fdTables ∧ ∃ n : ℕ, rax = n := by
        unfold TaskFiles.sysRead at hread
        rw [if_neg hvalid, TaskFiles.currentTable_eq hcur hs] at hread
        dsimp only at hread
        rw [hget] at hread
        by_cases hlength : 0 < length
        · rw [if_pos hlength] at hread
          cases hkeys : s.keys with
          | nil =>
            rw [hkeys] at hread
            cases hread
          | cons c keys =>
            rw [hkeys] at hread
            cases hread
            exact ⟨rfl, _, rfl⟩
        · rw [if_neg hlength] at hread
          cases hread
          exact ⟨rfl, 0, rfl⟩
      obtain ⟨hsame, n, rfl⟩ := hkeeps
      rw [hrecord]
      exact ⟨table, hsame ▸ hs, ht.readStd (by decide) length bytes⟩
    · exact hfails (.inr (.inl hget))
    · exact hfails (.inr (.inr hget))
    · rw [sysRead_of_file hcur hs hvalid' hget] at hread
      cases hread
      rw [hrecord]
      refine ⟨_, ?_, ht.read hmem hlive length rfl⟩
      rw [getElem?_setTable, if_pos rfl]
    · exact hfails (.inl hget)

/-- `sys_close` of the task itself. -/
theorem sysClose (fd : ℕ) :
    TracksTask id (s.sysClose fd).1
      (h.record openVnode id (some ⟨some id, user, .sysClose fd, (s.sysClose fd).2, []⟩)) := by
  obtain ⟨table, hs, ht⟩ := t
  by_cases hnone : fd < 3 ∨ table.get fd = none
  · rw [sysClose_of_none hcur hs hnone, History.record_of_neg (show (-9 : ℤ) < 0 by decide)]
    exact ⟨table, hs, ht⟩
  · obtain ⟨hfd, hget⟩ := not_or.mp hnone
    have hsome : (table.get fd).isSome = true := Option.isSome_iff_ne_none.mpr hget
    have hclose : table.close fd = ((table.close fd).1, true) := by
      rw [FdTable.close, if_neg hfd]
      exact congrArg _ hsome
    unfold TaskFiles.sysClose
    rw [TaskFiles.currentTable_eq hcur hs]
    dsimp only
    rw [hclose]
    rw [History.record, if_pos ⟨rfl, le_refl 0⟩]
    refine ⟨_, ?_, ht.close (by omega) hsome⟩
    rw [getElem?_setTable, if_pos rfl]

end

theorem other (hcur : s.currentTask ≠ some id) {call : FileCall}
    (hcall : s.doCall p openVnode user call = some (s', rax, bytes)) :
    TracksTask id s'
      (h.record openVnode id (some ⟨s.currentTask, user, call, rax, bytes⟩)) := by
  have hnot : ¬ (s.currentTask = some id ∧ 0 ≤ rax) := fun hand => hcur hand.1
  rw [History.record, if_neg hnot]
  suffices hsame : s'.fdTables[id]? = s.fdTables[id]? by
    obtain ⟨table, hs, ht⟩ := t
    exact ⟨table, hsame.trans hs, ht⟩
  have hset : ∀ id' table, s.currentTable = some (id', table) → ∀ table',
      (s.setTable id' table').fdTables[id]? = s.fdTables[id]? := by
    intro id' table htable table'
    rw [getElem?_setTable, if_neg]
    rintro rfl
    -- the current table is the current task's
    unfold currentTable at htable
    split at htable
    · next id' hid' =>
      obtain ⟨_, -, heq⟩ := Option.map_eq_some_iff.mp htable
      cases heq
      exact hcur hid'
    · cases htable
  cases call with
  | sysOpen filenamePtr =>
    obtain ⟨⟨s₁, _⟩, hopen, heq⟩ := Option.map_eq_some_iff.mp hcall
    cases heq
    unfold TaskFiles.sysOpen at hopen
    split_ifs at hopen
    · cases hopen
      rfl
    · split at hopen
      · cases hopen
        rfl
      · split at hopen
        · cases hopen
          rfl
        · next htable =>
          obtain ⟨_, -, heq⟩ := Option.map_eq_some_iff.mp hopen
          cases heq
          exact hset _ _ htable _
  | sysRead fd bufferPtr length =>
    simp only [TaskFiles.doCall, TaskFiles.sysRead] at hcall
    grind
  | sysClose fd =>
    simp only [TaskFiles.doCall, TaskFiles.sysClose] at hcall
    grind

/-- **One step**, unless it registers or removes the task. -/
theorem step {a : FileAction} {r : Option FileReturn}
    (hroom : h.opens.length + 4 < 2 ^ 64) (hspawn : a ≠ .spawn id) (hkill : a ≠ .kill id)
    (hstep : s.step p openVnode a = some (s', r)) :
    TracksTask id s' (h.record openVnode id r) := by
  cases a with
  | call user call =>
    obtain ⟨⟨s₁, rax, bytes⟩, hcall, heq⟩ := Option.map_eq_some_iff.mp hstep
    cases heq
    by_cases hcur : s.currentTask = some id
    · rw [hcur]
      cases call with
      | sysOpen filenamePtr =>
        obtain ⟨⟨s₂, rax'⟩, hopen, heq⟩ := Option.map_eq_some_iff.mp hcall
        cases heq
        exact t.sysOpen hcur hroom hopen
      | sysRead fd bufferPtr length => exact t.sysRead hcur hcall
      | sysClose fd =>
        cases hcall
        exact t.sysClose hcur fd
    · exact t.other hcur hcall
  | switchTo _ | key _ =>
    cases hstep
    exact t
  | spawn id' =>
    cases hstep
    obtain ⟨table, hs, ht⟩ := t
    have hne : id ≠ id' := fun heq => hspawn (heq ▸ rfl)
    exact ⟨table, (getElem?_setTable ..).trans ((if_neg hne).trans hs), ht⟩
  | kill id' =>
    cases hstep
    obtain ⟨table, hs, ht⟩ := t
    refine ⟨table, ?_, ht⟩
    have hne : id' ≠ id := fun heq => hkill (heq ▸ rfl)
    rw [Std.ExtTreeMap.getElem?_erase, if_neg (by simpa using hne), hs]

end

/-- **A whole run**, by induction over its steps. -/
theorem run {acts : List FileAction} : ∀ {s : TaskFiles N} {h : History N}
    {tr : List (Option FileReturn)}, TracksTask id s h →
      h.opens.length + acts.length + 3 < 2 ^ 64 → (∀ a ∈ acts, a ≠ .spawn id ∧ a ≠ .kill id) →
        Transition.run (TaskFiles.step p openVnode) s acts = some (s', tr) →
          TracksTask id s' (tr.foldl (History.record openVnode id) h) := by
  induction acts with
  | nil =>
    intro s h tr t _ _ hrun
    cases hrun
    exact t
  | cons a acts ih =>
    intro s h tr t hroom hacts hrun
    obtain ⟨s₁, r, tr', hstep, hrun', rfl⟩ := run_cons_eq_some.mp hrun
    obtain ⟨hspawn, hkill⟩ := hacts a mem_cons_self
    have hlen := h.length_opens_record openVnode id r
    rw [length_cons] at hroom
    rw [foldl_cons]
    exact ih (t.step (by omega) hspawn hkill hstep) (by omega)
      (fun a' ha' => hacts a' (mem_cons_of_mem _ ha')) hrun'

end TracksTask

theorem length_of_reads {data : List Byte} {reads before after : List (ℕ × List Byte)} {length : ℕ}
    (h : reads.map Prod.snd = chunks data (reads.map Prod.fst))
    (hsplit : reads = before ++ (length, bytes) :: after) :
    bytes.length = min length (data.length - (before.map Prod.snd).flatten.length) := by
  subst hsplit
  induction before generalizing data with
  | nil =>
    rw [nil_append, map_cons, map_cons, chunks, List.cons.injEq] at h
    have hbytes : bytes = data.take length := h.1
    rw [hbytes, length_take]
    rfl
  | cons r before ih =>
    rw [cons_append, map_cons, map_cons, chunks, List.cons.injEq] at h
    rw [ih h.2, length_drop, map_cons, flatten_cons, length_append, h.1, length_take]
    rcases le_total r.1 data.length with hle | hle
    · rw [min_eq_left hle, Nat.sub_sub]
    · omega

/-- **Descriptors are independent, sequential streams.**  In every run of the file system calls of
any tasks, from a state in which the task has a new descriptor table, and as long as the counter of
the descriptors does not overflow: the numbers it gets are new and at least three; the reads of a
descriptor of an initramfs file deliver consecutive pieces of that file's contents, which depend
only on the lengths of these reads; a read of an open descriptor succeeds and delivers the next
piece; and on a descriptor that is not open, calls fail with `-EBADF` and change nothing. -/
theorem descriptor_streams (p : Profile) (openVnode : String → Option InitramfsNode) (id : TaskId)
    (s s' : TaskFiles InitramfsNode) (acts : List FileAction) (tr : List (Option FileReturn))
    (hnew : s.fdTables[id]? = some .new) (hacts : ∀ a ∈ acts, a ≠ .spawn id ∧ a ≠ .kill id)
    (hroom : acts.length + 3 < 2 ^ 64)
    (hrun : run (TaskFiles.step p openVnode) s acts = some (s', tr)) :
    let h := History.ofTrace openVnode id tr
    (h.numbers.Nodup ∧ ∀ fd ∈ h.numbers, 3 ≤ fd) ∧
    (∀ fd data, (fd, .tar ⟨data⟩) ∈ h.opens →
      (h.reads fd).map Prod.snd = chunks data ((h.reads fd).map Prod.fst) ∧
      h.stream fd = data.take (h.stream fd).length ∧
      ∀ before length bytes after, h.reads fd = before ++ (length, bytes) :: after →
        bytes.length = min length (data.length - (before.map Prod.snd).flatten.length)) ∧
    (s'.currentTask = some id → ∀ fd user,
      (∀ data, (fd, .tar ⟨data⟩) ∈ h.opens → fd ∉ h.closes →
        ∀ bufferPtr length, user.isValidUserMemory bufferPtr length = true →
          ∃ s'' bytes, s'.step p openVnode (.call user (.sysRead fd bufferPtr length)) =
              some (s'', some
                ⟨some id, user, .sysRead fd bufferPtr length, (bytes.length : ℕ), bytes⟩) ∧
            bytes = (data.drop (h.stream fd).length).take length ∧
            bytes.length = min length (data.length - (h.stream fd).length)) ∧
      (¬ h.IsOpen fd →
        (fd ≠ 0 → ∀ bufferPtr length, user.isValidUserMemory bufferPtr length = true →
          s'.step p openVnode (.call user (.sysRead fd bufferPtr length))
            = some (s', some ⟨some id, user, .sysRead fd bufferPtr length, -9, []⟩)) ∧
        s'.step p openVnode (.call user (.sysClose fd))
          = some (s', some ⟨some id, user, .sysClose fd, -9, []⟩))) := by
  intro h
  obtain ⟨table, hs, ht⟩ : TracksTask id s' h :=
    TracksTask.run ⟨_, hnew, Tracks.new⟩ ((Nat.zero_add _).symm ▸ hroom) hacts hrun
  refine ⟨⟨ht.numbers ▸ List.nodup_range', fun fd hfd => (ht.mem_numbers.mp hfd).1⟩, ?_, ?_⟩
  · intro fd data hmem
    have hstream := ht.streams fd _ data hmem (read_tarVNode data)
    refine ⟨hstream, ?_, fun before length bytes after hsplit => length_of_reads hstream hsplit⟩
    rw [History.stream, hstream, flatten_chunks, List.length_take, ← List.take_eq_take_min]
  · intro hcur fd user
    refine ⟨fun data hmem hlive bufferPtr length hvalid => ?_, fun hopen => ?_⟩
    · have hbytes := read_tarVNode data (h.stream fd).length length
      have hlength := congrArg List.length hbytes
      rw [length_take, length_drop] at hlength
      rw [TaskFiles.step, TaskFiles.doCall,
        TaskFiles.sysRead_of_file hcur hs hvalid (ht.live fd _ hmem hlive), hcur]
      exact ⟨_, _, rfl, hbytes, hlength⟩
    have hgone : fd < 3 ∨ table.get fd = none := by
      rcases Nat.lt_or_ge fd 3 with hfd | hfd
      · exact .inl hfd
      · exact .inr (ht.gone fd hfd hopen)
    constructor
    · intro hfd bufferPtr length hvalid
      have hget : table.get fd = none ∨ table.get fd = some .stdout ∨
          table.get fd = some .stderr := by
        rcases ht.get_cases fd with ⟨h0, -⟩ | ⟨-, h1⟩ | ⟨-, h2⟩ |
          ⟨_, -, hmem, hlive, -⟩ | ⟨-, -, h3⟩
        · exact absurd h0 hfd
        · exact .inr (.inl h1)
        · exact .inr (.inr h2)
        · exact absurd ⟨History.mem_numbers hmem, hlive⟩ hopen
        · exact .inl h3
      rw [TaskFiles.step, TaskFiles.doCall, TaskFiles.sysRead_of_none hcur hs hvalid hget, hcur]
      rfl
    · rw [TaskFiles.step, TaskFiles.doCall, TaskFiles.sysClose_of_none hcur hs hgone, hcur]
      rfl

/-- A task with a new descriptor table. -/
def TaskFiles.oneTask (N : Type := Unit) : TaskFiles N :=
  ⟨some 1, (∅ : Std.ExtTreeMap TaskId (FdTable N)).insert 1 .new, []⟩

theorem TaskFiles.oneTask_currentTable {N : Type} : (oneTask N).currentTable = some (1, .new) :=
  TaskFiles.currentTable_eq rfl Std.ExtTreeMap.getElem?_insert_self

/-- Memory in which every page is the user's. -/
def sampleUser : UserMemory := ⟨fun _ => 0, fun _ => true⟩

/-- Every path is that of a file of three bytes. -/
def openSample (_ : String) : Option InitramfsNode := some (.tar ⟨[1, 2, 3]⟩)

/-- A task opens the file twice, reads it in two pieces through one of the descriptors and from the
start through the other, and closes one. -/
def sampleActs : List FileAction :=
  [.call sampleUser (.sysOpen 4096), .call sampleUser (.sysOpen 4096),
    .call sampleUser (.sysRead 3 8192 2), .call sampleUser (.sysRead 4 8192 1),
    .call sampleUser (.sysRead 3 8192 5), .call sampleUser (.sysClose 3)]

theorem descriptor_streams_sample : ∃ s tr,
    run (TaskFiles.step .dev openSample) (.oneTask _) sampleActs = some (s, tr) ∧
    (History.ofTrace openSample 1 tr).numbers = [3, 4] ∧
    (History.ofTrace openSample 1 tr).reads 3 = [(2, [1, 2]), (5, [3])] ∧
    (History.ofTrace openSample 1 tr).numbers.Nodup ∧
    ∃ s' bytes, s.step .dev openSample (.call sampleUser (.sysRead 4 8192 7)) =
        some (s', some ⟨some 1, sampleUser, .sysRead 4 8192 7, 2, bytes⟩) ∧ bytes = [2, 3] := by
  have hmap : (run (TaskFiles.step .dev openSample) (.oneTask _) sampleActs).map (fun r =>
      ((History.ofTrace openSample 1 r.2).opens, (History.ofTrace openSample 1 r.2).reads 3,
        (History.ofTrace openSample 1 r.2).reads 4, (History.ofTrace openSample 1 r.2).closes,
        r.1.currentTask)) =
      some ([(3, .tar ⟨[1, 2, 3]⟩), (4, .tar ⟨[1, 2, 3]⟩)], [(2, [1, 2]), (5, [3])],
      [(1, [1])], [3],
        some 1) := rfl
  obtain ⟨⟨s, tr⟩, hrun, hmap⟩ := Option.map_eq_some_iff.mp hmap
  simp only [Prod.mk.injEq] at hmap
  obtain ⟨hopens, hthree, hfour, hcloses, hcur⟩ := hmap
  have hacts : ∀ a ∈ sampleActs, a ≠ .spawn 1 ∧ a ≠ .kill 1 := by
    intro a ha
    simp only [sampleActs, List.mem_cons, List.not_mem_nil, or_false] at ha
    rcases ha with rfl | rfl | rfl | rfl | rfl | rfl <;> exact ⟨nofun, nofun⟩
  obtain ⟨⟨hnodup, -⟩, -, hnext⟩ := descriptor_streams .dev openSample 1 (.oneTask _) s
    sampleActs tr
    Std.ExtTreeMap.getElem?_insert_self hacts (by decide) hrun
  have hstream : (History.ofTrace openSample 1 tr).stream 4 = [1] := by
    rw [History.stream, hfour]
    rfl
  obtain ⟨s', bytes, hstep, hbytes, -⟩ := (hnext hcur 4 sampleUser).1 [1, 2, 3] (by simp [hopens])
    (by simp [hcloses]) 8192 7 (by decide)
  rw [hstream] at hbytes
  subst hbytes
  exact ⟨s, tr, hrun, by rw [History.numbers, hopens]; rfl, hthree, hnodup, s', _, hstep, rfl⟩

/-- One more call of `open` in the release build. -/
theorem step_sysOpen {s : TaskFiles InitramfsNode} {table : FdTable InitramfsNode}
    (hcur : s.currentTask = some 1) (hs : s.fdTables[1]? = some table) :
    ∃ s', s.step .release openSample (.call sampleUser (.sysOpen 4096)) = some (s', some
        ⟨some 1, sampleUser, .sysOpen 4096, if 0 < table.nextFd then table.nextFd else -24, []⟩) ∧
      s'.currentTask = some 1 ∧ s'.fdTables[1]? = some
        ⟨table.descriptors.insert table.nextFd (.regularFile (.tar ⟨[1, 2, 3]⟩) 0),
          (table.nextFd + 1) % 2 ^ 64⟩ := by
  have hadd : Profile.release.add 64 table.nextFd 1 = some ((table.nextFd + 1) % 2 ^ 64) :=
    Profile.checked_release
  refine ⟨s.setTable 1 _, ?_, hcur, (getElem?_setTable ..).trans (if_pos rfl)⟩
  rw [TaskFiles.step, TaskFiles.doCall, TaskFiles.sysOpen, if_neg (by decide),
    TaskFiles.currentTable_eq hcur hs, openSample]
  dsimp only
  rw [FdTable.insert, hadd, hcur]
  rfl

theorem run_opens (n : ℕ) : ∀ {s : TaskFiles InitramfsNode} {table : FdTable InitramfsNode},
    s.currentTask = some 1 → s.fdTables[1]? = some table → table.nextFd < 2 ^ 64 →
    ∃ s' tr table', run (TaskFiles.step .release openSample) s
        (replicate n (.call sampleUser (.sysOpen 4096))) = some (s', tr) ∧
      s'.currentTask = some 1 ∧ s'.fdTables[1]? = some table' ∧
      table'.nextFd = (table.nextFd + n) % 2 ^ 64 := by
  induction n with
  | zero => exact fun hcur hs hlt => ⟨_, [], _, rfl, hcur, hs, (mod_eq_of_lt hlt).symm⟩
  | succ n ih =>
    intro s table hcur hs hlt
    obtain ⟨s₁, hstep, hcur₁, hs₁⟩ := step_sysOpen hcur hs
    obtain ⟨s', tr, table', hrun, hcur', hs', hnext⟩ := ih hcur₁ hs₁ (mod_lt _ (by decide))
    refine ⟨s', _, table', run_cons_eq_some.mpr ⟨_, _, _, hstep, hrun, rfl⟩, hcur', hs', ?_⟩
    rw [hnext, mod_add_mod, add_assoc, add_comm 1 n]

/-- **Behind its overflow the counter starts again**: after `2^64 - 2` calls of `open` the release
build gives a file the number of the standard output. -/
theorem descriptor_numbers_wrap : ∃ n s tr s',
    run (TaskFiles.step .release openSample) (.oneTask _)
      (replicate n (.call sampleUser (.sysOpen 4096))) = some (s, tr) ∧
    s.step .release openSample (.call sampleUser (.sysOpen 4096)) =
      some (s', some ⟨some 1, sampleUser, .sysOpen 4096, 1, []⟩) := by
  obtain ⟨s, tr, table, hrun, hcur, hs, hnext⟩ := @run_opens (2 ^ 64 - 2) (.oneTask _) .new rfl
    Std.ExtTreeMap.getElem?_insert_self (by decide)
  have hone : table.nextFd = 1 := hnext
  obtain ⟨s', hstep, -⟩ := step_sysOpen hcur hs
  rw [hone] at hstep
  exact ⟨_, s, tr, s', hrun, hstep⟩

end NwinOs.Core
