import NwinOs.Fs.Fd
import NwinOs.Tasking.TaskManager
import NwinOs.Transition

/-!
# The file system calls

`sysOpen`, `sysRead`, `sysWrite` and `sysClose` work on the descriptor table of the current task.
`TaskFiles` is what they use of the kernel: the current task, the tables of all registered tasks and
the keyboard buffer.  A step of it is a system call of the current task, or something that happens
between two of them: a task switch, a task that appears or disappears, a key.

The value a call leaves in `rax` is read as a signed number, the number of a descriptor as an
unsigned one.
-/

namespace NwinOs.Core

open Fs Tasking

/-! ### User buffers -/

/-- What a system call sees of its caller's memory. -/
structure UserMemory where
  bytes : Bytes
  isUserPageMapped : ℕ → Bool

/-- The loop over the pages of a buffer. -/
def UserMemory.pagesMapped (user : UserMemory) (endPage : ℕ) : ℕ → ℕ → Bool
  | 0, _ => true
  | fuel + 1, currentPage =>
    if currentPage ≤ endPage then
      if user.isUserPageMapped currentPage = false then false
      else user.pagesMapped endPage fuel (currentPage + 4096)
    else true

/-- The buffer lies in the lower half, and every page of it is mapped with user access. -/
def UserMemory.isValidUserMemory (user : UserMemory) (ptr len : ℕ) : Bool :=
  if ptr = 0 then false
  else if 2 ^ 63 - 1 < len then false
  else if len = 0 then true
  else
    let end' := min (ptr + len) (2 ^ 64 - 1)
    if 0x00007FFFFFFFFFFF < end' then false
    else
      let startPage := ptr / 4096 * 4096
      let endPage := (end' - 1) / 4096 * 4096
      user.pagesMapped endPage ((endPage - startPage) / 4096 + 1) startPage

/-- The file name of `sys_open`: at most 256 bytes up to a NUL, empty if they are not UTF-8. -/
def UserMemory.filename (user : UserMemory) (filenamePtr : ℕ) : String :=
  (fromUtf8 ((user.bytes.slice filenamePtr 256).takeWhile (· != 0))).getD ""

/-! ### System calls -/

/-- The current task, the descriptor tables of the registered tasks, and the keyboard buffer. -/
structure TaskFiles (N : Type) where
  currentTask : Option TaskId
  fdTables : Std.ExtTreeMap TaskId (FdTable N)
  keys : List Char

namespace TaskFiles

variable {N : Type} [VNode N]

variable (s : TaskFiles N)

/-- The descriptor table of the current task, if it is registered. -/
def currentTable : Option (TaskId × FdTable N) :=
  match s.currentTask with
  | some id => (s.fdTables[id]?).map fun table => (id, table)
  | none => none

/-- A task with another descriptor table. -/
def setTable (id : TaskId) (table : FdTable N) : TaskFiles N :=
  { s with fdTables := s.fdTables.insert id table }

/-- `sys_read`: `rax`, and the bytes stored at the start of the buffer.  A read from the keyboard is
not possible until there is a key. -/
def sysRead (user : UserMemory) (fd bufferPtr length : ℕ) : Option (TaskFiles N × ℤ × List Byte) :=
  if user.isValidUserMemory bufferPtr length = false then some (s, -14, [])
  else
    match s.currentTable with
    | none => some (s, 0, [])
    | some (id, table) =>
      match table.get fd with
      | none | some .stdout | some .stderr => some (s, -9, [])
      | some (.regularFile vnode offset) =>
        let bytes := VNode.read vnode offset length
        if 0 < bytes.length then
          some (s.setTable id (table.set fd (.regularFile vnode (offset + bytes.length))),
            bytes.length, bytes)
        else some (s, 0, [])
      | some .stdin =>
        if 0 < length then
          match s.keys with
          | [] => none
          | c :: keys =>
            let encoded := nameBytes (String.singleton c)
            let bytes := encoded.take (min encoded.length length)
            some ({ s with keys }, bytes.length, bytes)
        else some (s, 0, [])

/-- `sys_open`; `openVnode` is the path resolution of the file system.  It panics if the counter of
the descriptors overflows. -/
def sysOpen (p : Profile) (openVnode : String → Option N) (s : TaskFiles N) (user : UserMemory)
    (filenamePtr : ℕ) : Option (TaskFiles N × ℤ) :=
  if user.isValidUserMemory filenamePtr 256 = false then some (s, -14)
  else
    match openVnode (user.filename filenamePtr) with
    | none => some (s, -2)
    | some fileVnode =>
      match s.currentTable with
      | none => some (s, -24)
      | some (id, table) =>
        (table.insert p (.regularFile fileVnode 0)).map fun (table, newFd) =>
          (s.setTable id table, if 0 < newFd then newFd else -24)

/-- `sys_write`: `rax`, and the bytes that `print!` hands to the terminal; `writer` says whether
there is one.  Bytes that are not UTF-8 are dropped. -/
def sysWrite (writer : Bool) (user : UserMemory) (fd bufferPtr length : ℕ) : ℤ × List Byte :=
  if user.isValidUserMemory bufferPtr length = false then (-14, [])
  else
    let slice := user.bytes.slice bufferPtr length
    let print (text : String) : List Byte := if writer then nameBytes text else []
    match s.currentTask with
    | none => (0, [])
    | some id =>
      match s.fdTables[id]? with
      | none => (-9, [])
      | some table =>
        match table.get fd with
        | some .stdout =>
          match fromUtf8 slice with
          | some text => (length, print text)
          | none => (0, [])
        | some .stderr =>
          match fromUtf8 slice with
          | some text => (length, print ("\x1b[31m" ++ text ++ "\x1b[0m"))
          | none => (0, [])
        | some .stdin | some (.regularFile _ _) | none => (-9, [])

/-- `sys_close`. -/
def sysClose (fd : ℕ) : TaskFiles N × ℤ :=
  match s.currentTable with
  | none => (s, -9)
  | some (id, table) =>
    match table.close fd with
    | (table, true) => (s.setTable id table, 0)
    | (table, false) => (s.setTable id table, -9)

end TaskFiles

/-! ### Runs -/

/-- A file system call with its arguments. -/
inductive FileCall
  | sysOpen (filenamePtr : ℕ)
  | sysRead (fd bufferPtr length : ℕ)
  | sysClose (fd : ℕ)
  deriving DecidableEq, Repr

/-- One step of the kernel. -/
inductive FileAction
  /-- The current task, with the given memory, makes a call. -/
  | call (user : UserMemory) (c : FileCall)
  /-- Another task becomes the current one. -/
  | switchTo (id : Option TaskId)
  /-- A task is registered. -/
  | spawn (id : TaskId)
  /-- A task is removed. -/
  | kill (id : TaskId)
  /-- A key is pressed. -/
  | key (c : Char)

/-- A return from a system call: who made which call with which memory, the value of `rax` and the
bytes that a read delivered. -/
structure FileReturn where
  caller : Option TaskId
  user : UserMemory
  call : FileCall
  rax : ℤ
  bytes : List Byte

namespace TaskFiles

variable {N : Type} [VNode N]

/-- One system call. -/
def doCall (p : Profile) (openVnode : String → Option N) (s : TaskFiles N) (user : UserMemory) :
    FileCall → Option (TaskFiles N × ℤ × List Byte)
  | .sysOpen filenamePtr =>
    (s.sysOpen p openVnode user filenamePtr).map fun (s, rax) => (s, rax, [])
  | .sysRead fd bufferPtr length => s.sysRead user fd bufferPtr length
  | .sysClose fd =>
    let (s, rax) := s.sysClose fd
    some (s, rax, [])

/-- One step; a system call shows its return. -/
def step (p : Profile) (openVnode : String → Option N) (s : TaskFiles N) :
    FileAction → Option (TaskFiles N × Option FileReturn)
  | .call user c =>
    (s.doCall p openVnode user c).map fun (s', rax, bytes) =>
      (s', some ⟨s.currentTask, user, c, rax, bytes⟩)
  | .switchTo id => some ({ s with currentTask := id }, none)
  | .spawn id => some (s.setTable id .new, none)
  | .kill id => some ({ s with fdTables := s.fdTables.erase id }, none)
  | .key c => some ({ s with keys := s.keys ++ [c] }, none)

end TaskFiles

end NwinOs.Core
