import NwinOs.Core.SyscallFile
import NwinOs.Tasking.Elf

/-!
# Starting a program

`sysExecve` looks an executable up, builds an address space for it, lays out its arguments on a new
user stack and registers a task.  The result of the loader is kept and looked at only after the
stack has been set up.

The copy of the arguments goes through the page tables of the new address space, which `CR3` holds
meanwhile; a store to a page that is not mapped, or not writable, is a page fault of the kernel and
ends it.  The small buffers of the call are on the kernel heap.
-/

namespace NwinOs.Core

open Effect Paging Mm Tasking Fs

/-! ### Error codes -/

/-- The codes that `execve` gives to user space. -/
inductive Errno
  | ENOENT
  | ENOEXEC
  | ENOMEM
  | EFAULT
  | EINVAL
  deriving DecidableEq, Repr

/-- The negative form of the code. -/
def Errno.toNegI32 : Errno → ℤ
  | ENOENT => -2
  | ENOEXEC => -8
  | ENOMEM => -12
  | EFAULT => -14
  | EINVAL => -22

end NwinOs.Core

namespace NwinOs

def Tasking.ElfError.toErrno : Tasking.ElfError → Core.Errno
  | tooSmall => .EINVAL
  | invalidMagicNumber => .ENOEXEC
  | not64Bit => .ENOEXEC
  | memoryMappingFailed => .ENOMEM

def Mm.MemoryError.toErrno : Mm.MemoryError → Core.Errno
  | outOfFrames => .ENOMEM
  | invalidMapping => .EFAULT

def Tasking.TaskError.toErrno : Tasking.TaskError → Core.Errno
  | stackAllocation => .ENOMEM

end NwinOs

namespace NwinOs.Core

open Effect Paging Mm Tasking Fs

/-! ### Arguments -/

/-- The file name of `sys_execve`: at most 64 bytes up to a NUL, empty if they are not UTF-8. -/
def UserMemory.execFilename (user : UserMemory) (filenamePtr : ℕ) : String :=
  (fromUtf8 ((user.bytes.slice filenamePtr 64).takeWhile (· != 0))).getD ""

/-- The argument strings, each with its NUL; without any, or with too many, the file name. -/
def UserMemory.argsBuf (user : UserMemory) (filename : String) (argsPtr argsLen : ℕ) : List Byte :=
  if 0 < argsLen ∧ argsLen < 4096 then user.bytes.slice argsPtr argsLen
  else nameBytes filename ++ [0]

/-- The addresses of the strings in a buffer at `currentPtr`. -/
def argvPointers : ℕ → Bool → List Byte → List ℕ
  | _, _, [] => []
  | currentPtr, isNewArg, b :: rest =>
    if b = 0 then argvPointers (currentPtr + 1) true rest
    else if isNewArg then currentPtr :: argvPointers (currentPtr + 1) false rest
    else argvPointers (currentPtr + 1) false rest

/-- The page of the user stack. -/
def userStackBase : ℕ := 0x7FFFF0000000

/-- Stores bytes at an address of an address space; `none` is the page fault. -/
def storeBytes (pml4 : ℕ) : MemoryState → ℕ → List Byte → Option MemoryState
  | st, _, [] => some st
  | st, va, b :: rest =>
    match translate st.mem pml4 va with
    | some ⟨frame, ⟨_, true⟩⟩ =>
      storeBytes pml4 { st with mem := st.mem.store frame (va % FRAME_SIZE) [b] } (va + 1) rest
    | _ => none

/-- Pushes words on the stack whose top is `userStackTop`, the first one first. -/
def pushWords (pml4 : ℕ) : MemoryState → ℕ → List ℕ → Option (MemoryState × ℕ)
  | st, userStackTop, [] => some (st, userStackTop)
  | st, userStackTop, w :: rest =>
    (storeBytes pml4 st (userStackTop - 8) (Bytes.leBytes 8 w)).bind fun st =>
      pushWords pml4 st (userStackTop - 8) rest

/-- Lays the arguments out: the strings, two null words, the pointers with the first one on top, and
their number.  Returns the top of the stack. -/
def storeArguments (pml4 : ℕ) (st : MemoryState) (argsBuf : List Byte) : Option (MemoryState × ℕ) :=
  let stringsBase := userStackBase + 0x1000 - argsBuf.length
  let pointers := argvPointers stringsBase true argsBuf
  (storeBytes pml4 st stringsBase argsBuf).bind fun st =>
    pushWords pml4 st (stringsBase / 16 * 16) ([0, 0] ++ pointers.reverse ++ [pointers.length])

/-! ### The system call -/

/-- Memory and the tasks. -/
structure ExecState where
  memory : MemoryState
  tasks : TaskManager

/-- What the call meets in the rest of the kernel: the mapper, the lookup of files, the table that
`CR3` holds, the next task number, and the heap's answer to the reservation of a kernel stack. -/
structure ExecEnv where
  mapper : LookupMapper
  profile : Profile
  findFile : String → Option ElfSlice
  currentPml4 : ℕ
  nextId : TaskId
  stack : Option ℕ

/-- The end of a run of the loader: the memory, and its result. -/
def loadResult : Effect.Outcome LoadState ElfError ℕ → Option (MemoryState × Except ElfError ℕ)
  | .ok entryPoint s => some (s.memory, .ok entryPoint)
  | .err e s => some (s.memory, .error e)
  | .fault _ => none

/-- From the new PML4 on.  The entry point and the top of the user stack go into the first frame of
the task. -/
def execInto (env : ExecEnv) (s : ExecState) (elf : ElfSlice) (argsBuf : List Byte)
    (st : MemoryState) (targetPml4 : ℕ) : Option (ExecState × ℤ) := do
  let (st, loaded) ← loadResult (loadElf env.mapper env.profile elf targetPml4 ⟨st, []⟩)
  match allocateAndMapUserPage env.mapper.toOffsetPageTable st targetPml4 userStackBase with
  | (st, .error e) => return ({ s with memory := st }, e.toErrno.toNegI32)
  | (st, .ok ()) =>
    let (st, _userStackTop) ← storeArguments targetPml4 st argsBuf
    match loaded with
    | .error e => return ({ s with memory := st }, e.toErrno.toNegI32)
    | .ok _entryPoint =>
      match s.tasks.spawnDynamic env.nextId targetPml4 env.stack with
      | (tasks, .ok id) => return (⟨st, tasks⟩, (id : ℤ))
      | (tasks, .error e) => return (⟨st, tasks⟩, e.toErrno.toNegI32)

/-- `sys_execve`; the second component is `rax`, `none` is a panic. -/
def sysExecve (env : ExecEnv) (s : ExecState) (user : UserMemory)
    (filenamePtr argsPtr argsLen : ℕ) : Option (ExecState × ℤ) :=
  if user.isValidUserMemory filenamePtr 64 = false then some (s, Errno.EFAULT.toNegI32)
  else if 0 < argsLen ∧ user.isValidUserMemory argsPtr argsLen = false then
    some (s, Errno.EFAULT.toNegI32)
  else
    let filename := user.execFilename filenamePtr
    let argsBuf := user.argsBuf filename argsPtr argsLen
    match env.findFile filename with
    | none => some (s, Errno.ENOENT.toNegI32)
    | some elf =>
      match createIsolatedPml4 s.memory env.currentPml4 with
      | (st, none) => some ({ s with memory := st }, Errno.ENOMEM.toNegI32)
      | (st, some targetPml4) => execInto env s elf argsBuf st targetPml4

end NwinOs.Core
