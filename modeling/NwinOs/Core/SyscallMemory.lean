import NwinOs.Mm.AddressSpace
import NwinOs.Tasking.TaskManager

/-!
# The memory system calls and the life of a user address space

`sysMmap` and `sysBrk` are the two system calls that add pages to the caller's address space.
`AddressSpaces` is the kernel's view of all of them: the level-4 table the kernel booted with and
the memory fields of every live user task.  A step of it creates an address space (`spawn` and
`execve`, with `CR3` holding the kernel's table or a live task's), runs one of the two system
calls, or reaps a task.
-/

namespace NwinOs.Core

open Paging Mm Tasking Function

/-- The fields of a user task that the memory system calls use. -/
structure UserTask where
  pml4Frame : ℕ
  heapStart : ℕ
  programBreak : ℕ
  mmapBase : ℕ
  deriving DecidableEq, Repr

/-- The memory fields of a new task. -/
def UserTask.new (pml4Frame : ℕ) : UserTask where
  pml4Frame := pml4Frame
  heapStart := 0x0000_0002_0000_0000
  programBreak := 0x0000_0002_0000_0000
  mmapBase := 0x0000_4000_0000_0000

/-- `allocateAndMapUserPage` on a list of pages, up to the first error. -/
def mapPages (m : Mapper) (targetPml4 : ℕ) :
    MemoryState → List ℕ → MemoryState × Except MemoryError Unit
  | st, [] => (st, .ok ())
  | st, virtAddr :: rest =>
    match allocateAndMapUserPage m st targetPml4 virtAddr with
    | (st, .error e) => (st, .error e)
    | (st, .ok ()) => mapPages m targetPml4 st rest

/-- The addresses of `pages` consecutive pages. -/
def pageAddrs (startAddr pages : ℕ) : List ℕ :=
  (List.range pages).map fun i => startAddr + i * 4096

/-- A 64-bit register holding a negative number. -/
def negative (errno : ℕ) : ℕ := 2 ^ 64 - errno

/-- A system call's outcome: memory, the caller's record and `rax`. -/
abbrev Outcome := MemoryState × UserTask × ℕ

/-- The length rounded up to whole pages; `none` is the overflow panic. -/
def allocSize (p : Profile) (length : ℕ) : Option ℕ :=
  (p.add 64 length 0xFFF).map fun sum => sum / 4096 * 4096

/-- Where a mapping starts. -/
def UserTask.startAddr (task : UserTask) (addr : ℕ) : ℕ :=
  if addr ≠ 0 then addr else task.mmapBase

/-- The range check of `sys_mmap`, with its saturating addition. -/
def mmapInRange (startAddr size : ℕ) : Bool :=
  0x1000 ≤ startAddr ∧ min (startAddr + size) (2 ^ 64 - 1) ≤ 0x00007FFFFFFFFFFF

/-- `sys_mmap`.  The code an error of the page loop puts into `rax` is overwritten by the default
`-ENOMEM` after the closure returns. -/
def sysMmap (m : Mapper) (p : Profile) (st : MemoryState) (task : UserTask)
    (addr length flags : ℕ) : Option Outcome :=
  if flags &&& 0x20 = 0 then some (st, task, negative 22)
  else (allocSize p length).map fun size =>
    let startAddr := task.startAddr addr
    if mmapInRange startAddr size then
      match mapPages m task.pml4Frame st (pageAddrs startAddr (size / 4096)) with
      | (st, .error _) => (st, task, negative 12)
      | (st, .ok ()) =>
        (st, if addr = 0 then { task with mmapBase := task.mmapBase + size } else task, startAddr)
    else (st, task, negative 12)

/-- The end of the page that holds the byte before `addr`. -/
def pageEnd (addr : ℕ) : ℕ := (addr + 0xFFF) / 4096 * 4096

/-- `sys_brk`. -/
def sysBrk (m : Mapper) (st : MemoryState) (task : UserTask) (requestedBrk : ℕ) : Outcome :=
  if requestedBrk = 0 then (st, task, task.programBreak)
  else if requestedBrk < task.heapStart ∨ 0x700000000000 ≤ requestedBrk then
    (st, task, task.programBreak)
  else
    let currentPageEnd := pageEnd task.programBreak
    let newPageEnd := pageEnd requestedBrk
    if currentPageEnd < newPageEnd then
      let pages := (newPageEnd - currentPageEnd) / 0x1000
      match mapPages m task.pml4Frame st (pageAddrs currentPageEnd pages) with
      | (st, .error _) => (st, task, task.programBreak)
      | (st, .ok ()) => (st, { task with programBreak := requestedBrk }, requestedBrk)
    else (st, { task with programBreak := requestedBrk }, requestedBrk)

/-! ### All address spaces -/

/-- Memory, the kernel's level-4 table and the live user tasks. -/
structure AddressSpaces where
  memory : MemoryState
  kernelPml4 : ℕ
  tasks : TaskId → Option UserTask

/-- What happens to the address space of a task. -/
inductive SpaceAction
  /-- A task is created while `CR3` holds the table of a live task, or the kernel's. -/
  | create (id : TaskId) (current : Option TaskId)
  | mmap (id : TaskId) (addr length flags : ℕ)
  | brk (id : TaskId) (requestedBrk : ℕ)
  /-- The dead task is reaped. -/
  | reap (id : TaskId)
  deriving DecidableEq, Repr

/-- The task an action is on. -/
def SpaceAction.task : SpaceAction → TaskId
  | .create id _ | .mmap id _ _ _ | .brk id _ | .reap id => id

namespace AddressSpaces

/-- The level-4 table of a live task, or the kernel's. -/
def pml4 (s : AddressSpaces) : Option TaskId → Option ℕ
  | none => some s.kernelPml4
  | some id => (s.tasks id).map (·.pml4Frame)

/-- The state after a system call of a task. -/
def finish (s : AddressSpaces) (id : TaskId) (o : Outcome) : AddressSpaces × ℕ :=
  ({ s with memory := o.1, tasks := update s.tasks id (some o.2.1) }, o.2.2)

/-- One step; the output is `rax` of a system call.  `none`: the task is not live (for `create`: it
is), or the code panics. -/
def step (m : Mapper) (p : Profile) (s : AddressSpaces) : SpaceAction → Option (AddressSpaces × ℕ)
  | .create id current =>
    if (s.tasks id).isSome then none
    else (s.pml4 current).map fun currentPml4 =>
      match createIsolatedPml4 s.memory currentPml4 with
      | (st, none) => ({ s with memory := st }, 0)
      | (st, some newFrame) =>
        ({ s with
            memory := st
            tasks := update s.tasks id (some (UserTask.new newFrame)) }, 0)
  | .mmap id addr length flags =>
    (s.tasks id).bind fun task =>
      (sysMmap m p s.memory task addr length flags).map (s.finish id)
  | .brk id requestedBrk =>
    (s.tasks id).map fun task => s.finish id (sysBrk m s.memory task requestedBrk)
  | .reap id =>
    (s.tasks id).bind fun task =>
      (destroyUserAddressSpace s.memory task.pml4Frame).map fun st =>
        ({ s with memory := st, tasks := update s.tasks id none }, 0)

end AddressSpaces

end NwinOs.Core
