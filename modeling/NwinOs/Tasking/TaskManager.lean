import Mathlib.Tactic.Linarith

/-!
# Tasks and the task manager

`TaskManager` owns every task (`taskRegistry`), its state (`taskStates`), the FIFO of ready tasks
and the identifier of the running one.  `schedule` is the part of the timer handler that works on
these four fields.

The two ordered maps are `Std.ExtTreeMap`s.  A task identifier is a `u64` from a process-wide
counter that is never reset.
-/

namespace NwinOs.Tasking

/-- Process-wide unique identifier for a task. -/
abbrev TaskId := ℕ

/-- Takes the next identifier from the atomic counter, which wraps at `2^64`. -/
def TaskId.new (nextId : ℕ) : TaskId × ℕ := (nextId, (nextId + 1) % 2 ^ 64)

/-- Privilege level at which a task is entered. -/
inductive PrivilegeLevel
  | kernelMode
  | userMode
  deriving DecidableEq, Repr

/-- Logical lifecycle state of a task. -/
inductive TaskState
  | ready
  | running
  | blocked
  | dead
  deriving DecidableEq, Repr

/-- Failures of task creation. -/
inductive TaskError
  | stackAllocation
  deriving DecidableEq, Repr

/-- Per-task data: identity, saved kernel stack pointer, page table and memory layout. -/
structure Task where
  id : TaskId
  parentId : Option TaskId
  rsp : ℕ
  pml4Frame : ℕ
  stackStart : ℕ
  stackEnd : ℕ
  privilege : PrivilegeLevel
  heapStart : ℕ
  programBreak : ℕ
  mmapBase : ℕ
  deriving DecidableEq, Repr

/-- Size of a kernel stack. -/
def STACK_SIZE : ℕ := 65536

/-- Size of the saved register block at the bottom of a fresh kernel stack. -/
def CONTEXT_SIZE : ℕ := 56

/-- Builds a task.  `stack` is the heap's answer to the reservation of the kernel stack: its
address, or `none` when the reservation fails. -/
def Task.new (id : TaskId) (pml4Frame : ℕ) (privilege : PrivilegeLevel) (parentId : Option TaskId)
    (stack : Option ℕ) : Except TaskError Task :=
  match stack with
  | none => .error .stackAllocation
  | some stackStart =>
    let stackTop := stackStart + STACK_SIZE
    -- a user task starts with five words for `iretq` and the trampoline's address, a kernel task
    -- with a canary and its entry point
    let words := match privilege with
      | .userMode => 6
      | .kernelMode => 2
    .ok { id, parentId, pml4Frame, stackStart, privilege
          rsp := stackTop / 16 * 16 - 8 * words - CONTEXT_SIZE
          stackEnd := stackTop
          heapStart := 0x200000000
          programBreak := 0x200000000
          mmapBase := 0x400000000000 }

/-- Centralised task manager of the kernel. -/
structure TaskManager where
  readyQueue : List TaskId
  taskRegistry : Std.ExtTreeMap TaskId Task
  taskStates : Std.ExtTreeMap TaskId TaskState
  currentTask : Option TaskId

namespace TaskManager

/-- No task at all. -/
def empty : TaskManager where
  readyQueue := []
  taskRegistry := ∅
  taskStates := ∅
  currentTask := none

variable (tm : TaskManager)

/-- Appends a task to the back of the ready queue (idempotent). -/
def markReady (id : TaskId) : TaskManager :=
  if id ∈ tm.readyQueue then tm else { tm with readyQueue := tm.readyQueue ++ [id] }

/-- Pops the next task from the front of the ready queue. -/
def fetchNextTask : TaskManager × Option TaskId :=
  match tm.readyQueue with
  | [] => (tm, none)
  | id :: rest => ({ tm with readyQueue := rest }, some id)

/-- Updates a task's state and keeps the ready queue in sync: enqueue on `ready`, dequeue on any
other state. -/
def setTaskState (id : TaskId) (state : TaskState) : TaskManager :=
  let oldState := (tm.taskStates[id]?).getD .dead
  let tm' := { tm with taskStates := tm.taskStates.insert id state }
  if state = .ready ∧ oldState ≠ .ready then { tm' with readyQueue := tm.readyQueue ++ [id] }
  else if state ≠ .ready ∧ oldState = .ready then
    { tm' with readyQueue := tm.readyQueue.filter fun j => j ≠ id }
  else tm'

/-- Registers a new task under `id`, as a child of the current one, and marks it ready. -/
def spawnTask (id : TaskId) (pml4Frame : ℕ) (privilege : PrivilegeLevel)
    (stack : Option ℕ) : TaskManager × Except TaskError TaskId :=
  match Task.new id pml4Frame privilege tm.currentTask stack with
  | .error e => (tm, .error e)
  | .ok task =>
    ({ tm with taskRegistry := tm.taskRegistry.insert task.id task }.setTaskState task.id .ready,
      .ok task.id)

/-- Creates a new task of the given privilege. -/
def spawn (id : TaskId) (pml4Frame : ℕ) (privilege : PrivilegeLevel)
    (stack : Option ℕ) : TaskManager × Except TaskError TaskId :=
  tm.spawnTask id pml4Frame privilege stack

/-- Creates a new Ring 3 task. -/
def spawnDynamic (id : TaskId) (targetPml4 : ℕ) (stack : Option ℕ) :
    TaskManager × Except TaskError TaskId :=
  tm.spawnTask id targetPml4 .userMode stack

/-- Blocks the current task. -/
def blockCurrentTask : TaskManager :=
  match tm.currentTask with
  | some id => tm.setTaskState id .blocked
  | none => tm

/-- Blocks the current task until `childId` is dead; `false` if it is dead already or unknown. -/
def waitForChild (childId : TaskId) : TaskManager × Bool :=
  match tm.taskStates[childId]? with
  | some state => if state ≠ .dead then (tm.blockCurrentTask, true) else (tm, false)
  | none => (tm, false)

/-- Marks the current task dead and detaches it from the CPU. -/
def exitCurrentTask : TaskManager :=
  match tm.currentTask with
  | some id => { tm.setTaskState id .dead with currentTask := none }
  | none => tm

/-- Wakes a task if it is blocked. -/
def unblockTask (id : TaskId) : TaskManager :=
  match tm.taskStates[id]? with
  | some state => if state = .blocked then tm.setTaskState id .ready else tm
  | none => tm

/-- Wakes the recorded parent of a registered task, if it is blocked. -/
def wakeParent (id : TaskId) : TaskManager :=
  match tm.taskRegistry[id]? with
  | some task =>
    match task.parentId with
    | some parentId => tm.unblockTask parentId
    | none => tm
  | none => tm

/-- Removes a task from the registry and wakes its parent. -/
def kill (id : TaskId) : TaskManager × Option Task :=
  let tm' := (tm.setTaskState id .dead).wakeParent id
  ({ tm' with taskStates := tm'.taskStates.erase id, taskRegistry := tm'.taskRegistry.erase id },
    tm'.taskRegistry[id]?)

/-- First half of the queue step: the current task goes to the back of the queue if it is still
runnable. -/
def requeueCurrent : TaskManager :=
  match tm.currentTask with
  | some currentId =>
    let state := (tm.taskStates[currentId]?).getD TaskState.ready
    if state = .running ∨ state = .ready then tm.markReady currentId else tm
  | none => tm

/-- The queue step of the timer handler: the current task is requeued and the front of the queue
becomes the current task. -/
def schedule : TaskManager :=
  match tm.requeueCurrent.fetchNextTask with
  | (tm', some nextId) =>
    if some nextId ≠ tm.currentTask then { tm' with currentTask := some nextId } else tm'
  | (tm', none) => tm'

end TaskManager

end NwinOs.Tasking
