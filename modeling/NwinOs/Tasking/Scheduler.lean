import NwinOs.Tasking.TaskManager

/-!
# The scheduler and the registers it maintains

`Machine.schedule` is the whole of `schedule()`: the queue step under the task manager's lock, then
`KERNEL_RSP`, `CR3` and the context switch.  Each part is guarded by its own lookup, as in the
source.

`Registers` are the processor registers and kernel variables that it reads and writes.  A stack
pointer and a page-table frame are numbers.
-/

namespace NwinOs.Tasking

/-- The processor state and the kernel variables that the scheduler maintains. -/
structure Registers where
  rsp : ℕ
  cr3 : ℕ
  /-- The stack that a syscall switches to. -/
  kernelRsp : ℕ
  /-- The stack that an interrupt from Ring 3 switches to. -/
  tssRsp0 : ℕ
  bootRsp : ℕ
  deriving DecidableEq, Repr

/-- The variable that `context_switch` saves the outgoing stack pointer in. -/
inductive RspSlot
  | bootRsp
  | task (id : TaskId)
  deriving DecidableEq, Repr

/-- `next_cr3` and `switch_data`, which are set together. -/
structure Switch where
  nextCr3 : ℕ
  oldRspPtr : RspSlot
  newRsp : ℕ
  deriving DecidableEq, Repr

/-- The task manager and the registers. -/
structure Machine where
  tm : TaskManager
  regs : Registers

namespace Machine

variable (mc : Machine)

/-- The switch to a task, if it is registered; a Ring 3 task gets its stack into the TSS. -/
def prepareSwitch (oldRspPtr : RspSlot) (nextTaskId : TaskId) : Machine × Option Switch :=
  match mc.tm.taskRegistry[nextTaskId]? with
  | some nextTask =>
    let regs := if nextTask.privilege = .userMode then
      { mc.regs with tssRsp0 := nextTask.stackEnd } else mc.regs
    ({ mc with regs }, some ⟨nextTask.pml4Frame, oldRspPtr, nextTask.rsp⟩)
  | none => (mc, none)

/-- The part under the task manager's lock. -/
def selectNext : Machine × Option Switch :=
  match mc.tm.requeueCurrent.fetchNextTask with
  | (tm, some nextTaskId) =>
    if some nextTaskId ≠ mc.tm.currentTask then
      let mc' : Machine := { mc with tm := { tm with currentTask := some nextTaskId } }
      match mc.tm.currentTask with
      | some currentId =>
        if currentId ∈ mc'.tm.taskRegistry then mc'.prepareSwitch (.task currentId) nextTaskId
        else (mc', none)
      | none => mc'.prepareSwitch .bootRsp nextTaskId
    else ({ mc with tm }, none)
  | (tm, none) => ({ mc with tm }, none)

/-- Points the syscall stack at the current task's, if that is registered. -/
def updateKernelRsp : Machine :=
  match mc.tm.currentTask with
  | some id =>
    match mc.tm.taskRegistry[id]? with
    | some task => { mc with regs := { mc.regs with kernelRsp := task.stackEnd } }
    | none => mc
  | none => mc

/-- Switches the address space, only if it actually changed. -/
def loadCr3 (pml4 : ℕ) : Machine :=
  if mc.regs.cr3 ≠ pml4 then { mc with regs := { mc.regs with cr3 := pml4 } } else mc

/-- Saves the stack pointer and loads another; `none` is the trap on a null pointer. -/
def contextSwitch (oldRspPtr : RspSlot) (newRsp : ℕ) : Option Machine :=
  if newRsp = 0 then none
  else match oldRspPtr with
    | .bootRsp => some { mc with regs := { mc.regs with bootRsp := mc.regs.rsp, rsp := newRsp } }
    | .task id => some
      { tm := { mc.tm with
          taskRegistry := mc.tm.taskRegistry.modify id fun task =>
            { task with rsp := mc.regs.rsp } }
        regs := { mc.regs with rsp := newRsp } }

/-- Picks the next task from the ready queue and switches to it.  The second component is the
switch that was made. -/
def schedule : Option (Machine × Option Switch) :=
  match mc.selectNext with
  | (mc, none) => some (mc.updateKernelRsp, none)
  | (mc, some switch) =>
    ((mc.updateKernelRsp.loadCr3 switch.nextCr3).contextSwitch switch.oldRspPtr switch.newRsp).map
      fun mc => (mc, some switch)

end Machine

end NwinOs.Tasking
