import NwinOs.Tasking.TaskManager
import NwinOs.Transition

/-!
# The `sys_wait4` machine

The tasks of a booted kernel on one core, as a labelled transition system: tasks spawn children,
wait for a task identifier, exit, block on the synchronisation primitives and are woken from them;
the timer ticks; the reaper removes dead tasks.

`waiting id` is the `pid` that task `id` is inside `sys_wait4(pid)` for, from the moment
`wait_for_child` parked it until the call returns.  System calls run with interrupts masked, so
parking the caller and the call of `schedule()` that follows are one step; a resumed caller runs
with interrupts on, so its return is a step of its own.
-/

namespace NwinOs.Tasking

/-- The task manager, the identifier counter and the pending `sys_wait4` calls. -/
structure Wait4System where
  tm : TaskManager
  nextId : ℕ
  waiting : TaskId → Option TaskId

/-- One step of the kernel or of its current task. -/
inductive Wait4Action
  /-- The current task spawns a Ring 3 child. -/
  | spawnDynamic (targetPml4 : ℕ) (stack : Option ℕ)
  /-- The current task calls `sys_wait4(pid)`. -/
  | sysWait4 (pid : TaskId)
  /-- The current task, resumed inside `sys_wait4`, returns to its caller. -/
  | wait4Return
  /-- The current task calls `sys_exit`. -/
  | sysExit
  /-- The current task blocks on a semaphore or a condition variable. -/
  | blockCurrentTask
  /-- The current task signals, which wakes `id`. -/
  | unblockTask (id : TaskId)
  /-- A timer interrupt. -/
  | tick
  /-- The reaper removes the dead task `id`. -/
  | reap (id : TaskId)
  deriving DecidableEq, Repr

/-- What a step shows: the value `rax` that `sys_wait4(pid)` returns to `caller`. -/
inductive Wait4Event
  | silent
  | returned (caller : TaskId) (pid rax : ℕ)
  deriving DecidableEq, Repr

namespace Wait4System

/-- The first task `init_multitasking` spawns. -/
def REAPER : TaskId := 1

/-- `-ECHILD` in a 64-bit register. -/
def ECHILD : ℕ := 2 ^ 64 - 10

/-- The kernel after `init_multitasking`: the reaper and the shell are queued and nothing runs. -/
def initMultitasking (kernelPml4 targetPml4 stack₁ stack₂ : ℕ) : Wait4System :=
  let (reaper, nextId) := TaskId.new 1
  let tm := (TaskManager.empty.spawn reaper kernelPml4 .kernelMode (some stack₁)).1
  let (shell, nextId) := TaskId.new nextId
  { tm := (tm.spawnDynamic shell targetPml4 (some stack₂)).1
    nextId
    waiting := fun _ => none }

section

variable (s : Wait4System)

/-- The task whose code runs, when it is free to make a call: the reaper makes none of them, and a
task inside `sys_wait4` first has to return. -/
def caller : Option TaskId :=
  match s.tm.currentTask with
  | some id => if id ≠ REAPER ∧ s.waiting id = none then some id else none
  | none => none

/-- `sys_wait4(pid)` of task `id`, up to its return or to the switch to another task. -/
def sysWait4 (id pid : TaskId) : Wait4System × Wait4Event :=
  match s.tm.waitForChild pid with
  | (tm, true) =>
    ({ s with tm := tm.schedule, waiting := Function.update s.waiting id (some pid) }, .silent)
  | (tm, false) => ({ s with tm }, .returned id pid ECHILD)

/-- One step; `none` when the action is not possible in the state. -/
def step : Wait4Action → Option (Wait4System × Wait4Event)
  | .spawnDynamic targetPml4 stack =>
    match s.caller with
    | some _ =>
      let (id, nextId) := TaskId.new s.nextId
      some ({ s with tm := (s.tm.spawnDynamic id targetPml4 stack).1, nextId }, .silent)
    | none => none
  | .sysWait4 pid =>
    match s.caller with
    | some id => some (s.sysWait4 id pid)
    | none => none
  | .wait4Return =>
    match s.tm.currentTask with
    | some id =>
      match s.waiting id with
      | some pid =>
        some ({ s with waiting := Function.update s.waiting id none }, .returned id pid pid)
      | none => none
    | none => none
  | .sysExit =>
    match s.caller with
    | some _ => some ({ s with tm := s.tm.exitCurrentTask }, .silent)
    | none => none
  | .blockCurrentTask =>
    match s.caller with
    | some _ => some ({ s with tm := s.tm.blockCurrentTask }, .silent)
    | none => none
  | .unblockTask id =>
    match s.caller with
    | some _ => some ({ s with tm := s.tm.unblockTask id }, .silent)
    | none => none
  | .tick => some ({ s with tm := s.tm.schedule }, .silent)
  | .reap id =>
    if s.tm.currentTask = some REAPER ∧ s.tm.taskStates[id]? = some .dead then
      some ({ s with tm := (s.tm.kill id).1 }, .silent)
    else none

/-- `pid` is dead or no longer registered. -/
def Gone (pid : TaskId) : Prop :=
  pid ∉ s.tm.taskRegistry ∨ s.tm.taskStates[pid]? = some .dead

instance (s : Wait4System) (pid : TaskId) : Decidable (s.Gone pid) :=
  inferInstanceAs (Decidable (_ ∨ _))

/-- Task `id` was parked by `wait_for_child(pid)` and has not been made ready since. -/
def Parked (id pid : TaskId) : Prop :=
  s.waiting id = some pid ∧ s.tm.taskStates[id]? = some .blocked

end

instance (s : Wait4System) (id pid : TaskId) : Decidable (s.Parked id pid) :=
  inferInstanceAs (Decidable (_ ∧ _))

end Wait4System

end NwinOs.Tasking
