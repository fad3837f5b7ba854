import NwinOs.Tasking.Scheduler

/-!
# The reaper

`hilo_segador` is the first task of the system, a kernel thread with the boot page table.  It wakes
up with every interrupt, collects the identifiers of the dead tasks in one critical section, removes
each of them from the task manager in a critical section of its own, and then, with interrupts
enabled, destroys its address space and drops it, which frees its kernel stack.

`ReaperSystem` is one core: the machine, the code that executes on it, and where the reaper stands.
An action is an interrupt, a call by the executing code or a step of the reaper; anything can happen
between two of them.  The code of a task goes on executing after the task has exited, until the next
switch.
-/

namespace NwinOs.Tasking

/-- Where the reaper's loop stands. -/
inductive ReaperPc
  /-- In `enable_and_hlt`. -/
  | asleep
  /-- In the loop over the dead tasks that are still to be purged. -/
  | purging (tareasMuertas : List TaskId)
  /-- With a purged task in hand. -/
  | holding (tareaMuerta : Task) (tareasMuertas : List TaskId)
  deriving DecidableEq, Repr

/-- The task in hand. -/
def ReaperPc.held : ReaperPc → Option Task
  | .holding tareaMuerta _ => some tareaMuerta
  | _ => none

/-- The code that executes: the kernel stack it is on and the privilege level of its task.  The
reaper is the one kernel-mode task of the system. -/
structure Executing where
  stackStart : ℕ
  privilege : PrivilegeLevel
  deriving DecidableEq, Repr

/-- One core; `cpu` is `none` for the boot thread. -/
structure ReaperSystem where
  machine : Machine
  nextId : ℕ
  cpu : Option Executing
  reaper : ReaperPc
  bootPml4 : ℕ

/-- What can happen next. -/
inductive ReaperAction
  /-- A timer tick, or a call of `schedule` by the executing code. -/
  | schedule (rsp : ℕ)
  /-- `sys_exec` with a new page table; `stack` is the heap's answer for the kernel stack. -/
  | spawnDynamic (targetPml4 : ℕ) (stack : Option ℕ)
  | waitForChild (childId : TaskId)
  | blockCurrentTask
  | unblockTask (id : TaskId)
  /-- `sys_exit`, or an exception in Ring 3. -/
  | exitCurrentTask
  /-- The keyboard interrupt of Ctrl+C. -/
  | ctrlC
  /-- The reaper's first critical section. -/
  | collect
  /-- The critical section for the next dead task. -/
  | purge
  /-- The task in hand is destroyed and dropped. -/
  | reclaim
  /-- The reaper goes back to sleep. -/
  | sleep
  deriving DecidableEq, Repr

/-- What an action does to address spaces and kernel stacks. -/
inductive ReaperEvent
  /-- A task was registered with this page table. -/
  | created (pml4Frame : ℕ)
  /-- The reaper dropped a task, after `destroy_user_address_space` if it is a user task. -/
  | reclaimed (task : Task)
  deriving DecidableEq, Repr

namespace ReaperSystem

variable (s : ReaperSystem)

/-- The tasks whose memory is in use: the registered ones and the one in the reaper's hand. -/
def live : List Task :=
  s.machine.tm.taskRegistry.toList.map Prod.snd ++ s.reaper.held.toList

/-- The heap and the frame allocator give out memory that is not in use. -/
def fresh (pml4Frame : ℕ) (stack : Option ℕ) : Bool :=
  pml4Frame != s.bootPml4 && s.live.all fun task =>
    task.pml4Frame != pml4Frame &&
      stack.all fun start => task.stackEnd ≤ start || start + STACK_SIZE ≤ task.stackStart

/-- The privilege level of the executing code. -/
def executes (privilege : PrivilegeLevel) : Bool :=
  s.cpu.any fun e => e.privilege = privilege

/-- The code of the current task executes after a switch. -/
def dispatched (mc : Machine) : Option Executing :=
  (mc.tm.currentTask.bind fun id => mc.tm.taskRegistry[id]?).map fun task =>
    ⟨task.stackStart, task.privilege⟩

/-- The identifiers with state `Dead`, in the order of the map. -/
def tareasMuertas (tm : TaskManager) : List TaskId :=
  (tm.taskStates.toList.filter fun entry => entry.2 = TaskState.dead).map Prod.fst

def setTm (tm : TaskManager) : ReaperSystem :=
  { s with machine := ⟨tm, s.machine.regs⟩ }

/-- After `init_multitasking`: the reaper and the shell are registered, and the boot thread executes
on the boot page table. -/
def init (regs : Registers) (reaperStack shellPml4 shellStack : ℕ) : ReaperSystem :=
  let tm := (TaskManager.empty.spawn 1 regs.cr3 .kernelMode (some reaperStack)).1
  let tm := (tm.spawnDynamic 2 shellPml4 (some shellStack)).1
  ⟨⟨tm, regs⟩, 3, none, .asleep, regs.cr3⟩

/-- A spawn by a Ring 3 task. -/
def spawn (targetPml4 : ℕ) (stack : Option ℕ) : ReaperSystem × Option ReaperEvent :=
  let (id, nextId) := TaskId.new s.nextId
  match s.machine.tm.spawnDynamic id targetPml4 stack with
  | (tm, .ok _) => ({ s.setTm tm with nextId }, some (.created targetPml4))
  | (tm, .error _) => ({ s.setTm tm with nextId }, none)

/-- One action; `none` if the code that executes cannot take it. -/
def step : ReaperAction → Option (ReaperSystem × Option ReaperEvent)
  | .schedule rsp =>
    if rsp = 0 then none
    else (Machine.schedule ⟨s.machine.tm, { s.machine.regs with rsp := rsp }⟩).map fun r =>
      let cpu := match r.2 with
        | some _ => dispatched r.1
        | none => s.cpu
      ({ s with machine := r.1, cpu := cpu }, none)
  | .spawnDynamic targetPml4 stack =>
    if s.executes .userMode ∧ s.fresh targetPml4 stack then some (s.spawn targetPml4 stack)
    else none
  | .waitForChild childId =>
    if s.executes .userMode then some (s.setTm (s.machine.tm.waitForChild childId).1, none)
    else none
  | .blockCurrentTask => some (s.setTm s.machine.tm.blockCurrentTask, none)
  | .unblockTask id => some (s.setTm (s.machine.tm.unblockTask id), none)
  | .exitCurrentTask =>
    if s.executes .userMode then some (s.setTm s.machine.tm.exitCurrentTask, none) else none
  | .ctrlC =>
    match s.machine.tm.currentTask with
    | some id => if 1 < id then some (s.setTm s.machine.tm.exitCurrentTask, none) else
        some (s, none)
    | none => some (s, none)
  | .collect =>
    if s.executes .kernelMode ∧ s.reaper = .asleep then
      some ({ s with reaper := .purging (tareasMuertas s.machine.tm) }, none)
    else none
  | .purge =>
    match s.reaper with
    | .purging (id :: rest) =>
      if s.executes .kernelMode then
        let (tm, tareaPurgada) := s.machine.tm.kill id
        let pc : ReaperPc := match tareaPurgada with
          | some tareaMuerta => .holding tareaMuerta rest
          | none => .purging rest
        some ({ s.setTm tm with reaper := pc }, none)
      else none
    | _ => none
  | .reclaim =>
    match s.reaper with
    | .holding tareaMuerta rest =>
      if s.executes .kernelMode then
        some ({ s with reaper := .purging rest }, some (.reclaimed tareaMuerta))
      else none
    | _ => none
  | .sleep =>
    if s.executes .kernelMode ∧ s.reaper = .purging [] then
      some ({ s with reaper := .asleep }, none)
    else none

end ReaperSystem

end NwinOs.Tasking
