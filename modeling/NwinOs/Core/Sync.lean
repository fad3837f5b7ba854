import NwinOs.Tasking.Wait4

/-!
# Semaphores, mutexes and condition variables on one core

`Semaphore`, `TaskMutex` and `CondVar` at the granularity of their atomic operations.  A task
inside a primitive is at a program point (`Pc`); `advance` executes its next operation.  What the
code does with interrupts disabled is still split into its operations, and `interruptsEnabled`
says at which points a timer or keyboard interrupt can arrive.

`cpu` is the task whose code executes.  It is the task manager's current task, except after that
task has exited or was killed with Ctrl+C: then there is no current task, and the code goes on
executing until the next timer tick switches away from it for good.
-/

namespace NwinOs.Core

open Tasking Function

/-- Permit counter and the FIFO of tasks blocked on `wait`. -/
structure Semaphore where
  count : ℕ
  waitingTasks : List TaskId
  deriving DecidableEq, Repr

namespace Semaphore

/-- A semaphore with `initialCount` permits. -/
def new (initialCount : ℕ) : Semaphore := ⟨initialCount, []⟩

/-- `count.compare_exchange(current, value)`; `none` when the counter has another value. -/
def compareExchange (sem : Semaphore) (current value : ℕ) : Option Semaphore :=
  if sem.count = current then some { sem with count := value } else none

/-- `count.fetch_add(1)` on the 32-bit counter. -/
def fetchAdd (sem : Semaphore) : Semaphore := { sem with count := (sem.count + 1) % 2 ^ 32 }

/-- Appends a task to the FIFO. -/
def pushBack (sem : Semaphore) (id : TaskId) : Semaphore :=
  { sem with waitingTasks := sem.waitingTasks ++ [id] }

end Semaphore

/-- The semaphores of the system: those inside a `TaskMutex`, and the others. -/
inductive SemId
  | mutex (m : ℕ)
  | plain (k : ℕ)
  deriving DecidableEq, Repr

/-- The blocking calls. -/
inductive Call
  /-- `Semaphore::wait` -/
  | wait (k : ℕ)
  /-- `TaskMutex::lock` -/
  | lock (m : ℕ)
  /-- `CondVar::wait`, which ends with `lock` on the guard's mutex. -/
  | condWait (cv m : ℕ)
  deriving DecidableEq, Repr

/-- The semaphore whose `wait` the call runs. -/
def Call.semaphore : Call → SemId
  | .wait k => .plain k
  | .lock m => .mutex m
  | .condWait _ m => .mutex m

/-- The program points of the primitives, each named after the operation that comes next. -/
inductive Pc
  /-- Outside the primitives. -/
  | idle
  /-- In the halt loop of `sys_exit`, or switched away from after the task's death. -/
  | exited
  /-- `wait`: the load at the head of the loop. -/
  | waitLoad (c : Call)
  /-- `wait`: the fast path's `compare_exchange`. -/
  | waitCas (c : Call) (current : ℕ)
  /-- `wait`: `interrupts::disable`. -/
  | waitDisable (c : Call)
  /-- `wait`: the load of the retry. -/
  | retryLoad (c : Call)
  /-- `wait`: the retry's `compare_exchange`. -/
  | retryCas (c : Call) (currentRetry : ℕ)
  /-- `wait`: `interrupts::enable` after a successful retry. -/
  | retryEnable (c : Call)
  /-- `wait`: enqueue and block. -/
  | waitEnqueue (c : Call)
  /-- `wait`: inside `enable_and_hlt`. -/
  | waitHalted (c : Call)
  /-- A permit is taken; the call returns to its caller. -/
  | returning (c : Call)
  /-- `signal`: `fetch_add`. -/
  | signalAdd (k : SemId)
  /-- `signal`: the critical section that dequeues and unblocks. -/
  | signalPop (k : SemId)
  /-- `CondVar::wait`: `interrupts::disable`. -/
  | condDisable (cv m : ℕ)
  /-- `CondVar::wait`: enqueue and block. -/
  | condEnqueue (cv m : ℕ)
  /-- `CondVar::wait`: `fetch_add` of the guard's drop. -/
  | condAdd (cv m : ℕ)
  /-- `CondVar::wait`: the critical section of the guard's drop. -/
  | condPop (cv m : ℕ)
  /-- `CondVar::wait`: inside `enable_and_hlt`. -/
  | condHalted (cv m : ℕ)
  deriving DecidableEq, Repr

namespace Pc

/-- Interrupts are off between `disable` and `enable` or `enable_and_hlt`. -/
def interruptsEnabled : Pc → Bool
  | .retryLoad _ | .retryCas _ _ | .retryEnable _ | .waitEnqueue _ => false
  | .condEnqueue _ _ | .condAdd _ _ | .condPop _ _ => false
  | _ => true

/-- An interrupt ends the `hlt`: `wait` goes back to the head of its loop, `CondVar::wait` goes on
to lock its mutex. -/
def interrupted : Pc → Pc
  | .waitHalted c => .waitLoad c
  | .condHalted cv m => .waitLoad (.condWait cv m)
  | pc => pc

end Pc

/-- The task manager, the identifier counter, the primitives, the live guards with their owners,
and where the tasks are. -/
structure SyncSystem where
  tm : TaskManager
  nextId : ℕ
  semaphores : SemId → Semaphore
  condVars : ℕ → List TaskId
  guards : List (TaskId × ℕ)
  cpu : Option TaskId
  pc : TaskId → Pc

/-- What a step shows. -/
inductive SyncEvent
  | silent
  /-- A successful `compare_exchange`: a `wait` on `k` has its permit. -/
  | acquired (k : SemId)
  /-- A `fetch_add` on `k`. -/
  | added (k : SemId)
  /-- A blocking call returns to its caller. -/
  | returned (id : TaskId) (c : Call)
  deriving DecidableEq, Repr

/-- One step of the running task or of the hardware. -/
inductive SyncAction
  /-- The running task spawns a child. -/
  | spawnDynamic (targetPml4 : ℕ) (stack : Option ℕ)
  /-- The running task calls `sys_exit`. -/
  | sysExit
  /-- The running task calls `wait` or `lock`. -/
  | wait (k : ℕ)
  | lock (m : ℕ)
  /-- The running task passes its guard of `m` to `CondVar::wait`. -/
  | condWait (cv m : ℕ)
  /-- The running task calls `signal`. -/
  | signal (k : ℕ)
  /-- The running task drops its guard of `m`. -/
  | dropGuard (m : ℕ)
  | notifyOne (cv : ℕ)
  | notifyAll (cv : ℕ)
  /-- The running task executes the next operation of the primitive it is in. -/
  | advance
  /-- A timer interrupt. -/
  | tick
  /-- A keyboard interrupt, by Ctrl+C or by another key. -/
  | keyboard (ctrlC : Bool)
  /-- The reaper removes the dead task `id`. -/
  | reap (id : TaskId)
  deriving DecidableEq, Repr

namespace SyncSystem

/-- The kernel after `init_multitasking`, with every mutex free and `initialCount k` permits in
the semaphore `k`. -/
def initial (kernelPml4 targetPml4 stack₁ stack₂ : ℕ) (initialCount : ℕ → ℕ) : SyncSystem :=
  let boot := Wait4System.initMultitasking kernelPml4 targetPml4 stack₁ stack₂
  { tm := boot.tm
    nextId := boot.nextId
    semaphores := fun
      | .mutex _ => .new 1
      | .plain k => .new (initialCount k)
    condVars := fun _ => []
    guards := []
    cpu := none
    pc := fun _ => .idle }

variable (s : SyncSystem)

/-- The running task, when it is outside the primitives and so can make a call.  The reaper makes
none. -/
def caller : Option TaskId :=
  match s.cpu with
  | some id => if id ≠ Wait4System.REAPER ∧ s.pc id = .idle then some id else none
  | none => none

section

variable (id : TaskId)

/-- Moves task `id` to another program point. -/
def setPc (pc : Pc) : SyncSystem :=
  { s with pc := update s.pc id pc }

/-- Replaces one semaphore. -/
def setSemaphore (k : SemId) (sem : Semaphore) : SyncSystem :=
  { s with semaphores := update s.semaphores k sem }

/-- The bookkeeping of a successful `wait`: a call on a mutex gives its caller a guard. -/
def giveGuard : SemId → SyncSystem
  | .mutex m => { s with guards := (id, m) :: s.guards }
  | .plain _ => s

/-- The bookkeeping of a `fetch_add`: on a mutex it ends the life of its guard. -/
def takeGuard : SemId → SyncSystem
  | .mutex m => { s with guards := s.guards.erase (id, m) }
  | .plain _ => s

/-- The `compare_exchange(current, current - 1)` of a `wait`: to `won` with the permit, or else to
`lost`. -/
def tryAcquire (c : Call) (current : ℕ) (won lost : Pc) : SyncSystem × SyncEvent :=
  match (s.semaphores c.semaphore).compareExchange current (current - 1) with
  | some sem =>
    (((s.setSemaphore c.semaphore sem).giveGuard id c.semaphore).setPc id won,
      .acquired c.semaphore)
  | none => (s.setPc id lost, .silent)

/-- Enqueues the current task on the semaphore and blocks it; nothing without a current task. -/
def enqueueOnSemaphore (k : SemId) : SyncSystem :=
  match s.tm.currentTask with
  | some currentId =>
    { s.setSemaphore k ((s.semaphores k).pushBack currentId) with tm := s.tm.blockCurrentTask }
  | none => s

/-- Enqueues the current task on the condition variable and blocks it. -/
def enqueueOnCondVar (cv : ℕ) : SyncSystem :=
  match s.tm.currentTask with
  | some currentId =>
    { s with
      condVars := update s.condVars cv (s.condVars cv ++ [currentId])
      tm := s.tm.blockCurrentTask }
  | none => s

/-- The `fetch_add` of `signal`. -/
def fetchAdd (k : SemId) : SyncSystem :=
  (s.setSemaphore k (s.semaphores k).fetchAdd).takeGuard id k

end

/-- The critical section of `signal`: dequeues one task and unblocks it. -/
def popAndUnblock (k : SemId) : SyncSystem :=
  match (s.semaphores k).waitingTasks with
  | id :: rest =>
    { s.setSemaphore k { s.semaphores k with waitingTasks := rest } with
      tm := s.tm.unblockTask id }
  | [] => s

/-- `CondVar::notify_one`. -/
def notifyOne (cv : ℕ) : SyncSystem :=
  match s.condVars cv with
  | id :: rest =>
    { s with condVars := update s.condVars cv rest, tm := s.tm.unblockTask id }
  | [] => s

/-- `CondVar::notify_all`. -/
def notifyAll (cv : ℕ) : SyncSystem :=
  { s with
    condVars := update s.condVars cv []
    tm := (s.condVars cv).foldl TaskManager.unblockTask s.tm }

/-- The next operation of task `id` inside the primitive it is in. -/
def advance (id : TaskId) : Option (SyncSystem × SyncEvent) :=
  match s.pc id with
  | .idle | .exited => none
  | .waitLoad c =>
    let current := (s.semaphores c.semaphore).count
    some (s.setPc id (if current > 0 then .waitCas c current else .waitDisable c), .silent)
  | .waitCas c current => some (s.tryAcquire id c current (.returning c) (.waitLoad c))
  | .waitDisable c => some (s.setPc id (.retryLoad c), .silent)
  | .retryLoad c =>
    let currentRetry := (s.semaphores c.semaphore).count
    some (s.setPc id (if currentRetry > 0 then .retryCas c currentRetry else .waitEnqueue c),
      .silent)
  | .retryCas c currentRetry =>
    some (s.tryAcquire id c currentRetry (.retryEnable c) (.waitEnqueue c))
  | .retryEnable c => some (s.setPc id (.returning c), .silent)
  | .waitEnqueue c =>
    some ((s.enqueueOnSemaphore c.semaphore).setPc id (.waitHalted c), .silent)
  | .returning c => some (s.setPc id .idle, .returned id c)
  | .signalAdd k => some ((s.fetchAdd id k).setPc id (.signalPop k), .added k)
  | .signalPop k => some ((s.popAndUnblock k).setPc id .idle, .silent)
  | .condDisable cv m => some (s.setPc id (.condEnqueue cv m), .silent)
  | .condEnqueue cv m => some ((s.enqueueOnCondVar cv).setPc id (.condAdd cv m), .silent)
  | .condAdd cv m =>
    some ((s.fetchAdd id (.mutex m)).setPc id (.condPop cv m), .added (.mutex m))
  | .condPop cv m => some ((s.popAndUnblock (.mutex m)).setPc id (.condHalted cv m), .silent)
  -- a halted CPU waits for an interrupt
  | .waitHalted _ | .condHalted _ _ => none

/-- Interrupts are on at the running task's program point. -/
def interruptible : Bool :=
  match s.cpu with
  | some id => (s.pc id).interruptsEnabled
  | none => true

/-- The running task leaves `hlt`. -/
def endHalt : SyncSystem :=
  match s.cpu with
  | some id => s.setPc id (s.pc id).interrupted
  | none => s

/-- The context that executes without being the current task is not resumed once the scheduler has
switched away from it. -/
def abandon : SyncSystem :=
  match s.tm.currentTask, s.cpu with
  | none, some id => s.setPc id .exited
  | _, _ => s

/-- The timer handler: the queue step, and a switch to the new current task if it changed. -/
def timerInterruptHandler : SyncSystem :=
  let tm := s.tm.schedule
  if tm.currentTask ≠ s.tm.currentTask then { s.abandon with tm, cpu := tm.currentTask }
  else { s with tm }

/-- The keyboard handler: Ctrl+C ends the current task, unless it is the reaper. -/
def keyboardInterruptHandler (ctrlC : Bool) : SyncSystem :=
  match s.tm.currentTask with
  | some id => if ctrlC ∧ id > 1 then { s with tm := s.tm.exitCurrentTask } else s
  | none => s

/-- One step; `none` when the action is not possible in the state. -/
def step : SyncAction → Option (SyncSystem × SyncEvent)
  | .spawnDynamic targetPml4 stack =>
    s.caller.map fun _ =>
      let (child, nextId) := TaskId.new s.nextId
      ({ s.setPc child .idle with
        tm := (s.tm.spawnDynamic child targetPml4 stack).1, nextId }, .silent)
  | .sysExit =>
    s.caller.map fun id => ({ s.setPc id .exited with tm := s.tm.exitCurrentTask }, .silent)
  | .wait k => s.caller.map fun id => (s.setPc id (.waitLoad (.wait k)), .silent)
  | .lock m => s.caller.map fun id => (s.setPc id (.waitLoad (.lock m)), .silent)
  | .condWait cv m =>
    s.caller.bind fun id =>
      if (id, m) ∈ s.guards then some (s.setPc id (.condDisable cv m), .silent) else none
  | .signal k => s.caller.map fun id => (s.setPc id (.signalAdd (.plain k)), .silent)
  | .dropGuard m =>
    s.caller.bind fun id =>
      if (id, m) ∈ s.guards then some (s.setPc id (.signalAdd (.mutex m)), .silent) else none
  | .notifyOne cv => s.caller.map fun _ => (s.notifyOne cv, .silent)
  | .notifyAll cv => s.caller.map fun _ => (s.notifyAll cv, .silent)
  | .advance => s.cpu.bind s.advance
  | .tick => if s.interruptible then some (s.endHalt.timerInterruptHandler, .silent) else none
  | .keyboard ctrlC =>
    if s.interruptible then some (s.endHalt.keyboardInterruptHandler ctrlC, .silent) else none
  | .reap id =>
    if s.cpu = some Wait4System.REAPER ∧ s.tm.taskStates[id]? = some .dead then
      some ({ s with tm := (s.tm.kill id).1 }, .silent)
    else none

/-- The number of live guards of a mutex. -/
def holders (m : ℕ) : ℕ := s.guards.countP fun g => g.2 = m

end SyncSystem

end NwinOs.Core
