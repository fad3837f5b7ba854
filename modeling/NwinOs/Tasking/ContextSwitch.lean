import NwinOs.X86
import NwinOs.Tasking.TaskManager

/-!
# Switching stacks

The code of `context_switch` and of the trampoline into Ring 3, and the stack frame that `Task::new`
builds for a task that has not run yet.

`World` is the processor with any number of tasks.  A task runs arbitrary code until it calls
`context_switch` with a place for its own stack pointer and the stack pointer that is saved for
another task.
-/

namespace NwinOs.Tasking

open X86

/-! ### The code -/

/-- The registers that a switch saves.  The field order matches the push and pop sequence of
`contextSwitch`. -/
structure TaskContext where
  rflags : Word
  rbp : Word
  rbx : Word
  r12 : Word
  r13 : Word
  r14 : Word
  r15 : Word
  deriving DecidableEq, Repr

/-- The words of the struct in the order of the addresses. -/
def TaskContext.words (c : TaskContext) : List Word :=
  [c.rflags, c.rbp, c.rbx, c.r12, c.r13, c.r14, c.r15]

/-- `old_rsp` is in `rdi`, `new_rsp` in `rsi`. -/
def contextSwitch : List Instr :=
  [ -- guard: null pointers
    .test .rdi .rdi, .jz 2, .test .rsi .rsi, .jz 2,
    -- save the outgoing context, with interrupts enabled in the saved flags
    .push .r15, .push .r14, .push .r13, .push .r12, .push .rbx, .push .rbp, .pushfq,
    .orMem .rsp 0x200,
    .store .rdi .rsp,
    .mov .rsp .rsi,
    -- restore the incoming context
    .popfq, .pop .rbp, .pop .rbx, .pop .r12, .pop .r13, .pop .r14, .pop .r15,
    .ret,
    -- error label
    .label 2, .int3, .hlt]

/-- Consumes the five words that `Task::new` pushed. -/
def userModeTrampoline : List Instr := [.iretq]

/-! ### The first frame of a task -/

/-- What `Task::new` takes from the rest of the kernel: the selectors of the descriptor table and
the address of the trampoline. -/
structure Kernel where
  userCodeSelector : BitVec 16
  userDataSelector : BitVec 16
  trampoline : Word

/-- A selector with the requested privilege level. -/
def ring3 (selector : BitVec 16) : Word := selector.setWidth 64 ||| 3

/-- The words that are pushed below the top of a new stack, the first one first. -/
def entryWords (k : Kernel) (privilege : PrivilegeLevel) (entryPoint userStackTop : Word) :
    List Word :=
  match privilege with
  | .userMode =>
    -- SS, RSP, RFLAGS, CS and RIP for `iretq`
    [ring3 k.userDataSelector, userStackTop, 0x202, ring3 k.userCodeSelector, entryPoint,
      k.trampoline]
  | .kernelMode => [0xDEADC0DEDEADC0DE, entryPoint]

/-- The context that a task starts with. -/
def initialContext : TaskContext := ⟨0x202, 0, 0, 0, 0, 0, 0⟩

/-- The first frame: each word with its address, in the order in which they are written. -/
def initialFrame (k : Kernel) (stackStart : ℕ) (privilege : PrivilegeLevel)
    (entryPoint userStackTop : Word) : List (ℕ × Word) :=
  let rsp := (stackStart + STACK_SIZE) / 16 * 16
  let pushed := entryWords k privilege entryPoint userStackTop
  let context := rsp - 8 * pushed.length - CONTEXT_SIZE
  stackWords rsp pushed ++ structWords context initialContext.words

/-! ### Many stacks -/

/-- The processor, the running task, and the stack pointers in the `rsp` fields of the tasks. -/
structure World (ι : Type) where
  cpu : State
  current : ι
  rsp : ι → Word

/-- The arguments of `Task::new`, with the stack that the heap gives. -/
structure TaskSpec where
  id : TaskId
  entryPoint : Word
  pml4Frame : ℕ
  privilege : PrivilegeLevel
  userStackTop : Word
  parentId : Option TaskId

/-- What can happen. -/
inductive Event (ι : Type)
  /-- The current task runs, and leaves the machine in the given state. -/
  | run (after : State)
  /-- The current task calls `context_switch` to go on with another one; `oldRsp` is the address of
  its own `rsp` field, `ret` the address behind the call. -/
  | switchTo (oldRsp ret : Word) (task : ι)
  /-- A task is created. -/
  | spawn (task : ι) (spec : TaskSpec)

namespace World

variable {ι : Type} [DecidableEq ι]

/-- Calls `context_switch`; `none` is the breakpoint of its guard. -/
def switchTo (w : World ι) (oldRsp ret : Word) (task : ι) : Option (World ι) :=
  let called := ((w.cpu.setReg .rdi oldRsp).setReg .rsi (w.rsp task)).pushWord ret
  match X86.run contextSwitch called with
  | .jumps cpu =>
    some ⟨cpu, task, Function.update w.rsp w.current (wordAt cpu.mem oldRsp.toNat)⟩
  | _ => none

/-- Creates a task on a new stack. -/
def spawn (k : Kernel) (w : World ι) (stackStart : ℕ) (task : ι) (spec : TaskSpec) :
    Option (World ι) :=
  match Task.new spec.id spec.pml4Frame spec.privilege spec.parentId (some stackStart) with
  | .error _ => none
  | .ok new =>
    let frame := initialFrame k stackStart spec.privilege spec.entryPoint spec.userStackTop
    some { w with
      cpu := { w.cpu with mem := putWords w.cpu.mem frame }
      rsp := Function.update w.rsp task (BitVec.ofNat 64 new.rsp) }

/-- One event; `stack` are the addresses that the heap gives for the stacks. -/
def step (k : Kernel) (stack : ι → ℕ) (w : World ι) (e : Event ι) : Option (World ι × Unit) :=
  match e with
  | .run after => some ({ w with cpu := after }, ())
  | .switchTo oldRsp ret task => (w.switchTo oldRsp ret task).map (·, ())
  | .spawn task spec => (w.spawn k (stack task) task spec).map (·, ())

end World

end NwinOs.Tasking
