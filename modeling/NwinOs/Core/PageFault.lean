import NwinOs.Mm.CopyOnWrite
import NwinOs.Tasking.TaskManager

/-!
# The page-fault handler

`pageFaultHandler` offers every write to a present page to `resolveCowFault` and retries the
instruction if that repairs the fault.  Any other fault ends the task, if it came from Ring 3, or
the kernel.
-/

namespace NwinOs.Core

open Mm Tasking

/-- The structured error of an unhandled fault, `MemoryError::PageFault`. -/
structure PageFaultError where
  addr : ℕ
  flags : ℕ
  deriving DecidableEq, Repr

/-- How the handler ends. -/
inductive FaultOutcome (S : Type)
  /-- The handler returns and the CPU retries the instruction. -/
  | retry (st : CowState S)
  /-- The current task has exited; the handler stays in the scheduler. -/
  | terminated (st : CowState S) (tm : TaskManager) (error : PageFaultError)
  /-- A panic, with the error of an unhandled fault or from inside `resolveCowFault`. -/
  | panicked (error : Option PageFaultError)

/-- Bit of the error code: the page was present. -/
def PROTECTION_VIOLATION : ℕ := 0

/-- Bit of the error code: the access was a write. -/
def CAUSED_BY_WRITE : ℕ := 1

/-- Bit of the error code: the access came from Ring 3. -/
def USER_MODE : ℕ := 2

/-- The path of a fault that was not repaired. -/
def unhandledFault {S : Type} (st : CowState S) (tm : TaskManager) (errorCode faultAddr : ℕ) :
    FaultOutcome S :=
  let pfError : PageFaultError := ⟨faultAddr, errorCode⟩
  if errorCode.testBit USER_MODE then .terminated st tm.exitCurrentTask pfError
  else .panicked (some pfError)

/-- The handler of exception 14; `faultAddr` is what `CR2` holds. -/
def pageFaultHandler {S : Type} (m : CowMapper S) (st : CowState S) (tm : TaskManager)
    (errorCode faultAddr : ℕ) : FaultOutcome S :=
  if errorCode.testBit PROTECTION_VIOLATION && errorCode.testBit CAUSED_BY_WRITE then
    match resolveCowFault m st faultAddr with
    | none => .panicked none
    | some (st, true) => .retry st
    | some (st, false) => unhandledFault st tm errorCode faultAddr
  else unhandledFault st tm errorCode faultAddr

end NwinOs.Core
