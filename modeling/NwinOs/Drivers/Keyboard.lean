import NwinOs.Tasking.TaskManager
import NwinOs.Drivers.Tty

/-!
# The keyboard

`drivers/input/keyboard.rs`: a ring buffer of characters that the keyboard interrupt fills and the
reader drains.  `pushKey` runs to its end inside the interrupt.  The reader's `popKey` can be
interrupted between any two accesses to the shared variables, so it is a machine with a program
point (`PopPc`) that `KeySystem` interleaves with pushes.  `none` is the panic of an index outside
the buffer; the indices stay far below `2^64`, so the sums do not overflow.

The decoder of scan codes is that of an external library; it is a parameter of what uses it.
-/

namespace NwinOs.Drivers

open Tasking

/-- The size of the ring. -/
def BUF_SIZE : ℕ := 256

/-- The statics `BUFFER`, `HEAD` and `TAIL`. -/
structure KeyBuffer where
  buffer : Vector Char BUF_SIZE
  head : ℕ
  tail : ℕ
  deriving DecidableEq

namespace KeyBuffer

def init : KeyBuffer := ⟨Vector.replicate BUF_SIZE '\x00', 0, 0⟩

/-- The index after one, wrapping at the end of the buffer. -/
def next (index : ℕ) : ℕ := (index + 1) % BUF_SIZE

/-- Whether `pushKey` stores its character. -/
def accepts (keys : KeyBuffer) : Bool := next keys.tail != keys.head

/-- A key that finds the ring full is dropped. -/
def pushKey (keys : KeyBuffer) (c : Char) : Option KeyBuffer :=
  if keys.accepts then
    if h : keys.tail < BUF_SIZE then
      some { keys with buffer := keys.buffer.set keys.tail c, tail := next keys.tail }
    else none
  else some keys

end KeyBuffer

/-! ### The reader -/

/-- The points of `popKey`, each named after the access that comes next. -/
inductive PopPc
  /-- Outside `popKey`, or about to load `HEAD`. -/
  | idle
  | loadTail (head : ℕ)
  | readSlot (head : ℕ)
  | storeHead (head : ℕ) (c : Char)
  /-- `HEAD` is stored; the character is about to be returned. -/
  | finish (c : Char)
  deriving DecidableEq, Repr

/-- The buffer and the reader. -/
structure KeySystem where
  keys : KeyBuffer
  pc : PopPc

/-- What a step shows: a push that stores its character or drops it, the store of `HEAD`, and the
return of `popKey`. -/
inductive KeyOutput
  | accepted (c : Char)
  | rejected (c : Char)
  | released
  | returned (c : Option Char)
  | silent
  deriving DecidableEq, Repr

namespace KeySystem

def init : KeySystem := ⟨.init, .idle⟩

/-- One access of `popKey`. -/
def pop (s : KeySystem) : Option (KeySystem × KeyOutput) :=
  match s.pc with
  | .idle => some ({ s with pc := .loadTail s.keys.head }, .silent)
  | .loadTail head =>
    if head = s.keys.tail then some ({ s with pc := .idle }, .returned none)
    else some ({ s with pc := .readSlot head }, .silent)
  | .readSlot head =>
    match s.keys.buffer[head]? with
    | some c => some ({ s with pc := .storeHead head c }, .silent)
    | none => none
  | .storeHead head c =>
    some (⟨{ s.keys with head := KeyBuffer.next head }, .finish c⟩, .released)
  | .finish c => some ({ s with pc := .idle }, .returned (some c))

/-- An interrupt that pushes one character, or one access of the reader. -/
inductive Action
  | push (c : Char)
  | pop
  deriving DecidableEq, Repr

def step (s : KeySystem) : Action → Option (KeySystem × KeyOutput)
  | .push c => (s.keys.pushKey c).map fun keys =>
    ({ s with keys }, if s.keys.accepts then .accepted c else .rejected c)
  | .pop => s.pop

end KeySystem

/-! ### The interrupt -/

/-- The keys without a character; only those that the driver handles have names. -/
inductive KeyCode
  | enter
  | backspace
  | arrowUp
  | arrowDown
  | arrowRight
  | arrowLeft
  | other (code : ℕ)
  deriving DecidableEq, Repr

/-- What the `pc_keyboard` decoder returns. -/
inductive DecodedKey
  | unicode (character : Char)
  | rawKey (key : KeyCode)
  deriving DecidableEq, Repr

/-- The decoder of the `pc_keyboard` library. -/
class PcKeyboard (K : Type) where
  KeyEvent : Type
  Error : Type
  addByte : K → Byte → K × Except Error (Option KeyEvent)
  processKeyevent : K → KeyEvent → K × Option DecodedKey

/-- What the keyboard interrupt reads and changes. -/
structure InputState (K : Type) where
  keyboard : K
  keys : KeyBuffer
  tm : TaskManager
  writer : Option Writer

namespace InputState

variable {K : Type}

def push (s : InputState K) (c : Char) : Option (InputState K) :=
  (s.keys.pushKey c).map fun keys => { s with keys }

/-- Ctrl+C: the current task dies, unless it is the reaper or there is none. -/
def interruptTask (font : Font) (s : InputState K) : InputState K :=
  match s.tm.currentTask with
  | some id =>
    if 1 < id then
      { s with
        tm := s.tm.exitCurrentTask
        writer := print font s.writer [0x5E, 0x43, 0x0A] } -- `^C` and the line feed
    else s
  | none => s

/-- Ctrl+C interrupts the task; an arrow becomes its escape sequence. -/
def handleKey (font : Font) (s : InputState K) : DecodedKey → Option (InputState K)
  | .unicode character =>
    if character = '\x03' then some (s.interruptTask font) else s.push character
  | .rawKey key =>
    match key with
    | .enter => s.push '\n'
    | .backspace => s.push '\x08'
    | .arrowUp => do (← (← s.push '\x1b').push '[').push 'A'
    | .arrowDown => do (← (← s.push '\x1b').push '[').push 'B'
    | .arrowRight => do (← (← s.push '\x1b').push '[').push 'C'
    | .arrowLeft => do (← (← s.push '\x1b').push '[').push 'D'
    | .other _ => some s

/-- The keyboard interrupt. -/
def processScancode [PcKeyboard K] (font : Font) (s : InputState K) (scancode : Byte) :
    Option (InputState K) :=
  match PcKeyboard.addByte s.keyboard scancode with
  | (keyboard, .ok (some keyEvent)) =>
    match PcKeyboard.processKeyevent keyboard keyEvent with
    | (keyboard, some key) => handleKey font { s with keyboard } key
    | (keyboard, none) => some { s with keyboard }
  | (keyboard, _) => some { s with keyboard }

end InputState

end NwinOs.Drivers
