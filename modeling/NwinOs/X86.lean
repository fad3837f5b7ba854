import NwinOs.Bytes

/-!
# A fragment of x86-64

The instructions that switch stacks: `push`, `pop`, moves, the flag register, `ret` and `iretq`, at
Ring 0.  Memory is a byte buffer and words are little-endian.

A piece of code is a list of instructions that is entered at its head.  `run` says how control
leaves it: by a jump to an address, through the bottom, or by a breakpoint or halt.  A conditional
jump goes forward to a numeric label, as `jz 2f` does.
-/

namespace NwinOs.X86

open Function List

abbrev Word := BitVec 64

/-! ### Flags -/

/-- The flags that `popfq` loads at Ring 0. -/
def flagBits : Word := 0x247FD5

def zeroFlag : Word := 0x40

def signFlag : Word := 0x80

def parityFlag : Word := 0x4

def interruptFlag : Word := 0x200

/-- Suppresses debug faults for one instruction; `pushfq` stores it as zero. -/
def resumeFlag : Word := 0x10000

/-- The flags that a logical operation sets: carry, parity, zero, sign and overflow. -/
def resultFlags : Word := 0x8C5

/-- The flag register.  Bit 1 is always set, and a bit that is no flag is always clear. -/
structure Rflags where
  bits : Word
  reserved : bits &&& ~~~(flagBits ||| resumeFlag) = 2

namespace Rflags

/-- What `popfq` makes of a word. -/
def ofWord (w : Word) : Rflags where
  bits := (w &&& flagBits) ||| 2
  reserved := by
    rw [BitVec.and_or_distrib_right, BitVec.and_assoc]
    have hnone : flagBits &&& ~~~(flagBits ||| resumeFlag) = 0#64 := by decide
    rw [hnone, BitVec.and_zero]
    decide

/-- The word that `pushfq` stores. -/
def image (f : Rflags) : Word := f.bits &&& ~~~resumeFlag

/-- Whether the number of ones in the low byte is even. -/
def evenParity (w : Word) : Bool := ((List.range 8).filter w.getLsbD).length % 2 = 0

/-- A flag, if the condition holds. -/
def flagIf (c : Bool) (flag : Word) : Word := if c then flag else 0

/-- The flags after a logical operation; the manuals leave the adjust flag open, which is kept
here. -/
def afterLogical (f : Rflags) (result : Word) : Rflags where
  bits := (f.bits &&& ~~~resultFlags) ||| flagIf (result = 0) zeroFlag
    ||| flagIf result.msb signFlag ||| flagIf (evenParity result) parityFlag
  reserved := by
    have hflag : ∀ (c : Bool) (flag : Word), flag &&& ~~~(flagBits ||| resumeFlag) = 0 →
        flagIf c flag &&& ~~~(flagBits ||| resumeFlag) = 0 := by
      intro c flag h
      cases c with
      | false => exact BitVec.zero_and
      | true => exact h
    have hold : f.bits &&& ~~~resultFlags &&& ~~~(flagBits ||| resumeFlag) = 2 := by
      rw [BitVec.and_assoc, BitVec.and_comm (~~~resultFlags), ← BitVec.and_assoc, f.reserved]
      decide
    rw [BitVec.and_or_distrib_right, BitVec.and_or_distrib_right, BitVec.and_or_distrib_right, hold,
      hflag _ _ (by decide), hflag _ _ (by decide), hflag _ _ (by decide)]
    decide

/-- The zero flag. -/
def zero (f : Rflags) : Bool := f.bits.getLsbD 6

theorem zero_afterLogical (f : Rflags) (result : Word) :
    (f.afterLogical result).zero = decide (result = 0) := by
  have hflag : ∀ (c : Bool) (flag : Word), (flagIf c flag).getLsbD 6 = (c && flag.getLsbD 6) := by
    intro c flag
    cases c <;> simp [flagIf]
  have hbits : (~~~resultFlags).getLsbD 6 = false ∧ zeroFlag.getLsbD 6 = true ∧
      signFlag.getLsbD 6 = false ∧ parityFlag.getLsbD 6 = false := by decide
  unfold zero afterLogical
  simp only [BitVec.getLsbD_or, BitVec.getLsbD_and, hflag, hbits, Bool.and_false, Bool.or_false,
    Bool.false_or, Bool.and_true]

/-- **A stored flag word comes back**, also with a flag added. -/
theorem bits_ofWord_image (f : Rflags) {flag : Word} (h : flag &&& flagBits = flag) :
    (ofWord (f.image ||| flag)).bits = f.image ||| flag := by
  -- bit by bit: a bit is a flag, the resume flag, bit 1 or none of these
  have hbit : ∀ (i : Fin 64) (b g : Bool),
      (b && !(flagBits ||| resumeFlag).getLsbD i) = (2 : Word).getLsbD i →
      (g && flagBits.getLsbD i) = g →
      (((b && !resumeFlag.getLsbD i) || g) && flagBits.getLsbD i || (2 : Word).getLsbD i)
        = ((b && !resumeFlag.getLsbD i) || g) := by
    decide +kernel
  apply BitVec.eq_of_getLsbD_eq
  intro i hi
  have hreserved := congrArg (fun w => w.getLsbD i) f.reserved
  have hflag := congrArg (fun w => w.getLsbD i) h
  simp only [BitVec.getLsbD_and, BitVec.getLsbD_not, hi, decide_true, Bool.true_and]
    at hreserved hflag
  have := hbit ⟨i, hi⟩ (f.bits.getLsbD i) (flag.getLsbD i) hreserved hflag
  simpa only [ofWord, image, BitVec.getLsbD_or, BitVec.getLsbD_and, BitVec.getLsbD_not, hi,
    decide_true, Bool.true_and] using this

end Rflags

/-! ### Registers and memory -/

/-- The general registers. -/
inductive Reg
  | rax | rbx | rcx | rdx | rsi | rdi | rbp | rsp
  | r8 | r9 | r10 | r11 | r12 | r13 | r14 | r15
  deriving DecidableEq, Repr

/-- The state of the processor and the memory. -/
structure State where
  regs : Reg → Word
  rflags : Rflags
  rip : Word
  cs : BitVec 16
  ss : BitVec 16
  mem : Bytes

variable {w : Word}

theorem toNat_sub_eight (h : 8 ≤ w.toNat) : (w - 8).toNat = w.toNat - 8 := by
  bv_omega

/-- The word at an address. -/
def wordAt (mem : Bytes) (a : ℕ) : Word := BitVec.ofNat 64 (mem.get a 8)

/-- The memory with a word put at an address. -/
def putWord (mem : Bytes) (a : ℕ) (w : Word) : Bytes := mem.put a 8 w.toNat

theorem wordAt_putWord_self (mem : Bytes) (a : ℕ) (w : Word) : wordAt (putWord mem a w) a = w := by
  have hlt : w.toNat < 256 ^ 8 := w.isLt
  unfold wordAt putWord
  rw [Bytes.get_put, Nat.mod_eq_of_lt hlt, BitVec.ofNat_toNat]
  exact BitVec.setWidth_eq w

variable {mem : Bytes} {a : ℕ}

theorem wordAt_putWord_of_disjoint {b : ℕ} (h : a + 8 ≤ b ∨ b + 8 ≤ a) :
    wordAt (putWord mem b w) a = wordAt mem a := by
  unfold wordAt putWord
  rw [Bytes.get_put_of_disjoint h]

theorem putWord_of_outside {i : ℕ} (h : i < a ∨ a + 8 ≤ i) : putWord mem a w i = mem i :=
  Bytes.put_of_outside h

theorem wordAt_congr {mem' : Bytes} (h : ∀ i, a ≤ i → i < a + 8 → mem i = mem' i) :
    wordAt mem a = wordAt mem' a := by
  unfold wordAt
  rw [Bytes.get_congr h]

/-- Writes words to their addresses, one after the other. -/
def putWords (mem : Bytes) (words : List (ℕ × Word)) : Bytes :=
  words.foldl (fun mem (a, w) => putWord mem a w) mem

section

variable {mem : Bytes} {words : List (ℕ × Word)} {a i : ℕ} {w : Word}

theorem putWords_of_outside (h : ∀ x ∈ words, i < x.1 ∨ x.1 + 8 ≤ i) :
    putWords mem words i = mem i := by
  induction words generalizing mem with
  | nil => rfl
  | cons x words ih =>
    change putWords (putWord mem x.1 x.2) words i = mem i
    rw [ih fun y hy => h y (mem_cons_of_mem _ hy), putWord_of_outside (h x mem_cons_self)]

theorem putWords_append {words' : List (ℕ × Word)} :
    putWords mem (words ++ words') = putWords (putWords mem words) words' :=
  foldl_append

theorem wordAt_putWords_of_outside (h : ∀ x ∈ words, a + 8 ≤ x.1 ∨ x.1 + 8 ≤ a) :
    wordAt (putWords mem words) a = wordAt mem a := by
  refine wordAt_congr fun i h1 h2 => putWords_of_outside fun x hx => ?_
  have := h x hx
  omega

end

/-! ### Words on a stack and in a struct -/

/-- The words that are pushed on a stack whose pointer is `n`, with their addresses. -/
def stackWords : ℕ → List Word → List (ℕ × Word)
  | _, [] => []
  | n, w :: ws => (n - 8, w) :: stackWords (n - 8) ws

/-- The words of a struct at an address. -/
def structWords : ℕ → List Word → List (ℕ × Word)
  | _, [] => []
  | a, w :: ws => (a, w) :: structWords (a + 8) ws

section

variable {mem : Bytes} {ws : List Word} {n a i : ℕ}

theorem stackWords_inside (h : 8 * ws.length ≤ n) :
    ∀ x ∈ stackWords n ws, n - 8 * ws.length ≤ x.1 ∧ x.1 + 8 ≤ n := by
  induction ws generalizing n with
  | nil => exact fun x hx => absurd hx not_mem_nil
  | cons w ws ih =>
    rw [length_cons] at h ⊢
    intro x hx
    rcases mem_cons.mp hx with rfl | hx
    · omega
    · have := ih (by omega) x hx
      omega

theorem structWords_inside : ∀ x ∈ structWords a ws, a ≤ x.1 ∧ x.1 + 8 ≤ a + 8 * ws.length := by
  induction ws generalizing a with
  | nil => exact fun x hx => absurd hx not_mem_nil
  | cons w ws ih =>
    rw [length_cons]
    intro x hx
    rcases mem_cons.mp hx with rfl | hx
    · omega
    · have := ih x hx
      omega

theorem wordAt_stackWords (h : 8 * ws.length ≤ n) (hi : i < ws.length) :
    wordAt (putWords mem (stackWords n ws)) (n - 8 * (i + 1)) = ws[i] := by
  induction ws generalizing n mem i with
  | nil => cases hi
  | cons w ws ih =>
    rw [length_cons] at h hi
    change wordAt (putWords (putWord mem (n - 8) w) (stackWords (n - 8) ws)) _ = _
    cases i with
    | zero =>
      rw [wordAt_putWords_of_outside fun x hx => ?_]
      · exact wordAt_putWord_self ..
      · have := stackWords_inside (by omega) x hx
        omega
    | succ i =>
      have := @ih (putWord mem (n - 8) w) (n - 8) i (by omega) (by omega)
      rw [getElem_cons_succ, ← this]
      congr 1
      omega

end

namespace State

/-- The state with another value in a register. -/
def setReg (s : State) (r : Reg) (w : Word) : State :=
  { s with regs := update s.regs r w }

/-- Pushes a word: the stack pointer goes down first. -/
def pushWord (s : State) (w : Word) : State :=
  let rsp := s.regs .rsp - 8
  { s.setReg .rsp rsp with mem := putWord s.mem rsp.toNat w }

/-- The word on top of the stack. -/
def top (s : State) : Word := wordAt s.mem (s.regs .rsp).toNat

/-- The state with the top word dropped. -/
def drop (s : State) : State := s.setReg .rsp (s.regs .rsp + 8)

end State

variable {s : State}

theorem State.rsp_pushWord (h : 8 ≤ (s.regs .rsp).toNat) :
    ((s.pushWord w).regs .rsp).toNat = (s.regs .rsp).toNat - 8 := by
  change (update s.regs .rsp (s.regs .rsp - 8) .rsp).toNat = _
  rw [update_self, toNat_sub_eight h]

/-- Pushes words, one after the other. -/
def State.pushWords (s : State) (ws : List Word) : State := ws.foldl State.pushWord s

variable {ws : List Word}

theorem State.regs_pushWords_of_ne {r : Reg} (h : r ≠ .rsp) :
    (s.pushWords ws).regs r = s.regs r := by
  induction ws generalizing s with
  | nil => rfl
  | cons w ws ih =>
    change ((s.pushWord w).pushWords ws).regs r = _
    rw [ih]
    exact update_of_ne h ..

theorem State.rsp_pushWords (h : 8 * ws.length ≤ (s.regs .rsp).toNat) :
    ((s.pushWords ws).regs .rsp).toNat = (s.regs .rsp).toNat - 8 * ws.length := by
  induction ws generalizing s with
  | nil => rfl
  | cons w ws ih =>
    rw [length_cons] at h ⊢
    have hrsp := @rsp_pushWord w s (by omega)
    change (((s.pushWord w).pushWords ws).regs .rsp).toNat = _
    rw [ih (by omega), hrsp]
    omega

theorem State.mem_pushWords (h : 8 * ws.length ≤ (s.regs .rsp).toNat) :
    (s.pushWords ws).mem = putWords s.mem (stackWords (s.regs .rsp).toNat ws) := by
  induction ws generalizing s with
  | nil => rfl
  | cons w ws ih =>
    rw [length_cons] at h
    have hrsp := @rsp_pushWord w s (by omega)
    have hmem : (s.pushWord w).mem = putWord s.mem ((s.regs .rsp).toNat - 8) w := by
      change putWord s.mem (s.regs .rsp - 8).toNat w = _
      rw [toNat_sub_eight (by omega)]
    change ((s.pushWord w).pushWords ws).mem = _
    rw [ih (by omega), hrsp, hmem]
    rfl

/-! ### Instructions -/

/-- The instructions that `context_switch` uses. -/
inductive Instr
  | test (a b : Reg)
  /-- Jumps forward to the label if the zero flag is set. -/
  | jz (n : ℕ)
  | label (n : ℕ)
  | push (r : Reg)
  | pop (r : Reg)
  | pushfq
  | popfq
  /-- `or qword ptr [base], imm`. -/
  | orMem (base : Reg) (imm : Word)
  /-- `mov [base], src`. -/
  | store (base src : Reg)
  | mov (dst src : Reg)
  | ret
  | iretq
  | int3
  | hlt
  deriving DecidableEq, Repr

/-- How control leaves a piece of code. -/
inductive Exit
  /-- At `rip`. -/
  | jumps (s : State)
  /-- Through the bottom. -/
  | falls (s : State)
  | breakpoint (s : State)
  | halts (s : State)

namespace Instr

/-- The effect of an instruction that control falls through. -/
def effect (s : State) : Instr → State
  | test a b => { s with rflags := s.rflags.afterLogical (s.regs a &&& s.regs b) }
  | push r => s.pushWord (s.regs r)
  | pop r => s.drop.setReg r s.top
  | pushfq => s.pushWord s.rflags.image
  | popfq => { s.drop with rflags := .ofWord s.top }
  | orMem base imm =>
    let a := (s.regs base).toNat
    let result := wordAt s.mem a ||| imm
    { s with mem := putWord s.mem a result, rflags := s.rflags.afterLogical result }
  | store base src => { s with mem := putWord s.mem (s.regs base).toNat (s.regs src) }
  | mov dst src => s.setReg dst (s.regs src)
  | jz _ | label _ | ret | iretq | int3 | hlt => s

/-- Where control goes if the instruction does not fall through. -/
def exit? (s : State) : Instr → Option Exit
  | ret => some (.jumps { s.drop with rip := s.top })
  | iretq =>
    -- instruction pointer, code selector, flags (the resume flag left out), stack pointer and
    -- stack selector
    let word := fun i => wordAt s.mem ((s.regs .rsp).toNat + 8 * i)
    some (.jumps { s.setReg .rsp (word 3) with
      rip := word 0
      cs := (word 1).setWidth 16
      rflags := .ofWord (word 2)
      ss := (word 4).setWidth 16 })
  | int3 => some (.breakpoint s)
  | hlt => some (.halts s)
  | _ => none

/-- The label that is jumped to. -/
def target? (s : State) : Instr → Option ℕ
  | jz n => if s.rflags.zero then some n else none
  | _ => none

end Instr

/-- Runs a piece of code; `seeking` is the label that a jump goes to. -/
def exec : List Instr → Option ℕ → State → Exit
  | [], _, s => .falls s
  | i :: rest, some n, s => if i = .label n then exec rest none s else exec rest (some n) s
  | i :: rest, none, s =>
    match i.exit? s with
    | some e => e
    | none => exec rest (i.target? s) (i.effect s)

/-- Runs a piece of code from its head. -/
def run (code : List Instr) (s : State) : Exit := exec code none s

/-! ### Straight-line code -/

/-- The instruction always falls through. -/
def Instr.isStraight : Instr → Bool
  | .jz _ | .ret | .iretq | .int3 | .hlt => false
  | _ => true

/-- The effects of straight-line code. -/
def effects (code : List Instr) (s : State) : State := code.foldl Instr.effect s

section

variable {code rest : List Instr} {s : State} {r : Reg} {n : ℕ}

theorem exec_append (h : ∀ i ∈ code, i.isStraight = true) :
    exec (code ++ rest) none s = exec rest none (effects code s) := by
  induction code generalizing s with
  | nil => rfl
  | cons i code ih =>
    have hi := h i mem_cons_self
    have hexit : i.exit? s = none := by cases i <;> first | rfl | cases hi
    have htarget : i.target? s = none := by cases i <;> first | rfl | cases hi
    rw [cons_append, exec, hexit, htarget]
    exact ih fun i' hi' => h i' (mem_cons_of_mem _ hi')

theorem exec_guard : exec (.test r r :: .jz n :: rest) none s
    = exec rest (if s.regs r = 0 then some n else none) (Instr.effect s (.test r r)) := by
  have hzero : (Instr.effect s (.test r r)).rflags.zero = decide (s.regs r = 0) := by
    change (s.rflags.afterLogical (s.regs r &&& s.regs r)).zero = _
    rw [Rflags.zero_afterLogical, BitVec.and_self]
  change exec rest ((Instr.jz n).target? (Instr.effect s (.test r r))) _ = _
  unfold Instr.target?
  simp only [hzero, decide_eq_true_eq]
  rfl

end

end NwinOs.X86
