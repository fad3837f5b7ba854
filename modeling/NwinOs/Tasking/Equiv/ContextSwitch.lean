import NwinOs.Transition
import NwinOs.Tasking.ContextSwitch

/-!
# A switch preserves the registers of every task
-/

namespace NwinOs.Tasking

open X86 Function List

/-! ### The two halves of the switch -/

/-- The outgoing half, behind the guard. -/
def saveCode : List Instr :=
  [.push .r15, .push .r14, .push .r13, .push .r12, .push .rbx, .push .rbp, .pushfq,
    .orMem .rsp 0x200, .store .rdi .rsp]

/-- The incoming half, up to the return. -/
def restoreCode : List Instr :=
  [.mov .rsp .rsi, .popfq, .pop .rbp, .pop .rbx, .pop .r12, .pop .r13, .pop .r14, .pop .r15]

/-- The context that the memory holds at an address. -/
def contextAt (mem : Bytes) (a : ℕ) : TaskContext :=
  ⟨wordAt mem a, wordAt mem (a + 8), wordAt mem (a + 16), wordAt mem (a + 24), wordAt mem (a + 32),
    wordAt mem (a + 40), wordAt mem (a + 48)⟩

/-- The registers of a context. -/
def contextOf (s : State) (rflags : Word) : TaskContext :=
  ⟨rflags, s.regs .rbp, s.regs .rbx, s.regs .r12, s.regs .r13, s.regs .r14, s.regs .r15⟩

section

variable {s : State}

theorem effects_restoreCode (h : (s.regs .rsi).toNat + 64 ≤ 2 ^ 64) :
    let s' := effects restoreCode s
    contextOf s' (wordAt s.mem (s.regs .rsi).toNat) = contextAt s.mem (s.regs .rsi).toNat ∧
      s'.rflags = .ofWord (wordAt s.mem (s.regs .rsi).toNat) ∧ s'.mem = s.mem ∧
      s'.regs .rsp = s.regs .rsi + 56 := by
  simp only [effects, restoreCode, Instr.effect, State.drop, State.setReg, State.top, contextOf,
    contextAt, foldl_cons, foldl_nil, update_self, ne_eq, reduceCtorEq,
    not_false_eq_true, update_of_ne, TaskContext.mk.injEq, true_and]
  refine ⟨⟨?_, ?_, ?_, ?_, ?_, ?_⟩, by bv_omega⟩ <;>
  · exact congrArg (wordAt s.mem) (by bv_omega)

/-- The words that the outgoing half pushes. -/
def savedWords (s : State) : List Word :=
  [s.regs .r15, s.regs .r14, s.regs .r13, s.regs .r12, s.regs .rbx, s.regs .rbp, s.rflags.image]

theorem rsp_savedWords (h : 56 ≤ (s.regs .rsp).toNat) :
    ((s.pushWords (savedWords s)).regs .rsp).toNat = (s.regs .rsp).toNat - 56 :=
  State.rsp_pushWords h

/-- The memory after the outgoing half: the pushed words, the flags among them with interrupts
enabled, and the stack pointer. -/
theorem mem_saveCode (h : 56 ≤ (s.regs .rsp).toNat) : (effects saveCode s).mem
      = putWord (putWord (putWords s.mem (stackWords (s.regs .rsp).toNat (savedWords s)))
          ((s.regs .rsp).toNat - 56) (s.rflags.image ||| interruptFlag))
        (s.regs .rdi).toNat ((s.pushWords (savedWords s)).regs .rsp) := by
  have hrsp := rsp_savedWords h
  have hmem : (s.pushWords (savedWords s)).mem
      = putWords s.mem (stackWords (s.regs .rsp).toNat (savedWords s)) := State.mem_pushWords h
  have hflags : wordAt (s.pushWords (savedWords s)).mem ((s.regs .rsp).toNat - 56)
      = s.rflags.image := by
    rw [hmem]
    exact @wordAt_stackWords _ (savedWords s) _ 6 h (Nat.lt_succ_self 6)
  have hrdi : (s.pushWords (savedWords s)).regs .rdi = s.regs .rdi :=
    State.regs_pushWords_of_ne (by decide)
  change putWord (putWord (s.pushWords (savedWords s)).mem
      ((s.pushWords (savedWords s)).regs .rsp).toNat
      (wordAt (s.pushWords (savedWords s)).mem ((s.pushWords (savedWords s)).regs .rsp).toNat
        ||| interruptFlag))
    ((s.pushWords (savedWords s)).regs .rdi).toNat ((s.pushWords (savedWords s)).regs .rsp) = _
  rw [hrsp, hflags, hmem, hrdi]

/-- The place for the stack pointer does not lie in the frame that is pushed. -/
def PlaceOutside (s : State) : Prop :=
  (s.regs .rdi).toNat + 8 ≤ (s.regs .rsp).toNat - 56 ∨ (s.regs .rsp).toNat ≤ (s.regs .rdi).toNat

section

variable (h : 56 ≤ (s.regs .rsp).toNat)
include h

theorem wordAt_saveCode {i : ℕ} (hout : PlaceOutside s) (hi : i < 6)
    (hlen : i < (savedWords s).length) :
    wordAt (effects saveCode s).mem ((s.regs .rsp).toNat - 8 * (i + 1)) = (savedWords s)[i] := by
  unfold PlaceOutside at hout
  rw [mem_saveCode h, wordAt_putWord_of_disjoint (by omega), wordAt_putWord_of_disjoint (by omega)]
  exact wordAt_stackWords h hlen

theorem contextAt_saveCode (hout : PlaceOutside s) :
    contextAt (effects saveCode s).mem ((s.regs .rsp).toNat - 56)
      = contextOf s (s.rflags.image ||| interruptFlag) := by
  have hword : ∀ i a, (hi : i < 6) → a = (s.regs .rsp).toNat - 8 * (i + 1) →
      wordAt (effects saveCode s).mem a = (savedWords s).get ⟨i, Nat.lt_succ_of_lt hi⟩ := by
    rintro i _ hi rfl
    exact wordAt_saveCode h hout hi _
  have hflags : wordAt (effects saveCode s).mem ((s.regs .rsp).toNat - 56)
      = s.rflags.image ||| interruptFlag := by
    unfold PlaceOutside at hout
    rw [mem_saveCode h, wordAt_putWord_of_disjoint (by omega), wordAt_putWord_self]
  unfold contextAt contextOf
  rw [hflags, hword 5 _ (by decide) (by omega), hword 4 _ (by decide) (by omega),
    hword 3 _ (by decide) (by omega), hword 2 _ (by decide) (by omega),
    hword 1 _ (by decide) (by omega), hword 0 _ (by decide) (by omega)]
  rfl

theorem wordAt_place_saveCode :
    (wordAt (effects saveCode s).mem (s.regs .rdi).toNat).toNat = (s.regs .rsp).toNat - 56 := by
  rw [mem_saveCode h, wordAt_putWord_self, rsp_savedWords h]

end

theorem rsi_saveCode : (effects saveCode s).regs .rsi = s.regs .rsi := by
  simp only [effects, saveCode, Instr.effect, State.pushWord, State.setReg, foldl_cons,
    foldl_nil, ne_eq, reduceCtorEq, not_false_eq_true, update_of_ne]

theorem mem_saveCode_of_outside {a : ℕ} (h : 56 ≤ (s.regs .rsp).toNat)
    (hframe : a < (s.regs .rsp).toNat - 56 ∨ (s.regs .rsp).toNat ≤ a)
    (hplace : a < (s.regs .rdi).toNat ∨ (s.regs .rdi).toNat + 8 ≤ a) :
    (effects saveCode s).mem a = s.mem a := by
  rw [mem_saveCode h, putWord_of_outside hplace, putWord_of_outside (by omega)]
  refine putWords_of_outside fun x hx => ?_
  have hx := @stackWords_inside (savedWords s) _ h x hx
  have hlen : (savedWords s).length = 7 := rfl
  omega

/-! ### The whole switch -/

/-- The state behind the guard. -/
def passed (s : State) : State :=
  Instr.effect (Instr.effect s (.test .rdi .rdi)) (.test .rsi .rsi)

/-- The state after a return. -/
def returned (s : State) : State := { s.drop with rip := s.top }

/-- The state in which the incoming task goes on. -/
def resumed (s : State) : State := returned (effects restoreCode (effects saveCode (passed s)))

theorem run_contextSwitch (hrdi : s.regs .rdi ≠ 0) (hrsi : s.regs .rsi ≠ 0) :
    X86.run contextSwitch s = .jumps (resumed s) := by
  have hcode : contextSwitch = .test .rdi .rdi :: .jz 2 :: .test .rsi .rsi :: .jz 2 ::
      (saveCode ++ (restoreCode ++ [.ret, .label 2, .int3, .hlt])) := rfl
  have hrsi' : (Instr.effect s (.test .rdi .rdi)).regs .rsi ≠ 0 := hrsi
  unfold X86.run
  rw [hcode, exec_guard, if_neg hrdi, exec_guard, if_neg hrsi', exec_append (by decide),
    exec_append (by decide)]
  rfl

theorem run_contextSwitch_null (hrdi : s.regs .rdi ≠ 0) (hrsi : s.regs .rsi = 0) :
    X86.run contextSwitch s = .breakpoint (passed s) := by
  have hrsi' : (Instr.effect s (.test .rdi .rdi)).regs .rsi = 0 := hrsi
  unfold X86.run contextSwitch
  rw [exec_guard, if_neg hrdi, exec_guard, if_pos hrsi']
  rfl

theorem mem_resumed : (resumed s).mem = (effects saveCode (passed s)).mem := rfl

/-- The incoming task goes on with the context and at the address that its stack pointer leads
to. -/
theorem resumed_spec (h : (s.regs .rsi).toNat + 64 < 2 ^ 64) :
    contextOf (resumed s) (wordAt (resumed s).mem (s.regs .rsi).toNat)
        = contextAt (resumed s).mem (s.regs .rsi).toNat ∧
      (resumed s).rflags = .ofWord (wordAt (resumed s).mem (s.regs .rsi).toNat) ∧
      (resumed s).regs .rsp = s.regs .rsi + 64 ∧
      (resumed s).rip = wordAt (resumed s).mem ((s.regs .rsi).toNat + 56) := by
  have hrsi : (effects saveCode (passed s)).regs .rsi = s.regs .rsi := rsi_saveCode
  obtain ⟨hcontext, hflags, hmem, hrsp⟩ :=
    effects_restoreCode (s := effects saveCode (passed s)) (by rw [hrsi]; omega)
  rw [hrsi] at hcontext hflags hrsp
  have htop : (s.regs .rsi + 56).toNat = (s.regs .rsi).toNat + 56 := by bv_omega
  unfold resumed
  generalize effects restoreCode (effects saveCode (passed s)) = s' at *
  have hmem' : (returned s').mem = s'.mem := rfl
  rw [← hmem, ← hmem'] at hcontext hflags
  refine ⟨?_, ?_, ?_, ?_⟩
  · exact hcontext
  · exact hflags
  · change s'.regs .rsp + 8 = _
    rw [hrsp, BitVec.add_assoc]
    rfl
  · change wordAt s'.mem (s'.regs .rsp).toNat = _
    rw [hrsp, htop, hmem']

end

/-! ### The call of the switch -/

/-- The state in which `context_switch` is entered. -/
def called (s : State) (oldRsp ret newRsp : Word) : State :=
  ((s.setReg .rdi oldRsp).setReg .rsi newRsp).pushWord ret

/-- The flags that the switch pushes: the two null tests come first. -/
def pushedFlags (f : Rflags) (oldRsp newRsp : Word) : Word :=
  ((f.afterLogical oldRsp).afterLogical newRsp).image

/-- The state in which the switch starts to save. -/
def entered (s : State) (oldRsp ret newRsp : Word) : State := passed (called s oldRsp ret newRsp)

section

variable {s : State} {oldRsp ret newRsp : Word} {a : ℕ}

theorem rsp_entered (h : 64 ≤ (s.regs .rsp).toNat) :
    ((entered s oldRsp ret newRsp).regs .rsp).toNat = (s.regs .rsp).toNat - 8 :=
  @State.rsp_pushWord ret ((s.setReg .rdi oldRsp).setReg .rsi newRsp) (Nat.le_trans (by decide) h)

theorem rdi_entered : (entered s oldRsp ret newRsp).regs .rdi = oldRsp := rfl

theorem mem_entered (h : 64 ≤ (s.regs .rsp).toNat) :
    (entered s oldRsp ret newRsp).mem = putWord s.mem ((s.regs .rsp).toNat - 8) ret := by
  change putWord s.mem (s.regs .rsp - 8).toNat ret = _
  rw [toNat_sub_eight (by omega)]

theorem image_entered :
    (entered s oldRsp ret newRsp).rflags.image = pushedFlags s.rflags oldRsp newRsp := by
  change ((s.rflags.afterLogical (oldRsp &&& oldRsp)).afterLogical (newRsp &&& newRsp)).image = _
  rw [BitVec.and_self, BitVec.and_self]
  rfl

theorem mem_resumed_called : (resumed (called s oldRsp ret newRsp)).mem
      = (effects saveCode (entered s oldRsp ret newRsp)).mem :=
  mem_resumed

/-- The place for the stack pointer lies outside the frame that a call leaves. -/
def Apart (s : State) (oldRsp : Word) : Prop :=
  oldRsp.toNat + 8 ≤ (s.regs .rsp).toNat - 64 ∨ (s.regs .rsp).toNat ≤ oldRsp.toNat

theorem Apart.placeOutside (hapart : Apart s oldRsp) (h : 64 ≤ (s.regs .rsp).toNat) :
    PlaceOutside (entered s oldRsp ret newRsp) := by
  unfold PlaceOutside
  unfold Apart at hapart
  rw [rsp_entered h, rdi_entered]
  omega

variable (h : 64 ≤ (s.regs .rsp).toNat)
include h

theorem mem_resumed_of_outside (hframe : a < (s.regs .rsp).toNat - 64 ∨ (s.regs .rsp).toNat ≤ a)
    (hplace : a < oldRsp.toNat ∨ oldRsp.toNat + 8 ≤ a) :
    (resumed (called s oldRsp ret newRsp)).mem a = s.mem a := by
  have hrsp := @rsp_entered s oldRsp ret newRsp h
  rw [mem_resumed_called, mem_saveCode_of_outside (by omega) (by omega) hplace, mem_entered h,
    putWord_of_outside (by omega)]

theorem contextAt_resumed (hapart : Apart s oldRsp) :
    contextAt (resumed (called s oldRsp ret newRsp)).mem ((s.regs .rsp).toNat - 64)
      = contextOf s (pushedFlags s.rflags oldRsp newRsp ||| interruptFlag) := by
  have hrsp := @rsp_entered s oldRsp ret newRsp h
  have hcontext := contextAt_saveCode (by omega) (@hapart.placeOutside s oldRsp ret newRsp h)
  rw [hrsp, image_entered] at hcontext
  rw [mem_resumed_called, show (s.regs .rsp).toNat - 64 = (s.regs .rsp).toNat - 8 - 56 by omega,
    hcontext]
  rfl

theorem ret_resumed (hapart : Apart s oldRsp) :
    wordAt (resumed (called s oldRsp ret newRsp)).mem ((s.regs .rsp).toNat - 64 + 56) = ret := by
  have hrsp := @rsp_entered s oldRsp ret newRsp h
  -- the switch itself pushes below the return address
  have hkeep : ∀ i, (s.regs .rsp).toNat - 8 ≤ i → i < (s.regs .rsp).toNat - 8 + 8 →
      (effects saveCode (entered s oldRsp ret newRsp)).mem i
        = putWord s.mem ((s.regs .rsp).toNat - 8) ret i := by
    intro i h1 h2
    unfold Apart at hapart
    rw [mem_saveCode_of_outside (by omega) (by omega) (by rw [rdi_entered]; omega), mem_entered h]
  rw [mem_resumed_called, show (s.regs .rsp).toNat - 64 + 56 = (s.regs .rsp).toNat - 8 by omega,
    wordAt_congr hkeep, wordAt_putWord_self]

theorem place_resumed : (wordAt (resumed (called s oldRsp ret newRsp)).mem oldRsp.toNat).toNat
      = (s.regs .rsp).toNat - 64 := by
  have hrsp := @rsp_entered s oldRsp ret newRsp h
  have hplace := @wordAt_place_saveCode (entered s oldRsp ret newRsp) (by omega)
  rw [hrsp, rdi_entered] at hplace
  rw [mem_resumed_called, hplace]
  omega

omit h

end

/-! ### The first frame -/

/-- The stack pointer of a new task. -/
def firstRsp (k : Kernel) (stackStart : ℕ) (spec : TaskSpec) : ℕ :=
  (stackStart + STACK_SIZE) / 16 * 16
    - 8 * (entryWords k spec.privilege spec.entryPoint spec.userStackTop).length - CONTEXT_SIZE

/-- The first frame of a task. -/
def firstFrame (k : Kernel) (stackStart : ℕ) (spec : TaskSpec) : List (ℕ × Word) :=
  initialFrame k stackStart spec.privilege spec.entryPoint spec.userStackTop

section

variable {k : Kernel} {stackStart : ℕ} {spec : TaskSpec} {mem : Bytes} {privilege : PrivilegeLevel}

theorem length_entryWords {entryPoint userStackTop : Word} :
    (entryWords k privilege entryPoint userStackTop).length ≤ 6 := by
  cases privilege with
  | userMode => exact Nat.le_refl 6
  | kernelMode => exact Nat.le_add_right 2 4

theorem initialFrame_inside {entryPoint userStackTop : Word} :
    ∀ x ∈ initialFrame k stackStart privilege entryPoint userStackTop,
      stackStart ≤ x.1 ∧ x.1 + 8 ≤ stackStart + STACK_SIZE := by
  have hlen := @length_entryWords k privilege entryPoint userStackTop
  have hwords : initialContext.words.length = 7 := rfl
  unfold initialFrame STACK_SIZE CONTEXT_SIZE
  intro x hx
  rcases mem_append.mp hx with hx | hx
  · have := stackWords_inside (by omega) x hx
    omega
  · have := structWords_inside x hx
    omega

theorem wordAt_firstFrame {ws : List Word}
    (hws : entryWords k spec.privilege spec.entryPoint spec.userStackTop = ws) {i a : ℕ}
    (hi : i < ws.length) (ha : a = (stackStart + STACK_SIZE) / 16 * 16 - 8 * (i + 1)) :
    wordAt (putWords mem (firstFrame k stackStart spec)) a = ws[i] := by
  have hlen := @length_entryWords k spec.privilege spec.entryPoint spec.userStackTop
  have hwords : initialContext.words.length = 7 := rfl
  subst hws ha
  unfold firstFrame initialFrame CONTEXT_SIZE STACK_SIZE
  rw [putWords_append, wordAt_putWords_of_outside fun x hx => ?_]
  · exact wordAt_stackWords (by omega) hi
  · have := structWords_inside x hx
    omega

theorem firstRsp_inside :
    stackStart ≤ firstRsp k stackStart spec ∧
      firstRsp k stackStart spec + 64 ≤ stackStart + STACK_SIZE := by
  have hlen := @length_entryWords k spec.privilege spec.entryPoint spec.userStackTop
  have hpos : 0 < (entryWords k spec.privilege spec.entryPoint spec.userStackTop).length := by
    cases spec.privilege with
    | userMode => exact Nat.succ_pos 5
    | kernelMode => exact Nat.succ_pos 1
  unfold firstRsp CONTEXT_SIZE STACK_SIZE
  omega

end

/-! ### Stacks that do not overlap -/

/-- Where the stacks lie: no two of them overlap, none contains the null address, and none reaches
the end of the address space. -/
structure StackLayout (ι : Type) where
  start : ι → ℕ
  stop : ι → ℕ
  start_pos : ∀ t, 0 < start t
  stop_lt : ∀ t, stop t < 2 ^ 64
  disjoint : ∀ t u, t ≠ u → stop t ≤ start u ∨ stop u ≤ start t

variable {ι : Type}

/-- The current task has called with room for the frame on its own stack. -/
def World.OnStack (L : StackLayout ι) (w : World ι) : Prop :=
  L.start w.current + 64 ≤ (w.cpu.regs .rsp).toNat ∧
    (w.cpu.regs .rsp).toNat ≤ L.stop w.current

/-- What a task may do: its code leaves the other stacks alone, it switches to another task from
its own stack and with a place for the stack pointer that lies on no stack, and it creates tasks on
stacks of the usual size that are not in use. -/
def Event.Allowed (L : StackLayout ι) (w : World ι) : Event ι → Prop
  | .run after =>
    ∀ t, t ≠ w.current → ∀ a, L.start t ≤ a → a < L.stop t → after.mem a = w.cpu.mem a
  | .switchTo oldRsp _ task =>
    task ≠ w.current ∧ w.OnStack L ∧ oldRsp ≠ 0 ∧
      ∀ t, oldRsp.toNat + 8 ≤ L.start t ∨ L.stop t ≤ oldRsp.toNat
  | .spawn task _ => task ≠ w.current ∧ L.stop task = L.start task + STACK_SIZE

/-- The event neither resumes nor creates the task. -/
def Event.Spares (t : ι) : Event ι → Prop
  | .run _ => True
  | .switchTo _ _ task => task ≠ t
  | .spawn task _ => task ≠ t

/-- What may happen while a task does not run. -/
def Elsewhere (L : StackLayout ι) (t : ι) (w : World ι) (e : Event ι) : Prop :=
  e.Allowed L w ∧ e.Spares t

section

variable {L : StackLayout ι} {w w' : World ι} {oldRsp ret : Word} {t u : ι} {k : Kernel}
  {spec : TaskSpec}

theorem Event.Allowed.apart (h : (Event.switchTo oldRsp ret u).Allowed L w) :
    64 ≤ (w.cpu.regs .rsp).toNat ∧ Apart w.cpu oldRsp := by
  obtain ⟨-, ⟨hlow, hhigh⟩, -, hout⟩ := h
  have hout := hout w.current
  unfold Apart
  omega

theorem mem_resumed_of_ne (h : (Event.switchTo oldRsp ret u).Allowed L w) (ht : t ≠ w.current)
    {newRsp : Word} {a : ℕ} (hlow : L.start t ≤ a) (hhigh : a < L.stop t) :
    (resumed (called w.cpu oldRsp ret newRsp)).mem a = w.cpu.mem a := by
  have hroom := h.apart.1
  obtain ⟨-, ⟨hlow', hhigh'⟩, -, hout⟩ := h
  have hdisjoint := L.disjoint t w.current ht
  have hout := hout t
  exact mem_resumed_of_outside hroom (by omega) (by omega)

variable [DecidableEq ι]

/-- **A switch that is not refused**: the incoming task runs, and the frame of the outgoing one is
where its stack pointer says. -/
theorem World.switchTo_eq (hplace : oldRsp ≠ 0) (htask : w.rsp u ≠ 0) :
    w.switchTo oldRsp ret u = some
      ⟨resumed (called w.cpu oldRsp ret (w.rsp u)), u,
        update w.rsp w.current
          (wordAt (resumed (called w.cpu oldRsp ret (w.rsp u))).mem oldRsp.toNat)⟩ := by
  have hrun : X86.run contextSwitch (called w.cpu oldRsp ret (w.rsp u))
      = .jumps (resumed (called w.cpu oldRsp ret (w.rsp u))) := run_contextSwitch hplace htask
  unfold called at hrun ⊢
  unfold World.switchTo
  dsimp only
  rw [hrun]

theorem World.switchTo_null (hplace : oldRsp ≠ 0) (htask : w.rsp u = 0) :
    w.switchTo oldRsp ret u = none := by
  have hrun : X86.run contextSwitch (called w.cpu oldRsp ret (w.rsp u))
      = .breakpoint (passed (called w.cpu oldRsp ret (w.rsp u))) :=
    run_contextSwitch_null hplace htask
  unfold called at hrun
  unfold World.switchTo
  dsimp only
  rw [hrun]

theorem World.spawn_eq (stackStart : ℕ) :
    w.spawn k stackStart t spec = some { w with
      cpu := { w.cpu with mem := putWords w.cpu.mem (firstFrame k stackStart spec) }
      rsp := update w.rsp t (BitVec.ofNat 64 (firstRsp k stackStart spec)) } := by
  unfold World.spawn Task.new firstRsp firstFrame
  cases spec.privilege <;> rfl

/-! ### A task that does not run -/

/-- The task is suspended: its stack pointer and the contents of its stack are as given. -/
structure Suspended (L : StackLayout ι) (t : ι) (rsp : Word) (mem : Bytes) (w : World ι) :
    Prop where
  not_current : t ≠ w.current
  rsp_eq : w.rsp t = rsp
  stack_eq : ∀ a, L.start t ≤ a → a < L.stop t → w.cpu.mem a = mem a

variable {rsp : Word} {mem : Bytes}

/-- A step that spares the task keeps it suspended. -/
theorem Suspended.step (h : Suspended L t rsp mem w) {e : Event ι} (helse : Elsewhere L t w e)
    (hstep : w.step k L.start e = some (w', ())) : Suspended L t rsp mem w' := by
  obtain ⟨hallowed, hspares⟩ := helse
  cases e with
  | run after =>
    cases hstep
    exact ⟨h.not_current, h.rsp_eq, fun a hlow hhigh =>
      (hallowed t h.not_current a hlow hhigh).trans (h.stack_eq a hlow hhigh)⟩
  | switchTo oldRsp ret u =>
    have hplace : oldRsp ≠ 0 := hallowed.2.2.1
    obtain ⟨w'', hswitch, heq⟩ := Option.map_eq_some_iff.mp hstep
    cases heq
    by_cases hnull : w.rsp u = 0
    · rw [World.switchTo_null hplace hnull] at hswitch
      cases hswitch
    · rw [World.switchTo_eq hplace hnull] at hswitch
      cases hswitch
      refine ⟨fun heq => hspares heq.symm, ?_, fun a hlow hhigh => ?_⟩
      · exact (update_of_ne h.not_current ..).trans h.rsp_eq
      · exact (mem_resumed_of_ne hallowed h.not_current hlow hhigh).trans (h.stack_eq a hlow hhigh)
  | spawn u spec =>
    have hsize : L.stop u = L.start u + STACK_SIZE := hallowed.2
    have hother : t ≠ u := fun heq => hspares heq.symm
    cases hstep
    refine ⟨h.not_current, ?_, fun a hlow hhigh => ?_⟩
    · exact (update_of_ne hother ..).trans h.rsp_eq
    · -- the new frame lies on the other stack
      have hkeep : putWords w.cpu.mem (firstFrame k (L.start u) spec) a = w.cpu.mem a := by
        refine putWords_of_outside fun x hx => ?_
        have hx := initialFrame_inside x hx
        have hdisjoint := L.disjoint t u hother
        omega
      exact hkeep.trans (h.stack_eq a hlow hhigh)

/-- **A suspended task stays suspended**, whatever the other tasks do. -/
theorem Suspended.reach {w₁ w₂ : World ι} (h : Suspended L t rsp mem w₁)
    (hreach : Transition.Reach (World.step k L.start) (· = w₁) (Elsewhere L t) w₂) :
    Suspended L t rsp mem w₂ := by
  refine hreach.invariant ?_ ?_
  · rintro _ rfl
    exact h
  · intro w e w' _ hw helse hstep
    exact hw.step helse hstep

/-- **Resuming**: the switch to a suspended task loads the context that its stack pointer leads
to. -/
theorem Suspended.resume (h : Suspended L t rsp mem w)
    (hinside : L.start t ≤ rsp.toNat ∧ rsp.toNat + 64 ≤ L.stop t)
    (hallowed : (Event.switchTo oldRsp ret t).Allowed L w) :
    ∃ w', w.switchTo oldRsp ret t = some w' ∧ w'.current = t ∧
      contextOf w'.cpu (wordAt mem rsp.toNat) = contextAt mem rsp.toNat ∧
      w'.cpu.rflags = .ofWord (wordAt mem rsp.toNat) ∧ w'.cpu.regs .rsp = rsp + 64 ∧
      w'.cpu.rip = wordAt mem (rsp.toNat + 56) ∧
      ∀ a, L.start t ≤ a → a < L.stop t → w'.cpu.mem a = mem a := by
  have hplace : oldRsp ≠ 0 := hallowed.2.2.1
  have hnull : w.rsp t ≠ 0 := by
    have := L.start_pos t
    rw [h.rsp_eq]
    rintro rfl
    exact absurd hinside.1 (Nat.not_le_of_lt this)
  have hstack : ∀ a, L.start t ≤ a → a < L.stop t →
      (resumed (called w.cpu oldRsp ret (w.rsp t))).mem a = mem a := fun a hlow hhigh =>
    (mem_resumed_of_ne hallowed h.not_current hlow hhigh).trans (h.stack_eq a hlow hhigh)
  have hword : ∀ a, L.start t ≤ a → a + 8 ≤ L.stop t →
      wordAt (resumed (called w.cpu oldRsp ret (w.rsp t))).mem a = wordAt mem a :=
    fun a hlow hhigh => wordAt_congr fun i h1 h2 => hstack i (by omega) (by omega)
  have hrsi : (called w.cpu oldRsp ret (w.rsp t)).regs .rsi = rsp := h.rsp_eq
  obtain ⟨hcontext, hflags, hrsp, hrip⟩ :=
    @resumed_spec (called w.cpu oldRsp ret (w.rsp t)) (by have := L.stop_lt t; rw [hrsi]; omega)
  rw [hrsi] at hcontext hflags hrsp hrip
  rw [hword _ (by omega) (by omega)] at hcontext hflags hrip
  refine ⟨_, World.switchTo_eq hplace hnull, rfl, ?_, hflags, hrsp, hrip, hstack⟩
  rw [hcontext]
  unfold contextAt
  rw [hword _ (by omega) (by omega), hword _ (by omega) (by omega), hword _ (by omega) (by omega),
    hword _ (by omega) (by omega), hword _ (by omega) (by omega), hword _ (by omega) (by omega),
    hword _ (by omega) (by omega)]

/-- **Switched out and back in**: the task goes on behind its call with its own registers. -/
theorem resume_after_switchTo {w₁ w₂ : World ι} {oldRsp' ret' : Word}
    (hallowed : (Event.switchTo oldRsp ret u).Allowed L w)
    (hswitch : w.switchTo oldRsp ret u = some w₁)
    (hreach : Transition.Reach (World.step k L.start) (· = w₁) (Elsewhere L w.current) w₂)
    (hallowed' : (Event.switchTo oldRsp' ret' w.current).Allowed L w₂) :
    ∃ w₃, w₂.switchTo oldRsp' ret' w.current = some w₃ ∧ w₃.current = w.current ∧
      (∀ r ∈ [.r12, .r13, .r14, .r15, .rbx, .rbp, .rsp], w₃.cpu.regs r = w.cpu.regs r) ∧
      w₃.cpu.rflags.bits = pushedFlags w.cpu.rflags oldRsp (w.rsp u) ||| interruptFlag ∧
      w₃.cpu.rip = ret := by
  obtain ⟨hroom, hapart⟩ := hallowed.apart
  have hplace : oldRsp ≠ 0 := hallowed.2.2.1
  have hnull : w.rsp u ≠ 0 := by
    intro hnull
    rw [World.switchTo_null hplace hnull] at hswitch
    cases hswitch
  rw [World.switchTo_eq hplace hnull] at hswitch
  cases hswitch
  -- the frame on the stack that the task leaves
  have hrsp := @place_resumed w.cpu oldRsp ret (w.rsp u) hroom
  have hcontext := @contextAt_resumed w.cpu oldRsp ret (w.rsp u) hroom hapart
  have hret := @ret_resumed w.cpu oldRsp ret (w.rsp u) hroom hapart
  have hstack : L.start w.current + 64 ≤ (w.cpu.regs .rsp).toNat ∧
      (w.cpu.regs .rsp).toNat ≤ L.stop w.current := hallowed.2.1
  rw [← hrsp] at hcontext hret
  have hsuspended := Suspended.reach
    (⟨hallowed.1.symm, update_self .., fun _ _ _ => rfl⟩ : Suspended L w.current _ _ _)
    hreach
  obtain ⟨w₃, hswitch, hcurrent, hregs, hflags, hrsp', hrip, -⟩ :=
    hsuspended.resume (by omega) hallowed'
  have hword := congrArg TaskContext.rflags hcontext
  rw [hcontext] at hregs
  refine ⟨w₃, hswitch, hcurrent, ?_, ?_, hrip.trans hret⟩
  · have hr := fun f : TaskContext → Word => congrArg f hregs
    simp only [forall_mem_cons, not_mem_nil, false_imp_iff, implies_true, and_true]
    refine ⟨hr TaskContext.r12, hr TaskContext.r13, hr TaskContext.r14, hr TaskContext.r15,
      hr TaskContext.rbx, hr TaskContext.rbp, ?_⟩
    bv_omega
  · rw [hflags]
    exact (congrArg (fun x => (Rflags.ofWord x).bits) hword).trans
      (Rflags.bits_ofWord_image _ (by decide))

/-! ### The first switch to a task -/

/-- A kernel task starts at its entry point with a stack that is aligned as behind a call; a user
task starts at the trampoline, whose `iretq` enters Ring 3. -/
def FirstRun (k : Kernel) (spec : TaskSpec) (s : State) : Prop :=
  match spec.privilege with
  | .kernelMode => s.rip = spec.entryPoint ∧ (s.regs .rsp).toNat % 16 = 8
  | .userMode =>
    s.rip = k.trampoline ∧ ∃ s', X86.run userModeTrampoline s = .jumps s' ∧
      s'.rip = spec.entryPoint ∧ s'.cs = k.userCodeSelector ||| 3 ∧ s'.rflags.bits = 0x202 ∧
      s'.regs .rsp = spec.userStackTop ∧ s'.ss = k.userDataSelector ||| 3

omit [DecidableEq ι] in
theorem setWidth_ring3 (selector : BitVec 16) : (ring3 selector).setWidth 16 = selector ||| 3 := by
  unfold ring3
  rw [BitVec.setWidth_or, BitVec.setWidth_setWidth_of_le _ (by decide), BitVec.setWidth_eq]
  rfl

omit [DecidableEq ι] in
theorem firstRun_of_stack {s : State} (hsize : L.stop t = L.start t + STACK_SIZE)
    (hrsp : (s.regs .rsp).toNat = firstRsp k (L.start t) spec + 64)
    (hrip : s.rip = wordAt (putWords mem (firstFrame k (L.start t) spec))
      (firstRsp k (L.start t) spec + 56))
    (hstack : ∀ a, L.start t ≤ a → a < L.stop t →
      s.mem a = putWords mem (firstFrame k (L.start t) spec) a) :
    FirstRun k spec s := by
  have htop : L.start t + 65521 ≤ (L.start t + STACK_SIZE) / 16 * 16 ∧
      (L.start t + STACK_SIZE) / 16 * 16 ≤ L.stop t := by
    unfold STACK_SIZE at hsize ⊢
    omega
  unfold firstRsp CONTEXT_SIZE at hrsp hrip
  unfold FirstRun
  cases hp : spec.privilege with
  | kernelMode =>
    have hws : entryWords k spec.privilege spec.entryPoint spec.userStackTop
        = [0xDEADC0DEDEADC0DE, spec.entryPoint] := by rw [hp]; rfl
    rw [hws, length_cons, length_singleton] at hrsp hrip
    refine ⟨?_, ?_⟩
    · rw [hrip, wordAt_firstFrame hws (i := 1) (Nat.lt_succ_self 1) (by omega)]
      rfl
    · rw [hrsp]
      omega
  | userMode =>
    have hws : entryWords k spec.privilege spec.entryPoint spec.userStackTop
        = [ring3 k.userDataSelector, spec.userStackTop, 0x202, ring3 k.userCodeSelector,
          spec.entryPoint, k.trampoline] := by rw [hp]; rfl
    generalize hlist : [ring3 k.userDataSelector, spec.userStackTop, 0x202,
      ring3 k.userCodeSelector, spec.entryPoint, k.trampoline] = ws at hws
    have hlen : ws.length = 6 := by rw [← hlist]; rfl
    rw [hws, hlen] at hrsp hrip
    -- the words that `iretq` consumes were pushed in the opposite order
    have hword : ∀ i, i < 5 → ∀ h : 4 - i < ws.length,
        wordAt s.mem ((s.regs .rsp).toNat + 8 * i) = ws[4 - i] := by
      intro i hi h
      rw [wordAt_congr fun a h1 h2 => hstack a (by omega) (by omega)]
      exact wordAt_firstFrame hws h (by omega)
    refine ⟨?_, _, rfl, ?_, ?_, ?_, ?_, ?_⟩
    · rw [hrip, wordAt_firstFrame hws (i := 5) (by omega) (by omega)]
      subst hlist
      rfl
    · refine (hword 0 (by decide) (by omega)).trans ?_
      subst hlist
      rfl
    · refine (congrArg (BitVec.setWidth 16) (hword 1 (by decide) (by omega))).trans ?_
      subst hlist
      exact setWidth_ring3 _
    · refine (congrArg (fun x => (Rflags.ofWord x).bits) (hword 2 (by decide) (by omega))).trans ?_
      subst hlist
      change (Rflags.ofWord 0x202).bits = 0x202
      decide
    · refine (hword 3 (by decide) (by omega)).trans ?_
      subst hlist
      rfl
    · refine (congrArg (BitVec.setWidth 16) (hword 4 (by decide) (by omega))).trans ?_
      subst hlist
      exact setWidth_ring3 _

/-- **Created and switched in**: the task starts where and as its arguments say. -/
theorem firstRun_after_spawn (hallowed : (Event.spawn t spec).Allowed L w) :
    ∃ w₁, w.spawn k (L.start t) t spec = some w₁ ∧ ∀ (w₂ : World ι) (oldRsp ret : Word),
      Transition.Reach (World.step k L.start) (· = w₁) (Elsewhere L t) w₂ →
      (Event.switchTo oldRsp ret t).Allowed L w₂ →
      ∃ w₃, w₂.switchTo oldRsp ret t = some w₃ ∧ w₃.current = t ∧ FirstRun k spec w₃.cpu := by
  obtain ⟨hother, hsize⟩ := hallowed
  refine ⟨_, World.spawn_eq _, fun w₂ oldRsp ret hreach hallowed => ?_⟩
  have hsuspended : Suspended L t (BitVec.ofNat 64 (firstRsp k (L.start t) spec))
      (putWords w.cpu.mem (firstFrame k (L.start t) spec)) w₂ := by
    refine Suspended.reach ?_ hreach
    exact ⟨hother, update_self .., fun _ _ _ => rfl⟩
  have hstop := L.stop_lt t
  have hinside := @firstRsp_inside k (L.start t) spec
  have hrsp : (BitVec.ofNat 64 (firstRsp k (L.start t) spec)).toNat
      = firstRsp k (L.start t) spec := by
    rw [BitVec.toNat_ofNat, Nat.mod_eq_of_lt (by omega)]
  obtain ⟨w₃, hswitch, hcurrent, -, -, hrsp', hrip, hstack⟩ :=
    hsuspended.resume (by omega) hallowed
  rw [hrsp] at hrip
  refine ⟨w₃, hswitch, hcurrent, firstRun_of_stack hsize ?_ hrip hstack⟩
  bv_omega

/-! ### Main result -/

/-- **A switch preserves the registers of every task**, for any number of tasks and whatever they
do on their own stacks in between.

* A task that is switched back in finds the registers, the stack pointer and the saved flags, with
  interrupts enabled, and goes on behind its call.
* A new task that is switched in for the first time starts at its entry point, in Ring 3 if it is a
  user task.
* The frame that was built for it lies on its stack. -/
theorem context_switch_preserves (k : Kernel) (L : StackLayout ι) :
    (∀ (w w₁ w₂ : World ι) (oldRsp ret oldRsp' ret' : Word) (u : ι),
      (Event.switchTo oldRsp ret u).Allowed L w → w.switchTo oldRsp ret u = some w₁ →
      Transition.Reach (World.step k L.start) (· = w₁) (Elsewhere L w.current) w₂ →
      (Event.switchTo oldRsp' ret' w.current).Allowed L w₂ →
      ∃ w₃, w₂.switchTo oldRsp' ret' w.current = some w₃ ∧ w₃.current = w.current ∧
        (∀ r ∈ [.r12, .r13, .r14, .r15, .rbx, .rbp, .rsp], w₃.cpu.regs r = w.cpu.regs r) ∧
        w₃.cpu.rflags.bits = pushedFlags w.cpu.rflags oldRsp (w.rsp u) ||| interruptFlag ∧
        w₃.cpu.rip = ret) ∧
    (∀ (w : World ι) (t : ι) (spec : TaskSpec), (Event.spawn t spec).Allowed L w →
      ∃ w₁, w.spawn k (L.start t) t spec = some w₁ ∧ ∀ (w₂ : World ι) (oldRsp ret : Word),
        Transition.Reach (World.step k L.start) (· = w₁) (Elsewhere L t) w₂ →
        (Event.switchTo oldRsp ret t).Allowed L w₂ →
        ∃ w₃, w₂.switchTo oldRsp ret t = some w₃ ∧ w₃.current = t ∧ FirstRun k spec w₃.cpu) ∧
    ∀ (spec : TaskSpec) (stackStart : ℕ) (task : Task),
      Task.new spec.id spec.pml4Frame spec.privilege spec.parentId (some stackStart) = .ok task →
      ∀ x ∈ initialFrame k stackStart spec.privilege spec.entryPoint spec.userStackTop,
        task.stackStart ≤ x.1 ∧ x.1 + 8 ≤ task.stackEnd := by
  refine ⟨?_, ?_, ?_⟩
  · intro w w₁ w₂ oldRsp ret oldRsp' ret' u hallowed hswitch hreach hallowed'
    exact resume_after_switchTo hallowed hswitch hreach hallowed'
  · intro w t spec hallowed
    exact firstRun_after_spawn hallowed
  · intro spec stackStart task hnew
    cases hnew
    exact initialFrame_inside

/-- The boot stack and the stack of one task. -/
def sampleLayout : StackLayout Bool where
  start t := if t then 0x20000 else 0x10000
  stop t := if t then 0x30000 else 0x20000
  start_pos := by decide
  stop_lt := by decide
  disjoint := by decide

/-- The boot code, before any task exists. -/
def sampleWorld : World Bool where
  cpu := ⟨fun r => if r = .rsp then 0x18000 else 7, .ofWord 0, 0, 8, 16, fun _ => 0⟩
  current := false
  rsp _ := 0

/-- A task that is created and entered, runs with its stack pointer moved, and gives the processor
back. -/
theorem context_switch_preserves_sample :
    ∃ w₁ w₂ w₃ : World Bool,
      sampleWorld.spawn ⟨8, 16, 0x1000⟩ 0x20000 true ⟨1, 0x2000, 0, .kernelMode, 0, none⟩
        = some w₁ ∧
      w₁.switchTo 0x500 0x3000 true = some w₂ ∧ w₂.cpu.rip = 0x2000 ∧
      World.switchTo { w₂ with cpu := w₂.cpu.setReg .rsp 0x28000 } 0x600 0x4000 false = some w₃ ∧
      w₃.cpu.rip = 0x3000 ∧ w₃.cpu.regs .rsp = 0x18000 ∧ w₃.cpu.regs .rbx = 7 := by
  obtain ⟨hback, hfirst, -⟩ := context_switch_preserves ⟨8, 16, 0x1000⟩ sampleLayout
  obtain ⟨w₁, hspawn, hswitch⟩ :=
    hfirst sampleWorld true ⟨1, 0x2000, 0, .kernelMode, 0, none⟩ ⟨by decide, rfl⟩
  have hw₁ := hspawn
  rw [World.spawn_eq] at hw₁
  have hcurrent : w₁.current = false := by cases hw₁; rfl
  have hregs : w₁.cpu.regs = sampleWorld.cpu.regs := by cases hw₁; rfl
  have hallowed : (Event.switchTo 0x500 0x3000 true).Allowed sampleLayout w₁ := by
    refine ⟨by rw [hcurrent]; decide, ?_, by decide, by decide⟩
    unfold World.OnStack
    rw [hcurrent, hregs]
    decide
  obtain ⟨w₂, hw₂, hcurrent₂, hrip, -⟩ := hswitch w₁ 0x500 0x3000 (.start rfl) hallowed
  have hstart : Transition.Reach (World.step ⟨8, 16, 0x1000⟩ sampleLayout.start) (· = w₂)
      (Elsewhere sampleLayout w₁.current) w₂ := .start rfl
  have hown : Elsewhere sampleLayout w₁.current w₂ (.run (w₂.cpu.setReg .rsp 0x28000)) :=
    ⟨fun _ _ _ _ _ => rfl, trivial⟩
  have hrun := hstart.next hown rfl
  have hallowed₂ : (Event.switchTo 0x600 0x4000 w₁.current).Allowed sampleLayout
      { w₂ with cpu := w₂.cpu.setReg .rsp 0x28000 } := by
    refine ⟨by rw [hcurrent, hcurrent₂]; decide, ?_, by decide, by decide⟩
    unfold World.OnStack
    rw [hcurrent₂]
    change sampleLayout.start true + 64 ≤ (0x28000 : Word).toNat ∧
      (0x28000 : Word).toNat ≤ sampleLayout.stop true
    decide
  obtain ⟨w₃, hw₃, -, hsaved, -, hrip₃⟩ := hback w₁ w₂ _ 0x500 0x3000 0x600 0x4000 true hallowed hw₂
    hrun hallowed₂
  rw [hcurrent] at hw₃
  rw [hregs] at hsaved
  exact ⟨w₁, w₂, w₃, hspawn, hw₂, hrip, hw₃, hrip₃, hsaved .rsp (by decide),
    hsaved .rbx (by decide)⟩

end

end NwinOs.Tasking
