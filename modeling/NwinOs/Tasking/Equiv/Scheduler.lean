import NwinOs.Tasking.Scheduler
import NwinOs.Tasking.Equiv.TaskManager

/-!
# Coherence of the registers with the current task

In a consistent task manager `schedule` has two outcomes (`schedule_cases`): it keeps the current
task and at most repeats `KERNEL_RSP`, or it makes another registered task current, saves the
outgoing stack pointer where the outgoing task is resumed from, and loads everything of the new one.
`scheduler_coherent` carries this through every run of the task manager's operations, as long as no
task is spawned under the identifier of the current one.
-/

namespace NwinOs.Tasking

open TaskManager Std.ExtTreeMap Option

/-- The registers are those that a task needs while it runs. -/
structure Registers.Fits (regs : Registers) (task : Task) : Prop where
  cr3 : regs.cr3 = task.pml4Frame
  kernelRsp : regs.kernelRsp = task.stackEnd
  tssRsp0 : task.privilege = .userMode → regs.tssRsp0 = task.stackEnd

/-- Where the stack pointer of the current task is saved. -/
def RspSlot.ofCurrent : Option TaskId → RspSlot
  | some id => .task id
  | none => .bootRsp

namespace TaskManager

variable {tm : TaskManager} {id : TaskId} {slot : RspSlot} {rsp : ℕ}

/-- The registry after a stack pointer was saved. -/
def saveRsp (tm : TaskManager) (slot : RspSlot) (rsp : ℕ) : TaskManager :=
  match slot with
  | .bootRsp => tm
  | .task id =>
    { tm with taskRegistry := tm.taskRegistry.modify id fun task => { task with rsp := rsp } }

@[simp] theorem currentTask_saveRsp : (tm.saveRsp slot rsp).currentTask = tm.currentTask := by
  cases slot <;> rfl

@[simp] theorem taskStates_saveRsp : (tm.saveRsp slot rsp).taskStates = tm.taskStates := by
  cases slot <;> rfl

@[simp] theorem readyQueue_saveRsp : (tm.saveRsp slot rsp).readyQueue = tm.readyQueue := by
  cases slot <;> rfl

theorem mem_taskRegistry_saveRsp :
    id ∈ (tm.saveRsp slot rsp).taskRegistry ↔ id ∈ tm.taskRegistry := by
  cases slot with
  | bootRsp => rfl
  | task c => exact mem_modify

theorem getElem?_taskRegistry_saveRsp : (tm.saveRsp slot rsp).taskRegistry[id]? =
    (tm.taskRegistry[id]?).map fun task => if slot = .task id then { task with rsp := rsp }
      else task := by
  cases slot with
  | bootRsp => simp [saveRsp]
  | task c =>
    simp only [saveRsp, getElem?_modify, Nat.compare_eq_eq, RspSlot.task.injEq]
    by_cases hc : c = id
    · simp [hc]
    · simp [hc]

theorem Consistent.saveRsp (h : tm.Consistent) : (tm.saveRsp slot rsp).Consistent := by
  refine ⟨?_, ?_, ?_, ?_, ?_, ?_⟩
  · rw [readyQueue_saveRsp]
    exact h.queue_nodup
  · rw [readyQueue_saveRsp, taskStates_saveRsp]
    exact fun id hid => ⟨mem_taskRegistry_saveRsp.mpr (h.queue_ready id hid).1,
      (h.queue_ready id hid).2⟩
  · rw [readyQueue_saveRsp, taskStates_saveRsp, currentTask_saveRsp]
    exact h.ready_queued
  · intro id
    rw [taskStates_saveRsp, mem_taskRegistry_saveRsp]
    exact h.same_keys id
  · rw [taskStates_saveRsp, currentTask_saveRsp]
    exact fun id hid => ⟨mem_taskRegistry_saveRsp.mpr (h.current_live id hid).1,
      (h.current_live id hid).2⟩
  · rw [taskStates_saveRsp]
    exact h.not_running

end TaskManager

namespace Machine

variable {mc mc' : Machine} {id next : TaskId} {task : Task} {sw : Option Switch}

/-- The stack pointer that a slot holds. -/
def saved (mc : Machine) : RspSlot → Option ℕ
  | .bootRsp => some mc.regs.bootRsp
  | .task id => (mc.tm.taskRegistry[id]?).map (·.rsp)

/-- The current task is registered with the registers it needs. -/
def Coherent (mc : Machine) : Prop :=
  ∀ id task, mc.tm.currentTask = some id → mc.tm.taskRegistry[id]? = some task → mc.regs.Fits task

/-- Every registered task has a stack pointer to be resumed from. -/
def Resumable (mc : Machine) : Prop :=
  ∀ (id : TaskId) (task : Task), mc.tm.taskRegistry[id]? = some task → task.rsp ≠ 0

theorem Coherent.setRsp (h : mc.Coherent) (rsp : ℕ) :
    (Machine.mk mc.tm { mc.regs with rsp := rsp }).Coherent := by
  intro id task hid htask
  have hfits := h id task hid htask
  exact ⟨hfits.cr3, hfits.kernelRsp, hfits.tssRsp0⟩

/-- What a call of `schedule` should do. -/
structure Scheduled (mc mc' : Machine) (sw : Option Switch) : Prop where
  /-- The current task changes iff a switch is made. -/
  changed_iff : mc'.tm.currentTask ≠ mc.tm.currentTask ↔ sw.isSome
  /-- A switch saves the outgoing stack pointer and loads the new current task's, with the registers
  of that task. -/
  switched : ∀ s, sw = some s → ∃ id task, mc'.tm.currentTask = some id ∧
    mc.tm.taskRegistry[id]? = some task ∧ s.newRsp = task.rsp ∧ mc'.regs.rsp = task.rsp ∧
    s.oldRspPtr = .ofCurrent mc.tm.currentTask ∧ mc'.saved s.oldRspPtr = some mc.regs.rsp ∧
    mc'.regs.Fits task
  /-- Without a switch the registers are those of the current task. -/
  kept : sw = none → mc'.Coherent

/-! ### The outcomes -/

theorem selectNext_cases (h : mc.tm.Consistent) :
    (mc.selectNext = (⟨mc.tm.schedule, mc.regs⟩, none) ∧
      mc.tm.schedule.currentTask = mc.tm.currentTask) ∨
    ∃ next task, mc.tm.schedule.currentTask = some next ∧ mc.tm.currentTask ≠ some next ∧
      mc.tm.taskRegistry[next]? = some task ∧
      mc.selectNext = (⟨mc.tm.schedule, if task.privilege = .userMode then
          { mc.regs with tssRsp0 := task.stackEnd } else mc.regs⟩,
        some ⟨task.pml4Frame, .ofCurrent mc.tm.currentTask, task.rsp⟩) := by
  have hreg : ∀ id, id ∈ mc.tm.requeueCurrent.readyQueue → id ∈ mc.tm.taskRegistry := by
    intro id hid
    rw [h.mem_readyQueue_requeueCurrent] at hid
    exact h.isSome_iff.mp (by rw [hid]; rfl)
  unfold selectNext TaskManager.schedule TaskManager.fetchNextTask
  rcases hq : mc.tm.requeueCurrent.readyQueue with - | ⟨next, rest⟩
  · exact .inl ⟨rfl, currentTask_requeueCurrent⟩
  · dsimp only
    by_cases hne : some next ≠ mc.tm.currentTask
    · right
      have hnext : next ∈ mc.tm.taskRegistry := hreg next (by rw [hq]; exact List.mem_cons_self ..)
      obtain ⟨task, htask⟩ := isSome_iff_exists.mp (mem_iff_isSome_getElem?.mp hnext)
      have htask' : mc.tm.requeueCurrent.taskRegistry[next]? = some task := by
        rw [taskRegistry_requeueCurrent]
        exact htask
      refine ⟨next, task, ?_, Ne.symm hne, htask, ?_⟩
      · rw [if_pos hne]
      · rw [if_pos hne, if_pos hne]
        cases hcur : mc.tm.currentTask with
        | none => simp only [prepareSwitch, htask', RspSlot.ofCurrent]
        | some c =>
          have hc : c ∈ mc.tm.requeueCurrent.taskRegistry := by
            rw [taskRegistry_requeueCurrent]
            exact (h.current_live c hcur).1
          simp only [hc, if_true, prepareSwitch, htask', RspSlot.ofCurrent]
    · left
      rw [if_neg hne, if_neg hne]
      exact ⟨rfl, currentTask_requeueCurrent⟩

theorem contextSwitch_eq {slot : RspSlot} {newRsp : ℕ} (h : newRsp ≠ 0) :
    mc.contextSwitch slot newRsp = some ⟨mc.tm.saveRsp slot mc.regs.rsp,
      { mc.regs with
        rsp := newRsp
        bootRsp := if slot = .bootRsp then mc.regs.rsp else mc.regs.bootRsp }⟩ := by
  unfold contextSwitch
  rw [if_neg h]
  cases slot <;> rfl

theorem updateKernelRsp_of_current (hid : mc.tm.currentTask = some id)
    (htask : mc.tm.taskRegistry[id]? = some task) :
    mc.updateKernelRsp = ⟨mc.tm, { mc.regs with kernelRsp := task.stackEnd }⟩ := by
  simp only [updateKernelRsp, hid, htask]

theorem loadCr3_eq (pml4 : ℕ) : mc.loadCr3 pml4 = ⟨mc.tm, { mc.regs with cr3 := pml4 }⟩ := by
  unfold loadCr3
  split_ifs with h
  · rfl
  · rw [not_not] at h
    rw [← h]

/-- The registers after a switch to `task` from the slot of the outgoing stack pointer. -/
def switchedRegs (regs : Registers) (slot : RspSlot) (task : Task) : Registers where
  rsp := task.rsp
  cr3 := task.pml4Frame
  kernelRsp := task.stackEnd
  tssRsp0 := if task.privilege = .userMode then task.stackEnd else regs.tssRsp0
  bootRsp := if slot = .bootRsp then regs.rsp else regs.bootRsp

/-- **The two outcomes of `schedule`** in a consistent task manager. -/
theorem schedule_cases (h : mc.tm.Consistent) (hrsp : mc.Resumable) :
    (mc.schedule = some (updateKernelRsp ⟨mc.tm.schedule, mc.regs⟩, none) ∧
      mc.tm.schedule.currentTask = mc.tm.currentTask) ∨
    ∃ next task, mc.tm.schedule.currentTask = some next ∧ mc.tm.currentTask ≠ some next ∧
      mc.tm.taskRegistry[next]? = some task ∧
      mc.schedule = some (⟨mc.tm.schedule.saveRsp (.ofCurrent mc.tm.currentTask) mc.regs.rsp,
          switchedRegs mc.regs (.ofCurrent mc.tm.currentTask) task⟩,
        some ⟨task.pml4Frame, .ofCurrent mc.tm.currentTask, task.rsp⟩) := by
  unfold schedule
  rcases selectNext_cases h with ⟨hsel, hcur⟩ | ⟨next, task, hnext, hne, htask, hsel⟩
  · left
    rw [hsel]
    exact ⟨rfl, hcur⟩
  · right
    refine ⟨next, task, hnext, hne, htask, ?_⟩
    have htask' : mc.tm.schedule.taskRegistry[next]? = some task := by
      rw [taskRegistry_schedule]
      exact htask
    rw [hsel]
    dsimp only
    rw [@updateKernelRsp_of_current ⟨mc.tm.schedule, _⟩ next task hnext htask', loadCr3_eq,
      contextSwitch_eq (hrsp next task htask), map_some]
    unfold switchedRegs
    by_cases huser : task.privilege = .userMode
    · simp only [huser, if_true]
    · simp only [huser, if_false]

@[simp] theorem tm_updateKernelRsp : mc.updateKernelRsp.tm = mc.tm := by
  unfold updateKernelRsp
  split
  · split <;> rfl
  · rfl

theorem fits_switchedRegs (regs : Registers) (slot : RspSlot) (task : Task) :
    (switchedRegs regs slot task).Fits task :=
  ⟨rfl, rfl, fun huser => if_pos huser⟩

theorem Coherent.updateKernelRsp (h : mc.Coherent)
    (hcur : mc.tm.schedule.currentTask = mc.tm.currentTask) :
    (Machine.updateKernelRsp ⟨mc.tm.schedule, mc.regs⟩).Coherent := by
  intro id task hid htask
  rw [tm_updateKernelRsp] at hid htask
  have hfits : mc.regs.Fits task := by
    refine h id task (hcur ▸ hid) ?_
    rw [← taskRegistry_schedule]
    exact htask
  rw [@updateKernelRsp_of_current ⟨mc.tm.schedule, mc.regs⟩ id task hid htask]
  exact ⟨hfits.cr3, rfl, hfits.tssRsp0⟩

theorem saved_switched (h : mc.tm.Consistent) {regs : Registers}
    (hboot : mc.tm.currentTask = none → regs.bootRsp = mc.regs.rsp) :
    (Machine.mk (mc.tm.schedule.saveRsp (.ofCurrent mc.tm.currentTask) mc.regs.rsp) regs).saved
      (.ofCurrent mc.tm.currentTask) = some mc.regs.rsp := by
  cases hcur : mc.tm.currentTask with
  | none => exact congrArg some (hboot hcur)
  | some c =>
    obtain ⟨task, htask⟩ := isSome_iff_exists.mp
      (mem_iff_isSome_getElem?.mp (h.current_live c hcur).1)
    simp only [saved, RspSlot.ofCurrent, getElem?_taskRegistry_saveRsp,
      taskRegistry_schedule, htask, map_some, if_true]

/-- **A call of `schedule` on coherent registers does what it should.** -/
theorem scheduled (h : mc.tm.Consistent) (hrsp : mc.Resumable) (hcoh : mc.Coherent) :
    ∃ mc' sw, mc.schedule = some (mc', sw) ∧ Scheduled mc mc' sw := by
  rcases schedule_cases h hrsp with ⟨hsched, hcur⟩ | ⟨next, task, hnext, hne, htask, hsched⟩
  · refine ⟨_, none, hsched, ?_, fun s hs => (nomatch hs), fun _ => hcoh.updateKernelRsp hcur⟩
    simp [hcur]
  · refine ⟨_, _, hsched, ?_, ?_, fun hs => (nomatch hs)⟩
    · simp only [currentTask_saveRsp, hnext, isSome_some, iff_true]
      exact Ne.symm hne
    · rintro s ⟨⟩
      refine ⟨next, task, ?_, htask, rfl, rfl, rfl, saved_switched h fun hcur => ?_,
        fits_switchedRegs _ _ _⟩
      · rw [currentTask_saveRsp]
        exact hnext
      · rw [hcur]
        rfl

theorem getElem?_switched (hne : mc.tm.currentTask ≠ some next) (rsp : ℕ) :
    (mc.tm.schedule.saveRsp (.ofCurrent mc.tm.currentTask) rsp).taskRegistry[next]? =
      mc.tm.taskRegistry[next]? := by
  -- it is another task than the one whose stack pointer is saved
  have hslot : RspSlot.ofCurrent mc.tm.currentTask ≠ .task next := by
    cases hcur : mc.tm.currentTask with
    | none => exact fun h => nomatch h
    | some c =>
      intro heq
      cases heq
      exact hne hcur
  rw [getElem?_taskRegistry_saveRsp, taskRegistry_schedule]
  simp only [hslot, if_false, map_id']

/-- The task manager stays consistent, and every task resumable, through a call with a stack
pointer. -/
theorem Resumable.schedule (hrsp : mc.Resumable) (h : mc.tm.Consistent) (hout : mc.regs.rsp ≠ 0)
    (hs : mc.schedule = some (mc', sw)) : mc'.tm.Consistent ∧ mc'.Resumable := by
  rcases schedule_cases h hrsp with ⟨hsched, -⟩ | ⟨next, task, -, -, -, hsched⟩
  · rw [hsched] at hs
    cases hs
    rw [tm_updateKernelRsp]
    refine ⟨h.schedule, fun id task htask => ?_⟩
    rw [tm_updateKernelRsp, taskRegistry_schedule] at htask
    exact hrsp id task htask
  · rw [hsched] at hs
    cases hs
    refine ⟨h.schedule.saveRsp, fun id task' htask' => ?_⟩
    rw [getElem?_taskRegistry_saveRsp, taskRegistry_schedule] at htask'
    obtain ⟨t, ht, rfl⟩ := map_eq_some_iff.mp htask'
    split_ifs
    · exact hout
    · exact hrsp id t ht

/-- The registers stay coherent. -/
theorem Coherent.schedule (hcoh : mc.Coherent) (h : mc.tm.Consistent) (hrsp : mc.Resumable)
    (hs : mc.schedule = some (mc', sw)) : mc'.Coherent := by
  rcases schedule_cases h hrsp with ⟨hsched, hcur⟩ | ⟨next, task, hnext, hne, htask, hsched⟩
  · rw [hsched] at hs
    cases hs
    exact hcoh.updateKernelRsp hcur
  · rw [hsched] at hs
    cases hs
    intro id task' hid htask'
    rw [currentTask_saveRsp, hnext] at hid
    cases hid
    rw [getElem?_switched hne, htask] at htask'
    cases htask'
    exact fits_switchedRegs _ _ _

end Machine

/-! ### Runs -/

/-- The call draws an identifier. -/
def TaskOp.spawns : TaskOp → Bool
  | .spawn .. => true
  | .spawnDynamic .. => true
  | _ => false

variable {privilege : PrivilegeLevel} {stack : Option ℕ} {pml4Frame : ℕ} {task : Task}

theorem Task.rsp_new {id : TaskId} {parentId : Option TaskId}
    (h : Task.new id pml4Frame privilege parentId stack = .ok task) : task.id = id ∧
    task.rsp ≠ 0 := by
  cases stack with
  | none => cases h
  | some stackStart =>
    cases h
    refine ⟨rfl, ?_⟩
    cases privilege <;> simp only [STACK_SIZE, CONTEXT_SIZE] <;> omega

theorem TaskManager.getElem?_taskRegistry_spawnTask {tm : TaskManager} {id j : TaskId}
    (h : (tm.spawnTask id pml4Frame privilege stack).1.taskRegistry[j]? = some task) :
    tm.taskRegistry[j]? = some task ∨ (j = id ∧ task.rsp ≠ 0) := by
  unfold TaskManager.spawnTask at h
  split at h
  · exact .inl h
  · rename_i task' hnew
    rw [taskRegistry_setTaskState, getElem?_insert] at h
    split_ifs at h with hj
    · cases h
      obtain ⟨hid, hrsp⟩ := Task.rsp_new hnew
      exact .inr ⟨hj.symm.trans hid, hrsp⟩
    · exact .inl h

namespace TaskSystem

/-- **What a call does to the current task and the registry**: the current task stays or goes, and a
registered task is an old one or the one just spawned. -/
theorem step_registry {s s' : TaskSystem} {op : TaskOp} {u : Unit} (hop : op ≠ .schedule)
    (h : s.step op = some (s', u)) :
    (s'.tm.currentTask = s.tm.currentTask ∨ s'.tm.currentTask = none) ∧
    ∀ (j : TaskId) (task : Task), s'.tm.taskRegistry[j]? = some task →
      s.tm.taskRegistry[j]? = some task ∨ (op.spawns = true ∧ j = s.nextId ∧ task.rsp ≠ 0) := by
  cases op with
  | spawn _ _ _ | spawnDynamic _ _ =>
    cases h
    refine ⟨.inl currentTask_spawnTask, fun j task htask => ?_⟩
    exact (getElem?_taskRegistry_spawnTask htask).imp_right fun h => ⟨rfl, h⟩
  | schedule => exact absurd rfl hop
  | waitForChild childId =>
    cases h
    rcases s.tm.waitForChild_eq childId with hblock | hsame
    · simp only [hblock, currentTask_blockCurrentTask, taskRegistry_blockCurrentTask]
      exact ⟨.inl trivial, fun _ _ => .inl⟩
    · simp only [hsame]
      exact ⟨.inl trivial, fun _ _ => .inl⟩
  | blockCurrentTask =>
    cases h
    simp only [currentTask_blockCurrentTask, taskRegistry_blockCurrentTask]
    exact ⟨.inl trivial, fun _ _ => .inl⟩
  | unblockTask id =>
    cases h
    exact ⟨.inl currentTask_unblockTask, fun j task htask =>
      .inl (taskRegistry_unblockTask ▸ htask)⟩
  | exitCurrentTask =>
    cases h
    simp only [currentTask_exitCurrentTask, taskRegistry_exitCurrentTask]
    exact ⟨.inr trivial, fun _ _ => .inl⟩
  | kill id =>
    rw [step] at h
    split_ifs at h with hdead
    cases h
    refine ⟨.inl (currentTask_kill), fun j task htask => .inl ?_⟩
    rw [getElem?_taskRegistry_kill] at htask
    split_ifs at htask
    exact htask

end TaskSystem

/-- The machine and the counter of identifiers. -/
structure SchedulerSystem where
  machine : Machine
  nextId : ℕ

/-- A call into the task manager, or of the scheduler with the stack pointer of the running code. -/
inductive SchedulerOp
  | call (op : TaskOp)
  | schedule (rsp : ℕ)
  deriving DecidableEq, Repr

namespace SchedulerSystem

/-- Before the first task, with whatever the registers hold. -/
def boot (regs : Registers) : SchedulerSystem := ⟨⟨.empty, regs⟩, 1⟩

section

variable (s : SchedulerSystem)

/-- The part without registers. -/
def taskSystem : TaskSystem := ⟨s.machine.tm, s.nextId⟩

/-- One call; the output is the switch that was made.  A stack pointer is not null. -/
def step : SchedulerOp → Option (SchedulerSystem × Option Switch)
  | .call op =>
    if op = .schedule then none
    else (s.taskSystem.step op).map fun r => (⟨⟨r.1.tm, s.machine.regs⟩, r.1.nextId⟩, none)
  | .schedule rsp =>
    if rsp = 0 then none
    else (Machine.schedule ⟨s.machine.tm, { s.machine.regs with rsp := rsp }⟩).map fun r =>
      (⟨r.1, s.nextId⟩, r.2)

/-- No task is spawned under the identifier of the current one. -/
def KeepsCurrent : SchedulerOp → Prop
  | .call op => op.spawns = true → s.machine.tm.currentTask ≠ some s.nextId
  | .schedule _ => True

end

instance (s : SchedulerSystem) (op : SchedulerOp) : Decidable (s.KeepsCurrent op) :=
  match op with
  | .call op => inferInstanceAs (Decidable (op.spawns = true → _))
  | .schedule _ => inferInstanceAs (Decidable True)

/-- What holds between any two calls. -/
structure Inv (s : SchedulerSystem) : Prop where
  consistent : s.machine.tm.Consistent
  resumable : s.machine.Resumable
  coherent : s.machine.Coherent

variable {s s' : SchedulerSystem} {op : SchedulerOp} {sw : Option Switch}

theorem inv_boot (regs : Registers) : (boot regs).Inv where
  consistent := consistent_empty
  resumable id task h := by simp [boot, TaskManager.empty] at h
  coherent id task h := by simp [boot, TaskManager.empty] at h

theorem Inv.call (h : s.Inv) {op : TaskOp} (hkeeps : s.KeepsCurrent (.call op))
    (hs : s.step (.call op) = some (s', sw)) : s'.Inv := by
  rw [step] at hs
  split_ifs at hs with hop
  obtain ⟨⟨ts, u⟩, hts, heq⟩ := map_eq_some_iff.mp hs
  cases heq
  obtain ⟨hcur, hreg⟩ := TaskSystem.step_registry hop hts
  refine ⟨TaskSystem.consistent_step h.consistent hts, fun id task htask => ?_,
    fun id task hid htask => ?_⟩
  · rcases hreg id task htask with hold | ⟨-, -, hrsp⟩
    · exact h.resumable id task hold
    · exact hrsp
  · -- the current task is the old one, and not the one just spawned
    rcases hcur with hcur | hcur
    · have hid' : s.machine.tm.currentTask = some id := hcur.symm.trans hid
      rcases hreg id task htask with hold | ⟨hspawns, rfl, -⟩
      · exact h.coherent id task hid' hold
      · exact absurd hid' (hkeeps hspawns)
    · rw [hcur] at hid
      cases hid

theorem Inv.step (h : s.Inv) (hkeeps : s.KeepsCurrent op) (hs : s.step op = some (s', sw)) :
    s'.Inv := by
  cases op with
  | call op => exact h.call hkeeps hs
  | schedule rsp =>
    rw [SchedulerSystem.step] at hs
    split_ifs at hs with hrsp
    obtain ⟨⟨mc, sw'⟩, hsched, heq⟩ := map_eq_some_iff.mp hs
    cases heq
    obtain ⟨hc, hr⟩ := @Machine.Resumable.schedule
      ⟨s.machine.tm, { s.machine.regs with rsp := rsp }⟩ _ _ h.resumable h.consistent hrsp hsched
    exact ⟨hc, hr, (h.coherent.setRsp rsp).schedule h.consistent h.resumable hsched⟩

/-- **Coherence of the scheduler**: in every state reached by calls none of which spawns a task
under the identifier of the current one, a call of `schedule` does what it should. -/
theorem scheduler_coherent {regs : Registers}
    (hreach : Transition.Reach step (· = boot regs) KeepsCurrent s) {rsp : ℕ} (hrsp : rsp ≠ 0) :
    ∃ s' sw, s.step (.schedule rsp) = some (s', sw) ∧
      Machine.Scheduled ⟨s.machine.tm, { s.machine.regs with rsp := rsp }⟩ s'.machine sw := by
  have hinv : s.Inv := hreach.invariant (fun s hs => hs ▸ inv_boot regs)
    fun _ _ _ _ h hkeeps hs => h.step hkeeps hs
  obtain ⟨mc', sw, hsched, hdone⟩ := @Machine.scheduled
    ⟨s.machine.tm, { s.machine.regs with rsp := rsp }⟩ hinv.consistent hinv.resumable
    (hinv.coherent.setRsp rsp)
  refine ⟨⟨mc', s.nextId⟩, sw, ?_, hdone⟩
  rw [step, if_neg hrsp, hsched]
  rfl

/-- A kernel task runs, and a user task is spawned and switched to. -/
theorem scheduler_coherent_two_tasks : ∃ s s' sw,
    Transition.run (Transition.restrict KeepsCurrent step) (boot ⟨8, 0, 0, 0, 0⟩)
      [.call (.spawn 3 .kernelMode (some 0x10000)), .schedule 16,
        .call (.spawnDynamic 4 (some 0x20000))]
          = some (s, [none, some ⟨3, .bootRsp, 131000⟩, none]) ∧
    s.step (.schedule 24) = some (s', sw) ∧
    Machine.Scheduled ⟨s.machine.tm, { s.machine.regs with rsp := 24 }⟩ s'.machine sw := by
  obtain ⟨⟨s, outs⟩, hrun, rfl⟩ :
      ∃ r ∈ Transition.run (Transition.restrict KeepsCurrent step) (boot ⟨8, 0, 0, 0, 0⟩)
        [.call (.spawn 3 .kernelMode (some 0x10000)), .schedule 16,
          .call (.spawnDynamic 4 (some 0x20000))],
      r.2 = [none, some ⟨3, .bootRsp, 131000⟩, none] := by decide
  have hreach : Transition.Reach step (· = boot ⟨8, 0, 0, 0, 0⟩) KeepsCurrent s :=
    Transition.Reach.of_run_restrict (.start (by rfl)) hrun
  obtain ⟨s', sw, hstep, hdone⟩ := scheduler_coherent hreach (show 24 ≠ 0 by decide)
  exact ⟨s, s', sw, hrun, hstep, hdone⟩

theorem reach_failed_spawns {regs : Registers}
    (h : Transition.Reach step (· = boot regs) Transition.anyAction s) (hlt : s.nextId < 2 ^ 64) :
    ∀ n, Transition.Reach step (· = boot regs) Transition.anyAction
      { s with nextId := (s.nextId + n) % 2 ^ 64 } := by
  intro n
  induction n with
  | zero =>
    rw [Nat.add_zero, Nat.mod_eq_of_lt hlt]
    exact h
  | succ n ih =>
    have hnext : (s.nextId + (n + 1)) % 2 ^ 64 = ((s.nextId + n) % 2 ^ 64 + 1) % 2 ^ 64 := by omega
    rw [hnext]
    exact ih.next trivial
      (show step _ (.call (.spawn 0 .kernelMode none)) = some (_, none) from rfl)

/-- After `2^64` spawns an identifier is drawn again: the running task 1 loses its registry entry to
a new task with another page table, and `schedule` keeps running it with the registers of the old
one. -/
theorem scheduler_incoherent_after_wrap : ∃ s s' sw,
    Transition.Reach step (· = boot ⟨8, 0, 0, 0, 0⟩) Transition.anyAction s ∧
    s.step (.schedule 16) = some (s', sw) ∧
    ¬ Machine.Scheduled ⟨s.machine.tm, { s.machine.regs with rsp := 16 }⟩ s'.machine sw := by
  -- task 1 runs with page table 3, and its registry entry ends up with page table 4
  obtain ⟨⟨s₁, outs⟩, hrun₁, hid, ⟨s₄, outs'⟩, hrun₂, hcr3, hcur, ⟨task, htask, hframe⟩, houts⟩ :
      ∃ r ∈ Transition.run step (boot ⟨8, 0, 0, 0, 0⟩)
        [.call (.spawn 3 .kernelMode (some 0x10000)), .schedule 16], r.1.nextId = 2 ∧
      ∃ q ∈ Transition.run step { r.1 with nextId := (r.1.nextId + (2 ^ 64 - 1)) % 2 ^ 64 }
        [.call (.spawn 4 .kernelMode (some 0x20000)), .schedule 16], q.1.machine.regs.cr3 = 3 ∧
      q.1.machine.tm.currentTask = some 1 ∧
      (∃ task ∈ q.1.machine.tm.taskRegistry[1]?, task.pml4Frame = 4) ∧ q.2 = [none, none] := by
    decide
  have hreach₁ : Transition.Reach step (· = boot ⟨8, 0, 0, 0, 0⟩) Transition.anyAction s₁ :=
    Transition.Reach.of_run (.start (by rfl)) hrun₁
  have hreach₂ := reach_failed_spawns hreach₁ (by rw [hid]; decide) (2 ^ 64 - 1)
  obtain ⟨s₃, _, _, hstep₃, hrun₃, heq₃⟩ := Transition.run_cons_eq_some.mp hrun₂
  obtain ⟨s₄', _, _, hstep₄, hnil, heq₄⟩ := Transition.run_cons_eq_some.mp hrun₃
  cases hnil
  rw [heq₃, heq₄] at houts
  cases houts
  refine ⟨s₃, s₄, none, hreach₂.next trivial hstep₃, hstep₄, fun hdone => ?_⟩
  have hfits := hdone.kept rfl 1 task hcur htask
  rw [← hfits.cr3, hcr3] at hframe
  exact absurd hframe (by decide)

end SchedulerSystem

end NwinOs.Tasking
