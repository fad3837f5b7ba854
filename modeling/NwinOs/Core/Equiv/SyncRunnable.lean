import NwinOs.Core.Equiv.Sync

/-!
# Returning from a blocking call

`enable_and_hlt` returns on every interrupt, not only on the timer tick that follows a wake-up, so
the code after it can run in a task that is still recorded as blocked.  In `Semaphore::wait` that
does no harm: nothing has run since the counter was found at zero, and the task enqueues itself
again.  In `CondVar::wait` the mutex may be free, and the call returns.

* `Scheduled` collects what holds in every run: the reaper is ready, the current task is the one
  that executes, and only that task is halted or has interrupts masked.
* `returns_runnable`: in every run in which no keyboard interrupt arrives while the running task is
  halted in `CondVar::wait` and still blocked, a task that returns from a blocking call is not
  recorded as blocked.  `condVar_wait_returns_blocked` is a run in which it is.
-/

namespace NwinOs.Core

open Tasking TaskManager Option

namespace Pc

/-- Inside `enable_and_hlt`. -/
def halted : Pc → Bool
  | .waitHalted _ | .condHalted _ _ => true
  | _ => false

/-- Inside the `enable_and_hlt` of `CondVar::wait`. -/
def inCondHalt : Pc → Bool
  | .condHalted _ _ => true
  | _ => false

/-- Inside one of the three blocking calls and without its permit. -/
def inBlockingCall : Pc → Bool
  | .idle | .exited | .returning _ | .signalAdd _ | .signalPop _ => false
  | _ => true

/-- The point is one of the running task only: interrupts are masked or the CPU is halted. -/
def exclusive (pc : Pc) : Bool := !pc.interruptsEnabled || pc.halted

theorem exclusive_interrupted {pc : Pc} (h : pc.interruptsEnabled = true) :
    pc.interrupted.exclusive = false := by
  cases pc <;> first | rfl | cases h

end Pc

namespace SyncSystem

variable {s s' : SyncSystem} {ev : SyncEvent} {id j : TaskId} {k : SemId} {pc : Pc}

/-! ### Facts about every run -/

/-- What holds in every run from `init_multitasking`. -/
structure Scheduled (s : SyncSystem) : Prop where
  consistent : s.tm.Consistent
  reaper_ready : s.tm.taskStates[Wait4System.REAPER]? = some .ready
  reaper_idle : s.pc Wait4System.REAPER = .idle
  current_cpu : ∀ id, s.tm.currentTask = some id → s.cpu = some id
  reaper_current : s.cpu = some Wait4System.REAPER →
    s.tm.currentTask = some Wait4System.REAPER
  exclusive_cpu : ∀ id, (s.pc id).exclusive = true → s.cpu = some id

theorem scheduled_initial (kernelPml4 targetPml4 stack₁ stack₂ : ℕ) (initialCount : ℕ → ℕ) :
    (initial kernelPml4 targetPml4 stack₁ stack₂ initialCount).Scheduled := by
  have hboot := Wait4System.Booted.initMultitasking kernelPml4 targetPml4 stack₁ stack₂
  refine ⟨hboot.consistent, hboot.reaper_ready, rfl, fun id hid => ?_,
    fun hr => (by cases hr), fun id hid => ?_⟩
  · cases hid
  · cases hid

variable (h : s.Scheduled)
include h

/-- The current task is the one that executes. -/
theorem Scheduled.current_eq (hc : s.tm.currentTask = some j) (hid : s.cpu = some id) : j = id :=
  some.inj ((h.current_cpu j hc).symm.trans hid)

theorem Scheduled.ne_reaper (hid : s.pc id ≠ .idle) :
    id ≠ Wait4System.REAPER := fun he => hid (he ▸ h.reaper_idle)

theorem Scheduled.setPc (hcpu : s.cpu = some id)
    (hid : id ≠ Wait4System.REAPER) : (s.setPc id pc).Scheduled := by
  refine ⟨h.consistent, h.reaper_ready, ?_, h.current_cpu, h.reaper_current, fun j hj => ?_⟩
  · rw [pc_setPc_of_ne hid.symm]
    exact h.reaper_idle
  · rw [pc_setPc] at hj
    split_ifs at hj with hji
    · exact hji ▸ hcpu
    · exact h.exclusive_cpu j hj

theorem Scheduled.setTm (hpc : s'.pc = s.pc) (hcpu : s'.cpu = s.cpu) (hcons : s'.tm.Consistent)
    (hready : s'.tm.taskStates[Wait4System.REAPER]? = some .ready)
    (hcur : s'.tm.currentTask = s.tm.currentTask) : s'.Scheduled where
  consistent := hcons
  reaper_ready := hready
  reaper_idle := hpc ▸ h.reaper_idle
  current_cpu id hid := hcpu ▸ h.current_cpu id (hcur ▸ hid)
  reaper_current hr := hcur ▸ h.reaper_current (hcpu ▸ hr)
  exclusive_cpu id hid := hcpu ▸ h.exclusive_cpu id (hpc ▸ hid)

/-- The death of the current task, which is not the reaper. -/
theorem Scheduled.exitCurrentTask (hpc : s'.pc = s.pc) (hcpu : s'.cpu = s.cpu)
    (htm : s'.tm = s.tm.exitCurrentTask)
    (hreaper : s.tm.currentTask ≠ some Wait4System.REAPER) : s'.Scheduled := by
  cases hc : s.tm.currentTask with
  | none =>
    have hsame : s'.tm = s.tm := by
      rw [htm]
      unfold TaskManager.exitCurrentTask
      rw [hc]
    exact h.setTm hpc hcpu (hsame ▸ h.consistent) (hsame ▸ h.reaper_ready) (by rw [hsame])
  | some c =>
    refine ⟨htm ▸ h.consistent.exitCurrentTask, ?_, hpc ▸ h.reaper_idle, ?_, ?_, ?_⟩
    · rw [htm, taskStates_exitCurrentTask, if_neg hreaper]
      exact h.reaper_ready
    · intro id hid
      rw [htm, currentTask_exitCurrentTask] at hid
      cases hid
    · intro hr
      exact absurd (h.reaper_current (hcpu ▸ hr)) hreaper
    · intro id hid
      exact hcpu ▸ h.exclusive_cpu id (hpc ▸ hid)

theorem Scheduled.unblockTask (hpc : s'.pc = s.pc) (hcpu : s'.cpu = s.cpu)
    (htm : s'.tm = s.tm.unblockTask id) : s'.Scheduled := by
  refine h.setTm hpc hcpu ?_ ?_ ?_
  · rw [htm]
    exact h.consistent.unblockTask id
  · rw [htm]
    exact taskStates_unblockTask_of_awake h.reaper_ready (by decide)
  · rw [htm, currentTask_unblockTask]

theorem Scheduled.popAndUnblock : (s.popAndUnblock k).Scheduled := by
  unfold SyncSystem.popAndUnblock
  split
  · exact h.unblockTask rfl rfl rfl
  · exact h

/-- Blocking the current task, which is not the reaper. -/
theorem Scheduled.blockCurrentTask (hpc : s'.pc = s.pc) (hcpu : s'.cpu = s.cpu)
    (htm : s'.tm = s.tm.blockCurrentTask) (hid : s.cpu = some id)
    (hreaper : id ≠ Wait4System.REAPER) : s'.Scheduled := by
  refine h.setTm hpc hcpu (htm ▸ h.consistent.blockCurrentTask) ?_ ?_
  · have hne : s.tm.currentTask ≠ some Wait4System.REAPER := fun hc =>
      hreaper (h.current_eq hc hid).symm
    rw [htm, taskStates_blockCurrentTask, if_neg hne]
    exact h.reaper_ready
  · rw [htm, currentTask_blockCurrentTask]

omit h

theorem enqueueOnSemaphore_fields : (s.enqueueOnSemaphore k).tm = s.tm.blockCurrentTask ∧
    (s.enqueueOnSemaphore k).cpu = s.cpu := by
  unfold enqueueOnSemaphore
  cases hc : s.tm.currentTask with
  | none => exact ⟨by unfold blockCurrentTask; rw [hc], rfl⟩
  | some c => exact ⟨rfl, rfl⟩

theorem enqueueOnCondVar_fields (cv : ℕ) : (s.enqueueOnCondVar cv).tm = s.tm.blockCurrentTask ∧
    (s.enqueueOnCondVar cv).cpu = s.cpu ∧ (s.enqueueOnCondVar cv).pc = s.pc ∧
    (s.enqueueOnCondVar cv).semaphores = s.semaphores := by
  unfold enqueueOnCondVar
  cases hc : s.tm.currentTask with
  | none => exact ⟨by unfold blockCurrentTask; rw [hc], rfl, rfl, rfl⟩
  | some c => exact ⟨rfl, rfl, rfl, rfl⟩

theorem Scheduled.congr (h : s.Scheduled) (htm : s'.tm = s.tm) (hpc : s'.pc = s.pc)
    (hcpu : s'.cpu = s.cpu) : s'.Scheduled :=
  h.setTm hpc hcpu (htm ▸ h.consistent) (htm ▸ h.reaper_ready) (by rw [htm])

@[simp] theorem tm_giveGuard : (s.giveGuard id k).tm = s.tm := by
  cases k <;> rfl

@[simp] theorem cpu_giveGuard : (s.giveGuard id k).cpu = s.cpu := by
  cases k <;> rfl

@[simp] theorem tm_takeGuard : (s.takeGuard id k).tm = s.tm := by
  cases k <;> rfl

@[simp] theorem cpu_takeGuard : (s.takeGuard id k).cpu = s.cpu := by
  cases k <;> rfl

@[simp] theorem cpu_popAndUnblock : (s.popAndUnblock k).cpu = s.cpu := by
  unfold popAndUnblock
  split <;> rfl

/-- The exchange of a `wait` is a step of the running task. -/
theorem Scheduled.tryAcquire (h : s.Scheduled) (hcpu : s.cpu = some id)
    (hid : id ≠ Wait4System.REAPER) (c : Call) (current : ℕ) (won lost : Pc) :
    (s.tryAcquire id c current won lost).1.Scheduled := by
  unfold SyncSystem.tryAcquire
  split
  · rename_i sem _
    have hsame : ((s.setSemaphore c.semaphore sem).giveGuard id c.semaphore).Scheduled :=
      h.congr tm_giveGuard pc_giveGuard cpu_giveGuard
    exact hsame.setPc (cpu_giveGuard.trans hcpu) hid
  · exact h.setPc hcpu hid

theorem Scheduled.fetchAdd (h : s.Scheduled) (hcpu : s.cpu = some id)
    (hid : id ≠ Wait4System.REAPER) : ((s.fetchAdd id k).setPc id pc).Scheduled := by
  have hsame : (s.fetchAdd id k).Scheduled := h.congr tm_takeGuard pc_takeGuard cpu_takeGuard
  exact hsame.setPc (cpu_takeGuard.trans hcpu) hid

theorem Scheduled.advance (h : s.Scheduled) (hcpu : s.cpu = some id)
    (hs : s.advance id = some (s', ev)) : s'.Scheduled := by
  have hreaper : s.pc id ≠ .idle → id ≠ Wait4System.REAPER := h.ne_reaper
  unfold SyncSystem.advance at hs
  generalize hpc : s.pc id = point at hs
  cases point with
  | idle | exited | waitHalted _ | condHalted _ _ => cases hs
  | waitCas c current =>
    have hmove := h.tryAcquire hcpu (hreaper (by simp [hpc])) c current (.returning c) (.waitLoad c)
    rwa [some.inj hs] at hmove
  | retryCas c current =>
    have hmove :=
      h.tryAcquire hcpu (hreaper (by simp [hpc])) c current (.retryEnable c) (.waitEnqueue c)
    rwa [some.inj hs] at hmove
  | waitEnqueue c =>
    cases hs
    have hid := hreaper (by simp [hpc])
    obtain ⟨htm, hcpu'⟩ := enqueueOnSemaphore_fields (s := s) (k := c.semaphore)
    have hblock : (s.enqueueOnSemaphore c.semaphore).Scheduled :=
      h.blockCurrentTask pc_enqueueOnSemaphore hcpu' htm hcpu hid
    exact hblock.setPc (hcpu'.trans hcpu) hid
  | condEnqueue cv m =>
    cases hs
    have hid := hreaper (by simp [hpc])
    obtain ⟨htm, hcpu', hpc', -⟩ := enqueueOnCondVar_fields (s := s) cv
    have hblock : (s.enqueueOnCondVar cv).Scheduled :=
      h.blockCurrentTask hpc' hcpu' htm hcpu hid
    exact hblock.setPc (hcpu'.trans hcpu) hid
  | signalAdd k | condAdd cv m =>
    cases hs
    exact h.fetchAdd hcpu (hreaper (by simp [hpc]))
  | signalPop k | condPop cv m =>
    cases hs
    exact h.popAndUnblock.setPc (cpu_popAndUnblock.trans hcpu) (hreaper (by simp [hpc]))
  -- the remaining points only move on
  | _ =>
    cases hs
    exact h.setPc hcpu (hreaper (by simp [hpc]))

/-! ### Interrupts -/

theorem pc_endHalt : s.endHalt.pc id =
    if s.cpu = some id then (s.pc id).interrupted else s.pc id := by
  unfold endHalt
  cases hc : s.cpu with
  | none => simp
  | some c =>
    rw [pc_setPc]
    by_cases hid : id = c
    · simp [hid]
    · simp [hid, Ne.symm hid]

theorem endHalt_tm : s.endHalt.tm = s.tm ∧ s.endHalt.cpu = s.cpu := by
  unfold endHalt
  split <;> exact ⟨rfl, rfl⟩

/-- After an interrupt no task is halted. -/
theorem Scheduled.endHalt (h : s.Scheduled) (hint : s.interruptible = true) :
    s.endHalt.Scheduled ∧ ∀ id, (s.endHalt.pc id).exclusive = false := by
  obtain ⟨htm, hcpu⟩ := s.endHalt_tm
  have hnone : ∀ id, (s.endHalt.pc id).exclusive = false := by
    intro id
    rw [pc_endHalt]
    split_ifs with hid
    · unfold interruptible at hint
      rw [hid] at hint
      exact Pc.exclusive_interrupted hint
    · by_contra hex
      exact hid (h.exclusive_cpu id (by simpa using hex))
  refine ⟨⟨htm ▸ h.consistent, htm ▸ h.reaper_ready, ?_, ?_, ?_, ?_⟩, hnone⟩
  · rw [pc_endHalt, h.reaper_idle]
    split_ifs <;> rfl
  · intro id hid
    rw [hcpu]
    exact h.current_cpu id (htm ▸ hid)
  · intro hr
    rw [htm]
    exact h.reaper_current (hcpu ▸ hr)
  · intro id hid
    rw [hnone id] at hid
    cases hid

theorem pc_abandon : s.abandon.pc id =
    if s.tm.currentTask = none ∧ s.cpu = some id then .exited else s.pc id := by
  unfold abandon
  split
  · rename_i c hnone hc
    rw [pc_setPc]
    by_cases hid : id = c
    · simp [hid, hnone, hc]
    · simp [hid, hc, Ne.symm hid]
  · rename_i hno
    rw [if_neg]
    rintro ⟨hnone, hc⟩
    exact hno id hnone hc

/-- **The timer interrupt** in a scheduled system: a ready task is current and executes
afterwards, and no task is halted. -/
theorem Scheduled.tick (h : s.Scheduled) (hint : s.interruptible = true) :
    s.endHalt.timerInterruptHandler.Scheduled ∧
      (∀ id, s.endHalt.timerInterruptHandler.cpu = some id →
        s.tm.taskStates[id]? = some .ready) ∧
      s.endHalt.timerInterruptHandler.tm = s.tm.schedule ∧
      ∀ id, (s.endHalt.timerInterruptHandler.pc id).exclusive = false := by
  obtain ⟨hend, hnone⟩ := h.endHalt hint
  obtain ⟨htm, hcpu⟩ := s.endHalt_tm
  obtain ⟨next, hnext, hready⟩ := h.consistent.schedule_ready h.reaper_ready
  have hreaper : s.tm.schedule.taskStates[Wait4System.REAPER]? = some .ready := by
    rw [taskStates_schedule]
    exact h.reaper_ready
  have habandon : ∀ id, (s.endHalt.abandon.pc id).exclusive = false := by
    intro id
    rw [pc_abandon]
    split_ifs
    · rfl
    · exact hnone id
  unfold timerInterruptHandler
  rw [htm]
  dsimp only
  split_ifs with hne
  · refine ⟨⟨h.consistent.schedule, hreaper, ?_, fun id hid => hid, fun hr => hr,
      fun id hid => ?_⟩, fun id hid => ?_, rfl, habandon⟩
    · -- the reaper's context is not the abandoned one: it is the current task when it executes
      rw [pc_abandon, if_neg]
      · exact hend.reaper_idle
      · rintro ⟨hcur, hr⟩
        rw [hend.reaper_current hr] at hcur
        cases hcur
    · rw [habandon id] at hid
      cases hid
    · rw [hnext, some.injEq] at hid
      exact hid ▸ hready
  · rw [not_not] at hne
    refine ⟨hend.setTm rfl rfl h.consistent.schedule hreaper ?_, fun id hid => ?_, rfl, hnone⟩
    · rw [htm]
      exact hne
    · rw [hcpu, h.current_cpu next (hne ▸ hnext), some.injEq] at hid
      exact hid ▸ hready

/-- **The keyboard interrupt**: only Ctrl+C touches the task manager, and never for the reaper. -/
theorem Scheduled.keyboard (h : s.Scheduled) (hint : s.interruptible = true) (ctrlC : Bool) :
    (s.endHalt.keyboardInterruptHandler ctrlC).Scheduled := by
  obtain ⟨hend, -⟩ := h.endHalt hint
  unfold keyboardInterruptHandler
  split
  · rename_i id hid
    split_ifs with hc
    · refine hend.exitCurrentTask rfl rfl rfl ?_
      rw [hid]
      intro he
      have hone : id = 1 := some.inj he
      exact absurd hc.2 (by rw [hone]; decide)
    · exact hend
  · exact hend

variable (ids : List TaskId) {a : SyncAction} {count : SemId → ℕ}

theorem consistent_foldl_unblockTask :
    ∀ {tm : TaskManager}, tm.Consistent → (ids.foldl unblockTask tm).Consistent := by
  induction ids with
  | nil => exact fun h => h
  | cons id ids ih => exact fun h => ih (h.unblockTask id)

theorem ready_foldl_unblockTask : ∀ {tm : TaskManager},
    tm.taskStates[j]? = some .ready →
      (ids.foldl unblockTask tm).taskStates[j]? = some .ready := by
  induction ids with
  | nil => exact fun h => h
  | cons id ids ih => exact fun h => ih (taskStates_unblockTask_of_awake h (by decide))

theorem currentTask_foldl_unblockTask : ∀ {tm : TaskManager},
    (ids.foldl unblockTask tm).currentTask = tm.currentTask := by
  induction ids with
  | nil => exact rfl
  | cons id ids ih => exact ih.trans currentTask_unblockTask

/-- Every step keeps the facts about runs. -/
theorem Scheduled.step (h : s.Scheduled) (hs : s.step a = some (s', ev)) : s'.Scheduled := by
  cases step_cases hs with
  | spawnDynamic targetPml4 stack hc =>
    have hready : (s.tm.spawnTask s.nextId targetPml4 .userMode stack).1.taskStates[
        Wait4System.REAPER]? = some .ready := by
      rcases Wait4System.spawnTask_cases with hsame | ⟨task, -, hnew⟩
      · rw [hsame]
        exact h.reaper_ready
      · rw [hnew, taskStates_setTaskState]
        split_ifs
        · rfl
        · exact h.reaper_ready
    refine ⟨h.consistent.spawnTask _ _ _, hready, ?_, ?_, ?_, ?_⟩
    · rw [pc_setPc]
      split_ifs
      · rfl
      · exact h.reaper_idle
    · intro c hcur
      exact h.current_cpu c (currentTask_spawnTask ▸ hcur)
    · intro hr
      exact currentTask_spawnTask.trans (h.reaper_current hr)
    · intro c hex
      rw [pc_setPc] at hex
      split_ifs at hex
      · cases hex
      · exact h.exclusive_cpu c hex
  | @sysExit id hc =>
    obtain ⟨hcpu, hid, -⟩ := caller_eq_some.mp hc
    have hmove : (s.setPc id .exited).Scheduled := h.setPc hcpu hid
    refine hmove.exitCurrentTask rfl rfl rfl fun hcur => hid ?_
    exact (h.current_eq hcur hcpu).symm
  | call hentry hc howns => exact h.setPc (caller_eq_some.mp hc).1 (caller_eq_some.mp hc).2.1
  | notifyOne cv =>
    unfold notifyOne
    split
    · exact h.unblockTask rfl rfl rfl
    · exact h
  | notifyAll cv =>
    exact h.setTm rfl rfl (consistent_foldl_unblockTask _ h.consistent)
      (ready_foldl_unblockTask _ h.reaper_ready) (currentTask_foldl_unblockTask _)
  | advance hcpu hs => exact h.advance hcpu hs
  | tick hint => exact (h.tick hint).1
  | keyboard ctrlC hint => exact h.keyboard hint ctrlC
  | @reap id hcpu hdead =>
    refine h.setTm rfl rfl (h.consistent.kill hdead) ?_ (currentTask_kill)
    have hne : id ≠ Wait4System.REAPER := fun he => by
      rw [he, h.reaper_ready] at hdead
      cases hdead
    rw [taskStates_kill hdead, if_neg hne, h.reaper_ready]
    simp

/-! ### The running task -/

/-- Task `id` is recorded as blocked. -/
def Blocked (s : SyncSystem) (id : TaskId) : Prop := s.tm.taskStates[id]? = some .blocked

instance (s : SyncSystem) (id : TaskId) : Decidable (s.Blocked id) :=
  inferInstanceAs (Decidable (_ = _))

/-- What the program point of the running task says about the counters, given whether the task is
recorded as blocked.  With interrupts masked the counter is still what it was found to be; in the
loop of `wait` a blocked task has nothing to take; a blocked task is nowhere else, except in
`CondVar::wait` before it resumes. -/
def RunPoint (count : SemId → ℕ) (blocked : Prop) : Pc → Prop
  | .retryCas c currentRetry => count c.semaphore = currentRetry ∧ ¬ blocked
  | .waitEnqueue c => count c.semaphore = 0
  | .waitLoad c => blocked → count c.semaphore = 0
  | .waitDisable c => blocked → count c.semaphore = 0
  | .retryLoad c => blocked → count c.semaphore = 0
  | .waitHalted c => blocked → count c.semaphore = 0
  | .condAdd _ _ => True
  | .condPop _ _ => True
  | .condHalted _ _ => True
  | _ => ¬ blocked

theorem RunPoint.mono {blocked blocked' : Prop}
    (h : RunPoint count blocked pc) (hb : blocked' → blocked) : RunPoint count blocked' pc := by
  cases pc with
  | retryCas c v => exact ⟨h.1, fun hb' => h.2 (hb hb')⟩
  | waitEnqueue c => exact h
  | condAdd _ _ | condPop _ _ | condHalted _ _ => trivial
  | _ => exact fun hb' => h (hb hb')

/-- A task that is not blocked can be at every point that is not exclusive. -/
theorem runPoint_of_not_blocked {blocked : Prop} (hb : ¬ blocked)
    (hpc : pc.exclusive = false) : RunPoint count blocked pc := by
  cases pc with
  | retryCas _ _ | waitEnqueue _ => cases hpc
  | condAdd _ _ | condPop _ _ | condHalted _ _ => trivial
  | idle | exited | waitCas _ _ | retryEnable _ | returning _ | signalAdd _ | signalPop _
  | condDisable _ _ | condEnqueue _ _ => exact hb
  | _ => exact fun hb' => absurd hb' hb

/-- The running task is where its recorded state allows it to be. -/
def Runnable (s : SyncSystem) : Prop :=
  ∀ id, s.cpu = some id → RunPoint s.count (s.Blocked id) (s.pc id)

theorem Runnable.of_setPc (hcpu : s.cpu = some id) (h : RunPoint s.count (s.Blocked id) pc) :
    (s.setPc id pc).Runnable := by
  intro j hj
  have hji : j = id := some.inj (hj.symm.trans hcpu)
  subst hji
  rw [pc_setPc_self]
  exact h

theorem blocked_of_popAndUnblock (h : (s.popAndUnblock k).Blocked id) : s.Blocked id := by
  unfold popAndUnblock at h
  split at h
  · exact (blocked_unblockTask.mp h).2
  · exact h

theorem blocked_of_foldl_unblockTask : ∀ {tm : TaskManager},
    (ids.foldl unblockTask tm).taskStates[id]? = some .blocked →
      tm.taskStates[id]? = some .blocked := by
  induction ids with
  | nil => exact fun h => h
  | cons j ids ih => exact fun h => (blocked_unblockTask.mp (ih h)).2

theorem blocked_of_exitCurrentTask {tm : TaskManager}
    (h : tm.exitCurrentTask.taskStates[id]? = some .blocked) :
    tm.taskStates[id]? = some .blocked := by
  rw [taskStates_exitCurrentTask] at h
  split_ifs at h
  · cases h
  · exact h

/-- The exchange of a `wait` by a task that is not blocked. -/
theorem Runnable.tryAcquire (c : Call) (current : ℕ) (won lost : Pc) (hcpu : s.cpu = some id)
    (hb : ¬ s.Blocked id) (hwon : won.exclusive = false ∨ won = .retryEnable c)
    (hlost : s.count c.semaphore ≠ current → RunPoint s.count (s.Blocked id) lost) :
    (s.tryAcquire id c current won lost).1.Runnable := by
  unfold SyncSystem.tryAcquire Semaphore.compareExchange
  split_ifs with hcount
  · have hb' : ¬ ((s.setSemaphore c.semaphore
        { s.semaphores c.semaphore with count := current - 1 }).giveGuard id
          c.semaphore).Blocked id := by
      unfold Blocked
      rw [tm_giveGuard]
      exact hb
    refine Runnable.of_setPc (cpu_giveGuard.trans hcpu) ?_
    rcases hwon with hw | rfl
    · exact runPoint_of_not_blocked hb' hw
    · exact hb'
  · exact Runnable.of_setPc hcpu (hlost hcount)

theorem Runnable.advance (h : s.Runnable) (hcpu : s.cpu = some id)
    (hs : s.advance id = some (s', ev)) : s'.Runnable := by
  have hpt := h id hcpu
  unfold SyncSystem.advance at hs
  generalize hpc : s.pc id = point at hs hpt
  cases point with
  | idle | exited | waitHalted _ | condHalted _ _ => cases hs
  | waitLoad c =>
    cases hs
    refine Runnable.of_setPc hcpu ?_
    split_ifs with hpos
    · -- there is a permit, so the task is not blocked
      intro hb
      have hzero : s.count c.semaphore = 0 := hpt hb
      exact absurd hpos (by show ¬ 0 < s.count c.semaphore; omega)
    · exact fun _ => Nat.eq_zero_of_not_pos hpos
  | waitCas c current =>
    have hmove := Runnable.tryAcquire c current (.returning c) (.waitLoad c) hcpu hpt (.inl rfl)
      (fun _ => runPoint_of_not_blocked hpt rfl)
    rwa [some.inj hs] at hmove
  | retryLoad c =>
    cases hs
    refine Runnable.of_setPc hcpu ?_
    split_ifs with hpos
    · refine ⟨rfl, fun hb => ?_⟩
      have hzero : s.count c.semaphore = 0 := hpt hb
      exact absurd hpos (by show ¬ 0 < s.count c.semaphore; omega)
    · exact Nat.eq_zero_of_not_pos hpos
  | retryCas c current =>
    -- interrupts are off since the load, so the exchange cannot fail
    have hmove := Runnable.tryAcquire c current (.retryEnable c) (.waitEnqueue c) hcpu hpt.2
      (.inr rfl) (fun hne => absurd hpt.1 hne)
    rwa [some.inj hs] at hmove
  | waitEnqueue c =>
    cases hs
    obtain ⟨-, hcpu'⟩ := enqueueOnSemaphore_fields (s := s) (k := c.semaphore)
    refine Runnable.of_setPc (hcpu'.trans hcpu) fun _ => ?_
    rw [count_enqueueOnSemaphore]
    exact hpt
  | signalAdd k =>
    cases hs
    refine Runnable.of_setPc (cpu_takeGuard.trans hcpu) ?_
    show ¬ (takeGuard _ _ _).tm.taskStates[id]? = some .blocked
    rw [tm_takeGuard]
    exact hpt
  | signalPop k =>
    cases hs
    exact Runnable.of_setPc (cpu_popAndUnblock.trans hcpu) fun hb =>
      hpt (blocked_of_popAndUnblock hb)
  | waitDisable c | retryEnable c | returning c | condDisable cv m =>
    cases hs
    exact Runnable.of_setPc hcpu hpt
  | condEnqueue cv m =>
    cases hs
    obtain ⟨-, hcpu', -, -⟩ := enqueueOnCondVar_fields (s := s) cv
    exact Runnable.of_setPc (hcpu'.trans hcpu) trivial
  | condAdd cv m =>
    cases hs
    exact Runnable.of_setPc (cpu_takeGuard.trans hcpu) trivial
  | condPop cv m =>
    cases hs
    exact Runnable.of_setPc (cpu_popAndUnblock.trans hcpu) trivial

/-- The running task is halted in `CondVar::wait` and still recorded as blocked. -/
def HaltedInCondVar (s : SyncSystem) : Prop :=
  ∃ id ∈ s.cpu, s.Blocked id ∧ (s.pc id).inCondHalt = true

instance (s : SyncSystem) : Decidable s.HaltedInCondVar :=
  inferInstanceAs (Decidable (∃ id ∈ s.cpu, _))

/-- No keyboard interrupt arrives while the running task is halted in `CondVar::wait` and still
blocked. -/
def NoKeyInCondVar (s : SyncSystem) : SyncAction → Prop
  | .keyboard _ => ¬ s.HaltedInCondVar
  | _ => True

instance (s : SyncSystem) (a : SyncAction) : Decidable (s.NoKeyInCondVar a) := by
  cases a <;> unfold NoKeyInCondVar <;> infer_instance

theorem Runnable.call (h : s.Runnable) (hc : s.caller = some id) (hpc : pc.exclusive = false) :
    (s.setPc id pc).Runnable := by
  obtain ⟨hcpu, -, hidle⟩ := caller_eq_some.mp hc
  have hpt := h id hcpu
  rw [hidle] at hpt
  exact Runnable.of_setPc hcpu (runPoint_of_not_blocked hpt hpc)

/-- A step that leaves the program points, the counters and the running task alone and blocks no
one. -/
theorem Runnable.congr (h : s.Runnable) (hcpu : s'.cpu = s.cpu) (hpc : s'.pc = s.pc)
    (hcount : s'.count = s.count) (hb : ∀ id, s'.Blocked id → s.Blocked id) : s'.Runnable := by
  intro id hid
  rw [hpc, hcount]
  exact (h id (hcpu ▸ hid)).mono (hb id)

theorem count_endHalt : s.endHalt.count = s.count := by
  funext k
  show (s.endHalt.semaphores k).count = (s.semaphores k).count
  rw [s.endHalt_fields.1]

/-- Leaving `hlt` is harmless unless it is the one of `CondVar::wait`. -/
theorem Runnable.endHalt (h : s.Runnable) (hkey : ¬ s.HaltedInCondVar) : s.endHalt.Runnable := by
  obtain ⟨htm, hcpu⟩ := s.endHalt_tm
  intro id hid
  rw [hcpu] at hid
  have hpt := h id hid
  have hb : s.endHalt.Blocked id = s.Blocked id := by
    unfold Blocked
    rw [htm]
  rw [pc_endHalt, if_pos hid, count_endHalt, hb]
  cases hpc : s.pc id with
  | condHalted cv m =>
    intro hblocked
    refine absurd ⟨id, hid, hblocked, ?_⟩ hkey
    rw [hpc]
    rfl
  | _ =>
    rw [hpc] at hpt
    exact hpt

theorem exclusive_entry (h : a.entry = some pc) : pc.exclusive = false := by
  cases a <;> cases h <;> rfl

/-- Every step without a key press in the condition variable's `hlt` keeps the running task so. -/
theorem Runnable.step (hsch : s.Scheduled) (h : s.Runnable)
    (hguard : s.NoKeyInCondVar a) (hs : s.step a = some (s', ev)) : s'.Runnable := by
  have hsch' := hsch.step hs
  cases step_cases hs with
  | @spawnDynamic id targetPml4 stack hc =>
    obtain ⟨hcpu, -, hidle⟩ := caller_eq_some.mp hc
    intro j hj
    have hji : j = id := some.inj (hj.symm.trans hcpu)
    subst hji
    have hpt := h j hcpu
    rw [hidle] at hpt
    have hpc : (s.setPc s.nextId .idle).pc j = .idle := by
      rw [pc_setPc]
      split_ifs
      · rfl
      · exact hidle
    rw [hpc]
    intro hb
    change (s.tm.spawnTask s.nextId targetPml4 .userMode stack).1.taskStates[j]?
      = some .blocked at hb
    rcases Wait4System.spawnTask_cases with hsame | ⟨task, -, hnew⟩
    · rw [hsame] at hb
      exact hpt hb
    · rw [hnew, taskStates_setTaskState] at hb
      split_ifs at hb
      · cases hb
      · exact hpt hb
  | @sysExit id hc =>
    have hcall : (s.setPc id .exited).Runnable := h.call hc rfl
    refine hcall.congr rfl rfl rfl fun j hb => ?_
    exact blocked_of_exitCurrentTask hb
  | call hentry hc howns => exact h.call hc (exclusive_entry hentry)
  | notifyOne cv =>
    unfold notifyOne
    split
    · exact h.congr rfl rfl rfl fun j hb => (blocked_unblockTask.mp hb).2
    · exact h
  | notifyAll cv => exact h.congr rfl rfl rfl fun j hb => blocked_of_foldl_unblockTask _ hb
  | advance hcpu hs => exact h.advance hcpu hs
  | tick hint =>
    obtain ⟨-, hready, htm, hex⟩ := hsch.tick hint
    intro id hid
    have hnb : ¬ s.endHalt.timerInterruptHandler.Blocked id := by
      unfold Blocked
      rw [htm, taskStates_schedule, hready id hid]
      simp
    exact runPoint_of_not_blocked hnb (hex id)
  | keyboard ctrlC hint =>
    have hend := h.endHalt hguard
    unfold keyboardInterruptHandler
    split
    · split_ifs
      · exact hend.congr rfl rfl rfl fun j hb => blocked_of_exitCurrentTask hb
      · exact hend
    · exact hend
  | reap hcpu hdead =>
    intro j hj
    have hjr : j = Wait4System.REAPER := some.inj (hj.symm.trans hcpu)
    subst hjr
    rw [hsch'.reaper_idle]
    intro hb
    rw [Blocked, hsch'.reaper_ready] at hb
    cases hb

theorem returned_inv {c : Call} (hs : s.step a = some (s', .returned id c)) :
    s.cpu = some id ∧ s.pc id = .returning c := by
  cases step_cases hs with
  | @advance j _ _ hcpu he =>
    unfold SyncSystem.advance at he
    cases hpc : s.pc j with
    | returning c' =>
      simp only [hpc] at he
      cases he
      exact ⟨hcpu, hpc⟩
    | waitCas _ _ | retryCas _ _ =>
      simp only [hpc, SyncSystem.tryAcquire] at he
      split at he <;> cases he
    | _ =>
      simp only [hpc] at he
      cases he

/-- The kernel as `init_multitasking` leaves it, with any number of permits in the semaphores. -/
def Initial (s : SyncSystem) : Prop :=
  ∃ kernelPml4 targetPml4 stack₁ stack₂ initialCount,
    s = initial kernelPml4 targetPml4 stack₁ stack₂ initialCount

/-- **A task that returns from a blocking call is runnable**, in every run in which no keyboard
interrupt arrives while the running task is halted in `CondVar::wait` and still blocked.  A task
that owns a guard and is not inside another blocking call is not blocked either, so it is not
descheduled as such. -/
theorem returns_runnable (h : Transition.Reach step Initial NoKeyInCondVar s) :
    (∀ a s' id c, s.step a = some (s', .returned id c) →
      s.tm.taskStates[id]? ≠ some .blocked) ∧
    ∀ id m, (id, m) ∈ s.guards → s.cpu = some id → (s.pc id).inBlockingCall = false →
      s.tm.taskStates[id]? ≠ some .blocked := by
  have hinv : s.Scheduled ∧ s.Runnable := by
    refine h.invariant (P := fun s => s.Scheduled ∧ s.Runnable) ?_ ?_
    · rintro s ⟨kernelPml4, targetPml4, stack₁, stack₂, initialCount, rfl⟩
      exact ⟨scheduled_initial _ _ _ _ _, fun id hid => (by cases hid)⟩
    · rintro s a s' e ⟨hsch, hrun⟩ hguard hs
      exact ⟨hsch.step hs, hrun.step hsch hguard hs⟩
  obtain ⟨-, hrun⟩ := hinv
  refine ⟨?_, ?_⟩
  · intro a s' id c hs
    obtain ⟨hcpu, hpc⟩ := returned_inv hs
    have hpt := hrun id hcpu
    rw [hpc] at hpt
    exact hpt
  · intro id m _ hcpu hpc
    have hpt := hrun id hcpu
    cases hat : s.pc id with
    | idle | exited | returning _ | signalAdd _ | signalPop _ => rw [hat] at hpt; exact hpt
    | _ =>
      rw [hat] at hpc
      cases hpc

/-- The shell waits on condition variable 9 with its guard of mutex 7, its child notifies it, and
the call returns. -/
theorem returns_runnable_notified : ∃ s s',
    Transition.Reach step Initial NoKeyInCondVar s ∧
    s.step .advance = some (s', .returned 2 (.condWait 9 7)) ∧
    s.tm.taskStates[2]? ≠ some .blocked := by
  obtain ⟨⟨s, evs⟩, hrun, ⟨s', ev⟩, hs, rfl⟩ :
      ∃ r ∈ Transition.run (Transition.restrict NoKeyInCondVar step)
        (initial 0 1 0x10000 0x20000 fun _ => 0)
        [.tick, .tick, .spawnDynamic 2 (some 0x30000), .lock 7, .advance, .advance, .advance,
          .condWait 9 7, .advance, .advance, .advance, .advance, .tick, .tick, .notifyOne 9,
          .tick, .tick, .advance, .advance],
      ∃ q ∈ r.1.step .advance, q.2 = .returned 2 (.condWait 9 7) := by decide
  have hreach : Transition.Reach step Initial NoKeyInCondVar s :=
    Transition.Reach.of_run_restrict (.start ⟨0, 1, 0x10000, 0x20000, fun _ => 0, rfl⟩) hrun
  exact ⟨s, s', hreach, hs, (returns_runnable hreach).1 _ _ _ _ hs⟩

/-- The shell waits on condition variable 9, a key is pressed while it is halted, and the mutex is
free: the call returns, with the guard, in a task that is recorded as blocked. -/
theorem condVar_wait_returns_blocked : ∃ s s',
    Transition.Reach step Initial Transition.anyAction s ∧
    s.step .advance = some (s', .returned 2 (.condWait 9 7)) ∧
    s.tm.taskStates[2]? = some .blocked ∧ (2, 7) ∈ s.guards := by
  obtain ⟨⟨s, evs⟩, hrun, hblocked, hguard, ⟨s', ev⟩, hs, rfl⟩ :
      ∃ r ∈ Transition.run step (initial 0 1 0x10000 0x20000 fun _ => 0)
        [.tick, .tick, .lock 7, .advance, .advance, .advance, .condWait 9 7, .advance, .advance,
          .advance, .advance, .keyboard false, .advance, .advance],
      r.1.tm.taskStates[2]? = some .blocked ∧ (2, 7) ∈ r.1.guards ∧
        ∃ q ∈ r.1.step .advance, q.2 = .returned 2 (.condWait 9 7) := by decide
  exact ⟨s, s', Transition.Reach.of_run (.start ⟨0, 1, 0x10000, 0x20000, fun _ => 0, rfl⟩) hrun,
    hs, hblocked, hguard⟩

end SyncSystem

end NwinOs.Core
