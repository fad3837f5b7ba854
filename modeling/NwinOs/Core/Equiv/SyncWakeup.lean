import NwinOs.Core.Equiv.SyncRunnable
import Mathlib.Data.Finset.Card

/-!
# Lost wake-ups

The tasks of a system that use one semaphore.  `signal` adds a permit and wakes the task at the
front of the FIFO; the woken task takes the permit later, in its loop.  No wake-up is lost as long
as the FIFO holds exactly the blocked tasks: then every permit in the counter, while a task sleeps,
is owed to a task that was woken and has not taken it yet, or to a `signal` that has not dequeued
yet (`Waiters`).

Interrupts that end the `hlt` of a blocked task, the death of a task inside the primitives and the
wake-up of a parent by the death of a child break that correspondence: they leave entries in the
FIFO that no sleeping task stands for, and a `signal` is then spent on such an entry.
`no_lost_wakeup` is the law for the runs without them; `stale_entry_loses_wakeup` is a run in which
a key press strands a task.
-/

namespace NwinOs.Core

open Tasking TaskManager Function List Option

namespace Pc

/-- Inside `wait` on the semaphore `k`, without its permit. -/
def insideWait (k : ℕ) : Pc → Bool
  | .waitLoad c => c = .wait k
  | .waitCas c _ => c = .wait k
  | .waitDisable c => c = .wait k
  | .retryLoad c => c = .wait k
  | .retryCas c _ => c = .wait k
  | .waitEnqueue c => c = .wait k
  | .waitHalted c => c = .wait k
  | _ => false

/-- Outside the primitives, or in `wait` or `signal` on the semaphore `k`. -/
def usesOnly (k : ℕ) : Pc → Bool
  | .idle => true
  | .exited => true
  | .retryEnable c => c = .wait k
  | .returning c => c = .wait k
  | .signalAdd l => l = .plain k
  | .signalPop l => l = .plain k
  | pc => pc.insideWait k

variable {k : ℕ} {pc : Pc}

theorem usesOnly_interrupted (h : pc.usesOnly k = true) : pc.interrupted.usesOnly k = true := by
  cases pc with
  | condHalted cv m => cases h
  | _ => exact h

theorem inCondHalt_of_usesOnly (h : pc.usesOnly k = true) : pc.inCondHalt = false := by
  cases pc with
  | condHalted cv m => cases h
  | _ => rfl

@[simp] theorem insideWait_interrupted : pc.interrupted.insideWait k = pc.insideWait k := by
  cases pc with
  | condHalted cv m => simp [interrupted, insideWait]
  | _ => rfl

end Pc

namespace SyncSystem

variable {s s' : SyncSystem} {ev : SyncEvent} {id j : TaskId} {k : ℕ} {pc : Pc}

/-! ### The runs -/

/-- The calls of a system whose tasks use only the semaphore `k`. -/
def OnlySemaphore (k : ℕ) : SyncAction → Prop
  | .wait l => l = k
  | .signal l => l = k
  | .lock _ | .condWait _ _ | .dropGuard _ | .notifyOne _ | .notifyAll _ => False
  | _ => True

/-- The step leaves the FIFO and the sleeping tasks in step with each other: no key is pressed
while the running task is halted and blocked, Ctrl+C does not end a task inside `wait`, no dead
task is switched away from between its `fetch_add` and its dequeue, and the death of a child does
not wake a blocked parent.  It does not wrap the identifier counter either. -/
def KeepsWaiters (k : ℕ) (s : SyncSystem) : SyncAction → Prop
  | .spawnDynamic _ _ => s.nextId + 1 < 2 ^ 64
  | .tick => s.tm.currentTask = none → ∀ id ∈ s.cpu, s.pc id ≠ .signalPop (.plain k)
  | .keyboard false => ∀ id ∈ s.cpu, ¬ s.Blocked id
  | .keyboard true => ∀ id ∈ s.tm.currentTask, (s.pc id).insideWait k = false
  | .reap c => ∀ id ∈ s.tm.parentOf c, ¬ s.Blocked id
  | _ => True

/-- A step of a system whose tasks use only the semaphore `k`, of the kind above. -/
def Undisturbed (k : ℕ) (s : SyncSystem) (a : SyncAction) : Prop :=
  OnlySemaphore k a ∧ s.KeepsWaiters k a

instance (k : ℕ) (a : SyncAction) : Decidable (OnlySemaphore k a) := by
  induction a using SyncAction.casesOn <;> dsimp only [OnlySemaphore] <;> infer_instance

instance (k : ℕ) (s : SyncSystem) (a : SyncAction) : Decidable (s.KeepsWaiters k a) := by
  induction a using SyncAction.casesOn with
  | keyboard ctrlC =>
    induction ctrlC using Bool.casesOn <;> dsimp only [KeepsWaiters] <;> infer_instance
  | _ => dsimp only [KeepsWaiters]; infer_instance

instance (k : ℕ) (s : SyncSystem) (a : SyncAction) : Decidable (s.Undisturbed k a) :=
  inferInstanceAs (Decidable (_ ∧ _))

/-- The facts about the runs in question that do not concern the FIFO. -/
structure Confined (k : ℕ) (s : SyncSystem) : Prop where
  usesOnly : ∀ id, (s.pc id).usesOnly k = true
  registered_lt : ∀ id ∈ s.tm.taskRegistry, id < s.nextId
  fresh_idle : ∀ id, s.nextId ≤ id → s.pc id = .idle
  zombie_dead : s.tm.currentTask = none → ∀ id ∈ s.cpu, s.tm.taskStates[id]? = some .dead

/-- The FIFO of the semaphore `k`. -/
def fifo (s : SyncSystem) (k : ℕ) : List TaskId := (s.semaphores (.plain k)).waitingTasks

theorem tryAcquire_wait {v : ℕ} {won lost : Pc} : s.tryAcquire id (.wait k) v won lost =
    if s.count (.plain k) = v then
      ((s.setSemaphore (.plain k) { s.semaphores (.plain k) with count := v - 1 }).setPc id won,
        .acquired (.plain k))
    else (s.setPc id lost, .silent) := by
  unfold tryAcquire Semaphore.compareExchange
  by_cases hcount : s.count (.plain k) = v
  · have hc : (s.semaphores (Call.wait k).semaphore).count = v := hcount
    rw [if_pos hc, if_pos hcount]
    rfl
  · have hc : ¬ (s.semaphores (Call.wait k).semaphore).count = v := hcount
    rw [if_neg hc, if_neg hcount]

/-- **What the running task can do inside the primitives** when it uses only the semaphore `k`:
move on, take a permit, go to sleep, add a permit, or wake the front of the FIFO. -/
theorem advance_cases (huse : (s.pc id).usesOnly k = true) (hs : s.advance id = some (s', ev)) :
    (∃ pc, s' = s.setPc id pc ∧ pc.usesOnly k = true ∧
        (∀ l, s.pc id ≠ .signalPop l ∧ pc ≠ .signalPop l) ∧
        ((s.pc id).insideWait k = true → pc.insideWait k = true)) ∨
      (∃ pc v, s' = (s.setSemaphore (.plain k)
          { s.semaphores (.plain k) with count := v - 1 }).setPc id pc ∧
        (pc = .returning (.wait k) ∨ pc = .retryEnable (.wait k)) ∧
        (s.pc id).current = some v ∧ s.count (.plain k) = v) ∨
      (s.pc id = .waitEnqueue (.wait k) ∧
        s' = (s.enqueueOnSemaphore (.plain k)).setPc id (.waitHalted (.wait k))) ∨
      (s.pc id = .signalAdd (.plain k) ∧ s' = (s.setSemaphore (.plain k)
        (s.semaphores (.plain k)).fetchAdd).setPc id (.signalPop (.plain k))) ∨
      (s.pc id = .signalPop (.plain k) ∧
        s' = (s.popAndUnblock (.plain k)).setPc id .idle) := by
  unfold SyncSystem.advance at hs
  generalize hpc : s.pc id = point at huse hs ⊢
  cases point with
  | idle | exited | waitHalted _ | condHalted _ _ => cases hs
  | waitLoad c | retryLoad c =>
    cases hs
    refine .inl ⟨_, rfl, ?_, fun l => ⟨by simp, ?_⟩, fun _ => ?_⟩
    · split_ifs <;> exact huse
    · split_ifs <;> simp
    · split_ifs <;> exact huse
  | waitCas c v | retryCas c v =>
    obtain rfl : c = .wait k := of_decide_eq_true huse
    simp only [tryAcquire_wait] at hs
    split_ifs at hs with hcount
    · cases hs
      exact .inr (.inl ⟨_, v, rfl, by simp, rfl, hcount⟩)
    · cases hs
      exact .inl ⟨_, rfl, huse, fun l => ⟨by simp, by simp⟩, fun _ => huse⟩
  | waitDisable c =>
    cases hs
    exact .inl ⟨_, rfl, huse, fun l => ⟨by simp, by simp⟩, fun _ => huse⟩
  | retryEnable c =>
    cases hs
    exact .inl ⟨_, rfl, huse, fun l => ⟨by simp, by simp⟩, fun hin => (by cases hin)⟩
  | waitEnqueue c =>
    obtain rfl : c = .wait k := of_decide_eq_true huse
    cases hs
    exact .inr (.inr (.inl ⟨rfl, rfl⟩))
  | returning c =>
    cases hs
    exact .inl ⟨_, rfl, rfl, fun l => ⟨by simp, by simp⟩, fun hin => (by cases hin)⟩
  | signalAdd l =>
    obtain rfl : l = .plain k := of_decide_eq_true huse
    cases hs
    exact .inr (.inr (.inr (.inl ⟨rfl, rfl⟩)))
  | signalPop l =>
    obtain rfl : l = .plain k := of_decide_eq_true huse
    cases hs
    exact .inr (.inr (.inr (.inr ⟨rfl, rfl⟩)))
  | condDisable _ _ | condEnqueue _ _ | condAdd _ _ | condPop _ _ => cases huse

/-! ### Confinement -/

section

variable (h : s.Confined k)
include h

theorem Confined.lt_nextId (hid : s.pc id ≠ .idle) : id < s.nextId := by
  by_contra hle
  exact hid (h.fresh_idle id (Nat.le_of_not_lt hle))

theorem Confined.setPc (hid : id < s.nextId) (huse : pc.usesOnly k = true) :
    (s.setPc id pc).Confined k := by
  refine ⟨fun j => ?_, h.registered_lt, fun j hj => ?_, h.zombie_dead⟩
  · rw [pc_setPc]
    split_ifs
    · exact huse
    · exact h.usesOnly j
  · have hne : j ≠ id := fun he => absurd hid (Nat.not_lt.mpr (he ▸ hj))
    rw [pc_setPc_of_ne hne]
    exact h.fresh_idle j hj

/-- A change of the task manager that registers no task. -/
theorem Confined.setTm (hpc : s'.pc = s.pc) (hnext : s'.nextId = s.nextId)
    (hreg : ∀ id ∈ s'.tm.taskRegistry, id ∈ s.tm.taskRegistry)
    (hdead : s'.tm.currentTask = none → ∀ id ∈ s'.cpu, s'.tm.taskStates[id]? = some .dead) :
    s'.Confined k where
  usesOnly id := hpc ▸ h.usesOnly id
  registered_lt id hid := hnext ▸ h.registered_lt id (hreg id hid)
  fresh_idle id hid := hpc ▸ h.fresh_idle id (hnext ▸ hid)
  zombie_dead := hdead

theorem Confined.popAndUnblock : (s.popAndUnblock (.plain k)).Confined k := by
  unfold SyncSystem.popAndUnblock
  split
  · refine h.setTm rfl rfl (fun id hid => ?_) fun hnone id hid => ?_
    · rwa [taskRegistry_unblockTask] at hid
    · rw [currentTask_unblockTask] at hnone
      exact taskStates_unblockTask_of_awake (h.zombie_dead hnone id hid) (by decide)
  · exact h

theorem Confined.enqueueOnSemaphore : (s.enqueueOnSemaphore (.plain k)).Confined k := by
  unfold SyncSystem.enqueueOnSemaphore
  split
  · rename_i c hc
    refine h.setTm rfl rfl (fun id hid => taskRegistry_blockCurrentTask ▸ hid) fun hnone => ?_
    rw [currentTask_blockCurrentTask, hc] at hnone
    cases hnone
  · exact h

end

theorem advance_ne_idle (hs : s.advance id = some (s', ev)) : s.pc id ≠ .idle := by
  intro hidle
  simp [SyncSystem.advance, hidle] at hs

theorem Confined.advance (h : s.Confined k) (hs : s.advance id = some (s', ev)) :
    s'.Confined k := by
  have hid : id < s.nextId := h.lt_nextId (advance_ne_idle hs)
  rcases advance_cases (h.usesOnly id) hs with
    ⟨pc, rfl, huse, -⟩ | ⟨pc, v, rfl, hpc, -⟩ | ⟨-, rfl⟩ | ⟨-, rfl⟩ | ⟨-, rfl⟩
  · exact h.setPc hid huse
  · have hsame : (s.setSemaphore (.plain k)
        { s.semaphores (.plain k) with count := v - 1 }).Confined k :=
      h.setTm rfl rfl (fun _ hj => hj) h.zombie_dead
    refine hsame.setPc hid ?_
    rcases hpc with rfl | rfl <;> simp [Pc.usesOnly]
  · have hnext : (s.enqueueOnSemaphore (.plain k)).nextId = s.nextId := by
      unfold SyncSystem.enqueueOnSemaphore
      split <;> rfl
    exact h.enqueueOnSemaphore.setPc (hnext ▸ hid) (by simp [Pc.usesOnly, Pc.insideWait])
  · have hsame : (s.setSemaphore (.plain k) (s.semaphores (.plain k)).fetchAdd).Confined k :=
      h.setTm rfl rfl (fun _ hj => hj) h.zombie_dead
    exact hsame.setPc hid (by simp [Pc.usesOnly])
  · have hnext : (s.popAndUnblock (.plain k)).nextId = s.nextId := by
      unfold SyncSystem.popAndUnblock
      split <;> rfl
    exact h.popAndUnblock.setPc (hnext ▸ hid) rfl

theorem Confined.endHalt (h : s.Confined k) : s.endHalt.Confined k := by
  obtain ⟨htm, hcpu⟩ := s.endHalt_tm
  have hnext : s.endHalt.nextId = s.nextId := by
    unfold SyncSystem.endHalt
    split <;> rfl
  refine ⟨fun id => ?_, htm ▸ hnext ▸ h.registered_lt, fun id hid => ?_, ?_⟩
  · rw [pc_endHalt]
    split_ifs
    · exact Pc.usesOnly_interrupted (h.usesOnly id)
    · exact h.usesOnly id
  · rw [pc_endHalt, h.fresh_idle id (hnext ▸ hid)]
    split_ifs <;> rfl
  · rw [htm, hcpu]
    exact h.zombie_dead

theorem dead_exitCurrentTask (hsch : s.Scheduled) (h : s.Confined k) (hid : s.cpu = some id) :
    s.tm.exitCurrentTask.taskStates[id]? = some .dead := by
  rw [taskStates_exitCurrentTask]
  split_ifs with hcur
  · rfl
  · refine h.zombie_dead (eq_none_iff_forall_ne_some.mpr fun c hc => hcur ?_) id hid
    rw [hc, ← hsch.current_cpu c hc, hid]

theorem Confined.exitCurrentTask (h : s.Confined k) (hsch : s.Scheduled) (hpc : s'.pc = s.pc)
    (hnext : s'.nextId = s.nextId) (hcpu : s'.cpu = s.cpu) (htm : s'.tm = s.tm.exitCurrentTask) :
    s'.Confined k := by
  refine h.setTm hpc hnext (fun id hid => ?_) fun _ id hid => ?_
  · rwa [htm, taskRegistry_exitCurrentTask] at hid
  · rw [htm]
    exact dead_exitCurrentTask hsch h (hcpu ▸ hid)

theorem Confined.tick (h : s.Confined k) (hsch : s.Scheduled) (hint : s.interruptible = true) :
    s.endHalt.timerInterruptHandler.Confined k := by
  have htm := s.endHalt_tm.1
  have hend := h.endHalt
  obtain ⟨next, hnext, -⟩ := hsch.consistent.schedule_ready hsch.reaper_ready
  have habandon : s.endHalt.abandon.Confined k := by
    unfold SyncSystem.abandon
    split
    · rename_i id hnone hid
      have hdead := hend.zombie_dead hnone id hid
      have hreg : id ∈ s.endHalt.tm.taskRegistry :=
        (hsch.endHalt hint).1.consistent.isSome_iff.mp (by rw [hdead]; rfl)
      exact hend.setPc (hend.registered_lt id hreg) rfl
    · exact hend
  have habandonTm : s.endHalt.abandon.tm = s.tm := by
    unfold SyncSystem.abandon
    split <;> exact htm
  unfold timerInterruptHandler
  rw [htm]
  dsimp only
  split_ifs
  · refine habandon.setTm rfl rfl (fun id hid => ?_) fun hnone => ?_
    · rw [habandonTm]
      exact taskRegistry_schedule ▸ hid
    · rw [hnext] at hnone
      cases hnone
  · refine hend.setTm rfl rfl (fun id hid => ?_) fun hnone => ?_
    · rw [htm]
      exact taskRegistry_schedule ▸ hid
    · rw [hnext] at hnone
      cases hnone

variable {a : SyncAction}

/-- A system that uses only the semaphore `k` calls `wait` and `signal` on it, and nothing else. -/
theorem usesOnly_entry (honly : OnlySemaphore k a) (h : a.entry = some pc) :
    pc.usesOnly k = true := by
  cases a with
  | wait l =>
    cases h
    have hl : l = k := honly
    simp [Pc.usesOnly, Pc.insideWait, hl]
  | signal l =>
    cases h
    have hl : l = k := honly
    simp [Pc.usesOnly, hl]
  | lock _ | condWait _ _ | dropGuard _ => exact honly.elim
  | _ => cases h

theorem Confined.cpu_registered (h : s.Confined k) (hsch : s.Scheduled) (hid : s.cpu = some id) :
    id ∈ s.tm.taskRegistry := by
  cases hcur : s.tm.currentTask with
  | none =>
    exact hsch.consistent.isSome_iff.mp (by rw [h.zombie_dead hcur id hid]; rfl)
  | some c =>
    exact hsch.current_eq hcur hid ▸ (hsch.consistent.current_live c hcur).1

theorem Confined.pc_setPc_nextId (h : s.Confined k) : (s.setPc s.nextId .idle).pc = s.pc := by
  funext j
  rw [pc_setPc]
  split_ifs with hj
  · rw [hj, h.fresh_idle _ (Nat.le_refl _)]
  · rfl

theorem Confined.step (h : s.Confined k) (hsch : s.Scheduled)
    (hguard : s.Undisturbed k a) (hs : s.step a = some (s', ev)) : s'.Confined k := by
  obtain ⟨honly, hkeep⟩ := hguard
  have hcaller : ∀ {id}, s.caller = some id → id < s.nextId := fun hc =>
    h.registered_lt _ (h.cpu_registered hsch (caller_eq_some.mp hc).1)
  cases step_cases hs with
  | spawnDynamic targetPml4 stack hc =>
    have hrange : s.nextId + 1 < 2 ^ 64 := hkeep
    have hnext : (s.nextId + 1) % 2 ^ 64 = s.nextId + 1 := Nat.mod_eq_of_lt hrange
    have hchild := h.pc_setPc_nextId
    refine ⟨fun j => hchild ▸ h.usesOnly j, fun j hj => ?_, fun j hj => ?_, fun hnone j hj => ?_⟩
    · rw [hnext]
      rcases Wait4System.mem_taskRegistry_spawnTask hj with rfl | hj
      · exact Nat.lt_succ_self _
      · exact Nat.lt_succ_of_lt (h.registered_lt j hj)
    · rw [hnext] at hj
      rw [hchild]
      exact h.fresh_idle j (Nat.le_of_succ_le hj)
    · change (s.tm.spawnTask _ _ _ _).1.currentTask = none at hnone
      rw [TaskManager.currentTask_spawnTask] at hnone
      have hdead := h.zombie_dead hnone j hj
      have hlt : j < s.nextId :=
        h.registered_lt j (hsch.consistent.isSome_iff.mp (by rw [hdead]; rfl))
      show (s.tm.spawnTask _ _ _ _).1.taskStates[j]? = some .dead
      rw [Wait4System.taskStates_spawnTask hlt.ne]
      exact hdead
  | @sysExit id hc =>
    obtain ⟨hcpu, hid, -⟩ := caller_eq_some.mp hc
    have hmove : (s.setPc id .exited).Confined k := h.setPc (hcaller hc) rfl
    have hschMove : (s.setPc id .exited).Scheduled := hsch.setPc hcpu hid
    exact hmove.exitCurrentTask hschMove rfl rfl rfl rfl
  | call hentry hc howns => exact h.setPc (hcaller hc) (usesOnly_entry honly hentry)
  | notifyOne cv => exact honly.elim
  | notifyAll cv => exact honly.elim
  | advance hcpu hs => exact h.advance hs
  | tick hint => exact h.tick hsch hint
  | keyboard ctrlC hint =>
    unfold keyboardInterruptHandler
    split
    · split_ifs
      · exact h.endHalt.exitCurrentTask (hsch.endHalt hint).1 rfl rfl rfl rfl
      · exact h.endHalt
    · exact h.endHalt
  | @reap c hcpu hdead =>
    refine h.setTm rfl rfl (fun id hid => mem_taskRegistry_of_kill hid) fun hnone => ?_
    rw [currentTask_kill, hsch.reaper_current hcpu] at hnone
    cases hnone

/-! ### The FIFO and the permits -/

/-- Task `id` is inside `wait` on the semaphore `k` and ready: it was woken, or has not gone to
sleep, and has not taken its permit. -/
def Woken (k : ℕ) (s : SyncSystem) (id : TaskId) : Prop :=
  s.tm.taskStates[id]? = some .ready ∧ (s.pc id).insideWait k = true

/-- A permit can be owed to task `id`: it is woken, or it has added a permit and not dequeued. -/
def Owed (k : ℕ) (s : SyncSystem) (id : TaskId) : Prop :=
  s.Woken k id ∨ s.pc id = .signalPop (.plain k)

/-- **The invariant.**  The FIFO holds exactly the blocked tasks, which are halted or on their way
back to the head of the loop; and while it is not empty, every permit in the counter is owed. -/
structure Waiters (k : ℕ) (s : SyncSystem) : Prop where
  nodup : (s.fifo k).Nodup
  mem_iff : ∀ id, id ∈ s.fifo k ↔ s.Blocked id
  point : ∀ id, s.Blocked id →
    s.pc id = .waitHalted (.wait k) ∨ s.pc id = .waitLoad (.wait k)
  running : ∀ id, s.cpu = some id → s.Blocked id → s.pc id = .waitHalted (.wait k)
  permits : s.fifo k ≠ [] →
    ∃ F : Finset TaskId, s.count (.plain k) ≤ F.card ∧ ∀ id ∈ F, s.Owed k id

variable (h : s.Waiters k)
include h

/-- A step that touches neither the FIFO nor the counter nor the sleeping tasks. -/
theorem Waiters.frame (hfifo : s'.fifo k = s.fifo k)
    (hcount : s'.count (.plain k) = s.count (.plain k))
    (hblocked : ∀ id, s'.Blocked id ↔ s.Blocked id)
    (howed : ∀ id, s.Owed k id → s'.Owed k id)
    (hpoint : ∀ id, s.Blocked id →
      s'.pc id = .waitHalted (.wait k) ∨ s'.pc id = .waitLoad (.wait k))
    (hrunning : ∀ id, s'.cpu = some id → s.Blocked id → s'.pc id = .waitHalted (.wait k)) :
    s'.Waiters k where
  nodup := hfifo ▸ h.nodup
  mem_iff id := by rw [hfifo, hblocked, h.mem_iff]
  point id hid := hpoint id ((hblocked id).mp hid)
  running id hcpu hid := hrunning id hcpu ((hblocked id).mp hid)
  permits hne := by
    obtain ⟨F, hF, hall⟩ := h.permits (hfifo ▸ hne)
    exact ⟨F, hcount ▸ hF, fun id hid => howed id (hall id hid)⟩

/-- The running task, which is not blocked, moves on without ceasing to be owed a permit. -/
theorem Waiters.setPc (hcpu : s.cpu = some id) (hb : ¬ s.Blocked id)
    (hin : (s.pc id).insideWait k = true → pc.insideWait k = true)
    (hpop : s.pc id ≠ .signalPop (.plain k)) : (s.setPc id pc).Waiters k := by
  have hother : ∀ j, s.Blocked j → (s.setPc id pc).pc j = s.pc j := fun j hj =>
    pc_setPc_of_ne fun he => hb (he ▸ hj)
  refine h.frame rfl rfl (fun _ => Iff.rfl) ?_ ?_ ?_
  · intro j hj
    by_cases hji : j = id
    · subst hji
      rcases hj with ⟨hready, hinside⟩ | hj
      · left
        refine ⟨hready, ?_⟩
        rw [pc_setPc_self]
        exact hin hinside
      · exact absurd hj hpop
    · unfold Owed Woken
      rw [pc_setPc_of_ne hji]
      exact hj
  · intro j hj
    rw [hother j hj]
    exact h.point j hj
  · intro j hjc hj
    rw [hother j hj]
    exact h.running j hjc hj

/-- The running task is blocked only where it is halted. -/
theorem Waiters.not_blocked (hcpu : s.cpu = some id)
    (hpc : s.pc id ≠ .waitHalted (.wait k)) : ¬ s.Blocked id :=
  fun hb => hpc (h.running id hcpu hb)

omit h

theorem Owed.setPc_of_ne {l : SemId} {sem : Semaphore} (h : s.Owed k j) (hj : j ≠ id) :
    ((s.setSemaphore l sem).setPc id pc).Owed k j := by
  have hpc : ((s.setSemaphore l sem).setPc id pc).pc j = s.pc j := pc_setPc_of_ne hj
  unfold Owed Woken at h ⊢
  rw [hpc]
  exact h

include h

/-- A task that is not blocked moves on with another counter; `hpermits` says who is owed it. -/
theorem Waiters.setSemaphore (hb : ¬ s.Blocked id) {sem : Semaphore}
    (hqueue : sem.waitingTasks = s.fifo k)
    (hpermits : ∀ F : Finset TaskId, s.count (.plain k) ≤ F.card → (∀ j ∈ F, s.Owed k j) →
      ∃ F' : Finset TaskId, sem.count ≤ F'.card ∧
        ∀ j ∈ F', ((s.setSemaphore (.plain k) sem).setPc id pc).Owed k j) :
    ((s.setSemaphore (.plain k) sem).setPc id pc).Waiters k := by
  have hsem : (s.setSemaphore (.plain k) sem).semaphores (.plain k) = sem := update_self ..
  have hfifo : ((s.setSemaphore (.plain k) sem).setPc id pc).fifo k = s.fifo k := by
    rw [← hqueue]
    exact congrArg Semaphore.waitingTasks hsem
  have hother : ∀ j, s.Blocked j →
      ((s.setSemaphore (.plain k) sem).setPc id pc).pc j = s.pc j := fun j hj =>
    pc_setPc_of_ne fun he => hb (he ▸ hj)
  refine ⟨hfifo ▸ h.nodup, fun j => by rw [hfifo]; exact h.mem_iff j, fun j hj => ?_,
    fun j hjc hj => ?_, fun hne => ?_⟩
  · rw [hother j hj]
    exact h.point j hj
  · rw [hother j hj]
    exact h.running j hjc hj
  · obtain ⟨F, hF, hall⟩ := h.permits (hfifo ▸ hne)
    obtain ⟨F', hF', hall'⟩ := hpermits F hF hall
    exact ⟨F', (congrArg Semaphore.count hsem).trans_le hF', hall'⟩

/-- Taking a permit: the task that takes it was owed one, or one permit fewer is owed. -/
theorem Waiters.acquire (hb : ¬ s.Blocked id) {v : ℕ} (hv : s.count (.plain k) = v) :
    ((s.setSemaphore (.plain k) { s.semaphores (.plain k) with count := v - 1 }).setPc id
      pc).Waiters k := by
  refine h.setSemaphore hb rfl fun F hF hall => ⟨F.erase id, ?_, fun j hj => ?_⟩
  · have hcard : F.card - 1 ≤ (F.erase id).card := Finset.pred_card_le_card_erase
    show v - 1 ≤ _
    omega
  · obtain ⟨hji, hjF⟩ := Finset.mem_erase.mp hj
    exact (hall j hjF).setPc_of_ne hji

/-- Going to sleep: the counter is at zero, so nothing is owed. -/
theorem Waiters.enqueue (hsch : s.Scheduled) (hcpu : s.cpu = some id)
    (hpc : s.pc id = .waitEnqueue (.wait k)) (hzero : s.count (.plain k) = 0) :
    ((s.enqueueOnSemaphore (.plain k)).setPc id (.waitHalted (.wait k))).Waiters k := by
  have hb : ¬ s.Blocked id := h.not_blocked hcpu (by rw [hpc]; simp)
  unfold enqueueOnSemaphore
  cases hc : s.tm.currentTask with
  | none =>
    -- a dead task's code finds no current task to enqueue
    exact h.setPc hcpu hb (fun _ => by simp [Pc.insideWait]) (by rw [hpc]; simp)
  | some c =>
    obtain rfl : c = id := hsch.current_eq hc hcpu
    set t : SyncSystem := SyncSystem.setPc { s.setSemaphore (.plain k)
      ((s.semaphores (.plain k)).pushBack c) with tm := s.tm.blockCurrentTask } c
      (.waitHalted (.wait k)) with ht
    have hfifo : t.fifo k = s.fifo k ++ [c] := by
      show (update s.semaphores _ _ _).waitingTasks = _
      rw [update_self]
      rfl
    have hcount : t.count (.plain k) = 0 := by
      show (update s.semaphores _ _ _).count = _
      rw [update_self]
      exact hzero
    have hblocked : ∀ j, t.Blocked j ↔ c = j ∨ s.Blocked j := by
      intro j
      show s.tm.blockCurrentTask.taskStates[j]? = some .blocked ↔ _
      rw [taskStates_blockCurrentTask, hc]
      by_cases hj : c = j
      · simp [hj]
      · simp [hj, Blocked]
    refine ⟨?_, fun j => ?_, fun j hj => ?_, fun j hjc hj => ?_, fun _ => ?_⟩
    · rw [hfifo, nodup_append]
      refine ⟨h.nodup, by simp, ?_⟩
      intro a ha b hbm hab
      rw [mem_singleton] at hbm
      exact hb ((h.mem_iff c).mp (by rw [← hbm, ← hab]; exact ha))
    · rw [hfifo, mem_append, mem_singleton, hblocked, h.mem_iff]
      exact ⟨fun hj => hj.elim .inr fun he => .inl he.symm,
        fun hj => hj.elim (fun he => .inr he.symm) .inl⟩
    · rcases (hblocked j).mp hj with rfl | hj
      · exact .inl pc_setPc_self
      · have hjc : j ≠ c := fun he => hb (he ▸ hj)
        rw [ht, pc_setPc_of_ne hjc]
        exact h.point j hj
    · have hjc : j = c := some.inj (hjc.symm.trans hcpu)
      rw [hjc]
      exact pc_setPc_self
    · exact ⟨∅, by rw [hcount]; simp, fun j hj => by simp at hj⟩

/-- Adding a permit: it is owed to the task that added it until that task has dequeued. -/
theorem Waiters.add (hcpu : s.cpu = some id) (hpc : s.pc id = .signalAdd (.plain k)) :
    ((s.setSemaphore (.plain k) (s.semaphores (.plain k)).fetchAdd).setPc id
      (.signalPop (.plain k))).Waiters k := by
  have hb : ¬ s.Blocked id := h.not_blocked hcpu (by rw [hpc]; simp)
  have hcount : (s.semaphores (.plain k)).fetchAdd.count ≤ s.count (.plain k) + 1 := Nat.mod_le _ _
  refine h.setSemaphore hb rfl fun F hF hall => ?_
  have hnot : id ∉ F := by
    intro hmem
    rcases hall id hmem with ⟨-, hin⟩ | hpop
    · rw [hpc] at hin
      cases hin
    · rw [hpc] at hpop
      cases hpop
  refine ⟨insert id F, ?_, fun j hj => ?_⟩
  · rw [Finset.card_insert_of_notMem hnot]
    omega
  · rcases Finset.mem_insert.mp hj with rfl | hjF
    · exact .inr pc_setPc_self
    · exact (hall j hjF).setPc_of_ne fun he => hnot (he ▸ hjF)

/-- Dequeuing: the permit that was owed to the signalling task is now owed to the task it woke. -/
theorem Waiters.pop (hsch : s.Scheduled) (hcpu : s.cpu = some id)
    (hpc : s.pc id = .signalPop (.plain k)) :
    ((s.popAndUnblock (.plain k)).setPc id .idle).Waiters k := by
  have hb : ¬ s.Blocked id := h.not_blocked hcpu (by rw [hpc]; simp)
  unfold popAndUnblock
  cases hq : (s.semaphores (.plain k)).waitingTasks with
  | nil =>
    have hnone : ∀ j, ¬ s.Blocked j := fun j hj => by
      have hmem := (h.mem_iff j).mpr hj
      rw [fifo, hq] at hmem
      cases hmem
    have hempty : (s.setPc id .idle).fifo k = [] := hq
    exact ⟨by rw [hempty]; exact nodup_nil,
      fun j => ⟨fun hj => (by rw [hempty] at hj; cases hj), fun hj => absurd hj (hnone j)⟩,
      fun j hj => absurd hj (hnone j), fun j _ hj => absurd hj (hnone j),
      fun hne => absurd hempty hne⟩
  | cons j rest =>
    set t : SyncSystem := SyncSystem.setPc { s.setSemaphore (.plain k)
      { s.semaphores (.plain k) with waitingTasks := rest } with tm := s.tm.unblockTask j } id
      .idle with ht
    have hold : s.fifo k = j :: rest := hq
    have hfifo : t.fifo k = rest := by
      show (update s.semaphores _ _ _).waitingTasks = _
      rw [update_self]
    have hcount : t.count (.plain k) = s.count (.plain k) := by
      show (update s.semaphores _ _ _).count = _
      rw [update_self]
      rfl
    have hjb : s.Blocked j := (h.mem_iff j).mp (by rw [hold]; exact mem_cons_self)
    have hji : j ≠ id := fun he => hb (he ▸ hjb)
    have hnodup := h.nodup
    rw [hold, nodup_cons] at hnodup
    have hother : ∀ i, i ≠ id → t.pc i = s.pc i := fun i hi => pc_setPc_of_ne hi
    have hblocked : ∀ i, t.Blocked i ↔ i ≠ j ∧ s.Blocked i := fun i => blocked_unblockTask
    -- the woken task is not running, so it is on its way to the head of the loop
    have hjload : s.pc j = .waitLoad (.wait k) := by
      refine (h.point j hjb).resolve_left fun hhalt => ?_
      have hjcpu := hsch.exclusive_cpu j (by rw [hhalt]; rfl)
      exact hji (some.inj (hjcpu.symm.trans hcpu))
    refine ⟨hfifo ▸ hnodup.2, fun i => ?_, fun i hi => ?_, fun i hic hi => ?_, fun _ => ?_⟩
    · rw [hfifo, hblocked, ← h.mem_iff, hold, mem_cons]
      constructor
      · intro hi
        exact ⟨fun he => hnodup.1 (he ▸ hi), .inr hi⟩
      · rintro ⟨hne, hi | hi⟩
        · exact absurd hi hne
        · exact hi
    · obtain ⟨-, hib⟩ := (hblocked i).mp hi
      rw [hother i fun he => hb (he ▸ hib)]
      exact h.point i hib
    · obtain ⟨-, hib⟩ := (hblocked i).mp hi
      rw [hother i fun he => hb (he ▸ hib)]
      exact h.running i hic hib
    · obtain ⟨F, hF, hall⟩ := h.permits (by rw [hold]; simp)
      have hjF : j ∉ F := by
        intro hmem
        rcases hall j hmem with ⟨hready, -⟩ | hpop
        · rw [hjb] at hready
          cases hready
        · rw [hjload] at hpop
          cases hpop
      refine ⟨insert j (F.erase id), ?_, fun i hi => ?_⟩
      · have hcard : F.card - 1 ≤ (F.erase id).card := Finset.pred_card_le_card_erase
        have hjE : j ∉ F.erase id := fun hmem => hjF (Finset.mem_of_mem_erase hmem)
        rw [Finset.card_insert_of_notMem hjE, hcount]
        omega
      · rcases Finset.mem_insert.mp hi with rfl | hiE
        · left
          refine ⟨?_, ?_⟩
          · show (s.tm.unblockTask i).taskStates[i]? = some .ready
            rw [taskStates_unblockTask, if_pos ⟨rfl, hjb⟩]
          · rw [hother i hji, hjload]
            simp [Pc.insideWait]
        · obtain ⟨hii, hiF⟩ := Finset.mem_erase.mp hiE
          rcases hall i hiF with ⟨hready, hin⟩ | hpop
          · left
            refine ⟨taskStates_unblockTask_of_awake hready (by decide), ?_⟩
            rw [hother i hii]
            exact hin
          · right
            rw [hother i hii]
            exact hpop

/-- Every step inside the primitives keeps the FIFO and the sleeping tasks in step. -/
theorem Waiters.advance (hsch : s.Scheduled) (hconf : s.Confined k)
    (hrun : s.Runnable) (hcpu : s.cpu = some id) (hs : s.advance id = some (s', ev)) :
    s'.Waiters k := by
  have hhalt : s.pc id ≠ .waitHalted (.wait k) := fun hpc => by
    simp [SyncSystem.advance, hpc] at hs
  have hb := h.not_blocked hcpu hhalt
  rcases advance_cases (hconf.usesOnly id) hs with
    ⟨pc, rfl, -, hpop, hin⟩ | ⟨pc, v, rfl, -, -, hv⟩ | ⟨hpc, rfl⟩ | ⟨hpc, rfl⟩ | ⟨hpc, rfl⟩
  · exact h.setPc hcpu hb hin (hpop _).1
  · exact h.acquire hb hv
  · have hzero := hrun id hcpu
    rw [hpc] at hzero
    exact h.enqueue hsch hcpu hpc hzero
  · exact h.add hcpu hpc
  · exact h.pop hsch hcpu hpc

omit h

/-! ### Interrupts, births and deaths -/

theorem Owed.endHalt (h : s.Owed k id) : s.endHalt.Owed k id := by
  have htm := s.endHalt_tm.1
  rcases h with ⟨hready, hin⟩ | hpop
  · refine .inl ⟨htm ▸ hready, ?_⟩
    rw [pc_endHalt]
    split_ifs
    · rw [Pc.insideWait_interrupted]
      exact hin
    · exact hin
  · right
    rw [pc_endHalt, hpop]
    split_ifs <;> rfl

theorem Waiters.endHalt (h : s.Waiters k) (hb : ∀ id, s.cpu = some id → ¬ s.Blocked id) :
    s.endHalt.Waiters k := by
  obtain ⟨htm, hcpu⟩ := s.endHalt_tm
  have hpc : ∀ id, s.Blocked id → s.endHalt.pc id = s.pc id := by
    intro id hid
    rw [pc_endHalt, if_neg]
    exact fun hc => hb id hc hid
  refine h.frame ?_ ?_ (fun id => ?_) (fun id hid => hid.endHalt) (fun id hid => ?_)
    fun id hc hid => ?_
  · unfold fifo
    rw [s.endHalt_fields.1]
  · rw [count_endHalt]
  · unfold Blocked
    rw [htm]
  · rw [hpc id hid]
    exact h.point id hid
  · rw [hcpu] at hc
    exact absurd hid (hb id hc)

theorem timerInterruptHandler_semaphores : s.timerInterruptHandler.semaphores = s.semaphores := by
  unfold timerInterruptHandler
  dsimp only
  split_ifs
  · exact abandon_fields.1
  · rfl

/-- The timer handler moves only the code that executes without a current task. -/
theorem pc_timerInterruptHandler (id : TaskId) : s.timerInterruptHandler.pc id = s.pc id ∨
    ((s.tm.currentTask = none ∧ s.cpu = some id) ∧ s.timerInterruptHandler.pc id = .exited) := by
  unfold timerInterruptHandler
  dsimp only
  split_ifs
  · rw [pc_abandon]
    split_ifs with hz
    · exact .inr ⟨hz, rfl⟩
    · exact .inl rfl
  · exact .inl rfl

theorem Waiters.tick (h : s.Waiters k) (hsch : s.Scheduled) (hconf : s.Confined k)
    (hint : s.interruptible = true) (hkeep : s.KeepsWaiters k .tick) :
    s.endHalt.timerInterruptHandler.Waiters k := by
  obtain ⟨htm, hcpu⟩ := s.endHalt_tm
  obtain ⟨-, hready, htm', -⟩ := hsch.tick hint
  have hstates : ∀ id : TaskId, s.endHalt.timerInterruptHandler.tm.taskStates[id]? =
      s.tm.taskStates[id]? := by
    intro id
    rw [htm', taskStates_schedule]
  have hzombie : ∀ id, s.endHalt.tm.currentTask = none ∧ s.endHalt.cpu = some id →
      s.tm.taskStates[id]? = some .dead ∧ s.pc id ≠ .signalPop (.plain k) := by
    rintro id ⟨hnone, hid⟩
    rw [htm] at hnone
    rw [hcpu] at hid
    exact ⟨hconf.zombie_dead hnone id hid, hkeep hnone id hid⟩
  refine h.frame ?_ ?_ (fun id => ?_) (fun id hid => ?_) (fun id hid => ?_) fun id hc hid => ?_
  · unfold fifo
    rw [timerInterruptHandler_semaphores, s.endHalt_fields.1]
  · unfold count
    rw [timerInterruptHandler_semaphores, s.endHalt_fields.1]
  · unfold Blocked
    rw [hstates]
  · rcases pc_timerInterruptHandler (s := s.endHalt) id with hpc | ⟨hz, -⟩
    · have howed := hid.endHalt
      unfold Owed Woken at howed ⊢
      rw [hpc, hstates]
      rwa [htm] at howed
    · -- a dead task is not woken, and it is not switched away from inside `signal`
      obtain ⟨hdead, hpop⟩ := hzombie id hz
      rcases hid with ⟨hrdy, -⟩ | hp
      · rw [hdead] at hrdy
        cases hrdy
      · exact absurd hp hpop
  · rcases pc_timerInterruptHandler (s := s.endHalt) id with hpc | ⟨hz, -⟩
    · rw [hpc, pc_endHalt]
      rcases h.point id hid with hp | hp <;> rw [hp] <;> split_ifs
      · exact .inr rfl
      · exact .inl rfl
      · exact .inr rfl
      · exact .inr rfl
    · obtain ⟨hdead, -⟩ := hzombie id hz
      rw [Blocked, hdead] at hid
      cases hid
  · rw [Blocked, hready id hc] at hid
    cases hid

/-- The death of the current task outside `wait`. -/
theorem Waiters.exitCurrentTask (h : s.Waiters k) (hsch : s.Scheduled)
    (hout : ∀ id ∈ s.tm.currentTask, (s.pc id).insideWait k = false)
    (hsem : s'.semaphores = s.semaphores) (hpc : s'.pc = s.pc) (hcpu : s'.cpu = s.cpu)
    (htm : s'.tm = s.tm.exitCurrentTask) : s'.Waiters k := by
  have hstates : ∀ id : TaskId, s.tm.currentTask ≠ some id →
      s'.tm.taskStates[id]? = s.tm.taskStates[id]? := by
    intro id hid
    rw [htm, taskStates_exitCurrentTask, if_neg hid]
  have hcur : ∀ id, s.tm.currentTask = some id → ¬ s.Blocked id := by
    intro id hid hb
    have hin := hout id hid
    rw [h.running id (hsch.current_cpu id hid) hb] at hin
    simp [Pc.insideWait] at hin
  refine h.frame (by unfold fifo; rw [hsem]) (by unfold count; rw [hsem]) (fun id => ?_)
    (fun id hid => ?_) (fun id hid => hpc ▸ h.point id hid) fun id hc hid => ?_
  · constructor
    · intro hb
      exact blocked_of_exitCurrentTask (htm ▸ hb)
    · intro hb
      unfold Blocked
      rw [hstates id fun hid => hcur id hid hb]
      exact hb
  · by_cases hid' : s.tm.currentTask = some id
    · rcases hid with ⟨-, hin⟩ | hpop
      · rw [hout id hid'] at hin
        cases hin
      · exact .inr (hpc ▸ hpop)
    · unfold Owed Woken at hid ⊢
      rw [hpc, hstates id hid']
      exact hid
  · rw [hpc]
    exact h.running id (hcpu ▸ hc) hid

theorem Waiters.keyboard (h : s.Waiters k) (hsch : s.Scheduled) (hconf : s.Confined k)
    (hint : s.interruptible = true) (ctrlC : Bool) (hkeep : s.KeepsWaiters k (.keyboard ctrlC)) :
    (s.endHalt.keyboardInterruptHandler ctrlC).Waiters k := by
  have htm := s.endHalt_tm.1
  unfold keyboardInterruptHandler
  cases ctrlC with
  | false =>
    have hend := h.endHalt hkeep
    split
    · rw [if_neg]
      · exact hend
      · simp
    · exact hend
  | true =>
    have hb : ∀ id, s.cpu = some id → ¬ s.Blocked id := by
      intro id hid hblocked
      cases hc : s.tm.currentTask with
      | none =>
        rw [Blocked, hconf.zombie_dead hc id hid] at hblocked
        cases hblocked
      | some c =>
        have hin := hkeep c hc
        rw [hsch.current_eq hc hid, h.running id hid hblocked] at hin
        simp [Pc.insideWait] at hin
    have hend := h.endHalt hb
    split
    · split_ifs
      · refine hend.exitCurrentTask (hsch.endHalt hint).1 (fun j hj => ?_) rfl rfl rfl rfl
        rw [htm] at hj
        rw [pc_endHalt]
        split_ifs
        · rw [Pc.insideWait_interrupted]
          exact hkeep j hj
        · exact hkeep j hj
      · exact hend
    · exact hend

/-- A step that touches neither the semaphores nor the program points, and no state except that a
task may be born or a dead one removed. -/
theorem Waiters.setTm (h : s.Waiters k) (hsem : s'.semaphores = s.semaphores)
    (hpc : s'.pc = s.pc) (hcpu : s'.cpu = s.cpu)
    (hblocked : ∀ id, s'.Blocked id ↔ s.Blocked id)
    (hready : ∀ id : TaskId, s.tm.taskStates[id]? = some .ready →
      s'.tm.taskStates[id]? = some .ready) : s'.Waiters k := by
  refine h.frame (by unfold fifo; rw [hsem]) (by unfold count; rw [hsem]) hblocked
    (fun id hid => ?_) (fun id hid => hpc ▸ h.point id hid) fun id hc hid => ?_
  · rcases hid with ⟨hrdy, hin⟩ | hpop
    · exact .inl ⟨hready id hrdy, hpc ▸ hin⟩
    · exact .inr (hpc ▸ hpop)
  · rw [hpc]
    exact h.running id (hcpu ▸ hc) hid

/-- Every undisturbed step keeps the FIFO and the sleeping tasks in step. -/
theorem Waiters.step (h : s.Waiters k) (hsch : s.Scheduled)
    (hconf : s.Confined k) (hrun : s.Runnable) (hguard : s.Undisturbed k a)
    (hs : s.step a = some (s', ev)) : s'.Waiters k := by
  obtain ⟨honly, hkeep⟩ := hguard
  have hcall : ∀ {id}, s.caller = some id → s.cpu = some id ∧ ¬ s.Blocked id ∧
      (s.pc id).insideWait k = false ∧ s.pc id ≠ .signalPop (.plain k) := fun hc => by
    obtain ⟨hcpu, -, hidle⟩ := caller_eq_some.mp hc
    exact ⟨hcpu, h.not_blocked hcpu (by rw [hidle]; simp), by rw [hidle]; rfl, by rw [hidle]; simp⟩
  cases step_cases hs with
  | spawnDynamic targetPml4 stack hc =>
    have hchild := hconf.pc_setPc_nextId
    have hfresh : s.tm.taskStates[s.nextId]? = none := by
      by_contra hne
      have hreg := hsch.consistent.isSome_iff.mp (isSome_iff_ne_none.mpr hne)
      exact absurd (hconf.registered_lt _ hreg) (Nat.lt_irrefl _)
    refine h.setTm rfl hchild rfl (fun j => ?_) fun j hj => ?_
    · show (s.tm.spawnTask s.nextId targetPml4 .userMode stack).1.taskStates[j]? = some .blocked ↔
        s.tm.taskStates[j]? = some .blocked
      rcases Wait4System.spawnTask_cases with hsame | ⟨task, -, hnew⟩
      · rw [hsame]
      · rw [hnew, taskStates_setTaskState]
        split_ifs with hj
        · rw [← hj, hfresh]
          simp
        · exact Iff.rfl
    · show (s.tm.spawnTask s.nextId targetPml4 .userMode stack).1.taskStates[j]? = some .ready
      have hne : j ≠ s.nextId := fun he => by
        rw [he, hfresh] at hj
        cases hj
      rw [Wait4System.taskStates_spawnTask hne]
      exact hj
  | @sysExit id hc =>
    obtain ⟨hcpu, hb, hin, hpop⟩ := hcall hc
    have hmove : (s.setPc id .exited).Waiters k :=
      h.setPc hcpu hb (fun hi => by rw [hin] at hi; cases hi) hpop
    have hschMove : (s.setPc id .exited).Scheduled :=
      hsch.setPc hcpu (caller_eq_some.mp hc).2.1
    refine hmove.exitCurrentTask hschMove (fun j hj => ?_) rfl rfl rfl rfl
    obtain rfl : j = id := hschMove.current_eq hj hcpu
    rw [pc_setPc_self]
    rfl
  | call hentry hc howns =>
    obtain ⟨hcpu, hb, hin, hpop⟩ := hcall hc
    exact h.setPc hcpu hb (fun hi => by rw [hin] at hi; cases hi) hpop
  | notifyOne cv => exact honly.elim
  | notifyAll cv => exact honly.elim
  | advance hcpu hs => exact h.advance hsch hconf hrun hcpu hs
  | tick hint => exact h.tick hsch hconf hint hkeep
  | keyboard ctrlC hint => exact h.keyboard hsch hconf hint ctrlC hkeep
  | @reap c hcpu hdead =>
    refine h.setTm rfl rfl rfl (fun j => ?_) fun j hj => ?_
    · show (s.tm.kill c).1.taskStates[j]? = some .blocked ↔ s.tm.taskStates[j]? = some .blocked
      rw [taskStates_kill hdead]
      split_ifs with hj hp
      · rw [← hj, hdead]
        simp
      · exact absurd hp.2 (hkeep j hp.1)
      · exact Iff.rfl
    · have hne : c ≠ j := fun he => by
        rw [← he, hdead] at hj
        cases hj
      rw [taskStates_kill hdead, if_neg hne, hj]
      simp

/-! ### Signals in progress -/

/-- A task that has added a permit and not dequeued yet is registered, and if it is dead it still
executes. -/
def SignalsLive (k : ℕ) (s : SyncSystem) : Prop :=
  ∀ id, s.pc id = .signalPop (.plain k) →
    ∃ state, s.tm.taskStates[id]? = some state ∧ (state = .dead → s.cpu = some id)

/-- A step that moves no task into `signal` and whose effect on the recorded states is harmless. -/
theorem SignalsLive.frame (h : s.SignalsLive k) (hcpu : s'.cpu = s.cpu)
    (hpc : ∀ id, s'.pc id = .signalPop (.plain k) → s.pc id = .signalPop (.plain k))
    (hstates : ∀ (id : TaskId) (state : TaskState), s.pc id = .signalPop (.plain k) →
      s.tm.taskStates[id]? = some state →
      ∃ state', s'.tm.taskStates[id]? = some state' ∧
        (state' = .dead → state = .dead ∨ s.cpu = some id)) : s'.SignalsLive k := by
  intro id hid
  obtain ⟨state, hst, hdead⟩ := h id (hpc id hid)
  obtain ⟨state', hst', hdead'⟩ := hstates id state (hpc id hid) hst
  refine ⟨state', hst', fun he => ?_⟩
  rw [hcpu]
  rcases hdead' he with hd | hc
  · exact hdead hd
  · exact hc

theorem state_unblockTask {tm : TaskManager} {state : TaskState}
    (h : tm.taskStates[id]? = some state) :
    ∃ state', (tm.unblockTask j).taskStates[id]? = some state' ∧
      (state' = .dead → state = .dead) := by
  rw [taskStates_unblockTask]
  split_ifs
  · exact ⟨.ready, rfl, fun he => by cases he⟩
  · exact ⟨state, h, fun he => he⟩

theorem SignalsLive.setPc (h : s.SignalsLive k) (hpc : pc ≠ .signalPop (.plain k)) :
    (s.setPc id pc).SignalsLive k := by
  refine h.frame rfl (fun j hj => ?_) fun j state _ hst => ⟨state, hst, .inl⟩
  rw [pc_setPc] at hj
  split_ifs at hj
  · exact absurd hj hpc
  · exact hj

theorem SignalsLive.exitCurrentTask (h : s.SignalsLive k) (hsch : s.Scheduled)
    (hpc : s'.pc = s.pc) (hcpu : s'.cpu = s.cpu) (htm : s'.tm = s.tm.exitCurrentTask) :
    s'.SignalsLive k := by
  refine h.frame hcpu (fun j hj => hpc ▸ hj) fun j state _ hst => ?_
  rw [htm, taskStates_exitCurrentTask]
  split_ifs with hcur
  · exact ⟨.dead, rfl, fun _ => .inr (hsch.current_cpu j hcur)⟩
  · exact ⟨state, hst, .inl⟩

theorem SignalsLive.endHalt (h : s.SignalsLive k) : s.endHalt.SignalsLive k := by
  obtain ⟨htm, hcpu⟩ := s.endHalt_tm
  refine h.frame hcpu (fun j hj => ?_) fun j state _ hst => ⟨state, by rw [htm]; exact hst, .inl⟩
  rw [pc_endHalt] at hj
  split_ifs at hj
  · cases hpc : s.pc j <;> rw [hpc] at hj <;> first | exact hj | cases hj
  · exact hj

theorem SignalsLive.advance (h : s.SignalsLive k) (hsch : s.Scheduled) (hconf : s.Confined k)
    (hcpu : s.cpu = some id) (hs : s.advance id = some (s', ev)) : s'.SignalsLive k := by
  rcases advance_cases (hconf.usesOnly id) hs with
    ⟨pc, rfl, -, hpop, -⟩ | ⟨pc, v, rfl, hpc, -⟩ | ⟨-, rfl⟩ | ⟨-, rfl⟩ | ⟨-, rfl⟩
  · exact h.setPc (hpop _).2
  · have hsame : (s.setSemaphore (.plain k)
        { s.semaphores (.plain k) with count := v - 1 }).SignalsLive k := h
    refine hsame.setPc ?_
    rcases hpc with rfl | rfl <;> simp
  · have hsame : (s.enqueueOnSemaphore (.plain k)).SignalsLive k := by
      obtain ⟨htm, hcpu'⟩ := enqueueOnSemaphore_fields (s := s) (k := .plain k)
      refine h.frame hcpu' (fun j hj => pc_enqueueOnSemaphore ▸ hj) fun j state _ hst => ?_
      rw [htm, taskStates_blockCurrentTask]
      split_ifs
      · exact ⟨.blocked, rfl, fun he => by cases he⟩
      · exact ⟨state, hst, .inl⟩
    exact hsame.setPc (by simp)
  · intro j hj
    rw [pc_setPc] at hj
    split_ifs at hj with hji
    · -- the task that has just added its permit is the running one
      have hreg := hconf.cpu_registered hsch hcpu
      obtain ⟨state, hst⟩ := isSome_iff_exists.mp (hsch.consistent.isSome_iff.mpr hreg)
      exact ⟨state, hji ▸ hst, fun _ => hji ▸ hcpu⟩
    · exact h j hj
  · have hsame : (s.popAndUnblock (.plain k)).SignalsLive k := by
      unfold SyncSystem.popAndUnblock
      split
      · refine h.frame rfl (fun j hj => hj) fun j state _ hst => ?_
        obtain ⟨state', hst', hdead⟩ := state_unblockTask hst
        exact ⟨state', hst', fun he => .inl (hdead he)⟩
      · exact h
    exact hsame.setPc (by simp)

theorem entry_ne_signalPop {l : SemId} (h : a.entry = some pc) : pc ≠ .signalPop l := by
  cases a <;> cases h <;> exact Pc.noConfusion

/-- No undisturbed step removes a task that has a signal in progress. -/
theorem SignalsLive.step (h : s.SignalsLive k) (hsch : s.Scheduled)
    (hconf : s.Confined k) (hguard : s.Undisturbed k a) (hs : s.step a = some (s', ev)) :
    s'.SignalsLive k := by
  obtain ⟨honly, hkeep⟩ := hguard
  cases step_cases hs with
  | spawnDynamic targetPml4 stack hc =>
    have hmove : (s.setPc s.nextId .idle).SignalsLive k := h.setPc (by simp)
    refine hmove.frame rfl (fun j hj => hj) fun j state hj hst => ⟨state, ?_, .inl⟩
    have hne : j ≠ s.nextId := fun he => by
      rw [he, pc_setPc_self] at hj
      cases hj
    show (s.tm.spawnTask s.nextId targetPml4 .userMode stack).1.taskStates[j]? = some state
    rw [Wait4System.taskStates_spawnTask hne]
    exact hst
  | @sysExit id hc =>
    obtain ⟨hcpu, hid, -⟩ := caller_eq_some.mp hc
    have hmove : (s.setPc id .exited).SignalsLive k := h.setPc (by simp)
    have hschMove : (s.setPc id .exited).Scheduled := hsch.setPc hcpu hid
    exact hmove.exitCurrentTask hschMove rfl rfl rfl
  | call hentry hc howns => exact h.setPc (entry_ne_signalPop hentry)
  | notifyOne cv => exact honly.elim
  | notifyAll cv => exact honly.elim
  | advance hcpu hs => exact h.advance hsch hconf hcpu hs
  | tick hint =>
    obtain ⟨-, -, htm, -⟩ := hsch.tick hint
    intro j hj
    have hend : s.endHalt.pc j = .signalPop (.plain k) := by
      rcases pc_timerInterruptHandler (s := s.endHalt) j with hpc | ⟨-, hpc⟩
      · rwa [hpc] at hj
      · rw [hpc] at hj
        cases hj
    obtain ⟨htmEnd, hcpuEnd⟩ := s.endHalt_tm
    obtain ⟨state, hst, hdead⟩ := h.endHalt j hend
    rw [htmEnd] at hst
    refine ⟨state, by rw [htm, taskStates_schedule]; exact hst, fun he => ?_⟩
    -- a dead task in `signal` would be executing without being current, which the guard excludes
    rw [hcpuEnd] at hdead
    cases hcur : s.tm.currentTask with
    | none =>
      have hpc : s.pc j = .signalPop (.plain k) := by
        rw [pc_endHalt, if_pos (hdead he)] at hend
        cases hpc : s.pc j <;> rw [hpc] at hend <;> first | exact hend | cases hend
      exact absurd hpc (hkeep hcur j (hdead he))
    | some c =>
      have hcj : c = j := hsch.current_eq hcur (hdead he)
      have hlive := (hsch.consistent.current_live c hcur).2
      rw [hcj, hst, he] at hlive
      exact absurd rfl hlive
  | keyboard ctrlC hint =>
    unfold keyboardInterruptHandler
    split
    · split_ifs
      · exact h.endHalt.exitCurrentTask (hsch.endHalt hint).1 rfl rfl rfl
      · exact h.endHalt
    · exact h.endHalt
  | @reap c hcpu hdead =>
    refine h.frame rfl (fun j hj => hj) fun j state hj hst => ?_
    have hcj : c ≠ j := fun he => by
      obtain ⟨state', hst', hrunning⟩ := h j hj
      rw [← he, hdead] at hst'
      cases hst'
      have hjr := some.inj ((hrunning rfl).symm.trans hcpu)
      rw [he, hjr, hsch.reaper_ready] at hdead
      cases hdead
    rw [taskStates_kill hdead, if_neg hcj]
    split_ifs
    · exact ⟨.ready, rfl, fun he => by cases he⟩
    · exact ⟨state, hst, .inl⟩

/-! ### No wake-up is lost -/

theorem confined_initial (kernelPml4 targetPml4 stack₁ stack₂ : ℕ) (initialCount : ℕ → ℕ) :
    (initial kernelPml4 targetPml4 stack₁ stack₂ initialCount).Confined k where
  usesOnly _ := rfl
  registered_lt :=
    (Wait4System.Booted.initMultitasking kernelPml4 targetPml4 stack₁ stack₂).registered_lt
  fresh_idle _ _ := rfl
  zombie_dead _ id hid := by cases hid

theorem waiters_initial (kernelPml4 targetPml4 stack₁ stack₂ : ℕ) (initialCount : ℕ → ℕ) :
    (initial kernelPml4 targetPml4 stack₁ stack₂ initialCount).Waiters k := by
  have hnone : ∀ id, ¬ (initial kernelPml4 targetPml4 stack₁ stack₂ initialCount).Blocked id := by
    intro id hb
    change (TaskManager.setTaskState _ 2 .ready).taskStates[id]? = some .blocked at hb
    rw [taskStates_setTaskState] at hb
    split_ifs at hb
    · cases hb
    · change (TaskManager.setTaskState _ 1 .ready).taskStates[id]? = some .blocked at hb
      rw [taskStates_setTaskState] at hb
      split_ifs at hb
      · cases hb
      · simp [empty] at hb
  exact ⟨nodup_nil, fun id => ⟨fun hid => (by cases hid), fun hb => absurd hb (hnone id)⟩,
    fun id hb => absurd hb (hnone id), fun id _ hb => absurd hb (hnone id),
    fun hne => absurd rfl hne⟩

/-- A registered task has added a permit and not dequeued yet. -/
def SignalInProgress (k : ℕ) (s : SyncSystem) : Prop :=
  ∃ id ∈ s.tm.taskStates, s.pc id = .signalPop (.plain k)

/-- **No lost wake-up**, in every undisturbed run: when no `signal` is in progress, the counter is
positive and a task is blocked, which it is only inside `wait`, then another task inside the same
`wait` is ready and has not taken its permit. -/
theorem no_lost_wakeup (h : Transition.Reach step Initial (Undisturbed k) s)
    (hsignal : ¬ s.SignalInProgress k) (hcount : 0 < s.count (.plain k))
    (hblocked : s.Blocked id) : ∃ j, j ≠ id ∧ s.Woken k j := by
  have hinv : s.Scheduled ∧ s.Confined k ∧ s.Runnable ∧ s.Waiters k ∧ s.SignalsLive k := by
    refine h.invariant (P := fun s =>
      s.Scheduled ∧ s.Confined k ∧ s.Runnable ∧ s.Waiters k ∧ s.SignalsLive k) ?_ ?_
    · rintro s ⟨kernelPml4, targetPml4, stack₁, stack₂, initialCount, rfl⟩
      exact ⟨scheduled_initial _ _ _ _ _, confined_initial _ _ _ _ _,
        fun id hid => (by cases hid), waiters_initial _ _ _ _ _, fun id hid => (by cases hid)⟩
    · rintro s a s' e ⟨hsch, hconf, hrun, hwait, hlive⟩ hguard hs
      refine ⟨hsch.step hs, hconf.step hsch hguard hs, hrun.step hsch ?_ hs,
        hwait.step hsch hconf hrun hguard hs, hlive.step hsch hconf hguard hs⟩
      cases a with
      | keyboard ctrlC =>
        rintro ⟨j, -, -, hj⟩
        rw [Pc.inCondHalt_of_usesOnly (hconf.usesOnly j)] at hj
        cases hj
      | _ => trivial
  obtain ⟨-, -, -, hwait, hlive⟩ := hinv
  have hne : s.fifo k ≠ [] := fun he => by
    have hmem := (hwait.mem_iff id).mpr hblocked
    rw [he] at hmem
    cases hmem
  obtain ⟨F, hF, hall⟩ := hwait.permits hne
  obtain ⟨j, hj⟩ := Finset.card_pos.mp (Nat.lt_of_lt_of_le hcount hF)
  rcases hall j hj with hwoken | hpop
  · refine ⟨j, fun he => ?_, hwoken⟩
    have hready := hwoken.1
    rw [he, hblocked] at hready
    cases hready
  · obtain ⟨state, hst, -⟩ := hlive j hpop
    have hmem : j ∈ s.tm.taskStates :=
      Std.ExtTreeMap.mem_iff_isSome_getElem?.mpr (by rw [hst]; rfl)
    exact absurd ⟨j, hmem, hpop⟩ hsignal

/-- What a finite check of the recorded states says about every task. -/
theorem of_all_taskStates {tm : TaskManager} {p : TaskId × TaskState → Bool}
    (h : tm.taskStates.toList.all p = true) {state : TaskState}
    (hid : tm.taskStates[id]? = some state) : p (id, state) = true :=
  all_eq_true.mp h _ (Std.ExtTreeMap.mem_toList_iff_getElem?_eq_some.mpr hid)

/-- Tasks 2 and 3 sleep on semaphore 5 and task 4 signals it: task 2 is woken, task 3 sleeps, and
the permit is in the counter. -/
theorem no_lost_wakeup_one_signal : ∃ s,
    Transition.Reach step Initial (Undisturbed 5) s ∧ ¬ s.SignalInProgress 5 ∧
    0 < s.count (.plain 5) ∧ s.Blocked 3 ∧ ∃ j, j ≠ 3 ∧ s.Woken 5 j := by
  obtain ⟨⟨s, evs⟩, hrun, hpos, hb, hall⟩ :
      ∃ r ∈ Transition.run (Transition.restrict (Undisturbed 5) step)
        (initial 0 1 0x10000 0x20000 fun _ => 0)
        [.tick, .tick, .spawnDynamic 2 (some 0x30000), .spawnDynamic 3 (some 0x40000),
          .wait 5, .advance, .advance, .advance, .advance, .tick, .tick,
          .wait 5, .advance, .advance, .advance, .advance, .tick, .signal 5, .advance, .advance],
      0 < r.1.count (.plain 5) ∧ r.1.Blocked 3 ∧
        (r.1.tm.taskStates.toList.all fun p => r.1.pc p.1 ≠ .signalPop (.plain 5)) = true := by
    decide
  have hreach : Transition.Reach step Initial (Undisturbed 5) s :=
    Transition.Reach.of_run_restrict (.start ⟨0, 1, 0x10000, 0x20000, fun _ => 0, rfl⟩) hrun
  have hsignal : ¬ s.SignalInProgress 5 := by
    rintro ⟨j, hj, hpop⟩
    rw [Std.ExtTreeMap.mem_iff_isSome_getElem?] at hj
    obtain ⟨state, hst⟩ := Option.isSome_iff_exists.mp hj
    exact of_decide_eq_true (of_all_taskStates hall hst) hpop
  exact ⟨s, hreach, hsignal, hpos, hb, no_lost_wakeup hreach hsignal hpos hb⟩

/-- A key ends the `hlt` of task 2, which is blocked on semaphore 5 and enqueues itself a second
time; task 3 enqueues itself after it.  The first signal wakes task 2, which takes the permit and
leaves; the second is spent on its stale entry.  The permit stays in the counter, task 3 sleeps,
and no other task is inside `wait` or `signal`. -/
theorem stale_entry_loses_wakeup : ∃ s,
    Transition.Reach step Initial Transition.anyAction s ∧ ¬ s.SignalInProgress 5 ∧
    0 < s.count (.plain 5) ∧ s.Blocked 3 ∧ (s.pc 3).insideWait 5 = true ∧
    ¬ ∃ j, j ≠ 3 ∧ s.Woken 5 j := by
  obtain ⟨⟨s, evs⟩, hrun, hpos, hblocked, hpc, hall⟩ :
      ∃ r ∈ Transition.run step (initial 0 1 0x10000 0x20000 fun _ => 0)
        [.tick, .tick, .spawnDynamic 2 (some 0x30000), .spawnDynamic 3 (some 0x40000),
          .wait 5, .advance, .advance, .advance, .advance, .keyboard false,
          .advance, .advance, .advance, .advance, .tick, .tick,
          .wait 5, .advance, .advance, .advance, .advance, .tick,
          .signal 5, .advance, .advance, .tick, .tick, .advance, .advance, .advance, .tick,
          .signal 5, .advance, .advance],
      0 < r.1.count (.plain 5) ∧ r.1.Blocked 3 ∧ r.1.pc 3 = .waitLoad (.wait 5) ∧
        (r.1.tm.taskStates.toList.all fun p => p.1 = 3 ∨ r.1.pc p.1 = .idle) = true := by decide
  have hpc : s.pc 3 = .waitLoad (.wait 5) := hpc
  have hidle : ∀ (j : TaskId) (state : TaskState), s.tm.taskStates[j]? = some state → j ≠ 3 →
      s.pc j = .idle := fun j state hst hj =>
    (of_decide_eq_true (of_all_taskStates hall hst)).resolve_left hj
  refine ⟨s, Transition.Reach.of_run (.start ⟨0, 1, 0x10000, 0x20000, fun _ => 0, rfl⟩) hrun,
    ?_, hpos, hblocked, by rw [hpc]; rfl, ?_⟩
  · rintro ⟨j, hj, hpop⟩
    rw [Std.ExtTreeMap.mem_iff_isSome_getElem?] at hj
    obtain ⟨state, hst⟩ := Option.isSome_iff_exists.mp hj
    by_cases hj3 : j = 3
    · rw [hj3, hpc] at hpop
      cases hpop
    · rw [hidle j state hst hj3] at hpop
      cases hpop
  · rintro ⟨j, hj3, hready, hin⟩
    rw [hidle j .ready hready hj3] at hin
    cases hin

end SyncSystem

end NwinOs.Core
