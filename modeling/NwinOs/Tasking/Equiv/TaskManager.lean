import NwinOs.Tasking.TaskManager
import NwinOs.Transition

/-!
# Consistency of the task manager

`Consistent` ties the four fields of `TaskManager` together: the ready queue has no duplicates
and holds only registered ready tasks, every ready task is queued or current, the two maps have
the same keys, and the current task is registered and not dead.

Two disciplines maintain the queue.  `setTaskState` pushes on a change to `ready` and removes on a
change away from it; `schedule` pushes with a membership check and pops without touching the
state.  `Consistent.update` says what one state change does, with the registry and the current
task allowed to change along with it, and every operation except `schedule` is an instance of it;
`Consistent.schedule` is the other discipline.
-/

namespace NwinOs.Tasking

open Std.ExtTreeMap List Option

namespace TaskManager

variable {tm : TaskManager} {id j : TaskId} {state : TaskState}

/-! ### What the operations do to the fields -/

@[simp] theorem taskRegistry_setTaskState :
    (tm.setTaskState id state).taskRegistry = tm.taskRegistry := by
  unfold setTaskState; dsimp only; split_ifs <;> rfl

@[simp] theorem currentTask_setTaskState :
    (tm.setTaskState id state).currentTask = tm.currentTask := by
  unfold setTaskState; dsimp only; split_ifs <;> rfl

theorem getElem?_insert {α : Type} (m : Std.ExtTreeMap TaskId α) (a : α) :
    (m.insert id a)[j]? = if id = j then some a else m[j]? := by
  rw [Std.ExtTreeMap.getElem?_insert]
  simp only [Nat.compare_eq_eq]

theorem getElem?_erase {α : Type} (m : Std.ExtTreeMap TaskId α) :
    (m.erase id)[j]? = if id = j then none else m[j]? := by
  rw [Std.ExtTreeMap.getElem?_erase]
  simp only [Nat.compare_eq_eq]

theorem taskStates_setTaskState : (tm.setTaskState id state).taskStates[j]?
      = if id = j then some state else tm.taskStates[j]? := by
  have h : (tm.setTaskState id state).taskStates = tm.taskStates.insert id state := by
    unfold setTaskState; dsimp only; split_ifs <;> rfl
  rw [h, getElem?_insert]

theorem readyQueue_setTaskState : (tm.setTaskState id state).readyQueue =
    if state = .ready then
      if tm.taskStates[id]? = some .ready then tm.readyQueue else tm.readyQueue ++ [id]
    else if tm.taskStates[id]? = some .ready then tm.readyQueue.filter fun k => k ≠ id
    else tm.readyQueue := by
  have hold : (tm.taskStates[id]?).getD .dead = .ready ↔ tm.taskStates[id]? = some .ready := by
    cases tm.taskStates[id]? <;> simp
  unfold setTaskState
  simp only [ne_eq, hold]
  by_cases hs : state = .ready <;> by_cases hr : tm.taskStates[id]? = some .ready <;>
    simp [hs, hr]

/-! ### The invariant -/

/-- The fields of the task manager agree with each other. -/
structure Consistent (tm : TaskManager) : Prop where
  queue_nodup : tm.readyQueue.Nodup
  queue_ready : ∀ id ∈ tm.readyQueue, id ∈ tm.taskRegistry ∧ tm.taskStates[id]? = some .ready
  ready_queued : ∀ id, tm.taskStates[id]? = some .ready →
    id ∈ tm.readyQueue ∨ tm.currentTask = some id
  same_keys : ∀ id, id ∈ tm.taskStates ↔ id ∈ tm.taskRegistry
  current_live : ∀ id, tm.currentTask = some id →
    id ∈ tm.taskRegistry ∧ tm.taskStates[id]? ≠ some .dead
  /-- The scheduler never records that a task is running: the running one stays `ready`. -/
  not_running : ∀ id : TaskId, tm.taskStates[id]? ≠ some .running

theorem consistent_empty : empty.Consistent where
  queue_nodup := nodup_nil
  queue_ready id h := by simp [empty] at h
  ready_queued id h := by simp [empty] at h
  same_keys id := by simp [empty]
  current_live id h := by simp [empty] at h
  not_running id := by simp [empty]

variable (h : tm.Consistent)
include h

theorem Consistent.isSome_iff : (tm.taskStates[id]?).isSome ↔
    id ∈ tm.taskRegistry := by
  rw [← h.same_keys, mem_iff_isSome_getElem?]

theorem Consistent.not_queued (hid : tm.taskStates[id]? ≠ some .ready) : id ∉ tm.readyQueue :=
  fun hmem => hid (h.queue_ready id hmem).2

theorem Consistent.mem_readyQueue_setTaskState :
    j ∈ (tm.setTaskState id state).readyQueue ↔
      if j = id then state = .ready ∧ (tm.taskStates[id]? = some .ready → id ∈ tm.readyQueue)
      else j ∈ tm.readyQueue := by
  rw [readyQueue_setTaskState]
  by_cases hj : j = id
  · subst hj
    by_cases hr : tm.taskStates[j]? = some .ready
    · by_cases hs : state = .ready <;> simp [hs, hr]
    · have hq := h.not_queued hr
      by_cases hs : state = .ready <;> simp [hs, hr, hq]
  · split_ifs <;> simp [hj]

theorem Consistent.nodup_setTaskState : (tm.setTaskState id state).readyQueue.Nodup := by
  rw [readyQueue_setTaskState]
  split_ifs with hs hr hr
  · exact h.queue_nodup
  · have hq := h.not_queued hr
    rw [nodup_append]
    refine ⟨h.queue_nodup, by simp, ?_⟩
    intro a ha b hb hab
    rw [mem_singleton] at hb
    exact hq (by rw [← hb, ← hab]; exact ha)
  · exact h.queue_nodup.filter _
  · exact h.queue_nodup

/-- **One state change keeps the task manager consistent.**  The registry may gain `id` and the
current task may be dropped along with it: a task that becomes dead must not stay current, and
the current task is only dropped when it is the one that stops being ready. -/
theorem Consistent.update {tm' : TaskManager} (id : TaskId)
    (state : TaskState) (hrun : state ≠ .running)
    (hqueue : tm'.readyQueue = (tm.setTaskState id state).readyQueue)
    (hstates : tm'.taskStates = (tm.setTaskState id state).taskStates)
    (hreg : ∀ k, k ∈ tm'.taskRegistry ↔ k = id ∨ k ∈ tm.taskRegistry)
    (hcur : ∀ k, tm'.currentTask = some k → tm.currentTask = some k ∧ (k = id → state ≠ .dead))
    (hdrop : ∀ k, tm.currentTask = some k →
      tm'.currentTask = some k ∨ (k = id ∧ state ≠ .ready)) :
    tm'.Consistent := by
  refine ⟨hqueue ▸ h.nodup_setTaskState, ?_, ?_, ?_, ?_, ?_⟩
  · intro k hk
    rw [hqueue, h.mem_readyQueue_setTaskState] at hk
    rw [hstates, taskStates_setTaskState, hreg]
    split_ifs at hk with hki
    · rw [if_pos hki.symm, hk.1]
      exact ⟨.inl hki, rfl⟩
    · rw [if_neg (Ne.symm hki)]
      exact ⟨.inr (h.queue_ready k hk).1, (h.queue_ready k hk).2⟩
  · intro k hk
    rw [hstates, taskStates_setTaskState] at hk
    rw [hqueue, h.mem_readyQueue_setTaskState]
    by_cases hki : k = id
    · rw [if_pos hki.symm, some.injEq] at hk
      rw [if_pos hki]
      by_cases hq : tm.taskStates[id]? = some .ready → id ∈ tm.readyQueue
      · exact .inl ⟨hk, hq⟩
      · -- a ready task that is not queued is the current one, and it stays ready
        rw [Classical.not_imp] at hq
        have hc := (h.ready_queued id hq.1).resolve_left hq.2
        rcases hdrop id hc with hc' | ⟨-, hne⟩
        · exact .inr (hki ▸ hc')
        · exact absurd hk hne
    · rw [if_neg (Ne.symm hki)] at hk
      rw [if_neg hki]
      rcases h.ready_queued k hk with hq | hc
      · exact .inl hq
      · exact .inr ((hdrop k hc).resolve_right fun hd => hki hd.1)
  · intro k
    rw [hreg, mem_iff_isSome_getElem?, hstates, taskStates_setTaskState]
    by_cases hki : k = id
    · simp [hki]
    · rw [if_neg (Ne.symm hki), h.isSome_iff]
      simp [hki]
  · intro k hk
    obtain ⟨hc, hdead⟩ := hcur k hk
    obtain ⟨hkr, hkd⟩ := h.current_live k hc
    rw [hreg, hstates, taskStates_setTaskState]
    refine ⟨.inr hkr, ?_⟩
    split_ifs with hki
    · simpa using hdead hki.symm
    · exact hkd
  · intro k
    rw [hstates, taskStates_setTaskState]
    split_ifs with hki
    · simpa using hrun
    · exact h.not_running k

/-- A state change of a registered task, with the current task left alone. -/
theorem Consistent.setTaskState (hid : id ∈ tm.taskRegistry)
    (hrun : state ≠ .running) (hdead : tm.currentTask = some id → state ≠ .dead) :
    (tm.setTaskState id state).Consistent := by
  refine h.update id state hrun rfl rfl ?_ ?_ ?_
  · intro k
    rw [taskRegistry_setTaskState]
    exact ⟨.inr, fun hk => hk.elim (fun he => he ▸ hid) fun hk => hk⟩
  · intro k hk
    rw [currentTask_setTaskState] at hk
    exact ⟨hk, fun hki => hdead (hki ▸ hk)⟩
  · intro k hk
    rw [currentTask_setTaskState]
    exact .inl hk

omit h

/-! ### Every operation keeps it -/

theorem blockCurrentTask_of_current (hid : tm.currentTask = some id) :
    tm.blockCurrentTask = tm.setTaskState id .blocked := by
  unfold blockCurrentTask
  rw [hid]

@[simp] theorem taskRegistry_blockCurrentTask :
    tm.blockCurrentTask.taskRegistry = tm.taskRegistry := by
  unfold blockCurrentTask
  split
  · exact taskRegistry_setTaskState
  · rfl

@[simp] theorem currentTask_blockCurrentTask :
    tm.blockCurrentTask.currentTask = tm.currentTask := by
  unfold blockCurrentTask
  split
  · exact currentTask_setTaskState
  · rfl

theorem taskStates_blockCurrentTask : tm.blockCurrentTask.taskStates[j]? =
    if tm.currentTask = some j then some .blocked else tm.taskStates[j]? := by
  unfold blockCurrentTask
  split
  · rename_i id hid
    rw [taskStates_setTaskState]
    simp only [hid, some.injEq]
  · rename_i hid
    simp [hid]

theorem waitForChild_eq (child : TaskId) :
    (tm.waitForChild child).1 = tm.blockCurrentTask ∨ (tm.waitForChild child).1 = tm := by
  unfold waitForChild
  split
  · split_ifs
    · exact .inl rfl
    · exact .inr rfl
  · exact .inr rfl

@[simp] theorem taskRegistry_exitCurrentTask :
    tm.exitCurrentTask.taskRegistry = tm.taskRegistry := by
  unfold exitCurrentTask
  split
  · exact taskRegistry_setTaskState
  · rfl

@[simp] theorem currentTask_exitCurrentTask : tm.exitCurrentTask.currentTask = none := by
  unfold exitCurrentTask
  split
  · rfl
  · assumption

theorem taskStates_exitCurrentTask : tm.exitCurrentTask.taskStates[j]? =
    if tm.currentTask = some j then some .dead else tm.taskStates[j]? := by
  unfold exitCurrentTask
  split
  · rename_i id hid
    rw [taskStates_setTaskState]
    simp only [hid, some.injEq]
  · rename_i hid
    simp [hid]

variable (h : tm.Consistent)
include h

theorem Consistent.blockCurrentTask : tm.blockCurrentTask.Consistent := by
  unfold TaskManager.blockCurrentTask
  split
  · rename_i id hid
    exact h.setTaskState (h.current_live id hid).1 (by simp) fun _ => by simp
  · exact h

theorem Consistent.waitForChild (child : TaskId) : (tm.waitForChild child).1.Consistent := by
  rcases tm.waitForChild_eq child with hblock | hsame
  · rw [hblock]
    exact h.blockCurrentTask
  · rw [hsame]
    exact h

theorem Consistent.exitCurrentTask : tm.exitCurrentTask.Consistent := by
  unfold TaskManager.exitCurrentTask
  split
  · rename_i id hid
    refine h.update id .dead (by simp) rfl rfl ?_ (fun k hk => by simp at hk) ?_
    · intro k
      rw [taskRegistry_setTaskState]
      exact ⟨.inr, fun hk => hk.elim (fun he => he ▸ (h.current_live id hid).1) fun hk => hk⟩
    · intro k hk
      exact .inr ⟨some.inj (hk.symm.trans hid), by simp⟩
  · exact h

theorem Consistent.unblockTask (id : TaskId) : (tm.unblockTask id).Consistent := by
  unfold TaskManager.unblockTask
  split
  · rename_i st hst
    split_ifs
    · exact h.setTaskState (h.isSome_iff.mp (by rw [hst]; rfl)) (by simp) fun _ => by simp
    · exact h
  · exact h

theorem Consistent.wakeParent (id : TaskId) : (tm.wakeParent id).Consistent := by
  unfold TaskManager.wakeParent
  split
  · split
    · exact h.unblockTask _
    · exact h
  · exact h

theorem Consistent.spawnTask (pml4Frame : ℕ) (privilege : PrivilegeLevel)
    (stack : Option ℕ) : (tm.spawnTask id pml4Frame privilege stack).1.Consistent := by
  unfold TaskManager.spawnTask
  split
  · exact h
  · rename_i task _
    refine h.update task.id .ready (by simp) ?_ ?_ ?_ ?_ ?_
    · rw [readyQueue_setTaskState, readyQueue_setTaskState]
    · apply Std.ExtTreeMap.ext_getElem?
      intro k
      rw [taskStates_setTaskState, taskStates_setTaskState]
    · intro k
      rw [taskRegistry_setTaskState, mem_insert, Nat.compare_eq_eq, eq_comm]
    · intro k hk
      rw [currentTask_setTaskState] at hk
      exact ⟨hk, fun _ => by simp⟩
    · intro k hk
      rw [currentTask_setTaskState]
      exact .inl hk

omit h

theorem currentTask_spawnTask {pml4Frame : ℕ} {privilege : PrivilegeLevel} {stack : Option ℕ} :
    (tm.spawnTask id pml4Frame privilege stack).1.currentTask = tm.currentTask := by
  unfold TaskManager.spawnTask
  split
  · rfl
  · exact currentTask_setTaskState

theorem setTaskState_dead_of_dead (hid : tm.taskStates[id]? = some .dead) :
    tm.setTaskState id .dead = tm := by
  have hmap : tm.taskStates.insert id .dead = tm.taskStates := by
    apply Std.ExtTreeMap.ext_getElem?
    intro k
    rw [getElem?_insert]
    split_ifs with hk
    · rw [← hk, hid]
    · rfl
  unfold setTaskState
  simp [hid, hmap]

@[simp] theorem currentTask_unblockTask : (tm.unblockTask id).currentTask = tm.currentTask := by
  unfold unblockTask
  split
  · split_ifs
    · exact currentTask_setTaskState
    · rfl
  · rfl

@[simp] theorem currentTask_wakeParent : (tm.wakeParent id).currentTask = tm.currentTask := by
  unfold wakeParent
  split
  · split
    · exact currentTask_unblockTask
    · rfl
  · rfl

theorem taskStates_unblockTask : (tm.unblockTask id).taskStates[j]? =
    if id = j ∧ tm.taskStates[j]? = some .blocked then some .ready else tm.taskStates[j]? := by
  unfold unblockTask
  split
  · rename_i st hst
    split_ifs with hb hj hj
    · rw [taskStates_setTaskState, if_pos hj.1]
    · rw [taskStates_setTaskState, if_neg]
      rintro rfl
      exact hj ⟨rfl, by rw [hst, hb]⟩
    · rw [← hj.1, hst, some.injEq] at hj
      exact absurd hj.2 hb
    · rfl
  · rename_i hst
    rw [if_neg]
    rintro ⟨rfl, hb⟩
    rw [hst] at hb
    simp at hb

theorem taskStates_unblockTask_of_awake {state : TaskState} (h : tm.taskStates[j]? = some state)
    (hawake : state ≠ .blocked) : (tm.unblockTask id).taskStates[j]? = some state := by
  rw [taskStates_unblockTask, if_neg, h]
  rintro ⟨-, hb⟩
  exact hawake (some.inj (h.symm.trans hb))

theorem blocked_unblockTask : (tm.unblockTask id).taskStates[j]? = some .blocked ↔
    j ≠ id ∧ tm.taskStates[j]? = some .blocked := by
  rw [taskStates_unblockTask]
  split_ifs with hj
  · constructor
    · intro hready
      cases hready
    · rintro ⟨hne, -⟩
      exact absurd hj.1.symm hne
  · refine ⟨fun hb => ⟨?_, hb⟩, fun hb => hb.2⟩
    rintro rfl
    exact hj ⟨rfl, hb⟩

@[simp] theorem taskRegistry_unblockTask : (tm.unblockTask id).taskRegistry = tm.taskRegistry := by
  unfold unblockTask
  split
  · split_ifs
    · exact taskRegistry_setTaskState
    · rfl
  · rfl

/-- The recorded parent of a registered task. -/
def parentOf (tm : TaskManager) (id : TaskId) : Option TaskId :=
  (tm.taskRegistry[id]?).bind Task.parentId

theorem parentOf_congr {tm' : TaskManager} (h : tm'.taskRegistry = tm.taskRegistry) :
    tm'.parentOf id = tm.parentOf id := by
  unfold parentOf
  rw [h]

theorem wakeParent_eq :
    tm.wakeParent id = match tm.parentOf id with
      | some parentId => tm.unblockTask parentId
      | none => tm := by
  unfold wakeParent parentOf
  cases tm.taskRegistry[id]? with
  | none => rfl
  | some task => rfl

@[simp] theorem taskRegistry_wakeParent : (tm.wakeParent id).taskRegistry = tm.taskRegistry := by
  rw [wakeParent_eq]
  split
  · exact taskRegistry_unblockTask
  · rfl

theorem taskStates_wakeParent : (tm.wakeParent id).taskStates[j]? =
    if tm.parentOf id = some j ∧ tm.taskStates[j]? = some .blocked then some .ready
    else tm.taskStates[j]? := by
  rw [wakeParent_eq]
  split
  · rename_i parentId hp
    rw [taskStates_unblockTask]
    simp only [hp, some.injEq]
  · rename_i hp
    simp [hp]

theorem taskStates_wakeParent_of_dead (hid : tm.taskStates[id]? = some .dead) {k : TaskId} :
    (tm.wakeParent k).taskStates[id]? = some .dead := by
  rw [taskStates_wakeParent, if_neg, hid]
  rintro ⟨-, hb⟩
  rw [hid] at hb
  simp at hb

/-- Forgetting a dead task. -/
theorem Consistent.erase (h : tm.Consistent) (hid : tm.taskStates[id]? = some .dead) :
    Consistent { tm with
      taskStates := tm.taskStates.erase id, taskRegistry := tm.taskRegistry.erase id } := by
  have hnq : id ∉ tm.readyQueue := h.not_queued (by rw [hid]; simp)
  refine ⟨h.queue_nodup, ?_, ?_, ?_, ?_, ?_⟩
  · intro k hk
    have hki : id ≠ k := fun he => hnq (he ▸ hk)
    obtain ⟨hkr, hks⟩ := h.queue_ready k hk
    refine ⟨?_, ?_⟩
    · rw [mem_erase]
      exact ⟨by simpa using hki, hkr⟩
    · rw [getElem?_erase, if_neg hki]
      exact hks
  · intro k hk
    rw [getElem?_erase] at hk
    split_ifs at hk
    exact h.ready_queued k hk
  · intro k
    rw [mem_erase, mem_erase, h.same_keys]
  · intro k hk
    obtain ⟨hkr, hkd⟩ := h.current_live k hk
    have hki : id ≠ k := fun he => hkd (he ▸ hid)
    refine ⟨?_, ?_⟩
    · rw [mem_erase]
      exact ⟨by simpa using hki, hkr⟩
    · rw [getElem?_erase, if_neg hki]
      exact hkd
  · intro k
    rw [getElem?_erase]
    split_ifs
    · simp
    · exact h.not_running k

theorem kill_of_dead (hid : tm.taskStates[id]? = some .dead) :
    (tm.kill id).1 = { tm.wakeParent id with
      taskStates := (tm.wakeParent id).taskStates.erase id
      taskRegistry := (tm.wakeParent id).taskRegistry.erase id } := by
  unfold kill
  rw [setTaskState_dead_of_dead hid]

theorem Consistent.kill (h : tm.Consistent) (hid : tm.taskStates[id]? = some .dead) :
    (tm.kill id).1.Consistent := by
  rw [kill_of_dead hid]
  exact (h.wakeParent id).erase (taskStates_wakeParent_of_dead hid)

theorem taskStates_kill (hid : tm.taskStates[id]? = some .dead) : (tm.kill id).1.taskStates[j]? =
      if id = j then none
      else if tm.parentOf id = some j ∧ tm.taskStates[j]? = some .blocked then some .ready
      else tm.taskStates[j]? := by
  rw [kill_of_dead hid]
  rw [getElem?_erase, taskStates_wakeParent]

theorem getElem?_taskRegistry_kill :
    (tm.kill id).1.taskRegistry[j]? = if id = j then none else tm.taskRegistry[j]? := by
  show (((tm.setTaskState id .dead).wakeParent id).taskRegistry.erase id)[j]? = _
  rw [getElem?_erase, taskRegistry_wakeParent, taskRegistry_setTaskState]

theorem mem_taskRegistry_of_kill (h : j ∈ (tm.kill id).1.taskRegistry) : j ∈ tm.taskRegistry := by
  rw [mem_iff_isSome_getElem?, getElem?_taskRegistry_kill] at h
  split_ifs at h
  · cases h
  · exact mem_iff_isSome_getElem?.mpr h

theorem currentTask_kill : (tm.kill id).1.currentTask = tm.currentTask := by
  show ((tm.setTaskState id .dead).wakeParent id).currentTask = _
  rw [currentTask_wakeParent, currentTask_setTaskState]

theorem kill_snd : (tm.kill id).2 = tm.taskRegistry[id]? := by
  show ((tm.setTaskState id .dead).wakeParent id).taskRegistry[id]? = _
  rw [taskRegistry_wakeParent, taskRegistry_setTaskState]

theorem Consistent.kill_of_ne (h : tm.Consistent) (hcur : tm.currentTask ≠ some id) :
    (tm.kill id).1.Consistent := by
  by_cases hreg : id ∈ tm.taskRegistry
  · -- it is as if it had been dead before
    have hdead : (tm.setTaskState id .dead).taskStates[id]? = some .dead := by
      rw [taskStates_setTaskState, if_pos rfl]
    have hkill : (tm.setTaskState id .dead).kill id = tm.kill id := by
      unfold TaskManager.kill
      rw [setTaskState_dead_of_dead hdead]
    rw [← hkill]
    exact (h.setTaskState hreg (by simp) fun hid => absurd hid hcur).kill hdead
  · -- nothing changes
    have hnone : tm.taskStates[id]? = none := by
      rw [← not_isSome_iff_eq_none, h.isSome_iff]
      exact hreg
    have hnone' : tm.taskRegistry[id]? = none := by
      rw [← not_isSome_iff_eq_none, ← mem_iff_isSome_getElem?]
      exact hreg
    have hwake : (tm.setTaskState id .dead).wakeParent id = tm.setTaskState id .dead := by
      rw [wakeParent_eq, parentOf, taskRegistry_setTaskState, hnone']
      rfl
    have hsame : (tm.kill id).1 = tm := by
      show TaskManager.mk _ _ _ _ = tm
      rw [hwake, readyQueue_setTaskState, hnone, taskRegistry_setTaskState,
        currentTask_setTaskState]
      have hstates : (tm.setTaskState id .dead).taskStates.erase id = tm.taskStates := by
        refine ext_getElem? fun k => ?_
        rw [getElem?_erase, taskStates_setTaskState]
        split_ifs with hk
        · rw [← hk, hnone]
        · rfl
      have hregistry : tm.taskRegistry.erase id = tm.taskRegistry := by
        refine ext_getElem? fun k => ?_
        rw [getElem?_erase]
        split_ifs with hk
        · rw [← hk, hnone']
        · rfl
      rw [hstates, hregistry]
      simp
    rw [hsame]
    exact h

/-! ### The queue step -/

@[simp] theorem taskStates_requeueCurrent : tm.requeueCurrent.taskStates = tm.taskStates := by
  unfold requeueCurrent markReady
  split
  · dsimp only
    split_ifs <;> rfl
  · rfl

@[simp] theorem taskRegistry_requeueCurrent : tm.requeueCurrent.taskRegistry = tm.taskRegistry := by
  unfold requeueCurrent markReady
  split
  · dsimp only
    split_ifs <;> rfl
  · rfl

@[simp] theorem currentTask_requeueCurrent : tm.requeueCurrent.currentTask = tm.currentTask := by
  unfold requeueCurrent markReady
  split
  · dsimp only
    split_ifs <;> rfl
  · rfl

@[simp] theorem taskStates_schedule : tm.schedule.taskStates = tm.taskStates := by
  unfold schedule fetchNextTask
  split <;> rename_i h
  · split at h <;> cases h
    split_ifs <;> exact taskStates_requeueCurrent
  · split at h <;> cases h
    exact taskStates_requeueCurrent

@[simp] theorem taskRegistry_schedule : tm.schedule.taskRegistry = tm.taskRegistry := by
  unfold schedule fetchNextTask
  split <;> rename_i h
  · split at h <;> cases h
    split_ifs <;> exact taskRegistry_requeueCurrent
  · split at h <;> cases h
    exact taskRegistry_requeueCurrent

variable (h : tm.Consistent)
include h

/-- The queue after the first half of the step: the current task is appended if it is ready and
not queued already. -/
theorem Consistent.readyQueue_requeueCurrent :
    tm.requeueCurrent.readyQueue = tm.readyQueue ∨ ∃ c, tm.currentTask = some c ∧
      c ∉ tm.readyQueue ∧ tm.taskStates[c]? = some .ready ∧
        tm.requeueCurrent.readyQueue = tm.readyQueue ++ [c] := by
  unfold TaskManager.requeueCurrent
  split
  · rename_i c hc
    obtain ⟨st, hst⟩ :=
      isSome_iff_exists.mp (h.isSome_iff.mpr (h.current_live c hc).1)
    dsimp only
    rw [hst, getD_some]
    split_ifs with hrun
    · unfold markReady
      split_ifs with hmem
      · exact .inl rfl
      · have hready : st = .ready :=
          hrun.resolve_left fun he => h.not_running c (by rw [hst, he])
        exact .inr ⟨c, hc, hmem, by rw [hst, hready], rfl⟩
    · exact .inl rfl
  · exact .inl rfl

theorem Consistent.mem_readyQueue_requeueCurrent :
    id ∈ tm.requeueCurrent.readyQueue ↔ tm.taskStates[id]? = some .ready := by
  constructor
  · intro hid
    rcases h.readyQueue_requeueCurrent with hq | ⟨c, -, -, hready, hq⟩
    · rw [hq] at hid
      exact (h.queue_ready id hid).2
    · rw [hq, mem_append, mem_singleton] at hid
      rcases hid with hid | rfl
      · exact (h.queue_ready id hid).2
      · exact hready
  · intro hready
    rcases h.ready_queued id hready with hid | hcur
    · rcases h.readyQueue_requeueCurrent with hq | ⟨c, -, -, -, hq⟩
      · rw [hq]
        exact hid
      · rw [hq]
        exact mem_append_left _ hid
    · unfold TaskManager.requeueCurrent
      simp only [hcur, hready, getD_some, or_true, if_true]
      unfold markReady
      split_ifs with hmem
      · exact hmem
      · exact mem_append_right _ (mem_singleton.mpr rfl)

theorem Consistent.nodup_requeueCurrent : tm.requeueCurrent.readyQueue.Nodup := by
  rcases h.readyQueue_requeueCurrent with hq | ⟨c, -, hmem, -, hq⟩
  · rw [hq]
    exact h.queue_nodup
  · rw [hq, nodup_append]
    refine ⟨h.queue_nodup, by simp, ?_⟩
    intro a ha b hb hab
    rw [mem_singleton] at hb
    exact hmem (by rw [← hb, ← hab]; exact ha)

/-- **The queue step** in a consistent task manager: with no ready task nothing changes;
otherwise the front of the queue, in which every ready task now is, becomes the current task. -/
theorem Consistent.schedule_cases :
    (tm.schedule = tm ∧ ∀ id : TaskId, tm.taskStates[id]? ≠ some .ready) ∨
      ∃ next rest, tm.requeueCurrent.readyQueue = next :: rest ∧
        tm.schedule = { tm with readyQueue := rest, currentTask := some next } := by
  rcases hq : tm.requeueCurrent.readyQueue with - | ⟨next, rest⟩
  · left
    have hnone : ∀ id : TaskId, tm.taskStates[id]? ≠ some .ready := fun id hid => by
      simpa [hq] using h.mem_readyQueue_requeueCurrent.mpr hid
    have hsame : tm.requeueCurrent = tm := by
      rcases h.readyQueue_requeueCurrent with he | ⟨c, -, -, -, he⟩
      · cases htm : tm.requeueCurrent
        have h1 : tm.requeueCurrent.taskStates = _ := taskStates_requeueCurrent
        have h2 : tm.requeueCurrent.taskRegistry = _ := taskRegistry_requeueCurrent
        have h3 : tm.requeueCurrent.currentTask = _ := currentTask_requeueCurrent
        cases tm
        simp_all
      · rw [he] at hq
        simp at hq
    refine ⟨?_, hnone⟩
    unfold TaskManager.schedule fetchNextTask
    rw [hq]
    exact hsame
  · right
    refine ⟨next, rest, rfl, ?_⟩
    have h1 : tm.requeueCurrent.taskStates = _ := taskStates_requeueCurrent
    have h2 : tm.requeueCurrent.taskRegistry = _ := taskRegistry_requeueCurrent
    have h3 : tm.requeueCurrent.currentTask = _ := currentTask_requeueCurrent
    unfold TaskManager.schedule fetchNextTask
    rw [hq]
    dsimp only
    split_ifs with hne
    · rw [h1, h2]
    · rw [not_not] at hne
      rw [h1, h2, h3, hne]

theorem Consistent.schedule : tm.schedule.Consistent := by
  rcases h.schedule_cases with ⟨hsame, -⟩ | ⟨next, rest, hq, hsched⟩
  · rw [hsame]
    exact h
  · have hnodup := h.nodup_requeueCurrent
    rw [hq, nodup_cons] at hnodup
    have hmem : ∀ id, (id = next ∨ id ∈ rest) ↔ tm.taskStates[id]? = some .ready := fun id => by
      rw [← h.mem_readyQueue_requeueCurrent, hq, mem_cons]
    have hreg : ∀ id, tm.taskStates[id]? = some .ready → id ∈ tm.taskRegistry := fun id hid =>
      h.isSome_iff.mp (by rw [hid]; rfl)
    have hnext : tm.taskStates[next]? = some .ready := (hmem next).mp (.inl rfl)
    rw [hsched]
    refine ⟨hnodup.2, ?_, ?_, h.same_keys, ?_, h.not_running⟩
    · intro id hid
      have hready := (hmem id).mp (.inr hid)
      exact ⟨hreg id hready, hready⟩
    · intro id hid
      rcases (hmem id).mpr hid with rfl | hrest
      · exact .inr rfl
      · exact .inl hrest
    · intro id hid
      rw [some.injEq] at hid
      subst hid
      refine ⟨hreg next hnext, ?_⟩
      rw [hnext]
      simp

theorem Consistent.schedule_ready (hid : tm.taskStates[id]? = some .ready) :
    ∃ next, tm.schedule.currentTask = some next ∧ tm.taskStates[next]? = some .ready := by
  rcases h.schedule_cases with ⟨-, hnone⟩ | ⟨next, rest, hq, hsched⟩
  · exact absurd hid (hnone id)
  · refine ⟨next, by rw [hsched], ?_⟩
    rw [← h.mem_readyQueue_requeueCurrent, hq]
    exact mem_cons_self

omit h

end TaskManager

/-! ### Runs -/

/-- The task manager and the counter that identifiers are taken from. -/
structure TaskSystem where
  tm : TaskManager
  nextId : ℕ

/-- One call into the task manager.  `stack` is the heap's answer when a kernel stack is
reserved. -/
inductive TaskOp
  | spawn (pml4Frame : ℕ) (privilege : PrivilegeLevel) (stack : Option ℕ)
  | spawnDynamic (targetPml4 : ℕ) (stack : Option ℕ)
  | schedule
  | waitForChild (childId : TaskId)
  | blockCurrentTask
  | unblockTask (id : TaskId)
  | exitCurrentTask
  | kill (id : TaskId)
  deriving DecidableEq, Repr

namespace TaskSystem

/-- Before the first task; the counter starts at one. -/
def boot : TaskSystem := ⟨.empty, 1⟩

/-- One call.  `kill` is only made by the reaper, on a task it found dead. -/
def step (s : TaskSystem) : TaskOp → Option (TaskSystem × Unit)
  | .spawn pml4Frame privilege stack =>
    let (id, nextId) := TaskId.new s.nextId
    some (⟨(s.tm.spawn id pml4Frame privilege stack).1, nextId⟩, ())
  | .spawnDynamic targetPml4 stack =>
    let (id, nextId) := TaskId.new s.nextId
    some (⟨(s.tm.spawnDynamic id targetPml4 stack).1, nextId⟩, ())
  | .schedule => some ({ s with tm := s.tm.schedule }, ())
  | .waitForChild childId => some ({ s with tm := (s.tm.waitForChild childId).1 }, ())
  | .blockCurrentTask => some ({ s with tm := s.tm.blockCurrentTask }, ())
  | .unblockTask id => some ({ s with tm := s.tm.unblockTask id }, ())
  | .exitCurrentTask => some ({ s with tm := s.tm.exitCurrentTask }, ())
  | .kill id =>
    if s.tm.taskStates[id]? = some .dead then some ({ s with tm := (s.tm.kill id).1 }, ())
    else none

theorem consistent_step {s s' : TaskSystem} {op : TaskOp} {u : Unit} (h : s.tm.Consistent)
    (hs : s.step op = some (s', u)) : s'.tm.Consistent := by
  cases op with
  | spawn pml4Frame privilege stack =>
    cases hs
    exact h.spawnTask pml4Frame privilege stack
  | spawnDynamic targetPml4 stack =>
    cases hs
    exact h.spawnTask targetPml4 .userMode stack
  | schedule =>
    cases hs
    exact h.schedule
  | waitForChild childId =>
    cases hs
    exact h.waitForChild childId
  | blockCurrentTask =>
    cases hs
    exact h.blockCurrentTask
  | unblockTask id =>
    cases hs
    exact h.unblockTask id
  | exitCurrentTask =>
    cases hs
    exact h.exitCurrentTask
  | kill id =>
    rw [step] at hs
    split_ifs at hs with hdead
    cases hs
    exact h.kill hdead

/-- **The task manager stays consistent** in every run of its operations from boot. -/
theorem task_manager_consistent {ops : List TaskOp} {s : TaskSystem} {outs : List Unit}
    (hrun : Transition.run step boot ops = some (s, outs)) : s.tm.Consistent :=
  Transition.run_invariant (P := fun s => s.tm.Consistent)
    (fun _ _ _ _ h hs => consistent_step h hs) TaskManager.consistent_empty hrun

/-- A run in which a child exits while its parent waits for it and the reaper wakes the parent. -/
theorem task_manager_consistent_wait_for_child : ∃ s outs,
    Transition.run step boot [.spawn 0 .kernelMode (some 0), .schedule,
      .spawnDynamic 1 (some 0x10000), .waitForChild 2, .schedule, .exitCurrentTask,
      .kill 2, .schedule] = some (s, outs) ∧
    s.tm.currentTask = some 1 ∧ s.tm.Consistent := by
  obtain ⟨⟨s, outs⟩, hrun, hcur⟩ : ∃ r ∈ Transition.run step boot [.spawn 0 .kernelMode (some 0),
      .schedule, .spawnDynamic 1 (some 0x10000), .waitForChild 2, .schedule, .exitCurrentTask,
      .kill 2, .schedule], r.1.tm.currentTask = some 1 := by decide
  exact ⟨s, outs, hrun, hcur, task_manager_consistent hrun⟩

end TaskSystem

end NwinOs.Tasking
