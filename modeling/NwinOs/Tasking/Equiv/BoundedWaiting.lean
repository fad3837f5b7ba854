import NwinOs.Tasking.Equiv.TaskManager
import Mathlib.Data.List.Count
import Mathlib.Data.List.Nodup

/-!
# Bounded waiting in the ready queue

A call other than a tick changes the ready queue in one of three ways (`QueueChange`): not at all,
by a task that becomes ready and goes to the back, or by the current task leaving it.  So a task
that is among the first `n` of the queue stays among the first `n` (`QueueChange.mem_take`), and a
tick, which pops the front, leaves it among the first `n - 1` or makes it current.

The second result is about a fixed set of ready tasks.  `rota` is the queue with the current task
put back; a tick dispatches its front and moves it to the back (`rota_schedule`), and a call that
keeps the set keeps the rota (`QueueChange.rota_eq`).  A full turn of the rota dispatches every
ready task once. -/

namespace NwinOs.Tasking

open TaskManager List Option Transition

namespace TaskManager

variable {tm tm' : TaskManager} {id t : TaskId} {state : TaskState}

/-! ### The ready tasks -/

/-- The tasks that are marked ready, the running one included. -/
def readyTasks (tm : TaskManager) : List TaskId :=
  tm.taskStates.keys.filter fun id => tm.taskStates[id]? = some .ready

theorem mem_readyTasks : id ∈ tm.readyTasks ↔ tm.taskStates[id]? = some .ready := by
  unfold readyTasks
  rw [mem_filter, Std.ExtTreeMap.mem_keys, decide_eq_true_eq, and_iff_right_iff_imp]
  intro hready
  rw [Std.ExtTreeMap.mem_iff_isSome_getElem?, hready]
  rfl

theorem nodup_readyTasks : tm.readyTasks.Nodup := by
  have hdistinct : tm.taskStates.keys.Pairwise fun a b => ¬ compare a b = .eq :=
    Std.ExtTreeMap.distinct_keys
  have hnodup : tm.taskStates.keys.Nodup :=
    hdistinct.imp fun hne heq => hne (Nat.compare_eq_eq.mpr heq)
  exact hnodup.filter _

/-! ### What a call does to the queue -/

/-- How a call other than a tick changes the ready queue. -/
inductive QueueChange (tm tm' : TaskManager) : Prop
  | same (queue : tm'.readyQueue = tm.readyQueue)
  /-- A task becomes ready. -/
  | pushed (id : TaskId) (queue : tm'.readyQueue = tm.readyQueue ++ [id])
      (before : tm.taskStates[id]? ≠ some .ready) (after : tm'.taskStates[id]? = some .ready)
  /-- A ready task stops being ready. -/
  | removed (id : TaskId) (queue : tm'.readyQueue = tm.readyQueue.filter fun k => k ≠ id)
      (before : tm.taskStates[id]? = some .ready) (after : tm'.taskStates[id]? ≠ some .ready)

theorem queueChange_setTaskState (tm : TaskManager) (id : TaskId) (state : TaskState) :
    QueueChange tm (tm.setTaskState id state) := by
  have hqueue : (tm.setTaskState id state).readyQueue = _ := readyQueue_setTaskState
  have hafter : (tm.setTaskState id state).taskStates[id]? = some state := by
    rw [taskStates_setTaskState, if_pos rfl]
  by_cases hs : state = .ready
  · rw [if_pos hs] at hqueue
    by_cases hr : tm.taskStates[id]? = some .ready
    · rw [if_pos hr] at hqueue
      exact .same hqueue
    · rw [if_neg hr] at hqueue
      exact .pushed id hqueue hr (hs ▸ hafter)
  · rw [if_neg hs] at hqueue
    by_cases hr : tm.taskStates[id]? = some .ready
    · rw [if_pos hr] at hqueue
      refine .removed id hqueue hr ?_
      rw [hafter]
      exact fun heq => hs (Option.some.inj heq)
    · rw [if_neg hr] at hqueue
      exact .same hqueue

/-- Only the queue and the states matter. -/
theorem QueueChange.congr {tm'' : TaskManager} (h : QueueChange tm tm')
    (hqueue : tm''.readyQueue = tm'.readyQueue)
    (hstates : ∀ k : TaskId, tm''.taskStates[k]? = some .ready ↔ tm'.taskStates[k]? = some .ready) :
    QueueChange tm tm'' := by
  cases h with
  | same queue => exact .same (hqueue.trans queue)
  | pushed id queue before after =>
    exact .pushed id (hqueue.trans queue) before ((hstates id).mpr after)
  | removed id queue before after =>
    exact .removed id (hqueue.trans queue) before fun h => after ((hstates id).mp h)

theorem queueChange_unblockTask : QueueChange tm (tm.unblockTask id) := by
  unfold unblockTask
  split
  · split_ifs
    · exact queueChange_setTaskState ..
    · exact .same rfl
  · exact .same rfl

theorem queueChange_blockCurrentTask : QueueChange tm tm.blockCurrentTask := by
  unfold blockCurrentTask
  split
  · exact queueChange_setTaskState ..
  · exact .same rfl

theorem queueChange_exitCurrentTask : QueueChange tm tm.exitCurrentTask := by
  unfold exitCurrentTask
  split
  · rename_i c _
    exact (queueChange_setTaskState tm c .dead).congr rfl fun _ => Iff.rfl
  · exact .same rfl

theorem queueChange_spawnTask {pml4Frame : ℕ} {privilege : PrivilegeLevel} {stack : Option ℕ} :
    QueueChange tm (tm.spawnTask id pml4Frame privilege stack).1 := by
  unfold spawnTask
  split
  · exact .same rfl
  · rename_i task _
    refine (queueChange_setTaskState tm task.id .ready).congr ?_ fun k => ?_
    · rw [readyQueue_setTaskState, readyQueue_setTaskState]
    · rw [taskStates_setTaskState, taskStates_setTaskState]

theorem queueChange_kill (hid : tm.taskStates[id]? = some .dead) :
    QueueChange tm (tm.kill id).1 := by
  have hwake : QueueChange tm (tm.wakeParent id) := by
    rw [wakeParent_eq]
    split
    · exact queueChange_unblockTask
    · exact .same rfl
  -- the killed task is not ready before it is forgotten
  refine hwake.congr (by rw [kill_of_dead hid]) fun k => ?_
  rw [kill_of_dead hid]
  rw [getElem?_erase]
  split_ifs with hk
  · rw [← hk, taskStates_wakeParent_of_dead hid]
    simp
  · rfl

/-- Nothing overtakes a task that stays ready. -/
theorem QueueChange.mem_take (h : QueueChange tm tm') {n : ℕ} (ht : t ∈ tm.readyQueue.take n)
    (hready : tm'.taskStates[t]? = some .ready) : t ∈ tm'.readyQueue.take n := by
  cases h with
  | same queue => rwa [queue]
  | pushed id queue =>
    rw [queue, take_append]
    exact mem_append_left _ ht
  | removed id queue before after =>
    have hne : t ≠ id := fun heq => after (heq ▸ hready)
    -- what is left of the first `n` is among the first `n`
    have hsub : (tm.readyQueue.take n).filter (fun k => k ≠ id) <+:
        tm.readyQueue.filter fun k => k ≠ id := (List.take_prefix n tm.readyQueue).filter _
    have hlen : ((tm.readyQueue.take n).filter fun k => k ≠ id).length ≤ n :=
      (length_filter_le ..).trans (length_take_le ..)
    rw [queue]
    exact (prefix_take_iff.mpr ⟨hsub, hlen⟩).subset (mem_filter.mpr ⟨ht, by simpa using hne⟩)

/-! ### The rota -/

/-- The order in which the ready tasks are dispatched: the queue with the current task put back. -/
def rota (tm : TaskManager) : List TaskId := tm.requeueCurrent.readyQueue

theorem Consistent.rota_eq (h : tm.Consistent) : tm.rota = tm.readyQueue ++
    tm.currentTask.toList.filter fun c => tm.taskStates[c]? = some .ready ∧ c ∉ tm.readyQueue := by
  unfold rota requeueCurrent
  cases hcur : tm.currentTask with
  | none => simp
  | some c =>
    obtain ⟨st, hst⟩ :=
      isSome_iff_exists.mp (h.isSome_iff.mpr (h.current_live c hcur).1)
    have hrunning : st ≠ .running := fun heq => h.not_running c (by rw [hst, heq])
    simp only [hst, getD_some, hrunning, false_or, toList_some]
    unfold markReady
    by_cases hr : st = .ready
    · by_cases hq : c ∈ tm.readyQueue
      · simp [hr, hq]
      · simp [hst, hr, hq]
    · simp [hst, hr]

theorem Consistent.perm_rota (h : tm.Consistent) : tm.rota.Perm tm.readyTasks := by
  refine (perm_ext_iff_of_nodup h.nodup_requeueCurrent nodup_readyTasks).mpr fun id => ?_
  rw [mem_readyTasks]
  exact h.mem_readyQueue_requeueCurrent

/-- A tick dispatches the front of the rota and moves it to the back. -/
theorem Consistent.rota_schedule (h : tm.Consistent) {next : TaskId} {rest : List TaskId}
    (hrota : tm.rota = next :: rest) :
    tm.schedule.currentTask = some next ∧ tm.schedule.rota = rest ++ [next] := by
  have hmem : next ∈ tm.rota := hrota ▸ mem_cons_self
  have hready : tm.taskStates[next]? = some .ready := h.mem_readyQueue_requeueCurrent.mp hmem
  have hnodup : (next :: rest).Nodup := hrota ▸ h.nodup_requeueCurrent
  rcases h.schedule_cases with ⟨-, hnone⟩ | ⟨next', rest', hq, hsched⟩
  · exact absurd hready (hnone next)
  · cases hrota.symm.trans hq
    rw [h.schedule.rota_eq, taskStates_schedule, hsched]
    simp [hready, (nodup_cons.mp hnodup).1]

/-- A call that keeps the ready tasks keeps the rota.  It may drop a current task that is not one of
them. -/
theorem QueueChange.rota_eq (h : QueueChange tm tm') (hc : tm.Consistent) (hc' : tm'.Consistent)
    (hready : ∀ k : TaskId, tm'.taskStates[k]? = some .ready ↔ tm.taskStates[k]? = some .ready)
    (hcur : tm'.currentTask = tm.currentTask ∨ tm'.currentTask = none ∧
      ∀ c, tm.currentTask = some c → tm'.taskStates[c]? ≠ some .ready) : tm'.rota = tm.rota := by
  have hqueue : tm'.readyQueue = tm.readyQueue := by
    cases h with
    | same queue => exact queue
    | pushed id _ before after => exact absurd ((hready id).mp after) before
    | removed id _ before after => exact absurd ((hready id).mpr before) after
  rw [hc.rota_eq, hc'.rota_eq, hqueue]
  congr 1
  rcases hcur with hsame | ⟨hnone, hdropped⟩
  · rw [hsame]
    refine filter_congr fun c _ => ?_
    simp only [hready c]
  · rw [hnone]
    symm
    rw [toList_none, filter_nil, filter_eq_nil_iff]
    intro c hmem
    have hnot := hdropped c (mem_toList.mp hmem)
    rw [ne_eq, hready] at hnot
    simp [hnot]

end TaskManager

namespace TaskSystem

variable {s s' : TaskSystem} {op : TaskOp} {t : TaskId} {ds : List (List (Option TaskId))}
  {ops : List TaskOp}

/-! ### Runs -/

/-- A call other than a tick changes the queue as described, and drops the current task only when
that stops being ready. -/
theorem step_queue {u : Unit} (hop : op ≠ .schedule) (h : s.step op = some (s', u)) :
    TaskManager.QueueChange s.tm s'.tm ∧
    (s'.tm.currentTask = s.tm.currentTask ∨ s'.tm.currentTask = none ∧
      ∀ c, s.tm.currentTask = some c → s'.tm.taskStates[c]? ≠ some .ready) := by
  cases op with
  | schedule => exact absurd rfl hop
  | spawn _ _ _ | spawnDynamic _ _ =>
    cases h
    exact ⟨queueChange_spawnTask, .inl currentTask_spawnTask⟩
  | waitForChild childId =>
    cases h
    rcases s.tm.waitForChild_eq childId with hblock | hsame
    · simp only [hblock]
      exact ⟨queueChange_blockCurrentTask, .inl currentTask_blockCurrentTask⟩
    · simp only [hsame]
      exact ⟨.same rfl, .inl trivial⟩
  | blockCurrentTask =>
    cases h
    exact ⟨queueChange_blockCurrentTask, .inl currentTask_blockCurrentTask⟩
  | unblockTask id =>
    cases h
    exact ⟨queueChange_unblockTask, .inl currentTask_unblockTask⟩
  | exitCurrentTask =>
    cases h
    refine ⟨queueChange_exitCurrentTask, .inr ⟨currentTask_exitCurrentTask, fun c hc => ?_⟩⟩
    rw [taskStates_exitCurrentTask, if_pos hc]
    simp
  | kill id =>
    rw [step] at h
    split_ifs at h with hdead
    cases h
    exact ⟨queueChange_kill hdead, .inl currentTask_kill⟩

/-- The calls, with the current task after each tick as the output. -/
def tickStep (s : TaskSystem) (op : TaskOp) : Option (TaskSystem × List (Option TaskId)) :=
  (s.step op).map fun r => (r.1, if op = .schedule then [r.1.tm.currentTask] else [])

/-- The call does not block, end or kill the ready task `t`. -/
def Spares (t : TaskId) (s : TaskSystem) (op : TaskOp) : Prop :=
  ∀ r ∈ s.step op, r.1.tm.taskStates[t]? = some .ready

/-- The call does not change which tasks are ready. -/
def KeepsReady (s : TaskSystem) (op : TaskOp) : Prop :=
  ∀ r ∈ s.step op, r.1.tm.readyTasks = s.tm.readyTasks

instance (t : TaskId) (s : TaskSystem) (op : TaskOp) : Decidable (s.Spares t op) :=
  inferInstanceAs (Decidable (∀ r ∈ s.step op, _))

instance (s : TaskSystem) (op : TaskOp) : Decidable (s.KeepsReady op) :=
  inferInstanceAs (Decidable (∀ r ∈ s.step op, _))

theorem tickStep_eq_some {ds : List (Option TaskId)} (h : s.tickStep op = some (s', ds)) :
    s.step op = some (s', ()) ∧ ds = if op = .schedule then [s'.tm.currentTask] else [] := by
  obtain ⟨⟨s₁, u⟩, hstep, heq⟩ := map_eq_some_iff.mp h
  cases heq
  exact ⟨hstep, rfl⟩

/-- A task among the first `n` of the queue is dispatched by one of the next `n` ticks. -/
theorem dispatched_of_mem_take {n : ℕ} (h : s.tm.Consistent) (ht : t ∈ s.tm.readyQueue.take n)
    (hrun : run (restrict (Spares t) tickStep) s ops = some (s', ds))
    (hticks : n ≤ ds.flatten.length) : some t ∈ ds.flatten.take n := by
  induction ops generalizing s n ds with
  | nil =>
    cases hrun
    obtain rfl : n = 0 := Nat.le_zero.mp hticks
    simp at ht
  | cons op ops ih =>
    obtain ⟨s₁, d, ds', hs, hrest, rfl⟩ := run_cons_eq_some.mp hrun
    rw [restrict] at hs
    split_ifs at hs with hspares
    obtain ⟨hstep, hd⟩ := tickStep_eq_some hs
    have hc := consistent_step h hstep
    have hready := hspares _ hstep
    by_cases hop : op = .schedule
    · -- the front of the queue is popped: it is `t`, or `t` moves up by one
      rw [if_pos hop] at hd
      subst hop hd
      cases hstep
      have hrota : t ∈ s.tm.rota.take n := by
        rw [h.rota_eq, take_append]
        exact mem_append_left _ ht
      rcases h.schedule_cases with ⟨-, hnone⟩ | ⟨next, rest, hq, hsched⟩
      · exact absurd (h.queue_ready t (mem_of_mem_take ht)).2 (hnone t)
      · rw [TaskManager.rota, hq] at hrota
        cases n with
        | zero => simp at hrota
        | succ m =>
          simp only [hsched, flatten_cons, singleton_append, length_cons,
            take_succ_cons, mem_cons, Option.some.injEq] at hrota hticks ⊢
          refine hrota.imp_right fun hmem => ?_
          refine ih hc ?_ hrest (Nat.le_of_succ_le_succ hticks)
          rw [hsched]
          exact hmem
    · rw [if_neg hop] at hd
      subst hd
      rw [flatten_cons, nil_append] at hticks ⊢
      exact ih hc ((step_queue hop hstep).1.mem_take ht hready) hrest hticks

/-- As long as the ready tasks stay the same, the ticks of one turn follow the rota. -/
theorem dispatched_eq_rota (h : s.tm.Consistent)
    (hrun : run (restrict KeepsReady tickStep) s ops = some (s', ds))
    (hticks : ds.flatten.length ≤ s.tm.rota.length) :
    ds.flatten = (s.tm.rota.take ds.flatten.length).map some := by
  induction ops generalizing s ds with
  | nil =>
    cases hrun
    rfl
  | cons op ops ih =>
    obtain ⟨s₁, d, ds', hs, hrest, rfl⟩ := run_cons_eq_some.mp hrun
    rw [restrict] at hs
    split_ifs at hs with hkeeps
    obtain ⟨hstep, hd⟩ := tickStep_eq_some hs
    have hc := consistent_step h hstep
    by_cases hop : op = .schedule
    · rw [if_pos hop] at hd
      subst hop hd
      cases hstep
      cases hrota : s.tm.rota with
      | nil => simp [hrota] at hticks
      | cons next rest =>
        obtain ⟨hcur, hrota'⟩ := h.rota_schedule hrota
        simp only [hrota, flatten_cons, singleton_append, length_cons] at hticks ⊢
        have hlen : ds'.flatten.length ≤ rest.length := Nat.le_of_succ_le_succ hticks
        have htail := ih hc hrest (by simp only [hrota', length_append]; omega)
        rw [hrota', take_append_of_le_length hlen] at htail
        rw [take_succ_cons, map_cons, hcur, ← htail]
    · rw [if_neg hop] at hd
      subst hd
      obtain ⟨hqueue, hcur⟩ := step_queue hop hstep
      have hready : ∀ k : TaskId, s₁.tm.taskStates[k]? = some .ready ↔
          s.tm.taskStates[k]? = some .ready := by
        intro k
        rw [← mem_readyTasks, ← mem_readyTasks, hkeeps _ hstep]
      have hrota := hqueue.rota_eq h hc hready hcur
      rw [flatten_cons, nil_append, ← hrota] at hticks ⊢
      exact ih hc hrest hticks

/-- **Bounded waiting.**  In every reachable state, a task at index `i` of the ready queue is
current after one of the next `i + 1` ticks, whatever calls are made in between, as long as none of
them blocks, ends or kills it.  And as long as the set of ready tasks stays the same, as many ticks
as there are ready tasks dispatch each of them exactly once. -/
theorem bounded_waiting (hreach : Transition.Reach step (· = boot) Transition.anyAction s) :
    (∀ (t : TaskId) (i : ℕ) (ops : List TaskOp) (s' : TaskSystem)
      (ds : List (List (Option TaskId))),
      s.tm.readyQueue[i]? = some t →
      Transition.run (Transition.restrict (Spares t) tickStep) s ops = some (s', ds) →
      i + 1 ≤ ds.flatten.length → some t ∈ ds.flatten.take (i + 1)) ∧
    ∀ (ops : List TaskOp) (s' : TaskSystem) (ds : List (List (Option TaskId))),
      Transition.run (Transition.restrict KeepsReady tickStep) s ops = some (s', ds) →
      ds.flatten.length = s.tm.readyTasks.length →
      ∀ t ∈ s.tm.readyTasks, ds.flatten.count (some t) = 1 := by
  have hc : s.tm.Consistent := hreach.invariant (P := fun s => s.tm.Consistent)
    (fun s hs => hs ▸ TaskManager.consistent_empty) fun _ _ _ _ h _ hs => consistent_step h hs
  constructor
  · intro t i ops s' ds hi hrun hticks
    refine dispatched_of_mem_take hc ?_ hrun hticks
    apply List.mem_of_getElem?
    rw [List.getElem?_take_of_lt (Nat.lt_succ_self i), hi]
  · intro ops s' ds hrun hticks t ht
    have hlen := hc.perm_rota.length_eq
    have hds := dispatched_eq_rota hc hrun (by rw [hticks, hlen])
    rw [hticks, ← hlen, List.take_length] at hds
    rw [hds, List.count_map_of_injective _ _ (Option.some_injective _), hc.perm_rota.count_eq]
    exact List.count_eq_one_of_mem TaskManager.nodup_readyTasks ht

/-- Three tasks, of which the third is second in the queue: it runs after two ticks, although a
fourth task is spawned and the current task is blocked and woken in between; and three ticks
dispatch each of the three once. -/
theorem bounded_waiting_three_tasks : ∃ s, Transition.Reach step (· = boot) Transition.anyAction s ∧
    s.tm.readyQueue[1]? = some 3 ∧ s.tm.readyTasks = [1, 2, 3] ∧
    (∃ s' ds, Transition.run (Transition.restrict (Spares 3) tickStep) s
        [.spawn 0 .kernelMode (some 0x40000), .schedule, .blockCurrentTask,
        .unblockTask 2, .schedule]
          = some (s', ds) ∧ some 3 ∈ ds.flatten.take 2) ∧
    ∃ s' ds, Transition.run (Transition.restrict KeepsReady tickStep) s
        [.schedule, .waitForChild 9, .schedule, .schedule] = some (s', ds) ∧
      ∀ t ∈ s.tm.readyTasks, ds.flatten.count (some t) = 1 := by
  obtain ⟨⟨s, outs⟩, hrun, hindex, htasks, ⟨⟨s₁, ds₁⟩, hrun₁, hlen₁⟩, ⟨s₂, ds₂⟩, hrun₂, hlen₂⟩ :
      ∃ r ∈ Transition.run step boot [.spawn 0 .kernelMode (some 0x10000),
        .spawnDynamic 1 (some 0x20000), .spawnDynamic 2 (some 0x30000), .schedule],
      r.1.tm.readyQueue[1]? = some 3 ∧ r.1.tm.readyTasks = [1, 2, 3] ∧
      (∃ q ∈ Transition.run (Transition.restrict (Spares 3) tickStep) r.1
        [.spawn 0 .kernelMode (some 0x40000), .schedule, .blockCurrentTask, .unblockTask 2,
          .schedule], q.2.flatten.length = 2) ∧
      ∃ q ∈ Transition.run (Transition.restrict KeepsReady tickStep) r.1
        [.schedule, .waitForChild 9, .schedule, .schedule], q.2.flatten.length = 3 := by
    decide +kernel
  have hreach : Transition.Reach step (· = boot) Transition.anyAction s :=
    Transition.Reach.of_run (.start (by rfl)) hrun
  obtain ⟨hwait, hturn⟩ := bounded_waiting hreach
  exact ⟨s, hreach, hindex, htasks, ⟨s₁, ds₁, hrun₁, hwait 3 1 _ s₁ ds₁ hindex hrun₁ hlen₁.ge⟩,
    s₂, ds₂, hrun₂, hturn _ s₂ ds₂ hrun₂ (by rw [htasks]; exact hlen₂)⟩

end TaskSystem

end NwinOs.Tasking
