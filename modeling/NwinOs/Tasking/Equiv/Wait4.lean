import NwinOs.Tasking.Wait4
import NwinOs.Tasking.Equiv.TaskManager

/-!
# Soundness and liveness of `sys_wait4`

`kill(c)` wakes the recorded parent of `c` whenever it is blocked, whatever it is blocked for, and
no one else; `sys_wait4` returns as soon as its caller runs again, without looking at the child.

* `wait4_sound`: in a run in which no step wakes a task that is parked for a child that is still
  alive, `sys_wait4(pid)` returns `pid` only when `pid` is dead or gone.
  `wait4_returns_while_child_alive` is a run in which it does not.
* `wait4_not_stranded`: in a run in which tasks wait only for their own children, the removal of a
  task makes every task parked for it ready, and no task is parked for a task that is gone.
  `wait4_sibling_stranded` is a run in which a task stays parked for ever.

Both rest on `Booted`, the facts about every run that starts at `init_multitasking`.
-/

namespace NwinOs.Tasking.Wait4System

open TaskManager Function

variable {s s' : Wait4System} {ev : Wait4Event} {id pid : TaskId}

/-- The step does not take the last identifier before the counter wraps around. -/
def CounterInRange (s : Wait4System) : Wait4Action → Prop
  | .spawnDynamic _ _ => s.nextId + 1 < 2 ^ 64
  | _ => True

/-! ### Facts about every run -/

/-- What holds in every run from `init_multitasking`: the task manager is consistent, the reaper
is ready, and the identifiers in use have all been taken from the counter. -/
structure Booted (s : Wait4System) : Prop where
  consistent : s.tm.Consistent
  reaper_ready : s.tm.taskStates[REAPER]? = some .ready
  registered_lt : ∀ id ∈ s.tm.taskRegistry, id < s.nextId
  waiting_lt : ∀ id pid, s.waiting id = some pid → pid < s.nextId

theorem caller_eq_some : s.caller = some id ↔
    s.tm.currentTask = some id ∧ id ≠ REAPER ∧ s.waiting id = none := by
  unfold caller
  cases s.tm.currentTask with
  | none => simp
  | some c =>
    dsimp only
    split_ifs with hc
    · simp only [Option.some.injEq]
      constructor
      · rintro rfl
        exact ⟨rfl, hc⟩
      · exact fun h => h.1
    · simp only [Option.some.injEq, false_iff]
      rintro ⟨rfl, h⟩
      exact hc h

variable {tm : TaskManager} {pml4Frame : ℕ} {privilege : PrivilegeLevel} {stack : Option ℕ}

/-- The two outcomes of spawning: the stack cannot be reserved and nothing changes, or a ready
child of the current task is registered under the identifier. -/
theorem spawnTask_cases : (tm.spawnTask id pml4Frame privilege stack).1 = tm ∨
      ∃ task : Task, task.parentId = tm.currentTask ∧
        (tm.spawnTask id pml4Frame privilege stack).1 =
          { tm with taskRegistry := tm.taskRegistry.insert id task }.setTaskState id .ready := by
  cases stack with
  | none => exact .inl rfl
  | some stackStart => exact .inr ⟨_, rfl, rfl⟩

theorem waitForChild_cases (h : tm.Consistent) :
    (tm.waitForChild pid = (tm.blockCurrentTask, true) ∧ pid ∈ tm.taskRegistry ∧
        tm.taskStates[pid]? ≠ some .dead) ∨
      (tm.waitForChild pid = (tm, false) ∧
        (pid ∉ tm.taskRegistry ∨ tm.taskStates[pid]? = some .dead)) := by
  unfold waitForChild
  cases hst : tm.taskStates[pid]? with
  | none =>
    refine .inr ⟨rfl, .inl fun hmem => ?_⟩
    have := h.isSome_iff.mpr hmem
    rw [hst] at this
    exact absurd this (by simp)
  | some state =>
    dsimp only
    split_ifs with hdead
    · refine .inl ⟨rfl, h.isSome_iff.mp (by rw [hst]; rfl), ?_⟩
      simpa using hdead
    · rw [not_not] at hdead
      exact .inr ⟨rfl, .inr (by rw [hdead])⟩

variable {a : Wait4Action}

/-- **What a step can do.**  Either it is one of the steps that only move the four fields of the
task manager along, or it is the parking of the caller, its return, or the removal of a dead
task. -/
theorem step_cases (h : s.step a = some (s', ev)) :
    match a with
    | .spawnDynamic targetPml4 stack => (∃ id, s.caller = some id) ∧ ev = .silent ∧
        s' = { s with tm := (s.tm.spawnTask s.nextId targetPml4 .userMode stack).1
                      nextId := (s.nextId + 1) % 2 ^ 64 }
    | .sysWait4 pid => ∃ id, s.caller = some id ∧ s.sysWait4 id pid = (s', ev)
    | .wait4Return => ∃ id pid, s.tm.currentTask = some id ∧ s.waiting id = some pid ∧
        ev = .returned id pid pid ∧ s' = { s with waiting := update s.waiting id none }
    | .sysExit => (∃ id, s.caller = some id) ∧ ev = .silent ∧
        s' = { s with tm := s.tm.exitCurrentTask }
    | .blockCurrentTask => (∃ id, s.caller = some id) ∧ ev = .silent ∧
        s' = { s with tm := s.tm.blockCurrentTask }
    | .unblockTask k => ev = .silent ∧ s' = { s with tm := s.tm.unblockTask k }
    | .tick => ev = .silent ∧ s' = { s with tm := s.tm.schedule }
    | .reap k => s.tm.taskStates[k]? = some .dead ∧ ev = .silent ∧
        s' = { s with tm := (s.tm.kill k).1 } := by
  cases a with
  | spawnDynamic _ _ | sysExit | blockCurrentTask =>
    rw [step] at h
    cases hc : s.caller with
    | none => simp [hc] at h
    | some id =>
      rw [hc] at h
      cases h
      exact ⟨⟨id, rfl⟩, rfl, rfl⟩
  | sysWait4 pid =>
    rw [step] at h
    cases hc : s.caller with
    | none => simp [hc] at h
    | some id =>
      rw [hc] at h
      exact ⟨id, rfl, Option.some.inj h⟩
  | wait4Return =>
    rw [step] at h
    cases hc : s.tm.currentTask with
    | none => simp [hc] at h
    | some id =>
      cases hw : s.waiting id with
      | none => simp [hc, hw] at h
      | some pid =>
        simp only [hc, hw] at h
        cases h
        exact ⟨id, pid, rfl, hw, rfl, rfl⟩
  | unblockTask k =>
    rw [step] at h
    cases hc : s.caller with
    | none => simp [hc] at h
    | some id =>
      rw [hc] at h
      cases h
      exact ⟨rfl, rfl⟩
  | tick =>
    cases h
    exact ⟨rfl, rfl⟩
  | reap k =>
    rw [step] at h
    split_ifs at h with hk
    cases h
    exact ⟨hk.2, rfl, rfl⟩

variable {k : TaskId}

theorem taskStates_spawnTask (hk : k ≠ id) :
    (tm.spawnTask id pml4Frame privilege stack).1.taskStates[k]? = tm.taskStates[k]? := by
  rcases spawnTask_cases with h | ⟨task, -, h⟩
  · rw [h]
  · rw [h, taskStates_setTaskState, if_neg hk.symm]

theorem getElem?_taskRegistry_spawnTask (hk : k ≠ id) :
    (tm.spawnTask id pml4Frame privilege stack).1.taskRegistry[k]? = tm.taskRegistry[k]? := by
  rcases spawnTask_cases with h | ⟨task, -, h⟩
  · rw [h]
  · rw [h, taskRegistry_setTaskState, getElem?_insert, if_neg hk.symm]

theorem mem_taskRegistry_spawnTask
    (hk : k ∈ (tm.spawnTask id pml4Frame privilege stack).1.taskRegistry) :
    k = id ∨ k ∈ tm.taskRegistry := by
  by_cases hkid : k = id
  · exact .inl hkid
  · rw [Std.ExtTreeMap.mem_iff_isSome_getElem?, getElem?_taskRegistry_spawnTask hkid,
      ← Std.ExtTreeMap.mem_iff_isSome_getElem?] at hk
    exact .inr hk

/-- A call of `sys_wait4` either parks its caller and switches away, which it only does for a
registered task that is not dead, or fails for a task that is gone. -/
theorem sysWait4_cases (h : s.tm.Consistent) (hc : s.caller = some id)
    (hs : s.sysWait4 id pid = (s', ev)) :
    (¬ s.Gone pid ∧ ev = .silent ∧
        s' = { s with tm := (s.tm.setTaskState id .blocked).schedule
                      waiting := update s.waiting id (some pid) }) ∨
      (s.Gone pid ∧ ev = .returned id pid ECHILD ∧ s' = s) := by
  have hcur := (caller_eq_some.mp hc).1
  unfold sysWait4 at hs
  rcases waitForChild_cases h with ⟨hw, hreg, hlive⟩ | ⟨hw, hgone⟩
  · rw [hw] at hs
    cases hs
    refine .inl ⟨?_, rfl, ?_⟩
    · rintro (hn | hd)
      · exact hn hreg
      · exact hlive hd
    · rw [blockCurrentTask_of_current hcur]
  · rw [hw] at hs
    cases hs
    exact .inr ⟨hgone, rfl, rfl⟩

theorem Booted.initMultitasking (kernelPml4 targetPml4 stack₁ stack₂ : ℕ) :
    (initMultitasking kernelPml4 targetPml4 stack₁ stack₂).Booted := by
  have h1 : (empty.spawnTask 1 kernelPml4 .kernelMode (some stack₁)).1.Consistent :=
    consistent_empty.spawnTask _ _ _
  refine ⟨h1.spawnTask _ _ _, ?_, ?_, fun _ _ h => by cases h⟩
  · exact taskStates_setTaskState
  · intro k hk
    rcases mem_taskRegistry_spawnTask hk with rfl | hk
    · exact (by decide : 2 < 3)
    · rcases mem_taskRegistry_spawnTask hk with rfl | hk
      · exact (by decide : 1 < 3)
      · simp [empty] at hk

theorem reaper_not_current (hc : s.caller = some id) : s.tm.currentTask ≠ some REAPER := by
  obtain ⟨hcur, hid, -⟩ := caller_eq_some.mp hc
  rw [hcur]
  exact fun he => hid (Option.some.inj he)

/-- The reaper is never the caller, so a state change of the caller leaves it ready. -/
theorem Booted.reaper_setTaskState (h : s.Booted) (hc : s.caller = some id) (state : TaskState) :
    (s.tm.setTaskState id state).taskStates[REAPER]? = some .ready := by
  rw [taskStates_setTaskState, if_neg (caller_eq_some.mp hc).2.1]
  exact h.reaper_ready

theorem Booted.consistent_park (h : s.Booted) (hc : s.caller = some id) :
    (s.tm.setTaskState id .blocked).Consistent :=
  blockCurrentTask_of_current (caller_eq_some.mp hc).1 ▸ h.consistent.blockCurrentTask

theorem waiting_of_update_none {waiting : TaskId → Option TaskId} {c : TaskId}
    (h : update waiting c none id = some pid) : waiting id = some pid := by
  rw [update_apply] at h
  split_ifs at h
  exact h

theorem Booted.setTm (h : s.Booted) (hcons : tm.Consistent)
    (hready : tm.taskStates[REAPER]? = some .ready)
    (hreg : ∀ k ∈ tm.taskRegistry, k ∈ s.tm.taskRegistry) : Booted { s with tm := tm } :=
  ⟨hcons, hready, fun k hk => h.registered_lt k (hreg k hk), h.waiting_lt⟩

/-- Every step that does not wrap the counter keeps the facts about runs. -/
theorem Booted.step (h : s.Booted) (hrange : s.CounterInRange a)
    (hs : s.step a = some (s', ev)) : s'.Booted := by
  have hcases := step_cases hs
  cases a with
  | spawnDynamic targetPml4 stack =>
    obtain ⟨-, -, rfl⟩ := hcases
    have hrange : s.nextId + 1 < 2 ^ 64 := hrange
    have hnext : (s.nextId + 1) % 2 ^ 64 = s.nextId + 1 := Nat.mod_eq_of_lt hrange
    have hreaper : REAPER ≠ s.nextId :=
      (h.registered_lt _ (h.consistent.isSome_iff.mp (by rw [h.reaper_ready]; rfl))).ne
    refine ⟨h.consistent.spawnTask _ _ _, ?_, ?_, ?_⟩
    · show (spawnTask _ _ _ _ _).1.taskStates[REAPER]? = some .ready
      rw [taskStates_spawnTask hreaper]
      exact h.reaper_ready
    · intro k hk
      show k < (s.nextId + 1) % 2 ^ 64
      rw [hnext]
      rcases mem_taskRegistry_spawnTask hk with rfl | hk
      · exact Nat.lt_succ_self _
      · exact Nat.lt_succ_of_lt (h.registered_lt k hk)
    · intro k pid hk
      show pid < (s.nextId + 1) % 2 ^ 64
      rw [hnext]
      exact Nat.lt_succ_of_lt (h.waiting_lt k pid hk)
  | sysWait4 pid =>
    obtain ⟨id, hc, hw⟩ := hcases
    rcases sysWait4_cases h.consistent hc hw with ⟨hlive, -, rfl⟩ | ⟨-, -, rfl⟩
    · refine ⟨(h.consistent_park hc).schedule, ?_, ?_, ?_⟩
      · rw [taskStates_schedule]
        exact h.reaper_setTaskState hc .blocked
      · intro k hk
        rw [taskRegistry_schedule, taskRegistry_setTaskState] at hk
        exact h.registered_lt k hk
      · intro k pid' hk
        change update s.waiting id (some pid) k = some pid' at hk
        rw [update_apply] at hk
        split_ifs at hk
        · cases hk
          have hreg : pid ∈ s.tm.taskRegistry := by
            by_contra hn
            exact hlive (.inl hn)
          exact h.registered_lt pid hreg
        · exact h.waiting_lt k pid' hk
    · exact h
  | wait4Return =>
    obtain ⟨id, pid, -, -, -, rfl⟩ := hcases
    refine ⟨h.consistent, h.reaper_ready, h.registered_lt, ?_⟩
    intro k pid' hk
    exact h.waiting_lt k pid' (waiting_of_update_none hk)
  | sysExit =>
    obtain ⟨⟨id, hc⟩, -, rfl⟩ := hcases
    refine h.setTm h.consistent.exitCurrentTask ?_ fun k hk => taskRegistry_exitCurrentTask ▸ hk
    rw [taskStates_exitCurrentTask, if_neg (reaper_not_current hc)]
    exact h.reaper_ready
  | blockCurrentTask =>
    obtain ⟨⟨id, hc⟩, -, rfl⟩ := hcases
    refine h.setTm h.consistent.blockCurrentTask ?_ fun k hk => taskRegistry_blockCurrentTask ▸ hk
    rw [taskStates_blockCurrentTask, if_neg (reaper_not_current hc)]
    exact h.reaper_ready
  | unblockTask k =>
    obtain ⟨-, rfl⟩ := hcases
    refine h.setTm (h.consistent.unblockTask k) ?_ fun j hj => taskRegistry_unblockTask ▸ hj
    exact taskStates_unblockTask_of_awake h.reaper_ready (by decide)
  | tick =>
    obtain ⟨-, rfl⟩ := hcases
    refine h.setTm h.consistent.schedule ?_ fun j hj => taskRegistry_schedule ▸ hj
    rw [taskStates_schedule]
    exact h.reaper_ready
  | reap k =>
    obtain ⟨hdead, -, rfl⟩ := hcases
    have hk : k ≠ REAPER := fun he => by
      rw [he, h.reaper_ready] at hdead
      cases hdead
    refine h.setTm (h.consistent.kill hdead) ?_ fun j hj => mem_taskRegistry_of_kill hj
    rw [taskStates_kill hdead, if_neg hk, h.reaper_ready]
    simp

/-! ### A task that is gone stays gone -/

theorem gone_iff (h : s.tm.Consistent) :
    s.Gone pid ↔ ∀ state, s.tm.taskStates[pid]? = some state → state = .dead := by
  unfold Gone
  rw [← h.isSome_iff]
  cases s.tm.taskStates[pid]? with
  | none => simp
  | some state => simp

theorem not_gone_of_current (h : s.tm.Consistent) (hid : s.tm.currentTask = some id) :
    ¬ s.Gone id := by
  obtain ⟨hreg, hdead⟩ := h.current_live id hid
  rintro (hn | hd)
  · exact hn hreg
  · exact hdead hd

/-- A task that is gone stays gone. -/
theorem Gone.step (h : s.Booted) (h' : s'.Booted) (hpid : pid < s.nextId)
    (hgone : s.Gone pid) (hs : s.step a = some (s', ev)) : s'.Gone pid := by
  have hcases := step_cases hs
  have hst := (gone_iff h.consistent).mp hgone
  rw [gone_iff h'.consistent]
  intro state hstate
  cases a with
  | spawnDynamic targetPml4 stack =>
    obtain ⟨-, -, rfl⟩ := hcases
    rw [taskStates_spawnTask hpid.ne] at hstate
    exact hst state hstate
  | sysWait4 k =>
    obtain ⟨id, hc, hw⟩ := hcases
    have hne : id ≠ pid := fun he =>
      not_gone_of_current h.consistent (caller_eq_some.mp hc).1 (he ▸ hgone)
    rcases sysWait4_cases h.consistent hc hw with ⟨-, -, rfl⟩ | ⟨-, -, rfl⟩
    · rw [taskStates_schedule, taskStates_setTaskState, if_neg hne] at hstate
      exact hst state hstate
    · exact hst state hstate
  | wait4Return =>
    obtain ⟨_, _, -, -, -, rfl⟩ := hcases
    exact hst state hstate
  | sysExit =>
    obtain ⟨-, -, rfl⟩ := hcases
    rw [taskStates_exitCurrentTask] at hstate
    split_ifs at hstate
    · cases hstate
      rfl
    · exact hst state hstate
  | blockCurrentTask =>
    obtain ⟨-, -, rfl⟩ := hcases
    rw [taskStates_blockCurrentTask,
      if_neg fun he => not_gone_of_current h.consistent he hgone] at hstate
    exact hst state hstate
  | unblockTask k =>
    obtain ⟨-, rfl⟩ := hcases
    rw [taskStates_unblockTask] at hstate
    split_ifs at hstate with hk
    · cases hst _ hk.2
    · exact hst state hstate
  | tick =>
    obtain ⟨-, rfl⟩ := hcases
    rw [taskStates_schedule] at hstate
    exact hst state hstate
  | reap k =>
    obtain ⟨hdead, -, rfl⟩ := hcases
    rw [taskStates_kill hdead] at hstate
    split_ifs at hstate with hk hp
    · cases hst _ hp.2
    · exact hst state hstate

/-! ### Soundness -/

/-- Task `id` is parked by `wait_for_child` for a task that is still alive. -/
def AwaitsLive (s : Wait4System) (id : TaskId) : Prop :=
  match s.waiting id with
  | some pid => s.tm.taskStates[id]? = some .blocked ∧ ¬ s.Gone pid
  | none => False

instance (s : Wait4System) (id : TaskId) : Decidable (s.AwaitsLive id) := by
  unfold AwaitsLive
  split <;> infer_instance

/-- The step does not wake a task that is parked for a live task: no signal is spent on it, and
none of its children is removed.  It does not wrap the identifier counter either. -/
def WakesForChild (s : Wait4System) : Wait4Action → Prop
  | .spawnDynamic _ _ => s.nextId + 1 < 2 ^ 64
  | .unblockTask id => ¬ s.AwaitsLive id
  | .reap c => ∀ id ∈ s.tm.parentOf c, ¬ s.AwaitsLive id
  | _ => True

instance (s : Wait4System) (a : Wait4Action) : Decidable (s.WakesForChild a) := by
  cases a <;> unfold WakesForChild <;> infer_instance

theorem WakesForChild.counterInRange (h : s.WakesForChild a) : s.CounterInRange a := by
  cases a with
  | spawnDynamic => exact h
  | _ => trivial

/-- A task inside `sys_wait4(pid)` is parked and off the CPU as long as `pid` is alive. -/
def Settled (s : Wait4System) : Prop :=
  ∀ id pid, s.waiting id = some pid →
    (s.tm.taskStates[id]? = some .blocked ∧ s.tm.currentTask ≠ some id) ∨ s.Gone pid

/-- After a queue step the current task is ready, so a blocked one is off the CPU. -/
theorem currentTask_schedule_ne (h : tm.Consistent)
    (hready : tm.taskStates[REAPER]? = some .ready) (hid : tm.taskStates[id]? = some .blocked) :
    tm.schedule.currentTask ≠ some id := by
  obtain ⟨next, hcur, hnext⟩ := h.schedule_ready hready
  rw [hcur]
  intro he
  rw [Option.some.inj he, hid] at hnext
  simp at hnext

/-- A step wakes no task whose child is alive. -/
theorem Settled.step (h : s.Booted) (hset : s.Settled)
    (hguard : s.WakesForChild a) (hs : s.step a = some (s', ev)) : s'.Settled := by
  have h' := h.step hguard.counterInRange hs
  have hcases := step_cases hs
  -- a pid that was gone stays gone; only tasks parked for a live one need an argument
  suffices hkey : ∀ id pid, s'.waiting id = some pid → ¬ s'.Gone pid →
      s'.tm.taskStates[id]? = some .blocked ∧ s'.tm.currentTask ≠ some id by
    intro id pid hw
    by_cases hg : s'.Gone pid
    · exact .inr hg
    · exact .inl (hkey id pid hw hg)
  intro id pid hw hlive
  have hold : s.waiting id = some pid →
      s.tm.taskStates[id]? = some .blocked ∧ s.tm.currentTask ≠ some id := fun hw =>
    (hset id pid hw).resolve_right fun hg => hlive (hg.step h h' (h.waiting_lt id pid hw) hs)
  have hawaits : s.waiting id = some pid → s.AwaitsLive id := fun hw => by
    unfold AwaitsLive
    rw [hw]
    exact ⟨(hold hw).1, fun hg => hlive (hg.step h h' (h.waiting_lt id pid hw) hs)⟩
  cases a with
  | spawnDynamic targetPml4 stack =>
    obtain ⟨-, -, rfl⟩ := hcases
    obtain ⟨hb, hcur⟩ := hold hw
    have hid : id ≠ s.nextId :=
      (h.registered_lt id (h.consistent.isSome_iff.mp (by rw [hb]; rfl))).ne
    refine ⟨?_, ?_⟩
    · rw [taskStates_spawnTask hid]
      exact hb
    · rw [currentTask_spawnTask]
      exact hcur
  | sysWait4 k =>
    obtain ⟨c, hc, hwait⟩ := hcases
    rcases sysWait4_cases h.consistent hc hwait with ⟨-, -, rfl⟩ | ⟨-, -, rfl⟩
    · have hb : (s.tm.setTaskState c .blocked).taskStates[id]? = some .blocked := by
        rw [taskStates_setTaskState]
        split_ifs with hci
        · rfl
        · change update s.waiting c (some k) id = some pid at hw
          rw [update_of_ne (Ne.symm hci)] at hw
          exact (hold hw).1
      refine ⟨?_, ?_⟩
      · rw [taskStates_schedule]
        exact hb
      · exact currentTask_schedule_ne (h.consistent_park hc) (h.reaper_setTaskState hc .blocked) hb
    · exact hold hw
  | wait4Return =>
    obtain ⟨c, _, -, -, -, rfl⟩ := hcases
    exact hold (waiting_of_update_none hw)
  | sysExit =>
    obtain ⟨-, -, rfl⟩ := hcases
    obtain ⟨hb, hne⟩ := hold hw
    rw [taskStates_exitCurrentTask, if_neg hne, currentTask_exitCurrentTask]
    exact ⟨hb, (Option.some_ne_none id).symm⟩
  | blockCurrentTask =>
    obtain ⟨-, -, rfl⟩ := hcases
    obtain ⟨hb, hne⟩ := hold hw
    rw [taskStates_blockCurrentTask, if_neg hne, currentTask_blockCurrentTask]
    exact ⟨hb, hne⟩
  | unblockTask k =>
    obtain ⟨-, rfl⟩ := hcases
    obtain ⟨hb, hne⟩ := hold hw
    have hki : k ≠ id := fun he => hguard (he ▸ hawaits hw)
    rw [currentTask_unblockTask]
    exact ⟨blocked_unblockTask.mpr ⟨Ne.symm hki, hb⟩, hne⟩
  | tick =>
    obtain ⟨-, rfl⟩ := hcases
    obtain ⟨hb, -⟩ := hold hw
    refine ⟨?_, currentTask_schedule_ne h.consistent h.reaper_ready hb⟩
    rw [taskStates_schedule]
    exact hb
  | reap k =>
    obtain ⟨hdead, -, rfl⟩ := hcases
    obtain ⟨hb, hne⟩ := hold hw
    have hki : k ≠ id := fun he => by
      rw [he, hb] at hdead
      simp at hdead
    rw [taskStates_kill hdead, currentTask_kill, if_neg hki, if_neg]
    · exact ⟨hb, hne⟩
    · rintro ⟨hparent, -⟩
      exact hguard id hparent (hawaits hw)

/-- The kernel as `init_multitasking` leaves it. -/
def Initial (s : Wait4System) : Prop :=
  ∃ kernelPml4 targetPml4 stack₁ stack₂,
    s = initMultitasking kernelPml4 targetPml4 stack₁ stack₂

/-- **Soundness of `sys_wait4`**: in every run in which no step wakes a task that is parked for a
live one, a call `sys_wait4(pid)` that returns `pid` finds that task dead or gone. -/
theorem wait4_sound (h : Transition.Reach step Initial WakesForChild s) {a : Wait4Action}
    (hs : s.step a = some (s', .returned id pid pid)) : s.Gone pid := by
  have hinv : s.Booted ∧ s.Settled := by
    refine h.invariant (P := fun s => s.Booted ∧ s.Settled) ?_ ?_
    · rintro s ⟨kernelPml4, targetPml4, stack₁, stack₂, rfl⟩
      exact ⟨Booted.initMultitasking _ _ _ _, fun id pid hw => by cases hw⟩
    · rintro s a s' e ⟨hb, hset⟩ hguard hs
      exact ⟨hb.step hguard.counterInRange hs, hset.step hb hguard hs⟩
  obtain ⟨hboot, hset⟩ := hinv
  have hcases := step_cases hs
  cases a with
  | sysWait4 k =>
    obtain ⟨c, hc, hw⟩ := hcases
    rcases sysWait4_cases hboot.consistent hc hw with ⟨-, he, -⟩ | ⟨hg, he, -⟩
    · cases he
    · -- `-ECHILD` is only returned for a task that is gone
      cases he
      exact hg
  | wait4Return =>
    obtain ⟨c, k, hcur, hwait, he, -⟩ := hcases
    cases he
    exact (hset _ _ hwait).resolve_left fun hb => hb.2 hcur
  | spawnDynamic _ _ | sysExit | blockCurrentTask | reap _ => cases hcases.2.1
  | unblockTask k => cases hcases.1
  | tick => cases hcases.1

/-- The shell spawns task 3, waits for it, and is woken by its removal. -/
theorem wait4_sound_child_reaped : ∃ s s',
    Transition.Reach step Initial WakesForChild s ∧
    s.step .wait4Return = some (s', .returned 2 3 3) ∧ s.Gone 3 := by
  obtain ⟨⟨s, evs⟩, hrun, ⟨s', ev⟩, hs, rfl⟩ :
      ∃ r ∈ Transition.run (Transition.restrict WakesForChild step)
        (initMultitasking 0 1 0x10000 0x20000) [.tick, .tick, .spawnDynamic 2 (some 0x30000),
          .sysWait4 3, .tick, .sysExit, .tick, .reap 3, .tick],
      ∃ q ∈ r.1.step .wait4Return, q.2 = .returned 2 3 3 := by decide
  have hreach : Transition.Reach step Initial WakesForChild s :=
    Transition.Reach.of_run_restrict (.start ⟨0, 1, 0x10000, 0x20000, rfl⟩) hrun
  exact ⟨s, s', hreach, hs, wait4_sound hreach hs⟩

/-- The shell spawns tasks 3 and 4 and waits for 4.  Task 3 exits, its removal wakes the shell,
and `sys_wait4(4)` returns 4 while task 4 is ready to run. -/
theorem wait4_returns_while_child_alive : ∃ s s',
    Transition.Reach step Initial Transition.anyAction s ∧
    s.step .wait4Return = some (s', .returned 2 4 4) ∧ ¬ s.Gone 4 := by
  obtain ⟨⟨s, evs⟩, hrun, hgone, ⟨s', ev⟩, hs, rfl⟩ :
      ∃ r ∈ Transition.run step (initMultitasking 0 1 0x10000 0x20000)
        [.tick, .tick, .spawnDynamic 2 (some 0x30000), .spawnDynamic 3 (some 0x40000),
          .sysWait4 4, .tick, .sysExit, .tick, .tick, .reap 3, .tick, .tick],
      ¬ r.1.Gone 4 ∧ ∃ q ∈ r.1.step .wait4Return, q.2 = .returned 2 4 4 := by decide
  exact ⟨s, s', Transition.Reach.of_run (.start ⟨0, 1, 0x10000, 0x20000, rfl⟩) hrun, hs, hgone⟩

/-! ### No task is stranded -/

/-- The step does not park a task for one that is not its child, and does not wrap the identifier
counter. -/
def WaitsForOwnChild (s : Wait4System) : Wait4Action → Prop
  | .spawnDynamic _ _ => s.nextId + 1 < 2 ^ 64
  | .sysWait4 pid => ∀ id ∈ s.caller, ¬ s.Gone pid → s.tm.parentOf pid = some id
  | _ => True

instance (s : Wait4System) (a : Wait4Action) : Decidable (s.WaitsForOwnChild a) := by
  cases a <;> unfold WaitsForOwnChild <;> infer_instance

theorem WaitsForOwnChild.counterInRange (h : s.WaitsForOwnChild a) : s.CounterInRange a := by
  cases a with
  | spawnDynamic => exact h
  | _ => trivial

/-- A parked task is the recorded parent of the task it is parked for. -/
def ParkedForChild (s : Wait4System) : Prop :=
  ∀ id pid, s.Parked id pid → s.tm.parentOf pid = some id

theorem ParkedForChild.step (h : s.Booted) (hpar : s.ParkedForChild)
    (hguard : s.WaitsForOwnChild a) (hs : s.step a = some (s', ev)) : s'.ParkedForChild := by
  have hcases := step_cases hs
  rintro id pid ⟨hw, hb⟩
  cases a with
  | spawnDynamic targetPml4 stack =>
    obtain ⟨-, -, rfl⟩ := hcases
    have hpid : pid ≠ s.nextId := (h.waiting_lt id pid hw).ne
    have hold : s.tm.taskStates[id]? = some .blocked := by
      rcases spawnTask_cases with hsame | ⟨task, -, hnew⟩
      · rwa [hsame] at hb
      · change (spawnTask _ _ _ _ _).1.taskStates[id]? = some .blocked at hb
        rw [hnew, taskStates_setTaskState] at hb
        split_ifs at hb
        · -- the new task is ready
          cases hb
        · exact hb
    unfold parentOf
    rw [getElem?_taskRegistry_spawnTask hpid]
    exact hpar id pid ⟨hw, hold⟩
  | sysWait4 k =>
    obtain ⟨c, hc, hwait⟩ := hcases
    rcases sysWait4_cases h.consistent hc hwait with ⟨hlive, -, rfl⟩ | ⟨-, -, rfl⟩
    · rw [parentOf_congr (taskRegistry_schedule.trans taskRegistry_setTaskState)]
      change update s.waiting c (some k) id = some pid at hw
      rw [taskStates_schedule, taskStates_setTaskState] at hb
      rw [update_apply] at hw
      split_ifs at hw with hci
      · cases hw
        exact hci ▸ hguard c hc hlive
      · rw [if_neg (Ne.symm hci)] at hb
        exact hpar id pid ⟨hw, hb⟩
    · exact hpar id pid ⟨hw, hb⟩
  | wait4Return =>
    obtain ⟨c, _, -, -, -, rfl⟩ := hcases
    exact hpar id pid ⟨waiting_of_update_none hw, hb⟩
  | sysExit =>
    obtain ⟨-, -, rfl⟩ := hcases
    rw [parentOf_congr taskRegistry_exitCurrentTask]
    rw [taskStates_exitCurrentTask] at hb
    split_ifs at hb
    · cases hb
    · exact hpar id pid ⟨hw, hb⟩
  | blockCurrentTask =>
    obtain ⟨⟨c, hc⟩, -, rfl⟩ := hcases
    obtain ⟨hcur, -, hnw⟩ := caller_eq_some.mp hc
    have hne : s.tm.currentTask ≠ some id := fun he => by
      obtain rfl : c = id := Option.some.inj (hcur.symm.trans he)
      rw [hnw] at hw
      cases hw
    rw [parentOf_congr taskRegistry_blockCurrentTask]
    rw [taskStates_blockCurrentTask, if_neg hne] at hb
    exact hpar id pid ⟨hw, hb⟩
  | unblockTask k =>
    obtain ⟨-, rfl⟩ := hcases
    rw [parentOf_congr taskRegistry_unblockTask]
    exact hpar id pid ⟨hw, (blocked_unblockTask.mp hb).2⟩
  | tick =>
    obtain ⟨-, rfl⟩ := hcases
    rw [parentOf_congr taskRegistry_schedule]
    rw [taskStates_schedule] at hb
    exact hpar id pid ⟨hw, hb⟩
  | reap k =>
    obtain ⟨hdead, -, rfl⟩ := hcases
    rw [taskStates_kill hdead] at hb
    split_ifs at hb with hki hparent
    · cases hb
    · have hpid := hpar id pid ⟨hw, hb⟩
      -- had `pid` been the task that is removed, its parent would have been woken
      have hpk : k ≠ pid := fun he => hparent ⟨he ▸ hpid, hb⟩
      unfold parentOf
      rw [getElem?_taskRegistry_kill, if_neg hpk]
      exact hpid

/-- **No task is stranded by `sys_wait4`**: in every run in which tasks only wait for their own
children, the removal of a task makes every task parked for it ready, and a task that is parked is
parked for a registered one. -/
theorem wait4_not_stranded (h : Transition.Reach step Initial WaitsForOwnChild s) :
    (∀ id pid s' ev, s.Parked id pid → s.step (.reap pid) = some (s', ev) →
      s'.tm.taskStates[id]? = some .ready) ∧
    ∀ id pid, s.Parked id pid → pid ∈ s.tm.taskRegistry := by
  have hinv : s.Booted ∧ s.ParkedForChild := by
    refine h.invariant (P := fun s => s.Booted ∧ s.ParkedForChild) ?_ ?_
    · rintro s ⟨kernelPml4, targetPml4, stack₁, stack₂, rfl⟩
      exact ⟨Booted.initMultitasking _ _ _ _, fun id pid hp => by cases hp.1⟩
    · rintro s a s' e ⟨hb, hpar⟩ hguard hs
      exact ⟨hb.step hguard.counterInRange hs, hpar.step hb hguard hs⟩
  obtain ⟨hboot, hpar⟩ := hinv
  refine ⟨?_, ?_⟩
  · intro id pid s' ev hp hs
    obtain ⟨hdead, -, rfl⟩ := step_cases hs
    have hne : pid ≠ id := fun he => by
      rw [he, hp.2] at hdead
      cases hdead
    show (s.tm.kill pid).1.taskStates[id]? = some .ready
    rw [taskStates_kill hdead, if_neg hne, if_pos ⟨hpar id pid hp, hp.2⟩]
  · intro id pid hp
    have hparent := hpar id pid hp
    unfold parentOf at hparent
    obtain ⟨task, htask, -⟩ := Option.bind_eq_some_iff.mp hparent
    exact Std.ExtTreeMap.mem_iff_isSome_getElem?.mpr (by rw [htask]; rfl)

/-- The shell waits for its child 3, which exits; the removal makes the shell ready. -/
theorem wait4_not_stranded_child_reaped : ∃ s s' ev,
    Transition.Reach step Initial WaitsForOwnChild s ∧ s.Parked 2 3 ∧
    s.step (.reap 3) = some (s', ev) ∧ s'.tm.taskStates[2]? = some .ready := by
  obtain ⟨⟨s, evs⟩, hrun, hp, ⟨s', ev⟩, hs, -⟩ :
      ∃ r ∈ Transition.run (Transition.restrict WaitsForOwnChild step)
        (initMultitasking 0 1 0x10000 0x20000)
        [.tick, .tick, .spawnDynamic 2 (some 0x30000), .sysWait4 3, .tick, .sysExit, .tick],
      r.1.Parked 2 3 ∧ ∃ q ∈ r.1.step (.reap 3), q.2 = .silent := by decide
  have hreach : Transition.Reach step Initial WaitsForOwnChild s :=
    Transition.Reach.of_run_restrict (.start ⟨0, 1, 0x10000, 0x20000, rfl⟩) hrun
  exact ⟨s, s', ev, hreach, hp, hs, (wait4_not_stranded hreach).1 2 3 s' ev hp hs⟩

/-- The shell spawns tasks 3 and 4, and 3 waits for 4, which is registered and alive but no child
of it.  Task 4 exits and is removed; 3 stays blocked for a task that no longer exists. -/
theorem wait4_sibling_stranded : ∃ s s' ev,
    Transition.Reach step Initial Transition.anyAction s ∧ s.Parked 3 4 ∧
    s.step (.reap 4) = some (s', ev) ∧ s'.Parked 3 4 ∧ 4 ∉ s'.tm.taskRegistry := by
  obtain ⟨⟨s, evs⟩, hrun, hparked, ⟨s', ev⟩, hs, hstill, hgone⟩ :
      ∃ r ∈ Transition.run step (initMultitasking 0 1 0x10000 0x20000)
        [.tick, .tick, .spawnDynamic 2 (some 0x30000), .spawnDynamic 3 (some 0x40000),
          .tick, .tick, .sysWait4 4, .sysExit, .tick, .tick],
      r.1.Parked 3 4 ∧ ∃ q ∈ r.1.step (.reap 4), q.1.Parked 3 4 ∧ 4 ∉ q.1.tm.taskRegistry := by
    decide
  exact ⟨s, s', ev, Transition.Reach.of_run (.start ⟨0, 1, 0x10000, 0x20000, rfl⟩) hrun,
    hparked, hs, hstill, hgone⟩

end NwinOs.Tasking.Wait4System
