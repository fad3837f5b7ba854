import NwinOs.Tasking.Reaper
import NwinOs.Tasking.Equiv.Scheduler

/-!
# The reaper frees nothing that is in use

The argument has two parts.  `MemoryOwned`: the tasks whose memory is in use (the registered ones
and the one in the reaper's hand) have kernel stacks and page tables of their own, because the heap
and the frame allocator give out only what is free.  `ReaperRuns`: while the reaper's code executes,
the reaper is the current task, with its own stack and the boot page table; it got the core by a
switch, which loads the registers of the task that it makes current, and nothing that happens while
it executes can end it.

`reaper_safe` puts them together for every run from `init`.  It does not depend on identifiers being
unique: a task that is spawned under the identifier of another one replaces it, and the address
space of the replaced one is never destroyed.
-/

namespace NwinOs.Tasking

open TaskManager Option ReaperSystem

/-- Two tasks share neither a kernel stack nor a page table. -/
structure Task.Apart (t t' : Task) : Prop where
  disjoint : t.stackEnd ≤ t'.stackStart ∨ t'.stackEnd ≤ t.stackStart
  frames : t.pml4Frame ≠ t'.pml4Frame

theorem Task.Apart.symm {t t' : Task} (h : t.Apart t') : t'.Apart t :=
  ⟨h.disjoint.symm, h.frames.symm⟩

/-- The same task, perhaps with another stack pointer saved. -/
structure Task.SameMemory (t t' : Task) : Prop where
  stackStart : t'.stackStart = t.stackStart
  stackEnd : t'.stackEnd = t.stackEnd
  pml4Frame : t'.pml4Frame = t.pml4Frame
  privilege : t'.privilege = t.privilege

theorem Task.SameMemory.refl (t : Task) : t.SameMemory t := ⟨rfl, rfl, rfl, rfl⟩

theorem Task.Apart.congr {t u t' u' : Task} (h : t.Apart u) (ht : t.SameMemory t')
    (hu : u.SameMemory u') : t'.Apart u' := by
  refine ⟨?_, ?_⟩
  · rw [ht.stackEnd, hu.stackStart, hu.stackEnd, ht.stackStart]
    exact h.disjoint
  · rw [ht.pml4Frame, hu.pml4Frame]
    exact h.frames

/-- Every task of the second registry is one of the first. -/
def TaskManager.Shrinks (tm tm' : TaskManager) : Prop :=
  ∀ (i : TaskId) (t' : Task), tm'.taskRegistry[i]? = some t' →
    ∃ t, tm.taskRegistry[i]? = some t ∧ t.SameMemory t'

theorem TaskManager.Shrinks.of_eq {tm tm' : TaskManager} (h : tm'.taskRegistry = tm.taskRegistry) :
    tm.Shrinks tm' :=
  fun _ t' ht' => ⟨t', h ▸ ht', .refl t'⟩

/-- The identifiers that the reaper still has to purge. -/
def ReaperPc.ids : ReaperPc → List TaskId
  | .asleep => []
  | .purging ids => ids
  | .holding _ ids => ids

namespace ReaperSystem

variable {s s' : ReaperSystem} {t t' : Task} {i j id : TaskId} {tm : TaskManager}

/-! ### The invariant -/

/-- Every task in use has a stack and a page table of its own. -/
structure MemoryOwned (s : ReaperSystem) : Prop where
  sized : ∀ (i : TaskId) (t : Task), s.machine.tm.taskRegistry[i]? = some t →
    t.stackEnd = t.stackStart + STACK_SIZE
  apart : ∀ (i j : TaskId) (t t' : Task), s.machine.tm.taskRegistry[i]? = some t →
    s.machine.tm.taskRegistry[j]? = some t' → i ≠ j → t.Apart t'
  /-- The only kernel-mode task is the first one, on the boot page table. -/
  kernel : ∀ (i : TaskId) (t : Task), s.machine.tm.taskRegistry[i]? = some t →
    t.privilege = .kernelMode → i = 1 ∧ t.pml4Frame = s.bootPml4
  held_apart : ∀ (t : Task) (i : TaskId) (t' : Task), s.reaper.held = some t →
    s.machine.tm.taskRegistry[i]? = some t' → t.Apart t'

/-- The reaper `t` has the core, with its own registers. -/
structure ReaperRuns (s : ReaperSystem) (e : Executing) (t : Task) : Prop where
  current : s.machine.tm.currentTask = some 1
  registered : s.machine.tm.taskRegistry[1]? = some t
  stack : t.stackStart = e.stackStart
  level : t.privilege = .kernelMode
  cr3 : s.machine.regs.cr3 = s.bootPml4
  kernelRsp : s.machine.regs.kernelRsp = t.stackEnd

/-- What holds between any two actions. -/
structure Inv (s : ReaperSystem) : Prop where
  consistent : s.machine.tm.Consistent
  resumable : s.machine.Resumable
  memory : s.MemoryOwned
  ids : 1 ∉ s.reaper.ids
  cpu : ∀ e, s.cpu = some e → e.privilege = .kernelMode → ∃ t, s.ReaperRuns e t

theorem executes_iff {privilege : PrivilegeLevel} :
    s.executes privilege = true ↔ ∃ e, s.cpu = some e ∧ e.privilege = privilege := by
  unfold executes
  cases s.cpu with
  | none => simp
  | some e => simp

theorem not_kernelMode_of_user (h : s.executes .userMode = true) {e : Executing}
    (he : s.cpu = some e) : e.privilege ≠ .kernelMode := by
  obtain ⟨e', he', hlevel⟩ := executes_iff.mp h
  cases he.symm.trans he'
  rw [hlevel]
  exact fun h => (nomatch h)

/-! ### What an action changes -/

/-- The changes that actions make. -/
inductive Changes (s : ReaperSystem) : ReaperSystem → Option ReaperEvent → Prop
  | schedule {rsp : ℕ} {r : Machine × Option Switch} (hrsp : rsp ≠ 0)
      (h : Machine.schedule ⟨s.machine.tm, { s.machine.regs with rsp := rsp }⟩ = some r) :
      Changes s { s with machine := r.1, cpu := if r.2.isSome then dispatched r.1 else s.cpu } none
  | spawn {p : ℕ} {stack : Option ℕ} (huser : s.executes .userMode = true)
      (hfresh : s.fresh p stack = true) : Changes s (s.spawn p stack).1 (s.spawn p stack).2
  /-- The task manager is told about its current task or another one.  The current task stays,
  unless it is in Ring 3 or is not the reaper. -/
  | setTm {tm : TaskManager} (hc : s.machine.tm.Consistent → tm.Consistent)
      (hreg : tm.taskRegistry = s.machine.tm.taskRegistry)
      (hcur : tm.currentTask = s.machine.tm.currentTask ∨ s.executes .userMode = true ∨
        s.machine.tm.currentTask ≠ some 1) : Changes s (s.setTm tm) none
  /-- The reaper moves on with empty hands. -/
  | setReaper {pc : ReaperPc} (hheld : pc.held = none)
      (hids : ∀ id, id ∈ pc.ids → id ∈ s.reaper.ids ∨
        s.executes .kernelMode = true ∧ id ∈ tareasMuertas s.machine.tm) :
      Changes s { s with reaper := pc } none
  | purge {id : TaskId} {rest : List TaskId} {pc : ReaperPc}
      (hpc : s.reaper = .purging (id :: rest)) (hexec : s.executes .kernelMode = true)
      (hids : pc.ids = rest) (hheld : pc.held = s.machine.tm.taskRegistry[id]?) :
      Changes s { s.setTm (s.machine.tm.kill id).1 with reaper := pc } none
  | reclaim {task : Task} {rest : List TaskId} (hpc : s.reaper = .holding task rest)
      (hexec : s.executes .kernelMode = true) :
      Changes s { s with reaper := .purging rest } (some (.reclaimed task))

variable {a : ReaperAction} {ev : Option ReaperEvent} {r : Machine × Option Switch}

/-- **Every action makes one of the changes.** -/
theorem changes_of_step (hs : s.step a = some (s', ev)) : Changes s s' ev := by
  cases a with
  | schedule rsp =>
    rw [step] at hs
    split_ifs at hs with hrsp
    obtain ⟨⟨mc, sw⟩, hsched, heq⟩ := map_eq_some_iff.mp hs
    cases heq
    have hchange := Changes.schedule hrsp hsched
    cases sw with
    | none => exact hchange
    | some data => exact hchange
  | spawnDynamic targetPml4 stack =>
    rw [step] at hs
    split_ifs at hs with hguard
    have hchange := Changes.spawn hguard.1 hguard.2
    rw [Option.some.inj hs] at hchange
    exact hchange
  | waitForChild childId =>
    rw [step] at hs
    split_ifs at hs with hguard
    cases hs
    refine .setTm (fun hc => hc.waitForChild childId) ?_ (.inr (.inl hguard))
    rcases s.machine.tm.waitForChild_eq childId with hblock | hsame
    · rw [hblock]
      exact taskRegistry_blockCurrentTask
    · rw [hsame]
  | blockCurrentTask =>
    cases hs
    exact .setTm (fun hc => hc.blockCurrentTask) taskRegistry_blockCurrentTask
      (.inl currentTask_blockCurrentTask)
  | unblockTask id =>
    cases hs
    exact .setTm (fun hc => hc.unblockTask id) taskRegistry_unblockTask
      (.inl currentTask_unblockTask)
  | exitCurrentTask =>
    rw [step] at hs
    split_ifs at hs with hguard
    cases hs
    exact .setTm (fun hc => hc.exitCurrentTask) taskRegistry_exitCurrentTask (.inr (.inl hguard))
  | ctrlC =>
    have hsame : Changes s s none := .setTm (fun hc => hc) rfl (.inl rfl)
    rw [step] at hs
    split at hs
    · rename_i id hid
      split_ifs at hs with hgt
      · cases hs
        -- the reaper is task 1, which Ctrl+C spares
        refine .setTm (fun hc => hc.exitCurrentTask) taskRegistry_exitCurrentTask (.inr (.inr ?_))
        rw [hid]
        exact fun h => absurd hgt (by rw [Option.some.inj h]; decide)
      · cases hs
        exact hsame
    · cases hs
      exact hsame
  | collect =>
    rw [step] at hs
    split_ifs at hs with hguard
    cases hs
    exact .setReaper rfl fun id hid => .inr ⟨hguard.1, hid⟩
  | purge =>
    rw [step] at hs
    split at hs
    · rename_i id rest hpc
      split_ifs at hs with hexec
      dsimp only at hs
      rw [kill_snd] at hs
      cases hs
      cases htask : s.machine.tm.taskRegistry[id]? with
      | none | some _ => exact .purge hpc hexec rfl htask.symm
    · cases hs
  | reclaim =>
    rw [step] at hs
    split at hs
    · rename_i task rest hpc
      split_ifs at hs with hexec
      cases hs
      exact .reclaim hpc hexec
    · cases hs
  | sleep =>
    rw [step] at hs
    split_ifs at hs with hguard
    cases hs
    exact .setReaper rfl fun id hid => absurd hid List.not_mem_nil

/-! ### Keeping the invariant -/

theorem MemoryOwned.shrink (h : s.MemoryOwned) (hreg : s.machine.tm.Shrinks s'.machine.tm)
    (hheld : ∀ t, s'.reaper.held = some t → s.reaper.held = some t)
    (hboot : s'.bootPml4 = s.bootPml4) : s'.MemoryOwned := by
  refine ⟨fun i t ht => ?_, fun i j t t' ht ht' hij => ?_, fun i t ht hkernel => ?_,
    fun t i t' ht ht' => ?_⟩
  · obtain ⟨u, hu, hsame⟩ := hreg i t ht
    rw [hsame.stackEnd, hsame.stackStart]
    exact h.sized i u hu
  · obtain ⟨u, hu, hsame⟩ := hreg i t ht
    obtain ⟨u', hu', hsame'⟩ := hreg j t' ht'
    exact (h.apart i j u u' hu hu' hij).congr hsame hsame'
  · obtain ⟨u, hu, hsame⟩ := hreg i t ht
    rw [hsame.pml4Frame, hboot]
    exact h.kernel i u hu (hsame.privilege ▸ hkernel)
  · obtain ⟨u', hu', hsame'⟩ := hreg i t' ht'
    exact (h.held_apart t i u' (hheld t ht) hu').congr (.refl t) hsame'

theorem Inv.setTm (h : s.Inv) (hc : tm.Consistent)
    (hreg : tm.taskRegistry = s.machine.tm.taskRegistry)
    (hcur : s.executes .kernelMode = true → tm.currentTask = s.machine.tm.currentTask) :
    (s.setTm tm).Inv := by
  refine ⟨hc, fun i t ht => h.resumable i t (hreg ▸ ht),
    h.memory.shrink (.of_eq hreg) (fun t ht => ht) rfl, h.ids, fun e he hkernel => ?_⟩
  obtain ⟨t, hruns⟩ := h.cpu e he hkernel
  have hsame := hcur (executes_iff.mpr ⟨e, he, hkernel⟩)
  exact ⟨t, hsame.trans hruns.current, hreg ▸ hruns.registered, hruns.stack, hruns.level, hruns.cr3,
    hruns.kernelRsp⟩

/-! ### Scheduling -/

theorem shrinks_saveRsp (slot : RspSlot) (rsp : ℕ) : tm.Shrinks (tm.schedule.saveRsp slot rsp) := by
  intro i t' ht'
  rw [getElem?_taskRegistry_saveRsp, taskRegistry_schedule] at ht'
  obtain ⟨t, ht, rfl⟩ := map_eq_some_iff.mp ht'
  refine ⟨t, ht, ?_⟩
  split_ifs
  · exact ⟨rfl, rfl, rfl, rfl⟩
  · exact .refl t

/-- The registry through a call of `schedule`, with a switch or without one. -/
theorem Inv.schedule_shrinks (h : s.Inv) {rsp : ℕ}
    (hsched : Machine.schedule ⟨s.machine.tm, { s.machine.regs with rsp := rsp }⟩ = some r) :
    s.machine.tm.Shrinks r.1.tm := by
  rcases @Machine.schedule_cases ⟨s.machine.tm, { s.machine.regs with rsp := rsp }⟩ h.consistent
      h.resumable with ⟨hcase, -⟩ | ⟨next, task, -, -, -, hcase⟩
  · rw [hcase] at hsched
    cases hsched
    refine .of_eq ?_
    rw [Machine.tm_updateKernelRsp]
    exact taskRegistry_schedule
  · rw [hcase] at hsched
    cases hsched
    exact shrinks_saveRsp _ _

/-- **A switch to the reaper loads the reaper's registers**, and without a switch they stay. -/
theorem Inv.schedule (h : s.Inv) {rsp : ℕ} (hrsp : rsp ≠ 0)
    (hsched : Machine.schedule ⟨s.machine.tm, { s.machine.regs with rsp := rsp }⟩ = some r) :
    Inv { s with machine := r.1, cpu := if r.2.isSome then dispatched r.1 else s.cpu } := by
  obtain ⟨hconsistent, hresumable⟩ := @Machine.Resumable.schedule
    ⟨s.machine.tm, { s.machine.regs with rsp := rsp }⟩ _ _ h.resumable h.consistent hrsp hsched
  refine ⟨hconsistent, hresumable,
    h.memory.shrink (h.schedule_shrinks hsched) (fun t ht => ht) rfl, h.ids, fun e he hkernel => ?_⟩
  rcases @Machine.schedule_cases ⟨s.machine.tm, { s.machine.regs with rsp := rsp }⟩ h.consistent
      h.resumable with ⟨hcase, hcur⟩ | ⟨next, task, hnext, hne, htask, hcase⟩
  · rw [hcase] at hsched
    cases hsched
    obtain ⟨t, hruns⟩ := h.cpu e he hkernel
    have hupdate := @Machine.updateKernelRsp_of_current
      ⟨s.machine.tm.schedule, { s.machine.regs with rsp := rsp }⟩ 1 t (hcur.trans hruns.current)
      (by rw [taskRegistry_schedule]; exact hruns.registered)
    refine ⟨t, ?_, ?_, hruns.stack, hruns.level, ?_, ?_⟩
    · rw [hupdate]
      exact hcur.trans hruns.current
    · rw [hupdate, taskRegistry_schedule]
      exact hruns.registered
    · rw [hupdate]
      exact hruns.cr3
    · rw [hupdate]
  · rw [hcase] at hsched
    cases hsched
    have hswitched := @Machine.getElem?_switched
      ⟨s.machine.tm, { s.machine.regs with rsp := rsp }⟩ next hne rsp
    -- the code that executes now is that of the task switched to
    have hexec : e = ⟨task.stackStart, task.privilege⟩ := by
      simp only [isSome_some, if_true, dispatched, currentTask_saveRsp, hnext,
        bind_some, hswitched, htask, map_some, Option.some.injEq] at he
      exact he.symm
    subst hexec
    obtain ⟨rfl, hboot⟩ := h.memory.kernel next task htask hkernel
    refine ⟨task, ?_, hswitched.trans htask, rfl, hkernel, hboot, rfl⟩
    rw [currentTask_saveRsp]
    exact hnext

/-! ### Spawning -/

theorem mem_live : t ∈ s.live ↔
    (∃ i : TaskId, s.machine.tm.taskRegistry[i]? = some t) ∨ s.reaper.held = some t := by
  simp only [live, List.mem_append, List.mem_map, Prod.exists, exists_eq_right,
    Std.ExtTreeMap.mem_toList_iff_getElem?_eq_some, mem_toList]

variable {p : ℕ} {rest : List TaskId} {pc : ReaperPc} {start : ℕ} {task : Task}

theorem apart_of_fresh (h : s.fresh p (some start) = true) (ht : t ∈ s.live)
    (hpml4 : t'.pml4Frame = p) (hstart : t'.stackStart = start)
    (hend : t'.stackEnd = start + STACK_SIZE) : t.Apart t' := by
  simp only [fresh, Bool.and_eq_true, List.all_eq_true, bne_iff_ne, ne_eq, all_some,
    Bool.or_eq_true, decide_eq_true_eq] at h
  obtain ⟨hframe, hstack⟩ := h.2 t ht
  refine ⟨?_, ?_⟩
  · rw [hstart, hend]
    exact hstack
  · rw [hpml4]
    exact hframe

theorem spawnTask_some (tm : TaskManager) (id : TaskId) (p : ℕ) (privilege : PrivilegeLevel)
    (start : ℕ) : ∃ tm' task, tm.spawnTask id p privilege (some start) = (tm', .ok id) ∧
      (∀ i : TaskId, tm'.taskRegistry[i]? = if id = i then some task else tm.taskRegistry[i]?) ∧
      task.pml4Frame = p ∧ task.privilege = privilege ∧ task.stackStart = start ∧
      task.stackEnd = start + STACK_SIZE := by
  obtain ⟨task, hnew, hid, hpml4, hlevel, hstart, hend⟩ :
      ∃ task, Task.new id p privilege tm.currentTask (some start) = .ok task ∧ task.id = id ∧
        task.pml4Frame = p ∧ task.privilege = privilege ∧ task.stackStart = start ∧
        task.stackEnd = start + STACK_SIZE := ⟨_, rfl, rfl, rfl, rfl, rfl, rfl⟩
  refine ⟨{ tm with taskRegistry := tm.taskRegistry.insert id task }.setTaskState id .ready, task,
    ?_, fun i => ?_, hpml4, hlevel, hstart, hend⟩
  · rw [spawnTask, hnew]
    dsimp only
    rw [hid]
  · rw [taskRegistry_setTaskState, getElem?_insert]

theorem MemoryOwned.spawn (h : s.MemoryOwned) (hfresh : s.fresh p (some start) = true)
    (hreg : ∀ i : TaskId, tm.taskRegistry[i]? =
      if id = i then some task else s.machine.tm.taskRegistry[i]?)
    (hpml4 : task.pml4Frame = p) (huser : task.privilege = .userMode)
    (hstart : task.stackStart = start) (hend : task.stackEnd = start + STACK_SIZE) :
    (s.setTm tm).MemoryOwned := by
  have hold : ∀ (i : TaskId) (t : Task), tm.taskRegistry[i]? = some t →
      (i = id ∧ t = task) ∨ (i ≠ id ∧ s.machine.tm.taskRegistry[i]? = some t) := by
    intro i t ht
    rw [hreg] at ht
    split_ifs at ht with hi
    · exact .inl ⟨hi.symm, (Option.some.inj ht).symm⟩
    · exact .inr ⟨fun h => hi h.symm, ht⟩
  have hnew : ∀ t, t ∈ s.live → t.Apart task := fun t ht =>
    apart_of_fresh hfresh ht hpml4 hstart hend
  refine ⟨fun i t ht => ?_, fun i j t t' ht ht' hij => ?_, fun i t ht hkernel => ?_,
    fun t i t' ht ht' => ?_⟩
  · rcases hold i t ht with ⟨-, rfl⟩ | ⟨-, ht⟩
    · rw [hend, hstart]
    · exact h.sized i t ht
  · rcases hold i t ht with ⟨rfl, rfl⟩ | ⟨-, ht⟩
    · rcases hold j t' ht' with ⟨rfl, -⟩ | ⟨-, ht'⟩
      · exact absurd rfl hij
      · exact (hnew t' (mem_live.mpr (.inl ⟨j, ht'⟩))).symm
    · rcases hold j t' ht' with ⟨-, rfl⟩ | ⟨-, ht'⟩
      · exact hnew t (mem_live.mpr (.inl ⟨i, ht⟩))
      · exact h.apart i j t t' ht ht' hij
  · rcases hold i t ht with ⟨-, rfl⟩ | ⟨-, ht⟩
    · rw [huser] at hkernel
      cases hkernel
    · exact h.kernel i t ht hkernel
  · rcases hold i t' ht' with ⟨-, rfl⟩ | ⟨-, ht'⟩
    · exact hnew t (mem_live.mpr (.inr ht))
    · exact h.held_apart t i t' ht ht'

/-- A spawn is made by a Ring 3 task, so the reaper does not execute. -/
theorem Inv.spawn (h : s.Inv) {stack : Option ℕ} (huser : s.executes .userMode = true)
    (hfresh : s.fresh p stack = true) : (s.spawn p stack).1.Inv := by
  have hcpu : ∀ e, s.cpu = some e → e.privilege ≠ .kernelMode :=
    fun e he => not_kernelMode_of_user huser he
  cases stack with
  | none =>
    exact ⟨h.consistent, h.resumable, h.memory.shrink (.of_eq rfl) (fun t ht => ht) rfl, h.ids,
      fun e he hkernel => absurd hkernel (hcpu e he)⟩
  | some start =>
    obtain ⟨tm', task, hspawn, hreg, hpml4, hlevel, hstart, hend⟩ :=
      spawnTask_some s.machine.tm s.nextId p .userMode start
    have hrun : (s.spawn p (some start)).1 =
        { s.setTm tm' with nextId := (s.nextId + 1) % 2 ^ 64 } := by
      simp only [ReaperSystem.spawn, TaskId.new, TaskManager.spawnDynamic, hspawn]
    have hc : tm'.Consistent := by
      have : (s.machine.tm.spawnTask s.nextId p .userMode (some start)).1.Consistent :=
        h.consistent.spawnTask p .userMode (some start)
      rw [hspawn] at this
      exact this
    have hmemory := h.memory.spawn hfresh hreg hpml4 hlevel hstart hend
    rw [hrun]
    refine ⟨hc, fun i t ht => ?_, hmemory.shrink (.of_eq rfl) (fun t ht => ht) rfl, h.ids,
      fun e he hkernel => absurd hkernel (hcpu e he)⟩
    have ht' : (s.machine.tm.spawnTask s.nextId p .userMode (some start)).1.taskRegistry[i]? =
        some t := by
      rw [hspawn]
      exact ht
    rcases getElem?_taskRegistry_spawnTask ht' with hold | ⟨-, hrsp⟩
    · exact h.resumable i t hold
    · exact hrsp

/-! ### The reaper's steps -/

/-- The current task is not dead, so the reaper does not collect itself. -/
theorem Inv.not_mem_tareasMuertas (h : s.Inv) (hexec : s.executes .kernelMode = true) :
    1 ∉ tareasMuertas s.machine.tm := by
  obtain ⟨e, he, hkernel⟩ := executes_iff.mp hexec
  obtain ⟨t, hruns⟩ := h.cpu e he hkernel
  intro hmem
  simp only [tareasMuertas, List.mem_map, List.mem_filter, decide_eq_true_eq, Prod.exists,
    exists_and_right, exists_eq_right] at hmem
  rw [Std.ExtTreeMap.mem_toList_iff_getElem?_eq_some] at hmem
  exact (h.consistent.current_live 1 hruns.current).2 hmem

theorem Inv.setReaper (h : s.Inv) (hids : 1 ∉ pc.ids) (hheld : pc.held = none) :
    Inv { s with reaper := pc } := by
  refine ⟨h.consistent, h.resumable, h.memory.shrink (.of_eq rfl) (fun t ht => ?_) rfl, hids,
    fun e he hkernel => ?_⟩
  · rw [hheld] at ht
    cases ht
  · obtain ⟨t, hruns⟩ := h.cpu e he hkernel
    exact ⟨t, hruns.current, hruns.registered, hruns.stack, hruns.level, hruns.cr3, hruns.kernelRsp⟩

/-- **Purging** takes a task other than the reaper out of the registry and into its hand. -/
theorem Inv.purge (h : s.Inv) (hpc : s.reaper = .purging (id :: rest))
    (hexec : s.executes .kernelMode = true) (hids : pc.ids = rest)
    (hheld : pc.held = s.machine.tm.taskRegistry[id]?) :
    Inv { s.setTm (s.machine.tm.kill id).1 with reaper := pc } := by
  have hne : id ≠ 1 := by
    rintro rfl
    refine h.ids ?_
    rw [hpc]
    exact List.mem_cons_self ..
  obtain ⟨e, he, hkernel⟩ := executes_iff.mp hexec
  obtain ⟨reaper, hruns⟩ := h.cpu e he hkernel
  have hreg : ∀ (i : TaskId) (t : Task), (s.machine.tm.kill id).1.taskRegistry[i]? = some t →
      id ≠ i ∧ s.machine.tm.taskRegistry[i]? = some t := by
    intro i t ht
    rw [getElem?_taskRegistry_kill] at ht
    split_ifs at ht with hi
    exact ⟨hi, ht⟩
  refine ⟨h.consistent.kill_of_ne ?_, fun i t ht => h.resumable i t (hreg i t ht).2,
    ⟨fun i t ht => h.memory.sized i t (hreg i t ht).2,
      fun i j t t' ht ht' => h.memory.apart i j t t' (hreg i t ht).2 (hreg j t' ht').2,
      fun i t ht => h.memory.kernel i t (hreg i t ht).2, fun t i t' ht ht' => ?_⟩, ?_,
    fun e' he' _ => ?_⟩
  · rw [hruns.current]
    exact fun h => hne (Option.some.inj h).symm
  · obtain ⟨hi, ht'⟩ := hreg i t' ht'
    exact h.memory.apart id i t t' (hheld.symm.trans ht) ht' hi
  · rw [hids]
    intro hmem
    refine h.ids ?_
    rw [hpc]
    exact List.mem_cons_of_mem _ hmem
  · cases he.symm.trans he'
    refine ⟨reaper, currentTask_kill.trans hruns.current, ?_, hruns.stack, hruns.level,
      hruns.cr3, hruns.kernelRsp⟩
    change (s.machine.tm.kill id).1.taskRegistry[1]? = some reaper
    rw [getElem?_taskRegistry_kill, if_neg hne]
    exact hruns.registered

/-- **Every action keeps the invariant.** -/
theorem Inv.step (h : s.Inv) (hs : s.step a = some (s', ev)) : s'.Inv := by
  cases changes_of_step hs with
  | schedule hrsp hsched => exact h.schedule hrsp hsched
  | spawn huser hfresh => exact h.spawn huser hfresh
  | setTm hc hreg hcur =>
    refine h.setTm (hc h.consistent) hreg fun hkernel => ?_
    obtain ⟨e, he, hlevel⟩ := executes_iff.mp hkernel
    obtain ⟨t, hruns⟩ := h.cpu e he hlevel
    rcases hcur with hsame | huser | hother
    · exact hsame
    · exact absurd hlevel (not_kernelMode_of_user huser he)
    · exact absurd hruns.current hother
  | setReaper hheld hids =>
    refine h.setReaper (fun hmem => ?_) hheld
    rcases hids 1 hmem with hold | ⟨hexec, hdead⟩
    · exact h.ids hold
    · exact h.not_mem_tareasMuertas hexec hdead
  | purge hpc hexec hids hheld => exact h.purge hpc hexec hids hheld
  | reclaim hpc hexec =>
    refine h.setReaper ?_ rfl
    have hids := h.ids
    rw [hpc] at hids
    exact hids

/-! ### Dropping a task -/

/-- The task can be dropped: its stack is neither the one in use nor the one for syscalls, and its
page table is neither loaded nor that of a registered task. -/
structure ReclaimSafe (s : ReaperSystem) (task : Task) : Prop where
  stack : ∀ e, s.cpu = some e →
    task.stackEnd ≤ e.stackStart ∨ e.stackStart + STACK_SIZE ≤ task.stackStart
  kernelRsp : s.machine.regs.kernelRsp ≤ task.stackStart ∨
    task.stackEnd < s.machine.regs.kernelRsp
  cr3 : task.pml4Frame ≠ s.machine.regs.cr3
  registry : ∀ (i : TaskId) (t : Task), s.machine.tm.taskRegistry[i]? = some t →
    t.pml4Frame ≠ task.pml4Frame

/-- Every task in use after an action was so before. -/
def LiveShrinks (s s' : ReaperSystem) : Prop :=
  ∀ t', t' ∈ s'.live → ∃ t, t ∈ s.live ∧ t.SameMemory t'

theorem LiveShrinks.of (hreg : s.machine.tm.Shrinks s'.machine.tm)
    (hheld : ∀ t, s'.reaper.held = some t → t ∈ s.live) : LiveShrinks s s' := by
  intro t' ht'
  rcases mem_live.mp ht' with ⟨i, ht'⟩ | ht'
  · obtain ⟨t, ht, hsame⟩ := hreg i t' ht'
    exact ⟨t, mem_live.mpr (.inl ⟨i, ht⟩), hsame⟩
  · exact ⟨t', hheld t' ht', .refl t'⟩

theorem LiveShrinks.setTm (hreg : tm.taskRegistry = s.machine.tm.taskRegistry) :
    LiveShrinks s (s.setTm tm) :=
  .of (.of_eq hreg) fun _ ht => mem_live.mpr (.inr ht)

/-- **What an action does to the memory in use**: nothing new is in use, or one task with a fresh
page table was registered, or the reaper dropped the task in its hand. -/
theorem Inv.step_cases (h : s.Inv) (hs : s.step a = some (s', ev)) :
    (ev = none ∧ LiveShrinks s s') ∨
    (∃ p, ev = some (.created p) ∧
      ∀ t', t' ∈ s'.live → t'.pml4Frame = p ∨ ∃ t, t ∈ s.live ∧ t.SameMemory t') ∨
    (∃ task rest, ev = some (.reclaimed task) ∧ s.executes .kernelMode = true ∧
      s.reaper = .holding task rest ∧ s' = { s with reaper := .purging rest }) := by
  cases changes_of_step hs with
  | schedule hrsp hsched =>
    exact .inl ⟨rfl, .of (h.schedule_shrinks hsched) fun _ ht => mem_live.mpr (.inr ht)⟩
  | @spawn p stack huser hfresh =>
    cases stack with
    | none => exact .inl ⟨rfl, .setTm rfl⟩
    | some start =>
      obtain ⟨tm', task, hspawn, hreg, hpml4, -, -, -⟩ :=
        spawnTask_some s.machine.tm s.nextId p .userMode start
      simp only [ReaperSystem.spawn, TaskId.new, TaskManager.spawnDynamic, hspawn]
      refine .inr (.inl ⟨p, rfl, fun t' ht' => ?_⟩)
      rcases mem_live.mp ht' with ⟨i, ht'⟩ | ht'
      · change tm'.taskRegistry[i]? = some t' at ht'
        rw [hreg] at ht'
        split_ifs at ht'
        · cases ht'
          exact .inl hpml4
        · exact .inr ⟨t', mem_live.mpr (.inl ⟨i, ht'⟩), .refl t'⟩
      · exact .inr ⟨t', mem_live.mpr (.inr ht'), .refl t'⟩
  | setTm hc hreg hcur => exact .inl ⟨rfl, .setTm hreg⟩
  | setReaper hheld hids =>
    refine .inl ⟨rfl, .of (.of_eq rfl) fun t ht => ?_⟩
    cases hheld.symm.trans ht
  | @purge id rest pc hpc hexec hids hheld =>
    refine .inl ⟨rfl, .of (fun i t' ht' => ?_) fun t ht => ?_⟩
    · change (s.machine.tm.kill id).1.taskRegistry[i]? = some t' at ht'
      rw [getElem?_taskRegistry_kill] at ht'
      split_ifs at ht'
      exact ⟨t', ht', .refl t'⟩
    · exact mem_live.mpr (.inl ⟨id, hheld.symm.trans ht⟩)
  | reclaim hpc hexec => exact .inr (.inr ⟨_, _, rfl, hexec, hpc, rfl⟩)

/-- **What the reaper drops is not in use.** -/
theorem Inv.reclaimSafe (h : s.Inv)
    (hexec : s.executes .kernelMode = true) (hpc : s.reaper = .holding task rest) :
    s.ReclaimSafe task := by
  obtain ⟨e, he, hkernel⟩ := executes_iff.mp hexec
  obtain ⟨t, hruns⟩ := h.cpu e he hkernel
  have hheld : s.reaper.held = some task := by rw [hpc]; rfl
  have hapart := h.memory.held_apart task 1 t hheld hruns.registered
  have hsize := h.memory.sized 1 t hruns.registered
  have hsize_pos : 0 < STACK_SIZE := by decide
  have hdisjoint := hapart.disjoint
  refine ⟨fun e' he' => ?_, ?_, ?_, fun i t' ht' => ?_⟩
  · cases he.symm.trans he'
    rw [← hruns.stack]
    omega
  · rw [hruns.kernelRsp]
    omega
  · rw [hruns.cr3, ← (h.memory.kernel 1 t hruns.registered hruns.level).2]
    exact hapart.frames
  · exact (h.memory.held_apart task i t' hheld ht').frames.symm

/-! ### Each address space is destroyed at most once -/

/-- A user task with this page table is in use. -/
def Alive (s : ReaperSystem) (p : ℕ) : Prop :=
  ∃ t, t ∈ s.live ∧ t.privilege = .userMode ∧ t.pml4Frame = p

/-- The event creates an address space with this page table. -/
def creates (p : ℕ) : Option ReaperEvent → ℕ
  | some (.created q) => if q = p then 1 else 0
  | _ => 0

/-- The event destroys the address space with this page table. -/
def destroys (p : ℕ) : Option ReaperEvent → ℕ
  | some (.reclaimed task) => if task.privilege = .userMode ∧ task.pml4Frame = p then 1 else 0
  | _ => 0

open Classical in
/-- One if a user task uses the page table. -/
noncomputable def aliveCount (p : ℕ) (s : ReaperSystem) : ℕ := if s.Alive p then 1 else 0

theorem aliveCount_le_one (p : ℕ) (s : ReaperSystem) : aliveCount p s ≤ 1 := by
  unfold aliveCount
  split_ifs <;> decide

theorem aliveCount_le_of_imp (h : s'.Alive p → s.Alive p) : aliveCount p s' ≤ aliveCount p s := by
  unfold aliveCount
  split_ifs with h1 h2
  · exact le_refl 1
  · exact absurd (h h1) h2
  · decide
  · exact le_refl 0

/-- An address space is created before it is in use, and destroyed when it no longer is. -/
theorem Inv.aliveCount_step (h : s.Inv) (hs : s.step a = some (s', ev)) (p : ℕ) :
    aliveCount p s' + destroys p ev ≤ aliveCount p s + creates p ev := by
  rcases h.step_cases hs with ⟨rfl, hlive⟩ | ⟨q, rfl, hlive⟩ | ⟨task, rest, rfl, hexec, hpc, rfl⟩
  · refine Nat.add_le_add_right (aliveCount_le_of_imp ?_) 0
    rintro ⟨t', ht', hlevel, hframe⟩
    obtain ⟨t, ht, hsame⟩ := hlive t' ht'
    exact ⟨t, ht, hsame.privilege ▸ hlevel, hsame.pml4Frame ▸ hframe⟩
  · by_cases hq : q = p
    · have := aliveCount_le_one p s'
      simp only [destroys, creates, hq, if_true]
      omega
    · simp only [destroys, creates, hq, if_false]
      refine Nat.add_le_add_right (aliveCount_le_of_imp ?_) 0
      rintro ⟨t', ht', hlevel, hframe⟩
      rcases hlive t' ht' with hnew | ⟨t, ht, hsame⟩
      · exact absurd (hnew.symm.trans hframe) hq
      · exact ⟨t, ht, hsame.privilege ▸ hlevel, hsame.pml4Frame ▸ hframe⟩
  · have hheld : s.reaper.held = some task := by rw [hpc]; rfl
    have hsub : ∀ t', t' ∈ live { s with reaper := .purging rest } →
        ∃ i : TaskId, s.machine.tm.taskRegistry[i]? = some t' := by
      intro t' ht'
      rcases mem_live.mp ht' with hreg | hnone
      · exact hreg
      · cases hnone
    by_cases hdestroyed : task.privilege = .userMode ∧ task.pml4Frame = p
    · -- no other task has this page table
      have hdead : ¬ Alive { s with reaper := .purging rest } p := by
        rintro ⟨t', ht', -, hframe⟩
        obtain ⟨i, hi⟩ := hsub t' ht'
        exact (h.memory.held_apart task i t' hheld hi).frames
          (hdestroyed.2.trans hframe.symm)
      have halive : s.Alive p := ⟨task, mem_live.mpr (.inr hheld), hdestroyed⟩
      simp [aliveCount, hdead, halive, destroys, creates, hdestroyed]
    · simp only [destroys, creates, hdestroyed, if_false]
      refine Nat.add_le_add_right (aliveCount_le_of_imp ?_) 0
      rintro ⟨t', ht', hlevel, hframe⟩
      exact ⟨t', mem_live.mpr (.inl (hsub t' ht')), hlevel, hframe⟩

/-! ### Runs -/

theorem inv_init {regs : Registers} {reaperStack shellPml4 shellStack : ℕ}
    (hpml4 : shellPml4 ≠ regs.cr3)
    (hstacks : reaperStack + STACK_SIZE ≤ shellStack ∨ shellStack + STACK_SIZE ≤ reaperStack) :
    (init regs reaperStack shellPml4 shellStack).Inv ∧
      ∀ p, (init regs reaperStack shellPml4 shellStack).Alive p → p = shellPml4 := by
  obtain ⟨tm₁, reaper, hspawn₁, hreg₁, hframe₁, hlevel₁, hstart₁, hend₁⟩ :=
    spawnTask_some .empty 1 regs.cr3 .kernelMode reaperStack
  obtain ⟨tm₂, shell, hspawn₂, hreg₂, hframe₂, hlevel₂, hstart₂, hend₂⟩ :=
    spawnTask_some tm₁ 2 shellPml4 .userMode shellStack
  have hinit : init regs reaperStack shellPml4 shellStack =
      setTm ⟨⟨tm₁, regs⟩, 3, none, .asleep, regs.cr3⟩ tm₂ := by
    simp only [init, TaskManager.spawn, TaskManager.spawnDynamic, hspawn₁, hspawn₂, setTm]
  have hfirst : ∀ (i : TaskId) (t : Task), tm₁.taskRegistry[i]? = some t → i = 1 ∧ t = reaper := by
    intro i t ht
    rw [hreg₁] at ht
    split_ifs at ht with hi
    · exact ⟨hi.symm, (Option.some.inj ht).symm⟩
    · simp [empty] at ht
  -- the registry with the reaper alone
  have hmemory₁ : MemoryOwned ⟨⟨tm₁, regs⟩, 3, none, .asleep, regs.cr3⟩ := by
    refine ⟨fun i t ht => ?_, fun i j t t' ht ht' hij => ?_, fun i t ht _ => ?_,
      fun t i t' ht _ => (by cases ht)⟩
    · obtain ⟨-, rfl⟩ := hfirst i t ht
      rw [hend₁, hstart₁]
    · exact absurd ((hfirst i t ht).1.trans (hfirst j t' ht').1.symm) hij
    · obtain ⟨hi, rfl⟩ := hfirst i t ht
      exact ⟨hi, hframe₁⟩
  have hfresh :
      fresh ⟨⟨tm₁, regs⟩, 3, none, .asleep, regs.cr3⟩ shellPml4 (some shellStack) = true := by
    simp only [fresh, Bool.and_eq_true, List.all_eq_true, bne_iff_ne, ne_eq, all_some,
      Bool.or_eq_true, decide_eq_true_eq]
    refine ⟨hpml4, fun t ht => ?_⟩
    rcases mem_live.mp ht with ⟨i, ht⟩ | ht
    · obtain ⟨-, rfl⟩ := hfirst i t ht
      rw [hframe₁, hend₁, hstart₁]
      exact ⟨hpml4.symm, hstacks⟩
    · cases ht
  rw [hinit]
  refine ⟨⟨?_, fun i t ht => ?_, hmemory₁.spawn hfresh hreg₂ hframe₂ hlevel₂ hstart₂ hend₂,
    List.not_mem_nil, fun e he => (by cases he)⟩, ?_⟩
  · have h₁ :
        (empty.spawnTask 1 regs.cr3 .kernelMode (some reaperStack)).1.Consistent :=
      consistent_empty.spawnTask regs.cr3 .kernelMode (some reaperStack)
    rw [hspawn₁] at h₁
    have h₂ : (tm₁.spawnTask 2 shellPml4 .userMode (some shellStack)).1.Consistent :=
      h₁.spawnTask shellPml4 .userMode (some shellStack)
    rw [hspawn₂] at h₂
    exact h₂
  · have ht' : (tm₁.spawnTask 2 shellPml4 .userMode (some shellStack)).1.taskRegistry[i]? =
        some t := by
      rw [hspawn₂]
      exact ht
    rcases getElem?_taskRegistry_spawnTask ht' with hold | ⟨-, hrsp⟩
    · have ht'' : (empty.spawnTask 1 regs.cr3 .kernelMode
          (some reaperStack)).1.taskRegistry[i]? = some t := by
        rw [hspawn₁]
        exact hold
      rcases getElem?_taskRegistry_spawnTask ht'' with hempty | ⟨-, hrsp⟩
      · simp [empty] at hempty
      · exact hrsp
    · exact hrsp
  · rintro p ⟨t, ht, hlevel, hframe⟩
    rcases mem_live.mp ht with ⟨i, ht⟩ | ht
    · change tm₂.taskRegistry[i]? = some t at ht
      rw [hreg₂] at ht
      split_ifs at ht
      · cases ht
        exact hframe.symm.trans hframe₂
      · obtain ⟨-, rfl⟩ := hfirst i t ht
        rw [hlevel₁] at hlevel
        cases hlevel
    · cases ht

/-- **The reaper is safe**: in every run from `init`, a task that it drops is not in use, and no
address space is destroyed more often than it was created. -/
theorem reaper_safe {regs : Registers} {reaperStack shellPml4 shellStack : ℕ}
    (hpml4 : shellPml4 ≠ regs.cr3)
    (hstacks : reaperStack + STACK_SIZE ≤ shellStack ∨ shellStack + STACK_SIZE ≤ reaperStack)
    {as : List ReaperAction} {evs : List (Option ReaperEvent)}
    (hrun : Transition.run step (init regs reaperStack shellPml4 shellStack) as = some (s, evs)) :
    (∀ a s' task, s.step a = some (s', some (.reclaimed task)) → s.ReclaimSafe task) ∧
    ∀ p, (evs.map (destroys p)).sum ≤
      (if p = shellPml4 then 1 else 0) + (evs.map (creates p)).sum := by
  obtain ⟨hinit, halive⟩ := inv_init hpml4 hstacks
  have hinv : s.Inv := Transition.run_invariant (fun _ _ _ _ h hs => Inv.step h hs) hinit hrun
  refine ⟨fun a s' task hs => ?_, fun p => ?_⟩
  · rcases hinv.step_cases hs with ⟨hev, -⟩ | ⟨q, hev, -⟩ | ⟨task', rest, hev, hexec, hpc, -⟩
    · cases hev
    · cases hev
    · cases hev
      exact hinv.reclaimSafe hexec hpc
  · have hbound := Transition.run_bound (fun _ _ _ _ h hs => Inv.step h hs) (aliveCount p)
      (creates p) (destroys p) (fun _ _ _ _ h hs => h.aliveCount_step hs p) hinit hrun
    have hstart : aliveCount p (init regs reaperStack shellPml4 shellStack) ≤
        if p = shellPml4 then 1 else 0 := by
      unfold aliveCount
      split_ifs with h1 h2
      · exact le_refl 1
      · exact absurd (halive p h1) h2
      · decide
      · exact le_refl 0
    omega

/-- The shell starts a task and exits, the reaper drops it; then the other task exits, and the
reaper is about to drop that one too. -/
theorem reaper_safe_two_exits : ∃ s evs s' task,
    Transition.run step (init ⟨0x500, 0x1000, 0, 0, 0⟩ 0x100000 0x2000 0x200000)
      [.schedule 0x500, .schedule 0x600, .spawnDynamic 0x3000 (some 0x300000), .exitCurrentTask,
        .schedule 0x700, .collect, .purge, .reclaim, .sleep, .schedule 0x800, .exitCurrentTask,
        .schedule 0x900, .collect, .purge] = some (s, evs) ∧
    s.step .reclaim = some (s', some (.reclaimed task)) ∧ s.ReclaimSafe task ∧
    (evs.map (destroys 0x2000)).sum = 1 ∧
    ∀ p, (evs.map (destroys p)).sum ≤
      (if p = 0x2000 then 1 else 0) + (evs.map (creates p)).sum := by
  obtain ⟨⟨s, evs⟩, hrun, hsum, ⟨s', ev⟩, hstep, hev⟩ :
      ∃ r ∈ Transition.run step (init ⟨0x500, 0x1000, 0, 0, 0⟩ 0x100000 0x2000 0x200000)
        [.schedule 0x500, .schedule 0x600, .spawnDynamic 0x3000 (some 0x300000), .exitCurrentTask,
          .schedule 0x700, .collect, .purge, .reclaim, .sleep, .schedule 0x800, .exitCurrentTask,
          .schedule 0x900, .collect, .purge],
      (r.2.map (destroys 0x2000)).sum = 1 ∧ ∃ q ∈ r.1.step .reclaim, q.2.map
        (fun ev => match ev with | .reclaimed _ => true | .created _ => false) = some true := by
    decide +kernel
  obtain ⟨hsafe, hbound⟩ := reaper_safe (by decide) (by decide) hrun
  match ev, hev, hstep with
  | some (.reclaimed task), _, hstep =>
    exact ⟨s, evs, s', task, hrun, hstep, hsafe .reclaim s' task hstep, hsum, hbound⟩

end ReaperSystem

end NwinOs.Tasking
