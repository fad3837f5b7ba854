import NwinOs.Core.Sync
import NwinOs.Tasking.Equiv.Wait4

/-!
# Mutual exclusion

Every permit of a semaphore is either in its counter or was taken by a successful
`compare_exchange`; only `fetch_add` puts one back.  `mutex_exclusion` says so for every run: the
counter of a mutex and its live guards add up to one, and a semaphore completes no more waits than
it had permits and was signalled.

The interleaving enters through two facts about program points (`Ledger`): a
`compare_exchange(current, current - 1)` is only ever attempted with a positive `current`, and a
task that is about to drop a guard still owns it.
-/

namespace NwinOs.Core

open Tasking Function Option SyncEvent

namespace Pc

/-- The value a `compare_exchange` of `wait` is about to take a permit from. -/
def current : Pc → Option ℕ
  | .waitCas _ current => some current
  | .retryCas _ currentRetry => some currentRetry
  | _ => none

/-- The mutex whose guard is about to be dropped. -/
def owes : Pc → Option ℕ
  | .signalAdd (.mutex m) => some m
  | .condDisable _ m => some m
  | .condEnqueue _ m => some m
  | .condAdd _ m => some m
  | _ => none

@[simp] theorem current_interrupted (pc : Pc) : pc.interrupted.current = pc.current := by
  cases pc <;> rfl

@[simp] theorem owes_interrupted (pc : Pc) : pc.interrupted.owes = pc.owes := by
  cases pc <;> rfl

end Pc

/-- Where the primitive that a call enters begins; `none` for what is not such a call. -/
def SyncAction.entry : SyncAction → Option Pc
  | .wait k => some (.waitLoad (.wait k))
  | .lock m => some (.waitLoad (.lock m))
  | .condWait cv m => some (.condDisable cv m)
  | .signal k => some (.signalAdd (.plain k))
  | .dropGuard m => some (.signalAdd (.mutex m))
  | _ => none

namespace SyncEvent

/-- One for a step that completes a `wait` on `k`. -/
def completedWaits (k : SemId) : SyncEvent → ℕ
  | .acquired l => if l = k then 1 else 0
  | _ => 0

/-- One for a `fetch_add` on `k`. -/
def fetchAdds (k : SemId) : SyncEvent → ℕ
  | .added l => if l = k then 1 else 0
  | _ => 0

end SyncEvent

namespace SyncSystem

variable {s s' : SyncSystem} {ev : SyncEvent} {id j : TaskId} {k : SemId} {m : ℕ} {pc : Pc}
  {a : SyncAction}

/-! ### Fields -/

theorem pc_setPc : (s.setPc id pc).pc j = if j = id then pc else s.pc j :=
  update_apply ..

theorem pc_setPc_self : (s.setPc id pc).pc id = pc :=
  update_self ..

theorem pc_setPc_of_ne (h : j ≠ id) : (s.setPc id pc).pc j = s.pc j :=
  update_of_ne h ..

theorem caller_eq_some : s.caller = some id ↔
    s.cpu = some id ∧ id ≠ Wait4System.REAPER ∧ s.pc id = .idle := by
  unfold caller
  cases s.cpu with
  | none => simp
  | some c =>
    dsimp only
    split_ifs with hc
    · simp only [Option.some.injEq]
      constructor
      · rintro rfl
        exact ⟨rfl, hc⟩
      · exact fun h => h.1
    · simp only [Option.some.injEq, false_iff]
      rintro ⟨rfl, h⟩
      exact hc h

/-! ### The steps -/

/-- The steps, as a relation: what each needs and what it leads to.  The calls that enter a
primitive are one case, in which only the caller's program point changes. -/
inductive Step (s : SyncSystem) : SyncAction → SyncSystem → SyncEvent → Prop
  | spawnDynamic {id : TaskId} (targetPml4 : ℕ) (stack : Option ℕ) (hc : s.caller = some id) :
    Step s (.spawnDynamic targetPml4 stack)
      { s.setPc s.nextId .idle with
        tm := (s.tm.spawnDynamic s.nextId targetPml4 stack).1
        nextId := (s.nextId + 1) % 2 ^ 64 } .silent
  | sysExit {id : TaskId} (hc : s.caller = some id) :
    Step s .sysExit { s.setPc id .exited with tm := s.tm.exitCurrentTask } .silent
  | call {a : SyncAction} {pc : Pc} {id : TaskId} (hentry : a.entry = some pc)
      (hc : s.caller = some id) (howns : ∀ m, pc.owes = some m → (id, m) ∈ s.guards) :
    Step s a (s.setPc id pc) .silent
  | notifyOne (cv : ℕ) : Step s (.notifyOne cv) (s.notifyOne cv) .silent
  | notifyAll (cv : ℕ) : Step s (.notifyAll cv) (s.notifyAll cv) .silent
  | advance {id : TaskId} {s' : SyncSystem} {ev : SyncEvent} (hcpu : s.cpu = some id)
      (hs : s.advance id = some (s', ev)) : Step s .advance s' ev
  | tick (hint : s.interruptible = true) : Step s .tick s.endHalt.timerInterruptHandler .silent
  | keyboard (ctrlC : Bool) (hint : s.interruptible = true) :
    Step s (.keyboard ctrlC) (s.endHalt.keyboardInterruptHandler ctrlC) .silent
  | reap {id : TaskId} (hcpu : s.cpu = some Wait4System.REAPER)
      (hdead : s.tm.taskStates[id]? = some .dead) :
    Step s (.reap id) { s with tm := (s.tm.kill id).1 } .silent

/-- **Every step is one of them.** -/
theorem step_cases (hs : s.step a = some (s', ev)) : Step s a s' ev := by
  cases a with
  | spawnDynamic targetPml4 stack =>
    obtain ⟨id, hc, he⟩ := map_eq_some_iff.mp hs
    cases he
    exact .spawnDynamic targetPml4 stack hc
  | sysExit =>
    obtain ⟨id, hc, he⟩ := map_eq_some_iff.mp hs
    cases he
    exact .sysExit hc
  | wait _ | lock _ | signal _ =>
    obtain ⟨id, hc, he⟩ := map_eq_some_iff.mp hs
    cases he
    exact .call rfl hc fun m hm => nomatch hm
  | condWait _ _ | dropGuard _ =>
    obtain ⟨id, hc, he⟩ := bind_eq_some_iff.mp hs
    split_ifs at he with hown
    cases he
    refine .call rfl hc fun n hn => ?_
    cases hn
    exact hown
  | notifyOne cv =>
    obtain ⟨id, -, he⟩ := map_eq_some_iff.mp hs
    cases he
    exact .notifyOne cv
  | notifyAll cv =>
    obtain ⟨id, -, he⟩ := map_eq_some_iff.mp hs
    cases he
    exact .notifyAll cv
  | advance =>
    obtain ⟨id, hcpu, he⟩ := bind_eq_some_iff.mp hs
    exact .advance hcpu he
  | tick =>
    rw [step] at hs
    split_ifs at hs with hint
    cases hs
    exact .tick hint
  | keyboard ctrlC =>
    rw [step] at hs
    split_ifs at hs with hint
    cases hs
    exact .keyboard ctrlC hint
  | reap id =>
    rw [step] at hs
    split_ifs at hs with hreap
    cases hs
    exact .reap hreap.1 hreap.2

/-- A call that enters a primitive begins neither with an exchange nor with interrupts off. -/
theorem current_entry (h : a.entry = some pc) : pc.current = none := by
  cases a <;> cases h <;> rfl

/-- The permits in a semaphore's counter. -/
def count (s : SyncSystem) (k : SemId) : ℕ := (s.semaphores k).count

/-! ### Program points and guards -/

/-- What the program points of the tasks say about the guards and the attempted exchanges. -/
structure Ledger (s : SyncSystem) : Prop where
  current_pos : ∀ id v, (s.pc id).current = some v → 0 < v
  owns : ∀ id m, (s.pc id).owes = some m → (id, m) ∈ s.guards

section

variable (h : s.Ledger)
include h

theorem Ledger.congr (hpc : s'.pc = s.pc) (hg : s'.guards = s.guards) : s'.Ledger :=
  ⟨fun id v hv => h.current_pos id v (hpc ▸ hv), fun id m hm => hg ▸ h.owns id m (hpc ▸ hm)⟩

theorem Ledger.setPc (hpos : ∀ v, pc.current = some v → 0 < v)
    (howns : ∀ m, pc.owes = some m → (id, m) ∈ s.guards) : (s.setPc id pc).Ledger := by
  refine ⟨fun j v hv => ?_, fun j m hm => ?_⟩
  · rw [pc_setPc] at hv
    split_ifs at hv
    · exact hpos v hv
    · exact h.current_pos j v hv
  · rw [pc_setPc] at hm
    split_ifs at hm with hj
    · exact hj ▸ howns m hm
    · exact h.owns j m hm

/-- Only task `id` moves, to a point that neither attempts an exchange nor owes a guard, and no
other task loses a guard. -/
theorem Ledger.move (id : TaskId) (hpc : ∀ j, j ≠ id → s'.pc j = s.pc j)
    (hself : (s'.pc id).current = none ∧ (s'.pc id).owes = none)
    (hguards : ∀ j m, j ≠ id → (j, m) ∈ s.guards → (j, m) ∈ s'.guards) : s'.Ledger := by
  refine ⟨fun j v hv => ?_, fun j m hm => ?_⟩
  · by_cases hj : j = id
    · rw [hj, hself.1] at hv
      cases hv
    · exact h.current_pos j v (hpc j hj ▸ hv)
  · by_cases hj : j = id
    · rw [hj, hself.2] at hm
      cases hm
    · exact hguards j m hj (h.owns j m (hpc j hj ▸ hm))

theorem Ledger.setPc_plain (hpc : pc.current = none ∧ pc.owes = none) : (s.setPc id pc).Ledger :=
  h.move id (fun _ hj => pc_setPc_of_ne hj) (by rw [pc_setPc_self]; exact hpc) fun _ _ _ hg => hg

/-- A task that has loaded a counter goes on to an exchange only with a positive value. -/
theorem Ledger.setPc_loaded {v : ℕ} {found empty : Pc}
    (hfound : found.current = some v ∧ found.owes = none)
    (hempty : empty.current = none ∧ empty.owes = none) :
    (s.setPc id (if v > 0 then found else empty)).Ledger := by
  by_cases hpos : v > 0
  · rw [if_pos hpos]
    refine h.setPc (fun n hn => ?_) fun m hm => ?_
    · rw [hfound.1] at hn
      exact Option.some.inj hn ▸ hpos
    · rw [hfound.2] at hm
      cases hm
  · rw [if_neg hpos]
    exact h.setPc_plain hempty

end

/-- What a step does to the permits: it moves none, or takes one from a positive counter and gives
a mutex's caller its guard, or adds one and, on a mutex, ends a guard's life. -/
def Moves (s s' : SyncSystem) : SyncEvent → Prop
  | .acquired k => 0 < s.count k ∧ s'.count = update s.count k (s.count k - 1) ∧
      ∀ m, s'.holders m = s.holders m + if k = .mutex m then 1 else 0
  | .added k => s'.count = update s.count k ((s.count k + 1) % 2 ^ 32) ∧
      ∀ m, s'.holders m + (if k = .mutex m then 1 else 0) = s.holders m
  | _ => s'.count = s.count ∧ s'.guards = s.guards

theorem count_setSemaphore {sem : Semaphore} :
    (s.setSemaphore k sem).count = update s.count k sem.count := by
  funext l
  show (update s.semaphores k sem l).count = _
  by_cases hl : l = k
  · subst hl
    rw [update_self, update_self]
  · rw [update_of_ne hl, update_of_ne hl]
    rfl

theorem holders_giveGuard :
    (s.giveGuard id k).holders m = s.holders m + if k = .mutex m then 1 else 0 := by
  cases k with
  | mutex n =>
    show ((id, n) :: s.guards).countP _ = _
    rw [List.countP_cons]
    simp [holders]
  | plain n => simp [giveGuard]

theorem holders_takeGuard (h : ∀ n, k = .mutex n → (id, n) ∈ s.guards) :
    (s.takeGuard id k).holders m + (if k = .mutex m then 1 else 0) = s.holders m := by
  cases k with
  | mutex n =>
    have hperm := (List.perm_cons_erase (h n rfl)).countP_eq fun g => decide (g.2 = m)
    show (s.guards.erase (id, n)).countP _ + _ = s.guards.countP _
    rw [hperm, List.countP_cons]
    simp
  | plain n => simp [takeGuard]

@[simp] theorem count_giveGuard : (s.giveGuard id k).count = s.count := by
  cases k <;> rfl

@[simp] theorem count_takeGuard : (s.takeGuard id k).count = s.count := by
  cases k <;> rfl

@[simp] theorem pc_giveGuard : (s.giveGuard id k).pc = s.pc := by
  cases k <;> rfl

@[simp] theorem pc_takeGuard : (s.takeGuard id k).pc = s.pc := by
  cases k <;> rfl

theorem mem_guards_giveGuard {g : TaskId × ℕ} (h : g ∈ s.guards) :
    g ∈ (s.giveGuard id k).guards := by
  cases k with
  | mutex n => exact List.mem_cons_of_mem _ h
  | plain n => exact h

theorem mem_guards_takeGuard (hj : j ≠ id) (h : (j, m) ∈ s.guards) :
    (j, m) ∈ (s.takeGuard id k).guards := by
  cases k with
  | mutex n =>
    have hne : (j, m) ≠ (id, n) := fun he => hj (Prod.mk.inj he).1
    exact (List.mem_erase_of_ne hne).mpr h
  | plain n => exact h

theorem moves_tryAcquire (id : TaskId) (c : Call) {current : ℕ} (won lost : Pc) (h : s.Ledger)
    (hpos : 0 < current) (hwon : won.current = none ∧ won.owes = none)
    (hlost : lost.current = none ∧ lost.owes = none) :
    (s.tryAcquire id c current won lost).1.Ledger ∧
      Moves s (s.tryAcquire id c current won lost).1 (s.tryAcquire id c current won lost).2 := by
  unfold tryAcquire Semaphore.compareExchange
  split_ifs with hcount
  · -- the exchange succeeds: the counter still has the value that was loaded
    have hcount : s.count c.semaphore = current := hcount
    refine ⟨?_, ?_, ?_, fun m => ?_⟩
    · refine h.move id (fun j hj => ?_) ?_ fun j m _ hg => mem_guards_giveGuard hg
      · rw [pc_setPc_of_ne hj, pc_giveGuard]
        rfl
      · rw [pc_setPc_self]
        exact hwon
    · rw [hcount]
      exact hpos
    · show (giveGuard _ _ _).count = _
      rw [count_giveGuard, count_setSemaphore, hcount]
    · exact holders_giveGuard
  · exact ⟨h.setPc_plain hlost, rfl, rfl⟩

theorem moves_fetchAdd (h : s.Ledger) (howns : ∀ n, k = .mutex n → (id, n) ∈ s.guards)
    (hpc : pc.current = none ∧ pc.owes = none) :
    ((s.fetchAdd id k).setPc id pc).Ledger ∧
      Moves s ((s.fetchAdd id k).setPc id pc) (.added k) := by
  refine ⟨?_, ?_, fun m => ?_⟩
  · refine h.move id (fun j hj => ?_) ?_ fun j m hj hg => ?_
    · rw [pc_setPc_of_ne hj]
      unfold fetchAdd
      rw [pc_takeGuard]
      rfl
    · rw [pc_setPc_self]
      exact hpc
    · exact mem_guards_takeGuard hj hg
  · show (takeGuard _ _ _).count = _
    rw [count_takeGuard, count_setSemaphore]
    rfl
  · exact holders_takeGuard howns

/-- Neither of the two critical sections moves a permit. -/
theorem count_popAndUnblock : (s.popAndUnblock k).count = s.count := by
  unfold popAndUnblock
  split
  · show (s.setSemaphore k _).count = _
    rw [count_setSemaphore]
    exact Function.update_eq_self k s.count
  · rfl

theorem count_enqueueOnSemaphore : (s.enqueueOnSemaphore k).count = s.count := by
  unfold enqueueOnSemaphore
  split
  · show (s.setSemaphore k _).count = _
    rw [count_setSemaphore]
    exact Function.update_eq_self k s.count
  · rfl

@[simp] theorem pc_popAndUnblock : (s.popAndUnblock k).pc = s.pc := by
  unfold popAndUnblock
  split <;> rfl

@[simp] theorem guards_popAndUnblock : (s.popAndUnblock k).guards = s.guards := by
  unfold popAndUnblock
  split <;> rfl

@[simp] theorem pc_enqueueOnSemaphore : (s.enqueueOnSemaphore k).pc = s.pc := by
  unfold enqueueOnSemaphore
  split <;> rfl

@[simp] theorem guards_enqueueOnSemaphore : (s.enqueueOnSemaphore k).guards = s.guards := by
  unfold enqueueOnSemaphore
  split <;> rfl

theorem moves_popAndUnblock (h : s.Ledger) (hpc : pc.current = none ∧ pc.owes = none) :
    ((s.popAndUnblock k).setPc id pc).Ledger ∧
      Moves s ((s.popAndUnblock k).setPc id pc) .silent :=
  ⟨(h.congr pc_popAndUnblock guards_popAndUnblock).setPc_plain hpc, count_popAndUnblock,
    guards_popAndUnblock⟩

theorem moves_advance (h : s.Ledger) (hs : s.advance id = some (s', ev)) :
    s'.Ledger ∧ Moves s s' ev := by
  unfold advance at hs
  generalize hpc : s.pc id = point at hs
  cases point with
  | idle | exited | waitHalted _ | condHalted _ _ => cases hs
  | waitLoad c | retryLoad c =>
    cases hs
    exact ⟨h.setPc_loaded ⟨rfl, rfl⟩ ⟨rfl, rfl⟩, rfl, rfl⟩
  | waitCas c current =>
    have hpos : 0 < current := h.current_pos id current (by rw [hpc]; rfl)
    have hmoves := moves_tryAcquire id c (.returning c) (.waitLoad c) h hpos ⟨rfl, rfl⟩ ⟨rfl, rfl⟩
    rw [Option.some.inj hs] at hmoves
    exact hmoves
  | retryCas c currentRetry =>
    have hpos : 0 < currentRetry := h.current_pos id currentRetry (by rw [hpc]; rfl)
    have hmoves :=
      moves_tryAcquire id c (.retryEnable c) (.waitEnqueue c) h hpos ⟨rfl, rfl⟩ ⟨rfl, rfl⟩
    rw [Option.some.inj hs] at hmoves
    exact hmoves
  | waitEnqueue c =>
    cases hs
    have hsame : (s.enqueueOnSemaphore c.semaphore).Ledger :=
      h.congr pc_enqueueOnSemaphore guards_enqueueOnSemaphore
    exact ⟨hsame.setPc_plain ⟨rfl, rfl⟩, count_enqueueOnSemaphore, guards_enqueueOnSemaphore⟩
  | waitDisable c | retryEnable c | returning c =>
    cases hs
    exact ⟨h.setPc_plain ⟨rfl, rfl⟩, rfl, rfl⟩
  | signalAdd k =>
    cases hs
    refine moves_fetchAdd h (fun n hn => ?_) ⟨rfl, rfl⟩
    exact h.owns id n (by rw [hpc, hn]; rfl)
  | signalPop k | condPop cv m =>
    cases hs
    exact moves_popAndUnblock h ⟨rfl, rfl⟩
  | condDisable cv m =>
    cases hs
    refine ⟨h.setPc (fun v hv => by cases hv) (fun n hn => ?_), rfl, rfl⟩
    exact h.owns id n (by rw [hpc]; exact hn)
  | condEnqueue cv m =>
    cases hs
    have hfields : (s.enqueueOnCondVar cv).pc = s.pc ∧ (s.enqueueOnCondVar cv).guards = s.guards ∧
        (s.enqueueOnCondVar cv).count = s.count := by
      unfold enqueueOnCondVar
      split <;> exact ⟨rfl, rfl, rfl⟩
    obtain ⟨h1, h2, h3⟩ := hfields
    refine ⟨(h.congr h1 h2).setPc (fun v hv => by cases hv) (fun n hn => ?_), h3, h2⟩
    rw [h2]
    exact h.owns id n (by rw [hpc]; exact hn)
  | condAdd cv m =>
    cases hs
    refine moves_fetchAdd h (fun n hn => ?_) ⟨rfl, rfl⟩
    cases hn
    exact h.owns id m (by rw [hpc]; rfl)

theorem Ledger.endHalt (h : s.Ledger) : s.endHalt.Ledger := by
  unfold SyncSystem.endHalt
  split
  · rename_i id _
    refine h.setPc (fun v hv => ?_) fun m hm => ?_
    · rw [Pc.current_interrupted] at hv
      exact h.current_pos id v hv
    · rw [Pc.owes_interrupted] at hm
      exact h.owns id m hm
  · exact h

theorem Ledger.abandon (h : s.Ledger) : s.abandon.Ledger := by
  unfold SyncSystem.abandon
  split
  · exact h.setPc_plain ⟨rfl, rfl⟩
  · exact h

theorem endHalt_fields : s.endHalt.semaphores = s.semaphores ∧ s.endHalt.guards = s.guards := by
  unfold endHalt
  split <;> exact ⟨rfl, rfl⟩

theorem abandon_fields : s.abandon.semaphores = s.semaphores ∧ s.abandon.guards = s.guards := by
  unfold abandon
  split <;> exact ⟨rfl, rfl⟩

/-- **Every step keeps the ledger and moves permits as its event says.** -/
theorem moves_step (h : s.Ledger) (hs : s.step a = some (s', ev)) : s'.Ledger ∧ Moves s s' ev := by
  cases step_cases hs with
  | spawnDynamic targetPml4 stack hc =>
    have hmove : (s.setPc s.nextId .idle).Ledger := h.setPc_plain ⟨rfl, rfl⟩
    exact ⟨hmove.congr rfl rfl, rfl, rfl⟩
  | @sysExit id hc =>
    have hmove : (s.setPc id .exited).Ledger := h.setPc_plain ⟨rfl, rfl⟩
    exact ⟨hmove.congr rfl rfl, rfl, rfl⟩
  | call hentry hc howns =>
    refine ⟨h.setPc (fun v hv => ?_) howns, rfl, rfl⟩
    rw [current_entry hentry] at hv
    cases hv
  | notifyOne cv =>
    unfold notifyOne
    split
    · exact ⟨h.congr rfl rfl, rfl, rfl⟩
    · exact ⟨h, rfl, rfl⟩
  | notifyAll _ | reap _ _ => exact ⟨h.congr rfl rfl, rfl, rfl⟩
  | advance hcpu hs => exact moves_advance h hs
  | tick hint =>
    obtain ⟨hsem, hg⟩ := s.endHalt_fields
    obtain ⟨hsem', hg'⟩ := s.endHalt.abandon_fields
    unfold timerInterruptHandler
    dsimp only
    split_ifs
    · refine ⟨h.endHalt.abandon.congr rfl rfl, ?_, hg'.trans hg⟩
      funext k
      show (s.endHalt.abandon.semaphores k).count = (s.semaphores k).count
      rw [hsem', hsem]
    · refine ⟨h.endHalt.congr rfl rfl, ?_, hg⟩
      funext k
      show (s.endHalt.semaphores k).count = (s.semaphores k).count
      rw [hsem]
  | keyboard ctrlC hint =>
    obtain ⟨hsem, hg⟩ := s.endHalt_fields
    have hcount : s.endHalt.count = s.count := by
      funext k
      show (s.endHalt.semaphores k).count = (s.semaphores k).count
      rw [hsem]
    unfold keyboardInterruptHandler
    split
    · split_ifs
      · exact ⟨h.endHalt.congr rfl rfl, hcount, hg⟩
      · exact ⟨h.endHalt, hcount, hg⟩
    · exact ⟨h.endHalt, hcount, hg⟩

/-! ### Runs -/

theorem ledger_initial (kernelPml4 targetPml4 stack₁ stack₂ : ℕ) (initialCount : ℕ → ℕ) :
    (initial kernelPml4 targetPml4 stack₁ stack₂ initialCount).Ledger :=
  ⟨fun _ _ hv => (by cases hv), fun _ _ hm => (by cases hm)⟩

theorem Moves.balance (h : Moves s s' ev) (hbal : s.count (.mutex m) + s.holders m = 1) :
    s'.count (.mutex m) + s'.holders m = 1 := by
  have hnone : s'.count = s.count ∧ s'.guards = s.guards →
      s'.count (.mutex m) + s'.holders m = 1 := by
    rintro ⟨hc, hg⟩
    rw [hc, holders, hg]
    exact hbal
  cases ev with
  | silent => exact hnone h
  | returned id c => exact hnone h
  | acquired k =>
    obtain ⟨hpos, hc, hh⟩ := h
    rw [hc, hh m]
    by_cases hk : k = .mutex m
    · subst hk
      rw [update_self, if_pos rfl]
      omega
    · rw [update_of_ne (Ne.symm hk), if_neg hk]
      exact hbal
  | added k =>
    obtain ⟨hc, hh⟩ := h
    have hm := hh m
    rw [hc]
    by_cases hk : k = .mutex m
    · subst hk
      rw [if_pos rfl] at hm
      rw [update_self]
      -- the guard that ends its life held the only permit, so the counter is zero
      omega
    · rw [if_neg hk] at hm
      rw [update_of_ne (Ne.symm hk)]
      omega

/-- What a step does to the counter of one semaphore; on overflow permits are lost. -/
theorem Moves.count_le (h : Moves s s' ev) (k : SemId) :
    s'.count k + ev.completedWaits k ≤ s.count k + ev.fetchAdds k := by
  cases ev with
  | silent | returned _ _ =>
    rw [h.1]
    exact Nat.le_refl _
  | acquired l =>
    obtain ⟨hpos, hc, -⟩ := h
    rw [hc]
    by_cases hk : k = l
    · subst hk
      rw [update_self]
      simp only [completedWaits, fetchAdds, if_true]
      omega
    · rw [update_of_ne hk]
      simp [completedWaits, fetchAdds, Ne.symm hk]
  | added l =>
    obtain ⟨hc, -⟩ := h
    rw [hc]
    by_cases hk : k = l
    · subst hk
      rw [update_self]
      simp only [completedWaits, fetchAdds, if_true]
      omega
    · rw [update_of_ne hk]
      simp [completedWaits, fetchAdds, Ne.symm hk]

/-- **Mutual exclusion.**  In every run the counter of a mutex and its live guards add up to one,
so no two guards are alive at once; and a semaphore has completed no more waits than it had
permits at the start plus the `fetch_add`s done on it. -/
theorem mutex_exclusion {kernelPml4 targetPml4 stack₁ stack₂ : ℕ} {initialCount : ℕ → ℕ}
    {acts : List SyncAction} {s : SyncSystem} {evs : List SyncEvent}
    (hrun : Transition.run step (initial kernelPml4 targetPml4 stack₁ stack₂ initialCount) acts
      = some (s, evs)) :
    (∀ m, s.count (.mutex m) + s.holders m = 1) ∧ (∀ m, s.holders m ≤ 1) ∧
    ∀ k, (evs.map (SyncEvent.completedWaits (.plain k))).sum
      ≤ initialCount k + (evs.map (SyncEvent.fetchAdds (.plain k))).sum := by
  have h₀ := ledger_initial kernelPml4 targetPml4 stack₁ stack₂ initialCount
  have hbal : ∀ m, s.count (.mutex m) + s.holders m = 1 := by
    intro m
    have hinv : s.Ledger ∧ s.count (.mutex m) + s.holders m = 1 := by
      refine Transition.run_invariant
        (P := fun s => s.Ledger ∧ s.count (.mutex m) + s.holders m = 1) ?_ ⟨h₀, rfl⟩ hrun
      rintro s a s' e ⟨hl, hb⟩ hs
      obtain ⟨hl', hm⟩ := moves_step hl hs
      exact ⟨hl', hm.balance hb⟩
    exact hinv.2
  refine ⟨hbal, fun m => ?_, fun k => ?_⟩
  · have := hbal m
    omega
  · have hbound := Transition.run_bound (P := Ledger) (fun s a s' e hl hs => (moves_step hl hs).1)
      (fun s => s.count (.plain k)) (SyncEvent.fetchAdds (.plain k))
      (SyncEvent.completedWaits (.plain k))
      (fun s a s' e hl hs => (moves_step hl hs).2.count_le (.plain k)) h₀ hrun
    have hinit : (initial kernelPml4 targetPml4 stack₁ stack₂ initialCount).count (.plain k)
        = initialCount k := rfl
    omega

/-- The shell locks mutex 7, and its child blocks on it.  The shell passes the guard to condition
variable 4; the child has the lock, notifies the shell, drops the guard and takes a permit of
semaphore 5; the shell has the lock back. -/
def contention : List SyncAction :=
  [.tick, .tick, .spawnDynamic 2 (some 0x30000), .lock 7, .advance, .advance, .advance,
    .tick, .tick, .lock 7, .advance, .advance, .advance, .advance,
    .tick, .condWait 4 7, .advance, .advance, .advance, .advance,
    .tick, .tick, .advance, .advance, .advance, .notifyOne 4, .dropGuard 7, .advance, .advance,
    .wait 5, .advance, .advance, .advance, .tick, .tick, .advance, .advance, .advance]

theorem mutex_exclusion_lock_and_wait : ∃ s evs,
    Transition.run step (initial 0 1 0x10000 0x20000 fun _ => 2) contention = some (s, evs) ∧
    s.guards = [(2, 7)] ∧
    evs.filter (fun ev => ev ≠ .silent) = [.acquired (.mutex 7), .returned 2 (.lock 7),
      .added (.mutex 7), .acquired (.mutex 7), .returned 3 (.lock 7), .added (.mutex 7),
      .acquired (.plain 5), .returned 3 (.wait 5), .acquired (.mutex 7),
      .returned 2 (.condWait 4 7)] ∧
    (∀ m, s.count (.mutex m) + s.holders m = 1) ∧
    (evs.map (SyncEvent.completedWaits (.plain 5))).sum
      ≤ 2 + (evs.map (SyncEvent.fetchAdds (.plain 5))).sum := by
  obtain ⟨⟨s, evs⟩, hrun, hguards, hevs⟩ :
      ∃ r ∈ Transition.run step (initial 0 1 0x10000 0x20000 fun _ => 2) contention,
      r.1.guards = [(2, 7)] ∧ r.2.filter (fun ev => ev ≠ .silent) =
        [.acquired (.mutex 7), .returned 2 (.lock 7), .added (.mutex 7), .acquired (.mutex 7),
          .returned 3 (.lock 7), .added (.mutex 7), .acquired (.plain 5), .returned 3 (.wait 5),
          .acquired (.mutex 7), .returned 2 (.condWait 4 7)] := by decide +kernel
  obtain ⟨hbalance, -, hwaits⟩ := mutex_exclusion hrun
  exact ⟨s, evs, hrun, hguards, hevs, hbalance, hwaits 5⟩

end SyncSystem

end NwinOs.Core
