import Mathlib.Algebra.BigOperators.Group.List.Basic
import Mathlib.Tactic.Linarith

/-!
# Labelled transition systems with outputs

A system is given by `step : σ → α → Option (σ × ε)`: from a state, an action either is
impossible (`none`: it is not enabled, or the code panics) or leads to the next state and an
output.  The nondeterminism of a scheduler, of interrupts and of the callers is in the choice of
the action.

* `run` folds `step` over a list of actions and collects the outputs.
* `Reach step init guard` are the states reached from `init` by steps that all meet `guard`;
  `Reach.invariant` is the induction rule for it.
* `run_balance` is the bookkeeping rule: when every step changes a measure by what its output
  gains and loses, a whole run changes it by the totals.
-/

namespace NwinOs.Transition

variable {σ α ε : Type*}

/-- Runs a list of actions; `none` as soon as one of them is impossible. -/
def run (step : σ → α → Option (σ × ε)) : σ → List α → Option (σ × List ε)
  | s, [] => some (s, [])
  | s, a :: as =>
    match step s a with
    | none => none
    | some (s', e) => (run step s' as).map fun r => (r.1, e :: r.2)

/-- The states reached from `init` by steps that all meet `guard`. -/
inductive Reach (step : σ → α → Option (σ × ε)) (init : σ → Prop) (guard : σ → α → Prop) :
    σ → Prop
  | start {s : σ} (h : init s) : Reach step init guard s
  | next {s s' : σ} {a : α} {e : ε} (h : Reach step init guard s) (hg : guard s a)
      (hs : step s a = some (s', e)) : Reach step init guard s'

/-- The guard that every action meets. -/
def anyAction : σ → α → Prop := fun _ _ => True

variable {step : σ → α → Option (σ × ε)} {init : σ → Prop} {guard : σ → α → Prop}

variable {P : σ → Prop}

/-- **Invariant rule**: what holds initially and is kept by every guarded step holds in every
reached state. -/
theorem Reach.invariant (h0 : ∀ s, init s → P s)
    (hstep : ∀ s a s' e, P s → guard s a → step s a = some (s', e) → P s') {s : σ}
    (h : Reach step init guard s) : P s := by
  induction h with
  | start h => exact h0 _ h
  | next _ hg hs ih => exact hstep _ _ _ _ ih hg hs

variable {s : σ} {as : List α} {es : List ε}

theorem run_cons_eq_some {s'' : σ} {a : α} :
    run step s (a :: as) = some (s'', es) ↔
      ∃ s' e es', step s a = some (s', e) ∧ run step s' as = some (s'', es') ∧ es = e :: es' := by
  rw [run]
  cases hs : step s a with
  | none => simp
  | some r =>
    obtain ⟨s', e⟩ := r
    simp only [Option.map_eq_some_iff, Prod.mk.injEq, Option.some.injEq]
    constructor
    · rintro ⟨⟨t, es'⟩, hrun, rfl, rfl⟩
      exact ⟨s', e, es', ⟨rfl, rfl⟩, hrun, rfl⟩
    · rintro ⟨_, _, es', ⟨rfl, rfl⟩, hrun, rfl⟩
      exact ⟨(s'', es'), hrun, rfl, rfl⟩

/-- The system in which only the actions that meet `guard` are possible. -/
def restrict (guard : σ → α → Prop) [∀ s a, Decidable (guard s a)]
    (step : σ → α → Option (σ × ε)) (s : σ) (a : α) : Option (σ × ε) :=
  if guard s a then step s a else none

variable {s' : σ}

theorem run_restrict_cons [∀ s a, Decidable (guard s a)] {s'' : σ} {a : α}
    {e : ε} (hs : step s a = some (s', e)) :
    run (restrict guard step) s (a :: as) = some (s'', e :: es) ↔
      guard s a ∧ run (restrict guard step) s' as = some (s'', es) := by
  rw [run_cons_eq_some]
  constructor
  · rintro ⟨t, e', es', hstep, hrun, heq⟩
    rw [restrict] at hstep
    split_ifs at hstep with hg
    cases hs.symm.trans hstep
    cases heq
    exact ⟨hg, hrun⟩
  · rintro ⟨hg, hrun⟩
    exact ⟨s', e, es, (if_pos hg).trans hs, hrun, rfl⟩

section

variable (hP : ∀ s a s' e, P s → step s a = some (s', e) → P s')
include hP

/-- **Run rule**: what relates a state to itself without outputs, and is kept when a step from a
state satisfying the invariant `P` is put in front, relates the two ends of every run. -/
theorem run_induction {R : σ → List ε → σ → Prop} (hnil : ∀ s, P s → R s [] s)
    (hcons : ∀ s a t e es s', P s → step s a = some (t, e) → R t es s' → R s (e :: es) s') :
    ∀ {as : List α} {s s' : σ} {es : List ε}, P s → run step s as = some (s', es) → R s es s' := by
  intro as
  induction as with
  | nil =>
    intro s s' es hPs hrun
    obtain ⟨rfl, rfl⟩ := hrun
    exact hnil s hPs
  | cons a as ih =>
    intro s s' es hPs hrun
    obtain ⟨t, e, es', hs, hrun', rfl⟩ := run_cons_eq_some.mp hrun
    exact hcons _ _ _ _ _ _ hPs hs (ih (hP _ _ _ _ hPs hs) hrun')

theorem run_invariant (hPs : P s) (hrun : run step s as = some (s', es)) : P s' :=
  run_induction (R := fun _ _ s' => P s') hP (fun _ h => h) (fun _ _ _ _ _ _ _ _ h => h) hPs hrun

/-- **Bookkeeping rule**: if every step from a state satisfying the invariant `P` changes the
measure `μ` by the `gain` and the `loss` of its output, a run changes it by the totals. -/
theorem run_balance (μ : σ → ℕ) (gain loss : ε → ℕ)
    (hμ : ∀ s a s' e, P s → step s a = some (s', e) → μ s' + loss e = μ s + gain e) :
    ∀ {as : List α} {s s' : σ} {es : List ε}, P s → run step s as = some (s', es) →
      μ s' + (es.map loss).sum = μ s + (es.map gain).sum := by
  refine run_induction (R := fun s es s' => μ s' + (es.map loss).sum = μ s + (es.map gain).sum) hP
    (fun _ _ => rfl) fun s a t e es s' hPs hs hrest => ?_
  have hfirst := hμ _ _ _ _ hPs hs
  simp only [List.map_cons, List.sum_cons]
  omega

/-- The bookkeeping rule for a measure that a step may also lower without an output: the totals
bound it. -/
theorem run_bound (μ : σ → ℕ) (gain loss : ε → ℕ)
    (hμ : ∀ s a s' e, P s → step s a = some (s', e) → μ s' + loss e ≤ μ s + gain e) :
    ∀ {as : List α} {s s' : σ} {es : List ε}, P s → run step s as = some (s', es) →
      μ s' + (es.map loss).sum ≤ μ s + (es.map gain).sum := by
  refine run_induction (R := fun s es s' => μ s' + (es.map loss).sum ≤ μ s + (es.map gain).sum) hP
    (fun _ _ => Nat.le_refl _) fun s a t e es s' hPs hs hrest => ?_
  have hfirst := hμ _ _ _ _ hPs hs
  simp only [List.map_cons, List.sum_cons]
  omega

end

theorem Reach.of_run (h : Reach step init anyAction s)
    (hrun : run step s as = some (s', es)) : Reach step init anyAction s' :=
  run_invariant (fun _ _ _ _ h hs => h.next trivial hs) h hrun

theorem Reach.of_run_restrict [∀ s a, Decidable (guard s a)]
    (h : Reach step init guard s) (hrun : run (restrict guard step) s as = some (s', es)) :
    Reach step init guard s' := by
  refine run_invariant (fun s a s' e h hs => ?_) h hrun
  rw [restrict] at hs
  split_ifs at hs with hg
  exact h.next hg hs

end NwinOs.Transition
