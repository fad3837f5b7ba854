import Mathlib.Logic.Basic

/-!
# Programs with state, errors and faults

`Program σ ε α` is code that reads and changes a state `σ`, and ends in one of three ways: with a
value, with an error that the caller can handle, or in a fault (a panic or an access outside a
buffer), which nothing handles.

`wp m Q E F s` says what running `m` from `s` guarantees: `Q` of the value and the last state if it
returns, `E` of the error and the last state if it fails, `F` of the last state if it faults.  The
rules below follow the shape of a program; a function's specification is a `wp` statement about it.
-/

namespace NwinOs.Effect

variable {σ ε ε' α β : Type}

/-- How a run ends. -/
inductive Outcome (σ ε α : Type)
  | ok (a : α) (s : σ)
  | err (e : ε) (s : σ)
  | fault (s : σ)
  deriving DecidableEq

/-- The value of a run that returned. -/
def Outcome.value? : Outcome σ ε α → Option α
  | .ok a _ => some a
  | _ => none

/-- Whether a run ended in a fault. -/
def Outcome.faulted : Outcome σ ε α → Bool
  | .fault _ => true
  | _ => false

/-- The last state of a run. -/
def Outcome.state : Outcome σ ε α → σ
  | .ok _ s => s
  | .err _ s => s
  | .fault s => s

/-- Code over a state. -/
def Program (σ ε α : Type) : Type := σ → Outcome σ ε α

namespace Program

def pure (a : α) : Program σ ε α := fun s => .ok a s

def bind (m : Program σ ε α) (f : α → Program σ ε β) : Program σ ε β := fun s =>
  match m s with
  | .ok a s' => f a s'
  | .err e s' => .err e s'
  | .fault s' => .fault s'

instance : Monad (Program σ ε) where
  pure := pure
  bind := bind

theorem bind_pure_run (m : Program σ ε α) : bind m pure = m := by
  funext s
  unfold bind
  cases m s <;> rfl

theorem bind_bind (m : Program σ ε α) (f : α → Program σ ε β) {γ : Type}
    (g : β → Program σ ε γ) : bind (bind m f) g = bind m fun a => bind (f a) g := by
  funext s
  unfold bind
  cases m s <;> rfl

instance : LawfulMonad (Program σ ε) :=
  LawfulMonad.mk' _ bind_pure_run (fun _ _ => rfl) fun m f g => bind_bind m f g

/-- Ends with an error. -/
def throw (e : ε) : Program σ ε α := fun s => .err e s

/-- A computation that may fault. -/
def ofOption : Option α → Program σ ε α
  | some a => pure a
  | none => fun s => .fault s

def get : Program σ ε σ := fun s => .ok s s

def modify (f : σ → σ) : Program σ ε Unit := fun s => .ok () (f s)

/-- Runs `m` and hands its error to the caller as a value. -/
def attempt (m : Program σ ε α) : Program σ ε' (Except ε α) := fun s =>
  match m s with
  | .ok a s' => .ok (.ok a) s'
  | .err e s' => .ok (.error e) s'
  | .fault s' => .fault s'

end Program

/-- What a run of `m` from `s` guarantees. -/
def wp (m : Program σ ε α) (Q : α → σ → Prop) (E : ε → σ → Prop) (F : σ → Prop) (s : σ) : Prop :=
  match m s with
  | .ok a s' => Q a s'
  | .err e s' => E e s'
  | .fault s' => F s'

variable {m : Program σ ε α} {f : α → Program σ ε β} {Q Q' : α → σ → Prop}
  {E E' : ε → σ → Prop} {F F' : σ → Prop} {s s' : σ} {a : α}

@[simp] theorem wp_pure : wp (Pure.pure a : Program σ ε α) Q E F s ↔ Q a s := Iff.rfl

variable {e : ε}

@[simp] theorem wp_throw : wp (Program.throw e : Program σ ε α) Q E F s ↔ E e s := Iff.rfl

@[simp] theorem wp_ofOption_some :
    wp (Program.ofOption (some a) : Program σ ε α) Q E F s ↔ Q a s := Iff.rfl

/-- **Sequencing.** -/
theorem wp_bind {Q : β → σ → Prop} :
    wp (m >>= f) Q E F s ↔ wp m (fun a s => wp (f a) Q E F s) E F s := by
  change wp (Program.bind m f) Q E F s ↔ _
  unfold wp Program.bind
  cases m s <;> rfl

theorem wp_attempt {Q : Except ε α → σ → Prop} {E : ε' → σ → Prop} :
    wp (m.attempt : Program σ ε' (Except ε α)) Q E F s ↔
      wp m (fun a s => Q (.ok a) s) (fun e s => Q (.error e) s) F s := by
  unfold wp Program.attempt
  cases m s <;> rfl

/-- **Consequence.** -/
theorem wp_mono (h : wp m Q E F s) (hQ : ∀ a s, Q a s → Q' a s) (hE : ∀ e s, E e s → E' e s)
    (hF : ∀ s, F s → F' s) : wp m Q' E' F' s := by
  unfold wp at h ⊢
  cases hm : m s with
  | ok a s' =>
    rw [hm] at h
    exact hQ a s' h
  | err e s' =>
    rw [hm] at h
    exact hE e s' h
  | fault s' =>
    rw [hm] at h
    exact hF s' h

theorem wp_of_forall (hQ : ∀ a s, Q a s) (hE : ∀ e s, E e s) (hF : ∀ s, F s) : wp m Q E F s := by
  unfold wp
  cases m s with
  | ok a s' => exact hQ a s'
  | err e s' => exact hE e s'
  | fault s' => exact hF s'

theorem wp_of_ok (h : wp m Q E F s) (hm : m s = .ok a s') : Q a s' := by
  unfold wp at h
  rwa [hm] at h

/-- A postcondition holds after every run that returns. -/
theorem forall_ok (h : wp m Q (fun _ _ => True) (fun _ => True) s) :
    ∀ a s', m s = .ok a s' → Q a s' :=
  fun _ _ => wp_of_ok h

theorem forall_ok_state {Q : σ → Prop}
    (h : wp m (fun _ => Q) (fun _ _ => True) (fun _ => True) s) : ∀ s', m s = .ok a s' → Q s' :=
  fun _ => wp_of_ok h

theorem not_faulted_of_wp (h : wp m Q E (fun _ => False) s) : (m s).faulted = false := by
  unfold wp at h
  cases hm : m s with
  | ok a s' => rfl
  | err e s' => rfl
  | fault s' =>
    rw [hm] at h
    exact h.elim

theorem faulted_of_wp (h : wp m (fun _ _ => False) (fun _ _ => False) F s) :
    (m s).faulted = true := by
  unfold wp at h
  cases hm : m s with
  | ok _ _ | err _ _ =>
    rw [hm] at h
    cases h
  | fault s' => rfl

theorem state_of_wp {P : σ → Prop} (h : wp m (fun _ => P) (fun _ => P) P s) : P (m s).state := by
  unfold wp at h
  cases hm : m s with
  | ok _ _ | err _ _ | fault _ =>
    rw [hm] at h
    exact h

theorem ok_of_value? (h : (m s).value? = some a) : ∃ s', m s = .ok a s' := by
  cases hm : m s with
  | ok b s' =>
    rw [hm] at h
    cases h
    exact ⟨s', rfl⟩
  | err _ _ | fault _ =>
    rw [hm] at h
    cases h

/-- A sequence that returned, step by step. -/
theorem bind_ok {b : β} {s'' : σ} (h : (m >>= f) s = .ok b s'') :
    ∃ a s', m s = .ok a s' ∧ f a s' = .ok b s'' := by
  change Program.bind m f s = .ok b s'' at h
  unfold Program.bind at h
  cases hm : m s with
  | ok a s' =>
    rw [hm] at h
    exact ⟨a, s', rfl, h⟩
  | err _ _ | fault _ =>
    rw [hm] at h
    cases h

/-- A loop that returned has run its body for every item. -/
theorem forM_ok {ι : Type} {xs : List ι} {f : ι → Program σ ε Unit} {i : ι}
    (h : xs.forM f s = .ok () s') (hi : i ∈ xs) : ∃ t t', f i t = .ok () t' := by
  induction xs generalizing s with
  | nil => cases hi
  | cons j xs ih =>
    obtain ⟨_, t, hj, hxs⟩ := bind_ok h
    rcases List.mem_cons.mp hi with rfl | hi
    · exact ⟨s, t, hj⟩
    · exact ih hxs hi

/-- A sequence whose first program returned. -/
theorem bind_of_ok (h : m s = .ok a s') : (m >>= f) s = f a s' := by
  change Program.bind m f s = f a s'
  unfold Program.bind
  rw [h]

theorem bind_of_err (h : m s = .err e s') : (m >>= f) s = .err e s' := by
  change Program.bind m f s = _
  unfold Program.bind
  rw [h]

theorem bind_of_fault (h : m s = .fault s') : (m >>= f) s = .fault s' := by
  change Program.bind m f s = _
  unfold Program.bind
  rw [h]

theorem attempt_of_ok (h : m s = .ok a s') :
    (m.attempt : Program σ ε' (Except ε α)) s = .ok (.ok a) s' := by
  unfold Program.attempt
  rw [h]

theorem attempt_of_err (h : m s = .err e s') :
    (m.attempt : Program σ ε' (Except ε α)) s = .ok (.error e) s' := by
  unfold Program.attempt
  rw [h]

theorem attempt_ok {r : Except ε α} (h : (m.attempt : Program σ ε' (Except ε α)) s = .ok r s') :
    (∃ a, m s = .ok a s' ∧ r = .ok a) ∨ ∃ e, m s = .err e s' ∧ r = .error e := by
  unfold Program.attempt at h
  cases hm : m s with
  | ok a s'' =>
    rw [hm] at h
    cases h
    exact .inl ⟨a, rfl, rfl⟩
  | err e s'' =>
    rw [hm] at h
    cases h
    exact .inr ⟨e, rfl, rfl⟩
  | fault s'' =>
    rw [hm] at h
    cases h

variable {o : Option α}

theorem ofOption_ok (h : (Program.ofOption o : Program σ ε α) s = .ok a s') :
    o = some a ∧ s' = s := by
  cases o with
  | none => cases h
  | some b =>
    cases h
    exact ⟨rfl, rfl⟩

/-- Computations that may fault, one after the other. -/
theorem ofOption_bind {g : α → Option β} :
    (Program.ofOption o >>= fun a => Program.ofOption (g a) : Program σ ε β)
      = Program.ofOption (o.bind g) := by
  cases o <;> rfl

theorem ofOption_map {g : α → β} : (Program.ofOption o >>= fun a => Pure.pure (g a) : Program σ ε β)
      = Program.ofOption (o.map g) := by
  cases o <;> rfl

theorem returns_of_wp (h : wp m Q (fun _ _ => False) (fun _ => False) s) :
    ∃ a s', m s = .ok a s' ∧ Q a s' := by
  unfold wp at h
  cases hm : m s with
  | ok a s' =>
    rw [hm] at h
    exact ⟨a, s', rfl, h⟩
  | err _ _ | fault _ =>
    rw [hm] at h
    exact h.elim

theorem wp_iff_of_ok (hm : m s = .ok a s') : wp m Q E F s ↔ Q a s' := by
  unfold wp
  rw [hm]

/-! ### From one condition to another -/

/-- From a state with `I` the program ends, whichever way it does, in a state with `J`; a value that
it returns has `Q`. -/
def Leads (I J : σ → Prop) (m : Program σ ε α) (Q : α → Prop) : Prop :=
  ∀ s, I s → wp m (fun a s' => J s' ∧ Q a) (fun _ s' => J s') J s

namespace Leads

variable {I J K : σ → Prop} {m : Program σ ε α} {f : α → Program σ ε β} {Q Q' : α → Prop} {a : α}

theorem pure (hIJ : ∀ s, I s → J s) (hQ : Q a) : Leads I J (Pure.pure a : Program σ ε α) Q :=
  fun s hs => ⟨hIJ s hs, hQ⟩

theorem throw (hIJ : ∀ s, I s → J s) {e : ε} : Leads I J (Program.throw e : Program σ ε α) Q :=
  fun s hs => hIJ s hs

theorem ofOption (hIJ : ∀ s, I s → J s) {o : Option α} (h : ∀ a, o = some a → Q a) :
    Leads I J (Program.ofOption o : Program σ ε α) Q := by
  intro s hs
  cases o with
  | none => exact hIJ s hs
  | some a => exact ⟨hIJ s hs, h a rfl⟩

variable {R : β → Prop}

/-- **Sequencing**, through a condition in between. -/
theorem bind (hm : Leads I K m Q) (hKJ : ∀ s, K s → J s)
    (hf : ∀ a, Q a → Leads K J (f a) R) : Leads I J (m >>= f) R := by
  intro s hs
  rw [wp_bind]
  exact wp_mono (hm s hs) (fun a s' h => hf a h.2 s' h.1) (fun _ => hKJ) hKJ

theorem ofOption_some_bind (h : Leads I J (f a) R) :
    Leads I J (Program.ofOption (some a) >>= f) R := h

/-! The same for programs that stay in one condition. -/

theorem ret (hQ : Q a) : Leads I I (Pure.pure a : Program σ ε α) Q := pure (fun _ h => h) hQ

theorem fail {e : ε} : Leads I I (Program.throw e : Program σ ε α) Q := throw fun _ h => h

theorem value {o : Option α} (h : ∀ a, o = some a → Q a) :
    Leads I I (Program.ofOption o : Program σ ε α) Q := ofOption (fun _ h => h) h

theorem seq (hm : Leads I J m Q) (hf : ∀ a, Q a → Leads J J (f a) R) :
    Leads I J (m >>= f) R := hm.bind (fun _ h => h) hf

theorem attempt (hm : Leads I J m Q) :
    Leads I J (m.attempt : Program σ ε' (Except ε α)) fun r => ∀ a, r = .ok a → Q a := by
  intro s hs
  rw [wp_attempt]
  refine wp_mono (hm s hs) (fun a s' h => ⟨h.1, ?_⟩) (fun e s' h => ⟨h, ?_⟩) fun _ h => h
  · rintro b ⟨⟩
    exact h.2
  · rintro b ⟨⟩

theorem mono (hm : Leads I K m Q) (hKJ : ∀ s, K s → J s) (hQ : ∀ a, Q a → Q' a) : Leads I J m Q' :=
  fun s hs => wp_mono (hm s hs) (fun a s' h => ⟨hKJ s' h.1, hQ a h.2⟩) (fun _ => hKJ) hKJ

theorem state (hm : Leads I J m Q) (hs : I s) : J (m s).state :=
  state_of_wp (wp_mono (hm s hs) (fun _ _ h => h.1) (fun _ _ h => h) fun _ h => h)

end Leads

/-- The program keeps a condition, whichever way it ends. -/
structure Preserves (I : σ → Prop) (m : Program σ ε α) : Prop where
  leads : Leads I I m fun _ => True

namespace Preserves

variable {I : σ → Prop} {m : Program σ ε α} {f : α → Program σ ε β} {a : α} {s s' : σ}

theorem pure : Preserves I (Pure.pure a : Program σ ε α) := ⟨.ret trivial⟩

theorem throw {e : ε} : Preserves I (Program.throw e : Program σ ε α) := ⟨.fail⟩

theorem ofOption {o : Option α} : Preserves I (Program.ofOption o : Program σ ε α) :=
  ⟨.value fun _ _ => trivial⟩

theorem bind (hm : Preserves I m) (hf : ∀ a, Preserves I (f a)) : Preserves I (m >>= f) :=
  ⟨hm.leads.seq fun a _ => (hf a).leads⟩

theorem state (hm : Preserves I m) (hs : I s) : I (m s).state := hm.leads.state hs

/-- A program that always returns. -/
theorem of_ok (h : ∀ s, I s → ∃ a s', m s = .ok a s' ∧ I s') : Preserves I m := by
  constructor
  intro s hs
  obtain ⟨a, s', hm, hs'⟩ := h s hs
  exact (wp_iff_of_ok hm).mpr ⟨hs', trivial⟩

end Preserves

/-- The program faults from no state. -/
structure NeverFaults (m : Program σ ε α) : Prop where
  run : ∀ s, (m s).faulted = false

namespace NeverFaults

variable {m : Program σ ε α} {f : α → Program σ ε β} {a : α}

theorem pure : NeverFaults (Pure.pure a : Program σ ε α) := ⟨fun _ => rfl⟩

theorem throw {e : ε} : NeverFaults (Program.throw e : Program σ ε α) := ⟨fun _ => rfl⟩

theorem ofOption_iff [hσ : Nonempty σ] {o : Option α} :
    NeverFaults (Program.ofOption o : Program σ ε α) ↔ o.isSome = true := by
  cases o with
  | none =>
    obtain ⟨s⟩ := hσ
    refine ⟨fun h => ?_, fun h => by cases h⟩
    cases h.run s
  | some a => exact ⟨fun _ => rfl, fun _ => pure⟩

theorem bind (hm : NeverFaults m) (hf : ∀ a, NeverFaults (f a)) : NeverFaults (m >>= f) := by
  constructor
  intro s
  cases hrun : m s with
  | ok a s' =>
    rw [bind_of_ok hrun]
    exact (hf a).run s'
  | err e s' =>
    rw [bind_of_err hrun]
    rfl
  | fault s' =>
    have h := hm.run s
    rw [hrun] at h
    cases h

theorem of_bind (h : NeverFaults (m >>= f)) : NeverFaults m := by
  constructor
  intro s
  cases hrun : m s with
  | ok a s' => rfl
  | err e s' => rfl
  | fault s' =>
    have hs := h.run s
    rw [bind_of_fault hrun] at hs
    cases hs

theorem attempt (hm : NeverFaults m) : NeverFaults (m.attempt : Program σ ε' (Except ε α)) := by
  constructor
  intro s
  have h := hm.run s
  unfold Program.attempt
  cases hrun : m s with
  | ok a s' => rfl
  | err e s' => rfl
  | fault s' =>
    rw [hrun] at h
    cases h

end NeverFaults

/-! ### Runs of several programs -/

variable {Op : Type} {exec : Op → Program σ ε α} {C : Op → σ → Prop} {I : σ → Prop} {ops : List Op}

/-- Runs programs one after the other.  An error does not stop the run, a fault does. -/
def runAll (exec : Op → Program σ ε α) : List Op → σ → σ
  | [], s => s
  | op :: ops, s =>
    match exec op s with
    | .ok _ s' => runAll exec ops s'
    | .err _ s' => runAll exec ops s'
    | .fault s' => s'

/-- One program of a run: the state it started in, and how it ended. -/
structure Call (Op σ ε α : Type) where
  op : Op
  start : σ
  outcome : Outcome σ ε α

/-- The programs of a run, in order. -/
def calls (exec : Op → Program σ ε α) : List Op → σ → List (Call Op σ ε α)
  | [], _ => []
  | op :: ops, s => ⟨op, s, exec op s⟩ ::
    match exec op s with
    | .ok _ s' => calls exec ops s'
    | .err _ s' => calls exec ops s'
    | .fault _ => []

/-- Every program of the run starts in a state that meets its condition. -/
def MeetsAll (exec : Op → Program σ ε α) (C : Op → σ → Prop) : List Op → σ → Prop
  | [], _ => True
  | op :: ops, s => C op s ∧
    match exec op s with
    | .ok _ s' => MeetsAll exec C ops s'
    | .err _ s' => MeetsAll exec C ops s'
    | .fault _ => True

/-- **Invariants of runs**: what each program keeps from a state that meets its condition. -/
theorem runAll_invariant
    (hstep : ∀ op s, I s → C op s → wp (exec op) (fun _ => I) (fun _ => I) I s) (hs : I s)
    (hmeets : MeetsAll exec C ops s) : I (runAll exec ops s) := by
  induction ops generalizing s with
  | nil => exact hs
  | cons op ops ih =>
    obtain ⟨hop, hrest⟩ := hmeets
    have hwp := hstep op s hs hop
    unfold wp at hwp
    unfold runAll
    cases hexec : exec op s with
    | ok _ _ | err _ _ =>
      rw [hexec] at hwp hrest
      exact ih hwp hrest
    | fault s' =>
      rw [hexec] at hwp
      exact hwp

theorem calls_cons {op : Op} (h : (exec op s).faulted = false) :
    calls exec (op :: ops) s = ⟨op, s, exec op s⟩ :: calls exec ops (exec op s).state := by
  rw [calls]
  cases hexec : exec op s with
  | ok a s' => rfl
  | err e s' => rfl
  | fault s' =>
    rw [hexec] at h
    cases h

end NwinOs.Effect
