import NwinOs.Drivers.Keyboard
import NwinOs.Ring
import NwinOs.Transition

/-!
# The keyboard buffer is a queue

Between any two accesses of the reader the ring holds a list of characters, and the reader is at a
point that fits it (`Tracks`).  A push appends to the list if there is room, and the reader's store
of `HEAD` removes its first character; so the characters returned are the accepted ones, in order
(`keyboard_fifo`).

An arrow key is pushed as three characters.  Each of them is dropped on its own when the ring is
full, so the key arrives whole unless there is room for one or two characters
(`arrow_keys_whole_iff`). -/

namespace NwinOs.Drivers

open List Option Transition

/-! ### The buffer -/

namespace KeyBuffer

/-- The characters in the buffer, the oldest first. -/
def contents (keys : KeyBuffer) : List Char := Ring.contents keys.buffer keys.head keys.tail

/-- How many more characters can be pushed. -/
def free (keys : KeyBuffer) : ℕ := (keys.head + (BUF_SIZE - 1) - keys.tail) % BUF_SIZE

/-- The ring holds `rest`. -/
abbrev Holds (keys : KeyBuffer) (rest : List Char) : Prop :=
  Ring.Holds keys.buffer keys.head keys.tail rest

variable {keys : KeyBuffer} {rest : List Char} {c : Char}

theorem holds_init : init.Holds [] := .nil (by decide)

theorem Holds.free_eq (h : keys.Holds rest) : keys.free = BUF_SIZE - 1 - rest.length := by
  have hlength := h.length_eq
  have hhead := h.head_lt
  have htail := h.tail_lt
  unfold free BUF_SIZE at *
  omega

theorem Holds.accepts_iff (h : keys.Holds rest) :
    keys.accepts = true ↔ rest.length < BUF_SIZE - 1 := by
  have hfull := h.full_iff
  have hlength := h.length_lt
  rw [accepts, bne_iff_ne, ne_eq, next, hfull]
  omega

/-- **A push** appends its character if there is room, and never panics. -/
theorem Holds.pushKey (h : keys.Holds rest) (c : Char) :
    ∃ keys', keys.pushKey c = some keys' ∧ keys'.head = keys.head ∧
      keys'.Holds (rest ++ [c].take keys.free) := by
  unfold KeyBuffer.pushKey
  by_cases hroom : rest.length < BUF_SIZE - 1
  · rw [if_pos (h.accepts_iff.mpr hroom), dif_pos h.tail_lt]
    refine ⟨_, rfl, rfl, ?_⟩
    have htake : [c].take keys.free = [c] := by
      rw [h.free_eq]
      exact take_of_length_le (by simp only [length_singleton]; omega)
    rw [htake]
    exact Ring.Holds.push h (by unfold BUF_SIZE at *; omega) c
  · rw [if_neg fun hacc => hroom (h.accepts_iff.mp hacc)]
    refine ⟨keys, rfl, rfl, ?_⟩
    have hfree : keys.free = 0 := by
      rw [h.free_eq]
      omega
    rw [hfree, take_zero, append_nil]
    exact h

end KeyBuffer

/-! ### Pushes and the reader -/

namespace KeyOutput

/-- The character that a push stored. -/
def accepted? : KeyOutput → List Char
  | .accepted c => [c]
  | _ => []

/-- The character that `popKey` returned. -/
def returned? : KeyOutput → List Char
  | .returned (some c) => [c]
  | _ => []

/-- One for a store of `HEAD`. -/
def releases : KeyOutput → ℕ
  | .released => 1
  | _ => 0

end KeyOutput

namespace KeySystem

variable {s s' : KeySystem} {stream released rest answered : List Char} {count : ℕ}

/-- The reader is at a point that fits the buffer: `released` has been taken out of it, `rest` is in
it, and `answered` has been returned. -/
def Fits (pc : PopPc) (head : ℕ) (released rest answered : List Char) : Prop :=
  match pc with
  | .idle => answered = released
  | .loadTail h => h = head ∧ answered = released
  | .readSlot h => h = head ∧ answered = released ∧ rest ≠ []
  | .storeHead h c => h = head ∧ answered = released ∧ rest.head? = some c
  | .finish c => answered ++ [c] = released

variable (s)

/-- **The invariant**: of the characters `stream` that came in, the first `count` have been taken
out, the buffer holds the others, and the reader is at a point that fits. -/
def Tracks (stream answered : List Char) (count : ℕ) : Prop :=
  ∃ released rest, stream = released ++ rest ∧ released.length = count ∧ s.keys.Holds rest ∧
    Fits s.pc s.keys.head released rest answered

theorem Fits.append {pc : PopPc} {head : ℕ} (h : Fits pc head released rest answered)
    (more : List Char) : Fits pc head released (rest ++ more) answered := by
  cases pc with
  | idle => exact h
  | loadTail _ => exact h
  | readSlot _ => exact ⟨h.1, h.2.1, append_ne_nil_of_left_ne_nil h.2.2 _⟩
  | storeHead _ _ =>
    refine ⟨h.1, h.2.1, ?_⟩
    rw [head?_append, h.2.2, some_or]
  | finish _ => exact h

/-- The character that the reader has taken out of the buffer and not yet returned. -/
def inHand : List Char :=
  match s.pc with
  | .finish c => [c]
  | _ => []

/-- The characters that are yet to be returned. -/
def pending : List Char := s.inHand ++ s.keys.contents

variable {s}

theorem Fits.append_inHand (h : Fits s.pc s.keys.head released rest answered) :
    answered ++ s.inHand = released := by
  obtain ⟨keys, pc⟩ := s
  cases pc with
  | idle => exact (append_nil _).trans h
  | loadTail _ => exact (append_nil _).trans h.2
  | readSlot _ | storeHead _ _ => exact (append_nil _).trans h.2.1
  | finish c => exact h

/-- What was returned and what is pending is what came in, and each character that the reader took
out has been returned or is in its hand. -/
theorem Tracks.append_pending (h : s.Tracks stream answered count) :
    answered ++ s.pending = stream ∧ (answered ++ s.inHand).length = count := by
  obtain ⟨released, rest, rfl, rfl, hholds, hfits⟩ := h
  have hrest : s.keys.contents = rest := (Ring.Holds.eq_contents hholds).symm
  rw [pending, ← append_assoc, hfits.append_inHand, hrest]
  exact ⟨rfl, rfl⟩

/-- A push is rejected iff all slots but one hold characters that have not been taken out. -/
theorem Tracks.accepts_iff (h : s.Tracks stream answered count) :
    s.keys.accepts = false ↔ stream.length = count + 255 := by
  obtain ⟨released, rest, rfl, rfl, hholds, -⟩ := h
  have hlength := hholds.length_lt
  rw [← Bool.not_eq_true, hholds.accepts_iff, length_append]
  unfold BUF_SIZE at *
  omega

theorem accepted?_push (h : s.keys.Holds rest) (c : Char) :
    (if s.keys.accepts then KeyOutput.accepted c else .rejected c).accepted? =
      [c].take s.keys.free := by
  have hfree := h.free_eq
  split_ifs with hacc
  · have hroom := h.accepts_iff.mp hacc
    rw [take_of_length_le (by rw [length_singleton]; omega), KeyOutput.accepted?]
  · have hroom := mt h.accepts_iff.mpr hacc
    rw [show s.keys.free = 0 by omega, take_zero]
    rfl

variable (h : s.Tracks stream answered count)
include h

theorem Tracks.push (c : Char) :
    ∃ s' e, s.step (.push c) = some (s', e) ∧
      s'.Tracks (stream ++ e.accepted?) (answered ++ e.returned?) (count + e.releases) := by
  obtain ⟨released, rest, rfl, rfl, hholds, hfits⟩ := h
  obtain ⟨keys', hpush, hhead, hholds'⟩ := hholds.pushKey c
  refine ⟨⟨keys', s.pc⟩, _, by rw [step, hpush]; rfl, released, rest ++ [c].take s.keys.free,
    ?_, ?_, hholds', ?_⟩
  · rw [accepted?_push hholds, append_assoc]
  · split_ifs <;> rfl
  · have hanswered : answered ++ (if s.keys.accepts then KeyOutput.accepted c
        else .rejected c).returned? = answered := by
      split_ifs <;> exact append_nil answered
    rw [hanswered, hhead]
    exact hfits.append _

theorem Tracks.pop :
    ∃ s' e, s.pop = some (s', e) ∧ e.accepted? = [] ∧
      s'.Tracks stream (answered ++ e.returned?) (count + e.releases) := by
  obtain ⟨keys, pc⟩ := s
  obtain ⟨released, rest, rfl, rfl, hholds, hfits⟩ := h
  cases pc with
  | idle =>
    have hanswered : answered = released := hfits
    exact ⟨_, _, rfl, rfl, released, rest, rfl, rfl, hholds, rfl,
      (append_nil answered).trans hanswered⟩
  | loadTail head =>
    obtain ⟨hhead : head = keys.head, hanswered⟩ := hfits
    subst hhead
    simp only [KeySystem.pop]
    by_cases hempty : keys.head = keys.tail
    · rw [if_pos hempty]
      exact ⟨_, _, rfl, rfl, released, rest, rfl, rfl, hholds,
        (append_nil answered).trans hanswered⟩
    · rw [if_neg hempty]
      exact ⟨_, _, rfl, rfl, released, rest, rfl, rfl, hholds, rfl,
        (append_nil answered).trans hanswered, mt hholds.head_eq_tail_iff.mpr hempty⟩
  | readSlot head =>
    obtain ⟨hhead : head = keys.head, hanswered, hne⟩ := hfits
    subst hhead
    obtain ⟨c, rest, rfl⟩ := exists_cons_of_ne_nil hne
    simp only [KeySystem.pop]
    rw [hholds.front]
    exact ⟨_, _, rfl, rfl, released, c :: rest, rfl, rfl, hholds, rfl,
      (append_nil answered).trans hanswered, rfl⟩
  | storeHead head c =>
    obtain ⟨hhead : head = keys.head, hanswered, hfirst⟩ := hfits
    subst hhead
    obtain ⟨rest, rfl⟩ := head?_eq_some_iff.mp hfirst
    -- Here the first character leaves the buffer.
    refine ⟨_, _, rfl, rfl, released ++ [c], rest, ?_, length_append, Ring.Holds.pop hholds, ?_⟩
    · rw [append_assoc, singleton_append]
    · show answered ++ [] ++ [c] = released ++ [c]
      rw [append_nil, hanswered]
  | finish c => exact ⟨_, _, rfl, rfl, released, rest, rfl, rfl, hholds, hfits⟩

/-- **Every step keeps the invariant.** -/
theorem Tracks.step (a : Action) :
    ∃ s' e, s.step a = some (s', e) ∧
      s'.Tracks (stream ++ e.accepted?) (answered ++ e.returned?) (count + e.releases) := by
  cases a with
  | push c => exact h.push c
  | pop =>
    obtain ⟨s', e, hpop, haccepted, htracks⟩ := h.pop
    refine ⟨s', e, hpop, ?_⟩
    rwa [haccepted, append_nil]

theorem Tracks.run (as : List Action) :
    ∃ s' es, run KeySystem.step s as = some (s', es) ∧
      s'.Tracks (stream ++ es.flatMap KeyOutput.accepted?)
        (answered ++ es.flatMap KeyOutput.returned?)
        (count + (es.map KeyOutput.releases).sum) := by
  induction as generalizing s stream answered count with
  | nil => exact ⟨s, [], rfl, by simpa using h⟩
  | cons a as ih =>
    obtain ⟨t, e, hstep, ht⟩ := h.step a
    obtain ⟨s', es, hrun, hs'⟩ := ih ht
    refine ⟨s', e :: es, run_cons_eq_some.mpr ⟨t, e, es, hstep, hrun, rfl⟩, ?_⟩
    simpa only [flatMap_cons, map_cons, sum_cons, append_assoc, Nat.add_assoc]
      using hs'

omit h

theorem tracks_init : init.Tracks [] [] 0 := ⟨[], [], rfl, rfl, KeyBuffer.holds_init, rfl⟩

end KeySystem

open KeySystem in
/-- **The keyboard buffer is a queue.**  However pushes and the accesses of the reader interleave,
nothing panics; the characters returned, followed by those yet to be returned, are those accepted;
each store of `HEAD` releases one character, which is returned next; the next push is rejected iff
255 accepted characters have not been released by a store of `HEAD`; and both indices stay inside
the buffer. -/
theorem keyboard_fifo (as : List KeySystem.Action) :
    ∃ s es, Transition.run KeySystem.step .init as = some (s, es) ∧
      es.flatMap KeyOutput.returned? ++ s.pending = es.flatMap KeyOutput.accepted? ∧
      (es.flatMap KeyOutput.returned? ++ s.inHand).length = (es.map KeyOutput.releases).sum ∧
      (∀ c, (∃ s', s.step (.push c) = some (s', .rejected c)) ↔
        (es.flatMap KeyOutput.accepted?).length = (es.map KeyOutput.releases).sum + 255) ∧
      s.keys.head < BUF_SIZE ∧ s.keys.tail < BUF_SIZE := by
  obtain ⟨s, es, hrun, htracks⟩ := tracks_init.run as
  rw [List.nil_append, List.nil_append, Nat.zero_add] at htracks
  refine ⟨s, es, hrun, htracks.append_pending.1, htracks.append_pending.2, fun c => ?_, ?_⟩
  · rw [← htracks.accepts_iff]
    obtain ⟨released, rest, -, -, hholds, -⟩ := htracks
    obtain ⟨keys', hpush, -⟩ := hholds.pushKey c
    rw [step, hpush]
    cases s.keys.accepts <;> simp
  · obtain ⟨released, rest, -, -, hholds, -⟩ := htracks
    exact ⟨hholds.head_lt, hholds.tail_lt⟩

/-! ### Keys of several characters -/

/-- The characters of a key. -/
def KeyCode.chars : KeyCode → List Char
  | .enter => ['\n']
  | .backspace => ['\x08']
  | .arrowUp => ['\x1b', '[', 'A']
  | .arrowDown => ['\x1b', '[', 'B']
  | .arrowRight => ['\x1b', '[', 'C']
  | .arrowLeft => ['\x1b', '[', 'D']
  | .other _ => []

/-- The key is an arrow. -/
def KeyCode.isArrow : KeyCode → Bool
  | .arrowUp | .arrowDown | .arrowRight | .arrowLeft => true
  | _ => false

/-- The characters of a decoded key. -/
def DecodedKey.chars : DecodedKey → List Char
  | .unicode character => if character = '\x03' then [] else [character]
  | .rawKey key => key.chars

theorem KeyCode.length_chars_of_isArrow {key : KeyCode} (h : key.isArrow = true) :
    key.chars.length = 3 := by
  cases key with
  | arrowUp | arrowDown | arrowRight | arrowLeft => rfl
  | enter | backspace | other => cases h

theorem KeyBuffer.Holds.pushKeys {keys : KeyBuffer} {rest : List Char} (h : keys.Holds rest)
    (cs : List Char) :
    ∃ keys', cs.foldlM KeyBuffer.pushKey keys = some keys' ∧ keys'.head = keys.head ∧
      keys'.Holds (rest ++ cs.take keys.free) := by
  induction cs generalizing keys rest with
  | nil => exact ⟨keys, rfl, rfl, by rwa [take_nil, append_nil]⟩
  | cons c cs ih =>
    obtain ⟨next, hpush, hhead, hnext⟩ := h.pushKey c
    obtain ⟨keys', hrest, hhead', hkeys'⟩ := ih hnext
    refine ⟨keys', ?_, hhead'.trans hhead, ?_⟩
    · rw [foldlM_cons, hpush]
      exact hrest
    · have hfree := hnext.free_eq
      rw [length_append, length_take, length_singleton] at hfree
      have hroom := h.free_eq
      rw [append_assoc] at hkeys'
      have htake : [c].take keys.free ++ cs.take next.free = (c :: cs).take keys.free := by
        cases hk : keys.free with
        | zero =>
          rw [show next.free = 0 by omega]
          simp only [take_zero, nil_append]
        | succ n =>
          rw [show next.free = n by omega, take_succ_cons, take_succ_cons, take_nil,
            singleton_append]
      rwa [htake] at hkeys'

namespace InputState

variable {K : Type} {s : InputState K}

theorem foldlM_push_keys (cs : List Char) :
    (cs.foldlM push s).map InputState.keys = cs.foldlM KeyBuffer.pushKey s.keys := by
  induction cs generalizing s with
  | nil => rfl
  | cons c cs ih =>
    rw [foldlM_cons, foldlM_cons, push]
    cases s.keys.pushKey c with
    | none => rfl
    | some keys => exact ih

theorem interruptTask_keys (font : Font) : (s.interruptTask font).keys = s.keys := by
  unfold interruptTask
  split
  · split_ifs <;> rfl
  · rfl

theorem handleKey_keys (font : Font) (key : DecodedKey) :
    (s.handleKey font key).map InputState.keys = key.chars.foldlM KeyBuffer.pushKey s.keys := by
  rw [← foldlM_push_keys]
  cases key with
  | unicode character =>
    rw [handleKey, DecodedKey.chars]
    split_ifs
    · rw [map_some, interruptTask_keys]
      rfl
    · rw [foldlM_cons]
      simp only [foldlM_nil, bind_pure]
  | rawKey key =>
    cases key with
    | other _ => rfl
    | _ => simp only [handleKey, DecodedKey.chars, KeyCode.chars, foldlM_cons, foldlM_nil,
        bind_pure]

variable [PcKeyboard K]

/-- What the decoder makes of a scan code. -/
def decode (keyboard : K) (scancode : Byte) : Option DecodedKey :=
  match PcKeyboard.addByte keyboard scancode with
  | (keyboard, .ok (some keyEvent)) => (PcKeyboard.processKeyevent keyboard keyEvent).2
  | _ => none

theorem processScancode_keys (font : Font) (scancode : Byte) :
    (s.processScancode font scancode).map InputState.keys =
      ((decode s.keyboard scancode).elim [] DecodedKey.chars).foldlM KeyBuffer.pushKey s.keys := by
  unfold processScancode decode
  generalize PcKeyboard.addByte s.keyboard scancode = added
  match added with
  | (_, .error _) => rfl
  | (_, .ok none) => rfl
  | (keyboard, .ok (some keyEvent)) =>
    dsimp only
    generalize PcKeyboard.processKeyevent keyboard keyEvent = processed
    match processed with
    | (_, none) => rfl
    | (_, some key) => exact handleKey_keys font key

/-- The characters of the key that a scan code completes, as many of them as there is room for. -/
def delivery (s : InputState K) (scancode : Byte) : List Char :=
  ((decode s.keyboard scancode).elim [] DecodedKey.chars).take s.keys.free

/-- **An interrupt** stores what there is room for. -/
theorem processScancode_spec {rest : List Char} (h : s.keys.Holds rest) (font : Font)
    (scancode : Byte) :
    ∃ s', s.processScancode font scancode = some s' ∧ s'.keys.head = s.keys.head ∧
      s'.keys.Holds (rest ++ s.delivery scancode) := by
  obtain ⟨keys', hpush, hhead, hkeys'⟩ :=
    h.pushKeys ((decode s.keyboard scancode).elim [] DecodedKey.chars)
  rw [← processScancode_keys font, map_eq_some_iff] at hpush
  obtain ⟨s', hs', rfl⟩ := hpush
  exact ⟨s', hs', hhead, hkeys'⟩

end InputState

/-! ### Interrupts and the reader -/

/-- What the interrupt works on, and the reader. -/
structure InputSystem (K : Type) where
  input : InputState K
  pc : PopPc

/-- An interrupt shows the key that the decoder has recognised and what it has added to the buffer.
-/
inductive InputOutput
  | typed (key : Option DecodedKey) (delivered : List Char)
  | reader (output : KeyOutput)
  deriving DecidableEq

namespace InputOutput

/-- The characters that a key put into the buffer. -/
def delivered : InputOutput → List Char
  | .typed _ delivered => delivered
  | .reader _ => []

/-- The character that `popKey` returned. -/
def returned? : InputOutput → List Char
  | .typed _ _ => []
  | .reader output => output.returned?

/-- An arrow key has been delivered whole or not at all. -/
def Whole : InputOutput → Prop
  | .typed (some (.rawKey key)) delivered =>
    key.isArrow = true → delivered = [] ∨ delivered = key.chars
  | _ => True

end InputOutput

namespace InputSystem

inductive Action
  | interrupt (scancode : Byte)
  | pop

variable {K : Type}

/-- The characters that the reader has yet to return. -/
def pending (s : InputSystem K) : List Char := KeySystem.pending ⟨s.input.keys, s.pc⟩

/-- The invariant of the queue, for the buffer and the reader. -/
abbrev Tracks (s : InputSystem K) : List Char → List Char → ℕ → Prop :=
  KeySystem.Tracks ⟨s.input.keys, s.pc⟩

variable {s : InputSystem K} {stream answered : List Char} {count : ℕ}

variable [PcKeyboard K]

def step (font : Font) (s : InputSystem K) : Action → Option (InputSystem K × InputOutput)
  | .interrupt scancode => (s.input.processScancode font scancode).map fun input =>
    (⟨input, s.pc⟩, .typed (InputState.decode s.input.keyboard scancode)
      (input.keys.contents.drop s.input.keys.contents.length))
  | .pop => (KeySystem.pop ⟨s.input.keys, s.pc⟩).map fun r =>
    (⟨{ s.input with keys := r.1.keys }, r.1.pc⟩, .reader r.2)

/-- If the scan code completes an arrow key, there is room for all of its characters or for none. -/
def Roomy (s : InputSystem K) : Action → Bool
  | .interrupt scancode =>
    match InputState.decode s.input.keyboard scancode with
    | some (.rawKey key) => !key.isArrow || s.input.keys.free != 1 && s.input.keys.free != 2
    | _ => true
  | .pop => true

/-- Of an arrow key's three characters, as many are delivered as there is room for. -/
theorem whole_interrupt_iff (scancode : Byte) :
    (InputOutput.typed (InputState.decode s.input.keyboard scancode)
      (s.input.delivery scancode)).Whole ↔ s.Roomy (.interrupt scancode) = true := by
  simp only [InputState.delivery, Roomy]
  generalize InputState.decode s.input.keyboard scancode = decoded
  match decoded with
  | none => exact iff_of_true trivial rfl
  | some (.unicode _) => exact iff_of_true trivial rfl
  | some (.rawKey key) =>
    simp only [elim_some, DecodedKey.chars]
    show (key.isArrow = true → key.chars.take s.input.keys.free = [] ∨
      key.chars.take s.input.keys.free = key.chars) ↔ _
    cases harrow : key.isArrow with
    | false => exact iff_of_true (fun h => nomatch h) rfl
    | true =>
      have hlength := KeyCode.length_chars_of_isArrow harrow
      have hne : key.chars ≠ [] := ne_nil_of_length_pos (by omega)
      simp only [forall_const, take_eq_nil_iff, hne, or_false, take_eq_self_iff, hlength,
        Bool.not_true, Bool.false_or, Bool.and_eq_true, bne_iff_ne]
      omega

/-- **A step** adds what it delivers to the stream; it delivers an arrow key whole iff it is roomy.
-/
theorem Tracks.step (h : s.Tracks stream answered count) (font : Font) (a : Action) :
    ∃ s' e count', s.step font a = some (s', e) ∧
      s'.Tracks (stream ++ e.delivered) (answered ++ e.returned?) count' ∧
      (e.Whole ↔ s.Roomy a = true) := by
  cases a with
  | interrupt scancode =>
    obtain ⟨released, rest, rfl, rfl, hholds, hfits⟩ := h
    obtain ⟨input, hprocess, hhead, hinput⟩ := InputState.processScancode_spec hholds font scancode
    have hdelivered : input.keys.contents.drop s.input.keys.contents.length =
        s.input.delivery scancode := by
      rw [show s.input.keys.contents = rest from (Ring.Holds.eq_contents hholds).symm,
        show input.keys.contents = _ from (Ring.Holds.eq_contents hinput).symm, drop_left]
    have hstep : s.step font (.interrupt scancode) = some (⟨input, s.pc⟩,
        .typed (InputState.decode s.input.keyboard scancode) (s.input.delivery scancode)) := by
      rw [InputSystem.step, hprocess, map_some, hdelivered]
    refine ⟨_, _, released.length, hstep, ⟨released, _, ?_, rfl, hinput, ?_⟩,
      whole_interrupt_iff scancode⟩
    · rw [append_assoc]
      rfl
    · show KeySystem.Fits s.pc input.keys.head released _ (answered ++ [])
      rw [hhead, append_nil]
      exact hfits.append _
  | pop =>
    obtain ⟨t, e, hpop, -, ht⟩ := KeySystem.Tracks.pop h
    have hstep : s.step font .pop = some (⟨{ s.input with keys := t.keys }, t.pc⟩, .reader e) := by
      rw [InputSystem.step, hpop]
      rfl
    refine ⟨_, _, count + e.releases, hstep, ?_, iff_of_true trivial rfl⟩
    rw [InputOutput.delivered, append_nil]
    exact ht

theorem Tracks.run (h : s.Tracks stream answered count) (font : Font) (as : List Action) :
    ∃ s' es count', run (InputSystem.step font) s as = some (s', es) ∧
      s'.Tracks (stream ++ es.flatMap InputOutput.delivered)
        (answered ++ es.flatMap InputOutput.returned?) count' ∧
      ((∀ e ∈ es, e.Whole) ↔ run (restrict (fun s a => s.Roomy a = true)
        (InputSystem.step font)) s as = some (s', es)) := by
  induction as generalizing s stream answered count with
  | nil =>
    refine ⟨s, [], count, rfl, ?_, iff_of_true (fun e he => nomatch he) rfl⟩
    rwa [flatMap_nil, flatMap_nil, append_nil, append_nil]
  | cons a as ih =>
    obtain ⟨t, e, count₁, hstep, ht, hwhole⟩ := h.step font a
    obtain ⟨s', es, count₂, hrun, hs', hrest⟩ := ih ht
    refine ⟨s', e :: es, count₂, run_cons_eq_some.mpr ⟨t, e, es, hstep, hrun, rfl⟩, ?_, ?_⟩
    · simpa only [flatMap_cons, append_assoc] using hs'
    · rw [run_restrict_cons hstep, forall_mem_cons, hwhole, hrest]

end InputSystem

open InputSystem in
/-- **Whole arrow keys.**  From any buffer, with the reader outside `popKey`, every sequence of
interrupts and of accesses of the reader runs.  The characters returned and yet to be returned are
those that were in the buffer followed by what the keys delivered, in order.  Every arrow key was
delivered whole or not at all iff none of them came when there was room for one or two characters.
-/
theorem arrow_keys_whole_iff {K : Type} [PcKeyboard K] (font : Font) (s : InputSystem K)
    (hidle : s.pc = .idle) (hhead : s.input.keys.head < BUF_SIZE)
    (htail : s.input.keys.tail < BUF_SIZE) (as : List InputSystem.Action) :
    ∃ s' es, Transition.run (InputSystem.step font) s as = some (s', es) ∧
      es.flatMap InputOutput.returned? ++ s'.pending =
        s.input.keys.contents ++ es.flatMap InputOutput.delivered ∧
      ((∀ e ∈ es, e.Whole) ↔ Transition.run (Transition.restrict (fun s a => s.Roomy a = true)
        (InputSystem.step font)) s as = some (s', es)) := by
  have hstart : s.Tracks s.input.keys.contents [] 0 := by
    refine ⟨[], _, rfl, rfl, Ring.holds_contents hhead htail, ?_⟩
    rw [hidle]
    rfl
  obtain ⟨s', es, count', hrun, hs', hwhole⟩ := hstart.run font as
  exact ⟨s', es, hrun, (KeySystem.Tracks.append_pending hs').1, hwhole⟩

/-- A decoder that knows the up arrow of scan code set 1; its state is whether the last byte was
`0xE0`. -/
def UpArrow : Type := Bool

instance : PcKeyboard UpArrow where
  KeyEvent := Unit
  Error := Unit
  addByte extended scancode :=
    match extended with
    | false => (scancode == 0xE0, .ok none)
    | true => (false, .ok (if scancode = 0x48 then some () else none))
  processKeyevent extended _ := (extended, some (.rawKey .arrowUp))

/-- The decoder at its start, an idle reader, and a buffer that holds `n` letters. -/
def filledInput (n : ℕ) : InputSystem UpArrow where
  input := ⟨false, ⟨Vector.replicate BUF_SIZE 'a', 0, n⟩, .empty, none⟩
  pc := .idle

/-- With 252 letters in the buffer the arrow is delivered whole. -/
theorem arrow_keys_whole_iff_filled :
    ∃ s' es, Transition.run (InputSystem.step fun _ => none) (filledInput 252)
        [.interrupt 0xE0, .interrupt 0x48] = some (s', es) ∧ ∀ e ∈ es, e.Whole := by
  obtain ⟨s', es, hrun, -, hwhole⟩ := arrow_keys_whole_iff (fun _ => none) (filledInput 252) rfl
    (by decide) (by decide) [.interrupt 0xE0, .interrupt 0x48]
  exact ⟨s', es, hrun, hwhole.mpr hrun⟩

/-- With 254 letters in the buffer the arrow is cut off after its first character, and with 253
after its second. -/
theorem arrow_key_truncated : ((Transition.run (InputSystem.step fun _ => none) (filledInput 254)
        [.interrupt 0xE0, .interrupt 0x48]).map Prod.snd =
      some [.typed none [], .typed (some (.rawKey .arrowUp)) ['\x1b']]) ∧
    (Transition.run (InputSystem.step fun _ => none) (filledInput 253)
        [.interrupt 0xE0, .interrupt 0x48]).map Prod.snd =
      some [.typed none [], .typed (some (.rawKey .arrowUp)) ['\x1b', '[']] := by
  decide +kernel

end NwinOs.Drivers
