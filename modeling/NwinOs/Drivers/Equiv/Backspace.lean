import NwinOs.Drivers.Equiv.Tty

/-!
# Printing and backspace

Printing breaks the line before a character that would reach the right margin, so the last column of
a line stays empty, while a backspace at the left margin goes to the last column.  Count the cells
of the screen line by line (`cellNumber`): a character moves the cursor by one cell, or by two if it
starts a new line (`cellNumber_printChar`), and a backspace moves it back by one
(`cellNumber_backspace`).  So as many backspaces as characters lead back exactly if no new line was
started. -/

namespace NwinOs.Drivers.Writer

open List Nat

variable {font : Font} {w : Writer} {byte : Byte} {text : List Byte}

/-- The bytes that are drawn. -/
def IsPrintable (byte : Byte) : Prop := 0x20 ≤ byte ∧ byte ≤ 0x7E

/-! ### Bytes outside of sequences -/

/-- What printing and backspaces leave alone. -/
structure SameMode (w w' : Writer) : Prop where
  fb : w'.fb = w.fb
  bgColor : w'.bgColor = w.bgColor
  ansiState : w'.ansiState = w.ansiState

theorem sameMode_wrapLine (w : Writer) : SameMode w w.wrapLine := by
  unfold wrapLine newLine
  dsimp only
  split_ifs <;> exact ⟨rfl, rfl, rfl⟩

theorem sameMode_printChar (font : Font) (w : Writer) (byte : Byte) :
    SameMode w (w.printChar font byte) :=
  ⟨(sameMode_wrapLine w).fb, (sameMode_wrapLine w).bgColor, (sameMode_wrapLine w).ansiState⟩

theorem sameMode_backspace (w : Writer) : SameMode w w.backspace := by
  unfold backspace
  split_ifs <;> exact ⟨rfl, rfl, rfl⟩

theorem writeByte_printable (hnormal : w.ansiState = .normal) (hbyte : IsPrintable byte) :
    w.writeByte font byte = w.printChar font byte := by
  have hne : ∀ control : Byte, ¬ 0x20 ≤ control → byte ≠ control := by
    rintro control hcontrol rfl
    exact hcontrol hbyte.1
  unfold writeByte
  rw [hnormal]
  rw [if_neg (hne _ (by decide)), if_neg (hne _ (by decide)), if_neg (hne _ (by decide)),
    if_neg (hne _ (by decide))]
  exact if_pos hbyte

theorem writeByte_backspace (hnormal : w.ansiState = .normal) :
    w.writeByte font 0x08 = w.backspace := by
  unfold writeByte
  rw [hnormal]
  rfl

/-! ### The number of the cell -/

/-- The number of the cursor's cell, line by line. -/
def cellNumber (w : Writer) : ℕ := w.yPos / 8 * (w.fb.width / 8) + w.xPos / 8

/-- The next character clears the screen. -/
def AtBottom (w : Writer) : Prop :=
  w.fb.width ≤ w.xPos + 8 ∧ w.fb.height ≤ w.yPos + 8 + 8

theorem cellNumber_printChar (font : Font) (byte : Byte) (hcolumns : 8 ∣ w.fb.width)
    (h : w.OnScreen) (hbottom : ¬ w.AtBottom) :
    (w.printChar font byte).cellNumber =
      w.cellNumber + if w.fb.width ≤ w.xPos + 8 then 2 else 1 := by
  obtain ⟨⟨c, hc⟩, ⟨l, hl⟩, hleft, -⟩ := h
  have hfb : (w.printChar font byte).fb = w.fb := (sameMode_printChar font w byte).fb
  have hx : (w.printChar font byte).xPos = w.wrapLine.xPos + 8 := rfl
  have hy : (w.printChar font byte).yPos = w.wrapLine.yPos := rfl
  unfold cellNumber
  rw [hfb, hx, hy]
  by_cases hwrap : w.fb.width ≤ w.xPos + 8
  · have hroom : ¬ w.fb.height ≤ w.yPos + 8 + 8 := fun hlast => hbottom ⟨hwrap, hlast⟩
    rw [if_pos hwrap, wrapLine, if_pos hwrap, xPos_newLine, yPos_newLine, if_neg hroom]
    have hnext : (w.yPos + 8) / 8 = w.yPos / 8 + 1 := by omega
    rw [hnext, add_mul, one_mul]
    omega
  · rw [if_neg hwrap, wrapLine, if_neg hwrap]
    omega

theorem cellNumber_backspace (hcolumns : 8 ∣ w.fb.width) (h : w.OnScreen) :
    w.backspace.cellNumber = w.cellNumber - 1 := by
  obtain ⟨hcolumn, hline, hleft, -⟩ := h
  unfold cellNumber
  rw [fb_backspace, xPos_backspace, yPos_backspace]
  split_ifs with hx hy
  · omega
  · have hlast : w.yPos / 8 = (w.yPos - 8) / 8 + 1 := by omega
    rw [hlast, add_mul, one_mul]
    omega
  · have hzero : w.yPos / 8 = 0 := by omega
    rw [hzero]
    omega

/-! ### Printing a text -/

/-- Some character of the text clears the screen. -/
def ReachesBottom (font : Font) : Writer → List Byte → Prop
  | _, [] => False
  | w, byte :: text => w.AtBottom ∨ ReachesBottom font (w.printChar font byte) text

/-- The cells in which the characters of a text are drawn, by their upper left corners. -/
def drawnCells (font : Font) : Writer → List Byte → List (ℕ × ℕ)
  | _, [] => []
  | w, byte :: text =>
    (w.wrapLine.xPos, w.wrapLine.yPos) :: drawnCells font (w.printChar font byte) text

/-- A text that is printed on the screen, outside of sequences, without clearing it. -/
structure Prints (font : Font) (w : Writer) (text : List Byte) : Prop where
  width : 24 ≤ w.fb.width
  height : 24 ≤ w.fb.height
  columns : 8 ∣ w.fb.width
  onScreen : w.OnScreen
  normal : w.ansiState = .normal
  printable : ∀ byte ∈ text, IsPrintable byte
  inside : ¬ w.ReachesBottom font text

theorem Prints.writeStr_cons (h : w.Prints font (byte :: text)) :
    w.writeStr font (byte :: text) = (w.printChar font byte).writeStr font text := by
  unfold writeStr
  rw [foldl_cons, writeByte_printable h.normal (h.printable byte mem_cons_self)]

theorem Prints.tail (h : w.Prints font (byte :: text)) :
    (w.printChar font byte).Prints font text where
  width := h.width.trans_eq (congrArg FrameBuffer.width (sameMode_printChar font w byte).fb.symm)
  height := h.height.trans_eq (congrArg FrameBuffer.height (sameMode_printChar font w byte).fb.symm)
  columns := by
    rw [(sameMode_printChar font w byte).fb]
    exact h.columns
  onScreen := (h.onScreen.act_iff font h.width h.height (.printChar byte)).mpr trivial
  normal := (sameMode_printChar font w byte).ansiState.trans h.normal
  printable := fun b hb => h.printable b (mem_cons_of_mem _ hb)
  inside := fun hbottom => h.inside (.inr hbottom)

section

variable (h : w.Prints font text)
include h

theorem Prints.sameMode : SameMode w (w.writeStr font text) := by
  induction text generalizing w with
  | nil => exact ⟨rfl, rfl, rfl⟩
  | cons byte text ih =>
    have hfirst := sameMode_printChar font w byte
    have hrest := ih h.tail
    rw [h.writeStr_cons]
    exact ⟨hrest.fb.trans hfirst.fb, hrest.bgColor.trans hfirst.bgColor,
      hrest.ansiState.trans hfirst.ansiState⟩

theorem Prints.onScreen_writeStr : (w.writeStr font text).OnScreen := by
  induction text generalizing w with
  | nil => exact h.onScreen
  | cons byte text ih =>
    rw [h.writeStr_cons]
    exact ih h.tail

/-- The cursor moves by one cell for each character, and by one more if a line was started. -/
theorem Prints.cellNumber_le :
    w.cellNumber + text.length + (if w.xPos + 8 * text.length < w.fb.width then 0 else 1)
      ≤ (w.writeStr font text).cellNumber := by
  induction text generalizing w with
  | nil =>
    have hleft := h.onScreen.left
    rw [length_nil, if_pos (by omega)]
    exact le_refl _
  | cons byte text ih =>
    have hbottom : ¬ w.AtBottom := fun hbottom => h.inside (.inl hbottom)
    have hstep := cellNumber_printChar font byte h.columns h.onScreen hbottom
    have hrest := ih h.tail
    have hx : (w.printChar font byte).xPos = w.wrapLine.xPos + 8 := rfl
    rw [hstep, hx, xPos_wrapLine, (sameMode_printChar font w byte).fb] at hrest
    rw [h.writeStr_cons, length_cons]
    split_ifs at hrest ⊢ <;> omega

theorem Prints.position (hroom : w.xPos + 8 * text.length < w.fb.width) :
    (w.writeStr font text).xPos = w.xPos + 8 * text.length ∧
      (w.writeStr font text).yPos = w.yPos ∧
      ∀ cell ∈ w.drawnCells font text, ∃ k < text.length, cell = (w.xPos + 8 * k, w.yPos) := by
  induction text generalizing w with
  | nil => exact ⟨rfl, rfl, fun _ hcell => by cases hcell⟩
  | cons byte text ih =>
    rw [length_cons] at hroom
    have hwrap : w.wrapLine = w := if_neg (by omega)
    have hx : (w.printChar font byte).xPos = w.xPos + 8 := by
      change w.wrapLine.xPos + 8 = w.xPos + 8
      rw [hwrap]
    have hy : (w.printChar font byte).yPos = w.yPos := by
      change w.wrapLine.yPos = w.yPos
      rw [hwrap]
    obtain ⟨hx', hy', hcells⟩ := ih h.tail (by rw [hx, (sameMode_printChar font w byte).fb]; omega)
    rw [h.writeStr_cons, length_cons]
    refine ⟨by omega, by omega, ?_⟩
    intro cell hcell
    rcases mem_cons.mp hcell with rfl | hcell
    · exact ⟨0, succ_pos _, by rw [hwrap]; rfl⟩
    · obtain ⟨k, hk, rfl⟩ := hcells cell hcell
      refine ⟨k + 1, succ_lt_succ hk, ?_⟩
      rw [hx, hy, mul_succ, add_assoc, add_comm 8]

end

/-! ### Backspaces -/

theorem writeStr_backspaces (hnormal : w.ansiState = .normal) (n : ℕ) :
    w.writeStr font (List.replicate n 0x08) = backspace^[n] w := by
  induction n generalizing w with
  | zero => rfl
  | succ n ih =>
    have hfirst : w.writeStr font (List.replicate (n + 1) 0x08) =
        w.backspace.writeStr font (List.replicate n 0x08) := by
      rw [replicate_succ, writeStr, foldl_cons, writeByte_backspace hnormal]
      rfl
    rw [hfirst, ih ((sameMode_backspace w).ansiState.trans hnormal), Function.iterate_succ_apply]

theorem sameMode_backspaces (w : Writer) (n : ℕ) : SameMode w (backspace^[n] w) := by
  induction n with
  | zero => exact ⟨rfl, rfl, rfl⟩
  | succ n ih =>
    have hlast := sameMode_backspace (backspace^[n] w)
    rw [Function.iterate_succ_apply']
    exact ⟨hlast.fb.trans ih.fb, hlast.bgColor.trans ih.bgColor, hlast.ansiState.trans ih.ansiState⟩

theorem OnScreen.backspaces (h : w.OnScreen) (n : ℕ) : (Writer.backspace^[n] w).OnScreen := by
  induction n with
  | zero => exact h
  | succ n ih =>
    rw [Function.iterate_succ_apply']
    exact ih.backspace

theorem cellNumber_backspaces (hcolumns : 8 ∣ w.fb.width) (h : w.OnScreen) (n : ℕ) :
    (backspace^[n] w).cellNumber = w.cellNumber - n := by
  induction n with
  | zero => rfl
  | succ n ih =>
    have hmode := sameMode_backspaces w n
    rw [Function.iterate_succ_apply', cellNumber_backspace (by rw [hmode.fb]; exact hcolumns)
      (h.backspaces n), ih]
    omega

theorem backspaces_in_line {n x : ℕ} (hx : w.xPos = x + 8 * n) :
    (backspace^[n] w).xPos = x ∧ (backspace^[n] w).yPos = w.yPos ∧
      ∀ k < n, ∀ p ∈ FrameBuffer.rect (x + 8 * k) w.yPos 8 8, w.fb.Visible p →
        w.fb.pixel (backspace^[n] w).memory p = w.bgColor := by
  induction n generalizing x with
  | zero => exact ⟨hx, rfl, fun k hk => by cases hk⟩
  | succ n ih =>
    obtain ⟨hx', hy', herased⟩ := ih (x := x + 8) (by omega)
    have hmode := sameMode_backspaces w n
    have hxlast : (backspace^[n] w).backspace.xPos = x := by
      rw [xPos_backspace, if_pos (by omega)]
      omega
    have hylast : (backspace^[n] w).backspace.yPos = w.yPos := by
      rw [yPos_backspace, if_pos (by omega), hy']
    rw [Function.iterate_succ_apply']
    refine ⟨hxlast, hylast, ?_⟩
    intro k hk p hp hvisible
    rw [memory_backspace, hxlast, hylast, hmode.fb, hmode.bgColor]
    have hdraws := FrameBuffer.draws_fillRect w.fb x w.yPos 8 8 w.bgColor
    by_cases hcell : p ∈ FrameBuffer.rect x w.yPos 8 8
    · exact hdraws.pixel_of_mem hvisible hcell
    · -- the pixel was erased by an earlier backspace
      rw [hdraws.pixel_of_notMem hvisible hcell]
      cases k with
      | zero => exact absurd hp hcell
      | succ k =>
        refine herased k (by omega) p ?_ hvisible
        rwa [add_assoc, add_comm 8, ← mul_succ]

/-- **Backspaces undo printing**: after a text and as many backspaces the cursor is where it was and
the cells of the text are filled with the background, iff the text ends in its first line before the
last column. -/
theorem backspaces_undo_printing_iff (font : Font) (w : Writer) (text : List Byte)
    (hwidth : 24 ≤ w.fb.width) (hheight : 24 ≤ w.fb.height) (hcolumns : 8 ∣ w.fb.width)
    (hscreen : w.OnScreen) (hnormal : w.ansiState = .normal)
    (hprintable : ∀ byte ∈ text, IsPrintable byte) (hinside : ¬ w.ReachesBottom font text) :
    ((w.writeStr font (text ++ List.replicate text.length 0x08)).xPos = w.xPos ∧
      (w.writeStr font (text ++ List.replicate text.length 0x08)).yPos = w.yPos ∧
      ∀ cell ∈ w.drawnCells font text, ∀ p ∈ FrameBuffer.rect cell.1 cell.2 8 8,
        w.fb.pixel (w.writeStr font (text ++ List.replicate text.length 0x08)).memory p =
          w.bgColor) ↔
    w.xPos + 8 * text.length < w.fb.width := by
  have h : w.Prints font text :=
    ⟨hwidth, hheight, hcolumns, hscreen, hnormal, hprintable, hinside⟩
  have hmode := h.sameMode
  rw [writeStr_append, writeStr_backspaces (hmode.ansiState.trans hnormal)]
  constructor
  · rintro ⟨hx, hy, -⟩
    -- the cell is the one from before, and the backspaces account for the characters only
    have hsame : (backspace^[text.length] (w.writeStr font text)).cellNumber = w.cellNumber := by
      unfold cellNumber
      rw [hx, hy, (sameMode_backspaces _ _).fb, hmode.fb]
    rw [cellNumber_backspaces (by rw [hmode.fb]; exact hcolumns) h.onScreen_writeStr] at hsame
    have hle := h.cellNumber_le
    by_contra hfull
    rw [if_neg hfull] at hle
    omega
  · intro hroom
    obtain ⟨hx, hy, hcells⟩ := h.position hroom
    obtain ⟨hx', hy', herased⟩ := backspaces_in_line hx
    refine ⟨hx', hy'.trans hy, ?_⟩
    intro cell hcell p hp
    obtain ⟨k, hk, rfl⟩ := hcells cell hcell
    have hvisible : w.fb.Visible p := by
      obtain ⟨px, py⟩ := p
      have hp := FrameBuffer.mem_rect.mp hp
      have habove := hscreen.above
      exact ⟨by dsimp only at hp ⊢; omega, by dsimp only at hp ⊢; omega⟩
    rw [hmode.fb, hmode.bgColor, hy] at herased
    exact herased k hk p hp hvisible

/-- Two characters on an empty screen of three columns. -/
theorem backspaces_undo_two_characters :
    ¬ (new smallScreen fun _ => 0).ReachesBottom (fun _ => none) [0x41, 0x42] ∧
    ((new smallScreen fun _ => 0).writeStr (fun _ => none)
      ([0x41, 0x42] ++ List.replicate 2 0x08)).xPos = (new smallScreen fun _ => 0).xPos ∧
    ((new smallScreen fun _ => 0).writeStr (fun _ => none)
      ([0x41, 0x42] ++ List.replicate 2 0x08)).yPos = (new smallScreen fun _ => 0).yPos ∧
    ∀ cell ∈ (new smallScreen fun _ => 0).drawnCells (fun _ => none) [0x41, 0x42],
      ∀ p ∈ FrameBuffer.rect cell.1 cell.2 8 8, smallScreen.pixel
        ((new smallScreen fun _ => 0).writeStr (fun _ => none)
          ([0x41, 0x42] ++ List.replicate 2 0x08)).memory p = BG_DEFAULT := by
  have hinside : ¬ (new smallScreen fun _ => 0).ReachesBottom (fun _ => none) [0x41, 0x42] := by
    rintro (h | h | h)
    · exact absurd h.1 (by decide +kernel)
    · exact absurd h.1 (by decide +kernel)
    · exact h
  refine ⟨hinside, ?_⟩
  exact (backspaces_undo_printing_iff (fun _ => none) (new smallScreen fun _ => 0) [0x41, 0x42]
    (by decide) (by decide) (by decide) (onScreen_new (by decide) _) rfl
    (by unfold IsPrintable; decide) hinside).mpr (by decide)

/-- After three characters, which do not reach the bottom, and three backspaces the cursor is one
cell off. -/
theorem backspaces_leave_a_character :
    ¬ (new smallScreen fun _ => 0).ReachesBottom (fun _ => none) [0x41, 0x42, 0x43] ∧
    (new smallScreen fun _ => 0).xPos = 0 ∧
    ((new smallScreen fun _ => 0).writeStr (fun _ => none)
      ([0x41, 0x42, 0x43] ++ List.replicate 3 0x08)).xPos = 8 := by
  refine ⟨?_, by decide +kernel⟩
  rintro (h | h | h | h)
  · exact absurd h.1 (by decide +kernel)
  · exact absurd h.1 (by decide +kernel)
  · exact absurd h.2 (by decide +kernel)
  · exact h

end NwinOs.Drivers.Writer
