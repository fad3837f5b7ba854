import NwinOs.Core.Equiv.Mmap
import NwinOs.Core.Equiv.SyscallExec
import NwinOs.Core.Equiv.SyscallWrite

/-!
# The first stack of a program

`sys_execve` puts the argument strings at the end of a page, and below them the words that the
program finds when it starts.  `runs` are the maximal runs of non-NUL bytes in the buffer of the
strings, and the one-pass tokenizer finds their first bytes (`argvPointers_eq`).

`argumentStores` lists the stores to the stack.  On a mapped page that they stay in, the kernel's
copy through the page tables is these stores on flat memory (`StackPage.storeAll`), and the program
reads them and its image there (`exec_sets_up_program`).
`execve_image_fits_iff` says for which buffers they stay in the page and every string has its NUL,
`execve_vector_iff` what the program finds at the top of the stack, and when the top is aligned.
-/

namespace NwinOs.Core

open Paging Mm Tasking Fs Bytes List

/-! ### Runs of bytes that are not NUL -/

section

variable {buf : List Byte} {i j k : ℕ}

/-- The bytes from `i` to `j` are a maximal run without a NUL. -/
structure IsRun (buf : List Byte) (i j : ℕ) : Prop where
  lt : i < j
  le : j ≤ buf.length
  nonzero : ∀ k, i ≤ k → k < j → buf[k]? ≠ some 0
  before : i = 0 ∨ buf[i - 1]? = some 0
  after : j = buf.length ∨ buf[j]? = some 0

/-- A run starts at the place; `isNewArg` says whether one may start at the first. -/
def startsRun (isNewArg : Bool) (buf : List Byte) (i : ℕ) : Bool :=
  buf[i]? ≠ some 0 ∧ if i = 0 then isNewArg = true else buf[i - 1]? = some 0

variable (buf)

/-- Where the runs without a NUL start. -/
def runStarts : List ℕ := (List.range buf.length).filter (startsRun true buf)

/-- The length of the run without a NUL from a place on. -/
def runEnd (i : ℕ) : ℕ := i + ((buf.drop i).takeWhile (· != 0)).length

/-- The maximal runs, in order. -/
def runs : List (ℕ × ℕ) := (runStarts buf).map fun i => (i, runEnd buf i)

variable {buf}

/-- The tokenizer meets a first byte of a run where its flag says so, or behind a NUL. -/
theorem argvPointers_eq_filter : ∀ {buf : List Byte} {currentPtr : ℕ} {isNewArg : Bool},
    argvPointers currentPtr isNewArg buf =
      ((range buf.length).filter (startsRun isNewArg buf)).map (currentPtr + ·) := by
  intro buf
  induction buf with
  | nil => exact fun {_ _} => rfl
  | cons b rest ih =>
    intro currentPtr isNewArg
    -- behind the first byte, a run may start where this byte is NUL
    have hlater : ∀ i, startsRun isNewArg (b :: rest) (i + 1) = startsRun (b = 0) rest i := by
      intro i
      cases i with
      | zero => simp [startsRun]
      | succ i => simp [startsRun]
    have hshift : ((fun i => currentPtr + i) ∘ Nat.succ) = fun i => currentPtr + 1 + i := by
      ext i
      simp only [Function.comp_apply]
      omega
    have hrest : ((range rest.length).map Nat.succ).filter (startsRun isNewArg (b :: rest))
        = ((range rest.length).filter (startsRun (b = 0) rest)).map Nat.succ := by
      rw [filter_map]
      congr 1
      exact filter_congr fun i _ => hlater i
    rw [length_cons, range_succ_eq_map, filter_cons, hrest, argvPointers]
    by_cases hb : b = 0
    · rw [if_pos hb, ih, if_neg (by simp [startsRun, hb]), map_map, hshift, decide_eq_true hb]
    · rw [if_neg hb, decide_eq_false hb]
      cases isNewArg with
      | true =>
        rw [if_pos rfl, ih, if_pos (by simpa [startsRun] using hb), map_cons, map_map, hshift]
        rfl
      | false =>
        rw [if_neg Bool.false_ne_true, ih, if_neg (by simp [startsRun]), map_map, hshift]

/-- **The tokenizer finds the first bytes of the runs.** -/
theorem argvPointers_eq (base : ℕ) (buf : List Byte) :
    argvPointers base true buf = (runs buf).map fun run => base + run.1 := by
  rw [argvPointers_eq_filter, runs, runStarts, map_map]
  rfl

theorem IsRun.end_unique {j' : ℕ} (h : IsRun buf i j) (h' : IsRun buf i j') : j = j' := by
  -- a run that ends first would meet a NUL inside the other one
  have hle : ∀ {a b : ℕ}, IsRun buf i a → IsRun buf i b → b ≤ a := by
    intro a b ha hb
    by_contra hlt
    rcases ha.after with hend | hnul
    · have := hb.le
      omega
    · exact hb.nonzero a (Nat.le_of_lt ha.lt) (by omega) hnul
  exact Nat.le_antisymm (hle h' h) (hle h h')

theorem isRun_runEnd (hi : i < buf.length) (hstart : startsRun true buf i = true) :
    IsRun buf i (runEnd buf i) := by
  obtain ⟨hfirst, hbefore⟩ := of_decide_eq_true hstart
  have hget : ∀ k, (buf.drop i)[k]? = buf[i + k]? := fun k => getElem?_drop
  -- the run, and what follows it
  have hsplit := takeWhile_append_dropWhile (p := (· != 0)) (l := buf.drop i)
  set run := (buf.drop i).takeWhile (· != 0) with hrun
  set rest := (buf.drop i).dropWhile (· != 0) with hrest
  have hend : runEnd buf i = i + run.length := rfl
  have hlength : run.length + rest.length = buf.length - i := by
    rw [← length_append, hsplit, length_drop]
  have hnonzero : ∀ b ∈ run, b ≠ 0 := by
    intro b hb
    simpa using mem_takeWhile_imp hb
  have hhead : ∀ b tail, rest = b :: tail → b = 0 := by
    intro b tail heq
    have hstop := head?_dropWhile_not (· != 0) (buf.drop i)
    rw [← hrest, heq] at hstop
    simpa using hstop
  rw [hend]
  refine ⟨?_, by omega, fun k hk hlt => ?_, ?_, ?_⟩
  · -- the first byte is in the run
    rcases hempty : run with _ | ⟨b, tail⟩
    · rw [hempty, nil_append] at hsplit
      have hb := hget 0
      rw [← hsplit, Nat.add_zero] at hb
      rcases htail : rest with _ | ⟨b, tail⟩
      · rw [hempty, htail] at hlength
        omega
      · rw [htail, hhead b tail htail] at hb
        exact absurd hb.symm hfirst
    · simp
  · obtain ⟨o, rfl⟩ := Nat.exists_eq_add_of_le hk
    have ho : o < run.length := by omega
    rw [← hget o, ← hsplit, getElem?_append_left ho, getElem?_eq_getElem ho]
    exact fun heq => hnonzero _ (getElem_mem ho) (Option.some.inj heq)
  · split_ifs at hbefore with hzero
    · exact .inl hzero
    · exact .inr hbefore
  · rcases htail : rest with _ | ⟨b, tail⟩
    · rw [htail, length_nil] at hlength
      omega
    · refine .inr ?_
      rw [← hget, ← hsplit, getElem?_append_right (Nat.le_refl _), Nat.sub_self, htail,
        hhead b tail htail]
      rfl

theorem IsRun.startsRun (h : IsRun buf i j) : startsRun true buf i = true := by
  refine decide_eq_true ⟨h.nonzero i (Nat.le_refl i) h.lt, ?_⟩
  split_ifs with hzero
  · rfl
  · exact h.before.resolve_left hzero

/-- **`runs` lists the maximal runs.** -/
theorem mem_runs_iff : (i, j) ∈ runs buf ↔ IsRun buf i j := by
  simp only [runs, runStarts, mem_map, mem_filter, mem_range, Prod.mk.injEq]
  constructor
  · rintro ⟨_, ⟨hi, hstart⟩, rfl, rfl⟩
    exact isRun_runEnd hi hstart
  · intro h
    have hi : i < buf.length := lt_of_lt_of_le h.lt h.le
    exact ⟨i, ⟨hi, h.startsRun⟩, rfl, (isRun_runEnd hi h.startsRun).end_unique h⟩

theorem runs_ascending (buf : List Byte) : (runs buf).Pairwise fun r r' => r.1 < r'.1 := by
  refine pairwise_map.mpr ?_
  exact List.Pairwise.filter _ pairwise_lt_range

end

/-! ### The stores -/

section

variable (buf : List Byte)

/-- The address of the strings. -/
def stringsBase : ℕ := userStackBase + 0x1000 - buf.length

/-- The words that are pushed, the first one first. -/
def stackWords : List ℕ :=
  let pointers := argvPointers (stringsBase buf) true buf
  [0, 0] ++ pointers.reverse ++ [pointers.length]

/-- The stores of words that are pushed. -/
def wordStores : ℕ → List ℕ → List (ℕ × List Byte)
  | _, [] => []
  | userStackTop, w :: words =>
    (userStackTop - 8, Bytes.leBytes 8 w) :: wordStores (userStackTop - 8) words

/-- The stores of `sys_execve` to the stack of the new program. -/
def argumentStores : List (ℕ × List Byte) :=
  (stringsBase buf, buf) :: wordStores (stringsBase buf / 16 * 16) (stackWords buf)

/-- The stack pointer that the program starts with. -/
def stackTop : ℕ := stringsBase buf / 16 * 16 - 8 * (stackWords buf).length

end

/-- Stores through the page tables; `none` is the page fault. -/
def storeAll (pml4 : ℕ) : MemoryState → List (ℕ × List Byte) → Option MemoryState
  | st, [] => some st
  | st, (va, bytes) :: stores => (storeBytes pml4 st va bytes).bind fun st =>
      storeAll pml4 st stores

/-- The stores on flat memory. -/
def applyStores (b : Bytes) (stores : List (ℕ × List Byte)) : Bytes :=
  stores.foldl (fun b store => b.splice store.1 store.2) b

section

variable {pml4 : ℕ} {st : MemoryState} {buf : List Byte} {words : List ℕ} {top : ℕ}

theorem pushWords_eq : ∀ {words : List ℕ} {st : MemoryState} {top : ℕ},
    pushWords pml4 st top words =
      (storeAll pml4 st (wordStores top words)).map fun st => (st, top - 8 * words.length) := by
  intro words
  induction words with
  | nil => exact fun {_ _} => rfl
  | cons w words ih =>
    intro st top
    rw [pushWords, wordStores, storeAll]
    have htop : top - 8 - 8 * words.length = top - 8 * (w :: words).length := by
      rw [length_cons]
      omega
    cases storeBytes pml4 st (top - 8) (Bytes.leBytes 8 w) with
    | none => rfl
    | some st' =>
      rw [Option.bind_some, Option.bind_some, ih, htop]

/-- **The copy of the arguments is a list of stores.** -/
theorem storeArguments_eq (pml4 : ℕ) (st : MemoryState) (buf : List Byte) :
    storeArguments pml4 st buf =
      (storeAll pml4 st (argumentStores buf)).map fun st => (st, stackTop buf) := by
  unfold storeArguments argumentStores
  rw [storeAll]
  change (storeBytes pml4 st (stringsBase buf) buf).bind _ = _
  cases storeBytes pml4 st (stringsBase buf) buf with
  | none => rfl
  | some st' => exact pushWords_eq

theorem length_stackWords (buf : List Byte) : (stackWords buf).length = (runs buf).length + 3 := by
  simp [stackWords, argvPointers_eq]

theorem mem_wordStores : ∀ {words : List ℕ} {top : ℕ} {store : ℕ × List Byte},
    8 * words.length ≤ top → store ∈ wordStores top words →
      store.2.length = 8 ∧ ∃ i < words.length, store.1 + 8 * (i + 1) = top := by
  intro words
  induction words with
  | nil =>
    intro top store _ hmem
    simp [wordStores] at hmem
  | cons w words ih =>
    intro top store hroom hmem
    rw [length_cons] at hroom
    rcases mem_cons.mp hmem with rfl | hmem
    · exact ⟨length_leBytes 8 w, 0, by simp, by omega⟩
    · obtain ⟨hlen, i, hi, hplace⟩ := ih (by omega) hmem
      exact ⟨hlen, i + 1, by simpa using hi, by omega⟩

theorem exists_lowest_wordStore : ∀ {words : List ℕ} {top : ℕ}, words ≠ [] →
    8 * words.length ≤ top →
      ∃ store ∈ wordStores top words, store.1 = top - 8 * words.length := by
  intro words
  induction words with
  | nil => exact fun hne => absurd rfl hne
  | cons w words ih =>
    intro top _ hroom
    rw [length_cons] at hroom ⊢
    rcases words with _ | ⟨w', words⟩
    · exact ⟨_, mem_cons_self, rfl⟩
    · obtain ⟨store, hmem, hplace⟩ := @ih (top - 8) (by simp) (by omega)
      exact ⟨store, mem_cons_of_mem _ hmem, by omega⟩

theorem applyStores_of_outside : ∀ {stores : List (ℕ × List Byte)} {b : Bytes} {a : ℕ},
    (∀ store ∈ stores, a < store.1 ∨ store.1 + store.2.length ≤ a) →
      applyStores b stores a = b a := by
  intro stores
  induction stores with
  | nil => exact fun {_ _} _ => rfl
  | cons store stores ih =>
    intro b a houtside
    have hrest := @ih (b.splice store.1 store.2) a
      fun s hs => houtside s (mem_cons_of_mem _ hs)
    exact hrest.trans (splice_of_outside (houtside store mem_cons_self))

theorem slice_wordStores : ∀ {words : List ℕ} {top : ℕ} {b : Bytes}, 8 * words.length ≤ top →
    (applyStores b (wordStores top words)).slice (top - 8 * words.length) (8 * words.length)
      = words.reverse.flatMap (Bytes.leBytes 8) := by
  intro words
  induction words with
  | nil => exact fun {_ _} _ => rfl
  | cons w words ih =>
    intro top b hroom
    rw [length_cons] at hroom ⊢
    -- the first word ends up above the others, which leave it alone
    have hlow : top - 8 * (words.length + 1) = top - 8 - 8 * words.length := by omega
    have hhigh : top - 8 - 8 * words.length + 8 * words.length = top - 8 := by omega
    have hrest := @ih (top - 8) (b.splice (top - 8) (Bytes.leBytes 8 w)) (by omega)
    have hfirst : (applyStores (b.splice (top - 8) (Bytes.leBytes 8 w))
        (wordStores (top - 8) words)).slice (top - 8) 8 = Bytes.leBytes 8 w := by
      have hback := slice_splice b (top - 8) (Bytes.leBytes 8 w)
      refine Eq.trans (slice_congr ?_) hback
      intro a hle _
      rw [Nat.add_sub_cancel]
      apply applyStores_of_outside
      intro store hmem
      obtain ⟨hlen, i, -, hplace⟩ := mem_wordStores (by omega) hmem
      omega
    rw [hlow, Nat.mul_succ, slice_add, hhigh, reverse_cons, flatMap_append]
    show (applyStores (b.splice (top - 8) (Bytes.leBytes 8 w))
        (wordStores (top - 8) words)).slice _ _
      ++ (applyStores (b.splice (top - 8) (Bytes.leBytes 8 w))
        (wordStores (top - 8) words)).slice _ _
      = _
    rw [hrest, hfirst]
    simp

end

/-! ### The mapped page -/

/-- The store stays in the page of the stack. -/
def InStackPage (store : ℕ × List Byte) : Prop :=
  userStackBase ≤ store.1 ∧ store.1 + store.2.length ≤ userStackBase + 0x1000

/-- The page of the stack is mapped to a frame that its own translation does not read. -/
structure StackPage (mem : Memory) (pml4 frame : ℕ) : Prop where
  maps : ∀ va, userStackBase ≤ va → va < userStackBase + 0x1000 →
    ∃ user, Paging.translate mem pml4 va = some ⟨frame, ⟨user, true⟩⟩
  apart : ∀ va, userStackBase ≤ va → va < userStackBase + 0x1000 → frame ∉ tables mem va 4 pml4

namespace StackPage

variable {pml4 frame : ℕ} {st : MemoryState}

/-- A store to the frame keeps the mapping. -/
theorem store (h : StackPage st.mem pml4 frame) (offset : ℕ) (src : List Byte) :
    StackPage (st.mem.store frame offset src) pml4 frame := by
  have hsame : ∀ va, userStackBase ≤ va → va < userStackBase + 0x1000 →
      ∀ t ∈ tables st.mem va 4 pml4, st.mem.store frame offset src t = st.mem t := by
    intro va hle hlt t ht
    exact Memory.store_of_ne fun heq => h.apart va hle hlt (heq ▸ ht)
  constructor
  · intro va hle hlt
    obtain ⟨user, hmaps⟩ := h.maps va hle hlt
    exact ⟨user, ((walk_congr (hsame va hle hlt)).1 _).trans hmaps⟩
  · intro va hle hlt
    rw [(walk_congr (hsame va hle hlt)).2]
    exact h.apart va hle hlt

theorem storeBytes : ∀ {src : List Byte} {st : MemoryState} {va : ℕ},
    StackPage st.mem pml4 frame → InStackPage (va, src) →
      ∃ st', storeBytes pml4 st va src = some st' ∧ StackPage st'.mem pml4 frame ∧
        (∀ g, g ≠ frame → st'.mem g = st.mem g) ∧
        ∀ o, o < FRAME_SIZE → st'.mem.bytes frame o =
          (st.mem.bytes frame).splice (va - userStackBase) src o := by
  intro src
  induction src with
  | nil =>
    intro st va h _
    exact ⟨st, rfl, h, fun _ _ => rfl, fun o _ => by rw [splice_nil]⟩
  | cons byte src ih =>
    intro st va h hin
    have hle : userStackBase ≤ va := hin.1
    have hend : va + (src.length + 1) ≤ userStackBase + 0x1000 := hin.2
    obtain ⟨user, hmaps⟩ := h.maps va hle (by omega)
    have hoffset : va % FRAME_SIZE = va - userStackBase := by
      simp only [userStackBase, FRAME_SIZE] at hle hend ⊢
      omega
    obtain ⟨st', hrun, hpage, hother, hbytes⟩ :=
      @ih { st with mem := st.mem.store frame (va % FRAME_SIZE) [byte] } (va + 1) (h.store _ _)
        ⟨Nat.le_succ_of_le hle, by show va + 1 + src.length ≤ _; omega⟩
    refine ⟨st', ?_, hpage, fun g hg => (hother g hg).trans (Memory.store_of_ne hg), ?_⟩
    · rw [Core.storeBytes, hmaps]
      exact hrun
    · intro o ho
      have happend : (st.mem.bytes frame).splice (va - userStackBase) ([byte] ++ src) =
          ((st.mem.bytes frame).splice (va - userStackBase) [byte]).splice
            (va - userStackBase + 1) src := splice_append
      rw [hbytes o ho, Memory.bytes_store, hoffset, Nat.sub_add_comm hle]
      exact congrFun happend.symm o

/-- **The copy on a mapped page**: it reaches its end, leaves the flat image in the frame, and
changes no other frame. -/
theorem storeAll : ∀ {stores : List (ℕ × List Byte)} {st : MemoryState},
    StackPage st.mem pml4 frame → (∀ store ∈ stores, InStackPage store) →
      ∃ st', storeAll pml4 st stores = some st' ∧ StackPage st'.mem pml4 frame ∧
        (∀ g, g ≠ frame → st'.mem g = st.mem g) ∧
        ∀ b : Bytes, (∀ o, o < FRAME_SIZE → b (userStackBase + o) = st.mem.bytes frame o) →
          ∀ o, o < FRAME_SIZE → applyStores b stores (userStackBase + o)
            = st'.mem.bytes frame o := by
  intro stores
  induction stores with
  | nil => exact fun h _ => ⟨_, rfl, h, fun _ _ => rfl, fun _ hb => hb⟩
  | cons store stores ih =>
    intro st h hin
    have hfirst := hin store mem_cons_self
    obtain ⟨st₁, hrun, hpage, hother, hbytes⟩ := h.storeBytes hfirst
    obtain ⟨st', hrest, hpage', hother', himage⟩ :=
      ih hpage fun s hs => hin s (mem_cons_of_mem _ hs)
    refine ⟨st', ?_, hpage', fun g hg => (hother' g hg).trans (hother g hg), ?_⟩
    · rw [Core.storeAll, hrun]
      exact hrest
    · intro b hb
      refine himage (b.splice store.1 store.2) fun o ho => ?_
      have hplace : userStackBase + (store.1 - userStackBase) = store.1 :=
        Nat.add_sub_cancel' hfirst.1
      rw [hbytes o ho, splice_shift (hb o ho).symm, hplace]

theorem readByte (h : StackPage st.mem pml4 frame) {va : ℕ} (hle : userStackBase ≤ va)
    (hlt : va < userStackBase + 0x1000) :
    Tasking.readByte st.mem pml4 va = some (st.mem.bytes frame (va - userStackBase)) := by
  obtain ⟨user, hmaps⟩ := h.maps va hle hlt
  have hoffset : va % FRAME_SIZE = va - userStackBase := by
    simp only [userStackBase, FRAME_SIZE] at hle hlt ⊢
    omega
  rw [Tasking.readByte, hmaps, Option.map_some, hoffset]

end StackPage

/-! ### The buffers of the call -/

/-- The argument buffer of a call. -/
def UserMemory.execArgs (user : UserMemory) (filenamePtr argsPtr argsLen : ℕ) : List Byte :=
  user.argsBuf (user.execFilename filenamePtr) argsPtr argsLen

theorem length_execArgs (user : UserMemory) (filenamePtr argsPtr argsLen : ℕ) :
    1 ≤ (user.execArgs filenamePtr argsPtr argsLen).length ∧
      (user.execArgs filenamePtr argsPtr argsLen).length ≤ 4095 := by
  unfold UserMemory.execArgs UserMemory.argsBuf
  by_cases hargs : 0 < argsLen ∧ argsLen < 4096
  · rw [if_pos hargs, length_slice]
    omega
  · have hname : (nameBytes (user.execFilename filenamePtr)).length ≤ 64 := by
      have htake := (takeWhile_sublist (· != 0) (l := user.bytes.slice filenamePtr 64)).length_le
      unfold UserMemory.execFilename
      cases htext : fromUtf8 ((user.bytes.slice filenamePtr 64).takeWhile (· != 0)) with
      | none => simp [nameBytes]
      | some text =>
        rw [Option.getD_some, nameBytes_of_fromUtf8 htext]
        exact htake
    rw [if_neg hargs, length_append, length_singleton]
    omega

section

variable {buf : List Byte} {b : Bytes}

theorem length_runs_le (buf : List Byte) : (runs buf).length ≤ buf.length := by
  have hfilter := length_filter_le (startsRun true buf) (range buf.length)
  simpa [runs, runStarts] using hfilter

section

variable (h : buf.length ≤ 4095)
include h

theorem stringsBase_add : stringsBase buf + buf.length = userStackBase + 0x1000 := by
  simp only [stringsBase, userStackBase]
  omega

theorem stackWords_room : 8 * (stackWords buf).length ≤ stringsBase buf / 16 * 16 := by
  have hruns := length_runs_le buf
  rw [length_stackWords]
  simp only [stringsBase, userStackBase]
  omega

theorem applyStores_strings {i : ℕ} (hi : i < buf.length) :
    applyStores b (argumentStores buf) (stringsBase buf + i) = buf[i] := by
  show applyStores (b.splice (stringsBase buf) buf)
    (wordStores (stringsBase buf / 16 * 16) (stackWords buf)) _ = _
  refine Eq.trans (applyStores_of_outside ?_) (splice_of_inside hi)
  intro store hmem
  obtain ⟨hlen, k, -, hplace⟩ := mem_wordStores (stackWords_room h) hmem
  omega

theorem argumentStores_in_page_iff : (∀ store ∈ argumentStores buf, InStackPage store) ↔
      8 * ((runs buf).length + 3) ≤ (4096 - buf.length) / 16 * 16 := by
  have hroom := stackWords_room h
  have hbase := stringsBase_add h
  have hmask : stringsBase buf / 16 * 16 = userStackBase + (4096 - buf.length) / 16 * 16 := by
    simp only [userStackBase] at hbase ⊢
    omega
  constructor
  · intro hin
    have hne : stackWords buf ≠ [] := by simp [stackWords]
    obtain ⟨store, hmem, hplace⟩ := exists_lowest_wordStore hne hroom
    have hlow := (hin store (mem_cons_of_mem _ hmem)).1
    rw [length_stackWords] at hplace hroom
    omega
  · intro hfits store hmem
    rcases mem_cons.mp hmem with rfl | hmem
    · refine ⟨?_, hbase.le⟩
      omega
    · obtain ⟨hlen, k, hk, hplace⟩ := mem_wordStores hroom hmem
      rw [length_stackWords] at hk
      unfold InStackPage
      omega

end

theorem exists_last_run (hne : buf ≠ []) (hlast : buf.getLast? ≠ some 0) :
    ∃ i, IsRun buf i buf.length := by
  have hpos := length_pos_iff.mpr hne
  rw [getLast?_eq_getElem?] at hlast
  -- the first place from which on there is no NUL
  have hexists : ∃ i, ∀ k, i ≤ k → k < buf.length → buf[k]? ≠ some 0 :=
    ⟨buf.length, fun k hle hlt => absurd hlt (by omega)⟩
  have hfirst := Nat.find_spec hexists
  have hmin : Nat.find hexists ≤ buf.length - 1 := by
    apply Nat.find_min'
    intro k hle hlt
    rwa [show k = buf.length - 1 by omega]
  refine ⟨Nat.find hexists, by omega, le_rfl, hfirst, ?_, .inl rfl⟩
  rcases Nat.eq_zero_or_pos (Nat.find hexists) with hzero | hstart
  · exact .inl hzero
  · right
    by_contra hbefore
    refine Nat.find_min hexists (Nat.sub_lt hstart Nat.one_pos) fun k hle hlt => ?_
    rcases Nat.lt_or_ge k (Nat.find hexists) with hk | hk
    · rwa [show k = Nat.find hexists - 1 by omega]
    · exact hfirst k hk hlt

theorem strings_terminated_iff (hne : buf ≠ []) (h : buf.length ≤ 4095) :
    (∀ b, ∀ ptr ∈ argvPointers (stringsBase buf) true buf, userStackBase ≤ ptr ∧
      ∃ nul, ptr ≤ nul ∧ nul < userStackBase + 0x1000 ∧
        applyStores b (argumentStores buf) nul = 0) ↔ buf.getLast? = some 0 := by
  have hbase := stringsBase_add h
  rw [argvPointers_eq]
  constructor
  · intro hterminated
    by_contra hlast
    -- the last run goes to the end of the page
    obtain ⟨i, hrun⟩ := exists_last_run hne hlast
    have hmem := mem_map_of_mem (f := fun run => stringsBase buf + run.1) (mem_runs_iff.mpr hrun)
    obtain ⟨-, nul, hle, hlt, hzero⟩ := hterminated (fun _ => 0) _ hmem
    have hplace : nul = stringsBase buf + (nul - stringsBase buf) := by omega
    have hk : nul - stringsBase buf < buf.length := by omega
    rw [hplace, applyStores_strings h hk] at hzero
    apply hrun.nonzero (nul - stringsBase buf) (by omega) hk
    rw [getElem?_eq_getElem hk, hzero]
  · intro hlast b ptr hmem
    obtain ⟨⟨i, j⟩, hrun, rfl⟩ := mem_map.mp hmem
    have hrun := mem_runs_iff.mp hrun
    have hij := hrun.lt
    rw [getLast?_eq_getElem?] at hlast
    have hnul : buf[j]? = some 0 := by
      rcases hrun.after with hend | hnul
      · exact absurd hlast (hrun.nonzero _ (by omega) (by omega))
      · exact hnul
    obtain ⟨hj, hzero⟩ := List.getElem?_eq_some_iff.mp hnul
    refine ⟨by show userStackBase ≤ stringsBase buf + i; omega, stringsBase buf + j, ?_,
      by omega, ?_⟩
    · omega
    · rw [applyStores_strings h hj, hzero]

end

/-! ### The image -/

/-- The stack image stays in its page, and so does every string that a pointer in it refers to. -/
structure ImageFits (buf : List Byte) : Prop where
  stores : ∀ store ∈ argumentStores buf, InStackPage store
  strings : ∀ b, ∀ ptr ∈ argvPointers (stringsBase buf) true buf, userStackBase ≤ ptr ∧
    ∃ nul, ptr ≤ nul ∧ nul < userStackBase + 0x1000 ∧ applyStores b (argumentStores buf) nul = 0

/-- **The image fits** iff the words fit below the strings and the buffer ends with a NUL. -/
theorem execve_image_fits_iff (user : UserMemory) (filenamePtr argsPtr argsLen : ℕ) :
    let buf := user.execArgs filenamePtr argsPtr argsLen
    (∀ pml4 st, storeArguments pml4 st buf =
      (storeAll pml4 st (argumentStores buf)).map fun st => (st, stackTop buf)) ∧
    (ImageFits buf ↔
      8 * ((runs buf).length + 3) ≤ (4096 - buf.length) / 16 * 16 ∧ buf.getLast? = some 0) := by
  intro buf
  obtain ⟨hpos, hlen⟩ : 1 ≤ buf.length ∧ buf.length ≤ 4095 :=
    length_execArgs user filenamePtr argsPtr argsLen
  have hne : buf ≠ [] := List.length_pos_iff.mp hpos
  refine ⟨fun pml4 st => storeArguments_eq pml4 st buf, ?_⟩
  rw [← argumentStores_in_page_iff hlen, ← strings_terminated_iff hne hlen]
  exact ⟨fun h => ⟨h.stores, h.strings⟩, fun h => ⟨h.1, h.2⟩⟩

/-- A page in which every other byte is a letter, and the rest are NUL. -/
def letterUser : UserMemory where
  bytes := fun i => if i % 2 = 0 then 0x61 else 0
  isUserPageMapped page := page = 0x1000

/-- **Two images that do not fit**: the only string of one byte has no NUL in the page, and the last
word for 408 strings of one letter is pushed below the page. -/
theorem execve_image_misses :
    letterUser.isValidUserMemory 0x1000 816 = true ∧
    letterUser.execArgs 0x1000 0x1000 1 = [0x61] ∧
    ¬ ImageFits (letterUser.execArgs 0x1000 0x1000 1) ∧
    (userStackBase - 8, Bytes.leBytes 8 408) ∈
      argumentStores (letterUser.execArgs 0x1000 0x1000 816) ∧
    ¬ ImageFits (letterUser.execArgs 0x1000 0x1000 816) := by
  have hbuf : letterUser.execArgs 0x1000 0x1000 1 = [0x61] := by decide +kernel
  have hlow : (userStackBase - 8, Bytes.leBytes 8 408) ∈
      argumentStores (letterUser.execArgs 0x1000 0x1000 816) := by decide +kernel
  refine ⟨by decide +kernel, hbuf, fun h => ?_, hlow, fun h => ?_⟩
  · rw [hbuf] at h
    have hptr : userStackBase + 0xFFF ∈ argvPointers (stringsBase [0x61]) true [0x61] := by
      decide +kernel
    obtain ⟨-, nul, hle, hlt, hzero⟩ := h.strings (fun _ => 0) _ hptr
    have hlast : applyStores (fun _ => 0) (argumentStores [0x61]) (userStackBase + 0xFFF)
      = 0x61 := by
      decide +kernel
    rw [show nul = userStackBase + 0xFFF by omega, hlast] at hzero
    exact absurd hzero (by decide)
  · exact absurd (h.stores _ hlow).1 (by decide)

/-! ### The argument vector -/

/-- The program finds the number of strings at the top of its stack, their addresses above it in the
order of the buffer, and two null words; and the top is aligned. -/
def HasArgumentVector (buf : List Byte) : Prop :=
  ∃ strings : List (ℕ × ℕ), (∀ i j, (i, j) ∈ strings ↔ IsRun buf i j) ∧
    (strings.Pairwise fun run run' => run.1 < run'.1) ∧
    argvPointers (stringsBase buf) true buf = strings.map (fun run => stringsBase buf + run.1) ∧
    (∀ b, (applyStores b (argumentStores buf)).slice (stackTop buf) (8 * (strings.length + 3)) =
      (strings.length :: argvPointers (stringsBase buf) true buf ++ [0, 0]).flatMap
        (Bytes.leBytes 8)) ∧
    stackTop buf % 16 = 0

theorem stackTop_mod {buf : List Byte} (h : buf.length ≤ 4095) :
    stackTop buf % 16 = 0 ↔ Odd (runs buf).length := by
  have hroom := stackWords_room h
  rw [Nat.odd_iff]
  unfold stackTop
  rw [length_stackWords] at hroom ⊢
  omega

theorem slice_stackTop {buf : List Byte} (h : buf.length ≤ 4095) (b : Bytes) :
    (applyStores b (argumentStores buf)).slice (stackTop buf) (8 * ((runs buf).length + 3)) =
      ((runs buf).length :: argvPointers (stringsBase buf) true buf ++ [0, 0]).flatMap
        (Bytes.leBytes 8) := by
  have hwords : (stackWords buf).reverse =
      (runs buf).length :: argvPointers (stringsBase buf) true buf ++ [0, 0] := by
    simp [stackWords, argvPointers_eq]
  rw [← length_stackWords, ← hwords]
  exact slice_wordStores (stackWords_room h)

/-- **The argument vector** is right iff the number of strings is odd: the words are, in every case,
but the top is aligned before they are pushed. -/
theorem execve_vector_iff (user : UserMemory) (filenamePtr argsPtr argsLen : ℕ) :
    let buf := user.execArgs filenamePtr argsPtr argsLen
    (∀ pml4 st, storeArguments pml4 st buf =
      (storeAll pml4 st (argumentStores buf)).map fun st => (st, stackTop buf)) ∧
    (HasArgumentVector buf ↔ Odd (runs buf).length) := by
  intro buf
  have hlen : buf.length ≤ 4095 := (length_execArgs user filenamePtr argsPtr argsLen).2
  refine ⟨fun pml4 st => storeArguments_eq pml4 st buf, ?_⟩
  rw [← stackTop_mod hlen]
  constructor
  · rintro ⟨_, -, -, -, -, haligned⟩
    exact haligned
  · intro haligned
    exact ⟨runs buf, fun i j => mem_runs_iff, runs_ascending buf, argvPointers_eq _ _,
      slice_stackTop hlen, haligned⟩

/-- **Two strings**: the top of the stack is eight bytes off. -/
theorem execve_vector_unaligned :
    letterUser.execArgs 0x1000 0x1000 4 = [0x61, 0, 0x61, 0] ∧
    (runs [0x61, 0, 0x61, 0]).length = 2 ∧ stackTop [0x61, 0, 0x61, 0] % 16 = 8 ∧
    ¬ HasArgumentVector (letterUser.execArgs 0x1000 0x1000 4) := by
  have hbuf : letterUser.execArgs 0x1000 0x1000 4 = [0x61, 0, 0x61, 0] := by decide +kernel
  have htop : stackTop [0x61, 0, 0x61, 0] % 16 = 8 := by decide +kernel
  refine ⟨hbuf, by decide +kernel, htop, ?_⟩
  rintro ⟨_, -, -, -, -, haligned⟩
  rw [hbuf, htop] at haligned
  exact absurd haligned (by decide)

/-! ### The stack of a new program -/

section

variable {m : Mapper} {pml4 f : ℕ} {place place' : ℕ → Option (List ℕ)} {st st' : MemoryState}

/-- **A new page for the stack** is one that the arguments can be copied to: the walk grants it to
user mode, and reads only tables, which the frame is not. -/
theorem stackPage_of_mappedNew (h : MappedNew pml4 userStackBase place st place' st' f)
    (hm : m.Documented) (htree : UserTree pml4 place st)
    (hunused : (leaf st.mem userStackBase 3 pml4).isUnused = true)
    (hmap : allocateAndMapUserPage m st pml4 userStackBase = (st', .ok ())) :
    StackPage st'.mem pml4 f := by
  have hpage : ∀ va, userStackBase ≤ va → va < userStackBase + 0x1000 →
      pageNumber va = pageNumber userStackBase ∧ userSlot (index va 3) := by
    intro va hle hlt
    unfold pageNumber userSlot index
    unfold userStackBase at *
    omega
  have hleaf : ∀ va, userStackBase ≤ va → va < userStackBase + 0x1000 →
      leaf st'.mem va 3 pml4 = .user f := fun va hle hlt =>
    (leaf_congr st'.mem (hpage va hle hlt).1).trans h.mapped
  refine ⟨fun va hle hlt => ?_, fun va hle hlt hmem => ?_⟩
  · obtain ⟨hsame, hslot⟩ := hpage va hle hlt
    obtain ⟨-, -, -, hopens⟩ :=
      UserTree.opens_mapPage hm htree (hpage _ le_rfl (Nat.lt_add_of_pos_right (by decide))).2 hmap
    have hopen : opens st'.mem (fun _ => false) va 4 pml4 = true := by
      rw [hopens va _ hslot]
      simp [grants, unmapped, translatePage_eq_leaf, hunused, hsame]
    obtain ⟨-, tr, htr, hrights⟩ := translate_opens_iff.mpr hopen
    obtain ⟨tr', htr', hframe⟩ := translate_of_leaf (hleaf va hle hlt)
    obtain rfl : tr' = tr := Option.some.inj (htr'.symm.trans htr)
    exact ⟨true, by rw [htr, ← hframe, ← hrights]⟩
  · have hspare := h.spare
    rcases mem_cons.mp hmem with rfl | hrest
    · rw [h.tree.tree.root] at hspare
      cases hspare
    · obtain ⟨t, ht, -⟩ := leafTable_of_leaf (hleaf va hle hlt ▸ PageTableEntry.user_ne_unused f)
      obtain ⟨hpresent, hhuge, -⟩ := leafTable_succ ht
      split_ifs at hrest with hgo
      swap
      · cases hrest
      obtain ⟨-, path, rfl, hnext, hlen, -⟩ := h.tree.tree.down h.tree.tree.root rfl
        (fun _ => (hpage va hle hlt).2) (isUnused_of_present hpresent) hhuge
      obtain ⟨path', hplace, -⟩ := h.tree.tree.place_tables hnext hlen (by simp) f hrest
      rw [hplace] at hspare
      cases hspare

variable {target done : ℕ → Prop} {img : Bytes} {buf : List Byte}

/-- **A new program finds its arguments, and its image as it was loaded.**  If the words fit below
the strings, the copy of the arguments to a new page reaches its end.  Through the page tables the
program then reads its image, the strings at the end of the page, and at the top of the stack their
number, their addresses and two null words. -/
theorem exec_sets_up_program (hm : m.Documented) (h : Loaded pml4 target done img st)
    (hunused : (leaf st.mem userStackBase 3 pml4).isUnused = true)
    (hmap : allocateAndMapUserPage m st pml4 userStackBase = (st', .ok ()))
    (hlen : buf.length ≤ 4095)
    (hfits : 8 * ((runs buf).length + 3) ≤ (4096 - buf.length) / 16 * 16) :
    ∃ st'', storeArguments pml4 st' buf = some (st'', stackTop buf) ∧
      (∀ va, done (va / FRAME_SIZE) → readByte st''.mem pml4 va = some (img va)) ∧
      (range buf.length).map (fun i => readByte st''.mem pml4 (stringsBase buf + i))
        = buf.map some ∧
      (range (8 * ((runs buf).length + 3))).map
          (fun i => readByte st''.mem pml4 (stackTop buf + i))
        = (((runs buf).length :: argvPointers (stringsBase buf) true buf ++ [0, 0]).flatMap
            (Bytes.leBytes 8)).map some := by
  obtain ⟨place, frameOf, hholds, hdone, htarget⟩ := h
  obtain ⟨place', f, hnew⟩ :=
    hholds.tree.mapNewPage hm (userSlot_page (n := 0x7FFFF0000) (by decide)) hunused hmap
  have hstack := stackPage_of_mappedNew hnew hm hholds.tree hunused hmap
  obtain ⟨st'', hrun, hpage, hother, himage⟩ :=
    hstack.storeAll ((argumentStores_in_page_iff hlen).mpr hfits)
  have hbase := stringsBase_add hlen
  -- what the program reads in the page is the flat image
  have hslice : ∀ o n, userStackBase ≤ o → o + n ≤ userStackBase + 0x1000 →
      (range n).map (fun i => readByte st''.mem pml4 (o + i))
        = ((applyStores (fun a => st'.mem.bytes f (a - userStackBase))
            (argumentStores buf)).slice o n).map some := by
    intro o n hle hend
    unfold Bytes.slice
    rw [map_map]
    refine map_congr_left fun i hi => ?_
    have hi := mem_range.mp hi
    have hbyte := himage (fun a => st'.mem.bytes f (a - userStackBase))
      (fun x _ => by rw [Nat.add_sub_cancel_left]) (o + i - userStackBase)
      (by unfold FRAME_SIZE; omega)
    rw [Nat.add_sub_cancel' (by omega)] at hbyte
    rw [hpage.readByte (by omega) (by omega), Function.comp_apply, hbyte]
  refine ⟨st'', by rw [storeArguments_eq, hrun, Option.map_some], fun va hva => ?_, ?_, ?_⟩
  · -- the frames of the image hold no table, and none is the new frame
    obtain ⟨g, hg⟩ := Option.ne_none_iff_exists'.mp ((hdone _).mp hva)
    have hn := hholds.user _ g hg
    have hmapped := hholds.mapped _ g hg
    have hne : va / FRAME_SIZE ≠ 0x7FFFF0000 := by
      intro heq
      rw [heq] at hmapped
      rw [show userStackBase = 0x7FFFF0000 * FRAME_SIZE from rfl, hmapped,
        PageTableEntry.isUnused_user] at hunused
      cases hunused
    obtain ⟨-, hleaves⟩ := hnew.tree.congr st''.mem fun t ht =>
      hother t (by rintro rfl; exact ht hnew.spare)
    have hleaf : leaf st''.mem va 3 pml4 = .user g := by
      rw [← leaf_page]
      exact (hleaves _ (userSlot_page hn)).trans
        ((hnew.others_page (n := 0x7FFFF0000) (by decide) hn hne).trans hmapped)
    obtain ⟨tr, htr, hframe⟩ := translate_of_leaf hleaf
    obtain ⟨hplace, hbusy⟩ := hholds.spare _ g hg
    have hsame : st''.mem g = st.mem g :=
      (hother g (by rintro rfl; exact hnew.fresh hbusy)).trans (hnew.data g hplace hbusy).2
    have hbyte := hholds.bytes _ g hg (va % FRAME_SIZE) (Nat.mod_lt _ (by decide))
    rw [Nat.div_add_mod' va FRAME_SIZE] at hbyte
    rw [readByte, htr, Option.map_some, hframe, Memory.bytes_congr hsame, hbyte]
  · rw [hslice _ _ (by omega) hbase.le]
    refine congrArg (map some) (ext_getElem (by simp) fun i h₁ h₂ => ?_)
    simp [Bytes.slice, applyStores_strings hlen h₂]
  · have htop : userStackBase ≤ stackTop buf ∧
        stackTop buf + 8 * ((runs buf).length + 3) ≤ userStackBase + 0x1000 := by
      unfold stackTop
      rw [length_stackWords]
      simp only [userStackBase] at hbase ⊢
      omega
    rw [hslice _ _ htop.1 htop.2, slice_stackTop hlen]

/-- An executable of two segments is loaded, and its stack gets one argument. -/
theorem exec_sets_up_program_letter : ∃ s st' st'',
    loadElf .reference .dev twoSegments 0 ⟨scarceTarget 12 16, []⟩ = .ok 0x1FF4 s ∧
    allocateAndMapUserPage (.reference _) s.memory 0 userStackBase = (st', .ok ()) ∧
    storeArguments 0 st' [0x61, 0] = some (st'', userStackBase + 0xFD0) ∧
    readByte st''.mem 0 0x1FF4 = some 0x44 ∧
    (range 2).map (fun i => readByte st''.mem 0 (userStackBase + 0xFFE + i))
      = [some 0x61, some 0] := by
  have hvalue : (loadElf .reference .dev twoSegments 0 ⟨scarceTarget 12 16, []⟩).value?
      = some 0x1FF4 := by decide +kernel
  have hunused : (leaf (loadElf .reference .dev twoSegments 0
      ⟨scarceTarget 12 16, []⟩).state.memory.mem userStackBase 3 0).isUnused = true := by
    decide +kernel
  have hmap : (allocateAndMapUserPage (.reference _) (loadElf .reference .dev twoSegments 0
      ⟨scarceTarget 12 16, []⟩).state.memory 0 userStackBase).2 = .ok () := by decide +kernel
  obtain ⟨s, hload⟩ := Effect.ok_of_value? hvalue
  rw [hload] at hunused hmap
  have hroot : (scarceTarget 12 16).allocator.testBit 0 = true := by decide +kernel
  have hloaded := (loadElf_loaded LookupMapper.documented_reference (scarceTarget_tree 12 hroot)
    twoSegments_wellPlaced (fun _ _ _ _ => rfl) hload).2
  have hlen : ([0x61, 0] : List Byte).length ≤ 4095 := by decide
  obtain ⟨st'', hrun, himage, hstrings, -⟩ := exec_sets_up_program
    (OffsetPageTable.documented_reference _) hloaded hunused (Prod.ext rfl hmap) hlen
    (by decide +kernel)
  have hseg : twoSegments.IsSegment 0 := by decide +kernel
  have hbyte := himage 0x1FF4 ⟨0, hseg.1, hseg, 4, by decide +kernel, by decide +kernel⟩
  have himg := twoSegments_wellPlaced.image_segment hseg (k := 4) (by decide +kernel) hseg.1
  have haddr : (twoSegments.header 0).pVaddr + 4 = 0x1FF4 := by decide +kernel
  have hfile : (if 4 < (twoSegments.header 0).pFilesz then
      twoSegments.bytes ((twoSegments.header 0).pOffset + 4) else 0) = 0x44 := by decide +kernel
  rw [haddr, hfile] at himg
  exact ⟨s, _, st'', hload, Prod.ext rfl hmap, hrun, hbyte.trans (congrArg some himg), hstrings⟩

end

end NwinOs.Core
