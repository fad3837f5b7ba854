import NwinOs.Fs.BlockDevice

/-!
# What the device operations do when no access fails

Specifications of single and multiple sector transfers, in the form the `wp` rules use: from any
postcondition that holds of the value read and of the device afterwards.
-/

namespace NwinOs.Fs

open Effect

/-- No access fails. -/
def BlockDevice.Reliable (d : BlockDevice) : Prop := ∀ n, d.fails n = false

theorem BlockDevice.Reliable.not_exists {d : BlockDevice} (h : d.Reliable) :
    ¬ ∃ j, d.fails j = true := by
  rintro ⟨j, hj⟩
  rw [h j] at hj
  cases hj

/-- The device with the failures taken away. -/
def BlockDevice.healed (d : BlockDevice) : BlockDevice := { d with fails := fun _ => false }

theorem BlockDevice.healed_reliable (d : BlockDevice) : d.healed.Reliable := fun _ => rfl

/-- The sectors after a run of them is overwritten. -/
def storeSectors (sectors : ℕ → Bytes) (lba count : ℕ) (buf : Bytes) : ℕ → Bytes := fun s =>
  if lba ≤ s ∧ s < lba + count then
    fun o => if o < 512 then buf ((s - lba) * 512 + o) else sectors s o
  else sectors s

/-- The bytes of a run of sectors, as one buffer. -/
def runBytes (sectors : ℕ → Bytes) (lba : ℕ) : Bytes := fun o => sectors (lba + o / 512) (o % 512)

variable {sectors : ℕ → Bytes} {s : ℕ} {buf : Bytes} {lba o : ℕ}

theorem storeSector_of_ne (h : s ≠ lba) : storeSector sectors lba buf s = sectors s :=
  Function.update_of_ne h ..

theorem storeSector_self :
    storeSector sectors lba buf lba o = if o < 512 then buf o else sectors lba o := by
  rw [storeSector, Function.update_self]

variable {count : ℕ}

theorem storeSectors_of_outside
    (h : s < lba ∨ lba + count ≤ s) : storeSectors sectors lba count buf s = sectors s := by
  unfold storeSectors
  rw [if_neg (by omega)]

theorem runBytes_storeSectors
    (ho : o < count * 512) : runBytes (storeSectors sectors lba count buf) lba o = buf o := by
  have hin : lba ≤ lba + o / 512 ∧ lba + o / 512 < lba + count := by omega
  have hoff : (lba + o / 512 - lba) * 512 + o % 512 = o := by omega
  unfold runBytes storeSectors
  rw [if_pos hin, if_pos (by omega), hoff]

theorem storeSectors_same (h : ∀ i < count * 512, buf i = runBytes sectors lba i) :
    storeSectors sectors lba count buf = sectors := by
  ext1 s
  by_cases hs : lba ≤ s ∧ s < lba + count
  · ext1 o
    unfold storeSectors
    rw [if_pos hs]
    by_cases ho : o < 512
    · have hsector : lba + ((s - lba) * 512 + o) / 512 = s := by omega
      have hoff : ((s - lba) * 512 + o) % 512 = o := by omega
      rw [if_pos ho, h _ (by omega), runBytes, hsector, hoff]
    · rw [if_neg ho]
  · rw [storeSectors_of_outside (by omega)]

variable {p : Profile} {d : BlockDevice} {lba : ℕ} {buf : Bytes} {E : FsError → BlockDevice → Prop}
  {F : BlockDevice → Prop}

variable (d)

@[simp] theorem record_sectors (kind : AccessKind) : (d.record kind lba).sectors = d.sectors := rfl

@[simp] theorem record_fails (kind : AccessKind) : (d.record kind lba).fails = d.fails := rfl

@[simp] theorem record_accesses_length (kind : AccessKind) :
    (d.record kind lba).accesses.length = d.accesses.length + 1 := rfl

variable {d}

/-- The devices that reading leads to: the same disk, with more accesses behind it. -/
structure SameDisk (d d' : BlockDevice) : Prop where
  sectors : d'.sectors = d.sectors
  fails : d'.fails = d.fails
  later : d.accesses.length ≤ d'.accesses.length

namespace SameDisk

variable {d d' d'' : BlockDevice}

theorem refl : SameDisk d d := ⟨rfl, rfl, le_rfl⟩

theorem trans (h : SameDisk d d') (h' : SameDisk d' d'') : SameDisk d d'' :=
  ⟨h'.sectors.trans h.sectors, h'.fails.trans h.fails, h.later.trans h'.later⟩

theorem record {kind : AccessKind} : SameDisk d (d.record kind lba) :=
  ⟨rfl, rfl, Nat.le_succ _⟩

theorem reliable (h : SameDisk d d') (hr : d.Reliable) : d'.Reliable := by
  intro n
  rw [h.fails]
  exact hr n

end SameDisk

theorem wp_readBlock_iff {Q : Bytes → BlockDevice → Prop} :
    wp (readBlock lba) Q E F d ↔
      if d.fails d.accesses.length then E .blockRead (d.record .read lba)
      else Q (d.sectors lba) (d.record .read lba) := by
  unfold wp readBlock
  split_ifs <;> rfl

variable {Q : Unit → BlockDevice → Prop}

theorem wp_writeBlock_iff :
    wp (writeBlock lba buf) Q E F d ↔
      if d.fails d.accesses.length then E .blockWrite (d.record .write lba)
      else Q () { d.record .write lba with sectors := storeSector d.sectors lba buf } := by
  unfold wp writeBlock
  split_ifs <;> rfl

theorem readBlock_eq (h : d.Reliable) :
    readBlock lba d = .ok (d.sectors lba) (d.record .read lba) := by
  unfold readBlock
  rw [h]
  rfl

theorem wp_readBlock {Q : Bytes → BlockDevice → Prop} (h : d.Reliable)
    (hQ : ∀ d', d'.Reliable → d'.sectors = d.sectors → Q (d.sectors lba) d') :
    wp (readBlock lba) Q E F d := by
  rw [wp_iff_of_ok (readBlock_eq h)]
  exact hQ _ h rfl

theorem wp_writeBlock (h : d.Reliable)
    (hQ : ∀ d', d'.Reliable → d'.sectors = storeSector d.sectors lba buf → Q () d') :
    wp (writeBlock lba buf) Q E F d := by
  unfold wp writeBlock
  rw [h]
  exact hQ _ h rfl

variable (sectors)

/-- The buffer with the sectors `i` to `i + count` of a run filled in. -/
def fill (lba i count : ℕ) (buf : Bytes) : Bytes := fun o =>
  if i ≤ o / 512 ∧ o / 512 < i + count then runBytes sectors lba o else buf o

/-- One turn fills in a sector, the later turns those behind it. -/
theorem fill_step (lba i count : ℕ) (buf : Bytes) :
    fill sectors lba (i + 1) count
        (fun o => if o / 512 = i then sectors (lba + i) (o % 512) else buf o)
      = fill sectors lba i (count + 1) buf := by
  ext1 o
  simp only [fill, runBytes]
  by_cases hmine : o / 512 = i
  · rw [if_neg (by omega), if_pos hmine, if_pos (by omega), hmine]
  · by_cases hlater : i + 1 ≤ o / 512 ∧ o / 512 < i + 1 + count
    · rw [if_pos hlater, if_pos (by omega)]
    · rw [if_neg hlater, if_neg hmine, if_neg (by omega)]

/-- One turn writes a sector, the later turns those behind it. -/
theorem storeSectors_step (lba i count : ℕ) (buf : Bytes) :
    storeSectors (storeSector sectors (lba + i) fun o => buf (i * 512 + o)) (lba + (i + 1)) count
        (fun o => buf ((i + 1) * 512 + o))
      = storeSectors sectors (lba + i) (count + 1) fun o => buf (i * 512 + o) := by
  ext1 s
  by_cases hmine : s = lba + i
  · -- the turn's own sector is not touched later
    subst hmine
    have hin : lba + i ≤ lba + i ∧ lba + i < lba + i + (count + 1) := by omega
    rw [storeSectors_of_outside (by omega), storeSectors, if_pos hin]
    ext1 o
    rw [storeSector_self, Nat.sub_self, Nat.zero_mul, Nat.zero_add]
  · by_cases hlater : lba + (i + 1) ≤ s ∧ s < lba + (i + 1) + count
    · unfold storeSectors
      have hin : lba + i ≤ s ∧ s < lba + i + (count + 1) := by omega
      rw [if_pos hlater, if_pos hin, storeSector_of_ne hmine]
      ext1 o
      dsimp only
      have hoff : (i + 1) * 512 + ((s - (lba + (i + 1))) * 512 + o)
          = i * 512 + ((s - (lba + i)) * 512 + o) := by omega
      rw [hoff]
    · rw [storeSectors_of_outside (by omega), storeSector_of_ne hmine,
        storeSectors_of_outside (by omega)]

theorem storeSectors_zero (lba : ℕ) (buf : Bytes) : storeSectors sectors lba 0 buf = sectors := by
  ext1 s
  rw [storeSectors_of_outside (by omega)]

variable {sectors}

theorem wp_writeSectors_from : ∀ {i : ℕ} {d : BlockDevice}
    {Q : Unit → BlockDevice → Prop}, d.Reliable → lba + (i + count) < 2 ^ 64 →
    (∀ d', d'.Reliable →
      d'.sectors = storeSectors d.sectors (lba + i) count (fun o => buf (i * 512 + o)) → Q () d') →
    wp (writeSectors p lba buf count i) Q E F d := by
  induction count with
  | zero =>
    intro i d Q h _ hQ
    exact hQ d h (storeSectors_zero ..).symm
  | succ count ih =>
    intro i d Q h hlt hQ
    rw [writeSectors, Profile.add_eq_some (by omega), wp_bind, wp_ofOption_some, wp_bind]
    refine wp_writeBlock h fun d₁ h₁ hs₁ => ih h₁ (by omega) fun d₂ h₂ hs₂ => hQ d₂ h₂ ?_
    rw [hs₂, hs₁, storeSectors_step]

theorem wp_writeSectors (h : d.Reliable) (hlt : lba + count < 2 ^ 64)
    (hQ : ∀ d', d'.Reliable → d'.sectors = storeSectors d.sectors lba count buf → Q () d') :
    wp (writeSectors p lba buf count 0) Q E F d := by
  refine wp_writeSectors_from h (by omega) fun d' h' hs' => hQ d' h' ?_
  simpa using hs'

/-- A sector that a run of writes does not reach keeps its contents, whichever writes fail. -/
theorem leads_writeSectors_of_ne {x : Bytes} : ∀ {i : ℕ},
    (∀ k, i ≤ k → k < i + count → p.add 64 lba k ≠ some s) →
    Leads (fun d => d.sectors s = x) (fun d => d.sectors s = x) (writeSectors p lba buf count i)
      fun _ => True := by
  induction count with
  | zero => exact fun _ => .ret trivial
  | succ count ih =>
    intro i hne
    refine .seq (.value fun t ht => ht) fun t ht => ?_
    have hst : s ≠ t := fun hst => hne i le_rfl (by omega) (hst ▸ ht)
    have hwrite : Leads (fun d => d.sectors s = x) (fun d => d.sectors s = x)
        (writeBlock t fun o => buf (i * 512 + o)) fun _ => True := by
      intro d hd
      rw [wp_writeBlock_iff]
      split_ifs
      · exact hd
      · exact ⟨(storeSector_of_ne hst).trans hd, trivial⟩
    exact .seq hwrite fun _ _ => ih fun k h1 h2 => hne k (by omega) (by omega)

/-! ### Transfers on any device -/

theorem readSectors_run : ∀ {i : ℕ} {buf : Bytes} {d : BlockDevice},
    lba + (i + count) < 2 ^ 64 →
    (∃ d', SameDisk d d' ∧ d'.accesses.length = d.accesses.length + count ∧
      (∀ j < count, d.fails (d.accesses.length + j) = false) ∧
      readSectors p lba count i buf d = .ok (fill d.sectors lba i count buf) d') ∨
    ∃ j < count, d.fails (d.accesses.length + j) = true ∧
      ∃ d', SameDisk d d' ∧ readSectors p lba count i buf d = .err .blockRead d' := by
  induction count with
  | zero =>
    intro i buf d _
    have hend : fill d.sectors lba i 0 buf = buf := by
      ext1 o
      unfold fill
      rw [if_neg (by omega)]
    refine .inl ⟨d, .refl, rfl, fun j hj => absurd hj (Nat.not_lt_zero j), ?_⟩
    rw [hend]
    rfl
  | succ count ih =>
    intro i buf d hlt
    have hstep : readSectors p lba (count + 1) i buf d = (readBlock (lba + i) >>= fun data =>
        readSectors p lba count (i + 1)
          (fun o => if o / 512 = i then data (o % 512) else buf o)) d := by
      rw [readSectors, Profile.add_eq_some (by omega)]
      rfl
    rw [hstep]
    by_cases hfails : d.fails d.accesses.length = true
    · have hread : readBlock (lba + i) d = .err .blockRead (d.record .read (lba + i)) :=
        if_pos hfails
      exact .inr ⟨0, Nat.succ_pos _, hfails, _, .record, bind_of_err hread⟩
    have hread : readBlock (lba + i) d = .ok (d.sectors (lba + i)) (d.record .read (lba + i)) :=
      if_neg hfails
    rw [bind_of_ok hread]
    have hshift : ∀ j, d.accesses.length + 1 + j = d.accesses.length + (j + 1) := fun j => by omega
    rcases @ih (i + 1) _ (d.record .read (lba + i)) (by omega) with
      ⟨d', hsame, hlen, hnone, hrun⟩ | ⟨j, hj, hfail, d', hsame, hrun⟩
    · refine .inl ⟨d', SameDisk.record.trans hsame, ?_, ?_, ?_⟩
      · rw [hlen, record_accesses_length]
        omega
      · intro j hj
        cases j with
        | zero => exact Bool.eq_false_of_not_eq_true hfails
        | succ j =>
          have hnext := hnone j (Nat.lt_of_succ_lt_succ hj)
          rw [record_accesses_length, hshift] at hnext
          exact hnext
      · rw [hrun, record_sectors, fill_step]
    · rw [record_accesses_length, hshift] at hfail
      exact .inr ⟨j + 1, Nat.succ_lt_succ hj, hfail, d', SameDisk.record.trans hsame, hrun⟩

/-- Writing a run of sectors stops at the first access that fails, with the sectors before it
written. -/
theorem writeSectors_run : ∀ {i : ℕ} {d : BlockDevice},
    lba + (i + count) < 2 ^ 64 →
    (∃ d', d'.fails = d.fails ∧
      d'.sectors = storeSectors d.sectors (lba + i) count (fun o => buf (i * 512 + o)) ∧
      (∀ j < count, d.fails (d.accesses.length + j) = false) ∧
      writeSectors p lba buf count i d = .ok () d') ∨
    ∃ k < count, d.fails (d.accesses.length + k) = true ∧
      (∀ j < k, d.fails (d.accesses.length + j) = false) ∧
      ∃ d', d'.fails = d.fails ∧
        d'.sectors = storeSectors d.sectors (lba + i) k (fun o => buf (i * 512 + o)) ∧
        writeSectors p lba buf count i d = .err .blockWrite d' := by
  induction count with
  | zero =>
    intro i d _
    exact .inl ⟨d, rfl, (storeSectors_zero ..).symm, fun j hj => absurd hj (Nat.not_lt_zero j),
      rfl⟩
  | succ count ih =>
    intro i d hlt
    have hstep : writeSectors p lba buf (count + 1) i d
        = ((writeBlock (lba + i) fun o => buf (i * 512 + o)) >>= fun _ =>
          writeSectors p lba buf count (i + 1)) d := by
      rw [writeSectors, Profile.add_eq_some (by omega)]
      rfl
    rw [hstep]
    by_cases hfails : d.fails d.accesses.length = true
    · have hwrite : (writeBlock (lba + i) fun o => buf (i * 512 + o)) d
          = .err .blockWrite (d.record .write (lba + i)) := if_pos hfails
      exact .inr ⟨0, Nat.succ_pos _, hfails, fun j hj => absurd hj (Nat.not_lt_zero j),
        d.record .write (lba + i), rfl, (storeSectors_zero ..).symm, bind_of_err hwrite⟩
    have hwrite : (writeBlock (lba + i) fun o => buf (i * 512 + o)) d
        = .ok () { d.record .write (lba + i) with
          sectors := storeSector d.sectors (lba + i) fun o => buf (i * 512 + o) } := if_neg hfails
    rw [bind_of_ok hwrite]
    have hbefore : ∀ k, (∀ j < k, d.fails (d.accesses.length + 1 + j) = false) →
        ∀ j < k + 1, d.fails (d.accesses.length + j) = false := by
      intro k hk j hj
      cases j with
      | zero => exact Bool.eq_false_of_not_eq_true hfails
      | succ j =>
        have hnext := hk j (Nat.lt_of_succ_lt_succ hj)
        rwa [Nat.add_assoc, Nat.add_comm 1] at hnext
    rcases @ih (i + 1) { d.record .write (lba + i) with
        sectors := storeSector d.sectors (lba + i) fun o => buf (i * 512 + o) } (by omega) with
      ⟨d', hsame, hstored, hnone, hrun⟩ | ⟨k, hk, hfail, hnone, d', hsame, hstored, hrun⟩
    · refine .inl ⟨d', hsame, ?_, hbefore count hnone, hrun⟩
      rw [hstored, storeSectors_step]
    · refine .inr ⟨k + 1, Nat.succ_lt_succ hk, ?_, hbefore k hnone, d', hsame, ?_, hrun⟩
      · have hindex : d.accesses.length + (k + 1) = d.accesses.length + 1 + k := by omega
        rw [hindex]
        exact hfail
      · rw [hstored, storeSectors_step]

end NwinOs.Fs
