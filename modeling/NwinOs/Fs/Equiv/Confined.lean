import NwinOs.Fs.BlockDevice

/-!
# Which sectors a program accesses

`Within old P d` says that the accesses of `d` are those of `old` and later ones to sectors that `P`
allows; `Reading` adds that the contents of the disk are the given ones.  The lemmas say how the
device operations keep these conditions, on a device that may fail.
-/

namespace NwinOs.Fs

open Effect

/-- Every access since `old` is to a sector that `P` allows. -/
def Within (old : List Access) (P : ℕ → Prop) (d : BlockDevice) : Prop :=
  ∃ new, d.accesses = new ++ old ∧ ∀ a ∈ new, P a.lba

/-- `Within`, and the disk has the given contents. -/
def Reading (S : ℕ → Bytes) (old : List Access) (P : ℕ → Prop) (d : BlockDevice) : Prop :=
  d.sectors = S ∧ Within old P d

/-- The sectors of a partition. -/
def InPartition (start total lba : ℕ) : Prop := start ≤ lba ∧ lba < start + total

/-- The program reads inside the partition. -/
abbrev ReadsIn {α : Type} (S : ℕ → Bytes) (old : List Access) (start total : ℕ) (m : FsProgram α)
    (Q : α → Prop) : Prop :=
  Leads (Reading S old (InPartition start total)) (Reading S old (InPartition start total)) m Q

/-- The program reads and writes inside the partition. -/
abbrev WritesIn {α : Type} (S : ℕ → Bytes) (old : List Access) (start total : ℕ) (m : FsProgram α)
    (Q : α → Prop) : Prop :=
  Leads (Reading S old (InPartition start total)) (Within old (InPartition start total)) m Q

variable {p : Profile} {S : ℕ → Bytes} {old : List Access} {P : ℕ → Prop} {lba count : ℕ}
  {buf : Bytes}

theorem Within.record {d d' : BlockDevice} {kind : AccessKind} (h : Within old P d) (hP : P lba)
    (hd : d'.accesses = ⟨kind, lba⟩ :: d.accesses) : Within old P d' := by
  obtain ⟨new, hnew, hall⟩ := h
  refine ⟨⟨kind, lba⟩ :: new, ?_, ?_⟩
  · rw [hd, hnew, List.cons_append]
  · intro a ha
    rcases List.mem_cons.mp ha with rfl | ha
    · exact hP
    · exact hall a ha

theorem Reading.within (d : BlockDevice) (h : Reading S old P d) : Within old P d := h.2

theorem leads_readBlock (hP : P lba) :
    Leads (Reading S old P) (Reading S old P) (readBlock lba) fun b => b = S lba := by
  rintro d ⟨rfl, hd⟩
  have hrec : Reading d.sectors old P (d.record .read lba) := ⟨rfl, hd.record hP rfl⟩
  unfold wp readBlock
  split_ifs with hfail
  · exact hrec
  · exact ⟨hrec, rfl⟩

theorem leads_writeBlock (hP : P lba) :
    Leads (Within old P) (Within old P) (writeBlock lba buf) fun _ => True := by
  intro d hd
  unfold wp writeBlock
  split_ifs with hfail
  · exact hd.record hP rfl
  · exact ⟨hd.record hP rfl, trivial⟩

theorem leads_of_within {α : Type} {m : FsProgram α} {Q : α → Prop}
    (h : Leads (Within old P) (Within old P) m Q) : Leads (Reading S old P) (Within old P) m Q :=
  fun d hd => h d hd.2

theorem leads_readSectors {i : ℕ} (hlt : lba + (i + count) < 2 ^ 64)
    (hP : ∀ j, i ≤ j → j < i + count → P (lba + j)) :
    Leads (Reading S old P) (Reading S old P) (readSectors p lba count i buf) fun _ => True := by
  induction count generalizing i buf with
  | zero => exact .ret trivial
  | succ count ih =>
    rw [readSectors, Profile.add_eq_some (by omega)]
    apply Leads.ofOption_some_bind
    refine .seq (leads_readBlock (hP i le_rfl (by omega))) fun _ _ => ?_
    exact ih (by omega) fun j h1 h2 => hP j (by omega) (by omega)

theorem leads_writeSectors {i : ℕ} (hlt : lba + (i + count) < 2 ^ 64)
    (hP : ∀ j, i ≤ j → j < i + count → P (lba + j)) :
    Leads (Within old P) (Within old P) (writeSectors p lba buf count i) fun _ => True := by
  induction count generalizing i with
  | zero => exact .ret trivial
  | succ count ih =>
    rw [writeSectors, Profile.add_eq_some (by omega)]
    apply Leads.ofOption_some_bind
    refine .seq (leads_writeBlock (hP i le_rfl (by omega))) fun _ _ => ?_
    exact ih (by omega) fun j h1 h2 => hP j (by omega) (by omega)

end NwinOs.Fs
