import NwinOs.Fs.Ext4.Equiv.Node
import Mathlib.Logic.Relation

/-!
# What adding an entry does

The loop of `addEntry` moves from record to record (`Walks`) and ends with `lastTurn` at the record
where it cannot move on (`addEntryLoop_eq`), whatever the block holds.  In a tiled block that is the
record that reaches the block's end (`LastRecord`), and its padding (`slackAt`) decides between
`noSpace` and a new record (`FirstBlock.addEntry_of_endsAt`).
-/

namespace NwinOs.Fs.Ext4

open Effect Bytes Ext4Node

/-! ### The last record of a block -/

/-- The padding behind the name of a record. -/
def slackAt (b : Bytes) (o : ℕ) : ℕ := recLenAt b o - align4 (8 + nameLenAt b o)

/-- The length of the smallest record for a name. -/
def recordSize (name : List Byte) : ℕ := align4 (8 + name.length)

/-- The record at `o` reaches the end of the block, the records `init` tile it up to there. -/
structure LastRecord (b : Bytes) (bs o : ℕ) (init : List DirRecord) : Prop where
  before : Tiled b 0 o init
  valid : ValidRecord b o
  ends : o + recLenAt b o = bs

section

variable {b b' : Bytes} {bs o stop : ℕ} {recs init : List DirRecord}

theorem four_dvd_of_tiled (h : Tiled b o stop recs) (ho : 4 ∣ o) : 4 ∣ stop := by
  induction h with
  | nil => exact ho
  | cons hvalid _ ih => exact ih (Nat.dvd_add ho hvalid.1)

theorem Tiled.exists_last (h : Tiled b o stop recs) (hlt : o < stop) :
    ∃ m init, Tiled b o m init ∧ ValidRecord b m ∧ m + recLenAt b m = stop ∧
      recs = init ++ [recordAt b m] := by
  induction h with
  | nil o => exact absurd hlt (lt_irrefl o)
  | @cons o stop rest hvalid hrest ih =>
    rcases hrest.le.eq_or_lt with hend | hmore
    · refine ⟨o, [], .nil o, hvalid, hend, ?_⟩
      rw [hend] at hrest
      rw [hrest.unique (.nil stop)]
      rfl
    · obtain ⟨m, init, hinit, hm, hmend, hrecs⟩ := ih hmore
      exact ⟨m, recordAt b o :: init, .cons hvalid hinit, hm, hmend, by rw [hrecs]; rfl⟩

theorem Tiled.exists_lastRecord (h : Tiled b 0 bs recs) (hpos : 0 < bs) :
    ∃ o init, LastRecord b bs o init ∧ recs = init ++ [recordAt b o] := by
  obtain ⟨o, init, hinit, ho, hend, hrecs⟩ := h.exists_last hpos
  exact ⟨o, init, ⟨hinit, ho, hend⟩, hrecs⟩

namespace LastRecord

section

variable (h : LastRecord b bs o init)
include h

theorem lt : o + 8 ≤ bs := by
  have hle := h.valid.le
  have hend := h.ends
  omega

theorem tiled : Tiled b 0 bs (init ++ [recordAt b o]) := by
  refine h.before.append (.cons h.valid ?_)
  rw [h.ends]
  exact .nil bs

theorem four_dvd : 4 ∣ o := four_dvd_of_tiled h.before (dvd_zero 4)

theorem congr (hsame : ∀ i < bs, b' i = b i) : LastRecord b' bs o init := by
  have hlt := h.lt
  have hrec : recLenAt b' o = recLenAt b o :=
    get_congr fun i h1 h2 => hsame i (by omega)
  have hname : nameLenAt b' o = nameLenAt b o :=
    get_congr fun i h1 h2 => hsame i (by omega)
  refine ⟨h.before.congr fun i _ hi => hsame i (by omega), ?_, by rw [hrec]; exact h.ends⟩
  exact ⟨hrec ▸ h.valid.1, hrec ▸ hname ▸ h.valid.2⟩

end

end LastRecord

end

/-- The block with a record for `name` in the padding of the record at `o`. -/
def withRecord (b : Bytes) (o : ℕ) (name : List Byte) (n : ℕ) : Bytes :=
  Ext4Node.appendRecord b o (align4 (8 + nameLenAt b o)) (slackAt b o) name n

/-! ### The loop of `addEntry` -/

/-- A turn of the loop that moves on to another record. -/
structure Step (b : Bytes) (bs o o' : ℕ) : Prop where
  header : o + 7 ≤ bs
  nonzero : recLenAt b o ≠ 0
  next : o' = o + recLenAt b o
  inside : o' < bs

/-- The turns of the loop lead from one record to the other. -/
abbrev Walks (b : Bytes) (bs : ℕ) : ℕ → ℕ → Prop := Relation.ReflTransGen (Step b bs)

/-- The record at which the loop ends. -/
structure WalkEnd (b : Bytes) (bs o e : ℕ) : Prop where
  walks : Walks b bs o e
  stuck : ∀ o', ¬ Step b bs e o'

/-- The turn in which the loop ends. -/
def lastTurn (p : Profile) (bs : ℕ) (name : List Byte) (n : ℕ) (b : Bytes) (e : ℕ) :
    FsProgram Bytes :=
  if bs < e + 7 then Program.ofOption none
  else if e + recLenAt b e = bs then do
    let spaceLeft ← Program.ofOption (p.sub 64 (recLenAt b e) (align4 (8 + nameLenAt b e)))
    if spaceLeft < recordSize name then Program.throw .noSpace
    else if bs < e + 8 ∨ bs < e + align4 (8 + nameLenAt b e) + 8 + name.length then
      Program.ofOption none
    else pure (Ext4Node.appendRecord b e (align4 (8 + nameLenAt b e)) spaceLeft name n)
  else Program.throw .corruptedDirectory

section

variable {p : Profile} {b b' : Bytes} {bs o o' e e' n : ℕ} {name : List Byte}
  {recs init : List DirRecord} {fuel : ℕ}

theorem Step.congr (h : Step b bs o o') (hsame : ∀ i < bs, b' i = b i) : Step b' bs o o' := by
  have hheader := h.header
  have hrec : recLenAt b' o = recLenAt b o := get_congr fun i h1 h2 => hsame i (by omega)
  exact ⟨hheader, hrec ▸ h.nonzero, hrec ▸ h.next, h.inside⟩

theorem Walks.congr (h : Walks b bs o e) (hsame : ∀ i < bs, b' i = b i) : Walks b' bs o e :=
  Relation.ReflTransGen.mono (fun _ _ hstep => hstep.congr hsame) _ _ h

theorem WalkEnd.congr (h : WalkEnd b bs o e) (hsame : ∀ i < bs, b' i = b i) : WalkEnd b' bs o e :=
  ⟨h.walks.congr hsame, fun o' hstep => h.stuck o' (hstep.congr fun i hi => (hsame i hi).symm)⟩

theorem Walks.le (h : Walks b bs o e) : o ≤ e := by
  induction h with
  | refl => exact le_rfl
  | tail _ hstep ih =>
    have := hstep.next
    omega

/-- Every walk ends: each turn moves on by at least one byte and stays in the block. -/
theorem exists_walkEnd (b : Bytes) (bs o : ℕ) : ∃ e, WalkEnd b bs o e := by
  induction hk : bs - o using Nat.strong_induction_on generalizing o with
  | _ k ih =>
  by_cases hstuck : ∀ o', ¬ Step b bs o o'
  · exact ⟨o, .refl, hstuck⟩
  · obtain ⟨o', hstep⟩ := not_forall_not.mp hstuck
    have hnext := hstep.next
    have hnonzero := hstep.nonzero
    have hinside := hstep.inside
    obtain ⟨e, he⟩ := ih (bs - o') (by omega) o' rfl
    exact ⟨e, .head hstep he.walks, he.stuck⟩

/-- The walk is a path: what it reaches lies on the way to its end. -/
theorem WalkEnd.walks_of_walks (h : WalkEnd b bs o e) (hw : Walks b bs o o') : Walks b bs o' e := by
  have hunique : Relator.RightUnique (Step b bs) := fun _ _ _ h h' => h.next.trans h'.next.symm
  rcases hw.total_of_right_unique hunique h.walks with hto | hfrom
  · exact hto
  · rcases hfrom.cases_head with heq | ⟨c, hc, _⟩
    · exact heq ▸ .refl
    · exact absurd hc (h.stuck c)

theorem WalkEnd.unique (h : WalkEnd b bs o e) (h' : WalkEnd b bs o e') : e = e' :=
  le_antisymm (h'.walks_of_walks h.walks).le (h.walks_of_walks h'.walks).le

theorem addEntryLoop_step (h : Step b bs o o') :
    addEntryLoop p bs name n b (fuel + 1) o
      = addEntryLoop p bs name n b fuel o' := by
  have hheader := h.header
  have hnonzero := h.nonzero
  have hnext := h.next
  have hinside := h.inside
  unfold recLenAt at hnonzero hnext
  have hmore : ¬ (bs ≤ o + b.get (o + 4) 2 ∨ b.get (o + 4) 2 = 0) := by omega
  rw [addEntryLoop, if_neg (by omega)]
  rw [if_neg (by omega), if_neg hmore, hnext]

theorem addEntryLoop_stuck (h : ∀ o', ¬ Step b bs o o') :
    addEntryLoop p bs name n b (fuel + 1) o = lastTurn p bs name n b o := by
  rw [addEntryLoop, lastTurn]
  by_cases hheader : bs < o + 7
  · rw [if_pos hheader, if_pos hheader]
  rw [if_neg hheader, if_neg hheader]
  by_cases hlast : o + recLenAt b o = bs
  · rw [if_pos hlast]
    exact if_pos hlast
  · have hmore : bs ≤ o + recLenAt b o ∨ recLenAt b o = 0 := by
      by_contra hno
      exact h (o + recLenAt b o) ⟨by omega, by omega, rfl, by omega⟩
    rw [if_neg hlast]
    exact (if_neg hlast).trans (if_pos hmore)

/-- **The loop of `addEntry`** is its last turn at the end of the walk. -/
theorem addEntryLoop_eq (h : WalkEnd b bs o e) (hfuel : bs - o < fuel) :
    addEntryLoop p bs name n b fuel o = lastTurn p bs name n b e := by
  obtain ⟨hwalks, hstuck⟩ := h
  induction hwalks using Relation.ReflTransGen.head_induction_on generalizing fuel with
  | refl =>
    obtain ⟨fuel, rfl⟩ := Nat.exists_eq_add_one_of_ne_zero (Nat.ne_zero_of_lt hfuel)
    exact addEntryLoop_stuck hstuck
  | head hstep _ ih =>
    obtain ⟨fuel, rfl⟩ := Nat.exists_eq_add_one_of_ne_zero (Nat.ne_zero_of_lt hfuel)
    have hnext := hstep.next
    have hnonzero := hstep.nonzero
    have hinside := hstep.inside
    rw [addEntryLoop_step hstep]
    exact ih (by omega)

/-- In a tiled stretch the loop moves from record to record. -/
theorem Tiled.walks (h : Tiled b o e recs) (hlt : e < bs) : Walks b bs o e := by
  induction h with
  | nil => exact .refl
  | @cons o stop rest hvalid hrest ih =>
    have hle := hvalid.le
    have hend := hrest.le
    exact .head ⟨by omega, by omega, rfl, by omega⟩ (ih hlt)

theorem LastRecord.walkEnd (h : LastRecord b bs o init) : WalkEnd b bs 0 o := by
  have hlt := h.lt
  have hends := h.ends
  refine ⟨h.before.walks (by omega), fun o' hstep => ?_⟩
  have hnext := hstep.next
  have hinside := hstep.inside
  omega

/-- The walk ends at a record that reaches the end of the block and is as long as its name needs. -/
structure EndsAt (b : Bytes) (bs e : ℕ) : Prop where
  walkEnd : WalkEnd b bs 0 e
  ends : e + recLenAt b e = bs
  fits : align4 (8 + nameLenAt b e) ≤ recLenAt b e

theorem LastRecord.endsAt (h : LastRecord b bs o init) : EndsAt b bs o :=
  ⟨h.walkEnd, h.ends, h.valid.2⟩

theorem lastTurn_eq (hends : e + recLenAt b e = bs)
    (hfits : align4 (8 + nameLenAt b e) ≤ recLenAt b e) :
    lastTurn p bs name n b e = if slackAt b e < recordSize name then Program.throw .noSpace
      else pure (withRecord b e name n) := by
  have halign := le_align4 (8 + nameLenAt b e)
  rw [lastTurn, if_neg (by omega), if_pos hends, Profile.sub_eq_some hfits]
  change (if slackAt b e < recordSize name then Program.throw .noSpace
    else if bs < e + 8 ∨ bs < e + align4 (8 + nameLenAt b e) + 8 + name.length then
      Program.ofOption none
    else pure (withRecord b e name n) : FsProgram Bytes) = _
  by_cases hspace : slackAt b e < recordSize name
  · rw [if_pos hspace, if_pos hspace]
  · have hname := le_align4 (8 + name.length)
    have hroom : ¬ (bs < e + 8 ∨ bs < e + align4 (8 + nameLenAt b e) + 8 + name.length) := by
      unfold slackAt recordSize at hspace
      omega
    rw [if_neg hspace, if_neg hspace, if_neg hroom]

end

/-! ### The new record -/

section

variable {b : Bytes} {o alignedLen spaceLeft n i : ℕ} {name : List Byte}

theorem appendRecord_of_outside (h1 : i < o + 4 ∨ o + 6 ≤ i)
    (h2 : i < o + alignedLen ∨ o + alignedLen + 8 + name.length ≤ i) :
    appendRecord b o alignedLen spaceLeft name n i = b i := by
  unfold appendRecord
  rw [splice_of_outside (by omega), put_of_outside (by omega),
    put_of_outside (by omega), put_of_outside (by omega),
    put_of_outside (by omega), put_of_outside (by omega)]

theorem recLenAt_appendRecord (h : 8 ≤ alignedLen) (hlt : alignedLen < 2 ^ 16) :
    recLenAt (appendRecord b o alignedLen spaceLeft name n) o = alignedLen := by
  unfold recLenAt appendRecord
  rw [get_splice_of_disjoint (by omega), get_put_of_disjoint (by omega),
    get_put_of_disjoint (by omega), get_put_of_disjoint (by omega),
    get_put_of_disjoint (by omega), get_put]
  exact Nat.mod_eq_of_lt hlt

theorem recLenAt_appendRecord_new (hlt : spaceLeft < 2 ^ 16) :
    recLenAt (appendRecord b o alignedLen spaceLeft name n) (o + alignedLen)
      = spaceLeft := by
  unfold recLenAt appendRecord
  rw [get_splice_of_disjoint (by omega), get_put_of_disjoint (by omega),
    get_put_of_disjoint (by omega), get_put]
  exact Nat.mod_eq_of_lt hlt

theorem nameLenAt_appendRecord_new (hname : name.length < 256) :
    nameLenAt (appendRecord b o alignedLen spaceLeft name n) (o + alignedLen)
      = name.length := by
  unfold nameLenAt appendRecord
  rw [get_splice_of_disjoint (by omega), get_put_of_disjoint (by omega), get_put]
  exact Nat.mod_eq_of_lt hname

theorem recordAt_appendRecord_new (hname : name.length < 256) (hn : n < 2 ^ 32) :
    recordAt (appendRecord b o alignedLen spaceLeft name n) (o + alignedLen)
      = ⟨n, name⟩ := by
  have hinode : (appendRecord b o alignedLen spaceLeft name n).get (o + alignedLen) 4
      = n := by
    unfold appendRecord
    rw [get_splice_of_disjoint (by omega), get_put_of_disjoint (by omega),
      get_put_of_disjoint (by omega), get_put_of_disjoint (by omega), get_put]
    exact Nat.mod_eq_of_lt hn
  have hbytes : (appendRecord b o alignedLen spaceLeft name n).slice
      (o + alignedLen + 8) name.length = name := slice_splice ..
  rw [recordAt, nameLenAt_appendRecord_new hname, hinode, hbytes]

/-- The last record of a block is shrunk, the new one takes its padding. -/
theorem tiled_appendRecord (hv : ValidRecord b o) (hlt : recLenAt b o < 2 ^ 16)
    (hspace : align4 (8 + name.length) ≤ recLenAt b o - align4 (8 + nameLenAt b o))
    (hname : name.length < 256) (hn : n < 2 ^ 32) :
    Tiled (appendRecord b o (align4 (8 + nameLenAt b o))
      (recLenAt b o - align4 (8 + nameLenAt b o)) name n) o (o + recLenAt b o)
      [recordAt b o, ⟨n, name⟩] := by
  have hal := le_align4 (8 + nameLenAt b o)
  have hvalid := hv.2
  -- the old record, shrunk
  have hrec := @recLenAt_appendRecord b o (align4 (8 + nameLenAt b o))
    (recLenAt b o - align4 (8 + nameLenAt b o)) n name (by omega) (by omega)
  generalize hb' : appendRecord b o (align4 (8 + nameLenAt b o))
    (recLenAt b o - align4 (8 + nameLenAt b o)) name n = b' at hrec ⊢
  have hkeep : ∀ i, i < o + 4 ∨ o + 6 ≤ i → i < o + align4 (8 + nameLenAt b o) → b' i = b i :=
    fun i h1 h2 => hb' ▸ appendRecord_of_outside h1 (.inl h2)
  obtain ⟨hnameLen, hold⟩ : nameLenAt b' o = nameLenAt b o ∧ recordAt b' o = recordAt b o :=
    recordAt_congr fun i _ h1 h2 => hkeep i h1 (by omega)
  -- the new one
  have hnewLen : recLenAt b' (o + align4 (8 + nameLenAt b o))
      = recLenAt b o - align4 (8 + nameLenAt b o) :=
    hb' ▸ recLenAt_appendRecord_new (by omega)
  have hnewName : nameLenAt b' (o + align4 (8 + nameLenAt b o)) = name.length :=
    hb' ▸ nameLenAt_appendRecord_new hname
  have hnew : recordAt b' (o + align4 (8 + nameLenAt b o)) = ⟨n, name⟩ :=
    hb' ▸ recordAt_appendRecord_new hname hn
  rw [← hold, ← hnew]
  refine .cons ⟨?_, ?_⟩ ?_
  · rw [hrec]
    exact four_dvd_align4 _
  · rw [hrec, hnameLen]
  · rw [hrec]
    refine .cons ⟨?_, ?_⟩ ?_
    · rw [hnewLen]
      exact Nat.dvd_sub hv.1 (four_dvd_align4 _)
    · rw [hnewLen, hnewName]
      exact hspace
    · rw [hnewLen]
      have hend : o + align4 (8 + nameLenAt b o) + (recLenAt b o - align4 (8 + nameLenAt b o))
          = o + recLenAt b o := by omega
      rw [hend]
      exact .nil _

/-- **The block with the new record** is tiled by the old records and the new one. -/
theorem LastRecord.tiled_append {bs : ℕ} {init : List DirRecord} (h : LastRecord b bs o init)
    (hspace : recordSize name ≤ slackAt b o) (hname : name.length < 256) (hn : n < 2 ^ 32) :
    Tiled (withRecord b o name n) 0 bs (init ++ [recordAt b o] ++ [⟨n, name⟩]) := by
  have hlast := tiled_appendRecord h.valid (get_lt ..) hspace hname hn
  rw [h.ends] at hlast
  -- the records before the last one are as they were
  have hinit : Tiled (withRecord b o name n) 0 o init :=
    h.before.congr fun i _ hi => appendRecord_of_outside (by omega) (by omega)
  rw [List.append_assoc]
  exact hinit.append hlast

end

/-! ### `addEntry` on a device -/

/-- The first block of a directory is the run of sectors at `lba`. -/
structure FirstBlock (p : Profile) (node : Ext4Node) (bs lba : ℕ) : Prop where
  directory : node.isDirectory = true
  blockSize_eq : node.volume.blockSize p = some bs
  sector : node.volume.logicalToPhysicalSector p node.inode 0 = some (some lba)
  bound : lba + bs / 512 < 2 ^ 64

section

variable {p : Profile} {v : Ext4Volume} {node : Ext4Node} {bs lba n o : ℕ} {d : BlockDevice}
  {E : FsError → BlockDevice → Prop} {F : BlockDevice → Prop} {name : String}
  {recs init : List DirRecord}

theorem FirstBlock.mul_eq (h : FirstBlock p node bs lba) : bs / 512 * 512 = bs :=
  Nat.div_mul_cancel (Nat.dvd_trans (by decide) (dvd_of_blockSize h.blockSize_eq))

theorem Layout.sector_bound {inode : Ext4Inode} {l : ℕ} (hl : Layout p v bs)
    (h : v.logicalToPhysicalSector p inode l = some (some lba)) : lba + bs / 512 < 2 ^ 64 := by
  rw [Ext4Volume.logicalToPhysicalSector, hl.blockSize_eq, Option.bind_some] at h
  obtain ⟨found, hfound, h⟩ := Option.bind_eq_some_iff.mp h
  cases found with
  | none => cases h
  | some block =>
    have hblock := (physicalBlock_lt hfound).2
    have hlt := hl.sectorOf_lt hblock
    dsimp only at h
    rw [hl.blockSector_eq hblock, Option.map_some] at h
    cases h
    omega

theorem FirstBlock.of_layout (hl : Layout p node.volume bs) (hdir : node.isDirectory = true)
    (hsector : node.volume.logicalToPhysicalSector p node.inode 0 = some (some lba)) :
    FirstBlock p node bs lba :=
  ⟨hdir, hl.blockSize_eq, hsector, hl.sector_bound hsector⟩

/-- The buffer that a block is read into. -/
def blockBuffer (sectors : ℕ → Bytes) (lba bs : ℕ) : Bytes :=
  fill sectors lba 0 (bs / 512) fun _ => 0

variable (h : FirstBlock p node bs lba)
include h

variable {sectors : ℕ → Bytes}

theorem FirstBlock.blockBuffer_eq {i : ℕ}
    (hi : i < bs) : blockBuffer sectors lba bs i = runBytes sectors lba i := by
  have hmul := h.mul_eq
  unfold blockBuffer fill
  rw [if_pos (by omega)]

theorem FirstBlock.addEntry_run : (∃ j < bs / 512, d.fails (d.accesses.length + j) = true ∧
      ∃ d', SameDisk d d' ∧ node.addEntry p name n d = .err .blockRead d') ∨
    ∃ d₁, SameDisk d d₁ ∧ d₁.accesses.length = d.accesses.length + bs / 512 ∧
      (∀ j < bs / 512, d.fails (d.accesses.length + j) = false) ∧
      ∀ e, WalkEnd (blockBuffer d.sectors lba bs) bs 0 e →
        node.addEntry p name n d
          = (lastTurn p bs (nameBytes name) n (blockBuffer d.sectors lba bs) e >>= fun updated =>
            writeSectors p lba updated (bs / 512) 0) d₁ := by
  have hstart : node.addEntry p name n d = (readSectors p lba (bs / 512) 0 (fun _ => 0) >>=
      fun buffer => addEntryLoop p bs (nameBytes name) n buffer (bs + 1) 0 >>=
        fun updated => writeSectors p lba updated (bs / 512) 0) d := by
    unfold addEntry
    rw [h.directory, if_neg (by decide), h.blockSize_eq, h.sector]
    rfl
  have hbound := h.bound
  have hread : lba + (0 + bs / 512) < 2 ^ 64 := by omega
  rw [hstart]
  rcases @readSectors_run (bs / 512) p lba 0 (fun _ => 0) d hread with
    ⟨d₁, hsame, hlen, hnone, hrun⟩ | ⟨j, hj, hfail, d', hsame, hrun⟩
  · refine .inr ⟨d₁, hsame, hlen, hnone, fun e he => ?_⟩
    rw [bind_of_ok hrun]
    change (addEntryLoop p bs (nameBytes name) n (blockBuffer d.sectors lba bs) (bs + 1) 0
      >>= _) d₁ = _
    rw [addEntryLoop_eq he (by omega)]
  · exact .inl ⟨j, hj, hfail, d', hsame, bind_of_err hrun⟩

/-- **`addEntry` on a device without errors**: where the walk finds a last record, its padding
decides between `noSpace` and a new record. -/
theorem FirstBlock.addEntry_of_endsAt (hd : d.Reliable)
    (hlast : EndsAt (blockBuffer d.sectors lba bs) bs o) :
    ∃ d', d'.Reliable ∧
      ((slackAt (blockBuffer d.sectors lba bs) o < recordSize (nameBytes name) ∧
          d'.sectors = d.sectors ∧ node.addEntry p name n d = .err .noSpace d') ∨
        recordSize (nameBytes name) ≤ slackAt (blockBuffer d.sectors lba bs) o ∧
          d'.sectors = storeSectors d.sectors lba (bs / 512)
            (withRecord (blockBuffer d.sectors lba bs) o (nameBytes name) n) ∧
          node.addEntry p name n d = .ok () d') := by
  have hbound := h.bound
  rcases @FirstBlock.addEntry_run p node bs lba n d name h with
    ⟨j, _, hfail, _⟩ | ⟨d₁, hsame, _, _, hrun⟩
  · rw [hd] at hfail
    cases hfail
  rw [hrun o hlast.walkEnd, lastTurn_eq hlast.ends hlast.fits]
  by_cases hspace : slackAt (blockBuffer d.sectors lba bs) o < recordSize (nameBytes name)
  · rw [if_pos hspace]
    exact ⟨d₁, hsame.reliable hd, .inl ⟨hspace, hsame.sectors, rfl⟩⟩
  rw [if_neg hspace]
  generalize withRecord (blockBuffer d.sectors lba bs) o (nameBytes name) n = updated
  have hwrite : lba + (0 + bs / 512) < 2 ^ 64 := by omega
  rcases @writeSectors_run (bs / 512) p lba updated 0 d₁ hwrite with
    ⟨d₂, hfails, hstored, _, hrun₂⟩ | ⟨k, _, hfail, _⟩
  · refine ⟨d₂, fun i => ?_, .inr ⟨Nat.le_of_not_lt hspace, ?_, hrun₂⟩⟩
    · rw [hfails]
      exact hsame.reliable hd i
    · simpa [hsame.sectors] using hstored
  · rw [hsame.reliable hd] at hfail
    cases hfail

theorem FirstBlock.lastRecord_buffer (hlast : LastRecord (runBytes sectors lba) bs o init) :
    LastRecord (blockBuffer sectors lba bs) bs o init ∧
      slackAt (blockBuffer sectors lba bs) o = slackAt (runBytes sectors lba) o ∧
      recordAt (blockBuffer sectors lba bs) o = recordAt (runBytes sectors lba) o := by
  have hlt := hlast.lt
  have hsame : ∀ i < bs, blockBuffer sectors lba bs i = runBytes sectors lba i :=
    fun i hi => h.blockBuffer_eq hi
  have hlast' := hlast.congr hsame
  have hrec : recLenAt (blockBuffer sectors lba bs) o = recLenAt (runBytes sectors lba) o :=
    get_congr fun i h1 h2 => hsame i (by omega)
  have hname : nameLenAt (blockBuffer sectors lba bs) o = nameLenAt (runBytes sectors lba) o :=
    get_congr fun i h1 h2 => hsame i (by omega)
  have hboth := hlast'.tiled.unique (hlast.tiled.congr fun i _ hi => hsame i hi)
  refine ⟨hlast', by rw [slackAt, slackAt, hrec, hname], ?_⟩
  exact List.singleton_inj.mp (List.append_cancel_left hboth)

theorem FirstBlock.wp_addEntry (hpos : 0 < bs)
    (ht : Tiled (runBytes d.sectors lba) 0 bs recs) (hname : (nameBytes name).length < 256)
    (hn : n < 2 ^ 32) {Q : Unit → BlockDevice → Prop} (hd : d.Reliable)
    (hQ : ∀ updated d', d'.Reliable → Tiled updated 0 bs (recs ++ [⟨n, nameBytes name⟩]) →
      d'.sectors = storeSectors d.sectors lba (bs / 512) updated → Q () d')
    (hE : ∀ d', d'.Reliable → d'.sectors = d.sectors → E .noSpace d') :
    wp (node.addEntry p name n) Q E F d := by
  obtain ⟨o, init, hlast, hrecs⟩ := ht.exists_lastRecord hpos
  obtain ⟨hlast', _, hrecord⟩ := h.lastRecord_buffer hlast
  obtain ⟨d', hd', ⟨_, hsectors, hrun⟩ | ⟨hspace, hsectors, hrun⟩⟩ :=
    @FirstBlock.addEntry_of_endsAt p node bs lba n o d name h hd hlast'.endsAt
  · unfold wp
    rw [hrun]
    exact hE d' hd' hsectors
  · have htiled := hlast'.tiled_append hspace hname hn
    rw [hrecord, ← hrecs] at htiled
    rw [wp_iff_of_ok hrun]
    exact hQ _ d' hd' htiled hsectors

omit h

/-- **`addEntry` appends exactly one entry.**  On a device without errors a directory whose first
block is tiled by `recs` either has too little padding behind its last record, and nothing changes,
or gets the new record behind the others, in the same sectors. -/
theorem addEntry_appends (hl : Layout p node.volume bs) (hdir : node.isDirectory = true)
    (hsector : node.volume.logicalToPhysicalSector p node.inode 0 = some (some lba))
    (ht : Tiled (runBytes d.sectors lba) 0 bs recs) (hname : (nameBytes name).length ≤ 255)
    (hn : n < 2 ^ 32) (hd : d.Reliable) :
    ∃ o init, LastRecord (runBytes d.sectors lba) bs o init ∧
      recs = init ++ [recordAt (runBytes d.sectors lba) o] ∧
      ∃ d', (slackAt (runBytes d.sectors lba) o < recordSize (nameBytes name) ∧
          node.addEntry p name n d = .err .noSpace d' ∧ d'.sectors = d.sectors) ∨
        recordSize (nameBytes name) ≤ slackAt (runBytes d.sectors lba) o ∧
          node.addEntry p name n d = .ok () d' ∧
          Tiled (runBytes d'.sectors lba) 0 bs (recs ++ [⟨n, nameBytes name⟩]) ∧
          ∀ s, s < lba ∨ lba + bs / 512 ≤ s → d'.sectors s = d.sectors s := by
  have hblock := FirstBlock.of_layout hl hdir hsector
  have hmul := hblock.mul_eq
  obtain ⟨o, init, hlast, hrecs⟩ := ht.exists_lastRecord hl.pos
  obtain ⟨hlast', hslack, hrecord⟩ := hblock.lastRecord_buffer hlast
  refine ⟨o, init, hlast, hrecs, ?_⟩
  rw [← hslack]
  obtain ⟨d', hd', ⟨hspace, hsectors, hrun⟩ | ⟨hspace, hsectors, hrun⟩⟩ :=
    @FirstBlock.addEntry_of_endsAt p node bs lba n o d name hblock hd hlast'.endsAt
  · exact ⟨d', .inl ⟨hspace, hrun, hsectors⟩⟩
  · refine ⟨d', .inr ⟨hspace, hrun, ?_, fun s hs => ?_⟩⟩
    · have htiled := hlast'.tiled_append hspace (Nat.lt_succ_of_le hname) hn
      rw [hrecord, ← hrecs] at htiled
      refine htiled.congr fun i _ hi => ?_
      rw [hsectors, runBytes_storeSectors (by omega)]
    · rw [hsectors, storeSectors_of_outside hs]

end

/-! ### A directory of one block -/

/-- The directory in block 20 of a volume with 1 KiB blocks. -/
def sampleDir : Ext4Node :=
  ⟨⟨0, ⟨16, 0, 16, 0xEF53, sixteen_lt, sixteen_lt⟩⟩, 2, buildFileInode 1024 20, true, 1024⟩

/-- The device on which its block holds the given bytes. -/
def sampleDevice (block : Bytes) : BlockDevice :=
  ⟨fun s o => if 40 ≤ s ∧ s < 42 then block ((s - 40) * 512 + o) else 0, [], fun _ => false⟩

/-- The block with the record of the directory itself. -/
def dotBlock : Bytes :=
  Bytes.splice (Bytes.putAll (fun _ => 0) [(0, 4, 2), (4, 2, 1024), (6, 1, 1), (7, 1, 2)]) 8 [0x2E]

theorem sampleDir_layout {p : Profile} : Layout p sampleDir.volume 1024 :=
  ⟨by cases p <;> rfl, by decide, by decide, by decide⟩

theorem sampleDir_sector {p : Profile} :
    sampleDir.volume.logicalToPhysicalSector p sampleDir.inode 0 = some (some 40) := by
  have hmap : sampleDir.inode.physicalBlock p 0 = some (some 20) :=
    physicalBlock_buildFileInode (by decide) 0
  rw [logicalToPhysicalSector_eq sampleDir_layout hmap]
  rfl

theorem runBytes_sampleDevice {block : Bytes} {i : ℕ} (hi : i < 1024) :
    runBytes (sampleDevice block).sectors 40 i = block i := by
  have hin : 40 ≤ 40 + i / 512 ∧ 40 + i / 512 < 42 := by omega
  have hoff : (40 + i / 512 - 40) * 512 + i % 512 = i := by omega
  unfold runBytes sampleDevice
  dsimp only
  rw [if_pos hin, hoff]

theorem dotBlock_last : LastRecord (runBytes (sampleDevice dotBlock).sectors 40) 1024 0 [] := by
  have hblock : LastRecord dotBlock 1024 0 [] :=
    ⟨.nil 0, ⟨by decide +kernel, by decide +kernel⟩, by decide +kernel⟩
  exact hblock.congr fun i hi => runBytes_sampleDevice hi

theorem addEntry_appends_dotBlock : ∃ d',
    sampleDir.addEntry .dev "a" 11 (sampleDevice dotBlock) = .ok () d' ∧
      Tiled (runBytes d'.sectors 40) 0 1024 [⟨2, [0x2E]⟩, ⟨11, nameBytes "a"⟩] := by
  have hrecs : [recordAt (runBytes (sampleDevice dotBlock).sectors 40) 0] = [⟨2, [0x2E]⟩] := by
    decide +kernel
  have ht := dotBlock_last.tiled
  rw [List.nil_append, hrecs] at ht
  obtain ⟨o, init, hlast, _, d', ⟨hspace, _⟩ | ⟨_, hrun, htiled, _⟩⟩ :=
    addEntry_appends (p := .dev) sampleDir_layout rfl sampleDir_sector ht
      (by decide +kernel : (nameBytes "a").length ≤ 255) (by decide : 11 < 2 ^ 32) fun _ => rfl
  · rw [hlast.walkEnd.unique dotBlock_last.walkEnd] at hspace
    exact absurd hspace (by decide +kernel)
  · exact ⟨d', hrun, htiled⟩

end NwinOs.Fs.Ext4
