import NwinOs.Fs.Ext4.Equiv.Directory

/-!
# What a failed `addEntry` leaves behind

The updated block is written back sector by sector, so a write that fails leaves the sectors before
it updated (`FirstBlock.addEntry_err`).  Nothing has changed as long as the sector with the length
field of the last record is not among them.  Once it is, the last record is shrunk on disk, and the
padding it gave up is lost for the entries that are added later
(`failed_addEntry_keeps_directory_iff`).
-/

namespace NwinOs.Fs.Ext4

open Effect

/-! ### Entries and later calls -/

/-- The entries that the loop of `lookup` comes by in a directory of `stop` bytes. -/
def entriesFrom (b : Bytes) (stop : ℕ) : ℕ → ℕ → List DirRecord
  | 0, _ => []
  | fuel + 1, o =>
    if stop ≤ o ∨ recLenAt b o = 0 then []
    else if (recordAt b o).inode = 0 then entriesFrom b stop fuel (o + recLenAt b o)
    else if stop < o + 8 + nameLenAt b o then []
    else recordAt b o :: entriesFrom b stop fuel (o + recLenAt b o)

def entries (b : Bytes) (stop : ℕ) : List DirRecord := entriesFrom b stop stop 0

/-- The call succeeds once no access fails any more. -/
def Accepts (p : Profile) (node : Ext4Node) (d : BlockDevice) (name : String) (n : ℕ) : Prop :=
  ∃ d', node.addEntry p name n d.healed = .ok () d'

/-- A walk of the directory's first block yields the same entries, and later calls succeed on the
one device where they do on the other. -/
structure SameDirectory (p : Profile) (node : Ext4Node) (bs lba : ℕ) (d d' : BlockDevice) :
    Prop where
  entries_eq : entries (runBytes d'.sectors lba) bs = entries (runBytes d.sectors lba) bs
  accepts_iff : ∀ name n, Accepts p node d' name n ↔ Accepts p node d name n

section

variable {p : Profile} {node : Ext4Node} {bs lba n o e : ℕ} {d d' : BlockDevice} {name : String}
  {init : List DirRecord} {b : Bytes}

theorem lastTurn_ok {u : Bytes} {name : List Byte} (h : lastTurn p bs name n b e d = .ok u d') :
    e + recLenAt b e = bs ∧ align4 (8 + nameLenAt b e) ≤ recLenAt b e ∧
      recordSize name ≤ slackAt b e ∧ u = withRecord b e name n ∧ d' = d := by
  unfold lastTurn at h
  by_cases hheader : bs < e + 7
  · rw [if_pos hheader] at h
    cases h
  rw [if_neg hheader] at h
  by_cases hlast : e + recLenAt b e = bs
  · rw [if_pos hlast] at h
    obtain ⟨space, d₁, hsub, hturn⟩ := bind_ok h
    split_ifs at hturn with hspace hroom
    · cases hturn
    · cases hturn
    · cases hturn
      -- a difference that wraps around leaves no room for the new record
      have hle : align4 (8 + nameLenAt b e) ≤ recLenAt b e := by omega
      rw [Profile.sub_eq_some hle] at hsub
      cases hsub
      exact ⟨hlast, hle, Nat.le_of_not_lt hspace, rfl, rfl⟩
  · rw [if_neg hlast] at h
    cases h

section

variable (h : FirstBlock p node bs lba)
include h

theorem FirstBlock.not_accepts (hwalks : Walks (blockBuffer d.sectors lba bs) bs 0 e)
    (hroom : bs < e + 8 + recordSize (nameBytes name)) : ¬ Accepts p node d name n := by
  rintro ⟨d', hok⟩
  obtain ⟨stop, hstop⟩ := exists_walkEnd (blockBuffer d.sectors lba bs) bs 0
  have hle := (hstop.walks_of_walks hwalks).le
  rcases @FirstBlock.addEntry_run p node bs lba n d.healed name h with
    ⟨j, _, hfail, _⟩ | ⟨d₁, hsame, _, _, hrun⟩
  · cases hfail
  · rw [hrun stop hstop] at hok
    obtain ⟨u, d₂, hturn, _⟩ := bind_ok hok
    obtain ⟨hends, halign, hspace, _⟩ := lastTurn_ok hturn
    have hheader := le_align4 (8 + nameLenAt (blockBuffer d.healed.sectors lba bs) stop)
    unfold slackAt at hspace
    omega

section

variable (hlast : LastRecord (blockBuffer d.sectors lba bs) bs o init)
include hlast

theorem FirstBlock.accepts_iff :
    Accepts p node d name n
      ↔ recordSize (nameBytes name) ≤ slackAt (blockBuffer d.sectors lba bs) o := by
  obtain ⟨d', _, ⟨hspace, _, hrun⟩ | ⟨hspace, _, hrun⟩⟩ :=
    @FirstBlock.addEntry_of_endsAt p node bs lba n o d.healed name h d.healed_reliable hlast.endsAt
  · unfold Accepts
    rw [hrun]
    constructor
    · rintro ⟨_, hok⟩
      cases hok
    · exact fun hle => absurd hspace (Nat.not_lt_of_le hle)
  · exact ⟨fun _ => hspace, fun _ => ⟨d', hrun⟩⟩

/-! ### The sectors that were written -/

/-- How `addEntry` fails on a tiled block: before it writes, or at one of its writes. -/
theorem FirstBlock.addEntry_err {err : FsError} (hfail : node.addEntry p name n d = .err err d') :
    (d'.sectors = d.sectors ∧
      (slackAt (blockBuffer d.sectors lba bs) o < recordSize (nameBytes name) ∨
        ∃ j < bs / 512, d.fails (d.accesses.length + j) = true)) ∨
    recordSize (nameBytes name) ≤ slackAt (blockBuffer d.sectors lba bs) o ∧
      ∃ k < bs / 512, d.fails (d.accesses.length + (bs / 512 + k)) = true ∧
        (∀ j < bs / 512 + k, d.fails (d.accesses.length + j) = false) ∧
        d'.sectors = storeSectors d.sectors lba k
          (withRecord (blockBuffer d.sectors lba bs) o (nameBytes name) n) := by
  have hbound := h.bound
  rcases @FirstBlock.addEntry_run p node bs lba n d name h with
    ⟨j, hj, hread, d₁, hsame, hrun⟩ | ⟨d₁, hsame, hlen, hreads, hrun⟩
  · rw [hrun] at hfail
    cases hfail
    exact .inl ⟨hsame.sectors, .inr ⟨j, hj, hread⟩⟩
  rw [hrun o hlast.walkEnd, lastTurn_eq hlast.ends hlast.valid.2] at hfail
  by_cases hspace : slackAt (blockBuffer d.sectors lba bs) o < recordSize (nameBytes name)
  · rw [if_pos hspace] at hfail
    cases hfail
    exact .inl ⟨hsame.sectors, .inl hspace⟩
  rw [if_neg hspace] at hfail
  refine .inr ⟨Nat.le_of_not_lt hspace, ?_⟩
  generalize withRecord (blockBuffer d.sectors lba bs) o (nameBytes name) n = updated at hfail ⊢
  change writeSectors p lba updated (bs / 512) 0 d₁ = _ at hfail
  have hwrite : lba + (0 + bs / 512) < 2 ^ 64 := by omega
  rcases @writeSectors_run (bs / 512) p lba updated 0 d₁ hwrite with
    ⟨d₂, _, _, _, hrun₂⟩ | ⟨k, hk, hfails, hnone, d₂, _, hstored, hrun₂⟩
  · rw [hrun₂] at hfail
    cases hfail
  rw [hrun₂] at hfail
  cases hfail
  rw [hsame.fails, hlen] at hfails hnone
  refine ⟨k, hk, ?_, fun j hj => ?_, ?_⟩
  · rw [← Nat.add_assoc]
    exact hfails
  · by_cases hread : j < bs / 512
    · exact hreads j hread
    · have hwritten := hnone (j - bs / 512) (by omega)
      have hindex : d.accesses.length + bs / 512 + (j - bs / 512) = d.accesses.length + j := by
        omega
      rwa [hindex] at hwritten
  · simpa [hsame.sectors] using hstored

end

end

theorem withRecord_of_lt {name : List Byte} {i : ℕ} (hi : i < o + 4) :
    withRecord b o name n i = b i := by
  have halign := le_align4 (8 + nameLenAt b o)
  exact appendRecord_of_outside (.inl hi) (.inl (by omega))

theorem walks_of_shrunk {b' : Bytes} {name : List Byte} (hlast : LastRecord b bs o init)
    (hspace : recordSize name ≤ slackAt b o)
    (hnew : ∀ i < o + 6, b' i = withRecord b o name n i) :
    Walks b' bs 0 (o + align4 (8 + nameLenAt b o)) := by
  have halign := le_align4 (8 + nameLenAt b o)
  have hname := le_align4 (8 + name.length)
  have hends := hlast.ends
  have hbound : recLenAt b o < 2 ^ 16 := Bytes.get_lt ..
  unfold slackAt recordSize at hspace
  have hlen : recLenAt b' o = align4 (8 + nameLenAt b o) := by
    have hshrunk : recLenAt (withRecord b o name n) o = align4 (8 + nameLenAt b o) :=
      recLenAt_appendRecord (by omega) (by omega)
    rw [← hshrunk]
    exact Bytes.get_congr fun i h1 h2 => hnew i (by omega)
  have hbefore : Tiled b' 0 o init := by
    refine hlast.before.congr fun i _ hi => ?_
    rw [hnew i (by omega), withRecord_of_lt (by omega)]
  refine (hbefore.walks (by omega)).tail ⟨by omega, ?_, ?_, by omega⟩
  · omega
  · rw [hlen]

theorem length_nameBytes_replicate (length : ℕ) :
    (nameBytes (String.ofList (List.replicate length 'a'))).length = length := by
  unfold nameBytes
  rw [List.length_map, Array.length_toList]
  change (String.ofList (List.replicate length 'a')).utf8ByteSize = length
  induction length with
  | zero => rfl
  | succ length ih =>
    have hone : (String.ofList ['a']).utf8ByteSize = 1 := by decide
    rw [List.replicate_succ, ← List.singleton_append, String.ofList_append,
      String.utf8ByteSize_append, ih, hone, Nat.add_comm]

theorem LastRecord.exists_name (h : LastRecord b bs o init) (hslack : 8 ≤ slackAt b o) :
    ∃ name, recordSize (nameBytes name) = slackAt b o := by
  have hdvd : 4 ∣ slackAt b o := Nat.dvd_sub h.valid.1 (four_dvd_align4 _)
  refine ⟨String.ofList (List.replicate (slackAt b o - 8) 'a'), ?_⟩
  rw [recordSize, length_nameBytes_replicate, align4]
  omega

/-- **When a failed `addEntry` leaves the directory as it was.**  It does if the padding was too
small, or if a read failed or a write no later than that of the sector with the length field of the
last record, and in no other case. -/
theorem failed_addEntry_keeps_directory_iff (hl : Layout p node.volume bs)
    (hdir : node.isDirectory = true)
    (hsector : node.volume.logicalToPhysicalSector p node.inode 0 = some (some lba))
    (hlast : LastRecord (runBytes d.sectors lba) bs o init) {err : FsError}
    (hfail : node.addEntry p name n d = .err err d') :
    SameDirectory p node bs lba d d' ↔
      slackAt (runBytes d.sectors lba) o < recordSize (nameBytes name) ∨
        ∃ j ≤ bs / 512 + (o + 4) / 512, d.fails (d.accesses.length + j) = true := by
  have hblock := FirstBlock.of_layout hl hdir hsector
  have hmul := hblock.mul_eq
  have hdvd := hlast.four_dvd
  obtain ⟨hlast', hslack, _⟩ := hblock.lastRecord_buffer hlast
  rw [← hslack]
  -- as long as the sectors are what they were, so is the directory
  have hsame : d'.sectors = d.sectors → SameDirectory p node bs lba d d' := by
    intro hsectors
    refine ⟨by rw [hsectors], fun name n => ?_⟩
    have hlast₂ : LastRecord (blockBuffer d'.sectors lba bs) bs o init := by
      rw [hsectors]
      exact hlast'
    rw [hblock.accepts_iff hlast', hblock.accepts_iff hlast₂, hsectors]
  rcases hblock.addEntry_err hlast' hfail with
    ⟨hsectors, hcause⟩ | ⟨hspace, k, hk, hfails, hnone, hstored⟩
  · refine ⟨fun _ => ?_, fun _ => hsame hsectors⟩
    rcases hcause with hsmall | ⟨j, hj, hread⟩
    · exact .inl hsmall
    · exact .inr ⟨j, by omega, hread⟩
  by_cases hearly : k ≤ (o + 4) / 512
  · -- the sectors that were written held these bytes already
    refine ⟨fun _ => .inr ⟨bs / 512 + k, by omega, hfails⟩, fun _ => hsame ?_⟩
    rw [hstored]
    refine storeSectors_same fun i hi => ?_
    rw [withRecord_of_lt (by omega), hblock.blockBuffer_eq (by omega)]
  · constructor
    · intro hdirectory
      have hneed := le_align4 (8 + (nameBytes name).length)
      obtain ⟨filler, hfiller⟩ := hlast'.exists_name (by unfold recordSize at hspace; omega)
      have hbefore : Accepts p node d filler n := (hblock.accepts_iff hlast').mpr hfiller.le
      have hwalks : Walks (blockBuffer d'.sectors lba bs) bs 0
          (o + align4 (8 + nameLenAt (blockBuffer d.sectors lba bs) o)) := by
        have hlt := hlast'.lt
        refine walks_of_shrunk (n := n) hlast' hspace fun i hi => ?_
        rw [hblock.blockBuffer_eq (by omega), hstored, runBytes_storeSectors (by omega)]
      have hafter : ¬ Accepts p node d' filler n := by
        refine hblock.not_accepts hwalks ?_
        have hends := hlast'.ends
        rw [hfiller]
        unfold slackAt
        omega
      exact absurd ((hdirectory.accepts_iff filler n).mpr hbefore) hafter
    · rintro (hsmall | ⟨j, hj, hfailed⟩)
      · exact absurd hsmall (Nat.not_lt_of_le hspace)
      · rw [hnone j (by omega)] at hfailed
        cases hfailed

end

/-- The sample directory on a device whose `k`-th access fails. -/
def failingDevice (k : ℕ) : BlockDevice := { sampleDevice dotBlock with fails := fun i => i == k }

/-- The first write fails: nothing has changed. -/
theorem failed_addEntry_keeps_dotBlock : ∃ d',
    sampleDir.addEntry .dev "a" 11 (failingDevice 2) = .err .blockWrite d' ∧
      SameDirectory .dev sampleDir 1024 40 (failingDevice 2) d' := by
  have hrun : (match sampleDir.addEntry .dev "a" 11 (failingDevice 2) with
      | .err .blockWrite _ => true
      | _ => false) = true := by decide +kernel
  split at hrun
  · rename_i d' hfail
    refine ⟨d', hfail, ?_⟩
    have hlast : LastRecord (runBytes (failingDevice 2).sectors 40) 1024 0 [] := dotBlock_last
    exact (failed_addEntry_keeps_directory_iff sampleDir_layout rfl sampleDir_sector hlast
      hfail).mpr (.inr ⟨2, by decide, rfl⟩)
  · cases hrun

/-- The second write fails: the entry is there all the same. -/
theorem failed_addEntry_leaves_entry :
    LastRecord (runBytes (failingDevice 3).sectors 40) 1024 0 [] ∧
      ∃ d', sampleDir.addEntry .dev "a" 11 (failingDevice 3) = .err .blockWrite d' ∧
        entries (runBytes d'.sectors 40) 1024
          ≠ entries (runBytes (failingDevice 3).sectors 40) 1024 := by
  refine ⟨dotBlock_last, ?_⟩
  have hrun : (match sampleDir.addEntry .dev "a" 11 (failingDevice 3) with
      | .err .blockWrite d' => entries (runBytes d'.sectors 40) 1024
      | _ => []) = [⟨2, [0x2E]⟩, ⟨11, nameBytes "a"⟩] := by decide +kernel
  have hbefore : entries (runBytes (failingDevice 3).sectors 40) 1024 = [⟨2, [0x2E]⟩] := by
    decide +kernel
  split at hrun
  · rename_i d' hfail
    refine ⟨d', hfail, ?_⟩
    rw [hrun, hbefore]
    decide +kernel
  · cases hrun

end NwinOs.Fs.Ext4
