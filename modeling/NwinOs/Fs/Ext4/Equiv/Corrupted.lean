import NwinOs.Fs.Ext4.Equiv.Failures
import NwinOs.Fs.Ext4.Equiv.LookupSafe

/-!
# The directory code on corrupted blocks

`lookup` and `addEntry` read the fields of a record before they know that it lies in the buffer, and
`addEntry` subtracts and stores lengths that nothing has checked.  Both loops end on every block;
the results below say on which blocks nothing else goes wrong.

* `FirstBlock.addEntry_safe_iff`: the walk ends at a header inside the block and, if that record
  reaches the end of the block, it is as long as its name needs; a name that is stored has at most
  255 bytes, and no record of one byte shares the length field that is shrunk (`Overlapped`).
* `Readable.lookup_safe_iff`: every header that the walk of `lookup` comes to is inside its buffer.
-/

namespace NwinOs.Fs.Ext4

open Effect Bytes

/-! ### `addEntry` -/

/-- The last record of a block is the given one. -/
structure CarriesLast (b : Bytes) (bs : ℕ) (r : DirRecord) (o : ℕ) : Prop where
  walkEnd : WalkEnd b bs 0 o
  ends : o + recLenAt b o = bs
  inside : o + 8 + r.name.length ≤ bs
  record : recordAt b o = r

/-- What is asked of `addEntry` on a device with the given sectors: it makes no fault, whichever
accesses fail, and if none fails it either returns an error and changes nothing, or the last record
of the block is the new one. -/
structure AddEntrySafe (p : Profile) (node : Ext4Node) (bs lba : ℕ) (S : ℕ → Bytes) (name : String)
    (n : ℕ) : Prop where
  not_faulted : ∀ d, d.sectors = S → (node.addEntry p name n d).faulted = false
  result : ∀ d, d.sectors = S → d.Reliable →
    (∃ err d', node.addEntry p name n d = .err err d' ∧ d'.sectors = S) ∨
      ∃ d', node.addEntry p name n d = .ok () d' ∧
        ∃ o, CarriesLast (runBytes d'.sectors lba) bs ⟨n, nameBytes name⟩ o

/-- The record before the one at `e` is one byte long, so that its length field ends with the first
byte of the length field at `e`. -/
def Overlapped (b : Bytes) (bs e : ℕ) : Prop :=
  ∃ o, Walks b bs 0 o ∧ recLenAt b o = 1 ∧ o + 1 = e

/-- The blocks on which `addEntry` is safe for a name, by the record at which the walk ends. -/
structure Sound (b : Bytes) (bs : ℕ) (name : List Byte) (e : ℕ) : Prop where
  header : e + 7 ≤ bs
  fits : e + recLenAt b e = bs → align4 (8 + nameLenAt b e) ≤ recLenAt b e
  length_le : e + recLenAt b e = bs → recordSize name ≤ slackAt b e → name.length ≤ 255
  aligned_eq : e + recLenAt b e = bs → recordSize name ≤ slackAt b e → Overlapped b bs e →
    align4 (8 + nameLenAt b e) = 256

section

variable {p : Profile} {b b' : Bytes} {bs o e n i : ℕ} {name : List Byte} {d : BlockDevice}
  {r : DirRecord}

theorem Walks.congr_of (h : Walks b bs o e)
    (hsame : ∀ m, Walks b bs o m → m < e → recLenAt b' m = recLenAt b m) : Walks b' bs o e := by
  induction h with
  | refl => exact .refl
  | @tail m e hwalks hstep ih =>
    have hnext := hstep.next
    have hnonzero := hstep.nonzero
    have hlen := hsame m hwalks (by omega)
    refine (ih fun m' hm' hlt => hsame m' hm' (by omega)).tail ⟨hstep.header, ?_, ?_, hstep.inside⟩
    · rw [hlen]
      exact hnonzero
    · rw [hlen]
      exact hnext

theorem WalkEnd.congr_of (h : WalkEnd b bs o e)
    (hsame : ∀ m, Walks b bs o m → recLenAt b' m = recLenAt b m) : WalkEnd b' bs o e := by
  refine ⟨h.walks.congr_of fun m hm _ => hsame m hm, fun o' hstep => h.stuck o' ?_⟩
  have hlen := hsame e h.walks
  exact ⟨hstep.header, hlen ▸ hstep.nonzero, hlen ▸ hstep.next, hstep.inside⟩

theorem CarriesLast.congr (h : CarriesLast b bs r o) (hsame : ∀ i < bs, b' i = b i) :
    CarriesLast b' bs r o := by
  have hinside := h.inside
  have hrec : recLenAt b' o = recLenAt b o := get_congr fun i h1 h2 => hsame i (by omega)
  have hname : nameLenAt b' o = nameLenAt b o := get_congr fun i h1 h2 => hsame i (by omega)
  have hinode : b'.get o 4 = b.get o 4 := get_congr fun i h1 h2 => hsame i (by omega)
  have hlen : nameLenAt b o = r.name.length := by
    rw [← h.record, recordAt, length_slice]
  have hbytes : b'.slice (o + 8) (nameLenAt b o) = b.slice (o + 8) (nameLenAt b o) := by
    apply slice_congr
    intro i h1 h2
    rw [Nat.add_sub_cancel]
    exact hsame i (by omega)
  refine ⟨h.walkEnd.congr hsame, by rw [hrec]; exact h.ends, hinside, ?_⟩
  rw [← h.record, recordAt, recordAt, hname, hinode, hbytes]

theorem recLenAt_eq (b : Bytes) (o : ℕ) :
    recLenAt b o = (b (o + 4)).toNat + 256 * (b (o + 5)).toNat := rfl

/-- Where the subtraction underflows, the last turn faults: it panics, or the difference wraps
around and the new record is written behind the block. -/
theorem lastTurn_underflow (hname : name.length < 2 ^ 63) (hends : e + recLenAt b e = bs)
    (hfits : recLenAt b e < align4 (8 + nameLenAt b e)) :
    (lastTurn p bs name n b e d).faulted = true := by
  have halign : align4 (8 + nameLenAt b e) ≤ 264 := by
    have hlt : nameLenAt b e < 256 := get_lt ..
    unfold align4
    omega
  have hneed : recordSize name < 2 ^ 63 + 16 := by
    unfold recordSize align4
    omega
  have hroom : bs < e + 8 ∨ bs < e + align4 (8 + nameLenAt b e) + 8 + name.length := by omega
  unfold lastTurn
  by_cases hheader : bs < e + 7
  · rw [if_pos hheader]
    rfl
  rw [if_neg hheader, if_pos hends]
  have hsub := @Profile.sub_of_lt p 64 (recLenAt b e) (align4 (8 + nameLenAt b e)) hfits (by omega)
  rcases hsub with hnone | ⟨c, hsome, hc⟩
  · rw [hnone]
    rfl
  · have hspace : ¬ c < recordSize name := by omega
    rw [hsome]
    change Outcome.faulted ((if c < recordSize name then Program.throw .noSpace
      else if bs < e + 8 ∨ bs < e + align4 (8 + nameLenAt b e) + 8 + name.length then
        Program.ofOption none
      else pure (Ext4Node.appendRecord b e (align4 (8 + nameLenAt b e)) c name n) :
        FsProgram Bytes) d) = true
    rw [if_neg hspace, if_pos hroom]
    rfl

theorem lastTurn_not_faulted_iff (hname : name.length < 2 ^ 63) :
    (lastTurn p bs name n b e d).faulted = false ↔
      e + 7 ≤ bs ∧ (e + recLenAt b e = bs → align4 (8 + nameLenAt b e) ≤ recLenAt b e) := by
  by_cases hheader : bs < e + 7
  · rw [lastTurn, if_pos hheader]
    refine ⟨fun h => ?_, fun h => absurd h.1 (Nat.not_le_of_lt hheader)⟩
    cases h
  by_cases hends : e + recLenAt b e = bs
  · by_cases hfits : align4 (8 + nameLenAt b e) ≤ recLenAt b e
    · refine ⟨fun _ => ⟨Nat.le_of_not_lt hheader, fun _ => hfits⟩, fun _ => ?_⟩
      rw [lastTurn_eq hends hfits]
      split_ifs <;> rfl
    · rw [lastTurn_underflow hname hends (Nat.lt_of_not_le hfits)]
      refine ⟨fun h => ?_, fun h => absurd (h.2 hends) hfits⟩
      cases h
  · rw [lastTurn, if_neg hheader, if_neg hends]
    exact ⟨fun _ => ⟨Nat.le_of_not_lt hheader, fun h => absurd h hends⟩, fun _ => rfl⟩

/-! The block with the new record. -/

theorem recLenAt_withRecord : recLenAt (withRecord b e name n) e = align4 (8 + nameLenAt b e) := by
  have hlt : nameLenAt b e < 256 := get_lt ..
  have hle := le_align4 (8 + nameLenAt b e)
  exact recLenAt_appendRecord (by omega) (by unfold align4; omega)

/-- The length fields before the last record stay as they are, if none of them shares a byte that
changes. -/
theorem recLenAt_withRecord_of_lt (h : EndsAt b bs e)
    (hoverlap : Overlapped b bs e → align4 (8 + nameLenAt b e) = 256) {m : ℕ}
    (hm : Walks b bs 0 m) (hlt : m < e) : recLenAt (withRecord b e name n) m = recLenAt b m := by
  by_cases hshort : m + 1 < e
  · exact get_congr fun i h1 h2 => withRecord_of_lt (by omega)
  -- the record before the last one has one byte
  have hwalks := h.walkEnd.walks_of_walks hm
  have hone : recLenAt b m = 1 := by
    rcases hwalks.cases_head with heq | ⟨c, hc, hrest⟩
    · omega
    · have hnext := hc.next
      have hnonzero := hc.nonzero
      have hle := Walks.le hrest
      omega
  have hmid : m + 1 = e := by omega
  have haligned := hoverlap ⟨m, hm, hone, hmid⟩
  have hnew := @recLenAt_withRecord b e n name
  have hfirst : withRecord b e name n (m + 4) = b (m + 4) := withRecord_of_lt (by omega)
  subst hmid
  have hshared : m + 1 + 4 = m + 5 := rfl
  rw [haligned, recLenAt_eq, hshared] at hnew
  rw [recLenAt_eq] at hone
  rw [recLenAt_eq, recLenAt_eq b, hfirst]
  omega

/-- **The new record is the last one** of the block. -/
theorem EndsAt.carriesLast (h : EndsAt b bs e) (hspace : recordSize name ≤ slackAt b e)
    (hname : name.length ≤ 255) (hn : n < 2 ^ 32)
    (hoverlap : Overlapped b bs e → align4 (8 + nameLenAt b e) = 256) :
    CarriesLast (withRecord b e name n) bs ⟨n, name⟩ (e + align4 (8 + nameLenAt b e)) := by
  have hends := h.ends
  have hhead := le_align4 (8 + nameLenAt b e)
  have hneed := le_align4 (8 + name.length)
  have hlen := @recLenAt_withRecord b e n name
  have hbound : recLenAt b e < 2 ^ 16 := get_lt ..
  unfold recordSize at hspace
  have hnew : recLenAt (withRecord b e name n) (e + align4 (8 + nameLenAt b e)) = slackAt b e :=
    recLenAt_appendRecord_new (by unfold slackAt; omega)
  have hwalks : Walks (withRecord b e name n) bs 0 e :=
    h.walkEnd.walks.congr_of fun m hm hlt => recLenAt_withRecord_of_lt h hoverlap hm hlt
  unfold slackAt at hspace hnew
  refine ⟨⟨hwalks.tail ⟨by omega, by omega, by rw [hlen], by omega⟩, fun o' hstep => ?_⟩, ?_, ?_,
    recordAt_appendRecord_new (by omega) hn⟩
  · have hnext := hstep.next
    have hinside := hstep.inside
    omega
  · omega
  · change e + align4 (8 + nameLenAt b e) + 8 + name.length ≤ bs
    omega

/-- Behind a record of one byte whose length field changes, the walk comes by the new record: where
it ends, the bytes of the inode number are the old ones, and they say where the walk ends with any
other inode number. -/
theorem inode_of_overlapped (h : EndsAt b bs e) (hover : Overlapped b bs e)
    (haligned : align4 (8 + nameLenAt b e) ≠ 256) (hname : name.length ≤ 255)
    (ho : WalkEnd (withRecord b e name n) bs 0 o) :
    (withRecord b e name n).get o 4 = b.get o 4 ∧
      ∀ n', WalkEnd (withRecord b e name n') bs 0 o := by
  obtain ⟨m, hm, hone, hmid⟩ := hover
  have hhead := le_align4 (8 + nameLenAt b e)
  have hdvd := four_dvd_align4 (8 + nameLenAt b e)
  have hbound : align4 (8 + nameLenAt b e) ≤ 264 := by
    have hlt : nameLenAt b e < 256 := get_lt ..
    unfold align4
    omega
  -- the walk up to the short record, and its new length
  have hbefore : ∀ n', Walks (withRecord b e name n') bs 0 m := fun n' =>
    hm.congr_of fun m' _ hlt => get_congr fun i h1 h2 => withRecord_of_lt (by omega)
  have hlong : ∀ n', recLenAt (withRecord b e name n') m
      = 1 + 256 * (align4 (8 + nameLenAt b e) % 256) := by
    intro n'
    have hnew := @recLenAt_withRecord b e n' name
    have hfirst : withRecord b e name n' (m + 4) = b (m + 4) := withRecord_of_lt (by omega)
    subst hmid
    have hshared : m + 1 + 4 = m + 5 := rfl
    rw [recLenAt_eq, hshared] at hnew
    rw [recLenAt_eq] at hone
    rw [recLenAt_eq, hfirst]
    omega
  -- bytes that the new record does not touch
  have hbehind : ∀ n' i, e + 1024 ≤ i → withRecord b e name n' i = b i := fun n' i hi =>
    appendRecord_of_outside (by omega) (by omega)
  have hvisited : ∀ m', Walks (withRecord b e name n) bs m m' → m' = m ∨ e + 1024 ≤ m' := by
    intro m' hm'
    rcases hm'.cases_head with heq | ⟨c, hc, hrest⟩
    · exact .inl heq.symm
    · have hnext := hc.next
      have hle := Walks.le hrest
      rw [hlong] at hnext
      omega
  have hend := ho.walks_of_walks (hbefore n)
  constructor
  · rcases hvisited o hend with heq | hfar
    · exact get_congr fun i h1 h2 => withRecord_of_lt (by omega)
    · exact get_congr fun i h1 h2 => hbehind n i (by omega)
  · intro n'
    have hrest : WalkEnd (withRecord b e name n') bs m o := by
      refine WalkEnd.congr_of ⟨hend, ho.stuck⟩ fun m' hm' => ?_
      rcases hvisited m' hm' with heq | hfar
      · rw [heq, hlong, hlong]
      · exact get_congr fun i h1 h2 =>
          (hbehind n' i (by omega)).trans (hbehind n i (by omega)).symm
    exact ⟨(hbefore n').trans hrest.walks, hrest.stuck⟩

theorem Sound.congr (h : Sound b bs name e) (hsame : ∀ i < bs, b' i = b i) :
    Sound b' bs name e := by
  have hheader := h.header
  have hrec : recLenAt b' e = recLenAt b e := get_congr fun i h1 h2 => hsame i (by omega)
  have hlen : nameLenAt b' e = nameLenAt b e := get_congr fun i h1 h2 => hsame i (by omega)
  have hslack : slackAt b' e = slackAt b e := by rw [slackAt, slackAt, hrec, hlen]
  have hover : Overlapped b' bs e → Overlapped b bs e := by
    rintro ⟨m, hm, hone, hmid⟩
    refine ⟨m, hm.congr fun i hi => (hsame i hi).symm, ?_, hmid⟩
    rw [← hone]
    exact get_congr fun i h1 h2 => (hsame i (by omega)).symm
  refine ⟨hheader, ?_, ?_, ?_⟩
  · rw [hrec, hlen]
    exact h.fits
  · rw [hrec, hslack]
    exact h.length_le
  · rw [hrec, hslack, hlen]
    exact fun hends hspace ho => h.aligned_eq hends hspace (hover ho)

end

section

variable {p : Profile} {node : Ext4Node} {bs lba n e : ℕ} {S : ℕ → Bytes} {name : String}

theorem FirstBlock.not_faulted_iff (h : FirstBlock p node bs lba)
    (hend : WalkEnd (blockBuffer S lba bs) bs 0 e) (hname : (nameBytes name).length < 2 ^ 63) :
    (∀ d, d.sectors = S → (node.addEntry p name n d).faulted = false) ↔
      e + 7 ≤ bs ∧ (e + recLenAt (blockBuffer S lba bs) e = bs →
        align4 (8 + nameLenAt (blockBuffer S lba bs) e) ≤ recLenAt (blockBuffer S lba bs) e) := by
  rw [← @lastTurn_not_faulted_iff p _ bs e n _ ⟨S, [], fun _ => false⟩ hname]
  constructor
  · intro hnever
    have hrun := hnever ⟨S, [], fun _ => false⟩ rfl
    rcases @FirstBlock.addEntry_run p node bs lba n ⟨S, [], fun _ => false⟩ name h with
      ⟨j, _, hfail, _⟩ | ⟨d₁, _, _, _, hrest⟩
    · cases hfail
    · rw [hrest e hend] at hrun
      rw [lastTurn_not_faulted_iff hname, ← lastTurn_not_faulted_iff (d := d₁) hname]
      cases hturn : lastTurn p bs (nameBytes name) n (blockBuffer S lba bs) e d₁ with
      | ok u d₂ => rfl
      | err er d₂ => rfl
      | fault d₂ =>
        rw [bind_of_fault hturn] at hrun
        cases hrun
  · rintro hturn d rfl
    rcases @FirstBlock.addEntry_run p node bs lba n d name h with
      ⟨j, _, _, d', _, hrun⟩ | ⟨d₁, _, _, _, hrest⟩
    · rw [hrun]
      rfl
    · rw [hrest e hend]
      rw [lastTurn_not_faulted_iff hname, ← lastTurn_not_faulted_iff (d := d₁) hname] at hturn
      cases hturn' : lastTurn p bs (nameBytes name) n (blockBuffer d.sectors lba bs) e d₁ with
      | ok u d₂ =>
        have hbound := h.bound
        have hwrite : lba + (0 + bs / 512) < 2 ^ 64 := by omega
        rw [bind_of_ok hturn']
        rcases @writeSectors_run (bs / 512) p lba u 0 d₂ hwrite with
          ⟨_, _, _, _, hrun⟩ | ⟨_, _, _, _, _, _, _, hrun⟩
        · rw [hrun]
          rfl
        · rw [hrun]
          rfl
      | err er d₂ =>
        rw [bind_of_err hturn']
        rfl
      | fault d₂ =>
        rw [hturn'] at hturn
        cases hturn

theorem FirstBlock.addEntry_stores (h : FirstBlock p node bs lba) {d : BlockDevice}
    (hd : d.Reliable) (hlast : EndsAt (blockBuffer d.sectors lba bs) bs e)
    (hspace : recordSize (nameBytes name) ≤ slackAt (blockBuffer d.sectors lba bs) e) :
    ∃ d', node.addEntry p name n d = .ok () d' ∧ ∀ i < bs, runBytes d'.sectors lba i
      = withRecord (blockBuffer d.sectors lba bs) e (nameBytes name) n i := by
  have hmul := h.mul_eq
  obtain ⟨d', _, ⟨hsmall, _⟩ | ⟨_, hsectors, hrun⟩⟩ :=
    @FirstBlock.addEntry_of_endsAt p node bs lba n e d name h hd hlast
  · exact absurd hsmall (Nat.not_lt_of_le hspace)
  · refine ⟨d', hrun, fun i hi => ?_⟩
    rw [hsectors, runBytes_storeSectors (by omega)]

theorem AddEntrySafe.carriesLast (hsafe : AddEntrySafe p node bs lba S name n)
    (h : FirstBlock p node bs lba) (hlast : EndsAt (blockBuffer S lba bs) bs e)
    (hspace : recordSize (nameBytes name) ≤ slackAt (blockBuffer S lba bs) e) :
    ∃ o, CarriesLast (withRecord (blockBuffer S lba bs) e (nameBytes name) n) bs
      ⟨n, nameBytes name⟩ o := by
  -- on a device whose transfers all succeed the call returns `Ok`
  have hd : BlockDevice.Reliable ⟨S, [], fun _ => false⟩ := fun _ => rfl
  obtain ⟨d', hrun, hstored⟩ :=
    @FirstBlock.addEntry_stores p node bs lba n e name h _ hd hlast hspace
  rcases hsafe.result _ rfl hd with ⟨err, d₁, herr, _⟩ | ⟨d₁, hok, o, ho⟩
  · rw [hrun] at herr
    cases herr
  · rw [hrun] at hok
    cases hok
    exact ⟨o, ho.congr fun i hi => (hstored i hi).symm⟩

theorem CarriesLast.length_name_le {b : Bytes} {r : DirRecord} {o : ℕ}
    (h : CarriesLast b bs r o) : r.name.length ≤ 255 := by
  have hlength := congrArg (fun r => r.name.length) h.record
  rw [recordAt, length_slice] at hlength
  have hlt : nameLenAt b o < 256 := get_lt ..
  omega

section

variable (h : FirstBlock p node bs lba)
include h

section

variable (hend : WalkEnd (blockBuffer S lba bs) bs 0 e)
include hend

section

variable (hname : (nameBytes name).length < 2 ^ 63)
include hname

theorem FirstBlock.sound_of_addEntrySafe
    (hsafe : ∀ n < 2 ^ 32, AddEntrySafe p node bs lba S name n) :
    Sound (blockBuffer S lba bs) bs (nameBytes name) e := by
  obtain ⟨hheader, hfits⟩ :=
    (h.not_faulted_iff (n := 0) hend hname).mp (hsafe 0 (by decide)).not_faulted
  have hlast : e + recLenAt (blockBuffer S lba bs) e = bs → EndsAt (blockBuffer S lba bs) bs e :=
    fun hends => ⟨hend, hends, hfits hends⟩
  have hshort : e + recLenAt (blockBuffer S lba bs) e = bs →
      recordSize (nameBytes name) ≤ slackAt (blockBuffer S lba bs) e →
      (nameBytes name).length ≤ 255 := by
    intro hends hspace
    obtain ⟨o, ho⟩ := (hsafe 0 (by decide)).carriesLast h (hlast hends) hspace
    exact ho.length_name_le
  refine ⟨hheader, hfits, hshort, fun hends hspace hover => ?_⟩
  -- otherwise the walk ends at the same old record for two different inode numbers
  by_contra haligned
  obtain ⟨o, ho⟩ := (hsafe 0 (by decide)).carriesLast h (hlast hends) hspace
  obtain ⟨o', ho'⟩ := (hsafe 1 (by decide)).carriesLast h (hlast hends) hspace
  obtain ⟨hget, hother⟩ :=
    inode_of_overlapped (hlast hends) hover haligned (hshort hends hspace) ho.walkEnd
  obtain ⟨hget', _⟩ :=
    inode_of_overlapped (hlast hends) hover haligned (hshort hends hspace) ho'.walkEnd
  have hsame := (hother 1).unique ho'.walkEnd
  have hzero := congrArg DirRecord.inode ho.record
  have hone := congrArg DirRecord.inode ho'.record
  rw [recordAt, hget] at hzero
  rw [recordAt, hget', ← hsame, hzero] at hone
  cases hone

theorem FirstBlock.addEntrySafe_of_sound
    (hsound : Sound (blockBuffer S lba bs) bs (nameBytes name) e) (hn : n < 2 ^ 32) :
    AddEntrySafe p node bs lba S name n := by
  refine ⟨(h.not_faulted_iff hend hname).mpr ⟨hsound.header, hsound.fits⟩, ?_⟩
  rintro d rfl hd
  by_cases hends : e + recLenAt (blockBuffer d.sectors lba bs) e = bs
  · have hlast : EndsAt (blockBuffer d.sectors lba bs) bs e := ⟨hend, hends, hsound.fits hends⟩
    by_cases hspace : recordSize (nameBytes name) ≤ slackAt (blockBuffer d.sectors lba bs) e
    · obtain ⟨d', hrun, hstored⟩ :=
        @FirstBlock.addEntry_stores p node bs lba n e name h d hd hlast hspace
      have hcarries := hlast.carriesLast hspace (hsound.length_le hends hspace) hn
        (hsound.aligned_eq hends hspace)
      exact .inr ⟨d', hrun, _, hcarries.congr hstored⟩
    · obtain ⟨d', _, ⟨_, hsectors, hrun⟩ | ⟨hroom, _⟩⟩ :=
        @FirstBlock.addEntry_of_endsAt p node bs lba n e d name h hd hlast
      · exact .inl ⟨.noSpace, d', hrun, hsectors⟩
      · exact absurd hroom hspace
  · rcases @FirstBlock.addEntry_run p node bs lba n d name h with
      ⟨j, _, hfail, _⟩ | ⟨d₁, hsame, _, _, hrun⟩
    · rw [hd] at hfail
      cases hfail
    · refine .inl ⟨.corruptedDirectory, d₁, ?_, hsame.sectors⟩
      have hheader := hsound.header
      rw [hrun e hend, lastTurn, if_neg (by omega), if_neg hends]
      rfl

/-- **On which blocks `addEntry` is safe.** -/
theorem FirstBlock.addEntry_safe_iff : (∀ n < 2 ^ 32, AddEntrySafe p node bs lba S name n) ↔
      Sound (blockBuffer S lba bs) bs (nameBytes name) e := by
  constructor
  · exact h.sound_of_addEntrySafe hend hname
  · exact fun hsound n hn => h.addEntrySafe_of_sound hend hname hsound hn

end

end

end

/-- **On which directories the directory code is safe.**  Both loops end, whatever the block holds.
`lookup` makes no access outside its buffer iff all headers it comes to are inside; `addEntry` makes
none, does not underflow, and stores the name as it is iff the block is `Sound` for the name. -/
theorem directory_code_safe_iff {avail : ℕ} {blk : ℕ → ℕ} (hl : Layout p node.volume bs)
    (hipg : 0 < node.volume.superBlock.sInodesPerGroup) (hdir : node.isDirectory = true)
    (hread : Readable p node bs avail blk)
    (hsector : node.volume.logicalToPhysicalSector p node.inode 0 = some (some lba))
    (hname : (nameBytes name).length < 2 ^ 63) :
    (∀ b k fuel, k ≤ fuel →
      node.lookupLoop p name b k fuel 0 = node.lookupLoop p name b k k 0) ∧
    (∀ b n fuel, bs < fuel → Ext4Node.addEntryLoop p bs (nameBytes name) n b fuel 0
      = Ext4Node.addEntryLoop p bs (nameBytes name) n b (bs + 1) 0) ∧
    ((∀ d, d.sectors = S → (node.lookup p name d).faulted = false) ↔
      ∀ k, (k = avail ∨ 512 ∣ k ∧ k < avail) →
        HeadersInside (readBuffer node.volume bs S blk k) k node.size) ∧
    ((∀ n < 2 ^ 32, AddEntrySafe p node bs lba S name n) ↔
      ∃ e, WalkEnd (runBytes S lba) bs 0 e ∧ Sound (runBytes S lba) bs (nameBytes name) e) := by
  refine ⟨fun b k fuel hfuel => lookupLoop_fuel (by omega) (by omega), fun b n fuel hfuel => ?_,
    hread.lookup_safe_iff hl hipg hdir, ?_⟩
  · obtain ⟨e, he⟩ := exists_walkEnd b bs 0
    rw [addEntryLoop_eq he (by omega), addEntryLoop_eq he (by omega)]
  · have hblock := FirstBlock.of_layout hl hdir hsector
    have hsame : ∀ i < bs, blockBuffer S lba bs i = runBytes S lba i :=
      fun i hi => hblock.blockBuffer_eq hi
    obtain ⟨e, he⟩ := exists_walkEnd (blockBuffer S lba bs) bs 0
    have he' := he.congr fun i hi => (hsame i hi).symm
    rw [hblock.addEntry_safe_iff he hname]
    constructor
    · exact fun hsound => ⟨e, he', hsound.congr fun i hi => (hsame i hi).symm⟩
    · rintro ⟨e₁, he₁, hsound⟩
      rw [he₁.unique he'] at hsound
      exact hsound.congr hsame

end

theorem sampleDir_readable {p : Profile} : Readable p sampleDir 1024 1024 fun _ => 20 := by
  refine ⟨le_rfl, fun l hl => ?_, fun h => absurd h (lt_irrefl _)⟩
  have hzero : l = 0 := by omega
  exact .of_physicalBlock sampleDir_layout (hzero ▸ physicalBlock_buildFileInode (by decide) 0)

theorem dotBlock_headersInside {k : ℕ} (hk : k = 1024 ∨ 512 ∣ k ∧ k < 1024) :
    HeadersInside (readBuffer sampleDir.volume 1024 (sampleDevice dotBlock).sectors (fun _ => 20) k)
      k 1024 := by
  intro o hw hlt
  have hlen : recLenAt (readBuffer sampleDir.volume 1024 (sampleDevice dotBlock).sectors
      (fun _ => 20) k) 0 = 1024 := by
    exact get_congr fun i h1 h2 => splice_slice_of_lt (by omega)
  rcases hw.cases_head with heq | ⟨c, hc, hrest⟩
  · omega
  · have hle := LookupWalks.le hrest
    have hnext := hc.next
    omega

theorem dotBlock_sound :
    Sound (runBytes (sampleDevice dotBlock).sectors 40) 1024 (nameBytes "a") 0 := by
  refine ⟨by decide, fun _ => dotBlock_last.valid.2, fun _ _ => by decide +kernel, ?_⟩
  rintro _ _ ⟨o, _, _, ho⟩
  omega

theorem directory_code_safe_dotBlock : (∀ d, d.sectors = (sampleDevice dotBlock).sectors →
      (sampleDir.lookup .dev "a" d).faulted = false) ∧
    ∀ n < 2 ^ 32, AddEntrySafe .dev sampleDir 1024 40 (sampleDevice dotBlock).sectors "a" n := by
  have hname : (nameBytes "a").length < 2 ^ 63 := by decide +kernel
  obtain ⟨_, _, hlookup, hadd⟩ :=
    @directory_code_safe_iff .dev sampleDir 1024 40 (sampleDevice dotBlock).sectors "a" 1024
      (fun _ => 20) sampleDir_layout (by decide) rfl sampleDir_readable sampleDir_sector hname
  exact ⟨hlookup.mpr fun k hk => dotBlock_headersInside hk,
    hadd.mpr ⟨0, dotBlock_last.walkEnd, dotBlock_sound⟩⟩

/-- A block whose record ends four bytes before its end. -/
def shortBlock : Bytes := dotBlock.put 4 2 1020

/-- A block whose last record is shorter than its name. -/
def narrowBlock : Bytes := (dotBlock.put 4 2 1016).putAll [(1020, 2, 8), (1022, 1, 40)]

/-- A name of 256 bytes. -/
def longName : String := String.ofList (List.replicate 256 'a')

theorem directory_code_unsafe :
    (sampleDir.lookup .dev "a" (sampleDevice shortBlock)).faulted = true ∧
    (sampleDir.addEntry .dev "a" 11 (sampleDevice shortBlock)).faulted = true ∧
    (sampleDir.addEntry .dev "a" 11 (sampleDevice narrowBlock)).faulted = true ∧
    (sampleDir.addEntry .dev longName 11 (sampleDevice dotBlock)).value? = some () ∧
    (recordAt (runBytes (sampleDir.addEntry .dev longName 11 (sampleDevice dotBlock)).state.sectors
      40) 12).name = [] := by
  decide +kernel

end NwinOs.Fs.Ext4
