import NwinOs.Fs.Ext4.Equiv.Directory

/-!
# Names in a directory

`addEntry` looks at the last record only, `lookup` returns the first match.  A name that was linked
resolves to its inode if and only if it was not there before, and names stay unique as long as only
such names are added (`linked_name_resolves_iff`).
-/

namespace NwinOs.Fs.Ext4

open Effect List

/-- The names of the live records. -/
def liveNames (recs : List DirRecord) : List (List Byte) :=
  (recs.filter fun r => r.inode ≠ 0).map DirRecord.name

/-- A directory on the given sectors: its blocks lie on the device, the first one apart from the
others, and records tile the first block and the blocks behind it. -/
structure Directory (p : Profile) (node : Ext4Node) (bs : ℕ) (blk : ℕ → ℕ) (S : ℕ → Bytes)
    (first rest : List DirRecord) : Prop where
  layout : Layout p node.volume bs
  inodesPerGroup_pos : 0 < node.volume.superBlock.sInodesPerGroup
  isDirectory : node.isDirectory = true
  located : ∀ l, l * bs < node.size → Located p node.volume bs node.inode l (blk l)
  apart : ∀ l, l * bs < node.size → l ≠ 0 → blk l ≠ blk 0
  first_tiled : Tiled (fileByte node.volume bs S blk) 0 bs first
  rest_tiled : Tiled (fileByte node.volume bs S blk) bs node.size rest

section

variable {p : Profile} {node : Ext4Node} {bs i : ℕ} {blk : ℕ → ℕ} {S : ℕ → Bytes}
  {first rest recs recs' : List DirRecord} {d d' : BlockDevice} {name : String} {r : DirRecord}

theorem liveNames_append : liveNames (recs ++ recs') = liveNames recs ++ liveNames recs' := by
  rw [liveNames, filter_append, map_append]
  rfl

theorem liveNames_cons (h : r.inode ≠ 0) : liveNames (r :: recs) = r.name :: liveNames recs := by
  rw [liveNames, filter_cons_of_pos (by simpa using h)]
  rfl

theorem mem_liveNames {x : List Byte} :
    x ∈ liveNames recs ↔ ∃ r ∈ recs, r.inode ≠ 0 ∧ r.name = x := by
  simp only [liveNames, mem_map, mem_filter, decide_eq_true_eq, and_assoc]

theorem nodup_liveNames_insert (hr : r.inode ≠ 0) : (liveNames (recs ++ [r] ++ recs')).Nodup ↔
      r.name ∉ liveNames (recs ++ recs') ∧ (liveNames (recs ++ recs')).Nodup := by
  rw [append_assoc, liveNames_append, singleton_append, liveNames_cons hr,
    nodup_middle, nodup_cons, ← liveNames_append]

namespace Directory

variable (h : Directory p node bs blk S first rest)
include h

theorem le_size : bs ≤ node.size := h.rest_tiled.le

theorem tiled : Tiled (fileByte node.volume bs S blk) 0 node.size (first ++ rest) :=
  h.first_tiled.append h.rest_tiled

theorem firstBlock : FirstBlock p node bs (sectorOf node.volume bs (blk 0)) := by
  have hpos := h.layout.pos
  have hle := h.le_size
  exact .of_layout h.layout h.isDirectory (h.located 0 (by omega)).sector

theorem store {updated : Bytes} (ht : Tiled updated 0 bs recs) :
    Directory p node bs blk
      (storeSectors S (sectorOf node.volume bs (blk 0)) (bs / 512) updated) recs rest := by
  have hmul := h.firstBlock.mul_eq
  have hpos := h.layout.pos
  refine ⟨h.layout, h.inodesPerGroup_pos, h.isDirectory, h.located, h.apart, ?_, ?_⟩
  · refine ht.congr fun i _ hi => ?_
    rw [fileByte_eq_runBytes hi, runBytes_storeSectors (by omega)]
  · refine h.rest_tiled.congr fun i h1 h2 => ?_
    have hblock : i / bs ≠ 0 := Nat.ne_of_gt (Nat.div_pos h1 hpos)
    have hapart := h.apart (i / bs) (lt_of_le_of_lt (Nat.div_mul_le_self i bs) h2) hblock
    have hsec := sector_in_block_lt h.layout.dvd hpos i
    unfold fileByte
    rw [storeSectors_of_outside]
    by_contra hin
    have hmine : InBlock node.volume bs (blk (i / bs))
        (sectorOf node.volume bs (blk (i / bs)) + i % bs / 512) :=
      ⟨Nat.le_add_right .., by omega⟩
    exact hapart (h.layout.inBlock_unique hmine ⟨by omega, by omega⟩)

omit h

theorem wp_addEntry (h : Directory p node bs blk d.sectors first rest) (hd : d.Reliable)
    (hname : (nameBytes name).length ≤ 255) (hi : i < 2 ^ 32)
    {Q : Unit → BlockDevice → Prop} {E : FsError → BlockDevice → Prop} {F : BlockDevice → Prop}
    (hQ : ∀ d', d'.Reliable →
      Directory p node bs blk d'.sectors (first ++ [⟨i, nameBytes name⟩]) rest → Q () d')
    (hE : ∀ d', d'.Reliable → d'.sectors = d.sectors → E .noSpace d') :
    wp (node.addEntry p name i) Q E F d := by
  have hrun : Tiled (runBytes d.sectors (sectorOf node.volume bs (blk 0))) 0 bs first :=
    h.first_tiled.congr fun i _ hi => (fileByte_eq_runBytes hi).symm
  refine h.firstBlock.wp_addEntry h.layout.pos hrun (by omega) hi hd
    (fun updated d' hd' hup hs => hQ d' hd' ?_) hE
  rw [hs]
  exact h.store hup

theorem lookup_eq (h : Directory p node bs blk d.sectors first rest) (hd : d.Reliable) :
    ∃ d', node.lookup p name d
      = .ok (resolve node.volume bs d.sectors name (first ++ rest)) d' := by
  have hpos := h.layout.pos
  have hle := h.le_size
  have hwp : wp (node.lookup p name)
      (fun found _ => found = resolve node.volume bs d.sectors name (first ++ rest))
      (fun _ _ => False) (fun _ => False) d :=
    wp_lookup h.layout h.inodesPerGroup_pos rfl h.isDirectory (by omega) h.located h.tiled hd
      fun _ _ _ => rfl
  obtain ⟨found, d', hrun, rfl⟩ := returns_of_wp hwp
  exact ⟨d', hrun⟩

end Directory

theorem resolve_linked {v : Ext4Volume} (hi : ValidInode v i)
    (hfresh : nameBytes name ∉ liveNames first) :
    resolve v bs S name (first ++ [⟨i, nameBytes name⟩] ++ rest)
      = some (.ofInode v i (inodeAt v bs S i)) := by
  have hnone : resolve v bs S name first = none :=
    resolve_eq_none fun r hr hlive hname => hfresh (mem_liveNames.mpr ⟨r, hr, hlive, hname⟩)
  have hlive : i ≠ 0 := Nat.one_le_iff_ne_zero.mp hi.1
  rw [append_assoc, resolve_append, hnone, Option.none_or, singleton_append, resolve,
    if_pos ⟨hlive, rfl, hi⟩]

/-- A device without errors holds the directory, and no name is live twice. -/
def UniqueNames (p : Profile) (node : Ext4Node) (bs : ℕ) (blk : ℕ → ℕ) (rest : List DirRecord)
    (d : BlockDevice) : Prop :=
  d.Reliable ∧ ∃ first, Directory p node bs blk d.sectors first rest ∧
    (liveNames (first ++ rest)).Nodup

/-- A call of a run adds a name that the directory does not have. -/
def Fresh (p : Profile) (node : Ext4Node) (bs : ℕ) (blk : ℕ → ℕ) (rest : List DirRecord)
    (call : String × ℕ) (d : BlockDevice) : Prop :=
  (nameBytes call.1).length ≤ 255 ∧ ValidInode node.volume call.2 ∧
    ∀ first, Directory p node bs blk d.sectors first rest →
      nameBytes call.1 ∉ liveNames (first ++ rest)

/-- **When a linked name resolves to what was linked.**  After a successful call it does, and no
name is there twice, iff the name was not there before; and a run of calls that add such names never
leads to a directory with a name twice. -/
theorem linked_name_resolves_iff (h : Directory p node bs blk d.sectors first rest)
    (hd : d.Reliable) (hunique : (liveNames (first ++ rest)).Nodup) :
    (∀ name i d', (nameBytes name).length ≤ 255 → ValidInode node.volume i →
      node.addEntry p name i d = .ok () d' →
      (((∃ d'', node.lookup p name d'
            = .ok (some (.ofInode node.volume i (inodeAt node.volume bs d'.sectors i))) d'') ∧
          ∃ first', Directory p node bs blk d'.sectors first' rest ∧
            (liveNames (first' ++ rest)).Nodup) ↔
        nameBytes name ∉ liveNames (first ++ rest))) ∧
    ∀ calls, MeetsAll (fun call : String × ℕ => node.addEntry p call.1 call.2)
        (Fresh p node bs blk rest) calls d →
      ∃ first', Directory p node bs blk
          (runAll (fun call : String × ℕ => node.addEntry p call.1 call.2) calls d).sectors first'
          rest ∧ (liveNames (first' ++ rest)).Nodup := by
  have hbound : ∀ {i}, ValidInode node.volume i → i < 2 ^ 32 := fun hi =>
    lt_of_le_of_lt hi.2 node.volume.superBlock.inodesCount_lt
  constructor
  · intro name i d' hname hi hok
    have hlive : i ≠ 0 := Nat.one_le_iff_ne_zero.mp hi.1
    have hwp : wp (node.addEntry p name i) (fun _ d' => d'.Reliable ∧
        Directory p node bs blk d'.sectors (first ++ [⟨i, nameBytes name⟩]) rest)
        (fun _ _ => True) (fun _ => True) d :=
      h.wp_addEntry hd hname (hbound hi) (fun d' hd' h' => ⟨hd', h'⟩) fun _ _ _ => trivial
    obtain ⟨hd', h'⟩ := (wp_of_ok hwp hok :)
    constructor
    · rintro ⟨_, first', hfirst', hnodup⟩
      -- the block has only one list of records
      rw [hfirst'.first_tiled.unique h'.first_tiled] at hnodup
      exact ((nodup_liveNames_insert hlive).mp hnodup).1
    · intro hfresh
      have hfirst : nameBytes name ∉ liveNames first := by
        rw [liveNames_append] at hfresh
        exact fun hmem => hfresh (List.mem_append_left _ hmem)
      refine ⟨?_, _, h', (nodup_liveNames_insert hlive).mpr ⟨hfresh, hunique⟩⟩
      obtain ⟨d'', hlookup⟩ : ∃ d'', node.lookup p name d' = .ok (resolve node.volume bs d'.sectors
          name (first ++ [⟨i, nameBytes name⟩] ++ rest)) d'' := h'.lookup_eq hd'
      rw [resolve_linked hi hfirst] at hlookup
      exact ⟨d'', hlookup⟩
  · intro calls hmeets
    have hrun : UniqueNames p node bs blk rest
        (runAll (fun call : String × ℕ => node.addEntry p call.1 call.2) calls d) := by
      refine runAll_invariant (I := UniqueNames p node bs blk rest) ?_
        ⟨hd, first, h, hunique⟩ hmeets
      rintro ⟨name, i⟩ d ⟨hd, first, h, hunique⟩ ⟨hname, hi, hfresh⟩
      have hlive : i ≠ 0 := Nat.one_le_iff_ne_zero.mp hi.1
      refine h.wp_addEntry hd hname (hbound hi) (fun d' hd' h' => ⟨hd', _, h', ?_⟩)
        fun d' hd' hs => ⟨hd', first, hs ▸ h, hunique⟩
      exact (nodup_liveNames_insert hlive).mpr ⟨hfresh first h, hunique⟩
    exact hrun.2

end

theorem dotBlock_directory {p : Profile} :
    Directory p sampleDir 1024 (fun _ => 20) (sampleDevice dotBlock).sectors [⟨2, [0x2E]⟩] [] := by
  have ht := dotBlock_last.tiled
  have hzero : ∀ l, l * 1024 < sampleDir.size → l = 0 := by
    have hsize : sampleDir.size = 1024 := rfl
    omega
  refine ⟨sampleDir_layout, by decide, rfl, fun l hl => ?_, fun l hl hne => absurd (hzero l hl) hne,
    ht.congr fun i _ hi => fileByte_eq_runBytes hi, .nil 1024⟩
  exact .of_physicalBlock sampleDir_layout
    (hzero l hl ▸ physicalBlock_buildFileInode (by decide) 0)

theorem linked_name_resolves_dotBlock :
    ∃ first', Directory .dev sampleDir 1024 (fun _ => 20)
        (runAll (fun call : String × ℕ => sampleDir.addEntry .dev call.1 call.2) [("a", 11)]
          (sampleDevice dotBlock)).sectors first' [] ∧ (liveNames (first' ++ [])).Nodup := by
  have hunique : (liveNames ([⟨2, [0x2E]⟩] ++ [])).Nodup := List.nodup_singleton _
  have hlen : (nameBytes "a").length ≤ 255 := by decide +kernel
  have hfresh : Fresh .dev sampleDir 1024 (fun _ => 20) [] ("a", 11) (sampleDevice dotBlock) := by
    refine ⟨hlen, ⟨by decide, by decide⟩, fun first hfirst => ?_⟩
    rw [hfirst.first_tiled.unique (dotBlock_directory (p := .dev)).first_tiled]
    decide +kernel
  refine (linked_name_resolves_iff dotBlock_directory (fun _ => rfl) hunique).2 _ ⟨hfresh, ?_⟩
  split <;> trivial

/-- Linked twice, as at a second boot, the name is there twice and resolves to the first inode. -/
theorem second_link_resolves_to_first :
    Directory .dev sampleDir 1024 (fun _ => 20) (sampleDevice dotBlock).sectors [⟨2, [0x2E]⟩] [] ∧
    ((do
      sampleDir.addEntry .dev "a" 11
      sampleDir.addEntry .dev "a" 12
      sampleDir.lookup .dev "a" : FsProgram (Option Ext4Node)) (sampleDevice dotBlock)).value?.map
        (Option.map Ext4Node.inodeNum) = some (some 11) ∧
    ((do
      sampleDir.addEntry .dev "a" 11
      sampleDir.addEntry .dev "a" 12 : FsProgram Unit) (sampleDevice dotBlock)).value?
        = some () := by
  exact ⟨dotBlock_directory, by decide +kernel, by decide +kernel⟩

end NwinOs.Fs.Ext4
