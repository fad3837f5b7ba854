import NwinOs.Core.PageFault
import NwinOs.Mm.AddressSpace
import NwinOs.Mm.Equiv.CopyOnWrite

/-!
# When repairing a page fault is sound

The CPU decides a write from the flags of four levels of page tables; the handler decides its repair
from a reference count.  `page_fault_repair_sound_iff` says for which faults the two agree: a
retried write is permitted by the new tables, a Ring 3 write to a supervisor page ends the task, and
no fault from Ring 3 makes the kernel panic.

The mapper works on four-level tables in physical memory here (`FourLevel`).
-/

namespace NwinOs.Core

open Mm Paging Tasking BitmapFrameAllocator Function List

/-- The mapper does what the `x86_64` crate documents, for the level-4 table `pml4`.  The lookup is
specified when the level-4 entry has no huge-page bit, the mapping for flags with `PRESENT` and
without `HUGE_PAGE`; a copy changes one frame, to whatever its bytes say. -/
structure FourLevel (m : CowMapper Memory) (pml4 : ℕ) : Prop where
  translateAddr : ∀ mem va, (mem pml4 (index va 3)).hugePage = false →
    m.translateAddr mem va = (lookup mem va 3 pml4).map fun x =>
      x.frame * FRAME_SIZE + va % FRAME_SIZE
  translate : ∀ mem va, (mem pml4 (index va 3)).hugePage = false →
    m.translate mem va = (lookup mem va 3 pml4).map fun x => x.flags
  updateFlags : ∀ mem va fl,
    m.updateFlags mem (va / FRAME_SIZE) fl = Paging.updateFlags mem pml4 va fl
  unmap : ∀ mem va, m.unmap mem (va / FRAME_SIZE) = Paging.unmap mem pml4 va
  mapTo : ∀ mem a va g fl mem' a', fl.present = true → fl.hugePage = false →
    mapToFlags systemAllocateFrame fl mem a pml4 va g = ((mem', a'), .ok ()) →
      m.mapTo mem a (va / FRAME_SIZE) g fl = some (mem', a')
  copy : ∀ mem src dst f, f ≠ dst → m.copy mem src (dst * FRAME_SIZE) f = mem f

/-- The tables permit a write at the given privilege. -/
def WritePermitted (mem : Memory) (pml4 va : ℕ) (user : Bool) : Prop :=
  ∃ tr, Paging.translate mem pml4 va = some tr ∧ tr.rights.writable = true ∧
    (user = true → tr.rights.user = true)

/-- The CPU raises a protection fault for a write at the given privilege: the address is translated,
and the rights do not suffice. -/
structure WriteFault (mem : Memory) (pml4 va : ℕ) (user : Bool) (tr : Translation) : Prop where
  /-- The bit is reserved: the CPU raises another fault if it is set. -/
  reserved : (mem pml4 (index va 3)).hugePage = false
  mapped : Paging.translate mem pml4 va = some tr
  denied : ¬ WritePermitted mem pml4 va user

/-- The tables of a walk are distinct frames, each in use. -/
structure TablesInUse (mem : Memory) (a : BitmapFrameAllocator) (pml4 va : ℕ) : Prop where
  nodup : (tables mem va 4 pml4).Nodup
  busy : ∀ t ∈ tables mem va 4 pml4, a.testBit t = true

variable {m : CowMapper Memory} {st : CowState Memory} {tm : TaskManager} {pml4 va errorCode : ℕ}
  {user : Bool} {tr : Translation} {fl : PageTableFlags} {t : ℕ}

/-- **Soundness of the handler** for a fault at `va`, translated to `tr`. -/
structure RepairSound (m : CowMapper Memory) (st : CowState Memory) (tm : TaskManager)
    (pml4 va errorCode : ℕ) (tr : Translation) : Prop where
  /-- A write that is retried is permitted. -/
  retry : ∀ st', pageFaultHandler m st tm errorCode va = .retry st' →
    WritePermitted st'.memory pml4 va (errorCode.testBit USER_MODE)
  /-- A Ring 3 write to a supervisor page ends the task. -/
  supervisor : errorCode.testBit USER_MODE = true → tr.rights.user = false →
    ∃ st', pageFaultHandler m st tm errorCode va =
      .terminated st' tm.exitCurrentTask ⟨va, errorCode⟩
  /-- Ring 3 does not make the kernel panic. -/
  panic : errorCode.testBit USER_MODE = true →
    ∀ e, pageFaultHandler m st tm errorCode va ≠ .panicked e

variable (st)

/-- The count that decides the repair. -/
def frameCount (tr : Translation) : ℕ :=
  st.allocator.getRefCount (tr.frame * FRAME_SIZE)

/-- The sole owner's page can be made writable by its leaf: it is a 4 KiB page with writable parents
and, for Ring 3, user rights.  A huge page makes the handler panic. -/
def OwnerRepairable (pml4 va : ℕ) (user : Bool) (tr : Translation) : Prop :=
  ((∃ t, leafTable st.memory va 3 pml4 = some t) ∧
    (parentRights st.memory va 3 pml4 ⟨true, true⟩).writable = true ∧
    (user = true → tr.rights.user = true)) ∨
  (leafTable st.memory va 3 pml4 = none ∧ user = false)

/-- A shared page can be cloned for Ring 3: it has user rights, the entry that maps it has bit 7
clear, and the bytes from the translated address on do not reach into the clone. -/
def CloneRepairable (pml4 va : ℕ) (tr : Translation) : Prop :=
  tr.rights.user = true ∧
  (∃ x, lookup st.memory va 3 pml4 = some x ∧ x.flags.hugePage = false) ∧
  ¬ (va % FRAME_SIZE ≠ 0 ∧ st.allocator.allocateFrame.2 = some ((tr.frame + 1) * FRAME_SIZE))

/-- The faults that the handler treats soundly. -/
def Repairable (pml4 va : ℕ) (user : Bool) (tr : Translation) : Prop :=
  frameCount st tr = 0 ∨
  (frameCount st tr = 1 ∧ OwnerRepairable st pml4 va user tr) ∨
  (2 ≤ frameCount st tr ∧ ((∀ g, st.allocator.testBit g = true) ∨ user = false ∨
    CloneRepairable st pml4 va tr))

variable {st}

/-! ### What the fault finds -/

theorem WriteFault.lookup_eq (h : WriteFault st.memory pml4 va user tr) :
    (∃ t, leafTable st.memory va 3 pml4 = some t ∧
      (st.memory t (index va 0)).present = true ∧
      tr = ⟨(st.memory t (index va 0)).frame,
        (parentRights st.memory va 3 pml4 ⟨true, true⟩).restrict (st.memory t (index va 0))⟩ ∧
      lookup st.memory va 3 pml4 = some ⟨tr.frame, (st.memory t (index va 0)).flags⟩) ∨
    (leafTable st.memory va 3 pml4 = none ∧ ∃ fl, fl.hugePage = true ∧
      lookup st.memory va 3 pml4 = some ⟨tr.frame, fl⟩) := by
  rcases lookup_of_walk (le_refl 3) (fun _ => h.reserved) h.mapped with
    ⟨t, hleaf, hpresent, hframe⟩ | hhuge
  · refine .inl ⟨t, hleaf, hpresent, ?_, ?_⟩
    · have := h.mapped
      rw [translate_of_leafTable hleaf hpresent] at this
      exact (Option.some.inj this).symm
    · rw [lookup_of_leafTable hleaf, isUnused_of_present hpresent, hframe]
      rfl
  · exact .inr hhuge

theorem FourLevel.translated (hm : FourLevel m pml4)
    (hreserved : (st.memory pml4 (index va 3)).hugePage = false)
    (hlookup : lookup st.memory va 3 pml4 = some ⟨tr.frame, fl⟩) :
    Translated m st.memory va tr.frame fl := by
  refine ⟨?_, ?_⟩
  · rw [hm.translateAddr _ _ hreserved, hlookup, Option.map_some]
  · rw [hm.translate _ _ hreserved, hlookup, Option.map_some]

/-! ### Soundness, by the answer of `resolveCowFault` -/

section Outcomes

variable (hpresent : errorCode.testBit PROTECTION_VIOLATION = true)
  (hwrite : errorCode.testBit CAUSED_BY_WRITE = true)

include hpresent hwrite

/-- A fault that is not repaired takes the path of unhandled faults, which is sound. -/
theorem sound_of_refused (h : resolveCowFault m st va = some (st, false)) :
    RepairSound m st tm pml4 va errorCode tr := by
  have hrun : pageFaultHandler m st tm errorCode va = unhandledFault st tm errorCode va := by
    simp only [pageFaultHandler, hpresent, hwrite, Bool.and_self, if_true, h]
  have huser : errorCode.testBit USER_MODE = true → pageFaultHandler m st tm errorCode va =
      .terminated st tm.exitCurrentTask ⟨va, errorCode⟩ := by
    intro hu
    rw [hrun, unhandledFault, if_pos hu]
  refine ⟨fun st' hretry => ?_, fun hu _ => ⟨st, huser hu⟩, fun hu e he => ?_⟩
  · rw [hrun, unhandledFault] at hretry
    split_ifs at hretry
  · rw [huser hu] at he
    cases he

theorem sound_iff_of_panic (h : resolveCowFault m st va = none) :
    RepairSound m st tm pml4 va errorCode tr ↔ errorCode.testBit USER_MODE = false := by
  have hrun : pageFaultHandler m st tm errorCode va = .panicked none := by
    simp only [pageFaultHandler, hpresent, hwrite, Bool.and_self, if_true, h]
  constructor
  · intro hsound
    refine Bool.eq_false_iff.mpr fun hu => hsound.panic hu none hrun
  · intro hu
    refine ⟨fun st' hretry => ?_, fun h => absurd h (by rw [hu]; decide),
      fun h => absurd h (by rw [hu]; decide)⟩
    rw [hrun] at hretry
    cases hretry

theorem sound_iff_of_repaired {st' : CowState Memory}
    (h : resolveCowFault m st va = some (st', true)) :
    RepairSound m st tm pml4 va errorCode tr ↔
      WritePermitted st'.memory pml4 va (errorCode.testBit USER_MODE) ∧
        (errorCode.testBit USER_MODE = true → tr.rights.user = true) := by
  have hrun : pageFaultHandler m st tm errorCode va = .retry st' := by
    simp only [pageFaultHandler, hpresent, hwrite, Bool.and_self, if_true, h]
  constructor
  · intro hsound
    refine ⟨hsound.retry st' hrun, fun hu => ?_⟩
    by_contra hsup
    obtain ⟨st'', hterm⟩ := hsound.supervisor hu (Bool.eq_false_iff.mpr hsup)
    rw [hrun] at hterm
    cases hterm
  · rintro ⟨hpermitted, huser⟩
    refine ⟨fun st'' hretry => ?_, fun hu hsup => ?_, fun hu e he => ?_⟩
    · rw [hrun] at hretry
      cases hretry
      exact hpermitted
    · rw [huser hu] at hsup
      cases hsup
    · rw [hrun] at he
      cases he

end Outcomes

/-! ### The two repairs -/

section

variable (hm : FourLevel m pml4) (huse : TablesInUse st.memory st.allocator pml4 va)
include hm huse

theorem resolve_owner (hreserved : (st.memory pml4 (index va 3)).hugePage = false)
    (hleaf : leafTable st.memory va 3 pml4 = some t)
    (hpresent : (st.memory t (index va 0)).present = true)
    (htr : tr = ⟨(st.memory t (index va 0)).frame,
      (parentRights st.memory va 3 pml4 ⟨true, true⟩).restrict (st.memory t (index va 0))⟩)
    (hlookup : lookup st.memory va 3 pml4 = some ⟨tr.frame, (st.memory t (index va 0)).flags⟩)
    (hcount : frameCount st tr = 1) :
    ∃ st', resolveCowFault m st va = some (st', true) ∧
      Paging.translate st'.memory pml4 va = some ⟨tr.frame,
        ⟨tr.rights.user, (parentRights st.memory va 3 pml4 ⟨true, true⟩).writable⟩⟩ := by
  have hnodup := huse.nodup
  rw [tables_of_leafTable hleaf] at hnodup
  have ht : t ∉ parents st.memory va 3 pml4 := fun h =>
    (nodup_append.mp hnodup).2.2 t h t (mem_singleton.mpr rfl) rfl
  obtain ⟨mem', hupdate, htranslate⟩ := @translate_updateFlags st.memory va t pml4
    (st.memory t (index va 0)).flags.setWritable hleaf ht hpresent hpresent
  refine ⟨⟨mem', st.allocator⟩, ?_, ?_⟩
  · rw [(hm.translated hreserved hlookup).owned hcount, hm.updateFlags, hupdate]
    rfl
  · rw [htranslate, htr]
    simp [Rights.restrict, PageTableEntry.ofFlags, PageTableEntry.flags, PageTableFlags.setWritable]

/-- The tables of the walk are in use, so a copy into a free frame does not touch them. -/
theorem copy_tables {g : ℕ} (hfree : st.allocator.testBit g = false) (src : ℕ) :
    ∀ p ∈ tables st.memory va 4 pml4, m.copy st.memory src (g * FRAME_SIZE) p = st.memory p := by
  intro p hp
  refine hm.copy _ _ _ _ ?_
  rintro rfl
  rw [huse.busy p hp] at hfree
  cases hfree

theorem resolve_clone (hreserved : (st.memory pml4 (index va 3)).hugePage = false)
    (hleaf : leafTable st.memory va 3 pml4 = some t)
    (hpresent : (st.memory t (index va 0)).present = true)
    (hhuge : (st.memory t (index va 0)).hugePage = false)
    (hlookup : lookup st.memory va 3 pml4 = some ⟨tr.frame, (st.memory t (index va 0)).flags⟩)
    (hcount : 2 ≤ frameCount st tr) {g : ℕ} {a' : BitmapFrameAllocator}
    (halloc : st.allocator.allocateFrame = (a', some (g * FRAME_SIZE)))
    (hfree : st.allocator.testBit g = false)
    (hothers : ∀ h, h ≠ g → a'.refCount h = st.allocator.refCount h) (hgf : g ≠ tr.frame)
    (hoverlap : overlap (tr.frame * FRAME_SIZE + va % FRAME_SIZE) (g * FRAME_SIZE) = false) :
    ∃ st' tr', resolveCowFault m st va = some (st', true) ∧
      Paging.translate st'.memory pml4 va = some tr' ∧ tr'.rights.writable = true ∧
      ((st.memory t (index va 0)).userAccessible = true → tr'.rights.user = true) := by
  set src := tr.frame * FRAME_SIZE + va % FRAME_SIZE with hsrc
  set fl := (st.memory t (index va 0)).flags with hfl
  have hsame := copy_tables hm huse hfree src
  have htables := tables_of_leafTable hleaf
  have hnodup := huse.nodup
  rw [htables] at hsame hnodup
  set mem₀ := m.copy st.memory src (g * FRAME_SIZE)
  obtain ⟨hleaf₀, hparents₀, -⟩ := @leafTable_congr st.memory mem₀ va 3 pml4
    fun p hp => hsame p (mem_append_left _ hp)
  have hentry₀ : mem₀ t = st.memory t :=
    hsame t (mem_append_right _ (mem_singleton.mpr rfl))
  obtain ⟨mem₁, mem₂, tr', hunmap, hmap, htranslate, hwritable, huser⟩ :=
    @translate_remap mem₀ va t _ systemAllocateFrame fl.setWritable a' pml4 g (hleaf₀.trans hleaf)
      (by rwa [hparents₀]) (by rwa [hentry₀]) (by rwa [hentry₀]) hpresent rfl
  have hframe : src / FRAME_SIZE = tr.frame := frame_div tr.frame va
  obtain ⟨a'', hdealloc⟩ := @BitmapFrameAllocator.deallocateFrame_isSome a' src (by
    rw [hframe, hothers _ (Ne.symm hgf), ← refCount_of_two hcount]
    exact Nat.lt_of_lt_of_le Nat.zero_lt_two hcount)
  exact ⟨⟨mem₂, a''⟩, tr', (hm.translated hreserved hlookup).cloned hcount halloc hoverlap
    (by rw [hm.unmap, hunmap]) (hm.mapTo _ _ va g _ _ _ hpresent hhuge hmap) hdealloc, htranslate,
    hwritable, huser⟩

theorem sound_iff_of_owner (hfault : WriteFault st.memory pml4 va (errorCode.testBit USER_MODE) tr)
    (hpresent : errorCode.testBit PROTECTION_VIOLATION = true)
    (hwrite : errorCode.testBit CAUSED_BY_WRITE = true) (hone : frameCount st tr = 1) :
    RepairSound m st tm pml4 va errorCode tr ↔
      OwnerRepairable st pml4 va (errorCode.testBit USER_MODE) tr := by
  rcases hfault.lookup_eq with ⟨t, hleaf, hleafp, htr, hlookup⟩ | ⟨hleaf, fl, -, hlookup⟩
  · obtain ⟨st', hrun, htranslate⟩ :=
      resolve_owner hm huse hfault.reserved hleaf hleafp htr hlookup hone
    rw [sound_iff_of_repaired hpresent hwrite hrun]
    constructor
    · rintro ⟨⟨tr', htr', hw, -⟩, hu⟩
      rw [htranslate] at htr'
      cases htr'
      exact .inl ⟨⟨t, hleaf⟩, hw, hu⟩
    · rintro (⟨-, hw, hu⟩ | ⟨hnone, -⟩)
      · exact ⟨⟨_, htranslate, hw, hu⟩, hu⟩
      · rw [hleaf] at hnone
        cases hnone
  · have hnone : resolveCowFault m st va = none := by
      rw [(hm.translated hfault.reserved hlookup).owned hone, hm.updateFlags,
        (updateFlags_of_huge hleaf).1]
      rfl
    rw [sound_iff_of_panic hpresent hwrite hnone]
    constructor
    · exact fun hu => .inr ⟨hleaf, hu⟩
    · rintro (⟨⟨t, ht⟩, -⟩ | ⟨-, hu⟩)
      · rw [hleaf] at ht
        cases ht
      · exact hu

end

theorem not_cloneRepairable_of_hugePage {x : Mapped} (hlookup : lookup st.memory va 3 pml4 = some x)
    (hbit : x.flags.hugePage = true) : ¬ CloneRepairable st pml4 va tr := by
  rintro ⟨-, ⟨y, hy, hclear⟩, -⟩
  rw [hlookup] at hy
  cases hy
  exact absurd (hbit.symm.trans hclear) (by decide)

theorem sound_iff_of_shared (hm : FourLevel m pml4) (hcoherent : st.allocator.Coherent)
    (huse : TablesInUse st.memory st.allocator pml4 va)
    (hfault : WriteFault st.memory pml4 va (errorCode.testBit USER_MODE) tr)
    (hpresent : errorCode.testBit PROTECTION_VIOLATION = true)
    (hwrite : errorCode.testBit CAUSED_BY_WRITE = true) (hcount : 2 ≤ frameCount st tr)
    (hfree : ∃ g, st.allocator.testBit g = false) :
    RepairSound m st tm pml4 va errorCode tr ↔
      errorCode.testBit USER_MODE = false ∨ CloneRepairable st pml4 va tr := by
  obtain ⟨g, a', halloc, hg, -, hothers⟩ := allocateFrame_new hfree
  have hgf : g ≠ tr.frame := ne_of_free hcoherent hg hcount
  have hnext : st.allocator.allocateFrame.2 = some ((tr.frame + 1) * FRAME_SIZE) ↔
      g = tr.frame + 1 := by
    rw [halloc, Option.some.injEq, Nat.mul_left_inj (by decide)]
  -- the two panics on this path are sound for Ring 0 only
  have hpanic : resolveCowFault m st va = none → ¬ CloneRepairable st pml4 va tr →
      (RepairSound m st tm pml4 va errorCode tr ↔
        errorCode.testBit USER_MODE = false ∨ CloneRepairable st pml4 va tr) := by
    intro hnone hnot
    rw [sound_iff_of_panic hpresent hwrite hnone, or_iff_left hnot]
  have hresolve : ∀ {fl}, lookup st.memory va 3 pml4 = some ⟨tr.frame, fl⟩ →
      resolveCowFault m st va = _ := fun hlookup =>
    (hm.translated hfault.reserved hlookup).shared hcount halloc
  have hsame := copy_tables hm huse hg (tr.frame * FRAME_SIZE + va % FRAME_SIZE)
  have hleaf₀ := leafTable_of_tables hsame
  by_cases hoverlap : overlap (tr.frame * FRAME_SIZE + va % FRAME_SIZE) (g * FRAME_SIZE) = true
  · have hnot : ¬ CloneRepairable st pml4 va tr := by
      rintro ⟨-, -, hclear⟩
      obtain ⟨hoff, hgnext⟩ := (overlap_iff hgf).mp hoverlap
      exact hclear ⟨hoff, hnext.mpr hgnext⟩
    refine hpanic ?_ hnot
    rcases hfault.lookup_eq with ⟨t, -, -, -, hlookup⟩ | ⟨-, fl, -, hlookup⟩
    · rw [hresolve hlookup, if_pos hoverlap]
    · rw [hresolve hlookup, if_pos hoverlap]
  have hclear : ¬ (va % FRAME_SIZE ≠ 0 ∧
      st.allocator.allocateFrame.2 = some ((tr.frame + 1) * FRAME_SIZE)) := by
    rintro ⟨hoff, hgnext⟩
    exact hoverlap ((overlap_iff hgf).mpr ⟨hoff, hnext.mp hgnext⟩)
  rcases hfault.lookup_eq with ⟨t, hleaf, hleafp, htr, hlookup⟩ | ⟨hleaf, fl, hbit, hlookup⟩
  · cases hbit : (st.memory t (index va 0)).hugePage with
    | true =>
      -- a 4 KiB leaf whose bit 7 is set is not removed by the mapper
      refine hpanic ?_ ?_
      · have hentry : m.copy st.memory (tr.frame * FRAME_SIZE + va % FRAME_SIZE)
            (g * FRAME_SIZE) t = st.memory t := by
          refine hsame t ?_
          rw [tables_of_leafTable hleaf]
          exact mem_append_right _ (mem_singleton.mpr rfl)
        rw [hresolve hlookup, if_neg hoverlap, hm.unmap, Paging.unmap, hleaf₀, hleaf]
        simp [hentry, hbit]
      · exact not_cloneRepairable_of_hugePage hlookup hbit
    | false =>
      obtain ⟨st', tr', hrun, htranslate, hwritable, huser⟩ := resolve_clone hm huse hfault.reserved
        hleaf hleafp hbit hlookup hcount halloc hg hothers hgf (Bool.eq_false_iff.mpr hoverlap)
      rw [sound_iff_of_repaired hpresent hwrite hrun]
      constructor
      · rintro ⟨-, hrights⟩
        cases hu : errorCode.testBit USER_MODE with
        | false => exact .inl rfl
        | true => exact .inr ⟨hrights hu, ⟨_, hlookup, hbit⟩, hclear⟩
      · rintro (hu | ⟨hrights, -, -⟩)
        · rw [hu]
          exact ⟨⟨tr', htranslate, hwritable, fun h => (by cases h)⟩, fun h => (by cases h)⟩
        · refine ⟨⟨tr', htranslate, hwritable, fun _ => huser ?_⟩, fun _ => hrights⟩
          rw [htr] at hrights
          exact (Bool.and_eq_true _ _ ▸ hrights).2
  · -- nor is a huge page
    refine hpanic ?_ ?_
    · rw [hresolve hlookup, if_neg hoverlap, hm.unmap, Paging.unmap, hleaf₀, hleaf]
      rfl
    · exact not_cloneRepairable_of_hugePage hlookup hbit

/-- **A write fault is treated soundly iff it is repairable.** -/
theorem page_fault_repair_sound_iff (hm : FourLevel m pml4) (hcoherent : st.allocator.Coherent)
    (huse : TablesInUse st.memory st.allocator pml4 va)
    (hfault : WriteFault st.memory pml4 va (errorCode.testBit USER_MODE) tr)
    (hpresent : errorCode.testBit PROTECTION_VIOLATION = true)
    (hwrite : errorCode.testBit CAUSED_BY_WRITE = true) :
    RepairSound m st tm pml4 va errorCode tr ↔
      Repairable st pml4 va (errorCode.testBit USER_MODE) tr := by
  obtain ⟨fl, hlookup⟩ : ∃ fl, lookup st.memory va 3 pml4 = some ⟨tr.frame, fl⟩ := by
    rcases hfault.lookup_eq with ⟨t, -, -, -, hlookup⟩ | ⟨-, fl, -, hlookup⟩
    · exact ⟨_, hlookup⟩
    · exact ⟨fl, hlookup⟩
  unfold Repairable
  by_cases hzero : frameCount st tr = 0
  · exact iff_of_true (sound_of_refused hpresent hwrite
      ((hm.translated hfault.reserved hlookup).refused hzero)) (.inl hzero)
  by_cases hone : frameCount st tr = 1
  · rw [sound_iff_of_owner hm huse hfault hpresent hwrite hone]
    simp [hone]
  · have htwo : 2 ≤ frameCount st tr := by omega
    rcases free_or_full st.allocator with ⟨hfree, hnotall⟩ | ⟨-, hall⟩
    · rw [sound_iff_of_shared hm hcoherent huse hfault hpresent hwrite htwo hfree]
      simp only [hzero, hone, htwo, hnotall, false_and, false_or, true_and]
    · exact iff_of_true (sound_of_refused hpresent hwrite
        ((hm.translated hfault.reserved hlookup).full htwo hall))
        (.inr (.inr ⟨htwo, .inl hall⟩))

/-! ### A page of a sole owner -/

/-- The mapper that is the documentation; the frame that a copy goes to is taken over whole. -/
def fourLevelMapper (pml4 : ℕ) : CowMapper Memory where
  translateAddr mem va :=
    (lookup mem va 3 pml4).map fun x => x.frame * FRAME_SIZE + va % FRAME_SIZE
  translate mem va := (lookup mem va 3 pml4).map fun x => x.flags
  updateFlags mem page fl := Paging.updateFlags mem pml4 (page * FRAME_SIZE) fl
  unmap mem page := Paging.unmap mem pml4 (page * FRAME_SIZE)
  mapTo mem a page g fl :=
    match mapToFlags systemAllocateFrame fl mem a pml4 (page * FRAME_SIZE) g with
    | (r, .ok ()) => some r
    | (_, .error _) => none
  copy mem src dst := update mem (dst / FRAME_SIZE) (mem (src / FRAME_SIZE))

theorem fourLevel_fourLevelMapper (pml4 : ℕ) : FourLevel (fourLevelMapper pml4) pml4 where
  translateAddr _ _ _ := rfl
  translate _ _ _ := rfl
  updateFlags mem va fl := updateFlags_page mem pml4 va fl
  unmap mem va := unmap_page mem pml4 va
  mapTo mem a va g fl mem' a' _ _ h := by
    have hpage := (mapToFlags_page systemAllocateFrame fl mem a pml4 va g).trans h
    unfold FRAME_SIZE fourLevelMapper
    simp only [FRAME_SIZE, hpage]
  copy mem src dst f hf := by
    change update mem (dst * FRAME_SIZE / FRAME_SIZE) _ f = mem f
    rw [Nat.mul_div_cancel _ (by decide), update_of_ne hf]

/-- Frames 1 to 4 hold the tables of page 0, which is mapped by the given leaf to frame 5; every
frame has one owner. -/
def onePage (leaf : PageTableEntry) : CowState Memory where
  memory table i :=
    if i = 0 then
      match table with
      | 1 => .user 2
      | 2 => .user 3
      | 3 => .user 4
      | 4 => leaf
      | _ => .unused
    else .unused
  allocator := allBusy 8

/-- A read-only user page. -/
def readOnlyPage : CowState Memory := onePage ⟨5, true, false, true, false, 0⟩

/-- A supervisor page. -/
def supervisorPage : CowState Memory := onePage ⟨5, true, false, false, false, 0⟩

theorem page_fault_repair_sound_readOnlyPage :
    RepairSound (fourLevelMapper 1) readOnlyPage .empty 1 0 7 ⟨5, ⟨true, false⟩⟩ := by
  have huse : TablesInUse readOnlyPage.memory readOnlyPage.allocator 1 0 :=
    ⟨by decide, by decide⟩
  have hfault : WriteFault readOnlyPage.memory 1 0 (Nat.testBit 7 USER_MODE)
    ⟨5, ⟨true, false⟩⟩ := by
    refine ⟨rfl, by decide, ?_⟩
    rintro ⟨tr, htr, hw, -⟩
    have hmapped : Paging.translate readOnlyPage.memory 1 0 = some ⟨5, ⟨true, false⟩⟩ := by decide
    rw [hmapped] at htr
    cases htr
    cases hw
  refine (page_fault_repair_sound_iff (fourLevel_fourLevelMapper 1) (coherent_allBusy 8) huse hfault
    (by decide) (by decide)).mpr (.inr (.inl ⟨by decide, .inl ⟨⟨4, by decide⟩, by decide, ?_⟩⟩))
  exact fun _ => rfl

/-- A Ring 3 write to a supervisor page of a sole owner is retried, and faults again. -/
theorem supervisor_write_retried :
    WriteFault supervisorPage.memory 1 0 true ⟨5, ⟨false, false⟩⟩ ∧
      ¬ RepairSound (fourLevelMapper 1) supervisorPage .empty 1 0 7 ⟨5, ⟨false, false⟩⟩ := by
  have hmapped : Paging.translate supervisorPage.memory 1 0 = some ⟨5, ⟨false, false⟩⟩ := by decide
  refine ⟨⟨rfl, hmapped, ?_⟩, fun hsound => ?_⟩
  · rintro ⟨tr, htr, hw, -⟩
    rw [hmapped] at htr
    cases htr
    cases hw
  · obtain ⟨st', hterm⟩ := hsound.supervisor (by decide) rfl
    cases hterm

end NwinOs.Core
