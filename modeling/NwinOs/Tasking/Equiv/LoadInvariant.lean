import NwinOs.Tasking.Elf

/-!
# Conditions that the ELF loader keeps

The loader changes its state in three places: it logs an event, it maps a page and it copies a piece
of the file.  What these three keep is kept by the whole loader (`LoadInvariant.loadElf`), whatever
the executable.
-/

namespace NwinOs.Tasking

open Effect Paging Mm

/-- A condition that the three primitives keep. -/
structure LoadInvariant (m : LookupMapper) (elf : ElfSlice) (pml4 : ℕ) (I : LoadState → Prop) :
    Prop where
  emit : ∀ event, Preserves I (emit event)
  mapUserPage : ∀ pageAddr, Preserves I (mapUserPage m pml4 pageAddr)
  copyChunk : ∀ pageAddr offsetInPage fileOffset bytesToCopy,
    Preserves I (copyChunk m elf pml4 pageAddr offsetInPage fileOffset bytesToCopy)

namespace LoadInvariant

variable {m : LookupMapper} {p : Profile} {elf : ElfSlice} {pml4 : ℕ} {I : LoadState → Prop}

variable (h : LoadInvariant m elf pml4 I)
include h

theorem readUnaligned {offset size : ℕ} : Preserves I (readUnaligned elf offset size) :=
  (h.emit _).bind fun _ => .pure

theorem mapSegment {count page : ℕ} : Preserves I (mapSegment m pml4 count page) := by
  induction count generalizing page with
  | zero => exact .pure
  | succ count ih =>
    exact Preserves.ofOption.bind fun _ => (h.mapUserPage _).bind fun _ => ih.bind fun _ => .pure

theorem copySegment {fuel remaining fileOffset va : ℕ} :
    Preserves I (copySegment m p elf pml4 fuel remaining fileOffset va) := by
  induction fuel generalizing remaining fileOffset va with
  | zero => exact .pure
  | succ fuel ih =>
    rw [Tasking.copySegment]
    split_ifs
    · exact Preserves.ofOption.bind fun _ => (h.copyChunk _ _ _ _).bind fun _ =>
        Preserves.ofOption.bind fun _ => Preserves.ofOption.bind fun _ => ih.bind fun _ => .pure
    · exact .pure

theorem loadSegment {header : ProgramHeader} : Preserves I (loadSegment m p elf pml4 header) := by
  rw [Tasking.loadSegment]
  by_cases hempty : header.pMemsz = 0
  · rw [if_pos hempty]
    exact .pure
  · rw [if_neg hempty]
    refine Preserves.bind .ofOption ?_
    intro segmentEnd
    refine Preserves.bind .ofOption ?_
    intro segmentEnd
    refine Preserves.bind h.mapSegment ?_
    intro mapped
    split_ifs
    · exact h.copySegment.bind fun _ => .pure
    · exact .pure

theorem readProgramHeader {phPtr : ℕ} : Preserves I (readProgramHeader elf phPtr) :=
  h.readUnaligned.bind fun _ => h.readUnaligned.bind fun _ => h.readUnaligned.bind fun _ =>
    h.readUnaligned.bind fun _ => .pure

theorem typed {pType phPtr : ℕ} :
    Preserves I (if pType = 1 then do
      let header ← Tasking.readProgramHeader elf phPtr
      Tasking.loadSegment m p elf pml4 header
      else pure true) := by
  split_ifs
  · exact h.readProgramHeader.bind fun _ => h.loadSegment
  · exact .pure

theorem loadHeader {phOffset phEntrySize i : ℕ} :
    Preserves I (loadHeader m p elf pml4 phOffset phEntrySize i) :=
  Preserves.ofOption.bind fun _ => Preserves.ofOption.bind fun _ => (h.emit _).bind fun _ =>
    h.readUnaligned.bind fun _ => h.typed

theorem loadHeaders {phOffset phEntrySize n i : ℕ} :
    Preserves I (loadHeaders m p elf pml4 phOffset phEntrySize n i) := by
  induction n generalizing i with
  | zero => exact .pure
  | succ n ih => exact h.loadHeader.bind fun _ => ih.bind fun _ => .pure

/-- **The whole loader keeps the condition.** -/
theorem loadElf : Preserves I (loadElf m p elf pml4) := by
  unfold Tasking.loadElf
  split_ifs with hsmall hmagic hclass
  · exact .throw
  · exact .throw
  · exact .throw
  · refine h.readUnaligned.bind fun _ => h.readUnaligned.bind fun _ => h.readUnaligned.bind fun _ =>
      h.readUnaligned.bind fun _ => h.loadHeaders.bind fun loaded => ?_
    split_ifs
    · exact .pure
    · exact .throw

omit h

end LoadInvariant

end NwinOs.Tasking
