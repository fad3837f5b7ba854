import NwinOs.Paging

/-!
# The kernel's own page walk

`is_user_page_mapped` looks an address up in the page tables that `CR3` points to, reading the
64-bit entries of the tables through the kernel's direct map.
-/

namespace NwinOs.Mm

open Paging

/-- The tables as the direct map shows them: the entry at an index of a frame. -/
abbrev RawTables := ℕ → ℕ → BitVec 64

def PRESENT : BitVec 64 := 1 <<< 0

def USER : BitVec 64 := 1 <<< 2

def HUGE : BitVec 64 := 1 <<< 7

/-- The address bits of an entry. -/
def PHYS_MASK : BitVec 64 := 0x000FFFFFFFFFF000

/-- The frame that an entry points to. -/
def physFrame (entry : BitVec 64) : ℕ := (entry &&& PHYS_MASK).toNat / 4096

/-- `is_user_page_mapped`; `pml4Frame` is what `CR3` holds. -/
def isUserPageMapped (tables : RawTables) (pml4Frame addr : ℕ) : Bool :=
  let p4Entry := tables pml4Frame (index addr 3)
  if p4Entry &&& PRESENT = 0 then false
  else
    let p3Entry := tables (physFrame p4Entry) (index addr 2)
    if p3Entry &&& PRESENT = 0 then false
    else if p3Entry &&& HUGE ≠ 0 then p3Entry &&& USER ≠ 0
    else
      let p2Entry := tables (physFrame p3Entry) (index addr 1)
      if p2Entry &&& PRESENT = 0 then false
      else if p2Entry &&& HUGE ≠ 0 then p2Entry &&& USER ≠ 0
      else
        let p1Entry := tables (physFrame p2Entry) (index addr 0)
        if p1Entry &&& PRESENT = 0 then false
        else p1Entry &&& USER ≠ 0

end NwinOs.Mm
