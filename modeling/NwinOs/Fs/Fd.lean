import NwinOs.Fs.Vfs
import NwinOs.Profile

/-!
# File descriptors

`FdTable` holds the open descriptors of one task.  The three standard streams are there from the
start; a file gets the next number of a counter that is never reset.  The counter is a `usize`: it
overflows after `2^64 - 3` files.
-/

namespace NwinOs.Fs

/-- Any input or output resource visible to user code. -/
inductive FileDescriptor (N : Type)
  | stdin
  | stdout
  | stderr
  /-- A file node, and the byte at which the program is reading. -/
  | regularFile (vnode : N) (offset : ℕ)

/-- Per-process file-descriptor table. -/
structure FdTable (N : Type) where
  descriptors : Std.ExtTreeMap ℕ (FileDescriptor N)
  nextFd : ℕ

namespace FdTable

variable {N : Type}

/-- A table with the standard streams at 0, 1 and 2. -/
def new : FdTable N where
  descriptors := ((∅ : Std.ExtTreeMap ℕ (FileDescriptor N)).insert 0 .stdin).insert 1 .stdout
    |>.insert 2 .stderr
  nextFd := 3

variable (table : FdTable N)

/-- The descriptor at a slot. -/
def get (fd : ℕ) : Option (FileDescriptor N) := table.descriptors[fd]?

/-- Overwrites the descriptor at a slot, as through the reference that `get_mut` returns. -/
def set (fd : ℕ) (file : FileDescriptor N) : FdTable N :=
  { table with descriptors := table.descriptors.insert fd file }

/-- Registers a file in the next slot; `none` is the overflow panic of the counter. -/
def insert (p : Profile) (table : FdTable N) (file : FileDescriptor N) : Option (FdTable N × ℕ) :=
  let fd := table.nextFd
  (p.add 64 fd 1).map fun nextFd => (⟨table.descriptors.insert fd file, nextFd⟩, fd)

/-- Closes a descriptor, and says whether something was removed.  The standard streams are
protected. -/
def close (fd : ℕ) : FdTable N × Bool :=
  if fd < 3 then (table, false)
  else
    ({ table with descriptors := table.descriptors.erase fd }, (table.descriptors[fd]?).isSome)

end FdTable

end NwinOs.Fs
