import NwinOs.Fs.Str

/-!
# The virtual file system

The initramfs is a TAR archive that the boot loader leaves in memory.  `findFile` scans it for one
name; `buildVfsTreeFromTar` registers its files under the root directory, where `resolvePath` looks
them up component by component, crossing into mounted file systems on the way.

`resolvePath` only uses the `VNode` interface, so the type of nodes is a parameter; the nodes of the
initramfs are `InitramfsNode`.  An archive has at most `isize::MAX` bytes and a size field at most
eleven digits, so no offset of the scans reaches `2^64`.
-/

namespace NwinOs.Fs

/-- The common interface of the nodes of every file system. -/
class VNode (N : Type) where
  /-- The bytes copied into a buffer of the given length. -/
  read : N → (offset length : ℕ) → List Byte := fun _ _ _ => []
  getSize : N → ℕ := fun _ => 0
  isDir : N → Bool := fun _ => false
  lookup : N → String → Option N := fun _ _ => none

/-! ### Archives -/

/-- Memory from the address of the archive on, and the archive's size. -/
structure TarContext where
  ptr : Bytes
  size : ℕ

namespace TarContext

section

variable (ctx : TarContext)

variable (offset : ℕ)

/-- The name in the header at `offset`: up to the first NUL of a 100-byte field, empty if it is not
valid UTF-8. -/
def currentFilename : String :=
  let field := ctx.ptr.slice offset 100
  let nameLen := (field.findIdx? (· == 0)).getD 100
  (fromUtf8 (field.take nameLen)).getD ""

/-- The size in the header at `offset`: eleven bytes of octal digits. -/
def fileSize : ℕ :=
  let sizeStr := trim ((fromUtf8 (ctx.ptr.slice (offset + 124) 11)).getD "0")
  (fromStrRadix sizeStr 8).getD 0

/-- The payload of the entry at `offset`. -/
def dataSlice : List Byte :=
  ctx.ptr.slice (offset + 512) (ctx.fileSize offset)

/-- Where the entry after the one at `offset` starts. -/
def nextOffset : ℕ :=
  let dataBlocks := (ctx.fileSize offset + 511) / 512
  offset + (512 + dataBlocks * 512)

end

/-- The scan of `findFile` from `offset` on.  Every turn moves at least one header forward, so the
archive's size is fuel enough. -/
def findFileLoop (ctx : TarContext) (filename : String) : ℕ → ℕ → Option (List Byte)
  | 0, _ => none
  | fuel + 1, offset =>
    if offset + 512 ≤ ctx.size then
      if ctx.ptr offset = 0 then none
      else if ctx.currentFilename offset = filename then some (ctx.dataSlice offset)
      else findFileLoop ctx filename fuel (ctx.nextOffset offset)
    else none

end TarContext

/-- Searches the initramfs for a file; `none` also when the file system is not initialised. -/
def findFile (initramfs : Option TarContext) (filename : String) : Option (List Byte) :=
  match initramfs with
  | some ctx => ctx.findFileLoop filename ctx.size 0
  | none => none

/-! ### Nodes of the initramfs -/

/-- Read-only node backed by a slice of initramfs memory. -/
structure TarVNode where
  data : List Byte
  deriving DecidableEq, Repr

instance : VNode TarVNode where
  read node offset length :=
    if node.data.length ≤ offset then []
    else
      let available := node.data.length - offset
      let bytesToCopy := min length available
      (node.data.drop offset).take bytesToCopy
  getSize node := node.data.length

/-- In-memory directory. -/
structure DirVNode (N : Type) where
  children : Std.ExtTreeMap String N

namespace DirVNode

/-- An empty directory. -/
def new {N : Type} : DirVNode N := ⟨∅⟩

/-- Inserts or replaces a child. -/
def add {N : Type} (dir : DirVNode N) (name : String) (node : N) : DirVNode N :=
  ⟨dir.children.insert name node⟩

end DirVNode

/-- A node of the tree that is built from the initramfs. -/
inductive InitramfsNode
  | tar (node : TarVNode)
  | dir (node : DirVNode TarVNode)

instance : VNode InitramfsNode where
  read
    | .tar node, offset, length => VNode.read node offset length
    | .dir _, _, _ => []
  getSize
    | .tar node => VNode.getSize node
    | .dir _ => 0
  isDir
    | .tar _ => false
    | .dir _ => true
  lookup
    | .tar _, _ => none
    | .dir node, name => (node.children[name]?).map .tar

namespace TarContext

/-- The scan of `buildVfsTreeFromTar` from `offset` on. -/
def buildLoop (ctx : TarContext) : ℕ → ℕ → DirVNode TarVNode → DirVNode TarVNode
  | 0, _, root => root
  | fuel + 1, offset, root =>
    if offset + 512 ≤ ctx.size then
      if ctx.ptr offset = 0 then root
      else
        let root :=
          if 0 < ctx.fileSize offset ∧ ctx.currentFilename offset ≠ "" then
            root.add (trimStartMatches (ctx.currentFilename offset) '/') ⟨ctx.dataSlice offset⟩
          else root
        buildLoop ctx fuel (ctx.nextOffset offset) root
    else root

end TarContext

/-- Registers every non-empty file of the initramfs under the root directory. -/
def buildVfsTreeFromTar (initramfs : Option TarContext) (vfsRoot : DirVNode TarVNode) :
    DirVNode TarVNode :=
  match initramfs with
  | some ctx => ctx.buildLoop ctx.size 0 vfsRoot
  | none => vfsRoot

/-! ### Path resolution -/

/-- Absolute paths with the roots of the file systems mounted there. -/
abbrev MountTable (N : Type) := Std.ExtTreeMap String N

namespace MountTable

variable {N : Type}

/-- An empty directory. -/
def new : MountTable N := ∅

variable (mounts : MountTable N)

/-- Anchors a file system at `path`, which is stored as it is spelled. -/
def mount (path : String) (node : N) : MountTable N :=
  mounts.insert path node

def getMount (path : String) : Option N := mounts[path]?

/-- Whether something was unmounted, and the table without it. -/
def unmount (path : String) : MountTable N × Bool :=
  (mounts.erase path, (mounts[path]?).isSome)

end MountTable

section

variable {N : Type} [VNode N]

/-- The components that are left, from the node `current` at `currentPath` on. -/
def resolveParts (mounts : MountTable N) : List String → N → String → Option N
  | [], current, _ => some current
  | part :: parts, current, currentPath =>
    if VNode.isDir current = false then none
    else
      let currentPath := currentPath ++ "/" ++ part
      match mounts[currentPath]? with
      | some mountedNode => resolveParts mounts parts mountedNode currentPath
      | none =>
        match VNode.lookup current part with
        | some nextNode => resolveParts mounts parts nextNode currentPath
        | none => none

/-- Resolves a path against the mount table and the in-memory tree. -/
def resolvePath (mounts : MountTable N) (vfsRoot : N) (path : String) : Option N :=
  resolveParts mounts (components path '/') ((mounts["/"]?).getD vfsRoot) ""

/-- Opens a file for the system-call layer. -/
def openVnode (mounts : MountTable N) (vfsRoot : N) (path : String) : Option N :=
  resolvePath mounts vfsRoot path

end

end NwinOs.Fs
