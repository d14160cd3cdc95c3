import SeedOS.Fs.Ext2
import SeedOS.Process.UserBuffer
import SeedOS.System.Kernel

namespace SeedOS.System

open Foundation Memory Process Fs Function

def enoent : Word := -2#64
def eio : Word := -5#64
def efault : Word := -14#64
def eisdir : Word := -21#64

/-- The rest of a `vfs_file_t` of a file on the disk, with its `ext2_file_private_t`. -/
structure Handle where
  flags : BitVec 32
  offset : ℕ
  inode : ℕ
  size : ℕ
  deriving DecidableEq

/-- A call of `sys_read` that did not fail: the file, the count asked for, and the bytes
that it stored to the buffer. -/
structure ReadCall where
  file : Ptr
  count : ℕ
  bytes : List (BitVec 8)
  deriving DecidableEq

/-- The processes with their files on the disk, and the reads so far. -/
structure FileState where
  kernel : Kernel
  handles : Ptr → Option Handle
  calls : List ReadCall

variable (fs : Ext2) (img : Image)

section Open

/-- The checks of `sys_open` on a path that is in kernel memory: the error, or the inode. -/
def openPath (fuel : ℕ) (path : List (BitVec 8)) : Disk (Word ⊕ ℕ) := do
  let ino ← ext2Lookup fs img fuel path
  if ino = 0 then pure (.inl enoent)
  else
    match ← ext2ReadInode fs img ino with
    | none => pure (.inl eio)
    | some inode => do
      if ← ext2IsRegularFile img inode then pure (.inr inode) else pure (.inl eisdir)

def sysOpenPath (fuel : ℕ) (st : FileState) (p : Ptr) (path : List (BitVec 8)) (flags : Word)
    (blocks : OpenBlocks) : Option (Word × FileState) := do
  match ← (openPath fs img fuel path).val with
  | .inl err =>
    let (ret, k) ← sysOpen st.kernel p (some err) blocks
    some (ret, { st with kernel := k })
  | .inr inode =>
    let size ← (ext2GetFileSize img inode).val
    let (ret, k) ← sysOpen st.kernel p none blocks
    match blocks.file with
    | none => some (ret, { st with kernel := k })
    | some file =>
      if ret.toInt < 0 then some (ret, { st with kernel := k })
      else
        some (ret, { st with
          kernel := k
          handles := update st.handles file (some ⟨flags.setWidth 32, 0, inode, size⟩) })

end Open

section Read

def ext2FileRead (h : Handle) (count : ℕ) : Disk (List (BitVec 8)) :=
  if h.size ≤ h.offset then pure []
  else
    let count := if h.size < (h.offset + count) % 2 ^ 64 then h.size - h.offset else count
    ext2ReadFile fs img h.inode h.offset count

/-- The offset moves on if the number of bytes is positive as an `ssize_t`. -/
def Handle.advance (h : Handle) (n : ℕ) : Handle :=
  if 0 < (BitVec.ofNat 64 n).toInt then { h with offset := (h.offset + n) % 2 ^ 64 } else h

/-- `vfs_read`: the error, or the bytes that the backend stores. Reads of the console
are left out. -/
def vfsRead (v : VfsFile) (h : Handle) (count : ℕ) : Option (Word ⊕ List (BitVec 8)) :=
  if h.flags &&& 3#32 = 1#32 then some (.inl ebadf)
  else
    match v.ops with
    | none => some (.inl einval)
    | some .tty => none
    | some .ext2 => (ext2FileRead fs img h count).val.map .inr

/-- `sys_read` by process `p`, with `CR0.WP` as the boot loader has left it. No result
means that the system has halted. -/
def sysRead (wp : Bool) (st : FileState) (p : Ptr) (fd buf count : Word) :
    Option (Word × FileState) := do
  let proc ← st.kernel.pcbs p
  if hfd : fd.toNat < 256 then
    match proc.fdTable ⟨fd.toNat, hfd⟩ with
    | none => some (ebadf, st)
    | some file =>
      if count = 0#64 then some (0#64, { st with calls := st.calls ++ [⟨file, 0, []⟩] })
      else if vmmUserRangeWritable st.kernel.vm proc.pml4Phys buf count = false then
        some (efault, st)
      else
        let v ← st.kernel.files file
        let h ← st.handles file
        match ← vfsRead fs img v h count.toNat with
        | .inl err => some (err, st)
        | .inr bytes =>
          let vm ← kernelStores wp proc.pml4Phys buf bytes st.kernel.vm
          some (BitVec.ofNat 64 bytes.length, ⟨{ st.kernel with vm := vm },
            update st.handles file (some (h.advance bytes.length)),
            st.calls ++ [⟨file, count.toNat, bytes⟩]⟩)
  else some (ebadf, st)

end Read

/-- What happens while processes share files. `memory` stands for all that changes memory
and no process block, as for the processes alone. -/
inductive FileAct
  | memory (vm : Vm)
  | fork (p : Ptr) (blocks : ForkBlocks)
  | read (p : Ptr) (fd buf count : Word)

def FileState.exec (wp : Bool) (fuel : ℕ) (st : FileState) : FileAct → Option FileState
  | .memory vm => some { st with kernel := { st.kernel with vm := vm } }
  | .fork p blocks => (sysFork fuel st.kernel p blocks).map fun r ↦ { st with kernel := r.2 }
  | .read p fd buf count => (sysRead fs img wp st p fd buf count).map (·.2)

end SeedOS.System
