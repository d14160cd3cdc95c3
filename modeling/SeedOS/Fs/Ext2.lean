import Mathlib.Tactic.Ring
import SeedOS.Foundation.Faulting

namespace SeedOS.Fs

open Foundation

abbrev Image := ℕ → BitVec 8

/-- Reads of the disk. A division by zero is a fault. -/
abbrev Disk := Faulting ℕ

section Fields

def u16 (img : Image) (a : ℕ) : ℕ := (img a).toNat + 256 * (img (a + 1)).toNat

def u32 (img : Image) (a : ℕ) : ℕ := u16 img a + 65536 * u16 img (a + 2)

def read8 (img : Image) (a : ℕ) : Disk (BitVec 8) := .touch a (img a)

def read16 (img : Image) (a : ℕ) : Disk ℕ := do
  let lo ← read8 img a
  let hi ← read8 img (a + 1)
  pure (lo.toNat + 256 * hi.toNat)

def read32 (img : Image) (a : ℕ) : Disk ℕ := do
  let lo ← read16 img a
  let hi ← read16 img (a + 2)
  pure (lo + 65536 * hi)

end Fields

/-- What `ext2_init` keeps about the file system; `gdt` is the offset of the group
descriptors. -/
structure Ext2 where
  blockSize : ℕ
  inodesPerGroup : ℕ
  inodeSize : ℕ
  gdt : ℕ
  deriving DecidableEq

def ext2Magic : ℕ := 0xEF53

def ext2BlockPtr (fs : Ext2) (block : ℕ) : Option ℕ :=
  if block = 0 then none else some (block * fs.blockSize)

/-- `1024U << s_log_block_size`, with the shift count taken modulo 32 as the machine does. -/
def blockSizeOf (log : ℕ) : ℕ := 1024 * 2 ^ (log % 32) % 2 ^ 32

def readInodeSize (img : Image) (rev : ℕ) : Disk ℕ :=
  if rev = 0 then pure 128 else read16 img (1024 + 88)

/-- `ext2_init`; no file system stands for `-EINVAL`. -/
def ext2Init (img : Image) (size : ℕ) : Disk (Option Ext2) :=
  if size < 2048 then pure none
  else do
    let magic ← read16 img (1024 + 56)
    if magic ≠ ext2Magic then pure none
    else do
      let log ← read32 img (1024 + 24)
      let blockSize := blockSizeOf log
      let rev ← read32 img (1024 + 76)
      let inodeSize ← readInodeSize img rev
      let inodesPerGroup ← read32 img (1024 + 40)
      let _ ← read32 img (1024 + 4)
      let blocksPerGroup ← read32 img (1024 + 32)
      if blocksPerGroup = 0 then .fault
      else
        let gdtBlock := if blockSize = 1024 then 2 else 1
        pure (some ⟨blockSize, inodesPerGroup, inodeSize, gdtBlock * blockSize⟩)

section Blocks

def ext2ReadIndirect (fs : Ext2) (img : Image) (indirect index : ℕ) : Disk ℕ :=
  match ext2BlockPtr fs indirect with
  | none => pure 0
  | some block => read32 img (block + 4 * index)

def readSlot (img : Image) (inode slot : ℕ) : Disk ℕ := read32 img (inode + 40 + 4 * slot)

/-- `ext2_get_block_num`; the products are those of 32-bit and 64-bit arithmetic. -/
def ext2GetBlockNum (fs : Ext2) (img : Image) (inode logicalBlock : ℕ) : Disk ℕ :=
  let ptrs := fs.blockSize / 4
  let square := ptrs * ptrs % 2 ^ 32
  let cube := ptrs * ptrs * ptrs % 2 ^ 64
  if logicalBlock < 12 then readSlot img inode logicalBlock
  else
    let logicalBlock := logicalBlock - 12
    if logicalBlock < ptrs then do
      let indirect ← readSlot img inode 12
      ext2ReadIndirect fs img indirect logicalBlock
    else
      let logicalBlock := logicalBlock - ptrs
      if logicalBlock < square then do
        let double ← readSlot img inode 13
        let indirect ← ext2ReadIndirect fs img double (logicalBlock / ptrs)
        ext2ReadIndirect fs img indirect (logicalBlock % ptrs)
      else
        let logicalBlock := logicalBlock - square
        if logicalBlock < cube then
          if square = 0 then .fault
          else do
            let rem := logicalBlock % square
            let triple ← readSlot img inode 14
            let double ← ext2ReadIndirect fs img triple (logicalBlock / square)
            let indirect ← ext2ReadIndirect fs img double (rem / ptrs)
            ext2ReadIndirect fs img indirect (rem % ptrs)
        else pure 0

end Blocks

section Inodes

def ext2ReadInode (fs : Ext2) (img : Image) (ino : ℕ) : Disk (Option ℕ) := do
  let inodesCount ← read32 img 1024
  if ino = 0 ∨ inodesCount < ino then pure none
  else if fs.inodesPerGroup = 0 then .fault
  else do
    let group := (ino - 1) / fs.inodesPerGroup
    let localIndex := (ino - 1) % fs.inodesPerGroup
    let inodeTable ← read32 img (fs.gdt + 32 * group + 8)
    let offset := localIndex * fs.inodeSize
    if fs.blockSize = 0 then .fault
    else
      match ext2BlockPtr fs ((inodeTable + offset / fs.blockSize % 2 ^ 32) % 2 ^ 32) with
      | none => pure none
      | some table => pure (some (table + offset % fs.blockSize))

def isType (type mode : ℕ) : Prop := mode / 0x1000 % 16 = type

instance (type mode : ℕ) : Decidable (isType type mode) := inferInstanceAs (Decidable (_ = _))

/-- `i_mode` of a regular file has type 8, that of a directory type 4. -/
def ext2IsRegularFile (img : Image) (inode : ℕ) : Disk Bool := do
  let mode ← read16 img inode
  pure (isType 8 mode)

def ext2IsDirectory (img : Image) (inode : ℕ) : Disk Bool := do
  let mode ← read16 img inode
  pure (isType 4 mode)

def ext2GetFileSize (img : Image) (inode : ℕ) : Disk ℕ := do
  if ← ext2IsRegularFile img inode then
    let high ← read32 img (inode + 108)
    let low ← read32 img (inode + 4)
    pure (high * 2 ^ 32 + low)
  else read32 img (inode + 4)

end Inodes

section Lookup

/-- `ext2_strncmp` of the bytes on disk with a name: are they equal? -/
def ext2Strncmp (img : Image) : ℕ → List (BitVec 8) → Disk Bool
  | _, [] => pure true
  | a, c :: name => do
    let b ← read8 img a
    if b ≠ c then pure false
    else if b = 0#8 then pure true
    else ext2Strncmp img (a + 1) name

/-- Where the two loops of `ext2_lookup_in_dir` stand. -/
inductive Scan
  | outer (offset : ℕ)
  | inner (block offset blockOffset : ℕ)
  deriving DecidableEq

def matchEntry (img : Image) (a : ℕ) (name : List (BitVec 8)) : Disk (Option ℕ) := do
  let ino ← read32 img a
  if ino = 0 then pure none
  else do
    let nameLen ← read8 img (a + 6)
    if nameLen.toNat ≠ name.length then pure none
    else do
      let eq ← ext2Strncmp img (a + 8) name
      pure (if eq then some ino else none)

def scanStep (fs : Ext2) (img : Image) (dir size : ℕ) (name : List (BitVec 8)) :
    Scan → Disk (Scan ⊕ ℕ)
  | .outer offset =>
    if offset < size then
      if fs.blockSize = 0 then .fault else do
      let blockNum ← ext2GetBlockNum fs img dir (offset / fs.blockSize)
      if blockNum = 0 then
        pure (.inl (.outer (offset + (fs.blockSize - offset % fs.blockSize))))
      else pure (.inl (.inner (blockNum * fs.blockSize) offset (offset % fs.blockSize)))
    else pure (.inr 0)
  | .inner block offset blockOffset =>
    if blockOffset < fs.blockSize ∧ offset < size then do
      let recLen ← read16 img (block + blockOffset + 4)
      if recLen = 0 then pure (.inl (.outer offset))
      else do
        match ← matchEntry img (block + blockOffset) name with
        | some ino => pure (.inr ino)
        | none => pure (.inl (.inner block (offset + recLen) (blockOffset + recLen)))
    else pure (.inl (.outer offset))

def ext2LookupInDir (fs : Ext2) (img : Image) (fuel dir : ℕ) (name : List (BitVec 8)) :
    Disk ℕ := do
  let size ← ext2GetFileSize img dir
  Faulting.iterate (scanStep fs img dir size name) fuel (.outer 0)

/-- One round of the loop of `ext2_lookup`, with what is left of the path and the inode
number it has come to. The end of the list is the NUL at the end of the string. -/
def pathStep (fs : Ext2) (img : Image) (fuel : ℕ) :
    List (BitVec 8) × ℕ → Disk ((List (BitVec 8) × ℕ) ⊕ ℕ)
  | (p, ino) =>
    -- a path at its end has no slashes to skip either
    let p := p.dropWhile (· = 0x2f#8)
    if p = [] then pure (.inr ino)
    else do
      let name := p.takeWhile (· ≠ 0x2f#8)
      match ← ext2ReadInode fs img ino with
      | none => pure (.inr 0)
      | some dir => do
        if ← ext2IsDirectory img dir then
          let ino ← ext2LookupInDir fs img fuel dir name
          if ino = 0 then pure (.inr 0)
          else pure (.inl (p.dropWhile (· ≠ 0x2f#8), ino))
        else pure (.inr 0)

/-- Each round takes a byte of the path at least, so as many rounds as it has bytes are enough;
`fuel` bounds the search in a directory. -/
def ext2Lookup (fs : Ext2) (img : Image) (fuel : ℕ) (path : List (BitVec 8)) : Disk ℕ :=
  if path.head? = some 0x2f#8 then
    Faulting.iterate (pathStep fs img fuel) path.length (path.tail, 2)
  else pure 0

end Lookup

section Files

def copyBytes (img : Image) (src n : ℕ) : Disk (List (BitVec 8)) :=
  ⟨some ((List.range n).map fun i ↦ img (src + i)), (List.range n).map fun i ↦ src + i⟩

/-- The bytes of one round of `ext2_read_file`; a hole reads as zeros. -/
def readChunk (fs : Ext2) (img : Image) (blockNum blockOffset n : ℕ) : Disk (List (BitVec 8)) :=
  if blockNum = 0 then pure (List.replicate n 0#8)
  else copyBytes img (blockNum * fs.blockSize + blockOffset) n

/-- The loop of `ext2_read_file`; each round copies a byte at least, so `size` rounds
are enough. -/
def readLoop (fs : Ext2) (img : Image) (inode : ℕ) : ℕ → ℕ → ℕ → Disk (List (BitVec 8))
  | 0, _, _ => pure []
  | fuel + 1, offset, size =>
    if size = 0 then pure []
    else if fs.blockSize = 0 then .fault
    else do
      let logicalBlock := offset / fs.blockSize % 2 ^ 32
      let blockOffset := offset % fs.blockSize
      let toRead := min (fs.blockSize - blockOffset) size
      let blockNum ← ext2GetBlockNum fs img inode logicalBlock
      let bytes ← readChunk fs img blockNum blockOffset toRead
      let rest ← readLoop fs img inode fuel ((offset + toRead) % 2 ^ 64) (size - toRead)
      pure (bytes ++ rest)

/-- The size that `ext2_read_file` clamps a request to; the sum is a 64-bit one. -/
def clampSize (fileSize offset size : ℕ) : ℕ :=
  if fileSize ≤ offset then 0
  else if fileSize < (offset + size) % 2 ^ 64 then fileSize - offset
  else size

def ext2ReadFile (fs : Ext2) (img : Image) (inode offset size : ℕ) : Disk (List (BitVec 8)) := do
  let fileSize ← ext2GetFileSize img inode
  let size := clampSize fileSize offset size
  readLoop fs img inode size offset size

end Files

end SeedOS.Fs
