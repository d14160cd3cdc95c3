import Mathlib.Tactic.SplitIfs
import SeedOS.Fs.Ext2Bounds

namespace SeedOS.Fs

open Foundation

def inodeSizeOf (img : Image) : ℕ :=
  if u32 img (1024 + 76) = 0 then 128 else u16 img (1024 + 88)

def mounted (img : Image) : Ext2 :=
  let blockSize := blockSizeOf (u32 img (1024 + 24))
  ⟨blockSize, u32 img (1024 + 40), inodeSizeOf img, (if blockSize = 1024 then 2 else 1) * blockSize⟩

/-- `ext2_init` does not divide by zero, and does not shift by 32 or more. -/
def InitDefined (img : Image) (size : ℕ) : Prop :=
  (ext2Init img size).val ≠ none ∧ (u16 img (1024 + 56) = ext2Magic → u32 img (1024 + 24) < 32)

/-- The divisors of the reader, in 32-bit arithmetic. -/
structure Ext2.DivisorsNonzero (fs : Ext2) : Prop where
  blockSize : fs.blockSize ≠ 0
  inodesPerGroup : fs.inodesPerGroup ≠ 0
  ptrs : fs.blockSize / 4 ≠ 0
  square : fs.blockSize / 4 * (fs.blockSize / 4) % 2 ^ 32 ≠ 0

/-- No request divides by zero: not one for an inode, not one round of a search in a
directory, and not one for the bytes of a file. -/
structure DivisionFree (fs : Ext2) (img : Image) : Prop where
  readInode : ∀ ino, (ext2ReadInode fs img ino).val ≠ none
  search : ∀ dir n name s, (scanStep fs img dir n name s).val ≠ none
  readFile : ∀ inode offset size, (ext2ReadFile fs img inode offset size).val ≠ none

section Init

variable {img : Image} {size : ℕ}

theorem readInodeSize_val (img : Image) :
    (readInodeSize img (u32 img (1024 + 76))).val = some (inodeSizeOf img) := by
  unfold readInodeSize inodeSizeOf
  split
  · rfl
  · exact val_read16 img _

theorem ext2Init_val (hsize : 2048 ≤ size) : (ext2Init img size).val =
    if u16 img (1024 + 56) ≠ ext2Magic then some none
    else if u32 img (1024 + 32) = 0 then none
    else some (some (mounted img)) := by
  rw [ext2Init, if_neg (by omega), Faulting.val_bind, val_read16, Option.bind_some]
  by_cases hmagic : u16 img (1024 + 56) ≠ ext2Magic
  · rw [if_pos hmagic, if_pos hmagic, Faulting.val_pure]
  · rw [if_neg hmagic, if_neg hmagic]
    simp only [Faulting.val_bind, val_read32, Option.bind_some, readInodeSize_val]
    split
    · exact Faulting.val_fault
    · exact Faulting.val_pure _

theorem blockSizeOf_divisors {log : ℕ} (hlog : log < 32) :
    (blockSizeOf log ≠ 0 ∧ blockSizeOf log / 4 ≠ 0 ∧
      blockSizeOf log / 4 * (blockSizeOf log / 4) % 2 ^ 32 ≠ 0) ↔ log < 8 := by
  have hall : ∀ log < 32, (blockSizeOf log ≠ 0 ∧ blockSizeOf log / 4 ≠ 0 ∧
      blockSizeOf log / 4 * (blockSizeOf log / 4) % 2 ^ 32 ≠ 0) ↔ log < 8 := by decide
  exact hall log hlog

end Init

section Calls

variable {fs : Ext2} (h : fs.DivisorsNonzero) (img : Image)

include h

theorem blockOf_ne_none (inode b : ℕ) : blockOf fs img inode b ≠ none := by
  have hpath : blockPath fs.blockSize b ≠ .fault := by
    unfold blockPath
    dsimp only
    rw [if_neg h.square]
    split_ifs <;> simp
  unfold blockOf
  cases hb : blockPath fs.blockSize b with
  | via slot indices => simp
  | beyond => simp
  | fault => exact absurd hb hpath

theorem ext2ReadInode_ne_none (ino : ℕ) : (ext2ReadInode fs img ino).val ≠ none := by
  rw [ext2ReadInode, Faulting.val_bind, val_read32, Option.bind_some]
  split
  · simp
  · rw [if_neg h.inodesPerGroup]
    dsimp only
    rw [Faulting.val_bind, val_read32, Option.bind_some, if_neg h.blockSize]
    split <;> simp

theorem scanStep_ne_none (dir n : ℕ) (name : List (BitVec 8)) (s : Scan) :
    (scanStep fs img dir n name s).val ≠ none := by
  rw [scanStep_val fs img h.blockSize]
  cases s with
  | outer offset =>
    rw [scanNext]
    split
    · rw [ne_eq, Option.map_eq_none_iff]
      exact blockOf_ne_none h img dir _
    · simp
  | inner block offset blockOffset =>
    rw [scanNext]
    split
    · dsimp only
      cases entryIno img (block + blockOffset) name with
      | none => split <;> simp
      | some ino => split <;> simp
    · simp

theorem readLoop_ne_none (inode fuel : ℕ) (offset size : ℕ) :
    (readLoop fs img inode fuel offset size).val ≠ none := by
  induction fuel generalizing offset size with
  | zero => simp [readLoop]
  | succ fuel ih =>
    rw [readLoop]
    split
    · simp
    · rw [if_neg h.blockSize]
      dsimp only
      rw [Faulting.val_bind, ext2GetBlockNum_val]
      obtain ⟨b, hb⟩ := Option.ne_none_iff_exists'.mp (blockOf_ne_none h img inode
        (offset / fs.blockSize % 2 ^ 32))
      rw [hb, Option.bind_some, Faulting.val_bind]
      obtain ⟨bytes, hbytes, -⟩ := readChunk_length img b (offset % fs.blockSize)
        (min (fs.blockSize - offset % fs.blockSize) size)
      rw [hbytes, Option.bind_some, Faulting.val_bind]
      obtain ⟨rest, hrest⟩ := Option.ne_none_iff_exists'.mp (ih
        ((offset + min (fs.blockSize - offset % fs.blockSize) size) % 2 ^ 64)
        (size - min (fs.blockSize - offset % fs.blockSize) size))
      rw [hrest, Option.bind_some, Faulting.val_pure]
      simp

theorem divisionFree : DivisionFree fs img := by
  refine ⟨ext2ReadInode_ne_none h img, scanStep_ne_none h img, fun inode offset size ↦ ?_⟩
  rw [ext2ReadFile, Faulting.val_bind, ext2GetFileSize_val, Option.bind_some]
  exact readLoop_ne_none h img inode _ _ _

end Calls

/-- The reader never divides by zero, in mounting an image and later, exactly if the image
has not the magic number, or has blocks and inodes in its groups and a block size of at most
128 KiB. -/
theorem ext2_never_divides_by_zero (img : Image) {size : ℕ} (hsize : 2048 ≤ size) :
    (InitDefined img size ∧ ∀ fs, (ext2Init img size).val = some (some fs) →
      fs.DivisorsNonzero ∧ DivisionFree fs img) ↔
    (u16 img (1024 + 56) = ext2Magic → u32 img (1024 + 32) ≠ 0 ∧ u32 img (1024 + 24) < 8 ∧
      u32 img (1024 + 40) ≠ 0) := by
  rw [InitDefined, ext2Init_val hsize]
  by_cases hmagic : u16 img (1024 + 56) = ext2Magic
  · rw [if_neg (not_not_intro hmagic)]
    by_cases hblocks : u32 img (1024 + 32) = 0
    · rw [if_pos hblocks]
      simp [hmagic, hblocks]
    · rw [if_neg hblocks]
      simp only [ne_eq, reduceCtorEq, not_false_eq_true, true_and, hmagic, forall_const,
        Option.some.injEq, forall_eq', hblocks]
      constructor
      · rintro ⟨hlog, hfs, -⟩
        exact ⟨(blockSizeOf_divisors hlog).mp ⟨hfs.blockSize, hfs.ptrs, hfs.square⟩,
          hfs.inodesPerGroup⟩
      · rintro ⟨hlog, hinodes⟩
        obtain ⟨hbs, hptrs, hsquare⟩ := (blockSizeOf_divisors (by omega)).mpr hlog
        have hfs : (mounted img).DivisorsNonzero := ⟨hbs, hinodes, hptrs, hsquare⟩
        exact ⟨by omega, hfs, divisionFree hfs img⟩
  · rw [if_pos hmagic]
    simp [hmagic]

theorem ext2_never_divides_by_zero_small :
    (mounted smallImage).DivisorsNonzero ∧ DivisionFree (mounted smallImage) smallImage := by
  have hval : (ext2Init smallImage 4099).val = some (some (mounted smallImage)) := by
    rw [ext2Init_val (by decide), if_neg (by decide), if_neg (by decide)]
  exact ((ext2_never_divides_by_zero smallImage (by decide : 2048 ≤ 4099)).mpr
    fun _ ↦ by decide).2 _ hval

def bareMagic : Image := imageOf [(1024 + 56, 0x53#8), (1024 + 57, 0xEF#8)]

theorem ext2_init_divides_by_zero : (ext2Init bareMagic 2048).val = none := by
  decide

end SeedOS.Fs
