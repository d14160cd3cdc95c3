import SeedOS.Fs.Ext2

namespace SeedOS.Fs

open Foundation

section Fields

variable (img : Image) (a size : ℕ)

@[simp] theorem val_read8 : (read8 img a).val = some (img a) := by
  rw [read8, Faulting.val_touch]

@[simp] theorem val_read16 : (read16 img a).val = some (u16 img a) := by
  simp [read16, u16]

@[simp] theorem val_read32 : (read32 img a).val = some (u32 img a) := by
  simp [read32, u32]

theorem all_read8 : (read8 img a).All (· < size) ↔ a + 1 ≤ size := by
  rw [read8, Faulting.all_touch, Nat.lt_iff_add_one_le]

theorem all_read16 : (read16 img a).All (· < size) ↔ a + 2 ≤ size := by
  simp only [read16, Faulting.all_bind, all_read8, Faulting.all_pure, implies_true, and_true,
    val_read8, Option.some.injEq, forall_eq']
  omega

theorem all_read32 : (read32 img a).All (· < size) ↔ a + 4 ≤ size := by
  simp only [read32, Faulting.all_bind, all_read16, Faulting.all_pure, implies_true, and_true,
    val_read16, Option.some.injEq, forall_eq']
  omega

end Fields

inductive BlockPath
  | via (slot : ℕ) (indices : List ℕ)
  | beyond
  | fault
  deriving DecidableEq

/-- The slot of `i_block` and the indices in the indirect blocks, for logical block `b`. -/
def blockPath (blockSize b : ℕ) : BlockPath :=
  let ptrs := blockSize / 4
  let square := ptrs * ptrs % 2 ^ 32
  let cube := ptrs * ptrs * ptrs % 2 ^ 64
  if b < 12 then .via b []
  else if b - 12 < ptrs then .via 12 [b - 12]
  else if b - 12 - ptrs < square then .via 13 [(b - 12 - ptrs) / ptrs, (b - 12 - ptrs) % ptrs]
  else if b - 12 - ptrs - square < cube then
    if square = 0 then .fault
    else .via 14 [(b - 12 - ptrs - square) / square, (b - 12 - ptrs - square) % square / ptrs,
      (b - 12 - ptrs - square) % square % ptrs]
  else .beyond

section Map

variable (fs : Ext2) (img : Image) (size inode b : ℕ)

/-- Entry `i` of an indirect block; block 0 is a hole. -/
def entryOf (block i : ℕ) : ℕ := if block = 0 then 0 else u32 img (block * fs.blockSize + 4 * i)

def followEntries : ℕ → List ℕ → ℕ
  | block, [] => block
  | block, i :: indices => followEntries (entryOf fs img block i) indices

def EntriesPlaced : ℕ → List ℕ → Prop
  | _, [] => True
  | block, i :: indices =>
    (block ≠ 0 → block * fs.blockSize + 4 * i + 4 ≤ size) ∧
      EntriesPlaced (entryOf fs img block i) indices

def slotOf (slot : ℕ) : ℕ := u32 img (inode + 40 + 4 * slot)

/-- The block that holds logical block `b`, 0 for a hole; nothing where the code divides
by zero. -/
def blockOf : Option ℕ :=
  match blockPath fs.blockSize b with
  | .via slot indices => some (followEntries fs img (slotOf img inode slot) indices)
  | .beyond => some 0
  | .fault => none

def MapPlaced : Prop :=
  match blockPath fs.blockSize b with
  | .via slot indices => inode + 44 + 4 * slot ≤ size ∧
      EntriesPlaced fs img size (slotOf img inode slot) indices
  | _ => True

@[simp] theorem val_readSlot (slot : ℕ) :
    (readSlot img inode slot).val = some (slotOf img inode slot) := by
  rw [readSlot, val_read32, slotOf]

theorem all_readSlot (slot : ℕ) :
    (readSlot img inode slot).All (· < size) ↔ inode + 44 + 4 * slot ≤ size := by
  rw [readSlot, all_read32]
  omega

@[simp] theorem val_ext2ReadIndirect (block i : ℕ) :
    (ext2ReadIndirect fs img block i).val = some (entryOf fs img block i) := by
  unfold ext2ReadIndirect ext2BlockPtr entryOf
  by_cases h : block = 0
  · simp [h]
  · simp [h]

theorem all_ext2ReadIndirect (block i : ℕ) : (ext2ReadIndirect fs img block i).All (· < size) ↔
    (block ≠ 0 → block * fs.blockSize + 4 * i + 4 ≤ size) := by
  unfold ext2ReadIndirect ext2BlockPtr
  by_cases h : block = 0
  · simp [h]
  · simp [h, all_read32]

theorem ext2GetBlockNum_spec :
    (ext2GetBlockNum fs img inode b).val = blockOf fs img inode b ∧
      ((ext2GetBlockNum fs img inode b).All (· < size) ↔ MapPlaced fs img size inode b) := by
  unfold ext2GetBlockNum blockOf MapPlaced blockPath
  dsimp only
  by_cases h₁ : b < 12
  · simp only [if_pos h₁, val_readSlot, all_readSlot, followEntries, EntriesPlaced, and_true,
      and_self]
  simp only [if_neg h₁]
  by_cases h₂ : b - 12 < fs.blockSize / 4
  · simp only [if_pos h₂, Faulting.val_bind, Faulting.all_bind, val_readSlot, all_readSlot,
      Option.bind_some, val_ext2ReadIndirect, all_ext2ReadIndirect, Option.some.injEq, forall_eq',
      followEntries, EntriesPlaced, and_true, and_self]
  simp only [if_neg h₂]
  by_cases h₃ : b - 12 - fs.blockSize / 4 < fs.blockSize / 4 * (fs.blockSize / 4) % 2 ^ 32
  · simp only [if_pos h₃, Faulting.val_bind, Faulting.all_bind, val_readSlot, all_readSlot,
      Option.bind_some, val_ext2ReadIndirect, all_ext2ReadIndirect, Option.some.injEq, forall_eq',
      followEntries, EntriesPlaced, and_true, and_self]
  simp only [if_neg h₃]
  by_cases h₄ : b - 12 - fs.blockSize / 4 - fs.blockSize / 4 * (fs.blockSize / 4) % 2 ^ 32 <
      fs.blockSize / 4 * (fs.blockSize / 4) * (fs.blockSize / 4) % 2 ^ 64
  · simp only [if_pos h₄]
    by_cases h₅ : fs.blockSize / 4 * (fs.blockSize / 4) % 2 ^ 32 = 0
    · simp only [if_pos h₅, Faulting.val_fault, Faulting.all_fault, and_self]
    · simp only [if_neg h₅, Faulting.val_bind, Faulting.all_bind, val_readSlot, all_readSlot,
        Option.bind_some, val_ext2ReadIndirect, all_ext2ReadIndirect, Option.some.injEq,
        forall_eq', followEntries, EntriesPlaced, and_true, and_self]
  · simp only [if_neg h₄, Faulting.val_pure, Faulting.all_pure, and_self]

theorem ext2GetBlockNum_val : (ext2GetBlockNum fs img inode b).val = blockOf fs img inode b :=
  (ext2GetBlockNum_spec fs img 0 inode b).1

theorem ext2GetBlockNum_all :
    (ext2GetBlockNum fs img inode b).All (· < size) ↔ MapPlaced fs img size inode b :=
  (ext2GetBlockNum_spec fs img size inode b).2

end Map

end SeedOS.Fs
