import SeedOS.Foundation.Traced
import SeedOS.Fs.FileContent

namespace SeedOS.Fs

open Foundation

/-- What `ext2_get_block_num` does with 32-bit words: products, differences, and the entries
of an indirect block. -/
inductive WordOp
  | mul (a b : BitVec 32)
  | sub (a b : BitVec 32)
  | entry (index : BitVec 32)

def WordOp.Exact (blockSize : ℕ) : WordOp → Prop
  | .mul a b => a.toNat * b.toNat < 2 ^ 32
  | .sub a b => b.toNat ≤ a.toNat
  | .entry index => index.toNat < blockSize / 4

theorem Ext2.StandardBlocks.lt {fs : Ext2} (h : fs.StandardBlocks) : fs.blockSize < 2 ^ 32 := by
  obtain ⟨log, hlog, hbs⟩ := h
  have hpow := Nat.pow_le_pow_right (n := 2) (by decide) hlog
  omega

namespace Words

def mul (a b : BitVec 32) : Traced WordOp (BitVec 32) := .touch (.mul a b) (a * b)

def sub (a b : BitVec 32) : Traced WordOp (BitVec 32) := .touch (.sub a b) (a - b)

section Blocks

variable (fs : Ext2) (img : Image)

def slot (inode i : ℕ) : BitVec 32 := BitVec.ofNat 32 (u32 img (inode + 40 + 4 * i))

def ext2ReadIndirect (block index : BitVec 32) : Traced WordOp (BitVec 32) :=
  if block = 0#32 then .touch (.entry index) 0#32
  else .touch (.entry index)
    (BitVec.ofNat 32 (u32 img (block.toNat * fs.blockSize + 4 * index.toNat)))

def ext2GetBlockNum (inode : ℕ) (logicalBlock : BitVec 32) : Traced WordOp (BitVec 32) :=
  let ptrs := BitVec.ofNat 32 fs.blockSize / 4#32
  if logicalBlock < 12#32 then pure (slot img inode logicalBlock.toNat)
  else do
    let logicalBlock ← sub logicalBlock 12#32
    if logicalBlock < ptrs then ext2ReadIndirect fs img (slot img inode 12) logicalBlock
    else do
      let logicalBlock ← sub logicalBlock ptrs
      let square ← mul ptrs ptrs
      if logicalBlock < square then do
        let indirect ← ext2ReadIndirect fs img (slot img inode 13) (logicalBlock / ptrs)
        ext2ReadIndirect fs img indirect (logicalBlock % ptrs)
      else do
        let logicalBlock ← sub logicalBlock square
        let cube := ptrs.setWidth 64 * ptrs.setWidth 64 * ptrs.setWidth 64
        if logicalBlock.setWidth 64 < cube then do
          let rem := logicalBlock % square
          let double ← ext2ReadIndirect fs img (slot img inode 14) (logicalBlock / square)
          let indirect ← ext2ReadIndirect fs img double (rem / ptrs)
          ext2ReadIndirect fs img indirect (rem % ptrs)
        else pure 0#32

end Blocks

section Spec

variable {fs : Ext2} (img : Image)

theorem u32_lt (a : ℕ) : u32 img a < 2 ^ 32 := by
  have h₀ := (img a).isLt
  have h₁ := (img (a + 1)).isLt
  have h₂ := (img (a + 2)).isLt
  have h₃ := (img (a + 2 + 1)).isLt
  unfold u32 u16
  omega

theorem toNat_u32 (a : ℕ) : (BitVec.ofNat 32 (u32 img a)).toNat = u32 img a := by
  rw [BitVec.toNat_ofNat, Nat.mod_eq_of_lt (u32_lt img a)]

theorem slot_toNat (inode i : ℕ) : (slot img inode i).toNat = slotOf img inode i :=
  toNat_u32 img _

theorem ext2ReadIndirect_spec (block index : BitVec 32) :
    (ext2ReadIndirect fs img block index).val.toNat = entryOf fs img block.toNat index.toNat ∧
      ((ext2ReadIndirect fs img block index).All (WordOp.Exact fs.blockSize) ↔
        index.toNat < fs.blockSize / 4) := by
  unfold ext2ReadIndirect entryOf
  by_cases h : block = 0#32
  · subst h
    exact ⟨rfl, by rw [if_pos rfl, Traced.all_touch, WordOp.Exact]⟩
  · have hne : block.toNat ≠ 0 := fun h₀ ↦ h (BitVec.eq_of_toNat_eq h₀)
    rw [if_neg h, if_neg hne, Traced.all_touch, Traced.val_touch]
    exact ⟨toNat_u32 img _, Iff.rfl⟩

theorem ext2ReadIndirect_val (block index : BitVec 32) :
    (ext2ReadIndirect fs img block index).val.toNat = entryOf fs img block.toNat index.toNat :=
  (ext2ReadIndirect_spec img block index).1

theorem all_ext2ReadIndirect (block index : BitVec 32) :
    (ext2ReadIndirect fs img block index).All (WordOp.Exact fs.blockSize) ↔
      index.toNat < fs.blockSize / 4 :=
  (ext2ReadIndirect_spec img block index).2

theorem ext2GetBlockNum_spec (h : fs.StandardBlocks) (inode : ℕ) (b : BitVec 32) :
    blockOf fs img inode b.toNat = some (ext2GetBlockNum fs img inode b).val.toNat ∧
      (ext2GetBlockNum fs img inode b).All (WordOp.Exact fs.blockSize) := by
  obtain ⟨hpos, hsq, hcube⟩ := h.ptrs
  have hptrs : (BitVec.ofNat 32 fs.blockSize / 4#32).toNat = fs.blockSize / 4 := by
    rw [BitVec.toNat_udiv, BitVec.toNat_ofNat, Nat.mod_eq_of_lt h.lt]
    rfl
  unfold ext2GetBlockNum blockOf blockPath
  generalize BitVec.ofNat 32 fs.blockSize / 4#32 = ptrs at *
  dsimp only
  rw [Nat.mod_eq_of_lt hsq, Nat.mod_eq_of_lt hcube]
  have hsquare : (ptrs * ptrs).toNat = fs.blockSize / 4 * (fs.blockSize / 4) := by
    rw [BitVec.toNat_mul, hptrs, Nat.mod_eq_of_lt hsq]
  by_cases h₁ : b.toNat < 12
  · rw [if_pos h₁, if_pos (BitVec.lt_def.mpr h₁)]
    exact ⟨congrArg some (slot_toNat img inode b.toNat).symm, Traced.all_pure _⟩
  rw [if_neg h₁, if_neg (BitVec.lt_def.not.mpr h₁)]
  have hsub₁ : (b - 12#32).toNat = b.toNat - 12 :=
    BitVec.toNat_sub_of_le (BitVec.le_def.mpr (Nat.not_lt.mp h₁))
  simp only [sub, mul, Traced.val_touch_bind, Traced.all_touch_bind]
  by_cases h₂ : b.toNat - 12 < fs.blockSize / 4
  · rw [if_pos h₂, if_pos (BitVec.lt_def.mpr (by rwa [hsub₁, hptrs])), all_ext2ReadIndirect,
      ext2ReadIndirect_val, slot_toNat, hsub₁]
    exact ⟨rfl, Nat.not_lt.mp h₁, h₂⟩
  rw [if_neg h₂, if_neg (BitVec.lt_def.not.mpr (by rwa [hsub₁, hptrs]))]
  have hsub₂ : (b - 12#32 - ptrs).toNat = b.toNat - 12 - fs.blockSize / 4 := by
    rw [BitVec.toNat_sub_of_le (BitVec.le_def.mpr (by omega)), hsub₁, hptrs]
  have hfirst : (WordOp.sub b 12#32).Exact fs.blockSize := Nat.not_lt.mp h₁
  have hsecond : (WordOp.sub (b - 12#32) ptrs).Exact fs.blockSize := by
    rw [WordOp.Exact, hsub₁, hptrs]
    exact Nat.not_lt.mp h₂
  have hproduct : (WordOp.mul ptrs ptrs).Exact fs.blockSize := by
    rw [WordOp.Exact, hptrs]
    exact hsq
  simp only [Traced.val_touch_bind, Traced.all_touch_bind, hfirst, hsecond, hproduct, true_and]
  generalize hb₂ : b - 12#32 - ptrs = b₂ at *
  generalize b.toNat - 12 - fs.blockSize / 4 = n₂ at *
  by_cases h₃ : n₂ < fs.blockSize / 4 * (fs.blockSize / 4)
  · rw [if_pos h₃, if_pos (BitVec.lt_def.mpr (by rwa [hsub₂, hsquare])), Traced.val_bind,
      Traced.all_bind, all_ext2ReadIndirect, all_ext2ReadIndirect, ext2ReadIndirect_val,
      ext2ReadIndirect_val, slot_toNat, BitVec.toNat_udiv, BitVec.toNat_umod, hsub₂, hptrs]
    exact ⟨rfl, Nat.div_lt_of_lt_mul h₃, Nat.mod_lt _ hpos⟩
  rw [if_neg h₃, if_neg (BitVec.lt_def.not.mpr (by rwa [hsub₂, hsquare]))]
  have hsub₃ : (b₂ - ptrs * ptrs).toNat = n₂ - fs.blockSize / 4 * (fs.blockSize / 4) := by
    rw [BitVec.toNat_sub_of_le (BitVec.le_def.mpr (by omega)), hsub₂, hsquare]
  have hthird : (WordOp.sub b₂ (ptrs * ptrs)).Exact fs.blockSize := by
    rw [WordOp.Exact, hsub₂, hsquare]
    exact Nat.not_lt.mp h₃
  simp only [Traced.val_touch_bind, Traced.all_touch_bind, hthird, true_and]
  have hcubed : (ptrs.setWidth 64 * ptrs.setWidth 64 * ptrs.setWidth 64).toNat =
      fs.blockSize / 4 * (fs.blockSize / 4) * (fs.blockSize / 4) := by
    rw [BitVec.toNat_mul, BitVec.toNat_mul, BitVec.toNat_setWidth_of_le (by decide), hptrs,
      Nat.mod_mul_mod, Nat.mod_eq_of_lt hcube]
  generalize b₂ - ptrs * ptrs = b₃ at *
  generalize n₂ - fs.blockSize / 4 * (fs.blockSize / 4) = n₃ at *
  by_cases h₄ : n₃ < fs.blockSize / 4 * (fs.blockSize / 4) * (fs.blockSize / 4)
  · have hlt : b₃.setWidth 64 < ptrs.setWidth 64 * ptrs.setWidth 64 * ptrs.setWidth 64 := by
      rw [BitVec.lt_def, hcubed, BitVec.toNat_setWidth_of_le (by decide), hsub₃]
      exact h₄
    rw [if_pos h₄, if_pos hlt, if_neg (Nat.ne_of_gt (Nat.mul_pos hpos hpos))]
    simp only [Traced.val_bind, Traced.all_bind, all_ext2ReadIndirect, ext2ReadIndirect_val,
      slot_toNat, BitVec.toNat_udiv, BitVec.toNat_umod, hsub₃, hptrs, hsquare]
    refine ⟨rfl, Nat.div_lt_of_lt_mul h₄, Nat.div_lt_of_lt_mul ?_, Nat.mod_lt _ hpos⟩
    exact Nat.mod_lt _ (Nat.mul_pos hpos hpos)
  · have hlt : ¬b₃.setWidth 64 < ptrs.setWidth 64 * ptrs.setWidth 64 * ptrs.setWidth 64 := by
      rw [BitVec.lt_def, hcubed, BitVec.toNat_setWidth_of_le (by decide), hsub₃]
      exact h₄
    rw [if_neg h₄, if_neg hlt]
    exact ⟨rfl, Traced.all_pure _⟩

end Spec

end Words

/-- `ext2_get_block_num` finds entry `b` in the sequence of a file's blocks, in the code's own
words: nothing wraps, and every entry is taken from inside its indirect block. -/
theorem block_mapping_linear {fs : Ext2} (h : fs.StandardBlocks) (img : Image) (inode : ℕ)
    (b : BitVec 32) :
    (Words.ext2GetBlockNum fs img inode b).val.toNat = (fileBlocks fs img inode).getD b.toNat 0 ∧
      (Words.ext2GetBlockNum fs img inode b).All (WordOp.Exact fs.blockSize) ∧
      (ext2GetBlockNum fs img inode b.toNat).val =
        some (Words.ext2GetBlockNum fs img inode b).val.toNat := by
  obtain ⟨hval, hexact⟩ := Words.ext2GetBlockNum_spec img h inode b
  have hblock := blockOf_eq img inode h b.toNat
  rw [hval, Option.some.injEq] at hblock
  exact ⟨hblock, hexact, by rw [ext2GetBlockNum_val, hval]⟩

/-- Blocks of 1 KiB; the indirect block of the inode at 0 is block 5, whose entry 3 is block 7. -/
def indirectImage : Image := fun a ↦ if a = 88 then 5#8 else if a = 5132 then 7#8 else 0#8

theorem block_mapping_indirect : (⟨1024, 8, 128, 2048⟩ : Ext2).StandardBlocks ∧
    (fileBlocks ⟨1024, 8, 128, 2048⟩ indirectImage 0).getD 15 0 = 7 :=
  have hstandard : (⟨1024, 8, 128, 2048⟩ : Ext2).StandardBlocks := ⟨0, by decide, rfl⟩
  ⟨hstandard, (block_mapping_linear hstandard indirectImage 0 15#32).1.symm.trans (by decide)⟩

end SeedOS.Fs
