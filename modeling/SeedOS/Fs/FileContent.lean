import SeedOS.Foundation.UniformTree
import SeedOS.Fs.FileBounds

namespace SeedOS.Fs

open Foundation

/-- The block sizes of the ext2 format are those from 1 KiB to 64 KiB. -/
def Ext2.StandardBlocks (fs : Ext2) : Prop := ∃ log ≤ 6, fs.blockSize = 1024 * 2 ^ log

section Content

variable (fs : Ext2) (img : Image) (inode : ℕ)

/-- The blocks of a file in order: the direct ones, then those below the indirect, the
doubly and the triply indirect block. Block 0 is a hole. -/
def fileBlocks : List ℕ :=
  (List.range 12).map (slotOf img inode) ++
    (leaves (entryOf fs img) (fs.blockSize / 4) 1 (slotOf img inode 12) ++
      (leaves (entryOf fs img) (fs.blockSize / 4) 2 (slotOf img inode 13) ++
        leaves (entryOf fs img) (fs.blockSize / 4) 3 (slotOf img inode 14)))

def fileByte (x : ℕ) : BitVec 8 :=
  let block := (fileBlocks fs img inode).getD (x / fs.blockSize) 0
  if block = 0 then 0#8 else img (block * fs.blockSize + x % fs.blockSize)

def fileContent : List (BitVec 8) := (List.range (fileSizeOf img inode)).map (fileByte fs img inode)

@[simp] theorem length_fileContent : (fileContent fs img inode).length = fileSizeOf img inode := by
  simp [fileContent]

theorem followEntries_eq (block : ℕ) (indices : List ℕ) :
    followEntries fs img block indices = indices.foldl (entryOf fs img) block := by
  induction indices generalizing block with
  | nil => rfl
  | cons i indices ih => rw [followEntries, ih, List.foldl_cons]

variable {fs}

theorem slice_fileContent (offset n : ℕ) :
    ((fileContent fs img inode).drop offset).take n =
      (List.range' offset (min n (fileSizeOf img inode - offset))).map (fileByte fs img inode) := by
  refine List.ext_getElem (by simp) fun i _ _ ↦ ?_
  simp [fileContent]

theorem clampSize_eq (fileSize : ℕ) {offset n : ℕ} (hn : offset + n < 2 ^ 64) :
    clampSize fileSize offset n = min n (fileSize - offset) := by
  unfold clampSize
  rw [Nat.mod_eq_of_lt hn]
  split
  · omega
  · split <;> omega

section

variable (h : fs.StandardBlocks)
include h

theorem Ext2.StandardBlocks.pos : 0 < fs.blockSize := by
  obtain ⟨log, _, hbs⟩ := h
  rw [hbs]
  exact Nat.mul_pos (by decide) (Nat.pow_pos (by decide))

theorem Ext2.StandardBlocks.dvd : fs.blockSize ∣ 2 ^ 64 := by
  obtain ⟨log, hlog, hbs⟩ := h
  rw [hbs, show 1024 = 2 ^ 10 from rfl, ← Nat.pow_add]
  exact Nat.pow_dvd_pow 2 (by omega)

theorem Ext2.StandardBlocks.ptrs :
    0 < fs.blockSize / 4 ∧ fs.blockSize / 4 * (fs.blockSize / 4) < 2 ^ 32 ∧
      fs.blockSize / 4 * (fs.blockSize / 4) * (fs.blockSize / 4) < 2 ^ 64 := by
  have hall : ∀ log < 7, 0 < 1024 * 2 ^ log / 4 ∧
      1024 * 2 ^ log / 4 * (1024 * 2 ^ log / 4) < 2 ^ 32 ∧
      1024 * 2 ^ log / 4 * (1024 * 2 ^ log / 4) * (1024 * 2 ^ log / 4) < 2 ^ 64 := by decide
  obtain ⟨log, hlog, hbs⟩ := h
  rw [hbs]
  exact hall log (by omega)

theorem blockOf_eq (b : ℕ) :
    blockOf fs img inode b = some ((fileBlocks fs img inode).getD b 0) := by
  obtain ⟨hp, hsq, hcube⟩ := h.ptrs
  have hlen (d a : ℕ) := length_leaves (entryOf fs img) (fs.blockSize / 4) d a
  unfold blockOf blockPath fileBlocks
  generalize fs.blockSize / 4 = p at *
  dsimp only
  rw [Nat.mod_eq_of_lt hsq, Nat.mod_eq_of_lt hcube, List.getD_eq_getElem?_getD]
  by_cases h₀ : b < 12
  · rw [if_pos h₀, List.getElem?_append_left (by simpa using h₀)]
    simp [h₀, followEntries]
  rw [if_neg h₀, List.getElem?_append_right (by simpa using h₀), List.length_map, List.length_range]
  by_cases h₁ : b - 12 < p
  · rw [if_pos h₁, List.getElem?_append_left (by rw [hlen]; simpa using h₁),
      leaves_getElem? _ _ (by simpa using h₁)]
    simp [followEntries_eq, wayTo]
  rw [if_neg h₁, List.getElem?_append_right (by rw [hlen]; simpa using h₁), hlen, Nat.pow_one]
  by_cases h₂ : b - 12 - p < p * p
  · rw [if_pos h₂, List.getElem?_append_left (by rw [hlen, Nat.pow_two]; exact h₂),
      leaves_getElem? _ _ (by rw [Nat.pow_two]; exact h₂)]
    simp [followEntries_eq, wayTo]
  rw [if_neg h₂, List.getElem?_append_right (by rw [hlen, Nat.pow_two]; omega), hlen, Nat.pow_two]
  by_cases h₃ : b - 12 - p - p * p < p * p * p
  · rw [if_pos h₃, if_neg (Nat.ne_of_gt (Nat.mul_pos hp hp)),
      leaves_getElem? _ _ (by rw [Nat.pow_succ, Nat.pow_two]; exact h₃)]
    simp [followEntries_eq, wayTo, Nat.pow_two]
  · rw [if_neg h₃, List.getElem?_eq_none (by rw [hlen, Nat.pow_succ, Nat.pow_two]; omega)]
    rfl

theorem readChunk_val {offset n : ℕ} (hoff : offset < 2 ^ 64) :
    (readChunk fs img ((fileBlocks fs img inode).getD (offset / fs.blockSize) 0)
      (offset % fs.blockSize) (min (fs.blockSize - offset % fs.blockSize) n)).val =
      some ((List.range' offset (min (fs.blockSize - offset % fs.blockSize) n)).map
        (fileByte fs img inode)) := by
  have hbyte : ∀ i < min (fs.blockSize - offset % fs.blockSize) n,
      fileByte fs img inode (offset + i) =
        if (fileBlocks fs img inode).getD (offset / fs.blockSize) 0 = 0 then 0#8
        else img ((fileBlocks fs img inode).getD (offset / fs.blockSize) 0 * fs.blockSize +
          offset % fs.blockSize + i) := by
    intro i hi
    obtain ⟨_, hdiv, hmod⟩ := chunk_pos h.pos h.dvd hoff hi
    rw [fileByte, hdiv, hmod, Nat.add_assoc]
  generalize min (fs.blockSize - offset % fs.blockSize) n = t at *
  rw [List.range'_eq_map_range, List.map_map]
  by_cases hb : (fileBlocks fs img inode).getD (offset / fs.blockSize) 0 = 0
  · rw [readChunk, if_pos hb, Faulting.val_pure, Option.some.injEq]
    refine (List.eq_replicate_iff.mpr ⟨by simp, fun x hx ↦ ?_⟩).symm
    obtain ⟨i, hi, rfl⟩ := List.mem_map.mp hx
    exact (hbyte i (List.mem_range.mp hi)).trans (if_pos hb)
  · rw [readChunk, if_neg hb, copyBytes, Option.some.injEq]
    refine List.map_congr_left fun i hi ↦ ?_
    exact ((hbyte i (List.mem_range.mp hi)).trans (if_neg hb)).symm

theorem readLoop_val (fuel : ℕ) {offset n : ℕ} (hfuel : n ≤ fuel)
    (hend : offset + n ≤ 2 ^ 32 * fs.blockSize) :
    (readLoop fs img inode fuel offset n).val =
      some ((List.range' offset n).map (fileByte fs img inode)) := by
  have hpos := h.pos
  have hmax : 2 ^ 32 * fs.blockSize < 2 ^ 64 := by
    obtain ⟨log, hlog, hbs⟩ := h
    have := Nat.pow_le_pow_right (n := 2) (by decide) hlog
    omega
  induction fuel generalizing offset n with
  | zero =>
    obtain rfl := Nat.le_zero.mp hfuel
    rfl
  | succ fuel ih =>
    rw [readLoop]
    by_cases hn : n = 0
    · rw [if_pos hn, hn]
      rfl
    have hlt := Nat.mod_lt offset hpos
    have hblock : offset / fs.blockSize % 2 ^ 32 = offset / fs.blockSize :=
      Nat.mod_eq_of_lt ((Nat.div_lt_iff_lt_mul hpos).mpr (by omega))
    rw [if_neg hn, if_neg (Nat.ne_of_gt hpos)]
    dsimp only
    rw [hblock, Faulting.val_bind, ext2GetBlockNum_val, blockOf_eq img inode h, Option.bind_some,
      Faulting.val_bind, readChunk_val img inode h (by omega), Option.bind_some]
    obtain ⟨t, ht⟩ : ∃ t, t = min (fs.blockSize - offset % fs.blockSize) n := ⟨_, rfl⟩
    rw [← ht, Nat.mod_eq_of_lt (by omega), Faulting.val_bind, ih (by omega) (by omega),
      Option.bind_some, Faulting.val_pure, ← List.map_append, List.range'_append_1,
      Nat.add_sub_cancel' (by omega)]

theorem ext2ReadFile_val (hsize : fileSizeOf img inode ≤ 2 ^ 32 * fs.blockSize) {offset n : ℕ}
    (hn : offset + n < 2 ^ 64) :
    (ext2ReadFile fs img inode offset n).val =
      some (((fileContent fs img inode).drop offset).take n) := by
  rw [ext2ReadFile, Faulting.val_bind, ext2GetFileSize_val, Option.bind_some, slice_fileContent]
  dsimp only
  rw [clampSize_eq _ hn]
  by_cases hoff : fileSizeOf img inode ≤ offset
  · rw [Nat.sub_eq_zero_of_le hoff, Nat.min_zero]
    rfl
  · exact readLoop_val img inode h _ (Nat.le_refl _) (by omega)

end

end Content

end SeedOS.Fs
