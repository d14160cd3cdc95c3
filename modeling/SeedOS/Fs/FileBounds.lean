import SeedOS.Fs.BlockMap

namespace SeedOS.Fs

open Foundation

section Inodes

variable (fs : Ext2) (img : Image) (size : ℕ)

def inodeOf (ino : ℕ) : Option ℕ :=
  if ino = 0 ∨ u32 img 1024 < ino ∨ fs.inodesPerGroup = 0 ∨ fs.blockSize = 0 then none
  else
    let offset := (ino - 1) % fs.inodesPerGroup * fs.inodeSize
    (ext2BlockPtr fs ((u32 img (fs.gdt + 32 * ((ino - 1) / fs.inodesPerGroup) + 8) +
      offset / fs.blockSize % 2 ^ 32) % 2 ^ 32)).map (· + offset % fs.blockSize)

def DescriptorPlaced (ino : ℕ) : Prop :=
  ino ≠ 0 → ino ≤ u32 img 1024 → fs.inodesPerGroup ≠ 0 →
    fs.gdt + 32 * ((ino - 1) / fs.inodesPerGroup) + 12 ≤ size

def fileSizeOf (inode : ℕ) : ℕ :=
  if isType 8 (u16 img inode) then u32 img (inode + 108) * 2 ^ 32 + u32 img (inode + 4)
  else u32 img (inode + 4)

def FieldsPlaced (inode : ℕ) : Prop :=
  inode + 8 ≤ size ∧ (isType 8 (u16 img inode) → inode + 112 ≤ size)

variable {size}

theorem ext2ReadInode_val (ino p : ℕ) :
    (ext2ReadInode fs img ino).val = some (some p) ↔ inodeOf fs img ino = some p := by
  unfold ext2ReadInode inodeOf
  simp only [Faulting.val_bind, val_read32, Option.bind_some]
  by_cases h₁ : ino = 0 ∨ u32 img 1024 < ino
  · rw [if_pos h₁, if_pos (by omega)]
    simp
  rw [if_neg h₁]
  by_cases h₂ : fs.inodesPerGroup = 0
  · rw [if_pos h₂, if_pos (by omega)]
    simp
  rw [if_neg h₂]
  simp only [Faulting.val_bind, val_read32, Option.bind_some]
  by_cases h₃ : fs.blockSize = 0
  · rw [if_pos h₃, if_pos (by omega)]
    simp
  rw [if_neg h₃, if_neg (by omega)]
  split
  · rename_i h
    rw [h]
    simp
  · rename_i table h
    rw [h]
    simp

theorem blockSize_of_inodeOf {ino p : ℕ} (h : inodeOf fs img ino = some p) : fs.blockSize ≠ 0 := by
  intro hbs
  rw [inodeOf, if_pos (.inr (.inr (.inr hbs)))] at h
  exact absurd h (by simp)

theorem ext2ReadInode_all (hsize : 2048 ≤ size) (ino : ℕ) :
    (ext2ReadInode fs img ino).All (· < size) ↔ DescriptorPlaced fs img size ino := by
  unfold ext2ReadInode DescriptorPlaced
  simp only [Faulting.all_bind, all_read32, val_read32, Option.some.injEq, forall_eq']
  by_cases h₁ : ino = 0 ∨ u32 img 1024 < ino
  · rw [if_pos h₁]
    refine iff_of_true ⟨by omega, Faulting.all_pure _⟩ fun h₀ hle ↦ ?_
    omega
  rw [if_neg h₁]
  by_cases h₂ : fs.inodesPerGroup = 0
  · rw [if_pos h₂]
    exact iff_of_true ⟨by omega, Faulting.all_fault⟩ fun _ _ h ↦ absurd h₂ h
  rw [if_neg h₂, Faulting.all_bind, all_read32]
  constructor
  · rintro ⟨_, h, _⟩ _ _ _
    omega
  · intro h
    have := h (by omega) (by omega) h₂
    refine ⟨by omega, by omega, fun x _ ↦ ?_⟩
    split
    · exact Faulting.all_fault
    · split <;> exact Faulting.all_pure _

theorem ext2IsDirectory_val (inode : ℕ) :
    (ext2IsDirectory img inode).val = some (decide (isType 4 (u16 img inode))) := by
  simp [ext2IsDirectory, Faulting.val_bind, val_read16, Faulting.val_pure]

theorem ext2IsDirectory_all (inode : ℕ) :
    (ext2IsDirectory img inode).All (· < size) ↔ inode + 2 ≤ size := by
  simp [ext2IsDirectory, Faulting.all_bind, all_read16, Faulting.all_pure]

theorem ext2IsRegularFile_val (inode : ℕ) :
    (ext2IsRegularFile img inode).val = some (decide (isType 8 (u16 img inode))) := by
  simp [ext2IsRegularFile, Faulting.val_bind, val_read16, Faulting.val_pure]

theorem ext2IsRegularFile_all (inode : ℕ) :
    (ext2IsRegularFile img inode).All (· < size) ↔ inode + 2 ≤ size := by
  simp [ext2IsRegularFile, Faulting.all_bind, all_read16, Faulting.all_pure]

theorem ext2GetFileSize_val (inode : ℕ) :
    (ext2GetFileSize img inode).val = some (fileSizeOf img inode) := by
  unfold ext2GetFileSize fileSizeOf
  rw [Faulting.val_bind, ext2IsRegularFile_val, Option.bind_some]
  by_cases h : isType 8 (u16 img inode)
  · simp [h]
  · simp [h]

theorem ext2GetFileSize_all (inode : ℕ) :
    (ext2GetFileSize img inode).All (· < size) ↔ FieldsPlaced img size inode := by
  unfold ext2GetFileSize FieldsPlaced
  rw [Faulting.all_bind, ext2IsRegularFile_all, ext2IsRegularFile_val]
  simp only [Option.some.injEq, forall_eq']
  by_cases h : isType 8 (u16 img inode)
  · simp only [h, decide_true, if_true, Faulting.all_bind, all_read32, Faulting.all_pure,
      implies_true, and_true, val_read32, Option.some.injEq, forall_eq']
    constructor
    · intro h
      exact ⟨by omega, fun _ ↦ by omega⟩
    · rintro ⟨_, h⟩
      have := h trivial
      omega
  · simp only [h, decide_false, if_false, all_read32, Bool.false_eq_true, false_implies, and_true]
    omega

end Inodes

section Files

variable (fs : Ext2) (img : Image) (size inode : ℕ)

/-- Byte `x` of a file is in a hole, or in a block that lies in the image up to it, and
the pointers to that block lie in the image. -/
def BytePlaced (x : ℕ) : Prop :=
  MapPlaced fs img size inode (x / fs.blockSize % 2 ^ 32) ∧
    ∀ b, blockOf fs img inode (x / fs.blockSize % 2 ^ 32) = some b → b ≠ 0 →
      b * fs.blockSize + x % fs.blockSize < size

/-- The `n` bytes of a file from `offset` on are placed, as far as the code gets. -/
def RangePlaced (offset n : ℕ) : Prop :=
  ∀ i < n, (∀ j < i, blockOf fs img inode ((offset + j) % 2 ^ 64 / fs.blockSize % 2 ^ 32) ≠ none) →
    BytePlaced fs img size inode ((offset + i) % 2 ^ 64)

variable {fs}

theorem copyBytes_all (src n : ℕ) :
    (copyBytes img src n).All (· < size) ↔ ∀ i < n, src + i < size := by
  simp [Faulting.All, copyBytes]

theorem chunk_pos (hbs : 0 < fs.blockSize) (hdvd : fs.blockSize ∣ 2 ^ 64) {offset n i : ℕ}
    (hoff : offset < 2 ^ 64) (hi : i < min (fs.blockSize - offset % fs.blockSize) n) :
    (offset + i) % 2 ^ 64 = offset + i ∧ (offset + i) / fs.blockSize = offset / fs.blockSize ∧
      (offset + i) % fs.blockSize = offset % fs.blockSize + i := by
  obtain ⟨k, hk⟩ := hdvd
  have hlt := Nat.mod_lt offset hbs
  have hdiv := Nat.div_add_mod offset fs.blockSize
  have hi' : offset % fs.blockSize + i < fs.blockSize := by omega
  have heq : offset + i = fs.blockSize * (offset / fs.blockSize) + (offset % fs.blockSize + i) := by
    omega
  have hlt' : offset / fs.blockSize < k := by
    rw [Nat.div_lt_iff_lt_mul hbs, Nat.mul_comm, ← hk]
    exact hoff
  refine ⟨Nat.mod_eq_of_lt ?_, ?_, ?_⟩
  · have := Nat.mul_le_mul_left fs.blockSize (Nat.succ_le_of_lt hlt')
    rw [← hk, Nat.mul_succ] at this
    omega
  · rw [heq, Nat.mul_add_div hbs, Nat.div_eq_of_lt hi', Nat.add_zero]
  · rw [heq, Nat.mul_add_mod, Nat.mod_eq_of_lt hi']

theorem chunk_placed (hbs : 0 < fs.blockSize) (hdvd : fs.blockSize ∣ 2 ^ 64) {offset n : ℕ}
    (hn : 0 < n) (hoff : offset < 2 ^ 64) :
    (MapPlaced fs img size inode (offset / fs.blockSize % 2 ^ 32) ∧
      ∀ b, blockOf fs img inode (offset / fs.blockSize % 2 ^ 32) = some b → b ≠ 0 →
        ∀ i < min (fs.blockSize - offset % fs.blockSize) n,
          b * fs.blockSize + offset % fs.blockSize + i < size) ↔
      ∀ i < min (fs.blockSize - offset % fs.blockSize) n,
        BytePlaced fs img size inode ((offset + i) % 2 ^ 64) := by
  have hlt := Nat.mod_lt offset hbs
  constructor
  · rintro ⟨hmap, hdata⟩ i hi
    obtain ⟨h₁, h₂, h₃⟩ := chunk_pos hbs hdvd hoff hi
    rw [BytePlaced, h₁, h₂, h₃]
    refine ⟨hmap, fun b hb hb₀ ↦ ?_⟩
    have := hdata b hb hb₀ i hi
    omega
  · intro h
    refine ⟨?_, fun b hb hb₀ i hi ↦ ?_⟩
    · have hpos : 0 < min (fs.blockSize - offset % fs.blockSize) n := by omega
      have := (h 0 hpos).1
      rwa [Nat.add_zero, Nat.mod_eq_of_lt hoff] at this
    · obtain ⟨h₁, h₂, h₃⟩ := chunk_pos hbs hdvd hoff hi
      have := (h i hi).2 b (by rw [h₁, h₂]; exact hb) hb₀
      rw [h₁, h₃] at this
      omega

theorem readChunk_length (block blockOffset n : ℕ) :
    ∃ bytes, (readChunk fs img block blockOffset n).val = some bytes ∧ bytes.length = n := by
  unfold readChunk
  split
  · exact ⟨_, Faulting.val_pure _, List.length_replicate⟩
  · exact ⟨_, rfl, by simp⟩

theorem readLoop_all (hbs : 0 < fs.blockSize) (hdvd : fs.blockSize ∣ 2 ^ 64) (fuel : ℕ)
    {offset n : ℕ} (hfuel : n ≤ fuel) (hoff : offset < 2 ^ 64) :
    (readLoop fs img inode fuel offset n).All (· < size) ↔
      RangePlaced fs img size inode offset n := by
  induction fuel generalizing offset n with
  | zero =>
    obtain rfl := Nat.le_zero.mp hfuel
    exact iff_of_true (Faulting.all_pure _) fun i hi ↦ absurd hi (Nat.not_lt_zero i)
  | succ fuel ih =>
    rw [readLoop]
    by_cases hn : n = 0
    · rw [if_pos hn]
      subst hn
      exact iff_of_true (Faulting.all_pure _) fun i hi ↦ absurd hi (Nat.not_lt_zero i)
    rw [if_neg hn, if_neg (Nat.ne_of_gt hbs)]
    dsimp only
    obtain ⟨t, ht⟩ : ∃ t, t = min (fs.blockSize - offset % fs.blockSize) n := ⟨_, rfl⟩
    have htpos : 0 < t := by
      have := Nat.mod_lt offset hbs
      omega
    have hrest : (readLoop fs img inode fuel ((offset + t) % 2 ^ 64) (n - t)).All (· < size) ↔
        RangePlaced fs img size inode ((offset + t) % 2 ^ 64) (n - t) :=
      ih (by omega) (Nat.mod_lt _ (by omega))
    have hinner : ∀ b, Faulting.All (· < size) (do
        let bytes ← readChunk fs img b (offset % fs.blockSize) t
        let rest ← readLoop fs img inode fuel ((offset + t) % 2 ^ 64) (n - t)
        pure (bytes ++ rest)) ↔
        (b ≠ 0 → ∀ i < t, b * fs.blockSize + offset % fs.blockSize + i < size) ∧
          RangePlaced fs img size inode ((offset + t) % 2 ^ 64) (n - t) := by
      intro b
      generalize (offset + t) % 2 ^ 64 = next at hrest ⊢
      rw [readChunk, Faulting.all_bind]
      by_cases hb : b = 0
      · simp [hb, Faulting.all_bind, hrest]
      · rw [if_neg hb, copyBytes_all]
        simp [hb, Faulting.all_bind, hrest, copyBytes]
    rw [← ht, Faulting.all_bind, ext2GetBlockNum_all, ext2GetBlockNum_val]
    simp only [hinner]
    have hchunk := chunk_placed img size inode hbs hdvd (Nat.pos_of_ne_zero hn) hoff
    rw [← ht] at hchunk
    constructor
    · intro h i hi hj
      by_cases hit : i < t
      · exact hchunk.mp ⟨h.1, fun b hb hb₀ ↦ (h.2 b hb).1 hb₀⟩ i hit
      · obtain ⟨b, hb⟩ := Option.ne_none_iff_exists'.mp (hj 0 (by omega))
        rw [Nat.add_zero, Nat.mod_eq_of_lt hoff] at hb
        have := (h.2 b hb).2 (i - t) (by omega) fun j hj' ↦ by
          rw [Nat.mod_add_mod, Nat.add_assoc]
          exact hj (t + j) (by omega)
        rwa [Nat.mod_add_mod, Nat.add_assoc, Nat.add_sub_cancel' (by omega)] at this
    · intro h
      have hfirst := h 0 (Nat.pos_of_ne_zero hn) fun j hj ↦ absurd hj (Nat.not_lt_zero j)
      rw [Nat.add_zero, Nat.mod_eq_of_lt hoff] at hfirst
      refine ⟨hfirst.1, fun b hb ↦ ?_⟩
      have hsome : ∀ j < t, blockOf fs img inode ((offset + j) % 2 ^ 64 / fs.blockSize % 2 ^ 32) ≠
          none := by
        intro j hj
        obtain ⟨h₁, h₂, _⟩ := chunk_pos hbs hdvd hoff (ht ▸ hj)
        rw [h₁, h₂, hb]
        exact Option.some_ne_none b
      refine ⟨fun hb₀ ↦ (hchunk.mpr fun i hi ↦ h i (by omega) fun j hj ↦ hsome j (by omega)).2 b hb hb₀,
        fun i hi hj ↦ ?_⟩
      rw [Nat.mod_add_mod, Nat.add_assoc]
      refine h (t + i) (by omega) fun j hj' ↦ ?_
      by_cases hjt : j < t
      · exact hsome j hjt
      · have := hj (j - t) (by omega)
        rwa [Nat.mod_add_mod, Nat.add_assoc, Nat.add_sub_cancel' (by omega)] at this

end Files

end SeedOS.Fs
