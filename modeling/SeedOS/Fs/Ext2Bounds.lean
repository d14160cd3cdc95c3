import SeedOS.Fs.DirBounds

namespace SeedOS.Fs

open Foundation

inductive Ext2Call
  | lookup (path : List (BitVec 8))
  | readInode (ino : BitVec 32)
  | readFile (ino : BitVec 32) (offset size : BitVec 64)

/-- The reads that serve a request. `ext2_read_file` is called on an inode that
`ext2_read_inode` has returned. -/
def ext2Serve (fs : Ext2) (img : Image) (fuel : ℕ) : Ext2Call → Disk Unit
  | .lookup path => do
    let _ ← ext2Lookup fs img fuel path
  | .readInode ino => do
    let _ ← ext2ReadInode fs img ino.toNat
  | .readFile ino offset size => do
    match ← ext2ReadInode fs img ino.toNat with
    | none => pure ()
    | some inode => do
      let _ ← ext2ReadFile fs img inode offset.toNat size.toNat

def CallPlaced (fs : Ext2) (img : Image) (n : ℕ) : Ext2Call → Prop
  | .lookup path => path.head? = some 0x2f#8 → NamesPlaced fs img n (components path) 2
  | .readInode ino => DescriptorPlaced fs img n ino.toNat
  | .readFile ino offset size => DescriptorPlaced fs img n ino.toNat ∧
      ∀ inode, inodeOf fs img ino.toNat = some inode → FieldsPlaced img n inode ∧
        RangePlaced fs img n inode offset.toNat
          (clampSize (fileSizeOf img inode) offset.toNat size.toNat)

section Init

variable {img : Image} {size : ℕ} {fs : Ext2}

theorem blockSizeOf_dvd (log : ℕ) : blockSizeOf log ∣ 2 ^ 64 ∨ blockSizeOf log = 0 := by
  unfold blockSizeOf
  by_cases h : log % 32 < 22
  · left
    have hlt : 1024 * 2 ^ (log % 32) < 2 ^ 32 := by
      have := Nat.pow_le_pow_right (n := 2) (by omega) (Nat.le_of_lt_succ h)
      omega
    rw [Nat.mod_eq_of_lt hlt, show 1024 = 2 ^ 10 from rfl, ← Nat.pow_add]
    exact Nat.pow_dvd_pow 2 (by omega)
  · right
    obtain ⟨k, hk⟩ : ∃ k, log % 32 = 22 + k := ⟨log % 32 - 22, by omega⟩
    rw [hk, Nat.pow_add, ← Nat.mul_assoc]
    exact Nat.mul_mod_right (2 ^ 32) (2 ^ k)

theorem ext2Init_all : (ext2Init img size).All (· < size) := by
  unfold ext2Init
  split
  · exact Faulting.all_pure _
  · rename_i hs
    rw [Faulting.all_bind, all_read16]
    refine ⟨by omega, fun magic _ ↦ ?_⟩
    split
    · exact Faulting.all_pure _
    · refine (Faulting.all_bind _ _).mpr ⟨(all_read32 ..).mpr (by omega), fun log _ ↦ ?_⟩
      refine (Faulting.all_bind _ _).mpr ⟨(all_read32 ..).mpr (by omega), fun rev _ ↦ ?_⟩
      refine (Faulting.all_bind _ _).mpr ⟨?_, fun inodeSize _ ↦ ?_⟩
      · unfold readInodeSize
        split
        · exact Faulting.all_pure _
        · exact (all_read16 ..).mpr (by omega)
      refine (Faulting.all_bind _ _).mpr ⟨(all_read32 ..).mpr (by omega), fun _ _ ↦ ?_⟩
      refine (Faulting.all_bind _ _).mpr ⟨(all_read32 ..).mpr (by omega), fun _ _ ↦ ?_⟩
      refine (Faulting.all_bind _ _).mpr ⟨(all_read32 ..).mpr (by omega), fun _ _ ↦ ?_⟩
      split
      · exact Faulting.all_fault
      · exact Faulting.all_pure _

theorem ext2Init_some (h : (ext2Init img size).val = some (some fs)) :
    2048 ≤ size ∧ fs.blockSize = blockSizeOf (u32 img (1024 + 24)) := by
  unfold ext2Init at h
  split at h
  · simp at h
  · rename_i hs
    refine ⟨by omega, ?_⟩
    simp only [Faulting.val_bind, val_read16, Option.bind_some] at h
    split at h
    · simp at h
    · simp only [Faulting.val_bind, val_read32, Option.bind_some] at h
      obtain ⟨inodeSize, _, h⟩ := Option.bind_eq_some_iff.mp h
      split at h
      · simp at h
      · simp only [Faulting.val_pure, Option.some.injEq] at h
        rw [← h]

end Init

section Calls

variable {img : Image} {n : ℕ} {fs : Ext2}

theorem all_discard {α : Type} (t : Disk α) (P : ℕ → Prop) :
    Faulting.All P (do let _ ← t) ↔ t.All P := by
  rw [Faulting.all_bind]
  exact and_iff_left fun _ _ ↦ Faulting.all_pure _

theorem ext2ReadFile_all (hbs : 0 < fs.blockSize) (hdvd : fs.blockSize ∣ 2 ^ 64) (inode size : ℕ)
    {offset : ℕ} (hoff : offset < 2 ^ 64) :
    (ext2ReadFile fs img inode offset size).All (· < n) ↔ FieldsPlaced img n inode ∧
      RangePlaced fs img n inode offset (clampSize (fileSizeOf img inode) offset size) := by
  unfold ext2ReadFile
  rw [Faulting.all_bind, ext2GetFileSize_all, ext2GetFileSize_val]
  simp only [Option.some.injEq, forall_eq']
  rw [readLoop_all img n inode hbs hdvd _ (Nat.le_refl _) hoff]

/-- The ext2 reader stays inside an image that it has mounted, in mounting it and
then in serving a request, exactly when all that the request looks at lies there. -/
theorem ext2_reads_inside (hinit : (ext2Init img n).val = some (some fs)) (call : Ext2Call) :
    ((ext2Init img n).All (· < n) ∧ ∀ fuel, (ext2Serve fs img fuel call).All (· < n)) ↔
      CallPlaced fs img n call := by
  obtain ⟨hsize, hbs⟩ := ext2Init_some hinit
  rw [and_iff_right ext2Init_all]
  cases call with
  | lookup path =>
    simp only [ext2Serve, all_discard, ext2Lookup_eq, CallPlaced]
    by_cases hp : path.head? = some 0x2f#8
    · simp [hp, lookupNames_placed fs img hsize]
    · simp only [hp, if_false, Faulting.all_pure, implies_true, false_implies]
  | readInode ino =>
    simp [ext2Serve, all_discard, ext2ReadInode_all fs img hsize, CallPlaced]
  | readFile ino offset size =>
    simp only [ext2Serve, CallPlaced, forall_const]
    rw [Faulting.all_bind, ext2ReadInode_all fs img hsize]
    refine and_congr_right fun _ ↦ ?_
    have hread : ∀ inode, inodeOf fs img ino.toNat = some inode →
        ((ext2ReadFile fs img inode offset.toNat size.toNat).All (· < n) ↔
          FieldsPlaced img n inode ∧ RangePlaced fs img n inode offset.toNat
            (clampSize (fileSizeOf img inode) offset.toNat size.toNat)) := by
      intro inode hi
      have hne := blockSize_of_inodeOf fs img hi
      have hdvd : fs.blockSize ∣ 2 ^ 64 :=
        hbs ▸ (blockSizeOf_dvd _).resolve_right fun h ↦ hne (hbs.trans h)
      exact ext2ReadFile_all (Nat.pos_of_ne_zero hne) hdvd inode size.toNat offset.isLt
    constructor
    · intro h inode hi
      have := h _ ((ext2ReadInode_val fs img ino.toNat inode).mpr hi)
      exact (hread inode hi).mp ((all_discard _ _).mp this)
    · intro h x hx
      cases x with
      | none => exact Faulting.all_pure _
      | some inode =>
        have hi := (ext2ReadInode_val fs img ino.toNat inode).mp hx
        exact (all_discard _ _).mpr ((hread inode hi).mpr (h inode hi))

def imageOf (bytes : List (ℕ × BitVec 8)) : Image := fun a ↦ (bytes.lookup a).getD 0#8

/-- A superblock for two inodes in groups of one, and nothing after it. -/
def shortImage : Image :=
  imageOf [(1024, 2#8), (1024 + 32, 1#8), (1024 + 40, 1#8), (1024 + 56, 0x53#8), (1024 + 57, 0xEF#8)]

theorem ext2_reads_past_image : ¬ ∀ fs, (ext2Init shortImage 2048).val = some (some fs) →
    ∀ fuel, (ext2Serve fs shortImage fuel (.readInode 2#32)).All (· < 2048) := by
  intro h
  have hread := h ⟨1024, 1, 128, 2048⟩ (by decide +kernel) 0 2088 (by decide +kernel)
  exact absurd hread (by decide)

def smallImage : Image :=
  imageOf [(1024, 2#8), (1024 + 32, 8#8), (1024 + 40, 2#8), (1024 + 56, 0x53#8),
    (1024 + 57, 0xEF#8), (2048 + 8, 3#8), (3200 + 1, 0x80#8), (3200 + 4, 3#8), (3200 + 40, 4#8),
    (4096, 0x61#8), (4097, 0x62#8), (4098, 0x63#8)]

theorem ext2_reads_inside_small :
    (ext2Init smallImage 4099).val = some (some ⟨1024, 2, 128, 2048⟩) ∧
    ∀ fuel, (ext2Serve ⟨1024, 2, 128, 2048⟩ smallImage fuel (.readFile 2#32 0#64 10#64)).All
      (· < 4099) := by
  have hinit : (ext2Init smallImage 4099).val = some (some ⟨1024, 2, 128, 2048⟩) := by
    decide +kernel
  refine ⟨hinit, ((ext2_reads_inside hinit (.readFile 2#32 0#64 10#64)).mpr
    ⟨fun _ _ _ ↦ by decide, fun inode hi ↦ ?_⟩).2⟩
  have hinode : inodeOf ⟨1024, 2, 128, 2048⟩ smallImage (2#32).toNat = some 3200 := by
    decide +kernel
  obtain rfl := Option.some.inj (hinode.symm.trans hi)
  refine ⟨⟨by decide, fun _ ↦ by decide⟩, fun i hlt _ ↦ ?_⟩
  have hclamp : clampSize (fileSizeOf smallImage 3200) (0#64).toNat (10#64).toNat = 3 := by
    decide +kernel
  have hblock : blockOf ⟨1024, 2, 128, 2048⟩ smallImage 3200 0 = some 4 := by decide +kernel
  have hx : ((0#64).toNat + i) % 2 ^ 64 = i := by
    rw [show (0#64).toNat = 0 from rfl]
    omega
  have hb : i / (⟨1024, 2, 128, 2048⟩ : Ext2).blockSize % 2 ^ 32 = 0 := by
    show i / 1024 % 2 ^ 32 = 0
    omega
  rw [BytePlaced, hx, hb]
  refine ⟨⟨by decide, trivial⟩, fun b hb' _ ↦ ?_⟩
  obtain rfl := Option.some.inj (hblock.symm.trans hb')
  show 4 * 1024 + i % 1024 < 4099
  omega

end Calls

end SeedOS.Fs
