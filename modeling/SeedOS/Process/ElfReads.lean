import SeedOS.Foundation.Traced
import SeedOS.Process.Elf

namespace SeedOS.Process

open Foundation Memory Function

section Fetch

def fetch (data : File) (off : Word) : Traced Word (BitVec 8) := .touch off (data off)

def fetch16 (data : File) (off : Word) : Traced Word (BitVec 16) := do
  let lo ← fetch data off
  let hi ← fetch data (off + 1#64)
  pure (hi ++ lo)

def fetch32 (data : File) (off : Word) : Traced Word (BitVec 32) := do
  let lo ← fetch16 data off
  let hi ← fetch16 data (off + 2#64)
  pure (hi ++ lo)

def fetch64 (data : File) (off : Word) : Traced Word Word := do
  let lo ← fetch32 data off
  let hi ← fetch32 data (off + 4#64)
  pure (hi ++ lo)

end Fetch

/-- The checks of single bytes: go on to `next` if all of them have the value wanted. -/
def expectBytes (data : File) (next : Traced Word ℤ) : List (Word × BitVec 8) → Traced Word ℤ
  | [] => next
  | (off, want) :: checks => do
    let b ← fetch data off
    if b ≠ want then pure elfEnoexec else expectBytes data next checks

/-- The checks of `elf_validate` after those of `e_ident`. -/
def validateFields (data : File) (size : Word) : Traced Word ℤ := do
  let type ← fetch16 data 16#64
  if type ≠ 2#16 ∧ type ≠ 3#16 then pure elfEnoexec
  else do
    let machine ← fetch16 data 18#64
    if machine ≠ 62#16 then pure elfEnoexec
    else do
      let phentsize ← fetch16 data 54#64
      if phentsize ≠ 56#16 then pure elfEnoexec
      else do
        let phoff ← fetch64 data 32#64
        let phnum ← fetch16 data 56#64
        if phoff + phnum.setWidth 64 * sizeofPhdr > size then pure elfEnoexec
        else pure 0

def elfValidateT (data : File) (size : Word) : Traced Word ℤ :=
  if size < sizeofEhdr then pure elfEinval
  else
    expectBytes data (validateFields data size)
      [(0#64, 0x7f#8), (1#64, 0x45#8), (2#64, 0x4c#8), (3#64, 0x46#8), (4#64, 2#8), (5#64, 1#8)]

def elfMemcpyT (s : Vm) (f off : ℕ) (data : File) (src : Word) (n : ℕ) : Traced Word Vm :=
  ⟨elfMemcpy s f off data src n, (List.range n).map fun i ↦ src + BitVec.ofNat 64 i⟩

def copySegmentT (pml4Phys : Word) (data : File) :
    ℕ → Word → Word → Word → Vm → Traced Word (ℤ × Vm)
  | 0, _, _, _, s => pure (0, s)
  | fuel + 1, src, dst, remaining, s =>
    if remaining = 0#64 then pure (0, s)
    else
      let pageStart := alignDown dst
      let pageOffset := dst - pageStart
      let toCopy := 4096#64 - pageOffset
      let toCopy := if toCopy > remaining then remaining else toCopy
      let phys := vmmGetPhysical s pml4Phys pageStart
      if phys = 0#64 then pure (elfEfault, s)
      else do
        let s ← elfMemcpyT s (pageOf phys) pageOffset.toNat data src toCopy.toNat
        copySegmentT pml4Phys data fuel (src + toCopy) (dst + toCopy) (remaining - toCopy) s

def loadSegmentT (s : Vm) (pml4Phys : Word) (data : File) (size : Word) (ph : Phdr) :
    Traced Word (ℤ × Vm) :=
  if ph.vaddr ≥ 0x800000000000#64 then pure (elfEnoexec, s)
  else
    match loadPages pml4Phys ph.segStart ph.pteFlags ph.numPages.toNat 0 s with
    | (ret, s) =>
      if ret ≠ 0 then pure (ret, s)
      else if ph.filesz = 0#64 then pure (0, s)
      else if ph.offset + ph.filesz > size then pure (elfEnoexec, s)
      else copySegmentT pml4Phys data ph.filesz.toNat ph.offset ph.vaddr ph.filesz s

def fetchPhdr (data : File) (off : Word) : Traced Word (Option Phdr) := do
  let type ← fetch32 data off
  if type ≠ 1#32 then pure none
  else do
    let memsz ← fetch64 data (off + 40#64)
    if memsz = 0#64 then pure none
    else do
      let flags ← fetch32 data (off + 4#64)
      let offset ← fetch64 data (off + 8#64)
      let vaddr ← fetch64 data (off + 16#64)
      let filesz ← fetch64 data (off + 32#64)
      pure (some ⟨type, flags, offset, vaddr, filesz, memsz⟩)

def loadSegmentsT (pml4Phys : Word) (data : File) (size : Word) :
    ℕ → ℕ → ElfInfo → Vm → Traced Word (ℤ × ElfInfo × Vm)
  | 0, _, info, s => pure (0, info, s)
  | n + 1, i, info, s => do
    let ph ← fetchPhdr data ((readEhdr data).phoff + BitVec.ofNat 64 i * sizeofPhdr)
    match ph with
    | none => loadSegmentsT pml4Phys data size n (i + 1) info s
    | some ph => do
      let (ret, s) ← loadSegmentT s pml4Phys data size ph
      if ret ≠ 0 then pure (ret, info, s)
      else loadSegmentsT pml4Phys data size n (i + 1) (noteSegment (readEhdr data) ph info) s

def elfLoadT (s : Vm) (pml4Phys : Word) (data : File) (size : Word) (info : ElfInfo) :
    Traced Word (ℤ × ElfInfo × Vm) := do
  let ret ← elfValidateT data size
  if ret < 0 then pure (ret, info, s)
  else do
    let entry ← fetch64 data 24#64
    let _ ← fetch64 data 32#64
    let phnum ← fetch16 data 56#64
    let info := { entry := entry, phdrAddr := 0#64, phnum := phnum, brkStart := 0#64 }
    let (ret, info, s) ← loadSegmentsT pml4Phys data size phnum.toNat 0 info s
    if ret ≠ 0 then pure (ret, info, s)
    else pure (0, { info with brkStart := alignUp info.brkStart }, s)

section Values

variable (data : File) (off size : Word)

@[simp] theorem val_fetch : (fetch data off).val = data off := by
  rw [fetch, Traced.val_touch]

@[simp] theorem val_fetch16 : (fetch16 data off).val = le16 data off := by
  rw [fetch16, Traced.val_bind, Traced.val_bind, Traced.val_pure, val_fetch, val_fetch, le16]

@[simp] theorem val_fetch32 : (fetch32 data off).val = le32 data off := by
  rw [fetch32, Traced.val_bind, Traced.val_bind, Traced.val_pure, val_fetch16, val_fetch16, le32]

@[simp] theorem val_fetch64 : (fetch64 data off).val = le64 data off := by
  rw [fetch64, Traced.val_bind, Traced.val_bind, Traced.val_pure, val_fetch32, val_fetch32, le64]

theorem expectBytes_val (next : Traced Word ℤ) (checks : List (Word × BitVec 8)) :
    (expectBytes data next checks).val =
      if ∃ c ∈ checks, data c.1 ≠ c.2 then elfEnoexec else next.val := by
  induction checks with
  | nil => simp [expectBytes]
  | cons c checks ih =>
    rw [expectBytes, Traced.val_bind, val_fetch, Traced.val_ite, Traced.val_pure, ih]
    by_cases hc : data c.1 ≠ c.2
    · rw [if_pos hc, if_pos ⟨c, List.mem_cons_self, hc⟩]
    · rw [if_neg hc]
      simp [hc]

theorem elfValidateT_val : (elfValidateT data size).val = elfValidate data size := by
  unfold elfValidateT elfValidate
  by_cases hs : size < sizeofEhdr
  · rw [if_pos hs, if_pos hs, Traced.val_pure]
  rw [if_neg hs, if_neg hs, expectBytes_val]
  have hident : (∃ c ∈ [(0#64, 0x7f#8), (1#64, 0x45#8), (2#64, 0x4c#8), (3#64, 0x46#8),
      (4#64, 2#8), (5#64, 1#8)], data c.1 ≠ c.2) ↔
      ((readEhdr data).ident 0 ≠ 0x7f#8 ∨ (readEhdr data).ident 1 ≠ 0x45#8 ∨
        (readEhdr data).ident 2 ≠ 0x4c#8 ∨ (readEhdr data).ident 3 ≠ 0x46#8) ∨
      (readEhdr data).ident 4 ≠ 2#8 ∨ (readEhdr data).ident 5 ≠ 1#8 := by
    simp [readEhdr, or_assoc]
  simp only [hident]
  by_cases hmagic : (readEhdr data).ident 0 ≠ 0x7f#8 ∨ (readEhdr data).ident 1 ≠ 0x45#8 ∨
      (readEhdr data).ident 2 ≠ 0x4c#8 ∨ (readEhdr data).ident 3 ≠ 0x46#8
  · rw [if_pos (.inl hmagic), if_pos hmagic]
  rw [if_neg hmagic]
  by_cases hclass : (readEhdr data).ident 4 ≠ 2#8
  · rw [if_pos (.inr (.inl hclass)), if_pos hclass]
  rw [if_neg hclass]
  by_cases hendian : (readEhdr data).ident 5 ≠ 1#8
  · rw [if_pos (.inr (.inr hendian)), if_pos hendian]
  rw [if_neg hendian, if_neg (not_or.mpr ⟨hmagic, not_or.mpr ⟨hclass, hendian⟩⟩)]
  simp only [validateFields, Traced.val_bind, Traced.val_ite, Traced.val_pure, val_fetch16,
    val_fetch64]
  rfl

theorem copySegmentT_val (pml4Phys : Word) (fuel : ℕ) (src dst remaining : Word) (s : Vm) :
    (copySegmentT pml4Phys data fuel src dst remaining s).val =
      copySegment pml4Phys data fuel src dst remaining s := by
  induction fuel generalizing src dst remaining s with
  | zero => rfl
  | succ fuel ih =>
    simp [copySegmentT, copySegment, Traced.val_ite, Traced.val_pure, Traced.val_bind, elfMemcpyT, ih]

theorem loadSegmentT_val (s : Vm) (pml4Phys : Word) (ph : Phdr) :
    (loadSegmentT s pml4Phys data size ph).val = loadSegment s pml4Phys data size ph := by
  simp [loadSegmentT, loadSegment, Traced.val_ite, Traced.val_pure, copySegmentT_val]

theorem fetchPhdr_val : (fetchPhdr data off).val =
    if (readPhdr data off).IsLoad then some (readPhdr data off) else none := by
  simp only [fetchPhdr, Traced.val_bind, Traced.val_ite, Traced.val_pure, val_fetch32, val_fetch64]
  by_cases htype : le32 data off = 1#32
  · by_cases hmemsz : le64 data (off + 40#64) = 0#64
    · simp [htype, hmemsz, Phdr.IsLoad, readPhdr]
    · simp [htype, hmemsz, Phdr.IsLoad, readPhdr]
  · simp [htype, Phdr.IsLoad, readPhdr]

theorem loadSegmentsT_val (pml4Phys : Word) (n i : ℕ) (info : ElfInfo) (s : Vm) :
    (loadSegmentsT pml4Phys data size n i info s).val =
      loadSegments pml4Phys data size n i info s := by
  induction n generalizing i info s with
  | zero => rfl
  | succ n ih =>
    rw [loadSegmentsT, loadSegments, Traced.val_bind, fetchPhdr_val, ← nthPhdr]
    by_cases hload : (nthPhdr data i).IsLoad
    · simp only [if_pos hload, Traced.val_bind, loadSegmentT_val, Traced.val_ite,
        Traced.val_pure, ih]
    · simp only [if_neg hload, ih]

theorem elfLoadT_val (s : Vm) (pml4Phys : Word) (info : ElfInfo) :
    (elfLoadT s pml4Phys data size info).val = elfLoad s pml4Phys data size info := by
  rw [elfLoadT, elfLoad, Traced.val_bind, elfValidateT_val]
  simp only [Traced.val_ite, Traced.val_pure, Traced.val_bind, val_fetch16, val_fetch64,
    loadSegmentsT_val]
  rfl

end Values

def Inside (size off : Word) : Prop := off.toNat < size.toNat

instance (size off : Word) : Decidable (Inside size off) := inferInstanceAs (Decidable (_ < _))

section Bounds

variable {data : File} {size off : Word}

theorem add_toNat {n k : ℕ} (h : off.toNat + n ≤ size.toNat) (hk : k ≤ n) :
    (off + BitVec.ofNat 64 k).toNat = off.toNat + k := by
  have := size.isLt
  rw [BitVec.toNat_add, BitVec.toNat_ofNat, Nat.mod_eq_of_lt (a := k) (by omega),
    Nat.mod_eq_of_lt (by omega)]

theorem fetch16_inside (h : off.toNat + 2 ≤ size.toNat) : (fetch16 data off).All (Inside size) := by
  have h₁ := add_toNat h (k := 1) (by omega)
  simp only [fetch16, fetch, Traced.all_bind, Traced.all_touch, Traced.all_pure, Inside, and_true]
  omega

theorem fetch32_inside (h : off.toNat + 4 ≤ size.toNat) : (fetch32 data off).All (Inside size) := by
  have h₂ := add_toNat h (k := 2) (by omega)
  simp only [fetch32, Traced.all_bind, Traced.all_pure, and_true]
  exact ⟨fetch16_inside (by omega), fetch16_inside (by omega)⟩

theorem fetch64_inside (h : off.toNat + 8 ≤ size.toNat) : (fetch64 data off).All (Inside size) := by
  have h₄ := add_toNat h (k := 4) (by omega)
  simp only [fetch64, Traced.all_bind, Traced.all_pure, and_true]
  exact ⟨fetch32_inside (by omega), fetch32_inside (by omega)⟩

theorem expectBytes_inside {next : Traced Word ℤ} (hnext : next.All (Inside size))
    (checks : List (Word × BitVec 8)) (h : ∀ c ∈ checks, Inside size c.1) :
    (expectBytes data next checks).All (Inside size) := by
  induction checks with
  | nil => exact hnext
  | cons c checks ih =>
    refine (Traced.all_bind _ _).mpr ⟨(Traced.all_touch _ _).mpr (h c List.mem_cons_self), ?_⟩
    split_ifs
    · exact Traced.all_pure _
    · exact ih fun c hc ↦ h c (List.mem_cons_of_mem _ hc)

theorem validateFields_inside (h : 64 ≤ size.toNat) :
    (validateFields data size).All (Inside size) := by
  have h16 : ∀ n, n + 2 ≤ 64 → (fetch16 data (BitVec.ofNat 64 n)).All (Inside size) := by
    refine fun n hn ↦ fetch16_inside ?_
    rw [BitVec.toNat_ofNat, Nat.mod_eq_of_lt (by omega)]
    omega
  refine (Traced.all_bind _ _).mpr ⟨h16 16 (by omega), ?_⟩
  split_ifs
  · exact Traced.all_pure _
  refine (Traced.all_bind _ _).mpr ⟨h16 18 (by omega), ?_⟩
  split_ifs
  · exact Traced.all_pure _
  refine (Traced.all_bind _ _).mpr ⟨h16 54 (by omega), ?_⟩
  split_ifs
  · exact Traced.all_pure _
  refine (Traced.all_bind _ _).mpr ⟨fetch64_inside (Nat.le_trans (by decide) h), ?_⟩
  refine (Traced.all_bind _ _).mpr ⟨h16 56 (by omega), ?_⟩
  split_ifs <;> exact Traced.all_pure _

theorem elfValidateT_inside : (elfValidateT data size).All (Inside size) := by
  unfold elfValidateT
  split_ifs with hs
  · exact Traced.all_pure _
  · have h : 64 ≤ size.toNat := Nat.le_of_not_lt fun h ↦ hs (BitVec.lt_def.mpr h)
    refine expectBytes_inside (validateFields_inside h) _ fun c hc ↦ ?_
    have hc : c.1.toNat < 64 := by
      simp only [List.mem_cons, List.not_mem_nil, or_false] at hc
      rcases hc with rfl | rfl | rfl | rfl | rfl | rfl <;> decide
    exact Nat.lt_of_lt_of_le hc h

theorem fetchPhdr_inside (h : off.toNat + 56 ≤ size.toNat) :
    (fetchPhdr data off).All (Inside size) := by
  have h₄ := add_toNat h (k := 4) (by omega)
  have h₈ := add_toNat h (k := 8) (by omega)
  have h₁₆ := add_toNat h (k := 16) (by omega)
  have h₃₂ := add_toNat h (k := 32) (by omega)
  have h₄₀ := add_toNat h (k := 40) (by omega)
  refine (Traced.all_bind _ _).mpr ⟨fetch32_inside (by omega), ?_⟩
  split_ifs
  · exact Traced.all_pure _
  refine (Traced.all_bind _ _).mpr ⟨fetch64_inside (by omega), ?_⟩
  split_ifs
  · exact Traced.all_pure _
  simp only [Traced.all_bind, Traced.all_pure, and_true]
  exact ⟨fetch32_inside (by omega), fetch64_inside (by omega), fetch64_inside (by omega),
    fetch64_inside (by omega)⟩

theorem elfMemcpyT_inside {n : ℕ} (h : off.toNat + n ≤ size.toNat) (s : Vm) (f o : ℕ) :
    (elfMemcpyT s f o data off n).All (Inside size) := by
  intro a ha
  obtain ⟨i, hi, rfl⟩ := List.mem_map.mp ha
  rw [List.mem_range] at hi
  rw [Inside, add_toNat h (by omega)]
  omega

theorem copySegmentT_inside (pml4Phys : Word) (fuel : ℕ) {src dst remaining : Word} {s : Vm}
    (h : src.toNat + remaining.toNat ≤ size.toNat) :
    (copySegmentT pml4Phys data fuel src dst remaining s).All (Inside size) := by
  induction fuel generalizing src dst remaining s with
  | zero => exact Traced.all_pure _
  | succ fuel ih =>
    have hle := (toCopy_toNat dst remaining).trans_le (Nat.min_le_right ..)
    rw [copySegmentT]
    by_cases hz : remaining = 0#64
    · rw [if_pos hz]
      exact Traced.all_pure _
    rw [if_neg hz]
    dsimp only
    obtain ⟨n, hn⟩ : ∃ n, n = if 4096#64 - (dst - alignDown dst) > remaining then remaining
      else 4096#64 - (dst - alignDown dst) := ⟨_, rfl⟩
    rw [← hn] at hle ⊢
    split_ifs
    · exact Traced.all_pure _
    refine (Traced.all_bind _ _).mpr ⟨elfMemcpyT_inside (by omega) _ _ _, ih ?_⟩
    have hadd := add_toNat h (k := n.toNat) hle
    rw [BitVec.ofNat_toNat, BitVec.setWidth_eq] at hadd
    rw [hadd, BitVec.toNat_sub_of_le (BitVec.le_def.mpr hle)]
    omega

end Bounds

end SeedOS.Process
