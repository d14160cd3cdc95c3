import SeedOS.Foundation.Traced
import SeedOS.Memory.Pmm

namespace SeedOS.Memory

open Foundation Function

/-- An entry of the boot memory map. Type 0 is `LIMINE_MEMMAP_USABLE`. Usable
memory is physical memory, whose addresses have at most 52 bits on x86-64. -/
structure MemmapEntry where
  base : Word
  length : Word
  type : Word
  fits : type = 0#64 → base.toNat + length.toNat ≤ 2 ^ 52

namespace MemmapEntry

def Usable (e : MemmapEntry) : Prop := e.type = 0#64

instance (e : MemmapEntry) : Decidable e.Usable := inferInstanceAs (Decidable (_ = _))

def Has (e : MemmapEntry) (x : ℕ) : Prop :=
  e.base.toNat ≤ x ∧ x < e.base.toNat + e.length.toNat

def entryEnd (e : MemmapEntry) : Word := e.base + e.length

theorem entryEnd_toNat {e : MemmapEntry} (h : e.Usable) :
    e.entryEnd.toNat = e.base.toNat + e.length.toNat := by
  have hf := e.fits h
  rw [entryEnd, BitVec.toNat_add]
  omega

end MemmapEntry

def highestAddr : Word → List MemmapEntry → Word
  | highest, [] => highest
  | highest, e :: es =>
    highestAddr (if e.entryEnd > highest ∧ e.Usable then e.entryEnd else highest) es

theorem highestAddr_spec (entries : List MemmapEntry) (highest : Word)
    (h : highest.toNat ≤ 2 ^ 52) :
    (highestAddr highest entries).toNat ≤ 2 ^ 52 ∧
      highest.toNat ≤ (highestAddr highest entries).toNat ∧
      ∀ e ∈ entries, e.Usable → e.base.toNat + e.length.toNat ≤ (highestAddr highest entries).toNat := by
  induction entries generalizing highest with
  | nil => exact ⟨h, le_rfl, by simp⟩
  | cons e es ih =>
    rw [highestAddr]
    split_ifs with hc
    · have hend := MemmapEntry.entryEnd_toNat hc.2
      have hfits := e.fits hc.2
      have hgt : highest.toNat < e.entryEnd.toNat := hc.1
      obtain ⟨h₁, h₂, h₃⟩ := ih e.entryEnd (by omega)
      refine ⟨h₁, by omega, ?_⟩
      intro e' he' hu
      rcases List.mem_cons.mp he' with rfl | he'
      · omega
      · exact h₃ e' he' hu
    · obtain ⟨h₁, h₂, h₃⟩ := ih highest h
      refine ⟨h₁, h₂, ?_⟩
      intro e' he' hu
      rcases List.mem_cons.mp he' with rfl | he'
      · have hle : ¬ highest < e'.entryEnd := fun hlt ↦ hc ⟨hlt, hu⟩
        rw [BitVec.lt_def, MemmapEntry.entryEnd_toNat hu] at hle
        omega
      · exact h₃ e' he' hu

def totalPages (entries : List MemmapEntry) : ℕ :=
  ((highestAddr 0#64 entries + 4096#64 - 1#64) / 4096#64).toNat

theorem totalPages_eq (entries : List MemmapEntry) :
    totalPages entries = ((highestAddr 0#64 entries).toNat + 4095) / 4096 := by
  have h := (highestAddr_spec entries 0#64 (by decide)).1
  simp only [totalPages, BitVec.toNat_udiv, BitVec.toNat_sub, BitVec.toNat_add,
    show (4096#64).toNat = 4096 from rfl, show (1#64).toNat = 1 from rfl]
  omega

theorem totalPages_le (entries : List MemmapEntry) : totalPages entries ≤ 2 ^ 40 := by
  have h := (highestAddr_spec entries 0#64 (by decide)).1
  rw [totalPages_eq]
  omega

def bitmapSize (n : ℕ) : ℕ := (n + 7) / 8

def bitmapPages (n : ℕ) : ℕ := (bitmapSize n + 4095) / 4096

def usablePages : List MemmapEntry → Word
  | [] => 0#64
  | e :: es => (if e.Usable then e.length / 4096#64 else 0#64) + usablePages es

def findBitmap (pages : ℕ) (entries : List MemmapEntry) : Option MemmapEntry :=
  entries.find? fun e ↦ e.Usable ∧ pages * 4096 ≤ e.length.toNat

section Access

/-! The bitmap operations with the byte index they access. -/

def bitmapIsUsedT (bitmap : ℕ → BitVec 8) (i : ℕ) : Traced ℕ Bool :=
  .touch (i / 8) (bitmapIsUsed bitmap i)

def bitmapMarkUsedT (bitmap : ℕ → BitVec 8) (i : ℕ) : Traced ℕ (ℕ → BitVec 8) :=
  .touch (i / 8) (bitmapMarkUsed bitmap i)

def bitmapMarkFreeT (bitmap : ℕ → BitVec 8) (i : ℕ) : Traced ℕ (ℕ → BitVec 8) :=
  .touch (i / 8) (bitmapMarkFree bitmap i)

def pmmScanT (bitmap : ℕ → BitVec 8) : ℕ → ℕ → Traced ℕ (Option ℕ)
  | _, 0 => pure none
  | i, n + 1 => do
    let used ← bitmapIsUsedT bitmap i
    if used then pmmScanT bitmap (i + 1) n else pure (some i)

def pmmAllocT (s : Pmm) : Traced ℕ (Word × Pmm) := do
  match ← pmmScanT s.bitmap 1 (s.totalPages - 1) with
  | none => pure (0#64, s)
  | some i =>
    let bitmap ← bitmapMarkUsedT s.bitmap i
    pure (BitVec.ofNat 64 (i * 4096), { s with bitmap := bitmap, freePages := s.freePages - 1#64 })

def pmmFreeT (s : Pmm) (phys : Word) : Traced ℕ Pmm :=
  if phys &&& 0xFFF#64 ≠ 0#64 then pure s
  else if s.totalPages ≤ phys.toNat / 4096 then pure s
  else do
    let used ← bitmapIsUsedT s.bitmap (phys.toNat / 4096)
    if used = false then pure s
    else do
      let bitmap ← bitmapMarkFreeT s.bitmap (phys.toNat / 4096)
      pure { s with bitmap := bitmap, freePages := s.freePages + 1#64 }

theorem pmmScanT_val (bitmap : ℕ → BitVec 8) (i n : ℕ) :
    (pmmScanT bitmap i n).val = pmmScan bitmap i n := by
  induction n generalizing i with
  | zero => rfl
  | succ n ih =>
    rw [pmmScanT, pmmScan, Traced.val_bind]
    cases hu : bitmapIsUsed bitmap i
    · simp [bitmapIsUsedT, hu]
    · simp [bitmapIsUsedT, hu, ih]

theorem pmmAllocT_val (s : Pmm) : (pmmAllocT s).val = pmmAlloc s := by
  rw [pmmAllocT, Traced.val_bind, pmmScanT_val, pmmAlloc]
  cases pmmScan s.bitmap 1 (s.totalPages - 1) <;> rfl

theorem pmmFreeT_val (s : Pmm) (phys : Word) : (pmmFreeT s phys).val = pmmFree s phys := by
  unfold pmmFreeT pmmFree pmmFreeError
  split_ifs with h₁ h₂ h₃
  · rfl
  · rfl
  · simp [bitmapIsUsedT, h₃]
  · simp [bitmapIsUsedT, bitmapMarkFreeT, h₃]

end Access

structure Counted where
  bitmap : ℕ → BitVec 8
  freePages : Word

def fillUsed : ℕ → ℕ → (ℕ → BitVec 8) → Traced ℕ (ℕ → BitVec 8)
  | 0, _, bitmap => pure bitmap
  | n + 1, i, bitmap => do
    let bitmap ← Traced.touch i (update bitmap i 0xFF#8)
    fillUsed n (i + 1) bitmap

def freeRange : ℕ → ℕ → Counted → Traced ℕ Counted
  | 0, _, c => pure c
  | n + 1, i, c => do
    let bitmap ← bitmapMarkFreeT c.bitmap i
    freeRange n (i + 1) ⟨bitmap, c.freePages + 1#64⟩

def freeEntries : List MemmapEntry → Counted → Traced ℕ Counted
  | [], c => pure c
  | e :: es, c => do
    let c ← if e.Usable then freeRange (e.length.toNat / 4096) (e.base.toNat / 4096) c else pure c
    freeEntries es c

def reservePage (i : ℕ) (c : Counted) : Traced ℕ Counted := do
  let used ← bitmapIsUsedT c.bitmap i
  if used then pure c
  else do
    let bitmap ← bitmapMarkUsedT c.bitmap i
    pure ⟨bitmap, c.freePages - 1#64⟩

def reserveRange : ℕ → ℕ → Counted → Traced ℕ Counted
  | 0, _, c => pure c
  | n + 1, i, c => do
    let c ← reservePage i c
    reserveRange n (i + 1) c

structure PmmBoot where
  pmm : Pmm
  bitmapPhys : Word
  usablePages : Word

/-- `pmm_init` from the point where the bitmap is placed at `bitmapPhys`. -/
def buildBitmap (entries : List MemmapEntry) (total bitmapPhys : ℕ) (bitmap : ℕ → BitVec 8) :
    Traced ℕ Counted := do
  let bitmap ← fillUsed (bitmapSize total) 0 bitmap
  let c ← freeEntries entries ⟨bitmap, 0#64⟩
  let c ← reserveRange (bitmapPages total) (bitmapPhys / 4096) c
  reservePage 0 c

/-- `pmm_init`, on a bitmap memory that may hold anything. It halts, which is
`none`, when no usable entry can hold the bitmap. -/
def pmmInit (entries : List MemmapEntry) (bitmap : ℕ → BitVec 8) : Traced ℕ (Option PmmBoot) :=
  match findBitmap (bitmapPages (totalPages entries)) entries with
  | none => pure none
  | some e => do
    let c ← buildBitmap entries (totalPages entries) e.base.toNat bitmap
    pure (some ⟨⟨c.bitmap, totalPages entries, c.freePages, totalPages_le entries⟩, e.base,
      usablePages entries⟩)

end SeedOS.Memory
