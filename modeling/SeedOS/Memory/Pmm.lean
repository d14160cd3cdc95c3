import SeedOS.Foundation.Words
import Mathlib.Logic.Function.Basic
import Mathlib.Data.BitVec

namespace SeedOS.Memory

open Foundation Function

/-- State of the physical page allocator. One bit per 4 KiB page, set when the
page is in use. Physical addresses have at most 52 bits on x86-64. -/
structure Pmm where
  bitmap : ℕ → BitVec 8
  totalPages : ℕ
  freePages : Word
  totalPages_le : totalPages ≤ 2 ^ 40

theorem Pmm.small_le : 32 ≤ 2 ^ 40 := by decide

def bitmapMarkUsed (bitmap : ℕ → BitVec 8) (i : ℕ) : ℕ → BitVec 8 :=
  update bitmap (i / 8) (bitmap (i / 8) ||| 1#8 <<< (i % 8))

def bitmapMarkFree (bitmap : ℕ → BitVec 8) (i : ℕ) : ℕ → BitVec 8 :=
  update bitmap (i / 8) (bitmap (i / 8) &&& ~~~(1#8 <<< (i % 8)))

def bitmapIsUsed (bitmap : ℕ → BitVec 8) (i : ℕ) : Bool :=
  bitmap (i / 8) &&& 1#8 <<< (i % 8) != 0#8

theorem bit_shift (i j : ℕ) (hj : j < 8) : (1#8 <<< i).getLsbD j = decide (j = i) := by
  rw [← BitVec.twoPow_eq, BitVec.getLsbD_twoPow]
  by_cases h : i = j
  · subst h; simp [hj]
  · simp [h, Ne.symm h]

theorem bitmapIsUsed_eq (bitmap : ℕ → BitVec 8) (i : ℕ) :
    bitmapIsUsed bitmap i = (bitmap (i / 8)).getLsbD (i % 8) := by
  have hi := Nat.mod_lt i (show 0 < 8 by decide)
  rw [bitmapIsUsed, Bool.eq_iff_iff, bne_iff_ne]
  constructor
  · intro h
    by_contra hb
    apply h
    apply BitVec.eq_of_getLsbD_eq
    intro j hj
    rw [BitVec.getLsbD_and, bit_shift _ _ hj, BitVec.getLsbD_zero]
    by_cases hji : j = i % 8
    · subst hji; simpa using hb
    · simp [hji]
  · intro h he
    have hb := congrArg (fun b ↦ BitVec.getLsbD b (i % 8)) he
    simp only [BitVec.getLsbD_and, bit_shift _ _ hi, h, decide_true, Bool.and_self,
      BitVec.getLsbD_zero, Bool.true_eq_false] at hb

theorem isUsed_markUsed (bitmap : ℕ → BitVec 8) (i j : ℕ) :
    bitmapIsUsed (bitmapMarkUsed bitmap i) j = (decide (j = i) || bitmapIsUsed bitmap j) := by
  rw [bitmapIsUsed_eq, bitmapIsUsed_eq, bitmapMarkUsed]
  by_cases hd : j / 8 = i / 8
  · have hm : j % 8 = i % 8 ↔ j = i := by omega
    rw [hd, update_self, BitVec.getLsbD_or, bit_shift _ _ (Nat.mod_lt _ (by decide)), Bool.or_comm]
    simp only [hm]
  · have hne : j ≠ i := fun h ↦ hd (h ▸ rfl)
    rw [update_of_ne hd]
    simp [hne]

theorem isUsed_markFree (bitmap : ℕ → BitVec 8) (i j : ℕ) :
    bitmapIsUsed (bitmapMarkFree bitmap i) j = (decide (j ≠ i) && bitmapIsUsed bitmap j) := by
  rw [bitmapIsUsed_eq, bitmapIsUsed_eq, bitmapMarkFree]
  by_cases hd : j / 8 = i / 8
  · have hm : j % 8 = i % 8 ↔ j = i := by omega
    have hj := Nat.mod_lt j (show 0 < 8 by decide)
    rw [hd, update_self, BitVec.getLsbD_and, BitVec.getLsbD_not, bit_shift _ _ hj, Bool.and_comm]
    simp [hm, hj]
  · have hne : j ≠ i := fun h ↦ hd (h ▸ rfl)
    rw [update_of_ne hd]
    simp [hne]

def pmmScan (bitmap : ℕ → BitVec 8) : ℕ → ℕ → Option ℕ
  | _, 0 => none
  | i, n + 1 => if bitmapIsUsed bitmap i then pmmScan bitmap (i + 1) n else some i

theorem pmmScan_some {bitmap : ℕ → BitVec 8} {i n f : ℕ} (h : pmmScan bitmap i n = some f) :
    i ≤ f ∧ f < i + n ∧ bitmapIsUsed bitmap f = false ∧
      ∀ g, i ≤ g → g < f → bitmapIsUsed bitmap g = true := by
  induction n generalizing i with
  | zero => simp [pmmScan] at h
  | succ n ih =>
    rw [pmmScan] at h
    cases hu : bitmapIsUsed bitmap i
    · have he : i = f := by simpa [hu] using h
      subst he
      exact ⟨le_rfl, by omega, hu, fun g _ _ ↦ by omega⟩
    · obtain ⟨h₁, h₂, h₃, h₄⟩ := ih (by simpa [hu] using h)
      refine ⟨by omega, by omega, h₃, fun g hg hgf ↦ ?_⟩
      by_cases hgi : g = i
      · exact hgi ▸ hu
      · exact h₄ g (by omega) hgf

theorem pmmScan_none {bitmap : ℕ → BitVec 8} {i n : ℕ} (h : pmmScan bitmap i n = none) :
    ∀ g, i ≤ g → g < i + n → bitmapIsUsed bitmap g = true := by
  induction n generalizing i with
  | zero => intro g _ _; omega
  | succ n ih =>
    rw [pmmScan] at h
    cases hu : bitmapIsUsed bitmap i
    · simp [hu] at h
    · intro g hg hgn
      by_cases hgi : g = i
      · exact hgi ▸ hu
      · exact ih (by simpa [hu] using h) g (by omega) (by omega)

/-- `pmm_alloc`: the physical address of a page, or `0` (`PMM_ALLOC_FAILED`). -/
def pmmAlloc (s : Pmm) : Word × Pmm :=
  match pmmScan s.bitmap 1 (s.totalPages - 1) with
  | none => (0#64, s)
  | some i =>
    (BitVec.ofNat 64 (i * 4096),
      { s with bitmap := bitmapMarkUsed s.bitmap i, freePages := s.freePages - 1#64 })

inductive PmmFreeError
  | notAligned | outOfRange | doubleFree
  deriving DecidableEq

def pmmFreeError (s : Pmm) (phys : Word) : Option PmmFreeError :=
  if phys &&& 0xFFF#64 ≠ 0#64 then some .notAligned
  else if s.totalPages ≤ phys.toNat / 4096 then some .outOfRange
  else if bitmapIsUsed s.bitmap (phys.toNat / 4096) = false then some .doubleFree
  else none

def pmmFree (s : Pmm) (phys : Word) : Pmm :=
  match pmmFreeError s phys with
  | some _ => s
  | none =>
    { s with
      bitmap := bitmapMarkFree s.bitmap (phys.toNat / 4096)
      freePages := s.freePages + 1#64 }

/-- Page `f` is allocated: it is tracked, is not page 0, and its bit is set. -/
def Pmm.Owned (s : Pmm) (f : ℕ) : Prop :=
  0 < f ∧ f < s.totalPages ∧ bitmapIsUsed s.bitmap f = true

def Pmm.Available (s : Pmm) (f : ℕ) : Prop :=
  0 < f ∧ f < s.totalPages ∧ bitmapIsUsed s.bitmap f = false

theorem Pmm.Owned.not_available {s : Pmm} {f : ℕ} (h : s.Owned f) : ¬ s.Available f := by
  rintro ⟨_, _, hu⟩
  simp [h.2.2] at hu

theorem Pmm.Owned.lt {s : Pmm} {f : ℕ} (h : s.Owned f) : f < 2 ^ 40 :=
  h.2.1.trans_le s.totalPages_le

theorem Pmm.Available.lt {s : Pmm} {f : ℕ} (h : s.Available f) : f < 2 ^ 40 :=
  h.2.1.trans_le s.totalPages_le

theorem pmmAlloc_cases (s : Pmm) :
    (pmmAlloc s = (0#64, s) ∧ ∀ f, ¬ s.Available f) ∨
    ∃ f s', pmmAlloc s = (pageAddr f, s') ∧ s.Available f ∧ (∀ g < f, ¬ s.Available g) ∧
      s'.totalPages = s.totalPages ∧ s'.freePages = s.freePages - 1#64 ∧
      ∀ g, bitmapIsUsed s'.bitmap g = (decide (g = f) || bitmapIsUsed s.bitmap g) := by
  unfold pmmAlloc
  cases h : pmmScan s.bitmap 1 (s.totalPages - 1) with
  | none =>
    refine .inl ⟨rfl, ?_⟩
    rintro f ⟨h₀, h₁, h₂⟩
    simp [pmmScan_none h f (by omega) (by omega)] at h₂
  | some f =>
    obtain ⟨h₁, h₂, h₃, h₄⟩ := pmmScan_some h
    refine .inr ⟨f, _, rfl, ⟨by omega, by omega, h₃⟩, ?_, rfl, rfl, isUsed_markUsed s.bitmap f⟩
    rintro g hg ⟨h₅, _, h₆⟩
    simp [h₄ g (by omega) hg] at h₆

theorem pageAddr_aligned {f : ℕ} : pageAddr f &&& 0xFFF#64 = 0#64 := by
  apply BitVec.eq_of_toNat_eq
  rw [BitVec.toNat_and, pageAddr, BitVec.toNat_ofNat]
  have h := Nat.and_two_pow_sub_one_eq_mod (f * 4096 % 2 ^ 64) 12
  have hm : (0xFFF#64).toNat = 2 ^ 12 - 1 := by decide
  rw [hm, h]
  simp only [BitVec.toNat_zero]
  omega

def Pmm.Marked (s : Pmm) (f : ℕ) : Prop := f < s.totalPages ∧ bitmapIsUsed s.bitmap f = true

theorem pmmFree_marked {s : Pmm} {f : ℕ} (h : s.Marked f) :
    pmmFreeError s (pageAddr f) = none ∧
    (pmmFree s (pageAddr f)).totalPages = s.totalPages ∧
    (pmmFree s (pageAddr f)).freePages = s.freePages + 1#64 ∧
    ∀ g, bitmapIsUsed (pmmFree s (pageAddr f)).bitmap g =
      (decide (g ≠ f) && bitmapIsUsed s.bitmap g) := by
  have hle := s.totalPages_le
  have hlt := h.1
  have hf : (pageAddr f).toNat / 4096 = f := pageOf_pageAddr (by omega)
  have he : pmmFreeError s (pageAddr f) = none := by
    simp only [pmmFreeError, pageAddr_aligned, hf]
    simp [h.1, h.2]
  refine ⟨he, ?_, ?_, fun g ↦ ?_⟩
  · simp [pmmFree, he]
  · simp [pmmFree, he]
  · simp only [pmmFree, he, hf]
    exact isUsed_markFree s.bitmap f g

end SeedOS.Memory
