import SeedOS.Memory.PmmInit
import Mathlib.Data.Finset.Card

namespace SeedOS.Memory

open Foundation Function

def clearPages (bitmap : ℕ → BitVec 8) (n : ℕ) : ℕ :=
  ((Finset.range n).filter fun i ↦ bitmapIsUsed bitmap i = false).card

theorem clearPages_le (bitmap : ℕ → BitVec 8) (n : ℕ) : clearPages bitmap n ≤ n := by
  refine (Finset.card_filter_le _ _).trans ?_
  rw [Finset.card_range]

section Count

variable {bitmap : ℕ → BitVec 8} {i n : ℕ}

theorem clearPages_markUsed (hi : i < n) (hc : bitmapIsUsed bitmap i = false) :
    clearPages (bitmapMarkUsed bitmap i) n + 1 = clearPages bitmap n := by
  have he : ((Finset.range n).filter fun j ↦ bitmapIsUsed (bitmapMarkUsed bitmap i) j = false) =
      ((Finset.range n).filter fun j ↦ bitmapIsUsed bitmap j = false).erase i := by
    ext j
    simp only [Finset.mem_filter, Finset.mem_erase, isUsed_markUsed, Bool.or_eq_false_iff,
      decide_eq_false_iff_not]
    tauto
  have hm : i ∈ (Finset.range n).filter fun j ↦ bitmapIsUsed bitmap j = false := by
    simp [hi, hc]
  rw [clearPages, he, clearPages]
  exact Finset.card_erase_add_one hm

theorem clearPages_markFree (hi : i < n) (hu : bitmapIsUsed bitmap i = true) :
    clearPages (bitmapMarkFree bitmap i) n = clearPages bitmap n + 1 := by
  have he : ((Finset.range n).filter fun j ↦ bitmapIsUsed (bitmapMarkFree bitmap i) j = false) =
      insert i ((Finset.range n).filter fun j ↦ bitmapIsUsed bitmap j = false) := by
    ext j
    simp only [Finset.mem_filter, Finset.mem_insert, isUsed_markFree, Bool.and_eq_false_iff,
      decide_eq_false_iff_not, not_not, Finset.mem_range]
    by_cases hj : j = i
    · subst hj; simp [hi]
    · simp [hj]
  have hm : i ∉ (Finset.range n).filter fun j ↦ bitmapIsUsed bitmap j = false := by
    simp [hu]
  rw [clearPages, he, clearPages]
  exact Finset.card_insert_of_notMem hm

end Count

def Counted.Ok (n : ℕ) (c : Counted) : Prop := c.freePages.toNat = clearPages c.bitmap n

namespace Counted.Ok

variable {n i : ℕ} {c : Counted} (hn : n ≤ 2 ^ 40) (h : c.Ok n) (hi : i < n)

include hn h hi

theorem markUsed (hc : bitmapIsUsed c.bitmap i = false) :
    Counted.Ok n ⟨bitmapMarkUsed c.bitmap i, c.freePages - 1#64⟩ := by
  have hcount := clearPages_markUsed hi hc
  have hle := clearPages_le c.bitmap n
  unfold Counted.Ok at *
  dsimp only
  rw [BitVec.toNat_sub, show (1#64).toNat = 1 from rfl]
  omega

theorem markFree (hu : bitmapIsUsed c.bitmap i = true) :
    Counted.Ok n ⟨bitmapMarkFree c.bitmap i, c.freePages + 1#64⟩ := by
  have hcount := clearPages_markFree hi hu
  have hle := clearPages_le c.bitmap n
  unfold Counted.Ok at *
  dsimp only
  rw [BitVec.toNat_add, show (1#64).toNat = 1 from rfl]
  omega

end Counted.Ok

theorem div_lt_bitmapSize {i n : ℕ} (h : i < n) : i / 8 < bitmapSize n := by
  unfold bitmapSize
  omega

abbrev Inside {α : Type} (n : ℕ) (t : Traced ℕ α) : Prop := t.All (· < bitmapSize n)

theorem fillUsed_val (n i : ℕ) (bitmap : ℕ → BitVec 8) (j : ℕ) :
    (fillUsed n i bitmap).val j = if i ≤ j ∧ j < i + n then 0xFF#8 else bitmap j := by
  induction n generalizing i bitmap with
  | zero => simp only [fillUsed, Traced.val_pure]; rw [if_neg (by omega)]
  | succ n ih =>
    rw [fillUsed, Traced.val_bind, Traced.val_touch, ih]
    by_cases hj : j = i
    · subst hj
      rw [if_neg (by omega), if_pos (by omega), update_self]
    · rw [update_of_ne hj]
      by_cases hr : i + 1 ≤ j ∧ j < i + 1 + n
      · rw [if_pos hr, if_pos (by omega)]
      · rw [if_neg hr, if_neg (by omega)]

theorem fillUsed_inside {n i m : ℕ} (bitmap : ℕ → BitVec 8) (h : i + n ≤ bitmapSize m) :
    Inside m (fillUsed n i bitmap) := by
  induction n generalizing i bitmap with
  | zero => exact Traced.all_pure _
  | succ n ih =>
    rw [fillUsed]
    simp only [Traced.all_bind, Traced.all_touch, Traced.val_touch]
    exact ⟨by omega, ih _ (by omega)⟩

theorem used_of_byte {bitmap : ℕ → BitVec 8} {i : ℕ} (h : bitmap (i / 8) = 0xFF#8) :
    bitmapIsUsed bitmap i = true := by
  rw [bitmapIsUsed_eq, h, show (0xFF#8) = BitVec.allOnes 8 from rfl, BitVec.getLsbD_allOnes]
  simpa using Nat.mod_lt i (by decide)

/-- What marking pages does: the bits of `P` become `b`, the others stay, and the
counter keeps up with the bitmap. -/
structure Marks (n : ℕ) (P : ℕ → Prop) (b : Bool) (c : Counted) (t : Traced ℕ Counted) : Prop where
  inside : Inside n t
  ok : t.val.Ok n
  marked : ∀ j, P j → bitmapIsUsed t.val.bitmap j = b
  kept : ∀ j, ¬ P j → bitmapIsUsed t.val.bitmap j = bitmapIsUsed c.bitmap j

section Marks

variable {n : ℕ} (hn : n ≤ 2 ^ 40)

include hn

theorem freeRange_marks {k i : ℕ} {c : Counted} (h : c.Ok n) (hi : i + k ≤ n)
    (hu : ∀ j, i ≤ j → j < i + k → bitmapIsUsed c.bitmap j = true) :
    Marks n (fun j ↦ i ≤ j ∧ j < i + k) false c (freeRange k i c) := by
  induction k generalizing i c with
  | zero => exact ⟨Traced.all_pure _, h, fun j hj ↦ by omega, fun j _ ↦ rfl⟩
  | succ k ih =>
    have hok := h.markFree hn (by omega) (hu i le_rfl (by omega))
    have hrest : ∀ j, i + 1 ≤ j → j < i + 1 + k →
        bitmapIsUsed (bitmapMarkFree c.bitmap i) j = true := by
      intro j hj hjk
      rw [isUsed_markFree, hu j (by omega) (by omega)]
      simpa using (show j ≠ i by omega)
    have hm := ih hok (by omega) hrest
    rw [freeRange]
    refine ⟨?_, hm.ok, fun j hj ↦ ?_, fun j hj ↦ ?_⟩
    · simp only [Traced.all_bind, bitmapMarkFreeT, Traced.all_touch, Traced.val_touch]
      exact ⟨div_lt_bitmapSize (by omega), hm.inside⟩
    · by_cases hji : j = i
      · refine (hm.kept j (by omega)).trans ?_
        simp [isUsed_markFree, hji]
      · exact hm.marked j (by omega)
    · refine (hm.kept j (by omega)).trans ?_
      rw [isUsed_markFree, decide_eq_true (show j ≠ i by omega), Bool.true_and]

theorem reservePage_marks {i : ℕ} {c : Counted} (h : c.Ok n) (hi : i < n) :
    Marks n (· = i) true c (reservePage i c) := by
  unfold reservePage
  cases hu : bitmapIsUsed c.bitmap i
  · have hok := h.markUsed hn hi hu
    refine ⟨?_, ?_, ?_, ?_⟩
    · simp [bitmapIsUsedT, bitmapMarkUsedT, hu, div_lt_bitmapSize hi]
    · simpa [bitmapIsUsedT, bitmapMarkUsedT, hu] using hok
    · rintro j rfl
      simp [bitmapIsUsedT, bitmapMarkUsedT, hu, isUsed_markUsed]
    · intro j hj
      simp [bitmapIsUsedT, bitmapMarkUsedT, hu, isUsed_markUsed, hj]
  · refine ⟨?_, ?_, ?_, ?_⟩
    · simp [bitmapIsUsedT, hu, div_lt_bitmapSize hi]
    · simpa [bitmapIsUsedT, hu] using h
    · rintro j rfl
      simp [bitmapIsUsedT, hu]
    · intro j _
      simp [bitmapIsUsedT, hu]

theorem reserveRange_marks {k i : ℕ} {c : Counted} (h : c.Ok n) (hi : i + k ≤ n) :
    Marks n (fun j ↦ i ≤ j ∧ j < i + k) true c (reserveRange k i c) := by
  induction k generalizing i c with
  | zero => exact ⟨Traced.all_pure _, h, fun j hj ↦ by omega, fun j _ ↦ rfl⟩
  | succ k ih =>
    have hp := reservePage_marks hn h (show i < n by omega)
    have hm := ih hp.ok (show i + 1 + k ≤ n by omega)
    rw [reserveRange]
    refine ⟨(Traced.all_bind _ _).mpr ⟨hp.inside, hm.inside⟩, hm.ok, fun j hj ↦ ?_, fun j hj ↦ ?_⟩
    · by_cases hji : j = i
      · exact (hm.kept j (by omega)).trans (hp.marked j hji)
      · exact hm.marked j (by omega)
    · exact (hm.kept j (by omega)).trans (hp.kept j (by omega))

end Marks

end SeedOS.Memory
