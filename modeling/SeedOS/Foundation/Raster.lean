import Mathlib.Data.Int.Order.Basic

namespace SeedOS.Foundation

variable {C : Type*}

/-- An unbounded picture, by row and column. -/
abbrev Raster (C : Type*) := ℤ → ℤ → C

namespace Raster

def set (p : Raster C) (y x : ℤ) (c : C) : Raster C :=
  fun y' x' ↦ if y' = y ∧ x' = x then c else p y' x'

def paintRow (p : Raster C) (y x : ℤ) (pixel : ℕ → C) : ℕ → Raster C
  | 0 => p
  | n + 1 => (paintRow p y x pixel n).set y (x + n) (pixel n)

/-- Write `rows` rows of `cols` pixels, from row `y` and column `x` on. -/
def paint (p : Raster C) (y x : ℤ) (cols : ℕ) (pixel : ℕ → ℕ → C) : ℕ → Raster C
  | 0 => p
  | rows + 1 => (paint p y x cols pixel rows).paintRow (y + rows) x (pixel rows) cols

theorem paintRow_apply (p : Raster C) (y x : ℤ) (pixel : ℕ → C) (n : ℕ) (y' x' : ℤ) :
    p.paintRow y x pixel n y' x' =
      if y' = y ∧ x ≤ x' ∧ x' < x + n then pixel (x' - x).toNat else p y' x' := by
  induction n with
  | zero =>
    rw [paintRow, if_neg]
    omega
  | succ n ih =>
    rw [paintRow, set]
    by_cases h : y' = y ∧ x' = x + n
    · rw [if_pos h, if_pos (by omega)]
      congr 1
      omega
    · rw [if_neg h, ih]
      by_cases h' : y' = y ∧ x ≤ x' ∧ x' < x + n
      · rw [if_pos h', if_pos (by omega)]
      · rw [if_neg h', if_neg (by omega)]

theorem paint_apply (p : Raster C) (y x : ℤ) (cols : ℕ) (pixel : ℕ → ℕ → C) (rows : ℕ)
    (y' x' : ℤ) : p.paint y x cols pixel rows y' x' =
      if (y ≤ y' ∧ y' < y + rows) ∧ x ≤ x' ∧ x' < x + cols then
        pixel (y' - y).toNat (x' - x).toNat else p y' x' := by
  induction rows with
  | zero =>
    rw [paint, if_neg]
    omega
  | succ rows ih =>
    rw [paint, paintRow_apply]
    by_cases h : y' = y + rows ∧ x ≤ x' ∧ x' < x + cols
    · rw [if_pos h, if_pos (by omega)]
      congr 1
      omega
    · rw [if_neg h, ih]
      by_cases h' : (y ≤ y' ∧ y' < y + rows) ∧ x ≤ x' ∧ x' < x + cols
      · rw [if_pos h', if_pos (by omega)]
      · rw [if_neg h', if_neg (by omega)]

end Raster

end SeedOS.Foundation
