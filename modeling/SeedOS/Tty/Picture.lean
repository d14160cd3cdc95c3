import SeedOS.Tty.Console

namespace SeedOS.Tty

open Foundation

def picture (d : Screen) (lineAt : ℕ → Option Line) (y x : ℕ) : Color :=
  match lineAt (y / 16) with
  | none => 0#32
  | some line =>
    if y / 16 < d.rows ∧ x / 8 < d.cols ∧ x / 8 < line.length then
      d.pixel (line.cells (x / 8)) (y % 16) (x % 8)
    else 0#32

def Shows (d : Screen) (fb : Raster Color) (lineAt : ℕ → Option Line) : Prop :=
  ∀ y x : ℕ, y < d.height → x < d.width → fb y x = picture d lineAt y x

section Cells

variable {d : Screen} {fb : Raster Color} {row col y x : ℕ}

theorem consoleDrawChar_apply (hrow : row < d.rows) (hcol : col < d.cols) (c : BitVec 8)
    (color : Color) (y x : ℕ) :
    d.consoleDrawChar fb c (col * 8) (row * 16) color y x =
      if y / 16 = row ∧ x / 8 = col then d.pixel ⟨c, color⟩ (y % 16) (x % 8) else fb y x := by
  unfold Screen.rows at hrow
  unfold Screen.cols at hcol
  rw [Screen.consoleDrawChar, if_neg (by omega), if_neg (by omega), if_neg (by omega),
    Raster.paint_apply]
  by_cases h : y / 16 = row ∧ x / 8 = col
  · rw [if_pos h, if_pos (by omega)]
    congr 1 <;> omega
  · rw [if_neg h, if_neg (by omega)]

theorem consoleDrawChar_right (hcol : d.width ≤ col * 8) (c : BitVec 8) (y : ℤ) (color : Color) :
    d.consoleDrawChar fb c (col * 8) y color = fb := by
  rw [Screen.consoleDrawChar, if_pos]
  omega

theorem consoleDrawChar_above (c : BitVec 8) (x : ℤ) (color : Color) {y : ℤ} (hy : y < 0) :
    d.consoleDrawChar fb c x y color = fb := by
  rw [Screen.consoleDrawChar, if_pos (.inr (.inl hy))]

theorem consoleFillRect_apply (hrow : row < d.rows) (hcol : col < d.cols) (color : Color)
    (y x : ℕ) : d.consoleFillRect fb (col * 8) (row * 16) 8 16 color y x =
      if y / 16 = row ∧ x / 8 = col then color else fb y x := by
  unfold Screen.rows at hrow
  unfold Screen.cols at hcol
  rw [Screen.consoleFillRect, Raster.paint_apply]
  by_cases h : y / 16 = row ∧ x / 8 = col
  · rw [if_pos h, if_pos (by omega)]
  · rw [if_neg h, if_neg (by omega)]

theorem renderLine_apply (hrow : row < d.rows) (line : Line) (y x : ℕ) :
    Console.renderLine d fb line row y x =
      if y / 16 = row ∧ x / 8 < min line.length d.cols then
        d.pixel (line.cells (x / 8)) (y % 16) (x % 8)
      else fb y x := by
  unfold Console.renderLine
  have hle : min line.length d.cols ≤ d.cols := min_le_right _ _
  generalize min line.length d.cols = n at hle
  induction n with
  | zero => simp
  | succ n ih =>
    rw [List.range_succ, List.foldl_append, List.foldl_cons, List.foldl_nil,
      consoleDrawChar_apply hrow (by omega), ih (by omega)]
    by_cases h : y / 16 = row ∧ x / 8 = n
    · rw [if_pos h, if_pos (by omega), h.2]
    · rw [if_neg h]
      by_cases h' : y / 16 = row ∧ x / 8 < n
      · rw [if_pos h', if_pos (by omega)]
      · rw [if_neg h', if_neg (by omega)]

theorem renderRows_apply (lineAt : ℕ → Option Line) {n : ℕ} (hn : n ≤ d.rows) (y x : ℕ)
    (hblack : fb y x = 0#32) :
    Console.renderRows d lineAt n fb y x = if y / 16 < n then picture d lineAt y x else 0#32 := by
  unfold Console.renderRows
  induction n with
  | zero => simpa using hblack
  | succ n ih =>
    rw [List.range_succ, List.foldl_append, List.foldl_cons, List.foldl_nil]
    cases hline : lineAt n with
    | none =>
      dsimp only
      rw [ih (by omega)]
      by_cases h : y / 16 < n
      · rw [if_pos h, if_pos (by omega)]
      · rw [if_neg h]
        split_ifs with h'
        · rw [picture, show y / 16 = n by omega, hline]
        · rfl
    | some line =>
      dsimp only
      rw [renderLine_apply (by omega), ih (by omega)]
      by_cases h : y / 16 = n
      · rw [if_pos (show y / 16 < n + 1 by omega), if_neg (show ¬ y / 16 < n by omega), picture, h,
          hline]
        dsimp only
        simp only [true_and, show n < d.rows by omega, Nat.lt_min, and_comm]
      · rw [if_neg (fun hc ↦ h hc.1)]
        by_cases h' : y / 16 < n
        · rw [if_pos h', if_pos (by omega)]
        · rw [if_neg h', if_neg (by omega)]

theorem renderView_shows (d : Screen) (s : Console) : Shows d (s.renderView d).fb
    fun row ↦ s.scrollbackGetLine (s.viewOffset + (d.rows - 1 - row)) := by
  intro y x hy hx
  have hblack : d.consoleFillRect s.fb 0 0 d.width d.height 0#32 y x = 0#32 := by
    rw [Screen.consoleFillRect, Raster.paint_apply, if_pos]
    omega
  rw [Console.renderView]
  dsimp only
  rw [renderRows_apply _ le_rfl y x hblack]
  split_ifs with h
  · rfl
  · rw [picture]
    split
    · rfl
    · rw [if_neg (fun hc ↦ h hc.1)]

theorem picture_congr {lineAt lineAt' : ℕ → Option Line}
    (h : lineAt' (y / 16) = lineAt (y / 16)) : picture d lineAt' y x = picture d lineAt y x := by
  rw [picture, picture, h]

theorem picture_below {lineAt : ℕ → Option Line} {y x : ℕ} (h : d.rows ≤ y / 16) :
    picture d lineAt y x = 0#32 := by
  rw [picture]
  split
  · rfl
  · rw [if_neg (by omega)]

end Cells

end SeedOS.Tty
