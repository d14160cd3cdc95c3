import SeedOS.Tty.Indices
import SeedOS.Tty.Scrollback

namespace SeedOS.Tty

open Foundation Function

/-- The indices are those of the console whose picture is modelled with natural numbers. -/
structure SameIndices (d : Screen) (s : Console) (t : Scroll) : Prop where
  head : t.head = s.head
  count : t.count = s.count
  viewOffset : t.viewOffset = s.viewOffset
  col : t.col = s.col
  length : ∀ i : ℕ, t.length i = (s.scrollback i).length
  rows : t.rows = d.rows
  cols : t.cols = d.cols
  framebuffer : t.framebuffer = true
  fullscreenMode : t.fullscreenMode = s.fullscreenMode

namespace SameIndices

open Scroll

variable {d : Screen} {s : Console} {t : Scroll}

section

variable (h : SameIndices d s t)
include h

theorem renderView : SameIndices d (s.renderView d) t.renderView := by
  unfold Scroll.renderView
  rw [if_pos h.framebuffer]
  exact ⟨h.head, h.count, h.viewOffset, h.col, h.length, h.rows, h.cols, h.framebuffer,
    h.fullscreenMode⟩

theorem scrollbackNewline (hv : Valid t) :
    SameIndices d s.scrollbackNewline t.scrollbackNewline := by
  have hhead : (int (t.head + 1)).tmod scrollbackLines =
      ((s.head + 1) % scrollbackLines : ℕ) := by
    rw [hv.head_next, h.head]
    simp [scrollbackLines]
  refine ⟨hhead, ?_, h.viewOffset, rfl, fun i ↦ ?_, h.rows, h.cols, h.framebuffer,
    h.fullscreenMode⟩
  · change (if t.count < scrollbackLines then int (t.count + 1) else t.count) =
      ((if s.count < scrollbackLines then s.count + 1 else s.count : ℕ) : ℤ)
    have hcount := hv.count.2
    rw [hv.count_next, h.count]
    rw [h.count] at hcount
    unfold scrollbackLines
    split_ifs <;> omega
  · change update t.length _ 0 (i : ℤ) = ((if _ then _ else _ : Line).length : ℤ)
    rw [hhead, update_apply]
    simp only [Int.natCast_inj]
    split_ifs
    · rfl
    · exact h.length i

theorem newline (hv : Valid t) : SameIndices d (s.newline d) t.newline := by
  have hnew := h.scrollbackNewline hv
  have hcount := hnew.count
  have hrows := hnew.rows
  unfold Console.newline Scroll.newline
  dsimp only
  by_cases hmore : s.scrollbackNewline.count > d.rows
  · rw [if_pos hmore, if_pos (by omega)]
    exact hnew.renderView
  · rw [if_neg hmore, if_neg (by omega)]
    exact hnew

theorem setCol {line : ℕ → Line} {col : ℕ} {fb : Raster Color}
    (hline : ∀ i, (line i).length = if i = s.head then col else (s.scrollback i).length) :
    SameIndices d { s with col := col, scrollback := line, fb := fb }
      { t with col := col, length := update t.length t.head col } := by
  refine ⟨h.head, h.count, h.viewOffset, rfl, fun i ↦ ?_, h.rows, h.cols, h.framebuffer,
    h.fullscreenMode⟩
  change update t.length t.head col (i : ℤ) = ((line i).length : ℤ)
  rw [hline, update_apply, h.head]
  simp only [Int.natCast_inj]
  split_ifs
  · rfl
  · exact h.length i

theorem redraw (fb : Raster Color) : SameIndices d { s with fb := fb } t :=
  ⟨h.head, h.count, h.viewOffset, h.col, h.length, h.rows, h.cols, h.framebuffer, h.fullscreenMode⟩

theorem scrollbackPutchar (c : BitVec 8) (color : Color) :
    SameIndices d (s.scrollbackPutchar c color) t.scrollbackPutchar := by
  have hcol := h.col
  unfold Console.scrollbackPutchar Scroll.scrollbackPutchar
  by_cases hroom : s.col < maxCols
  · have hint : int (t.col + 1) = (s.col + 1 : ℕ) := by
      unfold maxCols at hroom
      rw [int_eq (by omega) (by omega)]
      omega
    rw [if_pos hroom, if_pos (by omega), hint]
    refine h.setCol fun i ↦ ?_
    split_ifs <;> rfl
  · rw [if_neg hroom, if_neg (by omega)]
    exact h

theorem tabFill (color : Color) (n : ℕ) :
    SameIndices d (Console.tabFill color n s) (Scroll.tabFill n t) := by
  induction n generalizing s t with
  | zero => exact h
  | succ n ih =>
    have hcol := h.col
    unfold Console.tabFill Scroll.tabFill
    by_cases hroom : s.col < maxCols
    · rw [if_pos hroom, if_pos (by omega)]
      exact ih (h.scrollbackPutchar _ _)
    · rw [if_neg hroom, if_neg (by omega)]
      exact h

theorem putcharBody (hv : Valid t) (c : BitVec 8) (color : Color) :
    SameIndices d (s.putcharBody d c color) (t.putcharBody c) := by
  have hcol := h.col
  have hcol' := hv.col
  unfold Console.putcharBody Scroll.putcharBody
  dsimp only
  split_ifs with _ _ _ hpos hpos' hpos'
  · exact h.newline hv
  · exact ⟨h.head, h.count, h.viewOffset, rfl, h.length, h.rows, h.cols, h.framebuffer,
      h.fullscreenMode⟩
  · have hint : int (t.col - 1) = (s.col - 1 : ℕ) := by
      rw [int_eq (by omega) (by omega)]
      omega
    rw [hint]
    refine h.setCol fun i ↦ ?_
    split_ifs <;> rfl
  · omega
  · omega
  · exact h
  · exact (h.tabFill color 4).redraw _
  · exact (h.scrollbackPutchar c color).redraw _

theorem consolePutchar (hv : Valid t) (c : BitVec 8) (color : Color) :
    SameIndices d (s.consolePutchar d c color) (t.consolePutchar c) := by
  have hview := h.viewOffset
  have hfb : ¬ (!t.framebuffer) = true := by simp [h.framebuffer]
  unfold Console.consolePutchar Scroll.consolePutchar
  rw [if_neg hfb]
  by_cases hscreen : t.fullscreenMode = true
  · rw [if_pos hscreen, if_pos (h.fullscreenMode.symm.trans hscreen)]
    exact h
  · rw [if_neg hscreen, if_neg (show ¬ s.fullscreenMode = true from h.fullscreenMode ▸ hscreen)]
    obtain ⟨s', t', hs', ht', h', hv'⟩ : ∃ s' t',
        s' = (if 0 < s.viewOffset then { s with viewOffset := 0 }.renderView d else s) ∧
        t' = (if t.viewOffset > 0 then { t with viewOffset := 0 }.renderView else t) ∧
        SameIndices d s' t' ∧ Valid t' := by
      refine ⟨_, _, rfl, rfl, ?_⟩
      by_cases hback : 0 < s.viewOffset
      · rw [if_pos hback, if_pos (by omega)]
        refine ⟨renderView ?_, hv.toBottom.renderView⟩
        exact ⟨h.head, h.count, rfl, h.col, h.length, h.rows, h.cols, h.framebuffer,
          h.fullscreenMode⟩
      · rw [if_neg hback, if_neg (by omega)]
        exact ⟨h, hv⟩
    have hbody := h'.putcharBody hv' c color
    have hcols := hbody.cols
    have hcol := hbody.col
    dsimp only
    rw [← hs', ← ht']
    by_cases hwrap : d.cols ≤ (s'.putcharBody d c color).col
    · rw [if_pos hwrap, if_pos (by omega)]
      exact hbody.newline (hv'.putcharBody c)
    · rw [if_neg hwrap, if_neg (by omega)]
      exact hbody

theorem write (hv : Valid t) (text : Text) :
    SameIndices d (s.write d text) (text.foldl (fun t a ↦ t.consolePutchar a.1) t) := by
  induction text generalizing s t with
  | nil => exact h
  | cons a text ih => exact ih (h.consolePutchar hv a.1 a.2) (hv.consolePutchar a.1)

end

theorem init (hwidth : d.width < 2 ^ 34) (hheight : d.height < 2 ^ 35)
    (hzero : ∀ i, (s.scrollback i).length = 0) :
    SameIndices d s.init (consoleInit (some (d.width, d.height)) s.fullscreenMode) := by
  refine ⟨rfl, rfl, rfl, rfl, fun i ↦ ?_, ?_, ?_, rfl, rfl⟩
  · simp only [consoleInit, scrollbackInit, Console.init, update_apply]
    split_ifs <;> simp [hzero]
  · simp only [consoleInit, scrollbackInit, screenRows, Screen.rows]
    exact int_eq (by omega) (by omega)
  · simp only [consoleInit, scrollbackInit, screenCols, Screen.cols]
    exact int_eq (by omega) (by omega)

end SameIndices

end SeedOS.Tty
