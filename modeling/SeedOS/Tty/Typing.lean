import SeedOS.Tty.Picture

namespace SeedOS.Tty

open Foundation

/-- The line in a row of the screen: the rows hold the last lines of the scrollback, from the
top of the screen on. -/
def Console.screenLine (d : Screen) (s : Console) (row : ℕ) : Option Line :=
  if row < min s.count d.rows then s.scrollbackGetLine (min s.count d.rows - 1 - row) else none

def Console.current (s : Console) : Line := s.scrollback s.head

/-- What is on the screen are the last lines of the scrollback. -/
structure Ready (d : Screen) (s : Console) : Prop where
  view : s.viewOffset = 0
  full : s.fullscreenMode = false
  head : s.head < scrollbackLines
  pos : 0 < s.count
  le : s.count ≤ scrollbackLines
  shows : Shows d s.fb (s.screenLine d)

/-- Between two characters the cursor is at the end of its line, or at its start. -/
structure Synced (d : Screen) (s : Console) : Prop extends Ready d s where
  col : s.col = s.current.length ∨ s.col = 0
  short : s.current.length < d.cols

section Lines

variable {d : Screen} {s s' : Console} {y x : ℕ}

theorem screenLine_current (h : Ready d s) (hhead : s'.head = s.head) (hcount : s'.count = s.count)
    (hold : ∀ i, i ≠ s.head → s'.scrollback i = s.scrollback i) (row : ℕ) :
    s'.screenLine d row =
      if row + 1 = min s.count d.rows then some s'.current else s.screenLine d row := by
  have hlt := h.head
  have hle := h.le
  have hpos := h.pos
  unfold scrollbackLines at hlt hle
  rw [Console.screenLine, Console.screenLine, hcount]
  by_cases hlast : row + 1 = min s.count d.rows
  · rw [if_pos hlast, if_pos (by omega), Console.scrollbackGetLine, hcount, if_neg (by omega),
      hhead, Console.current, hhead, scrollbackLines]
    congr 2
    omega
  · rw [if_neg hlast]
    by_cases hrow : row < min s.count d.rows
    · rw [if_pos hrow, if_pos hrow, Console.scrollbackGetLine, Console.scrollbackGetLine, hcount,
        hhead, scrollbackLines, hold]
      omega
    · rw [if_neg hrow, if_neg hrow]

theorem Ready.of_current (h : Ready d s) (hview : s'.viewOffset = s.viewOffset)
    (hfull : s'.fullscreenMode = s.fullscreenMode) (hhead : s'.head = s.head)
    (hcount : s'.count = s.count) (hold : ∀ i, i ≠ s.head → s'.scrollback i = s.scrollback i)
    (hrow : ∀ y x : ℕ, y < d.height → x < d.width → y / 16 + 1 = min s.count d.rows →
      s'.fb y x = picture d (fun _ ↦ some s'.current) y x)
    (hother : ∀ y x : ℕ, y < d.height → x < d.width → y / 16 + 1 ≠ min s.count d.rows →
      s'.fb y x = s.fb y x) : Ready d s' := by
  refine ⟨by rw [hview, h.view], by rw [hfull, h.full], by rw [hhead]; exact h.head,
    by rw [hcount]; exact h.pos, by rw [hcount]; exact h.le, fun y x hy hx ↦ ?_⟩
  have hline := screenLine_current h hhead hcount hold (y / 16)
  by_cases hlast : y / 16 + 1 = min s.count d.rows
  · rw [if_pos hlast] at hline
    rw [hrow y x hy hx hlast]
    exact (picture_congr hline).symm
  · rw [if_neg hlast] at hline
    rw [hother y x hy hx hlast, h.shows y x hy hx]
    exact (picture_congr hline).symm

theorem Ready.lastRow (h : Ready d s) (hy : y < d.height) (hx : x < d.width)
    (hrow : y / 16 + 1 = min s.count d.rows) :
    s.fb y x = picture d (fun _ ↦ some s.current) y x := by
  rw [h.shows y x hy hx]
  apply picture_congr
  have hline := screenLine_current h rfl rfl (fun _ _ ↦ rfl) (y / 16)
  rwa [if_pos hrow] at hline

theorem screenRow_eq : s.screenRow d = (min s.count d.rows : ℕ) - 1 := by
  unfold Console.screenRow
  dsimp only
  split_ifs <;> omega

end Lines

def Console.text (s : Console) (n : ℕ) (c : BitVec 8) (color : Color) : Console :=
  { s with
    scrollback := fun i ↦
      if i = s.head then
        ⟨fun j ↦ if s.col ≤ j ∧ j < s.col + n then ⟨c, color⟩ else (s.scrollback i).cells j,
          s.col + n⟩
      else s.scrollback i
    col := s.col + n }

def Console.typed (d : Screen) (s : Console) (n : ℕ) (c : BitVec 8) (color : Color) : Console :=
  { s.text n c color with fb := Console.drawCells d s.fb c color (s.screenRow d) s.col n }

section Typing

variable {d : Screen} {s : Console} {n : ℕ}

theorem drawCells_apply (s : Console) (fb : Raster Color) (c : BitVec 8) (color : Color)
    {col : ℕ} (hmargin : d.width % 8 = 0 ∨ col + n ≤ d.cols) (y : ℕ) {x : ℕ} (hx : x < d.width) :
    Console.drawCells d fb c color (s.screenRow d) col n y x =
      if y / 16 + 1 = min s.count d.rows ∧ col ≤ x / 8 ∧ x / 8 < col + n then
        d.pixel ⟨c, color⟩ (y % 16) (x % 8)
      else fb y x := by
  unfold Console.drawCells
  induction n with
  | zero =>
    rw [List.range'_zero, List.foldl_nil, if_neg]
    omega
  | succ n ih =>
    rw [List.range'_concat, List.foldl_append, List.foldl_cons, List.foldl_nil, Nat.one_mul,
      screenRow_eq]
    rw [screenRow_eq] at ih
    generalize (List.range' col n).foldl _ fb = fb' at ih ⊢
    replace ih := ih (by omega)
    by_cases hzero : min s.count d.rows = 0
    · rw [consoleDrawChar_above _ _ _ (by omega), ih, if_neg (by omega), if_neg (by omega)]
    · obtain ⟨row, hrow⟩ : ∃ row, min s.count d.rows = row + 1 := ⟨_, (Nat.succ_pred hzero).symm⟩
      rw [hrow] at ih ⊢
      rw [show ((row + 1 : ℕ) : ℤ) - 1 = row by omega]
      by_cases hcol : col + n < d.cols
      · rw [consoleDrawChar_apply (by omega) hcol, ih]
        by_cases h : y / 16 = row ∧ x / 8 = col + n
        · rw [if_pos h, if_pos (by omega)]
        · rw [if_neg h]
          by_cases h' : y / 16 + 1 = row + 1 ∧ col ≤ x / 8 ∧ x / 8 < col + n
          · rw [if_pos h', if_pos (by omega)]
          · rw [if_neg h', if_neg (by omega)]
      · -- the cell lies right of the screen
        have hright : d.width ≤ (col + n) * 8 := by
          unfold Screen.cols at hcol hmargin
          omega
        rw [consoleDrawChar_right hright, ih]
        by_cases h' : y / 16 + 1 = row + 1 ∧ col ≤ x / 8 ∧ x / 8 < col + n
        · rw [if_pos h', if_pos (by omega)]
        · rw [if_neg h', if_neg (by omega)]

theorem Ready.typed (h : Ready d s) (hcol : s.col = s.current.length ∨ s.col = 0)
    (hlen : s.current.length ≤ s.col + n) (hmargin : d.width % 8 = 0 ∨ s.col + n ≤ d.cols)
    (c : BitVec 8) (color : Color) : Ready d (s.typed d n c color) := by
  refine h.of_current rfl rfl rfl rfl (fun i hi ↦ if_neg hi) (fun y x hy hx hrow ↦ ?_)
    fun y x hy hx hrow ↦ ?_
  · have hcurrent : (s.typed d n c color).current = ⟨fun j ↦ if s.col ≤ j ∧ j < s.col + n then
        ⟨c, color⟩ else s.current.cells j, s.col + n⟩ := if_pos rfl
    rw [Console.typed]
    dsimp only
    rw [drawCells_apply s s.fb c color hmargin y hx, ← Console.typed, hcurrent, h.lastRow hy hx hrow,
      picture, picture]
    dsimp only
    by_cases hin : s.col ≤ x / 8 ∧ x / 8 < s.col + n
    · have hcols : x / 8 < d.cols := by
        unfold Screen.cols at hmargin ⊢
        omega
      rw [if_pos ⟨hrow, hin⟩, if_pos ⟨by omega, hcols, hin.2⟩, if_pos hin]
    · rw [if_neg fun hc ↦ hin hc.2, if_neg hin]
      congr 1
      rw [eq_iff_iff]
      omega
  · rw [Console.typed]
    dsimp only
    rw [drawCells_apply s s.fb c color hmargin y hx, if_neg fun hc ↦ hrow hc.1]

theorem scrollbackPutchar_eq (h : s.col < maxCols) (c : BitVec 8) (color : Color) :
    s.scrollbackPutchar c color = s.text 1 c color := by
  rw [Console.scrollbackPutchar, if_pos h, Console.text]
  congr 1
  funext i
  have hcell : ∀ j, (j = s.col) = (s.col ≤ j ∧ j < s.col + 1) := by
    intro j
    rw [eq_iff_iff]
    omega
  simp only [hcell]

theorem text_text (s : Console) (m n : ℕ) (c : BitVec 8) (color : Color) :
    (s.text m c color).text n c color = s.text (m + n) c color := by
  simp only [Console.text, Nat.add_assoc]
  congr 1
  funext i
  by_cases hi : i = s.head
  · simp only [if_pos hi]
    congr 1
    funext j
    by_cases hj : s.col + m ≤ j ∧ j < s.col + (m + n)
    · rw [if_pos hj, if_pos (by omega)]
    · rw [if_neg hj]
      by_cases hj' : s.col ≤ j ∧ j < s.col + m
      · rw [if_pos hj', if_pos (by omega)]
      · rw [if_neg hj', if_neg (by omega)]
  · simp only [if_neg hi]

theorem tabFill_eq (color : Color) (n : ℕ) (h : s.col < maxCols) :
    Console.tabFill color (n + 1) s = s.text (min (n + 1) (maxCols - s.col)) 0x20#8 color := by
  induction n generalizing s with
  | zero =>
    rw [Console.tabFill, if_pos h, Console.tabFill, scrollbackPutchar_eq h,
      show min (0 + 1) (maxCols - s.col) = 1 by omega]
  | succ n ih =>
    rw [Console.tabFill, if_pos h, scrollbackPutchar_eq h]
    have hcol : (s.text 1 0x20#8 color).col = s.col + 1 := rfl
    by_cases hlast : s.col + 1 < maxCols
    · rw [ih (by omega), text_text, hcol]
      congr 1
      omega
    · rw [Console.tabFill, if_neg (by omega)]
      congr 1
      omega

theorem Ready.backspace (h : Ready d s) (hcol : s.col = s.current.length)
    (hcols : s.col - 1 < d.cols) (hpos : 0 < s.col) : Ready d { s with
      col := s.col - 1
      scrollback := fun i ↦
        if i = s.head then { s.scrollback i with length := s.col - 1 } else s.scrollback i
      fb := d.consoleFillRect s.fb ((s.col - 1 : ℕ) * 8) (s.screenRow d * 16) 8 16 0#32 } := by
  refine h.of_current rfl rfl rfl rfl (fun i hi ↦ if_neg hi) (fun y x hy hx hrow ↦ ?_)
    fun y x hy hx hrow ↦ ?_
  · obtain ⟨row, hm⟩ : ∃ row, min s.count d.rows = row + 1 := ⟨_, hrow.symm⟩
    dsimp only [Console.current]
    rw [if_pos rfl, screenRow_eq, hm, show ((row + 1 : ℕ) : ℤ) - 1 = row by omega,
      consoleFillRect_apply (by omega) hcols, h.lastRow hy hx hrow, picture, picture]
    dsimp only [Console.current] at hcol ⊢
    by_cases hx' : x / 8 = s.col - 1
    · rw [if_pos (by omega), if_neg (by omega)]
    · rw [if_neg (by omega)]
      congr 1
      rw [eq_iff_iff]
      omega
  · dsimp only
    rw [screenRow_eq]
    by_cases hzero : min s.count d.rows = 0
    · rw [Screen.consoleFillRect, Raster.paint_apply, if_neg]
      omega
    · obtain ⟨row, hm⟩ : ∃ row, min s.count d.rows = row + 1 := ⟨_, (Nat.succ_pred hzero).symm⟩
      rw [hm, show ((row + 1 : ℕ) : ℤ) - 1 = row by omega, consoleFillRect_apply (by omega) hcols,
        if_neg (by omega)]

end Typing

section Newline

variable {d : Screen} {s : Console}

theorem scrollbackNewline_getLine (hhead : s.head < scrollbackLines)
    (hcount : s.count < scrollbackLines) {k : ℕ} (hk : k < s.count) :
    s.scrollbackNewline.scrollbackGetLine (k + 1) = s.scrollbackGetLine k := by
  unfold scrollbackLines at hhead hcount
  rw [Console.scrollbackGetLine, Console.scrollbackGetLine, Console.scrollbackNewline]
  dsimp only
  rw [scrollbackLines, if_pos hcount, if_neg (by omega), if_neg (by omega), if_neg (by omega)]
  congr 2
  omega

theorem scrollbackNewline_current (s : Console) : s.scrollbackNewline.current.length = 0 := by
  rw [Console.current, Console.scrollbackNewline]
  dsimp only
  rw [if_pos rfl]

theorem Ready.newline (h : Ready d s) (hrows : d.rows < scrollbackLines) (hcols : 0 < d.cols) :
    Synced d (s.newline d) := by
  have hhead : s.scrollbackNewline.head < scrollbackLines := Nat.mod_lt _ (by decide)
  have hpos : 0 < s.scrollbackNewline.count := by
    dsimp only [Console.scrollbackNewline]
    split_ifs
    · omega
    · exact h.pos
  have hle : s.scrollbackNewline.count ≤ scrollbackLines := by
    have := h.le
    dsimp only [Console.scrollbackNewline]
    split_ifs <;> omega
  have hempty := scrollbackNewline_current s
  unfold Console.newline
  dsimp only
  split_ifs with hscroll
  · -- the screen is full: the picture is painted anew
    refine ⟨⟨h.view, h.full, hhead, hpos, hle, fun y x hy hx ↦ ?_⟩, .inr rfl, ?_⟩
    · rw [renderView_shows d s.scrollbackNewline y x hy hx]
      by_cases hrow : y / 16 < d.rows
      · apply picture_congr
        have hview : s.scrollbackNewline.viewOffset = 0 := h.view
        have hmin : min s.scrollbackNewline.count d.rows = d.rows := by omega
        show _ = Console.screenLine d s.scrollbackNewline (y / 16)
        rw [Console.screenLine, hmin, if_pos hrow, hview, Nat.zero_add]
      · rw [picture_below (by omega), picture_below (by omega)]
    · show s.scrollbackNewline.current.length < d.cols
      omega
  · -- there is room for one more line
    have hcount : s.count < scrollbackLines := by
      by_contra hc
      dsimp only [Console.scrollbackNewline] at hscroll
      rw [if_neg hc] at hscroll
      omega
    have hnext : s.scrollbackNewline.count = s.count + 1 := if_pos hcount
    refine ⟨⟨h.view, h.full, hhead, hpos, hle, fun y x hy hx ↦ ?_⟩, .inr rfl, by omega⟩
    rw [show s.scrollbackNewline.fb = s.fb from rfl, h.shows y x hy hx]
    by_cases hlast : y / 16 = s.count
    · rw [picture, picture, Console.screenLine, Console.screenLine, if_neg (by omega),
        if_pos (by omega), Console.scrollbackGetLine, if_neg (by omega)]
      have hidx : (s.scrollbackNewline.head + scrollbackLines -
          (min s.scrollbackNewline.count d.rows - 1 - y / 16)) % scrollbackLines =
          s.scrollbackNewline.head := by
        unfold scrollbackLines at hhead ⊢
        omega
      rw [hidx]
      dsimp only [Console.current] at hempty ⊢
      rw [hempty, if_neg (by omega)]
    · apply picture_congr
      rw [Console.screenLine, Console.screenLine]
      by_cases hrow : y / 16 < s.count
      · rw [if_pos (by omega), if_pos (by omega), ← scrollbackNewline_getLine h.head hcount (by omega)]
        congr 1
        omega
      · rw [if_neg (by omega), if_neg (by omega)]

end Newline

end SeedOS.Tty
