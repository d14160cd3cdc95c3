import SeedOS.Tty.Console

namespace SeedOS.Tty

abbrev Text := List (BitVec 8 × Color)

/-- Characters other than carriage return, backspace and tab. -/
def Plain (c : BitVec 8) : Prop := c ≠ 0x0D#8 ∧ c ≠ 0x08#8 ∧ c ≠ 0x09#8

def Console.write (d : Screen) (s : Console) (text : Text) : Console :=
  text.foldl (fun s a ↦ s.consolePutchar d a.1 a.2) s

section Layout

/-- The line and the column after a character: a line ends with a newline, or with the
character that fills it. -/
def advance (cols : ℕ) (pos : ℕ × ℕ) (c : BitVec 8) : ℕ × ℕ :=
  if c = 0x0A#8 then (pos.1 + 1, 0)
  else if pos.2 + 1 < cols then (pos.1, pos.2 + 1) else (pos.1 + 1, 0)

def cursor (cols : ℕ) (text : Text) : ℕ × ℕ := text.foldl (fun pos a ↦ advance cols pos a.1) (0, 0)

/-- The wrapped text has this cell at this line and column. -/
def Laid (cols : ℕ) (text : Text) (line col : ℕ) (cell : Cell) : Prop :=
  ∃ before c color after, text = before ++ (c, color) :: after ∧ c ≠ 0x0A#8 ∧
    cursor cols before = (line, col) ∧ cell = ⟨c, color⟩

variable {cols line col : ℕ} {text : Text} {cell : Cell} {c : BitVec 8} {color : Color}

theorem cursor_concat : cursor cols (text ++ [(c, color)]) = advance cols (cursor cols text) c := by
  rw [cursor, List.foldl_append]
  rfl

theorem cursor_col_lt (hcols : 0 < cols) : (cursor cols text).2 < cols := by
  induction text using List.reverseRecOn with
  | nil => exact hcols
  | append_singleton text a ih =>
    rw [cursor_concat, advance]
    split_ifs with hn hfull
    · exact hcols
    · exact hfull
    · exact hcols

theorem laid_concat : Laid cols (text ++ [(c, color)]) line col cell ↔
    Laid cols text line col cell ∨
      c ≠ 0x0A#8 ∧ cursor cols text = (line, col) ∧ cell = ⟨c, color⟩ := by
  constructor
  · rintro ⟨before, c', color', after, heq, hc, hpos, hcell⟩
    rcases List.eq_nil_or_concat after with rfl | ⟨after, a, rfl⟩
    · obtain ⟨rfl, ha⟩ := List.append_inj' heq rfl
      obtain ⟨rfl, rfl⟩ := Prod.mk.inj (List.singleton_inj.mp ha)
      exact .inr ⟨hc, hpos, hcell⟩
    · rw [List.concat_eq_append, ← List.cons_append, ← List.append_assoc] at heq
      obtain ⟨rfl, -⟩ := List.append_inj' heq rfl
      exact .inl ⟨before, c', color', after, rfl, hc, hpos, hcell⟩
  · rintro (⟨before, c', color', after, rfl, h⟩ | h)
    · exact ⟨before, c', color', after ++ [(c, color)], by simp, h⟩
    · exact ⟨text, c, color, [], rfl, h⟩

end Layout

/-- Each character that lies among the last 1000 lines of the wrapped text is found there. -/
def Keeps (d : Screen) (s : Console) (text : Text) : Prop :=
  ∀ line col cell, Laid d.cols text line col cell →
    (cursor d.cols text).1 < line + scrollbackLines →
    ∃ l, s.scrollbackGetLine ((cursor d.cols text).1 - line) = some l ∧ col < l.length ∧
      l.cells col = cell

def ColsFit (d : Screen) (text : Text) : Prop :=
  ∀ line col cell, Laid d.cols text line col cell → col < maxCols

section Pixels

variable (d : Screen) (s : Console)

theorem newline_text : ∃ fb, s.newline d = { s.scrollbackNewline with fb := fb } := by
  unfold Console.newline
  dsimp only
  split_ifs
  · exact ⟨_, rfl⟩
  · exact ⟨_, rfl⟩

/-- What `console_putchar` does to the scrollback. -/
def Console.typeChar (cols : ℕ) (c : BitVec 8) (color : Color) : Console :=
  let s := if c = 0x0A#8 then s.scrollbackNewline else s.scrollbackPutchar c color
  if cols ≤ s.col then s.scrollbackNewline else s

theorem consolePutchar_text {c : BitVec 8} (hc : Plain c) (hview : s.viewOffset = 0)
    (hfull : s.fullscreenMode = false) (color : Color) :
    ∃ fb, s.consolePutchar d c color = { s.typeChar d.cols c color with fb := fb } := by
  obtain ⟨s₁, hbody, fb₁, hs₁⟩ : ∃ s₁, s.putcharBody d c color = s₁ ∧ ∃ fb, s₁ =
      { (if c = 0x0A#8 then s.scrollbackNewline else s.scrollbackPutchar c color) with
        fb := fb } := by
    refine ⟨_, rfl, ?_⟩
    unfold Console.putcharBody
    dsimp only
    by_cases hn : c = 0x0A#8
    · rw [if_pos hn, if_pos hn]
      exact newline_text d s
    · rw [if_neg hn, if_neg hc.1, if_neg hc.2.1, if_neg hc.2.2, if_neg hn]
      exact ⟨_, rfl⟩
  unfold Console.consolePutchar Console.typeChar
  rw [hfull]
  dsimp only
  rw [if_neg Bool.false_ne_true, hview, if_neg (Nat.lt_irrefl 0), hbody, hs₁]
  generalize (if c = 0x0A#8 then s.scrollbackNewline else s.scrollbackPutchar c color) = s₂
  dsimp only
  split_ifs
  · obtain ⟨fb₂, h₂⟩ := newline_text d { s₂ with fb := fb₁ }
    exact ⟨fb₂, h₂⟩
  · exact ⟨fb₁, rfl⟩

end Pixels

/-- The scrollback holds the cells of `laid`, and its cursor is at `pos`. -/
structure Tracks (s : Console) (pos : ℕ × ℕ) (laid : ℕ → ℕ → Cell → Prop) : Prop where
  shown : s.viewOffset = 0 ∧ s.fullscreenMode = false
  head : s.head = pos.1 % scrollbackLines
  count : s.count = min (pos.1 + 1) scrollbackLines
  col : s.col = pos.2
  before : ∀ line col cell, laid line col cell → line < pos.1 ∨ line = pos.1 ∧ col < pos.2
  kept : ∀ line col cell, laid line col cell → pos.1 < line + scrollbackLines →
    col < (s.scrollback (line % scrollbackLines)).length ∧
      (s.scrollback (line % scrollbackLines)).cells col = cell

namespace Tracks

variable {s : Console} {pos : ℕ × ℕ} {laid : ℕ → ℕ → Cell → Prop}

theorem of_text {s' : Console} {fb} (h : Tracks s pos laid) (heq : s' = { s with fb := fb }) :
    Tracks s' pos laid := by
  subst heq
  exact ⟨h.shown, h.head, h.count, h.col, h.before, h.kept⟩

theorem init (h : s.fullscreenMode = false) : Tracks s.init (0, 0) fun _ _ _ ↦ False where
  shown := ⟨rfl, h⟩
  head := rfl
  count := rfl
  col := rfl
  before _ _ _ := False.elim
  kept _ _ _ := False.elim

theorem newline (h : Tracks s pos laid) : Tracks s.scrollbackNewline (pos.1 + 1, 0) laid where
  shown := h.shown
  head := by
    change (s.head + 1) % scrollbackLines = _
    rw [h.head, Nat.mod_add_mod]
  count := by
    change (if s.count < scrollbackLines then s.count + 1 else s.count) = _
    rw [h.count]
    dsimp only
    split_ifs <;> omega
  col := rfl
  before line col cell hl := by
    have := h.before line col cell hl
    dsimp only
    omega
  kept line col cell hl hlast := by
    have hbefore := h.before line col cell hl
    dsimp only at hlast
    -- the slot of the new line held a line that is now too old
    have hne : line % scrollbackLines ≠ (s.head + 1) % scrollbackLines := by
      rw [h.head, Nat.mod_add_mod]
      unfold scrollbackLines at hlast ⊢
      omega
    change _ < (if _ then _ else _ : Line).length ∧ (if _ then _ else _ : Line).cells col = cell
    rw [if_neg hne]
    exact h.kept line col cell hl (by omega)

theorem putchar (h : Tracks s pos laid) (hfit : pos.2 < maxCols) (c : BitVec 8) (color : Color) :
    Tracks (s.scrollbackPutchar c color) (pos.1, pos.2 + 1)
      (fun line col cell ↦ laid line col cell ∨ (pos = (line, col) ∧ cell = ⟨c, color⟩)) := by
  unfold Console.scrollbackPutchar
  rw [if_pos (h.col ▸ hfit)]
  refine ⟨h.shown, h.head, h.count, congrArg (· + 1) h.col, ?_, ?_⟩
  · rintro line col cell (hl | ⟨rfl, -⟩)
    · have := h.before line col cell hl
      dsimp only
      omega
    · exact .inr ⟨rfl, Nat.lt_succ_self _⟩
  · rintro line col cell (hl | ⟨rfl, rfl⟩) hlast
    · have hbefore := h.before line col cell hl
      obtain ⟨hlen, hcell⟩ := h.kept line col cell hl hlast
      dsimp only at hlast ⊢
      by_cases hslot : line % scrollbackLines = s.head
      · -- only the line of the cursor has this slot, and its cells are left of the cursor
        have hline : line = pos.1 ∧ col < pos.2 := by
          rw [h.head] at hslot
          unfold scrollbackLines at hslot hlast
          omega
        rw [if_pos hslot, h.col]
        exact ⟨Nat.lt_succ_of_lt hline.2, (if_neg (Nat.ne_of_lt hline.2)).trans hcell⟩
      · rw [if_neg hslot]
        exact ⟨hlen, hcell⟩
    · have hcol := h.col
      dsimp only at hcol ⊢
      rw [if_pos h.head.symm, hcol]
      exact ⟨Nat.lt_succ_self _, if_pos rfl⟩

theorem mono {laid' : ℕ → ℕ → Cell → Prop} (h : Tracks s pos laid)
    (hsub : ∀ line col cell, laid' line col cell → laid line col cell) : Tracks s pos laid' where
  shown := h.shown
  head := h.head
  count := h.count
  col := h.col
  before line col cell hl := h.before line col cell (hsub line col cell hl)
  kept line col cell hl := h.kept line col cell (hsub line col cell hl)

variable {cols : ℕ} {text : Text} {c : BitVec 8} {color : Color}

theorem typeChar (h : Tracks s (cursor cols text) (Laid cols text)) (hcols : 0 < cols)
    (hfit : c ≠ 0x0A#8 → (cursor cols text).2 < maxCols) :
    Tracks (s.typeChar cols c color) (cursor cols (text ++ [(c, color)]))
      (Laid cols (text ++ [(c, color)])) := by
  unfold Console.typeChar
  rw [cursor_concat, advance]
  by_cases hn : c = 0x0A#8
  · rw [if_pos hn, if_pos hn]
    have hcol : ¬cols ≤ s.scrollbackNewline.col := Nat.not_le.mpr hcols
    dsimp only
    rw [if_neg hcol]
    refine h.newline.mono fun line col cell hl ↦ ?_
    exact (laid_concat.mp hl).resolve_right fun hlast ↦ hlast.1 hn
  · rw [if_neg hn, if_neg hn]
    have hput : Tracks (s.scrollbackPutchar c color) _ (Laid cols (text ++ [(c, color)])) :=
      (h.putchar (hfit hn) c color).mono fun line col cell hl ↦
        (laid_concat.mp hl).imp_right And.right
    have hcol := hput.col
    dsimp only at hcol ⊢
    rw [hcol]
    by_cases hfull : (cursor cols text).2 + 1 < cols
    · rw [if_pos hfull, if_neg (Nat.not_le.mpr hfull)]
      exact hput
    · rw [if_neg hfull, if_pos (Nat.not_lt.mp hfull)]
      exact hput.newline

end Tracks

/-- The cells of every line that can be asked for are among the 160 of the array. -/
structure Bounded (s : Console) : Prop where
  shown : s.viewOffset = 0 ∧ s.fullscreenMode = false
  col : s.col ≤ maxCols
  count : s.count ≤ scrollbackLines
  length : ∀ k < s.count, (s.scrollback ((s.head + scrollbackLines - k) % scrollbackLines)).length
    ≤ maxCols

namespace Bounded

variable {s : Console}

theorem of_text {s' : Console} {fb} (h : Bounded s) (heq : s' = { s with fb := fb }) :
    Bounded s' := by
  subst heq
  exact ⟨h.shown, h.col, h.count, h.length⟩

theorem init (h : s.fullscreenMode = false) : Bounded s.init where
  shown := ⟨rfl, h⟩
  col := Nat.zero_le _
  count := by
    simp [Console.init, scrollbackLines]
  length k hk := by
    obtain rfl : k = 0 := Nat.lt_one_iff.mp hk
    simp [Console.init]

theorem newline (h : Bounded s) : Bounded s.scrollbackNewline where
  shown := h.shown
  col := Nat.zero_le _
  count := by
    have := h.count
    change (if s.count < scrollbackLines then s.count + 1 else s.count) ≤ _
    split_ifs <;> omega
  length k hk := by
    have hcount := h.count
    change k < (if s.count < scrollbackLines then s.count + 1 else s.count) at hk
    change (if _ then _ else _ : Line).length ≤ _
    split_ifs with hslot
    · exact Nat.zero_le _
    · -- the line that was one nearer to the bottom
      have hk₀ : k ≠ 0 := by
        rintro rfl
        apply hslot
        change ((s.head + 1) % scrollbackLines + scrollbackLines - 0) % scrollbackLines = _
        rw [Nat.sub_zero, Nat.add_mod_right, Nat.mod_mod]
      have hk₁ : k - 1 < s.count := by
        split_ifs at hk <;> omega
      have hsame : (s.scrollbackNewline.head + scrollbackLines - k) % scrollbackLines =
          (s.head + scrollbackLines - (k - 1)) % scrollbackLines := by
        change ((s.head + 1) % scrollbackLines + scrollbackLines - k) % scrollbackLines = _
        unfold scrollbackLines at hcount ⊢
        omega
      rw [hsame]
      exact h.length (k - 1) hk₁

theorem putchar (h : Bounded s) (c : BitVec 8) (color : Color) :
    Bounded (s.scrollbackPutchar c color) := by
  unfold Console.scrollbackPutchar
  split_ifs with hcol
  · refine ⟨h.shown, hcol, h.count, fun k hk ↦ ?_⟩
    dsimp only
    split_ifs
    · exact hcol
    · exact h.length k hk
  · exact h

theorem typeChar (h : Bounded s) (cols : ℕ) (c : BitVec 8) (color : Color) :
    Bounded (s.typeChar cols c color) := by
  have hstored : Bounded
      (if c = 0x0A#8 then s.scrollbackNewline else s.scrollbackPutchar c color) := by
    split_ifs
    · exact h.newline
    · exact h.putchar c color
  unfold Console.typeChar
  generalize (if c = 0x0A#8 then s.scrollbackNewline else s.scrollbackPutchar c color) = s'
    at hstored
  dsimp only
  split_ifs
  · exact hstored.newline
  · exact hstored

end Bounded

section Write

variable {d : Screen} {s : Console} {text : Text}

theorem write_concat (a : BitVec 8 × Color) :
    s.write d (text ++ [a]) = (s.write d text).consolePutchar d a.1 a.2 := by
  rw [Console.write, List.foldl_append]
  rfl

theorem tracks_write (hfull : s.fullscreenMode = false) (hcols : 0 < d.cols)
    (hplain : ∀ a ∈ text, Plain a.1) (hfit : ColsFit d text) :
    Tracks (s.init.write d text) (cursor d.cols text) (Laid d.cols text) := by
  induction text using List.reverseRecOn with
  | nil =>
    refine (Tracks.init hfull).mono ?_
    rintro line col cell ⟨before, c, color, after, heq, -⟩
    exact List.append_ne_nil_of_right_ne_nil _ (List.cons_ne_nil _ _) heq.symm
  | append_singleton text a ih =>
    obtain ⟨c, color⟩ := a
    have ht := ih (fun b hb ↦ hplain b (List.mem_append_left _ hb))
      (fun line col cell hl ↦ hfit line col cell (laid_concat.mpr (.inl hl)))
    have hc : Plain c := hplain (c, color) (List.mem_append_right _ List.mem_cons_self)
    obtain ⟨fb, hfb⟩ := consolePutchar_text d (s.init.write d text) hc ht.shown.1 ht.shown.2 color
    rw [write_concat]
    refine (ht.typeChar hcols fun hn ↦ ?_).of_text hfb
    exact hfit _ _ _ (laid_concat.mpr (.inr ⟨hn, rfl, rfl⟩))

theorem bounded_write (hfull : s.fullscreenMode = false) (hplain : ∀ a ∈ text, Plain a.1) :
    Bounded (s.init.write d text) := by
  induction text using List.reverseRecOn with
  | nil => exact Bounded.init hfull
  | append_singleton text a ih =>
    have hb := ih fun b hb ↦ hplain b (List.mem_append_left _ hb)
    have hc : Plain a.1 := hplain a (List.mem_append_right _ List.mem_cons_self)
    obtain ⟨fb, hfb⟩ := consolePutchar_text d (s.init.write d text) hc hb.shown.1 hb.shown.2 a.2
    rw [write_concat]
    exact (hb.typeChar d.cols a.1 a.2).of_text hfb

theorem Tracks.keeps (h : Tracks s (cursor d.cols text) (Laid d.cols text)) : Keeps d s text := by
  intro line col cell hl hlast
  have hbefore := h.before line col cell hl
  have hslot : (s.head + scrollbackLines - ((cursor d.cols text).1 - line)) % scrollbackLines =
      line % scrollbackLines := by
    rw [h.head]
    unfold scrollbackLines at hlast ⊢
    omega
  have hcount : ¬s.count ≤ (cursor d.cols text).1 - line := by
    rw [h.count]
    omega
  unfold Console.scrollbackGetLine
  rw [if_neg hcount, hslot]
  exact ⟨_, rfl, h.kept line col cell hl hlast⟩

theorem Bounded.colsFit (h : Bounded s) (hlines : (cursor d.cols text).1 < scrollbackLines)
    (hkeeps : Keeps d s text) : ColsFit d text := by
  intro line col cell hl
  obtain ⟨l, hget, hcol, -⟩ := hkeeps line col cell hl (Nat.lt_add_left line hlines)
  unfold Console.scrollbackGetLine at hget
  split_ifs at hget with hcount
  rw [← Option.some.inj hget] at hcol
  exact Nat.lt_of_lt_of_le hcol (h.length _ (Nat.not_le.mp hcount))

theorem colsFit_of_le (hcols : 0 < d.cols) (hle : d.cols ≤ maxCols) : ColsFit d text := by
  rintro line col cell ⟨before, c, color, after, -, -, hpos, -⟩
  have hlt : (cursor d.cols before).2 < d.cols := cursor_col_lt hcols
  rw [hpos] at hlt
  exact Nat.lt_of_lt_of_le hlt hle

/-- A screen of at most 160 columns loses nothing; a wider one loses what is written to the right
of column 160. -/
theorem text_kept_iff (d : Screen) (s : Console) (text : Text) (hwidth : 8 ≤ d.width)
    (hfull : s.fullscreenMode = false) (hplain : ∀ a ∈ text, Plain a.1) :
    (d.cols ≤ maxCols → Keeps d (s.init.write d text) text) ∧
      (ColsFit d text → Keeps d (s.init.write d text) text) ∧
      ((cursor d.cols text).1 < scrollbackLines →
        Keeps d (s.init.write d text) text → ColsFit d text) := by
  have hcols : 0 < d.cols := Nat.div_pos hwidth (by omega)
  refine ⟨fun hle ↦ ?_, fun hfit ↦ ?_, (bounded_write hfull hplain).colsFit⟩
  · exact (tracks_write hfull hcols hplain (colsFit_of_le hcols hle)).keeps
  · exact (tracks_write hfull hcols hplain hfit).keeps

def emptyConsole : Console := ⟨fun _ ↦ ⟨fun _ ↦ ⟨0#8, 0#32⟩, 0⟩, 0, 0, 0, 0, false, fun _ _ ↦ 0#32⟩

def screenOf (width : ℕ) : Screen := ⟨width, 1440, fun _ _ ↦ 0#8⟩

def letters (n : ℕ) : Text := List.replicate n (0x61#8, 0xFFFFFF#32)

theorem letters_plain (n : ℕ) : ∀ a ∈ letters n, Plain a.1 := by
  intro a ha
  obtain rfl := List.eq_of_mem_replicate ha
  refine ⟨?_, ?_, ?_⟩ <;> decide

theorem text_kept_narrow : 8 ≤ (screenOf 1280).width ∧ emptyConsole.fullscreenMode = false ∧
    Keeps (screenOf 1280) (emptyConsole.init.write (screenOf 1280) (letters 161)) (letters 161) :=
  ⟨by decide, rfl,
    (text_kept_iff (screenOf 1280) emptyConsole (letters 161) (by decide) rfl
      (letters_plain 161)).1 (by decide)⟩

/-- On a screen of 2560 pixels the character in column 160 is drawn but not stored. -/
theorem wide_line_cut :
    ¬Keeps (screenOf 2560) (emptyConsole.init.write (screenOf 2560) (letters 161))
      (letters 161) := by
  intro hkeeps
  have hcursor : cursor (screenOf 2560).cols (letters 161) = (0, 161) := by decide +kernel
  have hlaid : Laid (screenOf 2560).cols (letters 161) 0 160 ⟨0x61#8, 0xFFFFFF#32⟩ :=
    ⟨letters 160, _, _, [], List.replicate_succ', by decide, by decide +kernel, rfl⟩
  have hbounded : Bounded (emptyConsole.init.write (screenOf 2560) (letters 161)) :=
    bounded_write rfl (letters_plain 161)
  have hlines : (cursor (screenOf 2560).cols (letters 161)).1 < scrollbackLines := by
    rw [hcursor]
    decide
  have hfit := hbounded.colsFit hlines hkeeps 0 160 _ hlaid
  exact Nat.lt_irrefl maxCols hfit

end Write

end SeedOS.Tty
