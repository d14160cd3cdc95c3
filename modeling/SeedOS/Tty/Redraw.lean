import SeedOS.Foundation.Machine
import SeedOS.Tty.Typing

namespace SeedOS.Tty

open Foundation

/-- The character leaves no cell of the line behind on the screen: a character typed after a
carriage return is not the start of a shorter line, and a tab does not run into the margin
right of the last whole column. -/
def Fits (d : Screen) (s : Console) (c : BitVec 8) : Prop :=
  if c = 0x0A#8 ∨ c = 0x0D#8 ∨ c = 0x08#8 then True
  else if c = 0x09#8 then
    s.current.length ≤ s.col + 4 ∧ (d.width % 8 = 0 ∨ s.col + 4 ≤ d.cols)
  else s.current.length ≤ s.col + 1

instance Fits.decidable (d : Screen) (s : Console) (c : BitVec 8) : Decidable (Fits d s c) := by
  unfold Fits
  infer_instance

def Blank (d : Screen) (s : Console) : Prop :=
  ∀ k line, s.scrollbackGetLine k = some line → ∀ j, j < d.cols → j < line.length →
    ∀ row < 16, ∀ col < 8, d.pixel (line.cells j) row col = 0#32

/-- The framebuffer is as `render_view` would paint it. -/
def Agrees (d : Screen) (s : Console) : Prop :=
  ∀ y x : ℕ, y < d.height → x < d.width →
    s.fb y x = ({ s with viewOffset := 0 }.renderView d).fb y x

section Step

variable {d : Screen} {s : Console} {c : BitVec 8}

theorem Synced.col_lt (h : Synced d s) : s.col < d.cols := by
  have := h.short
  rcases h.col with hc | hc <;> omega

theorem Ready.wrap (h : Ready d s) (hrows : d.rows < scrollbackLines) (hcols : 0 < d.cols)
    (hcol : s.col = s.current.length ∨ s.col = 0)
    (hshort : s.col < d.cols → s.current.length < d.cols) :
    Synced d (if d.cols ≤ s.col then s.newline d else s) := by
  split_ifs with hfull
  · exact h.newline hrows hcols
  · exact ⟨h, hcol, hshort (by omega)⟩

theorem Synced.typed (h : Synced d s) (hrows : d.rows < scrollbackLines) (hcols : 0 < d.cols)
    {n : ℕ} (hlen : s.current.length ≤ s.col + n)
    (hmargin : d.width % 8 = 0 ∨ s.col + n ≤ d.cols) (c : BitVec 8) (color : Color) :
    Synced d (if d.cols ≤ (s.typed d n c color).col then (s.typed d n c color).newline d
      else s.typed d n c color) := by
  have hcurrent : (s.typed d n c color).current.length = (s.typed d n c color).col := by
    dsimp only [Console.typed, Console.text, Console.current]
    rw [if_pos rfl]
  refine (h.toReady.typed h.col hlen hmargin c color).wrap hrows hcols (.inl hcurrent.symm) ?_
  omega

theorem putcharBody_tab (hcol : s.col < maxCols) (color : Color) :
    s.putcharBody d 0x09#8 color = s.typed d (min 4 (maxCols - s.col)) 0x20#8 color := by
  rw [Console.putcharBody]
  dsimp only
  rw [if_neg (by decide), if_neg (by decide), if_neg (by decide), if_pos rfl, tabFill_eq color 3 hcol]
  dsimp only [Console.typed, Console.text]
  rw [Nat.add_sub_cancel_left]

theorem putcharBody_char (hcol : s.col < maxCols) (hn : c ≠ 0x0A#8) (hr : c ≠ 0x0D#8)
    (hb : c ≠ 0x08#8) (ht : c ≠ 0x09#8) (color : Color) :
    s.putcharBody d c color = s.typed d 1 c color := by
  rw [Console.putcharBody]
  dsimp only
  rw [if_neg hn, if_neg hr, if_neg hb, if_neg ht, scrollbackPutchar_eq hcol]
  rfl

theorem consolePutchar_synced (h : Synced d s) (hcols : 0 < d.cols) (hmax : d.cols ≤ maxCols)
    (hrows : d.rows < scrollbackLines) (hfits : Fits d s c) (color : Color) :
    Synced d (s.consolePutchar d c color) := by
  have hlt := h.col_lt
  have hshort := h.short
  have hstored : s.col < maxCols := by omega
  rw [Console.consolePutchar, h.full, h.view]
  simp only [Bool.false_eq_true, if_false, lt_self_iff_false]
  unfold Fits at hfits
  by_cases hn : c = 0x0A#8
  · have hnew := h.toReady.newline hrows hcols
    rw [Console.putcharBody]
    simp only [hn, if_true]
    exact hnew.toReady.wrap hrows hcols hnew.col fun _ ↦ hnew.short
  by_cases hr : c = 0x0D#8
  · rw [Console.putcharBody]
    simp only [hr, if_true, BitVec.reduceEq, if_false]
    have hstart : Ready d { s with col := 0 } := ⟨h.view, h.full, h.head, h.pos, h.le, h.shows⟩
    exact hstart.wrap hrows hcols (.inr rfl) fun _ ↦ hshort
  by_cases hb : c = 0x08#8
  · rw [Console.putcharBody]
    simp only [hb, if_true, BitVec.reduceEq, if_false]
    by_cases hpos : 0 < s.col
    · simp only [hpos, if_true]
      have hend : s.col = s.current.length := by
        rcases h.col with hc | hc <;> omega
      refine (h.toReady.backspace hend (by omega) hpos).wrap hrows hcols (.inl ?_) fun _ ↦ ?_
      · simp only [Console.current, if_true]
      · simp only [Console.current, if_true]
        omega
    · simp only [hpos, if_false]
      exact h.toReady.wrap hrows hcols h.col fun _ ↦ hshort
  simp only [hn, hr, hb, or_self, if_false] at hfits
  by_cases ht : c = 0x09#8
  · simp only [ht, if_true] at hfits ⊢
    rw [putcharBody_tab hstored]
    exact h.typed hrows hcols (by omega) (by omega) _ _
  · simp only [ht, if_false] at hfits
    rw [putcharBody_char hstored hn hr hb ht]
    exact h.typed hrows hcols hfits (by omega) _ _

theorem init_synced (hcols : 0 < d.cols) (hfull : s.fullscreenMode = false)
    (hblack : ∀ y x : ℕ, y < d.height → x < d.width → s.fb y x = 0#32) : Synced d s.init := by
  refine ⟨⟨rfl, hfull, by simp [Console.init, scrollbackLines], Nat.one_pos,
    by simp [Console.init, scrollbackLines], fun y x hy hx ↦ ?_⟩, .inr rfl, hcols⟩
  have hempty : ∀ row line, s.init.screenLine d row = some line → line.length = 0 := by
    intro row line hline
    rw [Console.screenLine] at hline
    split_ifs at hline with hrow
    have hcount : s.init.count = 1 := rfl
    have hhead : s.init.head = 0 := rfl
    rw [Console.scrollbackGetLine, if_neg (by omega), hhead, Option.some.injEq] at hline
    rw [← hline, show (0 + scrollbackLines - (min s.init.count d.rows - 1 - row)) % scrollbackLines = 0
      by rw [hcount]; unfold scrollbackLines; omega]
    rfl
  rw [Console.init]
  dsimp only
  rw [hblack y x hy hx, ← Console.init, picture]
  split
  · rfl
  · rename_i line hline
    rw [hempty _ line hline, if_neg (by omega)]

end Step

section Redraw

variable {d : Screen} {s : Console}

theorem picture_of_blank (h : Blank d s) {lineAt : ℕ → Option Line}
    (hline : ∀ row line, lineAt row = some line → ∃ k, s.scrollbackGetLine k = some line)
    (y x : ℕ) : picture d lineAt y x = 0#32 := by
  rw [picture]
  split
  · rfl
  · rename_i line hsome
    obtain ⟨k, hk⟩ := hline _ line hsome
    split_ifs with hc
    · exact h k line hk _ hc.2.1 hc.2.2 _ (by omega) _ (by omega)
    · rfl

/-- `render_view` puts the line that is drawn in row `i` of a screen with empty rows further
down. -/
theorem viewLine_eq (hcount : s.count < d.rows) {row : ℕ} (hrow : row < d.rows) :
    s.scrollbackGetLine (d.rows - 1 - row) =
      if row < d.rows - s.count then none else s.screenLine d (row - (d.rows - s.count)) := by
  by_cases htop : row < d.rows - s.count
  · rw [if_pos htop, Console.scrollbackGetLine, if_pos (by omega)]
  · rw [if_neg htop, Console.screenLine, if_pos (by omega)]
    congr 1
    omega

theorem redraw_apply (d : Screen) (s : Console) {y x : ℕ} (hy : y < d.height) (hx : x < d.width) :
    ({ s with viewOffset := 0 }.renderView d).fb y x =
      picture d (fun row ↦ s.scrollbackGetLine (d.rows - 1 - row)) y x := by
  rw [renderView_shows d { s with viewOffset := 0 } y x hy hx]
  apply picture_congr
  dsimp only
  rw [Nat.zero_add]
  rfl

/-- Where rows are left, a row of the screen has the same pixels as the row that is as far below
it as there are rows left, and the first of these rows are black. -/
theorem Agrees.row_black (h : Agrees d s) (hshows : Shows d s.fb (s.screenLine d))
    (hcount : s.count < d.rows) (row : ℕ) (hrow : row < d.rows) {i x : ℕ} (hi : i < 16)
    (hx : x < d.width) : picture d (s.screenLine d) (row * 16 + i) x = 0#32 := by
  induction row using Nat.strong_induction_on with
  | _ row ih =>
    have hy : row * 16 + i < d.height := by
      unfold Screen.rows at hrow
      omega
    have hdiv : (row * 16 + i) / 16 = row := by omega
    rw [← hshows _ _ hy hx, h _ _ hy hx, redraw_apply d s hy hx, picture, hdiv,
      viewLine_eq hcount hrow]
    by_cases htop : row < d.rows - s.count
    · rw [if_pos htop]
    · rw [if_neg htop]
      have hup := ih (row - (d.rows - s.count)) (by omega) (by omega)
      have hdiv' : ((row - (d.rows - s.count)) * 16 + i) / 16 = row - (d.rows - s.count) := by omega
      have hmod : ((row - (d.rows - s.count)) * 16 + i) % 16 = (row * 16 + i) % 16 := by omega
      rw [picture, hdiv', hmod] at hup
      cases hline : s.screenLine d (row - (d.rows - s.count)) with
      | none => rfl
      | some line =>
        rw [hline] at hup
        simp only [hrow, show row - (d.rows - s.count) < d.rows by omega, true_and] at hup ⊢
        exact hup

theorem Synced.agrees_iff (h : Synced d s) : Agrees d s ↔ d.rows ≤ s.count ∨ Blank d s := by
  constructor
  · intro hagrees
    by_cases hcount : d.rows ≤ s.count
    · exact .inl hcount
    refine .inr fun k line hline j hj hlen row hrow col hcol ↦ ?_
    have hk : k < s.count := by
      by_contra hk
      rw [Console.scrollbackGetLine, if_pos (by omega)] at hline
      cases hline
    have hwidth : j * 8 + col < d.width := by
      unfold Screen.cols at hj
      omega
    have hblack := hagrees.row_black h.shows (by omega) (s.count - 1 - k) (by omega) hrow hwidth
    have hscreen : s.screenLine d (s.count - 1 - k) = some line := by
      rw [Console.screenLine, if_pos (by omega), ← hline]
      congr 1
      omega
    have hdiv : ((s.count - 1 - k) * 16 + row) / 16 = s.count - 1 - k := by omega
    rw [picture, hdiv, hscreen] at hblack
    dsimp only at hblack
    rw [if_pos (by omega)] at hblack
    rw [← hblack]
    congr 2 <;> omega
  · rintro (hcount | hblank) y x hy hx
    · rw [h.shows y x hy hx, redraw_apply d s hy hx]
      by_cases hrow : y / 16 < d.rows
      · apply picture_congr
        rw [Console.screenLine, if_pos (by omega), Nat.min_eq_right hcount]
      · rw [picture_below (by omega), picture_below (by omega)]
    · rw [h.shows y x hy hx, redraw_apply d s hy hx,
        picture_of_blank hblank (fun row line hline ↦ ?_),
        picture_of_blank hblank fun row line hline ↦ ⟨_, hline⟩]
      rw [Console.screenLine] at hline
      split_ifs at hline
      exact ⟨_, hline⟩

/-- As long as every character fits, the picture that the characters leave is the one that
`render_view` paints exactly if the screen is full, or there is nothing to be seen. -/
theorem incremental_drawing_agrees (d : Screen) (s₀ s : Console) (hcols : 0 < d.cols)
    (hmax : d.cols ≤ maxCols) (hrows : d.rows < scrollbackLines)
    (hfull : s₀.fullscreenMode = false)
    (hblack : ∀ y x : ℕ, y < d.height → x < d.width → s₀.fb y x = 0#32)
    (hruns : Runs (fun s (a : BitVec 8 × Color) ↦ s.consolePutchar d a.1 a.2)
      (fun s a ↦ Fits d s a.1) s₀.init s) :
    Agrees d s ↔ d.rows ≤ s.count ∨ Blank d s := by
  have hsynced : Synced d s := hruns.invariant (init_synced hcols hfull hblack) fun s a h hfits ↦
    consolePutchar_synced h hcols hmax hrows hfits a.2
  exact hsynced.agrees_iff

end Redraw

def boxScreen (height : ℕ) : Screen where
  width := 16
  height := height
  font := fun c _ ↦ if c = 0x20#8 then 0#8 else 0xFF#8

def blackConsole : Console where
  scrollback := fun _ ↦ ⟨fun _ ↦ ⟨0#8, 0#32⟩, 0⟩
  head := 0
  count := 0
  viewOffset := 0
  col := 0
  fullscreenMode := false
  fb := fun _ _ ↦ 0#32

def scrolledConsole : Console :=
  [0x41#8, 0x0A#8, 0x42#8, 0x0A#8, 0x43#8].foldl
    (fun s c ↦ s.consolePutchar (boxScreen 32) c 0xFFFFFF#32) blackConsole.init

theorem incremental_drawing_agrees_scrolled : Agrees (boxScreen 32) scrolledConsole := by
  refine (incremental_drawing_agrees (boxScreen 32) blackConsole _ (by decide) (by decide)
    (by decide) rfl (fun _ _ _ _ ↦ rfl) (Runs.step (Runs.step (Runs.step (Runs.step (Runs.step .refl
      (a := (0x41#8, 0xFFFFFF#32)) ?_) (a := (0x0A#8, 0xFFFFFF#32)) ?_)
      (a := (0x42#8, 0xFFFFFF#32)) ?_) (a := (0x0A#8, 0xFFFFFF#32)) ?_)
      (a := (0x43#8, 0xFFFFFF#32)) ?_)).2 (.inl (by decide +kernel))
  all_goals
    unfold Fits
    decide +kernel

/-- The first character is drawn in the first row, and `render_view` paints it in the last. -/
theorem first_character_misplaced : ¬ Agrees (boxScreen 32)
    (blackConsole.init.consolePutchar (boxScreen 32) 0x41#8 0xFFFFFF#32) := by
  intro h
  have hpixel := h 0 0 (by decide) (by decide)
  revert hpixel
  decide +kernel

end SeedOS.Tty
