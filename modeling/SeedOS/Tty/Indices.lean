import SeedOS.Tty.Scroll

namespace SeedOS.Tty

open Function

namespace Scroll

def slotAbove (s : Scroll) (k : ℤ) : ℤ := (s.head - k + 1000) % 1000

structure Valid (s : Scroll) : Prop where
  head : 0 ≤ s.head ∧ s.head ≤ 999
  count : 1 ≤ s.count ∧ s.count ≤ 1000
  col : 0 ≤ s.col ∧ s.col ≤ 160
  length : ∀ i, 0 ≤ s.length i ∧ s.length i ≤ 160
  view : 0 ≤ s.viewOffset ∧ s.viewOffset ≤ max 0 (s.count - s.rows)
  rows : 0 ≤ s.rows ∧ s.rows < 2 ^ 31
  begun : s.count ≤ s.written
  lines : ∀ k, 0 ≤ k → k < s.count → (s.line (s.slotAbove k) : ℤ) = s.written - 1 - k
  shown : ∀ e ∈ s.shown, 0 ≤ e.slot ∧ e.slot ≤ 999 ∧ e.written - e.count ≤ (e.line : ℤ) ∧
    e.line < e.written

namespace Valid

variable {s : Scroll}

theorem slotAbove_bounds (s : Scroll) (k : ℤ) : 0 ≤ s.slotAbove k ∧ s.slotAbove k ≤ 999 := by
  unfold slotAbove
  omega

section

variable (h : Valid s)
include h

theorem scrollbackGetLine {k : ℤ} (hlo : 0 ≤ k) (hhi : k < s.count) :
    s.scrollbackGetLine k = some (s.slotAbove k) := by
  obtain ⟨hhead, hhead'⟩ := h.head
  obtain ⟨-, hcount⟩ := h.count
  have hfrom : int (s.head - k) = s.head - k := int_eq (by omega) (by omega)
  have hsum : int (s.head - k + 1000) = s.head - k + 1000 := int_eq (by omega) (by omega)
  unfold Scroll.scrollbackGetLine slotAbove
  rw [if_neg (by omega), hfrom]
  change some ((int (s.head - k + 1000)).tmod 1000) = _
  rw [hsum, Int.tmod_eq_emod_of_nonneg (by omega)]

theorem head_next : (int (s.head + 1)).tmod scrollbackLines = (s.head + 1) % 1000 := by
  obtain ⟨hhead, hhead'⟩ := h.head
  rw [int_eq (by omega) (by omega), Int.tmod_eq_emod_of_nonneg (by omega)]
  rfl

theorem count_next : (if s.count < scrollbackLines then int (s.count + 1)
    else s.count) = min (s.count + 1) 1000 := by
  obtain ⟨hcount, hcount'⟩ := h.count
  rw [int_eq (by omega) (by omega)]
  simp only [scrollbackLines]
  split_ifs <;> omega

theorem move {col viewOffset : ℤ} (hcol : 0 ≤ col ∧ col ≤ 160)
    (hview : 0 ≤ viewOffset ∧ viewOffset ≤ max 0 (s.count - s.rows)) :
    Valid { s with col := col, viewOffset := viewOffset } :=
  ⟨h.head, h.count, hcol, h.length, hview, h.rows, h.begun, h.lines, h.shown⟩

theorem toBottom : Valid { s with viewOffset := 0 } :=
  h.move h.col ⟨le_rfl, le_max_left _ _⟩

theorem setCol {col : ℤ} (hcol : 0 ≤ col ∧ col ≤ 160) :
    Valid { s with col := col, length := update s.length s.head col } := by
  refine ⟨h.head, h.count, hcol, fun i ↦ ?_, h.view, h.rows, h.begun, h.lines, h.shown⟩
  simp only [update_apply]
  split_ifs
  · exact hcol
  · exact h.length i

theorem scrollbackInit : Valid s.scrollbackInit where
  head := ⟨le_rfl, by simp [Scroll.scrollbackInit]⟩
  count := ⟨le_rfl, by simp [Scroll.scrollbackInit]⟩
  col := ⟨le_rfl, by simp [Scroll.scrollbackInit]⟩
  length i := by
    simp only [Scroll.scrollbackInit, update_apply]
    split_ifs
    · omega
    · exact h.length i
  view := ⟨le_rfl, le_max_left _ _⟩
  rows := h.rows
  begun := by
    simp only [Scroll.scrollbackInit]
    omega
  lines k hlo hhi := by
    obtain rfl : k = 0 := by
      simp only [Scroll.scrollbackInit] at hhi
      omega
    simp [Scroll.scrollbackInit, slotAbove]
  shown := h.shown

theorem scrollbackNewline : Valid s.scrollbackNewline := by
  obtain ⟨hhead, hhead'⟩ := h.head
  obtain ⟨hcount, hcount'⟩ := h.count
  obtain ⟨hview, hview'⟩ := h.view
  have hbegun := h.begun
  have hnew : s.scrollbackNewline =
      { s with
        head := (s.head + 1) % 1000
        count := min (s.count + 1) 1000
        length := update s.length ((s.head + 1) % 1000) 0
        col := 0
        line := update s.line ((s.head + 1) % 1000) s.written
        written := s.written + 1 } := by
    unfold Scroll.scrollbackNewline
    rw [h.head_next, h.count_next]
  rw [hnew]
  refine ⟨?_, ?_, ?_, fun i ↦ ?_, ?_, h.rows, ?_, fun k hlo hhi ↦ ?_, h.shown⟩
  · dsimp only
    omega
  · dsimp only
    omega
  · dsimp only
    omega
  · simp only [update_apply]
    split_ifs
    · omega
    · exact h.length i
  · dsimp only
    omega
  · dsimp only
    omega
  · dsimp only [slotAbove] at hhi ⊢
    rcases hlo.eq_or_lt with rfl | hpos
    · rw [show ((s.head + 1) % 1000 - 0 + 1000) % 1000 = (s.head + 1) % 1000 by omega, update_self]
      omega
    · -- the other lines are one further from the last one than before
      have hslot : ((s.head + 1) % 1000 - k + 1000) % 1000 = s.slotAbove (k - 1) := by
        unfold slotAbove
        omega
      have hne : s.slotAbove (k - 1) ≠ (s.head + 1) % 1000 := by
        unfold slotAbove
        omega
      rw [hslot, update_of_ne hne, h.lines (k - 1) (by omega) (by omega)]
      omega

theorem scrollbackPutchar : Valid s.scrollbackPutchar := by
  obtain ⟨hcol, hcol'⟩ := h.col
  unfold Scroll.scrollbackPutchar maxCols
  split_ifs with hroom
  · rw [int_eq (by omega) (by omega)]
    exact h.setCol ⟨by omega, by omega⟩
  · exact h

theorem rowLine {row : ℕ} (hrow : row < s.rows) {e : Shown} (he : s.rowLine row = some e) :
    0 ≤ e.slot ∧ e.slot ≤ 999 ∧ e.written - e.count ≤ (e.line : ℤ) ∧ e.line < e.written := by
  obtain ⟨hrows, hrows'⟩ := h.rows
  obtain ⟨hcount, hcount'⟩ := h.count
  obtain ⟨hview, hview'⟩ := h.view
  have hfrom : int (s.viewOffset + int (int (s.rows - 1) - row)) =
      s.viewOffset + (s.rows - 1 - row) := by
    have hlast : int (s.rows - 1) = s.rows - 1 := int_eq (by omega) (by omega)
    have habove : int (s.rows - 1 - row) = s.rows - 1 - row := int_eq (by omega) (by omega)
    rw [hlast, habove, int_eq (by omega) (by omega)]
  unfold Scroll.rowLine at he
  rw [hfrom] at he
  rcases lt_or_ge (s.viewOffset + (s.rows - 1 - row)) s.count with hlt | hge
  · have hlines := h.lines _ (by omega) hlt
    have hbegun := h.begun
    rw [h.scrollbackGetLine (by omega) hlt] at he
    obtain rfl := Option.some.inj he
    obtain ⟨hslot, hslot'⟩ := slotAbove_bounds s (s.viewOffset + (s.rows - 1 - row))
    refine ⟨hslot, hslot', ?_, ?_⟩
    · dsimp only
      omega
    · dsimp only
      omega
  · rw [Scroll.scrollbackGetLine, if_pos hge] at he
    exact absurd he nofun

theorem renderView : Valid s.renderView := by
  unfold Scroll.renderView
  split_ifs
  · refine ⟨h.head, h.count, h.col, h.length, h.view, h.rows, h.begun, h.lines, fun e he ↦ ?_⟩
    rcases List.mem_append.mp he with he | he
    · exact h.shown e he
    · obtain ⟨row, hrow, he⟩ := List.mem_filterMap.mp he
      have hlt := List.mem_range.mp hrow
      exact h.rowLine (by omega) he
  · exact h

theorem newline : Valid s.newline := by
  unfold Scroll.newline
  dsimp only
  split_ifs
  · exact h.scrollbackNewline.renderView
  · exact h.scrollbackNewline

theorem tabFill (n : ℕ) : Valid (tabFill n s) := by
  induction n generalizing s with
  | zero => exact h
  | succ n ih =>
    unfold Scroll.tabFill
    split_ifs
    · exact ih h.scrollbackPutchar
    · exact h

theorem putcharBody (c : BitVec 8) : Valid (s.putcharBody c) := by
  obtain ⟨hcol, hcol'⟩ := h.col
  unfold Scroll.putcharBody
  split_ifs with _ _ _ hpos
  · exact h.newline
  · exact h.move ⟨le_rfl, by omega⟩ h.view
  · rw [int_eq (by omega) (by omega)]
    exact h.setCol ⟨by omega, by omega⟩
  · exact h
  · exact h.tabFill 4
  · exact h.scrollbackPutchar

theorem consolePutchar (c : BitVec 8) : Valid (s.consolePutchar c) := by
  have hview : Valid (if s.viewOffset > 0 then { s with viewOffset := 0 }.renderView else s) := by
    split_ifs
    · exact h.toBottom.renderView
    · exact h
  unfold Scroll.consolePutchar
  generalize (if s.viewOffset > 0 then { s with viewOffset := 0 }.renderView else s) = s' at hview
  dsimp only
  split_ifs
  · exact h
  · exact h
  · exact (hview.putcharBody c).newline
  · exact hview.putcharBody c

theorem fillTo (targetRow : ℤ) (n : ℕ) : Valid (fillTo targetRow n s) := by
  induction n generalizing s with
  | zero => exact h
  | succ n ih =>
    unfold Scroll.fillTo
    split_ifs
    · exact ih h.scrollbackNewline
    · exact h

theorem consoleSetCursor {x : ℤ} (hx : 0 ≤ x) (y : ℤ) : Valid (s.consoleSetCursor x y) := by
  unfold Scroll.consoleSetCursor
  rw [Int.tdiv_eq_ediv_of_nonneg hx]
  refine (h.move ?_ h.view).fillTo _ _
  unfold maxCols
  split_ifs
  · rw [int_eq (by omega) (by omega)]
    omega
  · omega

theorem maxOffset : s.maxOffset = max 0 (s.count - s.rows) := by
  obtain ⟨hrows, hrows'⟩ := h.rows
  obtain ⟨hcount, hcount'⟩ := h.count
  unfold Scroll.maxOffset
  rw [int_eq (by omega) (by omega)]
  split_ifs <;> omega

theorem consoleScrollBack {lines : ℤ} (hlines : lines < 2 ^ 30) :
    Valid (s.consoleScrollBack lines) := by
  obtain ⟨hrows, hrows'⟩ := h.rows
  obtain ⟨hcount, hcount'⟩ := h.count
  obtain ⟨hview, hview'⟩ := h.view
  unfold Scroll.consoleScrollBack
  split_ifs with hnone
  · exact h
  · have hpos : 0 < lines := lt_of_not_ge fun hle ↦ hnone (.inr hle)
    rw [h.maxOffset, int_eq (by omega) (by omega)]
    refine (h.move h.col ?_).renderView
    split_ifs <;> omega

theorem consoleScrollForward {lines : ℤ} (hlines : lines < 2 ^ 30) :
    Valid (s.consoleScrollForward lines) := by
  obtain ⟨hrows, hrows'⟩ := h.rows
  obtain ⟨hcount, hcount'⟩ := h.count
  obtain ⟨hview, hview'⟩ := h.view
  unfold Scroll.consoleScrollForward
  split_ifs with hnone
  · exact h
  · have hpos : 0 < lines := lt_of_not_ge fun hle ↦ hnone (.inr hle)
    rw [int_eq (by omega) (by omega)]
    refine (h.move h.col ?_).renderView
    split_ifs <;> omega

theorem consoleScrollToBottom : Valid s.consoleScrollToBottom := by
  unfold Scroll.consoleScrollToBottom
  split_ifs
  · exact h
  · exact h.toBottom.renderView

theorem exec {op : ConsoleOp} (hop : op.Allowed) : Valid (op.exec s) := by
  cases op with
  | putchar c => exact h.consolePutchar c
  | clear =>
    simp only [ConsoleOp.exec, Scroll.consoleClear]
    split_ifs
    · exact h
    · exact h.scrollbackInit
  | setCursor x y => exact h.consoleSetCursor hop.1 y
  | scrollBack lines => exact h.consoleScrollBack hop
  | scrollForward lines => exact h.consoleScrollForward hop
  | scrollToBottom => exact h.consoleScrollToBottom

end

theorem screenRows_bounds {fb : Option (ℕ × ℕ)}
    (hrows : ∀ w h, fb = some (w, h) → h / 16 < 2 ^ 31) :
    0 ≤ screenRows fb ∧ screenRows fb < 2 ^ 31 := by
  cases fb with
  | none => exact ⟨by decide, by decide⟩
  | some size =>
    obtain ⟨width, height⟩ := size
    have hlt := hrows width height rfl
    rw [screenRows, int_eq (by omega) (by omega)]
    omega

theorem consoleInit {fb : Option (ℕ × ℕ)} (hrows : ∀ w h, fb = some (w, h) → h / 16 < 2 ^ 31)
    (fullscreen : Bool) : Valid (consoleInit fb fullscreen) := by
  refine ⟨⟨le_rfl, ?_⟩, ⟨le_rfl, ?_⟩, ⟨le_rfl, ?_⟩, fun i ↦ ?_, ⟨le_rfl, le_max_left _ _⟩,
    screenRows_bounds hrows, ?_, fun k hlo hhi ↦ ?_, nofun⟩
  · simp [Scroll.consoleInit, Scroll.scrollbackInit]
  · simp [Scroll.consoleInit, Scroll.scrollbackInit]
  · simp [Scroll.consoleInit, Scroll.scrollbackInit]
  · simp [Scroll.consoleInit, Scroll.scrollbackInit]
  · simp [Scroll.consoleInit, Scroll.scrollbackInit]
  · obtain rfl : k = 0 := by
      simp only [Scroll.consoleInit, Scroll.scrollbackInit] at hhi
      omega
    simp [Scroll.consoleInit, Scroll.scrollbackInit, slotAbove]

theorem run (h : Valid s) {ops : List ConsoleOp} (hops : ∀ op ∈ ops, op.Allowed) :
    Valid (ops.foldl (fun s op ↦ op.exec s) s) := by
  induction ops generalizing s with
  | nil => exact h
  | cons op ops ih =>
    exact ih (h.exec (hops op List.mem_cons_self)) fun o ho ↦ hops o (List.mem_cons_of_mem _ ho)

end Valid

/-- The indices stay valid in every run after `console_init`, and `render_view` shows lines among
the last that were begun. -/
theorem scrollback_indices_valid (fb : Option (ℕ × ℕ))
    (hrows : ∀ width height, fb = some (width, height) → height / 16 < 2 ^ 31) (fullscreen : Bool)
    (ops : List ConsoleOp) (hops : ∀ op ∈ ops, op.Allowed) :
    let s := ops.foldl (fun s op ↦ op.exec s) (consoleInit fb fullscreen)
    (0 ≤ s.head ∧ s.head ≤ 999) ∧ (1 ≤ s.count ∧ s.count ≤ 1000) ∧ (0 ≤ s.col ∧ s.col ≤ 160) ∧
      (∀ i, 0 ≤ s.length i ∧ s.length i ≤ 160) ∧
      (0 ≤ s.viewOffset ∧ s.viewOffset ≤ max 0 (s.count - s.rows)) ∧
      ∀ e ∈ s.shown, 0 ≤ e.slot ∧ e.slot ≤ 999 ∧ e.written - e.count ≤ (e.line : ℤ) ∧
        e.line < e.written := by
  have h := (Valid.consoleInit hrows fullscreen).run hops
  exact ⟨h.head, h.count, h.col, h.length, h.view, h.shown⟩

/-- A screen of two rows after three newlines, scrolled back by one line. -/
theorem scrollback_indices_scrolled :
    let ops : List ConsoleOp := [.putchar 0x0A#8, .putchar 0x0A#8, .putchar 0x0A#8, .scrollBack 1]
    let s := ops.foldl (fun s op ↦ op.exec s) (consoleInit (some (640, 32)) false)
    s.viewOffset = 1 ∧ s.shown ≠ [] ∧ ∀ e ∈ s.shown, e.written - e.count ≤ (e.line : ℤ) := by
  intro ops s
  have hops : ∀ op ∈ ops, op.Allowed := by
    simp [ops, ConsoleOp.Allowed]
  have hrows : ∀ width height, some ((640 : ℕ), (32 : ℕ)) = some (width, height) →
      height / 16 < 2 ^ 31 := by
    rintro width height ⟨⟩
    decide
  obtain ⟨-, -, -, -, -, hshown⟩ := scrollback_indices_valid (some (640, 32)) hrows false ops hops
  refine ⟨by decide +kernel, fun hnil ↦ ?_, fun e he ↦ (hshown e he).2.2.1⟩
  have hlen : s.shown.length = 6 := by decide +kernel
  rw [hnil] at hlen
  exact absurd hlen nofun

end Scroll

end SeedOS.Tty
