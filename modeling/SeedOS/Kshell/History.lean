import SeedOS.Kshell.Shell

namespace SeedOS.Kshell

open Foundation Function

/-- What a shell's line editor is for: a text being edited, the lines entered before it, the last
one first, and how far back the user has gone in them. The draft is the text they left. -/
structure Editor where
  past : List (List Byte)
  text : List Byte
  depth : ℕ
  draft : List Byte

namespace Editor

def start : Editor := ⟨[], [], 0, []⟩

def kept (e : Editor) : ℕ := min e.past.length kshellHistorySize

def enter (e : Editor) : Editor :=
  { e with past := if e.text = [] then e.past else e.text :: e.past, text := [], depth := 0 }

def older (e : Editor) : Editor :=
  if e.depth < e.kept then
    { e with
      text := e.past.getD e.depth []
      depth := e.depth + 1
      draft := if e.depth = 0 then e.text else e.draft }
  else e

def newer (e : Editor) : Editor :=
  match e.depth with
  | 0 => e
  | 1 => { e with text := e.draft, depth := 0 }
  | depth + 2 => { e with text := e.past.getD depth [], depth := depth + 1 }

def insert (e : Editor) (c : Byte) : Editor :=
  if e.text.length < kshellMaxInput - 1 then { e with text := e.text ++ [c] } else e

def press (e : Editor) (c : Byte) : Editor :=
  if c = keyPageup then e
  else if c = keyPagedown then e
  else if c = keyEnter then e.enter
  else if c = keyBackspace then { e with text := e.text.dropLast }
  else if c = keyUp then e.older
  else if c = keyDown then e.newer
  else if Printable c then e.insert c
  else e

def run (e : Editor) (keys : List Byte) : Editor := keys.foldl press e

section

variable (e : Editor)
include e

theorem run_append (keys more : List Byte) : e.run (keys ++ more) = (e.run keys).run more :=
  List.foldl_append ..

theorem older_past : e.older.past = e.past := by
  unfold older
  split_ifs <;> rfl

theorem newer_past : e.newer.past = e.past := by
  unfold newer
  split <;> rfl

theorem insert_past (c : Byte) : (e.insert c).past = e.past := by
  unfold insert
  split_ifs <;> rfl

theorem press_past (c : Byte) :
    (e.press c).past = if c = keyEnter ∧ e.text ≠ [] then e.text :: e.past else e.past := by
  by_cases hc : c = keyEnter
  · subst hc
    by_cases ht : e.text = []
    · simp [press, enter, ht, keyEnter, keyPageup, keyPagedown]
    · simp [press, enter, ht, keyEnter, keyPageup, keyPagedown]
  · have hno : ¬ (c = keyEnter ∧ e.text ≠ []) := fun h ↦ hc h.1
    rw [if_neg hno, press, if_neg hc]
    split_ifs
    · rfl
    · rfl
    · rfl
    · exact e.older_past
    · exact e.newer_past
    · exact e.insert_past c
    · rfl

theorem run_up (hown : e.depth = 0) (n : ℕ) : e.run (List.replicate n keyUp) =
      if min n e.kept = 0 then e
      else { e with
        text := e.past.getD (min n e.kept - 1) [], depth := min n e.kept, draft := e.text } := by
  induction n with
  | zero => simp [run]
  | succ n ih =>
    have hstep : e.run (List.replicate (n + 1) keyUp) =
        (e.run (List.replicate n keyUp)).older := by
      rw [List.replicate_succ', run_append]
      rfl
    rw [hstep, ih, older]
    rcases Nat.lt_or_ge n e.kept with hlt | hge
    · rw [min_eq_left hlt.le, min_eq_left (show n + 1 ≤ e.kept by omega), if_neg n.succ_ne_zero]
      rcases Nat.eq_zero_or_pos n with rfl | hpos
      · simp [hown, hlt]
      · have hlt' : n < min e.past.length kshellHistorySize := hlt
        simp [kept, hpos.ne', hlt']
    · rw [min_eq_right hge, min_eq_right (show e.kept ≤ n + 1 by omega)]
      split_ifs with hnone hmore hmore
      · rw [hown, hnone] at hmore
        exact absurd hmore (lt_irrefl 0)
      · rfl
      · exact absurd hmore (lt_irrefl e.kept)
      · rfl

theorem run_down (n : ℕ) (hn : e.depth ≤ n) :
    (e.run (List.replicate n keyDown)).text = if e.depth = 0 then e.text else e.draft := by
  induction n generalizing e with
  | zero => simp [run, Nat.le_zero.mp hn]
  | succ n ih =>
    have hstep : e.run (List.replicate (n + 1) keyDown) =
        e.newer.run (List.replicate n keyDown) := rfl
    rw [hstep]
    rcases hd : e.depth with _ | _ | k
    · have hsame : e.newer = e := by simp only [newer, hd]
      rw [hsame, ih e (by omega), if_pos hd, if_pos rfl]
    · have hdraft : e.newer = { e with text := e.draft, depth := 0 } := by simp only [newer, hd]
      rw [hdraft, ih _ (Nat.zero_le _)]
      rfl
    · have hnext : e.newer = { e with text := e.past.getD k [], depth := k + 1 } := by
        simp [newer, hd]
      rw [hnext, ih _ (by simp only; omega)]
      rfl

theorem press_printable {c : Byte} (hc : Printable c) : e.press c = e.insert c := by
  have hne : ∀ d : Byte, ¬ Printable d → c ≠ d := by
    rintro d hd rfl
    exact hd hc
  unfold press
  rw [if_neg (hne _ (by decide)), if_neg (hne _ (by decide)), if_neg (hne _ (by decide)),
    if_neg (hne _ (by decide)), if_neg (hne _ (by decide)), if_neg (hne _ (by decide)),
    if_pos hc]

theorem run_typed (t : List Byte) (ht : ∀ c ∈ t, Printable c)
    (hroom : e.text.length < kshellMaxInput) :
    e.run t = { e with text := (e.text ++ t).take (kshellMaxInput - 1) } := by
  induction t generalizing e with
  | nil => simp [run, List.take_of_length_le (Nat.le_sub_one_of_lt hroom)]
  | cons c t ih =>
    have hstep : e.run (c :: t) = (e.insert c).run t := by
      rw [← e.press_printable (ht c List.mem_cons_self)]
      rfl
    have ht' : ∀ d ∈ t, Printable d := fun d hd ↦ ht d (List.mem_cons_of_mem _ hd)
    rw [hstep]
    unfold insert
    split_ifs with hlt
    · rw [ih _ ht' (by simp only [List.length_append, List.length_singleton]; omega)]
      simp
    · rw [ih _ ht' hroom]
      have hfull : kshellMaxInput - 1 ≤ e.text.length := by omega
      simp only [List.take_append_of_le_length hfull]

theorem run_lines (he : e.text = []) (lines : List (List Byte))
    (hlines : ∀ c ∈ lines, c ≠ [] ∧ ∀ b ∈ c, Printable b) :
    (e.run (lines.flatMap (· ++ [keyEnter]))).past =
      (lines.map (·.take (kshellMaxInput - 1))).reverse ++ e.past := by
  induction lines generalizing e with
  | nil => rfl
  | cons c lines ih =>
    obtain ⟨hne, hc⟩ := hlines c List.mem_cons_self
    have hrest : ∀ d ∈ lines, d ≠ [] ∧ ∀ b ∈ d, Printable b :=
      fun d hd ↦ hlines d (List.mem_cons_of_mem _ hd)
    have hline : e.run (c ++ [keyEnter]) =
        { e with text := c.take (kshellMaxInput - 1) }.enter := by
      rw [run_append, e.run_typed c hc (by rw [he]; decide), he]
      rfl
    have hcut : c.take (kshellMaxInput - 1) ≠ [] := by
      simpa [List.take_eq_nil_iff, kshellMaxInput] using hne
    rw [List.flatMap_cons, run_append, hline, ih _ rfl hrest]
    simp [enter, hcut]

theorem press_depth {c : Byte} (hc : c ≠ keyUp) (hown : e.depth = 0) : (e.press c).depth = 0 := by
  unfold press
  rw [if_neg hc]
  split_ifs
  · exact hown
  · exact hown
  · rfl
  · exact hown
  · simp [newer, hown]
  · unfold insert
    split_ifs <;> exact hown
  · exact hown

theorem run_depth (keys : List Byte) (hkeys : keyUp ∉ keys) (hown : e.depth = 0) :
    (e.run keys).depth = 0 := by
  induction keys generalizing e with
  | nil => exact hown
  | cons c keys ih =>
    refine ih (e.press c) (fun h ↦ hkeys (List.mem_cons_of_mem _ h)) (e.press_depth ?_ hown)
    rintro rfl
    exact hkeys List.mem_cons_self

theorem run_prompt (hfresh : e.depth = 0 ∧ e.text = []) (sessions : List (List Byte)) :
    (e.run (sessions.flatMap (· ++ [keyEnter]))).depth = 0 ∧
      (e.run (sessions.flatMap (· ++ [keyEnter]))).text = [] := by
  induction sessions generalizing e with
  | nil => exact hfresh
  | cons keys sessions ih =>
    rw [List.flatMap_cons, run_append]
    apply ih
    rw [run_append]
    exact ⟨rfl, rfl⟩

end

end Editor

/-- The shell's variables hold the editor. -/
structure Holds (s : Shell) (e : Editor) : Prop where
  line : Line s.inputBuffer e.text
  length : s.inputLen = e.text.length
  recent : Recent Line kshellHistorySize s.history s.historyPos s.historyCount e.past
  browse : s.historyBrowse = e.depth - 1
  depth : e.depth ≤ e.kept
  saved : 0 < e.depth → Line s.savedInput e.draft

namespace Holds

variable {s : Shell} {e : Editor}

theorem start : Holds Shell.kshellInit Editor.start where
  line := ⟨fun k c hc ↦ by simp [Editor.start] at hc, rfl, by decide⟩
  length := rfl
  recent := Recent.empty (by decide) _
  browse := rfl
  depth := Nat.zero_le _
  saved h := absurd h (lt_irrefl 0)

theorem past_get {k : ℕ} (hk : k < e.kept) : e.past[k]? = some (e.past.getD k []) := by
  have hlt : k < e.past.length := lt_of_lt_of_le hk (min_le_left _ _)
  simp [List.getD_eq_getElem?_getD, List.getElem?_eq_getElem hlt]

theorem load_line {t : List Byte} {line : ℕ → Byte} (hline : Line line t) (s : Shell) :
    Line (s.load line).inputBuffer t ∧ (s.load line).inputLen = t.length := by
  have hcopy : Line (strCopy s.inputBuffer line kshellMaxInput) t := hline.strCopy _
  have hshort := hcopy.short
  exact ⟨hcopy, hcopy.countFrom _ 0 (Nat.zero_le _) (by omega)⟩

theorem clearInput {past : List (List Byte)} (draft : List Byte)
    (h : Recent Line kshellHistorySize s.history s.historyPos s.historyCount past) :
    Holds s.clearInput ⟨past, [], 0, draft⟩ :=
  ⟨.empty _, rfl, h, rfl, Nat.zero_le _, fun hpos ↦ absurd hpos (lt_irrefl 0)⟩

section

variable (h : Holds s e)
include h

theorem count_eq : s.historyCount = e.kept := h.recent.count_eq

theorem getHistoryIndex {k : ℕ} (hk : k < e.kept) :
    s.getHistoryIndex k = slotBack kshellHistorySize s.historyPos k := by
  have hpos := h.recent.next_lt
  have hsize : k < kshellHistorySize := lt_of_lt_of_le hk (min_le_right _ _)
  unfold Shell.getHistoryIndex slotBack
  rw [if_neg (by rw [h.count_eq]; omega)]
  unfold kshellHistorySize at *
  split_ifs <;> omega

theorem fetch {k : ℕ} (hk : k < e.kept) {saved : ℕ → Byte} {draft : List Byte}
    (hsaved : Line saved draft) :
    Holds { s with historyBrowse := k, savedInput := saved }.fetch
      { e with text := e.past.getD k [], depth := k + 1, draft := draft } := by
  have hslot := h.recent.slot k _ (lt_of_lt_of_le hk (min_le_right _ _)) (past_get hk)
  have hidx : Shell.getHistoryIndex { s with historyBrowse := k, savedInput := saved } k =
      slotBack kshellHistorySize s.historyPos k := h.getHistoryIndex hk
  unfold Shell.fetch
  simp only [hidx, Int.toNat_natCast, ge_iff_le, Int.natCast_nonneg, if_true]
  obtain ⟨hline, hlen⟩ := load_line hslot { s with historyBrowse := k, savedInput := saved }
  exact ⟨hline, hlen, h.recent, by simp [Shell.load], hk, fun _ ↦ hsaved⟩

theorem historyPrev : Holds s.historyPrev e.older := by
  have hcount := h.count_eq
  have hbrowse := h.browse
  have hdepth := h.depth
  unfold Shell.historyPrev Editor.older
  by_cases hlt : e.depth < e.kept
  · rw [if_neg (by omega), if_pos hlt]
    rcases Nat.eq_zero_or_pos e.depth with hzero | hpos
    · rw [if_pos (by omega), if_pos hzero]
      have hfetch := h.fetch hlt (h.line.strCopy s.savedInput)
      rwa [hzero] at hfetch ⊢
    · rw [if_neg (by omega), if_pos (by omega), if_neg (by omega),
        show s.historyBrowse + 1 = e.depth by omega]
      exact h.fetch hlt (h.saved hpos)
  · rw [if_neg hlt]
    split_ifs with hzero hown hmore
    · exact h
    · omega
    · omega
    · exact h

theorem historyNext : Holds s.historyNext e.newer := by
  have hbrowse := h.browse
  have hdepth := h.depth
  unfold Shell.historyNext Editor.newer
  rcases hd : e.depth with _ | _ | k
  · rw [if_pos (by omega)]
    exact h
  · rw [if_neg (by omega), if_neg (by omega)]
    obtain ⟨hline, hlen⟩ := load_line (h.saved (by omega)) s
    exact ⟨hline, hlen, h.recent, rfl, Nat.zero_le _, fun hpos ↦ absurd hpos (lt_irrefl 0)⟩
  · rw [if_neg (by omega), if_pos (by omega), show s.historyBrowse - 1 = k by omega]
    exact h.fetch (by omega) (h.saved (by omega))

theorem handleBackspace :
    Holds s.handleBackspace { e with text := e.text.dropLast } := by
  have hlen := h.length
  unfold Shell.handleBackspace
  split_ifs with hpos
  · refine ⟨?_, ?_, h.recent, h.browse, h.depth, h.saved⟩
    · rw [hlen]
      exact h.line.dropLast
    · simp [hlen]
  · have hnil : e.text = [] := List.length_eq_zero_iff.mp (by omega)
    refine ⟨?_, ?_, h.recent, h.browse, h.depth, h.saved⟩
    · have := h.line
      rwa [hnil] at this ⊢
    · rw [hlen, hnil]
      rfl

theorem typeKey {c : Byte} (hc : Printable c) :
    Holds (s.typeKey c) (e.insert c) := by
  unfold Shell.typeKey Editor.insert
  rw [h.length]
  split_ifs with hroom
  · have hne : c ≠ 0 := by
      rintro rfl
      exact absurd hc.1 (by decide)
    exact ⟨h.line.append hne hroom, by simp, h.recent, h.browse, h.depth, h.saved⟩
  · exact h

theorem enterLine : Holds s.enterLine e.enter := by
  have hlen := h.length
  unfold Shell.enterLine Editor.enter
  split_ifs with hpos hnil hnil
  · rw [hnil] at hlen
    simp only [List.length_nil] at hlen
    omega
  · apply clearInput
    unfold Shell.addToHistory
    rw [if_neg (by omega)]
    exact h.recent.push (h.line.strCopy _)
  · exact clearInput _ h.recent
  · have := List.length_pos_iff.mpr hnil
    omega

theorem handleKey (c : Byte) : Holds (s.handleKey c) (e.press c) := by
  unfold Shell.handleKey Editor.press
  split_ifs with _ _ _ _ _ _ hc
  · exact h
  · exact h
  · exact h.enterLine
  · exact h.handleBackspace
  · exact h.historyPrev
  · exact h.historyNext
  · exact h.typeKey hc
  · exact h

theorem run (keys : List Byte) : Holds (s.run keys) (e.run keys) := by
  induction keys generalizing s e with
  | nil => exact h
  | cons c keys ih => exact ih (h.handleKey c)

theorem entered (keys : List Byte) :
    (e.run keys).past = s.entered keys ++ e.past := by
  induction keys generalizing s e with
  | nil => rfl
  | cons c keys ih =>
    have hpast : (e.press c).past =
        (if c = keyEnter ∧ s.inputLen > 0 then [cString s.inputBuffer] else []) ++ e.past := by
      rw [e.press_past, h.line.cString_eq, h.length]
      simp only [gt_iff_lt, List.length_pos_iff]
      split_ifs <;> rfl
    exact (ih (h.handleKey c)).trans (by rw [hpast, Shell.entered, List.append_assoc])

end

theorem entered_start (keys : List Byte) :
    (Editor.start.run keys).past = Shell.kshellInit.entered keys := by
  rw [start.entered keys]
  exact List.append_nil _

theorem text_eq (h : Holds s e) : cString s.inputBuffer = e.text := h.line.cString_eq

end Holds

namespace Shell

/-- The input length is the length of the text, and the browsing index is one of a kept line. -/
def Consistent (s : Shell) : Prop :=
  s.inputBuffer s.inputLen = 0 ∧ s.inputLen = (cString s.inputBuffer).length ∧
    s.inputLen ≤ 255 ∧ -1 ≤ s.historyBrowse ∧ s.historyBrowse ≤ (s.historyCount : ℤ) - 1

theorem consistent (keys : List Byte) : (kshellInit.run keys).Consistent := by
  have h := Holds.start.run keys
  have hshort := h.line.short
  have hdepth := h.depth
  rw [← h.count_eq] at hdepth
  refine ⟨?_, ?_, ?_, ?_, ?_⟩
  · rw [h.length, h.line.nul]
  · rw [h.length, h.text_eq]
  · rw [h.length]
    exact Nat.le_of_lt_succ hshort
  · rw [h.browse]
    omega
  · rw [h.browse]
    omega

/-- Recalling lines from the history, for a line that is being edited without UP having been
pressed since the last ENTER. -/
theorem history_recall (sessions : List (List Byte)) (edits : List Byte)
    (hedits : keyUp ∉ edits) (ups downs : ℕ) :
    let prompt := sessions.flatMap (· ++ [keyEnter])
    let s := kshellInit.run (prompt ++ edits)
    let lines := kshellInit.entered (prompt ++ edits)
    let shown := min ups (min lines.length 16)
    let back := s.run (List.replicate ups keyUp)
    let forth := back.run (List.replicate downs keyDown)
    -- what was typed is what is entered and edited
    ((∀ c ∈ sessions, c ≠ [] ∧ ∀ b ∈ c, Printable b) →
        kshellInit.entered prompt = (sessions.map (·.take 255)).reverse) ∧
      ((∀ b ∈ edits, Printable b) → edits.length ≤ 255 →
        cString s.inputBuffer = edits ∧ lines = kshellInit.entered prompt) ∧
      cString back.inputBuffer =
        (if shown = 0 then cString s.inputBuffer else lines.getD (shown - 1) []) ∧
      (ups ≤ downs → cString forth.inputBuffer = cString s.inputBuffer) ∧
      ∀ keys, (kshellInit.run keys).Consistent := by
  intro prompt s lines shown back forth
  obtain ⟨e, he⟩ : ∃ e, e = Editor.start.run (prompt ++ edits) := ⟨_, rfl⟩
  obtain ⟨hown, hempty⟩ := Editor.start.run_prompt ⟨rfl, rfl⟩ sessions
  have hs : Holds s e := he ▸ Holds.start.run _
  have hback : Holds back _ := hs.run (List.replicate ups keyUp)
  have hlines : e.past = lines := he ▸ Holds.entered_start _
  have hdepth : e.depth = 0 := by
    rw [he, Editor.run_append]
    exact Editor.run_depth _ edits hedits hown
  have hshown : min ups e.kept = shown := by
    rw [Editor.kept, hlines]
    rfl
  have hup := e.run_up hdepth ups
  rw [hshown, hlines] at hup
  refine ⟨fun hprint ↦ ?_, fun hprint hlen ↦ ?_, ?_, fun hdowns ↦ ?_, consistent⟩
  · rw [← Holds.entered_start, Editor.start.run_lines rfl sessions hprint]
    exact List.append_nil _
  · have hcut : edits.take (kshellMaxInput - 1) = edits := List.take_of_length_le hlen
    have htyped : e = { Editor.start.run prompt with text := edits } := by
      rw [he, Editor.run_append, Editor.run_typed _ edits hprint (by rw [hempty]; decide), hempty,
        List.nil_append, hcut]
    rw [hs.text_eq, ← hlines, ← Holds.entered_start, htyped]
    exact ⟨rfl, rfl⟩
  · rw [hback.text_eq, hup, hs.text_eq]
    split_ifs <;> rfl
  · have hforth : Holds forth _ := hback.run (List.replicate downs keyDown)
    rw [hforth.text_eq, hs.text_eq, hup]
    split_ifs with hzero
    · rw [e.run_down downs (by omega), if_pos hdepth]
    · rw [Editor.run_down _ downs (by simp only; omega), if_neg hzero]

/-- The lines `a` and `b`, then `cd` at the prompt: two UPs show `a`. -/
theorem history_recall_two : keyUp ∉ ([0x63, 0x64] : List Byte) ∧
      cString ((kshellInit.run ([[0x61], [0x62]].flatMap (· ++ [keyEnter]) ++ [0x63, 0x64])).run
        (List.replicate 2 keyUp)).inputBuffer = [0x61] := by
  have hedits : keyUp ∉ ([0x63, 0x64] : List Byte) := by decide
  obtain ⟨hentered, htyped, hback, -⟩ := history_recall [[0x61], [0x62]] [0x63, 0x64] hedits 2 2
  have hlines := (htyped (by decide) (by decide)).2.trans (hentered (by decide))
  refine ⟨hedits, hback.trans ?_⟩
  rw [hlines]
  rfl

end Shell

end SeedOS.Kshell
