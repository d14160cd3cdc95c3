import Mathlib.Data.BitVec
import Mathlib.Data.List.TakeWhile
import SeedOS.Foundation.Ring

namespace SeedOS.Kshell

open Foundation Function

abbrev Byte := BitVec 8

def kshellMaxInput : ℕ := 256

def kshellMaxArgs : ℕ := 16

def kshellHistorySize : ℕ := 16

def keyBackspace : Byte := 0x08

def keyEnter : Byte := 0x0a

def keyUp : Byte := 0x90

def keyDown : Byte := 0x91

def keyPageup : Byte := 0x96

def keyPagedown : Byte := 0x97

def Printable (c : Byte) : Prop := 32 ≤ c.toNat ∧ c.toNat < 127

instance Printable.decidable (c : Byte) : Decidable (Printable c) :=
  inferInstanceAs (Decidable (_ ∧ _))

def strCopyFrom (src : ℕ → Byte) : ℕ → ℕ → (ℕ → Byte) → ℕ → Byte
  | 0, i, dst => update dst i 0
  | n + 1, i, dst =>
    if src i ≠ 0 then strCopyFrom src n (i + 1) (update dst i (src i)) else update dst i 0

def strCopy (dst src : ℕ → Byte) (maxLen : ℕ) : ℕ → Byte := strCopyFrom src (maxLen - 1) 0 dst

def countFrom (buf : ℕ → Byte) : ℕ → ℕ → ℕ
  | 0, i => i
  | n + 1, i => if buf i ≠ 0 then countFrom buf n (i + 1) else i

def cString (buf : ℕ → Byte) : List Byte :=
  ((List.range kshellMaxInput).map buf).takeWhile (· ≠ 0)

def skipSpaces (buf : ℕ → Byte) : ℕ → ℕ → ℕ
  | 0, p => p
  | n + 1, p => if buf p = 0x20 then skipSpaces buf n (p + 1) else p

def skipWord (buf : ℕ → Byte) : ℕ → ℕ → ℕ
  | 0, p => p
  | n + 1, p => if buf p ≠ 0 ∧ buf p ≠ 0x20 then skipWord buf n (p + 1) else p

/-- The loop of `parse_command` with room for `n` more arguments: where the arguments begin, and
the buffer with a NUL after each of them. -/
def parseFrom : ℕ → ℕ → (ℕ → Byte) → List ℕ × (ℕ → Byte)
  | 0, _, buf => ([], buf)
  | n + 1, p, buf =>
    if buf p = 0 then ([], buf)
    else
      let word := skipSpaces buf kshellMaxInput p
      if buf word = 0 then ([], buf)
      else
        let stop := skipWord buf kshellMaxInput word
        let rest :=
          if buf stop ≠ 0 then parseFrom n (stop + 1) (update buf stop 0)
          else parseFrom n stop buf
        (word :: rest.1, rest.2)

def parseCommand (input : ℕ → Byte) (maxArgs : ℕ) : List ℕ × (ℕ → Byte) :=
  parseFrom maxArgs 0 input

structure Shell where
  inputBuffer : ℕ → Byte
  inputLen : ℕ
  history : ℕ → ℕ → Byte
  historyCount : ℕ
  historyPos : ℕ
  historyBrowse : ℤ
  savedInput : ℕ → Byte

namespace Shell

def kshellInit : Shell where
  inputBuffer _ := 0
  inputLen := 0
  history _ _ := 0
  historyCount := 0
  historyPos := 0
  historyBrowse := -1
  savedInput _ := 0

/-- What `execute_command` does to the shell: it cuts the line into its arguments. No command
handler touches the shell's variables. -/
def executeCommand (s : Shell) : Shell :=
  { s with inputBuffer := (parseCommand s.inputBuffer kshellMaxArgs).2 }

def addToHistory (s : Shell) : Shell :=
  if s.inputLen = 0 then s
  else
    { s with
      history := update s.history s.historyPos
        (strCopy (s.history s.historyPos) s.inputBuffer kshellMaxInput)
      historyPos := (s.historyPos + 1) % kshellHistorySize
      historyCount :=
        if s.historyCount < kshellHistorySize then s.historyCount + 1 else s.historyCount }

def getHistoryIndex (s : Shell) (offset : ℤ) : ℤ :=
  if offset ≥ s.historyCount then -1
  else (s.historyPos - 1 - offset + kshellHistorySize) % kshellHistorySize

def load (s : Shell) (line : ℕ → Byte) : Shell :=
  let buf := strCopy s.inputBuffer line kshellMaxInput
  { s with inputBuffer := buf, inputLen := countFrom buf kshellMaxInput 0 }

/-- The end of `history_prev`, and of the first branch of `history_next`. -/
def fetch (s : Shell) : Shell :=
  let idx := s.getHistoryIndex s.historyBrowse
  if idx ≥ 0 then s.load (s.history idx.toNat) else s

def historyPrev (s : Shell) : Shell :=
  if s.historyCount = 0 then s
  else if s.historyBrowse = -1 then
    { s with
      savedInput := strCopy s.savedInput s.inputBuffer kshellMaxInput
      historyBrowse := 0 }.fetch
  else if s.historyBrowse < s.historyCount - 1 then
    { s with historyBrowse := s.historyBrowse + 1 }.fetch
  else s

def historyNext (s : Shell) : Shell :=
  if s.historyBrowse = -1 then s
  else if s.historyBrowse > 0 then { s with historyBrowse := s.historyBrowse - 1 }.fetch
  else { s.load s.savedInput with historyBrowse := -1 }

def handleBackspace (s : Shell) : Shell :=
  if s.inputLen > 0 then
    { s with
      inputLen := s.inputLen - 1
      inputBuffer := update s.inputBuffer (s.inputLen - 1) 0 }
  else s

def clearInput (s : Shell) : Shell :=
  { s with inputLen := 0, inputBuffer := update s.inputBuffer 0 0, historyBrowse := -1 }

def enterLine (s : Shell) : Shell :=
  (if s.inputLen > 0 then s.addToHistory.executeCommand else s).clearInput

def typeKey (s : Shell) (c : Byte) : Shell :=
  if s.inputLen < kshellMaxInput - 1 then
    { s with
      inputBuffer := update (update s.inputBuffer s.inputLen c) (s.inputLen + 1) 0
      inputLen := s.inputLen + 1 }
  else s

/-- The loop body of `kshell_run` on a key. The page keys only move the console's view. -/
def handleKey (s : Shell) (c : Byte) : Shell :=
  if c = keyPageup then s
  else if c = keyPagedown then s
  else if c = keyEnter then s.enterLine
  else if c = keyBackspace then s.handleBackspace
  else if c = keyUp then s.historyPrev
  else if c = keyDown then s.historyNext
  else if Printable c then s.typeKey c
  else s

def run (s : Shell) (keys : List Byte) : Shell := keys.foldl handleKey s

/-- The nonempty lines that were entered, the last one first. -/
def entered (s : Shell) : List Byte → List (List Byte)
  | [] => []
  | c :: keys =>
    entered (s.handleKey c) keys ++
      if c = keyEnter ∧ s.inputLen > 0 then [cString s.inputBuffer] else []

end Shell

/-- The buffer holds the NUL-terminated text `t`. -/
structure Line (buf : ℕ → Byte) (t : List Byte) : Prop where
  byte : ∀ k c, t[k]? = some c → buf k = c ∧ c ≠ 0
  nul : buf t.length = 0
  short : t.length < kshellMaxInput

namespace Line

variable {buf src dst : ℕ → Byte} {t : List Byte}

theorem ne_zero (h : Line buf t) {k : ℕ} (hk : k < t.length) : buf k ≠ 0 := by
  obtain ⟨heq, hne⟩ := h.byte k t[k] (List.getElem?_eq_getElem hk)
  rwa [heq]

theorem of_agree (h : Line src t) (hsame : ∀ k < t.length, buf k = src k)
    (hnul : buf t.length = 0) : Line buf t where
  byte k c hc := by
    rw [hsame k (List.getElem?_eq_some_iff.mp hc).1]
    exact h.byte k c hc
  nul := hnul
  short := h.short

theorem empty (buf : ℕ → Byte) : Line (update buf 0 0) [] where
  byte k c hc := by simp at hc
  nul := update_self ..
  short := by decide

theorem cString_eq (h : Line buf t) : cString buf = t := by
  have htake : (List.range t.length).map buf = t := by
    apply List.ext_getElem (by simp)
    intro k hk hk'
    simp only [List.getElem_map, List.getElem_range]
    exact (h.byte k _ (List.getElem?_eq_getElem hk')).1
  have hrange : List.range kshellMaxInput =
      List.range t.length ++ (List.range (kshellMaxInput - t.length)).map (t.length + ·) := by
    rw [← List.range_add, Nat.add_sub_cancel' h.short.le]
  obtain ⟨m, hm⟩ : ∃ m, kshellMaxInput - t.length = m + 1 :=
    Nat.exists_eq_succ_of_ne_zero (Nat.sub_ne_zero_of_lt h.short)
  have hall : ∀ c ∈ t, decide (c ≠ 0) = true := by
    intro c hc
    obtain ⟨k, hk⟩ := List.getElem?_of_mem hc
    exact decide_eq_true (h.byte k c hk).2
  unfold cString
  rw [hrange, hm, List.range_succ_eq_map, List.map_append, htake,
    List.takeWhile_append_of_pos hall]
  simp [h.nul]

theorem strCopyFrom (h : Line src t) (n i : ℕ) (hi : i ≤ t.length) (hroom : t.length ≤ i + n)
    (hdst : ∀ k < i, dst k = src k) : Line (Kshell.strCopyFrom src n i dst) t := by
  induction n generalizing i dst with
  | zero =>
    obtain rfl : i = t.length := by omega
    exact h.of_agree (fun k hk ↦ (update_of_ne hk.ne _ _).trans (hdst k hk)) (update_self ..)
  | succ n ih =>
    unfold Kshell.strCopyFrom
    split_ifs with hsrc
    · have hlt : i < t.length := by
        refine lt_of_le_of_ne hi fun heq ↦ hsrc ?_
        rw [heq, h.nul]
      refine ih (i + 1) hlt (by omega) fun k hk ↦ ?_
      rcases Nat.lt_succ_iff_lt_or_eq.mp hk with hk | rfl
      · rw [update_of_ne hk.ne, hdst k hk]
      · rw [update_self]
    · have heq : i = t.length := by
        by_contra hne
        exact hsrc (h.ne_zero (lt_of_le_of_ne hi hne))
      subst heq
      exact h.of_agree (fun k hk ↦ (update_of_ne hk.ne _ _).trans (hdst k hk)) (update_self ..)

theorem strCopy (h : Line src t) (dst : ℕ → Byte) :
    Line (Kshell.strCopy dst src kshellMaxInput) t := by
  have hshort := h.short
  exact h.strCopyFrom _ 0 (Nat.zero_le _) (by omega) (fun k hk ↦ absurd hk (Nat.not_lt_zero k))

theorem countFrom (h : Line buf t) (n i : ℕ) (hi : i ≤ t.length) (hroom : t.length ≤ i + n) :
    Kshell.countFrom buf n i = t.length := by
  induction n generalizing i with
  | zero => exact Nat.le_antisymm hi hroom
  | succ n ih =>
    unfold Kshell.countFrom
    split_ifs with hbuf
    · have hlt : i < t.length := by
        refine lt_of_le_of_ne hi fun heq ↦ hbuf ?_
        rw [heq, h.nul]
      exact ih (i + 1) hlt (by omega)
    · by_contra hne
      exact hbuf (h.ne_zero (lt_of_le_of_ne hi hne))

theorem append (h : Line buf t) {c : Byte} (hc : c ≠ 0) (hroom : t.length < kshellMaxInput - 1) :
    Line (update (update buf t.length c) (t.length + 1) 0) (t ++ [c]) where
  byte k d hd := by
    rcases Nat.lt_trichotomy k t.length with hk | rfl | hk
    · rw [update_of_ne (by omega), update_of_ne hk.ne]
      rw [List.getElem?_append_left hk] at hd
      exact h.byte k d hd
    · obtain rfl : c = d := by simpa using hd
      rw [update_of_ne (by omega), update_self]
      exact ⟨rfl, hc⟩
    · have := (List.getElem?_eq_some_iff.mp hd).1
      simp only [List.length_append, List.length_singleton] at this
      omega
  nul := by simp
  short := by
    simp only [List.length_append, List.length_singleton]
    omega

theorem dropLast (h : Line buf t) : Line (update buf (t.length - 1) 0) t.dropLast where
  byte k c hc := by
    have hk : k < t.length - 1 := by simpa using (List.getElem?_eq_some_iff.mp hc).1
    rw [update_of_ne hk.ne]
    rw [List.getElem?_dropLast, if_pos hk] at hc
    exact h.byte k c hc
  nul := by simp
  short := by
    have := h.short
    simp only [List.length_dropLast]
    omega

end Line

end SeedOS.Kshell
