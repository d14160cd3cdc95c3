import Mathlib.Data.Int.Order.Basic
import Mathlib.Logic.Function.Basic
import Mathlib.Tactic.Ring
import SeedOS.Tty.Console

namespace SeedOS.Tty

open Function

def int (v : ℤ) : ℤ := v.bmod (2 ^ 32)

theorem int_eq {v : ℤ} (hlo : -2 ^ 31 ≤ v) (hhi : v < 2 ^ 31) : int v = v := by
  unfold int
  rw [Int.bmod_eq_of_le (by omega) (by omega)]

/-- A line that `render_view` draws, and how many lines there were at that time. -/
structure Shown where
  slot : ℤ
  line : ℕ
  count : ℤ
  written : ℕ

/-- The `int` variables of the console, with the number of the line that each slot holds, how many
lines have been begun, and what `render_view` has drawn. -/
structure Scroll where
  length : ℤ → ℤ
  head : ℤ
  count : ℤ
  viewOffset : ℤ
  col : ℤ
  rows : ℤ
  cols : ℤ
  framebuffer : Bool
  fullscreenMode : Bool
  line : ℤ → ℕ
  written : ℕ
  shown : List Shown

namespace Scroll

variable (s : Scroll)

def scrollbackInit : Scroll :=
  { s with
    head := 0
    count := 1
    viewOffset := 0
    col := 0
    length := update s.length 0 0
    line := update s.line 0 s.written
    written := s.written + 1 }

def scrollbackNewline : Scroll :=
  let head := (int (s.head + 1)).tmod scrollbackLines
  { s with
    head := head
    count := if s.count < scrollbackLines then int (s.count + 1) else s.count
    length := update s.length head 0
    col := 0
    line := update s.line head s.written
    written := s.written + 1 }

def scrollbackPutchar : Scroll :=
  if s.col < maxCols then
    { s with col := int (s.col + 1), length := update s.length s.head (int (s.col + 1)) }
  else s

/-- The slot of a line, or `none` for NULL. -/
def scrollbackGetLine (linesFromBottom : ℤ) : Option ℤ :=
  if linesFromBottom ≥ s.count then none
  else some ((int (int (s.head - linesFromBottom) + scrollbackLines)).tmod scrollbackLines)

def rowLine (row : ℕ) : Option Shown :=
  (s.scrollbackGetLine (int (s.viewOffset + int (int (s.rows - 1) - row)))).map fun slot ↦
    ⟨slot, s.line slot, s.count, s.written⟩

def renderView : Scroll :=
  if s.framebuffer then
    { s with shown := s.shown ++ (List.range s.rows.toNat).filterMap s.rowLine }
  else s

def newline : Scroll :=
  let s := s.scrollbackNewline
  if s.count > s.rows then s.renderView else s

def tabFill : ℕ → Scroll → Scroll
  | 0, s => s
  | n + 1, s => if s.col < maxCols then tabFill n s.scrollbackPutchar else s

def putcharBody (c : BitVec 8) : Scroll :=
  if c = 0x0A#8 then s.newline
  else if c = 0x0D#8 then { s with col := 0 }
  else if c = 0x08#8 then
    if s.col > 0 then
      { s with col := int (s.col - 1), length := update s.length s.head (int (s.col - 1)) }
    else s
  else if c = 0x09#8 then tabFill 4 s
  else s.scrollbackPutchar

def consolePutchar (c : BitVec 8) : Scroll :=
  if !s.framebuffer then s
  else if s.fullscreenMode then s
  else
    let s := if s.viewOffset > 0 then { s with viewOffset := 0 }.renderView else s
    let s := s.putcharBody c
    if s.col ≥ s.cols then s.newline else s

def consoleClear : Scroll := if !s.framebuffer then s else s.scrollbackInit

def fillTo (targetRow : ℤ) : ℕ → Scroll → Scroll
  | 0, s => s
  | n + 1, s =>
    if s.count ≤ targetRow ∧ s.count < scrollbackLines then fillTo targetRow n s.scrollbackNewline
    else s

/-- The loop ends when the scrollback is full, if it has not ended before. -/
def consoleSetCursor (x y : ℤ) : Scroll :=
  let col := x.tdiv 8
  let s := { s with col := if col ≥ maxCols then int (maxCols - 1) else col }
  fillTo (y.tdiv 16) ((scrollbackLines : ℤ) - s.count).toNat s

def maxOffset : ℤ := if s.count > s.rows then int (s.count - s.rows) else 0

def consoleScrollBack (lines : ℤ) : Scroll :=
  if !s.framebuffer ∨ lines ≤ 0 then s
  else
    let offset := int (s.viewOffset + lines)
    { s with viewOffset := if offset > s.maxOffset then s.maxOffset else offset }.renderView

def consoleScrollForward (lines : ℤ) : Scroll :=
  if !s.framebuffer ∨ lines ≤ 0 then s
  else
    let offset := int (s.viewOffset - lines)
    { s with viewOffset := if offset < 0 then 0 else offset }.renderView

def consoleScrollToBottom : Scroll :=
  if s.viewOffset = 0 then s else { s with viewOffset := 0 }.renderView

def screenRows : Option (ℕ × ℕ) → ℤ
  | some (_, height) => int (height / 16 : ℕ)
  | none => 25

def screenCols : Option (ℕ × ℕ) → ℤ
  | some (width, _) => int (width / 8 : ℕ)
  | none => 80

/-- After `console_init` with a framebuffer of this width and height, or with NULL. -/
def consoleInit (fb : Option (ℕ × ℕ)) (fullscreen : Bool) : Scroll :=
  scrollbackInit
    { length := fun _ ↦ 0
      head := 0
      count := 0
      viewOffset := 0
      col := 0
      rows := screenRows fb
      cols := screenCols fb
      framebuffer := fb.isSome
      fullscreenMode := fullscreen
      line := fun _ ↦ 0
      written := 0
      shown := [] }

end Scroll

inductive ConsoleOp
  | putchar (c : BitVec 8)
  | clear
  | setCursor (x y : ℤ)
  | scrollBack (lines : ℤ)
  | scrollForward (lines : ℤ)
  | scrollToBottom

namespace ConsoleOp

def exec : ConsoleOp → Scroll → Scroll
  | putchar c, s => s.consolePutchar c
  | clear, s => s.consoleClear
  | setCursor x y, s => s.consoleSetCursor x y
  | scrollBack lines, s => s.consoleScrollBack lines
  | scrollForward lines, s => s.consoleScrollForward lines
  | scrollToBottom, s => s.consoleScrollToBottom

/-- Coordinates are not negative, line counts are below 2^30. -/
def Allowed : ConsoleOp → Prop
  | setCursor x y => 0 ≤ x ∧ 0 ≤ y
  | scrollBack lines => lines < 2 ^ 30
  | scrollForward lines => lines < 2 ^ 30
  | _ => True

end ConsoleOp

end SeedOS.Tty
