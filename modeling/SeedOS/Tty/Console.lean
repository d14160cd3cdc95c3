import SeedOS.Foundation.Raster
import Mathlib.Data.List.Range

namespace SeedOS.Tty

open Foundation

abbrev Color := BitVec 32

def scrollbackLines : ℕ := 1000
def maxCols : ℕ := 160

structure Cell where
  ch : BitVec 8
  color : Color
  deriving DecidableEq

structure Line where
  cells : ℕ → Cell
  length : ℕ

/-- The framebuffer's size in pixels, and the font: 16 rows of eight pixels for each
character. The columns and rows are `int`s in the source, which makes no difference for a width
below 2^34 and a height below 2^35 (`SameIndices.init`). -/
structure Screen where
  width : ℕ
  height : ℕ
  font : BitVec 8 → ℕ → BitVec 8

namespace Screen

variable (d : Screen)

def cols : ℕ := d.width / 8
def rows : ℕ := d.height / 16

def pixel (cell : Cell) (row col : ℕ) : Color :=
  if d.font cell.ch row &&& 0x80#8 >>> col ≠ 0#8 then cell.color else 0#32

def consoleFillRect (fb : Raster Color) (x y w h : ℤ) (color : Color) : Raster Color :=
  fb.paint y x (min w (d.width - x)).toNat (fun _ _ ↦ color) (min h (d.height - y)).toNat

def consoleDrawChar (fb : Raster Color) (c : BitVec 8) (x y : ℤ) (color : Color) : Raster Color :=
  if x < 0 ∨ y < 0 ∨ d.width ≤ x ∨ d.height ≤ y then fb
  else
    let maxRow : ℤ := if y + 16 > d.height then d.height - y else 16
    let maxCol : ℤ := if x + 8 > d.width then d.width - x else 8
    fb.paint y x maxCol.toNat (d.pixel ⟨c, color⟩) maxRow.toNat

end Screen

structure Console where
  scrollback : ℕ → Line
  head : ℕ
  count : ℕ
  viewOffset : ℕ
  col : ℕ
  fullscreenMode : Bool
  fb : Raster Color

namespace Console

variable (d : Screen) (s : Console)

/-- `console_init`: the scrollback has one empty line. The pixels stay as they are. -/
def init : Console :=
  { s with
    head := 0
    count := 1
    viewOffset := 0
    col := 0
    scrollback := fun i ↦ if i = 0 then { s.scrollback 0 with length := 0 } else s.scrollback i }

def scrollbackNewline : Console :=
  let head := (s.head + 1) % scrollbackLines
  { s with
    head := head
    count := if s.count < scrollbackLines then s.count + 1 else s.count
    scrollback := fun i ↦
      if i = head then { s.scrollback head with length := 0 } else s.scrollback i
    col := 0 }

def scrollbackPutchar (c : BitVec 8) (color : Color) : Console :=
  if s.col < maxCols then
    { s with
      scrollback := fun i ↦
        if i = s.head then
          ⟨fun j ↦ if j = s.col then ⟨c, color⟩ else (s.scrollback i).cells j, s.col + 1⟩
        else s.scrollback i
      col := s.col + 1 }
  else s

def scrollbackGetLine (linesFromBottom : ℕ) : Option Line :=
  if s.count ≤ linesFromBottom then none
  else some (s.scrollback ((s.head + scrollbackLines - linesFromBottom) % scrollbackLines))

def renderLine (fb : Raster Color) (line : Line) (row : ℕ) : Raster Color :=
  (List.range (min line.length d.cols)).foldl (fun fb col ↦
    d.consoleDrawChar fb (line.cells col).ch (col * 8) (row * 16) (line.cells col).color) fb

def renderRows (lineAt : ℕ → Option Line) (n : ℕ) (fb : Raster Color) : Raster Color :=
  (List.range n).foldl (fun fb row ↦
    match lineAt row with
    | none => fb
    | some line => renderLine d fb line row) fb

def renderView : Console :=
  { s with
    fb := renderRows d (fun row ↦ s.scrollbackGetLine (s.viewOffset + (d.rows - 1 - row))) d.rows
      (d.consoleFillRect s.fb 0 0 d.width d.height 0#32) }

def newline : Console :=
  let s := s.scrollbackNewline
  if s.count > d.rows then s.renderView d else s

def tabFill (color : Color) : ℕ → Console → Console
  | 0, s => s
  | n + 1, s => if s.col < maxCols then tabFill color n (s.scrollbackPutchar 0x20#8 color) else s

def drawCells (fb : Raster Color) (c : BitVec 8) (color : Color) (row : ℤ) (col n : ℕ) :
    Raster Color :=
  (List.range' col n).foldl (fun fb (i : ℕ) ↦ d.consoleDrawChar fb c (i * 8) (row * 16) color) fb

def screenRow : ℤ :=
  let row : ℤ := s.count - 1
  if row ≥ d.rows then d.rows - 1 else row

/-- What `console_putchar` does with the character, before it looks at the column. -/
def putcharBody (c : BitVec 8) (color : Color) : Console :=
  let screenRow := s.screenRow d
  if c = 0x0A#8 then s.newline d
  else if c = 0x0D#8 then { s with col := 0 }
  else if c = 0x08#8 then
    if 0 < s.col then
      let col := s.col - 1
      { s with
        col := col
        scrollback := fun i ↦
          if i = s.head then { s.scrollback i with length := col } else s.scrollback i
        fb := d.consoleFillRect s.fb (col * 8) (screenRow * 16) 8 16 0#32 }
    else s
  else if c = 0x09#8 then
    let oldCol := s.col
    let s := tabFill color 4 s
    { s with fb := drawCells d s.fb 0x20#8 color screenRow oldCol (s.col - oldCol) }
  else
    let drawCol := s.col
    let s := s.scrollbackPutchar c color
    { s with fb := d.consoleDrawChar s.fb c (drawCol * 8) (screenRow * 16) color }

def consolePutchar (c : BitVec 8) (color : Color) : Console :=
  if s.fullscreenMode then s
  else
    let s := if 0 < s.viewOffset then { s with viewOffset := 0 }.renderView d else s
    let s := s.putcharBody d c color
    if d.cols ≤ s.col then s.newline d else s

end Console

end SeedOS.Tty
