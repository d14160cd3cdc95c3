import Mathlib.Data.Nat.Digits.Defs

namespace SeedOS.Printf

abbrev Byte := BitVec 8

def int32 (n : ℤ) : ℤ := n.bmod (2 ^ 32)

/-- The characters that a terminal was given, and the counter of `kputc`. -/
structure Output where
  chars : List Byte
  count : ℤ
  deriving DecidableEq

namespace Output

variable (out : Output)

def kputc (c : Byte) : Output := ⟨out.chars ++ [c], int32 (out.count + 1)⟩

def repeatPutc (c : Byte) (n : ℤ) : Output := (·.kputc c)^[n.toNat] out

def nullText : List Byte := [0x28#8, 0x6E#8, 0x75#8, 0x6C#8, 0x6C#8, 0x29#8]

/-- A string is a null pointer or the bytes before its terminator. -/
def kputsPadded (s : Option (List Byte)) (width : ℤ) (leftAlign : Bool) : Output :=
  let s := s.getD nullText
  let len := s.foldl (fun len _ ↦ int32 (len + 1)) 0
  let out := if !leftAlign ∧ width > len then out.repeatPutc 0x20#8 (int32 (width - len)) else out
  let out := s.foldl kputc out
  if leftAlign ∧ width > len then out.repeatPutc 0x20#8 (int32 (width - len)) else out

def kputs (s : List Byte) : Output := out.kputsPadded (some s) 0 false

def digitsLoop (base : ℕ) (hbase : 1 < base) (digit : ℕ → Byte) (value : ℕ) (buf : List Byte) :
    List Byte :=
  if 0 < value then
    digitsLoop base hbase digit (value / base) (buf ++ [digit (value % base)])
  else buf
termination_by value
decreasing_by exact Nat.div_lt_self ‹_› hbase

def fillBuf (base : ℕ) (hbase : 1 < base) (digit : ℕ → Byte) (value : ℕ) : List Byte :=
  if value = 0 then [0x30#8] else digitsLoop base hbase digit value []

def lowerDigits : List Byte :=
  [0x30#8, 0x31#8, 0x32#8, 0x33#8, 0x34#8, 0x35#8, 0x36#8, 0x37#8,
    0x38#8, 0x39#8, 0x61#8, 0x62#8, 0x63#8, 0x64#8, 0x65#8, 0x66#8]

def upperDigits : List Byte :=
  [0x30#8, 0x31#8, 0x32#8, 0x33#8, 0x34#8, 0x35#8, 0x36#8, 0x37#8,
    0x38#8, 0x39#8, 0x41#8, 0x42#8, 0x43#8, 0x44#8, 0x45#8, 0x46#8]

def printUintPadded (value : BitVec 64) (base : ℕ) (hbase : 1 < base) (uppercase : Bool)
    (width : ℤ) (zeroPad leftAlign : Bool) : Output :=
  let digits := if uppercase then upperDigits else lowerDigits
  let buf := fillBuf base hbase (fun i ↦ digits.getD i 0#8) value.toNat
  let numLen : ℤ := buf.length
  let padding := if width > numLen then int32 (width - numLen) else 0
  let out :=
    if !leftAlign ∧ padding > 0 then
      let padChar := if zeroPad then 0x30#8 else 0x20#8
      out.repeatPutc padChar padding
    else out
  let out := buf.reverse.foldl kputc out
  if leftAlign ∧ padding > 0 then out.repeatPutc 0x20#8 padding else out

def printIntPadded (value : BitVec 64) (width : ℤ) (zeroPad leftAlign : Bool) : Output :=
  let negative := value.toInt < 0
  let uval := if negative then -value else value
  let buf := fillBuf 10 (by decide) (fun i ↦ 0x30#8 + BitVec.ofNat 8 i) uval.toNat
  let numLen : ℤ := buf.length + if negative then 1 else 0
  let padding := if width > numLen then int32 (width - numLen) else 0
  -- the sign goes before zeros, and after spaces
  let (out, negative) :=
    if !leftAlign ∧ padding > 0 then
      let (out, negative) :=
        if zeroPad ∧ negative then (out.kputc 0x2D#8, false) else (out, decide negative)
      let padChar := if zeroPad then 0x30#8 else 0x20#8
      (out.repeatPutc padChar padding, negative)
    else (out, decide negative)
  let out := if negative then out.kputc 0x2D#8 else out
  let out := buf.reverse.foldl kputc out
  if leftAlign ∧ padding > 0 then out.repeatPutc 0x20#8 padding else out

end Output

inductive Arg where
  | int (slot : BitVec 64)
  | str (s : Option (List Byte))
  deriving DecidableEq

/-- A `va_arg` that asks for an integer or a pointer; without one the call is undefined. -/
def vaSlot : List Arg → Option (BitVec 64 × List Arg)
  | .int slot :: args => some (slot, args)
  | _ => none

def vaStr : List Arg → Option (Option (List Byte) × List Arg)
  | .str s :: args => some (s, args)
  | _ => none

def signedArg (isLong : ℕ) (slot : BitVec 64) : BitVec 64 :=
  if isLong = 2 then slot else if isLong = 1 then slot else (slot.setWidth 32).signExtend 64

def unsignedArg (isLong : ℕ) (slot : BitVec 64) : BitVec 64 :=
  if isLong = 2 then slot else if isLong = 1 then slot else (slot.setWidth 32).setWidth 64

def parseFlags : List Byte → Bool → Bool → Bool × Bool × List Byte
  | [], zeroPad, leftAlign => (zeroPad, leftAlign, [])
  | c :: fmt, zeroPad, leftAlign =>
    if c = 0x2D#8 then parseFlags fmt zeroPad true
    else if c = 0x30#8 then parseFlags fmt true leftAlign
    else (zeroPad, leftAlign, c :: fmt)

def parseWidth : List Byte → ℤ → ℤ × List Byte
  | [], width => (width, [])
  | c :: fmt, width =>
    if 0x30#8 ≤ c ∧ c ≤ 0x39#8 then
      parseWidth fmt (int32 (int32 (width * 10) + (c.toNat - 0x30)))
    else (width, c :: fmt)

def parseLong : List Byte → ℕ × List Byte
  | [] => (0, [])
  | c :: fmt =>
    if c = 0x6C#8 then
      match fmt with
      | [] => (1, [])
      | c' :: fmt' => if c' = 0x6C#8 then (2, fmt') else (1, fmt)
    else (0, c :: fmt)

/-- What stands between the percent sign and the conversion. -/
structure Spec where
  zeroPad : Bool
  leftAlign : Bool
  width : ℤ
  isLong : ℕ

def parseSpec (fmt : List Byte) : Spec × List Byte :=
  let (zeroPad, leftAlign, fmt) := parseFlags fmt false false
  let zeroPad := if leftAlign then false else zeroPad
  let (width, fmt) := parseWidth fmt 0
  let (isLong, fmt) := parseLong fmt
  (⟨zeroPad, leftAlign, width, isLong⟩, fmt)

def convertUint (d : Spec) (base : ℕ) (hbase : 1 < base) (uppercase : Bool) (out : Output)
    (args : List Arg) : Option (Output × List Arg) :=
  (vaSlot args).map fun (slot, args) ↦
    (out.printUintPadded (unsignedArg d.isLong slot) base hbase uppercase d.width d.zeroPad
      d.leftAlign, args)

def convert (d : Spec) (c : Byte) (out : Output) (args : List Arg) : Option (Output × List Arg) :=
  if c = 0x63#8 then
    (vaSlot args).map fun (slot, args) ↦ (out.kputc (slot.setWidth 8), args)
  else if c = 0x73#8 then
    (vaStr args).map fun (s, args) ↦ (out.kputsPadded s d.width d.leftAlign, args)
  else if c = 0x64#8 ∨ c = 0x69#8 then
    (vaSlot args).map fun (slot, args) ↦
      (out.printIntPadded (signedArg d.isLong slot) d.width d.zeroPad d.leftAlign, args)
  else if c = 0x75#8 then convertUint d 10 (by decide) false out args
  else if c = 0x78#8 ∨ c = 0x58#8 then convertUint d 16 (by decide) (c = 0x58#8) out args
  else if c = 0x6F#8 then convertUint d 8 (by decide) false out args
  else if c = 0x62#8 then convertUint d 2 (by decide) false out args
  else if c = 0x70#8 then
    (vaSlot args).map fun (slot, args) ↦
      ((out.kputs [0x30#8, 0x78#8]).printUintPadded slot 16 (by decide) false 0 false false, args)
  else if c = 0x25#8 then some (out.kputc 0x25#8, args)
  else some ((out.kputc 0x25#8).kputc c, args)

section Lengths

variable (fmt : List Byte)

theorem parseFlags_length (zeroPad leftAlign : Bool) :
    (parseFlags fmt zeroPad leftAlign).2.2.length ≤ fmt.length := by
  induction fmt generalizing zeroPad leftAlign with
  | nil => exact Nat.le_refl _
  | cons c fmt ih =>
    unfold parseFlags
    split_ifs
    · exact Nat.le_succ_of_le (ih _ _)
    · exact Nat.le_succ_of_le (ih _ _)
    · exact Nat.le_refl _

theorem parseWidth_length (width : ℤ) : (parseWidth fmt width).2.length ≤ fmt.length := by
  induction fmt generalizing width with
  | nil => exact Nat.le_refl _
  | cons c fmt ih =>
    unfold parseWidth
    split_ifs
    · exact Nat.le_succ_of_le (ih _)
    · exact Nat.le_refl _

theorem parseLong_length : (parseLong fmt).2.length ≤ fmt.length := by
  fun_cases parseLong fmt <;> grind

theorem parseSpec_length : (parseSpec fmt).2.length ≤ fmt.length :=
  calc (parseSpec fmt).2.length
      ≤ (parseWidth (parseFlags fmt false false).2.2 0).2.length := parseLong_length _
    _ ≤ (parseFlags fmt false false).2.2.length := parseWidth_length _ _
    _ ≤ fmt.length := parseFlags_length _ _ _

end Lengths

/-- The loop of `tkvprintf`: the output, and the arguments that are left. -/
def tkvprintfLoop : List Byte → List Arg → Output → Option (Output × List Arg)
  | [], args, out => some (out, args)
  | c :: fmt, args, out =>
    if c ≠ 0x25#8 then tkvprintfLoop fmt args (out.kputc c)
    else
      match hspec : parseSpec fmt with
      | (_, []) => some (out, args)
      | (d, c :: fmt') =>
        have : fmt'.length < fmt.length := by
          have hle := parseSpec_length fmt
          rw [hspec] at hle
          exact hle
        (convert d c out args).bind fun (out, args) ↦ tkvprintfLoop fmt' args out
termination_by fmt => fmt.length

def tkvprintf (fmt : List Byte) (args : List Arg) : Option (Output × List Arg) :=
  tkvprintfLoop fmt args ⟨[], 0⟩

end SeedOS.Printf
