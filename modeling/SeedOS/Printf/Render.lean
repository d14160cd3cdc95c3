import SeedOS.Printf.Kprintf
import Mathlib.Data.Nat.Digits.Lemmas

namespace SeedOS.Printf

section Reference

inductive Flag where
  | minus
  | zero
  deriving DecidableEq

inductive Size where
  | int
  | long
  | longLong
  deriving DecidableEq

inductive Conv where
  | d
  | i
  | u
  | x
  | upperX
  | o
  | b
  | s
  deriving DecidableEq

structure Directive where
  flags : List Flag
  /-- Zero if the format has no width. -/
  width : ℕ
  width_lt : width < 2 ^ 31
  size : Size
  conv : Conv

inductive Piece where
  | char (c : Byte) (hc : c ≠ 0#8 ∧ c ≠ 0x25#8)
  | percent
  | conv (d : Directive)

def digitChar (uppercase : Bool) (i : ℕ) : Byte :=
  BitVec.ofNat 8 (if i < 10 then 0x30 + i else (if uppercase then 0x41 else 0x61) + (i - 10))

/-- The digits of a number, the most significant one first, without leading zeros. -/
def numeral (base : ℕ) (uppercase : Bool) (n : ℕ) : List Byte :=
  if n = 0 then [0x30#8] else ((Nat.digits base n).map (digitChar uppercase)).reverse

/-- The minus flag puts spaces on the right, the zero flag puts zeros after the sign, and spaces
on the left are the default. -/
def field (flags : List Flag) (width : ℕ) (sign body : List Byte) : List Byte :=
  let padding := width - (sign.length + body.length)
  if .minus ∈ flags then sign ++ body ++ List.replicate padding 0x20#8
  else if .zero ∈ flags then sign ++ List.replicate padding 0x30#8 ++ body
  else List.replicate padding 0x20#8 ++ sign ++ body

namespace Size

def signed (size : Size) (slot : BitVec 64) : ℤ :=
  match size with
  | int => (slot.setWidth 32).toInt
  | _ => slot.toInt

def unsigned (size : Size) (slot : BitVec 64) : ℕ :=
  match size with
  | int => (slot.setWidth 32).toNat
  | _ => slot.toNat

def text : Size → List Byte
  | int => []
  | long => [0x6C#8]
  | longLong => [0x6C#8, 0x6C#8]

end Size

def Flag.char : Flag → Byte
  | minus => 0x2D#8
  | zero => 0x30#8

def Conv.char : Conv → Byte
  | d => 0x64#8
  | i => 0x69#8
  | u => 0x75#8
  | x => 0x78#8
  | upperX => 0x58#8
  | o => 0x6F#8
  | b => 0x62#8
  | s => 0x73#8

namespace Directive

variable (d : Directive)

def signedText (slot : BitVec 64) : List Byte :=
  let value := d.size.signed slot
  field d.flags d.width (if value < 0 then [0x2D#8] else []) (numeral 10 false value.natAbs)

def unsignedText (base : ℕ) (uppercase : Bool) (slot : BitVec 64) : List Byte :=
  field d.flags d.width [] (numeral base uppercase (d.size.unsigned slot))

/-- The rendering of an argument, if it has the type that the conversion asks for. -/
def render (arg : Arg) : Option (List Byte) :=
  match d.conv, arg with
  | .d, .int slot | .i, .int slot => some (d.signedText slot)
  | .u, .int slot => some (d.unsignedText 10 false slot)
  | .x, .int slot => some (d.unsignedText 16 false slot)
  | .upperX, .int slot => some (d.unsignedText 16 true slot)
  | .o, .int slot => some (d.unsignedText 8 false slot)
  | .b, .int slot => some (d.unsignedText 2 false slot)
  | .s, .str s => some (field (d.flags.filter (· = .minus)) d.width [] (s.getD Output.nullText))
  | _, _ => none

def text : List Byte :=
  d.flags.map Flag.char ++ (if d.width = 0 then [] else numeral 10 false d.width) ++ d.size.text ++
    [d.conv.char]

end Directive

namespace Piece

def text : Piece → List Byte
  | char c _ => [c]
  | percent => [0x25#8, 0x25#8]
  | conv d => 0x25#8 :: d.text

def render : Piece → List Arg → Option (List Byte × List Arg)
  | char c _, args => some ([c], args)
  | percent, args => some ([0x25#8], args)
  | conv _, [] => none
  | conv d, arg :: args => (d.render arg).map (·, args)

end Piece

def formatText (fmt : List Piece) : List Byte := fmt.flatMap Piece.text

/-- The rendering of a format, and the arguments that it leaves. -/
def render : List Piece → List Arg → Option (List Byte × List Arg)
  | [], args => some ([], args)
  | p :: fmt, args =>
    (p.render args).bind fun (r, args) ↦ (render fmt args).map fun (rs, args) ↦ (r ++ rs, args)

end Reference

section Emitted

def emitted (chars : List Byte) : Output := ⟨chars, int32 chars.length⟩

theorem int32_of_lt {n : ℕ} (h : n < 2 ^ 31) : int32 n = n := by
  apply Int.bmod_eq_of_le <;> omega

variable (cs : List Byte) (c : Byte)

@[simp] theorem kputc_emitted : (emitted cs).kputc c = emitted (cs ++ [c]) := by
  simp [emitted, Output.kputc, int32]

@[simp] theorem foldl_kputc_emitted (s : List Byte) :
    s.foldl Output.kputc (emitted cs) = emitted (cs ++ s) := by
  induction s generalizing cs with
  | nil => rw [List.append_nil, List.foldl_nil]
  | cons c s ih => rw [List.foldl_cons, kputc_emitted, ih, List.append_assoc, List.singleton_append]

@[simp] theorem repeatPutc_emitted (n : ℕ) :
    (emitted cs).repeatPutc c n = emitted (cs ++ List.replicate n c) := by
  unfold Output.repeatPutc
  rw [Int.toNat_natCast]
  induction n generalizing cs with
  | zero => rw [List.replicate_zero, List.append_nil, Function.iterate_zero_apply]
  | succ n ih =>
    rw [Function.iterate_succ_apply, kputc_emitted, ih, List.append_assoc, List.replicate_succ,
      List.singleton_append]

theorem padding_eq {w : ℕ} (hw : w < 2 ^ 31) (len : ℕ) :
    (if (w : ℤ) > len then int32 (w - len) else 0) = ((w - len : ℕ) : ℤ) := by
  split_ifs with h
  · have hcast : (w : ℤ) - len = ((w - len : ℕ) : ℤ) := by omega
    rw [hcast, int32_of_lt (by omega)]
  · omega

theorem pad_emitted (p : Prop) [Decidable p] (n : ℕ) :
    (if p ∧ (n : ℤ) > 0 then (emitted cs).repeatPutc c n else emitted cs) =
      emitted (cs ++ if p then List.replicate n c else []) := by
  by_cases hp : p
  · rw [if_pos hp]
    cases n with
    | zero => rw [if_neg (fun h ↦ absurd h.2 (lt_irrefl _)), List.replicate_zero, List.append_nil]
    | succ n => rw [if_pos ⟨hp, by omega⟩, repeatPutc_emitted]
  · rw [if_neg hp, if_neg (fun h ↦ hp h.1), List.append_nil]

end Emitted

section Printers

variable (cs : List Byte) {flags : List Flag} {w : ℕ}

theorem length_eq_foldl (s : List Byte) :
    s.foldl (fun len _ ↦ int32 (len + 1)) 0 = int32 s.length := by
  induction s using List.reverseRecOn with
  | nil => rfl
  | append_singleton s c ih =>
    rw [List.foldl_append, ih, List.foldl_cons, List.foldl_nil]
    simp [int32]

theorem pad_text_emitted (hw : w < 2 ^ 31) (len : ℕ) (c : Byte) (p : Prop) [Decidable p] :
    (if p ∧ (w : ℤ) > len then (emitted cs).repeatPutc c (int32 (w - len)) else emitted cs) =
      emitted (cs ++ if p then List.replicate (w - len) c else []) := by
  have hpadding := padding_eq hw len
  rw [← pad_emitted, ← hpadding]
  by_cases hlt : (w : ℤ) > len
  · have hpos : int32 (w - len) > 0 := by
      rw [if_pos hlt] at hpadding
      omega
    simp [hlt, hpos]
  · simp [hlt]

theorem kputsPadded_emitted (hw : w < 2 ^ 31) (s : Option (List Byte))
    (hs : (s.getD Output.nullText).length < 2 ^ 31) :
    (emitted cs).kputsPadded s w (Flag.minus ∈ flags) =
      emitted (cs ++ field (flags.filter (· = .minus)) w [] (s.getD Output.nullText)) := by
  unfold Output.kputsPadded field
  generalize s.getD Output.nullText = t at hs
  dsimp only
  rw [length_eq_foldl, int32_of_lt hs, pad_text_emitted cs hw, foldl_kputc_emitted,
    pad_text_emitted _ hw]
  by_cases hminus : Flag.minus ∈ flags
  · simp [hminus]
  · simp [hminus]

theorem kputsPadded_counts (s : Option (List Byte)) (width : ℤ) (leftAlign : Bool) :
    ∃ cs', (emitted cs).kputsPadded s width leftAlign = emitted cs' := by
  have hpad : ∀ cs c n, (emitted cs).repeatPutc c n = emitted (cs ++ List.replicate n.toNat c) :=
    fun cs c n ↦ repeatPutc_emitted cs c n.toNat
  unfold Output.kputsPadded
  dsimp only
  split_ifs
  all_goals simp only [hpad, foldl_kputc_emitted, exists_apply_eq_apply']

theorem digitsLoop_eq {base : ℕ} (hbase : 1 < base) (digit : ℕ → Byte) (n : ℕ) (buf : List Byte) :
    Output.digitsLoop base hbase digit n buf = buf ++ (Nat.digits base n).map digit := by
  induction n using Nat.strong_induction_on generalizing buf with
  | h n ih =>
    unfold Output.digitsLoop
    split_ifs with hn
    · rw [ih (n / base) (Nat.div_lt_self hn hbase), Nat.digits_def' hbase hn, List.map_cons,
        List.append_assoc, List.singleton_append]
    · obtain rfl : n = 0 := Nat.eq_zero_of_not_pos hn
      rw [Nat.digits_zero, List.map_nil, List.append_nil]

theorem fillBuf_reverse {base : ℕ} (hbase : 1 < base) {uppercase : Bool} {digit : ℕ → Byte}
    (hdigit : ∀ i < base, digit i = digitChar uppercase i) (n : ℕ) :
    (Output.fillBuf base hbase digit n).reverse = numeral base uppercase n := by
  unfold Output.fillBuf numeral
  split_ifs
  · rfl
  · rw [digitsLoop_eq, List.nil_append]
    refine congrArg List.reverse (List.map_congr_left fun i hi ↦ ?_)
    exact hdigit i (Nat.digits_lt_base hbase hi)

theorem printUintPadded_emitted (hw : w < 2 ^ 31) (value : BitVec 64) {base : ℕ}
    (hbase : 1 < base) (hbase' : base ≤ 16) (uppercase : Bool) :
    (emitted cs).printUintPadded value base hbase uppercase w
        (if Flag.minus ∈ flags then false else decide (Flag.zero ∈ flags)) (Flag.minus ∈ flags) =
      emitted (cs ++ field flags w [] (numeral base uppercase value.toNat)) := by
  have hdigit : ∀ i < base, (if uppercase then Output.upperDigits else Output.lowerDigits).getD i
      0#8 = digitChar uppercase i := by
    intro i hi
    have hi' : i < 16 := Nat.lt_of_lt_of_le hi hbase'
    cases uppercase <;> interval_cases i <;> rfl
  have hbuf := fillBuf_reverse hbase hdigit value.toNat
  have hlen := congrArg List.length hbuf
  rw [List.length_reverse] at hlen
  unfold Output.printUintPadded field
  dsimp only
  rw [hlen, padding_eq hw, hbuf, pad_emitted, foldl_kputc_emitted, pad_emitted]
  by_cases hminus : Flag.minus ∈ flags
  · simp [hminus]
  · by_cases hzero : Flag.zero ∈ flags
    · simp [hminus, hzero]
    · simp [hminus, hzero]

theorem printIntPadded_emitted (hw : w < 2 ^ 31) (value : BitVec 64) :
    (emitted cs).printIntPadded value w
        (if Flag.minus ∈ flags then false else decide (Flag.zero ∈ flags)) (Flag.minus ∈ flags) =
      emitted (cs ++ field flags w (if value.toInt < 0 then [0x2D#8] else [])
        (numeral 10 false value.toInt.natAbs)) := by
  have hdigit : ∀ i < 10, 0x30#8 + BitVec.ofNat 8 i = digitChar false i := by
    intro i hi
    interval_cases i <;> rfl
  have huval : (if value.toInt < 0 then -value else value).toNat = value.toInt.natAbs := by
    split_ifs with hneg
    · rw [BitVec.toNat_neg]
      rw [BitVec.toInt_eq_toNat_cond] at hneg ⊢
      split_ifs at hneg ⊢ <;> omega
    · rw [BitVec.toInt_eq_toNat_cond] at hneg ⊢
      split_ifs at hneg ⊢ <;> omega
  have hbuf := fillBuf_reverse (by decide) hdigit value.toInt.natAbs
  have hlen := congrArg List.length hbuf
  rw [List.length_reverse] at hlen
  unfold Output.printIntPadded field
  dsimp only
  rw [huval, hlen, hbuf]
  generalize numeral 10 false value.toInt.natAbs = body
  have hnum : (body.length : ℤ) + (if value.toInt < 0 then 1 else 0) =
      (((if value.toInt < 0 then [0x2D#8] else []).length + body.length : ℕ) : ℤ) := by
    split_ifs <;> simp [Int.add_comm]
  rw [hnum, padding_eq hw]
  generalize w - ((if value.toInt < 0 then [0x2D#8] else []).length + body.length) = n
  rcases Nat.eq_zero_or_pos n with rfl | hn
  · by_cases hneg : value.toInt < 0
    · simp [hneg]
    · simp [hneg]
  · by_cases hminus : Flag.minus ∈ flags
    · by_cases hneg : value.toInt < 0
      · simp [hminus, hneg, hn]
      · simp [hminus, hneg, hn]
    · by_cases hneg : value.toInt < 0
      · -- only zeros go between the sign and the digits
        by_cases hzero : Flag.zero ∈ flags
        · simp [hminus, hneg, hzero, hn]
        · simp [hminus, hneg, hzero, hn]
      · by_cases hzero : Flag.zero ∈ flags
        · simp [hminus, hneg, hzero, hn]
        · simp [hminus, hneg, hzero, hn]

end Printers

section Parsing

theorem parseFlags_text {flags : List Flag} {c : Byte} (hminus : c ≠ 0x2D#8) (hzero : c ≠ 0x30#8)
    (fmt : List Byte) (zeroPad leftAlign : Bool) :
    parseFlags (flags.map Flag.char ++ c :: fmt) zeroPad leftAlign =
      (zeroPad || decide (Flag.zero ∈ flags), leftAlign || decide (Flag.minus ∈ flags),
        c :: fmt) := by
  induction flags generalizing zeroPad leftAlign with
  | nil => simp [parseFlags, hminus, hzero]
  | cons f flags ih =>
    cases f with
    | minus => simp [parseFlags, Flag.char, ih]
    | zero => simp [parseFlags, Flag.char, ih]

theorem numeral_div {n : ℕ} (hn : 10 ≤ n) :
    numeral 10 false n = numeral 10 false (n / 10) ++ [digitChar false (n % 10)] := by
  unfold numeral
  rw [if_neg (by omega), if_neg (by omega), Nat.digits_def' (by decide) (by omega), List.map_cons,
    List.reverse_cons]

theorem numeral_digit {n : ℕ} (hn : n < 10) : numeral 10 false n = [digitChar false n] := by
  interval_cases n <;> rfl

theorem digitChar_toNat {i : ℕ} (hi : i < 10) : (digitChar false i).toNat = 0x30 + i := by
  interval_cases i <;> rfl

theorem parseWidth_digit {i n : ℕ} (hi : i < 10) (hn : n * 10 + i < 2 ^ 31) (fmt : List Byte) :
    parseWidth (digitChar false i :: fmt) n = parseWidth fmt ((n * 10 + i : ℕ) : ℤ) := by
  have hdigit : 0x30#8 ≤ digitChar false i ∧ digitChar false i ≤ 0x39#8 := by
    interval_cases i <;> decide
  have hmul : int32 ((n : ℤ) * 10) = ((n * 10 : ℕ) : ℤ) := by
    rw [← Nat.cast_ofNat, ← Nat.cast_mul]
    exact int32_of_lt (by omega)
  have hadd : ((n * 10 : ℕ) : ℤ) + ((digitChar false i).toNat - 0x30) = ((n * 10 + i : ℕ) : ℤ) := by
    rw [digitChar_toNat hi]
    omega
  rw [parseWidth, if_pos hdigit, hmul, hadd, int32_of_lt hn]

theorem parseWidth_numeral {n : ℕ} (hn : n < 2 ^ 31) (fmt : List Byte) :
    parseWidth (numeral 10 false n ++ fmt) 0 = parseWidth fmt n := by
  induction n using Nat.strong_induction_on generalizing fmt with
  | h n ih =>
    by_cases hsmall : n < 10
    · rw [numeral_digit hsmall, List.singleton_append]
      have h := parseWidth_digit (n := 0) hsmall (by omega) fmt
      rwa [Nat.zero_mul, Nat.zero_add] at h
    · rw [numeral_div (by omega), List.append_assoc, ih (n / 10) (by omega) (by omega),
        List.singleton_append, parseWidth_digit (by omega) (by omega), Nat.div_add_mod']

theorem numeral_head {n : ℕ} (hn : 0 < n) :
    ∃ c cs, numeral 10 false n = c :: cs ∧ c ≠ 0x2D#8 ∧ c ≠ 0x30#8 := by
  induction n using Nat.strong_induction_on with
  | h n ih =>
    by_cases hsmall : n < 10
    · rw [numeral_digit hsmall]
      refine ⟨_, [], rfl, ?_⟩
      interval_cases n <;> decide
    · obtain ⟨c, cs, hcs, hc⟩ := ih (n / 10) (by omega) (by omega)
      rw [numeral_div (by omega), hcs]
      exact ⟨c, _, rfl, hc⟩

theorem parseWidth_letter {c : Byte} (hc : 0x39#8 < c) (fmt : List Byte) (n : ℤ) :
    parseWidth (c :: fmt) n = (n, c :: fmt) := by
  rw [parseWidth, if_neg]
  rintro ⟨-, hle⟩
  exact BitVec.not_lt.mpr hle hc

namespace Directive

variable (d : Directive) (fmt : List Byte)

def isLong : ℕ :=
  match d.size with
  | .int => 0
  | .long => 1
  | .longLong => 2

def spec : Spec :=
  ⟨if Flag.minus ∈ d.flags then false else decide (Flag.zero ∈ d.flags), Flag.minus ∈ d.flags,
    d.width, d.isLong⟩

theorem letters : ∃ c cs, d.size.text ++ d.conv.char :: fmt = c :: cs ∧ 0x39#8 < c := by
  cases d.size with
  | int =>
    refine ⟨_, _, rfl, ?_⟩
    cases d.conv <;> decide
  | long => exact ⟨_, _, rfl, by decide⟩
  | longLong => exact ⟨_, _, rfl, by decide⟩

theorem parseLong_letters :
    parseLong (d.size.text ++ d.conv.char :: fmt) = (d.isLong, d.conv.char :: fmt) := by
  unfold isLong
  cases d.size with
  | int => cases d.conv <;> rfl
  | long => cases d.conv <;> rfl
  | longLong => rfl

theorem parseSpec_text : parseSpec (d.text ++ fmt) = (d.spec, d.conv.char :: fmt) := by
  obtain ⟨c, cs, hletters, hc⟩ := d.letters fmt
  have hwidth : ∃ c' cs', (if d.width = 0 then [] else numeral 10 false d.width) ++ c :: cs =
      c' :: cs' ∧ c' ≠ 0x2D#8 ∧ c' ≠ 0x30#8 := by
    split_ifs with hw
    · refine ⟨c, cs, rfl, ?_, ?_⟩
      · rintro rfl
        exact absurd hc (by decide)
      · rintro rfl
        exact absurd hc (by decide)
    · obtain ⟨c', cs', hcs, hc'⟩ := numeral_head (Nat.pos_of_ne_zero hw)
      rw [hcs]
      exact ⟨c', _, rfl, hc'⟩
  have hnumber : parseWidth ((if d.width = 0 then [] else numeral 10 false d.width) ++ c :: cs) 0 =
      ((d.width : ℤ), c :: cs) := by
    split_ifs with hw
    · rw [List.nil_append, parseWidth_letter hc, hw]
      rfl
    · rw [parseWidth_numeral d.width_lt, parseWidth_letter hc]
  obtain ⟨c', cs', hwidth, hminus, hzero⟩ := hwidth
  have htext : d.text ++ fmt = d.flags.map Flag.char ++ c' :: cs' := by
    rw [text, ← hwidth, ← hletters]
    simp only [List.append_assoc, List.singleton_append]
  unfold parseSpec
  rw [htext, parseFlags_text hminus hzero]
  dsimp only
  rw [← hwidth, hnumber]
  dsimp only
  rw [← hletters, parseLong_letters]
  simp [spec]

end Directive

end Parsing

section Runs

theorem signedArg_toInt (d : Directive) (slot : BitVec 64) :
    (signedArg d.isLong slot).toInt = d.size.signed slot := by
  unfold Directive.isLong
  cases d.size with
  | int => exact BitVec.toInt_signExtend_of_le (by decide)
  | long => rfl
  | longLong => rfl

theorem unsignedArg_toNat (d : Directive) (slot : BitVec 64) :
    (unsignedArg d.isLong slot).toNat = d.size.unsigned slot := by
  unfold Directive.isLong
  cases d.size with
  | int =>
    change ((slot.setWidth 32).setWidth 64).toNat = (slot.setWidth 32).toNat
    simp only [BitVec.toNat_setWidth]
    omega
  | long => rfl
  | longLong => rfl

theorem length_field (flags : List Flag) (width : ℕ) (sign body : List Byte) :
    (field flags width sign body).length = max width (sign.length + body.length) := by
  unfold field
  dsimp only
  split_ifs <;> simp only [List.length_append, List.length_replicate] <;> omega

theorem convertUint_emitted (cs : List Byte) (d : Directive) {base : ℕ} (hbase : 1 < base)
    (hbase' : base ≤ 16) (uppercase : Bool) (slot : BitVec 64) (args : List Arg) :
    convertUint d.spec base hbase uppercase (emitted cs) (.int slot :: args) =
      some (emitted (cs ++ d.unsignedText base uppercase slot), args) := by
  unfold convertUint Directive.unsignedText
  rw [← unsignedArg_toNat, ← printUintPadded_emitted cs d.width_lt _ hbase hbase']
  rfl

theorem convert_emitted (cs : List Byte) {d : Directive} {arg : Arg} {r : List Byte}
    (hr : d.render arg = some r) (args : List Arg) :
    ∃ cs', convert d.spec d.conv.char (emitted cs) (arg :: args) = some (emitted cs', args) ∧
      (r.length < 2 ^ 31 → cs' = cs ++ r) := by
  have hsigned (slot : BitVec 64) : (emitted cs).printIntPadded (signedArg d.spec.isLong slot)
      d.spec.width d.spec.zeroPad d.spec.leftAlign = emitted (cs ++ d.signedText slot) := by
    unfold Directive.signedText
    rw [← signedArg_toInt]
    exact printIntPadded_emitted cs d.width_lt _
  unfold Directive.render at hr
  split at hr
  case h_8 s hconv =>
    obtain ⟨cs', hcs'⟩ := kputsPadded_counts cs s d.spec.width d.spec.leftAlign
    rw [hconv, ← Option.some.inj hr]
    refine ⟨cs', congrArg (fun out ↦ some (out, args)) hcs', fun hlen ↦ ?_⟩
    rw [length_field] at hlen
    exact congrArg Output.chars (hcs'.symm.trans (kputsPadded_emitted cs d.width_lt s (by omega)))
  case h_9 => contradiction
  all_goals
    rename_i slot hconv
    rw [hconv, ← Option.some.inj hr]
    refine ⟨_, ?_, fun _ ↦ rfl⟩
  · rw [← hsigned]
    rfl
  · rw [← hsigned]
    rfl
  · exact convertUint_emitted cs d (by decide) (by decide) false slot args
  · exact convertUint_emitted cs d (by decide) (by decide) false slot args
  · exact convertUint_emitted cs d (by decide) (by decide) true slot args
  · exact convertUint_emitted cs d (by decide) (by decide) false slot args
  · exact convertUint_emitted cs d (by decide) (by decide) false slot args

theorem loop_char {c : Byte} (hc : c ≠ 0x25#8) (fmt cs : List Byte) (args : List Arg) :
    tkvprintfLoop (c :: fmt) args (emitted cs) = tkvprintfLoop fmt args (emitted (cs ++ [c])) := by
  rw [tkvprintfLoop, if_pos hc, kputc_emitted]

theorem loop_convert {d : Spec} {fmt fmt' cs cs' : List Byte} {c : Byte} {args args' : List Arg}
    (hspec : parseSpec fmt = (d, c :: fmt'))
    (hconvert : convert d c (emitted cs) args = some (emitted cs', args')) :
    tkvprintfLoop (0x25#8 :: fmt) args (emitted cs) = tkvprintfLoop fmt' args' (emitted cs') := by
  rw [tkvprintfLoop, if_neg (fun h ↦ h rfl)]
  split
  · rename_i heq
    rw [hspec] at heq
    cases heq
  · rename_i heq
    rw [hspec] at heq
    cases heq
    rw [hconvert]
    rfl

theorem loop_piece {p : Piece} {args args' : List Arg} {r : List Byte}
    (hr : p.render args = some (r, args')) (fmt cs : List Byte) :
    ∃ cs', tkvprintfLoop (p.text ++ fmt) args (emitted cs) =
      tkvprintfLoop fmt args' (emitted cs') ∧ (r.length < 2 ^ 31 → cs' = cs ++ r) := by
  cases p with
  | char c hc =>
    cases hr
    exact ⟨_, loop_char hc.2 fmt cs args, fun _ ↦ rfl⟩
  | percent =>
    cases hr
    refine ⟨_, ?_, fun _ ↦ rfl⟩
    refine loop_convert (d := ⟨false, false, 0, 0⟩) (c := 0x25#8) rfl ?_
    rw [← kputc_emitted]
    rfl
  | conv d =>
    cases args with
    | nil => contradiction
    | cons arg args =>
      obtain ⟨r', hr', heq⟩ := Option.map_eq_some_iff.mp hr
      cases heq
      obtain ⟨cs', hconvert, hcs'⟩ := convert_emitted cs hr' _
      exact ⟨cs', loop_convert (d.parseSpec_text fmt) hconvert, hcs'⟩

theorem loop_render {fmt : List Piece} {args rest : List Arg} {r : List Byte}
    (hr : render fmt args = some (r, rest)) (cs : List Byte) :
    ∃ cs', tkvprintfLoop (formatText fmt) args (emitted cs) = some (emitted cs', rest) ∧
      (r.length < 2 ^ 31 → cs' = cs ++ r) := by
  induction fmt generalizing args r cs with
  | nil =>
    cases hr
    exact ⟨cs, by simp [formatText, tkvprintfLoop], fun _ ↦ (List.append_nil cs).symm⟩
  | cons p fmt ih =>
    obtain ⟨⟨r₁, args₁⟩, hp, hfmt⟩ := Option.bind_eq_some_iff.mp hr
    obtain ⟨⟨r₂, args₂⟩, hr₂, heq⟩ := Option.map_eq_some_iff.mp hfmt
    cases heq
    obtain ⟨cs₁, hloop₁, hcs₁⟩ := loop_piece hp (formatText fmt) cs
    obtain ⟨cs₂, hloop₂, hcs₂⟩ := ih hr₂ cs₁
    refine ⟨cs₂, hloop₁.trans hloop₂, fun hlen ↦ ?_⟩
    rw [List.length_append] at hlen
    rw [hcs₂ (by omega), hcs₁ (by omega), List.append_assoc]

/-- A format is printed as it is rendered, and the characters are counted, exactly if an `int` can
count them. -/
theorem tkvprintf_renders (fmt : List Piece) (args rest : List Arg) (r : List Byte)
    (hr : render fmt args = some (r, rest)) :
    tkvprintf (formatText fmt) args = some (⟨r, r.length⟩, rest) ↔ r.length < 2 ^ 31 := by
  obtain ⟨cs, hloop, hcs⟩ := loop_render hr []
  have hrun : tkvprintf (formatText fmt) args = some (emitted cs, rest) := hloop
  rw [hrun]
  constructor
  · intro heq
    obtain ⟨rfl, hcount⟩ := Output.mk.inj (Prod.mk.inj (Option.some.inj heq)).1
    have hlt : int32 cs.length < 2 ^ 31 := Int.bmod_lt (by decide)
    omega
  · intro hlen
    rw [hcs hlen, List.nil_append, emitted, int32_of_lt hlen]

def sampleFormat : List Piece :=
  [.conv ⟨[.zero], 6, by decide, .int, .d⟩, .char 0x7C#8 (by decide),
    .conv ⟨[.minus, .zero], 4, by decide, .longLong, .upperX⟩]

def sampleText : List Byte :=
  [0x2D#8, 0x30#8, 0x30#8, 0x30#8, 0x34#8, 0x32#8, 0x7C#8, 0x46#8, 0x46#8, 0x20#8, 0x20#8]

/-- The arguments -42 and 255, printed with `%06d|%-04llX`. -/
theorem tkvprintf_renders_sample :
    render sampleFormat [.int 0xFFFFFFD6#64, .int 255#64] = some (sampleText, []) ∧
    tkvprintf (formatText sampleFormat) [.int 0xFFFFFFD6#64, .int 255#64] =
      some (⟨sampleText, 11⟩, []) := by
  have hr : render sampleFormat [.int 0xFFFFFFD6#64, .int 255#64] = some (sampleText, []) := by
    decide +kernel
  exact ⟨hr, (tkvprintf_renders sampleFormat _ [] sampleText hr).mpr (by decide)⟩

def widest : Directive := ⟨[], 2147483647, by decide, .int, .d⟩

theorem length_widest : (widest.signedText 0#64).length = 2147483647 := by
  unfold Directive.signedText
  rw [length_field]
  rfl

/-- Two numbers in the widest fields are more characters than an `int` counts. -/
theorem widest_twice_miscounted : ∃ out rest,
    tkvprintf (formatText [.conv widest, .conv widest]) [.int 0#64, .int 0#64] = some (out, rest) ∧
      out.chars.length = 4294967294 ∧ out.count = -2 := by
  have hpiece (args : List Arg) : (Piece.conv widest).render (.int 0#64 :: args) =
      some (widest.signedText 0#64, args) := rfl
  have hlen : (widest.signedText 0#64).length < 2 ^ 31 := by
    rw [length_widest]
    decide
  have hrun : tkvprintf (formatText [.conv widest, .conv widest]) [.int 0#64, .int 0#64] =
      some (emitted (widest.signedText 0#64 ++ widest.signedText 0#64), []) := by
    have htext : formatText [.conv widest, .conv widest] =
        (Piece.conv widest).text ++ ((Piece.conv widest).text ++ []) := rfl
    obtain ⟨cs₁, hloop₁, hcs₁⟩ := loop_piece (hpiece [.int 0#64]) ((Piece.conv widest).text ++ []) []
    obtain ⟨cs₂, hloop₂, hcs₂⟩ := loop_piece (hpiece []) [] cs₁
    rw [tkvprintf, htext]
    refine (hloop₁.trans hloop₂).trans ?_
    rw [hcs₂ hlen, hcs₁ hlen, List.nil_append, tkvprintfLoop]
  have htwice : (widest.signedText 0#64 ++ widest.signedText 0#64).length = 4294967294 := by
    rw [List.length_append, length_widest]
  generalize widest.signedText 0#64 ++ widest.signedText 0#64 = r at hrun htwice
  refine ⟨_, _, hrun, htwice, ?_⟩
  unfold emitted
  rw [htwice]
  rfl

end Runs

end SeedOS.Printf
