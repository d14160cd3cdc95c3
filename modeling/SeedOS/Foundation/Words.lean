import Mathlib.Data.Nat.Bitwise
import Mathlib.Tactic.Ring

namespace SeedOS.Foundation

abbrev Word := BitVec 64

def hasFlag (e flag : Word) : Bool := e &&& flag != 0#64

theorem hasFlag_iff {e flag : Word} : hasFlag e flag = true ↔ e &&& flag ≠ 0#64 := by
  simp [hasFlag]

theorem hasFlag_zero (flag : Word) : hasFlag 0#64 flag = false := by
  simp [hasFlag]

theorem hasFlag_or (a b flag : Word) :
    hasFlag (a ||| b) flag = (hasFlag a flag || hasFlag b flag) := by
  rw [Bool.eq_iff_iff, Bool.or_eq_true, hasFlag_iff, hasFlag_iff, hasFlag_iff,
    BitVec.and_or_distrib_right, ne_eq, BitVec.or_eq_zero_iff, not_and_or]

theorem hasFlag_and_of_subset (a mask flag : Word) (h : mask &&& flag = flag) :
    hasFlag (a &&& mask) flag = hasFlag a flag := by
  rw [hasFlag, hasFlag, BitVec.and_assoc, h]

theorem hasFlag_and_of_disjoint (a mask flag : Word) (h : mask &&& flag = 0#64) :
    hasFlag (a &&& mask) flag = false := by
  simp [hasFlag, BitVec.and_assoc, h]

theorem hasFlag_self (flag : Word) (h : flag ≠ 0#64) : hasFlag flag flag = true := by
  simpa [hasFlag] using h

theorem field_of_or (a b mask : Word) (ha : a &&& mask = a) (hb : b &&& mask = 0#64) :
    (a ||| b) &&& mask = a := by
  rw [BitVec.and_or_distrib_right, ha, hb, BitVec.or_zero]

theorem rest_of_or (a b mask : Word) (ha : a &&& mask = a) (hb : b &&& mask = 0#64) :
    (a ||| b) &&& ~~~mask = b := by
  apply BitVec.eq_of_getLsbD_eq
  intro i hi
  have ha' := congrArg (fun w ↦ BitVec.getLsbD w i) ha
  have hb' := congrArg (fun w ↦ BitVec.getLsbD w i) hb
  simp only [BitVec.getLsbD_and, BitVec.getLsbD_or, BitVec.getLsbD_not, hi, decide_true,
    Bool.true_and, BitVec.getLsbD_zero] at *
  generalize a.getLsbD i = x at *
  generalize b.getLsbD i = y at *
  generalize mask.getLsbD i = z at *
  cases x <;> cases y <;> cases z <;> simp_all

theorem and_not_and (a mask : Word) : (a &&& ~~~mask) &&& mask = 0#64 := by
  simp [BitVec.and_assoc]

theorem toNat_clearLow (x : Word) {k : ℕ} (hk : k < 64) :
    (x &&& ~~~(BitVec.ofNat 64 (2 ^ k - 1))).toNat = x.toNat - x.toNat % 2 ^ k := by
  generalize hm : BitVec.ofNat 64 (2 ^ k - 1) = m
  have hdisj : (x &&& ~~~m) &&& (x &&& m) = 0#64 := by
    rw [BitVec.and_comm x m, ← BitVec.and_assoc, and_not_and, BitVec.zero_and]
  have hor : (x &&& ~~~m) ||| (x &&& m) = x := by
    rw [← BitVec.and_or_distrib_left, BitVec.or_comm, BitVec.or_not_self, BitVec.and_allOnes]
  have hadd := BitVec.add_eq_or_of_and_eq_zero _ _ hdisj
  have hsub := BitVec.add_sub_cancel (x &&& ~~~m) (x &&& m)
  rw [hadd, hor] at hsub
  have hlow : (x &&& m).toNat = x.toNat % 2 ^ k := by
    have hlt : 2 ^ k < 2 ^ 64 := Nat.pow_lt_pow_right (by decide) hk
    rw [← hm, BitVec.toNat_and, BitVec.toNat_ofNat, Nat.mod_eq_of_lt (by omega),
      Nat.and_two_pow_sub_one_eq_mod]
  have hle : x &&& m ≤ x := by
    rw [BitVec.le_def, hlow]
    exact Nat.mod_le _ _
  rw [← hsub, BitVec.toNat_sub_of_le hle, hlow]

def pageOf (a : Word) : ℕ := a.toNat / 4096

def pageAddr (f : ℕ) : Word := BitVec.ofNat 64 (f * 4096)

theorem pageAddr_toNat {f : ℕ} (hf : f < 2 ^ 52) : (pageAddr f).toNat = f * 4096 := by
  simp only [pageAddr, BitVec.toNat_ofNat]
  omega

theorem pageOf_pageAddr {f : ℕ} (hf : f < 2 ^ 52) : pageOf (pageAddr f) = f := by
  rw [pageOf, pageAddr_toNat hf]
  omega

theorem pageAddr_ne_zero {f : ℕ} (h : 0 < f) (hf : f < 2 ^ 52) : pageAddr f ≠ 0#64 := by
  intro he
  have hn := congrArg BitVec.toNat he
  rw [pageAddr_toNat hf] at hn
  simp only [BitVec.toNat_zero] at hn
  omega

theorem pageAddr_injective {f g : ℕ} (hf : f < 2 ^ 52) (hg : g < 2 ^ 52)
    (h : pageAddr f = pageAddr g) : f = g := by
  rw [← pageOf_pageAddr hf, ← pageOf_pageAddr hg, h]

/-- Byte `k` of a word, in little-endian order. -/
def byteOf (w : Word) (k : ℕ) : BitVec 8 := w.extractLsb' (8 * k) 8

def setByte (w : Word) (k : ℕ) (b : BitVec 8) : Word :=
  w &&& ~~~(0xFF#64 <<< (8 * k)) ||| b.setWidth 64 <<< (8 * k)

theorem getLsbD_ff (j : ℕ) : (0xFF#64).getLsbD j = decide (j < 8) := by
  have h : (0xFF#64) = (BitVec.allOnes 8).setWidth 64 := by decide
  rw [h, BitVec.getLsbD_setWidth, BitVec.getLsbD_allOnes]
  by_cases hj : j < 8
  · simp [hj, show j < 64 by omega]
  · simp [hj]

theorem byteOf_setByte (w : Word) {j k : ℕ} (hj : j < 8) (hk : k < 8) (b : BitVec 8) :
    byteOf (setByte w k b) j = if j = k then b else byteOf w j := by
  apply BitVec.eq_of_getLsbD_eq
  intro i hi
  have hlt : 8 * j + i < 64 := by omega
  rw [byteOf, BitVec.getLsbD_extractLsb', setByte]
  simp only [hi, hlt, decide_true, Bool.true_and, BitVec.getLsbD_or, BitVec.getLsbD_and,
    BitVec.getLsbD_not, BitVec.getLsbD_shiftLeft, getLsbD_ff,
    BitVec.getLsbD_setWidth]
  by_cases hjk : j = k
  · subst hjk
    simp [hi, show i < 64 by omega, show ¬ 8 * j + i < 8 * j by omega]
  · rw [if_neg hjk]
    by_cases hlow : 8 * j + i < 8 * k
    · simp [hlow, byteOf, hi]
    · have hhigh : ¬ 8 * j + i - 8 * k < 8 := by omega
      simp [hlow, hhigh, byteOf, hi,
        BitVec.getLsbD_of_ge b (8 * j + i - 8 * k) (by omega)]

end SeedOS.Foundation
