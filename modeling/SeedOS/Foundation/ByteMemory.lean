import Mathlib.Data.Nat.Bitwise
import Mathlib.Tactic.Ring

namespace SeedOS.Foundation

abbrev ByteMem := ℕ → BitVec 8

/-- The `n` bytes at `a`, least significant first. -/
def loadBytes (m : ByteMem) : ℕ → ℕ → ℕ
  | _, 0 => 0
  | a, n + 1 => (m a).toNat + 256 * loadBytes m (a + 1) n

def storeBytes (m : ByteMem) (a v n : ℕ) : ByteMem := fun x ↦
  if a ≤ x ∧ x < a + n then BitVec.ofNat 8 (v / 256 ^ (x - a)) else m x

section

variable {m m' : ByteMem} {a b v n k : ℕ}

theorem loadBytes_congr (h : ∀ x, a ≤ x → x < a + n → m' x = m x) :
    loadBytes m' a n = loadBytes m a n := by
  induction n generalizing a with
  | zero => rfl
  | succ n ih =>
    rw [loadBytes, loadBytes, h a (by omega) (by omega),
      ih fun x hx hx' ↦ h x (by omega) (by omega)]

theorem loadBytes_lt (m : ByteMem) (a n : ℕ) : loadBytes m a n < 256 ^ n := by
  induction n generalizing a with
  | zero => simp [loadBytes]
  | succ n ih =>
    have hbyte := (m a).isLt
    have htail := ih (a + 1)
    rw [loadBytes, pow_succ]
    omega

theorem loadBytes_of_digits (h : ∀ i < n, m (a + i) = BitVec.ofNat 8 (v / 256 ^ i)) :
    loadBytes m a n = v % 256 ^ n := by
  induction n generalizing a v with
  | zero => simp [loadBytes, Nat.mod_one]
  | succ n ih =>
    have htail : loadBytes m (a + 1) n = v / 256 % 256 ^ n := by
      refine ih fun i hi ↦ ?_
      rw [Nat.div_div_eq_div_mul, ← pow_succ', show a + 1 + i = a + (i + 1) by omega]
      exact h (i + 1) (by omega)
    have hhead : (m a).toNat = v % 256 := by
      have := h 0 (by omega)
      simpa using congrArg BitVec.toNat this
    rw [loadBytes, hhead, htail, pow_succ', Nat.mod_mul]

theorem loadBytes_storeBytes_self : loadBytes (storeBytes m a v n) a n = v % 256 ^ n := by
  refine loadBytes_of_digits fun i hi ↦ ?_
  rw [storeBytes, if_pos ⟨by omega, by omega⟩, show a + i - a = i by omega]

theorem storeBytes_of_outside {x : ℕ} (h : x < a ∨ a + n ≤ x) : storeBytes m a v n x = m x :=
  if_neg (by omega)

theorem loadBytes_storeBytes_of_disjoint (h : b + k ≤ a ∨ a + n ≤ b) :
    loadBytes (storeBytes m a v n) b k = loadBytes m b k :=
  loadBytes_congr fun _ _ _ ↦ storeBytes_of_outside (by omega)

end

end SeedOS.Foundation
