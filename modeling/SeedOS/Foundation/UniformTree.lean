import Mathlib.Tactic.Ring

namespace SeedOS.Foundation

variable {α : Type}

section FlatMap

variable {f : ℕ → List α} {m : ℕ}

theorem length_flatMap_range (hlen : ∀ i, (f i).length = m) (n : ℕ) :
    ((List.range n).flatMap f).length = n * m := by
  induction n with
  | zero => simp
  | succ n ih =>
    rw [List.range_succ, List.flatMap_append, List.length_append, ih, List.flatMap_singleton, hlen,
      Nat.succ_mul]

theorem getElem?_flatMap_range (hlen : ∀ i, (f i).length = m) {n k : ℕ} (hk : k < n * m) :
    ((List.range n).flatMap f)[k]? = (f (k / m))[k % m]? := by
  induction n with
  | zero => simp at hk
  | succ n ih =>
    rw [List.range_succ, List.flatMap_append, List.flatMap_singleton]
    by_cases hlt : k < n * m
    · rw [List.getElem?_append_left (by rwa [length_flatMap_range hlen]), ih hlt]
    · obtain ⟨r, rfl⟩ : ∃ r, k = m * n + r := ⟨k - m * n, by rw [Nat.mul_comm]; omega⟩
      have hr : r < m := by
        rw [Nat.succ_mul, Nat.mul_comm n] at hk
        omega
      rw [List.getElem?_append_right (by rw [length_flatMap_range hlen, Nat.mul_comm]; omega),
        length_flatMap_range hlen, Nat.mul_add_div (by omega), Nat.div_eq_of_lt hr,
        Nat.mul_add_mod, Nat.mod_eq_of_lt hr, Nat.mul_comm n, Nat.add_sub_cancel_left, Nat.add_zero]

end FlatMap

variable (child : α → ℕ → α) (n : ℕ)

/-- The leaves, in order, of a tree of depth `d` whose nodes have `n` children each. -/
def leaves : ℕ → α → List α
  | 0, a => [a]
  | d + 1, a => (List.range n).flatMap fun i ↦ leaves d (child a i)

/-- The way down to leaf `k`: which child to take at each node. -/
def wayTo : ℕ → ℕ → List ℕ
  | 0, _ => []
  | d + 1, k => k / n ^ d :: wayTo d (k % n ^ d)

theorem length_leaves (d : ℕ) (a : α) : (leaves child n d a).length = n ^ d := by
  induction d generalizing a with
  | zero => rfl
  | succ d ih => rw [leaves, length_flatMap_range fun i ↦ ih (child a i), Nat.pow_succ, Nat.mul_comm]

theorem leaves_getElem? {d k : ℕ} (hk : k < n ^ d) (a : α) :
    (leaves child n d a)[k]? = some ((wayTo n d k).foldl child a) := by
  induction d generalizing k a with
  | zero =>
    obtain rfl : k = 0 := Nat.lt_one_iff.mp hk
    rfl
  | succ d ih =>
    rw [Nat.pow_succ, Nat.mul_comm] at hk
    have hpos : 0 < n ^ d := Nat.pos_of_ne_zero fun h ↦ by simp [h] at hk
    rw [leaves, getElem?_flatMap_range (fun i ↦ length_leaves child n d (child a i)) hk,
      ih (Nat.mod_lt _ hpos), wayTo, List.foldl_cons]

end SeedOS.Foundation
