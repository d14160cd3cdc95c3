import Mathlib.Data.List.Pairwise
import Mathlib.Tactic.Ring

namespace SeedOS.Foundation

variable {B : Type*}

def Tiles (addr size : B → ℕ) : ℕ → List B → ℕ → Prop
  | a, [], e => a = e
  | a, b :: l, e => addr b = a ∧ Tiles addr size (a + size b) l e

variable {addr size : B → ℕ} {a e : ℕ} {l : List B}

theorem tiles_append {l₁ l₂ : List B} :
    Tiles addr size a (l₁ ++ l₂) e ↔ ∃ m, Tiles addr size a l₁ m ∧ Tiles addr size m l₂ e := by
  induction l₁ generalizing a with
  | nil => simp [Tiles]
  | cons b l₁ ih => simp [Tiles, ih, and_assoc]

namespace Tiles

section

variable (h : Tiles addr size a l e)
include h

theorem le : a ≤ e := by
  induction l generalizing a with
  | nil => exact Nat.le_of_eq h
  | cons b l ih =>
    have := ih h.2
    omega

theorem bounds {b : B} (hb : b ∈ l) : a ≤ addr b ∧ addr b + size b ≤ e := by
  induction l generalizing a with
  | nil => simp at hb
  | cons c l ih =>
    obtain ⟨hc, hl⟩ := h
    rcases List.mem_cons.mp hb with rfl | hb
    · have := hl.le
      omega
    · have := ih hl hb
      omega

theorem pairwise : l.Pairwise fun b c ↦ addr b + size b ≤ addr c := by
  induction l generalizing a with
  | nil => exact .nil
  | cons b l ih =>
    obtain ⟨hb, hl⟩ := h
    refine .cons (fun c hc ↦ ?_) (ih hl)
    have := (hl.bounds hc).1
    omega

theorem next {b : B} (hb : b ∈ l) : addr b + size b = e ∨ ∃ c ∈ l, addr c = addr b + size b := by
  obtain ⟨l₁, l₂, rfl⟩ := List.append_of_mem hb
  obtain ⟨m, _, hm, hl⟩ := tiles_append.mp h
  cases l₂ with
  | nil => exact .inl (by rw [hm]; exact hl)
  | cons c l₂ => exact .inr ⟨c, by simp, by rw [hm]; exact hl.1⟩

theorem apart {b c : B} (hb : b ∈ l) (hc : c ∈ l) (hne : b ≠ c) :
    addr b + size b ≤ addr c ∨ addr c + size c ≤ addr b := by
  have hsym : Std.Symm fun b c : B ↦ addr b + size b ≤ addr c ∨ addr c + size c ≤ addr b :=
    ⟨fun _ _ ↦ Or.symm⟩
  have hpair : l.Pairwise fun b c ↦ addr b + size b ≤ addr c ∨ addr c + size c ≤ addr b :=
    h.pairwise.imp fun hbc ↦ Or.inl hbc
  exact hpair.forall hb hc hne

theorem sum_eq : a + (l.map size).sum = e := by
  induction l generalizing a with
  | nil => exact h
  | cons b l ih =>
    have := ih h.2
    rw [List.map_cons, List.sum_cons]
    omega

theorem length_mul_le {k : ℕ} (hk : ∀ b ∈ l, k ≤ size b) : a + k * l.length ≤ e := by
  induction l generalizing a with
  | nil => simpa using h.le
  | cons b l ih =>
    have htail := ih h.2 fun c hc ↦ hk c (by simp [hc])
    have hb := hk b (by simp)
    rw [List.length_cons, Nat.mul_add]
    omega

end

end Tiles

end SeedOS.Foundation
