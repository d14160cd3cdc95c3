import Mathlib.Algebra.BigOperators.Group.Finset.Piecewise
import Mathlib.Algebra.BigOperators.Group.Finset.Basic
import Mathlib.Data.Fintype.Prod

namespace SeedOS.Foundation

open Function Finset

variable {P I F : Type*} [Fintype P] [Fintype I] [DecidableEq P] [DecidableEq I] [DecidableEq F]

/-- How many entries of a family of tables refer to `f`. -/
def uses (T : P → I → Option F) (f : F) : ℕ := ∑ x : P × I, if T x.1 x.2 = some f then 1 else 0

def setEntry (T : P → I → Option F) (p : P) (i : I) (e : Option F) : P → I → Option F :=
  update T p (update (T p) i e)

variable (T : P → I → Option F) (p : P) (i : I) (e : Option F) (f : F)

omit [Fintype P] [Fintype I] [DecidableEq F] in
theorem setEntry_apply (q : P) (j : I) :
    setEntry T p i e q j = if q = p ∧ j = i then e else T q j := by
  unfold setEntry
  by_cases hq : q = p
  · subst hq
    by_cases hj : j = i
    · subst hj; simp
    · simp [hj]
  · simp [hq]

theorem uses_setEntry : uses (setEntry T p i e) f + (if T p i = some f then 1 else 0) =
    uses T f + (if e = some f then 1 else 0) := by
  have hfun : (fun x : P × I ↦ if setEntry T p i e x.1 x.2 = some f then 1 else 0) =
      update (fun x : P × I ↦ if T x.1 x.2 = some f then 1 else 0) (p, i)
        (if e = some f then 1 else 0) := by
    funext ⟨q, j⟩
    rw [setEntry_apply]
    by_cases hx : q = p ∧ j = i
    · obtain ⟨rfl, rfl⟩ := hx
      simp
    · rw [if_neg hx, update_of_ne (by simpa using hx)]
  rw [uses, hfun, sum_update_of_mem (mem_univ _), uses,
    sum_eq_add_sum_sdiff_singleton_of_mem (mem_univ (p, i))
      (fun x : P × I ↦ if T x.1 x.2 = some f then 1 else 0)]
  dsimp only
  omega

theorem uses_pos {T : P → I → Option F} {p : P} {i : I} {f : F} (h : T p i = some f) :
    0 < uses T f := by
  have hset := uses_setEntry T p i none f
  rw [if_pos h, if_neg (by simp)] at hset
  omega

omit [DecidableEq P] [DecidableEq I] in
theorem uses_le {T : P → I → Option F} (s : Finset P) (hs : ∀ p i f, T p i = some f → p ∈ s)
    (f : F) : uses T f ≤ s.card * Fintype.card I := by
  calc uses T f = (univ.filter fun x : P × I ↦ T x.1 x.2 = some f).card := by
        rw [uses, card_filter]
    _ ≤ (s ×ˢ (univ : Finset I)).card := card_le_card fun x hx ↦
        mem_product.mpr ⟨hs _ _ _ (mem_filter.mp hx).2, mem_univ _⟩
    _ = s.card * Fintype.card I := by rw [card_product, card_univ]

end SeedOS.Foundation
