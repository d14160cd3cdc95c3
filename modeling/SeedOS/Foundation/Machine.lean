import Mathlib.Logic.Relation

namespace SeedOS.Foundation

variable {S A : Type*}

/-- One step of a machine that executes actions, each when it is enabled. -/
def Via (exec : S → A → S) (enabled : S → A → Prop) (s s' : S) : Prop :=
  ∃ a, enabled s a ∧ exec s a = s'

abbrev Runs (exec : S → A → S) (enabled : S → A → Prop) : S → S → Prop :=
  Relation.ReflTransGen (Via exec enabled)

namespace Runs

variable {exec : S → A → S} {enabled enabled' : S → A → Prop} {s s' : S}

theorem step (h : Runs exec enabled s s') {a : A} (ha : enabled s' a) :
    Runs exec enabled s (exec s' a) :=
  Relation.ReflTransGen.tail h ⟨a, ha, rfl⟩

theorem invariant (h : Runs exec enabled s s') {I : S → Prop} (h₀ : I s)
    (hstep : ∀ s a, I s → enabled s a → I (exec s a)) : I s' := by
  induction h with
  | refl => exact h₀
  | tail _ hlast ih =>
    obtain ⟨a, ha, rfl⟩ := hlast
    exact hstep _ a ih ha

end Runs

/-- The states that a machine reaches whose actions may have no result. -/
abbrev PartialRuns (exec : S → A → Option S) (enabled : S → A → Prop) : S → S → Prop :=
  Relation.ReflTransGen fun s s' ↦ ∃ a, enabled s a ∧ exec s a = some s'

namespace PartialRuns

variable {exec : S → A → Option S} {enabled : S → A → Prop} {s s' s'' : S}

theorem step (h : PartialRuns exec enabled s s') {a : A} (ha : enabled s' a)
    (he : exec s' a = some s'') : PartialRuns exec enabled s s'' :=
  Relation.ReflTransGen.tail h ⟨a, ha, he⟩

theorem step_getD (h : PartialRuns exec enabled s s') {a : A} (ha : enabled s' a)
    (he : (exec s' a).isSome) (d : S) : PartialRuns exec enabled s ((exec s' a).getD d) := by
  obtain ⟨s'', he⟩ := Option.isSome_iff_exists.mp he
  rw [he, Option.getD_some]
  exact h.step ha he

theorem invariant (h : PartialRuns exec enabled s s') {I : S → Prop} (h₀ : I s)
    (hstep : ∀ s a s', I s → enabled s a → exec s a = some s' → I s') : I s' := by
  induction h with
  | refl => exact h₀
  | tail _ hlast ih =>
    obtain ⟨a, ha, he⟩ := hlast
    exact hstep _ a _ ih ha he

/-- Execute a list of actions, as long as each is enabled and has a result. -/
def replay (exec : S → A → Option S) (enabled : S → A → Prop) [∀ s a, Decidable (enabled s a)] :
    S → List A → Option S
  | s, [] => some s
  | s, a :: l => if enabled s a then (exec s a).bind fun s' ↦ replay exec enabled s' l else none

theorem of_replay [∀ s a, Decidable (enabled s a)] {l : List A}
    (h : replay exec enabled s l = some s') : PartialRuns exec enabled s s' := by
  induction l generalizing s with
  | nil =>
    rw [replay] at h
    exact Option.some.inj h ▸ .refl
  | cons a l ih =>
    rw [replay] at h
    split at h
    next ha =>
      obtain ⟨s₁, he, hl⟩ := Option.bind_eq_some_iff.mp h
      exact .head ⟨a, ha, he⟩ (ih hl)
    next => simp at h

end PartialRuns

end SeedOS.Foundation
