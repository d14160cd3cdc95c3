import Mathlib.Logic.Basic

namespace SeedOS.Foundation

/-- A value together with the accesses made to compute it, in order. -/
structure Traced (A α : Type) where
  val : α
  log : List A

namespace Traced

variable {A α β : Type}

instance : Monad (Traced A) where
  pure x := ⟨x, []⟩
  bind t f := ⟨(f t.val).val, t.log ++ (f t.val).log⟩

def touch (a : A) (x : α) : Traced A α := ⟨x, [a]⟩

@[simp] theorem val_pure (x : α) : (pure x : Traced A α).val = x := rfl

@[simp] theorem log_pure (x : α) : (pure x : Traced A α).log = [] := rfl

@[simp] theorem val_bind (t : Traced A α) (f : α → Traced A β) :
    (t >>= f).val = (f t.val).val := rfl

@[simp] theorem log_bind (t : Traced A α) (f : α → Traced A β) :
    (t >>= f).log = t.log ++ (f t.val).log := rfl

@[simp] theorem val_touch (a : A) (x : α) : (touch a x).val = x := rfl

theorem val_touch_bind (a : A) (x : α) (f : α → Traced A β) :
    (touch a x >>= f).val = (f x).val := rfl

@[simp] theorem log_touch (a : A) (x : α) : (touch a x).log = [a] := rfl

@[simp] theorem val_ite (c : Prop) [Decidable c] (t u : Traced A α) :
    (if c then t else u).val = if c then t.val else u.val := apply_ite val c t u

def All (P : A → Prop) (t : Traced A α) : Prop := ∀ a ∈ t.log, P a

variable {P : A → Prop}

@[simp] theorem all_pure (x : α) : All P (pure x : Traced A α) := by
  intro a ha
  simp at ha

@[simp] theorem all_touch (a : A) (x : α) : All P (touch a x) ↔ P a := by
  simp [All]

@[simp] theorem all_bind (t : Traced A α) (f : α → Traced A β) :
    All P (t >>= f) ↔ All P t ∧ All P (f t.val) := by
  simp only [All, log_bind, List.mem_append]
  constructor
  · exact fun h ↦ ⟨fun a ha ↦ h a (.inl ha), fun a ha ↦ h a (.inr ha)⟩
  · rintro ⟨h₁, h₂⟩ a (ha | ha)
    · exact h₁ a ha
    · exact h₂ a ha

theorem all_touch_bind (a : A) (x : α) (f : α → Traced A β) :
    All P (touch a x >>= f) ↔ P a ∧ All P (f x) := by
  rw [all_bind, all_touch]
  rfl

end Traced

end SeedOS.Foundation
