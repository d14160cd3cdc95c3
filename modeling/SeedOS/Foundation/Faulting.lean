import Mathlib.Data.Nat.Notation
import Mathlib.Logic.Relation

namespace SeedOS.Foundation

/-- A computation that makes accesses and may stop without a value, by a fault or
because it does not end. -/
structure Faulting (A α : Type) where
  val : Option α
  log : List A

namespace Faulting

variable {A α β : Type} {P : A → Prop}

instance : Monad (Faulting A) where
  pure x := ⟨some x, []⟩
  bind t f :=
    match t.val with
    | none => ⟨none, t.log⟩
    | some x => ⟨(f x).val, t.log ++ (f x).log⟩

def fault : Faulting A α := ⟨none, []⟩

def touch (a : A) (x : α) : Faulting A α := ⟨some x, [a]⟩

def All (P : A → Prop) (t : Faulting A α) : Prop := ∀ a ∈ t.log, P a

@[simp] theorem val_pure (x : α) : (pure x : Faulting A α).val = some x := by rfl

@[simp] theorem val_fault : (fault : Faulting A α).val = none := by rfl

@[simp] theorem val_touch (a : A) (x : α) : (touch a x).val = some x := by rfl

@[simp] theorem val_bind (t : Faulting A α) (f : α → Faulting A β) :
    (t >>= f).val = t.val.bind fun x ↦ (f x).val := by
  cases h : t.val with
  | none => simp [bind, h]
  | some x => simp [bind, h]

theorem pure_bind (x : α) (f : α → Faulting A β) : pure x >>= f = f x := by
  simp [bind, pure]

theorem bind_assoc {γ : Type} (t : Faulting A α) (f : α → Faulting A β) (g : β → Faulting A γ) :
    t >>= f >>= g = t >>= fun x ↦ f x >>= g := by
  cases h : t.val with
  | none => simp [bind, h]
  | some x => cases h' : (f x).val <;> simp [bind, h, h']

@[simp] theorem all_pure (x : α) : All P (pure x : Faulting A α) := by
  intro a ha
  simp [pure] at ha

@[simp] theorem all_fault : All P (fault : Faulting A α) := by
  intro a ha
  simp [fault] at ha

@[simp] theorem all_touch (a : A) (x : α) : All P (touch a x) ↔ P a := by
  simp [All, touch]

/-- A sequence of two computations is safe exactly when the first is and the second is
on what the first returns. -/
theorem all_bind (t : Faulting A α) (f : α → Faulting A β) :
    All P (t >>= f) ↔ All P t ∧ ∀ x, t.val = some x → All P (f x) := by
  cases h : t.val with
  | none => simp [bind, All, h]
  | some x =>
    simp only [bind, All, h, List.mem_append, Option.some.injEq, forall_eq']
    constructor
    · exact fun hall ↦ ⟨fun a ha ↦ hall a (.inl ha), fun a ha ↦ hall a (.inr ha)⟩
    · rintro ⟨h₁, h₂⟩ a (ha | ha)
      · exact h₁ a ha
      · exact h₂ a ha

section Loop

variable {S R : Type}

/-- A loop that goes from state to state until it has a result. -/
def iterate (step : S → Faulting A (S ⊕ R)) : ℕ → S → Faulting A R
  | 0, _ => fault
  | fuel + 1, s => do
    match ← step s with
    | .inl s => iterate step fuel s
    | .inr r => pure r

abbrev Goes (step : S → Faulting A (S ⊕ R)) : S → S → Prop :=
  Relation.ReflTransGen fun s s' ↦ (step s).val = some (.inl s')

variable {step : S → Faulting A (S ⊕ R)} {s : S}

theorem all_iterate_succ (fuel : ℕ) : All P (iterate step (fuel + 1) s) ↔
    All P (step s) ∧ ∀ s', (step s).val = some (.inl s') → All P (iterate step fuel s') := by
  rw [iterate, all_bind]
  refine and_congr_right fun _ ↦ ⟨fun h s' hs' ↦ h _ hs', fun h x hx ↦ ?_⟩
  cases x with
  | inl s' => exact h s' hx
  | inr r => exact all_pure r

theorem all_iterate : (∀ fuel, All P (iterate step fuel s)) ↔
    ∀ s', Goes step s s' → All P (step s') := by
  constructor
  · intro h s' hs
    induction hs using Relation.ReflTransGen.head_induction_on with
    | refl => exact ((all_iterate_succ 0).mp (h 1)).1
    | head hstep _ ih => exact ih fun fuel ↦ ((all_iterate_succ fuel).mp (h (fuel + 1))).2 _ hstep
  · intro h fuel
    induction fuel generalizing s with
    | zero => exact all_fault
    | succ fuel ih =>
      exact (all_iterate_succ fuel).mpr ⟨h s .refl, fun s' hs' ↦
        ih fun s'' hs'' ↦ h s'' (.head hs' hs'')⟩

theorem all_iterate_mono {m n : ℕ} (h : m ≤ n) (hall : All P (iterate step n s)) :
    All P (iterate step m s) := by
  induction n generalizing m s with
  | zero =>
    obtain rfl := Nat.le_zero.mp h
    exact hall
  | succ n ih =>
    cases m with
    | zero => exact all_fault
    | succ m =>
      rw [all_iterate_succ] at hall ⊢
      exact ⟨hall.1, fun s' hs' ↦ ih (Nat.le_of_succ_le_succ h) (hall.2 s' hs')⟩

theorem iterate_stable {m n : ℕ} (h : m ≤ n) {r : R} (hr : (iterate step m s).val = some r) :
    iterate step n s = iterate step m s := by
  induction m generalizing n s with
  | zero => simp [iterate] at hr
  | succ m ih =>
    obtain ⟨n, rfl⟩ : ∃ k, n = k + 1 := ⟨n - 1, (Nat.succ_pred (Nat.ne_zero_of_lt h)).symm⟩
    rw [iterate, val_bind] at hr
    obtain ⟨x, hx, hr⟩ := Option.bind_eq_some_iff.mp hr
    cases x with
    | inl s' => simp only [iterate, bind, hx, ih (Nat.le_of_succ_le_succ h) hr]
    | inr r' => simp only [iterate, bind, hx]

theorem val_iterate_mono {m n : ℕ} (h : m ≤ n) {r : R} (hr : (iterate step m s).val = some r) :
    (iterate step n s).val = some r := by
  rw [iterate_stable h hr, hr]

theorem all_iterate_of_val {n : ℕ} {r : R} (hr : (iterate step n s).val = some r) :
    All P (iterate step n s) ↔ ∀ s', Goes step s s' → All P (step s') := by
  rw [← all_iterate]
  refine ⟨fun h fuel ↦ ?_, fun h ↦ h n⟩
  rcases Nat.le_total fuel n with hle | hle
  · exact all_iterate_mono hle h
  · rwa [iterate_stable hle hr]

theorem val_iterate {r : R} : (∃ fuel, (iterate step fuel s).val = some r) ↔
    ∃ s', Goes step s s' ∧ (step s').val = some (.inr r) := by
  constructor
  · rintro ⟨fuel, hr⟩
    induction fuel generalizing s with
    | zero => simp [iterate] at hr
    | succ fuel ih =>
      rw [iterate, val_bind] at hr
      obtain ⟨x, hx, hr⟩ := Option.bind_eq_some_iff.mp hr
      cases x with
      | inl s' =>
        obtain ⟨s'', hgo, hs''⟩ := ih hr
        exact ⟨s'', .head hx hgo, hs''⟩
      | inr r' =>
        rw [val_pure, Option.some.injEq] at hr
        exact ⟨s, .refl, hr ▸ hx⟩
  · rintro ⟨s', hgo, hs'⟩
    induction hgo using Relation.ReflTransGen.head_induction_on with
    | refl => exact ⟨1, by rw [iterate, val_bind, hs', Option.bind_some, val_pure]⟩
    | head hstep _ ih =>
      obtain ⟨fuel, hr⟩ := ih
      exact ⟨fuel + 1, by rw [iterate, val_bind, hstep, Option.bind_some, hr]⟩

/-- The loop comes to a result or to a fault in at most `fuel` rounds. -/
def EndsWithin (step : S → Faulting A (S ⊕ R)) : ℕ → S → Prop
  | 0, _ => False
  | fuel + 1, s => ∀ s', (step s).val = some (.inl s') → EndsWithin step fuel s'

theorem endsWithin_of_measure {I : S → Prop} (μ : S → ℕ)
    (hstep : ∀ s s', I s → (step s).val = some (.inl s') → I s' ∧ μ s' < μ s) {fuel : ℕ}
    (hs : I s) (hfuel : μ s < fuel) : EndsWithin step fuel s := by
  induction fuel generalizing s with
  | zero => omega
  | succ fuel ih =>
    intro s' hs'
    obtain ⟨hI, hlt⟩ := hstep s s' hs hs'
    exact ih hI (by omega)

theorem endsWithin_of_goes {s' : S} (hgo : Goes step s s') {fuel : ℕ}
    (hends : EndsWithin step fuel s) : ∃ fuel', EndsWithin step fuel' s' := by
  induction hgo generalizing fuel with
  | refl => exact ⟨fuel, hends⟩
  | tail _ hlast ih =>
    obtain ⟨fuel', hends'⟩ := ih hends
    cases fuel' with
    | zero => exact absurd hends' id
    | succ fuel' => exact ⟨fuel', hends' _ hlast⟩

theorem not_endsWithin {I : S → Prop}
    (hstep : ∀ s, I s → ∃ s', (step s).val = some (.inl s') ∧ I s')
    (fuel : ℕ) (hs : I s) : ¬ EndsWithin step fuel s := by
  induction fuel generalizing s with
  | zero => exact id
  | succ fuel ih =>
    intro hends
    obtain ⟨s', hs', hI⟩ := hstep s hs
    exact ih hI (hends s' hs')

end Loop

end Faulting

end SeedOS.Foundation
