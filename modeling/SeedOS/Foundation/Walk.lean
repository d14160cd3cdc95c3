import SeedOS.Foundation.Forest
import Mathlib.Data.Set.Card
import Mathlib.Data.Set.Finite.List

namespace SeedOS.Foundation

variable {F I E : Type} {next : E → Option F} {m m' : F → I → E} {t c f : F} {p : List I} {i : I}

def entryAt (next : E → Option F) (m : F → I → E) : F → List I → Option E
  | _, [] => none
  | t, [i] => some (m t i)
  | t, i :: j :: p => (next (m t i)).bind fun t' ↦ entryAt next m t' (j :: p)

theorem entryAt_cons (hp : p ≠ []) :
    entryAt next m t (i :: p) = (next (m t i)).bind fun t' ↦ entryAt next m t' p := by
  cases p with
  | nil => exact absurd rfl hp
  | cons j p => rfl

theorem entryAt_concat (p : List I) (i : I) :
    entryAt next m t (p ++ [i]) = (tableAt next m t p).map fun t' ↦ m t' i := by
  induction p generalizing t with
  | nil => rfl
  | cons j p ih =>
    rw [List.cons_append, entryAt_cons (by simp), tableAt, Option.map_bind]
    congr 1
    funext t'
    exact ih

variable {slots : List I}

def Starts (slots : List I) (p : List I) : Prop := ∀ i, p.head? = some i → i ∈ slots

theorem starts_nil : Starts slots [] := by simp [Starts]

theorem starts_cons : Starts slots (i :: p) ↔ i ∈ slots := by simp [Starts]

theorem Starts.mono {slots' : List I} (h : Starts slots p) (hsub : ∀ i ∈ slots, i ∈ slots') :
    Starts slots' p := fun i hi ↦ hsub i (h i hi)

theorem Starts.eq_cons (h : Starts [i] p) (hne : p ≠ []) : ∃ p', p = i :: p' := by
  cases p with
  | nil => exact absurd rfl hne
  | cons j p => exact ⟨p, by rw [List.mem_singleton.mp (starts_cons.mp h)]⟩

theorem Starts.of_concat (h : Starts slots (p ++ [i])) : Starts slots p := by
  cases p with
  | nil => exact starts_nil
  | cons j p => exact starts_cons.mpr (starts_cons.mp h)

section Agree

/-- The two memories agree on the entries down to depth `n` below the slots of `t`. -/
def Agree (next : E → Option F) (m m' : F → I → E) (slots : List I) (n : ℕ) (t : F) : Prop :=
  ∀ q f i, Starts slots (q ++ [i]) → q.length ≤ n → tableAt next m t q = some f → m' f i = m f i

theorem Agree.entry {n : ℕ} (h : Agree next m m' slots n t) (hi : i ∈ slots) : m' t i = m t i :=
  h [] t i (starts_cons.mpr hi) (Nat.zero_le _) rfl

theorem Agree.child {all : List I} {n : ℕ} (h : Agree next m m' slots (n + 1) t) (hi : i ∈ slots)
    (hc : next (m t i) = some c) : Agree next m m' all n c := fun q f j _ hq hf ↦
  h (i :: q) f j (starts_cons.mpr hi) (Nat.succ_le_succ hq) (by rw [tableAt, hc]; exact hf)

theorem Agree.tableAt_eq {n : ℕ} (h : Agree next m m' slots n t) (hp : Starts slots p)
    (hl : p.length ≤ n + 1) : tableAt next m' t p = tableAt next m t p := by
  refine tableAt_congr t p fun q f i hq hf ↦ ?_
  have hlen := hq.length_le
  rw [List.length_append, List.length_singleton] at hlen
  rw [h q f i ?_ (by omega) hf]
  obtain ⟨tail, rfl⟩ := hq
  intro j hj
  refine hp j ?_
  rw [List.head?_append, hj, Option.some_or]

theorem Agree.entryAt_eq {all : List I} (hall : ∀ j, j ∈ all) {n : ℕ}
    (h : Agree next m m' slots n t) (hp : Starts slots p) (hl : p.length ≤ n + 1) :
    entryAt next m' t p = entryAt next m t p := by
  induction n generalizing t p slots with
  | zero =>
    rcases p with _ | ⟨i, _ | ⟨j, p⟩⟩
    · rfl
    · rw [entryAt, entryAt, h.entry (starts_cons.mp hp)]
    · simp at hl
  | succ n ih =>
    rcases p with _ | ⟨i, _ | ⟨j, p⟩⟩
    · rfl
    · rw [entryAt, entryAt, h.entry (starts_cons.mp hp)]
    · rw [entryAt, entryAt, h.entry (starts_cons.mp hp)]
      cases hc : next (m t i) with
      | none => rfl
      | some c =>
        exact ih (h.child (starts_cons.mp hp) hc) (fun j _ ↦ hall j) (by simpa using hl)

end Agree

section Ending

def endingAt (next : E → Option F) (m : F → I → E) (slots : List I) (n : ℕ) (t f : F) :
    Set (List I) :=
  {p | Starts slots p ∧ p.length = n + 1 ∧ tableAt next m t p = some f}

theorem endingAt_nil (n : ℕ) : endingAt next m [] n t f = ∅ := by
  ext p
  simp only [endingAt, Set.mem_ofPred_eq, Set.mem_empty_iff_false, iff_false]
  rintro ⟨hs, hl, _⟩
  cases p with
  | nil => simp at hl
  | cons i p => simpa using starts_cons.mp hs

theorem endingAt_finite [Finite I] (n : ℕ) : (endingAt next m slots n t f).Finite :=
  (List.finite_length_eq I (n + 1)).subset fun _ hp ↦ hp.2.1

theorem ncard_endingAt_cons [Finite I] (hi : i ∉ slots) (n : ℕ) :
    (endingAt next m (i :: slots) n t f).ncard =
      (endingAt next m [i] n t f).ncard + (endingAt next m slots n t f).ncard := by
  rw [← Set.ncard_union_eq _ (endingAt_finite n) (endingAt_finite n)]
  · congr 1
    ext p
    cases p with
    | nil => simp [endingAt]
    | cons j p => simp only [endingAt, Set.mem_ofPred_eq, Set.mem_union, starts_cons,
        List.mem_cons, List.not_mem_nil, or_false]; tauto
  · refine Set.disjoint_left.mpr fun p hp hp' ↦ ?_
    cases p with
    | nil => simp [endingAt] at hp
    | cons j p =>
      obtain rfl := List.mem_singleton.mp (starts_cons.mp hp.1)
      exact hi (starts_cons.mp hp'.1)

theorem ncard_endingAt_none (hn : next (m t i) = none) (n : ℕ) :
    (endingAt next m [i] n t f).ncard = 0 := by
  have hempty : endingAt next m [i] n t f = ∅ := by
    ext p
    simp only [endingAt, Set.mem_ofPred_eq, Set.mem_empty_iff_false, iff_false]
    rintro ⟨hs, hl, hf⟩
    cases p with
    | nil => simp at hl
    | cons j p =>
      obtain rfl := List.mem_singleton.mp (starts_cons.mp hs)
      simp [tableAt, hn] at hf
  rw [hempty, Set.ncard_empty]

theorem ncard_endingAt_child {all : List I} (hall : ∀ j, j ∈ all) (hc : next (m t i) = some c)
    (n : ℕ) : (endingAt next m [i] (n + 1) t f).ncard = (endingAt next m all n c f).ncard := by
  have himage : endingAt next m [i] (n + 1) t f = (i :: ·) '' endingAt next m all n c f := by
    ext p
    constructor
    · rintro ⟨hs, hl, hf⟩
      cases p with
      | nil => simp at hl
      | cons j p =>
        obtain rfl := List.mem_singleton.mp (starts_cons.mp hs)
        rw [tableAt, hc] at hf
        exact ⟨p, ⟨fun j _ ↦ hall j, by simpa using hl, hf⟩, rfl⟩
    · rintro ⟨p, ⟨_, hl, hf⟩, rfl⟩
      exact ⟨starts_cons.mpr (List.mem_singleton_self i), by simp [hl], by rw [tableAt, hc]; exact hf⟩
  rw [himage]
  exact Set.ncard_image_of_injective _ fun _ _ h ↦ (List.cons.inj h).2

theorem ncard_endingAt_leaf (hc : next (m t i) = some c) [DecidableEq F] :
    (endingAt next m [i] 0 t f).ncard = if c = f then 1 else 0 := by
  have hpath : ∀ p, p ∈ endingAt next m [i] 0 t f ↔ p = [i] ∧ c = f := by
    intro p
    constructor
    · rintro ⟨hs, hl, hf⟩
      obtain ⟨j, rfl⟩ := List.length_eq_one_iff.mp hl
      obtain rfl := List.mem_singleton.mp (starts_cons.mp hs)
      simpa [tableAt, hc] using hf
    · rintro ⟨rfl, rfl⟩
      exact ⟨starts_cons.mpr (List.mem_singleton_self i), rfl, by simp [tableAt, hc]⟩
  by_cases hcf : c = f
  · rw [if_pos hcf, show endingAt next m [i] 0 t f = {[i]} from
      Set.ext fun p ↦ by simp [hpath, hcf], Set.ncard_singleton]
  · rw [if_neg hcf, show endingAt next m [i] 0 t f = ∅ from
      Set.ext fun p ↦ by simp [hpath, hcf], Set.ncard_empty]

end Ending

end SeedOS.Foundation
