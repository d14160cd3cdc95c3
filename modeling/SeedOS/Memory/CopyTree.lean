import SeedOS.Foundation.Walk
import SeedOS.Memory.CowCopy

namespace SeedOS.Memory

open Foundation Function

abbrev Slots := List (Fin 512)

def presentAt (s : Vm) (t : ℕ) (p : Slots) : Option Word :=
  (entryAt entryNext s.mem t p).filter fun e ↦ hasFlag e ptePresent

/-- Entry `i` of `g` is a last-level entry below the slots of `S`. -/
def LastEntry (s : Vm) (n : ℕ) (slots : Slots) (S g : ℕ) (i : Fin 512) : Prop :=
  ∃ q, q.length = n ∧ Starts slots (q ++ [i]) ∧ tableAt entryNext s.mem S q = some g

/-- What the copy of the slots of `S` into `D`, `n` tables deep, relies on. -/
structure CopyReady (s : Vm) (n : ℕ) (slots : Slots) (S D : ℕ) : Prop where
  distinct : ∀ {p q f}, Starts slots p → Starts slots q → p.length ≤ n → q.length ≤ n →
    tableAt entryNext s.mem S p = some f → tableAt entryNext s.mem S q = some f → p = q
  held : ∀ {p f}, Starts slots p → p.length ≤ n → tableAt entryNext s.mem S p = some f →
    ¬ s.pmm.Available f
  target : ¬ s.pmm.Available D
  apart : ∀ {p}, Starts slots p → p.length ≤ n → tableAt entryNext s.mem S p ≠ some D
  empty : ∀ i ∈ slots, entryNext (s.mem D i) = none

/-- The copy of the slots of `S` into `D` is complete. `N` holds the tables it took. -/
structure CopyDone (n : ℕ) (slots : Slots) (s s' : Vm) (S D : ℕ) (N : Set ℕ) : Prop where
  fresh : ∀ g ∈ N, s.pmm.Available g
  taken : ∀ g ∈ N, ¬ s'.pmm.Available g
  available : ∀ g, s'.pmm.Available g → s.pmm.Available g
  kept : ∀ g i, g ∉ N → ¬ (g = D ∧ i ∈ slots) → ¬ LastEntry s n slots S g i →
    s'.mem g i = s.mem g i
  source : ∀ p, Starts slots p → p.length = n + 1 →
    presentAt s' S p = (presentAt s S p).map cowEntry
  copy : ∀ p, Starts slots p → p.length = n + 1 →
    presentAt s' D p = (presentAt s S p).map cowEntry
  tables : ∀ p f, Starts slots p → p ≠ [] → p.length ≤ n →
    tableAt entryNext s'.mem D p = some f → f ∈ N
  flags : ∀ p e, Starts slots p → p.length ≤ n → presentAt s' D p = some e →
    ∃ e₀, presentAt s S p = some e₀ ∧ e &&& ~~~pteAddrMask = e₀ &&& ~~~pteAddrMask
  tracked : ∀ f, s'.Tracked f ↔ s.Tracked f
  count : ∀ f, s'.count f = if s.Tracked f then
      min 255 (s.count f + (endingAt entryNext s.mem slots n S f).ncard) else s.count f

section Present

variable {s s' : Vm} {t c : ℕ} {i : Fin 512} {p : Slots}

theorem presentAt_nil (s : Vm) (t : ℕ) : presentAt s t [] = none := rfl

theorem presentAt_single (s : Vm) (t : ℕ) (i : Fin 512) :
    presentAt s t [i] = if hasFlag (s.mem t i) ptePresent then some (s.mem t i) else none := by
  simp only [presentAt, entryAt, Option.filter_some]

theorem presentAt_child (hc : entryNext (s.mem t i) = some c) (hp : p ≠ []) :
    presentAt s t (i :: p) = presentAt s c p := by
  rw [presentAt, entryAt_cons hp, hc]
  rfl

theorem presentAt_absent (hn : entryNext (s.mem t i) = none) (p : Slots) :
    presentAt s t (i :: p) = none := by
  cases p with
  | nil => rw [presentAt_single, entryNext_none.mp hn]; rfl
  | cons j p => rw [presentAt, entryAt_cons (by simp), hn]; rfl

theorem presentAt_congr {slots : Slots} {n : ℕ} (h : Agree entryNext s.mem s'.mem slots n t)
    (hp : Starts slots p) (hl : p.length ≤ n + 1) : presentAt s' t p = presentAt s t p := by
  rw [presentAt, presentAt, h.entryAt_eq List.mem_finRange hp hl]

end Present

section Compose

variable {s s₁ s₂ s' : Vm} {n : ℕ} {slots : Slots} {i : Fin 512} {S D : ℕ} {N N₁ N₂ : Set ℕ}

theorem CopyReady.mono {slots' : Slots} (h : CopyReady s n slots S D)
    (hsub : ∀ j ∈ slots', j ∈ slots) : CopyReady s n slots' S D where
  distinct hp hq := h.distinct (hp.mono hsub) (hq.mono hsub)
  held hp := h.held (hp.mono hsub)
  target := h.target
  apart hp := h.apart (hp.mono hsub)
  empty j hj := h.empty j (hsub j hj)

theorem CopyDone.kept_source {sub : Slots} (h : CopyDone n sub s s' S D N)
    (hready : CopyReady s n slots S D) {q : Slots} {f : ℕ} {j : Fin 512}
    (hq : Starts slots q) (hl : q.length ≤ n) (hf : tableAt entryNext s.mem S q = some f)
    (hlast : ¬ LastEntry s n sub S f j) : s'.mem f j = s.mem f j := by
  refine h.kept f j (fun hN ↦ hready.held hq hl hf (h.fresh f hN)) ?_ hlast
  rintro ⟨rfl, _⟩
  exact hready.apart hq hl hf

theorem CopyDone.agree_above {sub : Slots} (h : CopyDone (n + 1) sub s s' S D N)
    (hready : CopyReady s (n + 1) slots S D) (hsub : ∀ j ∈ sub, j ∈ slots) :
    Agree entryNext s.mem s'.mem slots n S := by
  intro q f j hq hlq hf
  refine h.kept_source hready hq.of_concat (by omega) hf ?_
  rintro ⟨q', hl', hq', hf'⟩
  obtain rfl := hready.distinct hq.of_concat (hq'.of_concat.mono hsub) (by omega) (by omega) hf hf'
  omega

section Parts

variable {sub other : Slots}

theorem CopyReady.entries_apart (hready : CopyReady s n slots S D) (hsub : ∀ j ∈ sub, j ∈ slots)
    (hother : ∀ j ∈ other, j ∈ slots) (hdisj : ∀ j ∈ other, j ∉ sub) {q q' : Slots} {f : ℕ}
    {j : Fin 512} (hq : Starts other (q ++ [j])) (hq' : Starts sub (q' ++ [j])) (hl : q.length ≤ n)
    (hl' : q'.length ≤ n) (hf : tableAt entryNext s.mem S q = some f) :
    tableAt entryNext s.mem S q' ≠ some f := by
  intro hf'
  obtain rfl := hready.distinct (hq.of_concat.mono hother) (hq'.of_concat.mono hsub) hl hl' hf hf'
  cases q with
  | nil => exact hdisj j (starts_cons.mp hq) (starts_cons.mp hq')
  | cons k q => exact hdisj k (starts_cons.mp hq) (starts_cons.mp hq')

variable (h : CopyDone n sub s s₁ S D N₁) (hready : CopyReady s n slots S D)
  (hsub : ∀ j ∈ sub, j ∈ slots)
include h hready hsub

theorem CopyDone.source_tables {p : Slots} (hp : Starts slots p) (hl : p.length ≤ n) :
    tableAt entryNext s₁.mem S p = tableAt entryNext s.mem S p := by
  cases n with
  | zero => rw [List.length_eq_zero_iff.mp (Nat.le_zero.mp hl)]; rfl
  | succ n => exact (h.agree_above hready hsub).tableAt_eq hp hl

variable (hother : ∀ j ∈ other, j ∈ slots) (hdisj : ∀ j ∈ other, j ∉ sub)
include hother hdisj

theorem CopyDone.agree_other : Agree entryNext s.mem s₁.mem other n S := by
  intro q f j hq hl hf
  refine h.kept_source hready (hq.of_concat.mono hother) hl hf ?_
  rintro ⟨q', hl', hq', hf'⟩
  exact hready.entries_apart hsub hother hdisj hq hq' hl (by omega) hf hf'

theorem CopyDone.ready : CopyReady s₁ n other S D := by
  have htab := fun {p : Slots} (hp : Starts other p) (hl : p.length ≤ n) ↦
    h.source_tables hready hsub (hp.mono hother) hl
  refine ⟨fun hp hq hlp hlq hf hf' ↦ ?_, fun hp hl hf ha ↦ ?_,
    fun ha ↦ hready.target (h.available D ha), fun hp hl hf ↦ ?_, fun j hj ↦ ?_⟩
  · rw [htab hp hlp] at hf
    rw [htab hq hlq] at hf'
    exact hready.distinct (hp.mono hother) (hq.mono hother) hlp hlq hf hf'
  · rw [htab hp hl] at hf
    exact hready.held (hp.mono hother) hl hf (h.available _ ha)
  · rw [htab hp hl] at hf
    exact hready.apart (hp.mono hother) hl hf
  · rw [h.kept D j (fun hN ↦ hready.target (h.fresh D hN)) (fun hc ↦ hdisj j hj hc.2) ?_]
    · exact hready.empty j (hother j hj)
    · rintro ⟨q, hl, hq, hf⟩
      exact hready.apart (hq.of_concat.mono hsub) (by omega) hf

variable (h' : CopyDone n other s₁ s₂ S D N₂)
include h'

theorem CopyDone.agree_copy : Agree entryNext s₁.mem s₂.mem sub n D := by
  have hready₁ := h.ready hready hsub hother hdisj
  intro q f j hq hl hf
  cases q with
  | nil =>
    obtain rfl : D = f := Option.some.inj hf
    refine h'.kept D j (fun hN ↦ hready₁.target (h'.fresh D hN))
      (fun hc ↦ hdisj j hc.2 (starts_cons.mp hq)) ?_
    rintro ⟨q, hlq, hstart, hlast⟩
    exact hready₁.apart hstart.of_concat (by omega) hlast
  | cons k q =>
    have hN := h.tables _ _ hq.of_concat (by simp) hl hf
    refine h'.kept f j (fun hN' ↦ h.taken f hN (h'.fresh f hN')) ?_ ?_
    · rintro ⟨rfl, _⟩
      exact hready.target (h.fresh f hN)
    · rintro ⟨q', hlq, hstart, hlast⟩
      have hstart' := hstart.of_concat.mono hother
      rw [h.source_tables hready hsub hstart' (by omega)] at hlast
      exact hready.held hstart' (by omega) hlast (h.fresh f hN)

/-- The copied slots of the source keep their entries while the other slots are copied. -/
theorem CopyDone.agree_source : Agree entryNext s₁.mem s₂.mem sub n S := by
  intro q f j hq hl hf
  have hstart := hq.of_concat.mono hsub
  rw [h.source_tables hready hsub hstart hl] at hf
  refine h'.kept f j (fun hN ↦ hready.held hstart hl hf (h.available f (h'.fresh f hN))) ?_ ?_
  · rintro ⟨rfl, _⟩
    exact hready.apart hstart hl hf
  · rintro ⟨q', hl', hq', hf'⟩
    rw [h.source_tables hready hsub (hq'.of_concat.mono hother) (by omega)] at hf'
    exact hready.entries_apart hsub hother hdisj hq' hq (by omega) hl hf' hf

end Parts

theorem endingAt_congr {m m' : ℕ → Fin 512 → Word} (h : Agree entryNext m m' slots n S) (f : ℕ) :
    endingAt entryNext m' slots n S f = endingAt entryNext m slots n S f := by
  ext p
  constructor
  · rintro ⟨hp, hl, hf⟩
    exact ⟨hp, hl, by rw [← h.tableAt_eq hp (by omega)]; exact hf⟩
  · rintro ⟨hp, hl, hf⟩
    exact ⟨hp, hl, by rw [h.tableAt_eq hp (by omega)]; exact hf⟩

theorem CopyDone.nil (n : ℕ) (s : Vm) (S D : ℕ) : CopyDone n [] s s S D ∅ where
  fresh _ hg := absurd hg (Set.notMem_empty _)
  taken _ hg := absurd hg (Set.notMem_empty _)
  available _ hg := hg
  kept _ _ _ _ _ := rfl
  source p hp hl := by
    cases p with
    | nil => simp at hl
    | cons j p => simpa using starts_cons.mp hp
  copy p hp hl := by
    cases p with
    | nil => simp at hl
    | cons j p => simpa using starts_cons.mp hp
  tables p f hp hne := by
    cases p with
    | nil => exact absurd rfl hne
    | cons j p => simpa using starts_cons.mp hp
  flags p e hp _ he := by
    cases p with
    | nil => simp [presentAt_nil] at he
    | cons j p => simpa using starts_cons.mp hp
  tracked _ := Iff.rfl
  count f := by
    rw [endingAt_nil, Set.ncard_empty, Nat.add_zero, Nat.min_eq_right (s.count_le f), ite_self]

theorem CopyDone.cons (h : CopyDone n [i] s s₁ S D N₁) (hnodup : (i :: slots).Nodup)
    (hready : CopyReady s n (i :: slots) S D)
    (hrest : CopyReady s₁ n slots S D → ∃ N, CopyDone n slots s₁ s₂ S D N) :
    ∃ N, CopyDone n (i :: slots) s s₂ S D N := by
  have hi := (List.nodup_cons.mp hnodup).1
  have hhead : ∀ j ∈ [i], j ∈ i :: slots := fun j hj ↦
    List.mem_cons.mpr (.inl (List.mem_singleton.mp hj))
  have htail : ∀ j ∈ slots, j ∈ i :: slots := fun j hj ↦ List.mem_cons_of_mem i hj
  have hdisj : ∀ j ∈ slots, j ∉ [i] := by
    rintro j hj hji
    obtain rfl := List.mem_singleton.mp hji
    exact hi hj
  obtain ⟨N₂, h'⟩ := hrest (h.ready hready hhead htail hdisj)
  have hsrc : Agree entryNext s.mem s₁.mem slots n S := h.agree_other hready hhead htail hdisj
  have hsrc₂ := h.agree_source hready hhead htail hdisj h'
  have hdst := h.agree_copy hready hhead htail hdisj h'
  have hsplit : ∀ {p : Slots}, Starts (i :: slots) p → Starts [i] p ∨ Starts slots p := by
    intro p hp
    cases p with
    | nil => exact .inl starts_nil
    | cons j p =>
      rcases List.mem_cons.mp (starts_cons.mp hp) with rfl | hj
      · exact .inl (starts_cons.mpr (List.mem_singleton_self j))
      · exact .inr (starts_cons.mpr hj)
  refine ⟨N₁ ∪ N₂, ?_, ?_, fun g hg ↦ h.available g (h'.available g hg), ?_, ?_, ?_, ?_, ?_,
    fun f ↦ (h'.tracked f).trans (h.tracked f), ?_⟩
  · rintro g (hg | hg)
    · exact h.fresh g hg
    · exact h.available g (h'.fresh g hg)
  · rintro g (hg | hg)
    · exact fun ha ↦ h.taken g hg (h'.available g ha)
    · exact h'.taken g hg
  · intro g j hN hD hlast
    rw [h'.kept g j (fun hg ↦ hN (.inr hg)) (fun hc ↦ hD ⟨hc.1, htail j hc.2⟩) ?_,
      h.kept g j (fun hg ↦ hN (.inl hg)) (fun hc ↦ hD ⟨hc.1, hhead j hc.2⟩) ?_]
    · rintro ⟨q, hl, hq, hf⟩
      exact hlast ⟨q, hl, hq.mono hhead, hf⟩
    · rintro ⟨q, hl, hq, hf⟩
      rw [h.source_tables hready hhead (hq.of_concat.mono htail) (by omega)] at hf
      exact hlast ⟨q, hl, hq.mono htail, hf⟩
  · intro p hp hl
    rcases hsplit hp with hp | hp
    · rw [presentAt_congr hsrc₂ hp (by omega), h.source p hp hl]
    · rw [h'.source p hp hl, presentAt_congr hsrc hp (by omega)]
  · intro p hp hl
    rcases hsplit hp with hp | hp
    · rw [presentAt_congr hdst hp (by omega), h.copy p hp hl]
    · rw [h'.copy p hp hl, presentAt_congr hsrc hp (by omega)]
  · intro p f hp hne hl hf
    rcases hsplit hp with hp | hp
    · rw [hdst.tableAt_eq hp (by omega)] at hf
      exact .inl (h.tables p f hp hne hl hf)
    · exact .inr (h'.tables p f hp hne hl hf)
  · intro p e hp hl he
    rcases hsplit hp with hp | hp
    · rw [presentAt_congr hdst hp (by omega)] at he
      exact h.flags p e hp hl he
    · rw [← presentAt_congr hsrc hp (by omega)]
      exact h'.flags p e hp hl he
  · intro f
    rw [h'.count, h.count, endingAt_congr hsrc, ncard_endingAt_cons hi]
    by_cases ht : s.Tracked f
    · rw [if_pos ht, if_pos ht, if_pos ((h.tracked f).mpr ht)]
      omega
    · rw [if_neg ht, if_neg ht, if_neg fun hc ↦ ht ((h.tracked f).mp hc)]

end Compose

end SeedOS.Memory
