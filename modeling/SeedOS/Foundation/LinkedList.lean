import Mathlib.Data.List.Basic

namespace SeedOS.Foundation

variable {A : Type*}

/-- A doubly linked list that ends in `null`: `x` is its first node, `p` what the
back link of that node holds, and `l` are the nodes in order. -/
def Linked (next prev : A → A) (null : A) : A → A → List A → Prop
  | _, x, [] => x = null
  | p, x, a :: l => x = a ∧ a ≠ null ∧ prev a = p ∧ Linked next prev null a (next a) l

namespace Linked

variable {next prev next' prev' : A → A} {null p p' x a : A} {l : List A}

section

variable (h : Linked next prev null p x l)
include h

theorem ne_null (ha : a ∈ l) : a ≠ null := by
  induction l generalizing p x with
  | nil => simp at ha
  | cons c l ih =>
    obtain ⟨_, hne, _, hl⟩ := h
    rcases List.mem_cons.mp ha with rfl | ha
    · exact hne
    · exact ih hl ha

theorem congr (hn : ∀ c ∈ l, next' c = next c)
    (hp : ∀ c ∈ l, prev' c = prev c) : Linked next' prev' null p x l := by
  induction l generalizing p x with
  | nil => exact h
  | cons c l ih =>
    obtain ⟨hx, hne, hpc, hl⟩ := h
    refine ⟨hx, hne, by rw [hp c (by simp), hpc], ?_⟩
    rw [hn c (by simp)]
    exact ih hl (fun d hd ↦ hn d (by simp [hd])) fun d hd ↦ hp d (by simp [hd])

theorem relink [DecidableEq A] (hnd : l.Nodup)
    (hn : ∀ c ∈ l, next' c = next c) (hp : ∀ c ∈ l, prev' c = if c = x then p' else prev c) :
    Linked next' prev' null p' x l := by
  cases l with
  | nil => exact h
  | cons c l =>
    obtain ⟨rfl, hne, _, hl⟩ := h
    refine ⟨rfl, hne, by simp [hp], ?_⟩
    rw [hn x (by simp)]
    refine hl.congr (fun d hd ↦ hn d (by simp [hd])) fun d hd ↦ ?_
    rw [hp d (by simp [hd]), if_neg]
    rintro rfl
    exact (List.nodup_cons.mp hnd).1 hd

theorem push [DecidableEq A] (hnd : l.Nodup) (ha : a ≠ null)
    (hna : next' a = x) (hpa : prev' a = p') (hn : ∀ c ∈ l, next' c = next c)
    (hp : ∀ c ∈ l, prev' c = if c = x then a else prev c) :
    Linked next' prev' null p' a (a :: l) :=
  ⟨rfl, ha, hpa, hna ▸ h.relink hnd hn hp⟩

theorem prev_ne {b : A} (hb : b ∈ l) (ha : a ∉ p :: l) :
    prev b ≠ a := by
  induction l generalizing p x with
  | nil => simp at hb
  | cons c l ih =>
    obtain ⟨_, _, hpc, hl⟩ := h
    rcases List.mem_cons.mp hb with rfl | hb
    · rintro rfl
      exact ha (by simp [hpc])
    · exact ih hl hb fun hc ↦ ha (List.mem_cons_of_mem _ hc)

theorem next_ne (ha : a ∈ l) {b : A} (hb : b ∉ l)
    (hnb : b ≠ null) : next a ≠ b := by
  induction l generalizing p x with
  | nil => simp at ha
  | cons c l ih =>
    obtain ⟨_, _, _, hl⟩ := h
    rcases List.mem_cons.mp ha with rfl | ha
    · cases l with
      | nil => exact fun hc ↦ hnb (hc.symm.trans hl)
      | cons d l =>
        rw [hl.1]
        rintro rfl
        exact hb (by simp)
    · exact ih hl ha fun hc ↦ hb (by simp [hc])

theorem next_ne_self (hnd : l.Nodup) (ha : a ∈ l) :
    next a ≠ a := by
  induction l generalizing p x with
  | nil => simp at ha
  | cons c l ih =>
    obtain ⟨_, hne, _, hl⟩ := h
    obtain ⟨hcl, hnd'⟩ := List.nodup_cons.mp hnd
    rcases List.mem_cons.mp ha with rfl | ha
    · cases l with
      | nil => exact fun hc ↦ hne (hc.symm.trans hl)
      | cons d l => exact fun hc ↦ hcl (by simp [← hl.1, hc])
    · exact ih hl hnd' ha

theorem next_eq_iff (hnd : (p :: l).Nodup) {b : A}
    (ha : a ∈ l) (hb : b ∈ l) : next a = b ↔ prev b = a := by
  induction l generalizing p x with
  | nil => simp at ha
  | cons c l ih =>
    obtain ⟨rfl, hne, hpx, hl⟩ := h
    obtain ⟨hp, hnd'⟩ := List.nodup_cons.mp hnd
    have hx := (List.nodup_cons.mp hnd').1
    rcases List.mem_cons.mp ha with rfl | ha'
    · rcases List.mem_cons.mp hb with rfl | hb'
      · constructor
        · intro hab
          cases l with
          | nil => exact absurd (hab.symm.trans hl) hne
          | cons d l => exact absurd (hl.1.symm.trans hab) fun hda ↦ hx (by simp [hda])
        · intro hba
          exact absurd (hpx.symm.trans hba) fun hc ↦ hp (by simp [hc])
      · cases l with
        | nil => simp at hb'
        | cons d l =>
          obtain ⟨hnd₁, _, hpd, hl'⟩ := hl
          constructor
          · rintro rfl
            rwa [hnd₁]
          · intro hba
            rcases List.mem_cons.mp hb' with rfl | hb
            · exact hnd₁
            · exact absurd hba (hl'.prev_ne hb hx)
    · rcases List.mem_cons.mp hb with rfl | hb'
      · constructor
        · intro hab
          exact absurd hab (hl.next_ne ha' hx hne)
        · intro hba
          exact absurd (hpx.symm.trans hba) fun hc ↦ hp (by simp [hc, ha'])
      · exact ih hl hnd' ha' hb'

theorem erase [DecidableEq A] (hnd : (p :: l).Nodup)
    (ha : a ∈ l) (hn : ∀ c ∈ l, c ≠ a → next' c = if next c = a then next a else next c)
    (hp : ∀ c ∈ l, c ≠ a → prev' c = if prev c = a then prev a else prev c) :
    Linked next' prev' null p (if x = a then next a else x) (l.erase a) := by
  induction l generalizing p x with
  | nil => simp at ha
  | cons c l ih =>
    obtain ⟨rfl, hne, hpx, hl⟩ := h
    obtain ⟨hpl, hnd'⟩ := List.nodup_cons.mp hnd
    obtain ⟨hxl, hndl⟩ := List.nodup_cons.mp hnd'
    by_cases hxa : x = a
    · subst hxa
      rw [if_pos rfl, List.erase_cons_head]
      have hca : ∀ c ∈ l, c ≠ x := fun c hc hcx ↦ hxl (hcx ▸ hc)
      refine hl.relink hndl (fun c hc ↦ ?_) fun c hc ↦ ?_
      · rw [hn c (by simp [hc]) (hca c hc), if_neg]
        exact hl.next_ne hc hxl hne
      · rw [hp c (by simp [hc]) (hca c hc), hpx]
        cases l with
        | nil => simp at hc
        | cons d l =>
          obtain ⟨hnx, _, hpd, hl'⟩ := hl
          rw [hnx]
          by_cases hcd : c = d
          · rw [if_pos (by rw [hcd, hpd]), if_pos hcd]
          · rw [if_neg hcd, if_neg]
            exact hl'.prev_ne ((List.mem_cons.mp hc).resolve_left hcd) hxl
    · have hal : a ∈ l := (List.mem_cons.mp ha).resolve_left fun hc ↦ hxa hc.symm
      rw [if_neg hxa, List.erase_cons_tail (by simpa using hxa)]
      refine ⟨rfl, hne, ?_, ?_⟩
      · rw [hp x (by simp) hxa, if_neg, hpx]
        rw [hpx]
        rintro rfl
        exact hpl (by simp [hal])
      · rw [hn x (by simp) hxa]
        exact ih hl hnd' hal (fun c hc ↦ hn c (by simp [hc])) fun c hc ↦ hp c (by simp [hc])

end

end Linked

end SeedOS.Foundation
