import Mathlib.Data.List.Basic
import Mathlib.Data.List.Nodup

namespace SeedOS.Foundation

variable {α : Type*} [DecidableEq α]

def following (l : List α) (a : α) : List α := (l.dropWhile (· ≠ a)).tail

/-- The other elements of a list in cyclic order, the one after `a` first. -/
def cyclicAfter (l : List α) (a : α) : List α := following l a ++ l.takeWhile (· ≠ a)

section Split

variable {l pre post : List α} {a : α}

theorem split_at (h : a ∈ l) : l = l.takeWhile (· ≠ a) ++ a :: following l a := by
  induction l with
  | nil => simp at h
  | cons x l ih =>
    by_cases hx : x = a
    · simp [following, hx]
    · have hmem := ih ((List.mem_cons.mp h).resolve_left (Ne.symm hx))
      simpa [following, hx] using hmem

theorem takeWhile_split (h : a ∉ pre) : (pre ++ a :: post).takeWhile (· ≠ a) = pre := by
  rw [List.takeWhile_append_of_pos fun x hx ↦ by simpa using fun he : x = a ↦ h (he ▸ hx)]
  simp

theorem following_split (h : a ∉ pre) : following (pre ++ a :: post) a = post := by
  rw [following, List.dropWhile_append_of_pos fun x hx ↦ by simpa using fun he : x = a ↦ h (he ▸ hx)]
  simp

theorem cyclicAfter_split (h : a ∉ pre) : cyclicAfter (pre ++ a :: post) a = post ++ pre := by
  rw [cyclicAfter, following_split h, takeWhile_split h]

theorem length_cyclicAfter (h : a ∈ l) : (cyclicAfter l a).length + 1 = l.length := by
  have hlen := congrArg List.length (split_at h)
  simp only [List.length_append, List.length_cons] at hlen
  rw [cyclicAfter, List.length_append]
  omega

theorem mem_cyclicAfter (h : a ∈ l) (hl : l.Nodup) {x : α} :
    x ∈ cyclicAfter l a ↔ x ∈ l ∧ x ≠ a := by
  obtain ⟨pre, post, rfl⟩ := List.append_of_mem h
  have hpre : a ∉ pre := fun hp ↦ (List.nodup_append.mp hl).2.2 a hp a (by simp) rfl
  have hpost : a ∉ post := (List.nodup_cons.mp (List.nodup_append.mp hl).2.1).1
  rw [cyclicAfter_split hpre]
  simp only [List.mem_append, List.mem_cons]
  constructor
  · rintro (hx | hx)
    · exact ⟨.inr (.inr hx), fun he ↦ hpost (he ▸ hx)⟩
    · exact ⟨.inl hx, fun he ↦ hpre (he ▸ hx)⟩
  · rintro ⟨hx | rfl | hx, hne⟩
    · exact .inr hx
    · exact absurd rfl hne
    · exact .inl hx

theorem cyclicAfter_turn (ha : a ∈ l) (hl : l.Nodup) {b : α} {u v : List α}
    (h : cyclicAfter l a = u ++ b :: v) : cyclicAfter l b = v ++ a :: u := by
  have hb : b ∈ l := ((mem_cyclicAfter ha hl).mp (by rw [h]; simp)).1
  obtain ⟨pre, post, rfl⟩ := List.append_of_mem ha
  have hpre : a ∉ pre := fun hp ↦ (List.nodup_append.mp hl).2.2 a hp a (by simp) rfl
  rw [cyclicAfter_split hpre] at h
  -- `b` stands before `a` in the list, or behind it
  have hbefore : ∀ w, u = post ++ w → pre = w ++ b :: v →
      cyclicAfter (pre ++ a :: post) b = v ++ a :: u := by
    rintro w rfl rfl
    rw [List.append_assoc] at hl ⊢
    have hw : b ∉ w := fun hm ↦ (List.nodup_append.mp hl).2.2 b hm b (by simp) rfl
    rw [List.cons_append, cyclicAfter_split hw, List.append_assoc, List.cons_append]
  rcases List.append_eq_append_iff.mp h with ⟨w, hu, hw⟩ | ⟨w, rfl, hw⟩
  · exact hbefore w hu hw
  · cases w with
    | nil => exact hbefore [] (by simp) (by simpa using hw.symm)
    | cons x w =>
      rw [List.cons_append] at hw
      obtain ⟨rfl, rfl⟩ := List.cons.inj hw
      rw [← List.cons_append, ← List.append_assoc] at hl ⊢
      have hx : b ∉ pre ++ a :: u := fun hm ↦
        (List.nodup_append.mp hl).2.2 b hm b (by simp) rfl
      rw [cyclicAfter_split hx, List.append_assoc]

end Split

section Distance

variable {l : List α} {a b x : α} {p : α → Bool}

/-- The first element after `a` that passes the test, when `x` does, is `x` or brings
the cycle closer to `x`. -/
theorem closer_of_find (ha : a ∈ l) (hl : l.Nodup) (hx : x ∈ l) (hxa : x ≠ a) (hpx : p x = true)
    (hb : (cyclicAfter l a).find? p = some b) (hbx : b ≠ x) :
    (cyclicAfter l b).idxOf x < (cyclicAfter l a).idxOf x := by
  obtain ⟨_, u, v, huv, hu⟩ := List.find?_eq_some_iff_append.mp hb
  have hxu : x ∉ u := fun hm ↦ by simpa [hpx] using hu x hm
  have hmem : x ∈ u ++ b :: v := huv ▸ (mem_cyclicAfter ha hl).mpr ⟨hx, hxa⟩
  have hxv : x ∈ v := by simpa [hxu, Ne.symm hbx] using hmem
  rw [cyclicAfter_turn ha hl huv, huv, List.idxOf_append_of_mem hxv,
    List.idxOf_append_of_notMem hxu, List.idxOf_cons_ne _ hbx]
  omega

end Distance

end SeedOS.Foundation
