import Mathlib.Data.List.Induction
import Mathlib.Data.Set.Insert
import Mathlib.Logic.Function.Basic

namespace SeedOS.Foundation

open Function

variable {F I E : Type}

/-- What a frame of memory is used for. A table records the root of the tree it
belongs to and its path from there, so no frame has two places in the forest. -/
inductive Role (F I : Type)
  | free
  | reserved
  | data
  | table (root : F) (path : List I)

theorem Role.ne_of_length {role : F → Role F I} {f g r r' : F} {p p' : List I}
    (hf : role f = .table r p) (hg : role g = .table r' p') (hl : p.length ≠ p'.length) :
    f ≠ g := by
  rintro rfl
  rw [hf] at hg
  injection hg with _ hp
  exact hl (congrArg List.length hp)

theorem Role.ne_of_root {role : F → Role F I} {f g r r' : F} {p p' : List I}
    (hf : role f = .table r p) (hg : role g = .table r' p') (hr : r ≠ r') : f ≠ g := by
  rintro rfl
  rw [hf] at hg
  injection hg with hr' _
  exact hr hr'

theorem of_update_eq {A B : Type} [DecidableEq A] {f : A → B} {a b : A} {x y : B}
    (h : update f a x b = y) (hx : x ≠ y) : b ≠ a ∧ f b = y := by
  have hne : b ≠ a := by
    rintro rfl
    exact hx ((update_self b x f).symm.trans h)
  exact ⟨hne, by rwa [update_of_ne hne] at h⟩

theorem update_some_cases {A B : Type} [DecidableEq A] {f : A → Option B} {a b : A} {x y : B}
    (h : update f b (some x) a = some y) : a = b ∧ y = x ∨ a ≠ b ∧ f a = some y := by
  by_cases hab : a = b
  · rw [hab, update_self, Option.some.injEq] at h
    exact .inl ⟨hab, h.symm⟩
  · rw [update_of_ne hab] at h
    exact .inr ⟨hab, h⟩

theorem update_eq_iff {A B : Type} [DecidableEq A] {f : A → B} {a b : A} {x y : B}
    (ha : f a ≠ y) (hx : x ≠ y) : update f a x b = y ↔ f b = y := by
  by_cases hb : b = a
  · rw [hb, update_self]
    exact iff_of_false hx ha
  · rw [update_of_ne hb]

/-- The table reached from `t` along a path of indices. -/
def tableAt (next : E → Option F) (m : F → I → E) : F → List I → Option F
  | t, [] => some t
  | t, i :: p => (next (m t i)).bind fun t' ↦ tableAt next m t' p

theorem tableAt_append (next : E → Option F) (m : F → I → E) (t : F) (p q : List I) :
    tableAt next m t (p ++ q) = (tableAt next m t p).bind fun t' ↦ tableAt next m t' q := by
  induction p generalizing t with
  | nil => rfl
  | cons i p ih => cases h : next (m t i) <;> simp [tableAt, h, ih]

theorem tableAt_concat (next : E → Option F) (m : F → I → E) (t : F) (p : List I) (i : I) :
    tableAt next m t (p ++ [i]) = (tableAt next m t p).bind fun t' ↦ next (m t' i) := by
  rw [tableAt_append]
  congr 1
  funext t'
  cases h : next (m t' i) <;> simp [tableAt, h]

theorem tableAt_congr {next : E → Option F} {m m' : F → I → E} (t : F) (p : List I)
    (h : ∀ q f i, q ++ [i] <+: p → tableAt next m t q = some f → next (m' f i) = next (m f i)) :
    tableAt next m' t p = tableAt next m t p := by
  induction p generalizing t with
  | nil => rfl
  | cons i p ih =>
    have hi := h [] t i ⟨p, rfl⟩ rfl
    rw [tableAt, tableAt, hi]
    cases hn : next (m t i) with
    | none => rfl
    | some u =>
      refine ih u fun q f j hq hf ↦ h (i :: q) f j ?_ ?_
      · obtain ⟨tail, ht⟩ := hq
        exact ⟨tail, by simp [← ht]⟩
      · simpa [tableAt, hn] using hf

/-- A family of trees of tables, `d` levels below their roots, restricted to the
paths in `U`. The condition is local: every entry is checked against the role
of the frame it points to. -/
structure Forest (next : E → Option F) (d : ℕ) (U : List I → Prop) (m : F → I → E)
    (roots : Set F) (role : F → Role F I) : Prop where
  root : ∀ r ∈ roots, role r = .table r []
  base : ∀ {f r}, role f = .table r [] → f = r
  live : ∀ {f r p}, role f = .table r p → r ∈ roots ∧ U p ∧ p.length ≤ d
  linked : ∀ {f r p i}, role f = .table r (p ++ [i]) →
    ∃ g, role g = .table r p ∧ next (m g i) = some f
  child : ∀ {f r p i g}, role f = .table r p → p.length < d → U (p ++ [i]) →
    next (m f i) = some g → role g = .table r (p ++ [i])
  leaf : ∀ {f r p i g}, role f = .table r p → p.length = d → next (m f i) = some g → role g = .data

namespace Forest

variable {next : E → Option F} {d : ℕ} {U : List I → Prop} {m m' : F → I → E} {roots : Set F}
  {role : F → Role F I}

section

variable (h : Forest next d U m roots role)
include h

theorem role_of_tableAt (hU : ∀ p i, U (p ++ [i]) → U p)
    {r : F} (hr : r ∈ roots) {p : List I} {f : F} (hp : U p) (hd : p.length ≤ d)
    (ht : tableAt next m r p = some f) : role f = .table r p := by
  induction p using List.reverseRecOn generalizing f with
  | nil => exact Option.some.inj ht ▸ h.root r hr
  | append_singleton p i ih =>
    rw [List.length_append, List.length_singleton] at hd
    rw [tableAt_concat] at ht
    obtain ⟨g, hg, hn⟩ := Option.bind_eq_some_iff.mp ht
    exact h.child (ih (hU p i hp) (by omega) hg) (by omega) hp hn

theorem tableAt_of_role {r : F} {p : List I} {f : F}
    (hf : role f = .table r p) : tableAt next m r p = some f := by
  induction p using List.reverseRecOn generalizing f with
  | nil => rw [h.base hf]; rfl
  | append_singleton p i ih =>
    obtain ⟨g, hg, hn⟩ := h.linked hf
    rw [tableAt_concat, ih hg]
    exact hn

theorem table_unique {r : F} {p : List I} {f g : F}
    (hf : role f = .table r p) (hg : role g = .table r p) : f = g :=
  Option.some.inj ((h.tableAt_of_role hf).symm.trans (h.tableAt_of_role hg))

theorem congr (hm : ∀ {f r p}, role f = .table r p → ∀ i, next (m' f i) = next (m f i)) :
    Forest next d U m' roots role where
  root := h.root
  base := h.base
  live := h.live
  linked hf := by
    obtain ⟨g, hg, hn⟩ := h.linked hf
    exact ⟨g, hg, (hm hg _).trans hn⟩
  child hf hp hu hn := h.child hf hp hu ((hm hf _).symm.trans hn)
  leaf hf hp hn := h.leaf hf hp ((hm hf _).symm.trans hn)

theorem setLeaf {t r : F} {p : List I} {i : I} (ht : role t = .table r p) (hp : p.length = d)
    (hm : ∀ {f r p}, role f = .table r p → ∀ j, f ≠ t ∨ j ≠ i → next (m' f j) = next (m f j))
    (hi : ∀ g, next (m' t i) = some g → role g = .data) : Forest next d U m' roots role where
  root := h.root
  base := h.base
  live := h.live
  linked {f r' p' j} hf := by
    obtain ⟨g, hg, hn⟩ := h.linked hf
    have hl := (h.live hf).2.2
    rw [List.length_append, List.length_singleton] at hl
    exact ⟨g, hg, (hm hg j (.inl (Role.ne_of_length hg ht (by omega)))).trans hn⟩
  child {f r' p' j g} hf hp' hu hn :=
    h.child hf hp' hu ((hm hf j (.inl (Role.ne_of_length hf ht (by omega)))).symm.trans hn)
  leaf {f r' p' j g} hf hp' hn := by
    by_cases hc : f = t ∧ j = i
    · obtain ⟨rfl, rfl⟩ := hc
      exact hi g hn
    · exact h.leaf hf hp' ((hm hf j (not_and_or.mp hc)).symm.trans hn)

theorem congr_role {role' : F → Role F I}
    (htab : ∀ {f r p}, role' f = .table r p ↔ role f = .table r p)
    (hleaf : ∀ {t r p i g}, role t = .table r p → p.length = d → next (m t i) = some g →
      role' g = .data) : Forest next d U m roots role' where
  root r hr := htab.mpr (h.root r hr)
  base hf := h.base (htab.mp hf)
  live hf := h.live (htab.mp hf)
  linked hf := by
    obtain ⟨g, hg, hn⟩ := h.linked (htab.mp hf)
    exact ⟨g, htab.mpr hg, hn⟩
  child hf hp hu hn := htab.mpr (h.child (htab.mp hf) hp hu hn)
  leaf hf hp hn := hleaf (htab.mp hf) hp hn

end

variable [DecidableEq F]

theorem setRole (h : Forest next d U m roots role) {f : F} {x : Role F I}
    (hf : ∀ r p, role f ≠ .table r p) (hx : ∀ r p, x ≠ .table r p)
    (hleaf : x = .data ∨ ∀ t r p i, role t = .table r p → p.length = d → next (m t i) ≠ some f) :
    Forest next d U m roots (update role f x) := by
  refine h.congr_role (update_eq_iff (hf _ _) (hx _ _)) fun {t r p i g} ht hp hn ↦ ?_
  by_cases hg : g = f
  · subst hg
    rcases hleaf with rfl | hleaf
    · exact update_self _ _ _
    · exact absurd hn (hleaf t r p i ht hp)
  · rw [update_of_ne hg]
    exact h.leaf ht hp hn

theorem link (h : Forest next d U m roots role) {t r g : F} {p : List I} {i : I}
    (ht : role t = .table r p) (hp : p.length < d) (hu : U (p ++ [i]))
    (hg : role g = .free) (hnone : next (m t i) = none)
    (hempty : ∀ j, next (m' g j) = none) (hti : next (m' t i) = some g)
    (hm : ∀ {f r p}, role f = .table r p → ∀ j, f ≠ t ∨ j ≠ i → next (m' f j) = next (m f j)) :
    Forest next d U m' roots (update role g (.table r (p ++ [i]))) := by
  have hgt : t ≠ g := by rintro rfl; simp [ht] at hg
  have hold : ∀ {f r' p'}, role f = .table r' p' → f ≠ g := by
    intro f r' p' hf; rintro rfl; simp [hf] at hg
  refine ⟨?_, ?_, ?_, ?_, ?_, ?_⟩
  · intro r' hr'
    have := h.root r' hr'
    rwa [update_of_ne (hold this)]
  · intro f r' hf
    by_cases hfg : f = g
    · subst hfg; simp at hf
    · rw [update_of_ne hfg] at hf; exact h.base hf
  · intro f r' p' hf
    by_cases hfg : f = g
    · subst hfg
      rw [update_self] at hf
      injection hf with hr hp'
      subst hr hp'
      exact ⟨(h.live ht).1, hu, by rw [List.length_append, List.length_singleton]; omega⟩
    · rw [update_of_ne hfg] at hf; exact h.live hf
  · intro f r' p' j hf
    by_cases hfg : f = g
    · subst hfg
      rw [update_self] at hf
      injection hf with hr hp'
      obtain ⟨rfl, hij⟩ := List.append_inj' hp' rfl
      obtain rfl : i = j := by simpa using hij
      subst hr
      exact ⟨t, by rw [update_of_ne hgt]; exact ht, hti⟩
    · rw [update_of_ne hfg] at hf
      obtain ⟨k, hk, hn⟩ := h.linked hf
      refine ⟨k, by rw [update_of_ne (hold hk)]; exact hk, (hm hk j ?_).trans hn⟩
      by_contra hc
      simp only [not_or, not_not] at hc
      obtain ⟨rfl, rfl⟩ := hc
      simp [hnone] at hn
  · intro f r' p' j k hf hp' hu' hn
    by_cases hfg : f = g
    · subst hfg; simp [hempty] at hn
    · rw [update_of_ne hfg] at hf
      by_cases hc : f = t ∧ j = i
      · obtain ⟨rfl, rfl⟩ := hc
        rw [hti] at hn
        obtain rfl : g = k := Option.some.inj hn
        rw [ht] at hf
        injection hf with hr hp''
        subst hr hp''
        exact update_self _ _ _
      · have hc' := h.child hf hp' hu' ((hm hf j (not_and_or.mp hc)).symm.trans hn)
        rwa [update_of_ne (hold hc')]
  · intro f r' p' j k hf hp' hn
    by_cases hfg : f = g
    · subst hfg; simp [hempty] at hn
    · rw [update_of_ne hfg] at hf
      have hft := Role.ne_of_length hf ht (by omega)
      have hk := h.leaf hf hp' ((hm hf j (.inl hft)).symm.trans hn)
      have hkg : k ≠ g := by rintro rfl; simp [hk] at hg
      rwa [update_of_ne hkg]

theorem unlink (h : Forest next d U m roots role) {t r g : F} {p : List I} {i : I}
    (ht : role t = .table r p) (hp : p.length < d)
    (hg : role g = .table r (p ++ [i]))
    (hempty : ∀ j, next (m g j) = none) (hti : next (m' t i) = none)
    (hm : ∀ {f r p}, role f = .table r p → ∀ j, f ≠ t ∨ j ≠ i → next (m' f j) = next (m f j)) :
    Forest next d U m' roots (update role g .free) := by
  have hkeep : ∀ {f r' p'}, update role g .free f = .table r' p' → f ≠ g ∧ role f = .table r' p' := by
    intro f r' p' hf
    have hfg : f ≠ g := by rintro rfl; simp at hf
    exact ⟨hfg, by rwa [update_of_ne hfg] at hf⟩
  refine ⟨?_, ?_, ?_, ?_, ?_, ?_⟩
  · intro r' hr'
    have hrr := h.root r' hr'
    rwa [update_of_ne (Role.ne_of_length hrr hg (by simp))]
  · intro f r' hf; exact h.base (hkeep hf).2
  · intro f r' p' hf; exact h.live (hkeep hf).2
  · intro f r' p' j hf
    obtain ⟨hfg, hf⟩ := hkeep hf
    obtain ⟨k, hk, hn⟩ := h.linked hf
    have hkg : k ≠ g := by rintro rfl; simp [hempty] at hn
    refine ⟨k, by rwa [update_of_ne hkg], (hm hk j ?_).trans hn⟩
    by_contra hc
    simp only [not_or, not_not] at hc
    obtain ⟨rfl, rfl⟩ := hc
    rw [ht] at hk
    injection hk with hr hp'
    subst hr hp'
    exact hfg (h.table_unique hf hg)
  · intro f r' p' j k hf hp' hu' hn
    obtain ⟨_, hrole⟩ := hkeep hf
    by_cases hc : f = t ∧ j = i
    · obtain ⟨rfl, rfl⟩ := hc
      simp [hti] at hn
    · have hc' := h.child hrole hp' hu' ((hm hrole j (not_and_or.mp hc)).symm.trans hn)
      have hkg : k ≠ g := by
        rintro rfl
        rw [hg] at hc'
        injection hc' with hr hpp
        obtain ⟨rfl, hij⟩ := List.append_inj' hpp rfl
        obtain rfl : i = j := by simpa using hij
        subst hr
        exact hc ⟨h.table_unique hrole ht, rfl⟩
      rwa [update_of_ne hkg]
  · intro f r' p' j k hf hp' hn
    obtain ⟨hfg, hf⟩ := hkeep hf
    have hft := Role.ne_of_length hf ht (by omega)
    have hk := h.leaf hf hp' ((hm hf j (.inl hft)).symm.trans hn)
    have hkg : k ≠ g := by rintro rfl; simp [hk] at hg
    rwa [update_of_ne hkg]

theorem addRoot (h : Forest next d U m roots role) {r : F} (hr : role r = .free) (hU : U [])
    (hempty : ∀ i, U [i] → next (m' r i) = none) (hd : 0 < d)
    (hm : ∀ {f r p}, role f = .table r p → ∀ i, next (m' f i) = next (m f i)) :
    Forest next d U m' (insert r roots) (update role r (.table r [])) := by
  have hold : ∀ {f r' p'}, role f = .table r' p' → f ≠ r := by
    intro f r' p' hf; rintro rfl; simp [hf] at hr
  have hnew : ∀ {f r' p'}, update role r (.table r []) f = .table r' p' →
      (f = r ∧ r' = r ∧ p' = []) ∨ role f = .table r' p' := by
    intro f r' p' hf
    by_cases hfr : f = r
    · subst hfr
      rw [update_self] at hf
      injection hf with h₁ h₂
      exact .inl ⟨rfl, h₁.symm, h₂.symm⟩
    · rw [update_of_ne hfr] at hf; exact .inr hf
  refine ⟨?_, ?_, ?_, ?_, ?_, ?_⟩
  · intro r' hr'
    rcases hr' with rfl | hr'
    · exact update_self _ _ _
    · have := h.root r' hr'
      rwa [update_of_ne (hold this)]
  · intro f r' hf
    rcases hnew hf with ⟨rfl, rfl, _⟩ | hf
    · rfl
    · exact h.base hf
  · intro f r' p' hf
    rcases hnew hf with ⟨rfl, rfl, rfl⟩ | hf
    · exact ⟨.inl rfl, hU, Nat.zero_le _⟩
    · exact ⟨.inr (h.live hf).1, (h.live hf).2⟩
  · intro f r' p' j hf
    rcases hnew hf with ⟨_, _, hp⟩ | hf
    · simp at hp
    · obtain ⟨g, hg, hn⟩ := h.linked hf
      exact ⟨g, by rwa [update_of_ne (hold hg)], (hm hg j).trans hn⟩
  · intro f r' p' j g hf hp' hu' hn
    rcases hnew hf with ⟨rfl, rfl, rfl⟩ | hf
    · simp [hempty j hu'] at hn
    · have hc := h.child hf hp' hu' ((hm hf j).symm.trans hn)
      rwa [update_of_ne (hold hc)]
  · intro f r' p' j g hf hp' hn
    rcases hnew hf with ⟨_, _, rfl⟩ | hf
    · simp at hp'; omega
    · have hg := h.leaf hf hp' ((hm hf j).symm.trans hn)
      have hgr : g ≠ r := by rintro rfl; simp [hg] at hr
      rwa [update_of_ne hgr]

omit [DecidableEq F] in
theorem removeRoot (h : Forest next d U m roots role) {r : F} {role' : F → Role F I}
    (hkeep : ∀ {f r' p'}, r' ≠ r → role f = .table r' p' → role' f = role f)
    (htab : ∀ {f r' p'}, role' f = .table r' p' → r' ≠ r ∧ role f = .table r' p')
    (hdata : ∀ {t r' p' i g}, r' ≠ r → role t = .table r' p' → p'.length = d →
      next (m t i) = some g → role' g = .data) :
    Forest next d U m (roots \ {r}) role' := by
  refine ⟨?_, ?_, ?_, ?_, ?_, ?_⟩
  · rintro r' ⟨hr', hne⟩
    have := h.root r' hr'
    rw [hkeep hne this, this]
  · intro f r' hf; exact h.base (htab hf).2
  · intro f r' p' hf
    obtain ⟨hne, hf⟩ := htab hf
    exact ⟨⟨(h.live hf).1, hne⟩, (h.live hf).2⟩
  · intro f r' p' j hf
    obtain ⟨hne, hf⟩ := htab hf
    obtain ⟨g, hg, hn⟩ := h.linked hf
    exact ⟨g, by rw [hkeep hne hg, hg], hn⟩
  · intro f r' p' j g hf hp' hu' hn
    obtain ⟨hne, hf⟩ := htab hf
    have hc := h.child hf hp' hu' hn
    rw [hkeep hne hc, hc]
  · intro f r' p' j g hf hp' hn
    obtain ⟨hne, hf⟩ := htab hf
    exact hdata hne hf hp' hn

end Forest

end SeedOS.Foundation
