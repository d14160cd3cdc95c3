import Mathlib.Logic.Function.Basic
import SeedOS.Foundation.Chain

namespace SeedOS.Foundation

open Function

/-- The links of a node in a forest that is held in the nodes themselves. -/
structure Kin (A : Type*) where
  parent : Option A
  children : Option A
  sibling : Option A

variable {A : Type*}

def siblings (t : A → Option (Kin A)) (a : A) : Option (Option A) := (t a).map (·.sibling)

/-- The children list of a node holds the nodes of which it is the parent, and no
parent pointer dangles. -/
structure Family (t : A → Option (Kin A)) : Prop where
  children : ∀ q Q, t q = some Q → ∃ cs, Chain (siblings t) Q.children cs ∧
    ∀ c, c ∈ cs ↔ ∃ C, t c = some C ∧ C.parent = some q
  parent : ∀ c C q, t c = some C → C.parent = some q → (t q).isSome ∧ q ≠ c

variable [DecidableEq A]

def setSlot (t : A → Option (Kin A)) (p : A) (slot : Slot A) (link : Option A) :
    A → Option (Kin A) :=
  match slot with
  | .head => update t p ((t p).map fun P ↦ { P with children := link })
  | .link a => update t a ((t a).map fun P ↦ { P with sibling := link })

section Slot

variable (t : A → Option (Kin A)) (p : A) (slot : Slot A) (link : Option A) (a : A)

theorem setSlot_eq : setSlot t p slot link a =
    if slot = .head ∧ a = p then (t a).map fun P ↦ { P with children := link }
    else if slot = .link a then (t a).map fun P ↦ { P with sibling := link } else t a := by
  cases slot with
  | head =>
    by_cases ha : a = p
    · subst ha
      simp [setSlot]
    · simp [setSlot, ha]
  | link b =>
    by_cases ha : a = b
    · subst ha
      simp [setSlot]
    · simp [setSlot, ha, Ne.symm ha]

theorem setSlot_parent : (setSlot t p slot link a).map (·.parent) = (t a).map (·.parent) := by
  rw [setSlot_eq]
  split_ifs <;> simp [Function.comp_def]

theorem setSlot_sibling : siblings (setSlot t p slot link) a =
    if slot = .link a then (t a).map fun _ ↦ link else siblings t a := by
  rw [siblings, siblings, setSlot_eq]
  split_ifs with hhead hlink <;> simp_all [Function.comp_def]

theorem setSlot_children : (setSlot t p slot link a).map (·.children) =
    if slot = .head ∧ a = p then (t a).map fun _ ↦ link else (t a).map (·.children) := by
  rw [setSlot_eq]
  split_ifs <;> simp [Function.comp_def]

end Slot

/-- The nodes of `t'` are those of `t`, and all but `c` have the parent they had. -/
structure SameParents (t t' : A → Option (Kin A)) (c : A) : Prop where
  isSome : ∀ a, (t' a).isSome = (t a).isSome
  parent : ∀ a, a ≠ c → (t' a).map (·.parent) = (t a).map (·.parent)

omit [DecidableEq A] in
theorem SameParents.mem_iff {t t' : A → Option (Kin A)} {c : A} (h : SameParents t t' c) (q : A)
    {a : A} (hac : a ≠ c) : (∃ X, t' a = some X ∧ X.parent = some q) ↔
      ∃ X, t a = some X ∧ X.parent = some q := by
  rw [← Option.map_eq_some_iff, ← Option.map_eq_some_iff, h.parent a hac]

namespace Family

variable {t : A → Option (Kin A)} {c p i : A} {C P I : Kin A}

omit [DecidableEq A] in
theorem mem_some (h : Family t) {q : A} {Q : Kin A} (hq : t q = some Q) {cs : List A}
    (hcs : Chain (siblings t) Q.children cs) {c : A} :
    c ∈ cs ↔ ∃ C, t c = some C ∧ C.parent = some q := by
  obtain ⟨cs', hcs', hmem⟩ := h.children q Q hq
  rw [hcs.unique hcs', hmem]

theorem siblings_update (a : A) (x : Option (Kin A)) (b : A) :
    siblings (update t a x) b = if b = a then x.map (·.sibling) else siblings t b := by
  unfold siblings
  by_cases hb : b = a
  · subst hb; simp
  · simp [hb]

theorem addRoot (h : Family t) (hc : t c = none) (s : Option A) :
    Family (update t c (some ⟨none, none, s⟩)) := by
  have hne : ∀ {a X}, t a = some X → a ≠ c := by
    rintro a X ha rfl
    simp [hc] at ha
  refine ⟨fun q Q hq ↦ ?_, fun a X q ha hX ↦ ?_⟩
  · by_cases hqc : q = c
    · subst hqc
      rw [update_self, Option.some.injEq] at hq
      obtain rfl := hq
      refine ⟨[], .nil, fun a ↦ ⟨by simp, ?_⟩⟩
      rintro ⟨X, ha, hX⟩
      by_cases hac : a = q
      · subst hac
        rw [update_self, Option.some.injEq] at ha
        simp [← ha] at hX
      · rw [update_of_ne hac] at ha
        have := (h.parent a X q ha hX).1
        simp [hc] at this
    · rw [update_of_ne hqc] at hq
      obtain ⟨cs, hcs, hmem⟩ := h.children q Q hq
      refine ⟨cs, hcs.congr fun a ha ↦ ?_, fun a ↦ ?_⟩
      · obtain ⟨X, hX, _⟩ := (hmem a).mp ha
        rw [siblings_update, if_neg (hne hX)]
      · rw [hmem]
        by_cases hac : a = c
        · subst hac; simp [hc]
        · rw [update_of_ne hac]
  · by_cases hac : a = c
    · subst hac
      rw [update_self, Option.some.injEq] at ha
      simp [← ha] at hX
    · rw [update_of_ne hac] at ha
      obtain ⟨hq, hne'⟩ := h.parent a X q ha hX
      obtain ⟨Q, hQ⟩ := Option.isSome_iff_exists.mp hq
      exact ⟨by rw [update_of_ne (hne hQ)]; exact hq, hne'⟩

theorem removeRoot (h : Family t) (hc : t c = some C) (hparent : C.parent = none)
    (hchildren : C.children = none) : Family (update t c none) := by
  have hleaf : ∀ {a X}, t a = some X → X.parent ≠ some c := by
    intro a X ha hX
    obtain ⟨cs, hcs, hmem⟩ := h.children c C hc
    rw [hchildren] at hcs
    have := (hmem a).mpr ⟨X, ha, hX⟩
    simp [hcs.eq_nil] at this
  have hold : ∀ {a X}, update t c none a = some X → a ≠ c ∧ t a = some X := by
    intro a X ha
    have hac : a ≠ c := by rintro rfl; simp at ha
    exact ⟨hac, by rwa [update_of_ne hac] at ha⟩
  refine ⟨fun q Q hq ↦ ?_, fun a X q ha hX ↦ ?_⟩
  · obtain ⟨cs, hcs, hmem⟩ := h.children q Q (hold hq).2
    have hne : ∀ {a X}, t a = some X → X.parent = some q → a ≠ c := by
      rintro a X ha hX rfl
      rw [hc, Option.some.injEq] at ha
      simp [← ha, hparent] at hX
    refine ⟨cs, hcs.congr fun a ha ↦ ?_, fun a ↦ (hmem a).trans ⟨?_, ?_⟩⟩
    · obtain ⟨X, hX, hq'⟩ := (hmem a).mp ha
      rw [siblings_update, if_neg (hne hX hq')]
    · rintro ⟨X, hX, hq'⟩
      exact ⟨X, by rw [update_of_ne (hne hX hq'), hX], hq'⟩
    · rintro ⟨X, hX, hq'⟩
      exact ⟨X, (hold hX).2, hq'⟩
  · obtain ⟨hq, hne⟩ := h.parent a X q (hold ha).2 hX
    refine ⟨?_, hne⟩
    rw [update_of_ne]
    · exact hq
    · rintro rfl
      exact hleaf (hold ha).2 hX

theorem attach (h : Family t) (hc : t c = some C) (hroot : C.parent = none) (hp : t p = some P)
    (hpc : p ≠ c) :
    Family (update (update t c (some { C with parent := some p, sibling := P.children })) p
      (some { P with children := some c })) := by
  obtain ⟨t', ht'⟩ : ∃ t', t' = update (update t c
    (some { C with parent := some p, sibling := P.children })) p
    (some { P with children := some c }) := ⟨_, rfl⟩
  have hc' : t' c = some { C with parent := some p, sibling := P.children } := by
    rw [ht', update_of_ne (Ne.symm hpc), update_self]
  have hp' : t' p = some { P with children := some c } := by rw [ht', update_self]
  have ho' : ∀ a, a ≠ c → a ≠ p → t' a = t a := fun a hac hap ↦ by
    rw [ht', update_of_ne hap, update_of_ne hac]
  have hsame : SameParents t t' c := by
    refine ⟨fun a ↦ ?_, fun a hac ↦ ?_⟩
    · by_cases hac : a = c
      · subst hac; simp [hc, hc']
      · by_cases hap : a = p
        · subst hap; simp [hp, hp']
        · rw [ho' a hac hap]
    · by_cases hap : a = p
      · subst hap; simp [hp, hp']
      · rw [ho' a hac hap]
  have hsib : ∀ a, a ≠ c → siblings t' a = siblings t a := by
    intro a hac
    by_cases hap : a = p
    · subst hap; simp [siblings, hp, hp']
    · rw [siblings, siblings, ho' a hac hap]
  have hkids : ∀ q Q, t q = some Q → ∃ cs, Chain (siblings t') Q.children cs ∧ c ∉ cs ∧
      ∀ a, a ∈ cs ↔ ∃ X, t a = some X ∧ X.parent = some q := by
    intro q Q hq
    obtain ⟨cs, hcs, hmem⟩ := h.children q Q hq
    have hccs : c ∉ cs := by
      intro hcc
      obtain ⟨X, hX, hq'⟩ := (hmem c).mp hcc
      rw [hc, Option.some.injEq] at hX
      simp [← hX, hroot] at hq'
    exact ⟨cs, hcs.congr fun a ha ↦ hsib a fun hac ↦ hccs (hac ▸ ha), hccs, hmem⟩
  rw [← ht']
  refine ⟨fun q Q hq ↦ ?_, fun a X q ha hX ↦ ?_⟩
  · by_cases hqp : q = p
    · subst hqp
      rw [hp', Option.some.injEq] at hq
      obtain rfl := hq
      obtain ⟨cs, hcs, _, hmem⟩ := hkids q P hp
      refine ⟨c :: cs, .cons (by rw [siblings, hc', Option.map_some]) hcs, fun a ↦ ?_⟩
      by_cases hac : a = c
      · subst hac
        simp [hc']
      · rw [List.mem_cons, or_iff_right hac, hmem, hsame.mem_iff q hac]
    · obtain ⟨Q₀, hq₀, hQ⟩ : ∃ Q₀, t q = some Q₀ ∧ Q.children = Q₀.children := by
        by_cases hqc : q = c
        · subst hqc
          rw [hc', Option.some.injEq] at hq
          exact ⟨C, hc, by rw [← hq]⟩
        · exact ⟨Q, by rw [← ho' q hqc hqp, hq], rfl⟩
      obtain ⟨cs, hcs, hccs, hmem⟩ := hkids q Q₀ hq₀
      refine ⟨cs, hQ ▸ hcs, fun a ↦ ?_⟩
      by_cases hac : a = c
      · subst hac
        simp [hccs, hc', Ne.symm hqp]
      · rw [hmem, hsame.mem_iff q hac]
  · by_cases hac : a = c
    · subst hac
      rw [hc', Option.some.injEq] at ha
      rw [← ha, Option.some.injEq] at hX
      subst hX
      exact ⟨by rw [hp', Option.isSome_some], hpc⟩
    · obtain ⟨X₀, hX₀, hq⟩ := (hsame.mem_iff q hac).mp ⟨X, ha, hX⟩
      rw [hsame.isSome]
      exact h.parent a X₀ q hX₀ hq

section Detach

variable {t' : A → Option (Kin A)} {pre post : List A} {q : A} {Q : Kin A} (hc : t c = some C)
  (ht' : t' = update (setSlot t p (slotAfter .head pre) C.sibling) c
    (some { C with parent := none }))
include hc ht'

theorem detach_same : SameParents t t' c := by
  have hparent : ∀ a, a ≠ c → (t' a).map (·.parent) = (t a).map (·.parent) := fun a hac ↦ by
    rw [ht', update_of_ne hac, setSlot_parent]
  refine ⟨fun a ↦ ?_, hparent⟩
  by_cases hac : a = c
  · subst hac
    rw [ht', update_self, hc, Option.isSome_some, Option.isSome_some]
  · rw [← Option.isSome_map, hparent a hac, Option.isSome_map]

theorem detach_kids (hpc : p ≠ c) (hq : t' q = some Q) : ∃ Q₀, t q = some Q₀ ∧
    Q.children = if pre = [] ∧ q = p then C.sibling else Q₀.children := by
  by_cases hqc : q = c
  · subst hqc
    rw [ht', update_self, Option.some.injEq] at hq
    exact ⟨C, hc, by rw [if_neg fun hh ↦ hpc hh.2.symm, ← hq]⟩
  · have hmap := setSlot_children t p (slotAfter .head pre) C.sibling q
    rw [ht', update_of_ne hqc] at hq
    rw [hq, Option.map_some] at hmap
    simp only [Chain.slotAfter_eq_head, true_and] at hmap
    split_ifs at hmap ⊢ with hh
    · obtain ⟨Q₀, hQ₀, heq⟩ := Option.map_eq_some_iff.mp hmap.symm
      exact ⟨Q₀, hQ₀, heq.symm⟩
    · obtain ⟨Q₀, hQ₀, heq⟩ := Option.map_eq_some_iff.mp hmap.symm
      exact ⟨Q₀, hQ₀, heq.symm⟩

variable (h : Family t) (hp : t p = some P)
  (hcs : Chain (siblings t) P.children (pre ++ c :: post))
include h hp hcs

theorem detach_parent {link : Option A}
    (hlink : link = if pre = [] then C.sibling else P.children) :
    Chain (siblings t') link (pre ++ post) ∧ ∀ a, a ∈ pre ++ post ↔
      a ≠ c ∧ ∃ X, t a = some X ∧ X.parent = some p := by
  have hnd := hcs.nodup
  rw [List.nodup_append, List.nodup_cons] at hnd
  obtain ⟨-, ⟨hcpost, -⟩, hdisj⟩ := hnd
  have hne : ∀ {a}, a ∈ pre ++ post → a ≠ c := by
    rintro a ha rfl
    exact (List.mem_append.mp ha).elim (fun ha ↦ hdisj a ha a List.mem_cons_self rfl) hcpost
  have hsib : ∀ a, a ≠ c → siblings t' a = if slotAfter .head pre = .link a then
      (t a).map fun _ ↦ C.sibling else siblings t a := fun a hac ↦ by
    rw [← setSlot_sibling t p, ht', siblings_update, if_neg hac]
  refine ⟨hcs.unlink (t := C.sibling) .head (by rw [siblings, hc, Option.map_some]) (by simp)
    hlink (fun a ha hs ↦ ?_) fun a ha hs ↦ ?_, fun a ↦ ?_⟩
  · obtain ⟨X, hX, _⟩ := (h.mem_some hp hcs).mp (List.mem_append_left _ ha)
    rw [hsib a (hne (List.mem_append_left _ ha)), if_pos hs, hX, Option.map_some]
  · rw [hsib a (hne ha), if_neg hs]
  · rw [← h.mem_some hp hcs]
    constructor
    · intro ha
      exact ⟨hne ha, by simp at ha ⊢; tauto⟩
    · rintro ⟨hac, ha⟩
      simpa [hac] using ha

omit hc in
theorem detach_other (hqp : q ≠ p) (hq : t q = some Q) : ∃ cs, Chain (siblings t') Q.children cs ∧
    c ∉ cs ∧ ∀ a, a ∈ cs ↔ ∃ X, t a = some X ∧ X.parent = some q := by
  obtain ⟨cs, hcs', hmem⟩ := h.children q Q hq
  -- the children of `q` are not those of `p`
  have hother : ∀ a ∈ cs, a ∉ pre ++ c :: post := by
    intro a ha hap
    obtain ⟨X, hX, hXq⟩ := (hmem a).mp ha
    obtain ⟨Y, hY, hYp⟩ := (h.mem_some hp hcs).mp hap
    rw [hX, Option.some.injEq] at hY
    rw [← hY, hXq, Option.some.injEq] at hYp
    exact hqp hYp
  have hccs : c ∉ cs := fun ha ↦ hother c ha (by simp)
  refine ⟨cs, hcs'.congr fun a ha ↦ ?_, hccs, hmem⟩
  have hac : a ≠ c := fun hac ↦ hccs (hac ▸ ha)
  rw [ht', siblings_update, if_neg hac, setSlot_sibling, if_neg]
  intro hs
  exact hother a ha (List.mem_append_left _ (Chain.mem_of_slotAfter hs))

end Detach

theorem detach (h : Family t) (hc : t c = some C) (hC : C.parent = some p) (hp : t p = some P)
    {pre post : List A} (hcs : Chain (siblings t) P.children (pre ++ c :: post)) :
    Family (update (setSlot t p (slotAfter .head pre) C.sibling) c
      (some { C with parent := none })) := by
  obtain ⟨t', ht'⟩ : ∃ t', t' = update (setSlot t p (slotAfter .head pre) C.sibling) c
    (some { C with parent := none }) := ⟨_, rfl⟩
  have hsame := detach_same hc ht'
  have hcnot : ∀ q, ¬ ∃ X, t' c = some X ∧ X.parent = some q := by simp [ht']
  rw [← ht']
  refine ⟨fun q Q hq ↦ ?_, fun a X q ha hX ↦ ?_⟩
  · obtain ⟨Q₀, hq₀, hQ⟩ := detach_kids hc ht' (h.parent c C p hc hC).2 hq
    by_cases hqp : q = p
    · subst hqp
      rw [hp, Option.some.injEq] at hq₀
      subst hq₀
      obtain ⟨hchain, hmem⟩ := detach_parent hc ht' h hp hcs (by simpa using hQ)
      refine ⟨pre ++ post, hchain, fun a ↦ (hmem a).trans ?_⟩
      by_cases hac : a = c
      · subst hac
        exact ⟨fun ha ↦ absurd rfl ha.1, fun ha ↦ absurd ha (hcnot q)⟩
      · rw [hsame.mem_iff q hac, and_iff_right hac]
    · rw [if_neg fun hh ↦ hqp hh.2] at hQ
      obtain ⟨cs, hchain, hccs, hmem⟩ := detach_other ht' h hp hcs hqp hq₀
      refine ⟨cs, hQ ▸ hchain, fun a ↦ ?_⟩
      by_cases hac : a = c
      · subst hac
        exact ⟨fun ha ↦ absurd ha hccs, fun ha ↦ absurd ha (hcnot q)⟩
      · rw [hmem, hsame.mem_iff q hac]
  · have hac : a ≠ c := by
      rintro rfl
      exact hcnot q ⟨X, ha, hX⟩
    obtain ⟨X₀, hX₀, hq⟩ := (hsame.mem_iff q hac).mp ⟨X, ha, hX⟩
    rw [hsame.isSome]
    exact h.parent a X₀ q hX₀ hq

theorem addChild (h : Family t) (hc : t c = none) (hp : t p = some P) :
    Family (update (update t c (some ⟨some p, none, P.children⟩)) p
      (some { P with children := some c })) := by
  have hpc : p ≠ c := by
    rintro rfl
    simp [hc] at hp
  have hfam := (h.addRoot hc none).attach (update_self ..) rfl
    (by rw [update_of_ne hpc, hp]) hpc
  rwa [update_idem] at hfam

theorem removeLeaf (h : Family t) (hc : t c = some C) (hleaf : C.children = none)
    (hC : C.parent = some p) (hp : t p = some P) {pre post : List A}
    (hcs : Chain (siblings t) P.children (pre ++ c :: post)) :
    Family (update (setSlot t p (slotAfter .head pre) C.sibling) c none) := by
  have hfam := (h.detach hc hC hp hcs).removeRoot (update_self ..) rfl hleaf
  rwa [update_idem] at hfam

omit [DecidableEq A] in
theorem first (h : Family t) (hp : t p = some P) (hchild : P.children = some c) :
    ∃ C post, t c = some C ∧ C.parent = some p ∧ Chain (siblings t) P.children (c :: post) ∧
      p ≠ c := by
  obtain ⟨cs, hcs, hmem⟩ := h.children p P hp
  obtain ⟨post, rfl⟩ : ∃ post, cs = c :: post := by
    rw [hchild] at hcs
    cases hcs with
    | cons _ _ => exact ⟨_, rfl⟩
  obtain ⟨C, hC, hparent⟩ := (hmem c).mp List.mem_cons_self
  exact ⟨C, post, hC, hparent, hcs, (h.parent c C p hC hparent).2⟩

theorem moveFirst (h : Family t) (hp : t p = some P) (hchild : P.children = some c)
    (hc : t c = some C) (hi : t i = some I) (hpi : p ≠ i) (hci : c ≠ i) :
    Family (update (update (update t p (some { P with children := C.sibling })) c
      (some { C with parent := some i, sibling := I.children })) i
      (some { I with children := some c })) := by
  obtain ⟨C', post, hC', hparent, hcs, -⟩ := h.first hp hchild
  rw [hc, Option.some.injEq] at hC'
  subst hC'
  have hdetach := h.detach hc hparent hp (show Chain _ _ ([] ++ c :: post) from hcs)
  have hfam := hdetach.attach (c := c) (p := i) (P := I) (update_self ..) rfl
    (by simp [setSlot, slotAfter, hci.symm, hpi.symm, hi]) hci.symm
  rw [update_idem] at hfam
  simpa only [setSlot, slotAfter, hp, Option.map_some] using hfam

end Family

end SeedOS.Foundation
