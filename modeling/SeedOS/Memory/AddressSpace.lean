import SeedOS.Memory.MapPage

namespace SeedOS.Memory

open Foundation Function

variable {s s' : Vm} {roots : Set ℕ} {role : Roles}

theorem Inv.kernel_reserved (h : Inv s roots role) :
    role (pageOf s.kernelPml4Phys) = .reserved :=
  h.kernelTable (p := []) ⟨by simp, by simp⟩ rfl

section Create

theorem newSpace_spec (h : Inv s roots role) {r : ℕ} {pmm : Pmm} (page : Fin 512 → Word)
    (hav : s.pmm.Available r) (htk : s.pmm.Takes pmm r)
    (hlow : ∀ i : Fin 512, i.val < 256 → page i = 0#64)
    (hhigh : ∀ i : Fin 512, 256 ≤ i.val → page i = s.mem (pageOf s.kernelPml4Phys) i)
    (hs : s' = { s with pmm := pmm }.fill r page) :
    Inv s' (insert r roots) (update role r (.table r [])) ∧
      Keeps s s' role (update role r (.table r [])) ∧ r ∉ roots ∧ SameLeaves s s' roots ∧
      ∀ σ : Site, σ.Valid (insert r roots) → σ.root = r → leafEntry s'.mem σ = 0#64 := by
  have hfree := h.free_of_available hav
  have hne : ∀ {k x}, role k = x → x ≠ .free → k ≠ r := by
    rintro k x hk hx rfl
    exact hx (hk.symm.trans hfree)
  have hr : r ∉ roots := fun hc ↦ hne (h.forest.root r hc) (by simp) rfl
  have hk : s'.kernelPml4Phys = s.kernelPml4Phys := by rw [hs]; rfl
  have hp : s'.pmm = pmm := by rw [hs]; rfl
  have hm : ∀ k, k ≠ r → s'.mem k = s.mem k := by
    intro k hkr
    rw [hs, Vm.fill_mem, if_neg hkr]
  have hpage : s'.mem r = page := by rw [hs, Vm.fill_mem, if_pos rfl]
  have hold : ∀ {k x}, k ≠ r → update role r (.table r []) k = x → role k = x := by
    intro k x hkr hx
    rwa [update_of_ne hkr] at hx
  have hinv : Inv s' (insert r roots) (update role r (.table r [])) := by
    refine h.step hk ?_ ?_ ?_ ?_ ?_ ?_
    · intro k hkr
      have hkne := hne hkr (by simp)
      exact ⟨hm k hkne, by rw [update_of_ne hkne, hkr]⟩
    · refine h.forest.addRoot hfree userPath_nil ?_ (by decide) ?_
      · intro i hi
        rw [hpage, hlow i (userPath_cons.mp hi), entryNext_zero]
      · intro k r' p' hkr i
        rw [hm k (hne hkr (by simp))]
    · intro k hkr
      rw [hp]
      by_cases hkne : k = r
      · exact hkne ▸ htk.owned_self hav
      · rw [update_of_ne hkne] at hkr
        exact htk.owned (h.owned hkr)
    · intro k hkr hka
      rw [hp] at hka
      obtain ⟨hka, hkne⟩ := htk.available hka
      exact h.held (hold hkne hkr) hka
    · intro k r' p' i hkr hl hu hpres
      by_cases hkne : k = r
      · subst hkne
        rw [update_self] at hkr
        injection hkr with _ hpp
        subst hpp
        rw [hpage, hlow i (userPath_cons.mp hu), hasFlag_zero] at hpres
        simp at hpres
      · rw [hm k hkne] at hpres ⊢
        exact h.plain (hold hkne hkr) hl hu hpres
    · rintro r' hr' i hi
      rcases hr' with rfl | hr'
      · rw [hpage, hhigh i hi]
      · rw [hm r' (by rintro rfl; exact hr hr')]
        exact h.kernelHalf r' hr' i hi
  have hlong : ∀ {k r' p'}, update role r (.table r []) k = .table r' p' → p'.length = 3 →
      role k = .table r' p' := fun hkr hl ↦
    hold (Role.ne_of_length hkr (update_self _ _ _) (by simp [hl])) hkr
  refine ⟨hinv, ⟨?_, update_eq_iff (by simp [hfree]) (by simp),
    update_eq_iff (by simp [hfree]) (by simp), hk⟩, hr, ?_, ?_⟩
  · intro k hkr
    refine hm k ?_
    rintro rfl
    simp [hfree] at hkr
  · intro σ hσ
    refine h.tabled.leafEntry_eq hinv.tabled hσ ⟨.inr hσ.root, hσ.user, hσ.length⟩
      (fun k hkr ↦ ?_) fun k hkr ↦ ?_
    · have hkne := hne hkr (by simp)
      exact ⟨by rwa [update_of_ne hkne], by rw [hm k hkne]⟩
    · exact .inl (hlong hkr hσ.length)
  · intro σ hσ hroot
    refine hinv.tabled.leafEntry_of_none hσ fun k hkr ↦ ?_
    rw [hroot] at hkr
    exact hr (h.forest.live (hlong hkr hσ.length)).1

theorem vmmCreateAddressSpace_zero (heq : vmmCreateAddressSpace s = (0#64, s')) : s' = s := by
  unfold vmmCreateAddressSpace at heq
  rcases allocPageTable_cases s with ha | ⟨r, pmm, ha, hr0, _, _⟩
  · simp only [ha, if_true, Prod.mk.injEq] at heq
    exact heq.2.symm
  · simp only [ha, if_neg hr0, Prod.mk.injEq] at heq
    exact absurd heq.1 hr0

theorem vmmCreateAddressSpace_fresh {phys : Word}
    (hk : ¬ s.pmm.Available (pageOf s.kernelPml4Phys))
    (heq : vmmCreateAddressSpace s = (phys, s')) (hne : phys ≠ 0#64) :
    ∃ r pmm, phys = pageAddr r ∧ pageOf phys = r ∧ s.pmm.Available r ∧ s.pmm.Takes pmm r ∧
      s' = { s with pmm := pmm }.fill r fun i ↦
        if 256 ≤ i.val then s.mem (pageOf s.kernelPml4Phys) i else 0#64 := by
  unfold vmmCreateAddressSpace at heq
  rcases allocPageTable_cases s with ha | ⟨r, pmm, ha, hr0, hav, htk⟩
  · simp only [ha, if_true, Prod.mk.injEq] at heq
    exact absurd heq.1.symm hne
  · have hr : pageOf (pageAddr r) = r := pageOf_pageAddr (by have := hav.lt; omega)
    have hkr : pageOf s.kernelPml4Phys ≠ r := by
      rintro rfl
      exact hk hav
    simp only [ha, if_neg hr0, Prod.mk.injEq, hr] at heq
    obtain ⟨rfl, rfl⟩ := heq
    refine ⟨r, pmm, rfl, hr, hav, htk, ?_⟩
    simp only [Vm.fill, update_self, update_idem, update_of_ne hkr]

theorem vmmCreateAddressSpace_spec (h : Inv s roots role) {phys : Word}
    (heq : vmmCreateAddressSpace s = (phys, s')) (hne : phys ≠ 0#64) :
    phys = pageAddr (pageOf phys) ∧
    ∃ role', Inv s' (insert (pageOf phys) roots) role' ∧ Keeps s s' role role' ∧
      pageOf phys ∉ roots ∧ SameLeaves s s' roots ∧
      ∀ σ : Site, σ.Valid (insert (pageOf phys) roots) → σ.root = pageOf phys →
        leafEntry s'.mem σ = 0#64 := by
  obtain ⟨r, pmm, rfl, hr, hav, htk, hs⟩ :=
    vmmCreateAddressSpace_fresh (h.held h.kernel_reserved) heq hne
  rw [hr]
  exact ⟨rfl, _, newSpace_spec h
    (fun i ↦ if 256 ≤ i.val then s.mem (pageOf s.kernelPml4Phys) i else 0#64) hav htk
    (fun i hi ↦ if_neg (by omega)) (fun i hi ↦ if_pos hi) hs⟩

end Create

section Free

theorem pmmFree_isUsed {p : Pmm} {f : ℕ} (hf : f < p.totalPages) :
    (pmmFree p (pageAddr f)).totalPages = p.totalPages ∧
    ∀ g, bitmapIsUsed (pmmFree p (pageAddr f)).bitmap g =
      (decide (g ≠ f) && bitmapIsUsed p.bitmap g) := by
  have hle := p.totalPages_le
  have hdiv : (pageAddr f).toNat / 4096 = f := pageOf_pageAddr (by omega)
  cases hu : bitmapIsUsed p.bitmap f with
  | true =>
    obtain ⟨-, htotal, -, hbits⟩ := pmmFree_marked ⟨hf, hu⟩
    exact ⟨htotal, hbits⟩
  | false =>
    have he : pmmFreeError p (pageAddr f) = some .doubleFree := by
      simp only [pmmFreeError, pageAddr_aligned, hdiv]
      simp [hf, hu]
    simp only [pmmFree, he]
    refine ⟨trivial, fun g ↦ ?_⟩
    by_cases hg : g = f
    · subst hg; simp [hu]
    · simp [hg]

/-- `g` is reached from `table` through one of `slots` and at most `level` more entries. -/
def Below (mem : ℕ → Fin 512 → Word) (level table : ℕ) (slots : List (Fin 512)) (g : ℕ) : Prop :=
  ∃ i ∈ slots, ∃ q : List (Fin 512), q.length ≤ level ∧
    tableAt entryNext mem table (i :: q) = some g

theorem below_cons (mem : ℕ → Fin 512 → Word) (level table : ℕ) (i : Fin 512)
    (slots : List (Fin 512)) (g : ℕ) : Below mem level table (i :: slots) g ↔
      Below mem level table [i] g ∨ Below mem level table slots g := by
  simp only [Below, List.mem_cons, List.not_mem_nil, or_false]
  constructor
  · rintro ⟨j, rfl | hj, hq⟩
    · exact .inl ⟨j, rfl, hq⟩
    · exact .inr ⟨j, hj, hq⟩
  · rintro (⟨j, rfl, hq⟩ | ⟨j, hj, hq⟩)
    · exact ⟨j, .inl rfl, hq⟩
    · exact ⟨j, .inr hj, hq⟩

theorem below_absent {mem : ℕ → Fin 512 → Word} {level table : ℕ} {i : Fin 512}
    (hi : hasFlag (mem table i) ptePresent = false) (g : ℕ) : ¬ Below mem level table [i] g := by
  rintro ⟨j, hj, q, _, ht⟩
  obtain rfl := List.mem_singleton.mp hj
  simp [tableAt, entryNext_none.mpr hi] at ht

theorem below_present {mem : ℕ → Fin 512 → Word} {level table : ℕ} {i : Fin 512}
    (hi : hasFlag (mem table i) ptePresent = true) (g : ℕ) :
    Below mem (level + 1) table [i] g ↔
      g = frameOf (mem table i) ∨ Below mem level (frameOf (mem table i)) (List.finRange 512) g := by
  have he : entryNext (mem table i) = some (frameOf (mem table i)) := entryNext_some.mpr ⟨hi, rfl⟩
  constructor
  · rintro ⟨j, hj, q, hq, ht⟩
    obtain rfl := List.mem_singleton.mp hj
    cases q with
    | nil => exact .inl (by simpa [tableAt, he] using ht.symm)
    | cons k q =>
      refine .inr ⟨k, List.mem_finRange k, q, ?_, ?_⟩
      · simpa using hq
      · simpa [tableAt, he] using ht
  · rintro (rfl | ⟨k, _, q, hq, ht⟩)
    · exact ⟨i, List.mem_singleton_self i, [], by simp, by simp [tableAt, he]⟩
    · exact ⟨i, List.mem_singleton_self i, k :: q, by simpa using hq, by
        rw [tableAt, he]; exact ht⟩

theorem below_leaf {mem : ℕ → Fin 512 → Word} {table : ℕ} {i : Fin 512}
    (hi : hasFlag (mem table i) ptePresent = true) (g : ℕ) :
    Below mem 0 table [i] g ↔ g = frameOf (mem table i) := by
  have he : entryNext (mem table i) = some (frameOf (mem table i)) := entryNext_some.mpr ⟨hi, rfl⟩
  constructor
  · rintro ⟨j, hj, q, hq, ht⟩
    obtain rfl := List.mem_singleton.mp hj
    obtain rfl := List.length_eq_zero_iff.mp (Nat.le_zero.mp hq)
    simpa [tableAt, he] using ht.symm
  · rintro rfl
    exact ⟨i, List.mem_singleton_self i, [], by simp, by simp [tableAt, he]⟩

structure Frees (p p' : Pmm) (freed : ℕ → Prop) : Prop where
  total : p'.totalPages = p.totalPages
  used : ∀ g, bitmapIsUsed p'.bitmap g = true ↔ bitmapIsUsed p.bitmap g = true ∧ ¬ freed g

theorem Frees.trans {p₁ p₂ p₃ : Pmm} {a b : ℕ → Prop} (h : Frees p₁ p₂ a) (h' : Frees p₂ p₃ b) :
    Frees p₁ p₃ fun g ↦ a g ∨ b g where
  total := h'.total.trans h.total
  used g := by rw [h'.used, h.used, not_or, and_assoc]

theorem Frees.congr {p p' : Pmm} {a b : ℕ → Prop} (h : Frees p p' a) (hab : ∀ g, b g ↔ a g) :
    Frees p p' b := ⟨h.total, fun g ↦ by rw [h.used, hab]⟩

theorem frees_none (p : Pmm) {a : ℕ → Prop} (ha : ∀ g, ¬ a g) : Frees p p a :=
  ⟨rfl, fun g ↦ by simp [ha g]⟩

theorem frees_one {p : Pmm} (e : Word) (hf : frameOf e < p.totalPages) :
    Frees p (pmmFree p (e &&& pteAddrMask)) fun g ↦ g = frameOf e := by
  rw [← pageAddr_frameOf]
  refine ⟨(pmmFree_isUsed hf).1, fun g ↦ ?_⟩
  rw [(pmmFree_isUsed hf).2, Bool.and_eq_true, decide_eq_true_iff, and_comm]

theorem freeLoop_frees {mem : ℕ → Fin 512 → Word} {level table : ℕ} {free : Pmm → Word → Pmm}
    (hfree : ∀ (p : Pmm) (i : Fin 512), hasFlag (mem table i) ptePresent = true →
      (∀ g, Below mem level table [i] g → g < p.totalPages) →
      Frees p (free p (mem table i)) (Below mem level table [i]))
    (slots : List (Fin 512)) (p : Pmm)
    (hlt : ∀ g, Below mem level table slots g → g < p.totalPages) :
    Frees p (freeLoop free (mem table) slots p) (Below mem level table slots) := by
  induction slots generalizing p with
  | nil => exact frees_none p (by simp [Below])
  | cons i slots ih =>
    have hcons := below_cons mem level table i slots
    rw [freeLoop]
    cases hp : hasFlag (mem table i) ptePresent with
    | false =>
      rw [if_neg (by simp)]
      refine (ih p fun g hg ↦ hlt g ((hcons g).mpr (.inr hg))).congr fun g ↦ ?_
      rw [hcons, or_iff_right (below_absent hp g)]
    | true =>
      rw [if_pos rfl]
      have hi := hfree p i hp fun g hg ↦ hlt g ((hcons g).mpr (.inl hg))
      refine (hi.trans (ih _ fun g hg ↦ ?_)).congr hcons
      rw [hi.total]
      exact hlt g ((hcons g).mpr (.inr hg))

theorem freeTables_frees (mem : ℕ → Fin 512 → Word) (level : ℕ) (p : Pmm) (table : ℕ)
    (slots : List (Fin 512)) (hlt : ∀ g, Below mem level table slots g → g < p.totalPages) :
    Frees p (freeTables mem level p table slots) (Below mem level table slots) := by
  induction level generalizing p table slots with
  | zero =>
    refine freeLoop_frees (fun p i hp hlt ↦ ?_) slots p hlt
    exact (frees_one _ (hlt _ ((below_leaf hp _).mpr rfl))).congr (below_leaf hp)
  | succ level ih =>
    refine freeLoop_frees (fun p i hp hlt ↦ ?_) slots p hlt
    have h₁ := ih p (frameOf (mem table i)) (List.finRange 512) fun g hg ↦
      hlt g ((below_present hp g).mpr (.inr hg))
    have h₂ := frees_one (p := freeTables mem level p (frameOf (mem table i))
      (List.finRange 512)) (mem table i) (by
        rw [h₁.total]
        exact hlt _ ((below_present hp _).mpr (.inl rfl)))
    exact (h₁.trans h₂).congr fun g ↦ by rw [below_present hp, or_comm]

def Reached (mem : ℕ → Fin 512 → Word) (r g : ℕ) : Prop :=
  ∃ p : List (Fin 512), UserPath p ∧ p.length ≤ 4 ∧ tableAt entryNext mem r p = some g

theorem mem_userSlots {i : Fin 512} : i ∈ userSlots ↔ i.val < 256 := by
  simp [userSlots]

theorem reached_iff {mem : ℕ → Fin 512 → Word} {r g : ℕ} :
    Reached mem r g ↔ Below mem 3 r userSlots g ∨ g = r := by
  constructor
  · rintro ⟨p, hu, hl, ht⟩
    cases p with
    | nil => exact .inr (by simpa [tableAt] using ht.symm)
    | cons i q =>
      exact .inl ⟨i, mem_userSlots.mpr (hu i rfl), q, Nat.le_of_succ_le_succ hl, ht⟩
  · rintro (⟨i, hi, q, hq, ht⟩ | rfl)
    · refine ⟨i :: q, ?_, Nat.succ_le_succ hq, ht⟩
      intro j hj
      have hij : i = j := by simpa using hj
      exact hij ▸ mem_userSlots.mp hi
    · exact ⟨[], userPath_nil, by simp, rfl⟩

theorem Inv.reached_cases (h : Inv s roots role) {r g : ℕ} (hr : r ∈ roots)
    (hg : Reached s.mem r g) :
    (∃ p, role g = .table r p) ∨
      ∃ σ : Site, σ.Valid roots ∧ σ.root = r ∧ entryNext (leafEntry s.mem σ) = some g := by
  obtain ⟨p, hu, hl, ht⟩ := hg
  by_cases hl3 : p.length ≤ 3
  · exact .inl ⟨p, (h.tableAt_iff hr hu hl3).mp ht⟩
  · obtain ⟨q, i, rfl⟩ : ∃ q i, p = q ++ [i] := by
      rcases List.eq_nil_or_concat p with rfl | ⟨q, i, rfl⟩
      · simp at hl3
      · exact ⟨q, i, by simp⟩
    simp only [List.length_append, List.length_singleton] at hl hl3
    rw [tableAt_concat] at ht
    obtain ⟨t, ht, hn⟩ := Option.bind_eq_some_iff.mp ht
    have hlen : q.length = 3 := by omega
    refine .inr ⟨⟨r, q, i⟩, ⟨hr, UserPath.dropLast q i hu, hlen⟩, rfl, ?_⟩
    simpa only [leafEntry, ht] using hn

theorem Inv.owned_of_reached (h : Inv s roots role) {r g : ℕ} (hr : r ∈ roots)
    (hg : Reached s.mem r g) : s.pmm.Owned g := by
  rcases h.reached_cases hr hg with ⟨p, hp⟩ | ⟨σ, hσ, _, hn⟩
  · exact h.owned_table hp
  · exact h.owned (.inl (h.leafEntry_data hσ hn))

theorem vmmFreeUserAddressSpace_frees (h : Inv s roots role) {pml4Phys : Word} {r : ℕ}
    (hpml4 : pml4Phys = pageAddr r) (hr : r ∈ roots) :
    Frees s.pmm (vmmFreeUserAddressSpace s pml4Phys).pmm (Reached s.mem r) := by
  have hrl := (h.owned_table (h.forest.root r hr)).lt
  have h₁ := freeTables_frees s.mem 3 s.pmm r userSlots fun g hg ↦
    (h.owned_of_reached hr (reached_iff.mpr (.inl hg))).2.1
  have h₂ := frees_one (p := freeTables s.mem 3 s.pmm r userSlots) (pageAddr r) (by
    rw [frameOf, pageAddr_and_mask hrl, pageOf_pageAddr (by omega), h₁.total]
    exact (h.owned_table (h.forest.root r hr)).2.1)
  rw [pageAddr_and_mask hrl] at h₂
  simp only [vmmFreeUserAddressSpace, hpml4, pageOf_pageAddr (show r < 2 ^ 52 by omega)]
  refine (h₁.trans h₂).congr fun g ↦ ?_
  rw [reached_iff, frameOf, pageAddr_and_mask hrl, pageOf_pageAddr (by omega)]

theorem vmmFreeUserAddressSpace_spec (h : Inv s roots role) {pml4Phys : Word} {r : ℕ}
    (hpml4 : pml4Phys = pageAddr r) (hr : r ∈ roots)
    (hsole : ∀ σ σ' : Site, σ.Valid roots → σ'.Valid roots → σ.root = r → σ'.root ≠ r → ∀ f,
      entryNext (leafEntry s.mem σ) = some f → entryNext (leafEntry s.mem σ') ≠ some f) :
    ∃ role', Inv (vmmFreeUserAddressSpace s pml4Phys) (roots \ {r}) role' ∧
      ∀ g, role' g = .reserved ↔ role g = .reserved := by
  classical
  have hfree := vmmFreeUserAddressSpace_frees h hpml4 hr
  have hres : ∀ g, role g = .reserved → ¬ Reached s.mem r g := by
    intro g hg hre
    rcases h.reached_cases hr hre with ⟨p, hp⟩ | ⟨σ, hσ, _, hn⟩
    · simp [hg] at hp
    · simp [h.leafEntry_data hσ hn] at hg
  have hother : ∀ {k r' p'}, r' ≠ r → role k = .table r' p' → ¬ Reached s.mem r k := by
    intro k r' p' hne hk hre
    rcases h.reached_cases hr hre with ⟨p, hp⟩ | ⟨σ, hσ, _, hn⟩
    · rw [hk] at hp
      injection hp with hp _
      exact hne hp
    · simp [h.leafEntry_data hσ hn] at hk
  have hkeep : ∀ {k x}, (if Reached s.mem r k then .free else role k) = x → x ≠ .free →
      ¬ Reached s.mem r k ∧ role k = x := by
    intro k x hk hx
    by_cases hre : Reached s.mem r k
    · rw [if_pos hre] at hk
      exact absurd hk.symm hx
    · rw [if_neg hre] at hk
      exact ⟨hre, hk⟩
  refine ⟨fun g ↦ if Reached s.mem r g then .free else role g, ?_, ?_⟩
  · have howned : ∀ {g}, ¬ Reached s.mem r g → s.pmm.Owned g →
        (vmmFreeUserAddressSpace s pml4Phys).pmm.Owned g := by
      intro g hg ho
      exact ⟨ho.1, hfree.total ▸ ho.2.1, (hfree.used g).mpr ⟨ho.2.2, hg⟩⟩
    refine h.step rfl ?_ ?_ ?_ ?_ ?_ ?_
    · intro g hg
      exact ⟨rfl, by rw [if_neg (hres g hg), hg]⟩
    · refine h.forest.removeRoot ?_ ?_ ?_
      · intro k r' p' hne hk
        rw [if_neg (hother hne hk)]
      · intro k r' p' hk
        obtain ⟨hre, htab⟩ := hkeep hk (by simp)
        have hlive := h.forest.live htab
        refine ⟨?_, htab⟩
        rintro rfl
        exact hre ⟨p', hlive.2.1, by omega, h.forest.tableAt_of_role htab⟩
      · intro t r' p' i g hne ht hp' hn
        have hlive := h.forest.live ht
        have hdata := h.forest.leaf ht hp' hn
        rw [if_neg, hdata]
        intro hre
        rcases h.reached_cases hr hre with ⟨p, hp⟩ | ⟨σ, hσ, hσr, hσn⟩
        · simp [hdata] at hp
        · refine hsole σ ⟨r', p', i⟩ hσ ⟨hlive.1, hlive.2.1, hp'⟩ hσr hne g hσn ?_
          rw [h.leafEntry_of_table ht]
          exact hn
    · rintro g (hg | ⟨r', p', hg⟩)
      · obtain ⟨hre, hg⟩ := hkeep hg (by simp)
        exact howned hre (h.owned (.inl hg))
      · obtain ⟨hre, hg⟩ := hkeep hg (by simp)
        exact howned hre (h.owned_table hg)
    · intro g hg hav
      obtain ⟨hre, hg⟩ := hkeep hg (by simp)
      refine h.held hg ⟨hav.1, hfree.total ▸ hav.2.1, ?_⟩
      by_contra hu
      have hu' := (hfree.used g).mpr ⟨by simpa using hu, hre⟩
      simp [hav.2.2] at hu'
    · intro g r' p' i hg hl hu
      exact h.plain (hkeep hg (by simp)).2 hl hu
    · rintro r' ⟨hr', _⟩ i hi
      exact h.kernelHalf r' hr' i hi
  · intro g
    constructor
    · intro hg
      exact (hkeep hg (by simp)).2
    · intro hg
      exact (if_neg (hres g hg)).trans hg

end Free

end SeedOS.Memory
