import SeedOS.Process.MmapFailure

namespace SeedOS.Process

open Foundation Memory Function

structure Alike (roots : Set ℕ) (r : ℕ) (s s' : Vm) : Prop where
  pmm : s'.pmm = s.pmm
  leaves : SameLeaves s s' roots
  tables : ∀ q, UserPath q → q.length ≤ 3 → (Missing s' r q ↔ Missing s r q)

/-- A state of the page tables that the allocator agrees with. -/
def Consistent (roots : Set ℕ) (s : Vm) : Prop := ∃ role, Inv s roots role

def BrkReaches (s : Vm) (pml4Phys oldBrk brk v : Word) : Prop :=
  Reaches s pml4Phys pageAddr ((pagesUpTo brk).toNat - (pagesUpTo oldBrk).toNat)
    (pagesUpTo oldBrk).toNat v

/-- What a call of `sys_brk` has to leave behind that turns `s` into `s'` and fails. -/
structure BrkUndone (roots : Set ℕ) (s s' : Vm) (pml4Phys brkStart oldBrk brk : Word) : Prop where
  mapping : ∀ other v, pageOf other ∈ roots → UserAddress v →
    pageMapping s' other v = pageMapping s other v
  frames : OnlyTables s s' pml4Phys
  -- the same request, whatever has become of the allocator since
  again : ∀ p, Consistent roots { s with pmm := p } → Consistent roots { s' with pmm := p } →
    (∀ v, BrkReaches { s with pmm := p } pml4Phys oldBrk brk v → UserAddress v) →
    (sysBrk { s' with pmm := p } pml4Phys brkStart oldBrk brk).1 =
      (sysBrk { s with pmm := p } pml4Phys brkStart oldBrk brk).1 ∧
    (sysBrk { s' with pmm := p } pml4Phys brkStart oldBrk brk).2.1 =
      (sysBrk { s with pmm := p } pml4Phys brkStart oldBrk brk).2.1 ∧
    ∀ other v, pageOf other ∈ roots → UserAddress v →
      pageMapping (sysBrk { s' with pmm := p } pml4Phys brkStart oldBrk brk).2.2 other v =
        pageMapping (sysBrk { s with pmm := p } pml4Phys brkStart oldBrk brk).2.2 other v

section Step

variable {s s' s₁ s₁' : Vm} {roots : Set ℕ} {role role' : Roles} {pml4Phys v flags : Word}

theorem Alike.frameCost (h : Alike roots (pageOf pml4Phys) s s') (vs : List Word)
    (hv : ∀ v ∈ vs, (pml4Index v).val < 256) :
    Process.frameCost s' pml4Phys vs = Process.frameCost s pml4Phys vs := by
  have hsame : missingTables s' pml4Phys vs = missingTables s pml4Phys vs := by
    refine Finset.filter_congr fun q hq ↦ ?_
    rw [List.mem_toFinset, List.mem_flatMap] at hq
    obtain ⟨v, hvs, hq⟩ := hq
    obtain ⟨hu, hl⟩ := tablePaths_user (hv v hvs) hq
    exact h.tables q hu hl
  rw [Process.frameCost, Process.frameCost, hsame]

theorem mapFreshPage_alike (hal : Alike roots (pageOf pml4Phys) s s') (h : Inv s roots role)
    (h' : Inv s' roots role') (hr : pageOf pml4Phys ∈ roots) (hv : (pml4Index v).val < 256)
    (hfl : MapFlags flags) {res res' : FreshPage}
    (hmap : mapFreshPage s pml4Phys v flags = (res, s₁))
    (hmap' : mapFreshPage s' pml4Phys v flags = (res', s₁')) :
    (res = .mapped ∧ res' = .mapped ∧ Alike roots (pageOf pml4Phys) s₁ s₁') ∨
    (res ≠ .mapped ∧ res' ≠ .mapped ∧ SameLeaves s₁ s₁' roots) := by
  have hcost := hal.frameCost [v] (by simpa using hv)
  obtain ⟨role₁, -, -, hleaf⟩ := mapFreshPage_holds h hr hv hfl hmap
  obtain ⟨role₁', -, -, hleaf'⟩ := mapFreshPage_holds h' hr hv hfl hmap'
  have hlink := mapFreshPage_linked h hr hv hfl hmap
  have hlink' := mapFreshPage_linked h' hr hv hfl hmap'
  rw [hal.pmm, hcost] at hlink'
  rcases hlink with ⟨rfl, hlink⟩ | ⟨hres, hfew⟩
  · rcases hlink' with ⟨rfl, hlink'⟩ | ⟨-, hfew⟩
    · refine .inl ⟨rfl, rfl, ?_, fun σ hσ ↦ ?_, fun q hu hl ↦ ?_⟩
      · rw [hlink'.pmm, hlink.pmm, hal.pmm]
      · obtain ⟨-, f, hav, hf, -, -, hf'⟩ := hleaf.resolve_right fun hc ↦ hc.1 rfl
        obtain ⟨-, g, hav', hg, -, -, hg'⟩ := hleaf'.resolve_right fun hc ↦ hc.1 rfl
        rw [hal.pmm, hf] at hg
        rw [hf' σ hσ, hg' σ hσ, hg, hal.leaves σ hσ]
      · rw [hlink'.tables q hu hl, hlink.tables q hu hl, hal.tables q hu hl]
    · have := hlink.frames
      omega
  · rcases hlink' with ⟨rfl, hlink'⟩ | ⟨hres', -⟩
    · have := hlink'.frames
      rw [hal.pmm] at this
      omega
    · refine .inr ⟨hres, hres', fun σ hσ ↦ ?_⟩
      obtain ⟨-, hsame⟩ := hleaf.resolve_left fun hc ↦ hres hc.1
      obtain ⟨-, hsame'⟩ := hleaf'.resolve_left fun hc ↦ hres' hc.1
      rw [hsame' σ hσ, hsame σ hσ, hal.leaves σ hσ]

theorem brkGrow_alike (n page : ℕ) (hal : Alike roots (pageOf pml4Phys) s s')
    (h : Inv s roots role) (h' : Inv s' roots role') (hr : pageOf pml4Phys ∈ roots)
    (huser : ∀ k < n, ∀ s₁, MapsFresh pml4Phys (ptePresent ||| pteWritable ||| pteUser)
      (addresses pageAddr k page) s s₁ → UserAddress (pageAddr (page + k))) :
    (brkGrow pml4Phys n page s').1 = (brkGrow pml4Phys n page s).1 ∧
      SameLeaves (brkGrow pml4Phys n page s).2 (brkGrow pml4Phys n page s').2 roots := by
  induction n generalizing page s s' role role' with
  | zero => exact ⟨rfl, hal.leaves⟩
  | succ n ih =>
    have hv := (huser 0 (by omega) s (.nil s)).pml4Index_lt
    rw [Nat.add_zero] at hv
    cases hmap : mapFreshPage s pml4Phys (pageAddr page)
        (ptePresent ||| pteWritable ||| pteUser) with
    | mk res s₁ =>
      cases hmap' : mapFreshPage s' pml4Phys (pageAddr page)
          (ptePresent ||| pteWritable ||| pteUser) with
      | mk res' s₁' =>
        simp only [brkGrow, mapLoop, hmap, hmap']
        rcases mapFreshPage_alike hal h h' hr hv (by decide) hmap hmap' with
          ⟨rfl, rfl, hal₁⟩ | ⟨hres, hres', hsame⟩
        · obtain ⟨role₁, -, h₁, -⟩ := mapFreshPage_holds h hr hv (by decide) hmap
          obtain ⟨role₁', -, h₁', -⟩ := mapFreshPage_holds h' hr hv (by decide) hmap'
          refine ih (page + 1) hal₁ h₁ h₁' fun k hk s₂ hrun ↦ ?_
          rw [Nat.add_right_comm]
          exact huser (k + 1) (by omega) s₂ (.cons hmap hrun)
        · cases res <;> cases res' <;> first | contradiction | exact ⟨rfl, hsame⟩

theorem pageMapping_sameLeaves (h : SameLeaves s s' roots) {other : Word}
    (ho : pageOf other ∈ roots) (hv : UserAddress v) :
    pageMapping s' other v = pageMapping s other v :=
  pageMapping_congr (h _ (siteOf_valid ho hv.pml4Index_lt))

theorem Alike.of_failed (h : Inv s roots role) (hr : pageOf pml4Phys ∈ roots)
    (hv : (pml4Index v).val < 256) (hfl : MapFlags flags)
    {res : FreshPage} (hmap : mapFreshPage s pml4Phys v flags = (res, s')) (hres : res ≠ .mapped) :
    Alike roots (pageOf pml4Phys) s s' := by
  obtain ⟨role', -, -, hcases⟩ := mapFreshPage_holds h hr hv hfl hmap
  obtain ⟨-, hsame⟩ := hcases.resolve_left fun hc ↦ hres hc.1
  obtain ⟨hpmm, hentry⟩ := mapFreshPage_failed h hr hv hfl hmap hres
  refine ⟨hpmm, hsame, fun q hu hl ↦ Iff.of_eq ?_⟩
  rw [Missing, Missing, tableAt_congr _ q fun p t i hpre ht ↦ ?_]
  have hp' : UserPath p ∧ p.length ≤ 3 := by
    obtain ⟨tail, rfl⟩ := hpre
    rw [List.append_assoc] at hu hl
    refine ⟨fun j hj ↦ hu j ?_, ?_⟩
    · rw [List.head?_append, hj, Option.some_or]
    · rw [List.length_append] at hl
      omega
  have hrole := (h.tableAt_iff hr hp'.1 hp'.2).mp ht
  exact hentry t i (h.owned (.inr ⟨_, _, hrole⟩)).2.2

end Step

section Brk

variable {s s' : Vm} {roots : Set ℕ} {role role' : Roles} {pml4Phys brkStart oldBrk brk : Word}

theorem sysBrk_grow (hstart : brkStart.toNat ≤ oldBrk.toNat) (hgrow : oldBrk.toNat < brk.toNat)
    {ok : Bool} (hg : brkGrow pml4Phys ((pagesUpTo brk).toNat - (pagesUpTo oldBrk).toNat)
      (pagesUpTo oldBrk).toNat s = (ok, s')) :
    sysBrk s pml4Phys brkStart oldBrk brk =
      if (pagesUpTo oldBrk).toNat < (pagesUpTo brk).toNat then
        (if ok then brk else oldBrk, if ok then brk else oldBrk, s')
      else if (pagesUpTo brk).toNat < (pagesUpTo oldBrk).toNat then
        (brk, brk, brkShrink pml4Phys ((pagesUpTo oldBrk).toNat - (pagesUpTo brk).toNat)
          (pagesUpTo brk).toNat s)
      else (brk, brk, s) := by
  have hne : brk ≠ 0#64 := by
    rintro rfl
    simp at hgrow
  have hle : ¬ brk < brkStart := by
    rw [BitVec.lt_def]
    omega
  simp only [sysBrk, if_neg hne, if_neg hle, hg]
  cases ok <;> rfl

theorem sysBrk_alike (hal : Alike roots (pageOf pml4Phys) s s') (h : Inv s roots role)
    (h' : Inv s' roots role') (hr : pageOf pml4Phys ∈ roots)
    (hstart : brkStart.toNat ≤ oldBrk.toNat) (hgrow : oldBrk.toNat < brk.toNat)
    (hpages : (pagesUpTo oldBrk).toNat < (pagesUpTo brk).toNat)
    (huser : ∀ v, BrkReaches s pml4Phys oldBrk brk v → UserAddress v) :
    (sysBrk s' pml4Phys brkStart oldBrk brk).1 = (sysBrk s pml4Phys brkStart oldBrk brk).1 ∧
    (sysBrk s' pml4Phys brkStart oldBrk brk).2.1 = (sysBrk s pml4Phys brkStart oldBrk brk).2.1 ∧
    SameLeaves (sysBrk s pml4Phys brkStart oldBrk brk).2.2
      (sysBrk s' pml4Phys brkStart oldBrk brk).2.2 roots := by
  obtain ⟨hok, hsame⟩ := brkGrow_alike ((pagesUpTo brk).toNat - (pagesUpTo oldBrk).toNat)
    (pagesUpTo oldBrk).toNat hal h h' hr fun k hk s₁ hrun ↦
      hrun.reached h hr (by decide) huser hk k le_rfl
  rw [sysBrk_grow hstart hgrow Prod.mk.eta.symm, sysBrk_grow hstart hgrow Prod.mk.eta.symm,
    if_pos hpages, if_pos hpages, hok]
  exact ⟨rfl, rfl, hsame⟩

theorem BrkUndone.of_first (h : Inv s roots role) (hr : pageOf pml4Phys ∈ roots)
    (hstart : brkStart.toNat ≤ oldBrk.toNat) (hgrow : oldBrk.toNat < brk.toNat)
    (hpages : (pagesUpTo oldBrk).toNat < (pagesUpTo brk).toNat)
    (hv : (pml4Index (pageAddr (pagesUpTo oldBrk).toNat)).val < 256) {res : FreshPage}
    (hmap : mapFreshPage s pml4Phys (pageAddr (pagesUpTo oldBrk).toNat)
      (ptePresent ||| pteWritable ||| pteUser) = (res, s')) (hres : res ≠ .mapped) :
    BrkUndone roots s s' pml4Phys brkStart oldBrk brk := by
  have hal := Alike.of_failed h hr hv (by decide) hmap hres
  obtain ⟨role', hatt⟩ := Attempt.of_failed h hr hv (by decide) hmap hres
  refine ⟨fun other v ho hu ↦ pageMapping_sameLeaves hatt.leaves ho hu, fun g ↦ ?_,
    fun p hp hp' huser ↦ ?_⟩
  · rw [hatt.pmm]
    refine ⟨.inl, ?_⟩
    rintro (hg | ⟨q, hu, hl, ht⟩)
    · exact hg
    · rw [← hatt.pmm]
      exact (hatt.inv.owned (.inr ⟨_, _, (hatt.inv.tableAt_iff hr hu hl).mp ht⟩)).2.2
  · obtain ⟨role₁, h₁⟩ := hp
    obtain ⟨role₂, h₂⟩ := hp'
    have hal' : Alike roots (pageOf pml4Phys) { s with pmm := p } { s' with pmm := p } :=
      ⟨rfl, hal.leaves, hal.tables⟩
    obtain ⟨hret, hnew, hsame⟩ := sysBrk_alike hal' h₁ h₂ hr hstart hgrow hpages huser
    exact ⟨hret, hnew, fun other v ho hu ↦ pageMapping_sameLeaves hsame ho hu⟩

theorem not_brkUndone {n k : ℕ} {s₁ : Vm} {res : FreshPage} (h : Inv s roots role)
    (hr : pageOf pml4Phys ∈ roots)
    (hrun : MapsFresh pml4Phys (ptePresent ||| pteWritable ||| pteUser)
      (addresses pageAddr (k + 1) n) s s₁) (huser : ∀ j ≤ k + 1, UserAddress (pageAddr (n + j)))
    (hmap : mapFreshPage s₁ pml4Phys (pageAddr (n + (k + 1)))
      (ptePresent ||| pteWritable ||| pteUser) = (res, s')) (hres : res ≠ .mapped) :
    ¬ BrkUndone roots s s' pml4Phys brkStart oldBrk brk := by
  intro hundone
  have hfirst : UserAddress (pageAddr n) := huser 0 (by omega)
  obtain ⟨role₁, hfresh⟩ := hrun.spec h hr (by decide) fun v hv ↦ by
    obtain ⟨j, hj, rfl⟩ := mem_addresses.mp hv
    exact (huser j (by omega)).pml4Index_lt
  obtain ⟨role', hatt⟩ := Attempt.of_failed hfresh.inv hr (huser _ le_rfl).pml4Index_lt (by decide)
    hmap hres
  have hin : siteOf (pageOf pml4Phys) (pageAddr n) ∈
      sitesOf pml4Phys (addresses pageAddr (k + 1) n) :=
    ⟨_, mem_addresses.mpr ⟨0, by omega, rfl⟩, rfl⟩
  obtain ⟨f, hav, hnew, -⟩ := hfresh.mapping (by decide) hin
  -- the frame of the page was available before
  have hbefore := hundone.mapping pml4Phys (pageAddr n) hr hfirst
  rw [pageMapping_sameLeaves hatt.leaves hr hfirst, hnew, pageMapping_eq, eq_comm,
    Option.map_eq_some_iff] at hbefore
  obtain ⟨g, hg, hpair⟩ := hbefore
  obtain ⟨rfl, -⟩ := Prod.mk.inj hpair
  have hdata := h.leafEntry_data (siteOf_valid hr hfirst.pml4Index_lt) hg
  simp [h.free_of_available hav] at hdata

end Brk

end SeedOS.Process
