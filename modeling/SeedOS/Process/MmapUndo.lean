import SeedOS.Process.BrkHeap
import SeedOS.Process.LoopFrames

namespace SeedOS.Process

open Foundation Memory Function

def IsErrno (ret : Word) : Prop := 2 ^ 64 - 4095 ≤ ret.toNat

instance IsErrno.decidable (ret : Word) : Decidable (IsErrno ret) :=
  inferInstanceAs (Decidable (_ ≤ _))

/-- Every address translates as before, and no more frames are in use, but for page tables
of the address space. -/
structure Unchanged (roots : Set ℕ) (s s' : Vm) (pml4Phys : Word) : Prop where
  user : ∀ other v, pageOf other ∈ roots → UserAddress v →
    pageMapping s' other v = pageMapping s other v
  kernel : ∀ other v, pageOf other ∈ roots → 256 ≤ (pml4Index v).val →
    translate s' other v = translate s other v
  frames : OnlyTables s s' pml4Phys

structure Attempt (roots : Set ℕ) (r : ℕ) (s s' : Vm) (role role' : Roles) : Prop where
  inv : Inv s' roots role'
  holds : Holds s s' role role'
  pmm : s'.pmm = s.pmm
  leaves : SameLeaves s s' roots
  idle : ∀ g, Idle s' r g ↔ Idle s r g

section Undo

variable {s s₁ s₂ s' : Vm} {roots : Set ℕ} {role : Roles} {r n : ℕ}
  {pml4Phys mapAddr flags v : Word}

theorem Attempt.refl (h : Inv s roots role) : Attempt roots r s s role role :=
  ⟨h, .refl s role, rfl, fun _ _ ↦ rfl, fun _ ↦ Iff.rfl⟩

theorem Attempt.of_failed (h : Inv s roots role) (hr : pageOf pml4Phys ∈ roots)
    (hv : (pml4Index v).val < 256) (hfl : MapFlags flags)
    {res : FreshPage} (hmap : mapFreshPage s pml4Phys v flags = (res, s')) (hres : res ≠ .mapped) :
    ∃ role', Attempt roots (pageOf pml4Phys) s s' role role' := by
  obtain ⟨role', hholds, hinv, hcases⟩ := mapFreshPage_holds h hr hv hfl hmap
  obtain ⟨-, hsame⟩ := hcases.resolve_left fun hc ↦ hres hc.1
  have hidle := mapFreshPage_idle h hr hv hfl hmap fun hc ↦ absurd hc hres
  exact ⟨role', hinv, hholds, (mapFreshPage_failed h hr hv hfl hmap hres).1, hsame, hidle.2⟩

theorem mem_sitesOf_range (huser : ∀ k < n, UserAddress (rangePage mapAddr k))
    (hv : UserAddress v) : siteOf r v ∈ sitesOf pml4Phys (addresses (rangePage mapAddr) n 0) ↔
      r = pageOf pml4Phys ∧ pageOf mapAddr ≤ pageOf v ∧ pageOf v < pageOf mapAddr + n := by
  refine mem_sitesOf_addresses (fun k hk ↦ ?_) hv
  rw [Nat.zero_add]
  exact ⟨huser k hk, rangePage_page huser hk⟩

theorem range_pairwise (huser : ∀ k < n, UserAddress (rangePage mapAddr k)) :
    (addresses (rangePage mapAddr) n 0).Pairwise fun v w ↦
      siteOf (pageOf pml4Phys) v ≠ siteOf (pageOf pml4Phys) w := by
  refine addresses_pairwise fun j k hjk hk hsite ↦ ?_
  rw [Nat.zero_add, Nat.zero_add] at hsite
  have heq := ((siteOf_inj (huser j (by omega)) (huser k hk) _ _).mp hsite).2
  rw [rangePage_page huser (by omega), rangePage_page huser hk] at heq
  omega

theorem unmapped_iff : Unmapped s pml4Phys v ↔ pageMapping s pml4Phys v = none := by
  rw [Unmapped, pageMapping_eq, Option.map_eq_none_iff]

theorem Unchanged.of_undone (h : Inv s roots role) (hr : pageOf pml4Phys ∈ roots)
    (hfl : MapFlags flags)
    (huser : ∀ k < n, UserAddress (rangePage mapAddr k))
    (hnone : ∀ k < n, Unmapped s pml4Phys (rangePage mapAddr k))
    (hrun : MapsFresh pml4Phys flags (addresses (rangePage mapAddr) n 0) s s₁)
    (hattempt : ∀ role₁, Inv s₁ roots role₁ →
      ∃ role₂, Attempt roots (pageOf pml4Phys) s₁ s₂ role₁ role₂)
    {body : Vm → Word → Vm} (hunmaps : Unmaps roots pml4Phys body)
    (hgives : GivesBack roots pml4Phys body)
    (hs' : s' = releaseLoop body (rangePage mapAddr) n 0 s₂) : Unchanged roots s s' pml4Phys := by
  have hlow : ∀ v ∈ addresses (rangePage mapAddr) n 0, (pml4Index v).val < 256 := by
    intro v hv
    obtain ⟨k, hk, rfl⟩ := mem_addresses.mp hv
    rw [Nat.zero_add]
    exact (huser k hk).pml4Index_lt
  have hvalid : ∀ σ ∈ sitesOf pml4Phys (addresses (rangePage mapAddr) n 0), σ.Valid roots := by
    rintro σ ⟨v, hv, rfl⟩
    exact siteOf_valid hr (hlow v hv)
  have hunmapped : ∀ v ∈ addresses (rangePage mapAddr) n 0, Unmapped s pml4Phys v := by
    intro v hv
    obtain ⟨k, hk, rfl⟩ := mem_addresses.mp hv
    rw [Nat.zero_add]
    exact hnone k hk
  obtain ⟨role₁, hfresh⟩ := hrun.spec h hr hfl hlow
  obtain ⟨role₂, hatt⟩ := hattempt role₁ hfresh.inv
  have hsole : ∀ σ ∈ sitesOf pml4Phys (addresses (rangePage mapAddr) n 0), Sole s₂ roots σ := by
    intro σ hσ σ' hσ' f hf hf'
    rw [hatt.leaves σ (hvalid σ hσ)] at hf
    rw [hatt.leaves σ' hσ'] at hf'
    exact hfresh.sole σ hσ σ' hσ' f hf hf'
  obtain ⟨t, ht⟩ := releaseLoop_released hunmaps hr (rangePage mapAddr) n 0 rfl hatt.inv hlow
  obtain ⟨role', hgiven⟩ := releaseLoop_givenBack hgives hr (rangePage mapAddr) n 0 hatt.inv hlow
    hsole
  rw [← hs'] at ht hgiven
  have hidle := hrun.idle h hr hfl hlow hunmapped (range_pairwise huser)
  refine ⟨fun other v ho hv ↦ ?_, fun other v ho hv ↦ ?_, ?_⟩
  · have hσ := siteOf_valid ho hv.pml4Index_lt
    by_cases hin : siteOf (pageOf other) v ∈ sitesOf pml4Phys (addresses (rangePage mapAddr) n 0)
    · -- neither before nor now
      obtain ⟨w, hw, hsite⟩ := hin
      have hbefore := hunmapped w hw
      rw [Unmapped, ← hsite] at hbefore
      rw [pageMapping_eq, pageMapping_eq, hbefore, ← ht.mem, ht.inside _ ⟨w, hw, hsite⟩,
        Option.map_none, Option.map_none]
    · apply pageMapping_congr
      rw [← ht.mem, ht.outside _ hσ hin, hatt.leaves _ hσ, hfresh.outside _ hσ hin]
  · rw [← translate_mem ht.mem, translate_congr_kernel hatt.inv ht.inv ht.keeps.kernel
      (fun g hg ↦ ht.keeps.mem (.inr hg)) ho ho hv]
    have hholds := hfresh.holds.trans hatt.holds
    exact translate_congr_kernel h hatt.inv hholds.kernel (fun g hg ↦ hholds.mem hg) ho ho hv
  · exact onlyTables_of_undone h hr hfl hvalid hfresh hatt.pmm hatt.leaves
      (fun g ↦ (hatt.idle g).trans (hidle g)) hgiven

end Undo

section Mmap

variable {s s' : Vm} {pml4Phys mmapNext addr len prot flags fd ret next : Word}

theorem mmapReject_errno {err : Word} (h : mmapReject addr len flags fd = some err) :
    IsErrno err := by
  unfold mmapReject at h
  split_ifs at h <;> simp only [Option.some.injEq] at h <;> subst h <;> decide

theorem sysMmap_cases
    (h : sysMmap s pml4Phys mmapNext addr len prot flags fd = (ret, next, s')) :
    (IsErrno ret ∧ s' = s ∧ mmapReject addr len flags fd ≠ none) ∨
    (mmapReject addr len flags fd = none ∧ ret = mmapAddr mmapNext addr flags ∧
      MapsFresh pml4Phys (mmapPageFlags prot)
        (addresses (rangePage ret) (pagesUpTo len).toNat 0) s s') ∨
    (mmapReject addr len flags fd = none ∧ ret = enomem ∧
      ∃ k < (pagesUpTo len).toNat, ∃ s₁ s₂ res, MapsFresh pml4Phys (mmapPageFlags prot)
          (addresses (rangePage (mmapAddr mmapNext addr flags)) k 0) s s₁ ∧ res ≠ .mapped ∧
        mapFreshPage s₁ pml4Phys (rangePage (mmapAddr mmapNext addr flags) k)
          (mmapPageFlags prot) = (res, s₂) ∧
        s' = mmapUndo pml4Phys (mmapAddr mmapNext addr flags) k 0 s₂) := by
  unfold sysMmap at h
  cases hrej : mmapReject addr len flags fd with
  | some err =>
    simp only [hrej, Prod.mk.injEq] at h
    obtain ⟨rfl, -, rfl⟩ := h
    exact .inl ⟨mmapReject_errno hrej, rfl, by simp⟩
  | none =>
    simp only [hrej] at h
    cases hpages : mmapPages pml4Phys (mmapAddr mmapNext addr flags) (mmapPageFlags prot)
        (pagesUpTo len).toNat 0 s with
    | mk ok s'' =>
      rw [hpages] at h
      rcases mapLoop_cases _ _ hpages with ⟨rfl, hrun⟩ | ⟨rfl, k, hk, s₁, s₂, res, hrun, hres⟩
      · simp only [Prod.mk.injEq] at h
        obtain ⟨rfl, -, rfl⟩ := h
        exact .inr (.inl ⟨rfl, rfl, hrun⟩)
      · simp only [Prod.mk.injEq] at h
        obtain ⟨rfl, -, rfl⟩ := h
        rw [Nat.zero_add] at hres
        exact .inr (.inr ⟨rfl, rfl, k, hk, s₁, s₂, res, hrun, hres⟩)

theorem sysMmap_mapped (h : sysMmap s pml4Phys mmapNext addr len prot flags fd = (ret, next, s'))
    (hret : ¬ IsErrno ret) : mmapReject addr len flags fd = none ∧
      ret = mmapAddr mmapNext addr flags ∧ MapsFresh pml4Phys (mmapPageFlags prot)
        (addresses (rangePage ret) (pagesUpTo len).toNat 0) s s' := by
  rcases sysMmap_cases h with ⟨herr, -⟩ | hmapped | ⟨-, rfl, -⟩
  · exact absurd herr hret
  · exact hmapped
  · exact absurd (by decide) hret

theorem mmapAddr_aligned (h : mmapReject addr len flags fd = none)
    (halign : mmapNext.toNat % 4096 = 0) : (mmapAddr mmapNext addr flags).toNat % 4096 = 0 := by
  unfold mmapAddr
  split_ifs with hfixed
  · unfold mmapReject at h
    split_ifs at h with h₀ h₁ h₂
    simp only [hfixed, true_and, not_not] at h₂
    have hand := congrArg BitVec.toNat h₂
    rw [BitVec.toNat_and, show (0xFFF#64).toNat = 2 ^ 12 - 1 from rfl,
      Nat.and_two_pow_sub_one_eq_mod] at hand
    exact hand
  · exact halign

theorem rangePage_toNat {k : ℕ} (h : addr.toNat + 4096 * k < 2 ^ 64) :
    (rangePage addr k).toNat = addr.toNat + 4096 * k := by
  rw [rangePage, BitVec.toNat_add, BitVec.toNat_mul, BitVec.toNat_ofNat,
    show (4096#64).toNat = 4096 from rfl]
  omega

theorem rangePage_mem {k : ℕ} (huser : addr.toNat + len.toNat ≤ userSpaceTop)
    (hk : k < roundedUp len) : addr.toNat ≤ (rangePage addr k).toNat ∧
      (rangePage addr k).toNat < addr.toNat + len.toNat := by
  unfold userSpaceTop at huser
  unfold roundedUp at hk
  rw [rangePage_toNat (by omega)]
  omega

end Mmap

/-- `sys_munmap` undoes `sys_mmap`. -/
theorem munmap_undoes_mmap {s s₁ : Vm} {roots : Set ℕ} {role : Roles}
    {pml4Phys mmapNext addr len prot flags fd a next : Word} (h : Inv s roots role)
    (hr : pageOf pml4Phys ∈ roots) (halign : mmapNext.toNat % 4096 = 0)
    (hmap : sysMmap s pml4Phys mmapNext addr len prot flags fd = (a, next, s₁))
    (huser : a.toNat + len.toNat ≤ userSpaceTop)
    (hnone : ∀ v, a.toNat ≤ v.toNat → v.toNat < a.toNat + len.toNat →
      pageMapping s pml4Phys v = none) :
    (sysMunmap s₁ pml4Phys a len).1 = 0#64 ∧
      Unchanged roots s (sysMunmap s₁ pml4Phys a len).2 pml4Phys := by
  have herr : ¬ IsErrno a := by
    unfold IsErrno
    unfold userSpaceTop at huser
    omega
  obtain ⟨hrej, ha, hrun⟩ := sysMmap_mapped hmap herr
  have hlen : (pagesUpTo len).toNat = roundedUp len := pagesUpTo_toNat (by omega)
  have haccept : munmapReject a len = none := by
    have hpage := mmapAddr_aligned hrej halign
    rw [← ha] at hpage
    have hand : a &&& 0xFFF#64 = 0#64 := by
      apply BitVec.eq_of_toNat_eq
      rw [BitVec.toNat_and, show (0xFFF#64).toNat = 2 ^ 12 - 1 from rfl,
        Nat.and_two_pow_sub_one_eq_mod]
      exact hpage
    have hpos : len ≠ 0#64 := by
      rintro rfl
      simp [mmapReject] at hrej
    rw [munmapReject, if_neg (not_not.mpr hand), if_neg hpos]
  have hfl := mmapPageFlags_spec prot
  rw [sysMunmap, haccept]
  refine ⟨rfl, ?_⟩
  rw [hlen] at hrun
  dsimp only
  rw [hlen]
  have hpages : ∀ k < roundedUp len, UserAddress (rangePage a k) := by
    intro k hk
    have := rangePage_mem huser hk
    unfold UserAddress
    omega
  refine Unchanged.of_undone h hr hfl hpages (fun k hk ↦ ?_) hrun
    (fun role₁ h₁ ↦ ⟨role₁, .refl h₁⟩) (releasePage_unmaps hr) (releasePage_givesBack hr) rfl
  obtain ⟨hle, hlt⟩ := rangePage_mem huser hk
  exact unmapped_iff.mpr (hnone _ hle hlt)

theorem munmap_undoes_mmap_onePageVm :
    (sysMmap onePageVm 0x3000#64 userMmapStart 0#64 4096#64 protWrite mapAnonymous (-1#64)).1 =
      userMmapStart ∧
    (sysMunmap (sysMmap onePageVm 0x3000#64 userMmapStart 0#64 4096#64 protWrite mapAnonymous
      (-1#64)).2.2 0x3000#64 userMmapStart 4096#64).1 = 0#64 ∧
    Unchanged {3} onePageVm (sysMunmap (sysMmap onePageVm 0x3000#64 userMmapStart 0#64 4096#64
      protWrite mapAnonymous (-1#64)).2.2 0x3000#64 userMmapStart 4096#64).2 0x3000#64 := by
  have ha : (sysMmap onePageVm 0x3000#64 userMmapStart 0#64 4096#64 protWrite mapAnonymous
      (-1#64)).1 = userMmapStart := by decide +kernel
  refine ⟨ha, ?_⟩
  refine munmap_undoes_mmap (a := userMmapStart) onePageVm_inv (by decide) (by decide)
    (Prod.ext ha rfl) (by decide) fun v hle hlt ↦ ?_
  rw [show userMmapStart.toNat = 0x100000000 from rfl] at hle hlt
  rw [show (4096#64).toNat = 4096 from rfl] at hlt
  have hpage : pageOf v = pageOf userMmapStart := by
    unfold pageOf
    rw [show userMmapStart.toNat = 0x100000000 from rfl]
    omega
  rw [pageMapping_page _ _ (by unfold UserAddress userSpaceTop; omega) (by decide) hpage]
  decide +kernel

end SeedOS.Process
