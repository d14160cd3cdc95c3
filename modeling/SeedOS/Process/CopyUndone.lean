import SeedOS.Memory.CopySpec
import SeedOS.Memory.MapRefinement
import SeedOS.Process.CopyFailure

namespace SeedOS.Process

open Foundation Memory Function

/-- The user half at `pml4Phys` is as before, and so is what the allocator and the reference
counts say about its frames. -/
structure ParentKept (s s' : Vm) (pml4Phys : Word) : Prop where
  translation : ∀ va, UserAddress va → pageMapping s' pml4Phys va = pageMapping s pml4Phys va
  used : ∀ va f flags, UserAddress va → pageMapping s pml4Phys va = some (f, flags) →
    bitmapIsUsed s'.pmm.bitmap f = true
  count : ∀ va f flags, UserAddress va → pageMapping s pml4Phys va = some (f, flags) →
    s'.pageInfo.map (· f) = s.pageInfo.map (· f)

/-- A copy of the address space never comes to a page: there is none, or memory runs out before
its tables have been copied. -/
def NoPageCopied (s : Vm) (pml4Phys : Word) : Prop :=
  (tablesToPage s.mem 3 (pageOf pml4Phys) userSlots).2 = false ∨
    freeFrames s.pmm ≤ (tablesToPage s.mem 3 (pageOf pml4Phys) userSlots).1

theorem exists_siteOf {roots : Set ℕ} {σ : Site} (hσ : σ.Valid roots) :
    ∃ va, UserAddress va ∧ siteOf σ.root va = σ := by
  obtain ⟨r, p, l⟩ := σ
  obtain ⟨i, j, k, rfl⟩ := List.length_eq_three.mp hσ.length
  have hi : i.val < 256 := hσ.user i rfl
  have hat : (BitVec.ofNat 64 (i.val * 2 ^ 39 + j.val * 2 ^ 30 + k.val * 2 ^ 21 +
      l.val * 2 ^ 12)).toNat = i.val * 2 ^ 39 + j.val * 2 ^ 30 + k.val * 2 ^ 21 + l.val * 2 ^ 12 := by
    rw [BitVec.toNat_ofNat]
    omega
  refine ⟨_, by rw [UserAddress, hat, userSpaceTop]; omega, ?_⟩
  simp only [siteOf, pml4Index, pdptIndex, pdIndex, ptIndex, Site.mk.injEq, List.cons.injEq,
    and_true, true_and, Fin.ext_iff, tableIndex_val, hat]
  omega

variable {roots : Set ℕ} {s s' : Vm} {role : Roles} {src dst : Word} {ok : Bool}

theorem not_parentKept_of_shares {role' : Roles} (hr : pageOf src ∈ roots)
    (hdst : dst = pageAddr (pageOf dst)) (hinv : Inv s' (insert (pageOf dst) roots) role')
    (hshares : SharesPage (pageOf src) (pageOf dst) s s' role') :
    ¬ ParentKept s (vmmFreeUserAddressSpace s' dst) src := by
  intro hkept
  obtain ⟨p, l, f, hu, hl, hsrc, -, hcopy⟩ := hshares
  obtain ⟨va, hva, hsite⟩ := exists_siteOf (σ := ⟨pageOf src, p, l⟩) ⟨hr, hu, hl⟩
  have hmap : ∃ flags, pageMapping s src va = some (f, flags) := by
    rw [pageMapping_eq, show siteOf (pageOf src) va = ⟨pageOf src, p, l⟩ from hsite, hsrc]
    exact ⟨_, rfl⟩
  obtain ⟨flags, hmap⟩ := hmap
  have hfrees := vmmFreeUserAddressSpace_frees hinv hdst (Set.mem_insert _ _)
  refine ((hfrees.used f).mp (hkept.used va f flags hva hmap)).2 ?_
  obtain ⟨t, ht, hentry⟩ := hinv.leafEntry_present (σ := ⟨pageOf dst, p, l⟩)
    ⟨Set.mem_insert _ _, hu, hl⟩ hcopy
  refine ⟨p ++ [l], hu.concat (by rintro rfl; simp at hl) l, by simp [hl], ?_⟩
  rw [tableAt_concat, (hinv.tableAt_iff (Set.mem_insert _ _) hu (by omega)).mpr ht,
    Option.bind_some, ← hentry, hcopy]

section

variable (h : Inv s roots role)
include h

theorem pageMapping_data (hr : pageOf src ∈ roots) {va : Word}
    (hva : UserAddress va) {f : ℕ} {flags : Word} (hmap : pageMapping s src va = some (f, flags)) :
    role f = .data := by
  rw [pageMapping_eq, Option.map_eq_some_iff] at hmap
  obtain ⟨g, hg, hfg⟩ := hmap
  obtain rfl := (Prod.mk.inj hfg).1
  exact h.leafEntry_data (siteOf_valid hr hva.pml4Index_lt) hg

theorem ParentKept.refl (hr : pageOf src ∈ roots) : ParentKept s s src where
  translation _ _ := rfl
  used _ _ _ hva hmap := (h.owned (.inl (pageMapping_data h hr hva hmap))).2.2
  count _ _ _ _ _ := rfl

theorem cowCopy_first (hr : pageOf src ∈ roots)
    (heq : cowCopy s src = (dst, ok, s')) (hne : dst ≠ 0#64) :
    dst = pageAddr (pageOf dst) ∧ pageOf dst ∉ roots ∧ ∃ s₁ role₁, Keeps s s₁ role role₁ ∧
      freeFrames s.pmm = freeFrames s₁.pmm + 1 ∧
      FirstPage roots (pageOf src) (pageOf dst) s role
        (tablesToPage s.mem 3 (pageOf src) userSlots) 0 s₁ s' role₁ ok := by
  rcases cowCopy_tables h hr heq with ⟨hz, -⟩ | ⟨hd, -, s₁, hstart, hc⟩
  · exact absurd hz hne
  refine ⟨hd, hstart.fresh, s₁, _, hstart.keeps, freeFrames_take hstart.available hstart.takes,
    copyTables_first h hr hstart.ne 3 rfl ⟨hstart.inv, h.forest.root _ hr, fun k r q hk ↦ ?_,
      update_self _ _ _, hstart.openSlots, hstart.same, hstart.zero,
      fun k q hk ↦ hstart.mem_other ?_, hstart.info.1, hstart.info.2⟩ hc⟩
  · have hkd : k ≠ pageOf dst := by
      rintro rfl
      simp [h.free_of_available hstart.available] at hk
    rwa [update_of_ne hkd]
  · rintro rfl
    simp [h.free_of_available hstart.available] at hk

theorem parentKept_of_linked {role' : Roles} (hr : pageOf src ∈ roots)
    (hdst : dst = pageAddr (pageOf dst)) (hinv : Inv s' (insert (pageOf dst) roots) role')
    (hlinked : OnlyLinked roots (pageOf src) (pageOf dst) s role s' role')
    (hkeeps : Keeps s s' role role') : ParentKept s (vmmFreeUserAddressSpace s' dst) src where
  translation va hva := by
    rw [pageMapping_eq, pageMapping_eq]
    have hleaf := hlinked.same _ (siteOf_valid hr hva.pml4Index_lt)
    rw [show (vmmFreeUserAddressSpace s' dst).mem = s'.mem from rfl, hleaf]
  used va f flags hva hmap := by
    have hdata := hkeeps.data.mpr (pageMapping_data h hr hva hmap)
    have hfrees := vmmFreeUserAddressSpace_frees hinv hdst (Set.mem_insert _ _)
    refine (hfrees.used f).mpr ⟨(hinv.owned (.inl hdata)).2.2, fun hreach ↦ ?_⟩
    rcases hinv.reached_cases (Set.mem_insert _ _) hreach with ⟨p, hp⟩ | ⟨σ, hσ, hroot, hn⟩
    · simp [hdata] at hp
    · rw [hlinked.empty σ hσ hroot, entryNext_zero] at hn
      cases hn
  count va f flags _ _ := by
    rw [show (vmmFreeUserAddressSpace s' dst).pageInfo = s'.pageInfo from rfl, hlinked.info]

theorem teardown_iff (hr : pageOf src ∈ roots)
    (heq : cowCopy s src = (dst, ok, s')) (hne : dst ≠ 0#64) :
    ParentKept s (vmmFreeUserAddressSpace s' dst) src ↔ NoPageCopied s src := by
  obtain ⟨hdst, -, s₁, role₁, hkeeps, htake, hfirst⟩ := cowCopy_first h hr heq hne
  constructor
  · intro hkept
    by_contra hcost
    rw [NoPageCopied, not_or, Bool.not_eq_false] at hcost
    obtain ⟨role', hcopy⟩ := hfirst.shares hcost.1 (by omega)
    exact not_parentKept_of_shares hr hdst hcopy.inv hcopy.prop hkept
  · intro hcost
    obtain ⟨role', hcopy⟩ := hfirst.linked (hcost.imp_right fun hle ↦ by omega)
    exact parentKept_of_linked h hr hdst hcopy.inv hcopy.prop (hkeeps.trans hcopy.keeps)

theorem copy_failed_iff (hr : pageOf src ∈ roots)
    (heq : vmmCopyAddressSpaceCow s src = (0#64, s')) :
    ParentKept s s' src ↔ NoPageCopied s src := by
  unfold vmmCopyAddressSpaceCow at heq
  cases hcopy : cowCopy s src with
  | mk dst rest =>
    cases rest with
    | mk ok s₁ =>
      simp only [hcopy] at heq
      split_ifs at heq with hz hok
      · rcases cowCopy_tables h hr hcopy with ⟨-, hs, hnone⟩ | ⟨-, hne, -⟩
        · rw [Prod.mk.injEq, hs] at heq
          rw [← heq.2]
          refine ⟨fun _ ↦ .inr ?_, fun _ ↦ .refl h hr⟩
          rw [freeFrames_eq_zero hnone]
          exact Nat.zero_le _
        · exact absurd hz hne
      · exact absurd (Prod.mk.inj heq).1 hz
      · rw [← (Prod.mk.inj heq).2]
        exact teardown_iff h hr hcopy hz

end

end SeedOS.Process
