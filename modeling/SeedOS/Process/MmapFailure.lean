import SeedOS.Process.MmapUndo
import SeedOS.Process.PageCost

namespace SeedOS.Process

open Foundation Memory Function

/-- A loop over `n` pages from `i` on comes to `v`: there are frames for the pages before it. -/
def Reaches (s : Vm) (pml4Phys : Word) (vaddr : ℕ → Word) (n i : ℕ) (v : Word) : Prop :=
  ∃ k < n, frameCost s pml4Phys (addresses vaddr k i) ≤ freeFrames s.pmm ∧ v = vaddr (i + k)

/-- One of the pages of the range that there are frames for is mapped already. -/
def Overlays (s : Vm) (pml4Phys mapAddr : Word) (n : ℕ) : Prop :=
  ∃ k < n, frameCost s pml4Phys (addresses (rangePage mapAddr) (k + 1) 0) ≤ freeFrames s.pmm ∧
    pageMapping s pml4Phys (rangePage mapAddr k) ≠ none

section Runs

variable {s s₁ s₂ : Vm} {pml4Phys flags : Word} {vs ws : List Word}

theorem addresses_add (vaddr : ℕ → Word) (n m i : ℕ) :
    addresses vaddr (n + m) i = addresses vaddr n i ++ addresses vaddr m (i + n) := by
  induction n generalizing i with
  | zero => rw [Nat.zero_add]; rfl
  | succ n ih =>
    rw [Nat.add_right_comm, addresses, ih, addresses, List.cons_append, Nat.add_right_comm i 1 n,
      Nat.add_assoc i n 1]

theorem MapsFresh.append_iff : MapsFresh pml4Phys flags (vs ++ ws) s s₂ ↔
    ∃ s₁, MapsFresh pml4Phys flags vs s s₁ ∧ MapsFresh pml4Phys flags ws s₁ s₂ := by
  induction vs generalizing s with
  | nil =>
    refine ⟨fun h ↦ ⟨s, .nil s, h⟩, ?_⟩
    rintro ⟨s₁, h, h'⟩
    cases h
    exact h'
  | cons v vs ih =>
    constructor
    · intro h
      cases h with
      | cons hfirst hrest =>
        obtain ⟨s₁, h, h'⟩ := ih.mp hrest
        exact ⟨s₁, .cons hfirst h, h'⟩
    · rintro ⟨s₁, h, h'⟩
      cases h with
      | cons hfirst hrest => exact .cons hfirst (ih.mpr ⟨s₁, hrest, h'⟩)

theorem MapsFresh.unique (h : MapsFresh pml4Phys flags vs s s₁)
    (h' : MapsFresh pml4Phys flags vs s s₂) : s₁ = s₂ := by
  induction h with
  | nil s => cases h'; rfl
  | cons hfirst _ ih =>
    cases h' with
    | cons hfirst' hrest' =>
      rw [hfirst] at hfirst'
      obtain ⟨-, rfl⟩ := Prod.mk.inj hfirst'
      exact ih hrest'

theorem mapsFresh_reach {vaddr : ℕ → Word} {k j : ℕ} {res : FreshPage}
    (hrun : MapsFresh pml4Phys flags (addresses vaddr k 0) s s₁)
    (hstop : mapFreshPage s₁ pml4Phys (vaddr k) flags = (res, s₂)) (hres : res ≠ .mapped) :
    (∃ s', MapsFresh pml4Phys flags (addresses vaddr (j + 1) 0) s s') ↔ j < k := by
  constructor
  · rintro ⟨s', h⟩
    by_contra hle
    rw [show j + 1 = k + (j - k + 1) by omega, addresses_add, MapsFresh.append_iff] at h
    obtain ⟨s₁', h₁, h₂⟩ := h
    obtain rfl := hrun.unique h₁
    rw [addresses] at h₂
    cases h₂ with
    | cons hfirst _ =>
      rw [Nat.zero_add, hstop] at hfirst
      exact hres (Prod.mk.inj hfirst).1
  · intro hlt
    rw [show k = j + 1 + (k - (j + 1)) by omega, addresses_add, MapsFresh.append_iff] at hrun
    obtain ⟨s', h, -⟩ := hrun
    exact ⟨s', h⟩

theorem frameCost_mono (s : Vm) (pml4Phys : Word) (vaddr : ℕ → Word) (i : ℕ) {j k : ℕ}
    (hjk : j ≤ k) : frameCost s pml4Phys (addresses vaddr j i) ≤
      frameCost s pml4Phys (addresses vaddr k i) := by
  rw [show k = j + (k - j) by omega, addresses_add]
  have hsub : missingTables s pml4Phys (addresses vaddr j i) ⊆
      missingTables s pml4Phys (addresses vaddr j i ++ addresses vaddr (k - j) (i + j)) := by
    refine Finset.filter_subset_filter _ fun q hq ↦ ?_
    rw [List.flatMap_append, List.toFinset_append]
    exact Finset.mem_union_left _ hq
  have hcard := Finset.card_le_card hsub
  rw [frameCost, frameCost, List.length_append]
  omega

theorem MapsFresh.reached {roots : Set ℕ} {role : Roles} {vaddr : ℕ → Word} {n i k : ℕ}
    (hrun : MapsFresh pml4Phys flags (addresses vaddr k i) s s₁) (h : Inv s roots role)
    (hr : pageOf pml4Phys ∈ roots) (hfl : MapFlags flags)
    (huser : ∀ v, Reaches s pml4Phys vaddr n i v → UserAddress v) (hk : k < n) :
    ∀ j ≤ k, UserAddress (vaddr (i + j)) := by
  intro j
  induction j using Nat.strong_induction_on with
  | _ j ih =>
    intro hj
    refine huser _ ⟨j, by omega, ?_, rfl⟩
    rw [← mapsFresh_iff h hr hfl]
    · rw [show k = j + (k - j) by omega, addresses_add, MapsFresh.append_iff] at hrun
      obtain ⟨s', hrun, -⟩ := hrun
      exact ⟨s', hrun⟩
    · intro v hv
      obtain ⟨l, hl, rfl⟩ := mem_addresses.mp hv
      exact (ih l hl (by omega)).pml4Index_lt

end Runs

section Failure

variable {s s₁ s₂ s' : Vm} {roots : Set ℕ} {role : Roles} {k n : ℕ}
  {pml4Phys mapAddr flags : Word}

theorem Unchanged.refl (h : Inv s roots role) (hr : pageOf pml4Phys ∈ roots) :
    Unchanged roots s s pml4Phys := by
  refine ⟨fun _ _ _ _ ↦ rfl, fun _ _ _ _ ↦ rfl, fun g ↦ ⟨.inl, ?_⟩⟩
  rintro (hg | ⟨p, hu, hl, ht⟩)
  · exact hg
  · exact (h.owned (.inr ⟨_, _, (h.tableAt_iff hr hu hl).mp ht⟩)).2.2

theorem mmapUndo_unchanged_iff (h : Inv s roots role) (hr : pageOf pml4Phys ∈ roots)
    (hfl : MapFlags flags)
    (huser : ∀ j ≤ k, UserAddress (rangePage mapAddr j)) (hk : k < n) {res : FreshPage}
    (hrun : MapsFresh pml4Phys flags (addresses (rangePage mapAddr) k 0) s s₁)
    (hstop : mapFreshPage s₁ pml4Phys (rangePage mapAddr k) flags = (res, s₂))
    (hres : res ≠ .mapped) (hs' : s' = mmapUndo pml4Phys mapAddr k 0 s₂) :
    Unchanged roots s s' pml4Phys ↔ ¬ Overlays s pml4Phys mapAddr n := by
  have hlow : ∀ m ≤ k + 1, ∀ v ∈ addresses (rangePage mapAddr) m 0, (pml4Index v).val < 256 := by
    intro m hm v hv
    obtain ⟨j, hj, rfl⟩ := mem_addresses.mp hv
    rw [Nat.zero_add]
    exact (huser j (by omega)).pml4Index_lt
  -- the pages that there are frames for are those before page `k`
  have hfits : ∀ j < n, frameCost s pml4Phys (addresses (rangePage mapAddr) (j + 1) 0) ≤
      freeFrames s.pmm ↔ j < k := by
    intro j hj
    by_cases hjk : j ≤ k
    · rw [← mapsFresh_iff h hr hfl _ (hlow _ (by omega))]
      exact mapsFresh_reach hrun hstop hres
    · refine iff_of_false (fun hcost ↦ ?_) (by omega)
      refine lt_irrefl k ((mapsFresh_reach hrun hstop hres).mp ?_)
      exact (mapsFresh_iff h hr hfl _ (hlow _ le_rfl)).mpr
        ((frameCost_mono s pml4Phys _ 0 (by omega)).trans hcost)
  have hattempt : ∀ role₁, Inv s₁ roots role₁ →
      ∃ role₂, Attempt roots (pageOf pml4Phys) s₁ s₂ role₁ role₂ :=
    fun role₁ h₁ ↦ Attempt.of_failed h₁ hr (huser k le_rfl).pml4Index_lt hfl hstop hres
  constructor
  · rintro hsame ⟨j, hj, hcost, hmapped⟩
    have hjk := (hfits j hj).mp hcost
    obtain ⟨role₁, h₁⟩ := hrun.spec h hr hfl (hlow k (by omega))
    obtain ⟨role₂, h₂⟩ := hattempt role₁ h₁.inv
    obtain ⟨t, ht⟩ := releaseLoop_released (mmapUndoPage_unmaps hr) hr (rangePage mapAddr) k 0 rfl
      h₂.inv (hlow k (by omega))
    apply hmapped
    rw [← hsame.user pml4Phys _ hr (huser j hjk.le), ← unmapped_iff, Unmapped, hs', mmapUndo, ← ht.mem]
    apply ht.inside
    exact ⟨_, mem_addresses.mpr ⟨j, hjk, rfl⟩, by rw [Nat.zero_add]⟩
  · intro hover
    refine Unchanged.of_undone h hr hfl (fun j hj ↦ huser j (by omega)) (fun j hj ↦ ?_) hrun
      hattempt (mmapUndoPage_unmaps hr) (mmapUndoPage_givesBack hr) hs'
    rw [unmapped_iff]
    by_contra hmapped
    exact hover ⟨j, by omega, (hfits j (by omega)).mpr hj, hmapped⟩

end Failure

/-- The tables of a process that maps one page, and one frame left. -/
def lastFrameVm : Vm :=
  tableVm lastFramePmm (fun i ↦ if i = 0 then 0x7007#64 else 0#64) fun _ ↦ 0#8

theorem lastFrameVm_inv : Inv lastFrameVm {3} tableRole :=
  tableVm_inv _ lastFramePmm_owned fun _ _ h ↦ (onePageVm_leaf h).2

end SeedOS.Process
