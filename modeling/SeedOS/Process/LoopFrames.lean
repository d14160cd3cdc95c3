import SeedOS.Process.Accounting
import SeedOS.Process.MapRollback
import SeedOS.Process.PageLoops

namespace SeedOS.Process

open Foundation Memory Function

def IsTable (s : Vm) (pml4Phys : Word) (g : ℕ) : Prop :=
  ∃ p : List (Fin 512), UserPath p ∧ p.length ≤ 3 ∧
    tableAt entryNext s.mem (pageOf pml4Phys) p = some g

def OnlyTables (s s' : Vm) (pml4Phys : Word) : Prop :=
  ∀ g, bitmapIsUsed s'.pmm.bitmap g = true ↔
    bitmapIsUsed s.pmm.bitmap g = true ∨ IsTable s' pml4Phys g

theorem addresses_pairwise {R : Word → Word → Prop} {vaddr : ℕ → Word} {n i : ℕ}
    (h : ∀ j k, j < k → k < n → R (vaddr (i + j)) (vaddr (i + k))) :
    (addresses vaddr n i).Pairwise R := by
  induction n generalizing i with
  | zero => exact .nil
  | succ n ih =>
    refine .cons (fun w hw ↦ ?_) (ih fun j k hjk hk ↦ ?_)
    · obtain ⟨k, hk, rfl⟩ := mem_addresses.mp hw
      rw [Nat.add_assoc, Nat.add_comm 1]
      exact h 0 (k + 1) (by omega) (by omega)
    · rw [Nat.add_assoc, Nat.add_comm 1 j, Nat.add_assoc, Nat.add_comm 1 k]
      exact h (j + 1) (k + 1) (by omega) (by omega)

section Fresh

variable {s s' : Vm} {roots : Set ℕ} {role : Roles} {pml4Phys v flags : Word}

theorem Passed.entryNext {e e' : Word} (h : Passed e e') :
    Memory.entryNext e' = Memory.entryNext e := by
  rcases h with ⟨-, rfl⟩ | ⟨hnone, rfl⟩
  · exact entryNext_or_user e
  · rw [entryNext_zero, entryNext_none.mpr hnone]

theorem mapFreshPage_failed (h : Inv s roots role) (hr : pageOf pml4Phys ∈ roots)
    (hv : (pml4Index v).val < 256) (hfl : MapFlags flags)
    {res : FreshPage} (heq : mapFreshPage s pml4Phys v flags = (res, s')) (hres : res ≠ .mapped) :
    s'.pmm = s.pmm ∧ ∀ g j, bitmapIsUsed s.pmm.bitmap g = true →
      entryNext (s'.mem g j) = entryNext (s.mem g j) := by
  rcases mapFreshPage_cases heq with
    ⟨-, rfl, -⟩ | ⟨f, s₁, code, s₂, htook, hmap, ⟨hc, -, rfl⟩ | ⟨-, hc, -⟩⟩
  · exact ⟨rfl, fun _ _ _ ↦ rfl⟩
  · obtain ⟨h₁, -, -⟩ := takePage_spec h htook
    obtain ⟨-, -, -, hcode⟩ := vmmMapPage_spec h₁ hr hv (update_self _ _ _) hfl hmap
    obtain ⟨rfl, -⟩ := hcode.resolve_left fun h ↦ by omega
    have hrestored := vmmMapPage_restored (congrArg Prod.fst hmap)
    rw [hmap] at hrestored
    constructor
    · dsimp only
      rw [hrestored.pmm]
      exact pmmFree_taken htook.via htook.available htook.takes
    · intro g j hg
      have hgf : g ≠ f := by
        rintro rfl
        rw [htook.available.2.2] at hg
        cases hg
      have hmem : s₁.mem g j = s.mem g j := by rw [htook.eq, Vm.fill_mem, if_neg hgf]
      rw [← hmem]
      rcases hrestored.mem g j ((used_take htook.takes g).mpr (.inl hg)) with hsame | ⟨-, hpass⟩
      · exact congrArg entryNext hsame
      · exact hpass.entryNext
  · exact absurd hc hres

theorem MapsFresh.idle {vs : List Word} (hrun : MapsFresh pml4Phys flags vs s s')
    (h : Inv s roots role) (hr : pageOf pml4Phys ∈ roots) (hfl : MapFlags flags)
    (hv : ∀ v ∈ vs, (pml4Index v).val < 256) (hnone : ∀ v ∈ vs, Unmapped s pml4Phys v)
    (hne : vs.Pairwise fun v w ↦ siteOf (pageOf pml4Phys) v ≠ siteOf (pageOf pml4Phys) w) (g : ℕ) :
    Idle s' (pageOf pml4Phys) g ↔ Idle s (pageOf pml4Phys) g := by
  induction hrun generalizing role with
  | nil s => exact Iff.rfl
  | @cons v vs s s₁ s' hfirst _ ih =>
    have hvv := hv v (by simp)
    obtain ⟨role₁, h₁⟩ := FreshPages.of_page h hr hvv hfl hfirst
    obtain ⟨hhead, htail⟩ := List.pairwise_cons.mp hne
    have hidle := (mapFreshPage_idle h hr hvv hfl hfirst fun _ ↦ hnone v (by simp)).2 g
    rw [← hidle]
    refine ih h₁.inv (fun w hw ↦ hv w (by simp [hw])) (fun w hw ↦ ?_) htail
    rw [Unmapped, h₁.outside _ (siteOf_valid hr (hv w (by simp [hw])))]
    · exact hnone w (by simp [hw])
    · exact (hhead w hw).symm

end Fresh

structure GivenBack (roots : Set ℕ) (r : ℕ) (s s' : Vm) (role' : Roles) (S : Set Site) : Prop where
  inv : Inv s' roots role'
  sole : ∀ σ : Site, σ.Valid roots → Sole s roots σ → Sole s' roots σ
  idle : ∀ g, Idle s' r g ↔ Idle s r g
  used : ∀ g, bitmapIsUsed s.pmm.bitmap g = true → bitmapIsUsed s'.pmm.bitmap g = true ∨
    ∃ σ ∈ S, entryNext (leafEntry s.mem σ) = some g
  leaf : ∀ σ : Site, σ.Valid roots → ∀ g, entryNext (leafEntry s'.mem σ) = some g →
    σ ∉ S ∧ entryNext (leafEntry s.mem σ) = some g

section Given

variable {s s₁ s' : Vm} {roots : Set ℕ} {role role₁ role' : Roles} {r : ℕ} {pml4Phys v : Word}

theorem GivenBack.refl (h : Inv s roots role) : GivenBack roots r s s role ∅ :=
  ⟨h, fun _ _ hs ↦ hs, fun _ ↦ Iff.rfl, fun _ hg ↦ .inl hg, fun _ _ _ hg ↦ ⟨by simp, hg⟩⟩

theorem GivenBack.trans {S T : Set Site} (h : GivenBack roots r s s₁ role₁ S)
    (h' : GivenBack roots r s₁ s' role' T) (hT : ∀ σ ∈ T, σ.Valid roots) :
    GivenBack roots r s s' role' (S ∪ T) where
  inv := h'.inv
  sole σ hσ hs := h'.sole σ hσ (h.sole σ hσ hs)
  idle g := (h'.idle g).trans (h.idle g)
  used g hg := by
    rcases h.used g hg with hg₁ | ⟨σ, hσ, hleaf⟩
    · refine (h'.used g hg₁).imp_right ?_
      rintro ⟨σ, hσ, hleaf⟩
      exact ⟨σ, .inr hσ, (h.leaf σ (hT σ hσ) g hleaf).2⟩
    · exact .inr ⟨σ, .inl hσ, hleaf⟩
  leaf σ hσ g hg := by
    obtain ⟨hne', hg₁⟩ := h'.leaf σ hσ g hg
    obtain ⟨hne, hg₀⟩ := h.leaf σ hσ g hg₁
    exact ⟨fun hc ↦ hc.elim hne hne', hg₀⟩

theorem leaf_of_released {S : Set Site} {t : Vm} (h : Released roots s t s' role S) {σ : Site}
    (hσ : σ.Valid roots) {g : ℕ} (hg : entryNext (leafEntry s'.mem σ) = some g) :
    σ ∉ S ∧ entryNext (leafEntry s.mem σ) = some g := by
  rw [← h.mem] at hg
  by_cases hS : σ ∈ S
  · rw [h.inside σ hS] at hg
    cases hg
  · rw [h.outside σ hσ hS] at hg
    exact ⟨hS, hg⟩

section

variable (h : Inv s roots role) (hr : pageOf pml4Phys ∈ roots) (hv : (pml4Index v).val < 256)
include h hr hv

theorem unmapFree_used (hne : vmmGetPhysical s pml4Phys v ≠ 0#64) {g : ℕ}
    (hg : bitmapIsUsed s.pmm.bitmap g = true) :
    bitmapIsUsed (pmmFree (vmmUnmapPage s pml4Phys v).2.pmm
        (vmmGetPhysical s pml4Phys v)).bitmap g = true ∨
      entryNext (leafEntry s.mem (siteOf (pageOf pml4Phys) v)) = some g := by
  obtain ⟨f, hf, hphys, hmaps⟩ := vmmGetPhysical_data h hr hv hne
  obtain ⟨-, -, hpmm, -⟩ := vmmUnmapPage_spec h hr hv Prod.mk.eta.symm
  rw [hpmm, hphys, used_give (pmmFree_gives (h.owned (.inl hf)))]
  by_cases hgf : g = f
  · exact .inr (hgf ▸ hmaps)
  · exact .inl ⟨hg, hgf⟩

theorem releasePage_used {g : ℕ} (hg : bitmapIsUsed s.pmm.bitmap g = true) :
    bitmapIsUsed (releasePage s pml4Phys v).pmm.bitmap g = true ∨
      entryNext (leafEntry s.mem (siteOf (pageOf pml4Phys) v)) = some g := by
  unfold releasePage
  by_cases hz : vmmGetPhysical s pml4Phys v = 0#64
  · rw [if_pos hz]
    exact .inl hg
  · rw [if_neg hz]
    exact unmapFree_used h hr hv hz hg

theorem mmapUndoPage_used {g : ℕ} (hg : bitmapIsUsed s.pmm.bitmap g = true) :
    bitmapIsUsed (mmapUndoPage s pml4Phys v).pmm.bitmap g = true ∨
      entryNext (leafEntry s.mem (siteOf (pageOf pml4Phys) v)) = some g := by
  unfold mmapUndoPage
  by_cases hz : vmmGetPhysical s pml4Phys v = 0#64
  · obtain ⟨-, -, hpmm, -⟩ := vmmUnmapPage_spec h hr hv Prod.mk.eta.symm
    simp only [hz, if_true, hpmm]
    exact .inl hg
  · simp only [hz, if_false]
    exact unmapFree_used h hr hv hz hg

end

/-- One round of a release loop gives its page back, if no other page maps the frame. -/
def GivesBack (roots : Set ℕ) (pml4Phys : Word) (body : Vm → Word → Vm) : Prop :=
  ∀ {s : Vm} {role : Roles} {v : Word}, Inv s roots role → (pml4Index v).val < 256 →
    Sole s roots (siteOf (pageOf pml4Phys) v) →
    ∃ role', GivenBack roots (pageOf pml4Phys) s (body s v) role' {siteOf (pageOf pml4Phys) v}

theorem releasePage_givesBack (hr : pageOf pml4Phys ∈ roots) :
    GivesBack roots pml4Phys fun s v ↦ releasePage s pml4Phys v := by
  intro s role v h hv hsole
  obtain ⟨role', hprog⟩ := releasePage_progress h hr hv hsole
  obtain ⟨t, ht⟩ := releasePage_unmaps hr rfl h hv
  refine ⟨role', hprog.inv, hprog.sole, (releasePage_idle h hr hv hsole).2, fun g hg ↦ ?_,
    fun σ hσ g hg ↦ leaf_of_released ht hσ hg⟩
  simpa using releasePage_used h hr hv hg

theorem mmapUndoPage_givesBack (hr : pageOf pml4Phys ∈ roots) :
    GivesBack roots pml4Phys fun s v ↦ mmapUndoPage s pml4Phys v := by
  intro s role v h hv hsole
  obtain ⟨role', hprog⟩ := mmapUndoPage_progress h hr hv hsole
  obtain ⟨t, ht⟩ := mmapUndoPage_unmaps hr rfl h hv
  refine ⟨role', hprog.inv, hprog.sole, (mmapUndoPage_idle h hr hv hsole).2, fun g hg ↦ ?_,
    fun σ hσ g hg ↦ leaf_of_released ht hσ hg⟩
  simpa using mmapUndoPage_used h hr hv hg

theorem releaseLoop_givenBack {body : Vm → Word → Vm} (hbody : GivesBack roots pml4Phys body)
    (hr : pageOf pml4Phys ∈ roots) (vaddr : ℕ → Word) (n i : ℕ) (h : Inv s roots role)
    (hv : ∀ v ∈ addresses vaddr n i, (pml4Index v).val < 256)
    (hsole : ∀ σ ∈ sitesOf pml4Phys (addresses vaddr n i), Sole s roots σ) :
    ∃ role', GivenBack roots (pageOf pml4Phys) s (releaseLoop body vaddr n i s) role'
      (sitesOf pml4Phys (addresses vaddr n i)) := by
  induction n generalizing i s role with
  | zero =>
    have hnone : sitesOf pml4Phys (addresses vaddr 0 i) = ∅ := by simp [sitesOf, addresses]
    rw [hnone]
    exact ⟨role, .refl h⟩
  | succ n ih =>
    rw [addresses, sitesOf_cons] at hsole
    have hvs : ∀ w ∈ addresses vaddr n (i + 1), (pml4Index w).val < 256 :=
      fun w hw ↦ hv w (by simp [addresses, hw])
    have hvalid : ∀ σ ∈ sitesOf pml4Phys (addresses vaddr n (i + 1)), σ.Valid roots := by
      rintro σ ⟨w, hw, rfl⟩
      exact siteOf_valid hr (hvs w hw)
    obtain ⟨role₁, h₁⟩ := hbody h (hv (vaddr i) (by simp [addresses])) (hsole _ (.inl rfl))
    obtain ⟨role₂, h₂⟩ := ih (i + 1) h₁.inv hvs fun σ hσ ↦
      h₁.sole σ (hvalid σ hσ) (hsole σ (.inr hσ))
    rw [addresses, sitesOf_cons]
    exact ⟨role₂, h₁.trans h₂ hvalid⟩

end Given

section Undone

variable {s s₁ s₂ s' : Vm} {roots : Set ℕ} {role role₁ role' : Roles} {pml4Phys flags : Word}
  {S : Set Site}

theorem onlyTables_of_undone (h : Inv s roots role) (hr : pageOf pml4Phys ∈ roots)
    (hfl : MapFlags flags)
    (hS : ∀ σ ∈ S, σ.Valid roots) (hfresh : FreshPages roots s s₁ role role₁ flags S)
    (hpmm : s₂.pmm = s₁.pmm) (hsame : SameLeaves s₁ s₂ roots)
    (hidle : ∀ g, Idle s₂ (pageOf pml4Phys) g ↔ Idle s (pageOf pml4Phys) g)
    (hgiven : GivenBack roots (pageOf pml4Phys) s₂ s' role' S) : OnlyTables s s' pml4Phys := by
  intro g
  constructor
  · intro hg
    by_cases hreach : Reached s'.mem (pageOf pml4Phys) g
    · rcases (reached_iff_role hgiven.inv hr).mp hreach with ⟨p, hrole⟩ | ⟨σ, hσ, -, hleaf⟩
      · obtain ⟨-, hu, hl⟩ := hgiven.inv.forest.live hrole
        exact .inr ⟨p, hu, hl, (hgiven.inv.tableAt_iff hr hu hl).mpr hrole⟩
      · obtain ⟨hne, hleaf₂⟩ := hgiven.leaf σ hσ g hleaf
        rw [hsame σ hσ, hfresh.outside σ hσ hne] at hleaf₂
        exact .inl (h.owned (.inl (h.leafEntry_data hσ hleaf₂))).2.2
    · exact .inl ((hidle g).mp ((hgiven.idle g).mp ⟨hg, hreach⟩)).1
  · rintro (hg | ⟨p, hu, hl, ht⟩)
    · have hg₂ : bitmapIsUsed s₂.pmm.bitmap g = true := by
        rw [hpmm]
        exact hfresh.taken.2 g hg
      refine (hgiven.used g hg₂).resolve_right ?_
      rintro ⟨σ, hσ, hleaf⟩
      obtain ⟨f, hav, -, -, hentry⟩ := hfresh.inside σ hσ
      rw [hsame σ (hS σ hσ), hentry, entryNext_entry hav.lt hfl, Option.some.injEq] at hleaf
      rw [← hleaf, hav.2.2] at hg
      cases hg
    · have hrole := (hgiven.inv.tableAt_iff hr hu hl).mp ht
      exact (hgiven.inv.owned (.inr ⟨_, _, hrole⟩)).2.2

end Undone

end SeedOS.Process
