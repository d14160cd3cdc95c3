import SeedOS.Memory.CopySpec
import SeedOS.Process.Frames

namespace SeedOS.Process

open Foundation Memory Function

def TablesUsed (s : Vm) (pml4Phys : Word) : Prop :=
  ∀ p t, p.length ≤ 3 → tableAt entryNext s.mem (pageOf pml4Phys) p = some t →
    bitmapIsUsed s.pmm.bitmap t = true

/-- Entry `i` of table `t` is one of the three intermediate entries of `virt`. -/
def OnWay (s : Vm) (pml4Phys virt : Word) (t : ℕ) (i : Fin 512) : Prop :=
  ∃ p, p ++ [i] <+: [pml4Index virt, pdptIndex virt, pdIndex virt] ∧
    tableAt entryNext s.mem (pageOf pml4Phys) p = some t

def Passed (e e' : Word) : Prop :=
  (hasFlag e ptePresent = true ∧ e' = e ||| pteUser) ∨
    (hasFlag e ptePresent = false ∧ e' = 0#64)

/-- The allocator is as before, and so are the frames in use, up to the entries in `W`. -/
structure Restored (s s' : Vm) (W : ℕ → Fin 512 → Prop) : Prop where
  pmm : s'.pmm = s.pmm
  mem : ∀ g j, bitmapIsUsed s.pmm.bitmap g = true →
    s'.mem g j = s.mem g j ∨ (W g j ∧ Passed (s.mem g j) (s'.mem g j))

section Levels

variable {s s₁ s₂ : Vm} {W W' : ℕ → Fin 512 → Prop} {t t' : ℕ} {i : Fin 512} {flags : Word}

theorem Restored.refl (s : Vm) (W : ℕ → Fin 512 → Prop) : Restored s s W :=
  ⟨rfl, fun _ _ _ ↦ .inl rfl⟩

theorem or_user_idem (e : Word) : e ||| pteUser ||| pteUser = e ||| pteUser := by
  rw [BitVec.or_assoc, BitVec.or_self]

theorem Restored.follow (h : Restored s₁ s₂ W') (hpres : entryNext (s.mem t i) = some t')
    (hs : s₁ = s ∨ s₁ = s.write t i (s.mem t i ||| pteUser)) (hself : W t i)
    (hW : ∀ g j, W' g j → W g j) : Restored s s₂ W := by
  obtain ⟨hp, -⟩ := entryNext_some.mp hpres
  rcases hs with rfl | rfl
  · exact ⟨h.pmm, fun g j hg ↦ (h.mem g j hg).imp id fun ⟨hw, hpass⟩ ↦ ⟨hW g j hw, hpass⟩⟩
  · refine ⟨h.pmm, fun g j hg ↦ ?_⟩
    have hmem := h.mem g j hg
    rw [Vm.write_mem] at hmem
    split_ifs at hmem with hc
    · obtain ⟨rfl, rfl⟩ := hc
      refine .inr ⟨hself, .inl ⟨hp, ?_⟩⟩
      rcases hmem with hmem | ⟨-, ⟨-, hmem⟩ | ⟨hnp, -⟩⟩
      · exact hmem
      · rw [hmem, or_user_idem]
      · rw [hasFlag_or, hp] at hnp
        cases hnp
    · exact hmem.imp id fun ⟨hw, hpass⟩ ↦ ⟨hW g j hw, hpass⟩

theorem pmmFree_taken {p p' : Pmm} {f : ℕ} (hvia : PmmVia p p') (hav : p.Available f)
    (htk : p.Takes p' f) : pmmFree p' (pageAddr f) = p := by
  refine (hvia.trans (via_free _ _)).eq_of_used fun g ↦ ?_
  rw [used_give (pmmFree_gives (htk.owned_self hav)), used_take htk]
  refine ⟨fun ⟨hg, hne⟩ ↦ hg.resolve_right hne, fun hg ↦ ⟨.inl hg, ?_⟩⟩
  rintro rfl
  rw [hav.2.2] at hg
  cases hg

theorem Restored.undo (h : Restored s₁ s₂ W')
    (hd : descend s t i flags = some (t', pageAddr t', s₁))
    (hnone : hasFlag (s.mem t i) ptePresent = false) {pmm : Pmm} (hav : s.pmm.Available t')
    (htk : s.pmm.Takes pmm t') (hne : pageAddr t' ≠ 0#64)
    (hs : s₁ = ({ s with pmm := pmm }.fill t' fun _ ↦ 0#64).write t i
      (pageAddr t' ||| intermediateFlags flags))
    (hself : W t i) (hbelow : ∀ g j, W' g j → g = t') :
    Restored s (unlink s₂ t i (pageAddr t')) W := by
  have hpmm : s₂.pmm = pmm := by
    rw [h.pmm, hs]
    rfl
  have hfree : bitmapIsUsed s.pmm.bitmap t' = false := hav.2.2
  rw [unlink_fresh _ _ _ hne]
  constructor
  · have hvia := descend_via hd
    rw [← h.pmm, hpmm] at hvia
    dsimp only
    rw [hpmm]
    exact pmmFree_taken hvia hav htk
  · intro g j hg
    have hgt : g ≠ t' := by
      rintro rfl
      rw [hfree] at hg
      cases hg
    have hg₁ : bitmapIsUsed s₁.pmm.bitmap g = true := by
      rw [hs]
      exact (used_take htk g).mpr (.inl hg)
    dsimp only
    rw [Vm.write_mem]
    split_ifs with hc
    · obtain ⟨rfl, rfl⟩ := hc
      exact .inr ⟨hself, .inr ⟨hnone, rfl⟩⟩
    · rcases h.mem g j hg₁ with hmem | ⟨hw, -⟩
      · rw [hmem, hs, Vm.write_mem, if_neg hc, Vm.fill_mem, if_neg hgt]
        exact .inl rfl
      · exact absurd (hbelow g j hw) hgt

end Levels

section Rollback

variable {s : Vm} {pml4Phys virt flags : Word}

theorem onWay_pml4 (s : Vm) (pml4Phys virt : Word) :
    OnWay s pml4Phys virt (pageOf pml4Phys) (pml4Index virt) :=
  ⟨[], ⟨[pdptIndex virt, pdIndex virt], rfl⟩, rfl⟩

theorem onWay_pdpt {t : ℕ} (h : entryNext (s.mem (pageOf pml4Phys) (pml4Index virt)) = some t) :
    OnWay s pml4Phys virt t (pdptIndex virt) :=
  ⟨[pml4Index virt], ⟨[pdIndex virt], rfl⟩, by simp [tableAt, h]⟩

theorem restored_unlink_pd {s₂ : Vm} {t pd : ℕ} {i : Fin 512} {phys : Word}
    (hd : descend s t i flags = some (pd, phys, s₂)) :
    Restored s (unlink s₂ t i phys) fun g j ↦ g = t ∧ j = i := by
  cases descend_cases hd with
  | follow hpres hs =>
    rw [unlink, if_pos rfl]
    exact (Restored.refl s₂ fun _ _ ↦ False).follow hpres hs ⟨rfl, rfl⟩ fun _ _ hf ↦ hf.elim
  | fresh hnone pmm hav htk hne hs =>
    exact (Restored.refl s₂ fun _ _ ↦ False).undo hd hnone hav htk hne hs ⟨rfl, rfl⟩
      fun _ _ hf ↦ hf.elim

theorem restored_unlink_pdpt {s₁ s₂ : Vm} {pdpt : ℕ} {phys : Word}
    (hd : descend s (pageOf pml4Phys) (pml4Index virt) flags = some (pdpt, phys, s₁))
    (h : Restored s₁ s₂ fun g j ↦ g = pdpt ∧ j = pdptIndex virt) :
    Restored s (unlink s₂ (pageOf pml4Phys) (pml4Index virt) phys) (OnWay s pml4Phys virt) := by
  cases descend_cases hd with
  | follow hpres hs =>
    rw [unlink, if_pos rfl]
    refine h.follow hpres hs (onWay_pml4 s pml4Phys virt) ?_
    rintro g j ⟨rfl, rfl⟩
    exact onWay_pdpt hpres
  | fresh hnone pmm hav htk hne hs =>
    exact h.undo hd hnone hav htk hne hs (onWay_pml4 s pml4Phys virt) fun _ _ hw ↦ hw.1

theorem vmmMapPage_restored {phys : Word}
    (hfail : (vmmMapPage s pml4Phys virt phys flags).1 = -1) :
    Restored s (vmmMapPage s pml4Phys virt phys flags).2 (OnWay s pml4Phys virt) := by
  simp only [vmmMapPage] at hfail ⊢
  cases hd₄ : descend s (pageOf pml4Phys) (pml4Index virt) flags with
  | none => exact Restored.refl s _
  | some r₄ =>
    obtain ⟨pdpt, newPdpt, s₁⟩ := r₄
    rw [hd₄] at hfail
    dsimp only at hfail ⊢
    cases hd₃ : descend s₁ pdpt (pdptIndex virt) flags with
    | none => exact restored_unlink_pdpt hd₄ (Restored.refl s₁ _)
    | some r₃ =>
      obtain ⟨pd, newPd, s₂⟩ := r₃
      rw [hd₃] at hfail
      dsimp only at hfail ⊢
      cases hd₂ : descend s₂ pd (pdIndex virt) flags with
      | none => exact restored_unlink_pdpt hd₄ (restored_unlink_pd hd₃)
      | some r₂ =>
        rw [hd₂] at hfail
        exact absurd hfail (by simp)

end Rollback

/-- A failed `vmm_map_page` rolls back: the allocator is as it was, and every entry of every
table too, but for the intermediate entries of the address. -/
theorem map_page_rolls_back (s : Vm) (pml4Phys virt phys flags : Word)
    (hused : TablesUsed s pml4Phys)
    (hfail : (vmmMapPage s pml4Phys virt phys flags).1 = -1) :
    (vmmMapPage s pml4Phys virt phys flags).2.pmm = s.pmm ∧
    ∀ p t j, p.length ≤ 3 → tableAt entryNext s.mem (pageOf pml4Phys) p = some t →
      (vmmMapPage s pml4Phys virt phys flags).2.mem t j = s.mem t j ∨
      (OnWay s pml4Phys virt t j ∧
        Passed (s.mem t j) ((vmmMapPage s pml4Phys virt phys flags).2.mem t j)) := by
  have h := vmmMapPage_restored hfail
  exact ⟨h.pmm, fun p t j hl ht ↦ h.mem t j (hused p t hl ht)⟩

def scarceTables : Vm where
  mem f i := if f = 3 ∧ i = 1 then 0x2#64 else onePage.mem f i
  pmm := ⟨fun i ↦ if i = 1 then 0xFE#8 else 0xFF#8, 32, 1#64, Pmm.small_le⟩
  pageInfo := none
  maxPages := 32
  kernelPml4Phys := 0x1000#64

theorem scarceTables_used : TablesUsed scarceTables 0x3000#64 := by
  intro p t hl ht
  have hmem : ∀ f i, entryNext (scarceTables.mem f i) = entryNext (onePage.mem f i) := by
    intro f i
    simp only [scarceTables]
    split_ifs with hc
    · obtain ⟨rfl, rfl⟩ := hc
      decide
    · rfl
  have ht' : tableAt entryNext onePage.mem 3 p = some t := by
    rw [← ht]
    exact tableAt_congr 3 p fun _ f i _ _ ↦ (hmem f i).symm
  rcases onePage_tableAt hl ht' with ⟨_, rfl⟩ | ⟨_, rfl⟩ | ⟨_, rfl⟩ | ⟨_, rfl⟩ <;> decide

theorem map_page_rolls_back_scarceTables :
    (vmmMapPage scarceTables 0x3000#64 0x8000000000#64 0x7000#64 0x7#64).2.pmm =
      scarceTables.pmm :=
  (map_page_rolls_back scarceTables 0x3000#64 0x8000000000#64 0x7000#64 0x7#64 scarceTables_used
    (by decide +kernel)).1

/-- The entry with the stray bit is cleared. -/
theorem scarceTables_cleared :
    TablesUsed scarceTables 0x3000#64 ∧
    (vmmMapPage scarceTables 0x3000#64 0x8000000000#64 0x7000#64 0x7#64).1 = -1 ∧
    scarceTables.mem 3 1 = 0x2#64 ∧
    (vmmMapPage scarceTables 0x3000#64 0x8000000000#64 0x7000#64 0x7#64).2.mem 3 1 = 0#64 :=
  ⟨scarceTables_used, by decide +kernel⟩

end SeedOS.Process
